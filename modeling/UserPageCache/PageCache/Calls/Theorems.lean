import UserPageCache.PageCache.Calls

namespace UserPageCache.PageCache

open SsdCache (Operate)

variable {s s' : State} {stream : UFile} {buffer : Nat → UInt8} {len index : Nat} {path : CString}

section Pages

theorem u32_lt (n : Nat) : u32 n < 2 ^ 32 := Nat.mod_lt _ (by decide)

theorem inc_u32 (n k : Nat) : inc (u32 (n + k)) = u32 (n + (k + 1)) := by
  unfold inc u32
  omega

theorem pageKey_zero (stream : UFile) : (pageKey stream 0).2 = streamIndex stream :=
  u32_of_lt (u32_lt _)

theorem inc_pageKey (stream : UFile) (k : Nat) :
    inc (pageKey stream k).2 = (pageKey stream (k + 1)).2 := inc_u32 _ _

theorem writeLen_eq {k : Nat} {first : Bool} (hf : first = true → k = 0) :
    writeLen len first (k * PAGE_SIZE) =
      (min PAGE_SIZE (len - k * PAGE_SIZE), decide (len - k * PAGE_SIZE ≤ PAGE_SIZE)) := by
  unfold writeLen
  cases first with
  | true =>
      obtain rfl := hf rfl
      by_cases hl : len ≤ PAGE_SIZE
      · simp [hl]
      · simp [hl, Nat.min_eq_left (Nat.le_of_not_le hl)]
  | false =>
      by_cases hl : len - k * PAGE_SIZE ≤ PAGE_SIZE
      · simp [hl]
      · simp [hl, Nat.min_eq_left (Nat.le_of_not_le hl)]

theorem last_page {k : Nat} (hk : k + 1 = writeCount len) : len - k * PAGE_SIZE ≤ PAGE_SIZE ∧
    k * PAGE_SIZE + min PAGE_SIZE (len - k * PAGE_SIZE) = len := by
  unfold writeCount PAGE_SIZE at *
  omega

theorem more_pages {k : Nat} (hk : k + 1 < writeCount len) : ¬ len - k * PAGE_SIZE ≤ PAGE_SIZE ∧
    k * PAGE_SIZE + min PAGE_SIZE (len - k * PAGE_SIZE) = (k + 1) * PAGE_SIZE := by
  unfold writeCount PAGE_SIZE at *
  omega

theorem writeCount_le : writeCount len ≤ len / PAGE_SIZE + 1 := by
  unfold writeCount PAGE_SIZE
  omega

-- What each page of a write keeps holds after all of them.
theorem uwritePages_rule {P : Nat → State → Prop} (h0 : P 0 s)
    (hstep : ∀ k < writeCount len, ∀ s, P k s →
      ∃ s', (writeStep stream buffer len k).act s = .ok s' ∧ P (k + 1) s') :
    ∃ s', uwritePages stream.pathName buffer len (len / PAGE_SIZE + 1) s 0 (streamIndex stream)
      true = .ok (s', len) ∧ P (writeCount len) s' := by
  have loop : ∀ n k fuel first s, k + (n + 1) = writeCount len → n < fuel →
      (first = true → k = 0) → P k s →
      ∃ s', uwritePages stream.pathName buffer len fuel s (k * PAGE_SIZE) (pageKey stream k).2 first =
        .ok (s', len) ∧ P (writeCount len) s' := by
    intro n
    induction n with
    | zero =>
        intro k fuel first s hk hfuel hf hp
        obtain ⟨fuel, rfl⟩ := Nat.exists_eq_succ_of_ne_zero (Nat.pos_iff_ne_zero.mp hfuel)
        obtain ⟨s', hact, hp'⟩ := hstep k (by omega) s hp
        have hact' : uwritePage stream.pathName s (pageKey stream k).2
          (min PAGE_SIZE (len - k * PAGE_SIZE)) (fun i => buffer (k * PAGE_SIZE + i)) = .ok s' := hact
        obtain ⟨hlast, hoff⟩ := last_page hk
        refine ⟨s', ?_, hk ▸ hp'⟩
        unfold uwritePages
        simp only [writeLen_eq hf, hact', hlast, decide_true, bind, Except.bind, ite_true, hoff]
        rfl
    | succ n ih =>
        intro k fuel first s hk hfuel hf hp
        obtain ⟨fuel, rfl⟩ := Nat.exists_eq_succ_of_ne_zero (by omega : fuel ≠ 0)
        obtain ⟨s', hact, hp'⟩ := hstep k (by omega) s hp
        have hact' : uwritePage stream.pathName s (pageKey stream k).2
          (min PAGE_SIZE (len - k * PAGE_SIZE)) (fun i => buffer (k * PAGE_SIZE + i)) = .ok s' := hact
        have hnext : k + 1 < writeCount len := by omega
        obtain ⟨hmore, hoff⟩ := more_pages hnext
        obtain ⟨s'', heq, hp''⟩ := ih (k + 1) fuel false s' (by omega) (by omega) (by simp) hp'
        refine ⟨s'', ?_, hp''⟩
        unfold uwritePages
        simp only [writeLen_eq hf, hact', hmore, decide_false, bind, Except.bind, hoff]
        rw [inc_pageKey]
        exact heq
  obtain ⟨s', heq, hp⟩ := loop ((len - 1) / PAGE_SIZE) 0 (len / PAGE_SIZE + 1) true s
    (Nat.zero_add _) (Nat.lt_of_succ_le writeCount_le) (fun _ => rfl) h0
  rw [pageKey_zero, Nat.zero_mul] at heq
  exact ⟨s', heq, hp⟩

theorem readLen_eq {k copyLen : Nat} {first : Bool} (hf : first = true → k = 0)
    (hk : k * PAGE_SIZE < len) (hc : copyLen = if k = 0 then 0 else PAGE_SIZE) :
    readLen len first copyLen =
      if len ≤ 2 * PAGE_SIZE then min PAGE_SIZE (len - k * PAGE_SIZE) else PAGE_SIZE := by
  unfold readLen
  unfold PAGE_SIZE at *
  cases first with
  | true =>
      obtain rfl := hf rfl
      simp only [ite_true]
      split <;> split <;> omega
  | false =>
      subst hc
      simp only [Bool.false_eq_true, ite_false]
      by_cases h0 : k = 0
      · simp only [h0, ite_true]
        split <;> split <;> omega
      · simp only [h0, ite_false]
        split <;> split <;> omega

theorem readLen_bounds {k copyLen : Nat} {first : Bool} (hf : first = true → k = 0)
    (hk : k * PAGE_SIZE < len) (hc : copyLen = if k = 0 then 0 else PAGE_SIZE) :
    readLen len first copyLen ≤ PAGE_SIZE ∧
      (k + 1 = readCount len → len ≤ k * PAGE_SIZE + readLen len first copyLen) ∧
      (k + 1 ≠ readCount len → readLen len first copyLen = PAGE_SIZE) ∧
      (len - k * PAGE_SIZE ≤ readLen len first copyLen ∨ readLen len first copyLen = PAGE_SIZE) := by
  rw [readLen_eq hf hk hc]
  clear hc hf
  unfold readCount
  unfold PAGE_SIZE at *
  split <;> omega

theorem copied {Q : Nat → Frame → Prop} {frame : Frame} {k copyLen : Nat}
    (hb : ∀ i < k * PAGE_SIZE, i < len → ∃ frame, Q (i / PAGE_SIZE) frame ∧ buffer i = frame.bytes i)
    (hframe : Q k frame)
    (hmin : len - k * PAGE_SIZE ≤ copyLen ∨ copyLen = PAGE_SIZE) :
    ∀ i < (k + 1) * PAGE_SIZE, i < len →
      ∃ frame', Q (i / PAGE_SIZE) frame' ∧
        Bytes.write buffer (k * PAGE_SIZE) copyLen frame.bytes i = frame'.bytes i := by
  intro i hi hlen
  unfold Bytes.write
  by_cases hlow : i < k * PAGE_SIZE
  · rw [if_neg (by omega)]
    exact hb i hlow hlen
  · have hdiv : i / PAGE_SIZE = k := by
      unfold PAGE_SIZE at *
      omega
    have hmod : (i - k * PAGE_SIZE) % PAGE_SIZE = i % PAGE_SIZE := by
      unfold PAGE_SIZE at *
      omega
    rw [if_pos (by unfold PAGE_SIZE at *; omega), hdiv]
    refine ⟨frame, hframe, ?_⟩
    unfold Frame.bytes
    simp only [hmod]

-- What each page of a read keeps holds after all of them, and the buffer gets the pages.
theorem ureadPages_rule {P : Nat → State → Prop} {Q : Nat → Frame → Prop} (buffer : Nat → UInt8)
    (first : Bool) (h0 : P 0 s)
    (hlen : len + PAGE_SIZE ≤ 2 ^ 32)
    (hstep : ∀ k < readCount len, ∀ s, P k s → ∃ s' pg, ureadPage stream.pathName s (pageKey stream k).2 =
      .ok (s', pg) ∧ Q k (s'.physBase pg) ∧ P (k + 1) s') :
    ∃ s' buffer' n, ureadPages stream.pathName len (len / PAGE_SIZE + 2) s buffer 0 0
      (streamIndex stream) first = .ok (s', buffer', n) ∧ P (readCount len) s' ∧
      (∀ i < len, ∃ frame, Q (i / PAGE_SIZE) frame ∧ buffer' i = frame.bytes i) ∧
      len ≤ n ∧ n ≤ readCount len * PAGE_SIZE := by
  have loop : ∀ n k fuel first s buffer offset copyLen, k + n = readCount len → n < fuel →
      (first = true → k = 0) → (n = 0 → len ≤ offset ∧ offset ≤ k * PAGE_SIZE) →
      (n ≠ 0 → offset = k * PAGE_SIZE ∧ copyLen = if k = 0 then 0 else PAGE_SIZE) →
      (∀ i < k * PAGE_SIZE, i < len → ∃ frame, Q (i / PAGE_SIZE) frame ∧ buffer i = frame.bytes i) → P k s →
      ∃ s' buffer' n', ureadPages stream.pathName len fuel s buffer offset copyLen
        (pageKey stream k).2 first = .ok (s', buffer', n') ∧ P (readCount len) s' ∧
        (∀ i < len, ∃ frame, Q (i / PAGE_SIZE) frame ∧ buffer' i = frame.bytes i) ∧
        len ≤ n' ∧ n' ≤ readCount len * PAGE_SIZE := by
    intro n
    induction n with
    | zero =>
        intro k fuel first s buffer offset copyLen hk hfuel hf hdone _ hb hp
        obtain ⟨fuel, rfl⟩ := Nat.exists_eq_succ_of_ne_zero (Nat.pos_iff_ne_zero.mp hfuel)
        obtain ⟨hlow, hhigh⟩ := hdone rfl
        obtain rfl : k = readCount len := hk
        refine ⟨s, buffer, offset, ?_, hp, fun i hi => hb i (by omega) hi, hlow, hhigh⟩
        unfold ureadPages
        rw [if_neg (by omega)]
    | succ n ih =>
        intro k fuel first s buffer offset copyLen hk hfuel hf _ hmore hb hp
        obtain ⟨fuel, rfl⟩ := Nat.exists_eq_succ_of_ne_zero (by omega : fuel ≠ 0)
        obtain ⟨rfl, hc⟩ := hmore (by omega)
        have hin : k * PAGE_SIZE < len := by
          unfold readCount PAGE_SIZE at *
          omega
        obtain ⟨s', pg, hact, hframe, hp'⟩ := hstep k (by omega) s hp
        obtain ⟨hle, hlast, hfull, hmin⟩ := readLen_bounds hf hin hc
        generalize hread : readLen len first copyLen = c at *
        have hwrap : u32 (k * PAGE_SIZE + c) = k * PAGE_SIZE + c := u32_of_lt (by omega)
        obtain ⟨s'', buffer', n', heq, hrest⟩ := ih (k + 1) fuel false s'
          (Bytes.write buffer (k * PAGE_SIZE) c (s'.physBase pg).bytes) (k * PAGE_SIZE + c) c
          (by omega) (by omega) (by simp)
          (fun h0 => ⟨hlast (by omega), by rw [Nat.succ_mul]; omega⟩)
          (fun h0 => by
            rw [if_neg (by omega), hfull (by omega), Nat.succ_mul]
            exact ⟨rfl, rfl⟩)
          (copied hb hframe hmin) hp'
        refine ⟨s'', buffer', n', ?_, hrest⟩
        unfold ureadPages
        rw [if_pos hin]
        simp only [hact, hread, hwrap, bind, Except.bind]
        rw [inc_pageKey]
        exact heq
  have hfuel : readCount len < len / PAGE_SIZE + 2 := by
    unfold readCount PAGE_SIZE
    omega
  obtain ⟨s', buffer', n, heq, hrest⟩ := loop (readCount len) 0 (len / PAGE_SIZE + 2) first s buffer
    0 0 (Nat.zero_add _) hfuel (fun _ => rfl)
    (fun h0 => by
      unfold readCount PAGE_SIZE at h0
      omega)
    (fun _ => ⟨(Nat.zero_mul _).symm, rfl⟩) (fun i hi => absurd hi (by omega)) h0
  rw [pageKey_zero] at heq
  exact ⟨s', buffer', n, heq, hrest⟩

def Returns (step : PageStep) (s : State) : Prop := ∃ s', step.act s = .ok s'

-- A read that returns has come through all its pages.
theorem ureadPages_returns {n k fuel offset copyLen : Nat} {first : Bool}
    {r : State × (Nat → UInt8) × Nat} (hlen : len + PAGE_SIZE ≤ 2 ^ 32) (hk : k + n = readCount len)
    (hf : first = true → k = 0)
    (hmore : n ≠ 0 → offset = k * PAGE_SIZE ∧ copyLen = if k = 0 then 0 else PAGE_SIZE)
    (h : ureadPages stream.pathName len fuel s buffer offset copyLen (pageKey stream k).2 first =
      .ok r) :
    System.Along PageStep.act Returns ((List.range' k n).map fun k => .read (pageKey stream k)) s := by
  induction n generalizing k fuel s buffer offset copyLen first with
  | zero => trivial
  | succ n ih =>
      obtain ⟨rfl, hc⟩ := hmore (by omega)
      have hin : k * PAGE_SIZE < len := by
        unfold readCount PAGE_SIZE at *
        omega
      cases fuel with
      | zero => simp [ureadPages] at h
      | succ fuel =>
          unfold ureadPages at h
          rw [if_pos hin] at h
          obtain ⟨⟨s', pg⟩, hact, h⟩ := bind_eq_ok.mp h
          have hstep : (PageStep.read (pageKey stream k)).act s = .ok s' := by
            have hread : ureadPage (pageKey stream k).1 s (pageKey stream k).2 = .ok (s', pg) := hact
            simp only [PageStep.act, hread, bind, Except.bind, pure, Except.pure]
          obtain ⟨hle, -, hfull, -⟩ := readLen_bounds hf hin hc
          rw [List.range'_succ, List.map_cons, System.Along, hstep]
          rw [inc_pageKey, u32_of_lt (by omega)] at h
          refine ⟨⟨s', hstep⟩, ih (by omega) (by simp) (fun h0 => ?_) h⟩
          rw [if_neg (by omega), hfull (by omega), Nat.succ_mul]
          exact ⟨rfl, rfl⟩

end Pages

section Bypass

-- The k-th page of a write that goes to the store.
def bypassFrame (buffer : Nat → UInt8) (len k : Nat) : Frame :=
  fillFrame zeroFrame (len - k * PAGE_SIZE) fun i => buffer (k * PAGE_SIZE + i)

theorem bypassFrame_full {k : Nat} (hk : k + 1 < writeCount len) :
    bypassFrame buffer len k = sliceFrame buffer (k * PAGE_SIZE) := by
  funext j
  unfold bypassFrame fillFrame sliceFrame
  rw [if_pos]
  have hj := j.isLt
  unfold writeCount PAGE_SIZE at *
  omega

theorem bypassWritePages_rule {P : Nat → Store → Prop} (n : Nat)
    (hstep : ∀ k < writeCount len, ∀ d, P k d →
      P (k + 1) (submitPio d .write stream.pathName (pageKey stream k).2 (bypassFrame buffer len k)).1)
    {k fuel : Nat} {d : Store} (hk : k + n + 1 = writeCount len) (hfuel : n < fuel) (hp : P k d) :
    ∃ d', bypassWritePages stream.pathName buffer len fuel d (k * PAGE_SIZE) (pageKey stream k).2 =
      .ok (d', (k + n) * PAGE_SIZE, (pageKey stream (k + n)).2) ∧ P (k + n) d' := by
  induction n generalizing k fuel d with
  | zero =>
      obtain ⟨fuel, rfl⟩ := Nat.exists_eq_succ_of_ne_zero (Nat.pos_iff_ne_zero.mp hfuel)
      refine ⟨d, ?_, hp⟩
      unfold bypassWritePages
      rw [if_neg (Nat.not_lt.mpr (last_page hk).1)]
      rfl
  | succ n ih =>
      obtain ⟨fuel, rfl⟩ := Nat.exists_eq_succ_of_ne_zero (by omega : fuel ≠ 0)
      have hp' := hstep k (by omega) d hp
      rw [bypassFrame_full (by omega)] at hp'
      obtain ⟨d', heq, hd⟩ := ih (by omega) (Nat.lt_of_succ_lt_succ hfuel) hp'
      rw [Nat.succ_add, ← Nat.add_succ] at heq hd
      refine ⟨d', ?_, hd⟩
      unfold bypassWritePages
      rw [if_pos (Nat.lt_of_not_le (more_pages (by omega)).1), inc_pageKey]
      rw [Nat.succ_mul] at heq
      exact heq

theorem bypassReadPages_rule {P : Nat → Store → Prop} {Q : Nat → Frame → Prop} (n : Nat)
    (hstep : ∀ k < readCount len, ∀ d frame, P k d →
      Q k (submitPio d .read stream.pathName (pageKey stream k).2 frame).2 ∧
      P (k + 1) (submitPio d .read stream.pathName (pageKey stream k).2 frame).1)
    {k fuel : Nat} {d : Store} {buffer : Nat → UInt8} (hk : k + n = len / PAGE_SIZE)
    (hfuel : n < fuel) (hp : P k d)
    (hb : ∀ i < k * PAGE_SIZE, i < len → ∃ frame, Q (i / PAGE_SIZE) frame ∧ buffer i = frame.bytes i) :
    ∃ d' buffer', bypassReadPages stream.pathName fuel d buffer (len - k * PAGE_SIZE) (k * PAGE_SIZE)
      (pageKey stream k).2 = .ok (d', buffer', len % PAGE_SIZE, len / PAGE_SIZE * PAGE_SIZE,
        (pageKey stream (len / PAGE_SIZE)).2) ∧ P (len / PAGE_SIZE) d' ∧
      ∀ i < len / PAGE_SIZE * PAGE_SIZE, i < len → ∃ frame, Q (i / PAGE_SIZE) frame ∧ buffer' i = frame.bytes i := by
  induction n generalizing k fuel d buffer with
  | zero =>
      obtain ⟨fuel, rfl⟩ := Nat.exists_eq_succ_of_ne_zero (Nat.pos_iff_ne_zero.mp hfuel)
      obtain rfl : k = len / PAGE_SIZE := hk
      refine ⟨d, buffer, ?_, hp, hb⟩
      have hrest : len - len / PAGE_SIZE * PAGE_SIZE = len % PAGE_SIZE := by
        unfold PAGE_SIZE
        omega
      unfold bypassReadPages
      rw [hrest, if_neg (Nat.not_le.mpr (Nat.mod_lt _ (by decide)))]
  | succ n ih =>
      obtain ⟨fuel, rfl⟩ := Nat.exists_eq_succ_of_ne_zero (by omega : fuel ≠ 0)
      have hmore : PAGE_SIZE ≤ len - k * PAGE_SIZE ∧ k < readCount len := by
        unfold readCount PAGE_SIZE at *
        omega
      obtain ⟨hframe, hp'⟩ := hstep k hmore.2 d (sliceFrame buffer (k * PAGE_SIZE)) hp
      obtain ⟨d', buffer', heq, hrest⟩ := ih (by omega) (Nat.lt_of_succ_lt_succ hfuel) hp'
        (copied hb hframe (.inr rfl))
      refine ⟨d', buffer', ?_, hrest⟩
      unfold bypassReadPages
      rw [if_pos hmore.1, inc_pageKey]
      rw [Nat.succ_mul, ← Nat.sub_sub] at heq
      exact heq

theorem bypassWrite_rule {P : Nat → Store → Prop} (s : State) (stream : UFile)
    (buffer : Nat → UInt8) (h0 : P 0 s.store) (hlen : PAGE_SIZE < len)
    (hstep : ∀ k < writeCount len, ∀ d, P k d →
      P (k + 1) (submitPio d .write stream.pathName (pageKey stream k).2 (bypassFrame buffer len k)).1) :
    ∃ d, bypassWrite stream.pathName buffer len s (streamIndex stream) =
      .ok ({ s with store := d }, (writeCount len - 1) * PAGE_SIZE) ∧ P (writeCount len) d := by
  have hcount : 1 + (writeCount len - 2) + 1 = writeCount len ∧
      1 + (writeCount len - 2) = writeCount len - 1 ∧
      writeCount len - 2 < len / PAGE_SIZE + 1 := by
    unfold writeCount PAGE_SIZE at *
    omega
  have hfirst : bypassFrame buffer len 0 = fillFrame zeroFrame PAGE_SIZE buffer := by
    funext j
    have hj := j.isLt
    simp only [bypassFrame, fillFrame, Nat.zero_mul, Nat.sub_zero, Nat.zero_add]
    rw [if_pos (by omega), if_pos hj]
  have hp := hstep 0 (by omega) _ h0
  obtain ⟨d, heq, hd⟩ := bypassWritePages_rule (writeCount len - 2) hstep hcount.1 hcount.2.2 hp
  have hlast := hstep (1 + (writeCount len - 2)) (by omega) d hd
  rw [hcount.1] at hlast
  rw [hcount.2.1, ← inc_pageKey, pageKey_zero, hfirst, Nat.one_mul] at heq
  rw [hcount.2.1] at hlast
  refine ⟨_, ?_, hlast⟩
  unfold bypassWrite bypassFrame
  generalize submitPio s.store .write stream.pathName (streamIndex stream) _ = r at heq
  obtain ⟨d₀, frame⟩ := r
  change (bypassWritePages stream.pathName buffer len (len / PAGE_SIZE + 1) d₀ PAGE_SIZE
    (inc (streamIndex stream)) >>= _) = _
  rw [heq]
  rfl

theorem bypassRead_rule {P : Nat → Store → Prop} {Q : Nat → Frame → Prop} (s : State)
    (stream : UFile) (buffer : Nat → UInt8) (h0 : P 0 s.store) (hlen : PAGE_SIZE < len)
    (hstep : ∀ k < readCount len, ∀ d frame, P k d →
      Q k (submitPio d .read stream.pathName (pageKey stream k).2 frame).2 ∧
      P (k + 1) (submitPio d .read stream.pathName (pageKey stream k).2 frame).1) :
    ∃ d buffer', bypassRead stream.pathName s buffer len (streamIndex stream) =
      .ok ({ s with store := d }, buffer', len) ∧ P (readCount len) d ∧
      ∀ i < len, ∃ frame, Q (i / PAGE_SIZE) frame ∧ buffer' i = frame.bytes i := by
  have hcount : 1 + (len / PAGE_SIZE - 1) = len / PAGE_SIZE ∧
      len / PAGE_SIZE - 1 < len / PAGE_SIZE + 1 ∧ 0 < readCount len := by
    unfold readCount PAGE_SIZE at *
    omega
  obtain ⟨hframe, hp⟩ := hstep 0 hcount.2.2 s.store zeroFrame h0
  have hnone : ∀ i < 0 * PAGE_SIZE, i < len →
      ∃ frame, Q (i / PAGE_SIZE) frame ∧ buffer i = frame.bytes i := fun i hi => absurd hi (by omega)
  have hb := copied hnone hframe (.inr rfl)
  obtain ⟨d, buffer', heq, hp', hb'⟩ :=
    bypassReadPages_rule (len / PAGE_SIZE - 1) hstep hcount.1 hcount.2.1 hp hb
  rw [← inc_pageKey, pageKey_zero, Nat.one_mul, Nat.zero_mul] at heq
  unfold bypassRead
  generalize submitPio s.store .read stream.pathName (streamIndex stream) zeroFrame = r at heq
  obtain ⟨d₀, first⟩ := r
  change ∃ d buffer', (bypassReadPages stream.pathName (len / PAGE_SIZE + 1) d₀
    (Bytes.write buffer 0 PAGE_SIZE first.bytes) (len - PAGE_SIZE) PAGE_SIZE
    (inc (streamIndex stream)) >>= _) = _ ∧ _
  rw [heq]
  by_cases hrest : len % PAGE_SIZE = 0
  · have hwhole : len / PAGE_SIZE * PAGE_SIZE = len ∧ len / PAGE_SIZE = readCount len := by
      unfold readCount PAGE_SIZE at *
      omega
    refine ⟨d, buffer', ?_, hwhole.2 ▸ hp', fun i hi => hb' i (hwhole.1.symm ▸ hi) hi⟩
    rw [hwhole.1]
    exact if_pos hrest
  · have hpart : len / PAGE_SIZE * PAGE_SIZE + len % PAGE_SIZE = len ∧
        len / PAGE_SIZE + 1 = readCount len ∧ len < (len / PAGE_SIZE + 1) * PAGE_SIZE ∧
        len - len / PAGE_SIZE * PAGE_SIZE ≤ len % PAGE_SIZE := by
      unfold readCount PAGE_SIZE at *
      omega
    obtain ⟨hframe', hp''⟩ := hstep (len / PAGE_SIZE) (by omega) d zeroFrame hp'
    have hb'' := copied hb' hframe' (.inl hpart.2.2.2)
    refine ⟨_, _, (if_neg hrest).trans ?_, hpart.2.1 ▸ hp'', fun i hi =>
      hb'' i (hi.trans hpart.2.2.1) hi⟩
    rw [hpart.1]
    rfl

end Bypass

section Calls

variable {allowed : PageStep → State → Prop} {P : Nat → State → Prop} {size count : Nat}

theorem quotient_ok {n size : Nat} (hs : size ≠ 0) : quotient n size = .ok (n / size) :=
  if_neg hs

theorem uwrite_bypass {n : Nat} (hmode : stream.mode &&& U_OWRITE ≠ 0) (hsize : size ≠ 0)
    (hlong : s.cacheSize < dataPages (dataLen size count))
    (h : bypassWrite stream.pathName buffer (dataLen size count) s (streamIndex stream) =
      .ok (s', n)) : uwrite s buffer size count stream = .ok (s', n / size) := by
  unfold uwrite
  rw [if_neg hmode]
  refine (if_pos hlong).trans ?_
  rw [h]
  change Except.bind (quotient _ size) _ = _
  rw [quotient_ok hsize]
  rfl

theorem uread_bypass {n : Nat} {buffer' : Nat → UInt8} (first : Bool) (hsize : size ≠ 0)
    (hlong : s.cacheSize < dataPages (dataLen size count))
    (h : bypassRead stream.pathName s buffer (dataLen size count) (streamIndex stream) =
      .ok (s', buffer', n)) :
    uread s buffer size count stream first = .ok (s', buffer', n / size) := by
  unfold uread
  refine (if_pos hlong).trans ?_
  rw [h]
  change Except.bind (quotient _ size) _ = _
  rw [quotient_ok hsize]
  rfl

theorem steps_uwrite {n : Nat} (hmode : stream.mode &&& U_OWRITE ≠ 0)
    (hfit : dataPages (dataLen size count) ≤ n) : (Call.uwrite stream buffer size count).steps n =
      (List.range (writeCount (dataLen size count))).map
        (writeStep stream buffer (dataLen size count)) :=
  if_neg (not_or.mpr ⟨hmode, Nat.not_lt.mpr hfit⟩)

theorem steps_uread {n : Nat} {first : Bool} (hfit : dataPages (dataLen size count) ≤ n) :
    (Call.uread stream buffer size count first).steps n =
      (List.range (readCount (dataLen size count))).map fun k => .read (pageKey stream k) :=
  if_neg (Nat.not_lt.mpr hfit)

theorem uwrite_rule (hmode : stream.mode &&& U_OWRITE ≠ 0) (hsize : size ≠ 0)
    (hfit : dataPages (dataLen size count) ≤ s.cacheSize)
    (hthrough : (Call.uwrite stream buffer size count).Through allowed s) (h0 : P 0 s)
    (hstep : ∀ k < writeCount (dataLen size count), ∀ s, P k s →
      allowed (writeStep stream buffer (dataLen size count) k) s →
      ∃ s', (writeStep stream buffer (dataLen size count) k).act s = .ok s' ∧ P (k + 1) s') :
    ∃ s', uwrite s buffer size count stream = .ok (s', dataLen size count / size) ∧
      P (writeCount (dataLen size count)) s' := by
  unfold Call.Through at hthrough
  rw [steps_uwrite hmode hfit, List.range_eq_range'] at hthrough
  obtain ⟨s', heq, hp, -⟩ := uwritePages_rule (P := fun k s => P k s ∧ System.Along PageStep.act allowed
      ((List.range' k (writeCount (dataLen size count) - k)).map
        (writeStep stream buffer (dataLen size count))) s) ⟨h0, hthrough⟩
    (fun k hk s hp => by
      obtain ⟨s', hact, hp'⟩ := hstep k hk s hp.1 (System.along_range'_head hk hp.2)
      exact ⟨s', hact, hp', ((System.along_range' hk hact).mp hp.2).2⟩)
  refine ⟨s', ?_, hp⟩
  unfold uwrite
  rw [if_neg hmode]
  refine (if_neg (Nat.not_lt.mpr hfit)).trans ?_
  rw [heq]
  change Except.bind (quotient _ size) _ = _
  rw [quotient_ok hsize]
  rfl

theorem uread_rule {Q : Nat → Frame → Prop} {first : Bool} (hsize : size ≠ 0)
    (hfit : dataPages (dataLen size count) ≤ s.cacheSize)
    (hlen : dataLen size count + PAGE_SIZE ≤ 2 ^ 32)
    (hthrough : (Call.uread stream buffer size count first).Through allowed s) (h0 : P 0 s)
    (hstep : ∀ k < readCount (dataLen size count), ∀ s, P k s → allowed (.read (pageKey stream k)) s →
      ∃ s' pg, ureadPage stream.pathName s (pageKey stream k).2 = .ok (s', pg) ∧
        Q k (s'.physBase pg) ∧ P (k + 1) s') :
    ∃ s' buffer' n, uread s buffer size count stream first = .ok (s', buffer', n / size) ∧
      P (readCount (dataLen size count)) s' ∧
      (∀ i < dataLen size count, ∃ frame, Q (i / PAGE_SIZE) frame ∧ buffer' i = frame.bytes i) ∧
      dataLen size count ≤ n ∧ n ≤ readCount (dataLen size count) * PAGE_SIZE := by
  unfold Call.Through at hthrough
  rw [steps_uread hfit, List.range_eq_range'] at hthrough
  obtain ⟨s', buffer', n, heq, hp, hrest⟩ := ureadPages_rule buffer first
    (P := fun k s => P k s ∧ System.Along PageStep.act allowed
      ((List.range' k (readCount (dataLen size count) - k)).map
        fun k => .read (pageKey stream k)) s) ⟨h0, hthrough⟩ hlen
    (fun k hk s hp => by
      obtain ⟨s', pg, hact, hframe, hp'⟩ := hstep k hk s hp.1 (System.along_range'_head hk hp.2)
      refine ⟨s', pg, hact, hframe, hp', ((System.along_range' hk ?_).mp hp.2).2⟩
      have hread : ureadPage (pageKey stream k).1 s (pageKey stream k).2 = .ok (s', pg) := hact
      simp only [PageStep.act, hread, bind, Except.bind, pure, Except.pure])
  refine ⟨s', buffer', n, ?_, hp.1, hrest⟩
  unfold uread
  refine (if_neg (Nat.not_lt.mpr hfit)).trans ?_
  rw [heq]
  change Except.bind (quotient _ size) _ = _
  rw [quotient_ok hsize]
  rfl

theorem long_of_bypass (hN : 0 < s.cacheSize) (h : s.cacheSize < dataPages len) :
    PAGE_SIZE < len := by
  unfold dataPages u32 PAGE_SIZE at *
  omega

-- The offset of so long a read wraps around before it reaches the end.
theorem ureadPages_endless (hlen : 2 ^ 32 < len + PAGE_SIZE) {fuel copyLen offset : Nat}
    {first : Bool} (ho : ∃ k, offset = k * PAGE_SIZE) (hlt : offset < 2 ^ 32)
    (hc : copyLen = 0 ∨ copyLen = PAGE_SIZE) :
    ∀ r, ureadPages path len fuel s buffer offset copyLen index first ≠ .ok r := by
  induction fuel generalizing s buffer offset copyLen index first with
  | zero =>
      intro r hr
      simp [ureadPages] at hr
  | succ fuel ih =>
      obtain ⟨k, rfl⟩ := ho
      intro r hr
      have hin : k * PAGE_SIZE < len := by
        unfold PAGE_SIZE at *
        omega
      have hread : readLen len first copyLen = PAGE_SIZE := by
        unfold readLen
        unfold PAGE_SIZE at *
        split <;> split <;> omega
      unfold ureadPages at hr
      rw [if_pos hin, hread] at hr
      cases hact : ureadPage path s index with
      | error fault => simp [hact, bind, Except.bind] at hr
      | ok t =>
          obtain ⟨s', pg⟩ := t
          simp only [hact, bind, Except.bind] at hr
          refine ih ⟨(k + 1) % 2 ^ 20, ?_⟩ (u32_lt _) (.inr rfl) r hr
          unfold u32 PAGE_SIZE
          omega

-- The ways in which a write returns.
theorem uwrite_cases {n : Nat} (h : uwrite s buffer size count stream = .ok (s', n)) :
    stream.mode &&& U_OWRITE = 0 ∧ s' = s ∨ stream.mode &&& U_OWRITE ≠ 0 ∧ size ≠ 0 ∧
      (dataPages (dataLen size count) ≤ s.cacheSize ∨ s.cacheSize < dataPages (dataLen size count) ∧
        ∃ n', bypassWrite stream.pathName buffer (dataLen size count) s (streamIndex stream) =
          .ok (s', n')) := by
  unfold uwrite at h
  by_cases hmode : stream.mode &&& U_OWRITE = 0
  · rw [if_pos hmode] at h
    exact .inl ⟨hmode, (congrArg Prod.fst (Except.ok.inj h)).symm⟩
  · rw [if_neg hmode] at h
    refine .inr ⟨hmode, ?_⟩
    by_cases hfit : s.cacheSize < dataPages (dataLen size count)
    · obtain ⟨⟨s₁, n'⟩, heq, hq⟩ := bind_eq_ok.mp ((if_pos hfit).symm.trans h)
      obtain ⟨q, hq, hr⟩ := bind_eq_ok.mp hq
      obtain rfl : s₁ = s' := congrArg Prod.fst (Except.ok.inj hr)
      refine ⟨fun hs => ?_, .inr ⟨hfit, n', heq⟩⟩
      simp [quotient, hs] at hq
    · obtain ⟨⟨s₁, n'⟩, heq, hq⟩ := bind_eq_ok.mp ((if_neg hfit).symm.trans h)
      obtain ⟨q, hq, hr⟩ := bind_eq_ok.mp hq
      refine ⟨fun hs => ?_, .inl (Nat.not_lt.mp hfit)⟩
      simp [quotient, hs] at hq

-- The ways in which a read returns.
theorem uread_cases {first : Bool} {buffer' : Nat → UInt8} {n : Nat}
    (h : uread s buffer size count stream first = .ok (s', buffer', n)) : size ≠ 0 ∧
      (dataPages (dataLen size count) ≤ s.cacheSize ∧ dataLen size count + PAGE_SIZE ≤ 2 ^ 32 ∨
        s.cacheSize < dataPages (dataLen size count) ∧ ∃ n', bypassRead stream.pathName s buffer
          (dataLen size count) (streamIndex stream) = .ok (s', buffer', n')) := by
  unfold uread at h
  by_cases hfit : s.cacheSize < dataPages (dataLen size count)
  · obtain ⟨⟨s₁, b₁, n'⟩, heq, hq⟩ := bind_eq_ok.mp ((if_pos hfit).symm.trans h)
    obtain ⟨q, hq, hr⟩ := bind_eq_ok.mp hq
    have hpair : (s₁, b₁, q) = (s', buffer', n) := Except.ok.inj hr
    simp only [Prod.mk.injEq] at hpair
    obtain ⟨rfl, rfl, -⟩ := hpair
    refine ⟨fun hs => ?_, .inr ⟨hfit, n', heq⟩⟩
    simp [quotient, hs] at hq
  · obtain ⟨⟨s₁, b₁, n'⟩, heq, hq⟩ := bind_eq_ok.mp ((if_neg hfit).symm.trans h)
    obtain ⟨q, hq, hr⟩ := bind_eq_ok.mp hq
    refine ⟨fun hs => ?_, .inl ⟨Nat.not_lt.mp hfit, Nat.not_lt.mp fun hlen => ?_⟩⟩
    · simp [quotient, hs] at hq
    · exact ureadPages_endless hlen ⟨0, (Nat.zero_mul _).symm⟩ (by decide) (.inl rfl) _ heq

theorem uread_returns {first : Bool} {buffer' : Nat → UInt8} {n : Nat}
    (h : uread s buffer size count stream first = .ok (s', buffer', n))
    (hlen : dataLen size count + PAGE_SIZE ≤ 2 ^ 32) :
    (Call.uread stream buffer size count first).Through Returns s := by
  unfold Call.Through
  unfold uread at h
  by_cases hfit : s.cacheSize < dataPages (dataLen size count)
  · rw [show (Call.uread stream buffer size count first).steps s.cacheSize = [] from if_pos hfit]
    trivial
  · obtain ⟨⟨s₁, b₁, n'⟩, heq, -⟩ := bind_eq_ok.mp ((if_neg hfit).symm.trans h)
    rw [steps_uread (Nat.not_lt.mp hfit), List.range_eq_range']
    rw [← pageKey_zero] at heq
    exact ureadPages_returns hlen (Nat.zero_add _) (fun _ => rfl)
      (fun _ => ⟨(Nat.zero_mul _).symm, rfl⟩) heq

-- What every page keeps, and no answer of the store touches, every call keeps.
theorem Call.keeps {I : State → Prop} {c : Call} (hN : 0 < s.cacheSize)
    (hpage : ∀ step s, I s → allowed step s → ∃ s', step.act s = .ok s' ∧ I s')
    (hstore : ∀ s d, I s → I { s with store := d }) (hs : I s) (hthrough : c.Through allowed s)
    (hact : c.act s = .ok s') : I s' := by
  cases c with
  | uwrite stream buffer size count =>
      obtain ⟨⟨s₁, n⟩, heq, hr⟩ := bind_eq_ok.mp hact
      obtain rfl : s₁ = s' := Except.ok.inj hr
      rcases uwrite_cases heq with ⟨-, rfl⟩ | ⟨hmode, hsize, hfit | ⟨hlong, n', hby⟩⟩
      · exact hs
      · obtain ⟨s₂, heq', hs₂⟩ := uwrite_rule hmode hsize hfit hthrough (P := fun _ => I) hs
          (fun k _ s hk ha => hpage _ s hk ha)
        obtain rfl : s₂ = s₁ := congrArg Prod.fst (Except.ok.inj (heq'.symm.trans heq))
        exact hs₂
      · obtain ⟨d, hby', -⟩ := bypassWrite_rule s stream buffer (P := fun _ _ => True) trivial
          (long_of_bypass hN hlong) (fun _ _ _ _ => trivial)
        obtain rfl := congrArg Prod.fst (Except.ok.inj (hby'.symm.trans hby))
        exact hstore s d hs
  | uread stream buffer size count first =>
      obtain ⟨⟨s₁, buffer', n⟩, heq, hr⟩ := bind_eq_ok.mp hact
      obtain rfl : s₁ = s' := Except.ok.inj hr
      obtain ⟨hsize, ⟨hfit, hlen⟩ | ⟨hlong, n', hby⟩⟩ := uread_cases heq
      · obtain ⟨s₂, b₂, n₂, heq', hs₂, -⟩ := uread_rule (Q := fun _ _ => True) hsize hfit hlen hthrough
          (P := fun _ => I) hs (fun k _ s hk ha => by
            obtain ⟨s', hread, hs'⟩ := hpage _ s hk ha
            obtain ⟨⟨s'', pg⟩, hpg, hr⟩ := bind_eq_ok.mp hread
            obtain rfl : s'' = s' := Except.ok.inj hr
            exact ⟨s'', pg, hpg, trivial, hs'⟩)
        obtain rfl : s₂ = s₁ := congrArg Prod.fst (Except.ok.inj (heq'.symm.trans heq))
        exact hs₂
      · obtain ⟨d, b₂, hby', -⟩ := bypassRead_rule s stream buffer (P := fun _ _ => True)
          (Q := fun _ _ => True) trivial (long_of_bypass hN hlong)
          (fun _ _ _ _ _ => ⟨trivial, trivial⟩)
        obtain rfl := congrArg Prod.fst (Except.ok.inj (hby'.symm.trans hby))
        exact hstore s d hs

end Calls

section Samples

def streamA (offset : Nat) : UFile := useek ⟨fileA, U_OREAD ||| U_OWRITE, 0⟩ offset

-- One page of bytes of one kind, and the same page again.
def pageWrite (index : Nat) (byte : UInt8) : Call :=
  .uwrite (streamA (index * PAGE_SIZE)) (fun _ => byte) 1 PAGE_SIZE

def pageRead (index : Nat) : Call :=
  .uread (streamA (index * PAGE_SIZE)) (fun _ => 0) 1 PAGE_SIZE true

end Samples

end UserPageCache.PageCache
