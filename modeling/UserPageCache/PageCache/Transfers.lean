import UserPageCache.PageCache.Bypass

namespace UserPageCache.PageCache

-- lru.h gives the cache this many pages.
def CACHE_SIZE : Nat := 131072

-- A part of the user's buffer and the page it is copied to or from.
structure Transfer where
  key : Key
  bufferOffset : Nat
  copyLen : Nat
deriving DecidableEq

namespace Transfer

def total (transfers : List Transfer) : Nat := (transfers.map copyLen).sum

-- Byte `j` of the page meets position `i` of the buffer.
def Moves (x : Transfer) (i j : Nat) : Prop := x.bufferOffset + j = i ∧ j < x.copyLen

-- A copy out of the cache, which fetches the page if it has to.
def copy (x : Transfer) (s : State) (buffer : Nat → UInt8) :
    Except Fault (State × (Nat → UInt8)) := do
  let (s, pg) ← ureadPage x.key.1 s x.key.2
  return (s, Bytes.write buffer x.bufferOffset x.copyLen (s.physBase pg).bytes)

def copyAll : List Transfer → State → (Nat → UInt8) → Except Fault (State × (Nat → UInt8))
  | [], s, buffer => .ok (s, buffer)
  | x :: rest, s, buffer => do
    let (s, buffer) ← x.copy s buffer
    copyAll rest s buffer

-- The pages that the copies are made from, each as it is then.
def sources : List Transfer → State → List Image
  | [], _ => []
  | x :: rest, s =>
    match ureadPage x.key.1 s x.key.2 with
    | .ok (s, pg) => (x.key, s.physBase pg) :: sources rest s
    | .error _ => []

-- A copy out of the store. The first page and a last one that is not full are read into
-- memory of their own, the others into the buffer.
def pull (x : Transfer) : Store × (Nat → UInt8) → Store × (Nat → UInt8)
  | (d, buffer) =>
    let memory :=
      if x.bufferOffset = 0 ∨ x.copyLen < PAGE_SIZE then zeroFrame
      else sliceFrame buffer x.bufferOffset
    let (d, frame) := submitPio d .read x.key.1 x.key.2 memory
    (d, Bytes.write buffer x.bufferOffset x.copyLen frame.bytes)

end Transfer

-- The bytes of the k-th page of a request.
def pageLen (len k : Nat) : Nat := min PAGE_SIZE (len - k * PAGE_SIZE)

-- What uread makes of them.
def copyLenAt (len k : Nat) : Nat := if len ≤ 2 * PAGE_SIZE then pageLen len k else PAGE_SIZE

def transferAt (stream : UFile) (lenAt : Nat → Nat) (k : Nat) : Transfer :=
  ⟨pageKey stream k, k * PAGE_SIZE, lenAt k⟩

def transfersOf (stream : UFile) (lenAt : Nat → Nat) (n : Nat) : List Transfer :=
  (List.range n).map (transferAt stream lenAt)

-- The copies of uread through the cache, whatever the cache holds.
def readTransfers (stream : UFile) (len : Nat) : List Transfer :=
  transfersOf stream (copyLenAt len) (readCount len)

-- What the pages of so many bytes should be: consecutive ones whose bytes, one after the other,
-- begin with those of the buffer.
structure Covers (stream : UFile) (buffer : Nat → UInt8) (len : Nat) (images : List Image) :
    Prop where
  keys : images.map Prod.fst =
    (List.range (readCount len)).map fun k => (stream.pathName, stream.ioOffset / PAGE_SIZE + k)
  bytes : ∀ i < len, ∃ image ∈ images[i / PAGE_SIZE]?, image.2.bytes i = buffer i

section Loops

namespace Transfer

variable {x : Transfer} {transfers rest : List Transfer} {s s' : State}
  {buffer buffer' : Nat → UInt8} {pg : Nat}

theorem total_cons : total (x :: rest) = x.copyLen + total rest := List.sum_cons

theorem copyAll_cons : copyAll (x :: rest) s buffer =
    x.copy s buffer >>= fun r => copyAll rest r.1 r.2 := rfl

theorem copy_ok (h : ureadPage x.key.1 s x.key.2 = .ok (s', pg)) : x.copy s buffer =
    .ok (s', Bytes.write buffer x.bufferOffset x.copyLen (s'.physBase pg).bytes) := by
  unfold copy
  rw [h]
  rfl

theorem copy_error {fault : Fault} (h : ureadPage x.key.1 s x.key.2 = .error fault) :
    x.copy s buffer = .error fault := by
  unfold copy
  rw [h]
  rfl

-- No byte is stored where no copy goes.
theorem copyAll_outside {i : Nat} (hx : ∀ x ∈ transfers, ∀ j, ¬ x.Moves i j)
    (h : copyAll transfers s buffer = .ok (s', buffer')) : buffer' i = buffer i := by
  induction transfers generalizing s buffer with
  | nil =>
      obtain ⟨-, rfl⟩ := Prod.mk.inj (Except.ok.inj h)
      rfl
  | cons x rest ih =>
      obtain ⟨⟨s₁, buffer₁⟩, hcopy, h⟩ := bind_eq_ok.mp h
      obtain ⟨⟨s₂, pg⟩, -, hcopy⟩ := bind_eq_ok.mp hcopy
      obtain ⟨rfl, rfl⟩ := Prod.mk.inj (Except.ok.inj hcopy)
      rw [ih (fun y hy => hx y (List.mem_cons_of_mem x hy)) h]
      refine if_neg fun hin => hx x List.mem_cons_self (i - x.bufferOffset) ⟨?_, ?_⟩ <;> omega

-- Where copies of consecutive pages go is what the pages hold.
theorem copyAll_inside {stream : UFile} {lenAt : Nat → Nat} {k n : Nat}
    (hle : ∀ k, lenAt k ≤ PAGE_SIZE)
    (h : copyAll ((List.range' k n).map (transferAt stream lenAt)) s buffer = .ok (s', buffer')) :
    ∀ m < n, ∃ frame, (sources ((List.range' k n).map (transferAt stream lenAt)) s)[m]? =
        some (pageKey stream (k + m), frame) ∧
      ∀ j < lenAt (k + m), buffer' ((k + m) * PAGE_SIZE + j) = frame.bytes j := by
  induction n generalizing k s buffer with
  | zero => exact fun m hm => absurd hm (by omega)
  | succ n ih =>
      rw [List.range'_succ, List.map_cons] at h ⊢
      obtain ⟨⟨s₁, buffer₁⟩, hcopy, h⟩ := bind_eq_ok.mp h
      obtain ⟨⟨s₂, pg⟩, hread, hcopy⟩ := bind_eq_ok.mp hcopy
      obtain ⟨rfl, rfl⟩ := Prod.mk.inj (Except.ok.inj hcopy)
      unfold sources
      rw [hread]
      intro m hm
      cases m with
      | zero =>
          refine ⟨_, rfl, fun j hj => ?_⟩
          have hjk := hle k
          have hout : ∀ x ∈ (List.range' (k + 1) n).map (transferAt stream lenAt), ∀ j',
              ¬ x.Moves (k * PAGE_SIZE + j) j' := fun x hx j' hm => by
            obtain ⟨k', hk', rfl⟩ := List.mem_map.mp hx
            have hnext := Nat.mul_le_mul_right PAGE_SIZE (List.mem_range'_1.mp hk').1
            have hmoves : k' * PAGE_SIZE + j' = k * PAGE_SIZE + j := hm.1
            rw [Nat.succ_mul] at hnext
            rw [Nat.add_zero] at hj
            omega
          rw [Nat.add_zero, copyAll_outside hout h]
          refine (if_pos ?_).trans (congrArg _ (Nat.add_sub_cancel_left _ j))
          exact ⟨Nat.le_add_right _ j, Nat.add_lt_add_left hj _⟩
      | succ m =>
          have hsucc : k + (m + 1) = k + 1 + m := by omega
          rw [List.getElem?_cons_succ, hsucc]
          exact ih h m (by omega)

theorem sources_keys (h : copyAll transfers s buffer = .ok (s', buffer')) :
    (sources transfers s).map Prod.fst = transfers.map key := by
  induction transfers generalizing s buffer with
  | nil => rfl
  | cons x rest ih =>
      obtain ⟨⟨s₁, buffer₁⟩, hcopy, h⟩ := bind_eq_ok.mp h
      obtain ⟨⟨s₂, pg⟩, hread, hcopy⟩ := bind_eq_ok.mp hcopy
      obtain ⟨rfl, rfl⟩ := Prod.mk.inj (Except.ok.inj hcopy)
      unfold sources
      rw [hread, List.map_cons, List.map_cons, ih h]

end Transfer

variable {s : State} {stream : UFile} {buffer : Nat → UInt8} {len : Nat}

theorem copyLenAt_bounds (len k : Nat) : copyLenAt len k ≤ PAGE_SIZE ∧
    (k + 1 = readCount len → len ≤ k * PAGE_SIZE + copyLenAt len k) ∧
    (k + 1 < readCount len → copyLenAt len k = PAGE_SIZE) := by
  unfold copyLenAt pageLen readCount at *
  unfold PAGE_SIZE at *
  split <;> omega

-- The loop of uread is its copies one after the other.
theorem ureadPages_copies (hlen : len + PAGE_SIZE ≤ 2 ^ 32) {n k fuel offset copyLen : Nat}
    {first : Bool} (hk : k + n = readCount len) (hfuel : n < fuel) (hf : first = true → k = 0)
    (hdone : n = 0 → len ≤ offset)
    (hmore : n ≠ 0 → offset = k * PAGE_SIZE ∧ copyLen = if k = 0 then 0 else PAGE_SIZE) :
    ureadPages stream.pathName len fuel s buffer offset copyLen (pageKey stream k).2 first =
      (Transfer.copyAll ((List.range' k n).map (transferAt stream (copyLenAt len))) s buffer >>=
        fun r => .ok (r.1, r.2, offset +
          Transfer.total ((List.range' k n).map (transferAt stream (copyLenAt len))))) := by
  induction n generalizing k fuel first s buffer offset copyLen with
  | zero =>
      obtain ⟨fuel, rfl⟩ := Nat.exists_eq_succ_of_ne_zero (Nat.pos_iff_ne_zero.mp hfuel)
      unfold ureadPages
      rw [if_neg (Nat.not_lt.mpr (hdone rfl))]
      rfl
  | succ n ih =>
      obtain ⟨fuel, rfl⟩ := Nat.exists_eq_succ_of_ne_zero (by omega : fuel ≠ 0)
      obtain ⟨rfl, hc⟩ := hmore (by omega)
      have hin : k * PAGE_SIZE < len := by
        unfold readCount PAGE_SIZE at *
        omega
      have hread : readLen len first copyLen = copyLenAt len k := readLen_eq hf hin hc
      obtain ⟨hle, hlast, hfull⟩ := copyLenAt_bounds len k
      have hwrap : u32 (k * PAGE_SIZE + copyLenAt len k) = k * PAGE_SIZE + copyLenAt len k :=
        u32_of_lt (by omega)
      rw [List.range'_succ, List.map_cons, Transfer.total_cons, Transfer.copyAll_cons]
      unfold ureadPages
      rw [if_pos hin]
      cases hact : ureadPage stream.pathName s (pageKey stream k).2 with
      | error fault => rw [Transfer.copy_error hact]; rfl
      | ok r =>
          obtain ⟨s', pg⟩ := r
          rw [Transfer.copy_ok hact]
          simp only [hread, hwrap, bind, Except.bind]
          rw [inc_pageKey,
            ih (by omega) (by omega) (by simp) (fun h0 => hlast (by omega)) fun h0 => by
            rw [if_neg (by omega), hfull (by omega), Nat.succ_mul]
            exact ⟨rfl, rfl⟩]
          rw [Nat.add_assoc]
          rfl

theorem uread_copies {size count : Nat} {first : Bool}
    (hfit : dataPages (dataLen size count) ≤ s.cacheSize)
    (hlen : dataLen size count + PAGE_SIZE ≤ 2 ^ 32) : uread s buffer size count stream first =
      (Transfer.copyAll (readTransfers stream (dataLen size count)) s buffer >>= fun r => do
        return (r.1, r.2,
          ← quotient (Transfer.total (readTransfers stream (dataLen size count))) size)) := by
  have hfuel : readCount (dataLen size count) < dataLen size count / PAGE_SIZE + 2 := by
    unfold readCount PAGE_SIZE
    omega
  have hloop : ureadPages stream.pathName (dataLen size count)
      (dataLen size count / PAGE_SIZE + 2) s buffer 0 0 (pageKey stream 0).2 first = _ :=
    ureadPages_copies hlen (Nat.zero_add _) hfuel (fun _ => rfl)
      (fun h0 => by
        unfold readCount PAGE_SIZE at h0
        omega)
      (fun _ => ⟨(Nat.zero_mul _).symm, rfl⟩)
  rw [pageKey_zero, ← List.range_eq_range', Nat.zero_add] at hloop
  unfold uread
  refine (if_neg (Nat.not_lt.mpr hfit)).trans ?_
  rw [hloop]
  change (Transfer.copyAll (readTransfers stream (dataLen size count)) s buffer >>= _) >>= _ = _
  cases Transfer.copyAll (readTransfers stream (dataLen size count)) s buffer <;> rfl

end Loops

section Delivery

variable {stream : UFile} {lenAt : Nat → Nat} {len n : Nat}

theorem mem_transfersOf {x : Transfer} :
    x ∈ transfersOf stream lenAt n ↔ ∃ k < n, transferAt stream lenAt k = x := by
  simp [transfersOf]

theorem total_succ : Transfer.total (transfersOf stream lenAt (n + 1)) =
    Transfer.total (transfersOf stream lenAt n) + lenAt n := by
  simp [Transfer.total, transfersOf, List.range_succ, transferAt]

theorem total_pageLen (stream : UFile) (len n : Nat) :
    Transfer.total (transfersOf stream (pageLen len) n) = min len (n * PAGE_SIZE) := by
  induction n with
  | zero => simp [Transfer.total, transfersOf]
  | succ n ih =>
      rw [total_succ, ih, Nat.succ_mul]
      unfold pageLen
      omega

theorem transfersOf_congr {lenAt' : Nat → Nat} (h : ∀ k < n, lenAt k = lenAt' k) :
    transfersOf stream lenAt n = transfersOf stream lenAt' n := by
  unfold transfersOf transferAt
  exact List.map_congr_left fun k hk => by rw [h k (List.mem_range.mp hk)]

-- The pages are the right ones exactly when their numbers are below 2^32.
theorem keys_iff (hn : 0 < n) : (transfersOf stream lenAt n).map Transfer.key =
    (List.range n).map (fun k => (stream.pathName, stream.ioOffset / PAGE_SIZE + k)) ↔
      stream.ioOffset / PAGE_SIZE + n ≤ 2 ^ 32 := by
  unfold transfersOf transferAt
  rw [List.map_map, List.map_inj_left]
  simp only [Function.comp_apply, List.mem_range, pageKey, streamIndex, Prod.mk.injEq, true_and]
  unfold u32 PAGE_SIZE
  constructor
  · intro h
    have hlast := h (n - 1) (by omega)
    omega
  · intro h k hk
    omega

theorem copyLenAt_eq {k : Nat} (h : len ≤ 2 * PAGE_SIZE ∨ PAGE_SIZE ∣ len)
    (hk : k < readCount len) : copyLenAt len k = pageLen len k := by
  unfold copyLenAt pageLen readCount at *
  unfold PAGE_SIZE at *
  split <;> omega

theorem total_read (stream : UFile) (len : Nat) : Transfer.total (readTransfers stream len) =
    if len ≤ 2 * PAGE_SIZE then len else readCount len * PAGE_SIZE := by
  unfold readTransfers
  by_cases hshort : len ≤ 2 * PAGE_SIZE
  · have hsame : ∀ k < readCount len, copyLenAt len k = pageLen len k := fun k _ => if_pos hshort
    rw [if_pos hshort, transfersOf_congr hsame, total_pageLen]
    unfold readCount PAGE_SIZE
    omega
  · have hsame : ∀ k < readCount len, copyLenAt len k = PAGE_SIZE := fun k _ => if_neg hshort
    rw [if_neg hshort, transfersOf_congr hsame]
    generalize readCount len = n
    induction n with
    | zero => simp [Transfer.total, transfersOf]
    | succ n ih => rw [total_succ, ih, Nat.succ_mul]

-- The last copy of a longer request goes past its end, unless it is a full one.
theorem copy_past_end (h : ¬ (len ≤ 2 * PAGE_SIZE ∨ PAGE_SIZE ∣ len)) :
    ∃ k < readCount len, ∃ j < copyLenAt len k, k * PAGE_SIZE + j = len := by
  have hlong : ¬ len ≤ 2 * PAGE_SIZE := fun hle => h (.inl hle)
  have hdvd : ¬ PAGE_SIZE ∣ len := fun hd => h (.inr hd)
  refine ⟨readCount len - 1, ?_, len - (readCount len - 1) * PAGE_SIZE, ?_, ?_⟩
  · unfold readCount PAGE_SIZE at *
    omega
  · unfold copyLenAt
    rw [if_neg hlong]
    unfold readCount PAGE_SIZE at *
    omega
  · unfold readCount PAGE_SIZE at *
    omega

end Delivery

section Uread

variable {s s' : State} {stream : UFile} {size count len : Nat} {buffer buffer' : Nat → UInt8}
  {first : Bool}

theorem copied_bytes {k : Nat}
    (h : Transfer.copyAll (readTransfers stream len) s buffer = .ok (s', buffer'))
    (hk : k < readCount len) :
    ∃ frame, (Transfer.sources (readTransfers stream len) s)[k]? = some (pageKey stream k, frame) ∧
      ∀ j < copyLenAt len k, buffer' (k * PAGE_SIZE + j) = frame.bytes j := by
  unfold readTransfers transfersOf at h ⊢
  rw [List.range_eq_range'] at h ⊢
  have hinside := Transfer.copyAll_inside (fun k => (copyLenAt_bounds len k).1) h k hk
  rwa [Nat.zero_add] at hinside

-- The pages are the right ones exactly when their numbers are below 2^32.
theorem sources_iff (hlen : 0 < len)
    (h : Transfer.copyAll (readTransfers stream len) s buffer = .ok (s', buffer')) :
    (Transfer.sources (readTransfers stream len) s).map Prod.fst =
        (List.range (readCount len)).map
          (fun k => (stream.pathName, stream.ioOffset / PAGE_SIZE + k)) ↔
      stream.ioOffset / PAGE_SIZE + readCount len ≤ 2 ^ 32 := by
  have hcount : 0 < readCount len := by
    unfold readCount PAGE_SIZE
    omega
  rw [Transfer.sources_keys h]
  exact keys_iff hcount

-- Copies that go past the end of the request store there what they have read, whatever the
-- user's buffer has there.
theorem whole_of_outside {s₁ : State} {buffer₁ buffer₁' : Nat → UInt8}
    (h : Transfer.copyAll (readTransfers stream len) s buffer = .ok (s', buffer'))
    (h₁ : Transfer.copyAll (readTransfers stream len) s buffer₁ = .ok (s₁, buffer₁'))
    (hne : buffer' len ≠ buffer₁' len) : len ≤ 2 * PAGE_SIZE ∨ PAGE_SIZE ∣ len := by
  by_contra hpast
  obtain ⟨k, hk, j, hj, rfl⟩ := copy_past_end hpast
  obtain ⟨frame, hget, hbytes⟩ := copied_bytes h hk
  obtain ⟨frame₁, hget₁, hbytes₁⟩ := copied_bytes h₁ hk
  obtain rfl : frame = frame₁ := by
    rw [hget] at hget₁
    exact congrArg Prod.snd (Option.some.inj hget₁)
  exact hne ((hbytes j hj).trans (hbytes₁ j hj).symm)

-- The copies of one or two pages, or of whole pages, fill the request and no more.
theorem copied_exactly (hwhole : len ≤ 2 * PAGE_SIZE ∨ PAGE_SIZE ∣ len)
    (h : Transfer.copyAll (readTransfers stream len) s buffer = .ok (s', buffer')) :
    (∀ i, len ≤ i → buffer' i = buffer i) ∧
      ∀ i < len, ∃ image ∈ (Transfer.sources (readTransfers stream len) s)[i / PAGE_SIZE]?,
        image.2.bytes i = buffer' i := by
  refine ⟨fun i hi => Transfer.copyAll_outside (fun x hx j hm => ?_) h, fun i hi => ?_⟩
  · obtain ⟨k, hk, rfl⟩ := mem_transfersOf.mp hx
    obtain ⟨rfl, hj⟩ := hm
    simp only [transferAt, copyLenAt_eq hwhole hk, pageLen] at hi hj
    omega
  · have hk : i / PAGE_SIZE < readCount len := by
      unfold readCount PAGE_SIZE
      omega
    have hj : i % PAGE_SIZE < copyLenAt len (i / PAGE_SIZE) := by
      rw [copyLenAt_eq hwhole hk]
      unfold pageLen PAGE_SIZE
      omega
    obtain ⟨frame, hget, hbytes⟩ := copied_bytes h hk
    refine ⟨_, hget, ?_⟩
    have hbyte := hbytes _ hj
    rw [Nat.div_add_mod'] at hbyte
    rw [hbyte]
    unfold Frame.bytes
    simp only [Nat.mod_mod]

theorem total_whole (hwhole : len ≤ 2 * PAGE_SIZE ∨ PAGE_SIZE ∣ len) :
    Transfer.total (readTransfers stream len) = len := by
  rw [total_read]
  rcases hwhole with hshort | ⟨n, rfl⟩
  · rw [if_pos hshort]
  · split
    · rfl
    · unfold readCount PAGE_SIZE
      omega

-- A request of at most CACHE_SIZE pages that fits into the cache goes through it.
theorem uread_fits (hN : s.cacheSize ≤ CACHE_SIZE) (hle : size * count ≤ s.cacheSize * PAGE_SIZE) :
    dataLen size count = size * count ∧ dataPages (dataLen size count) ≤ s.cacheSize ∧
      dataLen size count + PAGE_SIZE ≤ 2 ^ 32 := by
  have hlen : dataLen size count = size * count := by
    unfold dataLen CACHE_SIZE PAGE_SIZE at *
    exact u32_of_lt (by omega)
  rw [hlen]
  unfold dataPages u32 CACHE_SIZE PAGE_SIZE at *
  omega

theorem uread_eq_copies (hsize : size ≠ 0) (hN : s.cacheSize ≤ CACHE_SIZE)
    (hle : size * count ≤ s.cacheSize * PAGE_SIZE) (buffer : Nat → UInt8) (first : Bool) :
    uread s buffer size count stream first =
      (Transfer.copyAll (readTransfers stream (size * count)) s buffer >>= fun r =>
        .ok (r.1, r.2, Transfer.total (readTransfers stream (size * count)) / size)) := by
  obtain ⟨hlen, hfit, hwide⟩ := uread_fits hN hle
  rw [uread_copies hfit hwide, hlen]
  simp only [quotient_ok hsize]
  rfl

theorem copyAll_of_uread {n : Nat} (hsize : size ≠ 0) (hN : s.cacheSize ≤ CACHE_SIZE)
    (hle : size * count ≤ s.cacheSize * PAGE_SIZE)
    (h : uread s buffer size count stream first = .ok (s', buffer', n)) :
    n = Transfer.total (readTransfers stream (size * count)) / size ∧
      Transfer.copyAll (readTransfers stream (size * count)) s buffer = .ok (s', buffer') := by
  rw [uread_eq_copies hsize hN hle] at h
  obtain ⟨⟨s₁, buffer₁⟩, hcopy, h⟩ := bind_eq_ok.mp h
  obtain ⟨rfl, rfl, rfl⟩ : s₁ = s' ∧ buffer₁ = buffer' ∧ _ = n := by simpa using h
  exact ⟨rfl, hcopy⟩

theorem Returns.read {key : Key} (h : Returns (.read key) s) :
    ∃ s' pg, ureadPage key.1 s key.2 = .ok (s', pg) := by
  obtain ⟨s', hact⟩ := h
  obtain ⟨⟨s₁, pg⟩, hread, -⟩ := bind_eq_ok.mp hact
  exact ⟨s₁, pg, hread⟩

theorem uread_of_through (hsize : size ≠ 0) (hN : s.cacheSize ≤ CACHE_SIZE)
    (hle : size * count ≤ s.cacheSize * PAGE_SIZE)
    (hthrough : (Call.uread stream buffer size count first).Through Returns s) :
    ∃ s' buffer' n, uread s buffer size count stream first = .ok (s', buffer', n) := by
  obtain ⟨-, hfit, hwide⟩ := uread_fits hN hle
  obtain ⟨s', buffer', n, heq, -⟩ := uread_rule hsize hfit hwide hthrough
    (P := fun _ _ => True) (Q := fun _ _ => True) trivial (fun k _ s _ ha => by
      obtain ⟨s', pg, hread⟩ := ha.read
      exact ⟨s', pg, hread, trivial, trivial⟩)
  exact ⟨s', buffer', _, heq⟩

end Uread

-- A read through the cache makes these copies, whatever the cache holds and whatever
-- isFirstPage is. What the user gets is right exactly for one or two pages and for whole pages,
-- numbered below 2^32, that all come in.
theorem uread_delivers_iff {s : State} {stream : UFile} {size count : Nat} (hsize : size ≠ 0)
    (hpos : 0 < size * count) (hN : s.cacheSize ≤ CACHE_SIZE)
    (hle : size * count ≤ s.cacheSize * PAGE_SIZE) (first : Bool) :
    (∀ buffer, uread s buffer size count stream first =
      (Transfer.copyAll (readTransfers stream (size * count)) s buffer >>= fun r =>
        .ok (r.1, r.2, Transfer.total (readTransfers stream (size * count)) / size))) ∧
    ((∀ buffer, ∃ s' buffer', uread s buffer size count stream first = .ok (s', buffer', count) ∧
        (∀ i, size * count ≤ i → buffer' i = buffer i) ∧
        Covers stream buffer' (size * count)
          (Transfer.sources (readTransfers stream (size * count)) s)) ↔
      (size * count ≤ 2 * PAGE_SIZE ∨ PAGE_SIZE ∣ size * count) ∧
        stream.ioOffset / PAGE_SIZE + readCount (size * count) ≤ 2 ^ 32 ∧
        ∀ buffer, (Call.uread stream buffer size count first).Through Returns s) := by
  refine ⟨fun buffer => uread_eq_copies hsize hN hle buffer first, fun h => ?_,
    fun ⟨hwhole, hrange, hthrough⟩ buffer => ?_⟩
  · obtain ⟨s₀, buffer₀, heq₀, hout₀, hcovers⟩ := h fun _ => 0
    obtain ⟨s₁, buffer₁, heq₁, hout₁, -⟩ := h fun _ => 1
    obtain ⟨-, hcopy₀⟩ := copyAll_of_uread hsize hN hle heq₀
    obtain ⟨-, hcopy₁⟩ := copyAll_of_uread hsize hN hle heq₁
    have hne : buffer₀ (size * count) ≠ buffer₁ (size * count) := by
      rw [hout₀ _ (Nat.le_refl _), hout₁ _ (Nat.le_refl _)]
      decide
    refine ⟨whole_of_outside hcopy₀ hcopy₁ hne, (sources_iff hpos hcopy₀).mp hcovers.keys,
      fun buffer => ?_⟩
    obtain ⟨s', buffer', heq, -⟩ := h buffer
    exact uread_returns heq (uread_fits hN hle).2.2
  · obtain ⟨s', buffer', n, heq⟩ := uread_of_through hsize hN hle (hthrough buffer)
    obtain ⟨hn, hcopy⟩ := copyAll_of_uread hsize hN hle heq
    rw [total_whole hwhole, Nat.mul_div_cancel_left _ (Nat.pos_of_ne_zero hsize)] at hn
    rw [hn] at heq
    obtain ⟨hout, hbytes⟩ := copied_exactly hwhole hcopy
    exact ⟨s', buffer', heq, hout, (sources_iff hpos hcopy).mpr hrange, hbytes⟩

instance (step : PageStep) (s : State) : Decidable (Returns step s) :=
  decidable_of_iff ((step.act s).toBool = true) (by
    unfold Returns
    cases step.act s <;> simp [Except.toBool])

-- Three pages that are read into an empty cache of four.
theorem uread_delivers_three_pages : ∃ (s s' : State) (buffer' : Nat → UInt8),
    s = initPageCache 4 emptyStore ∧
    uread s (fun _ => 1) 1 (3 * PAGE_SIZE) (streamA 0) true = .ok (s', buffer', 3 * PAGE_SIZE) ∧
    (∀ i, 1 * (3 * PAGE_SIZE) ≤ i → buffer' i = 1) ∧
    Covers (streamA 0) buffer' (1 * (3 * PAGE_SIZE))
      (Transfer.sources (readTransfers (streamA 0) (1 * (3 * PAGE_SIZE))) s) := by
  have hsize := (initPageCache_spec 4 emptyStore).2.1
  have hthrough : (Call.uread (streamA 0) (fun _ => 1) 1 (3 * PAGE_SIZE) true).Through Returns
      (initPageCache 4 emptyStore) := by decide +kernel
  obtain ⟨s', buffer', heq, hout, hcovers⟩ := (uread_delivers_iff (s := initPageCache 4 emptyStore)
    (by decide) (by decide) (by rw [hsize]; decide) (by rw [hsize]; decide) true).2.mpr
    ⟨by decide, by decide, fun _ => hthrough⟩ fun _ => 1
  exact ⟨_, s', buffer', rfl, heq, hout, hcovers⟩

def overrun : Bool :=
  match uread (initPageCache 4 emptyStore) (fun _ => 1) 1 (2 * PAGE_SIZE + 1) (streamA 0) true with
  | .ok (_, buffer', n) => buffer' (2 * PAGE_SIZE + 1) == 0 && n == 3 * PAGE_SIZE
  | .error _ => false

-- A read of two pages and a byte also writes what follows that byte in the buffer.
theorem uread_overruns : ∃ (s' : State) (buffer' : Nat → UInt8) (n : Nat),
    uread (initPageCache 4 emptyStore) (fun _ => 1) 1 (2 * PAGE_SIZE + 1) (streamA 0) true =
      .ok (s', buffer', n) ∧ buffer' (2 * PAGE_SIZE + 1) ≠ 1 ∧ n ≠ 2 * PAGE_SIZE + 1 := by
  have hp : overrun = true := by decide +kernel
  unfold overrun at hp
  cases heq : uread (initPageCache 4 emptyStore) (fun _ => 1) 1 (2 * PAGE_SIZE + 1) (streamA 0)
    true with
  | error fault => simp [heq] at hp
  | ok r =>
      obtain ⟨s', buffer', n⟩ := r
      simp only [heq, Bool.and_eq_true, beq_iff_eq] at hp
      exact ⟨s', buffer', n, rfl, by rw [hp.1]; decide, by rw [hp.2]; decide⟩

end UserPageCache.PageCache
