import UserPageCache.PageCache.Coverage

namespace UserPageCache.PageCache

-- The parts of the buffer that a request moves to or from its pages.
def Call.transfers (cacheSize : Nat) : Call → List Transfer
  | .uwrite stream _ size count =>
    let len := dataLen size count
    if stream.mode &&& U_OWRITE = 0 then [] else transfersOf stream (pageLen len) (writeCount len)
  | .uread stream _ size count _ =>
    let len := dataLen size count
    if cacheSize < dataPages len then transfersOf stream (pageLen len) (readCount len)
    else readTransfers stream len

-- Copies out of the cache or, for too large a request, out of the store.
def performAll (s : State) (buffer : Nat → UInt8) (len : Nat) (transfers : List Transfer) :
    Except Fault (State × (Nat → UInt8)) :=
  if s.cacheSize < dataPages len then
    let (d, buffer) := transfers.foldl (fun r x => x.pull r) (s.store, buffer)
    .ok ({ s with store := d }, buffer)
  else Transfer.copyAll transfers s buffer

section Pulls

variable {s : State} {stream : UFile} {len : Nat}

theorem pull_whole {k : Nat} (h0 : 0 < k) (hk : k < len / PAGE_SIZE) (d : Store)
    (buffer : Nat → UInt8) : (transferAt stream (pageLen len) k).pull (d, buffer) =
      ((submitPio d .read stream.pathName (pageKey stream k).2 (sliceFrame buffer (k * PAGE_SIZE))).1,
        Bytes.write buffer (k * PAGE_SIZE) PAGE_SIZE (submitPio d .read stream.pathName
          (pageKey stream k).2 (sliceFrame buffer (k * PAGE_SIZE))).2.bytes) := by
  have hfull : pageLen len k = PAGE_SIZE := by
    unfold pageLen PAGE_SIZE at *
    omega
  have hmemory : ¬ (k * PAGE_SIZE = 0 ∨ PAGE_SIZE < PAGE_SIZE) := by
    unfold PAGE_SIZE
    omega
  simp only [Transfer.pull, transferAt, hfull, if_neg hmemory, pageKey]

theorem bypassReadPages_pulls (stream : UFile) (n : Nat) {k fuel : Nat} (d : Store)
    (buffer : Nat → UInt8) (h0 : 0 < k) (hk : k + n = len / PAGE_SIZE) (hfuel : n < fuel) :
    bypassReadPages stream.pathName fuel d buffer (len - k * PAGE_SIZE) (k * PAGE_SIZE)
      (pageKey stream k).2 = .ok
        ((((List.range' k n).map (transferAt stream (pageLen len))).foldl (fun r x => x.pull r)
            (d, buffer)).1,
          (((List.range' k n).map (transferAt stream (pageLen len))).foldl (fun r x => x.pull r)
            (d, buffer)).2,
          len % PAGE_SIZE, len / PAGE_SIZE * PAGE_SIZE, (pageKey stream (len / PAGE_SIZE)).2) := by
  induction n generalizing k fuel d buffer with
  | zero =>
      obtain ⟨fuel, rfl⟩ := Nat.exists_eq_succ_of_ne_zero (Nat.pos_iff_ne_zero.mp hfuel)
      obtain rfl : k = len / PAGE_SIZE := hk
      have hrest : len - len / PAGE_SIZE * PAGE_SIZE = len % PAGE_SIZE := by
        unfold PAGE_SIZE
        omega
      unfold bypassReadPages
      rw [hrest, if_neg (Nat.not_le.mpr (Nat.mod_lt _ (by decide)))]
      rfl
  | succ n ih =>
      obtain ⟨fuel, rfl⟩ := Nat.exists_eq_succ_of_ne_zero (by omega : fuel ≠ 0)
      have hmore : PAGE_SIZE ≤ len - k * PAGE_SIZE := by
        unfold PAGE_SIZE at *
        omega
      have hnext : len - k * PAGE_SIZE - PAGE_SIZE = len - (k + 1) * PAGE_SIZE := by
        rw [Nat.succ_mul]
        omega
      rw [List.range'_succ, List.map_cons, List.foldl_cons, pull_whole h0 (by omega)]
      unfold bypassReadPages
      rw [if_pos hmore, inc_pageKey, hnext, ← Nat.succ_mul]
      exact ih _ _ (by omega) (by omega) (by omega)

-- The first page, the whole pages after it and what is left.
theorem transfers_parts (hlen : PAGE_SIZE < len) : transfersOf stream (pageLen len) (readCount len) =
    transferAt stream (pageLen len) 0 ::
      (((List.range' 1 (len / PAGE_SIZE - 1)).map (transferAt stream (pageLen len))) ++
        if len % PAGE_SIZE = 0 then [] else [transferAt stream (pageLen len) (len / PAGE_SIZE)]) := by
  have hcount : readCount len = 1 + (len / PAGE_SIZE - 1) + if len % PAGE_SIZE = 0 then 0 else 1 := by
    unfold readCount PAGE_SIZE at *
    split <;> omega
  have hwhole : 1 + (len / PAGE_SIZE - 1) = len / PAGE_SIZE := by
    unfold PAGE_SIZE at *
    omega
  unfold transfersOf
  rw [hcount, List.range_eq_range', ← List.range'_append_1, ← List.range'_append_1]
  by_cases hrest : len % PAGE_SIZE = 0
  · simp [hrest]
  · simp [hrest, hwhole]

theorem bypassRead_pulls (hlen : PAGE_SIZE < len) (buffer : Nat → UInt8) :
    bypassRead stream.pathName s buffer len (streamIndex stream) = .ok
      ({ s with store := ((transfersOf stream (pageLen len) (readCount len)).foldl
          (fun r x => x.pull r) (s.store, buffer)).1 },
        ((transfersOf stream (pageLen len) (readCount len)).foldl (fun r x => x.pull r)
          (s.store, buffer)).2, len) := by
  have hcount : 0 < 1 ∧ 1 + (len / PAGE_SIZE - 1) = len / PAGE_SIZE ∧
      len / PAGE_SIZE - 1 < len / PAGE_SIZE + 1 := by
    unfold PAGE_SIZE at *
    omega
  have hfirst : (transferAt stream (pageLen len) 0).pull (s.store, buffer) =
      ((submitPio s.store .read stream.pathName (streamIndex stream) zeroFrame).1,
        Bytes.write buffer 0 PAGE_SIZE
          (submitPio s.store .read stream.pathName (streamIndex stream) zeroFrame).2.bytes) := by
    have hfull : pageLen len 0 = PAGE_SIZE := by
      unfold pageLen
      omega
    simp only [Transfer.pull, transferAt, hfull, Nat.zero_mul, true_or, ite_true, pageKey_zero]
    rfl
  rw [transfers_parts hlen, List.foldl_cons, hfirst, List.foldl_append]
  unfold bypassRead
  generalize submitPio s.store .read stream.pathName (streamIndex stream) zeroFrame = r
  obtain ⟨d, first⟩ := r
  have hloop := bypassReadPages_pulls stream (len / PAGE_SIZE - 1) d
    (Bytes.write buffer 0 PAGE_SIZE first.bytes) hcount.1 hcount.2.1 hcount.2.2
  rw [← inc_pageKey, pageKey_zero, Nat.one_mul] at hloop
  change (bypassReadPages stream.pathName (len / PAGE_SIZE + 1) d
    (Bytes.write buffer 0 PAGE_SIZE first.bytes) (len - PAGE_SIZE) PAGE_SIZE
    (inc (streamIndex stream)) >>= _) = _
  rw [hloop]
  by_cases hrest : len % PAGE_SIZE = 0
  · have hwhole : len / PAGE_SIZE * PAGE_SIZE = len := by
      unfold PAGE_SIZE at *
      omega
    rw [if_pos hrest, hwhole]
    exact if_pos hrest
  · have hpart : len / PAGE_SIZE * PAGE_SIZE + len % PAGE_SIZE = len := by
      unfold PAGE_SIZE
      omega
    have hlast : pageLen len (len / PAGE_SIZE) = len % PAGE_SIZE := by
      unfold pageLen PAGE_SIZE
      omega
    have hmod : len % PAGE_SIZE < PAGE_SIZE := Nat.mod_lt _ (by decide)
    rw [if_neg hrest]
    refine (if_neg hrest).trans ?_
    simp only [List.foldl_cons, List.foldl_nil, Transfer.pull, transferAt, hlast, hmod, or_true,
      ite_true]
    rw [hpart]
    rfl

end Pulls

section Requests

variable {s : State} {stream : UFile} {size count : Nat}

theorem transfers_past {buffer : Nat → UInt8} {first : Bool} {cacheSize : Nat}
    (hlong : cacheSize < dataPages (dataLen size count)) :
    (Call.uread stream buffer size count first).transfers cacheSize =
      transfersOf stream (pageLen (dataLen size count)) (readCount (dataLen size count)) :=
  if_pos hlong

theorem transfers_cached {buffer : Nat → UInt8} {first : Bool} {cacheSize : Nat}
    (hfit : dataPages (dataLen size count) ≤ cacheSize) :
    (Call.uread stream buffer size count first).transfers cacheSize =
      readTransfers stream (dataLen size count) :=
  if_neg (Nat.not_lt.mpr hfit)

theorem total_past (stream : UFile) (len : Nat) :
    Transfer.total (transfersOf stream (pageLen len) (readCount len)) = len := by
  rw [total_pageLen]
  unfold readCount PAGE_SIZE
  omega

-- A read is its transfers, and what it reports is their sum.
theorem uread_performs (buffer : Nat → UInt8) (first : Bool) (hN : 0 < s.cacheSize)
    (hlen : dataLen size count + PAGE_SIZE ≤ 2 ^ 32) : uread s buffer size count stream first =
      (performAll s buffer (dataLen size count)
          ((Call.uread stream buffer size count first).transfers s.cacheSize) >>= fun r => do
        return (r.1, r.2, ← quotient (Transfer.total
          ((Call.uread stream buffer size count first).transfers s.cacheSize)) size)) := by
  unfold performAll
  by_cases hlong : s.cacheSize < dataPages (dataLen size count)
  · rw [if_pos hlong, transfers_past hlong, total_past]
    unfold uread
    refine (if_pos hlong).trans ?_
    rw [bypassRead_pulls (long_of_bypass hN hlong)]
    rfl
  · rw [if_neg hlong, transfers_cached (Nat.not_lt.mp hlong)]
    exact uread_copies (Nat.not_lt.mp hlong) hlen

-- Enough pages for so many bytes, counted in 32 bits and in full.
def Decided (cacheSize size count : Nat) : Prop :=
  cacheSize < dataPages (dataLen size count) ↔ cacheSize < readCount (size * count)

theorem readCount_lt {cacheSize len : Nat} :
    cacheSize < readCount len ↔ cacheSize * PAGE_SIZE < len := by
  unfold readCount PAGE_SIZE
  omega

theorem Decided.past {cacheSize : Nat} (h : Decided cacheSize size count)
    (hdata : dataLen size count = size * count) (hlong : cacheSize * PAGE_SIZE < size * count) :
    cacheSize < dataPages (dataLen size count) ∧ size * count + PAGE_SIZE ≤ 2 ^ 32 := by
  have hpages := h.mpr (readCount_lt.mpr hlong)
  refine ⟨hpages, ?_⟩
  have hlt : dataLen size count < 2 ^ 32 := u32_lt _
  rw [hdata] at hpages hlt
  unfold dataPages u32 PAGE_SIZE at *
  omega

theorem decided_of_lt (hlen : size * count + PAGE_SIZE ≤ 2 ^ 32) (cacheSize : Nat) :
    Decided cacheSize size count := by
  unfold Decided
  rw [dataLen_of_lt hlen, dataPages_of_lt hlen]

theorem total_uwrite {buffer : Nat → UInt8} {cacheSize : Nat} (hmode : stream.mode &&& U_OWRITE ≠ 0) :
    Transfer.total ((Call.uwrite stream buffer size count).transfers cacheSize) =
      dataLen size count := by
  rw [show (Call.uwrite stream buffer size count).transfers cacheSize = _ from if_neg hmode,
    total_pageLen]
  unfold writeCount PAGE_SIZE
  omega

-- Through the cache a write reports the bytes that it counted.
theorem uwrite_answer {buffer : Nat → UInt8} {s' : State} {n : Nat}
    (hmode : stream.mode &&& U_OWRITE ≠ 0) (hsize : size ≠ 0)
    (hfit : dataPages (dataLen size count) ≤ s.cacheSize)
    (h : uwrite s buffer size count stream = .ok (s', n)) : n = dataLen size count / size := by
  obtain ⟨-, s₁, heq⟩ := uwrite_cached hmode hsize hfit (uwrite_through hmode hfit h)
  exact congrArg Prod.snd (Except.ok.inj (h.symm.trans heq))

theorem uread_answer {buffer buffer' : Nat → UInt8} {first : Bool} {s' : State} {n : Nat}
    (hN : 0 < s.cacheSize) (hlen : dataLen size count + PAGE_SIZE ≤ 2 ^ 32)
    (h : uread s buffer size count stream first = .ok (s', buffer', n)) :
    n = Transfer.total ((Call.uread stream buffer size count first).transfers s.cacheSize) / size := by
  rw [uread_performs buffer first hN hlen] at h
  obtain ⟨r, -, h⟩ := bind_eq_ok.mp h
  obtain ⟨q, hq, h⟩ := bind_eq_ok.mp h
  unfold quotient at hq
  split at hq
  · simp at hq
  · rw [Except.ok.inj hq]
    exact (congrArg (·.2.2) (Except.ok.inj h)).symm

theorem fits_of_cached {cacheSize : Nat} (hcache : cacheSize ≤ CACHE_SIZE)
    (hle : size * count ≤ cacheSize * PAGE_SIZE) : size * count + PAGE_SIZE ≤ 2 ^ 32 := by
  unfold CACHE_SIZE PAGE_SIZE at *
  omega

-- A write past the cache reports too little, so the claimed answer leaves the cached path only.
theorem uwrite_lengths_iff (buffer : Nat → UInt8) (hsize : size ≠ 0) (hN : 0 < s.cacheSize)
    (hcache : s.cacheSize ≤ CACHE_SIZE) (hmode : stream.mode &&& U_OWRITE ≠ 0) :
    Decided s.cacheSize size count ∧
        Transfer.total ((Call.uwrite stream buffer size count).transfers s.cacheSize) = size * count ∧
        (∀ s' n, uwrite s buffer size count stream = .ok (s', n) → n = count) ↔
      size * count ≤ s.cacheSize * PAGE_SIZE := by
  constructor
  · rintro ⟨hdecided, htotal, hanswer⟩
    by_contra hlong
    rw [total_uwrite hmode] at htotal
    obtain ⟨hpages, -⟩ := hdecided.past htotal (Nat.lt_of_not_le hlong)
    obtain ⟨-, s', heq, -⟩ := uwrite_submits buffer hmode hsize hN hpages
    have hn := hanswer _ _ heq
    rw [htotal] at hn
    exact (whole_pages_lt hsize (Nat.zero_lt_of_lt (Nat.lt_of_not_le hlong))).ne hn
  · intro hle
    have hsmall := fits_of_cached hcache hle
    have hdata := dataLen_of_lt hsmall
    refine ⟨decided_of_lt hsmall _, (total_uwrite hmode).trans hdata, fun s' n h => ?_⟩
    rw [uwrite_answer hmode hsize ((pages_fit_iff hsmall).mpr hle) h, hdata,
      Nat.mul_div_cancel_left _ (Nat.pos_of_ne_zero hsize)]

-- What a read moves is its length unless the last copy of a cached read is too long.
theorem total_uread_iff (stream : UFile) (buffer : Nat → UInt8) (first : Bool) {cacheSize : Nat}
    (hlen : size * count + PAGE_SIZE ≤ 2 ^ 32) :
    Transfer.total ((Call.uread stream buffer size count first).transfers cacheSize) =
        size * count ↔
      cacheSize * PAGE_SIZE < size * count ∨ size * count ≤ 2 * PAGE_SIZE ∨
        PAGE_SIZE ∣ size * count := by
  have hdata := dataLen_of_lt hlen
  have hfits : dataPages (dataLen size count) ≤ cacheSize ↔ _ := pages_fit_iff hlen
  by_cases hlong : cacheSize * PAGE_SIZE < size * count
  · have hpages := Nat.lt_of_not_le (mt hfits.mp (Nat.not_le.mpr hlong))
    rw [transfers_past hpages, total_past, hdata]
    exact iff_of_true rfl (.inl hlong)
  · have hpages := hfits.mpr (Nat.le_of_not_lt hlong)
    rw [transfers_cached hpages, hdata, total_read]
    constructor
    · intro htotal
      right
      split at htotal
      · exact .inl ‹_›
      · exact .inr ⟨_, htotal.symm.trans (Nat.mul_comm _ _)⟩
    · intro hpath
      rcases hpath.resolve_left hlong with hshort | ⟨n, hn⟩
      · rw [if_pos hshort]
      · rw [hn]
        unfold readCount PAGE_SIZE
        split <;> omega

theorem uread_lengths_iff (buffer : Nat → UInt8) (first : Bool) (hsize : size ≠ 0)
    (hN : 0 < s.cacheSize) (hcache : s.cacheSize ≤ CACHE_SIZE) :
    Decided s.cacheSize size count ∧
        Transfer.total ((Call.uread stream buffer size count first).transfers s.cacheSize) =
          size * count ∧
        (∀ s' buffer' n, uread s buffer size count stream first = .ok (s', buffer', n) → n = count) ↔
      size * count + PAGE_SIZE ≤ 2 ^ 32 ∧ (s.cacheSize * PAGE_SIZE < size * count ∨
        size * count ≤ 2 * PAGE_SIZE ∨ PAGE_SIZE ∣ size * count) := by
  constructor
  · rintro ⟨hdecided, htotal, -⟩
    have hlen : size * count + PAGE_SIZE ≤ 2 ^ 32 := by
      by_cases hpages : s.cacheSize < dataPages (dataLen size count)
      · have hlong := readCount_lt.mp (hdecided.mp hpages)
        rw [transfers_past hpages, total_past] at htotal
        exact (hdecided.past htotal hlong).2
      · exact fits_of_cached hcache (Nat.le_of_not_lt fun hlong =>
          hpages (hdecided.mpr (readCount_lt.mpr hlong)))
    exact ⟨hlen, (total_uread_iff stream buffer first hlen).mp htotal⟩
  · rintro ⟨hlen, hpath⟩
    have htotal := (total_uread_iff stream buffer first hlen).mpr hpath
    refine ⟨decided_of_lt hlen _, htotal, fun s' buffer' n h => ?_⟩
    rw [uread_answer hN ((dataLen_of_lt hlen).symm ▸ hlen) h, htotal,
      Nat.mul_div_cancel_left _ (Nat.pos_of_ne_zero hsize)]

end Requests

-- The lengths are right as far as 32 bits count them, and the answers as far as the paths taken
-- report what they moved.
theorem lengths_exact_iff {s : State} {stream : UFile} {size count : Nat} (buffer : Nat → UInt8)
    (first : Bool) (hsize : size ≠ 0) (hN : 0 < s.cacheSize) (hcache : s.cacheSize ≤ CACHE_SIZE) :
    (stream.mode &&& U_OWRITE ≠ 0 → (Decided s.cacheSize size count ∧
        Transfer.total ((Call.uwrite stream buffer size count).transfers s.cacheSize) = size * count ∧
        (∀ s' n, uwrite s buffer size count stream = .ok (s', n) → n = count) ↔
      size * count ≤ s.cacheSize * PAGE_SIZE)) ∧
    (Decided s.cacheSize size count ∧
        Transfer.total ((Call.uread stream buffer size count first).transfers s.cacheSize) =
          size * count ∧
        (∀ s' buffer' n, uread s buffer size count stream first = .ok (s', buffer', n) → n = count) ↔
      size * count + PAGE_SIZE ≤ 2 ^ 32 ∧ (s.cacheSize * PAGE_SIZE < size * count ∨
        size * count ≤ 2 * PAGE_SIZE ∨ PAGE_SIZE ∣ size * count)) :=
  ⟨uwrite_lengths_iff buffer hsize hN hcache, uread_lengths_iff buffer first hsize hN hcache⟩

theorem lengths_exact_long_read : ∃ s, (paging CACHE_SIZE).start s ∧
    Transfer.total ((Call.uread (streamA 0) (fun _ => 0) 1 longLen true).transfers s.cacheSize) =
      1 * longLen ∧
    ∀ s' buffer' n, uread s (fun _ => 0) 1 longLen (streamA 0) true = .ok (s', buffer', n) →
      n = longLen := by
  obtain ⟨s, hstart, hs⟩ := paging_start CACHE_SIZE
  obtain ⟨-, hread⟩ := lengths_exact_iff (s := s) (fun _ => 0) true Nat.one_ne_zero
    (by rw [hs]; decide) hs.le
  exact ⟨s, hstart, (hread.mpr ⟨by decide, .inl (by rw [hs]; decide)⟩).2⟩

def truncated : Bool :=
  match uwrite (initPageCache 2 emptyStore) (fun _ => 1) PAGE_SIZE 1048577 (streamA 0) with
  | .ok (_, n) => n == 1
  | .error _ => false

-- A page more than 4 GB: the cache gets that page and the caller is told of one.
theorem long_write_truncated : ¬ Decided CACHE_SIZE PAGE_SIZE 1048577 ∧
    ∃ s', uwrite (initPageCache 2 emptyStore) (fun _ => 1) PAGE_SIZE 1048577 (streamA 0) =
      .ok (s', 1) := by
  have hp : truncated = true := by decide +kernel
  unfold truncated at hp
  refine ⟨fun hdecided => absurd (hdecided.mpr (by decide)) (by decide), ?_⟩
  cases heq : uwrite (initPageCache 2 emptyStore) (fun _ => 1) PAGE_SIZE 1048577 (streamA 0) with
  | error fault => simp [heq] at hp
  | ok r =>
      obtain ⟨s', n⟩ := r
      simp only [heq, beq_iff_eq] at hp
      exact ⟨s', by rw [hp]⟩

end UserPageCache.PageCache
