import UserPageCache.PageCache.Transfers

namespace UserPageCache.PageCache

section Images

variable {stream : UFile} {buffer : Nat → UInt8} {len : Nat} {images : List Image}

theorem writeCount_eq (hlen : 0 < len) : writeCount len = readCount len := by
  unfold writeCount readCount PAGE_SIZE
  omega

theorem Fills.keys (h : Fills stream buffer len images) :
    images.map Prod.fst = (List.range (writeCount len)).map (pageKey stream) := by
  refine List.ext_getElem? fun k => ?_
  by_cases hk : k < writeCount len
  · obtain ⟨frame, hpage, -⟩ := h.page k hk
    simp [hpage, hk]
  · have hout : images[k]? = none := List.getElem?_eq_none (by rw [h.count]; omega)
    simp [hout, hk]

theorem Fills.bytes (h : Fills stream buffer len images) {i : Nat} (hi : i < len) :
    ∃ image ∈ images[i / PAGE_SIZE]?, image.2.bytes i = buffer i := by
  have hk : i / PAGE_SIZE < writeCount len := by
    unfold writeCount PAGE_SIZE
    omega
  obtain ⟨frame, hpage, hbytes⟩ := h.page _ hk
  refine ⟨_, hpage, ?_⟩
  have hdiv := Nat.div_add_mod' i PAGE_SIZE
  have hbyte := hbytes ⟨i % PAGE_SIZE, Nat.mod_lt i (by decide)⟩ (by simp only [hdiv]; exact hi)
  simp only [hdiv] at hbyte
  exact hbyte

theorem Fills.covers_iff (h : Fills stream buffer len images) (hlen : 0 < len) :
    Covers stream buffer len images ↔ stream.ioOffset / PAGE_SIZE + readCount len ≤ 2 ^ 32 := by
  have hcount : 0 < readCount len := by
    unfold readCount PAGE_SIZE
    omega
  have hkeys : images.map Prod.fst =
      (transfersOf stream (pageLen len) (readCount len)).map Transfer.key := by
    rw [h.keys, writeCount_eq hlen]
    unfold transfersOf
    rw [List.map_map]
    rfl
  rw [← keys_iff hcount, ← hkeys]
  exact ⟨fun hc => hc.keys, fun hk => ⟨hk, fun i hi => h.bytes hi⟩⟩

end Images

section Writes

variable {s : State} {stream : UFile} {buffer : Nat → UInt8} {size count : Nat}

theorem dataLen_of_lt (hlen : size * count + PAGE_SIZE ≤ 2 ^ 32) :
    dataLen size count = size * count :=
  u32_of_lt (by unfold PAGE_SIZE at hlen; omega)

theorem dataPages_of_lt {len : Nat} (hlen : len + PAGE_SIZE ≤ 2 ^ 32) :
    dataPages len = readCount len := by
  unfold dataPages u32 readCount PAGE_SIZE at *
  omega

-- The whole pages before the last one are fewer than were asked for.
theorem whole_pages_lt (hsize : size ≠ 0) (hpos : 0 < size * count) :
    (writeCount (size * count) - 1) * PAGE_SIZE / size < count := by
  rw [Nat.div_lt_iff_lt_mul (Nat.pos_of_ne_zero hsize), Nat.mul_comm count]
  generalize size * count = len at *
  unfold writeCount PAGE_SIZE
  omega

theorem uwrite_cached (hmode : stream.mode &&& U_OWRITE ≠ 0) (hsize : size ≠ 0)
    (hfit : dataPages (dataLen size count) ≤ s.cacheSize)
    (hthrough : (Call.uwrite stream buffer size count).Through Returns s) :
    Fills stream buffer (dataLen size count) ((Call.uwrite stream buffer size count).images s) ∧
      ∃ s', uwrite s buffer size count stream = .ok (s', dataLen size count / size) := by
  obtain ⟨s', heq, -⟩ := uwrite_rule hmode hsize hfit hthrough (P := fun _ _ => True) trivial
    (fun k _ s _ ⟨s', hact⟩ => ⟨s', hact, trivial⟩)
  rw [images_uwrite hmode hfit]
  exact ⟨steps_fill hmode hfit hthrough, s', heq⟩

theorem uwrite_submits (buffer : Nat → UInt8) (hmode : stream.mode &&& U_OWRITE ≠ 0)
    (hsize : size ≠ 0) (hN : 0 < s.cacheSize)
    (hlong : s.cacheSize < dataPages (dataLen size count)) :
    Fills stream buffer (dataLen size count) ((Call.uwrite stream buffer size count).images s) ∧
      ∃ s', uwrite s buffer size count stream =
          .ok (s', (writeCount (dataLen size count) - 1) * PAGE_SIZE / size) ∧
        s'.store.writes = s.store.writes ++ (Call.uwrite stream buffer size count).images s := by
  have himages : (Call.uwrite stream buffer size count).images s =
      largeImages stream buffer (dataLen size count) (writeCount (dataLen size count)) :=
    (if_neg hmode).trans (if_pos hlong)
  obtain ⟨d, heq, hd⟩ := bypassWrite_rule s stream buffer
    (P := fun k d => d.writes = s.store.writes ++ largeImages stream buffer (dataLen size count) k)
    (by simp [largeImages]) (long_of_bypass hN hlong) (fun k _ d hd => by
      refine (submitPio_write_writes d (pageKey stream k) _).trans ?_
      rw [hd]
      simp [largeImages, List.range_succ])
  rw [himages]
  exact ⟨largeImages_fills _ _ _, _, uwrite_bypass hmode hsize hlong heq, hd⟩

end Writes

theorem pages_fit_iff {cacheSize size count : Nat} (hlen : size * count + PAGE_SIZE ≤ 2 ^ 32) :
    dataPages (dataLen size count) ≤ cacheSize ↔ size * count ≤ cacheSize * PAGE_SIZE := by
  rw [dataLen_of_lt hlen, dataPages_of_lt hlen]
  unfold readCount PAGE_SIZE
  omega

-- Past the cache the right pages are sent and too few items are reported.
theorem uwrite_past {s : State} {stream : UFile} {size count : Nat} (buffer : Nat → UInt8)
    (hmode : stream.mode &&& U_OWRITE ≠ 0) (hsize : size ≠ 0) (hpos : 0 < size * count)
    (hlen : size * count + PAGE_SIZE ≤ 2 ^ 32) (hN : 0 < s.cacheSize)
    (hlong : s.cacheSize * PAGE_SIZE < size * count) : ∃ s' n, n < count ∧
      uwrite s buffer size count stream = .ok (s', n) ∧
      s'.store.writes = s.store.writes ++ (Call.uwrite stream buffer size count).images s ∧
      (Covers stream buffer (size * count) ((Call.uwrite stream buffer size count).images s) ↔
        stream.ioOffset / PAGE_SIZE + readCount (size * count) ≤ 2 ^ 32) := by
  obtain ⟨hfills, s', heq, hsent⟩ := uwrite_submits buffer hmode hsize hN
    (Nat.lt_of_not_le fun hle => absurd ((pages_fit_iff hlen).mp hle) (Nat.not_le.mpr hlong))
  rw [dataLen_of_lt hlen] at hfills heq
  exact ⟨s', _, whole_pages_lt hsize hpos, heq, hsent, hfills.covers_iff hpos⟩

-- A write does what it should exactly when its pages fit into the cache, are numbered below
-- 2^32 and come in. One that goes past the cache submits the right pages all the same.
theorem uwrite_covers_iff {s : State} {stream : UFile} {size count : Nat} (buffer : Nat → UInt8)
    (hmode : stream.mode &&& U_OWRITE ≠ 0) (hsize : size ≠ 0) (hpos : 0 < size * count)
    (hlen : size * count + PAGE_SIZE ≤ 2 ^ 32) (hN : 0 < s.cacheSize) :
    ((∃ s', uwrite s buffer size count stream = .ok (s', count) ∧
        Covers stream buffer (size * count) ((Call.uwrite stream buffer size count).images s)) ↔
      size * count ≤ s.cacheSize * PAGE_SIZE ∧
        stream.ioOffset / PAGE_SIZE + readCount (size * count) ≤ 2 ^ 32 ∧
        (Call.uwrite stream buffer size count).Through Returns s) ∧
    (s.cacheSize * PAGE_SIZE < size * count → ∃ s' n, n < count ∧
      uwrite s buffer size count stream = .ok (s', n) ∧
      s'.store.writes = s.store.writes ++ (Call.uwrite stream buffer size count).images s ∧
      (Covers stream buffer (size * count) ((Call.uwrite stream buffer size count).images s) ↔
        stream.ioOffset / PAGE_SIZE + readCount (size * count) ≤ 2 ^ 32)) := by
  have hpast := uwrite_past (s := s) buffer hmode hsize hpos hlen hN
  refine ⟨⟨fun ⟨s', heq, hcovers⟩ => ?_, fun ⟨hle, hrange, hthrough⟩ => ?_⟩, hpast⟩
  · rcases Nat.lt_or_ge (s.cacheSize * PAGE_SIZE) (size * count) with hlong | hle
    · obtain ⟨s₁, n, hn, heq', -⟩ := hpast hlong
      obtain rfl : n = count := congrArg Prod.snd (Except.ok.inj (heq'.symm.trans heq))
      exact absurd hn (Nat.lt_irrefl n)
    · have hfit := (pages_fit_iff hlen).mpr hle
      have hthrough := uwrite_through hmode hfit heq
      have hfills := (uwrite_cached hmode hsize hfit hthrough).1
      rw [dataLen_of_lt hlen] at hfills
      exact ⟨hle, (hfills.covers_iff hpos).mp hcovers, hthrough⟩
  · obtain ⟨hfills, s', heq⟩ := uwrite_cached hmode hsize ((pages_fit_iff hlen).mpr hle) hthrough
    rw [dataLen_of_lt hlen] at hfills heq
    rw [Nat.mul_div_cancel_left _ (Nat.pos_of_ne_zero hsize)] at heq
    exact ⟨s', heq, (hfills.covers_iff hpos).mpr hrange⟩

theorem paging_start (cacheSize : Nat) :
    ∃ s, (paging cacheSize).start s ∧ s.cacheSize = cacheSize :=
  ⟨_, ⟨emptyStore, rfl⟩, (initPageCache_spec cacheSize emptyStore).2.1⟩

-- A byte more than the cache holds.
def longLen : Nat := 536870913

def longWrite : Call := .uwrite (streamA 0) (fun _ => 1) 1 longLen

theorem longLen_pages {s : State} (hs : s.cacheSize = CACHE_SIZE) :
    s.cacheSize < dataPages (dataLen 1 longLen) := by
  rw [hs]
  decide

theorem uwrite_covers_longWrite : ∃ (s s' : State) (n : Nat), (paging CACHE_SIZE).start s ∧
    n < longLen ∧ uwrite s (fun _ => 1) 1 longLen (streamA 0) = .ok (s', n) ∧
    Covers (streamA 0) (fun _ => 1) (1 * longLen) (longWrite.images s) := by
  obtain ⟨s, hstart, hs⟩ := paging_start CACHE_SIZE
  obtain ⟨-, hpast⟩ := uwrite_covers_iff (s := s) (fun _ => 1)
    (by decide : (streamA 0).mode &&& U_OWRITE ≠ 0) Nat.one_ne_zero (by decide : 0 < 1 * longLen)
    (by decide) (by rw [hs]; decide)
  obtain ⟨s', n, hn, heq, -, hcovers⟩ := hpast (by rw [hs]; decide)
  exact ⟨s, s', n, hstart, hn, heq, hcovers.mpr (by decide)⟩

-- The answer leaves out the page of the last byte and so that byte.
theorem uwrite_forgets_last_page : ∃ s s', (paging CACHE_SIZE).start s ∧
    uwrite s (fun _ => 1) 1 longLen (streamA 0) = .ok (s', CACHE_SIZE * PAGE_SIZE) ∧
    CACHE_SIZE * PAGE_SIZE ≠ longLen := by
  obtain ⟨s, hstart, hs⟩ := paging_start CACHE_SIZE
  obtain ⟨-, s', heq, -⟩ := uwrite_submits (fun _ => 1)
    (by decide : (streamA 0).mode &&& U_OWRITE ≠ 0) Nat.one_ne_zero (by rw [hs]; decide)
    (longLen_pages hs)
  exact ⟨s, s', hstart, heq, by decide⟩

end UserPageCache.PageCache
