import UserPageCache.SsdCache.Device
import UserPageCache.SsdCache.Turn

namespace UserPageCache.SsdCache

-- The same world on a namespace that holds other bytes beyond the cache.
def World.over (w : World) (tail : Nat → UInt8) : World :=
  { w with ssd := Bytes.splice targetSize w.ssd tail }

-- Only blocks of the cache were written or deallocated.
def Confined (w w' : World) : Prop :=
  ∃ ranges, Touches w w' ranges ∧ ∀ r ∈ ranges, (r.1 + r.2) * w.sectorSize ≤ targetSize

variable {g : Geometry} {s : Session} {t : Table Work} {cache : Cache} {m : Mapping}
  {w w' w'' : World} {reply : Replies} {pio : Pio} {b c n offsetBlock numBlock : Nat}
  {path : CString} {index : Nat} {tail : Nat → UInt8}

section Reach

theorem Confined.refl (w : World) : Confined w w := ⟨[], .of_same rfl rfl rfl, by simp⟩

theorem Confined.trans (h : Confined w w') (h' : Confined w' w'') : Confined w w'' := by
  obtain ⟨ranges, ht, hr⟩ := h
  obtain ⟨ranges', ht', hr'⟩ := h'
  refine ⟨ranges ++ ranges', ht.trans ht', fun r hr'' => ?_⟩
  rcases List.mem_append.mp hr'' with hmem | hmem
  · exact hr r hmem
  · rw [← ht.sector]
    exact hr' r hmem

theorem Confined.beyond (h : Confined w w') {i : Nat} (hi : targetSize ≤ i) :
    w'.ssd i = w.ssd i := by
  obtain ⟨ranges, ht, hr⟩ := h
  exact ht.rest i fun r hmem => .inr ((hr r hmem).trans hi)

-- The range of a block, and that of a request inside it.
theorem Layout.cblock_reach {dev : Nat} (hl : Layout g w.sectorSize dev)
    (hm : m.blockPerCblockShift = g.blockPerCblockShift) (hc : c < CACHE_BLOCK_NUMBER) :
    (cblockStart m c + 2 ^ m.blockPerCblockShift) * w.sectorSize ≤ targetSize := by
  obtain ⟨hstart, hsize⟩ := hl.cblock hm hc
  rw [Nat.add_mul, hstart, hsize, ← Nat.add_mul]
  have hpages : c * 8 + 8 ≤ CACHE_BLOCK_NUMBER * 8 := by omega
  calc (c * 8 + 8) * PAGE_SIZE ≤ CACHE_BLOCK_NUMBER * 8 * PAGE_SIZE := Nat.mul_le_mul_right _ hpages
    _ = targetSize := by rw [Nat.mul_assoc]; rfl

theorem Layout.target_reach (hl : Layout g w.sectorSize cache.devBlockPerPageShift)
    (hm : cache.map.blockPerCblockShift = g.blockPerCblockShift) (hc : c < CACHE_BLOCK_NUMBER)
    (hcheck : checkPio pio = true) :
    (targetBlock cache pio c + pio.pioCnt * 2 ^ cache.devBlockPerPageShift) * w.sectorSize ≤
      targetSize := by
  obtain ⟨hstart, hsize⟩ := hl.target hm pio hc
  have hroom := room_of_checkPio hcheck
  rw [Nat.add_mul, hstart, hsize, ← Nat.add_mul]
  have hpages : c * 8 + pio.pageIndex % 8 + pio.pioCnt ≤ CACHE_BLOCK_NUMBER * 8 := by omega
  calc (c * 8 + pio.pageIndex % 8 + pio.pioCnt) * PAGE_SIZE ≤ CACHE_BLOCK_NUMBER * 8 * PAGE_SIZE :=
        Nat.mul_le_mul_right _ hpages
    _ = targetSize := by rw [Nat.mul_assoc]; rfl

end Reach

section Device

-- A range of the cache reads the same.
theorem over_read (h : (offsetBlock + numBlock) * w.sectorSize ≤ targetSize) :
    ∀ i < numBlock * w.sectorSize, (w.over tail).ssd (offsetBlock * w.sectorSize + i) =
      w.ssd (offsetBlock * w.sectorSize + i) := by
  intro i hi
  rw [Nat.add_mul] at h
  exact Bytes.splice_below _ _ (by omega)

theorem over_writeSsd (h : (offsetBlock + numBlock) * w.sectorSize ≤ targetSize)
    (src : Nat → UInt8) : writeSsd (w.over tail) offsetBlock numBlock src =
      (writeSsd w offsetBlock numBlock src).over tail := by
  rw [Nat.add_mul] at h
  simp only [writeSsd, World.over, Bytes.splice_write _ _ _ h]

theorem over_readSpdk (h : (offsetBlock + numBlock) * w.sectorSize ≤ targetSize) :
    readSpdk (w.over tail) reply offsetBlock numBlock =
      ((readSpdk w reply offsetBlock numBlock).1.over tail,
        (readSpdk w reply offsetBlock numBlock).2) := by
  unfold readSpdk
  cases reply.command with
  | rejected => rfl
  | failed => rfl
  | done =>
      have hbuf : Bytes.write w.dmaBuf 0 (numBlock * w.sectorSize)
          (fun i => (w.over tail).ssd (offsetBlock * w.sectorSize + i)) =
          Bytes.write w.dmaBuf 0 (numBlock * w.sectorSize)
            (fun i => w.ssd (offsetBlock * w.sectorSize + i)) :=
        Bytes.write_congr _ _ (over_read h)
      exact congrArg (fun buf => (({ w with dmaBuf := buf } : World).over tail, 0)) hbuf

theorem over_writeSpdk (h : (offsetBlock + numBlock) * w.sectorSize ≤ targetSize) :
    writeSpdk (w.over tail) reply offsetBlock numBlock =
      ((writeSpdk w reply offsetBlock numBlock).1.over tail,
        (writeSpdk w reply offsetBlock numBlock).2) := by
  unfold writeSpdk
  cases reply.command with
  | rejected => rfl
  | failed => rfl
  | done => exact congrArg (·, 0) (over_writeSsd h w.dmaBuf)

theorem over_trimSpdk (h : (offsetBlock + numBlock) * w.sectorSize ≤ targetSize) :
    trimSpdk (w.over tail) reply offsetBlock numBlock =
      (trimSpdk w reply offsetBlock numBlock).over tail := by
  unfold trimSpdk
  split
  · exact over_writeSsd h _
  · rfl
  · rfl

theorem over_writevSpdk (h : (offsetBlock + numBlock) * w.sectorSize ≤ targetSize)
    (pages : List Page) : writevSpdk (w.over tail) reply pages offsetBlock numBlock =
      ((writevSpdk w reply pages offsetBlock numBlock).1.over tail,
        (writevSpdk w reply pages offsetBlock numBlock).2) := by
  unfold writevSpdk
  cases reply.command with
  | rejected => rfl
  | failed => rfl
  | done =>
      refine congrArg (·, 0) ((over_writeSsd h _).trans ?_)
      have hrest : ∀ i < numBlock * w.sectorSize,
          (w.over tail).ssd (offsetBlock * w.sectorSize + i) =
            w.ssd (offsetBlock * w.sectorSize + i) := over_read h
      have hsrc := Bytes.write_congr w.ssd (offsetBlock * w.sectorSize)
        (Bytes.gather_congr pages hrest)
      exact congrArg (fun data => (({ w with
        ssd := data
        touched := w.touched ++ [(offsetBlock, numBlock)] } : World).over tail)) hsrc

theorem fill_congr {src src' : Nat → UInt8} (pages : List Page) {len : Nat}
    (h : ∀ i < len, src i = src' i) : fill pages len src = fill pages len src' := by
  unfold fill
  congr 1
  funext k page j
  split
  · rename_i hlt
    rw [h _ hlt]
  · rfl

theorem over_readvSpdk (h : (offsetBlock + numBlock) * w.sectorSize ≤ targetSize)
    (pages : List Page) : readvSpdk (w.over tail) reply pages offsetBlock numBlock =
      readvSpdk w reply pages offsetBlock numBlock := by
  unfold readvSpdk
  cases reply.command with
  | rejected => rfl
  | failed => rfl
  | done => exact congrArg (·, 0) (fill_congr pages (over_read h))

end Device

section Files

theorem over_openFile (creat : Bool) : openFile (w.over tail) reply path creat =
    (openFile w reply path creat).map (·.over tail) := by
  unfold openFile
  cases reply.opens with
  | false => rfl
  | true =>
      cases hf : w.files path with
      | some file => simp [World.over, hf]
      | none => cases creat <;> simp [World.over, hf, setFile]

theorem over_pwrite (len offset : Nat) (src : Nat → UInt8) :
    pwrite (w.over tail) reply path len offset src =
      (pwrite w reply path len offset src).map fun r => (r.1, r.2.over tail) := by
  unfold pwrite
  cases hf : w.files path with
  | none => simp [World.over, hf]
  | some file => cases reply.transfer.bytes len <;> simp [World.over, hf, setFile]

theorem over_pread (len offset : Nat) :
    pread (w.over tail) reply path len offset = pread w reply path len offset := rfl

theorem over_loadFile : loadFile (w.over tail) reply path index =
    (loadFile w reply path index).map (·.over tail) := by
  unfold loadFile
  rw [over_openFile]
  cases openFile w reply path false with
  | none => rfl
  | some w₁ =>
      simp only [Option.map_some, Option.bind_eq_bind, Option.bind_some, over_pread]
      cases pread w₁ reply path CACHE_BLOCK_SIZE (fileOffset index) <;> rfl

theorem over_storeFile : storeFile (w.over tail) reply path index =
    (storeFile w reply path index).map (·.over tail) := by
  unfold storeFile
  rw [over_openFile]
  cases openFile w reply path false with
  | none => rfl
  | some w₁ =>
      have hbuf : (w₁.over tail).dmaBuf = w₁.dmaBuf := rfl
      simp only [Option.map_some, Option.bind_eq_bind, Option.bind_some, over_pwrite, hbuf]
      cases pwrite w₁ reply path CACHE_BLOCK_SIZE (fileOffset index) w₁.dmaBuf <;> rfl

theorem over_originFile : originFile (w.over tail) reply pio =
    (originFile w reply pio).map fun r => (r.1.over tail, r.2) := by
  unfold originFile
  split
  · rw [over_openFile]
    cases openFile w reply pio.fullPathName true <;> rfl
  · have hdesc : (w.over tail).descriptors = w.descriptors := rfl
    rw [hdesc]
    cases w.descriptors pio.fd <;> rfl

theorem over_mapToOrigin : mapToOrigin (w.over tail) reply pio =
    (mapToOrigin w reply pio).map fun r => (r.1.over tail, r.2) := by
  unfold mapToOrigin readOrigin writeOrigin
  cases pioToIovec pio with
  | error fault => split <;> rfl
  | ok iov =>
      simp only [bind, Except.bind, over_originFile]
      cases originFile w reply pio with
      | none => split <;> rfl
      | some r =>
          simp only [Option.map_some, over_pread, over_pwrite]
          split
          · cases pread r.1 reply r.2 (iov.length * PAGE_SIZE) (offsetOf pio.pageIndex) <;> rfl
          · cases pwrite r.1 reply r.2 (iov.length * PAGE_SIZE) (offsetOf pio.pageIndex)
              (Bytes.gather PAGE_SIZE iov fun _ => 0) <;> rfl

end Files

def Session.over (s : Session) (tail : Nat → UInt8) : Session := ⟨s.cache, s.world.over tail⟩

section Turns

-- A migration of a block of the cache.
theorem over_mgStart {dev : Nat} (hl : Layout g w.sectorSize dev)
    (hm : m.blockPerCblockShift = g.blockPerCblockShift) (hc : c < CACHE_BLOCK_NUMBER)
    (path : Option CString) {mgType : MgType} (hd : mgType ≠ .demotion ∨ index = 0) :
    mgStart m (w.over tail) reply path index c mgType =
      ((mgStart m w reply path index c mgType).1.over tail,
        (mgStart m w reply path index c mgType).2) := by
  cases mgType with
  | promotion =>
      unfold mgStart
      cases path with
      | none => rfl
      | some path =>
          simp only [Option.bind_some, over_loadFile]
          cases hload : loadFile w reply path index with
          | none => rfl
          | some w₁ =>
              have hreach := (loadFile_device hload).1 ▸ hl.cblock_reach hm hc
              simp only [Option.map_some, storeCblock, over_writeSpdk hreach]
  | demotion =>
      obtain rfl : index = 0 := hd.resolve_left fun hne => hne rfl
      have hreach := hl.cblock_reach hm (show 0 < CACHE_BLOCK_NUMBER by decide)
      exact congrArg (·, true) (over_trimSpdk hreach)
  | writeback =>
      unfold mgStart
      simp only [loadCblock, over_readSpdk (hl.cblock_reach hm hc)]
      by_cases hrc : (readSpdk w reply (cblockStart m c) (2 ^ m.blockPerCblockShift)).2 = 0
      · simp only [hrc, ite_true]
        cases path with
        | none => rfl
        | some path =>
            simp only [Option.bind_some, over_storeFile]
            cases storeFile _ reply path index <;> rfl
      · simp only [hrc, ite_false]

theorem over_mapToCache (cache : Cache)
    (hl : Layout g w.sectorSize cache.devBlockPerPageShift)
    (hm : cache.map.blockPerCblockShift = g.blockPerCblockShift) (hc : c < CACHE_BLOCK_NUMBER)
    (hcheck : checkPio pio = true) : mapToCache cache (w.over tail) reply pio c =
      (mapToCache cache w reply pio c).map fun r => (r.1, r.2.1.over tail, r.2.2) := by
  have hreach := hl.target_reach hm hc hcheck
  unfold mapToCache readCache writeCache
  cases pioToIovec pio with
  | error fault => split <;> rfl
  | ok iovs =>
      simp only [bind, Except.bind, over_readvSpdk hreach, over_writevSpdk hreach]
      split
      · rfl
      · cases writevSpdk w reply iovs (targetBlock cache pio c)
          (pio.pioCnt * 2 ^ cache.devBlockPerPageShift) with
        | mk w' rc => cases rc <;> rfl

theorem Quiet.over_submit (h : Quiet g s t)
    (hl : Layout g s.world.sectorSize s.cache.devBlockPerPageShift) (reply : Replies) (pio : Pio)
    (tail : Nat → UInt8) : _submitPio s.cache (s.world.over tail) reply pio =
      (_submitPio s.cache s.world reply pio).map fun r => (r.1, r.2.1.over tail, r.2.2) := by
  unfold _submitPio
  split
  · cases discardPio s.cache pio <;> rfl
  · unfold mapPio
    cases hcheck : checkPio pio with
    | false => rfl
    | true =>
        obtain ⟨m, c, t₁, heq, r, hlook⟩ := h.repr.mapLookup h.valid pio
        simp only [Bool.not_true, Bool.false_eq_true, ite_false, heq, bind, Except.bind]
        cases c with
        | none =>
            simp only [over_mapToOrigin]
            cases mapToOrigin s.world reply pio <;> rfl
        | some b =>
            have hb := Nat.lt_of_lt_of_le (h.valid.lt_of_looked hlook) h.repr.capacity
            exact over_mapToCache { s.cache with map := m } hl r.shift hb hcheck

-- Which block the worker moves does not depend on the bytes of the device.
theorem over_round {dev : Nat} {key : Work} (r : Repr g m t)
    (v : Valid g.cacheBlockNum (.peeked key) t) (hl : Layout g w.sectorSize dev) (reply : Replies)
    (tail : Nat → UInt8) :
    migrate m (w.over tail) reply key.fullPathName key.cachePageIndex =
      (migrate m w reply key.fullPathName key.cachePageIndex).map
        fun r => (r.1, r.2.over tail) := by
  obtain ⟨m', t', w', -, -, -, hm⟩ := r.migrate v w reply
  have hlt : ∀ b ∈ t.listed, b < CACHE_BLOCK_NUMBER := fun b hb =>
    Nat.lt_of_lt_of_le (v.accounted.lt_of_listed hb) r.capacity
  unfold migrate
  simp only [bind, Except.bind]
  cases hm with
  | @promoted b rest m₁ _ success hf hstart r₁ hs =>
      have hb := hlt b (by simp [Table.listed, hf])
      have hpromotion : MgType.promotion ≠ .demotion := by decide
      simp only [hstart, over_mgStart hl r₁.shift hb _ (.inl hpromotion)]
      cases promotionComplete m₁ b _ <;> rfl
  | @demoted b rest m₁ hf hc hn hstart r₁ =>
      have hb := hlt b (by simp [Table.listed, hc])
      simp only [r.promotionFreeToClean_none hf key, hstart,
        over_mgStart hl r₁.shift hb none (.inr rfl)]
      cases demotionComplete m₁ b _ <;> rfl
  | @written b rest m₁ _ success hf hn hd hstart r₁ hs =>
      have hb := hlt b (by simp [Table.listed, hd])
      simp only [r.promotionFreeToClean_none hf key, r.demotionCleanToFree_none hn, hstart]
      cases toEntry b with
      | none => rfl
      | some e =>
          have hwriteback : MgType.writeback ≠ .demotion := by decide
          simp only [over_mgStart hl r₁.shift hb _ (.inl hwriteback)]
          cases writebackComplete m₁ b _ <;> rfl
  | stuck hf hn hd =>
      simp only [r.promotionFreeToClean_none hf key, r.demotionCleanToFree_none hn,
        r.writebackDirtyToClean_none hd]
      rfl

theorem Quiet.over_migrate (h : Quiet g s t)
    (hl : Layout g s.world.sectorSize s.cache.devBlockPerPageShift) (reply : Replies)
    (tail : Nat → UInt8) : doMigrationWork s.cache.map (s.world.over tail) reply =
      (doMigrationWork s.cache.map s.world reply).map fun r => (r.1, r.2.1.over tail, r.2.2) := by
  unfold doMigrationWork
  rw [h.repr.queue.peakWork]
  cases hq : t.queue.head? with
  | none => rfl
  | some key =>
      simp only [bind, Except.bind, over_round h.repr (h.valid.peek hq) hl]
      cases SsdCache.migrate s.cache.map s.world reply key.fullPathName key.cachePageIndex <;> rfl

theorem Quiet.over_turn (h : Quiet g s t)
    (hl : Layout g s.world.sectorSize s.cache.devBlockPerPageShift) (a : Turn)
    (tail : Nat → UInt8) : (s.over tail).turn a = (s.turn a).map (·.over tail) := by
  unfold Session.turn Session.over
  cases a with
  | submit pio reply =>
      simp only [bind, Except.bind, h.over_submit hl]
      cases _submitPio s.cache s.world reply pio <;> rfl
  | migrate reply =>
      simp only [bind, Except.bind, h.over_migrate hl]
      cases doMigrationWork s.cache.map s.world reply <;> rfl

end Turns

section Writes

theorem mapToCache_confined (cache : Cache) {cache' : Cache} {pages : List Page} {rc : Nat}
    (hl : Layout g w.sectorSize cache.devBlockPerPageShift)
    (hm : cache.map.blockPerCblockShift = g.blockPerCblockShift) (hc : c < CACHE_BLOCK_NUMBER)
    (hcheck : checkPio pio = true)
    (h : mapToCache cache w reply pio c = .ok (cache', w', pages, rc)) : Confined w w' := by
  have hreach := hl.target_reach hm hc hcheck
  unfold mapToCache readCache writeCache at h
  cases hiov : pioToIovec pio with
  | error fault => split at h <;> simp [hiov, bind, Except.bind] at h
  | ok iovs =>
      simp only [hiov, bind, Except.bind, pure, Except.pure, writevSpdk] at h
      split at h
      · obtain ⟨-, rfl, -⟩ := Prod.mk.inj (Except.ok.inj h) |>.imp id Prod.mk.inj
        exact .refl w
      · cases hr : reply.command with
        | rejected =>
            simp only [hr, Except.ok.injEq, Prod.mk.injEq] at h
            obtain ⟨-, rfl, -⟩ := h
            exact .refl w
        | failed =>
            simp only [hr, Except.ok.injEq, Prod.mk.injEq] at h
            obtain ⟨-, rfl, -⟩ := h
            exact .refl w
        | done =>
            simp only [hr, Except.ok.injEq, Prod.mk.injEq] at h
            obtain ⟨-, rfl, -⟩ := h
            exact ⟨_, writeSsd_touches _ _ _ _, by simpa using hreach⟩

theorem Direct.confined (h : Direct w w' pio) : Confined w w' := by
  rw [h.same]
  exact ⟨[], .of_same rfl rfl rfl, by simp⟩

theorem Submitted.confined {t' : Table Work} (h : Submitted g s reply pio t t' w')
    (hq : Quiet g s t) (hl : Layout g s.world.sectorSize s.cache.devBlockPerPageShift) :
    Confined s.world w' := by
  cases h with
  | refused => exact .refl _
  | discarded => exact .refl _
  | @served b m t₁ cache' w' pages rc hop hcheck hm r hlook heq hw =>
      have hb := Nat.lt_of_lt_of_le (hq.valid.lt_of_looked hlook) hq.repr.capacity
      exact mapToCache_confined { s.cache with map := m } hl r.shift hb hcheck heq
  | missed hop hcheck hm hlook hw => exact hw.confined

theorem mgStart_confined {dev : Nat} {success : Bool} (hl : Layout g w.sectorSize dev)
    (hm : m.blockPerCblockShift = g.blockPerCblockShift) (hc : c < CACHE_BLOCK_NUMBER)
    {path : Option CString} {mgType : MgType} (hd : mgType ≠ .demotion)
    (h : mgStart m w reply path index c mgType = (w', success)) : Confined w w' := by
  obtain ⟨ranges, ht, hr⟩ := mgStart_touches m w reply path index c hd
  rw [h] at ht
  refine ⟨ranges, ht, fun r hmem => ?_⟩
  rw [hr r hmem]
  exact hl.cblock_reach hm hc

theorem Rounded.confined {t' : Table Work} (h : Rounded g w reply t t' w')
    (v : Valid g.cacheBlockNum .idle t) (hn : g.cacheBlockNum ≤ CACHE_BLOCK_NUMBER) {dev : Nat}
    (hl : Layout g w.sectorSize dev) : Confined w w' := by
  have hlt : ∀ b ∈ t.listed, b < CACHE_BLOCK_NUMBER := fun b hb =>
    Nat.lt_of_lt_of_le (v.accounted.lt_of_listed hb) hn
  cases h with
  | idle => exact .refl w
  | @promoted key b rest m w' success hq hf hm hs =>
      exact mgStart_confined hl hm (hlt b (by simp [Table.listed, hf])) (by decide) hs
  | @demoted b rest m hq hf hc hn hm =>
      have hreach := hl.cblock_reach hm (show 0 < CACHE_BLOCK_NUMBER by decide)
      refine ⟨_, trimCblock_touches m w reply 0, fun r hr => ?_⟩
      split at hr
      · rw [List.mem_singleton.mp hr]
        exact hreach
      · simp at hr
  | @written b rest m w' success hq hf hn hd hm hs =>
      exact mgStart_confined hl hm (hlt b (by simp [Table.listed, hd])) (by decide) hs
  | stuck => exact .refl w

end Writes

-- One turn keeps to the cache, and so does a run.
theorem Quiet.confined_turn {a : Turn} (h : Quiet g s t) (hc : a.Chained)
    (hl : Layout g s.world.sectorSize s.cache.devBlockPerPageShift) :
    ∃ s' t', s.turn a = .ok s' ∧ Quiet g s' t' ∧ SameDevice s s' ∧ Confined s.world s'.world := by
  cases a with
  | submit pio reply =>
      obtain ⟨s', t', heq, h', hd, hsub⟩ := h.submit hc reply
      exact ⟨s', t', heq, h', hd, hsub.confined h hl⟩
  | migrate reply =>
      obtain ⟨s', t', heq, h', hd, hround⟩ := h.migrate reply
      exact ⟨s', t', heq, h', hd, hround.confined h.valid h.repr.capacity hl⟩

theorem Quiet.confined_turns {acts : List Turn} (h : Quiet g s t) (hc : ∀ a ∈ acts, a.Chained)
    (hl : Layout g s.world.sectorSize s.cache.devBlockPerPageShift) :
    ∃ s' t', s.turns acts = .ok s' ∧ Quiet g s' t' ∧ SameDevice s s' ∧
      Confined s.world s'.world ∧ ∀ tail, (s.over tail).turns acts = .ok (s'.over tail) := by
  induction acts generalizing s t with
  | nil => exact ⟨s, t, rfl, h, ⟨rfl, rfl, rfl⟩, .refl _, fun _ => rfl⟩
  | cons a rest ih =>
      obtain ⟨ha, hrest⟩ := List.forall_mem_cons.mp hc
      obtain ⟨s₁, t₁, heq, h₁, hd₁, hc₁⟩ := h.confined_turn ha hl
      have hl₁ : Layout g s₁.world.sectorSize s₁.cache.devBlockPerPageShift := by
        rw [hd₁.sector, hd₁.shift]
        exact hl
      obtain ⟨s', t', hrun, h', hd', hc', hover⟩ := ih h₁ hrest hl₁
      refine ⟨s', t', ?_, h', ⟨hd'.shift.trans hd₁.shift, hd'.sector.trans hd₁.sector,
        hd'.descriptors.trans hd₁.descriptors⟩, hc₁.trans hc', fun tail => ?_⟩
      · simp only [Session.turns, bind, Except.bind, heq, hrun]
      · simp only [Session.turns, bind, Except.bind, h.over_turn hl, heq, Except.map, hover]

-- After a successful init the cache lies in the namespace that was found. Whatever is requested
-- and however calls answer, no run writes or deallocates a block beyond the cache, and what the
-- device holds there shows neither in the run nor in what a request is answered with after it.
theorem device_confined {spdk : Spdk} {shared : SharedCache} {w : World}
    (h : initSsdCache spdk (some .zeroed) = (some shared, 0))
    (hf : ∀ ns, spdk.Offers ns → ns.Formatted) (hw : w.sectorSize = shared.dev.blockSize) :
    ∃ ns, spdk.Offers ns ∧ ns.sectorSize = w.sectorSize ∧ targetSize ≤ ns.size ∧
      ∀ acts : List Turn, (∀ a ∈ acts, a.Chained) →
        ∃ s', Session.turns ⟨shared.cache, w⟩ acts = .ok s' ∧
          (∃ ranges, s'.world.touched = w.touched ++ ranges ∧
            ∀ r ∈ ranges, (r.1 + r.2) * w.sectorSize ≤ targetSize) ∧
          (∀ i, targetSize ≤ i → s'.world.ssd i = w.ssd i) ∧
          ∀ tail, Session.turns ⟨shared.cache, w.over tail⟩ acts = .ok (s'.over tail) ∧
            ∀ reply pio, _submitPio s'.cache (s'.world.over tail) reply pio =
              (_submitPio s'.cache s'.world reply pio).map
                fun r => (r.1, r.2.1.over tail, r.2.2) := by
  obtain ⟨ns, hoffer, hsector, hsize, hbooted⟩ := initSsdCache_booted h hf hw
  refine ⟨ns, hoffer, (hw.trans hsector).symm, hsize, fun acts hc => ?_⟩
  have hquiet : Quiet (geometryOf shared.map) ⟨shared.cache, w⟩
      (Table.initial CACHE_BLOCK_NUMBER) := quiet_init hbooted.blocks hbooted.map
  obtain ⟨s', t', hrun, hq, hd, hconf, hover⟩ := hquiet.confined_turns hc hbooted.layout
  have hl : Layout (geometryOf shared.map) s'.world.sectorSize s'.cache.devBlockPerPageShift := by
    rw [hd.sector, hd.shift]
    exact hbooted.layout
  refine ⟨s', hrun, ?_, fun i hi => hconf.beyond hi, fun tail => ⟨hover tail, fun reply pio =>
    hq.over_submit hl reply pio tail⟩⟩
  obtain ⟨ranges, ht, hr⟩ := hconf
  exact ⟨ranges, ht.touched, hr⟩

-- The probe attaches a controller at another address first, and the second one has its first
-- namespace under its second id.
def bootSpdk : Spdk :=
  { env := true
    probe := some [⟨"0000:05:00.0", [some ⟨true, 4096, 2 ^ 30⟩]⟩,
      ⟨NVME_ADDR, [none, some ⟨true, 512, 2 ^ 30⟩]⟩] }

theorem bootSpdk_offers {ns : Namespace} (h : bootSpdk.Offers ns) : ns = ⟨true, 512, 2 ^ 30⟩ := by
  obtain ⟨ctrlrs, ctrlr, hp, hc, ha, hfind, -⟩ := h
  obtain rfl := Option.some.inj hp
  rcases List.mem_pair.mp hc with rfl | rfl
  · exact absurd ha (by decide)
  · simpa using hfind.symm

-- A WRITE fills a block and the worker finds nothing to do.
theorem device_confined_bootSpdk : ∃ shared s',
    initSsdCache bootSpdk (some .zeroed) = (some shared, 0) ∧
      Session.turns ⟨shared.cache, Session.boot.world⟩
        [.submit blockWrite .success, .migrate .success] = .ok s' ∧
      (∀ i, 2 ^ 30 ≤ i → s'.world.ssd i = 7) ∧
      ∀ tail, Session.turns ⟨shared.cache, Session.boot.world.over tail⟩
        [.submit blockWrite .success, .migrate .success] = .ok (s'.over tail) := by
  have htarget : initSpdk bootSpdk = some ⟨some ⟨NVME_ADDR, [none, some ⟨true, 512, 2 ^ 30⟩]⟩,
      some ⟨true, 512, 2 ^ 30⟩, true⟩ := rfl
  obtain ⟨shared, hinit, hsector⟩ := initSsdCache_found htarget rfl (by decide) (by decide)
  have hformat : ∀ ns, bootSpdk.Offers ns → ns.Formatted := by
    intro ns ho
    rw [bootSpdk_offers ho]
    exact ⟨9, by decide, by decide, rfl⟩
  obtain ⟨ns, -, -, -, hrun⟩ := device_confined hinit hformat (w := Session.boot.world) hsector.symm
  obtain ⟨s', hturns, -, hbeyond, hover⟩ :=
    hrun [.submit blockWrite .success, .migrate .success]
      (by simp [Turn.Chained, blockWrite, pageRequest])
  exact ⟨shared, s', hinit, hturns, hbeyond, fun tail => (hover tail).1⟩

end UserPageCache.SsdCache
