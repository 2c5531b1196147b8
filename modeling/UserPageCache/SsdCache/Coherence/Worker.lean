import UserPageCache.SsdCache.Coherence.Theorems

namespace UserPageCache.SsdCache.Coherent

open Bytes

variable {g : Geometry} {keys : Work → Prop} {cache : Cache} {m : Mapping} {w w' : World}
  {stage : Stage} {t t' : Table Work} {spec : Contents} {key : Work} {b : Nat}

theorem shift (h : Coherent g keys cache w worker stage t spec) :
    cache.map.blockPerCblockShift = g.blockPerCblockShift := h.repr.shift

-- A worker that has nothing in flight may move on.
theorem advance {worker worker' : Worker Work} (h : Coherent g keys cache w worker stage t spec)
    (hw : worker.inFlight = none) (hw' : worker'.inFlight = none)
    (v : Valid g.cacheBlockNum worker' t) : Coherent g keys cache w worker' stage t spec :=
  h.relist h.repr v (.inr ⟨hw, hw'⟩) rfl rfl h.queued

theorem peek (h : Coherent g keys cache w .idle stage t spec)
    (hq : peakWork cache.map.wq = some key) :
    Coherent g keys cache w (.peeked key) stage t spec :=
  h.advance rfl rfl (h.valid.peek (by rwa [← h.repr.queue.peakWork]))

theorem dequeue (h : Coherent g keys cache w (.finished key) stage t spec) :
    Coherent g keys { cache with map := { cache.map with wq := (removeWork cache.map.wq).1 } } w
      .idle stage t.dequeue spec :=
  h.relist h.repr.removeWork h.valid.dequeue (.inr ⟨rfl, rfl⟩) rfl rfl fun key hq =>
    h.queued key (List.mem_of_mem_tail hq)

-- The hashed blocks stay, with their keys and dirty flags, and nothing has been read yet
-- for what is in flight now.
theorem settle {worker worker' : Worker Work} (h : Coherent g keys cache w worker stage t spec)
    (r : Repr g m t') (v : Valid g.cacheBlockNum worker' t') (hqueue : t'.queue = t.queue)
    (hhash : t'.hashed = t.hashed) (hflags : ∀ i ∈ t.hashed,
      (t'.slot i).key = (t.slot i).key ∧ (t'.slot i).dirty = (t.slot i).dirty)
    (hfrom : ∀ key b, worker ≠ .demoting key b ∧ (worker = .writing key b → stage = .stored))
    (hto : ∀ key b, worker' ≠ .writing key b ∧
      (worker' = .demoting key b → (t'.slot b).dirty = false)) :
    Coherent g keys { cache with map := m } w worker' .begun t' spec := by
  refine ⟨r, v, h.layout, h.addressable, hqueue ▸ h.queued, fun i hi => ?_, fun i hi _ => ?_,
    fun k hk hclean => ?_, by simp, fun k b hw => (hto k b).2 hw,
    fun k b hw => absurd hw (hto k b).1⟩
  · rw [hhash] at hi
    rw [(hflags i hi).1]
    exact h.known i hi
  · rw [hhash] at hi
    rw [(hflags i hi).1]
    exact h.cached i hi fun k => (hfrom k i).1
  · refine h.origin k hk fun i hi hki => ⟨?_, fun work hw => (hfrom work i).2 hw⟩
    have hclean := hclean i (by rwa [hhash])
    rw [(hflags i hi).1, (hflags i hi).2] at hclean
    exact (hclean hki).1

section Promotion

theorem promotion_start (h : Coherent g keys cache w (.peeked key) stage t spec) :
    (promotionFreeToClean cache.map key.fullPathName key.cachePageIndex = .ok none ∧
        Coherent g keys cache w (.full key) stage t spec) ∨
      ∃ m b t', promotionFreeToClean cache.map key.fullPathName key.cachePageIndex =
          .ok (some (m, b)) ∧
        Coherent g keys { cache with map := m } w (.promoting key b) .begun t' spec := by
  cases hf : t.free with
  | nil => exact .inl ⟨h.repr.promotionFreeToClean_none hf key,
      h.advance rfl rfl (h.valid.worker rfl rfl rfl rfl rfl)⟩
  | cons b rest =>
      obtain ⟨m, heq, r⟩ := h.repr.promotionFreeToClean h.valid hf key
      have hslot : ∀ i ∈ t.hashed, (t.promotionStart key).slot i = t.slot i := fun i hi => by
        have hib : i ≠ b := fun hib =>
          h.valid.free_notMem_hashed (b := b) (by simp [hf]) (hib ▸ hi)
        rw [Table.promotionStart, Table.allocate_slot hf, Function.update_of_ne hib]
      exact .inr ⟨m, b, _, heq, h.settle r (h.valid.promotionStart hf) (Table.allocate_queue _ _)
        (Table.allocate_hashed _ _) (fun i hi => by simp [hslot i hi]) (by simp) (by simp)⟩

theorem promotion_key (h : Coherent g keys cache w (.promoting key b) stage t spec) : keys key :=
  h.queued key (List.mem_of_mem_head? (h.valid.current key rfl))

theorem promotion_load (h : Coherent g keys cache w (.promoting key b) .begun t spec) :
    (∃ w', loadFile w .success key.fullPathName key.cachePageIndex = some w' ∧
        Coherent g keys cache w' (.promoting key b) .loaded t spec ∧ Keeps w w') ∨
      w.files key.fullPathName = none ∧
        loadFile w .success key.fullPathName key.cachePageIndex = none ∧
        Coherent g keys cache w (.promoting key b) .failed t spec := by
  have habs : t.Absent key := h.valid.absent_of_current rfl rfl
  have hk := h.promotion_key
  have hkept : spec.Kept key w := h.origin key hk fun i hi hki => absurd hki (habs i hi)
  cases hf : w.files key.fullPathName with
  | none =>
      refine .inr ⟨rfl, loadFile_none hf, ⟨h.repr, h.valid, h.layout, h.addressable, h.queued,
        h.known, h.cached, fun k hk' hclean => ?_, by simp, by simp, by simp⟩⟩
      exact h.origin k hk' fun i hi hki => ⟨(hclean i hi hki).1, by simp⟩
  | some file =>
      obtain ⟨buf, heq, hbuf⟩ := loadFile_some (h.addressable key hk) hf
      refine .inl ⟨{ w with dmaBuf := buf }, heq, ⟨h.repr, h.valid, h.layout, h.addressable,
        h.queued, h.known, h.cached, fun k hk' hclean => ?_, fun k i hw => ⟨fun _ j hj page hp => ?_,
        by simp⟩, by simp, by simp⟩, keeps_of_files rfl rfl rfl⟩
      · exact h.origin k hk' fun i hi hki => ⟨(hclean i hi hki).1, by simp⟩
      · simp only [Worker.promoting.injEq] at hw
        rw [← hw.1] at hp
        exact hbuf j hj page (hkept j hj page hp)

theorem promotion_store (h : Coherent g keys cache w (.promoting key b) .loaded t spec) :
    ∃ w', storeCblock cache.map w .success b = (w', 0) ∧
      Coherent g keys cache w' (.promoting key b) .stored t spec ∧ Keeps w w' := by
  have hlt : b < g.cacheBlockNum := h.valid.lt_of_inFlight rfl
  have hnot : b ∉ t.hashed := by simp [h.valid.hashed, Worker.arriving]
  have hpages : ∀ i, ∀ j < 8, ssdPage (writeSsd w (cblockStart cache.map b)
      (2 ^ cache.map.blockPerCblockShift) w.dmaBuf) i j =
        if i = b then chunk PAGE_SIZE w.dmaBuf j else ssdPage w i j := fun i j hj =>
    ssdPage_block h.layout h.shift (Nat.lt_of_lt_of_le hlt h.repr.capacity) hj _ i
  refine ⟨_, rfl, ⟨h.repr, h.valid, h.layout, h.addressable, h.queued, h.known,
    fun i hi hd j hj => ?_, fun k hk hclean => ?_, fun k i hw => ⟨by simp, fun _ j hj => ?_⟩,
    by simp, by simp⟩, keeps_of_files rfl rfl rfl⟩
  · rw [hpages i j hj, if_neg fun hib : i = b => hnot (hib ▸ hi)]
    exact h.cached i hi hd j hj
  · exact h.origin k hk fun i hi hki => ⟨(hclean i hi hki).1, by simp⟩
  · simp only [Worker.promoting.injEq] at hw
    obtain ⟨rfl, rfl⟩ := hw
    rw [hpages b j hj, if_pos rfl]
    exact (h.promoting key b rfl).1 rfl j hj

theorem promotion_complete (h : Coherent g keys cache w (.promoting key b) .stored t spec) :
    ∃ m t', promotionComplete cache.map b true = .ok m ∧
      Coherent g keys { cache with map := m } w (.finished key) .begun t' spec := by
  obtain ⟨m, heq, r⟩ := h.repr.promotionComplete h.valid true
  have hkey : (t.slot b).key = key := h.valid.arriving key b rfl
  have hhash : (t.promotionComplete b true).hashed = insert b t.hashed := by
    simp [Table.promotionComplete]
  have hslot : (t.promotionComplete b true).slot =
      Function.update t.slot b { t.slot b with pending := false } := by
    simp [Table.promotionComplete]
  have hkeys : ∀ i, ((t.promotionComplete b true).slot i).key = (t.slot i).key ∧
      ((t.promotionComplete b true).slot i).dirty = (t.slot i).dirty := fun i => by
    by_cases hib : i = b <;> simp [hslot, hib]
  refine ⟨m, _, heq, ⟨r, h.valid.promotionComplete true, h.layout, h.addressable, fun k hq => ?_,
    fun i hi => ?_, fun i hi _ => ?_, fun k hk hclean => ?_, by simp, by simp, by simp⟩⟩
  · have hqueue : (t.promotionComplete b true).queue = t.queue := by
      simp [Table.promotionComplete]
    rw [hqueue] at hq
    exact h.queued k hq
  · rw [(hkeys i).1]
    rcases Finset.mem_insert.mp (hhash ▸ hi) with rfl | hi
    · rw [hkey]
      exact h.promotion_key
    · exact h.known i hi
  · rw [(hkeys i).1]
    rcases Finset.mem_insert.mp (hhash ▸ hi) with rfl | hi
    · rw [hkey]
      exact (h.promoting key i rfl).2 rfl
    · exact h.cached i hi (by simp)
  · refine h.origin k hk fun i hi hki => ⟨?_, by simp⟩
    have hclean := hclean i (by simp [hhash, hi])
    rw [(hkeys i).1, (hkeys i).2] at hclean
    exact (hclean hki).1

theorem promotion_abandon (h : Coherent g keys cache w (.promoting key b) stage t spec) :
    ∃ m t', promotionComplete cache.map b false = .ok m ∧
      Coherent g keys { cache with map := m } w (.finished key) .begun t' spec := by
  obtain ⟨m, heq, r⟩ := h.repr.promotionComplete h.valid false
  have hnot : b ∉ t.hashed := by simp [h.valid.hashed, Worker.arriving]
  have hslot : ∀ i ∈ t.hashed, (t.promotionComplete b false).slot i = t.slot i := fun i hi => by
    have hib : i ≠ b := fun hib => hnot (hib ▸ hi)
    simp [Table.promotionComplete, hib]
  exact ⟨m, _, heq, h.settle r (h.valid.promotionComplete false) (by simp [Table.promotionComplete])
    (by simp [Table.promotionComplete]) (fun i hi => by simp [hslot i hi]) (by simp) (by simp)⟩

end Promotion

section Demotion

theorem demotion_start (h : Coherent g keys cache w (.full key) stage t spec) :
    (demotionCleanToFree cache.map = .ok none ∧
        Coherent g keys cache w (.unevictable key) stage t spec) ∨
      ∃ m b t', demotionCleanToFree cache.map = .ok (some (m, b)) ∧
        Coherent g keys { cache with map := m } w (.demoting key b) .begun t' spec ∧
        spec.Met (t'.slot b).key (ssdPage w b) := by
  by_cases hn : t.clean.length ≤ g.cacheBlockNum / 2
  · exact .inl ⟨h.repr.demotionCleanToFree_none hn,
      h.advance rfl rfl (h.valid.worker rfl rfl rfl rfl rfl)⟩
  · cases hc : t.clean with
    | nil => simp [hc] at hn
    | cons b rest =>
        obtain ⟨m, heq, r⟩ := h.repr.demotionCleanToFree hc hn
        have hflags : ∀ i, ((t.demotionStart b).slot i).key = (t.slot i).key ∧
            ((t.demotionStart b).slot i).dirty = (t.slot i).dirty := fun i => by
          by_cases hib : i = b <;> simp [Table.demotionStart, hib]
        have h' : Coherent g keys { cache with map := m } w (.demoting key b) .begun
            (t.demotionStart b) spec := by
          refine h.settle r (h.valid.demotionStart hc) rfl rfl (fun i _ => hflags i) (by simp)
            fun k i => ⟨by simp, fun hw => ?_⟩
          simp only [Worker.demoting.injEq] at hw
          rw [(hflags i).2, ← hw.2]
          exact (h.valid.resident_clean hc).2
        have hmet := h.cached b (h'.moving_hashed rfl) (by simp)
        exact .inr ⟨m, b, _, heq, h', (hflags b).1 ▸ hmet⟩

-- A block on its way out that still holds what is promised may as well be staying.
theorem hold (h : Coherent g keys cache w (.demoting key b) stage t spec)
    (hmet : spec.Met (t.slot b).key (ssdPage w b)) :
    Coherent g keys cache w (.writing key b) .stored t spec := by
  refine ⟨h.repr, h.valid.worker rfl rfl rfl rfl rfl, h.layout, h.addressable, h.queued, h.known,
    fun i hi _ => ?_, fun k hk hclean => ?_, by simp, by simp, by simp⟩
  · by_cases hib : i = b
    · exact hib ▸ hmet
    · refine h.cached i hi fun k hw => hib ?_
      simp only [Worker.demoting.injEq] at hw
      exact hw.2.symm
  · exact h.origin k hk fun i hi hki => ⟨(hclean i hi hki).1, by simp⟩

-- The deallocated range is that of block 0, whichever block is being demoted.
theorem trimCblock_pages {dev i j : Nat} {reply : Replies} (hl : Layout g w.sectorSize dev)
    (hm : m.blockPerCblockShift = g.blockPerCblockShift) (hr : reply.deallocated = none ∨ i ≠ 0)
    (hj : j < 8) : ssdPage (trimCblock m w reply 0) i j = ssdPage w i j := by
  unfold trimCblock trimSpdk
  split
  · rename_i data _ hdata
    have hpos : i ≠ 0 := hr.resolve_left (by simp [hdata])
    have hblock := ssdPage_block hl hm (c := 0) (by decide) hj data i
    rwa [if_neg hpos] at hblock
  · rfl
  · rfl

theorem trimCblock_keeps (m : Mapping) (w : World) (reply : Replies) :
    Keeps w (trimCblock m w reply 0) ∧ (trimCblock m w reply 0).files = w.files := by
  unfold trimCblock trimSpdk
  split
  · exact ⟨keeps_of_files rfl rfl rfl, rfl⟩
  · exact ⟨keeps_of_files rfl rfl rfl, rfl⟩
  · exact ⟨.refl w, rfl⟩

theorem demotion_trim {reply : Replies}
    (h : Coherent g keys cache w (.demoting key b) stage t spec)
    (hr : reply.deallocated = none ∨ 0 ∉ t.hashed ∨ b = 0) :
    Coherent g keys cache (trimCblock cache.map w reply 0) (.demoting key b) .stored t spec ∧
      Keeps w (trimCblock cache.map w reply 0) := by
  obtain ⟨hkeeps, hfiles⟩ := trimCblock_keeps cache.map w reply
  refine ⟨⟨h.repr, h.valid, hkeeps.sector ▸ h.layout, h.addressable, h.queued, h.known,
    fun i hi hd j hj => ?_, fun k hk hclean => ?_, by simp, h.evicting, by simp⟩, hkeeps⟩
  · have hpos : reply.deallocated = none ∨ i ≠ 0 := hr.imp_right fun hz hi0 => by
      subst hi0
      rcases hz with hz | hz
      · exact hz hi
      · exact hd key (by rw [hz])
    rw [trimCblock_pages h.layout h.shift hpos hj]
    exact h.cached i hi hd j hj
  · have hkept := h.origin k hk fun i hi hki => ⟨(hclean i hi hki).1, by simp⟩
    unfold Contents.Kept at hkept ⊢
    rwa [fileContents_files hfiles]

theorem demotion_complete (h : Coherent g keys cache w (.demoting key b) stage t spec) :
    ∃ m t', demotionComplete cache.map b true = .ok m ∧
      Coherent g keys { cache with map := m } w (.finished key) .begun t' spec := by
  obtain ⟨m, heq, r⟩ := h.repr.demotionComplete h.valid true
  have hhash : (t.demotionComplete b true).hashed = t.hashed.erase b := by
    simp [Table.demotionComplete]
  have hslot : ∀ i, i ≠ b → (t.demotionComplete b true).slot i = t.slot i := fun i hi => by
    simp [Table.demotionComplete, hi]
  have hold : ∀ i ∈ (t.demotionComplete b true).hashed, i ≠ b ∧ i ∈ t.hashed := fun i hi =>
    Finset.mem_erase.mp (hhash ▸ hi)
  refine ⟨m, _, heq, ⟨r, h.valid.demotionComplete true, h.layout, h.addressable, fun k hq => ?_,
    fun i hi => ?_, fun i hi _ => ?_, fun k hk hclean => ?_, by simp, by simp, by simp⟩⟩
  · have hqueue : (t.demotionComplete b true).queue = t.queue := by simp [Table.demotionComplete]
    rw [hqueue] at hq
    exact h.queued k hq
  · rw [hslot i (hold i hi).1]
    exact h.known i (hold i hi).2
  · rw [hslot i (hold i hi).1]
    refine h.cached i (hold i hi).2 fun k hw => ?_
    simp only [Worker.demoting.injEq] at hw
    exact (hold i hi).1 hw.2.symm
  · refine h.origin k hk fun i hi hki => ⟨?_, by simp⟩
    by_cases hib : i = b
    · exact hib ▸ h.evicting key b rfl
    · have hclean := hclean i (by simp [hhash, hi, hib])
      rw [hslot i hib] at hclean
      exact (hclean hki).1

end Demotion

section Writeback

theorem writeback_start (h : Coherent g keys cache w (.unevictable key) stage t spec) :
    (writebackDirtyToClean cache.map = .ok none ∧
        Coherent g keys cache w (.finished key) stage t spec) ∨
      ∃ m b t', writebackDirtyToClean cache.map = .ok (some (m, b)) ∧
        Coherent g keys { cache with map := m } w (.writing key b) .begun t' spec := by
  cases hd : t.dirty with
  | nil => exact .inl ⟨h.repr.writebackDirtyToClean_none hd, h.advance rfl rfl h.valid.giveUp⟩
  | cons b rest =>
      obtain ⟨m, heq, r⟩ := h.repr.writebackDirtyToClean h.valid rfl hd
      have hkeys : ∀ i, ((t.writebackStart b).slot i).key = (t.slot i).key := fun i => by
        by_cases hib : i = b <;> simp [Table.writebackStart, hib]
      have hslot : ∀ i, i ≠ b → (t.writebackStart b).slot i = t.slot i := fun i hi => by
        simp [Table.writebackStart, hi]
      refine .inr ⟨m, b, t.writebackStart b, heq, ⟨r, h.valid.writebackStart hd, h.layout,
        h.addressable, h.queued, fun i hi => ?_, fun i hi _ => ?_, fun k hk hclean => ?_, by simp,
        by simp, by simp⟩⟩
      · rw [hkeys i]
        exact h.known i hi
      · rw [hkeys i]
        exact h.cached i hi (by simp)
      · refine h.origin k hk fun i hi hki => ⟨?_, by simp⟩
        have hclean := hclean i hi (by rwa [hkeys i])
        have hib : i ≠ b := by
          rintro rfl
          have hs := hclean.2 key rfl
          cases hs
        rw [hslot i hib] at hclean
        exact hclean.1

theorem writeback_load (h : Coherent g keys cache w (.writing key b) .begun t spec) :
    ∃ w', loadCblock cache.map w .success b = (w', 0) ∧
      Coherent g keys cache w' (.writing key b) .loaded t spec ∧ Keeps w w' := by
  have hlt : b < g.cacheBlockNum := h.valid.lt_of_inFlight rfl
  obtain ⟨buf, heq, hbuf⟩ :=
    loadCblock_success h.layout h.shift (Nat.lt_of_lt_of_le hlt h.repr.capacity)
  refine ⟨{ w with dmaBuf := buf }, heq, ⟨h.repr, h.valid, h.layout, h.addressable, h.queued,
    h.known, h.cached, fun k hk hclean => ?_, by simp, by simp, fun k i hw _ _ j hj => ?_⟩,
    keeps_of_files rfl rfl rfl⟩
  · refine h.origin k hk fun i hi hki => ⟨(hclean i hi hki).1, fun work hw => ?_⟩
    have hs := (hclean i hi hki).2 work hw
    cases hs
  · simp only [Worker.writing.injEq] at hw
    obtain ⟨rfl, rfl⟩ := hw
    rw [hbuf j hj]
    exact h.cached b (h.moving_hashed rfl) (by simp) j hj

theorem writeback_store {file : File}
    (h : Coherent g keys cache w (.writing key b) .loaded t spec)
    (hf : w.files (cache.map.es b).fullPathName = some file) :
    ∃ w', storeFile w .success (cache.map.es b).fullPathName (cache.map.es b).cachePageIndex =
        some w' ∧
      Coherent g keys cache w' (.writing key b) .stored t spec ∧ Keeps w w' := by
  have hb := h.moving_hashed rfl
  have hkey : (t.slot b).key = keyOf (cache.map.es b) := by
    rw [h.repr.slot_eq]
    rfl
  have haddr := h.addressable _ (h.known b hb)
  rw [hkey] at haddr
  obtain ⟨w', heq, hnew, hold, hw', hkeeps⟩ := storeFile_some haddr hf
  have hssd : ssdPage w' = ssdPage w := by rw [hw']; rfl
  refine ⟨w', heq, ⟨h.repr, h.valid, hkeeps.sector ▸ h.layout, h.addressable, h.queued, h.known,
    fun i hi hd => ?_, fun k hk hclean j hj page hp => ?_, by simp, by simp, by simp⟩, hkeeps⟩
  · rw [hssd]
    exact h.cached i hi hd
  · by_cases hkk : k = keyOf (cache.map.es b)
    · subst k
      have hmet := h.writing key b rfl rfl (hclean b hb hkey).1 j hj page
      rw [hkey] at hmet
      rw [hnew j hj, hmet hp]
    · refine hold k hkk j hj page ?_
      refine h.origin k hk (fun i hi hki => ⟨(hclean i hi hki).1, fun work hw => ?_⟩) j hj page hp
      simp only [Worker.writing.injEq] at hw
      exact absurd (by rw [← hki, ← hw.2, hkey]) hkk

theorem writeback_complete (h : Coherent g keys cache w (.writing key b) .stored t spec) :
    ∃ m t', writebackComplete cache.map b true = .ok m ∧
      Coherent g keys { cache with map := m } w (.finished key) .begun t' spec := by
  obtain ⟨m, heq, r⟩ := h.repr.writebackComplete h.valid true
  have hflags : ∀ i, ((t.writebackComplete b true).slot i).key = (t.slot i).key ∧
      ((t.writebackComplete b true).slot i).dirty = (t.slot i).dirty := fun i => by
    by_cases hib : i = b <;> simp [Table.writebackComplete, hib]
  exact ⟨m, _, heq, h.settle r (h.valid.writebackComplete true) (by simp [Table.writebackComplete])
    (by simp [Table.writebackComplete]) (fun i _ => hflags i) (by simp) (by simp)⟩

end Writeback

end UserPageCache.SsdCache.Coherent
