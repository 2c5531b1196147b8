import UserPageCache.SsdCache.Mapping.Refinement

namespace UserPageCache.SsdCache

variable {g : Geometry} {m : Mapping} {t : Table Work} {w : Worker Work} {b : Nat} {key : Work}

-- Every field that no result depends on.
theorem Repr.counters (r : Repr g m t) (hits misses promotions demotions writebacks : Nat) :
    Repr g { m with
      hitTime := hits
      missTime := misses
      promotionTime := promotions
      demotionTime := demotions
      writebackTime := writebacks } t :=
  ⟨r.geometry, r.capacity, r.begin, r.free, r.clean, r.dirty, r.apart, r.bound, r.slot, r.hash,
    r.queue, r.allocated⟩

-- The block that a lookup of the key would return.
def Mapping.found (m : Mapping) (key : Work) : Option Nat :=
  (find m key.fullPathName key.cachePageIndex).toOption.bind Prod.snd

theorem Repr.found_hashed (r : Repr g m t) (hf : m.found key = some b) :
    b ∈ t.hashed ∧ (t.slot b).key = key := by
  obtain ⟨m', e, heq, -, hsome, -⟩ := r.find key.fullPathName key.cachePageIndex
  simp only [Mapping.found, heq, Except.toOption, Option.bind_some] at hf
  exact hsome b hf

theorem Repr.found_of_hashed {n : Nat} (r : Repr g m t) (h : Valid n w t) (hb : b ∈ t.hashed)
    (hk : (t.slot b).key = key) : m.found key = some b := by
  obtain ⟨m', e, heq, -, hsome, hnone⟩ := r.find key.fullPathName key.cachePageIndex
  simp only [Mapping.found, heq, Except.toOption, Option.bind_some]
  cases e with
  | none => exact absurd hk (hnone rfl b hb)
  | some e =>
      obtain ⟨he, hke⟩ := hsome e rfl
      rw [h.unique e he b hb (hke.trans hk.symm)]

section Clients

theorem Repr.moveToTail (r : Repr g m t) (h : Valid g.cacheBlockNum w t) (hb : t.Resident b) :
    Repr g (SsdCache.addTailByFlag (SsdCache.delByFlag m b) b) ((t.del b).addTail b) := by
  have hdel := h.accounted.del hb
  exact (r.delByFlag hb).addTailByFlag (hdel.notMem_listed List.mem_cons_self)
    (hdel.lt_of_off List.mem_cons_self)

theorem Repr.lookupHit (r : Repr g m t) (h : Valid g.cacheBlockNum w t) (hb : b ∈ t.hashed) :
    Repr g (lookupHit m b) (t.hit b) := by
  have hr := r.counters (inc m.hitTime) m.missTime m.promotionTime m.demotionTime m.writebackTime
  have hlt := h.lt_of_hashed hb
  unfold SsdCache.lookupHit Table.hit
  simp only [r.getPending, r.getDirty]
  split
  · rename_i hflags
    simp only [Bool.and_eq_true, Bool.not_eq_true'] at hflags
    have hw : w.inFlight ≠ some b := by simp [← h.pending b hlt, hflags.1]
    exact hr.moveToTail h (h.resident hlt hw (h.alloc_of_hashed hb))
  · exact hr

theorem Repr.lookupMiss (r : Repr g m t) : Repr g (lookupMiss m) t :=
  r.counters _ _ _ _ _

theorem Repr.enqueue (r : Repr g m t) (key : Work) :
    ∃ m', enqueue m key.fullPathName key.cachePageIndex = .ok m' ∧
      Repr g m' (t.enqueue (MAX_WORKQUEUE_SIZE - 1) key) := by
  obtain ⟨wq, heq, hq⟩ := r.queue.insertWork key
  refine ⟨{ m with wq := wq }, by
    simp only [SsdCache.enqueue, heq, bind, Except.bind, pure, Except.pure], ?_⟩
  have hr : ∀ queue, IsQueue wq queue → Repr g { m with wq := wq } { t with queue := queue } :=
    fun queue hq => ⟨r.geometry, r.capacity, r.begin, r.free, r.clean, r.dirty, r.apart, r.bound,
      r.slot, r.hash, hq, r.allocated⟩
  unfold Table.enqueue
  split
  · rename_i hc
    exact hr _ (by rwa [if_pos hc] at hq)
  · rename_i hc
    exact hr _ (by rwa [if_neg hc] at hq)

theorem Repr.removeWork (r : Repr g m t) :
    Repr g { m with wq := (removeWork m.wq).1 } t.dequeue :=
  ⟨r.geometry, r.capacity, r.begin, r.free, r.clean, r.dirty, r.apart, r.bound, r.slot, r.hash,
    r.queue.removeWork.1, r.allocated⟩

theorem Repr.insertDirty {rest : List Nat} (r : Repr g m t) (h : Valid g.cacheBlockNum w t)
    (hf : t.free = b :: rest) (key : Work) :
    ∃ m', insertDirty m key.fullPathName key.cachePageIndex = .ok (m', some b) ∧
      Repr g m' (t.insertDirty key b) := by
  have hbf : b ∈ t.free := by simp [hf]
  have hlt : b < g.cacheBlockNum := h.accounted.lt_of_listed (by simp [Table.listed, hbf])
  have hnot := h.free_notMem_hashed hbf
  obtain ⟨ea, es, x, heq, hx, hslot, hr⟩ := r.allocate hf hnot
  have hacc : (t.allocate ⟨key, false, true, true⟩).Accounted g.cacheBlockNum (b :: _) :=
    h.accounted.allocate hf rfl
  let entry := { entrySetDirty x true with
    fullPathName := key.fullPathName, cachePageIndex := key.cachePageIndex }
  have hentry : slotOf entry = ⟨key, false, true, true⟩ := by
    simp only [slotOf, Slot.mk.injEq] at hslot
    have hp : entryGetPending (entrySetDirty x true) = false := by simp [hslot]
    have hd : entryGetDirty (entrySetDirty x true) = true := by simp
    have ha : entryGetAlloc (entrySetDirty x true) = true := by simp [hslot]
    exact Slot.mk.injEq .. ▸ ⟨rfl, hp, hd, ha⟩
  have hr := hr entry
  rw [hentry] at hr
  have hin := hr.hashIn (by simpa using hnot) hlt
  have hadd := hin.addTailByFlag (hacc.notMem_listed List.mem_cons_self) hlt
  refine ⟨_, ?_, hadd⟩
  unfold SsdCache.insertDirty
  simp only [heq, hx]
  rw [hr.inferCblock_eq hlt]

-- What a lookup finds, and what it makes of the table; only one with insert gives a block
-- to a key that has none.
inductive Looked (insert : Bool) (t : Table Work) (key : Work) : Option Nat → Table Work → Prop
  | hit {b : Nat} (hb : b ∈ t.hashed) (hk : (t.slot b).key = key) :
      Looked insert t key (some b) (t.hit b)
  | queued (ha : t.Absent key) : Looked insert t key none t
  | enqueued (ha : t.Absent key) :
      Looked insert t key none (t.enqueue (MAX_WORKQUEUE_SIZE - 1) key)
  | inserted {b : Nat} {rest : List Nat} (hi : insert = true) (hf : t.free = b :: rest)
      (ha : t.Absent key) (hq : key ∉ t.queue) :
      Looked insert t key (some b) (t.insertDirty key b)

theorem Valid.looked {n : Nat} {insert : Bool} {c : Option Nat} {t' : Table Work}
    (h : Valid n w t) (hl : Looked insert t key c t') : Valid n w t' := by
  cases hl with
  | hit hb hk => exact h.hit hb
  | queued ha => exact h
  | enqueued ha => exact h.enqueue _ ha
  | inserted hi hf ha hq => exact h.insertDirty hf ha hq

theorem Repr.lookupMapping (r : Repr g m t) (h : Valid g.cacheBlockNum w t) (insert : Bool)
    (fullPathName : CString) (pageIndex : Nat) :
    ∃ m' c t', lookupMapping m fullPathName pageIndex = .ok (m', c) ∧ Repr g m' t' ∧
      Looked insert t ⟨fullPathName, toCachePageIndex pageIndex⟩ c t' := by
  obtain ⟨m₁, e, heq, r₁, hsome, hnone⟩ := r.find fullPathName (toCachePageIndex pageIndex)
  unfold SsdCache.lookupMapping
  simp only [heq, bind, Except.bind, pure, Except.pure]
  cases e with
  | some e =>
      obtain ⟨hb, hkey⟩ := hsome e rfl
      have hindex := r₁.inferCblock_eq (h.lt_of_hashed hb)
      exact ⟨SsdCache.lookupHit m₁ e, some e, t.hit e, by simp only [hindex], r₁.lookupHit h hb,
        .hit hb hkey⟩
  | none =>
      obtain ⟨m', heq', r'⟩ := r₁.lookupMiss.enqueue ⟨fullPathName, toCachePageIndex pageIndex⟩
      simp only [heq']
      exact ⟨_, _, _, rfl, r', .enqueued (hnone rfl)⟩

theorem Repr.lookupMappingWithInsert (r : Repr g m t) (h : Valid g.cacheBlockNum w t)
    (fullPathName : CString) (pageIndex : Nat) :
    ∃ m' c t', lookupMappingWithInsert m fullPathName pageIndex = .ok (m', c) ∧ Repr g m' t' ∧
      Looked true t ⟨fullPathName, toCachePageIndex pageIndex⟩ c t' := by
  obtain ⟨m₁, e, heq, r₁, hsome, hnone⟩ := r.find fullPathName (toCachePageIndex pageIndex)
  unfold SsdCache.lookupMappingWithInsert
  simp only [heq, bind, Except.bind, pure, Except.pure]
  cases e with
  | some e =>
      obtain ⟨hb, hkey⟩ := hsome e rfl
      have hindex := r₁.inferCblock_eq (h.lt_of_hashed hb)
      exact ⟨SsdCache.lookupHit m₁ e, some e, t.hit e, by simp only [hindex], r₁.lookupHit h hb,
        .hit hb hkey⟩
  | none =>
      have habs := hnone rfl
      have rmiss := r₁.lookupMiss
      simp only [rmiss.queue.containsWork]
      split
      · exact ⟨_, _, _, rfl, rmiss, .queued habs⟩
      · rename_i hnot
        have hq : ⟨fullPathName, toCachePageIndex pageIndex⟩ ∉ t.queue :=
          fun hq => hnot (any_prefix_of_mem hq)
        cases hf : t.free with
        | nil =>
            obtain ⟨m', heq', r'⟩ := rmiss.enqueue ⟨fullPathName, toCachePageIndex pageIndex⟩
            rw [if_pos (rmiss.allocatorEmpty_iff.mpr hf)]
            simp only [heq']
            exact ⟨_, _, _, rfl, r', .enqueued habs⟩
        | cons b rest =>
            obtain ⟨m', heq', r'⟩ :=
              rmiss.insertDirty h hf ⟨fullPathName, toCachePageIndex pageIndex⟩
            rw [if_neg (by simp [rmiss.allocatorEmpty_iff, hf])]
            exact ⟨_, _, _, heq', r', .inserted rfl hf habs hq⟩

theorem Repr.removeHit (r : Repr g m t) (h : Valid g.cacheBlockNum w t) (hb : b ∈ t.hashed)
    (hw : w.moving ≠ some b) :
    ∃ m', SsdCache.hashOut (SsdCache.delByFlag m b) b = .ok m' ∧
      Repr g (SsdCache.release m' b) (t.remove b) := by
  have hlt := h.lt_of_hashed hb
  have hfly : w.inFlight ≠ some b := by
    have hna := ((h.hashed b).mp hb).2.2
    cases w <;> simp_all [Worker.arriving, Worker.inFlight, Worker.moving]
  have hres := h.resident hlt hfly (h.alloc_of_hashed hb)
  obtain ⟨m', heq, hr⟩ := (r.delByFlag hres).hashOut (by simpa using hb)
    (fun i hi hk => h.unique i (by simpa using hi) b hb (by simpa using hk))
  exact ⟨m', heq, hr.release ((h.accounted.del hres).hashOut.notMem_listed List.mem_cons_self) hlt⟩

theorem Repr.removeMapping (r : Repr g m t) (h : Valid g.cacheBlockNum w t) (hw : w.moving = none)
    (fullPathName : CString) (pageIndex : Nat) :
    ∃ m' found t', removeMapping m fullPathName pageIndex = .ok (m', found) ∧ Repr g m' t' ∧
      (t' = t ∨ ∃ b ∈ t.hashed, (t.slot b).key = ⟨fullPathName, toCachePageIndex pageIndex⟩ ∧
        t' = t.remove b) := by
  obtain ⟨m₁, e, heq, r₁, hsome, hnone⟩ := r.find fullPathName (toCachePageIndex pageIndex)
  unfold SsdCache.removeMapping
  simp only [heq, bind, Except.bind, pure, Except.pure]
  cases e with
  | some e =>
      obtain ⟨hb, hkey⟩ := hsome e rfl
      obtain ⟨m', heq', r'⟩ := r₁.removeHit h hb (by simp [hw])
      simp only [heq']
      exact ⟨_, _, _, rfl, r', .inr ⟨e, hb, hkey, rfl⟩⟩
  | none => exact ⟨_, _, _, rfl, r₁, .inl rfl⟩

theorem Repr.setDirtyAfterWrite (r : Repr g m t) (h : Valid g.cacheBlockNum w t)
    (hlt : b < g.cacheBlockNum) (dirty : Bool) :
    Repr g (setDirtyAfterWrite m b dirty) (t.markDirty b) := by
  unfold SsdCache.setDirtyAfterWrite Table.markDirty
  simp only [r.toEntry_eq hlt, r.getAlloc, r.getPending]
  by_cases ha : (t.slot b).alloc = true
  swap
  · simpa [ha] using r
  cases hp : (t.slot b).pending with
  | true => simpa [ha, hp] using r.setDirty b true
  | false =>
      have hw : w.inFlight ≠ some b := by simp [← h.pending b hlt, hp]
      have hres := h.resident hlt hw ha
      have hacc := (h.accounted.del hres).setDirty List.mem_cons_self true
      have hr := (r.delByFlag hres).setDirty b true
      simpa [ha, hp] using hr.addTailByFlag (hacc.notMem_listed List.mem_cons_self) hlt

end Clients

section Migration

theorem Repr.promotionFreeToClean_none (r : Repr g m t) (hf : t.free = []) (key : Work) :
    promotionFreeToClean m key.fullPathName key.cachePageIndex = .ok none := by
  unfold promotionFreeToClean
  rw [if_pos (r.allocatorEmpty_iff.mpr hf)]

theorem Repr.promotionFreeToClean {rest : List Nat} (r : Repr g m t)
    (h : Valid g.cacheBlockNum w t) (hf : t.free = b :: rest) (key : Work) :
    ∃ m', promotionFreeToClean m key.fullPathName key.cachePageIndex = .ok (some (m', b)) ∧
      Repr g m' (t.promotionStart key) := by
  have hbf : b ∈ t.free := by simp [hf]
  have hlt : b < g.cacheBlockNum := h.accounted.lt_of_listed (by simp [Table.listed, hbf])
  have hempty : ¬allocatorEmpty m.ea = true := by simp [r.allocatorEmpty_iff, hf]
  obtain ⟨ea, es, x, heq, hx, hslot, hr⟩ := r.allocate hf (h.free_notMem_hashed hbf)
  let entry := { entrySetDirty (entrySetPending x true) false with
    fullPathName := key.fullPathName, cachePageIndex := key.cachePageIndex }
  have hentry : slotOf entry = ⟨key, true, false, true⟩ := by
    simp only [slotOf, Slot.mk.injEq] at hslot
    have hp : entryGetPending (entrySetDirty (entrySetPending x true) false) = true := by simp
    have hd : entryGetDirty (entrySetDirty (entrySetPending x true) false) = false := by simp
    have ha : entryGetAlloc (entrySetDirty (entrySetPending x true) false) = true := by simp [hslot]
    exact Slot.mk.injEq .. ▸ ⟨rfl, hp, hd, ha⟩
  have hr := hr entry
  rw [hentry] at hr
  refine ⟨_, ?_, hr⟩
  unfold SsdCache.promotionFreeToClean
  simp only [hempty, heq, hx]
  rw [if_neg (by simp), hr.inferCblock_eq hlt]

theorem Repr.promotionComplete (r : Repr g m t)
    (h : Valid g.cacheBlockNum (.promoting key b) t) (success : Bool) :
    ∃ m', promotionComplete m b success = .ok m' ∧ Repr g m' (t.promotionComplete b success) := by
  have hlt : b < g.cacheBlockNum := h.lt_of_inFlight rfl
  have hset := r.setPending b false
  have hoff : b ∉ (t.setPending b false).listed := h.accounted.notMem_listed List.mem_cons_self
  have hnot : b ∉ t.hashed := by simp [h.hashed, Worker.arriving]
  unfold SsdCache.promotionComplete Table.promotionComplete
  simp only [r.toEntry_eq hlt]
  cases success with
  | true => exact ⟨_, rfl, ((hset.counters _ _ (inc m.promotionTime) _ _).hashIn hnot hlt).addTailByFlag
      hoff hlt⟩
  | false => exact ⟨_, rfl, hset.release hoff hlt⟩

theorem Repr.demotionCleanToFree_none (r : Repr g m t)
    (hc : t.clean.length ≤ g.cacheBlockNum / 2) : demotionCleanToFree m = .ok none := by
  unfold demotionCleanToFree
  rw [if_pos (by rwa [r.clean.nrElts, r.cacheBlockNum])]

theorem Repr.demotionCleanToFree {rest : List Nat} (r : Repr g m t)
    (hc : t.clean = b :: rest) (hn : ¬t.clean.length ≤ g.cacheBlockNum / 2) :
    ∃ m', demotionCleanToFree m = .ok (some (m', b)) ∧ Repr g m' (t.demotionStart b) := by
  have hb : b ∈ t.clean := by simp [hc]
  have hlt : b < g.cacheBlockNum := r.bound b (by simp [Table.listed, hb])
  have hhead : lHead m.clean = some b := by
    rw [r.clean.links.head_eq, hc]
    rfl
  have hdel := r.delClean hb
  have herase : t.clean.erase b = t.clean.tail := by simp [hc]
  rw [herase] at hdel
  have hr := hdel.setPending b true
  refine ⟨_, ?_, hr⟩
  unfold SsdCache.demotionCleanToFree
  rw [if_neg (by rwa [r.clean.nrElts, r.cacheBlockNum])]
  simp only [hhead]
  rw [hr.inferCblock_eq hlt]

theorem Repr.demotionComplete (r : Repr g m t) (h : Valid g.cacheBlockNum (.demoting key b) t)
    (success : Bool) :
    ∃ m', demotionComplete m b success = .ok m' ∧ Repr g m' (t.demotionComplete b success) := by
  have hlt : b < g.cacheBlockNum := h.lt_of_inFlight rfl
  have hset := r.setPending b false
  have hoff : b ∉ (t.setPending b false).listed := h.accounted.notMem_listed List.mem_cons_self
  have hb : b ∈ t.hashed :=
    (h.hashed b).mpr ⟨hlt, h.flying b rfl, by simp [Worker.arriving]⟩
  have hkey : ∀ i, ((t.setPending b false).slot i).key = (t.slot i).key := by
    intro i
    by_cases hi : i = b <;> simp [hi]
  unfold SsdCache.demotionComplete Table.demotionComplete
  simp only [r.toEntry_eq hlt]
  cases success with
  | true =>
      obtain ⟨m', heq, hr⟩ := (hset.counters _ _ _ (inc m.demotionTime) _).hashOut hb
        (fun i hi hk => h.unique i hi b hb (by rwa [hkey, hkey] at hk))
      refine ⟨SsdCache.release m' b, ?_, hr.release hoff hlt⟩
      simp only [ite_true, bind, Except.bind, pure, Except.pure]
      erw [heq]
  | false => exact ⟨_, rfl, hset.addTailByFlag hoff hlt⟩

theorem Repr.writebackDirtyToClean_none (r : Repr g m t) (hd : t.dirty = []) :
    writebackDirtyToClean m = .ok none := by
  unfold writebackDirtyToClean
  rw [if_pos (by rw [r.dirty.nrElts, hd]; rfl)]

theorem Repr.writebackDirtyToClean {rest : List Nat} (r : Repr g m t)
    (h : Valid g.cacheBlockNum w t) (hw : w.inFlight = none) (hd : t.dirty = b :: rest) :
    ∃ m', writebackDirtyToClean m = .ok (some (m', b)) ∧ Repr g m' (t.writebackStart b) := by
  have hb : b ∈ t.dirty := by simp [hd]
  have hlt : b < g.cacheBlockNum := r.bound b (by simp [Table.listed, hb])
  have hpend : (t.slot b).pending = false := by
    have hp := h.pending b hlt
    rw [hw] at hp
    simpa using hp
  have hhead : lHead m.dirty = some b := by
    rw [r.dirty.links.head_eq, hd]
    rfl
  have hset : Repr g (SsdCache.updateEntry m b
      fun entry => entrySetDirty (entrySetPending entry true) false)
      ((t.setPending b true).setDirty b false) := by
    have hr := (r.setPending b true).setDirty b false
    simpa [SsdCache.updateEntry] using hr
  have hdel := hset.delDirty hb
  have herase : t.dirty.erase b = t.dirty.tail := by simp [hd]
  have htable : t.writebackStart b =
      { (t.setPending b true).setDirty b false with dirty := t.dirty.erase b } := by
    rw [herase]
    rfl
  refine ⟨_, ?_, htable ▸ hdel⟩
  unfold SsdCache.writebackDirtyToClean
  rw [if_neg (by rw [r.dirty.nrElts, hd]; simp)]
  simp only [hhead, r.getPending, hpend]
  rw [if_neg (by simp), hdel.inferCblock_eq hlt]

theorem Repr.writebackComplete (r : Repr g m t) (h : Valid g.cacheBlockNum (.writing key b) t)
    (success : Bool) :
    ∃ m', writebackComplete m b success = .ok m' ∧ Repr g m' (t.writebackComplete b success) := by
  have hlt : b < g.cacheBlockNum := h.lt_of_inFlight rfl
  have hset := r.setPending b false
  have hoff : b ∉ (t.setPending b false).listed := h.accounted.notMem_listed List.mem_cons_self
  unfold SsdCache.writebackComplete Table.writebackComplete
  simp only [r.toEntry_eq hlt]
  cases success with
  | true => exact ⟨_, rfl, (hset.counters _ _ _ _ (inc m.writebackTime)).addTailByFlag hoff hlt⟩
  | false => exact ⟨_, rfl, hset.addHeadByFlag hoff hlt⟩

end Migration

section Init

def Table.initial (n : Nat) : Table Work :=
  ⟨List.range n, [], [], fun _ => ⟨⟨[], 0⟩, false, false, false⟩, ∅, []⟩

theorem isHashTable_alloc (es : EntrySpace) (ht : HashTable) :
    IsHashTable es (allocHashTable ht) fun _ => [] where
  bits := show Nat.log2 BUCKETS_NUMBER = 17 by decide
  links h hh := by simp [allocHashTable, hHead, hh, Linked.Seg]
  home h hh e he := by simp at he
  bound h hh e he := by simp at he

theorem log2_shift (blockSize : Nat) : log2 (CACHE_BLOCK_SIZE / blockSize) ≤ CBLOCK_SHIFT := by
  have hle : CACHE_BLOCK_SIZE / blockSize ≤ 2 ^ 15 := Nat.div_le_self _ _
  unfold log2 CBLOCK_SHIFT
  by_cases hz : CACHE_BLOCK_SIZE / blockSize = 0
  · simp [hz]
  · exact Nat.le_of_lt_succ ((Nat.log2_lt hz).mpr (by omega))

theorem repr_initMapping {blockSize cblockNum : Nat} (hn : cblockNum ≤ CACHE_BLOCK_NUMBER)
    (hi : initMapping zeroMapping blockSize cblockNum = some m) :
    Repr (geometryOf m) m (Table.initial cblockNum) ∧ (geometryOf m).cacheBlockNum = cblockNum ∧
      (geometryOf m).blockPerCblockShift ≤ CBLOCK_SHIFT := by
  unfold initMapping at hi
  split at hi
  · simp at hi
  · obtain ⟨hfree, hlinks⟩ := initAllocator_free zeroMapping.es cblockNum hn
    simp only [initAllocator, Nat.sub_zero] at hi
    generalize hs : (List.range' 0 cblockNum).foldl
      (fun s i => lAddTail s.1 s.2 i) (zeroMapping.es, lInit) = s at hi hfree hlinks
    obtain rfl := Option.some.inj hi
    refine ⟨⟨rfl, hn, rfl, hfree, isIlist_lInit _, isIlist_lInit _, ?_, ?_, ?_, ?_, ?_, ?_⟩, rfl,
      log2_shift blockSize⟩
    · simpa [Table.initial, Table.listed] using List.nodup_range
    · simp [Table.initial, Table.listed, geometryOf]
    · have hzero : slotOf zeroEntry = ⟨⟨[], 0⟩, false, false, false⟩ := rfl
      rw [slotOf_linksOnly hlinks, Table.initial, ← hzero]
      rfl
    · exact ⟨fun _ => [], isHashTable_alloc _ _, fun e => by simp [Table.initial, Hashed]⟩
    · exact isQueue_init zeroMapping.wq
    · simp [Table.initial, geometryOf]

end Init

end UserPageCache.SsdCache
