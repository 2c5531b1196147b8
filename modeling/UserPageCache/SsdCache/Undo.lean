import UserPageCache.SsdCache.Accounting
import UserPageCache.SsdCache.Migration

namespace UserPageCache.SsdCache

-- The two critical sections of a migration, around its I/O.
def startPhase (m : Mapping) (key : Work) :
    MgType → Except Fault (Option (Mapping × Nat))
  | .promotion => promotionFreeToClean m key.fullPathName key.cachePageIndex
  | .demotion => demotionCleanToFree m
  | .writeback => writebackDirtyToClean m

def completePhase (m : Mapping) (cblock : Nat) (success : Bool) : MgType → Except Fault Mapping
  | .promotion => promotionComplete m cblock success
  | .demotion => demotionComplete m cblock success
  | .writeback => writebackComplete m cblock success

namespace Table

variable {κ : Type*}

-- The lists may be in another order; a free block may have lost its old key.
structure Restored (t t' : Table κ) : Prop where
  free : t'.free.Perm t.free
  clean : t'.clean.Perm t.clean
  dirty : t'.dirty.Perm t.dirty
  alloc : ∀ b, (t'.slot b).alloc = (t.slot b).alloc
  slot : ∀ b, (t.slot b).alloc = true → t'.slot b = t.slot b
  hashed : t'.hashed = t.hashed

end Table

namespace Valid

variable {κ : Type*} {n b : ℕ} {w : Worker κ} {t : Table κ} {rest : List ℕ}

theorem pending_of_none (h : Valid n w t) (hw : w.inFlight = none) (hb : b < n) :
    (t.slot b).pending = false := by
  have hp := h.pending b hb
  rw [hw] at hp
  simpa using hp

theorem promotion_restored (h : Valid n w t) (key : κ) (hf : t.free = b :: rest) :
    t.Restored ((t.promotionStart key).promotionComplete b false) := by
  have hbf : b ∈ t.free := by simp [hf]
  have hlt : b < n := h.accounted.lt_of_listed (by simp [Table.listed, hbf])
  have ha : (t.slot b).alloc = false := (h.accounted.alloc b hlt).mpr hbf
  unfold Table.promotionComplete Table.promotionStart Table.release
  rw [Table.allocate_eq hf]
  refine ⟨?_, .refl _, .refl _, fun i => ?_, fun i hi => ?_, rfl⟩
  · rw [hf]
    exact List.perm_append_singleton _ _
  · by_cases hib : i = b <;> simp [hib, ha]
  · have hib : i ≠ b := fun hib => by simp [hib, ha] at hi
    simp [hib]

theorem demotion_restored (h : Valid n w t) (hw : w.inFlight = none) (hc : t.clean = b :: rest) :
    t.Restored ((t.demotionStart b).demotionComplete b false) := by
  obtain ⟨hres, hd⟩ := h.resident_clean hc
  have hp := h.pending_of_none hw (h.accounted.alloc_of_resident hres).1
  have hslot : (((t.demotionStart b).setPending b false).slot) = t.slot := by
    funext i
    by_cases hib : i = b
    · subst hib
      simp [Table.demotionStart, ← hp]
    · simp [Table.demotionStart, hib]
  unfold Table.demotionComplete
  simp only [Bool.false_eq_true, ite_false]
  unfold Table.addTail
  rw [hslot, hd]
  simp only [Bool.false_eq_true, ite_false]
  refine ⟨.refl _, ?_, .refl _, fun _ => rfl, fun _ _ => rfl, rfl⟩
  change (t.clean.tail ++ [b]).Perm t.clean
  rw [hc]
  exact List.perm_append_singleton _ _

end Valid

-- The flag that tells where the block came from is already gone.
theorem Table.writeback_lost {κ : Type*} (t : Table κ) (b : ℕ) :
    (((t.writebackStart b).writebackComplete b false).slot b).dirty = false := by
  simp [Table.writebackComplete, Table.writebackStart]

def SameBlocks (es : EntrySpace) (l : Ilist) (es' : EntrySpace) (l' : Ilist) : Prop :=
  ∃ nodes nodes', IsIlist es l nodes ∧ IsIlist es' l' nodes' ∧ nodes'.Perm nodes

-- Each list has its blocks, each block in use its key and its flags, and the hash table
-- holds the same entries.
structure Undone (m m' : Mapping) : Prop where
  free : SameBlocks m.es m.ea.free m'.es m'.ea.free
  clean : SameBlocks m.es m.clean m'.es m'.clean
  dirty : SameBlocks m.es m.dirty m'.es m'.dirty
  alloc : ∀ b, entryGetAlloc (m'.es b) = entryGetAlloc (m.es b)
  slot : ∀ b, entryGetAlloc (m.es b) = true → slotOf (m'.es b) = slotOf (m.es b)
  table : m'.table = m.table
  hashed : ∃ hashed, IsHashed m.es m.table hashed ∧ IsHashed m'.es m'.table hashed

section Failure

variable {g : Geometry} {m m' : Mapping} {t t' : Table Work} {w : Worker Work}
  {b : Nat}

theorem Repr.undone (r : Repr g m t) (r' : Repr g m' t') (h : t.Restored t')
    (htable : m'.table = m.table) : Undone m m' where
  free := ⟨_, _, r.free, r'.free, h.free⟩
  clean := ⟨_, _, r.clean, r'.clean, h.clean⟩
  dirty := ⟨_, _, r.dirty, r'.dirty, h.dirty⟩
  alloc b := by rw [r.getAlloc, r'.getAlloc, h.alloc]
  slot b hb := by
    rw [r.getAlloc] at hb
    rw [← r.slot_eq, ← r'.slot_eq, h.slot b hb]
  table := htable
  hashed := ⟨_, r.hash, h.hashed ▸ r'.hash⟩

theorem Repr.promotionFailed (r : Repr g m t) (hoff : b ∉ t.listed) (hlt : b < g.cacheBlockNum) :
    ∃ m', SsdCache.promotionComplete m b false = .ok m' ∧ m'.table = m.table ∧
      Repr g m' (t.promotionComplete b false) := by
  unfold SsdCache.promotionComplete Table.promotionComplete
  simp only [r.toEntry_eq hlt]
  exact ⟨_, rfl, rfl, (r.setPending b false).release hoff hlt⟩

theorem addTailByFlag_table (m : Mapping) (b : Nat) : (addTailByFlag m b).table = m.table := by
  unfold addTailByFlag
  split <;> rfl

theorem Repr.demotionFailed (r : Repr g m t) (hoff : b ∉ t.listed) (hlt : b < g.cacheBlockNum) :
    ∃ m', SsdCache.demotionComplete m b false = .ok m' ∧ m'.table = m.table ∧
      Repr g m' (t.demotionComplete b false) := by
  unfold SsdCache.demotionComplete Table.demotionComplete
  simp only [r.toEntry_eq hlt]
  exact ⟨_, rfl, addTailByFlag_table _ _, (r.setPending b false).addTailByFlag hoff hlt⟩

theorem Repr.writebackFailed (r : Repr g m t) (hoff : b ∉ t.listed) (hlt : b < g.cacheBlockNum) :
    ∃ m', SsdCache.writebackComplete m b false = .ok m' ∧
      Repr g m' (t.writebackComplete b false) := by
  unfold SsdCache.writebackComplete Table.writebackComplete
  simp only [r.toEntry_eq hlt]
  exact ⟨_, rfl, (r.setPending b false).addHeadByFlag hoff hlt⟩

theorem promotionFreeToClean_table {key : Work}
    (hs : promotionFreeToClean m key.fullPathName key.cachePageIndex = .ok (some (m', b))) :
    m'.table = m.table := by
  unfold SsdCache.promotionFreeToClean at hs
  split at hs
  · simp at hs
  · cases ha : allocEntry m.ea m.es <;> simp [ha] at hs
    exact hs.1 ▸ rfl

theorem demotionCleanToFree_table (hs : demotionCleanToFree m = .ok (some (m', b))) :
    m'.table = m.table := by
  unfold SsdCache.demotionCleanToFree at hs
  split at hs
  · simp at hs
  · cases hh : lHead m.clean <;> simp [hh] at hs
    exact hs.1 ▸ rfl

-- The block that a migration took has been on a list, and is on none until it is over.
theorem Repr.failed (r : Repr g m t) (h : Valid g.cacheBlockNum w t) (hw : w.inFlight = none)
    {key : Work} {mgType : MgType} {m₁ : Mapping}
    (hs : startPhase m key mgType = .ok (some (m₁, b))) :
    ∃ m', completePhase m₁ b false mgType = .ok m' ∧ (Undone m m' ↔ mgType ≠ .writeback) := by
  cases mgType with
  | promotion =>
      cases hf : t.free with
      | nil => simp [startPhase, r.promotionFreeToClean_none hf key] at hs
      | cons c rest =>
          obtain ⟨m₂, heq, r₁⟩ := r.promotionFreeToClean h hf key
          obtain ⟨rfl, rfl⟩ : m₂ = m₁ ∧ c = b := by simpa [startPhase, heq] using hs
          have hacc : (t.promotionStart key).Accounted g.cacheBlockNum (c :: _) :=
            h.accounted.allocate hf rfl
          obtain ⟨m', hm', ht', r'⟩ := r₁.promotionFailed
            (hacc.notMem_listed List.mem_cons_self) (hacc.lt_of_off List.mem_cons_self)
          refine ⟨m', hm', iff_of_true ?_ (by simp)⟩
          exact r.undone r' (h.promotion_restored key hf) (ht'.trans (promotionFreeToClean_table hs))
  | demotion =>
      by_cases hn : t.clean.length ≤ g.cacheBlockNum / 2
      · simp [startPhase, r.demotionCleanToFree_none hn] at hs
      · cases hc : t.clean with
        | nil => simp [hc] at hn
        | cons c rest =>
            obtain ⟨m₂, heq, r₁⟩ := r.demotionCleanToFree hc hn
            obtain ⟨rfl, rfl⟩ : m₂ = m₁ ∧ c = b := by simpa [startPhase, heq] using hs
            have hacc := h.accounted_demotionStart hc
            obtain ⟨m', hm', ht', r'⟩ := r₁.demotionFailed
              (hacc.notMem_listed List.mem_cons_self) (hacc.lt_of_off List.mem_cons_self)
            refine ⟨m', hm', iff_of_true ?_ (by simp)⟩
            exact r.undone r' (h.demotion_restored hw hc) (ht'.trans (demotionCleanToFree_table hs))
  | writeback =>
      cases hd : t.dirty with
      | nil => simp [startPhase, r.writebackDirtyToClean_none hd] at hs
      | cons c rest =>
          obtain ⟨m₂, heq, r₁⟩ := r.writebackDirtyToClean h hw hd
          obtain ⟨rfl, rfl⟩ : m₂ = m₁ ∧ c = b := by simpa [startPhase, heq] using hs
          have hacc := h.accounted_writebackStart hd
          obtain ⟨m', hm', r'⟩ := r₁.writebackFailed
            (hacc.notMem_listed List.mem_cons_self) (hacc.lt_of_off List.mem_cons_self)
          refine ⟨m', hm', iff_of_false (fun hu => ?_) (by simp)⟩
          obtain ⟨hres, hdirty⟩ := h.resident_dirty hd
          obtain ⟨-, -, ha⟩ := h.accounted.alloc_of_resident hres
          have hslot := hu.slot c (by rw [r.getAlloc, ha])
          rw [← r.slot_eq, ← r'.slot_eq] at hslot
          have hlost := t.writeback_lost c
          rw [hslot, hdirty] at hlost
          simp at hlost

end Failure

section Runs

variable {s : State} {blockSize cblockNum : Nat} {m : Mapping} {b : Nat}

-- A failure is undone exactly when it is not a writeback that failed.
theorem failed_migration_undone (h : (interleaving blockSize cblockNum).Reachable Settled s)
    (hw : s.worker.inFlight = none) {key : Work} {mgType : MgType}
    (hs : startPhase s.map key mgType = .ok (some (m, b))) :
    ∃ m', completePhase m b false mgType = .ok m' ∧
      (Undone s.map m' ↔ mgType ≠ .writeback) := by
  obtain ⟨g, t, hsound, -⟩ := sound_of_reachable h
  exact hsound.repr.failed hsound.valid hw hs

def dirtyRun : List Action := [.lookupMappingWithInsert [⟨97, nonzero_a⟩] 0, .nested]

-- One block is dirty, and three are promoted.
def mixedRun : List Action :=
  [.lookupMappingWithInsert [⟨97, nonzero_a⟩] 0, .nested] ++ [8, 16, 24].flatMap fun pageIndex =>
    [.lookupMapping [⟨97, nonzero_a⟩] pageIndex, .nested, .peakWork, .startPromotion,
      .completePromotion true, .removeWork]

theorem failed_migration_undone_mixedRun : ∃ s m m', (interleaving 512 4).Reachable Settled s ∧
    s.map.clean.nrElts = 3 ∧ s.map.dirty.nrElts = 1 ∧
    startPhase s.map ⟨[⟨97, nonzero_a⟩], 4⟩ .demotion = .ok (some (m, 1)) ∧
    completePhase m 1 false .demotion = .ok m' ∧ Undone s.map m' := by
  obtain ⟨s, hs, hp⟩ := boot_run (by decide) (by decide) (by simp [mixedRun])
    (show _ = true from (by decide +kernel : ((interleaving 512 4).run (State.boot 512 4)
      mixedRun).any (fun s => s.worker.inFlight == none && s.map.clean.nrElts == 3 &&
        s.map.dirty.nrElts == 1 &&
        (startPhase s.map ⟨[⟨97, nonzero_a⟩], 4⟩ .demotion).toOption.join.any fun x =>
          x.2 == 1) = true))
  simp only [Bool.and_eq_true, beq_iff_eq] at hp
  obtain ⟨⟨⟨hw, hclean⟩, hdirty⟩, hp⟩ := hp
  rcases hstart : startPhase s.map ⟨[⟨97, nonzero_a⟩], 4⟩ .demotion with fault | _ | ⟨m, b⟩
  · simp [hstart, Except.toOption] at hp
  · simp [hstart, Except.toOption] at hp
  · obtain rfl : b = 1 := by simpa [hstart, Except.toOption] using hp
    obtain ⟨m', hm, hu⟩ := failed_migration_undone hs hw hstart
    exact ⟨s, m, m', hs, hclean, hdirty, hstart, hm, hu.mpr (by simp)⟩

-- The only block is dirty; after its writeback failed it is clean and on the clean list.
theorem failed_writeback_cleans : ∃ s m m', (interleaving 512 1).Reachable Settled s ∧
    s.worker.inFlight = none ∧ startPhase s.map ⟨[⟨97, nonzero_a⟩], 1⟩ .writeback = .ok (some (m, 0)) ∧
    (∀ w reply, reply.command = .rejected → (mgStart m w reply (some (m.es 0).fullPathName)
      (m.es 0).cachePageIndex 0 .writeback).2 = false) ∧
    completePhase m 0 false .writeback = .ok m' ∧ entryGetDirty (s.map.es 0) = true ∧
    entryGetDirty (m'.es 0) = false ∧ lHead m'.clean = some 0 ∧ ¬Undone s.map m' := by
  obtain ⟨s, hs, hp⟩ := boot_run (by decide) (by decide) (by simp [dirtyRun])
    (show _ = true from (by decide +kernel : ((interleaving 512 1).run (State.boot 512 1)
      dirtyRun).any (fun s => s.worker.inFlight == none && entryGetDirty (s.map.es 0) &&
        entryGetAlloc (s.map.es 0) &&
        (startPhase s.map ⟨[⟨97, nonzero_a⟩], 1⟩ .writeback).toOption.join.any fun x => x.2 == 0 &&
          (completePhase x.1 0 false .writeback).toOption.any fun m' =>
            !entryGetDirty (m'.es 0) && lHead m'.clean == some 0) = true))
  simp only [Bool.and_eq_true, beq_iff_eq] at hp
  obtain ⟨⟨⟨hw, hd⟩, ha⟩, hp⟩ := hp
  rcases hstart : startPhase s.map ⟨[⟨97, nonzero_a⟩], 1⟩ .writeback with fault | _ | ⟨m, b⟩
  · simp [hstart, Except.toOption] at hp
  · simp [hstart, Except.toOption] at hp
  · simp only [hstart, Except.toOption, Option.join_some, Option.any_some, Bool.and_eq_true,
      beq_iff_eq] at hp
    obtain ⟨rfl, hp⟩ := hp
    rcases hm : completePhase m 0 false .writeback with fault | m'
    · simp [hm] at hp
    · simp only [hm, Option.any_some, Bool.and_eq_true, Bool.not_eq_true', beq_iff_eq] at hp
      refine ⟨s, m, m', hs, hw, hstart, fun w reply hr => ?_, hm, hd, hp.1, hp.2, fun hu => ?_⟩
      · simp [mgStart, loadCblock, readSpdk, hr]
      · have hslot := congrArg Slot.dirty (hu.slot 0 ha)
        simp only [slotOf, hd, hp.1] at hslot
        simp at hslot

end Runs

end UserPageCache.SsdCache
