import UserPageCache.SsdCache.Accounting

namespace UserPageCache.SsdCache

open Linked

variable {g : Geometry} {s s₁ s₂ : State} {t : Table Work} {m m' : Mapping} {b : Nat}
  {blockSize cblockNum : Nat}

-- While a block is being demoted or written back, it belongs to one key.
theorem Step.moving_key {n : Nat} {a : Action} {v v' : View} (hs : Step n a v v') (h : v.Inv n)
    (hb : v.worker.moving = some b) : (v'.table.slot b).key = (v.table.slot b).key := by
  refine hs.key_kept h (h.valid.flying b ?_)
  cases hw : v.worker <;> simp_all [Worker.moving, Worker.inFlight]

section Damage

theorem release_free_tail (m : Mapping) (hb : b ≠ INDEXER_NULL) :
    lTail (release m b).ea.free = some b := by
  unfold release
  rw [freeEntry_eq]
  exact (lAddTail_eq _ _ hb).2.2.2.1

-- Freed a second time in a row, the entry is its own successor.
theorem release_twice (hb : b ≠ INDEXER_NULL) (ht : lTail m.ea.free = some b) (nodes : List Nat) :
    ¬IsIlist (release m b).es (release m b).ea.free nodes := by
  intro h
  have htail := release_free_tail m hb
  have hnext : lNext (release m b).es b = some b := by
    unfold release
    rw [freeEntry_eq]
    simp only [(lAddTail_eq _ _ hb).1, ht, ite_true]
  obtain ⟨left, hl⟩ := List.getLast?_eq_some_iff.mp (h.links.tail_eq ▸ htail)
  rw [hl] at h
  simp [h.links.next_eq] at hnext

-- A block at the end of the free list is at an end of another list as well.
def SharedEnd (m : Mapping) (b : Nat) : Prop :=
  lTail m.ea.free = some b ∧ (lTail m.clean = some b ∨ lTail m.dirty = some b ∨
    lHead m.clean = some b ∨ lHead m.dirty = some b)

theorem addTailByFlag_shared (hb : b ≠ INDEXER_NULL) (ht : lTail m.ea.free = some b) :
    SharedEnd (addTailByFlag m b) b := by
  unfold addTailByFlag
  split
  · exact ⟨ht, .inr (.inl (lAddTail_eq _ _ hb).2.2.2.1)⟩
  · exact ⟨ht, .inl (lAddTail_eq _ _ hb).2.2.2.1⟩

theorem addHeadByFlag_shared (hb : b ≠ INDEXER_NULL) (ht : lTail m.ea.free = some b) :
    SharedEnd (addHeadByFlag m b) b := by
  unfold addHeadByFlag
  split
  · exact ⟨ht, .inr (.inr (.inr (lAddHead_eq _ _ hb).2.2.1))⟩
  · exact ⟨ht, .inr (.inr (.inl (lAddHead_eq _ _ hb).2.2.1))⟩

theorem Accounting.not_shared {n : Nat} {free clean dirty : List Nat}
    (h : Accounting n s free clean dirty) : ¬SharedEnd s.map b := by
  rintro ⟨hf, ho⟩
  have hn : (free ++ clean ++ dirty ++ s.worker.inFlight.toList).Nodup :=
    h.exactlyOne.nodup_iff.mpr List.nodup_range
  have hfree : b ∈ free := List.mem_of_getLast? (h.freeList.links.tail_eq ▸ hf)
  have hother : b ∈ clean ∨ b ∈ dirty := by
    rcases ho with ho | ho | ho | ho
    · exact .inl (List.mem_of_getLast? (h.cleanList.links.tail_eq ▸ ho))
    · exact .inr (List.mem_of_getLast? (h.dirtyList.links.tail_eq ▸ ho))
    · exact .inl (List.mem_of_head? (h.cleanList.links.head_eq ▸ ho))
    · exact .inr (List.mem_of_head? (h.dirtyList.links.head_eq ▸ ho))
  simp only [List.nodup_append, List.mem_append] at hn
  rcases hother with hc | hd
  · exact hn.1.1.2.2 b hfree b hc rfl
  · exact hn.1.2.2 b (.inl hfree) b hd rfl

theorem hashOut_ea {m : Mapping} (h : hashOut m b = .ok m') : m'.ea = m.ea := by
  unfold hashOut at h
  cases hr : hRemove m.table m.es b with
  | error fault => simp [hr, bind, Except.bind] at h
  | ok r =>
      simp only [hr, bind, Except.bind, pure, Except.pure, Except.ok.injEq] at h
      rw [← h]

-- Completing a migration of a block that is already free.
theorem demotionComplete_corrupts {success : Bool} (hb : b ≠ INDEXER_NULL)
    (ht : lTail m.ea.free = some b) (h : demotionComplete m b success = .ok m') :
    (∀ nodes, ¬IsIlist m'.es m'.ea.free nodes) ∨ SharedEnd m' b := by
  unfold demotionComplete at h
  simp only [toEntry_of_ne hb, bind, Except.bind, pure, Except.pure] at h
  cases success with
  | true =>
      simp only [ite_true] at h
      split at h
      · simp at h
      · rename_i m₁ hout
        obtain rfl := Except.ok.inj h
        have hea := hashOut_ea hout
        exact .inl (release_twice hb (by rw [hea]; exact ht))
  | false =>
      simp only [Bool.false_eq_true, ite_false, Except.ok.injEq] at h
      subst h
      exact .inr (addTailByFlag_shared hb ht)

theorem writebackComplete_corrupts {success : Bool} (hb : b ≠ INDEXER_NULL)
    (ht : lTail m.ea.free = some b) (h : writebackComplete m b success = .ok m') :
    SharedEnd m' b := by
  unfold writebackComplete at h
  simp only [toEntry_of_ne hb] at h
  cases success with
  | true =>
      simp only [ite_true, Except.ok.injEq] at h
      subst h
      exact addTailByFlag_shared hb ht
  | false =>
      simp only [Bool.false_eq_true, ite_false, Except.ok.injEq] at h
      subst h
      exact addHeadByFlag_shared hb ht

-- A discard that finds the block in flight frees it.
theorem Sound.discard_frees (h : Sound g s t) {fullPathName : CString} {pageIndex : Nat}
    (hm : s.worker.moving = some b)
    (hk : keyOf (s.map.es b) = State.keyAt pageIndex fullPathName)
    (hd : State.act (.removeMapping fullPathName pageIndex) s = .ok s₁) :
    lTail s₁.map.ea.free = some b ∧ s₁.worker = s.worker := by
  have hfly : s.worker.inFlight = some b := by
    cases hw : s.worker <;> simp_all [Worker.moving, Worker.inFlight]
  have hlt := h.valid.lt_of_inFlight hfly
  have hb : b ∈ t.hashed :=
    (h.valid.hashed_iff hlt (h.valid.flying b hfly)).mpr (.inr (.inr hm))
  have hkey : (t.slot b).key = State.keyAt pageIndex fullPathName := by
    rw [h.repr.slot_eq]
    exact hk
  obtain ⟨m, e, heq, r, hsome, hnone⟩ := h.repr.find fullPathName (toCachePageIndex pageIndex)
  simp only [State.act, State.removeMapping, SsdCache.removeMapping, heq, bind, Except.bind, pure,
    Except.pure] at hd
  cases e with
  | none => exact absurd hkey (hnone rfl b hb)
  | some e =>
      obtain ⟨he, hke⟩ := hsome e rfl
      obtain rfl : e = b := h.valid.unique e he b hb (hke.trans hkey.symm)
      cases hout : hashOut (delByFlag m e) e with
      | error fault => simp [hout] at hd
      | ok m' =>
          simp only [hout, Except.ok.injEq] at hd
          subst hd
          exact ⟨release_free_tail m' (h.repr.ne_null hlt), rfl⟩

-- Then completing the migration puts the block on a list once more.
theorem Sound.discard_corrupts (h : Sound g s t) {fullPathName : CString} {pageIndex : Nat}
    {a : Action} {success : Bool} (hm : s.worker.moving = some b)
    (hk : keyOf (s.map.es b) = State.keyAt pageIndex fullPathName)
    (hd : State.act (.removeMapping fullPathName pageIndex) s = .ok s₁)
    (ha : a = .completeDemotion success ∨ a = .completeWriteback success)
    (he : s₁.enabled a = true) (hc : State.act a s₁ = .ok s₂) (n : Nat)
    (free clean dirty : List Nat) : ¬Accounting n s₂ free clean dirty := by
  obtain ⟨htail, hworker⟩ := h.discard_frees hm hk hd
  have hfly : s.worker.inFlight = some b := by
    cases hw : s.worker <;> simp_all [Worker.moving, Worker.inFlight]
  have hne : b ≠ INDEXER_NULL := h.repr.ne_null (h.valid.lt_of_inFlight hfly)
  have hphase := State.enabled_worker he
  intro hacc
  rcases ha with rfl | rfl
  · obtain ⟨-, key, c, hw⟩ := hphase.2.2.2.1 success rfl
    obtain rfl : c = b := by simpa [← hworker, hw, Worker.moving] using hm
    simp only [State.act, hw, State.completeWith, bind, Except.bind, pure, Except.pure] at hc
    split at hc
    · simp at hc
    · rename_i m' hdone
      obtain rfl := Except.ok.inj hc
      rcases demotionComplete_corrupts hne htail hdone with hfree | hshared
      · exact hfree free hacc.freeList
      · exact hacc.not_shared hshared
  · obtain ⟨-, key, c, hw⟩ := hphase.2.2.2.2.2.1 success rfl
    obtain rfl : c = b := by simpa [← hworker, hw, Worker.moving] using hm
    simp only [State.act, hw, State.completeWith, bind, Except.bind, pure, Except.pure] at hc
    split at hc
    · simp at hc
    · rename_i m' hdone
      obtain rfl := Except.ok.inj hc
      exact hacc.not_shared (writebackComplete_corrupts hne htail hdone)

end Damage

-- As long as no discard meets a block in flight, the lists stay exact and the block in
-- flight keeps its key and is not freed. One discard that does meet it, followed by the
-- end of the migration, and the lists are never exact.
theorem discard_safe (h : (interleaving blockSize cblockNum).Reachable Settled s) :
    (∃ free clean dirty, Accounting cblockNum s free clean dirty) ∧
    (∀ a s' b, s.enabled a = true → Settled a s → State.act a s = .ok s' →
      s.worker.moving = some b → s'.worker.moving = some b →
      keyOf (s'.map.es b) = keyOf (s.map.es b) ∧ entryGetAlloc (s'.map.es b) = true) ∧
    (∀ b fullPathName pageIndex a success s₁ s₂, s.worker.moving = some b →
      keyOf (s.map.es b) = State.keyAt pageIndex fullPathName →
      State.act (.removeMapping fullPathName pageIndex) s = .ok s₁ →
      (a = .completeDemotion success ∨ a = .completeWriteback success) →
      s₁.enabled a = true → State.act a s₁ = .ok s₂ →
      ∀ free clean dirty, ¬Accounting cblockNum s₂ free clean dirty) := by
  obtain ⟨g, t, hs, rfl, -⟩ := sound_of_reachable h
  refine ⟨⟨_, _, _, hs.accounting⟩, fun a s' b he ha hact hm hm' => ?_,
    fun b fullPathName pageIndex a success s₁ s₂ hm hk hd ha he hc =>
      hs.discard_corrupts hm hk hd ha he hc _⟩
  obtain ⟨t', hs', hstep⟩ := hs.step he ha hact
  have hkey := hstep.moving_key hs.inv hm
  have hfly : s'.worker.inFlight = some b := by
    cases hw : s'.worker <;> simp_all [Worker.moving, Worker.inFlight]
  refine ⟨?_, by rw [hs'.repr.getAlloc]; exact hs'.valid.flying b hfly⟩
  have hslot : ∀ (s : State) (t : Table Work), Repr g s.map t →
      keyOf (s.map.es b) = (t.slot b).key := fun s t r => by
    rw [r.slot_eq]
    rfl
  rw [hslot s' t' hs'.repr, hslot s t hs.repr]
  exact hkey

def demotionRun : List Action :=
  [.lookupMapping [⟨97, nonzero_a⟩] 0, .nested, .peakWork, .startPromotion,
    .completePromotion true, .removeWork, .lookupMapping [⟨97, nonzero_a⟩] 8, .nested, .peakWork,
    .startPromotion, .startDemotion]

theorem discard_safe_demotionRun : ∃ s, s.worker.moving = some 0 ∧
    ∃ free clean dirty, Accounting 1 s free clean dirty := by
  obtain ⟨s, hs, hw⟩ := boot_run (by decide) (by decide) (by simp [demotionRun])
    (show _ = true from (by decide +kernel : ((interleaving 512 1).run (State.boot 512 1)
      demotionRun).any (fun s => s.worker.moving == some 0) = true))
  exact ⟨s, by simpa using hw, (discard_safe hs).1⟩

-- The block in flight is discarded and then freed by demotion_complete a second time.
theorem discard_during_demotion : ∃ s s₂, (interleaving 512 1).Reachable Settled s ∧
    s.worker.moving = some 0 ∧ keyOf (s.map.es 0) = State.keyAt 0 [⟨97, nonzero_a⟩] ∧
    (interleaving 512 1).run s
      [.removeMapping [⟨97, nonzero_a⟩] 0, .completeDemotion true] = some s₂ ∧
    ∀ free clean dirty, ¬Accounting 1 s₂ free clean dirty := by
  have hrun : ((interleaving 512 1).run (State.boot 512 1) demotionRun).any (fun s =>
      s.worker.moving == some 0 && keyOf (s.map.es 0) == State.keyAt 0 [⟨97, nonzero_a⟩] &&
      ((interleaving 512 1).run s
        [.removeMapping [⟨97, nonzero_a⟩] 0, .completeDemotion true]).any (fun s₂ =>
          lTail s₂.map.ea.free == some 0 && lNext s₂.map.es 0 == some 0)) = true := by
    decide +kernel
  obtain ⟨s, hs, hp⟩ := boot_run (by decide) (by decide) (by simp [demotionRun]) hrun
  simp only [Bool.and_eq_true, beq_iff_eq] at hp
  obtain ⟨⟨hm, hk⟩, hrest⟩ := hp
  cases hr : (interleaving 512 1).run s
      [.removeMapping [⟨97, nonzero_a⟩] 0, .completeDemotion true] with
  | none => simp [hr] at hrest
  | some s₂ =>
      simp only [hr, Option.any_some, Bool.and_eq_true, beq_iff_eq] at hrest
      refine ⟨s, s₂, hs, hm, hk, hr, fun free clean dirty hacc => ?_⟩
      obtain ⟨left, hl⟩ := List.getLast?_eq_some_iff.mp (hacc.freeList.links.tail_eq ▸ hrest.1)
      have hlist := hacc.freeList
      rw [hl] at hlist
      simp [hlist.links.next_eq] at hrest

end UserPageCache.SsdCache
