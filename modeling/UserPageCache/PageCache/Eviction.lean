import UserPageCache.PageCache.Paging.Theorems

namespace UserPageCache.PageCache

variable {s s' : State} {pages : List Nat} {pg i : Nat} {key : Key}

-- The pages are off the list and nothing names them; the others are as they were.
structure Dropped (s s' : State) (pages : List Nat) : Prop where
  size : s'.cacheSize = s.cacheSize
  phys : s'.physBase = s.physBase
  store : s'.store = pages.foldl (pageOut s) s.store
  named : ∀ i ∈ pages, s.keyAt i ≠ none
  cleared : ∀ i ∈ pages, s'.keyAt i = none ∧ s'.dirty i = false
  others : ∀ i ∉ pages, s'.keyAt i = s.keyAt i ∧ s'.dirty i = s.dirty i

section Removal

theorem hashTableRemove_ok {rc : Nat} (h : hashTableRemove s pg = .ok (s', rc)) :
    ∃ table, s' = { s with hashTable := table } := by
  unfold hashTableRemove at h
  cases hp : (s.memMap pg).pathName with
  | none => simp [hp] at h
  | some pathName =>
      simp only [hp] at h
      split at h
      · exact ⟨_, (congrArg Prod.fst (Except.ok.inj h)).symm⟩
      · exact ⟨s.hashTable, (congrArg Prod.fst (Except.ok.inj h)).symm⟩

theorem removeFromLru_ok (h : removeFromLru s pg = .ok s') : s'.cacheSize = s.cacheSize ∧
    s'.physBase = s.physBase ∧ s'.store = s.store ∧ s'.keyAt pg = none ∧ s'.dirty pg = false ∧
    (∀ i ≠ pg, s'.keyAt i = s.keyAt i ∧ s'.dirty i = s.dirty i) ∧
    s'.lruList.tail = (if s.next pg = none then s.prev pg else s.lruList.tail) ∧
    (s.next pg = none → ∀ i ≠ pg, s'.prev i = s.prev i) := by
  unfold removeFromLru at h
  obtain ⟨⟨s₁, rc⟩, hr, h⟩ := bind_eq_ok.mp h
  obtain ⟨table, rfl⟩ := hashTableRemove_ok hr
  by_cases hrc : rc = 1
  · simp [hrc, throw, throwThe, MonadExceptOf.throw, bind, Except.bind] at h
  · simp only [hrc, ite_false, bind, Except.bind, pure, Except.pure] at h
    obtain rfl := Except.ok.inj h
    unfold State.next State.prev State.keyAt State.dirty
    cases hp : (s.memMap pg).prev with
    | none =>
        simp only [setNext_eq, closeNext_eq, setHead, pushFree, State.setPage, State.next, State.prev, hp]
        exact ⟨trivial, trivial, trivial, by simp, by simp, fun i hi => by simp [hi], by simp,
          fun hn i hi => by simp [hi, hn]⟩
    | some p =>
        simp only [setNext_eq, closeNext_eq, pushFree, State.setPage, State.next, State.prev, hp]
        exact ⟨trivial, trivial, trivial, by simp, by simp, fun i hi => by simp [hi], by simp,
          fun hn i hi => by simp [hi, hn]⟩

theorem writePio_unnamed (hk : s.keyAt pg = none) : writePio s pg = .error .nullDereference := by
  unfold State.keyAt at hk
  unfold writePio submitPage
  rw [Option.map_eq_none_iff.mp hk]

theorem pageOut_named (hk : s.keyAt pg = some key) (d : Store) :
    pageOut s d pg = (submitPio d .write key.1 key.2 (s.physBase pg)).1 := by
  unfold pageOut
  rw [hk]

-- One turn of the eviction takes the tail, whose neighbours keep their links if it has no
-- successor.
theorem evictPage_ok (h : evictPage s = .ok s') : ∃ pg, s.lruList.tail = some pg ∧
    Dropped s s' [pg] ∧ s'.lruList.tail = (if s.next pg = none then s.prev pg else some pg) ∧
    (s.next pg = none → ∀ i ≠ pg, s'.prev i = s.prev i) := by
  unfold evictPage at h
  cases ht : s.lruList.tail with
  | none => simp [ht] at h
  | some pg =>
      cases hk : s.keyAt pg with
      | none => simp [ht, writePio_unnamed hk, bind, Except.bind] at h
      | some key =>
          simp only [ht, writePio_eq hk, bind, Except.bind] at h
          obtain ⟨hsize, hphys, hstore, hkey, hdirty, hothers, htail, hprev⟩ := removeFromLru_ok h
          refine ⟨pg, rfl, ⟨hsize, hphys, ?_, fun i hi => ?_, fun i hi => ?_, fun i hi => ?_⟩, ?_, hprev⟩
          · rw [hstore, List.foldl_cons, List.foldl_nil, pageOut_named hk]
          · obtain rfl := List.mem_singleton.mp hi
            simp [hk]
          · obtain rfl := List.mem_singleton.mp hi
            exact ⟨hkey, hdirty⟩
          · exact hothers i (by simpa using hi)
          · rw [htail]
            exact congrArg _ ht

theorem Dropped.refl (s : State) : Dropped s s [] :=
  ⟨rfl, rfl, rfl, fun i hi => absurd hi (by simp), fun i hi => absurd hi (by simp),
    fun _ _ => ⟨rfl, rfl⟩⟩

theorem Dropped.cons {s₁ : State} (h : Dropped s s₁ [pg]) (h' : Dropped s₁ s' pages) :
    pg ∉ pages ∧ Dropped s s' (pg :: pages) := by
  have hpg : pg ∉ pages := fun hm => h'.named pg hm (h.cleared pg List.mem_cons_self).1
  have hne : ∀ i ∈ pages, i ∉ [pg] := fun i hi he => hpg (List.mem_singleton.mp he ▸ hi)
  refine ⟨hpg, h'.size.trans h.size, h'.phys.trans h.phys, ?_, fun i hi => ?_, fun i hi => ?_,
    fun i hi => ?_⟩
  · rw [h'.store, h.store, List.foldl_cons,
      foldl_pageOut_congr (fun i hi => (h.others i (hne i hi)).1) h.phys]
    rfl
  · rcases List.mem_cons.mp hi with rfl | hi
    · exact h.named i List.mem_cons_self
    · exact (h.others i (hne i hi)).1 ▸ h'.named i hi
  · rcases List.mem_cons.mp hi with rfl | hi
    · obtain ⟨hkey, hdirty⟩ := h'.others i hpg
      obtain ⟨hkey', hdirty'⟩ := h.cleared i List.mem_cons_self
      exact ⟨hkey.trans hkey', hdirty.trans hdirty'⟩
    · exact h'.cleared i hi
  · rw [List.mem_cons, not_or] at hi
    obtain ⟨hkey, hdirty⟩ := h'.others i hi.2
    obtain ⟨hkey', hdirty'⟩ := h.others i (by simpa using hi.1)
    exact ⟨hkey.trans hkey', hdirty.trans hdirty'⟩

end Removal

section Walk

theorem walkBack_congr {n : Nat} {t : Option Nat}
    (h : ∀ i ∈ s'.walkBack n t, s'.prev i = s.prev i) : s'.walkBack n t = s.walkBack n t := by
  induction n generalizing t with
  | zero => rfl
  | succ n ih =>
      cases t with
      | none => rfl
      | some pg =>
          unfold State.walkBack at h ⊢
          have hpg := h pg List.mem_cons_self
          rw [hpg] at h ⊢
          rw [ih fun i hi => h i (List.mem_cons_of_mem _ hi)]

-- An eviction that gets through took the pages met by the links back, each once.
theorem evictPages_ok {n : Nat} (h : evictPages n s = .ok s') :
    (s.walkBack n s.lruList.tail).length = n ∧ (s.walkBack n s.lruList.tail).Nodup ∧
      Dropped s s' (s.walkBack n s.lruList.tail) := by
  induction n generalizing s with
  | zero =>
      obtain rfl := Except.ok.inj h
      exact ⟨rfl, .nil, Dropped.refl s⟩
  | succ n ih =>
      obtain ⟨s₁, hone, hrest⟩ := bind_eq_ok.mp h
      obtain ⟨pg, ht, hd, htail, hprev⟩ := evictPage_ok hone
      obtain ⟨hlen, hn, hd'⟩ := ih hrest
      obtain ⟨hpg, hall⟩ := hd.cons hd'
      have hwalk : s₁.walkBack n s₁.lruList.tail = s.walkBack n (s.prev pg) := by
        cases n with
        | zero => rfl
        | succ n =>
            by_cases hnext : s.next pg = none
            · rw [walkBack_congr fun i hi => hprev hnext i fun he => hpg (he ▸ hi), htail, if_pos hnext]
            · rw [htail, if_neg hnext] at hpg
              exact absurd List.mem_cons_self hpg
      rw [ht, State.walkBack, ← hwalk]
      exact ⟨congrArg (· + 1) hlen, List.nodup_cons.mpr ⟨hpg, hn⟩, hall⟩

end Walk

section Allocation

theorem popFree_ok (h : popFree s = .ok (s', pg)) : s'.cacheSize = s.cacheSize ∧
    s'.physBase = s.physBase ∧ s'.store = s.store ∧ s'.keyAt pg = none ∧ s'.dirty pg = false ∧
    ∀ i ≠ pg, s'.keyAt i = s.keyAt i ∧ s'.dirty i = s.dirty i := by
  unfold popFree at h
  cases hhead : s.freeList.head with
  | none => simp [hhead] at h
  | some first =>
      simp only [hhead, Except.ok.injEq, Prod.mk.injEq] at h
      obtain ⟨rfl, rfl⟩ := h
      exact ⟨rfl, rfl, rfl, by simp [State.keyAt, State.setPage], by simp [State.dirty, State.setPage],
        fun i hi => by simp [State.keyAt, State.dirty, State.setPage, hi]⟩

-- What alloc_page has done wherever it returns.
theorem allocPage_ok (h : allocPage s = .ok (s', pg)) :
    s.victims.length = (if s.freeList.nrFree = 0 then s.cacheSize / 2 else 0) ∧ s.victims.Nodup ∧
    s'.cacheSize = s.cacheSize ∧ s'.physBase = s.physBase ∧
    s'.store = s.victims.foldl (pageOut s) s.store ∧
    (∀ i ∈ s.victims, s.keyAt i ≠ none ∧ s'.keyAt i = none) ∧
    ∀ i, s'.dirty i = true → s.dirty i = true := by
  obtain ⟨s₁, hpop, hlen, hn, hd⟩ : ∃ s₁, popFree s₁ = .ok (s', pg) ∧
      s.victims.length = (if s.freeList.nrFree = 0 then s.cacheSize / 2 else 0) ∧
      s.victims.Nodup ∧ Dropped s s₁ s.victims := by
    unfold allocPage at h
    unfold State.victims
    by_cases h0 : s.freeList.nrFree = 0
    · obtain ⟨s₁, hevict, hpop⟩ := bind_eq_ok.mp ((if_pos h0).symm.trans h)
      rw [if_pos h0, if_pos h0]
      exact ⟨s₁, hpop, evictPages_ok hevict⟩
    · rw [if_neg h0, if_neg h0]
      exact ⟨s, (if_neg h0).symm.trans h, rfl, .nil, Dropped.refl s⟩
  obtain ⟨hsize, hphys, hstore, hkey, hdirty, hothers⟩ := popFree_ok hpop
  refine ⟨hlen, hn, hsize.trans hd.size, hphys.trans hd.phys, hstore.trans hd.store,
    fun i hi => ⟨hd.named i hi, ?_⟩, fun i hi => ?_⟩
  · by_cases hpg : i = pg
    · exact hpg ▸ hkey
    · exact (hothers i hpg).1.trans (hd.cleared i hi).1
  · by_cases hpg : i = pg
    · rw [hpg, hdirty] at hi
      exact absurd hi (by simp)
    · rw [(hothers i hpg).2] at hi
      by_cases hv : i ∈ s.victims
      · rw [(hd.cleared i hv).2] at hi
        exact absurd hi (by simp)
      · rwa [(hd.others i hv).2] at hi

end Allocation

end UserPageCache.PageCache
