import UserPageCache.PageCache.Calls.Theorems

namespace UserPageCache.PageCache

variable {s s' : State} {lru free left right kept : List Nat} {pg i : Nat} {key : Key}

instance (s : State) : Decidable s.Linked :=
  inferInstanceAs (Decidable (∀ i ∈ s.victims, s.prev i ≠ none))

-- The pages of a key, as the LRU list has them.
def State.pagesOf (s : State) (pages : List Nat) (key : Key) : List Nat :=
  pages.filter fun i => s.keyAt i == some key

-- The hash table knows the pages of each key in the order of the LRU list.
structure Tracked (s : State) (lru free : List Nat) : Prop where
  lists : Lists s [] lru free
  entries : ∀ key, s.entries key = s.pagesOf lru key

-- No key loses some of its pages to an eviction and keeps others.
def State.Whole (s : State) : Prop :=
  ∀ i ∈ s.victims, ∀ key, s.keyAt i = some key → ∀ j ∈ s.entries key, j ∈ s.victims

instance (s : State) : Decidable s.Whole := by
  have : ∀ i, Decidable (∀ key, s.keyAt i = some key → ∀ j ∈ s.entries key, j ∈ s.victims) := fun i =>
    match h : s.keyAt i with
    | none => .isTrue (fun key hk => absurd hk (by simp))
    | some key =>
      decidable_of_iff (∀ j ∈ s.entries key, j ∈ s.victims) (by simp)
  exact inferInstanceAs (Decidable (∀ i ∈ s.victims, _))

section Pages

theorem mem_pagesOf {pages : List Nat} :
    i ∈ s.pagesOf pages key ↔ i ∈ pages ∧ s.keyAt i = some key := by
  simp [State.pagesOf]

theorem pagesOf_congr {pages : List Nat} (h : ∀ i ∈ pages, s'.keyAt i = s.keyAt i) (key : Key) :
    s'.pagesOf pages key = s.pagesOf pages key :=
  List.filter_congr fun i hi => by rw [h i hi]

theorem pagesOf_length (pages : List Nat) (key : Key) :
    (s.pagesOf pages key).length = s.holders pages key :=
  List.countP_eq_length_filter.symm

theorem pagesOf_append (pages pages' : List Nat) (key : Key) :
    s.pagesOf (pages ++ pages') key = s.pagesOf pages key ++ s.pagesOf pages' key :=
  List.filter_append _ _

theorem pagesOf_cons (hk : s.keyAt pg = some key) (pages : List Nat) (key' : Key) :
    s.pagesOf (pg :: pages) key' =
      if key' = key then pg :: s.pagesOf pages key' else s.pagesOf pages key' := by
  unfold State.pagesOf
  by_cases hkey : key' = key
  · rw [if_pos hkey, List.filter_cons_of_pos (by simp [hk, hkey])]
  · rw [if_neg hkey, List.filter_cons_of_neg (by simp [hk, Ne.symm hkey])]

theorem Tracked.holders (h : Tracked s lru free) (key : Key) :
    s.holders lru key ≤ (s.entries key).length := by
  rw [h.entries, pagesOf_length]

theorem Tracked.mem (h : Tracked s lru free) : i ∈ s.entries key ↔ i ∈ lru ∧ s.keyAt i = some key := by
  rw [h.entries, mem_pagesOf]

-- A key keeps all its pages or loses them all.
theorem Tracked.apart (h : Tracked s (kept ++ s.victims.reverse) free) (hw : s.Whole) (key : Key) :
    s.pagesOf kept key = [] ∨ s.pagesOf s.victims key = [] := by
  by_contra hboth
  rw [not_or] at hboth
  obtain ⟨i, hi⟩ := List.exists_mem_of_ne_nil _ hboth.2
  obtain ⟨j, hj⟩ := List.exists_mem_of_ne_nil _ hboth.1
  obtain ⟨hi, hki⟩ := mem_pagesOf.mp hi
  obtain ⟨hj, hkj⟩ := mem_pagesOf.mp hj
  exact victims_not_kept h.lists j hj (hw i hi key hki j (h.mem.mpr ⟨by simp [hj], hkj⟩))

theorem Tracked.dropped (h : Tracked s (kept ++ s.victims.reverse) free) (hw : s.Whole) (key : Key) :
    (s.entries key).drop (s.holders s.victims key) = s.pagesOf kept key := by
  have hrev : (s.pagesOf s.victims.reverse key).length = s.holders s.victims key := by
    rw [pagesOf_length]
    exact List.countP_reverse
  rw [h.entries, pagesOf_append]
  rcases h.apart hw key with hk | hv
  · rw [hk, List.nil_append, List.drop_eq_nil_of_le hrev.le]
  · have hnil : s.holders s.victims key = 0 := by rw [← pagesOf_length, hv, List.length_nil]
    rw [hnil] at hrev ⊢
    rw [List.eq_nil_of_length_eq_zero hrev, List.append_nil, List.drop_zero]

end Pages

section Steps

variable {free' : List Nat} {frame : Frame} {d : Store}

theorem Tracked.fill (h : Tracked s (kept ++ s.victims.reverse) free) (hw : s.Whole)
    (hf : Filled s s' key pg kept free' frame d) : Tracked s' (pg :: kept) free' := by
  refine ⟨hf.lists, fun key' => ?_⟩
  rw [hf.entries, h.dropped hw, pagesOf_cons hf.named, pagesOf_congr fun i hi => (hf.others i hi).1]

-- The page of a hit is the first of its key on the list, so the others stay behind it.
theorem pagesOf_moved (h : s.pagesOf (left ++ pg :: right) key = pg :: kept)
    (hn : (left ++ pg :: right).Nodup) (key' : Key) :
    s.pagesOf (pg :: (left ++ right)) key' = s.pagesOf (left ++ pg :: right) key' := by
  have hk : s.keyAt pg = some key := by
    have hm : pg ∈ s.pagesOf (left ++ pg :: right) key := h ▸ List.mem_cons_self
    exact (mem_pagesOf.mp hm).2
  have hleft : pg ∉ left := fun hl => (List.nodup_append.mp hn).2.2 pg hl pg List.mem_cons_self rfl
  have hnone : s.pagesOf left key = [] := by
    rw [pagesOf_append] at h
    cases hl : s.pagesOf left key with
    | nil => rfl
    | cons i rest =>
        rw [hl] at h
        have hi : i = pg := (List.cons.inj h).1
        have hm : i ∈ s.pagesOf left key := hl ▸ List.mem_cons_self
        exact absurd (hi ▸ (mem_pagesOf.mp hm).1) hleft
  rw [pagesOf_cons hk, pagesOf_append, pagesOf_append, pagesOf_cons hk]
  by_cases hkey : key' = key
  · rw [if_pos hkey, if_pos hkey, hkey, hnone, List.nil_append, List.nil_append]
  · rw [if_neg hkey, if_neg hkey]

theorem Tracked.hit (h : Tracked s lru free) {rest : List Nat} (he : s.entries key = pg :: rest) :
    (∃ lru', Tracked (moveToLruHead s pg) lru' free ∧ lru'.Perm lru) ∧
      Quiet s (moveToLruHead s pg) ∧ (moveToLruHead s pg).hashTable = s.hashTable ∧
      ∀ i, (moveToLruHead s pg).keyAt i = s.keyAt i := by
  by_cases hp : s.prev pg = none
  · rw [moveToLruHead_none hp]
    exact ⟨⟨lru, h, .refl _⟩, Quiet.refl s, rfl, fun i => rfl⟩
  · have hm : pg ∈ lru := (h.mem.mp (he ▸ List.mem_cons_self)).1
    obtain ⟨left, right, rfl⟩ := List.append_of_mem hm
    obtain ⟨hlists, hquiet, htable, hothers⟩ := moveToLruHead_spec h.lists hp
    refine ⟨⟨_, ⟨hlists, fun key' => ?_⟩, List.perm_middle.symm⟩, hquiet, htable,
      fun i => (hothers i).1⟩
    rw [entries_congr hquiet.size htable, pagesOf_congr fun i _ => (hothers i).1,
      pagesOf_moved (h.entries key ▸ he) h.lists.links.nodup, h.entries]

end Steps

theorem Tracked.init (cacheSize : Nat) (store : Store) :
    Tracked (initPageCache cacheSize store) [] (List.range cacheSize).reverse := by
  obtain ⟨hlists, -, -, hentries⟩ := initPageCache_spec cacheSize store
  exact ⟨hlists, hentries⟩

theorem Tracked.store (h : Tracked s lru free) (d : Store) : Tracked { s with store := d } lru free :=
  ⟨⟨h.lists.links, h.lists.frees, h.lists.count, h.lists.pages, h.lists.named, h.lists.placed⟩,
    h.entries⟩

end UserPageCache.PageCache
