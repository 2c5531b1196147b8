import UserPageCache.PageCache.Tracked

namespace UserPageCache.PageCache

open Linked

variable {s s' : State} {lru free left right kept : List Nat} {pg i : Nat} {key : Key}
  {step : PageStep} {cacheSize : Nat}

-- The hash table and the LRU list, one entry for each page and one page for each entry.
structure Corresponds (s : State) (lru free : List Nat) : Prop where
  links : Seg s.next s.lruList.head lru none
  frees : Seg s.next s.freeList.head free none
  apart : (lru ++ free).Nodup
  placed : Placed s
  unique : ∀ key, (s.entries key).length ≤ 1
  entry : ∀ i, ∀ e ∈ s.hashTable i,
    e.pagePtr ∈ lru ∧ s.keyAt e.pagePtr = some (e.pathName, e.pageIndex)
  page : ∀ pg ∈ lru, ∃ key, s.keyAt pg = some key ∧ s.entries key = [pg]

-- A page is written only when no page of its key stays in the cache, and pages are evicted
-- only when they have their links back.
def Replacing : PageStep → State → Prop
  | .write key _ _, s => s.Linked ∧ ∀ i ∈ s.entries key, i ∈ s.victims
  | .read key, s => s.entries key = [] → s.Linked

instance : (step : PageStep) → (s : State) → Decidable (Replacing step s)
  | .write key _ _, s => inferInstanceAs (Decidable (s.Linked ∧ ∀ i ∈ s.entries key, i ∈ s.victims))
  | .read key, s => inferInstanceAs (Decidable (s.entries key = [] → s.Linked))

section Invariant

-- The invariant of such runs.
structure Single (cacheSize : Nat) (s : State) (lru free : List Nat) : Prop where
  tracked : Tracked s lru free
  size : s.cacheSize = cacheSize
  unique : ∀ key, (s.entries key).length ≤ 1

theorem Single.entries_eq (h : Single cacheSize s lru free) (hi : i ∈ s.entries key) :
    s.entries key = [i] := by
  have hle := h.unique key
  match he : s.entries key with
  | [] => simp [he] at hi
  | [j] =>
      rw [he, List.mem_singleton] at hi
      rw [hi]
  | j :: k :: rest => simp [he] at hle

theorem Single.whole (h : Single cacheSize s (kept ++ s.victims.reverse) free) : s.Whole := by
  intro i hi key hk j hj
  have hm : i ∈ s.entries key := h.tracked.mem.mpr ⟨by simp [hi], hk⟩
  rw [h.entries_eq hm, List.mem_singleton] at hj
  exact hj ▸ hi

theorem Single.corresponds (h : Single cacheSize s lru free) : Corresponds s lru free where
  links := h.tracked.lists.links.forward
  frees := h.tracked.lists.frees
  apart := h.tracked.lists.nodup
  placed := h.tracked.lists.placed
  unique := h.unique
  entry := by
    intro i e he
    refine h.tracked.mem.mp (List.mem_map.mpr ⟨e, List.mem_filter.mpr ⟨?_, same_iff.mpr rfl⟩, rfl⟩)
    exact h.tracked.lists.placed i e he ▸ he
  page := by
    intro pg hpg
    obtain ⟨key, hk⟩ := h.tracked.lists.named pg hpg
    exact ⟨key, hk, h.entries_eq (h.tracked.mem.mpr ⟨hpg, hk⟩)⟩

theorem Single.write (h : Single cacheSize s lru free) (hN : 2 ≤ cacheSize) (hl : s.Linked)
    (key : Key) (copyLen : Nat) (src : Nat → UInt8) : ∃ s' pg kept free',
      (PageStep.write key copyLen src).act s = .ok s' ∧ lru = kept ++ s.victims.reverse ∧
      Tracked s' (pg :: kept) free' ∧ s'.cacheSize = cacheSize ∧ ∀ key', s'.entries key' =
        if key' = key then pg :: s.pagesOf kept key' else s.pagesOf kept key' := by
  obtain ⟨s', pg, kept, free', heq, rfl, hf⟩ := uwritePage_spec h.tracked.lists (h.size.symm ▸ hN)
    hl h.tracked.holders key copyLen src
  have htracked := h.tracked.fill h.whole hf
  refine ⟨s', pg, kept, free', heq, rfl, htracked, hf.size.trans h.size, fun key' => ?_⟩
  rw [htracked.entries, pagesOf_cons hf.named, pagesOf_congr fun i hi => (hf.others i hi).1]

theorem Single.kept_le (h : Single cacheSize s (kept ++ s.victims.reverse) free) (key : Key) :
    (s.pagesOf kept key).length ≤ 1 := by
  have hle := h.unique key
  rw [h.tracked.entries, pagesOf_append, List.length_append] at hle
  omega

theorem Single.act (h : Single cacheSize s lru free) (hN : 2 ≤ cacheSize) (hr : Replacing step s) :
    ∃ s' lru' free', step.act s = .ok s' ∧ Single cacheSize s' lru' free' := by
  cases step with
  | write key copyLen src =>
      obtain ⟨s', pg, kept, free', heq, rfl, htracked, hsize, hentries⟩ :=
        h.write hN hr.1 key copyLen src
      refine ⟨s', _, free', heq, htracked, hsize, fun key' => ?_⟩
      rw [hentries]
      split
      · rename_i hkey
        have hnil : s.pagesOf kept key' = [] := by
          refine List.eq_nil_iff_forall_not_mem.mpr fun i hi => ?_
          obtain ⟨hi, hk⟩ := mem_pagesOf.mp hi
          have hm : i ∈ s.entries key := h.tracked.mem.mpr ⟨by simp [hi], hkey ▸ hk⟩
          exact victims_not_kept h.tracked.lists i hi (hr.2 i hm)
        simp [hnil]
      · exact h.kept_le key'
  | read key =>
      cases he : s.entries key with
      | nil =>
          obtain ⟨s', pg, kept, free', heq, rfl, hf⟩ := ureadPage_miss h.tracked.lists
            (h.size.symm ▸ hN) (hr he) h.tracked.holders he
          have htracked := h.tracked.fill h.whole hf
          refine ⟨s', _, free', ?_, htracked, hf.size.trans h.size, fun key' => ?_⟩
          · simp only [PageStep.act, heq, bind, Except.bind, pure, Except.pure]
          · rw [hf.entries]
            by_cases hkey : key' = key
            · simp [hkey, he]
            · rw [if_neg hkey, List.length_drop]
              exact (Nat.sub_le _ _).trans (h.unique key')
      | cons pg rest =>
          obtain ⟨⟨lru', htracked, -⟩, hquiet, htable, -⟩ := h.tracked.hit he
          refine ⟨moveToLruHead s pg, lru', free, ?_, htracked, hquiet.size.trans h.size,
            fun key' => ?_⟩
          · simp only [PageStep.act, ureadPage_hit he, bind, Except.bind, pure, Except.pure]
          · rw [entries_congr hquiet.size htable]
            exact h.unique key'

-- Whatever its links, a page that is removed takes its own entry along and no other.
theorem Single.remove (h : Single cacheSize s lru free) (hpg : pg ∈ lru) :
    ∃ s', removeFromLru s pg = .ok s' ∧ ∀ key, s'.entries key = (s.entries key).filter (· ≠ pg) := by
  obtain ⟨key, hk⟩ := h.tracked.lists.named pg hpg
  have he := h.entries_eq (h.tracked.mem.mpr ⟨hpg, hk⟩)
  obtain ⟨table, hr, -, hentries⟩ := hashTableRemove_spec hk h.tracked.lists.placed (by simp [he])
  have hself : s.prev pg ≠ some pg := by
    obtain ⟨left, right, rfl⟩ := List.append_of_mem hpg
    by_cases hp : s.prev pg = none
    · simp [hp]
    · rw [h.tracked.lists.links.prev_eq hp]
      exact fun hlast => h.tracked.lists.neighbours.2.1 (List.mem_of_getLast? hlast)
  refine ⟨_, removeFromLru_eq hself hr, fun key' => ?_⟩
  have htable : State.entries { unlinkPage s pg with hashTable := table } key' =
      State.entries { s with hashTable := table } key' := entries_congr rfl rfl key'
  rw [htable, hentries]
  by_cases hkey : key' = key
  · rw [if_pos hkey, hkey, he]
    simp
  · rw [if_neg hkey]
    refine (List.filter_eq_self.mpr fun i hi => ?_).symm
    have hne : i ≠ pg := fun heq => by
      have hki := (h.tracked.mem.mp hi).2
      rw [heq, hk] at hki
      exact hkey (Option.some.inj hki).symm
    simpa using hne

end Invariant

theorem single_of_reachable (hN : 2 ≤ cacheSize)
    (h : (paging cacheSize).Reachable (Call.Through Replacing) s) :
    ∃ lru free, Single cacheSize s lru free := by
  refine System.Reachable.invariant (I := fun s => ∃ lru free, Single cacheSize s lru free) h
    (fun s hs => ?_) (fun s s' c hs _ hr hact => ?_)
  · obtain ⟨store, rfl⟩ := hs
    obtain ⟨-, hsize, -, hentries⟩ := initPageCache_spec cacheSize store
    exact ⟨[], _, Tracked.init cacheSize store, hsize, fun key => by rw [hentries]; simp⟩
  · obtain ⟨lru, free, hsingle⟩ := id hs
    have hpos : 0 < s.cacheSize := by
      rw [hsingle.size]
      omega
    refine Call.keeps (I := fun s => ∃ lru free, Single cacheSize s lru free) hpos
      (fun step s hs hr => ?_) (fun s d hs => ?_) hs hr hact
    · obtain ⟨lru, free, hs⟩ := hs
      obtain ⟨s', lru', free', hact, hs'⟩ := hs.act hN hr
      exact ⟨s', hact, lru', free', hs'⟩
    · obtain ⟨lru, free, hs⟩ := hs
      exact ⟨lru, free, hs.tracked.store d, hs.size, hs.unique⟩

-- In every run in which no page is written while a page of its key stays in the cache, the
-- table and the list correspond, and a page that is removed takes its own entry along. A
-- write of a page puts a second entry beside each one that stays.
theorem one_entry_each (hN : 2 ≤ cacheSize)
    (h : (paging cacheSize).Reachable (Call.Through Replacing) s) : ∃ lru free,
    Corresponds s lru free ∧
    (∀ pg ∈ lru, ∃ s', removeFromLru s pg = .ok s' ∧
      ∀ key, s'.entries key = (s.entries key).filter (· ≠ pg)) ∧
    ∀ key copyLen src, s.Linked → ∃ s', (PageStep.write key copyLen src).act s = .ok s' ∧
      ((s'.entries key).length ≤ 1 ↔ ∀ i ∈ s.entries key, i ∈ s.victims) := by
  obtain ⟨lru, free, hs⟩ := single_of_reachable hN h
  refine ⟨lru, free, hs.corresponds, fun pg hpg => hs.remove hpg, fun key copyLen src hl => ?_⟩
  obtain ⟨s', pg, kept, free', heq, rfl, -, -, hentries⟩ := hs.write hN hl key copyLen src
  refine ⟨s', heq, ?_⟩
  rw [hentries, if_pos rfl, List.length_cons]
  constructor
  · intro hle i hi
    have hnil : s.pagesOf kept key = [] := List.eq_nil_of_length_eq_zero (by omega)
    rw [hs.tracked.entries, pagesOf_append, hnil, List.nil_append, mem_pagesOf] at hi
    exact List.mem_reverse.mp hi.1
  · intro hall
    have hnil : s.pagesOf kept key = [] := List.eq_nil_iff_forall_not_mem.mpr fun i hi => by
      obtain ⟨hi, hk⟩ := mem_pagesOf.mp hi
      exact victims_not_kept hs.tracked.lists i hi (hall i (hs.tracked.mem.mpr ⟨by simp [hi], hk⟩))
    simp [hnil]

-- The page that is written again is the one that the full cache evicts for it.
def replaceRun : List Call := [pageWrite 0 1, pageWrite 1 2, pageWrite 0 3]

theorem one_entry_each_replaceRun : ∃ (s : State) (lru free : List Nat),
    s.store.writes.length = 1 ∧ Corresponds s lru free := by
  obtain ⟨s, hs, hp⟩ := (System.Reachable.start
    (S := (paging 2).restrict (Call.Through Replacing)) ⟨emptyStore, rfl⟩).exists_run
    (fun _ _ _ => trivial)
    (show _ = true from (by decide +kernel : (((paging 2).restrict (Call.Through Replacing)).run
      (initPageCache 2 emptyStore) replaceRun).any (fun s => s.store.writes.length == 1) = true))
  obtain ⟨lru, free, hc, -⟩ := one_entry_each (by decide) hs.of_restrict
  exact ⟨s, lru, free, by simpa using hp, hc⟩

-- One page written twice, as main does.
theorem rewrite_doubles : ∃ s, (paging 2).Reachable System.Always s ∧
    ¬ ∃ lru free, Corresponds s lru free := by
  obtain ⟨s, hs, hp⟩ := (System.Reachable.start (S := paging 2) ⟨emptyStore, rfl⟩).exists_run
    (fun _ _ _ => trivial)
    (show _ = true from (by decide +kernel : ((paging 2).run (initPageCache 2 emptyStore)
      [pageWrite 227193 97, pageWrite 227193 97]).any
        (fun s => (s.entries (fileA, 227193)).length == 2) = true))
  refine ⟨s, hs, fun hc => ?_⟩
  obtain ⟨lru, free, hc⟩ := hc
  have hle := hc.unique (fileA, 227193)
  rw [beq_iff_eq.mp hp] at hle
  omega

end UserPageCache.PageCache
