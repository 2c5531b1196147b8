import Mathlib.Algebra.BigOperators.Group.Finset.Basic
import UserPageCache.PageCache.Coverage
import UserPageCache.PageCache.Eviction

namespace UserPageCache.PageCache

open Linked

-- Both arrays are freed and may hold anything afterwards; the other globals stay.
def exitPageCache (memMap : Nat → Page) (physBase : Nat → Frame) (s : State) : State :=
  { s with memMap := memMap, physBase := physBase }

-- On whatever the globals hold; the new mem_map begins at `base`.
def initPageCacheAt (base : Nat) (store : Store) (s : State) : State :=
  ((List.range s.cacheSize).map (base + ·)).foldl pushFree
    { s with
      memMap := fun i => if base ≤ i ∧ i < base + s.cacheSize then zeroPage else s.memMap i
      physBase := fun i => if base ≤ i ∧ i < base + s.cacheSize then zeroFrame else s.physBase i
      store := store }

-- What a page cache should be once it is initialised.
structure Fresh (base : Nat) (s : State) : Prop where
  lru : s.lruList = ⟨none, none⟩
  table : ∀ i < s.cacheSize, s.hashTable i = []
  count : s.freeList.nrFree = s.cacheSize
  free : ∃ free, Seg s.next s.freeList.head free none ∧
    free.Perm ((List.range s.cacheSize).map (base + ·))

-- The entries on all chains.
def State.entryCount (s : State) : Nat := ∑ i ∈ Finset.range s.cacheSize, (s.hashTable i).length

-- The free pages and those in the hash table.
def State.held (s : State) : Nat := s.freeList.nrFree + s.entryCount

section Init

variable {s : State} {base : Nat} {pages : List Nat}

theorem foldl_pushFree_globals : (pages.foldl pushFree s).freeList.nrFree =
      s.freeList.nrFree + pages.length ∧ (pages.foldl pushFree s).hashTable = s.hashTable ∧
    (pages.foldl pushFree s).lruList = s.lruList ∧
    (pages.foldl pushFree s).cacheSize = s.cacheSize := by
  induction pages generalizing s with
  | nil => exact ⟨rfl, rfl, rfl, rfl⟩
  | cons pg rest ih =>
      obtain ⟨hcount, htable, hlru, hsize⟩ := ih (s := pushFree s pg)
      rw [List.foldl_cons, hcount, htable, hlru, hsize, List.length_cons]
      have hone : (pushFree s pg).freeList.nrFree = s.freeList.nrFree + 1 := rfl
      exact ⟨by omega, rfl, rfl, rfl⟩

-- What init_page_cache makes of the globals.
theorem initPageCacheAt_globals (base : Nat) (store : Store) (s : State) :
    (initPageCacheAt base store s).freeList.nrFree = s.freeList.nrFree + s.cacheSize ∧
      (initPageCacheAt base store s).hashTable = s.hashTable ∧
      (initPageCacheAt base store s).lruList = s.lruList ∧
      (initPageCacheAt base store s).cacheSize = s.cacheSize := by
  obtain ⟨hcount, htable, hlru, hsize⟩ := foldl_pushFree_globals
    (s := { s with
      memMap := fun i => if base ≤ i ∧ i < base + s.cacheSize then zeroPage else s.memMap i
      physBase := fun i => if base ≤ i ∧ i < base + s.cacheSize then zeroFrame else s.physBase i
      store := store })
  rw [List.length_map, List.length_range] at hcount
  exact ⟨hcount, htable, hlru, hsize⟩

def zeroGlobals (cacheSize : Nat) (store : Store) : State :=
  ⟨cacheSize, fun _ => zeroPage, fun _ => zeroFrame, ⟨none, none⟩, ⟨none, 0⟩, fun _ => [], store⟩

theorem initPageCache_eq (cacheSize : Nat) (store : Store) : initPageCache cacheSize store =
    initPageCacheAt 0 store (zeroGlobals cacheSize store) := by
  unfold initPageCacheAt zeroGlobals
  simp only [ite_self, Nat.zero_add, List.map_id']
  rfl

-- The first time all is as it should be.
theorem initPageCache_fresh (cacheSize : Nat) (store : Store) :
    Fresh 0 (initPageCache cacheSize store) := by
  obtain ⟨hlists, hsize, -, -⟩ := initPageCache_spec cacheSize store
  obtain ⟨-, htable, hlru, -⟩ := initPageCacheAt_globals 0 store (zeroGlobals cacheSize store)
  rw [← initPageCache_eq] at htable hlru
  refine ⟨hlru, fun i _ => by rw [htable]; rfl, ?_, _, hlists.frees, ?_⟩
  · rw [hlists.count, hsize, List.length_reverse, List.length_range]
  · rw [hsize]
    simp [List.reverse_perm]

end Init

section Counts

variable {s s' : State} {pg i n : Nat}

theorem entryCount_setBucket (hi : i < s.cacheSize) (chain : List HashEntry) :
    (setBucket s i chain).entryCount + (s.hashTable i).length = s.entryCount + chain.length := by
  have hmem : i ∈ Finset.range s.cacheSize := Finset.mem_range.mpr hi
  have hrest : ∑ j ∈ (Finset.range s.cacheSize).erase i,
      (Function.update s.hashTable i chain j).length =
        ∑ j ∈ (Finset.range s.cacheSize).erase i, (s.hashTable j).length :=
    Finset.sum_congr rfl fun j hj => by rw [Function.update_of_ne (Finset.ne_of_mem_erase hj)]
  have hold := Finset.add_sum_erase _ (fun j => (s.hashTable j).length) hmem
  have hnew := Finset.add_sum_erase _ (fun j => (Function.update s.hashTable i chain j).length) hmem
  simp only [Function.update_self] at hold hnew
  unfold State.entryCount
  change ∑ j ∈ Finset.range s.cacheSize, (Function.update s.hashTable i chain j).length + _ = _
  omega

theorem hashFunction_lt (hN : 0 < s.cacheSize) (path : CString) (index : Nat) :
    hashFunction s path index < s.cacheSize := Nat.mod_lt _ hN

theorem hashTableInsert_held (hN : 0 < s.cacheSize) (h : hashTableInsert s pg = .ok s') :
    s'.cacheSize = s.cacheSize ∧ s'.held = s.held + 1 := by
  unfold hashTableInsert at h
  cases hp : (s.memMap pg).pathName with
  | none => simp [hp] at h
  | some path =>
      simp only [hp, Except.ok.injEq] at h
      subst h
      have hcount := entryCount_setBucket (hashFunction_lt hN path (s.memMap pg).index)
        (⟨path, (s.memMap pg).index, pg⟩ :: s.hashTable (hashFunction s path (s.memMap pg).index))
      refine ⟨rfl, ?_⟩
      unfold State.held
      rw [List.length_cons] at hcount
      change s.freeList.nrFree + _ = _
      omega

theorem hashTableRemove_held {rc : Nat} (hN : 0 < s.cacheSize) (hrc : rc ≠ 1)
    (h : hashTableRemove s pg = .ok (s', rc)) : s'.cacheSize = s.cacheSize ∧
      s'.freeList = s.freeList ∧ s'.entryCount + 1 = s.entryCount := by
  unfold hashTableRemove at h
  cases hp : (s.memMap pg).pathName with
  | none => simp [hp] at h
  | some path =>
      simp only [hp] at h
      split at h
      · rename_i hany
        have hs : setBucket s _ _ = s' := congrArg Prod.fst (Except.ok.inj h)
        subst hs
        have hcount := entryCount_setBucket (hashFunction_lt hN path (s.memMap pg).index)
          ((s.hashTable (hashFunction s path (s.memMap pg).index)).eraseP
            (·.same path (s.memMap pg).index))
        obtain ⟨e, he, hsame⟩ := List.any_eq_true.mp hany
        have hone := List.length_eraseP_of_mem (p := (·.same path (s.memMap pg).index)) he hsame
        have hpos := List.length_pos_of_mem he
        exact ⟨rfl, rfl, by omega⟩
      · exact absurd (congrArg Prod.snd (Except.ok.inj h)).symm hrc

theorem addToLruHead_held (hN : 0 < s.cacheSize) (h : addToLruHead s pg = .ok s') :
    s'.cacheSize = s.cacheSize ∧ s'.held = s.held + 1 := by
  rw [addToLruHead_eq] at h
  exact hashTableInsert_held (s := linkHead s pg) hN h

-- A page that leaves the list takes one entry along and becomes free.
theorem removeFromLru_held (hN : 0 < s.cacheSize) (h : removeFromLru s pg = .ok s') :
    s'.cacheSize = s.cacheSize ∧ s'.freeList.nrFree = s.freeList.nrFree + 1 ∧ s'.held = s.held := by
  unfold removeFromLru at h
  obtain ⟨⟨s₁, rc⟩, hr, h⟩ := bind_eq_ok.mp h
  by_cases hrc : rc = 1
  · simp [hrc, throw, throwThe, MonadExceptOf.throw, bind, Except.bind] at h
  · obtain ⟨hsize, hfree, hcount⟩ := hashTableRemove_held hN hrc hr
    simp only [hrc, ite_false, bind, Except.bind, pure, Except.pure] at h
    have hs := Except.ok.inj h
    have hkept : s'.hashTable = s₁.hashTable ∧ s'.cacheSize = s₁.cacheSize ∧
        s'.freeList.nrFree = s₁.freeList.nrFree + 1 := by
      rw [← hs]
      cases (s₁.memMap pg).prev with
      | none => simp [closeNext_eq, setHead, pushFree, setNext_eq, State.setPage]
      | some p => simp [closeNext_eq, pushFree, setNext_eq, State.setPage]
    obtain ⟨htable, hsize', hfree'⟩ := hkept
    have hsame : s'.entryCount = s₁.entryCount := by
      unfold State.entryCount
      rw [htable, hsize']
    refine ⟨hsize'.trans hsize, by rw [hfree', hfree], ?_⟩
    unfold State.held
    rw [hfree', hfree, hsame]
    omega

theorem held_congr (hsize : s'.cacheSize = s.cacheSize) (hfree : s'.freeList = s.freeList)
    (htable : s'.hashTable = s.hashTable) : s'.held = s.held := by
  unfold State.held State.entryCount
  rw [hsize, hfree, htable]

theorem submitPage_held {operation : SsdCache.Operate} (h : submitPage s operation pg = .ok s') :
    s'.cacheSize = s.cacheSize ∧ s'.freeList = s.freeList ∧ s'.held = s.held := by
  unfold submitPage at h
  cases hp : (s.memMap pg).pathName with
  | none => simp [hp] at h
  | some path =>
      simp only [hp, Except.ok.injEq] at h
      subst h
      exact ⟨rfl, rfl, rfl⟩

theorem evictPage_held (hN : 0 < s.cacheSize) (h : evictPage s = .ok s') :
    s'.cacheSize = s.cacheSize ∧ s'.freeList.nrFree = s.freeList.nrFree + 1 ∧ s'.held = s.held := by
  unfold evictPage at h
  cases ht : s.lruList.tail with
  | none => simp [ht] at h
  | some pg =>
      simp only [ht] at h
      obtain ⟨s₁, hwrite, h⟩ := bind_eq_ok.mp h
      obtain ⟨hsize, hfree, hheld⟩ := submitPage_held hwrite
      cases ht' : s₁.lruList.tail with
      | none => simp [ht', throw, throwThe, MonadExceptOf.throw] at h
      | some pg' =>
          simp only [ht'] at h
          obtain ⟨hsize', hfree', hheld'⟩ := removeFromLru_held (hsize.symm ▸ hN) h
          exact ⟨hsize'.trans hsize, by rw [hfree', hfree], hheld'.trans hheld⟩

theorem evictPages_held (hN : 0 < s.cacheSize) (h : evictPages n s = .ok s') :
    s'.cacheSize = s.cacheSize ∧ s'.freeList.nrFree = s.freeList.nrFree + n ∧ s'.held = s.held := by
  induction n generalizing s with
  | zero =>
      obtain rfl := Except.ok.inj h
      exact ⟨rfl, rfl, rfl⟩
  | succ n ih =>
      obtain ⟨s₁, hone, hrest⟩ := bind_eq_ok.mp h
      obtain ⟨hsize, hfree, hheld⟩ := evictPage_held hN hone
      obtain ⟨hsize', hfree', hheld'⟩ := ih (hsize.symm ▸ hN) hrest
      exact ⟨hsize'.trans hsize, by omega, hheld'.trans hheld⟩

theorem popFree_held (hfree : s.freeList.nrFree ≠ 0) (h : popFree s = .ok (s', pg)) :
    s'.cacheSize = s.cacheSize ∧ s'.held + 1 = s.held := by
  unfold popFree at h
  cases hhead : s.freeList.head with
  | none => simp [hhead] at h
  | some first =>
      simp only [hhead, Except.ok.injEq, Prod.mk.injEq] at h
      obtain ⟨rfl, rfl⟩ := h
      refine ⟨rfl, ?_⟩
      change s.freeList.nrFree - 1 + s.entryCount + 1 = s.freeList.nrFree + s.entryCount
      omega

-- alloc_page takes one page out of those held.
theorem allocPage_held (hN : 2 ≤ s.cacheSize) (h : allocPage s = .ok (s', pg)) :
    s'.cacheSize = s.cacheSize ∧ s'.held + 1 = s.held := by
  by_cases h0 : s.freeList.nrFree = 0
  · obtain ⟨s₁, hevict, hpop⟩ := bind_eq_ok.mp ((if_pos h0).symm.trans h)
    obtain ⟨hsize, hfree, hheld⟩ := evictPages_held (by omega) hevict
    obtain ⟨hsize', hheld'⟩ := popFree_held (by omega) hpop
    exact ⟨hsize'.trans hsize, by omega⟩
  · have hpop : popFree s = .ok (s', pg) := (if_neg h0).symm.trans h
    exact popFree_held h0 hpop

theorem moveToLruHead_globals (s : State) (pg : Nat) :
    (moveToLruHead s pg).cacheSize = s.cacheSize ∧ (moveToLruHead s pg).freeList = s.freeList ∧
      (moveToLruHead s pg).hashTable = s.hashTable := by
  unfold moveToLruHead
  cases (s.memMap pg).prev with
  | none => exact ⟨rfl, rfl, rfl⟩
  | some p => simp [closeNext_eq, setHead, setPrev_eq, setNext_eq]

-- Every page that comes into the cache is held again.
theorem PageStep.held {step : PageStep} (hN : 2 ≤ s.cacheSize) (h : step.act s = .ok s') :
    s'.cacheSize = s.cacheSize ∧ s'.held = s.held := by
  cases step with
  | write key copyLen src =>
      obtain ⟨⟨s₁, pg⟩, halloc, hadd⟩ := bind_eq_ok.mp h
      obtain ⟨hsize, hheld⟩ := allocPage_held hN halloc
      obtain ⟨hsize', hheld'⟩ := addToLruHead_held (by change 0 < s₁.cacheSize; omega) hadd
      exact ⟨hsize'.trans hsize, hheld'.trans hheld⟩
  | read key =>
      obtain ⟨⟨s₂, pg⟩, hread, hr⟩ := bind_eq_ok.mp h
      obtain rfl : s₂ = s' := Except.ok.inj hr
      unfold ureadPage at hread
      cases hlookup : hashTableLookup s key.1 key.2 with
      | some e =>
          rw [hlookup] at hread
          obtain rfl : moveToLruHead s e.pagePtr = s₂ := congrArg Prod.fst (Except.ok.inj hread)
          obtain ⟨hsize, hfree, htable⟩ := moveToLruHead_globals s e.pagePtr
          exact ⟨hsize, held_congr hsize hfree htable⟩
      | none =>
          rw [hlookup] at hread
          obtain ⟨⟨s₁, pg'⟩, halloc, hread⟩ := bind_eq_ok.mp hread
          obtain ⟨s₃, hpio, hread⟩ := bind_eq_ok.mp hread
          obtain ⟨s₄, hadd, hread⟩ := bind_eq_ok.mp hread
          obtain rfl : s₄ = s₂ := congrArg Prod.fst (Except.ok.inj hread)
          obtain ⟨hsize, hheld⟩ := allocPage_held hN halloc
          obtain ⟨hsize₃, -, hheld₃⟩ := submitPage_held hpio
          obtain ⟨hsize₄, hheld₄⟩ := addToLruHead_held (by
            rw [hsize₃]
            change 0 < s₁.cacheSize
            omega) hadd
          refine ⟨hsize₄.trans (hsize₃.trans hsize), ?_⟩
          change s₃.held = s₁.held at hheld₃
          omega

end Counts

section Runs

variable {s s' : State} {c : Call} {cacheSize : Nat}

-- The pages of a call that returns all come in.
theorem Call.returns (h : c.act s = .ok s') : c.Through Returns s := by
  cases c with
  | uwrite stream buffer size count =>
      obtain ⟨⟨s₁, n⟩, heq, -⟩ := bind_eq_ok.mp h
      by_cases hmode : stream.mode &&& U_OWRITE = 0
      · unfold Call.Through
        rw [show (Call.uwrite stream buffer size count).steps s.cacheSize = [] from if_pos (.inl hmode)]
        trivial
      · by_cases hlong : s.cacheSize < dataPages (dataLen size count)
        · unfold Call.Through
          rw [show (Call.uwrite stream buffer size count).steps s.cacheSize = [] from
            if_pos (.inr hlong)]
          trivial
        · exact uwrite_through hmode (Nat.not_lt.mp hlong) heq
  | uread stream buffer size count first =>
      obtain ⟨⟨s₁, buffer', n⟩, heq, -⟩ := bind_eq_ok.mp h
      obtain ⟨-, ⟨-, hlen⟩ | ⟨hlong, -⟩⟩ := uread_cases heq
      · exact uread_returns heq hlen
      · unfold Call.Through
        rw [show (Call.uread stream buffer size count first).steps s.cacheSize = [] from if_pos hlong]
        trivial

theorem held_of_reachable (hN : 2 ≤ cacheSize) (h : (paging cacheSize).Reachable System.Always s) :
    s.cacheSize = cacheSize ∧ s.held = cacheSize := by
  refine h.invariant (I := fun s => s.cacheSize = cacheSize ∧ s.held = cacheSize) (fun s hs => ?_)
    (fun s s' c hs _ _ hact => ?_)
  · obtain ⟨store, rfl⟩ := hs
    obtain ⟨-, htable, hcount, -⟩ := initPageCache_fresh cacheSize store
    have hsize := (initPageCache_spec cacheSize store).2.1
    refine ⟨hsize, ?_⟩
    unfold State.held State.entryCount
    rw [hcount, Finset.sum_eq_zero fun i hi => ?_, hsize, Nat.add_zero]
    rw [htable i (Finset.mem_range.mp hi), List.length_nil]
  · have hpos : 0 < s.cacheSize := by omega
    refine Call.keeps (I := fun s => s.cacheSize = cacheSize ∧ s.held = cacheSize) hpos
      (fun step s hs ⟨s', hstep⟩ => ?_) (fun s d hs => hs) hs (Call.returns hact) hact
    obtain ⟨hsize, hheld⟩ := PageStep.held (by omega) hstep
    exact ⟨s', hstep, hsize.trans hs.1, hheld.trans hs.2⟩

end Runs

-- Whatever has run, the second init_page_cache finds the counts of the first run, and adds to
-- them: either the hash table is not empty or more pages are free than there are.
theorem restart_never_fresh {cacheSize base : Nat} {s : State} (hN : 2 ≤ cacheSize)
    (h : (paging cacheSize).Reachable System.Always s) (memMap : Nat → Page)
    (physBase : Nat → Frame) (store : Store) :
    (initPageCacheAt base store (exitPageCache memMap physBase s)).held = 2 * cacheSize ∧
      ¬ Fresh base (initPageCacheAt base store (exitPageCache memMap physBase s)) := by
  obtain ⟨hsize, hheld⟩ := held_of_reachable hN h
  obtain ⟨hcount, htable, -, hsize'⟩ :=
    initPageCacheAt_globals base store (exitPageCache memMap physBase s)
  have hdouble : (initPageCacheAt base store (exitPageCache memMap physBase s)).held =
      2 * cacheSize := by
    unfold State.held State.entryCount at hheld ⊢
    rw [hcount, htable, hsize']
    change s.freeList.nrFree + s.cacheSize + ∑ i ∈ Finset.range s.cacheSize, (s.hashTable i).length = _
    omega
  refine ⟨hdouble, fun hfresh => ?_⟩
  unfold State.held State.entryCount at hdouble
  rw [hfresh.count, Finset.sum_eq_zero fun i hi => ?_] at hdouble
  · rw [hsize'] at hdouble
    change s.cacheSize + 0 = _ at hdouble
    omega
  · rw [hfresh.table i (Finset.mem_range.mp hi), List.length_nil]

theorem restart_never_fresh_boot : ∃ s, (paging CACHE_SIZE).start s ∧ ¬ Fresh CACHE_SIZE
    (initPageCacheAt CACHE_SIZE emptyStore
      (exitPageCache (fun _ => zeroPage) (fun _ => zeroFrame) s)) := by
  obtain ⟨s, hstart, -⟩ := paging_start CACHE_SIZE
  exact ⟨s, hstart, (restart_never_fresh (by decide) (.start hstart) _ _ _).2⟩

-- One page is written, and after the restart the list still begins with the freed page.
theorem restart_keeps_freed_page : ∃ s, (paging 2).Reachable System.Always s ∧
    (initPageCacheAt 2 emptyStore
      (exitPageCache (fun _ => zeroPage) (fun _ => zeroFrame) s)).lruList.head = some 1 ∧
    (initPageCacheAt 2 emptyStore
      (exitPageCache (fun _ => zeroPage) (fun _ => zeroFrame) s)).freeList.nrFree = 3 := by
  obtain ⟨s, hs, hp⟩ := (System.Reachable.start (S := paging 2) ⟨emptyStore, rfl⟩).exists_run
    (fun _ _ _ => trivial)
    (show _ = true from (by decide +kernel : ((paging 2).run (initPageCache 2 emptyStore)
      [pageWrite 0 1]).any (fun s => (initPageCacheAt 2 emptyStore
        (exitPageCache (fun _ => zeroPage) (fun _ => zeroFrame) s)).lruList.head == some 1 &&
        (initPageCacheAt 2 emptyStore
          (exitPageCache (fun _ => zeroPage) (fun _ => zeroFrame) s)).freeList.nrFree == 3) = true))
  simp only [Bool.and_eq_true, beq_iff_eq] at hp
  exact ⟨s, hs, hp⟩

end UserPageCache.PageCache
