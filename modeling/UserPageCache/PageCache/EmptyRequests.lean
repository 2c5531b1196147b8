import UserPageCache.PageCache.Lengths
import UserPageCache.PageCache.Loss

namespace UserPageCache.PageCache

variable {s s' : State} {pg : Nat} {path : CString} {index copyLen : Nat} {src : Nat → UInt8}

section Pages

theorem foldl_pageOut_length {pages : List Nat} (hk : ∀ i ∈ pages, s.keyAt i ≠ none) (d : Store) :
    (pages.foldl (pageOut s) d).log.length = d.log.length + pages.length := by
  induction pages generalizing d with
  | nil => rfl
  | cons pg rest ih =>
      rw [List.foldl_cons, ih (fun i hi => hk i (List.mem_cons_of_mem _ hi)),
        (pageOut_log (hk pg List.mem_cons_self) d).1, List.length_cons]
      omega

theorem popFree_takes (h : popFree s = .ok (s', pg)) :
    s'.freeList.nrFree = s.freeList.nrFree - 1 := by
  unfold popFree at h
  cases hhead : s.freeList.head with
  | none => simp [hhead] at h
  | some first =>
      simp only [hhead, Except.ok.injEq, Prod.mk.injEq] at h
      obtain ⟨rfl, rfl⟩ := h
      rfl

theorem addToLruHead_keeps (h : addToLruHead s pg = .ok s') :
    s'.store = s.store ∧ s'.freeList = s.freeList := by
  rw [addToLruHead_eq] at h
  unfold hashTableInsert at h
  cases hp : ((linkHead s pg).memMap pg).pathName with
  | none => simp [hp] at h
  | some pathName =>
      simp only [hp, Except.ok.injEq] at h
      subst h
      exact ⟨rfl, rfl⟩

-- A page that uwrite takes is missing from the free list or has cost a write to the store.
theorem uwritePage_takes (hN : 2 ≤ s.cacheSize) (h : uwritePage path s index copyLen src = .ok s') :
    s.store.log.length < s'.store.log.length ∨ s'.freeList.nrFree < s.freeList.nrFree := by
  unfold uwritePage at h
  obtain ⟨⟨s₁, pg⟩, halloc, h⟩ := bind_eq_ok.mp h
  obtain ⟨hstore, hfree⟩ := addToLruHead_keeps h
  obtain ⟨hlen, -, -, -, hlog, hnamed, -⟩ := allocPage_ok halloc
  rw [hstore, hfree]
  by_cases h0 : s.freeList.nrFree = 0
  · left
    rw [if_pos h0] at hlen
    have hgrown := foldl_pageOut_length (fun i hi => (hnamed i hi).1) s.store
    rw [← hlog] at hgrown
    change s.store.log.length < s₁.store.log.length
    omega
  · right
    have hpop : popFree s = .ok (s₁, pg) := (if_neg h0).symm.trans halloc
    change s₁.freeList.nrFree < s.freeList.nrFree
    rw [popFree_takes hpop]
    omega

end Pages

-- A request of no bytes changes nothing and returns zero exactly if it is a write to a stream
-- that may not be written or a read of items of some size.
theorem empty_request_iff {stream : UFile} {size count : Nat} (hN : 2 ≤ s.cacheSize)
    (hempty : size * count = 0) (buffer : Nat → UInt8) (first : Bool) :
    (uwrite s buffer size count stream = .ok (s, 0) ↔ stream.mode &&& U_OWRITE = 0) ∧
    (uread s buffer size count stream first = .ok (s, buffer, 0) ↔ size ≠ 0) := by
  have hdata : dataLen size count = 0 := by
    unfold dataLen
    rw [hempty]
    rfl
  have hfit : ¬ s.cacheSize < dataPages (dataLen size count) := by
    rw [hdata]
    exact Nat.not_lt_zero _
  refine ⟨⟨fun h => ?_, fun hmode => if_pos hmode⟩, fun h => (uread_cases h).1, fun hsize => ?_⟩
  · by_contra hmode
    unfold uwrite at h
    rw [if_neg hmode] at h
    obtain ⟨r, hpages, h⟩ := bind_eq_ok.mp ((if_neg hfit).symm.trans h)
    rw [hdata] at hpages
    unfold uwritePages at hpages
    obtain ⟨s', hpage, hpages⟩ := bind_eq_ok.mp hpages
    obtain rfl := Except.ok.inj hpages
    obtain ⟨q, -, h⟩ := bind_eq_ok.mp h
    obtain rfl : s' = s := congrArg Prod.fst (Except.ok.inj h)
    have htaken := uwritePage_takes hN hpage
    omega
  · unfold uread
    refine (if_neg hfit).trans ?_
    rw [hdata]
    unfold ureadPages
    rw [if_neg (Nat.lt_irrefl 0)]
    change Except.bind (quotient _ size) _ = _
    rw [quotient_ok hsize, Nat.zero_div]
    rfl

section Runs

theorem empty_request_start : ∃ s, (paging CACHE_SIZE).start s ∧
    ∀ buffer first, uread s buffer 1 0 (streamA 0) first = .ok (s, buffer, 0) := by
  obtain ⟨s, hstart, hs⟩ := paging_start CACHE_SIZE
  exact ⟨s, hstart, fun buffer first =>
    (empty_request_iff (by rw [hs]; decide) rfl buffer first).2.mpr Nat.one_ne_zero⟩

-- What a read of a page nobody has written finds once no byte has been written to it.
def exposed (s : State) : Option UInt8 :=
  match uwrite s (fun _ => 0) 1 0 (streamA (2 * PAGE_SIZE)) with
  | .ok (s', _) =>
    match uread s' (fun _ => 0) 1 PAGE_SIZE (streamA (2 * PAGE_SIZE)) true with
    | .ok (_, buffer', _) => some (buffer' 0)
    | .error _ => none
  | .error _ => none

-- It is the byte of another page that the empty write has evicted.
theorem empty_write_exposes : ∃ s s' s'' buffer' n n', (paging 2).Reachable System.Always s ∧
    uwrite s (fun _ => 0) 1 0 (streamA (2 * PAGE_SIZE)) = .ok (s', n) ∧
    uread s' (fun _ => 0) 1 PAGE_SIZE (streamA (2 * PAGE_SIZE)) true = .ok (s'', buffer', n') ∧
    (s.view (fileA, 2)).bytes 0 = 0 ∧ buffer' 0 = 1 := by
  obtain ⟨s, hs, hp⟩ := (System.Reachable.start (S := paging 2) ⟨emptyStore, rfl⟩).exists_run
    (fun _ _ _ => trivial)
    (show _ = true from (by decide +kernel : ((paging 2).run (initPageCache 2 emptyStore)
      [pageWrite 0 1, pageWrite 1 2]).any (fun s =>
        (s.view (fileA, 2)).bytes 0 == 0 && exposed s == some 1) = true))
  simp only [Bool.and_eq_true, beq_iff_eq] at hp
  obtain ⟨hview, hexposed⟩ := hp
  unfold exposed at hexposed
  cases hwrite : uwrite s (fun _ => 0) 1 0 (streamA (2 * PAGE_SIZE)) with
  | error fault => simp [hwrite] at hexposed
  | ok r =>
      obtain ⟨s', n⟩ := r
      simp only [hwrite] at hexposed
      cases hread : uread s' (fun _ => 0) 1 PAGE_SIZE (streamA (2 * PAGE_SIZE)) true with
      | error fault => simp [hread] at hexposed
      | ok r =>
          obtain ⟨s'', buffer', n'⟩ := r
          simp only [hread, Option.some.injEq] at hexposed
          exact ⟨s, s', s'', buffer', n, n', hs, hwrite, hread, hview, hexposed⟩

end Runs

end UserPageCache.PageCache
