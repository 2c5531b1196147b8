import UserPageCache.Lib.Linked
import UserPageCache.PageCache.Paging

namespace UserPageCache.PageCache

open Linked

abbrev Key := CString × Nat

namespace State

variable (s : State)

def next (i : Nat) : Option Nat := (s.memMap i).next

def prev (i : Nat) : Option Nat := (s.memMap i).prev

def keyAt (i : Nat) : Option Key := (s.memMap i).pathName.map (·, (s.memMap i).index)

-- A page marked PG_dirty.
def dirty (i : Nat) : Bool := (s.memMap i).flag &&& PG_dirty != 0

-- The pages that the hash table has for a key, the newest entry first.
def entries (key : Key) : List Nat :=
  ((s.hashTable (hashFunction s key.1 key.2)).filter (·.same key.1 key.2)).map HashEntry.pagePtr

end State

variable {s s' : State} {table : Nat → List HashEntry} {lru free off left right : List Nat} {pg i : Nat} {key : Key}

section Links

theorem setPrev_eq (s : State) (pg p : Option Nat) : setPrev s pg p =
    { s with memMap := fun i =>
        { s.memMap i with prev := if pg = some i then p else (s.memMap i).prev } } := by
  cases pg with
  | none => simp [setPrev]
  | some pg =>
      change s.setPage pg (fun x => { x with prev := p }) = _
      unfold State.setPage
      congr 1
      funext i
      by_cases h : i = pg
      · simp [h]
      · simp [h, Ne.symm h]

theorem setNext_eq (s : State) (pg p : Option Nat) : setNext s pg p =
    { s with memMap := fun i =>
        { s.memMap i with next := if pg = some i then p else (s.memMap i).next } } := by
  cases pg with
  | none => simp [setNext]
  | some pg =>
      change s.setPage pg (fun x => { x with next := p }) = _
      unfold State.setPage
      congr 1
      funext i
      by_cases h : i = pg
      · simp [h]
      · simp [h, Ne.symm h]

theorem closeNext_eq (s : State) (pg : Nat) : closeNext s pg =
    { s with
      memMap := fun i =>
        { s.memMap i with prev := if s.next pg = some i then s.prev pg else (s.memMap i).prev }
      lruList := ⟨s.lruList.head, if s.next pg = none then s.prev pg else s.lruList.tail⟩ } := by
  unfold closeNext State.next State.prev
  cases h : (s.memMap pg).next with
  | none => simp [setTail]
  | some next => simp [setPrev_eq]

-- The list part of add_to_lru_head.
def linkHead (s : State) (pg : Nat) : State :=
  { s with
    memMap := fun i =>
      { s.memMap i with
        flag := if i = pg then (s.memMap i).flag ||| PG_lru else (s.memMap i).flag
        next := if i = pg then s.lruList.head else (s.memMap i).next
        prev := if s.lruList.head = some i then some pg else (s.memMap i).prev }
    lruList := ⟨some pg, if s.lruList.tail = none then some pg else s.lruList.tail⟩ }

theorem lru_flag (flag : Nat) : (flag ||| PG_lru) &&& PG_dirty = flag &&& PG_dirty := by
  rw [Nat.and_or_distrib_right]
  simp [PG_lru, PG_dirty]

theorem linkHead_dirty (i : Nat) : (linkHead s pg).dirty i = s.dirty i := by
  change ((if i = pg then _ else _) &&& PG_dirty != 0) = _
  split
  · rw [lru_flag]
    rfl
  · rfl

theorem addToLruHead_eq (s : State) (pg : Nat) :
    addToLruHead s pg = hashTableInsert (linkHead s pg) pg := by
  unfold addToLruHead linkHead
  simp only [setPrev_eq, setNext_eq, State.setPage, setHead, setTail]
  have hmem : (fun i =>
      { (fun i => { Function.update s.memMap pg
            { s.memMap pg with flag := (s.memMap pg).flag ||| PG_lru } i with
          prev := if s.lruList.head = some i then some pg else
            (Function.update s.memMap pg
              { s.memMap pg with flag := (s.memMap pg).flag ||| PG_lru } i).prev }) i with
        next := if some pg = some i then s.lruList.head else
          (Function.update s.memMap pg
            { s.memMap pg with flag := (s.memMap pg).flag ||| PG_lru } i).next : Page }) =
      fun i => { s.memMap i with
        flag := if i = pg then (s.memMap i).flag ||| PG_lru else (s.memMap i).flag
        next := if i = pg then s.lruList.head else (s.memMap i).next
        prev := if s.lruList.head = some i then some pg else (s.memMap i).prev } := by
    funext i
    by_cases h : i = pg
    · subst h
      simp
    · simp [h, Ne.symm h]
  by_cases ht : s.lruList.tail = none
  · simp only [ht, ite_true]
    rw [← hmem]
  · simp only [ht, ite_false]
    rw [← hmem]

theorem moveToLruHead_eq {p : Nat} (hp : s.prev pg = some p) (hne : p ≠ pg) : moveToLruHead s pg =
    { s with
      memMap := fun i =>
        { s.memMap i with
          next := if i = pg then s.lruList.head else if i = p then s.next pg else s.next i
          prev := if i = pg then none else if s.next pg = some i then some p else s.prev i }
      lruList := ⟨some pg, if s.next pg = none then some p else s.lruList.tail⟩ } := by
  unfold State.next State.prev at *
  unfold moveToLruHead
  rw [hp]
  simp only [setNext_eq, setPrev_eq, closeNext_eq, setHead, State.next, State.prev,
    Option.some.injEq, hne, ite_false, hp]
  congr 1
  funext i
  by_cases h : i = pg
  · simp [h]
  · by_cases h' : i = p
    · simp [h', hne, Ne.symm hne]
    · simp [h, h', Ne.symm h, Ne.symm h']

-- The list part of remove_from_lru.
def unlinkPage (s : State) (pg : Nat) : State :=
  { s with
    memMap := fun i =>
      if i = pg then ⟨0, none, 0, none, s.freeList.head⟩
      else { s.memMap i with
        next := if s.prev pg = some i then s.next pg else s.next i
        prev := if s.next pg = some i then s.prev pg else s.prev i }
    lruList := ⟨if s.prev pg = none then s.next pg else s.lruList.head,
      if s.next pg = none then s.prev pg else s.lruList.tail⟩
    freeList := ⟨some pg, s.freeList.nrFree + 1⟩ }

theorem removeFromLru_eq (hp : s.prev pg ≠ some pg)
    (hr : hashTableRemove s pg = .ok ({ s with hashTable := table }, 0)) :
    removeFromLru s pg = .ok { unlinkPage s pg with hashTable := table } := by
  unfold removeFromLru unlinkPage
  unfold State.next State.prev at *
  simp only [hr, bind, Except.bind, pure, Except.pure, Nat.zero_ne_one, ite_false]
  cases h : (s.memMap pg).prev with
  | none =>
      simp only [setNext_eq, closeNext_eq, setHead, pushFree, State.setPage, State.next, State.prev, h]
      congr 1
      congr 1
      · funext i
        by_cases hi : i = pg
        · simp [hi]
        · simp [hi, Ne.symm hi]
  | some p =>
      have hne : p ≠ pg := fun hpg => hp (by rw [h, hpg])
      simp only [setNext_eq, closeNext_eq, pushFree, State.setPage, State.next, State.prev, h]
      congr 1
      congr 1
      · funext i
        by_cases hi : i = pg
        · simp [hi, hne]
        · simp [hi, Ne.symm hi]
      · simp [hne]

end Links

section HashTable

theorem same_iff {e : HashEntry} {pathName : CString} {index : Nat} :
    e.same pathName index = true ↔ (e.pathName, e.pageIndex) = (pathName, index) := by
  simp [HashEntry.same]

-- Every entry hangs on the chain of its key.
def Placed (s : State) : Prop :=
  ∀ i, ∀ e ∈ s.hashTable i, i = hashFunction s e.pathName e.pageIndex

theorem lookup_entries (s : State) (key : Key) :
    (hashTableLookup s key.1 key.2).map HashEntry.pagePtr = (s.entries key).head? := by
  unfold hashTableLookup State.entries
  rw [← List.head?_filter, List.head?_map]

theorem entries_congr (hs : s'.cacheSize = s.cacheSize) (ht : s'.hashTable = s.hashTable) (key : Key) :
    s'.entries key = s.entries key := by
  unfold State.entries hashFunction
  rw [hs, ht]

theorem Placed.congr (h : Placed s) (hs : s'.cacheSize = s.cacheSize)
    (ht : s'.hashTable = s.hashTable) : Placed s' := by
  intro i e he
  unfold hashFunction
  rw [hs]
  exact h i e (ht ▸ he)

theorem keyAt_some (hk : s.keyAt pg = some key) :
    (s.memMap pg).pathName = some key.1 ∧ (s.memMap pg).index = key.2 := by
  unfold State.keyAt at hk
  obtain ⟨path, hp, rfl⟩ := Option.map_eq_some_iff.mp hk
  exact ⟨hp, rfl⟩

theorem hashTableInsert_spec (hk : s.keyAt pg = some key) (hp : Placed s) :
    ∃ table, hashTableInsert s pg = .ok { s with hashTable := table } ∧
      Placed { s with hashTable := table } ∧ ∀ key', State.entries { s with hashTable := table } key' =
        if key' = key then pg :: s.entries key else s.entries key' := by
  obtain ⟨hpath, hindex⟩ := keyAt_some hk
  refine ⟨_, by simp only [hashTableInsert, hpath, hindex, setBucket]; rfl, ?_, fun key' => ?_⟩
  · intro i e he
    change i = hashFunction s e.pathName e.pageIndex
    by_cases hi : i = hashFunction s key.1 key.2
    · subst hi
      simp only [Function.update_self, List.mem_cons] at he
      rcases he with rfl | he
      · rfl
      · exact hp _ e he
    · simp only [Function.update_of_ne hi] at he
      exact hp i e he
  · unfold State.entries
    change ((Function.update s.hashTable (hashFunction s key.1 key.2) _
      (hashFunction s key'.1 key'.2)).filter _).map _ = _
    by_cases hkey : key' = key
    · subst hkey
      simp [same_iff]
    · rw [if_neg hkey]
      have hnot : HashEntry.same ⟨key.1, key.2, pg⟩ key'.1 key'.2 = false := by
        rw [Bool.eq_false_iff]
        exact fun hsame => hkey (same_iff.mp hsame).symm
      by_cases hi : hashFunction s key'.1 key'.2 = hashFunction s key.1 key.2
      · rw [hi, Function.update_self, List.filter_cons_of_neg (by simp [hnot])]
      · rw [Function.update_of_ne hi]

theorem filter_eraseP_self {α : Type*} (p : α → Bool) (l : List α) :
    (l.eraseP p).filter p = (l.filter p).tail := by
  induction l with
  | nil => rfl
  | cons x rest ih =>
      by_cases hx : p x = true
      · simp [hx]
      · simp [hx, ih]

theorem filter_eraseP_other {α : Type*} (p q : α → Bool) (l : List α)
    (h : ∀ x, p x = true → q x = false) : (l.eraseP p).filter q = l.filter q := by
  induction l with
  | nil => rfl
  | cons x rest ih =>
      by_cases hx : p x = true
      · simp [hx, h x hx]
      · simp [hx, List.filter_cons, ih]

theorem any_entries : (s.hashTable (hashFunction s key.1 key.2)).any (·.same key.1 key.2) =
    true ↔ s.entries key ≠ [] := by
  unfold State.entries
  simp [List.filter_eq_nil_iff]

theorem hashTableRemove_spec (hk : s.keyAt pg = some key) (hp : Placed s)
    (he : s.entries key ≠ []) :
    ∃ table, hashTableRemove s pg = .ok ({ s with hashTable := table }, 0) ∧
      Placed { s with hashTable := table } ∧ ∀ key', State.entries { s with hashTable := table } key' =
        if key' = key then (s.entries key).tail else s.entries key' := by
  obtain ⟨hpath, hindex⟩ := keyAt_some hk
  refine ⟨_, by
    simp only [hashTableRemove, hpath, hindex, any_entries.mpr he, ite_true, setBucket]
    rfl, ?_, fun key' => ?_⟩
  · intro i e hm
    change i = hashFunction s e.pathName e.pageIndex
    by_cases hi : i = hashFunction s key.1 key.2
    · subst hi
      simp only [Function.update_self] at hm
      exact hp _ e (List.mem_of_mem_eraseP hm)
    · simp only [Function.update_of_ne hi] at hm
      exact hp i e hm
  · unfold State.entries
    change ((Function.update s.hashTable (hashFunction s key.1 key.2) _
      (hashFunction s key'.1 key'.2)).filter _).map _ = _
    by_cases hkey : key' = key
    · subst hkey
      rw [Function.update_self, filter_eraseP_self, if_pos rfl, List.map_tail]
    · rw [if_neg hkey]
      by_cases hi : hashFunction s key'.1 key'.2 = hashFunction s key.1 key.2
      · rw [hi, Function.update_self, filter_eraseP_other]
        intro e hsame
        rw [Bool.eq_false_iff]
        exact fun hsame' => hkey ((same_iff.mp hsame').symm.trans (same_iff.mp hsame))
      · rw [Function.update_of_ne hi]

end HashTable

section Lists

-- Every page is on the LRU list, on the free list or in `off`; a page on the LRU list has
-- a key. Links back may be missing.
structure Lists (s : State) (off lru free : List Nat) : Prop where
  links : Half s.next s.prev s.lruList.head s.lruList.tail lru
  frees : Seg s.next s.freeList.head free none
  count : s.freeList.nrFree = free.length
  pages : (off ++ lru ++ free).Perm (List.range s.cacheSize)
  named : ∀ i ∈ lru, ∃ key, s.keyAt i = some key
  placed : Placed s

-- What an operation on the lists leaves alone.
structure Quiet (s s' : State) : Prop where
  size : s'.cacheSize = s.cacheSize
  phys : s'.physBase = s.physBase
  store : s'.store = s.store

theorem Quiet.refl (s : State) : Quiet s s := ⟨rfl, rfl, rfl⟩

theorem Quiet.trans {s'' : State} (h : Quiet s s') (h' : Quiet s' s'') : Quiet s s'' :=
  ⟨h'.size.trans h.size, h'.phys.trans h.phys, h'.store.trans h.store⟩

theorem Lists.nodup (h : Lists s off lru free) : (off ++ lru ++ free).Nodup :=
  h.pages.nodup_iff.mpr List.nodup_range

-- A page that is newly linked at the head.
theorem addToLruHead_spec (h : Lists s (pg :: off) lru free) (hp : s.prev pg = none)
    (hk : s.keyAt pg = some key) : ∃ s', addToLruHead s pg = .ok s' ∧
      Lists s' off (pg :: lru) free ∧ Quiet s s' ∧
      (∀ key', s'.entries key' = if key' = key then pg :: s.entries key else s.entries key') ∧
      (∀ i, s'.keyAt i = s.keyAt i ∧ s'.dirty i = s.dirty i ∧
        s'.prev i = if s.lruList.head = some i then some pg else s.prev i) := by
  have hn := h.nodup
  simp only [List.cons_append, List.nodup_cons, List.mem_append, not_or] at hn
  have hlru : ∀ i ∈ lru, i ≠ pg := fun i hi he => hn.1.1.2 (he ▸ hi)
  have hfree : ∀ i ∈ free, i ≠ pg := fun i hi he => hn.1.2 (he ▸ hi)
  have hkey : ∀ i, (linkHead s pg).keyAt i = s.keyAt i := fun i => rfl
  have hnext : ∀ i, (linkHead s pg).next i = if i = pg then s.lruList.head else s.next i :=
    fun i => rfl
  have hprev : ∀ i, (linkHead s pg).prev i =
      if s.lruList.head = some i then some pg else s.prev i := fun i => rfl
  obtain ⟨table, heq, hplaced, hentries⟩ := hashTableInsert_spec (s := linkHead s pg) hk
    (h.placed.congr rfl rfl)
  refine ⟨_, (addToLruHead_eq s pg).trans heq, ?_, ⟨rfl, rfl, rfl⟩, fun key' => ?_,
    fun i => ⟨hkey i, linkHead_dirty i, hprev i⟩⟩
  · have hhead : s.lruList.head ≠ some pg := by
      rw [h.links.head_eq]
      exact fun he => hlru pg (List.mem_of_head? he) rfl
    have hpush : Half (linkHead s pg).next (linkHead s pg).prev (some pg)
        (some (lru.getLast?.getD pg)) (pg :: lru) :=
      h.links.pushFront (by rw [hnext, if_pos rfl]) (by rw [hprev, if_neg hhead, hp])
        (fun i hi => by rw [hnext, if_neg (hlru i hi)]) (fun i _ => hprev i)
    refine ⟨?_, ?_, h.count, ?_, fun i hi => ?_, hplaced⟩
    · have htail : (linkHead s pg).lruList.tail = some (lru.getLast?.getD pg) := by
        change (if s.lruList.tail = none then some pg else s.lruList.tail) = _
        rw [h.links.last]
        cases hl : lru.getLast? <;> simp
      have hwhole : Half (linkHead s pg).next (linkHead s pg).prev (some pg)
          (linkHead s pg).lruList.tail (pg :: lru) := htail ▸ hpush
      exact hwhole
    · have hseg : Seg (linkHead s pg).next s.freeList.head free none :=
        h.frees.congr fun i hi => by rw [hnext, if_neg (hfree i hi)]
      exact hseg
    · have hperm := h.pages
      simp only [List.cons_append] at hperm
      refine List.Perm.trans ?_ hperm
      rw [List.append_assoc, List.append_assoc]
      exact List.perm_middle
    · rcases List.mem_cons.mp hi with rfl | hi
      · exact ⟨key, hk⟩
      · exact h.named i hi
  · exact hentries key'

theorem Lists.neighbours (h : Lists s off (left ++ pg :: right) free) :
    s.next pg = right.head? ∧ pg ∉ left ∧ pg ∉ right ∧ ∀ i ∈ left, i ∉ right := by
  have hn := List.nodup_append.mp h.links.nodup
  have hnr := List.nodup_cons.mp hn.2.1
  exact ⟨h.links.next_eq, fun hl => hn.2.2 pg hl pg List.mem_cons_self rfl, hnr.1,
    fun i hl hr => hn.2.2 i hl i (List.mem_cons_of_mem _ hr) rfl⟩

-- A page whose link back is missing stays where it is.
theorem moveToLruHead_none (hp : s.prev pg = none) : moveToLruHead s pg = s := by
  unfold moveToLruHead
  unfold State.prev at hp
  rw [hp]

theorem moveToLruHead_spec (h : Lists s off (left ++ pg :: right) free) (hp : s.prev pg ≠ none) :
    Lists (moveToLruHead s pg) off (pg :: (left ++ right)) free ∧
      Quiet s (moveToLruHead s pg) ∧ (moveToLruHead s pg).hashTable = s.hashTable ∧
      (∀ i, (moveToLruHead s pg).keyAt i = s.keyAt i ∧
        (moveToLruHead s pg).dirty i = s.dirty i) := by
  obtain ⟨hnext, hleft, hright, hapart⟩ := h.neighbours
  have hprev := h.links.prev_eq hp
  obtain ⟨p, hsome⟩ := Option.ne_none_iff_exists'.mp hp
  have hlast : left.getLast? = some p := hprev.symm.trans hsome
  have hpl : p ∈ left := List.mem_of_getLast? hlast
  have hne : p ≠ pg := fun he => hleft (he ▸ hpl)
  have hempty : left ≠ [] := List.ne_nil_of_mem hpl
  have hothers : ∀ i ∈ left ++ right, i ≠ pg := by
    rintro i hi rfl
    exact (List.mem_append.mp hi).elim hleft hright
  rw [moveToLruHead_eq hsome hne]
  have hu : Half
      (fun i => if i = pg then s.lruList.head else if i = p then s.next pg else s.next i)
      (fun i => if i = pg then none else if s.next pg = some i then some p else s.prev i)
      _ _ (left ++ right) := h.links.unlink (fun i hi => ?_) (fun i hi => ?_)
  · rw [if_neg hempty] at hu
    have hn := List.nodup_append.mp h.nodup
    refine ⟨⟨⟨⟨rfl, ?_⟩, ?_, ?_⟩, ?_, h.count, ?_, ?_, h.placed.congr rfl rfl⟩, ⟨rfl, rfl, rfl⟩, rfl,
      fun i => ⟨rfl, rfl⟩⟩
    · change Seg _ (if pg = pg then s.lruList.head else _) _ _
      rw [if_pos rfl]
      exact hu.forward
    · change (if s.next pg = none then some p else s.lruList.tail) = _
      have hl := hu.last
      rw [hlast] at hl
      rw [hnext]
      cases right with
      | nil => simp [List.getLast?_cons, hlast]
      | cons after rest =>
          rw [if_neg (by simp)] at hl
          rw [if_neg (by simp), hl]
          simp [List.getLast?_cons, List.getLast?_append]
    · refine ⟨.inr ?_, ?_⟩
      · change (if pg = pg then none else _) = _
        rw [if_pos rfl]
      · have hb := hu.backward
        cases left with
        | nil => exact absurd rfl hempty
        | cons first rest =>
            refine ⟨?_, hb.2⟩
            rcases hb.1 with hfirst | hfirst <;> exact .inr hfirst
    · have hfree : Seg
          (fun i => if i = pg then s.lruList.head else if i = p then s.next pg else s.next i)
          s.freeList.head free none := h.frees.congr fun i hi => ?_
      · exact hfree
      · have hi' : i ≠ pg := fun he => hn.2.2 pg (by simp) pg (he ▸ hi) rfl
        have hi'' : i ≠ p := fun he => hn.2.2 p (by simp [hpl]) p (he ▸ hi) rfl
        rw [if_neg hi', if_neg hi'']
    · refine List.Perm.trans ?_ h.pages
      refine List.Perm.append_right free (List.Perm.append_left off ?_)
      exact (List.perm_middle (a := pg)).symm
    · intro i hi
      exact h.named i (by simpa [or_left_comm] using hi)
  · by_cases hip : i = p
    · simp [hlast, hip, hne]
    · have hne' : some p ≠ some i := fun he => hip (Option.some.inj he).symm
      rw [hlast, if_neg (hothers i hi), if_neg hip, if_neg hne']
  · simp only [if_neg (hothers i hi), hnext, hlast]

-- A page whose links are right goes from the LRU list to the free list, and the newest
-- entry of its key goes from the hash table.
theorem removeFromLru_spec (h : Lists s off (left ++ pg :: right) free)
    (hp : s.prev pg = left.getLast?) (hk : s.keyAt pg = some key) (he : s.entries key ≠ []) :
    ∃ s', removeFromLru s pg = .ok s' ∧ Lists s' off (left ++ right) (pg :: free) ∧ Quiet s s' ∧
      (∀ key', s'.entries key' =
        if key' = key then (s.entries key).tail else s.entries key') ∧
      (∀ i ≠ pg, s'.keyAt i = s.keyAt i ∧ s'.dirty i = s.dirty i ∧
        s'.prev i = if right.head? = some i then left.getLast? else s.prev i) := by
  obtain ⟨hnext, hleft, hright, hapart⟩ := h.neighbours
  have hself : s.prev pg ≠ some pg := by
    rw [hp]
    exact fun he => hleft (List.mem_of_getLast? he)
  obtain ⟨table, hr, hplaced, hentries⟩ := hashTableRemove_spec hk h.placed he
  have hmem : ∀ i, (unlinkPage s pg).memMap i = if i = pg then ⟨0, none, 0, none, s.freeList.head⟩
      else { s.memMap i with
        next := if left.getLast? = some i then s.next pg else s.next i
        prev := if right.head? = some i then left.getLast? else s.prev i } := by
    intro i
    rw [← hp, ← hnext]
    rfl
  have hnext' : ∀ i ≠ pg, (unlinkPage s pg).next i =
      if left.getLast? = some i then s.next pg else s.next i := fun i hi => by
    unfold State.next
    rw [hmem, if_neg hi]
    rfl
  have hprev' : ∀ i ≠ pg, (unlinkPage s pg).prev i =
      if right.head? = some i then left.getLast? else s.prev i := fun i hi => by
    unfold State.prev
    rw [hmem, if_neg hi]
    rfl
  have hother : ∀ i ∈ left ++ right, i ≠ pg := by
    rintro i hi rfl
    rcases List.mem_append.mp hi with hi | hi
    · exact hleft hi
    · exact hright hi
  have hfree : ∀ i ∈ free, i ≠ pg ∧ i ∉ left := by
    have hn := List.nodup_append.mp h.nodup
    exact fun i hi => ⟨fun he => hn.2.2 i (by simp [he]) i hi rfl,
      fun hl => hn.2.2 i (by simp [hl]) i hi rfl⟩
  have hkey : ∀ i ≠ pg, (unlinkPage s pg).keyAt i = s.keyAt i ∧
      (unlinkPage s pg).dirty i = s.dirty i := fun i hi => by
    unfold State.keyAt State.dirty
    rw [hmem, if_neg hi]
    exact ⟨rfl, rfl⟩
  refine ⟨_, removeFromLru_eq hself hr, ⟨?_, ?_, ?_, ?_, fun i hi => ?_, hplaced.congr rfl rfl⟩,
    ⟨rfl, rfl, rfl⟩, fun key' => ?_, fun i hi => ⟨(hkey i hi).1, (hkey i hi).2, hprev' i hi⟩⟩
  · have hu : Half (unlinkPage s pg).next (unlinkPage s pg).prev _ _ (left ++ right) :=
      h.links.unlink (fun i hi => hnext' i (hother i hi)) (fun i hi => hprev' i (hother i hi))
    have hhead : (unlinkPage s pg).lruList.head = if left = [] then s.next pg else s.lruList.head := by
      change (if s.prev pg = none then _ else _) = _
      simp [hp]
    have htail : (unlinkPage s pg).lruList.tail =
        if right = [] then left.getLast? else s.lruList.tail := by
      change (if s.next pg = none then s.prev pg else _) = _
      simp [hp, hnext]
    rw [← hhead, ← htail] at hu
    exact hu
  · refine ⟨rfl, ?_⟩
    change Seg _ ((unlinkPage s pg).memMap pg).next _ _
    rw [hmem, if_pos rfl]
    have hseg : Seg (unlinkPage s pg).next s.freeList.head free none :=
      h.frees.congr fun i hi => ?_
    · exact hseg
    · rw [hnext' i (hfree i hi).1, if_neg fun he => (hfree i hi).2 (List.mem_of_getLast? he)]
  · change s.freeList.nrFree + 1 = _
    rw [h.count, List.length_cons]
  · refine List.Perm.trans ?_ h.pages
    simp only [List.append_assoc]
    refine List.Perm.append_left off (List.Perm.append_left left ?_)
    exact List.perm_middle
  · rw [show ({ unlinkPage s pg with hashTable := table } : State).keyAt i =
      (unlinkPage s pg).keyAt i from rfl, (hkey i (hother i hi)).1]
    refine h.named i ?_
    rcases List.mem_append.mp hi with hi | hi
    · exact List.mem_append_left _ hi
    · exact List.mem_append_right _ (List.mem_cons_of_mem _ hi)
  · rw [← hentries key']
    exact entries_congr rfl rfl key'

end Lists

end UserPageCache.PageCache
