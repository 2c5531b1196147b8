import UserPageCache.SsdCache.Entry
import UserPageCache.Lib.Linked

namespace UserPageCache.SsdCache

open Linked

section Param

private theorem bit_self : ∀ p bit : BitVec 3, bit ≠ 0 →
    ((p ||| bit) &&& bit != 0) = true ∧ ((p &&& ~~~bit) &&& bit != 0) = false := by
  decide

private theorem bit_other : ∀ p bit other : BitVec 3, bit &&& other = 0 →
    ((p ||| bit) &&& other) = p &&& other ∧ ((p &&& ~~~bit) &&& other) = p &&& other := by
  decide

theorem paramGet_paramSet (e : Entry) (bit : BitVec 3) (on : Bool) (hb : bit ≠ 0) :
    paramGet (paramSet e bit on) bit = on := by
  have h := bit_self e.param bit hb
  cases on with
  | true => exact h.1
  | false => exact h.2

theorem paramGet_paramSet_of_disjoint (e : Entry) (bit other : BitVec 3) (on : Bool)
    (hb : bit &&& other = 0) : paramGet (paramSet e bit on) other = paramGet e other := by
  have h := bit_other e.param bit other hb
  cases on <;> simp only [paramGet, paramSet, ite_true, Bool.false_eq_true, ite_false, h]

@[simp] theorem getPending_setPending (e : Entry) (on : Bool) :
    entryGetPending (entrySetPending e on) = on := paramGet_paramSet e _ on (by decide)

@[simp] theorem getDirty_setPending (e : Entry) (on : Bool) :
    entryGetDirty (entrySetPending e on) = entryGetDirty e :=
  paramGet_paramSet_of_disjoint e _ _ on (by decide)

@[simp] theorem getAlloc_setPending (e : Entry) (on : Bool) :
    entryGetAlloc (entrySetPending e on) = entryGetAlloc e :=
  paramGet_paramSet_of_disjoint e _ _ on (by decide)

@[simp] theorem getPending_setDirty (e : Entry) (on : Bool) :
    entryGetPending (entrySetDirty e on) = entryGetPending e :=
  paramGet_paramSet_of_disjoint e _ _ on (by decide)

@[simp] theorem getDirty_setDirty (e : Entry) (on : Bool) :
    entryGetDirty (entrySetDirty e on) = on := paramGet_paramSet e _ on (by decide)

@[simp] theorem getAlloc_setDirty (e : Entry) (on : Bool) :
    entryGetAlloc (entrySetDirty e on) = entryGetAlloc e :=
  paramGet_paramSet_of_disjoint e _ _ on (by decide)

@[simp] theorem getPending_setAlloc (e : Entry) (on : Bool) :
    entryGetPending (entrySetAlloc e on) = entryGetPending e :=
  paramGet_paramSet_of_disjoint e _ _ on (by decide)

@[simp] theorem getDirty_setAlloc (e : Entry) (on : Bool) :
    entryGetDirty (entrySetAlloc e on) = entryGetDirty e :=
  paramGet_paramSet_of_disjoint e _ _ on (by decide)

@[simp] theorem getAlloc_setAlloc (e : Entry) (on : Bool) :
    entryGetAlloc (entrySetAlloc e on) = on := paramGet_paramSet e _ on (by decide)

-- A flag update replaces `param` and nothing else.
@[simp] theorem getPending_initEntry (e : Entry) : entryGetPending (initEntry e) = false := by
  simp [entryGetPending, paramGet, initEntry]

@[simp] theorem getDirty_initEntry (e : Entry) : entryGetDirty (initEntry e) = false := by
  simp [entryGetDirty, paramGet, initEntry]

theorem paramSet_eq (e : Entry) (bit : BitVec 3) (on : Bool) :
    paramSet e bit on = { e with param := (paramSet e bit on).param } := by
  cases on <;> rfl

end Param

section Ilist

@[simp] theorem toEntry_null : toEntry INDEXER_NULL = none := by simp [toEntry]

theorem toEntry_of_ne {block : Nat} (h : block ≠ INDEXER_NULL) : toEntry block = some block := by
  simp [toEntry, h]

theorem toEntry_eq_some {block e : Nat} (h : toEntry block = some e) :
    block = e ∧ e ≠ INDEXER_NULL := by
  unfold toEntry at h
  split at h
  · simp at h
  · obtain rfl := Option.some.inj h
    exact ⟨rfl, by assumption⟩

@[simp] theorem lNext_setNext (es : EntrySpace) (e v : Nat) :
    lNext (setNext es e v) = Function.update (lNext es) e (toEntry v) := by
  funext i
  by_cases h : i = e <;> simp [lNext, setNext, h]

@[simp] theorem lPrev_setNext (es : EntrySpace) (e v : Nat) :
    lPrev (setNext es e v) = lPrev es := by
  funext i
  by_cases h : i = e <;> simp [lPrev, setNext, h]

@[simp] theorem lNext_setPrev (es : EntrySpace) (e v : Nat) :
    lNext (setPrev es e v) = lNext es := by
  funext i
  by_cases h : i = e <;> simp [lNext, setPrev, h]

@[simp] theorem lPrev_setPrev (es : EntrySpace) (e v : Nat) :
    lPrev (setPrev es e v) = Function.update (lPrev es) e (toEntry v) := by
  funext i
  by_cases h : i = e <;> simp [lPrev, setPrev, h]

@[simp] theorem prev_setNext (es : EntrySpace) (p v e : Nat) :
    (setNext es p v e).prev = (es e).prev := by
  by_cases h : e = p <;> simp [setNext, h]

-- The list operations rewrite prev and next only.
def LinksOnly (before after : EntrySpace) : Prop :=
  ∀ i, after i = { before i with prev := (after i).prev, next := (after i).next }

theorem LinksOnly.refl (es : EntrySpace) : LinksOnly es es := fun _ => rfl

theorem LinksOnly.trans {a b c : EntrySpace} (hab : LinksOnly a b) (hbc : LinksOnly b c) :
    LinksOnly a c := by
  intro i
  rw [hbc i, hab i]

theorem setNext_linksOnly (es : EntrySpace) (e v : Nat) : LinksOnly es (setNext es e v) := by
  intro i
  by_cases h : i = e <;> simp [setNext, h]

theorem setPrev_linksOnly (es : EntrySpace) (e v : Nat) : LinksOnly es (setPrev es e v) := by
  intro i
  by_cases h : i = e <;> simp [setPrev, h]

variable {es : EntrySpace} {l : Ilist} {e : Nat}

theorem lAddTail_linksOnly (es : EntrySpace) (l : Ilist) (e : Nat) :
    LinksOnly es (lAddTail es l e).1 := by
  have h := (setNext_linksOnly es e INDEXER_NULL).trans (setPrev_linksOnly _ e l.tail)
  unfold lAddTail
  cases lTail l with
  | none => exact h
  | some t => exact h.trans (setNext_linksOnly _ t e)

theorem lAddHead_linksOnly (es : EntrySpace) (l : Ilist) (e : Nat) :
    LinksOnly es (lAddHead es l e).1 := by
  have h := (setNext_linksOnly es e l.head).trans (setPrev_linksOnly _ e INDEXER_NULL)
  unfold lAddHead
  cases lHead l with
  | none => exact h
  | some t => exact h.trans (setPrev_linksOnly _ t e)

theorem lDel_linksOnly (es : EntrySpace) (l : Ilist) (e : Nat) :
    LinksOnly es (lDel es l e).1 := by
  unfold lDel
  cases lPrev es e with
  | none =>
      cases lNext es e with
      | none => exact LinksOnly.refl es
      | some n => exact setPrev_linksOnly es n _
  | some p =>
      have hp := setNext_linksOnly es p (es e).next
      cases lNext es e with
      | none => exact hp
      | some n => exact hp.trans (setPrev_linksOnly _ n _)

private theorem update_eq_ite (f : Nat → Option Nat) (i : Nat) (v : Option Nat) :
    Function.update f i v = fun j => if some i = some j then v else f j := by
  funext j
  by_cases h : j = i
  · simp [h]
  · simp [h, Ne.symm h]

-- Each operation, seen through the pointers it leaves.
theorem lAddTail_eq (es : EntrySpace) (l : Ilist) (he : e ≠ INDEXER_NULL) :
    lNext (lAddTail es l e).1 =
      (fun i => if lTail l = some i then some e else if i = e then none else lNext es i) ∧
    lPrev (lAddTail es l e).1 = (fun i => if i = e then lTail l else lPrev es i) ∧
    lHead (lAddTail es l e).2 = (if lTail l = none then some e else lHead l) ∧
    lTail (lAddTail es l e).2 = some e ∧
    (lAddTail es l e).2.nrElts = inc l.nrElts := by
  have hl : toEntry l.tail = lTail l := rfl
  have hnext : lNext (setPrev (setNext es e INDEXER_NULL) e l.tail) =
      fun i => if i = e then none else lNext es i := by
    funext i
    simp [Function.update_apply]
  have hprev : lPrev (setPrev (setNext es e INDEXER_NULL) e l.tail) =
      fun i => if i = e then lTail l else lPrev es i := by
    funext i
    simp [Function.update_apply, hl]
  unfold lAddTail
  cases ht : lTail l with
  | none =>
      rw [ht] at hprev
      simp only [reduceCtorEq, ite_false, ite_true]
      exact ⟨hnext, hprev, toEntry_of_ne he, toEntry_of_ne he, trivial⟩
  | some t =>
      rw [ht] at hprev
      simp only [reduceCtorEq, ite_false, lNext_setNext, lPrev_setNext, hnext, update_eq_ite,
        toEntry_of_ne he]
      exact ⟨trivial, hprev, rfl, toEntry_of_ne he, trivial⟩

theorem lAddHead_eq (es : EntrySpace) (l : Ilist) (he : e ≠ INDEXER_NULL) :
    lNext (lAddHead es l e).1 = (fun i => if i = e then lHead l else lNext es i) ∧
    lPrev (lAddHead es l e).1 =
      (fun i => if lHead l = some i then some e else if i = e then none else lPrev es i) ∧
    lHead (lAddHead es l e).2 = some e ∧
    lTail (lAddHead es l e).2 = (if lHead l = none then some e else lTail l) ∧
    (lAddHead es l e).2.nrElts = inc l.nrElts := by
  have hl : toEntry l.head = lHead l := rfl
  have hnext : lNext (setPrev (setNext es e l.head) e INDEXER_NULL) =
      fun i => if i = e then lHead l else lNext es i := by
    funext i
    simp [Function.update_apply, hl]
  have hprev : lPrev (setPrev (setNext es e l.head) e INDEXER_NULL) =
      fun i => if i = e then none else lPrev es i := by
    funext i
    simp [Function.update_apply]
  unfold lAddHead
  cases ht : lHead l with
  | none =>
      rw [ht] at hnext
      simp only [reduceCtorEq, ite_false, ite_true]
      exact ⟨hnext, hprev, toEntry_of_ne he, toEntry_of_ne he, trivial⟩
  | some t =>
      rw [ht] at hnext
      simp only [reduceCtorEq, ite_false, lNext_setPrev, lPrev_setPrev, hprev, update_eq_ite,
        toEntry_of_ne he]
      rw [lNext_setPrev] at hnext
      exact ⟨hnext, trivial, toEntry_of_ne he, rfl, trivial⟩

-- l_del reads the links of the entry again after rewriting its predecessor; they
-- are still the ones it started with.
theorem lDel_eq (es : EntrySpace) (l : Ilist) (e : Nat) :
    lNext (lDel es l e).1 =
      (fun i => if lPrev es e = some i then lNext es e else lNext es i) ∧
    lPrev (lDel es l e).1 =
      (fun i => if lNext es e = some i then lPrev es e else lPrev es i) ∧
    lHead (lDel es l e).2 = (if lPrev es e = none then lNext es e else lHead l) ∧
    lTail (lDel es l e).2 = (if lNext es e = none then lPrev es e else lTail l) ∧
    (lDel es l e).2.nrElts = dec l.nrElts := by
  have hn : toEntry (es e).next = lNext es e := rfl
  have hp : toEntry (es e).prev = lPrev es e := rfl
  unfold lDel
  cases hpe : lPrev es e with
  | none =>
      rw [hpe] at hp
      cases hne : lNext es e with
      | none => exact ⟨by simp, by simp, hne, hpe, rfl⟩
      | some n =>
          refine ⟨by simp, ?_, hne, rfl, rfl⟩
          simp only [lPrev_setPrev]
          rw [hp, update_eq_ite]
  | some p =>
      rw [hpe] at hp
      cases hne : lNext es e with
      | none =>
          rw [hne] at hn
          refine ⟨?_, by simp, rfl, ?_, rfl⟩
          · simp only [lNext_setNext]
            rw [hn, update_eq_ite]
          · simp only [prev_setNext]
            exact hpe
      | some n =>
          rw [hne] at hn
          refine ⟨?_, ?_, rfl, rfl, rfl⟩
          · simp only [lNext_setPrev, lNext_setNext]
            rw [hn, update_eq_ite]
          · simp only [lPrev_setPrev, lPrev_setNext, prev_setNext]
            rw [hp, update_eq_ite]

-- The indices an ilist links, the same in both directions, with an exact count.
structure IsIlist (es : EntrySpace) (l : Ilist) (nodes : List Nat) : Prop where
  links : DList (lNext es) (lPrev es) (lHead l) (lTail l) nodes
  nrElts : l.nrElts = nodes.length

variable {o : Ilist} {nodes others left right : List Nat}

theorem isIlist_lInit (es : EntrySpace) : IsIlist es lInit [] :=
  ⟨by simpa [lHead, lTail, lInit] using DList.empty, rfl⟩

theorem IsIlist.congr {es' : EntrySpace} (h : IsIlist es l nodes)
    (hn : ∀ i ∈ nodes, lNext es' i = lNext es i) (hp : ∀ i ∈ nodes, lPrev es' i = lPrev es i) :
    IsIlist es' l nodes :=
  ⟨h.links.congr hn hp, h.nrElts⟩

theorem IsIlist.lEmpty_iff (h : IsIlist es l nodes) : lEmpty l = true ↔ nodes = [] := by
  have hh := h.links.head_eq
  cases nodes with
  | nil => simpa [lHead, lEmpty, toEntry] using hh
  | cons e rest =>
      have he := toEntry_eq_some hh
      simp [lEmpty, he.1, he.2]

theorem IsIlist.addTail (h : IsIlist es l nodes) (hn : e ∉ nodes) (he : e ≠ INDEXER_NULL)
    (hlen : nodes.length + 1 < 2 ^ 32) :
    IsIlist (lAddTail es l e).1 (lAddTail es l e).2 (nodes ++ [e]) := by
  obtain ⟨hnext, hprev, hhead, htail, hcount⟩ := lAddTail_eq es l he
  constructor
  · rw [hnext, hprev, hhead, htail]
    exact h.links.pushBack hn
  · rw [hcount, h.nrElts, inc_of_lt hlen, List.length_append]
    rfl

theorem IsIlist.addHead (h : IsIlist es l nodes) (hn : e ∉ nodes) (he : e ≠ INDEXER_NULL)
    (hlen : nodes.length + 1 < 2 ^ 32) :
    IsIlist (lAddHead es l e).1 (lAddHead es l e).2 (e :: nodes) := by
  obtain ⟨hnext, hprev, hhead, htail, hcount⟩ := lAddHead_eq es l he
  constructor
  · rw [hnext, hprev, hhead, htail]
    exact h.links.pushFront hn
  · rw [hcount, h.nrElts, inc_of_lt hlen]
    rfl

theorem IsIlist.del (h : IsIlist es l (left ++ e :: right))
    (hlen : left.length + right.length < 2 ^ 32) :
    IsIlist (lDel es l e).1 (lDel es l e).2 (left ++ right) := by
  obtain ⟨hnext, hprev, hhead, htail, hcount⟩ := lDel_eq es l e
  constructor
  · rw [hnext, hprev, hhead, htail]
    exact h.links.unlink
  · have hl : (left ++ e :: right).length = left.length + right.length + 1 := by
      simp only [List.length_append, List.length_cons]
      omega
    rw [hcount, h.nrElts, hl, dec_succ hlen, List.length_append]

-- An operation on one list leaves a disjoint list alone.
theorem IsIlist.addTail_other (h : IsIlist es l nodes) (ho : IsIlist es o others)
    (hd : ∀ i ∈ others, i ∉ nodes) (he : e ∉ others) (hne : e ≠ INDEXER_NULL) :
    IsIlist (lAddTail es l e).1 o others := by
  obtain ⟨hnext, hprev, -⟩ := lAddTail_eq es l hne
  apply ho.congr
  · intro i hi
    have ht : lTail l ≠ some i := by
      rw [h.links.tail_eq]
      exact fun hl => hd i hi (List.mem_of_getLast? hl)
    have hie : i ≠ e := fun heq => he (heq ▸ hi)
    simp only [hnext, ht, hie, ite_false]
  · intro i hi
    have hie : i ≠ e := fun heq => he (heq ▸ hi)
    simp only [hprev, hie, ite_false]

theorem IsIlist.addHead_other (h : IsIlist es l nodes) (ho : IsIlist es o others)
    (hd : ∀ i ∈ others, i ∉ nodes) (he : e ∉ others) (hne : e ≠ INDEXER_NULL) :
    IsIlist (lAddHead es l e).1 o others := by
  obtain ⟨hnext, hprev, -⟩ := lAddHead_eq es l hne
  apply ho.congr
  · intro i hi
    have hie : i ≠ e := fun heq => he (heq ▸ hi)
    simp only [hnext, hie, ite_false]
  · intro i hi
    have ht : lHead l ≠ some i := by
      rw [h.links.head_eq]
      exact fun hl => hd i hi (List.mem_of_mem_head? hl)
    have hie : i ≠ e := fun heq => he (heq ▸ hi)
    simp only [hprev, ht, hie, ite_false]

theorem IsIlist.del_other (h : IsIlist es l (left ++ e :: right)) (ho : IsIlist es o others)
    (hd : ∀ i ∈ others, i ∉ left ++ e :: right) : IsIlist (lDel es l e).1 o others := by
  obtain ⟨hnext, hprev, -⟩ := lDel_eq es l e
  apply ho.congr
  · intro i hi
    have hp : lPrev es e ≠ some i := by
      rw [h.links.prev_eq]
      exact fun hl => hd i hi (by simp [List.mem_of_getLast? hl])
    simp only [hnext, hp, ite_false]
  · intro i hi
    have hn : lNext es e ≠ some i := by
      rw [h.links.next_eq]
      exact fun hl => hd i hi (by simp [List.mem_of_mem_head? hl])
    simp only [hprev, hn, ite_false]

end Ilist

section Allocator

theorem allocEntry_eq {ea : EntryAlloc} {e : Nat} (es : EntrySpace) (he : lHead ea.free = some e) :
    allocEntry ea es = some
      ({ ea with free := (lDel es ea.free e).2, nrAllocated := inc ea.nrAllocated },
        Function.update (lDel es ea.free e).1 e
          (entrySetAlloc (initEntry ((lDel es ea.free e).1 e)) true), e) := by
  have hne : lEmpty ea.free = false := by
    obtain ⟨hh, hn⟩ := toEntry_eq_some he
    simp [lEmpty, hh, hn]
  unfold allocEntry lPopHead
  simp only [hne, he]
  rfl

theorem freeEntry_eq (ea : EntryAlloc) (es : EntrySpace) (e : Nat) :
    freeEntry ea es e =
      ({ ea with
          free := (lAddTail (Function.update es e (entrySetAlloc (es e) false)) ea.free e).2
          nrAllocated := dec ea.nrAllocated },
        (lAddTail (Function.update es e (entrySetAlloc (es e) false)) ea.free e).1) := by
  unfold freeEntry
  rfl

theorem initAllocator_free (es : EntrySpace) (last : Nat) (hlast : last ≤ CACHE_BLOCK_NUMBER) :
    IsIlist ((List.range' 0 last).foldl (fun s i => lAddTail s.1 s.2 i) (es, lInit)).1
      ((List.range' 0 last).foldl (fun s i => lAddTail s.1 s.2 i) (es, lInit)).2
      (List.range last) ∧
    LinksOnly es ((List.range' 0 last).foldl (fun s i => lAddTail s.1 s.2 i) (es, lInit)).1 := by
  induction last with
  | zero => exact ⟨isIlist_lInit es, LinksOnly.refl es⟩
  | succ last ih =>
      obtain ⟨hlist, hlinks⟩ := ih (by omega)
      have hlt : last < CACHE_BLOCK_NUMBER := by omega
      simp only [CACHE_BLOCK_NUMBER] at hlt
      rw [List.range'_concat, List.foldl_concat, List.range_succ]
      simp only [Nat.zero_add, Nat.one_mul]
      refine ⟨hlist.addTail (by simp) ?_ ?_, hlinks.trans (lAddTail_linksOnly _ _ _)⟩
      · simp only [INDEXER_NULL]
        omega
      · rw [List.length_range]
        omega

end Allocator

end UserPageCache.SsdCache
