import Mathlib.Data.List.Nodup
import Mathlib.Logic.Function.Basic

namespace Linked

section Seg

variable {ι : Type*}

-- A path through a successor map. It enters at `first`, visits the listed
-- nodes in order and leaves the final one towards `last`.
def Seg (next : ι → Option ι) : Option ι → List ι → Option ι → Prop
  | first, [], last => first = last
  | first, node :: rest, last => first = some node ∧ Seg next (next node) rest last

variable {next : ι → Option ι} {first last : Option ι}

theorem Seg.congr {other : ι → Option ι} {nodes : List ι} (h : Seg next first nodes last)
    (he : ∀ node ∈ nodes, other node = next node) : Seg other first nodes last := by
  induction nodes generalizing first with
  | nil => exact h
  | cons node rest ih =>
      refine ⟨h.1, ?_⟩
      rw [he node (by simp)]
      exact ih h.2 (fun n hn => he n (by simp [hn]))

theorem seg_append (left right : List ι) :
    Seg next first (left ++ right) last ↔
      ∃ middle, Seg next first left middle ∧ Seg next middle right last := by
  induction left generalizing first with
  | nil => simp [Seg]
  | cons node rest ih => simp [Seg, ih, and_assoc]

theorem Seg.head {nodes : List ι} (h : Seg next first nodes none) : first = nodes.head? := by
  cases nodes with
  | nil => exact h
  | cons node rest => exact h.1

-- A path that ends is determined by where it enters.
theorem Seg.unique {left right : List ι} (hl : Seg next first left none)
    (hr : Seg next first right none) : left = right := by
  induction left generalizing first right with
  | nil =>
      cases right with
      | nil => rfl
      | cons node rest =>
          have he : (none : Option ι) = some node := hl.symm.trans hr.1
          simp at he
  | cons node rest ih =>
      cases right with
      | nil =>
          have he : some node = (none : Option ι) := hl.1.symm.trans hr
          simp at he
      | cons other tail =>
          have he : node = other := Option.some.inj (hl.1.symm.trans hr.1)
          subst other
          rw [ih hl.2 hr.2]

-- A node met twice would start two different paths to the same end.
theorem Seg.nodup {nodes : List ι} (h : Seg next first nodes none) : nodes.Nodup := by
  induction nodes generalizing first with
  | nil => exact List.nodup_nil
  | cons node rest ih =>
      refine List.nodup_cons.mpr ⟨fun hm => ?_, ih h.2⟩
      obtain ⟨left, right, rfl⟩ := List.append_of_mem hm
      obtain ⟨middle, _, hright⟩ := (seg_append left (node :: right)).mp h.2
      have hwhole : Seg next (some node) (node :: (left ++ node :: right)) none := ⟨rfl, h.2⟩
      have htail : Seg next (some node) (node :: right) none := ⟨rfl, hright.2⟩
      have he := hwhole.unique htail
      have hlen := congrArg List.length he
      simp only [List.length_cons, List.length_append] at hlen
      omega

theorem Seg.split {left right : List ι} {node : ι}
    (h : Seg next first (left ++ node :: right) last) :
    Seg next first left (some node) ∧ Seg next (next node) right last := by
  obtain ⟨middle, hl, rfl, hr⟩ := (seg_append left (node :: right)).mp h
  exact ⟨hl, hr⟩

-- The node before the exit is the one that points there.
theorem Seg.redirect {nodes : List ι} (h : Seg next first nodes last) (hn : nodes.Nodup)
    {other : ι → Option ι} {start exit : Option ι}
    (hstart : start = if nodes = [] then exit else first)
    (hlast : ∀ node, nodes.getLast? = some node → other node = exit)
    (hframe : ∀ node ∈ nodes, nodes.getLast? ≠ some node → other node = next node) :
    Seg other start nodes exit := by
  induction nodes generalizing first start with
  | nil => simpa [Seg] using hstart
  | cons node rest ih =>
      obtain ⟨rfl, hrest⟩ := h
      simp only [reduceCtorEq, ite_false] at hstart
      refine ⟨hstart, ?_⟩
      have hnr := (List.nodup_cons.mp hn).2
      cases rest with
      | nil => exact hlast node (by simp)
      | cons after tail =>
          have hne : (node :: after :: tail).getLast? ≠ some node := by
            intro he
            have hm : node ∈ after :: tail := by
              rw [List.getLast?_cons_cons] at he
              exact List.mem_of_getLast? he
            exact (List.nodup_cons.mp hn).1 hm
          apply ih hrest hnr
          · simp only [reduceCtorEq, ite_false]
            exact hframe node (by simp) hne
          · intro n hl
            exact hlast n (by rw [List.getLast?_cons_cons]; exact hl)
          · intro n hm hl
            exact hframe n (List.mem_cons_of_mem _ hm) (by rw [List.getLast?_cons_cons]; exact hl)

-- Taking a node out of a path: the one before it points past it.
theorem Seg.unlink [DecidableEq ι] {left right : List ι} {node : ι} {other : ι → Option ι}
    (h : Seg next first (left ++ node :: right) none)
    (ho : ∀ i ∈ left ++ right, other i = if left.getLast? = some i then next node else next i) :
    Seg other (if left = [] then next node else first) (left ++ right) none := by
  obtain ⟨hl, hr⟩ := h.split
  have hn := List.nodup_append.mp h.nodup
  refine (seg_append left right).mpr ⟨next node, ?_, ?_⟩
  · apply hl.redirect hn.1
    · rfl
    · intro n hlast
      rw [ho n (List.mem_append_left _ (List.mem_of_getLast? hlast)), if_pos hlast]
    · intro n hm hlast
      rw [ho n (List.mem_append_left _ hm), if_neg hlast]
  · apply hr.congr
    intro n hm
    have hne : left.getLast? ≠ some n := fun he =>
      hn.2.2 n (List.mem_of_getLast? he) n (List.mem_cons_of_mem _ hm) rfl
    rw [ho n (List.mem_append_right _ hm), if_neg hne]

end Seg

section DList

variable {ι : Type*} {next prev : ι → Option ι} {head tail : Option ι} {nodes : List ι}

-- The nodes met from the head by `next` are those met from the tail by `prev`,
-- in reverse.
structure DList (next prev : ι → Option ι) (head tail : Option ι) (nodes : List ι) : Prop where
  forward : Seg next head nodes none
  backward : Seg prev tail nodes.reverse none

theorem DList.symm (h : DList next prev head tail nodes) :
    DList prev next tail head nodes.reverse :=
  ⟨h.backward, by simpa using h.forward⟩

theorem DList.nodup (h : DList next prev head tail nodes) : nodes.Nodup :=
  h.forward.nodup

theorem DList.head_eq (h : DList next prev head tail nodes) : head = nodes.head? :=
  h.forward.head

theorem DList.tail_eq (h : DList next prev head tail nodes) : tail = nodes.getLast? := by
  simpa using h.backward.head

theorem DList.empty : DList next prev none none [] :=
  ⟨rfl, rfl⟩

theorem DList.congr {next' prev' : ι → Option ι} (h : DList next prev head tail nodes)
    (hnext : ∀ node ∈ nodes, next' node = next node)
    (hprev : ∀ node ∈ nodes, prev' node = prev node) : DList next' prev' head tail nodes :=
  ⟨h.forward.congr hnext, h.backward.congr (fun n hn => hprev n (List.mem_reverse.mp hn))⟩

theorem DList.prev_eq {left right : List ι} {node : ι}
    (h : DList next prev head tail (left ++ node :: right)) : prev node = left.getLast? := by
  have hb := h.backward
  rw [List.reverse_append, List.reverse_cons, List.append_assoc] at hb
  simpa using hb.split.2.head

theorem DList.first {right : List ι} {node : ι} (h : DList next prev head tail (node :: right)) :
    prev node = none ∧ next node = right.head? := by
  have hsplit : DList next prev head tail ([] ++ node :: right) := h
  exact ⟨hsplit.prev_eq, hsplit.forward.split.2.head⟩

theorem DList.second {right : List ι} {first node : ι}
    (h : DList next prev head tail (first :: node :: right)) : prev node = some first := by
  have hsplit : DList next prev head tail ([first] ++ node :: right) := h
  exact hsplit.prev_eq

theorem DList.next_eq {left right : List ι} {node : ι}
    (h : DList next prev head tail (left ++ node :: right)) : next node = right.head? :=
  h.forward.split.2.head

variable [DecidableEq ι]

private theorem forward_unlink {left right : List ι} {node : ι}
    (h : DList next prev head tail (left ++ node :: right)) :
    Seg (fun i => if prev node = some i then next node else next i)
      (if prev node = none then next node else head) (left ++ right) none := by
  have hp := h.prev_eq
  have hu := h.forward.unlink (fun i _ => rfl)
  rw [hp]
  simpa using hu

-- Unlinking makes the two neighbours point at each other; a missing neighbour
-- is replaced by the end of the list it stood for.
theorem DList.unlink {left right : List ι} {node : ι}
    (h : DList next prev head tail (left ++ node :: right)) :
    DList (fun i => if prev node = some i then next node else next i)
      (fun i => if next node = some i then prev node else prev i)
      (if prev node = none then next node else head)
      (if next node = none then prev node else tail) (left ++ right) := by
  refine ⟨forward_unlink h, ?_⟩
  have hs := h.symm
  rw [List.reverse_append, List.reverse_cons, List.append_assoc, List.singleton_append] at hs
  simpa using forward_unlink hs

theorem DList.pushBack (h : DList next prev head tail nodes) {node : ι} (hn : node ∉ nodes) :
    DList (fun i => if tail = some i then some node else if i = node then none else next i)
      (fun i => if i = node then tail else prev i)
      (if tail = none then some node else head) (some node) (nodes ++ [node]) := by
  have ht := h.tail_eq
  have hself : tail ≠ some node := by
    rw [ht]
    exact fun he => hn (List.mem_of_getLast? he)
  constructor
  · refine (seg_append nodes [node]).mpr ⟨some node, ?_, rfl, by simp [Seg, hself]⟩
    apply h.forward.redirect h.nodup
    · simp [ht]
    · intro n hlast
      simp [ht, hlast]
    · intro n hm hlast
      have hne : n ≠ node := fun he => hn (he ▸ hm)
      simp [ht, hlast, hne]
  · rw [List.reverse_append]
    refine ⟨rfl, ?_⟩
    simp only [ite_true]
    apply h.backward.congr
    intro n hm
    have hne : n ≠ node := fun he => hn (he ▸ List.mem_reverse.mp hm)
    simp [hne]

theorem DList.pushFront (h : DList next prev head tail nodes) {node : ι} (hn : node ∉ nodes) :
    DList (fun i => if i = node then head else next i)
      (fun i => if head = some i then some node else if i = node then none else prev i)
      (some node) (if head = none then some node else tail) (node :: nodes) := by
  have hr : node ∉ nodes.reverse := by simpa using hn
  simpa using (h.symm.pushBack hr).symm

end DList

section Half

variable {ι : Type*} {next prev next' prev' : ι → Option ι} {head tail before : Option ι}
  {nodes left right : List ι} {node : ι}

-- Each node points back at the one before it, or at nothing.
def Back (prev : ι → Option ι) : Option ι → List ι → Prop
  | _, [] => True
  | before, node :: rest => (prev node = before ∨ prev node = none) ∧ Back prev (some node) rest

theorem Back.congr (h : Back prev before nodes) (he : ∀ i ∈ nodes, prev' i = prev i) :
    Back prev' before nodes := by
  induction nodes generalizing before with
  | nil => trivial
  | cons node rest ih =>
      refine ⟨?_, ih h.2 fun i hi => he i (List.mem_cons_of_mem _ hi)⟩
      rw [he node List.mem_cons_self]
      exact h.1

theorem back_append : Back prev before (left ++ right) ↔
    Back prev before left ∧ Back prev (left.getLast?.or before) right := by
  induction left generalizing before with
  | nil => simp [Back]
  | cons node rest ih =>
      simp only [List.cons_append, Back, ih, and_assoc]
      cases rest with
      | nil => simp
      | cons after tail => simp [List.getLast?_eq_some_getLast]

-- A list that is whole from the head on, with links back that may be missing.
structure Half (next prev : ι → Option ι) (head tail : Option ι) (nodes : List ι) : Prop where
  forward : Seg next head nodes none
  last : tail = nodes.getLast?
  backward : Back prev none nodes

theorem Half.empty : Half next prev none none [] := ⟨rfl, rfl, trivial⟩

theorem Half.nodup (h : Half next prev head tail nodes) : nodes.Nodup := h.forward.nodup

theorem Half.head_eq (h : Half next prev head tail nodes) : head = nodes.head? := h.forward.head

theorem Half.congr (h : Half next prev head tail nodes) (hn : ∀ i ∈ nodes, next' i = next i)
    (hp : ∀ i ∈ nodes, prev' i = prev i) : Half next' prev' head tail nodes :=
  ⟨h.forward.congr hn, h.last, h.backward.congr hp⟩

-- The link back of a node, when it is there, leads to the node before it.
theorem Half.prev_eq (h : Half next prev head tail (left ++ node :: right))
    (hp : prev node ≠ none) : prev node = left.getLast? := by
  have hb := (back_append.mp h.backward).2.1
  simpa [hp] using hb

theorem Half.next_eq (h : Half next prev head tail (left ++ node :: right)) :
    next node = right.head? := h.forward.split.2.head

-- With every link back there, the nodes met from the tail are those met from the head.
theorem Half.dlist (h : Half next prev head tail nodes) (hp : ∀ i ∈ nodes.tail, prev i ≠ none) :
    DList next prev head tail nodes := by
  refine ⟨h.forward, ?_⟩
  have key : ∀ before : Option ι, Back prev before nodes →
      (∀ i ∈ nodes.tail, prev i ≠ none) → (∀ first, nodes.head? = some first → prev first = before) →
      Seg prev (nodes.getLast?.or before) nodes.reverse before := by
    clear h hp
    induction nodes with
    | nil => exact fun before _ _ _ => rfl
    | cons node rest ih =>
        intro before hb hp hfirst
        rw [List.reverse_cons]
        refine (seg_append rest.reverse [node]).mpr ⟨some node, ?_, rfl, hfirst node rfl⟩
        have hrest := ih (some node) hb.2 (fun i hi => hp i (List.mem_of_mem_tail hi))
          (fun first hf => by
            cases rest with
            | nil => simp at hf
            | cons after tail =>
                obtain rfl := Option.some.inj hf
                exact hb.2.1.resolve_right (hp after List.mem_cons_self))
        cases rest with
        | nil => exact rfl
        | cons after tail => simpa [List.getLast?_eq_some_getLast] using hrest
  have hseg := key none h.backward hp (fun first hf => by
    cases nodes with
    | nil => simp at hf
    | cons node rest =>
        obtain rfl := Option.some.inj hf
        exact h.backward.1.elim id id)
  rwa [Option.or_none, ← h.last] at hseg

variable [DecidableEq ι]

theorem Half.pushFront (h : Half next prev head tail nodes) (hn : next' node = head)
    (hp : prev' node = none) (hnext : ∀ i ∈ nodes, next' i = next i)
    (hprev : ∀ i ∈ nodes, prev' i = if head = some i then some node else prev i) :
    Half next' prev' (some node) (some (nodes.getLast?.getD node))
      (node :: nodes) where
  forward := ⟨rfl, by rw [hn]; exact h.forward.congr hnext⟩
  last := by cases nodes <;> simp [List.getLast?_cons]
  backward := by
    refine ⟨.inr hp, ?_⟩
    cases nodes with
    | nil => trivial
    | cons first rest =>
        have hhead : head = some first := h.head_eq
        have hnot : first ∉ rest := (List.nodup_cons.mp h.nodup).1
        refine ⟨.inl (by rw [hprev first List.mem_cons_self, if_pos hhead]), ?_⟩
        apply h.backward.2.congr
        intro i hi
        have hne : head ≠ some i := fun he => by
          obtain rfl := Option.some.inj (hhead.symm.trans he)
          exact hnot hi
        rw [hprev i (List.mem_cons_of_mem _ hi), if_neg hne]

-- Closing the links around a node whose link back is there.
theorem Half.unlink (h : Half next prev head tail (left ++ node :: right))
    (hnext : ∀ i ∈ left ++ right,
      next' i = if left.getLast? = some i then next node else next i)
    (hprev : ∀ i ∈ left ++ right,
      prev' i = if right.head? = some i then left.getLast? else prev i) :
    Half next' prev' (if left = [] then next node else head)
      (if right = [] then left.getLast? else tail) (left ++ right) where
  forward := h.forward.unlink hnext
  last := by
    cases right with
    | nil => simp
    | cons after rest =>
        rw [if_neg (by simp), h.last]
        simp [List.getLast?_append]
  backward := by
    obtain ⟨hleft, -, hright⟩ := back_append.mp h.backward
    have hn := List.nodup_append.mp h.nodup
    refine back_append.mpr ⟨?_, ?_⟩
    · apply hleft.congr
      intro i hi
      have hne : right.head? ≠ some i := fun he =>
        hn.2.2 i hi i (List.mem_cons_of_mem _ (List.mem_of_head? he)) rfl
      rw [hprev i (List.mem_append_left _ hi), if_neg hne]
    · cases right with
      | nil => trivial
      | cons after rest =>
          refine ⟨.inl ?_, ?_⟩
          · rw [hprev after (by simp), List.head?_cons, if_pos rfl, Option.or_none]
          · apply hright.2.congr
            intro i hi
            have hne : some after ≠ some i := fun he => by
              obtain rfl := Option.some.inj he
              exact (List.nodup_cons.mp (List.nodup_cons.mp hn.2.1).2).1 hi
            rw [hprev i (by simp [hi]), List.head?_cons, if_neg hne]

end Half

end Linked
