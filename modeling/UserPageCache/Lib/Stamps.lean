import Mathlib.Data.List.Basic
import Mathlib.Logic.Function.Basic

-- Lists whose elements stand in the order of the times at which they were stamped.
namespace Stamps

variable {α : Type*} {f : α → Nat} {now time : Nat} {l l' : List α} {b : α}

structure InOrder (f : α → Nat) (now : Nat) (l : List α) : Prop where
  ordered : l.Pairwise fun i j => f i < f j
  past : ∀ i ∈ l, f i < now

theorem InOrder.nil (f : α → Nat) (now : Nat) : InOrder f now [] := ⟨.nil, by simp⟩

theorem InOrder.sublist (h : InOrder f now l) (hs : l'.Sublist l) : InOrder f now l' :=
  ⟨h.ordered.sublist hs, fun i hi => h.past i (hs.subset hi)⟩

theorem InOrder.later (h : InOrder f now l) (hn : now ≤ time) : InOrder f time l :=
  ⟨h.ordered, fun i hi => Nat.lt_of_lt_of_le (h.past i hi) hn⟩

theorem InOrder.congr {f' : α → Nat} (h : InOrder f now l) (hf : ∀ i ∈ l, f' i = f i) :
    InOrder f' now l := by
  refine ⟨h.ordered.imp_of_mem fun hi hj hij => ?_, fun i hi => ?_⟩
  · rwa [hf _ hi, hf _ hj]
  · rw [hf i hi]
    exact h.past i hi

-- The first element carries the oldest stamp.
theorem InOrder.head {rest : List α} (h : InOrder f now l) (hl : l = b :: rest) :
    b ∈ l ∧ ∀ i ∈ l, i ≠ b → f b < f i := by
  subst hl
  refine ⟨List.mem_cons_self, fun i hi hne => ?_⟩
  exact (List.pairwise_cons.mp h.ordered).1 i ((List.mem_cons.mp hi).resolve_left hne)

variable [DecidableEq α]

def stamp (f : α → Nat) (now : Nat) : Option α → α → Nat
  | none => f
  | some b => Function.update f b now

theorem InOrder.push (h : InOrder f now l) (hb : b ∉ l) :
    InOrder (stamp f now (some b)) (now + 1) (l ++ [b]) := by
  have hother : ∀ i ∈ l, Function.update f b now i = f i := by
    intro i hi
    apply Function.update_of_ne
    rintro rfl
    exact hb hi
  refine ⟨List.pairwise_append.mpr ⟨(h.congr hother).ordered, List.pairwise_singleton _ _, ?_⟩, ?_⟩
  · intro i hi j hj
    obtain rfl := List.mem_singleton.mp hj
    simp only [stamp, hother i hi, Function.update_self]
    exact h.past i hi
  · intro i hi
    rcases List.mem_append.mp hi with hi | hi
    · simp only [stamp, hother i hi]
      exact Nat.lt_succ_of_lt (h.past i hi)
    · obtain rfl := List.mem_singleton.mp hi
      simp [stamp]

-- Stamping what is not in the list leaves it in order.
theorem InOrder.kept {c : Option α} (h : InOrder f now l) (hc : ∀ b, c = some b → b ∉ l) :
    InOrder (stamp f now c) (now + 1) l := by
  cases c with
  | none => exact h.later (Nat.le_succ now)
  | some b =>
      apply InOrder.later _ (Nat.le_succ now)
      apply h.congr
      intro i hi
      apply Function.update_of_ne
      rintro rfl
      exact hc i rfl hi

end Stamps
