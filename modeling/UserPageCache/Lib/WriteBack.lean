import Mathlib.Data.Set.Piecewise

-- A memory in two levels: what is read, and what lasts below it. A write reaches both levels or
-- stays in the upper one, until a flush of its block brings it down or a revert drops it.
namespace WriteBack

variable {ι κ α : Type*}

structure Memory (ι α : Type*) where
  upper : ι → α
  lower : ι → α

inductive Act (ι κ α : Type*) where
  | rest
  | absorb (cells : Set ι) (value : ι → α)
  | through (cells : Set ι) (value : ι → α)
  | flush (k : κ)
  | revert (k : κ)

def Memory.level (f : ι → α) : Memory ι α := ⟨f, f⟩

section Acts

variable (block : ι → κ)

def cellsOf (k : κ) : Set ι := {i | block i = k}

open Classical in
noncomputable def Memory.act (m : Memory ι α) : Act ι κ α → Memory ι α
  | .rest => m
  | .absorb cells value => ⟨cells.piecewise value m.upper, m.lower⟩
  | .through cells value => ⟨cells.piecewise value m.upper, cells.piecewise value m.lower⟩
  | .flush k => ⟨m.upper, (cellsOf block k).piecewise m.upper m.lower⟩
  | .revert k => ⟨(cellsOf block k).piecewise m.lower m.upper, m.lower⟩

noncomputable def Memory.acts (m : Memory ι α) (acts : List (Act ι κ α)) : Memory ι α :=
  acts.foldl (Memory.act block) m

end Acts

-- The cells of a write, with what it stores there.
def Act.Writes (a : Act ι κ α) (i : ι) (v : α) : Prop :=
  match a with
  | .absorb cells value | .through cells value => i ∈ cells ∧ value i = v
  | .rest | .flush _ | .revert _ => False

-- Both levels of every cell are as they should be.
def Memory.Within (P : ι → α → Prop) (m : Memory ι α) : Prop :=
  ∀ i, P i (m.upper i) ∧ P i (m.lower i)

variable {block : ι → κ} {m : Memory ι α} {P : ι → α → Prop} {a : Act ι κ α}

theorem Memory.Within.level {f : ι → α} (h : ∀ i, P i (f i)) : (Memory.level f).Within P :=
  fun i => ⟨h i, h i⟩

theorem piecewise_within (cells : Set ι) [∀ i, Decidable (i ∈ cells)] {f g : ι → α} {i : ι}
    (hf : i ∈ cells → P i (f i)) (hg : P i (g i)) : P i (cells.piecewise f g i) := by
  by_cases hi : i ∈ cells
  · rw [Set.piecewise_eq_of_mem _ _ _ hi]
    exact hf hi
  · rw [Set.piecewise_eq_of_notMem _ _ _ hi]
    exact hg

open Classical in
-- Acts move values between the levels, and bring new ones in by writes only.
theorem Memory.Within.act (h : m.Within P) (hw : ∀ i v, a.Writes i v → P i v) :
    (m.act block a).Within P := by
  intro i
  obtain ⟨hupper, hlower⟩ := h i
  cases a with
  | rest => exact ⟨hupper, hlower⟩
  | absorb cells value => exact ⟨piecewise_within cells (fun hi => hw i _ ⟨hi, rfl⟩) hupper, hlower⟩
  | through cells value =>
      exact ⟨piecewise_within cells (fun hi => hw i _ ⟨hi, rfl⟩) hupper,
        piecewise_within cells (fun hi => hw i _ ⟨hi, rfl⟩) hlower⟩
  | flush k => exact ⟨hupper, piecewise_within (cellsOf block k) (fun _ => hupper) hlower⟩
  | revert k => exact ⟨piecewise_within (cellsOf block k) (fun _ => hlower) hupper, hlower⟩

theorem Memory.Within.acts {acts : List (Act ι κ α)} (h : m.Within P)
    (hw : ∀ a ∈ acts, ∀ i v, a.Writes i v → P i v) : (m.acts block acts).Within P := by
  induction acts generalizing m with
  | nil => exact h
  | cons a rest ih =>
      obtain ⟨ha, hrest⟩ := List.forall_mem_cons.mp hw
      exact ih (h.act ha) hrest

end WriteBack
