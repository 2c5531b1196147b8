import Mathlib.Logic.Basic

-- Transition systems whose actions may fail, and what holds in every state they reach.
structure System (σ α ε : Type*) where
  start : σ → Prop
  enabled : α → σ → Prop
  act : α → σ → Except ε σ

namespace System

variable {σ τ α β ε : Type*} {S : System σ α ε} {allowed : α → σ → Prop}

-- The states of the runs all of whose actions are allowed where they are taken.
inductive Reachable (S : System σ α ε) (allowed : α → σ → Prop) : σ → Prop
  | start {s : σ} : S.start s → Reachable S allowed s
  | step {s s' : σ} {a : α} : Reachable S allowed s → S.enabled a s → allowed a s →
      S.act a s = .ok s' → Reachable S allowed s'

def Always (_ : α) (_ : σ) : Prop := True

theorem Reachable.invariant {I : σ → Prop} {s : σ} (h : Reachable S allowed s)
    (hstart : ∀ s, S.start s → I s)
    (hstep : ∀ s s' a, I s → S.enabled a s → allowed a s → S.act a s = .ok s' → I s') : I s := by
  induction h with
  | start hs => exact hstart _ hs
  | step _ he ha hact ih => exact hstep _ _ _ ih he ha hact

theorem Reachable.mono {wider : α → σ → Prop} {s : σ} (h : Reachable S allowed s)
    (hw : ∀ a s, allowed a s → wider a s) : Reachable S wider s := by
  induction h with
  | start hs => exact .start hs
  | step _ he ha hact ih => exact .step ih he (hw _ _ ha) hact

-- Every step of `S` is seen by `T` as a step or as no change.
theorem Reachable.map {T : System τ β ε} {f : σ → τ} {allowed' : β → τ → Prop} {s : σ}
    (h : Reachable S allowed s) (hstart : ∀ s, S.start s → T.start (f s))
    (hstep : ∀ s s' a, S.enabled a s → allowed a s → S.act a s = .ok s' → f s' = f s ∨
      ∃ b, T.enabled b (f s) ∧ allowed' b (f s) ∧ T.act b (f s) = .ok (f s')) :
    Reachable T allowed' (f s) := by
  induction h with
  | start hs => exact .start (hstart _ hs)
  | step _ he ha hact ih =>
      rcases hstep _ _ _ he ha hact with heq | ⟨b, hb, hb', hact'⟩
      · rwa [heq]
      · exact .step ih hb hb' hact'

-- The condition as part of what is enabled.
def restrict (S : System σ α ε) (allowed : α → σ → Prop) : System σ α ε :=
  { S with enabled := fun a s => S.enabled a s ∧ allowed a s }

theorem Reachable.of_restrict {s : σ} (h : Reachable (S.restrict allowed) Always s) :
    Reachable S allowed s := by
  induction h with
  | start hs => exact .start hs
  | step _ he _ hact ih => exact .step ih he.1 he.2 hact

instance [∀ a s, Decidable (S.enabled a s)] [∀ a s, Decidable (allowed a s)] (a : α) (s : σ) :
    Decidable ((S.restrict allowed).enabled a s) :=
  inferInstanceAs (Decidable (S.enabled a s ∧ allowed a s))

-- A condition on each action of a list where it is taken.
def Along (act : α → σ → Except ε σ) (allowed : α → σ → Prop) : List α → σ → Prop
  | [], _ => True
  | a :: rest, s => allowed a s ∧ match act a s with
    | .ok s' => Along act allowed rest s'
    | .error _ => True

instance Along.decide {act : α → σ → Except ε σ} [∀ a s, Decidable (allowed a s)] :
    (acts : List α) → (s : σ) → Decidable (Along act allowed acts s)
  | [], _ => .isTrue trivial
  | a :: rest, s =>
    match h : act a s with
    | .ok s' =>
      have : Decidable (Along act allowed rest s') := Along.decide rest s'
      decidable_of_iff (allowed a s ∧ Along act allowed rest s') (by simp [Along, h])
    | .error _ => decidable_of_iff (allowed a s) (by simp [Along, h])

theorem Along.next {act : α → σ → Except ε σ} {acts : List α} {a : α} {s s' : σ}
    (h : Along act allowed (a :: acts) s) (hact : act a s = .ok s') :
    Along act allowed acts s' := by
  unfold Along at h
  rw [hact] at h
  exact h.2

theorem Along.mono {act : α → σ → Except ε σ} {wider : α → σ → Prop} {acts : List α} {s : σ}
    (h : Along act allowed acts s) (hw : ∀ a ∈ acts, ∀ s, allowed a s → wider a s) :
    Along act wider acts s := by
  induction acts generalizing s with
  | nil => trivial
  | cons a rest ih =>
      refine ⟨hw a List.mem_cons_self s h.1, ?_⟩
      cases hact : act a s with
      | ok s' => exact ih (h.next hact) fun b hb => hw b (List.mem_cons_of_mem _ hb)
      | error fault => trivial

-- The actions of an indexed family, from the k-th on.
theorem along_range' {act : α → σ → Except ε σ} {f : Nat → α} {k n : Nat} {s s' : σ} (hk : k < n)
    (hact : act (f k) s = .ok s') : Along act allowed ((List.range' k (n - k)).map f) s ↔
      allowed (f k) s ∧ Along act allowed ((List.range' (k + 1) (n - (k + 1))).map f) s' := by
  obtain ⟨m, hm⟩ : ∃ m, n - k = m + 1 := ⟨n - k - 1, by omega⟩
  have hm' : n - (k + 1) = m := by omega
  rw [hm, hm', List.range'_succ, List.map_cons, Along, hact]

theorem along_range'_head {act : α → σ → Except ε σ} {f : Nat → α} {k n : Nat} {s : σ} (hk : k < n)
    (h : Along act allowed ((List.range' k (n - k)).map f) s) : allowed (f k) s := by
  obtain ⟨m, hm⟩ : ∃ m, n - k = m + 1 := ⟨n - k - 1, by omega⟩
  rw [hm, List.range'_succ, List.map_cons] at h
  exact h.1

section Run

variable [∀ a s, Decidable (S.enabled a s)]

def run (S : System σ α ε) [∀ a s, Decidable (S.enabled a s)] : σ → List α → Option σ
  | s, [] => some s
  | s, a :: rest =>
    if S.enabled a s then
      match S.act a s with
      | .ok s' => run S s' rest
      | .error _ => none
    else none

theorem Reachable.run {s s' : σ} {acts : List α} (h : Reachable S allowed s)
    (ha : ∀ a ∈ acts, ∀ s, allowed a s) (hr : S.run s acts = some s') :
    Reachable S allowed s' := by
  induction acts generalizing s with
  | nil => exact Option.some.inj hr ▸ h
  | cons a rest ih =>
      unfold System.run at hr
      by_cases he : S.enabled a s
      · rw [if_pos he] at hr
        cases hact : S.act a s with
        | ok s₁ =>
            rw [hact] at hr
            exact ih (.step h he (ha a List.mem_cons_self s) hact)
              (fun a ha' => ha a (List.mem_cons_of_mem _ ha')) hr
        | error fault => simp [hact] at hr
      · simp [he] at hr

-- A run that can be computed ends in a reachable state with what was computed of it.
theorem Reachable.exists_run {s : σ} {acts : List α} {p : σ → Bool} (h : Reachable S allowed s)
    (ha : ∀ a ∈ acts, ∀ s, allowed a s) (hr : (S.run s acts).any p = true) :
    ∃ s', Reachable S allowed s' ∧ p s' = true := by
  cases hrun : S.run s acts with
  | none => simp [hrun] at hr
  | some s' => exact ⟨s', h.run ha hrun, by simpa [hrun] using hr⟩

end Run

end System
