import UserPageCache.Lib.Locks

-- Locks that are words of shared memory, taken by an atomic operation that is tried until it
-- succeeds.
namespace Spin

open Locks

structure Word (ω : Type*) where
  taken : ω → Bool
  trylock : ω → ω × Bool
  unlock : ω → ω
  trylock_taken : ∀ w, taken w = true → trylock w = (w, false)
  trylock_free : ∀ w, taken w = false → (trylock w).2 = true ∧ taken (trylock w).1 = true
  taken_unlock : ∀ w, taken (unlock w) = false

section Programs

-- Threads that run programs over such locks, without any record of who holds one.
structure Config (τ ℓ ω : Type*) where
  code : τ → Option (Prog ℓ Unit)
  word : ℓ → ω

variable {τ ℓ ω : Type*} {W : Word ω} {body : τ → Prog ℓ Unit → Prop} {c : Config τ ℓ ω}
  {owned : Locks.Config τ ℓ} {i : τ} {l : ℓ} {rest : Prog ℓ Unit}

-- Another attempt would change nothing.
def Config.Spins (W : Word ω) (c : Config τ ℓ ω) (i : τ) : Prop :=
  ∃ l rest, c.code i = some (.lock l rest) ∧ W.taken (c.word l) = true

-- The same threads over locks with owners.
structure Refines (W : Word ω) (c : Config τ ℓ ω) (owned : Locks.Config τ ℓ) : Prop where
  code : owned.code = c.code
  owner : ∀ l, W.taken (c.word l) = true ↔ owned.owner l ≠ none

theorem Refines.free (h : Refines W c owned) : W.taken (c.word l) = false ↔ owned.owner l = none := by
  rw [← Bool.not_eq_true, h.owner, not_not]

theorem Refines.spins_iff (h : Refines W c owned) : c.Spins W i ↔ ∃ l, owned.Waits i l := by
  constructor
  · rintro ⟨l, rest, hi, ht⟩
    exact ⟨l, ⟨rest, by rw [h.code, hi]⟩, (h.owner l).mp ht⟩
  · rintro ⟨l, ⟨rest, hi⟩, ho⟩
    exact ⟨l, rest, by rw [← h.code, hi], (h.owner l).mpr ho⟩

variable [DecidableEq ℓ]

-- A word that is written follows its owner.
theorem Refines.update {code : τ → Option (Prog ℓ Unit)} {w : ω} {o : Option τ}
    (h : ∀ l, W.taken (c.word l) = true ↔ owned.owner l ≠ none)
    (hw : W.taken w = true ↔ o ≠ none) :
    Refines W ⟨code, Function.update c.word l w⟩ ⟨code, Function.update owned.owner l o⟩ := by
  refine ⟨rfl, fun l' => ?_⟩
  by_cases hl : l' = l
  · simp [hl, hw]
  · simpa [hl] using h l'

variable [DecidableEq τ]

namespace Config

def enabled (body : τ → Prog ℓ Unit → Prop) (c : Config τ ℓ ω) : Move τ ℓ → Prop
  | .call i p => c.code i = none ∧ body i p
  | .step i _ => c.code i ≠ none

def act (W : Word ω) (c : Config τ ℓ ω) : Move τ ℓ → Config τ ℓ ω
  | .call i p => { c with code := Function.update c.code i (some p) }
  | .step i outcome => match c.code i with
    | none => c
    | some (.ret _) => { c with code := Function.update c.code i none }
    | some (.lock l rest) => {
      code := if (W.trylock (c.word l)).2 then Function.update c.code i (some rest) else c.code
      word := Function.update c.word l (W.trylock (c.word l)).1 }
    | some (.unlock l rest) => {
      code := Function.update c.code i (some rest)
      word := Function.update c.word l (W.unlock (c.word l)) }
    | some (.choose yes no) =>
      { c with code := Function.update c.code i (some (if outcome then yes else no)) }

end Config

def threads (W : Word ω) (body : τ → Prog ℓ Unit → Prop) :
    System (Config τ ℓ ω) (Move τ ℓ) Empty where
  start c := (∀ i, c.code i = none) ∧ ∀ l, W.taken (c.word l) = false
  enabled a c := c.enabled body a
  act a c := .ok (c.act W a)

-- A failed attempt is no step; every other step is the same step on both sides.
theorem Refines.step (body : τ → Prog ℓ Unit → Prop) (h : Refines W c owned) (outcome : Bool)
    (he : c.enabled body (.step i outcome)) :
    Refines W (c.act W (.step i outcome)) owned ∨
      owned.enabled body (.step i outcome) ∧
        Refines W (c.act W (.step i outcome)) (owned.act (.step i outcome)) := by
  obtain ⟨p, hp⟩ := Option.ne_none_iff_exists'.mp he
  have hp' : owned.code i = some p := by rw [h.code, hp]
  cases p with
  | ret a =>
      refine .inr ⟨by simp [Locks.Config.enabled, hp'], ?_⟩
      simp only [Config.act, Locks.Config.act, hp, hp', h.code]
      exact ⟨rfl, h.owner⟩
  | choose yes no =>
      refine .inr ⟨by simp [Locks.Config.enabled, hp'], ?_⟩
      simp only [Config.act, Locks.Config.act, hp, hp', h.code]
      exact ⟨rfl, h.owner⟩
  | unlock l rest =>
      refine .inr ⟨by simp [Locks.Config.enabled, hp'], ?_⟩
      simp only [Config.act, Locks.Config.act, hp, hp', h.code]
      exact .update h.owner (by simp [W.taken_unlock])
  | lock l rest =>
      cases ht : W.taken (c.word l) with
      | true =>
          refine .inl ?_
          simp only [Config.act, hp, W.trylock_taken _ ht, Bool.false_eq_true, ite_false,
            Function.update_eq_self]
          exact ⟨h.code, h.owner⟩
      | false =>
          obtain ⟨hgot, htaken⟩ := W.trylock_free _ ht
          refine .inr ⟨by simpa [Locks.Config.enabled, hp'] using h.free.mp ht, ?_⟩
          simp only [Config.act, Locks.Config.act, hp, hp', hgot, ite_true, h.code]
          exact .update h.owner (by simp [htaken])

theorem refines_of_reachable (h : (threads W body).Reachable System.Always c) :
    ∃ owned, (Locks.threads body).Reachable System.Always owned ∧ Refines W c owned := by
  induction h with
  | @start c hc =>
      refine ⟨⟨c.code, fun _ => none⟩, .start ⟨hc.1, fun _ => rfl⟩, rfl, fun l => ?_⟩
      simp [hc.2 l]
  | @step c c' a _ he _ hact ih =>
      obtain ⟨owned, hr, hc⟩ := ih
      obtain rfl := Except.ok.inj hact
      cases a with
      | call i p =>
          refine ⟨_, hr.step (a := .call i p) ⟨hc.code ▸ he.1, he.2⟩ trivial rfl, ?_, hc.owner⟩
          simp only [Config.act, Locks.Config.act, hc.code]
      | step i outcome =>
          rcases hc.step body outcome he with hsame | ⟨he', hnext⟩
          · exact ⟨owned, hr, hsame⟩
          · exact ⟨_, hr.step (a := .step i outcome) he' trivial rfl, hnext⟩

end Programs

end Spin
