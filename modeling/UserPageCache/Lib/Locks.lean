import Mathlib.Data.Finset.Erase
import Mathlib.Data.Finset.Insert
import Mathlib.Data.Set.Finite.Lemmas
import Mathlib.Logic.Function.Basic
import UserPageCache.Lib.System

-- Threads that run programs over shared locks. A program is what a piece of code does with
-- locks: the tests it makes on other data may come out either way.
namespace Locks

inductive Prog (ℓ : Type*) (α : Type) where
  | ret (a : α)
  | lock (l : ℓ) (rest : Prog ℓ α)
  | unlock (l : ℓ) (rest : Prog ℓ α)
  | choose (yes no : Prog ℓ α)

namespace Prog

variable {ℓ : Type*} {α β : Type}

def bind : Prog ℓ α → (α → Prog ℓ β) → Prog ℓ β
  | ret a, f => f a
  | lock l rest, f => lock l (rest.bind f)
  | unlock l rest, f => unlock l (rest.bind f)
  | choose yes no, f => choose (yes.bind f) (no.bind f)

instance : Monad (Prog ℓ) where
  pure := ret
  bind := bind

def acquire (l : ℓ) : Prog ℓ Unit := lock l (ret ())

def release (l : ℓ) : Prog ℓ Unit := unlock l (ret ())

def test : Prog ℓ Bool := choose (ret true) (ret false)

def discard (p : Prog ℓ α) : Prog ℓ Unit := p.bind fun _ => ret ()

end Prog

section Rules

variable {ℓ : Type*} {α β : Type} {rank : ℓ → Nat} {held : Finset ℓ} {l : ℓ}
  {Q Q' : α → Finset ℓ → Prop} {p : Prog ℓ α} {f : α → Prog ℓ β} {R : β → Finset ℓ → Prop}

-- A lock may be taken when all that the thread holds are below it.
def Below (rank : ℓ → Nat) (held : Finset ℓ) (l : ℓ) : Prop := ∀ h ∈ held, rank h < rank l

theorem below_empty (l : ℓ) : Below rank ∅ l := by simp [Below]

theorem Below.notMem (h : Below rank held l) : l ∉ held := fun hl => Nat.lt_irrefl _ (h l hl)

variable [DecidableEq ℓ]

-- Started with these locks held, the program takes locks in order, gives back only what it
-- holds, and ends with a result and held locks that satisfy `Q`.
def wp (rank : ℓ → Nat) : Prog ℓ α → (α → Finset ℓ → Prop) → Finset ℓ → Prop
  | .ret a, Q, held => Q a held
  | .lock l rest, Q, held => Below rank held l ∧ wp rank rest Q (insert l held)
  | .unlock l rest, Q, held => l ∈ held ∧ wp rank rest Q (held.erase l)
  | .choose yes no, Q, held => wp rank yes Q held ∧ wp rank no Q held

theorem wp_mono (h : wp rank p Q held) (hq : ∀ a held, Q a held → Q' a held) :
    wp rank p Q' held := by
  induction p generalizing held with
  | ret a => exact hq a held h
  | lock l rest ih => exact ⟨h.1, ih h.2⟩
  | unlock l rest ih => exact ⟨h.1, ih h.2⟩
  | choose yes no ihy ihn => exact ⟨ihy h.1, ihn h.2⟩

theorem wp_bind : wp rank (p >>= f) R held ↔ wp rank p (fun a => wp rank (f a) R) held := by
  change wp rank (p.bind f) R held ↔ _
  induction p generalizing held with
  | ret a => exact Iff.rfl
  | lock l rest ih => exact and_congr_right fun _ => ih
  | unlock l rest ih => exact and_congr_right fun _ => ih
  | choose yes no ihy ihn => exact and_congr ihy ihn

theorem wp_pure {a : α} : wp rank (pure a : Prog ℓ α) Q held ↔ Q a held := Iff.rfl

theorem wp_acquire {Q : Unit → Finset ℓ → Prop} :
    wp rank (Prog.acquire l) Q held ↔ Below rank held l ∧ Q () (insert l held) := Iff.rfl

theorem wp_release {Q : Unit → Finset ℓ → Prop} :
    wp rank (Prog.release l) Q held ↔ l ∈ held ∧ Q () (held.erase l) := Iff.rfl

theorem wp_test {Q : Bool → Finset ℓ → Prop} :
    wp rank (Prog.test : Prog ℓ Bool) Q held ↔ Q true held ∧ Q false held := Iff.rfl

-- A test may come out either way.
theorem wp_branch {f : Bool → Prog ℓ β} (ht : wp rank (f true) R held)
    (hf : wp rank (f false) R held) : wp rank (Prog.test >>= f) R held := by
  apply wp_bind.mpr
  exact wp_test.mpr ⟨ht, hf⟩

-- Every path gives back exactly what it took.
def Balanced (rank : ℓ → Nat) (held : Finset ℓ) (p : Prog ℓ α) : Prop :=
  wp rank p (fun _ after => after = held) held

theorem Balanced.call (h : Balanced rank held p) (hf : ∀ a, wp rank (f a) R held) :
    wp rank (p >>= f) R held := by
  apply wp_bind.mpr
  apply wp_mono h
  rintro a _ rfl
  exact hf a

theorem Balanced.bind (h : Balanced rank held p) (hf : ∀ a, Balanced rank held (f a)) :
    Balanced rank held (p >>= f) := h.call hf

theorem Balanced.pure (a : α) : Balanced rank held (pure a : Prog ℓ α) :=
  wp_pure.mpr rfl

theorem Balanced.test : Balanced rank held (Prog.test : Prog ℓ Bool) := ⟨rfl, rfl⟩

theorem Balanced.discard (h : Balanced rank held p) : Balanced rank held p.discard :=
  h.bind fun _ => .pure ()

-- A critical section: what runs inside gives the lock back on each of its paths.
theorem Balanced.locked (hl : Below rank held l)
    (hp : wp rank p (fun _ after => after = held) (insert l held)) :
    Balanced rank held (Prog.acquire l >>= fun _ => p) := by
  apply wp_bind.mpr
  exact wp_acquire.mpr ⟨hl, hp⟩

theorem wp_released (hl : Below rank held l) (hp : Balanced rank held p) :
    wp rank (Prog.release l >>= fun _ => p) (fun _ after => after = held) (insert l held) := by
  apply wp_bind.mpr
  apply wp_release.mpr
  rw [Finset.erase_insert hl.notMem]
  exact ⟨Finset.mem_insert_self l held, hp⟩

end Rules

-- What each thread still has to run, nothing between two calls, and who holds each lock.
structure Config (τ ℓ : Type*) where
  code : τ → Option (Prog ℓ Unit)
  owner : ℓ → Option τ

-- A thread begins a call, or runs on to its next lock operation, test or return.
inductive Move (τ ℓ : Type*) where
  | call (i : τ) (p : Prog ℓ Unit)
  | step (i : τ) (outcome : Bool)

namespace Config

variable {τ ℓ : Type*} [DecidableEq τ] [DecidableEq ℓ]

def enabled (body : τ → Prog ℓ Unit → Prop) (c : Config τ ℓ) : Move τ ℓ → Prop
  | .call i p => c.code i = none ∧ body i p
  | .step i _ => match c.code i with
    | none => False
    | some (.lock l _) => c.owner l = none
    | some _ => True

-- An unlock frees the lock whoever holds it.
def act (c : Config τ ℓ) : Move τ ℓ → Config τ ℓ
  | .call i p => { c with code := Function.update c.code i (some p) }
  | .step i outcome => match c.code i with
    | none => c
    | some (.ret _) => { c with code := Function.update c.code i none }
    | some (.lock l rest) => {
      code := Function.update c.code i (some rest)
      owner := Function.update c.owner l (some i) }
    | some (.unlock l rest) => {
      code := Function.update c.code i (some rest)
      owner := Function.update c.owner l none }
    | some (.choose yes no) =>
      { c with code := Function.update c.code i (some (if outcome then yes else no)) }

-- The thread is at a lock that is taken.
def Waits (c : Config τ ℓ) (i : τ) (l : ℓ) : Prop :=
  (∃ rest, c.code i = some (.lock l rest)) ∧ c.owner l ≠ none

end Config

-- Any number of threads, each of which makes calls of its own kind.
def threads {τ ℓ : Type*} [DecidableEq τ] [DecidableEq ℓ] (body : τ → Prog ℓ Unit → Prop) :
    System (Config τ ℓ) (Move τ ℓ) Empty where
  start c := (∀ i, c.code i = none) ∧ ∀ l, c.owner l = none
  enabled a c := c.enabled body a
  act a c := .ok (c.act a)

section Safety

variable {τ ℓ : Type*} {rank : ℓ → Nat}
  {body : τ → Prog ℓ Unit → Prop} {c : Config τ ℓ} {i j : τ} {l : ℓ} {held : Finset ℓ}
  {rest : Prog ℓ Unit}

theorem enabled_of_not_waits {p : Prog ℓ Unit} (hi : c.code i = some p) (hw : ∀ l, ¬c.Waits i l)
    (outcome : Bool) : c.enabled body (.step i outcome) := by
  unfold Config.enabled
  simp only [hi]
  cases p with
  | lock l rest =>
      by_contra hne
      exact hw l ⟨⟨rest, hi⟩, hne⟩
  | _ => trivial

variable [DecidableEq ℓ]

def Safe (rank : ℓ → Nat) (held : Finset ℓ) : Option (Prog ℓ Unit) → Prop
  | none => held = ∅
  | some p => wp rank p (fun _ after => after = ∅) held

def Config.Holds (c : Config τ ℓ) (i : τ) (held : Finset ℓ) : Prop :=
  ∀ l, l ∈ held ↔ c.owner l = some i

-- What each thread holds is what the rest of its call can handle.
def Orderly (rank : ℓ → Nat) (c : Config τ ℓ) : Prop :=
  ∀ i, ∃ held, c.Holds i held ∧ Safe rank held (c.code i)

-- No thread is at a lock that it holds.
theorem Orderly.not_self (h : Orderly rank c) (hi : c.code i = some (.lock l rest)) :
    c.owner l ≠ some i := by
  obtain ⟨held, hheld, hsafe⟩ := h i
  rw [hi] at hsafe
  exact fun hown => Below.notMem hsafe.1 ((hheld l).mpr hown)

theorem Orderly.unlocks_own (h : Orderly rank c) (hi : c.code i = some (.unlock l rest)) :
    c.owner l = some i := by
  obtain ⟨held, hheld, hsafe⟩ := h i
  rw [hi] at hsafe
  exact (hheld l).mp hsafe.1

-- A thread that returns, or is between two calls, holds nothing.
theorem Orderly.released (h : Orderly rank c)
    (hi : c.code i = none ∨ ∃ a, c.code i = some (.ret a)) : c.owner l ≠ some i := by
  obtain ⟨held, hheld, hsafe⟩ := h i
  have hempty : held = ∅ := by
    rcases hi with hi | ⟨a, hi⟩ <;> rw [hi] at hsafe <;> exact hsafe
  intro hown
  have hmem := (hheld l).mpr hown
  simp [hempty] at hmem

-- The owner of the highest lock that anyone waits for is inside a call and can go on.
theorem Orderly.progress [Finite ℓ] (h : Orderly rank c) (hw : c.Waits i l) :
    ∃ j, c.code j ≠ none ∧ (∀ l, ¬c.Waits j l) ∧ ∀ outcome, c.enabled body (.step j outcome) := by
  obtain ⟨top, ⟨k, hk⟩, hmax⟩ := Set.exists_max_image {l | ∃ i, c.Waits i l} rank
    (Set.toFinite _) ⟨l, i, hw⟩
  obtain ⟨j, hj⟩ := Option.ne_none_iff_exists'.mp hk.2
  obtain ⟨held, hheld, hsafe⟩ := h j
  have hmem : top ∈ held := (hheld top).mpr hj
  cases hcode : c.code j with
  | none =>
      rw [hcode] at hsafe
      obtain rfl : held = ∅ := hsafe
      exact absurd hmem (Finset.notMem_empty top)
  | some p =>
      have hwait : ∀ l, ¬c.Waits j l := by
        rintro l hl
        obtain ⟨rest, hrest⟩ := hl.1
        rw [hrest] at hsafe
        have hlt := hsafe.1 top hmem
        have hle := hmax l ⟨j, hl⟩
        omega
      exact ⟨j, by simp [hcode], hwait, enabled_of_not_waits hcode hwait⟩

variable [DecidableEq τ]

theorem Orderly.call (h : Orderly rank c) {p : Prog ℓ Unit} (hi : c.code i = none)
    (hp : Balanced rank ∅ p) : Orderly rank (c.act (.call i p)) := by
  intro j
  obtain ⟨held, hheld, hsafe⟩ := h j
  refine ⟨held, hheld, ?_⟩
  by_cases hj : j = i
  · subst j
    rw [hi] at hsafe
    obtain rfl : held = ∅ := hsafe
    simp only [Config.act, Function.update_self]
    exact hp
  · simpa [Config.act, hj] using hsafe

-- A step of one thread leaves the others as they are, when it does not touch their locks.
theorem Orderly.update (h : Orderly rank c) {code : Option (Prog ℓ Unit)} {owner : ℓ → Option τ}
    (hheld : ∀ l, l ∈ held ↔ owner l = some i) (hsafe : Safe rank held code)
    (hothers : ∀ j, j ≠ i → ∀ l, owner l = some j ↔ c.owner l = some j) :
    Orderly rank { code := Function.update c.code i code, owner := owner } := by
  intro j
  by_cases hj : j = i
  · subst j
    exact ⟨held, hheld, by simpa using hsafe⟩
  · obtain ⟨other, hother, hsafe'⟩ := h j
    exact ⟨other, fun l => (hother l).trans (hothers j hj l).symm, by simpa [hj] using hsafe'⟩

theorem Orderly.step (h : Orderly rank c) (body : τ → Prog ℓ Unit → Prop) {outcome : Bool}
    (he : c.enabled body (.step i outcome)) : Orderly rank (c.act (.step i outcome)) := by
  obtain ⟨held, hheld, hsafe⟩ := h i
  cases hcode : c.code i with
  | none => simp [Config.enabled, hcode] at he
  | some p =>
      rw [hcode] at hsafe
      unfold Config.act
      simp only [hcode]
      cases p with
      | ret a => exact h.update hheld hsafe fun _ _ _ => Iff.rfl
      | choose yes no =>
          apply h.update hheld _ fun _ _ _ => Iff.rfl
          cases outcome with
          | true => exact hsafe.1
          | false => exact hsafe.2
      | lock l rest =>
          have hfree : c.owner l = none := by simpa [Config.enabled, hcode] using he
          have hrest : Safe rank (insert l held) (some rest) := hsafe.2
          refine h.update (fun l' => ?_) hrest fun j hj l' => ?_
          · by_cases hl : l' = l
            · simp [hl]
            · simp [hl, hheld l']
          · by_cases hl : l' = l
            · subst l'
              simp [hfree, Ne.symm hj]
            · simp [hl]
      | unlock l rest =>
          have hown : c.owner l = some i := (hheld l).mp hsafe.1
          have hrest : Safe rank (held.erase l) (some rest) := hsafe.2
          refine h.update (fun l' => ?_) hrest fun j hj l' => ?_
          · by_cases hl : l' = l
            · simp [hl]
            · simp [hl, hheld l']
          · by_cases hl : l' = l
            · subst l'
              simp [hown, Ne.symm hj]
            · simp [hl]

theorem orderly_of_reachable (hbody : ∀ i p, body i p → Balanced rank ∅ p)
    (h : (threads body).Reachable System.Always c) : Orderly rank c := by
  apply h.invariant
  · rintro c ⟨hcode, howner⟩ i
    exact ⟨∅, fun l => by simp [howner], by rw [hcode]; rfl⟩
  · rintro c c' a hc he - hact
    rw [← Except.ok.inj hact]
    cases a with
    | call i p => exact hc.call he.1 (hbody i p he.2)
    | step i outcome => exact hc.step body he

end Safety

end Locks
