import UserPageCache.Lib.Spin
import UserPageCache.SsdCache.Locking

namespace UserPageCache.SsdCache

open Spin (Word)

-- The word afterwards, and whether it was exchanged.
def atomicCompareExchange (ptr compare exchange : Nat) : Nat × Bool :=
  if ptr = compare then (exchange, true) else (ptr, false)

def spinlockInit (_ : Nat) : Nat := 0

-- One round of the loop.
def spinlockLock (locked : Nat) : Nat × Bool := atomicCompareExchange locked 0 1

def spinlockUnlock (_ : Nat) : Nat := 0

def spinlock : Word Nat where
  taken locked := locked != 0
  trylock := spinlockLock
  unlock := spinlockUnlock
  trylock_taken w h := by
    have hne : w ≠ 0 := by simpa using h
    simp [spinlockLock, atomicCompareExchange, hne]
  trylock_free w h := by
    have hz : w = 0 := by simpa using h
    simp [spinlockLock, atomicCompareExchange, hz]
  taken_unlock _ := rfl

theorem spinlock_init_free (locked : Nat) : spinlock.taken (spinlockInit locked) = false := rfl

namespace Locking

open Locks

variable {κ : Type*} {c : Spin.Config (Thread κ) Lock Nat}

-- The words are all that the threads share, yet each lock has at most one holder, which alone
-- gives it back; and while any thread spins, one inside a call that does not spin can go on.
theorem spinlocks_exclude [DecidableEq κ]
    (h : (Spin.threads spinlock (@body κ)).Reachable System.Always c) :
    (∃ holder : Lock → Option (Thread κ), (∀ l, c.word l ≠ 0 ↔ holder l ≠ none) ∧
      (∀ i l rest, c.code i = some (.unlock l rest) → holder l = some i) ∧
      (∀ i l rest, c.code i = some (.lock l rest) → holder l ≠ some i) ∧
      ∀ i, c.code i = none ∨ (∃ a, c.code i = some (.ret a)) → ∀ l, holder l ≠ some i) ∧
    ((∀ i, c.code i = none) → ∀ l, c.word l = 0) ∧
    ∀ i, c.Spins spinlock i → ∃ j, c.code j ≠ none ∧ ¬c.Spins spinlock j := by
  obtain ⟨owned, hr, href⟩ := Spin.refines_of_reachable h
  have ho := orderly_of_reachable body_balanced hr
  have htaken : ∀ l, c.word l ≠ 0 ↔ owned.owner l ≠ none := fun l => by
    rw [← href.owner l]
    simp [spinlock]
  refine ⟨⟨owned.owner, htaken, fun i l rest hi => ?_, fun i l rest hi => ?_, fun i hi l => ?_⟩,
    fun hidle l => ?_, fun i hi => ?_⟩
  · exact ho.unlocks_own (by rwa [href.code])
  · exact ho.not_self (by rwa [href.code])
  · exact ho.released (by rwa [href.code])
  · by_contra hne
    obtain ⟨i, hi⟩ := Option.ne_none_iff_exists'.mp ((htaken l).mp hne)
    exact ho.released (.inl (by rw [href.code, hidle i])) hi
  · obtain ⟨l, hw⟩ := href.spins_iff.mp hi
    obtain ⟨j, hbusy, hfree, -⟩ : ∃ j, owned.code j ≠ none ∧ (∀ l, ¬owned.Waits j l) ∧
        ∀ outcome, owned.enabled body (.step j outcome) := ho.progress hw
    refine ⟨j, href.code ▸ hbusy, fun hj => ?_⟩
    obtain ⟨l', hw'⟩ := href.spins_iff.mp hj
    exact hfree l' hw'

-- One client has taken mapping_lock, the attempt of another one has failed.
theorem spinlocks_exclude_contended : ∃ c : Spin.Config (Thread Bool) Lock Nat,
    c.Spins spinlock (.client false) ∧ c.word .mapping = 1 ∧
      ∃ j, c.code j ≠ none ∧ ¬c.Spins spinlock j := by
  let idle : Spin.Config (Thread Bool) Lock Nat := ⟨fun _ => none, fun _ => 0⟩
  let entered := idle.act spinlock (.call (.client true) lookupMapping.discard)
  let inside := entered.act spinlock (.step (.client true) true)
  let called := inside.act spinlock (.call (.client false) lookupMapping.discard)
  let spinning := called.act spinlock (.step (.client false) true)
  have hidle : (Spin.threads spinlock (@body Bool)).Reachable System.Always idle :=
    .start ⟨fun _ => rfl, fun _ => rfl⟩
  have hentered : (Spin.threads spinlock body).Reachable System.Always entered :=
    hidle.step (a := .call (.client true) lookupMapping.discard) ⟨rfl, .inl rfl⟩ trivial rfl
  have hinside : (Spin.threads spinlock body).Reachable System.Always inside :=
    hentered.step (a := .step (.client true) true) (by simp [Spin.threads, Spin.Config.enabled,
      entered, Spin.Config.act]) trivial rfl
  have hcalled : (Spin.threads spinlock body).Reachable System.Always called :=
    hinside.step (a := .call (.client false) lookupMapping.discard) ⟨rfl, .inl rfl⟩ trivial rfl
  have hspinning : (Spin.threads spinlock body).Reachable System.Always spinning :=
    hcalled.step (a := .step (.client false) true) (by simp [Spin.threads, Spin.Config.enabled,
      called, Spin.Config.act]) trivial rfl
  have hspins : spinning.Spins spinlock (.client false) := ⟨.mapping, _, rfl, rfl⟩
  obtain ⟨-, -, hprogress⟩ := spinlocks_exclude hspinning
  exact ⟨spinning, hspins, rfl, hprogress _ hspins⟩

end Locking

end UserPageCache.SsdCache
