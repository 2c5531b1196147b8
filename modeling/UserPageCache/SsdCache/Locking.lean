import UserPageCache.Lib.Locks

namespace UserPageCache.SsdCache.Locking

open Locks Locks.Prog

inductive Lock where
  | mapping
  | queue
deriving DecidableEq

instance : Finite Lock :=
  Finite.of_surjective (fun first => bif first then Lock.mapping else Lock.queue) fun
    | .mapping => ⟨true, rfl⟩
    | .queue => ⟨false, rfl⟩

-- mapping_lock is taken before the queue's lock.
def order : Lock → Nat
  | .mapping => 0
  | .queue => 1

section Code

-- A critical section without an early return, one that also reads its result, and one that
-- gives up when its first test succeeds.
def critical (l : Lock) : Prog Lock Unit := do
  acquire l
  release l

def probe (l : Lock) : Prog Lock Bool := do
  acquire l
  let res ← test
  release l
  return res

def attempt (l : Lock) : Prog Lock Bool := do
  acquire l
  if ← test then
    release l
    return false
  release l
  return true

def isEmpty : Prog Lock Bool := probe .queue

def containsWork : Prog Lock Bool := do
  acquire .queue
  if ← test then
    release .queue
    return true
  release .queue
  return false

-- The queue is full, or the key is queued already.
def insertWork : Prog Lock Bool := do
  acquire .queue
  if ← test then
    release .queue
    return false
  if ← test then
    release .queue
    return false
  release .queue
  return true

def removeWork : Prog Lock Bool := attempt .queue

def peakWork : Prog Lock Bool := attempt .queue

def infoMapping : Prog Lock Unit := critical .mapping

def promotionFreeToClean : Prog Lock Bool := attempt .mapping

def promotionComplete : Prog Lock Unit := critical .mapping

def demotionCleanToFree : Prog Lock Bool := attempt .mapping

def demotionComplete : Prog Lock Unit := critical .mapping

-- The dirty list is empty, or its head is being moved.
def writebackDirtyToClean : Prog Lock Bool := do
  acquire .mapping
  if ← test then
    release .mapping
    return false
  if ← test then
    release .mapping
    return false
  release .mapping
  return true

def writebackComplete : Prog Lock Unit := critical .mapping

-- mg_start takes no lock.
def doMigrationWork : Prog Lock Bool := do
  if ← peakWork then
    if ← promotionFreeToClean then
      promotionComplete
    else if ← demotionCleanToFree then
      demotionComplete
    else if ← writebackDirtyToClean then
      writebackComplete
    let _ ← removeWork
    return true
  return false

def lookupMapping : Prog Lock Bool := do
  acquire .mapping
  let e ← test
  if !e then
    let _ ← insertWork
  release .mapping
  return e

def lookupMappingWithInsert : Prog Lock Bool := do
  acquire .mapping
  let e ← test
  if !e then
    if ← containsWork then
      release .mapping
      return false
    -- No entry is free.
    if ← test then
      let _ ← insertWork
      release .mapping
      return false
  release .mapping
  return true

def removeMapping : Prog Lock Bool := probe .mapping

-- The entry is no longer allocated.
def setDirtyAfterWrite : Prog Lock Unit := do
  acquire .mapping
  if ← test then
    release .mapping
    return
  release .mapping

-- The migration worker, and any number of clients.
inductive Thread (κ : Type*) where
  | worker
  | client (k : κ)
deriving DecidableEq

def body {κ : Type*} : Thread κ → Prog Lock Unit → Prop
  | .worker, p => p = isEmpty.discard ∨ p = doMigrationWork.discard
  | .client _, p => p = lookupMapping.discard ∨ p = lookupMappingWithInsert.discard ∨
    p = removeMapping.discard ∨ p = setDirtyAfterWrite ∨ p = infoMapping

end Code

section Balance

variable {held : Finset Lock} {l : Lock}

theorem critical_balanced (hl : Below order held l) : Balanced order held (critical l) := by
  apply Balanced.locked hl
  exact ⟨Finset.mem_insert_self l held, Finset.erase_insert hl.notMem⟩

theorem probe_balanced (hl : Below order held l) : Balanced order held (probe l) := by
  apply Balanced.locked hl
  exact wp_branch (wp_released hl (.pure true)) (wp_released hl (.pure false))

theorem attempt_balanced (hl : Below order held l) : Balanced order held (attempt l) := by
  apply Balanced.locked hl
  exact wp_branch (wp_released hl (.pure false)) (wp_released hl (.pure true))

theorem containsWork_balanced (hl : Below order held .queue) :
    Balanced order held containsWork := by
  apply Balanced.locked hl
  exact wp_branch (wp_released hl (.pure true)) (wp_released hl (.pure false))

-- Two tests, each of which may end the section.
theorem two_tests_balanced (hl : Below order held l) : Balanced order held (do
    acquire l
    if ← test then
      release l
      return false
    if ← test then
      release l
      return false
    release l
    return true : Prog Lock Bool) := by
  apply Balanced.locked hl
  apply wp_branch
  · exact wp_released hl (.pure false)
  · exact wp_branch (wp_released hl (.pure false)) (wp_released hl (.pure true))

theorem insertWork_balanced (hl : Below order held .queue) : Balanced order held insertWork :=
  two_tests_balanced hl

theorem writebackDirtyToClean_balanced (hl : Below order held .mapping) :
    Balanced order held writebackDirtyToClean := two_tests_balanced hl

theorem setDirtyAfterWrite_balanced (hl : Below order held .mapping) :
    Balanced order held setDirtyAfterWrite := by
  apply Balanced.locked hl
  apply wp_branch
  · exact wp_released hl (.pure ())
  · exact ⟨Finset.mem_insert_self _ held, Finset.erase_insert hl.notMem⟩

-- Inside a section of mapping_lock the queue's lock may still be taken.
theorem below_queue : Below order (insert .mapping ∅) .queue := by
  intro l hl
  obtain rfl : l = .mapping := by simpa using hl
  decide

theorem lookupMapping_balanced : Balanced order ∅ lookupMapping := by
  apply Balanced.locked (below_empty _)
  apply wp_branch
  · exact wp_released (below_empty _) (.pure true)
  · apply (insertWork_balanced below_queue).call
    exact fun _ => wp_released (below_empty _) (.pure false)

theorem lookupMappingWithInsert_balanced : Balanced order ∅ lookupMappingWithInsert := by
  apply Balanced.locked (below_empty _)
  apply wp_branch
  · exact wp_released (below_empty _) (.pure true)
  · apply (containsWork_balanced below_queue).call
    intro queued
    cases queued with
    | true => exact wp_released (below_empty _) (.pure false)
    | false =>
        apply wp_branch
        · apply (insertWork_balanced below_queue).call
          exact fun _ => wp_released (below_empty _) (.pure false)
        · exact wp_released (below_empty _) (.pure true)

theorem doMigrationWork_balanced : Balanced order ∅ doMigrationWork := by
  have hm : Below order ∅ .mapping := below_empty _
  have hq : Below order ∅ .queue := below_empty _
  have hrest : Balanced order ∅ (removeWork >>= fun _ => (pure true : Prog Lock Bool)) :=
    (attempt_balanced hq).bind fun _ => .pure true
  apply (attempt_balanced hq).bind
  intro found
  cases found with
  | false => exact .pure false
  | true =>
      apply (attempt_balanced hm).bind
      intro promoted
      cases promoted with
      | true => exact (critical_balanced hm).bind fun _ => hrest
      | false =>
          apply (attempt_balanced hm).bind
          intro demoted
          cases demoted with
          | true => exact (critical_balanced hm).bind fun _ => hrest
          | false =>
              apply (writebackDirtyToClean_balanced hm).bind
              intro written
              cases written with
              | true => exact (critical_balanced hm).bind fun _ => hrest
              | false => exact hrest

end Balance

section Threads

variable {κ : Type*} {c : Config (Thread κ) Lock}

theorem body_balanced (i : Thread κ) (p : Prog Lock Unit) (h : body i p) :
    Balanced order ∅ p := by
  cases i with
  | worker =>
      rcases h with rfl | rfl
      · exact (probe_balanced (below_empty _)).discard
      · exact doMigrationWork_balanced.discard
  | client k =>
      rcases h with rfl | rfl | rfl | rfl | rfl
      · exact lookupMapping_balanced.discard
      · exact lookupMappingWithInsert_balanced.discard
      · exact (probe_balanced (below_empty _)).discard
      · exact setDirtyAfterWrite_balanced (below_empty _)
      · exact critical_balanced (below_empty _)

theorem locks_never_deadlock [DecidableEq κ]
    (h : (threads (@body κ)).Reachable System.Always c) :
    (∀ i l rest, c.code i = some (.lock l rest) → c.owner l ≠ some i) ∧
    (∀ i, c.code i = none ∨ (∃ a, c.code i = some (.ret a)) → ∀ l, c.owner l ≠ some i) ∧
    (∀ i l rest, c.code i = some (.unlock l rest) → c.owner l = some i) ∧
    (∀ i l, c.Waits i l → ∃ j, c.code j ≠ none ∧ (∀ l, ¬c.Waits j l) ∧
      ∀ outcome, c.enabled body (.step j outcome)) := by
  have ho := orderly_of_reachable body_balanced h
  exact ⟨fun i l rest hi => ho.not_self hi, fun i hi l => ho.released hi,
    fun i l rest hi => ho.unlocks_own hi, fun i l hw => ho.progress hw⟩

-- One client is inside lookup_mapping, another is about to enter it.
theorem locks_never_deadlock_contended : ∃ c : Config (Thread Bool) Lock,
    c.Waits (.client false) .mapping ∧ ∃ j, c.code j ≠ none ∧ ∀ l, ¬c.Waits j l := by
  let idle : Config (Thread Bool) Lock := ⟨fun _ => none, fun _ => none⟩
  let entered := idle.act (.call (.client true) lookupMapping.discard)
  let inside := entered.act (.step (.client true) true)
  let waiting := inside.act (.call (.client false) lookupMapping.discard)
  have hidle : (threads (@body Bool)).Reachable System.Always idle :=
    .start ⟨fun _ => rfl, fun _ => rfl⟩
  have hentered : (threads body).Reachable System.Always entered :=
    hidle.step (a := .call (.client true) lookupMapping.discard) ⟨rfl, .inl rfl⟩ trivial rfl
  have hinside : (threads body).Reachable System.Always inside :=
    hentered.step (a := .step (.client true) true) rfl trivial rfl
  have hwaiting : (threads body).Reachable System.Always waiting :=
    hinside.step (a := .call (.client false) lookupMapping.discard) ⟨rfl, .inl rfl⟩ trivial rfl
  have hwaits : waiting.Waits (.client false) .mapping := ⟨⟨_, rfl⟩, by
    intro hfree
    cases hfree⟩
  obtain ⟨-, -, -, hprogress⟩ := locks_never_deadlock hwaiting
  obtain ⟨j, hbusy, hfree, -⟩ := hprogress _ _ hwaits
  exact ⟨waiting, hwaits, j, hbusy, hfree⟩

end Threads

end UserPageCache.SsdCache.Locking
