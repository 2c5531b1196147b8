import UserPageCache.Lib.System
import UserPageCache.SsdCache.WorkQueue.Theorems
import Mathlib.Data.List.Nodup

namespace UserPageCache.SsdCache

-- What lies between front and rear.
def WorkQueue.content (wq : WorkQueue) : List Work :=
  (List.range ((wq.rear + MAX_WORKQUEUE_SIZE - wq.front) % MAX_WORKQUEUE_SIZE)).map fun i =>
    wq.works ((wq.front + i) % MAX_WORKQUEUE_SIZE)

-- The queue with its history: the works that were accepted, in that order, how many were
-- removed, and what the consumer has peeked at since it last removed one.
structure Queueing where
  wq : WorkQueue
  accepted : List Work
  removed : Nat
  peeked : Option Work

-- Each call is one critical section of the queue's lock. Only the consumer peeks and removes.
inductive QueueAction where
  | insertWork (work : Work)
  | peakWork
  | removeWork
  | isEmpty

namespace Queueing

def enabled : QueueAction → Prop
  | .insertWork work => work.fullPathName.length ≤ MAX_PATH_SIZE
  | _ => True

instance : (a : QueueAction) → Decidable (enabled a)
  | .insertWork work => inferInstanceAs (Decidable (work.fullPathName.length ≤ MAX_PATH_SIZE))
  | .peakWork => .isTrue trivial
  | .removeWork => .isTrue trivial
  | .isEmpty => .isTrue trivial

def act : QueueAction → Queueing → Except Fault Queueing
  | .insertWork work, s => do
    let (wq, accepted) ← SsdCache.insertWork s.wq work.fullPathName work.cachePageIndex
    return { s with wq := wq, accepted := if accepted then s.accepted ++ [work] else s.accepted }
  | .peakWork, s => .ok { s with peeked := SsdCache.peakWork s.wq }
  | .removeWork, s =>
    .ok { s with
      wq := (SsdCache.removeWork s.wq).1
      removed := s.removed + (SsdCache.removeWork s.wq).2.toNat
      peeked := none }
  | .isEmpty, s => .ok s

end Queueing

def queueing : System Queueing QueueAction Fault where
  start s := (∃ wq, s.wq = initWorkQueue wq) ∧ s.accepted = [] ∧ s.removed = 0 ∧ s.peeked = none
  enabled a _ := Queueing.enabled a
  act := Queueing.act

instance (a : QueueAction) (s : Queueing) : Decidable (queueing.enabled a s) :=
  inferInstanceAs (Decidable (Queueing.enabled a))

section Content

variable {wq : WorkQueue} {queue : List Work}

theorem IsQueue.content (q : IsQueue wq queue) : wq.content = queue := by
  have hf := q.front
  have hs := q.space
  have hlen : (wq.rear + MAX_WORKQUEUE_SIZE - wq.front) % MAX_WORKQUEUE_SIZE = queue.length := by
    rw [q.rear]
    simp only [MAX_WORKQUEUE_SIZE] at hf hs ⊢
    omega
  unfold WorkQueue.content
  rw [hlen]
  apply List.ext_getElem
  · simp
  · intro i hi hi'
    simp [q.works i hi']

end Content

-- The ring holds the works accepted and not yet removed. What was peeked at is still in front.
structure Queueing.Tracks (s : Queueing) : Prop where
  queue : IsQueue s.wq (s.accepted.drop s.removed)
  nodup : (s.accepted.drop s.removed).Nodup
  removed : s.removed ≤ s.accepted.length
  peeked : ∀ work, s.peeked = some work → (s.accepted.drop s.removed).head? = some work

namespace Queueing.Tracks

variable {s s' : Queueing}

theorem start (hs : queueing.start s) : s.Tracks := by
  obtain ⟨⟨wq, hwq⟩, ha, hr, hp⟩ := hs
  refine ⟨?_, by simp [ha], by simp [ha, hr], by simp [hp]⟩
  rw [hwq, ha, List.drop_nil]
  exact isQueue_init wq

theorem insertWork (h : s.Tracks) (work : Work) :
    ∃ s', Queueing.act (.insertWork work) s = .ok s' ∧ s'.Tracks := by
  obtain ⟨wq, heq, q⟩ := h.queue.insertWork work
  refine ⟨_, by simp only [act, heq, bind, Except.bind, pure, Except.pure]; rfl, ?_⟩
  by_cases hroom : (s.accepted.drop s.removed).length < MAX_WORKQUEUE_SIZE - 1 ∧
      work ∉ s.accepted.drop s.removed
  · rw [if_pos hroom] at q
    have hdrop : (s.accepted ++ [work]).drop s.removed = s.accepted.drop s.removed ++ [work] :=
      List.drop_append_of_le_length h.removed
    refine ⟨?_, ?_, ?_, ?_⟩ <;> simp only [hroom, not_false_eq_true, and_self, decide_true, ite_true]
    · rw [hdrop]
      exact q
    · rw [hdrop]
      exact List.nodup_append.mpr ⟨h.nodup, List.nodup_singleton work, fun a ha b hb => by
        rintro rfl
        exact hroom.2 (List.mem_singleton.mp hb ▸ ha)⟩
    · have hle := h.removed
      simp only [List.length_append, List.length_singleton]
      omega
    · intro front hp
      have hfront := h.peeked front hp
      rw [hdrop, List.head?_append, hfront, Option.some_or]
  · rw [if_neg hroom] at q
    simp only [hroom, decide_false, Bool.false_eq_true, ite_false]
    exact ⟨q, h.nodup, h.removed, h.peeked⟩

theorem removeWork (h : s.Tracks) : ∃ s', Queueing.act .removeWork s = .ok s' ∧ s'.Tracks := by
  obtain ⟨q, hr⟩ := h.queue.removeWork
  have hle := h.removed
  have htail : s.accepted.drop (s.removed + (SsdCache.removeWork s.wq).2.toNat) =
      (s.accepted.drop s.removed).tail := by
    rw [hr]
    cases hq : s.accepted.drop s.removed with
    | nil => simpa using hq
    | cons work rest => rw [List.isEmpty_cons, Bool.not_false, Bool.toNat_true, ← List.tail_drop, hq]
  have hbound : s.removed + (SsdCache.removeWork s.wq).2.toNat ≤ s.accepted.length := by
    rw [hr]
    cases hq : s.accepted.drop s.removed with
    | nil => simpa using hle
    | cons work rest =>
        have hlen := congrArg List.length hq
        simp only [List.length_drop, List.length_cons] at hlen
        simp only [List.isEmpty_cons, Bool.not_false, Bool.toNat_true]
        omega
  refine ⟨_, rfl, ?_, ?_, hbound, by simp⟩
  · simp only [htail]
    exact q
  · simp only [htail]
    exact h.nodup.sublist (List.tail_sublist _)

theorem act (h : s.Tracks) (a : QueueAction) : ∃ s', Queueing.act a s = .ok s' ∧ s'.Tracks := by
  cases a with
  | insertWork work => exact h.insertWork work
  | peakWork =>
      refine ⟨_, rfl, h.queue, h.nodup, h.removed, fun work hp => ?_⟩
      exact h.queue.peakWork.symm.trans hp
  | removeWork => exact h.removeWork
  | isEmpty => exact ⟨s, rfl, h⟩

theorem of_reachable (h : queueing.Reachable System.Always s) : s.Tracks := by
  refine h.invariant (fun s hs => .start hs) ?_
  intro s s' a ht _ _ hact
  obtain ⟨s₁, heq, ht'⟩ := ht.act a
  obtain rfl : s₁ = s' := Except.ok.inj (heq.symm.trans hact)
  exact ht'

end Queueing.Tracks

-- A bounded FIFO without duplicates, and what the four calls make of it.
structure IsFifo (s : Queueing) : Prop where
  content : s.wq.content = s.accepted.drop s.removed
  nodup : s.wq.content.Nodup
  size : s.wq.size = s.wq.content.length
  insert : ∀ work : Work, work.fullPathName.length ≤ MAX_PATH_SIZE → ∃ wq,
    insertWork s.wq work.fullPathName work.cachePageIndex =
      .ok (wq, decide (work ∉ s.wq.content ∧ s.wq.content.length < MAX_WORKQUEUE_SIZE - 1)) ∧
    wq.content = if work ∉ s.wq.content ∧ s.wq.content.length < MAX_WORKQUEUE_SIZE - 1 then
      s.wq.content ++ [work] else s.wq.content
  peak : peakWork s.wq = s.wq.content.head?
  empty : isEmpty s.wq = s.wq.content.isEmpty
  remove : (removeWork s.wq).1.content = s.wq.content.tail ∧
    (removeWork s.wq).2 = !s.wq.content.isEmpty
  peeked : ∀ work, s.peeked = some work →
    (removeWork s.wq).2 = true ∧ s.wq.content = work :: (removeWork s.wq).1.content

theorem Queueing.Tracks.isFifo {s : Queueing} (h : s.Tracks) : IsFifo s := by
  have hc := h.queue.content
  have hr := h.queue.removeWork
  have hrc := hr.1.content
  constructor
  · exact hc
  · exact hc ▸ h.nodup
  · rw [hc]
    exact h.queue.size
  · intro work _
    obtain ⟨wq, heq, q⟩ := h.queue.insertWork work
    simp only [hc, and_comm (a := work ∉ _)]
    exact ⟨wq, heq, q.content⟩
  · rw [hc]
    exact h.queue.peakWork
  · rw [hc]
    unfold SsdCache.isEmpty
    rw [h.queue.size]
    cases s.accepted.drop s.removed <;> rfl
  · rw [hc]
    exact ⟨hrc, hr.2⟩
  · intro work hp
    have hfront := h.peeked work hp
    rw [hc, hrc, hr.2]
    cases hq : s.accepted.drop s.removed with
    | nil => simp [hq] at hfront
    | cons first rest =>
        rw [hq] at hfront
        obtain rfl := Option.some.inj hfront
        exact ⟨rfl, rfl⟩

theorem work_queue_fifo {s : Queueing} (h : queueing.Reachable System.Always s) : IsFifo s :=
  (Queueing.Tracks.of_reachable h).isFifo

def Queueing.boot : Queueing := ⟨initWorkQueue ⟨fun _ => ⟨[], 0⟩, 5, 7, 2⟩, [], 0, none⟩

theorem queueingBoot_reachable : queueing.Reachable System.Always Queueing.boot :=
  .start ⟨⟨_, rfl⟩, rfl, rfl, rfl⟩

def workAt (cachePageIndex : Nat) : Work := ⟨[⟨97, nonzero_a⟩], cachePageIndex⟩

-- Between the peek and the removal two producers come along, one of them with a queued work.
def Queueing.bootRun : List QueueAction :=
  [.insertWork (workAt 3), .insertWork (workAt 4), .peakWork, .insertWork (workAt 3),
    .insertWork (workAt 5), .removeWork, .isEmpty, .peakWork]

theorem work_queue_fifo_bootRun : ∃ s : Queueing, s.wq.content = [workAt 4, workAt 5] ∧
    s.peeked = some (workAt 4) ∧ IsFifo s := by
  obtain ⟨s, hs, hb⟩ := queueingBoot_reachable.exists_run (fun _ _ _ => trivial)
    (show _ = true from (by decide +kernel : (queueing.run Queueing.boot Queueing.bootRun).any
      (fun s => s.wq.content == [workAt 4, workAt 5] && s.peeked == some (workAt 4)) = true))
  simp only [Bool.and_eq_true, beq_iff_eq] at hb
  exact ⟨s, hb.1, hb.2, work_queue_fifo hs⟩

end UserPageCache.SsdCache
