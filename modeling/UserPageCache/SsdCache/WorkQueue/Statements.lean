import UserPageCache.Lib.Sections
import UserPageCache.SsdCache.Spinlock
import UserPageCache.SsdCache.WorkQueue.Fifo

namespace UserPageCache.SsdCache

open Sections

-- The functions of the queue, statement by statement between spinlock_lock and spinlock_unlock.
namespace QueueCode

inductive Call where
  | isFull
  | isEmpty
  | containsWork (key : Work)
  | insertWork (key : Work)
  | removeWork
  | peakWork

inductive Reply where
  | flag (b : Bool)
  | front (work : Option Work)
deriving DecidableEq

-- The loops go round from their test to their comparison.
inductive Point where
  | isFull
  | isEmpty
  | containsFront (key : Work)
  | containsTest (key : Work) (i : Nat)
  | containsCompare (key : Work) (i : Nat)
  | insertFull (key : Work)
  | insertFront (key : Work)
  | insertTest (key : Work) (i : Nat)
  | insertCompare (key : Work) (i : Nat)
  | insertName (key : Work)
  | insertIndex (key : Work)
  | insertRear
  | insertSize
  | removeEmpty
  | removeFront
  | removeSize
  | peakEmpty
  | peakName
  | peakIndex (fullPathName : CString)

def enter : Call → Point
  | .isFull => .isFull
  | .isEmpty => .isEmpty
  | .containsWork key => .containsFront key
  | .insertWork key => .insertFull key
  | .removeWork => .removeEmpty
  | .peakWork => .peakEmpty

def next (i : Nat) : Nat := (i + 1) % MAX_WORKQUEUE_SIZE

def put (wq : WorkQueue) (work : Work) : WorkQueue :=
  { wq with works := Function.update wq.works wq.rear work }

def step (p : Point) (wq : WorkQueue) : WorkQueue × (Point ⊕ Reply) :=
  match p with
  | .isFull => (wq, .inr (.flag (wq.size == MAX_WORKQUEUE_SIZE)))
  | .isEmpty => (wq, .inr (.flag (wq.size == 0)))
  | .containsFront key => (wq, .inl (.containsTest key wq.front))
  | .containsTest key i =>
    (wq, if i = wq.rear then .inr (.flag false) else .inl (.containsCompare key i))
  | .containsCompare key i =>
    (wq, if (wq.works i).cachePageIndex == key.cachePageIndex &&
        (wq.works i).fullPathName.isPrefixOf key.fullPathName then .inr (.flag true)
      else .inl (.containsTest key (next i)))
  | .insertFull key =>
    (wq, if wq.size = MAX_WORKQUEUE_SIZE - 1 then .inr (.flag false) else .inl (.insertFront key))
  | .insertFront key => (wq, .inl (.insertTest key wq.front))
  | .insertTest key i =>
    (wq, .inl (if i = wq.rear then .insertName key else .insertCompare key i))
  | .insertCompare key i =>
    (wq, if (wq.works i).cachePageIndex == key.cachePageIndex &&
        (wq.works i).fullPathName == key.fullPathName then .inr (.flag false)
      else .inl (.insertTest key (next i)))
  -- The strcpy stays within the array for paths of at most MAX_PATH_SIZE characters.
  | .insertName key =>
    (put wq ⟨key.fullPathName, (wq.works wq.rear).cachePageIndex⟩, .inl (.insertIndex key))
  | .insertIndex key =>
    (put wq ⟨(wq.works wq.rear).fullPathName, key.cachePageIndex⟩, .inl .insertRear)
  | .insertRear => ({ wq with rear := next wq.rear }, .inl .insertSize)
  | .insertSize => ({ wq with size := wq.size + 1 }, .inr (.flag true))
  | .removeEmpty => (wq, if wq.size = 0 then .inr (.flag false) else .inl .removeFront)
  | .removeFront => ({ wq with front := next wq.front }, .inl .removeSize)
  | .removeSize => ({ wq with size := wq.size - 1 }, .inr (.flag true))
  | .peakEmpty => (wq, if wq.size = 0 then .inr (.front none) else .inl .peakName)
  | .peakName => (wq, .inl (.peakIndex (wq.works wq.front).fullPathName))
  | .peakIndex fullPathName =>
    (wq, .inr (.front (some ⟨fullPathName, (wq.works wq.front).cachePageIndex⟩)))

def code : Code Call Point Reply WorkQueue := ⟨enter, step⟩

-- A bounded queue without duplicates, with the prefix test of contains_work.
def apply : Call → List Work → List Work × Reply
  | .isFull, queue => (queue, .flag (queue.length == MAX_WORKQUEUE_SIZE))
  | .isEmpty, queue => (queue, .flag queue.isEmpty)
  | .containsWork key, queue =>
    (queue, .flag (queue.any fun w => w.cachePageIndex == key.cachePageIndex &&
      w.fullPathName.isPrefixOf key.fullPathName))
  | .insertWork key, queue =>
    if queue.length < MAX_WORKQUEUE_SIZE - 1 ∧ key ∉ queue then (queue ++ [key], .flag true)
    else (queue, .flag false)
  | .removeWork, queue => (queue.tail, .flag !queue.isEmpty)
  | .peakWork, queue => (queue, .front queue.head?)

section Alone

variable {wq wq' : WorkQueue} {queue : List Work} {r : Reply}

-- A loop ends at the first work that compares equal, or goes on behind the last one.
theorem walk (q : IsQueue wq queue) (same : Work → Bool) (test compare : Nat → Point) (b : Bool)
    (fin : Point ⊕ Reply)
    (htest : ∀ i, step (test i) wq = (wq, if i = wq.rear then fin else .inl (compare i)))
    (hcompare : ∀ i, step (compare i) wq =
      (wq, if same (wq.works i) then .inr (.flag b) else .inl (test (next i))))
    (n i : Nat) (hi : i + n = queue.length) :
    Runs code (test ((wq.front + i) % MAX_WORKQUEUE_SIZE)) wq wq' r ↔
      if (queue.drop i).any same then wq' = wq ∧ r = .flag b
      else match fin with
        | .inl p => Runs code p wq wq' r
        | .inr r' => wq' = wq ∧ r = r' := by
  induction n generalizing i with
  | zero =>
      have hrear : (wq.front + i) % MAX_WORKQUEUE_SIZE = wq.rear := (q.at_rear (by omega)).mpr hi
      have hstep := htest ((wq.front + i) % MAX_WORKQUEUE_SIZE)
      rw [if_pos hrear] at hstep
      have hdrop : queue.drop i = [] := List.drop_eq_nil_of_le (by omega)
      rw [hdrop, List.any_nil, if_neg (by decide)]
      cases fin with
      | inl p => exact runs_of_next hstep
      | inr r' => exact runs_of_last hstep
  | succ n ih =>
      have hlt : i < queue.length := by omega
      have hrear : (wq.front + i) % MAX_WORKQUEUE_SIZE ≠ wq.rear := fun he => by
        have hlast := (q.at_rear hlt.le).mp he
        omega
      have hstep := htest ((wq.front + i) % MAX_WORKQUEUE_SIZE)
      rw [if_neg hrear] at hstep
      have hcmp := hcompare ((wq.front + i) % MAX_WORKQUEUE_SIZE)
      have hnext : next ((wq.front + i) % MAX_WORKQUEUE_SIZE) =
          (wq.front + (i + 1)) % MAX_WORKQUEUE_SIZE := by
        simp only [next, MAX_WORKQUEUE_SIZE]
        omega
      rw [q.works i hlt, hnext] at hcmp
      rw [show Runs code _ wq wq' r ↔ _ from runs_of_next hstep, List.drop_eq_getElem_cons hlt,
        List.any_cons]
      cases hs : same queue[i] with
      | true =>
          rw [hs, if_pos rfl] at hcmp
          simpa using (runs_of_last hcmp : Runs code _ wq wq' r ↔ _)
      | false =>
          rw [hs, if_neg (by decide)] at hcmp
          rw [show Runs code _ wq wq' r ↔ _ from runs_of_next hcmp, Bool.false_or]
          exact ih (i + 1) (by omega)

theorem walk_front (q : IsQueue wq queue) (same : Work → Bool) (test compare : Nat → Point)
    (b : Bool) (fin : Point ⊕ Reply)
    (htest : ∀ i, step (test i) wq = (wq, if i = wq.rear then fin else .inl (compare i)))
    (hcompare : ∀ i, step (compare i) wq =
      (wq, if same (wq.works i) then .inr (.flag b) else .inl (test (next i)))) :
    Runs code (test wq.front) wq wq' r ↔
      if queue.any same then wq' = wq ∧ r = .flag b
      else match fin with
        | .inl p => Runs code p wq wq' r
        | .inr r' => wq' = wq ∧ r = r' := by
  have hwalk : Runs code _ wq wq' r ↔ _ := walk q same test compare b fin htest hcompare queue.length 0
    (Nat.zero_add _)
  rwa [Nat.add_zero, Nat.mod_eq_of_lt q.front] at hwalk

theorem contains_runs (q : IsQueue wq queue) (key : Work) :
    Runs code (enter (.containsWork key)) wq wq (apply (.containsWork key) queue).2 := by
  refine .next (q := .containsTest key wq.front) rfl ?_
  rw [walk_front q (fun w => w.cachePageIndex == key.cachePageIndex &&
    w.fullPathName.isPrefixOf key.fullPathName) (.containsTest key) (.containsCompare key) true
    (.inr (.flag false)) (fun _ => rfl) (fun _ => rfl)]
  cases hany : queue.any fun w => w.cachePageIndex == key.cachePageIndex &&
    w.fullPathName.isPrefixOf key.fullPathName <;> simp [apply, hany]

-- What insert_work writes in the end.
def accept (wq : WorkQueue) (key : Work) : WorkQueue :=
  { put wq key with rear := next wq.rear, size := wq.size + 1 }

theorem accept_runs (wq : WorkQueue) (key : Work) :
    Runs code (.insertName key) wq (accept wq key) (.flag true) := by
  refine .next rfl (.next rfl (.next rfl (.last ?_)))
  simp [code, step, put, accept, Function.update_idem]

-- Where there is room, an insert walks the queue first.
theorem insert_walk (q : IsQueue wq queue) (key : Work) (hfull : wq.size ≠ MAX_WORKQUEUE_SIZE - 1)
    (wq' : WorkQueue) (r : Reply) : Runs code (enter (.insertWork key)) wq wq' r ↔
      if queue.any fun w => w.cachePageIndex == key.cachePageIndex &&
          w.fullPathName == key.fullPathName then wq' = wq ∧ r = .flag false
      else Runs code (.insertName key) wq wq' r := by
  have hstart : code.step (.insertFull key) wq = (wq, .inl (.insertFront key)) := by
    simp [code, step, hfull]
  have hfront : code.step (.insertFront key) wq = (wq, .inl (.insertTest key wq.front)) := rfl
  rw [enter, runs_of_next hstart, runs_of_next hfront]
  exact walk_front q _ (.insertTest key) (.insertCompare key) false (.inl (.insertName key))
    (fun i => by simp only [step, apply_ite Sum.inl]) (fun _ => rfl)

theorem insert_runs (q : IsQueue wq queue) (key : Work) :
    ∃ wq', Runs code (enter (.insertWork key)) wq wq' (apply (.insertWork key) queue).2 ∧
      IsQueue wq' (apply (.insertWork key) queue).1 := by
  have hspace := q.space
  by_cases hfull : wq.size = MAX_WORKQUEUE_SIZE - 1
  · have hno : ¬(queue.length < MAX_WORKQUEUE_SIZE - 1 ∧ key ∉ queue) := by
      rw [← q.size]
      omega
    rw [apply, if_neg hno]
    exact ⟨wq, .last (by simp [code, enter, step, hfull]), q⟩
  · have hroom : queue.length < MAX_WORKQUEUE_SIZE - 1 := by
      rw [← q.size] at hspace ⊢
      omega
    have hwalk := insert_walk q key hfull
    obtain ⟨wq', heq, q'⟩ := q.insertWork key
    unfold SsdCache.insertWork at heq
    rw [if_neg hfull, q.scanWorks_front] at heq
    by_cases hany : queue.any fun w => w.cachePageIndex == key.cachePageIndex &&
        w.fullPathName == key.fullPathName
    · simp only [hany, bind, Except.bind, pure, Except.pure, ite_true, Except.ok.injEq,
        Prod.mk.injEq] at heq
      obtain ⟨rfl, hno⟩ := heq
      have hno' : ¬(queue.length < MAX_WORKQUEUE_SIZE - 1 ∧ key ∉ queue) := by
        simpa using hno.symm
      rw [if_neg hno'] at q'
      refine ⟨wq, (hwalk _ _).mpr ?_, ?_⟩
      · rw [if_pos hany]
        simp [apply, hno']
      · rw [apply, if_neg hno']
        exact q'
    · simp only [hany, bind, Except.bind, pure, Except.pure, Bool.false_eq_true, ite_false,
        Except.ok.injEq, Prod.mk.injEq] at heq
      obtain ⟨rfl, hyes⟩ := heq
      have hyes' : queue.length < MAX_WORKQUEUE_SIZE - 1 ∧ key ∉ queue := by
        simpa using hyes.symm
      rw [if_pos hyes'] at q'
      refine ⟨accept wq key, (hwalk _ _).mpr ?_, ?_⟩
      · rw [if_neg hany, apply, if_pos hyes']
        exact accept_runs wq key
      · rw [apply, if_pos hyes']
        exact q'

theorem implements : Implements code apply IsQueue where
  run {wq queue} k q := by
    cases k with
    | isFull => exact ⟨wq, .last (by simp [code, enter, step, apply, q.size]), q⟩
    | isEmpty =>
        refine ⟨wq, .last ?_, q⟩
        cases queue <;> simp [code, enter, step, apply, q.size]
    | containsWork key => exact ⟨wq, contains_runs q key, q⟩
    | insertWork key => exact insert_runs q key
    | removeWork =>
        obtain ⟨q', hflag⟩ := q.removeWork
        refine ⟨_, ?_, q'⟩
        rw [apply, ← hflag]
        unfold SsdCache.removeWork
        split
        · rename_i hs
          exact .last (by simp [code, enter, step, hs])
        · rename_i hs
          exact .next (q := .removeFront) (by simp [code, enter, step, hs]) (.next rfl (.last rfl))
    | peakWork =>
        refine ⟨wq, ?_, q⟩
        rw [apply, ← q.peakWork]
        unfold SsdCache.peakWork
        split
        · rename_i hs
          exact .last (by simp [code, enter, step, hs])
        · rename_i hs
          exact .next (q := .peakName) (by simp [code, enter, step, hs]) (.next rfl (.last rfl))

end Alone

section Threads

variable {τ : Type*} {log : List (τ × Call × Reply)} {queue : List Work}

def accepted (log : List (τ × Call × Reply)) : List Work :=
  log.filterMap fun
    | (_, .insertWork key, .flag true) => some key
    | _ => none

def removed (log : List (τ × Call × Reply)) : Nat :=
  log.countP fun
    | (_, .removeWork, .flag true) => true
    | _ => false

theorem legal_fifo (h : Legal apply [] log queue) : removed log ≤ (accepted log).length ∧
    queue = (accepted log).drop (removed log) ∧ queue.Nodup := by
  induction h with
  | nil => exact ⟨le_rfl, rfl, List.nodup_nil⟩
  | @snoc log queue i k _ ih =>
      obtain ⟨hle, hqueue, hnodup⟩ := ih
      unfold removed accepted at *
      rw [List.countP_append, List.filterMap_append]
      cases k with
      | isFull => simpa [apply] using ⟨hle, hqueue, hnodup⟩
      | isEmpty => simpa [apply] using ⟨hle, hqueue, hnodup⟩
      | containsWork key => simpa [apply] using ⟨hle, hqueue, hnodup⟩
      | peakWork => simpa [apply] using ⟨hle, hqueue, hnodup⟩
      | insertWork key =>
          by_cases hroom : queue.length < MAX_WORKQUEUE_SIZE - 1 ∧ key ∉ queue
          · simp only [apply, if_pos hroom, List.countP_singleton, List.filterMap_cons,
              List.filterMap_nil, Bool.false_eq_true, ite_false, Nat.add_zero, List.length_append,
              List.length_singleton]
            refine ⟨by omega, ?_, ?_⟩
            · rw [List.drop_append_of_le_length hle, ← hqueue]
            · exact List.nodup_append.mpr ⟨hnodup, List.nodup_singleton key, fun a ha b hb => by
                rintro rfl
                exact hroom.2 (List.mem_singleton.mp hb ▸ ha)⟩
          · simpa [apply, hroom] using ⟨hle, hqueue, hnodup⟩
      | removeWork =>
          cases queue with
          | nil => simpa [apply] using ⟨hle, List.drop_eq_nil_iff.mp hqueue.symm⟩
          | cons work rest =>
              have hlen := congrArg List.length hqueue
              simp only [List.length_cons, List.length_drop] at hlen
              simp only [apply, List.isEmpty_cons, Bool.not_false, List.countP_singleton, ite_true,
                List.filterMap_cons, List.filterMap_nil, List.append_nil, List.tail_cons]
              refine ⟨by omega, ?_, (List.nodup_cons.mp hnodup).2⟩
              rw [← List.tail_drop, ← hqueue, List.tail_cons]

variable [DecidableEq τ] {wq : WorkQueue} {c : Config τ Call Point Reply Nat WorkQueue}

-- However the statements of the threads are interleaved, the calls that have returned are calls
-- of a queue made one after the other, a call that is inside will be the next of them, and who
-- spins does so while another call comes to its end.
theorem work_queue_linearizable
    (h : (threads spinlock code (initWorkQueue wq)).Reachable System.Always c) :
    ∃ queue, Legal apply [] c.log queue ∧ queue = (accepted c.log).drop (removed c.log) ∧
      queue.Nodup ∧
      (∀ i j, (c.phase i).Busy → (c.phase j).Busy → i = j) ∧
      ((∀ i, ¬(c.phase i).Busy) → c.word = 0 ∧ c.mem.content = queue) ∧
      (∀ i k p, c.phase i = .inside k p →
        ∃ m, Runs code p c.mem m (apply k queue).2 ∧ m.content = (apply k queue).1) ∧
      ∀ i k, c.phase i = .spinning k → (spinlockLock c.word).2 = false → ∃ j, j ≠ i ∧
        ((∃ k p, c.phase j = .inside k p ∧ ∃ m r, Runs code p c.mem m r) ∨
          ∃ k r, c.phase j = .leaving k r) := by
  obtain ⟨queue, hl⟩ := linear_of_reachable implements (isQueue_init wq) h
  obtain ⟨-, hqueue, hnodup⟩ := legal_fifo hl.legal
  refine ⟨queue, hl.legal, hqueue, hnodup, hl.alone, fun hidle => ⟨?_, (hl.free hidle).content⟩,
    fun i k p hi => ?_, fun i k hi ht => hl.progress hi ht⟩
  · by_contra hne
    have htaken : spinlock.taken c.word = true := by simpa [spinlock] using hne
    obtain ⟨i, hi⟩ := hl.taken.mp htaken
    exact hidle i hi
  · obtain ⟨m, hruns, hr⟩ := hl.inside i k p hi
    exact ⟨m, hruns, hr.content⟩

-- A producer has taken the lock, and the consumer fails to.
theorem work_queue_linearizable_contended :
    ∃ c : Config Bool Call Point Reply Nat WorkQueue,
      c.phase false = .spinning .peakWork ∧
      c.phase true = .inside (.insertWork (workAt 3)) (.insertFront (workAt 3)) ∧
      ∃ m, Runs code (.insertFront (workAt 3)) c.mem m (.flag true) ∧ m.content = [workAt 3] := by
  let wq : WorkQueue := ⟨fun _ => ⟨[], 0⟩, 5, 7, 2⟩
  let c₀ : Config Bool Call Point Reply Nat WorkQueue := ⟨fun _ => .idle, 0, initWorkQueue wq, []⟩
  let c₁ := c₀.act spinlock code (.call true (.insertWork (workAt 3)))
  let c₂ := c₁.act spinlock code (.step true)
  let c₃ := c₂.act spinlock code (.call false .peakWork)
  let c₄ := c₃.act spinlock code (.step false)
  let c₅ := c₄.act spinlock code (.step true)
  have h₀ : (threads spinlock code (initWorkQueue wq)).Reachable System.Always c₀ :=
    .start ⟨rfl, rfl, rfl, rfl⟩
  have h₁ : (threads spinlock code (initWorkQueue wq)).Reachable System.Always c₁ :=
    h₀.step (a := .call true (.insertWork (workAt 3))) trivial trivial rfl
  have h₂ : (threads spinlock code (initWorkQueue wq)).Reachable System.Always c₂ :=
    h₁.step (a := .step true) trivial trivial rfl
  have h₃ : (threads spinlock code (initWorkQueue wq)).Reachable System.Always c₃ :=
    h₂.step (a := .call false .peakWork) trivial trivial rfl
  have h₄ : (threads spinlock code (initWorkQueue wq)).Reachable System.Always c₄ :=
    h₃.step (a := .step false) trivial trivial rfl
  have h₅ : (threads spinlock code (initWorkQueue wq)).Reachable System.Always c₅ :=
    h₄.step (a := .step true) trivial trivial rfl
  obtain ⟨queue, -, hqueue, -, -, -, hinside, -⟩ := work_queue_linearizable h₅
  obtain rfl : queue = [] := hqueue
  obtain ⟨m, hruns, hcontent⟩ := hinside true (.insertWork (workAt 3)) (.insertFront (workAt 3)) rfl
  exact ⟨c₅, rfl, rfl, m, hruns, hcontent⟩

end Threads

end QueueCode

end UserPageCache.SsdCache
