import UserPageCache.SsdCache.WorkQueue

namespace UserPageCache.SsdCache

-- The ring holds the queued works from front to rear, in order. One position
-- always stays free, so front and rear meet only when the queue is empty.
structure IsQueue (wq : WorkQueue) (queue : List Work) : Prop where
  front : wq.front < MAX_WORKQUEUE_SIZE
  size : wq.size = queue.length
  space : queue.length < MAX_WORKQUEUE_SIZE
  rear : wq.rear = (wq.front + queue.length) % MAX_WORKQUEUE_SIZE
  works : ∀ i (h : i < queue.length), wq.works ((wq.front + i) % MAX_WORKQUEUE_SIZE) = queue[i]

section Ring

variable {wq : WorkQueue} {queue : List Work}

theorem isQueue_init (wq : WorkQueue) : IsQueue (initWorkQueue wq) [] where
  front := Nat.zero_lt_succ 15
  size := rfl
  space := Nat.zero_lt_succ 15
  rear := rfl
  works i h := by simp at h

theorem IsQueue.at_rear (q : IsQueue wq queue) {i : Nat} (hi : i ≤ queue.length) :
    (wq.front + i) % MAX_WORKQUEUE_SIZE = wq.rear ↔ i = queue.length := by
  have hf := q.front
  have hs := q.space
  rw [q.rear]
  simp only [MAX_WORKQUEUE_SIZE] at hf hs ⊢
  omega

-- The walk covers the queued works and nothing else.
theorem IsQueue.scanWorks (q : IsQueue wq queue) (same : Work → Bool) (fuel i : Nat)
    (hi : i ≤ queue.length) (hf : queue.length - i ≤ fuel) :
    scanWorks wq same fuel ((wq.front + i) % MAX_WORKQUEUE_SIZE) =
      .ok ((queue.drop i).any same) := by
  induction fuel generalizing i with
  | zero =>
      obtain rfl : i = queue.length := by omega
      simp [SsdCache.scanWorks, q.at_rear hi]
  | succ fuel ih =>
      by_cases he : i = queue.length
      · subst i
        simp [SsdCache.scanWorks, q.at_rear hi]
      · have hlt : i < queue.length := by omega
        have hne : ¬(wq.front + i) % MAX_WORKQUEUE_SIZE = wq.rear := by rwa [q.at_rear hi]
        have hnext : ((wq.front + i) % MAX_WORKQUEUE_SIZE + 1) % MAX_WORKQUEUE_SIZE =
            (wq.front + (i + 1)) % MAX_WORKQUEUE_SIZE := by
          simp only [MAX_WORKQUEUE_SIZE]
          omega
        rw [List.drop_eq_getElem_cons hlt, List.any_cons]
        simp only [SsdCache.scanWorks, hne, ite_false, q.works i hlt, hnext, ih (i + 1) hlt (by omega)]
        cases same queue[i] <;> simp

theorem IsQueue.scanWorks_front (q : IsQueue wq queue) (same : Work → Bool) :
    SsdCache.scanWorks wq same MAX_WORKQUEUE_SIZE wq.front = .ok (queue.any same) := by
  have h := q.scanWorks same MAX_WORKQUEUE_SIZE 0 (Nat.zero_le _) (by have := q.space; omega)
  rwa [Nat.add_zero, Nat.mod_eq_of_lt q.front] at h

-- A queued name that is a prefix of the one asked for counts as found.
theorem IsQueue.containsWork (q : IsQueue wq queue) (fullPathName : CString)
    (cachePageIndex : Nat) :
    containsWork wq fullPathName cachePageIndex =
      .ok (queue.any fun w => w.cachePageIndex == cachePageIndex &&
        w.fullPathName.isPrefixOf fullPathName) :=
  q.scanWorks_front _

theorem any_prefix_of_mem {work : Work} (h : work ∈ queue) :
    queue.any (fun w => w.cachePageIndex == work.cachePageIndex &&
      w.fullPathName.isPrefixOf work.fullPathName) = true := by
  refine List.any_eq_true.mpr ⟨work, h, ?_⟩
  simp

private theorem any_same_iff (work : Work) :
    queue.any (fun w => w.cachePageIndex == work.cachePageIndex &&
      w.fullPathName == work.fullPathName) = true ↔ work ∈ queue := by
  simp only [List.any_eq_true, Bool.and_eq_true, beq_iff_eq]
  constructor
  · rintro ⟨w, hw, hc, hp⟩
    have he : w = work := by
      cases w
      cases work
      simp_all
    exact he ▸ hw
  · exact fun hm => ⟨work, hm, rfl, rfl⟩

-- A work is accepted unless it is queued already or the ring is full.
theorem IsQueue.insertWork (q : IsQueue wq queue) (work : Work) :
    ∃ wq', insertWork wq work.fullPathName work.cachePageIndex =
        .ok (wq', decide (queue.length < MAX_WORKQUEUE_SIZE - 1 ∧ work ∉ queue)) ∧
      IsQueue wq' (if queue.length < MAX_WORKQUEUE_SIZE - 1 ∧ work ∉ queue then queue ++ [work]
        else queue) := by
  have hs := q.space
  unfold SsdCache.insertWork
  by_cases hfull : wq.size = MAX_WORKQUEUE_SIZE - 1
  · have hl : ¬queue.length < MAX_WORKQUEUE_SIZE - 1 := by
      rw [← q.size]
      omega
    refine ⟨wq, ?_, ?_⟩
    · simp [hfull, hl, pure, Except.pure]
    · simpa [hl] using q
  · have hl : queue.length < MAX_WORKQUEUE_SIZE - 1 := by
      rw [← q.size]
      rw [← q.size] at hs
      omega
    simp only [hfull, ite_false, q.scanWorks_front, bind, Except.bind]
    by_cases hm : work ∈ queue
    · refine ⟨wq, ?_, ?_⟩
      · simp only [(any_same_iff work).mpr hm]
        simp [hm, pure, Except.pure]
      · simpa [hm] using q
    · have hany : queue.any (fun w => w.cachePageIndex == work.cachePageIndex &&
          w.fullPathName == work.fullPathName) = false := by
        rw [← Bool.not_eq_true, any_same_iff]
        exact hm
      simp only [hany, hl, hm, not_false_eq_true, and_self, decide_true, ite_true]
      refine ⟨_, rfl, q.front, ?_, ?_, ?_, ?_⟩
      · simp [q.size]
      · simp only [List.length_append, List.length_singleton]
        omega
      · simp only [q.rear, List.length_append, List.length_singleton, MAX_WORKQUEUE_SIZE]
        omega
      · intro i hi
        simp only [List.length_append, List.length_singleton] at hi
        by_cases hlast : i = queue.length
        · subst i
          simp [q.rear]
        · have hlt : i < queue.length := by omega
          have hne : (wq.front + i) % MAX_WORKQUEUE_SIZE ≠ wq.rear := by
            rw [Ne, q.at_rear (by omega)]
            exact hlast
          simp [hne, hlt, q.works i hlt]

theorem IsQueue.removeWork (q : IsQueue wq queue) :
    IsQueue (removeWork wq).1 queue.tail ∧ (removeWork wq).2 = !queue.isEmpty := by
  unfold SsdCache.removeWork
  cases queue with
  | nil =>
      have hs : wq.size = 0 := q.size
      simpa [hs] using q
  | cons work rest =>
      have hf := q.front
      have hl := q.space
      have hs : ¬wq.size = 0 := by simp [q.size]
      simp only [List.length_cons] at hl
      simp only [hs, ite_false, List.tail_cons, List.isEmpty_cons, Bool.not_false, and_true]
      refine ⟨Nat.mod_lt _ (by decide), by simp [q.size], by omega, ?_, ?_⟩
      · have hr := q.rear
        simp only [List.length_cons, MAX_WORKQUEUE_SIZE] at hr ⊢
        omega
      · intro i hi
        have hw := q.works (i + 1) (by simpa using hi)
        have hidx : ((wq.front + 1) % MAX_WORKQUEUE_SIZE + i) % MAX_WORKQUEUE_SIZE =
            (wq.front + (i + 1)) % MAX_WORKQUEUE_SIZE := by
          simp only [MAX_WORKQUEUE_SIZE]
          omega
        rw [hidx, hw, List.getElem_cons_succ]

theorem IsQueue.peakWork (q : IsQueue wq queue) : peakWork wq = queue.head? := by
  unfold SsdCache.peakWork
  cases queue with
  | nil =>
      have hs : wq.size = 0 := q.size
      simp [hs]
  | cons work rest =>
      have hs : ¬wq.size = 0 := by simp [q.size]
      have hw := q.works 0 (by simp)
      rw [Nat.add_zero, Nat.mod_eq_of_lt q.front] at hw
      simp [hs, hw]

end Ring

end UserPageCache.SsdCache
