import UserPageCache.SsdCache.Mapping.Queue
import UserPageCache.SsdCache.WorkQueue.Fifo
import Mathlib.Data.List.Perm.Subperm

namespace UserPageCache.SsdCache

variable {wq : WorkQueue} {queue : List Work} {work : Work} {m m' : Mapping} {s : Queueing}

-- Another work of the block is queued whose name the path begins with.
def Shadowed (queue : List Work) (work : Work) : Prop :=
  ∃ w ∈ queue, w.cachePageIndex = work.cachePageIndex ∧ w.fullPathName <+: work.fullPathName ∧ w ≠ work

instance (queue : List Work) (work : Work) : Decidable (Shadowed queue work) :=
  inferInstanceAs (Decidable (∃ w ∈ queue, _))

-- A write of a missing block that goes to the file and leaves the queue as it is finds the
-- block's promotion there.
def Promoting (m : Mapping) (key : Work) (pageIndex : Nat) : Prop :=
  ∀ m', lookupMappingWithInsert m key.fullPathName pageIndex = .ok (m', none) →
    m'.wq.content = m.wq.content → key ∈ m.wq.content

section Membership

theorem any_prefix_iff : queue.any (fun w => w.cachePageIndex == work.cachePageIndex &&
    w.fullPathName.isPrefixOf work.fullPathName) = true ↔ work ∈ queue ∨ Shadowed queue work := by
  constructor
  · intro h
    obtain ⟨w, hw, hsame⟩ := List.any_eq_true.mp h
    simp only [Bool.and_eq_true, beq_iff_eq, List.isPrefixOf_iff_prefix] at hsame
    by_cases heq : w = work
    · exact .inl (heq ▸ hw)
    · exact .inr ⟨w, hw, hsame.1, hsame.2, heq⟩
  · rintro (hm | ⟨w, hw, hindex, hprefix, -⟩)
    · exact any_prefix_of_mem hm
    · refine List.any_eq_true.mpr ⟨w, hw, ?_⟩
      simp [hindex, hprefix]

theorem IsQueue.containsWork_iff (q : IsQueue wq queue) :
    SsdCache.containsWork wq work.fullPathName work.cachePageIndex = .ok (decide (work ∈ queue)) ↔
      work ∈ queue ∨ ¬ Shadowed queue work := by
  rw [q.containsWork, Except.ok.injEq, Bool.eq_iff_iff, any_prefix_iff, decide_eq_true_eq]
  tauto

-- The ways in which a write of a missing block goes to the file.
theorem IsQueue.diverted (q : IsQueue m.wq queue) {key : Work} {pageIndex : Nat}
    (hkey : toCachePageIndex pageIndex = key.cachePageIndex)
    (hmiss : find m key.fullPathName key.cachePageIndex = .ok (m', none)) :
    (∃ m₁, lookupMappingWithInsert m key.fullPathName pageIndex = .ok (m₁, none) ∧
        m₁.wq.content = queue) ↔
      key ∈ queue ∨ Shadowed queue key ∨
        allocatorEmpty m.ea = true ∧ ¬ queue.length < MAX_WORKQUEUE_SIZE - 1 := by
  obtain ⟨hwq, hea⟩ := find_rest hmiss
  have hcontains : SsdCache.containsWork (lookupMiss m').wq key.fullPathName key.cachePageIndex = _ :=
    (congrArg (fun wq => SsdCache.containsWork wq key.fullPathName key.cachePageIndex) hwq).trans
      (q.containsWork key.fullPathName key.cachePageIndex)
  unfold lookupMappingWithInsert
  rw [hkey]
  simp only [hmiss, hcontains, bind, Except.bind, pure, Except.pure]
  by_cases hin : key ∈ queue ∨ Shadowed queue key
  · simp only [any_prefix_iff.mpr hin, ite_true]
    refine iff_of_true ⟨_, rfl, ?_⟩ (hin.imp_right .inl)
    rw [← q.content]
    exact congrArg WorkQueue.content hwq
  · have hkeyq : key ∉ queue := fun h => hin (.inl h)
    have hshadow : ¬ Shadowed queue key := fun h => hin (.inr h)
    have hnot := Bool.eq_false_iff.mpr ((not_congr any_prefix_iff).mpr hin)
    simp only [hnot, Bool.false_eq_true, ite_false, hkeyq, hshadow, false_or]
    have hempty : allocatorEmpty (lookupMiss m').ea = allocatorEmpty m.ea :=
      congrArg allocatorEmpty hea
    by_cases hfree : allocatorEmpty m.ea = true
    · obtain ⟨wq, heq, q'⟩ := q.insertWork key
      have hinsert : SsdCache.insertWork (lookupMiss m').wq key.fullPathName key.cachePageIndex = _ :=
        (congrArg (fun wq => SsdCache.insertWork wq key.fullPathName key.cachePageIndex) hwq).trans heq
      simp only [hempty, hfree, ite_true, enqueue, hinsert, bind, Except.bind, pure, Except.pure,
        true_and]
      constructor
      · rintro ⟨m₁, hm₁, hcontent⟩ hroom
        obtain rfl := congrArg Prod.fst (Except.ok.inj hm₁)
        rw [if_pos ⟨hroom, hkeyq⟩] at q'
        have hlen := congrArg List.length (q'.content.symm.trans hcontent)
        simp at hlen
      · intro hfull
        rw [if_neg fun h => hfull h.1] at q'
        exact ⟨_, rfl, q'.content⟩
    · simp only [hempty, hfree, Bool.false_eq_true, ite_false, false_and, iff_false]
      rintro ⟨m₁, hm₁, -⟩
      exact absurd (insertDirty_isSome hm₁) Bool.false_ne_true

end Membership

-- In every state of the queue contains_work is right exactly when the pair is queued or nothing
-- shadows it. Then a write of a missing block is turned away for a queued promotion only, as far
-- as there is an entry for it or room in the queue.
theorem contains_work_iff (h : queueing.Reachable System.Always s) (key : Work) :
    (containsWork s.wq key.fullPathName key.cachePageIndex = .ok (decide (key ∈ s.wq.content)) ↔
      key ∈ s.wq.content ∨ ¬ Shadowed s.wq.content key) ∧
    (∃ wq, insertWork s.wq key.fullPathName key.cachePageIndex =
      .ok (wq, decide (s.wq.content.length < MAX_WORKQUEUE_SIZE - 1 ∧ key ∉ s.wq.content))) ∧
    ∀ m m' pageIndex, m.wq = s.wq → toCachePageIndex pageIndex = key.cachePageIndex →
      find m key.fullPathName key.cachePageIndex = .ok (m', none) →
      (Promoting m key pageIndex ↔ key ∈ s.wq.content ∨ ¬ Shadowed s.wq.content key ∧
        (allocatorEmpty m.ea = false ∨ s.wq.content.length < MAX_WORKQUEUE_SIZE - 1)) := by
  have htracks := Queueing.Tracks.of_reachable h
  have hcontent := htracks.queue.content
  have q : IsQueue s.wq s.wq.content := hcontent ▸ htracks.queue
  obtain ⟨wq, heq, -⟩ := q.insertWork key
  refine ⟨q.containsWork_iff, ⟨wq, heq⟩, fun m m' pageIndex hwq hkey hmiss => ?_⟩
  have hdiverted := IsQueue.diverted (hwq.symm ▸ q : IsQueue m.wq s.wq.content) hkey hmiss
  have hpromoting : Promoting m key pageIndex ↔
      ((∃ m₁, lookupMappingWithInsert m key.fullPathName pageIndex = .ok (m₁, none) ∧
        m₁.wq.content = s.wq.content) → key ∈ s.wq.content) := by
    unfold Promoting
    rw [hwq]
    exact ⟨fun hp ⟨m₁, hm₁, hsame⟩ => hp m₁ hm₁ hsame, fun hp m₁ hm₁ hsame => hp ⟨m₁, hm₁, hsame⟩⟩
  rw [hpromoting, hdiverted, ← Bool.not_eq_true]
  tauto

-- An empty cache of one block beside the queue.
def mappingBeside (wq : WorkQueue) : Mapping :=
  { (initMapping zeroMapping 512 1).getD zeroMapping with wq := wq }

def missesAt (m : Mapping) (key : Work) : Bool :=
  match find m key.fullPathName key.cachePageIndex with
  | .ok (_, none) => true
  | _ => false

theorem of_missesAt {key : Work} (h : missesAt m key = true) :
    ∃ m', find m key.fullPathName key.cachePageIndex = .ok (m', none) := by
  unfold missesAt at h
  split at h
  · exact ⟨_, by assumption⟩
  · exact absurd h Bool.false_ne_true

theorem contains_work_bootRun : ∃ s : Queueing, workAt 4 ∈ s.wq.content ∧
    containsWork s.wq (workAt 4).fullPathName 4 = .ok true ∧
    Promoting (mappingBeside s.wq) (workAt 4) 32 := by
  obtain ⟨s, hs, hb⟩ := queueingBoot_reachable.exists_run (fun _ _ _ => trivial)
    (show _ = true from (by decide +kernel : (queueing.run Queueing.boot Queueing.bootRun).any
      (fun s => decide (workAt 4 ∈ s.wq.content) && missesAt (mappingBeside s.wq) (workAt 4)) =
        true))
  simp only [Bool.and_eq_true, decide_eq_true_eq] at hb
  obtain ⟨m', hmiss⟩ := of_missesAt hb.2
  obtain ⟨hcontains, -, hdiverted⟩ := contains_work_iff hs (workAt 4)
  refine ⟨s, hb.1, (hcontains.mpr (.inl hb.1)).trans ?_, ?_⟩
  · rw [decide_eq_true hb.1]
  · exact (hdiverted _ m' 32 rfl (by decide) hmiss).mpr (.inl hb.1)

def longerName : Work := ⟨[⟨97, nonzero_a⟩, ⟨97, nonzero_a⟩], 3⟩

-- A promotion of block 3 of file a is queued; block 3 of file aa is missing and goes to the file.
theorem contains_work_mistakes_name : ∃ s : Queueing, queueing.Reachable System.Always s ∧
    longerName ∉ s.wq.content ∧
    containsWork s.wq longerName.fullPathName longerName.cachePageIndex = .ok true ∧
    (∃ wq, insertWork s.wq longerName.fullPathName longerName.cachePageIndex = .ok (wq, true)) ∧
    ∃ m, lookupMappingWithInsert (mappingBeside s.wq) longerName.fullPathName 24 = .ok (m, none) ∧
      m.wq.content = s.wq.content := by
  obtain ⟨s, hs, hb⟩ := queueingBoot_reachable.exists_run (fun _ _ _ => trivial)
    (show _ = true from (by decide +kernel : (queueing.run Queueing.boot
      [.insertWork (workAt 3)]).any (fun s => s.wq.content == [workAt 3] &&
        missesAt (mappingBeside s.wq) longerName) = true))
  simp only [Bool.and_eq_true, beq_iff_eq] at hb
  obtain ⟨m', hmiss⟩ := of_missesAt hb.2
  have htracks := Queueing.Tracks.of_reachable hs
  have q : IsQueue s.wq [workAt 3] := (htracks.queue.content.symm.trans hb.1) ▸ htracks.queue
  have hshadowed : Shadowed [workAt 3] longerName := by decide
  obtain ⟨wq, heq, -⟩ := q.insertWork longerName
  refine ⟨s, hs, by rw [hb.1]; decide, ?_, ⟨wq, heq⟩, ?_⟩
  · exact q.containsWork _ _
  · rw [hb.1]
    exact (q.diverted (m := mappingBeside s.wq) (by decide) hmiss).mpr (.inr (.inl hshadowed))

-- No pair that is not queued is accepted.
def Refuses (wq : WorkQueue) : Prop :=
  ∀ key : Work, key.fullPathName.length ≤ MAX_PATH_SIZE → key.cachePageIndex < 2 ^ 32 →
    key ∉ wq.content → ∃ wq', insertWork wq key.fullPathName key.cachePageIndex = .ok (wq', false)

-- Some pair is not queued.
theorem exists_not_queued (hlen : queue.length < MAX_WORKQUEUE_SIZE) :
    ∃ i < MAX_WORKQUEUE_SIZE, ⟨[], i⟩ ∉ queue := by
  by_contra hall
  push Not at hall
  have hnodup : ((List.range MAX_WORKQUEUE_SIZE).map (Work.mk [])).Nodup :=
    List.nodup_range.map fun i j hij => congrArg Work.cachePageIndex hij
  have hsub : (List.range MAX_WORKQUEUE_SIZE).map (Work.mk []) ⊆ queue := fun w hw => by
    obtain ⟨i, hi, rfl⟩ := List.mem_map.mp hw
    exact hall i (List.mem_range.mp hi)
  have hle := (List.subperm_of_subset hnodup hsub).length_le
  rw [List.length_map, List.length_range] at hle
  omega

theorem IsQueue.refuses_iff (q : IsQueue wq queue) :
    Refuses wq ↔ queue.length = MAX_WORKQUEUE_SIZE - 1 := by
  have hspace := q.space
  unfold Refuses
  rw [q.content]
  constructor
  · intro hall
    obtain ⟨i, hi, hnot⟩ := exists_not_queued hspace
    obtain ⟨wq', hrefused⟩ := hall ⟨[], i⟩ (Nat.zero_le _) (hi.trans (by decide)) hnot
    obtain ⟨wq₁, heq, -⟩ := q.insertWork ⟨[], i⟩
    have hbool := congrArg Prod.snd (Except.ok.inj (heq.symm.trans hrefused))
    simp only [decide_eq_false_iff_not, not_and_or, hnot, not_false_eq_true, not_true_eq_false,
      or_false] at hbool
    omega
  · intro hfull key _ _ _
    obtain ⟨wq', heq, -⟩ := q.insertWork key
    refine ⟨wq', heq.trans ?_⟩
    rw [decide_eq_false fun hroom => by omega]

-- is_full never says so, so it agrees with insert_work until insert_work refuses.
theorem is_full_iff (h : queueing.Reachable System.Always s) :
    ((isFull s.wq = true ↔ Refuses s.wq) ↔ s.wq.size < MAX_WORKQUEUE_SIZE - 1) ∧
      isFull s.wq = false := by
  have q := (Queueing.Tracks.of_reachable h).queue
  have hspace := q.space
  have hnever : isFull s.wq = false := by
    unfold isFull
    rw [beq_eq_false_iff_ne, q.size]
    omega
  refine ⟨?_, hnever⟩
  rw [hnever, q.refuses_iff, q.size]
  simp only [Bool.false_eq_true, false_iff]
  omega

def fullRun : List QueueAction :=
  (List.range (MAX_WORKQUEUE_SIZE - 1)).map fun i => .insertWork (workAt i)

theorem is_full_bootRun : ∃ s : Queueing, s.wq.size = 2 ∧ (isFull s.wq = true ↔ Refuses s.wq) := by
  obtain ⟨s, hs, hb⟩ := queueingBoot_reachable.exists_run (fun _ _ _ => trivial)
    (show _ = true from (by decide +kernel : (queueing.run Queueing.boot Queueing.bootRun).any
      (fun s => s.wq.size == 2) = true))
  have hsize := beq_iff_eq.mp hb
  exact ⟨s, hsize, (is_full_iff hs).1.mpr (hsize ▸ by decide)⟩

-- Fifteen works are queued and every other one is refused.
theorem is_full_never_says_so : ∃ s : Queueing, queueing.Reachable System.Always s ∧
    isFull s.wq = false ∧ Refuses s.wq := by
  obtain ⟨s, hs, hb⟩ := queueingBoot_reachable.exists_run (fun _ _ _ => trivial)
    (show _ = true from (by decide +kernel : (queueing.run Queueing.boot fullRun).any
      (fun s => s.wq.size == 15 && !isFull s.wq) = true))
  simp only [Bool.and_eq_true, beq_iff_eq, Bool.not_eq_true'] at hb
  have q := (Queueing.Tracks.of_reachable hs).queue
  exact ⟨s, hs, hb.2, q.refuses_iff.mpr (q.size.symm.trans hb.1)⟩

end UserPageCache.SsdCache
