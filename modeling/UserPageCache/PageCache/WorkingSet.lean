import Mathlib.Data.Finset.Card
import UserPageCache.PageCache.Loss
import UserPageCache.PageCache.ReadYourWrites

namespace UserPageCache.PageCache

def Submission.key (e : Submission) : Key := (e.pathName, e.pageIndex)

-- The pios are READs of these pages, none of them twice.
structure Store.Fetched (d : Store) (keys : Finset Key) : Prop where
  once : (d.log.map Submission.key).Nodup
  reads : ∀ e ∈ d.log, e.operation = .read ∧ e.key ∈ keys

-- What a run has asked of the cache so far: how many pages it has written, and which it has read.
structure Budget where
  writes : Nat
  reads : Finset Key

namespace Budget

def after (b : Budget) : PageStep → Budget
  | .write .. => { b with writes := b.writes + 1 }
  | .read key => { b with reads := insert key b.reads }

-- Each write takes a page of its own, and so does each key that is read.
def total (b : Budget) : Nat := b.writes + b.reads.card

theorem total_le_after (b : Budget) (step : PageStep) : b.total ≤ (b.after step).total := by
  cases step with
  | write key copyLen src =>
      simp only [total, after]
      omega
  | read key =>
      have hle := Finset.card_le_card (Finset.subset_insert key b.reads)
      simp only [total, after]
      omega

theorem total_le_foldl (b : Budget) (steps : List PageStep) :
    b.total ≤ (steps.foldl after b).total := by
  induction steps generalizing b with
  | nil => exact le_rfl
  | cons step rest ih => exact (b.total_le_after step).trans (ih _)

end Budget

structure Working where
  session : Session
  budget : Budget

-- Requests of whole pages, as long as all that was written and read fits the cache.
def workingSet (cacheSize : Nat) : System Working Call Fault where
  start x := (∃ store, store.Correct ∧ store.log = [] ∧
    x.session = ⟨initPageCache cacheSize store, store.files⟩) ∧ x.budget = ⟨0, ∅⟩
  enabled c x := (sessions cacheSize).enabled c x.session ∧ c.len % PAGE_SIZE = 0 ∧
    InRange c.stream.ioOffset c.len ∧
    ((c.steps cacheSize).foldl Budget.after x.budget).total ≤ cacheSize
  act c x := do
    return ⟨← (sessions cacheSize).act c x.session, (c.steps cacheSize).foldl Budget.after x.budget⟩

instance (cacheSize : Nat) (c : Call) (x : Working) :
    Decidable ((workingSet cacheSize).enabled c x) :=
  inferInstanceAs (Decidable (_ ∧ _ ∧ _ ∧ _))

section Steps

variable {cacheSize : Nat} {s s' : State} {b : Budget} {lru free : List Nat} {key : Key}

-- Nothing has left the cache, and what it has come to hold is in the budget.
structure Fitting (cacheSize : Nat) (s : State) (b : Budget) : Prop where
  coherent : ∃ lru free, Coherent cacheSize s lru free
  room : cacheSize ≤ s.freeList.nrFree + b.total
  cached : ∀ key ∈ b.reads, s.entries key ≠ []
  writes : s.store.writes = []
  pios : s.store.Fetched b.reads

theorem Store.Fetched.mono {d : Store} {keys keys' : Finset Key} (h : d.Fetched keys)
    (hk : keys ⊆ keys') : d.Fetched keys' :=
  ⟨h.once, fun e he => ⟨(h.reads e he).1, hk (h.reads e he).2⟩⟩

theorem Store.Fetched.read {d : Store} {keys : Finset Key} (h : d.Fetched keys) (hnew : key ∉ keys)
    (frame : Frame) : (submitPio d .read key.1 key.2 frame).1.Fetched (insert key keys) := by
  refine ⟨?_, fun e he => ?_⟩
  · rw [submitPio_log, List.map_append, List.map_singleton]
    refine h.once.append (List.nodup_singleton _) fun key' hmem hlast => hnew ?_
    obtain ⟨e, he, rfl⟩ := List.mem_map.mp hmem
    have hkey : e.key = key := List.mem_singleton.mp hlast
    exact hkey ▸ (h.reads e he).2
  · rw [submitPio_log] at he
    rcases List.mem_append.mp he with he | he
    · exact ⟨(h.reads e he).1, Finset.mem_insert_of_mem (h.reads e he).2⟩
    · rw [List.mem_singleton.mp he]
      exact ⟨rfl, Finset.mem_insert_self _ _⟩

theorem victims_of_free (h : s.freeList.nrFree ≠ 0) : s.victims = [] := if_neg h

-- A page that is filled without an eviction takes one from the free list.
theorem Coherent.fill_free (h : Coherent cacheSize s lru free) (h0 : s.freeList.nrFree ≠ 0)
    {pg : Nat} {kept free' : List Nat} {frame : Frame} {d : Store}
    (hl : lru = kept ++ s.victims.reverse) (hf : Filled s s' key pg kept free' frame d) :
    s'.freeList.nrFree + 1 = s.freeList.nrFree ∧ ∀ key', s'.entries key' =
      if key' = key then pg :: s.entries key' else s.entries key' := by
  have hnone := victims_of_free h0
  rw [hnone, List.reverse_nil, List.append_nil] at hl
  have hlen := h.tracked.lists.length
  have hlen' := hf.lists.length
  have hcount := h.tracked.lists.count
  have hcount' := hf.lists.count
  simp only [List.length_nil, List.length_cons, hf.size, hl] at hlen hlen'
  refine ⟨by omega, fun key' => ?_⟩
  rw [hf.entries, hnone]
  simp [State.holders]

theorem linked_of_free (h : s.freeList.nrFree ≠ 0) : s.Linked ∧ s.Whole := by
  unfold State.Linked State.Whole
  simp [victims_of_free h]

theorem Fitting.free_of_lt (h : Fitting cacheSize s b) (hlt : b.total + 1 ≤ cacheSize) :
    s.freeList.nrFree ≠ 0 := by
  have hroom := h.room
  omega

theorem Fitting.write (h : Fitting cacheSize s b) (hN : 2 ≤ cacheSize) (key : Key) (copyLen : Nat)
    (src : Nat → UInt8) (hle : (b.after (.write key copyLen src)).total ≤ cacheSize) :
    ∃ s', PageStep.act (.write key copyLen src) s = .ok s' ∧
      Fitting cacheSize s' (b.after (.write key copyLen src)) := by
  obtain ⟨lru, free, hc⟩ := h.coherent
  have hroom := h.room
  have hlt : b.total + 1 ≤ cacheSize := by
    simp only [Budget.after, Budget.total] at hle ⊢
    omega
  have h0 := h.free_of_lt hlt
  obtain ⟨hl, hw⟩ := linked_of_free h0
  obtain ⟨s', pg, kept, free', heq, hlru, hf⟩ := uwritePage_spec hc.tracked.lists
    (hc.size.symm ▸ hN) hl hc.tracked.holders key copyLen src
  have hfill := hlru ▸ hc
  obtain ⟨hc', -⟩ := hfill.fill hw hf (fun n => by rw [foldl_pageOut_answers, hc.correct]) rfl
  obtain ⟨hfree, hentries⟩ := hc.fill_free h0 hlru hf
  have hstore : s'.store = s.store := by rw [hf.store, victims_of_free h0, List.foldl_nil]
  refine ⟨s', heq, ⟨_, _, hc'⟩, ?_, fun key' hk => ?_, ?_, ?_⟩
  · simp only [Budget.after, Budget.total] at hroom ⊢
    omega
  · rw [hentries]
    split
    · simp
    · exact h.cached key' hk
  · rw [hstore, h.writes]
  · rw [hstore]
    exact h.pios

-- A page that is not there is read into a free frame.
theorem Fitting.read_miss (h : Fitting cacheSize s b) (hN : 2 ≤ cacheSize)
    (he : s.entries key = []) (hle : (b.after (.read key)).total ≤ cacheSize) :
    (s.Linked ∧ s.Whole) ∧ ∃ s', PageStep.act (.read key) s = .ok s' ∧
      Fitting cacheSize s' (b.after (.read key)) := by
  obtain ⟨lru, free, hc⟩ := h.coherent
  have hroom := h.room
  have hnew : key ∉ b.reads := fun hk => h.cached key hk he
  have hcard : (insert key b.reads).card = b.reads.card + 1 := Finset.card_insert_of_notMem hnew
  have hlt : b.total + 1 ≤ cacheSize := by
    simp only [Budget.after, Budget.total, hcard] at hle ⊢
    omega
  have h0 := h.free_of_lt hlt
  obtain ⟨hl, hw⟩ := linked_of_free h0
  obtain ⟨s', pg, kept, free', heq, hlru, hf⟩ := ureadPage_miss hc.tracked.lists
    (hc.size.symm ▸ hN) hl hc.tracked.holders he
  have hnone := victims_of_free h0
  have hfill := hlru ▸ hc
  have hd : (s.victims.foldl (pageOut s) s.store).Correct := fun n => by
    rw [foldl_pageOut_answers, hc.correct]
  obtain ⟨hc', -⟩ := hfill.fill hw hf (fun n => by rw [submitPio_answers, hd])
    (submitPio_read hd key (s.physBase pg)).2
  obtain ⟨hfree, hentries⟩ := hc.fill_free h0 hlru hf
  have hstore : s'.store = (submitPio s.store .read key.1 key.2 (s.physBase pg)).1 := by
    rw [hf.store, hnone, List.foldl_nil]
  refine ⟨⟨hl, hw⟩, s', by simp [PageStep.act, heq, bind, Except.bind, pure, Except.pure],
    ⟨_, _, hc'⟩, ?_, fun key' hk => ?_, ?_, ?_⟩
  · simp only [Budget.after, Budget.total, hcard] at hroom ⊢
    omega
  · rw [hentries]
    split
    · simp
    · rename_i hne
      exact h.cached key' ((Finset.mem_insert.mp hk).resolve_left hne)
  · rw [hstore, submitPio_read_writes, h.writes]
  · rw [hstore]
    exact h.pios.read hnew _

-- One that is there only moves to the head of the list.
theorem Fitting.read_hit {pg : Nat} {rest : List Nat} (h : Fitting cacheSize s b)
    (he : s.entries key = pg :: rest) : ∃ s', PageStep.act (.read key) s = .ok s' ∧
      Fitting cacheSize s' (b.after (.read key)) := by
  obtain ⟨lru, free, hc⟩ := h.coherent
  have hroom := h.room
  have hmono := b.total_le_after (.read key)
  obtain ⟨⟨lru', htracked, -⟩, hquiet, htable, -⟩ := hc.tracked.hit he
  have hentries : ∀ key', (moveToLruHead s pg).entries key' = s.entries key' :=
    entries_congr hquiet.size htable
  have hfree : (moveToLruHead s pg).freeList.nrFree = s.freeList.nrFree := by
    rw [htracked.lists.count, hc.tracked.lists.count]
  refine ⟨moveToLruHead s pg,
    by simp [PageStep.act, ureadPage_hit he, bind, Except.bind, pure, Except.pure],
    ⟨lru', free, htracked, hquiet.size.trans hc.size, hquiet.store.symm ▸ hc.correct⟩, ?_,
    fun key' hk => ?_, ?_, ?_⟩
  · rw [hfree]
    omega
  · rw [hentries]
    rcases Finset.mem_insert.mp hk with rfl | hk
    · simp [he]
    · exact h.cached key' hk
  · rw [hquiet.store, h.writes]
  · rw [hquiet.store]
    exact h.pios.mono (Finset.subset_insert key b.reads)

theorem Fitting.step (h : Fitting cacheSize s b) (hN : 2 ≤ cacheSize) (step : PageStep)
    (hle : (b.after step).total ≤ cacheSize) : Harmless step s ∧
      ∃ s', step.act s = .ok s' ∧ Fitting cacheSize s' (b.after step) := by
  cases step with
  | write key copyLen src =>
      have hlt : b.total + 1 ≤ cacheSize := by
        simp only [Budget.after, Budget.total] at hle ⊢
        omega
      exact ⟨linked_of_free (h.free_of_lt hlt), h.write hN key copyLen src hle⟩
  | read key =>
      cases he : s.entries key with
      | nil =>
          obtain ⟨hsafe, hstep⟩ := h.read_miss hN he hle
          exact ⟨fun _ => hsafe, hstep⟩
      | cons pg rest => exact ⟨fun hmiss => by simp [he] at hmiss, h.read_hit he⟩

-- The states that the pages of a call lead through, one after the other.
def runSteps (s : State) (steps : List PageStep) : Except Fault State :=
  steps.foldlM (fun s step => step.act s) s

theorem Fitting.steps (h : Fitting cacheSize s b) (hN : 2 ≤ cacheSize) {steps : List PageStep}
    (hle : (steps.foldl Budget.after b).total ≤ cacheSize) :
    System.Along PageStep.act (fun step s => Harmless step s ∧ Returns step s) steps s ∧
      ∃ s', runSteps s steps = .ok s' ∧ Fitting cacheSize s' (steps.foldl Budget.after b) := by
  induction steps generalizing s b with
  | nil => exact ⟨trivial, s, rfl, h⟩
  | cons step rest ih =>
      obtain ⟨hharmless, s₁, hact, h₁⟩ :=
        h.step hN step (((b.after step).total_le_foldl rest).trans hle)
      obtain ⟨halong, s', hrun, h'⟩ := ih h₁ hle
      refine ⟨⟨⟨hharmless, s₁, hact⟩, by rw [hact]; exact halong⟩, s', ?_, h'⟩
      simp only [runSteps, List.foldlM_cons, hact, bind, Except.bind]
      exact hrun

theorem runSteps_range {f : Nat → PageStep} {k : Nat} {s₁ : State}
    (h : runSteps s ((List.range k).map f) = .ok s₁) (hact : (f k).act s₁ = .ok s') :
    runSteps s ((List.range (k + 1)).map f) = .ok s' := by
  unfold runSteps at *
  rw [List.range_succ, List.map_append, List.foldlM_append, h]
  simp [hact, bind, Except.bind, pure, Except.pure]

-- A call that fits the cache does what its pages do.
theorem Call.act_steps {c : Call} (hr : InRange c.stream.ioOffset c.len)
    (hle : c.len ≤ s.cacheSize * PAGE_SIZE) (hthrough : c.Through Returns s) :
    ∃ s', c.act s = .ok s' ∧ runSteps s (c.steps s.cacheSize) = .ok s' := by
  cases c with
  | uwrite stream buffer size count =>
      have hfit := dataPages_le hr hle
      have hsize : size ≠ 0 := fun h0 => by
        have hpos := hr.1
        simp [Call.len, h0] at hpos
      by_cases hmode : stream.mode &&& U_OWRITE = 0
      · have hnone : PageCache.uwrite s buffer size count stream = .ok (s, 0) := if_pos hmode
        refine ⟨s, act_uwrite hnone, ?_⟩
        rw [show (Call.uwrite stream buffer size count).steps s.cacheSize = [] from
          if_pos (.inl hmode)]
        rfl
      · obtain ⟨s', heq, hrun⟩ := uwrite_rule hmode hsize hfit hthrough
          (P := fun k t => runSteps s ((List.range k).map
            (writeStep stream buffer (dataLen size count))) = .ok t) rfl
          (fun k _ t hp ⟨t', hact⟩ => ⟨t', hact, runSteps_range hp hact⟩)
        refine ⟨s', act_uwrite heq, ?_⟩
        rw [steps_uwrite hmode hfit]
        exact hrun
  | uread stream buffer size count first =>
      have hfit := dataPages_le hr hle
      have hsize : size ≠ 0 := fun h0 => by
        have hpos := hr.1
        simp [Call.len, h0] at hpos
      have hlen : dataLen size count + PAGE_SIZE ≤ 2 ^ 32 := by
        rw [dataLen_eq hr]
        exact hr.2.1
      obtain ⟨s', buffer', n, heq, hrun, -⟩ := uread_rule (Q := fun _ _ => True) hsize hfit hlen
        hthrough (P := fun k t => runSteps s ((List.range k).map fun k =>
          .read (pageKey stream k)) = .ok t) rfl
        (fun k _ t hp ⟨t', hact⟩ => by
          obtain ⟨⟨t₁, pg⟩, hpage, hret⟩ := bind_eq_ok.mp hact
          obtain rfl : t₁ = t' := Except.ok.inj hret
          exact ⟨t₁, pg, hpage, trivial, runSteps_range hp hact⟩)
      refine ⟨s', act_uread heq, ?_⟩
      rw [steps_uread hfit]
      exact hrun

end Steps

section Runs

variable {cacheSize : Nat} {x x' : Working} {c : Call}

def Working.Inv (cacheSize : Nat) (x : Working) : Prop :=
  x.session.Refines cacheSize ∧ Fitting cacheSize x.session.state x.budget

theorem Working.Inv.sound (h : x.Inv cacheSize) (hN : 2 ≤ cacheSize)
    (he : (workingSet cacheSize).enabled c x) : Sound c x.session ∧
      c.Through Returns x.session.state := by
  obtain ⟨lru, free, hc⟩ := h.2.coherent
  obtain ⟨-, -, hr, hbudget⟩ := he
  have halong := (h.2.steps hN hbudget).1
  rw [← hc.size] at halong
  exact ⟨⟨hr, halong.mono fun _ _ _ ha => ha.1⟩, halong.mono fun _ _ _ ha => ha.2⟩

theorem Working.Inv.step (h : x.Inv cacheSize) (hN : 2 ≤ cacheSize)
    (he : (workingSet cacheSize).enabled c x) :
    ∃ x', (workingSet cacheSize).act c x = .ok x' ∧ x'.Inv cacheSize := by
  obtain ⟨hsound, hreturns⟩ := h.sound hN he
  obtain ⟨lru, free, hc⟩ := h.2.coherent
  obtain ⟨hen, hwhole, hr, hbudget⟩ := he
  obtain ⟨session', hact, hrefines⟩ := h.1.step hN hen (hsound.sealed hwhole)
  obtain ⟨s', hcall, hrun⟩ := Call.act_steps hr (hc.size.symm ▸ hen.2) hreturns
  obtain ⟨-, s₁, hrun', hfit⟩ := h.2.steps hN hbudget
  rw [hc.size] at hrun
  obtain rfl : s₁ = s' := Except.ok.inj (hrun'.symm.trans hrun)
  obtain rfl := Except.ok.inj (hact.symm.trans (sessions_act hcall))
  refine ⟨⟨⟨s₁, c.effect x.session.files⟩, (c.steps cacheSize).foldl Budget.after x.budget⟩, ?_,
    hrefines, hfit⟩
  simp only [workingSet, hact, bind, Except.bind, pure, Except.pure]

theorem working_inv (hN : 2 ≤ cacheSize)
    (h : (workingSet cacheSize).Reachable System.Always x) : x.Inv cacheSize := by
  refine h.invariant (fun x hx => ?_) (fun x x' c hx he _ hact => ?_)
  · obtain ⟨⟨store, hd, hlog, hsession⟩, hbudget⟩ := hx
    obtain ⟨hc, hview⟩ := Coherent.init cacheSize hd
    have hcount := hc.tracked.lists.count
    obtain ⟨-, -, hstore, -⟩ := initPageCache_spec cacheSize store
    unfold Working.Inv
    rw [hsession, hbudget]
    refine ⟨⟨⟨_, _, hc⟩, ?_⟩, ⟨_, _, hc⟩, ?_, by simp, ?_, ?_⟩
    · rw [hview, Store.files_pages]
    · rw [hcount]
      simp
    · simp [hstore, Store.writes, hlog]
    · rw [hstore]
      exact ⟨by simp [hlog], by simp [hlog]⟩
  · obtain ⟨x₁, hact', hx₁⟩ := hx.step hN he
    exact Except.ok.inj (hact'.symm.trans hact) ▸ hx₁

-- As long as the pages written and the different pages read fit the cache, and the store answers,
-- every call returns, every read returns what was last written, nothing is written back, and the
-- store is asked for the pages that are read only, for none of them twice.
theorem working_set (hN : 2 ≤ cacheSize)
    (h : (workingSet cacheSize).Reachable System.Always x) :
    (∀ c, (workingSet cacheSize).enabled c x → ∃ x', (workingSet cacheSize).act c x = .ok x') ∧
    (∀ stream buffer size count first,
      (workingSet cacheSize).enabled (.uread stream buffer size count first) x →
      ∃ s' buffer',
        uread x.session.state buffer size count stream first = .ok (s', buffer', count) ∧
        ∀ i < size * count, buffer' i = x.session.files stream.pathName (stream.ioOffset + i)) ∧
    x.session.state.store.writes = [] ∧
    x.session.state.store.Fetched x.budget.reads := by
  have hx := working_inv hN h
  refine ⟨fun c he => ?_, fun stream buffer size count first he => ?_, hx.2.writes, hx.2.pios⟩
  · obtain ⟨x', hact, -⟩ := hx.step hN he
    exact ⟨x', hact⟩
  · obtain ⟨hsound, -⟩ := hx.sound hN he
    obtain ⟨⟨lru, free, hc⟩, hview⟩ := hx.1
    obtain ⟨hen, hwhole, hr, -⟩ := he
    obtain ⟨s', buffer', n, -, heq, -, hbytes, hlow, hhigh⟩ :=
      hc.uread hN hview hen.1 hen.2 hr buffer first hsound.2
    have hpages : (size * count) % PAGE_SIZE = 0 := hwhole
    have hpos : 0 < size * count := hr.1
    obtain rfl : n = size * count := by
      unfold readCount PAGE_SIZE at *
      omega
    refine ⟨s', buffer', ?_, hbytes⟩
    rwa [Nat.mul_div_cancel_left _ (Nat.pos_of_mul_pos_right hpos)] at heq

def Working.boot : Working := ⟨⟨initPageCache 4 emptyStore, emptyStore.files⟩, ⟨0, ∅⟩⟩

-- A page that is written twice is read back in its newer version.
theorem working_set_rewritten : ∃ (x : Working) (s' : State) (buffer' : Nat → UInt8),
    x.budget.writes = 2 ∧ firstPage x.session = .ok (s', buffer', PAGE_SIZE) ∧
    (∀ i < 1 * PAGE_SIZE, buffer' i = x.session.files fileA (0 + i)) ∧ x.session.files fileA 5 = 2 ∧
    x.session.state.store.writes = [] ∧ x.session.state.store.log.length = 1 ∧
    x.session.state.store.Fetched x.budget.reads := by
  have hstart : (workingSet 4).start Working.boot :=
    ⟨⟨emptyStore, fun _ => rfl, rfl, rfl⟩, rfl⟩
  obtain ⟨x, hx, hp⟩ := (System.Reachable.start hstart).exists_run (fun _ _ _ => trivial)
    (show _ = true from (by decide +kernel : ((workingSet 4).run Working.boot
      [pageWrite 0 1, pageWrite 0 2, pageRead 1]).any (fun x => x.budget.writes == 2 &&
        decide ((workingSet 4).enabled (pageRead 0) x) && x.session.files fileA 5 == 2 &&
        x.session.state.store.log.length == 1) = true))
  simp only [Bool.and_eq_true, beq_iff_eq, decide_eq_true_eq] at hp
  obtain ⟨⟨⟨htwice, henabled⟩, hnewer⟩, hlog⟩ := hp
  obtain ⟨-, hread, hwrites, hfetched⟩ := working_set (by decide) hx
  obtain ⟨s', buffer', heq, hbytes⟩ := hread _ _ _ _ _ henabled
  exact ⟨x, s', buffer', htwice, heq, hbytes, hnewer, hwrites, hlog, hfetched⟩

end Runs

end UserPageCache.PageCache
