import UserPageCache.PageCache.Files

namespace UserPageCache.PageCache

-- The page cache, and the files as its users have written them.
structure Session where
  state : State
  files : Files

namespace Call

def stream : Call → UFile
  | .uwrite stream _ _ _ => stream
  | .uread stream _ _ _ _ => stream

def len : Call → Nat
  | .uwrite _ _ size count => size * count
  | .uread _ _ size count _ => size * count

-- What a call makes of the files; a stream that is not writable changes nothing.
def effect : Call → Files → Files
  | .uwrite stream buffer size count, f =>
    if stream.mode &&& U_OWRITE = 0 then f
    else f.write stream.pathName stream.ioOffset (size * count) buffer
  | .uread .., f => f

end Call

-- Requests at page-aligned offsets of at most as many bytes as the cache holds.
def sessions (cacheSize : Nat) : System Session Call Fault where
  start x := ∃ store, store.Correct ∧ x.state = initPageCache cacheSize store ∧
    x.files = store.files
  enabled c _ := c.stream.ioOffset % PAGE_SIZE = 0 ∧ c.len ≤ cacheSize * PAGE_SIZE
  act c x := do return ⟨← c.act x.state, c.effect x.files⟩

instance (cacheSize : Nat) (c : Call) (x : Session) : Decidable ((sessions cacheSize).enabled c x) :=
  inferInstanceAs (Decidable (_ ∧ _))

def WholePages (c : Call) (_ : Session) : Prop := c.len % PAGE_SIZE = 0

instance (c : Call) (x : Session) : Decidable (WholePages c x) :=
  inferInstanceAs (Decidable (_ = _))

-- Each eviction of the call finds all the links back it needs and leaves each key all of its
-- cached pages or none, and the page numbers of the call are exact.
def Sound (c : Call) (x : Session) : Prop :=
  InRange c.stream.ioOffset c.len ∧ c.Through Harmless x.state

instance (c : Call) (x : Session) : Decidable (Sound c x) := inferInstanceAs (Decidable (_ ∧ _))

-- Sound requests that do not uncover what a page held before it was taken.
def Sealed (c : Call) (x : Session) : Prop := Sound c x ∧ c.Through Padded x.state

section Invariant

variable {cacheSize : Nat} {x : Session} {c : Call} {s s' : State} {stream : UFile}
  {buffer buffer' : Nat → UInt8} {size count n : Nat} {first : Bool}

theorem act_uwrite (h : uwrite s buffer size count stream = .ok (s', n)) :
    (Call.uwrite stream buffer size count).act s = .ok s' := by
  simp only [Call.act, h, bind, Except.bind, pure, Except.pure]

theorem act_uread (h : uread s buffer size count stream first = .ok (s', buffer', n)) :
    (Call.uread stream buffer size count first).act s = .ok s' := by
  simp only [Call.act, h, bind, Except.bind, pure, Except.pure]

theorem sessions_act (h : c.act x.state = .ok s') :
    (sessions cacheSize).act c x = .ok ⟨s', c.effect x.files⟩ := by
  simp only [sessions, h, bind, Except.bind, pure, Except.pure]

-- What the cache and the store hold together is what the users have written.
def Session.Refines (cacheSize : Nat) (x : Session) : Prop :=
  (∃ lru free, Coherent cacheSize x.state lru free) ∧ x.state.view = x.files.pages

theorem mem_steps_uwrite {N : Nat} {step : PageStep}
    (h : step ∈ (Call.uwrite stream buffer size count).steps N) :
    ∃ k < writeCount (dataLen size count), step = writeStep stream buffer (dataLen size count) k := by
  simp only [Call.steps] at h
  split at h
  · simp at h
  · obtain ⟨k, hk, rfl⟩ := List.mem_map.mp h
    exact ⟨k, List.mem_range.mp hk, rfl⟩

theorem mem_steps_uread {N : Nat} {step : PageStep}
    (h : step ∈ (Call.uread stream buffer size count first).steps N) :
    ∃ k, step = .read (pageKey stream k) := by
  simp only [Call.steps] at h
  split at h
  · simp at h
  · obtain ⟨k, -, rfl⟩ := List.mem_map.mp h
    exact ⟨k, rfl⟩

theorem Session.Refines.step (h : x.Refines cacheSize) (hN : 2 ≤ cacheSize)
    (he : (sessions cacheSize).enabled c x) (hs : Sealed c x) :
    ∃ x', (sessions cacheSize).act c x = .ok x' ∧ x'.Refines cacheSize := by
  obtain ⟨⟨lru, free, hc⟩, hview⟩ := h
  obtain ⟨⟨hr, hharmless⟩, hpadded⟩ := hs
  obtain ⟨ha, hle⟩ := he
  cases c with
  | uwrite stream buffer size count =>
      by_cases hmode : stream.mode &&& U_OWRITE = 0
      · have hnone : uwrite x.state buffer size count stream = .ok (x.state, 0) := if_pos hmode
        refine ⟨_, sessions_act (act_uwrite hnone), ⟨lru, free, hc⟩, ?_⟩
        rw [Call.effect, if_pos hmode]
        exact hview
      · obtain ⟨s', s₀, pg, hc', heq, hlast⟩ := hc.uwrite hN hview hmode ha hle hr hharmless
        refine ⟨_, sessions_act (act_uwrite heq), hc', ?_⟩
        have hfit := dataPages_le hr (hc.size.symm ▸ hle)
        unfold Call.Through at hpadded
        rw [steps_uwrite hmode hfit, dataLen_eq hr] at hpadded
        rw [Call.effect, if_neg hmode]
        exact hlast.refines ha (last_pageKey hr) (hlast.padded.mp hpadded)
  | uread stream buffer size count first =>
      obtain ⟨s', buffer', n, hc', heq, hview', -⟩ := hc.uread hN hview ha hle hr buffer first hharmless
      exact ⟨_, sessions_act (act_uread heq), hc', hview'⟩

theorem refines_of_reachable (hN : 2 ≤ cacheSize) (h : (sessions cacheSize).Reachable Sealed x) :
    x.Refines cacheSize := by
  refine h.invariant (fun x hx => ?_) (fun x x' c hx he hs hact => ?_)
  · obtain ⟨store, hd, hstate, hfiles⟩ := hx
    obtain ⟨hc, hview⟩ := Coherent.init cacheSize hd
    refine ⟨⟨_, _, hstate ▸ hc⟩, ?_⟩
    rw [hstate, hview, hfiles, Store.files_pages]
  · obtain ⟨x₁, hact', hx₁⟩ := hx.step hN he hs
    exact Except.ok.inj (hact'.symm.trans hact) ▸ hx₁

-- A request of whole pages uncovers nothing.
theorem Sound.sealed (h : Sound c x) (hw : WholePages c x) : Sealed c x := by
  refine ⟨h, h.2.mono fun step hstep s _ => ?_⟩
  cases c with
  | uread stream buffer size count first =>
      obtain ⟨k, rfl⟩ := mem_steps_uread hstep
      trivial
  | uwrite stream buffer size count =>
      obtain ⟨k, hk, rfl⟩ := mem_steps_uwrite hstep
      have hlen : dataLen size count = size * count := dataLen_eq h.1
      have hpos : 0 < size * count := h.1.1
      have hwhole : (size * count) % PAGE_SIZE = 0 := hw
      cases hf : s.fresh with
      | none => simp [Padded, writeStep, hf]
      | some pg =>
          refine (padded_write hf).mpr fun j hj => ?_
          have hlt := j.isLt
          rw [hlen] at hk hj
          unfold writeCount at hk
          unfold PAGE_SIZE at *
          omega

theorem sealed_of_whole
    (h : ((sessions cacheSize).restrict WholePages).Reachable Sound x) :
    (sessions cacheSize).Reachable Sealed x := by
  induction h with
  | start hx => exact .start hx
  | step _ he hs hact ih => exact .step ih he.1 (hs.sealed he.2) hact

end Invariant

-- In every run of requests of whole pages in which all evictions are sound, every call returns
-- and every read returns, byte for byte, what was last written.
theorem read_your_writes {cacheSize : Nat} {x : Session} (hN : 2 ≤ cacheSize)
    (h : ((sessions cacheSize).restrict WholePages).Reachable Sound x) :
    (∀ c, ((sessions cacheSize).restrict WholePages).enabled c x → Sound c x →
      ∃ x', (sessions cacheSize).act c x = .ok x') ∧
    ∀ stream buffer size count first,
      ((sessions cacheSize).restrict WholePages).enabled (.uread stream buffer size count first) x →
      Sound (.uread stream buffer size count first) x →
      ∃ s' buffer', uread x.state buffer size count stream first = .ok (s', buffer', count) ∧
        ∀ i < size * count, buffer' i = x.files stream.pathName (stream.ioOffset + i) := by
  have hx := refines_of_reachable hN (sealed_of_whole h)
  refine ⟨fun c he hs => ?_, fun stream buffer size count first he hs => ?_⟩
  · obtain ⟨x', hact, -⟩ := hx.step hN he.1 (hs.sealed he.2)
    exact ⟨x', hact⟩
  · obtain ⟨⟨lru, free, hc⟩, hview⟩ := hx
    obtain ⟨s', buffer', n, -, heq, -, hbytes, hlow, hhigh⟩ :=
      hc.uread hN hview he.1.1 he.1.2 hs.1 buffer first hs.2
    have hwhole : (size * count) % PAGE_SIZE = 0 := he.2
    have hpos : 0 < size * count := hs.1.1
    obtain rfl : n = size * count := by
      unfold readCount PAGE_SIZE at *
      omega
    refine ⟨s', buffer', ?_, hbytes⟩
    rwa [Nat.mul_div_cancel_left _ (Nat.pos_of_mul_pos_right hpos)] at heq

section Runs

def Session.boot : Session := ⟨initPageCache 2 emptyStore, emptyStore.files⟩

theorem sessionBoot_start : (sessions 2).start Session.boot :=
  ⟨emptyStore, fun _ => rfl, rfl, rfl⟩

def firstPage (x : Session) : Except Fault (State × (Nat → UInt8) × Nat) :=
  uread x.state (fun _ => 0) 1 PAGE_SIZE (streamA 0) true

-- The first page goes to the store before it is read back.
theorem read_your_writes_evicted : ∃ (x : Session) (s' : State) (buffer' : Nat → UInt8),
    x.state.store.writes.length = 1 ∧ firstPage x = .ok (s', buffer', PAGE_SIZE) ∧
    ∀ i < 1 * PAGE_SIZE, buffer' i = x.files fileA (0 + i) := by
  obtain ⟨x, hx, hp⟩ := (System.Reachable.start
    (S := ((sessions 2).restrict WholePages).restrict Sound) sessionBoot_start).exists_run
    (fun _ _ _ => trivial)
    (show _ = true from (by decide +kernel : ((((sessions 2).restrict WholePages).restrict
      Sound).run Session.boot [pageWrite 0 1, pageWrite 1 2, pageWrite 2 3]).any
        (fun x => x.state.store.writes.length == 1 &&
          decide (((sessions 2).restrict WholePages).enabled (pageRead 0) x) &&
          decide (Sound (pageRead 0) x)) = true))
  simp only [Bool.and_eq_true, beq_iff_eq, decide_eq_true_eq] at hp
  obtain ⟨s', buffer', heq, hbytes⟩ := (read_your_writes (by decide) hx.of_restrict).2 _ _ _ _ _
    hp.1.2 hp.2
  exact ⟨x, s', buffer', hp.1.1, heq, hbytes⟩

-- A page is written twice and the older copy is evicted, which takes the newer one's entry.
theorem rewrite_reads_stale : ∃ (x : Session) (s' : State) (buffer' : Nat → UInt8) (n : Nat),
    ((sessions 2).restrict WholePages).Reachable System.Always x ∧
    firstPage x = .ok (s', buffer', n) ∧ buffer' 0 ≠ x.files fileA 0 := by
  obtain ⟨x, hx, hp⟩ := (System.Reachable.start (S := (sessions 2).restrict WholePages)
    sessionBoot_start).exists_run (fun _ _ _ => trivial)
    (show _ = true from (by decide +kernel : (((sessions 2).restrict WholePages).run Session.boot
      [pageWrite 0 1, pageWrite 0 2, pageWrite 1 3]).any (fun x =>
        match firstPage x with
        | .ok (_, buffer', _) => buffer' 0 != x.files fileA 0
        | .error _ => false) = true))
  cases heq : firstPage x with
  | error fault => simp [heq] at hp
  | ok r =>
      obtain ⟨s', buffer', n⟩ := r
      rw [heq] at hp
      exact ⟨x, s', buffer', n, hx, heq, by simpa using hp⟩

end Runs

end UserPageCache.PageCache
