import UserPageCache.SsdCache.Accounting
import UserPageCache.SsdCache.Mapping.Queue
import UserPageCache.SsdCache.Route

namespace UserPageCache.SsdCache

variable {s s' : State} {r r' : Routing} {a : Action} {key : Work} {miss : Miss}

-- What the actions do to the queue, the lock and the worker's key.
section Effects

structure State.Quiet (s s' : State) : Prop where
  wq : s'.map.wq = s.map.wq
  held : s'.held = s.held
  current : s'.worker.current = s.worker.current

theorem State.lookup_effect {next : Nested} (h : s.lookup key next = .ok s') :
    s'.map.wq = s.map.wq ∧ s'.worker = s.worker ∧ (s'.held = s.held ∨ s'.held = some next) := by
  unfold State.lookup at h
  obtain ⟨⟨m, found⟩, hfind, h⟩ := bind_eq_ok.mp h
  have hwq := (find_rest hfind).1
  cases found with
  | some e =>
      obtain rfl := Except.ok.inj h
      exact ⟨(lookupHit_wq m e).trans hwq, rfl, .inl rfl⟩
  | none =>
      obtain rfl := Except.ok.inj h
      exact ⟨hwq, rfl, .inr rfl⟩

theorem State.checkNested_effect (h : s.checkNested key = .ok s') :
    s'.map.wq = s.map.wq ∧ s'.worker = s.worker ∧
      (s'.held = none ∨ s'.held = some (.insertWork key)) := by
  unfold State.checkNested at h
  obtain ⟨queued, -, h⟩ := bind_eq_ok.mp h
  cases queued with
  | true =>
      obtain rfl := Except.ok.inj h
      exact ⟨rfl, rfl, .inl rfl⟩
  | false =>
      by_cases hempty : allocatorEmpty s.map.ea = true
      · obtain rfl := Except.ok.inj ((if_pos hempty).symm.trans h)
        exact ⟨rfl, rfl, .inr rfl⟩
      · obtain ⟨⟨m, cblock⟩, hinsert, h⟩ := bind_eq_ok.mp ((if_neg hempty).symm.trans h)
        obtain rfl := Except.ok.inj h
        exact ⟨insertDirty_wq hinsert, rfl, .inl rfl⟩

theorem State.insertNested_effect {queue : List Work} (q : IsQueue s.map.wq queue)
    (h : s.insertNested key = .ok s') :
    IsQueue s'.map.wq (if accepts s.map.wq key then queue ++ [key] else queue) ∧
      s'.worker = s.worker ∧ s'.held = none := by
  obtain ⟨wq, heq, q'⟩ := q.insertWork key
  unfold State.insertNested enqueue at h
  simp only [heq, bind, Except.bind, pure, Except.pure, Except.ok.injEq] at h
  subst h
  refine ⟨?_, rfl, rfl⟩
  simpa only [accepts, heq, decide_eq_true_eq] using q'

theorem State.completeWith_quiet {m : Except Fault Mapping} (h : s.completeWith key m = .ok s')
    (hm : ∀ m', m = .ok m' → m'.wq = s.map.wq) (hw : s.worker.current = some key) :
    s.Quiet s' := by
  unfold State.completeWith at h
  obtain ⟨m', heq, h⟩ := bind_eq_ok.mp h
  obtain rfl := Except.ok.inj h
  exact ⟨hm m' heq, rfl, hw.symm⟩

-- A start phase either takes a block in flight or declines; the key stays.
theorem State.start_quiet {moved : Except Fault (Option (Mapping × Nat))}
    {started : Nat → Worker Work} {declined : Worker Work}
    (h : (do
      match ← moved with
      | some (m, cblock) => return { s with map := m, worker := started cblock }
      | none => return { s with worker := declined } : Except Fault State) = .ok s')
    (hm : ∀ m cblock, moved = .ok (some (m, cblock)) → m.wq = s.map.wq)
    (hs : ∀ cblock, (started cblock).current = s.worker.current)
    (hd : declined.current = s.worker.current) : s.Quiet s' := by
  obtain ⟨taken, heq, h⟩ := bind_eq_ok.mp h
  cases taken with
  | none =>
      obtain rfl := Except.ok.inj h
      exact ⟨rfl, rfl, hd⟩
  | some taken =>
      obtain rfl := Except.ok.inj h
      exact ⟨hm _ _ heq, rfl, hs _⟩

theorem State.removeMapping_quiet {fullPathName : CString} {pageIndex : Nat}
    (h : s.removeMapping fullPathName pageIndex = .ok s') : s.Quiet s' := by
  unfold State.removeMapping at h
  obtain ⟨⟨m, found⟩, hremove, h⟩ := bind_eq_ok.mp h
  obtain rfl := Except.ok.inj h
  exact ⟨removeMapping_wq hremove, rfl, rfl⟩

-- The actions that neither look up nor use the work queue.
def Action.Quiet : Action → Prop
  | .lookupMapping _ _ => False
  | .lookupMappingWithInsert _ _ => False
  | .nested => False
  | .peakWork => False
  | .removeWork => False
  | _ => True

theorem State.act_quiet (h : State.act a s = .ok s') (he : s.enabled a = true) (ha : a.Quiet) :
    s.Quiet s' := by
  have hworker := State.enabled_worker he
  cases a with
  | lookupMapping _ _ => exact ha.elim
  | lookupMappingWithInsert _ _ => exact ha.elim
  | nested => exact ha.elim
  | peakWork => exact ha.elim
  | removeWork => exact ha.elim
  | setDirtyAfterWrite cblock dirty =>
      obtain rfl := Except.ok.inj h
      exact ⟨setDirtyAfterWrite_wq _ _ dirty, rfl, rfl⟩
  | removeMapping fullPathName pageIndex => exact removeMapping_quiet h
  | startPromotion =>
      obtain ⟨-, key, hw⟩ := hworker.1 rfl
      simp only [State.act, hw] at h
      exact start_quiet h (fun _ _ => promotionFreeToClean_wq) (fun _ => by rw [hw]; rfl)
        (by rw [hw]; rfl)
  | completePromotion success =>
      obtain ⟨-, key, b, hw⟩ := hworker.2.1 success rfl
      simp only [State.act, hw] at h
      exact completeWith_quiet h (fun _ => promotionComplete_wq) (by rw [hw]; rfl)
  | startDemotion =>
      obtain ⟨-, key, hw⟩ := hworker.2.2.1 rfl
      simp only [State.act, hw] at h
      exact start_quiet h (fun _ _ => demotionCleanToFree_wq) (fun _ => by rw [hw]; rfl)
        (by rw [hw]; rfl)
  | completeDemotion success =>
      obtain ⟨-, key, b, hw⟩ := hworker.2.2.2.1 success rfl
      simp only [State.act, hw] at h
      exact completeWith_quiet h (fun _ => demotionComplete_wq) (by rw [hw]; rfl)
  | startWriteback =>
      obtain ⟨-, key, hw⟩ := hworker.2.2.2.2.1 rfl
      simp only [State.act, hw] at h
      exact start_quiet h (fun _ _ => writebackDirtyToClean_wq) (fun _ => by rw [hw]; rfl)
        (by rw [hw]; rfl)
  | completeWriteback success =>
      obtain ⟨-, key, b, hw⟩ := hworker.2.2.2.2.2.1 success rfl
      simp only [State.act, hw] at h
      exact completeWith_quiet h (fun _ => writebackComplete_wq) (by rw [hw]; rfl)

theorem State.nestedCopies_src {copy : Copy} (h : copy ∈ s.nestedCopies) :
    ∃ key, (s.held = some (.insertWork key) ∨ s.held = some (.containsWork key)) ∧
      copy.src = key.fullPathName ∧ MAX_PATH_SIZE ≤ copy.size := by
  unfold State.nestedCopies at h
  cases hheld : s.held with
  | none => simp [hheld] at h
  | some next =>
      rw [hheld] at h
      cases next with
      | insertWork key =>
          simp only [insertWorkCopies] at h
          split at h
          · obtain rfl := List.mem_singleton.mp h
            exact ⟨key, .inl rfl, rfl, Nat.le_succ _⟩
          · simp at h
      | containsWork key =>
          simp only [checkNestedCopies] at h
          split at h
          · split at h
            · simp at h
            · obtain rfl := List.mem_singleton.mp h
              exact ⟨key, .inr rfl, rfl, Nat.le_succ _⟩
          · simp at h

end Effects

namespace Routing

theorem act_ok (h : r.act a = .ok r') : (∀ copy ∈ r.state.copies a, copy.Fits) ∧
    State.act a r.state = .ok r'.state ∧ r'.latest = r.latestAfter a ∧
    r'.queued = r.queuedAfter a := by
  unfold act at h
  split at h
  · rename_i hfits
    split at h
    · rename_i s hs
      obtain rfl := Except.ok.inj h
      exact ⟨hfits, hs, rfl, rfl⟩
    · simp at h
  · simp at h

theorem front_key (h : r.queued.head? = some miss) :
    (r.queued.map Miss.key).head? = some miss.key := by
  rw [List.head?_map, h, Option.map_some]

-- The queue holds the works of the misses that wait, the nested operation is the latest lookup's,
-- and the worker works for the first that waits.
structure Tracks (r : Routing) : Prop where
  queue : IsQueue r.state.map.wq (r.queued.map Miss.key)
  held : ∀ key, r.state.held = some (.insertWork key) ∨ r.state.held = some (.containsWork key) →
    ∃ miss, r.latest = some miss ∧ miss.key = key
  worker : ∀ key, r.state.worker.current = some key → (r.queued.map Miss.key).head? = some key

namespace Tracks

theorem start {blockSize cblockNum : Nat} (hs : (routing blockSize cblockNum).start r) :
    r.Tracks := by
  obtain ⟨hstart, -, hqueued⟩ := hs
  obtain ⟨hsound, -⟩ := sound_start hstart
  obtain ⟨-, -, hw, hh, -⟩ := hstart
  refine ⟨?_, by simp [hh], by simp [hw, Worker.current]⟩
  rw [hqueued]
  exact hsound.repr.queue

theorem lookup (h : r.Tracks) {fullPathName : CString} {pageIndex : Nat} {next : Nested}
    (hact : r.state.lookup (Miss.key ⟨fullPathName, pageIndex⟩) next = .ok r'.state)
    (hlatest : r'.latest = some ⟨fullPathName, pageIndex⟩) (hqueued : r'.queued = r.queued)
    (hnext : next = .insertWork (Miss.key ⟨fullPathName, pageIndex⟩) ∨
      next = .containsWork (Miss.key ⟨fullPathName, pageIndex⟩))
    (hfree : r.state.held = none) : r'.Tracks := by
  obtain ⟨hwq, hw, hh⟩ := State.lookup_effect hact
  refine ⟨?_, fun key hkey => ⟨_, hlatest, ?_⟩, ?_⟩
  · rw [hwq, hqueued]
    exact h.queue
  · rcases hh with hh | hh
    · rw [hh, hfree] at hkey
      simp at hkey
    · rw [hh] at hkey
      rcases hnext with rfl | rfl <;> simpa using hkey
  · rw [hw, hqueued]
    exact h.worker

theorem nested (h : r.Tracks) (he : r.state.held.isSome)
    (hact : r.state.nested = .ok r'.state) (hlatest : r'.latest = r.latest)
    (hqueued : r'.queued = r.queuedAfter .nested) : r'.Tracks := by
  unfold State.nested at hact
  unfold queuedAfter at hqueued
  cases hheld : r.state.held with
  | none => simp [hheld] at he
  | some next =>
      rw [hheld] at hact hqueued
      cases next with
      | insertWork key =>
          obtain ⟨miss, hmiss, rfl⟩ := h.held key (.inl hheld)
          obtain ⟨q, hw, hh⟩ := State.insertNested_effect h.queue hact
          simp only [hmiss, Option.toList_some] at hqueued
          have hmap : r'.queued.map Miss.key = if accepts r.state.map.wq miss.key then
              r.queued.map Miss.key ++ [miss.key] else r.queued.map Miss.key := by
            rw [hqueued]
            split <;> simp
          refine ⟨hmap ▸ q, by simp [hh], fun key hkey => ?_⟩
          rw [hw] at hkey
          rw [hmap]
          split
          · rw [List.head?_append, h.worker key hkey, Option.some_or]
          · exact h.worker key hkey
      | containsWork key =>
          obtain ⟨hwq, hw, hh⟩ := State.checkNested_effect hact
          refine ⟨?_, fun key' hkey => ?_, ?_⟩
          · rw [hwq, hqueued]
            exact h.queue
          · rw [hlatest]
            rcases hh with hh | hh
            · simp [hh] at hkey
            · obtain rfl : key = key' := by simpa [hh] using hkey
              exact h.held key (.inr hheld)
          · rw [hw, hqueued]
            exact h.worker

theorem peakWork (h : r.Tracks) (hact : r'.state = r.state.peakWork)
    (hlatest : r'.latest = r.latest) (hqueued : r'.queued = r.queued) : r'.Tracks := by
  have hpeak := h.queue.peakWork
  unfold State.peakWork at hact
  cases hfront : (r.queued.map Miss.key).head? with
  | none =>
      rw [hpeak, hfront] at hact
      refine ⟨?_, ?_, ?_⟩
      · rw [hact, hqueued]
        exact h.queue
      · rw [hact, hlatest]
        exact h.held
      · rw [hact, hqueued]
        exact h.worker
  | some key =>
      rw [hpeak, hfront] at hact
      refine ⟨?_, ?_, fun key' hkey => ?_⟩
      · rw [hact, hqueued]
        exact h.queue
      · rw [hact, hlatest]
        exact h.held
      · rw [hact] at hkey
        rw [hqueued, hfront]
        exact hkey

theorem removeWork (h : r.Tracks) (hact : r'.state = r.state.removeWork)
    (hlatest : r'.latest = r.latest) (hqueued : r'.queued = r.queued.tail) : r'.Tracks := by
  refine ⟨?_, ?_, ?_⟩
  · rw [hact, hqueued, List.map_tail]
    exact h.queue.removeWork.1
  · rw [hact, hlatest]
    exact h.held
  · rw [hact]
    simp [State.removeWork, Worker.current]

theorem quiet (h : r.Tracks) (hact : r.state.Quiet r'.state) (hlatest : r'.latest = r.latest)
    (hqueued : r'.queued = r.queued) : r'.Tracks := by
  refine ⟨?_, ?_, ?_⟩
  · rw [hact.wq, hqueued]
    exact h.queue
  · rw [hact.held, hlatest]
    exact h.held
  · rw [hact.current, hqueued]
    exact h.worker

theorem act (h : r.Tracks) (he : r.state.enabled a = true) (hact : r.act a = .ok r') :
    r'.Tracks := by
  obtain ⟨-, hstate, hlatest, hqueued⟩ := act_ok hact
  cases a with
  | lookupMapping fullPathName pageIndex =>
      exact h.lookup hstate hlatest hqueued (.inl rfl) (by simpa [State.enabled] using he)
  | lookupMappingWithInsert fullPathName pageIndex =>
      exact h.lookup hstate hlatest hqueued (.inr rfl) (by simpa [State.enabled] using he)
  | nested => exact h.nested he hstate hlatest hqueued
  | peakWork => exact h.peakWork (Except.ok.inj hstate).symm hlatest hqueued
  | removeWork => exact h.removeWork (Except.ok.inj hstate).symm hlatest hqueued
  | _ =>
      have hquiet := State.act_quiet hstate he trivial
      exact h.quiet hquiet hlatest hqueued

theorem of_reachable {blockSize cblockNum : Nat} {allowed : Action → Routing → Prop}
    (h : (routing blockSize cblockNum).Reachable allowed r) : r.Tracks :=
  h.invariant (fun _ hs => .start hs) fun _ _ _ ht he _ hact => ht.act he.1 hact

-- Every strcpy for the miss copies its path, and into an array that holds all shorter ones.
theorem copies_src (h : r.Tracks) (hs : r.Serves miss a) : ∀ copy ∈ r.state.copies a,
    copy.src = miss.fullPathName ∧ MAX_PATH_SIZE ≤ copy.size := by
  intro copy hcopy
  cases a with
  | nested =>
      obtain ⟨key, hheld, hsrc, hsize⟩ := State.nestedCopies_src hcopy
      obtain ⟨latest, hlatest, rfl⟩ := h.held key hheld
      obtain rfl := Option.some.inj (hlatest.symm.trans hs)
      exact ⟨hsrc, hsize⟩
  | peakWork =>
      simp only [State.copies, peakWorkCopies, h.queue.peakWork, front_key hs, Option.map_some,
        Option.toList_some, List.mem_singleton] at hcopy
      subst hcopy
      exact ⟨rfl, Nat.le_refl _⟩
  | startPromotion =>
      cases hw : r.state.worker with
      | peeked key =>
          have hkey := h.worker key (by rw [hw]; rfl)
          rw [front_key hs] at hkey
          obtain rfl := Option.some.inj hkey
          simp only [State.copies, hw, promotionFreeToCleanCopies] at hcopy
          split at hcopy
          · simp at hcopy
          · obtain rfl := List.mem_singleton.mp hcopy
            exact ⟨rfl, Nat.le_succ _⟩
      | _ => simp [State.copies, hw] at hcopy
  | _ => exact hs.elim

end Tracks

-- In a sound state the promoted block is found under the key of the first miss that waits, and
-- under no other key.
theorem Tracks.promoted {g : Geometry} {t : Table Work} {b : Nat} (h : r.Tracks)
    (hsound : Sound g r.state t) (hfront : r.queued.head? = some miss)
    (hb : r.state.worker.arriving = some b) (hact : r.act (.completePromotion true) = .ok r') :
    r'.state.map.found key = some b ↔ key = miss.key := by
  obtain ⟨-, hstate, -, -⟩ := act_ok hact
  cases hw : r.state.worker with
  | promoting key' b' =>
      rw [hw] at hb
      obtain rfl := Option.some.inj hb
      have hkey := h.worker key' (by rw [hw]; rfl)
      rw [front_key hfront] at hkey
      obtain rfl := Option.some.inj hkey
      have hvalid : Valid g.cacheBlockNum (.promoting miss.key b') t := hw ▸ hsound.valid
      have hdone := hvalid.promotionComplete true
      obtain ⟨m, heq, hrepr⟩ := hsound.repr.promotionComplete hvalid true
      simp only [State.act, hw, State.completeWith, heq, bind, Except.bind, pure,
        Except.pure, Except.ok.injEq] at hstate
      have hmap : r'.state.map = m := by rw [← hstate]
      have hslot : ((t.promotionComplete b' true).slot b').key = miss.key := by
        rw [← hvalid.arriving _ _ rfl]
        simp [Table.promotionComplete]
      have hhashed : b' ∈ (t.promotionComplete b' true).hashed := by
        simp [Table.promotionComplete]
      rw [hmap]
      constructor
      · intro hfound
        exact (hrepr.found_hashed hfound).2.symm.trans hslot
      · rintro rfl
        exact hrepr.found_of_hashed hdone hhashed hslot
  | _ => simp [hw, Worker.arriving] at hb

theorem reachable_state {blockSize cblockNum : Nat}
    (h : (routing blockSize cblockNum).Reachable (fun a r => Settled a r.state) r) :
    (interleaving blockSize cblockNum).Reachable Settled r.state := by
  induction h with
  | start hs => exact .start hs.1
  | @step r r' a _ he ha hact ih =>
      have henabled : (interleaving blockSize cblockNum).enabled a r.state := he.1
      exact .step ih henabled ha (act_ok hact).2.1

-- In an empty cache the first lookup misses.
theorem lookup_misses (miss : Miss) : ∃ s, State.act (.lookupMapping miss.fullPathName miss.pageIndex)
    (State.boot 512 2) = .ok s ∧ s.held = some (.insertWork miss.key) ∧ s.worker = .idle := by
  have hboot : (interleaving 512 2).start (State.boot 512 2) :=
    boot_start (by decide) (by decide) (by decide)
  obtain ⟨s, t, hlookup, -, hstep⟩ := (sound_start hboot).1.simulates
    (a := .lookupMapping miss.fullPathName miss.pageIndex) rfl nofun
  refine ⟨s, hlookup, ?_, (State.lookup_effect hlookup).2.1⟩
  generalize hview : s.view t = view at hstep
  cases hstep with
  | hit _ _ he _ => simp [State.view, Table.initial] at he
  | miss _ hnext _ =>
      rcases hnext with ⟨hact, rfl⟩ | ⟨hact, -⟩
      · obtain ⟨rfl, rfl⟩ := Action.lookupMapping.inj hact
        exact congrArg View.held hview
      · simp at hact

-- An empty queue takes the work of the latest miss.
theorem nested_queues (hpath : miss.fullPathName.length ≤ MAX_PATH_SIZE)
    (q : IsQueue s.map.wq []) (hheld : s.held = some (.insertWork miss.key)) :
    ∃ s', Routing.act .nested ⟨s, some miss, []⟩ = .ok ⟨s', some miss, [miss]⟩ ∧
      s'.worker = s.worker := by
  obtain ⟨wq, hinsert, -⟩ := q.insertWork miss.key
  have haccepts : accepts s.map.wq miss.key = true := by
    unfold accepts
    rw [hinsert]
    rfl
  have hfits : ∀ copy ∈ s.copies .nested, copy.Fits := by
    simp only [State.copies, State.nestedCopies, hheld, insertWorkCopies, haccepts, ite_true,
      List.mem_singleton, forall_eq]
    exact Nat.succ_le_succ hpath
  refine ⟨{ s with map := { s.map with wq := wq }, held := none }, ?_, rfl⟩
  unfold act
  rw [if_pos hfits]
  simp only [State.act, State.nested, hheld, State.insertNested, enqueue, hinsert, bind,
    Except.bind, pure, Except.pure, queuedAfter, latestAfter, haccepts, ite_true]
  rfl

-- An empty cache sends the first miss to the queue.
theorem exists_queued (hpath : miss.fullPathName.length ≤ MAX_PATH_SIZE) :
    ∃ r, (routing 512 2).Reachable System.Always r ∧ r.state.worker = .idle ∧
      r.queued = [miss] := by
  have hstart : (routing 512 2).start ⟨State.boot 512 2, none, []⟩ :=
    ⟨boot_start (by decide) (by decide) (by decide), rfl, rfl⟩
  obtain ⟨s, hlookup, hheld, hidle⟩ := lookup_misses miss
  have hact : Routing.act (.lookupMapping miss.fullPathName miss.pageIndex)
      ⟨State.boot 512 2, none, []⟩ = .ok ⟨s, some miss, []⟩ := by
    unfold act
    rw [if_pos (by simp [State.copies]), hlookup]
    rfl
  have hallowed : (routing 512 2).enabled (.lookupMapping miss.fullPathName miss.pageIndex)
      ⟨State.boot 512 2, none, []⟩ := ⟨rfl, hpath⟩
  have hreach : (routing 512 2).Reachable System.Always ⟨s, some miss, []⟩ :=
    .step (.start hstart) hallowed trivial hact
  obtain ⟨s', hnested, hidle'⟩ := nested_queues hpath (Tracks.of_reachable hreach).queue hheld
  have henabled : s.enabled .nested = true := by simp [State.enabled, hheld]
  exact ⟨_, .step hreach ⟨henabled, trivial⟩ trivial hnested, hidle'.trans hidle, rfl⟩

end Routing

theorem RouteKept.length_lt (h : RouteKept miss) (hpath : miss.fullPathName.length ≤ MAX_PATH_SIZE) :
    miss.fullPathName.length < MAX_PATH_SIZE := by
  obtain ⟨r, hr, hidle, hqueued⟩ := Routing.exists_queued hpath
  have htracks := Routing.Tracks.of_reachable hr
  have henabled : (routing 512 2).enabled .peakWork r :=
    ⟨by simp [State.enabled, hidle], trivial⟩
  have hserves : r.Serves miss .peakWork := by
    change r.queued.head? = some miss
    rw [hqueued, List.head?_cons]
  refine h.copies hr henabled hserves ⟨miss.fullPathName, MIGRATION_NAME_SIZE⟩ ?_
  simp [State.copies, peakWorkCopies, htracks.queue.peakWork, hqueued, Miss.key, State.keyAt]

-- The array of do_migration_work has no room for the terminator of the longest paths; for all
-- others every copy fits and the promoted block is hashed under the key that missed.
theorem promotion_route_iff (hpath : miss.fullPathName.length ≤ MAX_PATH_SIZE) :
    RouteKept miss ↔ miss.fullPathName.length < MAX_PATH_SIZE := by
  refine ⟨fun h => h.length_lt hpath, fun hlt => ⟨?_, ?_⟩⟩
  · intro blockSize cblockNum r a hr _ hserves copy hcopy
    obtain ⟨hsrc, hsize⟩ := (Routing.Tracks.of_reachable hr).copies_src hserves copy hcopy
    unfold Copy.Fits
    rw [hsrc]
    omega
  · intro blockSize cblockNum r r' b hr hfront hb hact key
    obtain ⟨g, t, hsound, -⟩ := sound_of_reachable (Routing.reachable_state hr)
    exact (Routing.Tracks.of_reachable hr).promoted hsound hfront hb hact

theorem promotion_route_short : RouteKept ⟨[⟨97, nonzero_a⟩], 5⟩ :=
  (promotion_route_iff (by decide)).mpr (by decide)

theorem longest_path_overflows : ¬ RouteKept ⟨List.replicate 32 ⟨97, nonzero_a⟩, 5⟩ := fun h =>
  absurd (h.length_lt (by decide)) (by decide)

end UserPageCache.SsdCache
