import UserPageCache.SsdCache.Protocol
import UserPageCache.SsdCache.Mapping.Theorems

namespace UserPageCache.SsdCache

variable {g : Geometry} {s : State} {t : Table Work} {key : Work} {b : Nat}

def State.view (s : State) (t : Table Work) : View := ⟨t, s.worker, s.held, s.returned⟩

-- The mapping represents a table on which every invariant holds.
structure Sound (g : Geometry) (s : State) (t : Table Work) : Prop where
  repr : Repr g s.map t
  inv : (s.view t).Inv g.cacheBlockNum

theorem Sound.valid (h : Sound g s t) : Valid g.cacheBlockNum s.worker t := h.inv.valid

-- The action returns, and what it does is a step of the table.
def Simulates (g : Geometry) (s : State) (t : Table Work) (a : Action) (r : Except Fault State) :
    Prop :=
  ∃ s' t', r = .ok s' ∧ Repr g s'.map t' ∧ Step g.cacheBlockNum a (s.view t) (s'.view t')

section Clients

private theorem lookup_simulates (h : Sound g s t) (hh : s.held = none) (fullPathName : CString)
    (pageIndex : Nat) {a : Action} {next : Nested}
    (ha : a = .lookupMapping fullPathName pageIndex ∧
        next = .insertWork (State.keyAt pageIndex fullPathName) ∨
      a = .lookupMappingWithInsert fullPathName pageIndex ∧
        next = .containsWork (State.keyAt pageIndex fullPathName)) :
    Simulates g s t a (s.lookup (State.keyAt pageIndex fullPathName) next) := by
  obtain ⟨m, e, heq, r, hsome, hnone⟩ := h.repr.find fullPathName (toCachePageIndex pageIndex)
  unfold State.lookup State.keyAt
  simp only [heq, bind, Except.bind, pure, Except.pure]
  cases e with
  | some e =>
      obtain ⟨hb, hk⟩ := hsome e rfl
      refine ⟨_, t.hit e, rfl, r.lookupHit h.valid hb, ?_⟩
      rw [r.inferCblock_eq (h.valid.lt_of_hashed hb)]
      exact .hit hh (ha.imp And.left And.left) hb hk
  | none => exact ⟨_, t, rfl, r.lookupMiss, .miss hh ha (hnone rfl)⟩

private theorem insertNested_simulates (h : Sound g s t) (hh : s.held = some (.insertWork key)) :
    Simulates g s t .nested (s.insertNested key) := by
  obtain ⟨m, heq, r⟩ := h.repr.enqueue key
  unfold State.insertNested
  simp only [heq, bind, Except.bind, pure, Except.pure]
  exact ⟨_, _, rfl, r, .insertWork hh⟩

private theorem checkNested_simulates (h : Sound g s t)
    (hh : s.held = some (.containsWork key)) :
    Simulates g s t .nested (s.checkNested key) := by
  unfold State.checkNested
  rw [h.repr.queue.containsWork]
  simp only [bind, Except.bind, pure, Except.pure]
  split
  · exact ⟨_, t, rfl, h.repr, .queued hh⟩
  · rename_i hnot
    have hq : key ∉ t.queue := fun hq => hnot (any_prefix_of_mem hq)
    cases hf : t.free with
    | nil =>
        rw [if_pos (h.repr.allocatorEmpty_iff.mpr hf)]
        exact ⟨_, t, rfl, h.repr, .noRoom hh hf⟩
    | cons b rest =>
        obtain ⟨m, heq, r⟩ := h.repr.insertDirty h.valid hf key
        rw [if_neg (by simp [h.repr.allocatorEmpty_iff, hf]), heq]
        exact ⟨_, _, rfl, r, .insertDirty hh hf hq⟩

private theorem removeMapping_simulates (h : Sound g s t) (hh : s.held = none)
    {fullPathName : CString} {pageIndex : Nat} (hm : ∀ c, s.worker.moving = some c →
      (t.slot c).key ≠ State.keyAt pageIndex fullPathName) :
    Simulates g s t (.removeMapping fullPathName pageIndex)
      (s.removeMapping fullPathName pageIndex) := by
  obtain ⟨m, e, heq, r, hsome, hnone⟩ := h.repr.find fullPathName (toCachePageIndex pageIndex)
  unfold State.removeMapping SsdCache.removeMapping
  simp only [heq, bind, Except.bind, pure, Except.pure]
  cases e with
  | some e =>
      obtain ⟨hb, hkey⟩ := hsome e rfl
      have hmov : s.worker.moving ≠ some e := fun hmov => hm e hmov hkey
      obtain ⟨m', heq', r'⟩ := r.removeHit h.valid hb hmov
      simp only [heq']
      exact ⟨_, _, rfl, r', .remove hh hb hkey hmov⟩
  | none => exact ⟨_, t, rfl, r, .removeAbsent hh (hnone rfl)⟩

end Clients

section Worker

private theorem peakWork_simulates (h : Sound g s t) (hw : s.worker = .idle) :
    Simulates g s t .peakWork (.ok s.peakWork) := by
  unfold State.peakWork
  rw [h.repr.queue.peakWork]
  cases hq : t.queue with
  | nil => exact ⟨_, t, rfl, h.repr, .peekEmpty hw hq⟩
  | cons key rest => exact ⟨_, t, rfl, h.repr, .peek hw (by simp [State.view, hq])⟩

private theorem startPromotion_simulates (h : Sound g s t) (hh : s.held = none)
    (hw : s.worker = .peeked key) : Simulates g s t .startPromotion (s.startPromotion key) := by
  unfold State.startPromotion
  cases hf : t.free with
  | nil =>
      rw [h.repr.promotionFreeToClean_none hf key]
      exact ⟨_, t, rfl, h.repr, .full hh hw hf⟩
  | cons b rest =>
      obtain ⟨m, heq, r⟩ := h.repr.promotionFreeToClean h.valid hf key
      simp only [heq, bind, Except.bind, pure, Except.pure]
      exact ⟨_, _, rfl, r, .promote hh hw hf⟩

private theorem completePromotion_simulates (h : Sound g s t) (hh : s.held = none)
    (hw : s.worker = .promoting key b) (success : Bool) :
    Simulates g s t (.completePromotion success)
      (s.completeWith key (promotionComplete s.map b success)) := by
  obtain ⟨m, heq, r⟩ := h.repr.promotionComplete (hw ▸ h.valid) success
  rw [heq]
  exact ⟨_, _, rfl, r, .promoted hh hw⟩

private theorem startDemotion_simulates (h : Sound g s t) (hh : s.held = none)
    (hw : s.worker = .full key) : Simulates g s t .startDemotion (s.startDemotion key) := by
  unfold State.startDemotion
  by_cases hn : t.clean.length ≤ g.cacheBlockNum / 2
  · rw [h.repr.demotionCleanToFree_none hn]
    exact ⟨_, t, rfl, h.repr, .unevictable hh hw hn⟩
  · cases hc : t.clean with
    | nil => simp [hc] at hn
    | cons b rest =>
        obtain ⟨m, heq, r⟩ := h.repr.demotionCleanToFree hc hn
        simp only [heq, bind, Except.bind, pure, Except.pure]
        exact ⟨_, _, rfl, r, .demote hh hw hc (by simpa [State.view] using hn)⟩

private theorem completeDemotion_simulates (h : Sound g s t) (hh : s.held = none)
    (hw : s.worker = .demoting key b) (success : Bool) :
    Simulates g s t (.completeDemotion success)
      (s.completeWith key (demotionComplete s.map b success)) := by
  obtain ⟨m, heq, r⟩ := h.repr.demotionComplete (hw ▸ h.valid) success
  rw [heq]
  exact ⟨_, _, rfl, r, .demoted hh hw⟩

private theorem startWriteback_simulates (h : Sound g s t) (hh : s.held = none)
    (hw : s.worker = .unevictable key) :
    Simulates g s t .startWriteback (s.startWriteback key) := by
  unfold State.startWriteback
  cases hd : t.dirty with
  | nil =>
      rw [h.repr.writebackDirtyToClean_none hd]
      exact ⟨_, t, rfl, h.repr, .giveUp hh hw hd⟩
  | cons b rest =>
      obtain ⟨m, heq, r⟩ := h.repr.writebackDirtyToClean h.valid (by rw [hw]; rfl) hd
      simp only [heq, bind, Except.bind, pure, Except.pure]
      exact ⟨_, _, rfl, r, .write hh hw hd⟩

private theorem completeWriteback_simulates (h : Sound g s t) (hh : s.held = none)
    (hw : s.worker = .writing key b) (success : Bool) :
    Simulates g s t (.completeWriteback success)
      (s.completeWith key (writebackComplete s.map b success)) := by
  obtain ⟨m, heq, r⟩ := h.repr.writebackComplete (hw ▸ h.valid) success
  rw [heq]
  exact ⟨_, _, rfl, r, .written hh hw⟩

end Worker

theorem sound_start {blockSize cblockNum : Nat} (hs : (interleaving blockSize cblockNum).start s) :
    Sound (geometryOf s.map) s (Table.initial cblockNum) ∧
      (geometryOf s.map).cacheBlockNum = cblockNum ∧
      (geometryOf s.map).blockPerCblockShift ≤ CBLOCK_SHIFT := by
  obtain ⟨hn, hi, hw, hh, hr⟩ := hs
  obtain ⟨r, hg, hshift⟩ := repr_initMapping hn hi
  refine ⟨⟨r, ?_, by simp [State.view, hr], by simp [State.view, hh]⟩, hg, hshift⟩
  simp only [State.view, hg, hw]
  exact Valid.initial fun _ => ⟨rfl, rfl⟩

-- The worker's actions that need mapping_lock, by the phase that enables them.
theorem State.enabled_worker {a : Action} (he : s.enabled a = true) :
    (a = .startPromotion → s.held = none ∧ ∃ key, s.worker = .peeked key) ∧
    (∀ success, a = .completePromotion success →
      s.held = none ∧ ∃ key b, s.worker = .promoting key b) ∧
    (a = .startDemotion → s.held = none ∧ ∃ key, s.worker = .full key) ∧
    (∀ success, a = .completeDemotion success →
      s.held = none ∧ ∃ key b, s.worker = .demoting key b) ∧
    (a = .startWriteback → s.held = none ∧ ∃ key, s.worker = .unevictable key) ∧
    (∀ success, a = .completeWriteback success →
      s.held = none ∧ ∃ key b, s.worker = .writing key b) ∧
    (a = .removeWork → ∃ key, s.worker = .finished key) := by
  cases hw : s.worker <;> cases a <;> simp_all [State.enabled]

-- The actions refine the steps of the table; none of them faults.
theorem Sound.simulates {a : Action} (h : Sound g s t) (he : s.enabled a = true)
    (ha : Settled a s) : Simulates g s t a (State.act a s) := by
  have hworker := State.enabled_worker he
  cases a with
  | lookupMapping fullPathName pageIndex =>
      have hh : s.held = none := by simpa [State.enabled] using he
      exact lookup_simulates h hh fullPathName pageIndex (.inl ⟨rfl, rfl⟩)
  | lookupMappingWithInsert fullPathName pageIndex =>
      have hh : s.held = none := by simpa [State.enabled] using he
      exact lookup_simulates h hh fullPathName pageIndex (.inr ⟨rfl, rfl⟩)
  | nested =>
      have hsome : s.held ≠ none := by simpa [State.enabled, Option.isSome_iff_ne_none] using he
      change Simulates g s t .nested s.nested
      unfold State.nested
      cases hh : s.held with
      | none => exact absurd hh hsome
      | some next =>
          cases next with
          | insertWork key => exact insertNested_simulates h hh
          | containsWork key => exact checkNested_simulates h hh
  | setDirtyAfterWrite cblock dirty =>
      obtain ⟨hh, hr⟩ : s.held = none ∧ cblock ∈ s.returned := by simpa [State.enabled] using he
      exact ⟨_, _, rfl, h.repr.setDirtyAfterWrite h.valid (h.inv.returned cblock hr) dirty,
        .setDirty hh hr⟩
  | removeMapping fullPathName pageIndex =>
      have hh : s.held = none := by simpa [State.enabled] using he
      refine removeMapping_simulates h hh fun c hc hk => ?_
      rw [h.repr.slot_eq] at hk
      obtain ⟨hp, hi⟩ := Work.mk.inj hk
      exact (ha fullPathName pageIndex rfl c hc).elim (fun hn => hn hp) (fun hn => hn hi)
  | peakWork =>
      have hw : s.worker = .idle := by
        cases hw : s.worker <;> simp_all [State.enabled]
      exact peakWork_simulates h hw
  | startPromotion =>
      obtain ⟨hh, key, hw⟩ := hworker.1 rfl
      simp only [State.act, hw]
      exact startPromotion_simulates h hh hw
  | completePromotion success =>
      obtain ⟨hh, key, b, hw⟩ := hworker.2.1 success rfl
      simp only [State.act, hw]
      exact completePromotion_simulates h hh hw success
  | startDemotion =>
      obtain ⟨hh, key, hw⟩ := hworker.2.2.1 rfl
      simp only [State.act, hw]
      exact startDemotion_simulates h hh hw
  | completeDemotion success =>
      obtain ⟨hh, key, b, hw⟩ := hworker.2.2.2.1 success rfl
      simp only [State.act, hw]
      exact completeDemotion_simulates h hh hw success
  | startWriteback =>
      obtain ⟨hh, key, hw⟩ := hworker.2.2.2.2.1 rfl
      simp only [State.act, hw]
      exact startWriteback_simulates h hh hw
  | completeWriteback success =>
      obtain ⟨hh, key, b, hw⟩ := hworker.2.2.2.2.2.1 success rfl
      simp only [State.act, hw]
      exact completeWriteback_simulates h hh hw success
  | removeWork =>
      obtain ⟨key, hw⟩ := hworker.2.2.2.2.2.2 rfl
      exact ⟨_, _, rfl, h.repr.removeWork, .dequeue hw⟩

-- What one action did to a sound state.
theorem Sound.step {a : Action} {s' : State} (h : Sound g s t) (he : s.enabled a = true)
    (ha : Settled a s) (hact : State.act a s = .ok s') :
    ∃ t', Sound g s' t' ∧ Step g.cacheBlockNum a (s.view t) (s'.view t') := by
  obtain ⟨s₁, t', heq, r, hs⟩ := h.simulates he ha
  obtain rfl : s₁ = s' := Except.ok.inj (heq.symm.trans hact)
  exact ⟨t', ⟨r, hs.inv h.inv⟩, hs⟩

-- Every state of a run in which no discard meets a block in flight is sound.
theorem sound_of_reachable {blockSize cblockNum : Nat}
    (h : (interleaving blockSize cblockNum).Reachable Settled s) :
    ∃ g t, Sound g s t ∧ g.cacheBlockNum = cblockNum ∧ g.blockPerCblockShift ≤ CBLOCK_SHIFT := by
  refine h.invariant (I := fun s => ∃ g t, Sound g s t ∧ g.cacheBlockNum = cblockNum ∧
      g.blockPerCblockShift ≤ CBLOCK_SHIFT)
    (fun s hs => ⟨_, _, sound_start hs⟩) (fun s s' a hi he ha hact => ?_)
  obtain ⟨g, t, hs, hg⟩ := hi
  obtain ⟨t', hs', -⟩ := hs.step he ha hact
  exact ⟨g, t', hs', hg⟩

theorem action_returns {blockSize cblockNum : Nat} {a : Action}
    (h : (interleaving blockSize cblockNum).Reachable Settled s) (he : s.enabled a = true)
    (ha : Settled a s) : ∃ s', State.act a s = .ok s' := by
  obtain ⟨g, t, hs, -⟩ := sound_of_reachable h
  obtain ⟨s', t', heq, -⟩ := hs.simulates he ha
  exact ⟨s', heq⟩

-- The actions of one call, taken one after the other, are the call.
theorem lookupMapping_actions {s : State} (hh : s.held = none) (fullPathName : CString)
    (pageIndex : Nat) :
    (do (← State.act (.lookupMapping fullPathName pageIndex) s).nested).map State.map =
      (lookupMapping s.map fullPathName pageIndex).map Prod.fst := by
  simp only [State.act, State.lookup, lookupMapping, State.keyAt, bind, Except.bind, pure, Except.pure]
  rcases find s.map fullPathName (toCachePageIndex pageIndex) with fault | ⟨m, e⟩
  · rfl
  · cases e with
    | some e => simp only [State.nested, hh]; rfl
    | none =>
        simp only [State.nested, State.insertNested, bind, Except.bind, pure, Except.pure]
        rcases enqueue (lookupMiss m) fullPathName (toCachePageIndex pageIndex) with fault | m'
        · rfl
        · rfl

theorem lookupMappingWithInsert_actions {s : State} (hh : s.held = none) (fullPathName : CString)
    (pageIndex : Nat) :
    (do (← (← State.act (.lookupMappingWithInsert fullPathName pageIndex) s).nested).nested).map
        State.map =
      (lookupMappingWithInsert s.map fullPathName pageIndex).map Prod.fst := by
  simp only [State.act, State.lookup, lookupMappingWithInsert, State.keyAt,
    bind, Except.bind, pure, Except.pure]
  rcases find s.map fullPathName (toCachePageIndex pageIndex) with fault | ⟨m, e⟩
  · rfl
  · cases e with
    | some e => simp only [State.nested, hh]; rfl
    | none =>
        simp only [State.nested, State.checkNested, bind, Except.bind, pure, Except.pure]
        rcases containsWork (lookupMiss m).wq fullPathName (toCachePageIndex pageIndex)
          with fault | found
        · rfl
        · cases found with
          | true => rfl
          | false =>
              by_cases hf : allocatorEmpty (lookupMiss m).ea = true
              · simp only [hf, Bool.false_eq_true, ite_false, ite_true, State.insertNested, bind,
                  Except.bind, pure, Except.pure]
                rcases enqueue (lookupMiss m) fullPathName (toCachePageIndex pageIndex)
                  with fault | m' <;> rfl
              · simp only [hf, Bool.false_eq_true, ite_false]
                rcases insertDirty (lookupMiss m) fullPathName (toCachePageIndex pageIndex)
                  with fault | ⟨m', c⟩ <;> rfl

end UserPageCache.SsdCache
