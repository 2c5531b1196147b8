import UserPageCache.Lib.Stamps
import UserPageCache.SsdCache.Accounting

namespace UserPageCache.SsdCache

open Stamps

section Events

-- The cblock that a lookup has returned in this step.
def newlyReturned (before after : List Nat) : Option Nat :=
  if after = before then none else after.head?

@[simp] theorem newlyReturned_self (returned : List Nat) :
    newlyReturned returned returned = none := by simp [newlyReturned]

@[simp] theorem newlyReturned_cons (b : Nat) (returned : List Nat) :
    newlyReturned returned (b :: returned) = some b := by simp [newlyReturned]

-- The block that the step touches: its promotion or its writeback is completed, or it is hit
-- while it is clean and not in flight.
def touchedBy (a : Action) (worker : Worker Work) (found : Option Nat) (atRest : Nat → Bool) :
    Option Nat :=
  match a, worker with
  | .completePromotion true, .promoting _ b => some b
  | .completeWriteback true, .writing _ b => some b
  | .lookupMapping _ _, _ => found.filter atRest
  | .lookupMappingWithInsert _ _, _ => found.filter atRest
  | _, _ => none

-- The block that the step dirties: it is inserted, marked while it is resident, or it was
-- marked during the promotion or the writeback that is completed.
def dirtiedBy (a : Action) (worker : Worker Work) (found : Option Nat)
    (resident marked : Nat → Bool) : Option Nat :=
  match a, worker with
  | .nested, _ => found
  | .setDirtyAfterWrite b _, _ => (some b).filter resident
  | .completePromotion true, .promoting _ b => (some b).filter marked
  | .completeWriteback true, .writing _ b => (some b).filter marked
  | _, _ => none

-- The shared state with a clock that counts the steps, and when each block was last touched
-- and last dirtied.
structure Timed where
  state : State
  clock : Nat
  touched : Nat → Nat
  dirtied : Nat → Nat

def Timed.act (a : Action) (x : Timed) : Except Fault Timed := do
  let s := x.state
  let s' ← State.act a s
  let found := newlyReturned s.returned s'.returned
  return {
    state := s'
    clock := x.clock + 1
    touched := stamp x.touched x.clock (touchedBy a s.worker found fun e =>
      !entryGetPending (s.map.es e) && !entryGetDirty (s.map.es e))
    dirtied := stamp x.dirtied x.clock (dirtiedBy a s.worker found
      (fun e => entryGetAlloc (s.map.es e) && !entryGetPending (s.map.es e))
      fun e => entryGetDirty (s.map.es e)) }

def timing (blockSize cblockNum : Nat) : System Timed Action Fault where
  start x := (interleaving blockSize cblockNum).start x.state ∧
    x.clock = 0 ∧ x.touched = (fun _ => 0) ∧ x.dirtied = fun _ => 0
  enabled a x := x.state.enabled a = true
  act := Timed.act

instance (blockSize cblockNum : Nat) (a : Action) (x : Timed) :
    Decidable ((timing blockSize cblockNum).enabled a x) :=
  inferInstanceAs (Decidable (x.state.enabled a = true))

-- The I/O of every migration succeeds.
def Successful (a : Action) : Prop :=
  a ≠ .completePromotion false ∧ a ≠ .completeDemotion false ∧ a ≠ .completeWriteback false

-- And no block is discarded while it is in flight.
def Untroubled (a : Action) (x : Timed) : Prop := Successful a ∧ Settled a x.state

end Events

namespace Table

variable {κ : Type*} {t t' : Table κ} {touched dirtied : Nat → Nat} {now b : Nat} {c d : Option Nat}

-- Both lists are in the order of the last event that matters to them.
structure Ordered (t : Table κ) (touched dirtied : Nat → Nat) (now : Nat) : Prop where
  clean : InOrder touched now t.clean
  dirty : InOrder dirtied now t.dirty

theorem Ordered.shrink (h : t.Ordered touched dirtied now) (hc : t'.clean.Sublist t.clean)
    (hd : t'.dirty.Sublist t.dirty) : t'.Ordered touched dirtied now :=
  ⟨h.clean.sublist hc, h.dirty.sublist hd⟩

theorem Ordered.same (h : t.Ordered touched dirtied now) (hc : t'.clean = t.clean)
    (hd : t'.dirty = t.dirty) : t'.Ordered touched dirtied now :=
  h.shrink (hc ▸ List.Sublist.refl _) (hd ▸ List.Sublist.refl _)

theorem Ordered.tick (h : t.Ordered touched dirtied now) :
    t.Ordered (stamp touched now none) (stamp dirtied now none) (now + 1) :=
  ⟨h.clean.kept (by simp), h.dirty.kept (by simp)⟩

-- A block joins the tail of the list that its flag selects, stamped for it.
theorem Ordered.addTail (h : t.Ordered touched dirtied now) (hb : b ∉ t.clean) (hb' : b ∉ t.dirty)
    (hc : c = some b ∨ c = none ∧ (t.slot b).dirty = true)
    (hd : d = (some b).filter fun i => (t.slot i).dirty) :
    (t.addTail b).Ordered (stamp touched now c) (stamp dirtied now d) (now + 1) := by
  have hother : ∀ i, c = some i → i = b := by
    rintro i hi
    rcases hc with rfl | ⟨rfl, -⟩
    · exact (Option.some.inj hi).symm
    · simp at hi
  unfold Table.addTail
  cases hf : (t.slot b).dirty with
  | true =>
      obtain rfl : d = some b := by simp [hd, hf]
      refine ⟨h.clean.kept fun i hi => ?_, h.dirty.push hb'⟩
      exact hother i hi ▸ hb
  | false =>
      obtain rfl : d = none := by simp [hd, hf]
      obtain rfl : c = some b := by simpa [hf] using hc
      exact ⟨h.clean.push hb, h.dirty.kept (by simp)⟩

theorem Ordered.del (h : t.Ordered touched dirtied now) (b : Nat) :
    (t.del b).Ordered touched dirtied now := by
  unfold Table.del
  split
  · exact h.shrink (List.Sublist.refl _) List.erase_sublist
  · exact h.shrink List.erase_sublist (List.Sublist.refl _)

theorem notMem_of_off {n : Nat} {off : List Nat} (h : t.Accounted n off) (hb : b ∈ off) :
    b ∉ t.clean ∧ b ∉ t.dirty := by
  have hl := h.notMem_listed hb
  simp only [Table.listed, List.mem_append, not_or] at hl
  exact ⟨hl.1.2, hl.2⟩

end Table

section Steps

variable {n now : Nat} {a : Action} {v v' : View} {touched dirtied : Nat → Nat}

def View.touchedBy (a : Action) (v v' : View) : Option Nat :=
  SsdCache.touchedBy a v.worker (newlyReturned v.returned v'.returned) fun e =>
    !(v.table.slot e).pending && !(v.table.slot e).dirty

def View.dirtiedBy (a : Action) (v v' : View) : Option Nat :=
  SsdCache.dirtiedBy a v.worker (newlyReturned v.returned v'.returned)
    (fun e => (v.table.slot e).alloc && !(v.table.slot e).pending) fun e => (v.table.slot e).dirty

theorem View.Inv.offLists (h : v.Inv n) {b : Nat} (hb : v.worker.inFlight = some b) :
    b ∉ v.table.clean ∧ b ∉ v.table.dirty :=
  Table.notMem_of_off h.valid.accounted (by simp [hb])

-- A resident block that goes from its place to the tail of a list.
theorem View.Inv.afterDel (h : v.Inv n) {b : Nat} (hb : v.table.Resident b) :
    b ∉ (v.table.del b).clean ∧ b ∉ (v.table.del b).dirty :=
  Table.notMem_of_off (h.valid.accounted.del hb) (by simp)

theorem View.Inv.resident (h : v.Inv n) {b : Nat} (hb : b < n)
    (hp : (v.table.slot b).pending = false) (ha : (v.table.slot b).alloc = true) :
    v.table.Resident b := by
  apply h.valid.resident hb _ ha
  intro hw
  simp [(h.valid.pending b hb).mpr hw] at hp

theorem Step.ordered_hit (h : v.Inv n) (ho : v.table.Ordered touched dirtied now) {e : Nat}
    (he : e ∈ v.table.hashed) : (v.table.hit e).Ordered
      (stamp touched now ((some e).filter fun i => !(v.table.slot i).pending && !(v.table.slot i).dirty))
      (stamp dirtied now none) (now + 1) := by
  unfold Table.hit
  rw [Option.filter_some]
  cases hf : !(v.table.slot e).pending && !(v.table.slot e).dirty with
  | false => exact ho.tick
  | true =>
      obtain ⟨hp, hd⟩ : (v.table.slot e).pending = false ∧ (v.table.slot e).dirty = false := by
        simpa using hf
      have hres := h.resident (h.valid.lt_of_hashed he) hp (h.valid.alloc_of_hashed he)
      obtain ⟨hc, hd'⟩ := h.afterDel hres
      apply (ho.del e).addTail hc hd'
      · exact .inl rfl
      · simp [Option.filter_some, hd]

theorem Step.ordered_mark (h : v.Inv n) (ho : v.table.Ordered touched dirtied now) {b : Nat}
    (hb : b < n) : (v.table.markDirty b).Ordered (stamp touched now none)
      (stamp dirtied now ((some b).filter fun i =>
        (v.table.slot i).alloc && !(v.table.slot i).pending)) (now + 1) := by
  unfold Table.markDirty
  rw [Option.filter_some]
  cases ha : (v.table.slot b).alloc with
  | false => exact ho.tick
  | true =>
      cases hp : (v.table.slot b).pending with
      | true => exact ho.tick.same rfl rfl
      | false =>
          obtain ⟨hc, hd⟩ := h.afterDel (h.resident hb hp ha)
          have hdel : ((v.table.del b).setDirty b true).Ordered touched dirtied now :=
            (ho.del b).same rfl rfl
          apply hdel.addTail hc hd
          · exact .inr ⟨rfl, by simp⟩
          · simp [Option.filter_some]

-- A block in flight joins the tail of the list that its flag selects.
theorem Step.ordered_complete (h : v.Inv n) (ho : v.table.Ordered touched dirtied now) {b : Nat}
    (hb : v.worker.inFlight = some b) {t : Table Work} (hc : t.clean = v.table.clean)
    (hd : t.dirty = v.table.dirty) (hf : (t.slot b).dirty = (v.table.slot b).dirty) :
    (t.addTail b).Ordered (stamp touched now (some b))
      (stamp dirtied now ((some b).filter fun i => (v.table.slot i).dirty)) (now + 1) := by
  obtain ⟨hclean, hdirty⟩ := h.offLists hb
  apply (ho.same hc hd).addTail (hc ▸ hclean) (hd ▸ hdirty) (.inl rfl)
  rw [Option.filter_some, Option.filter_some, hf]

theorem Step.ordered (hs : Step n a v v') (h : v.Inv n) (ho : v.table.Ordered touched dirtied now)
    (ha : Successful a) : v'.table.Ordered (stamp touched now (View.touchedBy a v v'))
      (stamp dirtied now (View.dirtiedBy a v v')) (now + 1) := by
  unfold View.touchedBy View.dirtiedBy
  cases hs with
  | hit hh hlook he hk =>
      rcases hlook with rfl | rfl <;>
        simpa only [touchedBy, dirtiedBy, newlyReturned_cons] using Step.ordered_hit h ho he
  | miss hh hlook hk =>
      rcases hlook with ⟨rfl, -⟩ | ⟨rfl, -⟩ <;>
        simpa only [touchedBy, dirtiedBy, newlyReturned_self, Option.filter_none] using ho.tick
  | insertWork hh =>
      simp only [touchedBy, dirtiedBy, newlyReturned_self]
      unfold Table.enqueue
      split
      · exact ho.tick.same rfl rfl
      · exact ho.tick
  | queued hh => simpa only [touchedBy, dirtiedBy, newlyReturned_self] using ho.tick
  | noRoom hh hf => simpa only [touchedBy, dirtiedBy, newlyReturned_self] using ho.tick
  | @insertDirty _ key b rest hh hf hq =>
      have hacc : (v.table.allocate ⟨key, false, true, true⟩).Accounted n
          (b :: v.worker.inFlight.toList) := h.valid.accounted.allocate hf rfl
      obtain ⟨hc, hd⟩ := Table.notMem_of_off hacc List.mem_cons_self
      have hlists : ((v.table.allocate ⟨key, false, true, true⟩).hashIn b).Ordered touched dirtied
          now := by
        rw [Table.allocate_eq hf]
        exact ho.same rfl rfl
      have hslot : (((v.table.allocate ⟨key, false, true, true⟩).hashIn b).slot b).dirty = true := by
        simp [Table.allocate_slot hf]
      simp only [touchedBy, dirtiedBy, newlyReturned_cons]
      apply hlists.addTail hc hd
      · exact .inr ⟨rfl, hslot⟩
      · rw [Option.filter_some, if_pos hslot]
  | setDirty hh hb =>
      simpa only [touchedBy, dirtiedBy] using Step.ordered_mark h ho (h.returned _ hb)
  | remove hh he hk hm =>
      simp only [touchedBy, dirtiedBy]
      exact (ho.del _).tick.same rfl rfl
  | removeAbsent hh hk => simpa only [touchedBy, dirtiedBy] using ho.tick
  | promote hh hw hf =>
      simp only [touchedBy, dirtiedBy, Table.promotionStart, Table.allocate_eq hf]
      exact ho.tick.same rfl rfl
  | @promoted _ key b success hh hw =>
      cases success with
      | false => exact absurd rfl ha.1
      | true =>
          simp only [hw, touchedBy, dirtiedBy, Table.promotionComplete, ite_true]
          exact Step.ordered_complete h ho (by rw [hw]; rfl) rfl rfl (by simp)
  | demote hh hw hc hn =>
      simp only [touchedBy, dirtiedBy]
      exact ho.tick.shrink (List.tail_sublist _) (List.Sublist.refl _)
  | @demoted _ key b success hh hw =>
      cases success with
      | false => exact absurd rfl ha.2.1
      | true =>
          simp only [touchedBy, dirtiedBy, Table.demotionComplete, ite_true]
          exact ho.tick.same rfl rfl
  | write hh hw hd =>
      simp only [touchedBy, dirtiedBy]
      exact ho.tick.shrink (List.Sublist.refl _) (List.tail_sublist _)
  | @written _ key b success hh hw =>
      cases success with
      | false => exact absurd rfl ha.2.2
      | true =>
          simp only [hw, touchedBy, dirtiedBy, Table.writebackComplete, ite_true]
          exact Step.ordered_complete h ho (by rw [hw]; rfl) rfl rfl (by simp)
  | peek hw hq => exact ho.tick
  | peekEmpty hw hq => exact ho.tick
  | full hh hw hf => exact ho.tick
  | unevictable hh hw hn => exact ho.tick
  | giveUp hh hw hd => exact ho.tick
  | dequeue hw => exact ho.tick.same rfl rfl

-- The worker takes the head of a list.
theorem Step.demotes_head (hs : Step n .startDemotion v v') {key : Work} {b : Nat}
    (hw : v'.worker = .demoting key b) : ∃ rest, v.table.clean = b :: rest := by
  cases hs with
  | hit hh hlook he hk => rcases hlook with hlook | hlook <;> cases hlook
  | miss hh hlook hk => rcases hlook with ⟨hlook, -⟩ | ⟨hlook, -⟩ <;> cases hlook
  | unevictable hh hfull hn => simp at hw
  | @demote _ key' c rest hh hfull hc hn =>
      obtain ⟨-, rfl⟩ : key' = key ∧ c = b := by simpa using hw
      exact ⟨rest, hc⟩

theorem Step.writes_head (hs : Step n .startWriteback v v') {key : Work} {b : Nat}
    (hw : v'.worker = .writing key b) : ∃ rest, v.table.dirty = b :: rest := by
  cases hs with
  | hit hh hlook he hk => rcases hlook with hlook | hlook <;> cases hlook
  | miss hh hlook hk => rcases hlook with ⟨hlook, -⟩ | ⟨hlook, -⟩ <;> cases hlook
  | giveUp hh hfull hd => simp at hw
  | @write _ key' c rest hh hfull hd =>
      obtain ⟨-, rfl⟩ : key' = key ∧ c = b := by simpa using hw
      exact ⟨rest, hd⟩

end Steps

section Runs

variable {g : Geometry} {x x' : Timed} {t : Table Work} {a : Action} {blockSize cblockNum : Nat}

-- The clean list and the dirty list as they are in memory, from head to tail.
structure LruOrder (x : Timed) (clean dirty : List Nat) : Prop where
  cleanList : IsIlist x.state.map.es x.state.map.clean clean
  dirtyList : IsIlist x.state.map.es x.state.map.dirty dirty
  touched : clean.Pairwise fun i j => x.touched i < x.touched j
  dirtied : dirty.Pairwise fun i j => x.dirtied i < x.dirtied j

-- The mapping stands for a table whose lists are in order.
structure Timed.InOrder (g : Geometry) (x : Timed) (t : Table Work) : Prop where
  sound : Sound g x.state t
  ordered : t.Ordered x.touched x.dirtied x.clock

theorem Timed.InOrder.step (h : x.InOrder g t) (he : x.state.enabled a = true)
    (ha : Untroubled a x) (hact : Timed.act a x = .ok x') : ∃ t', x'.InOrder g t' := by
  unfold Timed.act at hact
  obtain ⟨s', hs', hact⟩ := bind_eq_ok.mp hact
  obtain ⟨t', hsound, hstep⟩ := h.sound.step he ha.2 hs'
  have hordered := hstep.ordered h.sound.inv h.ordered ha.1
  rw [← Except.ok.inj hact]
  refine ⟨t', hsound, ?_⟩
  simp only [h.sound.repr.getPending, h.sound.repr.getDirty, h.sound.repr.getAlloc]
  exact hordered

theorem inOrder_of_reachable (h : (timing blockSize cblockNum).Reachable Untroubled x) :
    ∃ g t, x.InOrder g t := by
  apply h.invariant (I := fun x => ∃ g t, x.InOrder g t)
  · rintro x ⟨hstart, hclock, htouched, hdirtied⟩
    obtain ⟨hs, -, -⟩ := sound_start hstart
    exact ⟨_, _, hs, .nil _ _, .nil _ _⟩
  · rintro x x' a ⟨g, t, hx⟩ he ha hact
    obtain ⟨t', hx'⟩ := hx.step he ha hact
    exact ⟨g, t', hx'⟩

theorem Timed.InOrder.demotes (h : x.InOrder g t) {s' : State} {key : Work} {b : Nat}
    (he : x.state.enabled .startDemotion = true)
    (hact : State.act .startDemotion x.state = .ok s') (hw : s'.worker = .demoting key b) :
    b ∈ t.clean ∧ ∀ i ∈ t.clean, i ≠ b → x.touched b < x.touched i := by
  obtain ⟨t', -, hstep⟩ := h.sound.step he nofun hact
  obtain ⟨rest, hc⟩ := hstep.demotes_head hw
  exact h.ordered.clean.head hc

theorem Timed.InOrder.writes (h : x.InOrder g t) {s' : State} {key : Work} {b : Nat}
    (he : x.state.enabled .startWriteback = true)
    (hact : State.act .startWriteback x.state = .ok s') (hw : s'.worker = .writing key b) :
    b ∈ t.dirty ∧ ∀ i ∈ t.dirty, i ≠ b → x.dirtied b < x.dirtied i := by
  obtain ⟨t', -, hstep⟩ := h.sound.step he nofun hact
  obtain ⟨rest, hd⟩ := hstep.writes_head hw
  exact h.ordered.dirty.head hd

-- From head to tail the clean list is in the order of the last touch and the dirty list in
-- that of the last dirtying, so the worker takes the oldest block of each.
theorem eviction_order (h : (timing blockSize cblockNum).Reachable Untroubled x) :
    ∃ clean dirty, LruOrder x clean dirty ∧
      (∀ s' key b, x.state.enabled .startDemotion = true →
        State.act .startDemotion x.state = .ok s' → s'.worker = .demoting key b →
        b ∈ clean ∧ ∀ i ∈ clean, i ≠ b → x.touched b < x.touched i) ∧
      (∀ s' key b, x.state.enabled .startWriteback = true →
        State.act .startWriteback x.state = .ok s' → s'.worker = .writing key b →
        b ∈ dirty ∧ ∀ i ∈ dirty, i ≠ b → x.dirtied b < x.dirtied i) := by
  obtain ⟨g, t, hx⟩ := inOrder_of_reachable h
  have r := hx.sound.repr
  refine ⟨t.clean, t.dirty, ⟨r.clean, r.dirty, hx.ordered.clean.ordered, hx.ordered.dirty.ordered⟩,
    fun s' key b he hact hw => hx.demotes he hact hw, fun s' key b he hact hw =>
      hx.writes he hact hw⟩

-- Two whole blocks are written; a hit does not move a dirty block, a second write does.
def rewriteOrder : List Action :=
  [.lookupMappingWithInsert [⟨97, nonzero_a⟩] 0, .nested,
    .lookupMappingWithInsert [⟨97, nonzero_a⟩] 8, .nested, .lookupMapping [⟨97, nonzero_a⟩] 0,
    .setDirtyAfterWrite 0 true]

def Timed.boot : Timed := ⟨State.boot 512 2, 0, fun _ => 0, fun _ => 0⟩

theorem eviction_order_rewriteOrder : ∃ x clean dirty, LruOrder x clean dirty ∧
    lHead x.state.map.dirty = some 1 ∧ lTail x.state.map.dirty = some 0 ∧
    x.dirtied 1 < x.dirtied 0 := by
  have hstart : (timing 512 2).start Timed.boot :=
    ⟨boot_start (by decide) (by decide) (by decide), rfl, rfl, rfl⟩
  have hallowed : ∀ a ∈ rewriteOrder, ∀ x, Untroubled a x := by
    intro a ha x
    simp only [rewriteOrder, List.mem_cons, List.not_mem_nil, or_false] at ha
    rcases ha with rfl | rfl | rfl | rfl | rfl | rfl <;>
      exact ⟨⟨nofun, nofun, nofun⟩, nofun⟩
  have hrun : ((timing 512 2).run Timed.boot rewriteOrder).any (fun x =>
      lHead x.state.map.dirty == some 1 && lTail x.state.map.dirty == some 0 &&
        decide (x.dirtied 1 < x.dirtied 0)) = true := by decide +kernel
  obtain ⟨x, hx, hp⟩ := (System.Reachable.start hstart).exists_run hallowed hrun
  simp only [Bool.and_eq_true, beq_iff_eq, decide_eq_true_eq] at hp
  obtain ⟨clean, dirty, hlru, -, -⟩ := eviction_order hx
  exact ⟨x, clean, dirty, hlru, hp.1.1, hp.1.2, hp.2⟩

end Runs

end UserPageCache.SsdCache
