import UserPageCache.Lib.Journal
import UserPageCache.SsdCache.Accounting
import UserPageCache.SsdCache.Coherence.Theorems
import Mathlib.Data.Finset.Card

namespace UserPageCache.SsdCache

-- What info_mapping prints, but for the hit ratio.
structure Info where
  freeEntry : Nat
  cleanEntry : Nat
  dirtyEntry : Nat
  promotionTime : Nat
  demotionTime : Nat
  writebackTime : Nat
  hitTime : Nat
  missTime : Nat

def infoMapping (m : Mapping) : Info where
  freeEntry := m.ea.free.nrElts
  cleanEntry := m.clean.nrElts
  dirtyEntry := m.dirty.nrElts
  promotionTime := m.promotionTime
  demotionTime := m.demotionTime
  writebackTime := m.writebackTime
  hitTime := m.hitTime
  missTime := m.missTime

-- What happens to the cache: lookups hit or miss, a WRITE inserts a block or makes one dirty, a
-- discard removes one, migrations succeed, and the worker takes a work from the queue.
inductive Happening where
  | hit
  | miss
  | insert
  | mark
  | remove
  | promotion
  | demotion
  | writeback
  | retire
deriving DecidableEq

-- A lookup that misses goes on to the work queue, one that inserts returns a block, a discard
-- that finds a block frees it, and a block that is dirty already is not marked again.
def happened (a : Action) (s s' : State) : List Happening :=
  match a with
  | .lookupMapping _ _ => if s'.held = none then [.hit] else [.miss]
  | .lookupMappingWithInsert _ _ => if s'.held = none then [.hit] else [.miss]
  | .nested => if s'.returned.length = s.returned.length then [] else [.insert]
  | .setDirtyAfterWrite c _ =>
    if entryGetDirty (s'.map.es c) = entryGetDirty (s.map.es c) then [] else [.mark]
  | .removeMapping _ _ => if s'.map.ea.free.nrElts = s.map.ea.free.nrElts then [] else [.remove]
  | .completePromotion success => if success then [.promotion] else []
  | .completeDemotion success => if success then [.demotion] else []
  | .completeWriteback success => if success then [.writeback] else []
  | .removeWork => [.retire]
  | _ => []

abbrev counting (blockSize cblockNum : Nat) :
    System (System.Journal State Happening) Action Fault :=
  (interleaving blockSize cblockNum).journaling happened

section Counters

-- The counters in the mapping.
def Mapping.counter (m : Mapping) : Happening → Nat
  | .hit => m.hitTime
  | .miss => m.missTime
  | .promotion => m.promotionTime
  | .demotion => m.demotionTime
  | .writeback => m.writebackTime
  | _ => 0

def Happening.counted : Happening → Bool
  | .hit => true
  | .miss => true
  | .promotion => true
  | .demotion => true
  | .writeback => true
  | _ => false

def count (counter : Happening → Nat) (event : Happening) : Happening → Nat :=
  if event.counted then Function.update counter event (inc (counter event)) else counter

variable {m m' : Mapping} {s s' : State} {e c : Nat} {path : CString} {index : Nat}

@[simp] theorem addTailByFlag_counter (m : Mapping) (e : Nat) :
    (addTailByFlag m e).counter = m.counter := by
  funext k
  unfold addTailByFlag
  split <;> cases k <;> rfl

@[simp] theorem addHeadByFlag_counter (m : Mapping) (e : Nat) :
    (addHeadByFlag m e).counter = m.counter := by
  funext k
  unfold addHeadByFlag
  split <;> cases k <;> rfl

@[simp] theorem delByFlag_counter (m : Mapping) (e : Nat) :
    (delByFlag m e).counter = m.counter := by
  funext k
  unfold delByFlag
  split <;> cases k <;> rfl

-- The rest of the mapping is no counter.
theorem counter_congr (hh : m'.hitTime = m.hitTime) (hm : m'.missTime = m.missTime)
    (hp : m'.promotionTime = m.promotionTime) (hd : m'.demotionTime = m.demotionTime)
    (hw : m'.writebackTime = m.writebackTime) : m'.counter = m.counter := by
  funext k
  cases k <;> simp [Mapping.counter, *]

theorem hashOut_counter (h : hashOut m e = .ok m') : m'.counter = m.counter := by
  obtain ⟨v, -, h⟩ := bind_eq_ok.mp h
  rw [← Except.ok.inj h]
  exact counter_congr rfl rfl rfl rfl rfl

theorem find_counter {found : Option Nat} (h : find m path index = .ok (m', found)) :
    m'.counter = m.counter := by
  obtain ⟨⟨table, es, e⟩, -, h⟩ := bind_eq_ok.mp h
  obtain ⟨rfl, -⟩ := Prod.mk.inj (Except.ok.inj h)
  exact counter_congr rfl rfl rfl rfl rfl

theorem enqueue_counter (h : enqueue m path index = .ok m') : m'.counter = m.counter := by
  obtain ⟨⟨wq, rc⟩, -, h⟩ := bind_eq_ok.mp h
  obtain rfl := Except.ok.inj h
  exact counter_congr rfl rfl rfl rfl rfl

theorem lookupHit_counter (m : Mapping) (e : Nat) :
    (lookupHit m e).counter = count m.counter .hit := by
  have hcount : ({ m with hitTime := inc m.hitTime } : Mapping).counter = count m.counter .hit := by
    funext k
    cases k <;> rfl
  unfold lookupHit
  simp only
  split
  · rw [addTailByFlag_counter, delByFlag_counter, hcount]
  · exact hcount

theorem lookupMiss_counter (m : Mapping) : (lookupMiss m).counter = count m.counter .miss := by
  funext k
  cases k <;> rfl

theorem insertDirty_counter {found : Option Nat} (h : insertDirty m path index = .ok (m', found)) :
    m'.counter = m.counter := by
  unfold insertDirty at h
  split at h
  · simp at h
  · obtain ⟨rfl, -⟩ := Prod.mk.inj (Except.ok.inj h)
    rw [addTailByFlag_counter]
    exact counter_congr rfl rfl rfl rfl rfl

theorem setDirtyAfterWrite_counter (m : Mapping) (c : Nat) (dirty : Bool) :
    (SsdCache.setDirtyAfterWrite m c dirty).counter = m.counter := by
  unfold SsdCache.setDirtyAfterWrite
  split
  · rfl
  · split
    · rfl
    · split
      · exact counter_congr rfl rfl rfl rfl rfl
      · rw [addTailByFlag_counter]
        exact (counter_congr rfl rfl rfl rfl rfl).trans (delByFlag_counter m _)

theorem removeMapping_counter {found : Bool}
    (h : SsdCache.removeMapping m path index = .ok (m', found)) : m'.counter = m.counter := by
  obtain ⟨⟨m₁, e⟩, hfind, h⟩ := bind_eq_ok.mp h
  have hsame := find_counter hfind
  cases e with
  | none =>
      obtain ⟨rfl, -⟩ := Prod.mk.inj (Except.ok.inj h)
      exact hsame
  | some e =>
      obtain ⟨m₂, hout, h⟩ := bind_eq_ok.mp h
      obtain ⟨rfl, -⟩ := Prod.mk.inj (Except.ok.inj h)
      have hrest := hashOut_counter hout
      rw [delByFlag_counter, hsame] at hrest
      exact (counter_congr rfl rfl rfl rfl rfl).trans hrest

theorem promotionFreeToClean_counter
    (h : promotionFreeToClean m path index = .ok (some (m', c))) : m'.counter = m.counter := by
  unfold promotionFreeToClean at h
  split at h
  · simp at h
  · split at h
    · simp at h
    · obtain ⟨rfl, -⟩ := Prod.mk.inj (Option.some.inj (Except.ok.inj h))
      exact counter_congr rfl rfl rfl rfl rfl

theorem promotionComplete_counter {success : Bool} (h : promotionComplete m c success = .ok m') :
    m'.counter = (if success then [Happening.promotion] else []).foldl count m.counter := by
  unfold promotionComplete at h
  split at h
  · simp at h
  · cases success with
    | true =>
        obtain rfl := Except.ok.inj h
        rw [addTailByFlag_counter]
        funext k
        cases k <;> rfl
    | false =>
        obtain rfl := Except.ok.inj h
        exact counter_congr rfl rfl rfl rfl rfl

theorem demotionCleanToFree_counter (h : demotionCleanToFree m = .ok (some (m', c))) :
    m'.counter = m.counter := by
  unfold demotionCleanToFree at h
  split at h
  · simp at h
  · split at h
    · simp at h
    · obtain ⟨rfl, -⟩ := Prod.mk.inj (Option.some.inj (Except.ok.inj h))
      exact counter_congr rfl rfl rfl rfl rfl

theorem demotionComplete_counter {success : Bool} (h : demotionComplete m c success = .ok m') :
    m'.counter = (if success then [Happening.demotion] else []).foldl count m.counter := by
  unfold demotionComplete at h
  split at h
  · simp at h
  · cases success with
    | true =>
        obtain ⟨m₁, hout, h⟩ := bind_eq_ok.mp h
        obtain rfl := Except.ok.inj h
        have hout := hashOut_counter hout
        refine (counter_congr rfl rfl rfl rfl rfl).trans (hout.trans ?_)
        funext k
        cases k <;> rfl
    | false =>
        obtain rfl := Except.ok.inj h
        rw [addTailByFlag_counter]
        exact counter_congr rfl rfl rfl rfl rfl

theorem writebackDirtyToClean_counter (h : writebackDirtyToClean m = .ok (some (m', c))) :
    m'.counter = m.counter := by
  unfold writebackDirtyToClean at h
  split at h
  · simp at h
  · split at h
    · simp at h
    · split at h
      · simp at h
      · obtain ⟨rfl, -⟩ := Prod.mk.inj (Option.some.inj (Except.ok.inj h))
        exact counter_congr rfl rfl rfl rfl rfl

theorem writebackComplete_counter {success : Bool} (h : writebackComplete m c success = .ok m') :
    m'.counter = (if success then [Happening.writeback] else []).foldl count m.counter := by
  unfold writebackComplete at h
  split at h
  · simp at h
  · cases success with
    | true =>
        obtain rfl := Except.ok.inj h
        rw [addTailByFlag_counter]
        funext k
        cases k <;> rfl
    | false =>
        obtain rfl := Except.ok.inj h
        rw [addHeadByFlag_counter]
        exact counter_congr rfl rfl rfl rfl rfl

theorem lookup_counter {key : Work} {next : Nested} (hh : s.held = none)
    (h : s.lookup key next = .ok s') : s'.map.counter =
      (if s'.held = none then [Happening.hit] else [.miss]).foldl count s.map.counter := by
  obtain ⟨⟨m, e⟩, hfind, h⟩ := bind_eq_ok.mp h
  have hsame := find_counter hfind
  cases e with
  | some e =>
      obtain rfl := Except.ok.inj h
      rw [if_pos hh]
      exact (lookupHit_counter m e).trans (by rw [hsame]; rfl)
  | none =>
      obtain rfl := Except.ok.inj h
      exact (lookupMiss_counter m).trans (by rw [hsame]; rfl)

theorem nested_counter (h : s.nested = .ok s') : s'.map.counter = s.map.counter := by
  unfold State.nested at h
  split at h
  · obtain ⟨m, hm, h⟩ := bind_eq_ok.mp h
    obtain rfl := Except.ok.inj h
    exact enqueue_counter hm
  · obtain ⟨found, -, h⟩ := bind_eq_ok.mp h
    split at h
    · obtain rfl := Except.ok.inj h
      rfl
    · split at h
      · obtain rfl := Except.ok.inj h
        rfl
      · obtain ⟨⟨m, cblock⟩, hm, h⟩ := bind_eq_ok.mp h
        obtain rfl := Except.ok.inj h
        exact insertDirty_counter hm
  · obtain rfl := Except.ok.inj h
    rfl

-- A migration that starts counts nothing yet.
theorem start_counter {start : Except Fault (Option (Mapping × Nat))} {taken : Nat → Worker Work}
    {declined : Worker Work} (hstart : ∀ m c, start = .ok (some (m, c)) → m.counter = s.map.counter)
    (h : (do
      match ← start with
      | some (m, cblock) => return { s with map := m, worker := taken cblock }
      | none => return { s with worker := declined }) = .ok s') :
    s'.map.counter = s.map.counter := by
  obtain ⟨r, hr, h⟩ := bind_eq_ok.mp h
  cases r with
  | none =>
      obtain rfl := Except.ok.inj h
      rfl
  | some v =>
      obtain rfl := Except.ok.inj h
      exact hstart _ _ hr

-- What an action does to the counters is told by what happened.
theorem act_counter {a : Action} (he : s.enabled a = true) (h : State.act a s = .ok s') :
    s'.map.counter = (happened a s s').foldl count s.map.counter := by
  have hworker := State.enabled_worker he
  cases a with
  | lookupMapping path index =>
      exact lookup_counter (by simpa [State.enabled] using he) h
  | lookupMappingWithInsert path index =>
      exact lookup_counter (by simpa [State.enabled] using he) h
  | nested =>
      refine (nested_counter h).trans ?_
      simp only [happened]
      split <;> rfl
  | setDirtyAfterWrite cblock dirty =>
      obtain rfl := Except.ok.inj h
      refine (setDirtyAfterWrite_counter s.map cblock dirty).trans ?_
      simp only [happened]
      split <;> rfl
  | removeMapping path index =>
      obtain ⟨⟨m, found⟩, hm, h⟩ := bind_eq_ok.mp h
      obtain rfl := Except.ok.inj h
      refine (removeMapping_counter hm).trans ?_
      simp only [happened]
      split <;> rfl
  | peakWork =>
      obtain rfl := Except.ok.inj h
      unfold State.peakWork
      split <;> rfl
  | startPromotion =>
      obtain ⟨-, key, hw⟩ := hworker.1 rfl
      simp only [State.act, hw] at h
      exact start_counter (fun _ _ => promotionFreeToClean_counter) h
  | completePromotion success =>
      obtain ⟨-, key, b, hw⟩ := hworker.2.1 success rfl
      simp only [State.act, hw] at h
      obtain ⟨m, hm, h⟩ := bind_eq_ok.mp h
      obtain rfl := Except.ok.inj h
      exact promotionComplete_counter hm
  | startDemotion =>
      obtain ⟨-, key, hw⟩ := hworker.2.2.1 rfl
      simp only [State.act, hw] at h
      exact start_counter (fun _ _ => demotionCleanToFree_counter) h
  | completeDemotion success =>
      obtain ⟨-, key, b, hw⟩ := hworker.2.2.2.1 success rfl
      simp only [State.act, hw] at h
      obtain ⟨m, hm, h⟩ := bind_eq_ok.mp h
      obtain rfl := Except.ok.inj h
      exact demotionComplete_counter hm
  | startWriteback =>
      obtain ⟨-, key, hw⟩ := hworker.2.2.2.2.1 rfl
      simp only [State.act, hw] at h
      exact start_counter (fun _ _ => writebackDirtyToClean_counter) h
  | completeWriteback success =>
      obtain ⟨-, key, b, hw⟩ := hworker.2.2.2.2.2.1 success rfl
      simp only [State.act, hw] at h
      obtain ⟨m, hm, h⟩ := bind_eq_ok.mp h
      obtain rfl := Except.ok.inj h
      exact writebackComplete_counter hm
  | removeWork =>
      obtain rfl := Except.ok.inj h
      exact counter_congr rfl rfl rfl rfl rfl

theorem count_self {event : Happening} (hc : event.counted = true) (counter : Happening → Nat) :
    count counter event event = inc (counter event) := by
  unfold count
  rw [if_pos hc, Function.update_self]

theorem count_other {event other : Happening} (hne : other ≠ event) (counter : Happening → Nat) :
    count counter other event = counter event := by
  unfold count
  split
  · rw [Function.update_of_ne (Ne.symm hne)]
  · rfl

-- A counter is the number of its events, as far as 32 bits go.
theorem foldl_count {event : Happening} (hc : event.counted = true) (log : List Happening) :
    log.foldl count (fun _ => 0) event = u32 (log.count event) := by
  induction log using List.reverseRecOn with
  | nil => rfl
  | append_singleton log last ih =>
      rw [List.foldl_concat, List.count_append, List.count_singleton]
      by_cases hl : last = event
      · subst hl
        rw [count_self hc, ih, beq_self_eq_true, if_pos rfl]
        unfold inc u32
        omega
      · rw [count_other hl, ih, if_neg (by simpa using hl), Nat.add_zero]

end Counters

section Balance

variable {n : Nat} {a : Action} {v v' : View} {log : List Happening}

-- What happened, as far as the table shows it.
def View.events (a : Action) (v v' : View) : List Happening :=
  match a with
  | .lookupMapping _ _ => if v'.held = none then [.hit] else [.miss]
  | .lookupMappingWithInsert _ _ => if v'.held = none then [.hit] else [.miss]
  | .nested => if v'.returned.length = v.returned.length then [] else [.insert]
  | .setDirtyAfterWrite c _ =>
    if (v'.table.slot c).dirty = (v.table.slot c).dirty then [] else [.mark]
  | .removeMapping _ _ => if v'.table.free.length = v.table.free.length then [] else [.remove]
  | .completePromotion success => if success then [.promotion] else []
  | .completeDemotion success => if success then [.demotion] else []
  | .completeWriteback success => if success then [.writeback] else []
  | .removeWork => [.retire]
  | _ => []

theorem View.events_mark (c : Nat) (dirty : Bool) (v v' : View) :
    v.events (.setDirtyAfterWrite c dirty) v' = [] ∨
      v.events (.setDirtyAfterWrite c dirty) v' = [.mark] := by
  by_cases h : (v'.table.slot c).dirty = (v.table.slot c).dirty
  · exact .inl (if_pos h)
  · exact .inr (if_neg h)

-- The block that is being written back, and the block in flight if it has become dirty since.
def View.newer (v : View) : Nat :=
  match v.worker with
  | .promoting _ b => (v.table.slot b).dirty.toNat
  | .demoting _ b => (v.table.slot b).dirty.toNat
  | .writing _ b => (v.table.slot b).dirty.toNat + 1
  | _ => 0

theorem View.newer_congr (hw : v'.worker = v.worker) (hf : ∀ b, v.worker.inFlight = some b →
    (v'.table.slot b).dirty = (v.table.slot b).dirty) : v'.newer = v.newer := by
  unfold View.newer
  rw [hw]
  cases hw' : v.worker <;> simp [hf, hw', Worker.inFlight]

@[simp] theorem Table.remove_queue (t : Table Work) (b : Nat) : (t.remove b).queue = t.queue := by
  simp [Table.remove]

theorem Table.remove_free (t : Table Work) (b : Nat) : (t.remove b).free = t.free ++ [b] := by
  simp [Table.remove, Table.release, Table.setSlot, Table.hashOut]

-- The blocks that can be found come in by promotions and insertions only, and go out by demotions
-- and discards only.
theorem Step.hashed (hs : Step n a v v') (h : v.Inv n) :
    v'.table.hashed.card + (v.events a v').count .demotion + (v.events a v').count .remove =
      v.table.hashed.card + (v.events a v').count .promotion + (v.events a v').count .insert := by
  cases hs with
  | hit hh ha he hk => rcases ha with rfl | rfl <;> simp [View.events, hh]
  | miss hh ha hk => rcases ha with ⟨rfl, rfl⟩ | ⟨rfl, rfl⟩ <;> simp [View.events]
  | @insertDirty _ key b rest hh hf hq =>
      have hb : b ∉ v.table.hashed := h.valid.free_notMem_hashed (by simp [hf])
      simp [View.events, Table.insertDirty, hb]
  | @setDirty _ b dirty hh hb =>
      rcases View.events_mark b dirty v { v with table := v.table.markDirty b } with heq | heq <;>
        simp [heq, Table.markDirty_hashed]
  | remove hh he hk hm =>
      have hcard := Finset.card_erase_add_one he
      simp only [View.events, Table.remove_free, List.length_append, List.length_singleton]
      simp [Table.remove, hcard]
  | promote hh hw hf => simp [View.events, Table.promotionStart]
  | @promoted _ key b success hh hw =>
      have hb : b ∉ v.table.hashed := fun hb => ((h.valid.hashed b).mp hb).2.2 (by rw [hw]; rfl)
      cases success <;> simp [View.events, Table.promotionComplete, hb]
  | demote hh hw hc hn => simp [View.events, Table.demotionStart]
  | @demoted _ key b success hh hw =>
      have hflight : v.worker.inFlight = some b := by rw [hw]; rfl
      have hb : b ∈ v.table.hashed := (h.valid.hashed b).mpr
        ⟨h.valid.lt_of_inFlight hflight, h.valid.flying b hflight, by simp [hw, Worker.arriving]⟩
      have hcard := Finset.card_erase_add_one hb
      cases success <;> simp [View.events, Table.demotionComplete, hcard]
  | write hh hw hd => simp [View.events, Table.writebackStart]
  | @written _ key b success hh hw =>
      cases success <;> simp [View.events, Table.writebackComplete]
  | dequeue hw => simp [View.events, Table.dequeue]
  | _ => simp [View.events]

-- A migration ends the worker's work.
theorem Step.migrations (hs : Step n a v v') : (v.events a v').count .promotion +
    (v.events a v').count .demotion + (v.events a v').count .writeback +
      v.worker.served.toList.length ≤
    (v.events a v').count .retire + v'.worker.served.toList.length := by
  cases hs with
  | hit hh ha he hk => rcases ha with rfl | rfl <;> simp [View.events, hh]
  | miss hh ha hk => rcases ha with ⟨rfl, rfl⟩ | ⟨rfl, rfl⟩ <;> simp [View.events]
  | @setDirty _ b dirty hh hb =>
      rcases View.events_mark b dirty v { v with table := v.table.markDirty b } with heq | heq <;>
        simp [heq]
  | remove hh he hk hm => simp [View.events, Table.remove_free]
  | @promoted _ key b success hh hw => cases success <;> simp [View.events, hw, Worker.served]
  | @demoted _ key b success hh hw => cases success <;> simp [View.events, hw, Worker.served]
  | @written _ key b success hh hw => cases success <;> simp [View.events, hw, Worker.served]
  | peek hw hq => simp [View.events, hw, Worker.served]
  | promote hh hw hf => simp [View.events, hw, Worker.served]
  | full hh hw hf => simp [View.events, hw, Worker.served]
  | demote hh hw hc hn => simp [View.events, hw, Worker.served]
  | unevictable hh hw hn => simp [View.events, hw, Worker.served]
  | write hh hw hd => simp [View.events, hw, Worker.served]
  | giveUp hh hw hd => simp [View.events, hw, Worker.served]
  | dequeue hw => simp [View.events, hw, Worker.served]
  | _ => simp [View.events]

theorem Table.enqueue_length (t : Table Work) (limit : Nat) (key : Work) :
    (t.enqueue limit key).queue.length ≤ t.queue.length + 1 := by
  unfold Table.enqueue
  split <;> simp

-- A work is queued after a miss of its own, and stays queued until it is taken out.
theorem Step.works (hs : Step n a v v') (h : v.Inv n) : (v.events a v').count .retire +
    v'.table.queue.length + v'.held.toList.length ≤
    (v.events a v').count .miss + v.table.queue.length + v.held.toList.length := by
  cases hs with
  | hit hh ha he hk => rcases ha with rfl | rfl <;> simp [View.events, hh]
  | @miss _ path index a next hh ha hk =>
      have hev : v.events a { v with held := some next } = [.miss] := by
        rcases ha with ⟨rfl, rfl⟩ | ⟨rfl, rfl⟩ <;> rfl
      rw [hev, hh]
      change 0 + v.table.queue.length + 1 ≤ 1 + v.table.queue.length + 0
      omega
  | @insertWork _ key hh =>
      have hlen := Table.enqueue_length v.table (MAX_WORKQUEUE_SIZE - 1) key
      simp [View.events, hh, hlen]
  | queued hh => simp [View.events, hh]
  | noRoom hh hf => simp [View.events, hh]
  | insertDirty hh hf hq => simp [View.events, hh, Table.insertDirty]
  | @setDirty _ b dirty hh hb =>
      rcases View.events_mark b dirty v { v with table := v.table.markDirty b } with heq | heq <;>
        simp [heq, Table.markDirty_queue]
  | remove hh he hk hm => simp [View.events, Table.remove_free]
  | promote hh hw hf => simp [View.events, Table.promotionStart]
  | @promoted _ key b success hh hw => cases success <;> simp [View.events, Table.promotionComplete]
  | demote hh hw hc hn => simp [View.events, Table.demotionStart]
  | @demoted _ key b success hh hw => cases success <;> simp [View.events, Table.demotionComplete]
  | write hh hw hd => simp [View.events, Table.writebackStart]
  | @written _ key b success hh hw => cases success <;> simp [View.events, Table.writebackComplete]
  | @dequeue _ key hw =>
      have hhead := h.valid.current key (by rw [hw]; rfl)
      obtain ⟨more, hq⟩ := List.head?_eq_some_iff.mp hhead
      change 1 + v.table.queue.tail.length + v.held.toList.length ≤
        0 + v.table.queue.length + v.held.toList.length
      rw [hq, List.tail_cons, List.length_cons]
      omega
  | _ => simp [View.events]

theorem Table.addTail_dirty (t : Table Work) (b : Nat) :
    (t.addTail b).dirty.length = t.dirty.length + (t.slot b).dirty.toNat := by
  unfold Table.addTail
  cases (t.slot b).dirty <;> simp

theorem Table.addHead_dirty (t : Table Work) (b : Nat) :
    (t.addHead b).dirty.length = t.dirty.length + (t.slot b).dirty.toNat := by
  unfold Table.addHead
  cases (t.slot b).dirty <;> simp

theorem Table.del_dirty (t : Table Work) (b : Nat) :
    (t.del b).dirty.length ≤ t.dirty.length := by
  unfold Table.del
  cases (t.slot b).dirty
  · simp
  · simpa using List.length_erase_le

theorem Table.hit_dirty (t : Table Work) (b : Nat) : (t.hit b).dirty = t.dirty := by
  unfold Table.hit
  split
  · rename_i hc
    have hclean : (t.slot b).dirty = false := by simp_all
    simp [Table.addTail, Table.del, hclean]
  · rfl

theorem Table.enqueue_dirty (t : Table Work) (limit : Nat) (key : Work) :
    (t.enqueue limit key).dirty = t.dirty := by
  unfold Table.enqueue
  split <;> rfl

theorem Table.allocate_dirty (t : Table Work) (slot : Slot Work) :
    (t.allocate slot).dirty = t.dirty := by
  unfold Table.allocate
  split <;> rfl

theorem Table.relist_dirty (t : Table Work) (b : Nat) :
    (((t.del b).setDirty b true).addTail b).dirty.length = (t.del b).dirty.length + 1 := by
  have hslot : (((t.del b).setDirty b true).slot b).dirty.toNat = 1 := by simp
  have hlist : ((t.del b).setDirty b true).dirty = (t.del b).dirty := rfl
  rw [Table.addTail_dirty, hslot, hlist]

-- A block that was dirty already stays on the dirty list, up to its place there.
theorem Table.markDirty_again {t : Table Work} {b : Nat} (hd : (t.slot b).dirty = true)
    (hr : (t.slot b).pending = true ∨ t.Resident b) :
    (t.markDirty b).dirty.length = t.dirty.length ∧
      ∀ c, ((t.markDirty b).slot c).dirty = (t.slot c).dirty := by
  have hflags : ∀ c, (((t.setDirty b true).slot c)).dirty = (t.slot c).dirty := by
    intro c
    by_cases hc : c = b
    · rw [hc, Table.setDirty_slot, Function.update_self, hd]
    · rw [Table.setDirty_slot, Function.update_of_ne hc]
  unfold Table.markDirty
  split
  · exact ⟨rfl, fun _ => rfl⟩
  · split
    · exact ⟨rfl, hflags⟩
    · rename_i hpending
      have hmem : b ∈ t.dirty := by
        have hb := hr.resolve_left hpending
        rwa [Table.Resident, if_pos hd] at hb
      have hpos := List.length_pos_of_mem hmem
      have hdel : (t.del b).dirty = t.dirty.erase b := by
        simp [Table.del, hd]
      constructor
      · rw [Table.relist_dirty, hdel, List.length_erase_of_mem hmem]
        omega
      · intro c
        simpa using hflags c

-- A block that is set dirty is on the dirty list then, or in flight.
theorem Step.writebacks_set {b : Nat} (h : v.Inv n) (hb : b < n) :
    (v.table.markDirty b).dirty.length + View.newer { v with table := v.table.markDirty b } ≤
      v.table.dirty.length + v.newer + 1 := by
  unfold Table.markDirty
  split
  · exact Nat.le_succ _
  · rename_i halloc
    split
    · rename_i hpending
      have hflight := (h.valid.pending b hb).mp hpending
      have hnewer : View.newer { v with table := v.table.setDirty b true } ≤ v.newer + 1 := by
        unfold View.newer
        cases hw : v.worker <;> simp_all [Worker.inFlight]
      have hlist : (v.table.setDirty b true).dirty = v.table.dirty := rfl
      rw [hlist]
      omega
    · rename_i hpending
      have hflight : v.worker.inFlight ≠ some b := fun hf =>
        hpending ((h.valid.pending b hb).mpr hf)
      have hnewer : View.newer { v with table := ((v.table.del b).setDirty b true).addTail b } =
          v.newer := View.newer_congr rfl fun c hc => by
        have hne : c ≠ b := fun heq => hflight (heq ▸ hc)
        simp [hne]
      have hdel := v.table.del_dirty b
      rw [Table.relist_dirty, hnewer]
      omega

-- A call that changes no flag leaves the count as it was.
theorem Step.writebacks_mark {b : Nat} (h : v.Inv n) (hb : b < n) :
    (v.table.markDirty b).dirty.length + View.newer { v with table := v.table.markDirty b } ≤
      v.table.dirty.length + v.newer +
        if ((v.table.markDirty b).slot b).dirty = (v.table.slot b).dirty then 0 else 1 := by
  split
  · rename_i hsame
    by_cases ha : (v.table.slot b).alloc = true
    · have hdirty : (v.table.slot b).dirty = true := by
        rw [← hsame, Table.markDirty_dirty ha]
      have hplace : (v.table.slot b).pending = true ∨ v.table.Resident b := by
        by_cases hflight : v.worker.inFlight = some b
        · exact .inl ((h.valid.pending b hb).mpr hflight)
        · exact .inr (h.valid.resident hb hflight ha)
      obtain ⟨hlen, hflags⟩ := Table.markDirty_again hdirty hplace
      have hnewer : View.newer { v with table := v.table.markDirty b } = v.newer :=
        View.newer_congr rfl fun c _ => hflags c
      rw [hlen, hnewer, Nat.add_zero]
    · have hstay : v.table.markDirty b = v.table := by
        simp [Table.markDirty, ha]
      rw [hstay, Nat.add_zero]
  · exact Step.writebacks_set h hb

theorem View.Inv.flying_ne {b c : Nat} (h : v.Inv n) (hb : b ∈ v.table.free)
    (hc : v.worker.inFlight = some c) : c ≠ b := by
  rintro rfl
  exact h.valid.notMem_free (h.valid.lt_of_inFlight hc) (h.valid.flying c hc) hb

-- A block that is dirty, or is being written back, was made dirty once more than it has been
-- written back.
theorem Step.writebacks (hs : Step n a v v') (h : v.Inv n) : (v.events a v').count .writeback +
    v'.table.dirty.length + v'.newer ≤ (v.events a v').count .insert +
      (v.events a v').count .mark + v.table.dirty.length + v.newer := by
  cases hs with
  | @hit _ _ _ e _ hh ha he hk =>
      rcases ha with rfl | rfl <;> simp [View.events, View.newer, hh, Table.hit_dirty]
  | miss hh ha hk => rcases ha with ⟨rfl, rfl⟩ | ⟨rfl, rfl⟩ <;> simp [View.events, View.newer]
  | @insertWork _ key hh => simp [View.events, View.newer, Table.enqueue_dirty]
  | queued hh => simp [View.events, View.newer]
  | noRoom hh hf => simp [View.events, View.newer]
  | @insertDirty _ key b rest hh hf hq =>
      have hnewer : View.newer ⟨v.table.insertDirty key b, v.worker, none, b :: v.returned⟩ =
          v.newer := View.newer_congr rfl fun c hc => by
        have hne := h.flying_ne (hf ▸ List.mem_cons_self) hc
        simp [Table.insertDirty, Table.allocate_slot hf, hne]
      have hlist : (v.table.insertDirty key b).dirty.length = v.table.dirty.length + 1 := by
        unfold Table.insertDirty
        rw [Table.addTail_dirty]
        simp [Table.hashIn, Table.allocate_dirty, Table.allocate_slot hf]
      have hev : v.events .nested ⟨v.table.insertDirty key b, v.worker, none, b :: v.returned⟩ =
          [.insert] := if_neg (by simp)
      rw [hev, hnewer]
      change 0 + (v.table.insertDirty key b).dirty.length + _ ≤ 1 + 0 + _ + _
      omega
  | @setDirty _ b dirty hh hb =>
      have hmark := Step.writebacks_mark h (h.returned _ hb)
      by_cases hsame : ((v.table.markDirty b).slot b).dirty = (v.table.slot b).dirty
      · have hev : v.events (.setDirtyAfterWrite b dirty)
            { v with table := v.table.markDirty b } = [] := if_pos hsame
        rw [if_pos hsame] at hmark
        rw [hev]
        change 0 + (v.table.markDirty b).dirty.length + _ ≤ 0 + 0 + _ + _
        omega
      · have hev : v.events (.setDirtyAfterWrite b dirty)
            { v with table := v.table.markDirty b } = [.mark] := if_neg hsame
        rw [if_neg hsame] at hmark
        rw [hev]
        change 0 + (v.table.markDirty b).dirty.length + _ ≤ 0 + 1 + _ + _
        omega
  | @remove _ path index e hh he hk hm =>
      have hnewer : View.newer { v with table := v.table.remove e } = v.newer :=
        View.newer_congr rfl fun c hc => by
          have hne : c ≠ e := by
            rintro rfl
            obtain ⟨-, -, harriving⟩ := (h.valid.hashed c).mp he
            cases hw : v.worker <;> simp_all [Worker.inFlight, Worker.moving, Worker.arriving]
          simp [Table.remove, hne]
      have hdel := v.table.del_dirty e
      have hev : v.events (.removeMapping path index) { v with table := v.table.remove e } =
          [.remove] := if_neg (by simp [Table.remove_free])
      rw [hev, hnewer]
      change 0 + (v.table.del e).dirty.length + _ ≤ 0 + 0 + _ + _
      omega
  | promote hh hw hf =>
      simp [View.events, View.newer, Table.promotionStart, Table.allocate_slot hf,
        Table.allocate_dirty, hw]
  | @promoted _ key b success hh hw =>
      cases success
      · simp [View.events, View.newer, Table.promotionComplete, Table.release, Table.setSlot,
          Table.setPending]
      · simp [View.events, View.newer, Table.promotionComplete, Table.addTail_dirty, Table.hashIn,
          Table.setPending, Table.setSlot, hw]
  | @demote _ key b rest hh hw hc hn =>
      have hclean := h.valid.accounted.clean b (hc ▸ List.mem_cons_self)
      simp [View.events, View.newer, Table.demotionStart, Table.setPending, Table.setSlot, hclean,
        hw]
  | @demoted _ key b success hh hw =>
      cases success
      · simp [View.events, View.newer, Table.demotionComplete, Table.addTail_dirty,
          Table.setPending, Table.setSlot, hw]
      · simp [View.events, View.newer, Table.demotionComplete, Table.release, Table.setSlot,
          Table.setPending, Table.hashOut]
  | @write _ key b rest hh hw hd =>
      simp [View.events, View.newer, Table.writebackStart, hw, hd]
  | @written _ key b success hh hw =>
      cases success
      · simp [View.events, View.newer, Table.writebackComplete, Table.addHead_dirty,
          Table.setPending, Table.setSlot, hw]
      · have hlist := Table.addTail_dirty (v.table.setPending b false) b
        simp only [Table.setPending_slot, Function.update_self] at hlist
        change 1 + ((v.table.setPending b false).addTail b).dirty.length + 0 ≤
          0 + 0 + v.table.dirty.length + v.newer
        have hnewer : v.newer = (v.table.slot b).dirty.toNat + 1 := by simp only [View.newer, hw]
        have hsame : (v.table.setPending b false).dirty = v.table.dirty := rfl
        rw [hlist, hnewer, hsame]
        omega
  | dequeue hw => simp [View.events, View.newer, Table.dequeue]
  | peek hw hq => simp [View.events, View.newer]
  | full hh hw hf => simp [View.events, View.newer]
  | unevictable hh hw hn => simp [View.events, View.newer]
  | giveUp hh hw hd => simp [View.events, View.newer]
  | peekEmpty hw hq => simp [View.events]
  | removeAbsent hh hk => simp [View.events]

-- What the journal says of the table: how the blocks that can be found came in and went out, that
-- each migration has a work of its own and each work a miss, and that a block is written back at
-- most as often as it was made dirty.
structure Balanced (v : View) (log : List Happening) : Prop where
  hashed : v.table.hashed.card + log.count .demotion + log.count .remove =
    log.count .promotion + log.count .insert
  migrations : log.count .promotion + log.count .demotion + log.count .writeback ≤
    log.count .retire + v.worker.served.toList.length
  works : log.count .retire + v.table.queue.length + v.held.toList.length ≤ log.count .miss
  writebacks : log.count .writeback + v.table.dirty.length + v.newer ≤
    log.count .insert + log.count .mark

theorem Balanced.step (hb : Balanced v log) (hs : Step n a v v') (h : v.Inv n) :
    Balanced v' (log ++ v.events a v') := by
  obtain ⟨h₁, h₂, h₃, h₄⟩ := hb
  have hhashed := hs.hashed h
  have hmigrations := hs.migrations
  have hworks := hs.works h
  have hwritebacks := hs.writebacks h
  refine ⟨?_, ?_, ?_, ?_⟩ <;> simp only [List.count_append] <;> omega

end Balance

section Runs

variable {s s' : State} {blockSize cblockNum : Nat} {g : Geometry} {t t' : Table Work} {a : Action}
  {r : System.Journal State Happening}

theorem happened_eq (hr : Repr g s.map t) (hr' : Repr g s'.map t') :
    happened a s s' = (s.view t).events a (s'.view t') := by
  simp only [happened, View.events, hr.free.nrElts, hr'.free.nrElts, hr.getDirty, hr'.getDirty]
  rfl

-- The mapping stands for a table that the journal accounts for.
theorem balanced_of_reachable
    (h : (counting blockSize cblockNum).Reachable (fun a r => Settled a r.state) r) :
    ∃ g t, Sound g r.state t ∧ g.cacheBlockNum = cblockNum ∧ Balanced (r.state.view t) r.log := by
  refine h.invariant (I := fun r => ∃ g t, Sound g r.state t ∧ g.cacheBlockNum = cblockNum ∧
    Balanced (r.state.view t) r.log) (fun r hs => ?_) (fun r r' a hi he ha hact => ?_)
  · obtain ⟨hstart, hlog⟩ := hs
    obtain ⟨hsound, hg, -⟩ := sound_start hstart
    obtain ⟨-, -, hw, hh, -⟩ := hstart
    refine ⟨_, _, hsound, hg, ?_⟩
    rw [hlog]
    constructor <;> simp [State.view, Table.initial, View.newer, hw, hh, Worker.served]
  · obtain ⟨g, t, hs, hg, hb⟩ := hi
    obtain ⟨hact, hlog⟩ := System.journaling_act hact
    obtain ⟨t', hs', hstep⟩ := hs.step he ha hact
    refine ⟨g, t', hs', hg, ?_⟩
    rw [hlog, happened_eq hs.repr hs'.repr]
    exact hb.step hstep hs.inv

theorem counter_of_reachable
    (h : (counting blockSize cblockNum).Reachable (fun a r => Settled a r.state) r) :
    r.state.map.counter = r.log.foldl count fun _ => 0 := by
  refine System.Reachable.folded (fun s => s.map.counter) h (fun s hs => ?_)
    fun s s' a _ he _ hact => act_counter he hact
  obtain ⟨-, hi, -⟩ := hs
  unfold initMapping at hi
  split at hi
  · simp at hi
  · rw [← Option.some.inj hi]
    funext k
    cases k <;> rfl

-- The blocks that can be found are those at rest on a list and the one on its way out.
theorem Valid.hashed_card {n : Nat} {w : Worker Work} (h : Valid n w t) :
    t.hashed.card = t.clean.length + t.dirty.length + w.moving.toList.length := by
  have hmoving : ∀ b, w.moving = some b → w.inFlight = some b := fun b hb => by
    cases w <;> simp_all [Worker.moving, Worker.inFlight]
  have heq : t.hashed = (t.clean ++ t.dirty ++ w.moving.toList).toFinset := by
    ext b
    rw [List.mem_toFinset, List.mem_append, List.mem_append, Option.mem_toList, or_assoc]
    constructor
    · exact fun hb => (h.hashed_iff (h.lt_of_hashed hb) (h.alloc_of_hashed hb)).mp hb
    · intro hb
      have hmem : b < n ∧ (t.slot b).alloc = true := by
        rcases hb with hb | hb | hb
        · have hr : t.Resident b := by simp [Table.Resident, h.accounted.clean b hb, hb]
          exact (h.accounted.alloc_of_resident hr).imp id And.right
        · have hr : t.Resident b := by simp [Table.Resident, h.accounted.dirty b hb, hb]
          exact (h.accounted.alloc_of_resident hr).imp id And.right
        · exact ⟨h.lt_of_inFlight (hmoving b hb), h.flying b (hmoving b hb)⟩
      exact (h.hashed_iff hmem.1 hmem.2).mpr hb
  have hflight : w.moving.toList.Sublist w.inFlight.toList := by
    cases hw : w.moving with
    | none => exact List.nil_sublist _
    | some b => rw [hmoving b hw]
  have hlisted : (t.clean ++ t.dirty).Sublist t.listed := by
    rw [Table.listed, List.append_assoc]
    exact List.sublist_append_right _ _
  have hnodup : (w.moving.toList ++ (t.clean ++ t.dirty)).Nodup :=
    h.accounted.nodup.sublist (hflight.append hlisted)
  rw [heq, List.toFinset_card_of_nodup (List.perm_append_comm.nodup_iff.mp hnodup)]
  simp only [List.length_append]

-- What info_mapping prints, against what has happened: the times are the numbers of events as far
-- as 32 bits go, every block is on one list or in flight, the blocks that can be found are those
-- that came in and have not gone out, no migration is done without a lookup that missed, and no
-- block is written back more often than it was made dirty.
structure Exact (n : Nat) (s : State) (log : List Happening) : Prop where
  hitTime : (infoMapping s.map).hitTime = u32 (log.count .hit)
  missTime : (infoMapping s.map).missTime = u32 (log.count .miss)
  promotionTime : (infoMapping s.map).promotionTime = u32 (log.count .promotion)
  demotionTime : (infoMapping s.map).demotionTime = u32 (log.count .demotion)
  writebackTime : (infoMapping s.map).writebackTime = u32 (log.count .writeback)
  entries : (infoMapping s.map).freeEntry + (infoMapping s.map).cleanEntry +
    (infoMapping s.map).dirtyEntry + s.worker.inFlight.toList.length = n
  resident : (infoMapping s.map).cleanEntry + (infoMapping s.map).dirtyEntry +
    s.worker.moving.toList.length + log.count .demotion + log.count .remove =
      log.count .promotion + log.count .insert
  migrations : log.count .promotion + log.count .demotion + log.count .writeback +
    s.map.wq.size ≤ log.count .miss + s.worker.served.toList.length
  writebacks : log.count .writeback + (infoMapping s.map).dirtyEntry ≤
    log.count .insert + log.count .mark

theorem Sound.exact {log : List Happening} (h : Sound g s t) (hb : Balanced (s.view t) log)
    (hc : s.map.counter = log.foldl count fun _ => 0) : Exact g.cacheBlockNum s log where
  hitTime := (congrFun hc .hit).trans (foldl_count rfl log)
  missTime := (congrFun hc .miss).trans (foldl_count rfl log)
  promotionTime := (congrFun hc .promotion).trans (foldl_count rfl log)
  demotionTime := (congrFun hc .demotion).trans (foldl_count rfl log)
  writebackTime := (congrFun hc .writeback).trans (foldl_count rfl log)
  entries := by
    have hlen := h.valid.accounted.partition.length_eq
    simp only [Table.listed, List.length_append, List.length_range] at hlen
    simp only [infoMapping, h.repr.free.nrElts, h.repr.clean.nrElts, h.repr.dirty.nrElts]
    omega
  resident := by
    have hcard := h.valid.hashed_card
    have hhashed := hb.hashed
    simp only [State.view] at hhashed
    simp only [infoMapping, h.repr.clean.nrElts, h.repr.dirty.nrElts]
    omega
  migrations := by
    have hmigrations := hb.migrations
    have hworks := hb.works
    simp only [State.view] at hmigrations hworks
    rw [h.repr.queue.size]
    omega
  writebacks := by
    have hwritebacks := hb.writebacks
    simp only [State.view] at hwritebacks
    simp only [infoMapping, h.repr.dirty.nrElts]
    omega

-- Every run has a journal, and what info_mapping prints at any time agrees with it.
theorem statistics_exact :
    (∀ s, (interleaving blockSize cblockNum).Reachable Settled s → ∃ log,
      (counting blockSize cblockNum).Reachable (fun a r => Settled a r.state) ⟨s, log⟩) ∧
    ∀ r, (counting blockSize cblockNum).Reachable (fun a r => Settled a r.state) r →
      Exact cblockNum r.state r.log := by
  refine ⟨fun s hs => hs.journaling, fun r hr => ?_⟩
  obtain ⟨g, t, hs, rfl, hb⟩ := balanced_of_reachable hr
  exact hs.exact hb (counter_of_reachable hr)

-- The second miss of a full cache has a block demoted, and the first one promoted it.
def countedRun : List Action :=
  [.lookupMapping [⟨97, nonzero_a⟩] 3, .nested, .peakWork, .startPromotion, .completePromotion true,
    .removeWork, .lookupMapping [⟨97, nonzero_a⟩] 4, .lookupMapping [⟨97, nonzero_a⟩] 9, .nested,
    .peakWork, .startPromotion, .startDemotion, .completeDemotion true]

theorem statistics_exact_countedRun : ∃ r : System.Journal State Happening,
    r.log = [.miss, .promotion, .retire, .hit, .miss, .demotion] ∧ Exact 1 r.state r.log := by
  have hstart : (counting 512 1).start ⟨State.boot 512 1, []⟩ :=
    ⟨boot_start (by decide) (by decide) (by decide), rfl⟩
  have hsettled : ∀ a ∈ countedRun, ∀ r : System.Journal State Happening, Settled a r.state :=
    fun _ ha r => settled_of_notMem (by simp [countedRun]) ha r.state
  have hrun : (((counting 512 1).run ⟨State.boot 512 1, []⟩ countedRun).any fun r =>
      r.log == [.miss, .promotion, .retire, .hit, .miss, .demotion]) = true := by decide +kernel
  obtain ⟨r, hr, hp⟩ := (System.Reachable.start hstart).exists_run hsettled hrun
  exact ⟨r, by simpa using hp, statistics_exact.2 r hr⟩

end Runs

end UserPageCache.SsdCache
