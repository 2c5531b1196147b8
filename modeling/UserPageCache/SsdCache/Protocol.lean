import UserPageCache.SsdCache.Interleave
import UserPageCache.SsdCache.Table.Theorems

namespace UserPageCache.SsdCache

-- The shared state with the table in place of the mapping.
structure View where
  table : Table Work
  worker : Worker Work
  held : Option Nested
  returned : List Nat

-- What each action can do when `n` blocks exist.
inductive Step (n : Nat) : Action → View → View → Prop
  | hit {v : View} {fullPathName : CString} {pageIndex e : Nat} {a : Action}
      (hh : v.held = none)
      (ha : a = .lookupMapping fullPathName pageIndex ∨
        a = .lookupMappingWithInsert fullPathName pageIndex)
      (he : e ∈ v.table.hashed) (hk : (v.table.slot e).key = State.keyAt pageIndex fullPathName) :
      Step n a v { v with table := v.table.hit e, returned := e :: v.returned }
  | miss {v : View} {fullPathName : CString} {pageIndex : Nat} {a : Action} {next : Nested}
      (hh : v.held = none)
      (ha : a = .lookupMapping fullPathName pageIndex ∧
          next = .insertWork (State.keyAt pageIndex fullPathName) ∨
        a = .lookupMappingWithInsert fullPathName pageIndex ∧
          next = .containsWork (State.keyAt pageIndex fullPathName))
      (hk : v.table.Absent (State.keyAt pageIndex fullPathName)) :
      Step n a v { v with held := some next }
  | insertWork {v : View} {key : Work} (hh : v.held = some (.insertWork key)) :
      Step n .nested v
        { v with table := v.table.enqueue (MAX_WORKQUEUE_SIZE - 1) key, held := none }
  | queued {v : View} {key : Work} (hh : v.held = some (.containsWork key)) :
      Step n .nested v { v with held := none }
  | noRoom {v : View} {key : Work} (hh : v.held = some (.containsWork key))
      (hf : v.table.free = []) : Step n .nested v { v with held := some (.insertWork key) }
  | insertDirty {v : View} {key : Work} {b : Nat} {rest : List Nat}
      (hh : v.held = some (.containsWork key)) (hf : v.table.free = b :: rest)
      (hq : key ∉ v.table.queue) :
      Step n .nested v
        { v with table := v.table.insertDirty key b, held := none, returned := b :: v.returned }
  | setDirty {v : View} {b : Nat} {dirty : Bool} (hh : v.held = none)
      (hb : b ∈ v.returned) :
      Step n (.setDirtyAfterWrite b dirty) v { v with table := v.table.markDirty b }
  | remove {v : View} {fullPathName : CString} {pageIndex e : Nat} (hh : v.held = none)
      (he : e ∈ v.table.hashed)
      (hk : (v.table.slot e).key = State.keyAt pageIndex fullPathName)
      (hm : v.worker.moving ≠ some e) :
      Step n (.removeMapping fullPathName pageIndex) v { v with table := v.table.remove e }
  | removeAbsent {v : View} {fullPathName : CString} {pageIndex : Nat} (hh : v.held = none)
      (hk : v.table.Absent (State.keyAt pageIndex fullPathName)) :
      Step n (.removeMapping fullPathName pageIndex) v v
  | peek {v : View} {key : Work} (hw : v.worker = .idle) (hq : v.table.queue.head? = some key) :
      Step n .peakWork v { v with worker := .peeked key }
  | peekEmpty {v : View} (hw : v.worker = .idle) (hq : v.table.queue = []) : Step n .peakWork v v
  | promote {v : View} {key : Work} {b : Nat} {rest : List Nat} (hh : v.held = none)
      (hw : v.worker = .peeked key)
      (hf : v.table.free = b :: rest) :
      Step n .startPromotion v
        { v with table := v.table.promotionStart key, worker := .promoting key b }
  | full {v : View} {key : Work} (hh : v.held = none)
      (hw : v.worker = .peeked key) (hf : v.table.free = []) :
      Step n .startPromotion v { v with worker := .full key }
  | promoted {v : View} {key : Work} {b : Nat} {success : Bool}
      (hh : v.held = none)
      (hw : v.worker = .promoting key b) :
      Step n (.completePromotion success) v
        { v with table := v.table.promotionComplete b success, worker := .finished key }
  | demote {v : View} {key : Work} {b : Nat} {rest : List Nat} (hh : v.held = none)
      (hw : v.worker = .full key)
      (hc : v.table.clean = b :: rest) (hn : n / 2 < v.table.clean.length) :
      Step n .startDemotion v
        { v with table := v.table.demotionStart b, worker := .demoting key b }
  | unevictable {v : View} {key : Work} (hh : v.held = none)
      (hw : v.worker = .full key)
      (hn : v.table.clean.length ≤ n / 2) :
      Step n .startDemotion v { v with worker := .unevictable key }
  | demoted {v : View} {key : Work} {b : Nat} {success : Bool} (hh : v.held = none)
      (hw : v.worker = .demoting key b) :
      Step n (.completeDemotion success) v
        { v with table := v.table.demotionComplete b success, worker := .finished key }
  | write {v : View} {key : Work} {b : Nat} {rest : List Nat} (hh : v.held = none)
      (hw : v.worker = .unevictable key)
      (hd : v.table.dirty = b :: rest) :
      Step n .startWriteback v
        { v with table := v.table.writebackStart b, worker := .writing key b }
  | giveUp {v : View} {key : Work} (hh : v.held = none)
      (hw : v.worker = .unevictable key) (hd : v.table.dirty = []) :
      Step n .startWriteback v { v with worker := .finished key }
  | written {v : View} {key : Work} {b : Nat} {success : Bool} (hh : v.held = none)
      (hw : v.worker = .writing key b) :
      Step n (.completeWriteback success) v
        { v with table := v.table.writebackComplete b success, worker := .finished key }
  | dequeue {v : View} {key : Work} (hw : v.worker = .finished key) :
      Step n .removeWork v { v with table := v.table.dequeue, worker := .idle }

structure View.Inv (n : Nat) (v : View) : Prop where
  valid : Valid n v.worker v.table
  returned : ∀ cblock ∈ v.returned, cblock < n
  held : ∀ key, v.held = some (.insertWork key) ∨ v.held = some (.containsWork key) →
    v.table.Absent key

theorem Table.markDirty_hashed {κ : Type*} (t : Table κ) (b : Nat) :
    (t.markDirty b).hashed = t.hashed := by
  unfold Table.markDirty
  split <;> (try split) <;> simp

theorem Table.markDirty_key {κ : Type*} (t : Table κ) (b i : Nat) :
    ((t.markDirty b).slot i).key = (t.slot i).key := by
  unfold Table.markDirty
  by_cases hib : i = b <;> split <;> (try split) <;> simp [hib]

@[simp] theorem Table.hit_slot {κ : Type*} (t : Table κ) (b : Nat) : (t.hit b).slot = t.slot := by
  unfold Table.hit
  split <;> simp

@[simp] theorem Table.enqueue_slot {κ : Type*} [DecidableEq κ] (t : Table κ) (limit : Nat)
    (key : κ) : (t.enqueue limit key).slot = t.slot := by
  unfold Table.enqueue
  split <;> rfl

@[simp] theorem Table.hit_hashed {κ : Type*} (t : Table κ) (b : Nat) :
    (t.hit b).hashed = t.hashed := by
  unfold Table.hit
  split <;> simp

@[simp] theorem Table.enqueue_hashed {κ : Type*} [DecidableEq κ] (t : Table κ) (limit : Nat)
    (key : κ) : (t.enqueue limit key).hashed = t.hashed := by
  unfold Table.enqueue
  split <;> rfl

theorem Table.markDirty_dirty_cases {κ : Type*} (t : Table κ) (b i : Nat) :
    ((t.markDirty b).slot i).dirty = (t.slot i).dirty ∨
      i = b ∧ ((t.markDirty b).slot i).dirty = true := by
  unfold Table.markDirty
  by_cases hib : i = b <;> split <;> (try split) <;> simp [hib]

-- Whichever way the step goes, every invariant is kept.
theorem Step.inv {n : Nat} {a : Action} {v v' : View} (hs : Step n a v v') (h : v.Inv n) :
    v'.Inv n := by
  have hfree : ∀ {b rest}, v.table.free = b :: rest → b < n := fun hf =>
    h.valid.accounted.lt_of_listed (by simp [Table.listed, hf])
  cases hs with
  | hit hh ha he hk =>
      refine ⟨h.valid.hit he, fun c hc => ?_, by simp [hh]⟩
      rcases List.mem_cons.mp hc with rfl | hc
      · exact h.valid.lt_of_hashed he
      · exact h.returned c hc
  | miss hh ha hk =>
      refine ⟨h.valid, h.returned, fun key hkey => ?_⟩
      rcases ha with ⟨-, rfl⟩ | ⟨-, rfl⟩
      · simp only [Option.some.injEq, Nested.insertWork.injEq, reduceCtorEq, or_false] at hkey
        exact hkey ▸ hk
      · simp only [Option.some.injEq, Nested.containsWork.injEq, reduceCtorEq, false_or] at hkey
        exact hkey ▸ hk
  | insertWork hh => exact ⟨h.valid.enqueue _ (h.held _ (.inl hh)), h.returned, by simp⟩
  | queued hh => exact ⟨h.valid, h.returned, by simp⟩
  | noRoom hh hf =>
      refine ⟨h.valid, h.returned, fun key hkey => ?_⟩
      simp only [Option.some.injEq, Nested.insertWork.injEq, reduceCtorEq, or_false] at hkey
      exact hkey ▸ h.held _ (.inr hh)
  | insertDirty hh hf hq =>
      refine ⟨h.valid.insertDirty hf (h.held _ (.inr hh)) hq, fun c hc => ?_, by simp⟩
      rcases List.mem_cons.mp hc with rfl | hc
      · exact hfree hf
      · exact h.returned c hc
  | setDirty hh hb => exact ⟨h.valid.markDirty (h.returned _ hb), h.returned, by simp [hh]⟩
  | remove hh he hk hm => exact ⟨h.valid.remove he hm, h.returned, by simp [hh]⟩
  | removeAbsent hh hk => exact h
  | peek hw hq => exact ⟨(hw ▸ h.valid).peek hq, h.returned, h.held⟩
  | peekEmpty hw hq => exact h
  | promote hh hw hf => exact ⟨(hw ▸ h.valid).promotionStart hf, h.returned, by simp [hh]⟩
  | full hh hw hf =>
      exact ⟨(hw ▸ h.valid).worker rfl rfl rfl rfl rfl, h.returned, h.held⟩
  | promoted hh hw => exact ⟨(hw ▸ h.valid).promotionComplete _, h.returned, by simp [hh]⟩
  | demote hh hw hc hn => exact ⟨(hw ▸ h.valid).demotionStart hc, h.returned, by simp [hh]⟩
  | unevictable hh hw hn =>
      exact ⟨(hw ▸ h.valid).worker rfl rfl rfl rfl rfl, h.returned, h.held⟩
  | demoted hh hw => exact ⟨(hw ▸ h.valid).demotionComplete _, h.returned, by simp [hh]⟩
  | write hh hw hd => exact ⟨(hw ▸ h.valid).writebackStart hd, h.returned, by simp [hh]⟩
  | giveUp hh hw hd => exact ⟨(hw ▸ h.valid).giveUp, h.returned, h.held⟩
  | written hh hw => exact ⟨(hw ▸ h.valid).writebackComplete _, h.returned, by simp [hh]⟩
  | dequeue hw => exact ⟨(hw ▸ h.valid).dequeue, h.returned, h.held⟩

section Slots

variable {n b : Nat} {a : Action} {v v' : View}

theorem View.Inv.free_ne (h : v.Inv n) {c : Nat} {rest : List Nat} (hf : v.table.free = c :: rest)
    (ha : (v.table.slot b).alloc = true) : b ≠ c := by
  rintro rfl
  have hlt : b < n := h.valid.accounted.lt_of_listed (by simp [Table.listed, hf])
  exact h.valid.notMem_free hlt ha (by simp [hf])

-- A block keeps its key until it is freed.
theorem Step.key_kept (hs : Step n a v v') (h : v.Inv n) (ha : (v.table.slot b).alloc = true) :
    (v'.table.slot b).key = (v.table.slot b).key := by
  cases hs with
  | hit hh ha he hk => simp
  | insertWork hh => simp
  | insertDirty hh hf hq => simp [Table.insertDirty, Table.allocate_slot hf, h.free_ne hf ha]
  | setDirty hh hc => exact Table.markDirty_key _ _ _
  | @remove _ _ _ c hh he hk hm => by_cases hbc : b = c <;> simp [Table.remove, hbc]
  | promote hh hw hf => simp [Table.promotionStart, Table.allocate_slot hf, h.free_ne hf ha]
  | @promoted _ _ c success hh hw =>
      by_cases hbc : b = c <;> cases success <;> simp [Table.promotionComplete, hbc]
  | @demote _ _ c _ hh hw hc hn => by_cases hbc : b = c <;> simp [Table.demotionStart, hbc]
  | @demoted _ _ c success hh hw =>
      by_cases hbc : b = c <;> cases success <;> simp [Table.demotionComplete, hbc]
  | @write _ _ c _ hh hw hd => by_cases hbc : b = c <;> simp [Table.writebackStart, hbc]
  | @written _ _ c success hh hw =>
      by_cases hbc : b = c <;> cases success <;> simp [Table.writebackComplete, hbc]
  | _ => rfl

-- Only set_dirty_after_write sets the flag of a block in use, and only the start of its
-- writeback clears it.
theorem Step.dirty_kept (hs : Step n a v v') (h : v.Inv n) (ha : (v.table.slot b).alloc = true) :
    (v'.table.slot b).dirty = (v.table.slot b).dirty ∨
      (∃ dirty, a = .setDirtyAfterWrite b dirty) ∧ (v'.table.slot b).dirty = true ∨
      a = .startWriteback ∧ ∃ key, v'.worker = .writing key b := by
  cases hs with
  | hit hh ha he hk => simp
  | insertWork hh => simp
  | insertDirty hh hf hq => simp [Table.insertDirty, Table.allocate_slot hf, h.free_ne hf ha]
  | @setDirty _ c dirty hh hc =>
      rcases Table.markDirty_dirty_cases v.table c b with heq | ⟨rfl, heq⟩
      · exact .inl heq
      · exact .inr (.inl ⟨⟨_, rfl⟩, heq⟩)
  | @remove _ _ _ c hh he hk hm => by_cases hbc : b = c <;> simp [Table.remove, hbc]
  | promote hh hw hf => simp [Table.promotionStart, Table.allocate_slot hf, h.free_ne hf ha]
  | @promoted _ _ c success hh hw =>
      by_cases hbc : b = c <;> cases success <;> simp [Table.promotionComplete, hbc]
  | @demote _ _ c _ hh hw hc hn => by_cases hbc : b = c <;> simp [Table.demotionStart, hbc]
  | @demoted _ _ c success hh hw =>
      by_cases hbc : b = c <;> cases success <;> simp [Table.demotionComplete, hbc]
  | @write _ key c _ hh hw hd =>
      by_cases hbc : b = c
      · exact .inr (.inr ⟨rfl, key, by rw [hbc]⟩)
      · simp [Table.writebackStart, hbc]
  | @written _ _ c success hh hw =>
      by_cases hbc : b = c <;> cases success <;> simp [Table.writebackComplete, hbc]
  | _ => exact .inl rfl

-- A block leaves the hash table at the end of its demotion, or when it is discarded.
theorem Step.hashed_kept (hs : Step n a v v') (hb : b ∈ v.table.hashed)
    (hr : ∀ fullPathName pageIndex, a ≠ .removeMapping fullPathName pageIndex) :
    b ∈ v'.table.hashed ∨ a = .completeDemotion true ∧ v.worker.leaving = some b := by
  cases hs with
  | hit hh ha he hk => exact .inl (by simpa using hb)
  | insertWork hh => exact .inl (by simpa using hb)
  | insertDirty hh hf hq => simp [Table.insertDirty, Table.allocate, hf, hb]
  | setDirty hh hc => simpa [Table.markDirty_hashed] using hb
  | remove hh he hk hm => exact absurd rfl (hr _ _)
  | promote hh hw hf => simp [Table.promotionStart, Table.allocate, hf, hb]
  | @promoted _ _ c success hh hw => cases success <;> simp [Table.promotionComplete, hb]
  | demote hh hw hc hn => exact .inl hb
  | @demoted _ _ c success hh hw =>
      cases success with
      | false => simp [Table.demotionComplete, hb]
      | true =>
          by_cases hbc : b = c
          · exact .inr ⟨rfl, by rw [hw, hbc]; rfl⟩
          · simp [Table.demotionComplete, hb, hbc]
  | write hh hw hd => exact .inl hb
  | @written _ _ c success hh hw => cases success <;> simp [Table.writebackComplete, hb]
  | _ => exact .inl hb

end Slots

end UserPageCache.SsdCache
