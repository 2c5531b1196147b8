import UserPageCache.SsdCache.Table

namespace UserPageCache.SsdCache

variable {κ : Type*} {n b : ℕ} {w w' : Worker κ} {t : Table κ} {key : κ}

namespace Table

section Fields

variable (t : Table κ) (b : ℕ)

@[simp] theorem setSlot_listed (slot : Slot κ) : (t.setSlot b slot).listed = t.listed := rfl

@[simp] theorem setSlot_hashed (slot : Slot κ) : (t.setSlot b slot).hashed = t.hashed := rfl

@[simp] theorem setSlot_slot (slot : Slot κ) :
    (t.setSlot b slot).slot = Function.update t.slot b slot := rfl

@[simp] theorem addTail_slot : (t.addTail b).slot = t.slot := by
  unfold addTail
  split <;> rfl

@[simp] theorem addTail_hashed : (t.addTail b).hashed = t.hashed := by
  unfold addTail
  split <;> rfl

@[simp] theorem addTail_queue : (t.addTail b).queue = t.queue := by
  unfold addTail
  split <;> rfl

@[simp] theorem addTail_free : (t.addTail b).free = t.free := by
  unfold addTail
  split <;> rfl

@[simp] theorem addHead_slot : (t.addHead b).slot = t.slot := by
  unfold addHead
  split <;> rfl

@[simp] theorem addHead_hashed : (t.addHead b).hashed = t.hashed := by
  unfold addHead
  split <;> rfl

@[simp] theorem addHead_queue : (t.addHead b).queue = t.queue := by
  unfold addHead
  split <;> rfl

@[simp] theorem addHead_free : (t.addHead b).free = t.free := by
  unfold addHead
  split <;> rfl

@[simp] theorem del_slot : (t.del b).slot = t.slot := by
  unfold del
  split <;> rfl

@[simp] theorem del_hashed : (t.del b).hashed = t.hashed := by
  unfold del
  split <;> rfl

@[simp] theorem del_queue : (t.del b).queue = t.queue := by
  unfold del
  split <;> rfl

@[simp] theorem del_free : (t.del b).free = t.free := by
  unfold del
  split <;> rfl

@[simp] theorem setSlot_queue (slot : Slot κ) : (t.setSlot b slot).queue = t.queue := rfl

@[simp] theorem hashIn_slot : (t.hashIn b).slot = t.slot := rfl

@[simp] theorem hashIn_hashed : (t.hashIn b).hashed = insert b t.hashed := rfl

@[simp] theorem hashIn_queue : (t.hashIn b).queue = t.queue := rfl

@[simp] theorem hashOut_slot : (t.hashOut b).slot = t.slot := rfl

@[simp] theorem hashOut_hashed : (t.hashOut b).hashed = t.hashed.erase b := rfl

@[simp] theorem hashOut_queue : (t.hashOut b).queue = t.queue := rfl

@[simp] theorem release_slot :
    (t.release b).slot = Function.update t.slot b { t.slot b with alloc := false } := rfl

@[simp] theorem release_hashed : (t.release b).hashed = t.hashed := rfl

@[simp] theorem release_queue : (t.release b).queue = t.queue := rfl

@[simp] theorem allocate_hashed (slot : Slot κ) : (t.allocate slot).hashed = t.hashed := by
  unfold allocate
  split <;> rfl

@[simp] theorem allocate_queue (slot : Slot κ) : (t.allocate slot).queue = t.queue := by
  unfold allocate
  split <;> rfl

@[simp] theorem setPending_slot (on : Bool) : (t.setPending b on).slot =
    Function.update t.slot b { t.slot b with pending := on } := rfl

@[simp] theorem setPending_hashed (on : Bool) : (t.setPending b on).hashed = t.hashed := rfl

@[simp] theorem setPending_queue (on : Bool) : (t.setPending b on).queue = t.queue := rfl

@[simp] theorem setDirty_slot (on : Bool) : (t.setDirty b on).slot =
    Function.update t.slot b { t.slot b with dirty := on } := rfl

@[simp] theorem setDirty_hashed (on : Bool) : (t.setDirty b on).hashed = t.hashed := rfl

@[simp] theorem setDirty_queue (on : Bool) : (t.setDirty b on).queue = t.queue := rfl

end Fields

theorem mem_addTail {i : ℕ} :
    (i ∈ (t.addTail b).clean ↔ i ∈ t.clean ∨ i = b ∧ (t.slot b).dirty = false) ∧
      (i ∈ (t.addTail b).dirty ↔ i ∈ t.dirty ∨ i = b ∧ (t.slot b).dirty = true) := by
  unfold addTail
  cases h : (t.slot b).dirty <;> simp

theorem mem_addHead {i : ℕ} :
    (i ∈ (t.addHead b).clean ↔ i ∈ t.clean ∨ i = b ∧ (t.slot b).dirty = false) ∧
      (i ∈ (t.addHead b).dirty ↔ i ∈ t.dirty ∨ i = b ∧ (t.slot b).dirty = true) := by
  unfold addHead
  cases h : (t.slot b).dirty <;> simp [or_comm]

theorem addTail_listed (t : Table κ) (b : ℕ) : (t.addTail b).listed.Perm (b :: t.listed) := by
  unfold addTail
  split <;> simp only [listed] <;> grind

theorem addHead_listed (t : Table κ) (b : ℕ) : (t.addHead b).listed.Perm (b :: t.listed) := by
  unfold addHead
  split <;> simp only [listed] <;> grind

theorem release_listed (t : Table κ) (b : ℕ) : (t.release b).listed.Perm (b :: t.listed) := by
  simp only [release, setSlot, listed]
  grind

theorem allocate_eq {rest : List ℕ} (hf : t.free = b :: rest) (slot : Slot κ) :
    t.allocate slot = { t with free := rest }.setSlot b slot := by
  unfold allocate
  rw [hf]
  rfl

theorem allocate_slot {rest : List ℕ} (hf : t.free = b :: rest) (slot : Slot κ) :
    (t.allocate slot).slot = Function.update t.slot b slot := by
  rw [allocate_eq hf]
  rfl

-- The block is on the list that its dirty flag selects.
def Resident (t : Table κ) (b : ℕ) : Prop :=
  b ∈ if (t.slot b).dirty then t.dirty else t.clean

theorem del_listed (hb : t.Resident b) : (b :: (t.del b).listed).Perm t.listed := by
  unfold Resident at hb
  unfold del
  split at hb
  · rename_i hd
    have hp := (List.perm_cons_erase hb).symm
    simp only [hd, ite_true, listed]
    grind
  · rename_i hd
    have hp := (List.perm_cons_erase hb).symm
    simp only [hd, Bool.false_eq_true, ite_false, listed]
    grind

theorem del_clean_head {rest : List ℕ} (hc : t.clean = b :: rest) (hd : (t.slot b).dirty = false) :
    t.del b = { t with clean := t.clean.tail } := by
  simp [del, hd, hc]

theorem del_dirty_head {rest : List ℕ} (hc : t.dirty = b :: rest) (hd : (t.slot b).dirty = true) :
    t.del b = { t with dirty := t.dirty.tail } := by
  simp [del, hd, hc]

-- The blocks in `off` are on no list; every other block is on exactly one.
structure Accounted (n : ℕ) (off : List ℕ) (t : Table κ) : Prop where
  partition : (off ++ t.listed).Perm (List.range n)
  alloc : ∀ b < n, (t.slot b).alloc = false ↔ b ∈ t.free
  clean : ∀ b ∈ t.clean, (t.slot b).dirty = false
  dirty : ∀ b ∈ t.dirty, (t.slot b).dirty = true

namespace Accounted

variable {off : List ℕ}

theorem nodup (h : Accounted n off t) : (off ++ t.listed).Nodup :=
  h.partition.nodup_iff.mpr List.nodup_range

theorem mem_iff (h : Accounted n off t) : b ∈ off ∨ b ∈ t.listed ↔ b < n := by
  rw [← List.mem_append, h.partition.mem_iff, List.mem_range]

theorem notMem_listed (h : Accounted n off t) (hb : b ∈ off) : b ∉ t.listed :=
  fun hl => (List.nodup_append.mp h.nodup).2.2 b hb b hl rfl

theorem lt_of_off (h : Accounted n off t) (hb : b ∈ off) : b < n := h.mem_iff.mp (.inl hb)

theorem lt_of_listed (h : Accounted n off t) (hb : b ∈ t.listed) : b < n := h.mem_iff.mp (.inr hb)

-- A block that is allocated and not off the lists is where its dirty flag says.
theorem resident (h : Accounted n off t) (hb : b < n) (hoff : b ∉ off)
    (ha : (t.slot b).alloc = true) : t.Resident b := by
  have hl : b ∈ t.listed := (h.mem_iff.mpr hb).resolve_left hoff
  have hf : b ∉ t.free := by
    rw [← h.alloc b hb, ha]
    simp
  have hc := h.clean b
  have hd := h.dirty b
  unfold Resident
  simp only [listed, List.mem_append] at hl
  rcases hl with (hl | hl) | hl
  · exact absurd hl hf
  · simp [hc hl, hl]
  · simp [hd hl, hl]

theorem alloc_of_resident (h : Accounted n off t) (hb : t.Resident b) :
    b < n ∧ b ∉ off ∧ (t.slot b).alloc = true := by
  have hl : b ∈ t.listed := by
    unfold Resident at hb
    simp only [listed, List.mem_append]
    split at hb <;> simp [hb]
  have hlt := h.lt_of_listed hl
  refine ⟨hlt, fun hoff => h.notMem_listed hoff hl, ?_⟩
  by_contra hna
  have hf := (h.alloc b hlt).mp (by simpa using hna)
  have hn := (List.nodup_append.mp h.nodup).2.1
  unfold Resident at hb
  simp only [listed] at hn
  grind

theorem del (h : Accounted n off t) (hb : t.Resident b) : Accounted n (b :: off) (t.del b) where
  partition := by
    have hp := del_listed hb
    have hq := h.partition
    grind
  alloc i hi := by rw [del_slot, del_free, h.alloc i hi]
  clean i hi := by
    rw [del_slot]
    refine h.clean i ?_
    unfold Table.del at hi
    split at hi
    · exact hi
    · exact List.mem_of_mem_erase hi
  dirty i hi := by
    rw [del_slot]
    refine h.dirty i ?_
    unfold Table.del at hi
    split at hi
    · exact List.mem_of_mem_erase hi
    · exact hi

theorem addTail (h : Accounted n (b :: off) t) : Accounted n off (t.addTail b) where
  partition := by
    have hp := addTail_listed t b
    have hq := h.partition
    grind
  alloc i hi := by rw [addTail_slot, addTail_free, h.alloc i hi]
  clean i hi := by
    rw [addTail_slot]
    rcases mem_addTail.1.mp hi with hi | ⟨rfl, hd⟩
    · exact h.clean i hi
    · exact hd
  dirty i hi := by
    rw [addTail_slot]
    rcases mem_addTail.2.mp hi with hi | ⟨rfl, hd⟩
    · exact h.dirty i hi
    · exact hd

theorem addHead (h : Accounted n (b :: off) t) : Accounted n off (t.addHead b) where
  partition := by
    have hp := addHead_listed t b
    have hq := h.partition
    grind
  alloc i hi := by rw [addHead_slot, addHead_free, h.alloc i hi]
  clean i hi := by
    rw [addHead_slot]
    rcases mem_addHead.1.mp hi with hi | ⟨rfl, hd⟩
    · exact h.clean i hi
    · exact hd
  dirty i hi := by
    rw [addHead_slot]
    rcases mem_addHead.2.mp hi with hi | ⟨rfl, hd⟩
    · exact h.dirty i hi
    · exact hd

-- Off the lists, a block may get any slot that leaves it allocated or not as before.
theorem setSlot (h : Accounted n off t) (hb : b ∈ off) {slot : Slot κ}
    (ha : slot.alloc = (t.slot b).alloc) : Accounted n off (t.setSlot b slot) where
  partition := h.partition
  alloc i hi := by
    rw [setSlot_slot]
    by_cases hib : i = b
    · subst i
      rw [Function.update_self, ha]
      exact h.alloc b hi
    · rw [Function.update_of_ne hib]
      exact h.alloc i hi
  clean i hi := by
    have hl : i ∈ t.listed := by simp [listed, show i ∈ t.clean from hi]
    have hib : i ≠ b := fun hib => h.notMem_listed hb (hib ▸ hl)
    rw [setSlot_slot, Function.update_of_ne hib]
    exact h.clean i hi
  dirty i hi := by
    have hl : i ∈ t.listed := by simp [listed, show i ∈ t.dirty from hi]
    have hib : i ≠ b := fun hib => h.notMem_listed hb (hib ▸ hl)
    rw [setSlot_slot, Function.update_of_ne hib]
    exact h.dirty i hi

theorem setPending (h : Accounted n off t) (hb : b ∈ off) (on : Bool) :
    Accounted n off (t.setPending b on) := h.setSlot hb rfl

theorem setDirty (h : Accounted n off t) (hb : b ∈ off) (on : Bool) :
    Accounted n off (t.setDirty b on) := h.setSlot hb rfl

theorem release (h : Accounted n (b :: off) t) : Accounted n off (t.release b) where
  partition := by
    have hp := release_listed t b
    have hq := h.partition
    grind
  alloc i hi := by
    change (Function.update t.slot b _ i).alloc = false ↔ i ∈ t.free ++ [b]
    by_cases hib : i = b
    · subst i
      simp
    · rw [Function.update_of_ne hib, h.alloc i hi]
      simp [hib]
  clean i hi := by
    have hib : i ≠ b := fun hib =>
      h.notMem_listed List.mem_cons_self (hib ▸ by simp [listed, show i ∈ t.clean from hi])
    change (Function.update t.slot b _ i).dirty = false
    rw [Function.update_of_ne hib]
    exact h.clean i hi
  dirty i hi := by
    have hib : i ≠ b := fun hib =>
      h.notMem_listed List.mem_cons_self (hib ▸ by simp [listed, show i ∈ t.dirty from hi])
    change (Function.update t.slot b _ i).dirty = true
    rw [Function.update_of_ne hib]
    exact h.dirty i hi

theorem allocate (h : Accounted n off t) {rest : List ℕ} {slot : Slot κ} (hf : t.free = b :: rest)
    (ha : slot.alloc = true) : Accounted n (b :: off) (t.allocate slot) := by
  have hp := h.partition
  have hal := h.alloc
  have hn := (List.nodup_append.mp h.nodup).2.1
  simp only [listed, hf] at hn hp
  rw [hf] at hal
  obtain ⟨hr, hc, hd⟩ : b ∉ rest ∧ b ∉ t.clean ∧ b ∉ t.dirty := by
    simp only [List.cons_append, List.nodup_cons, List.mem_append] at hn
    tauto
  rw [allocate_eq hf]
  refine ⟨?_, fun i hi => ?_, fun i hi => ?_, fun i hi => ?_⟩
  · have hl : ({ t with free := rest }.setSlot b slot).listed = rest ++ t.clean ++ t.dirty := rfl
    rw [hl]
    grind
  · change (Function.update t.slot b slot i).alloc = false ↔ i ∈ rest
    by_cases hib : i = b
    · subst i
      simp [ha, hr]
    · rw [Function.update_of_ne hib, hal i hi]
      simp [hib]
  · change (Function.update t.slot b slot i).dirty = false
    have hib : i ≠ b := fun hib => hc (hib ▸ hi)
    rw [Function.update_of_ne hib]
    exact h.clean i hi
  · change (Function.update t.slot b slot i).dirty = true
    have hib : i ≠ b := fun hib => hd (hib ▸ hi)
    rw [Function.update_of_ne hib]
    exact h.dirty i hi

theorem hashIn (h : Accounted n off t) : Accounted n off (t.hashIn b) :=
  ⟨h.partition, h.alloc, h.clean, h.dirty⟩

theorem hashOut (h : Accounted n off t) : Accounted n off (t.hashOut b) :=
  ⟨h.partition, h.alloc, h.clean, h.dirty⟩

end Accounted

-- No hashed block holds the key.
def Absent (t : Table κ) (key : κ) : Prop := ∀ b ∈ t.hashed, (t.slot b).key ≠ key

def DistinctKeys (t : Table κ) : Prop :=
  ∀ i ∈ t.hashed, ∀ j ∈ t.hashed, (t.slot i).key = (t.slot j).key → i = j

-- The hashed blocks keep their keys, up to those that leave the hash table.
theorem Absent.subset {t' : Table κ} (h : t.Absent key) (hs : t'.hashed ⊆ t.hashed)
    (hk : ∀ i ∈ t'.hashed, (t'.slot i).key = (t.slot i).key) : t'.Absent key :=
  fun i hi => hk i hi ▸ h i (hs hi)

theorem DistinctKeys.subset {t' : Table κ} (h : t.DistinctKeys) (hs : t'.hashed ⊆ t.hashed)
    (hk : ∀ i ∈ t'.hashed, (t'.slot i).key = (t.slot i).key) : t'.DistinctKeys := by
  intro i hi j hj hij
  rw [hk i hi, hk j hj] at hij
  exact h i (hs hi) j (hs hj) hij

-- A block joins the hash table under a key that no hashed block holds.
theorem Absent.insert {t' : Table κ} {key' : κ} (h : t.Absent key')
    (hs : t'.hashed = Insert.insert b t.hashed) (hb : (t'.slot b).key ≠ key')
    (hk : ∀ i ∈ t.hashed, (t'.slot i).key = (t.slot i).key) : t'.Absent key' := by
  intro i hi
  rcases Finset.mem_insert.mp (hs ▸ hi) with rfl | hi
  · exact hb
  · exact hk i hi ▸ h i hi

theorem DistinctKeys.insert {t' : Table κ} (h : t.DistinctKeys) (hs : t'.hashed = Insert.insert b t.hashed)
    (ha : t.Absent (t'.slot b).key) (hk : ∀ i ∈ t.hashed, (t'.slot i).key = (t.slot i).key) :
    t'.DistinctKeys := by
  intro i hi j hj hij
  rcases Finset.mem_insert.mp (hs ▸ hi) with rfl | hi <;>
    rcases Finset.mem_insert.mp (hs ▸ hj) with rfl | hj
  · rfl
  · rw [hk j hj] at hij
    exact absurd hij.symm (ha j hj)
  · rw [hk i hi] at hij
    exact absurd hij (ha i hi)
  · rw [hk i hi, hk j hj] at hij
    exact h i hi j hj hij

end Table

-- What holds between two critical sections of mapping_lock.
structure Valid (n : ℕ) (w : Worker κ) (t : Table κ) : Prop where
  accounted : t.Accounted n w.inFlight.toList
  pending : ∀ b < n, (t.slot b).pending = true ↔ w.inFlight = some b
  hashed : ∀ b, b ∈ t.hashed ↔ b < n ∧ (t.slot b).alloc = true ∧ w.arriving ≠ some b
  unique : t.DistinctKeys
  flying : ∀ b, w.inFlight = some b → (t.slot b).alloc = true
  arriving : ∀ key b, w = .promoting key b → (t.slot b).key = key
  current : ∀ key, w.current = some key → t.queue.head? = some key
  distinct : t.queue.Nodup
  waiting : ∀ key ∈ t.queue, w.served = some key ∨ t.Absent key

namespace Valid

open Table

theorem lt_of_hashed (h : Valid n w t) (hb : b ∈ t.hashed) : b < n := ((h.hashed b).mp hb).1

theorem alloc_of_hashed (h : Valid n w t) (hb : b ∈ t.hashed) : (t.slot b).alloc = true :=
  ((h.hashed b).mp hb).2.1

theorem lt_of_inFlight (h : Valid n w t) (hb : w.inFlight = some b) : b < n :=
  h.accounted.lt_of_off (by simp [hb])

theorem resident (h : Valid n w t) (hb : b < n) (hw : w.inFlight ≠ some b)
    (ha : (t.slot b).alloc = true) : t.Resident b :=
  h.accounted.resident hb (by simpa using fun he => hw he) ha

theorem notMem_free (h : Valid n w t) (hb : b < n) (ha : (t.slot b).alloc = true) : b ∉ t.free := by
  rw [← h.accounted.alloc b hb, ha]
  simp

theorem free_notMem_hashed (h : Valid n w t) (hb : b ∈ t.free) : b ∉ t.hashed := by
  intro hh
  exact h.notMem_free (h.lt_of_hashed hh) (h.alloc_of_hashed hh) hb

-- The worker may move on when it keeps its work and what it has in flight.
theorem worker (h : Valid n w t) (hf : w'.inFlight = w.inFlight) (ha : w'.arriving = none)
    (ha' : w.arriving = none) (hc : w'.current = w.current) (hs : w'.served = w.served) :
    Valid n w' t where
  accounted := hf ▸ h.accounted
  pending := hf ▸ h.pending
  hashed := by rw [ha, ← ha']; exact h.hashed
  unique := h.unique
  flying := hf ▸ h.flying
  arriving key b hw := by simp [hw, Worker.arriving] at ha
  current := hc ▸ h.current
  distinct := h.distinct
  waiting := hs ▸ h.waiting

-- Neither a demotion nor a writeback was possible.
theorem giveUp (h : Valid n (.unevictable key) t) : Valid n (.finished key) t where
  accounted := h.accounted
  pending := h.pending
  hashed := h.hashed
  unique := h.unique
  flying := h.flying
  arriving k b hw := by simp at hw
  current := h.current
  distinct := h.distinct
  waiting k hk := .inr ((h.waiting k hk).resolve_left (by simp [Worker.served]))

theorem del_addTail (h : Valid n w t) (hb : t.Resident b) : Valid n w ((t.del b).addTail b) where
  accounted := (h.accounted.del hb).addTail
  pending := by simpa using h.pending
  hashed := by simpa using h.hashed
  unique := by simpa [DistinctKeys] using h.unique
  flying := by simpa using h.flying
  arriving := by simpa using h.arriving
  current := by simpa using h.current
  distinct := by simpa using h.distinct
  waiting := by simpa [Absent] using h.waiting

theorem hit (h : Valid n w t) (hb : b ∈ t.hashed) : Valid n w (t.hit b) := by
  unfold Table.hit
  split
  · rename_i hflags
    have hlt := h.lt_of_hashed hb
    have hw : w.inFlight ≠ some b := by
      rw [Ne, ← h.pending b hlt]
      simp only [Bool.and_eq_true, Bool.not_eq_true'] at hflags
      simp [hflags.1]
    exact h.del_addTail (h.resident hlt hw (h.alloc_of_hashed hb))
  · exact h

-- A step that touches only block `b`: what has to be checked of `b` alone.
theorem change {t' : Table κ} (h : Valid n w t) (b : ℕ) (hacc : t'.Accounted n w'.inFlight.toList)
    (hslot : ∀ i, i ≠ b → t'.slot i = t.slot i)
    (hhash : ∀ i, i ≠ b → (i ∈ t'.hashed ↔ i ∈ t.hashed))
    (hfly : ∀ i, i ≠ b → (w'.inFlight = some i ↔ w.inFlight = some i))
    (harr : ∀ i, i ≠ b → (w'.arriving = some i ↔ w.arriving = some i))
    (hcur : w'.current = w.current) (hserved : ∀ k, w.served = some k → w'.served = some k)
    (hqueue : t'.queue = t.queue) (hpending : (t'.slot b).pending = true ↔ w'.inFlight = some b)
    (hhashed : b ∈ t'.hashed ↔ b < n ∧ (t'.slot b).alloc = true ∧ w'.arriving ≠ some b)
    (halloc : w'.inFlight = some b → (t'.slot b).alloc = true)
    (hkey : ∀ k, w' = .promoting k b → (t'.slot b).key = k)
    (hstay : b ∈ t'.hashed → b ∈ t.hashed → (t'.slot b).key = (t.slot b).key)
    (hjoin : b ∈ t'.hashed → b ∉ t.hashed →
      t.Absent (t'.slot b).key ∧ ((t'.slot b).key ∈ t.queue → w'.served = some (t'.slot b).key)) :
    Valid n w' t' := by
  have hsub : b ∉ t'.hashed ∨ b ∈ t.hashed → t'.hashed ⊆ t.hashed ∧
      ∀ i ∈ t'.hashed, (t'.slot i).key = (t.slot i).key := by
    intro hb
    refine ⟨fun i hi => ?_, fun i hi => ?_⟩ <;> by_cases hib : i = b
    · subst i
      exact hb.resolve_left (fun hn => hn hi)
    · exact (hhash i hib).mp hi
    · subst i
      exact hstay hi (hb.resolve_left (fun hn => hn hi))
    · rw [hslot i hib]
  have hins : b ∈ t'.hashed → b ∉ t.hashed → t'.hashed = insert b t.hashed ∧
      ∀ i ∈ t.hashed, (t'.slot i).key = (t.slot i).key := by
    intro hb hnb
    refine ⟨?_, fun i hi => by rw [hslot i (fun hib => hnb (hib ▸ hi))]⟩
    ext i
    rw [Finset.mem_insert]
    by_cases hib : i = b
    · simp [hib, hb]
    · simp [hib, hhash i hib]
  refine ⟨hacc, fun i hi => ?_, fun i => ?_, ?_, fun i hi => ?_, fun k i hw => ?_,
    fun k hk => ?_, hqueue ▸ h.distinct, fun k hk => ?_⟩
  · by_cases hib : i = b
    · exact hib ▸ hpending
    · rw [hslot i hib, hfly i hib]
      exact h.pending i hi
  · by_cases hib : i = b
    · exact hib ▸ hhashed
    · rw [hhash i hib, hslot i hib, Ne, harr i hib]
      exact h.hashed i
  · by_cases hb : b ∉ t'.hashed ∨ b ∈ t.hashed
    · exact h.unique.subset (hsub hb).1 (hsub hb).2
    · simp only [not_or, not_not] at hb
      exact h.unique.insert (hins hb.1 hb.2).1 (hjoin hb.1 hb.2).1 (hins hb.1 hb.2).2
  · by_cases hib : i = b
    · exact hib ▸ halloc (hib ▸ hi)
    · rw [hslot i hib]
      exact h.flying i ((hfly i hib).mp hi)
  · by_cases hib : i = b
    · subst i
      exact hkey k hw
    · rw [hslot i hib]
      have ha : w.arriving = some i := (harr i hib).mp (by simp [hw, Worker.arriving])
      cases w with
      | promoting k' i' =>
          simp only [Worker.arriving, Option.some.injEq] at ha
          subst i'
          simp only [hw, Worker.current, Option.some.injEq] at hcur
          exact h.arriving k i (by rw [hcur])
      | _ => simp [Worker.arriving] at ha
  · rw [hqueue]
    exact h.current k (hcur ▸ hk)
  · rw [hqueue] at hk
    rcases h.waiting k hk with hs | ha
    · exact .inl (hserved k hs)
    · by_cases hb : b ∉ t'.hashed ∨ b ∈ t.hashed
      · exact .inr (ha.subset (hsub hb).1 (hsub hb).2)
      · simp only [not_or, not_not] at hb
        by_cases hkk : (t'.slot b).key = k
        · exact .inl (hkk ▸ (hjoin hb.1 hb.2).2 (hkk ▸ hk))
        · exact .inr (ha.insert (hins hb.1 hb.2).1 hkk (hins hb.1 hb.2).2)

theorem arriving_ne (hw : w.inFlight ≠ some b) : w.arriving ≠ some b := by
  cases w <;> simp_all [Worker.arriving, Worker.inFlight]

theorem inFlight_ne {k : κ} (hw : w.inFlight ≠ some b) : w ≠ .promoting k b := by
  rintro rfl
  exact hw rfl

theorem insertDirty {rest : List ℕ} (h : Valid n w t) (hf : t.free = b :: rest)
    (hk : t.Absent key) (hq : key ∉ t.queue) : Valid n w (t.insertDirty key b) := by
  have hbf : b ∈ t.free := by simp [hf]
  have hlt : b < n := h.accounted.lt_of_listed (by simp [listed, hbf])
  have hna : (t.slot b).alloc = false := (h.accounted.alloc b hlt).mpr hbf
  have hfly : w.inFlight ≠ some b := fun hw => by simp [h.flying b hw] at hna
  have hslot : (t.insertDirty key b).slot = Function.update t.slot b ⟨key, false, true, true⟩ := by
    simp [Table.insertDirty, allocate_slot hf]
  have hhash : (t.insertDirty key b).hashed = insert b t.hashed := by simp [Table.insertDirty]
  have hself : (t.insertDirty key b).slot b = ⟨key, false, true, true⟩ := by simp [hslot]
  have hacc : (t.insertDirty key b).Accounted n w.inFlight.toList :=
    (h.accounted.allocate hf rfl).hashIn.addTail
  apply h.change b hacc
  · exact fun i hi => by rw [hslot, Function.update_of_ne hi]
  · exact fun i hi => by simp [hhash, hi]
  · exact fun _ _ => Iff.rfl
  · exact fun _ _ => Iff.rfl
  · rfl
  · exact fun _ hs => hs
  · simp [Table.insertDirty]
  · simp [hself, hfly]
  · simp [hself, hhash, hlt, arriving_ne hfly]
  · exact fun hw => absurd hw hfly
  · exact fun k hw => absurd hw (inFlight_ne hfly)
  · exact fun _ hb => absurd hb (h.free_notMem_hashed hbf)
  · exact fun _ _ => hself ▸ ⟨hk, fun hm => absurd hm hq⟩

theorem remove (h : Valid n w t) (hb : b ∈ t.hashed) (hm : w.moving ≠ some b) :
    Valid n w (t.remove b) := by
  have hlt := h.lt_of_hashed hb
  have hfly : w.inFlight ≠ some b := by
    have hna := ((h.hashed b).mp hb).2.2
    cases w <;> simp_all [Worker.arriving, Worker.inFlight, Worker.moving]
  have hslot : (t.remove b).slot = Function.update t.slot b { t.slot b with alloc := false } := by
    simp [Table.remove]
  have hhash : (t.remove b).hashed = t.hashed.erase b := by simp [Table.remove]
  have hself : (t.remove b).slot b = { t.slot b with alloc := false } := by simp [hslot]
  have hacc : (t.remove b).Accounted n w.inFlight.toList :=
    (h.accounted.del (h.resident hlt hfly (h.alloc_of_hashed hb))).hashOut.release
  apply h.change b hacc
  · exact fun i hi => by rw [hslot, Function.update_of_ne hi]
  · exact fun i hi => by simp [hhash, hi]
  · exact fun _ _ => Iff.rfl
  · exact fun _ _ => Iff.rfl
  · rfl
  · exact fun _ hs => hs
  · simp [Table.remove]
  · rw [hself]
    exact h.pending b hlt
  · simp [hself, hhash]
  · exact fun hw => absurd hw hfly
  · exact fun k hw => absurd hw (inFlight_ne hfly)
  · simp [hhash]
  · simp [hhash]

theorem markDirty (h : Valid n w t) (hb : b < n) : Valid n w (t.markDirty b) := by
  unfold Table.markDirty
  by_cases ha : (t.slot b).alloc = true
  swap
  · simpa [ha] using h
  have hset : ∀ t' : Table κ, t'.Accounted n w.inFlight.toList → t'.queue = t.queue →
      t'.hashed = t.hashed → t'.slot = Function.update t.slot b { t.slot b with dirty := true } →
      Valid n w t' := by
    intro t' hacc hqueue hhash hslot
    apply h.change b hacc
    · exact fun i hi => by rw [hslot, Function.update_of_ne hi]
    · exact fun i _ => by rw [hhash]
    · exact fun _ _ => Iff.rfl
    · exact fun _ _ => Iff.rfl
    · rfl
    · exact fun _ hs => hs
    · exact hqueue
    · simpa [hslot] using h.pending b hb
    · simpa [hslot, hhash] using h.hashed b
    · simp [hslot, ha]
    · simpa [hslot] using fun k => h.arriving k b
    · simp [hslot]
    · exact fun hin hout => absurd (hhash ▸ hin) hout
  cases hp : (t.slot b).pending with
  | true =>
      have hw := (h.pending b hb).mp hp
      have hacc : (t.setDirty b true).Accounted n w.inFlight.toList :=
        h.accounted.setDirty (by simp [hw]) true
      simpa [ha, hp] using hset _ hacc rfl rfl rfl
  | false =>
      have hw : w.inFlight ≠ some b := by simp [← h.pending b hb, hp]
      have hacc : (((t.del b).setDirty b true).addTail b).Accounted n w.inFlight.toList :=
        ((h.accounted.del (h.resident hb hw ha)).setDirty List.mem_cons_self true).addTail
      simpa [ha, hp] using hset _ hacc (by simp) (by simp) (by simp)

theorem enqueue [DecidableEq κ] (h : Valid n w t) (limit : ℕ) (hk : t.Absent key) :
    Valid n w (t.enqueue limit key) := by
  unfold Table.enqueue
  split
  · rename_i hc
    refine ⟨⟨h.accounted.partition, h.accounted.alloc, h.accounted.clean, h.accounted.dirty⟩,
      h.pending, h.hashed, h.unique, h.flying, h.arriving, fun k hk => ?_, ?_, fun k hm => ?_⟩
    · simp [h.current k hk]
    · refine List.nodup_append.mpr ⟨h.distinct, List.nodup_singleton _, fun k hm k' hk' hkk => ?_⟩
      obtain rfl := List.mem_singleton.mp hk'
      exact hc.2 (hkk ▸ hm)
    · rcases List.mem_append.mp hm with hm | hm
      · exact h.waiting k hm
      · exact .inr (List.mem_singleton.mp hm ▸ hk)
  · exact h

theorem peek (h : Valid n .idle t) (hq : t.queue.head? = some key) : Valid n (.peeked key) t where
  accounted := h.accounted
  pending := h.pending
  hashed := h.hashed
  unique := h.unique
  flying := h.flying
  arriving key b hw := by simp at hw
  current k hk := by simpa [Worker.current] using hq.trans hk
  distinct := h.distinct
  waiting := h.waiting

theorem dequeue (h : Valid n (.finished key) t) : Valid n .idle t.dequeue where
  accounted := ⟨h.accounted.partition, h.accounted.alloc, h.accounted.clean, h.accounted.dirty⟩
  pending := h.pending
  hashed := h.hashed
  unique := h.unique
  flying := h.flying
  arriving key b hw := by simp at hw
  current k hk := by simp [Worker.current] at hk
  distinct := h.distinct.sublist (List.tail_sublist _)
  waiting k hk := by
    have hhead := h.current key rfl
    have hn := h.distinct
    have hm : k ∈ t.queue := List.mem_of_mem_tail hk
    refine .inr ((h.waiting k hm).resolve_left fun hs => ?_)
    obtain rfl : key = k := by simpa [Worker.served] using hs
    cases hq : t.queue with
    | nil => simp [hq] at hm
    | cons first rest =>
        obtain rfl : first = key := by simpa [hq] using hhead
        change first ∈ t.queue.tail at hk
        simp only [hq, List.nodup_cons, List.tail_cons] at hn hk
        exact hn.1 hk

theorem promotionStart {rest : List ℕ} (h : Valid n (.peeked key) t) (hf : t.free = b :: rest) :
    Valid n (.promoting key b) (t.promotionStart key) := by
  have hbf : b ∈ t.free := by simp [hf]
  have hnot := h.free_notMem_hashed hbf
  have hslot : (t.promotionStart key).slot =
      Function.update t.slot b ⟨key, true, false, true⟩ := allocate_slot hf _
  have hhash : (t.promotionStart key).hashed = t.hashed := allocate_hashed _ _
  have hacc : (t.promotionStart key).Accounted n (Worker.promoting key b).inFlight.toList :=
    h.accounted.allocate hf rfl
  apply h.change b hacc
  · exact fun i hi => by rw [hslot, Function.update_of_ne hi]
  · exact fun i _ => by rw [hhash]
  · exact fun i hi => by simp [Worker.inFlight, hi.symm]
  · exact fun i hi => by simp [Worker.arriving, hi.symm]
  · rfl
  · simp [Worker.served]
  · exact allocate_queue _ _
  · simp [hslot, Worker.inFlight]
  · simp [hhash, hnot, Worker.arriving]
  · simp [hslot]
  · simp [hslot]
  · exact fun hb => absurd (hhash ▸ hb) hnot
  · exact fun hb => absurd (hhash ▸ hb) hnot

theorem promotionComplete (h : Valid n (.promoting key b) t) (success : Bool) :
    Valid n (.finished key) (t.promotionComplete b success) := by
  have hlt : b < n := h.lt_of_inFlight rfl
  have ha : (t.slot b).alloc = true := h.flying b rfl
  have hkey : (t.slot b).key = key := h.arriving key b rfl
  have hnot : b ∉ t.hashed := by simp [h.hashed, Worker.arriving]
  have hhead := h.current key rfl
  have habs : t.Absent key :=
    (h.waiting key (List.mem_of_mem_head? hhead)).resolve_left (by simp [Worker.served])
  cases success with
  | true =>
      have hacc : (t.promotionComplete b true).Accounted n (Worker.finished key).inFlight.toList :=
        (h.accounted.setPending List.mem_cons_self false).hashIn.addTail
      have hslot : (t.promotionComplete b true).slot =
          Function.update t.slot b { t.slot b with pending := false } := by
        simp [Table.promotionComplete]
      have hhash : (t.promotionComplete b true).hashed = insert b t.hashed := by
        simp [Table.promotionComplete]
      apply h.change b hacc
      · exact fun i hi => by rw [hslot, Function.update_of_ne hi]
      · exact fun i hi => by simp [hhash, hi]
      · exact fun i hi => by simp [Worker.inFlight, hi.symm]
      · exact fun i hi => by simp [Worker.arriving, hi.symm]
      · rfl
      · simp [Worker.served]
      · simp [Table.promotionComplete]
      · simp [hslot, Worker.inFlight]
      · simp [hslot, hhash, hlt, ha, Worker.arriving]
      · simp [Worker.inFlight]
      · simp
      · exact fun _ hb => absurd hb hnot
      · simp [hslot, hkey, habs, Worker.served]
  | false =>
      have hacc : (t.promotionComplete b false).Accounted n (Worker.finished key).inFlight.toList :=
        (h.accounted.setPending List.mem_cons_self false).release
      have hslot : (t.promotionComplete b false).slot =
          Function.update t.slot b { t.slot b with pending := false, alloc := false } := by
        simp [Table.promotionComplete]
      have hhash : (t.promotionComplete b false).hashed = t.hashed := by
        simp [Table.promotionComplete]
      apply h.change b hacc
      · exact fun i hi => by rw [hslot, Function.update_of_ne hi]
      · exact fun i hi => by simp [hhash]
      · exact fun i hi => by simp [Worker.inFlight, hi.symm]
      · exact fun i hi => by simp [Worker.arriving, hi.symm]
      · rfl
      · simp [Worker.served]
      · simp [Table.promotionComplete]
      · simp [hslot, Worker.inFlight]
      · simp [hslot, hhash, hnot]
      · simp [Worker.inFlight]
      · simp
      · exact fun hb => absurd (hhash ▸ hb) hnot
      · exact fun hb => absurd (hhash ▸ hb) hnot

theorem resident_clean {rest : List ℕ} (h : Valid n w t) (hc : t.clean = b :: rest) :
    t.Resident b ∧ (t.slot b).dirty = false := by
  have hb : b ∈ t.clean := by simp [hc]
  have hd := h.accounted.clean b hb
  exact ⟨by simp [Resident, hd, hb], hd⟩

theorem resident_dirty {rest : List ℕ} (h : Valid n w t) (hc : t.dirty = b :: rest) :
    t.Resident b ∧ (t.slot b).dirty = true := by
  have hb : b ∈ t.dirty := by simp [hc]
  have hd := h.accounted.dirty b hb
  exact ⟨by simp [Resident, hd, hb], hd⟩

theorem accounted_demotionStart {rest : List ℕ} (h : Valid n w t) (hc : t.clean = b :: rest) :
    (t.demotionStart b).Accounted n (b :: w.inFlight.toList) := by
  obtain ⟨hr, hd⟩ := h.resident_clean hc
  have hdel := h.accounted.del hr
  rw [del_clean_head hc hd] at hdel
  exact hdel.setPending List.mem_cons_self true

theorem accounted_writebackStart {rest : List ℕ} (h : Valid n w t) (hc : t.dirty = b :: rest) :
    (t.writebackStart b).Accounted n (b :: w.inFlight.toList) := by
  obtain ⟨hr, hd⟩ := h.resident_dirty hc
  have hdel := h.accounted.del hr
  rw [del_dirty_head hc hd] at hdel
  exact (hdel.setPending List.mem_cons_self true).setDirty List.mem_cons_self false

theorem demotionStart {rest : List ℕ} (h : Valid n (.full key) t) (hc : t.clean = b :: rest) :
    Valid n (.demoting key b) (t.demotionStart b) := by
  obtain ⟨hlt, -, ha⟩ := h.accounted.alloc_of_resident (h.resident_clean hc).1
  have hacc : (t.demotionStart b).Accounted n (Worker.demoting key b).inFlight.toList :=
    h.accounted_demotionStart hc
  have hslot : (t.demotionStart b).slot =
      Function.update t.slot b { t.slot b with pending := true } := rfl
  have hhash : (t.demotionStart b).hashed = t.hashed := rfl
  apply h.change b hacc
  · exact fun i hi => by rw [hslot, Function.update_of_ne hi]
  · exact fun _ _ => Iff.rfl
  · exact fun i hi => by simp [Worker.inFlight, hi.symm]
  · exact fun _ _ => Iff.rfl
  · rfl
  · simp [Worker.served]
  · rfl
  · simp [hslot, Worker.inFlight]
  · simpa [hslot, hhash, Worker.arriving] using h.hashed b
  · simp [hslot, ha]
  · simp
  · simp [hslot]
  · exact fun hin hout => absurd hin hout

theorem writebackStart {rest : List ℕ} (h : Valid n (.unevictable key) t)
    (hc : t.dirty = b :: rest) : Valid n (.writing key b) (t.writebackStart b) := by
  obtain ⟨hlt, -, ha⟩ := h.accounted.alloc_of_resident (h.resident_dirty hc).1
  have hacc : (t.writebackStart b).Accounted n (Worker.writing key b).inFlight.toList :=
    h.accounted_writebackStart hc
  have hslot : (t.writebackStart b).slot =
      Function.update t.slot b { t.slot b with pending := true, dirty := false } := by
    simp [Table.writebackStart]
  have hhash : (t.writebackStart b).hashed = t.hashed := rfl
  apply h.change b hacc
  · exact fun i hi => by rw [hslot, Function.update_of_ne hi]
  · exact fun _ _ => Iff.rfl
  · exact fun i hi => by simp [Worker.inFlight, hi.symm]
  · exact fun _ _ => Iff.rfl
  · rfl
  · simp [Worker.served]
  · rfl
  · simp [hslot, Worker.inFlight]
  · simpa [hslot, hhash, Worker.arriving] using h.hashed b
  · simp [hslot, ha]
  · simp
  · simp [hslot]
  · exact fun hin hout => absurd hin hout

-- A block in flight that keeps its place in the hash table goes back on a list.
private theorem land (h : Valid n w t) (hw : w.inFlight = some b) (ha : w.arriving = none)
    (hc : w.current = some key) (hs : w.served = none) {t' : Table κ}
    (hacc : t'.Accounted n []) (hslot : t'.slot =
      Function.update t.slot b { t.slot b with pending := false })
    (hhash : t'.hashed = t.hashed) (hqueue : t'.queue = t.queue) : Valid n (.finished key) t' := by
  have hacc' : t'.Accounted n (Worker.finished key).inFlight.toList := hacc
  apply h.change b hacc'
  · exact fun i hi => by rw [hslot, Function.update_of_ne hi]
  · exact fun i _ => by rw [hhash]
  · intro i hi
    rw [hw]
    simp [Worker.inFlight, hi.symm]
  · intro i _
    rw [ha]
    simp [Worker.arriving]
  · exact hc.symm
  · simp [hs]
  · exact hqueue
  · simp [hslot, Worker.inFlight]
  · have hb := h.hashed b
    rw [ha] at hb
    simpa [hslot, hhash, Worker.arriving] using hb
  · simp [Worker.inFlight]
  · simp
  · simp [hslot]
  · exact fun hin hout => absurd (hhash ▸ hin) hout

theorem demotionComplete (h : Valid n (.demoting key b) t) (success : Bool) :
    Valid n (.finished key) (t.demotionComplete b success) := by
  have hset := h.accounted.setPending List.mem_cons_self false
  cases success with
  | false =>
      have hacc : (t.demotionComplete b false).Accounted n [] := hset.addTail
      exact h.land rfl rfl rfl rfl hacc (addTail_slot _ _) (addTail_hashed _ _) (addTail_queue _ _)
  | true =>
      have hacc : (t.demotionComplete b true).Accounted n (Worker.finished key).inFlight.toList :=
        hset.hashOut.release
      have hslot : (t.demotionComplete b true).slot =
          Function.update t.slot b { t.slot b with pending := false, alloc := false } := by
        simp [Table.demotionComplete]
      have hhash : (t.demotionComplete b true).hashed = t.hashed.erase b := by
        simp [Table.demotionComplete]
      apply h.change b hacc
      · exact fun i hi => by rw [hslot, Function.update_of_ne hi]
      · exact fun i hi => by simp [hhash, hi]
      · exact fun i hi => by simp [Worker.inFlight, hi.symm]
      · exact fun _ _ => Iff.rfl
      · rfl
      · simp [Worker.served]
      · simp [Table.demotionComplete]
      · simp [hslot, Worker.inFlight]
      · simp [hslot, hhash]
      · simp [Worker.inFlight]
      · simp
      · simp [hhash]
      · simp [hhash]

theorem writebackComplete (h : Valid n (.writing key b) t) (success : Bool) :
    Valid n (.finished key) (t.writebackComplete b success) := by
  have hset := h.accounted.setPending List.mem_cons_self false
  cases success with
  | false =>
      have hacc : (t.writebackComplete b false).Accounted n [] := hset.addHead
      exact h.land rfl rfl rfl rfl hacc (addHead_slot _ _) (addHead_hashed _ _) (addHead_queue _ _)
  | true =>
      have hacc : (t.writebackComplete b true).Accounted n [] := hset.addTail
      exact h.land rfl rfl rfl rfl hacc (addTail_slot _ _) (addTail_hashed _ _) (addTail_queue _ _)

-- In zeroed memory the queue is empty, and after init_allocator every block is free.
theorem initial {slot : ℕ → Slot κ} (hs : ∀ b, (slot b).pending = false ∧ (slot b).alloc = false) :
    Valid n .idle ⟨List.range n, [], [], slot, ∅, []⟩ where
  accounted := by
    refine ⟨by simp [Worker.inFlight, listed], fun b hb => ?_, by simp, by simp⟩
    simp [hs b, hb]
  pending b hb := by simp [hs b, Worker.inFlight]
  hashed b := by simp [hs b]
  unique := by simp [DistinctKeys]
  flying b hb := by simp [Worker.inFlight] at hb
  arriving key b hw := by simp at hw
  current key hk := by simp [Worker.current] at hk
  distinct := List.nodup_nil
  waiting := by simp

end Valid

end UserPageCache.SsdCache
