import UserPageCache.SsdCache.Mapping

namespace UserPageCache.SsdCache

variable {m m' : Mapping} {path : CString} {index e : Nat} {cblock : Option Nat} {success : Bool}

section Lookups

theorem find_rest {found : Option Nat} (h : find m path index = .ok (m', found)) :
    m'.wq = m.wq ∧ m'.ea = m.ea := by
  unfold find at h
  obtain ⟨v, -, h⟩ := bind_eq_ok.mp h
  rw [← (Prod.mk.inj (Except.ok.inj h)).1]
  exact ⟨rfl, rfl⟩

theorem insertDirty_isSome (h : insertDirty m path index = .ok (m', cblock)) :
    cblock.isSome = true := by
  unfold insertDirty at h
  split at h
  · simp at h
  · rw [← (Prod.mk.inj (Except.ok.inj h)).2]
    rfl

end Lookups

-- Only enqueue and the worker's removal touch the work queue.
section Queue

@[simp] theorem addTailByFlag_wq (m : Mapping) (e : Nat) : (addTailByFlag m e).wq = m.wq := by
  unfold addTailByFlag
  split <;> rfl

@[simp] theorem addHeadByFlag_wq (m : Mapping) (e : Nat) : (addHeadByFlag m e).wq = m.wq := by
  unfold addHeadByFlag
  split <;> rfl

@[simp] theorem delByFlag_wq (m : Mapping) (e : Nat) : (delByFlag m e).wq = m.wq := by
  unfold delByFlag
  split <;> rfl

@[simp] theorem updateEntry_wq (m : Mapping) (e : Nat) (f : Entry → Entry) :
    (updateEntry m e f).wq = m.wq := rfl

@[simp] theorem hashIn_wq (m : Mapping) (e : Nat) : (hashIn m e).wq = m.wq := rfl

@[simp] theorem release_wq (m : Mapping) (e : Nat) : (release m e).wq = m.wq := rfl

@[simp] theorem lookupMiss_wq (m : Mapping) : (lookupMiss m).wq = m.wq := rfl

@[simp] theorem lookupHit_wq (m : Mapping) (e : Nat) : (lookupHit m e).wq = m.wq := by
  unfold lookupHit
  dsimp only
  split <;> simp

@[simp] theorem setDirtyAfterWrite_wq (m : Mapping) (cblock : Nat) (dirty : Bool) :
    (setDirtyAfterWrite m cblock dirty).wq = m.wq := by
  unfold setDirtyAfterWrite
  split
  · rfl
  · split
    · rfl
    · split <;> simp

theorem hashOut_wq (h : hashOut m e = .ok m') : m'.wq = m.wq := by
  unfold hashOut at h
  obtain ⟨v, -, h⟩ := bind_eq_ok.mp h
  rw [← Except.ok.inj h]

theorem insertDirty_wq (h : insertDirty m path index = .ok (m', cblock)) : m'.wq = m.wq := by
  unfold insertDirty at h
  split at h
  · simp at h
  · rw [← (Prod.mk.inj (Except.ok.inj h)).1, addTailByFlag_wq, hashIn_wq]

theorem removeMapping_wq {found : Bool} (h : removeMapping m path index = .ok (m', found)) :
    m'.wq = m.wq := by
  unfold removeMapping at h
  obtain ⟨⟨m₁, entry⟩, hfind, h⟩ := bind_eq_ok.mp h
  have hwq := (find_rest hfind).1
  cases entry with
  | none =>
      rw [← (Prod.mk.inj (Except.ok.inj h)).1]
      exact hwq
  | some e =>
      obtain ⟨m₂, hout, h⟩ := bind_eq_ok.mp h
      rw [← (Prod.mk.inj (Except.ok.inj h)).1, release_wq, hashOut_wq hout, delByFlag_wq]
      exact hwq

theorem promotionFreeToClean_wq (h : promotionFreeToClean m path index = .ok (some (m', e))) :
    m'.wq = m.wq := by
  unfold promotionFreeToClean at h
  split at h
  · simp at h
  · split at h
    · simp at h
    · rw [← (Prod.mk.inj (Option.some.inj (Except.ok.inj h))).1]

theorem promotionComplete_wq (h : promotionComplete m e success = .ok m') : m'.wq = m.wq := by
  unfold promotionComplete at h
  split at h
  · simp at h
  · split at h <;> simp [← Except.ok.inj h]

theorem demotionCleanToFree_wq (h : demotionCleanToFree m = .ok (some (m', e))) :
    m'.wq = m.wq := by
  unfold demotionCleanToFree at h
  split at h
  · simp at h
  · split at h
    · simp at h
    · rw [← (Prod.mk.inj (Option.some.inj (Except.ok.inj h))).1, updateEntry_wq]

theorem demotionComplete_wq (h : demotionComplete m e success = .ok m') : m'.wq = m.wq := by
  unfold demotionComplete at h
  split at h
  · simp at h
  · split at h
    · obtain ⟨m₁, hout, h⟩ := bind_eq_ok.mp h
      rw [← Except.ok.inj h, release_wq, hashOut_wq hout, updateEntry_wq]
    · rw [← Except.ok.inj h, addTailByFlag_wq, updateEntry_wq]

theorem writebackDirtyToClean_wq (h : writebackDirtyToClean m = .ok (some (m', e))) :
    m'.wq = m.wq := by
  unfold writebackDirtyToClean at h
  split at h
  · simp at h
  · split at h
    · simp at h
    · split at h
      · simp at h
      · rw [← (Prod.mk.inj (Option.some.inj (Except.ok.inj h))).1, updateEntry_wq]

theorem writebackComplete_wq (h : writebackComplete m e success = .ok m') : m'.wq = m.wq := by
  unfold writebackComplete at h
  split at h
  · simp at h
  · split at h <;> simp [← Except.ok.inj h]

end Queue

end UserPageCache.SsdCache
