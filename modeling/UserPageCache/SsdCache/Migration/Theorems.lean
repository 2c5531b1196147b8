import UserPageCache.SsdCache.Mapping.Theorems
import UserPageCache.SsdCache.Migration

namespace UserPageCache.SsdCache

-- What the worker can do for a key, by what it finds free, evictable or dirty.
inductive Migrated (g : Geometry) (m : Mapping) (w : World) (reply : Replies) (key : Work)
    (t : Table Work) : Table Work → World → Prop
  | promoted {b : Nat} {rest : List Nat} {m₁ : Mapping} {w' : World} {success : Bool}
      (hf : t.free = b :: rest)
      (hstart : promotionFreeToClean m key.fullPathName key.cachePageIndex = .ok (some (m₁, b)))
      (r : Repr g m₁ (t.promotionStart key))
      (hs : mgStart m₁ w reply (some key.fullPathName) key.cachePageIndex b .promotion =
        (w', success)) :
      Migrated g m w reply key t ((t.promotionStart key).promotionComplete b success) w'
  | demoted {b : Nat} {rest : List Nat} {m₁ : Mapping} (hf : t.free = [])
      (hc : t.clean = b :: rest) (hn : g.cacheBlockNum / 2 < t.clean.length)
      (hstart : demotionCleanToFree m = .ok (some (m₁, b))) (r : Repr g m₁ (t.demotionStart b)) :
      Migrated g m w reply key t ((t.demotionStart b).demotionComplete b true)
        (trimCblock m₁ w reply 0)
  | written {b : Nat} {rest : List Nat} {m₁ : Mapping} {w' : World} {success : Bool}
      (hf : t.free = []) (hn : t.clean.length ≤ g.cacheBlockNum / 2) (hd : t.dirty = b :: rest)
      (hstart : writebackDirtyToClean m = .ok (some (m₁, b))) (r : Repr g m₁ (t.writebackStart b))
      (hs : mgStart m₁ w reply (some (t.slot b).key.fullPathName) (t.slot b).key.cachePageIndex b
        .writeback = (w', success)) :
      Migrated g m w reply key t ((t.writebackStart b).writebackComplete b success) w'
  | stuck (hf : t.free = []) (hn : t.clean.length ≤ g.cacheBlockNum / 2) (hd : t.dirty = []) :
      Migrated g m w reply key t t w

variable {g : Geometry} {m : Mapping} {t : Table Work} {key : Work}

theorem Repr.migrate (r : Repr g m t) (v : Valid g.cacheBlockNum (.peeked key) t) (w : World)
    (reply : Replies) : ∃ m' t' w',
      migrate m w reply key.fullPathName key.cachePageIndex = .ok (m', w') ∧ Repr g m' t' ∧
      Valid g.cacheBlockNum (.finished key) t' ∧ Migrated g m w reply key t t' w' := by
  unfold SsdCache.migrate
  simp only [bind, Except.bind, pure, Except.pure]
  cases hf : t.free with
  | cons b rest =>
      obtain ⟨m₁, hstart, r₁⟩ := r.promotionFreeToClean v hf key
      have v₁ := v.promotionStart hf
      cases hs : mgStart m₁ w reply (some key.fullPathName) key.cachePageIndex b .promotion with
      | mk w' success =>
          obtain ⟨m', hdone, r'⟩ := r₁.promotionComplete v₁ success
          simp only [hstart, hs, hdone]
          exact ⟨_, _, _, rfl, r', v₁.promotionComplete success, .promoted hf hstart r₁ hs⟩
  | nil =>
      have vfull : Valid g.cacheBlockNum (.full key) t := v.worker rfl rfl rfl rfl rfl
      simp only [r.promotionFreeToClean_none hf key]
      by_cases hn : t.clean.length ≤ g.cacheBlockNum / 2
      · have vstuck : Valid g.cacheBlockNum (.unevictable key) t := vfull.worker rfl rfl rfl rfl rfl
        simp only [r.demotionCleanToFree_none hn]
        cases hd : t.dirty with
        | nil =>
            simp only [r.writebackDirtyToClean_none hd]
            exact ⟨_, _, _, rfl, r, vstuck.giveUp, .stuck hf hn hd⟩
        | cons b rest =>
            obtain ⟨m₁, hstart, r₁⟩ := r.writebackDirtyToClean vstuck rfl hd
            have v₁ := vstuck.writebackStart hd
            -- The entry keeps the key that the block had before.
            have hkey : (t.slot b).key = keyOf (m₁.es b) := by
              have hslot := congrArg Slot.key (r₁.slot_eq b)
              simpa [Table.writebackStart, slotOf] using hslot
            cases hs : mgStart m₁ w reply (some (m₁.es b).fullPathName) (m₁.es b).cachePageIndex b
                .writeback with
            | mk w' success =>
                obtain ⟨m', hdone, r'⟩ := r₁.writebackComplete v₁ success
                simp only [hstart, r₁.toEntry_eq (v₁.lt_of_inFlight rfl), hs, hdone]
                exact ⟨_, _, _, rfl, r', v₁.writebackComplete success,
                  .written hf hn hd hstart r₁ (by rw [hkey]; exact hs)⟩
      · cases hc : t.clean with
        | nil => simp [hc] at hn
        | cons b rest =>
            obtain ⟨m₁, hstart, r₁⟩ := r.demotionCleanToFree hc hn
            have v₁ := vfull.demotionStart hc
            obtain ⟨m', hdone, r'⟩ := r₁.demotionComplete v₁ true
            simp only [hstart, mgStart, hdone]
            exact ⟨_, _, _, rfl, r', v₁.demotionComplete true,
              .demoted hf hc (by omega) hstart r₁⟩

end UserPageCache.SsdCache
