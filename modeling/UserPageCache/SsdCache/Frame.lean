import UserPageCache.SsdCache.Accounting
import UserPageCache.SsdCache.Migration.Theorems

namespace UserPageCache.SsdCache

-- The block ranges that commands wrote or deallocated between two worlds; outside of
-- them the SSD is as before.
structure Touches (w w' : World) (ranges : List (Nat × Nat)) : Prop where
  sector : w'.sectorSize = w.sectorSize
  touched : w'.touched = w.touched ++ ranges
  rest : ∀ i, (∀ r ∈ ranges, i < r.1 * w.sectorSize ∨ (r.1 + r.2) * w.sectorSize ≤ i) →
    w'.ssd i = w.ssd i

-- The block that do_migration_work is going to promote into, demote or write back.
def chosenBlock (m : Mapping) : Option Nat :=
  match peakWork m.wq with
  | none => none
  | some work =>
    match promotionFreeToClean m work.fullPathName work.cachePageIndex with
    | .ok (some (_, cblock)) => some cblock
    | .error _ => none
    | .ok none =>
      match demotionCleanToFree m with
      | .ok (some (_, cblock)) => some cblock
      | .error _ => none
      | .ok none =>
        match writebackDirtyToClean m with
        | .ok (some (_, cblock)) => some cblock
        | _ => none

def InBlock (m : Mapping) (cblock : Nat) (r : Nat × Nat) : Prop :=
  cblock * 2 ^ m.blockPerCblockShift ≤ r.1 ∧ r.1 + r.2 ≤ (cblock + 1) * 2 ^ m.blockPerCblockShift

structure Framed (m : Mapping) (w w' : World) (ranges : List (Nat × Nat)) : Prop where
  touches : Touches w w' ranges
  inside : ∀ r ∈ ranges, ∃ cblock, chosenBlock m = some cblock ∧ InBlock m cblock r
  others : ∀ b, chosenBlock m ≠ some b → ∀ i, b * 2 ^ m.blockPerCblockShift * w.sectorSize ≤ i →
    i < (b + 1) * 2 ^ m.blockPerCblockShift * w.sectorSize → w'.ssd i = w.ssd i

-- There is work, no entry is free, and more than half of the blocks are clean.
def Demotes (m : Mapping) : Prop :=
  peakWork m.wq ≠ none ∧ allocatorEmpty m.ea = true ∧ m.cacheBlockNum / 2 < m.clean.nrElts

variable {g : Geometry} {s : State} {m : Mapping} {w w' w'' : World} {reply : Replies}
  {t : Table Work} {key : Work} {b : Nat} {ranges ranges' : List (Nat × Nat)}

section Touches

theorem Touches.of_same (hs : w'.sectorSize = w.sectorSize) (ht : w'.touched = w.touched)
    (hd : w'.ssd = w.ssd) : Touches w w' [] :=
  ⟨hs, by simp [ht], fun i _ => by rw [hd]⟩

theorem Touches.trans (h : Touches w w' ranges) (h' : Touches w' w'' ranges') :
    Touches w w'' (ranges ++ ranges') where
  sector := h'.sector.trans h.sector
  touched := by rw [h'.touched, h.touched, List.append_assoc]
  rest i hi := by
    rw [h'.rest i fun r hr => by rw [h.sector]; exact hi r (List.mem_append_right _ hr)]
    exact h.rest i fun r hr => hi r (List.mem_append_left _ hr)

theorem writeSsd_touches (w : World) (offsetBlock numBlock : Nat) (src : Nat → UInt8) :
    Touches w (writeSsd w offsetBlock numBlock src) [(offsetBlock, numBlock)] where
  sector := rfl
  touched := rfl
  rest i hi := by
    have hout : i < offsetBlock * w.sectorSize ∨ (offsetBlock + numBlock) * w.sectorSize ≤ i :=
      hi _ List.mem_cons_self
    rw [Nat.add_mul] at hout
    change Bytes.write _ _ _ _ i = _
    unfold Bytes.write
    rw [if_neg (by omega)]

theorem openFile_touches {path : CString} {creat : Bool} (h : openFile w reply path creat = some w') :
    Touches w w' [] := by
  unfold openFile at h
  split at h
  · split at h
    · obtain rfl := Option.some.inj h
      exact .of_same rfl rfl rfl
    · split at h
      · obtain rfl := Option.some.inj h
        exact .of_same rfl rfl rfl
      · simp at h
  · simp at h

theorem loadFile_touches {path : CString} {index : Nat} (h : loadFile w reply path index = some w') :
    Touches w w' [] := by
  unfold loadFile at h
  obtain ⟨w₁, hopen, h⟩ := Option.bind_eq_some_iff.mp h
  obtain ⟨⟨n, src⟩, hread, h⟩ := Option.bind_eq_some_iff.mp h
  obtain rfl := Option.some.inj h
  have hsame : Touches w₁ { w₁ with dmaBuf := Bytes.write w₁.dmaBuf 0 n src } [] :=
    .of_same rfl rfl rfl
  exact (openFile_touches hopen).trans hsame

theorem storeFile_touches {path : CString} {index : Nat} (h : storeFile w reply path index = some w') :
    Touches w w' [] := by
  unfold storeFile at h
  obtain ⟨w₁, hopen, h⟩ := Option.bind_eq_some_iff.mp h
  obtain ⟨⟨n, w₂⟩, hwrite, h⟩ := Option.bind_eq_some_iff.mp h
  obtain rfl := Option.some.inj h
  unfold pwrite at hwrite
  obtain ⟨file, hf, hwrite⟩ := Option.bind_eq_some_iff.mp hwrite
  obtain ⟨k, hk, hwrite⟩ := Option.bind_eq_some_iff.mp hwrite
  obtain ⟨-, rfl⟩ := Prod.mk.inj (Option.some.inj hwrite)
  have hsame : ∀ file, Touches w₁ (setFile w₁ path file) [] := fun file => .of_same rfl rfl rfl
  exact (openFile_touches hopen).trans (hsame _)

theorem storeCblock_touches (m : Mapping) (w : World) (reply : Replies) (c : Nat) :
    ∃ ranges, Touches w (storeCblock m w reply c).1 ranges ∧
      ∀ r ∈ ranges, r = (cblockStart m c, 2 ^ m.blockPerCblockShift) := by
  unfold storeCblock writeSpdk
  split
  · exact ⟨[], .of_same rfl rfl rfl, by simp⟩
  · exact ⟨[], .of_same rfl rfl rfl, by simp⟩
  · exact ⟨_, writeSsd_touches _ _ _ _, by simp⟩

theorem loadCblock_touches (m : Mapping) (w : World) (reply : Replies) (c : Nat) :
    Touches w (loadCblock m w reply c).1 [] := by
  unfold loadCblock readSpdk
  split <;> exact .of_same rfl rfl rfl

theorem trimCblock_touches (m : Mapping) (w : World) (reply : Replies) (index : Nat) :
    Touches w (trimCblock m w reply index) (if reply.command = .done then
      [(u32 (index * 2 ^ m.blockPerCblockShift), 2 ^ m.blockPerCblockShift)] else []) := by
  unfold trimCblock trimSpdk
  split
  · rename_i hc _
    rw [if_pos hc]
    exact writeSsd_touches _ _ _ _
  · rename_i hc _
    rw [if_pos hc]
    exact ⟨rfl, rfl, fun _ _ => rfl⟩
  · rename_i hnone hsome
    have hc : reply.command ≠ .done := fun hc => by
      cases hd : reply.deallocated with
      | none => exact hsome hc hd
      | some data => exact hnone data hc hd
    rw [if_neg hc]
    exact .of_same rfl rfl rfl

-- Promotion and writeback address the block that they are called for.
theorem mgStart_touches (m : Mapping) (w : World) (reply : Replies) (path : Option CString)
    (index c : Nat) {mgType : MgType} (hm : mgType ≠ .demotion) :
    ∃ ranges, Touches w (mgStart m w reply path index c mgType).1 ranges ∧
      ∀ r ∈ ranges, r = (cblockStart m c, 2 ^ m.blockPerCblockShift) := by
  cases mgType with
  | demotion => exact absurd rfl hm
  | promotion =>
      unfold mgStart
      cases hl : path.bind (loadFile w reply · index) with
      | none => exact ⟨[], .of_same rfl rfl rfl, by simp⟩
      | some w₁ =>
          obtain ⟨path', -, hload⟩ := Option.bind_eq_some_iff.mp hl
          obtain ⟨ranges, ht, hr⟩ := storeCblock_touches m w₁ reply c
          exact ⟨ranges, (loadFile_touches hload).trans ht, hr⟩
  | writeback =>
      have hread := loadCblock_touches m w reply c
      refine ⟨[], ?_, by simp⟩
      unfold mgStart
      simp only
      split
      · split
        · exact hread
        · rename_i w₂ hs
          obtain ⟨path', -, hstore⟩ := Option.bind_eq_some_iff.mp hs
          exact hread.trans (storeFile_touches hstore)
      · exact hread

end Touches

section Frame

theorem Repr.cblockStart (r : Repr g m t) (hshift : g.blockPerCblockShift ≤ CBLOCK_SHIFT)
    (hb : b < g.cacheBlockNum) : cblockStart m b = b * 2 ^ g.blockPerCblockShift := by
  have hlt : b < 2 ^ 15 := Nat.lt_of_lt_of_le hb r.capacity
  have hpow : 2 ^ g.blockPerCblockShift ≤ 2 ^ 15 := Nat.pow_le_pow_right (by decide) hshift
  have hmul : b * 2 ^ g.blockPerCblockShift ≤ b * 2 ^ 15 := Nat.mul_le_mul_left b hpow
  rw [SsdCache.cblockStart, r.shift, u32_of_lt (by omega)]

-- What a range in the chosen block leaves alone.
theorem Framed.of_inside (h : Touches w w' ranges)
    (hi : ∀ r ∈ ranges, ∃ cblock, chosenBlock m = some cblock ∧ InBlock m cblock r) :
    Framed m w w' ranges := by
  refine ⟨h, hi, fun b hb i hlow hhigh => h.rest i fun r hr => ?_⟩
  obtain ⟨c, hc, hstart, hend⟩ := hi r hr
  rcases Nat.lt_trichotomy b c with hbc | rfl | hbc
  · refine .inl (Nat.lt_of_lt_of_le hhigh (Nat.mul_le_mul_right _ ?_))
    exact (Nat.mul_le_mul_right _ (Nat.succ_le_of_lt hbc)).trans hstart
  · exact absurd hc hb
  · refine .inr (Nat.le_trans (Nat.mul_le_mul_right _ ?_) hlow)
    exact hend.trans (Nat.mul_le_mul_right _ (Nat.succ_le_of_lt hbc))

theorem Framed.of_block {m' : Mapping} (h : Touches w w' ranges) (hc : chosenBlock m = some b)
    (hm : m'.blockPerCblockShift = m.blockPerCblockShift)
    (hs : SsdCache.cblockStart m' b = b * 2 ^ m.blockPerCblockShift)
    (hr : ∀ r ∈ ranges, r = (SsdCache.cblockStart m' b, 2 ^ m'.blockPerCblockShift)) :
    Framed m w w' ranges := by
  refine .of_inside h fun r hmem => ⟨b, hc, ?_⟩
  rw [hr r hmem, InBlock, hs, hm, Nat.succ_mul]
  exact ⟨Nat.le_refl _, Nat.le_refl _⟩

-- The range of a demotion is that of block 0, whichever block is demoted.
theorem framed_trim {m' : Mapping} (hm : m'.blockPerCblockShift = m.blockPerCblockShift)
    (hc : chosenBlock m = some b) :
    (∃ ranges, Framed m w (trimCblock m' w reply 0) ranges) ↔ ¬(b ≠ 0 ∧ reply.command = .done) := by
  have ht := trimCblock_touches m' w reply 0
  constructor
  · rintro ⟨ranges, hf⟩ ⟨hb, hd⟩
    rw [if_pos hd] at ht
    have hr := List.append_cancel_left (hf.touches.touched.symm.trans ht.touched)
    obtain ⟨c, hc', hstart, -⟩ := hf.inside (u32 (0 * 2 ^ m'.blockPerCblockShift),
      2 ^ m'.blockPerCblockShift) (by rw [hr]; exact List.mem_cons_self)
    obtain rfl : b = c := Option.some.inj (hc.symm.trans hc')
    have hpos : 0 < 2 ^ m.blockPerCblockShift := Nat.two_pow_pos _
    have hzero : b * 2 ^ m.blockPerCblockShift ≤ 0 := by simpa [u32] using hstart
    have hle := Nat.le_mul_of_pos_right b hpos
    omega
  · intro hn
    refine ⟨_, .of_inside ht fun r hr => ?_⟩
    split at hr
    · rename_i hd
      have hb : b = 0 := by
        by_contra hb
        exact hn ⟨hb, hd⟩
      subst b
      rw [List.mem_singleton.mp hr, hm]
      exact ⟨0, hc, by simp [InBlock, u32]⟩
    · simp at hr

-- The migration and its frame, by what the worker finds.
theorem Sound.migrate_frame (h : Sound g s t) (hshift : g.blockPerCblockShift ≤ CBLOCK_SHIFT)
    (hv : Valid g.cacheBlockNum (.peeked key) t) (hq : peakWork s.map.wq = some key) (w : World)
    (reply : Replies) :
    ∃ m w', migrate s.map w reply key.fullPathName key.cachePageIndex = .ok (m, w') ∧
      ((∃ ranges, Framed s.map w w' ranges) ↔
        ¬(Demotes s.map ∧ lHead s.map.clean ≠ some 0 ∧ reply.command = .done)) := by
  obtain ⟨m, t', w', heq, -, -, hm⟩ := h.repr.migrate hv w reply
  refine ⟨m, w', heq, ?_⟩
  have hempty := h.repr.allocatorEmpty_iff
  have hfew : t.clean.length ≤ g.cacheBlockNum / 2 → ¬Demotes s.map := by
    rintro hn ⟨-, -, hlt⟩
    rw [h.repr.clean.nrElts, h.repr.cacheBlockNum] at hlt
    omega
  have hlt : ∀ {b rest}, t.free = b :: rest ∨ t.dirty = b :: rest → b < g.cacheBlockNum :=
    fun hb => hv.accounted.lt_of_listed (by rcases hb with hb | hb <;> simp [Table.listed, hb])
  cases hm with
  | @promoted b rest m₁ _ success hf hstart r hs =>
      have hchosen : chosenBlock s.map = some b := by simp only [chosenBlock, hq, hstart]
      obtain ⟨ranges, ht, hr⟩ := mgStart_touches m₁ w reply (some key.fullPathName)
        key.cachePageIndex b (show MgType.promotion ≠ .demotion by decide)
      rw [hs] at ht
      refine iff_of_true ⟨ranges, .of_block ht hchosen (r.shift.trans h.repr.shift.symm)
        (by rw [r.cblockStart hshift (hlt (.inl hf)), h.repr.shift]) hr⟩ ?_
      rintro ⟨⟨-, he, -⟩, -⟩
      simp [hempty.mp he] at hf
  | @demoted b rest m₁ hf hc hn hstart r =>
      have hchosen : chosenBlock s.map = some b := by
        simp only [chosenBlock, hq, h.repr.promotionFreeToClean_none hf key, hstart]
      have hdemotes : Demotes s.map := by
        refine ⟨by simp [hq], hempty.mpr hf, ?_⟩
        rwa [h.repr.clean.nrElts, h.repr.cacheBlockNum]
      have hhead : lHead s.map.clean = some b := by
        rw [h.repr.clean.links.head_eq, hc]
        rfl
      refine (framed_trim (r.shift.trans h.repr.shift.symm) hchosen).trans ?_
      simp [hdemotes, hhead]
  | @written b rest m₁ _ success hf hn hd hstart r hs =>
      have hchosen : chosenBlock s.map = some b := by
        simp only [chosenBlock, hq, h.repr.promotionFreeToClean_none hf key,
          h.repr.demotionCleanToFree_none hn, hstart]
      obtain ⟨ranges, ht, hr⟩ := mgStart_touches m₁ w reply (some (t.slot b).key.fullPathName)
        (t.slot b).key.cachePageIndex b (show MgType.writeback ≠ .demotion by decide)
      rw [hs] at ht
      exact iff_of_true ⟨ranges, .of_block ht hchosen (r.shift.trans h.repr.shift.symm)
        (by rw [r.cblockStart hshift (hlt (.inr hd)), h.repr.shift]) hr⟩ fun hc => hfew hn hc.1
  | stuck hf hn hd =>
      have hsame : Touches w w [] := .of_same rfl rfl rfl
      exact iff_of_true ⟨[], .of_inside hsame (by simp)⟩ fun hc => hfew hn hc.1

end Frame

-- One call of do_migration_work stays inside its block just when it does not deallocate
-- for the demotion of a block other than 0.
theorem migration_frame {blockSize cblockNum : Nat}
    (h : (interleaving blockSize cblockNum).Reachable Settled s) (hw : s.worker = .idle)
    (w : World) (reply : Replies) :
    ∃ m w' worked, doMigrationWork s.map w reply = .ok (m, w', worked) ∧
      ((∃ ranges, Framed s.map w w' ranges) ↔
        ¬(Demotes s.map ∧ lHead s.map.clean ≠ some 0 ∧ reply.command = .done)) := by
  obtain ⟨g, t, hs, -, hshift⟩ := sound_of_reachable h
  unfold doMigrationWork
  cases hq : peakWork s.map.wq with
  | none =>
      have hsame : Touches w w [] := .of_same rfl rfl rfl
      exact ⟨_, _, _, rfl, fun _ hc => hc.1.1 hq, fun _ => ⟨[], .of_inside hsame (by simp)⟩⟩
  | some key =>
      have hv := hw ▸ hs.valid
      obtain ⟨m, w', heq, hframe⟩ :=
        hs.migrate_frame hshift (hv.peek (by rwa [← hs.repr.queue.peakWork])) hq w reply
      simp only [heq, bind, Except.bind, pure, Except.pure]
      exact ⟨_, _, _, rfl, hframe⟩

-- Blocks 0 and 1 are promoted, block 0 is hit, and a third key waits.
def evictRun : List Action :=
  [.lookupMapping [⟨97, nonzero_a⟩] 0, .nested, .peakWork, .startPromotion,
    .completePromotion true, .removeWork, .lookupMapping [⟨97, nonzero_a⟩] 8, .nested, .peakWork,
    .startPromotion, .completePromotion true, .removeWork, .lookupMapping [⟨97, nonzero_a⟩] 0,
    .lookupMapping [⟨97, nonzero_a⟩] 16, .nested]

def evictWorld : World := ⟨512, fun _ => 7, [], fun _ => none, fun _ => none, fun _ => 0⟩

theorem migration_frame_evictRun : ∃ (s : State) (m : Mapping) (w' : World) (worked : Bool),
    s.worker = .idle ∧
    doMigrationWork s.map evictWorld ⟨true, .full, .failed, none⟩ = .ok (m, w', worked) ∧
    ∃ ranges, Framed s.map evictWorld w' ranges := by
  obtain ⟨s, hs, hw⟩ := boot_run (by decide) (by decide) (by simp [evictRun])
    (show _ = true from (by decide +kernel : ((interleaving 512 2).run (State.boot 512 2)
      evictRun).any (fun s => s.worker == .idle) = true))
  have hidle : s.worker = .idle := by simpa using hw
  obtain ⟨m, w', worked, heq, hframe⟩ :=
    migration_frame hs hidle evictWorld ⟨true, .full, .failed, none⟩
  exact ⟨s, m, w', worked, hidle, heq, hframe.mpr (by simp)⟩

-- Block 1 is demoted and block 0, which is mapped, is deallocated.
theorem demotion_trims_other : ∃ (s : State) (m m' : Mapping) (w' : World) (worked : Bool),
    (interleaving 512 2).Reachable Settled s ∧ s.worker = .idle ∧ chosenBlock s.map = some 1 ∧
    find s.map [⟨97, nonzero_a⟩] 0 = .ok (m', some 0) ∧
    doMigrationWork s.map evictWorld ⟨true, .full, .done, some fun _ => 0⟩ = .ok (m, w', worked) ∧
    w'.touched = [(0, 64)] ∧ w'.ssd 0 ≠ evictWorld.ssd 0 := by
  have hrun : ((interleaving 512 2).run (State.boot 512 2) evictRun).any (fun s =>
      s.worker == .idle && chosenBlock s.map == some 1 &&
      (find s.map [⟨97, nonzero_a⟩] 0).toOption.any (fun r => r.2 == some 0) &&
      (doMigrationWork s.map evictWorld ⟨true, .full, .done, some fun _ => 0⟩).toOption.any
        (fun r => r.2.1.touched == [(0, 64)] && r.2.1.ssd 0 == 0)) = true := by
    decide +kernel
  obtain ⟨s, hs, hp⟩ := boot_run (by decide) (by decide) (by simp [evictRun]) hrun
  simp only [Bool.and_eq_true, beq_iff_eq] at hp
  obtain ⟨⟨⟨hw, hc⟩, hfind⟩, hwork⟩ := hp
  cases hf : find s.map [⟨97, nonzero_a⟩] 0 with
  | error fault => simp [hf, Except.toOption] at hfind
  | ok r =>
      cases hd : doMigrationWork s.map evictWorld ⟨true, .full, .done, some fun _ => 0⟩ with
      | error fault => simp [hd, Except.toOption] at hwork
      | ok r' =>
          obtain ⟨m', e⟩ := r
          obtain ⟨m, w', worked⟩ := r'
          simp only [hf, hd, Except.toOption, Option.any_some, Bool.and_eq_true, beq_iff_eq]
            at hfind hwork
          subst hfind
          refine ⟨s, m, m', w', worked, hs, hw, hc, hf, hd, hwork.1, ?_⟩
          rw [hwork.2]
          decide

end UserPageCache.SsdCache
