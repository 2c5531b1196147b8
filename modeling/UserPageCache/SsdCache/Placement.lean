import UserPageCache.SsdCache.Sequential

namespace UserPageCache.SsdCache

open Bytes

-- What init_ssd_cache computes from the block size of the device, and no call changes.
structure Configured (cache : Cache) (w : World) (blockSize : Nat) : Prop where
  power : ∃ e, 9 ≤ e ∧ e ≤ 12 ∧ blockSize = 2 ^ e
  cblock : cache.map.blockPerCblockShift = log2 (CACHE_BLOCK_SIZE / blockSize)
  page : cache.devBlockPerPageShift = log2 (PAGE_SIZE / blockSize)
  sector : w.sectorSize = blockSize

variable {cache : Cache} {w : World} {blockSize c k : Nat} {pio : Pio}

theorem Session.Booted.configured {s : Session} {cblockNum : Nat} (h : s.Booted blockSize cblockNum) :
    Configured s.cache s.world blockSize := by
  have hmap := h.map
  unfold initMapping at hmap
  split at hmap
  · simp at hmap
  · exact ⟨h.power, by rw [← Option.some.inj hmap], h.shift, h.sector⟩

-- A page is 2 ^ k blocks and a cache block eight times as many.
theorem Configured.shifts (h : Configured cache w blockSize) : ∃ k ≤ 3,
    w.sectorSize * 2 ^ k = PAGE_SIZE ∧ cache.map.blockPerCblockShift = k + 3 ∧
      cache.devBlockPerPageShift = k := by
  obtain ⟨e, hlow, hhigh, he⟩ := h.power
  have hpage : PAGE_SIZE / 2 ^ e = 2 ^ (12 - e) := Nat.pow_div hhigh (by decide)
  have hblock : CACHE_BLOCK_SIZE / 2 ^ e = 2 ^ (15 - e) := Nat.pow_div (by omega) (by decide)
  refine ⟨12 - e, by omega, ?_, ?_, ?_⟩
  · rw [h.sector, he, ← Nat.pow_add, Nat.add_sub_of_le hhigh]
    rfl
  · rw [h.cblock, he, hblock, log2, Nat.log2_two_pow]
    omega
  · rw [h.page, he, hpage, log2, Nat.log2_two_pow]

section Blocks

-- Blocks and pages are counted in units of 2 ^ k, and none of the sums reaches 32 bits.
theorem cblockStart_exact (hk : k ≤ 3) (hs : cache.map.blockPerCblockShift = k + 3)
    (hc : c < CACHE_BLOCK_NUMBER) : cblockStart cache.map c = c * 2 ^ (k + 3) ∧
      (c + 1) * 2 ^ (k + 3) < 2 ^ 32 := by
  have hpow : 2 ^ (k + 3) ≤ 2 ^ 6 := Nat.pow_le_pow_right (by decide) (by omega)
  have hbound : (c + 1) * 2 ^ (k + 3) < 2 ^ 32 := by
    calc (c + 1) * 2 ^ (k + 3) ≤ 2 ^ 15 * 2 ^ 6 := Nat.mul_le_mul hc hpow
      _ < 2 ^ 32 := by decide
  refine ⟨?_, hbound⟩
  have hle : c * 2 ^ (k + 3) ≤ (c + 1) * 2 ^ (k + 3) := Nat.mul_le_mul_right _ (Nat.le_succ c)
  rw [cblockStart, hs, u32_of_lt (by omega)]

theorem targetBlock_exact (hk : k ≤ 3) (hs : cache.map.blockPerCblockShift = k + 3)
    (hp : cache.devBlockPerPageShift = k) (hc : c < CACHE_BLOCK_NUMBER) (pio : Pio) :
    targetBlock cache pio c = (c * 8 + pio.pageIndex % 8) * 2 ^ k := by
  have hpow : 2 ^ k ≤ 2 ^ 3 := Nat.pow_le_pow_right (by decide) hk
  have hmod : pio.pageIndex % (MOD_PAGE_PER_CBLOCK_SHIFT + 1) = pio.pageIndex % 8 := rfl
  have hsecond : pio.pageIndex % 8 * 2 ^ k ≤ 7 * 2 ^ 3 := Nat.mul_le_mul (by omega) hpow
  obtain ⟨-, hbound⟩ := cblockStart_exact hk hs hc
  have hfirst : c * 2 ^ (k + 3) ≤ 2 ^ 15 * 2 ^ 6 := by
    simp only [CACHE_BLOCK_NUMBER] at hc
    exact Nat.mul_le_mul (Nat.le_of_lt hc) (Nat.pow_le_pow_right (by decide) (by omega))
  rw [targetBlock, hs, hp, hmod, u32_of_lt (show c * 2 ^ (k + 3) < 2 ^ 32 by omega),
    u32_of_lt (show pio.pageIndex % 8 * 2 ^ k < 2 ^ 32 by omega), u32_of_lt (by omega), Nat.add_mul,
    Nat.pow_add, Nat.mul_assoc, Nat.mul_comm (2 ^ k)]

-- In bytes a page lies at its place in the block.
theorem targetBlock_bytes (hk : k ≤ 3) (hsize : w.sectorSize * 2 ^ k = PAGE_SIZE)
    (hs : cache.map.blockPerCblockShift = k + 3) (hp : cache.devBlockPerPageShift = k)
    (hc : c < CACHE_BLOCK_NUMBER) (pio : Pio) : targetBlock cache pio c * w.sectorSize =
      cblockStart cache.map c * w.sectorSize + pio.pageIndex % 8 * PAGE_SIZE := by
  have hblock : c * 2 ^ (k + 3) = c * 8 * 2 ^ k := by
    rw [Nat.pow_add, Nat.mul_comm (2 ^ k), Nat.mul_assoc]
  rw [targetBlock_exact hk hs hp hc, (cblockStart_exact hk hs hc).1, hblock, Nat.add_mul,
    Nat.add_mul, ← hsize, Nat.mul_comm w.sectorSize, ← Nat.mul_assoc (pio.pageIndex % 8)]

-- Two different units of a size do not overlap.
theorem unit_apart {a b u : Nat} (h : a ≠ b) : a * u + u ≤ b * u ∨ b * u + u ≤ a * u := by
  rw [← Nat.succ_mul, ← Nat.succ_mul]
  rcases Nat.lt_or_gt_of_ne h with hlt | hlt
  · exact .inl (Nat.mul_le_mul_right u hlt)
  · exact .inr (Nat.mul_le_mul_right u hlt)

theorem targetBlock_apart {pio' : Pio} {c' : Nat} (hk : k ≤ 3)
    (hs : cache.map.blockPerCblockShift = k + 3) (hp : cache.devBlockPerPageShift = k)
    (hc : c < CACHE_BLOCK_NUMBER) (hc' : c' < CACHE_BLOCK_NUMBER)
    (hne : (c, pio.pageIndex % 8) ≠ (c', pio'.pageIndex % 8)) :
    targetBlock cache pio c + 2 ^ k ≤ targetBlock cache pio' c' ∨
      targetBlock cache pio' c' + 2 ^ k ≤ targetBlock cache pio c := by
  rw [targetBlock_exact hk hs hp hc, targetBlock_exact hk hs hp hc']
  apply unit_apart
  intro he
  apply hne
  obtain ⟨rfl, hpage⟩ : c = c' ∧ pio.pageIndex % 8 = pio'.pageIndex % 8 := by omega
  rw [hpage]

theorem checkPio_iff : checkPio pio = true ↔ pio.pioCnt ≤ 8 - pio.pageIndex % 8 := by
  simp [checkPio]

end Blocks

-- Where the blocks of a request for cache block `c` lie: within the range that migrations
-- move, at the page's place in it, apart from the other pages and on the device.
structure Placed (cache : Cache) (w : World) (pio : Pio) (c : Nat) : Prop where
  start : cblockStart cache.map c = c * 2 ^ cache.map.blockPerCblockShift
  target : targetBlock cache pio c = c * 2 ^ cache.map.blockPerCblockShift +
    pio.pageIndex % 8 * 2 ^ cache.devBlockPerPageShift
  small : (c + 1) * 2 ^ cache.map.blockPerCblockShift < 2 ^ 32 ∧
    pio.pioCnt * 2 ^ cache.devBlockPerPageShift < 2 ^ 32
  first : cblockStart cache.map c ≤ targetBlock cache pio c
  last : targetBlock cache pio c + pio.pioCnt * 2 ^ cache.devBlockPerPageShift ≤
    (c + 1) * 2 ^ cache.map.blockPerCblockShift
  pages : pio.pioCnt * 2 ^ cache.devBlockPerPageShift * w.sectorSize = pio.pioCnt * PAGE_SIZE
  device : (c + 1) * 2 ^ cache.map.blockPerCblockShift * w.sectorSize ≤
    CACHE_BLOCK_NUMBER * CACHE_BLOCK_SIZE
  promoted : ∀ path file, w.files path = some file →
    fileOffset (toCachePageIndex pio.pageIndex) + CACHE_BLOCK_SIZE ≤ file.length →
    ∀ i < pio.pioCnt * PAGE_SIZE,
      (mgStart cache.map w .success (some path) (toCachePageIndex pio.pageIndex) c
        .promotion).1.ssd (targetBlock cache pio c * w.sectorSize + i) =
      file.data (fileOffset (toCachePageIndex pio.pageIndex) +
        (pio.pageIndex % 8 * PAGE_SIZE + i))
  apart : ∀ (pio' : Pio), ∀ c' < CACHE_BLOCK_NUMBER,
    (c, pio.pageIndex % 8) ≠ (c', pio'.pageIndex % 8) →
    targetBlock cache pio c + 2 ^ cache.devBlockPerPageShift ≤ targetBlock cache pio' c' ∨
      targetBlock cache pio' c' + 2 ^ cache.devBlockPerPageShift ≤ targetBlock cache pio c

-- The worker's buffer goes to the SSD byte by byte, and the file to the buffer.
theorem promotion_byte {m : Mapping} {path : CString} {file : File} {index i : Nat}
    (hf : w.files path = some file) (hlen : fileOffset index + CACHE_BLOCK_SIZE ≤ file.length)
    (hm : 2 ^ m.blockPerCblockShift * w.sectorSize = CACHE_BLOCK_SIZE) (hi : i < CACHE_BLOCK_SIZE) :
    (mgStart m w .success (some path) index c .promotion).1.ssd
      (cblockStart m c * w.sectorSize + i) = file.data (fileOffset index + i) := by
  have hroom : min CACHE_BLOCK_SIZE (file.length - fileOffset index) = CACHE_BLOCK_SIZE := by omega
  simp only [mgStart, Option.bind_some, loadFile_eq hf, hroom, storeCblock_success, writeSsd]
  unfold Bytes.write
  rw [if_pos (by omega), Nat.add_sub_cancel_left, if_pos (by omega), Nat.sub_zero]

theorem ssd_layout (h : Configured cache w blockSize) (hc : c < CACHE_BLOCK_NUMBER)
    (hp : checkPio pio = true) : Placed cache w pio c := by
  obtain ⟨k, hk, hsize, hs, hd⟩ := h.shifts
  obtain ⟨hstart, hbound⟩ := cblockStart_exact hk hs hc
  have htarget := targetBlock_exact hk hs hd hc
  have hfits := checkPio_iff.mp hp
  have hcnt : pio.pioCnt ≤ 8 := by omega
  have hpow : 2 ^ k ≤ 2 ^ 3 := Nat.pow_le_pow_right (by decide) hk
  have hblock : ∀ n, n * 2 ^ (k + 3) = n * 8 * 2 ^ k := fun n => by
    rw [Nat.pow_add, Nat.mul_comm (2 ^ k), Nat.mul_assoc]
  have hcblock : 2 ^ cache.map.blockPerCblockShift * w.sectorSize = CACHE_BLOCK_SIZE := by
    rw [hs, Nat.pow_add, Nat.mul_comm (2 ^ k), Nat.mul_assoc, Nat.mul_comm (2 ^ k), hsize]
    rfl
  have hlow : c * 8 * 2 ^ k ≤ (c * 8 + pio.pageIndex % 8) * 2 ^ k := Nat.mul_le_mul_right _ (by omega)
  have hhigh : (c * 8 + pio.pageIndex % 8 + pio.pioCnt) * 2 ^ k ≤ (c + 1) * 8 * 2 ^ k :=
    Nat.mul_le_mul_right _ (by omega)
  constructor
  · rw [hs, hstart]
  · rw [htarget, hs, hd, hblock, Nat.add_mul]
  · refine ⟨by rw [hs]; exact hbound, ?_⟩
    rw [hd]
    calc pio.pioCnt * 2 ^ k ≤ 8 * 2 ^ 3 := Nat.mul_le_mul hcnt hpow
      _ < 2 ^ 32 := by decide
  · rw [hstart, htarget, hblock]
    exact hlow
  · rw [htarget, hs, hd, hblock, ← Nat.add_mul]
    exact hhigh
  · rw [hd, Nat.mul_assoc, Nat.mul_comm (2 ^ k), hsize]
  · rw [Nat.mul_assoc, hcblock]
    exact Nat.mul_le_mul_right _ hc
  · intro path file hf hlen i hi
    have hroom : pio.pageIndex % 8 * PAGE_SIZE + i < CACHE_BLOCK_SIZE := by
      have hle := Nat.mul_le_mul_right PAGE_SIZE (show pio.pageIndex % 8 + pio.pioCnt ≤ 8 by omega)
      rw [Nat.add_mul] at hle
      exact (Nat.add_lt_add_left hi _).trans_le hle
    rw [targetBlock_bytes hk hsize hs hd hc, Nat.add_assoc]
    exact promotion_byte hf hlen hcblock hroom
  · intro pio' c' hc' hne
    rw [hd]
    exact targetBlock_apart hk hs hd hc hc' hne

-- The last pages of the last block.
theorem ssd_layout_last : Placed Session.boot.cache Session.boot.world
    (pageRequest 6 .write (List.replicate 2 fun _ => 1)) (2 ^ 15 - 1) :=
  ssd_layout Session.boot_booted.configured (by decide) (by decide)

end UserPageCache.SsdCache
