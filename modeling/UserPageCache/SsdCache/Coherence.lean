import UserPageCache.SsdCache.Migration
import UserPageCache.SsdCache.Target
import UserPageCache.SsdCache.Mapping.Theorems

namespace UserPageCache.SsdCache

open Bytes

-- What each page is promised to hold; of some pages nothing is promised.
abbrev Contents := CString → Nat → Option Page

-- A file keeps the pages that lie within its length.
def fileContents (w : World) : Contents := fun fullPathName i =>
  (w.files fullPathName).bind fun file =>
    if (i + 1) * PAGE_SIZE ≤ file.length then some (chunk PAGE_SIZE file.data i) else none

def ssdPage (w : World) (cblock j : Nat) : Page := chunk PAGE_SIZE w.ssd (cblock * 8 + j)

def Contents.page (spec : Contents) (key : Work) (j : Nat) : Option Page :=
  spec key.fullPathName (key.cachePageIndex * 8 + j)

-- Eight pages hold what is promised of the key's block.
def Contents.Met (spec : Contents) (key : Work) (pages : Nat → Page) : Prop :=
  ∀ j < 8, ∀ page, spec.page key j = some page → pages j = page

-- So does the file.
def Contents.Kept (spec : Contents) (key : Work) (w : World) : Prop :=
  ∀ j < 8, ∀ page, spec.page key j = some page → (fileContents w).page key j = some page

-- A page is 2 ^ k sectors and a cache block is eight pages.
def Layout (g : Geometry) (sectorSize devBlockPerPageShift : Nat) : Prop :=
  ∃ k ≤ 3, sectorSize * 2 ^ k = PAGE_SIZE ∧ g.blockPerCblockShift = k + 3 ∧
    devBlockPerPageShift = k

-- How far the worker has come with the block it has in flight.
inductive Stage where
  | begun
  | loaded
  | stored
  | failed
deriving DecidableEq

-- A cache block holds what is promised of its key while it can be found, unless it is on
-- its way out; a file does wherever no dirty block stands in for it. Requests are made
-- for `keys` only, whose blocks 32 bits can address.
structure Coherent (g : Geometry) (keys : Work → Prop) (cache : Cache) (w : World)
    (worker : Worker Work) (stage : Stage) (t : Table Work) (spec : Contents) : Prop where
  repr : Repr g cache.map t
  valid : Valid g.cacheBlockNum worker t
  layout : Layout g w.sectorSize cache.devBlockPerPageShift
  addressable : ∀ key, keys key → key.cachePageIndex < 2 ^ 17
  queued : ∀ key ∈ t.queue, keys key
  known : ∀ b ∈ t.hashed, keys (t.slot b).key
  cached : ∀ b ∈ t.hashed, (∀ key, worker ≠ .demoting key b) →
    spec.Met (t.slot b).key (ssdPage w b)
  origin : ∀ key, keys key → (∀ b ∈ t.hashed, (t.slot b).key = key →
    (t.slot b).dirty = false ∧ ∀ work, worker = .writing work b → stage = .stored) →
    spec.Kept key w
  promoting : ∀ key b, worker = .promoting key b →
    (stage = .loaded → spec.Met key (chunk PAGE_SIZE w.dmaBuf)) ∧
    (stage = .stored → spec.Met key (ssdPage w b))
  evicting : ∀ key b, worker = .demoting key b → (t.slot b).dirty = false
  writing : ∀ key b, worker = .writing key b → stage = .loaded → (t.slot b).dirty = false →
    spec.Met (t.slot b).key (chunk PAGE_SIZE w.dmaBuf)

section Addresses

variable {g : Geometry} {m : Mapping} {cache : Cache} {w : World} {dev : Nat}

theorem Layout.of_init {blockSize cblockNum : Nat}
    (he : ∃ e, 9 ≤ e ∧ e ≤ 12 ∧ blockSize = 2 ^ e)
    (hi : initMapping zeroMapping blockSize cblockNum = some m) :
    Layout (geometryOf m) blockSize (log2 (PAGE_SIZE / blockSize)) := by
  obtain ⟨e, hlow, hhigh, rfl⟩ := he
  have hpage : PAGE_SIZE / 2 ^ e = 2 ^ (12 - e) := Nat.pow_div hhigh (by decide)
  have hblock : CACHE_BLOCK_SIZE / 2 ^ e = 2 ^ (15 - e) := Nat.pow_div (by omega) (by decide)
  unfold initMapping at hi
  split at hi
  · simp at hi
  · obtain rfl := Option.some.inj hi
    refine ⟨12 - e, by omega, ?_, ?_, ?_⟩
    · rw [← Nat.pow_add]
      congr 1
      omega
    · simp only [geometryOf, hblock, log2, Nat.log2_two_pow]
      omega
    · simp only [hpage, log2, Nat.log2_two_pow]

-- The LBA range of a cache block is the bytes of its eight pages.
theorem Layout.cblock (hl : Layout g w.sectorSize dev)
    (hm : m.blockPerCblockShift = g.blockPerCblockShift) {c : Nat} (hc : c < CACHE_BLOCK_NUMBER) :
    cblockStart m c * w.sectorSize = c * 8 * PAGE_SIZE ∧
      2 ^ m.blockPerCblockShift * w.sectorSize = 8 * PAGE_SIZE := by
  obtain ⟨k, hk, hs, hg, -⟩ := hl
  have hpow : 2 ^ (k + 3) * w.sectorSize = 8 * PAGE_SIZE := by
    rw [← hs, Nat.pow_add]
    ring
  refine ⟨?_, by rw [hm, hg, hpow]⟩
  have hlt : c * 2 ^ (k + 3) < 2 ^ 32 := by
    have hk6 : 2 ^ (k + 3) ≤ 2 ^ 6 := Nat.pow_le_pow_right (by decide) (by omega)
    simp only [CACHE_BLOCK_NUMBER] at hc
    calc c * 2 ^ (k + 3) ≤ c * 2 ^ 6 := Nat.mul_le_mul_left c hk6
      _ < 2 ^ 32 := by omega
  rw [cblockStart, hm, hg, u32_of_lt hlt, Nat.mul_assoc, hpow, Nat.mul_assoc]

theorem Layout.target (hl : Layout g w.sectorSize cache.devBlockPerPageShift)
    (hm : cache.map.blockPerCblockShift = g.blockPerCblockShift) (pio : Pio) {c : Nat}
    (hc : c < CACHE_BLOCK_NUMBER) :
    targetBlock cache pio c * w.sectorSize = (c * 8 + pio.pageIndex % 8) * PAGE_SIZE ∧
      pio.pioCnt * 2 ^ cache.devBlockPerPageShift * w.sectorSize = pio.pioCnt * PAGE_SIZE := by
  obtain ⟨k, hk, hs, hg, hd⟩ := hl
  have hpow : 2 ^ k * w.sectorSize = PAGE_SIZE := by rw [Nat.mul_comm, hs]
  refine ⟨?_, by rw [hd, Nat.mul_assoc, hpow]⟩
  have hk3 : 2 ^ k ≤ 2 ^ 3 := Nat.pow_le_pow_right (by decide) hk
  have hfirst : c * 2 ^ (k + 3) < 2 ^ 24 := by
    simp only [CACHE_BLOCK_NUMBER] at hc
    calc c * 2 ^ (k + 3) = c * 8 * 2 ^ k := by rw [Nat.pow_add]; ring
      _ ≤ c * 8 * 2 ^ 3 := Nat.mul_le_mul_left _ hk3
      _ < 2 ^ 24 := by omega
  have hsecond : pio.pageIndex % 8 * 2 ^ k < 2 ^ 7 := by
    calc pio.pageIndex % 8 * 2 ^ k ≤ pio.pageIndex % 8 * 2 ^ 3 := Nat.mul_le_mul_left _ hk3
      _ < 2 ^ 7 := by omega
  have hmod : pio.pageIndex % (MOD_PAGE_PER_CBLOCK_SHIFT + 1) = pio.pageIndex % 8 := rfl
  rw [targetBlock, hm, hg, hd, hmod, u32_of_lt (by omega : c * 2 ^ (k + 3) < 2 ^ 32),
    u32_of_lt (by omega : pio.pageIndex % 8 * 2 ^ k < 2 ^ 32), u32_of_lt (by omega), ← hpow,
    Nat.pow_add]
  ring

end Addresses

end UserPageCache.SsdCache
