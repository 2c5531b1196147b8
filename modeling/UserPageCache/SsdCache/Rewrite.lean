import Mathlib.Data.Finset.Lattice.Fold
import Mathlib.Data.Finset.Range
import Mathlib.Order.Lattice.Nat
import UserPageCache.SsdCache.Sequential

namespace UserPageCache.SsdCache

open Bytes

-- A request for pages of the key's block that check_pio lets through.
structure Pio.Onto (pio : Pio) (key : Work) : Prop where
  key : pio.key = key
  checked : checkPio pio = true
  chained : pio.buffers.length = pio.pioCnt

-- The pages of a block that a request leaves behind, over those that were there.
def Pio.over (pages : Nat → Option Page) (pio : Pio) (j : Nat) : Option Page :=
  if pio.pageIndex % 8 ≤ j then (pio.buffers[j - pio.pageIndex % 8]?).or (pages j) else pages j

def written (pios : List Pio) : Nat → Option Page := pios.foldl Pio.over fun _ => none

section Scenario

variable (reply : Replies) (cblock : Nat)

-- The requests one after the other, until one fails.
def writeAll : Cache → World → List Pio → Except Fault (Option (Cache × World))
  | cache, w, [] => .ok (some (cache, w))
  | cache, w, pio :: rest => do
    match ← writeCache cache w reply pio cblock with
    | (cache, w, 0) => writeAll cache w rest
    | _ => return none

-- A block is promoted, written to and written back.
def rewriteBlock (cache : Cache) (w : World) (key : Work) (pios : List Pio) :
    Except Fault (Option World) := do
  let (w, promoted) := mgStart cache.map w reply (some key.fullPathName) key.cachePageIndex cblock
    .promotion
  if !promoted then return none
  match ← writeAll reply cblock cache w pios with
  | none => return none
  | some (cache, w) =>
    let (w, success) := mgStart cache.map w reply (some key.fullPathName) key.cachePageIndex cblock
      .writeback
    return if success then some w else none

end Scenario

section Bytes

theorem eq_chunk (data : Nat → UInt8) (i : Nat) :
    data i = chunk PAGE_SIZE data (i / PAGE_SIZE) ⟨i % PAGE_SIZE, Nat.mod_lt _ (by decide)⟩ := by
  simp only [chunk]
  rw [Nat.div_add_mod']

end Bytes

section Writes

variable {g : Geometry} {key : Work} {c : Nat} {pios : List Pio}

theorem setDirtyAfterWrite_shift (m : Mapping) (b : Nat) (dirty : Bool) :
    (setDirtyAfterWrite m b dirty).blockPerCblockShift = m.blockPerCblockShift := by
  have htail : ∀ m : Mapping, (addTailByFlag m b).blockPerCblockShift = m.blockPerCblockShift := by
    intro m
    unfold addTailByFlag
    split <;> rfl
  have hdel : (delByFlag m b).blockPerCblockShift = m.blockPerCblockShift := by
    unfold delByFlag
    split <;> rfl
  unfold setDirtyAfterWrite
  cases hb : toEntry b with
  | none => rfl
  | some e =>
      obtain ⟨rfl, -⟩ := toEntry_eq_some hb
      simp only
      split
      · rfl
      · split
        · rfl
        · rw [htail]
          exact hdel

theorem foldl_over_lt (hp : ∀ pio ∈ pios, pio.Onto key) {pages : Nat → Option Page} {j : Nat}
    (hpages : (pages j).isSome → j < 8) (hj : (pios.foldl Pio.over pages j).isSome) : j < 8 := by
  induction pios generalizing pages with
  | nil => exact hpages hj
  | cons pio rest ih =>
      refine ih (fun p hm => hp p (List.mem_cons_of_mem _ hm)) (fun hover => ?_) hj
      have honto := hp pio List.mem_cons_self
      have hroom := room_of_checkPio honto.checked
      unfold Pio.over at hover
      split at hover
      · by_cases hin : j - pio.pageIndex % 8 < pio.buffers.length
        · rw [honto.chained] at hin
          omega
        · rw [List.getElem?_eq_none (by omega), Option.none_or] at hover
          exact hpages hover
      · exact hpages hover

theorem written_lt (hp : ∀ pio ∈ pios, pio.Onto key) {j : Nat} (hj : (written pios j).isSome) :
    j < 8 :=
  foldl_over_lt hp (by simp) hj

theorem writeAll_success (hp : ∀ pio ∈ pios, pio.Onto key) (cache : Cache) (w : World)
    (hl : Layout g w.sectorSize cache.devBlockPerPageShift)
    (hm : cache.map.blockPerCblockShift = g.blockPerCblockShift) (hc : c < CACHE_BLOCK_NUMBER)
    {pages : Nat → Option Page} {base : Nat → Page}
    (hpages : ∀ j < 8, ssdPage w c j = (pages j).getD (base j)) :
    ∃ cache' w', writeAll .success c cache w pios = .ok (some (cache', w')) ∧
      cache'.map.blockPerCblockShift = g.blockPerCblockShift ∧
      cache'.devBlockPerPageShift = cache.devBlockPerPageShift ∧
      (∀ j < 8, ssdPage w' c j = (pios.foldl Pio.over pages j).getD (base j)) ∧
      w' = { w with ssd := w'.ssd, touched := w'.touched } := by
  induction pios generalizing cache w pages with
  | nil => exact ⟨cache, w, rfl, hm, rfl, hpages, rfl⟩
  | cons pio rest ih =>
      have honto := hp pio List.mem_cons_self
      obtain ⟨w₁, heq, hw₁, hsame⟩ :=
        writeCache_success cache honto.checked honto.chained hl hm hc
      have hover : ∀ j < 8, ssdPage w₁ c j = (Pio.over pages pio j).getD (base j) := by
        intro j hj
        rw [hw₁ c j hj, hpages j hj]
        unfold Pio.over
        by_cases hlow : pio.pageIndex % 8 ≤ j
        · rw [if_pos ⟨rfl, hlow⟩, if_pos hlow]
          cases pio.buffers[j - pio.pageIndex % 8]? <;> rfl
        · rw [if_neg fun h => hlow h.2, if_neg hlow]
      have hsector : w₁.sectorSize = w.sectorSize := by rw [hsame]
      have hl₁ : Layout g w₁.sectorSize cache.devBlockPerPageShift := hsector ▸ hl
      have hm₁ : (setDirtyAfterWrite cache.map c true).blockPerCblockShift = g.blockPerCblockShift :=
        (setDirtyAfterWrite_shift cache.map c true).trans hm
      obtain ⟨cache', w', hrest, hshift, hdev, hlast, hw'⟩ :=
        ih (fun p hm => hp p (List.mem_cons_of_mem _ hm))
          { cache with map := setDirtyAfterWrite cache.map c true } w₁ hl₁ hm₁ hover
      refine ⟨cache', w', ?_, hshift, hdev, hlast, ?_⟩
      · unfold writeAll
        simp only [heq, bind, Except.bind]
        exact hrest
      · rw [hw', hsame]

-- What the promotion leaves in the migration buffer.
def loaded (buf : Nat → UInt8) (file : File) (k : Nat) : Nat → UInt8 :=
  Bytes.write buf 0 (min CACHE_BLOCK_SIZE (file.length - fileOffset k)) fun i =>
    file.data (fileOffset k + i)

theorem rewriteBlock_success (hp : ∀ pio ∈ pios, pio.Onto key) {cache : Cache} {w : World}
    {file : File} (hl : Layout g w.sectorSize cache.devBlockPerPageShift)
    (hm : cache.map.blockPerCblockShift = g.blockPerCblockShift) (hc : c < CACHE_BLOCK_NUMBER)
    (hf : w.files key.fullPathName = some file) :
    ∃ w' buf, rewriteBlock .success c cache w key pios = .ok (some w') ∧
      w'.files key.fullPathName =
        some (file.write (fileOffset key.cachePageIndex) CACHE_BLOCK_SIZE buf) ∧
      ∀ j < 8, chunk PAGE_SIZE buf j =
        (written pios j).getD (chunk PAGE_SIZE (loaded w.dmaBuf file key.cachePageIndex) j) := by
  have hload : loadFile w .success key.fullPathName key.cachePageIndex =
      some { w with dmaBuf := loaded w.dmaBuf file key.cachePageIndex } := loadFile_eq hf _
  generalize loaded w.dmaBuf file key.cachePageIndex = buf₁ at hload
  let w₁ := writeSsd { w with dmaBuf := buf₁ } (cblockStart cache.map c)
    (2 ^ cache.map.blockPerCblockShift) buf₁
  have hpromote : mgStart cache.map w .success (some key.fullPathName) key.cachePageIndex c
      .promotion = (w₁, true) := by
    simp only [mgStart, Option.bind_some, hload, storeCblock_success]
    rfl
  have hblock : ∀ j < 8, ssdPage w₁ c j =
      ((fun _ => none : Nat → Option Page) j).getD (chunk PAGE_SIZE buf₁ j) := fun j hj => by
    have hpage := ssdPage_block (w := { w with dmaBuf := buf₁ }) hl hm hc hj buf₁ c
    rwa [if_pos rfl] at hpage
  obtain ⟨cache', w₂, hwrites, hm', hdev, hpages, hw₂⟩ := writeAll_success hp cache w₁ hl hm hc hblock
  have hl₂ : Layout g w₂.sectorSize cache'.devBlockPerPageShift := by
    rw [hdev, hw₂]
    exact hl
  obtain ⟨buf, hread, hbuf⟩ := loadCblock_success hl₂ hm' hc
  have hfile : ({ w₂ with dmaBuf := buf } : World).files key.fullPathName = some file := by
    rw [hw₂]
    exact hf
  have hwriteback : mgStart cache'.map w₂ .success (some key.fullPathName) key.cachePageIndex c
      .writeback = (setFile { w₂ with dmaBuf := buf } key.fullPathName
        (file.write (fileOffset key.cachePageIndex) CACHE_BLOCK_SIZE buf), true) := by
    simp only [mgStart, hread, Option.bind_some, storeFile_eq hfile, ite_true]
  refine ⟨setFile { w₂ with dmaBuf := buf } key.fullPathName
    (file.write (fileOffset key.cachePageIndex) CACHE_BLOCK_SIZE buf), buf, ?_, ?_,
    fun j hj => (hbuf j hj).trans (hpages j hj)⟩
  · unfold rewriteBlock
    simp only [hpromote, hwrites, hwriteback, bind, Except.bind, pure, Except.pure, Bool.not_true,
      Bool.false_eq_true, ite_false, ite_true]
  · simp [setFile]

end Writes

-- Byte i of the file lies in a page of block k that was overwritten.
def Overwritten (k : Nat) (pages : Nat → Option Page) (i : Nat) : Prop :=
  ∃ j, (pages j).isSome ∧ i / PAGE_SIZE = k * 8 + j

-- The end of the last page that was overwritten.
def lastEnd (k : Nat) (pages : Nat → Option Page) : Nat :=
  ((Finset.range 8).filter fun j => (pages j).isSome).sup fun j => (k * 8 + j + 1) * PAGE_SIZE

structure Spares (k : Nat) (pages : Nat → Option Page) (file file' : File) : Prop where
  bytes : ∀ i < file.length, ¬Overwritten k pages i → file'.data i = file.data i
  length : file'.length = max file.length (lastEnd k pages)

-- A file that got longer is zero where nothing was written.
def Padded (k : Nat) (pages : Nat → Option Page) (file file' : File) : Prop :=
  ∀ i, file.length ≤ i → i < file'.length → ¬Overwritten k pages i → file'.data i = 0

section File

variable {k : Nat} {pages : Nat → Option Page} {file : File} {old buf : Nat → UInt8}

theorem lastEnd_le (k : Nat) (pages : Nat → Option Page) :
    lastEnd k pages ≤ (k + 1) * CACHE_BLOCK_SIZE := by
  refine Finset.sup_le fun j hj => ?_
  have hlt := Finset.mem_range.mp (Finset.mem_filter.mp hj).1
  simp only [PAGE_SIZE, CACHE_BLOCK_SIZE]
  omega

theorem le_lastEnd {j : Nat} (hj : j < 8) (hp : (pages j).isSome) :
    (k * 8 + j + 1) * PAGE_SIZE ≤ lastEnd k pages :=
  Finset.le_sup (f := fun j => (k * 8 + j + 1) * PAGE_SIZE)
    (Finset.mem_filter.mpr ⟨Finset.mem_range.mpr hj, hp⟩)

theorem lastEnd_lt (h : ¬(pages 7).isSome) : lastEnd k pages < (k + 1) * CACHE_BLOCK_SIZE := by
  have hle : lastEnd k pages ≤ (k * 8 + 7) * PAGE_SIZE := Finset.sup_le fun j hj => by
    obtain ⟨hr, hs⟩ := Finset.mem_filter.mp hj
    have hlt := Finset.mem_range.mp hr
    have hne : j ≠ 7 := fun hj => h (hj ▸ hs)
    exact Nat.mul_le_mul_right _ (by omega)
  simp only [PAGE_SIZE, CACHE_BLOCK_SIZE] at hle ⊢
  omega

theorem buffer_written (hbuf : ∀ j < 8, chunk PAGE_SIZE buf j = (pages j).getD (chunk PAGE_SIZE old j))
    {i : Nat} (hi : i < CACHE_BLOCK_SIZE) :
    (∀ page, pages (i / PAGE_SIZE) = some page →
      buf i = page ⟨i % PAGE_SIZE, Nat.mod_lt _ (by decide)⟩) ∧
    (pages (i / PAGE_SIZE) = none → buf i = old i) := by
  have hj : i / PAGE_SIZE < 8 := by
    simp only [CACHE_BLOCK_SIZE, PAGE_SIZE] at hi ⊢
    omega
  have hchunk := hbuf _ hj
  refine ⟨fun page hp => ?_, fun hp => ?_⟩
  · rw [eq_chunk buf i, hchunk, hp, Option.getD_some]
  · rw [eq_chunk buf i, hchunk, hp, Option.getD_none, ← eq_chunk]

theorem writeBlock_length (file : File) (offset : Nat) (src : Nat → UInt8) :
    (file.write offset CACHE_BLOCK_SIZE src).length = max file.length (offset + CACHE_BLOCK_SIZE) := by
  unfold File.write
  rw [if_neg (by decide)]

theorem writeBlock_inside (file : File) {offset i : Nat} (src : Nat → UInt8) (hlow : offset ≤ i)
    (hhigh : i < offset + CACHE_BLOCK_SIZE) :
    (file.write offset CACHE_BLOCK_SIZE src).data i = src (i - offset) :=
  if_pos ⟨hlow, hhigh⟩

theorem writeBlock_outside (file : File) {offset i : Nat} (src : Nat → UInt8) (hi : i < file.length)
    (h : ¬(offset ≤ i ∧ i < offset + CACHE_BLOCK_SIZE)) :
    (file.write offset CACHE_BLOCK_SIZE src).data i = file.data i :=
  (if_neg h).trans (if_pos hi)

theorem loaded_inside {i : Nat} (hi : i < CACHE_BLOCK_SIZE) (hlen : fileOffset k + i < file.length) :
    loaded old file k i = file.data (fileOffset k + i) := by
  unfold loaded Bytes.write
  rw [if_pos (by omega), Nat.sub_zero]

theorem loaded_beyond {i : Nat} (hlen : file.length ≤ fileOffset k + i) :
    loaded old file k i = old i := by
  unfold loaded Bytes.write
  rw [if_neg (by omega)]

section Near

theorem fileOffset_near (hk : k < 2 ^ 17) : fileOffset k = k * CACHE_BLOCK_SIZE := by
  rw [fileOffset_mod, Nat.mod_eq_of_lt hk]

theorem page_none {i : Nat} (hlow : k * CACHE_BLOCK_SIZE ≤ i) (h : ¬Overwritten k pages i) :
    pages ((i - k * CACHE_BLOCK_SIZE) / PAGE_SIZE) = none := by
  by_contra hp
  refine h ⟨_, Option.isSome_iff_ne_none.mpr hp, ?_⟩
  simp only [CACHE_BLOCK_SIZE, PAGE_SIZE] at hlow ⊢
  omega

theorem near_bytes (hk : k < 2 ^ 17)
    (hbuf : ∀ j < 8, chunk PAGE_SIZE buf j = (pages j).getD (chunk PAGE_SIZE (loaded old file k) j))
    {i : Nat} (hi : i < file.length) (h : ¬Overwritten k pages i) :
    (file.write (fileOffset k) CACHE_BLOCK_SIZE buf).data i = file.data i := by
  have hoff := fileOffset_near hk
  by_cases hin : fileOffset k ≤ i ∧ i < fileOffset k + CACHE_BLOCK_SIZE
  · obtain ⟨hlow, hhigh⟩ := hin
    have hnone : pages ((i - fileOffset k) / PAGE_SIZE) = none := by
      rw [hoff] at hlow ⊢
      exact page_none hlow h
    rw [writeBlock_inside file buf hlow hhigh, (buffer_written hbuf (by omega)).2 hnone,
      loaded_inside (by omega) (by omega), Nat.add_sub_cancel' hlow]
  · exact writeBlock_outside file buf hi hin

theorem near_padded (hk : k < 2 ^ 17)
    (hbuf : ∀ j < 8, chunk PAGE_SIZE buf j = (pages j).getD (chunk PAGE_SIZE (loaded old file k) j))
    (hblock : k * CACHE_BLOCK_SIZE < file.length) :
    Padded k pages file (file.write (fileOffset k) CACHE_BLOCK_SIZE buf) ↔
      ∀ i, file.length ≤ i → i < (k + 1) * CACHE_BLOCK_SIZE → ¬Overwritten k pages i →
        old (i - k * CACHE_BLOCK_SIZE) = 0 := by
  have hoff := fileOffset_near hk
  have hdata : ∀ i, file.length ≤ i → i < (k + 1) * CACHE_BLOCK_SIZE → ¬Overwritten k pages i →
      (file.write (fileOffset k) CACHE_BLOCK_SIZE buf).data i = old (i - k * CACHE_BLOCK_SIZE) := by
    intro i hlen hi h
    rw [Nat.succ_mul] at hi
    have hnone := page_none (by omega) h
    rw [writeBlock_inside file buf (by omega) (by omega), hoff,
      (buffer_written hbuf (by omega)).2 hnone, loaded_beyond (by omega)]
  have hend : ∀ i, file.length ≤ i →
      (i < (file.write (fileOffset k) CACHE_BLOCK_SIZE buf).length ↔
        i < (k + 1) * CACHE_BLOCK_SIZE) := by
    intro i hlen
    rw [writeBlock_length, hoff, Nat.succ_mul]
    omega
  constructor
  · intro hp i hlen hi h
    rw [← hdata i hlen hi h]
    exact hp i hlen ((hend i hlen).mpr hi) h
  · intro hz i hlen hi h
    have hi := (hend i hlen).mp hi
    rw [hdata i hlen hi h]
    exact hz i hlen hi h

theorem near_length (file : File) (pages : Nat → Option Page) (buf : Nat → UInt8)
    (hk : k < 2 ^ 17) :
    (file.write (fileOffset k) CACHE_BLOCK_SIZE buf).length = max file.length (lastEnd k pages) ↔
      (k + 1) * CACHE_BLOCK_SIZE ≤ file.length ∨ (pages 7).isSome := by
  have hend : k * CACHE_BLOCK_SIZE + CACHE_BLOCK_SIZE = (k + 1) * CACHE_BLOCK_SIZE :=
    (Nat.succ_mul _ _).symm
  have hle := lastEnd_le k pages
  rw [writeBlock_length, fileOffset_near hk, hend]
  constructor
  · intro h
    by_contra hc
    have hlt := lastEnd_lt (k := k) fun h7 => hc (.inr h7)
    omega
  · rintro (hin | h7)
    · omega
    · have hge := le_lastEnd (k := k) (by decide) h7
      simp only [CACHE_BLOCK_SIZE, PAGE_SIZE] at hle hge ⊢
      omega

end Near

-- From 4 GiB on the block is loaded from, and stored to, one that lies before it.
section Far

theorem fileOffset_far (hk : 2 ^ 17 ≤ k) (hblock : k * CACHE_BLOCK_SIZE < file.length) :
    fileOffset k + CACHE_BLOCK_SIZE ≤ file.length := by
  rw [fileOffset_mod]
  simp only [CACHE_BLOCK_SIZE] at hblock ⊢
  omega

theorem far_length (buf : Nat → UInt8) (hk : 2 ^ 17 ≤ k) (hblock : k * CACHE_BLOCK_SIZE < file.length) :
    (file.write (fileOffset k) CACHE_BLOCK_SIZE buf).length = file.length := by
  rw [writeBlock_length, Nat.max_eq_left (fileOffset_far hk hblock)]

theorem far_not_overwritten (hk : 2 ^ 17 ≤ k) {i : Nat} (hlow : fileOffset k ≤ i)
    (hhigh : i < fileOffset k + CACHE_BLOCK_SIZE) : ¬Overwritten k pages i := by
  rintro ⟨j, -, hj⟩
  rw [fileOffset_mod] at hlow hhigh
  simp only [CACHE_BLOCK_SIZE, PAGE_SIZE] at hlow hhigh hj
  omega

theorem far_bytes (hk : 2 ^ 17 ≤ k) (hblock : k * CACHE_BLOCK_SIZE < file.length)
    (hlt : ∀ j, (pages j).isSome → j < 8)
    (hbuf : ∀ j < 8, chunk PAGE_SIZE buf j = (pages j).getD (chunk PAGE_SIZE (loaded old file k) j)) :
    (∀ i < file.length, ¬Overwritten k pages i →
        (file.write (fileOffset k) CACHE_BLOCK_SIZE buf).data i = file.data i) ↔
      ∀ j page, pages j = some page → chunk PAGE_SIZE file.data (k % 2 ^ 17 * 8 + j) = page := by
  have hroom := fileOffset_far hk hblock
  have hoff : fileOffset k = k % 2 ^ 17 * 8 * PAGE_SIZE := by
    rw [fileOffset_mod, Nat.mul_assoc]
    rfl
  have hin : ∀ j < 8, ∀ x < PAGE_SIZE, j * PAGE_SIZE + x < CACHE_BLOCK_SIZE := by
    intro j hj x hx
    simp only [PAGE_SIZE, CACHE_BLOCK_SIZE] at hx ⊢
    omega
  constructor
  · intro h j page hp
    have hj := hlt j (by simp [hp])
    funext x
    have hx := hin j hj x x.isLt
    have hkept := h (fileOffset k + (j * PAGE_SIZE + x)) (by omega)
      (far_not_overwritten hk (by omega) (by omega))
    rw [writeBlock_inside file buf (by omega) (by omega), Nat.add_sub_cancel_left] at hkept
    have hpage : buf (j * PAGE_SIZE + x) = page x := by
      have hchunk := congrFun (hbuf j hj) x
      rwa [hp, Option.getD_some] at hchunk
    rw [← hpage, hkept, hoff]
    simp only [chunk, Nat.add_mul, Nat.add_assoc]
  · intro h i hi _
    by_cases hblk : fileOffset k ≤ i ∧ i < fileOffset k + CACHE_BLOCK_SIZE
    · obtain ⟨hlow, hhigh⟩ := hblk
      obtain ⟨n, rfl⟩ := Nat.exists_eq_add_of_le hlow
      have hn : n < CACHE_BLOCK_SIZE := by omega
      rw [writeBlock_inside file buf hlow hhigh, Nat.add_sub_cancel_left]
      obtain ⟨hsome, hnone⟩ := buffer_written hbuf hn
      cases hp : pages (n / PAGE_SIZE) with
      | none => rw [hnone hp, loaded_inside hn hi]
      | some page =>
          rw [hsome page hp, ← h _ page hp]
          simp only [chunk]
          congr 1
          rw [hoff, Nat.add_mul, Nat.add_assoc, Nat.div_add_mod']
    · exact writeBlock_outside file buf hi hblk

end Far

end File

-- The block lies below 4 GiB, and within the file or with its last page overwritten; or it
-- lies above, and what was written to it is what the block that stands in for it holds.
def Contained (k : Nat) (pages : Nat → Option Page) (file : File) : Prop :=
  k < 2 ^ 17 ∧ ((k + 1) * CACHE_BLOCK_SIZE ≤ file.length ∨ (pages 7).isSome) ∨
  2 ^ 17 ≤ k ∧ lastEnd k pages ≤ file.length ∧
    ∀ j page, pages j = some page → chunk PAGE_SIZE file.data (k % 2 ^ 17 * 8 + j) = page

-- The bytes beyond the old end that nobody wrote come from the migration buffer.
def BlankTail (k : Nat) (pages : Nat → Option Page) (file : File) (buf : Nat → UInt8) : Prop :=
  k < 2 ^ 17 → ∀ i, file.length ≤ i → i < (k + 1) * CACHE_BLOCK_SIZE → ¬Overwritten k pages i →
    buf (i - k * CACHE_BLOCK_SIZE) = 0

section Rewrite

variable {cache : Cache} {w : World} {key : Work} {c : Nat} {file : File}

-- Exactly when the writeback changes no more than what was written.
theorem rewrite_spares (pios : List Pio)
    (hl : Layout (geometryOf cache.map) w.sectorSize cache.devBlockPerPageShift)
    (hc : c < CACHE_BLOCK_NUMBER) (hf : w.files key.fullPathName = some file)
    (hblock : key.cachePageIndex * CACHE_BLOCK_SIZE < file.length)
    (hp : ∀ pio ∈ pios, pio.Onto key) :
    ∃ w' file', rewriteBlock .success c cache w key pios = .ok (some w') ∧
      w'.files key.fullPathName = some file' ∧
      (Spares key.cachePageIndex (written pios) file file' ↔
        Contained key.cachePageIndex (written pios) file) ∧
      (Padded key.cachePageIndex (written pios) file file' ↔
        BlankTail key.cachePageIndex (written pios) file w.dmaBuf) := by
  obtain ⟨w', buf, heq, hfile, hbuf⟩ := rewriteBlock_success hp hl rfl hc hf
  have hlt : ∀ j, (written pios j).isSome → j < 8 := fun j hj => written_lt hp hj
  refine ⟨w', _, heq, hfile, ?_⟩
  generalize key.cachePageIndex = k at *
  by_cases hk : k < 2 ^ 17
  · refine ⟨⟨fun hs => .inl ⟨hk, (near_length _ _ buf hk).mp hs.length⟩, fun hcond => ?_⟩, ?_⟩
    · obtain ⟨-, hend⟩ := hcond.resolve_right fun hfar => absurd hfar.1 (by omega)
      exact ⟨fun i hi h => near_bytes hk hbuf hi h, (near_length _ _ buf hk).mpr hend⟩
    · rw [near_padded hk hbuf hblock]
      exact ⟨fun h _ => h, fun h => h hk⟩
  · have hfar : 2 ^ 17 ≤ k := by omega
    have hbytes := far_bytes hfar hblock hlt hbuf
    have hlen := far_length buf hfar hblock
    refine ⟨⟨fun hs => .inr ⟨hfar, ?_, hbytes.mp hs.bytes⟩, fun hcond => ?_⟩, ?_⟩
    · have hmax := hs.length
      omega
    · obtain ⟨-, hend, hpages⟩ := hcond.resolve_left fun hnear => hk hnear.1
      exact ⟨hbytes.mpr hpages, by omega⟩
    · exact iff_of_true (fun i hi hi' => by omega) fun hnear => absurd hnear hk

end Rewrite

theorem rewrite_spares_boot : ∃ w' file', rewriteBlock .success 0 Session.boot.cache
      Session.boot.world ⟨[⟨97, nonzero_a⟩], 0⟩ [pageRequest 0 .write [fun _ => 1]] =
        .ok (some w') ∧
    w'.files [⟨97, nonzero_a⟩] = some file' ∧
    Spares 0 (written [pageRequest 0 .write [fun _ => 1]]) ⟨2 ^ 15, fun _ => 0⟩ file' := by
  obtain ⟨w', file', heq, hfile, hiff, -⟩ := rewrite_spares (c := 0)
    [pageRequest 0 .write [fun _ => 1]] Session.boot_booted.layout (by decide)
    (show Session.boot.world.files (Work.mk [⟨97, nonzero_a⟩] 0).fullPathName = _ from rfl)
    (by decide) (by simp only [List.mem_singleton, forall_eq]; exact ⟨rfl, rfl, rfl⟩)
  exact ⟨w', file', heq, hfile, hiff.mpr (.inl ⟨by decide, .inl (by decide)⟩)⟩

-- A file of one page and a buffer that other work has filled.
def shortWorld : World :=
  { Session.boot.world with
    files := fun path => if path = [⟨97, nonzero_a⟩] then some ⟨2 ^ 12, fun _ => 0⟩ else none }

-- The one page of the file is overwritten; the file ends as eight pages.
theorem short_file_grows : ∃ w' file', rewriteBlock .success 0 Session.boot.cache shortWorld
      ⟨[⟨97, nonzero_a⟩], 0⟩ [pageRequest 0 .write [fun _ => 1]] = .ok (some w') ∧
    w'.files [⟨97, nonzero_a⟩] = some file' ∧ file'.length = 2 ^ 15 ∧ file'.data (2 ^ 12) = 7 ∧
    ¬Spares 0 (written [pageRequest 0 .write [fun _ => 1]]) ⟨2 ^ 12, fun _ => 0⟩ file' := by
  have hp : ∀ pio ∈ [pageRequest 0 .write [fun _ => 1]], pio.Onto ⟨[⟨97, nonzero_a⟩], 0⟩ := by
    simp only [List.mem_singleton, forall_eq]
    exact ⟨rfl, rfl, rfl⟩
  have hl : Layout (geometryOf Session.boot.cache.map) shortWorld.sectorSize
      Session.boot.cache.devBlockPerPageShift := Session.boot_booted.layout
  obtain ⟨w', buf, heq, hfile, hbuf⟩ := rewriteBlock_success (c := 0) hp hl rfl (by decide)
    (show shortWorld.files (Work.mk [⟨97, nonzero_a⟩] 0).fullPathName = _ from rfl)
  have hlen := (near_length (k := 0) ⟨2 ^ 12, fun _ => 0⟩
    (written [pageRequest 0 .write [fun _ => 1]]) buf (by decide)).not.mpr
  have hgrow : (max (2 ^ 12) (fileOffset 0 + CACHE_BLOCK_SIZE)) = 2 ^ 15 := by decide
  refine ⟨w', _, heq, hfile, (writeBlock_length _ _ _).trans hgrow, ?_, fun hs => ?_⟩
  · have hnone : written [pageRequest 0 .write [fun _ => 1]] (2 ^ 12 / PAGE_SIZE) = none := by
      decide
    rw [writeBlock_inside _ buf (by decide) (by decide),
      (buffer_written hbuf (show 2 ^ 12 - fileOffset 0 < CACHE_BLOCK_SIZE by decide)).2 hnone,
      loaded_beyond (by decide)]
    rfl
  · exact hlen (by decide) hs.length

end UserPageCache.SsdCache
