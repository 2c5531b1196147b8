import UserPageCache.SsdCache.Coherence
import UserPageCache.SsdCache.Interleave

namespace UserPageCache.SsdCache

open Bytes

section Effects

variable {g : Geometry} {m : Mapping} {cache : Cache} {w w' : World} {dev : Nat} {key : Work}

theorem ssdPage_writeSsd {start count p pages : Nat} {src : Nat → UInt8}
    (hs : start * w.sectorSize = p * PAGE_SIZE) (hc : count * w.sectorSize = pages * PAGE_SIZE)
    (b j : Nat) :
    ssdPage (writeSsd w start count src) b j =
      if p ≤ b * 8 + j ∧ b * 8 + j < p + pages then chunk PAGE_SIZE src (b * 8 + j - p)
      else ssdPage w b j := by
  simp only [ssdPage, writeSsd, hs, hc]
  exact chunk_write _ _ _ _ _

theorem ssdPage_block (hl : Layout g w.sectorSize dev)
    (hm : m.blockPerCblockShift = g.blockPerCblockShift) {c j : Nat} (hc : c < CACHE_BLOCK_NUMBER)
    (hj : j < 8) (src : Nat → UInt8) (b : Nat) :
    ssdPage (writeSsd w (cblockStart m c) (2 ^ m.blockPerCblockShift) src) b j =
      if b = c then chunk PAGE_SIZE src j else ssdPage w b j := by
  obtain ⟨hs, hlen⟩ := hl.cblock hm hc
  rw [ssdPage_writeSsd hs hlen]
  by_cases hbc : b = c
  · rw [if_pos (by omega), if_pos hbc, hbc, Nat.add_sub_cancel_left]
  · rw [if_neg (by omega), if_neg hbc]

theorem storeCblock_success (m : Mapping) (w : World) (c : Nat) :
    storeCblock m w .success c =
      (writeSsd w (cblockStart m c) (2 ^ m.blockPerCblockShift) w.dmaBuf, 0) := rfl

theorem loadCblock_success (hl : Layout g w.sectorSize dev)
    (hm : m.blockPerCblockShift = g.blockPerCblockShift) {c : Nat} (hc : c < CACHE_BLOCK_NUMBER) :
    ∃ buf, loadCblock m w .success c = ({ w with dmaBuf := buf }, 0) ∧
      ∀ j < 8, chunk PAGE_SIZE buf j = ssdPage w c j := by
  obtain ⟨hs, hlen⟩ := hl.cblock hm hc
  refine ⟨_, rfl, fun j hj => ?_⟩
  have hzero : Bytes.write w.dmaBuf 0 (8 * PAGE_SIZE) (fun i => w.ssd (c * 8 * PAGE_SIZE + i)) =
      Bytes.write w.dmaBuf (0 * PAGE_SIZE) (8 * PAGE_SIZE)
        (fun i => w.ssd (c * 8 * PAGE_SIZE + i)) := by rw [Nat.zero_mul]
  rw [hs, hlen, hzero, chunk_write, if_pos (by omega)]
  funext i
  simp only [ssdPage, chunk, Nat.sub_zero, Nat.add_mul, Nat.add_assoc]

theorem chunk_shift (data : Nat → UInt8) (p k : Nat) :
    chunk PAGE_SIZE (fun i => data (p * PAGE_SIZE + i)) k = chunk PAGE_SIZE data (p + k) := by
  funext i
  simp only [chunk, Nat.add_mul, Nat.add_assoc]

theorem fill_pages (pages : List Page) (src : Nat → UInt8) :
    fill pages (pages.length * PAGE_SIZE) src =
      (List.range pages.length).map (chunk PAGE_SIZE src) := by
  apply List.ext_getElem
  · simp [fill]
  · intro k hk _
    have hlt : k < pages.length := by simpa [fill] using hk
    simp only [fill, List.getElem_mapIdx, List.getElem_map, List.getElem_range]
    funext j
    have hj := j.isLt
    have hle : k * PAGE_SIZE + j < pages.length * PAGE_SIZE := by
      have hmul := Nat.mul_le_mul_right PAGE_SIZE (Nat.succ_le_of_lt hlt)
      rw [Nat.succ_mul] at hmul
      omega
    rw [if_pos hle]
    rfl

-- The pages of a file that lie within its length and outside of what is written.
theorem chunk_fileWrite (file : File) {p cnt len q : Nat} (src : Nat → UInt8)
    (hlen : len ≤ cnt * PAGE_SIZE) (hq : (q + 1) * PAGE_SIZE ≤ file.length)
    (hout : ¬(p ≤ q ∧ q < p + cnt)) :
    chunk PAGE_SIZE (file.write (p * PAGE_SIZE) len src).data q = chunk PAGE_SIZE file.data q := by
  rw [File.write, chunk_write_outside _ _ hlen hout]
  funext j
  have hj := j.isLt
  have hlt : q * PAGE_SIZE + j < file.length := by
    rw [Nat.succ_mul] at hq
    omega
  simp only [chunk, hlt, ite_true]

-- The offset is a 32-bit shift, so blocks that lie 4 GiB apart have the same.
theorem fileOffset_mod (k : Nat) : fileOffset k = k % 2 ^ 17 * CACHE_BLOCK_SIZE := by
  simp only [fileOffset, CBLOCK_SHIFT, CACHE_BLOCK_SIZE, u32]
  omega

theorem fileOffset_eq (hk : key.cachePageIndex < 2 ^ 17) :
    fileOffset key.cachePageIndex = key.cachePageIndex * 8 * PAGE_SIZE := by
  have hsize : CACHE_BLOCK_SIZE = 8 * PAGE_SIZE := rfl
  rw [fileOffset_mod, Nat.mod_eq_of_lt hk, hsize, Nat.mul_assoc]

-- What no call takes away.
structure Keeps (w w' : World) : Prop where
  sector : w'.sectorSize = w.sectorSize
  descriptors : w'.descriptors = w.descriptors
  files : ∀ path, (w.files path).isSome → (w'.files path).isSome

theorem Keeps.refl (w : World) : Keeps w w := ⟨rfl, rfl, fun _ h => h⟩

theorem Keeps.trans {w'' : World} (h : Keeps w w') (h' : Keeps w' w'') : Keeps w w'' :=
  ⟨h'.sector.trans h.sector, h'.descriptors.trans h.descriptors,
    fun path hp => h'.files path (h.files path hp)⟩

theorem keeps_of_files (hs : w'.sectorSize = w.sectorSize) (hd : w'.descriptors = w.descriptors)
    (hf : w'.files = w.files) : Keeps w w' :=
  ⟨hs, hd, fun _ hp => by rwa [hf]⟩

theorem keeps_setFile (w : World) (path : CString) (file : File) : Keeps w (setFile w path file) := by
  refine ⟨rfl, rfl, fun p hp => ?_⟩
  by_cases hpp : p = path <;> simp [setFile, hpp, hp]

theorem fileContents_files (hf : w'.files = w.files) : fileContents w' = fileContents w := by
  unfold fileContents
  rw [hf]

theorem openFile_some {path : CString} {file : File} (hf : w.files path = some file) (creat : Bool) :
    openFile w .success path creat = some w := by
  simp [openFile, Replies.success, hf]

theorem openFile_creat {path : CString} (hf : w.files path = none) :
    openFile w .success path true = some (setFile w path newFile) := by
  simp [openFile, Replies.success, hf]

-- An empty file keeps no page.
theorem fileContents_newFile {path : CString} (hf : w.files path = none) :
    fileContents (setFile w path newFile) = fileContents w := by
  funext p i
  by_cases hp : p = path
  · have hpos : 0 < (i + 1) * PAGE_SIZE := Nat.mul_pos (by omega) (by decide)
    have hlong : ¬(i + 1) * PAGE_SIZE ≤ 0 := by omega
    simp [fileContents, setFile, hp, hf, newFile, hlong]
  · simp [fileContents, setFile, hp]

theorem page_of_length {path : CString} {file : File} {i : Nat} {page : Page}
    (hf : w.files path = some file) (h : fileContents w path i = some page) :
    (i + 1) * PAGE_SIZE ≤ file.length ∧ chunk PAGE_SIZE file.data i = page := by
  simp only [fileContents, hf, Option.bind_some] at h
  split at h
  · exact ⟨‹_›, Option.some.inj h⟩
  · simp at h

-- The first bytes of a buffer, seen as its first pages.
theorem chunk_first (data src : Nat → UInt8) {len j : Nat} (h : (j + 1) * PAGE_SIZE ≤ len) :
    chunk PAGE_SIZE (Bytes.write data 0 len src) j = chunk PAGE_SIZE src j := by
  funext i
  have hi := i.isLt
  rw [Nat.succ_mul] at h
  unfold chunk Bytes.write
  rw [if_pos (by omega), Nat.sub_zero]

-- The bytes of a block that lie in the file replace the front of the buffer.
theorem loadFile_eq {path : CString} {file : File} (hf : w.files path = some file) (k : Nat) :
    loadFile w .success path k = some { w with
      dmaBuf := Bytes.write w.dmaBuf 0 (min CACHE_BLOCK_SIZE (file.length - fileOffset k))
        fun i => file.data (fileOffset k + i) } := by
  simp [loadFile, openFile, pread, hf, Replies.success, Transfer.bytes]

theorem storeFile_eq {path : CString} {file : File} (hf : w.files path = some file) (k : Nat) :
    storeFile w .success path k =
      some (setFile w path (file.write (fileOffset k) CACHE_BLOCK_SIZE w.dmaBuf)) := by
  simp [storeFile, openFile, pwrite, hf, Replies.success, Transfer.bytes]

theorem loadFile_some {file : File} (hk : key.cachePageIndex < 2 ^ 17)
    (hf : w.files key.fullPathName = some file) :
    ∃ buf, loadFile w .success key.fullPathName key.cachePageIndex =
        some { w with dmaBuf := buf } ∧
      ∀ j < 8, ∀ page, (fileContents w).page key j = some page → chunk PAGE_SIZE buf j = page := by
  have hsize : CACHE_BLOCK_SIZE = 8 * PAGE_SIZE := rfl
  refine ⟨Bytes.write w.dmaBuf 0
    (min CACHE_BLOCK_SIZE (file.length - key.cachePageIndex * 8 * PAGE_SIZE))
    fun i => file.data (key.cachePageIndex * 8 * PAGE_SIZE + i), ?_, fun j hj page hp => ?_⟩
  · rw [loadFile_eq hf, fileOffset_eq hk]
  · obtain ⟨hlen, rfl⟩ := page_of_length hf hp
    have hj8 := Nat.mul_le_mul_right PAGE_SIZE (show j + 1 ≤ 8 from hj)
    rw [chunk_first, chunk_shift]
    rw [hsize]
    rw [Nat.add_assoc, Nat.add_mul] at hlen
    omega

theorem loadFile_none (hf : w.files key.fullPathName = none) :
    loadFile w .success key.fullPathName key.cachePageIndex = none := by
  simp [loadFile, openFile, Replies.success, hf]

-- A write of whole pages to a file.
theorem fileContents_written {file : File} {path : CString} (p : Nat) {cnt k : Nat}
    (src : Nat → UInt8) (hk : k < cnt) :
    fileContents (setFile w path (file.write (p * PAGE_SIZE) (cnt * PAGE_SIZE) src)) path (p + k) =
      some (chunk PAGE_SIZE src k) := by
  have hcnt : cnt * PAGE_SIZE ≠ 0 := (Nat.mul_pos (by omega) (by decide)).ne'
  have hlen : (p + k + 1) * PAGE_SIZE ≤ p * PAGE_SIZE + cnt * PAGE_SIZE := by
    rw [← Nat.add_mul]
    exact Nat.mul_le_mul_right _ (by omega)
  have hfits : (p + k + 1) * PAGE_SIZE ≤
      (file.write (p * PAGE_SIZE) (cnt * PAGE_SIZE) src).length := by
    simp only [File.write, hcnt, ite_false]
    omega
  simp only [fileContents, setFile, Function.update_self, Option.bind_some, hfits, ite_true]
  rw [File.write, chunk_write, if_pos (by omega), Nat.add_sub_cancel_left]

theorem fileContents_unwritten {file : File} {path path' : CString} {p cnt len i : Nat}
    {src : Nat → UInt8} {page : Page} (hf : w.files path = some file)
    (hlen : len ≤ cnt * PAGE_SIZE) (h : ¬(path' = path ∧ p ≤ i ∧ i < p + cnt))
    (hp : fileContents w path' i = some page) :
    fileContents (setFile w path (file.write (p * PAGE_SIZE) len src)) path' i = some page := by
  by_cases hpp : path' = path
  · subst path'
    obtain ⟨hin, rfl⟩ := page_of_length hf hp
    have hfits : (i + 1) * PAGE_SIZE ≤ (file.write (p * PAGE_SIZE) len src).length := by
      simp only [File.write]
      split <;> omega
    simp only [fileContents, setFile, Function.update_self, Option.bind_some, hfits, ite_true]
    rw [chunk_fileWrite file src hlen hin fun hout => h ⟨rfl, hout⟩]
  · simpa [fileContents, setFile, hpp] using hp

theorem storeFile_some {file : File} (hk : key.cachePageIndex < 2 ^ 17)
    (hf : w.files key.fullPathName = some file) :
    ∃ w', storeFile w .success key.fullPathName key.cachePageIndex = some w' ∧
      (∀ j < 8, (fileContents w').page key j = some (chunk PAGE_SIZE w.dmaBuf j)) ∧
      (∀ key', key' ≠ key → ∀ j < 8, ∀ page, (fileContents w).page key' j = some page →
        (fileContents w').page key' j = some page) ∧
      w' = { w with files := w'.files } ∧ Keeps w w' := by
  have hsize : CACHE_BLOCK_SIZE = 8 * PAGE_SIZE := rfl
  refine ⟨setFile w key.fullPathName
    (file.write (key.cachePageIndex * 8 * PAGE_SIZE) (8 * PAGE_SIZE) w.dmaBuf), ?_,
    fun j hj => fileContents_written _ _ hj, fun key' hne j hj page hp => ?_, rfl,
    keeps_setFile _ _ _⟩
  · rw [storeFile_eq hf, fileOffset_eq hk, hsize]
  · refine fileContents_unwritten hf (Nat.le_refl _) (fun hin => hne ?_) hp
    obtain ⟨hpath, hlow, hhigh⟩ := hin
    cases key'
    cases key
    simp only [Work.mk.injEq] at hpath hlow hhigh ⊢
    exact ⟨hpath, by omega⟩

end Effects

-- What a write request makes of the contents.
def Contents.store (spec : Contents) (pio : Pio) : Contents := fun fullPathName i =>
  if fullPathName = pio.fullPathName ∧ pio.pageIndex ≤ i then
    (pio.buffers[i - pio.pageIndex]?).or (spec fullPathName i)
  else spec fullPathName i

def Contents.after (spec : Contents) (pio : Pio) : Contents :=
  if pio.operation = .write then spec.store pio else spec

def Contents.load (spec : Contents) (pio : Pio) : List (Option Page) :=
  (List.range pio.pioCnt).map fun k => spec pio.fullPathName (pio.pageIndex + k)

-- The pages that a read request returns are as promised.
def Contents.Returned (spec : Contents) (pio : Pio) (pages : List Page) : Prop :=
  pages.length = pio.pioCnt ∧ ∀ k < pio.pioCnt, ∀ page,
    spec pio.fullPathName (pio.pageIndex + k) = some page → pages[k]? = some page

def Pio.key (pio : Pio) : Work := State.keyAt pio.pageIndex pio.fullPathName

-- A request that check_pio lets through, with as many nodes as it announces. Its
-- descriptor, if it has one, is that of its file.
structure Pio.Fits (pio : Pio) (w : World) : Prop where
  checked : checkPio pio = true
  chained : pio.buffers.length = pio.pioCnt
  opened : pio.fd = 0 ∨
    w.descriptors pio.fd = some pio.fullPathName ∧ (w.files pio.fullPathName).isSome
  addressable : pio.pageIndex < 2 ^ 20

theorem Pio.Fits.keeps {pio : Pio} {w w' : World} (h : pio.Fits w) (hk : Keeps w w') : pio.Fits w' :=
  ⟨h.checked, h.chained, h.opened.imp_right fun ho =>
    ⟨by rw [hk.descriptors]; exact ho.1, hk.files _ ho.2⟩, h.addressable⟩

section Requests

variable {g : Geometry} {cache : Cache} {w w' : World} {pio : Pio} {key : Work}

theorem room_of_checkPio (h : checkPio pio = true) : pio.pageIndex % 8 + pio.pioCnt ≤ 8 := by
  simp only [checkPio, decide_eq_true_eq] at h
  omega

theorem pioToIovec_of_length (h : pio.buffers.length = pio.pioCnt) :
    pioToIovec pio = .ok pio.buffers := by
  rw [pioToIovec, ← h, if_pos (Nat.le_refl _), List.take_length]

theorem Pio.Fits.room (h : pio.Fits w) : pio.pageIndex % 8 + pio.pioCnt ≤ 8 :=
  room_of_checkPio h.checked

theorem Pio.Fits.iovec (h : pio.Fits w) : pioToIovec pio = .ok pio.buffers :=
  pioToIovec_of_length h.chained

theorem Pio.page_index (pio : Pio) :
    pio.key.cachePageIndex * 8 + pio.pageIndex % 8 = pio.pageIndex := by
  simp only [Pio.key, State.keyAt, toCachePageIndex]
  omega

theorem offsetOf_mod (p : Nat) : offsetOf p = p % 2 ^ 20 * PAGE_SIZE := by
  simp only [offsetOf, PAGE_SHIFT, PAGE_SIZE, u32]
  omega

theorem offsetOf_eq (h : pio.Fits w) : offsetOf pio.pageIndex = pio.pageIndex * PAGE_SIZE := by
  rw [offsetOf_mod, Nat.mod_eq_of_lt h.addressable]

-- The file of a request is there once it is open.
theorem originFile_success (hopen : pio.fd = 0 ∨
    w.descriptors pio.fd = some pio.fullPathName ∧ (w.files pio.fullPathName).isSome) :
    ∃ w' file, originFile w .success pio = some (w', pio.fullPathName) ∧
      w'.files pio.fullPathName = some file ∧ fileContents w' = fileContents w ∧
      w' = { w with files := w'.files } ∧ Keeps w w' := by
  unfold originFile
  cases hf : w.files pio.fullPathName with
  | some file =>
      refine ⟨w, file, ?_, hf, rfl, rfl, .refl w⟩
      split
      · rw [openFile_some hf]
        rfl
      · rename_i hfd
        rw [(hopen.resolve_left hfd).1]
        rfl
  | none =>
      have hfd : pio.fd = 0 := hopen.resolve_right (by simp [hf])
      rw [if_pos hfd, openFile_creat hf]
      exact ⟨_, newFile, rfl, by simp [setFile], fileContents_newFile hf, rfl, keeps_setFile _ _ _⟩

theorem Contents.store_other (spec : Contents) (h : pio.Fits w) (hk : key ≠ pio.key) {j : Nat}
    (hj : j < 8) : (spec.store pio).page key j = spec.page key j := by
  have hroom := h.room
  have hindex := pio.page_index
  simp only [Contents.page, Contents.store]
  split
  · rename_i hin
    rw [List.getElem?_eq_none, Option.none_or]
    by_contra hlt
    refine hk ?_
    rw [h.chained] at hlt
    cases key
    simp only [Pio.key, State.keyAt, Work.mk.injEq] at hin hindex hlt ⊢
    exact ⟨hin.1, by omega⟩
  · rfl

theorem Contents.store_self (spec : Contents) (pio : Pio) (j : Nat) :
    (spec.store pio).page pio.key j = if pio.pageIndex % 8 ≤ j then
      (pio.buffers[j - pio.pageIndex % 8]?).or (spec.page pio.key j)
    else spec.page pio.key j := by
  have hindex := pio.page_index
  have hiff : pio.pageIndex ≤ pio.key.cachePageIndex * 8 + j ↔ pio.pageIndex % 8 ≤ j := by omega
  have hsub : pio.key.cachePageIndex * 8 + j - pio.pageIndex = j - pio.pageIndex % 8 := by omega
  have hpath : pio.key.fullPathName = pio.fullPathName := rfl
  simp only [Contents.page, Contents.store, hpath, true_and, hiff, hsub]

theorem Contents.Met.store_other {spec : Contents} {pages : Nat → Page} (hm : spec.Met key pages)
    (h : pio.Fits w) (hk : key ≠ pio.key) : (spec.store pio).Met key pages := by
  intro j hj page hp
  rw [Contents.store_other spec h hk hj] at hp
  exact hm j hj page hp

-- A block that the request's pages go over holds what is then promised of it, where the
-- rest was there before.
theorem Contents.Met.store_self {spec : Contents} {old new : Nat → Page}
    (hnew : ∀ j < 8, new j = if pio.pageIndex % 8 ≤ j then
      (pio.buffers[j - pio.pageIndex % 8]?).getD (old j) else old j)
    (hrest : ∀ j < 8, (∀ page, spec.page pio.key j = some page → old j = page) ∨
      pio.pageIndex % 8 ≤ j ∧ j - pio.pageIndex % 8 < pio.buffers.length) :
    (spec.store pio).Met pio.key new := by
  intro j hj page hp
  rw [Contents.store_self] at hp
  rw [hnew j hj]
  split
  · rename_i hlow
    rw [if_pos hlow] at hp
    rcases hrest j hj with hrest | ⟨-, hhigh⟩
    · cases hbuf : pio.buffers[j - pio.pageIndex % 8]? with
      | none => exact hrest page (by simpa [hbuf] using hp)
      | some page' => simpa [hbuf] using hp
    · rw [List.getElem?_eq_getElem hhigh] at hp ⊢
      simpa using hp
  · rename_i hlow
    rw [if_neg hlow] at hp
    rcases hrest j hj with hrest | hrest
    · exact hrest page hp
    · exact absurd hrest.1 hlow

theorem Contents.Kept.store_other {spec : Contents} (hm : spec.Kept key w')
    (h : pio.Fits w) (hk : key ≠ pio.key) : (spec.store pio).Kept key w' := by
  intro j hj page hp
  rw [Contents.store_other spec h hk hj] at hp
  exact hm j hj page hp

theorem writeOrigin_success (h : pio.Fits w) :
    ∃ w' rc, writeOrigin w .success pio = .ok (w', rc) ∧
      (∀ path i page, ((fileContents w).store pio) path i = some page →
        fileContents w' path i = some page) ∧
      w' = { w with files := w'.files } ∧ Keeps w w' := by
  obtain ⟨w₁, file, hopen, hf, hsame, hw₁, hkeeps⟩ := originFile_success h.opened
  have hwrite : pwrite w₁ .success pio.fullPathName (pio.buffers.length * PAGE_SIZE)
      (offsetOf pio.pageIndex) (gather PAGE_SIZE pio.buffers fun _ => 0) =
      some (pio.buffers.length * PAGE_SIZE, setFile w₁ pio.fullPathName
        (file.write (pio.pageIndex * PAGE_SIZE) (pio.buffers.length * PAGE_SIZE)
          (gather PAGE_SIZE pio.buffers fun _ => 0))) := by
    rw [offsetOf_eq h]
    simp [pwrite, hf, Replies.success, Transfer.bytes]
  refine ⟨setFile w₁ pio.fullPathName (file.write (pio.pageIndex * PAGE_SIZE)
      (pio.buffers.length * PAGE_SIZE) (gather PAGE_SIZE pio.buffers fun _ => 0)),
    if pio.buffers.length * PAGE_SIZE = 0 then 0 else 1, ?_, fun path i page hp => ?_,
    by rw [hw₁]; rfl, hkeeps.trans (keeps_setFile _ _ _)⟩
  · simp only [writeOrigin, h.iovec, hopen, hwrite, bind, Except.bind, pure, Except.pure]
  · rw [← hsame] at hp
    unfold Contents.store at hp
    by_cases hin : path = pio.fullPathName ∧ pio.pageIndex ≤ i ∧
        i < pio.pageIndex + pio.buffers.length
    · obtain ⟨rfl, hlow, hhigh⟩ := hin
      have hlt : i - pio.pageIndex < pio.buffers.length := by omega
      have hw : fileContents (setFile w₁ pio.fullPathName (file.write (pio.pageIndex * PAGE_SIZE)
          (pio.buffers.length * PAGE_SIZE) (gather PAGE_SIZE pio.buffers fun _ => 0)))
          pio.fullPathName (pio.pageIndex + (i - pio.pageIndex)) = _ :=
        fileContents_written _ _ hlt
      rw [if_pos ⟨rfl, hlow⟩, List.getElem?_eq_getElem hlt, Option.some_or] at hp
      rwa [Nat.add_sub_cancel' hlow, chunk_gather _ _ hlt, hp] at hw
    · refine fileContents_unwritten hf (Nat.le_refl _) hin ?_
      split at hp
      · rename_i hlow
        rwa [List.getElem?_eq_none (by
          by_contra hlt
          exact hin ⟨hlow.1, hlow.2, by omega⟩), Option.none_or] at hp
      · exact hp

theorem fill_page (pages : List Page) (src : Nat → UInt8) {len k : Nat} (hk : k < pages.length)
    (h : (k + 1) * PAGE_SIZE ≤ len) : (fill pages len src)[k]? = some (chunk PAGE_SIZE src k) := by
  have hfill : k < (fill pages len src).length := by simpa [fill] using hk
  rw [List.getElem?_eq_getElem hfill]
  simp only [fill, List.getElem_mapIdx, Option.some.injEq]
  funext j
  have hj := j.isLt
  rw [Nat.succ_mul] at h
  rw [if_pos (by omega)]
  rfl

theorem readOrigin_success (h : pio.Fits w) :
    ∃ w' pages rc, readOrigin w .success pio = .ok (w', pages, rc) ∧
      (fileContents w).Returned pio pages ∧ fileContents w' = fileContents w ∧
      w' = { w with files := w'.files } ∧ Keeps w w' := by
  obtain ⟨w₁, file, hopen, hf, hsame, hw₁, hkeeps⟩ := originFile_success h.opened
  have hread : pread w₁ .success pio.fullPathName (pio.buffers.length * PAGE_SIZE)
      (offsetOf pio.pageIndex) =
      some (min (pio.buffers.length * PAGE_SIZE) (file.length - pio.pageIndex * PAGE_SIZE),
        fun i => file.data (pio.pageIndex * PAGE_SIZE + i)) := by
    rw [offsetOf_eq h]
    simp [pread, hf, Replies.success, Transfer.bytes]
  generalize hn : min (pio.buffers.length * PAGE_SIZE)
    (file.length - pio.pageIndex * PAGE_SIZE) = n at hread
  refine ⟨w₁, fill pio.buffers n fun i => file.data (pio.pageIndex * PAGE_SIZE + i),
    if n = 0 then 0 else 1, ?_, ⟨?_, fun k hk page hp => ?_⟩, hsame, hw₁, hkeeps⟩
  · simp only [readOrigin, h.iovec, hopen, hread, bind, Except.bind, pure, Except.pure]
  · simp [fill, h.chained]
  · rw [← hsame] at hp
    obtain ⟨hlen, rfl⟩ := page_of_length hf hp
    rw [← h.chained] at hk
    have hend := Nat.mul_le_mul_right PAGE_SIZE (show k + 1 ≤ pio.buffers.length from hk)
    rw [Nat.add_assoc, Nat.add_mul] at hlen
    rw [fill_page _ _ hk (by omega), chunk_shift]

theorem writeCache_success (cache : Cache) (hcheck : checkPio pio = true)
    (hchain : pio.buffers.length = pio.pioCnt)
    (hl : Layout g w.sectorSize cache.devBlockPerPageShift)
    (hm : cache.map.blockPerCblockShift = g.blockPerCblockShift) {c : Nat}
    (hc : c < CACHE_BLOCK_NUMBER) :
    ∃ w', writeCache cache w .success pio c =
        .ok ({ cache with map := setDirtyAfterWrite cache.map c true }, w', 0) ∧
      (∀ b, ∀ j < 8, ssdPage w' b j = if b = c ∧ pio.pageIndex % 8 ≤ j then
        (pio.buffers[j - pio.pageIndex % 8]?).getD (ssdPage w b j) else ssdPage w b j) ∧
      w' = { w with ssd := w'.ssd, touched := w'.touched } := by
  obtain ⟨hs, hlen⟩ := hl.target hm pio hc
  have hroom := room_of_checkPio hcheck
  refine ⟨writeSsd w (targetBlock cache pio c) (pio.pioCnt * 2 ^ cache.devBlockPerPageShift)
    (gather PAGE_SIZE pio.buffers fun i => w.ssd (targetBlock cache pio c * w.sectorSize + i)),
    ?_, fun b j hj => ?_, rfl⟩
  · simp only [writeCache, pioToIovec_of_length hchain, writevSpdk, Replies.success, bind,
      Except.bind, pure, Except.pure]
  · rw [ssdPage_writeSsd hs hlen]
    by_cases hbc : b = c ∧ pio.pageIndex % 8 ≤ j
    · obtain ⟨rfl, hlow⟩ := hbc
      by_cases hhigh : j - pio.pageIndex % 8 < pio.buffers.length
      · have hsub : b * 8 + j - (b * 8 + pio.pageIndex % 8) = j - pio.pageIndex % 8 := by omega
        rw [if_pos (by rw [← hchain]; omega), if_pos ⟨rfl, hlow⟩, hsub, chunk_gather _ _ hhigh,
          List.getElem?_eq_getElem hhigh]
        rfl
      · rw [if_neg (by rw [← hchain]; omega), if_pos ⟨rfl, hlow⟩,
          List.getElem?_eq_none (by omega)]
        rfl
    · rw [if_neg (by omega), if_neg hbc]

theorem readCache_success (h : pio.Fits w) (hl : Layout g w.sectorSize cache.devBlockPerPageShift)
    (hm : cache.map.blockPerCblockShift = g.blockPerCblockShift) {c : Nat}
    (hc : c < CACHE_BLOCK_NUMBER) :
    readCache cache w .success pio c =
      .ok ((List.range pio.pioCnt).map fun k => ssdPage w c (pio.pageIndex % 8 + k), 0) := by
  obtain ⟨hs, hlen⟩ := hl.target hm pio hc
  have hpage : (chunk PAGE_SIZE fun i => w.ssd ((c * 8 + pio.pageIndex % 8) * PAGE_SIZE + i)) =
      fun k => ssdPage w c (pio.pageIndex % 8 + k) := by
    funext k
    rw [chunk_shift, ssdPage, Nat.add_assoc]
  simp only [readCache, h.iovec, readvSpdk, Replies.success, bind, Except.bind, pure, Except.pure,
    hs, hlen]
  rw [← h.chained, fill_pages, hpage]

end Requests

end UserPageCache.SsdCache
