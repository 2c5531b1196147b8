import UserPageCache.SsdCache.Coherence.Effects

namespace UserPageCache.SsdCache

open Bytes

section Calls

variable (w : World) (reply : Replies) (pio : Pio) (offset : Nat)

-- The four calls that move file data, with the offset as an argument.
def writeOriginAt : Except Fault (World × Nat) := do
  let iov ← pioToIovec pio
  match originFile w reply pio with
  | none => return (w, 1)
  | some (w, file) =>
    match pwrite w reply file (iov.length * PAGE_SIZE) offset (gather PAGE_SIZE iov fun _ => 0) with
    | none => return (w, 1)
    | some (n, w) => return (w, if n = 0 then 0 else 1)

def readOriginAt : Except Fault (World × List Page × Nat) := do
  let iov ← pioToIovec pio
  match originFile w reply pio with
  | none => return (w, iov, 1)
  | some (w, file) =>
    match pread w reply file (iov.length * PAGE_SIZE) offset with
    | none => return (w, iov, 1)
    | some (n, src) => return (w, fill iov n src, if n = 0 then 0 else 1)

def loadFileAt (fullPathName : CString) : Option World := do
  let w ← openFile w reply fullPathName false
  let (n, src) ← pread w reply fullPathName CACHE_BLOCK_SIZE offset
  return { w with dmaBuf := Bytes.write w.dmaBuf 0 n src }

def storeFileAt (fullPathName : CString) : Option World := do
  let w ← openFile w reply fullPathName false
  let (_, w) ← pwrite w reply fullPathName CACHE_BLOCK_SIZE offset w.dmaBuf
  return w

theorem writeOrigin_at : writeOrigin w reply pio = writeOriginAt w reply pio (offsetOf pio.pageIndex) :=
  rfl

theorem readOrigin_at : readOrigin w reply pio = readOriginAt w reply pio (offsetOf pio.pageIndex) :=
  rfl

theorem loadFile_at (fullPathName : CString) (cachePageIndex : Nat) :
    loadFile w reply fullPathName cachePageIndex =
      loadFileAt w reply (fileOffset cachePageIndex) fullPathName := rfl

theorem storeFile_at (fullPathName : CString) (cachePageIndex : Nat) :
    storeFile w reply fullPathName cachePageIndex =
      storeFileAt w reply (fileOffset cachePageIndex) fullPathName := rfl

end Calls

section Exact

-- Whatever the files hold and however the calls answer, the offset is the page's own.
def ExactWrite (i : Nat) : Prop := ∀ w reply (pio : Pio), pio.pageIndex = i →
  writeOrigin w reply pio = writeOriginAt w reply pio (i * PAGE_SIZE)

def ExactRead (i : Nat) : Prop := ∀ w reply (pio : Pio), pio.pageIndex = i →
  readOrigin w reply pio = readOriginAt w reply pio (i * PAGE_SIZE)

def ExactLoad (k : Nat) : Prop := ∀ w reply fullPathName,
  loadFile w reply fullPathName k = loadFileAt w reply (k * CACHE_BLOCK_SIZE) fullPathName

def ExactStore (k : Nat) : Prop := ∀ w reply fullPathName,
  storeFile w reply fullPathName k = storeFileAt w reply (k * CACHE_BLOCK_SIZE) fullPathName

-- Two pages have no byte of the file in common.
def Apart (i j : Nat) : Prop :=
  ∀ a < PAGE_SIZE, ∀ b < PAGE_SIZE, offsetOf i + a ≠ offsetOf j + b

variable {i j k : Nat}

theorem offsetOf_exact : offsetOf i = i * PAGE_SIZE ↔ i < 2 ^ 20 := by
  rw [offsetOf_mod]
  unfold PAGE_SIZE
  omega

theorem fileOffset_exact : fileOffset k = k * CACHE_BLOCK_SIZE ↔ k < 2 ^ 17 := by
  rw [fileOffset_mod]
  unfold CACHE_BLOCK_SIZE
  omega

theorem offsetOf_lt (h : ¬i < 2 ^ 20) : offsetOf i < i * PAGE_SIZE := by
  rw [offsetOf_mod]
  unfold PAGE_SIZE
  omega

theorem fileOffset_lt (h : ¬k < 2 ^ 17) : fileOffset k < k * CACHE_BLOCK_SIZE := by
  rw [fileOffset_mod]
  unfold CACHE_BLOCK_SIZE
  omega

theorem apart_iff : Apart i j ↔ i % 2 ^ 20 ≠ j % 2 ^ 20 := by
  unfold Apart
  simp only [offsetOf_mod]
  constructor
  · intro h he
    exact h 0 (by decide) 0 (by decide) (by rw [he])
  · intro hne a ha b hb
    unfold PAGE_SIZE at *
    omega

-- Clients and the worker look for a page in the same place, wherever that is.
theorem offsetOf_fileOffset (i : Nat) :
    offsetOf i = fileOffset (toCachePageIndex i) + i % 8 * PAGE_SIZE := by
  rw [offsetOf_mod, fileOffset_mod]
  unfold toCachePageIndex PAGE_SIZE CACHE_BLOCK_SIZE
  omega

end Exact

section Probe

-- A file that tells what lies before `edge` from what lies after it.
def edgeFile (edge : Nat) : File :=
  ⟨edge + CACHE_BLOCK_SIZE, fun i => if i < edge then 1 else 0⟩

def edgeWorld (edge : Nat) : World :=
  { sectorSize := 512
    ssd := fun _ => 0
    touched := []
    files := fun path => if path = [⟨97, nonzero_a⟩] then some (edgeFile edge) else none
    descriptors := fun _ => none
    dmaBuf := fun _ => 2 }

def edgePio (i : Nat) (operation : Operate) : Pio :=
  ⟨[⟨97, nonzero_a⟩], 0, i, operation, [fun _ => 2], 1⟩

variable {edge i k : Nat}

theorem edgeWorld_file (edge : Nat) :
    (edgeWorld edge).files [⟨97, nonzero_a⟩] = some (edgeFile edge) := rfl

theorem edgeWorld_open (edge : Nat) (creat : Bool) :
    openFile (edgeWorld edge) .success [⟨97, nonzero_a⟩] creat = some (edgeWorld edge) :=
  openFile_some (edgeWorld_file edge) creat

theorem edgePio_originFile (edge i : Nat) (operation : Operate) :
    originFile (edgeWorld edge) .success (edgePio i operation) =
      some (edgeWorld edge, [⟨97, nonzero_a⟩]) := by
  have hopen : openFile (edgeWorld edge) .success (edgePio i operation).fullPathName true =
      some (edgeWorld edge) := edgeWorld_open edge true
  unfold originFile
  rw [if_pos (show (edgePio i operation).fd = 0 from rfl), hopen]
  rfl

theorem edgePio_iovec (i : Nat) (operation : Operate) :
    pioToIovec (edgePio i operation) = .ok [fun _ => 2] := rfl

theorem edge_write (edge i offset : Nat) :
    writeOriginAt (edgeWorld edge) .success (edgePio i .write) offset =
      .ok (setFile (edgeWorld edge) [⟨97, nonzero_a⟩] ((edgeFile edge).write offset PAGE_SIZE
        (gather PAGE_SIZE [fun _ => 2] fun _ => 0)), 1) := by
  unfold writeOriginAt
  rw [edgePio_iovec, edgePio_originFile]
  rfl

theorem edge_read (edge i offset : Nat) :
    readOriginAt (edgeWorld edge) .success (edgePio i .read) offset =
      .ok (edgeWorld edge, fill [fun _ => 2] (min PAGE_SIZE (edge + CACHE_BLOCK_SIZE - offset))
        (fun a => (edgeFile edge).data (offset + a)),
        if min PAGE_SIZE (edge + CACHE_BLOCK_SIZE - offset) = 0 then 0 else 1) := by
  unfold readOriginAt
  rw [edgePio_iovec, edgePio_originFile]
  rfl

theorem edge_load (edge offset : Nat) :
    loadFileAt (edgeWorld edge) .success offset [⟨97, nonzero_a⟩] =
      some { edgeWorld edge with
        dmaBuf := Bytes.write (fun _ => 2) 0
          (min CACHE_BLOCK_SIZE (edge + CACHE_BLOCK_SIZE - offset))
          fun a => (edgeFile edge).data (offset + a) } := by
  unfold loadFileAt
  rw [edgeWorld_open]
  rfl

theorem edge_store (edge offset : Nat) :
    storeFileAt (edgeWorld edge) .success offset [⟨97, nonzero_a⟩] =
      some (setFile (edgeWorld edge) [⟨97, nonzero_a⟩]
        ((edgeFile edge).write offset CACHE_BLOCK_SIZE fun _ => 2)) := by
  unfold storeFileAt
  rw [edgeWorld_open]
  rfl

-- A write before the edge leaves the byte there that a write at the edge leaves alone.
theorem edgeFile_write_ne {offset len : Nat} {src : Nat → UInt8} (hlt : offset < edge)
    (hlen : 0 < len) (hsrc : src 0 = 2) :
    (edgeFile edge).write offset len src ≠ (edgeFile edge).write edge len src := by
  intro heq
  have hdata := congrFun (congrArg File.data heq) offset
  have hin : offset ≤ offset ∧ offset < offset + len := by omega
  have hout : ¬(edge ≤ offset ∧ offset < edge + len) := by omega
  have hlong : offset < edge + CACHE_BLOCK_SIZE := by omega
  simp [File.write, Bytes.write, hin, hout, hsrc, edgeFile, hlong, hlt] at hdata

end Probe

section Sites

variable {i k : Nat}

theorem setFile_self (w : World) (path : CString) (file : File) :
    (setFile w path file).files path = some file := by
  simp [setFile]

theorem setFile_injective {w : World} {path : CString} {file file' : File}
    (h : setFile w path file = setFile w path file') : file = file' := by
  have hfiles := congrFun (congrArg World.files h) path
  rw [setFile_self, setFile_self] at hfiles
  exact Option.some.inj hfiles

theorem fileContents_of {w : World} {path : CString} {file : File} {page : Page}
    (hf : w.files path = some file) (hlen : (i + 1) * PAGE_SIZE ≤ file.length)
    (hpage : chunk PAGE_SIZE file.data i = page) : fileContents w path i = some page := by
  simp [fileContents, hf, hlen, hpage]

theorem fill_one (page : Page) (len : Nat) (src : Nat → UInt8) :
    fill [page] len src = [fun j : Fin PAGE_SIZE => if j < len then src j else page j] := by
  simp [fill, List.mapIdx_cons]

theorem exactWrite_iff : ExactWrite i ↔ i < 2 ^ 20 := by
  constructor
  · intro h
    by_contra hfar
    have heq := h (edgeWorld (i * PAGE_SIZE)) .success (edgePio i .write) rfl
    rw [writeOrigin_at, edge_write, edge_write] at heq
    have hfile := setFile_injective (congrArg Prod.fst (Except.ok.inj heq))
    exact edgeFile_write_ne (offsetOf_lt hfar) (by decide) rfl hfile
  · rintro hlt w reply pio rfl
    rw [writeOrigin_at, offsetOf_exact.mpr hlt]

theorem exactStore_iff : ExactStore k ↔ k < 2 ^ 17 := by
  constructor
  · intro h
    by_contra hfar
    have heq := h (edgeWorld (k * CACHE_BLOCK_SIZE)) .success [⟨97, nonzero_a⟩]
    rw [storeFile_at, edge_store, edge_store] at heq
    exact edgeFile_write_ne (fileOffset_lt hfar) (by decide) rfl
      (setFile_injective (Option.some.inj heq))
  · intro hlt w reply path
    rw [storeFile_at, fileOffset_exact.mpr hlt]

theorem exactRead_iff : ExactRead i ↔ i < 2 ^ 20 := by
  constructor
  · intro h
    by_contra hfar
    have hoff := offsetOf_lt hfar
    have heq := h (edgeWorld (i * PAGE_SIZE)) .success (edgePio i .read) rfl
    rw [readOrigin_at, edge_read, edge_read] at heq
    have hpages := congrArg (fun r => r.2.1) (Except.ok.inj heq)
    rw [fill_one, fill_one] at hpages
    have hbyte := congrFun (List.singleton_inj.mp hpages) ⟨0, by decide⟩
    have hpage : 0 < PAGE_SIZE := by decide
    have hroom : 0 < CACHE_BLOCK_SIZE := by decide
    have hmore : 0 < i * PAGE_SIZE + CACHE_BLOCK_SIZE - offsetOf i := by omega
    simp [edgeFile, edgePio, hoff, hpage, hroom, hmore] at hbyte
  · rintro hlt w reply pio rfl
    rw [readOrigin_at, offsetOf_exact.mpr hlt]

theorem exactLoad_iff : ExactLoad k ↔ k < 2 ^ 17 := by
  constructor
  · intro h
    by_contra hfar
    have hoff := fileOffset_lt hfar
    have heq := h (edgeWorld (k * CACHE_BLOCK_SIZE)) .success [⟨97, nonzero_a⟩]
    rw [loadFile_at, edge_load, edge_load] at heq
    have hbyte := congrFun (congrArg World.dmaBuf (Option.some.inj heq)) 0
    have hmore : 0 < k * CACHE_BLOCK_SIZE + CACHE_BLOCK_SIZE - fileOffset k := by omega
    have hroom : 0 < CACHE_BLOCK_SIZE := by decide
    simp [Bytes.write, edgeFile, hoff, hmore, hroom] at hbyte
  · intro hlt w reply path
    rw [loadFile_at, fileOffset_exact.mpr hlt]

end Sites

-- Exact are the offsets of the first 2 ^ 20 pages; pages further on come round to theirs.
theorem offsets_exact (i j : Nat) :
    (ExactWrite i ↔ i < 2 ^ 20) ∧ (ExactRead i ↔ i < 2 ^ 20) ∧
      (ExactLoad (toCachePageIndex i) ↔ i < 2 ^ 20) ∧
      (ExactStore (toCachePageIndex i) ↔ i < 2 ^ 20) ∧
      (Apart i j ↔ i % 2 ^ 20 ≠ j % 2 ^ 20) ∧
      offsetOf i = fileOffset (toCachePageIndex i) + i % 8 * PAGE_SIZE := by
  have hblock : toCachePageIndex i < 2 ^ 17 ↔ i < 2 ^ 20 := by
    unfold toCachePageIndex
    omega
  refine ⟨exactWrite_iff, exactRead_iff, ?_, ?_, apart_iff, offsetOf_fileOffset i⟩
  · rw [exactLoad_iff, hblock]
  · rw [exactStore_iff, hblock]

-- A WRITE of the page at 4 GiB lands on the first page of the file.
theorem page_offset_wraps :
    offsetOf (2 ^ 20) ≠ 2 ^ 20 * PAGE_SIZE ∧
      fileOffset (toCachePageIndex (2 ^ 20)) ≠ toCachePageIndex (2 ^ 20) * CACHE_BLOCK_SIZE ∧
      ¬Apart (2 ^ 20) 0 ∧
      fileContents (edgeWorld (2 ^ 32)) [⟨97, nonzero_a⟩] 0 = some (fun _ => 1) ∧
      ∃ w', writeOrigin (edgeWorld (2 ^ 32)) .success (edgePio (2 ^ 20) .write) = .ok (w', 1) ∧
        fileContents w' [⟨97, nonzero_a⟩] 0 = some (fun _ => 2) := by
  have hoff : offsetOf (edgePio (2 ^ 20) .write).pageIndex = 0 := by decide
  have hwrite := edge_write (2 ^ 32) (2 ^ 20) 0
  rw [← hoff, ← writeOrigin_at, hoff] at hwrite
  refine ⟨by decide, by decide, by simp [apart_iff], ?_, _, hwrite, ?_⟩
  · have hdata : chunk PAGE_SIZE (edgeFile (2 ^ 32)).data 0 = fun _ => 1 := by
      funext j
      have hj := j.isLt
      unfold PAGE_SIZE at hj
      simp only [chunk, edgeFile]
      rw [if_pos (by omega)]
    exact fileContents_of (edgeWorld_file _) (by decide) hdata
  · have hdata : chunk PAGE_SIZE ((edgeFile (2 ^ 32)).write (0 * PAGE_SIZE) (1 * PAGE_SIZE)
        (gather PAGE_SIZE [fun _ => 2] fun _ => 0)).data 0 = fun _ => 2 := by
      rw [File.write, chunk_write, if_pos (by decide)]
      exact chunk_gather [fun _ => 2] (fun _ => 0) (by decide)
    rw [Nat.zero_mul, Nat.one_mul] at hdata
    exact fileContents_of (setFile_self ..) (by decide) hdata

end UserPageCache.SsdCache
