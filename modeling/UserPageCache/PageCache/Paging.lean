import UserPageCache.PageCache.Lru

namespace UserPageCache.PageCache

open SsdCache (Operate)

section Allocation

-- The pio of a page; a page without a path cannot be looked up by the store.
def submitPage (s : State) (operation : Operate) (pg : Nat) : Except Fault State :=
  match (s.memMap pg).pathName with
  | none => .error .nullDereference
  | some pathName =>
    match submitPio s.store operation pathName (s.memMap pg).index (s.physBase pg) with
    | (store, frame) => .ok { s.setFrame pg frame with store := store }

def writePio (s : State) (pg : Nat) : Except Fault State := submitPage s .write pg

def readPio (s : State) (pg : Nat) : Except Fault State := submitPage s .read pg

-- One turn of the loop in alloc_page that writes pages back.
def evictPage (s : State) : Except Fault State :=
  match s.lruList.tail with
  | none => .error .nullDereference
  | some pg => do
    let s ← writePio s pg
    match s.lruList.tail with
    | none => throw .nullDereference
    | some pg => removeFromLru s pg

def evictPages : Nat → State → Except Fault State
  | 0, s => .ok s
  | n + 1, s => do evictPages n (← evictPage s)

def popFree (s : State) : Except Fault (State × Nat) :=
  match s.freeList.head with
  | none => .error .nullDereference
  | some pg =>
    let s := { s with freeList := ⟨(s.memMap pg).next, s.freeList.nrFree - 1⟩ }
    .ok (s.setPage pg fun _ => ⟨0, none, 0, none, none⟩, pg)

def allocPage (s : State) : Except Fault (State × Nat) := do
  let s ← if s.freeList.nrFree = 0 then evictPages (s.cacheSize / 2) s else pure s
  popFree s

end Allocation

section Streams

def U_OREAD : Nat := 0x01

def U_OWRITE : Nat := 0x02

def U_REMOVE : Nat := 0x04

structure UFile where
  pathName : CString
  mode : Nat
  ioOffset : Nat

def uopen (filename mode : CString) : UFile :=
  let flag (c : UInt8) (bit : Nat) := if mode.any (·.val == c) then bit else 0
  ⟨filename, flag 114 U_OREAD ||| flag 119 U_OWRITE ||| flag 43 U_REMOVE, 0⟩

def useek (stream : UFile) (offset : Nat) : UFile := { stream with ioOffset := offset }

def streamIndex (stream : UFile) : Nat := u32 (stream.ioOffset / 2 ^ 12)

-- unsigned int DATA_LEN and DATA_PAGES.
def dataLen (size count : Nat) : Nat := u32 (size * count)

def dataPages (len : Nat) : Nat := u32 (len + (PAGE_SIZE - 1)) / PAGE_SIZE

-- A division by zero ends the process.
def quotient (n size : Nat) : Except Fault Nat :=
  if size = 0 then .error (.exit 136) else .ok (n / size)

end Streams

section Frames

def fillFrame (frame : Frame) (len : Nat) (src : Nat → UInt8) : Frame := fun j =>
  if j < len then src j else frame j

def Frame.bytes (frame : Frame) (i : Nat) : UInt8 :=
  frame ⟨i % PAGE_SIZE, Nat.mod_lt i (by decide)⟩

-- A page of a user's buffer.
def sliceFrame (buffer : Nat → UInt8) (offset : Nat) : Frame := fun j => buffer (offset + j)

def zeroFrame : Frame := fun _ => 0

end Frames

section Uwrite

variable (pathName : CString) (buffer : Nat → UInt8) (len : Nat)

-- How many bytes the next page takes, and whether it is the last one.
def writeLen (isFirstPage : Bool) (dataOffset : Nat) : Nat × Bool :=
  if isFirstPage then if len ≤ PAGE_SIZE then (len, true) else (PAGE_SIZE, false)
  else if len - dataOffset ≤ PAGE_SIZE then (len - dataOffset, true) else (PAGE_SIZE, false)

def uwritePage (s : State) (index copyLen : Nat) (src : Nat → UInt8) : Except Fault State := do
  let (s, pg) ← allocPage s
  let s := s.setPage pg fun x =>
    { x with flag := x.flag ||| PG_dirty, index := index, pathName := some pathName }
  let s := s.setFrame pg (fillFrame (s.physBase pg) copyLen src)
  addToLruHead s pg

def uwritePages : Nat → State → Nat → Nat → Bool → Except Fault (State × Nat)
  | 0, _, _, _, _ => .error .divergence
  | fuel + 1, s, dataOffset, index, isFirstPage => do
    let (copyLen, isLastPage) := writeLen len isFirstPage dataOffset
    let s ← uwritePage pathName s index copyLen fun i => buffer (dataOffset + i)
    if isLastPage then return (s, dataOffset + copyLen)
    uwritePages fuel s (dataOffset + copyLen) (inc index) false

-- A request of more pages than the cache has goes to the store page by page.
def bypassWritePages : Nat → Store → Nat → Nat → Except Fault (Store × Nat × Nat)
  | 0, _, _, _ => .error .divergence
  | fuel + 1, d, dataOffset, index =>
    if PAGE_SIZE < len - dataOffset then
      let (d, _) := submitPio d .write pathName index (sliceFrame buffer dataOffset)
      bypassWritePages fuel d (dataOffset + PAGE_SIZE) (inc index)
    else .ok (d, dataOffset, index)

def bypassWrite (s : State) (index : Nat) : Except Fault (State × Nat) := do
  let (d, _) := submitPio s.store .write pathName index (fillFrame zeroFrame PAGE_SIZE buffer)
  let (d, dataOffset, index) ←
    bypassWritePages pathName buffer len (len / PAGE_SIZE + 1) d PAGE_SIZE (inc index)
  let last := fillFrame zeroFrame (len - dataOffset) fun i => buffer (dataOffset + i)
  let (d, _) := submitPio d .write pathName index last
  return ({ s with store := d }, dataOffset)

end Uwrite

def uwrite (s : State) (buffer : Nat → UInt8) (size count : Nat) (stream : UFile) :
    Except Fault (State × Nat) := do
  if stream.mode &&& U_OWRITE = 0 then return (s, 0)
  let len := dataLen size count
  let index := streamIndex stream
  let (s, dataOffset) ←
    if s.cacheSize < dataPages len then bypassWrite stream.pathName buffer len s index
    else uwritePages stream.pathName buffer len (len / PAGE_SIZE + 1) s 0 index true
  return (s, ← quotient dataOffset size)

section Uread

variable (pathName : CString)

-- The length of the next copy, from the length of the one before.
def readLen (requestByte : Nat) (isFirstPage : Bool) (copyLen : Nat) : Nat :=
  if isFirstPage then if requestByte ≤ PAGE_SIZE then requestByte else PAGE_SIZE
  else if requestByte - copyLen ≤ PAGE_SIZE then requestByte - copyLen else PAGE_SIZE

-- The page that holds the data once it is in the cache.
def ureadPage (s : State) (index : Nat) : Except Fault (State × Nat) :=
  match hashTableLookup s pathName index with
  | some e => .ok (moveToLruHead s e.pagePtr, e.pagePtr)
  | none => do
    let (s, pg) ← allocPage s
    let s := s.setPage pg fun x =>
      { x with flag := x.flag ||| PG_lru, index := index, pathName := some pathName }
    let s ← readPio s pg
    return (← addToLruHead s pg, pg)

def ureadPages (requestByte : Nat) : Nat → State → (Nat → UInt8) → Nat → Nat → Nat → Bool →
    Except Fault (State × (Nat → UInt8) × Nat)
  | 0, _, _, _, _, _, _ => .error .divergence
  | fuel + 1, s, buffer, bufferOffset, copyLen, index, isFirstPage =>
    if bufferOffset < requestByte then do
      let copyLen := readLen requestByte isFirstPage copyLen
      let (s, pg) ← ureadPage pathName s index
      let buffer := Bytes.write buffer bufferOffset copyLen (s.physBase pg).bytes
      ureadPages requestByte fuel s buffer (u32 (bufferOffset + copyLen)) copyLen (inc index) false
    else .ok (s, buffer, bufferOffset)

-- The rest of a request of more pages than the cache has; a page that is refused leaves
-- the buffer as it was.
def bypassReadPages : Nat → Store → (Nat → UInt8) → Nat → Nat → Nat →
    Except Fault (Store × (Nat → UInt8) × Nat × Nat × Nat)
  | 0, _, _, _, _, _ => .error .divergence
  | fuel + 1, d, buffer, requestByte, bufferOffset, index =>
    if PAGE_SIZE ≤ requestByte then
      let (d, frame) := submitPio d .read pathName index (sliceFrame buffer bufferOffset)
      let buffer := Bytes.write buffer bufferOffset PAGE_SIZE frame.bytes
      bypassReadPages fuel d buffer (requestByte - PAGE_SIZE) (bufferOffset + PAGE_SIZE) (inc index)
    else .ok (d, buffer, requestByte, bufferOffset, index)

def bypassRead (s : State) (buffer : Nat → UInt8) (requestByte index : Nat) :
    Except Fault (State × (Nat → UInt8) × Nat) := do
  let (d, first) := submitPio s.store .read pathName index zeroFrame
  let buffer := Bytes.write buffer 0 PAGE_SIZE first.bytes
  let (d, buffer, requestByte, bufferOffset, index) ←
    bypassReadPages pathName (requestByte / PAGE_SIZE + 1) d buffer (requestByte - PAGE_SIZE)
      PAGE_SIZE (inc index)
  if requestByte = 0 then return ({ s with store := d }, buffer, bufferOffset)
  let (d, last) := submitPio d .read pathName index zeroFrame
  let buffer := Bytes.write buffer bufferOffset requestByte last.bytes
  return ({ s with store := d }, buffer, bufferOffset + requestByte)

end Uread

-- `isFirstPage` is not initialised.
def uread (s : State) (buffer : Nat → UInt8) (size count : Nat) (stream : UFile)
    (isFirstPage : Bool) : Except Fault (State × (Nat → UInt8) × Nat) := do
  let requestByte := dataLen size count
  let index := streamIndex stream
  let (s, buffer, bufferOffset) ←
    if s.cacheSize < dataPages requestByte then bypassRead stream.pathName s buffer requestByte index
    else
      ureadPages stream.pathName requestByte (requestByte / PAGE_SIZE + 2) s buffer 0 0 index
        isFirstPage
  return (s, buffer, ← quotient bufferOffset size)

section Init

-- Memory from umalloc_dma is zeroed.
def zeroPage : Page := ⟨0, none, 0, none, none⟩

def initPageCache (cacheSize : Nat) (store : Store) : State :=
  (List.range cacheSize).foldl pushFree
    ⟨cacheSize, fun _ => zeroPage, fun _ => zeroFrame, ⟨none, none⟩, ⟨none, 0⟩, fun _ => [], store⟩

end Init

end UserPageCache.PageCache
