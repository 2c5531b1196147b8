import UserPageCache.SsdCache.Mapping
import UserPageCache.SsdCache.World

namespace UserPageCache.SsdCache

inductive Operate where
  | read
  | write
  | discard
deriving DecidableEq

-- The head of a chain of page requests, with the buffers of all its nodes in order.
structure Pio where
  fullPathName : CString
  fd : Nat
  pageIndex : Nat
  operation : Operate
  buffers : List Page
  pioCnt : Nat

structure Cache where
  map : Mapping
  devBlockPerPageShift : Nat

-- A shorter chain ends in a null pointer.
def pioToIovec (pio : Pio) : Except Fault (List Page) :=
  if pio.pioCnt ≤ pio.buffers.length then .ok (pio.buffers.take pio.pioCnt)
  else .error .nullDereference

section Target

variable (cache : Cache) (w : World) (reply : Replies) (pio : Pio)

def targetBlock (cblock : Nat) : Nat :=
  u32 (u32 (cblock * 2 ^ cache.map.blockPerCblockShift) +
    u32 (pio.pageIndex % (MOD_PAGE_PER_CBLOCK_SHIFT + 1) * 2 ^ cache.devBlockPerPageShift))

def writeCache (cblock : Nat) : Except Fault (Cache × World × Nat) := do
  let iovs ← pioToIovec pio
  match writevSpdk w reply iovs (targetBlock cache pio cblock)
      (pio.pioCnt * 2 ^ cache.devBlockPerPageShift) with
  | (w, 0) => return ({ cache with map := setDirtyAfterWrite cache.map cblock true }, w, 0)
  | (w, rc) => return (cache, w, rc)

-- The buffers after the request come first.
def readCache (cblock : Nat) : Except Fault (List Page × Nat) := do
  let iovs ← pioToIovec pio
  return readvSpdk w reply iovs (targetBlock cache pio cblock)
    (pio.pioCnt * 2 ^ cache.devBlockPerPageShift)

-- The file that a request without a descriptor opens, or the one its descriptor names.
def originFile : Option (World × CString) :=
  if pio.fd = 0 then (openFile w reply pio.fullPathName true).map (·, pio.fullPathName)
  else (w.descriptors pio.fd).map (w, ·)

def offsetOf (pageIndex : Nat) : Nat := u32 (pageIndex * 2 ^ PAGE_SHIFT)

-- Zero bytes is the only result that is reported as zero.
def writeOrigin : Except Fault (World × Nat) := do
  let iov ← pioToIovec pio
  match originFile w reply pio with
  | none => return (w, 1)
  | some (w, file) =>
    match pwrite w reply file (iov.length * PAGE_SIZE) (offsetOf pio.pageIndex)
        (Bytes.gather PAGE_SIZE iov fun _ => 0) with
    | none => return (w, 1)
    | some (n, w) => return (w, if n = 0 then 0 else 1)

def readOrigin : Except Fault (World × List Page × Nat) := do
  let iov ← pioToIovec pio
  match originFile w reply pio with
  | none => return (w, iov, 1)
  | some (w, file) =>
    match pread w reply file (iov.length * PAGE_SIZE) (offsetOf pio.pageIndex) with
    | none => return (w, iov, 1)
    | some (n, src) => return (w, fill iov n src, if n = 0 then 0 else 1)

def mapToCache (cblock : Nat) : Except Fault (Cache × World × List Page × Nat) := do
  if pio.operation = .read then
    let (pages, rc) ← readCache cache w reply pio cblock
    return (cache, w, pages, rc)
  else
    let (cache, w, rc) ← writeCache cache w reply pio cblock
    return (cache, w, pio.buffers, rc)

def mapToOrigin : Except Fault (World × List Page × Nat) := do
  if pio.operation = .read then readOrigin w reply pio
  else
    let (w, rc) ← writeOrigin w reply pio
    return (w, pio.buffers, rc)

def checkPio : Bool := pio.pioCnt ≤ 8 - pio.pageIndex % 8

def overwritable : Bool := pio.pioCnt == 8 && pio.pageIndex % 8 == 0

def optimizable : Bool := pio.operation == .write && overwritable pio

def discardPio : Except Fault (Cache × Nat) := do
  if !checkPio pio then return (cache, 1)
  let (m, found) ← removeMapping cache.map pio.fullPathName pio.pageIndex
  return ({ cache with map := m }, found.toNat)

-- The lookup of map_pio, which is where a request and the mapping meet.
def mapLookup : Except Fault (Mapping × Option Nat) :=
  if optimizable pio then lookupMappingWithInsert cache.map pio.fullPathName pio.pageIndex
  else lookupMapping cache.map pio.fullPathName pio.pageIndex

def mapPio : Except Fault (Cache × World × List Page × Nat) := do
  if !checkPio pio then return (cache, w, pio.buffers, 1)
  let (m, cblock) ← mapLookup cache pio
  let cache := { cache with map := m }
  match cblock with
  | some cblock => mapToCache cache w reply pio cblock
  | none => return (cache, ← mapToOrigin w reply pio)

def _submitPio : Except Fault (Cache × World × List Page × Nat) := do
  if pio.operation = .discard then
    let (cache, rc) ← discardPio cache pio
    return (cache, w, pio.buffers, rc)
  mapPio cache w reply pio

end Target

end UserPageCache.SsdCache
