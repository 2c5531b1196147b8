import UserPageCache.SsdCache.Mapping
import UserPageCache.SsdCache.World

namespace UserPageCache.SsdCache

inductive MgType where
  | promotion
  | demotion
  | writeback
deriving DecidableEq

section Migration

variable (m : Mapping) (w : World) (reply : Replies)

def cblockStart (cblock : Nat) : Nat := u32 (cblock * 2 ^ m.blockPerCblockShift)

def fileOffset (cachePageIndex : Nat) : Nat := u32 (cachePageIndex * 2 ^ CBLOCK_SHIFT)

-- The two halves of a promotion; a file that ends early leaves the rest of the buffer.
def loadFile (fullPathName : CString) (cachePageIndex : Nat) : Option World := do
  let w ← openFile w reply fullPathName false
  let (n, src) ← pread w reply fullPathName CACHE_BLOCK_SIZE (fileOffset cachePageIndex)
  return { w with dmaBuf := Bytes.write w.dmaBuf 0 n src }

def storeCblock (cblock : Nat) : World × Nat :=
  writeSpdk w reply (cblockStart m cblock) (2 ^ m.blockPerCblockShift)

-- The two halves of a writeback.
def loadCblock (cblock : Nat) : World × Nat :=
  readSpdk w reply (cblockStart m cblock) (2 ^ m.blockPerCblockShift)

def storeFile (fullPathName : CString) (cachePageIndex : Nat) : Option World := do
  let w ← openFile w reply fullPathName false
  let (_, w) ← pwrite w reply fullPathName CACHE_BLOCK_SIZE (fileOffset cachePageIndex) w.dmaBuf
  return w

def trimCblock (cachePageIndex : Nat) : World :=
  trimSpdk w reply (u32 (cachePageIndex * 2 ^ m.blockPerCblockShift)) (2 ^ m.blockPerCblockShift)

-- A null path makes open fail.
def mgStart (fullPathName : Option CString) (cachePageIndex cblock : Nat) : MgType → World × Bool
  | .promotion =>
    match fullPathName.bind (loadFile w reply · cachePageIndex) with
    | none => (w, false)
    | some w =>
      let (w, rc) := storeCblock m w reply cblock
      (w, rc == 0)
  | .demotion => (trimCblock m w reply cachePageIndex, true)
  | .writeback =>
    let (w, rc) := loadCblock m w reply cblock
    if rc = 0 then
      match fullPathName.bind (storeFile w reply · cachePageIndex) with
      | none => (w, false)
      | some w => (w, true)
    else (w, false)

def migrate (fullPathName : CString) (cachePageIndex : Nat) :
    Except Fault (Mapping × World) := do
  match ← promotionFreeToClean m fullPathName cachePageIndex with
  | some (m, cblock) =>
    let (w, success) := mgStart m w reply (some fullPathName) cachePageIndex cblock .promotion
    return (← promotionComplete m cblock success, w)
  | none =>
    match ← demotionCleanToFree m with
    | some (m, cblock) =>
      let (w, success) := mgStart m w reply none 0 cblock .demotion
      return (← demotionComplete m cblock success, w)
    | none =>
      match ← writebackDirtyToClean m with
      | some (m, cblock) =>
        match toEntry cblock with
        | none => throw .nullDereference
        | some e =>
          let (w, success) := mgStart m w reply (some (m.es e).fullPathName)
            (m.es e).cachePageIndex cblock .writeback
          return (← writebackComplete m cblock success, w)
      | none => return (m, w)

def doMigrationWork : Except Fault (Mapping × World × Bool) := do
  match peakWork m.wq with
  | some work =>
    let (m, w) ← migrate m w reply work.fullPathName work.cachePageIndex
    return ({ m with wq := (removeWork m.wq).1 }, w, true)
  | none => return (m, w, false)

end Migration

end UserPageCache.SsdCache
