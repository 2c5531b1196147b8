import UserPageCache.Basic
import UserPageCache.Lib.Bytes

namespace UserPageCache.SsdCache

abbrev Page := Fin PAGE_SIZE → UInt8

structure File where
  length : Nat
  data : Nat → UInt8

-- What lies outside the cache: the NVMe namespace, the files, the descriptors that
-- callers opened and the worker's buffer. `touched` are the LBA ranges that commands
-- have written or deallocated so far.
structure World where
  sectorSize : Nat
  ssd : Nat → UInt8
  touched : List (Nat × Nat)
  files : CString → Option File
  descriptors : Nat → Option CString
  dmaBuf : Nat → UInt8

-- The fate of one NVMe command: refused at submission, completed with an error, done.
inductive Command where
  | rejected
  | failed
  | done
deriving DecidableEq

inductive Transfer where
  | error
  | short (bytes : Nat)
  | full
deriving DecidableEq

-- How the device and the file system answer during one call. A deallocated range
-- keeps its data unless `deallocated` says what it reads as.
structure Replies where
  opens : Bool
  transfer : Transfer
  command : Command
  deallocated : Option (Nat → UInt8)

def Replies.success : Replies := ⟨true, .full, .done, none⟩

section Device

variable (w : World) (reply : Replies)

-- The completion callbacks ignore the status, so a command that fails is reported
-- as a success.
def readSpdk (offsetBlock numBlock : Nat) : World × Nat :=
  match reply.command with
  | .rejected => (w, 1)
  | .failed => (w, 0)
  | .done =>
    let src := fun i => w.ssd (offsetBlock * w.sectorSize + i)
    ({ w with dmaBuf := Bytes.write w.dmaBuf 0 (numBlock * w.sectorSize) src }, 0)

def writeSsd (offsetBlock numBlock : Nat) (src : Nat → UInt8) : World :=
  { w with
    ssd := Bytes.write w.ssd (offsetBlock * w.sectorSize) (numBlock * w.sectorSize) src
    touched := w.touched ++ [(offsetBlock, numBlock)] }

def writeSpdk (offsetBlock numBlock : Nat) : World × Nat :=
  match reply.command with
  | .rejected => (w, 1)
  | .failed => (w, 0)
  | .done => (writeSsd w offsetBlock numBlock w.dmaBuf, 0)

def trimSpdk (offsetBlock numBlock : Nat) : World :=
  match reply.command, reply.deallocated with
  | .done, some data => writeSsd w offsetBlock numBlock data
  | .done, none => { w with touched := w.touched ++ [(offsetBlock, numBlock)] }
  | _, _ => w

-- The pages are moved between the SSD and the chained buffers in order.
def writevSpdk (pages : List Page) (offsetBlock numBlock : Nat) : World × Nat :=
  match reply.command with
  | .rejected => (w, 1)
  | .failed => (w, 0)
  | .done =>
    let rest := fun i => w.ssd (offsetBlock * w.sectorSize + i)
    (writeSsd w offsetBlock numBlock (Bytes.gather PAGE_SIZE pages rest), 0)

-- Fills the pages with the first `len` bytes of `src`.
def fill (pages : List Page) (len : Nat) (src : Nat → UInt8) : List Page :=
  pages.mapIdx fun k page j =>
    if k * PAGE_SIZE + j < len then src (k * PAGE_SIZE + j) else page j

def readvSpdk (pages : List Page) (offsetBlock numBlock : Nat) : List Page × Nat :=
  match reply.command with
  | .rejected => (pages, 1)
  | .failed => (pages, 0)
  | .done =>
    let src := fun i => w.ssd (offsetBlock * w.sectorSize + i)
    (fill pages (numBlock * w.sectorSize) src, 0)

end Device

section Files

variable (w : World) (reply : Replies)

def Transfer.bytes (t : Transfer) (len : Nat) : Option Nat :=
  match t with
  | .error => none
  | .short n => some (min n len)
  | .full => some len

def newFile : File := ⟨0, fun _ => 0⟩

def setFile (fullPathName : CString) (file : File) : World :=
  { w with files := Function.update w.files fullPathName (some file) }

-- open(2); only with O_CREAT does it make a missing file.
def openFile (fullPathName : CString) (creat : Bool) : Option World :=
  if reply.opens then
    match w.files fullPathName with
    | some _ => some w
    | none =>
      if creat then some (setFile w fullPathName newFile) else none
  else none

-- The count that pread returns stops at the end of the file.
def pread (fullPathName : CString) (len offset : Nat) : Option (Nat × (Nat → UInt8)) := do
  let file ← w.files fullPathName
  let n ← reply.transfer.bytes (min len (file.length - offset))
  return (n, fun i => file.data (offset + i))

def File.write (file : File) (offset len : Nat) (src : Nat → UInt8) : File :=
  { length := if len = 0 then file.length else max file.length (offset + len)
    data := Bytes.write
      (fun i => if i < file.length then file.data i else 0) offset len src }

def pwrite (fullPathName : CString) (len offset : Nat) (src : Nat → UInt8) :
    Option (Nat × World) := do
  let file ← w.files fullPathName
  let n ← reply.transfer.bytes len
  return (n, setFile w fullPathName (file.write offset n src))

end Files

end UserPageCache.SsdCache
