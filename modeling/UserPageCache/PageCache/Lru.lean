import UserPageCache.Lib.Bytes
import UserPageCache.SsdCache.Target

namespace UserPageCache.PageCache

open SsdCache (Operate)

-- The 4096 bytes of one page.
abbrev Frame := Fin PAGE_SIZE → UInt8

-- Pointers to struct PAGE are positions in mem_map.
structure Page where
  flag : Nat
  pathName : Option CString
  index : Nat
  prev : Option Nat
  next : Option Nat

def PG_dirty : Nat := 0x02

def PG_lru : Nat := 0x04

structure HashEntry where
  pathName : CString
  pageIndex : Nat
  pagePtr : Nat
deriving DecidableEq

structure LruCache where
  head : Option Nat
  tail : Option Nat

structure PageFreeList where
  head : Option Nat
  nrFree : Nat

-- One pio of one page as submit_pio received it, with what it answered.
structure Submission where
  operation : Operate
  pathName : CString
  pageIndex : Nat
  frame : Frame
  accepted : Bool

-- What lies behind submit_pio: a store of pages that may refuse any request.
structure Store where
  pages : CString → Nat → Frame
  answers : Nat → Bool
  log : List Submission

-- Chains of hash entries are lists, the newest entry first.
structure State where
  cacheSize : Nat
  memMap : Nat → Page
  physBase : Nat → Frame
  lruList : LruCache
  freeList : PageFreeList
  hashTable : Nat → List HashEntry
  store : Store

def submitPio (d : Store) (operation : Operate) (pathName : CString) (pageIndex : Nat)
    (frame : Frame) : Store × Frame :=
  let accepted := d.answers d.log.length
  let d' := { d with log := d.log ++ [⟨operation, pathName, pageIndex, frame, accepted⟩] }
  match operation, accepted with
  | .write, true =>
    let file := Function.update (d.pages pathName) pageIndex frame
    ({ d' with pages := Function.update d.pages pathName file }, frame)
  | .read, true => (d', d.pages pathName pageIndex)
  | _, _ => (d', frame)

namespace State

def setPage (s : State) (pg : Nat) (f : Page → Page) : State :=
  { s with memMap := Function.update s.memMap pg (f (s.memMap pg)) }

def setFrame (s : State) (pg : Nat) (frame : Frame) : State :=
  { s with physBase := Function.update s.physBase pg frame }

end State

section HashTable

def hashPath (pathName : CString) : Nat :=
  pathName.foldl (fun hash c => u32 (hash * 31 + c.toUnsigned)) 0

def hashFunction (s : State) (pathName : CString) (index : Nat) : Nat :=
  u32 (hashPath pathName + index) % s.cacheSize

def HashEntry.same (e : HashEntry) (pathName : CString) (index : Nat) : Bool :=
  e.pathName == pathName && e.pageIndex == index

def hashTableLookup (s : State) (pathName : CString) (index : Nat) : Option HashEntry :=
  (s.hashTable (hashFunction s pathName index)).find? (·.same pathName index)

def setBucket (s : State) (i : Nat) (chain : List HashEntry) : State :=
  { s with hashTable := Function.update s.hashTable i chain }

def hashTableInsert (s : State) (pg : Nat) : Except Fault State :=
  let index := (s.memMap pg).index
  match (s.memMap pg).pathName with
  | none => .error .nullDereference
  | some pathName =>
    let i := hashFunction s pathName index
    .ok (setBucket s i (⟨pathName, index, pg⟩ :: s.hashTable i))

-- Zero when an entry was removed, one when none was found.
def hashTableRemove (s : State) (pg : Nat) : Except Fault (State × Nat) :=
  let index := (s.memMap pg).index
  match (s.memMap pg).pathName with
  | none => .error .nullDereference
  | some pathName =>
    let i := hashFunction s pathName index
    let chain := s.hashTable i
    if chain.any (·.same pathName index) then
      .ok (setBucket s i (chain.eraseP (·.same pathName index)), 0)
    else .ok (s, 1)

end HashTable

section LruList

def setPrev (s : State) (pg : Option Nat) (prev : Option Nat) : State :=
  match pg with
  | some pg => s.setPage pg fun x => { x with prev := prev }
  | none => s

def setNext (s : State) (pg : Option Nat) (next : Option Nat) : State :=
  match pg with
  | some pg => s.setPage pg fun x => { x with next := next }
  | none => s

def setHead (s : State) (pg : Option Nat) : State :=
  { s with lruList := { s.lruList with head := pg } }

def setTail (s : State) (pg : Option Nat) : State :=
  { s with lruList := { s.lruList with tail := pg } }

def addToLruHead (s : State) (pg : Nat) : Except Fault State :=
  let s := s.setPage pg fun x => { x with flag := x.flag ||| PG_lru }
  let s := setPrev s s.lruList.head (some pg)
  let s := setNext s (some pg) s.lruList.head
  let s := setHead s (some pg)
  let s := if s.lruList.tail = none then setTail s (some pg) else s
  hashTableInsert s pg

-- The links around a page, as move_to_lru_head and remove_from_lru both close them.
def closeNext (s : State) (pg : Nat) : State :=
  match (s.memMap pg).next with
  | some next => setPrev s (some next) (s.memMap pg).prev
  | none => setTail s (s.memMap pg).prev

def moveToLruHead (s : State) (pg : Nat) : State :=
  match (s.memMap pg).prev with
  | none => s
  | some prev =>
    let s := setNext s (some prev) (s.memMap pg).next
    let s := closeNext s pg
    let s := setPrev s (some pg) none
    let s := setNext s (some pg) s.lruList.head
    setHead s (some pg)

def pushFree (s : State) (pg : Nat) : State :=
  let s := setNext s (some pg) s.freeList.head
  { s with freeList := ⟨some pg, s.freeList.nrFree + 1⟩ }

def removeFromLru (s : State) (pg : Nat) : Except Fault State := do
  let (s, rc) ← hashTableRemove s pg
  if rc = 1 then throw (.exit 1)
  let s := match (s.memMap pg).prev with
    | some prev => setNext s (some prev) (s.memMap pg).next
    | none => setHead s (s.memMap pg).next
  let s := closeNext s pg
  let s := pushFree s pg
  return s.setPage pg fun x => { x with pathName := none, index := 0, flag := 0, prev := none }

end LruList

end UserPageCache.PageCache
