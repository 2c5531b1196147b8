import UserPageCache.Basic

namespace UserPageCache.SsdCache

def INDEXER_NULL : Nat := 2 ^ 28 - 1

structure Entry where
  hashNext : Nat
  prev : Nat
  next : Nat
  param : BitVec 3
  fullPathName : CString
  cachePageIndex : Nat
deriving DecidableEq

-- The array of entries, read and written at indices.
abbrev EntrySpace := Nat → Entry

structure Ilist where
  nrElts : Nat
  head : Nat
  tail : Nat
deriving DecidableEq

structure EntryAlloc where
  begin : Nat
  nrAllocated : Nat
  free : Ilist

def toEntry (block : Nat) : Option Nat :=
  if block = INDEXER_NULL then none else some block

section Ilist

def lInit : Ilist := ⟨0, INDEXER_NULL, INDEXER_NULL⟩

def lHead (l : Ilist) : Option Nat := toEntry l.head

def lTail (l : Ilist) : Option Nat := toEntry l.tail

def lNext (es : EntrySpace) (e : Nat) : Option Nat := toEntry (es e).next

def lPrev (es : EntrySpace) (e : Nat) : Option Nat := toEntry (es e).prev

def lEmpty (l : Ilist) : Bool := l.head == INDEXER_NULL

def setNext (es : EntrySpace) (e next : Nat) : EntrySpace :=
  Function.update es e { es e with next := next }

def setPrev (es : EntrySpace) (e prev : Nat) : EntrySpace :=
  Function.update es e { es e with prev := prev }

def lAddHead (es : EntrySpace) (l : Ilist) (e : Nat) : EntrySpace × Ilist :=
  let es := setPrev (setNext es e l.head) e INDEXER_NULL
  match lHead l with
  | some head => (setPrev es head e, { l with nrElts := inc l.nrElts, head := e })
  | none => (es, { nrElts := inc l.nrElts, head := e, tail := e })

def lAddTail (es : EntrySpace) (l : Ilist) (e : Nat) : EntrySpace × Ilist :=
  let es := setPrev (setNext es e INDEXER_NULL) e l.tail
  match lTail l with
  | some tail => (setNext es tail e, { l with nrElts := inc l.nrElts, tail := e })
  | none => (es, { nrElts := inc l.nrElts, head := e, tail := e })

def lDel (es : EntrySpace) (l : Ilist) (e : Nat) : EntrySpace × Ilist :=
  let prev := lPrev es e
  let next := lNext es e
  let (es, l) := match prev with
    | some p => (setNext es p (es e).next, l)
    | none => (es, { l with head := (es e).next })
  let (es, l) := match next with
    | some n => (setPrev es n (es e).prev, l)
    | none => (es, { l with tail := (es e).prev })
  (es, { l with nrElts := dec l.nrElts })

def lPopHead (es : EntrySpace) (l : Ilist) : Option (EntrySpace × Ilist × Nat) :=
  match lHead l with
  | some e => some ((lDel es l e).1, (lDel es l e).2, e)
  | none => none

end Ilist

section Entry

def initEntry (e : Entry) : Entry :=
  { e with
    hashNext := INDEXER_NULL
    prev := INDEXER_NULL
    next := INDEXER_NULL
    param := 0
    fullPathName := []
    cachePageIndex := INDEXER_NULL }

-- `param` packs the three flags into one bit each.
def paramSet (e : Entry) (bit : BitVec 3) (on : Bool) : Entry :=
  if on then { e with param := e.param ||| bit } else { e with param := e.param &&& ~~~bit }

def paramGet (e : Entry) (bit : BitVec 3) : Bool := e.param &&& bit != 0

def entrySetPending (e : Entry) (pending : Bool) : Entry := paramSet e 1#3 pending

def entryGetPending (e : Entry) : Bool := paramGet e 1#3

def entrySetDirty (e : Entry) (dirty : Bool) : Entry := paramSet e 2#3 dirty

def entryGetDirty (e : Entry) : Bool := paramGet e 2#3

def entrySetAlloc (e : Entry) (alloc : Bool) : Entry := paramSet e 4#3 alloc

def entryGetAlloc (e : Entry) : Bool := paramGet e 4#3

end Entry

section Allocator

def initAllocator (ea : EntryAlloc) (es : EntrySpace) (begin last : Nat) :
    EntryAlloc × EntrySpace :=
  let (es, free) := (List.range' begin (last - begin)).foldl
    (fun (s : EntrySpace × Ilist) i => lAddTail s.1 s.2 i) (es, lInit)
  ({ ea with nrAllocated := 0, begin := begin, free := free }, es)

def allocEntry (ea : EntryAlloc) (es : EntrySpace) : Option (EntryAlloc × EntrySpace × Nat) :=
  if lEmpty ea.free then none
  else match lPopHead es ea.free with
    | some (es, free, e) =>
      some ({ ea with free := free, nrAllocated := inc ea.nrAllocated },
        Function.update es e (entrySetAlloc (initEntry (es e)) true), e)
    | none => none

def freeEntry (ea : EntryAlloc) (es : EntrySpace) (e : Nat) : EntryAlloc × EntrySpace :=
  let es₁ := Function.update es e (entrySetAlloc (es e) false)
  let (es₂, free) := lAddTail es₁ ea.free e
  ({ ea with free := free, nrAllocated := dec ea.nrAllocated }, es₂)

def allocatorEmpty (ea : EntryAlloc) : Bool := lEmpty ea.free

def getIndex (ea : EntryAlloc) (e : Nat) : Nat := u32 (e + (2 ^ 32 - ea.begin))

end Allocator

end UserPageCache.SsdCache
