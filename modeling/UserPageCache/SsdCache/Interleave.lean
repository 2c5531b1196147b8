import UserPageCache.Lib.System
import UserPageCache.SsdCache.Mapping
import UserPageCache.SsdCache.Table

namespace UserPageCache.SsdCache

-- What a client that holds mapping_lock does next under the work queue's lock.
inductive Nested where
  | insertWork (key : Work)
  | containsWork (key : Work)
deriving DecidableEq

-- `returned` collects every cblock that a lookup has returned.
structure State where
  map : Mapping
  worker : Worker Work
  held : Option Nested
  returned : List Nat

-- One action is what a thread does from one lock operation to the next.
inductive Action where
  | lookupMapping (fullPathName : CString) (pageIndex : Nat)
  | lookupMappingWithInsert (fullPathName : CString) (pageIndex : Nat)
  | nested
  | setDirtyAfterWrite (cblock : Nat) (dirty : Bool)
  | removeMapping (fullPathName : CString) (pageIndex : Nat)
  | peakWork
  | startPromotion
  | completePromotion (success : Bool)
  | startDemotion
  | completeDemotion (success : Bool)
  | startWriteback
  | completeWriteback (success : Bool)
  | removeWork
deriving DecidableEq

namespace State

def keyAt (pageIndex : Nat) (fullPathName : CString) : Work :=
  ⟨fullPathName, toCachePageIndex pageIndex⟩

-- The lookup that opens lookup_mapping and lookup_mapping_with_insert.
def lookup (s : State) (key : Work) (miss : Nested) : Except Fault State := do
  match ← find s.map key.fullPathName key.cachePageIndex with
  | (m, some e) =>
    return { s with map := lookupHit m e, returned := inferCblock m e :: s.returned }
  | (m, none) => return { s with map := lookupMiss m, held := some miss }

def insertNested (s : State) (key : Work) : Except Fault State := do
  return { s with map := ← enqueue s.map key.fullPathName key.cachePageIndex, held := none }

def checkNested (s : State) (key : Work) : Except Fault State := do
  if ← containsWork s.map.wq key.fullPathName key.cachePageIndex then
    return { s with held := none }
  if allocatorEmpty s.map.ea then return { s with held := some (.insertWork key) }
  let (m, cblock) ← insertDirty s.map key.fullPathName key.cachePageIndex
  return { s with map := m, held := none, returned := cblock.toList ++ s.returned }

def nested (s : State) : Except Fault State :=
  match s.held with
  | some (.insertWork key) => s.insertNested key
  | some (.containsWork key) => s.checkNested key
  | none => .ok s

def setDirtyAfterWrite (s : State) (cblock : Nat) (dirty : Bool) : State :=
  { s with map := SsdCache.setDirtyAfterWrite s.map cblock dirty }

def removeMapping (s : State) (fullPathName : CString) (pageIndex : Nat) : Except Fault State := do
  let (m, _) ← SsdCache.removeMapping s.map fullPathName pageIndex
  return { s with map := m }

def peakWork (s : State) : State :=
  match SsdCache.peakWork s.map.wq with
  | some key => { s with worker := .peeked key }
  | none => s

def removeWork (s : State) : State :=
  { s with map := { s.map with wq := (SsdCache.removeWork s.map.wq).1 }, worker := .idle }

def startPromotion (s : State) (key : Work) : Except Fault State := do
  match ← promotionFreeToClean s.map key.fullPathName key.cachePageIndex with
  | some (m, cblock) => return { s with map := m, worker := .promoting key cblock }
  | none => return { s with worker := .full key }

def startDemotion (s : State) (key : Work) : Except Fault State := do
  match ← demotionCleanToFree s.map with
  | some (m, cblock) => return { s with map := m, worker := .demoting key cblock }
  | none => return { s with worker := .unevictable key }

def startWriteback (s : State) (key : Work) : Except Fault State := do
  match ← writebackDirtyToClean s.map with
  | some (m, cblock) => return { s with map := m, worker := .writing key cblock }
  | none => return { s with worker := .finished key }

def completeWith (s : State) (key : Work) (m : Except Fault Mapping) : Except Fault State := do
  return { s with map := ← m, worker := .finished key }

def act (a : Action) (s : State) : Except Fault State :=
  match a, s.worker with
  | .lookupMapping fullPathName pageIndex, _ =>
    s.lookup (keyAt pageIndex fullPathName) (.insertWork (keyAt pageIndex fullPathName))
  | .lookupMappingWithInsert fullPathName pageIndex, _ =>
    s.lookup (keyAt pageIndex fullPathName) (.containsWork (keyAt pageIndex fullPathName))
  | .nested, _ => s.nested
  | .setDirtyAfterWrite cblock dirty, _ => .ok (s.setDirtyAfterWrite cblock dirty)
  | .removeMapping fullPathName pageIndex, _ => s.removeMapping fullPathName pageIndex
  | .peakWork, _ => .ok s.peakWork
  | .startPromotion, .peeked key => s.startPromotion key
  | .completePromotion success, .promoting key cblock =>
    s.completeWith key (promotionComplete s.map cblock success)
  | .startDemotion, .full key => s.startDemotion key
  | .completeDemotion success, .demoting key cblock =>
    s.completeWith key (demotionComplete s.map cblock success)
  | .startWriteback, .unevictable key => s.startWriteback key
  | .completeWriteback success, .writing key cblock =>
    s.completeWith key (writebackComplete s.map cblock success)
  | .removeWork, _ => .ok s.removeWork
  | _, _ => .ok s

-- Everything but the worker's own queue operations needs mapping_lock.
def enabled (s : State) (a : Action) : Bool :=
  match a, s.worker with
  | .nested, _ => s.held.isSome
  | .peakWork, .idle => true
  | .removeWork, .finished _ => true
  | .lookupMapping _ _, _ => s.held.isNone
  | .lookupMappingWithInsert _ _, _ => s.held.isNone
  | .setDirtyAfterWrite cblock _, _ => s.held.isNone && s.returned.contains cblock
  | .removeMapping _ _, _ => s.held.isNone
  | .startPromotion, .peeked _ => s.held.isNone
  | .completePromotion _, .promoting _ _ => s.held.isNone
  | .startDemotion, .full _ => s.held.isNone
  | .completeDemotion _, .demoting _ _ => s.held.isNone
  | .startWriteback, .unevictable _ => s.held.isNone
  | .completeWriteback _, .writing _ _ => s.held.isNone
  | _, _ => false

end State

-- At most CACHE_BLOCK_NUMBER entries exist.
def interleaving (blockSize cblockNum : Nat) : System State Action Fault where
  start s := cblockNum ≤ CACHE_BLOCK_NUMBER ∧
    initMapping zeroMapping blockSize cblockNum = some s.map ∧
    s.worker = .idle ∧ s.held = none ∧ s.returned = []
  enabled a s := s.enabled a = true
  act := State.act

instance (blockSize cblockNum : Nat) (a : Action) (s : State) :
    Decidable ((interleaving blockSize cblockNum).enabled a s) :=
  inferInstanceAs (Decidable (s.enabled a = true))

def State.boot (blockSize cblockNum : Nat) : State :=
  ⟨(initMapping zeroMapping blockSize cblockNum).getD zeroMapping, .idle, none, []⟩

-- No block is discarded while it is being demoted or written back.
def Settled (a : Action) (s : State) : Prop :=
  ∀ fullPathName pageIndex, a = .removeMapping fullPathName pageIndex →
    ∀ cblock, s.worker.moving = some cblock →
      (s.map.es cblock).fullPathName ≠ fullPathName ∨
        (s.map.es cblock).cachePageIndex ≠ toCachePageIndex pageIndex

end UserPageCache.SsdCache
