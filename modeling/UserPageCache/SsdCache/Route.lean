import UserPageCache.SsdCache.Interleave.Theorems

namespace UserPageCache.SsdCache

-- A strcpy: its source and the size of the array that it writes to.
structure Copy where
  src : CString
  size : Nat

-- The terminator is written too.
def Copy.Fits (copy : Copy) : Prop := copy.src.length + 1 ≤ copy.size

instance Copy.decidableFits (copy : Copy) : Decidable copy.Fits := inferInstanceAs (Decidable (_ ≤ _))

-- full_path_name in struct work, in struct entry and in do_migration_work.
def WORK_NAME_SIZE : Nat := MAX_PATH_SIZE + 1

def ENTRY_NAME_SIZE : Nat := MAX_PATH_SIZE + 1

def MIGRATION_NAME_SIZE : Nat := MAX_PATH_SIZE

section Copies

def accepts (wq : WorkQueue) (key : Work) : Bool :=
  match insertWork wq key.fullPathName key.cachePageIndex with
  | .ok (_, accepted) => accepted
  | .error _ => false

def insertWorkCopies (wq : WorkQueue) (key : Work) : List Copy :=
  if accepts wq key then [⟨key.fullPathName, WORK_NAME_SIZE⟩] else []

def peakWorkCopies (wq : WorkQueue) (size : Nat) : List Copy :=
  ((peakWork wq).map fun work => ⟨work.fullPathName, size⟩).toList

def promotionFreeToCleanCopies (m : Mapping) (key : Work) : List Copy :=
  if allocatorEmpty m.ea then [] else [⟨key.fullPathName, ENTRY_NAME_SIZE⟩]

-- lookup_mapping_with_insert after its lookup.
def checkNestedCopies (m : Mapping) (key : Work) : List Copy :=
  match containsWork m.wq key.fullPathName key.cachePageIndex with
  | .ok false => if allocatorEmpty m.ea then [] else [⟨key.fullPathName, ENTRY_NAME_SIZE⟩]
  | _ => []

def State.nestedCopies (s : State) : List Copy :=
  match s.held with
  | some (.insertWork key) => insertWorkCopies s.map.wq key
  | some (.containsWork key) => checkNestedCopies s.map key
  | none => []

def State.copies (s : State) (a : Action) : List Copy :=
  match a, s.worker with
  | .nested, _ => s.nestedCopies
  | .peakWork, _ => peakWorkCopies s.map.wq MIGRATION_NAME_SIZE
  | .startPromotion, .peeked key => promotionFreeToCleanCopies s.map key
  | _, _ => []

end Copies

-- What a lookup was called with.
structure Miss where
  fullPathName : CString
  pageIndex : Nat
deriving DecidableEq

def Miss.key (miss : Miss) : Work := State.keyAt miss.pageIndex miss.fullPathName

-- The interleavings with what they are about: the lookup that took mapping_lock last, and the
-- misses whose works wait in the queue.
structure Routing where
  state : State
  latest : Option Miss
  queued : List Miss

namespace Routing

def latestAfter (r : Routing) : Action → Option Miss
  | .lookupMapping fullPathName pageIndex => some ⟨fullPathName, pageIndex⟩
  | .lookupMappingWithInsert fullPathName pageIndex => some ⟨fullPathName, pageIndex⟩
  | _ => r.latest

def queuedAfter (r : Routing) (a : Action) : List Miss :=
  match a, r.state.held with
  | .nested, some (.insertWork key) =>
    if accepts r.state.map.wq key then r.queued ++ r.latest.toList else r.queued
  | .removeWork, _ => r.queued.tail
  | _, _ => r.queued

-- A copy that does not fit ends the run: what is behind the array is overwritten.
def act (a : Action) (r : Routing) : Except (Option Fault) Routing :=
  if ∀ copy ∈ r.state.copies a, copy.Fits then
    match State.act a r.state with
    | .ok s => .ok ⟨s, r.latestAfter a, r.queuedAfter a⟩
    | .error fault => .error (some fault)
  else .error none

-- The action works for this miss.
def Serves (r : Routing) (miss : Miss) : Action → Prop
  | .nested => r.latest = some miss
  | .peakWork => r.queued.head? = some miss
  | .startPromotion => r.queued.head? = some miss
  | _ => False

end Routing

def Action.Documented : Action → Prop
  | .lookupMapping fullPathName _ => fullPathName.length ≤ MAX_PATH_SIZE
  | .lookupMappingWithInsert fullPathName _ => fullPathName.length ≤ MAX_PATH_SIZE
  | _ => True

def routing (blockSize cblockNum : Nat) : System Routing Action (Option Fault) where
  start r := (interleaving blockSize cblockNum).start r.state ∧ r.latest = none ∧ r.queued = []
  enabled a r := r.state.enabled a = true ∧ a.Documented
  act := Routing.act

-- Whatever runs in between, the strcpys for this miss fit and its block is hashed under its key.
-- The second part is about runs that discard no block in flight.
structure RouteKept (miss : Miss) : Prop where
  copies : ∀ {blockSize cblockNum r a}, (routing blockSize cblockNum).Reachable System.Always r →
    (routing blockSize cblockNum).enabled a r → r.Serves miss a →
      ∀ copy ∈ r.state.copies a, copy.Fits
  hashed : ∀ {blockSize cblockNum r r' b},
    (routing blockSize cblockNum).Reachable (fun a r => Settled a r.state) r →
    r.queued.head? = some miss → r.state.worker.arriving = some b →
    r.act (.completePromotion true) = .ok r' →
      ∀ key, r'.state.map.found key = some b ↔ key = miss.key

end UserPageCache.SsdCache
