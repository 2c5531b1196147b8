import UserPageCache.SsdCache.Coherence.Effects

namespace UserPageCache.SsdCache

-- A request that hit or was inserted, between its lookup and its end. A WRITE whose data
-- is on the SSD has set_dirty_after_write left to do.
structure Client where
  pio : Pio
  cblock : Nat
  id : Nat
  written : Bool

-- Any number of requests, split at their lookups and their device commands, beside the
-- worker. `calling` is the request inside its lookup. The last fields record what happened:
-- which WRITEs each block holds, which ones the worker's read of a block found, which ones
-- successful writebacks stored, and which ones have returned 0.
structure Traffic where
  core : State
  calling : Option Pio
  clients : List Client
  count : Nat
  holds : Nat → List Nat
  loaded : Option (List Nat)
  saved : List Nat
  acked : List (Nat × Work)

inductive Call where
  | lookup (pio : Pio)
  | nested
  | transfer (i : Nat) (success : Bool)
  | setDirty (i : Nat)
  | worker (a : Action)
  | fillBlock
  | readBlock

def lookupAction (pio : Pio) : Action :=
  if optimizable pio then .lookupMappingWithInsert pio.fullPathName pio.pageIndex
  else .lookupMapping pio.fullPathName pio.pageIndex

def Action.ofWorker : Action → Bool
  | .peakWork | .startPromotion | .completePromotion _ | .startDemotion | .completeDemotion _
  | .startWriteback | .completeWriteback _ | .removeWork => true
  | _ => false

-- The cblock with which a lookup returned.
def answer (s s' : State) : Option Nat :=
  if s.returned.length < s'.returned.length then s'.returned.head? else none

namespace Traffic

def proceed (s : Traffic) (pio : Pio) (core : State) : Traffic :=
  { s with
    core := core
    calling := if core.held.isSome then some pio else none
    clients := s.clients ++ (answer s.core core).toList.map (⟨pio, ·, s.count, false⟩)
    count := s.count + 1 }

-- A device command that fails ends its request.
def transfer (s : Traffic) (i : Nat) (success : Bool) : Traffic :=
  match s.clients[i]? with
  | none => s
  | some r =>
    if success && r.pio.operation == .write then
      { s with
        clients := s.clients.set i { r with written := true }
        holds := Function.update s.holds r.cblock (r.id :: s.holds r.cblock) }
    else { s with clients := s.clients.eraseIdx i }

def setDirty (s : Traffic) (i : Nat) : Traffic :=
  match s.clients[i]? with
  | none => s
  | some r =>
    { s with
      core := s.core.setDirtyAfterWrite r.cblock true
      clients := s.clients.eraseIdx i
      acked := (r.id, r.pio.key) :: s.acked }

-- A block that is freed or filled from the file holds no WRITE any more.
def clear (s : Traffic) (b : Nat) : Traffic :=
  { s with holds := Function.update s.holds b [] }

def work (a : Action) (s : Traffic) : Except Fault Traffic := do
  let core ← State.act a s.core
  match a, s.core.worker with
  | .completePromotion false, .promoting _ b => return { s.clear b with core := core }
  | .completeDemotion true, .demoting _ b => return { s.clear b with core := core }
  | .startWriteback, _ => return { s with core := core, loaded := none }
  | .completeWriteback true, _ =>
    return { s with core := core, saved := s.loaded.getD [] ++ s.saved }
  | _, _ => return { s with core := core }

def act (c : Call) (s : Traffic) : Except Fault Traffic :=
  match c, s.core.worker with
  | .lookup pio, _ => do return s.proceed pio (← State.act (lookupAction pio) s.core)
  | .nested, _ =>
    match s.calling with
    | none => .ok s
    | some pio => do return s.proceed pio (← State.act .nested s.core)
  | .transfer i success, _ => .ok (s.transfer i success)
  | .setDirty i, _ => .ok (s.setDirty i)
  | .worker a, _ => s.work a
  | .fillBlock, .promoting _ b => .ok (s.clear b)
  | .readBlock, .writing _ b => .ok { s with loaded := some (s.holds b) }
  | _, _ => .ok s

-- A writeback succeeds only after it has read its block.
def enabled (s : Traffic) (c : Call) : Bool :=
  match c, s.core.worker with
  | .lookup pio, _ =>
    checkPio pio && pio.operation != .discard && s.core.enabled (lookupAction pio)
  | .nested, _ => s.core.enabled .nested
  | .transfer i _, _ => s.clients[i]?.any fun r => !r.written
  | .setDirty i, _ => s.clients[i]?.any fun r =>
      r.written && s.core.enabled (.setDirtyAfterWrite r.cblock true)
  | .worker (.completeWriteback true), _ =>
    s.loaded.isSome && s.core.enabled (.completeWriteback true)
  | .worker a, _ => a.ofWorker && s.core.enabled a
  | .fillBlock, .promoting _ _ => true
  | .readBlock, .writing _ _ => s.loaded.isNone
  | _, _ => false

end Traffic

def traffic (blockSize cblockNum : Nat) : System Traffic Call Fault where
  start s := (interleaving blockSize cblockNum).start s.core ∧ s.calling = none ∧
    s.clients = [] ∧ s.holds = (fun _ => []) ∧ s.saved = [] ∧ s.acked = []
  enabled c s := s.enabled c = true
  act := Traffic.act

instance (blockSize cblockNum : Nat) (c : Call) (s : Traffic) :
    Decidable ((traffic blockSize cblockNum).enabled c s) :=
  inferInstanceAs (Decidable (s.enabled c = true))

end UserPageCache.SsdCache
