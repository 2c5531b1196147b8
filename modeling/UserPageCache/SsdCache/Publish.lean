import UserPageCache.Lib.System
import UserPageCache.SsdCache.Sequential

namespace UserPageCache.SsdCache

-- The worker one step at a time, beside clients whose WRITEs may stop between a lookup
-- that missed and the access to the file. `spec` is what the finished requests stored,
-- over what the files held at first.
structure Race where
  cache : Cache
  world : World
  worker : Worker Work
  stage : Stage
  missed : List Pio
  spec : Contents

inductive Move where
  | submit (pio : Pio)
  | writeOrigin (i : Nat)
  | peakWork
  | startPromotion
  | readFile
  | writeBlock
  | completePromotion
  | startDemotion
  | trim (deallocated : Option (Nat → UInt8))
  | completeDemotion
  | startWriteback
  | readBlock
  | writeFile
  | completeWriteback
  | removeWork

instance (pio : Pio) (w : World) : Decidable (pio.Fits w) :=
  decidable_of_iff (checkPio pio = true ∧ pio.buffers.length = pio.pioCnt ∧
      (pio.fd = 0 ∨
        w.descriptors pio.fd = some pio.fullPathName ∧ (w.files pio.fullPathName).isSome) ∧
      pio.pageIndex < 2 ^ 20)
    ⟨fun h => ⟨h.1, h.2.1, h.2.2.1, h.2.2.2⟩, fun h => ⟨h.1, h.2, h.3, h.4⟩⟩

namespace Race

def setMap (s : Race) (m : Mapping) : Race := { s with cache := { s.cache with map := m } }

-- A request up to its end, or a WRITE up to its miss.
def submit (s : Race) (pio : Pio) : Except Fault Race := do
  let (m, cblock) ← mapLookup s.cache pio
  let s := s.setMap m
  match cblock with
  | some cblock =>
    let (cache, w, _, _) ← mapToCache s.cache s.world .success pio cblock
    return { s with cache := cache, world := w, spec := s.spec.after pio }
  | none =>
    if pio.operation = .read then
      let (w, _, _) ← readOrigin s.world .success pio
      return { s with world := w }
    else return { s with missed := s.missed ++ [pio] }

-- The rest of a WRITE that missed.
def writeOrigin (s : Race) (i : Nat) : Except Fault Race :=
  match s.missed[i]? with
  | none => .ok s
  | some pio => do
    let (w, _) ← SsdCache.writeOrigin s.world .success pio
    return { s with world := w, missed := s.missed.eraseIdx i, spec := s.spec.store pio }

def peakWork (s : Race) : Race :=
  match SsdCache.peakWork s.cache.map.wq with
  | some key => { s with worker := .peeked key }
  | none => s

def removeWork (s : Race) : Race :=
  { s.setMap { s.cache.map with wq := (SsdCache.removeWork s.cache.map.wq).1 } with
    worker := .idle }

def startPromotion (s : Race) (key : Work) : Except Fault Race := do
  match ← promotionFreeToClean s.cache.map key.fullPathName key.cachePageIndex with
  | some (m, cblock) => return { s.setMap m with worker := .promoting key cblock, stage := .begun }
  | none => return { s with worker := .full key }

def startDemotion (s : Race) (key : Work) : Except Fault Race := do
  match ← demotionCleanToFree s.cache.map with
  | some (m, cblock) => return { s.setMap m with worker := .demoting key cblock, stage := .begun }
  | none => return { s with worker := .unevictable key }

def startWriteback (s : Race) (key : Work) : Except Fault Race := do
  match ← writebackDirtyToClean s.cache.map with
  | some (m, cblock) => return { s.setMap m with worker := .writing key cblock, stage := .begun }
  | none => return { s with worker := .finished key }

-- The file calls and the device commands of mg_start, each on its own.
def readFile (s : Race) (key : Work) : Race :=
  match loadFile s.world .success key.fullPathName key.cachePageIndex with
  | some w => { s with world := w, stage := .loaded }
  | none => { s with stage := .failed }

def writeBlock (s : Race) (cblock : Nat) : Race :=
  match storeCblock s.cache.map s.world .success cblock with
  | (w, rc) => { s with world := w, stage := if rc = 0 then .stored else .failed }

def trim (s : Race) (deallocated : Option (Nat → UInt8)) : Race :=
  { s with
    world := trimCblock s.cache.map s.world { Replies.success with deallocated := deallocated } 0
    stage := .stored }

def readBlock (s : Race) (cblock : Nat) : Race :=
  match loadCblock s.cache.map s.world .success cblock with
  | (w, rc) => { s with world := w, stage := if rc = 0 then .loaded else .failed }

def writeFile (s : Race) (e : Entry) : Race :=
  match storeFile s.world .success e.fullPathName e.cachePageIndex with
  | some w => { s with world := w, stage := .stored }
  | none => { s with stage := .failed }

def completeWith (s : Race) (key : Work) (m : Except Fault Mapping) : Except Fault Race := do
  return { s.setMap (← m) with worker := .finished key, stage := .begun }

def act (a : Move) (s : Race) : Except Fault Race :=
  match a, s.worker with
  | .submit pio, _ => s.submit pio
  | .writeOrigin i, _ => s.writeOrigin i
  | .peakWork, _ => .ok s.peakWork
  | .startPromotion, .peeked key => s.startPromotion key
  | .readFile, .promoting key _ => .ok (s.readFile key)
  | .writeBlock, .promoting _ cblock => .ok (s.writeBlock cblock)
  | .completePromotion, .promoting key cblock =>
    s.completeWith key (promotionComplete s.cache.map cblock (s.stage == .stored))
  | .startDemotion, .full key => s.startDemotion key
  | .trim deallocated, _ => .ok (s.trim deallocated)
  | .completeDemotion, .demoting key cblock =>
    s.completeWith key (demotionComplete s.cache.map cblock true)
  | .startWriteback, .unevictable key => s.startWriteback key
  | .readBlock, .writing _ cblock => .ok (s.readBlock cblock)
  | .writeFile, .writing _ cblock => .ok (s.writeFile (s.cache.map.es cblock))
  | .completeWriteback, .writing key cblock =>
    s.completeWith key (writebackComplete s.cache.map cblock (s.stage == .stored))
  | .removeWork, _ => .ok s.removeWork
  | _, _ => .ok s

-- A block is written back only to a file that opens.
def enabled (s : Race) (a : Move) : Bool :=
  match a, s.worker, s.stage with
  | .submit pio, _, _ => decide (pio.Fits s.world) && pio.operation != .discard
  | .writeOrigin i, _, _ => decide (i < s.missed.length)
  | .peakWork, .idle, _ => true
  | .startPromotion, .peeked _, _ => true
  | .readFile, .promoting _ _, .begun => true
  | .writeBlock, .promoting _ _, .loaded => true
  | .completePromotion, .promoting _ _, .stored => true
  | .completePromotion, .promoting _ _, .failed => true
  | .startDemotion, .full _, _ => true
  | .trim _, .demoting _ _, .begun => true
  | .completeDemotion, .demoting _ _, .stored => true
  | .startWriteback, .unevictable _, _ => true
  | .readBlock, .writing _ _, .begun => true
  | .writeFile, .writing _ cblock, .loaded =>
    (s.world.files (s.cache.map.es cblock).fullPathName).isSome
  | .completeWriteback, .writing _ _, .stored => true
  | .removeWork, .finished _, _ => true
  | _, _, _ => false

def found (s : Race) (key : Work) : Option Nat :=
  (find s.cache.map key.fullPathName key.cachePageIndex).toOption.bind Prod.snd

end Race

def racing (blockSize cblockNum : Nat) : System Race Move Fault where
  start s := Session.Booted ⟨s.cache, s.world⟩ blockSize cblockNum ∧ s.worker = .idle ∧
    s.missed = [] ∧ s.spec = fileContents s.world
  enabled a s := s.enabled a = true
  act := Race.act

instance (blockSize cblockNum : Nat) (a : Move) (s : Race) :
    Decidable ((racing blockSize cblockNum).enabled a s) :=
  inferInstanceAs (Decidable (s.enabled a = true))

-- A WRITE that missed reaches its file while its block is not in the cache, or on its way out,
-- and is not being promoted from what the file held before. No other WRITE meets a block on its
-- way out, and a deallocated range shows only on the block that is demoted.
def Orderly (a : Move) (s : Race) : Prop :=
  match a with
  | .submit pio => pio.operation = .write →
      ∀ cblock ∈ s.worker.leaving, keyOf (s.cache.map.es cblock) ≠ pio.key
  | .writeOrigin i => ∀ pio ∈ s.missed[i]?,
      (∀ cblock ∈ s.found pio.key, s.worker.leaving = some cblock) ∧
      (s.worker.fetching = some pio.key → s.stage ≠ .loaded ∧ s.stage ≠ .stored)
  | .trim deallocated => deallocated.isNone ∨ entryGetAlloc (s.cache.map.es 0) = false ∨
      s.worker.leaving = some 0
  | _ => True

instance (a : Move) (s : Race) : Decidable (Orderly a s) :=
  match a with
  | .submit _ => inferInstanceAs (Decidable (_ → _))
  | .writeOrigin i => inferInstanceAs (Decidable (∀ pio ∈ s.missed[i]?, _))
  | .trim _ => inferInstanceAs (Decidable (_ ∨ _))
  | .peakWork | .startPromotion | .readFile | .writeBlock | .completePromotion | .startDemotion
  | .completeDemotion | .startWriteback | .readBlock | .writeFile | .completeWriteback
  | .removeWork => inferInstanceAs (Decidable True)

-- The block being demoted counts as one of the cache for as long as a lookup finds it.
def Undisturbed (a : Move) (s : Race) : Prop :=
  Orderly a s ∧
    match a with
    | .writeOrigin i => ∀ pio ∈ s.missed[i]?, s.found pio.key = none
    | .trim deallocated => deallocated.isNone ∨ entryGetAlloc (s.cache.map.es 0) = false
    | _ => True

instance (a : Move) (s : Race) : Decidable (Undisturbed a s) :=
  match a with
  | .writeOrigin i => inferInstanceAs (Decidable (_ ∧ ∀ pio ∈ s.missed[i]?, _))
  | .trim _ => inferInstanceAs (Decidable (_ ∧ (_ ∨ _)))
  | .submit _ | .peakWork | .startPromotion | .readFile | .writeBlock | .completePromotion
  | .startDemotion | .completeDemotion | .startWriteback | .readBlock | .writeFile
  | .completeWriteback | .removeWork => inferInstanceAs (Decidable (_ ∧ True))

end UserPageCache.SsdCache
