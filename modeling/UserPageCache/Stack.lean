import UserPageCache.PageCache.Marked
import UserPageCache.SsdCache.Publish.Theorems

namespace UserPageCache

open PageCache (Agreeing Call Key Ledger Store Submission ledgers overlay)
open SsdCache (Move Orderly Pio Race Work entryGetDirty fileContents keyOf racing ssdPage)

-- The request that create_pio makes of a submission.
def PageCache.Submission.pio (e : Submission) : Pio :=
  ⟨e.pathName, 0, e.pageIndex, e.operation, [e.frame], 1⟩

def SsdCache.Move.submits : Move → Bool
  | .submit _ => true
  | _ => false

-- How far exit_page_cache has come: it has freed the page memory, and exit_ssd_cache in it
-- has unmapped and unlinked the mapping.
inductive Phase where
  | running
  | leaving
  | gone
deriving DecidableEq

-- The page cache over the SSD cache. `pending` are the pios of the current call that the SSD
-- cache has not been given yet, and `behind` is the store that the page cache has seen when the
-- others are done. `written` are the pages that uwrite has written so far.
structure Stack where
  ledger : Ledger
  written : List Key
  behind : Store
  pending : List Submission
  ssd : Race
  phase : Phase

inductive Deed where
  | call (c : Call)
  | submitPio
  | move (a : Move)
  | exitPageCache
  | exitSsdCache

namespace Stack

-- Neither exit writes anything: the page memory is freed as it is, and the worker ends before
-- the mapping is unmapped.
def act : Deed → Stack → Except Fault Stack
  | .call c, x => do
    let state ← c.act x.ledger.state
    let images := c.images x.ledger.state
    return { x with
      ledger := ⟨state, overlay images x.ledger.contents⟩
      written := x.written ++ images.map Prod.fst
      pending := state.store.log.drop x.ledger.state.store.log.length }
  | .submitPio, x =>
    match x.pending with
    | [] => .ok x
    | e :: rest => do
      let ssd ← x.ssd.submit e.pio
      return { x with ssd := ssd, behind := Submission.redo x.behind e, pending := rest }
  | .move a, x => do return { x with ssd := ← Race.act a x.ssd }
  | .exitPageCache, x => .ok { x with phase := .leaving }
  | .exitSsdCache, x => .ok { x with phase := .gone }

-- The last call has returned.
def ready (x : Stack) : Bool :=
  x.phase == .running && x.pending.isEmpty && x.ssd.missed.isEmpty

-- The worker goes on until it is cancelled, which may be in the middle of a migration: open,
-- pread and pwrite are cancellation points too.
def enabled (x : Stack) : Deed → Bool
  | .call _ => x.ready
  | .submitPio => !x.pending.isEmpty && x.ssd.missed.isEmpty
  | .move a => x.phase != .gone && !a.submits && x.ssd.enabled a
  | .exitPageCache => x.ready
  | .exitSsdCache => x.phase == .leaving

end Stack

-- The store has what the SSD cache promises.
def Backs (spec : SsdCache.Contents) (d : Store) : Prop :=
  ∀ path i page, spec path i = some page → d.pages path i = page

def stacking (cacheSize blockSize cblockNum : Nat) : System Stack Deed Fault where
  start x := (ledgers cacheSize).start x.ledger ∧ (racing blockSize cblockNum).start x.ssd ∧
    Backs x.ssd.spec x.ledger.state.store ∧ x.behind = x.ledger.state.store ∧ x.pending = [] ∧
    x.written = [] ∧ x.phase = .running
  enabled a x := x.enabled a = true
  act := Stack.act

instance (cacheSize blockSize cblockNum : Nat) (a : Deed) (x : Stack) :
    Decidable ((stacking cacheSize blockSize cblockNum).enabled a x) :=
  inferInstanceAs (Decidable (x.enabled a = true))

-- The block that a writeback is about to store.
def SsdCache.Race.storing (s : Race) : Option Nat :=
  match s.worker with
  | .writing _ cblock => if s.stage = .stored then none else some cblock
  | _ => none

-- The block may be newer than its file.
def SsdCache.Race.Unstored (s : Race) (cblock : Nat) : Prop :=
  entryGetDirty (s.cache.map.es cblock) = true ∨ s.storing = some cblock

instance (s : Race) (cblock : Nat) : Decidable (s.Unstored cblock) :=
  inferInstanceAs (Decidable (_ ∨ _))

namespace Stack

-- Of every page the SSD cache has been given the data of its last uwrite.
def Handed (x : Stack) : Prop :=
  ∀ key ∈ x.written, x.ssd.spec key.1 key.2 = some (x.ledger.contents key)

-- So has its file.
def Saved (x : Stack) : Prop :=
  ∀ key ∈ x.written, fileContents x.ssd.world key.1 key.2 = some (x.ledger.contents key)

-- No page marked PG_dirty is newer than what the SSD cache has of it.
def Drained (x : Stack) : Prop :=
  ∀ pg < x.ledger.state.cacheSize, x.ledger.state.dirty pg = true →
    ∀ key ∈ x.ledger.state.keyAt pg, (x.ledger.state.entries key).head? = some pg →
      x.ssd.spec key.1 key.2 = some (x.ledger.state.physBase pg)

-- No block that is dirty or being written back is newer than its file, on the pages of `written`.
def Flushed (x : Stack) : Prop :=
  ∀ key ∈ x.written, ∀ cblock ∈ x.ssd.found (SsdCache.State.keyAt key.2 key.1),
    x.ssd.Unstored cblock →
      fileContents x.ssd.world key.1 key.2 = some (ssdPage x.ssd.world cblock (key.2 % 8))

instance (x : Stack) : Decidable x.Drained :=
  inferInstanceAs (Decidable (∀ pg < _, _ → ∀ key ∈ _, _))

instance (x : Stack) : Decidable x.Flushed :=
  inferInstanceAs (Decidable (∀ key ∈ x.written, ∀ cblock ∈ _, _))

end Stack

-- What a run has to keep to for its data to survive: at the exits, that nothing newer is left
-- behind, and before that what each of the two caches needs to be right on its own.
def Preserving (a : Deed) (x : Stack) : Prop :=
  match a with
  | .call c => Agreeing c x.ledger ∧ c.stream.ioOffset + c.len ≤ 2 ^ 20 * PAGE_SIZE
  | .submitPio => ∀ e ∈ x.pending.head?, e.pageIndex < 2 ^ 20 ∧
      ∀ cblock ∈ x.ssd.worker.leaving, keyOf (x.ssd.cache.map.es cblock) ≠ e.pio.key
  | .move a => Orderly a x.ssd
  | .exitPageCache => x.Drained
  | .exitSsdCache => x.Flushed

instance : (a : Deed) → (x : Stack) → Decidable (Preserving a x)
  | .call c, x => inferInstanceAs (Decidable (Agreeing c x.ledger ∧ _))
  | .submitPio, x => inferInstanceAs (Decidable (∀ e ∈ x.pending.head?, _))
  | .move a, x => inferInstanceAs (Decidable (Orderly a x.ssd))
  | .exitPageCache, x => inferInstanceAs (Decidable x.Drained)
  | .exitSsdCache, x => inferInstanceAs (Decidable x.Flushed)

end UserPageCache
