import Mathlib.Data.Finset.Erase
import Mathlib.Data.Finset.Insert
import Mathlib.Data.List.Perm.Basic
import Mathlib.Logic.Function.Basic

namespace UserPageCache.SsdCache

-- The block table without pointers: which blocks are on which list, in order, what
-- each block holds, which blocks can be found by key, and the keys waiting to be
-- promoted.
structure Slot (κ : Type*) where
  key : κ
  pending : Bool
  dirty : Bool
  alloc : Bool

structure Table (κ : Type*) where
  free : List ℕ
  clean : List ℕ
  dirty : List ℕ
  slot : ℕ → Slot κ
  hashed : Finset ℕ
  queue : List κ

-- The single migration worker, between two of its critical sections. It carries the
-- work it took from the queue and the block it has in flight.
inductive Worker (κ : Type*) where
  | idle
  | peeked (key : κ)
  | promoting (key : κ) (cblock : ℕ)
  | full (key : κ)
  | demoting (key : κ) (cblock : ℕ)
  | unevictable (key : κ)
  | writing (key : κ) (cblock : ℕ)
  | finished (key : κ)
deriving DecidableEq

namespace Worker

variable {κ : Type*}

def current : Worker κ → Option κ
  | idle => none
  | peeked key => some key
  | promoting key _ => some key
  | full key => some key
  | demoting key _ => some key
  | unevictable key => some key
  | writing key _ => some key
  | finished key => some key

def inFlight : Worker κ → Option ℕ
  | promoting _ cblock => some cblock
  | demoting _ cblock => some cblock
  | writing _ cblock => some cblock
  | _ => none

-- The block in flight when it is not yet in the hash table.
def arriving : Worker κ → Option ℕ
  | promoting _ cblock => some cblock
  | _ => none

-- The block in flight when it is still in the hash table.
def moving : Worker κ → Option ℕ
  | demoting _ cblock => some cblock
  | writing _ cblock => some cblock
  | _ => none

-- The block in flight that is on its way out of the cache.
def leaving : Worker κ → Option ℕ
  | demoting _ cblock => some cblock
  | _ => none

-- The key of a promotion.
def fetching : Worker κ → Option κ
  | promoting key _ => some key
  | _ => none

-- The key that may be queued although it is in the hash table: its promotion is
-- complete and its work is about to be removed.
def served : Worker κ → Option κ
  | finished key => some key
  | _ => none

end Worker

namespace Table

variable {κ : Type*}

def listed (t : Table κ) : List ℕ := t.free ++ t.clean ++ t.dirty

def setSlot (t : Table κ) (b : ℕ) (slot : Slot κ) : Table κ :=
  { t with slot := Function.update t.slot b slot }

def addTail (t : Table κ) (b : ℕ) : Table κ :=
  if (t.slot b).dirty then { t with dirty := t.dirty ++ [b] }
  else { t with clean := t.clean ++ [b] }

def addHead (t : Table κ) (b : ℕ) : Table κ :=
  if (t.slot b).dirty then { t with dirty := b :: t.dirty } else { t with clean := b :: t.clean }

def del (t : Table κ) (b : ℕ) : Table κ :=
  if (t.slot b).dirty then { t with dirty := t.dirty.erase b }
  else { t with clean := t.clean.erase b }

def hashIn (t : Table κ) (b : ℕ) : Table κ := { t with hashed := insert b t.hashed }

def hashOut (t : Table κ) (b : ℕ) : Table κ := { t with hashed := t.hashed.erase b }

def release (t : Table κ) (b : ℕ) : Table κ :=
  { t.setSlot b { t.slot b with alloc := false } with free := t.free ++ [b] }

def allocate (t : Table κ) (slot : Slot κ) : Table κ :=
  match t.free with
  | [] => t
  | b :: rest => { t.setSlot b slot with free := rest }

def setPending (t : Table κ) (b : ℕ) (on : Bool) : Table κ :=
  t.setSlot b { t.slot b with pending := on }

def setDirty (t : Table κ) (b : ℕ) (on : Bool) : Table κ :=
  t.setSlot b { t.slot b with dirty := on }

def dequeue (t : Table κ) : Table κ := { t with queue := t.queue.tail }

def enqueue [DecidableEq κ] (t : Table κ) (limit : ℕ) (key : κ) : Table κ :=
  if t.queue.length < limit ∧ key ∉ t.queue then { t with queue := t.queue ++ [key] } else t

section Operations

def hit (t : Table κ) (b : ℕ) : Table κ :=
  if !(t.slot b).pending && !(t.slot b).dirty then (t.del b).addTail b else t

def insertDirty (t : Table κ) (key : κ) (b : ℕ) : Table κ :=
  ((t.allocate ⟨key, false, true, true⟩).hashIn b).addTail b

def remove (t : Table κ) (b : ℕ) : Table κ := ((t.del b).hashOut b).release b

def markDirty (t : Table κ) (b : ℕ) : Table κ :=
  if !(t.slot b).alloc then t
  else if (t.slot b).pending then t.setDirty b true
  else ((t.del b).setDirty b true).addTail b

def promotionStart (t : Table κ) (key : κ) : Table κ := t.allocate ⟨key, true, false, true⟩

def promotionComplete (t : Table κ) (b : ℕ) (success : Bool) : Table κ :=
  if success then ((t.setPending b false).hashIn b).addTail b else (t.setPending b false).release b

def demotionStart (t : Table κ) (b : ℕ) : Table κ :=
  { t with clean := t.clean.tail }.setPending b true

def demotionComplete (t : Table κ) (b : ℕ) (success : Bool) : Table κ :=
  if success then ((t.setPending b false).hashOut b).release b
  else (t.setPending b false).addTail b

def writebackStart (t : Table κ) (b : ℕ) : Table κ :=
  { (t.setPending b true).setDirty b false with dirty := t.dirty.tail }

def writebackComplete (t : Table κ) (b : ℕ) (success : Bool) : Table κ :=
  if success then (t.setPending b false).addTail b else (t.setPending b false).addHead b

end Operations

end Table

end UserPageCache.SsdCache
