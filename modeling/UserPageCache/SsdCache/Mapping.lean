import UserPageCache.SsdCache.HashTable
import UserPageCache.SsdCache.WorkQueue

namespace UserPageCache.SsdCache

structure Mapping where
  blockSize : Nat
  cacheBlockNum : Nat
  blockPerCblockShift : Nat
  blockPerPageShift : Nat
  es : EntrySpace
  ea : EntryAlloc
  clean : Ilist
  dirty : Ilist
  table : HashTable
  hitTime : Nat
  missTime : Nat
  promotionTime : Nat
  demotionTime : Nat
  writebackTime : Nat
  wq : WorkQueue

def inferCblock (m : Mapping) (e : Nat) : Nat := getIndex m.ea e

section Init

def log2 (n : Nat) : Nat := Nat.log2 n

theorem log2_eq (n : Nat) : log2 n = if n > 1 then 1 + log2 (n / 2) else 0 := by
  unfold log2
  rw [Nat.log2_def]
  by_cases h : 2 ≤ n
  · rw [if_pos h, if_pos (show n > 1 from h), Nat.add_comm]
  · rw [if_neg h, if_neg (show ¬n > 1 from h)]

-- The work queue is not initialised here: in zeroed memory it is already empty.
def initMapping (m : Mapping) (blockSize cblockNum : Nat) : Option Mapping :=
  if blockSize = 0 ∨ cblockNum = 0 then none
  else
    let (ea, es) := initAllocator m.ea m.es 0 cblockNum
    some { m with
      blockSize := blockSize
      cacheBlockNum := cblockNum
      blockPerCblockShift := log2 (CACHE_BLOCK_SIZE / blockSize)
      blockPerPageShift := log2 (PAGE_SIZE / blockSize)
      ea := ea
      es := es
      clean := lInit
      dirty := lInit
      table := allocHashTable m.table
      hitTime := 0
      missTime := 0
      promotionTime := 0
      demotionTime := 0
      writebackTime := 0 }

def zeroEntry : Entry := ⟨0, 0, 0, 0, [], 0⟩

def zeroMapping : Mapping :=
  { blockSize := 0
    cacheBlockNum := 0
    blockPerCblockShift := 0
    blockPerPageShift := 0
    es := fun _ => zeroEntry
    ea := ⟨0, 0, ⟨0, 0, 0⟩⟩
    clean := ⟨0, 0, 0⟩
    dirty := ⟨0, 0, 0⟩
    table := ⟨0, fun _ => 0⟩
    hitTime := 0
    missTime := 0
    promotionTime := 0
    demotionTime := 0
    writebackTime := 0
    wq := ⟨fun _ => ⟨[], 0⟩, 0, 0, 0⟩ }

end Init

section Migration

-- Each phase is one critical section of mapping_lock. A start phase that declines
-- returns `none` and leaves the mapping as it was.
def promotionFreeToClean (m : Mapping) (fullPathName : CString) (cachePageIndex : Nat) :
    Except Fault (Option (Mapping × Nat)) :=
  if allocatorEmpty m.ea then .ok none
  else match allocEntry m.ea m.es with
    | none => .error .nullDereference
    | some (ea, es, e) =>
      let entry := entrySetDirty (entrySetPending (es e) true) false
      let entry := { entry with fullPathName := fullPathName, cachePageIndex := cachePageIndex }
      let m := { m with ea := ea, es := Function.update es e entry }
      .ok (some (m, inferCblock m e))

-- The list that an entry's dirty flag selects.
def addTailByFlag (m : Mapping) (e : Nat) : Mapping :=
  if entryGetDirty (m.es e) then
    { m with es := (lAddTail m.es m.dirty e).1, dirty := (lAddTail m.es m.dirty e).2 }
  else { m with es := (lAddTail m.es m.clean e).1, clean := (lAddTail m.es m.clean e).2 }

def addHeadByFlag (m : Mapping) (e : Nat) : Mapping :=
  if entryGetDirty (m.es e) then
    { m with es := (lAddHead m.es m.dirty e).1, dirty := (lAddHead m.es m.dirty e).2 }
  else { m with es := (lAddHead m.es m.clean e).1, clean := (lAddHead m.es m.clean e).2 }

def delByFlag (m : Mapping) (e : Nat) : Mapping :=
  if entryGetDirty (m.es e) then
    { m with es := (lDel m.es m.dirty e).1, dirty := (lDel m.es m.dirty e).2 }
  else { m with es := (lDel m.es m.clean e).1, clean := (lDel m.es m.clean e).2 }

def updateEntry (m : Mapping) (e : Nat) (f : Entry → Entry) : Mapping :=
  { m with es := Function.update m.es e (f (m.es e)) }

def hashIn (m : Mapping) (e : Nat) : Mapping :=
  { m with table := (hInsert m.table m.es e).1, es := (hInsert m.table m.es e).2 }

def hashOut (m : Mapping) (e : Nat) : Except Fault Mapping := do
  let (table, es) ← hRemove m.table m.es e
  return { m with table := table, es := es }

def release (m : Mapping) (e : Nat) : Mapping :=
  { m with ea := (freeEntry m.ea m.es e).1, es := (freeEntry m.ea m.es e).2 }

def promotionComplete (m : Mapping) (cblock : Nat) (success : Bool) : Except Fault Mapping :=
  match toEntry cblock with
  | none => .error .nullDereference
  | some e =>
    let m := updateEntry m e (entrySetPending · false)
    if success then
      .ok (addTailByFlag (hashIn { m with promotionTime := inc m.promotionTime } e) e)
    else .ok (release m e)

def demotionCleanToFree (m : Mapping) : Except Fault (Option (Mapping × Nat)) :=
  if m.clean.nrElts ≤ m.cacheBlockNum / 2 then .ok none
  else match lHead m.clean with
    | none => .error .nullDereference
    | some e =>
      let m := { m with es := (lDel m.es m.clean e).1, clean := (lDel m.es m.clean e).2 }
      let m := updateEntry m e (entrySetPending · true)
      .ok (some (m, inferCblock m e))

def demotionComplete (m : Mapping) (cblock : Nat) (success : Bool) : Except Fault Mapping :=
  match toEntry cblock with
  | none => .error .nullDereference
  | some e => do
    let m := updateEntry m e (entrySetPending · false)
    if success then
      let m ← hashOut { m with demotionTime := inc m.demotionTime } e
      return release m e
    else return addTailByFlag m e

def writebackDirtyToClean (m : Mapping) : Except Fault (Option (Mapping × Nat)) :=
  if m.dirty.nrElts = 0 then .ok none
  else match lHead m.dirty with
    | none => .error .nullDereference
    | some e =>
      if entryGetPending (m.es e) then .ok none
      else
        let m := updateEntry m e (fun entry => entrySetDirty (entrySetPending entry true) false)
        let m := { m with es := (lDel m.es m.dirty e).1, dirty := (lDel m.es m.dirty e).2 }
        .ok (some (m, inferCblock m e))

def writebackComplete (m : Mapping) (cblock : Nat) (success : Bool) : Except Fault Mapping :=
  match toEntry cblock with
  | none => .error .nullDereference
  | some e =>
    let m := updateEntry m e (entrySetPending · false)
    if success then
      .ok (addTailByFlag { m with writebackTime := inc m.writebackTime } e)
    else .ok (addHeadByFlag m e)

end Migration

section Clients

def toCachePageIndex (pageIndex : Nat) : Nat := pageIndex / 2 ^ 3

def find (m : Mapping) (fullPathName : CString) (cachePageIndex : Nat) :
    Except Fault (Mapping × Option Nat) := do
  let (table, es, e) ← hLookup m.table m.es fullPathName cachePageIndex
  return ({ m with table := table, es := es }, e)

-- A clean entry that is not being moved goes to the most recently used end.
def lookupHit (m : Mapping) (e : Nat) : Mapping :=
  let m := { m with hitTime := inc m.hitTime }
  if !entryGetPending (m.es e) && !entryGetDirty (m.es e) then addTailByFlag (delByFlag m e) e
  else m

def lookupMiss (m : Mapping) : Mapping := { m with missTime := inc m.missTime }

def enqueue (m : Mapping) (fullPathName : CString) (cachePageIndex : Nat) : Except Fault Mapping := do
  let (wq, _) ← insertWork m.wq fullPathName cachePageIndex
  return { m with wq := wq }

-- `some cblock` is the return value true with *cblock set, `none` is false.
def lookupMapping (m : Mapping) (fullPathName : CString) (pageIndex : Nat) :
    Except Fault (Mapping × Option Nat) := do
  match ← find m fullPathName (toCachePageIndex pageIndex) with
  | (m, some e) => return (lookupHit m e, some (inferCblock m e))
  | (m, none) => return (← enqueue (lookupMiss m) fullPathName (toCachePageIndex pageIndex), none)

def insertDirty (m : Mapping) (fullPathName : CString) (cachePageIndex : Nat) :
    Except Fault (Mapping × Option Nat) :=
  match allocEntry m.ea m.es with
  | none => .error .nullDereference
  | some (ea, es, e) =>
    let entry := entrySetDirty (es e) true
    let entry := { entry with fullPathName := fullPathName, cachePageIndex := cachePageIndex }
    let m := { m with ea := ea, es := Function.update es e entry }
    .ok (addTailByFlag (hashIn m e) e, some (inferCblock m e))

def lookupMappingWithInsert (m : Mapping) (fullPathName : CString) (pageIndex : Nat) :
    Except Fault (Mapping × Option Nat) := do
  match ← find m fullPathName (toCachePageIndex pageIndex) with
  | (m, some e) => return (lookupHit m e, some (inferCblock m e))
  | (m, none) =>
    let m := lookupMiss m
    if ← containsWork m.wq fullPathName (toCachePageIndex pageIndex) then return (m, none)
    if allocatorEmpty m.ea then
      return (← enqueue m fullPathName (toCachePageIndex pageIndex), none)
    insertDirty m fullPathName (toCachePageIndex pageIndex)

def removeMapping (m : Mapping) (fullPathName : CString) (pageIndex : Nat) :
    Except Fault (Mapping × Bool) := do
  match ← find m fullPathName (toCachePageIndex pageIndex) with
  | (m, some e) => return (release (← hashOut (delByFlag m e) e) e, true)
  | (m, none) => return (m, false)

-- The flag argument is ignored: every branch that acts sets the entry dirty.
def setDirtyAfterWrite (m : Mapping) (cblock : Nat) (_dirty : Bool) : Mapping :=
  match toEntry cblock with
  | none => m
  | some e =>
    if !entryGetAlloc (m.es e) then m
    else if entryGetPending (m.es e) then updateEntry m e (entrySetDirty · true)
    else addTailByFlag (updateEntry (delByFlag m e) e (entrySetDirty · true)) e

end Clients

end UserPageCache.SsdCache
