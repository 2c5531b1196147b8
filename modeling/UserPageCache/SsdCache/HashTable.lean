import UserPageCache.SsdCache.Entry
import UserPageCache.SsdCache.WorkQueue

namespace UserPageCache.SsdCache

structure HashTable where
  hashBits : Nat
  buckets : Nat → Nat

-- Each step is hash * 33 + c in 32 bits; the two shifts keep the low `hashBits` bits.
def hash32 (fullPathName : CString) (cachePageIndex hashBits : Nat) : Nat :=
  let start := u32 (5381 * 33 + cachePageIndex)
  let hash := fullPathName.foldl (fun hash c => u32 (hash * 33 + c.toUnsigned)) start
  u32 (hash * 2 ^ (32 - hashBits)) / 2 ^ (32 - hashBits)

-- hash_bits is 31 - clz of the bucket count, its base-two logarithm.
def allocHashTable (ht : HashTable) : HashTable :=
  { hashBits := Nat.log2 BUCKETS_NUMBER
    buckets := fun i => if i < BUCKETS_NUMBER then INDEXER_NULL else ht.buckets i }

def hHead (ht : HashTable) (bucket : Nat) : Option Nat := toEntry (ht.buckets bucket)

def hNext (es : EntrySpace) (e : Nat) : Option Nat := toEntry (es e).hashNext

def setHashNext (es : EntrySpace) (e hashNext : Nat) : EntrySpace :=
  Function.update es e { es e with hashNext := hashNext }

def setBucket (ht : HashTable) (bucket e : Nat) : HashTable :=
  { ht with buckets := Function.update ht.buckets bucket e }

def hInsertBucket (ht : HashTable) (es : EntrySpace) (bucket e : Nat) : HashTable × EntrySpace :=
  (setBucket ht bucket e, setHashNext es e (ht.buckets bucket))

def hInsert (ht : HashTable) (es : EntrySpace) (e : Nat) : HashTable × EntrySpace :=
  hInsertBucket ht es (hash32 (es e).fullPathName (es e).cachePageIndex ht.hashBits) e

-- The walk of __h_lookup, with the entry it stops at and the one before it. There are
-- CACHE_BLOCK_NUMBER entries, so a longer walk goes round a cycle for ever.
def hLookupFrom (es : EntrySpace) (fullPathName : CString) (cachePageIndex : Nat) :
    Nat → Option Nat → Option Nat → Except Fault (Option Nat × Option Nat)
  | _, prev, none => .ok (none, prev)
  | 0, _, some _ => .error .divergence
  | fuel + 1, prev, some e =>
    if cachePageIndex = (es e).cachePageIndex ∧ fullPathName = (es e).fullPathName then
      .ok (some e, prev)
    else hLookupFrom es fullPathName cachePageIndex fuel (some e) (hNext es e)

def hLookupBucket (ht : HashTable) (es : EntrySpace) (h : Nat) (fullPathName : CString)
    (cachePageIndex : Nat) : Except Fault (Option Nat × Option Nat) :=
  hLookupFrom es fullPathName cachePageIndex CACHE_BLOCK_NUMBER none (hHead ht h)

def hUnlink (ht : HashTable) (es : EntrySpace) (h e : Nat) (prev : Option Nat) :
    HashTable × EntrySpace :=
  match prev with
  | some p => (ht, setHashNext es p (es e).hashNext)
  | none => (setBucket ht h (es e).hashNext, es)

-- A hit that is not at the front of its bucket moves there.
def hLookup (ht : HashTable) (es : EntrySpace) (fullPathName : CString) (cachePageIndex : Nat) :
    Except Fault (HashTable × EntrySpace × Option Nat) := do
  let h := hash32 fullPathName cachePageIndex ht.hashBits
  let found ← hLookupBucket ht es h fullPathName cachePageIndex
  match found with
  | (some e, some prev) =>
    let unlinked := hUnlink ht es h e (some prev)
    let inserted := hInsertBucket unlinked.1 unlinked.2 h e
    return (inserted.1, inserted.2, some e)
  | (e, _) => return (ht, es, e)

def hRemove (ht : HashTable) (es : EntrySpace) (e : Nat) :
    Except Fault (HashTable × EntrySpace) := do
  let h := hash32 (es e).fullPathName (es e).cachePageIndex ht.hashBits
  let found ← hLookupBucket ht es h (es e).fullPathName (es e).cachePageIndex
  match found with
  | (some e, prev) => return hUnlink ht es h e prev
  | (none, _) => return (ht, es)

end UserPageCache.SsdCache
