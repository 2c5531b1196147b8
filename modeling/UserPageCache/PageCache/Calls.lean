import UserPageCache.Lib.System
import UserPageCache.PageCache.Paging.Theorems

namespace UserPageCache.PageCache

section Steps

-- One page that uwrite puts into the cache or uread looks for.
inductive PageStep where
  | write (key : Key) (copyLen : Nat) (src : Nat → UInt8)
  | read (key : Key)

def PageStep.act : PageStep → State → Except Fault State
  | .write key copyLen src, s => uwritePage key.1 s key.2 copyLen src
  | .read key, s => do return (← ureadPage key.1 s key.2).1

-- Even a write of no bytes takes a page.
def writeCount (len : Nat) : Nat := (len - 1) / PAGE_SIZE + 1

def readCount (len : Nat) : Nat := (len + (PAGE_SIZE - 1)) / PAGE_SIZE

-- The key of the k-th page of a call.
def pageKey (stream : UFile) (k : Nat) : Key := (stream.pathName, u32 (streamIndex stream + k))

def writeStep (stream : UFile) (buffer : Nat → UInt8) (len k : Nat) : PageStep :=
  .write (pageKey stream k) (min PAGE_SIZE (len - k * PAGE_SIZE)) fun i => buffer (k * PAGE_SIZE + i)

end Steps

section Calls

inductive Call where
  | uwrite (stream : UFile) (buffer : Nat → UInt8) (size count : Nat)
  | uread (stream : UFile) (buffer : Nat → UInt8) (size count : Nat) (isFirstPage : Bool)

namespace Call

def act : Call → State → Except Fault State
  | .uwrite stream buffer size count, s => do return (← PageCache.uwrite s buffer size count stream).1
  | .uread stream buffer size count isFirstPage, s => do
    return (← PageCache.uread s buffer size count stream isFirstPage).1

-- The pages of a call that goes through the cache, in order.
def steps (cacheSize : Nat) : Call → List PageStep
  | .uwrite stream buffer size count =>
    let len := dataLen size count
    if stream.mode &&& U_OWRITE = 0 ∨ cacheSize < dataPages len then []
    else (List.range (writeCount len)).map (writeStep stream buffer len)
  | .uread stream _ size count _ =>
    let len := dataLen size count
    if cacheSize < dataPages len then []
    else (List.range (readCount len)).map fun k => .read (pageKey stream k)

end Call

-- A condition on the pages of a call, each in the state in which the call comes to it.
def Call.Through (allowed : PageStep → State → Prop) (c : Call) (s : State) : Prop :=
  System.Along PageStep.act allowed (c.steps s.cacheSize) s

instance (allowed : PageStep → State → Prop) [∀ a s, Decidable (allowed a s)] (c : Call)
    (s : State) : Decidable (c.Through allowed s) :=
  System.Along.decide _ _

def paging (cacheSize : Nat) : System State Call Fault where
  start s := ∃ store, s = initPageCache cacheSize store
  enabled _ _ := True
  act := Call.act

instance (cacheSize : Nat) (c : Call) (s : State) : Decidable ((paging cacheSize).enabled c s) :=
  .isTrue trivial

end Calls

end UserPageCache.PageCache
