import UserPageCache.Basic

namespace UserPageCache.SsdCache

structure Work where
  fullPathName : CString
  cachePageIndex : Nat
deriving DecidableEq

structure WorkQueue where
  works : Nat → Work
  front : Nat
  rear : Nat
  size : Nat

def initWorkQueue (wq : WorkQueue) : WorkQueue :=
  { wq with front := 0, rear := 0, size := 0 }

def isFull (wq : WorkQueue) : Bool := wq.size == MAX_WORKQUEUE_SIZE

def isEmpty (wq : WorkQueue) : Bool := wq.size == 0

-- The loop shared by contains_work and insert_work. A ring has MAX_WORKQUEUE_SIZE
-- positions, so a walk that has not met `rear` after that many steps never will.
def scanWorks (wq : WorkQueue) (same : Work → Bool) : Nat → Nat → Except Fault Bool
  | fuel, i =>
    if i = wq.rear then .ok false
    else match fuel with
      | 0 => .error .divergence
      | fuel + 1 =>
        if same (wq.works i) then .ok true
        else scanWorks wq same fuel ((i + 1) % MAX_WORKQUEUE_SIZE)

-- strncmp stops after strlen of the queued name, so the test is a prefix test.
def containsWork (wq : WorkQueue) (fullPathName : CString) (cachePageIndex : Nat) :
    Except Fault Bool :=
  scanWorks wq (fun w => w.cachePageIndex == cachePageIndex &&
    w.fullPathName.isPrefixOf fullPathName) MAX_WORKQUEUE_SIZE wq.front

def insertWork (wq : WorkQueue) (fullPathName : CString) (cachePageIndex : Nat) :
    Except Fault (WorkQueue × Bool) := do
  if wq.size = MAX_WORKQUEUE_SIZE - 1 then
    return (wq, false)
  if ← scanWorks wq (fun w => w.cachePageIndex == cachePageIndex &&
      w.fullPathName == fullPathName) MAX_WORKQUEUE_SIZE wq.front then
    return (wq, false)
  return ({ wq with
    works := Function.update wq.works wq.rear ⟨fullPathName, cachePageIndex⟩
    rear := (wq.rear + 1) % MAX_WORKQUEUE_SIZE
    size := wq.size + 1 }, true)

def removeWork (wq : WorkQueue) : WorkQueue × Bool :=
  if wq.size = 0 then (wq, false)
  else ({ wq with
    front := (wq.front + 1) % MAX_WORKQUEUE_SIZE
    size := wq.size - 1 }, true)

def peakWork (wq : WorkQueue) : Option Work :=
  if wq.size = 0 then none else some (wq.works wq.front)

end UserPageCache.SsdCache
