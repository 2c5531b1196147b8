import UserPageCache.SsdCache.PioChain

namespace UserPageCache.SsdCache

open Heap (Allocator)

inductive Ddir where
  | read
  | write
  | other
deriving DecidableEq

-- What fio asks an engine to do.
structure IoU where
  fileName : CString
  fd : Nat
  offset : Nat
  ddir : Ddir
  xferBuf : Nat
  buflen : Nat

def Ddir.operate : Ddir → Option Operate
  | .read => some .read
  | .write => some .write
  | .other => none

def IoU.pioCnt (io : IoU) : Nat := if io.buflen = 4096 then 1 else 8

abbrev Plugin := Option Shared → World → Replies → PioHeap → Memory → IoU →
  Except Fault (Option Shared × World × PioHeap × Memory)

section Queue

variable (malloc : Allocator PioNode)

-- The loop of myfio_queue, from this offset on.
def appendBuffers (io : IoU) (head : Option Nat) (h : PioHeap) (offset : Nat) :
    Except Fault PioHeap :=
  if offset < io.buflen then
    appendPio malloc h head (io.xferBuf + offset) >>= fun h =>
      appendBuffers io head h (offset + PAGE_SIZE)
  else .ok h
termination_by io.buflen - offset
decreasing_by
  simp only [PAGE_SIZE]
  omega

-- What submit_pio returns is not looked at. A direction that is neither READ nor WRITE fails
-- an assertion.
def myfioQueue (start : Nat) : Plugin := fun shared w reply h mem io => do
  match io.ddir.operate with
  | none => throw (.exit 134)
  | some operation =>
    let (h, head) := createPio malloc h io.fileName io.fd (u32 (io.offset / 2 ^ 12)) operation
      io.xferBuf io.pioCnt
    let h ← appendBuffers malloc io head h start
    let (shared, w, mem, _) ← submitChain shared w reply h mem head
    let h ← freePio h head
    return (shared, w, h, mem)

-- The two plug-ins differ in where the loop starts.
def testerQueue : Plugin := myfioQueue malloc PAGE_SIZE

def managerQueue : Plugin := myfioQueue malloc 0

end Queue

-- The buffers that the loop appends.
def IoU.tail (io : IoU) (start : Nat) : List Nat :=
  (List.range ((io.buflen - start + (PAGE_SIZE - 1)) / PAGE_SIZE)).map fun k =>
    io.xferBuf + (start + k * PAGE_SIZE)

-- The request for a file that a chain of these buffers makes.
def IoU.request (io : IoU) (operation : Operate) (mem : Memory) (buffers : List Nat) : Pio :=
  { fullPathName := io.fileName
    fd := io.fd
    pageIndex := u32 (io.offset / 2 ^ 12)
    operation := operation
    buffers := buffers.map (pageAt mem)
    pioCnt := io.pioCnt }

section Chains

variable {malloc : Allocator PioNode} {io : IoU} {operation : Operate} {start : Nat}
  {shared shared' : Option Shared} {w w' : World} {reply : Replies} {h h' : PioHeap}
  {mem mem' : Memory} {addrs buffers : List Nat}

theorem tail_of_le (hle : io.buflen ≤ start) : io.tail start = [] := by
  unfold IoU.tail
  rw [Nat.sub_eq_zero_of_le hle]
  rfl

theorem tail_of_lt (hlt : start < io.buflen) :
    io.tail start = (io.xferBuf + start) :: io.tail (start + PAGE_SIZE) := by
  have hcount : (io.buflen - start + (PAGE_SIZE - 1)) / PAGE_SIZE =
      (io.buflen - (start + PAGE_SIZE) + (PAGE_SIZE - 1)) / PAGE_SIZE + 1 := by
    simp only [PAGE_SIZE]
    omega
  unfold IoU.tail
  rw [hcount, List.range_succ_eq_map, List.map_cons, List.map_map]
  congr 1
  apply List.map_congr_left
  intro k _
  simp only [Function.comp_apply, Nat.succ_eq_add_one, Nat.add_mul]
  omega

theorem appendBuffers_eq (malloc : Allocator PioNode) (io : IoU) (head : Option Nat) (n : Nat) :
    ∀ (h : PioHeap) (start : Nat), io.buflen - start = n →
      appendBuffers malloc io head h start = appendPios malloc h head (io.tail start) := by
  induction n using Nat.strong_induction_on with
  | _ n ih =>
      intro h start hn
      rw [appendBuffers]
      by_cases hlt : start < io.buflen
      · rw [if_pos hlt, tail_of_lt hlt, appendPios]
        refine bind_congr fun h₁ => ?_
        refine ih _ ?_ h₁ (start + PAGE_SIZE) rfl
        simp only [PAGE_SIZE]
        omega
      · rw [if_neg hlt, tail_of_le (Nat.not_lt.mp hlt), appendPios]

theorem submitChain_none (shared : Option Shared) (w : World) (reply : Replies) (h : PioHeap)
    (mem : Memory) : ∃ rc, submitChain shared w reply h mem none = .ok (shared, w, mem, rc) := by
  cases shared <;> exact ⟨1, rfl⟩

-- What the target makes of a chain is what it makes of the request that the chain says.
theorem Built.submitChain {buffer : Nat}
    (b : Built h ⟨io.fileName, io.fd, u32 (io.offset / 2 ^ 12), operation, buffer, io.pioCnt, none⟩
      addrs buffers) (hb : buffers ≠ []) (shared : Option Shared) (w : World) (reply : Replies)
    (mem : Memory) : SsdCache.submitChain shared w reply h mem addrs.head? =
      (submitPio shared w reply
        (some (io.request operation mem (buffers.take io.pioCnt)))).map fun r =>
          (r.1, r.2.1, if operation = .read then storePages mem (buffers.take io.pioCnt) r.2.2.1
            else mem, r.2.2.2) := by
  cases addrs with
  | nil => exact absurd rfl (b.ne_nil hb)
  | cons a rest =>
      obtain ⟨first, next, -, hnode⟩ := b.nodes 0 a rfl
      have hindex : u32 (u32 (io.offset / 2 ^ 12) + 0) = u32 (io.offset / 2 ^ 12) :=
        u32_of_lt (Nat.mod_lt _ (by decide))
      have hbuffers := b.buffersFrom io.pioCnt
      rw [List.head?_cons] at hbuffers
      have hpio : toPio h mem a = some (io.request operation mem (buffers.take io.pioCnt)) := by
        unfold toPio
        rw [hnode, Option.map_some]
        simp only [PioNode.page, hindex, hbuffers]
        rfl
      simp only [List.head?_cons, SsdCache.submitChain, hpio]
      cases submitPio shared w reply (some (io.request operation mem (buffers.take io.pioCnt))) with
      | error fault => rfl
      | ok r => simp [bind, Except.bind, pure, Except.pure, Except.map, IoU.request, hbuffers]

-- A refused head ends in a null dereference, unless nothing is to be appended to it.
theorem myfioQueue_refused (hop : io.ddir.operate = some operation) (hm : malloc.malloc h = none) :
    (io.tail start ≠ [] →
      myfioQueue malloc start shared w reply h mem io = .error .nullDereference) ∧
    (io.tail start = [] → ∃ h', h'.cells = h.cells ∧
      myfioQueue malloc start shared w reply h mem io = .ok (shared, w, h', mem)) := by
  have hcreate : createPio malloc h io.fileName io.fd (u32 (io.offset / 2 ^ 12)) operation
      io.xferBuf io.pioCnt = ({ h with calls := h.calls + 1 }, none) := by
    simp only [createPio, Heap.alloc, hm]
  unfold myfioQueue
  simp only [hop, hcreate, appendBuffers_eq malloc io none _ _ _ rfl]
  cases htail : io.tail start with
  | nil =>
      obtain ⟨rc, heq⟩ := submitChain_none shared w reply { h with calls := h.calls + 1 } mem
      refine ⟨fun h => absurd rfl h, fun _ => ⟨{ h with calls := h.calls + 1 }, rfl, ?_⟩⟩
      simp only [appendPios, heq, bind, Except.bind, freePio]
      cases h.cells.keys.card <;> rfl
  | cons buffer rest =>
      refine ⟨fun _ => ?_, fun h => by simp at h⟩
      simp only [appendPios, appendPio, bind, Except.bind]
      cases h.cells.keys.card <;> rfl

-- Otherwise the cache is given one request, and every node is freed again.
theorem myfioQueue_created (start : Nat) (shared : Option Shared) (w : World) (reply : Replies)
    (mem : Memory) (hop : io.ddir.operate = some operation) (hm : (malloc.malloc h).isSome) :
    ∃ h' kept, h'.cells = h.cells ∧
      kept.Sublist (io.tail start) ∧ ((∀ h, (malloc.malloc h).isSome) → kept = io.tail start) ∧
      myfioQueue malloc start shared w reply h mem io =
        (submitPio shared w reply (some (io.request operation mem
          ((io.xferBuf :: kept).take io.pioCnt)))).map fun r => (r.1, r.2.1, h',
            if operation = .read then storePages mem ((io.xferBuf :: kept).take io.pioCnt) r.2.2.1
            else mem) := by
  obtain ⟨a, ha⟩ := Option.isSome_iff_exists.mp hm
  obtain ⟨h₁, hcreate⟩ : ∃ h₁, createPio malloc h io.fileName io.fd (u32 (io.offset / 2 ^ 12))
      operation io.xferBuf io.pioCnt = (h₁, some a) := by
    simp only [createPio, Heap.alloc, ha]
    exact ⟨_, rfl⟩
  obtain ⟨b₁, hfree, hkept₁⟩ := createPio_built (Nat.mod_lt _ (by decide)) hcreate
  obtain ⟨h₂, new, kept, happend, b₂, hsub, hall, hnew, hkept₂⟩ :=
    b₁.appendPios malloc (by simp) (io.tail start)
  obtain ⟨h', hgone, hnone, hkept⟩ := freePio_chain b₂.chain
  refine ⟨h', kept, Heap.cells_ext fun i => ?_, hsub, hall, ?_⟩
  · by_cases hi : i ∈ [a] ++ new
    · rw [hnone i hi]
      rcases List.mem_append.mp hi with hi | hi
      · rw [List.mem_singleton.mp hi, hfree]
      · by_cases hia : i = a
        · rw [hia, hfree]
        · rw [← hkept₁ i hia, hnew i hi]
    · have hia : i ≠ a := fun he => hi (by simp [he])
      rw [hkept i hi, hkept₂ i hi, hkept₁ i hia]
  · have hsubmit := b₂.submitChain (by simp) shared w reply mem
    simp only [List.singleton_append, List.head?_cons] at happend hsubmit hgone
    unfold myfioQueue
    simp only [hop, hcreate, appendBuffers_eq malloc io (some a) _ _ _ rfl, happend, hsubmit, bind,
      Except.bind]
    cases submitPio shared w reply
      (some (io.request operation mem ((io.xferBuf :: kept).take io.pioCnt))) with
    | error fault => rfl
    | ok r =>
        have hgone' : freePio h₂ (some a) = .ok h' := hgone
        simp only [Except.map, hgone', pure, Except.pure]

end Chains

-- Whatever malloc does, a request that comes back leaves no node behind; the cache has seen at
-- most one chain, of the buffers whose nodes malloc did not refuse.
theorem queue_request (malloc : Allocator PioNode) (start : Nat) (shared : Option Shared) (w : World)
    (reply : Replies) (h : PioHeap) (mem : Memory) (io : IoU) :
    match io.ddir.operate with
    | none => myfioQueue malloc start shared w reply h mem io = .error (.exit 134)
    | some operation =>
      (malloc.malloc h = none ∧ (io.tail start ≠ [] →
        myfioQueue malloc start shared w reply h mem io = .error .nullDereference) ∧
        (io.tail start = [] → ∃ h', h'.cells = h.cells ∧
          myfioQueue malloc start shared w reply h mem io = .ok (shared, w, h', mem))) ∨
      ∃ h' kept, malloc.malloc h ≠ none ∧ h'.cells = h.cells ∧ kept.Sublist (io.tail start) ∧
        ((∀ h, (malloc.malloc h).isSome) → kept = io.tail start) ∧
        myfioQueue malloc start shared w reply h mem io =
          (submitPio shared w reply (some (io.request operation mem
            ((io.xferBuf :: kept).take io.pioCnt)))).map fun r => (r.1, r.2.1, h',
              if operation = .read then
                storePages mem ((io.xferBuf :: kept).take io.pioCnt) r.2.2.1
              else mem) := by
  cases hop : io.ddir.operate with
  | none => simp only [myfioQueue, hop, throw, throwThe, MonadExceptOf.throw]
  | some operation =>
      cases hm : malloc.malloc h with
      | none => exact .inl ⟨rfl, myfioQueue_refused hop hm⟩
      | some a =>
          have hsome : (malloc.malloc h).isSome := by rw [hm, Option.isSome_some]
          obtain ⟨h', kept, hcells, hsub, hall, hqueue⟩ :=
            myfioQueue_created start shared w reply mem hop hsome
          exact .inr ⟨h', kept, by simp, hcells, hsub, hall, hqueue⟩

end UserPageCache.SsdCache
