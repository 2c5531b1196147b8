import UserPageCache.PageCache.Transfers
import UserPageCache.PageCache.WorkingSet
import UserPageCache.SsdCache.Plugins

namespace UserPageCache.PageCache

open Heap (Allocator)
open SsdCache (IoU Memory)

abbrev StreamHeap := Heap UFile

section Streams

variable (malloc : Allocator UFile)

-- The stream that umalloc_dma hands out is written to unchecked.
def uopenStream (h : StreamHeap) (filename mode : CString) : Except Fault (StreamHeap × Nat) :=
  match h.alloc malloc (uopen filename mode) with
  | (h, some stream) => .ok (h, stream)
  | (_, none) => .error .nullDereference

def getStream (h : StreamHeap) (stream : Nat) : Except Fault UFile :=
  match h.get stream with
  | some file => .ok file
  | none => .error .nullDereference

def useekStream (h : StreamHeap) (stream offset : Nat) : Except Fault StreamHeap := do
  return h.set stream (useek (← getStream h stream) offset)

def U_INVALID : Nat := 0x00

def uclose (h : StreamHeap) (stream : Nat) : Except Fault StreamHeap := do
  let _ ← getStream h stream
  return (h.set stream ⟨[], U_INVALID, 0⟩).erase stream

end Streams

section Queue

theorem nonzero_r : (114 : UInt8) ≠ 0 := by decide

theorem nonzero_w : (119 : UInt8) ≠ 0 := by decide

def modeR : CString := [⟨114, nonzero_r⟩]

def modeW : CString := [⟨119, nonzero_w⟩]

-- The memory behind an address, as a buffer, and back.
def bufferAt (mem : Memory) (x : Nat) : Nat → UInt8 := fun i => mem (x + i)

def withBuffer (mem : Memory) (x : Nat) (buffer : Nat → UInt8) : Memory := fun a =>
  if x ≤ a then buffer (a - x) else mem a

-- myfio_queue asks whether the stream is there when useek has already written to it. `first` is
-- what uread finds in its flag; what uread and uwrite return is not looked at.
def myfioQueue (malloc : Allocator UFile) (first : Bool) (s : State) (h : StreamHeap) (mem : Memory)
    (io : IoU) : Except Fault (State × StreamHeap × Memory) := do
  match io.ddir with
  | .read =>
    let (h, file) ← uopenStream malloc h io.fileName modeR
    let h ← useekStream h file io.offset
    let (s, buffer, _) ←
      uread s (bufferAt mem io.xferBuf) 1 io.buflen (← getStream h file) first
    let h ← uclose h file
    return (s, h, withBuffer mem io.xferBuf buffer)
  | .write =>
    let (h, file) ← uopenStream malloc h io.fileName modeW
    let h ← useekStream h file io.offset
    let (s, _) ← uwrite s (bufferAt mem io.xferBuf) 1 io.buflen (← getStream h file)
    let h ← uclose h file
    return (s, h, mem)
  | .other => throw (.exit 134)

end Queue

-- A job on the page cache: the cache, the streams that are open, and the memory.
structure Engine where
  state : State
  heap : StreamHeap
  memory : Memory

-- fio may fill its buffers as it likes before a request.
inductive EngineStep where
  | fill (mem : Memory)
  | queue (io : IoU) (first : Bool)

namespace Engine

def act (malloc : Allocator UFile) (x : Engine) : EngineStep → Except Fault Engine
  | .fill mem => .ok { x with memory := mem }
  | .queue io first => do
    let (s, h, mem) ← myfioQueue malloc first x.state x.heap x.memory io
    return ⟨s, h, mem⟩

def run (malloc : Allocator UFile) (x : Engine) : List EngineStep → Except Fault Engine
  | [] => .ok x
  | a :: rest => do run malloc (← x.act malloc a) rest

end Engine

-- The files and the memory, with no cache between them.
structure Machine where
  files : Files
  memory : Memory

namespace Machine

def serve (s : Machine) (io : IoU) : Machine :=
  match io.ddir with
  | .write =>
    { s with files := s.files.write io.fileName io.offset io.buflen (bufferAt s.memory io.xferBuf) }
  | .read =>
    { s with memory := Bytes.write s.memory io.xferBuf io.buflen fun i =>
        s.files io.fileName (io.offset + i) }
  | .other => s

def run : Machine → List EngineStep → Machine
  | s, [] => s
  | s, .fill mem :: rest => run { s with memory := mem } rest
  | s, .queue io _ :: rest => run (s.serve io) rest

end Machine

-- The stream of a request when it is used.
def streamOf (io : IoU) (mode : Nat) : UFile := ⟨io.fileName, mode, io.offset⟩

-- Whole pages of a file, no more than the cache has.
structure Paged (cacheSize : Nat) (io : IoU) : Prop where
  ddir : io.ddir ≠ .other
  aligned : io.offset % PAGE_SIZE = 0
  whole : io.buflen % PAGE_SIZE = 0
  fits : io.buflen ≤ cacheSize * PAGE_SIZE
  range : InRange io.offset io.buflen

def Budget.queued (b : Budget) (io : IoU) : Budget :=
  match io.ddir with
  | .write => { b with writes := b.writes + io.buflen / PAGE_SIZE }
  | .read =>
    { b with reads := b.reads ∪ ((List.range (io.buflen / PAGE_SIZE)).map
        (pageKey (streamOf io U_OREAD))).toFinset }
  | .other => b

-- What the requests write and read altogether.
def Budget.spent : Budget → List EngineStep → Budget
  | b, [] => b
  | b, .fill _ :: rest => b.spent rest
  | b, .queue io _ :: rest => (b.queued io).spent rest

section Streams

variable {malloc : Allocator UFile} {h : StreamHeap} {s : State} {mem : Memory} {io : IoU}
  {first : Bool}

-- A request as a call of the page cache.
def callOf (io : IoU) (mem : Memory) (first : Bool) : Call :=
  match io.ddir with
  | .write => .uwrite (streamOf io U_OWRITE) (bufferAt mem io.xferBuf) 1 io.buflen
  | _ => .uread (streamOf io U_OREAD) (bufferAt mem io.xferBuf) 1 io.buflen first

theorem streamOf_writable (io : IoU) : (streamOf io U_OWRITE).mode &&& U_OWRITE ≠ 0 := by
  change U_OWRITE &&& U_OWRITE ≠ 0
  decide

theorem seek_read (io : IoU) :
    useek (uopen io.fileName modeR) io.offset = streamOf io U_OREAD := rfl

theorem seek_write (io : IoU) : useek (uopen io.fileName modeW) io.offset = streamOf io U_OWRITE :=
  rfl

-- A stream that could not be had stops the process, before the cache is asked.
theorem queue_refused (hd : io.ddir ≠ .other) (hm : malloc.malloc h = none) :
    myfioQueue malloc first s h mem io = .error .nullDereference := by
  have hopen : ∀ mode, uopenStream malloc h io.fileName mode = .error .nullDereference := by
    intro mode
    simp [uopenStream, Heap.alloc, hm]
  unfold myfioQueue
  cases hdir : io.ddir with
  | read => simp [hopen, bind, Except.bind]
  | write => simp [hopen, bind, Except.bind]
  | other => exact absurd hdir hd

-- What uopen, useek and uclose leave of a stream.
theorem close_opened {a : Nat} (hm : malloc.malloc h = some a) (file file' file'' : UFile) :
    ((({ h.set a file with calls := h.calls + 1 }.set a file').set a file'').erase a : StreamHeap) =
      ⟨h.cells, h.calls + 1⟩ := by
  have hcells : ((({ h.set a file with calls := h.calls + 1 }.set a file').set a file'').erase a :
      StreamHeap).cells = h.cells := by
    refine Heap.cells_ext fun b => ?_
    by_cases hb : b = a
    · rw [hb, Heap.get_eq_none.mpr (malloc.fresh h a hm), Heap.get_eq_none]
      exact Finmap.notMem_erase_self
    · rw [Heap.get_erase_of_ne _ hb, Heap.get_set_of_ne _ _ hb, Heap.get_set_of_ne _ _ hb]
      exact Heap.get_set_of_ne h file hb
  rw [← hcells]
  rfl

theorem open_seek {a : Nat} (hm : malloc.malloc h = some a) (io : IoU) (mode : CString) :
    ∃ h₁ h₂, uopenStream malloc h io.fileName mode = .ok (h₁, a) ∧
      useekStream h₁ a io.offset = .ok h₂ ∧
      getStream h₂ a = .ok (useek (uopen io.fileName mode) io.offset) ∧
      uclose h₂ a = .ok ⟨h.cells, h.calls + 1⟩ := by
  refine ⟨{ h.set a (uopen io.fileName mode) with calls := h.calls + 1 },
    { h.set a (uopen io.fileName mode) with calls := h.calls + 1 }.set a
      (useek (uopen io.fileName mode) io.offset), ?_, ?_, ?_, ?_⟩
  · simp only [uopenStream, Heap.alloc, hm]
  · have hget :
        ({ h.set a (uopen io.fileName mode) with calls := h.calls + 1 } : StreamHeap).get a =
        some (uopen io.fileName mode) := Heap.get_set h a _
    simp only [useekStream, getStream, hget, bind, Except.bind, pure, Except.pure]
  · simp only [getStream, Heap.get_set]
  · simp only [uclose, getStream, Heap.get_set, bind, Except.bind, pure, Except.pure]
    rw [close_opened hm]

-- With a stream the request is a read or a write at its offset, and the stream is gone again.
theorem queue_write {a n : Nat} {s' : State} (hm : malloc.malloc h = some a) (hd : io.ddir = .write)
    (hw : uwrite s (bufferAt mem io.xferBuf) 1 io.buflen (streamOf io U_OWRITE) =
      .ok (s', n)) :
    myfioQueue malloc first s h mem io = .ok (s', ⟨h.cells, h.calls + 1⟩, mem) := by
  obtain ⟨h₁, h₂, hopen, hseek, hget, hclose⟩ := open_seek hm io modeW
  rw [seek_write] at hget
  simp only [myfioQueue, hd, hopen, hseek, hget, hw, hclose, bind, Except.bind, pure, Except.pure]

theorem queue_read {a n : Nat} {s' : State} {buffer : Nat → UInt8} (hm : malloc.malloc h = some a)
    (hd : io.ddir = .read) (hr : uread s (bufferAt mem io.xferBuf) 1 io.buflen
      (streamOf io U_OREAD) first = .ok (s', buffer, n)) :
    myfioQueue malloc first s h mem io =
      .ok (s', ⟨h.cells, h.calls + 1⟩, withBuffer mem io.xferBuf buffer) := by
  obtain ⟨h₁, h₂, hopen, hseek, hget, hclose⟩ := open_seek hm io modeR
  rw [seek_read] at hget
  simp only [myfioQueue, hd, hopen, hseek, hget, hr, hclose, bind, Except.bind, pure, Except.pure]

end Streams

section Requests

variable {cacheSize : Nat} {s s' : State} {b : Budget} {mem : Memory} {io : IoU} {first : Bool}

-- A read of whole pages leaves what lies behind them alone.
theorem uread_outside {stream : UFile} {count n : Nat} {buffer buffer' : Nat → UInt8}
    (hr : InRange stream.ioOffset (1 * count)) (hle : 1 * count ≤ s.cacheSize * PAGE_SIZE)
    (hwhole : count % PAGE_SIZE = 0)
    (h : uread s buffer 1 count stream first = .ok (s', buffer', n)) {i : Nat} (hi : count ≤ i) :
    buffer' i = buffer i := by
  have hlen := dataLen_eq hr
  rw [uread_copies (dataPages_le hr hle) (by rw [hlen]; exact hr.2.1), hlen, Nat.one_mul] at h
  obtain ⟨⟨s₁, buffer₁⟩, hcopy, h⟩ := bind_eq_ok.mp h
  obtain ⟨k, -, h⟩ := bind_eq_ok.mp h
  obtain ⟨-, hbuffer⟩ := Prod.mk.inj (Except.ok.inj h)
  obtain ⟨rfl, -⟩ := Prod.mk.inj hbuffer
  refine Transfer.copyAll_outside (fun x hx j hm => ?_) hcopy
  obtain ⟨k, hk, rfl⟩ := mem_transfersOf.mp hx
  obtain ⟨rfl, hj⟩ := hm
  simp only [transferAt, copyLenAt_eq (.inr (Nat.dvd_of_mod_eq_zero hwhole)) hk, pageLen] at hi hj
  omega

theorem foldl_writes {α : Type*} (f : α → PageStep) (hf : ∀ k, ∃ key copyLen src,
    f k = .write key copyLen src) (ks : List α) (b : Budget) :
    (ks.map f).foldl Budget.after b = { b with writes := b.writes + ks.length } := by
  induction ks generalizing b with
  | nil => rfl
  | cons k rest ih =>
      obtain ⟨key, copyLen, src, hk⟩ := hf k
      rw [List.map_cons, List.foldl_cons, hk, ih, List.length_cons, Nat.add_comm rest.length 1,
        ← Nat.add_assoc]
      rfl

theorem foldl_reads {α : Type*} (key : α → Key) (ks : List α) (b : Budget) :
    (ks.map fun k => PageStep.read (key k)).foldl Budget.after b =
      { b with reads := b.reads ∪ (ks.map key).toFinset } := by
  induction ks generalizing b with
  | nil => simp
  | cons k rest ih =>
      rw [List.map_cons, List.foldl_cons, ih, List.map_cons, List.toFinset_cons]
      simp [Budget.after, Finset.insert_union]

theorem Paged.inRange (h : Paged cacheSize io) (mode : Nat) :
    InRange (streamOf io mode).ioOffset (1 * io.buflen) := by
  rw [Nat.one_mul]
  exact h.range

theorem Paged.one_le (h : Paged cacheSize io) : 1 * io.buflen ≤ cacheSize * PAGE_SIZE := by
  rw [Nat.one_mul]
  exact h.fits

-- The pages of a request are those that it is charged for.
theorem Paged.steps (h : Paged cacheSize io) (b : Budget) (mem : Memory) (first : Bool) :
    ((callOf io mem first).steps cacheSize).foldl Budget.after b = b.queued io := by
  have hpos := h.range.1
  have hwhole := h.whole
  have hfit := dataPages_le (h.inRange U_OREAD) h.one_le
  have hlen : dataLen 1 io.buflen = io.buflen := by
    rw [dataLen_eq (h.inRange U_OREAD), Nat.one_mul]
  unfold callOf Budget.queued
  cases hd : io.ddir with
  | other => exact absurd hd h.ddir
  | write =>
      have hcount : writeCount io.buflen = io.buflen / PAGE_SIZE := by
        unfold writeCount PAGE_SIZE at *
        omega
      simp only
      rw [steps_uwrite (streamOf_writable io) hfit, hlen, foldl_writes, List.length_range, hcount]
      exact fun k => ⟨_, _, _, rfl⟩
  | read =>
      have hcount : readCount io.buflen = io.buflen / PAGE_SIZE := by
        unfold readCount PAGE_SIZE at *
        omega
      simp only
      rw [steps_uread hfit, foldl_reads, hlen, hcount]

end Requests

-- The cache stands for the files of the machine, and the memory is the machine's.
structure Follows (cacheSize : Nat) (x : Engine) (m : Machine) (b : Budget) : Prop where
  working : Working.Inv cacheSize ⟨⟨x.state, m.files⟩, b⟩
  memory : x.memory = m.memory

section Runs

variable {cacheSize : Nat} {x x' : Engine} {m : Machine} {b : Budget}
  {io : IoU} {first : Bool} {steps : List EngineStep}

theorem Paged.enabled (h : Paged cacheSize io) (hb : (b.queued io).total ≤ cacheSize)
    (s : State) (files : Files) (mem : Memory) (first : Bool) :
    (workingSet cacheSize).enabled (callOf io mem first) ⟨⟨s, files⟩, b⟩ := by
  have hlen : (callOf io mem first).len = io.buflen := by
    unfold callOf
    split <;> exact Nat.one_mul _
  have hoffset : (callOf io mem first).stream.ioOffset = io.offset := by
    unfold callOf
    split <;> rfl
  refine ⟨⟨?_, ?_⟩, ?_, ?_, ?_⟩
  · rw [hoffset]
    exact h.aligned
  · rw [hlen]
    exact h.fits
  · rw [hlen]
    exact h.whole
  · rw [hlen, hoffset]
    exact h.range
  · rw [h.steps]
    exact hb

-- What a request does when it has its stream.
theorem Follows.write (h : Follows cacheSize x m b) (hN : 2 ≤ cacheSize) (hp : Paged cacheSize io)
    (hb : (b.queued io).total ≤ cacheSize) (hd : io.ddir = .write) :
    ∃ s' n, uwrite x.state (bufferAt x.memory io.xferBuf) 1 io.buflen
        (streamOf io U_OWRITE) = .ok (s', n) ∧
      Working.Inv cacheSize ⟨⟨s', (m.serve io).files⟩, b.queued io⟩ := by
  have hcall : callOf io x.memory true = .uwrite (streamOf io U_OWRITE)
      (bufferAt x.memory io.xferBuf) 1 io.buflen := by
    unfold callOf
    rw [hd]
  obtain ⟨w, hact, hw⟩ := h.working.step hN (hp.enabled hb x.state m.files x.memory true)
  obtain ⟨session, hsession, hw'⟩ := bind_eq_ok.mp hact
  obtain ⟨s', hstate, hsession⟩ := bind_eq_ok.mp hsession
  obtain rfl := Except.ok.inj hsession
  obtain rfl := Except.ok.inj hw'
  rw [hp.steps, hcall] at hw
  rw [hcall] at hstate
  obtain ⟨⟨s₁, n⟩, hwrite, hret⟩ := bind_eq_ok.mp hstate
  obtain rfl : s₁ = s' := Except.ok.inj hret
  refine ⟨s₁, n, hwrite, ?_⟩
  have hfiles : (m.serve io).files = (Call.uwrite (streamOf io U_OWRITE)
      (bufferAt x.memory io.xferBuf) 1 io.buflen).effect m.files := by
    simp only [Machine.serve, hd, Call.effect, streamOf_writable, ite_false, Nat.one_mul, h.memory]
    rfl
  rw [hfiles]
  exact hw

theorem Follows.read (h : Follows cacheSize x m b) (hN : 2 ≤ cacheSize) (hp : Paged cacheSize io)
    (hb : (b.queued io).total ≤ cacheSize) (hd : io.ddir = .read) (first : Bool) :
    ∃ s' buffer' n, uread x.state (bufferAt x.memory io.xferBuf) 1 io.buflen
        (streamOf io U_OREAD) first = .ok (s', buffer', n) ∧
      Working.Inv cacheSize ⟨⟨s', m.files⟩, b.queued io⟩ ∧
      withBuffer x.memory io.xferBuf buffer' = (m.serve io).memory := by
  have hcall : callOf io x.memory first = .uread (streamOf io U_OREAD)
      (bufferAt x.memory io.xferBuf) 1 io.buflen first := by
    unfold callOf
    rw [hd]
  have he := hp.enabled hb x.state m.files x.memory first
  obtain ⟨w, hact, hw⟩ := h.working.step hN he
  obtain ⟨hsound, -⟩ := h.working.sound hN he
  obtain ⟨session, hsession, hw'⟩ := bind_eq_ok.mp hact
  obtain ⟨s', hstate, hsession⟩ := bind_eq_ok.mp hsession
  obtain rfl := Except.ok.inj hsession
  obtain rfl := Except.ok.inj hw'
  rw [hp.steps, hcall] at hw
  rw [hcall] at hstate hsound
  obtain ⟨⟨lru, free, hc⟩, hview⟩ := h.working.1
  obtain ⟨s₁, buffer', n, -, heq, -, hbytes, -, -⟩ :=
    hc.uread hN hview hp.aligned hp.one_le (hp.inRange U_OREAD)
      (bufferAt x.memory io.xferBuf) first hsound.2
  have hsame : (Call.uread (streamOf io U_OREAD) (bufferAt x.memory io.xferBuf) 1
      io.buflen first).act x.state = .ok s₁ := act_uread heq
  obtain rfl : s₁ = s' := Except.ok.inj (hsame.symm.trans hstate)
  refine ⟨s₁, buffer', n / 1, heq, hw, funext fun a => ?_⟩
  have hsize : x.state.cacheSize = cacheSize := hc.size
  simp only [Machine.serve, hd, withBuffer, Bytes.write, ← h.memory]
  by_cases hx : io.xferBuf ≤ a
  · rw [if_pos hx]
    by_cases hin : a < io.xferBuf + io.buflen
    · rw [if_pos ⟨hx, hin⟩]
      exact hbytes (a - io.xferBuf) (by omega)
    · rw [if_neg fun hboth => hin hboth.2,
        uread_outside (hp.inRange U_OREAD) (hsize.symm ▸ hp.one_le) hp.whole heq (by omega),
        bufferAt, Nat.add_sub_cancel' hx]
  · rw [if_neg hx, if_neg fun hboth => hx hboth.1]

theorem Follows.queue (malloc : Allocator UFile) (h : Follows cacheSize x m b)
    (hN : 2 ≤ cacheSize) (hp : Paged cacheSize io) (hb : (b.queued io).total ≤ cacheSize)
    (first : Bool) :
    (malloc.malloc x.heap = none ∧ x.act malloc (.queue io first) = .error .nullDereference) ∨
      ∃ x', x.act malloc (.queue io first) = .ok x' ∧ x'.heap.cells = x.heap.cells ∧
        Follows cacheSize x' (m.serve io) (b.queued io) := by
  cases hm : malloc.malloc x.heap with
  | none =>
      refine .inl ⟨rfl, ?_⟩
      simp only [Engine.act, queue_refused hp.ddir hm, bind, Except.bind]
  | some a =>
      refine .inr ?_
      cases hd : io.ddir with
      | other => exact absurd hd hp.ddir
      | write =>
          obtain ⟨s', n, heq, hw⟩ := h.write hN hp hb hd
          refine ⟨⟨s', ⟨x.heap.cells, x.heap.calls + 1⟩, x.memory⟩, ?_, rfl, hw, ?_⟩
          · simp only [Engine.act, queue_write hm hd heq, bind, Except.bind, pure, Except.pure]
          · simp only [Machine.serve, hd, h.memory]
      | read =>
          obtain ⟨s', buffer', n, heq, hw, hmem⟩ := h.read hN hp hb hd first
          refine ⟨⟨s', ⟨x.heap.cells, x.heap.calls + 1⟩,
            withBuffer x.memory io.xferBuf buffer'⟩, ?_, rfl, ?_, hmem⟩
          · simp only [Engine.act, queue_read hm hd heq, bind, Except.bind, pure, Except.pure]
          · simpa only [Machine.serve, hd] using hw

theorem Budget.total_le_queued (b : Budget) (io : IoU) : b.total ≤ (b.queued io).total := by
  unfold Budget.queued Budget.total
  split
  · exact Nat.add_le_add_right (Nat.le_add_right _ _) _
  · exact Nat.add_le_add_left (Finset.card_le_card Finset.subset_union_left) _
  · exact Nat.le_refl _

theorem Budget.total_le_spent (b : Budget) (steps : List EngineStep) :
    b.total ≤ (b.spent steps).total := by
  induction steps generalizing b with
  | nil => exact Nat.le_refl _
  | cons step rest ih =>
      cases step with
      | fill mem => exact ih b
      | queue io first => exact (b.total_le_queued io).trans (ih (b.queued io))

theorem Follows.run (malloc : Allocator UFile) (h : Follows cacheSize x m b) (hN : 2 ≤ cacheSize)
    (hp : ∀ io first, .queue io first ∈ steps → Paged cacheSize io)
    (hb : (b.spent steps).total ≤ cacheSize) :
    (x.run malloc steps = .error .nullDereference ∧ ∃ h, malloc.malloc h = none) ∨
      ∃ x', x.run malloc steps = .ok x' ∧ x'.heap.cells = x.heap.cells ∧
        Follows cacheSize x' (m.run steps) (b.spent steps) := by
  induction steps generalizing x m b with
  | nil => exact .inr ⟨x, rfl, rfl, h⟩
  | cons step rest ih =>
      have hrest : ∀ io first, .queue io first ∈ rest → Paged cacheSize io := fun io first hio =>
        hp io first (List.mem_cons_of_mem step hio)
      cases step with
      | fill mem =>
          have hfill : Follows cacheSize { x with memory := mem } { m with memory := mem } b :=
            ⟨h.working, rfl⟩
          exact ih hfill hrest hb
      | queue io first =>
          have hle := (Budget.total_le_spent (b.queued io) rest).trans hb
          rcases h.queue malloc hN (hp io first List.mem_cons_self) hle first with
            ⟨hm, hact⟩ | ⟨x₁, hact, hcells, h₁⟩
          · refine .inl ⟨?_, x.heap, hm⟩
            simp only [Engine.run, hact, bind, Except.bind]
          · rcases ih h₁ hrest hb with ⟨hrun, hm⟩ | ⟨x', hrun, hcells', h'⟩
            · refine .inl ⟨?_, hm⟩
              simp only [Engine.run, hact, bind, Except.bind, hrun]
            · refine .inr ⟨x', ?_, hcells'.trans hcells, h'⟩
              simp only [Engine.run, hact, bind, Except.bind, hrun]

-- The cache has just been initialized, over a store that answers, and no stream is open.
structure Engine.Booted (cacheSize : Nat) (store : Store) (x : Engine) : Prop where
  correct : store.Correct
  quiet : store.log = []
  state : x.state = initPageCache cacheSize store
  heap : x.heap.cells = ∅

theorem Engine.Booted.follows {store : Store} (h : x.Booted cacheSize store) (hN : 2 ≤ cacheSize) :
    Follows cacheSize x ⟨store.files, x.memory⟩ ⟨0, ∅⟩ where
  working := by
    rw [h.state]
    exact working_inv hN (.start ⟨⟨store, h.correct, h.quiet, rfl⟩, rfl⟩)
  memory := rfl

-- As long as what a job reads and writes fits the cache, its requests are plain copies between
-- files and memory, nothing is written back, the store is asked for the pages that are read only,
-- for none of them twice, and no stream stays open. If a stream cannot be had, the process is
-- lost, whatever myfio_queue has to say about it.
theorem engine_refines {store : Store} (malloc : Allocator UFile) (hN : 2 ≤ cacheSize)
    (h : x.Booted cacheSize store)
    (hp : ∀ io first, .queue io first ∈ steps → Paged cacheSize io)
    (hb : (Budget.spent ⟨0, ∅⟩ steps).total ≤ cacheSize) :
    (x.run malloc steps = .error .nullDereference ∧ ∃ h, malloc.malloc h = none) ∨
      ∃ x', x.run malloc steps = .ok x' ∧ x'.heap.cells = ∅ ∧
        x'.memory = (Machine.run ⟨store.files, x.memory⟩ steps).memory ∧
        x'.state.store.writes = [] ∧
        x'.state.store.Fetched (Budget.spent ⟨0, ∅⟩ steps).reads := by
  rcases (h.follows hN).run malloc hN hp hb with hlost | ⟨x', hrun, hcells, h'⟩
  · exact .inl hlost
  · exact .inr ⟨x', hrun, hcells.trans h.heap, h'.memory, h'.working.2.writes, h'.working.2.pios⟩

def Engine.boot : Engine := ⟨initPageCache 4 emptyStore, ⟨∅, 0⟩, fun _ => 9⟩

def twoPages (ddir : SsdCache.Ddir) : IoU := ⟨fileA, 0, 4096, ddir, 0, 8192⟩

-- Two pages are written, and read back into a buffer that was overwritten.
def bootSteps : List EngineStep :=
  [.fill fun a => (a / 4096).toUInt8, .queue (twoPages .write) true, .fill fun _ => 9,
    .queue (twoPages .read) true]

theorem twoPages_paged (ddir : SsdCache.Ddir) (hd : ddir ≠ .other) : Paged 4 (twoPages ddir) := by
  cases ddir with
  | read => exact ⟨hd, by decide, by decide, by decide, by decide⟩
  | write => exact ⟨hd, by decide, by decide, by decide, by decide⟩
  | other => exact absurd rfl hd

theorem engine_refines_bootSteps : ∃ x', Engine.boot.run .above bootSteps = .ok x' ∧
    x'.heap.cells = ∅ ∧ x'.memory 5000 = 1 ∧ x'.memory 8192 = 9 ∧ x'.state.store.writes = [] := by
  have hpaged : ∀ io first, .queue io first ∈ bootSteps → Paged 4 io := by
    intro io first hio
    simp only [bootSteps, List.mem_cons, EngineStep.queue.injEq, reduceCtorEq, List.not_mem_nil,
      or_false, false_or] at hio
    rcases hio with ⟨rfl, -⟩ | ⟨rfl, -⟩
    · exact twoPages_paged .write (by decide)
    · exact twoPages_paged .read (by decide)
  rcases engine_refines .above (by decide)
    (⟨fun _ => rfl, rfl, rfl, rfl⟩ : Engine.boot.Booted 4 emptyStore) hpaged
    (by decide +kernel) with
    ⟨-, h, hnone⟩ | ⟨x', hrun, hheap, hmem, hwrites, -⟩
  · cases hnone
  · exact ⟨x', hrun, hheap, by rw [hmem]; rfl, by rw [hmem]; rfl, hwrites⟩

end Runs

end UserPageCache.PageCache
