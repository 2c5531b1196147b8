import UserPageCache.SsdCache.Plugins
import UserPageCache.SsdCache.Sequential

namespace UserPageCache.SsdCache

open Bytes
open Heap (Allocator)

section Memory

variable {mem : Memory} {x i : Nat} {pages : List Page} {buffers : List Nat}

theorem storePages_append {more : List Nat} {later : List Page} (hl : buffers.length = pages.length) :
    storePages mem (buffers ++ more) (pages ++ later) =
      storePages (storePages mem buffers pages) more later := by
  unfold storePages
  rw [List.zip_append hl, List.foldl_append]

theorem gather_append_left {later : List Page} {rest : Nat → UInt8}
    (hi : i < pages.length * PAGE_SIZE) :
    gather PAGE_SIZE (pages ++ later) rest i = gather PAGE_SIZE pages rest i := by
  have hlt : i / PAGE_SIZE < pages.length := Nat.div_lt_of_lt_mul (by rwa [Nat.mul_comm])
  unfold gather
  rw [List.getElem?_append_left hlt]

-- Pages that are read one behind the other fill one range.
theorem storePages_range (mem : Memory) (x : Nat) (pages : List Page) :
    storePages mem ((List.range pages.length).map fun k => x + k * PAGE_SIZE) pages =
      write mem x (pages.length * PAGE_SIZE) (gather PAGE_SIZE pages fun _ => 0) := by
  induction pages using List.reverseRecOn with
  | nil => simp [storePages, write_zero]
  | append_singleton pages page ih =>
      rw [List.length_append, List.length_singleton, List.range_succ, List.map_append,
        storePages_append (by simp), ih]
      funext i
      simp only [storePages, List.map_cons, List.map_nil, List.zip_cons_cons, List.zip_nil_right,
        List.foldl_cons, List.foldl_nil, write]
      have hsucc : (pages.length + 1) * PAGE_SIZE = pages.length * PAGE_SIZE + PAGE_SIZE :=
        Nat.succ_mul _ _
      by_cases hlast : x + pages.length * PAGE_SIZE ≤ i ∧
          i < x + pages.length * PAGE_SIZE + PAGE_SIZE
      · obtain ⟨j, hj⟩ : ∃ j, i - x = pages.length * PAGE_SIZE + j ∧ j < PAGE_SIZE :=
          ⟨i - x - pages.length * PAGE_SIZE, by omega, by omega⟩
        have hdiv : (i - x) / PAGE_SIZE = pages.length := by
          rw [hj.1]
          exact div_chunk pages.length ⟨j, hj.2⟩
        have hmod : (i - x) % PAGE_SIZE = j := by
          rw [hj.1]
          exact mod_chunk pages.length ⟨j, hj.2⟩
        have hsub : i - (x + pages.length * PAGE_SIZE) = j := by omega
        rw [if_pos hlast, if_pos (by omega)]
        simp only [gather, hdiv, hmod, hsub, Nat.mod_eq_of_lt hj.2, List.getElem?_concat_length,
          hj.2, dite_true]
      · rw [if_neg hlast]
        by_cases hin : x ≤ i ∧ i < x + pages.length * PAGE_SIZE
        · rw [if_pos hin, if_pos (by omega), gather_append_left (by omega)]
        · rw [if_neg hin, if_neg (by omega)]

end Memory

-- The buffers that the target takes from the chain of a request.
def IoU.buffers (io : IoU) (start : Nat) : List Nat :=
  (io.xferBuf :: io.tail start).take io.pioCnt

-- A job: the cache that its process is linked to, and its memory.
structure Job where
  shared : Option Shared
  world : World
  heap : PioHeap
  memory : Memory

-- fio may fill its buffers as it likes before a request.
inductive JobStep where
  | fill (mem : Memory)
  | queue (io : IoU)
  | migrate

namespace Job

variable (plugin : Plugin)

def act (x : Job) : JobStep → Except Fault Job
  | .fill mem => .ok { x with memory := mem }
  | .queue io => do
    let (shared, w, h, mem) ← plugin x.shared x.world .success x.heap x.memory io
    return ⟨shared, w, h, mem⟩
  | .migrate =>
    match x.shared with
    | none => .ok x
    | some shared => do
      let (m, w, _) ← doMigrationWork shared.cache.map x.world .success
      return { x with
        shared := some { shared with cache := { shared.cache with map := m } }
        world := w }

def run (x : Job) : List JobStep → Except Fault Job
  | [] => .ok x
  | a :: rest => do run (← x.act plugin a) rest

end Job

-- The cache has just been initialized, and nothing is in use on the heap.
def Job.Booted (x : Job) (blockSize cblockNum : Nat) : Prop :=
  x.heap.cells = ∅ ∧ ∃ cache, x.shared = some ⟨cache, true⟩ ∧
    Session.Booted ⟨cache, x.world⟩ blockSize cblockNum

-- One page, or one aligned cache block, of a file that exists and has the block.
structure IoU.Admitted (io : IoU) (w : World) : Prop where
  ddir : io.ddir ≠ .other
  size : io.buflen = 4096 ∧ io.offset % 4096 = 0 ∨ io.buflen = 32768 ∧ io.offset % 32768 = 0
  offset : io.offset < 2 ^ 32
  opened : io.fd = 0 ∨ w.descriptors io.fd = some io.fileName
  path : io.fileName.length < MAX_PATH_SIZE
  covered : Covered w (State.keyAt (io.offset / 2 ^ 12) io.fileName)

-- Files as bytes, where their contents are known, and the memory of a job. No cache is here.
structure Plain where
  files : CString → Nat → Option UInt8
  memory : Memory

namespace Plain

-- The first n bytes of a buffer become those of the file behind the offset, or the reverse.
def write (s : Plain) (name : CString) (offset buf n : Nat) : Plain :=
  { s with files := fun path i =>
      if path = name ∧ offset ≤ i ∧ i < offset + n then some (s.memory (buf + (i - offset)))
      else s.files path i }

def read (s : Plain) (name : CString) (offset buf n : Nat) : Plain :=
  { s with memory := Bytes.write s.memory buf n fun i => (s.files name (offset + i)).getD 0 }

def run (serve : Plain → IoU → Plain) : Plain → List JobStep → Plain
  | s, [] => s
  | s, .fill mem :: rest => run serve { s with memory := mem } rest
  | s, .queue io :: rest => run serve (serve s io) rest
  | s, .migrate :: rest => run serve s rest

-- What a request asks for.
def transfer (s : Plain) (io : IoU) : Plain :=
  match io.ddir with
  | .write => s.write io.fileName io.offset io.xferBuf io.buflen
  | .read => s.read io.fileName io.offset io.xferBuf io.buflen
  | .other => s

-- What the manager makes of it: the first page goes with the first two buffers, so that the
-- pages of a block behind it are one page late and the last page of the buffer is left out.
def shifted (s : Plain) (io : IoU) : Plain :=
  if io.buflen = 4096 then s.transfer io
  else match io.ddir with
  | .write => (s.write io.fileName io.offset io.xferBuf PAGE_SIZE).write io.fileName
      (io.offset + PAGE_SIZE) io.xferBuf (7 * PAGE_SIZE)
  | .read => s.read io.fileName (io.offset + PAGE_SIZE) io.xferBuf (7 * PAGE_SIZE)
  | .other => s

end Plain

def Contents.byte (spec : Contents) (path : CString) (i : Nat) : Option UInt8 :=
  (spec path (i / PAGE_SIZE)).map fun page => page ⟨i % PAGE_SIZE, mod_page_lt i⟩

def fileBytes (w : World) : CString → Nat → Option UInt8 := (fileContents w).byte

section Requests

variable {io : IoU} {start : Nat} {w : World} {operation : Operate}

theorem IoU.Admitted.pageIndex (h : io.Admitted w) :
    u32 (io.offset / 2 ^ 12) = io.offset / 2 ^ 12 := by
  have hlt := h.offset
  exact u32_of_lt (by omega)

theorem IoU.Admitted.aligned (h : io.Admitted w) :
    io.offset = io.offset / 2 ^ 12 * PAGE_SIZE := by
  have hsize := h.size
  simp only [PAGE_SIZE]
  omega

theorem IoU.Admitted.pioCnt (h : io.Admitted w) :
    io.buflen = 4096 ∧ io.pioCnt = 1 ∨ io.buflen = 32768 ∧ io.pioCnt = 8 ∧ io.offset % 32768 = 0 := by
  unfold IoU.pioCnt
  rcases h.size with ⟨hl, -⟩ | ⟨hl, ha⟩
  · exact .inl ⟨hl, if_pos hl⟩
  · exact .inr ⟨hl, if_neg (by omega), ha⟩

theorem IoU.Admitted.buflen (h : io.Admitted w) : io.buflen = io.pioCnt * PAGE_SIZE := by
  rcases h.pioCnt with ⟨hl, hn⟩ | ⟨hl, hn, -⟩ <;> rw [hl, hn] <;> rfl

theorem buffers_length (h : io.Admitted w) (hs : start ≤ PAGE_SIZE) :
    (io.buffers start).length = io.pioCnt := by
  have hp : PAGE_SIZE = 4096 := rfl
  unfold IoU.buffers IoU.tail
  rw [List.length_take, List.length_cons, List.length_map, List.length_range, hp]
  rw [hp] at hs
  rcases h.pioCnt with ⟨hl, hn⟩ | ⟨hl, hn, -⟩
  · rw [hn]
    omega
  · rw [hn, hl]
    omega

theorem IoU.Admitted.admitted (mem : Memory) (h : io.Admitted w) (hs : start ≤ PAGE_SIZE)
    (hop : io.ddir.operate = some operation) :
    (io.request operation mem (io.buffers start)).Admitted w := by
  have hpage := h.pageIndex
  have hlt := h.offset
  refine ⟨⟨?_, ?_, ?_, ?_⟩, ?_, h.path, ?_⟩
  · have hcnt : io.pioCnt ≤ 8 - u32 (io.offset / 2 ^ 12) % 8 := by
      rw [hpage]
      rcases h.pioCnt with ⟨-, hn⟩ | ⟨-, hn, ha⟩ <;> omega
    exact decide_eq_true hcnt
  · simp only [IoU.request, List.length_map]
    exact buffers_length h hs
  · refine h.opened.imp_right fun ho => ⟨ho, ?_⟩
    obtain ⟨file, hf, -⟩ := h.covered
    exact Option.isSome_iff_exists.mpr ⟨file, hf⟩
  · simp only [IoU.request, hpage]
    omega
  · cases hd : io.ddir <;> simp [hd, Ddir.operate] at hop <;> simp [IoU.request, ← hop]
  · have hkey : (io.request operation mem (io.buffers start)).key =
        State.keyAt (io.offset / 2 ^ 12) io.fileName := by
      unfold Pio.key IoU.request
      rw [hpage]
    rw [hkey]
    exact h.covered

-- A chain with a buffer for each page, as the tester makes it.
theorem testerBuffers (h : io.Admitted w) :
    io.buffers PAGE_SIZE = (List.range io.pioCnt).map fun k => io.xferBuf + k * PAGE_SIZE := by
  have hp : PAGE_SIZE = 4096 := rfl
  unfold IoU.buffers IoU.tail
  rcases h.pioCnt with ⟨hl, hn⟩ | ⟨hl, hn, -⟩
  · rw [hl, hn]
    simp [hp]
  · rw [hl, hn, hp]
    simp [List.range_succ_eq_map]

theorem buffers_one (hn : io.pioCnt = 1) (start : Nat) : io.buffers start = [io.xferBuf] := by
  unfold IoU.buffers
  rw [hn, List.take_succ_cons, List.take_zero]

theorem managerBuffers (hn : io.pioCnt = 8) (hl : io.buflen = 32768) :
    io.buffers 0 = io.xferBuf :: (List.range 7).map fun k => io.xferBuf + k * PAGE_SIZE := by
  have hp : PAGE_SIZE = 4096 := rfl
  unfold IoU.buffers IoU.tail
  rw [hl, hn, hp]
  simp [List.range_succ_eq_map]

end Requests

section Transfers

variable {spec : Contents} {mem : Memory} {io : IoU} {path : CString} {pages : List Page}
  {x n q : Nat}

-- Pages that were read one behind the other are the bytes of the file.
theorem storePages_bytes (mem : Memory) (x : Nat)
    (hp : pages.map some = (List.range n).map fun k => spec path (q + k)) :
    storePages mem ((List.range n).map fun k => x + k * PAGE_SIZE) pages =
      Bytes.write mem x (n * PAGE_SIZE) fun i =>
        (spec.byte path (q * PAGE_SIZE + i)).getD 0 := by
  obtain rfl : pages.length = n := by simpa using congrArg List.length hp
  rw [storePages_range]
  funext a
  unfold Bytes.write
  split
  · rename_i ha
    obtain ⟨i, rfl⟩ : ∃ i, a = x + i := ⟨a - x, by omega⟩
    have hi : i < pages.length * PAGE_SIZE := by omega
    have hlt : i / PAGE_SIZE < pages.length := Nat.div_lt_of_lt_mul (by rwa [Nat.mul_comm])
    have hpage : spec path (q + i / PAGE_SIZE) = some pages[i / PAGE_SIZE] := by
      have hget := congrArg (·[i / PAGE_SIZE]?) hp
      simp only [List.getElem?_map, List.getElem?_eq_getElem hlt, List.getElem?_range hlt,
        Option.map_some, Option.some.injEq] at hget
      exact hget.symm
    have hdiv : (q * PAGE_SIZE + i) / PAGE_SIZE = q + i / PAGE_SIZE := by
      rw [Nat.add_comm, Nat.add_mul_div_right _ _ (by decide), Nat.add_comm]
    have hmod : (q * PAGE_SIZE + i) % PAGE_SIZE = i % PAGE_SIZE := by
      rw [Nat.add_comm, Nat.add_mul_mod_self_right]
    have hlast : i % PAGE_SIZE < PAGE_SIZE := mod_page_lt i
    rw [Nat.add_sub_cancel_left]
    simp only [Contents.byte, hdiv, hmod, hpage, Option.map_some, Option.getD_some, gather,
      List.getElem?_eq_getElem hlt, hlast, dite_true]
  · rfl

-- A WRITE puts the bytes of each buffer into its page.
theorem after_byte (spec : Contents) (mem : Memory) (buffers : List Nat) (path : CString) (i : Nat)
    (ha : io.offset = u32 (io.offset / 2 ^ 12) * PAGE_SIZE) :
    (spec.after (io.request .write mem buffers)).byte path i =
      if path = io.fileName ∧ io.offset ≤ i ∧ i < io.offset + buffers.length * PAGE_SIZE then
        (buffers[(i - io.offset) / PAGE_SIZE]?).map fun b => mem (b + (i - io.offset) % PAGE_SIZE)
      else spec.byte path i := by
  generalize hq : u32 (io.offset / 2 ^ 12) = q at ha
  have hlow : io.offset ≤ i ↔ q ≤ i / PAGE_SIZE := by
    rw [ha, Nat.le_div_iff_mul_le (by decide)]
  have hhigh : i < io.offset + buffers.length * PAGE_SIZE ↔ i / PAGE_SIZE < q + buffers.length := by
    rw [ha, ← Nat.add_mul, Nat.div_lt_iff_lt_mul (by decide)]
  have hafter : spec.after (io.request .write mem buffers) =
      spec.store (io.request .write mem buffers) := if_pos rfl
  rw [hafter]
  simp only [Contents.byte, Contents.store, IoU.request, hq, List.getElem?_map]
  by_cases hin : path = io.fileName ∧ io.offset ≤ i ∧ i < io.offset + buffers.length * PAGE_SIZE
  · obtain ⟨r, hr⟩ : ∃ r, i = io.offset + r := ⟨i - io.offset, by omega⟩
    have hsub : i / PAGE_SIZE - q = (i - io.offset) / PAGE_SIZE := by
      rw [hr, Nat.add_sub_cancel_left, ha, Nat.add_comm, Nat.add_mul_div_right _ _ (by decide),
        Nat.add_sub_cancel]
    have hmod : i % PAGE_SIZE = (i - io.offset) % PAGE_SIZE := by
      rw [hr, Nat.add_sub_cancel_left, ha, Nat.add_comm, Nat.add_mul_mod_self_right]
    have hlt : (i - io.offset) / PAGE_SIZE < buffers.length := by
      rw [← hsub]
      have hle := hlow.mp hin.2.1
      have hlt := hhigh.mp hin.2.2
      omega
    rw [if_pos hin, if_pos ⟨hin.1, hlow.mp hin.2.1⟩, hsub]
    simp only [List.getElem?_eq_getElem hlt, Option.map_some, Option.some_or, pageAt, hmod]
  · rw [if_neg hin]
    by_cases hle : path = io.fileName ∧ q ≤ i / PAGE_SIZE
    · have hge : buffers.length ≤ i / PAGE_SIZE - q := by
        have hnot : ¬ i / PAGE_SIZE < q + buffers.length := fun hlt =>
          hin ⟨hle.1, hlow.mpr hle.2, hhigh.mpr hlt⟩
        omega
      rw [if_pos hle, List.getElem?_eq_none hge, Option.map_none, Option.none_or]
    · rw [if_neg hle]

end Transfers

-- The cache is coherent with the files, no node is left over, and the memory is the same.
structure Job.Sim (w₀ : World) (spec : Contents) (x : Job) (s : Plain) : Prop where
  coherent : ∃ cache g stage t, x.shared = some ⟨cache, true⟩ ∧
    Coherent g (Present w₀) cache x.world .idle stage t spec
  keeps : Keeps w₀ x.world
  heap : x.heap.cells = ∅
  full : ∀ pio, (fileContents w₀).Full pio → spec.Full pio
  files : s.files = spec.byte
  memory : s.memory = x.memory

-- A request of the plug-in does to the bytes what `serve` does.
structure Follows (w₀ : World) (start : Nat) (serve : Plain → IoU → Plain) : Prop where
  write : ∀ {s io spec}, io.Admitted w₀ → s.files = Contents.byte spec → io.ddir = .write →
    (serve s io).memory = s.memory ∧ (serve s io).files =
      (spec.after (io.request .write s.memory (io.buffers start))).byte
  read : ∀ {s io spec pages}, io.Admitted w₀ → s.files = Contents.byte spec → io.ddir = .read →
    pages.map some = (List.range io.pioCnt).map
      (fun k => spec io.fileName (io.offset / 2 ^ 12 + k)) →
    (serve s io).files = s.files ∧
      (serve s io).memory = storePages s.memory (io.buffers start) pages

section Run

variable {malloc : Allocator PioNode} {io : IoU} {start blockSize cblockNum : Nat} {w w₀ : World}
  {x x' : Job} {s : Plain} {spec : Contents} {serve : Plain → IoU → Plain}

theorem Job.Sim.queue (h : x.Sim w₀ spec s) (hf : Follows w₀ start serve)
    (hm : ∀ h, (malloc.malloc h).isSome) (hs : start ≤ PAGE_SIZE) (ha : io.Admitted w₀) :
    ∃ x' spec', x.act (myfioQueue malloc start) (.queue io) = .ok x' ∧ x'.Sim w₀ spec' (serve s io) := by
  obtain ⟨cache, g, stage, t, hshared, hc⟩ := h.coherent
  obtain ⟨operation, hop⟩ : ∃ operation, io.ddir.operate = some operation := by
    have hd := ha.ddir
    cases hd' : io.ddir <;> simp_all [Ddir.operate]
  have hadm := ha.admitted x.memory hs hop
  obtain ⟨cache', w', pages, rc, t', hsubmit, hc', hkeeps, hread⟩ :=
    hc.submit (hadm.fits.keeps h.keeps) hadm.transfer (hadm.fits.present hadm.covered)
  obtain ⟨h', kept, hcells, -, hall, hqueue⟩ :=
    myfioQueue_created start x.shared x.world .success x.memory hop (hm x.heap)
  obtain rfl : kept = io.tail start := hall hm
  have hserved : submitPio x.shared x.world .success
      (some (io.request operation x.memory (io.buffers start))) =
        .ok (some ⟨cache', true⟩, w', pages, rc) := by
    rw [hshared]
    simp [submitPio, hsubmit, bind, Except.bind, pure, Except.pure]
  have hact : x.act (myfioQueue malloc start) (.queue io) = .ok ⟨some ⟨cache', true⟩, w', h',
      if operation = .read then storePages x.memory (io.buffers start) pages else x.memory⟩ := by
    simp only [Job.act, hqueue]
    unfold IoU.buffers at hserved
    rw [hserved]
    rfl
  refine ⟨_, _, hact, ⟨⟨cache', g, stage, t', rfl, hc'⟩, h.keeps.trans hkeeps,
    hcells.trans h.heap, fun pio hp => (h.full pio hp).after, ?_, ?_⟩⟩
  all_goals
    cases hd : io.ddir <;> rw [hd] at hop <;> simp only [Ddir.operate, reduceCtorEq] at hop <;>
      obtain rfl := Option.some.inj hop
  · have hload := (hread rfl).load (h.full _ hadm.full)
    simp only [Contents.load, IoU.request, ha.pageIndex] at hload
    rw [(hf.read ha h.files hd hload).1, h.files]
    rfl
  · rw [(hf.write ha h.files hd).2, h.memory]
  · have hload := (hread rfl).load (h.full _ hadm.full)
    simp only [Contents.load, IoU.request, ha.pageIndex] at hload
    rw [(hf.read ha h.files hd hload).2, h.memory]
    rfl
  · rw [(hf.write ha h.files hd).1, h.memory]
    rfl

theorem Job.Sim.migrated {cache : Cache} {g : Geometry} {stage : Stage} {t : Table Work}
    (h : x.Sim w₀ spec s) (hc : Coherent g (Present w₀) cache w .idle stage t spec)
    (hk : Keeps x.world w) : Job.Sim w₀ spec { x with shared := some ⟨cache, true⟩, world := w } s :=
  ⟨⟨cache, g, stage, t, rfl, hc⟩, h.keeps.trans hk, h.heap, h.full, h.files, h.memory⟩

theorem Job.Sim.run (h : x.Sim w₀ spec s) (hf : Follows w₀ start serve)
    (hm : ∀ h, (malloc.malloc h).isSome) (hs : start ≤ PAGE_SIZE) {steps : List JobStep}
    (ha : ∀ io, .queue io ∈ steps → io.Admitted w₀) :
    ∃ x' spec', x.run (myfioQueue malloc start) steps = .ok x' ∧ x'.Sim w₀ spec' (Plain.run serve s steps) := by
  induction steps generalizing x s spec with
  | nil => exact ⟨x, spec, rfl, h⟩
  | cons a rest ih =>
      have hrest : ∀ io, .queue io ∈ rest → io.Admitted w₀ := fun io hio =>
        ha io (List.mem_cons_of_mem _ hio)
      cases a with
      | fill mem => exact ih ⟨h.coherent, h.keeps, h.heap, h.full, h.files, rfl⟩ hrest
      | queue io =>
          obtain ⟨x₁, spec₁, hact, h₁⟩ := h.queue hf hm hs (ha io List.mem_cons_self)
          obtain ⟨x', spec', hrun, h'⟩ := ih h₁ hrest
          exact ⟨x', spec', by simp only [Job.run, hact, hrun, bind, Except.bind], h'⟩
      | migrate =>
          obtain ⟨cache, g, stage, t, hshared, hc⟩ := h.coherent
          obtain ⟨m, w', worked, stage', t', hround, hc', hk⟩ := hc.round h.keeps
          have hact : x.act (myfioQueue malloc start) .migrate = .ok { x with
              shared := some ⟨{ cache with map := m }, true⟩, world := w' } := by
            simp only [Job.act, hshared, hround, bind, Except.bind, pure, Except.pure]
          obtain ⟨x', spec', hrun, h'⟩ := ih (h.migrated hc' hk) hrest
          exact ⟨x', spec', by simp only [Job.run, hact, hrun, bind, Except.bind], h'⟩

theorem Job.Booted.sim (h : x.Booted blockSize cblockNum) :
    x.Sim x.world (fileContents x.world) ⟨fileBytes x.world, x.memory⟩ := by
  obtain ⟨hheap, cache, hshared, hb⟩ := h
  exact ⟨⟨cache, geometryOf cache.map, .begun, Table.initial cblockNum, hshared,
    hb.coherent fun _ hk => hk.1⟩, .refl x.world, hheap, fun _ hp => hp, rfl, rfl⟩

end Run

section Sequences

variable {io : IoU} {spec : Contents} {mem : Memory} {w : World}

-- One WRITE of consecutive buffers is one copy.
theorem after_files (ha : io.Admitted w) (path : CString) (i : Nat) :
    (spec.after (io.request .write mem
      ((List.range io.pioCnt).map fun k => io.xferBuf + k * PAGE_SIZE))).byte path i =
      if path = io.fileName ∧ io.offset ≤ i ∧ i < io.offset + io.buflen then
        some (mem (io.xferBuf + (i - io.offset))) else spec.byte path i := by
  have haligned : io.offset = u32 (io.offset / 2 ^ 12) * PAGE_SIZE := by
    rw [ha.pageIndex]
    exact ha.aligned
  rw [after_byte spec mem _ path i haligned, List.length_map, List.length_range, ha.buflen]
  split
  · rename_i hin
    have hlt : (i - io.offset) / PAGE_SIZE < io.pioCnt :=
      Nat.div_lt_of_lt_mul (by rw [Nat.mul_comm]; omega)
    have hsplit := Nat.div_add_mod (i - io.offset) PAGE_SIZE
    rw [Nat.mul_comm] at hsplit
    rw [List.getElem?_map, List.getElem?_range hlt, Option.map_some, Option.map_some, Nat.add_assoc,
      hsplit]
  · rfl

-- The manager's buffers: each byte of the block behind the first page comes from one page before.
theorem shifted_byte {x r : Nat} (mem : Memory) (hr : r < 8 * PAGE_SIZE) :
    ((x :: (List.range 7).map fun k => x + k * PAGE_SIZE)[r / PAGE_SIZE]?).map
      (fun b => mem (b + r % PAGE_SIZE)) =
      some (mem (if r < PAGE_SIZE then x + r else x + (r - PAGE_SIZE))) := by
  by_cases hlt : r < PAGE_SIZE
  · rw [if_pos hlt, Nat.div_eq_of_lt hlt, Nat.mod_eq_of_lt hlt]
    rfl
  · obtain ⟨r, rfl⟩ : ∃ r', r = r' + PAGE_SIZE := ⟨r - PAGE_SIZE, by omega⟩
    have hseven : r / PAGE_SIZE < 7 := by
      refine Nat.div_lt_of_lt_mul ?_
      simp only [PAGE_SIZE] at hr ⊢
      omega
    have hsplit := Nat.div_add_mod r PAGE_SIZE
    rw [Nat.mul_comm] at hsplit
    rw [if_neg hlt, Nat.add_div_right r (by decide), Nat.add_mod_right, List.getElem?_cons_succ,
      List.getElem?_map, List.getElem?_range hseven, Option.map_some, Option.map_some,
      Nat.add_assoc, hsplit, Nat.add_sub_cancel]

theorem write_covered {x n m : Nat} (mem : Memory) (src src' : Nat → UInt8) (hle : n ≤ m) :
    Bytes.write (Bytes.write mem x n src) x m src' = Bytes.write mem x m src' := by
  funext a
  unfold Bytes.write
  split
  · rfl
  · rw [if_neg (by omega)]

end Sequences

section Serving

variable {w₀ : World} {s : Plain} {io : IoU} {spec : Contents} {buffers : List Nat}
  {pages : List Page}

-- Requests that go over consecutive buffers.
theorem transfer_write (ha : io.Admitted w₀) (hfiles : s.files = Contents.byte spec)
    (hd : io.ddir = .write)
    (hbuffers : buffers = (List.range io.pioCnt).map fun k => io.xferBuf + k * PAGE_SIZE) :
    (Plain.transfer s io).memory = s.memory ∧ (Plain.transfer s io).files =
      (spec.after (io.request .write s.memory buffers)).byte := by
  refine ⟨by simp only [Plain.transfer, hd, Plain.write], ?_⟩
  funext path i
  rw [hbuffers, after_files ha]
  simp only [Plain.transfer, hd, Plain.write, hfiles]

theorem transfer_read (ha : io.Admitted w₀) (hfiles : s.files = Contents.byte spec)
    (hd : io.ddir = .read)
    (hp : pages.map some = (List.range io.pioCnt).map
      fun k => spec io.fileName (io.offset / 2 ^ 12 + k))
    (hbuffers : buffers = (List.range io.pioCnt).map fun k => io.xferBuf + k * PAGE_SIZE) :
    (Plain.transfer s io).files = s.files ∧
      (Plain.transfer s io).memory = storePages s.memory buffers pages := by
  refine ⟨by simp only [Plain.transfer, hd, Plain.read], ?_⟩
  rw [hbuffers, storePages_bytes _ _ hp, ← ha.aligned, ← ha.buflen]
  simp only [Plain.transfer, hd, Plain.read, hfiles]

-- The manager's only buffer of a page, and its eight of a block.
theorem shifted_page (hl : io.buflen = 4096) : Plain.shifted s io = Plain.transfer s io := by
  simp only [Plain.shifted, hl, ite_true]

theorem managerBuffers_one (hn : io.pioCnt = 1) :
    io.buffers 0 = (List.range io.pioCnt).map fun k => io.xferBuf + k * PAGE_SIZE := by
  rw [buffers_one hn, hn]
  rfl

theorem shifted_write (ha : io.Admitted w₀) (hfiles : s.files = Contents.byte spec)
    (hd : io.ddir = .write) (hl : io.buflen = 32768) (hn : io.pioCnt = 8) :
    (Plain.shifted s io).memory = s.memory ∧ (Plain.shifted s io).files =
      (spec.after (io.request .write s.memory (io.buffers 0))).byte := by
  have haligned : io.offset = u32 (io.offset / 2 ^ 12) * PAGE_SIZE := by
    rw [ha.pageIndex]
    exact ha.aligned
  have hbig : io.buflen ≠ 4096 := by omega
  simp only [Plain.shifted, hbig, ite_false, hd, Plain.write, true_and]
  funext path i
  rw [managerBuffers hn hl, after_byte spec s.memory _ path i haligned, hfiles]
  simp only [List.length_cons, List.length_map, List.length_range]
  by_cases hin : path = io.fileName ∧ io.offset ≤ i ∧ i < io.offset + (7 + 1) * PAGE_SIZE
  · have hr : i - io.offset < 8 * PAGE_SIZE := by omega
    rw [if_pos hin, shifted_byte s.memory hr]
    by_cases hlt : i - io.offset < PAGE_SIZE
    · rw [if_pos hlt, if_neg (by omega), if_pos ⟨hin.1, hin.2.1, by omega⟩]
    · rw [if_neg hlt, if_pos ⟨hin.1, by omega, by omega⟩, Nat.sub_add_eq]
  · rw [if_neg hin, if_neg fun h => hin ⟨h.1, by omega, by omega⟩,
      if_neg fun h => hin ⟨h.1, h.2.1, by omega⟩]

theorem shifted_read (ha : io.Admitted w₀) (hfiles : s.files = Contents.byte spec)
    (hd : io.ddir = .read) (hl : io.buflen = 32768) (hn : io.pioCnt = 8)
    (hp : pages.map some = (List.range io.pioCnt).map
      fun k => spec io.fileName (io.offset / 2 ^ 12 + k)) :
    (Plain.shifted s io).files = s.files ∧
      (Plain.shifted s io).memory = storePages s.memory (io.buffers 0) pages := by
  have hbig : io.buflen ≠ 4096 := by omega
  simp only [Plain.shifted, hbig, ite_false, hd, Plain.read, true_and]
  rw [hn, List.range_succ_eq_map, List.map_cons, List.map_map] at hp
  obtain ⟨page, rest, rfl, -, hrest⟩ := List.map_eq_cons_iff.mp hp
  have hnext : rest.map some = (List.range 7).map fun k =>
      spec io.fileName (io.offset / 2 ^ 12 + 1 + k) := by
    rw [hrest]
    refine List.map_congr_left fun k _ => ?_
    rw [Nat.add_assoc, Nat.add_comm 1 k]
    rfl
  have hsecond : io.offset + PAGE_SIZE = (io.offset / 2 ^ 12 + 1) * PAGE_SIZE := by
    rw [Nat.succ_mul, ← ha.aligned]
  have hfirst := storePages_bytes (Bytes.write s.memory io.xferBuf PAGE_SIZE fun i =>
    page ⟨i % PAGE_SIZE, mod_page_lt i⟩) io.xferBuf hnext
  rw [write_covered _ _ _ (by decide)] at hfirst
  rw [managerBuffers hn hl, hsecond, hfiles, ← hfirst]
  rfl

theorem tester_follows (w₀ : World) : Follows w₀ PAGE_SIZE Plain.transfer where
  write ha hfiles hd := transfer_write ha hfiles hd (testerBuffers ha)
  read ha hfiles hd hp := transfer_read ha hfiles hd hp (testerBuffers ha)

theorem manager_follows (w₀ : World) : Follows w₀ 0 Plain.shifted where
  write ha hfiles hd := by
    rcases ha.pioCnt with ⟨hl, hn⟩ | ⟨hl, hn, -⟩
    · rw [shifted_page hl]
      exact transfer_write ha hfiles hd (managerBuffers_one hn)
    · exact shifted_write ha hfiles hd hl hn
  read ha hfiles hd hp := by
    rcases ha.pioCnt with ⟨hl, hn⟩ | ⟨hl, hn, -⟩
    · rw [shifted_page hl]
      exact transfer_read ha hfiles hd hp (managerBuffers_one hn)
    · exact shifted_read ha hfiles hd hl hn hp

end Serving

section Refinement

variable {x : Job} {blockSize cblockNum : Nat} {steps : List JobStep}

theorem Job.Booted.refines {malloc : Allocator PioNode} {start : Nat} {serve : Plain → IoU → Plain}
    (h : x.Booted blockSize cblockNum) (hf : Follows x.world start serve)
    (hm : ∀ h, (malloc.malloc h).isSome) (hs : start ≤ PAGE_SIZE)
    (ha : ∀ io, .queue io ∈ steps → io.Admitted x.world) :
    ∃ x', x.run (myfioQueue malloc start) steps = .ok x' ∧ x'.heap.cells = ∅ ∧
      x'.memory = (Plain.run serve ⟨fileBytes x.world, x.memory⟩ steps).memory := by
  obtain ⟨x', spec', hrun, h'⟩ := h.sim.run hf hm hs ha
  exact ⟨x', hrun, h'.heap, h'.memory.symm⟩

-- Through chain, cache, worker and files, the tester's requests are plain copies of bytes.
theorem tester_refines (malloc : Allocator PioNode) (h : x.Booted blockSize cblockNum)
    (hm : ∀ h, (malloc.malloc h).isSome) (ha : ∀ io, .queue io ∈ steps → io.Admitted x.world) :
    ∃ x', x.run (testerQueue malloc) steps = .ok x' ∧ x'.heap.cells = ∅ ∧
      x'.memory = (Plain.run Plain.transfer ⟨fileBytes x.world, x.memory⟩ steps).memory :=
  h.refines (tester_follows x.world) hm le_rfl ha

-- Those of the manager are, except that the pages of a block are shifted.
theorem manager_refines (malloc : Allocator PioNode) (h : x.Booted blockSize cblockNum)
    (hm : ∀ h, (malloc.malloc h).isSome) (ha : ∀ io, .queue io ∈ steps → io.Admitted x.world) :
    ∃ x', x.run (managerQueue malloc) steps = .ok x' ∧ x'.heap.cells = ∅ ∧
      x'.memory = (Plain.run Plain.shifted ⟨fileBytes x.world, x.memory⟩ steps).memory :=
  h.refines (manager_follows x.world) hm (Nat.zero_le _) ha

end Refinement

def Job.boot : Job := ⟨some ⟨Session.boot.cache, true⟩, Session.boot.world, ⟨∅, 0⟩, fun _ => 0⟩

theorem Job.boot_booted : Job.boot.Booted 512 1 := ⟨rfl, _, rfl, Session.boot_booted⟩

def wholeBlock (ddir : Ddir) : IoU := ⟨[⟨97, nonzero_a⟩], 0, 0, ddir, 0, 32768⟩

-- A block whose k-th page is full of k is written and read back.
def Job.bootSteps : List JobStep :=
  [.fill fun a => (a / 4096).toUInt8, .queue (wholeBlock .write), .migrate, .fill fun _ => 9,
    .queue (wholeBlock .read)]

theorem Job.bootSteps_admitted : ∀ io, .queue io ∈ Job.bootSteps → io.Admitted Job.boot.world := by
  intro io hio
  simp only [Job.bootSteps, List.mem_cons, JobStep.queue.injEq, reduceCtorEq, List.not_mem_nil,
    or_false, false_or] at hio
  rcases hio with rfl | rfl <;>
    exact ⟨by decide, .inr ⟨rfl, rfl⟩, by decide, .inl rfl, by decide, ⟨2 ^ 15, fun _ => 0⟩, rfl,
      by decide⟩

theorem tester_refines_bootSteps : ∃ x', Job.boot.run (testerQueue .above) Job.bootSteps = .ok x' ∧
    x'.memory 24576 = 6 ∧ x'.memory 28672 = 7 := by
  obtain ⟨x', hrun, -, hmem⟩ := tester_refines .above Job.boot_booted
    (fun _ => rfl) Job.bootSteps_admitted
  exact ⟨x', hrun, by rw [hmem]; rfl, by rw [hmem]; rfl⟩

-- The last page does not come back.
theorem manager_refines_bootSteps : ∃ x', Job.boot.run (managerQueue .above) Job.bootSteps = .ok x' ∧
    x'.memory 24576 = 6 ∧ x'.memory 28672 = 9 := by
  obtain ⟨x', hrun, -, hmem⟩ := manager_refines .above Job.boot_booted
    (fun _ => rfl) Job.bootSteps_admitted
  exact ⟨x', hrun, by rw [hmem]; rfl, by rw [hmem]; rfl⟩

end UserPageCache.SsdCache
