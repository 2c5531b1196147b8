import UserPageCache.Lib.Heap
import UserPageCache.SsdCache.ReturnCodes
import UserPageCache.SsdCache.ScatterGather

namespace UserPageCache.SsdCache

open Heap (Allocator Chain)

-- A struct pio as it lies in memory; its buffer is an address.
structure PioNode where
  fullPathName : CString
  fd : Nat
  pageIndex : Nat
  operation : Operate
  buffer : Nat
  pioCnt : Nat
  next : Option Nat

abbrev PioHeap := Heap PioNode

section Construction

variable (malloc : Allocator PioNode)

def createPio (h : PioHeap) (fullPathName : CString) (fd pageIndex : Nat) (operation : Operate)
    (buffer pioCnt : Nat) : PioHeap × Option Nat :=
  h.alloc malloc ⟨fullPathName, fd, pageIndex, operation, buffer, pioCnt, none⟩

-- The loop of append_pio. A walk of more steps than there are nodes goes round a cycle.
def lastPio (h : PioHeap) : Nat → Option Nat → Except Fault (Nat × PioNode)
  | _, none => .error .nullDereference
  | 0, some _ => .error .divergence
  | fuel + 1, some current =>
    match h.get current with
    | none => .error .nullDereference
    | some node => match node.next with
      | none => .ok (current, node)
      | some next => lastPio h fuel (some next)

-- The new node, or NULL, becomes the successor of the last one.
def appendPio (h : PioHeap) (head : Option Nat) (buffer : Nat) : Except Fault PioHeap := do
  let (current, node) ← lastPio h h.cells.keys.card head
  let (h, new) := createPio malloc h node.fullPathName node.fd (inc node.pageIndex) node.operation
    buffer node.pioCnt
  return h.set current { node with next := new }

-- The buffers that a caller hangs on a chain one after the other.
def appendPios (h : PioHeap) (head : Option Nat) : List Nat → Except Fault PioHeap
  | [] => .ok h
  | buffer :: rest => do appendPios (← appendPio malloc h head buffer) head rest

-- The nodes behind the head are freed first.
def freeFrom : Nat → PioHeap → Option Nat → Except Fault PioHeap
  | _, h, none => .ok h
  | 0, _, some _ => .error .divergence
  | fuel + 1, h, some head =>
    match h.get head with
    | none => .error .nullDereference
    | some node => do
      let h ← freeFrom fuel h node.next
      if (h.get head).isNone then throw .nullDereference
      return h.erase head

def freePio (h : PioHeap) (head : Option Nat) : Except Fault PioHeap :=
  freeFrom h.cells.keys.card h head

end Construction

section Target

-- The array that pio_to_iovec fills from this many nodes.
def chainToIovec (h : PioHeap) : Nat → Option Nat → Except Fault (List Iovec)
  | 0, _ => .ok []
  | _ + 1, none => .error .nullDereference
  | n + 1, some pio =>
    match h.get pio with
    | none => .error .nullDereference
    | some node => do return ⟨node.buffer, PAGE_SIZE⟩ :: (← chainToIovec h n node.next)

abbrev Memory := Nat → UInt8

def pageAt (mem : Memory) (buffer : Nat) : Page := fun j => mem (buffer + j)

-- The buffers of the nodes that can be met, at most this many.
def buffersFrom (h : PioHeap) : Nat → Option Nat → List Nat
  | n + 1, some pio =>
    match h.get pio with
    | some node => node.buffer :: buffersFrom h n node.next
    | none => []
  | _, _ => []

-- What a request says, with the contents of its buffers.
def toPio (h : PioHeap) (mem : Memory) (head : Nat) : Option Pio :=
  (h.get head).map fun node =>
    { fullPathName := node.fullPathName
      fd := node.fd
      pageIndex := node.pageIndex
      operation := node.operation
      buffers := (buffersFrom h node.pioCnt (some head)).map (pageAt mem)
      pioCnt := node.pioCnt }

theorem mod_page_lt (i : Nat) : i % PAGE_SIZE < PAGE_SIZE := Nat.mod_lt i (by decide)

-- The pages that a READ leaves in the buffers, in the order of the array.
def storePages (mem : Memory) (buffers : List Nat) (pages : List Page) : Memory :=
  (buffers.zip pages).foldl (fun mem p =>
    Bytes.write mem p.1 PAGE_SIZE fun i => p.2 ⟨i % PAGE_SIZE, mod_page_lt i⟩) mem

-- submit_pio on a chain.
def submitChain (shared : Option Shared) (w : World) (reply : Replies) (h : PioHeap) (mem : Memory) :
    Option Nat → Except Fault (Option Shared × World × Memory × Nat)
  | none => do
    let (shared, w, _, rc) ← submitPio shared w reply none
    return (shared, w, mem, rc)
  | some head =>
    match toPio h mem head with
    | none => .error .nullDereference
    | some pio => do
      let (shared, w, pages, rc) ← submitPio shared w reply (some pio)
      let buffers := buffersFrom h pio.pioCnt (some head)
      return (shared, w, if pio.operation = .read then storePages mem buffers pages else mem, rc)

end Target

section Walks

variable {h : PioHeap} {mem : Memory} {first : Option Nat} {a n : Nat} {addrs : List Nat}
  {node : PioNode} {pio : Pio}

theorem lastPio_chain {fuel : Nat} (c : Chain PioNode.next h first (addrs ++ [a]))
    (hf : addrs.length < fuel) : ∃ node, h.get a = some node ∧ node.next = none ∧
      lastPio h fuel first = .ok (a, node) := by
  induction addrs generalizing first fuel with
  | nil =>
      obtain ⟨rfl, node, hnode, hrest⟩ := Chain.cons_iff.mp c
      obtain ⟨fuel, rfl⟩ : ∃ m, fuel = m + 1 := ⟨fuel - 1, by simp at hf; omega⟩
      have hnext : node.next = none := hrest.seg
      exact ⟨node, hnode, hnext, by simp [lastPio, hnode, hnext]⟩
  | cons b rest ih =>
      obtain ⟨rfl, v, hv, hrest⟩ := Chain.cons_iff.mp c
      simp only [List.length_cons] at hf
      obtain ⟨fuel, rfl⟩ : ∃ m, fuel = m + 1 := ⟨fuel - 1, by omega⟩
      have hlt : rest.length < fuel := by omega
      obtain ⟨node, hnode, hnext, heq⟩ := ih hrest hlt
      obtain ⟨next, hsome⟩ : ∃ next, v.next = some next := by
        cases hv' : v.next with
        | some next => exact ⟨next, rfl⟩
        | none =>
            have hnil := hrest.seg.head
            cases rest <;> simp [hv'] at hnil
      refine ⟨node, hnode, hnext, ?_⟩
      rw [hsome] at heq
      simp only [lastPio, hv, hsome, heq]

-- Nothing but the nodes of the chain is freed.
theorem freeFrom_chain {fuel : Nat} (c : Chain PioNode.next h first addrs)
    (hf : addrs.length ≤ fuel) : ∃ h', freeFrom fuel h first = .ok h' ∧
      (∀ a ∈ addrs, h'.get a = none) ∧ ∀ a ∉ addrs, h'.get a = h.get a := by
  induction addrs generalizing first fuel with
  | nil =>
      obtain rfl : first = none := c.seg
      exact ⟨h, by cases fuel <;> rfl, by simp, fun _ _ => rfl⟩
  | cons a rest ih =>
      have hnotin := (List.nodup_cons.mp c.nodup).1
      obtain ⟨rfl, v, hv, hrest⟩ := Chain.cons_iff.mp c
      simp only [List.length_cons] at hf
      obtain ⟨fuel, rfl⟩ : ∃ m, fuel = m + 1 := ⟨fuel - 1, by omega⟩
      have hle : rest.length ≤ fuel := by omega
      obtain ⟨h', heq, hgone, hkept⟩ := ih hrest hle
      have hhead : h'.get a = some v := (hkept a hnotin).trans hv
      refine ⟨h'.erase a, ?_, fun b hb => ?_, fun b hb => ?_⟩
      · simp only [freeFrom, hv, heq, bind, Except.bind, hhead, Option.isNone_some,
          Bool.false_eq_true, ite_false, pure, Except.pure]
      · rcases List.mem_cons.mp hb with rfl | hb
        · exact Finmap.lookup_erase b h'.cells
        · have hne : b ≠ a := fun he => hnotin (he ▸ hb)
          rw [Heap.get_erase_of_ne h' hne, hgone b hb]
      · rw [List.mem_cons, not_or] at hb
        rw [Heap.get_erase_of_ne h' hb.1, hkept b hb.2]

theorem freePio_chain (c : Chain PioNode.next h first addrs) : ∃ h', freePio h first = .ok h' ∧
    (∀ a ∈ addrs, h'.get a = none) ∧ ∀ a ∉ addrs, h'.get a = h.get a :=
  freeFrom_chain c c.length_le

theorem chainToIovec_eq (h : PioHeap) (n : Nat) (first : Option Nat) : chainToIovec h n first =
    if n ≤ (buffersFrom h n first).length then
      .ok ((buffersFrom h n first).map fun buffer => ⟨buffer, PAGE_SIZE⟩)
    else .error .nullDereference := by
  induction n generalizing first with
  | zero => simp [chainToIovec, buffersFrom]
  | succ n ih =>
      cases first with
      | none => simp [chainToIovec, buffersFrom]
      | some a =>
          cases hv : h.get a with
          | none => simp [chainToIovec, buffersFrom, hv]
          | some node =>
              simp only [chainToIovec, buffersFrom, hv, ih, List.length_cons, Nat.succ_le_succ_iff]
              split <;> simp [bind, Except.bind, pure, Except.pure]

theorem buffersFrom_length_le (h : PioHeap) (n : Nat) (first : Option Nat) :
    (buffersFrom h n first).length ≤ n := by
  induction n generalizing first with
  | zero => simp [buffersFrom]
  | succ n ih =>
      cases first with
      | none => simp [buffersFrom]
      | some a =>
          cases hv : h.get a with
          | none => simp [buffersFrom, hv]
          | some node =>
              simp only [buffersFrom, hv, List.length_cons]
              exact Nat.succ_le_succ (ih node.next)

-- The target's walk along the pointers finds the pages of the request.
theorem pioToIovec_toPio (hp : toPio h mem a = some pio) : pioToIovec pio =
    (chainToIovec h pio.pioCnt (some a)).map (List.map fun iov => pageAt mem iov.iovBase) := by
  obtain ⟨node, -, rfl⟩ := Option.map_eq_some_iff.mp hp
  have hle := buffersFrom_length_le h node.pioCnt (some a)
  rw [chainToIovec_eq]
  unfold pioToIovec
  simp only [List.length_map]
  split
  · rw [List.take_of_length_le (by simpa using hle)]
    simp [Except.map, List.map_map, Function.comp_def]
  · rfl

end Walks

-- The k-th node of a chain that was created with this head.
def PioNode.page (node : PioNode) (k buffer : Nat) (next : Option Nat) : PioNode :=
  { node with pageIndex := u32 (node.pageIndex + k), buffer := buffer, next := next }

-- A chain as create_pio and append_pio make it.
structure Built (h : PioHeap) (node : PioNode) (addrs buffers : List Nat) : Prop where
  chain : Chain PioNode.next h addrs.head? addrs
  length : addrs.length = buffers.length
  nodes : ∀ k a, addrs[k]? = some a →
    ∃ buffer next, buffers[k]? = some buffer ∧ h.get a = some (node.page k buffer next)

section Building

variable {malloc : Allocator PioNode} {h h' : PioHeap} {node : PioNode} {addrs buffers more : List Nat}
  {first : Option Nat} {a n buffer : Nat}

theorem buffersFrom_chain (c : Chain PioNode.next h first addrs)
    (hl : addrs.length = buffers.length)
    (hb : ∀ k a : Nat, addrs[k]? = some a → (h.get a).map PioNode.buffer = buffers[k]?) (n : Nat) :
    buffersFrom h n first = buffers.take n := by
  induction addrs generalizing first buffers n with
  | nil =>
      obtain rfl : first = none := c.seg
      obtain rfl : buffers = [] := List.eq_nil_of_length_eq_zero hl.symm
      cases n <;> rfl
  | cons a rest ih =>
      obtain ⟨rfl, v, hv, hrest⟩ := Chain.cons_iff.mp c
      cases buffers with
      | nil => simp at hl
      | cons buffer later =>
          cases n with
          | zero => rfl
          | succ n =>
              have hhead : v.buffer = buffer := by simpa [hv] using hb 0 a rfl
              have hlater := ih hrest (by simpa using hl) (fun k b hk => by simpa using hb (k + 1) b hk) n
              simp only [buffersFrom, hv, hhead, hlater, List.take_succ_cons]

theorem Built.buffersFrom (b : Built h node addrs buffers) (n : Nat) :
    buffersFrom h n addrs.head? = buffers.take n := by
  refine buffersFrom_chain b.chain b.length (fun k a hk => ?_) n
  obtain ⟨buffer, next, hbuffer, hget⟩ := b.nodes k a hk
  rw [hget, hbuffer]
  rfl

theorem Built.congr (b : Built h node addrs buffers) (hg : ∀ i, h'.get i = h.get i) :
    Built h' node addrs buffers :=
  ⟨b.chain.congr fun i _ => hg i, b.length, fun k a hk => by rw [hg]; exact b.nodes k a hk⟩

theorem Built.ne_nil (b : Built h node addrs buffers) (hb : buffers ≠ []) : addrs ≠ [] := by
  rintro rfl
  exact hb (List.eq_nil_of_length_eq_zero b.length.symm)

theorem createPio_built {fullPathName : CString} {fd pageIndex pioCnt : Nat} {operation : Operate}
    (hp : pageIndex < 2 ^ 32)
    (heq : createPio malloc h fullPathName fd pageIndex operation buffer pioCnt = (h', some a)) :
    Built h' ⟨fullPathName, fd, pageIndex, operation, buffer, pioCnt, none⟩ [a] [buffer] ∧
      h.get a = none ∧ ∀ i ≠ a, h'.get i = h.get i := by
  obtain ⟨hfree, hnew, hkept⟩ := Heap.alloc_some heq
  refine ⟨⟨Chain.cons_iff.mpr ⟨rfl, _, hnew, Chain.nil⟩, rfl, fun k b hk => ?_⟩, hfree, hkept⟩
  cases k with
  | zero =>
      obtain rfl : a = b := by simpa using hk
      refine ⟨buffer, none, rfl, ?_⟩
      simp [hnew, PioNode.page, u32_of_lt hp]
  | succ k => simp at hk

theorem Built.snoc {before : List Nat} {new old : Nat} (b : Built h node (before ++ [a]) buffers)
    (hfree : h.get new = none) (hold : buffers[before.length]? = some old)
    (ha : h'.get a = some (node.page before.length old (some new)))
    (hnew : h'.get new = some (node.page (before.length + 1) buffer none))
    (hg : ∀ i, i ≠ a → i ≠ new → h'.get i = h.get i) :
    Built h' node (before ++ [a] ++ [new]) (buffers ++ [buffer]) := by
  have hlen := b.length
  rw [List.length_append, List.length_singleton] at hlen
  have hhead : (before ++ [a] ++ [new]).head? = (before ++ [a]).head? := by cases before <;> rfl
  refine ⟨?_, by simp [hlen], fun k i hk => ?_⟩
  · rw [hhead]
    exact b.chain.push hfree (by rw [ha]; rfl) hnew rfl hg
  · obtain ⟨hlt, -⟩ := List.getElem?_eq_some_iff.mp hk
    simp only [List.length_append, List.length_singleton] at hlt
    rcases (by omega : k < before.length ∨ k = before.length ∨ k = before.length + 1) with
      hk' | rfl | rfl
    · have hmem : before[k]? = some i := by
        rwa [List.append_assoc, List.getElem?_append_left hk'] at hk
      obtain ⟨buffer', next, hbuffer, hget⟩ := b.nodes k i (by rwa [List.getElem?_append_left hk'])
      refine ⟨buffer', next, ?_, ?_⟩
      · rw [List.getElem?_append_left (by omega), hbuffer]
      · rw [hg i, hget]
        · exact fun he => (List.nodup_append.mp b.chain.nodup).2.2 i (List.mem_of_getElem? hmem) a
            (List.mem_singleton.mpr rfl) he
        · rintro rfl
          simp [hfree] at hget
    · obtain rfl : a = i := by simpa using hk
      exact ⟨old, some new, by rw [List.getElem?_append_left (by omega), hold], ha⟩
    · obtain rfl : new = i := by simpa using hk
      exact ⟨buffer, none, by simp [hlen], hnew⟩

-- append_pio adds one node, or none when malloc refuses.
theorem Built.appendPio (malloc : Allocator PioNode) (b : Built h node addrs buffers)
    (hb : buffers ≠ []) (buffer : Nat) :
    ∃ h', appendPio malloc h addrs.head? buffer = .ok h' ∧
      (Built h' node addrs buffers ∧ malloc.malloc h = none ∧ (∀ i, h'.get i = h.get i) ∨
      ∃ new, Built h' node (addrs ++ [new]) (buffers ++ [buffer]) ∧ h.get new = none ∧
        ∀ i ∉ addrs ++ [new], h'.get i = h.get i) := by
  obtain ⟨before, a, rfl⟩ := (List.eq_nil_or_concat' addrs).resolve_left (b.ne_nil hb)
  have hlt : before.length < h.cells.keys.card := by
    have hle := b.chain.length_le
    simp only [List.length_append, List.length_singleton] at hle
    omega
  obtain ⟨v, hv, hnone, hlast⟩ := lastPio_chain b.chain hlt
  obtain ⟨old, next, hold, hpage⟩ := b.nodes before.length a (by simp)
  obtain rfl : node.page before.length old next = v := Option.some.inj (hpage.symm.trans hv)
  obtain rfl : next = none := hnone
  have hinc : inc (u32 (node.pageIndex + before.length)) =
      u32 (node.pageIndex + (before.length + 1)) := by
    simp only [inc, u32]
    omega
  unfold SsdCache.appendPio
  simp only [hlast, bind, Except.bind, pure, Except.pure]
  generalize hc : createPio malloc h _ _ _ _ _ _ = created
  obtain ⟨h₁, new⟩ := created
  refine ⟨_, rfl, ?_⟩
  cases new with
  | none =>
      obtain ⟨hrefused, hsame⟩ := Heap.alloc_none hc
      have hget : ∀ i, (h₁.set a (node.page before.length old none)).get i = h.get i := fun i => by
        by_cases hi : i = a
        · rw [hi, Heap.get_set, hv]
        · rw [Heap.get_set_of_ne h₁ _ hi, hsame]
      exact .inl ⟨b.congr hget, hrefused, hget⟩
  | some new =>
      obtain ⟨hfree, hnew, hsame⟩ := Heap.alloc_some hc
      have hne : new ≠ a := by
        rintro rfl
        simp [hfree] at hv
      have hget : ∀ i, i ≠ a → i ≠ new →
          (h₁.set a (node.page before.length old (some new))).get i = h.get i := fun i hia hin => by
        rw [Heap.get_set_of_ne h₁ _ hia, hsame i hin]
      refine .inr ⟨new, b.snoc hfree hold (Heap.get_set h₁ a _) ?_ hget, hfree, fun i hi => ?_⟩
      · rw [Heap.get_set_of_ne h₁ _ hne, hnew]
        simp only [PioNode.page, hinc]
      · simp only [List.mem_append, List.mem_singleton, not_or] at hi
        exact hget i hi.1.2 hi.2

-- Each append that malloc does not refuse adds its buffer behind the others.
theorem Built.appendPios (malloc : Allocator PioNode) (b : Built h node addrs buffers)
    (hb : buffers ≠ []) (more : List Nat) :
    ∃ h' new kept, appendPios malloc h addrs.head? more = .ok h' ∧
      Built h' node (addrs ++ new) (buffers ++ kept) ∧ kept.Sublist more ∧
      ((∀ h, (malloc.malloc h).isSome) → kept = more) ∧ (∀ i ∈ new, h.get i = none) ∧
      ∀ i ∉ addrs ++ new, h'.get i = h.get i := by
  induction more generalizing h addrs buffers with
  | nil => exact ⟨h, [], [], rfl, by simpa using b, .slnil, fun _ => rfl, by simp, fun _ _ => rfl⟩
  | cons buffer rest ih =>
      obtain ⟨h₁, heq, ⟨b₁, hrefused, hsame⟩ | ⟨a, b₁, hfree, hsame⟩⟩ :=
        b.appendPio malloc hb buffer
      · obtain ⟨h', new, kept, heq', b', hsub, hall, hnew, hkept⟩ := ih b₁ hb
        refine ⟨h', new, kept, ?_, b', hsub.cons buffer, fun hm => ?_, fun i hi => ?_, fun i hi => ?_⟩
        · simp only [SsdCache.appendPios, heq, heq', bind, Except.bind]
        · have hsome := hm h
          simp [hrefused] at hsome
        · rw [← hsame, hnew i hi]
        · rw [hkept i hi, hsame]
      · have hhead : (addrs ++ [a]).head? = addrs.head? :=
          List.head?_append_of_ne_nil _ (b.ne_nil hb)
        obtain ⟨h', new, kept, heq', b', hsub, hall, hnew, hkept⟩ := ih b₁ (by simp)
        rw [hhead] at heq'
        refine ⟨h', a :: new, buffer :: kept, ?_, by simpa using b', hsub.cons_cons buffer,
          fun hm => by rw [hall hm], fun i hi => ?_, fun i hi => ?_⟩
        · simp only [SsdCache.appendPios, heq, heq', bind, Except.bind]
        · rcases List.mem_cons.mp hi with rfl | hi
          · exact hfree
          · rw [← hsame i, hnew i hi]
            intro hm
            have hlive := b₁.chain.live i hm
            simp [hnew i hi] at hlive
        · have hi' : i ∉ addrs ++ [a] ++ new := by simpa using hi
          rw [hkept i hi', hsame i fun hm => hi' (List.mem_append_left _ hm)]

end Building

end UserPageCache.SsdCache
