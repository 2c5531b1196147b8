import UserPageCache.Lib.Stores
import UserPageCache.SsdCache.PioChain
import UserPageCache.SsdCache.Sequential

namespace UserPageCache.SsdCache

open Bytes Stores

-- A command of the driver: where its part of the transfer begins, and the memory it covers.
structure Part where
  offset : Nat
  segments : List Iovec

section Driver

-- next_sge_fn until the command is covered, in at most this many calls. Of the last segment it
-- takes what it still needs.
def coverSges : Nat → IoReq → Nat → Option (IoReq × List Iovec)
  | calls, req, len =>
    if len = 0 then some (req, [])
    else match calls with
      | 0 => none
      | calls + 1 => do
        let (req, segment) ← nextSgeFn req
        let (req, segments) ← coverSges calls req (len - segment.iovLen)
        return (req, { segment with iovLen := min len segment.iovLen } :: segments)

-- The driver cuts the transfer into commands of these lengths, and resets the list for each.
def splitSges : IoReq → Nat → List Nat → Option (List Part)
  | _, _, [] => some []
  | req, offset, len :: rest => do
    let req ← resetSglFn req offset
    let (req, segments) ← coverSges req.iovCnt req len
    let parts ← splitSges req (offset + len) rest
    return ⟨offset, segments⟩ :: parts

-- The cells of a command, on the SSD from `first` on and in memory.
def Part.cells (first : Nat) (part : Part) : List (Nat × Nat) :=
  (List.range' (first + part.offset) (bytesOf part.segments).length).zip (bytesOf part.segments)

-- The SSD after the commands have been carried out in this order, and the memory.
def writeParts (ssd mem : Memory) (first : Nat) (parts : List Part) : Memory :=
  store ssd ((parts.flatMap (Part.cells first)).map fun cell => (cell.1, mem cell.2))

def readParts (ssd mem : Memory) (first : Nat) (parts : List Part) : Memory :=
  store mem ((parts.flatMap (Part.cells first)).map fun cell => (cell.2, ssd cell.1))

end Driver

section Cutting

variable {req req' : IoReq} {first offset len : Nat}

theorem skipIovs_iovs (n : Nat) : ∀ req : IoReq, req.iovCnt - req.iovPos = n →
    skipIovs req = some req' → req'.iovs = req.iovs := by
  induction n with
  | zero =>
      intro req hn h
      rw [skipIovs, if_neg (by omega)] at h
      rw [← Option.some.inj h]
  | succ n ih =>
      intro req hn h
      rw [skipIovs, if_pos (by omega)] at h
      obtain ⟨iov, -, h⟩ := Option.bind_eq_some_iff.mp h
      split at h
      · rw [← Option.some.inj h]
      · have hrest := ih _ (by simp only; omega) h
        exact hrest

-- The callbacks cover a command from what is left of the list.
theorem IoReq.Ready.cover (calls : Nat) : ∀ {req : IoReq} {len : Nat}, req.Ready →
    req.iovCnt - req.iovPos ≤ calls → len ≤ req.remaining.length →
    ∃ req' segments, coverSges calls req len = some (req', segments) ∧ req'.iovs = req.iovs ∧
      req'.iovCnt = req.iovCnt ∧ bytesOf segments = req.remaining.take len := by
  induction calls with
  | zero =>
      intro req len h hcalls hlen
      have hpos : req.iovPos = req.iovCnt := by have := h.pos; omega
      rw [IoReq.remaining_end h.cnt hpos, List.length_nil] at hlen
      obtain rfl : len = 0 := by omega
      exact ⟨req, [], by simp [coverSges], rfl, rfl, by simp [bytesOf]⟩
  | succ calls ih =>
      intro req len h hcalls hlen
      by_cases hzero : len = 0
      · rw [hzero]
        exact ⟨req, [], by simp [coverSges], rfl, rfl, by simp [bytesOf]⟩
      · have hlt : req.iovPos < req.iovCnt := by
          by_contra hend
          have hpos : req.iovPos = req.iovCnt := by have := h.pos; omega
          rw [IoReq.remaining_end h.cnt hpos, List.length_nil] at hlen
          omega
        obtain ⟨segment, hnext, hremaining⟩ := h.nextSgeFn hlt
        rw [hremaining, List.length_append, segment.bytes_length] at hlen
        have hrest : len - segment.iovLen ≤
            { req with iovPos := req.iovPos + 1, iovOffset := 0 : IoReq }.remaining.length := by
          omega
        have hcalls' : req.iovCnt - (req.iovPos + 1) ≤ calls := by omega
        obtain ⟨req', segments, hcover, hiovs, hcnt, hbytes⟩ := ih (h.next hlt) hcalls' hrest
        refine ⟨req', { segment with iovLen := min len segment.iovLen } :: segments, ?_, hiovs, hcnt,
          ?_⟩
        · simp [coverSges, hzero, hnext, hcover]
        · have htake : segment.bytes.take len =
              Iovec.bytes { segment with iovLen := min len segment.iovLen } := by
            unfold Iovec.bytes
            rcases Nat.le_total len segment.iovLen with hle | hle
            · rw [List.take_range'_of_length_ge hle, Nat.min_eq_left hle]
            · rw [List.take_range'_of_length_le hle, Nat.min_eq_right hle]
          rw [hremaining, List.take_append, htake, segment.bytes_length, ← hbytes]
          rfl

-- However a transfer is cut up, its commands together move each byte of the list to its place.
theorem splitSges_cells (first : Nat) (cuts : List Nat) : ∀ {req : IoReq} {offset : Nat},
    req.iovs.length = req.iovCnt → (bytesOf req.iovs).length < 2 ^ 32 → (∀ len ∈ cuts, 0 < len) →
    offset + cuts.sum ≤ (bytesOf req.iovs).length →
    ∃ parts, splitSges req offset cuts = some parts ∧ parts.flatMap (Part.cells first) =
      (List.range' (first + offset) cuts.sum).zip (((bytesOf req.iovs).drop offset).take cuts.sum)
    := by
  induction cuts with
  | nil =>
      intro req offset hcnt htotal hpos hsum
      exact ⟨[], rfl, by simp⟩
  | cons len rest ih =>
      intro req offset hcnt htotal hpos hsum
      have hlen := hpos len List.mem_cons_self
      rw [List.sum_cons] at hsum
      obtain ⟨req₁, hreset, hready, hcnt₁, hremaining⟩ := IoReq.skipIovs_ready req.iovCnt
        { req with iovOffset := offset, iovPos := 0 } rfl hcnt htotal (Nat.zero_le _)
        (by simp only [List.drop_zero]; omega)
      have hiovs₁ := skipIovs_iovs _ _ rfl hreset
      have hleft : req₁.remaining = (bytesOf req.iovs).drop offset := hremaining
      have hfits : len ≤ req₁.remaining.length := by
        rw [hleft, List.length_drop]
        omega
      obtain ⟨req₂, segments, hcover, hiovs₂, hcnt₂, hbytes⟩ :=
        hready.cover req₁.iovCnt (Nat.sub_le _ _) hfits
      have hsame : req₂.iovs = req.iovs := hiovs₂.trans hiovs₁
      have hcnt' : req₂.iovs.length = req₂.iovCnt := by rw [hsame, hcnt₂, hcnt₁, hcnt]
      have hrest : offset + len + rest.sum ≤ (bytesOf req₂.iovs).length := by
        rw [hsame]
        omega
      obtain ⟨parts, hsplit, hcells⟩ := ih hcnt' (by rwa [hsame])
        (fun n hn => hpos n (List.mem_cons_of_mem len hn)) hrest
      refine ⟨⟨offset, segments⟩ :: parts, ?_, ?_⟩
      · simp only [splitSges, resetSglFn, hreset, Option.bind_eq_bind, Option.bind_some, hcover,
          hsplit]
        rfl
      · have hlength : (bytesOf segments).length = len := by
          rw [hbytes, List.length_take]
          omega
        rw [List.flatMap_cons, hcells, hsame, Part.cells, hlength, hbytes, hleft, List.sum_cons,
          List.take_add, List.drop_drop, ← List.range'_append_1, ← Nat.add_assoc,
          List.zip_append]
        rw [List.length_range', List.length_take, List.length_drop]
        omega

end Cutting

section Pages

variable {ssd mem : Memory} {first : Nat} {buffers : List Nat}

-- The array that pio_to_iovec makes of these buffers.
def pageIovs (buffers : List Nat) : List Iovec := buffers.map fun buffer => ⟨buffer, PAGE_SIZE⟩

theorem bytesOf_pageIovs_cons (buffer : Nat) (rest : List Nat) :
    bytesOf (pageIovs (buffer :: rest)) =
      List.range' buffer PAGE_SIZE ++ bytesOf (pageIovs rest) := by
  simp only [bytesOf, pageIovs, List.map_cons, List.flatMap_cons, Iovec.bytes]

theorem bytesOf_pageIovs_length (buffers : List Nat) :
    (bytesOf (pageIovs buffers)).length = buffers.length * PAGE_SIZE := by
  induction buffers with
  | nil => rfl
  | cons buffer rest ih =>
      rw [bytesOf_pageIovs_cons, List.length_append, List.length_range', ih, List.length_cons,
        Nat.succ_mul, Nat.add_comm]

theorem range'_pages (first n : Nat) : List.range' first ((n + 1) * PAGE_SIZE) =
    List.range' first PAGE_SIZE ++ List.range' (first + PAGE_SIZE) (n * PAGE_SIZE) := by
  rw [Nat.succ_mul, Nat.add_comm, List.range'_append_1]

-- What goes to the SSD are the pages one behind the other.
theorem store_pages (buffers : List Nat) : ∀ (ssd : Memory) (first : Nat) (rest : Nat → UInt8),
    store ssd (((List.range' first (buffers.length * PAGE_SIZE)).zip
      (bytesOf (pageIovs buffers))).map fun cell => (cell.1, mem cell.2)) =
        Bytes.write ssd first (buffers.length * PAGE_SIZE)
          (gather PAGE_SIZE (buffers.map (pageAt mem)) rest) := by
  induction buffers with
  | nil =>
      intro ssd first rest
      simp [store_nil, write_zero]
  | cons buffer later ih =>
      intro ssd first rest
      have hpage : ((List.range' first PAGE_SIZE).zip (List.range' buffer PAGE_SIZE)).map
          (fun cell => (cell.1, mem cell.2)) =
            (List.range PAGE_SIZE).map fun i => (first + i, mem (buffer + i)) := by
        rw [List.range'_eq_map_range, List.range'_eq_map_range, List.zip_map', List.map_map]
        rfl
      rw [List.length_cons, range'_pages, bytesOf_pageIovs_cons, List.zip_append (by simp),
        List.map_append, store_append, hpage, store_range,
        ih _ _ fun k => rest (PAGE_SIZE + k), List.map_cons, Nat.succ_mul]
      funext i
      simp only [Bytes.write, gather_cons (show 0 < PAGE_SIZE by decide)]
      by_cases hlast : first + PAGE_SIZE ≤ i ∧ i < first + PAGE_SIZE + later.length * PAGE_SIZE
      · rw [if_pos hlast, if_pos (by omega), dif_neg (by omega), Nat.sub_sub]
      · rw [if_neg hlast]
        by_cases hin : first ≤ i ∧ i < first + PAGE_SIZE
        · rw [if_pos hin, if_pos (by omega), dif_pos (by omega)]
          rfl
        · rw [if_neg hin, if_neg (by omega)]

-- What comes from the SSD fills the buffers one after the other.
theorem fetch_pages (buffers : List Nat) : ∀ (mem : Memory) (first : Nat),
    store mem (((List.range' first (buffers.length * PAGE_SIZE)).zip
      (bytesOf (pageIovs buffers))).map fun cell => (cell.2, ssd cell.1)) =
        storePages mem buffers
          ((List.range buffers.length).map (chunk PAGE_SIZE fun i => ssd (first + i))) := by
  induction buffers with
  | nil =>
      intro mem first
      simp [store_nil, storePages]
  | cons buffer later ih =>
      intro mem first
      have hpage : ((List.range' first PAGE_SIZE).zip (List.range' buffer PAGE_SIZE)).map
          (fun cell => (cell.2, ssd cell.1)) =
            (List.range PAGE_SIZE).map fun i => (buffer + i, ssd (first + i)) := by
        rw [List.range'_eq_map_range, List.range'_eq_map_range, List.zip_map', List.map_map]
        rfl
      have hfirst : Bytes.write mem buffer PAGE_SIZE (fun i => ssd (first + i)) =
          Bytes.write mem buffer PAGE_SIZE fun i =>
            chunk PAGE_SIZE (fun i => ssd (first + i)) 0 ⟨i % PAGE_SIZE, mod_page_lt i⟩ := by
        funext i
        unfold Bytes.write
        split
        · rename_i hin
          simp only [chunk, Nat.zero_mul, Nat.zero_add,
            Nat.mod_eq_of_lt (show i - buffer < PAGE_SIZE by omega)]
        · rfl
      have hlater : chunk PAGE_SIZE (fun i => ssd (first + i)) ∘ Nat.succ =
          chunk PAGE_SIZE fun i => ssd (first + PAGE_SIZE + i) := by
        funext k j
        simp only [Function.comp_apply, chunk, Nat.succ_mul]
        congr 1
        omega
      rw [List.length_cons, range'_pages, bytesOf_pageIovs_cons, List.zip_append (by simp),
        List.map_append, store_append, hpage, store_range, ih, List.range_succ_eq_map,
        List.map_cons, List.map_map, hlater, hfirst]
      rfl

end Pages

section Requests

variable {h : PioHeap} {head : Nat} {mem : Memory} {pio : Pio} {g : Geometry} {cache : Cache}
  {w : World} {c : Nat} {buffers : List Nat} {parts parts' : List Part} {first : Nat}

-- What pio_to_iovec makes of a chain that is long enough.
theorem chainToIovec_ok {n : Nat} {from? : Option Nat} {iovs : List Iovec}
    (hio : chainToIovec h n from? = .ok iovs) :
    iovs = pageIovs (buffersFrom h n from?) ∧ (buffersFrom h n from?).length = n := by
  rw [chainToIovec_eq] at hio
  split at hio
  · rename_i hle
    exact ⟨(Except.ok.inj hio).symm, Nat.le_antisymm (buffersFrom_length_le h n from?) hle⟩
  · cases hio

theorem toPio_buffers (hp : toPio h mem head = some pio) :
    pio.buffers = (buffersFrom h pio.pioCnt (some head)).map (pageAt mem) := by
  obtain ⟨node, -, rfl⟩ := Option.map_eq_some_iff.mp hp
  rfl

-- The commands of a WRITE store at different places of the SSD, whatever the buffers are.
theorem writeParts_perm (ssd mem : Memory) (hp : parts.Perm parts')
    (hcells : parts.flatMap (Part.cells first) =
      (List.range' first (buffers.length * PAGE_SIZE)).zip (bytesOf (pageIovs buffers))) :
    writeParts ssd mem first parts' = writeParts ssd mem first parts := by
  refine (store_perm ssd ?_ ((hp.flatMap_right _).map _)).symm
  have hfst : ∀ cells : List (Nat × Nat), (cells.map fun cell => (cell.1, mem cell.2)).map Prod.fst =
      cells.map Prod.fst := fun cells => by rw [List.map_map]; rfl
  rw [hfst, hcells, List.map_fst_zip (by simp [bytesOf_pageIovs_length])]
  exact List.nodup_range'

theorem readParts_perm (ssd mem : Memory) (hp : parts.Perm parts')
    (hcells : parts.flatMap (Part.cells first) =
      (List.range' first (buffers.length * PAGE_SIZE)).zip (bytesOf (pageIovs buffers)))
    (hn : (bytesOf (pageIovs buffers)).Nodup) :
    readParts ssd mem first parts' = readParts ssd mem first parts := by
  refine (store_perm mem ?_ ((hp.flatMap_right _).map _)).symm
  have hsnd : ∀ cells : List (Nat × Nat), (cells.map fun cell => (cell.2, ssd cell.1)).map Prod.fst =
      cells.map Prod.snd := fun cells => by rw [List.map_map]; rfl
  rw [hsnd, hcells, List.map_snd_zip (by simp [bytesOf_pageIovs_length])]
  exact hn

-- The commands together move the bytes of the buffers, in order, to or from one range.
theorem request_parts {cuts : List Nat} (req : IoReq) (first : Nat) (hlen : buffers.length ≤ 8)
    (hcuts : ∀ len ∈ cuts, 0 < len) (hsum : cuts.sum = buffers.length * PAGE_SIZE) :
    ∃ parts, splitSges (initReq req (pageIovs buffers) buffers.length) 0 cuts = some parts ∧
      parts.flatMap (Part.cells first) =
        (List.range' first (buffers.length * PAGE_SIZE)).zip (bytesOf (pageIovs buffers)) := by
  have htotal : buffers.length * PAGE_SIZE ≤ 8 * PAGE_SIZE := Nat.mul_le_mul_right _ hlen
  have hbound : 8 * PAGE_SIZE < 2 ^ 32 := by decide
  have hbytes := bytesOf_pageIovs_length buffers
  have hiovs : (initReq req (pageIovs buffers) buffers.length).iovs.length =
      (initReq req (pageIovs buffers) buffers.length).iovCnt := by simp [initReq, pageIovs]
  have hsmall : (bytesOf (initReq req (pageIovs buffers) buffers.length).iovs).length < 2 ^ 32 := by
    simp only [initReq]
    omega
  have hfits : 0 + cuts.sum ≤
      (bytesOf (initReq req (pageIovs buffers) buffers.length).iovs).length := by
    simp only [initReq]
    omega
  obtain ⟨parts, hsplit, hcells⟩ := splitSges_cells first cuts hiovs hsmall hcuts hfits
  refine ⟨parts, hsplit, ?_⟩
  rw [hcells, hsum, Nat.add_zero, List.drop_zero]
  simp only [initReq]
  rw [List.take_of_length_le hbytes.le]

-- However the driver cuts the transfer of a request up, the callbacks serve every command, and in
-- whatever order these are carried out, a WRITE leaves the SSD as write_cache has it and a READ the
-- buffers as read_cache has them. Only a READ into buffers that overlap depends on the order.
theorem transport_refines {iovs : List Iovec} {cuts : List Nat} (req : IoReq)
    (hp : toPio h mem head = some pio) (hio : chainToIovec h pio.pioCnt (some head) = .ok iovs)
    (hcheck : checkPio pio = true) (hl : Layout g w.sectorSize cache.devBlockPerPageShift)
    (hm : cache.map.blockPerCblockShift = g.blockPerCblockShift) (hc : c < CACHE_BLOCK_NUMBER)
    (hcuts : ∀ len ∈ cuts, 0 < len) (hsum : cuts.sum = pio.pioCnt * PAGE_SIZE) :
    ∃ parts w' pages, splitSges (initReq req iovs pio.pioCnt) 0 cuts = some parts ∧
      writeCache cache w .success pio c =
        .ok ({ cache with map := setDirtyAfterWrite cache.map c true }, w', 0) ∧
      readCache cache w .success pio c = .ok (pages, 0) ∧
      (∀ parts', parts.Perm parts' →
        writeParts w.ssd mem (targetBlock cache pio c * w.sectorSize) parts' = w'.ssd) ∧
      ∀ parts', parts.Perm parts' → parts' = parts ∨ (bytesOf iovs).Nodup →
        readParts w.ssd mem (targetBlock cache pio c * w.sectorSize) parts' =
          storePages mem (buffersFrom h pio.pioCnt (some head)) pages := by
  obtain ⟨rfl, hcnt⟩ := chainToIovec_ok hio
  have hpages := toPio_buffers hp
  generalize buffersFrom h pio.pioCnt (some head) = buffers at hcnt hpages ⊢
  have hchain : pio.buffers.length = pio.pioCnt := by rw [hpages, List.length_map, hcnt]
  have hlen := (hl.target hm pio hc).2
  have hroom := room_of_checkPio hcheck
  obtain ⟨parts, hsplit, hall⟩ := request_parts req (targetBlock cache pio c * w.sectorSize)
    (show buffers.length ≤ 8 by omega) hcuts (by rw [hsum, hcnt])
  rw [hcnt] at hsplit
  have hfirst : pio.pioCnt * 2 ^ cache.devBlockPerPageShift * w.sectorSize =
      pio.buffers.length * PAGE_SIZE := by rw [hlen, hchain]
  refine ⟨parts, writeSsd w (targetBlock cache pio c)
    (pio.pioCnt * 2 ^ cache.devBlockPerPageShift)
    (gather PAGE_SIZE pio.buffers fun i => w.ssd (targetBlock cache pio c * w.sectorSize + i)),
    (List.range buffers.length).map
      (chunk PAGE_SIZE fun i => w.ssd (targetBlock cache pio c * w.sectorSize + i)),
    hsplit, ?_, ?_, fun parts' hperm => ?_, fun parts' hperm hor => ?_⟩
  · simp only [writeCache, pioToIovec_of_length hchain, writevSpdk, Replies.success, bind,
      Except.bind, pure, Except.pure]
  · simp only [readCache, pioToIovec_of_length hchain, readvSpdk, Replies.success, bind,
      Except.bind, pure, Except.pure, hfirst]
    rw [fill_pages, hchain, hcnt]
  · rw [writeParts_perm w.ssd mem hperm hall, writeParts, hall, store_pages buffers w.ssd _
      fun i => w.ssd (targetBlock cache pio c * w.sectorSize + i)]
    simp only [writeSsd, hlen, hcnt, hpages]
  · have hsame : readParts w.ssd mem (targetBlock cache pio c * w.sectorSize) parts' =
        readParts w.ssd mem (targetBlock cache pio c * w.sectorSize) parts := by
      rcases hor with heq | hnodup
      · rw [heq]
      · exact readParts_perm w.ssd mem hperm hall hnodup
    rw [hsame, readParts, hall, fetch_pages]

end Requests

-- A chain of two nodes, whose buffers lie apart.
def twoPages : PioHeap :=
  ((⟨∅, 0⟩ : PioHeap).set 1 ⟨[⟨97, nonzero_a⟩], 0, 2, .read, 10000, 2, some 2⟩).set 2
    ⟨[⟨97, nonzero_a⟩], 0, 3, .read, 20000, 2, none⟩

theorem twoPages_first :
    twoPages.get 1 = some ⟨[⟨97, nonzero_a⟩], 0, 2, .read, 10000, 2, some 2⟩ := by
  rw [twoPages, Heap.get_set_of_ne _ _ (by decide), Heap.get_set]

theorem twoPages_second :
    twoPages.get 2 = some ⟨[⟨97, nonzero_a⟩], 0, 3, .read, 20000, 2, none⟩ := by
  rw [twoPages, Heap.get_set]

theorem twoPages_nodup : (bytesOf (pageIovs [10000, 20000])).Nodup := by
  rw [bytesOf_pageIovs_cons, bytesOf_pageIovs_cons, show bytesOf (pageIovs []) = [] from rfl,
    List.append_nil]
  refine List.Nodup.append List.nodup_range' List.nodup_range' fun i hi hi' => ?_
  have hpage : PAGE_SIZE = 4096 := rfl
  rw [List.mem_range'_1] at hi hi'
  omega

-- The cut is inside of the second page, and the second command is carried out first.
theorem transport_refines_twoPages : ∃ parts pages,
    splitSges (initReq ⟨true, 9, [], 5, 5⟩ (pageIovs [10000, 20000]) 2) 0 [5000, 3192] =
      some parts ∧
    readCache Session.boot.cache Session.boot.world .success
      ⟨[⟨97, nonzero_a⟩], 0, 2, .read, [fun _ => 0, fun _ => 0], 2⟩ 0 = .ok (pages, 0) ∧
    readParts Session.boot.world.ssd (fun _ => 0) 8192 parts.reverse =
      storePages (fun _ => 0) [10000, 20000] pages := by
  have hbuffers : buffersFrom twoPages 2 (some 1) = [10000, 20000] := by
    simp [buffersFrom, twoPages_first, twoPages_second]
  have hpio : toPio twoPages (fun _ => 0) 1 =
      some ⟨[⟨97, nonzero_a⟩], 0, 2, .read, [fun _ => 0, fun _ => 0], 2⟩ := by
    rw [toPio, twoPages_first, Option.map_some, hbuffers]
    rfl
  have hio : chainToIovec twoPages 2 (some 1) = .ok (pageIovs [10000, 20000]) := by
    rw [chainToIovec_eq, hbuffers]
    rfl
  have hcuts : ∀ len ∈ [5000, 3192], 0 < len := by decide
  obtain ⟨parts, w', pages, hsplit, -, hread, -, hparts⟩ := transport_refines ⟨true, 9, [], 5, 5⟩ hpio
    hio (by decide) Session.boot_booted.layout rfl (show 0 < CACHE_BLOCK_NUMBER by decide) hcuts rfl
  have hreverse := hparts parts.reverse parts.reverse_perm.symm (.inr twoPages_nodup)
  rw [hbuffers] at hreverse
  exact ⟨parts, pages, hsplit, hread, hreverse⟩

end UserPageCache.SsdCache
