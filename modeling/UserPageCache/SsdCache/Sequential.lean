import UserPageCache.SsdCache.Coherence.Worker

namespace UserPageCache.SsdCache

-- A request, or one round of the migration worker.
inductive Event where
  | submit (pio : Pio)
  | migrate

structure Session where
  cache : Cache
  world : World

namespace Session

-- Every device and file call succeeds. Only a READ hands out pages.
def step (s : Session) : Event → Except Fault (Session × List (List Page))
  | .submit pio => do
    let (cache, w, pages, _) ← _submitPio s.cache s.world .success pio
    return (⟨cache, w⟩, if pio.operation = .read then [pages] else [])
  | .migrate => do
    let (m, w, _) ← doMigrationWork s.cache.map s.world .success
    return (⟨{ s.cache with map := m }, w⟩, [])

def run : Session → List Event → Except Fault (Session × List (List Page))
  | s, [] => return (s, [])
  | s, event :: rest => do
    let (s, first) ← s.step event
    let (s, reads) ← s.run rest
    return (s, first ++ reads)

-- The cache as init_ssd_cache leaves it, on a device with power-of-two sectors.
structure Booted (s : Session) (blockSize cblockNum : Nat) : Prop where
  blocks : cblockNum ≤ CACHE_BLOCK_NUMBER
  power : ∃ e, 9 ≤ e ∧ e ≤ 12 ∧ blockSize = 2 ^ e
  map : initMapping zeroMapping blockSize cblockNum = some s.cache.map
  shift : s.cache.devBlockPerPageShift = log2 (PAGE_SIZE / blockSize)
  sector : s.world.sectorSize = blockSize

end Session

-- The pages that the READs have to return, in order.
def expected : Contents → List Event → List (List (Option Page))
  | _, [] => []
  | spec, .submit pio :: rest =>
    (if pio.operation = .read then [spec.load pio] else []) ++ expected (spec.after pio) rest
  | spec, .migrate :: rest => expected spec rest

-- The file has the whole block.
def Covered (w : World) (key : Work) : Prop :=
  ∃ file, w.files key.fullPathName = some file ∧
    (key.cachePageIndex + 1) * CACHE_BLOCK_SIZE ≤ file.length

structure Pio.Admitted (pio : Pio) (w : World) : Prop where
  fits : pio.Fits w
  transfer : pio.operation ≠ .discard
  path : pio.fullPathName.length < MAX_PATH_SIZE
  covered : Covered w pio.key

-- The keys of the blocks in the files that exist from the start.
def Present (w : World) (key : Work) : Prop :=
  key.cachePageIndex < 2 ^ 17 ∧ (w.files key.fullPathName).isSome

variable {g : Geometry} {cache : Cache} {w w₀ : World} {stage : Stage} {t : Table Work}
  {spec : Contents} {key : Work} {b : Nat} {pio : Pio}

theorem Pio.Fits.present (h : pio.Fits w) (hc : Covered w pio.key) : Present w pio.key := by
  obtain ⟨file, hf, -⟩ := hc
  have ha := h.addressable
  have hlt : pio.pageIndex / 2 ^ 3 < 2 ^ 17 := by omega
  exact ⟨hlt, by simp [hf]⟩

-- Every page of the request is promised something.
def Contents.Full (spec : Contents) (pio : Pio) : Prop :=
  ∀ k < pio.pioCnt, (spec pio.fullPathName (pio.pageIndex + k)).isSome

theorem Contents.Full.after {pio' : Pio} (h : spec.Full pio) : (spec.after pio').Full pio := by
  intro k hk
  have hpage := h k hk
  unfold Contents.after
  split
  · simp only [Contents.store]
    split
    · simp [hpage]
    · exact hpage
  · exact hpage

theorem Pio.Admitted.full (h : pio.Admitted w) : (fileContents w).Full pio := by
  intro k hk
  obtain ⟨file, hf, hlen⟩ := h.covered
  have hroom := h.fits.room
  have hindex := pio.page_index
  have hsize : (pio.key.cachePageIndex + 1) * CACHE_BLOCK_SIZE =
      (pio.key.cachePageIndex * 8 + 8) * PAGE_SIZE := by
    simp only [CACHE_BLOCK_SIZE, PAGE_SIZE]
    omega
  have hle : (pio.pageIndex + k + 1) * PAGE_SIZE ≤ file.length :=
    (Nat.mul_le_mul_right _ (by omega)).trans (hsize ▸ hlen)
  have hf' : w.files pio.fullPathName = some file := hf
  simp [fileContents, hf', hle]

theorem Contents.Returned.load {pages : List Page} (h : spec.Returned pio pages)
    (hfull : spec.Full pio) : pages.map some = spec.load pio := by
  refine List.ext_getElem (by simp [Contents.load, h.1]) fun k hk hk' => ?_
  have hlt : k < pio.pioCnt := by simpa [Contents.load] using hk'
  obtain ⟨page, hp⟩ := Option.isSome_iff_exists.mp (hfull k hlt)
  have hpage := h.2 k hlt page hp
  have hlen : k < pages.length := by simpa using hk
  rw [List.getElem?_eq_getElem hlen] at hpage
  simp only [Contents.load, List.getElem_map, List.getElem_range, hp, hpage]

namespace Coherent

section Round

theorem file_exists (h : Coherent g (Present w₀) cache w (.writing key b) stage t spec)
    (hkeeps : Keeps w₀ w) : ∃ file, w.files (cache.map.es b).fullPathName = some file := by
  have hknown := h.known b (h.moving_hashed rfl)
  rw [h.repr.slot_eq] at hknown
  exact Option.isSome_iff_exists.mp (hkeeps.files _ hknown.2)

theorem promotion (h : Coherent g (Present w₀) cache w (.promoting key b) .begun t spec)
    (hkeeps : Keeps w₀ w) :
    ∃ w', mgStart cache.map w .success (some key.fullPathName) key.cachePageIndex b .promotion =
        (w', true) ∧
      Coherent g (Present w₀) cache w' (.promoting key b) .stored t spec ∧ Keeps w w' := by
  have hfile := hkeeps.files _ h.promotion_key.2
  rcases h.promotion_load with ⟨w₁, hload, h₁, hk₁⟩ | ⟨hnone, -⟩
  · obtain ⟨w₂, hstore, h₂, hk₂⟩ := h₁.promotion_store
    refine ⟨w₂, ?_, h₂, hk₁.trans hk₂⟩
    simp only [mgStart, Option.bind_some, hload, hstore, BEq.rfl]
  · simp [hnone] at hfile

theorem writeback (h : Coherent g (Present w₀) cache w (.writing key b) .begun t spec)
    (hkeeps : Keeps w₀ w) :
    ∃ w', mgStart cache.map w .success (some (cache.map.es b).fullPathName)
        (cache.map.es b).cachePageIndex b .writeback = (w', true) ∧
      Coherent g (Present w₀) cache w' (.writing key b) .stored t spec ∧ Keeps w w' := by
  obtain ⟨w₁, hload, h₁, hk₁⟩ := h.writeback_load
  obtain ⟨file, hf⟩ := h₁.file_exists (hkeeps.trans hk₁)
  obtain ⟨w₂, hstore, h₂, hk₂⟩ := h₁.writeback_store hf
  refine ⟨w₂, ?_, h₂, hk₁.trans hk₂⟩
  simp only [mgStart, hload, ite_true, Option.bind_some, hstore]

-- One of the three migrations, or none when the queue's front finds no room at all.
theorem migrate (h : Coherent g (Present w₀) cache w (.peeked key) stage t spec)
    (hkeeps : Keeps w₀ w) :
    ∃ m w' stage t', SsdCache.migrate cache.map w .success key.fullPathName key.cachePageIndex =
        .ok (m, w') ∧
      Coherent g (Present w₀) { cache with map := m } w' (.finished key) stage t' spec ∧
      Keeps w w' := by
  unfold SsdCache.migrate
  simp only [bind, Except.bind, pure, Except.pure]
  rcases h.promotion_start with ⟨heq, h⟩ | ⟨m, b, t', heq, h⟩
  · simp only [heq]
    rcases h.demotion_start with ⟨heq, h⟩ | ⟨m, b, t', heq, h, -⟩
    · simp only [heq]
      rcases h.writeback_start with ⟨heq, h⟩ | ⟨m, b, t', heq, h⟩
      · simp only [heq]
        exact ⟨_, _, _, _, rfl, h, .refl w⟩
      · have hentry := h.repr.toEntry_eq (h.valid.lt_of_inFlight rfl)
        obtain ⟨w', hstart, h', hk⟩ := h.writeback hkeeps
        obtain ⟨m', t₂, hdone, h₂⟩ := h'.writeback_complete
        simp only [heq, hentry, hstart, hdone]
        exact ⟨_, _, _, _, rfl, h₂, hk⟩
    · have hkept : Replies.success.deallocated = none := rfl
      obtain ⟨h', hk⟩ := h.demotion_trim (.inl hkept)
      obtain ⟨m', t₂, hdone, h₂⟩ := h'.demotion_complete
      simp only [heq, mgStart, hdone]
      exact ⟨_, _, _, _, rfl, h₂, hk⟩
  · obtain ⟨w', hstart, h', hk⟩ := h.promotion hkeeps
    obtain ⟨m', t₂, hdone, h₂⟩ := h'.promotion_complete
    simp only [heq, hstart, hdone]
    exact ⟨_, _, _, _, rfl, h₂, hk⟩

theorem round (h : Coherent g (Present w₀) cache w .idle stage t spec) (hkeeps : Keeps w₀ w) :
    ∃ m w' worked stage t', doMigrationWork cache.map w .success = .ok (m, w', worked) ∧
      Coherent g (Present w₀) { cache with map := m } w' .idle stage t' spec ∧ Keeps w w' := by
  unfold doMigrationWork
  cases hq : peakWork cache.map.wq with
  | none => exact ⟨_, _, _, _, _, rfl, h, .refl w⟩
  | some key =>
      obtain ⟨m, w', stage', t', heq, h', hk⟩ := (h.peek hq).migrate hkeeps
      simp only [heq, bind, Except.bind, pure, Except.pure]
      exact ⟨_, _, _, _, _, rfl, h'.dequeue, hk⟩

end Round

theorem submit {keys : Work → Prop} (h : Coherent g keys cache w .idle stage t spec)
    (hf : pio.Fits w) (hop : pio.operation ≠ .discard) (hk : keys pio.key) :
    ∃ cache' w' pages rc t', _submitPio cache w .success pio = .ok (cache', w', pages, rc) ∧
      Coherent g keys cache' w' .idle stage t' (spec.after pio) ∧ Keeps w w' ∧
      (pio.operation = .read → spec.Returned pio pages) := by
  have hstill : Still .idle t pio.key := fun work b hw => by simp at hw
  obtain ⟨m, c, hlookup, hserved⟩ := h.request hf hop hk fun _ => hstill
  have hmap : _submitPio cache w .success pio = mapPio cache w .success pio := by
    simp only [_submitPio, hop, ite_false]
  rw [hmap]
  unfold mapPio
  simp only [hf.checked, Bool.not_true, Bool.false_eq_true, ite_false, hlookup, bind,
    Except.bind, pure, Except.pure]
  cases c with
  | some b =>
      obtain ⟨cache', w', pages, rc, t', heq, h', hkeeps, hread⟩ := hserved
      exact ⟨cache', w', pages, rc, t', heq, h', hkeeps, fun ho => hread ho (by simp)⟩
  | none =>
      obtain ⟨t', h', habs⟩ := hserved
      cases ho : pio.operation with
      | read =>
          obtain ⟨w', pages, rc, heq, hret, h₂, hkeeps⟩ := h'.read_file hf hk habs
          have hafter : spec.after pio = spec := by simp [Contents.after, ho]
          simp only [mapToOrigin, ho, ite_true, heq, hafter]
          exact ⟨_, _, _, _, _, rfl, h₂, hkeeps, fun _ => hret⟩
      | write =>
          obtain ⟨w', rc, heq, h₂, hkeeps⟩ := h'.write_file hf
            (fun b hb hkb => absurd hkb (habs b hb)) (by simp)
          have hafter : spec.after pio = spec.store pio := by simp [Contents.after, ho]
          simp only [mapToOrigin, ho, reduceCtorEq, ite_false, heq, hafter, bind, Except.bind, pure,
            Except.pure]
          exact ⟨_, _, _, _, _, rfl, h₂, hkeeps, by simp⟩
      | discard => exact absurd ho hop

-- From a coherent cache, the READs of any run return what is promised.
theorem run {s : Session} (h : Coherent g (Present w₀) s.cache s.world .idle stage t spec)
    (hkeeps : Keeps w₀ s.world) {events : List Event}
    (hp : ∀ pio, .submit pio ∈ events → pio.Admitted w₀ ∧ spec.Full pio) :
    ∃ s' reads, s.run events = .ok (s', reads) ∧
      reads.map (List.map some) = expected spec events := by
  induction events generalizing s stage t spec with
  | nil => exact ⟨s, [], rfl, rfl⟩
  | cons event rest ih =>
      cases event with
      | submit pio =>
          obtain ⟨ha, hfull⟩ := hp pio List.mem_cons_self
          obtain ⟨cache', w', pages, rc, t', heq, h', hk, hread⟩ :=
            h.submit (ha.fits.keeps hkeeps) ha.transfer (ha.fits.present ha.covered)
          obtain ⟨s', reads, hrun, hreads⟩ := ih (s := ⟨cache', w'⟩) h' (hkeeps.trans hk)
            fun q hq => (hp q (List.mem_cons_of_mem _ hq)).imp_right Contents.Full.after
          refine ⟨s', (if pio.operation = .read then [pages] else []) ++ reads, ?_, ?_⟩
          · simp only [Session.run, Session.step, heq, hrun, bind, Except.bind, pure, Except.pure]
          · rw [List.map_append, hreads, expected]
            split
            · rename_i ho
              rw [← (hread ho).load hfull]
              rfl
            · rfl
      | migrate =>
          obtain ⟨m, w', worked, stage', t', heq, h', hk⟩ := h.round hkeeps
          obtain ⟨s', reads, hrun, hreads⟩ := ih (s := ⟨{ s.cache with map := m }, w'⟩) h'
            (hkeeps.trans hk) fun q hq => hp q (List.mem_cons_of_mem _ hq)
          refine ⟨s', reads, ?_, hreads⟩
          simp only [Session.run, Session.step, heq, hrun, bind, Except.bind, pure, Except.pure,
            List.nil_append]

end Coherent

theorem Session.Booted.layout {s : Session} {blockSize cblockNum : Nat}
    (h : s.Booted blockSize cblockNum) :
    Layout (geometryOf s.cache.map) s.world.sectorSize s.cache.devBlockPerPageShift := by
  rw [h.shift, h.sector]
  exact Layout.of_init h.power h.map

-- A booted cache holds nothing, so the files hold everything that is promised.
theorem Session.Booted.coherent {s : Session} {blockSize cblockNum : Nat} {keys : Work → Prop}
    (h : s.Booted blockSize cblockNum) (hk : ∀ key, keys key → key.cachePageIndex < 2 ^ 17) :
    Coherent (geometryOf s.cache.map) keys s.cache s.world .idle .begun (Table.initial cblockNum)
      (fileContents s.world) := by
  obtain ⟨r, hn, -⟩ := repr_initMapping h.blocks h.map
  exact ⟨r, hn ▸ Valid.initial fun _ => ⟨rfl, rfl⟩, h.layout, hk, by simp [Table.initial],
    by simp [Table.initial], by simp [Table.initial], fun _ _ _ _ _ _ hp => hp, by simp, by simp,
    by simp⟩

theorem sequential_coherence {s : Session} {blockSize cblockNum : Nat} {events : List Event}
    (h : s.Booted blockSize cblockNum)
    (hp : ∀ pio, .submit pio ∈ events → pio.Admitted s.world) :
    ∃ s' reads, s.run events = .ok (s', reads) ∧
      reads.map (List.map some) = expected (fileContents s.world) events :=
  (h.coherent fun _ hk => hk.1).run (.refl _) fun pio hmem => ⟨hp pio hmem, (hp pio hmem).full⟩

-- A file of one block and a cache of one block.
def Session.boot : Session :=
  { cache := ⟨(initMapping zeroMapping 512 1).getD zeroMapping, log2 (PAGE_SIZE / 512)⟩
    world :=
      { sectorSize := 512
        ssd := fun _ => 7
        touched := []
        files := fun path => if path = [⟨97, nonzero_a⟩] then some ⟨2 ^ 15, fun _ => 0⟩ else none
        descriptors := fun _ => none
        dmaBuf := fun _ => 7 } }

theorem Session.boot_booted : Session.boot.Booted 512 1 :=
  ⟨by decide, ⟨9, by decide, by decide, rfl⟩, rfl, rfl, rfl⟩

def pageRequest (pageIndex : Nat) (operation : Operate) (buffers : List Page) : Pio :=
  ⟨[⟨97, nonzero_a⟩], 0, pageIndex, operation, buffers, buffers.length⟩

def blockWrite : Pio := pageRequest 0 .write (List.replicate 8 fun _ => 1)

def Session.bootRun : List Event :=
  [.submit (pageRequest 3 .write [fun _ => 1]), .submit (pageRequest 3 .read [fun _ => 2]),
    .migrate, .submit (pageRequest 2 .read [fun _ => 2, fun _ => 2])]

-- The WRITE goes to the file, the second READ to the block that was promoted from it.
theorem sequential_coherence_bootRun : ∃ s' reads, Session.boot.run Session.bootRun =
    .ok (s', reads) ∧
    reads.map (List.map some) = [[some fun _ => 1], [some fun _ => 0, some fun _ => 1]] := by
  have hcovered : ∀ pageIndex < 8, ∀ operation buffers,
      Covered Session.boot.world (pageRequest pageIndex operation buffers).key := by
    intro pageIndex hlt operation buffers
    refine ⟨⟨2 ^ 15, fun _ => 0⟩, rfl, ?_⟩
    simp only [Pio.key, State.keyAt, pageRequest, toCachePageIndex, CACHE_BLOCK_SIZE]
    omega
  obtain ⟨s', reads, hrun, hreads⟩ := sequential_coherence (s := Session.boot) Session.boot_booted
    (show ∀ pio, .submit pio ∈ Session.bootRun → _ from fun pio hp => by
      simp only [Session.bootRun, List.mem_cons, Event.submit.injEq, reduceCtorEq,
        List.not_mem_nil, or_false, false_or] at hp
      rcases hp with rfl | rfl | rfl <;>
        exact ⟨⟨rfl, rfl, .inl rfl, by decide⟩, by decide, by decide, hcovered _ (by decide) _ _⟩)
  refine ⟨s', reads, hrun, hreads.trans ?_⟩
  simp [Session.bootRun, expected, Contents.after, Contents.load, Contents.store, pageRequest,
    fileContents, Session.boot, List.range, PAGE_SIZE]
  rfl

end UserPageCache.SsdCache
