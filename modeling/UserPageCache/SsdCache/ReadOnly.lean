import UserPageCache.SsdCache.Delivery
import UserPageCache.SsdCache.Statistics

namespace UserPageCache.SsdCache

open Bytes

def Turn.Reading : Turn → Prop
  | .submit pio _ => pio.operation ≠ .write ∧ pio.pioCnt ≤ pio.buffers.length
  | .migrate _ => True

-- No call stops short or fails unseen, and a deallocated range keeps its data.
def Replies.Reported (reply : Replies) : Prop :=
  (∀ n, reply.transfer ≠ .short n) ∧ reply.command ≠ .failed ∧
    (reply.command = .done → reply.deallocated = none)

def Turn.Reported : Turn → Prop
  | .submit _ _ => True
  | .migrate reply => reply.Reported

-- The files are those of `w`, and perhaps some empty ones that were missing.
def FilesOnly (w w' : World) : Prop :=
  ∀ path, w'.files path = w.files path ∨ w.files path = none ∧ w'.files path = some newFile

-- A cache block has the pages that its file has.
def Session.Filled (s : Session) (key : Work) (b : Nat) : Prop :=
  ∀ j < 8, ∀ page,
    fileContents s.world key.fullPathName (key.cachePageIndex % 2 ^ 17 * 8 + j) = some page →
      ssdPage s.world b j = page

section Worlds

variable {g : Geometry} {m : Mapping} {w w' w'' : World} {reply : Replies} {pio : Pio}
  {dev c index : Nat} {path : CString}

theorem FilesOnly.of_files (hf : w'.files = w.files) : FilesOnly w w' := by
  intro path
  exact .inl (congrFun hf path)

theorem FilesOnly.trans (h : FilesOnly w w') (h' : FilesOnly w' w'') : FilesOnly w w'' := by
  intro path
  rcases h' path with hsame | ⟨hnone, hnew⟩
  · rw [hsame]
    exact h path
  · rcases h path with hsame | ⟨-, hsome⟩
    · exact .inr ⟨hsame ▸ hnone, hnew⟩
    · rw [hnone] at hsome
      cases hsome

theorem filesOnly_newFile (hf : w.files path = none) : FilesOnly w (setFile w path newFile) := by
  intro other
  by_cases hp : other = path
  · rw [hp]
    exact .inr ⟨hf, by simp [setFile]⟩
  · exact .inl (by simp [setFile, hp])

theorem FilesOnly.contents (h : FilesOnly w w') : fileContents w' = fileContents w := by
  funext path i
  unfold fileContents
  rcases h path with hsame | ⟨hnone, hnew⟩
  · rw [hsame]
  · have hpos : 0 < (i + 1) * PAGE_SIZE := Nat.mul_pos (by omega) (by decide)
    have hlong : ¬(i + 1) * PAGE_SIZE ≤ 0 := by omega
    rw [hnone, hnew, Option.bind_some, Option.bind_none, newFile, if_neg hlong]

theorem openFile_files {creat : Bool} (h : openFile w reply path creat = some w') :
    FilesOnly w w' := by
  unfold openFile at h
  split at h
  · split at h
    · obtain rfl := Option.some.inj h
      exact .of_files rfl
    · rename_i hf
      split at h
      · obtain rfl := Option.some.inj h
        exact filesOnly_newFile hf
      · simp at h
  · simp at h

theorem originFile_files (h : originFile w reply pio = some (w', path)) : FilesOnly w w' := by
  unfold originFile at h
  split at h
  · obtain ⟨w₁, hopen, heq⟩ := Option.map_eq_some_iff.mp h
    obtain ⟨rfl, -⟩ := Prod.mk.inj heq
    exact openFile_files hopen
  · obtain ⟨path', -, heq⟩ := Option.map_eq_some_iff.mp h
    obtain ⟨rfl, -⟩ := Prod.mk.inj heq
    exact .of_files rfl

-- A READ that goes to its file.
theorem readOrigin_files {pages : List Page} {rc : Nat}
    (h : readOrigin w reply pio = .ok (w', pages, rc)) : FilesOnly w w' := by
  obtain ⟨iov, -, h⟩ := bind_eq_ok.mp h
  split at h
  · obtain ⟨rfl, -⟩ := Prod.mk.inj (Except.ok.inj h)
    exact .of_files rfl
  · rename_i w₁ path horigin
    have hfiles := originFile_files horigin
    split at h
    · obtain ⟨rfl, -⟩ := Prod.mk.inj (Except.ok.inj h)
      exact hfiles
    · obtain ⟨rfl, -⟩ := Prod.mk.inj (Except.ok.inj h)
      exact hfiles

-- The pages of the block that lie within the file are in the buffer.
theorem loadFile_pages {w₁ : World} (hr : reply.Reported)
    (h : loadFile w reply path index = some w₁) :
    w₁ = { w with dmaBuf := w₁.dmaBuf } ∧ ∀ j < 8, ∀ page,
      fileContents w path (index % 2 ^ 17 * 8 + j) = some page →
        chunk PAGE_SIZE w₁.dmaBuf j = page := by
  obtain ⟨w₀, hopen, hrest⟩ := Option.bind_eq_some_iff.mp h
  obtain rfl := openFile_false hopen
  obtain ⟨⟨n, src⟩, hread, hrest⟩ := Option.bind_eq_some_iff.mp hrest
  obtain rfl := Option.some.inj hrest
  obtain ⟨file, hf, hread⟩ := Option.bind_eq_some_iff.mp hread
  obtain ⟨k, hk, hread⟩ := Option.bind_eq_some_iff.mp hread
  obtain ⟨rfl, rfl⟩ := Prod.mk.inj (Option.some.inj hread)
  refine ⟨rfl, fun j hj page hpage => ?_⟩
  have hsize : CACHE_BLOCK_SIZE = 8 * PAGE_SIZE := rfl
  have hlen : k = min (8 * PAGE_SIZE) (file.length - index % 2 ^ 17 * 8 * PAGE_SIZE) := by
    cases ht : reply.transfer with
    | error => simp [ht, Transfer.bytes] at hk
    | short n => exact absurd ht (hr.1 n)
    | full =>
        simp only [ht, Transfer.bytes, Option.some.injEq] at hk
        rw [← hk, fileOffset_mod, hsize, Nat.mul_assoc]
  obtain ⟨hfits, rfl⟩ := page_of_length hf hpage
  have hj8 := Nat.mul_le_mul_right PAGE_SIZE (show j + 1 ≤ 8 from hj)
  rw [Nat.add_assoc, Nat.add_mul] at hfits
  rw [chunk_first _ _ (by omega), fileOffset_mod, hsize, ← Nat.mul_assoc, chunk_shift]

-- What a promotion reports as done has the block's pages on the SSD.
theorem mgStart_promotion_pages (hl : Layout g w.sectorSize dev)
    (hm : m.blockPerCblockShift = g.blockPerCblockShift) (hc : c < CACHE_BLOCK_NUMBER)
    (hr : reply.Reported)
    (hs : mgStart m w reply (some path) index c .promotion = (w', true)) :
    ∀ j < 8, ∀ page, fileContents w path (index % 2 ^ 17 * 8 + j) = some page →
      ssdPage w' c j = page := by
  intro j hj page hpage
  simp only [mgStart, Option.bind_some] at hs
  cases hload : loadFile w reply path index with
  | none => simp [hload] at hs
  | some w₁ =>
      obtain ⟨hw, hbuf⟩ := loadFile_pages hr hload
      rw [hload] at hs
      have hstore : w' = writeSsd w₁ (cblockStart m c) (2 ^ m.blockPerCblockShift) w₁.dmaBuf := by
        cases hcom : reply.command with
        | rejected => simp [storeCblock, writeSpdk, hcom] at hs
        | failed => exact absurd hcom hr.2.1
        | done =>
            simp only [storeCblock, writeSpdk, hcom] at hs
            exact (Prod.mk.inj hs).1.symm
      have hl₁ : Layout g w₁.sectorSize dev := by
        rw [hw]
        exact hl
      rw [hstore, ssdPage_block hl₁ hm hc hj, if_pos rfl]
      exact hbuf j hj page hpage

theorem Pio.read_of_ne (pio : Pio) (hw : pio.operation ≠ .write) (hd : pio.operation ≠ .discard) :
    pio.operation = .read := by
  cases ho : pio.operation with
  | read => rfl
  | write => exact absurd ho hw
  | discard => exact absurd ho hd

-- A READ that no block serves reads its file.
theorem missed_files {s s' : Session} (hread : pio.operation = .read) (hcheck : checkPio pio = true)
    (hm : mapLookup s.cache pio = .ok (m, none))
    (hturn : s.turn (.submit pio reply) = .ok s') : FilesOnly s.world s'.world := by
  obtain ⟨⟨cache', w', pages, rc⟩, hsubmit, heq⟩ := bind_eq_ok.mp hturn
  obtain rfl := Except.ok.inj heq
  simp only [_submitPio, mapPio, mapToOrigin, hread, hcheck, hm, reduceCtorEq, ite_false,
    ite_true, Bool.not_true, Bool.false_eq_true, bind, Except.bind, pure, Except.pure] at hsubmit
  split at hsubmit
  · simp at hsubmit
  · rename_i r horigin
    obtain ⟨-, rfl⟩ := Prod.mk.inj (Except.ok.inj hsubmit)
    exact readOrigin_files horigin

end Worlds

-- No block that can be found is dirty, and no file has been written. The blocks are filled
-- as long as every call has reported its outcome.
structure Untouched (g : Geometry) (w : World) (reported : Prop) (s : Session)
    (t : Table Work) : Prop where
  quiet : Quiet g s t
  layout : Layout g s.world.sectorSize s.cache.devBlockPerPageShift
  clean : ∀ b ∈ t.hashed, (t.slot b).dirty = false
  files : FilesOnly w s.world
  filled : reported → ∀ b ∈ t.hashed, s.Filled (t.slot b).key b

namespace Untouched

variable {g : Geometry} {w w' : World} {reported : Prop} {s s' : Session} {t t' : Table Work}
  {pio : Pio} {reply : Replies} {cache' : Cache} {m : Mapping} {key : Work} {b : Nat}
  {rest : List Nat}

theorem dirty (h : Untouched g w reported s t) : t.dirty = [] := by
  cases hd : t.dirty with
  | nil => rfl
  | cons b rest =>
      obtain ⟨hb, hdirty⟩ := h.quiet.dirty_hashed hd
      rw [h.clean b hb] at hdirty
      cases hdirty

-- The blocks that can be found afterwards could be found before, with what they have.
theorem keep {reported' : Prop} (h : Untouched g w reported s t) (himp : reported' → reported)
    (hquiet : Quiet g s' t') (hdev : SameDevice s s') (hfiles : FilesOnly s.world s'.world)
    (hblock : ∀ b ∈ t'.hashed, b ∈ t.hashed ∧ t'.slot b = t.slot b ∧
      (reported' → ∀ j < 8, ssdPage s'.world b j = ssdPage s.world b j)) :
    Untouched g w reported' s' t' where
  quiet := hquiet
  layout := by
    rw [hdev.sector, hdev.shift]
    exact h.layout
  clean b hb := by
    obtain ⟨hold, hslot, -⟩ := hblock b hb
    rw [hslot]
    exact h.clean b hold
  files := h.files.trans hfiles
  filled hr b hb j hj page hpage := by
    obtain ⟨hold, hslot, hsame⟩ := hblock b hb
    rw [hslot, hfiles.contents] at hpage
    rw [hsame hr j hj]
    exact h.filled (himp hr) b hold j hj page hpage

theorem submitted (h : Untouched g w reported s t) (hop : pio.operation ≠ .write)
    (hturn : s.turn (.submit pio reply) = .ok s') (hquiet : Quiet g s' t')
    (hdev : SameDevice s s') (hsub : Submitted g s reply pio t t' s'.world) :
    Untouched g w reported s' t' := by
  obtain ⟨cache', w'⟩ := s'
  simp only at hsub
  have hopt : optimizable pio = false := by simp [optimizable, hop]
  cases hsub with
  | refused hr =>
      exact h.keep id hquiet hdev (.of_files rfl) fun b hb => ⟨hb, rfl, fun _ _ _ => rfl⟩
  | discarded hdisc hb hk =>
      refine h.keep id hquiet hdev (.of_files rfl) fun i hi => ?_
      obtain ⟨hib, hi⟩ : i ≠ _ ∧ i ∈ t.hashed := by simpa [Table.remove] using hi
      exact ⟨hi, by simp [Table.remove, hib], fun _ _ _ => rfl⟩
  | @served b m t₁ _ _ pages rc hdisc hcheck hm r hl heq hw =>
      obtain rfl := mapToCache_read (pio.read_of_ne hop hdisc) heq
      rw [if_neg (by simp [hop])] at hquiet ⊢
      rw [hopt] at hl
      cases hl with
      | inserted hi hf ha hq => cases hi
      | hit hb hk =>
          refine h.keep id hquiet hdev (.of_files rfl) fun i hi => ?_
          exact ⟨by simpa using hi, by simp, fun _ _ _ => rfl⟩
  | @missed m t₁ _ hdisc hcheck hm hl hw =>
      have hmem : t'.hashed = t.hashed ∧ t'.slot = t.slot := by
        cases hl with
        | queued ha => exact ⟨rfl, rfl⟩
        | enqueued ha => exact ⟨by simp, by simp⟩
      have hfiles := missed_files (pio.read_of_ne hop hdisc) hcheck hm hturn
      refine h.keep id hquiet hdev hfiles fun b hb => ⟨hmem.1 ▸ hb, by rw [hmem.2], fun _ j _ => ?_⟩
      rw [hw.same]
      rfl

theorem promoted {success : Bool} (h : Untouched g w reported s t) (hf : t.free = b :: rest)
    (hm : m.blockPerCblockShift = g.blockPerCblockShift)
    (hs : mgStart m s.world reply (some key.fullPathName) key.cachePageIndex b .promotion =
      (w', success))
    (hquiet : Quiet g ⟨cache', w'⟩ ((t.promotionStart key).promotionComplete b success).dequeue)
    (hdev : SameDevice s ⟨cache', w'⟩) :
    Untouched g w (reported ∧ reply.Reported) ⟨cache', w'⟩
      ((t.promotionStart key).promotionComplete b success).dequeue := by
  have hlt : b < CACHE_BLOCK_NUMBER := Nat.lt_of_lt_of_le
    (h.quiet.valid.accounted.lt_of_listed (by simp [Table.listed, hf])) h.quiet.repr.capacity
  have hw : OnlyBlock g s.cache.devBlockPerPageShift s.world w' b :=
    mgStart_promotion_only hm hlt hs
  have hnot := h.quiet.valid.free_notMem_hashed (b := b) (by simp [hf])
  obtain ⟨hhash, hkey, hdirty, hslot⟩ := promoted_blocks hf key success
  have hold : ∀ i ∈ ((t.promotionStart key).promotionComplete b success).dequeue.hashed,
      i ≠ b → i ∈ t.hashed := by
    intro i hi hib
    cases success <;> simpa [hhash, hib] using hi
  refine ⟨hquiet, ?_, fun i hi => ?_, h.files.trans (.of_files hw.files), fun hr i hi => ?_⟩
  · rw [hdev.sector, hdev.shift]
    exact h.layout
  · by_cases hib : i = b
    · rw [hib, hdirty]
    · rw [hslot i hib]
      exact h.clean i (hold i hi hib)
  · intro j hj page hpage
    simp only [fileContents_files hw.files] at hpage
    by_cases hib : i = b
    · subst i
      cases success with
      | false => exact absurd (by simpa [hhash] using hi) hnot
      | true =>
          rw [hkey rfl] at hpage
          exact mgStart_promotion_pages h.layout hm hlt hr.2 hs j hj page hpage
    · rw [hslot i hib] at hpage
      rw [hw.others h.layout i hib j hj]
      exact h.filled hr.1 i (hold i hi hib) j hj page hpage

theorem rounded (h : Untouched g w reported s t) (hquiet : Quiet g s' t') (hdev : SameDevice s s')
    (hround : Rounded g s.world reply t t' s'.world) :
    Untouched g w (reported ∧ reply.Reported) s' t' := by
  obtain ⟨cache', w'⟩ := s'
  simp only at hround
  cases hround with
  | idle hq =>
      exact h.keep And.left hquiet hdev (.of_files rfl) fun b hb => ⟨hb, rfl, fun _ _ _ => rfl⟩
  | stuck hq hf hd =>
      exact h.keep And.left hquiet hdev (.of_files rfl) fun b hb => ⟨hb, rfl, fun _ _ _ => rfl⟩
  | promoted hq hf hm hs => exact h.promoted hf hm hs hquiet hdev
  | @demoted b rest m hq hf hc hn hm =>
      obtain ⟨hhash, hslot⟩ := demoted_blocks t b
      obtain ⟨hw, hssd⟩ : OnlyBlock g s.cache.devBlockPerPageShift s.world
          (trimCblock m s.world reply 0) 0 ∧ _ := trimCblock_only hm
      refine h.keep And.left hquiet hdev (.of_files hw.files) fun i hi => ?_
      obtain ⟨hib, hi⟩ := Finset.mem_erase.mp (hhash ▸ hi)
      refine ⟨hi, hslot i hib, fun hr j _ => ?_⟩
      simp only [ssdPage, hssd hr.2.2.2]
  | written hq hf hn hd hm hs => simp [h.dirty] at hd

theorem turn {a : Turn} (h : Untouched g w reported s t) (hr : a.Reading) :
    ∃ s' t', s.turn a = .ok s' ∧ Untouched g w (reported ∧ a.Reported) s' t' := by
  cases a with
  | submit pio reply =>
      obtain ⟨s', t', hturn, hquiet, hdev, hsub⟩ := h.quiet.submit hr.2 reply
      have h' := h.submitted hr.1 hturn hquiet hdev hsub
      exact ⟨s', t', hturn, h'.quiet, h'.layout, h'.clean, h'.files, fun hrep => h'.filled hrep.1⟩
  | migrate reply =>
      obtain ⟨s', t', hturn, hquiet, hdev, hround⟩ := h.quiet.migrate reply
      exact ⟨s', t', hturn, h.rounded hquiet hdev hround⟩

theorem turns {acts : List Turn} (h : Untouched g w reported s t)
    (hr : ∀ a ∈ acts, a.Reading) :
    ∃ s' t', s.turns acts = .ok s' ∧
      Untouched g w (reported ∧ ∀ a ∈ acts, a.Reported) s' t' := by
  induction acts generalizing s t reported with
  | nil => exact ⟨s, t, rfl, h.quiet, h.layout, h.clean, h.files, fun hrep => h.filled hrep.1⟩
  | cons a rest ih =>
      obtain ⟨s₁, t₁, hturn, h₁⟩ := h.turn (hr a List.mem_cons_self)
      obtain ⟨s', t', hturns, h'⟩ := ih h₁ fun b hb => hr b (List.mem_cons_of_mem a hb)
      refine ⟨s', t', ?_, h'.quiet, h'.layout, h'.clean, h'.files, fun hrep => h'.filled ?_⟩
      · simp only [Session.turns, hturn, bind, Except.bind, hturns]
      · simp only [List.mem_cons, forall_eq_or_imp] at hrep
        exact ⟨⟨hrep.1, hrep.2.1⟩, hrep.2.2⟩

-- A READ in which no call fails, from the cache or from the file.
theorem read (h : Untouched g w reported s t) (hrep : reported) (hread : pio.operation = .read)
    (hfits : pio.Fits s.world) :
    ∃ cache' w' pages rc, _submitPio s.cache s.world .success pio = .ok (cache', w', pages, rc) ∧
      (fileContents w).Returned pio pages := by
  have hopt : optimizable pio = false := by simp [optimizable, hread]
  obtain ⟨m, c, t₁, hm, r, hl⟩ := h.quiet.repr.mapLookup h.quiet.valid pio
  simp only [_submitPio, mapPio, mapToOrigin, mapToCache, hread, hfits.checked, hm, reduceCtorEq,
    ite_false, ite_true, Bool.not_true, Bool.false_eq_true, bind, Except.bind, pure, Except.pure]
  rw [hopt] at hl
  cases hl with
  | inserted hi hf ha hq => cases hi
  | @hit b hb hk =>
      have hlt := h.quiet.valid.lt_of_hashed hb
      have hcache := @readCache_success g { s.cache with map := m } s.world pio hfits h.layout
        r.shift b (Nat.lt_of_lt_of_le hlt h.quiet.repr.capacity)
      simp only [hcache]
      refine ⟨_, _, _, _, rfl, by simp, fun k hk' page hpage => ?_⟩
      have hroom := hfits.room
      have hindex := pio.page_index
      have haddr := hfits.addressable
      have hfill := h.filled hrep b hb (pio.pageIndex % 8 + k) (by omega) page
      rw [hk, Nat.mod_eq_of_lt (by omega), ← Nat.add_assoc, hindex, h.files.contents] at hfill
      simp [hk', hfill hpage]
  | queued ha =>
      obtain ⟨w', pages, rc, horigin, hret, -⟩ := readOrigin_success hfits
      rw [h.files.contents] at hret
      simp only [horigin]
      exact ⟨_, _, _, _, rfl, hret⟩
  | enqueued ha =>
      obtain ⟨w', pages, rc, horigin, hret, -⟩ := readOrigin_success hfits
      rw [h.files.contents] at hret
      simp only [horigin]
      exact ⟨_, _, _, _, rfl, hret⟩

end Untouched

theorem Session.Booted.untouched {s : Session} {blockSize cblockNum : Nat}
    (h : s.Booted blockSize cblockNum) :
    Untouched (geometryOf s.cache.map) s.world True s (Table.initial cblockNum) where
  quiet := quiet_init h.blocks h.map
  layout := h.layout
  clean b hb := by simp [Table.initial] at hb
  files := .of_files rfl
  filled _ b hb := by simp [Table.initial] at hb

-- Under READs and discards alone every turn comes back, whatever files and device answer: no file
-- is written, no block becomes dirty, and no round has one to write back. As long as no call of
-- the worker fails unseen, a READ is answered with what the files held at the start.
theorem reads_write_no_file {s : Session} {blockSize cblockNum : Nat} {acts : List Turn}
    (h : s.Booted blockSize cblockNum) (hr : ∀ a ∈ acts, a.Reading) :
    ∃ s', s.turns acts = .ok s' ∧ FilesOnly s.world s'.world ∧
      (infoMapping s'.cache.map).dirtyEntry = 0 ∧ (∀ key b, ¬s'.DirtyAt key b) ∧
      ((∀ a ∈ acts, a.Reported) → ∀ pio : Pio, pio.operation = .read → pio.Fits s'.world →
        ∃ cache' w' pages rc,
          _submitPio s'.cache s'.world .success pio = .ok (cache', w', pages, rc) ∧
            (fileContents s.world).Returned pio pages) := by
  obtain ⟨s', t', hturns, h'⟩ := h.untouched.turns hr
  refine ⟨s', hturns, h'.files, ?_, fun key b hat => ?_, fun hrep pio hread hfits => ?_⟩
  · simp only [infoMapping, h'.quiet.repr.dirty.nrElts, h'.dirty, List.length_nil]
  · obtain ⟨hb, -, hd⟩ := h'.quiet.dirtyAt_iff.mp hat
    rw [h'.clean b hb] at hd
    cases hd
  · exact h'.read ⟨trivial, hrep⟩ hread hfits

-- The first promotion is refused by the device, the second one is carried out.
def readRun : List Turn :=
  [.submit (pageRequest 3 .read [fun _ => 2]) .success,
    .migrate ⟨true, .full, .rejected, none⟩,
    .submit (pageRequest 3 .read [fun _ => 2]) .success, .migrate .success]

theorem reads_write_no_file_readRun : ∃ s', Session.boot.turns readRun = .ok s' ∧
    s'.cache.map.found (pageRequest 3 .read []).key = some 0 ∧
    (infoMapping s'.cache.map).dirtyEntry = 0 ∧
    ∃ cache' w' pages rc, _submitPio s'.cache s'.world .success
        (pageRequest 2 .read [fun _ => 2, fun _ => 2]) = .ok (cache', w', pages, rc) ∧
      pages[1]? = some fun _ => 0 := by
  have hreading : ∀ a ∈ readRun, a.Reading := by
    simp [readRun, Turn.Reading, pageRequest]
  have hreported : ∀ a ∈ readRun, a.Reported := by
    simp [readRun, Turn.Reported, Replies.Reported, Replies.success]
  obtain ⟨s', hturns, -, hdirty, -, hreads⟩ :=
    reads_write_no_file Session.boot_booted hreading
  obtain ⟨cache', w', pages, rc, heq, hret⟩ :=
    hreads hreported (pageRequest 2 .read [fun _ => 2, fun _ => 2]) rfl
      ⟨rfl, rfl, .inl rfl, by decide⟩
  have hpage : fileContents Session.boot.world [⟨97, nonzero_a⟩] 3 = some fun _ => 0 := by
    simp only [fileContents, Session.boot, ite_true, Option.bind_some]
    rw [if_pos (by decide)]
    rfl
  have hfound : (Session.boot.turns readRun).toOption.any
      (fun s => s.cache.map.found (pageRequest 3 .read []).key == some 0) = true := by
    decide +kernel
  rw [hturns] at hfound
  exact ⟨s', hturns, by simpa [Except.toOption] using hfound, hdirty, cache', w', pages, rc, heq,
    hret.2 1 (by decide) _ hpage⟩

end UserPageCache.SsdCache
