import UserPageCache.SsdCache.Turn

namespace UserPageCache.SsdCache

open Bytes

-- Blocks of different files, or at different offsets of one file; these are 32-bit.
def Work.Apart (key key' : Work) : Prop :=
  key.fullPathName ≠ key'.fullPathName ∨ key.cachePageIndex % 2 ^ 17 ≠ key'.cachePageIndex % 2 ^ 17

-- A request that neither stores into the key's block nor discards it.
def Pio.Avoids (pio : Pio) (w : World) (key : Work) : Prop :=
  (pio.operation = .write → pio.key.Apart key ∧
    (pio.fd = 0 ∨ w.descriptors pio.fd = some pio.fullPathName)) ∧
  (pio.operation = .discard → pio.key ≠ key)

-- No call reports an error or stops short.
def Replies.Carried (reply : Replies) : Prop :=
  reply.opens = true ∧ reply.transfer = .full ∧ reply.command = .done

namespace Session

def DirtyAt (s : Session) (key : Work) (cblock : Nat) : Prop :=
  s.cache.map.found key = some cblock ∧ entryGetDirty (s.cache.map.es cblock) = true

-- The next round finds no free and no evictable block, and the key's block is the first
-- of the dirty ones.
def WritesBack (s : Session) (key : Work) : Prop :=
  peakWork s.cache.map.wq ≠ none ∧ allocatorEmpty s.cache.map.ea = true ∧
    s.cache.map.clean.nrElts ≤ s.cache.map.cacheBlockNum / 2 ∧
    lHead s.cache.map.dirty ≠ none ∧ lHead s.cache.map.dirty = s.cache.map.found key

-- A whole-block WRITE that the cache takes and stores, while no dirty block stands for the
-- same place of its file under another key.
structure Takes (s : Session) (pio : Pio) (reply : Replies) (s' : Session) : Prop where
  whole : optimizable pio = true
  chained : pio.buffers.length = pio.pioCnt
  alone : ∀ key cblock, s.DirtyAt key cblock → key = pio.key ∨ key.Apart pio.key
  taken : ∃ m cblock, mapLookup s.cache pio = .ok (m, some cblock)
  stored : reply.command = .done
  turn : s.turn (.submit pio reply) = .ok s'

end Session

-- Everything that can follow such a WRITE, short of another store into its block.
def delivery (blockSize cblockNum : Nat) (pio : Pio) : System Session Turn Fault where
  start s' := ∃ (boot s : Session) (before : List Turn) (reply : Replies),
    boot.Booted blockSize cblockNum ∧ (∀ a ∈ before, a.Chained) ∧ boot.turns before = .ok s ∧
      s.Takes pio reply s'
  enabled a s := a.Chained ∧ match a with
    | .submit pio' _ => pio'.Avoids s.world pio.key
    | .migrate reply => s.WritesBack pio.key → reply.Carried
  act a s := s.turn a

-- The pages of a WRITE are where write_origin would have put them.
def Reached (w : World) (pio : Pio) : Prop :=
  ∀ j < 8, fileContents w pio.fullPathName (pio.pageIndex % 2 ^ 20 + j) = pio.buffers[j]?

-- The file is there when the block is written back, and until then no deallocation hits it.
def FileReady (key : Work) (a : Turn) (s : Session) : Prop :=
  match a with
  | .submit _ _ => True
  | .migrate reply => (s.WritesBack key → (s.world.files key.fullPathName).isSome) ∧
      (Demotes s.cache.map → s.DirtyAt key 0 → reply.command = .done → reply.deallocated = none)

structure InTransit (g : Geometry) (pio : Pio) (s : Session) (t : Table Work) : Prop where
  quiet : Quiet g s t
  layout : Layout g s.world.sectorSize s.cache.devBlockPerPageShift
  apart : ∀ b ∈ t.hashed, (t.slot b).dirty = true →
    (t.slot b).key = pio.key ∨ (t.slot b).key.Apart pio.key
  held : (∃ b ∈ t.hashed, (t.slot b).key = pio.key ∧ (t.slot b).dirty = true ∧
      ∀ j < 8, some (ssdPage s.world b j) = pio.buffers[j]?) ∨
    ((∀ b ∈ t.hashed, (t.slot b).key = pio.key → (t.slot b).dirty = false) ∧
      Reached s.world pio)

section Worlds

variable {g : Geometry} {m : Mapping} {w w' : World} {reply : Replies} {dev c : Nat}
  {path : CString}

theorem not_apart (key : Work) : ¬key.Apart key := by simp [Work.Apart]

theorem openFile_false (h : openFile w reply path false = some w') : w' = w := by
  unfold openFile at h
  split at h
  · split at h
    · exact (Option.some.inj h).symm
    · simp at h
  · simp at h

-- A promotion writes at most its block.
theorem mgStart_promotion_only {index : Nat} {success : Bool}
    (hm : m.blockPerCblockShift = g.blockPerCblockShift) (hc : c < CACHE_BLOCK_NUMBER)
    (hs : mgStart m w reply (some path) index c .promotion = (w', success)) :
    OnlyBlock g dev w w' c := by
  simp only [mgStart, Option.bind_some] at hs
  cases hload : loadFile w reply path index with
  | none =>
      rw [hload] at hs
      obtain ⟨rfl, -⟩ := Prod.mk.inj hs
      exact .refl _ _ _ _
  | some w₁ =>
      rw [hload] at hs
      obtain ⟨rfl, -⟩ := Prod.mk.inj hs
      obtain ⟨w₀, hopen, hrest⟩ := Option.bind_eq_some_iff.mp hload
      obtain rfl := openFile_false hopen
      obtain ⟨⟨n, src⟩, hread, hrest⟩ := Option.bind_eq_some_iff.mp hrest
      obtain rfl := Option.some.inj hrest
      unfold storeCblock writeSpdk
      cases reply.command with
      | rejected => exact ⟨rfl, rfl, rfl, fun _ _ _ _ _ => rfl⟩
      | failed => exact ⟨rfl, rfl, rfl, fun _ _ _ _ _ => rfl⟩
      | done =>
          refine ⟨rfl, rfl, rfl, fun hl i hi j hj => ?_⟩
          have hblock := ssdPage_block (w := { w₀ with dmaBuf := Bytes.write w₀.dmaBuf 0 n src })
            hl hm hc hj (Bytes.write w₀.dmaBuf 0 n src) i
          rw [if_neg hi] at hblock
          exact hblock

-- A demotion changes at most block 0, and that only if deallocation shows.
theorem trimCblock_only (hm : m.blockPerCblockShift = g.blockPerCblockShift) :
    OnlyBlock g dev w (trimCblock m w reply 0) 0 ∧
      ((reply.command = .done → reply.deallocated = none) →
        (trimCblock m w reply 0).ssd = w.ssd) := by
  obtain ⟨hkeeps, hfiles⟩ := Coherent.trimCblock_keeps m w reply
  refine ⟨⟨hkeeps.sector, hkeeps.descriptors, hfiles,
    fun hl i hi j hj => Coherent.trimCblock_pages hl hm (.inr hi) hj⟩, fun hn => ?_⟩
  unfold trimCblock trimSpdk
  split
  · rename_i data hdone hdata
    simp [hn hdone] at hdata
  · rfl
  · rfl

-- A writeback changes no file but its own, and there no page outside of its block.
theorem mgStart_writeback_other {key : Work} {success : Bool}
    (hs : mgStart m w reply (some key.fullPathName) key.cachePageIndex c .writeback =
      (w', success)) :
    w'.ssd = w.ssd ∧ ∀ path i page, ¬(path = key.fullPathName ∧
      key.cachePageIndex % 2 ^ 17 * 8 ≤ i ∧ i < key.cachePageIndex % 2 ^ 17 * 8 + 8) →
        fileContents w path i = some page → fileContents w' path i = some page := by
  have hread : (loadCblock m w reply c).1.ssd = w.ssd ∧
      (loadCblock m w reply c).1.files = w.files := by
    unfold loadCblock readSpdk
    cases reply.command <;> exact ⟨rfl, rfl⟩
  have hkeep : (loadCblock m w reply c).1.ssd = w.ssd ∧ ∀ path i page,
      ¬(path = key.fullPathName ∧ key.cachePageIndex % 2 ^ 17 * 8 ≤ i ∧
        i < key.cachePageIndex % 2 ^ 17 * 8 + 8) → fileContents w path i = some page →
          fileContents (loadCblock m w reply c).1 path i = some page :=
    ⟨hread.1, fun path i page _ hp => by rwa [fileContents_files hread.2]⟩
  simp only [mgStart, Option.bind_some] at hs
  split at hs
  · split at hs
    · obtain ⟨rfl, -⟩ := Prod.mk.inj hs
      exact hkeep
    · rename_i w₂ hstore
      obtain ⟨rfl, -⟩ := Prod.mk.inj hs
      obtain ⟨w₁, hopen, hstore⟩ := Option.bind_eq_some_iff.mp hstore
      obtain rfl := openFile_false hopen
      obtain ⟨⟨n, w₃⟩, hwrite, hstore⟩ := Option.bind_eq_some_iff.mp hstore
      obtain rfl := Option.some.inj hstore
      obtain ⟨file, hf, hwrite⟩ := Option.bind_eq_some_iff.mp hwrite
      obtain ⟨k, hk, hwrite⟩ := Option.bind_eq_some_iff.mp hwrite
      obtain ⟨-, rfl⟩ := Prod.mk.inj (Option.some.inj hwrite)
      refine ⟨hread.1, fun path i page hout hp => ?_⟩
      have hsize : CACHE_BLOCK_SIZE = 8 * PAGE_SIZE := rfl
      rw [fileOffset_mod, hsize, ← Nat.mul_assoc]
      exact fileContents_unwritten hf (hsize ▸ bytes_le hk) hout (hkeep.2 path i page hout hp)
  · obtain ⟨rfl, -⟩ := Prod.mk.inj hs
    exact hkeep

-- The writeback of a block whose file exists, when no call fails.
theorem mgStart_writeback_stores {key : Work} {file : File} (hl : Layout g w.sectorSize dev)
    (hm : m.blockPerCblockShift = g.blockPerCblockShift) (hc : c < CACHE_BLOCK_NUMBER)
    (hr : reply.Carried) (hf : w.files key.fullPathName = some file) :
    ∃ w', mgStart m w reply (some key.fullPathName) key.cachePageIndex c .writeback = (w', true) ∧
      ∀ j < 8, fileContents w' key.fullPathName (key.cachePageIndex % 2 ^ 17 * 8 + j) =
        some (ssdPage w c j) := by
  obtain ⟨opens, transfer, command, deallocated⟩ := reply
  obtain ⟨rfl, rfl, rfl⟩ := hr
  have hsize : CACHE_BLOCK_SIZE = 8 * PAGE_SIZE := rfl
  obtain ⟨buf, hload, hbuf⟩ := loadCblock_success hl hm hc
  have hstore := storeFile_eq (w := { w with dmaBuf := buf }) hf key.cachePageIndex
  have hcalls : mgStart m w ⟨true, .full, .done, deallocated⟩ (some key.fullPathName)
      key.cachePageIndex c .writeback =
        mgStart m w .success (some key.fullPathName) key.cachePageIndex c .writeback := rfl
  refine ⟨setFile { w with dmaBuf := buf } key.fullPathName
    (file.write (key.cachePageIndex % 2 ^ 17 * 8 * PAGE_SIZE) (8 * PAGE_SIZE) buf), ?_,
    fun j hj => ?_⟩
  · rw [fileOffset_mod, hsize, ← Nat.mul_assoc] at hstore
    rw [hcalls]
    simp only [mgStart, hload, Option.bind_some, hstore, ite_true]
  · rw [fileContents_written _ _ hj, hbuf j hj]

-- A writeback does not make a missing file.
theorem mgStart_writeback_missing {index : Nat} (hf : w.files path = none) :
    (mgStart m w reply (some path) index c .writeback).1.files = w.files := by
  have hread : (loadCblock m w reply c).1.files = w.files := by
    unfold loadCblock readSpdk
    cases reply.command <;> rfl
  have hstore : storeFile (loadCblock m w reply c).1 reply path index = none := by
    unfold storeFile openFile
    rw [hread, hf]
    split <;> rfl
  simp only [mgStart, Option.bind_some, hstore]
  split <;> exact hread

end Worlds

section Run

variable {g : Geometry} {s s' : Session} {t t' : Table Work} {pio pio' : Pio} {reply : Replies}
  {cache' : Cache} {w' : World} {m : Mapping} {a : Turn} {key : Work} {b c : Nat}

theorem Quiet.dirtyAt_iff (h : Quiet g s t) :
    s.DirtyAt key b ↔ b ∈ t.hashed ∧ (t.slot b).key = key ∧ (t.slot b).dirty = true := by
  unfold Session.DirtyAt
  rw [h.repr.getDirty]
  constructor
  · rintro ⟨hf, hd⟩
    obtain ⟨hb, hk⟩ := h.repr.found_hashed hf
    exact ⟨hb, hk, hd⟩
  · rintro ⟨hb, hk, hd⟩
    exact ⟨h.repr.found_of_hashed h.valid hb hk, hd⟩

-- What optimizable says of a WRITE, and where its block lies in the file.
theorem Pio.place (pio : Pio) (hwhole : optimizable pio = true) :
    pio.operation = .write ∧ pio.pioCnt = 8 ∧ pio.pageIndex % 8 = 0 ∧ checkPio pio = true ∧
      pio.pageIndex % 2 ^ 20 = pio.key.cachePageIndex % 2 ^ 17 * 8 := by
  simp only [optimizable, overwritable, Bool.and_eq_true, beq_iff_eq] at hwhole
  obtain ⟨hop, hcnt, hindex⟩ := hwhole
  refine ⟨hop, hcnt, hindex, by simp [checkPio, hcnt, hindex], ?_⟩
  have hpage := pio.page_index
  omega

-- A WRITE to a block that lies apart changes no page of this one.
theorem Pio.Avoids.not_covers (h : pio'.Avoids s.world pio.key) (hcheck : checkPio pio' = true)
    (hwhole : optimizable pio = true) {j : Nat} (hj : j < 8) :
    ¬pio'.Covers s.world pio.fullPathName (pio.pageIndex % 2 ^ 20 + j) := by
  rintro ⟨hop, hpath, hlow, hhigh⟩
  obtain ⟨hapart, hown⟩ := h.1 hop
  have hname : pio'.fullPathName = pio.fullPathName := by
    rcases hown with hfd | hfd
    · simpa [hfd] using hpath
    · split at hpath
      · exact Option.some.inj hpath
      · exact Option.some.inj (hfd.symm.trans hpath)
  have hroom := room_of_checkPio hcheck
  have hplace := (pio.place hwhole).2.2.2.2
  have hindex := pio'.page_index
  refine hapart.elim (fun hne => hne hname) fun hne => hne ?_
  omega

-- Nothing that concerns the WRITE's block or its pages has changed.
theorem InTransit.keep (h : InTransit g pio s t) (hquiet : Quiet g s' t') (hdev : SameDevice s s')
    (hflags : ∀ b ∈ t'.hashed, (t'.slot b).dirty = true → (t'.slot b).key.Apart pio.key ∨
      b ∈ t.hashed ∧ (t.slot b).key = (t'.slot b).key ∧ (t.slot b).dirty = true)
    (hblock : ∀ b ∈ t.hashed, (t.slot b).key = pio.key → (t.slot b).dirty = true →
      b ∈ t'.hashed ∧ t'.slot b = t.slot b ∧
        ∀ j < 8, ssdPage s'.world b j = ssdPage s.world b j)
    (hfile : ∀ j < 8, ∀ page,
      fileContents s.world pio.fullPathName (pio.pageIndex % 2 ^ 20 + j) = some page →
        fileContents s'.world pio.fullPathName (pio.pageIndex % 2 ^ 20 + j) = some page)
    (hlen : 8 ≤ pio.buffers.length) : InTransit g pio s' t' := by
  refine ⟨hquiet, ?_, fun b hb hd => ?_, ?_⟩
  · rw [hdev.sector, hdev.shift]
    exact h.layout
  · rcases hflags b hb hd with hapart | ⟨hb, hk, hd⟩
    · exact .inr hapart
    · rw [← hk]
      exact h.apart b hb hd
  · rcases h.held with ⟨b, hb, hk, hd, hpages⟩ | ⟨hclean, hreached⟩
    · obtain ⟨hb', hslot, hsame⟩ := hblock b hb hk hd
      refine .inl ⟨b, hb', by rw [hslot, hk], by rw [hslot, hd], fun j hj => ?_⟩
      rw [hsame j hj]
      exact hpages j hj
    · refine .inr ⟨fun b hb hk => ?_, fun j hj => ?_⟩
      · rw [← Bool.not_eq_true]
        intro hd
        rcases hflags b hb hd with hapart | ⟨hb, hkey, hd⟩
        · exact not_apart _ (hk ▸ hapart)
        · rw [hclean b hb (hkey.trans hk)] at hd
          cases hd
      · have hj' : j < pio.buffers.length := by omega
        have hold := hreached j hj
        rw [List.getElem?_eq_getElem hj'] at hold ⊢
        exact hfile j hj _ hold

-- A request that was refused, or that found nothing.
theorem InTransit.same (h : InTransit g pio s t) (hquiet : Quiet g ⟨cache', s.world⟩ t)
    (hdev : SameDevice s ⟨cache', s.world⟩) (hlen : 8 ≤ pio.buffers.length) :
    InTransit g pio ⟨cache', s.world⟩ t :=
  h.keep hquiet hdev (fun _ hb hd => .inr ⟨hb, rfl, hd⟩) (fun _ hb _ _ => ⟨hb, rfl, fun _ _ => rfl⟩)
    (fun _ _ _ hp => hp) hlen

theorem InTransit.discarded (h : InTransit g pio s t) (hlen : 8 ≤ pio.buffers.length)
    (hk : (t.slot b).key ≠ pio.key) (hquiet : Quiet g ⟨cache', s.world⟩ (t.remove b))
    (hdev : SameDevice s ⟨cache', s.world⟩) :
    InTransit g pio ⟨cache', s.world⟩ (t.remove b) := by
  have hslot : ∀ i, i ≠ b → (t.remove b).slot i = t.slot i := fun i hib => by
    simp [Table.remove, hib]
  refine h.keep hquiet hdev (fun i hi hd => ?_) (fun i hi hki _ => ?_) (fun _ _ _ hp => hp) hlen
  · have hmem : i ≠ b ∧ i ∈ t.hashed := by simpa [Table.remove] using hi
    rw [hslot i hmem.1] at hd ⊢
    exact .inr ⟨hmem.2, rfl, hd⟩
  · have hib : i ≠ b := fun hib => hk (hib ▸ hki)
    exact ⟨by simp [Table.remove, hib, hi], hslot i hib, fun _ _ => rfl⟩

theorem InTransit.missed {insert : Bool} (h : InTransit g pio s t)
    (hwhole : optimizable pio = true) (hlen : 8 ≤ pio.buffers.length)
    (havoid : pio'.Avoids s.world pio.key) (hcheck : checkPio pio' = true)
    (hl : Looked insert t pio'.key none t') (hw : Direct s.world w' pio')
    (hquiet : Quiet g ⟨cache', w'⟩ t') (hdev : SameDevice s ⟨cache', w'⟩) :
    InTransit g pio ⟨cache', w'⟩ t' := by
  have hmem : t'.hashed = t.hashed ∧ t'.slot = t.slot := by
    cases hl with
    | queued ha => exact ⟨rfl, rfl⟩
    | enqueued ha => exact ⟨by simp, by simp⟩
  have hssd : ∀ b, ∀ j < 8, ssdPage w' b j = ssdPage s.world b j := fun b j _ => by
    rw [hw.same]
    rfl
  refine h.keep hquiet hdev (fun b hb hd => ?_) (fun b hb _ _ => ?_) (fun j hj page hp => ?_) hlen
  · rw [hmem.2] at hd ⊢
    exact .inr ⟨hmem.1 ▸ hb, rfl, hd⟩
  · exact ⟨hmem.1 ▸ hb, by rw [hmem.2], hssd b⟩
  · exact hw.kept _ _ page hp (havoid.not_covers hcheck hwhole hj)

-- A READ changes neither the block that serves it nor its flags.
theorem mapToCache_read {cache : Cache} {w : World} {pages : List Page} {rc : Nat}
    (hread : pio'.operation = .read)
    (heq : mapToCache cache w reply pio' c = .ok (cache', w', pages, rc)) : w' = w := by
  simp only [mapToCache, hread, ite_true, bind, Except.bind, pure, Except.pure] at heq
  split at heq
  · simp at heq
  · exact (Prod.mk.inj (Prod.mk.inj (Except.ok.inj heq)).2).1.symm

theorem InTransit.submitted (h : InTransit g pio s t)
    (hwhole : optimizable pio = true) (hlen : 8 ≤ pio.buffers.length)
    (havoid : pio'.Avoids s.world pio.key) (hquiet : Quiet g ⟨cache', w'⟩ t')
    (hdev : SameDevice s ⟨cache', w'⟩) (hsub : Submitted g s reply pio' t t' w') :
    InTransit g pio ⟨cache', w'⟩ t' := by
  cases hsub with
  | refused hr => exact h.same hquiet hdev hlen
  | discarded hop hb hk => exact h.discarded hlen (hk ▸ havoid.2 hop) hquiet hdev
  | missed hop hcheck hm hl hw =>
      exact h.missed hwhole hlen havoid hcheck hl hw hquiet hdev
  | @served c m t₁ _ _ pages rc hop hcheck hm r hl heq hw =>
      have hfile : fileContents w' = fileContents s.world := fileContents_files hw.files
      by_cases hread : pio'.operation = .read
      · have hopt : optimizable pio' = false := by simp [optimizable, hread]
        obtain rfl := mapToCache_read hread heq
        rw [if_neg (by simp [hread])] at hquiet ⊢
        cases hl with
        | inserted hi hf ha hq => simp [hopt] at hi
        | hit hb hk =>
            refine h.keep hquiet hdev (fun b hb hd => ?_) (fun b hb _ _ => ?_) (fun _ _ _ hp => hp)
              hlen
            · exact .inr ⟨by simpa using hb, by simp, by simpa using hd⟩
            · exact ⟨by simpa using hb, by simp, fun _ _ => rfl⟩
      · obtain ⟨hhash, hkey, hslot⟩ :=
          hl.served (pio'.operation = .write ∧ reply.command ≠ .rejected)
        have hapart : pio'.key.Apart pio.key := by
          cases hop' : pio'.operation with
          | read => exact absurd hop' hread
          | write => exact (havoid.1 hop').1
          | discard => exact absurd hop' hop
        have hother : ∀ b ∈ t.hashed, (t.slot b).key = pio.key → b ≠ c := by
          rintro b hb hk rfl
          cases hl with
          | hit hb' hk' => exact not_apart _ (hk ▸ hk' ▸ hapart)
          | inserted hi hf ha hq => exact h.quiet.valid.free_notMem_hashed (by simp [hf]) hb
        refine h.keep hquiet hdev (fun b hb hd => ?_) (fun b hb hk _ => ?_)
          (fun j _ page hp => by rwa [hfile]) hlen
        · by_cases hbc : b = c
          · rw [hbc, hkey]
            exact .inl hapart
          · rw [hslot b hbc] at hd ⊢
            exact .inr ⟨by simpa [hhash, hbc] using hb, rfl, hd⟩
        · have hbc := hother b hb hk
          exact ⟨by simp [hhash, hb], hslot b hbc, hw.others h.layout b hbc⟩

theorem Quiet.dirty_hashed {rest : List Nat} (h : Quiet g s t) (hd : t.dirty = b :: rest) :
    b ∈ t.hashed ∧ (t.slot b).dirty = true := by
  obtain ⟨hres, hdirty⟩ := h.valid.resident_dirty hd
  obtain ⟨hlt, -, halloc⟩ := h.valid.accounted.alloc_of_resident hres
  exact ⟨(h.valid.hashed b).mpr ⟨hlt, halloc, by simp [Worker.arriving]⟩, hdirty⟩

theorem Quiet.writesBack {rest : List Nat} (h : Quiet g s t) (hq : t.queue ≠ [])
    (hf : t.free = []) (hn : t.clean.length ≤ g.cacheBlockNum / 2) (hd : t.dirty = b :: rest)
    (hk : (t.slot b).key = key) : s.WritesBack key := by
  have hhead : lHead s.cache.map.dirty = some b := by
    rw [h.repr.dirty.links.head_eq, hd]
    rfl
  refine ⟨by simpa [h.repr.queue.peakWork] using hq, h.repr.allocatorEmpty_iff.mpr hf, ?_,
    by simp [hhead], ?_⟩
  · rwa [h.repr.clean.nrElts, h.repr.cacheBlockNum]
  · rw [hhead, h.repr.found_of_hashed h.valid (h.dirty_hashed hd).1 hk]

theorem InTransit.promoted {rest : List Nat} {success : Bool}
    (h : InTransit g pio s t) (hlen : 8 ≤ pio.buffers.length) (hf : t.free = b :: rest)
    (hm : m.blockPerCblockShift = g.blockPerCblockShift)
    (hs : mgStart m s.world reply (some key.fullPathName) key.cachePageIndex b .promotion =
      (w', success))
    (hquiet : Quiet g ⟨cache', w'⟩ ((t.promotionStart key).promotionComplete b success).dequeue)
    (hdev : SameDevice s ⟨cache', w'⟩) :
    InTransit g pio ⟨cache', w'⟩
      ((t.promotionStart key).promotionComplete b success).dequeue := by
  have hlt : b < g.cacheBlockNum :=
    h.quiet.valid.accounted.lt_of_listed (by simp [Table.listed, hf])
  have hw : OnlyBlock g s.cache.devBlockPerPageShift s.world w' b :=
    mgStart_promotion_only hm (Nat.lt_of_lt_of_le hlt h.quiet.repr.capacity) hs
  have hfile : fileContents w' = fileContents s.world := fileContents_files hw.files
  have hnot := h.quiet.valid.free_notMem_hashed (b := b) (by simp [hf])
  obtain ⟨hhash, -, hdirty, hslot⟩ := promoted_blocks hf key success
  refine h.keep hquiet hdev (fun i hi hd => ?_) (fun i hi _ _ => ?_)
    (fun j _ page hp => by rwa [hfile]) hlen
  · have hib : i ≠ b := by
      rintro rfl
      rw [hdirty] at hd
      cases hd
    rw [hslot i hib] at hd ⊢
    refine .inr ⟨?_, rfl, hd⟩
    cases success <;> simpa [hhash, hib] using hi
  · have hib : i ≠ b := fun hib => hnot (hib ▸ hi)
    refine ⟨?_, hslot i hib, hw.others h.layout i hib⟩
    cases success <;> simp [hhash, hi]

-- Block 0 is deallocated; where that shows, it is not the WRITE's.
theorem InTransit.demoted {rest : List Nat} (h : InTransit g pio s t)
    (hlen : 8 ≤ pio.buffers.length) (hready : FileReady pio.key (.migrate reply) s)
    (hq : t.queue ≠ []) (hf : t.free = []) (hc : t.clean = b :: rest)
    (hn : g.cacheBlockNum / 2 < t.clean.length)
    (hm : m.blockPerCblockShift = g.blockPerCblockShift)
    (hquiet : Quiet g ⟨cache', trimCblock m s.world reply 0⟩
      ((t.demotionStart b).demotionComplete b true).dequeue)
    (hdev : SameDevice s ⟨cache', trimCblock m s.world reply 0⟩) :
    InTransit g pio ⟨cache', trimCblock m s.world reply 0⟩
      ((t.demotionStart b).demotionComplete b true).dequeue := by
  obtain ⟨hhash, hslot⟩ := demoted_blocks t b
  obtain ⟨hw, hssd⟩ : OnlyBlock g s.cache.devBlockPerPageShift s.world
      (trimCblock m s.world reply 0) 0 ∧ _ := trimCblock_only hm
  have hclean := (h.quiet.valid.resident_clean hc).2
  have hdemotes : Demotes s.cache.map := by
    refine ⟨by simpa [h.quiet.repr.queue.peakWork] using hq,
      h.quiet.repr.allocatorEmpty_iff.mpr hf, ?_⟩
    rwa [h.quiet.repr.clean.nrElts, h.quiet.repr.cacheBlockNum]
  have hfile : fileContents (trimCblock m s.world reply 0) = fileContents s.world :=
    fileContents_files hw.files
  refine h.keep hquiet hdev (fun i hi hd => ?_) (fun i hi hk hd => ?_)
    (fun j _ page hp => by rwa [hfile]) hlen
  · obtain ⟨hib, hi⟩ := Finset.mem_erase.mp (hhash ▸ hi)
    rw [hslot i hib] at hd ⊢
    exact .inr ⟨hi, rfl, hd⟩
  · have hib : i ≠ b := by
      rintro rfl
      rw [hclean] at hd
      cases hd
    refine ⟨by simp [hhash, hib, hi], hslot i hib, fun j hj => ?_⟩
    by_cases hzero : i = 0
    · subst hzero
      have hat := h.quiet.dirtyAt_iff.mpr ⟨hi, hk, hd⟩
      rw [ssdPage, ssdPage, hssd (hready.2 hdemotes hat)]
    · exact hw.others h.layout i hzero j hj

-- A block that a writeback leaves dirty is not the one it wrote.
theorem written_dirty {success : Bool}
    (hi : c ∈ ((t.writebackStart b).writebackComplete b success).dequeue.hashed)
    (hd : (((t.writebackStart b).writebackComplete b success).dequeue.slot c).dirty = true) :
    c ∈ t.hashed ∧ ((t.writebackStart b).writebackComplete b success).dequeue.slot c = t.slot c := by
  obtain ⟨hhash, -, hdirty, hslot⟩ := written_blocks t b success
  have hcb : c ≠ b := by
    rintro rfl
    rw [hdirty] at hd
    cases hd
  exact ⟨hhash ▸ hi, hslot c hcb⟩

-- The WRITE's own block: the file is there and no call fails.
theorem InTransit.stored {rest : List Nat} {success : Bool}
    (h : InTransit g pio s t) (hwhole : optimizable pio = true)
    (hready : FileReady pio.key (.migrate reply) s)
    (hcarried : s.WritesBack pio.key → reply.Carried) (hback : s.WritesBack pio.key)
    (hd : t.dirty = b :: rest) (hk : (t.slot b).key = pio.key)
    (hm : m.blockPerCblockShift = g.blockPerCblockShift)
    (hs : mgStart m s.world reply (some (t.slot b).key.fullPathName) (t.slot b).key.cachePageIndex b
      .writeback = (w', success))
    (hquiet : Quiet g ⟨cache', w'⟩ ((t.writebackStart b).writebackComplete b success).dequeue)
    (hdev : SameDevice s ⟨cache', w'⟩) :
    InTransit g pio ⟨cache', w'⟩ ((t.writebackStart b).writebackComplete b success).dequeue := by
  obtain ⟨hhash, -, hdirty, hslot⟩ := written_blocks t b success
  obtain ⟨hb, hdb⟩ := h.quiet.dirty_hashed hd
  obtain ⟨file, hsome⟩ := Option.isSome_iff_exists.mp (hready.1 hback)
  have hlt := h.quiet.valid.lt_of_hashed hb
  obtain ⟨w₁, heq, hstored⟩ := mgStart_writeback_stores h.layout hm
    (Nat.lt_of_lt_of_le hlt h.quiet.repr.capacity) (hcarried hback) hsome
  obtain rfl : w₁ = w' := by
    rw [hk, heq] at hs
    exact (Prod.mk.inj hs).1
  have honly : ∀ i ∈ t.hashed, (t.slot i).key = pio.key → i = b := fun i hi hki =>
    h.quiet.valid.unique i hi b hb (hki.trans hk.symm)
  have hpages : ∀ j < 8, some (ssdPage s.world b j) = pio.buffers[j]? := by
    rcases h.held with ⟨i, hi, hki, -, hpages⟩ | ⟨hclean, -⟩
    · exact honly i hi hki ▸ hpages
    · rw [hclean b hb hk] at hdb
      cases hdb
  refine ⟨hquiet, ?_, fun i hi hd => ?_, .inr ⟨fun i hi hki => ?_, fun j hj => ?_⟩⟩
  · rw [hdev.sector, hdev.shift]
    exact h.layout
  · obtain ⟨hi, hsame⟩ := written_dirty hi hd
    rw [hsame] at hd ⊢
    exact h.apart i hi hd
  · by_cases hib : i = b
    · rw [hib, hdirty]
    · rw [hslot i hib] at hki
      exact absurd (honly i (hhash ▸ hi) hki) hib
  · rw [(pio.place hwhole).2.2.2.2, ← hpages j hj]
    exact hstored j hj

theorem InTransit.written {rest : List Nat} {success : Bool}
    (h : InTransit g pio s t) (hwhole : optimizable pio = true) (hlen : 8 ≤ pio.buffers.length)
    (hd : t.dirty = b :: rest) (hk : (t.slot b).key ≠ pio.key)
    (hs : mgStart m s.world reply (some (t.slot b).key.fullPathName) (t.slot b).key.cachePageIndex b
      .writeback = (w', success))
    (hquiet : Quiet g ⟨cache', w'⟩ ((t.writebackStart b).writebackComplete b success).dequeue)
    (hdev : SameDevice s ⟨cache', w'⟩) :
    InTransit g pio ⟨cache', w'⟩ ((t.writebackStart b).writebackComplete b success).dequeue := by
  obtain ⟨hhash, -, -, hslot⟩ := written_blocks t b success
  obtain ⟨hb, hdb⟩ := h.quiet.dirty_hashed hd
  obtain ⟨hssd, hfile⟩ := mgStart_writeback_other hs
  have hapart := (h.apart b hb hdb).resolve_left hk
  refine h.keep hquiet hdev (fun i hi hd => ?_) (fun i hi hki hd => ?_)
    (fun j hj page hp => hfile _ _ page ?_ hp) hlen
  · obtain ⟨hi, hsame⟩ := written_dirty hi hd
    rw [hsame] at hd ⊢
    exact .inr ⟨hi, rfl, hd⟩
  · have hib : i ≠ b := fun hib => hk (hib ▸ hki)
    exact ⟨hhash ▸ hi, hslot i hib, fun j _ => by rw [ssdPage, ssdPage, hssd]⟩
  · rintro ⟨hpath, hlow, hhigh⟩
    have hplace := (pio.place hwhole).2.2.2.2
    refine hapart.elim (fun hne => hne hpath.symm) fun hne => hne ?_
    omega

theorem InTransit.rounded (h : InTransit g pio s t)
    (hwhole : optimizable pio = true) (hlen : 8 ≤ pio.buffers.length)
    (hready : FileReady pio.key (.migrate reply) s)
    (hcarried : s.WritesBack pio.key → reply.Carried) (hquiet : Quiet g ⟨cache', w'⟩ t')
    (hdev : SameDevice s ⟨cache', w'⟩) (hs : Rounded g s.world reply t t' w') :
    InTransit g pio ⟨cache', w'⟩ t' := by
  cases hs with
  | idle hq => exact h.same hquiet hdev hlen
  | stuck hq hf hd =>
      exact h.keep hquiet hdev (fun b hb hd => .inr ⟨hb, rfl, hd⟩)
        (fun b hb _ _ => ⟨hb, rfl, fun _ _ => rfl⟩) (fun _ _ _ hp => hp) hlen
  | promoted hq hf hm hs => exact h.promoted hlen hf hm hs hquiet hdev
  | demoted hq hf hc hn hm => exact h.demoted hlen hready hq hf hc hn hm hquiet hdev
  | @written c rest m _ success hq hf hn hd hm hs =>
      by_cases hk : (t.slot c).key = pio.key
      · exact h.stored hwhole hready hcarried (h.quiet.writesBack hq hf hn hd hk) hd hk hm hs
          hquiet hdev
      · exact h.written hwhole hlen hd hk hs hquiet hdev

theorem writeOrigin_reaches {w : World} (hwhole : optimizable pio = true)
    (hchained : pio.buffers.length = pio.pioCnt) (hopen : pio.fd = 0 ∨
      w.descriptors pio.fd = some pio.fullPathName ∧ (w.files pio.fullPathName).isSome) :
    ∃ w' rc, writeOrigin w .success pio = .ok (w', rc) ∧ Reached w' pio := by
  have hcnt := (pio.place hwhole).2.1
  obtain ⟨w₁, file, horigin, hf, -⟩ := originFile_success hopen
  have hwrite : pwrite w₁ .success pio.fullPathName (pio.buffers.length * PAGE_SIZE)
      (offsetOf pio.pageIndex) (gather PAGE_SIZE pio.buffers fun _ => 0) =
      some (pio.buffers.length * PAGE_SIZE, setFile w₁ pio.fullPathName
        (file.write (pio.pageIndex % 2 ^ 20 * PAGE_SIZE) (pio.buffers.length * PAGE_SIZE)
          (gather PAGE_SIZE pio.buffers fun _ => 0))) := by
    rw [offsetOf_mod]
    simp [pwrite, hf, Replies.success, Transfer.bytes]
  refine ⟨setFile w₁ pio.fullPathName (file.write (pio.pageIndex % 2 ^ 20 * PAGE_SIZE)
    (pio.buffers.length * PAGE_SIZE) (gather PAGE_SIZE pio.buffers fun _ => 0)),
    if pio.buffers.length * PAGE_SIZE = 0 then 0 else 1, ?_, fun j hj => ?_⟩
  · simp only [writeOrigin, pioToIovec_of_length hchained, horigin, hwrite, bind, Except.bind, pure,
      Except.pure]
  · have hj' : j < pio.buffers.length := by omega
    rw [fileContents_written _ _ hj', chunk_gather _ _ hj', List.getElem?_eq_getElem hj']

theorem Quiet.turns {acts : List Turn} (h : Quiet g s t) (hc : ∀ a ∈ acts, a.Chained)
    (heq : s.turns acts = .ok s') : ∃ t', Quiet g s' t' ∧ SameDevice s s' := by
  induction acts generalizing s t with
  | nil =>
      obtain rfl := Except.ok.inj heq
      exact ⟨t, h, ⟨rfl, rfl, rfl⟩⟩
  | cons a rest ih =>
      obtain ⟨s₁, t₁, hturn, h₁, hdev⟩ := h.turn (hc a List.mem_cons_self)
      simp only [Session.turns, hturn, bind, Except.bind] at heq
      obtain ⟨t', h', hdev'⟩ := ih h₁ (fun b hb => hc b (List.mem_cons_of_mem _ hb)) heq
      exact ⟨t', h', ⟨hdev'.shift.trans hdev.shift, hdev'.sector.trans hdev.sector,
        hdev'.descriptors.trans hdev.descriptors⟩⟩

-- A WRITE that the cache takes leaves its pages in its block, which is dirty.
theorem InTransit.taken (h : Quiet g s t)
    (hl : Layout g s.world.sectorSize s.cache.devBlockPerPageShift) (ht : s.Takes pio reply s') :
    ∃ t', InTransit g pio s' t' := by
  obtain ⟨hop, hcnt, hindex, hcheck, -⟩ := pio.place ht.whole
  obtain ⟨s₁, t', hturn, h', hdev, hsub⟩ := h.submit (Nat.le_of_eq ht.chained.symm) reply
  obtain rfl : s' = s₁ := Except.ok.inj (ht.turn.symm.trans hturn)
  obtain ⟨m, c, hm⟩ := ht.taken
  obtain ⟨cache', w'⟩ := s'
  simp only at hsub
  cases hsub with
  | refused hr => simp [hcheck, hop] at hr
  | discarded hop' hb hk => simp [hop] at hop'
  | missed hop' hcheck' hm' hlook hw => simp [hm] at hm'
  | @served c m₁ t₁ _ _ pages rc hop' hcheck' hm' r hlook heq hw =>
      have hcond : pio.operation = .write ∧ reply.command ≠ .rejected := ⟨hop, by simp [ht.stored]⟩
      obtain ⟨hhash, hkey, hslot⟩ :=
        hlook.served (pio.operation = .write ∧ reply.command ≠ .rejected)
      have v := h.valid.looked hlook
      have hlt := h.valid.lt_of_looked hlook
      have hdirty : ((if pio.operation = .write ∧ reply.command ≠ .rejected then t₁.markDirty c
          else t₁).slot c).dirty = true := by
        rw [if_pos hcond] at hhash ⊢
        rw [Table.markDirty_hashed] at hhash
        exact Table.markDirty_dirty (v.alloc_of_hashed (by simp [hhash]))
      obtain ⟨w₁, hwrite, hpages, -⟩ := writeCache_success { s.cache with map := m₁ } hcheck
        ht.chained hl r.shift (Nat.lt_of_lt_of_le hlt h.repr.capacity)
      have hreply : writeCache { s.cache with map := m₁ } s.world reply pio c =
          writeCache { s.cache with map := m₁ } s.world .success pio c := by
        obtain ⟨opens, transfer, command, deallocated⟩ := reply
        obtain rfl : command = .done := ht.stored
        rfl
      have hworld : w' = w₁ := by
        simp only [mapToCache, hop, reduceCtorEq, ite_false, hreply, hwrite, bind, Except.bind,
          pure, Except.pure] at heq
        exact (Prod.mk.inj (Prod.mk.inj (Except.ok.inj heq)).2).1.symm
      refine ⟨_, h', by rw [hdev.sector, hdev.shift]; exact hl, fun b hb hd => ?_,
        .inl ⟨c, by simp [hhash], hkey, hdirty, fun j hj => ?_⟩⟩
      · by_cases hbc : b = c
        · rw [hbc]
          exact .inl hkey
        · rw [hslot b hbc] at hd ⊢
          have hb : b ∈ t.hashed := by simpa [hhash, hbc] using hb
          exact ht.alone _ b (h.dirtyAt_iff.mpr ⟨hb, rfl, hd⟩)
      · have hj' : j < pio.buffers.length := by rw [ht.chained]; omega
        rw [hworld, hpages c j hj, if_pos ⟨rfl, by omega⟩, hindex, Nat.sub_zero,
          List.getElem?_eq_getElem hj']
        rfl

theorem inTransit_of_reachable {blockSize cblockNum : Nat}
    (h : (delivery blockSize cblockNum pio).Reachable (FileReady pio.key) s) :
    8 ≤ pio.buffers.length ∧ ∃ g t, InTransit g pio s t := by
  have hinv := h.invariant (I := fun s => (optimizable pio = true ∧ 8 ≤ pio.buffers.length) ∧
    ∃ g t, InTransit g pio s t) (fun s hs => ?_) (fun s s' a hi he ha hact => ?_)
  · exact ⟨hinv.1.2, hinv.2⟩
  · obtain ⟨boot, s₁, before, reply, hboot, hchained, hturns, htakes⟩ := hs
    obtain ⟨t₁, h₁, hdev⟩ := (quiet_init hboot.blocks hboot.map).turns hchained hturns
    refine ⟨⟨htakes.whole, by rw [htakes.chained, (pio.place htakes.whole).2.1]⟩,
      geometryOf boot.cache.map, ?_⟩
    exact InTransit.taken h₁ (by rw [hdev.sector, hdev.shift]; exact hboot.layout) htakes
  · obtain ⟨⟨hwhole, hlen⟩, g, t, hi⟩ := hi
    refine ⟨⟨hwhole, hlen⟩, g, ?_⟩
    cases a with
    | submit pio' reply =>
        obtain ⟨⟨cache', w'⟩, t', hturn, h', hdev, hsub⟩ := hi.quiet.submit he.1 reply
        obtain rfl := Except.ok.inj (hact.symm.trans hturn)
        exact ⟨t', hi.submitted hwhole hlen he.2 h' hdev hsub⟩
    | migrate reply =>
        obtain ⟨⟨cache', w'⟩, t', hturn, h', hdev, hround⟩ := hi.quiet.migrate reply
        obtain rfl := Except.ok.inj (hact.symm.trans hturn)
        exact ⟨t', hi.rounded hwhole hlen ha he.2 h' hdev hround⟩

-- The round that writes the block back with no file there leaves it clean.
theorem InTransit.missing (h : InTransit g pio s t) (hlen : 8 ≤ pio.buffers.length)
    (hback : s.WritesBack pio.key) (hf : s.world.files pio.fullPathName = none)
    (reply : Replies) : ∃ s', s.turn (.migrate reply) = .ok s' ∧
      (∀ b, ¬s'.DirtyAt pio.key b) ∧ ¬Reached s'.world pio := by
  obtain ⟨hwork, hempty, hclean, hhead, hfound⟩ := hback
  have hfree := h.quiet.repr.allocatorEmpty_iff.mp hempty
  obtain ⟨⟨cache', w'⟩, t', hturn, h', hdev, hround⟩ := h.quiet.migrate reply
  refine ⟨_, hturn, ?_⟩
  rw [h.quiet.repr.dirty.links.head_eq] at hhead hfound
  rw [h.quiet.repr.clean.nrElts, h.quiet.repr.cacheBlockNum] at hclean
  simp only at hround
  cases hround with
  | idle hq => simp [h.quiet.repr.queue.peakWork, hq] at hwork
  | stuck hq hf hd => simp [hd] at hhead
  | promoted hq hf hm hs => simp [hfree] at hf
  | demoted hq hf hc hn hm => omega
  | @written c rest m _ success hq hf' hn hd hm hs =>
      rw [hd, List.head?_cons] at hfound
      obtain ⟨hc, hk⟩ := h.quiet.repr.found_hashed hfound.symm
      obtain ⟨hhash, -, hdirty, hslot⟩ := written_blocks t c success
      have hfiles : w'.files = s.world.files := by
        rw [hk] at hs
        have hmissing : (mgStart m s.world reply (some pio.key.fullPathName)
            pio.key.cachePageIndex c .writeback).1.files = s.world.files :=
          mgStart_writeback_missing hf
        rwa [hs] at hmissing
      refine ⟨fun b hat => ?_, fun hreached => ?_⟩
      · obtain ⟨hb, hkb, hdb⟩ := h'.dirtyAt_iff.mp hat
        by_cases hbc : b = c
        · rw [hbc, hdirty] at hdb
          cases hdb
        · rw [hslot b hbc] at hkb
          exact hbc (h.quiet.valid.unique b (hhash ▸ hb) c hc (hkb.trans hk.symm))
      · have hfirst := hreached 0 (by omega)
        rw [List.getElem?_eq_getElem (by omega), fileContents_files hfiles] at hfirst
        simp [fileContents, hf] at hfirst

end Run

-- As long as the file is there when the block is written back, a whole-block WRITE that the
-- cache took is in its file whenever no dirty block holds it; otherwise it is lost.
theorem block_write_reaches_file {blockSize cblockNum : Nat} {pio : Pio} {s : Session}
    (h : (delivery blockSize cblockNum pio).Reachable (FileReady pio.key) s) :
    ((∀ b, ¬s.DirtyAt pio.key b) → Reached s.world pio) ∧
      ∀ reply, s.WritesBack pio.key → s.world.files pio.fullPathName = none →
        ∃ s', s.turn (.migrate reply) = .ok s' ∧ (∀ b, ¬s'.DirtyAt pio.key b) ∧
          ¬Reached s'.world pio := by
  obtain ⟨hlen, g, t, hi⟩ := inTransit_of_reachable h
  refine ⟨fun hnone => ?_, fun reply hback hf => hi.missing hlen hback hf reply⟩
  rcases hi.held with ⟨b, hb, hk, hd, -⟩ | ⟨-, hreached⟩
  · exact absurd (hi.quiet.dirtyAt_iff.mpr ⟨hb, hk, hd⟩) (hnone b)
  · exact hreached

instance (key key' : Work) : Decidable (key.Apart key') := inferInstanceAs (Decidable (_ ∨ _))

instance (pio : Pio) (w : World) (key : Work) : Decidable (pio.Avoids w key) :=
  inferInstanceAs (Decidable (_ ∧ _))

instance (reply : Replies) : Decidable reply.Carried := inferInstanceAs (Decidable (_ ∧ _))

instance (s : Session) (key : Work) (b : Nat) : Decidable (s.DirtyAt key b) :=
  inferInstanceAs (Decidable (_ ∧ _))

instance (s : Session) (key : Work) : Decidable (s.WritesBack key) :=
  inferInstanceAs (Decidable (_ ∧ _))

instance (m : Mapping) : Decidable (Demotes m) := inferInstanceAs (Decidable (_ ∧ _))

instance (blockSize cblockNum : Nat) (pio : Pio) (a : Turn) (s : Session) :
    Decidable ((delivery blockSize cblockNum pio).enabled a s) :=
  match a with
  | .submit pio' _ =>
    inferInstanceAs (Decidable (pio'.pioCnt ≤ pio'.buffers.length ∧ pio'.Avoids s.world pio.key))
  | .migrate reply => inferInstanceAs (Decidable (True ∧ (s.WritesBack pio.key → reply.Carried)))

instance (key : Work) (a : Turn) (s : Session) : Decidable (FileReady key a s) :=
  match a with
  | .submit _ _ => inferInstanceAs (Decidable True)
  | .migrate _ => inferInstanceAs (Decidable (_ ∧ _))

-- The session after the first WRITE of a block.
def Session.written (s : Session) : Session :=
  (s.turn (.submit blockWrite .success)).toOption.getD s

theorem Session.Booted.delivery_start {s : Session} (h : s.Booted 512 1)
    (ht : (s.turn (.submit blockWrite .success)).toOption.isSome = true)
    (hm : (mapLookup s.cache blockWrite).toOption.any (·.2 == some 0) = true) :
    (delivery 512 1 blockWrite).start s.written := by
  refine ⟨s, s, [], .success, h, by simp, rfl, rfl, rfl, fun key b hat => ?_, ?_, rfl, ?_⟩
  · have hb := ((quiet_init h.blocks h.map).dirtyAt_iff.mp hat).1
    simp [Table.initial] at hb
  · cases hl : mapLookup s.cache blockWrite with
    | error fault => simp [hl, Except.toOption] at hm
    | ok r =>
        obtain ⟨m, c⟩ := r
        simp only [hl, Except.toOption, Option.any_some, beq_iff_eq] at hm
        exact ⟨m, 0, by rw [hm]⟩
  · unfold Session.written
    cases hs : s.turn (.submit blockWrite .success) with
    | error fault => simp [hs, Except.toOption] at ht
    | ok s' => rfl

-- Another file misses, so that the next round needs a block.
def otherMiss : Turn := .submit ⟨[⟨97, nonzero_a⟩, ⟨97, nonzero_a⟩], 0, 0, .read,
  [fun _ => 0], 1⟩ .success

theorem block_write_reaches_file_boot : ∃ s : Session, s.cache.map.found blockWrite.key = none ∧
    Reached s.world blockWrite := by
  have hstart : (delivery 512 1 blockWrite).start Session.boot.written :=
    Session.boot_booted.delivery_start (by decide +kernel) (by decide +kernel)
  obtain ⟨s, hs, hp⟩ := (System.Reachable.start
    (S := (delivery 512 1 blockWrite).restrict (FileReady blockWrite.key))
    hstart).exists_run (fun _ _ _ => trivial)
      (show _ = true from (by decide +kernel :
        (((delivery 512 1 blockWrite).restrict (FileReady blockWrite.key)).run
          Session.boot.written [otherMiss, .migrate .success, otherMiss, .migrate .success]).any
            (fun s => s.cache.map.found blockWrite.key == none) = true))
  have hnone : s.cache.map.found blockWrite.key = none := by simpa using hp
  refine ⟨s, hnone, (block_write_reaches_file hs.of_restrict).1 fun b hat => ?_⟩
  rw [hat.1] at hnone
  cases hnone

-- The same session without the file.
def Session.bare : Session :=
  { Session.boot with world := { Session.boot.world with files := fun _ => none } }

-- write_origin makes the file; the writeback does not, and the block is evicted.
theorem new_file_loses_block : ∃ (s : Session) (w' : World) (rc : Nat),
    writeOrigin Session.bare.world .success blockWrite = .ok (w', rc) ∧ Reached w' blockWrite ∧
    (delivery 512 1 blockWrite).Reachable System.Always s ∧
    s.cache.map.found blockWrite.key = none ∧ s.world.files blockWrite.fullPathName = none ∧
    ¬Reached s.world blockWrite := by
  have hbooted : Session.bare.Booted 512 1 :=
    ⟨Session.boot_booted.blocks, Session.boot_booted.power, Session.boot_booted.map, rfl, rfl⟩
  have hstart : (delivery 512 1 blockWrite).start Session.bare.written :=
    hbooted.delivery_start (by decide +kernel) (by decide +kernel)
  have hreach : (delivery 512 1 blockWrite).Reachable System.Always Session.bare.written :=
    .start hstart
  obtain ⟨s, hs, hp⟩ := hreach.exists_run (fun _ _ _ => trivial)
      (show _ = true from (by decide +kernel : ((delivery 512 1 blockWrite).run
        Session.bare.written [otherMiss, .migrate .success, otherMiss, .migrate .success]).any
          (fun s => s.cache.map.found blockWrite.key == none &&
            (s.world.files blockWrite.fullPathName).isNone) = true))
  simp only [Bool.and_eq_true, beq_iff_eq, Option.isNone_iff_eq_none] at hp
  obtain ⟨hnone, hfile⟩ := hp
  obtain ⟨w', rc, heq, hreached⟩ : ∃ w' rc, writeOrigin Session.bare.world .success blockWrite =
      .ok (w', rc) ∧ Reached w' blockWrite := writeOrigin_reaches rfl rfl (.inl rfl)
  refine ⟨s, w', rc, heq, hreached, hs, hnone, hfile, fun hreached => ?_⟩
  have hfirst := hreached 0 (by omega)
  simp only [fileContents, hfile, Option.bind_none] at hfirst
  simp [blockWrite, pageRequest] at hfirst

end UserPageCache.SsdCache
