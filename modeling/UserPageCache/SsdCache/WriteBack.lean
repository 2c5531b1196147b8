import UserPageCache.Lib.WriteBack
import UserPageCache.SsdCache.Delivery

namespace UserPageCache.SsdCache

open WriteBack

-- A page of a file, and the cache block that it lies in.
abbrev Cell := CString × Nat

def Cell.block (i : Cell) : Work := ⟨i.1, i.2 / 8⟩

def Work.cell (key : Work) (j : Nat) : Cell := (key.fullPathName, key.cachePageIndex * 8 + j)

-- What the requests see is the upper level, and the files are the lower one.
abbrev Levels := WriteBack.Memory Cell (Option Page)

abbrev Deal := Act Cell Work (Option Page)

def contentsOf (f : Cell → Option Page) : Contents := fun path i => f (path, i)

def Pio.cells (pio : Pio) : Set Cell :=
  {i | i.1 = pio.fullPathName ∧ pio.pageIndex ≤ i.2 ∧ i.2 < pio.pageIndex + pio.buffers.length}

def Pio.images (pio : Pio) : Cell → Option Page := fun i => pio.buffers[i.2 - pio.pageIndex]?

-- What a request or a round is to the two levels. Whether a WRITE stays above, and which block a
-- round brings down, is for the cache to say.
inductive Event.Does : Event → Deal → Prop
  | read {pio : Pio} (h : pio.operation = .read) : Does (.submit pio) .rest
  | absorb {pio : Pio} (h : pio.operation = .write) :
      Does (.submit pio) (.absorb pio.cells pio.images)
  | through {pio : Pio} (h : pio.operation = .write) :
      Does (.submit pio) (.through pio.cells pio.images)
  | discard {pio : Pio} (h : pio.operation = .discard) : Does (.submit pio) (.revert pio.key)
  | idle : Does .migrate .rest
  | flush (key : Work) : Does .migrate (.flush key)

-- What a READ is answered, and the READs of a run.
def Event.answer (m : Levels) : Event → List (List (Option Page))
  | .submit pio => if pio.operation = .read then [(contentsOf m.upper).load pio] else []
  | .migrate => []

noncomputable def answers : Levels → List (Event × Deal) → List (List (Option Page))
  | _, [] => []
  | m, (event, a) :: rest => event.answer m ++ answers (m.act Cell.block a) rest

-- A request with as many nodes as it announces, to a block that its file has as a whole.
structure Pio.Allowed (pio : Pio) (w : World) : Prop where
  fits : pio.Fits w
  path : pio.fullPathName.length < MAX_PATH_SIZE
  covered : Covered w pio.key

def Whole (w : World) (key : Work) : Prop := Covered w key ∧ key.cachePageIndex < 2 ^ 17

-- Below are the files, and above is nothing else but where a dirty block stands.
structure Refined (w₀ : World) (s : Session) (m : Levels) : Prop where
  files : ∀ key, Whole w₀ key → ∀ j < 8,
    m.lower (key.cell j) = (fileContents s.world).page key j
  settled : ∀ key, Whole w₀ key → (∀ b, ¬s.DirtyAt key b) → ∀ j < 8,
    m.upper (key.cell j) = m.lower (key.cell j)

-- The two levels before the first request.
def World.levels (w : World) : Levels := .level fun i => fileContents w i.1 i.2

-- The cell was written, and this is a page that was written there.
def Brought (events : List Event) (i : Cell) (page : Page) : Prop :=
  ∃ pio, .submit pio ∈ events ∧ pio.operation = .write ∧ i ∈ pio.cells ∧ pio.images i = some page

def Solid (w₀ : World) (i : Cell) (v : Option Page) : Prop := Whole w₀ i.block → v.isSome

structure Layered (g : Geometry) (w₀ : World) (s : Session) (stage : Stage) (t : Table Work)
    (m : Levels) : Prop where
  coherent : Coherent g (Present w₀) s.cache s.world .idle stage t (contentsOf m.upper)
  keeps : Keeps w₀ s.world
  files : ∀ key, Whole w₀ key → ∀ j < 8,
    m.lower (key.cell j) = (fileContents s.world).page key j
  full : m.Within (Solid w₀)

variable {g : Geometry} {s s' : Session} {w w' w₀ : World} {stage : Stage} {t t' : Table Work}
  {m : Levels} {pio : Pio} {key : Work} {cache : Cache} {spec : Contents} {b : Nat}

section Cells

theorem Work.cell_block (key : Work) {j : Nat} (hj : j < 8) : (key.cell j).block = key := by
  obtain ⟨path, k⟩ := key
  have hk : (k * 8 + j) / 8 = k := by omega
  simp only [Cell.block, Work.cell, hk]

open Classical in
theorem Pio.piecewise_cells (pio : Pio) (f : Cell → Option Page) (i : Cell) :
    pio.cells.piecewise pio.images f i =
      if i.1 = pio.fullPathName ∧ pio.pageIndex ≤ i.2 then
        (pio.buffers[i.2 - pio.pageIndex]?).or (f i) else f i := by
  by_cases hin : i ∈ pio.cells
  · obtain ⟨hpath, hlow, hhigh⟩ := hin
    have hlt : i.2 - pio.pageIndex < pio.buffers.length := by omega
    rw [Set.piecewise_eq_of_mem _ _ _ (show i ∈ pio.cells from ⟨hpath, hlow, hhigh⟩),
      if_pos ⟨hpath, hlow⟩]
    simp only [Pio.images, List.getElem?_eq_getElem hlt, Option.some_or]
  · rw [Set.piecewise_eq_of_notMem _ _ _ hin]
    split
    · rename_i hlow
      have hnone : pio.buffers[i.2 - pio.pageIndex]? = none := by
        apply List.getElem?_eq_none
        by_contra hlt
        exact hin ⟨hlow.1, hlow.2, by omega⟩
      rw [hnone, Option.none_or]
    · rfl

open Classical in
theorem Pio.store_cells (pio : Pio) (f : Cell → Option Page) :
    contentsOf (pio.cells.piecewise pio.images f) = (contentsOf f).store pio := by
  funext path i
  exact pio.piecewise_cells f (path, i)

theorem Pio.Allowed.whole (h : pio.Allowed w) : Whole w pio.key := by
  refine ⟨h.covered, ?_⟩
  have ha := h.fits.addressable
  have hindex := pio.page_index
  omega

theorem Whole.present (h : Whole w key) : Present w key := by
  obtain ⟨⟨file, hf, -⟩, hlt⟩ := h
  exact ⟨hlt, by simp [hf]⟩

-- The file has all eight pages.
theorem Whole.contents (h : Whole w key) {j : Nat} (hj : j < 8) :
    ((fileContents w).page key j).isSome := by
  obtain ⟨⟨file, hf, hlen⟩, -⟩ := h
  have hsize : (key.cachePageIndex + 1) * CACHE_BLOCK_SIZE =
      (key.cachePageIndex * 8 + 8) * PAGE_SIZE := by
    simp only [CACHE_BLOCK_SIZE, PAGE_SIZE]
    omega
  have hle : (key.cachePageIndex * 8 + j + 1) * PAGE_SIZE ≤ file.length :=
    (Nat.mul_le_mul_right _ (by omega)).trans (hsize ▸ hlen)
  simp [Contents.page, fileContents, hf, hle]

-- A written page is a page.
theorem Pio.images_solid {a : Deal} (ha : a = .absorb pio.cells pio.images ∨
    a = .through pio.cells pio.images) (i : Cell) (v : Option Page) (h : a.Writes i v) :
    Solid w₀ i v := by
  obtain ⟨⟨-, hlow, hhigh⟩, rfl⟩ : i ∈ pio.cells ∧ pio.images i = v := by
    rcases ha with rfl | rfl <;> exact h
  intro _
  have hlt : i.2 - pio.pageIndex < pio.buffers.length := by omega
  simp [Pio.images, List.getElem?_eq_getElem hlt]

open Classical in
-- What is done to the cells of a block, seen by blocks.
theorem piecewise_block (key key' : Work) (f f' : Cell → Option Page) {j : Nat} (hj : j < 8) :
    (cellsOf Cell.block key).piecewise f f' (key'.cell j) =
      if key' = key then f (key'.cell j) else f' (key'.cell j) := by
  by_cases hk : key' = key
  · rw [if_pos hk]
    exact Set.piecewise_eq_of_mem _ _ _ ((key'.cell_block hj).trans hk)
  · rw [if_neg hk]
    exact Set.piecewise_eq_of_notMem _ _ _ fun hin => hk ((key'.cell_block hj).symm.trans hin)

end Cells

section Steps

-- Where no dirty block stands, the file holds what is promised.
theorem Coherent.kept_of_clean
    (h : Coherent g (Present w₀) s.cache s.world .idle stage t spec) (hk : Present w₀ key)
    (hclean : ∀ b, ¬s.DirtyAt key b) : spec.Kept key s.world := by
  have hquiet : Quiet g s t := ⟨h.repr, h.valid⟩
  refine h.origin key hk fun b hb hkb => ⟨?_, fun _ hw => by cases hw⟩
  cases hd : (t.slot b).dirty with
  | false => rfl
  | true => exact absurd (hquiet.dirtyAt_iff.mpr ⟨hb, hkb, hd⟩) (hclean b)

theorem solid_page (h : m.Within (Solid w₀)) (hk : Whole w₀ key) {j : Nat} (hj : j < 8) :
    (m.upper (key.cell j)).isSome ∧ (m.lower (key.cell j)).isSome := by
  have hkey : Whole w₀ (key.cell j).block := by rwa [key.cell_block hj]
  exact ⟨(h _).1 hkey, (h _).2 hkey⟩

theorem Layered.settled (h : Layered g w₀ s stage t m) (hk : Whole w₀ key)
    (hclean : ∀ b, ¬s.DirtyAt key b) {j : Nat} (hj : j < 8) :
    m.upper (key.cell j) = m.lower (key.cell j) := by
  obtain ⟨page, hpage⟩ := Option.isSome_iff_exists.mp (solid_page h.full hk hj).1
  rw [h.files key hk j hj, hpage]
  exact (h.coherent.kept_of_clean hk.present hclean j hj page hpage).symm

theorem Layered.refined (h : Layered g w₀ s stage t m) : Refined w₀ s m :=
  ⟨h.files, fun _ hk hclean _ hj => h.settled hk hclean hj⟩

theorem Layered.page (h : Layered g w₀ s stage t m) (hk : Whole w₀ key) {j : Nat} (hj : j < 8) :
    ∃ page, m.lower (key.cell j) = some page ∧ (fileContents s.world).page key j = some page := by
  obtain ⟨page, hpage⟩ := Option.isSome_iff_exists.mp (solid_page h.full hk hj).2
  exact ⟨page, hpage, h.files key hk j hj ▸ hpage⟩

-- Where the files keep what they had, so does the lower level.
theorem Layered.keep_files (h : Layered g w₀ s stage t m) (hkept : ∀ path i page,
    fileContents s.world path i = some page → fileContents w' path i = some page) :
    ∀ key, Whole w₀ key → ∀ j < 8, m.lower (key.cell j) = (fileContents w').page key j := by
  intro key hk j hj
  obtain ⟨page, hlower, hfile⟩ := h.page hk hj
  rw [hlower]
  exact (hkept _ _ page hfile).symm

theorem Submitted.keeps_files (h : Submitted g s .success pio t t' w')
    (hop : pio.operation ≠ .write) : ∀ path i page,
      fileContents s.world path i = some page → fileContents w' path i = some page := by
  intro path i page hp
  cases h with
  | refused => exact hp
  | discarded => exact hp
  | served hop' hcheck hm r hl heq hw => rwa [fileContents_files hw.files]
  | missed hop' hcheck hm hl hw => exact hw.kept path i page hp fun hc => hop hc.1

theorem Contents.store_congr {spec spec' : Contents} (pio : Pio) {path : CString} {i : Nat}
    (h : spec path i = spec' path i) : spec.store pio path i = spec'.store pio path i := by
  simp only [Contents.store, h]

-- A WRITE leaves the files alone, or is in its file.
theorem Submitted.file_write {cache' : Cache} {pages : List Page} {rc : Nat}
    (h : Submitted g s .success pio t t' w') (hf : pio.Fits s.world) (hop : pio.operation = .write)
    (heq : _submitPio s.cache s.world .success pio = .ok (cache', w', pages, rc)) :
    w'.files = s.world.files ∨ ∀ path i page,
      ((fileContents s.world).store pio) path i = some page →
        fileContents w' path i = some page := by
  cases h with
  | refused => exact .inl rfl
  | discarded => exact .inl rfl
  | served hop' hcheck hm r hl heq' hw => exact .inl hw.files
  | missed hop' hcheck hm hl hw =>
      obtain ⟨w₁, rc', hwrite, hstored, -, -⟩ := writeOrigin_success hf
      simp only [_submitPio, hop, reduceCtorEq, ite_false, mapPio, hcheck, Bool.not_true,
        Bool.false_eq_true, hm, mapToOrigin, hwrite, bind, Except.bind, pure, Except.pure,
        Except.ok.injEq, Prod.mk.injEq] at heq
      obtain ⟨-, rfl, -⟩ := heq
      exact .inr hstored

theorem Layered.load_full (h : Layered g w₀ s stage t m) (ha : pio.Allowed w₀) :
    (contentsOf m.upper).Full pio := by
  intro k hk
  have hroom := ha.fits.room
  have hindex := pio.page_index
  have hcell : (pio.key.cell (pio.pageIndex % 8 + k)) = (pio.fullPathName, pio.pageIndex + k) := by
    rw [Work.cell, ← Nat.add_assoc, hindex]
    rfl
  have hfull := (h.full (pio.key.cell (pio.pageIndex % 8 + k))).1
    (by rw [pio.key.cell_block (by omega)]; exact ha.whole)
  rwa [hcell] at hfull

-- A request, with what its READ is answered.
theorem Layered.read (h : Layered g w₀ s stage t m) (ha : pio.Allowed w₀)
    (hop : pio.operation = .read) :
    ∃ s' reads t', s.step (.submit pio) = .ok (s', reads) ∧ Layered g w₀ s' stage t' m ∧
      reads.map (List.map some) = [(contentsOf m.upper).load pio] := by
  have hquiet : Quiet g s t := ⟨h.coherent.repr, h.coherent.valid⟩
  have hfits := ha.fits.keeps h.keeps
  obtain ⟨cache', w', pages, rc, t', heq, h', hk, hread⟩ :=
    h.coherent.submit hfits (by simp [hop]) ha.whole.present
  obtain ⟨s₂, t₂, hturn, -, -, hsub⟩ := hquiet.submit (Nat.le_of_eq hfits.chained.symm) .success
  simp only [Session.turn, heq, bind, Except.bind, pure, Except.pure, Except.ok.injEq] at hturn
  subst hturn
  have hafter : (contentsOf m.upper).after pio = contentsOf m.upper := by
    simp [Contents.after, hop]
  rw [hafter] at h'
  refine ⟨⟨cache', w'⟩, [pages], t', ?_, ⟨h', h.keeps.trans hk,
    h.keep_files (hsub.keeps_files (by simp [hop])), h.full⟩, ?_⟩
  · simp only [Session.step, heq, bind, Except.bind, pure, Except.pure, hop, ite_true]
  · rw [List.map_cons, List.map_nil, (hread hop).load (h.load_full ha)]

-- A WRITE that no block takes is in its file.
theorem Layered.write (h : Layered g w₀ s stage t m) (ha : pio.Allowed w₀)
    (hop : pio.operation = .write) :
    ∃ s' t' a, s.step (.submit pio) = .ok (s', []) ∧ (Event.submit pio).Does a ∧
      Layered g w₀ s' stage t' (m.act Cell.block a) := by
  have hquiet : Quiet g s t := ⟨h.coherent.repr, h.coherent.valid⟩
  have hfits := ha.fits.keeps h.keeps
  obtain ⟨cache', w', pages, rc, t', heq, h', hk, -⟩ :=
    h.coherent.submit hfits (by simp [hop]) ha.whole.present
  obtain ⟨s₂, t₂, hturn, -, -, hsub⟩ := hquiet.submit (Nat.le_of_eq hfits.chained.symm) .success
  simp only [Session.turn, heq, bind, Except.bind, pure, Except.pure, Except.ok.injEq] at hturn
  subst hturn
  have hstep : s.step (.submit pio) = .ok (⟨cache', w'⟩, []) := by
    simp only [Session.step, heq, hop, reduceCtorEq, ite_false, bind, Except.bind, pure,
      Except.pure]
  have hafter : (contentsOf m.upper).after pio = (contentsOf m.upper).store pio := by
    simp [Contents.after, hop]
  rw [hafter] at h'
  rcases hsub.file_write hfits hop heq with hfiles | hstored
  · refine ⟨_, t', _, hstep, .absorb hop, ⟨?_, h.keeps.trans hk, ?_,
      h.full.act (pio.images_solid (.inl rfl))⟩⟩
    · rwa [← pio.store_cells] at h'
    · intro key hkey j hj
      rw [fileContents_files hfiles]
      exact h.files key hkey j hj
  · have hfull : (m.act Cell.block (.through pio.cells pio.images)).Within (Solid w₀) :=
      h.full.act (pio.images_solid (.inr rfl))
    refine ⟨_, t', _, hstep, .through hop, ⟨?_, h.keeps.trans hk, ?_, hfull⟩⟩
    · rwa [← pio.store_cells] at h'
    · intro key hkey j hj
      have hlower : contentsOf (m.act Cell.block (.through pio.cells pio.images)).lower =
          (contentsOf m.lower).store pio := pio.store_cells m.lower
      have hstore : (contentsOf m.lower).store pio (key.cell j).1 (key.cell j).2 =
          (fileContents s.world).store pio (key.cell j).1 (key.cell j).2 :=
        Contents.store_congr pio (h.files key hkey j hj)
      rw [← hlower] at hstore
      obtain ⟨page, hpage⟩ := Option.isSome_iff_exists.mp (solid_page hfull hkey hj).2
      rw [hpage]
      exact (hstored _ _ page (hstore.symm.trans hpage)).symm

-- No block has the key any more, and its file has what is then promised.
theorem Coherent.forget {keys : Work → Prop} {spec' : Contents} {m' : Mapping}
    (h : Coherent g keys cache w .idle stage t spec) (r : Repr g m' t')
    (v : Valid g.cacheBlockNum .idle t') (hqueue : t'.queue = t.queue)
    (hhash : ∀ i, i ∈ t'.hashed ↔ i ∈ t.hashed ∧ (t.slot i).key ≠ key)
    (hslot : ∀ i ∈ t'.hashed, t'.slot i = t.slot i)
    (hsame : ∀ key', key' ≠ key → ∀ j < 8, spec'.page key' j = spec.page key' j)
    (hkept : spec'.Kept key w) :
    Coherent g keys { cache with map := m' } w .idle stage t' spec' := by
  refine ⟨r, v, h.layout, h.addressable, by rw [hqueue]; exact h.queued, fun i hi => ?_,
    fun i hi _ => ?_, fun key' hk' hclean => ?_, by simp, by simp, by simp⟩
  · rw [hslot i hi]
    exact h.known i ((hhash i).mp hi).1
  · obtain ⟨hold, hne⟩ := (hhash i).mp hi
    rw [hslot i hi]
    intro j hj page hp
    rw [hsame _ hne j hj] at hp
    exact h.cached i hold (by simp) j hj page hp
  · by_cases hk : key' = key
    · rwa [hk]
    · intro j hj page hp
      rw [hsame key' hk j hj] at hp
      refine h.origin key' hk' (fun i hi hki => ?_) j hj page hp
      have hi' : i ∈ t'.hashed := (hhash i).mpr ⟨hi, by rwa [hki]⟩
      have hflags := hclean i hi' (by rwa [hslot i hi'])
      rwa [hslot i hi'] at hflags

-- After a removal no block has the key, and the others are as before.
theorem Repr.unmap {m : Mapping} (r : Repr g m t) (v : Valid g.cacheBlockNum .idle t)
    (path : CString) (pageIndex : Nat) :
    ∃ m' found t', SsdCache.removeMapping m path pageIndex = .ok (m', found) ∧ Repr g m' t' ∧
      Valid g.cacheBlockNum .idle t' ∧ t'.queue = t.queue ∧
      (∀ i, i ∈ t'.hashed ↔ i ∈ t.hashed ∧ (t.slot i).key ≠ ⟨path, toCachePageIndex pageIndex⟩) ∧
      ∀ i ∈ t'.hashed, t'.slot i = t.slot i := by
  obtain ⟨m₁, found, hfind, r₁, hsome, hnone⟩ := r.find path (toCachePageIndex pageIndex)
  unfold SsdCache.removeMapping
  simp only [hfind, bind, Except.bind, pure, Except.pure]
  cases found with
  | none =>
      refine ⟨_, _, t, rfl, r₁, v, rfl, fun i => ?_, fun _ _ => rfl⟩
      exact ⟨fun hi => ⟨hi, hnone rfl i hi⟩, fun hi => hi.1⟩
  | some b =>
      obtain ⟨hb, hk⟩ := hsome b rfl
      obtain ⟨m', hout, r'⟩ := r₁.removeHit v hb (by simp [Worker.moving])
      simp only [hout]
      refine ⟨_, _, t.remove b, rfl, r', v.remove hb (by simp [Worker.moving]),
        by simp [Table.remove], fun i => ?_, fun i hi => ?_⟩
      · simp only [Table.remove, Table.release_hashed, Table.hashOut_hashed, Table.del_hashed,
          Finset.mem_erase, and_comm (a := i ≠ b)]
        refine and_congr_right fun hi => not_congr ⟨?_, fun hki => ?_⟩
        · rintro rfl
          exact hk
        · exact v.unique i hi b hb (hki.trans hk.symm)
      · have hib : i ≠ b := by
          rintro rfl
          simp [Table.remove] at hi
        simp [Table.remove, hib]

-- A DISCARD lets go of a block without a word to the file.
theorem Layered.discard (h : Layered g w₀ s stage t m) (ha : pio.Allowed w₀)
    (hop : pio.operation = .discard) :
    ∃ s' t', s.step (.submit pio) = .ok (s', []) ∧
      Layered g w₀ s' stage t' (m.act Cell.block (.revert pio.key)) := by
  have hvalid := h.coherent.valid
  have hfull : (m.act Cell.block (.revert pio.key)).Within (Solid w₀) :=
    h.full.act fun _ _ hw => hw.elim
  have hsame : ∀ key, key ≠ pio.key → ∀ j < 8,
      (contentsOf (m.act Cell.block (.revert pio.key)).upper).page key j =
        (contentsOf m.upper).page key j := fun key hk j hj =>
    (piecewise_block pio.key key m.lower m.upper hj).trans (if_neg hk)
  have hkept : (contentsOf (m.act Cell.block (.revert pio.key)).upper).Kept pio.key s.world := by
    intro j hj page hp
    have hlower := (piecewise_block pio.key pio.key m.lower m.upper hj).trans (if_pos rfl)
    exact (h.files pio.key ha.whole j hj).symm.trans (hlower.symm.trans hp)
  obtain ⟨m', found, t', hremove, r', hvalid', hqueue, hhash, hslot⟩ :=
    h.coherent.repr.unmap hvalid pio.fullPathName pio.pageIndex
  refine ⟨⟨{ s.cache with map := m' }, s.world⟩, t', ?_, ⟨?_, h.keeps, h.files, hfull⟩⟩
  · simp only [Session.step, _submitPio, hop, ite_true, discardPio, ha.fits.checked, Bool.not_true,
      Bool.false_eq_true, ite_false, hremove, reduceCtorEq, bind, Except.bind, pure, Except.pure]
  · exact h.coherent.forget r' hvalid' hqueue hhash hslot hsame hkept

-- A round leaves the files alone, or brings down one block, which is clean then.
theorem Rounded.flushed (hquiet : Quiet g s t) (h : Rounded g s.world .success t t' w') :
    w'.files = s.world.files ∨ ∃ b ∈ t.hashed,
      (∀ i ∈ t'.hashed, (t'.slot i).key = (t.slot b).key → (t'.slot i).dirty = false) ∧
      ∀ path i page, ¬(path = (t.slot b).key.fullPathName ∧
        (t.slot b).key.cachePageIndex % 2 ^ 17 * 8 ≤ i ∧
        i < (t.slot b).key.cachePageIndex % 2 ^ 17 * 8 + 8) →
          fileContents s.world path i = some page → fileContents w' path i = some page := by
  cases h with
  | idle hq => exact .inl rfl
  | stuck hq hf hd => exact .inl rfl
  | @promoted key b rest m _ success hq hf hm hs =>
      have hlt : b < g.cacheBlockNum :=
        hquiet.valid.accounted.lt_of_listed (by simp [Table.listed, hf])
      have hw : OnlyBlock g s.cache.devBlockPerPageShift s.world w' b :=
        mgStart_promotion_only hm (Nat.lt_of_lt_of_le hlt hquiet.repr.capacity) hs
      exact .inl hw.files
  | @demoted b rest m hq hf hc hn hm =>
      have hw : OnlyBlock g s.cache.devBlockPerPageShift s.world
          (trimCblock m s.world .success 0) 0 := (trimCblock_only hm).1
      exact .inl hw.files
  | @written b rest m _ success hq hf hn hd hm hs =>
      have hb := (hquiet.dirty_hashed hd).1
      obtain ⟨hhash, -, hdirty, hslot⟩ := written_blocks t b success
      refine .inr ⟨b, hb, fun i hi hk => ?_, (mgStart_writeback_other hs).2⟩
      by_cases hib : i = b
      · rw [hib, hdirty]
      · rw [hslot i hib] at hk
        exact absurd (hquiet.valid.unique i (hhash ▸ hi) b hb hk) hib

theorem Layered.migrate (h : Layered g w₀ s stage t m) :
    ∃ s' stage' t' a, s.step .migrate = .ok (s', []) ∧ Event.migrate.Does a ∧
      Layered g w₀ s' stage' t' (m.act Cell.block a) := by
  have hquiet : Quiet g s t := ⟨h.coherent.repr, h.coherent.valid⟩
  obtain ⟨m', w', worked, stage', t', heq, h', hk⟩ := h.coherent.round h.keeps
  obtain ⟨s₂, t₂, hturn, hquiet₂, -, hround⟩ := hquiet.migrate .success
  simp only [Session.turn, heq, bind, Except.bind, pure, Except.pure, Except.ok.injEq] at hturn
  subst hturn
  have hstep : s.step .migrate = .ok (⟨{ s.cache with map := m' }, w'⟩, []) := by
    simp only [Session.step, heq, bind, Except.bind, pure, Except.pure]
  rcases hround.flushed hquiet with hfiles | ⟨b, hb, hclean, hother⟩
  · refine ⟨_, stage', t', .rest, hstep, .idle, ⟨h', h.keeps.trans hk, ?_, h.full⟩⟩
    intro key hkey j hj
    rw [fileContents_files hfiles]
    exact h.files key hkey j hj
  · have hfull : (m.act Cell.block (.flush (t.slot b).key)).Within (Solid w₀) :=
      h.full.act fun _ _ hw => hw.elim
    refine ⟨_, stage', t', .flush (t.slot b).key, hstep, .flush _,
      ⟨h', h.keeps.trans hk, ?_, hfull⟩⟩
    intro key hkey j hj
    have hlower := piecewise_block (t.slot b).key key m.upper m.lower hj
    by_cases hkb : key = (t.slot b).key
    · -- Both levels of the block that was brought down are its file.
      have hnone : ∀ i, ¬Session.DirtyAt ⟨{ s.cache with map := m' }, w'⟩ key i := by
        intro i hat
        obtain ⟨hi, hki, hdi⟩ := hquiet₂.dirtyAt_iff.mp hat
        rw [hclean i hi (hki.trans hkb)] at hdi
        cases hdi
      obtain ⟨page, hpage⟩ := Option.isSome_iff_exists.mp (solid_page h.full hkey hj).1
      rw [if_pos hkb, hpage] at hlower
      have hkept : (contentsOf m.upper).Kept key w' := h'.kept_of_clean hkey.present hnone
      exact hlower.trans (hkept j hj page hpage).symm
    · obtain ⟨page, hpage, hfile⟩ := h.page hkey hj
      rw [if_neg hkb, hpage] at hlower
      refine hlower.trans (hother _ _ page ?_ hfile).symm
      rintro ⟨hpath, hlow, hhigh⟩
      have hindex := hkey.2
      have hindexb := (h.coherent.known b hb).1
      have hsame : key.cachePageIndex = (t.slot b).key.cachePageIndex := by omega
      exact hkb (congrArg₂ Work.mk hpath hsame)

theorem Layered.step {event : Event} (h : Layered g w₀ s stage t m)
    (ha : ∀ pio, event = .submit pio → pio.Allowed w₀) :
    ∃ s' reads stage' t' a, s.step event = .ok (s', reads) ∧ event.Does a ∧
      reads.map (List.map some) = event.answer m ∧
      Layered g w₀ s' stage' t' (m.act Cell.block a) := by
  cases event with
  | migrate =>
      obtain ⟨s', stage', t', a, heq, hd, h'⟩ := h.migrate
      exact ⟨s', [], stage', t', a, heq, hd, rfl, h'⟩
  | submit pio =>
      have hallowed := ha pio rfl
      cases hop : pio.operation with
      | read =>
          obtain ⟨s', reads, t', heq, h', hreads⟩ := h.read hallowed hop
          have hanswer : reads.map (List.map some) = (Event.submit pio).answer m := by
            simp [Event.answer, hop, hreads]
          exact ⟨s', reads, stage, t', .rest, heq, .read hop, hanswer, h'⟩
      | write =>
          obtain ⟨s', t', a, heq, hd, h'⟩ := h.write hallowed hop
          exact ⟨s', [], stage, t', a, heq, hd, by simp [Event.answer, hop], h'⟩
      | discard =>
          obtain ⟨s', t', heq, h'⟩ := h.discard hallowed hop
          exact ⟨s', [], stage, t', _, heq, .discard hop, by simp [Event.answer, hop], h'⟩

theorem Layered.run {events : List Event} (h : Layered g w₀ s stage t m)
    (hp : ∀ pio, .submit pio ∈ events → pio.Allowed w₀) :
    ∃ s' reads stage' t' acts, s.run events = .ok (s', reads) ∧
      List.Forall₂ Event.Does events acts ∧
      reads.map (List.map some) = answers m (events.zip acts) ∧
      Layered g w₀ s' stage' t' (m.acts Cell.block acts) := by
  induction events generalizing s stage t m with
  | nil => exact ⟨s, [], stage, t, [], rfl, .nil, rfl, h⟩
  | cons event rest ih =>
      obtain ⟨s₁, first, stage₁, t₁, a, heq, hd, hfirst, h₁⟩ := h.step fun pio he =>
        hp pio (he ▸ List.mem_cons_self)
      obtain ⟨s', reads, stage', t', acts, hrun, hdo, hreads, h'⟩ := ih h₁ fun pio hmem =>
        hp pio (List.mem_cons_of_mem _ hmem)
      refine ⟨s', first ++ reads, stage', t', a :: acts, ?_, .cons hd hdo, ?_, h'⟩
      · simp only [Session.run, heq, hrun, bind, Except.bind, pure, Except.pure]
      · rw [List.map_append, hfirst, hreads]
        rfl

end Steps

section Origins

theorem Cell.cell_block (i : Cell) : i.block.cell (i.2 % 8) = i :=
  Prod.ext rfl (Nat.div_add_mod' i.2 8)

theorem writes_brought {events : List Event} {acts : List Deal}
    (hd : List.Forall₂ Event.Does events acts) {a : Deal} (ha : a ∈ acts) {i : Cell} {page : Page}
    (h : a.Writes i (some page)) : Brought events i page := by
  induction hd with
  | nil => simp at ha
  | @cons event a' rest acts hhead _ ih =>
      rcases List.mem_cons.mp ha with rfl | ha
      · cases hhead with
        | @absorb pio hop | @through pio hop => exact ⟨pio, List.mem_cons_self, hop, h⟩
        | read | discard | idle | flush => exact h.elim
      · obtain ⟨pio, hmem, hbrought⟩ := ih ha
        exact ⟨pio, List.mem_cons_of_mem _ hmem, hbrought⟩

theorem Session.Booted.layered {blockSize cblockNum : Nat} (h : s.Booted blockSize cblockNum) :
    Layered (geometryOf s.cache.map) s.world s .begun (Table.initial cblockNum) s.world.levels := by
  refine ⟨h.coherent fun _ hk => hk.1, .refl _, fun _ _ _ _ => rfl, .level fun i hi => ?_⟩
  have hpage := hi.contents (Nat.mod_lt i.2 (show 8 > 0 by decide))
  exact i.cell_block ▸ hpage

end Origins

-- Every run is one of a two-level memory: READs are answered from above, rounds write blocks
-- back, DISCARDs drop them, and the files, which are below, hold nothing but what was there or
-- was written there.
theorem refines_write_back {s : Session} {blockSize cblockNum : Nat} {events : List Event}
    (h : s.Booted blockSize cblockNum) (hp : ∀ pio, .submit pio ∈ events → pio.Allowed s.world) :
    ∃ s' reads acts, s.run events = .ok (s', reads) ∧ List.Forall₂ Event.Does events acts ∧
      reads.map (List.map some) = answers s.world.levels (events.zip acts) ∧
      Refined s.world s' (s.world.levels.acts Cell.block acts) ∧
      ∀ key, Whole s.world key → ∀ j < 8, ∀ page, (fileContents s'.world).page key j = some page →
        (fileContents s.world).page key j = some page ∨ Brought events (key.cell j) page := by
  obtain ⟨s', reads, stage, t, acts, hrun, hd, hreads, h'⟩ := h.layered.run hp
  refine ⟨s', reads, acts, hrun, hd, hreads, h'.refined, fun key hk j hj page hpage => ?_⟩
  have horigin : (s.world.levels.acts Cell.block acts).Within fun i v => ∀ page, v = some page →
      fileContents s.world i.1 i.2 = some page ∨ Brought events i page := by
    refine Memory.Within.acts (.level fun i page hi => .inl hi) fun a ha i v hw page hv => ?_
    exact .inr (writes_brought hd ha (hv ▸ hw))
  exact (horigin (key.cell j)).2 page ((h'.files key hk j hj).trans hpage)

-- The block is written in the cache, and let go.
def Session.dropRun : List Event :=
  [.submit blockWrite, .submit (pageRequest 0 .discard [fun _ => 0]),
    .submit (pageRequest 3 .read [fun _ => 2]), .migrate]

theorem refines_write_back_dropRun : ∃ s' reads acts, Session.boot.run Session.dropRun =
      .ok (s', reads) ∧ List.Forall₂ Event.Does Session.dropRun acts ∧
    reads.map (List.map some) =
      answers Session.boot.world.levels (Session.dropRun.zip acts) ∧
    Refined Session.boot.world s' (Session.boot.world.levels.acts Cell.block acts) := by
  have hcovered : ∀ pageIndex < 8, ∀ operation buffers,
      Covered Session.boot.world (pageRequest pageIndex operation buffers).key := by
    intro pageIndex hlt operation buffers
    refine ⟨⟨2 ^ 15, fun _ => 0⟩, rfl, ?_⟩
    simp only [Pio.key, State.keyAt, pageRequest, toCachePageIndex, CACHE_BLOCK_SIZE]
    omega
  obtain ⟨s', reads, acts, hrun, hd, hreads, hrefined, -⟩ :=
    refines_write_back (s := Session.boot) Session.boot_booted
      (show ∀ pio, .submit pio ∈ Session.dropRun → _ from fun pio hp => by
        simp only [Session.dropRun, List.mem_cons, Event.submit.injEq, reduceCtorEq,
          List.not_mem_nil, or_false] at hp
        rcases hp with rfl | rfl | rfl <;>
          exact ⟨⟨rfl, rfl, .inl rfl, by decide⟩, by decide, hcovered _ (by decide) _ _⟩)
  exact ⟨s', reads, acts, hrun, hd, hreads, hrefined⟩

end UserPageCache.SsdCache
