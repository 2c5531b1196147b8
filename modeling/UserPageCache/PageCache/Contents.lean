import UserPageCache.PageCache.Tracked

namespace UserPageCache.PageCache

-- What the pages of all files hold.
abbrev Contents := Key → Frame

-- What the page cache and the store behind it hold together: a read takes the newest page
-- of the key that is cached, and the store's page if there is none.
def State.view (s : State) : Contents := fun key =>
  match s.entries key with
  | pg :: _ => s.physBase pg
  | [] => s.store.pages key.1 key.2

variable {s s' : State} {lru free kept : List Nat} {pg : Nat} {key : Key} {d : Store}
  {cacheSize : Nat}

section Store

-- A store that refuses nothing.
def Store.Correct (d : Store) : Prop := ∀ n, d.answers n = true

@[simp] theorem submitPio_answers (d : Store) (operation : SsdCache.Operate) (pathName : CString)
    (index : Nat) (frame : Frame) :
    (submitPio d operation pathName index frame).1.answers = d.answers := by
  unfold submitPio
  cases operation <;> cases d.answers d.log.length <;> rfl

theorem submitPio_write (h : d.Correct) (key key' : Key) (frame : Frame) :
    (submitPio d .write key.1 key.2 frame).1.pages key'.1 key'.2 =
      if key' = key then frame else d.pages key'.1 key'.2 := by
  unfold submitPio
  rw [h]
  obtain ⟨path, index⟩ := key
  obtain ⟨path', index'⟩ := key'
  by_cases hp : path' = path
  · subst hp
    by_cases hi : index' = index
    · simp [hi]
    · simp [hi]
  · simp [hp]

theorem submitPio_read (h : d.Correct) (key : Key) (frame : Frame) :
    (submitPio d .read key.1 key.2 frame).2 = d.pages key.1 key.2 ∧
      (submitPio d .read key.1 key.2 frame).1.pages = d.pages := by
  unfold submitPio
  rw [h]
  exact ⟨rfl, rfl⟩

theorem pageOut_answers (d : Store) (pg : Nat) : (pageOut s d pg).answers = d.answers := by
  unfold pageOut
  cases s.keyAt pg with
  | none => rfl
  | some key => exact submitPio_answers _ _ _ _ _

theorem foldl_pageOut_answers (pages : List Nat) (d : Store) :
    (pages.foldl (pageOut s) d).answers = d.answers := by
  induction pages generalizing d with
  | nil => rfl
  | cons pg rest ih => rw [List.foldl_cons, ih, pageOut_answers]

-- Of the pages of a key the one written last is what the store keeps.
theorem foldl_pageOut_pages (h : d.Correct) (pages : List Nat) (key : Key) :
    (pages.foldl (pageOut s) d).pages key.1 key.2 =
      match s.pagesOf pages.reverse key with
      | pg :: _ => s.physBase pg
      | [] => d.pages key.1 key.2 := by
  induction pages generalizing d with
  | nil => rfl
  | cons pg rest ih =>
      have hd : (pageOut s d pg).Correct := fun n => by rw [pageOut_answers, h]
      rw [List.foldl_cons, ih hd, List.reverse_cons, pagesOf_append]
      cases s.pagesOf rest.reverse key with
      | cons i others => rfl
      | nil =>
          rw [List.nil_append]
          unfold pageOut
          cases hk : s.keyAt pg with
          | none => simp [State.pagesOf, hk]
          | some key' =>
              rw [pagesOf_cons hk]
              simp only [submitPio_write h]
              by_cases hkey : key = key' <;> simp [hkey, State.pagesOf]

end Store

section View

-- The invariant under which the cache stands for its view.
structure Coherent (cacheSize : Nat) (s : State) (lru free : List Nat) : Prop where
  tracked : Tracked s lru free
  size : s.cacheSize = cacheSize
  correct : s.store.Correct

theorem view_uncached (he : s.entries key = []) : s.view key = s.store.pages key.1 key.2 := by
  unfold State.view
  rw [he]

theorem view_cached {rest : List Nat} (he : s.entries key = pg :: rest) :
    s.view key = s.physBase pg := by
  unfold State.view
  rw [he]

theorem view_congr (he : s'.entries key = s.entries key)
    (hp : ∀ pg ∈ s.entries key, s'.physBase pg = s.physBase pg)
    (hs : s'.store.pages = s.store.pages) : s'.view key = s.view key := by
  cases hk : s.entries key with
  | nil => rw [view_uncached (he.trans hk), view_uncached hk, hs]
  | cons pg rest =>
      rw [view_cached (he.trans hk), view_cached hk]
      exact hp pg (hk ▸ List.mem_cons_self)

-- A fill evicts nothing from the view and gives the key its frame.
theorem Coherent.fill (h : Coherent cacheSize s (kept ++ s.victims.reverse) free) (hw : s.Whole)
    {free' : List Nat} {frame : Frame} (hf : Filled s s' key pg kept free' frame d)
    (hd : d.Correct) (hpages : d.pages = (s.victims.foldl (pageOut s) s.store).pages) :
    Coherent cacheSize s' (pg :: kept) free' ∧ s'.view = Function.update s.view key frame := by
  have htracked := h.tracked.fill hw hf
  refine ⟨⟨htracked, hf.size.trans h.size, hf.store ▸ hd⟩, funext fun key' => ?_⟩
  have hpg : ∀ i ∈ kept, i ≠ pg := fun i hi he =>
    (List.nodup_cons.mp hf.lists.links.nodup).1 (he ▸ hi)
  have hentries : s'.entries key' =
      if key' = key then pg :: s.pagesOf kept key' else s.pagesOf kept key' := by
    rw [htracked.entries, pagesOf_cons hf.named, pagesOf_congr fun i hi => (hf.others i hi).1]
  unfold State.view
  rw [hentries]
  by_cases hkey : key' = key
  · rw [if_pos hkey, hkey, Function.update_self]
    simp [hf.phys]
  · rw [if_neg hkey, Function.update_of_ne hkey, h.tracked.entries, pagesOf_append]
    cases hk : s.pagesOf kept key' with
    | cons i rest =>
        have hi : i ∈ kept := (mem_pagesOf.mp (hk ▸ List.mem_cons_self)).1
        simp only [List.cons_append, hf.phys]
        exact Function.update_of_ne (hpg i hi) _ _
    | nil =>
        simp only [List.nil_append]
        rw [hf.store, hpages, foldl_pageOut_pages h.correct]

theorem Coherent.uwritePage (h : Coherent cacheSize s lru free) (hN : 2 ≤ cacheSize)
    (hl : s.Linked) (hw : s.Whole) (key : Key) (copyLen : Nat) (src : Nat → UInt8) :
    ∃ s' pg lru' free', (PageStep.write key copyLen src).act s = .ok s' ∧ s.fresh = some pg ∧
      (s'.entries key).head? = some pg ∧ Coherent cacheSize s' lru' free' ∧
      s'.lruList.head.bind s'.imageAt = some (key, fillFrame (s.physBase pg) copyLen src) ∧
      s'.view = Function.update s.view key (fillFrame (s.physBase pg) copyLen src) := by
  obtain ⟨s', pg, kept, free', heq, rfl, hf⟩ := uwritePage_spec h.tracked.lists (h.size.symm ▸ hN)
    hl h.tracked.holders key copyLen src
  obtain ⟨hc, hview⟩ := h.fill hw hf (fun n => by rw [foldl_pageOut_answers, h.correct]) rfl
  refine ⟨s', pg, _, free', heq, hf.fresh, ?_, hc, ?_, hview⟩
  · rw [hf.entries, if_pos rfl]
    rfl
  · rw [hf.lists.links.head_eq, List.head?_cons]
    simp [State.imageAt, hf.named, hf.phys]

-- A read finds what the view has and leaves the view as it was.
theorem Coherent.ureadPage (h : Coherent cacheSize s lru free) (hN : 2 ≤ cacheSize) (key : Key)
    (hmiss : s.entries key = [] → s.Linked ∧ s.Whole) : ∃ s' pg lru' free',
      ureadPage key.1 s key.2 = .ok (s', pg) ∧ Coherent cacheSize s' lru' free' ∧
      s'.physBase pg = s.view key ∧ s'.view = s.view := by
  cases he : s.entries key with
  | nil =>
      obtain ⟨hl, hw⟩ := hmiss he
      obtain ⟨s', pg, kept, free', heq, rfl, hf⟩ := ureadPage_miss h.tracked.lists
        (h.size.symm ▸ hN) hl h.tracked.holders he
      have hd : (s.victims.foldl (pageOut s) s.store).Correct := fun n => by
        rw [foldl_pageOut_answers, h.correct]
      obtain ⟨hframe, hpages⟩ := submitPio_read hd key (s.physBase pg)
      have hnone : s.pagesOf s.victims.reverse key = [] := by
        have hnil := h.tracked.entries key
        rw [he, pagesOf_append] at hnil
        exact (List.append_eq_nil_iff.mp hnil.symm).2
      have hview : s.view key = (s.victims.foldl (pageOut s) s.store).pages key.1 key.2 := by
        rw [foldl_pageOut_pages h.correct, hnone, view_uncached he]
      obtain ⟨hc, hview'⟩ := h.fill hw hf (fun n => by rw [submitPio_answers, hd]) hpages
      refine ⟨s', pg, _, free', heq, hc, ?_, ?_⟩
      · rw [hf.phys, Function.update_self, hframe, hview]
      · rw [hview', hframe, ← hview, Function.update_eq_self]
  | cons pg rest =>
      obtain ⟨⟨lru', htracked, -⟩, hquiet, htable, -⟩ := h.tracked.hit he
      have hentries : ∀ key', (moveToLruHead s pg).entries key' = s.entries key' :=
        entries_congr hquiet.size htable
      refine ⟨moveToLruHead s pg, pg, lru', free, ureadPage_hit he,
        ⟨htracked, hquiet.size.trans h.size, hquiet.store.symm ▸ h.correct⟩, ?_, funext fun key' => ?_⟩
      · rw [hquiet.phys, view_cached he]
      · exact view_congr (hentries key') (fun i _ => by rw [hquiet.phys]) (by rw [hquiet.store])

-- The conditions under which a page comes into the cache without harm to the others.
def Harmless : PageStep → State → Prop
  | .write _ _ _, s => s.Linked ∧ s.Whole
  | .read key, s => s.entries key = [] → s.Linked ∧ s.Whole

instance : (step : PageStep) → (s : State) → Decidable (Harmless step s)
  | .write .., s => inferInstanceAs (Decidable (s.Linked ∧ s.Whole))
  | .read key, s => inferInstanceAs (Decidable (s.entries key = [] → s.Linked ∧ s.Whole))

theorem Coherent.init (cacheSize : Nat) {store : Store} (hd : store.Correct) :
    Coherent cacheSize (initPageCache cacheSize store) [] (List.range cacheSize).reverse ∧
      (initPageCache cacheSize store).view = fun key => store.pages key.1 key.2 := by
  obtain ⟨-, hsize, hstore, hentries⟩ := initPageCache_spec cacheSize store
  have hcorrect : (initPageCache cacheSize store).store.Correct := by
    rw [hstore]
    exact hd
  refine ⟨⟨Tracked.init cacheSize store, hsize, hcorrect⟩, funext fun key => ?_⟩
  rw [view_uncached (hentries key), hstore]

end View

end UserPageCache.PageCache
