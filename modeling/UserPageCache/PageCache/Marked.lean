import UserPageCache.PageCache.Bypass
import UserPageCache.PageCache.Loss
import UserPageCache.PageCache.ReadOnly

namespace UserPageCache.PageCache

-- A pio that the log has, submitted again.
def Submission.redo (d : Store) (e : Submission) : Store :=
  (submitPio d e.operation e.pathName e.pageIndex e.frame).1

def Submission.Writes (e : Submission) (key : Key) : Prop :=
  e.operation = .write ∧ (e.pathName, e.pageIndex) = key

-- The pios are all that happened to the store.
structure Logged (d d' : Store) (pios : List Submission) : Prop where
  log : d'.log = d.log ++ pios
  redo : pios.foldl Submission.redo d = d'
  transfers : ∀ e ∈ pios, e.operation ≠ .discard

-- The newest cached page of the key is marked PG_dirty.
def State.Marked (s : State) (key : Key) : Prop :=
  ∃ pg, (s.entries key).head? = some pg ∧ s.dirty pg = true

-- What is not marked the store has.
def State.Faithful (s : State) : Prop :=
  ∀ key, ¬ s.Marked key → s.view key = s.store.pages key.1 key.2

-- What a call that wrote the pages of some keys has done to the marks, and its pios: a page
-- that is marked or written stays marked until a pio writes it.
structure Outcome (s s' : State) (written : List Key) (pios : List Submission) : Prop where
  logged : Logged s.store s'.store pios
  kept : ∀ key, s.Marked key ∨ key ∈ written → s'.Marked key ∨ ∃ e ∈ pios, e.Writes key
  marks : ∀ key, s'.Marked key → s.Marked key ∨ key ∈ written

variable {s s' : State} {d d' d'' : Store} {pios pios' : List Submission} {key : Key}
  {lru free kept : List Nat} {pg cacheSize : Nat}

section Logs

theorem Logged.refl (d : Store) : Logged d d [] :=
  ⟨(List.append_nil _).symm, rfl, fun e he => absurd he (by simp)⟩

theorem Logged.trans (h : Logged d d' pios) (h' : Logged d' d'' pios') :
    Logged d d'' (pios ++ pios') where
  log := by rw [h'.log, h.log, List.append_assoc]
  redo := by rw [List.foldl_append, h.redo, h'.redo]
  transfers e he := (List.mem_append.mp he).elim (h.transfers e) (h'.transfers e)

theorem Logged.pending (h : Logged d d' pios) : d'.log.drop d.log.length = pios := by
  rw [h.log, List.drop_left]

theorem Logged.pio (hd : d.Correct) {operation : SsdCache.Operate} (ho : operation ≠ .discard)
    (key : Key) (frame : Frame) : Logged d (submitPio d operation key.1 key.2 frame).1
      [⟨operation, key.1, key.2, frame, true⟩] where
  log := by rw [submitPio_log, hd]
  redo := rfl
  transfers e he := by
    obtain rfl := List.mem_singleton.mp he
    exact ho

-- The pios of the pages that an allocation now writes back.
def State.victimPios (s : State) : List Submission := s.victims.filterMap fun i => s.pioOf i true

theorem pioOf_some (hk : s.keyAt pg = some key) :
    s.pioOf pg true = some ⟨.write, key.1, key.2, s.physBase pg, true⟩ := by
  simp [State.pioOf, hk]

-- The pios of an eviction are those of its victims.
theorem Logged.victims (hd : d.Correct) {pages : List Nat} (hk : ∀ i ∈ pages, s.keyAt i ≠ none) :
    Logged d (pages.foldl (pageOut s) d) (pages.filterMap fun i => s.pioOf i true) := by
  induction pages generalizing d with
  | nil => exact Logged.refl d
  | cons pg rest ih =>
      obtain ⟨key, hkey⟩ := Option.ne_none_iff_exists'.mp (hk pg List.mem_cons_self)
      have hfirst := Logged.pio hd (by decide : SsdCache.Operate.write ≠ .discard) key (s.physBase pg)
      have hd' : (submitPio d .write key.1 key.2 (s.physBase pg)).1.Correct := fun n => by
        rw [submitPio_answers, hd]
      have hrest := ih hd' fun i hi => hk i (List.mem_cons_of_mem _ hi)
      simp only [List.filterMap_cons, pioOf_some hkey, List.foldl_cons, pageOut_named hkey]
      exact hfirst.trans hrest

theorem victim_writes {i : Nat} (hi : i ∈ s.victims) (hk : s.keyAt i = some key) :
    ∃ e ∈ s.victimPios, e.Writes key :=
  ⟨_, List.mem_filterMap.mpr ⟨i, hi, pioOf_some hk⟩, rfl, rfl⟩

theorem Submission.Writes.append {e : Submission} (he : e ∈ pios ∨ e ∈ pios') (h : e.Writes key) :
    ∃ e ∈ pios ++ pios', e.Writes key :=
  ⟨e, List.mem_append.mpr he, h⟩

end Logs

section Outcomes

variable {written written' : List Key}

theorem Outcome.refl (s : State) : Outcome s s [] [] :=
  ⟨Logged.refl _, fun _ hk => .inl (hk.resolve_right (by simp)), fun _ hk => .inl hk⟩

theorem Outcome.trans {s₁ : State} (h : Outcome s s₁ written pios)
    (h' : Outcome s₁ s' written' pios') : Outcome s s' (written ++ written') (pios ++ pios') := by
  refine ⟨h.logged.trans h'.logged, fun key hk => ?_, fun key hk => ?_⟩
  · have hsplit : (s.Marked key ∨ key ∈ written) ∨ key ∈ written' := by
      rw [List.mem_append] at hk
      rwa [or_assoc]
    have hlater : s₁.Marked key ∨ key ∈ written' →
        s'.Marked key ∨ ∃ e ∈ pios ++ pios', e.Writes key := fun hm => by
      rcases h'.kept key hm with hm' | ⟨e, he, hw⟩
      · exact .inl hm'
      · exact .inr (hw.append (.inr he))
    rcases hsplit with hold | hnew
    · rcases h.kept key hold with hm | ⟨e, he, hw⟩
      · exact hlater (.inl hm)
      · exact .inr (hw.append (.inl he))
    · exact hlater (.inr hnew)
  · rw [List.mem_append]
    rcases h'.marks key hk with hm | hm
    · exact (h.marks key hm).imp_right .inl
    · exact .inr (.inr hm)

-- What changes no entry and no mark.
theorem Outcome.unmoved (hl : Logged s.store s'.store pios)
    (hentries : ∀ key, s'.entries key = s.entries key) (hdirty : ∀ i, s'.dirty i = s.dirty i)
    (hw : ∀ key ∈ written, ∃ e ∈ pios, e.Writes key) : Outcome s s' written pios := by
  have hmarked : ∀ key, s'.Marked key ↔ s.Marked key := fun key => by
    unfold State.Marked
    simp only [hentries, hdirty]
  refine ⟨hl, fun key hk => ?_, fun key hk => .inl ((hmarked key).mp hk)⟩
  exact hk.imp (hmarked key).mpr (hw key)

end Outcomes

section Pages

variable {free' : List Nat} {frame : Frame}

theorem pagesOf_reverse (pages : List Nat) (key : Key) :
    s.pagesOf pages.reverse key = (s.pagesOf pages key).reverse := List.filter_reverse

-- The key of a page that stays keeps all its pages, and one that loses a page loses all.
theorem Coherent.fill_marks (h : Coherent cacheSize s (kept ++ s.victims.reverse) free) (hw : s.Whole)
    (hf : Filled s s' key pg kept free' frame d) {key' : Key} (hne : key' ≠ key) :
    s.entries key' = s'.entries key' ∧ s.pagesOf s.victims key' = [] ∧
        (s'.Marked key' ↔ s.Marked key') ∨
      s'.entries key' = [] ∧ ∀ i ∈ s.entries key', i ∈ s.victims ∧ s.keyAt i = some key' := by
  have hentries : s'.entries key' = s.pagesOf kept key' := by
    rw [hf.entries, if_neg hne, h.tracked.dropped hw]
  have hold := h.tracked.entries key'
  rw [pagesOf_append] at hold
  rcases h.tracked.apart hw key' with hnone | hstay
  · rw [hnone, List.nil_append] at hold
    refine .inr ⟨hentries.trans hnone, fun i hi => ?_⟩
    obtain ⟨hi, hk⟩ := mem_pagesOf.mp (hold ▸ hi)
    exact ⟨List.mem_reverse.mp hi, hk⟩
  · rw [pagesOf_reverse, hstay, List.reverse_nil, List.append_nil] at hold
    refine .inl ⟨hold.trans hentries.symm, hstay, ?_⟩
    unfold State.Marked
    rw [hold, hentries]
    refine exists_congr fun i => and_congr_right fun hi => ?_
    have hkept : i ∈ kept := (mem_pagesOf.mp (List.mem_of_head? hi)).1
    rw [(hf.others i hkept).2.1]

-- A page comes into the cache, marked or as the store has it.
theorem Coherent.fill_outcome (h : Coherent cacheSize s (kept ++ s.victims.reverse) free)
    (hw : s.Whole) (hf : Filled s s' key pg kept free' frame d) (hs : s.Faithful)
    (hl : Logged s.store d (s.victimPios ++ pios))
    (hview : s'.view = Function.update s.view key frame)
    (hpages : d.pages = (s.victims.foldl (pageOut s) s.store).pages) {written : List Key}
    (hpg : s'.dirty pg = true ∧ written = [key] ∨ s'.dirty pg = false ∧ written = [] ∧
      s.entries key = [] ∧ frame = d.pages key.1 key.2) :
    s'.Faithful ∧ Outcome s s' written (s.victimPios ++ pios) := by
  have hhead : (s'.entries key).head? = some pg := by
    rw [hf.entries, if_pos rfl]
    rfl
  have hself : s'.Marked key ↔ s'.dirty pg = true := by
    unfold State.Marked
    rw [hhead]
    simp
  have hwritten : ∀ key' ∈ written, key' = key ∧ s'.dirty pg = true := fun key' hk => by
    rcases hpg with ⟨hd, rfl⟩ | ⟨-, rfl, -⟩
    · exact ⟨List.mem_singleton.mp hk, hd⟩
    · exact absurd hk (by simp)
  refine ⟨fun key' hk => ?_, hf.store ▸ hl, fun key' hk => ?_, fun key' hk => ?_⟩
  · by_cases hkey : key' = key
    · subst hkey
      rcases hpg with ⟨hd, -⟩ | ⟨-, -, -, hframe⟩
      · exact absurd (hself.mpr hd) hk
      · rw [hview, Function.update_self, hf.store]
        exact hframe
    · rcases h.fill_marks hw hf hkey with ⟨-, hstay, hmarked⟩ | ⟨hnil, -⟩
      · rw [hview, Function.update_of_ne hkey, hs key' fun hm => hk (hmarked.mpr hm), hf.store,
          hpages, foldl_pageOut_pages h.correct, pagesOf_reverse, hstay]
        rfl
      · exact view_uncached hnil
  · by_cases hkey : key' = key
    · subst hkey
      rcases hpg with ⟨hd, -⟩ | ⟨-, rfl, hnil, -⟩
      · exact .inl (hself.mpr hd)
      · obtain ⟨i, hi, -⟩ := hk.resolve_right (by simp)
        simp [hnil] at hi
    · obtain ⟨i, hi, hd⟩ := hk.resolve_right fun hm => hkey (hwritten key' hm).1
      rcases h.fill_marks hw hf hkey with ⟨-, -, hmarked⟩ | ⟨-, hall⟩
      · exact .inl (hmarked.mpr ⟨i, hi, hd⟩)
      · obtain ⟨hv, hki⟩ := hall i (List.mem_of_head? hi)
        obtain ⟨e, he, hwrites⟩ := victim_writes hv hki
        exact .inr (hwrites.append (.inl he))
  · by_cases hkey : key' = key
    · subst hkey
      rcases hpg with ⟨-, rfl⟩ | ⟨hd, -⟩
      · exact .inr (by simp)
      · rw [hself, hd] at hk
        exact absurd hk (by simp)
    · rcases h.fill_marks hw hf hkey with ⟨-, -, hmarked⟩ | ⟨hnil, -⟩
      · exact .inl (hmarked.mp hk)
      · obtain ⟨i, hi, -⟩ := hk
        simp [hnil] at hi

theorem dirty_flag (flag : Nat) : (flag ||| PG_dirty) &&& PG_dirty = PG_dirty := by
  refine Nat.eq_of_testBit_eq fun i => ?_
  rw [Nat.testBit_and, Nat.testBit_or]
  cases flag.testBit i <;> cases PG_dirty.testBit i <;> rfl

theorem allocPage_unmarked (h : allocPage s = .ok (s', pg)) : s'.dirty pg = false := by
  have hpop : ∃ s₁, popFree s₁ = .ok (s', pg) := by
    unfold allocPage at h
    by_cases h0 : s.freeList.nrFree = 0
    · obtain ⟨s₁, -, hpop⟩ := bind_eq_ok.mp ((if_pos h0).symm.trans h)
      exact ⟨s₁, hpop⟩
    · exact ⟨s, (if_neg h0).symm.trans h⟩
  obtain ⟨s₁, hpop⟩ := hpop
  obtain ⟨-, -, -, -, hdirty, -⟩ := popFree_ok hpop
  exact hdirty

theorem addToLruHead_head (h : addToLruHead s pg = .ok s') :
    s'.lruList.head = some pg ∧ s'.keyAt pg = s.keyAt pg := by
  rw [addToLruHead_eq] at h
  unfold hashTableInsert at h
  cases hp : ((linkHead s pg).memMap pg).pathName with
  | none => simp [hp] at h
  | some pathName =>
      simp only [hp, Except.ok.injEq] at h
      subst h
      exact ⟨rfl, rfl⟩

theorem uwritePage_marks {path : CString} {index copyLen : Nat} {src : Nat → UInt8}
    (h : uwritePage path s index copyLen src = .ok s') :
    ∃ pg, s'.lruList.head = some pg ∧ s'.keyAt pg = some (path, index) ∧ s'.dirty pg = true := by
  unfold uwritePage at h
  obtain ⟨⟨s₁, pg⟩, -, hadd⟩ := bind_eq_ok.mp h
  obtain ⟨hhead, hkey⟩ := addToLruHead_head hadd
  refine ⟨pg, hhead, hkey.trans ?_, ?_⟩
  · simp [State.keyAt, State.setFrame, State.setPage]
  · rw [(addToLruHead_ok hadd).2]
    simp only [State.dirty, State.setFrame, State.setPage, Function.update_self, dirty_flag]
    rfl

theorem ureadPage_unmarked (he : s.entries key = []) (h : ureadPage key.1 s key.2 = .ok (s', pg)) :
    s'.dirty pg = false := by
  have hlookup : hashTableLookup s key.1 key.2 = none := by
    have hhead := lookup_entries s key
    rwa [he, List.head?_nil, Option.map_eq_none_iff] at hhead
  unfold ureadPage at h
  simp only [hlookup] at h
  obtain ⟨⟨s₁, pg₁⟩, halloc, h⟩ := bind_eq_ok.mp h
  obtain ⟨s₂, hread, h⟩ := bind_eq_ok.mp h
  obtain ⟨s₃, hadd, h⟩ := bind_eq_ok.mp h
  simp only [pure, Except.pure, Except.ok.injEq, Prod.mk.injEq] at h
  obtain ⟨rfl, rfl⟩ := h
  simp only [readPio, submitPage, State.setPage, Function.update_self, Except.ok.injEq] at hread
  subst hread
  have hfresh := allocPage_unmarked halloc
  rw [(addToLruHead_ok hadd).2]
  simpa [State.dirty, State.setFrame, lru_flag] using hfresh

theorem Coherent.victims_named (h : Coherent cacheSize s (kept ++ s.victims.reverse) free) :
    ∀ i ∈ s.victims, s.keyAt i ≠ none := fun i hi => by
  obtain ⟨key, hk⟩ := h.tracked.lists.named i (List.mem_append_right _ (List.mem_reverse.mpr hi))
  simp [hk]

theorem Coherent.write_outcome {copyLen : Nat} {src : Nat → UInt8} (h : Coherent cacheSize s lru free)
    (hN : 2 ≤ cacheSize) (hl : s.Linked) (hw : s.Whole) (hs : s.Faithful)
    (hact : (PageStep.write key copyLen src).act s = .ok s') :
    s'.Faithful ∧ ∃ pios, Outcome s s' [key] pios := by
  obtain ⟨s₁, pg, kept, free', heq, rfl, hf⟩ := uwritePage_spec h.tracked.lists (h.size.symm ▸ hN)
    hl h.tracked.holders key copyLen src
  obtain rfl : s₁ = s' := Except.ok.inj (heq.symm.trans hact)
  obtain ⟨hc, hview⟩ := h.fill hw hf (fun n => by rw [foldl_pageOut_answers, h.correct]) rfl
  obtain ⟨i, hhead, -, hdirty⟩ := uwritePage_marks heq
  obtain rfl : pg = i := Option.some.inj (hf.lists.links.head_eq.symm.trans hhead)
  have hlogged := (Logged.victims h.correct h.victims_named).trans (Logged.refl _)
  obtain ⟨hs', ho⟩ := h.fill_outcome hw hf hs hlogged hview rfl (.inl ⟨hdirty, rfl⟩)
  exact ⟨hs', _, ho⟩

theorem Coherent.read_outcome (h : Coherent cacheSize s lru free) (hN : 2 ≤ cacheSize)
    (hmiss : s.entries key = [] → s.Linked ∧ s.Whole) (hs : s.Faithful)
    (hact : PageCache.ureadPage key.1 s key.2 = .ok (s', pg)) :
    s'.Faithful ∧ ∃ pios, Outcome s s' [] pios := by
  cases he : s.entries key with
  | nil =>
      obtain ⟨hl, hw⟩ := hmiss he
      obtain ⟨s₁, pg₁, kept, free', heq, rfl, hf⟩ := ureadPage_miss h.tracked.lists
        (h.size.symm ▸ hN) hl h.tracked.holders he
      obtain ⟨rfl, rfl⟩ := Prod.mk.inj (Except.ok.inj (heq.symm.trans hact))
      have hd : (s.victims.foldl (pageOut s) s.store).Correct := fun n => by
        rw [foldl_pageOut_answers, h.correct]
      obtain ⟨hframe, hpages⟩ := submitPio_read hd key (s.physBase pg₁)
      obtain ⟨hc, hview⟩ := h.fill hw hf (fun n => by rw [submitPio_answers, hd]) hpages
      have hlogged := (Logged.victims h.correct h.victims_named).trans
        (Logged.pio hd (by decide : SsdCache.Operate.read ≠ .discard) key (s.physBase pg₁))
      obtain ⟨hs', ho⟩ := h.fill_outcome hw hf hs hlogged hview hpages
        (.inr ⟨ureadPage_unmarked he heq, rfl, he, hframe.trans (by rw [hpages])⟩)
      exact ⟨hs', _, ho⟩
  | cons first rest =>
      obtain ⟨rfl, rfl⟩ := Prod.mk.inj (Except.ok.inj ((ureadPage_hit he).symm.trans hact))
      obtain ⟨-, hquiet, htable, -⟩ := h.tracked.hit he
      have hentries := entries_congr hquiet.size htable
      have hdirty := (moveToLruHead_quiet s first).2
      refine ⟨fun key' hk => ?_, [], .unmoved (hquiet.store ▸ Logged.refl _) hentries hdirty (by simp)⟩
      have hsame : (moveToLruHead s first).view key' = s.view key' :=
        view_congr (hentries key') (fun i _ => by rw [hquiet.phys]) (by rw [hquiet.store])
      rw [hsame, hquiet.store]
      refine hs key' fun hm => hk ?_
      unfold State.Marked at hm ⊢
      simpa only [hentries, hdirty] using hm

end Pages

section Calls

variable {stream : UFile} {buffer : Nat → UInt8} {size count len : Nat} {c : Call}

theorem bypassWrite_logged (stream : UFile) (buffer : Nat → UInt8) (hd : s.store.Correct)
    (hlen : PAGE_SIZE < len) : ∃ d pios n,
      bypassWrite stream.pathName buffer len s (streamIndex stream) = .ok ({ s with store := d }, n) ∧
      Logged s.store d pios ∧ ∀ k < writeCount len, ∃ e ∈ pios, e.Writes (pageKey stream k) := by
  obtain ⟨d, heq, -, pios, hl, hw⟩ := bypassWrite_rule s stream buffer
    (P := fun n d => d.Correct ∧ ∃ pios, Logged s.store d pios ∧
      ∀ k < n, ∃ e ∈ pios, e.Writes (pageKey stream k))
    ⟨hd, [], Logged.refl _, fun k hk => absurd hk (by omega)⟩ hlen
    (fun n _ d hp => by
      obtain ⟨hd, pios, hl, hw⟩ := hp
      have hpio := Logged.pio hd (by decide : SsdCache.Operate.write ≠ .discard) (pageKey stream n)
        (bypassFrame buffer len n)
      refine ⟨fun i => by rw [submitPio_answers, hd], _, hl.trans hpio, fun k hk => ?_⟩
      rcases Nat.lt_succ_iff_lt_or_eq.mp hk with hk | rfl
      · obtain ⟨e, he, hwrites⟩ := hw k hk
        exact hwrites.append (.inl he)
      · exact ⟨_, List.mem_append_right _ (List.mem_singleton.mpr rfl), rfl, rfl⟩)
  exact ⟨d, pios, _, heq, hl, hw⟩

theorem bypassRead_logged (stream : UFile) (buffer : Nat → UInt8) (hd : s.store.Correct)
    (hlen : PAGE_SIZE < len) : ∃ d pios r,
      bypassRead stream.pathName s buffer len (streamIndex stream) = .ok ({ s with store := d }, r) ∧
      Logged s.store d pios ∧ d.pages = s.store.pages := by
  obtain ⟨d, buffer', heq, ⟨-, hpages, pios, hl⟩, -⟩ := bypassRead_rule s stream buffer
    (P := fun _ d => d.Correct ∧ d.pages = s.store.pages ∧ ∃ pios, Logged s.store d pios)
    (Q := fun _ _ => True) ⟨hd, rfl, [], Logged.refl _⟩ hlen
    (fun n _ d frame hp => by
      obtain ⟨hd, hpages, pios, hl⟩ := hp
      have hpio := Logged.pio hd (by decide : SsdCache.Operate.read ≠ .discard) (pageKey stream n)
        frame
      exact ⟨trivial, fun i => by rw [submitPio_answers, hd],
        (submitPio_read_pages _ _ _ _).trans hpages, _, hl.trans hpio⟩)
  exact ⟨d, pios, _, heq, hl, hpages⟩

-- A write through the cache.
theorem Coherent.uwrite_outcome (h : Coherent cacheSize s lru free) (hN : 2 ≤ cacheSize)
    (hmode : stream.mode &&& U_OWRITE ≠ 0) (hsize : size ≠ 0)
    (hfit : dataPages (dataLen size count) ≤ s.cacheSize)
    (hthrough : (Call.uwrite stream buffer size count).Through Harmless s) (hs : s.Faithful) :
    ∃ s' n, PageCache.uwrite s buffer size count stream = .ok (s', n) ∧ s'.Faithful ∧ ∃ pios,
      Outcome s s' (((Call.uwrite stream buffer size count).images s).map Prod.fst) pios := by
  obtain ⟨s', heq, -, hs', pios, ho⟩ := uwrite_images_rule (fun made t =>
      (∃ lru free, Coherent cacheSize t lru free) ∧ t.Faithful ∧
        ∃ pios, Outcome s t (made.map Prod.fst) pios) hmode hsize hfit hthrough
    ⟨⟨lru, free, h⟩, hs, [], Outcome.refl s⟩ (fun k made t hp hharmless => by
      obtain ⟨⟨lru, free, hc⟩, ht, pios, ho⟩ := hp
      obtain ⟨t', pg, lru', free', hact, -, -, hc', himage, -⟩ := hc.uwritePage hN hharmless.1
        hharmless.2 (pageKey stream k) (min PAGE_SIZE (dataLen size count - k * PAGE_SIZE))
        fun i => buffer (k * PAGE_SIZE + i)
      obtain ⟨ht', pios', ho'⟩ := hc.write_outcome hN hharmless.1 hharmless.2 ht hact
      refine ⟨t', hact, ⟨lru', free', hc'⟩, ht', pios ++ pios', ?_⟩
      rw [himage, List.map_append]
      exact ho.trans ho')
  rw [images_uwrite hmode hfit]
  exact ⟨s', _, heq, hs', pios, ho⟩

-- A write that goes past the cache: what is not marked is as the store has it, before and after.
theorem Coherent.large_faithful {n : Nat} (hpages : (fun key => d.pages key.1 key.2) =
      overlay (largeImages stream buffer len n) fun key => s.store.pages key.1 key.2)
    (hu : ∀ k < n, ∀ i ∈ s.entries (pageKey stream k), s.physBase i = bypassFrame buffer len k)
    (hs : s.Faithful) : ({ s with store := d } : State).Faithful := by
  intro key hk
  rw [Coherent.large_view hpages hu]
  exact (overlay_congr (hs key hk)).trans (congrFun hpages key).symm

theorem Coherent.uread_outcome {first : Bool} (h : Coherent cacheSize s lru free) (hN : 2 ≤ cacheSize)
    (hsize : size ≠ 0) (hfit : dataPages (dataLen size count) ≤ s.cacheSize)
    (hlen : dataLen size count + PAGE_SIZE ≤ 2 ^ 32)
    (hthrough : (Call.uread stream buffer size count first).Through Harmless s) (hs : s.Faithful) :
    ∃ s' buffer' n, PageCache.uread s buffer size count stream first = .ok (s', buffer', n) ∧
      s'.Faithful ∧ ∃ pios, Outcome s s' [] pios := by
  obtain ⟨s', buffer', n, heq, ⟨-, hs', ho⟩, -⟩ := uread_rule (Q := fun _ _ => True) hsize hfit hlen
    hthrough (P := fun _ t => (∃ lru free, Coherent cacheSize t lru free) ∧ t.Faithful ∧
      ∃ pios, Outcome s t [] pios) ⟨⟨lru, free, h⟩, hs, [], Outcome.refl s⟩
    (fun k hk t hp hharmless => by
      obtain ⟨⟨lru, free, hc⟩, ht, pios, ho⟩ := hp
      obtain ⟨t', pg, lru', free', hread, hc', -⟩ := hc.ureadPage hN (pageKey stream k) hharmless
      obtain ⟨ht', pios', ho'⟩ := hc.read_outcome hN hharmless ht hread
      exact ⟨t', pg, hread, trivial, ⟨lru', free', hc'⟩, ht', _, ho.trans ho'⟩)
  exact ⟨s', buffer', _, heq, hs', ho⟩

-- A request that is larger than the cache writes each of its pages with a pio of its own.
theorem Coherent.uwrite_large_outcome {n : Nat} (h : Coherent cacheSize s lru free)
    (hpos : 0 < s.cacheSize) (hmode : stream.mode &&& U_OWRITE ≠ 0)
    (hr : InRange stream.ioOffset (size * count)) (hlong : s.cacheSize * PAGE_SIZE < size * count)
    (hu : Uncached (.uwrite stream buffer size count) s) (hs : s.Faithful)
    (heq : PageCache.uwrite s buffer size count stream = .ok (s', n)) :
    s'.Faithful ∧ ∃ pios,
      Outcome s s' (((Call.uwrite stream buffer size count).images s).map Prod.fst) pios := by
  obtain ⟨d, n', heq', -, hpages⟩ := uwrite_large buffer h.correct hpos hmode hr hlong
  obtain rfl := congrArg Prod.fst (Except.ok.inj (heq'.symm.trans heq))
  have hover := dataPages_gt hr hlong
  rcases uwrite_cases heq with ⟨hread, -⟩ | ⟨-, -, hfit | ⟨-, n₁, hby⟩⟩
  · exact absurd hread hmode
  · omega
  · rw [dataLen_eq hr] at hby hover
    obtain ⟨d', pios, n₂, hby', hl, hw⟩ :=
      bypassWrite_logged stream buffer h.correct (long_of_bypass hpos hover)
    have hstate := congrArg Prod.fst (Except.ok.inj (hby'.symm.trans hby))
    obtain rfl : d' = d := congrArg State.store hstate
    rw [images_large hmode hr hlong]
    refine ⟨Coherent.large_faithful hpages (hu hmode hlong) hs, pios,
      .unmoved hl (fun _ => rfl) (fun _ => rfl) fun key hk => ?_⟩
    obtain ⟨image, hm, rfl⟩ := List.mem_map.mp hk
    obtain ⟨k, hlt, rfl⟩ := mem_largeImages.mp hm
    exact hw k hlt

theorem Coherent.call_outcome (h : Coherent cacheSize s lru free) (hN : 2 ≤ cacheSize)
    (hr : InRange c.stream.ioOffset c.len) (hthrough : c.Through Harmless s) (hu : Uncached c s)
    (hs : s.Faithful) (hact : c.act s = .ok s') :
    s'.Faithful ∧ ∃ pios, Outcome s s' ((c.images s).map Prod.fst) pios := by
  have hpos : 0 < s.cacheSize := by
    rw [h.size]
    omega
  cases c with
  | uwrite stream buffer size count =>
      obtain ⟨⟨s₁, n⟩, heq, hok⟩ := bind_eq_ok.mp hact
      obtain rfl : s₁ = s' := Except.ok.inj hok
      rcases uwrite_cases heq with ⟨hmode, rfl⟩ | ⟨hmode, hsize, hfit | ⟨hlong, -⟩⟩
      · have hnone : (Call.uwrite stream buffer size count).images s₁ = [] := if_pos hmode
        rw [hnone]
        exact ⟨hs, [], Outcome.refl s₁⟩
      · obtain ⟨s₂, n₂, heq₂, hs₂, ho⟩ := h.uwrite_outcome hN hmode hsize hfit hthrough hs
        obtain rfl : s₂ = s₁ := congrArg Prod.fst (Except.ok.inj (heq₂.symm.trans heq))
        exact ⟨hs₂, ho⟩
      · have hover : s.cacheSize * PAGE_SIZE < size * count := by
          rw [dataLen_eq hr] at hlong
          unfold dataPages u32 PAGE_SIZE at *
          omega
        exact h.uwrite_large_outcome hpos hmode hr hover hu hs heq
  | uread stream buffer size count first =>
      obtain ⟨⟨s₁, buffer', n⟩, heq, hok⟩ := bind_eq_ok.mp hact
      obtain rfl : s₁ = s' := Except.ok.inj hok
      obtain ⟨hsize, ⟨hfit, hlen⟩ | ⟨hlong, n', hby⟩⟩ := uread_cases heq
      · obtain ⟨s₂, b₂, n₂, heq₂, hs₂, ho⟩ := h.uread_outcome hN hsize hfit hlen hthrough hs
        obtain rfl : s₂ = s₁ := congrArg Prod.fst (Except.ok.inj (heq₂.symm.trans heq))
        exact ⟨hs₂, ho⟩
      · obtain ⟨d, pios, r, hby₂, hl, hpages⟩ :=
          bypassRead_logged stream buffer h.correct (long_of_bypass hpos hlong)
        obtain rfl := congrArg Prod.fst (Except.ok.inj (hby₂.symm.trans hby))
        refine ⟨fun key hk => ?_, pios, .unmoved hl (fun _ => rfl) (fun _ => rfl)
          (by simp [Call.images])⟩
        have hsame : ({ s with store := d } : State).view key = s.view key :=
          view_congr rfl (fun _ _ => rfl) hpages
        rw [hsame, hs key hk]
        exact congrFun (congrFun hpages.symm key.1) key.2

theorem imagesOf_keys {n : Nat} {steps : List PageStep}
    (hsteps : ∀ a ∈ steps, ∃ k < n, a = writeStep stream buffer len k) {image : Image}
    (hm : image ∈ imagesOf steps s) : ∃ k < n, image.1 = pageKey stream k := by
  induction steps generalizing s with
  | nil => simp [imagesOf] at hm
  | cons a rest ih =>
      obtain ⟨k, hk, rfl⟩ := hsteps a List.mem_cons_self
      unfold imagesOf at hm
      cases hact : (writeStep stream buffer len k).act s with
      | error fault => simp [hact] at hm
      | ok s' =>
          simp only [hact] at hm
          obtain ⟨pg, hhead, hkey, -⟩ := uwritePage_marks hact
          rcases List.mem_append.mp hm with hm | hm
          · refine ⟨k, hk, ?_⟩
            have himage : s'.imageAt pg = some (pageKey stream k, s'.physBase pg) := by
              unfold State.imageAt
              rw [hkey]
              rfl
            rw [hhead, Option.bind_some, himage] at hm
            rw [List.mem_singleton.mp hm]
          · exact ih (fun b hb => hsteps b (List.mem_cons_of_mem _ hb)) hm

-- The pages of a write lie within its bytes.
theorem Call.images_bound {n : Nat} (hr : InRange c.stream.ioOffset c.len)
    (hn : c.stream.ioOffset + c.len ≤ n * PAGE_SIZE) {image : Image} (hm : image ∈ c.images s) :
    image.1.2 < n := by
  cases c with
  | uread => simp [Call.images] at hm
  | uwrite stream buffer size count =>
      have hkey : ∃ k < writeCount (size * count), image.1 = pageKey stream k := by
        by_cases hmode : stream.mode &&& U_OWRITE = 0
        · rw [show (Call.uwrite stream buffer size count).images s = [] from if_pos hmode] at hm
          simp at hm
        · rw [← dataLen_eq hr]
          rcases Nat.lt_or_ge s.cacheSize (dataPages (dataLen size count)) with hlong | hfit
          · have himages : (Call.uwrite stream buffer size count).images s = largeImages stream buffer
                (dataLen size count) (writeCount (dataLen size count)) :=
              (if_neg hmode).trans (if_pos hlong)
            rw [himages] at hm
            obtain ⟨k, hk, rfl⟩ := mem_largeImages.mp hm
            exact ⟨k, hk, rfl⟩
          · rw [images_uwrite hmode hfit] at hm
            exact imagesOf_keys (fun a ha => mem_steps_uwrite ha) hm
      obtain ⟨k, hk, hkey⟩ := hkey
      have hr : InRange stream.ioOffset (size * count) := hr
      have hpos : 0 < size * count := hr.1
      have hin : k * PAGE_SIZE < size * count := by
        unfold writeCount PAGE_SIZE at *
        omega
      have hend : stream.ioOffset + size * count ≤ n * PAGE_SIZE := hn
      rw [hkey, pageKey_eq hr hin]
      change stream.ioOffset / PAGE_SIZE + k < n
      unfold PAGE_SIZE at *
      omega

end Calls

end UserPageCache.PageCache
