import UserPageCache.Stack.Promises

namespace UserPageCache

open PageCache (Call Key Ledger Submission emptyStore fileA pageRead pageWrite)
open SsdCache (Move Race Work fileContents)

section Blocks

variable {s : Race} {g : SsdCache.Geometry} {t : SsdCache.Table Work} {work : Work} {key : Key}
  {b : Nat}

def blockOf (key : Key) : Work := SsdCache.State.keyAt key.2 key.1

theorem page_blockOf (spec : SsdCache.Contents) (key : Key) :
    spec.page (blockOf key) (key.2 % 8) = spec key.1 key.2 := by
  have hindex : (blockOf key).cachePageIndex * 8 + key.2 % 8 = key.2 := by
    simp only [blockOf, SsdCache.State.keyAt, SsdCache.toCachePageIndex]
    omega
  unfold SsdCache.Contents.page
  rw [hindex]
  rfl

theorem addressable_blockOf (h : key.2 < 2 ^ 20) : SsdCache.Addressable (blockOf key) := by
  have hlt : key.2 / 2 ^ 3 < 2 ^ 17 := by omega
  exact hlt

theorem SsdCache.Race.Inv.unstored_met (h : s.Inv g t) (hf : b ∈ s.found work) (hu : s.Unstored b) :
    s.spec.Met work (SsdCache.ssdPage s.world b) := by
  obtain ⟨hb, rfl⟩ := h.found.1 b hf
  refine h.coherent.cached b hb fun key hw => ?_
  rcases hu with hdirty | hstoring
  · rw [h.coherent.repr.getDirty, h.coherent.evicting key b hw] at hdirty
    cases hdirty
  · simp [SsdCache.Race.storing, hw] at hstoring

theorem SsdCache.Race.Inv.stored (h : s.Inv g t) (hu : ¬ s.Unstored b) :
    (t.slot b).dirty = false ∧ ∀ work, s.worker = .writing work b → s.stage = .stored := by
  obtain ⟨hdirty, hstoring⟩ := not_or.mp hu
  rw [h.coherent.repr.getDirty, Bool.not_eq_true] at hdirty
  refine ⟨hdirty, fun work hw => ?_⟩
  by_contra hstage
  exact hstoring (by simp [SsdCache.Race.storing, hw, hstage])

end Blocks

namespace Stack

-- What the SSD cache will have promised when it has served the call.
def promised (x : Stack) : SsdCache.Contents :=
  (x.pending.map Submission.pio).foldl SsdCache.Contents.after x.ssd.promised

-- What the page cache has of a written page is marked, or the SSD cache has promised it. Both
-- caches are right on their own, and agree on what has passed between them.
structure Inv (cacheSize : Nat) (x : Stack) : Prop where
  refines : x.ledger.Refines cacheSize
  faithful : x.ledger.state.Faithful
  ssd : ∃ g t, x.ssd.Inv g t
  missed : x.ssd.missed.length ≤ 1
  redo : x.pending.foldl Submission.redo x.behind = x.ledger.state.store
  transfers : ∀ e ∈ x.pending, e.operation ≠ .discard
  correct : x.behind.Correct
  backs : Backs x.ssd.promised x.behind
  marks : ∀ key, x.ledger.state.Marked key → key ∈ x.written
  kept : ∀ key ∈ x.written, x.ledger.state.Marked key ∨ (x.promised key.1 key.2).isSome
  bound : ∀ key ∈ x.written, key.2 < 2 ^ 20
  handed : x.phase ≠ .running → x.pending = [] ∧ x.ssd.missed = [] ∧ x.Handed
  saved : x.phase = .gone → x.Saved

variable {cacheSize blockSize cblockNum : Nat} {x x' : Stack}

section Steps

theorem ready_iff : x.ready = true ↔ x.phase = .running ∧ x.pending = [] ∧ x.ssd.missed = [] := by
  simp [ready, List.isEmpty_iff, and_assoc]

theorem leaving_ne (he : x.enabled .exitSsdCache = true) : x.phase ≠ .running := by
  have hphase : x.phase = .leaving := beq_iff_eq.mp he
  simp [hphase]

theorem promised_ready (hp : x.pending = []) (hm : x.ssd.missed = []) :
    x.promised = x.ssd.spec := by
  unfold promised
  rw [hp]
  exact x.ssd.promised_nil hm

theorem Inv.start (hx : (stacking cacheSize blockSize cblockNum).start x) : x.Inv cacheSize := by
  obtain ⟨⟨store, hd, hstate, hcontents⟩, hssd, hbacks, hbehind, hpending, hwritten, hphase⟩ := hx
  obtain ⟨hc, hview⟩ := PageCache.Coherent.init cacheSize hd
  obtain ⟨-, -, hstore, hentries⟩ := PageCache.initPageCache_spec cacheSize store
  have hempty : ∀ key, x.ledger.state.entries key = [] := fun key => by rw [hstate, hentries]
  have hinv := SsdCache.race_inv (.start hssd)
  obtain ⟨-, -, hmissed, -⟩ := hssd
  refine ⟨⟨⟨_, _, hstate ▸ hc⟩, by rw [hstate, hview, hcontents]⟩, fun key _ => ?_, hinv,
    by simp [hmissed], by rw [hpending, hbehind]; rfl, by simp [hpending], ?_, ?_, fun key hm => ?_,
    by simp [hwritten], by simp [hwritten], fun h => absurd hphase h, fun h => ?_⟩
  · exact PageCache.view_uncached (hempty key)
  · rw [hbehind, hstate, hstore]
    exact hd
  · rw [x.ssd.promised_nil hmissed, hbehind]
    exact hbacks
  · obtain ⟨pg, hhead, -⟩ := hm
    simp [hempty] at hhead
  · rw [hphase] at h
    cases h

-- A pio that has one page and no descriptor fits wherever its page can be addressed.
theorem fits_pio {e : Submission} {w : SsdCache.World} (hi : e.pageIndex < 2 ^ 20) :
    e.pio.Fits w := by
  refine ⟨?_, rfl, .inl rfl, hi⟩
  change decide (1 ≤ 8 - e.pageIndex % 8) = true
  rw [decide_eq_true_eq]
  omega

-- The SSD cache is given the next pio: what it will have promised stays the same.
theorem Inv.submitPio (h : x.Inv cacheSize) (he : x.enabled .submitPio = true)
    (ha : Preserving .submitPio x) : ∃ x', act .submitPio x = .ok x' ∧ x'.Inv cacheSize := by
  simp only [enabled, Bool.and_eq_true, List.isEmpty_iff] at he
  obtain ⟨hpending, hmissed⟩ := he
  cases hp : x.pending with
  | nil => simp [hp] at hpending
  | cons e rest =>
      have he : e ∈ x.pending := hp ▸ List.mem_cons_self
      obtain ⟨haddr, hleaving⟩ := ha e (by rw [hp]; rfl)
      obtain ⟨g, t, hssd⟩ := h.ssd
      obtain ⟨ssd, t', hact, hssd'⟩ :=
        hssd.submit (fits_pio haddr) (h.transfers e he) fun _ => hleaving
      obtain ⟨hpromised, hmissed'⟩ := x.ssd.submit_promised hmissed hact
      have hsame : (rest.map Submission.pio).foldl SsdCache.Contents.after ssd.promised =
          x.promised := by
        rw [hpromised, promised, hp]
        rfl
      have hrunning : x.phase = .running := by
        by_contra hphase
        rw [(h.handed hphase).1] at hp
        cases hp
      refine ⟨{ x with ssd := ssd, behind := Submission.redo x.behind e, pending := rest },
        by simp only [act, hp, hact, bind, Except.bind, pure, Except.pure], h.refines, h.faithful,
        ⟨g, t', hssd'⟩, hmissed', ?_, ?_, redo_correct h.correct e, ?_, h.marks, ?_, h.bound,
        fun hphase => absurd hrunning hphase, fun hphase => ?_⟩
      · rw [← h.redo, hp]
        rfl
      · exact fun e' he' => h.transfers e' (hp ▸ List.mem_cons_of_mem _ he')
      · rw [hpromised]
        exact h.backs.after h.correct e
      · unfold promised
        rw [hsame]
        exact h.kept
      · rw [hrunning] at hphase
        cases hphase

-- A move of the worker, or the end of a WRITE that missed.
theorem Inv.move {a : Move} (h : x.Inv cacheSize) (he : x.enabled (.move a) = true)
    (ha : Preserving (.move a) x) : ∃ x', act (.move a) x = .ok x' ∧ x'.Inv cacheSize := by
  simp only [enabled, Bool.and_eq_true, Bool.not_eq_true', bne_iff_ne] at he
  obtain ⟨⟨hgone, hsubmits⟩, he⟩ := he
  obtain ⟨g, t, hssd⟩ := h.ssd
  obtain ⟨ssd, t', hact, hssd'⟩ := hssd.step he ha
  obtain ⟨hpromised, hmissed⟩ := SsdCache.Race.act_promised hsubmits h.missed
    (fun pio hp => (hssd.missed pio hp).2) hact
  have hsame : ({ x with ssd := ssd } : Stack).promised = x.promised := by
    simp only [promised, hpromised]
  refine ⟨{ x with ssd := ssd }, by simp only [act, hact, bind, Except.bind, pure, Except.pure],
    h.refines, h.faithful, ⟨g, t', hssd'⟩, hmissed.trans h.missed, h.redo, h.transfers, h.correct,
    ?_, h.marks, ?_, h.bound,
    fun hphase => ?_, fun hphase => absurd hphase hgone⟩
  · rw [hpromised]
    exact h.backs
  · rw [hsame]
    exact h.kept
  · obtain ⟨hp, hm, hh⟩ := h.handed hphase
    have hm' : ssd.missed = [] := by
      rw [hm] at hmissed
      exact List.length_eq_zero_iff.mp (Nat.le_zero.mp hmissed)
    refine ⟨hp, hm', fun key hk => ?_⟩
    rw [ssd.promised_nil hm', x.ssd.promised_nil hm] at hpromised
    rw [hpromised]
    exact hh key hk

-- A call of the user: what it evicts is in its pios, what it writes in its marks.
theorem Inv.call {c : Call} (h : x.Inv cacheSize) (hN : 2 ≤ cacheSize)
    (he : x.enabled (.call c) = true) (ha : Preserving (.call c) x) :
    ∃ x', act (.call c) x = .ok x' ∧ x'.Inv cacheSize := by
  obtain ⟨hrunning, hpending, hmissed⟩ := ready_iff.mp he
  obtain ⟨hagreeing, hend⟩ := ha
  obtain ⟨⟨lru, free, hc⟩, -⟩ := id h.refines
  obtain ⟨ledger, hact, hrefines⟩ := h.refines.step hN hagreeing
  obtain ⟨state, hstate, hledger⟩ := bind_eq_ok.mp hact
  obtain rfl := Except.ok.inj hledger
  obtain ⟨hr, hharmless, hu⟩ := hagreeing
  obtain ⟨hfaithful, pios, ho⟩ := hc.call_outcome hN hr hharmless hu h.faithful hstate
  have hbehind : x.behind = x.ledger.state.store := by
    rw [← h.redo, hpending]
    rfl
  refine ⟨{ x with
      ledger := ⟨state, PageCache.overlay (c.images x.ledger.state) x.ledger.contents⟩
      written := x.written ++ (c.images x.ledger.state).map Prod.fst
      pending := pios }, ?_, hrefines, hfaithful, h.ssd, h.missed, ?_, ho.logged.transfers,
    h.correct, h.backs, fun key hm => ?_, fun key hk => ?_, fun key hk => ?_,
    fun hphase => absurd hrunning hphase, fun hphase => ?_⟩
  · simp only [act, hstate, bind, Except.bind, pure, Except.pure, ho.logged.pending]
  · rw [hbehind]
    exact ho.logged.redo
  · exact List.mem_append.mpr ((ho.marks key hm).imp_left (h.marks key))
  · have hpromised : ∀ e ∈ pios, e.Writes key →
        ((pios.map Submission.pio).foldl SsdCache.Contents.after x.ssd.promised key.1
          key.2).isSome := fun e he hw => promised_of_writes he hw
    have hnow : x.ledger.state.Marked key ∨ key ∈ (c.images x.ledger.state).map Prod.fst →
        state.Marked key ∨ _ := fun hm =>
      (ho.kept key hm).imp_right fun ⟨e, he, hw⟩ => hpromised e he hw
    rcases List.mem_append.mp hk with hk | hk
    · rcases h.kept key hk with hm | hspec
      · exact hnow (.inl hm)
      · rw [promised_ready hpending hmissed, ← x.ssd.promised_nil hmissed] at hspec
        exact .inr (SsdCache.Contents.foldl_after_isSome _ hspec)
    · exact hnow (.inr hk)
  · rcases List.mem_append.mp hk with hk | hk
    · exact h.bound key hk
    · obtain ⟨image, hm, rfl⟩ := List.mem_map.mp hk
      exact PageCache.Call.images_bound hr hend hm
  · rw [hrunning] at hphase
    cases hphase

end Steps

section Exits

-- What is not marked the SSD cache has promised as it is.
theorem Inv.drained_iff (h : x.Inv cacheSize) (hr : x.ready = true) : x.Drained ↔ x.Handed := by
  obtain ⟨-, hpending, hmissed⟩ := ready_iff.mp hr
  obtain ⟨⟨lru, free, hc⟩, hview⟩ := id h.refines
  have hbehind : x.behind = x.ledger.state.store := by
    rw [← h.redo, hpending]
    rfl
  constructor
  · intro hd key hk
    by_cases hm : x.ledger.state.Marked key
    · obtain ⟨pg, hhead, hdirty⟩ := hm
      obtain ⟨rest, he⟩ := List.head?_eq_some_iff.mp hhead
      obtain ⟨hpg, hkey⟩ := hc.tracked.mem.mp (he ▸ List.mem_cons_self)
      have hlt : pg < x.ledger.state.cacheSize := List.mem_range.mp
        (hc.tracked.lists.pages.mem_iff.mp (by simp [hpg]))
      rw [hd pg hlt hdirty key hkey hhead, ← hview, PageCache.view_cached he]
    · have hspec := (h.kept key hk).resolve_left hm
      rw [promised_ready hpending hmissed] at hspec
      obtain ⟨page, hpage⟩ := Option.isSome_iff_exists.mp hspec
      have hback := h.backs key.1 key.2 page (by rw [x.ssd.promised_nil hmissed, hpage])
      rw [hpage, ← hview, h.faithful key hm, ← hbehind, hback]
  · intro hh pg _ hdirty key _ hhead
    obtain ⟨rest, he⟩ := List.head?_eq_some_iff.mp hhead
    rw [hh key (h.marks key ⟨pg, hhead, hdirty⟩), ← hview, PageCache.view_cached he]

-- The block of a page that the SSD cache has been given holds it, unless the file does.
theorem Inv.flushed_iff (h : x.Inv cacheSize) (hh : x.Handed) : x.Flushed ↔ x.Saved := by
  obtain ⟨g, t, hssd⟩ := h.ssd
  have hc := hssd.coherent
  refine forall_congr' fun key => forall_congr' fun hk => ?_
  have hspec : x.ssd.spec.page (blockOf key) (key.2 % 8) = some (x.ledger.contents key) := by
    rw [page_blockOf]
    exact hh key hk
  have hmod : key.2 % 8 < 8 := Nat.mod_lt _ (by decide)
  constructor
  · intro hflushed
    by_cases hb : ∃ b ∈ x.ssd.found (blockOf key), x.ssd.Unstored b
    · obtain ⟨b, hf, hunstored⟩ := hb
      rw [hflushed b hf hunstored, hssd.unstored_met hf hunstored _ hmod _ hspec]
    · have hstored : ∀ b ∈ t.hashed, (t.slot b).key = blockOf key → ¬ x.ssd.Unstored b :=
        fun b hb' hkey hu => hb ⟨b, hssd.found.2 b hb' hkey, hu⟩
      have hkept := hc.origin (blockOf key) (addressable_blockOf (h.bound key hk)) fun b hb' hkey =>
        hssd.stored (hstored b hb' hkey)
      rw [← page_blockOf (SsdCache.fileContents x.ssd.world)]
      exact hkept _ hmod _ hspec
  · intro hsaved b hf hunstored
    rw [hsaved, hssd.unstored_met hf hunstored _ hmod _ hspec]

theorem Inv.exitPageCache (h : x.Inv cacheSize) (he : x.enabled .exitPageCache = true)
    (hd : x.Drained) : Inv cacheSize { x with phase := .leaving } := by
  obtain ⟨-, hpending, hmissed⟩ := ready_iff.mp he
  exact { h with
    handed := fun _ => ⟨hpending, hmissed, (h.drained_iff he).mp hd⟩
    saved := fun hphase => by cases hphase }

theorem Inv.exitSsdCache (h : x.Inv cacheSize) (he : x.enabled .exitSsdCache = true)
    (hf : x.Flushed) : Inv cacheSize { x with phase := .gone } := by
  have hhanded := h.handed (leaving_ne he)
  exact { h with
    handed := fun _ => hhanded
    saved := fun _ => (h.flushed_iff hhanded.2.2).mp hf }

theorem Inv.step {a : Deed} (h : x.Inv cacheSize) (hN : 2 ≤ cacheSize) (he : x.enabled a = true)
    (ha : Preserving a x) : ∃ x', act a x = .ok x' ∧ x'.Inv cacheSize := by
  cases a with
  | call c => exact h.call hN he ha
  | submitPio => exact h.submitPio he ha
  | move a => exact h.move he ha
  | exitPageCache => exact ⟨_, rfl, h.exitPageCache he ha⟩
  | exitSsdCache => exact ⟨_, rfl, h.exitSsdCache he ha⟩

end Exits

end Stack

theorem stack_inv {cacheSize blockSize cblockNum : Nat} {x : Stack} (hN : 2 ≤ cacheSize)
    (h : (stacking cacheSize blockSize cblockNum).Reachable Preserving x) : x.Inv cacheSize := by
  refine h.invariant (fun x hx => Stack.Inv.start hx) (fun x x' a hx he ha hact => ?_)
  obtain ⟨x₁, hact', hx₁⟩ := hx.step hN he ha
  exact Except.ok.inj (hact'.symm.trans hact) ▸ hx₁

-- A call that returns has stored the pages of its buffer.
theorem Stack.act_stores {x x' : Stack} {c : Call} (h : Stack.act (.call c) x = .ok x') :
    ∃ images, c.Stores images ∧
      x'.ledger.contents = PageCache.overlay images x.ledger.contents ∧
      x'.written = x.written ++ images.map Prod.fst := by
  obtain ⟨state, hstate, h⟩ := bind_eq_ok.mp h
  obtain rfl := Except.ok.inj h
  exact ⟨_, PageCache.Call.images_stores hstate, rfl, rfl⟩

section Runs

def Stack.boot : Stack := ⟨Ledger.boot, [], emptyStore, [], Race.boot, .running⟩

theorem stackBoot_start : (stacking 2 512 1).start Stack.boot := by
  refine ⟨PageCache.ledgerBoot_start, SsdCache.raceBoot_start, fun path i page hp => ?_, rfl, rfl,
    rfl, rfl⟩
  obtain ⟨file, hfile, hpage⟩ := Option.bind_eq_some_iff.mp hp
  have hzero : ∀ k, file.data k = 0 := fun k => by
    change (if path = fileA then some (SsdCache.File.mk (2 ^ 15) fun _ => 0) else none) =
      some file at hfile
    split at hfile
    · rw [← Option.some.inj hfile]
    · cases hfile
  split at hpage
  · rw [← Option.some.inj hpage]
    exact funext fun j => (hzero _).symm
  · cases hpage

-- One page is written, and the process ends.
def lostRun : List Deed := [.call (pageWrite 0 1), .exitPageCache, .exitSsdCache]

def promotionRun : List Deed :=
  [.move .peakWork, .move .startPromotion, .move .readFile, .move .writeBlock,
    .move .completePromotion, .move .removeWork]

-- One page is evicted to the file, and another one to the block that is promoted from it.
def dirtyRun : List Deed :=
  [.call (pageWrite 0 1), .call (pageWrite 3 4), .call (pageRead 1), .submitPio,
    .move (.writeOrigin 0), .submitPio] ++ promotionRun ++
  [.call (pageRead 8), .submitPio, .submitPio]

-- The page of another block that was read makes the worker write that block back.
def writebackRun : List Deed :=
  [.move .peakWork, .move .startPromotion, .move .startDemotion, .move .startWriteback,
    .move .readBlock, .move .writeFile, .move .completeWriteback, .move .removeWork]

def exitRun : List Deed := [.exitPageCache, .exitSsdCache]

-- The pages differ in their first bytes, if the first one is known at all.
def differ (page : Option SsdCache.Page) (page' : SsdCache.Page) : Bool :=
  page.all fun p => p SsdCache.firstByte != page' SsdCache.firstByte

theorem ne_of_differ {page : Option SsdCache.Page} {page' : SsdCache.Page}
    (h : differ page page' = true) : page ≠ some page' := by
  rintro rfl
  simp [differ] at h

end Runs

end UserPageCache
