import UserPageCache.PageCache.Eviction
import UserPageCache.PageCache.ReadYourWrites

namespace UserPageCache.PageCache

-- No page is marked PG_dirty.
def State.Clean (s : State) : Prop := ∀ i, s.dirty i = false

-- A run of reads with the store as it was before.
structure Reading where
  state : State
  before : Store

def Call.reads : Call → Prop
  | .uwrite .. => False
  | .uread .. => True

-- From any state without dirty pages, reads of any length.
def readings (cacheSize : Nat) : System Reading Call Fault where
  start x := x.state.Clean ∧ x.state.cacheSize = cacheSize ∧ x.before = x.state.store
  enabled c _ := c.reads
  act c x := do return ⟨← c.act x.state, x.before⟩

-- A page that is not cached finds a free one.
def Roomy : PageStep → State → Prop
  | .read key, s => s.entries key = [] → s.freeList.nrFree ≠ 0
  | .write .., _ => True

-- No page of a call needs an eviction.
def Sparing (c : Call) (x : Reading) : Prop := c.Through Roomy x.state

instance : (step : PageStep) → (s : State) → Decidable (Roomy step s)
  | .read key, s => inferInstanceAs (Decidable (s.entries key = [] → s.freeList.nrFree ≠ 0))
  | .write .., _ => .isTrue trivial

instance (cacheSize : Nat) (c : Call) (x : Reading) :
    Decidable ((readings cacheSize).enabled c x) :=
  match c with
  | .uwrite .. => .isFalse id
  | .uread .. => .isTrue trivial

instance (c : Call) (x : Reading) : Decidable (Sparing c x) :=
  inferInstanceAs (Decidable (c.Through Roomy x.state))

section Pages

variable {s s' : State} {pg : Nat} {key : Key}

theorem moveToLruHead_quiet (s : State) (pg : Nat) : Quiet s (moveToLruHead s pg) ∧
    ∀ i, (moveToLruHead s pg).dirty i = s.dirty i := by
  unfold moveToLruHead
  cases (s.memMap pg).prev with
  | none => exact ⟨Quiet.refl s, fun i => rfl⟩
  | some p =>
      simp only [setNext_eq, setPrev_eq, closeNext_eq, setHead]
      exact ⟨⟨rfl, rfl, rfl⟩, fun i => rfl⟩

theorem addToLruHead_ok (h : addToLruHead s pg = .ok s') : Quiet s s' ∧
    ∀ i, s'.dirty i = s.dirty i := by
  rw [addToLruHead_eq] at h
  unfold hashTableInsert at h
  cases hp : ((linkHead s pg).memMap pg).pathName with
  | none => simp [hp] at h
  | some pathName =>
      simp only [hp, Except.ok.injEq] at h
      subst h
      exact ⟨⟨rfl, rfl, rfl⟩, linkHead_dirty⟩

theorem submitPio_read_pages (d : Store) (pathName : CString) (index : Nat) (frame : Frame) :
    (submitPio d .read pathName index frame).1.pages = d.pages := by
  unfold submitPio
  cases d.answers d.log.length <;> rfl

-- The pages that a read would evict.
def State.spared (s : State) (key : Key) : List Nat := if s.entries key = [] then s.victims else []

-- What reading has done to a state, `made` being the images it has written.
structure ReadEffect (s s' : State) (made : List Image) : Prop where
  size : s'.cacheSize = s.cacheSize
  dirty : ∀ i, s'.dirty i = true → s.dirty i = true
  writes : s'.store.writes = s.store.writes ++ made
  pages : made = [] → s'.store.pages = s.store.pages

theorem ReadEffect.trans {s₁ : State} {made made' : List Image} (h : ReadEffect s s₁ made)
    (h' : ReadEffect s₁ s' made') : ReadEffect s s' (made ++ made') where
  size := h'.size.trans h.size
  dirty i hi := h.dirty i (h'.dirty i hi)
  writes := by rw [h'.writes, h.writes, List.append_assoc]
  pages hnil := by
    obtain ⟨hmade, hmade'⟩ := List.append_eq_nil_iff.mp hnil
    exact (h'.pages hmade').trans (h.pages hmade)

theorem images_length {pages : List Nat} (h : ∀ i ∈ pages, s.keyAt i ≠ none) :
    (pages.filterMap s.imageAt).length = pages.length := by
  rw [List.length_filterMap_eq_countP, List.countP_eq_length]
  intro i hi
  simpa [State.imageAt, Option.isSome_iff_ne_none] using h i hi

-- A page that is read writes the pages it evicts and nothing else.
theorem ureadPage_ok (h : ureadPage key.1 s key.2 = .ok (s', pg)) :
    ReadEffect s s' ((s.spared key).filterMap s.imageAt) ∧
      ((s.spared key).filterMap s.imageAt).length =
        if s.entries key = [] ∧ s.freeList.nrFree = 0 then s.cacheSize / 2 else 0 := by
  have hhead := lookup_entries s key
  unfold State.spared
  unfold ureadPage at h
  cases hl : hashTableLookup s key.1 key.2 with
  | some e =>
      have hne : s.entries key ≠ [] := fun he => by simp [he, hl] at hhead
      simp only [hl, Except.ok.injEq, Prod.mk.injEq] at h
      obtain ⟨rfl, rfl⟩ := h
      obtain ⟨hquiet, hdirty⟩ := moveToLruHead_quiet s e.pagePtr
      rw [if_neg hne, if_neg fun he => hne he.1]
      exact ⟨⟨hquiet.size, fun i hi => hdirty i ▸ hi, by simp [hquiet.store],
        fun _ => by rw [hquiet.store]⟩, rfl⟩
  | none =>
      have hnil : s.entries key = [] := by
        rw [hl, Option.map_none] at hhead
        exact List.head?_eq_none_iff.mp hhead.symm
      simp only [hl] at h
      obtain ⟨⟨s₁, pg₁⟩, halloc, h⟩ := bind_eq_ok.mp h
      obtain ⟨s₂, hread, h⟩ := bind_eq_ok.mp h
      obtain ⟨s₃, hadd, h⟩ := bind_eq_ok.mp h
      simp only [pure, Except.pure, Except.ok.injEq, Prod.mk.injEq] at h
      obtain ⟨rfl, rfl⟩ := h
      obtain ⟨hlen, -, hsize, -, hstore, hnamed, hdirty⟩ := allocPage_ok halloc
      obtain ⟨hquiet, hdirty'⟩ := addToLruHead_ok hadd
      simp only [readPio, submitPage, State.setPage, Function.update_self, Except.ok.injEq] at hread
      subst hread
      have himages := images_length fun i hi => (hnamed i hi).1
      rw [if_pos hnil]
      refine ⟨⟨hquiet.size.trans hsize, fun i hi => ?_, ?_, fun hmade => ?_⟩, ?_⟩
      · rw [hdirty'] at hi
        refine hdirty i ?_
        by_cases hpg : i = pg₁
        · simpa [State.dirty, State.setFrame, hpg, lru_flag] using hi
        · simpa [State.dirty, State.setFrame, hpg] using hi
      · rw [hquiet.store, ← foldl_pageOut_writes, ← hstore]
        exact submitPio_read_writes _ _ _ _
      · have hnone : s.victims = [] := by
          rw [← List.length_eq_zero_iff, ← himages, hmade, List.length_nil]
        rw [hquiet.store]
        refine (submitPio_read_pages _ _ _ _).trans ?_
        rw [hstore, hnone]
        rfl
      · rw [himages]
        simpa [hnil] using hlen

theorem ureadPage_roomy (hN : 2 ≤ s.cacheSize) (h : ureadPage key.1 s key.2 = .ok (s', pg)) :
    (s.spared key).filterMap s.imageAt = [] ↔ Roomy (.read key) s := by
  rw [← List.length_eq_zero_iff, (ureadPage_ok h).2]
  unfold Roomy
  by_cases hmiss : s.entries key = [] ∧ s.freeList.nrFree = 0
  · rw [if_pos hmiss]
    exact ⟨fun h0 => by omega, fun hr => absurd hmiss.2 (hr hmiss.1)⟩
  · rw [if_neg hmiss]
    exact ⟨fun _ he h0 => hmiss ⟨he, h0⟩, fun _ => rfl⟩

end Pages

section Calls

variable {s s' : State} {c : Call} {cacheSize : Nat} {x : Reading}

-- A call that only reads writes nothing exactly when none of its pages needs an eviction.
theorem Call.read_effect (hN : 2 ≤ s.cacheSize) (hc : c.reads) (hact : c.act s = .ok s') :
    ∃ made, ReadEffect s s' made ∧ (made = [] ↔ c.Through Roomy s) := by
  cases c with
  | uwrite => exact hc.elim
  | uread stream buffer size count first =>
      obtain ⟨⟨s₁, buffer', n⟩, heq, hr⟩ := bind_eq_ok.mp hact
      obtain rfl : s₁ = s' := Except.ok.inj hr
      unfold Call.Through
      obtain ⟨hsize, ⟨hfit, hlen⟩ | ⟨hlong, n', hby⟩⟩ := uread_cases heq
      · generalize hn : readCount (dataLen size count) = n
        -- The pages so far have written nothing and what is left to decide are those to come.
        obtain ⟨s₂, b₂, n₂, heq', ⟨made, heffect, hmade⟩, -⟩ := uread_rule (Q := fun _ _ => True) hsize
          hfit hlen (uread_returns heq hlen)
          (P := fun k t => ∃ made, ReadEffect s t made ∧
            (System.Along PageStep.act Roomy ((List.range' 0 (n - 0)).map fun k =>
              .read (pageKey stream k)) s ↔ made = [] ∧ System.Along PageStep.act Roomy
                ((List.range' k (n - k)).map fun k => .read (pageKey stream k)) t))
          ⟨[], ⟨rfl, fun _ hi => hi, (List.append_nil _).symm, fun _ => rfl⟩, by simp⟩
          (fun k hk t ⟨made, he, hmade⟩ ⟨t', hstep⟩ => by
            obtain ⟨⟨t₁, pg⟩, hpage, hr⟩ := bind_eq_ok.mp hstep
            obtain rfl : t₁ = t' := Except.ok.inj hr
            refine ⟨t₁, pg, hpage, trivial, _, he.trans (ureadPage_ok hpage).1, ?_⟩
            rw [hmade, System.along_range' (hn ▸ hk) hstep, List.append_eq_nil_iff,
              ureadPage_roomy (he.size.symm ▸ hN) hpage, and_assoc])
        obtain rfl : s₂ = s₁ := congrArg Prod.fst (Except.ok.inj (heq'.symm.trans heq))
        refine ⟨made, heffect, ?_⟩
        rw [steps_uread hfit, hn, List.range_eq_range']
        rw [hn, Nat.sub_self, List.range'_zero, List.map_nil] at hmade
        exact (hmade.trans (and_iff_left trivial)).symm
      · obtain ⟨d, b₂, hby', ⟨hwrites, hpages⟩, -⟩ := bypassRead_rule s stream buffer
          (P := fun _ d => d.writes = s.store.writes ∧ d.pages = s.store.pages) (Q := fun _ _ => True)
          ⟨rfl, rfl⟩ (long_of_bypass (by omega) hlong)
          (fun _ _ d frame hd => ⟨trivial, (submitPio_read_writes _ _ _ _).trans hd.1,
            (submitPio_read_pages _ _ _ _).trans hd.2⟩)
        obtain rfl := congrArg Prod.fst (Except.ok.inj (hby'.symm.trans hby))
        refine ⟨[], ⟨rfl, fun _ hi => hi, by simp [hwrites], fun _ => hpages⟩, iff_of_true rfl ?_⟩
        rw [show (Call.uread stream buffer size count first).steps s.cacheSize = [] from if_pos hlong]
        trivial

theorem readings_act {x' : Reading} (h : (readings cacheSize).act c x = .ok x') :
    c.act x.state = .ok x'.state ∧ x'.before = x.before := by
  obtain ⟨s', hact, hr⟩ := bind_eq_ok.mp h
  obtain rfl := Except.ok.inj hr
  exact ⟨hact, rfl⟩

-- Reading marks no page.
theorem clean_of_reachable {allowed : Call → Reading → Prop} (hN : 2 ≤ cacheSize)
    (h : (readings cacheSize).Reachable allowed x) : x.state.Clean ∧ x.state.cacheSize = cacheSize := by
  refine h.invariant (I := fun x => x.state.Clean ∧ x.state.cacheSize = cacheSize)
    (fun x hx => ⟨hx.1, hx.2.1⟩) (fun x x' c hx hc _ hact => ?_)
  obtain ⟨made, heffect, -⟩ := Call.read_effect (hx.2.symm ▸ hN) hc (readings_act hact).1
  refine ⟨fun i => ?_, heffect.size.trans hx.2⟩
  by_contra hd
  exact absurd (heffect.dirty i (by simpa using hd)) (by simp [hx.1 i])

end Calls

-- From any state without dirty pages, a run of reads none of whose pages needs an eviction
-- writes nothing, and a read whose pages need one does write.
theorem reads_write_nothing {x : Reading} {cacheSize : Nat} (hN : 2 ≤ cacheSize)
    (h : (readings cacheSize).Reachable Sparing x) :
    x.state.Clean ∧ x.state.store.writes = x.before.writes ∧ x.state.store.pages = x.before.pages ∧
    ∀ c s', c.reads → c.act x.state = .ok s' →
      (s'.store.writes = x.state.store.writes ↔ Sparing c x) := by
  obtain ⟨hclean, hsize⟩ := clean_of_reachable hN h
  have hsame : (2 ≤ x.state.cacheSize) ∧ x.state.store.writes = x.before.writes ∧
      x.state.store.pages = x.before.pages := by
    refine h.invariant (I := fun x => 2 ≤ x.state.cacheSize ∧ x.state.store.writes = x.before.writes ∧
      x.state.store.pages = x.before.pages) (fun x hx => ?_) (fun x x' c hx hc hs hact => ?_)
    · rw [hx.2.2]
      exact ⟨hx.2.1.symm ▸ hN, rfl, rfl⟩
    · obtain ⟨hact, hbefore⟩ := readings_act hact
      obtain ⟨made, heffect, hmade⟩ := Call.read_effect hx.1 hc hact
      obtain rfl := hmade.mpr hs
      rw [heffect.size, heffect.writes, heffect.pages rfl, hbefore, List.append_nil]
      exact hx
  refine ⟨hclean, hsame.2.1, hsame.2.2, fun c s' hc hact => ?_⟩
  obtain ⟨made, heffect, hmade⟩ := Call.read_effect hsame.1 hc hact
  rw [heffect.writes]
  exact List.append_right_eq_self.trans hmade

theorem initPageCache_clean (cacheSize : Nat) (store : Store) :
    (initPageCache cacheSize store).Clean := by
  have push : ∀ (pages : List Nat) (s : State) (i : Nat),
      (pages.foldl pushFree s).dirty i = s.dirty i := by
    intro pages
    induction pages with
    | nil => exact fun s i => rfl
    | cons pg rest ih =>
        intro s i
        rw [List.foldl_cons, ih]
        simp [pushFree, setNext_eq, State.dirty]
  exact fun i => (push (List.range cacheSize) _ i).trans (by simp [State.dirty, zeroPage])

section Runs

def Reading.boot : Reading := ⟨initPageCache 2 emptyStore, emptyStore⟩

theorem readingBoot_start : (readings 2).start Reading.boot := by
  obtain ⟨-, hsize, hstore, -⟩ := initPageCache_spec 2 emptyStore
  exact ⟨initPageCache_clean 2 emptyStore, hsize, hstore.symm⟩

theorem reads_write_nothing_readRun : ∃ x : Reading, x.state.freeList.nrFree = 0 ∧
    x.state.store.log.length = 2 ∧ x.state.store.writes = x.before.writes := by
  obtain ⟨x, hx, hp⟩ := (System.Reachable.start
    (S := (readings 2).restrict Sparing) readingBoot_start).exists_run (fun _ _ _ => trivial)
    (show _ = true from (by decide +kernel : (((readings 2).restrict Sparing).run Reading.boot
      [pageRead 0, pageRead 1, pageRead 0]).any (fun x => x.state.freeList.nrFree == 0 &&
        x.state.store.log.length == 2) = true))
  simp only [Bool.and_eq_true, beq_iff_eq] at hp
  exact ⟨x, hp.1, hp.2, (reads_write_nothing (by decide) hx.of_restrict).2.1⟩

-- The third page that is read evicts the first, which is not dirty.
theorem read_run_writes : ∃ x : Reading, (readings 2).Reachable System.Always x ∧ x.state.Clean ∧
    x.before.writes = [] ∧ x.state.store.writes.length = 1 := by
  obtain ⟨x, hx, hp⟩ := (System.Reachable.start readingBoot_start).exists_run (fun _ _ _ => trivial)
    (show _ = true from (by decide +kernel : ((readings 2).run Reading.boot
      [pageRead 0, pageRead 1, pageRead 2]).any (fun x => x.before.writes.isEmpty &&
        x.state.store.writes.length == 1) = true))
  simp only [Bool.and_eq_true, beq_iff_eq, List.isEmpty_iff] at hp
  exact ⟨x, hx, (clean_of_reachable (by decide) hx).1, hp.1, hp.2⟩

end Runs

end UserPageCache.PageCache
