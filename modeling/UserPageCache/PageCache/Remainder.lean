import UserPageCache.PageCache.ReadYourWrites

namespace UserPageCache.PageCache

variable {cacheSize : Nat} {x : Session} {s s' : State} {key : Key}

-- The page that a read of the key now finds, and that its eviction would write, holds from
-- `used` on what the key held in `s`.
def RestKept (s s' : State) (key : Key) (used : Nat) : Prop :=
  ∃ pg frame s'', s'.imageAt pg = some (key, frame) ∧ ureadPage key.1 s' key.2 = .ok (s'', pg) ∧
    s''.physBase pg = frame ∧ ∀ j : Fin PAGE_SIZE, used ≤ j → frame j = s.view key j

section LastPage

variable {f : Files} {stream : UFile} {buffer : Nat → UInt8} {len pg : Nat} {lru free : List Nat}

theorem Coherent.newest (h : Coherent cacheSize s lru free) (hpg : (s.entries key).head? = some pg) :
    s.imageAt pg = some (key, s.view key) ∧
      ∃ s', PageCache.ureadPage key.1 s key.2 = .ok (s', pg) ∧ s'.physBase pg = s.view key := by
  obtain ⟨rest, he⟩ := List.head?_eq_some_iff.mp hpg
  have hk : s.keyAt pg = some key := (h.tracked.mem.mp (he ▸ List.mem_cons_self)).2
  have hview := view_cached he
  obtain ⟨-, hquiet, -, -⟩ := h.tracked.hit he
  refine ⟨?_, moveToLruHead s pg, ureadPage_hit he, ?_⟩
  · unfold State.imageAt
    rw [hk, hview]
    rfl
  · rw [hquiet.phys, hview]

-- Before its last page a write has not touched that page.
theorem LastPage.untouched {s₀ : State} (h : LastPage f stream buffer len s s₀ s' pg)
    (hview : s.view = f.pages) (ha : stream.ioOffset % PAGE_SIZE = 0)
    (hkey : pageKey stream (writeCount len - 1) =
      (stream.pathName, stream.ioOffset / PAGE_SIZE + (writeCount len - 1))) :
    s₀.view (pageKey stream (writeCount len - 1)) = s.view (pageKey stream (writeCount len - 1)) := by
  rw [h.before, hview, hkey]
  funext j
  have hj := j.isLt
  simp only [Files.pages, Files.write, Bytes.chunk, Bytes.write, Function.update_self]
  unfold PAGE_SIZE at *
  rw [if_neg (by omega)]

theorem LastPage.rest_kept {s₀ : State} (h : LastPage f stream buffer len s s₀ s' pg)
    (hc : Coherent cacheSize s' lru free)
    (hsame : s₀.view (pageKey stream (writeCount len - 1)) =
      s.view (pageKey stream (writeCount len - 1))) :
    RestKept s s' (pageKey stream (writeCount len - 1)) (len - (writeCount len - 1) * PAGE_SIZE) ↔
      Padded (writeStep stream buffer len (writeCount len - 1)) s₀ := by
  obtain ⟨himage, s'', hread, hframe⟩ := hc.newest h.cached
  have hafter : s'.view (pageKey stream (writeCount len - 1)) = _ :=
    (congrFun h.after _).trans (Function.update_self _ _ _)
  unfold writeStep
  rw [padded_write h.fresh, hsame]
  constructor
  · rintro ⟨pg', frame, s₁, -, hread', rfl, hrest⟩ j hj
    obtain ⟨rfl, rfl⟩ : s'' = s₁ ∧ pg = pg' := by
      simpa using Except.ok.inj (hread.symm.trans hread')
    have hlt := j.isLt
    rw [← hrest j (by omega), hframe, hafter]
    exact (if_neg (by omega)).symm
  · intro hpad
    refine ⟨pg, _, s'', himage, hread, hframe, fun j hj => ?_⟩
    rw [hafter, ← hpad j (by omega)]
    exact if_neg (by omega)

end LastPage

-- In every run in which no write uncovers what the memory it takes held before, every page's
-- eviction and every read give what was written over what was there. A write keeps the rest of
-- its last page exactly when it uncovers nothing.
theorem rest_of_page_kept (hN : 2 ≤ cacheSize) (h : (sessions cacheSize).Reachable Sealed x) :
    (∀ key pg, (x.state.entries key).head? = some pg →
      x.state.imageAt pg = some (key, x.files.pages key)) ∧
    (∀ stream buffer size count first,
      (sessions cacheSize).enabled (.uread stream buffer size count first) x →
      Sound (.uread stream buffer size count first) x →
      ∃ s' buffer' n, uread x.state buffer size count stream first = .ok (s', buffer', n) ∧
        ∀ i < size * count, buffer' i = x.files stream.pathName (stream.ioOffset + i)) ∧
    ∀ stream buffer size count, (sessions cacheSize).enabled (.uwrite stream buffer size count) x →
      stream.mode &&& U_OWRITE ≠ 0 → Sound (.uwrite stream buffer size count) x →
      ∃ s', uwrite x.state buffer size count stream = .ok (s', count) ∧
        (RestKept x.state s' (pageKey stream (writeCount (size * count) - 1))
          (size * count - (writeCount (size * count) - 1) * PAGE_SIZE) ↔
        (Call.uwrite stream buffer size count).Through Padded x.state) := by
  obtain ⟨⟨lru, free, hc⟩, hview⟩ := refines_of_reachable hN h
  refine ⟨fun key pg hpg => ?_, fun stream buffer size count first he hs => ?_,
    fun stream buffer size count he hmode hs => ?_⟩
  · rw [← hview]
    exact (hc.newest hpg).1
  · obtain ⟨s', buffer', n, -, heq, -, hbytes, -⟩ :=
      hc.uread hN hview he.1 he.2 hs.1 buffer first hs.2
    exact ⟨s', buffer', _, heq, hbytes⟩
  · obtain ⟨s', s₀, pg, ⟨lru', free', hc'⟩, heq, hlast⟩ :=
      hc.uwrite hN hview hmode he.1 he.2 hs.1 hs.2
    have hkey := last_pageKey hs.1
    refine ⟨s', heq, (hlast.rest_kept hc' (hlast.untouched hview he.1 hkey)).trans ?_⟩
    have hfit := dataPages_le hs.1 (hc.size.symm ▸ he.2)
    unfold Call.Through
    rw [steps_uwrite hmode hfit, show dataLen size count = size * count from dataLen_eq hs.1]
    exact hlast.padded.symm

section Runs

-- One byte at the start of the first page.
def firstByte : Call := .uwrite (streamA 0) (fun _ => 2) 1 1

theorem rest_of_page_kept_rewritten : ∃ (x : Session) (s' : State), x.files fileA 1 = 1 ∧
    uwrite x.state (fun _ => 2) 1 1 (streamA 0) = .ok (s', 1) ∧
    (RestKept x.state s' (pageKey (streamA 0) 0) 1 ↔ firstByte.Through Padded x.state) := by
  obtain ⟨x, hx, hp⟩ := (System.Reachable.start
    (S := ((sessions 2).restrict WholePages).restrict Sound) sessionBoot_start).exists_run
    (fun _ _ _ => trivial)
    (show _ = true from (by decide +kernel : ((((sessions 2).restrict WholePages).restrict
      Sound).run Session.boot [pageWrite 0 1]).any
        (fun x => x.files fileA 1 == 1 && decide ((sessions 2).enabled firstByte x) &&
          decide (Sound firstByte x)) = true))
  simp only [Bool.and_eq_true, beq_iff_eq, decide_eq_true_eq] at hp
  obtain ⟨s', heq, hrest⟩ := (rest_of_page_kept (by decide) (sealed_of_whole hx.of_restrict)).2.2
    _ _ _ _ hp.1.2 (by decide) hp.2
  exact ⟨x, s', hp.1.1, heq, hrest⟩

theorem one_lt_page : 1 < PAGE_SIZE := by decide

-- What a read of the page finds behind that byte.
def restRead (s : State) : Option UInt8 :=
  match ureadPage fileA s 0 with
  | .ok (s', pg) => some (s'.physBase pg ⟨1, one_lt_page⟩)
  | .error _ => none

def restCleared (x : Session) : Bool :=
  match uwrite x.state (fun _ => 2) 1 1 (streamA 0) with
  | .ok (s', n) => n == 1 && restRead s' == some 0
  | .error _ => false

-- A page of ones is written, then its first byte, which takes a page of zeros.
theorem byte_write_clears_rest : ∃ (x : Session) (s' : State), x.files fileA 1 = 1 ∧
    (sessions 2).Reachable System.Always x ∧
    uwrite x.state (fun _ => 2) 1 1 (streamA 0) = .ok (s', 1) ∧
    ¬ RestKept x.state s' (fileA, 0) 1 := by
  obtain ⟨x, hx, hp⟩ := (System.Reachable.start sessionBoot_start).exists_run
    (fun _ _ _ => trivial)
    (show _ = true from (by decide +kernel : ((sessions 2).run Session.boot
      [pageWrite 0 1]).any (fun x => x.files fileA 1 == 1 &&
        x.state.view (fileA, 0) ⟨1, one_lt_page⟩ == 1 && restCleared x) = true))
  unfold restCleared at hp
  cases heq : uwrite x.state (fun _ => 2) 1 1 (streamA 0) with
  | error fault => simp [heq] at hp
  | ok r =>
      obtain ⟨s', n⟩ := r
      rw [heq] at hp
      simp only [Bool.and_eq_true, beq_iff_eq] at hp
      obtain ⟨⟨hfile, hview⟩, rfl, hread⟩ := hp
      refine ⟨x, s', hfile, hx, heq, fun ⟨pg, frame, s'', _, hpage, hframe, hrest⟩ => ?_⟩
      have hone := hrest ⟨1, one_lt_page⟩ (Nat.le_refl 1)
      have hpage' : ureadPage fileA s' 0 = .ok (s'', pg) := hpage
      unfold restRead at hread
      rw [hpage'] at hread
      simp only [Option.some.injEq] at hread
      rw [← hframe, hread, hview] at hone
      exact absurd hone (by decide)

end Runs

end UserPageCache.PageCache
