import UserPageCache.PageCache.Eviction
import UserPageCache.PageCache.Remainder

namespace UserPageCache.PageCache

-- The pio that writes a page back, as the store notes it down.
def State.pioOf (s : State) (i : Nat) (accepted : Bool) : Option Submission :=
  (s.keyAt i).map fun key => ⟨.write, key.1, key.2, s.physBase i, accepted⟩

-- Every dirty page that would be evicted now will be accepted by the store.
def Delivered (s : State) : Prop :=
  ∀ e ∈ s.victims.zipIdx, s.dirty e.1 = true → s.store.answers (s.store.log.length + e.2) = true

instance (s : State) : Decidable (Delivered s) := inferInstanceAs (Decidable (∀ e ∈ _, _))

-- What an eviction should do: a dirty page whose pio is refused stays and can still be read.
def Careful (s s' : State) : Prop :=
  ∀ e ∈ s.victims.zipIdx, ∀ key, s.dirty e.1 = true → s.keyAt e.1 = some key →
    s'.store.log[s.store.log.length + e.2]? = s.pioOf e.1 true ∨ s'.keyAt e.1 = some key ∧
      ∃ s'' pg, ureadPage key.1 s' key.2 = .ok (s'', pg) ∧ s''.physBase pg = s.physBase e.1

-- The dirty pages that an eviction took off the list although their pio was refused.
def State.losses (s s' : State) : List Image :=
  s.victims.zipIdx.filterMap fun e =>
    if s.dirty e.1 && s'.keyAt e.1 != s.keyAt e.1 &&
      !(s'.store.log[s.store.log.length + e.2]?).any (·.accepted) then s.imageAt e.1
    else none

-- A page that is already cached needs no fresh one.
def PageStep.allocates : PageStep → State → Bool
  | .write .., _ => true
  | .read key, s => (s.entries key).isEmpty

def PageStep.losses (step : PageStep) (s : State) : List Image :=
  if step.allocates s then
    match allocPage s with
    | .ok (s', _) => s.losses s'
    | .error _ => []
  else []

def lossesOf : List PageStep → State → List Image
  | [], _ => []
  | step :: rest, s => step.losses s ++
    match step.act s with
    | .ok s' => lossesOf rest s'
    | .error _ => []

-- The page cache over a store that may refuse any pio, with all that was lost.
structure Evicting where
  state : State
  lost : List Image

def evictions (cacheSize : Nat) : System Evicting Call Fault where
  start x := (∃ store, x.state = initPageCache cacheSize store) ∧ x.lost = []
  enabled _ _ := True
  act c x := do
    return ⟨← c.act x.state, x.lost ++ lossesOf (c.steps x.state.cacheSize) x.state⟩

instance (cacheSize : Nat) (c : Call) (x : Evicting) :
    Decidable ((evictions cacheSize).enabled c x) := .isTrue trivial

def Delivering (c : Call) (x : Evicting) : Prop :=
  c.Through (fun step s => step.allocates s = true → Delivered s) x.state

instance (c : Call) (x : Evicting) : Decidable (Delivering c x) :=
  inferInstanceAs (Decidable (c.Through _ x.state))

section Log

variable {s s' : State} {pg i k : Nat} {key : Key} {pages : List Nat}

theorem submitPio_log (d : Store) (operation : SsdCache.Operate) (pathName : CString) (index : Nat)
    (frame : Frame) : (submitPio d operation pathName index frame).1.log =
      d.log ++ [⟨operation, pathName, index, frame, d.answers d.log.length⟩] := by
  unfold submitPio
  cases operation <;> cases d.answers d.log.length <;> rfl

theorem pageOut_log (hk : s.keyAt pg ≠ none) (d : Store) :
    (pageOut s d pg).log.length = d.log.length + 1 ∧
      (pageOut s d pg).log[d.log.length]? = s.pioOf pg (d.answers d.log.length) := by
  obtain ⟨key, hkey⟩ := Option.ne_none_iff_exists'.mp hk
  unfold State.pioOf
  rw [pageOut_named hkey, submitPio_log, hkey]
  simp

theorem foldl_pageOut_prefix (hk : ∀ i ∈ pages, s.keyAt i ≠ none) (d : Store) :
    d.log <+: (pages.foldl (pageOut s) d).log := by
  induction pages generalizing d with
  | nil => exact List.prefix_refl _
  | cons pg rest ih =>
      obtain ⟨key, hkey⟩ := Option.ne_none_iff_exists'.mp (hk pg List.mem_cons_self)
      have hpg : d.log <+: (pageOut s d pg).log := by
        rw [pageOut_named hkey, submitPio_log]
        exact List.prefix_append _ _
      exact hpg.trans (ih (fun i hi => hk i (List.mem_cons_of_mem _ hi)) _)

-- The k-th page written back is the k-th new entry of the log, with the answer it got.
theorem foldl_pageOut_log (hk : ∀ i ∈ pages, s.keyAt i ≠ none) (d : Store) (hi : pages[k]? = some i) :
    (pages.foldl (pageOut s) d).log[d.log.length + k]? =
      s.pioOf i (d.answers (d.log.length + k)) := by
  induction pages generalizing d k with
  | nil => simp at hi
  | cons pg rest ih =>
      have hrest : ∀ i ∈ rest, s.keyAt i ≠ none := fun i hi => hk i (List.mem_cons_of_mem _ hi)
      obtain ⟨hlen, hlast⟩ := pageOut_log (hk pg List.mem_cons_self) d
      cases k with
      | zero =>
          obtain rfl : pg = i := by simpa using hi
          obtain ⟨more, hmore⟩ := foldl_pageOut_prefix hrest (pageOut s d pg)
          rw [List.foldl_cons, ← hmore, Nat.add_zero, List.getElem?_append_left (by omega), hlast]
      | succ k =>
          have hnext := ih hrest (pageOut s d pg) (by simpa using hi)
          rw [hlen, pageOut_answers, Nat.add_right_comm, Nat.add_assoc] at hnext
          exact hnext

end Log

section Evictions

variable {s s' : State} {pg : Nat}

-- Each victim is gone and the log has the answer to its pio.
theorem allocPage_log (h : allocPage s = .ok (s', pg)) {e : Nat × Nat} (he : e ∈ s.victims.zipIdx) :
    (s.keyAt e.1 ≠ none ∧ s'.keyAt e.1 = none) ∧ s'.store.log[s.store.log.length + e.2]? =
      s.pioOf e.1 (s.store.answers (s.store.log.length + e.2)) := by
  obtain ⟨-, -, -, -, hstore, hnamed, -⟩ := allocPage_ok h
  have hi := List.mk_mem_zipIdx_iff_getElem?.mp he
  refine ⟨hnamed e.1 (List.mem_of_getElem? hi), ?_⟩
  rw [hstore]
  exact foldl_pageOut_log (fun i hi => (hnamed i hi).1) s.store hi

-- An eviction is careful exactly when none of its dirty pages is refused.
theorem careful_iff (h : allocPage s = .ok (s', pg)) : Careful s s' ↔ Delivered s := by
  refine forall_congr' fun e => forall_congr' fun he => ?_
  obtain ⟨⟨hnamed, hgone⟩, hlog⟩ := allocPage_log h he
  obtain ⟨key, hkey⟩ := Option.ne_none_iff_exists'.mp hnamed
  refine ⟨fun hc hdirty => ?_, fun hd key' hdirty _ => .inl ?_⟩
  · rcases hc key hdirty hkey with heq | ⟨hstay, -⟩
    · rw [hlog] at heq
      simpa [State.pioOf, hkey] using heq
    · rw [hgone] at hstay
      exact absurd hstay (by simp)
  · rw [hlog, hd hdirty]

theorem Delivered.losses (h : Delivered s) (halloc : allocPage s = .ok (s', pg)) :
    s.losses s' = [] := by
  refine List.filterMap_eq_nil_iff.mpr fun e he => ?_
  obtain ⟨⟨hnamed, -⟩, hlog⟩ := allocPage_log halloc he
  obtain ⟨key, hkey⟩ := Option.ne_none_iff_exists'.mp hnamed
  by_cases hdirty : s.dirty e.1 = true
  · rw [hlog, h e he hdirty]
    simp [State.pioOf, hkey]
  · simp [hdirty]

theorem lossesOf_nil {steps : List PageStep}
    (h : System.Along PageStep.act (fun step s => step.allocates s = true → Delivered s) steps s) :
    lossesOf steps s = [] := by
  induction steps generalizing s with
  | nil => rfl
  | cons step rest ih =>
      have hnone : step.losses s = [] := by
        unfold PageStep.losses
        by_cases ha : step.allocates s = true
        · rw [if_pos ha]
          cases halloc : allocPage s with
          | error fault => rfl
          | ok r => exact (h.1 ha).losses halloc
        · rw [if_neg ha]
      rw [lossesOf, hnone, List.nil_append]
      cases hact : step.act s with
      | ok s' => exact ih (h.next hact)
      | error fault => rfl

end Evictions

-- Runs in which the store always accepts the dirty pages that are evicted lose nothing, and
-- an eviction in any state is careful exactly when it does.
theorem dirty_pages_leave_written {cacheSize : Nat} {x : Evicting}
    (h : (evictions cacheSize).Reachable Delivering x) : x.lost = [] ∧
      ∀ (s s' : State) (pg : Nat), allocPage s = .ok (s', pg) → (Careful s s' ↔ Delivered s) := by
  refine ⟨?_, fun s s' pg h => careful_iff h⟩
  refine h.invariant (I := fun x => x.lost = []) (fun x hx => hx.2) (fun x x' c hx _ hd hact => ?_)
  obtain ⟨s', -, hr⟩ := bind_eq_ok.mp hact
  obtain rfl := Except.ok.inj hr
  rw [hx, List.nil_append]
  exact lossesOf_nil hd

section Runs

-- A store that refuses the first pio.
def refusingStore : Store := { emptyStore with answers := fun n => n != 0 }

def Evicting.boot (store : Store) : Evicting := ⟨initPageCache 2 store, []⟩

theorem evictingBoot_start (store : Store) : (evictions 2).start (Evicting.boot store) :=
  ⟨⟨store, rfl⟩, rfl⟩

-- The page that an eviction now takes first, and what a read of it finds afterwards.
def rereadByte (s : State) : Option UInt8 :=
  match allocPage s with
  | .ok (s', _) =>
    match ureadPage fileA s' 0 with
    | .ok (s'', pg) => some (s''.physBase pg ⟨1, one_lt_page⟩)
    | .error _ => none
  | .error _ => none

theorem dirty_pages_leave_written_accepted : ∃ (x : Evicting) (s' : State) (pg : Nat),
    x.lost = [] ∧ x.state.victims = [1] ∧ x.state.dirty 1 = true ∧
    allocPage x.state = .ok (s', pg) ∧ Careful x.state s' := by
  obtain ⟨x, hx, hp⟩ := (System.Reachable.start (S := (evictions 2).restrict Delivering)
    (evictingBoot_start emptyStore)).exists_run (fun _ _ _ => trivial)
    (show _ = true from (by decide +kernel : (((evictions 2).restrict Delivering).run
      (Evicting.boot emptyStore) [pageWrite 0 1, pageWrite 1 2]).any (fun x =>
        x.state.victims == [1] && x.state.dirty 1 && decide (Delivered x.state) &&
        (rereadByte x.state).isSome) = true))
  simp only [Bool.and_eq_true, beq_iff_eq, decide_eq_true_eq] at hp
  obtain ⟨⟨⟨hvictims, hdirty⟩, hd⟩, hsome⟩ := hp
  obtain ⟨hlost, hcareful⟩ := dirty_pages_leave_written hx.of_restrict
  unfold rereadByte at hsome
  cases halloc : allocPage x.state with
  | error fault => simp [halloc] at hsome
  | ok r =>
      obtain ⟨s', pg⟩ := r
      exact ⟨x, s', pg, hlost, hvictims, hdirty, halloc, (hcareful _ _ _ halloc).mpr hd⟩

-- The first page is refused and gone all the same; a read then finds the store's old bytes.
theorem refused_page_lost : ∃ (x : Evicting) (s' : State) (pg : Nat),
    (evictions 2).Reachable System.Always x ∧ x.state.victims = [1] ∧ x.state.dirty 1 = true ∧
    x.state.keyAt 1 = some (fileA, 0) ∧ allocPage x.state = .ok (s', pg) ∧ ¬ Careful x.state s' ∧
    ∃ s'' pg', ureadPage fileA s' 0 = .ok (s'', pg') ∧ s''.physBase pg' ≠ x.state.physBase 1 := by
  obtain ⟨x, hx, hp⟩ := (System.Reachable.start (evictingBoot_start refusingStore)).exists_run
    (fun _ _ _ => trivial)
    (show _ = true from (by decide +kernel : ((evictions 2).run (Evicting.boot refusingStore)
      [pageWrite 0 1, pageWrite 1 2]).any (fun x => x.state.victims == [1] && x.state.dirty 1 &&
        x.state.keyAt 1 == some (fileA, 0) && !decide (Delivered x.state) &&
        x.state.physBase 1 ⟨1, one_lt_page⟩ == 1 && rereadByte x.state == some 0) = true))
  simp only [Bool.and_eq_true, beq_iff_eq, Bool.not_eq_true', decide_eq_false_iff_not] at hp
  obtain ⟨⟨⟨⟨⟨hvictims, hdirty⟩, hkey⟩, hd⟩, hone⟩, hread⟩ := hp
  unfold rereadByte at hread
  cases halloc : allocPage x.state with
  | error fault => simp [halloc] at hread
  | ok r =>
      obtain ⟨s', pg⟩ := r
      rw [halloc] at hread
      cases hpage : ureadPage fileA s' 0 with
      | error fault => simp [hpage] at hread
      | ok r' =>
          obtain ⟨s'', pg'⟩ := r'
          simp only [hpage, Option.some.injEq] at hread
          refine ⟨x, s', pg, hx, hvictims, hdirty, hkey, halloc,
            fun hc => hd ((careful_iff halloc).mp hc), s'', pg', hpage, fun he => ?_⟩
          rw [he, hone] at hread
          exact absurd hread (by decide)

end Runs

end UserPageCache.PageCache
