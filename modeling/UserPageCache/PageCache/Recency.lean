import UserPageCache.Lib.System
import UserPageCache.PageCache.Paging.Theorems

namespace UserPageCache.PageCache

open Linked

-- The calls that change the LRU list, with the pages on it, the one used last first.
structure Recency where
  state : State
  recent : List Nat

-- A page gets its key before it is linked.
inductive ListCall where
  | addToLruHead (pg : Nat) (key : Key)
  | moveToLruHead (pg : Nat)
  | removeFromLru (pg : Nat)

namespace Recency

def act : ListCall → Recency → Except Fault Recency
  | .addToLruHead pg key, ⟨s, recent⟩ => do
    let s := s.setPage pg fun x => { x with pathName := some key.1, index := key.2 }
    return ⟨← addToLruHead s pg, pg :: recent⟩
  | .moveToLruHead pg, ⟨s, recent⟩ => return ⟨moveToLruHead s pg, pg :: recent.erase pg⟩
  | .removeFromLru pg, ⟨s, recent⟩ => return ⟨← removeFromLru s pg, recent.erase pg⟩

def enabled : ListCall → Recency → Bool
  | .addToLruHead pg _, s => !s.recent.contains pg && (s.state.prev pg).isNone
  | .moveToLruHead pg, s => s.recent.contains pg
  | .removeFromLru pg, s => s.recent.contains pg

-- The pages met from the head and from the tail are the recent ones in their order.
def Ordered (s : Recency) : Prop :=
  DList s.state.next s.state.prev s.state.lruList.head s.state.lruList.tail s.recent

-- A move to the head is a move of the head.
def Still : ListCall → Recency → Prop
  | .moveToLruHead pg, s => s.state.lruList.head = some pg
  | _, _ => True

instance (c : ListCall) (s : Recency) : Decidable (Still c s) := by
  cases c <;> unfold Still <;> infer_instance

end Recency

def recency : System Recency ListCall Fault where
  start s := s.recent = [] ∧ s.state.lruList = ⟨none, none⟩ ∧ s.state.hashTable = fun _ => []
  enabled c s := s.enabled c = true
  act := Recency.act

instance (c : ListCall) (s : Recency) : Decidable (recency.enabled c s) :=
  inferInstanceAs (Decidable (s.enabled c = true))

variable {s s' : State} {l left right : List Nat} {pg i : Nat} {key : Key}

section Links

variable {r r' : Recency} {c : ListCall}

-- What every call keeps of the hash table: each page on the list has its entry.
structure Recency.Hashed (r : Recency) : Prop where
  ordered : r.Ordered
  named : ∀ i ∈ r.recent, ∃ key, r.state.keyAt i = some key
  placed : Placed r.state
  counts : ∀ key, (r.state.entries key).length = r.state.holders r.recent key

theorem linkHead_dlist (h : DList s.next s.prev s.lruList.head s.lruList.tail l) (hpg : pg ∉ l)
    (hp : s.prev pg = none) :
    DList (linkHead s pg).next (linkHead s pg).prev (linkHead s pg).lruList.head
      (linkHead s pg).lruList.tail (pg :: l) := by
  have hpush := h.pushFront hpg
  have hhead : s.lruList.head ≠ some pg := by
    rw [h.head_eq]
    exact fun he => hpg (List.mem_of_head? he)
  have htail : s.lruList.head = none ↔ s.lruList.tail = none := by
    rw [h.head_eq, h.tail_eq]
    simp
  have heq : (linkHead s pg).lruList.tail =
      if s.lruList.head = none then some pg else s.lruList.tail := by
    change (if s.lruList.tail = none then _ else _) = _
    simp [htail]
  rw [heq]
  refine hpush.congr (fun i _ => rfl) (fun i _ => ?_)
  change (if s.lruList.head = some i then some pg else s.prev i) = _
  by_cases hi : i = pg
  · simp [hi, hp]
  · simp [hi]

theorem unlinkPage_dlist
    (h : DList s.next s.prev s.lruList.head s.lruList.tail (left ++ pg :: right)) :
    DList (unlinkPage s pg).next (unlinkPage s pg).prev (unlinkPage s pg).lruList.head
      (unlinkPage s pg).lruList.tail (left ++ right) := by
  have hn := List.nodup_append.mp h.nodup
  have hne : ∀ i ∈ left ++ right, i ≠ pg := by
    rintro i hi rfl
    rcases List.mem_append.mp hi with hi | hi
    · exact hn.2.2 i hi i List.mem_cons_self rfl
    · exact (List.nodup_cons.mp hn.2.1).1 hi
  refine h.unlink.congr (fun i hi => ?_) (fun i hi => ?_)
  · simp [State.next, State.prev, unlinkPage, hne i hi]
  · simp [State.next, State.prev, unlinkPage, hne i hi]

-- The page that was the head before does not learn of the page moved before it.
theorem move_breaks (h : DList s.next s.prev s.lruList.head s.lruList.tail (left ++ pg :: right))
    (hl : left ≠ []) :
    ¬ DList (moveToLruHead s pg).next (moveToLruHead s pg).prev (moveToLruHead s pg).lruList.head
      (moveToLruHead s pg).lruList.tail l := by
  obtain ⟨first, rest, rfl⟩ := List.exists_cons_of_ne_nil hl
  obtain ⟨p, hp⟩ := Option.ne_none_iff_exists'.mp (by simp : (first :: rest).getLast? ≠ none)
  have hprev : s.prev pg = some p := h.prev_eq.trans hp
  have hn := List.nodup_append.mp h.nodup
  have hne : p ≠ pg := hn.2.2 p (List.mem_of_getLast? hp) pg List.mem_cons_self
  have hfirst : first ≠ pg := hn.2.2 first List.mem_cons_self pg List.mem_cons_self
  have hnext : s.next pg ≠ some first := by
    rw [h.next_eq]
    intro he
    exact hn.2.2 first List.mem_cons_self first (List.mem_cons_of_mem _ (List.mem_of_head? he)) rfl
  have hnone : s.prev first = none := h.first.1
  intro hb
  rw [moveToLruHead_eq hprev hne] at hb
  -- The moved page leads to the page before which it was put, which leads back to nothing.
  have hhead : l.head? = some pg := hb.head_eq.symm
  obtain ⟨after, rfl⟩ := List.head?_eq_some_iff.mp hhead
  have hafter : s.lruList.head = after.head? := by
    simpa [State.next] using hb.first.2
  rw [h.head_eq] at hafter
  obtain ⟨others, rfl⟩ := List.head?_eq_some_iff.mp hafter.symm
  have hback := hb.second
  simp [State.prev, hfirst] at hback
  rw [if_neg hnext] at hback
  exact absurd (hnone.symm.trans hback) (by simp)

theorem Recency.Hashed.add (h : r.Hashed) (hpg : pg ∉ r.recent) (hp : r.state.prev pg = none) :
    ∃ r', act (.addToLruHead pg key) r = .ok r' ∧ r'.Hashed := by
  obtain ⟨s, recent⟩ := r
  generalize hs₁ : s.setPage pg (fun x => { x with pathName := some key.1, index := key.2 }) = s₁
  have hnext : s₁.next = s.next := by
    funext i
    subst hs₁
    by_cases hi : i = pg <;> simp [State.next, State.setPage, hi]
  have hprev : s₁.prev = s.prev := by
    funext i
    subst hs₁
    by_cases hi : i = pg <;> simp [State.prev, State.setPage, hi]
  have hkey : s₁.keyAt pg = some key := by
    subst hs₁
    simp [State.keyAt, State.setPage]
  have hother : ∀ i ∈ recent, s₁.keyAt i = s.keyAt i := fun i hi => by
    have hne : i ≠ pg := fun he => hpg (he ▸ hi)
    subst hs₁
    simp [State.keyAt, State.setPage, hne]
  have hsame : s₁.lruList = s.lruList ∧ Placed s₁ ∧ ∀ key', s₁.entries key' = s.entries key' := by
    subst hs₁
    exact ⟨rfl, h.placed.congr rfl rfl, fun key' => rfl⟩
  have hordered : DList s₁.next s₁.prev s₁.lruList.head s₁.lruList.tail recent := by
    rw [hnext, hprev, hsame.1]
    exact h.ordered
  obtain ⟨table, heq, hplaced, hentries⟩ := hashTableInsert_spec (s := linkHead s₁ pg) hkey
    (hsame.2.1.congr rfl rfl)
  refine ⟨⟨{ linkHead s₁ pg with hashTable := table }, pg :: recent⟩, ?_, ?_, fun i hi => ?_, hplaced,
    fun key' => ?_⟩
  · unfold act
    simp only [hs₁, addToLruHead_eq, heq, bind, Except.bind, pure, Except.pure]
  · exact linkHead_dlist hordered hpg ((congrFun hprev pg).trans hp)
  · rcases List.mem_cons.mp hi with rfl | hi
    · exact ⟨key, hkey⟩
    · obtain ⟨key', hk⟩ := h.named i hi
      exact ⟨key', (hother i hi).trans hk⟩
  · have hcount : s₁.holders recent key' = s.holders recent key' := holders_congr hother key'
    have hhold : ({ linkHead s₁ pg with hashTable := table } : State).holders (pg :: recent) key' =
        s₁.holders recent key' + if key' = key then 1 else 0 := holders_cons hkey recent key'
    have hlinked : (linkHead s₁ pg).entries key' = s.entries key' := hsame.2.2 key'
    have hcounts : (s.entries key').length = s.holders recent key' := h.counts key'
    rw [hentries, hhold, hcount]
    by_cases hkey' : key' = key
    · rw [if_pos hkey', if_pos hkey', ← hkey', List.length_cons, hlinked, hcounts]
    · rw [if_neg hkey', if_neg hkey', hlinked, hcounts, Nat.add_zero]

theorem Recency.Hashed.remove (h : r.Hashed) (hpg : pg ∈ r.recent) :
    ∃ r', act (.removeFromLru pg) r = .ok r' ∧ r'.Hashed := by
  obtain ⟨s, recent⟩ := r
  obtain ⟨left, right, hsplit⟩ := List.append_of_mem hpg
  simp only at hsplit
  subst hsplit
  obtain ⟨key, hk⟩ := h.named pg hpg
  have hordered : DList s.next s.prev s.lruList.head s.lruList.tail (left ++ pg :: right) := h.ordered
  have hn := List.nodup_append.mp hordered.nodup
  have hleft : pg ∉ left := fun hl => hn.2.2 pg hl pg List.mem_cons_self rfl
  have herase : (left ++ pg :: right).erase pg = left ++ right := by
    rw [List.erase_append_right _ hleft, List.erase_cons_head]
  have hne : ∀ i ∈ left ++ right, i ≠ pg := by
    rintro i hi rfl
    rcases List.mem_append.mp hi with hi | hi
    · exact hleft hi
    · exact (List.nodup_cons.mp hn.2.1).1 hi
  have hself : s.prev pg ≠ some pg := by
    rw [hordered.prev_eq]
    exact fun he => hleft (List.mem_of_getLast? he)
  have hcount : ∀ key', (s.entries key').length =
      s.holders (left ++ right) key' + if key' = key then 1 else 0 := by
    intro key'
    rw [show (s.entries key').length = s.holders (left ++ pg :: right) key' from h.counts key',
      holders_perm List.perm_middle, holders_cons hk]
  have hnil : s.entries key ≠ [] := List.ne_nil_of_length_pos (by rw [hcount]; simp)
  obtain ⟨table, hr, hplaced, hentries⟩ := hashTableRemove_spec hk h.placed hnil
  have hkey : ∀ i ∈ left ++ right, (unlinkPage s pg).keyAt i = s.keyAt i := fun i hi => by
    unfold State.keyAt unlinkPage
    simp [hne i hi]
  refine ⟨⟨{ unlinkPage s pg with hashTable := table }, left ++ right⟩, ?_, ?_, fun i hi => ?_,
    hplaced.congr rfl rfl, fun key' => ?_⟩
  · unfold act
    simp only [removeFromLru_eq hself hr, bind, Except.bind, pure, Except.pure, herase]
  · exact unlinkPage_dlist hordered
  · obtain ⟨key', hk'⟩ := h.named i (List.mem_append.mpr
      ((List.mem_append.mp hi).imp_right (List.mem_cons_of_mem _)))
    exact ⟨key', (hkey i hi).trans hk'⟩
  · have hhold : ({ unlinkPage s pg with hashTable := table } : State).holders (left ++ right) key' =
        s.holders (left ++ right) key' := holders_congr hkey key'
    have htable : State.entries { unlinkPage s pg with hashTable := table } key' =
        State.entries { s with hashTable := table } key' := entries_congr rfl rfl key'
    change (State.entries { unlinkPage s pg with hashTable := table } key').length =
      State.holders { unlinkPage s pg with hashTable := table } (left ++ right) key'
    rw [hhold, htable, hentries]
    by_cases hkey' : key' = key
    · rw [if_pos hkey', List.length_tail, ← hkey', hcount, if_pos hkey', Nat.add_sub_cancel]
    · rw [if_neg hkey', hcount, if_neg hkey', Nat.add_zero]

-- A page that is the head already has no link back and stays.
theorem Recency.Hashed.still (h : r.Hashed) (hhead : r.state.lruList.head = some pg) :
    act (.moveToLruHead pg) r = .ok r := by
  obtain ⟨s, recent⟩ := r
  have hordered : DList s.next s.prev s.lruList.head s.lruList.tail recent := h.ordered
  have hfirst := hordered.head_eq.symm.trans hhead
  obtain ⟨rest, rfl⟩ := List.head?_eq_some_iff.mp hfirst
  have hnone : s.prev pg = none := hordered.first.1
  simp [act, moveToLruHead_none hnone, pure, Except.pure]

theorem Recency.Hashed.step (h : r.Hashed) (he : r.enabled c = true) (hs : Still c r) :
    ∃ r', act c r = .ok r' ∧ r'.Hashed := by
  unfold enabled at he
  cases c with
  | addToLruHead pg key =>
      simp only [Bool.and_eq_true, Bool.not_eq_true', List.contains_eq_mem, decide_eq_false_iff_not,
        Option.isNone_iff_eq_none] at he
      exact h.add he.1 he.2
  | moveToLruHead pg => exact ⟨r, h.still hs, h⟩
  | removeFromLru pg => exact h.remove (by simpa using he)

-- A move of any other page leaves the list out of order.
theorem Recency.Hashed.moved (h : r.Hashed) (he : r.enabled c = true) (hs : ¬ Still c r)
    (hact : act c r = .ok r') : ¬ r'.Ordered := by
  obtain ⟨s, recent⟩ := r
  cases c with
  | addToLruHead pg key => exact absurd trivial hs
  | removeFromLru pg => exact absurd trivial hs
  | moveToLruHead pg =>
      obtain rfl := Except.ok.inj hact
      obtain ⟨left, right, rfl⟩ := List.append_of_mem (show pg ∈ recent by simpa [enabled] using he)
      refine move_breaks h.ordered fun hnil => hs ?_
      have hhead := h.ordered.head_eq
      subst hnil
      exact hhead

end Links

theorem hashed_of_reachable {r : Recency} (h : recency.Reachable Recency.Still r) : r.Hashed := by
  refine h.invariant (fun r hr => ?_) (fun r r' c hr he hc hact => ?_)
  · obtain ⟨hrecent, hlist, htable⟩ := hr
    refine ⟨?_, fun i hi => ?_, fun i e he => ?_, fun key => ?_⟩
    · unfold Recency.Ordered
      rw [hlist, hrecent]
      exact DList.empty
    · rw [hrecent] at hi
      exact absurd hi (by simp)
    · rw [htable] at he
      exact absurd he (by simp)
    · simp [State.entries, State.holders, htable, hrecent]
  · obtain ⟨r₁, hact', hr₁⟩ := hr.step he hc
    exact Except.ok.inj (hact'.symm.trans hact) ▸ hr₁

-- In every run in which only the head is moved to the head, no call fails, the list is in
-- the order of use and the tail is the page used last. A call that moves another page puts
-- the list out of order.
theorem lru_recency {r : Recency} (h : recency.Reachable Recency.Still r) :
    r.Ordered ∧ r.state.lruList.tail = r.recent.getLast? ∧ ∀ c, r.enabled c = true →
      ∃ r', Recency.act c r = .ok r' ∧ (r'.Ordered ↔ Recency.Still c r) := by
  have hr := hashed_of_reachable h
  refine ⟨hr.ordered, hr.ordered.tail_eq, fun c he => ?_⟩
  by_cases hs : Recency.Still c r
  · obtain ⟨r', hact, hr'⟩ := hr.step he hs
    exact ⟨r', hact, fun _ => hs, fun _ => hr'.ordered⟩
  · have hact : ∃ r', Recency.act c r = .ok r' := by
      cases c with
      | addToLruHead pg key => exact absurd trivial hs
      | removeFromLru pg => exact absurd trivial hs
      | moveToLruHead pg => exact ⟨_, rfl⟩
    obtain ⟨r', hact⟩ := hact
    exact ⟨r', hact, fun ho => absurd ho (hr.moved he hs hact), fun hc => absurd hc hs⟩

section Runs

def Recency.boot : Recency := ⟨initPageCache 2 emptyStore, []⟩

theorem recencyBoot_start : recency.start Recency.boot := ⟨rfl, rfl, rfl⟩

-- Two pages, the head once more, and the page used longest ago goes.
def useRun : List ListCall :=
  [.addToLruHead 0 (fileA, 0), .addToLruHead 1 (fileA, 1), .moveToLruHead 1, .removeFromLru 0]

theorem lru_recency_useRun : ∃ r : Recency, r.recent = [1] ∧ r.Ordered := by
  obtain ⟨r, hr, hp⟩ := (System.Reachable.start (S := recency.restrict Recency.Still)
    recencyBoot_start).exists_run (fun _ _ _ => trivial)
      (show _ = true from (by decide +kernel : ((recency.restrict Recency.Still).run Recency.boot
        useRun).any (fun r => r.recent == [1]) = true))
  exact ⟨r, by simpa using hp, (lru_recency hr.of_restrict).1⟩

-- Two pages, and the first of them is used again.
def moveRun : List ListCall :=
  [.addToLruHead 0 (fileA, 0), .addToLruHead 1 (fileA, 1), .moveToLruHead 0]

theorem move_disorders : ∃ r : Recency, recency.Reachable System.Always r ∧ ¬ r.Ordered := by
  obtain ⟨r, hr, hp⟩ := (System.Reachable.start recencyBoot_start).exists_run
    (fun _ _ _ => trivial)
    (show _ = true from (by decide +kernel : (recency.run Recency.boot moveRun).any
      (fun r => r.recent == [0, 1] && r.state.prev 1 == none) = true))
  simp only [Bool.and_eq_true, beq_iff_eq] at hp
  refine ⟨r, hr, fun ho => ?_⟩
  unfold Recency.Ordered at ho
  rw [hp.1] at ho
  exact absurd (hp.2.symm.trans ho.second) (by simp)

end Runs

end UserPageCache.PageCache
