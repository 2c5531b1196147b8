import Mathlib.Data.List.Induction
import UserPageCache.PageCache.Lru.Theorems

namespace UserPageCache.PageCache

open Linked

variable {s s' : State} {lru free off left right evicted : List Nat} {pg i : Nat} {key : Key}

section Eviction

@[simp] theorem submitPio_write_frame (d : Store) (pathName : CString) (index : Nat)
    (frame : Frame) : (submitPio d .write pathName index frame).2 = frame := by
  unfold submitPio
  cases d.answers d.log.length <;> rfl

theorem writePio_eq (hk : s.keyAt pg = some key) : writePio s pg =
    .ok { s with store := (submitPio s.store .write key.1 key.2 (s.physBase pg)).1 } := by
  obtain ⟨hpath, hindex⟩ := keyAt_some hk
  unfold writePio submitPage
  simp only [hpath, hindex]
  have hframe := submitPio_write_frame s.store key.1 key.2 (s.physBase pg)
  generalize submitPio s.store .write key.1 key.2 (s.physBase pg) = r at hframe
  obtain ⟨d, frame⟩ := r
  obtain rfl : frame = s.physBase pg := hframe
  simp [State.setFrame]

-- What is left of the pages other than one that left the lists.
structure Away (s s' : State) (pages : List Nat) : Prop where
  size : s'.cacheSize = s.cacheSize
  phys : s'.physBase = s.physBase
  others : ∀ i ∉ pages, s'.keyAt i = s.keyAt i ∧ s'.dirty i = s.dirty i ∧ s'.prev i = s.prev i

theorem evictPage_spec (h : Lists s off (left ++ [pg]) free) (hp : s.prev pg = left.getLast?)
    (hk : s.keyAt pg = some key) (he : s.entries key ≠ []) :
    ∃ s', evictPage s = .ok s' ∧ Lists s' off left (pg :: free) ∧ Away s s' [pg] ∧
      s'.store = (submitPio s.store .write key.1 key.2 (s.physBase pg)).1 ∧
      ∀ key', s'.entries key' = if key' = key then (s.entries key).tail else s.entries key' := by
  have htail : s.lruList.tail = some pg := by simpa using h.links.last
  generalize hd : (submitPio s.store .write key.1 key.2 (s.physBase pg)).1 = d
  have h' : Lists { s with store := d } off (left ++ [pg]) free :=
    ⟨h.links, h.frees, h.count, h.pages, h.named, h.placed⟩
  obtain ⟨s', heq, hlists, hquiet, hentries, hothers⟩ := removeFromLru_spec h' hp hk he
  refine ⟨s', ?_, by simpa using hlists, ⟨hquiet.size, hquiet.phys, fun i hi => ?_⟩, hquiet.store,
    hentries⟩
  · unfold evictPage
    simp only [htail, writePio_eq hk, hd, bind, Except.bind, heq]
  · obtain ⟨hkey, hdirty, hprev⟩ := hothers i (by simpa using hi)
    exact ⟨hkey, hdirty, hprev.trans (if_neg (by simp))⟩

def pageOut (s : State) (d : Store) (pg : Nat) : Store :=
  match s.keyAt pg with
  | some key => (submitPio d .write key.1 key.2 (s.physBase pg)).1
  | none => d

-- How many of the pages belong to the key.
def State.holders (s : State) (pages : List Nat) (key : Key) : Nat :=
  pages.countP fun i => s.keyAt i == some key

theorem holders_congr {pages : List Nat} (h : ∀ i ∈ pages, s'.keyAt i = s.keyAt i) (key : Key) :
    s'.holders pages key = s.holders pages key := by
  unfold State.holders
  exact List.countP_congr fun i hi => by rw [h i hi]

theorem holders_cons (hk : s.keyAt pg = some key) (pages : List Nat) (key' : Key) :
    s.holders (pg :: pages) key' = s.holders pages key' + if key' = key then 1 else 0 := by
  unfold State.holders
  rw [List.countP_cons, hk]
  by_cases hkey : key' = key
  · simp [hkey]
  · simp [hkey, Ne.symm hkey]

theorem holders_perm {pages pages' : List Nat} (h : pages.Perm pages') (key : Key) :
    s.holders pages key = s.holders pages' key := h.countP_eq _

theorem holders_append (kept pages : List Nat) (key : Key) :
    s.holders (kept ++ pages.reverse) key = s.holders kept key + s.holders pages key := by
  unfold State.holders
  rw [List.countP_append, List.countP_reverse]

theorem foldl_pageOut_congr {pages : List Nat} (hk : ∀ i ∈ pages, s'.keyAt i = s.keyAt i)
    (hp : s'.physBase = s.physBase) (d : Store) :
    pages.foldl (pageOut s') d = pages.foldl (pageOut s) d := by
  induction pages generalizing d with
  | nil => rfl
  | cons i rest ih =>
      have hone : pageOut s' d i = pageOut s d i := by
        unfold pageOut
        rw [hk i List.mem_cons_self, hp]
      rw [List.foldl_cons, List.foldl_cons, hone]
      exact ih (fun j hj => hk j (List.mem_cons_of_mem _ hj)) _

-- Pages leave from the tail one by one, each written to the store before it goes.
theorem evictPages_spec (h : Lists s off (left ++ evicted) free)
    (hp : ∀ i ∈ evicted, s.prev i ≠ none)
    (hc : ∀ key, s.holders (left ++ evicted) key ≤ (s.entries key).length) :
    ∃ s', evictPages evicted.length s = .ok s' ∧ Lists s' off left (evicted ++ free) ∧
      Away s s' evicted ∧ s'.store = evicted.reverse.foldl (pageOut s) s.store ∧
      ∀ key, s'.entries key = (s.entries key).drop (s.holders evicted key) := by
  induction evicted using List.reverseRec generalizing s free with
  | nil =>
      refine ⟨s, rfl, by simpa using h, ⟨rfl, rfl, fun _ _ => ⟨rfl, rfl, rfl⟩⟩, rfl, fun key => ?_⟩
      simp [State.holders]
  | append_singleton rest pg ih =>
      rw [← List.append_assoc] at h hc
      obtain ⟨key, hk⟩ := h.named pg (by simp)
      have hprev := h.links.prev_eq (hp pg (by simp))
      have he : s.entries key ≠ [] := by
        have hle := hc key
        simp only [State.holders, List.countP_append, List.countP_singleton, hk, BEq.rfl,
          ite_true] at hle
        exact List.ne_nil_of_length_pos (by omega)
      obtain ⟨s₁, heq, hlists, haway, hstore, hentries⟩ := evictPage_spec h hprev hk he
      have hnot : ∀ i ∈ left ++ rest, i ≠ pg := fun i hi hip =>
        (List.nodup_append.mp h.links.nodup).2.2 i hi pg List.mem_cons_self hip
      have hkeep : ∀ i ∈ left ++ rest, s₁.keyAt i = s.keyAt i := fun i hi =>
        (haway.others i (by simpa using hnot i hi)).1
      have hc₁ : ∀ key', s₁.holders (left ++ rest) key' ≤ (s₁.entries key').length := by
        intro key'
        have hle := hc key'
        rw [holders_congr hkeep, hentries]
        have happ : s.holders (left ++ rest ++ [pg]) key' =
            s.holders (left ++ rest) key' + s.holders [pg] key' := List.countP_append
        rw [happ] at hle
        simp only [State.holders, List.countP_singleton, hk] at hle
        unfold State.holders
        by_cases hkey : key' = key
        · simp only [hkey, BEq.rfl, ite_true, List.length_tail] at hle ⊢
          omega
        · have hne : (some key == some key') = false := by simpa using Ne.symm hkey
          simpa [hkey, hne] using hle
      obtain ⟨s', heq', hlists', haway', hstore', hentries'⟩ := ih hlists (fun i hi => by
        rw [(haway.others i (by simpa using hnot i (List.mem_append_right _ hi))).2.2]
        exact hp i (List.mem_append_left _ hi)) hc₁
      refine ⟨s', ?_, by simpa using hlists', ⟨haway'.size.trans haway.size,
        haway'.phys.trans haway.phys, fun i hi => ?_⟩, ?_, fun key' => ?_⟩
      · rw [List.length_append, List.length_singleton]
        unfold evictPages
        simp only [heq, bind, Except.bind]
        exact heq'
      · simp only [List.mem_append, List.mem_singleton, not_or] at hi
        obtain ⟨hk₁, hd₁, hp₁⟩ := haway.others i (by simpa using hi.2)
        obtain ⟨hk₂, hd₂, hp₂⟩ := haway'.others i hi.1
        exact ⟨hk₂.trans hk₁, hd₂.trans hd₁, hp₂.trans hp₁⟩
      · have hfirst : pageOut s s.store pg = s₁.store := by
          unfold pageOut
          rw [hk, hstore]
        rw [hstore', List.reverse_append, List.reverse_singleton, List.singleton_append,
          List.foldl_cons, hfirst]
        refine foldl_pageOut_congr (fun i hi => ?_) haway.phys _
        exact hkeep i (List.mem_append_right _ (List.mem_reverse.mp hi))
      · rw [hentries', hentries, holders_congr fun i hi => hkeep i (List.mem_append_right _ hi)]
        simp only [State.holders, List.countP_append, List.countP_singleton, hk]
        by_cases hkey : key' = key
        · simp [hkey, List.drop_tail]
        · have hne : (some key == some key') = false := by simpa using Ne.symm hkey
          simp [hkey, hne]

end Eviction

section Images

-- A page of a file with its contents.
abbrev Image := Key × Frame

def State.imageAt (s : State) (i : Nat) : Option Image := (s.keyAt i).map (·, s.physBase i)

-- The WRITE pios that the store has received.
def Store.writes (d : Store) : List Image :=
  (d.log.filter (·.operation == .write)).map fun e => ((e.pathName, e.pageIndex), e.frame)

theorem submitPio_write_writes (d : Store) (key : Key) (frame : Frame) :
    (submitPio d .write key.1 key.2 frame).1.writes = d.writes ++ [(key, frame)] := by
  unfold submitPio Store.writes
  cases d.answers d.log.length <;> simp

theorem submitPio_read_writes (d : Store) (pathName : CString) (index : Nat) (frame : Frame) :
    (submitPio d .read pathName index frame).1.writes = d.writes := by
  unfold submitPio Store.writes
  cases d.answers d.log.length <;> simp

theorem foldl_pageOut_writes (pages : List Nat) (d : Store) :
    (pages.foldl (pageOut s) d).writes = d.writes ++ pages.filterMap s.imageAt := by
  induction pages generalizing d with
  | nil => simp
  | cons pg rest ih =>
      rw [List.foldl_cons, ih]
      unfold pageOut State.imageAt
      cases hk : s.keyAt pg with
      | none => simp [hk]
      | some key => simp [hk, submitPio_write_writes]

end Images

section Victims

-- The pages met from a page on by the links back.
def State.walkBack (s : State) : Nat → Option Nat → List Nat
  | 0, _ => []
  | _, none => []
  | n + 1, some pg => pg :: s.walkBack n (s.prev pg)

-- The pages that alloc_page would write back now, the first one first.
def State.victims (s : State) : List Nat :=
  if s.freeList.nrFree = 0 then s.walkBack (s.cacheSize / 2) s.lruList.tail else []

-- None of these has lost its link back.
def State.Linked (s : State) : Prop := ∀ i ∈ s.victims, s.prev i ≠ none

-- The page that alloc_page would take now.
def State.fresh (s : State) : Option Nat := s.victims.getLast?.or s.freeList.head

theorem walkBack_eq (n : Nat) (hb : Back s.prev none left) (hn : n ≤ left.length)
    (hp : ∀ i ∈ s.walkBack n left.getLast?, s.prev i ≠ none) :
    s.walkBack n left.getLast? = left.reverse.take n := by
  induction n generalizing left with
  | zero => simp [State.walkBack]
  | succ n ih =>
      cases left using List.reverseRec with
      | nil => simp at hn
      | append_singleton rest pg =>
          simp only [List.getLast?_append, List.getLast?_singleton, Option.some_or,
            State.walkBack, List.mem_cons, forall_eq_or_imp] at hp ⊢
          have hprev := (back_append.mp hb).2.1
          rw [Option.or_none] at hprev
          have hlast := hprev.resolve_right hp.1
          rw [hlast] at hp ⊢
          rw [ih (back_append.mp hb).1 (by simpa using hn) hp.2]
          simp

-- A list with all its links back does not end before its first page.
theorem walkBack_tail (n : Nat) (hb : Back s.prev none left) (hn : n < left.length)
    (hp : ∀ i ∈ left.tail, s.prev i ≠ none) : ∀ i ∈ s.walkBack n left.getLast?, i ∈ left.tail := by
  induction n generalizing left with
  | zero => simp [State.walkBack]
  | succ n ih =>
      cases left using List.reverseRec with
      | nil => simp at hn
      | append_singleton rest pg =>
          have hrest : n < rest.length := by simpa using hn
          have htail : (rest ++ [pg]).tail = rest.tail ++ [pg] :=
            List.tail_append_of_ne_nil (List.ne_nil_of_length_pos (Nat.zero_lt_of_lt hrest))
          rw [htail] at hp ⊢
          have hprev := (back_append.mp hb).2.1
          rw [Option.or_none] at hprev
          have hlast := hprev.resolve_right (hp pg (by simp))
          simp only [List.getLast?_append, List.getLast?_singleton, Option.some_or, State.walkBack,
            List.mem_cons, hlast]
          rintro i (rfl | hi)
          · simp
          · exact List.mem_append_left _ (ih (back_append.mp hb).1 hrest
              (fun j hj => hp j (List.mem_append_left _ hj)) i hi)

theorem Lists.length (h : Lists s off lru free) :
    off.length + lru.length + free.length = s.cacheSize := by
  simpa [Nat.add_assoc] using h.pages.length_eq

-- A full cache evicts its last pages; one with a free page evicts none.
theorem Lists.victims (h : Lists s [] lru free) (hl : s.Linked) :
    ∃ kept, lru = kept ++ s.victims.reverse ∧
      s.victims.length = if free = [] then s.cacheSize / 2 else 0 := by
  unfold State.Linked at hl
  unfold State.victims at hl ⊢
  have hfree : s.freeList.nrFree = 0 ↔ free = [] := by rw [h.count, List.length_eq_zero_iff]
  by_cases hf : free = []
  · rw [if_pos (hfree.mpr hf)] at hl ⊢
    rw [h.links.last] at hl ⊢
    have hlen := h.length
    simp only [hf, List.length_nil, Nat.zero_add, Nat.add_zero] at hlen
    have hle : s.cacheSize / 2 ≤ lru.length := by
      rw [hlen]
      exact Nat.div_le_self _ _
    rw [walkBack_eq _ h.links.backward hle hl, if_pos hf]
    refine ⟨lru.take (lru.length - s.cacheSize / 2), ?_, by simpa using hle⟩
    rw [List.reverse_take, List.reverse_reverse, List.length_reverse, List.take_append_drop]
  · rw [if_neg (fun h0 => hf (hfree.mp h0)), if_neg hf]
    exact ⟨lru, by simp, rfl⟩

theorem Lists.linked (h : Lists s [] lru free) (hN : 0 < s.cacheSize)
    (hp : ∀ i ∈ lru.tail, s.prev i ≠ none) : s.Linked := by
  unfold State.Linked State.victims
  by_cases h0 : s.freeList.nrFree = 0
  · rw [if_pos h0, h.links.last]
    have hlen := h.length
    rw [← h.count, h0] at hlen
    simp only [List.length_nil, Nat.zero_add, Nat.add_zero] at hlen
    exact fun i hi => hp i (walkBack_tail _ h.links.backward
      (by rw [hlen]; exact Nat.div_lt_self hN (by decide)) hp i hi)
  · rw [if_neg h0]
    exact fun i hi => absurd hi (by simp)

end Victims

section Allocation

theorem popFree_spec (h : Lists s [] lru (pg :: free)) :
    ∃ s', popFree s = .ok (s', pg) ∧ Lists s' [pg] lru free ∧ Away s s' [pg] ∧
      s'.store = s.store ∧ s'.prev pg = none ∧ (∀ key, s'.entries key = s.entries key) := by
  have hn := h.nodup
  simp only [List.nil_append, List.nodup_append, List.nodup_cons] at hn
  obtain ⟨hnl, ⟨hpf, hnf⟩, hapart⟩ := hn
  have hhead : s.freeList.head = some pg := h.frees.1
  have hlru : ∀ i ∈ lru, i ≠ pg := fun i hi => hapart i hi pg List.mem_cons_self
  have hfree : ∀ i ∈ free, i ≠ pg := fun i hi he => hpf (he ▸ hi)
  unfold popFree
  simp only [hhead]
  refine ⟨_, rfl, ⟨?_, ?_, ?_, ?_, fun i hi => ?_, h.placed.congr rfl rfl⟩,
    ⟨rfl, rfl, fun i hi => ?_⟩, rfl, ?_, fun key => rfl⟩
  · refine h.links.congr (fun i hi => ?_) (fun i hi => ?_)
    · simp [State.next, State.setPage, hlru i hi]
    · simp [State.prev, State.setPage, hlru i hi]
  · exact h.frees.2.congr fun i hi => by simp [State.next, State.setPage, hfree i hi]
  · have hcount := h.count
    simp only [List.length_cons] at hcount
    simp [State.setPage, hcount]
  · refine List.Perm.trans ?_ h.pages
    have hmiddle : (lru ++ pg :: free).Perm (pg :: (lru ++ free)) := List.perm_middle
    simpa using hmiddle.symm
  · obtain ⟨key, hk⟩ := h.named i hi
    exact ⟨key, by simpa [State.keyAt, State.setPage, hlru i hi] using hk⟩
  · have hne : i ≠ pg := by simpa using hi
    simp [State.keyAt, State.dirty, State.prev, State.setPage, hne]
  · simp [State.prev, State.setPage]

-- What alloc_page leaves: the victims are written back and gone, and a page is off the lists.
structure Allocated (s s' : State) (pg : Nat) (kept free : List Nat) : Prop where
  lists : Lists s' [pg] kept free
  fresh : s.fresh = some pg
  single : s'.prev pg = none
  away : Away s s' (pg :: s.victims)
  store : s'.store = s.victims.foldl (pageOut s) s.store
  entries : ∀ key, s'.entries key = (s.entries key).drop (s.holders s.victims key)

theorem allocPage_spec (h : Lists s [] lru free) (hN : 2 ≤ s.cacheSize) (hl : s.Linked)
    (hc : ∀ key, s.holders lru key ≤ (s.entries key).length) :
    ∃ s' pg kept free', allocPage s = .ok (s', pg) ∧ lru = kept ++ s.victims.reverse ∧
      Allocated s s' pg kept free' := by
  obtain ⟨kept, hlru, hlen⟩ := h.victims hl
  have hprev : ∀ i ∈ s.victims.reverse, s.prev i ≠ none := fun i hi => hl i (List.mem_reverse.mp hi)
  obtain ⟨s₁, heq, hlists, haway, hstore, hentries⟩ :=
    evictPages_spec (hlru ▸ h) hprev (fun key => hlru ▸ hc key)
  rw [List.reverse_reverse] at hstore
  rw [List.length_reverse, hlen] at heq
  -- Either some page was free before, or at least one page was evicted.
  obtain ⟨pg, free', hsome⟩ : ∃ pg free', s.victims.reverse ++ free = pg :: free' := by
    refine List.exists_cons_of_ne_nil fun hnil => ?_
    obtain ⟨hv, hf⟩ := List.append_eq_nil_iff.mp hnil
    rw [List.reverse_eq_nil_iff.mp hv, if_pos hf, List.length_nil] at hlen
    omega
  have hfresh : s.fresh = some pg := by
    unfold State.fresh
    rw [← List.head?_reverse, h.frees.head, ← List.head?_append, hsome, List.head?_cons]
  rw [hsome] at hlists
  obtain ⟨s', hpop, hlists', haway', hstore', hprev', hentries'⟩ := popFree_spec hlists
  refine ⟨s', pg, kept, free', ?_, hlru, hlists', hfresh, hprev',
    ⟨haway'.size.trans haway.size, haway'.phys.trans haway.phys, fun i hi => ?_⟩,
    hstore'.trans hstore, fun key => ?_⟩
  · unfold allocPage
    by_cases hf : free = []
    · have h0 : s.freeList.nrFree = 0 := by rw [h.count, hf, List.length_nil]
      rw [if_pos hf] at heq
      simp only [h0, ite_true, heq, bind, Except.bind]
      exact hpop
    · have h0 : s.freeList.nrFree ≠ 0 := by rwa [h.count, Ne, List.length_eq_zero_iff]
      rw [if_neg hf] at heq
      simp only [h0, ite_false, pure, Except.pure, bind, Except.bind]
      exact Except.ok.inj heq ▸ hpop
  · simp only [List.mem_cons, not_or] at hi
    obtain ⟨hk, hd, hp⟩ := haway.others i (by simpa using hi.2)
    obtain ⟨hk', hd', hp'⟩ := haway'.others i (by simpa using hi.1)
    exact ⟨hk'.trans hk, hd'.trans hd, hp'.trans hp⟩
  · rw [hentries', hentries]
    unfold State.holders
    rw [List.countP_reverse]

end Allocation

section Placement

-- A page on no list may be written to.
theorem Lists.dress (h : Lists s [pg] lru free) (f : Page → Page) (frame : Frame) (d : Store) :
    Lists { (s.setPage pg f).setFrame pg frame with store := d } [pg] lru free := by
  have hn := h.nodup
  simp only [List.cons_append, List.nil_append, List.nodup_cons, List.mem_append, not_or] at hn
  have hlru : ∀ i ∈ lru, i ≠ pg := fun i hi he => hn.1.1 (he ▸ hi)
  have hfree : ∀ i ∈ free, i ≠ pg := fun i hi he => hn.1.2 (he ▸ hi)
  refine ⟨?_, ?_, h.count, h.pages, fun i hi => ?_, h.placed.congr rfl rfl⟩
  · refine h.links.congr (fun i hi => ?_) (fun i hi => ?_)
    · simp [State.next, State.setPage, State.setFrame, hlru i hi]
    · simp [State.prev, State.setPage, State.setFrame, hlru i hi]
  · exact h.frees.congr fun i hi => by
      simp [State.next, State.setPage, State.setFrame, hfree i hi]
  · obtain ⟨key, hk⟩ := h.named i hi
    exact ⟨key, by simpa [State.keyAt, State.setPage, State.setFrame, hlru i hi] using hk⟩

-- A page of the cache now holds the frame of the key; the victims are gone.
structure Filled (s s' : State) (key : Key) (pg : Nat) (kept free : List Nat) (frame : Frame)
    (d : Store) : Prop where
  lists : Lists s' [] (pg :: kept) free
  fresh : s.fresh = some pg
  size : s'.cacheSize = s.cacheSize
  phys : s'.physBase = Function.update s.physBase pg frame
  store : s'.store = d
  named : s'.keyAt pg = some key
  single : s'.prev pg = none
  others : ∀ i ∈ kept, s'.keyAt i = s.keyAt i ∧ s'.dirty i = s.dirty i ∧
    s'.prev i = if kept.head? = some i then some pg else s.prev i
  entries : ∀ key', s'.entries key' =
    if key' = key then pg :: (s.entries key').drop (s.holders s.victims key')
    else (s.entries key').drop (s.holders s.victims key')

theorem fill_spec {s₁ : State} {kept : List Nat} (h : Allocated s s₁ pg kept free)
    (hv : ∀ i ∈ kept, i ∉ s.victims) (key : Key) (f : Page → Page) (frame : Frame) (d : Store)
    (hf : ∀ x, (f x).pathName = some key.1 ∧ (f x).index = key.2 ∧ (f x).prev = x.prev) :
    ∃ s', addToLruHead { (s₁.setPage pg f).setFrame pg frame with store := d } pg = .ok s' ∧
      Filled s s' key pg kept free frame d := by
  have hpg : ∀ i ∈ kept, i ≠ pg := by
    have hn := h.lists.nodup
    simp only [List.cons_append, List.nil_append, List.nodup_cons, List.mem_append, not_or] at hn
    exact fun i hi he => hn.1.1 (he ▸ hi)
  have hsingle : ({ (s₁.setPage pg f).setFrame pg frame with store := d } : State).prev pg = none := by
    have hprev := (hf (s₁.memMap pg)).2.2
    have hnone := h.single
    unfold State.prev at hnone
    simp [State.prev, State.setPage, State.setFrame, hprev, hnone]
  have hkey : ({ (s₁.setPage pg f).setFrame pg frame with store := d } : State).keyAt pg =
      some key := by
    obtain ⟨hpath, hindex, -⟩ := hf (s₁.memMap pg)
    simp [State.keyAt, State.setPage, State.setFrame, hpath, hindex]
  obtain ⟨s', heq, hlists, hquiet, hentries, hothers⟩ :=
    addToLruHead_spec (h.lists.dress f frame d) hsingle hkey
  refine ⟨s', heq, hlists, h.fresh, hquiet.size.trans h.away.size, ?_, hquiet.store,
    (hothers pg).1.trans hkey, ?_, fun i hi => ?_, fun key' => ?_⟩
  · rw [hquiet.phys, ← h.away.phys]
    rfl
  · rw [(hothers pg).2.2, hsingle, if_neg]
    rw [(h.lists.dress f frame d).links.head_eq]
    exact fun he => hpg pg (List.mem_of_head? he) rfl
  · have hne := hpg i hi
    obtain ⟨hk, hd, hp⟩ := hothers i
    obtain ⟨hk', hd', hp'⟩ := h.away.others i (by simp [hne, hv i hi])
    rw [hk, hd, hp, (h.lists.dress f frame d).links.head_eq, ← hk', ← hd', ← hp']
    simp [State.keyAt, State.dirty, State.prev, State.setPage, State.setFrame, hne]
  · rw [hentries]
    by_cases hkey' : key' = key
    · rw [if_pos hkey', if_pos hkey', hkey']
      exact congrArg _ (h.entries key)
    · rw [if_neg hkey', if_neg hkey']
      exact h.entries key'

theorem victims_not_kept {kept : List Nat} (h : Lists s off (kept ++ s.victims.reverse) free) :
    ∀ i ∈ kept, i ∉ s.victims := fun i hi hv =>
  (List.nodup_append.mp h.links.nodup).2.2 i hi i (List.mem_reverse.mpr hv) rfl

theorem uwritePage_spec (h : Lists s [] lru free) (hN : 2 ≤ s.cacheSize) (hl : s.Linked)
    (hc : ∀ key, s.holders lru key ≤ (s.entries key).length) (key : Key) (copyLen : Nat)
    (src : Nat → UInt8) : ∃ s' pg kept free', uwritePage key.1 s key.2 copyLen src = .ok s' ∧
      lru = kept ++ s.victims.reverse ∧
      Filled s s' key pg kept free' (fillFrame (s.physBase pg) copyLen src)
        (s.victims.foldl (pageOut s) s.store) := by
  obtain ⟨s₁, pg, kept, free', heq, rfl, ha⟩ := allocPage_spec h hN hl hc
  obtain ⟨s', hadd, hfilled⟩ := fill_spec ha (victims_not_kept h) key
    (fun x => { x with flag := x.flag ||| PG_dirty, index := key.2, pathName := some key.1 })
    (fillFrame (s.physBase pg) copyLen src) s₁.store (fun x => ⟨rfl, rfl, rfl⟩)
  refine ⟨s', pg, kept, free', ?_, rfl, ha.store ▸ hfilled⟩
  rw [← ha.away.phys] at hadd
  unfold uwritePage
  simp only [heq, bind, Except.bind]
  exact hadd

-- A miss: the store's answer goes into a fresh page.
theorem ureadPage_miss (h : Lists s [] lru free) (hN : 2 ≤ s.cacheSize) (hl : s.Linked)
    (hc : ∀ key, s.holders lru key ≤ (s.entries key).length) (hmiss : s.entries key = []) :
    ∃ s' pg kept free', ureadPage key.1 s key.2 = .ok (s', pg) ∧
      lru = kept ++ s.victims.reverse ∧
      Filled s s' key pg kept free'
        (submitPio (s.victims.foldl (pageOut s) s.store) .read key.1 key.2 (s.physBase pg)).2
        (submitPio (s.victims.foldl (pageOut s) s.store) .read key.1 key.2 (s.physBase pg)).1 := by
  obtain ⟨s₁, pg, kept, free', heq, rfl, ha⟩ := allocPage_spec h hN hl hc
  obtain ⟨s', hadd, hfilled⟩ := fill_spec ha (victims_not_kept h) key
    (fun x => { x with flag := x.flag ||| PG_lru, index := key.2, pathName := some key.1 })
    (submitPio s₁.store .read key.1 key.2 (s₁.physBase pg)).2
    (submitPio s₁.store .read key.1 key.2 (s₁.physBase pg)).1 (fun x => ⟨rfl, rfl, rfl⟩)
  have hlookup : hashTableLookup s key.1 key.2 = none := by
    have hhead := lookup_entries s key
    rwa [hmiss, List.head?_nil, Option.map_eq_none_iff] at hhead
  refine ⟨s', pg, kept, free', ?_, rfl, ?_⟩
  · unfold ureadPage
    simp only [hlookup, heq, bind, Except.bind, readPio, submitPage, State.setPage,
      Function.update_self]
    have hadd' : addToLruHead _ pg = .ok s' := hadd
    simp only [State.setPage, State.setFrame] at hadd' ⊢
    rw [hadd']
    rfl
  · rw [← ha.store, ← ha.away.phys]
    exact hfilled

-- A hit: the newest page of the key moves to the head, if its link back is there.
theorem ureadPage_hit {rest : List Nat} (he : s.entries key = pg :: rest) :
    ureadPage key.1 s key.2 = .ok (moveToLruHead s pg, pg) := by
  have hhead := lookup_entries s key
  rw [he, List.head?_cons, Option.map_eq_some_iff] at hhead
  obtain ⟨e, heq, rfl⟩ := hhead
  unfold ureadPage
  rw [heq]

end Placement

section Init

theorem pushFree_spec (h : Lists s (pg :: off) [] free) : Lists (pushFree s pg) off [] (pg :: free) := by
  have hn := h.nodup
  simp only [List.cons_append, List.append_nil, List.nodup_cons, List.mem_append, not_or] at hn
  have hfree : ∀ i ∈ free, i ≠ pg := fun i hi he => hn.1.2 (he ▸ hi)
  have hnext : ∀ i, (pushFree s pg).next i = if pg = i then s.freeList.head else s.next i := fun i => by
    unfold pushFree
    simp [setNext_eq, State.next]
  unfold pushFree at hnext ⊢
  refine ⟨⟨?_, ?_, trivial⟩, ⟨rfl, ?_⟩, ?_, ?_, fun i hi => absurd hi (by simp),
    h.placed.congr rfl rfl⟩
  · exact h.links.forward
  · exact h.links.last
  · rw [hnext, if_pos rfl]
    exact h.frees.congr fun i hi => by rw [hnext, if_neg (Ne.symm (hfree i hi))]
  · change s.freeList.nrFree + 1 = _
    rw [h.count, List.length_cons]
  · refine List.Perm.trans ?_ h.pages
    simp

theorem foldl_pushFree (h : Lists s off [] free) :
    Lists (off.foldl pushFree s) [] [] (off.reverse ++ free) ∧ Quiet s (off.foldl pushFree s) ∧
      (off.foldl pushFree s).hashTable = s.hashTable := by
  induction off generalizing s free with
  | nil => exact ⟨h, Quiet.refl s, rfl⟩
  | cons pg rest ih =>
      obtain ⟨hlists, hquiet, htable⟩ := ih (pushFree_spec h)
      rw [List.reverse_cons, List.append_assoc]
      exact ⟨hlists, ⟨hquiet.size, hquiet.phys, hquiet.store⟩, htable⟩

-- At first every page is free and nothing is cached.
theorem initPageCache_spec (cacheSize : Nat) (store : Store) :
    Lists (initPageCache cacheSize store) [] [] (List.range cacheSize).reverse ∧
      (initPageCache cacheSize store).cacheSize = cacheSize ∧
      (initPageCache cacheSize store).store = store ∧
      ∀ key, (initPageCache cacheSize store).entries key = [] := by
  have hstart : Lists ⟨cacheSize, fun _ => zeroPage, fun _ => zeroFrame, ⟨none, none⟩, ⟨none, 0⟩,
      fun _ => [], store⟩ (List.range cacheSize) [] [] :=
    ⟨Half.empty, rfl, rfl, by simp, fun i hi => absurd hi (by simp),
      fun i e he => absurd he (by simp)⟩
  obtain ⟨hlists, hquiet, htable⟩ := foldl_pushFree hstart
  rw [List.append_nil] at hlists
  refine ⟨hlists, hquiet.size, hquiet.store, fun key => ?_⟩
  unfold State.entries
  rw [show (initPageCache cacheSize store).hashTable = _ from htable]
  rfl

-- A store that starts empty and accepts everything, and a file.
def emptyStore : Store := ⟨fun _ _ => zeroFrame, fun _ => true, []⟩

def fileA : CString := [⟨97, nonzero_a⟩]

end Init

end UserPageCache.PageCache
