import Mathlib.Data.Finmap
import Mathlib.Order.Lattice.Nat
import UserPageCache.Lib.Linked

-- Records that malloc hands out and free takes back. `calls` counts the calls of malloc.
structure Heap (ν : Type*) where
  cells : Finmap fun _ : ℕ => ν
  calls : ℕ

namespace Heap

open Linked

variable {ν : Type*}

-- malloc refuses, or returns an address that is not in use.
structure Allocator (ν : Type*) where
  malloc : Heap ν → Option ℕ
  fresh : ∀ h a, malloc h = some a → a ∉ h.cells

-- An address above all that are in use, whatever was asked for before.
def Allocator.above : Allocator ν where
  malloc h := some (h.cells.keys.sup id + 1)
  fresh h a ha hmem := by
    obtain rfl := Option.some.inj ha
    have hle : h.cells.keys.sup id + 1 ≤ h.cells.keys.sup id :=
      Finset.le_sup (f := id) (Finmap.mem_keys.mpr hmem)
    omega

def get (h : Heap ν) (a : ℕ) : Option ν := h.cells.lookup a

def set (h : Heap ν) (a : ℕ) (v : ν) : Heap ν := { h with cells := h.cells.insert a v }

def erase (h : Heap ν) (a : ℕ) : Heap ν := { h with cells := h.cells.erase a }

def alloc (A : Allocator ν) (h : Heap ν) (v : ν) : Heap ν × Option ℕ :=
  match A.malloc h with
  | none => ({ h with calls := h.calls + 1 }, none)
  | some a => ({ h.set a v with calls := h.calls + 1 }, some a)

section Cells

variable {h : Heap ν} {a b : ℕ} {v : ν}

@[simp] theorem get_set (h : Heap ν) (a : ℕ) (v : ν) : (h.set a v).get a = some v :=
  Finmap.lookup_insert h.cells

theorem get_set_of_ne (h : Heap ν) (v : ν) (hb : b ≠ a) : (h.set a v).get b = h.get b :=
  Finmap.lookup_insert_of_ne h.cells hb

theorem get_erase_of_ne (h : Heap ν) (hb : b ≠ a) : (h.erase a).get b = h.get b :=
  Finmap.lookup_erase_ne hb

theorem get_eq_none : h.get a = none ↔ a ∉ h.cells := Finmap.lookup_eq_none

theorem cells_ext {h' : Heap ν} (hg : ∀ a, h'.get a = h.get a) : h'.cells = h.cells :=
  Finmap.ext_lookup hg

-- The new record is the only one that differs, and the address was free.
theorem alloc_some {A : Allocator ν} {h' : Heap ν} (ha : alloc A h v = (h', some a)) :
    h.get a = none ∧ h'.get a = some v ∧ ∀ b ≠ a, h'.get b = h.get b := by
  unfold alloc at ha
  cases hm : A.malloc h with
  | none => simp [hm] at ha
  | some c =>
      simp only [hm, Prod.mk.injEq, Option.some.injEq] at ha
      obtain ⟨rfl, rfl⟩ := ha
      exact ⟨get_eq_none.mpr (A.fresh h c hm), get_set h c v, fun b hb => get_set_of_ne h v hb⟩

theorem alloc_none {A : Allocator ν} {h' : Heap ν} (ha : alloc A h v = (h', none)) :
    A.malloc h = none ∧ ∀ b, h'.get b = h.get b := by
  unfold alloc at ha
  cases hm : A.malloc h with
  | none =>
      simp only [hm, Prod.mk.injEq, and_true] at ha
      exact ⟨rfl, fun b => by rw [← ha]; rfl⟩
  | some c => simp [hm] at ha

end Cells

section Chains

variable {link : ν → Option ℕ} {h h' : Heap ν} {first : Option ℕ} {a b : ℕ} {addrs : List ℕ} {v : ν}

def next (link : ν → Option ℕ) (h : Heap ν) (a : ℕ) : Option ℕ := (h.get a).bind link

-- The records met from `first` by their links, up to one without a link.
structure Chain (link : ν → Option ℕ) (h : Heap ν) (first : Option ℕ) (addrs : List ℕ) : Prop where
  seg : Seg (h.next link) first addrs none
  live : ∀ a ∈ addrs, (h.get a).isSome

namespace Chain

theorem nil : Chain link h none [] := ⟨rfl, by simp⟩

theorem nodup (c : Chain link h first addrs) : addrs.Nodup := c.seg.nodup

theorem congr (c : Chain link h first addrs) (hg : ∀ a ∈ addrs, h'.get a = h.get a) :
    Chain link h' first addrs := by
  refine ⟨c.seg.congr fun a ha => ?_, fun a ha => ?_⟩
  · unfold next
    rw [hg a ha]
  · rw [hg a ha]
    exact c.live a ha

theorem cons_iff : Chain link h first (a :: addrs) ↔
    first = some a ∧ ∃ v, h.get a = some v ∧ Chain link h (link v) addrs := by
  constructor
  · rintro ⟨⟨hfirst, hseg⟩, hlive⟩
    obtain ⟨v, hv⟩ := Option.isSome_iff_exists.mp (hlive a List.mem_cons_self)
    refine ⟨hfirst, v, hv, ?_, fun b hb => hlive b (List.mem_cons_of_mem _ hb)⟩
    rwa [next, hv] at hseg
  · rintro ⟨hfirst, v, hv, hseg, hlive⟩
    refine ⟨⟨hfirst, ?_⟩, fun b hb => ?_⟩
    · rwa [next, hv]
    · rcases List.mem_cons.mp hb with rfl | hb
      · simp [hv]
      · exact hlive b hb

-- A walk along a chain takes no more steps than there are records.
theorem length_le (c : Chain link h first addrs) : addrs.length ≤ h.cells.keys.card := by
  rw [← List.toFinset_card_of_nodup c.nodup]
  apply Finset.card_le_card
  intro a ha
  rw [Finmap.mem_keys, ← Finmap.lookup_isSome]
  exact c.live a (List.mem_toFinset.mp ha)

-- The last record comes to point at a new one that has no link.
theorem push {w : ν} (c : Chain link h first (addrs ++ [a])) (hb : h.get b = none)
    (ha : (h'.get a).bind link = some b) (hw : h'.get b = some w) (hlink : link w = none)
    (hg : ∀ i, i ≠ a → i ≠ b → h'.get i = h.get i) : Chain link h' first (addrs ++ [a] ++ [b]) := by
  have hne : ∀ i ∈ addrs ++ [a], i ≠ b := by
    rintro i hi rfl
    have hlive := c.live i hi
    simp [hb] at hlive
  have hold : Seg (h'.next link) first (addrs ++ [a]) (some b) := by
    refine c.seg.redirect c.nodup (by simp) (fun i hi => ?_) (fun i hi hlast => ?_)
    · obtain rfl : a = i := by simpa using hi
      exact ha
    · have hia : i ≠ a := fun he => hlast (by simp [he])
      unfold next
      rw [hg i hia (hne i hi)]
  refine ⟨(seg_append _ _).mpr ⟨some b, hold, rfl, ?_⟩, fun i hi => ?_⟩
  · show h'.next link b = none
    unfold next
    rw [hw, Option.bind_some, hlink]
  · by_cases hib : i = b
    · simp [hib, hw]
    · by_cases hia : i = a
      · rw [hia, Option.isSome_iff_exists]
        obtain ⟨v, hv, -⟩ := Option.bind_eq_some_iff.mp ha
        exact ⟨v, hv⟩
      · rw [hg i hia hib]
        refine c.live i ?_
        simpa [hib] using hi

end Chain

end Chains

end Heap
