import UserPageCache.SsdCache.HashTable
import UserPageCache.SsdCache.Entry.Theorems
import Mathlib.Data.List.Perm.Subperm

namespace UserPageCache.SsdCache

open Linked

-- The key an entry is hashed under.
def keyOf (e : Entry) : Work := ⟨e.fullPathName, e.cachePageIndex⟩

def bucketOf (ht : HashTable) (key : Work) : Nat :=
  hash32 key.fullPathName key.cachePageIndex ht.hashBits

theorem hash32_lt (fullPathName : CString) (cachePageIndex : Nat) :
    hash32 fullPathName cachePageIndex 17 < BUCKETS_NUMBER := by
  simp only [hash32, u32, BUCKETS_NUMBER]
  omega

section Links

@[simp] theorem hNext_setHashNext (es : EntrySpace) (e v : Nat) :
    hNext (setHashNext es e v) = Function.update (hNext es) e (toEntry v) := by
  funext i
  by_cases h : i = e <;> simp [hNext, setHashNext, h]

-- The hash operations rewrite hash_next only.
def HashOnly (before after : EntrySpace) : Prop :=
  ∀ i, after i = { before i with hashNext := (after i).hashNext }

theorem HashOnly.refl (es : EntrySpace) : HashOnly es es := fun _ => rfl

theorem HashOnly.trans {a b c : EntrySpace} (hab : HashOnly a b) (hbc : HashOnly b c) :
    HashOnly a c := by
  intro i
  rw [hbc i, hab i]

theorem setHashNext_hashOnly (es : EntrySpace) (e v : Nat) : HashOnly es (setHashNext es e v) := by
  intro i
  by_cases h : i = e <;> simp [setHashNext, h]

theorem HashOnly.keyOf {a b : EntrySpace} (h : HashOnly a b) (i : Nat) :
    keyOf (b i) = keyOf (a i) := by
  rw [h i]
  rfl

@[simp] theorem hHead_setBucket (ht : HashTable) (h e i : Nat) :
    hHead (setBucket ht h e) i = if i = h then toEntry e else hHead ht i := by
  by_cases hi : i = h <;> simp [hHead, setBucket, hi]

end Links

-- Every bucket is the head of a chain of entries whose keys hash to it.
structure IsHashTable (es : EntrySpace) (ht : HashTable) (chain : Nat → List Nat) : Prop where
  bits : ht.hashBits = 17
  links : ∀ h < BUCKETS_NUMBER, Seg (hNext es) (hHead ht h) (chain h) none
  home : ∀ h < BUCKETS_NUMBER, ∀ e ∈ chain h, bucketOf ht (keyOf (es e)) = h
  bound : ∀ h < BUCKETS_NUMBER, ∀ e ∈ chain h, e < CACHE_BLOCK_NUMBER

section Spec

variable {es : EntrySpace} {ht : HashTable} {chain : Nat → List Nat}

theorem IsHashTable.bucketOf_lt (t : IsHashTable es ht chain) (key : Work) :
    bucketOf ht key < BUCKETS_NUMBER := by
  unfold bucketOf
  rw [t.bits]
  exact hash32_lt _ _

theorem IsHashTable.length_le (t : IsHashTable es ht chain) {h : Nat} (hh : h < BUCKETS_NUMBER) :
    (chain h).length ≤ CACHE_BLOCK_NUMBER := by
  have hs : chain h ⊆ List.range CACHE_BLOCK_NUMBER :=
    fun e he => List.mem_range.mpr (t.bound h hh e he)
  simpa using (List.subperm_of_subset (t.links h hh).nodup hs).length_le

-- The chains depend on the entries only through hash_next and the keys of the
-- entries in them.
theorem IsHashTable.congr {es' : EntrySpace} (t : IsHashTable es ht chain)
    (hnext : ∀ h < BUCKETS_NUMBER, ∀ e ∈ chain h, hNext es' e = hNext es e)
    (hkey : ∀ h < BUCKETS_NUMBER, ∀ e ∈ chain h, keyOf (es' e) = keyOf (es e)) :
    IsHashTable es' ht chain where
  bits := t.bits
  links h hh := (t.links h hh).congr (hnext h hh)
  home h hh e he := by rw [hkey h hh e he]; exact t.home h hh e he
  bound := t.bound

-- The walk stops at the first entry with the key and remembers the one before it.
theorem hLookupFrom_spec (fullPathName : CString) (cachePageIndex fuel : Nat)
    (first prev : Option Nat) (nodes : List Nat) (hs : Seg (hNext es) first nodes none)
    (hf : nodes.length ≤ fuel) :
    (∃ left e right, nodes = left ++ e :: right ∧
      keyOf (es e) = ⟨fullPathName, cachePageIndex⟩ ∧
      (∀ i ∈ left, keyOf (es i) ≠ ⟨fullPathName, cachePageIndex⟩) ∧
      hLookupFrom es fullPathName cachePageIndex fuel prev first =
        .ok (some e, left.getLast?.or prev)) ∨
    ((∀ i ∈ nodes, keyOf (es i) ≠ ⟨fullPathName, cachePageIndex⟩) ∧
      hLookupFrom es fullPathName cachePageIndex fuel prev first =
        .ok (none, nodes.getLast?.or prev)) := by
  induction nodes generalizing fuel first prev with
  | nil =>
      obtain rfl : first = none := hs
      exact .inr ⟨by simp, by simp [hLookupFrom]⟩
  | cons e rest ih =>
      obtain ⟨rfl, hrest⟩ := hs
      cases fuel with
      | zero => simp at hf
      | succ fuel =>
          by_cases hk : keyOf (es e) = ⟨fullPathName, cachePageIndex⟩
          · refine .inl ⟨[], e, rest, rfl, hk, by simp, ?_⟩
            simp only [keyOf, Work.mk.injEq] at hk
            simp [hLookupFrom, hk]
          · have hne : ¬(cachePageIndex = (es e).cachePageIndex ∧
                fullPathName = (es e).fullPathName) := by
              rintro ⟨rfl, rfl⟩
              exact hk rfl
            have hlast : ∀ l : List Nat, (e :: l).getLast?.or prev = l.getLast?.or (some e) := by
              intro l
              cases l with
              | nil => rfl
              | cons a l => simp [List.getLast?_cons]
            simp only [hLookupFrom, hne, ite_false]
            rcases ih fuel (hNext es e) (some e) hrest (by simpa using hf) with
              ⟨left, x, right, rfl, hx, hleft, hr⟩ | ⟨hnone, hr⟩
            · refine .inl ⟨e :: left, x, right, rfl, hx, ?_, by rw [hr, hlast]⟩
              intro i hi
              rcases List.mem_cons.mp hi with rfl | hi
              · exact hk
              · exact hleft i hi
            · refine .inr ⟨?_, by rw [hr, hlast]⟩
              intro i hi
              rcases List.mem_cons.mp hi with rfl | hi
              · exact hk
              · exact hnone i hi

-- One bucket gets a new chain of its own entries, the others keep theirs.
theorem IsHashTable.replace (t : IsHashTable es ht chain) {es' : EntrySpace} {ht' : HashTable}
    {h : Nat} {nodes : List Nat} (hb : ht'.hashBits = ht.hashBits) (ho : HashOnly es es')
    (hs : Seg (hNext es') (hHead ht' h) nodes none)
    (hothers : ∀ i < BUCKETS_NUMBER, i ≠ h → Seg (hNext es') (hHead ht' i) (chain i) none)
    (hnodes : ∀ n ∈ nodes, bucketOf ht (keyOf (es n)) = h ∧ n < CACHE_BLOCK_NUMBER) :
    IsHashTable es' ht' (Function.update chain h nodes) := by
  have hmem : ∀ i < BUCKETS_NUMBER, ∀ n ∈ Function.update chain h nodes i,
      bucketOf ht (keyOf (es n)) = i ∧ n < CACHE_BLOCK_NUMBER := by
    intro i hi n hm
    by_cases hih : i = h
    · subst i
      rw [Function.update_self] at hm
      exact hnodes n hm
    · rw [Function.update_of_ne hih] at hm
      exact ⟨t.home i hi n hm, t.bound i hi n hm⟩
  refine ⟨hb.trans t.bits, fun i hi => ?_, fun i hi n hm => ?_, fun i hi n hm => (hmem i hi n hm).2⟩
  · by_cases hih : i = h
    · subst i
      simpa using hs
    · simpa [hih] using hothers i hi hih
  · rw [ho.keyOf, bucketOf, hb]
    exact (hmem i hi n hm).1

theorem IsHashTable.insert (t : IsHashTable es ht chain) {h e : Nat} (hh : h < BUCKETS_NUMBER)
    (he : e < CACHE_BLOCK_NUMBER) (hk : bucketOf ht (keyOf (es e)) = h)
    (hn : ∀ i < BUCKETS_NUMBER, e ∉ chain i) :
    IsHashTable (hInsertBucket ht es h e).2 (hInsertBucket ht es h e).1
      (Function.update chain h (e :: chain h)) := by
  have hne : e ≠ INDEXER_NULL := by
    simp only [CACHE_BLOCK_NUMBER, INDEXER_NULL] at he ⊢
    omega
  have hrest : ∀ i < BUCKETS_NUMBER,
      Seg (hNext (setHashNext es e (ht.buckets h))) (hHead ht i) (chain i) none := by
    intro i hi
    apply (t.links i hi).congr
    intro n hm
    have hne : n ≠ e := fun heq => hn i hi (heq ▸ hm)
    simp [hne]
  have hbits : (setBucket ht h e).hashBits = ht.hashBits := rfl
  apply t.replace (h := h) hbits (setHashNext_hashOnly es e (ht.buckets h))
  · refine ⟨by simp [toEntry_of_ne hne], ?_⟩
    simpa [hHead] using hrest h hh
  · intro i hi hih
    simpa [hih] using hrest i hi
  · intro n hm
    rcases List.mem_cons.mp hm with rfl | hm
    · exact ⟨hk, he⟩
    · exact ⟨t.home h hh n hm, t.bound h hh n hm⟩

theorem IsHashTable.unlink (t : IsHashTable es ht chain) {h e : Nat} {left right : List Nat}
    (hh : h < BUCKETS_NUMBER) (hc : chain h = left ++ e :: right) :
    IsHashTable (hUnlink ht es h e left.getLast?).2 (hUnlink ht es h e left.getLast?).1
      (Function.update chain h (left ++ right)) := by
  have hseg := hc ▸ t.links h hh
  have hnodup := List.nodup_append.mp hseg.nodup
  obtain ⟨hl, hr⟩ := hseg.split
  have hnext : toEntry (es e).hashNext = hNext es e := rfl
  have hkept : ∀ n ∈ left ++ right, bucketOf ht (keyOf (es n)) = h ∧ n < CACHE_BLOCK_NUMBER := by
    intro n hm
    have hm' : n ∈ chain h := by
      rw [hc]
      rcases List.mem_append.mp hm with hm | hm <;> simp [hm]
    exact ⟨t.home h hh n hm', t.bound h hh n hm'⟩
  cases hlast : left.getLast? with
  | none =>
      obtain rfl := List.getLast?_eq_none_iff.mp hlast
      have hbits : (setBucket ht h (es e).hashNext).hashBits = ht.hashBits := rfl
      apply t.replace (h := h) hbits (HashOnly.refl es) ?_ ?_ hkept
      · simpa [hnext] using hr
      · intro i hi hih
        simpa [hih] using t.links i hi
  | some p =>
      have hp : p ∈ left := List.mem_of_getLast? hlast
      apply t.replace (h := h) rfl (setHashNext_hashOnly es p (es e).hashNext) ?_ ?_ hkept
      · simp only [hNext_setHashNext, hnext]
        refine (seg_append left right).mpr ⟨hNext es e, ?_, ?_⟩
        · apply hl.redirect hnodup.1
          · simp [List.ne_nil_of_mem hp]
          · intro n hn
            obtain rfl : p = n := Option.some.inj (hlast.symm.trans hn)
            simp
          · intro n _ hn
            have hne : n ≠ p := fun heq => hn (heq ▸ hlast)
            simp [hne]
        · apply hr.congr
          intro n hm
          have hne : n ≠ p := fun heq => hnodup.2.2 p hp n (by simp [hm]) heq.symm
          simp [hne]
      · intro i hi hih
        apply (t.links i hi).congr
        intro n hm
        have hne : n ≠ p := by
          rintro rfl
          have h1 := t.home i hi n hm
          have h2 := t.home h hh n (by simp [hc, hp])
          exact hih (h1.symm.trans h2)
        simp [hne]

-- The entries of all chains. Which chain holds an entry follows from its key.
def Hashed (chain : Nat → List Nat) (e : Nat) : Prop := ∃ h < BUCKETS_NUMBER, e ∈ chain h

theorem IsHashTable.hashed_iff (t : IsHashTable es ht chain) {e : Nat} :
    Hashed chain e ↔ e ∈ chain (bucketOf ht (keyOf (es e))) := by
  constructor
  · rintro ⟨h, hh, he⟩
    rwa [t.home h hh e he]
  · exact fun he => ⟨_, t.bucketOf_lt _, he⟩

theorem hashed_update_perm {h : Nat} {nodes : List Nat} (hp : nodes.Perm (chain h)) {e : Nat} :
    Hashed (Function.update chain h nodes) e ↔ Hashed chain e := by
  have hmem : ∀ i, e ∈ Function.update chain h nodes i ↔ e ∈ chain i := by
    intro i
    by_cases hih : i = h
    · subst i
      simpa using hp.mem_iff
    · simp [hih]
  simp only [Hashed, hmem]

private theorem rotate_perm {nodes left right : List Nat} {e : Nat}
    (hc : nodes = left ++ e :: right) : (e :: (left ++ right)).Perm nodes := by
  rw [hc]
  exact List.perm_middle.symm

-- A hit returns the entry with the key, a miss means that there is none; the
-- entries in the table stay the same.
theorem hLookup_spec (t : IsHashTable es ht chain) (fullPathName : CString)
    (cachePageIndex : Nat) :
    ∃ ht' es' chain' r, hLookup ht es fullPathName cachePageIndex = .ok (ht', es', r) ∧
      IsHashTable es' ht' chain' ∧ HashOnly es es' ∧ (∀ e, Hashed chain' e ↔ Hashed chain e) ∧
      (∀ e, r = some e → Hashed chain e ∧ keyOf (es e) = ⟨fullPathName, cachePageIndex⟩) ∧
      (r = none → ∀ e, Hashed chain e → keyOf (es e) ≠ ⟨fullPathName, cachePageIndex⟩) := by
  let h := bucketOf ht ⟨fullPathName, cachePageIndex⟩
  have hh : h < BUCKETS_NUMBER := t.bucketOf_lt _
  rcases hLookupFrom_spec fullPathName cachePageIndex CACHE_BLOCK_NUMBER _ none _
    (t.links h hh) (t.length_le hh) with ⟨left, e, right, hc, hk, _, hr⟩ | ⟨hnone, hr⟩
  · have hm : e ∈ chain h := by simp [hc]
    have hfound : ∀ i, some e = some i → Hashed chain i ∧
        keyOf (es i) = ⟨fullPathName, cachePageIndex⟩ := by
      intro i hi
      obtain rfl := Option.some.inj hi
      exact ⟨⟨h, hh, hm⟩, hk⟩
    rw [Option.or_none] at hr
    cases hlast : left.getLast? with
    | none =>
        refine ⟨ht, es, chain, some e, ?_, t, HashOnly.refl es, fun _ => Iff.rfl, hfound, by simp⟩
        have hb : hLookupBucket ht es h fullPathName cachePageIndex = .ok (some e, none) :=
          hlast ▸ hr
        simp only [hLookup, show hash32 fullPathName cachePageIndex ht.hashBits = h from rfl, hb,
          bind, Except.bind, pure, Except.pure]
    | some p =>
        have hu := t.unlink hh hc
        rw [hlast] at hu
        have ho : HashOnly es (hUnlink ht es h e (some p)).2 := setHashNext_hashOnly _ _ _
        have hnotin : ∀ i < BUCKETS_NUMBER, e ∉ Function.update chain h (left ++ right) i := by
          intro i hi hmem
          have hih : i = h := by
            rw [← hu.home i hi e hmem, ho.keyOf, hk]
            rfl
          subst hih
          rw [Function.update_self] at hmem
          have hn := (t.links h hh).nodup
          rw [hc, List.nodup_middle] at hn
          exact (List.nodup_cons.mp hn).1 hmem
        have hins := hu.insert hh (t.bound h hh e hm) (by rw [ho.keyOf, hk]; rfl) hnotin
        refine ⟨_, _, _, some e, ?_, hins, ho.trans (setHashNext_hashOnly _ _ _), ?_, hfound,
          by simp⟩
        · have hb : hLookupBucket ht es h fullPathName cachePageIndex = .ok (some e, some p) :=
            hlast ▸ hr
          simp only [hLookup, show hash32 fullPathName cachePageIndex ht.hashBits = h from rfl, hb,
            bind, Except.bind, pure, Except.pure]
        · intro i
          rw [Function.update_self, Function.update_idem]
          exact hashed_update_perm (rotate_perm hc)
  · refine ⟨ht, es, chain, none, ?_, t, HashOnly.refl es, fun _ => Iff.rfl, by simp, ?_⟩
    · have hb : hLookupBucket ht es h fullPathName cachePageIndex =
          .ok (none, (chain h).getLast?.or none) := hr
      simp only [hLookup, show hash32 fullPathName cachePageIndex ht.hashBits = h from rfl, hb,
        bind, Except.bind, pure, Except.pure]
    · intro _ e he hk
      have hm := t.hashed_iff.mp he
      rw [hk] at hm
      exact hnone e hm hk

-- Removing by key takes out the given entry when its key is its own.
theorem hRemove_spec (t : IsHashTable es ht chain) {e : Nat} (he : Hashed chain e)
    (hu : ∀ i, Hashed chain i → keyOf (es i) = keyOf (es e) → i = e) :
    ∃ ht' es' chain', hRemove ht es e = .ok (ht', es') ∧ IsHashTable es' ht' chain' ∧
      HashOnly es es' ∧ ∀ i, Hashed chain' i ↔ Hashed chain i ∧ i ≠ e := by
  let h := bucketOf ht (keyOf (es e))
  have hh : h < BUCKETS_NUMBER := t.bucketOf_lt _
  have hm : e ∈ chain h := t.hashed_iff.mp he
  rcases hLookupFrom_spec (es e).fullPathName (es e).cachePageIndex CACHE_BLOCK_NUMBER _ none _
    (t.links h hh) (t.length_le hh) with ⟨left, i, right, hc, hk, _, hr⟩ | ⟨hnone, _⟩
  · have hi : i = e := hu i ⟨h, hh, by simp [hc]⟩ hk
    subst i
    rw [Option.or_none] at hr
    refine ⟨_, _, _, ?_, t.unlink hh hc, ?_, ?_⟩
    · have hb : hLookupBucket ht es h (es e).fullPathName (es e).cachePageIndex =
          .ok (some e, left.getLast?) := hr
      simp only [hRemove, show hash32 (es e).fullPathName (es e).cachePageIndex ht.hashBits = h
        from rfl, hb, bind, Except.bind, pure, Except.pure]
    · cases left.getLast? with
      | none => exact HashOnly.refl es
      | some p => exact setHashNext_hashOnly _ _ _
    · have hn := (t.links h hh).nodup
      rw [hc, List.nodup_middle] at hn
      have hnot := (List.nodup_cons.mp hn).1
      intro j
      constructor
      · rintro ⟨b, hb, hj⟩
        by_cases hbh : b = h
        · subst hbh
          rw [Function.update_self] at hj
          refine ⟨⟨h, hh, ?_⟩, fun heq => hnot (heq ▸ hj)⟩
          rw [hc]
          rcases List.mem_append.mp hj with hj | hj <;> simp [hj]
        · rw [Function.update_of_ne hbh] at hj
          refine ⟨⟨b, hb, hj⟩, fun heq => hbh ?_⟩
          subst heq
          exact (t.home b hb j hj).symm
      · rintro ⟨⟨b, hb, hj⟩, hne⟩
        refine ⟨b, hb, ?_⟩
        by_cases hbh : b = h
        · subst hbh
          rw [hc] at hj
          simpa [hne] using hj
        · rwa [Function.update_of_ne hbh]
  · exact absurd rfl (hnone e hm)

end Spec

end UserPageCache.SsdCache
