import UserPageCache.Lib.System
import UserPageCache.SsdCache.HashTable.Theorems

namespace UserPageCache.SsdCache

-- The table with the bindings that were made and not undone, the newest first.
structure Hashing where
  table : HashTable
  es : EntrySpace
  bindings : List (Work × Nat)

inductive HashAction where
  | hInsert (e : Nat)
  | hLookup (fullPathName : CString) (cachePageIndex : Nat)
  | hRemove (e : Nat)
  | setEntry (e : Nat) (entry : Entry)

namespace Hashing

def keys (s : Hashing) : List Work := s.bindings.map Prod.fst

def entries (s : Hashing) : List Nat := s.bindings.map Prod.snd

-- Entries in the table keep their key and their place in the chain when others write to them.
def enabled (s : Hashing) : HashAction → Prop
  | .hInsert e => e < CACHE_BLOCK_NUMBER ∧ e ∉ s.entries ∧ keyOf (s.es e) ∉ s.keys
  | .hLookup _ _ => True
  | .hRemove e => e ∈ s.entries
  | .setEntry e entry =>
    e ∈ s.entries → keyOf entry = keyOf (s.es e) ∧ entry.hashNext = (s.es e).hashNext

instance (s : Hashing) : (a : HashAction) → Decidable (s.enabled a)
  | .hInsert e => inferInstanceAs (Decidable (e < CACHE_BLOCK_NUMBER ∧ _ ∧ _))
  | .hLookup _ _ => .isTrue trivial
  | .hRemove e => inferInstanceAs (Decidable (e ∈ s.entries))
  | .setEntry e _ => inferInstanceAs (Decidable (e ∈ s.entries → _ ∧ _))

def act : HashAction → Hashing → Except Fault Hashing
  | .hInsert e, s =>
    .ok { table := (SsdCache.hInsert s.table s.es e).1
          es := (SsdCache.hInsert s.table s.es e).2
          bindings := (keyOf (s.es e), e) :: s.bindings }
  | .hLookup fullPathName cachePageIndex, s => do
    let (table, es, _) ← SsdCache.hLookup s.table s.es fullPathName cachePageIndex
    return { s with table := table, es := es }
  | .hRemove e, s => do
    let (table, es) ← SsdCache.hRemove s.table s.es e
    return { table := table, es := es, bindings := s.bindings.filter (·.2 ≠ e) }
  | .setEntry e entry, s => .ok { s with es := Function.update s.es e entry }

end Hashing

def hashing : System Hashing HashAction Fault where
  start s := (∃ ht, s.table = allocHashTable ht) ∧ s.bindings = []
  enabled a s := s.enabled a
  act := Hashing.act

instance (a : HashAction) (s : Hashing) : Decidable (hashing.enabled a s) :=
  inferInstanceAs (Decidable (s.enabled a))

section Chains

variable {es es' : EntrySpace} {ht ht' : HashTable} {chain chain' : Nat → List Nat}

-- The keys of its entries say which chain an entry is in.
theorem IsHashTable.mem_iff (t : IsHashTable es ht chain) {h e : Nat} (hh : h < BUCKETS_NUMBER) :
    e ∈ chain h ↔ Hashed chain e ∧ bucketOf ht (keyOf (es e)) = h := by
  constructor
  · exact fun he => ⟨⟨h, hh, he⟩, t.home h hh e he⟩
  · rintro ⟨he, rfl⟩
    exact t.hashed_iff.mp he

theorem IsHashTable.bucketOf_eq (t : IsHashTable es ht chain) (t' : IsHashTable es' ht' chain')
    (key : Work) : bucketOf ht' key = bucketOf ht key := by
  unfold bucketOf
  rw [t.bits, t'.bits]

theorem IsHashTable.perm_of_hashed (t : IsHashTable es ht chain) (t' : IsHashTable es' ht' chain')
    (ho : HashOnly es es') (hh : ∀ e, Hashed chain' e ↔ Hashed chain e) {h : Nat}
    (hb : h < BUCKETS_NUMBER) : (chain' h).Perm (chain h) := by
  apply (List.perm_ext_iff_of_nodup (t'.links h hb).nodup (t.links h hb).nodup).mpr
  intro e
  rw [t'.mem_iff hb, t.mem_iff hb, hh e, ho.keyOf, t.bucketOf_eq t']

theorem IsHashTable.erase_perm_of_hashed (t : IsHashTable es ht chain)
    (t' : IsHashTable es' ht' chain') (ho : HashOnly es es') {x : Nat}
    (hh : ∀ e, Hashed chain' e ↔ Hashed chain e ∧ e ≠ x) {h : Nat} (hb : h < BUCKETS_NUMBER) :
    (chain' h).Perm ((chain h).erase x) := by
  have hnodup := (t.links h hb).nodup
  apply (List.perm_ext_iff_of_nodup (t'.links h hb).nodup (hnodup.erase x)).mpr
  intro e
  rw [hnodup.mem_erase_iff, t'.mem_iff hb, t.mem_iff hb, hh e, ho.keyOf, t.bucketOf_eq t']
  tauto

end Chains

-- The chains hold the bound entries, each under its key, and no key is bound twice.
structure Hashing.Holds (s : Hashing) (chain : Nat → List Nat) : Prop where
  chains : IsHashTable s.es s.table chain
  entries : ∀ e, Hashed chain e ↔ e ∈ s.entries
  keyed : ∀ p ∈ s.bindings, keyOf (s.es p.2) = p.1
  keys : s.keys.Nodup

section Runs

variable {s s' : Hashing} {chain : Nat → List Nat} {e : Nat}

theorem mem_entries : e ∈ s.entries ↔ ∃ key, (key, e) ∈ s.bindings := by
  simp [Hashing.entries]

theorem Hashing.Holds.binding (h : s.Holds chain) (he : e ∈ s.entries) :
    (keyOf (s.es e), e) ∈ s.bindings := by
  obtain ⟨key, hm⟩ := mem_entries.mp he
  rw [h.keyed _ hm]
  exact hm

theorem Hashing.Holds.unique (h : s.Holds chain) {i : Nat} (hi : i ∈ s.entries)
    (he : e ∈ s.entries) (hk : keyOf (s.es i) = keyOf (s.es e)) : i = e := by
  have hinj := List.inj_on_of_nodup_map h.keys (h.binding hi) (h.binding he) hk
  exact congrArg Prod.snd hinj

theorem Hashing.Holds.lookup_eq_some (h : s.Holds chain) (he : e ∈ s.entries) :
    s.bindings.lookup (keyOf (s.es e)) = some e := by
  have hm := h.binding he
  cases hl : s.bindings.lookup (keyOf (s.es e)) with
  | none => simpa using List.lookup_eq_none_iff.mp hl _ hm
  | some i =>
      obtain ⟨left, right, hs, -⟩ := List.lookup_eq_some_iff.mp hl
      have hi : (keyOf (s.es e), i) ∈ s.bindings := by simp [hs]
      rw [h.unique (mem_entries.mpr ⟨_, hi⟩) he (h.keyed _ hi)]

theorem Hashing.Holds.lookup_eq_none (h : s.Holds chain) {key : Work}
    (hn : ∀ e ∈ s.entries, keyOf (s.es e) ≠ key) : s.bindings.lookup key = none := by
  refine List.lookup_eq_none_iff.mpr fun p hp => ?_
  have hne := hn p.2 (mem_entries.mpr ⟨p.1, hp⟩)
  rw [h.keyed p hp] at hne
  simpa using Ne.symm hne

-- A lookup finds what the key is bound to and only reorders the chains.
theorem Hashing.Holds.hLookup (h : s.Holds chain) (fullPathName : CString) (cachePageIndex : Nat) :
    ∃ table es chain', SsdCache.hLookup s.table s.es fullPathName cachePageIndex =
        .ok (table, es, s.bindings.lookup ⟨fullPathName, cachePageIndex⟩) ∧
      Hashing.Holds { s with table := table, es := es } chain' ∧ HashOnly s.es es ∧
      ∀ b < BUCKETS_NUMBER, (chain' b).Perm (chain b) := by
  obtain ⟨table, es, chain', r, heq, t', ho, hh, hsome, hnone⟩ :=
    hLookup_spec h.chains fullPathName cachePageIndex
  have hr : r = s.bindings.lookup ⟨fullPathName, cachePageIndex⟩ := by
    cases r with
    | some e =>
        obtain ⟨he, hk⟩ := hsome e rfl
        rw [← hk, h.lookup_eq_some ((h.entries e).mp he)]
    | none => exact (h.lookup_eq_none fun e he => hnone rfl e ((h.entries e).mpr he)).symm
  refine ⟨table, es, chain', hr ▸ heq, ⟨t', fun e => ?_, fun p hp => ?_, h.keys⟩, ho,
    fun b hb => h.chains.perm_of_hashed t' ho hh hb⟩
  · exact (hh e).trans (h.entries e)
  · exact (ho.keyOf p.2).trans (h.keyed p hp)

-- A removal takes the entry out of its chain and leaves the others where they are.
theorem Hashing.Holds.hRemove (h : s.Holds chain) (he : e ∈ s.entries) :
    ∃ table es chain', SsdCache.hRemove s.table s.es e = .ok (table, es) ∧
      Hashing.Holds ⟨table, es, s.bindings.filter (·.2 ≠ e)⟩ chain' ∧ HashOnly s.es es ∧
      ∀ b < BUCKETS_NUMBER, (chain' b).Perm ((chain b).erase e) := by
  obtain ⟨table, es, chain', heq, t', ho, hh⟩ := hRemove_spec h.chains ((h.entries e).mpr he)
    fun i hi hk => h.unique ((h.entries i).mp hi) he hk
  refine ⟨table, es, chain', heq, ⟨t', fun i => ?_, fun p hp => ?_, ?_⟩, ho,
    fun b hb => h.chains.erase_perm_of_hashed t' ho hh hb⟩
  · rw [hh i, h.entries i]
    simp [Hashing.entries]
  · exact (ho.keyOf p.2).trans (h.keyed p (List.mem_of_mem_filter hp))
  · exact h.keys.sublist (List.filter_sublist.map Prod.fst)

theorem Hashing.Holds.hInsert (h : s.Holds chain) (hlt : e < CACHE_BLOCK_NUMBER)
    (he : e ∉ s.entries) (hk : keyOf (s.es e) ∉ s.keys) :
    ∃ chain', Hashing.Holds ⟨(SsdCache.hInsert s.table s.es e).1, (SsdCache.hInsert s.table s.es e).2,
      (keyOf (s.es e), e) :: s.bindings⟩ chain' := by
  have hb := h.chains.bucketOf_lt (keyOf (s.es e))
  have hnot : ∀ i < BUCKETS_NUMBER, e ∉ chain i := fun i hi hm => he ((h.entries e).mp ⟨i, hi, hm⟩)
  have t' := h.chains.insert hb hlt rfl hnot
  have ho := setHashNext_hashOnly s.es e (s.table.buckets (bucketOf s.table (keyOf (s.es e))))
  refine ⟨_, t', fun i => ?_, fun p hp => ?_, List.nodup_cons.mpr ⟨hk, h.keys⟩⟩
  · have hmem : Hashed (Function.update chain (bucketOf s.table (keyOf (s.es e)))
        (e :: chain (bucketOf s.table (keyOf (s.es e))))) i ↔ i = e ∨ Hashed chain i := by
      constructor
      · rintro ⟨b, hb', hm⟩
        by_cases hbe : b = bucketOf s.table (keyOf (s.es e))
        · subst hbe
          rw [Function.update_self] at hm
          rcases List.mem_cons.mp hm with rfl | hm
          · exact .inl rfl
          · exact .inr ⟨_, hb', hm⟩
        · rw [Function.update_of_ne hbe] at hm
          exact .inr ⟨b, hb', hm⟩
      · rintro (rfl | ⟨b, hb', hm⟩)
        · exact ⟨_, hb, by simp⟩
        · refine ⟨b, hb', ?_⟩
          by_cases hbe : b = bucketOf s.table (keyOf (s.es e))
          · subst hbe
            simp [hm]
          · rwa [Function.update_of_ne hbe]
    rw [hmem, h.entries i]
    simp [Hashing.entries]
  · have hkeep : keyOf ((SsdCache.hInsert s.table s.es e).2 p.2) = keyOf (s.es p.2) := ho.keyOf p.2
    rw [hkeep]
    rcases List.mem_cons.mp hp with rfl | hp
    · rfl
    · exact h.keyed p hp

theorem Hashing.Holds.setEntry (h : s.Holds chain) {entry : Entry}
    (he : e ∈ s.entries → keyOf entry = keyOf (s.es e) ∧ entry.hashNext = (s.es e).hashNext) :
    Hashing.Holds { s with es := Function.update s.es e entry } chain := by
  have hkey : ∀ i ∈ s.entries, keyOf (Function.update s.es e entry i) = keyOf (s.es i) := by
    intro i hi
    by_cases hie : i = e
    · subst hie
      rw [Function.update_self, (he hi).1]
    · rw [Function.update_of_ne hie]
  have hnext : ∀ i ∈ s.entries, hNext (Function.update s.es e entry) i = hNext s.es i := by
    intro i hi
    by_cases hie : i = e
    · subst hie
      unfold hNext
      rw [Function.update_self, (he hi).2]
    · unfold hNext
      rw [Function.update_of_ne hie]
  refine ⟨h.chains.congr (fun b hb i hi => ?_) fun b hb i hi => ?_, h.entries, fun p hp => ?_, h.keys⟩
  · exact hnext i ((h.entries i).mp ⟨b, hb, hi⟩)
  · exact hkey i ((h.entries i).mp ⟨b, hb, hi⟩)
  · exact (hkey p.2 (mem_entries.mpr ⟨p.1, hp⟩)).trans (h.keyed p hp)

theorem Hashing.Holds.start (hs : hashing.start s) : s.Holds fun _ => [] := by
  obtain ⟨⟨ht, hht⟩, hb⟩ := hs
  have hempty : ∀ b < BUCKETS_NUMBER, hHead s.table b = none := by
    intro b hlt
    simp [hHead, hht, allocHashTable, hlt, toEntry]
  refine ⟨⟨?_, fun b hlt => hempty b hlt, by simp, by simp⟩, fun e => ?_, by simp [hb], ?_⟩
  · rw [hht]
    rfl
  · simp [Hashing.entries, hb, Hashed]
  · simp [Hashing.keys, hb]

-- Every enabled action returns and keeps the chains in order.
theorem Hashing.Holds.act (h : s.Holds chain) {a : HashAction} (he : s.enabled a) :
    ∃ s' chain', Hashing.act a s = .ok s' ∧ s'.Holds chain' := by
  cases a with
  | hInsert e =>
      obtain ⟨hlt, hnot, hk⟩ := he
      obtain ⟨chain', h'⟩ := h.hInsert hlt hnot hk
      exact ⟨_, chain', rfl, h'⟩
  | hLookup fullPathName cachePageIndex =>
      obtain ⟨table, es, chain', heq, h', -⟩ := h.hLookup fullPathName cachePageIndex
      refine ⟨_, chain', ?_, h'⟩
      simp only [Hashing.act, heq, bind, Except.bind, pure, Except.pure]
  | hRemove e =>
      obtain ⟨table, es, chain', heq, h', -⟩ := h.hRemove he
      refine ⟨_, chain', ?_, h'⟩
      simp only [Hashing.act, heq, bind, Except.bind, pure, Except.pure]
  | setEntry e entry => exact ⟨_, chain, rfl, h.setEntry he⟩

theorem Hashing.Holds.of_reachable (h : hashing.Reachable System.Always s) :
    ∃ chain, s.Holds chain := by
  refine h.invariant (I := fun s => ∃ chain, s.Holds chain) (fun s hs => ⟨_, .start hs⟩) ?_
  rintro s s' a ⟨chain, hc⟩ he - hact
  obtain ⟨s₁, chain', heq, h'⟩ := hc.act he
  obtain rfl : s₁ = s' := Except.ok.inj (heq.symm.trans hact)
  exact ⟨chain', h'⟩

end Runs

-- What the table is for: a finite map from keys to entries, kept in chains.
structure IsFiniteMap (s : Hashing) (chain : Nat → List Nat) : Prop where
  linked : ∀ b < BUCKETS_NUMBER,
    Linked.Seg (hNext s.es) (hHead s.table b) (chain b) none ∧ (chain b).Nodup
  placed : ∀ key e, (key, e) ∈ s.bindings → keyOf (s.es e) = key ∧
    hash32 key.fullPathName key.cachePageIndex s.table.hashBits < BUCKETS_NUMBER ∧
    ∀ b < BUCKETS_NUMBER, e ∈ chain b ↔
      b = hash32 key.fullPathName key.cachePageIndex s.table.hashBits
  bound : ∀ b < BUCKETS_NUMBER, ∀ e ∈ chain b, e ∈ s.entries
  lookup : ∀ fullPathName cachePageIndex, ∃ (table : HashTable) (es : EntrySpace)
      (chain' : Nat → List Nat),
    hLookup s.table s.es fullPathName cachePageIndex =
      .ok (table, es, s.bindings.lookup ⟨fullPathName, cachePageIndex⟩) ∧
    HashOnly s.es es ∧ ∀ b < BUCKETS_NUMBER,
      Linked.Seg (hNext es) (hHead table b) (chain' b) none ∧ (chain' b).Perm (chain b)
  remove : ∀ e ∈ s.entries, ∃ (table : HashTable) (es : EntrySpace) (chain' : Nat → List Nat),
    hRemove s.table s.es e = .ok (table, es) ∧ HashOnly s.es es ∧ ∀ b < BUCKETS_NUMBER,
      Linked.Seg (hNext es) (hHead table b) (chain' b) none ∧ (chain' b).Perm ((chain b).erase e)

theorem Hashing.Holds.isFiniteMap {s : Hashing} {chain : Nat → List Nat} (h : s.Holds chain) :
    IsFiniteMap s chain where
  linked b hb := ⟨h.chains.links b hb, (h.chains.links b hb).nodup⟩
  placed key e hm := by
    have hk : keyOf (s.es e) = key := h.keyed _ hm
    have he : Hashed chain e := (h.entries e).mpr (mem_entries.mpr ⟨key, hm⟩)
    refine ⟨hk, h.chains.bucketOf_lt key, fun b hb => ?_⟩
    rw [h.chains.mem_iff hb, hk]
    exact ⟨fun hm => hm.2.symm, fun heq => ⟨he, heq.symm⟩⟩
  bound b hb e he := (h.entries e).mp ⟨b, hb, he⟩
  lookup fullPathName cachePageIndex := by
    obtain ⟨table, es, chain', heq, h', ho, hp⟩ := h.hLookup fullPathName cachePageIndex
    exact ⟨table, es, chain', heq, ho, fun b hb => ⟨h'.chains.links b hb, hp b hb⟩⟩
  remove e he := by
    obtain ⟨table, es, chain', heq, h', ho, hp⟩ := h.hRemove he
    exact ⟨table, es, chain', heq, ho, fun b hb => ⟨h'.chains.links b hb, hp b hb⟩⟩

theorem hash_table_map {s : Hashing} (h : hashing.Reachable System.Always s) :
    ∃ chain, IsFiniteMap s chain := by
  obtain ⟨chain, hc⟩ := Hashing.Holds.of_reachable h
  exact ⟨chain, hc.isFiniteMap⟩

-- Entries that all fall into one bucket.
def Hashing.boot : Hashing :=
  ⟨allocHashTable ⟨0, fun _ => 0⟩, fun e => ⟨0, 0, 0, 0, [⟨97, nonzero_a⟩], e * 2 ^ 17⟩, []⟩

-- The last entry of the chain is moved to the front, then one from its middle is removed.
def Hashing.bootRun : List HashAction :=
  [.hInsert 0, .hInsert 1, .hInsert 2, .hLookup [⟨97, nonzero_a⟩] 0, .hRemove 2]

theorem hash_table_map_bootRun : ∃ s chain, s.bindings =
    [(⟨[⟨97, nonzero_a⟩], 2 ^ 17⟩, 1), (⟨[⟨97, nonzero_a⟩], 0⟩, 0)] ∧ IsFiniteMap s chain := by
  have hstart : hashing.start Hashing.boot := ⟨⟨⟨0, fun _ => 0⟩, rfl⟩, rfl⟩
  obtain ⟨s, hs, hb⟩ := (System.Reachable.start hstart).exists_run (fun _ _ _ => trivial)
    (show _ = true from (by decide +kernel : (hashing.run Hashing.boot Hashing.bootRun).any
      (fun s => s.bindings ==
        [(⟨[⟨97, nonzero_a⟩], 2 ^ 17⟩, 1), (⟨[⟨97, nonzero_a⟩], 0⟩, 0)]) = true))
  obtain ⟨chain, h⟩ := hash_table_map hs
  exact ⟨s, chain, beq_iff_eq.mp hb, h⟩

end UserPageCache.SsdCache
