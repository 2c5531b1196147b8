import UserPageCache.SsdCache.Mapping
import UserPageCache.SsdCache.Table.Theorems
import UserPageCache.SsdCache.HashTable.Theorems
import UserPageCache.SsdCache.WorkQueue.Theorems

namespace UserPageCache.SsdCache

open Linked

def slotOf (e : Entry) : Slot Work :=
  { key := keyOf e
    pending := entryGetPending e
    dirty := entryGetDirty e
    alloc := entryGetAlloc e }

-- The fields that init_mapping sets once.
structure Geometry where
  blockSize : Nat
  cacheBlockNum : Nat
  blockPerCblockShift : Nat
  blockPerPageShift : Nat

def geometryOf (m : Mapping) : Geometry :=
  { blockSize := m.blockSize
    cacheBlockNum := m.cacheBlockNum
    blockPerCblockShift := m.blockPerCblockShift
    blockPerPageShift := m.blockPerPageShift }

def IsHashed (es : EntrySpace) (ht : HashTable) (hashed : Finset Nat) : Prop :=
  ∃ chain, IsHashTable es ht chain ∧ ∀ e, e ∈ hashed ↔ Hashed chain e

-- The mapping in memory represents the table.
structure Repr (g : Geometry) (m : Mapping) (t : Table Work) : Prop where
  geometry : geometryOf m = g
  capacity : g.cacheBlockNum ≤ CACHE_BLOCK_NUMBER
  begin : m.ea.begin = 0
  free : IsIlist m.es m.ea.free t.free
  clean : IsIlist m.es m.clean t.clean
  dirty : IsIlist m.es m.dirty t.dirty
  apart : t.listed.Nodup
  bound : ∀ b ∈ t.listed, b < g.cacheBlockNum
  slot : t.slot = fun b => slotOf (m.es b)
  hash : IsHashed m.es m.table t.hashed
  queue : IsQueue m.wq t.queue
  allocated : m.ea.nrAllocated + t.free.length = g.cacheBlockNum

section Pieces

variable {g : Geometry} {m : Mapping} {t : Table Work} {b : Nat}

theorem Repr.cacheBlockNum (r : Repr g m t) : m.cacheBlockNum = g.cacheBlockNum :=
  congrArg Geometry.cacheBlockNum r.geometry

theorem Repr.shift (r : Repr g m t) : m.blockPerCblockShift = g.blockPerCblockShift :=
  congrArg Geometry.blockPerCblockShift r.geometry

theorem Repr.slot_eq (r : Repr g m t) (b : Nat) : t.slot b = slotOf (m.es b) := congrFun r.slot b

theorem Repr.getPending (r : Repr g m t) (b : Nat) :
    entryGetPending (m.es b) = (t.slot b).pending := by rw [r.slot_eq]; rfl

theorem Repr.getDirty (r : Repr g m t) (b : Nat) :
    entryGetDirty (m.es b) = (t.slot b).dirty := by rw [r.slot_eq]; rfl

theorem Repr.getAlloc (r : Repr g m t) (b : Nat) :
    entryGetAlloc (m.es b) = (t.slot b).alloc := by rw [r.slot_eq]; rfl

theorem ne_null_of_lt {n : Nat} (hn : n ≤ CACHE_BLOCK_NUMBER) (hb : b < n) : b ≠ INDEXER_NULL := by
  simp only [CACHE_BLOCK_NUMBER, INDEXER_NULL] at hn ⊢
  omega

theorem Repr.ne_null (r : Repr g m t) (hb : b < g.cacheBlockNum) : b ≠ INDEXER_NULL :=
  ne_null_of_lt r.capacity hb

theorem Repr.toEntry_eq (r : Repr g m t) (hb : b < g.cacheBlockNum) : toEntry b = some b :=
  toEntry_of_ne (r.ne_null hb)

theorem Repr.inferCblock_eq (r : Repr g m t) (hb : b < g.cacheBlockNum) : inferCblock m b = b := by
  have hc := r.capacity
  simp only [CACHE_BLOCK_NUMBER] at hc
  simp only [inferCblock, getIndex, r.begin, u32]
  omega

theorem mem_listed : b ∈ t.listed ↔ b ∈ t.free ∨ b ∈ t.clean ∨ b ∈ t.dirty := by
  simp [Table.listed]

theorem Repr.nodup_of_notMem (r : Repr g m t) (hb : b ∉ t.listed) : (b :: t.listed).Nodup :=
  List.nodup_cons.mpr ⟨hb, r.apart⟩

theorem Repr.length_le (r : Repr g m t) (hb : b ∉ t.listed) (hlt : b < g.cacheBlockNum) :
    t.listed.length + 1 ≤ g.cacheBlockNum := by
  have hs : b :: t.listed ⊆ List.range g.cacheBlockNum := by
    intro i hi
    rcases List.mem_cons.mp hi with rfl | hi
    · exact List.mem_range.mpr hlt
    · exact List.mem_range.mpr (r.bound i hi)
  simpa using (List.subperm_of_subset (r.nodup_of_notMem hb) hs).length_le

-- The three lists have no block in common.
theorem Repr.disjoint (r : Repr g m t) :
    (∀ i ∈ t.free, i ∉ t.clean) ∧ (∀ i ∈ t.free, i ∉ t.dirty) ∧ (∀ i ∈ t.clean, i ∉ t.dirty) := by
  have h := r.apart
  unfold Table.listed at h
  obtain ⟨hfc, _, hd⟩ := List.nodup_append.mp h
  obtain ⟨_, _, hf⟩ := List.nodup_append.mp hfc
  exact ⟨fun i hi hc => hf i hi i hc rfl, fun i hi hdi => hd i (by simp [hi]) i hdi rfl,
    fun i hi hdi => hd i (by simp [hi]) i hdi rfl⟩

-- Only the flags and the keys of entries outside the hash table may change.
theorem Repr.setEntries (r : Repr g m t) (es : EntrySpace) (hnext : lNext es = lNext m.es)
    (hprev : lPrev es = lPrev m.es) (hhash : hNext es = hNext m.es)
    (hkey : ∀ e ∈ t.hashed, keyOf (es e) = keyOf (m.es e)) :
    Repr g { m with es := es } { t with slot := fun b => slotOf (es b) } where
  geometry := r.geometry
  capacity := r.capacity
  begin := r.begin
  free := r.free.congr (fun i _ => congrFun hnext i) (fun i _ => congrFun hprev i)
  clean := r.clean.congr (fun i _ => congrFun hnext i) (fun i _ => congrFun hprev i)
  dirty := r.dirty.congr (fun i _ => congrFun hnext i) (fun i _ => congrFun hprev i)
  apart := r.apart
  bound := r.bound
  slot := rfl
  hash := by
    obtain ⟨chain, hc, hm⟩ := r.hash
    exact ⟨chain, hc.congr (fun _ _ e _ => congrFun hhash e)
      (fun h hh e he => hkey e ((hm e).mpr ⟨h, hh, he⟩)), hm⟩
  queue := r.queue
  allocated := r.allocated

theorem Repr.updateEntry (r : Repr g m t) {f : Entry → Entry} {slot : Slot Work}
    (hf : ∀ x : Entry, (f x).next = x.next ∧ (f x).prev = x.prev ∧ (f x).hashNext = x.hashNext)
    (hkey : b ∈ t.hashed → keyOf (f (m.es b)) = keyOf (m.es b))
    (hslot : slotOf (f (m.es b)) = slot) :
    Repr g (updateEntry m b f) (t.setSlot b slot) := by
  have hs : (t.setSlot b slot) =
      { t with slot := fun i => slotOf (Function.update m.es b (f (m.es b)) i) } := by
    simp only [Table.setSlot, r.slot, ← hslot]
    congr 1
    funext i
    by_cases hi : i = b <;> simp [hi]
  rw [hs]
  apply r.setEntries
  · funext i
    by_cases hi : i = b <;> simp [lNext, hi, hf]
  · funext i
    by_cases hi : i = b <;> simp [lPrev, hi, hf]
  · funext i
    by_cases hi : i = b <;> simp [hNext, hi, hf]
  · intro e he
    by_cases hi : e = b
    · subst e
      simpa using hkey he
    · simp [hi]

-- A list operation moves links; flags, keys and the hash chains stay.
theorem IsHashed.linksOnly {es es' : EntrySpace} {ht : HashTable} {hashed : Finset Nat}
    (h : IsHashed es ht hashed) (hl : LinksOnly es es') : IsHashed es' ht hashed := by
  obtain ⟨chain, hc, hm⟩ := h
  refine ⟨chain, hc.congr (fun _ _ e _ => ?_) (fun _ _ e _ => ?_), hm⟩
  · simp only [hNext]
    rw [hl e]
  · rw [hl e]
    rfl

theorem slotOf_linksOnly {es es' : EntrySpace} (hl : LinksOnly es es') :
    (fun b => slotOf (es' b)) = fun b => slotOf (es b) := by
  funext b
  rw [hl b]
  rfl

theorem slotOf_hashOnly {es es' : EntrySpace} (hl : HashOnly es es') :
    (fun b => slotOf (es' b)) = fun b => slotOf (es b) := by
  funext b
  rw [hl b]
  rfl

theorem Repr.relink (r : Repr g m t) {es : EntrySpace} {ea : EntryAlloc} {clean dirty : Ilist}
    {f c d : List Nat} (hl : LinksOnly m.es es) (hbegin : ea.begin = 0)
    (hf : IsIlist es ea.free f) (hc : IsIlist es clean c) (hd : IsIlist es dirty d)
    (hapart : (f ++ c ++ d).Nodup) (hbound : ∀ i ∈ f ++ c ++ d, i < g.cacheBlockNum)
    (halloc : ea.nrAllocated + f.length = g.cacheBlockNum) :
    Repr g { m with es := es, ea := ea, clean := clean, dirty := dirty }
      { t with free := f, clean := c, dirty := d } where
  geometry := r.geometry
  capacity := r.capacity
  begin := hbegin
  free := hf
  clean := hc
  dirty := hd
  apart := hapart
  bound := hbound
  slot := r.slot.trans (slotOf_linksOnly hl).symm
  hash := r.hash.linksOnly hl
  queue := r.queue
  allocated := halloc

-- A list with one more block that was on none.
private theorem listed_of_perm (r : Repr g m t) (hb : b ∉ t.listed) (hlt : b < g.cacheBlockNum)
    {nodes : List Nat} (hp : nodes.Perm (b :: t.listed)) :
    nodes.Nodup ∧ ∀ i ∈ nodes, i < g.cacheBlockNum := by
  refine ⟨hp.nodup_iff.mpr (r.nodup_of_notMem hb), fun i hi => ?_⟩
  rcases List.mem_cons.mp (hp.mem_iff.mp hi) with rfl | hi
  · exact hlt
  · exact r.bound i hi

private theorem length_bounds (r : Repr g m t) (hb : b ∉ t.listed) (hlt : b < g.cacheBlockNum) :
    t.free.length + 1 < 2 ^ 32 ∧ t.clean.length + 1 < 2 ^ 32 ∧ t.dirty.length + 1 < 2 ^ 32 := by
  have hl := r.length_le hb hlt
  have hc := r.capacity
  simp only [Table.listed, List.length_append, CACHE_BLOCK_NUMBER] at hl hc
  omega

theorem Repr.addTailByFlag (r : Repr g m t) (hb : b ∉ t.listed) (hlt : b < g.cacheBlockNum) :
    Repr g (addTailByFlag m b) (t.addTail b) := by
  have hne := r.ne_null hlt
  obtain ⟨hnf, hnc, hnd⟩ : b ∉ t.free ∧ b ∉ t.clean ∧ b ∉ t.dirty := by simpa [mem_listed] using hb
  obtain ⟨_, hlc, hld⟩ := length_bounds r hb hlt
  obtain ⟨hfc, hfd, hcd⟩ := r.disjoint
  unfold SsdCache.addTailByFlag Table.addTail
  rw [r.getDirty]
  cases (t.slot b).dirty with
  | true =>
      have hp : (t.free ++ t.clean ++ (t.dirty ++ [b])).Perm (b :: t.listed) := by
        simp only [Table.listed]
        grind
      obtain ⟨hn, hbd⟩ := listed_of_perm r hb hlt hp
      exact r.relink (lAddTail_linksOnly _ _ _) r.begin (r.dirty.addTail_other r.free hfd hnf hne)
        (r.dirty.addTail_other r.clean hcd hnc hne) (r.dirty.addTail hnd hne hld) hn hbd r.allocated
  | false =>
      have hp : (t.free ++ (t.clean ++ [b]) ++ t.dirty).Perm (b :: t.listed) := by
        simp only [Table.listed]
        grind
      obtain ⟨hn, hbd⟩ := listed_of_perm r hb hlt hp
      exact r.relink (lAddTail_linksOnly _ _ _) r.begin (r.clean.addTail_other r.free hfc hnf hne)
        (r.clean.addTail hnc hne hlc)
        (r.clean.addTail_other r.dirty (fun i hi hc => hcd i hc hi) hnd hne) hn hbd r.allocated

theorem Repr.addHeadByFlag (r : Repr g m t) (hb : b ∉ t.listed) (hlt : b < g.cacheBlockNum) :
    Repr g (addHeadByFlag m b) (t.addHead b) := by
  have hne := r.ne_null hlt
  obtain ⟨hnf, hnc, hnd⟩ : b ∉ t.free ∧ b ∉ t.clean ∧ b ∉ t.dirty := by simpa [mem_listed] using hb
  obtain ⟨_, hlc, hld⟩ := length_bounds r hb hlt
  obtain ⟨hfc, hfd, hcd⟩ := r.disjoint
  unfold SsdCache.addHeadByFlag Table.addHead
  rw [r.getDirty]
  cases (t.slot b).dirty with
  | true =>
      have hp : (t.free ++ t.clean ++ b :: t.dirty).Perm (b :: t.listed) := by
        simp only [Table.listed]
        grind
      obtain ⟨hn, hbd⟩ := listed_of_perm r hb hlt hp
      exact r.relink (lAddHead_linksOnly _ _ _) r.begin (r.dirty.addHead_other r.free hfd hnf hne)
        (r.dirty.addHead_other r.clean hcd hnc hne) (r.dirty.addHead hnd hne hld) hn hbd r.allocated
  | false =>
      have hp : (t.free ++ b :: t.clean ++ t.dirty).Perm (b :: t.listed) := by
        simp only [Table.listed]
        grind
      obtain ⟨hn, hbd⟩ := listed_of_perm r hb hlt hp
      exact r.relink (lAddHead_linksOnly _ _ _) r.begin (r.clean.addHead_other r.free hfc hnf hne)
        (r.clean.addHead hnc hne hlc)
        (r.clean.addHead_other r.dirty (fun i hi hc => hcd i hc hi) hnd hne) hn hbd r.allocated

private theorem listed_of_sublist (r : Repr g m t) {nodes : List Nat}
    (hs : nodes.Sublist t.listed) : nodes.Nodup ∧ ∀ i ∈ nodes, i < g.cacheBlockNum :=
  ⟨r.apart.sublist hs, fun i hi => r.bound i (hs.subset hi)⟩

private theorem length_bounds_del (r : Repr g m t) {left right nodes : List Nat}
    (hs : nodes = left ++ b :: right) (hn : nodes.Sublist t.listed) :
    left.length + right.length < 2 ^ 32 := by
  have hl := (hs ▸ hn).length_le
  have hsub : t.listed ⊆ List.range g.cacheBlockNum :=
    fun i hi => List.mem_range.mpr (r.bound i hi)
  have hcount := (List.subperm_of_subset r.apart hsub).length_le
  have hc := r.capacity
  simp only [List.length_append, List.length_cons, List.length_range, CACHE_BLOCK_NUMBER] at *
  omega

-- Takes a block off the clean list, whatever its flags.
theorem Repr.delClean (r : Repr g m t) (hb : b ∈ t.clean) :
    Repr g { m with es := (lDel m.es m.clean b).1, clean := (lDel m.es m.clean b).2 }
      { t with clean := t.clean.erase b } := by
  obtain ⟨hfc, hfd, hcd⟩ := r.disjoint
  obtain ⟨left, right, hnot, hc, he⟩ := List.exists_erase_eq hb
  have hclean := r.clean
  have hsub : (t.free ++ t.clean.erase b ++ t.dirty).Sublist t.listed :=
    ((List.Sublist.refl _).append List.erase_sublist).append (List.Sublist.refl _)
  obtain ⟨hn, hbd⟩ := listed_of_sublist r hsub
  have hlen : left.length + right.length < 2 ^ 32 := length_bounds_del r hc
    ((List.sublist_append_right _ _).trans (List.sublist_append_left _ _))
  rw [hc] at hclean hfc hcd
  apply r.relink (lDel_linksOnly _ _ _) r.begin ?_ ?_ ?_ hn hbd r.allocated
  · exact hclean.del_other r.free hfc
  · rw [he]
    exact hclean.del hlen
  · exact hclean.del_other r.dirty (fun i hi hc => hcd i hc hi)

theorem Repr.delDirty (r : Repr g m t) (hb : b ∈ t.dirty) :
    Repr g { m with es := (lDel m.es m.dirty b).1, dirty := (lDel m.es m.dirty b).2 }
      { t with dirty := t.dirty.erase b } := by
  obtain ⟨hfc, hfd, hcd⟩ := r.disjoint
  obtain ⟨left, right, hnot, hc, he⟩ := List.exists_erase_eq hb
  have hdirty := r.dirty
  have hsub : (t.free ++ t.clean ++ t.dirty.erase b).Sublist t.listed :=
    (List.Sublist.refl _).append List.erase_sublist
  obtain ⟨hn, hbd⟩ := listed_of_sublist r hsub
  have hlen : left.length + right.length < 2 ^ 32 := length_bounds_del r hc
    (List.sublist_append_right _ _)
  rw [hc] at hdirty hfd hcd
  apply r.relink (lDel_linksOnly _ _ _) r.begin ?_ ?_ ?_ hn hbd r.allocated
  · exact hdirty.del_other r.free hfd
  · exact hdirty.del_other r.clean hcd
  · rw [he]
    exact hdirty.del hlen

theorem Repr.delByFlag (r : Repr g m t)
    (hb : b ∈ if (t.slot b).dirty then t.dirty else t.clean) :
    Repr g (delByFlag m b) (t.del b) := by
  unfold SsdCache.delByFlag Table.del
  rw [r.getDirty]
  cases hd : (t.slot b).dirty with
  | true => exact r.delDirty (by simpa [hd] using hb)
  | false => exact r.delClean (by simpa [hd] using hb)

theorem HashOnly.links {es es' : EntrySpace} (ho : HashOnly es es') :
    lNext es' = lNext es ∧ lPrev es' = lPrev es := by
  constructor <;> funext i <;> simp only [lNext, lPrev] <;> rw [ho i]

-- A hash operation changes the chains; lists, flags and keys stay.
theorem Repr.rehash (r : Repr g m t) {es : EntrySpace} {table : HashTable} {hashed : Finset Nat}
    (ho : HashOnly m.es es) (hh : IsHashed es table hashed) :
    Repr g { m with es := es, table := table } { t with hashed := hashed } where
  geometry := r.geometry
  capacity := r.capacity
  begin := r.begin
  free := r.free.congr (fun i _ => congrFun ho.links.1 i) (fun i _ => congrFun ho.links.2 i)
  clean := r.clean.congr (fun i _ => congrFun ho.links.1 i) (fun i _ => congrFun ho.links.2 i)
  dirty := r.dirty.congr (fun i _ => congrFun ho.links.1 i) (fun i _ => congrFun ho.links.2 i)
  apart := r.apart
  bound := r.bound
  slot := r.slot.trans (slotOf_hashOnly ho).symm
  hash := hh
  queue := r.queue
  allocated := r.allocated

theorem hashed_insert {chain : Nat → List Nat} {h e i : Nat} (hh : h < BUCKETS_NUMBER) :
    Hashed (Function.update chain h (e :: chain h)) i ↔ i = e ∨ Hashed chain i := by
  constructor
  · rintro ⟨j, hj, hi⟩
    by_cases hjh : j = h
    · subst j
      rw [Function.update_self] at hi
      rcases List.mem_cons.mp hi with rfl | hi
      · exact .inl rfl
      · exact .inr ⟨h, hh, hi⟩
    · rw [Function.update_of_ne hjh] at hi
      exact .inr ⟨j, hj, hi⟩
  · rintro (rfl | ⟨j, hj, hi⟩)
    · exact ⟨h, hh, by simp⟩
    · refine ⟨j, hj, ?_⟩
      by_cases hjh : j = h
      · subst j
        simp [hi]
      · rwa [Function.update_of_ne hjh]

theorem Repr.hashIn (r : Repr g m t) (hb : b ∉ t.hashed) (hlt : b < g.cacheBlockNum) :
    Repr g (hashIn m b) (t.hashIn b) := by
  obtain ⟨chain, hc, hm⟩ := r.hash
  have hnot : ∀ i < BUCKETS_NUMBER, b ∉ chain i := fun i hi hbi => hb ((hm b).mpr ⟨i, hi, hbi⟩)
  have hh := hc.bucketOf_lt (keyOf (m.es b))
  refine r.rehash (setHashNext_hashOnly _ _ _)
    ⟨_, hc.insert hh (hlt.trans_le r.capacity) rfl hnot, fun e => ?_⟩
  rw [Finset.mem_insert, hm]
  exact (hashed_insert hh).symm

theorem Repr.hashOut (r : Repr g m t) (hb : b ∈ t.hashed)
    (hu : ∀ i ∈ t.hashed, (t.slot i).key = (t.slot b).key → i = b) :
    ∃ m', hashOut m b = .ok m' ∧ Repr g m' (t.hashOut b) := by
  obtain ⟨chain, hc, hm⟩ := r.hash
  have hkey : ∀ i, (t.slot i).key = keyOf (m.es i) := fun i => by rw [r.slot_eq]; rfl
  obtain ⟨ht', es', chain', heq, hc', ho, hm'⟩ := hRemove_spec hc ((hm b).mp hb)
    (fun i hi he => hu i ((hm i).mpr hi) (by rw [hkey, hkey, he]))
  refine ⟨{ m with es := es', table := ht' }, ?_, r.rehash ho ⟨chain', hc', fun e => ?_⟩⟩
  · simp only [SsdCache.hashOut, heq, bind, Except.bind, pure, Except.pure]
  · rw [Finset.mem_erase, hm, hm', and_comm]

-- A lookup changes no more than the order within one chain.
theorem Repr.find (r : Repr g m t) (fullPathName : CString) (cachePageIndex : Nat) :
    ∃ m' e, find m fullPathName cachePageIndex = .ok (m', e) ∧ Repr g m' t ∧
      (∀ b, e = some b → b ∈ t.hashed ∧ (t.slot b).key = ⟨fullPathName, cachePageIndex⟩) ∧
      (e = none → ∀ b ∈ t.hashed, (t.slot b).key ≠ ⟨fullPathName, cachePageIndex⟩) := by
  obtain ⟨chain, hc, hm⟩ := r.hash
  obtain ⟨ht', es', chain', e, heq, hc', ho, hm', hsome, hnone⟩ :=
    hLookup_spec hc fullPathName cachePageIndex
  refine ⟨{ m with table := ht', es := es' }, e, ?_,
    r.rehash ho ⟨chain', hc', fun i => by rw [hm, hm']⟩, ?_, ?_⟩
  · simp only [SsdCache.find, heq, bind, Except.bind, pure, Except.pure]
  · intro b hb
    obtain ⟨hh, hk⟩ := hsome b hb
    exact ⟨(hm b).mpr hh, by rw [r.slot_eq]; exact hk⟩
  · intro he b hb
    rw [r.slot_eq]
    exact hnone he b ((hm b).mp hb)

private theorem paramSet_links (bit : BitVec 3) (on : Bool) (x : Entry) :
    (paramSet x bit on).next = x.next ∧ (paramSet x bit on).prev = x.prev ∧
      (paramSet x bit on).hashNext = x.hashNext := by
  rw [paramSet_eq]
  exact ⟨rfl, rfl, rfl⟩

private theorem keyOf_paramSet (bit : BitVec 3) (on : Bool) (x : Entry) :
    keyOf (paramSet x bit on) = keyOf x := by
  rw [paramSet_eq]
  rfl

@[simp] theorem slotOf_setPending (x : Entry) (on : Bool) :
    slotOf (entrySetPending x on) = { slotOf x with pending := on } := by
  have hk : keyOf (entrySetPending x on) = keyOf x := keyOf_paramSet _ _ _
  simp [slotOf, hk]

@[simp] theorem slotOf_setDirty (x : Entry) (on : Bool) :
    slotOf (entrySetDirty x on) = { slotOf x with dirty := on } := by
  have hk : keyOf (entrySetDirty x on) = keyOf x := keyOf_paramSet _ _ _
  simp [slotOf, hk]

@[simp] theorem slotOf_setAlloc (x : Entry) (on : Bool) :
    slotOf (entrySetAlloc x on) = { slotOf x with alloc := on } := by
  have hk : keyOf (entrySetAlloc x on) = keyOf x := keyOf_paramSet _ _ _
  simp [slotOf, hk]

theorem Repr.setPending (r : Repr g m t) (b : Nat) (on : Bool) :
    Repr g (SsdCache.updateEntry m b (entrySetPending · on)) (t.setPending b on) :=
  r.updateEntry (paramSet_links _ _) (fun _ => keyOf_paramSet _ _ _)
    (by rw [slotOf_setPending, r.slot_eq])

theorem Repr.setDirty (r : Repr g m t) (b : Nat) (on : Bool) :
    Repr g (SsdCache.updateEntry m b (entrySetDirty · on)) (t.setDirty b on) :=
  r.updateEntry (paramSet_links _ _) (fun _ => keyOf_paramSet _ _ _)
    (by rw [slotOf_setDirty, r.slot_eq])

theorem Repr.release (r : Repr g m t) (hb : b ∉ t.listed) (hlt : b < g.cacheBlockNum) :
    Repr g (release m b) (t.release b) := by
  have hne := r.ne_null hlt
  obtain ⟨hnf, hnc, hnd⟩ : b ∉ t.free ∧ b ∉ t.clean ∧ b ∉ t.dirty := by simpa [mem_listed] using hb
  obtain ⟨hlf, _, _⟩ := length_bounds r hb hlt
  obtain ⟨hfc, hfd, hcd⟩ := r.disjoint
  have hcount := r.length_le hb hlt
  have ha := r.allocated
  have hcap := r.capacity
  simp only [Table.listed, List.length_append, CACHE_BLOCK_NUMBER] at hcount hcap
  have hdec : dec m.ea.nrAllocated + (t.free ++ [b]).length = g.cacheBlockNum := by
    obtain ⟨k, hk⟩ : ∃ k, m.ea.nrAllocated = k + 1 := ⟨m.ea.nrAllocated - 1, by omega⟩
    rw [hk, dec_succ (by omega), List.length_append, List.length_singleton]
    omega
  have hflag : Repr g (SsdCache.updateEntry m b (entrySetAlloc · false))
      (t.setSlot b { t.slot b with alloc := false }) :=
    r.updateEntry (paramSet_links _ _) (fun _ => keyOf_paramSet _ _ _)
      (by rw [slotOf_setAlloc, r.slot_eq])
  have hp : (t.free ++ [b] ++ t.clean ++ t.dirty).Perm (b :: t.listed) := by
    simp only [Table.listed]
    grind
  obtain ⟨hn, hbd⟩ := listed_of_perm r hb hlt hp
  let es₁ := Function.update m.es b (entrySetAlloc (m.es b) false)
  have hfree : IsIlist es₁ m.ea.free t.free := hflag.free
  have hclean : IsIlist es₁ m.clean t.clean := hflag.clean
  have hdirty : IsIlist es₁ m.dirty t.dirty := hflag.dirty
  have hf := hfree.addTail hnf hne hlf
  have hc := hfree.addTail_other hclean (fun i hi hf => hfc i hf hi) hnc hne
  have hd := hfree.addTail_other hdirty (fun i hi hf => hfd i hf hi) hnd hne
  have hlinks := lAddTail_linksOnly es₁ m.ea.free b
  unfold SsdCache.release
  rw [freeEntry_eq]
  change Repr g { m with
    es := (lAddTail es₁ m.ea.free b).1
    ea := { m.ea with free := (lAddTail es₁ m.ea.free b).2, nrAllocated := _ } } _
  generalize dec m.ea.nrAllocated = count at hdec ⊢
  generalize lAddTail es₁ m.ea.free b = s at *
  exact hflag.relink hlinks r.begin hf hc hd hn hbd hdec

-- An entry that is on no list and in no hash chain may be overwritten.
theorem Repr.overwrite (r : Repr g m t) (hb : b ∉ t.listed) (hh : b ∉ t.hashed) (x : Entry) :
    Repr g { m with es := Function.update m.es b x } (t.setSlot b (slotOf x)) := by
  obtain ⟨hnf, hnc, hnd⟩ : b ∉ t.free ∧ b ∉ t.clean ∧ b ∉ t.dirty := by simpa [mem_listed] using hb
  have hes : ∀ i, i ≠ b → Function.update m.es b x i = m.es i :=
    fun i hi => Function.update_of_ne hi _ _
  have hlist : ∀ {l : Ilist} {nodes : List Nat}, IsIlist m.es l nodes → b ∉ nodes →
      IsIlist (Function.update m.es b x) l nodes := by
    intro l nodes hl hn
    have hne : ∀ i ∈ nodes, i ≠ b := fun i hi hib => hn (hib ▸ hi)
    exact hl.congr (fun i hi => by simp only [lNext, hes i (hne i hi)])
      (fun i hi => by simp only [lPrev, hes i (hne i hi)])
  obtain ⟨chain, hc, hm⟩ := r.hash
  have hne : ∀ h < BUCKETS_NUMBER, ∀ e ∈ chain h, e ≠ b :=
    fun h hlt e he heb => hh (heb ▸ (hm e).mpr ⟨h, hlt, he⟩)
  refine ⟨r.geometry, r.capacity, r.begin, hlist r.free hnf, hlist r.clean hnc,
    hlist r.dirty hnd, r.apart, r.bound, ?_, ⟨chain, ?_, hm⟩, r.queue, r.allocated⟩
  · funext i
    by_cases hi : i = b
    · simp [Table.setSlot, hi]
    · simp [Table.setSlot, hi, r.slot_eq]
  · exact hc.congr (fun h hlt e he => by simp only [hNext, hes e (hne h hlt e he)])
      (fun h hlt e he => by simp only [hes e (hne h hlt e he)])

theorem Repr.allocatorEmpty_iff (r : Repr g m t) : allocatorEmpty m.ea = true ↔ t.free = [] :=
  r.free.lEmpty_iff

-- The entry that is allocated, before its caller fills it.
theorem Repr.allocate {rest : List Nat} (r : Repr g m t) (hf : t.free = b :: rest)
    (hh : b ∉ t.hashed) :
    ∃ ea es x, allocEntry m.ea m.es = some (ea, es, b) ∧ es b = x ∧
      slotOf x = ⟨keyOf x, false, false, true⟩ ∧
      ∀ y, Repr g { m with ea := ea, es := Function.update es b y } (t.allocate (slotOf y)) := by
  have hhead : lHead m.ea.free = some b := by
    rw [r.free.links.head_eq, hf]
    rfl
  obtain ⟨hfc, hfd, hcd⟩ := r.disjoint
  have hfree := r.free
  have hap := r.apart
  have hbd := r.bound
  have ha := r.allocated
  have hcap := r.capacity
  rw [Table.listed] at hap hbd
  rw [hf] at hfree hfc hfd ha hap hbd
  simp only [List.length_cons, CACHE_BLOCK_NUMBER] at ha hcap
  have hinc : inc m.ea.nrAllocated + rest.length = g.cacheBlockNum := by
    rw [inc_of_lt (by omega)]
    omega
  have hfirst : IsIlist m.es m.ea.free ([] ++ b :: rest) := hfree
  have hdel : IsIlist (lDel m.es m.ea.free b).1 (lDel m.es m.ea.free b).2 rest :=
    hfirst.del (by simp only [List.length_nil]; omega)
  have hclean : IsIlist (lDel m.es m.ea.free b).1 m.clean t.clean :=
    hfirst.del_other r.clean (fun i hi hf => hfc i hf hi)
  have hdirty : IsIlist (lDel m.es m.ea.free b).1 m.dirty t.dirty :=
    hfirst.del_other r.dirty (fun i hi hf => hfd i hf hi)
  have hlinks := lDel_linksOnly m.es m.ea.free b
  simp only [List.cons_append, List.nodup_cons] at hap
  refine ⟨_, _, _, allocEntry_eq m.es hhead, Function.update_self _ _ _, by simp [slotOf],
    fun y => ?_⟩
  rw [Function.update_idem, Table.allocate_eq hf]
  generalize inc m.ea.nrAllocated = count at hinc ⊢
  generalize lDel m.es m.ea.free b = s at *
  have hpop : Repr g { m with es := s.1, ea := { m.ea with free := s.2, nrAllocated := count } }
      { t with free := rest } :=
    r.relink hlinks r.begin hdel hclean hdirty hap.2
      (fun i hi => hbd i (List.mem_cons_of_mem _ hi)) hinc
  exact hpop.overwrite hap.1 hh y

end Pieces

end UserPageCache.SsdCache
