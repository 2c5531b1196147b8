import UserPageCache.SsdCache.Coherence.Effects
import UserPageCache.SsdCache.Discard

namespace UserPageCache.SsdCache

open Bytes

variable {g : Geometry} {keys : Work → Prop} {cache : Cache} {m : Mapping} {w w' : World}
  {worker worker' : Worker Work} {stage : Stage} {t t' : Table Work} {spec : Contents}
  {key : Work} {b : Nat} {pio : Pio}

theorem Valid.absent_of_current {n : Nat} (h : Valid n worker t)
    (hc : worker.current = some key) (hs : worker.served = none) : t.Absent key :=
  (h.waiting key (List.mem_of_mem_head? (h.current key hc))).resolve_left (by simp [hs])

theorem Table.markDirty_slot_of_ne {i : Nat} (t : Table Work) (hi : i ≠ b) :
    (t.markDirty b).slot i = t.slot i := by
  unfold Table.markDirty
  split <;> (try split) <;> simp [hi]

theorem Table.markDirty_dirty (ha : (t.slot b).alloc = true) :
    ((t.markDirty b).slot b).dirty = true := by
  unfold Table.markDirty
  rw [ha]
  split <;> (try split) <;> simp_all

theorem Table.markDirty_queue (t : Table Work) (b : Nat) : (t.markDirty b).queue = t.queue := by
  unfold Table.markDirty
  split <;> (try split) <;> simp

@[simp] theorem Table.hit_queue (t : Table Work) (b : Nat) : (t.hit b).queue = t.queue := by
  unfold Table.hit
  split <;> simp

theorem Table.mem_enqueue {limit : Nat} {k : Work} (h : k ∈ (t.enqueue limit key).queue) :
    k ∈ t.queue ∨ k = key := by
  unfold Table.enqueue at h
  split at h
  · simpa using h
  · exact .inl h

namespace Coherent

-- Neither what the blocks hold nor what is in flight changes.
theorem relist (h : Coherent g keys cache w worker stage t spec) (r : Repr g m t')
    (v : Valid g.cacheBlockNum worker' t')
    (hworker : worker' = worker ∨ worker.inFlight = none ∧ worker'.inFlight = none)
    (hslot : t'.slot = t.slot) (hhash : t'.hashed = t.hashed)
    (hqueue : ∀ key ∈ t'.queue, keys key) :
    Coherent g keys { cache with map := m } w worker' stage t' spec := by
  have hmoving : ∀ key b, (worker = .promoting key b ↔ worker' = .promoting key b) ∧
      (worker = .demoting key b ↔ worker' = .demoting key b) ∧
      (worker = .writing key b ↔ worker' = .writing key b) := by
    intro key b
    rcases hworker with rfl | ⟨hw, hw'⟩
    · simp
    · refine ⟨⟨?_, ?_⟩, ⟨?_, ?_⟩, ⟨?_, ?_⟩⟩ <;> rintro rfl <;>
        simp [Worker.inFlight] at hw hw'
  refine ⟨r, v, h.layout, h.addressable, hqueue, ?_, ?_, ?_, ?_, ?_, ?_⟩
  · rw [hhash, hslot]
    exact h.known
  · rw [hhash, hslot]
    exact fun b hb hd => h.cached b hb fun key hw => hd key ((hmoving key b).2.1.mp hw)
  · rw [hhash, hslot]
    refine fun key hk hclean => h.origin key hk fun b hb hkb => ⟨(hclean b hb hkb).1, fun work hw => ?_⟩
    exact (hclean b hb hkb).2 work ((hmoving work b).2.2.mp hw)
  · exact fun key b hw => h.promoting key b ((hmoving key b).1.mpr hw)
  · rw [hslot]
    exact fun key b hw => h.evicting key b ((hmoving key b).2.1.mpr hw)
  · rw [hslot]
    exact fun key b hw => h.writing key b ((hmoving key b).2.2.mpr hw)

theorem moving_hashed (h : Coherent g keys cache w worker stage t spec)
    (hm : worker.moving = some b) : b ∈ t.hashed := by
  have hfly : worker.inFlight = some b := by
    cases worker <;> simp_all [Worker.moving, Worker.inFlight]
  refine (h.valid.hashed b).mpr ⟨h.valid.lt_of_inFlight hfly, h.valid.flying b hfly, ?_⟩
  cases worker <;> simp_all [Worker.moving, Worker.arriving]

section Requests

-- The key is not that of a block on its way out.
def Still (worker : Worker Work) (t : Table Work) (key : Work) : Prop :=
  ∀ work b, worker = .demoting work b → (t.slot b).key ≠ key

-- A request writes the block that its key has, old or new. What the request leaves of
-- the block has to be there already.
theorem write_block (h : Coherent g keys cache w worker stage t spec) (hf : pio.Fits w)
    (r : Repr g m t') (v : Valid g.cacheBlockNum worker t') (hm : Still worker t pio.key)
    (hqueue : t'.queue = t.queue) (hhash : t'.hashed = insert b t.hashed)
    (hslot : ∀ i, i ≠ b → t'.slot i = t.slot i) (hkey : (t'.slot b).key = pio.key)
    (hold : b ∈ t.hashed → (t.slot b).key = pio.key) (hk : keys pio.key)
    (hrest : ∀ j < 8, (∀ page, spec.page pio.key j = some page → ssdPage w b j = page) ∨
      pio.pageIndex % 8 ≤ j ∧ j - pio.pageIndex % 8 < pio.buffers.length) :
    ∃ w', writeCache { cache with map := m } w .success pio b =
        .ok ({ cache with map := setDirtyAfterWrite m b true }, w', 0) ∧
      Coherent g keys { cache with map := setDirtyAfterWrite m b true } w' worker stage
        (t'.markDirty b) (spec.store pio) ∧ Keeps w w' := by
  have hb : b ∈ t'.hashed := by simp [hhash]
  have hlt := v.lt_of_hashed hb
  obtain ⟨w', heq, hpages, hw'⟩ := writeCache_success { cache with map := m } hf.checked
    hf.chained h.layout r.shift (Nat.lt_of_lt_of_le hlt r.capacity)
  have hfiles : fileContents w' = fileContents w := fileContents_files (by rw [hw'])
  have hsector : w'.sectorSize = w.sectorSize := by rw [hw']
  have hbuf : w'.dmaBuf = w.dmaBuf := by rw [hw']
  have hother : ∀ i, i ≠ b → ∀ j < 8, ssdPage w' i j = ssdPage w i j := fun i hi j hj => by
    rw [hpages i j hj, if_neg fun hc => hi hc.1]
  have hback : ∀ i ∈ t'.hashed, i ≠ b → i ∈ t.hashed := fun i hi hib => by
    simpa [hhash, hib] using hi
  have hstay : ∀ i ∈ t.hashed, i ∈ t'.hashed := fun i hi => by simp [hhash, hi]
  have hkeys : ∀ i ∈ t'.hashed, i ≠ b → (t.slot i).key ≠ pio.key := fun i hi hib hk =>
    hib (v.unique i hi b hb (by rw [hslot i hib, hk, hkey]))
  refine ⟨w', heq, ⟨r.setDirtyAfterWrite v hlt true, v.markDirty hlt, hsector ▸ h.layout,
    h.addressable, fun key hq => ?_, fun i hi => ?_, fun i hi hd => ?_, fun key hk' hclean => ?_,
    fun key i hw => ⟨fun hs => ?_, fun hs j hj => ?_⟩, fun key i hw => ?_,
    fun key i hw hs hd => ?_⟩, keeps_of_files hsector (by rw [hw']) (by rw [hw'])⟩
  · rw [Table.markDirty_queue, hqueue] at hq
    exact h.queued key hq
  · rw [Table.markDirty_hashed] at hi
    rw [Table.markDirty_key]
    by_cases hib : i = b
    · rwa [hib, hkey]
    · rw [hslot i hib]
      exact h.known i (hback i hi hib)
  · rw [Table.markDirty_hashed] at hi
    rw [Table.markDirty_key]
    by_cases hib : i = b
    · subst i
      rw [hkey]
      exact .store_self (fun j hj => by simp [hpages b j hj]) hrest
    · rw [hslot i hib]
      have hmet := (h.cached i (hback i hi hib) hd).store_other hf (hkeys i hi hib)
      exact fun j hj => hother i hib j hj ▸ hmet j hj
  · have hne : key ≠ pio.key := by
      rintro rfl
      have hdirty := (hclean b (by rwa [Table.markDirty_hashed])
        (by rw [Table.markDirty_key, hkey])).1
      rw [Table.markDirty_dirty (v.alloc_of_hashed hb)] at hdirty
      cases hdirty
    have hkept : spec.Kept key w := h.origin key hk' fun i hi hki => by
      have hib : i ≠ b := fun hib => hne (by rw [← hki, hib, hold (hib ▸ hi)])
      have hclean := hclean i (by rw [Table.markDirty_hashed]; exact hstay i hi)
      rw [Table.markDirty_key, Table.markDirty_slot_of_ne _ hib, hslot i hib] at hclean
      exact hclean hki
    have hstore := hkept.store_other hf hne
    unfold Contents.Kept at hstore ⊢
    rwa [hfiles]
  · have habs : t'.Absent key := v.absent_of_current (by rw [hw]; rfl) (by rw [hw]; rfl)
    rw [hbuf]
    exact ((h.promoting key i hw).1 hs).store_other hf fun hk => habs b hb (hkey.trans hk.symm)
  · have habs : t'.Absent key := v.absent_of_current (by rw [hw]; rfl) (by rw [hw]; rfl)
    have hib : i ≠ b := fun hib => ((v.hashed b).mp hb).2.2 (by rw [hw, hib]; rfl)
    rw [hother i hib j hj]
    exact ((h.promoting key i hw).2 hs).store_other hf (fun hk => habs b hb (hkey.trans hk.symm)) j hj
  · have hib : i ≠ b := fun hib =>
      hm key i hw (hib ▸ hold (hib ▸ h.moving_hashed (by rw [hw]; rfl)))
    rw [Table.markDirty_slot_of_ne _ hib, hslot i hib]
    exact h.evicting key i hw
  · have hib : i ≠ b := by
      rintro rfl
      simp [Table.markDirty_dirty (v.alloc_of_hashed hb)] at hd
    have hi := h.moving_hashed (b := i) (by rw [hw]; rfl)
    rw [Table.markDirty_slot_of_ne _ hib, hslot i hib] at hd ⊢
    rw [hbuf]
    exact (h.writing key i hw hs hd).store_other hf (hkeys i (hstay i hi) hib)

-- A request that missed writes the file. Its key must not be in the hash table, other
-- than for a block on its way out, nor be promoted from what the file held before.
theorem write_file (h : Coherent g keys cache w worker stage t spec) (hf : pio.Fits w)
    (hmapped : ∀ b ∈ t.hashed, (t.slot b).key = pio.key → ∃ key, worker = .demoting key b)
    (hpromoting : ∀ b, worker = .promoting pio.key b → stage ≠ .loaded ∧ stage ≠ .stored) :
    ∃ w' rc, writeOrigin w .success pio = .ok (w', rc) ∧
      Coherent g keys cache w' worker stage t (spec.store pio) ∧ Keeps w w' := by
  obtain ⟨w', rc, heq, hpages, hw', hkeeps⟩ := writeOrigin_success hf
  have hssd : ssdPage w' = ssdPage w := by rw [hw']; rfl
  have hbuf : w'.dmaBuf = w.dmaBuf := by rw [hw']
  have hlater : ∀ key b, worker = .promoting key b → stage = .loaded ∨ stage = .stored →
      key ≠ pio.key := by
    rintro key b hw hs rfl
    exact hs.elim (hpromoting b hw).1 (hpromoting b hw).2
  refine ⟨w', rc, heq, ⟨h.repr, h.valid, hkeeps.sector ▸ h.layout, h.addressable, h.queued, h.known,
    fun b hb hd => ?_, fun key hk hclean j hj page hp => ?_,
    fun key b hw => ⟨fun hs => ?_, fun hs => ?_⟩, h.evicting,
    fun key b hw hs hd => ?_⟩, hkeeps⟩
  · have hne : (t.slot b).key ≠ pio.key := fun hk => by
      obtain ⟨key, hw⟩ := hmapped b hb hk
      exact hd key hw
    rw [hssd]
    exact (h.cached b hb hd).store_other hf hne
  · refine hpages _ _ page ?_
    have hkept := h.origin key hk hclean j hj
    simp only [Contents.page, Contents.store] at hp hkept ⊢
    split
    · rename_i hin
      rw [if_pos hin] at hp
      cases hbuf : pio.buffers[key.cachePageIndex * 8 + j - pio.pageIndex]? with
      | some page' => simpa [hbuf] using hp
      | none =>
          rw [Option.none_or]
          exact hkept page (by simpa [hbuf] using hp)
    · rename_i hin
      rw [if_neg hin] at hp
      exact hkept page hp
  · rw [hbuf]
    exact ((h.promoting key b hw).1 hs).store_other hf (hlater key b hw (.inl hs))
  · rw [hssd]
    exact ((h.promoting key b hw).2 hs).store_other hf (hlater key b hw (.inr hs))
  · have hne : (t.slot b).key ≠ pio.key := fun hk => by
      obtain ⟨key, hw'⟩ := hmapped b (h.moving_hashed (by rw [hw]; rfl)) hk
      simp [hw] at hw'
    rw [hbuf]
    exact (h.writing key b hw hs hd).store_other hf hne

theorem read_block (h : Coherent g keys cache w worker stage t spec) (hf : pio.Fits w)
    (hb : b ∈ t.hashed) (hk : (t.slot b).key = pio.key) :
    ∃ pages, readCache cache w .success pio b = .ok (pages, 0) ∧
      ((∀ key, worker ≠ .demoting key b) → spec.Returned pio pages) := by
  have hlt := h.valid.lt_of_hashed hb
  have hshift : cache.map.blockPerCblockShift = g.blockPerCblockShift :=
    congrArg Geometry.blockPerCblockShift h.repr.geometry
  refine ⟨_, readCache_success hf h.layout hshift (Nat.lt_of_lt_of_le hlt h.repr.capacity),
    fun hd => ⟨by simp, fun k hlow page hp => ?_⟩⟩
  have hroom := hf.room
  have hindex := pio.page_index
  have hmet := h.cached b hb hd (pio.pageIndex % 8 + k) (by omega) page
  rw [hk, Contents.page, ← Nat.add_assoc, hindex] at hmet
  simp [hlow, hmet hp]

theorem read_file (h : Coherent g keys cache w worker stage t spec) (hf : pio.Fits w)
    (hk : keys pio.key) (habs : t.Absent pio.key) :
    ∃ w' pages rc, readOrigin w .success pio = .ok (w', pages, rc) ∧ spec.Returned pio pages ∧
      Coherent g keys cache w' worker stage t spec ∧ Keeps w w' := by
  obtain ⟨w', pages, rc, heq, hret, hsame, hw', hkeeps⟩ := readOrigin_success hf
  have hssd : ssdPage w' = ssdPage w := by rw [hw']; rfl
  have hbuf : w'.dmaBuf = w.dmaBuf := by rw [hw']
  have hroom := hf.room
  have hindex := pio.page_index
  refine ⟨w', pages, rc, heq, ⟨hret.1, fun k hlow page hp => hret.2 k hlow page ?_⟩,
    ⟨h.repr, h.valid, hkeeps.sector ▸ h.layout, h.addressable, h.queued, h.known, by
      rw [hssd]; exact h.cached, ?_, by rw [hssd, hbuf]; exact h.promoting, h.evicting, by
      rw [hbuf]; exact h.writing⟩, hkeeps⟩
  · have hkept := h.origin pio.key hk (fun b hb hkb => absurd hkb (habs b hb))
      (pio.pageIndex % 8 + k) (by omega) page
    rw [Contents.page, Contents.page, ← Nat.add_assoc, hindex] at hkept
    exact hkept hp
  · have horigin := h.origin
    unfold Contents.Kept at horigin ⊢
    rwa [hsame]

-- What a lookup that finds its key, or finds nothing to insert, returns.
def Found (c : Option Nat) (t : Table Work) (pio : Pio) : Prop :=
  match c with
  | some b => b ∈ t.hashed ∧ (t.slot b).key = pio.key
  | none => t.Absent pio.key

-- A lookup moves no data.
theorem looked {c : Option Nat} (h : Coherent g keys cache w worker stage t spec)
    (hk : keys pio.key) (r : Repr g m t') (hl : Looked false t pio.key c t') :
    Coherent g keys { cache with map := m } w worker stage t' spec ∧ Found c t' pio ∧
      t'.slot = t.slot := by
  have v := h.valid.looked hl
  cases hl with
  | hit hb hkey =>
      refine ⟨h.relist r v (.inl rfl) (Table.hit_slot _ _) (Table.hit_hashed _ _) ?_,
        ⟨by simpa using hb, by rw [Table.hit_slot]; exact hkey⟩, Table.hit_slot _ _⟩
      rw [Table.hit_queue]
      exact h.queued
  | queued habs => exact ⟨h.relist r v (.inl rfl) rfl rfl h.queued, habs, rfl⟩
  | enqueued habs =>
      refine ⟨h.relist r v (.inl rfl) (Table.enqueue_slot _ _ _) (Table.enqueue_hashed _ _ _)
        fun key hq => ?_, by simpa [Found, Table.Absent] using habs, Table.enqueue_slot _ _ _⟩
      rcases Table.mem_enqueue hq with hq | rfl
      · exact h.queued key hq
      · exact hk
  | inserted hi => cases hi

theorem lookup (h : Coherent g keys cache w worker stage t spec) (hk : keys pio.key) :
    ∃ m c t', lookupMapping cache.map pio.fullPathName pio.pageIndex = .ok (m, c) ∧
      Coherent g keys { cache with map := m } w worker stage t' spec ∧ Found c t' pio ∧
      t'.slot = t.slot := by
  obtain ⟨m, c, t', heq, r, hl⟩ :=
    h.repr.lookupMapping h.valid false pio.fullPathName pio.pageIndex
  exact ⟨m, c, t', heq, h.looked hk r hl⟩

-- The same, unless the whole block of the request is given a free cache block.
theorem lookup_insert (h : Coherent g keys cache w worker stage t spec) (hk : keys pio.key) :
    ∃ m c, lookupMappingWithInsert cache.map pio.fullPathName pio.pageIndex = .ok (m, c) ∧
      ((∃ t', Coherent g keys { cache with map := m } w worker stage t' spec ∧ Found c t' pio ∧
        t'.slot = t.slot) ∨
        ∃ b rest, c = some b ∧ t.free = b :: rest ∧ t.Absent pio.key ∧ pio.key ∉ t.queue ∧
          Repr g m (t.insertDirty pio.key b)) := by
  obtain ⟨m, c, t', heq, r, hl⟩ :=
    h.repr.lookupMappingWithInsert h.valid pio.fullPathName pio.pageIndex
  refine ⟨m, c, heq, ?_⟩
  cases hl with
  | hit hb hkey => exact .inl ⟨_, h.looked hk r (.hit hb hkey)⟩
  | queued habs => exact .inl ⟨_, h.looked hk r (.queued habs)⟩
  | enqueued habs => exact .inl ⟨_, h.looked hk r (.enqueued habs)⟩
  | inserted hi hf habs hq => exact .inr ⟨_, _, rfl, hf, habs, hq, r⟩

theorem write_hit (h : Coherent g keys cache w worker stage t spec) (hf : pio.Fits w)
    (hm : Still worker t pio.key) (hb : b ∈ t.hashed) (hk : (t.slot b).key = pio.key) :
    ∃ cache' w' t', writeCache cache w .success pio b = .ok (cache', w', 0) ∧
      Coherent g keys cache' w' worker stage t' (spec.store pio) ∧ Keeps w w' := by
  have hd : ∀ key, worker ≠ .demoting key b := by
    rintro key rfl
    exact hm key b rfl hk
  obtain ⟨w', heq, h', hkeeps⟩ := h.write_block hf h.repr h.valid hm rfl
    (Finset.insert_eq_of_mem hb).symm (fun _ _ => rfl) hk (fun _ => hk) (hk ▸ h.known b hb)
    (fun j hj => .inl (hk ▸ h.cached b hb hd j hj))
  exact ⟨_, w', _, heq, h', hkeeps⟩

theorem write_insert {rest : List Nat} (h : Coherent g keys cache w worker stage t spec)
    (hf : pio.Fits w) (hm : Still worker t pio.key) (hk : keys pio.key)
    (hfull : overwritable pio = true) (hfree : t.free = b :: rest) (habs : t.Absent pio.key)
    (hq : pio.key ∉ t.queue) (r : Repr g m (t.insertDirty pio.key b)) :
    ∃ cache' w' t', writeCache { cache with map := m } w .success pio b = .ok (cache', w', 0) ∧
      Coherent g keys cache' w' worker stage t' (spec.store pio) ∧ Keeps w w' := by
  have hslot : (t.insertDirty pio.key b).slot =
      Function.update t.slot b ⟨pio.key, false, true, true⟩ := by
    simp [Table.insertDirty, Table.allocate_slot hfree]
  have hnot := h.valid.free_notMem_hashed (b := b) (by simp [hfree])
  simp only [overwritable, Bool.and_eq_true, beq_iff_eq] at hfull
  obtain ⟨w', heq, h', hkeeps⟩ := h.write_block hf r (h.valid.insertDirty hfree habs hq) hm
    (by simp [Table.insertDirty]) (by simp [Table.insertDirty])
    (fun i hi => by rw [hslot, Function.update_of_ne hi]) (by rw [hslot, Function.update_self])
    (fun hb => absurd hb hnot) hk
    (fun j hj => .inr ⟨by omega, by rw [hf.chained]; omega⟩)
  exact ⟨_, w', _, heq, h', hkeeps⟩

-- What has become of a request before it turns to the file: nothing when its lookup
-- found no block, everything when it did.
def Served (g : Geometry) (keys : Work → Prop) (cache : Cache) (w : World)
    (worker : Worker Work) (stage : Stage) (spec : Contents) (pio : Pio) : Option Nat → Prop
  | none => ∃ t, Coherent g keys cache w worker stage t spec ∧ t.Absent pio.key
  | some b => ∃ cache' w' pages rc t, mapToCache cache w .success pio b =
        .ok (cache', w', pages, rc) ∧
      Coherent g keys cache' w' worker stage t (spec.after pio) ∧ Keeps w w' ∧
      (pio.operation = .read → (∀ key, worker ≠ .demoting key b) → spec.Returned pio pages)

theorem serve_read (h : Coherent g keys cache w worker stage t spec) (hf : pio.Fits w)
    (hread : pio.operation = .read) (hb : b ∈ t.hashed) (hk : (t.slot b).key = pio.key) :
    Served g keys cache w worker stage spec pio (some b) := by
  obtain ⟨pages, heq, hret⟩ := h.read_block hf hb hk
  refine ⟨cache, w, pages, 0, t, ?_, ?_, .refl w, fun _ => hret⟩
  · simp only [mapToCache, hread, ite_true, heq, bind, Except.bind, pure, Except.pure]
  · rwa [Contents.after, if_neg (by simp [hread])]

theorem serve_write {cache' : Cache} (hwrite : pio.operation = .write)
    (heq : writeCache cache w .success pio b = .ok (cache', w', 0))
    (h : Coherent g keys cache' w' worker stage t (spec.store pio)) (hkeeps : Keeps w w') :
    Served g keys cache w worker stage spec pio (some b) := by
  refine ⟨cache', w', pio.buffers, 0, t, ?_, ?_, hkeeps, by simp [hwrite]⟩
  · simp only [mapToCache, hwrite, reduceCtorEq, ite_false, heq, bind, Except.bind, pure,
      Except.pure]
  · rwa [Contents.after, if_pos hwrite]

theorem serve {c : Option Nat} (h : Coherent g keys cache w worker stage t spec) (hf : pio.Fits w)
    (hop : pio.operation ≠ .discard) (hm : pio.operation = .write → Still worker t pio.key)
    (hfound : Found c t pio) :
    Served g keys cache w worker stage spec pio c := by
  cases c with
  | none => exact ⟨t, h, hfound⟩
  | some b =>
      obtain ⟨hb, hk⟩ := hfound
      cases ho : pio.operation with
      | read => exact h.serve_read hf ho hb hk
      | write =>
          obtain ⟨cache', w', t', heq, h', hkeeps⟩ := h.write_hit hf (hm ho) hb hk
          exact serve_write ho heq h' hkeeps
      | discard => exact absurd ho hop

theorem request (h : Coherent g keys cache w worker stage t spec) (hf : pio.Fits w)
    (hop : pio.operation ≠ .discard) (hk : keys pio.key)
    (hm : pio.operation = .write → Still worker t pio.key) :
    ∃ m c, mapLookup cache pio = .ok (m, c) ∧
      Served g keys { cache with map := m } w worker stage spec pio c := by
  unfold mapLookup
  split
  · rename_i hopt
    simp only [optimizable, Bool.and_eq_true, beq_iff_eq] at hopt
    obtain ⟨m, c, heq, hres⟩ := h.lookup_insert hk
    refine ⟨m, c, heq, ?_⟩
    rcases hres with ⟨t', h', hfound, hslot⟩ | ⟨b, rest, rfl, hfree, habs, hq, r⟩
    · exact h'.serve hf hop (by unfold Still; rwa [hslot]) hfound
    · obtain ⟨cache', w', t', heq', h', hkeeps⟩ :=
        h.write_insert hf (hm hopt.1) hk hopt.2 hfree habs hq r
      exact serve_write hopt.1 heq' h' hkeeps
  · obtain ⟨m, c, t', heq, h', hfound, hslot⟩ := h.lookup hk
    exact ⟨m, c, heq, h'.serve hf hop (by unfold Still; rwa [hslot]) hfound⟩

end Requests

end Coherent

end UserPageCache.SsdCache
