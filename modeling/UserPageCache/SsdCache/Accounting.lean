import UserPageCache.SsdCache.Interleave.Theorems

namespace UserPageCache.SsdCache

variable {s : State} {blockSize cblockNum : Nat}

structure Accounting (n : Nat) (s : State) (free clean dirty : List Nat) : Prop where
  freeList : IsIlist s.map.es s.map.ea.free free
  cleanList : IsIlist s.map.es s.map.clean clean
  dirtyList : IsIlist s.map.es s.map.dirty dirty
  exactlyOne : (free ++ clean ++ dirty ++ s.worker.inFlight.toList).Perm (List.range n)
  alloc : ∀ b < n, entryGetAlloc (s.map.es b) = false ↔ b ∈ free
  pending : ∀ b < n, entryGetPending (s.map.es b) = true ↔ s.worker.inFlight = some b
  flag : ∀ b, b ∈ clean ∨ b ∈ dirty → (b ∈ dirty ↔ entryGetDirty (s.map.es b) = true)
  nrAllocated : s.map.ea.nrAllocated = n - free.length

theorem Sound.accounting {g : Geometry} {t : Table Work} (h : Sound g s t) :
    Accounting g.cacheBlockNum s t.free t.clean t.dirty where
  freeList := h.repr.free
  cleanList := h.repr.clean
  dirtyList := h.repr.dirty
  exactlyOne := List.perm_append_comm.trans h.valid.accounted.partition
  alloc b hb := by
    rw [h.repr.getAlloc]
    exact h.valid.accounted.alloc b hb
  pending b hb := by
    rw [h.repr.getPending]
    exact h.valid.pending b hb
  flag b hb := by
    rw [h.repr.getDirty]
    have hc := h.valid.accounted.clean b
    have hd := h.valid.accounted.dirty b
    rcases hb with hb | hb
    · simp only [hc hb, Bool.false_eq_true, iff_false]
      exact fun hd' => by simp [hc hb] at hd; exact hd hd'
    · simp [hb, hd hb]
  nrAllocated := by
    have ha := h.repr.allocated
    omega

theorem block_accounting (h : (interleaving blockSize cblockNum).Reachable Settled s) :
    ∃ free clean dirty, Accounting cblockNum s free clean dirty := by
  obtain ⟨g, t, hs, rfl, -⟩ := sound_of_reachable h
  exact ⟨t.free, t.clean, t.dirty, hs.accounting⟩

theorem boot_start (hn : cblockNum ≤ CACHE_BLOCK_NUMBER) (hb : blockSize ≠ 0) (hc : cblockNum ≠ 0) :
    (interleaving blockSize cblockNum).start (State.boot blockSize cblockNum) := by
  refine ⟨hn, ?_, rfl, rfl, rfl⟩
  simp [State.boot, initMapping, hb, hc]

theorem settled_of_notMem {acts : List Action} {a : Action}
    (hacts : ∀ path index, Action.removeMapping path index ∉ acts) (ha : a ∈ acts) (s : State) :
    Settled a s :=
  fun path index heq => absurd (heq ▸ ha) (hacts path index)

-- What is computed of a run without discards holds of a state that can be reached.
theorem boot_run {acts : List Action} {p : State → Bool} (hn : cblockNum ≤ CACHE_BLOCK_NUMBER)
    (hc : cblockNum ≠ 0) (hacts : ∀ path index, Action.removeMapping path index ∉ acts)
    (hp : ((interleaving 512 cblockNum).run (State.boot 512 cblockNum) acts).any p = true) :
    ∃ s, (interleaving 512 cblockNum).Reachable Settled s ∧ p s = true :=
  (System.Reachable.start (boot_start hn (by decide) hc)).exists_run
    (fun _ ha s => settled_of_notMem hacts ha s) hp

-- One client misses twice; the worker has begun to promote the first block.
def missRun : List Action :=
  [.lookupMapping [⟨97, nonzero_a⟩] 3, .nested, .lookupMapping [⟨97, nonzero_a⟩] 9, .nested,
    .peakWork, .startPromotion]

theorem missRun_reachable : ∃ s, (interleaving 512 2).Reachable Settled s ∧
    s.worker = .promoting ⟨[⟨97, nonzero_a⟩], 0⟩ 0 := by
  have hrun : (((interleaving 512 2).run (State.boot 512 2) missRun).any
      fun s => s.worker == .promoting ⟨[⟨97, nonzero_a⟩], 0⟩ 0) = true := by decide +kernel
  obtain ⟨s, hs, hw⟩ := boot_run (by decide) (by decide) (by simp [missRun]) hrun
  exact ⟨s, hs, by simpa using hw⟩

theorem block_accounting_missRun :
    ∃ s free clean dirty, s.worker.inFlight = some 0 ∧ Accounting 2 s free clean dirty := by
  obtain ⟨s, hs, hw⟩ := missRun_reachable
  obtain ⟨free, clean, dirty, h⟩ := block_accounting hs
  exact ⟨s, free, clean, dirty, by simp [hw, Worker.inFlight], h⟩

structure OneBlockPerKey (n : Nat) (s : State) (chain : Nat → List Nat) (queue : List Work)
    (clean dirty : List Nat) : Prop where
  hashTable : IsHashTable s.map.es s.map.table chain
  workQueue : IsQueue s.map.wq queue
  cleanList : IsIlist s.map.es s.map.clean clean
  dirtyList : IsIlist s.map.es s.map.dirty dirty
  unique : ∀ i j, Hashed chain i → Hashed chain j → keyOf (s.map.es i) = keyOf (s.map.es j) → i = j
  promoting : ∀ key cblock, s.worker = .promoting key cblock → keyOf (s.map.es cblock) = key ∧
    (∀ i, Hashed chain i → keyOf (s.map.es i) ≠ key) ∧ queue.head? = some key
  front : ∀ key, s.worker.current = some key → queue.head? = some key
  waiting : ∀ key ∈ queue, s.worker.current ≠ some key →
    ∀ i, Hashed chain i → keyOf (s.map.es i) ≠ key
  hashed : ∀ b < n, entryGetAlloc (s.map.es b) = true →
    (Hashed chain b ↔ b ∈ clean ∨ b ∈ dirty ∨ s.worker.moving = some b)

-- In the table is the same as at rest on a list or on its way out.
theorem Valid.hashed_iff {κ : Type*} {n b : ℕ} {w : Worker κ} {t : Table κ} (h : Valid n w t)
    (hlt : b < n) (ha : (t.slot b).alloc = true) :
    b ∈ t.hashed ↔ b ∈ t.clean ∨ b ∈ t.dirty ∨ w.moving = some b := by
  have hlisted : b ∈ t.listed → w.arriving ≠ some b := fun hl =>
    Valid.arriving_ne fun hw => h.accounted.notMem_listed (by simp [hw]) hl
  rw [h.hashed b]
  constructor
  · rintro ⟨-, -, hna⟩
    by_cases hw : w.inFlight = some b
    · cases w <;> simp_all [Worker.inFlight, Worker.arriving, Worker.moving]
    · have hr := h.resident hlt hw ha
      unfold Table.Resident at hr
      split at hr
      · exact .inr (.inl hr)
      · exact .inl hr
  · rintro (hc | hd | hm)
    · exact ⟨hlt, ha, hlisted (by simp [Table.listed, hc])⟩
    · exact ⟨hlt, ha, hlisted (by simp [Table.listed, hd])⟩
    · refine ⟨hlt, ha, ?_⟩
      cases w <;> simp_all [Worker.arriving, Worker.moving]

theorem Sound.oneBlockPerKey {g : Geometry} {t : Table Work} (h : Sound g s t) :
    ∃ chain, OneBlockPerKey g.cacheBlockNum s chain t.queue t.clean t.dirty := by
  obtain ⟨chain, hc, hm⟩ := h.repr.hash
  have hkey : ∀ i, keyOf (s.map.es i) = (t.slot i).key := fun i => by
    rw [h.repr.slot_eq]
    rfl
  have habs : ∀ key, t.Absent key → ∀ i, Hashed chain i → keyOf (s.map.es i) ≠ key :=
    fun key ha i hi => hkey i ▸ ha i ((hm i).mpr hi)
  refine ⟨chain, hc, h.repr.queue, h.repr.clean, h.repr.dirty, fun i j hi hj hij => ?_,
    fun key b hw => ⟨?_, ?_, ?_⟩, h.valid.current, fun key hq hcur => ?_, fun b hb ha => ?_⟩
  · exact h.valid.unique i ((hm i).mpr hi) j ((hm j).mpr hj) (by rwa [hkey, hkey] at hij)
  · rw [hkey]
    exact h.valid.arriving key b hw
  · have hhead := h.valid.current key (by simp [hw, Worker.current])
    exact habs key ((h.valid.waiting key (List.mem_of_mem_head? hhead)).resolve_left
      (by simp [hw, Worker.served]))
  · exact h.valid.current key (by simp [hw, Worker.current])
  · refine habs key ((h.valid.waiting key hq).resolve_left fun hs => hcur ?_)
    cases hw : s.worker <;> simp_all [Worker.served, Worker.current]
  · rw [← hm]
    exact h.valid.hashed_iff hb (by rwa [← h.repr.getAlloc])

theorem one_block_per_key (h : (interleaving blockSize cblockNum).Reachable Settled s) :
    ∃ chain queue clean dirty, OneBlockPerKey cblockNum s chain queue clean dirty := by
  obtain ⟨g, t, hs, rfl, -⟩ := sound_of_reachable h
  obtain ⟨chain, hc⟩ := hs.oneBlockPerKey
  exact ⟨chain, t.queue, t.clean, t.dirty, hc⟩

theorem one_block_per_key_missRun : ∃ s chain queue clean dirty,
    s.worker = .promoting ⟨[⟨97, nonzero_a⟩], 0⟩ 0 ∧
      OneBlockPerKey 2 s chain queue clean dirty := by
  obtain ⟨s, hs, hw⟩ := missRun_reachable
  obtain ⟨chain, queue, clean, dirty, h⟩ := one_block_per_key hs
  exact ⟨s, chain, queue, clean, dirty, hw, h⟩

end UserPageCache.SsdCache
