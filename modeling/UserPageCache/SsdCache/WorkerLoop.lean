import UserPageCache.SsdCache.Accounting
import UserPageCache.SsdCache.Progress

namespace UserPageCache.SsdCache

section Loop

-- The device and the files answer anew in every round.
variable (reply : Nat → Replies)

-- The loop of the migration thread from its k-th migration on, up to where it may be cancelled
-- because there is nothing to do, and how many migrations it has then made.
def migration : Nat → Nat → Mapping → World → Except Fault (Mapping × World × Nat)
  | 0, _, _, _ => .error .divergence
  | fuel + 1, k, m, w => do
    let (m, w, worked) ← doMigrationWork m w (reply k)
    if worked then migration fuel (k + 1) m w
    else if isEmpty m.wq then return (m, w, k)
    else migration fuel k m w

-- Its first rounds.
def rounds : Nat → Mapping → World → Except Fault (Mapping × World)
  | 0, m, w => .ok (m, w)
  | n + 1, m, w => do
    let (m, w) ← rounds n m w
    let (m, w, _) ← doMigrationWork m w (reply n)
    return (m, w)

end Loop

-- The calls of a promotion succeed, as far as the code can tell.
structure Accepting (reply : Replies) : Prop where
  opens : reply.opens = true
  transfer : reply.transfer ≠ .error
  command : reply.command ≠ .rejected

section Rounds

variable {g : Geometry} {m m' : Mapping} {t t' : Table Work} {w w' : World} {key : Work}
  {more : List Work} {blocks : List Nat} {b : Nat} {reply : Replies} {path : CString} {index : Nat}

theorem Migrated.queue (h : Migrated g m w reply key t t' w') : t'.queue = t.queue := by
  cases h with
  | promoted => cases ‹Bool› <;> simp [Table.promotionComplete, Table.promotionStart]
  | demoted => simp [Table.demotionComplete, Table.demotionStart]
  | written => cases ‹Bool› <;> simp [Table.writebackComplete, Table.writebackStart]
  | stuck => rfl

-- A round takes one work from the queue, whatever becomes of its migration.
theorem Repr.round (r : Repr g m t) (v : Valid g.cacheBlockNum .idle t) (hq : t.queue = key :: more)
    (w : World) (reply : Replies) : ∃ m' w' t', doMigrationWork m w reply = .ok (m', w', true) ∧
      Repr g m' t' ∧ Valid g.cacheBlockNum .idle t' ∧ t'.queue = more := by
  have hhead : t.queue.head? = some key := by rw [hq, List.head?_cons]
  obtain ⟨m', t', w', heq, r', v', hm⟩ := r.migrate (v.peek hhead) w reply
  refine ⟨_, w', t'.dequeue, ?_, r'.removeWork, v'.dequeue, ?_⟩
  · unfold doMigrationWork
    simp only [r.queue.peakWork.trans hhead, heq, bind, Except.bind, pure, Except.pure]
  · simp [Table.dequeue, hm.queue, hq]

theorem Repr.migration (r : Repr g m t) (v : Valid g.cacheBlockNum .idle t) (reply : Nat → Replies)
    (w : World) (k : Nat) : ∃ m' w' t',
      SsdCache.migration reply (t.queue.length + 1) k m w = .ok (m', w', k + t.queue.length) ∧
      Repr g m' t' ∧ Valid g.cacheBlockNum .idle t' ∧ t'.queue = [] := by
  generalize hl : t.queue = queue
  induction queue generalizing m t w k with
  | nil =>
      have hnone : peakWork m.wq = none := by rw [r.queue.peakWork, hl, List.head?_nil]
      have hempty : isEmpty m.wq = true := by simp [isEmpty, r.queue.size, hl]
      refine ⟨m, w, t, ?_, r, v, hl⟩
      simp only [SsdCache.migration, doMigrationWork, hnone, hempty, bind, Except.bind, pure,
        Except.pure, List.length_nil, Bool.false_eq_true, ite_false, ite_true, Nat.add_zero]
  | cons key more ih =>
      obtain ⟨m₁, w₁, t₁, heq, r₁, v₁, hq⟩ := r.round v hl w (reply k)
      obtain ⟨m', w', t', hrun, hrest⟩ := ih r₁ v₁ w₁ (k + 1) hq
      refine ⟨m', w', t', ?_, hrest⟩
      rw [SsdCache.migration]
      simp only [heq, bind, Except.bind, ite_true, List.length_cons]
      rw [hrun]
      congr 3
      omega

theorem Accepting.promotion (h : Accepting reply) (hf : (w.files path).isSome) (m : Mapping)
    (index c : Nat) : ∃ w', mgStart m w reply (some path) index c .promotion = (w', true) ∧
      w'.files = w.files := by
  obtain ⟨file, hfile⟩ := Option.isSome_iff_exists.mp hf
  obtain ⟨n, hn⟩ := bytes_isSome h.transfer (min CACHE_BLOCK_SIZE (file.length - fileOffset index))
  have hopen : openFile w reply path false = some w := by simp [openFile, h.opens, hfile]
  cases hc : reply.command with
  | rejected => exact absurd hc h.command
  | failed => simp [mgStart, loadFile, pread, hopen, hfile, hn, storeCblock, writeSpdk, hc]
  | done => simp [mgStart, loadFile, pread, hopen, hfile, hn, storeCblock, writeSpdk, writeSsd, hc]

-- What a round does to the table when it promotes into the first free block.
def Table.promoted (t : Table Work) (key : Work) (b : Nat) : Table Work :=
  ((t.promotionStart key).promotionComplete b true).dequeue

theorem Table.promoted_eq {t : Table Work} (hf : t.free = b :: blocks) (key : Work) :
    (t.promoted key b).free = blocks ∧ (t.promoted key b).queue = t.queue.tail ∧
      (t.promoted key b).hashed = insert b t.hashed ∧ ((t.promoted key b).slot b).key = key ∧
      ∀ c, c ≠ b → (t.promoted key b).slot c = t.slot c := by
  have hslot := Table.allocate_slot hf (⟨key, true, false, true⟩ : Slot Work)
  have hrest : (t.allocate ⟨key, true, false, true⟩).free = blocks := by
    rw [Table.allocate_eq hf, Table.setSlot]
  refine ⟨?_, ?_, ?_, ?_, fun c hc => ?_⟩
  · simp [Table.promoted, Table.promotionComplete, Table.promotionStart, Table.dequeue,
      Table.hashIn, Table.setPending, Table.setSlot, hrest]
  · simp [Table.promoted, Table.promotionComplete, Table.promotionStart, Table.dequeue]
  · simp [Table.promoted, Table.promotionComplete, Table.promotionStart, Table.dequeue]
  · simp [Table.promoted, Table.promotionComplete, Table.promotionStart, Table.dequeue, hslot]
  · simp [Table.promoted, Table.promotionComplete, Table.promotionStart, Table.dequeue, hslot, hc]

-- With a free block the round is a promotion of the oldest work, into that block.
theorem Repr.promote (r : Repr g m t) (v : Valid g.cacheBlockNum .idle t)
    (hf : t.free = b :: blocks) (hq : t.queue = key :: more) (ha : Accepting reply)
    (hfile : (w.files key.fullPathName).isSome) : ∃ m' w',
      doMigrationWork m w reply = .ok (m', w', true) ∧ w'.files = w.files ∧
      Repr g m' (t.promoted key b) ∧ Valid g.cacheBlockNum .idle (t.promoted key b) := by
  have hhead : t.queue.head? = some key := by rw [hq, List.head?_cons]
  have v₁ := (v.peek hhead).promotionStart hf
  obtain ⟨m₁, hstart, r₁⟩ := r.promotionFreeToClean (v.peek hhead) hf key
  obtain ⟨w', hs, hfiles⟩ := ha.promotion hfile m₁ key.cachePageIndex b
  obtain ⟨m', hdone, r'⟩ := r₁.promotionComplete v₁ true
  refine ⟨_, w', ?_, hfiles, r'.removeWork,
    (v₁.promotionComplete true).dequeue⟩
  unfold doMigrationWork SsdCache.migrate
  simp only [r.queue.peakWork.trans hhead, hstart, hs, hdone, bind, Except.bind, pure, Except.pure]

-- The first rounds promote the oldest works in turn while blocks are free.
structure Promoted (t t' : Table Work) (n : Nat) : Prop where
  free : t'.free = t.free.drop n
  queue : t'.queue = t.queue.drop n
  kept : ∀ c ∈ t.hashed, c ∈ t'.hashed ∧ (t'.slot c).key = (t.slot c).key
  fetched : ∀ key ∈ t.queue.take n, ∃ c ∈ t'.hashed, (t'.slot c).key = key

theorem Promoted.round {n : Nat} (h : Promoted t t' n) (v : Valid g.cacheBlockNum .idle t')
    (hf : t'.free = b :: blocks) (hq : t'.queue = key :: more) :
    Promoted t (t'.promoted key b) (n + 1) := by
  obtain ⟨hfree, hqueue, hhashed, hkey, hother⟩ := Table.promoted_eq hf key
  have hb : b ∉ t'.hashed := v.free_notMem_hashed (by simp [hf])
  have hkept : ∀ c ∈ t'.hashed, c ∈ (t'.promoted key b).hashed ∧
      ((t'.promoted key b).slot c).key = (t'.slot c).key := fun c hc => by
    rw [hother c fun heq => hb (heq ▸ hc), hhashed]
    exact ⟨Finset.mem_insert_of_mem hc, rfl⟩
  refine ⟨?_, ?_, fun c hc => ?_, fun other hother => ?_⟩
  · rw [hfree, ← List.drop_drop, ← h.free, hf, List.drop_succ_cons, List.drop_zero]
  · rw [hqueue, ← List.drop_drop, ← h.queue, List.drop_one]
  · obtain ⟨hc', hkey'⟩ := h.kept c hc
    exact ⟨(hkept c hc').1, (hkept c hc').2.trans hkey'⟩
  · rw [List.take_add_one, List.mem_append, Option.mem_toList, ← List.head?_drop, ← h.queue, hq,
      List.head?_cons, Option.some_inj] at hother
    rcases hother with hold | rfl
    · obtain ⟨c, hc, hkc⟩ := h.fetched other hold
      exact ⟨c, (hkept c hc).1, (hkept c hc).2.trans hkc⟩
    · exact ⟨b, by simp [hhashed], hkey⟩

theorem Repr.promotions {reply : Nat → Replies} {n : Nat} (r : Repr g m t)
    (v : Valid g.cacheBlockNum .idle t) (hf : n ≤ t.free.length) (hq : n ≤ t.queue.length)
    (ha : ∀ k, Accepting (reply k)) (hfile : ∀ key ∈ t.queue, (w.files key.fullPathName).isSome) :
    ∃ m' w' t', rounds reply n m w = .ok (m', w') ∧ w'.files = w.files ∧ Repr g m' t' ∧
      Valid g.cacheBlockNum .idle t' ∧ Promoted t t' n := by
  induction n with
  | zero =>
      exact ⟨m, w, t, rfl, rfl, r, v, ⟨rfl, rfl, fun _ hc => ⟨hc, rfl⟩, by simp⟩⟩
  | succ n ih =>
      obtain ⟨m₁, w₁, t₁, hrun, hfiles, r₁, v₁, h₁⟩ := ih (by omega) (by omega)
      obtain ⟨b, blocks, hfree⟩ : ∃ b blocks, t₁.free = b :: blocks := by
        refine List.exists_cons_of_length_pos ?_
        rw [h₁.free, List.length_drop]
        omega
      obtain ⟨key, more, hqueue⟩ : ∃ key more, t₁.queue = key :: more := by
        refine List.exists_cons_of_length_pos ?_
        rw [h₁.queue, List.length_drop]
        omega
      have hkey : key ∈ t.queue := by
        refine List.mem_of_mem_drop (i := n) ?_
        rw [← h₁.queue, hqueue]
        exact List.mem_cons_self
      obtain ⟨m', w', heq, hfiles', r', v'⟩ :=
        r₁.promote v₁ hfree hqueue (ha n) (w := w₁) (by rw [hfiles]; exact hfile key hkey)
      refine ⟨m', w', _, ?_, hfiles'.trans hfiles, r', v', h₁.round v₁ hfree hqueue⟩
      simp only [rounds, hrun, heq, bind, Except.bind, pure, Except.pure]

end Rounds

section Drain

variable {s : State} {blockSize cblockNum n : Nat} {w : World}

-- Whatever the files and the device answer, the worker empties the queue in as many migrations
-- as works were queued, and has no block in flight then. When they accept, the first rounds
-- bring in the oldest works, one free block each, and drop nothing that the cache held.
theorem worker_drains (reply : Nat → Replies)
    (h : (interleaving blockSize cblockNum).Reachable Settled s) (hidle : s.worker = .idle) :
    (∃ m' w' free clean dirty,
      migration reply (s.map.wq.size + 1) 0 s.map w = .ok (m', w', s.map.wq.size) ∧
      isEmpty m'.wq = true ∧
      Accounting cblockNum ⟨m', .idle, none, []⟩ free clean dirty) ∧
    ((∀ k, Accepting (reply k)) → n ≤ s.map.ea.free.nrElts → n ≤ s.map.wq.size →
      ∃ queue, IsQueue s.map.wq queue ∧
        ((∀ key ∈ queue, (w.files key.fullPathName).isSome) → ∃ m' w',
          rounds reply n s.map w = .ok (m', w') ∧ IsQueue m'.wq (queue.drop n) ∧
          (∀ key ∈ queue.take n, (m'.found key).isSome) ∧
          ∀ key b, s.map.found key = some b → m'.found key = some b)) := by
  obtain ⟨g, t, hs, rfl, -⟩ := sound_of_reachable h
  have r := hs.repr
  have v : Valid g.cacheBlockNum .idle t := hidle ▸ hs.valid
  refine ⟨?_, fun ha hf hq => ⟨t.queue, r.queue, fun hfile => ?_⟩⟩
  · obtain ⟨m', w', t', hrun, r', v', hempty⟩ := r.migration v reply w 0
    rw [← r.queue.size, Nat.zero_add] at hrun
    have hs' : Sound g ⟨m', .idle, none, []⟩ t' :=
      ⟨r', v', by simp [State.view], by simp [State.view]⟩
    exact ⟨m', w', t'.free, t'.clean, t'.dirty, hrun, by simp [isEmpty, r'.queue.size, hempty],
      hs'.accounting⟩
  · rw [r.free.nrElts] at hf
    rw [r.queue.size] at hq
    obtain ⟨m', w', t', hrun, -, r', v', hp⟩ := r.promotions v hf hq ha hfile
    refine ⟨m', w', hrun, hp.queue ▸ r'.queue, fun key hkey => ?_, fun key b hb => ?_⟩
    · obtain ⟨c, hc, hkc⟩ := hp.fetched key hkey
      rw [r'.found_of_hashed v' hc hkc]
      rfl
    · obtain ⟨hhashed, hkey⟩ := r.found_hashed hb
      obtain ⟨hb', hkey'⟩ := hp.kept b hhashed
      exact r'.found_of_hashed v' hb' (hkey'.trans hkey)

-- One client has missed.
def queuedRun : List Action := [.lookupMapping [⟨97, nonzero_a⟩] 3, .nested]

-- One work is queued, and both blocks are free.
theorem queuedRun_free : ∃ s, (interleaving 512 2).Reachable Settled s ∧ s.worker = .idle ∧
    s.map.ea.free.nrElts = 2 ∧ s.map.wq.size = 1 := by
  have hrun : (((interleaving 512 2).run (State.boot 512 2) queuedRun).any fun s =>
      s.worker == .idle && s.map.ea.free.nrElts == 2 && s.map.wq.size == 1) = true := by
    decide +kernel
  obtain ⟨s, hs, hp⟩ := boot_run (by decide) (by decide) (by simp [queuedRun]) hrun
  simp only [Bool.and_eq_true, beq_iff_eq] at hp
  exact ⟨s, hs, hp.1.1, hp.1.2, hp.2⟩

theorem worker_drains_queuedRun : ∃ s m w, (interleaving 512 2).Reachable Settled s ∧
    s.map.wq.size = 1 ∧ rounds (fun _ => .success) 1 s.map fullWorld = .ok (m, w) ∧
    isEmpty m.wq = true := by
  obtain ⟨s, hs, hidle, hfree, hsize⟩ := queuedRun_free
  have haccept : ∀ k : Nat, Accepting ((fun _ => .success : Nat → Replies) k) :=
    fun _ => ⟨rfl, nofun, nofun⟩
  obtain ⟨queue, hqueue, hfetch⟩ := (worker_drains (n := 1) (w := fullWorld) (fun _ => .success) hs
    hidle).2 haccept (by omega) (by omega)
  obtain ⟨m, w, hrounds, hrest, -⟩ := hfetch fun _ _ => rfl
  have hempty : m.wq.size = 0 := by
    rw [hrest.size, List.length_drop, ← hqueue.size, hsize]
  exact ⟨s, m, w, hs, hsize, hrounds, beq_iff_eq.mpr hempty⟩

end Drain

end UserPageCache.SsdCache
