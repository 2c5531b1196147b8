import UserPageCache.SsdCache.Accounting
import UserPageCache.SsdCache.Migration.Theorems

namespace UserPageCache.SsdCache

section Tally

-- The migrations of each kind that have been completed.
def Mapping.tally (m : Mapping) : MgType → Nat
  | .promotion => m.promotionTime
  | .demotion => m.demotionTime
  | .writeback => m.writebackTime

-- The block that each kind moves from one list to another.
def Moved (m m' : Mapping) : MgType → Prop
  | .promotion => m.ea.free.nrElts = m'.ea.free.nrElts + 1 ∧
      m'.clean.nrElts = m.clean.nrElts + 1 ∧ m'.dirty.nrElts = m.dirty.nrElts
  | .demotion => m'.ea.free.nrElts = m.ea.free.nrElts + 1 ∧
      m.clean.nrElts = m'.clean.nrElts + 1 ∧ m'.dirty.nrElts = m.dirty.nrElts
  | .writeback => m'.ea.free.nrElts = m.ea.free.nrElts ∧
      m'.clean.nrElts = m.clean.nrElts + 1 ∧ m.dirty.nrElts = m'.dirty.nrElts + 1

-- One migration of this kind was done and none of another.
structure Did (m m' : Mapping) (mgType : MgType) : Prop where
  tally : m'.tally = Function.update m.tally mgType (inc (m.tally mgType))
  moved : Moved m m' mgType

instance (m m' : Mapping) : (kind : MgType) → Decidable (Moved m m' kind)
  | .promotion => inferInstanceAs (Decidable (_ ∧ _))
  | .demotion => inferInstanceAs (Decidable (_ ∧ _))
  | .writeback => inferInstanceAs (Decidable (_ ∧ _))

instance (m m' : Mapping) (kind : MgType) : Decidable (Did m m' kind) :=
  decidable_of_iff ((∀ k ∈ [MgType.promotion, .demotion, .writeback],
      m'.tally k = Function.update m.tally kind (inc (m.tally kind)) k) ∧ Moved m m' kind)
    ⟨fun h => ⟨funext fun k => h.1 k (by cases k <;> simp), h.2⟩,
      fun h => ⟨fun k _ => congrFun h.tally k, h.moved⟩⟩

variable {m m' : Mapping} {c : Nat} {a b : MgType}

theorem inc_ne (n : Nat) : inc n ≠ n := by
  unfold inc u32
  omega

theorem Did.unique (ha : Did m m' a) (hb : Did m m' b) : a = b := by
  by_contra hne
  have heq := congrFun (ha.tally.symm.trans hb.tally) a
  rw [Function.update_self, Function.update_of_ne hne] at heq
  exact inc_ne _ heq

theorem addTailByFlag_tally (m : Mapping) (e : Nat) : (addTailByFlag m e).tally = m.tally := by
  funext k
  unfold addTailByFlag
  split <;> cases k <;> rfl

theorem promotionFreeToClean_tally {path : CString} {index : Nat}
    (h : promotionFreeToClean m path index = .ok (some (m', c))) : m'.tally = m.tally := by
  unfold promotionFreeToClean at h
  split at h
  · simp at h
  · split at h
    · simp at h
    · simp only [Except.ok.injEq, Option.some.injEq, Prod.mk.injEq] at h
      rw [← h.1]
      funext k
      cases k <;> rfl

theorem promotionComplete_tally (h : promotionComplete m c true = .ok m') :
    m'.tally = Function.update m.tally .promotion (inc (m.tally .promotion)) := by
  unfold promotionComplete at h
  split at h
  · simp at h
  · rw [← Except.ok.inj h, addTailByFlag_tally]
    funext k
    cases k <;> rfl

theorem demotionCleanToFree_tally (h : demotionCleanToFree m = .ok (some (m', c))) :
    m'.tally = m.tally := by
  unfold demotionCleanToFree at h
  split at h
  · simp at h
  · split at h
    · simp at h
    · simp only [Except.ok.injEq, Option.some.injEq, Prod.mk.injEq] at h
      rw [← h.1]
      funext k
      cases k <;> rfl

theorem hashOut_tally {e : Nat} (h : hashOut m e = .ok m') : m'.tally = m.tally := by
  unfold hashOut at h
  obtain ⟨v, -, h⟩ := bind_eq_ok.mp h
  rw [← Except.ok.inj h]
  funext k
  cases k <;> rfl

theorem demotionComplete_tally (h : demotionComplete m c true = .ok m') :
    m'.tally = Function.update m.tally .demotion (inc (m.tally .demotion)) := by
  unfold demotionComplete at h
  split at h
  · simp at h
  · obtain ⟨m₁, hout, h⟩ := bind_eq_ok.mp h
    have htally := hashOut_tally hout
    rw [← Except.ok.inj h]
    funext k
    refine (congrFun htally k).trans ?_
    cases k <;> rfl

theorem writebackDirtyToClean_tally (h : writebackDirtyToClean m = .ok (some (m', c))) :
    m'.tally = m.tally := by
  unfold writebackDirtyToClean at h
  split at h
  · simp at h
  · split at h
    · simp at h
    · split at h
      · simp at h
      · simp only [Except.ok.injEq, Option.some.injEq, Prod.mk.injEq] at h
        rw [← h.1]
        funext k
        cases k <;> rfl

theorem writebackComplete_tally (h : writebackComplete m c true = .ok m') :
    m'.tally = Function.update m.tally .writeback (inc (m.tally .writeback)) := by
  unfold writebackComplete at h
  split at h
  · simp at h
  · rw [← Except.ok.inj h, addTailByFlag_tally]
    funext k
    cases k <;> rfl

end Tally

section Calls

-- The device and file calls of the next migration succeed: the files that it may have to
-- open are there. A transfer may be short.
structure Succeeding (m : Mapping) (w : World) (reply : Replies) : Prop where
  opens : reply.opens = true
  transfer : reply.transfer ≠ .error
  command : reply.command = .done
  queued : ∀ key, peakWork m.wq = some key → (w.files key.fullPathName).isSome
  dirty : ∀ e, lHead m.dirty = some e → (w.files (m.es e).fullPathName).isSome

instance (m : Mapping) (w : World) (reply : Replies) : Decidable (Succeeding m w reply) :=
  decidable_of_iff (reply.opens = true ∧ reply.transfer ≠ .error ∧ reply.command = .done ∧
      (∀ key ∈ peakWork m.wq, (w.files key.fullPathName).isSome) ∧
      ∀ e ∈ lHead m.dirty, (w.files (m.es e).fullPathName).isSome)
    ⟨fun ⟨ho, ht, hc, hq, hd⟩ => ⟨ho, ht, hc, hq, hd⟩,
      fun h => ⟨h.opens, h.transfer, h.command, h.queued, h.dirty⟩⟩

-- Calls of the worker that find a work and succeed, with the kinds of the migrations they
-- did, the newest first. Between two calls clients may queue more works by missing.
inductive Calls : Mapping → World → List MgType → Mapping → World → Prop
  | nil (m : Mapping) (w : World) : Calls m w [] m w
  | call {m m₁ m₂ : Mapping} {w w₁ w₂ : World} {kinds : List MgType} {kind : MgType}
      {reply : Replies} (hc : Calls m w kinds m₁ w₁) (hs : Succeeding m₁ w₁ reply)
      (hd : doMigrationWork m₁ w₁ reply = .ok (m₂, w₂, true)) (hk : Did m₁ m₂ kind) :
      Calls m w (kind :: kinds) m₂ w₂
  | miss {m m₁ m₂ : Mapping} {w w₁ : World} {kinds : List MgType} {fullPathName : CString}
      {pageIndex : Nat} (hc : Calls m w kinds m₁ w₁)
      (hl : lookupMapping m₁ fullPathName pageIndex = .ok (m₂, none)) :
      Calls m w kinds m₂ w₁

variable {g : Geometry} {m m' : Mapping} {w w' : World} {t t' : Table Work} {reply : Replies}
  {key : Work} {path : CString} {index c : Nat}

theorem bytes_isSome {transfer : Transfer} (h : transfer ≠ .error) (len : Nat) :
    ∃ n, transfer.bytes len = some n := by
  cases transfer with
  | error => exact absurd rfl h
  | short n => exact ⟨_, rfl⟩
  | full => exact ⟨_, rfl⟩

theorem Succeeding.openFile (h : Succeeding m w reply) (hf : (w'.files path).isSome) :
    openFile w' reply path false = some w' := by
  obtain ⟨file, hfile⟩ := Option.isSome_iff_exists.mp hf
  simp [SsdCache.openFile, h.opens, hfile]

theorem Succeeding.promotion (h : Succeeding m w reply) (hf : (w.files path).isSome) :
    (mgStart m' w reply (some path) index c .promotion).2 = true := by
  obtain ⟨file, hfile⟩ := Option.isSome_iff_exists.mp hf
  obtain ⟨n, hn⟩ := bytes_isSome h.transfer (min CACHE_BLOCK_SIZE (file.length - fileOffset index))
  have hload : ∃ w₁, loadFile w reply path index = some w₁ := by
    unfold loadFile pread
    simp [h.openFile hf, hfile, hn]
  obtain ⟨w₁, hw⟩ := hload
  simp [mgStart, hw, storeCblock, writeSpdk, h.command]

theorem Succeeding.writeback (h : Succeeding m w reply) (hf : (w.files path).isSome) :
    (mgStart m' w reply (some path) index c .writeback).2 = true := by
  obtain ⟨file, hfile⟩ := Option.isSome_iff_exists.mp hf
  obtain ⟨n, hn⟩ := bytes_isSome h.transfer CACHE_BLOCK_SIZE
  have hload : ∃ w₁, loadCblock m' w reply c = (w₁, 0) ∧ w₁.files = w.files := by
    simp [loadCblock, readSpdk, h.command]
  obtain ⟨w₁, hw, hfiles⟩ := hload
  have hopen : SsdCache.openFile w₁ reply path false = some w₁ := h.openFile (by rwa [hfiles])
  have hstore : ∃ w₂, storeFile w₁ reply path index = some w₂ := by
    unfold storeFile pwrite
    simp [hopen, hfiles, hfile, hn]
  obtain ⟨w₂, hw₂⟩ := hstore
  simp [mgStart, hw, hw₂]

-- What migrate ends with, in each of its three branches.
theorem migrate_promotion {m₁ : Mapping} (hp : promotionFreeToClean m path index = .ok (some (m₁, c)))
    (h : migrate m w reply path index = .ok (m', w')) : promotionComplete m₁ c
      (mgStart m₁ w reply (some path) index c .promotion).2 = .ok m' := by
  unfold migrate at h
  simp only [hp, bind, Except.bind, pure, Except.pure] at h
  cases hm : promotionComplete m₁ c (mgStart m₁ w reply (some path) index c .promotion).2 with
  | error fault => simp [hm] at h
  | ok m₂ =>
      simp only [hm, Except.ok.injEq, Prod.mk.injEq] at h
      rw [h.1]

theorem migrate_demotion {m₁ : Mapping} (hp : promotionFreeToClean m path index = .ok none)
    (hd : demotionCleanToFree m = .ok (some (m₁, c)))
    (h : migrate m w reply path index = .ok (m', w')) : demotionComplete m₁ c true = .ok m' := by
  unfold migrate at h
  simp only [hp, hd, mgStart, bind, Except.bind, pure, Except.pure] at h
  cases hm : demotionComplete m₁ c true with
  | error fault => simp [hm] at h
  | ok m₂ =>
      simp only [hm, Except.ok.injEq, Prod.mk.injEq] at h
      rw [h.1]

theorem migrate_writeback {m₁ : Mapping} (hp : promotionFreeToClean m path index = .ok none)
    (hd : demotionCleanToFree m = .ok none) (hw : writebackDirtyToClean m = .ok (some (m₁, c)))
    (hc : toEntry c = some c) (h : migrate m w reply path index = .ok (m', w')) :
    writebackComplete m₁ c (mgStart m₁ w reply (some (m₁.es c).fullPathName)
      (m₁.es c).cachePageIndex c .writeback).2 = .ok m' := by
  unfold migrate at h
  simp only [hp, hd, hw, hc, bind, Except.bind, pure, Except.pure] at h
  cases hm : writebackComplete m₁ c (mgStart m₁ w reply (some (m₁.es c).fullPathName)
      (m₁.es c).cachePageIndex c .writeback).2 with
  | error fault => simp [hm] at h
  | ok m₂ =>
      simp only [hm, Except.ok.injEq, Prod.mk.injEq] at h
      rw [h.1]

-- Why each kind of migration was chosen, and the lists it leaves.
inductive Chosen (n : Nat) (t t' : Table Work) : MgType → Prop
  | promotion {b : Nat} {rest : List Nat} (hf : t.free = b :: rest) (hf' : t'.free = rest)
      (hc : t'.clean = t.clean ++ [b]) (hd : t'.dirty = t.dirty) : Chosen n t t' .promotion
  | demotion {b : Nat} {rest : List Nat} (hf : t.free = []) (hn : n / 2 < t.clean.length)
      (hc : t.clean = b :: rest) (hf' : t'.free = [b]) (hc' : t'.clean = rest)
      (hd : t'.dirty = t.dirty) : Chosen n t t' .demotion
  | writeback {b : Nat} {rest : List Nat} (hf : t.free = []) (hn : t.clean.length ≤ n / 2)
      (hd : t.dirty = b :: rest) (hf' : t'.free = []) (hc : t'.clean = t.clean ++ [b])
      (hd' : t'.dirty = rest) : Chosen n t t' .writeback

theorem Chosen.moved {n : Nat} {kind : MgType} (h : Chosen n t t' kind) (r : Repr g m t)
    (r' : Repr g m' t') : Moved m m' kind := by
  cases h with
  | promotion hf hf' hc hd =>
      simp [Moved, r.free.nrElts, r'.free.nrElts, r.clean.nrElts, r'.clean.nrElts, r.dirty.nrElts,
        r'.dirty.nrElts, hf, hf', hc, hd]
  | demotion hf hn hc hf' hc' hd =>
      simp [Moved, r.free.nrElts, r'.free.nrElts, r.clean.nrElts, r'.clean.nrElts, r.dirty.nrElts,
        r'.dirty.nrElts, hf, hf', hc, hc', hd]
  | writeback hf hn hd hf' hc hd' =>
      simp [Moved, r.free.nrElts, r'.free.nrElts, r.clean.nrElts, r'.clean.nrElts, r.dirty.nrElts,
        r'.dirty.nrElts, hf, hf', hc, hd, hd']

theorem promoted_lists {b : Nat} {rest : List Nat} (hf : t.free = b :: rest) (n : Nat) :
    Chosen n t ((t.promotionStart key).promotionComplete b true) .promotion := by
  have hslot : ((t.promotionStart key).slot b).dirty = false := by
    simp [Table.promotionStart, Table.allocate_slot hf]
  have hlists : (t.promotionStart key).free = rest ∧ (t.promotionStart key).clean = t.clean ∧
      (t.promotionStart key).dirty = t.dirty := by
    simp [Table.promotionStart, Table.allocate, hf, Table.setSlot]
  obtain ⟨hf', hc', hd'⟩ := hlists
  refine .promotion hf ?_ ?_ ?_ <;>
    simp [Table.promotionComplete, Table.addTail, Table.setPending, Table.setSlot, Table.hashIn, hslot,
      hf', hc', hd']

theorem demoted_lists {n b : Nat} {rest : List Nat} (hf : t.free = []) (hc : t.clean = b :: rest)
    (hn : n / 2 < t.clean.length) :
    Chosen n t ((t.demotionStart b).demotionComplete b true) .demotion := by
  refine .demotion hf hn hc ?_ ?_ ?_ <;>
    simp [Table.demotionComplete, Table.demotionStart, Table.setPending, Table.setSlot, Table.hashOut,
      Table.release, hf, hc]

theorem written_lists {n b : Nat} {rest : List Nat} (hf : t.free = [])
    (hn : t.clean.length ≤ n / 2) (hd : t.dirty = b :: rest) :
    Chosen n t ((t.writebackStart b).writebackComplete b true) .writeback := by
  refine .writeback hf hn hd ?_ ?_ ?_ <;>
    simp [Table.writebackComplete, Table.writebackStart, Table.setPending, Table.setDirty,
      Table.setSlot, Table.addTail, hf, hd]

theorem Chosen.dequeue {n : Nat} {kind : MgType} (h : Chosen n t t' kind) :
    Chosen n t t'.dequeue kind := by
  cases h with
  | promotion hf hf' hc hd => exact .promotion hf hf' hc hd
  | demotion hf hn hc hf' hc' hd => exact .demotion hf hn hc hf' hc' hd
  | writeback hf hn hd hf' hc hd' => exact .writeback hf hn hd hf' hc hd'

-- The lists of an idle cache are all its blocks, so one of the three branches is open.
theorem Valid.dirty_of_full {n : Nat} (v : Valid n .idle t) (hpos : 0 < n) (hf : t.free = [])
    (hn : t.clean.length ≤ n / 2) : t.dirty ≠ [] := by
  intro hd
  have hlen := v.accounted.partition.length_eq
  simp only [Worker.inFlight, Option.toList, Table.listed, hf, hd, List.nil_append, List.append_nil,
    List.length_range] at hlen
  omega

theorem Succeeding.migrate (h : Succeeding m w reply) (r : Repr g m t)
    (v : Valid g.cacheBlockNum .idle t) (hpos : 0 < g.cacheBlockNum)
    (hq : t.queue.head? = some key) : ∃ m' w' t' kind,
      SsdCache.migrate m w reply key.fullPathName key.cachePageIndex = .ok (m', w') ∧
      Repr g m' t' ∧ Valid g.cacheBlockNum (.finished key) t' ∧
      m'.tally = Function.update m.tally kind (inc (m.tally kind)) ∧
      Chosen g.cacheBlockNum t t' kind := by
  obtain ⟨m', t', w', heq, r', v', hm⟩ := r.migrate (v.peek hq) w reply
  have hfile := h.queued key (r.queue.peakWork.trans hq)
  cases hm with
  | promoted hf hstart r₁ hs =>
      have hdone := migrate_promotion hstart heq
      rw [h.promotion hfile] at hdone
      obtain rfl := (congrArg Prod.snd hs).symm.trans (h.promotion hfile)
      refine ⟨m', w', _, .promotion, heq, r', v', ?_, promoted_lists hf _⟩
      rw [promotionComplete_tally hdone, promotionFreeToClean_tally hstart]
  | demoted hf hc hn hstart r₁ =>
      have hdone := migrate_demotion (r.promotionFreeToClean_none hf key) hstart heq
      refine ⟨m', _, _, .demotion, heq, r', v', ?_, demoted_lists hf hc hn⟩
      rw [demotionComplete_tally hdone, demotionCleanToFree_tally hstart]
  | @written b rest m₁ _ success hf hn hd hstart r₁ hs =>
      have hb : b < g.cacheBlockNum := v.accounted.lt_of_listed (by simp [Table.listed, hd])
      have hhead : lHead m.dirty = some b := by rw [r.dirty.links.head_eq, hd, List.head?_cons]
      -- The entry written back still has the key that it had on the list.
      have hkey : (m₁.es b).fullPathName = (m.es b).fullPathName := by
        have hslot := congrArg Slot.key (r₁.slot_eq b)
        simp only [Table.writebackStart, Table.setDirty_slot, Table.setPending_slot,
          Function.update_self] at hslot
        rw [r.slot_eq] at hslot
        exact congrArg Work.fullPathName hslot.symm
      have hfile' : (w.files (m₁.es b).fullPathName).isSome := hkey ▸ h.dirty b hhead
      have hdone := migrate_writeback (r.promotionFreeToClean_none hf key)
        (r.demotionCleanToFree_none hn) hstart (r.toEntry_eq hb) heq
      rw [h.writeback hfile'] at hdone
      have hfile'' : (w.files (t.slot b).key.fullPathName).isSome := by
        rw [r.slot_eq]
        exact h.dirty b hhead
      obtain rfl := (congrArg Prod.snd hs).symm.trans (h.writeback hfile'')
      refine ⟨m', w', _, .writeback, heq, r', v', ?_, written_lists hf hn hd⟩
      rw [writebackComplete_tally hdone, writebackDirtyToClean_tally hstart]
  | stuck hf hn hd => exact absurd hd (v.dirty_of_full hpos hf hn)

theorem Succeeding.round (h : Succeeding m w reply) (r : Repr g m t)
    (v : Valid g.cacheBlockNum .idle t) (hpos : 0 < g.cacheBlockNum)
    (hq : t.queue.head? = some key) : ∃ m' w' t' kind,
      doMigrationWork m w reply = .ok (m', w', true) ∧ Repr g m' t' ∧
      Valid g.cacheBlockNum .idle t' ∧ Did m m' kind ∧ Chosen g.cacheBlockNum t t' kind := by
  obtain ⟨m', w', t', kind, heq, r', v', htally, hc⟩ := h.migrate r v hpos hq
  have htally' : Mapping.tally { m' with wq := (removeWork m'.wq).1 } = m'.tally := by
    funext k
    cases k <;> rfl
  refine ⟨_, w', t'.dequeue, kind, ?_, r'.removeWork, v'.dequeue, ⟨htally'.trans htally, ?_⟩,
    hc.dequeue⟩
  · unfold doMigrationWork
    simp only [r.queue.peakWork.trans hq, heq, bind, Except.bind, pure, Except.pure]
  · exact hc.dequeue.moved r r'.removeWork

end Calls

section Runs

variable {g : Geometry} {m m' : Mapping} {w w' : World} {t t' : Table Work} {kinds : List MgType}
  {kind : MgType} {n c : Nat}

-- How far a run without a promotion has come, from `c` clean blocks on: either every migration
-- so far cleaned one block more, or one was then freed.
inductive Nearing (n c : Nat) (t : Table Work) (kinds : List MgType) : Prop
  | filling (hd : kinds.count .demotion = 0) (hc : t.clean.length = c + kinds.count .writeback)
      (hw : kinds.count .writeback ≤ n / 2 + 1 - c)
  | freed (hd : kinds.count .demotion = 1) (hf : t.free ≠ [])
      (hw : kinds.count .writeback ≤ n / 2 + 1 - c)

theorem Nearing.call (h : Nearing n c t kinds) (hc : Chosen n t t' kind) (hk : kind ≠ .promotion) :
    Nearing n c t' (kind :: kinds) := by
  cases hc with
  | promotion => exact absurd rfl hk
  | demotion hf hn hc hf' hc' hd =>
      cases h with
      | filling hdem hlen hw => exact .freed (by simp [hdem]) (by simp [hf']) (by simpa using hw)
      | freed hdem hfree hw => exact absurd hf hfree
  | writeback hf hn hd hf' hc hd' =>
      cases h with
      | filling hdem hlen hw =>
          refine .filling (by simpa using hdem) ?_ ?_
          · rw [hc, List.length_append, List.length_singleton, List.count_cons_self]
            omega
          · rw [List.count_cons_self]
            omega
      | freed hdem hfree hw => exact absurd hf hfree

theorem Nearing.congr (h : Nearing n c t kinds) (hf : t'.free = t.free) (hc : t'.clean = t.clean) :
    Nearing n c t' kinds := by
  cases h with
  | filling hdem hlen hw => exact .filling hdem (hc ▸ hlen) hw
  | freed hdem hfree hw => exact .freed hdem (hf ▸ hfree) hw

theorem Nearing.bounds (h : Nearing n c t kinds) :
    kinds.count .writeback ≤ n / 2 + 1 - c ∧ kinds.count .demotion ≤ 1 := by
  cases h with
  | filling hdem hlen hw => exact ⟨hw, by omega⟩
  | freed hdem hfree hw => exact ⟨hw, by omega⟩

-- What every state of such a run keeps.
theorem Calls.keeps (h : Calls m w kinds m' w') (r : Repr g m t) (v : Valid g.cacheBlockNum .idle t)
    (hpos : 0 < g.cacheBlockNum) : ∃ t', Repr g m' t' ∧ Valid g.cacheBlockNum .idle t' ∧
      (.promotion ∉ kinds → Nearing g.cacheBlockNum t.clean.length t' kinds) := by
  induction h with
  | nil => exact ⟨t, r, v, fun _ => .filling rfl rfl (Nat.zero_le _)⟩
  | @call m₁ m₂ w w₁ w₂ kinds kind reply hc hs hd hk ih =>
      obtain ⟨t₁, r₁, v₁, hn⟩ := ih
      cases hq : t₁.queue.head? with
      | none =>
          unfold doMigrationWork at hd
          simp [r₁.queue.peakWork.trans hq, pure, Except.pure] at hd
      | some key =>
          obtain ⟨m₃, w₃, t₂, kind', heq, r₂, v₂, hdid, hchosen⟩ := hs.round r₁ v₁ hpos hq
          obtain ⟨rfl, rfl, -⟩ : m₃ = m₂ ∧ w₃ = w₂ ∧ True := by
            simpa using Except.ok.inj (heq.symm.trans hd)
          obtain rfl := hdid.unique hk
          refine ⟨t₂, r₂, v₂, fun hnot => ?_⟩
          rw [List.mem_cons, not_or] at hnot
          exact (hn hnot.2).call hchosen (Ne.symm hnot.1)
  | @miss m₁ m₂ w w₁ kinds path index hc hl ih =>
      obtain ⟨t₁, r₁, v₁, hn⟩ := ih
      obtain ⟨m₃, c, t₂, heq, r₂, hlook⟩ := r₁.lookupMapping v₁ false path index
      obtain ⟨rfl, rfl⟩ : m₃ = m₂ ∧ c = none := by
        simpa using Except.ok.inj (heq.symm.trans hl)
      have v₂ := v₁.looked hlook
      have hlists : t₂.free = t₁.free ∧ t₂.clean = t₁.clean := by
        cases hlook with
        | queued => exact ⟨rfl, rfl⟩
        | enqueued =>
            unfold Table.enqueue
            split <;> exact ⟨rfl, rfl⟩
      exact ⟨t₂, r₂, v₂, fun hnot => (hn hnot).congr hlists.1 hlists.2⟩

theorem length_of_no_promotion (h : MgType.promotion ∉ kinds) :
    kinds.length = kinds.count .writeback + kinds.count .demotion := by
  induction kinds with
  | nil => rfl
  | cons kind rest ih =>
      rw [List.mem_cons, not_or] at h
      rw [List.length_cons, ih h.2]
      cases kind with
      | promotion => exact absurd rfl h.1
      | demotion => simp; omega
      | writeback => simp; omega

end Runs

section Progress

variable {s : State} {blockSize cblockNum : Nat} {kinds : List MgType} {m' : Mapping} {w w' : World}

theorem cblockNum_pos {allowed : Action → State → Prop}
    (h : (interleaving blockSize cblockNum).Reachable allowed s) : 0 < cblockNum := by
  refine h.invariant (I := fun _ => 0 < cblockNum) (fun s hs => ?_) fun _ _ _ hpos _ _ _ => hpos
  obtain ⟨-, hi, -⟩ := hs
  by_contra hzero
  obtain rfl : cblockNum = 0 := by omega
  simp [initMapping] at hi

-- After any calls from an idle worker: the next call that finds a work does exactly one
-- migration, the eviction list is never empty past the threshold, and a run that is longer
-- than the bound has reached a promotion.
theorem migration_progress (h : (interleaving blockSize cblockNum).Reachable Settled s)
    (hidle : s.worker = .idle) (hrun : Calls s.map w kinds m' w') :
    (∀ reply key, Succeeding m' w' reply → peakWork m'.wq = some key → ∃ m'' w'' kind,
      doMigrationWork m' w' reply = .ok (m'', w'', true) ∧ Did m' m'' kind ∧
        ∀ other, Did m' m'' other → other = kind) ∧
    (∃ r, demotionCleanToFree m' = .ok r) ∧
    (.promotion ∉ kinds →
      kinds.count .writeback ≤ cblockNum / 2 + 1 - s.map.clean.nrElts ∧
      kinds.count .demotion ≤ 1 ∧
      kinds.length ≤ cblockNum / 2 + 1 - s.map.clean.nrElts + 1) := by
  have hpos := cblockNum_pos h
  obtain ⟨g, t, hs, rfl, -⟩ := sound_of_reachable h
  have r := hs.repr
  obtain ⟨t', r', v', hn⟩ := hrun.keeps r (hidle ▸ hs.valid) hpos
  refine ⟨fun reply key hsucc hkey => ?_, ?_, fun hnot => ?_⟩
  · have hq : t'.queue.head? = some key := r'.queue.peakWork.symm.trans hkey
    obtain ⟨m'', w'', t'', kind, heq, -, -, hdid, -⟩ := hsucc.round r' v' hpos hq
    exact ⟨m'', w'', kind, heq, hdid, fun other hother => hother.unique hdid⟩
  · by_cases hclean : t'.clean.length ≤ g.cacheBlockNum / 2
    · exact ⟨_, r'.demotionCleanToFree_none hclean⟩
    · cases hc : t'.clean with
      | nil => simp [hc] at hclean
      | cons b rest =>
          obtain ⟨m'', heq, -⟩ := r'.demotionCleanToFree hc hclean
          exact ⟨_, heq⟩
  · obtain ⟨hw, hd⟩ := (hn hnot).bounds
    rw [← r.clean.nrElts] at hw
    have hlen := length_of_no_promotion hnot
    exact ⟨hw, hd, by omega⟩

-- A world in which every file is there.
def fullWorld : World := ⟨512, fun _ => 0, [], fun _ => some newFile, fun _ => none, fun _ => 0⟩

-- The worker's next calls, as long as they do migrations of these kinds.
def calls : List MgType → Mapping → World → Option (Mapping × World)
  | [], m, w => some (m, w)
  | kind :: kinds, m, w =>
    match doMigrationWork m w .success with
    | .ok (m', w', true) =>
      if Succeeding m w .success ∧ Did m m' kind then calls kinds m' w' else none
    | _ => none

theorem Calls.calls {next : List MgType} {m₁ m₂ : Mapping} {w₁ w₂ : World}
    (hc : Calls m w kinds m₁ w₁) (h : SsdCache.calls next m₁ w₁ = some (m₂, w₂)) :
    Calls m w (next.reverse ++ kinds) m₂ w₂ := by
  induction next generalizing kinds m₁ w₁ with
  | nil =>
      obtain ⟨rfl, rfl⟩ := Prod.mk.inj (Option.some.inj h)
      exact hc
  | cons kind next ih =>
      unfold SsdCache.calls at h
      split at h
      · rename_i m₃ w₃ heq
        split at h
        · rename_i hdid
          have hnext := ih (hc.call hdid.1 heq hdid.2) h
          rwa [List.reverse_cons, List.append_assoc]
        · simp at h
      · simp at h

-- One block is dirty, the other one clean, and three clients have missed.
def threeMissesRun : List Action :=
  [.lookupMappingWithInsert [⟨97, nonzero_a⟩] 0, .nested, .lookupMapping [⟨97, nonzero_a⟩] 8,
    .nested, .peakWork, .startPromotion, .completePromotion true, .removeWork] ++
    [16, 24, 32].flatMap fun pageIndex => [.lookupMapping [⟨97, nonzero_a⟩] pageIndex, .nested]

-- The dirty block is written back, a clean one is demoted, and the third call promotes.
theorem migration_progress_threeMissesRun : ∃ (s : State) (m₁ m₂ : Mapping) (w₁ w₂ : World),
    (interleaving 512 2).Reachable Settled s ∧ s.worker = .idle ∧
    Calls s.map fullWorld [.demotion, .writeback] m₁ w₁ ∧
    1 ≤ 2 / 2 + 1 - s.map.clean.nrElts ∧
    doMigrationWork m₁ w₁ .success = .ok (m₂, w₂, true) ∧ Did m₁ m₂ .promotion := by
  obtain ⟨s, hs, hp⟩ := boot_run (by decide) (by decide) (by simp [threeMissesRun])
    (show _ = true from (by decide +kernel : ((interleaving 512 2).run (State.boot 512 2)
      threeMissesRun).any (fun s => s.worker == .idle &&
        (calls [.writeback, .demotion] s.map fullWorld).any fun x =>
          (peakWork x.1.wq).isSome && decide (Succeeding x.1 x.2 .success) &&
          (calls [.promotion] x.1 x.2).isSome) = true))
  simp only [Bool.and_eq_true, beq_iff_eq] at hp
  obtain ⟨hidle, hp⟩ := hp
  rcases hrun : calls [.writeback, .demotion] s.map fullWorld with _ | ⟨m₁, w₁⟩
  · simp [hrun] at hp
  · simp only [hrun, Option.any_some, Bool.and_eq_true, decide_eq_true_eq] at hp
    obtain ⟨⟨hwork, hsucc⟩, hnext⟩ := hp
    have hcalls := (Calls.nil s.map fullWorld).calls hrun
    obtain ⟨hone, -, hbound⟩ := migration_progress hs hidle hcalls
    obtain ⟨key, hkey⟩ := Option.isSome_iff_exists.mp hwork
    obtain ⟨m₂, w₂, kind, heq, hdid, honly⟩ := hone .success key hsucc hkey
    obtain ⟨hwriteback, -, -⟩ := hbound (by decide)
    have hpromotion : Did m₁ m₂ .promotion := by
      by_contra hother
      simp [calls, heq, hother] at hnext
    obtain rfl := honly .promotion hpromotion
    exact ⟨s, m₁, m₂, w₁, w₂, hs, hidle, hcalls, hwriteback, heq, hdid⟩

end Progress

end UserPageCache.SsdCache
