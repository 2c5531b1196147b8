import UserPageCache.SsdCache.Turn

namespace UserPageCache.SsdCache

namespace Session

-- A whole-block WRITE whose key has no block and is not queued, when a block is free.
def inserts (s : Session) (pio : Pio) : Bool :=
  checkPio pio && optimizable pio && (s.cache.map.found pio.key).isNone &&
    (containsWork s.cache.map.wq pio.key.fullPathName pio.key.cachePageIndex).toOption ==
      some false && !allocatorEmpty s.cache.map.ea

-- A round that finds a free block for its work and can read the file.
def promotes (s : Session) (reply : Replies) : Bool :=
  !allocatorEmpty s.cache.map.ea && (peakWork s.cache.map.wq).any fun work =>
    reply.opens && (s.world.files work.fullPathName).isSome && reply.transfer != .error

-- The block and the key of a round whose promotion gets as far as reading the file.
def fetches (s : Session) (reply : Replies) : Option (Nat × Work) := do
  let work ← peakWork s.cache.map.wq
  let started ← (promotionFreeToClean s.cache.map work.fullPathName work.cachePageIndex).toOption
  let (_, cblock) ← started
  let _ ← loadFile s.world reply work.fullPathName work.cachePageIndex
  return (cblock, work)

-- The block that a turn writes as a whole, and the key it writes it for.
def fill (s : Session) : Turn → Option (Nat × Work)
  | .submit pio reply =>
    if checkPio pio && optimizable pio && reply.command == .done then
      ((mapLookup s.cache pio).toOption.bind (·.2)).map (·, pio.key)
    else none
  | .migrate reply => if reply.command = .done then s.fetches reply else none

end Session

-- With the key that each block was last filled for since it was allocated.
structure Filling where
  session : Session
  filled : Nat → Option Work

namespace Filling

def record (filled : Nat → Option Work) : Option (Nat × Work) → Nat → Option Work
  | some (cblock, key) => Function.update filled cblock (some key)
  | none => filled

def act (a : Turn) (s : Filling) : Except Fault Filling := do
  let session ← s.session.turn a
  return ⟨session, fun b =>
    if entryGetAlloc (session.cache.map.es b) then record s.filled (s.session.fill a) b else none⟩

end Filling

def filling (blockSize cblockNum : Nat) : System Filling Turn Fault where
  start s := cblockNum ≤ CACHE_BLOCK_NUMBER ∧
    initMapping zeroMapping blockSize cblockNum = some s.session.cache.map ∧
    s.filled = fun _ => none
  enabled a _ := a.Chained
  act := Filling.act

-- Every block that a lookup finds has been filled for the key it is found under.
def Stocked (s : Filling) : Prop :=
  ∀ key b, s.session.cache.map.found key = some b → s.filled b = some key

-- The command that has to fill a block is carried out, or, for a promotion, refused.
def Landed (a : Turn) (s : Filling) : Prop :=
  match a with
  | .submit pio reply => s.session.inserts pio = true → reply.command = .done
  | .migrate reply => s.session.promotes reply = true → reply.command ≠ .failed

structure Filled (g : Geometry) (s : Filling) (t : Table Work) : Prop where
  quiet : Quiet g s.session t
  free : ∀ b, (t.slot b).alloc = false → s.filled b = none
  hashed : ∀ b ∈ t.hashed, s.filled b = some (t.slot b).key

section Filled

variable {g : Geometry} {s s' : Filling} {session : Session} {t t' : Table Work} {a : Turn}
  {key : Work} {b : Nat}

theorem Quiet.stocked_iff (h : Quiet g s.session t) :
    Stocked s ↔ ∀ b ∈ t.hashed, s.filled b = some (t.slot b).key := by
  constructor
  · exact fun hs b hb => hs _ b (h.repr.found_of_hashed h.valid hb rfl)
  · intro hf key b hb
    obtain ⟨hmem, hkey⟩ := h.repr.found_hashed hb
    rw [hf b hmem, hkey]

theorem Quiet.mapLookup_isSome {pio : Pio} (h : Quiet g session t)
    (hopt : optimizable pio = true) (hnone : session.cache.map.found pio.key = none) :
    (mapLookup session.cache pio).toOption.any (·.2.isSome) =
      ((containsWork session.cache.map.wq pio.key.fullPathName pio.key.cachePageIndex).toOption ==
        some false && !allocatorEmpty session.cache.map.ea) := by
  obtain ⟨m₁, e, heq, r₁, hsome, -⟩ :=
    h.repr.find pio.fullPathName (toCachePageIndex pio.pageIndex)
  unfold mapLookup SsdCache.lookupMappingWithInsert
  cases e with
  | some e =>
      obtain ⟨hb, hkey⟩ := hsome e rfl
      have hfound := h.repr.found_of_hashed h.valid hb (show _ = pio.key from hkey)
      simp [hfound] at hnone
  | none =>
      have rmiss := r₁.lookupMiss
      have hempty : allocatorEmpty (lookupMiss m₁).ea = allocatorEmpty session.cache.map.ea := by
        rw [Bool.eq_iff_iff, rmiss.allocatorEmpty_iff, h.repr.allocatorEmpty_iff]
      simp only [hopt, ite_true, heq, bind, Except.bind, rmiss.queue.containsWork,
        h.repr.queue.containsWork, hempty, Pio.key, State.keyAt]
      split
      · rename_i hc
        simp [hc, pure, Except.pure, Except.toOption]
      · rename_i hc
        rw [Bool.eq_false_iff.mpr hc]
        cases hf : t.free with
        | nil =>
            obtain ⟨m', heq', -⟩ :=
              rmiss.enqueue ⟨pio.fullPathName, toCachePageIndex pio.pageIndex⟩
            have hnil := h.repr.allocatorEmpty_iff.mpr hf
            simp [hnil, heq', pure, Except.pure, Except.toOption]
        | cons b rest =>
            obtain ⟨m', heq', -⟩ :=
              rmiss.insertDirty h.valid hf ⟨pio.fullPathName, toCachePageIndex pio.pageIndex⟩
            have hcons : allocatorEmpty session.cache.map.ea = false := by
              simp [Bool.eq_false_iff, h.repr.allocatorEmpty_iff, hf]
            simp [hcons, heq', Except.toOption]

-- A turn keeps the blocks stocked just when it fills what it adds to the hash table.
theorem Filling.step (heq : s.session.turn a = .ok session)
    (h' : Quiet g session t') (hiff : (∀ b ∈ t'.hashed,
      Filling.record s.filled (s.session.fill a) b = some (t'.slot b).key) ↔ Landed a s) :
    ∃ s', Filling.act a s = .ok s' ∧ (Stocked s' ↔ Landed a s) ∧
      (Landed a s → Filled g s' t') := by
  unfold Filling.act
  simp only [heq, bind, Except.bind, pure, Except.pure]
  have hfilled : ∀ b ∈ t'.hashed,
      (if entryGetAlloc (session.cache.map.es b) then
        Filling.record s.filled (s.session.fill a) b else none) =
        Filling.record s.filled (s.session.fill a) b := fun b hb => by
    rw [h'.repr.getAlloc, h'.valid.alloc_of_hashed hb, if_pos rfl]
  have hall : (∀ b ∈ t'.hashed,
      (if entryGetAlloc (session.cache.map.es b) then
        Filling.record s.filled (s.session.fill a) b else none) = some (t'.slot b).key) ↔
      Landed a s := by
    rw [← hiff]
    exact forall₂_congr fun b hb => by rw [hfilled b hb]
  refine ⟨_, rfl, ?_, fun hl => ⟨h', fun b hb => ?_, hall.mpr hl⟩⟩
  · rw [Quiet.stocked_iff (s := ⟨session, _⟩) h']
    exact hall
  · have halloc : entryGetAlloc (session.cache.map.es b) = false := by rw [h'.repr.getAlloc, hb]
    simp [halloc]

-- Nothing was added, and whatever was filled was filled for the key it has.
theorem Filled.kept (h : Filled g s t) (hmem : ∀ b ∈ t'.hashed, b ∈ t.hashed ∧
      (t'.slot b).key = (t.slot b).key)
    (hfill : ∀ c key, s.session.fill a = some (c, key) → c ∈ t.hashed → (t.slot c).key = key) :
    ∀ b ∈ t'.hashed, Filling.record s.filled (s.session.fill a) b = some (t'.slot b).key := by
  intro b hb
  obtain ⟨hb, hkey⟩ := hmem b hb
  rw [hkey]
  cases hf : s.session.fill a with
  | none => exact h.hashed b hb
  | some r =>
      obtain ⟨c, key⟩ := r
      by_cases hbc : b = c
      · subst c
        simp [Filling.record, hfill b key hf hb]
      · simpa [Filling.record, hbc] using h.hashed b hb

-- One block was added, which has to be the one that was filled.
theorem Filled.added (h : Filled g s t) (hfree : b ∈ t.free)
    (hhash : t'.hashed = insert b t.hashed) (hkey : (t'.slot b).key = key)
    (hslot : ∀ i ∈ t.hashed, (t'.slot i).key = (t.slot i).key)
    (hfill : s.session.fill a = some (b, key) ∨ s.session.fill a = none) :
    (∀ b ∈ t'.hashed, Filling.record s.filled (s.session.fill a) b = some (t'.slot b).key) ↔
      s.session.fill a = some (b, key) := by
  have hlt : b < g.cacheBlockNum :=
    h.quiet.valid.accounted.lt_of_listed (by simp [Table.listed, hfree])
  have hnone : s.filled b = none := h.free b ((h.quiet.valid.accounted.alloc b hlt).mpr hfree)
  have hnot := h.quiet.valid.free_notMem_hashed hfree
  constructor
  · intro hall
    refine hfill.resolve_right fun hf => ?_
    have hb := hall b (by simp [hhash])
    rw [hf] at hb
    simp [Filling.record, hnone] at hb
  · intro hf i hi
    rw [hf]
    rcases Finset.mem_insert.mp (hhash ▸ hi) with rfl | hi
    · simp [Filling.record, hkey]
    · have hib : i ≠ b := fun hib => hnot (hib ▸ hi)
      simpa [Filling.record, hib, hslot i hi] using h.hashed i hi

theorem Quiet.inserts_eq {pio : Pio} (h : Quiet g session t) :
    session.inserts pio = (checkPio pio && optimizable pio &&
      (session.cache.map.found pio.key).isNone &&
        (mapLookup session.cache pio).toOption.any (·.2.isSome)) := by
  unfold Session.inserts
  cases hopt : optimizable pio with
  | false => simp
  | true =>
      cases hnone : session.cache.map.found pio.key with
      | some b => simp
      | none => rw [h.mapLookup_isSome hopt hnone, Bool.and_assoc]

-- A WRITE that is given a free block has to fill it.
theorem Filled.inserted {pio : Pio} {reply : Replies} {m : Mapping} {rest : List Nat}
    (h : Filled g s t) (hopt : optimizable pio = true) (hcheck : checkPio pio = true)
    (hf : t.free = b :: rest) (ha : t.Absent pio.key)
    (hm : mapLookup s.session.cache pio = .ok (m, some b))
    (hhash : t'.hashed = insert b t.hashed) (hkey : (t'.slot b).key = pio.key)
    (hslot : ∀ i, i ≠ b → t'.slot i = t.slot i) :
    (∀ i ∈ t'.hashed, Filling.record s.filled (s.session.fill (.submit pio reply)) i =
      some (t'.slot i).key) ↔ Landed (.submit pio reply) s := by
  have hquiet := h.quiet
  have hnot := hquiet.valid.free_notMem_hashed (b := b) (by simp [hf])
  have hnone : s.session.cache.map.found pio.key = none := by
    by_contra hne
    obtain ⟨i, hi⟩ := Option.ne_none_iff_exists'.mp hne
    obtain ⟨hmem, hkey⟩ := hquiet.repr.found_hashed hi
    exact ha i hmem hkey
  have hinserts : s.session.inserts pio = true := by
    simp [hquiet.inserts_eq, hcheck, hopt, hnone, hm, Except.toOption]
  have hfill : s.session.fill (.submit pio reply) =
      if reply.command = .done then some (b, pio.key) else none := by
    simp [Session.fill, hcheck, hopt, hm, Except.toOption]
  have hadded := h.added (a := .submit pio reply) (b := b) (by simp [hf]) hhash hkey
    (fun i hi => by rw [hslot i fun hib => hnot (hib ▸ hi)]) (by rw [hfill]; split <;> simp)
  rw [hadded, hfill]
  simp [Landed, hinserts]

theorem Filled.submitted {pio : Pio} {reply : Replies} {w' : World} (h : Filled g s t)
    (hs : Submitted g s.session reply pio t t' w') :
    (∀ b ∈ t'.hashed, Filling.record s.filled (s.session.fill (.submit pio reply)) b =
      some (t'.slot b).key) ↔ Landed (.submit pio reply) s := by
  have hquiet := h.quiet
  cases hs with
  | refused hr =>
      have hopt : (checkPio pio && optimizable pio) = false := by
        rcases hr with hr | hr <;> simp [hr, optimizable]
      have hfill : s.session.fill (.submit pio reply) = none := by
        simp [Session.fill, hopt]
      refine iff_of_true (h.kept (fun b hb => ⟨hb, rfl⟩) (by simp [hfill])) fun hi => ?_
      simp [Session.inserts, hopt] at hi
  | @discarded c hop hb hk =>
      have hopt : optimizable pio = false := by simp [optimizable, hop]
      have hfill : s.session.fill (.submit pio reply) = none := by simp [Session.fill, hopt]
      refine iff_of_true (h.kept (fun b hb => ?_) (by simp [hfill])) fun hi => ?_
      · have hmem : b ≠ c ∧ b ∈ t.hashed := by simpa [Table.remove] using hb
        exact ⟨hmem.2, by simp [Table.remove, hmem.1]⟩
      · simp [Session.inserts, hopt] at hi
  | missed hop hcheck hm hl hw =>
      have hfill : s.session.fill (.submit pio reply) = none := by
        simp [Session.fill, hm, Except.toOption]
      refine iff_of_true (h.kept (fun b hb => ?_) (by simp [hfill])) fun hi => ?_
      · cases hl with
        | queued ha => exact ⟨hb, rfl⟩
        | enqueued ha => exact ⟨by simpa using hb, by simp⟩
      · simp [hquiet.inserts_eq, hm, Except.toOption] at hi
  | @served c m t₁ _ _ _ _ hop hcheck hm r hl heq hw =>
      obtain ⟨hhash, hkey, hslot⟩ :=
        hl.served (pio.operation = .write ∧ reply.command ≠ .rejected)
      cases hl with
      | hit hb hk =>
          refine iff_of_true (h.kept (fun b hb' => ?_) fun c' key hf _ => ?_) fun hi => ?_
          · rw [hhash, Finset.insert_eq_of_mem hb] at hb'
            by_cases hbc : b = c
            · exact ⟨hb', by rw [hbc, hkey, hk]⟩
            · exact ⟨hb', by rw [hslot b hbc]⟩
          · simp only [Session.fill] at hf
            split at hf
            · simp only [hm, Except.toOption, Option.bind_some, Option.map_some,
                Option.some.injEq, Prod.mk.injEq] at hf
              obtain ⟨rfl, rfl⟩ := hf
              exact hk
            · simp at hf
          · have hfound := hquiet.repr.found_of_hashed hquiet.valid hb hk
            simp [Session.inserts, hfound] at hi
      | inserted hopt hf ha hq =>
          exact h.inserted hopt hcheck hf ha hm hhash hkey hslot

theorem storeCblock_rc (m : Mapping) (w : World) (reply : Replies) (c : Nat) :
    (storeCblock m w reply c).2 = 0 ↔ reply.command ≠ .rejected := by
  unfold storeCblock writeSpdk
  cases reply.command <;> simp

theorem loadFile_isSome (w : World) (reply : Replies) (path : CString) (index : Nat) :
    (loadFile w reply path index).isSome =
      (reply.opens && (w.files path).isSome && reply.transfer != .error) := by
  unfold loadFile openFile
  cases reply.opens with
  | false => rfl
  | true =>
      cases hf : w.files path with
      | none => rfl
      | some file => cases ht : reply.transfer <;> simp [pread, hf, ht, Transfer.bytes]

-- What the worker would fetch for the head of the queue.
theorem Quiet.fetches_eq {reply : Replies} {rest : List Nat} (h : Quiet g session t)
    (hq : t.queue.head? = some key) (hf : t.free = b :: rest) : session.fetches reply =
      (loadFile session.world reply key.fullPathName key.cachePageIndex).map fun _ => (b, key) := by
  obtain ⟨m', heq, -⟩ := h.repr.promotionFreeToClean h.valid hf key
  unfold Session.fetches
  rw [h.repr.queue.peakWork, hq]
  simp only [heq, Except.toOption, Option.bind_eq_bind, Option.bind_some, Option.pure_def]
  cases loadFile session.world reply key.fullPathName key.cachePageIndex <;> rfl

-- A round that finds no work or no free block fetches nothing.
theorem Quiet.fetches_none {reply : Replies} (h : Quiet g session t)
    (hn : t.queue = [] ∨ t.free = []) : session.fetches reply = none := by
  unfold Session.fetches
  rw [h.repr.queue.peakWork]
  rcases hn with hq | hf
  · simp [hq]
  · cases hq : t.queue with
    | nil => rfl
    | cons key rest => simp [h.repr.promotionFreeToClean_none hf key, Except.toOption]

theorem Quiet.promotes_eq {reply : Replies} (h : Quiet g session t) :
    session.promotes reply = (session.fetches reply).isSome := by
  cases hq : t.queue.head? with
  | none =>
      rw [h.fetches_none (.inl (List.head?_eq_none_iff.mp hq))]
      simp [Session.promotes, h.repr.queue.peakWork, hq]
  | some key =>
      cases hf : t.free with
      | nil =>
          rw [h.fetches_none (.inr hf)]
          simp [Session.promotes, h.repr.allocatorEmpty_iff.mpr hf]
      | cons b rest =>
          have hcons : allocatorEmpty session.cache.map.ea = false := by
            simp [Bool.eq_false_iff, h.repr.allocatorEmpty_iff, hf]
          rw [h.fetches_eq hq hf, Option.isSome_map, loadFile_isSome]
          unfold Session.promotes
          rw [h.repr.queue.peakWork, hq]
          simp only [hcons, Bool.not_false, Bool.true_and, Option.any_some]

-- A round that fetches nothing adds nothing.
theorem Filled.still {reply : Replies} (h : Filled g s t) (hfetch : s.session.fetches reply = none)
    (hmem : ∀ b ∈ t'.hashed, b ∈ t.hashed ∧ (t'.slot b).key = (t.slot b).key) :
    (∀ b ∈ t'.hashed, Filling.record s.filled (s.session.fill (.migrate reply)) b =
      some (t'.slot b).key) ↔ Landed (.migrate reply) s :=
  iff_of_true (h.kept hmem (by simp [Session.fill, hfetch]))
    (by simp [Landed, h.quiet.promotes_eq, hfetch])

-- A promotion that reads its file has to fill its block, unless it is refused.
theorem Filled.promoted {reply : Replies} {m : Mapping} {w' : World} {rest : List Nat}
    {success : Bool} (h : Filled g s t) (hq : t.queue.head? = some key) (hf : t.free = b :: rest)
    (hs : mgStart m s.session.world reply (some key.fullPathName) key.cachePageIndex b .promotion =
      (w', success)) :
    (∀ i ∈ ((t.promotionStart key).promotionComplete b success).dequeue.hashed,
      Filling.record s.filled (s.session.fill (.migrate reply)) i =
        some (((t.promotionStart key).promotionComplete b success).dequeue.slot i).key) ↔
      Landed (.migrate reply) s := by
  have hquiet := h.quiet
  obtain ⟨hhash, hkey, -, hslot⟩ := promoted_blocks hf key success
  have hnot := hquiet.valid.free_notMem_hashed (b := b) (by simp [hf])
  have hkeep : ∀ i ∈ t.hashed,
      (((t.promotionStart key).promotionComplete b success).dequeue.slot i).key =
        (t.slot i).key := fun i hi => by rw [hslot i fun hib => hnot (hib ▸ hi)]
  have hfetch : s.session.fetches reply = _ := hquiet.fetches_eq hq hf
  simp only [mgStart, Option.bind_some] at hs
  cases hload : loadFile s.session.world reply key.fullPathName key.cachePageIndex with
  | none =>
      rw [hload] at hs hfetch
      obtain ⟨-, rfl⟩ := Prod.mk.inj hs
      rw [if_neg (by simp)] at hhash
      exact h.still hfetch fun i hi => ⟨hhash ▸ hi, hkeep i (hhash ▸ hi)⟩
  | some w₁ =>
      rw [hload] at hs hfetch
      obtain ⟨-, hsuccess⟩ := Prod.mk.inj hs
      have hlanded : Landed (.migrate reply) s ↔ reply.command ≠ .failed := by
        simp [Landed, hquiet.promotes_eq, hfetch]
      have hfill : s.session.fill (.migrate reply) =
          if reply.command = .done then some (b, key) else none := by
        simp [Session.fill, hfetch]
      by_cases hr : reply.command = .rejected
      · rw [if_neg (by simp [← hsuccess, storeCblock_rc, hr])] at hhash
        exact iff_of_true (h.kept (fun i hi => ⟨hhash ▸ hi, hkeep i (hhash ▸ hi)⟩)
          (by simp [hfill, hr])) (by simp [hlanded, hr])
      · have hdone : success = true := by simp [← hsuccess, storeCblock_rc, hr]
        rw [if_pos hdone] at hhash
        rw [h.added (a := .migrate reply) (b := b) (by simp [hf]) hhash (hkey hdone) hkeep
          (by rw [hfill]; split <;> simp), hfill, hlanded]
        cases hc : reply.command <;> simp [hc] at hr ⊢

theorem Filled.rounded {reply : Replies} {w' : World} (h : Filled g s t)
    (hs : Rounded g s.session.world reply t t' w') :
    (∀ b ∈ t'.hashed, Filling.record s.filled (s.session.fill (.migrate reply)) b =
      some (t'.slot b).key) ↔ Landed (.migrate reply) s := by
  have hidle : t.queue = [] ∨ t.free = [] → s.session.fetches reply = none := h.quiet.fetches_none
  cases hs with
  | idle hq => exact h.still (hidle (.inl hq)) fun b hb => ⟨hb, rfl⟩
  | stuck hq hf hd => exact h.still (hidle (.inr hf)) fun b hb => ⟨hb, rfl⟩
  | @demoted c rest m hq hf hc hn hm =>
      obtain ⟨hhash, hslot⟩ := demoted_blocks t c
      refine h.still (hidle (.inr hf)) fun b hb => ?_
      obtain ⟨hbc, hmem⟩ := Finset.mem_erase.mp (hhash ▸ hb)
      exact ⟨hmem, by rw [hslot b hbc]⟩
  | @written c rest m _ success hq hf hn hd hm hs =>
      obtain ⟨hhash, hkey, -, hslot⟩ := written_blocks t c success
      refine h.still (hidle (.inr hf)) fun b hb => ⟨hhash ▸ hb, ?_⟩
      by_cases hbc : b = c
      · rw [hbc, hkey]
      · rw [hslot b hbc]
  | promoted hq hf hm hs => exact h.promoted hq hf hs

theorem Filled.turn (h : Filled g s t) (hc : a.Chained) :
    ∃ s' t', Filling.act a s = .ok s' ∧ (Stocked s' ↔ Landed a s) ∧
      (Landed a s → Filled g s' t') := by
  cases a with
  | submit pio reply =>
      obtain ⟨session, t', heq, h', -, hs⟩ := h.quiet.submit hc reply
      obtain ⟨s', hstep⟩ := Filling.step heq h' (h.submitted hs)
      exact ⟨s', t', hstep⟩
  | migrate reply =>
      obtain ⟨session, t', heq, h', -, hs⟩ := h.quiet.migrate reply
      obtain ⟨s', hstep⟩ := Filling.step heq h' (h.rounded hs)
      exact ⟨s', t', hstep⟩

theorem filled_of_reachable {blockSize cblockNum : Nat}
    (h : (filling blockSize cblockNum).Reachable Landed s) : ∃ g t, Filled g s t := by
  refine h.invariant (I := fun s => ∃ g t, Filled g s t) (fun s hs => ?_)
    (fun s s' a hi he ha hact => ?_)
  · obtain ⟨hn, hi, hfilled⟩ := hs
    exact ⟨_, _, quiet_init hn hi, fun b _ => by rw [hfilled], by simp [Table.initial]⟩
  · obtain ⟨g, t, hf⟩ := hi
    obtain ⟨s₁, t', heq, -, hf'⟩ := hf.turn he
    obtain rfl : s₁ = s' := Except.ok.inj (heq.symm.trans hact)
    exact ⟨g, t', hf' ha⟩

end Filled

-- As long as every block that is put into the hash table has been filled before, lookups
-- find filled blocks only; the first turn that does not fill its block ends that.
theorem lookups_find_filled {blockSize cblockNum : Nat} {s : Filling}
    (h : (filling blockSize cblockNum).Reachable Landed s) :
    Stocked s ∧ ∀ a : Turn, a.Chained →
      ∃ s', Filling.act a s = .ok s' ∧ (Stocked s' ↔ Landed a s) := by
  obtain ⟨g, t, hf⟩ := filled_of_reachable h
  refine ⟨hf.quiet.stocked_iff.mpr hf.hashed, fun a hc => ?_⟩
  obtain ⟨s', t', heq, hiff, -⟩ := hf.turn hc
  exact ⟨s', heq, hiff⟩

def Filling.boot : Filling := ⟨Session.boot, fun _ => none⟩

theorem fillingBoot_start : (filling 512 1).start Filling.boot :=
  ⟨by decide, Session.boot_booted.map, rfl⟩

instance (blockSize cblockNum : Nat) (a : Turn) (s : Filling) :
    Decidable ((filling blockSize cblockNum).enabled a s) :=
  match a with
  | .submit pio _ => inferInstanceAs (Decidable (pio.pioCnt ≤ pio.buffers.length))
  | .migrate _ => inferInstanceAs (Decidable True)

instance (a : Turn) (s : Filling) : Decidable (Landed a s) :=
  match a with
  | .submit _ _ => inferInstanceAs (Decidable (_ → _))
  | .migrate _ => inferInstanceAs (Decidable (_ → _))

-- The block is inserted, and its WRITE is refused.
def refusedWrite : Turn := .submit blockWrite ⟨true, .full, .rejected, none⟩

theorem lookups_find_filled_boot : ∃ s, s.session.cache.map.found blockWrite.key = some 0 ∧
    s.filled 0 = some blockWrite.key ∧ Stocked s := by
  obtain ⟨s, hs, hp⟩ := (System.Reachable.start (S := (filling 512 1).restrict Landed)
    fillingBoot_start).exists_run (fun _ _ _ => trivial)
      (show _ = true from (by decide +kernel : (((filling 512 1).restrict Landed).run Filling.boot
        [.submit blockWrite .success]).any (fun s =>
          s.session.cache.map.found blockWrite.key == some 0) = true))
  have hfound : s.session.cache.map.found blockWrite.key = some 0 := by simpa using hp
  have hstocked := (lookups_find_filled hs.of_restrict).1
  exact ⟨s, hfound, hstocked _ _ hfound, hstocked⟩

-- The WRITE returns an error; its key is mapped, dirty, to what the SSD held before.
theorem refused_write_mapped : ∃ s' cache w pages,
    (filling 512 1).start Filling.boot ∧ refusedWrite.Chained ∧
    Filling.act refusedWrite Filling.boot = .ok s' ∧
    _submitPio Session.boot.cache Session.boot.world ⟨true, .full, .rejected, none⟩ blockWrite =
      .ok (cache, w, pages, 1) ∧
    s'.session.cache.map.found blockWrite.key = some 0 ∧
    entryGetDirty (s'.session.cache.map.es 0) = true ∧ s'.session.world.ssd 0 = 7 ∧
    ¬Stocked s' := by
  have hact : (Filling.act refusedWrite Filling.boot).toOption.any (fun s' =>
      s'.session.cache.map.found blockWrite.key == some 0 &&
      entryGetDirty (s'.session.cache.map.es 0) && s'.session.world.ssd 0 == 7 &&
      s'.filled 0 == none) = true := by decide +kernel
  have hcall : (_submitPio Session.boot.cache Session.boot.world ⟨true, .full, .rejected, none⟩
      blockWrite).toOption.any (fun r => r.2.2.2 == 1) = true := by decide +kernel
  cases ha : Filling.act refusedWrite Filling.boot with
  | error fault => simp [ha, Except.toOption] at hact
  | ok s' =>
      simp only [ha, Except.toOption, Option.any_some, Bool.and_eq_true, beq_iff_eq] at hact
      obtain ⟨⟨⟨hfound, hdirty⟩, hdata⟩, hnone⟩ := hact
      rcases hc : _submitPio Session.boot.cache Session.boot.world
          ⟨true, .full, .rejected, none⟩ blockWrite with fault | ⟨cache, w, pages, rc⟩
      · simp [hc, Except.toOption] at hcall
      · obtain rfl : rc = 1 := by simpa [hc, Except.toOption] using hcall
        refine ⟨s', cache, w, pages, fillingBoot_start, Nat.le_refl _, rfl, rfl, hfound, hdirty,
          hdata, fun hs => ?_⟩
        have hfilled := hs _ _ hfound
        rw [hnone] at hfilled
        cases hfilled

end UserPageCache.SsdCache
