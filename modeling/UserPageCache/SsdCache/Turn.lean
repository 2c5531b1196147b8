import UserPageCache.SsdCache.Frame
import UserPageCache.SsdCache.Sequential

namespace UserPageCache.SsdCache

open Bytes

-- A request, or a round of the migration worker, with the answers that its calls get.
inductive Turn where
  | submit (pio : Pio) (reply : Replies)
  | migrate (reply : Replies)

namespace Session

def turn (s : Session) : Turn → Except Fault Session
  | .submit pio reply => do
    let (cache, w, _, _) ← _submitPio s.cache s.world reply pio
    return ⟨cache, w⟩
  | .migrate reply => do
    let (m, w, _) ← doMigrationWork s.cache.map s.world reply
    return ⟨{ s.cache with map := m }, w⟩

def turns : Session → List Turn → Except Fault Session
  | s, [] => .ok s
  | s, a :: rest => do turns (← s.turn a) rest

end Session

-- No node of the chain is missing.
def Turn.Chained : Turn → Prop
  | .submit pio _ => pio.pioCnt ≤ pio.buffers.length
  | .migrate _ => True

-- Between two turns.
structure Quiet (g : Geometry) (s : Session) (t : Table Work) : Prop where
  repr : Repr g s.cache.map t
  valid : Valid g.cacheBlockNum .idle t

-- What no turn changes.
structure SameDevice (s s' : Session) : Prop where
  shift : s'.cache.devBlockPerPageShift = s.cache.devBlockPerPageShift
  sector : s'.world.sectorSize = s.world.sectorSize
  descriptors : s'.world.descriptors = s.world.descriptors

-- A command for block b leaves the other blocks and the files alone.
structure OnlyBlock (g : Geometry) (dev : Nat) (w w' : World) (b : Nat) : Prop where
  sector : w'.sectorSize = w.sectorSize
  descriptors : w'.descriptors = w.descriptors
  files : w'.files = w.files
  others : Layout g w.sectorSize dev → ∀ i, i ≠ b → ∀ j < 8, ssdPage w' i j = ssdPage w i j

-- The pages of a file that the direct path of a WRITE may change.
def Pio.Covers (pio : Pio) (w : World) (path : CString) (i : Nat) : Prop :=
  pio.operation = .write ∧
    (if pio.fd = 0 then some pio.fullPathName else w.descriptors pio.fd) = some path ∧
    pio.pageIndex % 2 ^ 20 ≤ i ∧ i < pio.pageIndex % 2 ^ 20 + pio.pioCnt

structure Direct (w w' : World) (pio : Pio) : Prop where
  same : w' = { w with files := w'.files }
  files : ∀ path, (w.files path).isSome → (w'.files path).isSome
  kept : ∀ path i page, fileContents w path i = some page → ¬pio.Covers w path i →
    fileContents w' path i = some page

-- What a request can do, by what its lookup finds.
inductive Submitted (g : Geometry) (s : Session) (reply : Replies) (pio : Pio) (t : Table Work) :
    Table Work → World → Prop
  | refused (hr : checkPio pio = false ∨ pio.operation = .discard) :
      Submitted g s reply pio t t s.world
  | discarded {b : Nat} (hop : pio.operation = .discard) (hb : b ∈ t.hashed)
      (hk : (t.slot b).key = pio.key) : Submitted g s reply pio t (t.remove b) s.world
  | served {b : Nat} {m : Mapping} {t₁ : Table Work} {cache' : Cache} {w' : World}
      {pages : List Page} {rc : Nat} (hop : pio.operation ≠ .discard) (hcheck : checkPio pio = true)
      (hm : mapLookup s.cache pio = .ok (m, some b)) (r : Repr g m t₁)
      (hl : Looked (optimizable pio) t pio.key (some b) t₁)
      (heq : mapToCache { s.cache with map := m } s.world reply pio b =
        .ok (cache', w', pages, rc))
      (hw : OnlyBlock g s.cache.devBlockPerPageShift s.world w' b) :
      Submitted g s reply pio t
        (if pio.operation = .write ∧ reply.command ≠ .rejected then t₁.markDirty b else t₁) w'
  | missed {m : Mapping} {t₁ : Table Work} {w' : World} (hop : pio.operation ≠ .discard)
      (hcheck : checkPio pio = true) (hm : mapLookup s.cache pio = .ok (m, none))
      (hl : Looked (optimizable pio) t pio.key none t₁) (hw : Direct s.world w' pio) :
      Submitted g s reply pio t t₁ w'

-- What a round can do, by what it finds free, evictable or dirty.
inductive Rounded (g : Geometry) (w : World) (reply : Replies) (t : Table Work) :
    Table Work → World → Prop
  | idle (hq : t.queue = []) : Rounded g w reply t t w
  | promoted {key : Work} {b : Nat} {rest : List Nat} {m : Mapping} {w' : World} {success : Bool}
      (hq : t.queue.head? = some key) (hf : t.free = b :: rest)
      (hm : m.blockPerCblockShift = g.blockPerCblockShift)
      (hs : mgStart m w reply (some key.fullPathName) key.cachePageIndex b .promotion =
        (w', success)) :
      Rounded g w reply t ((t.promotionStart key).promotionComplete b success).dequeue w'
  | demoted {b : Nat} {rest : List Nat} {m : Mapping} (hq : t.queue ≠ []) (hf : t.free = [])
      (hc : t.clean = b :: rest) (hn : g.cacheBlockNum / 2 < t.clean.length)
      (hm : m.blockPerCblockShift = g.blockPerCblockShift) :
      Rounded g w reply t ((t.demotionStart b).demotionComplete b true).dequeue
        (trimCblock m w reply 0)
  | written {b : Nat} {rest : List Nat} {m : Mapping} {w' : World} {success : Bool}
      (hq : t.queue ≠ []) (hf : t.free = []) (hn : t.clean.length ≤ g.cacheBlockNum / 2)
      (hd : t.dirty = b :: rest) (hm : m.blockPerCblockShift = g.blockPerCblockShift)
      (hs : mgStart m w reply (some (t.slot b).key.fullPathName) (t.slot b).key.cachePageIndex b
        .writeback = (w', success)) :
      Rounded g w reply t ((t.writebackStart b).writebackComplete b success).dequeue w'
  | stuck (hq : t.queue ≠ []) (hf : t.free = []) (hd : t.dirty = []) : Rounded g w reply t t.dequeue w

variable {g : Geometry} {s : Session} {t : Table Work} {cache : Cache} {m : Mapping}
  {w w' : World} {reply : Replies} {pio : Pio} {b : Nat}

section Requests

theorem OnlyBlock.refl (g : Geometry) (dev : Nat) (w : World) (b : Nat) :
    OnlyBlock g dev w w b :=
  ⟨rfl, rfl, rfl, fun _ _ _ _ _ => rfl⟩

theorem Direct.refl (w : World) (pio : Pio) : Direct w w pio :=
  ⟨rfl, fun _ h => h, fun _ _ _ h _ => h⟩

theorem writeCache_only (cache : Cache) (hcheck : checkPio pio = true)
    (hchain : pio.pioCnt ≤ pio.buffers.length)
    (hm : cache.map.blockPerCblockShift = g.blockPerCblockShift) {c : Nat}
    (hc : c < CACHE_BLOCK_NUMBER) (reply : Replies) :
    ∃ w' rc, writeCache cache w reply pio c = .ok ({ cache with
        map := if reply.command ≠ .rejected then setDirtyAfterWrite cache.map c true
          else cache.map }, w', rc) ∧ OnlyBlock g cache.devBlockPerPageShift w w' c := by
  have hroom := room_of_checkPio hcheck
  unfold writeCache
  rw [pioToIovec, if_pos hchain]
  simp only [bind, Except.bind, pure, Except.pure, writevSpdk]
  cases hr : reply.command with
  | rejected => exact ⟨w, 1, rfl, .refl _ _ w c⟩
  | failed => exact ⟨w, 0, rfl, .refl _ _ w c⟩
  | done =>
      refine ⟨_, 0, rfl, rfl, rfl, rfl, fun hl i hi j hj => ?_⟩
      obtain ⟨hs, hlen⟩ := hl.target hm pio hc
      rw [ssdPage_writeSsd hs hlen, if_neg (by omega)]

theorem openFile_direct {path : CString} {creat : Bool}
    (h : openFile w reply path creat = some w') (pio : Pio) :
    Direct w w' pio ∧ (w'.files path).isSome := by
  unfold openFile at h
  split at h
  · split at h
    · rename_i file hf
      obtain rfl := Option.some.inj h
      exact ⟨.refl w pio, by simp [hf]⟩
    · rename_i hf
      split at h
      · obtain rfl := Option.some.inj h
        refine ⟨⟨rfl, (keeps_setFile w path newFile).files, fun p i page hp _ => ?_⟩,
          by simp [setFile]⟩
        rwa [fileContents_newFile hf]
      · simp at h
  · simp at h

theorem originFile_direct {path : CString} (h : originFile w reply pio = some (w', path)) :
    Direct w w' pio ∧
      (if pio.fd = 0 then some pio.fullPathName else w.descriptors pio.fd) = some path := by
  unfold originFile at h
  split at h
  · rename_i hfd
    obtain ⟨w₁, hopen, heq⟩ := Option.map_eq_some_iff.mp h
    obtain ⟨rfl, rfl⟩ := Prod.mk.inj heq
    exact ⟨(openFile_direct hopen pio).1, by rw [if_pos hfd]⟩
  · rename_i hfd
    obtain ⟨path', hd, heq⟩ := Option.map_eq_some_iff.mp h
    obtain ⟨rfl, rfl⟩ := Prod.mk.inj heq
    exact ⟨.refl w pio, by rw [if_neg hfd, hd]⟩

theorem bytes_le {transfer : Transfer} {len n : Nat} (h : transfer.bytes len = some n) : n ≤ len := by
  cases transfer <;> simp [Transfer.bytes] at h <;> omega

theorem writeOrigin_direct (hchain : pio.pioCnt ≤ pio.buffers.length)
    (hop : pio.operation = .write) (reply : Replies) :
    ∃ w' rc, writeOrigin w reply pio = .ok (w', rc) ∧ Direct w w' pio := by
  unfold writeOrigin
  rw [pioToIovec, if_pos hchain]
  simp only [bind, Except.bind, pure, Except.pure]
  cases hopen : originFile w reply pio with
  | none => exact ⟨w, 1, rfl, .refl w pio⟩
  | some r =>
      obtain ⟨w₁, path⟩ := r
      obtain ⟨hdirect, hpath⟩ := originFile_direct hopen
      have hlen : (pio.buffers.take pio.pioCnt).length = pio.pioCnt := by simp [hchain]
      simp only [hlen]
      cases hwrite : pwrite w₁ reply path (pio.pioCnt * PAGE_SIZE) (offsetOf pio.pageIndex)
          (gather PAGE_SIZE (pio.buffers.take pio.pioCnt) fun _ => 0) with
      | none => exact ⟨w₁, 1, rfl, hdirect⟩
      | some r =>
          obtain ⟨n, w₂⟩ := r
          obtain ⟨file, hf, hwrite⟩ := Option.bind_eq_some_iff.mp hwrite
          obtain ⟨k, hk, hwrite⟩ := Option.bind_eq_some_iff.mp hwrite
          obtain ⟨rfl, rfl⟩ := Prod.mk.inj (Option.some.inj hwrite)
          refine ⟨_, if k = 0 then 0 else 1, rfl, ?_, fun p hp => ?_, fun p i page hp hout => ?_⟩
          · rw [hdirect.same]
            rfl
          · exact (keeps_setFile w₁ path _).files p (hdirect.files p hp)
          · rw [offsetOf_mod]
            refine fileContents_unwritten hf (bytes_le hk) (fun hin => hout ?_)
              (hdirect.kept p i page hp hout)
            exact ⟨hop, by rw [hpath, hin.1], hin.2⟩

theorem readOrigin_direct (hchain : pio.pioCnt ≤ pio.buffers.length) (reply : Replies) :
    ∃ w' pages rc, readOrigin w reply pio = .ok (w', pages, rc) ∧ Direct w w' pio := by
  unfold readOrigin
  rw [pioToIovec, if_pos hchain]
  simp only [bind, Except.bind, pure, Except.pure]
  cases hopen : originFile w reply pio with
  | none => exact ⟨w, _, 1, rfl, .refl w pio⟩
  | some r =>
      obtain ⟨w₁, path⟩ := r
      have hdirect := (originFile_direct hopen).1
      simp only
      split
      · exact ⟨w₁, _, 1, rfl, hdirect⟩
      · exact ⟨w₁, _, _, rfl, hdirect⟩

theorem Repr.mapLookup (r : Repr g cache.map t) (h : Valid g.cacheBlockNum .idle t) (pio : Pio) :
    ∃ m' c t', mapLookup cache pio = .ok (m', c) ∧ Repr g m' t' ∧
      Looked (optimizable pio) t pio.key c t' := by
  unfold SsdCache.mapLookup
  split
  · rename_i hopt
    rw [hopt]
    exact r.lookupMappingWithInsert h _ _
  · exact r.lookupMapping h _ _ _

theorem Direct.device (h : Direct w w' pio) :
    w'.sectorSize = w.sectorSize ∧ w'.descriptors = w.descriptors := by
  rw [h.same]
  exact ⟨rfl, rfl⟩

theorem Valid.lt_of_looked {n : Nat} {insert : Bool} {key : Work} {t' : Table Work}
    (h : Valid n .idle t) (hl : Looked insert t key (some b) t') : b < n := by
  cases hl with
  | hit hb hk => exact h.lt_of_hashed hb
  | inserted hi hf ha hq => exact h.accounted.lt_of_listed (by simp [Table.listed, hf])

-- The block of a request has its key afterwards, and the others are as before.
theorem Looked.served {insert : Bool} {key : Work} {t₁ : Table Work}
    (hl : Looked insert t key (some b) t₁) (p : Prop) [Decidable p] :
    (if p then t₁.markDirty b else t₁).hashed = Insert.insert b t.hashed ∧
      ((if p then t₁.markDirty b else t₁).slot b).key = key ∧
      ∀ i, i ≠ b → (if p then t₁.markDirty b else t₁).slot i = t.slot i := by
  have hlooked : t₁.hashed = Insert.insert b t.hashed ∧ (t₁.slot b).key = key ∧
      ∀ i, i ≠ b → t₁.slot i = t.slot i := by
    cases hl with
    | hit hb hk => simp [hb, hk]
    | inserted hi hf ha hq =>
        have hslot : (t.insertDirty key b).slot =
            Function.update t.slot b ⟨key, false, true, true⟩ := by
          simp [Table.insertDirty, Table.allocate_slot hf]
        refine ⟨by simp [Table.insertDirty], by simp [hslot], fun i hib => by simp [hslot, hib]⟩
  split
  · exact ⟨by rw [Table.markDirty_hashed, hlooked.1], by rw [Table.markDirty_key, hlooked.2.1],
      fun i hib => by rw [Table.markDirty_slot_of_ne _ hib, hlooked.2.2 i hib]⟩
  · exact hlooked

-- A request that a block serves.
theorem Quiet.serve (h : Quiet g s t) (hop : pio.operation ≠ .discard)
    (hcheck : checkPio pio = true) (hchain : pio.pioCnt ≤ pio.buffers.length) (reply : Replies)
    {t₁ : Table Work} (hm : mapLookup s.cache pio = .ok (m, some b)) (r : Repr g m t₁)
    (hl : Looked (optimizable pio) t pio.key (some b) t₁) :
    ∃ cache' w' pages rc t', mapToCache { s.cache with map := m } s.world reply pio b =
        .ok (cache', w', pages, rc) ∧
      Quiet g ⟨cache', w'⟩ t' ∧ SameDevice s ⟨cache', w'⟩ ∧ Submitted g s reply pio t t' w' := by
  have v := h.valid.looked hl
  have hlt := h.valid.lt_of_looked hl
  cases ho : pio.operation with
  | read =>
      obtain ⟨pages, rc, heq⟩ : ∃ pages rc, mapToCache { s.cache with map := m } s.world reply pio b =
          .ok ({ s.cache with map := m }, s.world, pages, rc) := by
        simp only [mapToCache, ho, ite_true, readCache, pioToIovec, hchain, bind, Except.bind, pure,
          Except.pure]
        exact ⟨_, _, rfl⟩
      have hsub : Submitted g s reply pio t t₁ s.world := by
        have hserved : Submitted g s reply pio t _ s.world :=
          .served hop hcheck hm r hl heq (.refl _ _ s.world b)
        rwa [if_neg (by simp [ho])] at hserved
      exact ⟨_, _, _, _, t₁, heq, ⟨r, v⟩, ⟨rfl, rfl, rfl⟩, hsub⟩
  | write =>
      obtain ⟨w', rc, hwrite, hw⟩ := writeCache_only (w := s.world) { s.cache with map := m } hcheck
        hchain r.shift (Nat.lt_of_lt_of_le hlt h.repr.capacity) reply
      have heq : mapToCache { s.cache with map := m } s.world reply pio b =
          .ok ({ s.cache with map := if reply.command ≠ .rejected then setDirtyAfterWrite m b true
            else m }, w', pio.buffers, rc) := by
        simp only [mapToCache, ho, reduceCtorEq, ite_false, hwrite, bind, Except.bind, pure,
          Except.pure]
      have hsub : Submitted g s reply pio t _ w' := .served hop hcheck hm r hl heq hw
      refine ⟨_, _, _, _, _, heq, ⟨?_, ?_⟩, ⟨rfl, hw.sector, hw.descriptors⟩, hsub⟩
      · by_cases hr : reply.command = .rejected
        · simpa [hr] using r
        · simpa [hr, ho] using r.setDirtyAfterWrite v hlt true
      · split
        · exact v.markDirty hlt
        · exact v
  | discard => exact absurd ho hop

-- A request that goes to its file.
theorem Quiet.pass (h : Quiet g s t) (hop : pio.operation ≠ .discard)
    (hcheck : checkPio pio = true) (hchain : pio.pioCnt ≤ pio.buffers.length) (reply : Replies)
    {t₁ : Table Work} (hm : mapLookup s.cache pio = .ok (m, none)) (r : Repr g m t₁)
    (hl : Looked (optimizable pio) t pio.key none t₁) :
    ∃ w' pages rc, mapToOrigin s.world reply pio = .ok (w', pages, rc) ∧
      Quiet g ⟨{ s.cache with map := m }, w'⟩ t₁ ∧
      SameDevice s ⟨{ s.cache with map := m }, w'⟩ ∧ Submitted g s reply pio t t₁ w' := by
  have v := h.valid.looked hl
  unfold mapToOrigin
  cases ho : pio.operation with
  | read =>
      obtain ⟨w', pages, rc, heq, hw⟩ := readOrigin_direct (w := s.world) hchain reply
      simp only [ite_true, heq]
      exact ⟨_, _, _, rfl, ⟨r, v⟩, ⟨rfl, hw.device.1, hw.device.2⟩, .missed hop hcheck hm hl hw⟩
  | write =>
      obtain ⟨w', rc, heq, hw⟩ := writeOrigin_direct (w := s.world) hchain ho reply
      simp only [reduceCtorEq, ite_false, heq, bind, Except.bind, pure, Except.pure]
      exact ⟨_, _, _, rfl, ⟨r, v⟩, ⟨rfl, hw.device.1, hw.device.2⟩, .missed hop hcheck hm hl hw⟩
  | discard => exact absurd ho hop

theorem Quiet.discard (h : Quiet g s t) (hop : pio.operation = .discard) (reply : Replies) :
    ∃ cache' rc t', discardPio s.cache pio = .ok (cache', rc) ∧ Quiet g ⟨cache', s.world⟩ t' ∧
      SameDevice s ⟨cache', s.world⟩ ∧ Submitted g s reply pio t t' s.world := by
  unfold discardPio
  cases hcheck : checkPio pio with
  | false => exact ⟨_, _, t, rfl, h, ⟨rfl, rfl, rfl⟩, .refused (.inl hcheck)⟩
  | true =>
      obtain ⟨m', found, t', heq, r, ht⟩ :=
        h.repr.removeMapping h.valid rfl pio.fullPathName pio.pageIndex
      simp only [Bool.not_true, Bool.false_eq_true, ite_false, heq, bind, Except.bind, pure,
        Except.pure]
      refine ⟨_, _, t', rfl, ?_⟩
      rcases ht with rfl | ⟨b, hb, hk, rfl⟩
      · exact ⟨⟨r, h.valid⟩, ⟨rfl, rfl, rfl⟩, .refused (.inr hop)⟩
      · exact ⟨⟨r, h.valid.remove hb (by simp [Worker.moving])⟩, ⟨rfl, rfl, rfl⟩,
          .discarded hop hb hk⟩

theorem Quiet.submit (h : Quiet g s t) (hchain : pio.pioCnt ≤ pio.buffers.length)
    (reply : Replies) :
    ∃ s' t', s.turn (.submit pio reply) = .ok s' ∧ Quiet g s' t' ∧ SameDevice s s' ∧
      Submitted g s reply pio t t' s'.world := by
  unfold Session.turn _submitPio
  by_cases hop : pio.operation = .discard
  · obtain ⟨cache', rc, t', heq, h', hsub⟩ := h.discard hop reply
    simp only [hop, ite_true, heq, bind, Except.bind, pure, Except.pure]
    exact ⟨_, t', rfl, h', hsub⟩
  · simp only [hop, ite_false, mapPio]
    cases hcheck : checkPio pio with
    | false => exact ⟨_, t, rfl, h, ⟨rfl, rfl, rfl⟩, .refused (.inl hcheck)⟩
    | true =>
        obtain ⟨m, c, t₁, heq, r, hl⟩ := h.repr.mapLookup h.valid pio
        simp only [Bool.not_true, Bool.false_eq_true, ite_false, heq, bind, Except.bind, pure,
          Except.pure]
        cases c with
        | some b =>
            obtain ⟨cache', w', pages, rc, t', hserve, h', hsub⟩ :=
              h.serve hop hcheck hchain reply heq r hl
            simp only [hserve]
            exact ⟨_, t', rfl, h', hsub⟩
        | none =>
            obtain ⟨w', pages, rc, hpass, h', hsub⟩ := h.pass hop hcheck hchain reply heq r hl
            simp only [hpass]
            exact ⟨_, t₁, rfl, h', hsub⟩

end Requests

section Rounds

theorem promoted_blocks {rest : List Nat} (hf : t.free = b :: rest) (key : Work) (success : Bool) :
    ((t.promotionStart key).promotionComplete b success).dequeue.hashed =
        (if success then insert b t.hashed else t.hashed) ∧
      (success = true →
        (((t.promotionStart key).promotionComplete b success).dequeue.slot b).key = key) ∧
      (((t.promotionStart key).promotionComplete b success).dequeue.slot b).dirty = false ∧
      ∀ i, i ≠ b →
        ((t.promotionStart key).promotionComplete b success).dequeue.slot i = t.slot i := by
  have hslot : (t.promotionStart key).slot = Function.update t.slot b ⟨key, true, false, true⟩ := by
    rw [Table.promotionStart, Table.allocate_slot hf]
  have hhash : (t.promotionStart key).hashed = t.hashed := by simp [Table.promotionStart]
  cases success <;>
    simp +contextual [Table.dequeue, Table.promotionComplete, hslot, hhash]

theorem demoted_blocks (t : Table Work) (b : Nat) :
    ((t.demotionStart b).demotionComplete b true).dequeue.hashed = t.hashed.erase b ∧
      ∀ i, i ≠ b → ((t.demotionStart b).demotionComplete b true).dequeue.slot i = t.slot i := by
  refine ⟨by simp [Table.dequeue, Table.demotionComplete, Table.demotionStart], fun i hib => ?_⟩
  simp [Table.dequeue, Table.demotionComplete, Table.demotionStart, hib]

theorem written_blocks (t : Table Work) (b : Nat) (success : Bool) :
    ((t.writebackStart b).writebackComplete b success).dequeue.hashed = t.hashed ∧
      (((t.writebackStart b).writebackComplete b success).dequeue.slot b).key = (t.slot b).key ∧
      (((t.writebackStart b).writebackComplete b success).dequeue.slot b).dirty = false ∧
      ∀ i, i ≠ b →
        ((t.writebackStart b).writebackComplete b success).dequeue.slot i = t.slot i := by
  cases success <;>
    simp +contextual [Table.dequeue, Table.writebackComplete, Table.writebackStart]

theorem openFile_device {path : CString} {creat : Bool}
    (h : openFile w reply path creat = some w') :
    w'.sectorSize = w.sectorSize ∧ w'.descriptors = w.descriptors := by
  unfold openFile at h
  split at h
  · split at h
    · obtain rfl := Option.some.inj h
      exact ⟨rfl, rfl⟩
    · split at h
      · obtain rfl := Option.some.inj h
        exact ⟨rfl, rfl⟩
      · simp at h
  · simp at h

theorem loadFile_device {path : CString} {index : Nat} (h : loadFile w reply path index = some w') :
    w'.sectorSize = w.sectorSize ∧ w'.descriptors = w.descriptors := by
  unfold loadFile at h
  obtain ⟨w₁, hopen, h⟩ := Option.bind_eq_some_iff.mp h
  obtain ⟨⟨n, src⟩, hread, h⟩ := Option.bind_eq_some_iff.mp h
  obtain rfl := Option.some.inj h
  obtain ⟨hsector, hdesc⟩ := openFile_device hopen
  exact ⟨hsector, hdesc⟩

theorem storeFile_device {path : CString} {index : Nat}
    (h : storeFile w reply path index = some w') :
    w'.sectorSize = w.sectorSize ∧ w'.descriptors = w.descriptors := by
  unfold storeFile at h
  obtain ⟨w₁, hopen, h⟩ := Option.bind_eq_some_iff.mp h
  obtain ⟨⟨n, w₂⟩, hwrite, h⟩ := Option.bind_eq_some_iff.mp h
  obtain rfl := Option.some.inj h
  unfold pwrite at hwrite
  obtain ⟨file, hf, hwrite⟩ := Option.bind_eq_some_iff.mp hwrite
  obtain ⟨k, hk, hwrite⟩ := Option.bind_eq_some_iff.mp hwrite
  obtain ⟨-, rfl⟩ := Prod.mk.inj (Option.some.inj hwrite)
  obtain ⟨hsector, hdesc⟩ := openFile_device hopen
  exact ⟨hsector, hdesc⟩

theorem mgStart_device (m : Mapping) (w : World) (reply : Replies) (path : Option CString)
    (index c : Nat) (mgType : MgType) :
    (mgStart m w reply path index c mgType).1.sectorSize = w.sectorSize ∧
      (mgStart m w reply path index c mgType).1.descriptors = w.descriptors := by
  cases mgType with
  | demotion =>
      have htrim : (trimCblock m w reply index).sectorSize = w.sectorSize ∧
          (trimCblock m w reply index).descriptors = w.descriptors := by
        unfold trimCblock trimSpdk
        split <;> exact ⟨rfl, rfl⟩
      exact htrim
  | promotion =>
      unfold mgStart
      cases hl : path.bind (loadFile w reply · index) with
      | none => exact ⟨rfl, rfl⟩
      | some w₁ =>
          obtain ⟨path', -, hload⟩ := Option.bind_eq_some_iff.mp hl
          have hdev := loadFile_device hload
          simp only [storeCblock, writeSpdk]
          cases reply.command <;> exact hdev
  | writeback =>
      have hread : (loadCblock m w reply c).1.sectorSize = w.sectorSize ∧
          (loadCblock m w reply c).1.descriptors = w.descriptors := by
        unfold loadCblock readSpdk
        cases reply.command <;> exact ⟨rfl, rfl⟩
      unfold mgStart
      simp only
      split
      · split
        · exact hread
        · rename_i w₂ hs
          obtain ⟨path', -, hstore⟩ := Option.bind_eq_some_iff.mp hs
          obtain ⟨hsector, hdesc⟩ := storeFile_device hstore
          exact ⟨hsector.trans hread.1, hdesc.trans hread.2⟩
      · exact hread

theorem Migrated.device {key : Work} {t' : Table Work}
    (hm : Migrated g m w reply key t t' w') :
    w'.sectorSize = w.sectorSize ∧ w'.descriptors = w.descriptors := by
  cases hm with
  | @promoted b _ m₁ _ _ _ _ _ hs =>
      have hdev := mgStart_device m₁ w reply (some key.fullPathName) key.cachePageIndex b .promotion
      rwa [hs] at hdev
  | @demoted b _ m₁ => exact mgStart_device m₁ w reply none 0 b .demotion
  | @written b _ m₁ _ _ _ _ _ _ _ hs =>
      have hdev := mgStart_device m₁ w reply (some (t.slot b).key.fullPathName)
        (t.slot b).key.cachePageIndex b .writeback
      rwa [hs] at hdev
  | stuck => exact ⟨rfl, rfl⟩

theorem Quiet.migrate (h : Quiet g s t) (reply : Replies) :
    ∃ s' t', s.turn (.migrate reply) = .ok s' ∧ Quiet g s' t' ∧ SameDevice s s' ∧
      Rounded g s.world reply t t' s'.world := by
  unfold Session.turn doMigrationWork
  rw [h.repr.queue.peakWork]
  cases hq : t.queue with
  | nil => exact ⟨s, t, rfl, h, ⟨rfl, rfl, rfl⟩, .idle hq⟩
  | cons key rest =>
      have hne : t.queue ≠ [] := by simp [hq]
      have hhead : t.queue.head? = some key := by simp [hq]
      obtain ⟨m, t', w', heq, r, v, hm⟩ := h.repr.migrate (h.valid.peek hhead) s.world reply
      have hround : Rounded g s.world reply t t'.dequeue w' := by
        cases hm with
        | promoted hf hstart r₁ hs => exact .promoted hhead hf r₁.shift hs
        | demoted hf hc hn hstart r₁ => exact .demoted hne hf hc hn r₁.shift
        | written hf hn hd hstart r₁ hs => exact .written hne hf hn hd r₁.shift hs
        | stuck hf hn hd => exact .stuck hne hf hd
      simp only [List.head?_cons, heq, bind, Except.bind, pure, Except.pure]
      exact ⟨_, t'.dequeue, rfl, ⟨r.removeWork, v.dequeue⟩, ⟨rfl, hm.device.1, hm.device.2⟩, hround⟩

theorem Quiet.turn {a : Turn} (h : Quiet g s t) (hc : a.Chained) :
    ∃ s' t', s.turn a = .ok s' ∧ Quiet g s' t' ∧ SameDevice s s' := by
  cases a with
  | submit pio reply =>
      obtain ⟨s', t', heq, h', hd, -⟩ := h.submit hc reply
      exact ⟨s', t', heq, h', hd⟩
  | migrate reply =>
      obtain ⟨s', t', heq, h', hd, -⟩ := h.migrate reply
      exact ⟨s', t', heq, h', hd⟩

theorem quiet_init {blockSize cblockNum : Nat} (hn : cblockNum ≤ CACHE_BLOCK_NUMBER)
    (hi : initMapping zeroMapping blockSize cblockNum = some s.cache.map) :
    Quiet (geometryOf s.cache.map) s (Table.initial cblockNum) := by
  obtain ⟨r, hg, -⟩ := repr_initMapping hn hi
  exact ⟨r, hg ▸ Valid.initial fun _ => ⟨rfl, rfl⟩⟩

end Rounds

end UserPageCache.SsdCache
