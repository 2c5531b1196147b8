import UserPageCache.SsdCache.Accounting
import UserPageCache.SsdCache.Mapping.Queue
import UserPageCache.SsdCache.Target

namespace UserPageCache.SsdCache

-- The shared memory that a process is linked to, with the flag that the admin sets.
structure Shared where
  cache : Cache
  running : Bool

def submitPio (shared : Option Shared) (w : World) (reply : Replies) (pio : Option Pio) :
    Except Fault (Option Shared × World × List Page × Nat) :=
  match shared, pio with
  | none, pio => .ok (none, w, (pio.map Pio.buffers).getD [], 1)
  | some shared, none => .ok (some shared, w, [], 1)
  | some shared, some pio => do
    if !shared.running then return (some shared, w, pio.buffers, 1)
    let (cache, w, pages, rc) ← _submitPio shared.cache w reply pio
    return (some { shared with cache := cache }, w, pages, rc)

section Outcome

variable (m : Mapping) (w : World) (reply : Replies) (pio : Pio)

def Mapping.maps (fullPathName : CString) (pageIndex : Nat) : Bool :=
  match find m fullPathName (toCachePageIndex pageIndex) with
  | .ok (_, some _) => true
  | _ => false

-- A whole-block write may get a free block, unless its key waits for a promotion.
def Mapping.admits (fullPathName : CString) (pageIndex : Nat) : Bool :=
  !allocatorEmpty m.ea && match containsWork m.wq fullPathName (toCachePageIndex pageIndex) with
    | .ok found => !found
    | .error _ => false

def takesBlock : Bool :=
  m.maps pio.fullPathName pio.pageIndex ||
    optimizable pio && m.admits pio.fullPathName pio.pageIndex

-- How many bytes the file call moves; none when it or the open fails.
def originTransfer : Option Nat := do
  let (w, file) ← originFile w reply pio
  if pio.operation = .read then
    let (n, _) ← pread w reply file (pio.pioCnt * PAGE_SIZE) (offsetOf pio.pageIndex)
    return n
  else
    let (n, _) ← pwrite w reply file (pio.pioCnt * PAGE_SIZE) (offsetOf pio.pageIndex)
      (Bytes.gather PAGE_SIZE (pio.buffers.take pio.pioCnt) fun _ => 0)
    return n

-- What the caller asked for has happened, when the mapping is `after` at the end.
def CarriedOut (after : Mapping) : Prop :=
  checkPio pio = true ∧
    if pio.operation = .discard then after.maps pio.fullPathName pio.pageIndex = false
    else if takesBlock m pio = true then reply.command = .done
    else originTransfer w reply pio = some (pio.pioCnt * PAGE_SIZE)

-- Not the discard of a block that is mapped, not a command that ends with an error after it
-- was submitted, and not a file call that moves everything or nothing of what was asked.
def Told : Prop :=
  if pio.operation = .discard then m.maps pio.fullPathName pio.pageIndex = false
  else if takesBlock m pio = true then reply.command ≠ .failed
  else pio.pioCnt = 0 ∨
    ∀ n, originTransfer w reply pio = some n → n ≠ 0 ∧ n ≠ pio.pioCnt * PAGE_SIZE

end Outcome

section Discard

variable {m m' : Mapping} {chain : Nat → List Nat} {path : CString} {index e : Nat}

theorem IsHashTable.find (h : IsHashTable m.es m.table chain) (path : CString) (index : Nat) :
    ∃ m₁ chain₁ found, find m path index = .ok (m₁, found) ∧
      IsHashTable m₁.es m₁.table chain₁ ∧ HashOnly m.es m₁.es ∧
      (∀ e, Hashed chain₁ e ↔ Hashed chain e) ∧
      (∀ e, found = some e → Hashed chain e ∧ keyOf (m.es e) = ⟨path, index⟩) ∧
      (found = none → ∀ e, Hashed chain e → keyOf (m.es e) ≠ ⟨path, index⟩) := by
  obtain ⟨table, es, chain₁, found, heq, h₁, ho, hmem, hsome, hnone⟩ := hLookup_spec h path index
  refine ⟨{ m with table := table, es := es }, chain₁, found, ?_, h₁, ho, hmem, hsome, hnone⟩
  unfold SsdCache.find
  simp only [heq, bind, Except.bind, pure, Except.pure]

theorem maps_of_find {found : Option Nat}
    (h : find m path (toCachePageIndex index) = .ok (m', found)) :
    m.maps path index = found.isSome := by
  unfold Mapping.maps
  rw [h]
  cases found <;> rfl

theorem IsHashTable.maps_iff (h : IsHashTable m.es m.table chain) :
    m.maps path index = true ↔
      ∃ e, Hashed chain e ∧ keyOf (m.es e) = ⟨path, toCachePageIndex index⟩ := by
  obtain ⟨m₁, -, found, heq, -, -, -, hsome, hnone⟩ := h.find path (toCachePageIndex index)
  rw [maps_of_find heq]
  cases found with
  | some e => exact iff_of_true rfl ⟨e, hsome e rfl⟩
  | none => exact iff_of_false (by simp) fun ⟨e, he, hk⟩ => hnone rfl e he hk

theorem LinksOnly.entry {es es' : EntrySpace} (h : LinksOnly es es') (i : Nat) :
    keyOf (es' i) = keyOf (es i) ∧ hNext es' i = hNext es i := by
  unfold hNext
  rw [h i]
  exact ⟨rfl, rfl⟩

-- Taking a block from its list and freeing it leave the chains as they are.
theorem IsHashTable.linksOnly {es : EntrySpace} (h : IsHashTable m.es m.table chain)
    (hl : LinksOnly m.es es) : IsHashTable es m.table chain :=
  h.congr (fun _ _ i _ => (hl.entry i).2) fun _ _ i _ => (hl.entry i).1

theorem delByFlag_linksOnly (m : Mapping) (e : Nat) :
    LinksOnly m.es (delByFlag m e).es ∧ (delByFlag m e).table = m.table := by
  unfold delByFlag
  by_cases hd : entryGetDirty (m.es e) = true
  · simp only [hd, ite_true]
    exact ⟨lDel_linksOnly m.es m.dirty e, trivial⟩
  · simp only [hd, Bool.false_eq_true, ite_false]
    exact ⟨lDel_linksOnly m.es m.clean e, trivial⟩

theorem release_entry (m : Mapping) (e i : Nat) :
    keyOf ((release m e).es i) = keyOf (m.es i) ∧ hNext (release m e).es i = hNext m.es i := by
  have hes : (release m e).es =
      (lAddTail (Function.update m.es e (entrySetAlloc (m.es e) false)) m.ea.free e).1 := by
    unfold release
    rw [freeEntry_eq]
  obtain ⟨hkey, hnext⟩ := (lAddTail_linksOnly (Function.update m.es e (entrySetAlloc (m.es e) false))
    m.ea.free e).entry i
  rw [hes, hkey, hnext]
  unfold hNext
  by_cases hi : i = e
  · subst i
    rw [Function.update_self, entrySetAlloc, paramSet_eq]
    exact ⟨rfl, rfl⟩
  · rw [Function.update_of_ne hi]
    exact ⟨rfl, rfl⟩

theorem IsHashTable.release (h : IsHashTable m.es m.table chain) :
    IsHashTable (release m e).es (release m e).table chain :=
  h.congr (fun _ _ i _ => (release_entry m e i).2) fun _ _ i _ => (release_entry m e i).1

-- A discard always returns, says whether the block was there, and it is not there after.
theorem IsHashTable.removeMapping (h : IsHashTable m.es m.table chain) (path : CString)
    (index : Nat)
    (hu : ∀ i j, Hashed chain i → Hashed chain j → keyOf (m.es i) = keyOf (m.es j) → i = j) :
    ∃ m', removeMapping m path index = .ok (m', m.maps path index) ∧
      m'.maps path index = false := by
  obtain ⟨m₁, chain₁, found, heq, h₁, ho, hmem, hsome, hnone⟩ := h.find path (toCachePageIndex index)
  rw [maps_of_find heq]
  unfold SsdCache.removeMapping
  simp only [heq, bind, Except.bind, pure, Except.pure]
  cases found with
  | none =>
      refine ⟨m₁, rfl, Bool.eq_false_iff.mpr fun hm => ?_⟩
      obtain ⟨e, he, hk⟩ := h₁.maps_iff.mp hm
      exact hnone rfl e ((hmem e).mp he) (ho.keyOf e ▸ hk)
  | some e =>
      obtain ⟨he, hk⟩ := hsome e rfl
      obtain ⟨hlinks, htable⟩ := delByFlag_linksOnly m₁ e
      have hkey₂ : ∀ i, keyOf ((delByFlag m₁ e).es i) = keyOf (m.es i) := fun i =>
        (hlinks.entry i).1.trans (ho.keyOf i)
      have h₂ : IsHashTable (delByFlag m₁ e).es (delByFlag m₁ e).table chain₁ :=
        htable ▸ h₁.linksOnly hlinks
      obtain ⟨table, es, chain₃, hr, h₃, ho₃, hmem₃⟩ := hRemove_spec h₂ ((hmem e).mpr he)
        (fun i hi hki => by
          rw [hkey₂, hkey₂] at hki
          exact hu i e ((hmem i).mp hi) he hki)
      have hout : hashOut (delByFlag m₁ e) e =
          .ok { delByFlag m₁ e with table := table, es := es } := by
        unfold hashOut
        simp only [hr, bind, Except.bind, pure, Except.pure]
      simp only [hout]
      refine ⟨_, rfl, Bool.eq_false_iff.mpr fun hm => ?_⟩
      have h₄ := IsHashTable.release (e := e)
        (m := { delByFlag m₁ e with table := table, es := es }) h₃
      obtain ⟨i, hi, hki⟩ := h₄.maps_iff.mp hm
      obtain ⟨hi₁, hne⟩ := (hmem₃ i).mp hi
      have hkey := (release_entry { delByFlag m₁ e with table := table, es := es } e i).1.symm.trans hki
      have hkey' := ((ho₃.keyOf i).trans (hkey₂ i)).symm.trans hkey
      exact hne (hu i e ((hmem i).mp hi₁) he (hkey'.trans hk.symm))

end Discard

section Transfer

variable {g : Geometry} {t : Table Work} {worker : Worker Work} {cache : Cache} {m m' : Mapping}
  {w : World} {reply : Replies} {pio : Pio} {path : CString} {index : Nat} {cblock : Option Nat}

theorem lookupMapping_isSome (h : lookupMapping m path index = .ok (m', cblock)) :
    cblock.isSome = m.maps path index := by
  unfold lookupMapping at h
  obtain ⟨⟨m₁, found⟩, heq, h⟩ := bind_eq_ok.mp h
  rw [maps_of_find heq]
  cases found with
  | some e => rw [← (Prod.mk.inj (Except.ok.inj h)).2]; rfl
  | none =>
      obtain ⟨m₂, -, h⟩ := bind_eq_ok.mp h
      rw [← (Prod.mk.inj (Except.ok.inj h)).2]

theorem lookupMappingWithInsert_isSome
    (h : lookupMappingWithInsert m path index = .ok (m', cblock)) :
    cblock.isSome = (m.maps path index || m.admits path index) := by
  unfold lookupMappingWithInsert at h
  obtain ⟨⟨m₁, found⟩, heq, h⟩ := bind_eq_ok.mp h
  obtain ⟨hwq, hea⟩ := find_rest heq
  rw [maps_of_find heq]
  unfold Mapping.admits
  rw [← hwq, ← hea]
  cases found with
  | some e => rw [← (Prod.mk.inj (Except.ok.inj h)).2]; rfl
  | none =>
      obtain ⟨queued, hq, h⟩ := bind_eq_ok.mp h
      change containsWork m₁.wq path (toCachePageIndex index) = .ok queued at hq
      rw [hq]
      cases queued with
      | true => rw [← (Prod.mk.inj (Except.ok.inj h)).2]; simp
      | false =>
          by_cases hempty : allocatorEmpty m₁.ea = true
          · simp only [lookupMiss, hempty, ite_true, Bool.false_eq_true, ite_false] at h
            obtain ⟨m₂, -, h⟩ := bind_eq_ok.mp h
            rw [← (Prod.mk.inj (Except.ok.inj h)).2]
            simp [hempty]
          · simp only [lookupMiss, hempty, Bool.false_eq_true, ite_false] at h
            rw [insertDirty_isSome h]
            simp [hempty]

theorem Repr.mapLookup_taken (r : Repr g cache.map t) (v : Valid g.cacheBlockNum worker t)
    (pio : Pio) :
    ∃ m' cblock, mapLookup cache pio = .ok (m', cblock) ∧
      cblock.isSome = takesBlock cache.map pio := by
  unfold SsdCache.mapLookup takesBlock
  by_cases ho : optimizable pio = true
  · obtain ⟨m', cblock, -, heq, -, -⟩ :=
      r.lookupMappingWithInsert v pio.fullPathName pio.pageIndex
    rw [if_pos ho, ho, Bool.true_and]
    exact ⟨m', cblock, heq, lookupMappingWithInsert_isSome heq⟩
  · obtain ⟨m', cblock, -, heq, -, -⟩ := r.lookupMapping v false pio.fullPathName pio.pageIndex
    rw [if_neg ho, Bool.eq_false_iff.mpr ho, Bool.false_and, Bool.or_false]
    exact ⟨m', cblock, heq, lookupMapping_isSome heq⟩

theorem pioToIovec_take (h : pio.pioCnt ≤ pio.buffers.length) :
    pioToIovec pio = .ok (pio.buffers.take pio.pioCnt) ∧
      (pio.buffers.take pio.pioCnt).length = pio.pioCnt :=
  ⟨if_pos h, List.length_take_of_le h⟩

-- Both sides of a block report a refused command only.
theorem mapToCache_rc (cache : Cache) (w : World) (reply : Replies)
    (h : pio.pioCnt ≤ pio.buffers.length) (c : Nat) :
    ∃ cache' w' pages, mapToCache cache w reply pio c =
      .ok (cache', w', pages, if reply.command = .rejected then 1 else 0) := by
  unfold mapToCache readCache writeCache readvSpdk writevSpdk
  simp only [(pioToIovec_take h).1, bind, Except.bind, pure, Except.pure]
  split <;> cases reply.command <;> exact ⟨_, _, _, rfl⟩

-- What write_origin and read_origin make of the result of the file call.
def originRc : Option Nat → Nat
  | none => 1
  | some n => if n = 0 then 0 else 1

theorem mapToOrigin_rc (w : World) (reply : Replies) (h : pio.pioCnt ≤ pio.buffers.length) :
    ∃ w' pages, mapToOrigin w reply pio =
      .ok (w', pages, originRc (originTransfer w reply pio)) := by
  obtain ⟨hiov, hlen⟩ := pioToIovec_take h
  unfold mapToOrigin originTransfer
  by_cases hr : pio.operation = .read
  · simp only [hr, ite_true]
    unfold readOrigin
    simp only [hiov, hlen, bind, Except.bind, pure, Except.pure]
    cases originFile w reply pio with
    | none => exact ⟨_, _, rfl⟩
    | some opened =>
        obtain ⟨w₁, file⟩ := opened
        simp only [Option.bind]
        cases pread w₁ reply file (pio.pioCnt * PAGE_SIZE) (offsetOf pio.pageIndex) with
        | none => exact ⟨_, _, rfl⟩
        | some moved => exact ⟨_, _, rfl⟩
  · simp only [hr, ite_false]
    unfold writeOrigin
    simp only [hiov, hlen, bind, Except.bind, pure, Except.pure]
    cases originFile w reply pio with
    | none => exact ⟨_, _, rfl⟩
    | some opened =>
        obtain ⟨w₁, file⟩ := opened
        simp only [Option.bind]
        cases pwrite w₁ reply file (pio.pioCnt * PAGE_SIZE) (offsetOf pio.pageIndex)
          (Bytes.gather PAGE_SIZE (pio.buffers.take pio.pioCnt) fun _ => 0) with
        | none => exact ⟨_, _, rfl⟩
        | some moved => exact ⟨_, _, rfl⟩

theorem originRc_told {moved : Option Nat} {count len : Nat} (hlen : len = 0 ↔ count = 0) :
    (originRc moved = 0 ↔ moved = some len) ↔ count = 0 ∨ ∀ n, moved = some n → n ≠ 0 ∧ n ≠ len := by
  cases moved with
  | none => simp [originRc]
  | some n =>
      simp only [originRc, Option.some.injEq, forall_eq']
      split <;> omega

-- The three ways a request that passes its check can go.
theorem Repr.discardPio (r : Repr g cache.map t) (v : Valid g.cacheBlockNum worker t)
    (w : World) (reply : Replies)
    (hc : checkPio pio = true) (hd : pio.operation = .discard) :
    ∃ cache' rc, discardPio cache pio = .ok (cache', rc) ∧
      ((rc = 0 ↔ CarriedOut cache.map w reply pio cache'.map) ↔ Told cache.map w reply pio) := by
  obtain ⟨chain, h, hmem⟩ := r.hash
  obtain ⟨m', heq, hgone⟩ := h.removeMapping pio.fullPathName pio.pageIndex
    fun i j hi hj hij => v.unique i ((hmem i).mpr hi) j ((hmem j).mpr hj) (by
      rw [r.slot_eq, r.slot_eq]
      exact hij)
  unfold SsdCache.discardPio
  simp only [hc, heq, Bool.not_true, Bool.false_eq_true, ite_false, bind, Except.bind, pure,
    Except.pure]
  refine ⟨_, _, rfl, ?_⟩
  simp only [CarriedOut, Told, hc, hd, hgone, ite_true, and_self, iff_true]
  cases cache.map.maps pio.fullPathName pio.pageIndex <;> simp

theorem Repr.mapPio (r : Repr g cache.map t) (v : Valid g.cacheBlockNum worker t)
    (w : World) (reply : Replies)
    (hbuf : pio.pioCnt ≤ pio.buffers.length) (hc : checkPio pio = true)
    (hd : pio.operation ≠ .discard) : ∃ cache' w' pages rc,
      mapPio cache w reply pio = .ok (cache', w', pages, rc) ∧
      ((rc = 0 ↔ CarriedOut cache.map w reply pio cache'.map) ↔ Told cache.map w reply pio) := by
  obtain ⟨m', cblock, hlook, htaken⟩ := r.mapLookup_taken v pio
  unfold SsdCache.mapPio
  simp only [hc, hlook, Bool.not_true, Bool.false_eq_true, ite_false, bind, Except.bind, pure,
    Except.pure]
  cases cblock with
  | some c =>
      obtain ⟨cache', w', pages, heq⟩ := mapToCache_rc { cache with map := m' } w reply hbuf c
      refine ⟨_, _, _, _, heq, ?_⟩
      simp only [CarriedOut, Told, hc, hd, ← htaken, Option.isSome_some, ite_true, ite_false,
        true_and]
      cases reply.command <;> simp
  | none =>
      obtain ⟨w', pages, heq⟩ := mapToOrigin_rc w reply hbuf
      simp only [heq]
      refine ⟨_, _, _, _, rfl, ?_⟩
      simp only [CarriedOut, Told, hc, hd, ← htaken, Option.isSome_none, Bool.false_eq_true,
        ite_false, true_and]
      exact originRc_told (by simp [PAGE_SIZE])

end Transfer

section Codes

variable {g : Geometry} {t : Table Work} {worker : Worker Work} {shared : Shared} {w w' : World}
  {reply : Replies} {pio : Pio} {cache' : Cache} {pages : List Page} {rc : Nat}

theorem submitPio_stopped (h : shared.running = false) :
    submitPio (some shared) w reply (some pio) = .ok (some shared, w, pio.buffers, 1) := by
  unfold submitPio
  simp [h, pure, Except.pure]

theorem submitPio_running (h : shared.running = true)
    (hs : _submitPio shared.cache w reply pio = .ok (cache', w', pages, rc)) :
    submitPio (some shared) w reply (some pio) =
      .ok (some { shared with cache := cache' }, w', pages, rc) := by
  unfold submitPio
  simp [h, hs, bind, Except.bind, pure, Except.pure]

theorem _submitPio_rejected (cache : Cache) (w : World) (reply : Replies) (h : checkPio pio = false) :
    _submitPio cache w reply pio = .ok (cache, w, pio.buffers, 1) := by
  unfold _submitPio discardPio mapPio
  simp only [h, Bool.not_false, ite_true, bind, Except.bind, pure, Except.pure]
  split <;> rfl

theorem Repr._submitPio (r : Repr g shared.cache.map t) (v : Valid g.cacheBlockNum worker t)
    (w : World) (reply : Replies)
    (hbuf : pio.pioCnt ≤ pio.buffers.length) (hc : checkPio pio = true) :
    ∃ cache' w' pages rc, _submitPio shared.cache w reply pio = .ok (cache', w', pages, rc) ∧
      ((rc = 0 ↔ CarriedOut shared.cache.map w reply pio cache'.map) ↔
        Told shared.cache.map w reply pio) := by
  unfold SsdCache._submitPio
  by_cases hd : pio.operation = .discard
  · obtain ⟨cache', rc, heq, hiff⟩ := r.discardPio v w reply hc hd
    simp only [hd, heq, bind, Except.bind, pure, Except.pure, ite_true]
    exact ⟨cache', w, pio.buffers, rc, rfl, hiff⟩
  · obtain ⟨cache', w', pages, rc, heq, hiff⟩ := r.mapPio v w reply hbuf hc hd
    simp only [hd, heq, bind, Except.bind, pure, Except.pure, ite_false]
    exact ⟨cache', w', pages, rc, rfl, hiff⟩

-- Every call returns, whatever state the mapping is in, and its return code says whether the
-- request was carried out unless it goes one of the ways that `Told` excludes.
theorem return_codes (shared : Shared) (w : World) (reply : Replies) (pio : Pio)
    (r : Repr g shared.cache.map t) (v : Valid g.cacheBlockNum worker t)
    (hbuf : pio.pioCnt ≤ pio.buffers.length) : ∃ shared' w' pages rc,
      submitPio (some shared) w reply (some pio) = .ok (some shared', w', pages, rc) ∧
      ((rc = 0 ↔ shared.running = true ∧
          CarriedOut shared.cache.map w reply pio shared'.cache.map) ↔
        (shared.running = true → checkPio pio = true → Told shared.cache.map w reply pio)) := by
  cases hrun : shared.running with
  | false => exact ⟨shared, w, pio.buffers, 1, submitPio_stopped hrun, by simp⟩
  | true =>
      cases hc : checkPio pio with
      | false =>
          have hrej := _submitPio_rejected shared.cache w reply hc
          exact ⟨_, w, pio.buffers, 1, submitPio_running hrun hrej, by simp [CarriedOut, hc]⟩
      | true =>
          obtain ⟨cache', w', pages, rc, heq, hiff⟩ :=
            r._submitPio v w reply hbuf hc
          exact ⟨_, w', pages, rc, submitPio_running hrun heq, by simpa using hiff⟩

-- The cache as the admin leaves it.
def emptyShared : Shared := ⟨⟨(State.boot 512 2).map, 3⟩, true⟩

def onePage (operation : Operate) : Pio :=
  { fullPathName := [⟨97, nonzero_a⟩], fd := 0, pageIndex := 0, operation := operation
    buffers := [fun _ => 7], pioCnt := 1 }

def emptyWorld : World := ⟨512, fun _ => 0, [], fun _ => none, fun _ => none, fun _ => 0⟩

-- A block is inserted by a WRITE, and another one is promoted.
def cachedRun : List Action :=
  [.lookupMappingWithInsert [⟨97, nonzero_a⟩] 0, .nested, .lookupMapping [⟨97, nonzero_a⟩] 8,
    .nested, .peakWork, .startPromotion, .completePromotion true, .removeWork]

-- A page of the block that was inserted is read from the SSD.
theorem return_codes_cachedRun : ∃ (s : State) (shared' : Shared) (w' : World) (pages : List Page),
    (interleaving 512 2).Reachable Settled s ∧
    s.map.maps (onePage .read).fullPathName (onePage .read).pageIndex = true ∧
    submitPio (some ⟨⟨s.map, 3⟩, true⟩) emptyWorld .success (some (onePage .read)) =
      .ok (some shared', w', pages, 0) ∧
    CarriedOut s.map emptyWorld .success (onePage .read) shared'.cache.map := by
  obtain ⟨s, hs, hp⟩ := boot_run (by decide) (by decide) (by simp [cachedRun])
    (show _ = true from (by decide +kernel : ((interleaving 512 2).run (State.boot 512 2)
      cachedRun).any (fun s =>
        s.map.maps (onePage .read).fullPathName (onePage .read).pageIndex &&
        (submitPio (some ⟨⟨s.map, 3⟩, true⟩) emptyWorld .success
          (some (onePage .read))).toOption.any fun r => r.2.2.2 == 0) = true))
  simp only [Bool.and_eq_true] at hp
  obtain ⟨hmaps, hzero⟩ := hp
  obtain ⟨g, t, hsound, -⟩ := sound_of_reachable hs
  obtain ⟨shared', w', pages, rc, heq, hiff⟩ := return_codes ⟨⟨s.map, 3⟩, true⟩ emptyWorld .success
    (onePage .read) hsound.repr hsound.valid (by decide)
  have htakes : takesBlock s.map (onePage .read) = true := by
    unfold takesBlock
    rw [hmaps, Bool.true_or]
  have htold : Told s.map emptyWorld .success (onePage .read) := by
    unfold Told
    rw [if_neg (by decide), if_pos htakes]
    decide
  obtain rfl : rc = 0 := by simpa [heq, Except.toOption] using hzero
  exact ⟨s, shared', w', pages, hs, hmaps, heq, ((hiff.mpr fun _ _ => htold).mp rfl).2⟩

-- One page is written to a file in full, and the call returns 1.
theorem write_reported_failed : ∃ shared' w' pages,
    submitPio (some emptyShared) emptyWorld .success (some (onePage .write)) =
      .ok (some shared', w', pages, 1) ∧
    CarriedOut emptyShared.cache.map emptyWorld .success (onePage .write) shared'.cache.map := by
  have hrun : (submitPio (some emptyShared) emptyWorld .success (some (onePage .write))).toOption.any
      (fun r => r.1.isSome && r.2.2.2 == 1) = true := by decide +kernel
  cases hr : submitPio (some emptyShared) emptyWorld .success (some (onePage .write)) with
  | error fault => simp [hr, Except.toOption] at hrun
  | ok result =>
      obtain ⟨shared', w', pages, rc⟩ := result
      simp only [hr, Except.toOption, Option.any_some, Bool.and_eq_true, beq_iff_eq] at hrun
      obtain ⟨shared', rfl⟩ := Option.isSome_iff_exists.mp hrun.1
      obtain rfl := hrun.2
      refine ⟨shared', w', pages, rfl, ?_⟩
      have hblock : takesBlock emptyShared.cache.map (onePage .write) = false := by decide +kernel
      have hmoved : originTransfer emptyWorld .success (onePage .write) = some PAGE_SIZE := by
        decide +kernel
      have hkind : (onePage .write).operation ≠ .discard := by decide
      unfold CarriedOut
      rw [if_neg hkind, if_neg (by simp [hblock])]
      exact ⟨rfl, hmoved⟩

end Codes

end UserPageCache.SsdCache
