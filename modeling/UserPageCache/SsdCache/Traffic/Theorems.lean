import UserPageCache.SsdCache.Traffic
import UserPageCache.SsdCache.Accounting
import UserPageCache.SsdCache.Sequential

namespace UserPageCache.SsdCache

def Nested.key : Nested → Work
  | insertWork key => key
  | containsWork key => key

-- The key that an action asks for.
def requested (a : Action) (held : Option Nested) : Option Work :=
  match a with
  | .lookupMapping fullPathName pageIndex => some (State.keyAt pageIndex fullPathName)
  | .lookupMappingWithInsert fullPathName pageIndex => some (State.keyAt pageIndex fullPathName)
  | .nested => held.map Nested.key
  | _ => none

variable {g : Geometry} {s s' : Traffic} {core : State} {t t' : Table Work} {key : Work} {b : Nat}
  {pio : Pio} {a : Action}

section Lookup

variable {n : Nat} {v v' : View}

-- A lookup returns a hashed block of the key.
theorem Step.returned_cases (hs : Step n a v v') : v'.returned = v.returned ∨
    ∃ c key, requested a v.held = some key ∧ v'.returned = c :: v.returned ∧
      c ∈ v'.table.hashed ∧ (v'.table.slot c).key = key := by
  cases hs with
  | @hit _ _ _ e _ hh ha he hk =>
      refine .inr ⟨e, _, ?_, rfl, by simpa using he, by simpa using hk⟩
      rcases ha with rfl | rfl <;> rfl
  | @insertDirty _ key c rest hh hf hq =>
      refine .inr ⟨c, key, by simp [requested, hh, Nested.key], rfl, ?_, ?_⟩
      · simp [Table.insertDirty]
      · simp [Table.insertDirty, Table.allocate_slot hf]
  | _ => exact .inl rfl

theorem Step.held_cases (hs : Step n a v v') {next : Nested} (hn : v'.held = some next) :
    requested a v.held = some next.key ∨ v.held = some next := by
  cases hs with
  | hit hh ha he hk => exact .inr hn
  | miss hh ha hk =>
      obtain rfl := Option.some.inj hn
      rcases ha with ⟨rfl, rfl⟩ | ⟨rfl, rfl⟩ <;> exact .inl rfl
  | insertWork hh => simp at hn
  | queued hh => simp at hn
  | noRoom hh hf =>
      obtain rfl := Option.some.inj hn
      exact .inl (by simp [requested, hh, Nested.key])
  | insertDirty hh hf hq => simp at hn
  | _ => exact .inr hn

theorem answer_same (h : core.returned = s.core.returned) : answer s.core core = none := by
  simp [answer, h]

theorem answer_cons (h : core.returned = b :: s.core.returned) : answer s.core core = some b := by
  simp [answer, h]

end Lookup

section Core

-- What every state of a run satisfies: the mapping is sound, and whoever holds its lock
-- asks for the key of the request inside its lookup.
structure Traffic.Held (g : Geometry) (s : Traffic) (t : Table Work) : Prop where
  sound : Sound g s.core t
  calling : ∀ next, s.core.held = some next → ∃ pio, s.calling = some pio ∧ pio.key = next.key

theorem requested_lookupAction (pio : Pio) (held : Option Nested) :
    requested (lookupAction pio) held = some pio.key := by
  unfold lookupAction
  split <;> rfl

theorem settled_of_ne {s : State}
    (ha : ∀ fullPathName pageIndex, a ≠ .removeMapping fullPathName pageIndex) : Settled a s :=
  fun fullPathName pageIndex heq => absurd heq (ha fullPathName pageIndex)

theorem lookupAction_ne_remove (pio : Pio) (fullPathName : CString) (pageIndex : Nat) :
    lookupAction pio ≠ .removeMapping fullPathName pageIndex := by
  unfold lookupAction
  split <;> simp

theorem Action.ofWorker_ne_remove (ha : a.ofWorker = true) (fullPathName : CString)
    (pageIndex : Nat) : a ≠ .removeMapping fullPathName pageIndex := by
  rintro rfl
  simp [Action.ofWorker] at ha

theorem requested_ofWorker (ha : a.ofWorker = true) (held : Option Nested) :
    requested a held = none := by
  cases a <;> simp_all [Action.ofWorker, requested]

-- The step that a call takes in the mapping and with the worker, if any.
inductive CoreStep (g : Geometry) (s : Traffic) (t : Table Work) (s' : Traffic) (t' : Table Work) :
    Call → Prop
  | lookup {pio : Pio} {a : Action} {c : Call}
      (hc : c = .lookup pio ∧ a = lookupAction pio ∨ c = .nested ∧ a = .nested)
      (hk : requested a s.core.held = some pio.key)
      (hs : Step g.cacheBlockNum a (s.core.view t) (s'.core.view t'))
      (heq : s' = s.proceed pio s'.core) : CoreStep g s t s' t' c
  | transfer {i : Nat} {success : Bool} {r : Client} (hr : s.clients[i]? = some r)
      (hw : r.written = false) (ht : t' = t) (heq : s' = s.transfer i success) :
      CoreStep g s t s' t' (.transfer i success)
  | setDirty {i : Nat} {r : Client} (hr : s.clients[i]? = some r) (hw : r.written = true)
      (hs : Step g.cacheBlockNum (.setDirtyAfterWrite r.cblock true) (s.core.view t)
        (s'.core.view t')) (heq : s' = s.setDirty i) : CoreStep g s t s' t' (.setDirty i)
  | worker {a : Action} (ha : a.ofWorker = true)
      (hl : a = .completeWriteback true → s.loaded.isSome = true)
      (hs : Step g.cacheBlockNum a (s.core.view t) (s'.core.view t'))
      (heq : s.work a = .ok s') : CoreStep g s t s' t' (.worker a)
  | fillBlock {key : Work} {b : Nat} (hw : s.core.worker = .promoting key b) (ht : t' = t)
      (heq : s' = s.clear b) : CoreStep g s t s' t' .fillBlock
  | readBlock {key : Work} {b : Nat} (hw : s.core.worker = .writing key b) (ht : t' = t)
      (heq : s' = { s with loaded := some (s.holds b) }) : CoreStep g s t s' t' .readBlock

theorem Traffic.transfer_core (s : Traffic) (i : Nat) (success : Bool) :
    (s.transfer i success).core = s.core ∧ (s.transfer i success).calling = s.calling := by
  unfold Traffic.transfer
  split
  · exact ⟨rfl, rfl⟩
  · split <;> exact ⟨rfl, rfl⟩

theorem Traffic.work_core (h : s.work a = .ok s') :
    State.act a s.core = .ok s'.core ∧ s'.calling = s.calling ∧ s'.clients = s.clients ∧
      s'.acked = s.acked := by
  unfold Traffic.work at h
  obtain ⟨core, heq, h⟩ := bind_eq_ok.mp h
  rw [heq]
  split at h <;> obtain rfl := Except.ok.inj h <;> exact ⟨rfl, rfl, rfl, rfl⟩

-- The lookup of a request goes on, with or without the lock.
theorem Traffic.Held.proceed {pio : Pio} {core : State} (hs : Sound g core t')
    (hstep : Step g.cacheBlockNum a (s.core.view t) (core.view t'))
    (hreq : requested a s.core.held = some pio.key)
    (hheld : ∀ next, s.core.held = some next → pio.key = next.key) :
    (s.proceed pio core).Held g t' := by
  refine ⟨hs, fun next hn => ⟨pio, ?_, ?_⟩⟩
  · have hsome : core.held = some next := hn
    simp [Traffic.proceed, hsome]
  · rcases hstep.held_cases hn with hr | hold
    · exact Option.some.inj (hreq.symm.trans hr)
    · exact hheld next hold

theorem Traffic.Held.step {c : Call} (h : s.Held g t) (he : s.enabled c = true)
    (hact : Traffic.act c s = .ok s') : ∃ t', s'.Held g t' ∧ CoreStep g s t s' t' c := by
  cases c with
  | lookup pio =>
      simp only [Traffic.enabled, Bool.and_eq_true] at he
      obtain ⟨core, heq, hact⟩ := bind_eq_ok.mp hact
      obtain rfl := Except.ok.inj hact
      obtain ⟨t', hs', hstep⟩ := h.sound.step he.2 (settled_of_ne (lookupAction_ne_remove pio)) heq
      refine ⟨t', .proceed hs' hstep (requested_lookupAction pio _) fun next hn => ?_,
        .lookup (.inl ⟨rfl, rfl⟩) (requested_lookupAction pio _) hstep rfl⟩
      have hfree : s.core.held = none := by
        have hlook := he.2
        unfold lookupAction at hlook
        split at hlook <;> simpa [State.enabled] using hlook
      simp [hfree] at hn
  | nested =>
      have hen : s.core.enabled .nested = true := he
      have hsome : s.core.held.isSome = true := he
      obtain ⟨next, hn⟩ := Option.isSome_iff_exists.mp hsome
      obtain ⟨pio, hp, hk⟩ := h.calling next hn
      have hreq : requested .nested s.core.held = some pio.key := by simp [requested, hn, hk]
      simp only [Traffic.act, hp] at hact
      obtain ⟨core, heq, hact⟩ := bind_eq_ok.mp hact
      obtain rfl := Except.ok.inj hact
      have hstate : State.act .nested s.core = .ok core := heq
      obtain ⟨t', hs', hstep⟩ := h.sound.step hen (settled_of_ne (by simp)) hstate
      refine ⟨t', .proceed hs' hstep hreq fun next' hn' => ?_, .lookup (.inr ⟨rfl, rfl⟩) hreq hstep rfl⟩
      obtain rfl := Option.some.inj (hn.symm.trans hn')
      exact hk
  | transfer i success =>
      obtain ⟨r, hr, hw⟩ : ∃ r, s.clients[i]? = some r ∧ r.written = false := by
        simpa [Traffic.enabled, Option.any_eq_true] using he
      obtain rfl := Except.ok.inj hact
      obtain ⟨hcore, hcalling⟩ := s.transfer_core i success
      exact ⟨t, ⟨by rw [hcore]; exact h.sound, by rw [hcore, hcalling]; exact h.calling⟩,
        .transfer hr hw rfl rfl⟩
  | setDirty i =>
      obtain ⟨r, hr, hw, hen⟩ : ∃ r, s.clients[i]? = some r ∧ r.written = true ∧
          s.core.enabled (.setDirtyAfterWrite r.cblock true) = true := by
        simpa [Traffic.enabled, Option.any_eq_true] using he
      have heq : s' = s.setDirty i := (Except.ok.inj hact).symm
      have hcore : s'.core = s.core.setDirtyAfterWrite r.cblock true := by
        simp [heq, Traffic.setDirty, hr]
      have hcalling : s'.calling = s.calling := by simp [heq, Traffic.setDirty, hr]
      have hstate : State.act (.setDirtyAfterWrite r.cblock true) s.core = .ok s'.core := by
        rw [hcore]
        rfl
      obtain ⟨t', hs', hstep⟩ := h.sound.step hen (settled_of_ne (by simp)) hstate
      refine ⟨t', ⟨hs', fun next hn => ?_⟩, .setDirty hr hw hstep heq⟩
      rw [hcalling]
      exact h.calling next (by rw [hcore] at hn; exact hn)
  | worker a =>
      have hen : a.ofWorker = true ∧ s.core.enabled a = true ∧
          (a = .completeWriteback true → s.loaded.isSome = true) := by
        unfold Traffic.enabled at he
        split at he
        all_goals simp_all [Action.ofWorker]
      obtain ⟨hcore, hcalling, -, -⟩ := Traffic.work_core hact
      obtain ⟨t', hs', hstep⟩ :=
        h.sound.step hen.2.1 (settled_of_ne (Action.ofWorker_ne_remove hen.1)) hcore
      refine ⟨t', ⟨hs', fun next hn => ?_⟩, .worker hen.1 hen.2.2 hstep hact⟩
      rw [hcalling]
      refine h.calling next ?_
      rcases hstep.held_cases hn with hreq | hold
      · simp [requested_ofWorker hen.1] at hreq
      · exact hold
  | fillBlock =>
      cases hw : s.core.worker with
      | promoting key b =>
          simp only [Traffic.act, hw, Except.ok.injEq] at hact
          subst hact
          exact ⟨t, ⟨h.sound, h.calling⟩, .fillBlock hw rfl rfl⟩
      | _ => simp [Traffic.enabled, hw] at he
  | readBlock =>
      cases hw : s.core.worker with
      | writing key b =>
          simp only [Traffic.act, hw, Except.ok.injEq] at hact
          subst hact
          exact ⟨t, ⟨h.sound, h.calling⟩, .readBlock hw rfl rfl⟩
      | _ => simp [Traffic.enabled, hw] at he

theorem Traffic.Held.start {blockSize cblockNum : Nat}
    (hs : (traffic blockSize cblockNum).start s) :
    s.Held (geometryOf s.core.map) (Table.initial cblockNum) ∧
      (geometryOf s.core.map).cacheBlockNum = cblockNum := by
  obtain ⟨hsound, hg, -⟩ := sound_start hs.1
  refine ⟨⟨hsound, fun next hn => ?_⟩, hg⟩
  rw [hs.1.2.2.2.1] at hn
  cases hn

end Core

end UserPageCache.SsdCache
