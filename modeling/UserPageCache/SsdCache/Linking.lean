import Mathlib.Data.Finset.Card
import UserPageCache.Basic
import UserPageCache.Lib.System

namespace UserPageCache.SsdCache.Linking

-- The state of the cache in one shared memory object. `shut` records that exit_ssd_cache has
-- shut its worker down.
structure Shm where
  running : Bool
  count : Nat
  worker : Bool
  shut : Bool

def Shm.zeroed : Shm := ⟨false, 0, false, false⟩

-- Where a process is in link_ssd_cache or unlink_ssd_cache, and its own shared_cache.
inductive ClientPc where
  | idle
  | checking
  | attaching
  | counting
  | uncounting
  | unmapping
deriving DecidableEq

structure Client where
  shared : Option Nat
  pc : ClientPc

-- Where the admin is in init_ssd_cache or exit_ssd_cache. Its pointer may dangle.
inductive AdminPc where
  | idle
  | checking
  | setup
  | waking
  | starting
  | resetting
  | waiting
  | stopping
  | unmapping
  | unlinking
deriving DecidableEq

structure Admin where
  shared : Option Nat
  dangling : Bool
  pc : AdminPc

-- `linked` records to which object the last link of a process succeeded, until it unlinks.
structure Links (κ : Type*) where
  shm : Nat → Shm
  next : Nat
  name : Option Nat
  client : κ → Client
  admin : Admin
  linked : κ → Option Nat

-- One action has one access to what is shared. The flag is the outcome of a system call.
inductive Call (κ : Type*) where
  | linkShm (p : κ) (mapped : Bool)
  | linkCheck (p : κ)
  | linkInit (p : κ) (ok : Bool)
  | linkCount (p : κ)
  | unlinkCheck (p : κ)
  | unlinkCount (p : κ)
  | unlinkUnmap (p : κ) (ok : Bool)
  | initAlloc (opened mapped : Bool)
  | initCheck
  | initSetup (ok : Bool)
  | initWake
  | initRun
  | initCount
  | exitCheck
  | exitWait
  | exitShutdown
  | exitUnmap (ok : Bool)
  | exitUnlink (ok : Bool)

namespace Links

variable {κ : Type*} [DecidableEq κ] (s : Links κ)

def setClient (p : κ) (x : Client) : Links κ := { s with client := Function.update s.client p x }

def setAdmin (y : Admin) : Links κ := { s with admin := y }

def setShm (o : Nat) (f : Shm → Shm) : Links κ :=
  { s with shm := Function.update s.shm o (f (s.shm o)) }

def setLinked (p : κ) (o : Option Nat) : Links κ :=
  { s with linked := Function.update s.linked p o }

-- A link that returns non-zero.
def fail (p : κ) (shared : Option Nat) : Links κ := (s.setClient p ⟨shared, .idle⟩).setLinked p none

-- shm_open with O_CREAT makes a new object only when the name refers to none.
def openShm : Links κ :=
  match s.name with
  | some _ => s
  | none =>
    { s with
      shm := Function.update s.shm s.next Shm.zeroed
      next := s.next + 1
      name := some s.next }

def alloc (mapped : Bool) : Links κ :=
  if mapped then s.openShm.setAdmin ⟨s.openShm.name, false, .checking⟩
  else s.openShm.setAdmin ⟨none, false, .idle⟩

def linkStep (p : κ) (shared : Option Nat) : Call κ → Except Fault (Links κ)
  | .linkShm _ mapped => match s.name with
    | some o => .ok (if mapped then s.setClient p ⟨some o, .checking⟩ else s.fail p none)
    | none => .ok (s.fail p none)
  | .unlinkCheck _ => match shared with
    | none => .ok s
    | some o => .ok (if (s.shm o).running then s.setClient p ⟨shared, .uncounting⟩ else s)
  | .linkInit _ ok =>
    .ok (if ok then s.setClient p ⟨shared, .counting⟩ else s.fail p shared)
  | .unlinkUnmap _ ok => .ok (s.setClient p ⟨if ok then none else shared, .idle⟩)
  | .linkCheck _ => match shared with
    | none => .error .nullDereference
    | some o => .ok (if (s.shm o).running then s.setClient p ⟨shared, .attaching⟩
        else s.fail p shared)
  | .linkCount _ => match shared with
    | none => .error .nullDereference
    | some o => .ok (((s.setShm o fun m => { m with count := inc m.count }).setClient p
        ⟨shared, .idle⟩).setLinked p shared)
  | .unlinkCount _ => match shared with
    | none => .error .nullDereference
    | some o => .ok (((s.setShm o fun m => { m with count := dec m.count }).setClient p
        ⟨shared, .unmapping⟩).setLinked p none)
  | _ => .ok s

-- The admin's accesses to the object that its pointer refers to.
def adminStep (o : Nat) : Call κ → Links κ
  | .initCheck => s.setAdmin ⟨some o, false, if (s.shm o).running then .idle else .setup⟩
  | .initSetup ok => s.setAdmin ⟨some o, false, if ok then .waking else .idle⟩
  | .initWake => (s.setShm o fun m => { m with worker := true }).setAdmin ⟨some o, false, .starting⟩
  | .initRun =>
    (s.setShm o fun m => { m with running := true }).setAdmin ⟨some o, false, .resetting⟩
  | .initCount => (s.setShm o fun m => { m with count := 0 }).setAdmin ⟨some o, false, .idle⟩
  | .exitCheck => s.setAdmin ⟨some o, false, if (s.shm o).running then .waiting else .idle⟩
  | .exitWait => s.setAdmin ⟨some o, false, if (s.shm o).count = 0 then .stopping else .waiting⟩
  | .exitShutdown =>
    (s.setShm o fun m => { m with worker := false, shut := true }).setAdmin
      ⟨some o, false, .unmapping⟩
  | .exitUnmap ok => s.setAdmin ⟨some o, ok, if ok then .unlinking else .idle⟩
  | .exitUnlink ok =>
    if ok then { s.setAdmin ⟨none, false, .idle⟩ with name := none }
    else s.setAdmin ⟨some o, true, .idle⟩
  | _ => s

-- The process that takes the step and where it must be, or where the admin must be.
def place : Call κ → (κ × ClientPc) ⊕ AdminPc
  | .linkShm p _ => .inl (p, .idle)
  | .linkCheck p => .inl (p, .checking)
  | .linkInit p _ => .inl (p, .attaching)
  | .linkCount p => .inl (p, .counting)
  | .unlinkCheck p => .inl (p, .idle)
  | .unlinkCount p => .inl (p, .uncounting)
  | .unlinkUnmap p _ => .inl (p, .unmapping)
  | .initAlloc _ _ => .inr .idle
  | .initCheck => .inr .checking
  | .initSetup _ => .inr .setup
  | .initWake => .inr .waking
  | .initRun => .inr .starting
  | .initCount => .inr .resetting
  | .exitCheck => .inr .idle
  | .exitWait => .inr .waiting
  | .exitShutdown => .inr .stopping
  | .exitUnmap _ => .inr .unmapping
  | .exitUnlink _ => .inr .unlinking

def enabled (s : Links κ) (a : Call κ) : Bool :=
  match place a with
  | .inl (p, pc) => (s.client p).pc == pc
  | .inr pc => s.admin.pc == pc

def act (a : Call κ) (s : Links κ) : Except Fault (Links κ) :=
  match a, place a with
  | .initAlloc opened mapped, _ =>
    .ok (if opened then s.alloc mapped else s.setAdmin ⟨none, false, .idle⟩)
  | .exitCheck, _ => match s.admin.shared with
    | none => .ok s
    | some o => if s.admin.dangling then .error .nullDereference else .ok (s.adminStep o a)
  | _, .inl (p, _) => s.linkStep p (s.client p).shared a
  | _, .inr _ => match s.admin.shared with
    | none => .error .nullDereference
    | some o => .ok (s.adminStep o a)

end Links

-- Before the first init no object exists.
def linking (κ : Type*) [DecidableEq κ] : System (Links κ) (Call κ) Fault where
  start s := s = ⟨fun _ => Shm.zeroed, 0, none, fun _ => ⟨none, .idle⟩, ⟨none, false, .idle⟩,
    fun _ => none⟩
  enabled a s := s.enabled a = true
  act := Links.act

instance {κ : Type*} [DecidableEq κ] (a : Call κ) (s : Links κ) :
    Decidable ((linking κ).enabled a s) :=
  inferInstanceAs (Decidable (s.enabled a = true))

-- A process that is linked does not link again; one that is not linked calls unlink only when
-- its pointer is null or leads to an object that is not running; a link counts itself neither
-- between the two stores that end init_ssd_cache nor once exit_ssd_cache has seen that nobody
-- is linked, and only when fewer than 2 ^ 32 - 1 processes are.
def Careful {κ : Type*} (a : Call κ) (s : Links κ) : Prop :=
  match a with
  | .linkShm p _ => s.linked p = none
  | .unlinkCheck p => s.linked p = none → ∀ o ∈ (s.client p).shared, (s.shm o).running = false
  | .linkCount p => ∀ o ∈ (s.client p).shared,
    (s.shm o).count + 1 < 2 ^ 32 ∧ (s.shm o).shut = false ∧
      ¬(s.admin.shared = some o ∧ (s.admin.pc = .resetting ∨ s.admin.pc = .stopping))
  | _ => True

instance {κ : Type*} (a : Call κ) (s : Links κ) : Decidable (Careful a s) :=
  match a with
  | .linkShm p _ => inferInstanceAs (Decidable (s.linked p = none))
  | .unlinkCheck p => inferInstanceAs (Decidable (s.linked p = none →
    ∀ o ∈ (s.client p).shared, (s.shm o).running = false))
  | .linkCount p => inferInstanceAs (Decidable (∀ o ∈ (s.client p).shared,
    (s.shm o).count + 1 < 2 ^ 32 ∧ (s.shm o).shut = false ∧
      ¬(s.admin.shared = some o ∧ (s.admin.pc = .resetting ∨ s.admin.pc = .stopping))))
  | .linkCheck _ | .linkInit _ _ | .unlinkCount _ | .unlinkUnmap _ _ | .initAlloc _ _
  | .initCheck | .initSetup _ | .initWake | .initRun | .initCount | .exitCheck | .exitWait
  | .exitShutdown | .exitUnmap _ | .exitUnlink _ => inferInstanceAs (Decidable True)

section Invariant

variable {κ : Type*} {s : Links κ} {p : κ} {o : Nat}

-- As many processes are linked to the object as its counter says.
def Links.Counted (s : Links κ) (o : Nat) : Prop :=
  ∃ users : Finset κ, (∀ p, p ∈ users ↔ s.linked p = some o) ∧ (s.shm o).count = users.card

-- Nobody may be linked to the object any more, or not yet.
def Links.Closed (s : Links κ) (o : Nat) : Prop :=
  (s.shm o).shut = true ∨
    s.admin.shared = some o ∧ (s.admin.pc = .resetting ∨ s.admin.pc = .stopping)

structure Client.Fits (s : Links κ) (p : κ) (x : Client) : Prop where
  attached : ∀ o, s.linked p = some o → x.shared = some o ∧ (x.pc = .idle ∨ x.pc = .uncounting)
  leaving : x.pc = .uncounting → s.linked p ≠ none
  passed : x.pc = .attaching ∨ x.pc = .counting →
    ∀ o, x.shared = some o → (s.shm o).running = true

structure Links.Sound (s : Links κ) : Prop where
  counted : ∀ o, s.Counted o
  bounded : ∀ o, (s.shm o).count < 2 ^ 32
  running : ∀ p o, s.linked p = some o → (s.shm o).running = true
  clients : ∀ p, Client.Fits s p (s.client p)
  closed : ∀ o p, s.Closed o → s.linked p ≠ some o
  starting : ∀ o, s.admin.shared = some o →
    s.admin.pc = .setup ∨ s.admin.pc = .waking ∨ s.admin.pc = .starting →
    (s.shm o).running = false
  fresh : ∀ o, s.next ≤ o → s.shm o = Shm.zeroed
  known : ∀ o, s.name = some o ∨ s.admin.shared = some o → o < s.next

@[simp] theorem Links.setShm_self (f : Shm → Shm) : (s.setShm o f).shm o = f (s.shm o) :=
  Function.update_self ..

theorem Links.setShm_other {i : Nat} (hi : i ≠ o) (f : Shm → Shm) :
    (s.setShm o f).shm i = s.shm i := Function.update_of_ne hi _ _

theorem Links.Counted.congr {s' : Links κ} (h : s.Counted o)
    (hl : ∀ q, s'.linked q = some o ↔ s.linked q = some o)
    (hc : (s'.shm o).count = (s.shm o).count) : s'.Counted o := by
  obtain ⟨users, hmem, hcard⟩ := h
  exact ⟨users, fun q => (hmem q).trans (hl q).symm, hc.trans hcard⟩

theorem Client.Fits.congr {s' : Links κ} {x : Client} (h : Client.Fits s p x)
    (hl : s'.linked p = s.linked p)
    (hr : ∀ i, (s.shm i).running = true → (s'.shm i).running = true) : Client.Fits s' p x :=
  ⟨hl ▸ h.attached, hl ▸ h.leaving, fun hpc i hi => hr i (h.passed hpc i hi)⟩

theorem Links.Sound.unlinked (h : s.Sound) (hi : (s.client p).pc ≠ .idle)
    (hu : (s.client p).pc ≠ .uncounting) : s.linked p = none := by
  cases hl : s.linked p with
  | none => rfl
  | some o =>
      rcases ((h.clients p).attached o hl).2 with hpc | hpc
      · exact absurd hpc hi
      · exact absurd hpc hu

theorem Links.Sound.dropAdmin (h : s.Sound) (dangling : Bool) :
    (s.setAdmin ⟨none, dangling, .idle⟩).Sound := by
  refine ⟨h.counted, h.bounded, h.running, fun q => (h.clients q).congr rfl fun _ => id,
    fun o p hc => ?_, by simp [Links.setAdmin], h.fresh, fun o ho => ?_⟩
  · rcases hc with hc | ⟨hs, -⟩
    · exact h.closed o p (.inl hc)
    · simp [Links.setAdmin] at hs
  · exact h.known o (.inl (by simpa [Links.setAdmin] using ho))

-- The admin goes on to its next step, after it may have written to its object.
theorem Links.Sound.store (h : s.Sound) (ho : o < s.next) {f : Shm → Shm} {dangling : Bool}
    {pc : AdminPc}
    (hcount : (f (s.shm o)).count = (s.shm o).count ∨
      (f (s.shm o)).count = 0 ∧ ∀ p, s.linked p ≠ some o)
    (hrun : (s.shm o).running = true → (f (s.shm o)).running = true)
    (hshut : (f (s.shm o)).shut = true → (s.shm o).shut = true ∨ ∀ p, s.linked p ≠ some o)
    (hclosed : pc = .resetting ∨ pc = .stopping → ∀ p, s.linked p ≠ some o)
    (hstart : pc = .setup ∨ pc = .waking ∨ pc = .starting → (f (s.shm o)).running = false) :
    ((s.setShm o f).setAdmin ⟨some o, dangling, pc⟩).Sound := by
  have hkept : ∀ i, (s.shm i).running = true → ((s.setShm o f).shm i).running = true := by
    intro i hi
    by_cases hio : i = o
    · subst i
      rw [Links.setShm_self]
      exact hrun hi
    · rwa [Links.setShm_other hio]
  refine ⟨fun i => ?_, fun i => ?_, fun p i hp => hkept i (h.running p i hp), fun q =>
    (h.clients q).congr rfl hkept, fun i p hc => ?_, fun i hi hpc => ?_, fun i hi => ?_,
    fun i hi => ?_⟩
  · by_cases hio : i = o
    · subst i
      have hself : ((s.setShm o f).shm o).count = (f (s.shm o)).count := by rw [Links.setShm_self]
      rcases hcount with hc | ⟨hc, hnobody⟩
      · exact (h.counted o).congr (fun q => Iff.rfl) (hself.trans hc)
      · refine ⟨∅, fun p => ?_, hself.trans hc⟩
        exact iff_of_false (by simp) (hnobody p)
    · exact (h.counted i).congr (fun q => Iff.rfl) (congrArg Shm.count (Links.setShm_other hio f))
  · change ((s.setShm o f).shm i).count < _
    by_cases hio : i = o
    · subst i
      have hb := h.bounded o
      rw [Links.setShm_self]
      rcases hcount with hc | ⟨hc, -⟩ <;> omega
    · rw [Links.setShm_other hio]
      exact h.bounded i
  · by_cases hio : i = o
    · subst i
      rcases hc with hc | ⟨-, hpc⟩
      · change ((s.setShm o f).shm o).shut = true at hc
        rw [Links.setShm_self] at hc
        rcases hshut hc with hs | hnobody
        · exact h.closed o p (.inl hs)
        · exact hnobody p
      · exact hclosed hpc p
    · rcases hc with hc | ⟨hs, -⟩
      · change ((s.setShm o f).shm i).shut = true at hc
        rw [Links.setShm_other hio] at hc
        exact h.closed i p (.inl hc)
      · exact absurd (Option.some.inj hs).symm hio
  · obtain rfl : o = i := Option.some.inj hi
    change ((s.setShm o f).shm o).running = false
    rw [Links.setShm_self]
    exact hstart hpc
  · have hne : i ≠ o := by
      have hle : s.next ≤ i := hi
      omega
    exact (Links.setShm_other hne f).trans (h.fresh i hi)
  · rcases hi with hi | hi
    · exact h.known i (.inl hi)
    · obtain rfl : o = i := Option.some.inj hi
      exact ho

-- Without a write.
theorem Links.Sound.setAdmin (h : s.Sound) (ho : o < s.next) {dangling : Bool} {pc : AdminPc}
    (hclosed : pc = .resetting ∨ pc = .stopping → ∀ p, s.linked p ≠ some o)
    (hstart : pc = .setup ∨ pc = .waking ∨ pc = .starting → (s.shm o).running = false) :
    (s.setAdmin ⟨some o, dangling, pc⟩).Sound := by
  have hsame : s.setShm o id = s := by
    unfold Links.setShm
    rw [id, Function.update_eq_self]
  have hstore : ((s.setShm o id).setAdmin ⟨some o, dangling, pc⟩).Sound :=
    h.store ho (.inl rfl) id .inl hclosed hstart
  rwa [hsame] at hstore

variable [DecidableEq κ]

theorem Links.Sound.setClient (h : s.Sound) {x : Client} (hx : Client.Fits s p x) :
    (s.setClient p x).Sound := by
  refine ⟨h.counted, h.bounded, h.running, fun q => ?_, h.closed, h.starting, h.fresh, h.known⟩
  have hfits : Client.Fits s q (Function.update s.client p x q) := by
    by_cases hq : q = p
    · subst q
      simpa using hx
    · simpa [hq] using h.clients q
  exact ⟨hfits.attached, hfits.leaving, hfits.passed⟩

theorem Links.Sound.fail (h : s.Sound) (hp : s.linked p = none) (shared : Option Nat) :
    (s.fail p shared).Sound := by
  have hsame : s.fail p shared = s.setClient p ⟨shared, .idle⟩ := by
    unfold Links.fail Links.setLinked Links.setClient
    rw [← hp, Function.update_eq_self]
  rw [hsame]
  exact h.setClient ⟨by simp [hp], by simp, by simp⟩

-- One process begins or ceases to be linked, and is counted for it.
theorem Links.Sound.relink (h : s.Sound) {count : Nat → Nat} {x : Client} {l : Option Nat}
    (hcounted : ∃ users : Finset κ, (∀ q, q ∈ users ↔ Function.update s.linked p l q = some o) ∧
      count (s.shm o).count = users.card)
    (hbound : count (s.shm o).count < 2 ^ 32) (hrun : (s.shm o).running = true)
    (hold : ∀ i, s.linked p = some i → i = o) (hnew : ∀ i, l = some i → i = o ∧ ¬s.Closed o)
    (hattached : ∀ i, l = some i → x.shared = some i ∧ x.pc = .idle)
    (hx : x.pc = .idle ∨ x.pc = .unmapping) :
    (((s.setShm o fun m => { m with count := count m.count }).setClient p x).setLinked p l).Sound := by
  have hother : ∀ i, i ≠ o →
      (s.setShm o fun m => { m with count := count m.count }).shm i = s.shm i := fun i hi =>
    Links.setShm_other hi _
  have hself : ((s.setShm o fun m => { m with count := count m.count }).shm o).count =
      count (s.shm o).count := congrArg Shm.count (Links.setShm_self _)
  have hsame : ∀ i, ((s.setShm o fun m => { m with count := count m.count }).shm i).running =
        (s.shm i).running ∧
      ((s.setShm o fun m => { m with count := count m.count }).shm i).shut = (s.shm i).shut := by
    intro i
    by_cases hio : i = o
    · subst hio
      rw [Links.setShm_self]
      exact ⟨rfl, rfl⟩
    · rw [hother i hio]
      exact ⟨rfl, rfl⟩
  have hlinked : ∀ q, q ≠ p → Function.update s.linked p l q = s.linked q := fun q hq =>
    Function.update_of_ne hq _ _
  have hnow : Function.update s.linked p l p = l := Function.update_self ..
  refine ⟨fun i => ?_, fun i => ?_, fun q i hq => ?_, fun q => ?_, fun i q hc => ?_,
    fun i hi hpc => ?_, fun i hi => ?_, h.known⟩
  · by_cases hio : i = o
    · subst hio
      obtain ⟨users, hmem, hcard⟩ := hcounted
      exact ⟨users, hmem, hself.trans hcard⟩
    · refine (h.counted i).congr (fun q => ?_) (congrArg Shm.count (hother i hio))
      change Function.update s.linked p l q = some i ↔ _
      by_cases hq : q = p
      · subst hq
        rw [hnow]
        exact iff_of_false (fun hl => hio (hnew i hl).1) fun hl => hio (hold i hl)
      · rw [hlinked q hq]
  · by_cases hio : i = o
    · subst hio
      exact hself.trans_lt hbound
    · exact (congrArg Shm.count (hother i hio)).trans_lt (h.bounded i)
  · change Function.update s.linked p l q = some i at hq
    refine (hsame i).1.trans ?_
    by_cases hqp : q = p
    · subst hqp
      obtain ⟨rfl, -⟩ := hnew i (hnow.symm.trans hq)
      exact hrun
    · exact h.running q i (hlinked q hqp ▸ hq)
  · by_cases hqp : q = p
    · subst hqp
      have hclient : Function.update s.client q x q = x := Function.update_self ..
      change Client.Fits _ q (Function.update s.client q x q)
      rw [hclient]
      refine ⟨fun i hi => ?_, fun hpc => ?_, fun hpc => ?_⟩
      · obtain ⟨hs, hpc⟩ := hattached i (hnow.symm.trans hi)
        exact ⟨hs, .inl hpc⟩
      · rcases hx with hx | hx <;> simp [hx] at hpc
      · rcases hx with hx | hx <;> simp [hx] at hpc
    · have hclient : Function.update s.client p x q = s.client q := Function.update_of_ne hqp _ _
      change Client.Fits _ q (Function.update s.client p x q)
      rw [hclient]
      exact (h.clients q).congr (hlinked q hqp) fun i hi => (hsame i).1.trans hi
  · have hclosed : s.Closed i := by
      rcases hc with hc | hc
      · exact .inl ((hsame i).2.symm.trans hc)
      · exact .inr hc
    intro hq
    change Function.update s.linked p l q = some i at hq
    by_cases hqp : q = p
    · subst hqp
      obtain ⟨rfl, hopen⟩ := hnew i (hnow.symm.trans hq)
      exact hopen hclosed
    · exact h.closed i q hclosed (hlinked q hqp ▸ hq)
  · exact (hsame i).1.trans (h.starting i hi hpc)
  · have hfresh := h.fresh i hi
    have hne : i ≠ o := by
      rintro rfl
      simp [hfresh, Shm.zeroed] at hrun
    exact (hother i hne).trans hfresh

theorem Links.Sound.join (h : s.Sound) (hpc : (s.client p).pc = .counting)
    (hs : (s.client p).shared = some o) (hbound : (s.shm o).count + 1 < 2 ^ 32)
    (hopen : ¬s.Closed o) :
    (((s.setShm o fun m => { m with count := inc m.count }).setClient p ⟨some o, .idle⟩).setLinked p
      (some o)).Sound := by
  have hnone : s.linked p = none := h.unlinked (by simp [hpc]) (by simp [hpc])
  obtain ⟨users, hmem, hcard⟩ := h.counted o
  have hnot : p ∉ users := by
    rw [hmem, hnone]
    simp
  have hinc : inc (s.shm o).count = (s.shm o).count + 1 := inc_of_lt hbound
  refine h.relink ⟨insert p users, fun q => ?_, ?_⟩ (hinc ▸ hbound)
    ((h.clients p).passed (.inr hpc) o hs) (by simp [hnone]) (by simp [hopen]) (by simp) (.inl rfl)
  · by_cases hq : q = p
    · simp [hq]
    · simp [hq, hmem]
  · rw [hinc, hcard, Finset.card_insert_of_notMem hnot]

theorem Links.Sound.leave (h : s.Sound) (hl : s.linked p = some o) :
    0 < (s.shm o).count ∧
    (((s.setShm o fun m => { m with count := dec m.count }).setClient p
      ⟨some o, .unmapping⟩).setLinked p none).Sound := by
  obtain ⟨users, hmem, hcard⟩ := h.counted o
  have hin : p ∈ users := (hmem p).mpr hl
  have hpos : 0 < (s.shm o).count := hcard ▸ Finset.card_pos.mpr ⟨p, hin⟩
  obtain ⟨n, hn⟩ : ∃ n, (s.shm o).count = n + 1 := ⟨(s.shm o).count - 1, by omega⟩
  have hbound := h.bounded o
  have hdec : dec (s.shm o).count = n := by
    rw [hn]
    apply dec_succ
    omega
  refine ⟨hpos, h.relink ⟨users.erase p, fun q => ?_, ?_⟩ (by omega) (h.running p o hl)
    (fun i hi => ?_) (by simp) (by simp) (.inr rfl)⟩
  · by_cases hq : q = p
    · simp [hq]
    · simp [hq, hmem]
  · rw [hdec, Finset.card_erase_of_mem hin]
    omega
  · exact Option.some.inj (hi.symm.trans hl)

omit [DecidableEq κ] in
theorem Links.Sound.openShm (h : s.Sound) :
    s.openShm.Sound ∧ ∀ o, s.openShm.name = some o → o < s.openShm.next := by
  suffices hs : s.openShm.Sound from ⟨hs, fun o ho => hs.known o (.inl ho)⟩
  unfold Links.openShm
  cases hname : s.name with
  | some o => exact h
  | none =>
      -- The new object was as fresh before: writing zeros to it changes nothing.
      have hsame : Function.update s.shm s.next Shm.zeroed = s.shm := by
        rw [← h.fresh s.next (Nat.le_refl _), Function.update_eq_self]
      simp only [hsame]
      refine ⟨h.counted, h.bounded, h.running, fun q => (h.clients q).congr rfl fun _ => id,
        h.closed, h.starting, fun o ho => h.fresh o (Nat.le_of_succ_le ho), fun o ho => ?_⟩
      rcases ho with ho | ho
      · obtain rfl := Option.some.inj ho
        exact Nat.lt_succ_self _
      · exact Nat.lt_succ_of_lt (h.known o (.inr ho))

omit [DecidableEq κ] in
theorem Links.Sound.alloc (h : s.Sound) (mapped : Bool) : (s.alloc mapped).Sound := by
  obtain ⟨hs, hknown⟩ := h.openShm
  unfold Links.alloc
  cases mapped with
  | false => exact hs.dropAdmin false
  | true =>
      have hname : ∃ o, s.openShm.name = some o := by
        unfold Links.openShm
        cases hn : s.name with
        | some o => exact ⟨o, hn⟩
        | none => exact ⟨s.next, rfl⟩
      obtain ⟨o, ho⟩ := hname
      rw [if_pos rfl, ho]
      exact hs.setAdmin (hknown o ho) (by simp) (by simp)

-- Each step of a client.
theorem Links.Sound.linkShm (h : s.Sound) (hl : s.linked p = none) {mapped : Bool} {s' : Links κ}
    (hact : Links.act (.linkShm p mapped) s = .ok s') : s'.Sound := by
  unfold Links.act Links.place Links.linkStep at hact
  dsimp only at hact
  cases hname : s.name with
  | none =>
      simp only [hname, Except.ok.injEq] at hact
      exact hact ▸ h.fail hl none
  | some o =>
      simp only [hname, Except.ok.injEq] at hact
      cases mapped with
      | false => exact hact ▸ h.fail hl none
      | true =>
          have hset := h.setClient (p := p) (x := ⟨some o, .checking⟩)
            ⟨by simp [hl], by simp, by simp⟩
          exact hact ▸ hset

theorem Links.Sound.linkCheck (h : s.Sound) (hpc : (s.client p).pc = .checking) {s' : Links κ}
    (hact : Links.act (.linkCheck p) s = .ok s') : s'.Sound := by
  have hl : s.linked p = none := h.unlinked (by simp [hpc]) (by simp [hpc])
  unfold Links.act Links.place Links.linkStep at hact
  dsimp only at hact
  cases hs : (s.client p).shared with
  | none => simp [hs] at hact
  | some o =>
      simp only [hs, Except.ok.injEq] at hact
      cases hrun : (s.shm o).running with
      | false =>
          simp only [hrun, Bool.false_eq_true, ite_false] at hact
          exact hact ▸ h.fail hl (some o)
      | true =>
          simp only [hrun, ite_true] at hact
          have hset := h.setClient (p := p) (x := ⟨some o, .attaching⟩)
            ⟨by simp [hl], by simp, by simp [hrun]⟩
          exact hact ▸ hset

theorem Links.Sound.linkInit (h : s.Sound) (hpc : (s.client p).pc = .attaching) {ok : Bool}
    {s' : Links κ} (hact : Links.act (.linkInit p ok) s = .ok s') : s'.Sound := by
  have hl : s.linked p = none := h.unlinked (by simp [hpc]) (by simp [hpc])
  unfold Links.act Links.place Links.linkStep at hact
  simp only [Except.ok.injEq] at hact
  cases ok with
  | false => exact hact ▸ h.fail hl (s.client p).shared
  | true =>
      have hset := h.setClient (p := p) (x := ⟨(s.client p).shared, .counting⟩)
        ⟨by simp [hl], by simp, fun _ => (h.clients p).passed (.inl hpc)⟩
      exact hact ▸ hset

theorem Links.Sound.linkCount (h : s.Sound) (hpc : (s.client p).pc = .counting) {s' : Links κ}
    (ha : Careful (.linkCount p) s) (hact : Links.act (.linkCount p) s = .ok s') : s'.Sound := by
  unfold Links.act Links.place Links.linkStep at hact
  dsimp only at hact
  cases hs : (s.client p).shared with
  | none => simp [hs] at hact
  | some o =>
      obtain ⟨hbound, hshut, hadmin⟩ := ha o hs
      have hopen : ¬s.Closed o := by
        rintro (hc | hc)
        · simp [hshut] at hc
        · exact hadmin hc
      simp only [hs, Except.ok.injEq] at hact
      exact hact ▸ h.join hpc hs hbound hopen

theorem Links.Sound.unlinkCheck (h : s.Sound) {s' : Links κ} (ha : Careful (.unlinkCheck p) s)
    (hact : Links.act (.unlinkCheck p) s = .ok s') : s'.Sound := by
  unfold Links.act Links.place Links.linkStep at hact
  dsimp only at hact
  cases hs : (s.client p).shared with
  | none =>
      simp only [hs, Except.ok.injEq] at hact
      exact hact ▸ h
  | some o =>
      simp only [hs, Except.ok.injEq] at hact
      cases hrun : (s.shm o).running with
      | false =>
          simp only [hrun, Bool.false_eq_true, ite_false] at hact
          exact hact ▸ h
      | true =>
          simp only [hrun, ite_true] at hact
          have hl : s.linked p ≠ none := fun hl => by simp [ha hl o hs] at hrun
          have hset := h.setClient (p := p) (x := ⟨some o, .uncounting⟩)
            ⟨fun i hi => ⟨hs.symm.trans ((h.clients p).attached i hi).1, .inr rfl⟩, fun _ => hl,
              by simp⟩
          exact hact ▸ hset

theorem Links.Sound.unlinkCount (h : s.Sound) (hpc : (s.client p).pc = .uncounting) {s' : Links κ}
    (hact : Links.act (.unlinkCount p) s = .ok s') : s'.Sound := by
  obtain ⟨o, hl⟩ := Option.ne_none_iff_exists'.mp ((h.clients p).leaving hpc)
  have hs := ((h.clients p).attached o hl).1
  unfold Links.act Links.place Links.linkStep at hact
  simp only [hs, Except.ok.injEq] at hact
  exact hact ▸ (h.leave hl).2

theorem Links.Sound.unlinkUnmap (h : s.Sound) (hpc : (s.client p).pc = .unmapping) {ok : Bool}
    {s' : Links κ} (hact : Links.act (.unlinkUnmap p ok) s = .ok s') : s'.Sound := by
  have hl : s.linked p = none := h.unlinked (by simp [hpc]) (by simp [hpc])
  unfold Links.act Links.place Links.linkStep at hact
  simp only [Except.ok.injEq] at hact
  have hset := h.setClient (p := p) (x := ⟨if ok then none else (s.client p).shared, .idle⟩)
    ⟨by simp [hl], by simp, by simp⟩
  exact hact ▸ hset

-- Nobody is linked to an object that is not running, or whose counter is zero.
theorem Links.Sound.nobody (h : s.Sound)
    (ho : (s.shm o).running = false ∨ (s.shm o).count = 0) (q : κ) : s.linked q ≠ some o := by
  intro hq
  rcases ho with ho | ho
  · simp [h.running q o hq] at ho
  · exact absurd (h.leave hq).1 (by omega)

-- Each step of the admin on the object its pointer leads to.
theorem Links.Sound.adminStep (h : s.Sound) {a : Call κ} {pc : AdminPc}
    (hplace : Links.place a = .inr pc) (hpc : s.admin.pc = pc) (hs : s.admin.shared = some o) :
    (s.adminStep o a).Sound := by
  have ho : o < s.next := h.known o (.inr hs)
  cases a with
  | initCheck =>
      apply h.setAdmin ho
      · split <;> simp
      · split
        · simp
        · rename_i hrun
          exact fun _ => by simpa using hrun
  | initSetup ok =>
      obtain rfl : pc = .setup := (Sum.inr.inj hplace).symm
      apply h.setAdmin ho
      · cases ok <;> simp
      · exact fun _ => h.starting o hs (.inl hpc)
  | initWake =>
      obtain rfl : pc = .waking := (Sum.inr.inj hplace).symm
      exact h.store ho (.inl rfl) id .inl (by simp) fun _ => h.starting o hs (.inr (.inl hpc))
  | initRun =>
      obtain rfl : pc = .starting := (Sum.inr.inj hplace).symm
      have hnobody := h.nobody (.inl (h.starting o hs (.inr (.inr hpc))))
      exact h.store ho (.inl rfl) (fun _ => rfl) .inl (fun _ => hnobody) (by simp)
  | initCount =>
      obtain rfl : pc = .resetting := (Sum.inr.inj hplace).symm
      have hnobody : ∀ p, s.linked p ≠ some o := fun p => h.closed o p (.inr ⟨hs, .inl hpc⟩)
      exact h.store ho (.inr ⟨rfl, hnobody⟩) id .inl (by simp) (by simp)
  | exitCheck => apply h.setAdmin ho <;> split <;> simp
  | exitWait =>
      apply h.setAdmin ho
      · split
        · rename_i hzero
          exact fun _ => h.nobody (.inr hzero)
        · simp
      · split <;> simp
  | exitShutdown =>
      obtain rfl : pc = .stopping := (Sum.inr.inj hplace).symm
      have hnobody : ∀ p, s.linked p ≠ some o := fun p => h.closed o p (.inr ⟨hs, .inr hpc⟩)
      exact h.store ho (.inl rfl) id (fun _ => .inr hnobody) (by simp) (by simp)
  | exitUnmap ok => apply h.setAdmin ho <;> cases ok <;> simp
  | exitUnlink ok =>
      cases ok with
      | false => exact h.setAdmin ho (by simp) (by simp)
      | true =>
          have hdrop := h.dropAdmin false
          refine ⟨hdrop.counted, hdrop.bounded, hdrop.running, fun q => ⟨(hdrop.clients q).attached,
            (hdrop.clients q).leaving, (hdrop.clients q).passed⟩, hdrop.closed, hdrop.starting,
            hdrop.fresh, fun i hi => ?_⟩
          simp [Links.adminStep, Links.setAdmin] at hi
  | _ => exact h

theorem Links.Sound.step (h : s.Sound) {a : Call κ} {s' : Links κ} (he : s.enabled a = true)
    (ha : Careful a s) (hact : Links.act a s = .ok s') : s'.Sound := by
  have hadmin : ∀ {pc}, Links.place a = .inr pc → s.admin.pc = pc := by
    intro pc hplace
    simpa [Links.enabled, hplace] using he
  have hclient : ∀ {p pc}, Links.place a = .inl (p, pc) → (s.client p).pc = pc := by
    intro p pc hplace
    simpa [Links.enabled, hplace] using he
  have hstep : ∀ {pc}, Links.place a = .inr pc → (match s.admin.shared with
      | none => Except.error Fault.nullDereference
      | some o => .ok (s.adminStep o a)) = .ok s' → s'.Sound := by
    intro pc hplace hact
    cases hs : s.admin.shared with
    | none => simp [hs] at hact
    | some o =>
        simp only [hs, Except.ok.injEq] at hact
        exact hact ▸ h.adminStep hplace (hadmin hplace) hs
  cases a with
  | linkShm p mapped => exact h.linkShm ha hact
  | linkCheck p => exact h.linkCheck (hclient rfl) hact
  | linkInit p ok => exact h.linkInit (hclient rfl) hact
  | linkCount p => exact h.linkCount (hclient rfl) ha hact
  | unlinkCheck p => exact h.unlinkCheck ha hact
  | unlinkCount p => exact h.unlinkCount (hclient rfl) hact
  | unlinkUnmap p ok => exact h.unlinkUnmap (hclient rfl) hact
  | initAlloc opened mapped =>
      unfold Links.act at hact
      simp only [Except.ok.injEq] at hact
      cases opened with
      | false => exact hact ▸ h.dropAdmin false
      | true => exact hact ▸ h.alloc mapped
  | exitCheck =>
      unfold Links.act at hact
      dsimp only at hact
      cases hs : s.admin.shared with
      | none =>
          simp only [hs, Except.ok.injEq] at hact
          exact hact ▸ h
      | some o =>
          cases hd : s.admin.dangling with
          | true => simp [hs, hd] at hact
          | false =>
              simp only [hs, hd, Bool.false_eq_true, ite_false, Except.ok.injEq] at hact
              exact hact ▸ h.adminStep rfl (hadmin rfl) hs
  | _ => exact hstep rfl hact

theorem Links.sound_of_reachable (h : (linking κ).Reachable Careful s) : s.Sound := by
  apply h.invariant
  · rintro s rfl
    refine ⟨fun o => ⟨∅, by simp, rfl⟩, fun o => ?_, by simp, fun p => ⟨by simp, by simp, by simp⟩,
      by simp, by simp, fun o _ => rfl, by simp⟩
    simp [Shm.zeroed]
  · intro s s' a hs he ha hact
    exact hs.step he ha hact

end Invariant

section Teardown

variable {κ : Type*} [DecidableEq κ] {s : Links κ}

theorem unlink_refused {p : κ} {s' : Links κ} (hl : s.linked p = none)
    (ha : Careful (.unlinkCheck p) s) (hact : Links.act (.unlinkCheck p) s = .ok s') : s' = s := by
  unfold Links.act Links.place Links.linkStep at hact
  dsimp only at hact
  cases hs : (s.client p).shared with
  | none =>
      simp only [hs, Except.ok.injEq] at hact
      exact hact.symm
  | some o =>
      simp only [hs, ha hl o hs, Bool.false_eq_true, ite_false, Except.ok.injEq] at hact
      exact hact.symm

-- In every careful run each counter says how many processes are linked, an unlink never takes
-- it below zero, one by a process that is not linked is refused, and nobody is linked to an
-- object from the moment that exit_ssd_cache goes to shut its worker down.
theorem teardown_unlinked (h : (linking κ).Reachable Careful s) :
    (∀ o, s.Counted o) ∧
    (∀ p, (s.client p).pc = .uncounting →
      ∃ o, (s.client p).shared = some o ∧ 0 < (s.shm o).count) ∧
    (∀ p s', s.linked p = none → Careful (.unlinkCheck p) s →
      Links.act (.unlinkCheck p) s = .ok s' → s' = s) ∧
    (∀ o p, (s.shm o).shut = true ∨ s.admin.shared = some o ∧ s.admin.pc = .stopping →
      s.linked p ≠ some o) := by
  have hs := Links.sound_of_reachable h
  refine ⟨hs.counted, fun p hpc => ?_, fun p s' hl ha hact => unlink_refused hl ha hact,
    fun o p hc => hs.closed o p ?_⟩
  · obtain ⟨o, hl⟩ := Option.ne_none_iff_exists'.mp ((hs.clients p).leaving hpc)
    exact ⟨o, ((hs.clients p).attached o hl).1, (hs.leave hl).1⟩
  · exact hc.imp_right fun ⟨ho, hpc⟩ => ⟨ho, .inr hpc⟩

def initCalls : List (Call Bool) :=
  [.initAlloc true true, .initCheck, .initSetup true, .initWake, .initRun, .initCount]

def linkCalls (p : Bool) : List (Call Bool) :=
  [.linkShm p true, .linkCheck p, .linkInit p true, .linkCount p]

def Links.boot : Links Bool :=
  ⟨fun _ => Shm.zeroed, 0, none, fun _ => ⟨none, .idle⟩, ⟨none, false, .idle⟩, fun _ => none⟩

-- Two processes link, and one of them unlinks.
theorem teardown_unlinked_twoLinks : ∃ s : Links Bool, (s.shm 0).count = 1 ∧
    s.linked false = some 0 ∧ s.Counted 0 := by
  have hrun : (((linking Bool).restrict Careful).run Links.boot (initCalls ++ linkCalls false ++
      linkCalls true ++ [.unlinkCheck true, .unlinkCount true, .unlinkUnmap true true])).any
      (fun s => (s.shm 0).count == 1 && s.linked false == some 0) = true := by decide +kernel
  have hstart : ((linking Bool).restrict Careful).Reachable System.Always Links.boot := .start rfl
  obtain ⟨s, hs, hp⟩ := hstart.exists_run (fun _ _ _ => trivial) hrun
  simp only [Bool.and_eq_true, beq_iff_eq] at hp
  obtain ⟨hcounted, -⟩ := teardown_unlinked hs.of_restrict
  exact ⟨s, hp.1, hp.2, hcounted 0⟩

-- The link of one process fails in init_spdk and the process unlinks all the same, so the worker
-- is shut down while another process is linked.
theorem failed_link_uncounts : ∃ s : Links Bool, (linking Bool).Reachable System.Always s ∧
    s.linked false = some 0 ∧ (s.shm 0).count = 0 ∧ (s.shm 0).shut = true ∧ ¬s.Counted 0 := by
  have hrun : ((linking Bool).run Links.boot (initCalls ++ linkCalls false ++
      [.linkShm true true, .linkCheck true, .linkInit true false, .unlinkCheck true,
        .unlinkCount true, .exitCheck, .exitWait, .exitShutdown])).any (fun s =>
      s.linked false == some 0 && (s.shm 0).count == 0 && (s.shm 0).shut) = true := by
    decide +kernel
  have hstart : (linking Bool).Reachable System.Always Links.boot := .start rfl
  obtain ⟨s, hs, hp⟩ := hstart.exists_run (fun _ _ _ => trivial) hrun
  simp only [Bool.and_eq_true, beq_iff_eq] at hp
  obtain ⟨⟨hl, hcount⟩, hshut⟩ := hp
  refine ⟨s, hs, hl, hcount, hshut, ?_⟩
  rintro ⟨users, hmem, hcard⟩
  have hin : false ∈ users := (hmem false).mpr hl
  have hpos := Finset.card_pos.mpr ⟨false, hin⟩
  omega

end Teardown

end UserPageCache.SsdCache.Linking
