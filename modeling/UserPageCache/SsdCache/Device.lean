import UserPageCache.SsdCache.Sequential

namespace UserPageCache.SsdCache

-- What the driver says of a namespace, with its size in bytes.
structure Namespace where
  active : Bool
  sectorSize : Nat
  size : Nat

-- A controller that the probe attaches, and what its active namespace ids lead to.
structure Controller where
  traddr : String
  namespaces : List (Option Namespace)

-- The controller and the namespace in use.
structure CtrlrEntry where
  ctrlr : Option Controller
  ns : Option Namespace
  isfind : Bool

-- How the driver comes up: the environment, and the controllers in the order of the probe
-- unless it fails.
structure Spdk where
  env : Bool
  probe : Option (List Controller)

section Spdk

def NVME_ADDR : String := "0000:06:00.0"

def resetCtrlrAndNs : CtrlrEntry := ⟨none, none, false⟩

def registerNs (target : CtrlrEntry) (ns : Namespace) : CtrlrEntry :=
  if !ns.active then target else { target with ns := some ns, isfind := true }

-- The first namespace that is there ends the search, also when it is not registered.
def attachNs (target : CtrlrEntry) : List (Option Namespace) → CtrlrEntry
  | [] => target
  | none :: rest => attachNs target rest
  | some ns :: _ => registerNs target ns

def attachCb (target : CtrlrEntry) (ctrlr : Controller) : CtrlrEntry :=
  if ctrlr.traddr ≠ NVME_ADDR then target
  else attachNs { target with ctrlr := some ctrlr } ctrlr.namespaces

def initSpdk (spdk : Spdk) : Option CtrlrEntry :=
  if !spdk.env then none
  else
    match spdk.probe with
    | none => none
    | some ctrlrs =>
      let target := ctrlrs.foldl attachCb resetCtrlrAndNs
      if target.isfind then some target else none

-- The two results stay as they are where no namespace was found.
def getDeviceInfo (target : CtrlrEntry) (blockSize deviceSize : Nat) : Nat × Nat :=
  match target.isfind, target.ns with
  | true, some ns => (ns.sectorSize, ns.size)
  | _, _ => (blockSize, deviceSize)

end Spdk

structure Device where
  blockSize : Nat
  deviceSize : Nat
  cacheBlockNum : Nat
  blockPerCblockShift : Nat
  blockPerPageShift : Nat

-- struct cache in the shared memory object.
structure SharedCache where
  running : Bool
  count : Nat
  dev : Device
  map : Mapping

def SharedCache.zeroed : SharedCache := ⟨false, 0, ⟨0, 0, 0, 0, 0⟩, zeroMapping⟩

def SharedCache.cache (s : SharedCache) : Cache := ⟨s.map, s.dev.blockPerPageShift⟩

section Init

def targetSize : Nat := CACHE_BLOCK_NUMBER * CACHE_BLOCK_SIZE

def buildDevice (target : CtrlrEntry) (dev : Device) : Device :=
  let (blockSize, deviceSize) := getDeviceInfo target dev.blockSize dev.deviceSize
  { blockSize := blockSize
    deviceSize := deviceSize
    cacheBlockNum := CACHE_BLOCK_NUMBER
    blockPerCblockShift := log2 (CACHE_BLOCK_SIZE / blockSize)
    blockPerPageShift := log2 (PAGE_SIZE / blockSize) }

-- What alloc_shm returns is what the object holds. A device that is refused has been described
-- in it all the same.
def initSsdCache (spdk : Spdk) : Option SharedCache → Option SharedCache × Nat
  | none => (none, 1)
  | some s =>
    if s.running then (some s, 1)
    else
      match initSpdk spdk with
      | none => (some s, 1)
      | some target =>
        let s := { s with dev := buildDevice target s.dev }
        if s.dev.deviceSize < targetSize then (some s, 1)
        else
          match initMapping s.map s.dev.blockSize s.dev.cacheBlockNum with
          | none => (some s, 1)
          | some map => (some { s with map := map, running := true, count := 0 }, 0)

end Init

-- A sector size that namespaces are formatted with: a power of two, at most a page.
def Namespace.Formatted (ns : Namespace) : Prop := ∃ e, 9 ≤ e ∧ e ≤ 12 ∧ ns.sectorSize = 2 ^ e

-- The namespace of a controller at the configured address that a search comes upon first.
def Spdk.Offers (spdk : Spdk) (ns : Namespace) : Prop :=
  ∃ ctrlrs ctrlr, spdk.probe = some ctrlrs ∧ ctrlr ∈ ctrlrs ∧ ctrlr.traddr = NVME_ADDR ∧
    ctrlr.namespaces.find? Option.isSome = some (some ns) ∧ ns.active = true

variable {spdk : Spdk} {target : CtrlrEntry} {ns : Namespace} {ctrlr : Controller}
  {ctrlrs : List Controller} {s : SharedCache}

section Search

-- Registering takes what the search finds first, or nothing.
theorem attachNs_eq (target : CtrlrEntry) (nss : List (Option Namespace)) :
    attachNs target nss = target ∨ ∃ ns, nss.find? Option.isSome = some (some ns) ∧
      ns.active = true ∧ attachNs target nss = { target with ns := some ns, isfind := true } := by
  induction nss with
  | nil => exact .inl rfl
  | cons found rest ih =>
      cases found with
      | none => simpa [attachNs] using ih
      | some ns =>
          cases ha : ns.active with
          | false => exact .inl (by simp [attachNs, registerNs, ha])
          | true => exact .inr ⟨ns, by simp, ha, by simp [attachNs, registerNs, ha]⟩

-- What is found was offered by a controller at the address.
def CtrlrEntry.Sound (target : CtrlrEntry) (spdk : Spdk) : Prop :=
  target.isfind = true → ∃ ns, target.ns = some ns ∧ spdk.Offers ns

theorem CtrlrEntry.Sound.attach (h : target.Sound spdk) (hp : spdk.probe = some ctrlrs)
    (hc : ctrlr ∈ ctrlrs) : (attachCb target ctrlr).Sound spdk := by
  unfold attachCb
  split
  · exact h
  · rename_i haddr
    rcases attachNs_eq { target with ctrlr := some ctrlr } ctrlr.namespaces with heq | hfound
    · rw [heq]
      exact h
    · obtain ⟨ns, hfind, ha, heq⟩ := hfound
      rw [heq]
      intro _
      exact ⟨ns, rfl, ctrlrs, ctrlr, hp, hc, not_not.mp haddr, hfind, ha⟩

theorem initSpdk_sound (h : initSpdk spdk = some target) :
    target.isfind = true ∧ ∃ ns, target.ns = some ns ∧ spdk.Offers ns := by
  unfold initSpdk at h
  split at h
  · cases h
  · split at h
    · cases h
    · rename_i ctrlrs hp
      have hall : ∀ l ⊆ ctrlrs, ∀ target : CtrlrEntry, target.Sound spdk →
          (l.foldl attachCb target).Sound spdk := by
        intro l
        induction l with
        | nil => exact fun _ target ht => ht
        | cons ctrlr rest ih =>
            intro hl target ht
            obtain ⟨hc, hrest⟩ := List.cons_subset.mp hl
            exact ih hrest _ (ht.attach hp hc)
      have hsound := hall ctrlrs (List.Subset.refl _) resetCtrlrAndNs
        (by simp [CtrlrEntry.Sound, resetCtrlrAndNs])
      simp only at h
      split at h
      · rename_i hfind
        obtain rfl := Option.some.inj h
        exact ⟨hfind, hsound hfind⟩
      · cases h

end Search

-- A successful init has found a namespace that is large enough, and leaves the cache booted for
-- its sectors.
theorem initSsdCache_booted {w : World} (h : initSsdCache spdk (some .zeroed) = (some s, 0))
    (hf : ∀ ns, spdk.Offers ns → ns.Formatted) (hw : w.sectorSize = s.dev.blockSize) :
    ∃ ns, spdk.Offers ns ∧ s.dev.blockSize = ns.sectorSize ∧ targetSize ≤ ns.size ∧
      Session.Booted ⟨s.cache, w⟩ ns.sectorSize CACHE_BLOCK_NUMBER := by
  unfold initSsdCache at h
  simp only [SharedCache.zeroed, Bool.false_eq_true, ite_false] at h
  cases hinit : initSpdk spdk with
  | none => simp [hinit] at h
  | some target =>
      obtain ⟨hfind, ns, hns, hoffer⟩ := initSpdk_sound hinit
      have hinfo : getDeviceInfo target 0 0 = (ns.sectorSize, ns.size) := by
        simp [getDeviceInfo, hfind, hns]
      simp only [hinit, buildDevice, hinfo] at h
      split at h
      · simp at h
      · rename_i hsize
        cases hmap : initMapping zeroMapping ns.sectorSize CACHE_BLOCK_NUMBER with
        | none => simp [hmap] at h
        | some map =>
            simp only [hmap, Prod.mk.injEq, Option.some.injEq, and_true] at h
            subst h
            exact ⟨ns, hoffer, rfl, Nat.not_lt.mp hsize, Nat.le_refl _, hf ns hoffer, hmap, rfl, hw⟩

theorem initMapping_some (m : Mapping) {blockSize cblockNum : Nat} (hb : blockSize ≠ 0)
    (hn : cblockNum ≠ 0) : ∃ m', initMapping m blockSize cblockNum = some m' := by
  unfold initMapping
  rw [if_neg (by simp [hb, hn])]
  exact ⟨_, rfl⟩

-- A namespace that is large enough is all that it takes.
theorem initSsdCache_found (h : initSpdk spdk = some target) (hns : target.ns = some ns)
    (hsize : targetSize ≤ ns.size) (hsector : ns.sectorSize ≠ 0) :
    ∃ s, initSsdCache spdk (some .zeroed) = (some s, 0) ∧ s.dev.blockSize = ns.sectorSize := by
  have hfind := (initSpdk_sound h).1
  have hinfo : getDeviceInfo target 0 0 = (ns.sectorSize, ns.size) := by
    simp [getDeviceInfo, hfind, hns]
  obtain ⟨map, hmap⟩ := initMapping_some zeroMapping hsector
    (show CACHE_BLOCK_NUMBER ≠ 0 by decide)
  unfold initSsdCache
  simp only [SharedCache.zeroed, Bool.false_eq_true, ite_false, h, buildDevice, hinfo]
  rw [if_neg (Nat.not_lt.mpr hsize), hmap]
  exact ⟨_, rfl, rfl⟩

end UserPageCache.SsdCache
