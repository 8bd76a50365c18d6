import Mathlib.Data.Char
import Mathlib.Data.List.Lex
import Fsys.Capability.Types

/-!
# The SPDK probe (src/capability/probe.rs)

Six checks over sysfs and procfs give the verdict, the reasons against it and the list of
devices. A device directory is looked up again under the canonical spelling of its address,
and a driver the probe does not know counts as no driver.
-/

namespace Fsys.Capability

open Fsys.Base

def spdkHugepageMinMb : ℕ := 256

def spdkHugepageRecommendedMb : ℕ := 1024

def spdkMinCores : ℕ := 4

/-- What the probe reads of the host. Names are as `to_string_lossy` gives them; a directory
entry that cannot be read is `none`; a link has the last component of its target, if any. -/
structure SysFiles where
  readToString : Str → Option Str
  readDir : Str → Option (List (Option Str))
  readLink : Str → Option (Option Str)
  uid : ℕ
  parallelism : Option UInt64

/-- `SysfsRoot` (`probe.rs:220-232`). -/
structure SysfsRoot where
  root : Str
  hugepagesOverrideMb : Option UInt64
  sysAdminOverride : Option Bool
  coresOverride : Option UInt64

/-- `DriverBinding` (`probe.rs:204-213`). -/
inductive DriverBinding where
  | unbound
  | kernelNvme
  | vfio
  | uio
  deriving DecidableEq, Repr

/-- `strip_prefix`. -/
def stripText (text s : Str) : Option Str :=
  if text.isPrefixOf s then some (s.drop text.length) else none

/-- `parse_meminfo_field` (`probe.rs:383-390`). -/
def parseMeminfoField (line field : Str) : Option ℕ := do
  let rest ← stripText field line
  let numPart := (trim rest).takeWhile fun c => (toDigit 10 c).isSome
  if numPart.isEmpty then none else parseUnsigned 10 (2 ^ 64) numPart

variable (sys : SysFiles) (root : SysfsRoot)

/-- The last line of each field counts (`probe.rs:257-264`). -/
def meminfoFields : List Str → Option ℕ × Option ℕ → Option ℕ × Option ℕ
  | [], acc => acc
  | line :: rest, (total, sizeKb) =>
    match parseMeminfoField line "HugePages_Total:".toList with
    | some v => meminfoFields rest (some v, sizeKb)
    | none =>
      match parseMeminfoField line "Hugepagesize:".toList with
      | some v => meminfoFields rest (total, some v)
      | none => meminfoFields rest (total, sizeKb)

def hugepagesTotalMb : UInt64 :=
  match root.hugepagesOverrideMb with
  | some v => v
  | none =>
    match sys.readToString (root.root ++ "/proc/meminfo".toList) with
    | none => 0
    | some contents =>
      match meminfoFields (lines contents) (none, none) with
      | (some total, some sizeKb) => .ofNat (min (total * sizeKb) (2 ^ 64 - 1) / 1024)
      | _ => 0

/-- The first `CapEff:` line that parses decides (`probe.rs:294-302`). -/
def capEff : List Str → Bool
  | [] => false
  | line :: rest =>
    match (stripText "CapEff:".toList line).bind fun mask => parseUnsigned 16 (2 ^ 64) (trim mask) with
    | some mask => mask.testBit 21
    | none => capEff rest

def hasSysAdminCapability : Bool :=
  match root.sysAdminOverride with
  | some v => v
  | none =>
    if sys.uid = 0 then true
    else
      match sys.readToString (root.root ++ "/proc/self/status".toList) with
      | none => false
      | some contents => capEff (lines contents)

def devicesPath : Str := root.root ++ "/sys/bus/pci/devices".toList

def classPath (name : Str) : Str := devicesPath root ++ '/' :: name ++ "/class".toList

def driverPath (name : Str) : Str := devicesPath root ++ '/' :: name ++ "/driver".toList

/-- The directory names an NVMe controller (`probe.rs:317-331`). -/
def nvmeAddress (name : Str) : Option PciAddress := do
  let pci ← PciAddress.parse name
  let cls ← sys.readToString (classPath root name)
  if "0x010802".toList.isPrefixOf (trim cls) then some pci else none

def enumerateNvmeDevices : List PciAddress :=
  match sys.readDir (devicesPath root) with
  | none => []
  | some entries =>
    ((entries.filterMap id).filterMap (nvmeAddress sys root)).mergeSort fun a b =>
      a.toCanonical ≤ b.toCanonical

/-- The driver a device directory links to; a target without a name is the empty name. -/
def driverOf (name : Str) : Option Str :=
  (sys.readLink (driverPath root name)).map fun target => target.getD []

def nvmeDriverBinding (pci : PciAddress) : DriverBinding :=
  match driverOf sys root pci.toCanonical with
  | none => .unbound
  | some name =>
    if name = "nvme".toList then .kernelNvme
    else if name = "vfio-pci".toList then .vfio
    else if name = "uio_pci_generic".toList then .uio
    else .unbound

def iommuGroupsPresent : Bool :=
  match sys.readDir (root.root ++ "/sys/kernel/iommu_groups".toList) with
  | none => false
  | some entries => !entries.isEmpty

def availableCores : UInt64 :=
  match root.coresOverride with
  | some v => v
  | none => sys.parallelism.getD 1

/-- The devices the loop of `probe.rs:86-93` puts on either list. -/
def eligibleAmong (devices : List PciAddress) : List PciAddress :=
  devices.filter fun dev => nvmeDriverBinding sys root dev ≠ .kernelNvme

def kernelBoundAmong (devices : List PciAddress) : List PciAddress :=
  devices.filter fun dev => nvmeDriverBinding sys root dev = .kernelNvme

/-- The reasons against SPDK in the order of the checks, for the devices found and the ones of
them that can and cannot be used (`probe.rs:63-115`). -/
def skipReasons (devices eligible kernelBound : List PciAddress) : List SpdkSkipReason :=
  (if (hugepagesTotalMb sys root).toNat < spdkHugepageMinMb then
    [.hugepagesNotConfigured (hugepagesTotalMb sys root) (.ofNat spdkHugepageRecommendedMb)]
  else []) ++
  (if hasSysAdminCapability sys root then [] else [.insufficientPrivileges]) ++
  (if devices.isEmpty then [.noNvmeDevices] else []) ++
  (if !devices.isEmpty && eligible.isEmpty then [.allDevicesInUse kernelBound] else []) ++
  (if iommuGroupsPresent sys root then [] else [.iommuNotConfigured]) ++
  (if (availableCores sys root).toNat < spdkMinCores then
    [.insufficientCores (availableCores sys root) (.ofNat spdkMinCores)]
  else [])

/-- `spdk_eligibility_with_root` (`probe.rs:54-121`). -/
def spdkEligibilityWithRoot (linux : Bool) : SpdkEligibility :=
  if linux = false then ⟨false, [.notLinux], []⟩
  else
    let devices := enumerateNvmeDevices sys root
    let eligible := eligibleAmong sys root devices
    let reasons := skipReasons sys root devices eligible (kernelBoundAmong sys root devices)
    ⟨reasons.isEmpty && !eligible.isEmpty, reasons, eligible⟩

/-! ### Devices and drivers -/

/-- An NVMe device of the tree: the name of its directory and its address. -/
def NvmeDevice (name : Str) (a : PciAddress) : Prop :=
  ∃ entries, sys.readDir (devicesPath root) = some entries ∧ some name ∈ entries ∧
    nvmeAddress sys root name = some a

/-- No driver, or one that hands the device to user space. -/
def UsableDriver (driver : Option Str) : Prop :=
  driver = none ∨ driver = some "vfio-pci".toList ∨ driver = some "uio_pci_generic".toList

theorem mem_enumerateNvmeDevices (a : PciAddress) :
    a ∈ enumerateNvmeDevices sys root ↔ ∃ name, NvmeDevice sys root name a := by
  unfold enumerateNvmeDevices NvmeDevice
  cases sys.readDir (devicesPath root) with
  | none => simp
  | some entries => simp [List.mem_mergeSort]

theorem nvmeDriverBinding_eq (a : PciAddress) :
    nvmeDriverBinding sys root a = .kernelNvme ↔
      driverOf sys root a.toCanonical = some "nvme".toList := by
  unfold nvmeDriverBinding
  cases driverOf sys root a.toCanonical with
  | none => simp
  | some name =>
    by_cases hn : name = "nvme".toList
    · simp [hn]
    · simp only [hn, if_false, Option.some.injEq, iff_false]
      split
      · simp
      · split <;> simp

theorem mem_eligibleAmong (a : PciAddress) :
    a ∈ eligibleAmong sys root (enumerateNvmeDevices sys root) ↔
      (∃ name, NvmeDevice sys root name a) ∧
        driverOf sys root a.toCanonical ≠ some "nvme".toList := by
  simp [eligibleAmong, mem_enumerateNvmeDevices, nvmeDriverBinding_eq]

theorem mem_kernelBoundAmong (a : PciAddress) :
    a ∈ kernelBoundAmong sys root (enumerateNvmeDevices sys root) ↔
      (∃ name, NvmeDevice sys root name a) ∧
        driverOf sys root a.toCanonical = some "nvme".toList := by
  simp [kernelBoundAmong, mem_enumerateNvmeDevices, nvmeDriverBinding_eq]

/-! ### The checks -/

/-- The checks that are not about devices pass. -/
def HostReady : Prop :=
  spdkHugepageMinMb ≤ (hugepagesTotalMb sys root).toNat ∧ hasSysAdminCapability sys root = true ∧
    iommuGroupsPresent sys root = true ∧ spdkMinCores ≤ (availableCores sys root).toNat

/-- With a usable device the reasons are those of the host. -/
theorem skipReasons_eq_nil {devices eligible kernelBound : List PciAddress}
    (hd : devices ≠ []) (he : eligible ≠ []) :
    skipReasons sys root devices eligible kernelBound = [] ↔ HostReady sys root := by
  unfold skipReasons HostReady
  simp [hd, he]

theorem allDevicesInUse_mem {devices eligible kernelBound ds : List PciAddress}
    (h : .allDevicesInUse ds ∈ skipReasons sys root devices eligible kernelBound) :
    ds = kernelBound := by
  unfold skipReasons at h
  simp only [List.mem_append] at h
  rcases h with ((((h | h) | h) | h) | h) | h
  all_goals
    split at h
    all_goals simp_all

/-! ### The verdict -/

/-- What the probe promises of its result. -/
structure SpdkVerdict (r : SpdkEligibility) : Prop where
  device : ∀ a ∈ r.eligibleDevices, ∃ name, NvmeDevice sys root name a
  listed : ∀ name a, NvmeDevice sys root name a →
    (a ∈ r.eligibleDevices ↔ UsableDriver (driverOf sys root name))
  eligible : r.eligible = true ↔ r.reasonsFailed = [] ∧ r.eligibleDevices ≠ []
  reasons : r.eligible = true → r.reasonsFailed = []
  empty : r.eligible = false → r.eligibleDevices = []
  inUse : ∀ ds, .allDevicesInUse ds ∈ r.reasonsFailed → ∀ a, a ∈ ds ↔
    ∃ name, NvmeDevice sys root name a ∧ ¬ UsableDriver (driverOf sys root name)

/-- The verdict of the code is the one of its two lists. -/
theorem eligible_iff : (spdkEligibilityWithRoot sys root true).eligible = true ↔
    (spdkEligibilityWithRoot sys root true).reasonsFailed = [] ∧
      (spdkEligibilityWithRoot sys root true).eligibleDevices ≠ [] := by
  simp [spdkEligibilityWithRoot]

/-- A usable device makes the host's own checks decide. -/
theorem reasonsFailed_eq_nil (h : (spdkEligibilityWithRoot sys root true).eligibleDevices ≠ []) :
    (spdkEligibilityWithRoot sys root true).reasonsFailed = [] ↔ HostReady sys root := by
  apply skipReasons_eq_nil sys root _ h
  intro hnil
  apply h
  show eligibleAmong sys root (enumerateNvmeDevices sys root) = []
  rw [hnil]
  rfl

/-- On Linux the promise is kept exactly when for every NVMe device the driver link under its
canonical name says `nvme` just if the device has a driver other than `vfio-pci` and
`uio_pci_generic`, and either the host passes its checks or no device is usable. -/
theorem spdk_verdict_iff (sys : SysFiles) (root : SysfsRoot) :
    SpdkVerdict sys root (spdkEligibilityWithRoot sys root true) ↔
      (∀ name a, NvmeDevice sys root name a →
        (driverOf sys root a.toCanonical = some "nvme".toList ↔
          ¬ UsableDriver (driverOf sys root name))) ∧
      (HostReady sys root ∨
        ∀ name a, NvmeDevice sys root name a → ¬ UsableDriver (driverOf sys root name)) := by
  have hmem := mem_eligibleAmong sys root
  have heligible := eligible_iff sys root
  constructor
  · intro h
    refine ⟨?_, ?_⟩
    · intro name a hdev
      rw [← h.listed name a hdev]
      show _ ↔ ¬ a ∈ eligibleAmong sys root _
      rw [hmem a]
      simp only [ne_eq, not_and, not_not]
      exact ⟨fun hn _ => hn, fun hn => hn ⟨name, hdev⟩⟩
    · by_cases hready : HostReady sys root
      · exact Or.inl hready
      · right
        intro name a hdev husable
        have hin := (h.listed name a hdev).mpr husable
        have hlist := List.ne_nil_of_mem hin
        -- the host fails a check, so the list has to be empty
        apply hlist
        apply h.empty
        rw [Bool.eq_false_iff]
        intro htrue
        exact hready ((reasonsFailed_eq_nil sys root hlist).mp (heligible.mp htrue).1)
  · intro h
    obtain ⟨hsees, hhost⟩ := h
    have hlisted : ∀ name a, NvmeDevice sys root name a →
        (a ∈ (spdkEligibilityWithRoot sys root true).eligibleDevices ↔
          UsableDriver (driverOf sys root name)) := by
      intro name a hdev
      refine (hmem a).trans ?_
      rw [ne_eq, hsees name a hdev, not_not]
      exact ⟨fun hl => hl.2, fun hu => ⟨⟨name, hdev⟩, hu⟩⟩
    refine ⟨fun a ha => ((hmem a).mp ha).1, hlisted, heligible, fun he => (heligible.mp he).1, ?_, ?_⟩
    · intro hfalse
      by_contra hne
      have hready : HostReady sys root := by
        cases hhost with
        | inl hready => exact hready
        | inr hnone =>
          obtain ⟨a, ha⟩ := List.exists_mem_of_ne_nil _ hne
          obtain ⟨name, hdev⟩ := ((hmem a).mp ha).1
          exact absurd ((hlisted name a hdev).mp ha) (hnone name a hdev)
      rw [heligible.mpr ⟨(reasonsFailed_eq_nil sys root hne).mpr hready, hne⟩] at hfalse
      cases hfalse
    · intro ds hds a
      rw [allDevicesInUse_mem sys root hds, mem_kernelBoundAmong]
      constructor
      · rintro ⟨⟨name, hdev⟩, hn⟩
        exact ⟨name, hdev, (hsees name a hdev).mp hn⟩
      · rintro ⟨name, hdev, hu⟩
        exact ⟨⟨name, hdev⟩, (hsees name a hdev).mpr hu⟩

/-- One NVMe device with this driver, and an IOMMU group. -/
def oneDevice (driver : Option Str) : SysFiles where
  readToString := fun path =>
    if path = "/sys/bus/pci/devices/0000:01:00.0/class".toList then some "0x010802\n".toList
    else none
  readDir := fun path =>
    if path = "/sys/bus/pci/devices".toList then some [some "0000:01:00.0".toList]
    else if path = "/sys/kernel/iommu_groups".toList then some [some "0".toList]
    else none
  readLink := fun path =>
    if path = "/sys/bus/pci/devices/0000:01:00.0/driver".toList then driver.map some else none
  uid := 0
  parallelism := some 8

/-- The live tree with this much memory in huge pages. -/
def hugepages (mb : UInt64) : SysfsRoot := ⟨[], some mb, none, none⟩

/-- A device that `pciback` holds is listed as eligible; and an unbound device is listed although
the host is not eligible. -/
theorem foreign_driver_is_listed :
    NvmeDevice (oneDevice (some "pciback".toList)) (hugepages 1024) "0000:01:00.0".toList
      ⟨0, 1, 0, 0⟩ ∧
    driverOf (oneDevice (some "pciback".toList)) (hugepages 1024) "0000:01:00.0".toList =
      some "pciback".toList ∧
    spdkEligibilityWithRoot (oneDevice (some "pciback".toList)) (hugepages 1024) true =
      ⟨true, [], [⟨0, 1, 0, 0⟩]⟩ ∧
    ¬ SpdkVerdict (oneDevice (some "pciback".toList)) (hugepages 1024)
      (spdkEligibilityWithRoot (oneDevice (some "pciback".toList)) (hugepages 1024) true) ∧
    spdkEligibilityWithRoot (oneDevice none) (hugepages 0) true =
      ⟨false, [.hugepagesNotConfigured 0 1024], [⟨0, 1, 0, 0⟩]⟩ ∧
    ¬ SpdkVerdict (oneDevice none) (hugepages 0)
      (spdkEligibilityWithRoot (oneDevice none) (hugepages 0) true) := by
  have hdev : NvmeDevice (oneDevice (some "pciback".toList)) (hugepages 1024)
      "0000:01:00.0".toList ⟨0, 1, 0, 0⟩ := ⟨_, rfl, List.mem_cons_self, rfl⟩
  have hdriver : driverOf (oneDevice (some "pciback".toList)) (hugepages 1024)
      "0000:01:00.0".toList = some "pciback".toList := rfl
  have hresult : spdkEligibilityWithRoot (oneDevice (some "pciback".toList)) (hugepages 1024)
      true = ⟨true, [], [⟨0, 1, 0, 0⟩]⟩ := by decide +kernel
  have hspare : spdkEligibilityWithRoot (oneDevice none) (hugepages 0) true =
      ⟨false, [.hugepagesNotConfigured 0 1024], [⟨0, 1, 0, 0⟩]⟩ := by decide +kernel
  refine ⟨hdev, hdriver, hresult, ?_, hspare, ?_⟩
  · intro h
    have husable := (h.listed _ _ hdev).mp (by
      rw [hresult]
      exact List.mem_cons_self)
    rw [hdriver] at husable
    revert husable
    unfold UsableDriver
    decide
  · intro h
    have hempty := h.empty (by rw [hspare])
    rw [hspare] at hempty
    cases hempty

end Fsys.Capability
