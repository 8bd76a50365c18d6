import Fsys.Base.Text

/-!
# Capability types (src/capability/types.rs)

`usize` is 64 bits wide, as on the hosts the probe targets.
-/

namespace Fsys.Capability

open Fsys.Base

/-- `PciAddress` (`types.rs:181-190`). -/
structure PciAddress where
  domain : UInt16
  bus : UInt8
  device : UInt8
  function : UInt8
  deriving DecidableEq, Repr

/-- `IoUringFeature` (`types.rs:254-273`). -/
inductive IoUringFeature where
  | fastPoll
  | registerBuffers
  | registerFiles
  | uringCmd
  | submitAll
  | coopTaskrun
  | singleIssuer
  | deferTaskrun
  | sqPoll
  deriving DecidableEq, Repr

namespace IoUringFeature

def asStr : IoUringFeature → Str
  | fastPoll => "fast_poll".toList
  | registerBuffers => "register_buffers".toList
  | registerFiles => "register_files".toList
  | uringCmd => "uring_cmd".toList
  | submitAll => "submit_all".toList
  | coopTaskrun => "coop_taskrun".toList
  | singleIssuer => "single_issuer".toList
  | deferTaskrun => "defer_taskrun".toList
  | sqPoll => "sqpoll".toList

def fromStrCanonical (s : Str) : Option IoUringFeature :=
  if s = "fast_poll".toList then some fastPoll
  else if s = "register_buffers".toList then some registerBuffers
  else if s = "register_files".toList then some registerFiles
  else if s = "uring_cmd".toList then some uringCmd
  else if s = "submit_all".toList then some submitAll
  else if s = "coop_taskrun".toList then some coopTaskrun
  else if s = "single_issuer".toList then some singleIssuer
  else if s = "defer_taskrun".toList then some deferTaskrun
  else if s = "sqpoll".toList then some sqPoll
  else none

theorem fromStrCanonical_asStr (f : IoUringFeature) : fromStrCanonical f.asStr = some f := by
  cases f <;> decide

end IoUringFeature

/-- `SpdkSkipReason` (`types.rs:344-424`). -/
inductive SpdkSkipReason where
  | notLinux
  | hugepagesNotConfigured (currentMb recommendedMb : UInt64)
  | insufficientPrivileges
  | noNvmeDevices
  | allDevicesInUse (devices : List PciAddress)
  | iommuNotConfigured
  | insufficientCores (available recommended : UInt64)
  | spdkLibraryNotFound
  deriving DecidableEq, Repr

/-- `SpdkEligibility` (`types.rs:325-335`). -/
structure SpdkEligibility where
  eligible : Bool
  reasonsFailed : List SpdkSkipReason
  eligibleDevices : List PciAddress
  deriving DecidableEq, Repr

/-- `HardwareSummary` (`types.rs:113-142`). -/
structure HardwareSummary where
  driveType : Str
  optimalBlockSize : UInt32
  queueDepth : UInt32
  sectorSizeLogical : UInt32
  sectorSizePhysical : UInt32
  ioUring : Bool
  nvmePassthrough : Bool
  directIo : Bool
  plpDetected : Bool
  deriving DecidableEq

/-- `Capabilities` (`types.rs:17-75`). -/
structure Capabilities where
  schemaVersion : UInt32
  fsysVersion : Str
  kernelVersion : Str
  osTarget : Str
  probedAtUnixSecs : UInt64
  ioUring : Bool
  ioUringFeatures : List IoUringFeature
  nvmePassthrough : Bool
  directIo : Bool
  plpDetected : Bool
  spdkEligible : Bool
  spdkSkipReasons : List SpdkSkipReason
  spdkEligibleDevices : List PciAddress
  hardware : HardwareSummary
  deriving DecidableEq

/-! ### PCI addresses as text (types.rs:205-240) -/

/-- `{:0<width>x}` -/
def hexPad (width n : ℕ) : Str := List.leftpad width '0' (Nat.toDigits 16 n)

namespace PciAddress

def toCanonical (a : PciAddress) : Str :=
  hexPad 4 a.domain.toNat ++ ':' :: hexPad 2 a.bus.toNat ++ ':' :: hexPad 2 a.device.toNat ++
    '.' :: hexPad 1 a.function.toNat

/-- The domain and the rest; an address with one `:` has no domain. -/
def parseDomain (s : Str) : Option (ℕ × Str) := do
  let (first, rest) ← splitOnce ':' s
  if ':' ∈ rest then
    let domain ← parseUnsigned 16 (2 ^ 16) first
    pure (domain, rest)
  else pure (0, s)

def parse (s : Str) : Option PciAddress := do
  let (domain, rest) ← parseDomain s
  let (busStr, devfunc) ← splitOnce ':' rest
  let bus ← parseUnsigned 16 (2 ^ 8) busStr
  let (devStr, funcStr) ← splitOnce '.' devfunc
  let device ← parseUnsigned 16 (2 ^ 8) devStr
  let function ← parseUnsigned 16 (2 ^ 8) funcStr
  pure ⟨.ofNat domain, .ofNat bus, .ofNat device, .ofNat function⟩

example : toCanonical ⟨0xABCD, 0xEF, 0x12, 5⟩ = "abcd:ef:12.5".toList := by decide

example : parse "1f:03.2".toList = some ⟨0, 0x1f, 3, 2⟩ := by decide

end PciAddress

end Fsys.Capability
