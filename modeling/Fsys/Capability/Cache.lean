import Fsys.Capability.TomlRoundTrip
import Fsys.Capability.Types

/-!
# The capability cache (src/capability/cache.rs)

A snapshot as a document and back. The setters of the document are called in the order of the
source.
-/

namespace Fsys.Capability

open Fsys.Base Fsys.TomlLite

/-! ### Skip reasons (cache.rs:408-473) -/

def skipReasonToToken : SpdkSkipReason → Str
  | .notLinux => "not_linux".toList
  | .hugepagesNotConfigured currentMb recommendedMb =>
    "hugepages_lt:".toList ++ decimal currentMb.toNat ++ ':' :: decimal recommendedMb.toNat
  | .insufficientPrivileges => "insufficient_privileges".toList
  | .noNvmeDevices => "no_nvme_devices".toList
  | .allDevicesInUse devices =>
    "all_devices_in_use:".toList ++ [','].intercalate (devices.map PciAddress.toCanonical)
  | .iommuNotConfigured => "iommu_not_configured".toList
  | .insufficientCores available recommended =>
    "insufficient_cores:".toList ++ decimal available.toNat ++ ':' :: decimal recommended.toNat
  | .spdkLibraryNotFound => "spdk_library_not_found".toList

/-- `str::parse::<u64>` -/
def parseU64 (s : Str) : Option UInt64 := (parseUnsigned 10 (2 ^ 64) s).map UInt64.ofNat

/-- Two numbers with a colon between them; other shapes fall through to the next test. -/
def parseCounts (s : Str) (reason : UInt64 → UInt64 → SpdkSkipReason)
    (otherwise : Option SpdkSkipReason) : Option SpdkSkipReason :=
  match s.splitOn ':' with
  | [first, second] =>
    (parseU64 first).bind fun a => (parseU64 second).map fun b => reason a b
  | _ => otherwise

def skipReasonFromToken (s : Str) : Option SpdkSkipReason :=
  let cores : Option SpdkSkipReason :=
    match stripPrefixText "insufficient_cores:".toList s with
    | some rest => parseCounts rest .insufficientCores none
    | none => none
  let devices : Option SpdkSkipReason :=
    match stripPrefixText "all_devices_in_use:".toList s with
    | some rest => some (.allDevicesInUse ((rest.splitOn ',').filterMap PciAddress.parse))
    | none => cores
  if s = "not_linux".toList then some .notLinux
  else if s = "insufficient_privileges".toList then some .insufficientPrivileges
  else if s = "no_nvme_devices".toList then some .noNvmeDevices
  else if s = "iommu_not_configured".toList then some .iommuNotConfigured
  else if s = "spdk_library_not_found".toList then some .spdkLibraryNotFound
  else match stripPrefixText "hugepages_lt:".toList s with
  | some rest => parseCounts rest .hugepagesNotConfigured devices
  | none => devices

/-! ### Writing (cache.rs:245-333) -/

def rootPlace (key : String) : Place := (none, key.toList)

def capabilityPlace (key : String) : Place := (some "capabilities".toList, key.toList)

def hardwarePlace (key : String) : Place := (some "hardware".toList, key.toList)

/-- `as i64` of an unsigned value. -/
def asI64 (n : ℕ) : Value := .integer (Int64.ofNat n)

/-- What `capabilities_to_document` sets, in order. -/
def capabilitiesEntries (caps : Capabilities) : List (Place × Value) :=
  [(rootPlace "schema_version", asI64 caps.schemaVersion.toNat),
    (rootPlace "fsys_version", .string caps.fsysVersion),
    (rootPlace "kernel_version", .string caps.kernelVersion),
    (rootPlace "os_target", .string caps.osTarget),
    (rootPlace "probed_at_unix_secs", asI64 caps.probedAtUnixSecs.toNat),
    (capabilityPlace "io_uring", .boolean caps.ioUring),
    (capabilityPlace "io_uring_features",
      .stringArray (caps.ioUringFeatures.map IoUringFeature.asStr)),
    (capabilityPlace "nvme_passthrough", .boolean caps.nvmePassthrough),
    (capabilityPlace "direct_io", .boolean caps.directIo),
    (capabilityPlace "plp_detected", .boolean caps.plpDetected),
    (capabilityPlace "spdk_eligible", .boolean caps.spdkEligible),
    (capabilityPlace "spdk_skip_reasons",
      .stringArray (caps.spdkSkipReasons.map skipReasonToToken)),
    (capabilityPlace "spdk_eligible_devices",
      .stringArray (caps.spdkEligibleDevices.map PciAddress.toCanonical)),
    (hardwarePlace "drive_type", .string caps.hardware.driveType),
    (hardwarePlace "optimal_block_size", asI64 caps.hardware.optimalBlockSize.toNat),
    (hardwarePlace "queue_depth", asI64 caps.hardware.queueDepth.toNat),
    (hardwarePlace "sector_size_logical", asI64 caps.hardware.sectorSizeLogical.toNat),
    (hardwarePlace "sector_size_physical", asI64 caps.hardware.sectorSizePhysical.toNat)]

/-- `set_root` or `set`, by the place. -/
def capabilitiesToDocument (caps : Capabilities) : Document :=
  Document.new.putAll (capabilitiesEntries caps)

/-! ### Reading (cache.rs:335-402) -/

/-- `u32::try_from` -/
def u32TryFrom (i : Int64) : Option UInt32 :=
  if 0 ≤ i.toInt ∧ i.toInt < 2 ^ 32 then some (UInt32.ofNat i.toInt.toNat) else none

/-- `u64::try_from` -/
def u64TryFrom (i : Int64) : Option UInt64 :=
  if 0 ≤ i.toInt then some (UInt64.ofNat i.toInt.toNat) else none

def documentToCapabilities (doc : Document) : Option Capabilities := do
  let schemaVersion ← (doc.rootInt "schema_version".toList).bind u32TryFrom
  let fsysVersion ← doc.rootString "fsys_version".toList
  let kernelVersion ← doc.rootString "kernel_version".toList
  let osTarget ← doc.rootString "os_target".toList
  let probedAtUnixSecs ← (doc.rootInt "probed_at_unix_secs".toList).bind u64TryFrom
  let capabilities := "capabilities".toList
  let ioUring ← doc.sectionBool capabilities "io_uring".toList
  let features ← doc.sectionStrings capabilities "io_uring_features".toList
  let ioUringFeatures := features.filterMap IoUringFeature.fromStrCanonical
  let nvmePassthrough ← doc.sectionBool capabilities "nvme_passthrough".toList
  let directIo ← doc.sectionBool capabilities "direct_io".toList
  let plpDetected ← doc.sectionBool capabilities "plp_detected".toList
  let spdkEligible ← doc.sectionBool capabilities "spdk_eligible".toList
  let reasons ← doc.sectionStrings capabilities "spdk_skip_reasons".toList
  let spdkSkipReasons := reasons.filterMap skipReasonFromToken
  let devices ← doc.sectionStrings capabilities "spdk_eligible_devices".toList
  let spdkEligibleDevices := devices.filterMap PciAddress.parse
  let hardware := "hardware".toList
  let driveType ← doc.sectionString hardware "drive_type".toList
  let optimalBlockSize ← (doc.sectionInt hardware "optimal_block_size".toList).bind u32TryFrom
  let queueDepth ← (doc.sectionInt hardware "queue_depth".toList).bind u32TryFrom
  let sectorSizeLogical ← (doc.sectionInt hardware "sector_size_logical".toList).bind u32TryFrom
  let sectorSizePhysical ← (doc.sectionInt hardware "sector_size_physical".toList).bind u32TryFrom
  pure {
    schemaVersion, fsysVersion, kernelVersion, osTarget, probedAtUnixSecs, ioUring
    ioUringFeatures, nvmePassthrough, directIo, plpDetected, spdkEligible, spdkSkipReasons
    spdkEligibleDevices
    hardware := {
      driveType, optimalBlockSize, queueDepth, sectorSizeLogical, sectorSizePhysical
      ioUring, nvmePassthrough, directIo, plpDetected } }

end Fsys.Capability
