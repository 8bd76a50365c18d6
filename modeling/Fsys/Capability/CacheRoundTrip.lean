import Fsys.Capability.Cache

/-!
# The cache reads back

Each encoder has its decoder: numbers, addresses, skip reasons, and the document of the whole
snapshot.
-/

namespace Fsys.Capability

open Fsys.Base Fsys.TomlLite

/-! ### Numbers -/

/-- The digits of the radixes in use are no separators. -/
def IsHexChar (c : Char) : Prop := ∃ d < 16, c = Nat.digitChar d

theorem IsHexChar.ne {c x : Char} (h : IsHexChar c) (hx : ∀ d : Fin 16, d.val.digitChar ≠ x) :
    c ≠ x := by
  obtain ⟨d, hd, hc⟩ := h
  rw [hc]
  exact hx ⟨d, hd⟩

theorem IsHexChar.not_mem {s : Str} (h : ∀ c ∈ s, IsHexChar c) {x : Char}
    (hx : ∀ d : Fin 16, d.val.digitChar ≠ x) : x ∉ s :=
  fun hmem => (h x hmem).ne hx rfl

theorem isHexChar_decimal (n : ℕ) : ∀ c ∈ decimal n, IsHexChar c := by
  intro c hc
  obtain ⟨d, hd, heq⟩ := mem_toDigits (by decide) hc
  exact ⟨d, by omega, heq⟩

theorem isHexChar_hexPad (width n : ℕ) : ∀ c ∈ hexPad width n, IsHexChar c := by
  intro c hc
  rw [hexPad, List.leftpad, List.mem_append] at hc
  cases hc with
  | inl h => exact ⟨0, by decide, (List.mem_replicate.mp h).2⟩
  | inr h => exact mem_toDigits (by decide) h

theorem parseUnsigned_eq {radix bound n : ℕ} {s : Str} (hs : ∀ c ∈ s, IsHexChar c)
    (hne : s ≠ []) (hvalue : digitsValue radix 0 s = some n) (hn : n < bound) :
    parseUnsigned radix bound s = some n := by
  have hplus : s.head? ≠ some '+' := by
    intro h
    exact (hs '+' (List.mem_of_head? h)).ne (by decide) rfl
  simp [parseUnsigned, hplus, hne, hvalue, Option.filter, hn]

theorem digitsValue_zeros (radix k : ℕ) (hradix : 0 < radix) (s : Str) :
    digitsValue radix 0 (List.replicate k '0' ++ s) = digitsValue radix 0 s := by
  induction k with
  | zero => rfl
  | succ k ih =>
    have hzero : toDigit radix '0' = some 0 := by
      simp [toDigit, Option.filter, hradix]
    simp [List.replicate_succ, digitsValue, hzero, ih]

theorem parseUnsigned_hexPad {width bound n : ℕ} (hn : n < bound) :
    parseUnsigned 16 bound (hexPad width n) = some n := by
  apply parseUnsigned_eq (isHexChar_hexPad width n) _ _ hn
  · simp [hexPad, List.leftpad, Nat.toDigits_ne_nil]
  · rw [hexPad, List.leftpad, digitsValue_zeros 16 _ (by decide),
      digitsValue_toDigits (by decide) (by decide)]

theorem parseU64_decimal (n : UInt64) : parseU64 (decimal n.toNat) = some n := by
  have h : parseUnsigned 10 (2 ^ 64) (decimal n.toNat) = some n.toNat := by
    apply parseUnsigned_eq (isHexChar_decimal _) Nat.toDigits_ne_nil _ n.toNat_lt
    exact digitsValue_toDigits (by decide) (by decide) _
  rw [parseU64, h]
  simp

/-! ### Addresses -/

theorem PciAddress.parse_toCanonical (a : PciAddress) : parse a.toCanonical = some a := by
  have hcolon : ∀ w n, ':' ∉ hexPad w n := fun w n =>
    IsHexChar.not_mem (isHexChar_hexPad w n) (by decide)
  have hdot : ∀ w n, '.' ∉ hexPad w n := fun w n =>
    IsHexChar.not_mem (isHexChar_hexPad w n) (by decide)
  have htext : a.toCanonical = hexPad 4 a.domain.toNat ++ ':' :: (hexPad 2 a.bus.toNat ++ ':' ::
      (hexPad 2 a.device.toNat ++ '.' :: hexPad 1 a.function.toNat)) := by
    simp [toCanonical]
  have hdomain : parseUnsigned 16 (2 ^ 16) (hexPad 4 a.domain.toNat) = some a.domain.toNat :=
    parseUnsigned_hexPad a.domain.toNat_lt
  have hbyte : ∀ (w : ℕ) (b : UInt8), parseUnsigned 16 (2 ^ 8) (hexPad w b.toNat) = some b.toNat :=
    fun w b => parseUnsigned_hexPad b.toNat_lt
  simp only [parse, parseDomain, htext, splitOnce_append (hcolon _ _), splitOnce_append (hdot _ _),
    hdomain, hbyte, Option.bind_eq_bind, Option.bind_some, List.mem_append, List.mem_cons,
    true_or, or_true, if_true, Option.pure_def]
  simp

theorem comma_not_mem_toCanonical (a : PciAddress) : ',' ∉ a.toCanonical := by
  have hcomma : ∀ w n, ',' ∉ hexPad w n := fun w n =>
    IsHexChar.not_mem (isHexChar_hexPad w n) (by decide)
  simp [PciAddress.toCanonical, hcomma]

theorem filterMap_parse_toCanonical (devices : List PciAddress) :
    (devices.map PciAddress.toCanonical).filterMap PciAddress.parse = devices := by
  rw [List.filterMap_map]
  simp [PciAddress.parse_toCanonical]

/-! ### Skip reasons -/

theorem stripPrefixText_append (p s : Str) : stripPrefixText p (p ++ s) = some s := by
  simp [stripPrefixText]

theorem parseCounts_eq (a b : UInt64) (reason : UInt64 → UInt64 → SpdkSkipReason)
    (otherwise : Option SpdkSkipReason) :
    parseCounts (decimal a.toNat ++ ':' :: decimal b.toNat) reason otherwise =
      some (reason a b) := by
  have hcolon : ∀ n, ':' ∉ decimal n := fun n =>
    IsHexChar.not_mem (isHexChar_decimal n) (by decide)
  have hsplit : (decimal a.toNat ++ ':' :: decimal b.toNat).splitOn ':' =
      [decimal a.toNat, decimal b.toNat] := by
    rw [List.splitOn_append_cons_self_of_not_mem (hcolon _), List.splitOn_eq_singleton (hcolon _)]
  simp [parseCounts, hsplit, parseU64_decimal]

theorem splitOn_devices (devices : List PciAddress) :
    (([','].intercalate (devices.map PciAddress.toCanonical)).splitOn ',').filterMap
      PciAddress.parse = devices := by
  cases devices with
  | nil => decide
  | cons d devices =>
    rw [List.splitOn_intercalate _ _ (by simp), filterMap_parse_toCanonical]
    intro s hs
    obtain ⟨a, -, ha⟩ := List.mem_map.mp hs
    exact ha ▸ comma_not_mem_toCanonical a

theorem skipReasonFromToken_toToken (r : SpdkSkipReason) :
    skipReasonFromToken (skipReasonToToken r) = some r := by
  obtain ⟨s, hs⟩ : ∃ s, s = skipReasonToToken r := ⟨_, rfl⟩
  rw [← hs, skipReasonFromToken.eq_def]
  cases r with
  | notLinux =>
    change s = "not_linux".toList at hs
    rw [if_pos hs]
  | insufficientPrivileges =>
    change s = "insufficient_privileges".toList at hs
    rw [if_neg (by simp [hs]), if_pos hs]
  | noNvmeDevices =>
    change s = "no_nvme_devices".toList at hs
    rw [if_neg (by simp [hs]), if_neg (by simp [hs]), if_pos hs]
  | iommuNotConfigured =>
    change s = "iommu_not_configured".toList at hs
    rw [if_neg (by simp [hs]), if_neg (by simp [hs]), if_neg (by simp [hs]), if_pos hs]
  | spdkLibraryNotFound =>
    change s = "spdk_library_not_found".toList at hs
    rw [if_neg (by simp [hs]), if_neg (by simp [hs]), if_neg (by simp [hs]),
      if_neg (by simp [hs]), if_pos hs]
  | hugepagesNotConfigured a b =>
    change s = "hugepages_lt:".toList ++ decimal a.toNat ++ ':' :: decimal b.toNat at hs
    have hrest : stripPrefixText "hugepages_lt:".toList s =
        some (decimal a.toNat ++ ':' :: decimal b.toNat) := by
      rw [hs, List.append_assoc, stripPrefixText_append]
    simp only [hrest, parseCounts_eq]
    rw [if_neg, if_neg, if_neg, if_neg, if_neg] <;> simp [hs]
  | allDevicesInUse devices =>
    change s = "all_devices_in_use:".toList ++
      [','].intercalate (devices.map PciAddress.toCanonical) at hs
    have hrest : stripPrefixText "all_devices_in_use:".toList s =
        some ([','].intercalate (devices.map PciAddress.toCanonical)) := by
      rw [hs, stripPrefixText_append]
    have hpages : stripPrefixText "hugepages_lt:".toList s = none := by
      rw [stripPrefixText, if_neg]
      simp [hs]
    simp only [hrest, hpages, splitOn_devices]
    rw [if_neg, if_neg, if_neg, if_neg, if_neg] <;> simp [hs]
  | insufficientCores a b =>
    change s = "insufficient_cores:".toList ++ decimal a.toNat ++ ':' :: decimal b.toNat at hs
    have hrest : stripPrefixText "insufficient_cores:".toList s =
        some (decimal a.toNat ++ ':' :: decimal b.toNat) := by
      rw [hs, List.append_assoc, stripPrefixText_append]
    have hpages : stripPrefixText "hugepages_lt:".toList s = none := by
      rw [stripPrefixText, if_neg]
      simp [hs]
    have hdevices : stripPrefixText "all_devices_in_use:".toList s = none := by
      rw [stripPrefixText, if_neg]
      simp [hs]
    simp only [hrest, hpages, hdevices, parseCounts_eq]
    rw [if_neg, if_neg, if_neg, if_neg, if_neg] <;> simp [hs]

/-! ### What is written is text -/

theorem isText_append {s t : Str} (hs : IsText s) (ht : IsText t) : IsText (s ++ t) := by
  intro c hc
  cases List.mem_append.mp hc with
  | inl h => exact hs c h
  | inr h => exact ht c h

theorem isText_of_all {s : Str} (h : s.all (fun c => 0x20 ≤ c.toNat) = true) : IsText s := by
  intro c hc
  have hcode := List.all_eq_true.mp h c hc
  exact .inl (by simpa using hcode)

theorem isText_of_hex {s : Str} (h : ∀ c ∈ s, IsHexChar c) : IsText s := by
  intro c hc
  obtain ⟨d, hd, heq⟩ := h c hc
  have hcode : ∀ d : Fin 16, 0x20 ≤ d.val.digitChar.toNat := by decide
  exact .inl (heq ▸ hcode ⟨d, hd⟩)

theorem isText_cons {c : Char} (hc : 0x20 ≤ c.toNat) {s : Str} (hs : IsText s) :
    IsText (c :: s) := by
  intro x hx
  cases List.mem_cons.mp hx with
  | inl h => exact .inl (h ▸ hc)
  | inr h => exact hs x h

theorem isText_toCanonical (a : PciAddress) : IsText a.toCanonical := by
  have hhex : ∀ w n, IsText (hexPad w n) := fun w n => isText_of_hex (isHexChar_hexPad w n)
  unfold PciAddress.toCanonical
  apply isText_append
  · apply isText_append
    · exact isText_append (hhex _ _) (isText_cons (by decide) (hhex _ _))
    · exact isText_cons (by decide) (hhex _ _)
  · exact isText_cons (by decide) (hhex _ _)

theorem isText_asStr (f : IoUringFeature) : IsText f.asStr := by
  apply isText_of_all
  cases f <;> decide

theorem isText_intercalate {items : List Str} (h : ∀ s ∈ items, IsText s) :
    IsText ([','].intercalate items) := by
  induction items with
  | nil => simp [IsText]
  | cons s items ih =>
    have hs := h s (by simp)
    have hitems := ih fun t ht => h t (List.mem_cons_of_mem s ht)
    cases items with
    | nil => simpa using hs
    | cons t items =>
      have hall := isText_append hs (isText_cons (c := ',') (by decide) hitems)
      simpa using hall

theorem isText_skipReasonToToken (r : SpdkSkipReason) : IsText (skipReasonToToken r) := by
  have hcounts : ∀ (p : Str) (a b : ℕ), IsText p → IsText (p ++ decimal a ++ ':' :: decimal b) := by
    intro p a b hp
    have hdec : ∀ n, IsText (decimal n) := fun n => isText_of_hex (isHexChar_decimal n)
    exact isText_append (isText_append hp (hdec a)) (isText_cons (by decide) (hdec b))
  cases r with
  | notLinux => exact isText_of_all (by decide)
  | insufficientPrivileges => exact isText_of_all (by decide)
  | noNvmeDevices => exact isText_of_all (by decide)
  | iommuNotConfigured => exact isText_of_all (by decide)
  | spdkLibraryNotFound => exact isText_of_all (by decide)
  | hugepagesNotConfigured a b => exact hcounts "hugepages_lt:".toList _ _ (by simp [IsText])
  | insufficientCores a b => exact hcounts "insufficient_cores:".toList _ _ (by simp [IsText])
  | allDevicesInUse devices =>
    have hprefix : IsText "all_devices_in_use:".toList := by simp [IsText]
    apply isText_append hprefix
    apply isText_intercalate
    intro s hs
    obtain ⟨a, -, ha⟩ := List.mem_map.mp hs
    exact ha ▸ isText_toCanonical a

/-! ### Fields -/

/-- The type of a field of the snapshot. -/
inductive FieldKind where
  | string
  | u32
  | u64
  | boolean
  | strings
  deriving DecidableEq

/-- The value is of the field's kind and in its range. -/
def FieldKind.Fits : FieldKind → Value → Prop
  | .string, .string _ => True
  | .u32, .integer i => 0 ≤ i.toInt ∧ i.toInt < 2 ^ 32
  | .u64, .integer i => 0 ≤ i.toInt ∧ i.toInt < 2 ^ 64
  | .boolean, .boolean _ => True
  | .strings, .stringArray _ => True
  | _, _ => False

def fieldKinds : List (Place × FieldKind) :=
  [(rootPlace "schema_version", .u32), (rootPlace "fsys_version", .string),
    (rootPlace "kernel_version", .string), (rootPlace "os_target", .string),
    (rootPlace "probed_at_unix_secs", .u64), (capabilityPlace "io_uring", .boolean),
    (capabilityPlace "io_uring_features", .strings),
    (capabilityPlace "nvme_passthrough", .boolean), (capabilityPlace "direct_io", .boolean),
    (capabilityPlace "plp_detected", .boolean), (capabilityPlace "spdk_eligible", .boolean),
    (capabilityPlace "spdk_skip_reasons", .strings),
    (capabilityPlace "spdk_eligible_devices", .strings), (hardwarePlace "drive_type", .string),
    (hardwarePlace "optimal_block_size", .u32), (hardwarePlace "queue_depth", .u32),
    (hardwarePlace "sector_size_logical", .u32), (hardwarePlace "sector_size_physical", .u32)]

theorem places_eq (caps : Capabilities) :
    (capabilitiesEntries caps).map Prod.fst = fieldKinds.map Prod.fst := rfl

theorem nodup_places : (fieldKinds.map Prod.fst).Nodup := by decide +kernel

theorem validPlace_of_field {f : Place × FieldKind} (h : f ∈ fieldKinds) : ValidPlace f.1 := by
  have hall : ∀ f ∈ fieldKinds, isValidKey f.1.2 = true ∧
      (f.1.1 = none ∨ (f.1.1.getD []) = "capabilities".toList ∨
        (f.1.1.getD []) = "hardware".toList) := by decide +kernel
  obtain ⟨hkey, hsection⟩ := hall f h
  refine ⟨hkey, ?_⟩
  intro s hs
  rw [hs] at hsection
  obtain hnone | hcap | hhard := hsection
  · cases hnone
  · rw [Option.getD_some] at hcap
    rw [hcap]
    decide +kernel
  · rw [Option.getD_some] at hhard
    rw [hhard]
    decide +kernel

/-- The flags of the hardware summary are those of the snapshot, as the probe builds it. -/
structure Mirrored (caps : Capabilities) : Prop where
  ioUring : caps.hardware.ioUring = caps.ioUring
  nvmePassthrough : caps.hardware.nvmePassthrough = caps.nvmePassthrough
  directIo : caps.hardware.directIo = caps.directIo
  plpDetected : caps.hardware.plpDetected = caps.plpDetected

structure PlainStrings (caps : Capabilities) : Prop where
  fsysVersion : IsText caps.fsysVersion
  kernelVersion : IsText caps.kernelVersion
  osTarget : IsText caps.osTarget
  driveType : IsText caps.hardware.driveType

theorem printable_entries {caps : Capabilities} (h : PlainStrings caps) :
    ∀ e ∈ capabilitiesEntries caps, e.2.Printable := by
  have hfeatures : ∀ s ∈ caps.ioUringFeatures.map IoUringFeature.asStr, IsText s := by
    intro s hs
    obtain ⟨f, -, hf⟩ := List.mem_map.mp hs
    exact hf ▸ isText_asStr f
  have hreasons : ∀ s ∈ caps.spdkSkipReasons.map skipReasonToToken, IsText s := by
    intro s hs
    obtain ⟨r, -, hr⟩ := List.mem_map.mp hs
    exact hr ▸ isText_skipReasonToToken r
  have hdevices : ∀ s ∈ caps.spdkEligibleDevices.map PciAddress.toCanonical, IsText s := by
    intro s hs
    obtain ⟨a, -, ha⟩ := List.mem_map.mp hs
    exact ha ▸ isText_toCanonical a
  simp only [capabilitiesEntries, List.forall_mem_cons, Value.Printable, asI64]
  exact ⟨trivial, h.fsysVersion, h.kernelVersion, h.osTarget, trivial, trivial, hfeatures, trivial,
    trivial, trivial, trivial, hreasons, hdevices, h.driveType, trivial, trivial, trivial, trivial,
    by simp⟩

theorem accepted_capabilitiesToDocument {caps : Capabilities} (h : PlainStrings caps) :
    (capabilitiesToDocument caps).Accepted := by
  apply accepted_new.putAll
  intro e he
  refine ⟨?_, printable_entries h e he⟩
  have hplace : e.1 ∈ fieldKinds.map Prod.fst := by
    rw [← places_eq caps]
    exact List.mem_map_of_mem he
  obtain ⟨f, hf, hfe⟩ := List.mem_map.mp hplace
  exact hfe ▸ validPlace_of_field hf

theorem lookup_capabilitiesToDocument (caps : Capabilities) {e : Place × Value}
    (he : e ∈ capabilitiesEntries caps) :
    (capabilitiesToDocument caps).lookup e.1 = some e.2 := by
  apply Document.lookup_putAll _ he
  rw [places_eq]
  exact nodup_places

/-! ### Reading the fields -/

section Accessors

variable {doc : Document} {key : String}

theorem rootInt_eq {i : Int64} (h : doc.lookup (rootPlace key) = some (.integer i)) :
    doc.rootInt key.toList = some i := by
  have hget : doc.root.get key.toList = some (.integer i) := h
  simp [Document.rootInt, hget, Value.asInt]

theorem rootString_eq {s : Str} (h : doc.lookup (rootPlace key) = some (.string s)) :
    doc.rootString key.toList = some s := by
  have hget : doc.root.get key.toList = some (.string s) := h
  simp [Document.rootString, hget, Value.asString]

theorem sectionBool_eq {b : Bool} (h : doc.lookup (capabilityPlace key) = some (.boolean b)) :
    doc.sectionBool "capabilities".toList key.toList = some b := by
  have hget : doc.sectionValue "capabilities".toList key.toList = some (.boolean b) := h
  rw [Document.sectionBool, hget]
  rfl

theorem sectionStrings_eq {v : List Str}
    (h : doc.lookup (capabilityPlace key) = some (.stringArray v)) :
    doc.sectionStrings "capabilities".toList key.toList = some v := by
  have hget : doc.sectionValue "capabilities".toList key.toList = some (.stringArray v) := h
  rw [Document.sectionStrings, hget]
  rfl

theorem sectionString_eq {s : Str} (h : doc.lookup (hardwarePlace key) = some (.string s)) :
    doc.sectionString "hardware".toList key.toList = some s := by
  have hget : doc.sectionValue "hardware".toList key.toList = some (.string s) := h
  rw [Document.sectionString, hget]
  rfl

theorem sectionInt_eq {i : Int64} (h : doc.lookup (hardwarePlace key) = some (.integer i)) :
    doc.sectionInt "hardware".toList key.toList = some i := by
  have hget : doc.sectionValue "hardware".toList key.toList = some (.integer i) := h
  rw [Document.sectionInt, hget]
  rfl

end Accessors

theorem u32TryFrom_asI64 (n : UInt32) : u32TryFrom (Int64.ofNat n.toNat) = some n := by
  have hlt : n.toNat < 2 ^ 32 := n.toNat_lt
  have hint : (Int64.ofNat n.toNat).toInt = n.toNat := Int64.toInt_ofNat_of_lt (by omega)
  have hrange : 0 ≤ (n.toNat : ℤ) ∧ (n.toNat : ℤ) < 2 ^ 32 := by omega
  rw [u32TryFrom, hint, if_pos hrange]
  simp

theorem u64TryFrom_asI64 {n : UInt64} (h : n.toNat < 2 ^ 63) :
    u64TryFrom (Int64.ofNat n.toNat) = some n := by
  have hint : (Int64.ofNat n.toNat).toInt = n.toNat := Int64.toInt_ofNat_of_lt h
  rw [u64TryFrom, hint, if_pos (by omega)]
  simp

theorem documentToCapabilities_eq {doc : Document} {caps : Capabilities}
    (hlook : ∀ e ∈ capabilitiesEntries caps, doc.lookup e.1 = some e.2) (hmirror : Mirrored caps)
    (hprobed : caps.probedAtUnixSecs.toNat < 2 ^ 63) :
    documentToCapabilities doc = some caps := by
  simp only [capabilitiesEntries, List.forall_mem_cons, asI64] at hlook
  obtain ⟨h1, h2, h3, h4, h5, h6, h7, h8, h9, h10, h11, h12, h13, h14, h15, h16, h17, h18, -⟩ :=
    hlook
  have hfeatures : (caps.ioUringFeatures.map IoUringFeature.asStr).filterMap
      IoUringFeature.fromStrCanonical = caps.ioUringFeatures := by
    rw [List.filterMap_map]
    simp [IoUringFeature.fromStrCanonical_asStr]
  have hreasons : (caps.spdkSkipReasons.map skipReasonToToken).filterMap skipReasonFromToken =
      caps.spdkSkipReasons := by
    rw [List.filterMap_map]
    simp [skipReasonFromToken_toToken]
  unfold documentToCapabilities
  simp only [rootInt_eq h1, rootString_eq h2, rootString_eq h3, rootString_eq h4, rootInt_eq h5,
    sectionBool_eq h6, sectionStrings_eq h7, sectionBool_eq h8, sectionBool_eq h9,
    sectionBool_eq h10, sectionBool_eq h11, sectionStrings_eq h12, sectionStrings_eq h13,
    sectionString_eq h14, sectionInt_eq h15, sectionInt_eq h16, sectionInt_eq h17,
    sectionInt_eq h18, Option.bind_some, u32TryFrom_asI64, u64TryFrom_asI64 hprobed,
    Option.bind_eq_bind, Option.pure_def, hfeatures, hreasons, filterMap_parse_toCanonical]
  have hhardware : (⟨caps.hardware.driveType, caps.hardware.optimalBlockSize,
      caps.hardware.queueDepth, caps.hardware.sectorSizeLogical, caps.hardware.sectorSizePhysical,
      caps.ioUring, caps.nvmePassthrough, caps.directIo, caps.plpDetected⟩ : HardwareSummary) =
      caps.hardware := by
    rw [← hmirror.ioUring, ← hmirror.nvmePassthrough, ← hmirror.directIo, ← hmirror.plpDetected]
  rw [hhardware]

/-! ### Damaged documents -/

section Inversion

variable {doc : Document} {key : String}

theorem rootInt_some {i : Int64} (h : doc.rootInt key.toList = some i) :
    doc.lookup (rootPlace key) = some (.integer i) := by
  obtain ⟨v, hget, hv⟩ := Option.bind_eq_some_iff.mp h
  cases v <;> simp [Value.asInt] at hv
  exact hv ▸ hget

theorem rootString_some {s : Str} (h : doc.rootString key.toList = some s) :
    doc.lookup (rootPlace key) = some (.string s) := by
  obtain ⟨v, hget, hv⟩ := Option.bind_eq_some_iff.mp h
  cases v <;> simp [Value.asString] at hv
  exact hv ▸ hget

theorem sectionBool_some {b : Bool}
    (h : doc.sectionBool "capabilities".toList key.toList = some b) :
    doc.lookup (capabilityPlace key) = some (.boolean b) := by
  obtain ⟨v, hget, hv⟩ := Option.bind_eq_some_iff.mp h
  cases v <;> simp [Value.asBool] at hv
  exact hv ▸ hget

theorem sectionStrings_some {v : List Str}
    (h : doc.sectionStrings "capabilities".toList key.toList = some v) :
    doc.lookup (capabilityPlace key) = some (.stringArray v) := by
  obtain ⟨v', hget, hv⟩ := Option.bind_eq_some_iff.mp h
  cases v' <;> simp [Value.asStrings] at hv
  exact hv ▸ hget

theorem sectionString_some {s : Str}
    (h : doc.sectionString "hardware".toList key.toList = some s) :
    doc.lookup (hardwarePlace key) = some (.string s) := by
  obtain ⟨v, hget, hv⟩ := Option.bind_eq_some_iff.mp h
  cases v <;> simp [Value.asString] at hv
  exact hv ▸ hget

theorem sectionInt_some {i : Int64}
    (h : doc.sectionInt "hardware".toList key.toList = some i) :
    doc.lookup (hardwarePlace key) = some (.integer i) := by
  obtain ⟨v, hget, hv⟩ := Option.bind_eq_some_iff.mp h
  cases v <;> simp [Value.asInt] at hv
  exact hv ▸ hget

end Inversion

theorem fits_u32 {i : Int64} {n : UInt32} (h : u32TryFrom i = some n) :
    FieldKind.u32.Fits (.integer i) := by
  unfold u32TryFrom at h
  split at h
  · assumption
  · cases h

theorem fits_u64 {i : Int64} {n : UInt64} (h : u64TryFrom i = some n) :
    FieldKind.u64.Fits (.integer i) := by
  unfold u64TryFrom at h
  split at h
  · rename_i hnonneg
    have hlt := i.toInt_lt
    exact ⟨hnonneg, by omega⟩
  · cases h

/-- A document that is read back has a fitting value in every field. -/
theorem fits_of_documentToCapabilities {doc : Document} {caps : Capabilities}
    (h : documentToCapabilities doc = some caps) :
    ∀ f ∈ fieldKinds, ∃ v, doc.lookup f.1 = some v ∧ f.2.Fits v := by
  unfold documentToCapabilities at h
  obtain ⟨_, h1, h⟩ := Option.bind_eq_some_iff.mp h
  obtain ⟨_, h2, h⟩ := Option.bind_eq_some_iff.mp h
  obtain ⟨_, h3, h⟩ := Option.bind_eq_some_iff.mp h
  obtain ⟨_, h4, h⟩ := Option.bind_eq_some_iff.mp h
  obtain ⟨_, h5, h⟩ := Option.bind_eq_some_iff.mp h
  obtain ⟨_, h6, h⟩ := Option.bind_eq_some_iff.mp h
  obtain ⟨_, h7, h⟩ := Option.bind_eq_some_iff.mp h
  obtain ⟨_, h8, h⟩ := Option.bind_eq_some_iff.mp h
  obtain ⟨_, h9, h⟩ := Option.bind_eq_some_iff.mp h
  obtain ⟨_, h10, h⟩ := Option.bind_eq_some_iff.mp h
  obtain ⟨_, h11, h⟩ := Option.bind_eq_some_iff.mp h
  obtain ⟨_, h12, h⟩ := Option.bind_eq_some_iff.mp h
  obtain ⟨_, h13, h⟩ := Option.bind_eq_some_iff.mp h
  obtain ⟨_, h14, h⟩ := Option.bind_eq_some_iff.mp h
  obtain ⟨_, h15, h⟩ := Option.bind_eq_some_iff.mp h
  obtain ⟨_, h16, h⟩ := Option.bind_eq_some_iff.mp h
  obtain ⟨_, h17, h⟩ := Option.bind_eq_some_iff.mp h
  obtain ⟨_, h18, h⟩ := Option.bind_eq_some_iff.mp h
  obtain ⟨_, h1, k1⟩ := Option.bind_eq_some_iff.mp h1
  obtain ⟨_, h5, k5⟩ := Option.bind_eq_some_iff.mp h5
  obtain ⟨_, h15, k15⟩ := Option.bind_eq_some_iff.mp h15
  obtain ⟨_, h16, k16⟩ := Option.bind_eq_some_iff.mp h16
  obtain ⟨_, h17, k17⟩ := Option.bind_eq_some_iff.mp h17
  obtain ⟨_, h18, k18⟩ := Option.bind_eq_some_iff.mp h18
  simp only [fieldKinds, List.forall_mem_cons]
  exact ⟨⟨_, rootInt_some h1, fits_u32 k1⟩, ⟨_, rootString_some h2, trivial⟩,
    ⟨_, rootString_some h3, trivial⟩, ⟨_, rootString_some h4, trivial⟩,
    ⟨_, rootInt_some h5, fits_u64 k5⟩, ⟨_, sectionBool_some h6, trivial⟩,
    ⟨_, sectionStrings_some h7, trivial⟩, ⟨_, sectionBool_some h8, trivial⟩,
    ⟨_, sectionBool_some h9, trivial⟩, ⟨_, sectionBool_some h10, trivial⟩,
    ⟨_, sectionBool_some h11, trivial⟩, ⟨_, sectionStrings_some h12, trivial⟩,
    ⟨_, sectionStrings_some h13, trivial⟩, ⟨_, sectionString_some h14, trivial⟩,
    ⟨_, sectionInt_some h15, fits_u32 k15⟩, ⟨_, sectionInt_some h16, fits_u32 k16⟩,
    ⟨_, sectionInt_some h17, fits_u32 k17⟩, ⟨_, sectionInt_some h18, fits_u32 k18⟩, by simp⟩

theorem documentToCapabilities_eq_none {doc : Document} {f : Place × FieldKind}
    (hf : f ∈ fieldKinds) (h : ∀ v, doc.lookup f.1 = some v → ¬f.2.Fits v) :
    documentToCapabilities doc = none := by
  cases hdoc : documentToCapabilities doc with
  | none => rfl
  | some caps =>
    obtain ⟨v, hv, hfits⟩ := fits_of_documentToCapabilities hdoc f hf
    exact absurd hfits (h v hv)

/-- The document without the key. -/
def remove (doc : Document) (place : Place) : Document :=
  match place.1 with
  | none => ⟨doc.root.erase place.2, doc.sections⟩
  | some s =>
    match doc.sections.get s with
    | none => doc
    | some table => ⟨doc.root, doc.sections.insert s (table.erase place.2)⟩

theorem lookup_remove_self (doc : Document) (place : Place) :
    (remove doc place).lookup place = none := by
  obtain ⟨where_, key⟩ := place
  cases where_ with
  | none => simp [remove, Document.lookup, OrdMap.get_erase]
  | some s =>
    cases hget : doc.sections.get s with
    | none => simp [remove, hget, Document.lookup, Document.sectionValue]
    | some table => simp [remove, hget, Document.lookup, Document.sectionValue, OrdMap.get_erase]

theorem acceptedTable_erase {table : Table} (h : AcceptedTable table) (key : Str) :
    AcceptedTable (table.erase key) := by
  intro e he
  exact h e (List.mem_of_mem_filter he)

/-- A document stays writable when the section keeps another key. -/
theorem accepted_remove {doc : Document} {place : Place} (h : doc.Accepted)
    (hother : ∀ s, place.1 = some s →
      ∃ key v, key ≠ place.2 ∧ doc.lookup (some s, key) = some v) :
    (remove doc place).Accepted := by
  obtain ⟨where_, key⟩ := place
  cases where_ with
  | none => exact ⟨acceptedTable_erase h.root key, h.sections⟩
  | some s =>
    cases hget : doc.sections.get s with
    | none =>
      simp only [remove, hget]
      exact h
    | some table =>
      simp only [remove, hget]
      refine ⟨h.root, ?_⟩
      intro e he
      cases mem_insertPair he with
      | inr hmem => exact h.sections e hmem
      | inl heq =>
        rw [heq]
        obtain ⟨hname, -, htable⟩ := h.sections _ (OrdMap.mem_of_get hget)
        refine ⟨hname, ?_, acceptedTable_erase htable key⟩
        obtain ⟨key', v, hne, hlook⟩ := hother s rfl
        simp only [Document.lookup, Document.sectionValue, hget, Option.bind_some] at hlook
        have hkept : (table.erase key).get key' = some v := by
          rw [OrdMap.get_erase, if_neg (Ne.symm hne), hlook]
        exact List.ne_nil_of_mem (OrdMap.mem_of_get hkept)

theorem lookup_eq_some {caps : Capabilities} {place : Place} {v : Value}
    (h : (capabilitiesToDocument caps).lookup place = some v) :
    (place, v) ∈ capabilitiesEntries caps := by
  by_cases hmem : place ∈ (capabilitiesEntries caps).map Prod.fst
  · obtain ⟨e, he, hplace⟩ := List.mem_map.mp hmem
    have hlook := lookup_capabilitiesToDocument caps he
    rw [hplace, h] at hlook
    cases hlook
    rw [← hplace]
    exact he
  · have hnone := Document.lookup_putAll_of_not_mem hmem Document.new
    have hnew : Document.new.lookup place = none := by
      obtain ⟨where_, key⟩ := place
      cases where_ <;> rfl
    rw [hnew] at hnone
    rw [capabilitiesToDocument, hnone] at h
    cases h

/-- Every section has two keys at least. -/
theorem exists_other_field {f : Place × FieldKind} (hf : f ∈ fieldKinds) {s : Str}
    (hs : f.1.1 = some s) : ∃ g ∈ fieldKinds, g.1.1 = some s ∧ g.1.2 ≠ f.1.2 := by
  have hall : ∀ f ∈ fieldKinds, f.1.1 ≠ none →
      ∃ g ∈ fieldKinds, g.1.1 = f.1.1 ∧ g.1.2 ≠ f.1.2 := by decide +kernel
  have h := hall f hf (by simp [hs])
  rwa [hs] at h

/-- The entries and the field kinds, side by side. -/
theorem fits_entries (caps : Capabilities) {e : Place × Value}
    (he : e ∈ capabilitiesEntries caps) : ∃ kind, (e.1, kind) ∈ fieldKinds := by
  have hplace : e.1 ∈ fieldKinds.map Prod.fst := by
    rw [← places_eq caps]
    exact List.mem_map_of_mem he
  obtain ⟨f, hf, hfe⟩ := List.mem_map.mp hplace
  exact ⟨f.2, hfe ▸ hf⟩

/-- What the cache file makes of a document. -/
def reread (doc : Document) : Option Capabilities :=
  (Document.parse doc.serialize).bind documentToCapabilities

theorem reread_eq {doc : Document} (h : doc.Accepted) :
    reread doc = documentToCapabilities doc := by
  rw [reread, h.parse_serialize]
  rfl

theorem accepted_remove_field {caps : Capabilities} (hstrings : PlainStrings caps)
    {f : Place × FieldKind} (hf : f ∈ fieldKinds) :
    (remove (capabilitiesToDocument caps) f.1).Accepted := by
  apply accepted_remove (accepted_capabilitiesToDocument hstrings)
  intro s hs
  obtain ⟨g, hg, hgs, hne⟩ := exists_other_field hf hs
  have hplace : g.1 ∈ (capabilitiesEntries caps).map Prod.fst := by
    rw [places_eq]
    exact List.mem_map_of_mem hg
  obtain ⟨e, he, heg⟩ := List.mem_map.mp hplace
  refine ⟨g.1.2, e.2, hne, ?_⟩
  rw [← hgs, ← lookup_capabilitiesToDocument caps he, heg]

/-- The snapshot comes back from its file, and from no file in which one of its values is
missing, of another kind or out of range. -/
theorem cache_round_trip (caps : Capabilities) (hmirror : Mirrored caps)
    (hprobed : caps.probedAtUnixSecs.toNat < 2 ^ 63) (hstrings : PlainStrings caps) :
    reread (capabilitiesToDocument caps) = some caps ∧
    ∀ place value, (capabilitiesToDocument caps).lookup place = some value →
      ∃ kind, (place, kind) ∈ fieldKinds ∧ kind.Fits value ∧
        documentToCapabilities (remove (capabilitiesToDocument caps) place) = none ∧
        reread (remove (capabilitiesToDocument caps) place) = none ∧
        ∀ value', ¬kind.Fits value' →
          documentToCapabilities ((capabilitiesToDocument caps).put place value') = none ∧
          (value'.Printable →
            reread ((capabilitiesToDocument caps).put place value') = none) := by
  have haccepted := accepted_capabilitiesToDocument hstrings
  have hread : documentToCapabilities (capabilitiesToDocument caps) = some caps :=
    documentToCapabilities_eq (fun e he => lookup_capabilitiesToDocument caps he) hmirror hprobed
  refine ⟨by rw [reread_eq haccepted, hread], ?_⟩
  intro place value hlook
  obtain ⟨kind, hkind⟩ := fits_entries caps (lookup_eq_some hlook)
  have hfits : kind.Fits value := by
    obtain ⟨v, hv, hfits⟩ := fits_of_documentToCapabilities hread _ hkind
    have hsame : v = value := Option.some.inj (hv.symm.trans hlook)
    exact hsame ▸ hfits
  have hremoved : documentToCapabilities (remove (capabilitiesToDocument caps) place) = none := by
    apply documentToCapabilities_eq_none hkind
    intro v hv
    rw [lookup_remove_self] at hv
    cases hv
  refine ⟨kind, hkind, hfits, hremoved, ?_, ?_⟩
  · rw [reread_eq (accepted_remove_field hstrings hkind), hremoved]
  · intro value' hvalue'
    have hnone : documentToCapabilities ((capabilitiesToDocument caps).put place value') =
        none := by
      apply documentToCapabilities_eq_none hkind
      intro v hv
      rw [Document.lookup_put_self] at hv
      cases hv
      exact hvalue'
    refine ⟨hnone, ?_⟩
    intro hprintable
    rw [reread_eq (haccepted.put (validPlace_of_field hkind) hprintable), hnone]

def sampleCapabilities : Capabilities where
  schemaVersion := 1
  fsysVersion := "1.1.0".toList
  kernelVersion := "6.8 \"x\"".toList
  osTarget := "linux".toList
  probedAtUnixSecs := 1700000000
  ioUring := true
  ioUringFeatures := [.coopTaskrun, .sqPoll]
  nvmePassthrough := true
  directIo := false
  plpDetected := false
  spdkEligible := false
  spdkSkipReasons := [.hugepagesNotConfigured 0 2048, .allDevicesInUse [⟨0, 1, 0, 0⟩, ⟨0, 2, 0, 0⟩],
    .allDevicesInUse []]
  spdkEligibleDevices := [⟨0, 3, 31, 7⟩]
  hardware := ⟨"nvme".toList, 4096, 64, 512, 4096, true, true, false, false⟩

theorem cache_round_trip_sample :
    reread (capabilitiesToDocument sampleCapabilities) = some sampleCapabilities := by
  have hmirror : Mirrored sampleCapabilities := ⟨rfl, rfl, rfl, rfl⟩
  have hstrings : PlainStrings sampleCapabilities :=
    ⟨isText_of_all (by decide), isText_of_all (by decide), isText_of_all (by decide),
      isText_of_all (by decide)⟩
  exact (cache_round_trip sampleCapabilities hmirror (by decide) hstrings).1

end Fsys.Capability
