import SecureBoot.Epmp.State
import SecureBoot.Sigverify.Keys

/-! The manifest at the start of a boot stage image: its layout in memory, the check
of its offsets and the regions it describes. A pointer to a manifest is the address
of the image. -/

namespace SecureBoot

abbrev kLifecycleDeviceIdNumWords : ℕ := 8

/-- `manifest_usage_constraints_t`. -/
structure ManifestUsageConstraints where
  selectorBits : Word
  deviceId : Vector Word kLifecycleDeviceIdNumWords
  manufStateCreator : Word
  manufStateOwner : Word
  lifeCycleState : Word

def ManifestUsageConstraints.words (u : ManifestUsageConstraints) : List Word :=
  [u.selectorBits] ++ u.deviceId.toList ++
    [u.manufStateCreator, u.manufStateOwner, u.lifeCycleState]

/-- `manifest_t`, without the fields that the ROM does not read. -/
structure Manifest where
  signature : SigverifyRsaBuffer
  usageConstraints : ManifestUsageConstraints
  modulus : SigverifyRsaBuffer
  addressTranslation : Word
  identifier : Word
  length : Word
  securityVersion : Word
  bindingValue : Vector Word 8
  maxKeyVersion : Word
  codeStart : Word
  codeEnd : Word
  entryPoint : Word

abbrev kManifestSize : Word := 896

def manifestUsageConstraintsLoad (mem : Word → Byte) (ptr : Word) : ManifestUsageConstraints where
  selectorBits := loadWord mem ptr
  deviceId := loadWords mem (ptr + 4) kLifecycleDeviceIdNumWords
  manufStateCreator := loadWord mem (ptr + 36)
  manufStateOwner := loadWord mem (ptr + 40)
  lifeCycleState := loadWord mem (ptr + 44)

/-- The manifest at `ptr`, with the member offsets that the source asserts. -/
def manifestLoad (mem : Word → Byte) (ptr : Word) : Manifest where
  signature := loadWords mem ptr kSigVerifyRsaNumWords
  usageConstraints := manifestUsageConstraintsLoad mem (ptr + 384)
  modulus := loadWords mem (ptr + 432) kSigVerifyRsaNumWords
  addressTranslation := loadWord mem (ptr + 816)
  identifier := loadWord mem (ptr + 820)
  length := loadWord mem (ptr + 824)
  securityVersion := loadWord mem (ptr + 836)
  bindingValue := loadWords mem (ptr + 848) 8
  maxKeyVersion := loadWord mem (ptr + 880)
  codeStart := loadWord mem (ptr + 884)
  codeEnd := loadWord mem (ptr + 888)
  entryPoint := loadWord mem (ptr + 892)

section

variable {mem mem' : Word → Byte} {ptr ptr' : Word} {n : ℕ}

theorem SameBytes.manifestUsageConstraintsLoad (h : SameBytes mem mem' ptr ptr' n) (hn : 48 ≤ n) :
    manifestUsageConstraintsLoad mem ptr = manifestUsageConstraintsLoad mem' ptr' := by
  have hid : 4 * kLifecycleDeviceIdNumWords = 32 := rfl
  unfold SecureBoot.manifestUsageConstraintsLoad
  rw [ManifestUsageConstraints.mk.injEq]
  exact ⟨h.loadWord (by omega), (h.drop 4).loadWords (by omega), (h.drop 36).loadWord (by omega),
    (h.drop 40).loadWord (by omega), (h.drop 44).loadWord (by omega)⟩

/-- A copy of an image has the same manifest. -/
theorem SameBytes.manifestLoad (h : SameBytes mem mem' ptr ptr' n) (hn : 896 ≤ n) :
    manifestLoad mem ptr = manifestLoad mem' ptr' := by
  have hbuffer : 4 * kSigVerifyRsaNumWords = 384 := rfl
  unfold SecureBoot.manifestLoad
  rw [Manifest.mk.injEq]
  exact ⟨h.loadWords (by omega), (h.drop 384).manifestUsageConstraintsLoad (by omega),
    (h.drop 432).loadWords (by omega), (h.drop 816).loadWord (by omega),
    (h.drop 820).loadWord (by omega), (h.drop 824).loadWord (by omega),
    (h.drop 836).loadWord (by omega), (h.drop 848).loadWords (by omega),
    (h.drop 880).loadWord (by omega), (h.drop 884).loadWord (by omega),
    (h.drop 888).loadWord (by omega), (h.drop 892).loadWord (by omega)⟩

end

/-- `manifest_check`. -/
def manifestCheck (m : Manifest) : RomError :=
  if m.codeStart ≥ m.codeEnd ∨ m.codeStart < kManifestSize ∨ m.codeEnd > m.length ∨
      m.codeStart &&& 0x3 ≠ 0 ∨ m.codeEnd &&& 0x3 ≠ 0 then
    kErrorManifestBadCodeRegion
  else if m.entryPoint < m.codeStart ∨ m.entryPoint ≥ m.codeEnd ∨ m.entryPoint &&& 0x3 ≠ 0 then
    kErrorManifestBadEntryPoint
  else
    kErrorOk

/-- `manifest_digest_region_t`. -/
structure ManifestDigestRegion where
  start : Word
  length : Word

/-- The sizes of the signature and of the usage constraints. -/
abbrev kDigestRegionOffset : Word := 384 + 48

def manifestDigestRegionGet (ptr : Word) (m : Manifest) : ManifestDigestRegion where
  start := ptr + kDigestRegionOffset
  length := m.length - kDigestRegionOffset

def manifestCodeRegionGet (ptr : Word) (m : Manifest) : EpmpRegion where
  start := ptr + m.codeStart
  end_ := ptr + m.codeEnd

def manifestEntryPointGet (ptr : Word) (m : Manifest) : Word := ptr + m.entryPoint

/-! ### What the check establishes -/

theorem and_three_eq_zero_iff (w : Word) : w &&& 0x3 = 0 ↔ 4 ∣ w.toNat := by
  rw [← BitVec.toNat_inj, BitVec.toNat_and]
  change w.toNat &&& (2 ^ 2 - 1) = 0 ↔ _
  rw [Nat.and_two_pow_sub_one_eq_mod]
  exact (Nat.dvd_iff_mod_eq_zero).symm

/-- The offsets of an image whose code region lies behind the manifest. -/
structure Manifest.OffsetsOk (m : Manifest) : Prop where
  start_lt_end : m.codeStart.toNat < m.codeEnd.toNat
  size_le_start : 896 ≤ m.codeStart.toNat
  end_le_length : m.codeEnd.toNat ≤ m.length.toNat
  start_aligned : 4 ∣ m.codeStart.toNat
  end_aligned : 4 ∣ m.codeEnd.toNat
  start_le_entry : m.codeStart.toNat ≤ m.entryPoint.toNat
  entry_lt_end : m.entryPoint.toNat < m.codeEnd.toNat
  entry_aligned : 4 ∣ m.entryPoint.toNat

theorem manifestCheck_eq_ok_iff (m : Manifest) : manifestCheck m = kErrorOk ↔ m.OffsetsOk := by
  have hsize : kManifestSize.toNat = 896 := rfl
  have hregion : kErrorManifestBadCodeRegion ≠ kErrorOk := by decide
  have hentry : kErrorManifestBadEntryPoint ≠ kErrorOk := by decide
  unfold manifestCheck
  simp only [ge_iff_le, gt_iff_lt, BitVec.le_def, BitVec.lt_def, hsize, ne_eq,
    and_three_eq_zero_iff]
  split_ifs with h h'
  · refine iff_of_false hregion fun hok => ?_
    obtain ⟨h1, h2, h3, h4, h5, -, -, -⟩ := hok
    obtain h | h | h | h | h := h
    · omega
    · omega
    · omega
    · exact h h4
    · exact h h5
  · refine iff_of_false hentry fun hok => ?_
    obtain ⟨-, -, -, -, -, h6, h7, h8⟩ := hok
    obtain h | h | h := h'
    · omega
    · omega
    · exact h h8
  · simp only [not_or, not_not, Nat.not_le, Nat.not_lt] at h h'
    obtain ⟨h1, h2, h3, h4, h5⟩ := h
    obtain ⟨h6, h7, h8⟩ := h'
    exact iff_of_true rfl ⟨h1, h2, h3, h4, h5, h6, h7, h8⟩

end SecureBoot

/-! The boot policy of the ROM: which of the two slots is tried first and which
manifests are accepted. -/

namespace SecureBoot

abbrev kChipRomExtIdentifier : Word := 0x4552544f

abbrev kChipRomExtSizeMin : Word := kManifestSize

abbrev kChipRomExtSizeMax : Word := 0x10000

def bootPolicyManifestAGet : Word := kEflashBaseAddr

def bootPolicyManifestBGet : Word := kEflashBaseAddr + kEflashSizeBytes / 2

/-- `boot_policy_manifest_check`; the boot data enters with its minimum version. -/
def bootPolicyManifestCheck (m : Manifest) (minSecurityVersionRomExt : Word) : RomError :=
  if m.identifier ≠ kChipRomExtIdentifier then
    kErrorBootPolicyBadIdentifier
  else if m.length < kChipRomExtSizeMin ∨ m.length > kChipRomExtSizeMax then
    kErrorBootPolicyBadLength
  else if manifestCheck m ≠ kErrorOk then
    manifestCheck m
  else if m.securityVersion ≥ minSecurityVersionRomExt then
    kErrorOk
  else
    kErrorBootPolicyRollback

/-- What the policy accepts. -/
structure Manifest.Accepted (m : Manifest) (minSecurityVersionRomExt : Word) : Prop where
  identifier : m.identifier = kChipRomExtIdentifier
  min_le_length : 896 ≤ m.length.toNat
  length_le_max : m.length.toNat ≤ 0x10000
  offsets : m.OffsetsOk
  version : minSecurityVersionRomExt ≤ m.securityVersion

theorem bootPolicyManifestCheck_eq_ok_iff (m : Manifest) (minVersion : Word) :
    bootPolicyManifestCheck m minVersion = kErrorOk ↔ m.Accepted minVersion := by
  have hmin : kChipRomExtSizeMin.toNat = 896 := rfl
  have hmax : kChipRomExtSizeMax.toNat = 0x10000 := rfl
  unfold bootPolicyManifestCheck
  simp only [BitVec.lt_def, gt_iff_lt, hmin, hmax]
  split_ifs with hid hlen hcheck hversion
  · exact iff_of_false (by decide) fun h => hid h.identifier
  · refine iff_of_false (by decide) fun h => ?_
    have := h.min_le_length
    have := h.length_le_max
    omega
  · exact iff_of_false hcheck fun h => hcheck ((manifestCheck_eq_ok_iff m).mpr h.offsets)
  · rw [not_not, manifestCheck_eq_ok_iff] at hcheck
    exact iff_of_true rfl ⟨not_not.mp hid, by omega, by omega, hcheck, hversion⟩
  · exact iff_of_false (by decide) fun h => hversion h.version

end SecureBoot
