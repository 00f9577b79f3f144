import SecureBoot.Drivers.Hmac
import SecureBoot.Drivers.Lifecycle
import SecureBoot.Manifest.Manifest

/-! The digest of an image: the usage constraints are collected from the hardware
under the selector bits of the manifest and hashed before the digest region. -/

namespace SecureBoot

abbrev kOtpCreatorSwCfgManufState : Word := 260

abbrev kOtpOwnerSwCfgManufState : Word := 1384

/-- `MANIFEST_USAGE_CONSTRAINT_UNSELECTED_WORD_VAL`. -/
abbrev kManifestUsageConstraintUnselected : Word := 0xA5A5A5A5

abbrev kManifestSelectorBitManufStateCreator : ℕ := 8

abbrev kManifestSelectorBitManufStateOwner : ℕ := 9

abbrev kManifestSelectorBitLifeCycleState : ℕ := 10

/-- A field of the constraints: its value is dropped when its selector bit is clear. -/
def usageConstraint (selectorBits : Word) (bit : ℕ) (value : Word) : Word :=
  if bitfieldBit32Read selectorBits bit then value else kManifestUsageConstraintUnselected

/-- The constraints that hold on a device with these values under the selector bits. -/
def usageConstraints (selectorBits : Word) (deviceId : Vector Word kLifecycleDeviceIdNumWords)
    (creator owner : Word) (lcState : LifecycleState) : ManifestUsageConstraints where
  selectorBits := selectorBits
  deviceId := .ofFn fun i => usageConstraint selectorBits i deviceId[i]
  manufStateCreator := usageConstraint selectorBits kManifestSelectorBitManufStateCreator creator
  manufStateOwner := usageConstraint selectorBits kManifestSelectorBitManufStateOwner owner
  lifeCycleState :=
    usageConstraint selectorBits kManifestSelectorBitLifeCycleState lcState.code

variable (hw : Hw)

/-- `sigverify_usage_constraints_get`. -/
def sigverifyUsageConstraintsGet (selectorBits : Word) : Drv ManifestUsageConstraints := do
  let deviceId ← lifecycleDeviceIdGet hw
  let creator ← otpRead32 hw kOtpCreatorSwCfgManufState
  let owner ← otpRead32 hw kOtpOwnerSwCfgManufState
  let lcState ← lifecycleStateGet hw
  pure (usageConstraints selectorBits deviceId creator owner lcState)

/-- The address of an object on the stack, which is word aligned. -/
abbrev kStackAddr : Word := 0x1001c010

/-- The part of `rom_verify` that hashes what is signed. -/
def romVerifyHash (ptr : Word) (m : Manifest) : Drv HmacDigest := do
  let constraints ← sigverifyUsageConstraintsGet hw m.usageConstraints.selectorBits
  hmacSha256Update hw kStackAddr (wordsToBytes constraints.words)
  let region := manifestDigestRegionGet ptr m
  hmacSha256Update hw region.start (loadBytes hw.flash region.start region.length.toNat)
  hmacSha256Final hw

/-- The part of `rom_verify` that computes the digest of an image. -/
def romVerifyDigest (ptr : Word) (m : Manifest) (minSecurityVersionRomExt : Word) :
    Drv HmacDigest := do
  hmacSha256Init hw
  if m.securityVersion < minSecurityVersionRomExt then
    hmacSha256Update hw kStackAddr wordMax.toBytes
  hardenedCheck (m.securityVersion ≥ minSecurityVersionRomExt) .hardened
  romVerifyHash hw ptr m

/-! ### The message -/

/-- What the registers of a device say about its identity. -/
structure HwIdentity where
  deviceId : Vector Word kLifecycleDeviceIdNumWords
  manufStateCreator : Word
  manufStateOwner : Word
  lcState : LifecycleState

/-- The identity that the registers of a state show. -/
structure HwIdentity.ShownBy (identity : HwIdentity) (io : Io) : Prop where
  deviceId : ∀ i : Fin kLifecycleDeviceIdNumWords,
    identity.deviceId[i] = io.read hw (kLcCtrlDeviceId0 + BitVec.ofNat 32 (4 * i))
  manufStateCreator :
    identity.manufStateCreator = io.read hw (kOtpCtrlSwCfgWindow + kOtpCreatorSwCfgManufState)
  manufStateOwner :
    identity.manufStateOwner = io.read hw (kOtpCtrlSwCfgWindow + kOtpOwnerSwCfgManufState)
  lcState : lifecycleStateDecode
    (bitfieldField32Read (io.read hw kLcCtrlLcState) ⟨0x3fffffff, 0⟩) = some identity.lcState

def HwIdentity.constraints (identity : HwIdentity) (selectorBits : Word) :
    ManifestUsageConstraints :=
  usageConstraints selectorBits identity.deviceId identity.manufStateCreator
    identity.manufStateOwner identity.lcState

/-- The byte string that `rom_verify` hashes on a device with this identity. -/
def digestMessage (identity : HwIdentity) (ptr : Word) (m : Manifest) : List Byte :=
  wordsToBytes (identity.constraints m.usageConstraints.selectorBits).words ++
    loadBytes hw.flash (manifestDigestRegionGet ptr m).start
      (manifestDigestRegionGet ptr m).length.toNat

variable {hw}

theorem same_sigverifyUsageConstraintsGet (io₀ : Io) (selectorBits : Word) :
    Hoare.Triple io₀.SameDevice (sigverifyUsageConstraintsGet hw selectorBits)
      (fun constraints io => (∃ identity : HwIdentity, identity.ShownBy hw io₀ ∧
        constraints = identity.constraints selectorBits) ∧ io₀.SameDevice io)
      (fun _ => io₀.SameDevice) := by
  refine .bind (same_secMmioReadWords io₀ _ 8) fun deviceId => .of_pre fun hdeviceId => ?_
  refine .bind (same_otpRead32 io₀ _) fun creator => .of_pre fun hcreator => ?_
  refine .bind (same_otpRead32 io₀ _) fun owner => .of_pre fun howner => ?_
  refine .bind (same_lifecycleStateGet io₀) fun lcState => .of_pre fun hlcState => ?_
  refine .pure _ fun _ h => ⟨⟨⟨deviceId, creator, owner, lcState⟩, ?_, rfl⟩, h⟩
  refine ⟨fun i => ?_, hcreator, howner, hlcState⟩
  simp [hdeviceId]

theorem hmac_hmacSha256Init {io₀ io₁ : Io} (hinit : (hmacSha256Init hw).run io₀ = .ok () io₁) :
    io₁.hmac = [] := by
  cases hinit
  rfl

theorem triple_romVerifyHash (io₁ : Io) (ptr : Word) (m : Manifest) (hstart : io₁.hmac = []) :
    Hoare.Triple io₁.SameDevice (romVerifyHash hw ptr m)
      (fun digest io => (∃ identity : HwIdentity, identity.ShownBy hw io₁ ∧
        io.hmac = digestMessage hw identity ptr m) ∧ digest = hw.sha256 io.hmac)
      (fun _ _ => True) := by
  refine .bind ((same_sigverifyUsageConstraintsGet io₁ _).conseq (fun _ h => h) (fun _ _ h => h)
    fun _ _ _ => trivial) fun constraints => .of_pre ?_
  rintro ⟨identity, hshown, rfl⟩
  refine .bind ((feeds_hmacSha256Update hw _ _).triple [] fun io h => h.hmac.trans hstart)
    fun _ => ?_
  refine .bind ((feeds_hmacSha256Update hw _ _).triple _ fun io h => h) fun _ => ?_
  refine (triple_hmacSha256Final _).conseq (fun _ h => h) (fun digest io h => ?_) fun _ _ h => h
  exact ⟨⟨identity, hshown, h.2⟩, h.2 ▸ h.1⟩

/-- The digest is that of the message for the identity shown after the start of the
message: before it, the drivers write to the bus. -/
theorem triple_romVerifyDigest (io₀ io₁ : Io) (ptr minVersion : Word) (m : Manifest)
    (hinit : (hmacSha256Init hw).run io₀ = .ok () io₁) :
    Hoare.Triple (· = io₀) (romVerifyDigest hw ptr m minVersion)
      (fun digest io => (∃ identity : HwIdentity, identity.ShownBy hw io₁ ∧
        io.hmac = digestMessage hw identity ptr m) ∧ digest = hw.sha256 io.hmac)
      (fun _ _ => True) := by
  unfold romVerifyDigest
  refine .bind (R := fun _ => (· = io₁)) ?_ fun _ => ?_
  · rintro _ rfl
    rw [hinit]
    rfl
  by_cases hversion : minVersion ≤ m.securityVersion
  · have hle : ¬ m.securityVersion < minVersion := by
      rw [BitVec.not_lt]
      exact hversion
    simp only [if_neg hle, hardenedCheck, if_pos hversion]
    refine .bind (R := fun _ => (· = io₁)) (.pure _ fun _ h => h) fun _ => ?_
    refine (triple_romVerifyHash io₁ ptr m (hmac_hmacSha256Init hinit)).conseq ?_
      (fun _ _ h => h) fun _ _ h => h
    rintro _ rfl
    exact .refl _
  · -- The check stops whatever has been hashed.
    rw [BitVec.not_le] at hversion
    simp only [if_pos hversion, hardenedCheck, if_neg (BitVec.not_le.mpr hversion)]
    refine .bind .top fun _ => .bind (R := fun _ _ => False) (.throw _ fun _ _ => trivial) fun _ => ?_
    exact fun _ h => h.elim

end SecureBoot
