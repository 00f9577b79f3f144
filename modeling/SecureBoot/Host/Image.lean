import SecureBoot.Rom.Digest

/-! The image as the host tool sees it, and the agreement of host and device on the
bytes that are signed: the usage constraints that the host stored are those that the
device reconstructs exactly when every selected field has the value of the device. -/

namespace SecureBoot

/-- `Image::MAX_SIZE`. -/
abbrev kImageMaxSize : ℕ := 512 * 1024

/-- `Image`: a buffer of the maximum size and the number of bytes in use. -/
structure HostImage where
  bytes : Fin kImageMaxSize → Byte
  size : ℕ
  size_le : size ≤ kImageMaxSize

namespace HostImage

variable (image : HostImage)

def byte (i : ℕ) : Byte := if h : i < kImageMaxSize then image.bytes ⟨i, h⟩ else 0xff

/-- The slice `bytes[first..last]`. -/
def slice (first last : ℕ) : List Byte := (List.range' first (last - first)).map image.byte

/-- The buffer as a memory, for the view of its start as a manifest. -/
def memory (addr : Word) : Byte := image.byte addr.toNat

/-- `Image::borrow_manifest`. -/
def manifest : Manifest := manifestLoad image.memory 0

/-- `offset_of!(Manifest, usage_constraints)`. -/
abbrev kUsageConstraintsOffset : ℕ := 384

def signedBytes : List Byte := image.slice kUsageConstraintsOffset image.size

/-- `Image::compute_digest`. -/
def computeDigest (sha256 : List Byte → HmacDigest) : HmacDigest := sha256 image.signedBytes

/-! ### What the host must store -/

/-- A field of the constraints against the value of a device. -/
structure FieldMatches (selected : Bool) (field value : Word) : Prop where
  value_of_selected : selected = true → field = value
  marker_of_unselected : selected = false → field = 0xA5A5A5A5

/-- The stored constraints name this device in every selected field and hold the
marker in every other. -/
structure ConstraintsMatch (u : ManifestUsageConstraints) (identity : HwIdentity) : Prop where
  deviceId : ∀ i : Fin kLifecycleDeviceIdNumWords,
    FieldMatches (u.selectorBits.getLsbD i) (u.deviceId.get i) (identity.deviceId.get i)
  manufStateCreator :
    FieldMatches (u.selectorBits.getLsbD 8) u.manufStateCreator identity.manufStateCreator
  manufStateOwner :
    FieldMatches (u.selectorBits.getLsbD 9) u.manufStateOwner identity.manufStateOwner
  lifeCycleState :
    FieldMatches (u.selectorBits.getLsbD 10) u.lifeCycleState identity.lcState.code

theorem fieldMatches_iff (selectorBits field value : Word) (bit : ℕ) :
    FieldMatches (selectorBits.getLsbD bit) field value ↔
      usageConstraint selectorBits bit value = field := by
  rw [usageConstraint, bitfieldBit32Read_eq_getLsbD]
  cases selectorBits.getLsbD bit with
  | false => exact ⟨fun h => (h.marker_of_unselected rfl).symm, fun h => ⟨nofun, fun _ => h.symm⟩⟩
  | true => exact ⟨fun h => (h.value_of_selected rfl).symm, fun h => ⟨fun _ => h.symm, nofun⟩⟩

theorem constraintsMatch_iff (u : ManifestUsageConstraints) (identity : HwIdentity) :
    ConstraintsMatch u identity ↔ identity.constraints u.selectorBits = u := by
  have hid : (identity.constraints u.selectorBits).deviceId = u.deviceId ↔
      ∀ i : Fin kLifecycleDeviceIdNumWords,
        FieldMatches (u.selectorBits.getLsbD i) (u.deviceId.get i) (identity.deviceId.get i) := by
    simp only [fieldMatches_iff, HwIdentity.constraints, usageConstraints]
    constructor
    · intro h i
      rw [← h]
      change _ = (Vector.ofFn _)[i.val]
      rw [Vector.getElem_ofFn]
      rfl
    · intro h
      refine Vector.ext fun i hi => ?_
      rw [Vector.getElem_ofFn]
      exact h ⟨i, hi⟩
  constructor
  · rintro ⟨h1, h2, h3, h4⟩
    rw [fieldMatches_iff] at h2 h3 h4
    obtain ⟨bits, deviceId, creator, owner, lcState⟩ := u
    exact ManifestUsageConstraints.mk.injEq .. ▸ ⟨rfl, hid.mpr h1, h2, h3, h4⟩
  · intro h
    refine ⟨hid.mp (congrArg _ h), ?_, ?_, ?_⟩
    · exact (fieldMatches_iff ..).mpr (congrArg ManifestUsageConstraints.manufStateCreator h)
    · exact (fieldMatches_iff ..).mpr (congrArg ManifestUsageConstraints.manufStateOwner h)
    · exact (fieldMatches_iff ..).mpr (congrArg ManifestUsageConstraints.lifeCycleState h)

end HostImage

/-! ### The two messages -/

theorem length_words (u : ManifestUsageConstraints) : u.words.length = 12 := by
  simp [ManifestUsageConstraints.words]

theorem words_injective : Function.Injective ManifestUsageConstraints.words := by
  intro u v h
  obtain ⟨hfirst, hlast⟩ := List.append_inj' h rfl
  obtain ⟨hbits, hid⟩ := List.append_inj hfirst rfl
  obtain ⟨bits, deviceId, creator, owner, lcState⟩ := u
  rw [List.cons.injEq, List.cons.injEq, List.cons.injEq] at hlast
  rw [ManifestUsageConstraints.mk.injEq]
  exact ⟨(List.cons.inj hbits).1, Vector.toList_inj.mp hid, hlast.1, hlast.2.1, hlast.2.2.1⟩

theorem wordsToBytes_manifestUsageConstraintsLoad (mem : Word → Byte) (ptr : Word) :
    wordsToBytes (manifestUsageConstraintsLoad mem ptr).words = loadBytes mem ptr 48 := by
  rw [show 48 = 4 * 12 from rfl, ← wordsToBytes_loadWords]
  congr 1
  have hfirst : loadWord mem ptr = loadWord mem (ptr + BitVec.ofNat 32 (4 * 0)) := by
    rw [Nat.mul_zero, BitVec.add_zero]
  simp only [manifestUsageConstraintsLoad, ManifestUsageConstraints.words, loadWords,
    Vector.toList_ofFn, BitVec.add_assoc]
  rw [hfirst]
  rfl

namespace HostImage

variable (image : HostImage)

theorem signedBytes_eq_loadBytes :
    image.signedBytes = loadBytes image.memory 384 (image.size - 384) := by
  have hmax : image.size ≤ 524288 := image.size_le
  rw [signedBytes, slice, loadBytes, List.range'_eq_map_range, List.map_map]
  refine List.map_congr_left fun i hi => ?_
  replace hi : i < image.size - 384 := List.mem_range.mp hi
  have hadd : ((384 : Word) + BitVec.ofNat 32 i).toNat = 384 + i := by
    rw [BitVec.toNat_add, BitVec.toNat_ofNat]
    change (384 + i % 2 ^ 32) % 2 ^ 32 = 384 + i
    omega
  rw [memory, hadd]
  rfl

/-- The message on a device against the signed bytes, both split behind the constraints. -/
theorem digestMessage_eq_signedBytes_iff {hw : Hw} {ptr : Word} (identity : HwIdentity)
    (hplaced : SameBytes hw.flash image.memory ptr 0 image.size) (hmin : 896 ≤ image.size)
    (hlength : image.manifest.length.toNat = image.size) :
    digestMessage hw identity ptr image.manifest = image.signedBytes ↔
      ConstraintsMatch image.manifest.usageConstraints identity := by
  let block := image.manifest.usageConstraints
  have hregion : (manifestDigestRegionGet ptr image.manifest).length.toNat = image.size - 432 := by
    have hle : (432 : Word) ≤ image.manifest.length := by
      rw [BitVec.le_def, hlength]
      exact le_trans (by decide) hmin
    rw [← hlength]
    exact BitVec.toNat_sub_of_le hle
  have hrest : loadBytes hw.flash (ptr + 432) (image.size - 432) =
      loadBytes image.memory 432 (image.size - 432) :=
    (hplaced.drop 432).loadBytes (by omega)
  have hsigned : image.signedBytes =
      wordsToBytes block.words ++ loadBytes image.memory 432 (image.size - 432) := by
    rw [signedBytes_eq_loadBytes, show image.size - 384 = 48 + (image.size - 432) by omega,
      loadBytes_add, ← wordsToBytes_manifestUsageConstraintsLoad]
    rfl
  calc digestMessage hw identity ptr image.manifest = image.signedBytes
      ↔ wordsToBytes (identity.constraints block.selectorBits).words = wordsToBytes block.words := by
        rw [digestMessage, hregion, hsigned, ← hrest]
        exact List.append_left_inj _
    _ ↔ (identity.constraints block.selectorBits).words = block.words :=
        wordsToBytes_inj (by rw [length_words, length_words])
    _ ↔ identity.constraints block.selectorBits = block := words_injective.eq_iff
    _ ↔ ConstraintsMatch block identity := (constraintsMatch_iff block identity).symm

/-- Host and device hash the same bytes exactly when the stored constraints match the
device, for an image in a slot whose manifest states its size. -/
theorem hashed_eq_signedBytes_iff (hw : Hw) (ptr minVersion : Word) (io₀ io : Io)
    (digest : HmacDigest) (hplaced : SameBytes hw.flash image.memory ptr 0 image.size)
    (hmin : 896 ≤ image.size) (hlength : image.manifest.length.toNat = image.size)
    (hrun : (romVerifyDigest hw ptr (manifestLoad hw.flash ptr) minVersion).run io₀ =
      .ok digest io) :
    ∃ io₁ identity, (hmacSha256Init hw).run io₀ = .ok () io₁ ∧
      HwIdentity.ShownBy hw identity io₁ ∧ digest = hw.sha256 io.hmac ∧
        (io.hmac = image.signedBytes ↔
          ConstraintsMatch image.manifest.usageConstraints identity) := by
  obtain ⟨io₁, hinit⟩ : ∃ io₁, (hmacSha256Init hw).run io₀ = .ok () io₁ := ⟨_, rfl⟩
  rw [hplaced.manifestLoad hmin] at hrun
  have htriple := triple_romVerifyDigest io₀ io₁ ptr minVersion image.manifest hinit io₀ rfl
  rw [manifest, hrun] at htriple
  obtain ⟨⟨identity, hshown, hmessage⟩, hdigest⟩ := htriple
  refine ⟨io₁, identity, hinit, hshown, hdigest, ?_⟩
  rw [hmessage]
  exact image.digestMessage_eq_signedBytes_iff identity hplaced hmin hlength

/-- A manifest without code that is bound to no device. -/
def unbound : HostImage where
  bytes i :=
    if 388 ≤ i.val ∧ i.val < 432 then 0xa5 else if i.val = 824 then 0x80 else
      if i.val = 825 then 0x3 else 0
  size := 896
  size_le := by decide

/-- A test device with the image in slot A. -/
def unboundDevice : Hw :=
  { Hw.plain with
    readOnly := fun addr => if addr = kLcCtrlLcState then some (lcStateValue 1) else none
    sample := fun _ _ => 1
    flash := fun addr => unbound.memory (addr - kEflashBaseAddr) }

theorem hashed_eq_signedBytes_iff_unbound :
    ∃ digest io io₁ identity,
      (romVerifyDigest unboundDevice kEflashBaseAddr
        (manifestLoad unboundDevice.flash kEflashBaseAddr) 0).run Io.powerOn = .ok digest io ∧
      (hmacSha256Init unboundDevice).run Io.powerOn = .ok () io₁ ∧
      HwIdentity.ShownBy unboundDevice identity io₁ ∧ digest = unboundDevice.sha256 io.hmac ∧
        (io.hmac = unbound.signedBytes ↔
          ConstraintsMatch unbound.manifest.usageConstraints identity) := by
  obtain ⟨digest, io, hrun⟩ := Hoare.exists_ok_of_returns
    (o := (romVerifyDigest unboundDevice kEflashBaseAddr
      (manifestLoad unboundDevice.flash kEflashBaseAddr) 0).run Io.powerOn) (by decide +kernel)
  have hplaced : SameBytes unboundDevice.flash unbound.memory kEflashBaseAddr 0 unbound.size := by
    intro i _
    change unbound.memory (kEflashBaseAddr + BitVec.ofNat 32 i - kEflashBaseAddr) = _
    rw [BitVec.add_comm, BitVec.add_sub_cancel]
    exact congrArg unbound.memory (BitVec.zero_add _).symm
  obtain ⟨io₁, identity, h⟩ := hashed_eq_signedBytes_iff unbound unboundDevice kEflashBaseAddr 0
    Io.powerOn io digest hplaced (by decide) (by decide) hrun
  exact ⟨digest, io, io₁, identity, hrun, h⟩

end HostImage

end SecureBoot
