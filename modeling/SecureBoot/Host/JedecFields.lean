import SecureBoot.Base.Word
import SecureBoot.Lib.Rust

/-! The bit fields of the basic flash parameter table, as the host tool reads them. A field is
`size` bits at `offset` of a dword, and dwords are counted from one. -/

namespace SecureBoot

open Rust

/-- The error type of the parser. -/
inductive SfdpError
  | io
  | tryFromIntError
  | sliceRange (start last : ℕ)
  | wrongHeaderSignature (signature : Word)
  deriving DecidableEq, Repr

abbrev SfdpRun := Run SfdpError

/-- `BitField`. -/
structure BitField where
  offset : ℕ
  size : ℕ
  deriving DecidableEq

/-- `BitField::extract`. -/
def BitField.extract (field : BitField) (word : Word) : SfdpRun Word := do
  let mask ← checkedSub (← checkedShl 1 field.size) 1
  let shifted ← checkedShr word field.offset
  pure (shifted &&& mask)

/-- The bits of a field, without the checks. -/
def BitField.bits (field : BitField) (word : Word) : Word :=
  (word >>> field.offset) &&& ((1 : Word) <<< field.size - 1)

structure InternalJedecParams where
  data : List Word

inductive BlockEraseSize
  | reserved0 | block4KiB | reserved2 | blockNot4KiB | invalid
  deriving DecidableEq, Repr

def BlockEraseSize.fromPrimitive (number : Word) : BlockEraseSize :=
  match number.toNat with
  | 0 => reserved0
  | 1 => block4KiB
  | 2 => reserved2
  | 3 => blockNot4KiB
  | _ => invalid

inductive WriteGranularity
  | granularity1Byte | granularity64Bytes | invalid
  deriving DecidableEq, Repr

def WriteGranularity.fromPrimitive (number : Word) : WriteGranularity :=
  match number.toNat with
  | 0 => granularity1Byte
  | 1 => granularity64Bytes
  | _ => invalid

inductive SupportedAddressModes
  | mode3b | mode3b4b | mode4b | reserved | invalid
  deriving DecidableEq, Repr

def SupportedAddressModes.fromPrimitive (number : Word) : SupportedAddressModes :=
  match number.toNat with
  | 0 => mode3b
  | 1 => mode3b4b
  | 2 => mode4b
  | 3 => reserved
  | _ => invalid

inductive MaxSpeed
  | reserved0 | speed33MHz | speed50MHz | speed66MHz | speed80MHz | speed100MHz | speed133MHz
  | speed166MHz | speed200MHz | speed250MHz | speed266MHz | speed333MHz | speed400MHz
  | reserved10 | notCharacterized | notSupported
  deriving DecidableEq, Repr

def MaxSpeed.fromPrimitive (number : Word) : MaxSpeed :=
  match number.toNat with
  | 0 => reserved0
  | 1 => speed33MHz
  | 2 => speed50MHz
  | 3 => speed66MHz
  | 4 => speed80MHz
  | 5 => speed100MHz
  | 6 => speed133MHz
  | 7 => speed166MHz
  | 8 => speed200MHz
  | 9 => speed250MHz
  | 10 => speed266MHz
  | 11 => speed333MHz
  | 12 => speed400MHz
  | 13 => reserved10
  | 14 => notCharacterized
  | _ => notSupported

/-! ### The macro `field!` -/

/-- An accessor that the macro generates, with the conversion of its type. -/
structure JedecField (α : Type) where
  dword : ℕ
  bitField : BitField
  convert : Word → SfdpRun α

namespace JedecField

abbrev bool (dword offset size : ℕ) : JedecField Bool :=
  ⟨dword, ⟨offset, size⟩, fun bits => pure (bits != 0)⟩

abbrev u32 (dword offset size : ℕ) : JedecField Word := ⟨dword, ⟨offset, size⟩, pure⟩

/-- `try_from` of a narrower unsigned type. -/
def tryFrom (width : ℕ) (bits : Word) : SfdpRun (BitVec width) :=
  if bits.toNat < 2 ^ width then pure (bits.setWidth width) else fail .tryFromIntError

abbrev u8 (dword offset size : ℕ) : JedecField Byte := ⟨dword, ⟨offset, size⟩, tryFrom 8⟩

abbrev u16 (dword offset size : ℕ) : JedecField (BitVec 16) := ⟨dword, ⟨offset, size⟩, tryFrom 16⟩

abbrev usize (dword offset size : ℕ) : JedecField ℕ :=
  ⟨dword, ⟨offset, size⟩, fun bits => pure bits.toNat⟩

/-- A type that is converted from every number. -/
abbrev primitive {α : Type} (fromPrimitive : Word → α) (dword offset size : ℕ) : JedecField α :=
  ⟨dword, ⟨offset, size⟩, fun bits => pure (fromPrimitive bits)⟩

/-! ### The fields -/

abbrev blockEraseSize := primitive BlockEraseSize.fromPrimitive 1 0 2
abbrev writeGranularity := primitive WriteGranularity.fromPrimitive 1 2 1
abbrev writeEnRequired := bool 1 3 1
abbrev writeEnOpcode := bool 1 4 1
abbrev eraseOpcode4kib := u8 1 8 8
abbrev supportFastRead112 := bool 1 16 1
abbrev addressModes := primitive SupportedAddressModes.fromPrimitive 1 17 2
abbrev supportDoubleRateClocking := bool 1 19 1
abbrev supportFastRead122 := bool 1 20 1
abbrev supportFastRead144 := bool 1 21 1
abbrev supportFastRead114 := bool 1 22 1

abbrev density := u32 2 0 31
abbrev densityPow2 := bool 2 31 1

abbrev waitStates144 := u8 3 0 5
abbrev modeBits144 := u8 3 0 3
abbrev readOpcode144 := u8 3 0 8
abbrev waitStates114 := u8 3 16 5
abbrev modeBits114 := u8 3 21 3
abbrev readOpcode114 := u8 3 24 8

abbrev waitStates122 := u8 4 0 5
abbrev modeBits122 := u8 4 0 3
abbrev readOpcode122 := u8 4 0 8
abbrev waitStates112 := u8 4 16 5
abbrev modeBits112 := u8 4 21 3
abbrev readOpcode112 := u8 4 22 8

abbrev supportFastRead222 := bool 5 0 1
abbrev supportFastRead444 := bool 5 4 1

abbrev waitStates222 := u8 6 16 5
abbrev modeBits222 := u8 6 21 3
abbrev readOpcode222 := u8 6 24 8

abbrev waitStates444 := u8 7 16 5
abbrev modeBits444 := u8 7 21 3
abbrev readOpcode444 := u8 7 24 8

abbrev sectorType1Size := u8 8 0 8
abbrev sectorType1Opcode := u8 8 8 8
abbrev sectorType2Size := u8 8 16 8
abbrev sectorType2Opcode := u8 8 24 8

abbrev sectorType3Size := u8 9 0 8
abbrev sectorType3Opcode := u8 9 8 8
abbrev sectorType4Size := u8 9 16 8
abbrev sectorType4Opcode := u8 9 24 8

abbrev eraseTimeMultiplier := u32 10 0 4
abbrev eraseType1Time := u32 10 4 5
abbrev eraseType1Unit := usize 10 9 2
abbrev eraseType2Time := u32 10 11 5
abbrev eraseType2Unit := usize 10 16 2
abbrev eraseType3Time := u32 10 18 5
abbrev eraseType3Unit := usize 10 23 2
abbrev eraseType4Time := u32 10 25 5
abbrev eraseType4Unit := usize 10 30 2

abbrev pgmTimeMultiplier := u32 11 0 4
abbrev pageSize := u32 11 4 4
abbrev pagePgmTime := u32 11 8 5
abbrev pagePgmUnit := usize 11 13 1
abbrev bytePgmTime := u32 11 14 4
abbrev bytePgmUnit := usize 11 18 1
abbrev additionalBytePgmTime := u32 11 19 4
abbrev additionalBytePgmUnit := usize 11 23 1
abbrev chipEraseTime := u32 11 24 5
abbrev chipEraseUnit := usize 11 29 2

abbrev prohibitedPgmSuspend := u8 12 0 4
abbrev prohibitedEraseSuspend := u8 12 4 4
abbrev pgmResumeToSuspend := u32 12 9 4
abbrev suspendPgmLatencyTime := u32 12 13 5
abbrev suspendPgmLatencyUnit := usize 12 18 2
abbrev eraseResumeToSuspend := u32 12 20 4
abbrev suspendEraseLatencyTime := u32 12 24 5
abbrev suspendEraseLatencyUnit := usize 12 29 2
abbrev suspendResumeSupported := bool 12 31 1

abbrev pgmResumeInstruction := u8 13 0 8
abbrev pgmSuspendInstruction := u8 13 8 8
abbrev resumeInstruction := u8 13 16 8
abbrev suspendInstruction := u8 13 24 8

abbrev statusBusyPolling := u8 14 2 6
abbrev exitDeepPowerdownTime := u32 14 8 5
abbrev exitDeepPowerdownUnit := usize 14 13 2
abbrev exitDeepPowerdownInstruction := u8 14 15 8
abbrev enterDeepPowerdownInstruction := u8 14 23 8
abbrev deepPowerdownSupported := bool 14 31 1

abbrev mode444Disable := u8 15 0 4
abbrev mode444Enable := u8 15 4 5
abbrev mode444Supported := bool 15 9 1
abbrev mode444Exit := u8 15 10 6
abbrev mode444Entry := u8 15 16 4
abbrev quadEnableRequirements := u8 15 20 3
abbrev holdOrResetDisable := bool 15 23 1

abbrev statusReg1WriteEnable := u8 16 0 6
abbrev softResetSupport := u8 16 8 6
abbrev exit4bAddressing := u16 16 14 10
abbrev enter4bAddressing := u8 16 24 8

abbrev waitStates188 := u8 17 0 5
abbrev modeBits188 := u8 17 5 3
abbrev readOpcode188 := u8 17 8 8
abbrev waitStates118 := u8 17 16 5
abbrev modeBits118 := u8 17 21 3
abbrev readOpcode118 := u8 17 24 8

abbrev outputDriverStrength := u8 18 18 5
abbrev spiProtocolReset := bool 18 23 1
abbrev dataStrobeStr := u8 18 24 2
abbrev dataQpiStr := bool 18 26 1
abbrev dataQpiDtr := bool 18 27 1
abbrev octalDtrCommand := u8 18 29 2
abbrev octalByteOrder := u8 18 31 1

abbrev mode8s8s8sDisable := u8 19 0 4
abbrev mode8s8s8sEnable := u8 19 4 5
abbrev mode088Supported := bool 19 9 1
abbrev mode088Exit := u8 19 10 6
abbrev mode088Enter := u8 19 16 4
abbrev octalEnableRequirements := u8 19 20 3

abbrev maxSpeed4s4s4sNoStrobe := primitive MaxSpeed.fromPrimitive 20 0 4
abbrev maxSpeed4s4s4sStrobe := primitive MaxSpeed.fromPrimitive 20 4 4
abbrev maxSpeed4d4d4dNoStrobe := primitive MaxSpeed.fromPrimitive 20 8 4
abbrev maxSpeed4d4d4dStrobe := primitive MaxSpeed.fromPrimitive 20 12 4
abbrev maxSpeed8s8s8sNoStrobe := primitive MaxSpeed.fromPrimitive 20 16 4
abbrev maxSpeed8s8s8sStrobe := primitive MaxSpeed.fromPrimitive 20 20 4
abbrev maxSpeed8d8d8dNoStrobe := primitive MaxSpeed.fromPrimitive 20 24 4
abbrev maxSpeed8d8d8dStrobe := primitive MaxSpeed.fromPrimitive 20 28 4

abbrev supportFastRead1s1d1d := bool 21 0 1
abbrev supportFastRead1s2d2d := bool 21 1 1
abbrev supportFastRead1s4d4d := bool 21 2 1
abbrev supportFastRead4s4d4d := bool 21 3 1

abbrev waitStates1s1d1d := u8 22 0 5
abbrev modeBits1s1d1d := u8 22 5 3
abbrev readOpcode1s1d1d := u8 22 8 8
abbrev waitStates1s2d2d := u8 22 16 5
abbrev modeBits1s2d2d := u8 22 21 3
abbrev readOpcode1s2d2d := u8 22 24 8

abbrev waitStates1s4d4d := u8 23 0 5
abbrev modeBits1s4d4d := u8 23 5 3
abbrev readOpcode1s4d4d := u8 23 8 8
abbrev waitStates4s4d4d := u8 23 16 5
abbrev modeBits4s4d4d := u8 23 21 3
abbrev readOpcode4s4d4d := u8 23 24 8

end JedecField

variable {α : Type}

/-- The body of an accessor: `self.data[dword - 1]`, the bits, and the conversion. -/
def InternalJedecParams.read (p : InternalJedecParams) (field : JedecField α) : SfdpRun α := do
  let word ← index p.data (field.dword - 1)
  let bits ← field.bitField.extract word
  field.convert bits

/-- The bits of a table that a field covers. -/
def InternalJedecParams.bits (p : InternalJedecParams) (dword offset size : ℕ) : Word :=
  BitField.bits ⟨offset, size⟩ (p.data.getD (dword - 1) 0)

/-- A field that lies inside its dword and is narrower than it. -/
def BitField.Fits (field : BitField) : Prop :=
  0 < field.size ∧ field.size < 32 ∧ field.offset + field.size ≤ 32

instance (field : BitField) : Decidable field.Fits := inferInstanceAs (Decidable (_ ∧ _ ∧ _))

theorem BitField.toNat_one_shiftLeft {size : ℕ} (h : size < 32) :
    ((1 : Word) <<< size).toNat = 2 ^ size := by
  have hlt : 2 ^ size < 2 ^ 32 := Nat.pow_lt_pow_right (by decide) h
  rw [BitVec.toNat_shiftLeft, Nat.shiftLeft_eq]
  exact (congrArg (· % 2 ^ 32) (Nat.one_mul _)).trans (Nat.mod_eq_of_lt hlt)

theorem BitField.one_le_shiftLeft {size : ℕ} (h : size < 32) :
    (1 : Word) ≤ (1 : Word) <<< size := by
  rw [BitVec.le_def, toNat_one_shiftLeft h]
  exact Nat.two_pow_pos size

theorem BitField.toNat_mask {size : ℕ} (h : size < 32) :
    ((1 : Word) <<< size - 1).toNat = 2 ^ size - 1 := by
  rw [BitVec.toNat_sub_of_le (one_le_shiftLeft h), toNat_one_shiftLeft h]
  rfl

theorem BitField.Fits.extract_eq {field : BitField} (h : field.Fits) (word : Word) :
    field.extract word = pure (field.bits word) := by
  obtain ⟨hpos, hsize, hle⟩ := h
  have hshift : (checkedShl 1 field.size : SfdpRun Word) = pure ((1 : Word) <<< field.size) :=
    (returns_checkedShl 1 field.size).eq hsize
  have hmask : (checkedSub ((1 : Word) <<< field.size) 1 : SfdpRun Word) =
      pure ((1 : Word) <<< field.size - 1) :=
    (returns_checkedSub _ _).eq (one_le_shiftLeft hsize)
  have hoffset : (checkedShr word field.offset : SfdpRun Word) = pure (word >>> field.offset) :=
    (returns_checkedShr word field.offset).eq (by omega)
  rw [extract, hshift, pure_bind, hmask, pure_bind, hoffset, pure_bind]
  rfl

theorem BitField.Fits.toNat_bits_lt {field : BitField} (h : field.Fits) (word : Word) :
    (field.bits word).toNat < 2 ^ field.size := by
  rw [bits, BitVec.toNat_and, toNat_mask h.2.1]
  exact Nat.lt_of_le_of_lt Nat.and_le_right (Nat.sub_lt (Nat.two_pow_pos _) Nat.one_pos)

/-- An accessor whose field lies inside its dword and whose conversion never fails. -/
structure JedecField.Total (field : JedecField α) (value : Word → α) : Prop where
  dword_pos : 0 < field.dword
  fits : field.bitField.Fits
  convert_eq (bits : Word) (h : bits.toNat < 2 ^ field.bitField.size) :
    field.convert bits = pure (value bits)

variable {p : InternalJedecParams} {field : JedecField α} {value : Word → α}
  {dword offset size n : ℕ}

/-- An accessor stops only where the table ends before its dword. -/
theorem JedecField.Total.returns_read (h : field.Total value) :
    Returns (field.dword ≤ p.data.length) (p.read field)
      (value (p.bits field.dword field.bitField.offset field.bitField.size)) := by
  have hpos := h.dword_pos
  refine ((returns_index p.data (field.dword - 1)).bind fun _ => ?_).congr
    ((and_iff_left trivial).trans ⟨fun h => ?_, fun h => ?_⟩)
  · rw [h.fits.extract_eq, pure_bind, h.convert_eq _ (h.fits.toNat_bits_lt _)]
    exact returns_pure _
  · omega
  · omega

namespace JedecField

theorem total_bool (hpos : 0 < dword) (hfits : BitField.Fits ⟨offset, size⟩) :
    (bool dword offset size).Total fun bits => bits != 0 :=
  ⟨hpos, hfits, fun _ _ => rfl⟩

theorem total_u32 (hpos : 0 < dword) (hfits : BitField.Fits ⟨offset, size⟩) :
    (u32 dword offset size).Total id :=
  ⟨hpos, hfits, fun _ _ => rfl⟩

theorem total_usize (hpos : 0 < dword) (hfits : BitField.Fits ⟨offset, size⟩) :
    (usize dword offset size).Total BitVec.toNat :=
  ⟨hpos, hfits, fun _ _ => rfl⟩

theorem total_primitive (fromPrimitive : Word → α) (hpos : 0 < dword)
    (hfits : BitField.Fits ⟨offset, size⟩) :
    (primitive fromPrimitive dword offset size).Total fromPrimitive :=
  ⟨hpos, hfits, fun _ _ => rfl⟩

theorem tryFrom_eq {width : ℕ} {bits : Word} (hle : size ≤ width) (h : bits.toNat < 2 ^ size) :
    tryFrom width bits = pure (bits.setWidth width) :=
  if_pos (Nat.lt_of_lt_of_le h (Nat.pow_le_pow_right Nat.two_pos hle))

theorem total_u8 (hpos : 0 < dword) (hfits : BitField.Fits ⟨offset, size⟩) (hle : size ≤ 8) :
    (u8 dword offset size).Total fun bits => bits.setWidth 8 :=
  ⟨hpos, hfits, fun _ h => tryFrom_eq hle h⟩

theorem total_u16 (hpos : 0 < dword) (hfits : BitField.Fits ⟨offset, size⟩) (hle : size ≤ 16) :
    (u16 dword offset size).Total fun bits => bits.setWidth 16 :=
  ⟨hpos, hfits, fun _ h => tryFrom_eq hle h⟩

end JedecField

end SecureBoot
