import SecureBoot.Base.Word
import SecureBoot.Lib.Gcm

/-! The AES driver of the crypto library on the AES unit: its registers, and the unit as a
parameter that stands for the block function and the modes. A wait for a status bit ends when
the unit is done with what it was given, or with an error on an alert. -/

namespace SecureBoot

/-- `aes_error_t`. -/
inductive AesError
  | kAesOk
  | kAesInternalError
  deriving DecidableEq, Repr

abbrev kAesBlockNumBytes : ℕ := 16

abbrev kAesBlockNumWords : ℕ := 4

/-! ### Blocks -/

/-- `aes_block_t`. -/
abbrev AesBlock := Fin kAesBlockNumWords → Word

theorem neZero_kAesBlockNumWords : NeZero kAesBlockNumWords := ⟨by decide⟩

theorem neZero_keyShares : NeZero 2 := ⟨by decide⟩

attribute [local instance] neZero_kAesBlockNumWords neZero_keyShares

namespace AesBlock

def zero : AesBlock := fun _ => 0

/-- Byte `k` of the block in memory. -/
def byte (b : AesBlock) (k : ℕ) : Byte :=
  (b (Fin.ofNat kAesBlockNumWords (k / 4))).extractLsb' (8 * (k % 4)) 8

def toBytes (b : AesBlock) : List Byte := (List.range kAesBlockNumBytes).map b.byte

/-- A copy of up to 16 bytes into a block of zeros. -/
def ofBytes (l : List Byte) : AesBlock := fun w =>
  Word.ofBytes (l.getD (4 * w) 0) (l.getD (4 * w + 1) 0) (l.getD (4 * w + 2) 0)
    (l.getD (4 * w + 3) 0)

/-- The bit string of the standard: the bytes in their order, each from its highest bit. -/
def value (b : AesBlock) : Gcm.Block :=
  Bits.ofBits 128 fun i => (b.byte (15 - i / 8)).getLsbD (i % 8)

theorem byte_value (b : AesBlock) {k : ℕ} (hk : k < 16) : Gcm.byte b.value k = b.byte k := by
  apply BitVec.eq_of_getLsbD_eq
  intro j hj
  have hdiv : 15 - (8 * (15 - k) + j) / 8 = k := by omega
  have hmod : (8 * (15 - k) + j) % 8 = j := by omega
  rw [Gcm.byte, BitVec.getLsbD_extractLsb', decide_eq_true hj, Bool.true_and, value,
    Bits.getLsbD_ofBits (by omega), hdiv, hmod]

theorem toBytes_eq (b : AesBlock) : b.toBytes = Gcm.toBytes b.value :=
  List.map_congr_left fun _ hk => (byte_value b (List.mem_range.1 hk)).symm

theorem byte_ofBytes (l : List Byte) {k : ℕ} (hk : k < 16) : (ofBytes l).byte k = l.getD k 0 := by
  have hword := Word.toBytes_ofBytes (l.getD (4 * (k / 4)) 0) (l.getD (4 * (k / 4) + 1) 0)
    (l.getD (4 * (k / 4) + 2) 0) (l.getD (4 * (k / 4) + 3) 0)
  simp only [Word.toBytes, List.cons.injEq, and_true] at hword
  obtain ⟨h₀, h₁, h₂, h₃⟩ := hword
  have hfin : (Fin.ofNat kAesBlockNumWords (k / 4) : ℕ) = k / 4 :=
    Nat.mod_eq_of_lt (show k / 4 < 4 by omega)
  rw [byte, ofBytes, hfin]
  have hmod : k % 4 < 4 := Nat.mod_lt k (by omega)
  generalize hr : k % 4 = r at hmod ⊢
  obtain rfl | rfl | rfl | rfl : r = 0 ∨ r = 1 ∨ r = 2 ∨ r = 3 := by omega
  · rw [Nat.mul_zero, h₀]; congr 1; omega
  · rw [h₁]; congr 1; omega
  · rw [h₂]; congr 1; omega
  · rw [h₃]; congr 1; omega

theorem value_ofBytes (l : List Byte) : (ofBytes l).value = Gcm.ofBytes l := by
  refine Gcm.eq_of_byte_eq fun k hk => ?_
  rw [byte_value _ hk, byte_ofBytes l hk, Gcm.ofBytes, Gcm.byte_blockAt l 0 hk, Nat.mul_zero,
    Nat.zero_add]

end AesBlock

/-! ### Keys -/

abbrev kAesCipherModeEcb : Word := 1

abbrev kAesCipherModeCtr : Word := 16

abbrev kAesKeyLen128 : Word := 1

abbrev kAesKeyLen192 : Word := 2

abbrev kAesKeyLen256 : Word := 4

/-- `aes_key_t`. -/
structure AesKey where
  mode : Word
  sideload : Word
  key_len : Word
  key_shares : Fin 2 → ℕ → Word

/-- The switch of `aes_write_key` on the length. -/
def AesKey.keyWords (key : AesKey) : Option ℕ :=
  if key.key_len = kAesKeyLen128 then some 4
  else if key.key_len = kAesKeyLen192 then some 6
  else if key.key_len = kAesKeyLen256 then some 8
  else none

/-! ### The unit -/

abbrev AES_CTRL_SHADOWED_OPERATION_FIELD : BitfieldField32 := ⟨0x3, 0⟩

abbrev AES_CTRL_SHADOWED_OPERATION_VALUE_AES_ENC : Word := 1

abbrev AES_CTRL_SHADOWED_OPERATION_VALUE_AES_DEC : Word := 2

abbrev AES_CTRL_SHADOWED_MODE_FIELD : BitfieldField32 := ⟨0x3f, 2⟩

abbrev AES_CTRL_SHADOWED_KEY_LEN_FIELD : BitfieldField32 := ⟨0x7, 8⟩

abbrev AES_CTRL_SHADOWED_SIDELOAD_BIT : ℕ := 11

abbrev AES_CTRL_SHADOWED_PRNG_RESEED_RATE_FIELD : BitfieldField32 := ⟨0x7, 12⟩

abbrev AES_CTRL_SHADOWED_PRNG_RESEED_RATE_VALUE_PER_64 : Word := 2

abbrev AES_CTRL_SHADOWED_MANUAL_OPERATION_BIT : ℕ := 15

abbrev AES_CTRL_SHADOWED_REG_RESVAL : Word := 0x1181

/-- The registers of the unit; `data_out` holds a block while the output is valid, and `alert`
stands for the two alert bits of the status. -/
structure AesRegs where
  ctrl : Word
  key_share : Fin 2 → Fin 8 → Word
  iv : AesBlock
  data_out : Option AesBlock
  alert : Bool

namespace AesRegs

variable (r : AesRegs)

def operation : Word := bitfieldField32Read r.ctrl AES_CTRL_SHADOWED_OPERATION_FIELD

def mode : Word := bitfieldField32Read r.ctrl AES_CTRL_SHADOWED_MODE_FIELD

def key_len : Word := bitfieldField32Read r.ctrl AES_CTRL_SHADOWED_KEY_LEN_FIELD

def sideload : Bool := bitfieldBit32Read r.ctrl AES_CTRL_SHADOWED_SIDELOAD_BIT

def manual_operation : Bool := bitfieldBit32Read r.ctrl AES_CTRL_SHADOWED_MANUAL_OPERATION_BIT

/-- The initial key, of which the unit uses as many words as the length says. -/
def key : Fin 8 → Word := fun i => r.key_share 0 i ^^^ r.key_share 1 i

end AesRegs

/-- The AES unit: its block function, what it makes of a block of input, and what its
pseudo-random generator leaves in cleared registers. -/
structure AesUnit where
  cipher : Word → (Fin 8 → Word) → Gcm.Block → Gcm.Block
  crypt : AesRegs → AesBlock → AesBlock × AesBlock
  cleared : AesRegs
  /-- Counter mode adds the encrypted counter to the input. -/
  crypt_ctr : ∀ r data_in, r.operation = AES_CTRL_SHADOWED_OPERATION_VALUE_AES_ENC →
    r.mode = kAesCipherModeCtr → r.sideload = false → r.manual_operation = false →
    (crypt r data_in).1.value = data_in.value ^^^ cipher r.key_len r.key r.iv.value

/-- A program on the unit; `none` is a trap. -/
abbrev AesM := StateT AesRegs Option

section AesM

variable {α β : Type} (r : AesRegs)

theorem AesM.bind_apply (x : AesM α) (f : α → AesM β) :
    (x >>= f) r = (x r).bind fun p => f p.1 p.2 := rfl

theorem AesM.map_apply (f : α → β) (x : AesM α) :
    (f <$> x) r = (x r).map fun p => (f p.1, p.2) := by
  cases h : x r <;> simp [Functor.map, StateT.map, h]

theorem AesM.get_apply : (get : AesM AesRegs) r = some (r, r) := rfl

theorem AesM.modify_apply (f : AesRegs → AesRegs) :
    (modify f : AesM PUnit) r = some (⟨⟩, f r) := rfl

end AesM

/-! ### The driver -/

/-- The value that `aes_begin` writes to the control register, for an operation and a sideload
bit. -/
def aesCtrlReg (operation : Word) (sideload : Bool) (key : AesKey) : Word :=
  let ctrl_reg := AES_CTRL_SHADOWED_REG_RESVAL
  let ctrl_reg := bitfieldField32Write ctrl_reg AES_CTRL_SHADOWED_OPERATION_FIELD operation
  let ctrl_reg := bitfieldBit32Write ctrl_reg AES_CTRL_SHADOWED_SIDELOAD_BIT sideload
  let ctrl_reg := bitfieldField32Write ctrl_reg AES_CTRL_SHADOWED_MODE_FIELD key.mode
  let ctrl_reg := bitfieldField32Write ctrl_reg AES_CTRL_SHADOWED_KEY_LEN_FIELD key.key_len
  let ctrl_reg := bitfieldBit32Write ctrl_reg AES_CTRL_SHADOWED_MANUAL_OPERATION_BIT false
  bitfieldField32Write ctrl_reg AES_CTRL_SHADOWED_PRNG_RESEED_RATE_FIELD
    AES_CTRL_SHADOWED_PRNG_RESEED_RATE_VALUE_PER_64

/-- The wait for a status bit. -/
def spinUntil : AesM AesError := do
  return if (← get).alert then .kAesInternalError else .kAesOk

/-- `aes_write_key`: the words that the key does not have are zero. -/
def aesWriteKey (key : AesKey) : AesM AesError := do
  if key.sideload ≠ kHardenedBoolFalse then
    return .kAesOk
  match key.keyWords with
  | none => return .kAesInternalError
  | some key_words =>
    modify fun r => { r with
      key_share := fun s i => if (i : ℕ) < key_words then key.key_shares s i else 0 }
    spinUntil

def aesBegin (key : AesKey) (iv : AesBlock) (encrypt : Word) : AesM AesError := do
  let err ← spinUntil
  if err ≠ .kAesOk then
    return err
  if encrypt ≠ kHardenedBoolTrue ∧ encrypt ≠ kHardenedBoolFalse then
    return .kAesInternalError
  if key.sideload ≠ kHardenedBoolTrue ∧ key.sideload ≠ kHardenedBoolFalse then
    return .kAesInternalError
  let operation := if encrypt = kHardenedBoolTrue then AES_CTRL_SHADOWED_OPERATION_VALUE_AES_ENC
    else AES_CTRL_SHADOWED_OPERATION_VALUE_AES_DEC
  modify fun r => { r with ctrl := aesCtrlReg operation (key.sideload == kHardenedBoolTrue) key }
  let err ← spinUntil
  if err ≠ .kAesOk then
    return err
  let err ← aesWriteKey key
  if err ≠ .kAesOk then
    return err
  if key.mode = kAesCipherModeEcb then
    return .kAesOk
  modify fun r => { r with iv }
  return .kAesOk

def aesEncryptBegin (key : AesKey) (iv : AesBlock) : AesM AesError :=
  aesBegin key iv kHardenedBoolTrue

/-- `aes_update` with an input and no output. -/
def aesUpdateSrc (hw : AesUnit) (src : AesBlock) : AesM AesError := do
  let err ← spinUntil
  if err ≠ .kAesOk then
    return err
  modify fun r => { r with data_out := some (hw.crypt r src).1, iv := (hw.crypt r src).2 }
  return .kAesOk

/-- `aes_update` with an output and no input; a unit that is idle without an output is an
error. -/
def aesUpdateDest (dest : AesBlock) : AesM (AesError × AesBlock) := do
  match (← get).data_out with
  | none => return (.kAesInternalError, dest)
  | some block =>
    let err ← spinUntil
    if err ≠ .kAesOk then
      return (err, dest)
    modify fun r => { r with data_out := none }
    return (.kAesOk, block)

/-- `aes_end`: manual operation, and all key and data registers are cleared. -/
def aesEnd (hw : AesUnit) : AesM AesError := do
  modify fun r => { hw.cleared with
    ctrl := bitfieldBit32Write AES_CTRL_SHADOWED_REG_RESVAL
      AES_CTRL_SHADOWED_MANUAL_OPERATION_BIT true
    data_out := none
    alert := r.alert }
  spinUntil

end SecureBoot
