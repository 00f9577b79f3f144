import SecureBoot.Base.Io
import SecureBoot.Lib.Montgomery
import SecureBoot.Lib.Cyclic

/-! RSA-3072 buffers and public keys. -/

namespace SecureBoot

abbrev kSigVerifyRsaNumBits : ℕ := 3072

abbrev kSigVerifyRsaNumBytes : ℕ := 384

abbrev kSigVerifyRsaNumWords : ℕ := 96

/-- `sigverify_rsa_buffer_t`: a little-endian integer of 96 words. -/
abbrev SigverifyRsaBuffer := Vector Word kSigVerifyRsaNumWords

/-- `R = 2 ^ kSigVerifyRsaNumBits`, one more than the largest buffer. -/
def rsaRadix : ℕ := (2 ^ 32) ^ kSigVerifyRsaNumWords

/-- The integer a buffer holds. -/
def SigverifyRsaBuffer.value (a : SigverifyRsaBuffer) : ℕ := Limbs.value a.toList

/-- The octet string of a buffer, most significant byte first. -/
def SigverifyRsaBuffer.octets (a : SigverifyRsaBuffer) : List Byte :=
  (wordsToBytes a.toList).reverse

/-- `sigverify_rsa_key_t`: an RSA public key with exponent 65537. `n0Inv` is the
negative of the inverse of the modulus modulo `2 ^ 256`; Ibex uses its first word. -/
structure SigverifyRsaKey where
  n : SigverifyRsaBuffer
  n0Inv : Vector Word 8

/-- `sigverify_rsa_key_id_get`: the least significant word of the modulus. -/
def sigverifyRsaKeyIdGet (modulus : SigverifyRsaBuffer) : Word := modulus[0]

/-- A buffer from a list of the right length. -/
def SigverifyRsaBuffer.ofList (ws : List Word) (h : ws.length = kSigVerifyRsaNumWords) :
    SigverifyRsaBuffer :=
  ⟨ws.toArray, by simpa using h⟩

@[simp] theorem SigverifyRsaBuffer.toList_ofList (ws : List Word)
    (h : ws.length = kSigVerifyRsaNumWords) : (SigverifyRsaBuffer.ofList ws h).toList = ws := by
  simp [SigverifyRsaBuffer.ofList]

theorem SigverifyRsaBuffer.value_lt (a : SigverifyRsaBuffer) : a.value < rsaRadix := by
  have h := Limbs.value_lt a.toList
  rwa [Vector.length_toList] at h

/-- What the source promises of a key in the ROM table: an odd modulus of full
length, and a first word of `n0Inv` that is `-n⁻¹` modulo `2 ^ 32`. -/
structure SigverifyRsaKey.WellFormed (key : SigverifyRsaKey) : Prop where
  odd : key.n.value % 2 = 1
  full : rsaRadix < 2 * key.n.value
  inv : (key.n.value * key.n0Inv[0].toNat + 1) % 2 ^ 32 = 0

end SecureBoot

/-! The public keys in ROM. `sigverify_rsa_key_get` visits the table from a random start in steps
of a fixed size; which types of keys can be used depends on the life cycle state, and outside of
the test states OTP can invalidate a key. -/

namespace SecureBoot

/-- `sigverify_key_type_t`. -/
inductive SigverifyKeyType where
  | test | prod | dev
  deriving DecidableEq, Repr

/-- `sigverify_rom_key_t`. -/
structure SigverifyRomKey where
  key : SigverifyRsaKey
  key_type : SigverifyKeyType

def SigverifyRomKey.id (k : SigverifyRomKey) : Word := sigverifyRsaKeyIdGet k.key.n

/-- `sizeof(sigverify_rom_key_t)`. -/
abbrev kSigverifyRomKeySize : ℕ := 420

/-- `kSigverifyRsaKeys` and `kSigverifyRsaKeysStep`. -/
structure SigverifyRsaKeys where
  keys : List SigverifyRomKey
  step : Word
  fits : kSigverifyRomKeySize * keys.length < 2 ^ 32
  step_le : keys ≠ [] → step.toNat ≤ keys.length
  coprime : keys ≠ [] → Nat.Coprime step.toNat keys.length
  nodup : (keys.map SigverifyRomKey.id).Nodup

abbrev kSigverifyNumEntriesPerOtpWord : Word := 4

abbrev kOtpCreatorSwCfgKeyIsValid : Word := 232

/-! ### Validity -/

section Validity

-- The value of `otp_read32` at an address.
variable (otp : Word → Word)

def keyIsValidInOtp (key_index : Word) : RomError :=
  let addr := kOtpCreatorSwCfgKeyIsValid + key_index / kSigverifyNumEntriesPerOtpWord * 4
  let field : BitfieldField32 := ⟨0xff, (key_index % kSigverifyNumEntriesPerOtpWord * 8).toNat⟩
  if bitfieldField32Read (otp addr) field = kHardenedByteBoolTrue then kErrorOk
  else kErrorSigverifyBadKey

def keyIsValidInLcStateRma (key_type : SigverifyKeyType) (key_index : Word) : RomError :=
  match key_type with
  | .test => keyIsValidInOtp otp key_index
  | .prod => keyIsValidInOtp otp key_index
  | .dev => kErrorSigverifyBadKey

def keyIsValidInLcStateDev (key_type : SigverifyKeyType) (key_index : Word) : RomError :=
  match key_type with
  | .test => kErrorSigverifyBadKey
  | .prod => keyIsValidInOtp otp key_index
  | .dev => keyIsValidInOtp otp key_index

def keyIsValidInLcStateProd (key_type : SigverifyKeyType) (key_index : Word) : RomError :=
  match key_type with
  | .test => kErrorSigverifyBadKey
  | .prod => keyIsValidInOtp otp key_index
  | .dev => kErrorSigverifyBadKey

def keyIsValidInLcStateTest (key_type : SigverifyKeyType) : RomError :=
  match key_type with
  | .test => kErrorOk
  | .prod => kErrorOk
  | .dev => kErrorSigverifyBadKey

def keyIsValid (key_type : SigverifyKeyType) (lc_state : LifecycleState) (key_index : Word) :
    RomError :=
  match lc_state with
  | .test => keyIsValidInLcStateTest key_type
  | .prod => keyIsValidInLcStateProd otp key_type key_index
  | .prodEnd => keyIsValidInLcStateProd otp key_type key_index
  | .dev => keyIsValidInLcStateDev otp key_type key_index
  | .rma => keyIsValidInLcStateRma otp key_type key_index

/-- The byte at an address of OTP. -/
def otpByte (addr : Word) : Byte :=
  ((otp (addr - addr % 4)) >>> (8 * (addr % 4).toNat)).setWidth 8

/-- The states in which keys of a type can be used. -/
def SigverifyKeyType.states : SigverifyKeyType → List LifecycleState
  | .test => [.test, .rma]
  | .prod => [.test, .dev, .prod, .prodEnd, .rma]
  | .dev => [.dev]

/-- A key of this type and index can be used. -/
def KeyUsable (key_type : SigverifyKeyType) (lc_state : LifecycleState) (key_index : Word) : Prop :=
  lc_state ∈ key_type.states ∧
    (lc_state ≠ .test →
      otpByte otp (kOtpCreatorSwCfgKeyIsValid + key_index) = kHardenedByteBoolTrue.setWidth 8)

end Validity

/-! ### The search -/

section Search

variable (T : SigverifyRsaKeys)

/-- `kSigverifyRsaKeysCnt`. -/
def SigverifyRsaKeys.cnt : Word := .ofNat 32 T.keys.length

/-- A key of the table; an index outside of it counts as a trap. -/
def SigverifyRsaKeys.at (i : Word) : Except Trap SigverifyRomKey :=
  match T.keys[i.toNat]? with
  | some k => .ok k
  | none => .error .hardened

/-- The variables of the loop. -/
structure KeySearch where
  i : Word
  iter_cnt : Word
  cand_key_index : Word
  /-- The indices of the keys that were read, latest first. -/
  visited : List Word

def keyCheck (c : Prop) [Decidable c] : Except Trap Unit := if c then .ok ⟨⟩ else .error .hardened

variable (otp : Word → Word) (key_id : Word) (lc_state : LifecycleState)

/-- One iteration. -/
def sigverifyRsaKeyStep (s : KeySearch) : Except Trap KeySearch := do
  let k ← T.at s.i
  let cand_key_index :=
    if k.id = key_id then
      if keyIsValid otp k.key_type lc_state s.i = kErrorOk then s.i else s.cand_key_index
    else s.cand_key_index
  let i := if T.cnt ≤ s.i + T.step then s.i + T.step - T.cnt else s.i + T.step
  keyCheck (i < T.cnt)
  return ⟨i, s.iter_cnt + 1, cand_key_index, s.i :: s.visited⟩

/-- At most `n` iterations. -/
def sigverifyRsaKeyLoop : ℕ → KeySearch → Except Trap KeySearch
  | 0, s => return s
  | n + 1, s =>
    if s.iter_cnt < T.cnt then do
      let s ← sigverifyRsaKeyStep T otp key_id lc_state s
      sigverifyRsaKeyLoop n s
    else return s

/-- The part of `sigverify_rsa_key_get` up to the check of `iter_cnt`. -/
def sigverifyRsaKeySearch (rnd : Word) : Except Trap KeySearch := do
  let i := ((rnd.setWidth 64 * T.cnt.setWidth 64) >>> 32).setWidth 32
  let s ← sigverifyRsaKeyLoop T otp key_id lc_state T.keys.length ⟨i, 0, wordMax, []⟩
  keyCheck (s.iter_cnt = T.cnt)
  return s

/-- The error and the key. -/
def sigverifyRsaKeyGet (rnd : Word) : Except Trap (RomError × Option SigverifyRsaKey) := do
  let s ← sigverifyRsaKeySearch T otp key_id lc_state rnd
  if s.cand_key_index < T.cnt then do
    let k ← T.at s.cand_key_index
    let error := keyIsValid otp k.key_type lc_state s.cand_key_index
    keyCheck (error = kErrorOk)
    return (error, some k.key)
  else return (kErrorSigverifyBadKey, none)

end Search

end SecureBoot
