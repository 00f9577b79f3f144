import SecureBoot.Base.Word
import SecureBoot.Lib.Digits
import SecureBoot.Lib.Chunks

/-! Manifests as the host tool edits them: a specification has a place for every field of a
manifest, which may be left open. A manifest makes a specification without open places, from which
it can be built again, and one specification can be laid over another one. -/

namespace SecureBoot

open Rust Chunks

namespace HostManifest

inductive SpecError
  | missingField (name : String)
  | overflow
  | underflow
  deriving DecidableEq, Repr

/-! ### Integers of a fixed size -/

/-- `FixedSizeBigInt`: at most `bitLen` bits, or exactly as many. -/
structure FixedSizeBigInt (bitLen : ℕ) (exactLen : Bool) where
  value : ℕ
  size_le : value.size ≤ bitLen
  size_eq : exactLen = true → value.size = bitLen

namespace FixedSizeBigInt

variable {bitLen : ℕ} {exactLen : Bool}

instance : DecidableEq (FixedSizeBigInt bitLen exactLen) := fun a b =>
  decidable_of_iff (a.value = b.value) <| by cases a; cases b; simp

/-- `BYTE_LEN`. -/
abbrev byteLen (bitLen : ℕ) : ℕ := (bitLen + 7) / 8

def newFromBiguint (n : ℕ) : Run SpecError (FixedSizeBigInt bitLen exactLen) :=
  if hle : n.size ≤ bitLen then
    if hexact : exactLen = true → n.size = bitLen then pure ⟨n, hle, hexact⟩ else fail .underflow
  else fail .overflow

def fromLeBytes (bytes : List Byte) : Run SpecError (FixedSizeBigInt bitLen exactLen) :=
  newFromBiguint (BigUint.fromBytesLe bytes)

def toLeBytes (n : FixedSizeBigInt bitLen exactLen) : Run SpecError (List Byte) :=
  let v := BigUint.toBytesLe n.value
  -- An assertion stops as an `unwrap` does.
  if v.length ≤ byteLen bitLen then pure (BigUint.resize v (byteLen bitLen) 0) else stop .unwrap

end FixedSizeBigInt

/-- `fixed_size_bigint!(ManifestRsaBuffer, at_most 3072)`. -/
abbrev ManifestRsaBuffer := FixedSizeBigInt 3072 false

/-! ### The manifest -/

/-- `SigverifyRsaBuffer`. -/
structure SigverifyRsaBuffer where
  data : Vector Word 96
  deriving DecidableEq

structure LifecycleDeviceId where
  deviceId : Vector Word 8
  deriving DecidableEq

structure KeymgrBindingValue where
  data : Vector Word 8
  deriving DecidableEq

structure ManifestUsageConstraints where
  selectorBits : Word
  deviceId : LifecycleDeviceId
  manufStateCreator : Word
  manufStateOwner : Word
  lifeCycleState : Word
  deriving DecidableEq

structure Manifest where
  signature : SigverifyRsaBuffer
  usageConstraints : ManifestUsageConstraints
  modulus : SigverifyRsaBuffer
  addressTranslation : Word
  identifier : Word
  length : Word
  versionMajor : Word
  versionMinor : Word
  securityVersion : Word
  timestamp : BitVec 64
  bindingValue : KeymgrBindingValue
  maxKeyVersion : Word
  codeStart : Word
  codeEnd : Word
  entryPoint : Word
  deriving DecidableEq

/-! ### Fields that may be left open -/

abbrev ManifestBigInt := Option ManifestRsaBuffer

abbrev ManifestSmallInt (α : Type) := Option α

section Packed

variable {α : Type} {n : ℕ}

/-- `unpack`, of a `ManifestBigInt` and of a `ManifestSmallInt`. -/
def unpack (name : String) (field : Option α) : Run SpecError α :=
  match field with
  | some v => pure v
  | none => fail (.missingField name)

/-- `overwrite`, of a `ManifestBigInt` and of a `ManifestSmallInt`. -/
def overwrite (field other : Option α) : Option α := if other.isSome then other else field

def isFull (field : Vector (ManifestSmallInt α) n) : Bool := field.toList.all Option.isSome

theorem isSome_of_isFull {field : Vector (ManifestSmallInt α) n} (h : isFull field = true)
    (i : Fin n) : (field.get i).isSome = true :=
  List.all_eq_true.1 h _ (Vector.mem_toList_iff.2 (Vector.getElem_mem i.isLt))

/-- `unpack` of an array, which fails with the error of its first open element. -/
def unpackArray (name : String) (field : Vector (ManifestSmallInt α) n) :
    Run SpecError (Vector α n) :=
  if h : isFull field = true then
    pure (.ofFn fun i => (field.get i).get (isSome_of_isFull h i))
  else fail (.missingField name)

/-- `overwrite` of an array, if all elements are present. -/
def overwriteArray (field other : Vector (ManifestSmallInt α) n) :
    Vector (ManifestSmallInt α) n :=
  if isFull other then other else field

end Packed

/-! ### Specifications -/

structure ManifestUsageConstraintsDef where
  selectorBits : ManifestSmallInt Word
  deviceId : Vector (ManifestSmallInt Word) 8
  manufStateCreator : ManifestSmallInt Word
  manufStateOwner : ManifestSmallInt Word
  lifeCycleState : ManifestSmallInt Word

structure ManifestSpec where
  signature : ManifestBigInt
  usageConstraints : ManifestUsageConstraintsDef
  modulus : ManifestBigInt
  addressTranslation : ManifestSmallInt Word
  identifier : ManifestSmallInt Word
  length : ManifestSmallInt Word
  versionMajor : ManifestSmallInt Word
  versionMinor : ManifestSmallInt Word
  securityVersion : ManifestSmallInt Word
  timestamp : ManifestSmallInt (BitVec 64)
  bindingValue : Vector (ManifestSmallInt Word) 8
  maxKeyVersion : ManifestSmallInt Word
  codeStart : ManifestSmallInt Word
  codeEnd : ManifestSmallInt Word
  entryPoint : ManifestSmallInt Word

/-! ### Conversions of one field -/

/-- `le_slice_to_arr`. -/
def leSliceToArr {α : Type} [Inhabited α] (n : ℕ) (slice : List α) : Run SpecError (Vector α n) :=
  if slice.length ≤ n then pure (.ofFn fun i => slice.getD i default) else stop .slice

/-- `u32::from_le_bytes`. -/
def u32FromLeBytes (bytes : Vector Byte 4) : Word :=
  Word.ofBytes (bytes.get ⟨0, Nat.le_of_ble_eq_true rfl⟩)
    (bytes.get ⟨1, Nat.le_of_ble_eq_true rfl⟩) (bytes.get ⟨2, Nat.le_of_ble_eq_true rfl⟩)
    (bytes.get ⟨3, Nat.le_of_ble_eq_true rfl⟩)

/-- `try_from` of a buffer of a manifest. -/
def ManifestRsaBuffer.toBuffer (rsa : ManifestRsaBuffer) : Run SpecError SigverifyRsaBuffer := do
  let zero : ManifestRsaBuffer ← FixedSizeBigInt.fromLeBytes [0]
  if rsa = zero then
    let data ← leSliceToArr 96 [0]
    pure ⟨data⟩
  else
    let bytes ← rsa.toLeBytes
    let words ← (chunks 4 bytes).mapM fun v => do
      let v ← leSliceToArr 4 v
      pure (u32FromLeBytes v)
    let data ← leSliceToArr 96 words
    pure ⟨data⟩

/-- `try_from` of a buffer for a specification; `as_bytes` gives the bytes as they are in memory. -/
def SigverifyRsaBuffer.toBigInt (o : SigverifyRsaBuffer) : Run SpecError ManifestBigInt := do
  let rsa ← FixedSizeBigInt.fromLeBytes (wordsToBytes o.data.toList)
  pure (some rsa)

def arrayOf {n : ℕ} (words : Vector Word n) : Vector (ManifestSmallInt Word) n := words.map some

/-! ### Conversions of whole structures -/

def ManifestUsageConstraintsDef.unpack (self : ManifestUsageConstraintsDef) (_name : String) :
    Run SpecError ManifestUsageConstraints := do
  let selectorBits ← HostManifest.unpack "selector_bits" self.selectorBits
  let deviceId ← unpackArray "device_id" self.deviceId
  let manufStateCreator ← HostManifest.unpack "manuf_state_creator" self.manufStateCreator
  let manufStateOwner ← HostManifest.unpack "manuf_state_owner" self.manufStateOwner
  let lifeCycleState ← HostManifest.unpack "life_cycle_state" self.lifeCycleState
  pure ⟨selectorBits, ⟨deviceId⟩, manufStateCreator, manufStateOwner, lifeCycleState⟩

def ManifestUsageConstraintsDef.overwrite (self o : ManifestUsageConstraintsDef) :
    ManifestUsageConstraintsDef where
  selectorBits := HostManifest.overwrite self.selectorBits o.selectorBits
  deviceId := overwriteArray self.deviceId o.deviceId
  manufStateCreator := HostManifest.overwrite self.manufStateCreator o.manufStateCreator
  manufStateOwner := HostManifest.overwrite self.manufStateOwner o.manufStateOwner
  lifeCycleState := HostManifest.overwrite self.lifeCycleState o.lifeCycleState

/-- `try_from`. -/
def ManifestUsageConstraintsDef.ofConstraints (o : ManifestUsageConstraints) :
    ManifestUsageConstraintsDef where
  selectorBits := some o.selectorBits
  deviceId := arrayOf o.deviceId.deviceId
  manufStateCreator := some o.manufStateCreator
  manufStateOwner := some o.manufStateOwner
  lifeCycleState := some o.lifeCycleState

def ManifestSpec.unpack (self : ManifestSpec) (_name : String) : Run SpecError Manifest := do
  let signature ← HostManifest.unpack "signature" self.signature
  let signature ← ManifestRsaBuffer.toBuffer signature
  let usageConstraints ← self.usageConstraints.unpack "usage_constraints"
  let modulus ← HostManifest.unpack "modulus" self.modulus
  let modulus ← ManifestRsaBuffer.toBuffer modulus
  let addressTranslation ← HostManifest.unpack "address_translation" self.addressTranslation
  let identifier ← HostManifest.unpack "identifier" self.identifier
  let length ← HostManifest.unpack "length" self.length
  let versionMajor ← HostManifest.unpack "version_major" self.versionMajor
  let versionMinor ← HostManifest.unpack "version_minor" self.versionMinor
  let securityVersion ← HostManifest.unpack "security_version" self.securityVersion
  let timestamp ← HostManifest.unpack "timestamp" self.timestamp
  let bindingValue ← unpackArray "binding_value" self.bindingValue
  let maxKeyVersion ← HostManifest.unpack "max_key_version" self.maxKeyVersion
  let codeStart ← HostManifest.unpack "code_start" self.codeStart
  let codeEnd ← HostManifest.unpack "code_end" self.codeEnd
  let entryPoint ← HostManifest.unpack "entry_point" self.entryPoint
  pure ⟨signature, usageConstraints, modulus, addressTranslation, identifier, length, versionMajor,
    versionMinor, securityVersion, timestamp, ⟨bindingValue⟩, maxKeyVersion, codeStart, codeEnd,
    entryPoint⟩

/-- `try_into` a manifest. -/
def ManifestSpec.toManifest (self : ManifestSpec) : Run SpecError Manifest := self.unpack ""

def ManifestSpec.overwrite (self o : ManifestSpec) : ManifestSpec where
  signature := HostManifest.overwrite self.signature o.signature
  usageConstraints := self.usageConstraints.overwrite o.usageConstraints
  modulus := HostManifest.overwrite self.modulus o.modulus
  addressTranslation := HostManifest.overwrite self.addressTranslation o.addressTranslation
  identifier := HostManifest.overwrite self.identifier o.identifier
  length := HostManifest.overwrite self.length o.length
  versionMajor := HostManifest.overwrite self.versionMajor o.versionMajor
  versionMinor := HostManifest.overwrite self.versionMinor o.versionMinor
  securityVersion := HostManifest.overwrite self.securityVersion o.securityVersion
  timestamp := HostManifest.overwrite self.timestamp o.timestamp
  bindingValue := overwriteArray self.bindingValue o.bindingValue
  maxKeyVersion := HostManifest.overwrite self.maxKeyVersion o.maxKeyVersion
  codeStart := HostManifest.overwrite self.codeStart o.codeStart
  codeEnd := HostManifest.overwrite self.codeEnd o.codeEnd
  entryPoint := HostManifest.overwrite self.entryPoint o.entryPoint

def ManifestSpec.overwriteFields (self other : ManifestSpec) : ManifestSpec := self.overwrite other

/-- `try_from` a manifest. -/
def ManifestSpec.ofManifest (o : Manifest) : Run SpecError ManifestSpec := do
  let signature ← o.signature.toBigInt
  let modulus ← o.modulus.toBigInt
  pure
    { signature
      usageConstraints := .ofConstraints o.usageConstraints
      modulus
      addressTranslation := some o.addressTranslation
      identifier := some o.identifier
      length := some o.length
      versionMajor := some o.versionMajor
      versionMinor := some o.versionMinor
      securityVersion := some o.securityVersion
      timestamp := some o.timestamp
      bindingValue := arrayOf o.bindingValue.data
      maxKeyVersion := some o.maxKeyVersion
      codeStart := some o.codeStart
      codeEnd := some o.codeEnd
      entryPoint := some o.entryPoint }

/-- `Image::overwrite_manifest`, on the manifest in the image. -/
def overwriteManifest (manifest : Manifest) (other : ManifestSpec) : Run SpecError Manifest := do
  let manifestDef ← ManifestSpec.ofManifest manifest
  (manifestDef.overwriteFields other).toManifest

/-! ### Buffers and integers -/

theorem exists_words {n : ℕ} {bytes : List Byte} (h : bytes.length = 4 * n) :
    ∃ ws : List Word, ws.length = n ∧ wordsToBytes ws = bytes := by
  induction n generalizing bytes with
  | zero => exact ⟨[], rfl, (List.length_eq_zero_iff.1 h).symm⟩
  | succ n ih =>
    rcases bytes with _ | ⟨b₀, _ | ⟨b₁, _ | ⟨b₂, _ | ⟨b₃, rest⟩⟩⟩⟩
    case cons.cons.cons.cons =>
      obtain ⟨ws, hlength, hws⟩ := ih (by simpa [Nat.mul_succ] using h : rest.length = 4 * n)
      refine ⟨Word.ofBytes b₀ b₁ b₂ b₃ :: ws, congrArg Nat.succ hlength, ?_⟩
      rw [wordsToBytes, List.flatMap_cons, Word.toBytes_ofBytes, ← hws]
      rfl
    all_goals
      simp only [List.length_cons, List.length_nil] at h
      omega

theorem chunks_wordsToBytes (ws : List Word) :
    chunks 4 (wordsToBytes ws) = ws.map Word.toBytes := by
  induction ws with
  | nil => rfl
  | cons w ws ih =>
    rw [List.map_cons, ← ih]
    exact chunks_append (by decide) w.length_toBytes

theorem leSliceToArr_toBytes (w : Word) :
    (do
      let v ← leSliceToArr 4 w.toBytes
      pure (u32FromLeBytes v) : Run SpecError Word) = pure w := by
  rw [leSliceToArr, if_pos w.length_toBytes.le, pure_bind]
  exact congrArg pure w.ofBytes_extract

theorem leSliceToArr_of_length {n : ℕ} {ws : List Word} (h : ws.length = n) :
    ∃ data : Vector Word n, leSliceToArr n ws = pure data ∧ data.toList = ws := by
  refine ⟨_, if_pos h.le, ?_⟩
  subst h
  rw [Vector.toList_ofFn]
  refine List.ext_getElem (List.length_ofFn ..) fun i hi hi' => ?_
  rw [List.getElem_ofFn]
  exact (List.getElem_eq_getD default).symm

theorem FixedSizeBigInt.newFromBiguint_of_lt {n : ℕ} (h : n < 2 ^ 3072) :
    ∃ rsa : ManifestRsaBuffer, newFromBiguint n = pure rsa ∧ rsa.value = n := by
  have hle : n.size ≤ 3072 := Nat.size_le.2 h
  exact ⟨_, (dif_pos hle).trans (dif_pos fun hfalse => absurd hfalse Bool.false_ne_true), rfl⟩

/-- A buffer has the bytes of its integer. -/
def Represents (data : Vector Word 96) (rsa : ManifestRsaBuffer) : Prop :=
  BigUint.fromBytesLe (wordsToBytes data.toList) = rsa.value

theorem length_dataBytes (data : Vector Word 96) : (wordsToBytes data.toList).length = 384 := by
  rw [length_wordsToBytes, Vector.length_toList]

theorem Represents.eq {data data' : Vector Word 96} {rsa : ManifestRsaBuffer}
    (h : Represents data rsa) (h' : Represents data' rsa) : data = data' := by
  have hbytes := BigUint.fromBytesLe_inj
    ((length_dataBytes data).trans (length_dataBytes data').symm) (h.trans h'.symm)
  apply Vector.toList_inj.1
  apply (wordsToBytes_inj _).1 hbytes
  rw [Vector.length_toList, Vector.length_toList]

theorem Represents.eq_integer {data : Vector Word 96} {rsa rsa' : ManifestRsaBuffer}
    (h : Represents data rsa) (h' : Represents data rsa') : rsa = rsa' := by
  have hvalue : rsa.value = rsa'.value := h.symm.trans h'
  cases rsa
  cases rsa'
  cases hvalue
  rfl

theorem toBigInt_eq (o : SigverifyRsaBuffer) :
    ∃ rsa, o.toBigInt = pure (some rsa) ∧ Represents o.data rsa := by
  have hlt := BigUint.fromBytesLe_lt (wordsToBytes o.data.toList)
  rw [length_dataBytes, show 256 = 2 ^ 8 from rfl, ← Nat.pow_mul] at hlt
  obtain ⟨rsa, hrsa, hvalue⟩ := FixedSizeBigInt.newFromBiguint_of_lt hlt
  refine ⟨rsa, ?_, hvalue.symm⟩
  rw [SigverifyRsaBuffer.toBigInt, FixedSizeBigInt.fromLeBytes, hrsa]
  rfl

theorem toLeBytes_eq (rsa : ManifestRsaBuffer) :
    ∃ bytes, rsa.toLeBytes = pure bytes ∧ bytes.length = 4 * 96 ∧
      BigUint.fromBytesLe bytes = rsa.value := by
  have hlt : rsa.value < 256 ^ 384 := by
    rw [show 256 = 2 ^ 8 from rfl, ← Nat.pow_mul]
    exact Nat.size_le.1 rsa.size_le
  refine ⟨_, if_pos (BigUint.length_toBytesLe_le hlt (by decide)), BigUint.length_resize _ _ _, ?_⟩
  exact BigUint.fromBytesLe_resize_toBytesLe hlt (by decide)

theorem toBuffer_eq (rsa : ManifestRsaBuffer) :
    ∃ o, ManifestRsaBuffer.toBuffer rsa = pure o ∧ Represents o.data rsa := by
  obtain ⟨zero, hzero, hvalue⟩ := FixedSizeBigInt.newFromBiguint_of_lt (n := 0) (Nat.two_pow_pos _)
  unfold ManifestRsaBuffer.toBuffer
  have hzero : (FixedSizeBigInt.fromLeBytes [0] : Run SpecError ManifestRsaBuffer) = pure zero :=
    hzero
  rw [hzero, pure_bind]
  split_ifs with h
  · refine ⟨_, rfl, ?_⟩
    rw [Represents, h, hvalue]
    decide +kernel
  · obtain ⟨bytes, hbytes, hlength, hsum⟩ := toLeBytes_eq rsa
    obtain ⟨ws, hws, rfl⟩ := exists_words hlength
    obtain ⟨data, hdata, rfl⟩ := leSliceToArr_of_length hws
    refine ⟨⟨data⟩, ?_, hsum⟩
    have hmap := mapM_eq_pure (l := data.toList) (h := id) fun w _ => leSliceToArr_toBytes w
    rw [hbytes, pure_bind, chunks_wordsToBytes, List.mapM_map]
    simp only [Function.comp_def]
    rw [hmap, pure_bind, List.map_id, hdata]
    rfl

/-! ### Fields at every level -/

/-- What a field holds. -/
inductive FieldKind
  | bigInt | word | time | words

def FieldKind.Value : FieldKind → Type
  | bigInt => ManifestBigInt
  | word => ManifestSmallInt Word
  | time => ManifestSmallInt (BitVec 64)
  | words => Vector (ManifestSmallInt Word) 8

/-- An array is present when all its elements are. -/
def FieldKind.present : (kind : FieldKind) → kind.Value → Bool
  | bigInt, v => Option.isSome v
  | word, v => Option.isSome v
  | time, v => Option.isSome v
  | words, v => isFull v

inductive Field
  | signature | selectorBits | deviceId | manufStateCreator | manufStateOwner | lifeCycleState
  | modulus | addressTranslation | identifier | length | versionMajor | versionMinor
  | securityVersion | timestamp | bindingValue | maxKeyVersion | codeStart | codeEnd | entryPoint

def Field.kind : Field → FieldKind
  | signature | modulus => .bigInt
  | timestamp => .time
  | deviceId | bindingValue => .words
  | _ => .word

def ManifestSpec.get (spec : ManifestSpec) : (f : Field) → f.kind.Value
  | .signature => spec.signature
  | .selectorBits => spec.usageConstraints.selectorBits
  | .deviceId => spec.usageConstraints.deviceId
  | .manufStateCreator => spec.usageConstraints.manufStateCreator
  | .manufStateOwner => spec.usageConstraints.manufStateOwner
  | .lifeCycleState => spec.usageConstraints.lifeCycleState
  | .modulus => spec.modulus
  | .addressTranslation => spec.addressTranslation
  | .identifier => spec.identifier
  | .length => spec.length
  | .versionMajor => spec.versionMajor
  | .versionMinor => spec.versionMinor
  | .securityVersion => spec.securityVersion
  | .timestamp => spec.timestamp
  | .bindingValue => spec.bindingValue
  | .maxKeyVersion => spec.maxKeyVersion
  | .codeStart => spec.codeStart
  | .codeEnd => spec.codeEnd
  | .entryPoint => spec.entryPoint

def ManifestSpec.has (spec : ManifestSpec) (f : Field) : Bool := f.kind.present (spec.get f)

variable {s t : ManifestSpec}

theorem get_overwriteFields (s o : ManifestSpec) (f : Field) :
    (s.overwriteFields o).get f = if o.has f then o.get f else s.get f := by
  cases f <;> rfl

theorem has_overwriteFields (h : ∀ f, s.has f = true) (o : ManifestSpec) (f : Field) :
    (s.overwriteFields o).has f = true := by
  rw [ManifestSpec.has, get_overwriteFields]
  split_ifs with ho
  · exact ho
  · exact h f

/-! ### The round trip -/

theorem isFull_arrayOf {n : ℕ} (words : Vector Word n) : isFull (arrayOf words) = true := by
  rw [isFull, List.all_eq_true]
  intro v hv
  rw [Vector.mem_toList_iff, arrayOf, Vector.mem_map] at hv
  obtain ⟨w, -, rfl⟩ := hv
  rfl

theorem unpackArray_arrayOf {n : ℕ} (name : String) (words : Vector Word n) :
    unpackArray name (arrayOf words) = pure words := by
  rw [unpackArray, dif_pos (isFull_arrayOf words)]
  congr 1
  apply Vector.ext
  intro i hi
  have hget : (arrayOf words).get ⟨i, hi⟩ = some words[i] := Vector.getElem_map _ _
  rw [Vector.getElem_ofFn]
  simp only [hget, Option.get_some]

theorem exists_arrayOf {n : ℕ} (field : Vector (ManifestSmallInt Word) n)
    (h : isFull field = true) :
    ∃ words, field = arrayOf words := by
  refine ⟨.ofFn fun i => (field.get i).get (isSome_of_isFull h i), ?_⟩
  apply Vector.ext
  intro i hi
  rw [arrayOf, Vector.getElem_map, Vector.getElem_ofFn, Option.some_get]
  rfl

/-- A manifest and a specification without open places state the same values. -/
inductive States : Manifest → ManifestSpec → Prop
  | mk {signature modulus : SigverifyRsaBuffer} {signatureInt modulusInt : ManifestRsaBuffer}
      (hsignature : Represents signature.data signatureInt)
      (hmodulus : Represents modulus.data modulusInt)
      (constraints : ManifestUsageConstraints) (addressTranslation identifier length versionMajor
        versionMinor securityVersion : Word) (timestamp : BitVec 64)
      (bindingValue : KeymgrBindingValue) (maxKeyVersion codeStart codeEnd entryPoint : Word) :
      States
        ⟨signature, constraints, modulus, addressTranslation, identifier, length, versionMajor,
          versionMinor, securityVersion, timestamp, bindingValue, maxKeyVersion, codeStart, codeEnd,
          entryPoint⟩
        ⟨some signatureInt, .ofConstraints constraints, some modulusInt, some addressTranslation,
          some identifier, some length, some versionMajor, some versionMinor, some securityVersion,
          some timestamp, arrayOf bindingValue.data, some maxKeyVersion, some codeStart,
          some codeEnd, some entryPoint⟩

variable {m : Manifest} {spec : ManifestSpec}

theorem ofManifest_states (m : Manifest) :
    ∃ spec, ManifestSpec.ofManifest m = pure spec ∧ States m spec := by
  obtain ⟨signature, hsignature, hs⟩ := toBigInt_eq m.signature
  obtain ⟨modulus, hmodulus, hm⟩ := toBigInt_eq m.modulus
  refine ⟨_, ?_, .mk hs hm m.usageConstraints m.addressTranslation m.identifier m.length
    m.versionMajor m.versionMinor m.securityVersion m.timestamp m.bindingValue m.maxKeyVersion
    m.codeStart m.codeEnd m.entryPoint⟩
  rw [ManifestSpec.ofManifest, hsignature, pure_bind, hmodulus]
  rfl

theorem unpack_ofConstraints (o : ManifestUsageConstraints) (name : String) :
    (ManifestUsageConstraintsDef.ofConstraints o).unpack name = pure o := by
  rw [ManifestUsageConstraintsDef.unpack]
  change (unpackArray "device_id" (arrayOf o.deviceId.deviceId) >>= _) = _
  rw [unpackArray_arrayOf]
  rfl

theorem States.toManifest (h : States m spec) : spec.toManifest = pure m := by
  obtain ⟨hsignature, hmodulus, constraints, _, _, _, _, _, _, _, bindingValue, _, _, _, _⟩ := h
  rename_i signature modulus signatureInt modulusInt _ _ _ _ _ _ _ _ _ _ _
  obtain ⟨buffer, hbuffer, hrep⟩ := toBuffer_eq signatureInt
  obtain ⟨buffer', hbuffer', hrep'⟩ := toBuffer_eq modulusInt
  have hs : buffer = signature := congrArg SigverifyRsaBuffer.mk (hrep.eq hsignature)
  have hm : buffer' = modulus := congrArg SigverifyRsaBuffer.mk (hrep'.eq hmodulus)
  subst hs hm
  simp only [ManifestSpec.toManifest, ManifestSpec.unpack, unpack, pure_bind, hbuffer, hbuffer',
    unpack_ofConstraints, unpackArray_arrayOf]

/-- A specification without open places is that of a manifest. -/
theorem exists_states (h : ∀ f, spec.has f = true) : ∃ m, States m spec := by
  obtain ⟨signature, ⟨selectorBits, deviceId, creator, owner, lifeCycle⟩, modulus,
    addressTranslation, identifier, length, versionMajor, versionMinor, securityVersion, timestamp,
    bindingValue, maxKeyVersion, codeStart, codeEnd, entryPoint⟩ := spec
  have hsome {α : Type} (v : Option α) (hv : v.isSome = true) : ∃ a, v = some a :=
    Option.isSome_iff_exists.1 hv
  obtain ⟨signature, rfl⟩ := hsome signature (h .signature)
  obtain ⟨modulus, rfl⟩ := hsome modulus (h .modulus)
  obtain ⟨selectorBits, rfl⟩ := hsome selectorBits (h .selectorBits)
  obtain ⟨creator, rfl⟩ := hsome creator (h .manufStateCreator)
  obtain ⟨owner, rfl⟩ := hsome owner (h .manufStateOwner)
  obtain ⟨lifeCycle, rfl⟩ := hsome lifeCycle (h .lifeCycleState)
  obtain ⟨addressTranslation, rfl⟩ := hsome addressTranslation (h .addressTranslation)
  obtain ⟨identifier, rfl⟩ := hsome identifier (h .identifier)
  obtain ⟨length, rfl⟩ := hsome length (h .length)
  obtain ⟨versionMajor, rfl⟩ := hsome versionMajor (h .versionMajor)
  obtain ⟨versionMinor, rfl⟩ := hsome versionMinor (h .versionMinor)
  obtain ⟨securityVersion, rfl⟩ := hsome securityVersion (h .securityVersion)
  obtain ⟨timestamp, rfl⟩ := hsome timestamp (h .timestamp)
  obtain ⟨maxKeyVersion, rfl⟩ := hsome maxKeyVersion (h .maxKeyVersion)
  obtain ⟨codeStart, rfl⟩ := hsome codeStart (h .codeStart)
  obtain ⟨codeEnd, rfl⟩ := hsome codeEnd (h .codeEnd)
  obtain ⟨entryPoint, rfl⟩ := hsome entryPoint (h .entryPoint)
  obtain ⟨deviceId, rfl⟩ := exists_arrayOf deviceId (h .deviceId)
  obtain ⟨bindingValue, rfl⟩ := exists_arrayOf bindingValue (h .bindingValue)
  obtain ⟨signatureBuffer, -, hsignature⟩ := toBuffer_eq signature
  obtain ⟨modulusBuffer, -, hmodulus⟩ := toBuffer_eq modulus
  exact ⟨_, .mk hsignature hmodulus ⟨selectorBits, ⟨deviceId⟩, creator, owner, lifeCycle⟩
    addressTranslation identifier length versionMajor versionMinor securityVersion timestamp
    ⟨bindingValue⟩ maxKeyVersion codeStart codeEnd entryPoint⟩

theorem States.has (h : States m spec) (f : Field) : spec.has f = true := by
  obtain ⟨-, -, constraints, _, _, _, _, _, _, _, bindingValue, _, _, _, _⟩ := h
  cases f
  case deviceId => exact isFull_arrayOf constraints.deviceId.deviceId
  case bindingValue => exact isFull_arrayOf bindingValue.data
  all_goals rfl

theorem States.ofManifest (h : States m spec) : ManifestSpec.ofManifest m = pure spec := by
  obtain ⟨spec', hspec', hstates⟩ := ofManifest_states m
  rw [hspec']
  congr 1
  obtain ⟨hsignature, hmodulus⟩ := h
  obtain ⟨hsignature', hmodulus'⟩ := hstates
  rw [hsignature'.eq_integer hsignature, hmodulus'.eq_integer hmodulus]

/-- What `overwrite_manifest` leaves in an image: the manifest of the fields of `other` that are
present, and of its own fields elsewhere. It does not fail. -/
theorem overwriteManifest_states (m : Manifest) (other : ManifestSpec) :
    ∃ m' spec, ManifestSpec.ofManifest m = pure spec ∧ overwriteManifest m other = pure m' ∧
      ManifestSpec.ofManifest m' = pure (spec.overwriteFields other) := by
  obtain ⟨spec, hspec, hstates⟩ := ofManifest_states m
  obtain ⟨m', hstates'⟩ := exists_states (has_overwriteFields hstates.has other)
  refine ⟨m', spec, hspec, ?_, hstates'.ofManifest⟩
  rw [overwriteManifest, hspec, pure_bind, hstates'.toManifest]

/-- A manifest survives its specification, and one specification laid over another one changes
exactly the fields that are present in it, where an array is present when all its elements are. -/
theorem manifest_round_trip_and_overwrite_frame :
    (∀ m : Manifest, ∃ spec, ManifestSpec.ofManifest m = pure spec ∧ spec.toManifest = pure m) ∧
    ∀ (s o : ManifestSpec) (f : Field),
      (s.overwriteFields o).get f = if o.has f then o.get f else s.get f := by
  refine ⟨fun m => ?_, get_overwriteFields⟩
  obtain ⟨spec, hspec, hstates⟩ := ofManifest_states m
  exact ⟨spec, hspec, hstates.toManifest⟩

/-- A specification with every place open. -/
def openSpec : ManifestSpec :=
  ⟨none, ⟨none, .replicate 8 none, none, none, none⟩, none, none, none, none, none, none, none,
    none, .replicate 8 none, none, none, none, none⟩

/-- One element of an array that is given on its own is not written. -/
theorem overwriteFields_ignores_part_of_array :
    ∃ (o : ManifestSpec) (i : Fin 8), o.bindingValue.get i = some 5 ∧
      (openSpec.overwriteFields o).bindingValue.get i = none :=
  ⟨{ openSpec with bindingValue := Vector.ofFn fun i => if i = 0 then some 5 else none }, 0,
    by decide +kernel, by decide +kernel⟩

end HostManifest

end SecureBoot
