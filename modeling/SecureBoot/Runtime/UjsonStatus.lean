import SecureBoot.Lib.Json
import SecureBoot.Runtime.PrintOutput
import SecureBoot.Runtime.UjsonInteger

/-! Status values as JSON: they are written by the formatter and read by a deserializer of their
own. The local variables of the deserializer hold whatever the stack held before. -/

namespace SecureBoot

open Sink

/-! ### Packed status values -/

/-- `ASCII_5BIT`. -/
def ascii5Bit (v : Byte) : Word :=
  if 0x40 ≤ v ∧ v ≤ 0x5f then v.setWidth 32 - 0x40
  else if 0x60 ≤ v ∧ v ≤ 0x7a then v.setWidth 32 - 0x60
  else 0x1f

/-- `MAKE_MODULE_ID`. -/
def makeModuleId (a b c : Byte) : Word :=
  (ascii5Bit a <<< 16) ||| (ascii5Bit b <<< 21) ||| (ascii5Bit c <<< 26)

/-- What follows the last slash or backslash. -/
def basename (file : List Byte) : List Byte :=
  (file.reverse.takeWhile fun c => c != 0x2f && c != 0x5c).reverse

/-- `__LINE__`, where `status_create` is called for a result that is negative. -/
abbrev kStatusCreateLine : Word := 33

def statusCreate (code moduleId : Word) (file : List Byte) (arg : Word) : Word :=
  if code = 0 ∧ arg.msb = false then arg
  else
    let arg := if code = 0 then kStatusCreateLine else arg
    let f := basename file
    let moduleId :=
      if moduleId = 0 then makeModuleId (f.getD 0 0) (f.getD 1 0) (f.getD 2 0) else moduleId
    moduleId ||| bitfieldBit32Write 0 31 true ||| bitfieldField32Write 0 kStatusFieldCode code |||
      bitfieldField32Write 0 kStatusFieldArg arg

/-! ### Reading -/

/-- Does not move on when another character comes. -/
def ujsonConsumeMaybe (ch : Byte) : UjsonM Bool := do
  let got ← consumeWhitespace
  if ch ≠ got then
    tryCatch (ujsonUngetc got) fun _ => pure ()
    return false
  return true

/-- A call that stores its result in a variable of its own, and the variable afterwards. -/
def storing (dest : ℕ → Byte) {α : Type} (x : UjsonM α) : UjsonM (ℕ → Byte) := fun uj =>
  match x { uj with dest := dest } with
  | .ok _ vj => .ok vj.dest { vj with dest := uj.dest }
  | .error e vj => .error e { vj with dest := uj.dest }

/-- `ujson_deserialize_uint32_t`, into a variable. -/
def readWord (dest : ℕ → Byte) : UjsonM Word := do
  let dest ← storing dest ujsonDeserializeUint32T
  return Bits.ofBits 32 fun i => (dest (i / 8)).getLsbD (i % 8)

/-- The end of the second string is that of the list. -/
def ujsonStreq (a : ℕ → Byte) : List Byte → Bool
  | [] => a 0 == 0
  | c :: b => if a 0 ≠ 0 ∧ c ≠ 0 ∧ a 0 = c then ujsonStreq (fun i => a (i + 1)) b else a 0 == c

/-- `ENUM_PRIVATE_STATUS`. -/
def privateStatusNames : List (List Byte) :=
  ["Ok", "Cancelled", "Unknown", "InvalidArgument", "DeadlineExceeded", "NotFound",
    "AlreadyExists", "PermissionDenied", "ResourceExhausted", "FailedPrecondition", "Aborted",
    "OutOfRange", "Unimplemented", "Internal", "Unavailable", "DataLoss", "Unauthenticated"].map
    ascii

def ujsonDeserializePrivateStatusT (stack : ℕ → Byte) : UjsonM Word := do
  if ← ujsonConsumeMaybe 0x22 then
    ujsonUngetc 0x22
    let value ← storing stack (ujsonParseQs 128)
    match privateStatusNames.findIdx? (ujsonStreq value) with
    | some code => return .ofNat 32 code
    | none => throw (.status .invalidArgument)
  else if ← ujsonConsumeMaybe 0x7b then
    let value ← storing stack (ujsonParseQs 128)
    ujsonConsume 0x3a
    if ujsonStreq value (ascii "IntValue") then
      let code ← readWord stack
      ujsonConsume 0x7d
      return code
    else throw (.status .invalidArgument)
  else readWord stack

/-- The module and the argument of an error. -/
def deserializeErrorParts (stack : ℕ → Byte) : UjsonM (Word × Word) := do
  let mod ← storing stack (ujsonParseQs 4)
  let moduleId := makeModuleId (mod 0) (mod 1) (mod 2)
  ujsonConsume 0x2c
  let arg ← readWord fun _ => 0
  ujsonConsume 0x5d
  return (moduleId, arg)

/-- What stands behind the name of a code. -/
def deserializeParts (stack : ℕ → Byte) (isError : Bool) : UjsonM (Word × Word) :=
  if isError then deserializeErrorParts stack
  else do
    let arg ← readWord fun _ => 0
    return (0, arg)

/-- `__FILE__`. -/
def kUjsonFile : List Byte := ascii "sw/device/lib/ujson/ujson.c"

def ujsonDeserializeStatusT (stack : ℕ → Byte) : UjsonM Word := do
  ujsonConsume 0x7b
  let code ← ujsonDeserializePrivateStatusT stack
  ujsonConsume 0x3a
  let isError ← ujsonConsumeMaybe 0x5b
  let (moduleId, arg) ← deserializeParts stack isError
  ujsonConsume 0x7d
  return statusCreate code moduleId kUjsonFile arg

/-! ### Writing -/

/-- `putbuf` as the sink of the formatter. -/
def putbufSink : Write Byte Ujson := fun uj buf =>
  ({ uj with output := uj.output ++ buf }, buf.length)

def ujsonSerializeStatusT (value : Word) : UjsonM Unit := fun uj =>
  match baseVfprintf ⟨some putbufSink⟩ uj (ascii "%!r\x00") [⟨value, []⟩] with
  | .ok st => .ok () st.data
  | .error _ => .error .outOfFuel uj

/-- The characters of a status value. -/
def statusText (value : Word) : List Byte :=
  let parts := statusExtract value
  let arg := Decimal.ofNat parts.arg.toNat
  [0x7b, 0x22] ++ (parts.code ++ ([0x22, 0x3a] ++
    ((if parts.err then [0x5b, 0x22] ++ (parts.modId ++ ([0x22, 0x2c] ++ (arg ++ [0x5d])))
      else arg) ++ [0x7d])))

theorem kDigitsLow_getD {d : ℕ} (h : d < 10) : kDigitsLow.getD d 0 = Decimal.digitChar d := by
  interval_cases d <;> rfl

/-- The decimal digits of a number, without padding. -/
theorem writeDigits_decimal {σ : Type} (out : Write Byte σ) (data : σ) (value : Word) :
    writeDigits out data value 0 0 10 kDigitsLow =
      put out ⟨data, 0⟩ (Decimal.ofNat value.toNat) := by
  have hmap : (Nat.digits 10 value.toNat).map (fun d => kDigitsLow.getD d 0) =
      (Nat.digits 10 value.toNat).map Decimal.digitChar :=
    List.map_congr_left fun d hd => kDigitsLow_getD (Nat.digits_lt_base (by decide) hd)
  have hbase : 1 < (10 : Word).toNat := by decide
  have hdigits := digitsLoop_eq hbase kDigitsLow value.isLt
    (if value = 0 then [kDigitsLow.getD 0 0] else [])
  rw [show (10 : Word).toNat = 10 from rfl, hmap] at hdigits
  have hbuffer : digitsLoop 10 kDigitsLow 32 value
      (if value = 0 then [kDigitsLow.getD 0 0] else []) = Decimal.ofNat value.toNat := by
    rw [hdigits]
    by_cases h0 : value = 0
    · rw [h0]
      rfl
    · have hne : value.toNat ≠ 0 := fun h => h0 (BitVec.eq_of_toNat_eq h)
      rw [if_neg h0, Decimal.ofNat, if_neg hne, List.append_nil]
  have hlength : 1 - (Decimal.ofNat value.toNat).length = 0 :=
    Nat.sub_eq_zero_of_le (List.length_pos_of_ne_nil (Decimal.ofNat_ne_nil _))
  simp only [writeDigits, kWordBits, hbuffer, if_true, show ¬ (32 < 1) by decide, if_false, hlength,
    List.replicate_zero, List.nil_append]

theorem data_writeStatus (uj : Ujson) (value : Word) :
    (writeStatus putbufSink uj value true).data =
      { uj with output := uj.output ++ statusText value } := by
  simp only [writeStatus, writeDigits_decimal, statusText]
  cases (statusExtract value).err with
  | true =>
    simp only [if_true, put, State.call, putbufSink, List.append_assoc]
    rfl
  | false =>
    simp only [if_true, Bool.false_eq_true, if_false, put, State.call, putbufSink,
      List.append_assoc]
    rfl

theorem run_ujsonSerializeStatusT (uj : Ujson) (value : Word) :
    (ujsonSerializeStatusT value).run uj =
      .ok () { uj with output := uj.output ++ statusText value } := by
  have hprint : baseVfprintf ⟨some putbufSink⟩ uj (ascii "%!r\x00") [⟨value, []⟩] =
      .ok (State.call ⟨uj, 0⟩ fun data => writeStatus putbufSink data value true) := rfl
  rw [EStateM.run, ujsonSerializeStatusT, hprint]
  exact congrArg _ (data_writeStatus uj value)

end SecureBoot
