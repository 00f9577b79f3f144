import SecureBoot.Base.Error
import SecureBoot.Base.Math
import SecureBoot.Lib.Digits

/-! Reading and writing JSON strings and integers. The functions behind `getc` and `putbuf` are
those of a source with finitely many characters, which ends with an error, and of a sink that
takes everything; what a longer source would lead to up to some character is what the shorter one
leads to. `char` is unsigned, as it is on RISC-V, and a signed 64-bit sum wraps around. -/

namespace SecureBoot

open Decimal (isDigit)

/-- The error codes of `absl_status_t`. -/
inductive AbslStatus where
  | cancelled | unknown | invalidArgument | deadlineExceeded | notFound | alreadyExists
  | permissionDenied | resourceExhausted | failedPrecondition | aborted | outOfRange
  | unimplemented | internal | unavailable | dataLoss | unauthenticated
  deriving DecidableEq, Repr

inductive UjsonError where
  | status (code : AbslStatus)
  | outOfFuel
  deriving DecidableEq, Repr

/-- `ujson_t` with its source and its sink, and the memory that a call stores its result in, from
the start of the result on. -/
structure Ujson where
  input : List Byte
  endStatus : AbslStatus
  buffer : Option Byte
  output : List Byte
  dest : ℕ → Byte

/-- The characters that are still to come. -/
def Ujson.chars (uj : Ujson) : List Byte := uj.buffer.toList ++ uj.input

abbrev UjsonM := EStateM UjsonError Ujson

/-- `TRY`. -/
def tryStatus {α : Type} : Except AbslStatus α → UjsonM α
  | .ok a => pure a
  | .error code => throw (.status code)

/-! ### Characters -/

/-- `ujson_getc`, whose status is looked at by the caller. -/
def ujsonGetc : UjsonM (Except AbslStatus Byte) := fun uj =>
  match uj.buffer with
  | some ch => .ok (.ok ch) { uj with buffer := none }
  | none =>
    match uj.input with
    | ch :: input => .ok (.ok ch) { uj with input := input }
    | [] => .ok (.error uj.endStatus) uj

/-- `TRY(ujson_getc(uj))`. -/
def tryGetc : UjsonM Byte := do tryStatus (← ujsonGetc)

def ujsonUngetc (ch : Byte) : UjsonM Unit := do
  if (← get).buffer.isSome then throw (.status .failedPrecondition)
  modify fun uj => { uj with buffer := some ch }

def ujsonPutbuf (buf : List Byte) : UjsonM Unit :=
  modify fun uj => { uj with output := uj.output ++ buf }

def isSpace (ch : Byte) : Bool := ch == 0x20 || decide (ch - 0x09 < 5)

def consumeWhitespaceLoop : ℕ → UjsonM Byte
  | 0 => throw .outOfFuel
  | fuel + 1 => do
    let ch ← tryGetc
    if isSpace ch then consumeWhitespaceLoop fuel else return ch

def consumeWhitespace : UjsonM Byte := do
  consumeWhitespaceLoop ((← get).chars.length + 1)

def consumeHexdigit : UjsonM Word := do
  let ch ← tryGetc
  if 0x30 ≤ ch ∧ ch ≤ 0x39 then return ch.setWidth 32 - 0x30
  else if 0x41 ≤ ch ∧ ch ≤ 0x46 then return ch.setWidth 32 - 0x41 + 10
  else if 0x61 ≤ ch ∧ ch ≤ 0x66 then return ch.setWidth 32 - 0x61 + 10
  else throw (.status .outOfRange)

def consumeHex : UjsonM Word := do
  let a ← consumeHexdigit
  let b ← consumeHexdigit
  let c ← consumeHexdigit
  let d ← consumeHexdigit
  return (a <<< 12) ||| (b <<< 8) ||| (c <<< 4) ||| d

def ujsonConsume (ch : Byte) : UjsonM Unit := do
  if ch ≠ (← consumeWhitespace) then throw (.status .notFound)

/-! ### Strings -/

/-- The character that an escape stands for. -/
def unescape (ch : Byte) : UjsonM Word :=
  if ch = 0x22 ∨ ch = 0x5c ∨ ch = 0x2f then return ch.setWidth 32
  else if ch = 0x62 then return 0x08
  else if ch = 0x66 then return 0x0c
  else if ch = 0x6e then return 0x0a
  else if ch = 0x72 then return 0x0d
  else if ch = 0x74 then return 0x09
  else if ch = 0x75 then consumeHex
  else throw (.status .outOfRange)

/-- `str[i] = ch`. -/
def storeChar (i : ℕ) (ch : Byte) : UjsonM Unit :=
  modify fun uj => { uj with dest := Function.update uj.dest i ch }

/-- The loop of `ujson_parse_qs`; `str` has moved by `n`. -/
def parseQsLoop : ℕ → (len : Word) → (n : ℕ) → UjsonM ℕ
  | 0, _, _ => throw .outOfFuel
  | fuel + 1, len, n => do
    let ch ← tryGetc
    if ch = 0x22 then
      storeChar n 0
      return n
    let ch ← if ch = 0x5c then unescape (← tryGetc) else pure (ch.setWidth 32)
    if 0 < len then
      storeChar n (ch.setWidth 8)
      parseQsLoop fuel (len - 1) (n + 1)
    else parseQsLoop fuel len n

def ujsonParseQs (len : Word) : UjsonM ℕ := do
  ujsonConsume 0x22
  parseQsLoop ((← get).chars.length + 1) (len - 1) 0

def hex : List Byte := ascii "0123456789abcdef"

/-- The characters for one of a string. -/
def escapeChar (ch : Byte) : List Byte :=
  if ch < 0x20 ∨ ch = 0x22 ∨ ch = 0x5c ∨ 0x7f ≤ ch then
    if ch = 0x22 then ascii "\\\""
    else if ch = 0x5c then ascii "\\\\"
    else if ch = 0x08 then ascii "\\b"
    else if ch = 0x0c then ascii "\\f"
    else if ch = 0x0a then ascii "\\n"
    else if ch = 0x0d then ascii "\\r"
    else if ch = 0x09 then ascii "\\t"
    else ascii "\\u00" ++ [hex.getD (ch >>> 4).toNat 0, hex.getD (ch &&& 0xf).toNat 0]
  else [ch]

/-- The loop over the characters of a string, which may end before the list does. -/
def serializeChars : List Byte → UjsonM Unit
  | [] => pure ()
  | ch :: buf => do
    if ch ≠ 0 then
      ujsonPutbuf (escapeChar ch)
      serializeChars buf

def ujsonSerializeString (buf : List Byte) : UjsonM Unit := do
  ujsonPutbuf (ascii "\"")
  serializeChars buf
  ujsonPutbuf (ascii "\"")

/-! ### Integers -/

/-- The loop over the digits: the value, and the character after them unless the source has
ended. -/
def parseDigitsLoop : ℕ → (ch : Byte) → (value : BitVec 64) → UjsonM (BitVec 64 × Option Byte)
  | 0, _, _ => throw .outOfFuel
  | fuel + 1, ch, value =>
    if isDigit ch then do
      let value := value * 10 + (ch - 0x30).setWidth 64
      match ← ujsonGetc with
      | .error _ => return (value, none)
      | .ok ch => parseDigitsLoop fuel ch value
    else return (value, some ch)

/-- `memcpy(result, &value, rsz)`. -/
def storeResult (value : BitVec 64) (rsz : ℕ) : UjsonM Unit :=
  modify fun uj => { uj with
    dest := fun i => if i < rsz then value.extractLsb' (8 * i) 8 else uj.dest i }

def ujsonParseInteger (rsz : ℕ) : UjsonM Unit := do
  let ch ← consumeWhitespace
  let neg := ch == 0x2d
  let ch ← if neg then tryGetc else pure ch
  if !isDigit ch then throw (.status .notFound)
  let r ← parseDigitsLoop ((← get).chars.length + 1) ch 0
  match r.2 with
  | some ch => ujsonUngetc ch
  | none => pure ()
  storeResult (if neg then -r.1 else r.1) rsz

def ujsonDeserializeUint64T : UjsonM Unit := ujsonParseInteger 8

def ujsonDeserializeUint32T : UjsonM Unit := ujsonParseInteger 4

def ujsonDeserializeUint16T : UjsonM Unit := ujsonParseInteger 2

def ujsonDeserializeUint8T : UjsonM Unit := ujsonParseInteger 1

def ujsonDeserializeSizeT : UjsonM Unit := ujsonParseInteger 4

def ujsonDeserializeInt64T : UjsonM Unit := ujsonParseInteger 8

def ujsonDeserializeInt32T : UjsonM Unit := ujsonParseInteger 4

def ujsonDeserializeInt16T : UjsonM Unit := ujsonParseInteger 2

def ujsonDeserializeInt8T : UjsonM Unit := ujsonParseInteger 1

/-- The digits in front of those at `end`; the buffer has room for 24 characters. -/
def serializeDigits64 : ℕ → (value : BitVec 64) → (tail : List Byte) → List Byte
  | 0, _, tail => tail
  | fuel + 1, value, tail =>
    let r := udiv64Slow value 10 (some 0)
    let tail := (0x30 + (r.2.getD 0).setWidth 8) :: tail
    if r.1 ≠ 0 then serializeDigits64 fuel r.1 tail else tail

def ujsonSerializeInteger64 (value : BitVec 64) (neg : Bool) : UjsonM Unit :=
  let value := if neg then ~~~value + 1 else value
  let digits := serializeDigits64 24 value []
  ujsonPutbuf (if neg then 0x2d :: digits else digits)

def serializeDigits32 : ℕ → (value : Word) → (tail : List Byte) → List Byte
  | 0, _, tail => tail
  | fuel + 1, value, tail =>
    let tail := (0x30 + (value % 10).setWidth 8) :: tail
    if value / 10 ≠ 0 then serializeDigits32 fuel (value / 10) tail else tail

def ujsonSerializeInteger32 (value : Word) (neg : Bool) : UjsonM Unit :=
  let value := if neg then ~~~value + 1 else value
  let digits := serializeDigits32 24 value []
  ujsonPutbuf (if neg then 0x2d :: digits else digits)

def ujsonSerializeUint64T (value : BitVec 64) : UjsonM Unit := ujsonSerializeInteger64 value false

def ujsonSerializeUint32T (value : Word) : UjsonM Unit := ujsonSerializeInteger32 value false

def ujsonSerializeUint16T (value : BitVec 16) : UjsonM Unit :=
  ujsonSerializeInteger32 (value.setWidth 32) false

def ujsonSerializeUint8T (value : BitVec 8) : UjsonM Unit :=
  ujsonSerializeInteger32 (value.setWidth 32) false

/-- A `size_t` has 32 bits on the device. -/
def ujsonSerializeSizeT (value : Word) : UjsonM Unit := ujsonSerializeInteger32 value false

def ujsonSerializeInt64T (value : BitVec 64) : UjsonM Unit :=
  ujsonSerializeInteger64 value value.msb

def ujsonSerializeInt32T (value : Word) : UjsonM Unit := ujsonSerializeInteger32 value value.msb

def ujsonSerializeInt16T (value : BitVec 16) : UjsonM Unit :=
  ujsonSerializeInteger32 (value.signExtend 32) value.msb

def ujsonSerializeInt8T (value : BitVec 8) : UjsonM Unit :=
  ujsonSerializeInteger32 (value.signExtend 32) value.msb

end SecureBoot
