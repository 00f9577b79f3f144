import SecureBoot.Base.Error
import SecureBoot.Lib.Sink

/-! Formatted printing. A pointer is the list of the bytes from where it points to the end of its
object, so that moving it forward drops bytes; a read outside of the object, or an argument that
does not go with its specifier, is undefined behaviour and gives `none`. An argument is the word
that is passed and, for a pointer, the object it points to. -/

namespace SecureBoot

open Sink (Write State put)

abbrev kPercent : Byte := 0x25

abbrev kCharacter : Byte := 0x63

abbrev kString : Byte := 0x73

abbrev kSignedDec1 : Byte := 0x64

abbrev kSignedDec2 : Byte := 0x69

abbrev kUnsignedOct : Byte := 0x6f

abbrev kUnsignedHexLow : Byte := 0x78

abbrev kUnsignedHexHigh : Byte := 0x58

abbrev kUnsignedDec : Byte := 0x75

abbrev kPointer : Byte := 0x70

abbrev kSvBinary : Byte := 0x62

abbrev kSvHexLow : Byte := 0x68

abbrev kSvHexHigh : Byte := 0x48

abbrev kHexLeLow : Byte := 0x79

abbrev kHexLeHigh : Byte := 0x59

abbrev kStatusResult : Byte := 0x72

def kDigitsLow : List Byte := ascii "0123456789abcdef"

def kDigitsHigh : List Byte := ascii "0123456789ABCDEF"

def kErrorNul : List Byte := ascii "%<unexpected nul>"

def kUnknownSpec : List Byte := ascii "%<unknown spec>"

def kErrorTooWide : List Byte := ascii "%<bad width>"

/-! ### Arguments and sinks -/

structure Arg where
  value : Word
  object : List Byte

/-- What a sink has received, and the `size_t` count of the bytes written to it. -/
abbrev Printer (σ : Type) := State σ 32

/-- `buffer_sink_t` without its data; the function may be `NULL`. -/
structure BufferSink (σ : Type) where
  sink : Option (Write Byte σ)

def baseDevNull {σ : Type} : Write Byte σ := fun data buf => (data, buf.length)

/-- The buffer of `base_snprintf` and the memory behind it, byte by byte from its start. -/
structure SnprintfCaptures where
  mem : ℕ → Byte
  buf : ℕ
  bytesLeft : ℕ

def SnprintfCaptures.memcpy (mem : ℕ → Byte) (dest : ℕ) (src : List Byte) : ℕ → Byte :=
  fun i => if dest ≤ i ∧ i < dest + src.length then src.getD (i - dest) 0 else mem i

def snprintfSink : Write Byte SnprintfCaptures := fun captures buf =>
  if captures.bytesLeft = 0 then (captures, 0)
  else
    let len := if captures.bytesLeft < buf.length then captures.bytesLeft else buf.length
    ({ mem := SnprintfCaptures.memcpy captures.mem captures.buf (buf.take len)
       buf := captures.buf + len
       bytesLeft := captures.bytesLeft - len }, len)

/-! ### The format string -/

/-- The text up to the next `%` or the end of the string, and the pointer there. -/
def scanText : List Byte → Option (List Byte × List Byte)
  | [] => none
  | c :: format =>
    if c = 0 ∨ c = kPercent then some ([], c :: format)
    else (scanText format).map fun r => (c :: r.1, r.2)

section Functions

variable {σ : Type} (out : Write Byte σ)

/-- Whether a `%` was found, the pointer to it, and the state of the sink. -/
def consumeUntilPercent (format : List Byte) (st : Printer σ) :
    Option (Bool × List Byte × Printer σ) :=
  (scanText format).map fun r =>
    (r.2.head? != some 0, r.2, if 0 < r.1.length then put out st r.1 else st)

structure FormatSpecifier where
  type : Byte
  width : Word
  padding : Byte
  isNonstd : Bool

/-- The loop over the digits of a width: the specifier and the pointer to what follows. -/
def consumeWidth (spec : FormatSpecifier) : List Byte → Option (FormatSpecifier × List Byte)
  | [] => none
  | c :: format =>
    if c = 0 then some (spec, c :: format)
    else if c < 0x30 ∨ 0x39 < c then some (spec, c :: format)
    else if spec.padding = 0 ∧ c = 0x30 then consumeWidth { spec with padding := 0x30 } format
    else
      consumeWidth { spec with
        padding := if spec.padding = 0 then 0x20 else spec.padding
        width := spec.width * 10 + (c - 0x30).setWidth 32 } format

/-- What `consume_format_specifier` returns and what it stores. -/
structure Consumed (σ : Type) where
  ok : Bool
  format : List Byte
  st : Printer σ
  spec : FormatSpecifier

def consumeFormatSpecifier (format : List Byte) (st : Printer σ) : Option (Consumed σ) :=
  let spec : FormatSpecifier := ⟨0, 0, 0, false⟩
  let format := format.drop 1
  let isNonstd := format.head? == some 0x21
  let spec := { spec with isNonstd := isNonstd }
  let format := if isNonstd then format.drop 1 else format
  match consumeWidth spec format with
  | none | some (_, []) => none
  | some (spec, c :: rest) =>
    if c = 0 then some ⟨false, format, put out st kErrorNul, spec⟩
    else if (spec.width = 0 ∧ spec.padding ≠ 0) ∨ 32 < spec.width then
      some ⟨false, format, put out st kErrorTooWide, spec⟩
    else some ⟨true, rest, st, { spec with type := c }⟩

/-! ### Numbers, status values and hex dumps -/

/-- The digits of `value` in front of those in `buffer`; 32 divisions are enough for a word. -/
def digitsLoop (base : Word) (glyphs : List Byte) : ℕ → Word → List Byte → List Byte
  | 0, _, buffer => buffer
  | n + 1, value, buffer =>
    if 0 < value then
      digitsLoop base glyphs n (value / base) (glyphs.getD (value % base).toNat 0 :: buffer)
    else buffer

abbrev kWordBits : ℕ := 32

def writeDigits (data : σ) (value width : Word) (padding : Byte) (base : Word)
    (glyphs : List Byte) : Printer σ :=
  let buffer := if value = 0 then [glyphs.getD 0 0] else []
  let buffer := digitsLoop base glyphs kWordBits value buffer
  let width := if width = 0 then 1 else width.toNat
  let width := if kWordBits < width then kWordBits else width
  let buffer := List.replicate (width - buffer.length) padding ++ buffer
  put out ⟨data, 0⟩ buffer

def writeStatus (data : σ) (value : Word) (asJson : Bool) : Printer σ :=
  let parts := statusExtract value
  let st : Printer σ := ⟨data, 0⟩
  let st := put out st (if asJson then ascii "\x7b\"" else [])
  let st := put out st parts.code
  let st := put out st (if asJson then ascii "\"" else [])
  let st := put out st (ascii ":")
  let st :=
    if parts.err then
      let st := put out st (ascii "[")
      let st := put out st (ascii "\"" ++ parts.modId ++ ascii "\",")
      let st := st.call fun data => writeDigits out data parts.arg 0 0 10 kDigitsLow
      put out st (ascii "]")
    else st.call fun data => writeDigits out data parts.arg 0 0 10 kDigitsLow
  put out st (if asJson then ascii "\x7d" else [])

/-- The padding of a hex dump, in pieces of the size of the buffer. -/
def hexDumpPad (padding : Byte) (st : Printer σ) (width : ℕ) : Printer σ :=
  if 0 < width then
    let toWrite := if 32 < width then 32 else width
    hexDumpPad padding (put out st (List.replicate toWrite padding)) (width - toWrite)
  else st
termination_by width
decreasing_by
  show width - (if 32 < width then 32 else width) < width
  split_ifs <;> omega

/-- One byte into the buffer, which is written when it is full. -/
def hexDumpByte (glyphs : List Byte) (s : List Byte × Printer σ) (byte : Byte) :
    List Byte × Printer σ :=
  let buf := s.1 ++ [glyphs.getD ((byte >>> 4) &&& 0xf).toNat 0,
    glyphs.getD (byte &&& 0xf).toNat 0]
  if buf.length = 32 then ([], put out s.2 buf) else (buf, s.2)

/-- The dump of the first `len` bytes of an object, if it has as many. -/
def hexDump (data : σ) (bytes : List Byte) (len : ℕ) (width : Word) (padding : Byte)
    (bigEndian : Bool) (glyphs : List Byte) : Option (Printer σ) :=
  if bytes.length < len then none
  else
    let st : Printer σ := ⟨data, 0⟩
    let st := if len < width.toNat then hexDumpPad out padding st (width.toNat - len) else st
    let r := (List.range len).foldl (fun s i =>
      let idx := if bigEndian then len - i - 1 else i
      hexDumpByte out glyphs s (bytes.getD idx 0)) ([], st)
    some (if r.1.length ≠ 0 then put out r.2 r.1 else r.2)

/-! ### Specifiers -/

/-- The integer specifiers: `write_digits` of the next argument. -/
def printDigits (spec : FormatSpecifier) (base : Word) (glyphs : List Byte) (st : Printer σ) :
    List Arg → Option (Printer σ × List Arg)
  | [] => none
  | arg :: args =>
    some (st.call fun data => writeDigits out data arg.value spec.width spec.padding base glyphs,
      args)

/-- The specifiers that take a length and a pointer. -/
def printHexDump (spec : FormatSpecifier) (bigEndian : Bool) (glyphs : List Byte)
    (st : Printer σ) : List Arg → Option (Printer σ × List Arg)
  | len :: value :: args =>
    (hexDump out st.data value.object len.value.toNat spec.width spec.padding bigEndian glyphs).map
      fun r => (st.call fun _ => r, args)
  | _ => none

def badSpec (st : Printer σ) (args : List Arg) : Option (Printer σ × List Arg) :=
  some (put out st kUnknownSpec, args)

def processSpecifier (spec : FormatSpecifier) (st : Printer σ) (args : List Arg) :
    Option (Printer σ × List Arg) :=
  if spec.type = kPercent then
    if spec.isNonstd then badSpec out st args else some (put out st (ascii "%"), args)
  else if spec.type = kCharacter then
    if spec.isNonstd then badSpec out st args
    else match args with
      | [] => none
      | arg :: args => some (put out st [arg.value.setWidth 8], args)
  else if spec.type = kString then
    if spec.isNonstd then match args with
      | len :: value :: args =>
        if value.object.length < len.value.toNat then none
        else some (put out st (value.object.take len.value.toNat), args)
      | _ => none
    else match args with
      | [] => none
      | value :: args =>
        if 0 ∈ value.object then some (put out st (value.object.takeWhile (· != 0)), args) else none
  else if spec.type = kSignedDec1 ∨ spec.type = kSignedDec2 then
    if spec.isNonstd then badSpec out st args
    else match args with
      | [] => none
      | arg :: args =>
        let st := if arg.value.msb then put out st (ascii "-") else st
        let value := if arg.value.msb then -arg.value else arg.value
        some (st.call fun data => writeDigits out data value spec.width spec.padding 10 kDigitsLow,
          args)
  else if spec.type = kUnsignedOct then
    if spec.isNonstd then badSpec out st args else printDigits out spec 8 kDigitsLow st args
  else if spec.type = kPointer then
    if spec.isNonstd then badSpec out st args
    else
      let st := put out st (ascii "0x")
      printDigits out { spec with width := 8, padding := 0x30 } 16 kDigitsLow st args
  else if spec.type = kUnsignedHexLow ∧ spec.isNonstd then
    printHexDump out spec true kDigitsLow st args
  else if spec.type = kUnsignedHexLow ∨ spec.type = kSvHexLow then
    printDigits out spec 16 kDigitsLow st args
  else if spec.type = kUnsignedHexHigh ∧ spec.isNonstd then
    printHexDump out spec true kDigitsHigh st args
  else if spec.type = kUnsignedHexHigh ∨ spec.type = kSvHexHigh then
    printDigits out spec 16 kDigitsHigh st args
  else if spec.type = kHexLeLow then
    if spec.isNonstd then printHexDump out spec false kDigitsLow st args else badSpec out st args
  else if spec.type = kHexLeHigh then
    if spec.isNonstd then printHexDump out spec false kDigitsHigh st args else badSpec out st args
  else if spec.type = kUnsignedDec then
    if spec.isNonstd then badSpec out st args else printDigits out spec 10 kDigitsLow st args
  else if spec.type = kSvBinary then
    if spec.isNonstd then match args with
      | [] => none
      | arg :: args =>
        some (put out st (if arg.value ≠ 0 then ascii "true" else ascii "false"), args)
    else printDigits out spec 2 kDigitsLow st args
  else if spec.type = kStatusResult then match args with
    | [] => none
    | arg :: args =>
      some (st.call fun data => writeStatus out data arg.value spec.isNonstd, args)
  else badSpec out st args

/-! ### The printing functions -/

/-- How a run may end without a result. -/
inductive PrintFault where
  | undefined
  | outOfFuel
  deriving DecidableEq

/-- The loop of `base_vfprintf`, for a bounded number of specifiers. -/
def vfprintfLoop : ℕ → List Byte → Printer σ → List Arg → Except PrintFault (Printer σ)
  | 0, _, _, _ => .error .outOfFuel
  | fuel + 1, format, st, args =>
    if format = [] then .error .undefined
    else if format.head? = some 0 then .ok st
    else match consumeUntilPercent out format st with
      | none => .error .undefined
      | some (false, _, st) => .ok st
      | some (true, format, st) => match consumeFormatSpecifier out format st with
        | none => .error .undefined
        | some c =>
          if c.ok then match processSpecifier out c.spec c.st args with
            | none => .error .undefined
            | some (st, args) => vfprintfLoop fuel c.format st args
          else .ok c.st

end Functions

/-- Each specifier takes at least one character of the format string. -/
def baseVfprintf {σ : Type} (out : BufferSink σ) (data : σ) (format : List Byte)
    (args : List Arg) : Except PrintFault (Printer σ) :=
  vfprintfLoop (out.sink.getD baseDevNull) format.length format ⟨data, 0⟩ args

/-- The memory from the buffer on, and the count that is returned. -/
def baseSnprintf (mem : ℕ → Byte) (len : Word) (format : List Byte) (args : List Arg) :
    Except PrintFault ((ℕ → Byte) × Word) :=
  (baseVfprintf ⟨some snprintfSink⟩ ⟨mem, 0, len.toNat⟩ format args).map fun st =>
    (st.data.mem, st.written)

end SecureBoot
