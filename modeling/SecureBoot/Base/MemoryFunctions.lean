import SecureBoot.Base.Ram
import SecureBoot.Lib.Traverse

/-! The memory functions of the base library. They work on whole words between an unaligned head
and an unaligned tail, and do what loops over the bytes do. An index is a natural number: it never
exceeds the length and does not wrap around. -/

namespace SecureBoot

namespace Ram

/-! ### Alignment -/

def computeNumLeadingBytes (left right len : Word) : Word :=
  if len < 4 then len
  else
    let left_ahead := misalignment32Of left
    let right_ahead := misalignment32Of right
    if right = 0 ∨ left_ahead = right_ahead then (4 - left_ahead) &&& 0x3 else len

/-- `compute_alignment`: the body offset and the tail offset. -/
def computeAlignment (left right len : Word) : Word × Word :=
  let num_leading_bytes := computeNumLeadingBytes left right len
  let num_words := (len - num_leading_bytes) / 4
  (num_leading_bytes, num_leading_bytes + num_words * 4)

def repeatByteToU32 (byte : Byte) : Word :=
  byte.setWidth 32 <<< 24 ||| byte.setWidth 32 <<< 16 ||| byte.setWidth 32 <<< 8 |||
    byte.setWidth 32

/-- The indices of `for (; i < stop; i += step)`. -/
def indices (i stop step : ℕ) : List ℕ := List.range' i ((stop - i + step - 1) / step) step

/-- `&ptr[i]`. -/
def item (ptr : Word) (i : ℕ) : Word := ptr + .ofNat 32 i

/-! ### The functions -/

def copyByte (dest src : Word) (i : ℕ) : RamM Unit := do
  writeByte (item dest i) (← readByte (item src i))

def memcpy (dest src len : Word) : RamM Word := do
  if dest = 0 ∨ src = 0 then return dest
  let (body_offset, tail_offset) := computeAlignment dest src len
  (indices 0 body_offset.toNat 1).forM (copyByte dest src)
  (indices body_offset.toNat tail_offset.toNat 4).forM fun i => do
    write32 (← read32 (item src i)) (item dest i)
  (indices tail_offset.toNat len.toNat 1).forM (copyByte dest src)
  return dest

def setByte (dest : Word) (value8 : Byte) (i : ℕ) : RamM Unit := writeByte (item dest i) value8

def memset (dest value len : Word) : RamM Word := do
  let value8 : Byte := value.setWidth 8
  let (body_offset, tail_offset) := computeAlignment dest 0 len
  (indices 0 body_offset.toNat 1).forM (setByte dest value8)
  let value32 := repeatByteToU32 value8
  (indices body_offset.toNat tail_offset.toNat 4).forM fun i => write32 value32 (item dest i)
  (indices tail_offset.toNat len.toNat 1).forM (setByte dest value8)
  return dest

abbrev kMemCmpEq : ℤ := 0

abbrev kMemCmpLt : ℤ := -42

abbrev kMemCmpGt : ℤ := 42

/-- A loop that may return from the function, and what comes after it. -/
def loopThen {α : Type} (loop : RamM (Option α)) (rest : RamM α) : RamM α := do
  match ← loop with
  | some r => return r
  | none => rest

/-- The two tests of a round. -/
def cmpResult {w : ℕ} (left right : BitVec w) : Option ℤ :=
  if left < right then some kMemCmpLt else if right < left then some kMemCmpGt else none

def cmpByte (lhs rhs : Word) (i : ℕ) : RamM (Option ℤ) := do
  return cmpResult (← readByte (item lhs i)) (← readByte (item rhs i))

/-- `__builtin_bswap32`. -/
def bswap32 (x : Word) : Word := Word.ofBytes (x.byte 3) (x.byte 2) (x.byte 1) (x.byte 0)

/-- The round of the body of `memcmp`. -/
def cmpWordForward (lhs rhs : Word) (i : ℕ) : RamM (Option ℤ) := do
  return cmpResult (bswap32 (← read32 (item lhs i))) (bswap32 (← read32 (item rhs i)))

def memcmp (lhs rhs len : Word) : RamM ℤ :=
  let (body_offset, tail_offset) := computeAlignment lhs rhs len
  loopThen ((indices 0 body_offset.toNat 1).findSomeM? (cmpByte lhs rhs)) <|
  loopThen ((indices body_offset.toNat tail_offset.toNat 4).findSomeM? (cmpWordForward lhs rhs)) <|
  loopThen ((indices tail_offset.toNat len.toNat 1).findSomeM? (cmpByte lhs rhs)) <|
  return kMemCmpEq

/-- The round of the body of `memrcmp`. -/
def cmpWordBackward (lhs rhs : Word) (i : ℕ) : RamM (Option ℤ) := do
  return cmpResult (← read32 (item lhs i)) (← read32 (item rhs i))

def memrcmp (lhs rhs len : Word) : RamM ℤ :=
  let (body_offset, tail_offset) := computeAlignment lhs rhs len
  loopThen ((indices tail_offset.toNat len.toNat 1).reverse.findSomeM? (cmpByte lhs rhs)) <|
  loopThen ((indices body_offset.toNat tail_offset.toNat 4).reverse.findSomeM?
    (cmpWordBackward lhs rhs)) <|
  loopThen ((indices 0 body_offset.toNat 1).reverse.findSomeM? (cmpByte lhs rhs)) <|
  return kMemCmpEq

def findByte (ptr : Word) (value8 : Byte) (i : ℕ) : RamM (Option Word) := do
  return if (← readByte (item ptr i)) = value8 then some (item ptr i) else none

/-- The round of the body of `memchr`. -/
def findWordForward (ptr value32 : Word) (i : ℕ) : RamM (Option Word) := do
  let bits_eq := ~~~((← read32 (item ptr i)) ^^^ value32)
  return if bits_eq &&& 0xff = 0xff then some (item ptr i)
    else if (bits_eq >>> 8) &&& 0xff = 0xff then some (item ptr (i + 1))
    else if (bits_eq >>> 16) &&& 0xff = 0xff then some (item ptr (i + 2))
    else if (bits_eq >>> 24) &&& 0xff = 0xff then some (item ptr (i + 3))
    else none

def memchr (ptr value len : Word) : RamM Word :=
  let value8 : Byte := value.setWidth 8
  let (body_offset, tail_offset) := computeAlignment ptr 0 len
  let value32 := repeatByteToU32 value8
  loopThen ((indices 0 body_offset.toNat 1).findSomeM? (findByte ptr value8)) <|
  loopThen ((indices body_offset.toNat tail_offset.toNat 4).findSomeM?
    (findWordForward ptr value32)) <|
  loopThen ((indices tail_offset.toNat len.toNat 1).findSomeM? (findByte ptr value8)) <|
  return 0

/-- The round of the body of `memrchr`. -/
def findWordBackward (ptr value32 : Word) (i : ℕ) : RamM (Option Word) := do
  let bits_eq := ~~~((← read32 (item ptr i)) ^^^ value32)
  return if (bits_eq >>> 24) &&& 0xff = 0xff then some (item ptr (i + 3))
    else if (bits_eq >>> 16) &&& 0xff = 0xff then some (item ptr (i + 2))
    else if (bits_eq >>> 8) &&& 0xff = 0xff then some (item ptr (i + 1))
    else if bits_eq &&& 0xff = 0xff then some (item ptr i)
    else none

def memrchr (ptr value len : Word) : RamM Word :=
  let value8 : Byte := value.setWidth 8
  let (body_offset, tail_offset) := computeAlignment ptr 0 len
  let value32 := repeatByteToU32 value8
  loopThen ((indices tail_offset.toNat len.toNat 1).reverse.findSomeM? (findByte ptr value8)) <|
  loopThen ((indices body_offset.toNat tail_offset.toNat 4).reverse.findSomeM?
    (findWordBackward ptr value32)) <|
  loopThen ((indices 0 body_offset.toNat 1).reverse.findSomeM? (findByte ptr value8)) <|
  return 0

/-! ### The loops over the bytes -/

def memcpyBytes (dest src len : Word) : RamM Word := do
  (List.range len.toNat).forM fun i => do writeByte (item dest i) (← readByte (item src i))
  return dest

def memsetBytes (dest value len : Word) : RamM Word := do
  (List.range len.toNat).forM fun i => writeByte (item dest i) (value.setWidth 8)
  return dest

/-- The order of the bytes at the first index of a list at which they differ. -/
def cmpBytes (lhs rhs : Word) (indices : List ℕ) : RamM Ordering := do
  let r ← indices.findSomeM? fun i => do
    let left ← readByte (item lhs i)
    let right ← readByte (item rhs i)
    return if left = right then none else some (compare left.toNat right.toNat)
  return r.getD .eq

/-- The address of the first byte in the order of a list that has a value. -/
def findBytes (ptr value : Word) (indices : List ℕ) : RamM Word := do
  let r ← indices.findSomeM? fun i => do
    return if (← readByte (item ptr i)) = value.setWidth 8 then some (item ptr i) else none
  return r.getD 0

end Ram

end SecureBoot
