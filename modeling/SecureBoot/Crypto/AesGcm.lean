import SecureBoot.Base.HardenedMemory
import SecureBoot.Drivers.Aes

/-! AES-GCM of the crypto library: the product with the hash subkey by a table of four-bit
windows, GHASH and GCTR over buffers, and the two operations on top of the AES driver. A buffer
is the bytes a pointer and a length give; where the code tests a pointer, `none` is the null
pointer. -/

namespace SecureBoot

open AesError

attribute [local instance] neZero_kAesBlockNumWords

/-! ### Blocks -/

def kGFReduceTable : List (BitVec 16) :=
  [0x0000, 0x201c, 0x4038, 0x6024, 0x8070, 0xa06c, 0xc048, 0xe054,
    0x00e1, 0x20fd, 0x40d9, 0x60c5, 0x8091, 0xa08d, 0xc0a9, 0xe0b5]

/-- `aes_gcm_product_table_t`. -/
abbrev AesGcmProductTable := ℕ → AesBlock

def blockXor (x y : AesBlock) : AesBlock := fun i => x i ^^^ y i

/-- The four low bits of a byte in reverse order. -/
def reverseBits (byte : Byte) : Byte :=
  (List.range 4).foldl (fun out i => (out <<< 1) ||| ((byte >>> i) &&& 1)) 0

def reverseBytes (word : Word) : Word :=
  (List.range 4).foldl (fun out i => (out <<< 8) ||| ((word >>> (i <<< 3)) &&& 255)) 0

/-- The loop of `block_shiftr`, with the carry from the word before. -/
def blockShiftr (block : AesBlock) (nbits : ℕ) : AesBlock :=
  ((List.finRange kAesBlockNumWords).foldl (fun (s : Word × AesBlock) i =>
    let rev := reverseBytes (s.2 i)
    let next_carry := rev &&& ((1#32 <<< nbits) - 1#32)
    let rev := (rev >>> nbits) ||| (s.1 <<< (32 - nbits))
    (next_carry, Function.update s.2 i (reverseBytes rev))) (0, block)).2

def getLastBlockNumBytes (sz : ℕ) : ℕ :=
  let remainder := sz % kAesBlockNumBytes
  if remainder = 0 then kAesBlockNumBytes else remainder

def getNblocks (sz : ℕ) : ℕ :=
  let out := sz >>> 4
  if getLastBlockNumBytes sz ≠ kAesBlockNumBytes then out + 1 else out

def wordInc32 (word : Word) : Word := reverseBytes (reverseBytes word + 1)

def blockInc32 (block : AesBlock) : AesBlock :=
  Function.update block 3 (wordInc32 (block 3))

/-- `data[0] ^= term`. -/
def xorFirst (block : AesBlock) (term : Word) : AesBlock :=
  Function.update block 0 (block 0 ^^^ term)

def galoisMulx (p : AesBlock) : AesBlock :=
  let p127 := p.byte (kAesBlockNumBytes - 1) &&& 1
  let mask : Word := 0 - p127.setWidth 32
  xorFirst (blockShiftr p 1) (0xe1 &&& mask)

/-- The products of all four-bit polynomials with `H`, at the reversed index. -/
def makeProductTable (H : AesBlock) : AesGcmProductTable :=
  let index (i : ℕ) : ℕ := (reverseBits (BitVec.ofNat 8 i)).toNat
  let tbl := Function.update (Function.update (fun _ => .zero) 0 .zero) 0x8 H
  (List.range 7).foldl (fun tbl k =>
    let i := 2 * k + 2
    let tbl := Function.update tbl (index i) (galoisMulx (tbl (index (i >>> 1))))
    Function.update tbl (index (i + 1)) (blockXor (tbl (index i)) H)) tbl

/-- One window of `galois_mul`. -/
def galoisMulStep (p : AesBlock) (tbl : AesGcmProductTable) (result : AesBlock) (i : ℕ) :
    AesBlock :=
  let result :=
    if i ≠ 0 then
      let overflow := result.byte (kAesBlockNumBytes - 1) &&& 0x0f
      xorFirst (blockShiftr result 4) ((kGFReduceTable.getD overflow.toNat 0).setWidth 32)
    else result
  let pi := p.byte ((31 - i) >>> 1)
  let pi := if i &&& 1 = 1 then pi >>> 4 else pi &&& 0x0f
  blockXor result (tbl pi.toNat)

def galoisMul (p : AesBlock) (tbl : AesGcmProductTable) : AesBlock :=
  (List.range (kAesBlockNumBytes <<< 1)).foldl (galoisMulStep p tbl) .zero

/-! ### GHASH -/

/-- Block `i` of the input, the last one padded with zeros. -/
def inputBlock (input : List Byte) (nblocks i : ℕ) : AesBlock :=
  let nbytes :=
    if i = nblocks - 1 then getLastBlockNumBytes input.length else kAesBlockNumBytes
  .ofBytes ((input.drop (i * kAesBlockNumBytes)).take nbytes)

def aesGcmGhashUpdate (tbl : AesGcmProductTable) (input : List Byte) (state : AesBlock) :
    AesBlock :=
  let nblocks := getNblocks input.length
  (List.range nblocks).foldl (fun state i =>
    galoisMul (blockXor state (inputBlock input nblocks i)) tbl) state

/-! ### GCTR -/

/-- The one-shot `aes_encrypt_block` on the AES unit. -/
def aesEncryptBlock (hw : AesUnit) (key : AesKey) (iv input output : AesBlock) :
    AesM (AesError × AesBlock) := do
  let err ← aesEncryptBegin key iv
  if err ≠ kAesOk then
    return (err, output)
  let err ← aesUpdateSrc hw input
  if err ≠ kAesOk then
    return (err, output)
  let (err, output) ← aesUpdateDest output
  if err ≠ kAesOk then
    return (err, output)
  let err ← aesEnd hw
  return (err, output)

/-- `memcpy` to byte `offset` of a buffer. -/
def copyTo (output : List Byte) (offset : ℕ) (bytes : List Byte) : List Byte :=
  output.take offset ++ bytes ++ output.drop (offset + bytes.length)

/-- The loop of `aes_gcm_gctr` with `n` blocks to go from block `i` on. -/
def aesGcmGctrLoop (hw : AesUnit) (key : AesKey) (input : List Byte) :
    ℕ → ℕ → AesBlock → List Byte → AesM (AesError × List Byte)
  | 0, _, _, output => return (kAesOk, output)
  | n + 1, i, iv, output => do
    let nblocks := getNblocks input.length
    let nbytes :=
      if i = nblocks - 1 then getLastBlockNumBytes input.length else kAesBlockNumBytes
    let (err, block_out) ← aesEncryptBlock hw key iv (inputBlock input nblocks i) .zero
    if err ≠ kAesOk then
      return (err, output)
    let output := copyTo output (i * kAesBlockNumBytes) (block_out.toBytes.take nbytes)
    aesGcmGctrLoop hw key input n (i + 1) (blockInc32 iv) output

def aesGcmGctr (hw : AesUnit) (key : AesKey) (icb : AesBlock) (len : ℕ)
    (input output : Option (List Byte)) : AesM (AesError × Option (List Byte)) := do
  if len = 0 then
    return (kAesOk, output)
  match input, output with
  | some input, some output =>
    if key.sideload ≠ kHardenedBoolFalse then
      return (kAesInternalError, some output)
    if key.mode ≠ kAesCipherModeCtr then
      return (kAesInternalError, some output)
    let (err, output) ← aesGcmGctrLoop hw key (input.take len) (getNblocks len) 0 icb output
    return (err, some output)
  | _, _ => return (kAesInternalError, output)

/-! ### The operations -/

def checkBufferLengths (iv_len plaintext_len aad_len : ℕ) : Word :=
  if iv_len ≠ 12 ∧ iv_len ≠ 16 then kHardenedBoolFalse
  else if plaintext_len > wordMax.toNat ∨ aad_len > wordMax.toNat then kHardenedBoolFalse
  else kHardenedBoolTrue

def aesGcmHashSubkey (hw : AesUnit) (key : AesKey) (tbl : AesGcmProductTable) :
    AesM (AesError × AesGcmProductTable) := do
  let (err, hash_subkey) ← aesEncryptBlock hw key .zero .zero .zero
  if err ≠ kAesOk then
    return (err, tbl)
  return (kAesOk, makeProductTable hash_subkey)

def aesGcmCounter (iv : List Byte) (tbl : AesGcmProductTable) (j0 : AesBlock) :
    AesError × AesBlock :=
  if iv.length = 12 then
    (kAesOk, Function.update (AesBlock.ofBytes iv) 3 (reverseBytes 1))
  else if iv.length = 16 then
    let j0 := aesGcmGhashUpdate tbl iv .zero
    (kAesOk, aesGcmGhashUpdate tbl (List.replicate 15 0 ++ [0x80]) j0)
  else (kAesInternalError, j0)

/-- `__builtin_bswap64` of a value, as the bytes in memory. -/
def bigEndian64 (value : BitVec 64) : List Byte :=
  (List.range 8).map fun k => value.extractLsb' (8 * (7 - k)) 8

def aesGcmComputeTag (hw : AesUnit) (key : AesKey) (tbl : AesGcmProductTable)
    (ciphertext aad : List Byte) (j0 : AesBlock) (tag : List Byte) :
    AesM (AesError × List Byte) := do
  let s := aesGcmGhashUpdate tbl aad .zero
  let s := aesGcmGhashUpdate tbl ciphertext s
  let last_block := bigEndian64 (BitVec.ofNat 64 aad.length * 8) ++
    bigEndian64 (BitVec.ofNat 64 ciphertext.length * 8)
  let s := aesGcmGhashUpdate tbl last_block s
  let (err, tag') ← aesGcmGctr hw key j0 kAesBlockNumBytes (some s.toBytes) (some tag)
  return (err, tag'.getD tag)

/-- The ciphertext and tag buffers after `aes_gcm_encrypt`. -/
def aesGcmEncrypt (hw : AesUnit) (key : AesKey) (iv : List Byte) (plaintext_len : ℕ)
    (plaintext : Option (List Byte)) (aad : List Byte) (ciphertext : Option (List Byte))
    (tag : List Byte) : AesM (AesError × Option (List Byte) × List Byte) := do
  if checkBufferLengths iv.length plaintext_len aad.length ≠ kHardenedBoolTrue then
    return (kAesInternalError, ciphertext, tag)
  let (err, Htbl) ← aesGcmHashSubkey hw key fun _ => .zero
  if err ≠ kAesOk then
    return (err, ciphertext, tag)
  let (err, j0) := aesGcmCounter iv Htbl .zero
  if err ≠ kAesOk then
    return (err, ciphertext, tag)
  let j0_inc := blockInc32 j0
  let (err, ciphertext) ← aesGcmGctr hw key j0_inc plaintext_len plaintext ciphertext
  if err ≠ kAesOk then
    return (err, ciphertext, tag)
  let (err, tag) ← aesGcmComputeTag hw key Htbl ((ciphertext.getD []).take plaintext_len) aad j0 tag
  return (err, ciphertext, tag)

/-- The plaintext buffer and `success` after `aes_gcm_decrypt`. -/
def aesGcmDecrypt (hw : AesUnit) (key : AesKey) (iv : List Byte) (ciphertext_len : ℕ)
    (ciphertext : Option (List Byte)) (aad tag : List Byte) (plaintext : Option (List Byte))
    (success : Word) : AesM (AesError × Option (List Byte) × Word) := do
  if checkBufferLengths iv.length ciphertext_len aad.length ≠ kHardenedBoolTrue then
    return (kAesInternalError, plaintext, success)
  let (err, Htbl) ← aesGcmHashSubkey hw key fun _ => .zero
  if err ≠ kAesOk then
    return (err, plaintext, success)
  let (err, j0) := aesGcmCounter iv Htbl .zero
  if err ≠ kAesOk then
    return (err, plaintext, success)
  let (err, expected_tag) ← aesGcmComputeTag hw key Htbl
    ((ciphertext.getD []).take ciphertext_len) aad j0 (List.replicate kAesBlockNumBytes 0)
  if err ≠ kAesOk then
    return (err, plaintext, success)
  let success ← (hardenedMemeq (List.ofFn (AesBlock.ofBytes expected_tag))
    (List.ofFn (AesBlock.ofBytes tag)) : Option Word)
  if success ≠ kHardenedBoolTrue then
    return (kAesOk, plaintext, success)
  let j0 := blockInc32 j0
  let (err, plaintext) ← aesGcmGctr hw key j0 ciphertext_len ciphertext plaintext
  return (err, plaintext, success)

end SecureBoot
