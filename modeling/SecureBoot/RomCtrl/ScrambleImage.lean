import Mathlib.Data.List.GetD
import Mathlib.Data.Nat.Size
import SecureBoot.Prim.Prince

/-! `scramble_image.py`: the substitution-permutation network and the PRINCE cipher on
Python's integers, and the scrambling of a ROM image. A failed assertion and an index
out of range are `none`. -/

namespace SecureBoot.ScrambleImage

open Bits

def PRINCE_SBOX4 : List ℕ :=
  [0xb, 0xf, 0x3, 0x2, 0xa, 0xc, 0x9, 0x1, 0x6, 0x7, 0x8, 0x0, 0xe, 0x5, 0xd, 0x4]

def PRINCE_SBOX4_INV : List ℕ :=
  [0xb, 0x7, 0x3, 0x2, 0xf, 0xd, 0x8, 0x9, 0xa, 0x6, 0x4, 0x0, 0x5, 0xe, 0xc, 0x1]

def PRESENT_SBOX4 : List ℕ :=
  [0xc, 0x5, 0x6, 0xb, 0x9, 0x0, 0xa, 0xd, 0x3, 0xe, 0xf, 0x8, 0x4, 0x7, 0x1, 0x2]

def PRESENT_SBOX4_INV : List ℕ :=
  [0x5, 0xe, 0xf, 0x8, 0xc, 0x1, 0x2, 0xd, 0xb, 0x4, 0x6, 0x3, 0x0, 0x7, 0x9, 0xa]

def PRINCE_SHIFT_ROWS64 : List ℕ :=
  [0x4, 0x9, 0xe, 0x3, 0x8, 0xd, 0x2, 0x7, 0xc, 0x1, 0x6, 0xb, 0x0, 0x5, 0xa, 0xf]

def PRINCE_SHIFT_ROWS64_INV : List ℕ :=
  [0xc, 0x9, 0x6, 0x3, 0x0, 0xd, 0xa, 0x7, 0x4, 0x1, 0xe, 0xb, 0x8, 0x5, 0x2, 0xf]

def PRINCE_ROUND_CONSTS : List ℕ :=
  [0x0000000000000000, 0x13198a2e03707344, 0xa4093822299f31d0, 0x082efa98ec4e6c89,
    0x452821e638d01377, 0xbe5466cf34e90c6c, 0x7ef84f78fd955cb1, 0x85840851f1ac43aa,
    0xc882d32f25323c54, 0x64a51195e0e3610d, 0xd3b5a399ca0c2399, 0xc0ac29b7c97c50dd]

def PRINCE_SHIFT_ROWS_CONSTS : List ℕ := [0x7bde, 0xbde7, 0xde7b, 0xe7bd]

/-! ### The substitution-permutation network -/

def sbox (data width : ℕ) (coeffs : List ℕ) : Option ℕ :=
  if data < 1 <<< width then
    let fullMask := onesMask width
    let sboxMask := onesMask (4 * (width / 4))
    some ((List.range (width / 4)).foldl
      (fun ret i => ret ||| coeffs.getD ((data >>> (4 * i)) &&& 0xf) 0 <<< (4 * i))
      (data &&& andNot fullMask sboxMask))
  else none

section SubstPerm

variable (key width : ℕ)

/-- `full_mask & ~bfly_mask`. -/
def bflyRest : ℕ := andNot (onesMask width) (onesMask (2 * (width / 2)))

/-- `data_rev`, the bits of `data` reversed. -/
def reverseBits (data : ℕ) : ℕ :=
  orBits 0 ((List.range width).map fun i => (width - 1 - i, data.testBit i))

/-- A round of `subst_perm_enc`. -/
def substPermEncRound (data : ℕ) : Option ℕ := do
  let dataXor := data ^^^ key
  let dataSbox ← sbox dataXor width PRESENT_SBOX4
  let dataRev := reverseBits width dataSbox
  some (orBits (dataRev &&& bflyRest width) ((List.range (width / 2)).flatMap fun i =>
    [(i, dataRev.testBit (2 * i)), (width / 2 + i, dataRev.testBit (2 * i + 1))]))

def substPermEnc (data key width numRounds : ℕ) : Option ℕ := do
  if data < 1 <<< width ∧ key < 1 <<< width then
    let data ← (List.range numRounds).foldlM (fun data _ => substPermEncRound key width data) data
    some (data ^^^ key)
  else none

/-- A round of `subst_perm_dec`. -/
def substPermDecRound (data : ℕ) : Option ℕ :=
  let dataXor := data ^^^ key
  let dataBfly := orBits (dataXor &&& bflyRest width) ((List.range (width / 2)).flatMap fun i =>
    [(2 * i, dataXor.testBit i), (2 * i + 1, dataXor.testBit (i + width / 2))])
  sbox (reverseBits width dataBfly) width PRESENT_SBOX4_INV

def substPermDec (data key width numRounds : ℕ) : Option ℕ := do
  if data < 1 <<< width ∧ key < 1 <<< width then
    let data ← (List.range numRounds).foldlM (fun data _ => substPermDecRound key width data) data
    some (data ^^^ key)
  else none

end SubstPerm

/-! ### PRINCE -/

def princeNibbleRed16 (data : ℕ) : Option ℕ :=
  if data < 1 <<< 16 then
    let nib0 := (data >>> 0) &&& 0xf
    let nib1 := (data >>> 4) &&& 0xf
    let nib2 := (data >>> 8) &&& 0xf
    let nib3 := (data >>> 12) &&& 0xf
    some (nib0 ^^^ nib1 ^^^ nib2 ^^^ nib3)
  else none

/-- The nibble `nibble_idx` of the block `blk_idx` in `prince_mult_prime`. -/
def princeMultNibble (data blkIdx nibbleIdx : ℕ) : Option ℕ :=
  let dataHw := (data >>> (16 * blkIdx)) &&& 0xffff
  let startSrIdx := if blkIdx = 0 ∨ blkIdx = 3 then 0 else 1
  let srIdx := (startSrIdx + 3 - nibbleIdx) % 4
  princeNibbleRed16 (dataHw &&& PRINCE_SHIFT_ROWS_CONSTS.getD srIdx 0)

def princeMultPrime (data : ℕ) : Option ℕ :=
  if data < 1 <<< 64 then
    (List.range 4).foldlM (fun ret blkIdx =>
      (List.range 4).foldlM (fun ret nibbleIdx =>
        (princeMultNibble data blkIdx nibbleIdx).map fun nibble =>
          ret ||| nibble <<< (16 * blkIdx + 4 * nibbleIdx)) ret) 0
  else none

def princeShiftrows (data : ℕ) (inv : Bool) : Option ℕ :=
  if data < 1 <<< 64 then
    let shifts := if inv then PRINCE_SHIFT_ROWS64_INV else PRINCE_SHIFT_ROWS64
    some ((List.range (64 / 4)).foldl (fun ret nibbleIdx =>
      ret ||| ((data >>> (4 * shifts.getD nibbleIdx 0)) &&& 0xf) <<< (4 * nibbleIdx)) 0)
  else none

def princeFwdRound (rc key data : ℕ) : Option ℕ := do
  if rc < 1 <<< 64 ∧ key < 1 <<< 64 ∧ data < 1 <<< 64 then
    let data ← sbox data 64 PRINCE_SBOX4
    let data ← princeMultPrime data
    let data ← princeShiftrows data false
    some (data ^^^ rc ^^^ key)
  else none

def princeInvRound (rc key data : ℕ) : Option ℕ := do
  if rc < 1 <<< 64 ∧ key < 1 <<< 64 ∧ data < 1 <<< 64 then
    let data ← princeShiftrows (data ^^^ key ^^^ rc) true
    let data ← princeMultPrime data
    sbox data 64 PRINCE_SBOX4_INV
  else none

def prince (data key numRoundsHalf : ℕ) : Option ℕ := do
  if data < 1 <<< 64 ∧ key < 1 <<< 128 ∧ numRoundsHalf ≤ 5 then
    let k1 := key &&& onesMask 64
    let k0 := key >>> 64
    let k0Rot1 := ((k0 &&& 1) <<< 63) ||| (k0 >>> 1)
    let k0Prime := k0Rot1 ^^^ (k0 >>> 63)
    let data := data ^^^ k0 ^^^ k1 ^^^ PRINCE_ROUND_CONSTS.getD 0 0
    let data ← (List.range numRoundsHalf).foldlM (fun data hri =>
      let roundIdx := 1 + hri
      let rc := PRINCE_ROUND_CONSTS.getD roundIdx 0
      let rk := if roundIdx &&& 1 ≠ 0 then k0 else k1
      princeFwdRound rc rk data) data
    let data ← sbox data 64 PRINCE_SBOX4
    let data ← princeMultPrime data
    let data ← sbox data 64 PRINCE_SBOX4_INV
    let data ← (List.range numRoundsHalf).foldlM (fun data hri =>
      let roundIdx := 11 - numRoundsHalf + hri
      let rc := PRINCE_ROUND_CONSTS.getD roundIdx 0
      let rk := if roundIdx &&& 1 ≠ 0 then k1 else k0
      princeInvRound rc rk data) data
    some (data ^^^ PRINCE_ROUND_CONSTS.getD 11 0 ^^^ k1 ^^^ k0Prime)
  else none

/-! ### The scrambler -/

structure MemChunk where
  baseAddr : ℕ
  words : List ℕ
  deriving DecidableEq

structure MemFile where
  width : ℕ
  chunks : List MemChunk
  deriving DecidableEq

/-- A `Scrambler`, with the assertions of its constructor. -/
structure Scrambler where
  nonce : ℕ
  key : ℕ
  romSizeWords : ℕ
  nonce_lt : nonce < 1 <<< 64
  key_lt : key < 1 <<< 128
  romSizeWords_pos : 0 < romSizeWords
  romSizeWords_lt : romSizeWords < 1 <<< 64

namespace Scrambler

def substPermRounds : ℕ := 2

def numRoundsHalf : ℕ := 2

variable (self : Scrambler)

def addrWidth : ℕ := (self.romSizeWords - 1).size

def getKeystream (logAddr width : ℕ) : Option ℕ := do
  if logAddr >>> self.addrWidth = 0 ∧ 0 < width ∧ width ≤ 64 then
    let dataNonceWidth := 64 - self.addrWidth
    let dataScrNonce := self.nonce &&& onesMask dataNonceWidth
    let toScramble := (dataScrNonce <<< self.addrWidth) ||| logAddr
    let fullKeystream ← prince toScramble self.key numRoundsHalf
    some (fullKeystream &&& onesMask width)
  else none

def addrSpEnc (logAddr : ℕ) : Option ℕ :=
  if self.addrWidth < 64 then
    let dataNonceWidth := 64 - self.addrWidth
    let addrScrNonce := self.nonce >>> dataNonceWidth
    substPermEnc logAddr addrScrNonce self.addrWidth substPermRounds
  else none

def addrSpDec (phyAddr : ℕ) : Option ℕ :=
  if self.addrWidth < 64 then
    let dataNonceWidth := 64 - self.addrWidth
    let addrScrNonce := self.nonce >>> dataNonceWidth
    substPermDec phyAddr addrScrNonce self.addrWidth substPermRounds
  else none

def dataSpEnc (width data : ℕ) : Option ℕ := substPermEnc data 0 width substPermRounds

def dataSpDec (width data : ℕ) : Option ℕ := substPermDec data 0 width substPermRounds

def scrambleWord (width logAddr clrData : ℕ) : Option ℕ := do
  let keystream ← self.getKeystream logAddr width
  dataSpEnc width (keystream ^^^ clrData)

def unscrambleWord (width logAddr scrData : ℕ) : Option ℕ := do
  let keystream ← self.getKeystream logAddr width
  let spScrData ← dataSpDec width scrData
  some (keystream ^^^ spScrData)

/-- The word of `scramble` at a physical address. -/
def scrambledAt (width : ℕ) (words : List ℕ) (phyAddr : ℕ) : Option ℕ := do
  let logAddr ← self.addrSpDec phyAddr
  if logAddr < self.romSizeWords then
    let clrData ← words[logAddr]?
    if clrData < 1 <<< width then self.scrambleWord width logAddr clrData else none
  else none

def scramble (mem : MemFile) : Option MemFile := do
  match mem.chunks with
  | [chunk] =>
    if chunk.words.length = self.romSizeWords ∧ mem.width ≤ 64 then
      let scrambled ← (List.range self.romSizeWords).mapM
        (self.scrambledAt mem.width chunk.words)
      some ⟨mem.width, [⟨0, scrambled⟩]⟩
    else none
  | _ => none

end Scrambler

end SecureBoot.ScrambleImage

/-! The Python model of the scrambling and the hardware agree: on the number of a packed
vector, every function of the script meets its assertions and gives the number of the
hardware's vector. -/

namespace SecureBoot.ScrambleImage

open Bits

/-- `(x >> i) & 0xf`. -/
theorem nibble_eq {w : ℕ} (x : BitVec w) (i : ℕ) :
    (x.toNat >>> i) &&& 0xf = (x.extractLsb' i 4).toNat := by
  rw [BitVec.extractLsb'_toNat]
  exact Nat.and_two_pow_sub_one_eq_mod _ 4

/-- A loop of steps that agree agrees. -/
theorem foldlM_eq {α : Type*} {w : ℕ} {f : ℕ → α → Option ℕ} {g : BitVec w → α → BitVec w}
    {l : List α} (h : ∀ a ∈ l, ∀ x : BitVec w, f x.toNat a = some (g x a).toNat) (x : BitVec w) :
    l.foldlM f x.toNat = some (l.foldl g x).toNat := by
  induction l generalizing x with
  | nil => rfl
  | cons a l ih =>
    rw [List.foldlM_cons, h a List.mem_cons_self, List.foldl_cons]
    exact ih (fun b hb => h b (List.mem_cons_of_mem a hb)) _

/-- The rounds of a loop that does not look at its index. -/
theorem foldl_range_eq_iterate {α : Type*} (g : α → α) (n : ℕ) (x : α) :
    (List.range n).foldl (fun x _ => g x) x = g^[n] x := by
  induction n with
  | zero => rfl
  | succ n ih => rw [List.range_succ, List.foldl_append, ih, Function.iterate_succ_apply']; rfl

/-! ### The substitution-permutation network -/

section SubstPerm

variable {w : ℕ}

/-- A table of the script and one of the hardware have the same entries. -/
def SameTable (coeffs : List ℕ) (sbox4 : List (BitVec 4)) : Prop :=
  ∀ v : BitVec 4, coeffs.getD v.toNat 0 = (PrimCipherPkg.entry sbox4 v).toNat

theorem present_sameTable : SameTable PRESENT_SBOX4 PrimCipherPkg.PRESENT_SBOX4 := by
  unfold SameTable
  decide

theorem presentInv_sameTable : SameTable PRESENT_SBOX4_INV PrimCipherPkg.PRESENT_SBOX4_INV := by
  unfold SameTable
  decide

theorem prince_sameTable : SameTable PRINCE_SBOX4 PrimCipherPkg.PRINCE_SBOX4 := by
  unfold SameTable
  decide

theorem princeInv_sameTable : SameTable PRINCE_SBOX4_INV PrimCipherPkg.PRINCE_SBOX4_INV := by
  unfold SameTable
  decide

theorem toNat_lt_one_shiftLeft (x : BitVec w) : x.toNat < 1 <<< w := by
  rw [Nat.one_shiftLeft]
  exact x.isLt

theorem sbox_eq {coeffs : List ℕ} {sbox4 : List (BitVec 4)} (h : SameTable coeffs sbox4)
    (x : BitVec w) : sbox x.toNat w coeffs = some (sboxLayer sbox4 x).toNat := by
  rw [sbox, if_pos (toNat_lt_one_shiftLeft x), sboxLayer,
    foldl_setSlice_inPlace (PrimCipherPkg.entry sbox4) x (by omega)]
  refine congrArg some (foldl_or_eq_toNat_foldl_setSlice (by omega) ?_ ?_ ?_)
  · intro i _
    rw [nibble_eq, h]
  · intro j hj
    rw [Nat.testBit_and, testBit_andNot, testBit_onesMask, testBit_onesMask, decide_eq_true hj]
    simp
  · intro j hj
    rw [Nat.testBit_and, testBit_andNot, testBit_onesMask, testBit_onesMask,
      decide_eq_false (show ¬j < 4 * (w / 4) by omega), BitVec.testBit_toNat]
    by_cases hw : j < w
    · simp [hw]
    · rw [BitVec.getLsbD_of_ge x j (by omega), Bool.false_and]

theorem reverseBits_eq (x y : BitVec w) :
    reverseBits w x.toNat = (setBits y (flipBits w x.getLsbD)).toNat := by
  apply orBits_eq_toNat_setBits (functional_flipBits _)
  · intro p hp
    exact exists_mem_flipBits.mp ⟨p.2, hp⟩
  · intro p _
    exact Nat.zero_testBit p.1
  · intro j hj
    have hge : ¬j < w := fun hlt => by
      obtain ⟨b, hb⟩ := exists_mem_flipBits.mpr hlt
      exact hj b hb
    rw [Nat.zero_testBit, BitVec.getLsbD_of_ge y j (by omega)]

theorem testBit_and_bflyRest (x : BitVec w) (j : ℕ) :
    (x.toNat &&& bflyRest w).testBit j = (decide (w / 2 * 2 ≤ j) && x.getLsbD j) := by
  rw [bflyRest, Nat.testBit_and, testBit_andNot, testBit_onesMask, testBit_onesMask,
    BitVec.testBit_toNat, Nat.mul_comm]
  by_cases hw : j < w
  · by_cases hlow : j < w / 2 * 2
    · simp [hlow, hw]
    · simp [hlow, hw, show w / 2 * 2 ≤ j by omega]
  · rw [BitVec.getLsbD_of_ge x j (by omega), Bool.false_and, Bool.and_false]

/-- A butterfly of the script and one of the hardware make the same assignments. -/
theorem butterfly_eq (x : BitVec w) {l : List (ℕ × Bool)} (hfun : Functional l)
    (hmem : ∀ j, (∃ b, (j, b) ∈ l) ↔ j < w / 2 * 2) :
    orBits (x.toNat &&& bflyRest w) l = (setBits x l).toNat := by
  apply orBits_eq_toNat_setBits hfun
  · intro p hp
    have := (hmem p.1).mp ⟨p.2, hp⟩
    omega
  · intro p hp
    have := (hmem p.1).mp ⟨p.2, hp⟩
    rw [testBit_and_bflyRest, decide_eq_false (by omega), Bool.false_and]
  · intro j hj
    have hge : ¬j < w / 2 * 2 := fun hlt => by
      obtain ⟨b, hb⟩ := (hmem j).mpr hlt
      exact hj b hb
    rw [testBit_and_bflyRest, decide_eq_true (by omega), Bool.true_and]

theorem group_eq (x : BitVec w) :
    orBits (x.toNat &&& bflyRest w) ((List.range (w / 2)).flatMap fun i =>
      [(i, x.toNat.testBit (2 * i)), (w / 2 + i, x.toNat.testBit (2 * i + 1))]) =
      (setBits x (groupBits w x.getLsbD)).toNat := by
  rw [← butterfly_eq x (functional_groupBits _) fun _ => exists_mem_groupBits]
  simp only [groupBits, Nat.mul_comm 2, Nat.add_comm (w / 2)]
  rfl

theorem ungroup_eq (x : BitVec w) :
    orBits (x.toNat &&& bflyRest w) ((List.range (w / 2)).flatMap fun i =>
      [(2 * i, x.toNat.testBit i), (2 * i + 1, x.toNat.testBit (i + w / 2))]) =
      (setBits x (ungroupBits w x.getLsbD)).toNat := by
  rw [← butterfly_eq x (functional_ungroupBits _) fun _ => exists_mem_ungroupBits]
  simp only [ungroupBits, Nat.mul_comm 2]
  rfl

variable (key x : BitVec w)

theorem substPermEncRound_eq :
    substPermEncRound key.toNat w x.toNat = some (encRound key x).toNat := by
  simp only [substPermEncRound, ← BitVec.toNat_xor, sbox_eq present_sameTable, Option.bind_eq_bind,
    Option.bind_some, reverseBits_eq _ 0#w, group_eq]
  rfl

theorem substPermDecRound_eq :
    substPermDecRound key.toNat w x.toNat = some (decRound key x).toNat := by
  simp only [substPermDecRound, ← BitVec.toNat_xor, ungroup_eq,
    reverseBits_eq _ (x ^^^ key), sbox_eq presentInv_sameTable]
  rfl

theorem substPermEnc_eq (n : ℕ) :
    substPermEnc x.toNat key.toNat w n = some (primSubstPerm n false x key).toNat := by
  rw [substPermEnc, if_pos ⟨toNat_lt_one_shiftLeft x, toNat_lt_one_shiftLeft key⟩,
    foldlM_eq fun _ _ x => substPermEncRound_eq key x, foldl_range_eq_iterate]
  simp [primSubstPerm]

theorem substPermDec_eq (n : ℕ) :
    substPermDec x.toNat key.toNat w n = some (primSubstPerm n true x key).toNat := by
  rw [substPermDec, if_pos ⟨toNat_lt_one_shiftLeft x, toNat_lt_one_shiftLeft key⟩,
    foldlM_eq fun _ _ x => substPermDecRound_eq key x, foldl_range_eq_iterate]
  simp [primSubstPerm]

end SubstPerm

/-! ### PRINCE -/

theorem princeNibbleRed16_eq (x : BitVec 16) :
    princeNibbleRed16 x.toNat = some (PrimCipherPkg.princeNibbleRed16 x).toNat := by
  rw [princeNibbleRed16, if_pos (toNat_lt_one_shiftLeft x)]
  simp only [nibble_eq, ← BitVec.toNat_xor]
  rfl

theorem princeShiftrows_eq (x : BitVec 64) (inv : Bool) :
    princeShiftrows x.toNat inv = some (PrimCipherPkg.princeShiftrows64bit x
      (if inv then PrimCipherPkg.PRINCE_SHIFT_ROWS64_INV
        else PrimCipherPkg.PRINCE_SHIFT_ROWS64)).toNat := by
  have hshifts : ∀ i < 16, (if inv then PRINCE_SHIFT_ROWS64_INV else PRINCE_SHIFT_ROWS64).getD i 0 =
      ((if inv then PrimCipherPkg.PRINCE_SHIFT_ROWS64_INV
        else PrimCipherPkg.PRINCE_SHIFT_ROWS64).getD i 0).toNat := by
    cases inv <;> decide
  rw [princeShiftrows, if_pos (toNat_lt_one_shiftLeft x)]
  refine congrArg some (foldl_or_eq_toNat_foldl_setSlice (by omega) ?_ ?_ ?_)
  · intro i hi
    rw [hshifts i hi, nibble_eq, Nat.mul_comm]
  · intro j _
    exact Nat.zero_testBit j
  · intro j hj
    rw [Nat.zero_testBit]
    exact BitVec.getLsbD_zero.symm

/-- The nibble `k` of the product. -/
def multNibble (x : BitVec 64) (k : ℕ) : BitVec 4 :=
  PrimCipherPkg.princeNibbleRed16 (x.extractLsb' (16 * (k / 4)) 16 &&&
    [PrimCipherPkg.PRINCE_SHIFT_ROWS_CONST0, PrimCipherPkg.PRINCE_SHIFT_ROWS_CONST1,
      PrimCipherPkg.PRINCE_SHIFT_ROWS_CONST2, PrimCipherPkg.PRINCE_SHIFT_ROWS_CONST3].getD
      (((if k / 4 = 0 ∨ k / 4 = 3 then 0 else 1) + 3 - k % 4) % 4) 0)

theorem princeMultNibble_eq (x : BitVec 64) (blkIdx : ℕ) {nibbleIdx : ℕ} (h : nibbleIdx < 4) :
    princeMultNibble x.toNat blkIdx nibbleIdx =
      some (multNibble x (4 * blkIdx + nibbleIdx)).toNat := by
  have hconst : ∀ i < 4, PRINCE_SHIFT_ROWS_CONSTS.getD i 0 =
      ([PrimCipherPkg.PRINCE_SHIFT_ROWS_CONST0, PrimCipherPkg.PRINCE_SHIFT_ROWS_CONST1,
        PrimCipherPkg.PRINCE_SHIFT_ROWS_CONST2, PrimCipherPkg.PRINCE_SHIFT_ROWS_CONST3].getD
        i 0).toNat := by
    decide
  have hblock : x.toNat >>> (16 * blkIdx) &&& 0xffff = (x.extractLsb' (16 * blkIdx) 16).toNat := by
    rw [BitVec.extractLsb'_toNat]
    exact Nat.and_two_pow_sub_one_eq_mod _ 16
  simp only [princeMultNibble]
  rw [hblock, hconst _ (Nat.mod_lt _ (by omega)), ← BitVec.toNat_and, princeNibbleRed16_eq,
    multNibble, show (4 * blkIdx + nibbleIdx) / 4 = blkIdx by omega,
    show (4 * blkIdx + nibbleIdx) % 4 = nibbleIdx by omega]

theorem princeMultPrime_eq (x : BitVec 64) :
    princeMultPrime x.toNat = some (PrimCipherPkg.princeMultPrime64bit x).toNat := by
  have hrange : List.range 4 = [0, 1, 2, 3] := rfl
  have hword : (List.range 16).foldl (fun r k => r ||| (multNibble x k).toNat <<< (4 * k)) 0 =
      (PrimCipherPkg.princeMultPrime64bit x).toNat := by
    rw [PrimCipherPkg.princeMultPrime64bit_eq]
    refine foldl_or_eq_toNat_foldl_setSlice (by omega) (fun k _ => rfl)
      (fun j _ => Nat.zero_testBit j) fun j _ => ?_
    rw [Nat.zero_testBit]
    exact BitVec.getLsbD_zero.symm
  rw [princeMultPrime, if_pos (toNat_lt_one_shiftLeft x), ← hword]
  simp only [hrange, List.foldlM_cons, List.foldlM_nil, princeMultNibble_eq x _ (show 0 < 4 by omega),
    princeMultNibble_eq x _ (show 1 < 4 by omega), princeMultNibble_eq x _ (show 2 < 4 by omega),
    princeMultNibble_eq x _ (show 3 < 4 by omega), Option.map_some, Option.bind_eq_bind,
    Option.bind_some, Option.pure_def]
  rfl

theorem princeFwdRound_eq (rc key x : BitVec 64) :
    princeFwdRound rc.toNat key.toNat x.toNat =
      some (PrimCipherPkg.princeShiftrows64bit (PrimCipherPkg.princeMultPrime64bit
        (PrimCipherPkg.sbox464bit x PrimCipherPkg.PRINCE_SBOX4))
          PrimCipherPkg.PRINCE_SHIFT_ROWS64 ^^^ rc ^^^ key).toNat := by
  rw [princeFwdRound, if_pos ⟨toNat_lt_one_shiftLeft rc, toNat_lt_one_shiftLeft key,
    toNat_lt_one_shiftLeft x⟩]
  simp only [sbox_eq prince_sameTable, Option.bind_eq_bind, Option.bind_some, princeMultPrime_eq,
    princeShiftrows_eq, ← sbox464bit_eq_sboxLayer, BitVec.toNat_xor]
  rfl

theorem princeInvRound_eq (rc key x : BitVec 64) :
    princeInvRound rc.toNat key.toNat x.toNat =
      some (PrimCipherPkg.sbox464bit (PrimCipherPkg.princeMultPrime64bit
        (PrimCipherPkg.princeShiftrows64bit (x ^^^ key ^^^ rc)
          PrimCipherPkg.PRINCE_SHIFT_ROWS64_INV)) PrimCipherPkg.PRINCE_SBOX4_INV).toNat := by
  rw [princeInvRound, if_pos ⟨toNat_lt_one_shiftLeft rc, toNat_lt_one_shiftLeft key,
    toNat_lt_one_shiftLeft x⟩]
  simp only [← BitVec.toNat_xor, princeShiftrows_eq, Option.bind_eq_bind, Option.bind_some,
    princeMultPrime_eq, sbox_eq princeInv_sameTable, ← sbox464bit_eq_sboxLayer]
  rfl

theorem princeRoundConst_eq (i : ℕ) :
    PRINCE_ROUND_CONSTS.getD i 0 = (PrimCipherPkg.PRINCE_ROUND_CONST.getD i 0).toNat := by
  by_cases hi : i < 12
  · revert i
    decide
  · rw [List.getD_eq_default _ _ (by change 12 ≤ i; omega),
      List.getD_eq_default _ _ (by change 12 ≤ i; omega)]
    rfl

/-- `k0_prime`, as the script and as the hardware rotate it. -/
theorem k0Prime_eq (k0 : BitVec 64) :
    (((k0.toNat &&& 1) <<< 63) ||| (k0.toNat >>> 1)) ^^^ (k0.toNat >>> 63) =
      (BitVec.ofBool (k0.getLsbD 0) ++ k0.extractLsb' 2 62 ++
        BitVec.ofBool (k0.getLsbD 63 ^^ k0.getLsbD 1)).toNat := by
  apply Nat.eq_of_testBit_eq
  intro j
  have hone : ∀ i, Nat.testBit 1 i = decide (i = 0) := fun i => by
    rw [Bool.eq_iff_iff, Nat.testBit_one_eq_true_iff_self_eq_zero, decide_eq_true_eq]
  simp only [Nat.testBit_xor, Nat.testBit_or, Nat.testBit_shiftLeft, Nat.testBit_and,
    Nat.testBit_shiftRight, BitVec.testBit_toNat, hone, BitVec.getLsbD_append,
    BitVec.getLsbD_extractLsb', BitVec.getLsbD_ofBool]
  obtain rfl | rfl | hj | hj : j = 0 ∨ j = 63 ∨ 64 ≤ j ∨ 0 < j ∧ j < 63 := by omega
  · simp [Bool.xor_comm]
  · simp
  · rw [BitVec.getLsbD_of_ge k0 (1 + j) (by omega), BitVec.getLsbD_of_ge k0 (63 + j) (by omega),
      decide_eq_false (show ¬j - 63 = 0 by omega), decide_eq_false (show ¬j - 1 < 62 by omega),
      decide_eq_false (show ¬j - 1 - 62 = 0 by omega), if_neg (by omega), if_neg (by omega)]
    simp
  · rw [BitVec.getLsbD_of_ge k0 (63 + j) (by omega), decide_eq_false (show ¬j ≥ 63 by omega),
      decide_eq_true (show j - 1 < 62 by omega), if_neg (by omega), if_pos (by omega),
      show 2 + (j - 1) = 1 + j by omega]
    simp

variable (P : PrinceParams) (i : PrinceIn)

/-- The rounds of the script count from zero, those of the hardware from one. -/
theorem foldl_range'_one {α : Type*} (g : α → ℕ → α) (n : ℕ) (x : α) :
    (List.range' 1 n).foldl g x = (List.range n).foldl (fun x k => g x (1 + k)) x := by
  rw [List.range'_eq_map_range, List.foldl_map]

variable {k0 k1 : BitVec 64}

theorem princeFwdStep_eq {keys : PrinceKeys} (hk0 : keys.k0New = k0) (hk1 : keys.k1 = k1)
    (hri : ℕ) (x : BitVec 64) :
    princeFwdRound (PrimCipherPkg.PRINCE_ROUND_CONST.getD (1 + hri) 0).toNat
      (if 1 + hri &&& 1 ≠ 0 then k0.toNat else k1.toNat) x.toNat =
      some (princeFwdPass keys x (1 + hri)).toNat := by
  rw [← apply_ite BitVec.toNat, princeFwdRound_eq, princeFwdPass, hk0, hk1, Nat.and_one_is_mod]
  by_cases hodd : (1 + hri) % 2 = 1
  · rw [if_pos (by omega), if_pos hodd]
  · rw [if_neg (by omega), if_neg hodd]

theorem princeInvStep_eq (hrounds : P.NumRoundsHalf ≤ 5) (hri : ℕ) (x : BitVec 64) :
    princeInvRound (PrimCipherPkg.PRINCE_ROUND_CONST.getD (11 - P.NumRoundsHalf + hri) 0).toNat
      (if 11 - P.NumRoundsHalf + hri &&& 1 ≠ 0 then k1.toNat else k0.toNat) x.toNat =
      some (princeBwdPass P k0 k1 x (1 + hri)).toNat := by
  rw [← apply_ite BitVec.toNat, princeInvRound_eq, princeBwdPass, Nat.and_one_is_mod,
    show 10 - P.NumRoundsHalf + (1 + hri) = 11 - P.NumRoundsHalf + hri by omega]
  -- eleven less the rounds is odd where the rounds are even
  by_cases hodd : (11 - P.NumRoundsHalf + hri) % 2 = 1
  · rw [if_pos (by omega), if_neg (by omega)]
  · rw [if_neg (by omega), if_pos (by omega)]

theorem princeFwdLoop_eq {keys : PrinceKeys} (hk0 : keys.k0New = k0) (hk1 : keys.k1 = k1) (n : ℕ)
    (x : BitVec 64) :
    (List.range n).foldlM (fun data hri =>
      princeFwdRound (PrimCipherPkg.PRINCE_ROUND_CONST.getD (1 + hri) 0).toNat
        (if 1 + hri &&& 1 ≠ 0 then k0.toNat else k1.toNat) data) x.toNat =
      some ((List.range' 1 n).foldl (princeFwdPass keys) x).toNat := by
  rw [foldl_range'_one]
  exact foldlM_eq (fun hri _ x => princeFwdStep_eq hk0 hk1 hri x) x

theorem princeInvLoop_eq (hrounds : P.NumRoundsHalf ≤ 5) (n : ℕ) (x : BitVec 64) :
    (List.range n).foldlM (fun data hri =>
      princeInvRound (PrimCipherPkg.PRINCE_ROUND_CONST.getD (11 - P.NumRoundsHalf + hri) 0).toNat
        (if 11 - P.NumRoundsHalf + hri &&& 1 ≠ 0 then k1.toNat else k0.toNat) data) x.toNat =
      some ((List.range' 1 n).foldl (princeBwdPass P k0 k1) x).toNat := by
  rw [foldl_range'_one]
  exact foldlM_eq (fun hri _ x => princeInvStep_eq P hrounds hri x) x

/-- The cipher of the script is that of the hardware in encryption, with the same rounds
and the new key schedule. -/
theorem prince_eq (hrounds : P.NumRoundsHalf ≤ 5) (hsched : P.UseOldKeySched = false)
    (hdec : i.dec_i = false) :
    prince i.data_i.toNat i.key_i.toNat P.NumRoundsHalf = some (primPrince P i).toNat := by
  have hk1 : i.key_i.toNat &&& onesMask 64 = (i.key_i.extractLsb' 0 64).toNat := by
    rw [BitVec.extractLsb'_toNat, onesMask, Nat.one_shiftLeft, Nat.and_two_pow_sub_one_eq_mod]
    rfl
  have hk0 : i.key_i.toNat >>> 64 = (i.key_i.extractLsb' 64 64).toNat := by
    rw [BitVec.extractLsb'_toNat, Nat.mod_eq_of_lt]
    rw [Nat.shiftRight_eq_div_pow]
    exact Nat.div_lt_of_lt_mul i.key_i.isLt
  have hnew : (princeKeys P i).k0New = i.key_i.extractLsb' 64 64 := by
    simp [princeKeys, hsched, hdec]
  have hlow : (princeKeys P i).k1 = i.key_i.extractLsb' 0 64 := by simp [princeKeys, hdec]
  have hupper : (princeKeys P i).k0 = i.key_i.extractLsb' 64 64 := by simp [princeKeys, hdec]
  have hprime : (princeKeys P i).k0Prime =
      BitVec.ofBool ((i.key_i.extractLsb' 64 64).getLsbD 0) ++
        (i.key_i.extractLsb' 64 64).extractLsb' 2 62 ++
        BitVec.ofBool ((i.key_i.extractLsb' 64 64).getLsbD 63 ^^
          (i.key_i.extractLsb' 64 64).getLsbD 1) := by
    simp only [princeKeys, hdec, Bool.false_eq_true, if_false]
  rw [prince, if_pos ⟨toNat_lt_one_shiftLeft _, toNat_lt_one_shiftLeft _, hrounds⟩]
  simp only [hk1, hk0, k0Prime_eq, princeRoundConst_eq, ← BitVec.toNat_xor,
    princeFwdLoop_eq hnew hlow, princeInvLoop_eq P hrounds, Option.bind_eq_bind,
    Option.bind_some, sbox_eq prince_sameTable, sbox_eq princeInv_sameTable, princeMultPrime_eq]
  simp only [primPrince, princeBackward, princeMiddleD, hnew, hlow, hupper,
    sbox464bit_eq_sboxLayer, hprime]

end SecureBoot.ScrambleImage
