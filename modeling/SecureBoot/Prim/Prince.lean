import Mathlib.Data.List.Basic
import SecureBoot.Lib.Rounds
import SecureBoot.Prim.CipherPkg

/-! `prim_prince` at 64 bits, with the optional registers halfway. The logic before the
registers takes the inputs of the cycle, the logic after them what the registers hold. -/

namespace SecureBoot

open Bits PrimCipherPkg

structure PrinceParams where
  NumRoundsHalf : ℕ
  UseOldKeySched : Bool
  HalfwayDataReg : Bool
  HalfwayKeyReg : Bool

structure PrinceIn where
  rst_ni : Bool
  valid_i : Bool
  data_i : BitVec 64
  key_i : BitVec 128
  dec_i : Bool

/-- The expanded key. -/
structure PrinceKeys where
  k0 : BitVec 64
  k0Prime : BitVec 64
  k1 : BitVec 64
  k0New : BitVec 64

/-- The registers halfway. -/
structure PrinceRegs where
  k1Q : BitVec 64
  k0PrimeQ : BitVec 64
  k0NewQ : BitVec 64
  dataStateMiddleQ : BitVec 64
  validQ : Bool

section Prince

variable (P : PrinceParams) (i : PrinceIn)

/-- `p_key_expansion` and the key schedule. -/
def princeKeys : PrinceKeys :=
  let upper := i.key_i.extractLsb' 64 64
  let rotated := BitVec.ofBool (upper.getLsbD 0) ++ upper.extractLsb' 2 62 ++
    BitVec.ofBool (upper.getLsbD 63 ^^ upper.getLsbD 1)
  let k1 := i.key_i.extractLsb' 0 64
  let k1 := if i.dec_i then k1 ^^^ PRINCE_ALPHA_CONST else k1
  { k0 := if i.dec_i then rotated else upper
    k0Prime := if i.dec_i then upper else rotated
    k1
    k0New :=
      if P.UseOldKeySched then k1
      else if i.dec_i then upper ^^^ PRINCE_ALPHA_CONST else upper }

/-- A round of the forward pass. -/
def princeFwdPass (keys : PrinceKeys) (data_state : BitVec 64) (k : ℕ) : BitVec 64 :=
  let data_state_round := princeShiftrows64bit
    (princeMultPrime64bit (sbox464bit data_state PRINCE_SBOX4)) PRINCE_SHIFT_ROWS64
  let data_state_xor := data_state_round ^^^ PRINCE_ROUND_CONST.getD k 0
  data_state_xor ^^^ (if k % 2 = 1 then keys.k0New else keys.k1)

/-- `data_state_middle_d`: the logic before the registers. -/
def princeMiddleD : BitVec 64 :=
  let keys := princeKeys P i
  let data_state := i.data_i ^^^ keys.k0 ^^^ keys.k1 ^^^ PRINCE_ROUND_CONST.getD 0 0
  sbox464bit ((List.range' 1 P.NumRoundsHalf).foldl (princeFwdPass keys) data_state) PRINCE_SBOX4

/-- A round of the backward pass. -/
def princeBwdPass (k0NewQ k1Q : BitVec 64) (data_state : BitVec 64) (k : ℕ) : BitVec 64 :=
  let data_state_xor0 := data_state ^^^ (if (P.NumRoundsHalf + k + 1) % 2 = 1 then k0NewQ else k1Q)
  let data_state_xor1 := data_state_xor0 ^^^ PRINCE_ROUND_CONST.getD (10 - P.NumRoundsHalf + k) 0
  sbox464bit (princeMultPrime64bit (princeShiftrows64bit data_state_xor1 PRINCE_SHIFT_ROWS64_INV))
    PRINCE_SBOX4_INV

/-- The values after the registers: from the registers where these are instantiated, else
passed through. -/
def princeHalfway (r : PrinceRegs) : PrinceRegs where
  k1Q := if P.HalfwayKeyReg then r.k1Q else (princeKeys P i).k1
  k0PrimeQ := if P.HalfwayKeyReg then r.k0PrimeQ else (princeKeys P i).k0Prime
  k0NewQ := if P.HalfwayKeyReg then r.k0NewQ else (princeKeys P i).k0New
  dataStateMiddleQ := if P.HalfwayDataReg then r.dataStateMiddleQ else princeMiddleD P i
  validQ := if P.HalfwayDataReg then r.validQ else i.valid_i

/-- The logic after the registers. -/
def princeBackward (q : PrinceRegs) : BitVec 64 :=
  let data_state := sbox464bit (princeMultPrime64bit q.dataStateMiddleQ) PRINCE_SBOX4_INV
  let data_state := (List.range' 1 P.NumRoundsHalf).foldl (princeBwdPass P q.k0NewQ q.k1Q) data_state
  data_state ^^^ PRINCE_ROUND_CONST.getD 11 0 ^^^ q.k1Q ^^^ q.k0PrimeQ

variable (r : PrinceRegs)

/-- `data_o` in a cycle. -/
def princeDataO : BitVec 64 := princeBackward P (princeHalfway P i r)

/-- `valid_o` in a cycle. -/
def princeValidO : Bool := (princeHalfway P i r).validQ

/-- The registers after a cycle. -/
def princeClock : PrinceRegs :=
  if !i.rst_ni then ⟨0, 0, 0, 0, false⟩
  else if i.valid_i then
    let keys := princeKeys P i
    ⟨keys.k1, keys.k0Prime, keys.k0New, princeMiddleD P i, true⟩
  else { r with validQ := false }

/-- The cipher of one input, without any register. -/
def primPrince : BitVec 64 :=
  let keys := princeKeys P i
  princeBackward P ⟨keys.k1, keys.k0Prime, keys.k0New, princeMiddleD P i, i.valid_i⟩

/-- With any of the registers the output is the cipher of an input that is held for a
second cycle. -/
theorem princeDataO_of_held (hrst : i.rst_ni = true) (hvalid : i.valid_i = true) :
    princeDataO P i (princeClock P i r) = primPrince P i := by
  simp [princeDataO, primPrince, princeHalfway, princeClock, hrst, hvalid, princeBackward]

end Prince

end SecureBoot

/-! `prim_prince` at 64 bits is a reflective cipher: the round constants of the two passes
differ by alpha, which the expanded key of the other mode has as well, and the middle layer undoes
itself. -/

namespace SecureBoot

open Bits PrimCipherPkg Reflection

/-! ### The layers -/

theorem entry_PRINCE_SBOX4_INV (x : BitVec 4) :
    entry PRINCE_SBOX4_INV (entry PRINCE_SBOX4 x) = x := by
  revert x
  decide

theorem entry_PRINCE_SBOX4 (x : BitVec 4) :
    entry PRINCE_SBOX4 (entry PRINCE_SBOX4_INV x) = x := by
  revert x
  decide

theorem sbox464bit_PRINCE_SBOX4_INV (x : BitVec 64) :
    sbox464bit (sbox464bit x PRINCE_SBOX4) PRINCE_SBOX4_INV = x := by
  rw [sbox464bit_eq_sboxLayer, sbox464bit_eq_sboxLayer, sboxLayer_sboxLayer entry_PRINCE_SBOX4_INV]

theorem sbox464bit_PRINCE_SBOX4 (x : BitVec 64) :
    sbox464bit (sbox464bit x PRINCE_SBOX4_INV) PRINCE_SBOX4 = x := by
  rw [sbox464bit_eq_sboxLayer, sbox464bit_eq_sboxLayer, sboxLayer_sboxLayer entry_PRINCE_SBOX4]

theorem getLsbD_princeShiftrows64bit (x : BitVec 64) (shifts : List (BitVec 4)) {j : ℕ}
    (hj : j < 64) : (princeShiftrows64bit x shifts).getLsbD j =
      x.getLsbD ((shifts.getD (j / 4) 0).toNat * 4 + j % 4) := by
  rw [princeShiftrows64bit, getLsbD_foldl_setSlice
      (fun k => x.extractLsb' ((shifts.getD k 0).toNat * 4) 4) 0 hj, if_pos (by omega),
    BitVec.getLsbD_extractLsb', decide_eq_true (Nat.mod_lt j (by omega)), Bool.true_and]

/-- Tables of inverse permutations undo each other. -/
theorem princeShiftrows64bit_undo {shifts shifts' : List (BitVec 4)}
    (h : ∀ k < 16, (shifts.getD (shifts'.getD k 0).toNat 0).toNat = k) (x : BitVec 64) :
    princeShiftrows64bit (princeShiftrows64bit x shifts) shifts' = x := by
  apply BitVec.eq_of_getLsbD_eq
  intro j hj
  have hlt := (shifts'.getD (j / 4) 0).isLt
  rw [getLsbD_princeShiftrows64bit _ _ hj, getLsbD_princeShiftrows64bit _ _ (by omega)]
  congr 1
  have hnibble : ((shifts'.getD (j / 4) 0).toNat * 4 + j % 4) / 4 =
      (shifts'.getD (j / 4) 0).toNat := by
    omega
  rw [hnibble, h _ (by omega)]
  omega

theorem shiftRows_inv (x : BitVec 64) :
    princeShiftrows64bit (princeShiftrows64bit x PRINCE_SHIFT_ROWS64) PRINCE_SHIFT_ROWS64_INV = x :=
  princeShiftrows64bit_undo (by decide) x

theorem inv_shiftRows (x : BitVec 64) :
    princeShiftrows64bit (princeShiftrows64bit x PRINCE_SHIFT_ROWS64_INV) PRINCE_SHIFT_ROWS64 = x :=
  princeShiftrows64bit_undo (by decide) x

/-! ### The matrix -/

/-- The sum of four bits but the one at `skip`. -/
def sumBut (skip : ℕ) (a : ℕ → Bool) : Bool :=
  (a 0 && decide (0 ≠ skip)) ^^ (a 1 && decide (1 ≠ skip)) ^^ (a 2 && decide (2 ≠ skip)) ^^
    (a 3 && decide (3 ≠ skip))

theorem sumBut_congr {skip : ℕ} {a a' : ℕ → Bool} (h : ∀ s < 4, a s = a' s) :
    sumBut skip a = sumBut skip a' := by
  simp only [sumBut, h 0 (by omega), h 1 (by omega), h 2 (by omega), h 3 (by omega)]

/-- The nibble that the bit `i` of the nibble `k` of a product leaves out. -/
def skipped (k i : ℕ) : ℕ := (i + ((if k / 4 = 0 ∨ k / 4 = 3 then 0 else 1) + 3 - k % 4)) % 4

/-- The mask for the nibble `k` of a product. -/
def primeMask (k : ℕ) : BitVec 16 :=
  [PRINCE_SHIFT_ROWS_CONST0, PRINCE_SHIFT_ROWS_CONST1, PRINCE_SHIFT_ROWS_CONST2,
    PRINCE_SHIFT_ROWS_CONST3].getD (((if k / 4 = 0 ∨ k / 4 = 3 then 0 else 1) + 3 - k % 4) % 4) 0

theorem princeMultPrime64bit_eq_primeMask (x : BitVec 64) :
    princeMultPrime64bit x = (List.range 16).foldl
      (fun state_out k => setSlice state_out (4 * k)
        (princeNibbleRed16 (x.extractLsb' (16 * (k / 4)) 16 &&& primeMask k))) 0 :=
  princeMultPrime64bit_eq x

theorem getLsbD_primeMask : ∀ k < 16, ∀ i < 4, ∀ s < 4,
    (primeMask k).getLsbD (4 * s + i) = decide (s ≠ skipped k i) := by
  decide

theorem getLsbD_princeNibbleRed16 (v : BitVec 16) {i : ℕ} (hi : i < 4) :
    (princeNibbleRed16 v).getLsbD i =
      (v.getLsbD i ^^ v.getLsbD (4 + i) ^^ v.getLsbD (8 + i) ^^ v.getLsbD (12 + i)) := by
  simp [princeNibbleRed16, hi]

theorem getLsbD_princeMultPrime64bit (x : BitVec 64) {b r i : ℕ} (hb : b < 4) (hr : r < 4)
    (hi : i < 4) : (princeMultPrime64bit x).getLsbD (16 * b + 4 * r + i) =
      sumBut (skipped (4 * b + r) i) fun s => x.getLsbD (16 * b + 4 * s + i) := by
  have hmask := getLsbD_primeMask (4 * b + r) (by omega) i hi
  have h0 := hmask 0 (by omega)
  rw [Nat.mul_zero, Nat.zero_add] at h0
  rw [princeMultPrime64bit_eq_primeMask, getLsbD_foldl_setSlice (fun k => princeNibbleRed16
      (x.extractLsb' (16 * (k / 4)) 16 &&& primeMask k)) 0 (by omega), if_pos (by omega),
    show (16 * b + 4 * r + i) / 4 = 4 * b + r by omega,
    show (16 * b + 4 * r + i) % 4 = i by omega, show (4 * b + r) / 4 = b by omega,
    getLsbD_princeNibbleRed16 _ hi]
  simp only [BitVec.getLsbD_and, BitVec.getLsbD_extractLsb', h0, hmask 1 (by omega),
    hmask 2 (by omega), hmask 3 (by omega), sumBut, decide_eq_true (show i < 16 by omega),
    decide_eq_true (show 4 + i < 16 by omega), decide_eq_true (show 8 + i < 16 by omega),
    decide_eq_true (show 12 + i < 16 by omega), Bool.true_and]
  simp only [Nat.mul_zero, Nat.add_zero, Nat.mul_one, Nat.add_assoc, Nat.reduceMul]

theorem sumBut_sumBut (a : ℕ → Bool) {b r i : ℕ} (hb : b < 4) (hr : r < 4) (hi : i < 4) :
    sumBut (skipped (4 * b + r) i) (fun s => sumBut (skipped (4 * b + s) i) a) = a r := by
  have hbits : ∀ b < 4, ∀ i < 4, ∀ r < 4, ∀ a0 a1 a2 a3 : Bool,
      sumBut (skipped (4 * b + r) i) (fun s => sumBut (skipped (4 * b + s) i)
        ([a0, a1, a2, a3].getD · false)) = [a0, a1, a2, a3].getD r false := by
    decide +kernel
  have hr' : a r = [a 0, a 1, a 2, a 3].getD r false := by
    obtain rfl | rfl | rfl | rfl : r = 0 ∨ r = 1 ∨ r = 2 ∨ r = 3 := by omega
    all_goals rfl
  rw [hr', ← hbits b hb i hi r hr]
  rfl

theorem princeMultPrime64bit_self (x : BitVec 64) :
    princeMultPrime64bit (princeMultPrime64bit x) = x := by
  apply BitVec.eq_of_getLsbD_eq
  intro j hj
  obtain ⟨b, r, i, hb, hr, hi, rfl⟩ : ∃ b r i, b < 4 ∧ r < 4 ∧ i < 4 ∧ j = 16 * b + 4 * r + i :=
    ⟨j / 16, j % 16 / 4, j % 4, by omega, by omega, by omega, by omega⟩
  rw [getLsbD_princeMultPrime64bit _ hb hr hi,
    sumBut_congr fun s hs => getLsbD_princeMultPrime64bit x hb hs hi]
  exact sumBut_sumBut (fun s => x.getLsbD (16 * b + 4 * s + i)) hb hr hi

/-! ### The cipher -/

/-- A round of the forward pass under the sum of its key and its round constant. -/
def princeRound (key x : BitVec 64) : BitVec 64 :=
  princeShiftrows64bit (princeMultPrime64bit (sbox464bit x PRINCE_SBOX4)) PRINCE_SHIFT_ROWS64 ^^^
    key

/-- A round of the backward pass under that sum. -/
def princeRoundInv (key y : BitVec 64) : BitVec 64 :=
  sbox464bit (princeMultPrime64bit (princeShiftrows64bit (y ^^^ key) PRINCE_SHIFT_ROWS64_INV))
    PRINCE_SBOX4_INV

/-- What the middle part computes. -/
def princeMiddle (x : BitVec 64) : BitVec 64 :=
  sbox464bit (princeMultPrime64bit (sbox464bit x PRINCE_SBOX4)) PRINCE_SBOX4_INV

theorem xor_xor_self {w : ℕ} (x y : BitVec w) : x ^^^ y ^^^ y = x := by
  rw [BitVec.xor_assoc, BitVec.xor_self, BitVec.xor_zero]

theorem princeRoundInv_princeRound (key x : BitVec 64) :
    princeRoundInv key (princeRound key x) = x := by
  rw [princeRoundInv, princeRound, xor_xor_self, shiftRows_inv, princeMultPrime64bit_self,
    sbox464bit_PRINCE_SBOX4_INV]

theorem princeRound_princeRoundInv (key y : BitVec 64) :
    princeRound key (princeRoundInv key y) = y := by
  rw [princeRound, princeRoundInv, sbox464bit_PRINCE_SBOX4, princeMultPrime64bit_self,
    inv_shiftRows, xor_xor_self]

theorem princeMiddle_self (x : BitVec 64) : princeMiddle (princeMiddle x) = x := by
  rw [princeMiddle, princeMiddle, sbox464bit_PRINCE_SBOX4, princeMultPrime64bit_self,
    sbox464bit_PRINCE_SBOX4_INV]

namespace PrinceKeys

variable (keys : PrinceKeys)

/-- The key of a round, which alternates. -/
def round (k : ℕ) : BitVec 64 := if k % 2 = 1 then keys.k0New else keys.k1

/-- What the forward pass adds in the round `k`. -/
def inner (k : ℕ) : BitVec 64 := PRINCE_ROUND_CONST.getD k 0 ^^^ keys.round k

/-- What the backward pass adds to undo the round `k`. -/
def outer (k : ℕ) : BitVec 64 := PRINCE_ROUND_CONST.getD (11 - k) 0 ^^^ keys.round k

def whitenIn : BitVec 64 := keys.k0 ^^^ keys.k1 ^^^ PRINCE_ROUND_CONST.getD 0 0

def whitenOut : BitVec 64 := PRINCE_ROUND_CONST.getD 11 0 ^^^ keys.k1 ^^^ keys.k0Prime

/-- The keys of the other mode. -/
def reflect : PrinceKeys where
  k0 := keys.k0Prime
  k0Prime := keys.k0
  k1 := keys.k1 ^^^ PRINCE_ALPHA_CONST
  k0New := keys.k0New ^^^ PRINCE_ALPHA_CONST

@[simp] theorem reflect_reflect : keys.reflect.reflect = keys := by
  simp [reflect, xor_xor_self]

theorem round_reflect (k : ℕ) : keys.reflect.round k = keys.round k ^^^ PRINCE_ALPHA_CONST := by
  unfold round
  split_ifs <;> rfl

/-- The round constants of the two passes differ by alpha. -/
theorem alpha_reflection : ∀ k ≤ 11, PRINCE_ROUND_CONST.getD k 0 ^^^ PRINCE_ALPHA_CONST =
    PRINCE_ROUND_CONST.getD (11 - k) 0 := by
  decide

theorem inner_reflect {k : ℕ} (hk : k ≤ 11) : keys.reflect.inner k = keys.outer k := by
  rw [inner, outer, round_reflect, ← alpha_reflection k hk, BitVec.xor_assoc,
    BitVec.xor_comm PRINCE_ALPHA_CONST]

theorem outer_reflect {k : ℕ} (hk : k ≤ 11) : keys.reflect.outer k = keys.inner k := by
  rw [← inner_reflect _ hk, reflect_reflect]

theorem whitenIn_reflect : keys.reflect.whitenIn = keys.whitenOut := by
  have halpha := alpha_reflection 0 (by omega)
  simp only [whitenIn, whitenOut, reflect, ← halpha]
  ac_rfl

theorem whitenOut_reflect : keys.reflect.whitenOut = keys.whitenIn := by
  rw [← whitenIn_reflect, reflect_reflect]

end PrinceKeys

/-- The cipher under expanded keys. -/
def princeCipher (n : ℕ) (keys : PrinceKeys) (x : BitVec 64) : BitVec 64 :=
  cipher princeRound princeRoundInv princeMiddle keys.inner keys.outer n (x ^^^ keys.whitenIn) ^^^
    keys.whitenOut

/-- The cipher under the keys of the other mode undoes it. -/
theorem princeCipher_reflect {n : ℕ} (hn : n ≤ 11) (keys : PrinceKeys) (x : BitVec 64) :
    princeCipher n keys.reflect (princeCipher n keys x) = x := by
  have hkeys (y : BitVec 64) :
      cipher princeRound princeRoundInv princeMiddle keys.reflect.inner keys.reflect.outer n y =
        cipher princeRound princeRoundInv princeMiddle keys.outer keys.inner n y :=
    cipher_congr (fun k _ hk => keys.inner_reflect (by omega))
      (fun k _ hk => keys.outer_reflect (by omega)) y
  rw [princeCipher, keys.whitenIn_reflect, keys.whitenOut_reflect, hkeys, princeCipher,
    xor_xor_self,
    cipher_cipher princeRoundInv_princeRound princeRound_princeRoundInv princeMiddle_self,
    xor_xor_self]

section Module

variable (P : PrinceParams) (i : PrinceIn)

theorem princeFwdPass_eq (keys : PrinceKeys) (x : BitVec 64) (k : ℕ) :
    princeFwdPass keys x k = princeRound (keys.inner k) x :=
  BitVec.xor_assoc _ _ _

theorem princeBwdPass_eq (keys : PrinceKeys) (hn : P.NumRoundsHalf ≤ 10) (y : BitVec 64) {k : ℕ}
    (hk : k ≤ P.NumRoundsHalf) : princeBwdPass P keys.k0New keys.k1 y k =
      princeRoundInv (keys.outer (P.NumRoundsHalf + 1 - k)) y := by
  have hparity : (P.NumRoundsHalf + k + 1) % 2 = (P.NumRoundsHalf + 1 - k) % 2 := by omega
  have hconst : 10 - P.NumRoundsHalf + k = 11 - (P.NumRoundsHalf + 1 - k) := by omega
  simp only [princeBwdPass, princeRoundInv, PrinceKeys.outer, PrinceKeys.round, hparity, hconst]
  rw [BitVec.xor_comm (PRINCE_ROUND_CONST.getD _ 0), BitVec.xor_assoc]

/-- The module computes the cipher. -/
theorem primPrince_eq (hn : P.NumRoundsHalf ≤ 10) :
    primPrince P i = princeCipher P.NumRoundsHalf (princeKeys P i) i.data_i := by
  let keys := princeKeys P i
  have hforward : (List.range' 1 P.NumRoundsHalf).foldl (princeFwdPass keys)
      (i.data_i ^^^ keys.k0 ^^^ keys.k1 ^^^ PRINCE_ROUND_CONST.getD 0 0) =
        forward princeRound keys.inner P.NumRoundsHalf (i.data_i ^^^ keys.whitenIn) := by
    rw [← foldl_eq_forward, PrinceKeys.whitenIn, ← BitVec.xor_assoc, ← BitVec.xor_assoc]
    exact List.foldl_ext _ _ _ fun x k _ => princeFwdPass_eq keys x k
  have hbackward (y : BitVec 64) : (List.range' 1 P.NumRoundsHalf).foldl
      (princeBwdPass P keys.k0New keys.k1) y =
        backward princeRoundInv keys.outer P.NumRoundsHalf y := by
    rw [← foldl_eq_backward]
    refine List.foldl_ext _ _ _ fun y k hk => princeBwdPass_eq P keys hn y ?_
    have := List.mem_range'_1.mp hk
    omega
  simp only [primPrince, princeBackward, princeMiddleD]
  rw [hbackward, hforward, BitVec.xor_assoc, BitVec.xor_assoc]
  simp only [princeCipher, PrinceKeys.whitenOut, BitVec.xor_assoc]
  rfl

/-- The expanded keys of the other mode. -/
theorem princeKeys_not_dec (y : BitVec 64) :
    princeKeys P { i with data_i := y, dec_i := !i.dec_i } = (princeKeys P i).reflect := by
  cases hdec : i.dec_i <;> cases hsched : P.UseOldKeySched <;>
    simp [princeKeys, PrinceKeys.reflect, hdec, hsched, xor_xor_self]

/-- The other mode undoes the module. -/
theorem primPrince_primPrince (hn : P.NumRoundsHalf ≤ 10) :
    primPrince P { i with data_i := primPrince P i, dec_i := !i.dec_i } = i.data_i := by
  rw [primPrince_eq P _ hn, princeKeys_not_dec, primPrince_eq P i hn,
    princeCipher_reflect (by omega)]

end Module

end SecureBoot
