import Mathlib.Data.List.Basic
import SecureBoot.Lib.BitLoops

/-! The block cipher PRESENT as its standard gives it: a substitution of nibbles, a
permutation of bits, and a key register of 80 or 128 bits that is rotated, substituted
in its top nibbles and mixed with a five-bit round counter. -/

namespace PresentCipher

open Bits

/-! ### Layers -/

/-- `S` on every nibble. -/
def nibbleLayer (S : BitVec 4 → BitVec 4) (x : BitVec 64) : BitVec 64 :=
  ofBits 64 fun j => (S (x.extractLsb' (4 * (j / 4)) 4)).getLsbD (j % 4)

/-- Bit `j` of the result is bit `source j`. -/
def bitLayer (source : ℕ → ℕ) (x : BitVec 64) : BitVec 64 :=
  ofBits 64 fun j => x.getLsbD (source j)

theorem extractLsb'_nibbleLayer (S : BitVec 4 → BitVec 4) (x : BitVec 64) {k : ℕ} (hk : k < 16) :
    (nibbleLayer S x).extractLsb' (4 * k) 4 = S (x.extractLsb' (4 * k) 4) := by
  apply BitVec.eq_of_getLsbD_eq
  intro i hi
  have hdiv : (4 * k + i) / 4 = k := by omega
  have hmod : (4 * k + i) % 4 = i := by omega
  rw [BitVec.getLsbD_extractLsb', decide_eq_true hi, Bool.true_and, nibbleLayer,
    getLsbD_ofBits (by omega), hdiv, hmod]

theorem nibbleLayer_nibbleLayer {S S' : BitVec 4 → BitVec 4} (h : ∀ n, S' (S n) = n)
    (x : BitVec 64) : nibbleLayer S' (nibbleLayer S x) = x := by
  apply BitVec.eq_of_getLsbD_eq
  intro j hj
  rw [nibbleLayer, getLsbD_ofBits hj, extractLsb'_nibbleLayer S x (by omega), h,
    BitVec.getLsbD_extractLsb', decide_eq_true (Nat.mod_lt _ (by omega)), Bool.true_and,
    Nat.div_add_mod]

theorem bitLayer_bitLayer {source source' : ℕ → ℕ} (hlt : ∀ j < 64, source' j < 64)
    (h : ∀ j < 64, source (source' j) = j) (x : BitVec 64) :
    bitLayer source' (bitLayer source x) = x := by
  apply BitVec.eq_of_getLsbD_eq
  intro j hj
  rw [bitLayer, getLsbD_ofBits hj, bitLayer, getLsbD_ofBits (hlt j hj), h j hj]

def sBoxTable : List (BitVec 4) :=
  [0xC, 0x5, 0x6, 0xB, 0x9, 0x0, 0xA, 0xD, 0x3, 0xE, 0xF, 0x8, 0x4, 0x7, 0x1, 0x2]

def sBox (x : BitVec 4) : BitVec 4 := sBoxTable.getD x.toNat 0

/-- Bit `i` moves to position `16 * i` modulo 63, and bit 63 stays. -/
def pTarget (i : ℕ) : ℕ := if i = 63 then 63 else 16 * i % 63

def pSource (j : ℕ) : ℕ := if j = 63 then 63 else 4 * j % 63

theorem pTarget_lt (i : ℕ) : pTarget i < 64 := by
  unfold pTarget
  split_ifs <;> omega

theorem pSource_lt (j : ℕ) : pSource j < 64 := by
  unfold pSource
  split_ifs <;> omega

theorem pSource_pTarget {i : ℕ} (hi : i < 64) : pSource (pTarget i) = i := by
  unfold pSource pTarget
  split_ifs <;> omega

theorem pTarget_pSource {j : ℕ} (hj : j < 64) : pTarget (pSource j) = j := by
  unfold pSource pTarget
  split_ifs <;> omega

def sBoxLayer : BitVec 64 → BitVec 64 := nibbleLayer sBox

def pLayer : BitVec 64 → BitVec 64 := bitLayer pSource

/-! ### Rounds -/

/-- The first round key is added, and every further one after the two layers. -/
def encrypt (roundKeys : List (BitVec 64)) (block : BitVec 64) : BitVec 64 :=
  match roundKeys with
  | [] => block
  | key :: keys => keys.foldl (fun state key => pLayer (sBoxLayer state) ^^^ key) (block ^^^ key)

/-- Steps are undone from the last one on. -/
theorem foldl_reverse_foldl {α β : Type} {f g : β → α → β} (h : ∀ b a, g (f b a) a = b)
    (l : List α) (b : β) : l.reverse.foldl g (l.foldl f b) = b := by
  induction l generalizing b with
  | nil => rfl
  | cons a l ih =>
    rw [List.reverse_cons, List.foldl_append, List.foldl_cons (f := f), ih, List.foldl_cons,
      List.foldl_nil, h]

/-! ### Key schedules -/

def update80 (register : BitVec 80) (roundCounter : BitVec 5) : BitVec 80 :=
  let register := register.rotateLeft 61
  let register := setSlice register 76 (sBox (register.extractLsb' 76 4))
  setSlice register 15 (register.extractLsb' 15 5 ^^^ roundCounter)

def update128 (register : BitVec 128) (roundCounter : BitVec 5) : BitVec 128 :=
  let register := register.rotateLeft 61
  let register := setSlice register 124 (sBox (register.extractLsb' 124 4))
  let register := setSlice register 120 (sBox (register.extractLsb' 120 4))
  setSlice register 62 (register.extractLsb' 62 5 ^^^ roundCounter)

/-- `n` round keys, the top 64 bits of the register each time, from round `i` on. The
counter has five bits, so that it wraps after 31. -/
def roundKeysFrom {w : ℕ} (update : BitVec w → BitVec 5 → BitVec w) :
    ℕ → ℕ → BitVec w → List (BitVec 64)
  | _, 0, _ => []
  | i, n + 1, register => register.extractLsb' (w - 64) 64 ::
      roundKeysFrom update (i + 1) n (update register (BitVec.ofNat 5 i))

/-- The round keys of PRESENT-80. -/
def roundKeys80 (key : BitVec 80) (n : ℕ) : List (BitVec 64) := roundKeysFrom update80 1 n key

/-- The round keys of PRESENT-128. -/
def roundKeys128 (key : BitVec 128) (n : ℕ) : List (BitVec 64) := roundKeysFrom update128 1 n key

variable {w : ℕ}

theorem setSlice_extractLsb'_xor (x : BitVec w) (lsb : ℕ) {m : ℕ} (c : BitVec m) :
    setSlice x lsb (x.extractLsb' lsb m ^^^ c) = x ^^^ c.setWidth w <<< lsb := by
  apply BitVec.eq_of_getLsbD_eq
  intro j hj
  rw [getLsbD_setSlice _ _ _ hj]
  split_ifs with h
  · have hm : j - lsb < m := by omega
    simp [hj, hm, Nat.not_lt.2 h.1, Nat.add_sub_cancel' h.1]
  · rw [BitVec.getLsbD_xor, BitVec.getLsbD_shiftLeft, BitVec.getLsbD_setWidth]
    obtain hlt | hge := Nat.lt_or_ge j lsb
    · simp [hlt]
    · rw [BitVec.getLsbD_of_ge c _ (by omega), Bool.and_false, Bool.and_false, Bool.xor_false]

end PresentCipher
