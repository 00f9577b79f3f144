import SecureBoot.Lib.Bits
import SecureBoot.Lib.Gf2Poly

/-! Galois/counter mode over a block function, as its standard gives it: blocks are bit strings
whose leftmost bit is the coefficient of the lowest power, texts are strings of bytes. The
product of two blocks is also computed in windows, from the highest powers on. -/

namespace Gcm

open Bits

abbrev Byte := BitVec 8

abbrev Block := BitVec 128

/-! ### The field -/

/-- The low terms of the modulus, `11100001 ‖ 0¹²⁰`. -/
def R : Block := 0xe1#128 <<< 120

/-- The product with the polynomial `x`. -/
def mulx (v : Block) : Block := (v >>> 1) ^^^ (if v.getLsbD 0 then R else 0#128)

/-- The product of two blocks, with one step for each bit of the first one. -/
def mul (x y : Block) : Block :=
  ((List.range 128).foldl (fun s i => (if x.getMsbD i then s.1 ^^^ s.2 else s.1, mulx s.2))
    ((0#128, y) : Block × Block)).1

theorem xor_left_comm' {w : ℕ} (a b c : BitVec w) : a ^^^ (b ^^^ c) = b ^^^ (a ^^^ c) := by
  rw [← BitVec.xor_assoc, BitVec.xor_comm a, BitVec.xor_assoc]

theorem mulx_xor (a b : Block) : mulx (a ^^^ b) = mulx a ^^^ mulx b := by
  rw [mulx, mulx, mulx, BitVec.ushiftRight_xor_distrib, BitVec.getLsbD_xor]
  cases a.getLsbD 0 <;> cases b.getLsbD 0
  · simp
  · simp [BitVec.xor_assoc]
  · simp [BitVec.xor_assoc, BitVec.xor_comm R]
  · simp only [Bool.xor_true, Bool.not_true, Bool.false_eq_true, if_false, if_true,
      BitVec.xor_zero]
    rw [BitVec.xor_assoc, xor_left_comm' R, BitVec.xor_self, BitVec.xor_zero]

theorem mulx_zero : mulx 0#128 = 0#128 := by
  simp [mulx]

theorem iterate_mulx_xor (n : ℕ) (a b : Block) : mulx^[n] (a ^^^ b) = mulx^[n] a ^^^ mulx^[n] b := by
  induction n generalizing a b with
  | zero => rfl
  | succ n ih => rw [Function.iterate_succ_apply, mulx_xor, ih]; rfl

theorem iterate_mulx_zero (n : ℕ) : mulx^[n] 0#128 = 0#128 :=
  Function.iterate_fixed mulx_zero n

/-! ### Windows -/

/-- The product of `y` with the `n` coefficients of `x` from `j` on. -/
def window (x y : Block) : ℕ → ℕ → Block
  | _, 0 => 0#128
  | j, n + 1 => (if x.getMsbD j then y else 0#128) ^^^ mulx (window x y (j + 1) n)

theorem window_mulx (x y : Block) (j n : ℕ) : window x (mulx y) j n = mulx (window x y j n) := by
  induction n generalizing j with
  | zero => exact mulx_zero.symm
  | succ n ih =>
    rw [window, window, ih, mulx_xor]
    split_ifs
    · rfl
    · rw [mulx_zero]

theorem window_add (x y : Block) (j m n : ℕ) :
    window x y j (m + n) = window x y j m ^^^ mulx^[m] (window x y (j + m) n) := by
  induction m generalizing j with
  | zero => rw [Nat.zero_add, window, BitVec.zero_xor]; rfl
  | succ m ih =>
    rw [Nat.succ_add, window, ih, window, mulx_xor, BitVec.xor_assoc, Nat.add_right_comm,
      Nat.add_assoc, ← Function.iterate_succ_apply' mulx]

/-- The steps of the product from bit `j` on. -/
theorem foldl_eq_window (x z v : Block) (j n : ℕ) :
    ((List.range' j n).foldl (fun s i => (if x.getMsbD i then s.1 ^^^ s.2 else s.1, mulx s.2))
      ((z, v) : Block × Block)).1 = z ^^^ window x v j n := by
  induction n generalizing j z v with
  | zero => exact BitVec.xor_zero.symm
  | succ n ih =>
    rw [List.range'_succ, List.foldl_cons, ih, window_mulx, window, ← BitVec.xor_assoc]
    split_ifs
    · rfl
    · rw [BitVec.xor_zero]

theorem mul_eq_window (x y : Block) : mul x y = window x y 0 128 := by
  rw [mul, List.range_eq_range', foldl_eq_window, BitVec.zero_xor]

/-- Horner's rule on windows of `w` coefficients: the next window comes in front. -/
theorem window_succ (x y : Block) (w j n : ℕ) :
    window x y j (w * (n + 1)) =
      mulx^[w] (window x y (j + w) (w * n)) ^^^ window x y j w := by
  rw [Nat.mul_succ, Nat.add_comm, window_add, BitVec.xor_comm]

/-! ### Bytes and blocks -/

/-- The block at byte `16 * i` of a text that is filled up with zeros. -/
def blockAt (x : List Byte) (i : ℕ) : Block :=
  ofBits 128 fun j => (x.getD (16 * i + (15 - j / 8)) 0).getLsbD (j % 8)

def ofBytes (x : List Byte) : Block := blockAt x 0

/-- Byte `k` of a block, from the left. -/
def byte (b : Block) (k : ℕ) : Byte := b.extractLsb' (8 * (15 - k)) 8

def toBytes (b : Block) : List Byte := (List.range 16).map (byte b)

theorem length_toBytes (b : Block) : (toBytes b).length = 16 := rfl

theorem byte_blockAt (x : List Byte) (i : ℕ) {k : ℕ} (hk : k < 16) :
    byte (blockAt x i) k = x.getD (16 * i + k) 0 := by
  apply BitVec.eq_of_getLsbD_eq
  intro j hj
  have hdiv : 15 - (8 * (15 - k) + j) / 8 = k := by omega
  have hmod : (8 * (15 - k) + j) % 8 = j := by omega
  rw [byte, BitVec.getLsbD_extractLsb', decide_eq_true hj, Bool.true_and, blockAt,
    getLsbD_ofBits (by omega), hdiv, hmod]

theorem blockAt_toBytes (b : Block) : ofBytes (toBytes b) = b := by
  apply BitVec.eq_of_getLsbD_eq
  intro j hj
  have hlt : 15 - j / 8 < (toBytes b).length := by rw [length_toBytes]; omega
  have hpos : 8 * (15 - (15 - j / 8)) + j % 8 = j := by omega
  rw [ofBytes, blockAt, getLsbD_ofBits hj, Nat.mul_zero, Nat.zero_add,
    List.getD_eq_getElem?_getD, List.getElem?_eq_getElem hlt, Option.getD_some]
  simp only [toBytes, List.getElem_map, List.getElem_range, byte]
  rw [BitVec.getLsbD_extractLsb', decide_eq_true (Nat.mod_lt _ (by omega)), Bool.true_and, hpos]

/-- Blocks with the same bytes are the same. -/
theorem eq_of_byte_eq {a b : Block} (h : ∀ k < 16, byte a k = byte b k) : a = b := by
  rw [← blockAt_toBytes a, ← blockAt_toBytes b]
  exact congrArg ofBytes (List.map_congr_left fun k hk => h k (List.mem_range.1 hk))

theorem byte_xor (a b : Block) (k : ℕ) : byte (a ^^^ b) k = byte a k ^^^ byte b k := by
  apply BitVec.eq_of_getLsbD_eq
  intro j hj
  simp only [byte, BitVec.getLsbD_extractLsb', BitVec.getLsbD_xor, decide_eq_true hj, Bool.true_and]

/-- The blocks of a text, the last one filled up with zeros. -/
def blocks (x : List Byte) : List Block := (List.range ((x.length + 15) / 16)).map (blockAt x)

/-! ### The mode -/

def ghashFrom (h y : Block) (xs : List Block) : Block := xs.foldl (fun y x => mul (y ^^^ x) h) y

def ghash (h : Block) (xs : List Block) : Block := ghashFrom h 0 xs

theorem ghashFrom_append (h y : Block) (xs ys : List Block) :
    ghashFrom h y (xs ++ ys) = ghashFrom h (ghashFrom h y xs) ys := List.foldl_append

/-- The last 32 bits count modulo `2³²`. -/
def inc32 (b : Block) : Block := b.extractLsb' 32 96 ++ (b.setWidth 32 + 1#32)

section Mode

variable (ciph : Block → Block)

/-- Byte `k` of `ciph (icb) ‖ ciph (inc32 icb) ‖ …`. -/
def keyByte (icb : Block) (k : ℕ) : Byte := byte (ciph (inc32^[k / 16] icb)) (k % 16)

def gctr (icb : Block) (x : List Byte) : List Byte := x.mapIdx fun k b => b ^^^ keyByte ciph icb k

/-- The length of a text in bits. -/
def len64 (x : List Byte) : BitVec 64 := BitVec.ofNat 64 (8 * x.length)

/-- The block before the first counter block. -/
def j0 (iv : List Byte) : Block :=
  if iv.length = 12 then ofBytes (iv ++ [0, 0, 0, 1])
  else ghash (ciph 0) (blocks iv ++ [0#64 ++ len64 iv])

def tag (iv a c : List Byte) : List Byte :=
  gctr ciph (j0 ciph iv) (toBytes (ghash (ciph 0) (blocks a ++ blocks c ++ [len64 a ++ len64 c])))

def encrypt (iv p a : List Byte) : List Byte × List Byte :=
  let c := gctr ciph (inc32 (j0 ciph iv)) p
  (c, tag ciph iv a c)

@[simp] theorem length_gctr (icb : Block) (x : List Byte) : (gctr ciph icb x).length = x.length :=
  List.length_mapIdx

theorem getElem_gctr (icb : Block) (x : List Byte) {k : ℕ} (hk : k < x.length)
    (hk' : k < (gctr ciph icb x).length) :
    (gctr ciph icb x)[k] = x[k] ^^^ keyByte ciph icb k :=
  List.getElem_mapIdx

theorem gctr_gctr (icb : Block) (x : List Byte) : gctr ciph icb (gctr ciph icb x) = x := by
  have hlen := length_gctr ciph icb x
  refine List.ext_getElem (by simp) fun k hk hk' => ?_
  rw [getElem_gctr ciph icb _ (hk'.trans_eq hlen.symm) hk,
    getElem_gctr ciph icb x hk' (hk'.trans_eq hlen.symm), BitVec.xor_assoc, BitVec.xor_self,
    BitVec.xor_zero]

end Mode

end Gcm

/-! The blocks of Galois/counter mode as the residues of polynomials over `ℤ/2` modulo
`X¹²⁸ + X⁷ + X² + X + 1`: the product of two blocks is the product of residues, and GHASH is a
recurrence on residues. -/

namespace Gcm

open Polynomial

/-- The polynomial of a bit string, its leftmost bit the constant term. -/
noncomputable def poly (b : Block) : (ZMod 2)[X] :=
  ∑ j ∈ Finset.range 128, if b.getMsbD j then X ^ j else 0

noncomputable def modulus : (ZMod 2)[X] := X ^ 128 + (X ^ 7 + X ^ 2 + X + 1)

/-! ### Blocks as words over two elements -/

theorem poly_eq (b : Block) : poly b = Gf2Poly.poly b := rfl

theorem poly_zero : poly 0#128 = 0 := Gf2Poly.poly_zero

theorem poly_xor (a b : Block) : poly (a ^^^ b) = poly a + poly b := Gf2Poly.poly_xor a b

/-! ### The modulus -/

theorem poly_R : poly R = X ^ 7 + X ^ 2 + X + 1 := by
  have hbits : (Finset.range 128).filter (fun j => R.getMsbD j) = {0, 1, 2, 7} := by decide
  rw [poly, ← Finset.sum_filter, hbits, Finset.sum_insert (by decide),
    Finset.sum_insert (by decide), Finset.sum_insert (by decide), Finset.sum_singleton, pow_zero,
    pow_one]
  abel

theorem modulus_eq : modulus = X ^ 128 + poly R := by
  rw [poly_R]
  unfold modulus
  with_reducible rfl

theorem modulus_eq_gf2Poly : modulus = Gf2Poly.modulus R := by
  rw [modulus_eq, poly_eq, Gf2Poly.modulus]

theorem monic_modulus : modulus.Monic := modulus_eq_gf2Poly ▸ Gf2Poly.monic_modulus R

/-! ### Products -/

theorem mulx_eq (v : Block) : mulx v = Gf2Poly.mulX R v := rfl

/-- The residues of the blocks: `mulx` is the product with the residue of `X`. -/
theorem mk_mulx (v : Block) :
    AdjoinRoot.mk modulus (poly (mulx v)) =
      AdjoinRoot.mk modulus X * AdjoinRoot.mk modulus (poly v) := by
  rw [modulus_eq_gf2Poly, poly_eq, poly_eq, mulx_eq, Gf2Poly.mk_mulX]

/-- The polynomial of the `n` bits of `x` from `j` on. -/
theorem mk_window (x y : Block) (j n : ℕ) :
    AdjoinRoot.mk modulus (poly (window x y j n)) =
      AdjoinRoot.mk modulus (∑ i ∈ Finset.range n, if x.getMsbD (j + i) then X ^ i else 0) *
        AdjoinRoot.mk modulus (poly y) := by
  induction n generalizing j with
  | zero => rw [window, poly_zero, Finset.sum_range_zero, map_zero, zero_mul]
  | succ n ih =>
    have hshift : (∑ i ∈ Finset.range n, if x.getMsbD (j + (i + 1)) then X ^ (i + 1) else 0) =
        (X : (ZMod 2)[X]) * ∑ i ∈ Finset.range n, if x.getMsbD (j + 1 + i) then X ^ i else 0 := by
      rw [Finset.mul_sum]
      refine Finset.sum_congr rfl fun i _ => ?_
      rw [mul_ite, mul_zero, pow_succ', Nat.add_assoc, Nat.add_comm 1]
    rw [window, poly_xor, map_add, mk_mulx, ih, Finset.sum_range_succ', map_add, hshift, map_mul,
      add_mul, mul_assoc, add_comm, show j + 0 = j from rfl, pow_zero]
    split_ifs
    · rw [map_one, one_mul]
    · rw [poly_zero, map_zero, zero_mul]

theorem mk_mul (x y : Block) :
    AdjoinRoot.mk modulus (poly (mul x y)) = AdjoinRoot.mk modulus (poly x * poly y) := by
  rw [mul_eq_window, mk_window, map_mul, poly.eq_def x]
  simp only [Nat.zero_add]

/-- Blocks are the reduced polynomials: reduction undoes nothing. -/
theorem poly_modByMonic (b : Block) : poly b %ₘ modulus = poly b := by
  rw [modulus_eq_gf2Poly, poly_eq, Gf2Poly.poly_modByMonic]

/-- The product of two blocks is the product of their polynomials modulo `modulus`. -/
theorem poly_mul (x y : Block) : poly (mul x y) = (poly x * poly y) %ₘ modulus := by
  rw [← poly_modByMonic (mul x y)]
  exact modByMonic_eq_of_dvd_sub monic_modulus (AdjoinRoot.mk_eq_mk.1 (mk_mul x y))

/-- GHASH on polynomials: add the next block, multiply by the hash subkey, reduce. -/
noncomputable def ghashPoly (h y : (ZMod 2)[X]) (xs : List (ZMod 2)[X]) : (ZMod 2)[X] :=
  xs.foldl (fun y x => ((y + x) * h) %ₘ modulus) y

theorem poly_ghashFrom (h y : Block) (xs : List Block) :
    poly (ghashFrom h y xs) = ghashPoly (poly h) (poly y) (xs.map poly) := by
  rw [ghashFrom, ghashPoly, List.foldl_map]
  induction xs generalizing y with
  | nil => rw [List.foldl_nil, List.foldl_nil]
  | cons x xs ih => rw [List.foldl_cons, ih, List.foldl_cons, poly_mul, poly_xor]

end Gcm
