import Mathlib.Algebra.Field.ZMod
import Mathlib.RingTheory.AdjoinRoot

/-! Words as polynomials over `ℤ/2`, the leftmost bit the constant term, and multiplication by
`X` modulo `Xʷ + r`: one shift to the right, and `r` is added when a bit falls off. -/

namespace Gf2Poly

open Polynomial

variable {w : ℕ}

/-- The polynomial of a bit string, its leftmost bit the constant term. -/
noncomputable def poly (b : BitVec w) : (ZMod 2)[X] :=
  ∑ j ∈ Finset.range w, if b.getMsbD j then X ^ j else 0

/-! ### Coefficients -/

theorem coeff_poly (b : BitVec w) (j : ℕ) : (poly b).coeff j = if b.getMsbD j then 1 else 0 := by
  rw [poly, finsetSum_coeff]
  by_cases hj : j < w
  · rw [Finset.sum_eq_single_of_mem j (Finset.mem_range.2 hj) fun i _ hne => ?_]
    · split_ifs
      · rw [coeff_X_pow_self]
      · rw [coeff_zero]
    · split_ifs
      · rw [coeff_X_pow, if_neg hne.symm]
      · rw [coeff_zero]
  · rw [BitVec.getMsbD_of_ge b j (by omega), if_neg Bool.false_ne_true]
    refine Finset.sum_eq_zero fun i hi => ?_
    have hne : j ≠ i := fun h => hj (h.symm ▸ Finset.mem_range.1 hi)
    split_ifs
    · rw [coeff_X_pow, if_neg hne]
    · rw [coeff_zero]

theorem poly_zero : poly (0#w) = 0 := by
  ext j
  rw [coeff_poly, BitVec.getMsbD_zero, if_neg Bool.false_ne_true, coeff_zero]

theorem poly_xor (a b : BitVec w) : poly (a ^^^ b) = poly a + poly b := by
  ext j
  rw [coeff_add, coeff_poly, coeff_poly, coeff_poly, BitVec.getMsbD_xor]
  cases a.getMsbD j <;> cases b.getMsbD j <;> decide

theorem add_self (p : (ZMod 2)[X]) : p + p = 0 := by
  ext j
  rw [coeff_add, coeff_zero, CharTwo.add_self_eq_zero]

theorem degree_poly_lt (b : BitVec w) : (poly b).degree < ((w : ℕ) : WithBot ℕ) := by
  rw [degree_lt_iff_coeff_zero]
  intro j hj
  rw [coeff_poly, BitVec.getMsbD_of_ge b j hj, if_neg Bool.false_ne_true]

/-! ### The modulus -/

/-- `Xʷ + r`. -/
noncomputable def modulus (r : BitVec w) : (ZMod 2)[X] := X ^ w + poly r

theorem monic_modulus (r : BitVec w) : (modulus r).Monic := monic_X_pow_add (degree_poly_lt r)

theorem degree_modulus (r : BitVec w) : (modulus r).degree = ((w : ℕ) : WithBot ℕ) := by
  rw [modulus, degree_add_eq_left_of_degree_lt, degree_X_pow]
  rw [degree_X_pow]
  exact degree_poly_lt r

/-- Words are the reduced polynomials: reduction undoes nothing. -/
theorem poly_modByMonic (r b : BitVec w) : poly b %ₘ modulus r = poly b := by
  rw [modByMonic_eq_self_iff (monic_modulus r), degree_modulus]
  exact degree_poly_lt b

/-! ### Multiplication by the indeterminate -/

theorem poly_ushiftRight_one (v : BitVec w) :
    X * poly v = poly (v >>> 1) + if v.getLsbD 0 then X ^ w else 0 := by
  ext j
  have htop : (if v.getLsbD 0 then X ^ w else 0 : (ZMod 2)[X]).coeff j =
      if j = w ∧ v.getLsbD 0 then 1 else 0 := by
    split_ifs with h1 h2 h2
    · rw [coeff_X_pow, if_pos h2.1]
    · rw [coeff_X_pow, if_neg fun h => h2 ⟨h, h1⟩]
    · exact absurd h2.2 h1
    · rw [coeff_zero]
  rw [coeff_add, coeff_poly, htop, BitVec.getMsbD_ushiftRight]
  cases j with
  | zero =>
    rw [mul_coeff_zero, coeff_X_zero, zero_mul]
    by_cases hw : w = 0
    · subst hw
      simp
    · simp [Ne.symm hw]
  | succ i =>
    rw [coeff_X_mul, coeff_poly]
    rcases Nat.lt_trichotomy (i + 1) w with hi | hi | hi
    · simp [hi, Nat.ne_of_lt hi]
    · have hlast : v.getMsbD i = v.getLsbD 0 := by
        rw [BitVec.getMsbD_eq_getLsbD, decide_eq_true (by omega), Bool.true_and,
          show w - 1 - i = 0 by omega]
      simp [hi, hlast]
    · simp [BitVec.getMsbD_of_ge v i (by omega), show ¬i + 1 < w by omega,
        show ¬i + 1 = w by omega]

/-- The product with `X` modulo `Xʷ + r`. -/
def mulX (r v : BitVec w) : BitVec w := (v >>> 1) ^^^ (if v.getLsbD 0 then r else 0#w)

theorem X_mul_poly (r v : BitVec w) :
    X * poly v = poly (mulX r v) + if v.getLsbD 0 then modulus r else 0 := by
  rw [poly_ushiftRight_one, mulX, poly_xor, modulus, add_assoc]
  split_ifs
  · rw [add_comm (X ^ w), ← add_assoc (poly r), add_self, zero_add]
  · rw [poly_zero, zero_add]

/-- The residues of words: `mulX` is the product with the residue of `X`. -/
theorem mk_mulX (r v : BitVec w) : AdjoinRoot.mk (modulus r) (poly (mulX r v)) =
    AdjoinRoot.mk (modulus r) X * AdjoinRoot.mk (modulus r) (poly v) := by
  rw [← map_mul, X_mul_poly r v, map_add]
  split_ifs
  · rw [AdjoinRoot.mk_self, add_zero]
  · rw [map_zero, add_zero]

theorem mk_iterate_mulX (r v : BitVec w) (n : ℕ) :
    AdjoinRoot.mk (modulus r) (poly ((mulX r)^[n] v)) =
      AdjoinRoot.mk (modulus r) X ^ n * AdjoinRoot.mk (modulus r) (poly v) := by
  induction n with
  | zero => rw [Function.iterate_zero_apply, pow_zero, one_mul]
  | succ n ih => rw [Function.iterate_succ_apply', mk_mulX, ih, pow_succ', mul_assoc]

/-- A word with the residue of a polynomial is its remainder. -/
theorem poly_eq_modByMonic {r b : BitVec w} {p : (ZMod 2)[X]}
    (h : AdjoinRoot.mk (modulus r) (poly b) = AdjoinRoot.mk (modulus r) p) :
    poly b = p %ₘ modulus r := by
  rw [← poly_modByMonic r b]
  exact modByMonic_eq_of_dvd_sub (monic_modulus r) (AdjoinRoot.mk_eq_mk.1 h)

/-! ### Words of different widths -/

/-- Zeros on the left shift the polynomial. -/
theorem poly_setWidth {m : ℕ} (h : m ≤ w) (b : BitVec m) :
    poly (b.setWidth w) = X ^ (w - m) * poly b := by
  ext j
  rw [coeff_X_pow_mul', coeff_poly, coeff_poly, BitVec.getMsbD_setWidth]
  by_cases hj : w - m ≤ j
  · rw [if_pos hj, decide_eq_true hj, Bool.true_and, show j + m - w = j - (w - m) by omega]
  · rw [if_neg hj, decide_eq_false hj, Bool.false_and, if_neg Bool.false_ne_true]

end Gf2Poly
