import Mathlib.Tactic.Ring

/-! Packed vectors bit by bit: a vector given by its bits, and the assignment to one
bit of a vector. -/

namespace Bits

/-- The vector of the bits `f 0, …, f (w - 1)`. -/
def ofBits : (w : ℕ) → (ℕ → Bool) → BitVec w
  | 0, _ => 0#0
  | w + 1, f => BitVec.cons (f w) (ofBits w f)

theorem getLsbD_ofBits {w : ℕ} {f : ℕ → Bool} {i : ℕ} (hi : i < w) :
    (ofBits w f).getLsbD i = f i := by
  induction w with
  | zero => omega
  | succ w ih =>
    rw [ofBits, BitVec.getLsbD_cons]
    split_ifs with h
    · rw [h]
    · exact ih (by omega)

variable {w : ℕ}

/-- `x[i] = b`. -/
def setBit (x : BitVec w) (i : ℕ) (b : Bool) : BitVec w :=
  if b then x ||| BitVec.twoPow w i else x &&& ~~~BitVec.twoPow w i

theorem getLsbD_setBit (x : BitVec w) (i : ℕ) (b : Bool) (j : ℕ) :
    (setBit x i b).getLsbD j = if j = i ∧ i < w then b else x.getLsbD j := by
  unfold setBit
  by_cases hj : j = i
  · subst hj
    by_cases hw : j < w
    · cases b <;> simp [hw]
    · have hx := BitVec.getLsbD_of_ge x j (by omega)
      cases b <;> simp [hw, hx]
  · have hi : ¬i = j := fun h => hj h.symm
    cases b
    · simp only [Bool.false_eq_true, if_false, BitVec.getLsbD_and, BitVec.getLsbD_not,
        BitVec.getLsbD_twoPow, hi, hj, false_and, decide_false, Bool.and_false, Bool.not_false]
      by_cases hw : j < w
      · simp [hw]
      · rw [BitVec.getLsbD_of_ge x j (by omega)]
        simp
    · simp [BitVec.getLsbD_twoPow, hi, hj]

theorem ne_zero_iff {x : BitVec w} : x ≠ 0#w ↔ ∃ i, x.getLsbD i = true := by
  constructor
  · intro hne
    by_contra hall
    apply hne
    apply BitVec.eq_of_getLsbD_eq
    intro i _
    rw [BitVec.getLsbD_zero]
    simpa using fun hi => hall ⟨i, hi⟩
  · rintro ⟨i, hi⟩ rfl
    simp at hi

theorem xor_and (x y z : BitVec w) : (x ^^^ y) &&& z = (x &&& z) ^^^ (y &&& z) := by
  apply BitVec.eq_of_getLsbD_eq
  intro i hi
  simp only [BitVec.getLsbD_and, BitVec.getLsbD_xor]
  cases x.getLsbD i <;> cases y.getLsbD i <;> cases z.getLsbD i <;> rfl

/-! ### Sums of powers of two -/

/-- Adding a power of two whose bit is clear sets that bit. -/
theorem testBit_add_two_pow {x p : ℕ} (hp : x.testBit p = false) (j : ℕ) :
    (x + 2 ^ p).testBit j = (x.testBit j || decide (j = p)) := by
  have hx : x = 2 ^ p * (x / 2 ^ p) + x % 2 ^ p := (Nat.div_add_mod x (2 ^ p)).symm
  have hadd : x + 2 ^ p = 2 ^ p * (x / 2 ^ p + 1) + x % 2 ^ p := by
    rw [Nat.mul_add, Nat.mul_one]
    omega
  have hlow : x % 2 ^ p < 2 ^ p := Nat.mod_lt _ (Nat.two_pow_pos p)
  have heven : x / 2 ^ p % 2 = 0 := by
    rw [Nat.testBit_eq_decide_div_mod_eq] at hp
    have := of_decide_eq_false hp
    omega
  have hbit : x.testBit j = if j < p then (x % 2 ^ p).testBit j else
      (x / 2 ^ p).testBit (j - p) := by
    conv_lhs => rw [hx]
    rw [Nat.testBit_two_pow_mul_add _ hlow]
  rw [hadd, Nat.testBit_two_pow_mul_add _ hlow, hbit]
  by_cases hj : j < p
  · simp [hj, Nat.ne_of_lt hj]
  · rw [if_neg hj, if_neg hj]
    obtain ⟨l, rfl⟩ := Nat.exists_eq_add_of_le (Nat.le_of_not_lt hj)
    rw [Nat.add_sub_cancel_left]
    cases l with
    | zero =>
      rw [Nat.testBit_zero, Nat.testBit_zero]
      simp
      omega
    | succ l =>
      rw [Nat.testBit_succ, Nat.testBit_succ]
      have hdiv : (x / 2 ^ p + 1) / 2 = x / 2 ^ p / 2 := by omega
      rw [hdiv]
      simp

/-- The bits of a sum of different powers of two. -/
theorem testBit_sum_two_pow {l : List ℕ} (hl : l.Nodup) (j : ℕ) :
    ((l.map (2 ^ ·)).sum).testBit j = decide (j ∈ l) := by
  induction l generalizing j with
  | nil => simp
  | cons a l ih =>
    obtain ⟨ha, hl⟩ := List.nodup_cons.mp hl
    rw [List.map_cons, List.sum_cons, Nat.add_comm, testBit_add_two_pow, ih hl]
    · simp only [List.mem_cons]
      by_cases h : j = a <;> simp [h]
    · rw [ih hl]
      exact decide_eq_false ha

end Bits
