import Mathlib.Data.Nat.Digits.Lemmas

/-! Multi-precision naturals as little-endian lists of `w`-bit limbs: their
value, the digit steps of subtraction and of multiply-accumulate, doubling and
comparison. Everything here holds for every limb width and every length. -/

namespace Limbs

variable {w : ℕ}

/-- The natural number a little-endian list of limbs stands for. -/
def value (as : List (BitVec w)) : ℕ := Nat.ofDigits (2 ^ w) (as.map BitVec.toNat)

@[simp] theorem value_nil : value ([] : List (BitVec w)) = 0 := rfl

@[simp] theorem value_cons (a : BitVec w) (as : List (BitVec w)) :
    value (a :: as) = a.toNat + 2 ^ w * value as := by
  simp [value, Nat.ofDigits_cons]

theorem value_inj {as bs : List (BitVec w)} (hlen : as.length = bs.length)
    (h : value as = value bs) : as = bs := by
  induction as generalizing bs with
  | nil => exact (List.eq_nil_of_length_eq_zero hlen.symm).symm
  | cons a as ih =>
    obtain _ | ⟨b, bs⟩ := bs
    · simp at hlen
    rw [value_cons, value_cons] at h
    have hab : a = b := by
      have hmod := congrArg (· % 2 ^ w) h
      simp only [Nat.add_mul_mod_self_left, Nat.mod_eq_of_lt a.isLt, Nat.mod_eq_of_lt b.isLt]
        at hmod
      exact BitVec.eq_of_toNat_eq hmod
    subst hab
    rw [ih (by simpa using hlen)
      (Nat.eq_of_mul_eq_mul_left (Nat.two_pow_pos w) (Nat.add_left_cancel h))]

theorem value_append (as bs : List (BitVec w)) :
    value (as ++ bs) = value as + (2 ^ w) ^ as.length * value bs := by
  simp [value, Nat.ofDigits_append]

theorem value_concat (as : List (BitVec w)) (b : BitVec w) :
    value (as ++ [b]) = value as + (2 ^ w) ^ as.length * b.toNat := by
  simp [value_append]

@[simp] theorem value_replicate_zero (k : ℕ) : value (List.replicate k 0#w) = 0 := by
  induction k with
  | zero => rfl
  | succ k ih => simp [List.replicate_succ, ih]

theorem value_lt (as : List (BitVec w)) : value as < (2 ^ w) ^ as.length := by
  induction as with
  | nil => simp
  | cons a as ih =>
    have ha := a.isLt
    rw [value_cons, List.length_cons, pow_succ']
    calc a.toNat + 2 ^ w * value as < 2 ^ w * (value as + 1) := by rw [Nat.mul_succ]; omega
      _ ≤ 2 ^ w * (2 ^ w) ^ as.length := Nat.mul_le_mul_left _ ih

/-! ### Single limb steps -/

/-- One digit of a subtraction with borrow: each of the two subtractions wraps
at most once, and never both when the incoming borrow is a bit. -/
theorem sub_step (a c n : BitVec w) (hc : c.toNat ≤ 1) :
    ((a - c) - n).toNat + n.toNat + c.toNat =
      a.toNat + 2 ^ w * ((if a < c then 1 else 0) + (if a - c < n then 1 else 0)) := by
  have ha := a.isLt
  have hn := n.isLt
  have hfirst : (a - c).toNat + c.toNat = a.toNat + 2 ^ w * (if a < c then 1 else 0) := by
    split_ifs with h
    · rw [BitVec.toNat_sub_of_lt h]
      have := BitVec.lt_def.1 h
      omega
    · rw [BitVec.toNat_sub_of_le (BitVec.not_lt.1 h)]
      have := BitVec.le_def.1 (BitVec.not_lt.1 h)
      omega
  have hsecond : ((a - c) - n).toNat + n.toNat =
      (a - c).toNat + 2 ^ w * (if a - c < n then 1 else 0) := by
    split_ifs with h
    · rw [BitVec.toNat_sub_of_lt h]
      have := BitVec.lt_def.1 h
      omega
    · rw [BitVec.toNat_sub_of_le (BitVec.not_lt.1 h)]
      have := BitVec.le_def.1 (BitVec.not_lt.1 h)
      omega
  rw [Nat.mul_add]
  omega

/-- The two borrows of `sub_step` are never both set. -/
theorem sub_step_borrow_le (a c n : BitVec w) (hc : c.toNat ≤ 1) :
    (if a < c then 1 else 0) + (if a - c < n then 1 else 0) ≤ 1 := by
  by_cases h : a < c
  · have ha : a.toNat = 0 := by have := BitVec.lt_def.1 h; omega
    have hc' : c.toNat = 1 := by have := BitVec.lt_def.1 h; omega
    have hlast : ¬ a - c < n := by
      rw [BitVec.lt_def, BitVec.toNat_sub_of_lt h]
      have := n.isLt
      omega
    simp [h, hlast]
  · simp only [h, if_false, zero_add]
    split_ifs <;> omega

/-- A product plus two limbs fits a double limb: `(2 ^ w - 1) ^ 2 + 2 * (2 ^ w - 1)`
is the largest double limb. -/
theorem mulAdd_lt {a b c d : ℕ} (ha : a < 2 ^ w) (hb : b < 2 ^ w) (hc : c < 2 ^ w)
    (hd : d < 2 ^ w) : a * b + c + d < 2 ^ (2 * w) := by
  obtain ⟨m, hm⟩ : ∃ m, 2 ^ w = m + 1 := ⟨2 ^ w - 1, by have := Nat.two_pow_pos w; omega⟩
  rw [two_mul, pow_add, hm]
  have hab : a * b ≤ m * m := Nat.mul_le_mul (by omega) (by omega)
  nlinarith

/-! ### Doubling -/

/-- One digit of a left shift by a bit: the top bit of the digit `p` below
comes in at the bottom. -/
theorem shift_step (hw : 0 < w) (a p : BitVec w) :
    (a <<< 1 ||| p >>> (w - 1)).toNat + 2 ^ w * (a >>> (w - 1)).toNat =
      2 * a.toNat + (p >>> (w - 1)).toNat := by
  obtain ⟨v, rfl⟩ : ∃ v, w = v + 1 := ⟨w - 1, by omega⟩
  have ha := a.isLt
  have hp := p.isLt
  have hbit : p.toNat / 2 ^ v < 2 := Nat.div_lt_of_lt_mul (by rw [pow_succ] at hp; omega)
  simp only [Nat.add_sub_cancel, BitVec.toNat_or, BitVec.toNat_shiftLeft,
    BitVec.toNat_ushiftRight, Nat.shiftLeft_eq, Nat.shiftRight_eq_div_pow, pow_one]
  have hlow : a.toNat * 2 % 2 ^ (v + 1) = 2 ^ 1 * (a.toNat % 2 ^ v) := by
    rw [pow_succ, Nat.mul_mod_mul_right, pow_one, Nat.mul_comm]
  rw [hlow, ← Nat.two_pow_add_eq_or_of_lt (by simpa using hbit)]
  have hdiv := Nat.mod_add_div a.toNat (2 ^ v)
  rw [pow_one, pow_succ]
  linarith

/-! ### Comparison -/

/-- Comparing most significant digits first decides by the first digit that
differs. -/
theorem value_reverse_le_iff (a n : BitVec w) (as ns : List (BitVec w))
    (hlen : as.length = ns.length) (hne : a ≠ n) :
    value (n :: ns).reverse ≤ value (a :: as).reverse ↔ n < a := by
  have has : value as.reverse < (2 ^ w) ^ as.length := by simpa using value_lt as.reverse
  have hns : value ns.reverse < (2 ^ w) ^ as.length := by simpa [hlen] using value_lt ns.reverse
  simp only [List.reverse_cons, value_concat, List.length_reverse, ← hlen, BitVec.lt_def]
  have hne' : a.toNat ≠ n.toNat := fun h => hne (BitVec.eq_of_toNat_eq h)
  constructor
  · intro h
    by_contra hle
    have : a.toNat + 1 ≤ n.toNat := by omega
    have := Nat.mul_le_mul_left ((2 ^ w) ^ as.length) this
    rw [Nat.mul_succ] at this
    omega
  · intro h
    have := Nat.mul_le_mul_left ((2 ^ w) ^ as.length) (Nat.succ_le_of_lt h)
    rw [Nat.mul_succ] at this
    omega

end Limbs

/-! Montgomery multiplication over the naturals, digit by digit, with the lazy
reduction that only keeps the running value below the radix power `r`, and the
calculus of Montgomery forms. The multiplicand is any number below `r`, the
multiplier a list of base `b` digits. -/

namespace Montgomery

/-- One digit `x` of the multiplier: accumulate, make the sum divisible by `b`
with a multiple of the modulus, divide, and take the modulus off once if the
quotient reached `r`. -/
def step (b r n n' y a x : ℕ) : ℕ :=
  let u := (a + x * y) * n' % b
  let t := (a + x * y + u * n) / b
  if r ≤ t then t - n else t

/-- The fold of `step` over the digits of the multiplier, least significant first. -/
def mul (b r n n' y : ℕ) (xs : List ℕ) (a : ℕ) : ℕ := xs.foldl (step b r n n' y) a

variable {b r n n' : ℕ}

/-- The chosen multiple of the modulus clears the lowest digit. -/
theorem dvd_accumulate (hinv : (n * n' + 1) % b = 0) (s : ℕ) :
    b ∣ s + s * n' % b * n := by
  have h : s + s * n' % b * n ≡ s * (n * n' + 1) [MOD b] := by
    calc s + s * n' % b * n ≡ s + s * n' * n [MOD b] :=
          Nat.ModEq.add_left _ ((Nat.mod_modEq _ _).mul_right _)
      _ = s * (n * n' + 1) := by ring
  have h0 : s * (n * n' + 1) ≡ 0 [MOD b] := by
    simpa using Nat.ModEq.mul_left s (show n * n' + 1 ≡ 0 [MOD b] from hinv)
  exact (Nat.modEq_zero_iff_dvd).1 (h.trans h0)

/-- Before the conditional subtraction the quotient is below `r + n`. -/
theorem quotient_lt {y a x u : ℕ} (ha : a < r) (hy : y < r) (hx : x < b) (hu : u < b) :
    (a + x * y + u * n) / b < r + n := by
  obtain ⟨c, rfl⟩ : ∃ c, b = c + 1 := ⟨b - 1, by omega⟩
  rw [Nat.div_lt_iff_lt_mul (Nat.succ_pos c)]
  have hxy : x * y ≤ c * (r - 1) := Nat.mul_le_mul (by omega) (by omega)
  have hun : u * n ≤ c * n := Nat.mul_le_mul_right n (by omega)
  obtain ⟨q, rfl⟩ : ∃ q, r = q + 1 := ⟨r - 1, by omega⟩
  simp only [Nat.add_sub_cancel] at hxy
  nlinarith

theorem step_modEq (hinv : (n * n' + 1) % b = 0) (hn : n ≤ r) (y a x : ℕ) :
    b * step b r n n' y a x ≡ a + x * y [MOD n] := by
  have hdiv : b * ((a + x * y + (a + x * y) * n' % b * n) / b) =
      a + x * y + (a + x * y) * n' % b * n := Nat.mul_div_cancel' (dvd_accumulate hinv _)
  have hmod : a + x * y + (a + x * y) * n' % b * n ≡ a + x * y [MOD n] := by
    simp [Nat.ModEq]
  simp only [step]
  split_ifs with h
  · rw [Nat.mul_sub, hdiv]
    refine Nat.ModEq.trans ?_ hmod
    have hle : b * n ≤ a + x * y + (a + x * y) * n' % b * n := by
      rw [← hdiv]
      exact Nat.mul_le_mul_left b (hn.trans h)
    exact ((Nat.modEq_iff_dvd' (Nat.sub_le _ _)).2 (by
      rw [Nat.sub_sub_self hle]; exact Dvd.intro_left b rfl))
  · rw [hdiv]
    exact hmod

/-- After `k` digits the value times `b ^ k` is the accumulated product. -/
theorem mul_modEq (hinv : (n * n' + 1) % b = 0) (hn : n ≤ r) (y : ℕ) (xs : List ℕ) (a : ℕ) :
    b ^ xs.length * mul b r n n' y xs a ≡ a + Nat.ofDigits b xs * y [MOD n] := by
  induction xs generalizing a with
  | nil => simp [mul, Nat.ModEq]
  | cons x xs ih =>
    calc b ^ (x :: xs).length * mul b r n n' y (x :: xs) a
        = b * (b ^ xs.length * mul b r n n' y xs (step b r n n' y a x)) := by
          simp only [mul, List.length_cons, List.foldl_cons, pow_succ]
          ring
      _ ≡ b * (step b r n n' y a x + Nat.ofDigits b xs * y) [MOD n] := (ih _).mul_left b
      _ = b * step b r n n' y a x + b * (Nat.ofDigits b xs * y) := Nat.mul_add ..
      _ ≡ a + x * y + b * (Nat.ofDigits b xs * y) [MOD n] :=
          (step_modEq hinv hn y a x).add_right _
      _ = a + Nat.ofDigits b (x :: xs) * y := by
          rw [Nat.ofDigits_cons]
          ring

/-! ### Montgomery forms -/

/-- `a` stands for `v` in Montgomery form. -/
def Form (n r v a : ℕ) : Prop := a ≡ v * r [MOD n]

theorem Form.mul (hco : Nat.Coprime n r) {u v a c d : ℕ} (ha : Form n r u a) (hc : Form n r v c)
    (hd : r * d ≡ a * c [MOD n]) : Form n r (u * v) d := by
  have h : r * d ≡ r * (u * v * r) [MOD n] :=
    calc r * d ≡ a * c [MOD n] := hd
      _ ≡ (u * r) * (v * r) [MOD n] := Nat.ModEq.mul ha hc
      _ = r * (u * v * r) := by ring
  exact Nat.ModEq.cancel_left_of_coprime hco h

/-- Multiplying a form by a plain number leaves Montgomery form. -/
theorem Form.mul_out (hco : Nat.Coprime n r) {u s a d : ℕ} (ha : Form n r u a)
    (hd : r * d ≡ a * s [MOD n]) : d ≡ u * s [MOD n] := by
  have h : r * d ≡ r * (u * s) [MOD n] :=
    calc r * d ≡ a * s [MOD n] := hd
      _ ≡ (u * r) * s [MOD n] := ha.mul_right s
      _ = r * (u * s) := by ring
  exact Nat.ModEq.cancel_left_of_coprime hco h

/-- The form of `r` is what takes plain numbers into Montgomery form. -/
theorem Form.mul_in (hco : Nat.Coprime n r) {s rr d : ℕ} (hrr : Form n r r rr)
    (hd : r * d ≡ s * rr [MOD n]) : Form n r s d := by
  refine hrr.mul_out hco (s := s) (d := d) (by rwa [Nat.mul_comm rr s]) |>.trans ?_
  rw [Nat.mul_comm]

end Montgomery
