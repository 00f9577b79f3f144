import SecureBoot.Lib.Parity

/-! Counting the set bits of a word and finding the first one. The tricks that do so in a
logarithmic number of steps agree with the bit-by-bit definitions: sums of neighbouring fields,
a word folded onto its own half, and binary search. -/

namespace BitCount

variable {f : ℕ → Bool} {n w : ℕ}

/-- The number of set bits among the first `n`. -/
def count (f : ℕ → Bool) (n : ℕ) : ℕ := (List.range n).countP f

/-- The number of clear bits before the first set one, `n` if all are clear. -/
def firstSet (f : ℕ → Bool) (n : ℕ) : ℕ := ((List.range n).takeWhile fun i => !f i).length

theorem count_succ (f : ℕ → Bool) (n : ℕ) :
    count f (n + 1) = (f 0).toNat + count (fun i => f (i + 1)) n := by
  rw [count, List.range_succ_eq_map, List.countP_cons, List.countP_map, Nat.add_comm]
  cases f 0 <;> rfl

theorem firstSet_succ (f : ℕ → Bool) (n : ℕ) :
    firstSet f (n + 1) = if f 0 then 0 else firstSet (fun i => f (i + 1)) n + 1 := by
  rw [firstSet, List.range_succ_eq_map, List.takeWhile_cons]
  cases f 0 with
  | false => simp [firstSet, List.takeWhile_map, Function.comp_def]
  | true => rfl

theorem firstSet_eq {r : ℕ} (hr : r < n) (hset : f r = true) (hclear : ∀ i < r, f i = false) :
    firstSet f n = r := by
  induction n generalizing f r with
  | zero => omega
  | succ n ih =>
    rw [firstSet_succ]
    cases r with
    | zero => rw [if_pos hset]
    | succ r =>
      have hrest := ih (f := fun i => f (i + 1)) (r := r) (by omega) hset fun i hi =>
        hclear (i + 1) (by omega)
      rw [if_neg (by simp [hclear 0 (by omega)]), hrest]

/-! ### Sums of neighbouring fields -/

/-- The sum of the first `n` digits of `x` in base `2 ^ w`. -/
def fieldSum (w : ℕ) : ℕ → ℕ → ℕ
  | 0, _ => 0
  | n + 1, x => x % 2 ^ w + fieldSum w n (x / 2 ^ w)

/-- `n` fields of `w` ones, each followed by `w` zeros. -/
def evenMask (w : ℕ) : ℕ → ℕ
  | 0 => 0
  | n + 1 => 2 ^ w - 1 + 2 ^ (2 * w) * evenMask w n

/-- The even fields of `w` bits plus the odd ones, as fields of `2 * w` bits. -/
def pairSum (w n x : ℕ) : ℕ := (x &&& evenMask w n) + ((x >>> w) &&& evenMask w n)

theorem and_evenMask_succ (w n x : ℕ) :
    x &&& evenMask w (n + 1) = x % 2 ^ w + 2 ^ (2 * w) * (x / 2 ^ (2 * w) &&& evenMask w n) := by
  have hle : 2 ^ w ≤ 2 ^ (2 * w) := Nat.pow_le_pow_right (by decide) (by omega)
  have hpos := Nat.two_pow_pos w
  have hmod : x % 2 ^ w < 2 ^ (2 * w) := (Nat.mod_lt _ hpos).trans_le hle
  apply Nat.eq_of_testBit_eq
  intro i
  rw [evenMask, Nat.add_comm, Nat.testBit_and, Nat.testBit_two_pow_mul_add _ (by omega),
    Nat.add_comm (x % 2 ^ w), Nat.testBit_two_pow_mul_add _ hmod, Nat.testBit_and,
    Nat.testBit_two_pow_sub_one, Nat.testBit_mod_two_pow, Nat.testBit_div_two_pow]
  split_ifs with hi
  · rw [Bool.and_comm]
  · rw [Nat.sub_add_cancel (by omega)]

theorem pairSum_succ (w n x : ℕ) :
    pairSum w (n + 1) x = (x % 2 ^ w + x / 2 ^ w % 2 ^ w) +
      2 ^ (2 * w) * pairSum w n (x / 2 ^ (2 * w)) := by
  have hshift : x >>> w / 2 ^ (2 * w) = (x / 2 ^ (2 * w)) >>> w := by
    rw [Nat.shiftRight_eq_div_pow, Nat.shiftRight_eq_div_pow, Nat.div_div_eq_div_mul,
      Nat.div_div_eq_div_mul, Nat.mul_comm]
  rw [pairSum, pairSum, and_evenMask_succ, and_evenMask_succ, hshift, Nat.mul_add,
    Nat.shiftRight_eq_div_pow]
  omega

/-- Adding neighbouring fields leaves the sum of all fields. -/
theorem fieldSum_pairSum (hw : 0 < w) (n x : ℕ) :
    fieldSum (2 * w) n (pairSum w n x) = fieldSum w (2 * n) x := by
  induction n generalizing x with
  | zero => rfl
  | succ n ih =>
    have htwo : 2 ≤ 2 ^ w := Nat.le_self_pow hw.ne' 2
    have hsq : 2 ^ (2 * w) = 2 ^ w * 2 ^ w := by rw [Nat.two_mul, pow_add]
    have hlt : x % 2 ^ w + x / 2 ^ w % 2 ^ w < 2 ^ (2 * w) := by
      have h₀ := Nat.mod_lt x (Nat.two_pow_pos w)
      have h₁ := Nat.mod_lt (x / 2 ^ w) (Nat.two_pow_pos w)
      have := Nat.mul_le_mul_right (2 ^ w) htwo
      omega
    rw [pairSum_succ, fieldSum, Nat.add_mul_mod_self_left, Nat.mod_eq_of_lt hlt,
      Nat.add_mul_div_left _ _ (Nat.two_pow_pos _), Nat.div_eq_of_lt hlt, Nat.zero_add, ih,
      Nat.mul_succ, fieldSum, fieldSum, hsq, ← Nat.div_div_eq_div_mul, Nat.add_assoc]

theorem fieldSum_one_eq_count (n x : ℕ) : fieldSum 1 n x = count x.testBit n := by
  induction n generalizing x with
  | zero => rfl
  | succ n ih =>
    rw [fieldSum, ih, count_succ, pow_one, Nat.testBit_zero]
    congr 1
    · rcases Nat.mod_two_eq_zero_or_one x with h | h <;> rw [h] <;> rfl
    · exact congrArg (count · n) (funext fun i => (Nat.testBit_succ x i).symm)

theorem fieldSum_single {x : ℕ} (h : x < 2 ^ w) : fieldSum w 1 x = x := by
  rw [fieldSum, fieldSum, Nat.mod_eq_of_lt h, Nat.add_zero]

/-! ### Folding a word -/

theorem parity_add (f : ℕ → Bool) (m n : ℕ) :
    Parity.parity f (m + n) = (Parity.parity f m ^^ Parity.parity (fun i => f (m + i)) n) := by
  induction n with
  | zero => rw [Nat.add_zero, Parity.parity.eq_1, Bool.xor_false]
  | succ n ih => rw [← Nat.add_assoc, Parity.parity, ih, Parity.parity, Bool.xor_assoc]

/-- The parity of a word is that of its lower half after the upper half is xored onto it. -/
theorem parity_fold (f : ℕ → Bool) (n : ℕ) :
    Parity.parity f (2 * n) = Parity.parity (fun i => f i ^^ f (i + n)) n := by
  rw [Nat.two_mul, parity_add, Parity.parity_xor]
  congr 2
  exact funext fun i => by rw [Nat.add_comm]

/-! ### Binary search for the first set bit -/

/-- One probe: a field of `i` clear bits is skipped. -/
def probe (f : ℕ → Bool) (c i : ℕ) : ℕ := if ∀ j < i, f (c + j) = false then c + i else c

/-- Nothing is set before `c`, and something within `n` bits from it. -/
structure Within (f : ℕ → Bool) (n c : ℕ) : Prop where
  clear : ∀ i < c, f i = false
  exists_set : ∃ j < n, f (c + j) = true

theorem Within.probe {c : ℕ} (h : Within f (2 * n) c) : Within f n (probe f c n) := by
  unfold BitCount.probe
  obtain ⟨j, hj, hset⟩ := h.exists_set
  split_ifs with hclear
  · refine ⟨fun i hi => ?_, j - n, ?_, ?_⟩
    · by_cases hlt : i < c
      · exact h.clear i hlt
      · have := hclear (i - c) (by omega)
        rwa [Nat.add_sub_cancel' (by omega)] at this
    · omega
    · have hge : n ≤ j := by
        by_contra hlt
        rw [hclear j (by omega)] at hset
        exact Bool.false_ne_true hset
      rwa [Nat.add_assoc, Nat.add_sub_cancel' hge]
  · push Not at hclear
    obtain ⟨k, hk, hne⟩ := hclear
    exact ⟨h.clear, k, hk, by simpa using hne⟩

theorem Within.firstSet_eq {c m : ℕ} (h : Within f 1 c) (hset : ∃ i < m, f i = true) :
    firstSet f m = c := by
  obtain ⟨i, hi, hi'⟩ := hset
  obtain ⟨j, hj, hj'⟩ := h.exists_set
  obtain rfl : j = 0 := by omega
  have hle : c ≤ i := by
    by_contra hlt
    rw [h.clear i (by omega)] at hi'
    exact Bool.false_ne_true hi'
  exact BitCount.firstSet_eq (by omega) hj' h.clear

end BitCount
