import Mathlib.Data.Finset.Card
import SecureBoot.Lib.Bits

/-! Parity checks over bit vectors. A word is checked by reduction ors of its masked
bits; the vector of all checks, its syndrome, is linear in the word, so that it
depends on the error alone. A code whose columns are told apart, with a linear
functional that is one on every column, corrects one error and detects two. -/

namespace Parity

open Bits

/-- The xor of `f 0, …, f (n - 1)`. -/
def parity (f : ℕ → Bool) : ℕ → Bool
  | 0 => false
  | n + 1 => parity f n ^^ f n

variable {f g : ℕ → Bool} {n : ℕ}

theorem parity_congr (h : ∀ i < n, f i = g i) : parity f n = parity g n := by
  induction n with
  | zero => rfl
  | succ n ih => rw [parity, parity, ih fun i hi => h i (by omega), h n (by omega)]

@[simp] theorem parity_false (n : ℕ) : parity (fun _ => false) n = false := by
  induction n with
  | zero => rfl
  | succ n ih => rw [parity, ih, Bool.xor_false]

theorem parity_xor (f g : ℕ → Bool) (n : ℕ) :
    parity (fun i => f i ^^ g i) n = (parity f n ^^ parity g n) := by
  induction n with
  | zero => rfl
  | succ n ih =>
    simp only [parity, ih]
    cases parity f n <;> cases parity g n <;> cases f n <;> cases g n <;> rfl

/-- Bits that are zero from `n` on do not count. -/
theorem parity_of_le {m : ℕ} (hle : n ≤ m) (hzero : ∀ i, n ≤ i → f i = false) :
    parity f m = parity f n := by
  induction m, hle using Nat.le_induction with
  | base => rfl
  | succ m hle ih => rw [parity, ih, hzero m hle, Bool.xor_false]

theorem parity_single {a : ℕ} (ha : a < n) :
    parity (fun i => decide (i = a) && f i) n = f a := by
  induction n with
  | zero => omega
  | succ n ih =>
    rw [parity]
    by_cases h : a = n
    · subst h
      have hbelow : parity (fun i => decide (i = a) && f i) a = false := by
        rw [parity_congr (g := fun _ => false) fun i hi => by simp [Nat.ne_of_lt hi],
          parity_false]
      simp [hbelow]
    · rw [ih (by omega)]
      simp [Ne.symm h]

/-- The reduction xor `^x`. -/
def xorReduce {w : ℕ} (x : BitVec w) : Bool := parity x.getLsbD w

variable {w : ℕ}

@[simp] theorem xorReduce_zero : xorReduce (0#w) = false := by
  rw [xorReduce, parity_congr (g := fun _ => false) fun i _ => BitVec.getLsbD_zero, parity_false]

theorem xorReduce_xor (x y : BitVec w) : xorReduce (x ^^^ y) = (xorReduce x ^^ xorReduce y) := by
  unfold xorReduce
  rw [← parity_xor]
  exact parity_congr fun i _ => BitVec.getLsbD_xor

theorem xorReduce_twoPow_and (x : BitVec w) {i : ℕ} (hi : i < w) :
    xorReduce (BitVec.twoPow w i &&& x) = x.getLsbD i := by
  have hbit : (BitVec.twoPow w i &&& x).getLsbD = fun l => decide (l = i) && x.getLsbD l := by
    funext l
    simp [BitVec.getLsbD_twoPow, hi, eq_comm]
  rw [xorReduce, hbit, parity_single hi]

theorem xorReduce_and_congr {x y r : BitVec w}
    (hxy : ∀ i < w, r.getLsbD i = true → x.getLsbD i = y.getLsbD i) :
    xorReduce (x &&& r) = xorReduce (y &&& r) := by
  apply parity_congr
  intro i hi
  rw [BitVec.getLsbD_and, BitVec.getLsbD_and]
  cases hr : r.getLsbD i with
  | false => simp
  | true => rw [hxy i hi hr]

/-! ### Errors -/

/-- The number of ones of an error pattern. -/
def weight (e : BitVec w) : ℕ := ((Finset.range w).filter fun i => e.getLsbD i = true).card

theorem weight_zero : weight (0#w) = 0 := by
  simp [weight]

theorem weight_twoPow {i : ℕ} (hi : i < w) : weight (BitVec.twoPow w i) = 1 := by
  rw [weight, Finset.card_eq_one]
  refine ⟨i, ?_⟩
  ext j
  simp only [Finset.mem_filter, Finset.mem_range, BitVec.getLsbD_twoPow, Finset.mem_singleton,
    Bool.and_eq_true, decide_eq_true_eq]
  omega

theorem eq_of_bits {e e' : BitVec w}
    (h : ∀ i, i ∈ (Finset.range w).filter (fun i => e.getLsbD i = true) ↔ i < w ∧ e'.getLsbD i) :
    e = e' := by
  apply BitVec.eq_of_getLsbD_eq
  intro i hi
  have := h i
  simp only [Finset.mem_filter, Finset.mem_range, hi, true_and] at this
  exact Bool.eq_iff_iff.mpr this

/-- An error of weight at most two is no error, one bit, or two different bits. -/
theorem cases_of_weight_le_two {e : BitVec w} (he : weight e ≤ 2) :
    e = 0#w ∨ (∃ i < w, e = BitVec.twoPow w i) ∨
      ∃ i < w, ∃ j < w, i ≠ j ∧ e = BitVec.twoPow w i ^^^ BitVec.twoPow w j := by
  have hlt : ∀ i ∈ (Finset.range w).filter (fun i => e.getLsbD i = true), i < w := fun i hi =>
    Finset.mem_range.mp (Finset.mem_of_mem_filter i hi)
  obtain h | h | h : weight e = 0 ∨ weight e = 1 ∨ weight e = 2 := by omega
  · left
    have hempty := Finset.card_eq_zero.mp h
    apply eq_of_bits
    intro i
    rw [hempty]
    simp
  · right; left
    obtain ⟨i, hi⟩ := Finset.card_eq_one.mp h
    have hiw : i < w := hlt i (by rw [hi]; exact Finset.mem_singleton_self i)
    refine ⟨i, hiw, eq_of_bits fun j => ?_⟩
    rw [hi, Finset.mem_singleton, BitVec.getLsbD_twoPow]
    simp only [Bool.and_eq_true, decide_eq_true_eq]
    omega
  · right; right
    obtain ⟨i, j, hne, hij⟩ := Finset.card_eq_two.mp h
    have hiw : i < w := hlt i (by rw [hij]; simp)
    have hjw : j < w := hlt j (by rw [hij]; simp)
    refine ⟨i, hiw, j, hjw, hne, eq_of_bits fun l => ?_⟩
    rw [hij, Finset.mem_insert, Finset.mem_singleton, BitVec.getLsbD_xor, BitVec.getLsbD_twoPow,
      BitVec.getLsbD_twoPow]
    simp only [hiw, hjw, decide_true, Bool.true_and]
    by_cases hl : i = l
    · subst hl
      simp [hne.symm, hiw]
    · by_cases hl' : j = l
      · subst hl'
        simp [hl, hjw]
      · simp [hl, hl', Ne.symm hl, Ne.symm hl']

theorem weight_twoPow_xor_twoPow {i j : ℕ} (hi : i < w) (hj : j < w) (hne : i ≠ j) :
    weight (BitVec.twoPow w i ^^^ BitVec.twoPow w j) = 2 := by
  rw [weight, Finset.card_eq_two]
  refine ⟨i, j, hne, ?_⟩
  ext l
  simp only [Finset.mem_filter, Finset.mem_range, BitVec.getLsbD_xor, BitVec.getLsbD_twoPow, hi, hj,
    decide_true, Bool.true_and, Finset.mem_insert, Finset.mem_singleton]
  by_cases hl : i = l
  · subst hl
    simp [hne.symm, hi]
  · by_cases hl' : j = l
    · subst hl'
      simp [hl, hj]
    · simp [hl, hl', Ne.symm hl, Ne.symm hl']

/-! ### Syndromes -/

/-- The checks of a word `w`: bit `j` is the parity of the bits that row `j` selects. -/
def syndrome {n m : ℕ} (row : ℕ → BitVec n) (x : BitVec n) : BitVec m :=
  ofBits m fun j => xorReduce (x &&& row j)

variable {n m : ℕ} {row : ℕ → BitVec n}

theorem getLsbD_syndrome (x : BitVec n) {j : ℕ} (hj : j < m) :
    (syndrome (m := m) row x).getLsbD j = xorReduce (x &&& row j) := by
  rw [syndrome, getLsbD_ofBits hj]

theorem syndrome_xor (x y : BitVec n) :
    syndrome (m := m) row (x ^^^ y) = syndrome row x ^^^ syndrome row y := by
  apply BitVec.eq_of_getLsbD_eq
  intro j hj
  rw [BitVec.getLsbD_xor, getLsbD_syndrome _ hj, getLsbD_syndrome _ hj, getLsbD_syndrome _ hj,
    ← xorReduce_xor, xor_and]

theorem syndrome_zero : syndrome (m := m) row (0#n) = 0#m := by
  apply BitVec.eq_of_getLsbD_eq
  intro j hj
  rw [getLsbD_syndrome _ hj, BitVec.zero_and, xorReduce_zero, BitVec.getLsbD_zero]

/-- Column `i` of the check matrix. -/
def column {n m : ℕ} (row : ℕ → BitVec n) (i : ℕ) : BitVec m :=
  ofBits m fun j => (row j).getLsbD i

theorem getLsbD_column {i j : ℕ} (hj : j < m) :
    (column (m := m) row i).getLsbD j = (row j).getLsbD i := by
  rw [column, getLsbD_ofBits hj]

theorem syndrome_twoPow {i : ℕ} (hi : i < n) :
    syndrome (m := m) row (BitVec.twoPow n i) = column row i := by
  apply BitVec.eq_of_getLsbD_eq
  intro j hj
  rw [getLsbD_syndrome _ hj, getLsbD_column hj, xorReduce_twoPow_and _ hi]

/-- A check matrix that tells single errors apart, with a linear functional `odd` that
is one on every column. -/
structure Separates (row : ℕ → BitVec n) (odd : BitVec m → Bool) : Prop where
  injective : ∀ i < n, ∀ j < n, column (m := m) row i = column row j → i = j
  linear : ∀ x y, odd (x ^^^ y) = (odd x ^^ odd y)
  column : ∀ i < n, odd (column row i) = true

namespace Separates

variable {odd : BitVec m → Bool} (h : Separates row odd)

include h

theorem odd_zero : odd (0#m) = false := by
  have := h.linear 0#m 0#m
  rwa [BitVec.xor_self, Bool.xor_self] at this

theorem column_ne_zero {i : ℕ} (hi : i < n) : Parity.column (m := m) row i ≠ 0#m := by
  intro hzero
  have := h.column i hi
  rw [hzero, h.odd_zero] at this
  exact Bool.false_ne_true this

/-- The functional is one exactly on single errors. -/
theorem odd_syndrome {e : BitVec n} (he : weight e ≤ 2) :
    odd (syndrome row e) = decide (weight e = 1) := by
  obtain rfl | ⟨i, hi, rfl⟩ | ⟨i, hi, j, hj, hne, rfl⟩ := cases_of_weight_le_two he
  · rw [syndrome_zero, h.odd_zero, weight_zero]
    rfl
  · rw [syndrome_twoPow hi, h.column i hi, weight_twoPow hi]
    rfl
  · rw [syndrome_xor, h.linear, syndrome_twoPow hi, syndrome_twoPow hj, h.column i hi,
      h.column j hj, weight_twoPow_xor_twoPow hi hj hne]
    rfl

/-- A syndrome that is not zero, and zero under the functional, is a double error. -/
theorem even_syndrome {e : BitVec n} (he : weight e ≤ 2) :
    (!odd (syndrome row e) && decide (syndrome (m := m) row e ≠ 0#m)) = decide (weight e = 2) := by
  rw [h.odd_syndrome he]
  obtain rfl | ⟨i, hi, rfl⟩ | ⟨i, hi, j, hj, hne, rfl⟩ := cases_of_weight_le_two he
  · simp [weight_zero, syndrome_zero]
  · simp [weight_twoPow hi]
  · have hcol : syndrome (m := m) row (BitVec.twoPow n i ^^^ BitVec.twoPow n j) ≠ 0#m := by
      rw [syndrome_xor, syndrome_twoPow hi, syndrome_twoPow hj]
      intro hzero
      exact hne (h.injective i hi j hj (BitVec.xor_eq_zero_iff.mp hzero))
    simp [weight_twoPow_xor_twoPow hi hj hne, hcol]

/-- The syndrome of at most one error is the column of the bit in error, and of no
other bit. -/
theorem syndrome_eq_column_iff {e : BitVec n} (he : weight e ≤ 1) {i : ℕ} (hi : i < n) :
    syndrome (m := m) row e = Parity.column row i ↔ e.getLsbD i = true := by
  obtain rfl | ⟨j, hj, rfl⟩ | ⟨j, hj, l, hl, hne, rfl⟩ := cases_of_weight_le_two (e := e) (by omega)
  · simp only [syndrome_zero, BitVec.getLsbD_zero, Bool.false_eq_true, iff_false]
    exact (h.column_ne_zero hi).symm
  · rw [syndrome_twoPow hj, BitVec.getLsbD_twoPow]
    simp only [hj, decide_true, Bool.true_and, decide_eq_true_eq]
    exact ⟨h.injective j hj i hi, fun heq => by rw [heq]⟩
  · rw [weight_twoPow_xor_twoPow hj hl hne] at he
    omega

end Separates

end Parity

/-! The reflected Gray code. Consecutive codes differ in one bit, so that a sample that
takes every bit from before or after a change is one of the two codes. -/

namespace Gray

open Bits Parity

variable {w : ℕ}

/-- The Gray code of a number. -/
def encode (x : BitVec w) : BitVec w := x ^^^ (x >>> 1)

theorem getLsbD_encode (x : BitVec w) (i : ℕ) :
    (encode x).getLsbD i = (x.getLsbD i ^^ x.getLsbD (i + 1)) := by
  rw [encode, BitVec.getLsbD_xor, BitVec.getLsbD_ushiftRight, Nat.add_comm]

@[simp] theorem encode_zero : encode (0#w) = 0#w := by
  simp [encode]

/-- The bits below `n` are all set. -/
def onesBelow (x : BitVec w) : ℕ → Bool
  | 0 => true
  | n + 1 => onesBelow x n && x.getLsbD n

theorem onesBelow_eq (x : BitVec w) (n : ℕ) :
    onesBelow x n = decide (∀ i < n, x.getLsbD i = true) := by
  induction n with
  | zero => simp [onesBelow]
  | succ n ih => simp only [onesBelow, ih, Nat.forall_lt_succ_right, Bool.decide_and,
      Bool.decide_eq_true]

theorem onesBelow_of_lt {x : BitVec w} {i n : ℕ} (h : onesBelow x n = true) (hi : i < n) :
    x.getLsbD i = true := by
  rw [onesBelow_eq, decide_eq_true_eq] at h
  exact h i hi

/-- An increment flips the bits that have only ones below them. -/
theorem getLsbD_add_one (x : BitVec w) {i : ℕ} (hi : i < w) :
    (x + 1#w).getLsbD i = (x.getLsbD i ^^ onesBelow x i) := by
  rw [BitVec.getLsbD_add hi, onesBelow_eq]
  cases i with
  | zero => simp [show 0 < w from hi]
  | succ i =>
    rw [BitVec.carry_succ_one i x (by omega)]
    simp [Nat.lt_succ_iff]

/-- The bit in which the codes of `x` and `x + 1` differ: the lowest zero of `x`, and the
highest bit when only that one is left. -/
theorem getLsbD_encode_step (x : BitVec w) {i : ℕ} (hi : i < w) :
    (encode (x + 1#w) ^^^ encode x).getLsbD i =
      (onesBelow x i && (!x.getLsbD i || decide (i + 1 = w))) := by
  rw [BitVec.getLsbD_xor, getLsbD_encode, getLsbD_encode, getLsbD_add_one x hi]
  by_cases hlast : i + 1 = w
  · rw [BitVec.getLsbD_of_ge _ (i + 1) (by omega), BitVec.getLsbD_of_ge x (i + 1) (by omega),
      decide_eq_true hlast]
    cases x.getLsbD i <;> simp
  · rw [getLsbD_add_one x (by omega), onesBelow, decide_eq_false hlast]
    cases x.getLsbD i <;> cases x.getLsbD (i + 1) <;> cases onesBelow x i <;> rfl

/-- Consecutive codes differ in at most one bit. -/
theorem weight_encode_step (x : BitVec w) : weight (encode (x + 1#w) ^^^ encode x) ≤ 1 := by
  have hunique : ∀ i j, i < j → j < w → (encode (x + 1#w) ^^^ encode x).getLsbD i = true →
      (encode (x + 1#w) ^^^ encode x).getLsbD j = true → False := by
    intro i j hij hj hi' hj'
    rw [getLsbD_encode_step x (by omega), decide_eq_false (by omega), Bool.or_false,
      Bool.and_eq_true, Bool.not_eq_true'] at hi'
    rw [getLsbD_encode_step x hj, Bool.and_eq_true] at hj'
    exact Bool.false_ne_true (hi'.2.symm.trans (onesBelow_of_lt hj'.1 hij))
  rw [weight, Finset.card_le_one]
  intro i hi j hj
  simp only [Finset.mem_filter, Finset.mem_range] at hi hj
  by_contra hne
  obtain hlt | hgt := Nat.lt_or_gt_of_ne hne
  · exact hunique i j hlt hj.1 hi.2 hj.2
  · exact hunique j i hgt hi.1 hj.2 hi.2

/-! ### Samples of a changing vector -/

/-- A sample of a vector that changes from `old` to `new`: `late` says which bits are
sampled before the change. -/
def sample (late old new : BitVec w) : BitVec w := (old &&& late) ||| (new &&& ~~~late)

theorem getLsbD_sample (late old new : BitVec w) {i : ℕ} (hi : i < w) :
    (sample late old new).getLsbD i = if late.getLsbD i then old.getLsbD i else new.getLsbD i := by
  simp only [sample, BitVec.getLsbD_or, BitVec.getLsbD_and, BitVec.getLsbD_not, hi, decide_true,
    Bool.true_and]
  cases late.getLsbD i <;> simp

/-- A change of at most one bit is sampled as a whole. -/
theorem sample_eq (late : BitVec w) {old new : BitVec w} (h : weight (new ^^^ old) ≤ 1) :
    sample late old new = old ∨ sample late old new = new := by
  rw [weight, Finset.card_le_one] at h
  have hmem : ∀ i < w, new.getLsbD i ≠ old.getLsbD i →
      i ∈ (Finset.range w).filter fun i => (new ^^^ old).getLsbD i = true := by
    intro i hi hdiff
    rw [Finset.mem_filter, Finset.mem_range, BitVec.getLsbD_xor, Bool.xor_iff_ne]
    exact ⟨hi, hdiff⟩
  have hsame : ∀ i < w, ∀ j < w, new.getLsbD i ≠ old.getLsbD i → j ≠ i →
      new.getLsbD j = old.getLsbD j := by
    intro i hi j hj hdiff hne
    by_contra hdiff'
    exact hne (h j (hmem j hj hdiff') i (hmem i hi hdiff))
  by_cases hex : ∃ i < w, new.getLsbD i ≠ old.getLsbD i ∧ late.getLsbD i = true
  · obtain ⟨i, hi, hdiff, hlate⟩ := hex
    left
    apply BitVec.eq_of_getLsbD_eq
    intro j hj
    rw [getLsbD_sample late old new hj]
    by_cases hji : j = i
    · rw [hji, hlate, if_pos rfl]
    · rw [hsame i hi j hj hdiff hji, ite_self]
  · right
    apply BitVec.eq_of_getLsbD_eq
    intro j hj
    rw [getLsbD_sample late old new hj]
    split_ifs with hlate
    · by_contra hdiff
      exact hex ⟨j, hj, Ne.symm hdiff, hlate⟩
    · rfl

end Gray
