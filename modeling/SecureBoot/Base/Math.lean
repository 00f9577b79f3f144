import SecureBoot.Base.Word
import SecureBoot.Lib.BitCount

/-! The division of `uint64_t` by schoolbook long division in base 2. After `i` steps the leading
`i` bits of the dividend have been divided: the running total is their remainder, which is below
both the divisor and `2 ^ i`, so that no shift loses a bit however large the divisor is. -/

namespace SecureBoot

/-! ### The source -/

/-- The locals of `udiv64_slow`. -/
structure Udiv64 where
  quot : BitVec 64
  rem : BitVec 64

def udiv64Step (a b : BitVec 64) (s : Udiv64) (i : ℕ) : Udiv64 :=
  let rem := s.rem <<< 1
  let quot := s.quot <<< 1
  let rem := rem ||| ((a >>> (64 - i - 1)) &&& 1)
  if b ≤ rem then ⟨quot ||| 1, rem - b⟩ else ⟨quot, rem⟩

/-- The locals before iteration `i`. -/
def udiv64Loop (a b : BitVec 64) (i : ℕ) : Udiv64 :=
  (List.range i).foldl (udiv64Step a b) ⟨0, 0⟩

/-- The quotient, and what `rem_out` points to afterwards unless it is `NULL`. -/
def udiv64Slow (a b : BitVec 64) (remOut : Option (BitVec 64)) :
    BitVec 64 × Option (BitVec 64) :=
  ((udiv64Loop a b 64).quot, remOut.map fun _ => (udiv64Loop a b 64).rem)

theorem udiv64Loop_succ (a b : BitVec 64) (i : ℕ) :
    udiv64Loop a b (i + 1) = udiv64Step a b (udiv64Loop a b i) i := by
  rw [udiv64Loop, List.range_succ, List.foldl_append]
  rfl

/-! ### One step -/

/-- The leading `i` bits of a dividend. -/
def leadingBits (a : BitVec 64) (i : ℕ) : ℕ := a.toNat / 2 ^ (64 - i)

theorem leadingBits_zero (a : BitVec 64) : leadingBits a 0 = 0 := Nat.div_eq_of_lt a.isLt

theorem leadingBits_all (a : BitVec 64) : leadingBits a 64 = a.toNat := Nat.div_one _

theorem leadingBits_lt (a : BitVec 64) {i : ℕ} (hi : i ≤ 64) : leadingBits a i < 2 ^ i := by
  rw [leadingBits, Nat.div_lt_iff_lt_mul (by positivity), ← pow_add, Nat.add_sub_cancel' hi]
  exact a.isLt

theorem leadingBits_succ (a : BitVec 64) {i : ℕ} (hi : i < 64) :
    leadingBits a (i + 1) = 2 * leadingBits a i + a.toNat / 2 ^ (64 - i - 1) % 2 := by
  have hpow : 2 ^ (64 - i) = 2 ^ (64 - i - 1) * 2 := by rw [← pow_succ]; congr 1; omega
  rw [leadingBits, leadingBits, hpow, ← Nat.div_div_eq_div_mul, ← Nat.sub_sub]
  omega

/-- A word that was shifted by one place has room for a bit. -/
theorem toNat_shiftLeft_or_bit (x bit : BitVec 64) (hx : 2 * x.toNat < 2 ^ 64)
    (hbit : bit.toNat < 2) : (x <<< 1 ||| bit).toNat = 2 * x.toNat + bit.toNat := by
  rw [BitVec.toNat_or, BitVec.toNat_shiftLeft, Nat.shiftLeft_eq, pow_one, Nat.mul_comm,
    Nat.mod_eq_of_lt hx]
  exact (Nat.two_pow_add_eq_or_of_lt (i := 1) hbit x.toNat).symm

theorem toNat_broughtDown (a : BitVec 64) (i : ℕ) :
    ((a >>> (64 - i - 1)) &&& 1 : BitVec 64).toNat = a.toNat / 2 ^ (64 - i - 1) % 2 := by
  rw [BitVec.toNat_and, BitVec.toNat_ushiftRight, Nat.shiftRight_eq_div_pow]
  exact Nat.and_one_is_mod _

/-- The quotient and the remainder of the leading `i` bits. -/
structure DividesLeading (a b : BitVec 64) (i : ℕ) (s : Udiv64) : Prop where
  split : leadingBits a i = s.quot.toNat * b.toNat + s.rem.toNat
  rem_lt : s.rem.toNat < b.toNat

theorem DividesLeading.rem_le {a b : BitVec 64} {i : ℕ} {s : Udiv64} (h : DividesLeading a b i s) :
    s.rem.toNat ≤ leadingBits a i := h.split ▸ Nat.le_add_left _ _

theorem DividesLeading.quot_le {a b : BitVec 64} {i : ℕ} {s : Udiv64}
    (h : DividesLeading a b i s) : s.quot.toNat ≤ leadingBits a i := by
  have hb : 0 < b.toNat := Nat.zero_lt_of_lt h.rem_lt
  exact h.split ▸ (Nat.le_mul_of_pos_right _ hb).trans (Nat.le_add_right _ _)

/-- Twice what is bounded by the leading bits still fits, for all steps of the loop. -/
theorem two_mul_lt_of_le_leadingBits {a : BitVec 64} {i n : ℕ} (hi : i < 64)
    (h : n ≤ leadingBits a i) : 2 * n < 2 ^ 64 := by
  have hlt := leadingBits_lt a hi.le
  have hpow : 2 ^ i ≤ 2 ^ 63 := Nat.pow_le_pow_right (by decide) (by omega)
  omega

theorem DividesLeading.step {a b : BitVec 64} {i : ℕ} {s : Udiv64} (hi : i < 64)
    (h : DividesLeading a b i s) : DividesLeading a b (i + 1) (udiv64Step a b s i) := by
  have hbit : ((a >>> (64 - i - 1)) &&& 1 : BitVec 64).toNat < 2 := by
    rw [toNat_broughtDown]
    exact Nat.mod_lt _ (by decide)
  have hrem := toNat_shiftLeft_or_bit s.rem _ (two_mul_lt_of_le_leadingBits hi h.rem_le) hbit
  have hquot := two_mul_lt_of_le_leadingBits hi h.quot_le
  have hlead := leadingBits_succ a hi
  rw [h.split, ← toNat_broughtDown] at hlead
  have hlt := h.rem_lt
  rw [udiv64Step]
  generalize (a >>> (64 - i - 1)) &&& 1 = bit at hbit hrem hlead ⊢
  by_cases hle : b ≤ s.rem <<< 1 ||| bit
  · rw [if_pos hle]
    have hsub := BitVec.toNat_sub_of_le hle
    have hone := toNat_shiftLeft_or_bit s.quot 1 hquot (by decide)
    rw [BitVec.le_def, hrem] at hle
    rw [hrem] at hsub
    refine ⟨?_, ?_⟩
    · simp only [hsub, hone, hlead, show (1 : BitVec 64).toNat = 1 from rfl]
      rw [Nat.add_mul, Nat.mul_assoc]
      omega
    · simp only [hsub]
      omega
  · rw [if_neg hle]
    have hzero : (s.quot <<< 1).toNat = 2 * s.quot.toNat := by
      have := toNat_shiftLeft_or_bit s.quot 0#64 hquot (by decide)
      rwa [BitVec.or_zero] at this
    rw [BitVec.le_def, hrem] at hle
    refine ⟨?_, ?_⟩
    · simp only [hrem, hzero, hlead]
      rw [Nat.mul_assoc]
      omega
    · simp only [hrem]
      omega

/-! ### The run -/

theorem dividesLeading_udiv64Loop (a : BitVec 64) {b : BitVec 64} (hb : b ≠ 0) {i : ℕ}
    (hi : i ≤ 64) : DividesLeading a b i (udiv64Loop a b i) := by
  induction i with
  | zero =>
    refine ⟨?_, ?_⟩
    · rw [leadingBits_zero]
      exact (Nat.zero_mul _).symm
    · exact Nat.pos_of_ne_zero fun h => hb (BitVec.eq_of_toNat_eq h)
  | succ i ih =>
    rw [udiv64Loop_succ]
    exact (ih (by omega)).step (by omega)

theorem udiv64Slow_eq (a : BitVec 64) {b : BitVec 64} (hb : b ≠ 0) (remOut : Option (BitVec 64)) :
    udiv64Slow a b remOut = (a / b, remOut.map fun _ => a % b) := by
  obtain ⟨hsplit, hlt⟩ := dividesLeading_udiv64Loop a hb (le_refl 64)
  rw [leadingBits_all] at hsplit
  have hpos : 0 < b.toNat := Nat.zero_lt_of_lt hlt
  have hquot : (udiv64Loop a b 64).quot = a / b := by
    apply BitVec.eq_of_toNat_eq
    rw [BitVec.toNat_udiv, hsplit, Nat.add_comm, Nat.add_mul_div_right _ _ hpos,
      Nat.div_eq_of_lt hlt, Nat.zero_add]
  have hrem : (udiv64Loop a b 64).rem = a % b := by
    apply BitVec.eq_of_toNat_eq
    rw [BitVec.toNat_umod, hsplit, Nat.add_comm, Nat.add_mul_mod_self_right, Nat.mod_eq_of_lt hlt]
  rw [udiv64Slow, hquot, hrem]

/-- The quotient and the remainder are exact, and the shift of the remainder drops no bit. -/
theorem udiv64_slow_exact (a b : BitVec 64) (hb : b ≠ 0) (remOut : Option (BitVec 64)) :
    (udiv64Slow a b remOut).1.toNat = a.toNat / b.toNat ∧
      (udiv64Slow a b remOut).2.map BitVec.toNat = remOut.map (fun _ => a.toNat % b.toNat) ∧
      ∀ i < 64, (udiv64Loop a b i).rem.msb = false := by
  rw [udiv64Slow_eq a hb]
  refine ⟨BitVec.toNat_udiv, ?_, fun i hi => ?_⟩
  · rw [Option.map_map]
    exact congrArg (Option.map · remOut) (funext fun _ => BitVec.toNat_umod)
  · have hle := (dividesLeading_udiv64Loop a hb hi.le).rem_le
    have hfits := two_mul_lt_of_le_leadingBits hi hle
    rw [BitVec.msb_eq_decide, decide_eq_false_iff_not]
    omega

/-- A divisor above `2 ^ 63`. -/
theorem udiv64_slow_exact_large :
    (0xffffffffffffffff : BitVec 64) ≠ 0 ∧ (0x8000000000000001 : BitVec 64) ≠ 0 ∧
      (udiv64Slow 0xffffffffffffffff 0x8000000000000001 (some 0)).1.toNat = 1 ∧
      (udiv64Slow 0xffffffffffffffff 0x8000000000000001 (some 0)).2.map BitVec.toNat =
        some 0x7ffffffffffffffe := by
  obtain ⟨hquot, hrem, -⟩ :=
    udiv64_slow_exact 0xffffffffffffffff 0x8000000000000001 (by decide) (some 0)
  exact ⟨by decide, by decide, hquot.trans (by decide), hrem.trans (by decide)⟩

/-! ### The divisor zero -/

end SecureBoot

/-! The polyfills of `libgcc` that the compiler may call: shifts of 64-bit integers from 32-bit
halves, and the counts of bits by a logarithmic number of steps. An `int32_t` or `int64_t` is the
word of its two's complement. -/

namespace SecureBoot

/-! ### 64-bit shifts -/

/-- `u32x2_t`: the two halves of an `i64`. -/
structure U32x2 where
  lo : Word
  hi : Word

def U32x2.ofFull (full : BitVec 64) : U32x2 := ⟨full.setWidth 32, full.extractLsb' 32 32⟩

def U32x2.full (word : U32x2) : BitVec 64 := word.hi ++ word.lo

def otBuiltinLshiftI64 (val : BitVec 64) (shift : ℕ) : BitVec 64 :=
  if shift = 0 then val
  else
    let word := U32x2.ofFull val
    if 32 ≤ shift then U32x2.full ⟨0, word.lo <<< (shift - 32)⟩
    else U32x2.full ⟨word.lo <<< shift, word.hi <<< shift ||| word.lo >>> (32 - shift)⟩

def otBuiltinRshiftI64 (val : BitVec 64) (shift : ℕ) : BitVec 64 :=
  if shift = 0 then val
  else
    let word := U32x2.ofFull val
    if 32 ≤ shift then U32x2.full ⟨word.hi >>> (shift - 32), 0⟩
    else U32x2.full ⟨word.lo >>> shift ||| word.hi <<< (32 - shift), word.hi >>> shift⟩

/-- The shifts of `hi_signed` keep its sign. -/
def otBuiltinAshiftI64 (val : BitVec 64) (shift : ℕ) : BitVec 64 :=
  if shift = 0 then val
  else
    let word := U32x2.ofFull val
    if 32 ≤ shift then U32x2.full ⟨word.hi.sshiftRight (shift - 32), word.hi.sshiftRight 31⟩
    else U32x2.full
      ⟨word.lo >>> shift ||| word.hi <<< (32 - shift), word.hi.sshiftRight shift⟩

theorem getLsbD_full (word : U32x2) (i : ℕ) :
    word.full.getLsbD i = if i < 32 then word.lo.getLsbD i else word.hi.getLsbD (i - 32) :=
  BitVec.getLsbD_append

theorem getLsbD_lo_ofFull (val : BitVec 64) {i : ℕ} (hi : i < 32) :
    (U32x2.ofFull val).lo.getLsbD i = val.getLsbD i := by
  rw [U32x2.ofFull, BitVec.getLsbD_setWidth, decide_eq_true hi, Bool.true_and]

theorem getLsbD_hi_ofFull (val : BitVec 64) (i : ℕ) :
    (U32x2.ofFull val).hi.getLsbD i = val.getLsbD (32 + i) := by
  rw [U32x2.ofFull, BitVec.getLsbD_extractLsb']
  by_cases hi : i < 32
  · rw [decide_eq_true hi, Bool.true_and]
  · rw [decide_eq_false hi, Bool.false_and, BitVec.getLsbD_of_ge _ _ (by omega)]

theorem msb_hi_ofFull (val : BitVec 64) : (U32x2.ofFull val).hi.msb = val.msb := by
  rw [BitVec.msb_eq_getLsbD_last, getLsbD_hi_ofFull, BitVec.msb_eq_getLsbD_last]

/-- The upper half after a small shift to the left. -/
theorem getLsbD_hi_shiftLeft (val : BitVec 64) {shift i : ℕ} (h0 : 0 < shift) (h : shift < 32)
    (hi : i < 32) : ((U32x2.ofFull val).hi <<< shift |||
      (U32x2.ofFull val).lo >>> (32 - shift)).getLsbD i = val.getLsbD (32 + i - shift) := by
  rw [BitVec.getLsbD_or, BitVec.getLsbD_shiftLeft, BitVec.getLsbD_ushiftRight, decide_eq_true hi,
    Bool.true_and, getLsbD_hi_ofFull]
  by_cases hlow : i < shift
  · rw [decide_eq_true hlow, getLsbD_lo_ofFull _ (by omega), Bool.not_true, Bool.false_and,
      Bool.false_or]
    congr 1
    omega
  · rw [decide_eq_false hlow, BitVec.getLsbD_of_ge (U32x2.ofFull val).lo _ (by omega),
      Bool.or_false, Bool.not_false, Bool.true_and]
    congr 1
    omega

theorem otBuiltinLshiftI64_eq (val : BitVec 64) {shift : ℕ} (h : shift < 64) :
    otBuiltinLshiftI64 val shift = val <<< shift := by
  unfold otBuiltinLshiftI64
  split_ifs with h0 hbig
  · rw [h0, BitVec.shiftLeft_zero]
  · refine BitVec.eq_of_getLsbD_eq fun i hi => ?_
    rw [getLsbD_full, BitVec.getLsbD_shiftLeft val, decide_eq_true hi, Bool.true_and]
    by_cases hlow : i < 32
    · rw [if_pos hlow, decide_eq_true (show i < shift by omega), Bool.not_true, Bool.false_and]
      exact BitVec.getLsbD_zero
    · rw [if_neg hlow, BitVec.getLsbD_shiftLeft, decide_eq_true (show i - 32 < 32 by omega),
        Bool.true_and, getLsbD_lo_ofFull _ (by omega)]
      congr 2
      · exact decide_eq_decide.2 (by omega)
      · omega
  · refine BitVec.eq_of_getLsbD_eq fun i hi => ?_
    rw [getLsbD_full, BitVec.getLsbD_shiftLeft val, decide_eq_true hi, Bool.true_and]
    by_cases hlow : i < 32
    · rw [if_pos hlow, BitVec.getLsbD_shiftLeft, decide_eq_true hlow, Bool.true_and,
        getLsbD_lo_ofFull _ (by omega)]
    · rw [if_neg hlow, getLsbD_hi_shiftLeft val (by omega) (by omega) (by omega),
        decide_eq_false (show ¬i < shift by omega), Bool.not_false, Bool.true_and]
      congr 1
      omega

/-- The lower half after a small shift to the right. -/
theorem getLsbD_lo_shiftRight (val : BitVec 64) {shift i : ℕ} (h : shift < 32)
    (hi : i < 32) : ((U32x2.ofFull val).lo >>> shift |||
      (U32x2.ofFull val).hi <<< (32 - shift)).getLsbD i = val.getLsbD (shift + i) := by
  rw [BitVec.getLsbD_or, BitVec.getLsbD_ushiftRight, BitVec.getLsbD_shiftLeft, decide_eq_true hi,
    Bool.true_and, getLsbD_hi_ofFull]
  by_cases hlow : shift + i < 32
  · rw [getLsbD_lo_ofFull _ hlow, decide_eq_true (by omega), Bool.not_true, Bool.false_and,
      Bool.or_false]
  · rw [BitVec.getLsbD_of_ge _ (shift + i) (by omega), decide_eq_false (by omega), Bool.not_false,
      Bool.true_and, Bool.false_or]
    congr 1
    omega

theorem otBuiltinRshiftI64_eq (val : BitVec 64) {shift : ℕ} (h : shift < 64) :
    otBuiltinRshiftI64 val shift = val >>> shift := by
  unfold otBuiltinRshiftI64
  split_ifs with h0 hbig
  · rw [h0, BitVec.ushiftRight_zero]
  · refine BitVec.eq_of_getLsbD_eq fun i hi => ?_
    rw [getLsbD_full, BitVec.getLsbD_ushiftRight val]
    by_cases hlow : i < 32
    · rw [if_pos hlow, BitVec.getLsbD_ushiftRight, getLsbD_hi_ofFull]
      congr 1
      omega
    · rw [if_neg hlow, BitVec.getLsbD_of_ge val _ (by omega)]
      exact BitVec.getLsbD_zero
  · refine BitVec.eq_of_getLsbD_eq fun i hi => ?_
    rw [getLsbD_full, BitVec.getLsbD_ushiftRight val]
    by_cases hlow : i < 32
    · rw [if_pos hlow, getLsbD_lo_shiftRight val (by omega) hlow]
    · rw [if_neg hlow, BitVec.getLsbD_ushiftRight, getLsbD_hi_ofFull]
      congr 1
      omega

theorem otBuiltinAshiftI64_eq (val : BitVec 64) {shift : ℕ} (h : shift < 64) :
    otBuiltinAshiftI64 val shift = val.sshiftRight shift := by
  unfold otBuiltinAshiftI64
  split_ifs with h0 hbig
  · rw [h0, BitVec.sshiftRight_zero]
  · refine BitVec.eq_of_getLsbD_eq fun i hi => ?_
    rw [getLsbD_full, BitVec.getLsbD_sshiftRight, BitVec.getLsbD_sshiftRight,
      BitVec.getLsbD_sshiftRight, msb_hi_ofFull, getLsbD_hi_ofFull, getLsbD_hi_ofFull,
      decide_eq_false (show ¬64 ≤ i by omega)]
    by_cases hlow : i < 32
    · rw [if_pos hlow, decide_eq_false (show ¬32 ≤ i by omega)]
      congr 1
      by_cases hfits : shift + i < 64
      · rw [if_pos hfits, if_pos (by omega)]
        congr 1
        omega
      · rw [if_neg hfits, if_neg (by omega)]
    · rw [if_neg hlow, decide_eq_false (show ¬32 ≤ i - 32 by omega),
        if_neg (show ¬shift + i < 64 by omega)]
      congr 1
      split_ifs with hlast
      · rw [BitVec.msb_eq_getLsbD_last]
        congr 1
        omega
      · rfl
  · refine BitVec.eq_of_getLsbD_eq fun i hi => ?_
    rw [getLsbD_full, BitVec.getLsbD_sshiftRight val, decide_eq_false (show ¬64 ≤ i by omega),
      Bool.not_false, Bool.true_and]
    by_cases hlow : i < 32
    · rw [if_pos hlow, if_pos (by omega), getLsbD_lo_shiftRight val (by omega) hlow]
    · rw [if_neg hlow, BitVec.getLsbD_sshiftRight, decide_eq_false (show ¬32 ≤ i - 32 by omega),
        Bool.not_false, Bool.true_and, msb_hi_ofFull, getLsbD_hi_ofFull]
      by_cases hfits : shift + i < 64
      · rw [if_pos hfits, if_pos (by omega)]
        congr 1
        omega
      · rw [if_neg hfits, if_neg (by omega)]

/-! ### Byte swap, population count and parity -/

def otBuiltinBswapI32 (val : Word) : Word :=
  ((val &&& 0xff000000) >>> 24) ||| ((val &&& 0x00ff0000) >>> 8) |||
    ((val &&& 0x0000ff00) <<< 8) ||| ((val &&& 0x000000ff) <<< 24)

def otBuiltinPopcountI32 (val : Word) : Word :=
  let i1x32 := val
  let i2x16 := (i1x32 &&& 0x55555555) + ((i1x32 >>> 1) &&& 0x55555555)
  let i4x8 := (i2x16 &&& 0x33333333) + ((i2x16 >>> 2) &&& 0x33333333)
  let i8x4 := (i4x8 &&& 0x0f0f0f0f) + ((i4x8 >>> 4) &&& 0x0f0f0f0f)
  let i16x2 := (i8x4 &&& 0x00ff00ff) + ((i8x4 >>> 8) &&& 0x00ff00ff)
  (i16x2 &&& 0xffff) + ((i16x2 >>> 16) &&& 0xffff)

/-- The values of `i` in `for (int i = 16; i > 0; i /= 2)`. -/
def halvings : List ℕ := [16, 8, 4, 2, 1]

def otBuiltinParityI32 (val : Word) : Word :=
  halvings.foldl (fun x i => x ^^^ (x >>> i)) val &&& 1

/-! ### First set bits -/

/-- The locals `x` and `count` of the binary searches. -/
structure BitSearch where
  x : Word
  count : ℕ

def ctzStep (s : BitSearch) (i : ℕ) : BitSearch :=
  let mask : Word := (1#32 <<< i) - 1#32
  if s.x &&& mask = 0 then ⟨s.x >>> i, s.count + i⟩ else s

def otBuiltinCtzI32 (val : Word) : ℕ := (halvings.foldl ctzStep ⟨val, 0⟩).count

def clzStep (s : BitSearch) (i : ℕ) : BitSearch :=
  let mask : Word := ((1#32 <<< i) - 1#32) <<< (32 - i)
  if s.x &&& mask = 0 then ⟨s.x <<< i, s.count + i⟩ else s

def otBuiltinClzI32 (val : Word) : ℕ := (halvings.foldl clzStep ⟨val, 0⟩).count

def otBuiltinFindFirstI32 (val : Word) : ℕ :=
  if val = 0 then 0 else otBuiltinCtzI32 val + 1

/-! ### What the counts compute -/

/-- One byte of a word, moved to another place or not. -/
theorem getLsbD_and_byteMask (val : Word) (k i : ℕ) :
    (val &&& (0xff#32 <<< (8 * k))).getLsbD i =
      (decide (8 * k ≤ i ∧ i < 8 * k + 8) && val.getLsbD i) := by
  have hbyte (j : ℕ) : (0xff#32).getLsbD j = decide (j < 8) := by
    rw [BitVec.getLsbD_ofNat, show 255 = 2 ^ 8 - 1 from rfl, Nat.testBit_two_pow_sub_one]
    by_cases hj : j < 8
    · rw [decide_eq_true hj, decide_eq_true (by omega), Bool.true_and]
    · rw [decide_eq_false hj, Bool.and_false]
  rw [BitVec.getLsbD_and, BitVec.getLsbD_shiftLeft, hbyte, Bool.and_comm]
  by_cases hi : i < 32
  · congr 1
    by_cases hmem : 8 * k ≤ i ∧ i < 8 * k + 8
    · rw [decide_eq_true hmem, decide_eq_true hi, decide_eq_false (by omega),
        decide_eq_true (by omega)]
      rfl
    · rw [decide_eq_false hmem, decide_eq_true hi]
      by_cases hlow : i < 8 * k
      · rw [decide_eq_true hlow]
        rfl
      · rw [decide_eq_false (show ¬i - 8 * k < 8 by omega), Bool.and_false]
  · rw [BitVec.getLsbD_of_ge val i (by omega), Bool.and_false, Bool.and_false]

theorem getLsbD_otBuiltinBswapI32 (val : Word) {i : ℕ} (hi : i < 32) :
    (otBuiltinBswapI32 val).getLsbD i = val.getLsbD (8 * (3 - i / 8) + i % 8) := by
  have h₃ := getLsbD_and_byteMask val 3 (24 + i)
  have h₂ := getLsbD_and_byteMask val 2 (8 + i)
  have h₁ := getLsbD_and_byteMask val 1 (i - 8)
  have h₀ := getLsbD_and_byteMask val 0 (i - 24)
  simp only [otBuiltinBswapI32, BitVec.getLsbD_or, BitVec.getLsbD_ushiftRight,
    BitVec.getLsbD_shiftLeft]
  rw [show (0xff000000 : Word) = 0xff#32 <<< (8 * 3) by decide,
    show (0x00ff0000 : Word) = 0xff#32 <<< (8 * 2) by decide,
    show (0x0000ff00 : Word) = 0xff#32 <<< (8 * 1) by decide,
    show (0x000000ff : Word) = 0xff#32 <<< (8 * 0) by decide, h₀, h₁, h₂, h₃, decide_eq_true hi]
  have hbyte : i / 8 = 0 ∨ i / 8 = 1 ∨ i / 8 = 2 ∨ i / 8 = 3 := by omega
  rcases hbyte with h | h | h | h
  · rw [show 8 * (3 - i / 8) + i % 8 = 24 + i by omega, decide_eq_true (by omega),
      decide_eq_false (by omega), decide_eq_true (show i < 8 by omega),
      decide_eq_true (show i < 24 by omega)]
    simp
  · rw [show 8 * (3 - i / 8) + i % 8 = 8 + i by omega, decide_eq_false (by omega),
      decide_eq_true (show 8 * 2 ≤ 8 + i ∧ 8 + i < 8 * 2 + 8 by omega),
      decide_eq_false (show ¬(8 * 1 ≤ i - 8 ∧ i - 8 < 8 * 1 + 8) by omega),
      decide_eq_true (show i < 24 by omega)]
    simp
  · rw [show 8 * (3 - i / 8) + i % 8 = i - 8 by omega, decide_eq_false (by omega),
      decide_eq_false (show ¬(8 * 2 ≤ 8 + i ∧ 8 + i < 8 * 2 + 8) by omega),
      decide_eq_true (show 8 * 1 ≤ i - 8 ∧ i - 8 < 8 * 1 + 8 by omega),
      decide_eq_true (show i < 24 by omega), decide_eq_false (show ¬i < 8 by omega)]
    simp
  · rw [show 8 * (3 - i / 8) + i % 8 = i - 24 by omega, decide_eq_false (by omega),
      decide_eq_false (show ¬(8 * 2 ≤ 8 + i ∧ 8 + i < 8 * 2 + 8) by omega),
      decide_eq_false (show ¬(8 * 1 ≤ i - 8 ∧ i - 8 < 8 * 1 + 8) by omega),
      decide_eq_true (show 8 * 0 ≤ i - 24 ∧ i - 24 < 8 * 0 + 8 by omega),
      decide_eq_false (show ¬i < 24 by omega)]
    simp

theorem toNat_pairSum (x mask : Word) (w n : ℕ) (hmask : mask.toNat = BitCount.evenMask w n)
    (hfits : 2 * mask.toNat < 2 ^ 32) :
    ((x &&& mask) + ((x >>> w) &&& mask)).toNat = BitCount.pairSum w n x.toNat := by
  have h₀ : x.toNat &&& mask.toNat ≤ mask.toNat := Nat.and_le_right
  have h₁ : x.toNat >>> w &&& mask.toNat ≤ mask.toNat := Nat.and_le_right
  rw [BitVec.toNat_add, BitVec.toNat_and, BitVec.toNat_and, BitVec.toNat_ushiftRight,
    Nat.mod_eq_of_lt (by omega), hmask, BitCount.pairSum]

theorem toNat_otBuiltinPopcountI32 (val : Word) :
    (otBuiltinPopcountI32 val).toNat = BitCount.count val.getLsbD 32 := by
  have hcount : BitCount.count val.getLsbD 32 = BitCount.fieldSum 1 32 val.toNat :=
    (BitCount.fieldSum_one_eq_count 32 val.toNat).symm
  rw [hcount, ← BitCount.fieldSum_pairSum (by decide) 16, ← BitCount.fieldSum_pairSum (by decide) 8,
    ← BitCount.fieldSum_pairSum (by decide) 4, ← BitCount.fieldSum_pairSum (by decide) 2,
    ← BitCount.fieldSum_pairSum (by decide) 1,
    ← toNat_pairSum val 0x55555555 1 16 (by decide) (by decide),
    ← toNat_pairSum _ 0x33333333 2 8 (by decide) (by decide),
    ← toNat_pairSum _ 0x0f0f0f0f 4 4 (by decide) (by decide),
    ← toNat_pairSum _ 0x00ff00ff 8 2 (by decide) (by decide),
    ← toNat_pairSum _ 0xffff 16 1 (by decide) (by decide)]
  exact (BitCount.fieldSum_single (BitVec.isLt _)).symm

theorem parity_foldStep (x : Word) (i : ℕ) :
    Parity.parity (x ^^^ (x >>> i)).getLsbD i = Parity.parity x.getLsbD (2 * i) := by
  rw [BitCount.parity_fold]
  refine Parity.parity_congr fun j hj => ?_
  rw [BitVec.getLsbD_xor, BitVec.getLsbD_ushiftRight, Nat.add_comm]

theorem and_one_eq (x : Word) : x &&& 1 = if x.getLsbD 0 then 1 else 0 := by
  refine (BitVec.and_one_eq_setWidth_ofBool_getLsbD).trans ?_
  cases x.getLsbD 0 <;> rfl

theorem otBuiltinParityI32_eq (val : Word) :
    otBuiltinParityI32 val = if Parity.xorReduce val then 1 else 0 := by
  have hlast (x : Word) : x.getLsbD 0 = Parity.parity x.getLsbD 1 := (Bool.false_xor _).symm
  have hfold : (halvings.foldl (fun x i => x ^^^ (x >>> i)) val).getLsbD 0 =
      Parity.parity val.getLsbD 32 := by
    simp only [halvings, List.foldl_cons, List.foldl_nil]
    rw [hlast, parity_foldStep _ 1, parity_foldStep _ 2, parity_foldStep _ 4, parity_foldStep _ 8,
      parity_foldStep _ 16]
  rw [otBuiltinParityI32, and_one_eq, hfold]
  rfl

/-! ### What the searches find -/

theorem getLsbD_lowMask {i : ℕ} (hi : i < 32) (k : ℕ) :
    ((1#32 <<< i) - 1#32).getLsbD k = decide (k < i) := by
  have hpow : 2 ^ i < 2 ^ 32 := Nat.pow_lt_pow_right (by decide) hi
  have hshift : (1#32 <<< i).toNat = 2 ^ i := by
    rw [BitVec.toNat_shiftLeft, Nat.shiftLeft_eq]
    exact (congrArg (· % 2 ^ 32) (Nat.one_mul _)).trans (Nat.mod_eq_of_lt hpow)
  have hone : 1#32 ≤ 1#32 <<< i := by
    rw [BitVec.le_def, hshift]
    exact Nat.one_le_two_pow
  rw [← BitVec.testBit_toNat, BitVec.toNat_sub_of_le hone, hshift]
  exact Nat.testBit_two_pow_sub_one i k

theorem and_eq_zero_iff (x mask : Word) :
    x &&& mask = 0 ↔ ∀ k < 32, mask.getLsbD k = true → x.getLsbD k = false := by
  constructor
  · intro h k _ hmask
    have hbit := congrArg (BitVec.getLsbD · k) h
    rw [BitVec.getLsbD_and, hmask, Bool.and_true] at hbit
    exact hbit.trans BitVec.getLsbD_zero
  · intro h
    refine BitVec.eq_of_getLsbD_eq fun k hk => ?_
    rw [BitVec.getLsbD_and]
    refine Eq.trans ?_ BitVec.getLsbD_zero.symm
    cases hmask : mask.getLsbD k with
    | false => exact Bool.and_false _
    | true => rw [h k hk hmask, Bool.false_and]

theorem ctzStep_eq (val : Word) (c : ℕ) {i : ℕ} (hi : i < 32) :
    ctzStep ⟨val >>> c, c⟩ i =
      ⟨val >>> BitCount.probe val.getLsbD c i, BitCount.probe val.getLsbD c i⟩ := by
  have hiff : (val >>> c) &&& ((1#32 <<< i) - 1#32) = 0 ↔ ∀ j < i, val.getLsbD (c + j) = false := by
    rw [and_eq_zero_iff]
    refine ⟨fun h j hj => ?_, fun h k _ hmask => ?_⟩
    · have := h j (by omega) (by rw [getLsbD_lowMask hi, decide_eq_true hj])
      rwa [BitVec.getLsbD_ushiftRight] at this
    · rw [getLsbD_lowMask hi, decide_eq_true_eq] at hmask
      rw [BitVec.getLsbD_ushiftRight, h k hmask]
  rw [ctzStep, BitCount.probe]
  by_cases h : ∀ j < i, val.getLsbD (c + j) = false
  · rw [if_pos (hiff.2 h), if_pos h, BitVec.shiftRight_add]
  · rw [if_neg (hiff.not.2 h), if_neg h]

theorem clzStep_eq (val : Word) (c : ℕ) {i : ℕ} (hi : i < 32) :
    clzStep ⟨val <<< c, c⟩ i =
      ⟨val <<< BitCount.probe val.getMsbD c i, BitCount.probe val.getMsbD c i⟩ := by
  have hiff : (val <<< c) &&& (((1#32 <<< i) - 1#32) <<< (32 - i)) = 0 ↔
      ∀ j < i, val.getMsbD (c + j) = false := by
    have hmask (k : ℕ) (hk : k < 32) :
        (((1#32 <<< i) - 1#32) <<< (32 - i)).getLsbD k = decide (31 - k < i) := by
      rw [BitVec.getLsbD_shiftLeft, getLsbD_lowMask hi, decide_eq_true hk, Bool.true_and,
        Bool.eq_iff_iff]
      simp only [Bool.and_eq_true, Bool.not_eq_true', decide_eq_false_iff_not, decide_eq_true_eq]
      omega
    have hbit (k : ℕ) (hk : k < 32) :
        (val <<< c).getLsbD k = val.getMsbD (c + (31 - k)) := by
      rw [BitVec.getLsbD_shiftLeft, BitVec.getMsbD, decide_eq_true hk, Bool.true_and]
      by_cases hkc : k < c
      · rw [decide_eq_true hkc, decide_eq_false (by omega)]
        rfl
      · rw [decide_eq_false hkc, decide_eq_true (by omega)]
        exact congrArg (true && val.getLsbD ·) (by omega)
    rw [and_eq_zero_iff]
    refine ⟨fun h j hj => ?_, fun h k hk hset => ?_⟩
    · have := h (31 - j) (by omega) (by rw [hmask _ (by omega), decide_eq_true (by omega)])
      rwa [hbit _ (by omega), show 31 - (31 - j) = j by omega] at this
    · rw [hmask k hk, decide_eq_true_eq] at hset
      rw [hbit k hk, h _ hset]
  rw [clzStep, BitCount.probe]
  by_cases h : ∀ j < i, val.getMsbD (c + j) = false
  · rw [if_pos (hiff.2 h), if_pos h, BitVec.shiftLeft_add]
  · rw [if_neg (hiff.not.2 h), if_neg h]

/-- A loop whose steps are probes of one search. -/
theorem firstSet_foldl {f : ℕ → Bool} {x : ℕ → Word} {step : BitSearch → ℕ → BitSearch}
    (hstep : ∀ c, ∀ i < 32, step ⟨x c, c⟩ i = ⟨x (BitCount.probe f c i), BitCount.probe f c i⟩)
    (hset : ∃ j < 32, f j = true) :
    (halvings.foldl step ⟨x 0, 0⟩).count = BitCount.firstSet f 32 := by
  have h₀ : BitCount.Within f (2 * 16) 0 :=
    ⟨fun i hi => absurd hi (Nat.not_lt_zero i), by simpa using hset⟩
  have h₁ := (h₀.probe).probe (n := 8)
  have h₂ := (h₁.probe (n := 4)).probe (n := 2)
  have h₃ := h₂.probe (n := 1)
  simp only [halvings, List.foldl_cons, List.foldl_nil]
  rw [hstep _ 16 (by decide), hstep _ 8 (by decide), hstep _ 4 (by decide), hstep _ 2 (by decide),
    hstep _ 1 (by decide)]
  exact (h₃.firstSet_eq hset).symm

theorem exists_getLsbD_of_ne_zero {val : Word} (h : val ≠ 0) : ∃ j < 32, val.getLsbD j = true := by
  by_contra hclear
  push Not at hclear
  refine h (BitVec.eq_of_getLsbD_eq fun j hj => ?_)
  exact (Bool.eq_false_of_not_eq_true (hclear j hj)).trans BitVec.getLsbD_zero.symm

theorem otBuiltinCtzI32_eq {val : Word} (h : val ≠ 0) :
    otBuiltinCtzI32 val = BitCount.firstSet val.getLsbD 32 := by
  have hstep : ∀ c, ∀ i < 32, ctzStep ⟨val >>> c, c⟩ i =
      ⟨val >>> BitCount.probe val.getLsbD c i, BitCount.probe val.getLsbD c i⟩ :=
    fun c i hi => ctzStep_eq val c hi
  rw [← firstSet_foldl hstep (exists_getLsbD_of_ne_zero h), BitVec.ushiftRight_zero]
  rfl

theorem otBuiltinClzI32_eq {val : Word} (h : val ≠ 0) :
    otBuiltinClzI32 val = BitCount.firstSet val.getMsbD 32 := by
  have hstep : ∀ c, ∀ i < 32, clzStep ⟨val <<< c, c⟩ i =
      ⟨val <<< BitCount.probe val.getMsbD c i, BitCount.probe val.getMsbD c i⟩ :=
    fun c i hi => clzStep_eq val c hi
  have hset : ∃ j < 32, val.getMsbD j = true := by
    obtain ⟨j, hj, hset⟩ := exists_getLsbD_of_ne_zero h
    refine ⟨31 - j, by omega, ?_⟩
    rw [BitVec.getMsbD, decide_eq_true (by omega), Bool.true_and,
      show 32 - 1 - (31 - j) = j by omega, hset]
  rw [← firstSet_foldl hstep hset, BitVec.shiftLeft_zero]
  rfl

/-! ### The builtins and their definitions -/

/-- The bit-by-bit definitions of the counts and the byte swap. The trailing and the leading zeros
are counted for words other than `0` only, as the ABI has it. -/
structure MeetsBitDefinitions (val : Word) : Prop where
  popcount : (otBuiltinPopcountI32 val).toNat = BitCount.count val.getLsbD 32
  parity : otBuiltinParityI32 val = if Parity.xorReduce val then 1 else 0
  ctz : val ≠ 0 → otBuiltinCtzI32 val = BitCount.firstSet val.getLsbD 32
  clz : val ≠ 0 → otBuiltinClzI32 val = BitCount.firstSet val.getMsbD 32
  findFirst : otBuiltinFindFirstI32 val =
    if val = 0 then 0 else BitCount.firstSet val.getLsbD 32 + 1
  bswap : ∀ i < 32, (otBuiltinBswapI32 val).getLsbD i = val.getLsbD (8 * (3 - i / 8) + i % 8)

/-- The builtins are the 64-bit shifts and the bit-by-bit counts. -/
theorem math_builtins_meet_definitions (val : BitVec 64) (shift : ℕ) (h : shift < 64)
    (word : Word) :
    otBuiltinLshiftI64 val shift = val <<< shift ∧
      otBuiltinRshiftI64 val shift = val >>> shift ∧
      otBuiltinAshiftI64 val shift = val.sshiftRight shift ∧
      MeetsBitDefinitions word := by
  refine ⟨otBuiltinLshiftI64_eq val h, otBuiltinRshiftI64_eq val h, otBuiltinAshiftI64_eq val h, ?_⟩
  refine ⟨toNat_otBuiltinPopcountI32 word, otBuiltinParityI32_eq word, otBuiltinCtzI32_eq,
    otBuiltinClzI32_eq, ?_, fun i hi => getLsbD_otBuiltinBswapI32 word hi⟩
  unfold otBuiltinFindFirstI32
  split_ifs with hzero
  · rfl
  · rw [otBuiltinCtzI32_eq hzero]

/-- A shift across both halves, and a word of which half of the bits are set. -/
theorem math_builtins_meet_definitions_at :
    otBuiltinLshiftI64 0x8000000080000001 36 = 0x0000001000000000 ∧
      otBuiltinRshiftI64 0x8000000080000001 36 = 0x0000000008000000 ∧
      otBuiltinAshiftI64 0x8000000080000001 36 = 0xfffffffff8000000 ∧
      (otBuiltinPopcountI32 0xf0f0f0f0).toNat = 16 ∧ otBuiltinCtzI32 0xf0f0f0f0 = 4 := by
  obtain ⟨hl, hr, ha, hword⟩ :=
    math_builtins_meet_definitions 0x8000000080000001 36 (by decide) 0xf0f0f0f0
  exact ⟨hl.trans (by decide), hr.trans (by decide), ha.trans (by decide),
    hword.popcount.trans (by decide), (hword.ctz (by decide)).trans (by decide)⟩

/-- Of `0` the searches count 31 zeros, one less than there are. -/
theorem clz_ctz_of_zero :
    otBuiltinCtzI32 0 = 31 ∧ otBuiltinClzI32 0 = 31 ∧
      BitCount.firstSet (0 : Word).getLsbD 32 = 32 ∧
      BitCount.firstSet (0 : Word).getMsbD 32 = 32 := by
  decide

end SecureBoot
