import SecureBoot.Sigverify.Keys

/-! The software modular exponentiation of the ROM. The loops over the words of
a buffer are recursions over its little-endian list of words; accumulators that
the source keeps in a `uint64_t` are 64-bit here. The `while` loop of
`calc_r_square` takes fuel, and `sigverify_mod_exp_ibex` with enough of it
computes `sig ^ 65537 mod n` exactly. -/

namespace SecureBoot

/-! ### Words of a buffer -/

/-- The loop of `subtract_modulus` over the words of `a` and of the modulus. -/
def subtractWords : Word → List Word → List Word → List Word × Word
  | borrow, a :: as, n :: ns =>
      let temp := a - borrow
      let borrow' : Word := (if a < borrow then 1 else 0) + (if temp < n then 1 else 0)
      let rest := subtractWords borrow' as ns
      ((temp - n) :: rest.1, rest.2)
  | borrow, _, _ => ([], borrow)

/-- `subtract_modulus`: the difference and the borrow. -/
def subtractModulus (key : SigverifyRsaKey) (a : List Word) : List Word × Word :=
  subtractWords 0 a key.n.toList

/-- The loop of `greater_equal_modulus`, most significant words first. -/
def greaterEqualWords : List Word → List Word → Bool
  | a :: as, n :: ns => if a ≠ n then decide (a > n) else greaterEqualWords as ns
  | _, _ => true

def greaterEqualModulus (key : SigverifyRsaKey) (a : List Word) : Bool :=
  greaterEqualWords a.reverse key.n.toList.reverse

/-- The words of `a << 1` above the word `prev`, and the bit shifted out. -/
def shiftLeftWords : Word → List Word → List Word × Word
  | prev, a :: as =>
      let rest := shiftLeftWords a as
      ((a <<< 1 ||| prev >>> 31) :: rest.1, rest.2)
  | prev, [] => ([], prev >>> 31)

/-- `shift_left`: `a << 1` and its most significant bit. -/
def shiftLeft (a : List Word) : List Word × Word := shiftLeftWords 0 a

/-! ### Montgomery multiplication -/

/-- The conversion to `uint64_t`. -/
abbrev u64 (a : Word) : BitVec 64 := a.setWidth 64

/-- The inner loop of `mont_mul` from `j = 1` on: the words of `result` below
the last and the two accumulators. -/
def montMulWords (xi ui : Word) :
    BitVec 64 → BitVec 64 → List Word → List Word → List Word → List Word × BitVec 64 × BitVec 64
  | acc0, acc1, y :: ys, n :: ns, r :: rs =>
      let acc0' := u64 xi * u64 y + u64 r + acc0 >>> 32
      let acc1' := u64 ui * u64 n + u64 (acc0'.setWidth 32) + acc1 >>> 32
      let rest := montMulWords xi ui acc0' acc1' ys ns rs
      (acc1'.setWidth 32 :: rest.1, rest.2)
  | acc0, acc1, _, _, _ => ([], acc0, acc1)

/-- One pass of the outer loop of `mont_mul`, for the digit `xi` of `x`. -/
def montMulDigit (key : SigverifyRsaKey) (y result : List Word) (xi : Word) : List Word :=
  match y, key.n.toList, result with
  | y0 :: ys, n0 :: ns, r0 :: rs =>
      let acc0 := u64 xi * u64 y0 + u64 r0
      let ui := acc0.setWidth 32 * key.n0Inv[0]
      let acc1 := u64 ui * u64 n0 + u64 (acc0.setWidth 32)
      let (words, acc0, acc1) := montMulWords xi ui acc0 acc1 ys ns rs
      let acc0 := acc0 >>> 32 + acc1 >>> 32
      let result := words ++ [acc0.setWidth 32]
      if acc0 >>> 32 ≠ 0 then (subtractModulus key result).1 else result
  | _, _, _ => result

/-- `mont_mul`. -/
def montMul (key : SigverifyRsaKey) (x y : List Word) : List Word :=
  x.foldl (montMulDigit key y) (List.replicate kSigVerifyRsaNumWords 0)

/-- The sums over the integers that the inner loop of `mont_mul` stores in its accumulators. -/
def montMulSums (xi ui : Word) :
    BitVec 64 → BitVec 64 → List Word → List Word → List Word → List ℕ
  | acc0, acc1, y :: ys, n :: ns, r :: rs =>
      let acc0' := u64 xi * u64 y + u64 r + acc0 >>> 32
      let acc1' := u64 ui * u64 n + u64 (acc0'.setWidth 32) + acc1 >>> 32
      (xi.toNat * y.toNat + r.toNat + (acc0 >>> 32).toNat) ::
        (ui.toNat * n.toNat + (acc0'.setWidth 32).toNat + (acc1 >>> 32).toNat) ::
          montMulSums xi ui acc0' acc1' ys ns rs
  | _, _, _, _, _ => []

/-- All sums of a pass of the outer loop, and the high word of `acc0` at its end. -/
def montMulDigitSums (key : SigverifyRsaKey) (y result : List Word) (xi : Word) : List ℕ × ℕ :=
  match y, key.n.toList, result with
  | y0 :: ys, n0 :: ns, r0 :: rs =>
      let acc0 := u64 xi * u64 y0 + u64 r0
      let ui := acc0.setWidth 32 * key.n0Inv[0]
      let acc1 := u64 ui * u64 n0 + u64 (acc0.setWidth 32)
      let (_, accH0, accH1) := montMulWords xi ui acc0 acc1 ys ns rs
      ((xi.toNat * y0.toNat + r0.toNat) :: (ui.toNat * n0.toNat + (acc0.setWidth 32).toNat) ::
          (montMulSums xi ui acc0 acc1 ys ns rs ++
            [(accH0 >>> 32).toNat + (accH1 >>> 32).toNat]),
        ((accH0 >>> 32 + accH1 >>> 32) >>> 32).toNat)
  | _, _, _ => ([], 0)

/-! ### Modular exponentiation -/

/-- The `while` loop of `calc_r_square`; `none` when `fuel` runs out. -/
def reduceModulus (key : SigverifyRsaKey) : ℕ → Word → List Word → Option (List Word)
  | 0, _, _ => none
  | fuel + 1, msb, buf =>
      if msb > 0 || greaterEqualModulus key buf then
        let (buf, borrow) := subtractModulus key buf
        reduceModulus key fuel (msb - borrow) buf
      else some buf

/-- The `for` loop of `calc_r_square` with `i` iterations left. -/
def doubleModulus (key : SigverifyRsaKey) (fuel : ℕ) : ℕ → List Word → Option (List Word)
  | 0, buf => some buf
  | i + 1, buf =>
      let (buf, msb) := shiftLeft buf
      (reduceModulus key fuel msb buf).bind (doubleModulus key fuel i)

/-- The squaring loops: `k` times two squarings, from one buffer into the other
and back. -/
def squareTwice (key : SigverifyRsaKey) : ℕ → List Word → List Word
  | 0, buf => buf
  | k + 1, buf =>
      let result := montMul key buf buf
      squareTwice key k (montMul key result result)

/-- `calc_r_square`. -/
def calcRSquare (key : SigverifyRsaKey) (fuel : ℕ) : Option (List Word) :=
  let buf := (subtractModulus key (List.replicate kSigVerifyRsaNumWords 0)).1
  (doubleModulus key fuel 96 buf).map fun buf => squareTwice key 2 (montMul key buf buf)

/-- The computation of `sigverify_mod_exp_ibex` on the words of the signature. -/
def modExpWords (key : SigverifyRsaKey) (fuel : ℕ) (sig : List Word) : Option (List Word) :=
  (calcRSquare key fuel).map fun rSquare =>
    let buf := montMul key sig rSquare
    let result := montMul key (squareTwice key 8 buf) sig
    if greaterEqualModulus key result then (subtractModulus key result).1 else result

/-! ### Values of the word loops -/

theorem length_subtractWords (borrow : Word) {as ns : List Word} (hlen : as.length = ns.length) :
    (subtractWords borrow as ns).1.length = as.length := by
  induction as generalizing borrow ns with
  | nil => rfl
  | cons a as ih =>
    obtain _ | ⟨n, ns⟩ := ns
    · simp at hlen
    · simp [subtractWords, ih _ (by simpa using hlen)]

theorem subtractWords_spec (borrow : Word) (hb : borrow.toNat ≤ 1) {as ns : List Word}
    (hlen : as.length = ns.length) :
    Limbs.value (subtractWords borrow as ns).1 + Limbs.value ns + borrow.toNat =
        Limbs.value as + (2 ^ 32) ^ as.length * (subtractWords borrow as ns).2.toNat ∧
      (subtractWords borrow as ns).2.toNat ≤ 1 := by
  induction as generalizing borrow ns with
  | nil =>
    obtain rfl := List.eq_nil_of_length_eq_zero hlen.symm
    simp [subtractWords, hb]
  | cons a as ih =>
    obtain _ | ⟨n, ns⟩ := ns
    · simp at hlen
    · have hstep := Limbs.sub_step a borrow n hb
      have hle := Limbs.sub_step_borrow_le a borrow n hb
      have hborrow : ((if a < borrow then 1 else 0) + (if a - borrow < n then 1 else 0) :
          Word).toNat = (if a < borrow then 1 else 0) + (if a - borrow < n then 1 else 0) := by
        split_ifs <;> rfl
      have hlen' : as.length = ns.length := by simpa using hlen
      obtain ⟨hval, hout⟩ := ih _ (by rw [hborrow]; exact hle) hlen'
      rw [hborrow] at hval
      simp only [subtractWords, Limbs.value_cons, List.length_cons,
        pow_succ' _ as.length] at hval hout ⊢
      refine ⟨?_, hout⟩
      linarith

theorem greaterEqualWords_iff {as ns : List Word} (hlen : as.length = ns.length) :
    greaterEqualWords as ns = true ↔ Limbs.value ns.reverse ≤ Limbs.value as.reverse := by
  induction as generalizing ns with
  | nil =>
    obtain rfl := List.eq_nil_of_length_eq_zero hlen.symm
    simp [greaterEqualWords]
  | cons a as ih =>
    obtain _ | ⟨n, ns⟩ := ns
    · simp at hlen
    · have hlen' : as.length = ns.length := by simpa using hlen
      by_cases hne : a = n
      · subst hne
        simp [greaterEqualWords, ih hlen', Limbs.value_concat, hlen']
      · rw [Limbs.value_reverse_le_iff a n as ns hlen' hne]
        simp [greaterEqualWords, hne]

theorem length_shiftLeftWords (prev : Word) (as : List Word) :
    (shiftLeftWords prev as).1.length = as.length := by
  induction as generalizing prev with
  | nil => rfl
  | cons a as ih => simp [shiftLeftWords, ih]

theorem shiftLeftWords_spec (prev : Word) (as : List Word) :
    Limbs.value (shiftLeftWords prev as).1 +
        (2 ^ 32) ^ as.length * (shiftLeftWords prev as).2.toNat =
      2 * Limbs.value as + (prev >>> 31).toNat := by
  induction as generalizing prev with
  | nil => simp [shiftLeftWords]
  | cons a as ih =>
    have hstep := Limbs.shift_step (w := 32) (by omega) a prev
    have hrest := ih a
    simp only [shiftLeftWords, Limbs.value_cons, List.length_cons,
      pow_succ' _ as.length] at hrest hstep ⊢
    linarith

/-- A 64-bit accumulator step of `mont_mul` does not wrap. -/
theorem toNat_mulAcc (x y r : Word) (acc : BitVec 64) :
    (u64 x * u64 y + u64 r + acc >>> 32).toNat =
      x.toNat * y.toNat + r.toNat + (acc >>> 32).toNat := by
  have hacc : (acc >>> 32).toNat < 2 ^ 32 := by
    rw [BitVec.toNat_ushiftRight, Nat.shiftRight_eq_div_pow]
    have := acc.isLt
    omega
  have hlt := Limbs.mulAdd_lt x.isLt y.isLt r.isLt hacc
  have h64 : ∀ w : Word, (u64 w).toNat = w.toNat := fun w => by
    rw [BitVec.toNat_setWidth, Nat.mod_eq_of_lt (w.isLt.trans (by norm_num))]
  simp only [BitVec.toNat_add, BitVec.toNat_mul, h64]
  simp only [Nat.mod_add_mod]
  exact Nat.mod_eq_of_lt hlt

/-- The two halves of an accumulator. -/
theorem toNat_halves (acc : BitVec 64) :
    (acc.setWidth 32).toNat + 2 ^ 32 * (acc >>> 32).toNat = acc.toNat := by
  rw [BitVec.toNat_setWidth, BitVec.toNat_ushiftRight, Nat.shiftRight_eq_div_pow,
    Nat.mod_add_div]

theorem length_montMulWords (xi ui : Word) (acc0 acc1 : BitVec 64) {ys ns rs : List Word}
    (hn : ns.length = ys.length) (hr : rs.length = ys.length) :
    (montMulWords xi ui acc0 acc1 ys ns rs).1.length = ys.length := by
  induction ys generalizing acc0 acc1 ns rs with
  | nil => simp [montMulWords]
  | cons y ys ih =>
    obtain _ | ⟨n, ns⟩ := ns
    · simp at hn
    obtain _ | ⟨r, rs⟩ := rs
    · simp at hr
    have hn' : ns.length = ys.length := by simpa using hn
    have hr' : rs.length = ys.length := by simpa using hr
    simp [montMulWords, ih _ _ hn' hr']

/-- The words written by the inner loop and the two carries it leaves hold the
sum of both products and the old words. -/
theorem montMulWords_spec (xi ui : Word) (acc0 acc1 : BitVec 64) {ys ns rs : List Word}
    (hn : ns.length = ys.length) (hr : rs.length = ys.length) :
    let out := montMulWords xi ui acc0 acc1 ys ns rs
    Limbs.value out.1 +
        (2 ^ 32) ^ ys.length * ((out.2.1 >>> 32).toNat + (out.2.2 >>> 32).toNat) =
      xi.toNat * Limbs.value ys + ui.toNat * Limbs.value ns + Limbs.value rs +
        ((acc0 >>> 32).toNat + (acc1 >>> 32).toNat) := by
  induction ys generalizing acc0 acc1 ns rs with
  | nil =>
    obtain rfl := List.eq_nil_of_length_eq_zero hn
    obtain rfl := List.eq_nil_of_length_eq_zero hr
    simp [montMulWords]
  | cons y ys ih =>
    obtain _ | ⟨n, ns⟩ := ns
    · simp at hn
    obtain _ | ⟨r, rs⟩ := rs
    · simp at hr
    have hacc0 := toNat_mulAcc xi y r acc0
    set acc0' := u64 xi * u64 y + u64 r + acc0 >>> 32 with hdef0
    have hacc1 := toNat_mulAcc ui n (acc0'.setWidth 32) acc1
    set acc1' := u64 ui * u64 n + u64 (acc0'.setWidth 32) + acc1 >>> 32 with hdef1
    have hn' : ns.length = ys.length := by simpa using hn
    have hr' : rs.length = ys.length := by simpa using hr
    have hrest := ih acc0' acc1' hn' hr'
    have hhalf0 := toNat_halves acc0'
    have hhalf1 := toNat_halves acc1'
    simp only [montMulWords, ← hdef0, ← hdef1, Limbs.value_cons, List.length_cons,
      pow_succ' _ ys.length] at hrest ⊢
    linarith

theorem length_subtractModulus (key : SigverifyRsaKey) {a : List Word}
    (ha : a.length = kSigVerifyRsaNumWords) :
    (subtractModulus key a).1.length = kSigVerifyRsaNumWords := by
  rw [subtractModulus, length_subtractWords _ (by simp [ha]), ha]

/-- `subtract_modulus` computes the difference modulo `R`, the borrow says
whether it wrapped. -/
theorem subtractModulus_spec (key : SigverifyRsaKey) {a : List Word}
    (ha : a.length = kSigVerifyRsaNumWords) :
    Limbs.value (subtractModulus key a).1 + key.n.value =
        Limbs.value a + rsaRadix * (subtractModulus key a).2.toNat ∧
      (subtractModulus key a).2.toNat ≤ 1 := by
  have hlen : a.length = key.n.toList.length := by simp [ha]
  have h := subtractWords_spec 0 (by simp) hlen
  rw [ha] at h
  simpa [subtractModulus, SigverifyRsaBuffer.value, rsaRadix] using h

theorem greaterEqualModulus_iff (key : SigverifyRsaKey) {a : List Word}
    (ha : a.length = kSigVerifyRsaNumWords) :
    greaterEqualModulus key a = true ↔ key.n.value ≤ Limbs.value a := by
  rw [greaterEqualModulus, greaterEqualWords_iff (by simp [ha])]
  simp [SigverifyRsaBuffer.value]

theorem value_lt_rsaRadix {a : List Word} (ha : a.length = kSigVerifyRsaNumWords) :
    Limbs.value a < rsaRadix := by
  have h := Limbs.value_lt a
  rwa [ha] at h

theorem length_shiftLeft {a : List Word} (ha : a.length = kSigVerifyRsaNumWords) :
    (shiftLeft a).1.length = kSigVerifyRsaNumWords := by
  rw [shiftLeft, length_shiftLeftWords, ha]

theorem shiftLeft_spec {a : List Word} (ha : a.length = kSigVerifyRsaNumWords) :
    Limbs.value (shiftLeft a).1 + rsaRadix * (shiftLeft a).2.toNat = 2 * Limbs.value a := by
  have h := shiftLeftWords_spec 0 a
  rw [ha] at h
  simpa [shiftLeft, rsaRadix] using h

/-! ### Montgomery multiplication of buffers -/

/-- The sum `acc0 >> 32 + acc1 >> 32` that closes a pass of `mont_mul` does not wrap. -/
theorem toNat_add_high (acc0 acc1 : BitVec 64) :
    (acc0 >>> 32 + acc1 >>> 32).toNat = (acc0 >>> 32).toNat + (acc1 >>> 32).toNat := by
  have h0 := toNat_halves acc0
  have h1 := toNat_halves acc1
  have := acc0.isLt
  have := acc1.isLt
  rw [BitVec.toNat_add, Nat.mod_eq_of_lt]
  omega

theorem exists_cons_of_length {a : List Word} (ha : a.length = kSigVerifyRsaNumWords) :
    ∃ x xs, a = x :: xs ∧ xs.length = 95 := by
  obtain _ | ⟨x, xs⟩ := a
  · simp at ha
  · exact ⟨x, xs, rfl, Nat.succ.inj ha⟩

theorem length_montMulDigit (key : SigverifyRsaKey) {y result : List Word}
    (hy : y.length = kSigVerifyRsaNumWords) (hr : result.length = kSigVerifyRsaNumWords)
    (xi : Word) : (montMulDigit key y result xi).length = kSigVerifyRsaNumWords := by
  obtain ⟨y0, ys, rfl, hys⟩ := exists_cons_of_length hy
  obtain ⟨r0, rs, rfl, hrs⟩ := exists_cons_of_length hr
  obtain ⟨n0, ns, hn, hns⟩ := exists_cons_of_length key.n.length_toList
  simp only [montMulDigit, hn]
  have hwords : ∀ u a b, ((montMulWords xi u a b ys ns rs).1).length = 95 := fun u a b => by
    rw [length_montMulWords xi u a b (by omega) (by omega), hys]
  split_ifs
  · exact length_subtractModulus key (by simp [hwords])
  · simp [hwords]

/-- The close of a pass of `mont_mul`: the accumulator `acc` on top of the words
is brought below `R` by taking the modulus off once if it carries. -/
theorem value_closePass (key : SigverifyRsaKey) (acc : BitVec 64) {words : List Word}
    (hlen : words.length = 95) {t : ℕ}
    (ht : Limbs.value words + (2 ^ 32) ^ words.length * acc.toNat = t)
    (hlt : t < rsaRadix + key.n.value) :
    Limbs.value (if acc >>> 32 ≠ 0 then (subtractModulus key (words ++ [acc.setWidth 32])).1
        else words ++ [acc.setWidth 32]) =
      if rsaRadix ≤ t then t - key.n.value else t := by
  have hreslen : (words ++ [acc.setWidth 32]).length = kSigVerifyRsaNumWords := by simp [hlen]
  have hres : Limbs.value (words ++ [acc.setWidth 32]) + rsaRadix * (acc >>> 32).toNat = t := by
    rw [← ht, Limbs.value_concat, ← toNat_halves acc, rsaRadix,
      show kSigVerifyRsaNumWords = words.length + 1 by rw [hlen], pow_succ _ words.length]
    ring
  have hreslt := value_lt_rsaRadix hreslen
  have hnlt := key.n.value_lt
  obtain ⟨hsub, hborrow⟩ := subtractModulus_spec key hreslen
  have hout := value_lt_rsaRadix (length_subtractModulus key hreslen)
  generalize rsaRadix = r at *
  by_cases hc : acc >>> 32 = 0
  · have hcarry : (acc >>> 32).toNat = 0 := by simp [hc]
    rw [hcarry, Nat.mul_zero, Nat.add_zero] at hres
    rw [if_neg (not_not.2 hc), if_neg (by omega), hres]
  · have hcarry : (acc >>> 32).toNat = 1 := by
      have hne : (acc >>> 32).toNat ≠ 0 := fun h => hc (BitVec.eq_of_toNat_eq (by simpa using h))
      by_contra hgt
      have := Nat.mul_le_mul_left r (show 2 ≤ (acc >>> 32).toNat by omega)
      omega
    rw [hcarry, Nat.mul_one] at hres
    rw [if_pos hc, if_pos (by omega)]
    obtain hb | hb := Nat.le_one_iff_eq_zero_or_eq_one.1 hborrow
    · rw [hb] at hsub
      omega
    · rw [hb] at hsub
      omega

/-- The multiple of the modulus only depends on the lowest words. -/
theorem toNat_mulOfModulus (xi y0 r0 n' : Word) (acc0 : BitVec 64) (y r : ℕ)
    (hacc0 : acc0.toNat = xi.toNat * y0.toNat + r0.toNat) :
    (acc0.setWidth 32 * n').toNat =
      (r0.toNat + 2 ^ 32 * r + xi.toNat * (y0.toNat + 2 ^ 32 * y)) * n'.toNat % 2 ^ 32 := by
  have hsplit : r0.toNat + 2 ^ 32 * r + xi.toNat * (y0.toNat + 2 ^ 32 * y) =
      acc0.toNat + 2 ^ 32 * (r + xi.toNat * y) := by
    rw [hacc0]
    ring
  rw [hsplit, BitVec.toNat_mul, BitVec.toNat_setWidth, Nat.mod_mul_mod, Nat.mul_mod (_ + _),
    Nat.add_mul_mod_self_left, ← Nat.mul_mod]

/-- The words and the two carries of a pass are the exact quotient of its sum, which stays below
`R + n`. -/
theorem montMulWords_quotient (key : SigverifyRsaKey)
    (hinv : (key.n.value * key.n0Inv[0].toNat + 1) % 2 ^ 32 = 0) (y0 r0 : Word) {n0 : Word}
    {ys ns rs : List Word} (hn : key.n.toList = n0 :: ns) (hys : ys.length = 95)
    (hrs : rs.length = 95) (xi : Word) :
    let acc0 := u64 xi * u64 y0 + u64 r0
    let ui := acc0.setWidth 32 * key.n0Inv[0]
    let acc1 := u64 ui * u64 n0 + u64 (acc0.setWidth 32)
    let out := montMulWords xi ui acc0 acc1 ys ns rs
    let sum := Limbs.value (r0 :: rs) + xi.toNat * Limbs.value (y0 :: ys)
    let t := (sum + sum * key.n0Inv[0].toNat % 2 ^ 32 * key.n.value) / 2 ^ 32
    out.1.length = 95 ∧ t < rsaRadix + key.n.value ∧
      Limbs.value out.1 +
        (2 ^ 32) ^ out.1.length * ((out.2.1 >>> 32).toNat + (out.2.2 >>> 32).toNat) = t := by
  have hylt := value_lt_rsaRadix (a := y0 :: ys) (by simp [hys])
  have hrlt := value_lt_rsaRadix (a := r0 :: rs) (by simp [hrs])
  have hns : ns.length = 95 := by
    have hlen := key.n.length_toList
    rw [hn] at hlen
    exact Nat.succ.inj hlen
  have hnval : key.n.value = n0.toNat + 2 ^ 32 * Limbs.value ns := by
    rw [SigverifyRsaBuffer.value, hn, Limbs.value_cons]
  intro acc0 ui acc1 out sum t
  -- the accumulators before the inner loop
  have hacc0 : acc0.toNat = xi.toNat * y0.toNat + r0.toNat := by
    simpa [acc0] using toNat_mulAcc xi y0 r0 0
  have hui : ui.toNat = sum * key.n0Inv[0].toNat % 2 ^ 32 :=
    toNat_mulOfModulus xi y0 r0 key.n0Inv[0] acc0 (Limbs.value ys) (Limbs.value rs) hacc0
  have hacc1 : acc1.toNat = ui.toNat * n0.toNat + (acc0.setWidth 32).toNat := by
    simpa [acc1] using toNat_mulAcc ui n0 (acc0.setWidth 32) 0
  have hwords : Limbs.value out.1 +
      (2 ^ 32) ^ ys.length * ((out.2.1 >>> 32).toNat + (out.2.2 >>> 32).toNat) =
        xi.toNat * Limbs.value ys + ui.toNat * Limbs.value ns + Limbs.value rs +
          ((acc0 >>> 32).toNat + (acc1 >>> 32).toNat) :=
    montMulWords_spec xi ui acc0 acc1 (hns.trans hys.symm) (hrs.trans hys.symm)
  have hlen : out.1.length = ys.length :=
    length_montMulWords xi ui acc0 acc1 (hns.trans hys.symm) (hrs.trans hys.symm)
  rw [← hlen] at hwords
  -- the sum is an exact multiple of the word size
  have hhalf0 := toNat_halves acc0
  have hhalf1 := toNat_halves acc1
  have hsum : sum + ui.toNat * key.n.value = (acc1.setWidth 32).toNat +
      2 ^ 32 * (Limbs.value out.1 + (2 ^ 32) ^ out.1.length *
        ((out.2.1 >>> 32).toNat + (out.2.2 >>> 32).toNat)) := by
    rw [hwords, hnval]
    simp only [sum, Limbs.value_cons]
    linarith
  have hzero : (acc1.setWidth 32).toNat = 0 := by
    have hdvd := Montgomery.dvd_accumulate hinv sum
    rw [← hui, hsum, Nat.dvd_add_left (Dvd.intro _ rfl)] at hdvd
    exact Nat.eq_zero_of_dvd_of_lt hdvd (acc1.setWidth 32).isLt
  have ht : t = Limbs.value out.1 + (2 ^ 32) ^ out.1.length *
      ((out.2.1 >>> 32).toNat + (out.2.2 >>> 32).toNat) := by
    simp only [t]
    rw [← hui, hsum, hzero, Nat.zero_add, Nat.mul_div_cancel_left _ (Nat.two_pow_pos 32)]
  refine ⟨hlen.trans hys, ?_, ht.symm⟩
  simp only [t]
  rw [← hui]
  exact Montgomery.quotient_lt hrlt hylt xi.isLt ui.isLt

/-- One digit of `mont_mul` is one abstract Montgomery step. -/
theorem value_montMulDigit (key : SigverifyRsaKey)
    (hinv : (key.n.value * key.n0Inv[0].toNat + 1) % 2 ^ 32 = 0) {y result : List Word}
    (hy : y.length = kSigVerifyRsaNumWords) (hr : result.length = kSigVerifyRsaNumWords)
    (xi : Word) :
    Limbs.value (montMulDigit key y result xi) =
      Montgomery.step (2 ^ 32) rsaRadix key.n.value key.n0Inv[0].toNat (Limbs.value y)
        (Limbs.value result) xi.toNat := by
  obtain ⟨y0, ys, rfl, hys⟩ := exists_cons_of_length hy
  obtain ⟨r0, rs, rfl, hrs⟩ := exists_cons_of_length hr
  obtain ⟨n0, ns, hn, hns⟩ := exists_cons_of_length key.n.length_toList
  obtain ⟨hlen, hlt, hvalue⟩ := montMulWords_quotient key hinv y0 r0 hn hys hrs xi
  simp only [montMulDigit, hn, Montgomery.step]
  exact value_closePass key _ hlen (by rw [toNat_add_high, hvalue]) hlt

theorem length_montMul (key : SigverifyRsaKey) (x : List Word) {y : List Word}
    (hy : y.length = kSigVerifyRsaNumWords) :
    (montMul key x y).length = kSigVerifyRsaNumWords := by
  have hfold : ∀ (xs result : List Word), result.length = kSigVerifyRsaNumWords →
      (xs.foldl (montMulDigit key y) result).length = kSigVerifyRsaNumWords := by
    intro xs
    induction xs with
    | nil => exact fun _ h => h
    | cons xi xs ih => exact fun result h => ih _ (length_montMulDigit key hy h xi)
  exact hfold x _ List.length_replicate

theorem value_foldl_montMulDigit (key : SigverifyRsaKey)
    (hinv : (key.n.value * key.n0Inv[0].toNat + 1) % 2 ^ 32 = 0) {y : List Word}
    (hy : y.length = kSigVerifyRsaNumWords) (xs : List Word) {result : List Word}
    (hr : result.length = kSigVerifyRsaNumWords) :
    Limbs.value (xs.foldl (montMulDigit key y) result) =
      Montgomery.mul (2 ^ 32) rsaRadix key.n.value key.n0Inv[0].toNat (Limbs.value y)
        (xs.map BitVec.toNat) (Limbs.value result) := by
  induction xs generalizing result with
  | nil => rfl
  | cons xi xs ih =>
    rw [List.foldl_cons, ih (length_montMulDigit key hy hr xi), value_montMulDigit key hinv hy hr]
    rfl

/-- `mont_mul` is `x * y / R` modulo `n`, not necessarily reduced. -/
theorem montMul_modEq {key : SigverifyRsaKey} (hkey : key.WellFormed) {x y : List Word}
    (hx : x.length = kSigVerifyRsaNumWords) (hy : y.length = kSigVerifyRsaNumWords) :
    rsaRadix * Limbs.value (montMul key x y) ≡ Limbs.value x * Limbs.value y
      [MOD key.n.value] := by
  have h := Montgomery.mul_modEq hkey.inv key.n.value_lt.le (Limbs.value y)
    (x.map BitVec.toNat) 0
  rw [List.length_map, hx, Nat.zero_add] at h
  rw [montMul, value_foldl_montMulDigit key hkey.inv hy x List.length_replicate]
  have h0 : Limbs.value (List.replicate kSigVerifyRsaNumWords (0 : Word)) = 0 :=
    Limbs.value_replicate_zero _
  rw [h0]
  exact h

theorem SigverifyRsaKey.WellFormed.coprime {key : SigverifyRsaKey} (hkey : key.WellFormed) :
    Nat.Coprime key.n.value rsaRadix :=
  ((Nat.coprime_two_right.2 (Nat.odd_iff.2 hkey.odd)).pow_right 32).pow_right _

/-! ### The accumulators -/

theorem mulAcc_lt (x y r : Word) (acc : BitVec 64) :
    x.toNat * y.toNat + r.toNat + (acc >>> 32).toNat < 2 ^ 64 := by
  rw [← toNat_mulAcc]
  exact BitVec.isLt _

theorem mulAcc_zero_lt (x y r : Word) : x.toNat * y.toNat + r.toNat < 2 ^ 64 := by
  simpa using mulAcc_lt x y r 0

/-- A quotient below `2 * R` has a carry of at most one. -/
theorem toNat_high_le_one {words b n : ℕ} {acc : BitVec 64} (hn : n < b * 2 ^ 32)
    (hlt : words + b * acc.toNat < b * 2 ^ 32 + n) : (acc >>> 32).toNat ≤ 1 := by
  rw [BitVec.toNat_ushiftRight, Nat.shiftRight_eq_div_pow]
  by_contra hcarry
  have hacc : 2 * 2 ^ 32 ≤ acc.toNat := by omega
  have hle := Nat.mul_le_mul_left b hacc
  omega

theorem montMulSums_lt (xi ui : Word) (acc0 acc1 : BitVec 64) (ys ns rs : List Word) :
    ∀ sum ∈ montMulSums xi ui acc0 acc1 ys ns rs, sum < 2 ^ 64 := by
  induction ys generalizing acc0 acc1 ns rs with
  | nil => simp [montMulSums]
  | cons y ys ih =>
    obtain _ | ⟨n, ns⟩ := ns
    · simp [montMulSums]
    obtain _ | ⟨r, rs⟩ := rs
    · simp [montMulSums]
    rw [montMulSums, List.forall_mem_cons, List.forall_mem_cons]
    exact ⟨mulAcc_lt xi y r acc0, mulAcc_lt ui n _ acc1, ih _ _ ns rs⟩

/-- The last carry of a pass is a bit, as the quotient is below `2 * R`. -/
theorem montMulDigitSums_bounds (key : SigverifyRsaKey)
    (hinv : (key.n.value * key.n0Inv[0].toNat + 1) % 2 ^ 32 = 0) {y result : List Word}
    (hy : y.length = kSigVerifyRsaNumWords) (hr : result.length = kSigVerifyRsaNumWords)
    (xi : Word) : (∀ sum ∈ (montMulDigitSums key y result xi).1, sum < 2 ^ 64) ∧
      (montMulDigitSums key y result xi).2 ≤ 1 := by
  obtain ⟨y0, ys, rfl, hys⟩ := exists_cons_of_length hy
  obtain ⟨r0, rs, rfl, hrs⟩ := exists_cons_of_length hr
  obtain ⟨n0, ns, hn, hns⟩ := exists_cons_of_length key.n.length_toList
  obtain ⟨hlen, hlt, hvalue⟩ := montMulWords_quotient key hinv y0 r0 hn hys hrs xi
  simp only [montMulDigitSums, hn]
  constructor
  · rw [List.forall_mem_cons, List.forall_mem_cons, List.forall_mem_append,
      List.forall_mem_singleton]
    refine ⟨mulAcc_zero_lt xi y0 r0, mulAcc_zero_lt _ n0 _, montMulSums_lt _ _ _ _ ys ns rs, ?_⟩
    rw [← toNat_add_high]
    exact BitVec.isLt _
  · have hradix : rsaRadix = (2 ^ 32) ^ 95 * 2 ^ 32 := by
      rw [rsaRadix, ← pow_succ]
    have hnlt := key.n.value_lt
    rw [← hvalue, hlen, ← toNat_add_high, hradix] at hlt
    rw [hradix] at hnlt
    exact toNat_high_le_one hnlt hlt

/-- The buffer at the start of a pass. -/
theorem length_take_montMul (key : SigverifyRsaKey) (x : List Word) {y : List Word}
    (hy : y.length = kSigVerifyRsaNumWords) (i : ℕ) :
    ((x.take i).foldl (montMulDigit key y) (List.replicate kSigVerifyRsaNumWords 0)).length =
      kSigVerifyRsaNumWords :=
  length_montMul key (x.take i) hy

/-- `mont_mul` stays below `R` and is `x * y / R` modulo `n`; no sum in its loops overflows, and
the carry out of each pass is a bit. -/
theorem mont_mul_invariant (key : SigverifyRsaKey) (hkey : key.WellFormed) (x y : List Word)
    (hx : x.length = kSigVerifyRsaNumWords) (hy : y.length = kSigVerifyRsaNumWords) :
    (montMul key x y).length = kSigVerifyRsaNumWords ∧
    Limbs.value (montMul key x y) < rsaRadix ∧
    (∃ rInv, rsaRadix * rInv ≡ 1 [MOD key.n.value] ∧
      Limbs.value (montMul key x y) ≡ Limbs.value x * Limbs.value y * rInv [MOD key.n.value]) ∧
    ∀ i xi, x[i]? = some xi →
      let result := (x.take i).foldl (montMulDigit key y) (List.replicate kSigVerifyRsaNumWords 0)
      (∀ sum ∈ (montMulDigitSums key y result xi).1, sum < 2 ^ 64) ∧
        (montMulDigitSums key y result xi).2 ≤ 1 := by
  have hlen := length_montMul key x hy
  refine ⟨hlen, value_lt_rsaRadix hlen, ?_, fun i xi _ => ?_⟩
  · have htwo : 2 ≤ rsaRadix := Nat.le_self_pow (by decide) (2 ^ 32) |>.trans' (by norm_num)
    have hmodulus : 1 < key.n.value := by
      have hfull := hkey.full
      have hodd := hkey.odd
      omega
    obtain ⟨rInv, -, hrInv⟩ :=
      Nat.exists_mul_mod_eq_one_of_coprime hkey.coprime.symm hmodulus
    have hone : rsaRadix * rInv ≡ 1 [MOD key.n.value] := by
      rw [Nat.ModEq, hrInv, Nat.mod_eq_of_lt hmodulus]
    refine ⟨rInv, hone, ?_⟩
    calc Limbs.value (montMul key x y) = Limbs.value (montMul key x y) * 1 := (Nat.mul_one _).symm
      _ ≡ Limbs.value (montMul key x y) * (rsaRadix * rInv) [MOD key.n.value] :=
          hone.symm.mul_left _
      _ = rsaRadix * Limbs.value (montMul key x y) * rInv := by ring
      _ ≡ Limbs.value x * Limbs.value y * rInv [MOD key.n.value] :=
          (montMul_modEq hkey hx hy).mul_right _
  · exact montMulDigitSums_bounds key hkey.inv hy (length_take_montMul key x hy i) xi

/-- The word list `a` holds the Montgomery form of `v`. -/
structure InForm (key : SigverifyRsaKey) (v : ℕ) (a : List Word) : Prop where
  length : a.length = kSigVerifyRsaNumWords
  form : Montgomery.Form key.n.value rsaRadix v (Limbs.value a)

theorem InForm.montMul {key : SigverifyRsaKey} (hkey : key.WellFormed) {u v : ℕ} {a c : List Word}
    (ha : InForm key u a) (hc : InForm key v c) : InForm key (u * v) (montMul key a c) where
  length := length_montMul key a hc.length
  form := ha.form.mul hkey.coprime hc.form (montMul_modEq hkey ha.length hc.length)

/-- `k` double squarings raise to the power `4 ^ k`. -/
theorem InForm.squareTwice {key : SigverifyRsaKey} (hkey : key.WellFormed) (k : ℕ) {u : ℕ}
    {a : List Word} (ha : InForm key u a) : InForm key (u ^ 4 ^ k) (squareTwice key k a) := by
  induction k generalizing u a with
  | zero => simpa [SecureBoot.squareTwice] using ha
  | succ k ih =>
    have h := ih ((ha.montMul hkey ha).montMul hkey (ha.montMul hkey ha))
    have hexp : u ^ 4 ^ (k + 1) = (u * u * (u * u)) ^ 4 ^ k := by
      rw [pow_succ' 4 k, pow_mul]
      congr 1
      ring
    rwa [hexp]

/-! ### `R ^ 2` modulo the modulus -/

/-- With `buf` below `2 * n` the `while` loop of `calc_r_square` ends after one
subtraction at most and leaves the residue. -/
theorem reduceModulus_spec {key : SigverifyRsaKey} (hkey : key.WellFormed) {fuel : ℕ}
    (hfuel : 2 ≤ fuel) (msb : Word) {buf : List Word} (hlen : buf.length = kSigVerifyRsaNumWords)
    (hlt : Limbs.value buf + rsaRadix * msb.toNat < 2 * key.n.value) :
    ∃ out, reduceModulus key fuel msb buf = some out ∧ out.length = kSigVerifyRsaNumWords ∧
      Limbs.value out < key.n.value ∧
      Limbs.value out ≡ Limbs.value buf + rsaRadix * msb.toNat [MOD key.n.value] := by
  have hexit : ∀ (fuel : ℕ) (a : List Word), a.length = kSigVerifyRsaNumWords →
      Limbs.value a < key.n.value → reduceModulus key (fuel + 1) 0 a = some a := by
    intro fuel a ha hval
    have hge : greaterEqualModulus key a = false := by
      rw [← Bool.not_eq_true, greaterEqualModulus_iff key ha]
      omega
    simp [reduceModulus, hge]
  obtain ⟨fuel, rfl⟩ : ∃ f, fuel = f + 1 + 1 := ⟨fuel - 2, by omega⟩
  have hfull := hkey.full
  have hnlt := key.n.value_lt
  have hmsb : msb.toNat ≤ 1 := by
    by_contra hgt
    have := Nat.mul_le_mul_left rsaRadix (show 2 ≤ msb.toNat by omega)
    omega
  by_cases hval : Limbs.value buf + rsaRadix * msb.toNat < key.n.value
  · have hzero : msb = 0 := by
      refine BitVec.eq_of_toNat_eq ?_
      rcases Nat.le_one_iff_eq_zero_or_eq_one.1 hmsb with h | h
      · simpa using h
      · rw [h] at hval
        omega
    subst hzero
    have hbuf : Limbs.value buf < key.n.value := by omega
    exact ⟨buf, hexit _ buf hlen hbuf, hlen, hbuf, by simp [Nat.ModEq]⟩
  · obtain ⟨hsub, hborrow⟩ := subtractModulus_spec key hlen
    have hout := length_subtractModulus key hlen
    have houtlt := value_lt_rsaRadix hout
    have hbuflt := value_lt_rsaRadix hlen
    have hcond : (decide (msb > 0) || greaterEqualModulus key buf) = true := by
      rw [Bool.or_eq_true, greaterEqualModulus_iff key hlen, decide_eq_true_eq, gt_iff_lt,
        BitVec.lt_def]
      rcases Nat.le_one_iff_eq_zero_or_eq_one.1 hmsb with h | h
      · rw [h] at hval
        exact Or.inr (by omega)
      · exact Or.inl (by simp [h])
    have hsame : (subtractModulus key buf).2 = msb := by
      refine BitVec.eq_of_toNat_eq ?_
      rcases Nat.le_one_iff_eq_zero_or_eq_one.1 hmsb with h | h <;>
        rcases Nat.le_one_iff_eq_zero_or_eq_one.1 hborrow with h' | h' <;>
        rw [h] at hlt hval <;> rw [h'] at hsub <;> omega
    rw [hsame] at hsub
    have hred : Limbs.value (subtractModulus key buf).1 < key.n.value := by omega
    refine ⟨(subtractModulus key buf).1, ?_, hout, hred, ?_⟩
    · rw [reduceModulus, if_pos hcond]
      simp only [hsame, BitVec.sub_self]
      exact hexit _ _ hout hred
    · rw [← hsub]
      simp [Nat.ModEq]

theorem doubleModulus_spec {key : SigverifyRsaKey} (hkey : key.WellFormed) {fuel : ℕ}
    (hfuel : 2 ≤ fuel) (i : ℕ) {buf : List Word} (hlen : buf.length = kSigVerifyRsaNumWords)
    (hlt : Limbs.value buf < key.n.value) :
    ∃ out, doubleModulus key fuel i buf = some out ∧ out.length = kSigVerifyRsaNumWords ∧
      Limbs.value out ≡ 2 ^ i * Limbs.value buf [MOD key.n.value] := by
  induction i generalizing buf with
  | zero => exact ⟨buf, rfl, hlen, by simp [Nat.ModEq]⟩
  | succ i ih =>
    have hshift := shiftLeft_spec hlen
    obtain ⟨mid, hmid, hmidlen, hmidlt, hmidmod⟩ := reduceModulus_spec hkey hfuel
      (shiftLeft buf).2 (length_shiftLeft hlen) (by rw [hshift]; omega)
    obtain ⟨out, hout, houtlen, houtmod⟩ := ih hmidlen hmidlt
    refine ⟨out, ?_, houtlen, ?_⟩
    · simp [doubleModulus, hmid, hout]
    · rw [hshift] at hmidmod
      calc Limbs.value out ≡ 2 ^ i * Limbs.value mid [MOD key.n.value] := houtmod
        _ ≡ 2 ^ i * (2 * Limbs.value buf) [MOD key.n.value] := hmidmod.mul_left _
        _ = 2 ^ (i + 1) * Limbs.value buf := by ring

/-- `calc_r_square` holds `R ^ 2` modulo `n`. -/
theorem calcRSquare_spec {key : SigverifyRsaKey} (hkey : key.WellFormed) {fuel : ℕ}
    (hfuel : 2 ≤ fuel) :
    ∃ out, calcRSquare key fuel = some out ∧ InForm key rsaRadix out := by
  have hzlen : (List.replicate kSigVerifyRsaNumWords (0 : Word)).length =
      kSigVerifyRsaNumWords := List.length_replicate
  have hz : Limbs.value (List.replicate kSigVerifyRsaNumWords (0 : Word)) = 0 :=
    Limbs.value_replicate_zero _
  have hinit := length_subtractModulus key hzlen
  obtain ⟨hsub, hborrow⟩ := subtractModulus_spec key hzlen
  have hfull := hkey.full
  have hnlt := key.n.value_lt
  rw [hz, Nat.zero_add] at hsub
  -- the first subtraction leaves `R - n`
  have hsum : Limbs.value (subtractModulus key (List.replicate kSigVerifyRsaNumWords 0)).1 +
      key.n.value = rsaRadix := by
    rcases Nat.le_one_iff_eq_zero_or_eq_one.1 hborrow with h | h
    · rw [h] at hsub
      omega
    · rw [h] at hsub
      omega
  obtain ⟨buf, hbuf, hlen, hmod⟩ := doubleModulus_spec hkey hfuel 96 hinit (by omega)
  have hform : InForm key (2 ^ 96) buf := by
    refine ⟨hlen, hmod.trans ?_⟩
    rw [← hsum]
    simp [Nat.ModEq, Nat.mul_add]
  have hsquare := (hform.montMul hkey hform).squareTwice hkey 2
  refine ⟨_, by rw [calcRSquare, hbuf]; rfl, ?_⟩
  have hexp : (2 ^ 96 * 2 ^ 96) ^ 4 ^ 2 = rsaRadix := by
    rw [← pow_add, ← pow_mul, rsaRadix, ← pow_mul,
      show (96 + 96) * 4 ^ 2 = 32 * kSigVerifyRsaNumWords from rfl]
  rwa [hexp] at hsquare

/-! ### The exponentiation -/

theorem length_reduceModulus (key : SigverifyRsaKey) (fuel : ℕ) (msb : Word) {buf out : List Word}
    (hlen : buf.length = kSigVerifyRsaNumWords)
    (hout : reduceModulus key fuel msb buf = some out) : out.length = kSigVerifyRsaNumWords := by
  induction fuel generalizing msb buf with
  | zero => cases hout
  | succ fuel ih =>
    rw [reduceModulus] at hout
    split_ifs at hout
    · exact ih _ (length_subtractModulus key hlen) hout
    · rwa [← Option.some.inj hout]

theorem length_doubleModulus (key : SigverifyRsaKey) (fuel i : ℕ) {buf out : List Word}
    (hlen : buf.length = kSigVerifyRsaNumWords)
    (hout : doubleModulus key fuel i buf = some out) : out.length = kSigVerifyRsaNumWords := by
  induction i generalizing buf with
  | zero => rwa [← Option.some.inj hout]
  | succ i ih =>
    rw [doubleModulus] at hout
    obtain ⟨mid, hmid, hrest⟩ := Option.bind_eq_some_iff.1 hout
    exact ih (length_reduceModulus key fuel _ (length_shiftLeft hlen) hmid) hrest

theorem length_modExpWords (key : SigverifyRsaKey) (fuel : ℕ) {sig out : List Word}
    (hsig : sig.length = kSigVerifyRsaNumWords) (hout : modExpWords key fuel sig = some out) :
    out.length = kSigVerifyRsaNumWords := by
  obtain ⟨rSquare, hr, rfl⟩ := Option.map_eq_some_iff.1 hout
  obtain ⟨buf, hbuf, rfl⟩ := Option.map_eq_some_iff.1 hr
  have hbuflen := length_doubleModulus key fuel 96
    (length_subtractModulus key List.length_replicate) hbuf
  simp only
  split_ifs
  · exact length_subtractModulus key (length_montMul key _ hsig)
  · exact length_montMul key _ hsig

/-- `sigverify_mod_exp_ibex`; `none` when the fuel of the inner loop runs out. -/
def sigverifyModExpIbex (fuel : ℕ) (key : SigverifyRsaKey) (sig : SigverifyRsaBuffer) :
    Option (Except RomError SigverifyRsaBuffer) :=
  if greaterEqualModulus key sig.toList then some (.error kErrorSigverifyBadSignature)
  else (modExpWords key fuel sig.toList).pmap (fun ws h => .ok (.ofList ws h))
    fun _ h => length_modExpWords key fuel sig.length_toList h

/-- The last comparison and subtraction turn a lazily reduced result into the
least residue, as `R` is below twice the modulus. -/
theorem value_reduceOnce {key : SigverifyRsaKey} (hkey : key.WellFormed) {a : List Word}
    (ha : a.length = kSigVerifyRsaNumWords) :
    Limbs.value (if greaterEqualModulus key a then (subtractModulus key a).1 else a) =
      Limbs.value a % key.n.value := by
  have hlt := value_lt_rsaRadix ha
  have hfull := hkey.full
  by_cases hge : greaterEqualModulus key a = true
  · obtain ⟨hsub, hborrow⟩ := subtractModulus_spec key ha
    have hout := value_lt_rsaRadix (length_subtractModulus key ha)
    have hle := (greaterEqualModulus_iff key ha).1 hge
    have hzero : (subtractModulus key a).2.toNat = 0 := by
      by_contra h
      rw [show (subtractModulus key a).2.toNat = 1 by omega] at hsub
      omega
    rw [hzero, Nat.mul_zero, Nat.add_zero] at hsub
    rw [if_pos hge, ← hsub, Nat.add_mod_right, Nat.mod_eq_of_lt (by omega)]
  · have hlt := mt (greaterEqualModulus_iff key ha).2 hge
    rw [if_neg hge, Nat.mod_eq_of_lt (Nat.not_le.1 hlt)]

theorem modExpWords_spec {key : SigverifyRsaKey} (hkey : key.WellFormed) {fuel : ℕ}
    (hfuel : 2 ≤ fuel) {sig : List Word} (hlen : sig.length = kSigVerifyRsaNumWords) :
    ∃ out, modExpWords key fuel sig = some out ∧
      Limbs.value out = Limbs.value sig ^ 65537 % key.n.value := by
  obtain ⟨rSquare, hr, hform⟩ := calcRSquare_spec hkey hfuel
  have hbuf : InForm key (Limbs.value sig) (montMul key sig rSquare) :=
    ⟨length_montMul key sig hform.length,
      hform.form.mul_in hkey.coprime (montMul_modEq hkey hlen hform.length)⟩
  have hpow := hbuf.squareTwice hkey 8
  have hres := hpow.form.mul_out hkey.coprime (montMul_modEq hkey hpow.length hlen)
  rw [← pow_succ] at hres
  refine ⟨_, by rw [modExpWords, hr, Option.map_some], ?_⟩
  exact (value_reduceOnce hkey (length_montMul key _ hlen)).trans hres

/-- The exponentiation is exact: the least residue of `sig ^ 65537` for a
signature below the modulus, `kErrorSigverifyBadSignature` for any other. -/
theorem sigverifyModExpIbex_exact (key : SigverifyRsaKey) (hkey : key.WellFormed)
    (sig : SigverifyRsaBuffer) (fuel : ℕ) (hfuel : 2 ≤ fuel) :
    (sig.value < key.n.value → ∃ result, sigverifyModExpIbex fuel key sig = some (.ok result) ∧
      result.value = sig.value ^ 65537 % key.n.value) ∧
    (key.n.value ≤ sig.value →
      sigverifyModExpIbex fuel key sig = some (.error kErrorSigverifyBadSignature)) := by
  constructor
  · intro hlt
    have hge : ¬ greaterEqualModulus key sig.toList = true := fun h =>
      Nat.not_le.2 hlt ((greaterEqualModulus_iff key sig.length_toList).1 h)
    obtain ⟨out, hout, hval⟩ := modExpWords_spec hkey hfuel sig.length_toList
    have hlen := length_modExpWords key fuel sig.length_toList hout
    refine ⟨.ofList out hlen, ?_, ?_⟩
    · rw [sigverifyModExpIbex, if_neg hge]
      simp only [hout, Option.pmap_some]
    · rw [SigverifyRsaBuffer.value, SigverifyRsaBuffer.toList_ofList, hval]
      rfl
  · intro hle
    rw [sigverifyModExpIbex, if_pos ((greaterEqualModulus_iff key sig.length_toList).2 hle)]

/-- The largest modulus, `R - 1`. -/
def maxModulusKey : SigverifyRsaKey := ⟨.replicate _ 0xffffffff, .replicate _ 1⟩

theorem maxModulusKey_wellFormed : maxModulusKey.WellFormed := by
  constructor <;> decide +kernel

theorem mont_mul_invariant_maxModulusKey :
    let one := List.replicate kSigVerifyRsaNumWords (1 : Word)
    Limbs.value (montMul maxModulusKey one one) < rsaRadix ∧
      (montMulDigitSums maxModulusKey one (.replicate kSigVerifyRsaNumWords 0) 1).2 ≤ 1 := by
  intro one
  obtain ⟨-, hlt, -, hpass⟩ := mont_mul_invariant maxModulusKey maxModulusKey_wellFormed one one
    List.length_replicate List.length_replicate
  exact ⟨hlt, (hpass 0 1 (by simp [one])).2⟩

theorem sigverifyModExpIbex_exact_maxModulusKey :
    ∃ result, sigverifyModExpIbex 2 maxModulusKey (.replicate _ 1) = some (.ok result) ∧
      result.value = SigverifyRsaBuffer.value (.replicate _ 1) ^ 65537 % maxModulusKey.n.value :=
  (sigverifyModExpIbex_exact maxModulusKey maxModulusKey_wellFormed (.replicate _ 1) 2
    le_rfl).1 (by decide +kernel)

/-- A signature that is too large is reported as a bad signature and with no other code. -/
theorem sigverifyModExpIbex_tooLarge :
    maxModulusKey.WellFormed ∧
      ¬ ∃ e, e ≠ kErrorSigverifyBadSignature ∧
        sigverifyModExpIbex 2 maxModulusKey maxModulusKey.n = some (.error e) := by
  refine ⟨maxModulusKey_wellFormed, ?_⟩
  rintro ⟨e, hne, he⟩
  rw [sigverifyModExpIbex,
    if_pos ((greaterEqualModulus_iff _ maxModulusKey.n.length_toList).2 le_rfl)] at he
  exact hne (Except.error.inj (Option.some.inj he)).symm

end SecureBoot
