import SecureBoot.Lib.Bits

/-! Loops that build a word piece by piece: a number by `|=` of shifted pieces, a packed
vector by assignments to its bits or slices. Where no two pieces overlap, each bit of
the result is the bit of one piece, and both loops build the same word. -/

namespace Bits

variable {w n : ℕ}

/-! ### Single bits -/

/-- `x |= bit << i` for the pairs of `i` and `bit` in order. -/
def orBits (x : ℕ) (l : List (ℕ × Bool)) : ℕ := l.foldl (fun r p => r ||| p.2.toNat <<< p.1) x

/-- `x[i] = bit` for the pairs of `i` and `bit` in order. -/
def setBits (x : BitVec w) (l : List (ℕ × Bool)) : BitVec w :=
  l.foldl (fun r p => setBit r p.1 p.2) x

/-- No bit is given two values. -/
def Functional (l : List (ℕ × Bool)) : Prop := ∀ i b b', (i, b) ∈ l → (i, b') ∈ l → b = b'

theorem Functional.tail {p : ℕ × Bool} {l : List (ℕ × Bool)} (h : Functional (p :: l)) :
    Functional l :=
  fun i b b' hb hb' => h i b b' (List.mem_cons_of_mem p hb) (List.mem_cons_of_mem p hb')

theorem testBit_toNat_shiftLeft (b : Bool) (i j : ℕ) :
    (b.toNat <<< i).testBit j = (decide (j = i) && b) := by
  rw [Nat.testBit_shiftLeft]
  cases b with
  | false => simp
  | true =>
    rw [Bool.toNat_true, Bool.and_true, Bool.eq_iff_iff, Bool.and_eq_true,
      Nat.testBit_one_eq_true_iff_self_eq_zero, decide_eq_true_eq, decide_eq_true_eq]
    omega

theorem testBit_orBits (x : ℕ) (l : List (ℕ × Bool)) (j : ℕ) :
    (orBits x l).testBit j = true ↔ x.testBit j = true ∨ (j, true) ∈ l := by
  unfold orBits
  induction l generalizing x with
  | nil => simp
  | cons p l ih =>
    obtain ⟨i, b⟩ := p
    rw [List.foldl_cons, ih, Nat.testBit_or, testBit_toNat_shiftLeft]
    simp only [Bool.or_eq_true, Bool.and_eq_true, decide_eq_true_eq, List.mem_cons, Prod.mk.injEq]
    rw [or_assoc, eq_comm (a := b)]

theorem getLsbD_setBits_of_notMem {x : BitVec w} {l : List (ℕ × Bool)} {j : ℕ}
    (h : ∀ b, (j, b) ∉ l) : (setBits x l).getLsbD j = x.getLsbD j := by
  unfold setBits
  induction l generalizing x with
  | nil => rfl
  | cons p l ih =>
    have hne : ¬(j = p.1 ∧ p.1 < w) := by
      rintro ⟨rfl, -⟩
      exact h p.2 List.mem_cons_self
    rw [List.foldl_cons, ih fun b hb => h b (List.mem_cons_of_mem p hb), getLsbD_setBit, if_neg hne]

theorem getLsbD_setBits_of_mem {x : BitVec w} {l : List (ℕ × Bool)} (hfun : Functional l)
    {j : ℕ} (hj : j < w) {b : Bool} (h : (j, b) ∈ l) : (setBits x l).getLsbD j = b := by
  induction l generalizing x with
  | nil => exact absurd h List.not_mem_nil
  | cons p l ih =>
    rw [setBits, List.foldl_cons, ← setBits]
    by_cases hl : ∃ c, (j, c) ∈ l
    · obtain ⟨c, hc⟩ := hl
      rw [ih hfun.tail (hfun j c b (List.mem_cons_of_mem p hc) h ▸ hc)]
    · obtain rfl | hmem := List.mem_cons.mp h
      · rw [getLsbD_setBits_of_notMem fun c hc => hl ⟨c, hc⟩, getLsbD_setBit, if_pos ⟨rfl, hj⟩]
      · exact absurd ⟨b, hmem⟩ hl

/-- Both loops build the same word, when the number has zeros where bits are set and
agrees with the vector elsewhere. -/
theorem orBits_eq_toNat_setBits {x : BitVec w} {y : ℕ} {l : List (ℕ × Bool)}
    (hfun : Functional l) (hlt : ∀ p ∈ l, p.1 < w)
    (hset : ∀ p ∈ l, y.testBit p.1 = false)
    (hrest : ∀ j, (∀ b, (j, b) ∉ l) → y.testBit j = x.getLsbD j) :
    orBits y l = (setBits x l).toNat := by
  apply Nat.eq_of_testBit_eq
  intro j
  rw [Bool.eq_iff_iff, testBit_orBits]
  by_cases hl : ∃ c, (j, c) ∈ l
  · obtain ⟨c, hc⟩ := hl
    rw [hset _ hc, BitVec.testBit_toNat, getLsbD_setBits_of_mem hfun (hlt _ hc) hc]
    constructor
    · rintro (h | h)
      · exact absurd h Bool.false_ne_true
      · exact hfun j c true hc h
    · rintro rfl
      exact .inr hc
  · have hnot : ∀ b, (j, b) ∉ l := fun b hb => hl ⟨b, hb⟩
    rw [hrest j hnot, BitVec.testBit_toNat, getLsbD_setBits_of_notMem hnot]
    exact or_iff_left (hnot true)

/-! ### Slices -/

/-- `x[lsb +: m] = v`. -/
def setSlice {m : ℕ} (x : BitVec w) (lsb : ℕ) (v : BitVec m) : BitVec w :=
  ofBits w fun j => if lsb ≤ j ∧ j < lsb + m then v.getLsbD (j - lsb) else x.getLsbD j

theorem getLsbD_setSlice {m : ℕ} (x : BitVec w) (lsb : ℕ) (v : BitVec m) {j : ℕ} (hj : j < w) :
    (setSlice x lsb v).getLsbD j =
      if lsb ≤ j ∧ j < lsb + m then v.getLsbD (j - lsb) else x.getLsbD j :=
  getLsbD_ofBits hj

/-- Assignments to slices of one width, from the lowest on. -/
theorem getLsbD_foldl_setSlice {m : ℕ} (f : ℕ → BitVec m) (x : BitVec w) {j : ℕ} (hj : j < w) :
    ((List.range n).foldl (fun r i => setSlice r (m * i) (f i)) x).getLsbD j =
      if j < m * n then (f (j / m)).getLsbD (j % m) else x.getLsbD j := by
  induction n with
  | zero => simp
  | succ n ih =>
    rw [List.range_succ, List.foldl_append, List.foldl_cons, List.foldl_nil,
      getLsbD_setSlice _ _ _ hj, ih, Nat.mul_succ]
    by_cases hlow : j < m * n
    · rw [if_neg (by omega), if_pos hlow, if_pos (by omega)]
    · by_cases hslice : j < m * n + m
      · have hdiv : j / m = n := Nat.div_eq_of_lt_le (by rw [Nat.mul_comm]; omega)
          (by rw [Nat.mul_comm, Nat.mul_succ]; omega)
        have hmod := Nat.div_add_mod j m
        rw [hdiv] at hmod
        rw [if_pos ⟨by omega, hslice⟩, if_pos hslice, hdiv, show j % m = j - m * n by omega]
      · rw [if_neg (by omega), if_neg hlow, if_neg hslice]

/-- A slice that is not assigned yet still has its value, so that a substitution in place
is one from the value before the loop. -/
theorem foldl_setSlice_inPlace {m : ℕ} (g : BitVec m → BitVec m) (x : BitVec w) (hle : m * n ≤ w) :
    (List.range n).foldl (fun r i => setSlice r (m * i) (g (r.extractLsb' (m * i) m))) x =
      (List.range n).foldl (fun r i => setSlice r (m * i) (g (x.extractLsb' (m * i) m))) x := by
  induction n with
  | zero => rfl
  | succ n ih =>
    rw [Nat.mul_succ] at hle
    rw [List.range_succ, List.foldl_append, List.foldl_append, ih (by omega)]
    have hslice : ((List.range n).foldl (fun r i => setSlice r (m * i)
        (g (x.extractLsb' (m * i) m))) x).extractLsb' (m * n) m = x.extractLsb' (m * n) m := by
      apply BitVec.eq_of_getLsbD_eq
      intro i hi
      rw [BitVec.getLsbD_extractLsb', BitVec.getLsbD_extractLsb',
        getLsbD_foldl_setSlice (fun i => g (x.extractLsb' (m * i) m)) x (by omega), if_neg (by omega)]
    simp only [List.foldl_cons, List.foldl_nil, hslice]

theorem testBit_foldl_or_shiftLeft {m : ℕ} (f : ℕ → ℕ) (hf : ∀ i < n, f i < 2 ^ m) (y j : ℕ) :
    ((List.range n).foldl (fun r i => r ||| f i <<< (m * i)) y).testBit j =
      (y.testBit j || decide (j < m * n) && (f (j / m)).testBit (j % m)) := by
  induction n with
  | zero => simp
  | succ n ih =>
    rw [List.range_succ, List.foldl_append, List.foldl_cons, List.foldl_nil, Nat.testBit_or,
      ih fun i hi => hf i (by omega), Nat.testBit_shiftLeft, Nat.mul_succ]
    by_cases hlow : j < m * n
    · rw [decide_eq_true hlow, decide_eq_true (show j < m * n + m by omega),
        decide_eq_false (show ¬j ≥ m * n by omega), Bool.false_and, Bool.or_false]
    · rw [decide_eq_false hlow, Bool.false_and, Bool.or_false, decide_eq_true (show j ≥ m * n by omega),
        Bool.true_and]
      by_cases hslice : j < m * n + m
      · have hdiv : j / m = n := Nat.div_eq_of_lt_le (by rw [Nat.mul_comm]; omega)
          (by rw [Nat.mul_comm, Nat.mul_succ]; omega)
        have hmod := Nat.div_add_mod j m
        rw [hdiv] at hmod
        rw [decide_eq_true hslice, Bool.true_and, hdiv, show j % m = j - m * n by omega]
      · have hzero : (f n).testBit (j - m * n) = false :=
          Nat.testBit_lt_two_pow ((hf n (by omega)).trans_le
            (Nat.pow_le_pow_right (by omega) (by omega)))
        rw [decide_eq_false hslice, Bool.false_and, hzero]

/-- Both loops build the same word, when the number has zeros below the last slice and
agrees with the vector above it. -/
theorem foldl_or_eq_toNat_foldl_setSlice {m : ℕ} {f : ℕ → ℕ} {g : ℕ → BitVec m} {x : BitVec w} {y : ℕ}
    (hle : m * n ≤ w) (hfg : ∀ i < n, f i = (g i).toNat)
    (hset : ∀ j < m * n, y.testBit j = false)
    (hrest : ∀ j, m * n ≤ j → y.testBit j = x.getLsbD j) :
    (List.range n).foldl (fun r i => r ||| f i <<< (m * i)) y =
      ((List.range n).foldl (fun r i => setSlice r (m * i) (g i)) x).toNat := by
  apply Nat.eq_of_testBit_eq
  intro j
  rw [testBit_foldl_or_shiftLeft f (fun i hi => hfg i hi ▸ (g i).isLt), BitVec.testBit_toNat]
  by_cases hlow : j < m * n
  · have hdiv : j / m < n := Nat.div_lt_of_lt_mul hlow
    rw [getLsbD_foldl_setSlice g x (by omega), if_pos hlow, hset j hlow, hfg _ hdiv,
      decide_eq_true hlow, Bool.false_or, Bool.true_and]
    rfl
  · rw [decide_eq_false hlow, Bool.false_and, Bool.or_false, hrest j (by omega)]
    by_cases hj : j < w
    · rw [getLsbD_foldl_setSlice g x hj, if_neg hlow]
    · rw [BitVec.getLsbD_of_ge _ j (by omega), BitVec.getLsbD_of_ge _ j (by omega)]

/-! ### Sums -/

/-- Adding a shifted bit where the sum has a zero is an or. -/
theorem add_shiftLeft_eq_or {x i : ℕ} (b : Bool) (hx : x.testBit i = false) :
    x + b.toNat <<< i = x ||| b.toNat <<< i := by
  cases b with
  | false => simp
  | true =>
    apply Nat.eq_of_testBit_eq
    intro j
    rw [Nat.testBit_or, testBit_toNat_shiftLeft, Bool.toNat_true, Nat.one_shiftLeft,
      testBit_add_two_pow hx, Bool.and_true]

/-- A sum of shifted bits sets each of them, when no two have one place. -/
theorem foldl_add_eq_orBits {p : ℕ → ℕ} (x : ℕ → Bool) (hp : ∀ i < n, ∀ j < n, p i = p j → i = j) :
    (List.range n).foldl (fun r i => r + (x i).toNat <<< p i) 0 =
      orBits 0 ((List.range n).map fun i => (p i, x i)) := by
  induction n with
  | zero => rfl
  | succ n ih =>
    have hclear : (orBits 0 ((List.range n).map fun i => (p i, x i))).testBit (p n) = false := by
      by_contra hset
      rw [Bool.not_eq_false, testBit_orBits, Nat.zero_testBit] at hset
      obtain ⟨i, hi, heq⟩ := List.mem_map.mp (hset.resolve_left Bool.false_ne_true)
      rw [List.mem_range] at hi
      exact Nat.ne_of_lt hi (hp i (by omega) n (by omega) (congrArg Prod.fst heq))
    rw [List.range_succ, List.foldl_append, List.map_append, ih fun i hi j hj => hp i (by omega) j
      (by omega), List.foldl_cons, List.foldl_nil, add_shiftLeft_eq_or _ hclear, orBits, orBits,
      List.foldl_append]
    rfl

/-- A sum of shifted slices is their or. -/
theorem foldl_add_eq_foldl_or {m : ℕ} {f : ℕ → ℕ} (hf : ∀ i < n, f i < 2 ^ m) :
    (List.range n).foldl (fun r i => r + f i <<< (m * i)) 0 =
      (List.range n).foldl (fun r i => r ||| f i <<< (m * i)) 0 := by
  have hloop : (List.range n).foldl (fun r i => r + f i <<< (m * i)) 0 =
      (List.range n).foldl (fun r i => r ||| f i <<< (m * i)) 0 ∧
        (List.range n).foldl (fun r i => r + f i <<< (m * i)) 0 < 2 ^ (m * n) := by
    induction n with
    | zero => exact ⟨rfl, Nat.two_pow_pos _⟩
    | succ n ih =>
      obtain ⟨heq, hlt⟩ := ih fun i hi => hf i (by omega)
      have hn := hf n (by omega)
      simp only [List.range_succ, List.foldl_append, List.foldl_cons, List.foldl_nil]
      constructor
      · rw [← heq, Nat.shiftLeft_eq, Nat.mul_comm (f n), Nat.add_comm,
          Nat.two_pow_add_eq_or_of_lt hlt, Nat.or_comm]
      · rw [Nat.shiftLeft_eq, Nat.mul_succ, Nat.pow_add]
        calc _ < 2 ^ (m * n) + f n * 2 ^ (m * n) := Nat.add_lt_add_right hlt _
          _ = (f n + 1) * 2 ^ (m * n) := by rw [Nat.succ_mul, Nat.add_comm]
          _ ≤ 2 ^ m * 2 ^ (m * n) := Nat.mul_le_mul_right _ hn
          _ = _ := Nat.mul_comm _ _
  exact hloop.1

/-! ### Masks -/

/-- `a & ~b`. -/
def andNot (a b : ℕ) : ℕ := a ^^^ (a &&& b)

theorem testBit_andNot (a b j : ℕ) : (andNot a b).testBit j = (a.testBit j && !b.testBit j) := by
  rw [andNot, Nat.testBit_xor, Nat.testBit_and]
  cases a.testBit j <;> cases b.testBit j <;> rfl

/-- `(1 << w) - 1`. -/
def onesMask (w : ℕ) : ℕ := (1 <<< w) - 1

theorem testBit_onesMask (w j : ℕ) : (onesMask w).testBit j = decide (j < w) := by
  rw [onesMask, Nat.one_shiftLeft, Nat.testBit_two_pow_sub_one]

end Bits
