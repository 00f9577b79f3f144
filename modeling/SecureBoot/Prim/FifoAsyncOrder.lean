import SecureBoot.Prim.FifoAsync

/-! The FIFO delivers what it accepts, in order. A pointer counts the words modulo twice
the depth, its conversions are the reflected Gray code and its inverse for every depth,
and what a side knows of the other side's pointer is a value that the pointer had. -/

namespace SecureBoot

open Bits Parity Gray Clocked

/-! ### The conversions -/

section Conversion

variable {k : ℕ}

theorem fifoPtrWidth_two_pow (k : ℕ) : fifoPtrWidth (2 ^ k) = k + 1 := by
  unfold fifoPtrWidth fifoPtrvW
  split_ifs with h
  · rw [Nat.pow_eq_one] at h
    omega
  · rw [Nat.clog_pow 2 k (by omega)]

/-- `Depth - y - 1` complements the bits of the place in the storage. -/
theorem getLsbD_mirror {y : BitVec (k + 1)} (hy : y.getLsbD k = false) (i : ℕ) :
    (BitVec.ofNat (k + 1) (2 ^ k) - y - 1#(k + 1)).getLsbD i = (decide (i < k) && !y.getLsbD i) := by
  have hlt : y.toNat < 2 ^ k := by
    apply Nat.lt_pow_two_of_testBit
    intro j hj
    obtain rfl | hj := hj.eq_or_lt
    · exact hy
    · exact BitVec.getLsbD_of_ge y j (by omega)
  have hpow : 2 ^ (k + 1) = 2 * 2 ^ k := pow_succ' 2 k
  have htoNat : (BitVec.ofNat (k + 1) (2 ^ k) - y - 1#(k + 1)).toNat = 2 ^ k - (y.toNat + 1) := by
    simp only [BitVec.toNat_sub, BitVec.toNat_ofNat]
    rw [Nat.mod_eq_of_lt (show 2 ^ k < 2 ^ (k + 1) by omega), Nat.mod_eq_of_lt (show 1 < 2 ^ (k + 1) by omega),
      show 2 ^ (k + 1) - y.toNat + 2 ^ k = 2 ^ (k + 1) + (2 ^ k - y.toNat) by omega,
      Nat.add_mod_left, Nat.mod_eq_of_lt (show 2 ^ k - y.toNat < 2 ^ (k + 1) by omega),
      show 2 ^ (k + 1) - 1 + (2 ^ k - y.toNat) = 2 ^ (k + 1) + (2 ^ k - (y.toNat + 1)) by omega,
      Nat.add_mod_left, Nat.mod_eq_of_lt (by omega)]
  rw [BitVec.getLsbD, htoNat, Nat.testBit_two_pow_sub_succ hlt]
  rfl

theorem dec2gray_eq_encode (x : BitVec (k + 1)) : dec2gray (2 ^ k) x = encode x := by
  have hin : ∀ i, (setBit (if x.getLsbD k then
      BitVec.ofNat (k + 1) (2 ^ k) - (x.setWidth (k + 1 - 1)).setWidth (k + 1) - 1#(k + 1)
      else x) k false).getLsbD i = (decide (i < k) && (x.getLsbD k ^^ x.getLsbD i)) := by
    intro i
    have hclear : ((x.setWidth (k + 1 - 1)).setWidth (k + 1)).getLsbD k = false := by simp
    rw [getLsbD_setBit]
    by_cases hik : i = k
    · simp [hik]
    · rw [if_neg (by omega), apply_ite (BitVec.getLsbD · i), getLsbD_mirror hclear]
      by_cases hi : i < k
      · cases hk : x.getLsbD k <;> simp [hi, show i < k + 1 by omega]
      · have hx := BitVec.getLsbD_of_ge x i (by omega)
        cases hk : x.getLsbD k <;> simp [hi, hx]
  apply BitVec.eq_of_getLsbD_eq
  intro i hi
  rw [dec2gray, getLsbD_setBit, getLsbD_encode]
  simp only [Nat.add_sub_cancel]
  by_cases hik : i = k
  · rw [if_pos ⟨hik, by omega⟩, hik, BitVec.getLsbD_of_ge x (k + 1) (by omega), Bool.xor_false]
  · rw [if_neg (by omega), BitVec.getLsbD_xor, BitVec.getLsbD_ushiftRight, Nat.add_comm 1 i, hin, hin]
    by_cases hlast : i + 1 = k
    · rw [hlast]
      cases x.getLsbD i <;> cases x.getLsbD k <;> simp [show i < k by omega]
    · cases x.getLsbD i <;> cases x.getLsbD k <;> cases x.getLsbD (i + 1) <;>
        simp [show i < k by omega, show i + 1 < k by omega]

/-- The loop of `gray2dec` downwards from bit `n`. -/
theorem getLsbD_gray2decLoop {w n : ℕ} (hn : n ≤ w) {t g : BitVec w} {d : ℕ → Bool}
    (ht : ∀ i, n ≤ i → t.getLsbD i = d i) (hd : ∀ i < n, d i = (d (i + 1) ^^ g.getLsbD i)) (i : ℕ) :
    ((List.range n).reverse.foldl
      (fun t i => setBit t i (t.getLsbD (i + 1) ^^ g.getLsbD i)) t).getLsbD i = d i := by
  induction n generalizing t with
  | zero => exact ht i (Nat.zero_le i)
  | succ n ih =>
    rw [List.range_succ, List.reverse_append, List.reverse_singleton, List.singleton_append,
      List.foldl_cons]
    apply ih (by omega)
    · intro j hj
      rw [getLsbD_setBit]
      by_cases hjn : j = n
      · rw [if_pos ⟨hjn, by omega⟩, ht (n + 1) (Nat.le_refl _), hjn, hd n (by omega)]
      · rw [if_neg (by omega), ht j (by omega)]
    · exact fun j hj => hd j (by omega)

theorem gray2dec_encode (x : BitVec (k + 1)) : gray2dec (2 ^ k) (encode x) = x := by
  set decTmp := (List.range k).reverse.foldl
    (fun t i => setBit t i (t.getLsbD (i + 1) ^^ (encode x).getLsbD i)) 0#(k + 1) with hdecTmp
  have hbits : ∀ i, decTmp.getLsbD i = (decide (i < k) && (x.getLsbD k ^^ x.getLsbD i)) := by
    intro i
    apply getLsbD_gray2decLoop (by omega)
    · intro j hj
      simp [show ¬j < k by omega]
    · intro j hj
      rw [getLsbD_encode]
      by_cases hlast : j + 1 = k
      · rw [hlast]
        cases x.getLsbD j <;> cases x.getLsbD k <;> simp [hj]
      · cases x.getLsbD j <;> cases x.getLsbD k <;> cases x.getLsbD (j + 1) <;>
          simp [hj, show j + 1 < k by omega]
  have hclear : decTmp.getLsbD k = false := by
    rw [hbits, decide_eq_false (Nat.lt_irrefl k), Bool.false_and]
  have hmsb : (encode x).getLsbD k = x.getLsbD k := by
    rw [getLsbD_encode, BitVec.getLsbD_of_ge x (k + 1) (by omega), Bool.xor_false]
  apply BitVec.eq_of_getLsbD_eq
  intro i hi
  simp only [gray2dec, Nat.add_sub_cancel, ← hdecTmp, hmsb]
  cases hk : x.getLsbD k with
  | false =>
    rw [if_neg Bool.false_ne_true, hbits, hk, Bool.false_xor]
    by_cases hik : i = k
    · rw [hik, hk, decide_eq_false (Nat.lt_irrefl k), Bool.false_and]
    · simp [show i < k by omega]
  | true =>
    rw [if_pos rfl, getLsbD_setBit]
    by_cases hik : i = k
    · rw [if_pos ⟨hik, by omega⟩, hik, hk]
    · rw [if_neg (by omega), getLsbD_mirror hclear, hbits, hk]
      simp [show i < k by omega]

variable {w : ℕ}

/-- The three conversions are one code. -/
theorem fifoGray_eq (hw : w = k + 1) (x : BitVec w) : fifoGray (2 ^ k) x = encode x := by
  subst hw
  unfold fifoGray
  obtain rfl | rfl | hk : k = 0 ∨ k = 1 ∨ 2 ≤ k := by omega
  · revert x
    decide
  · revert x
    decide
  · have : 2 ^ 2 ≤ 2 ^ k := Nat.pow_le_pow_right (by omega) hk
    rw [if_pos (by omega), dec2gray_eq_encode]

theorem fifoSyncCombi_encode (hw : w = k + 1) (x : BitVec w) :
    fifoSyncCombi (2 ^ k) (encode x) = x := by
  subst hw
  unfold fifoSyncCombi
  obtain rfl | rfl | hk : k = 0 ∨ k = 1 ∨ 2 ≤ k := by omega
  · revert x
    decide
  · revert x
    decide
  · have : 2 ^ 2 ≤ 2 ^ k := Nat.pow_le_pow_right (by omega) hk
    rw [if_pos (by omega), gray2dec_encode]

end Conversion

/-! ### Pointers as counts -/

section Count

variable {w k : ℕ}

theorem ofNat_eq_ofNat_iff {a b : ℕ} (hle : a ≤ b) (hlt : b < a + 2 ^ w) :
    BitVec.ofNat w b = BitVec.ofNat w a ↔ b = a := by
  constructor
  · intro h
    have hmod := congrArg BitVec.toNat h
    rw [BitVec.toNat_ofNat, BitVec.toNat_ofNat] at hmod
    have hzero := Nat.sub_mod_eq_zero_of_mod_eq hmod
    rw [Nat.mod_eq_of_lt (by omega)] at hzero
    omega
  · exact congrArg _

theorem xor_fifoXorMask (x : BitVec (k + 1)) :
    x ^^^ fifoXorMask (k + 1) = x + BitVec.twoPow (k + 1) k := by
  have hmask : fifoXorMask (k + 1) = BitVec.twoPow (k + 1) k := rfl
  have hclear : ∀ y : BitVec (k + 1), y.getLsbD k = false →
      y ^^^ BitVec.twoPow (k + 1) k = y + BitVec.twoPow (k + 1) k := by
    intro y hy
    have hand : y &&& BitVec.twoPow (k + 1) k = 0#(k + 1) := by
      rw [BitVec.and_twoPow, hy, if_neg Bool.false_ne_true]
    rw [BitVec.add_eq_or_of_and_eq_zero _ _ hand]
    apply BitVec.eq_of_getLsbD_eq
    intro i hi
    have hbit := congrArg (BitVec.getLsbD · i) hand
    simp only [BitVec.getLsbD_and, BitVec.getLsbD_zero] at hbit
    rw [BitVec.getLsbD_xor, BitVec.getLsbD_or]
    cases hyi : y.getLsbD i <;> cases hti : (BitVec.twoPow (k + 1) k).getLsbD i <;> simp_all
  rw [hmask]
  cases hx : x.getLsbD k with
  | false => exact hclear x hx
  | true =>
    -- with the bit cleared the sum sets it again, and twice the bit is zero
    set y := x ^^^ BitVec.twoPow (k + 1) k with hy
    have hyclear : y.getLsbD k = false := by
      rw [hy, BitVec.getLsbD_xor, hx, BitVec.getLsbD_twoPow]
      simp
    have hyx : y + BitVec.twoPow (k + 1) k = x := by
      rw [← hclear y hyclear, hy, BitVec.xor_assoc, BitVec.xor_self, BitVec.xor_zero]
    have htwice : BitVec.twoPow (k + 1) k + BitVec.twoPow (k + 1) k = 0#(k + 1) := by
      apply BitVec.eq_of_toNat_eq
      rw [BitVec.toNat_add, BitVec.toNat_twoPow, Nat.mod_eq_of_lt (Nat.pow_lt_pow_succ (by omega)),
        ← Nat.two_mul, ← pow_succ', Nat.mod_self]
      rfl
    calc y = y + (BitVec.twoPow (k + 1) k + BitVec.twoPow (k + 1) k) := by
          rw [htwice, BitVec.add_zero]
      _ = x + BitVec.twoPow (k + 1) k := by rw [← BitVec.add_assoc, hyx]

/-- The pointers of a full FIFO differ in the highest bit alone. -/
theorem ofNat_eq_xor_fifoXorMask_iff (hw : w = k + 1) {a b : ℕ} (hle : a ≤ b)
    (hbound : b ≤ a + 2 ^ k) :
    BitVec.ofNat w b = BitVec.ofNat w a ^^^ fifoXorMask w ↔ b = a + 2 ^ k := by
  subst hw
  have hpow : 2 ^ (k + 1) = 2 * 2 ^ k := pow_succ' 2 k
  have hpos : 0 < 2 ^ k := Nat.two_pow_pos k
  have hsum : BitVec.ofNat (k + 1) a ^^^ fifoXorMask (k + 1) = BitVec.ofNat (k + 1) (a + 2 ^ k) := by
    rw [xor_fifoXorMask, BitVec.ofNat_add]
    congr 1
    apply BitVec.eq_of_toNat_eq
    rw [BitVec.toNat_twoPow, BitVec.toNat_ofNat]
  rw [hsum, eq_comm, ofNat_eq_ofNat_iff hbound (by omega), eq_comm]

theorem fifoIndex_ofNat (hw : w = k + 1) (n : ℕ) : fifoIndex (2 ^ k) (BitVec.ofNat w n) = n % 2 ^ k := by
  subst hw
  unfold fifoIndex fifoPtrvW
  by_cases hdepth : 2 ^ k > 1
  · rw [if_pos hdepth, if_neg (by omega), Nat.clog_pow 2 k (by omega),
      BitVec.setWidth_ofNat_of_le (by omega), BitVec.toNat_ofNat]
  · have hone : 2 ^ k = 1 := by
      have := Nat.two_pow_pos k
      omega
    rw [if_neg hdepth, hone, Nat.mod_one]

end Count

/-! ### Fill levels -/

section Level

variable {w k n m : ℕ}

theorem fifoDepthW_two_pow (k : ℕ) : fifoDepthW (2 ^ k) = k + 1 := by
  have hpos : 0 < 2 ^ k := Nat.two_pow_pos k
  have hpow : 2 ^ (k + 1) = 2 * 2 ^ k := pow_succ' 2 k
  apply le_antisymm
  · exact Nat.clog_le_of_le_pow (by omega)
  · exact (Nat.lt_clog_iff_pow_lt (by omega)).mpr (by omega)

/-- A pointer's place in the storage, as wide as the fill levels. -/
theorem toNat_fifoPlace (hk : 0 < k) (n : ℕ) :
    (((BitVec.ofNat (k + 1) n).setWidth (fifoPtrvW (2 ^ k))).setWidth
      (fifoDepthW (2 ^ k))).toNat = n % 2 ^ k := by
  have hle : 2 ^ k ≤ 2 ^ (k + 1) := Nat.pow_le_pow_right (by omega) (by omega)
  have hone : 2 ^ k ≠ 1 := by
    rw [Ne, Nat.pow_eq_one]
    omega
  rw [fifoDepthW_two_pow, fifoPtrvW, if_neg hone, Nat.clog_pow 2 k (by omega),
    BitVec.setWidth_ofNat_of_le (by omega), BitVec.toNat_setWidth, BitVec.toNat_ofNat]
  exact Nat.mod_eq_of_lt ((Nat.mod_lt _ (Nat.two_pow_pos k)).trans_le hle)

/-- The fill level that a side shows is the difference of the counts it knows. -/
theorem toNat_fifoDepth (hw : w = k + 1) (hle : m ≤ n) (hbound : n ≤ m + 2 ^ k) :
    (fifoDepth (2 ^ k) (decide (n = m + 2 ^ k)) (BitVec.ofNat w n) (BitVec.ofNat w m)).toNat =
      n - m := by
  subst hw
  have hpos : 0 < 2 ^ k := Nat.two_pow_pos k
  have hpow : 2 ^ fifoDepthW (2 ^ k) = 2 * 2 ^ k := by rw [fifoDepthW_two_pow, pow_succ']
  unfold fifoDepth
  by_cases hdepth : 2 ^ k > 1
  · have hk : 0 < k := by
      by_contra hk
      rw [Nat.eq_zero_of_not_pos hk] at hdepth
      omega
    have hn := Nat.div_add_mod n (2 ^ k)
    have hm := Nat.div_add_mod m (2 ^ k)
    have hrn := Nat.mod_lt n hpos
    have hrm := Nat.mod_lt m hpos
    have hmsb : ∀ j, (BitVec.ofNat (k + 1) j).getLsbD (k + 1 - 1) = decide (j / 2 ^ k % 2 = 1) := by
      intro j
      rw [Nat.add_sub_cancel, BitVec.getLsbD_ofNat, decide_eq_true (Nat.lt_succ_self k),
        Bool.true_and, Nat.testBit_eq_decide_div_mod_eq]
    rw [if_pos hdepth]
    simp only [hmsb]
    by_cases hfull : n = m + 2 ^ k
    · rw [decide_eq_true hfull, if_pos rfl, BitVec.toNat_ofNat, hpow,
        Nat.mod_eq_of_lt (by omega)]
      omega
    · rw [decide_eq_false hfull, if_neg Bool.false_ne_true]
      -- the quotients are equal or consecutive
      have hquot : n / 2 ^ k = m / 2 ^ k ∨ n / 2 ^ k = m / 2 ^ k + 1 := by
        have h₁ : m / 2 ^ k ≤ n / 2 ^ k := Nat.div_le_div_right hle
        have h₂ : n / 2 ^ k ≤ (m + 2 ^ k) / 2 ^ k := Nat.div_le_div_right hbound
        rw [Nat.add_div_right m hpos] at h₂
        omega
      obtain hquot | hquot := hquot
      · rw [if_pos (by rw [hquot]), BitVec.toNat_sub, toNat_fifoPlace hk, toNat_fifoPlace hk, hpow]
        rw [hquot] at hn
        have hsum : 2 * 2 ^ k - m % 2 ^ k + n % 2 ^ k = 2 * 2 ^ k + (n - m) := by omega
        rw [hsum, Nat.add_mod_left, Nat.mod_eq_of_lt (by omega)]
      · have hodd : decide (n / 2 ^ k % 2 = 1) ≠ decide (m / 2 ^ k % 2 = 1) := by
          rw [hquot, Ne, decide_eq_decide]
          omega
        rw [if_neg hodd, BitVec.toNat_add, BitVec.toNat_sub, toNat_fifoPlace hk, toNat_fifoPlace hk,
          BitVec.toNat_ofNat, hpow, Nat.mod_eq_of_lt (show 2 ^ k < 2 * 2 ^ k by omega)]
        rw [hquot, Nat.mul_add, Nat.mul_one] at hn
        have hsum : 2 * 2 ^ k - m % 2 ^ k + 2 ^ k = 2 * 2 ^ k + (2 ^ k - m % 2 ^ k) := by omega
        rw [hsum, Nat.add_mod_left,
          Nat.mod_eq_of_lt (show 2 ^ k - m % 2 ^ k < 2 * 2 ^ k by omega),
          Nat.mod_eq_of_lt (by omega)]
        omega
  · rw [if_neg hdepth, BitVec.toNat_setWidth, BitVec.toNat_ofBool, hpow]
    by_cases hfull : n = m + 2 ^ k
    · rw [decide_eq_true hfull, Bool.toNat_true, Nat.mod_eq_of_lt (by omega)]
      omega
    · rw [decide_eq_false hfull, Bool.toNat_false, Nat.zero_mod]
      omega

end Level

/-! ### The two sides -/

variable {k Width : ℕ}

/-- The write side after `n` words accepted; what it knows of the words delivered is `b₁`
in the first flop, then `b₂`, then `b₃` in its register. -/
structure FifoWrAt (s : FifoWr (2 ^ k) Width) (n b₁ b₂ b₃ : ℕ) : Prop where
  wptr : s.fifoWptrQ = BitVec.ofNat _ n
  wptrGray : s.fifoWptrGrayQ = encode (BitVec.ofNat _ n)
  intq : s.syncRptr.intq = encode (BitVec.ofNat _ b₁)
  q : s.syncRptr.q = encode (BitVec.ofNat _ b₂)
  rptrSync : s.fifoRptrSyncQ = BitVec.ofNat _ b₃

/-- The read side after `n` words delivered; what it knows of the words accepted is `a₁`
in the first flop, then `a₂`. -/
structure FifoRdAt (s : FifoRd (2 ^ k)) (n a₁ a₂ : ℕ) : Prop where
  rptr : s.fifoRptrQ = BitVec.ofNat _ n
  rptrGray : s.fifoRptrGrayQ = encode (BitVec.ofNat _ n)
  intq : s.syncWptr.intq = encode (BitVec.ofNat _ a₁)
  q : s.syncWptr.q = encode (BitVec.ofNat _ a₂)

section Sides

variable {s : FifoWr (2 ^ k) Width} {r : FifoRd (2 ^ k)} {n x a₁ a₂ b₁ b₂ b₃ : ℕ}

theorem FifoWrAt.fifoRptrSyncCombi (h : FifoWrAt s n b₁ b₂ b₃) :
    s.fifoRptrSyncCombi = BitVec.ofNat _ b₂ := by
  rw [FifoWr.fifoRptrSyncCombi, h.q, fifoSyncCombi_encode (fifoPtrWidth_two_pow k)]

theorem FifoRdAt.fifoWptrSyncCombi (h : FifoRdAt r n a₁ a₂) :
    r.fifoWptrSyncCombi = BitVec.ofNat _ a₂ := by
  rw [FifoRd.fifoWptrSyncCombi, h.q, fifoSyncCombi_encode (fifoPtrWidth_two_pow k)]

theorem FifoWrAt.fullWclk (h : FifoWrAt s n b₁ b₂ b₃) (hle : b₃ ≤ n) (hn : n ≤ b₃ + 2 ^ k) :
    s.fullWclk = decide (n = b₃ + 2 ^ k) := by
  unfold FifoWr.fullWclk
  rw [h.wptr, h.rptrSync]
  exact decide_eq_decide.mpr (ofNat_eq_xor_fifoXorMask_iff (fifoPtrWidth_two_pow k) hle hn)

theorem FifoRdAt.emptyRclk (h : FifoRdAt r n a₁ a₂) (hle : n ≤ a₂) (hn : a₂ ≤ n + 2 ^ k) :
    r.emptyRclk = decide (a₂ = n) := by
  unfold FifoRd.emptyRclk
  rw [h.rptr, h.fifoWptrSyncCombi]
  refine decide_eq_decide.mpr (ofNat_eq_ofNat_iff hle (hn.trans_lt ?_))
  rw [fifoPtrWidth_two_pow k, pow_succ']
  have := Nat.two_pow_pos k
  omega

theorem FifoWrAt.wptrGrayNext (h : FifoWrAt s n b₁ b₂ b₃) (wvalid_i : Bool) :
    s.wptrGrayNext wvalid_i = encode (BitVec.ofNat _ (n + (s.fifoIncrWptr wvalid_i).toNat)) := by
  unfold FifoWr.wptrGrayNext
  cases s.fifoIncrWptr wvalid_i with
  | false => exact h.wptrGray
  | true =>
    rw [if_pos rfl, fifoGray_eq (fifoPtrWidth_two_pow k), FifoWr.fifoWptrD, h.wptr, BitVec.ofNat_add]
    rfl

theorem FifoRdAt.rptrGrayNext (h : FifoRdAt r n a₁ a₂) (rready_i : Bool) :
    r.rptrGrayNext rready_i = encode (BitVec.ofNat _ (n + (r.fifoIncrRptr rready_i).toNat)) := by
  unfold FifoRd.rptrGrayNext
  cases r.fifoIncrRptr rready_i with
  | false => exact h.rptrGray
  | true =>
    rw [if_pos rfl, fifoGray_eq (fifoPtrWidth_two_pow k), FifoRd.fifoRptrD, h.rptr, BitVec.ofNat_add]
    rfl

/-- An edge of the write clock. -/
theorem FifoWrAt.clock (h : FifoWrAt s n b₁ b₂ b₃) (wvalid_i : Bool) (wdata_i : BitVec Width)
    {rptrGray : BitVec (fifoPtrWidth (2 ^ k))} (hx : rptrGray = encode (BitVec.ofNat _ x)) :
    FifoWrAt (s.clock wvalid_i wdata_i rptrGray) (n + (s.fifoIncrWptr wvalid_i).toNat) x b₁ b₂ where
  wptr := by
    unfold FifoWr.clock
    cases s.fifoIncrWptr wvalid_i with
    | false => exact h.wptr
    | true =>
      simp only [if_true, FifoWr.fifoWptrD, h.wptr, Bool.toNat_true, BitVec.ofNat_add]
  wptrGray := h.wptrGrayNext wvalid_i
  intq := hx
  q := h.intq
  rptrSync := h.fifoRptrSyncCombi

/-- An edge of the read clock. -/
theorem FifoRdAt.clock (h : FifoRdAt r n a₁ a₂) (rready_i : Bool)
    {wptrGray : BitVec (fifoPtrWidth (2 ^ k))} (hx : wptrGray = encode (BitVec.ofNat _ x)) :
    FifoRdAt (r.clock rready_i wptrGray) (n + (r.fifoIncrRptr rready_i).toNat) x a₁ where
  rptr := by
    unfold FifoRd.clock
    cases r.fifoIncrRptr rready_i with
    | false => exact h.rptr
    | true =>
      simp only [if_true, FifoRd.fifoRptrD, h.rptr, Bool.toNat_true, BitVec.ofNat_add]
  rptrGray := h.rptrGrayNext rready_i
  intq := hx
  q := h.intq

/-- Consecutive counts have codes that differ in at most one bit. -/
theorem weight_encode_ofNat_le (w n : ℕ) {m : ℕ} (hm : m ≤ 1) :
    weight (encode (BitVec.ofNat w (n + m)) ^^^ encode (BitVec.ofNat w n)) ≤ 1 := by
  obtain rfl | rfl : m = 0 ∨ m = 1 := by omega
  · rw [Nat.add_zero, BitVec.xor_self, weight_zero]
    exact Nat.zero_le 1
  · rw [BitVec.ofNat_add]
    exact weight_encode_step _

end Sides

/-! ### Steps -/

/-- The counts: what a side knows of the other side's count only lags behind, and the
write side stays within the depth of what it knows. -/
structure FifoCounts (k nW nR a₁ a₂ b₁ b₂ b₃ : ℕ) : Prop where
  nR_le : nR ≤ a₂
  a₂_le : a₂ ≤ a₁
  a₁_le : a₁ ≤ nW
  b₃_le : b₃ ≤ b₂
  b₂_le : b₂ ≤ b₁
  b₁_le : b₁ ≤ nR
  nW_le : nW ≤ b₃ + 2 ^ k

/-- The invariant of the FIFO. -/
structure FifoInv (s : FifoState (2 ^ k) Width) (a₁ a₂ b₁ b₂ b₃ : ℕ) : Prop where
  wr : FifoWrAt s.wr s.accepted.length b₁ b₂ b₃
  rd : FifoRdAt s.rd s.delivered.length a₁ a₂
  counts : FifoCounts k s.accepted.length s.delivered.length a₁ a₂ b₁ b₂ b₃
  /-- The words not delivered yet are in their places. -/
  storage : ∀ j, s.delivered.length ≤ j → j < s.accepted.length →
    s.accepted[j]? = some (s.wr.storage (j % 2 ^ k))
  delivered : s.delivered <+: s.accepted

section Step

variable {OutputZeroIfEmpty OutputZeroIfInvalid : Bool} {s : FifoState (2 ^ k) Width}
  {a₁ a₂ b₁ b₂ b₃ : ℕ} (h : FifoInv s a₁ a₂ b₁ b₂ b₃) (e : FifoEvent (2 ^ k) Width)

/-- The words accepted and delivered by an event. -/
def FifoState.wrCount (s : FifoState (2 ^ k) Width) (e : FifoEvent (2 ^ k) Width) : ℕ :=
  match e.wr with
  | none => 0
  | some (wvalid_i, _) => (s.wr.fifoIncrWptr wvalid_i).toNat

def FifoState.rdCount (s : FifoState (2 ^ k) Width) (e : FifoEvent (2 ^ k) Width) : ℕ :=
  match e.rd with
  | none => 0
  | some rready_i => (s.rd.fifoIncrRptr rready_i).toNat

theorem length_accepted_step : (s.step OutputZeroIfEmpty OutputZeroIfInvalid e).accepted.length =
    s.accepted.length + s.wrCount e := by
  rw [FifoState.step, List.length_append, FifoState.wrCount]
  congr 1
  cases e.wr with
  | none => rfl
  | some port =>
    obtain ⟨wvalid_i, wdata_i⟩ := port
    change (s.wr.accepts wvalid_i wdata_i).length = (s.wr.fifoIncrWptr wvalid_i).toNat
    unfold FifoWr.accepts
    cases s.wr.fifoIncrWptr wvalid_i <;> rfl

theorem length_delivered_step : (s.step OutputZeroIfEmpty OutputZeroIfInvalid e).delivered.length =
    s.delivered.length + s.rdCount e := by
  rw [FifoState.step, List.length_append, FifoState.rdCount]
  congr 1
  cases e.rd with
  | none => rfl
  | some rready_i =>
    change (s.rd.delivers rready_i OutputZeroIfEmpty OutputZeroIfInvalid s.wr.storage).length =
      (s.rd.fifoIncrRptr rready_i).toNat
    unfold FifoRd.delivers
    cases s.rd.fifoIncrRptr rready_i <;> rfl

include h

/-- A word is accepted only below the depth. -/
theorem wrCount_le : s.wrCount e = 0 ∨ s.wrCount e = 1 ∧ s.accepted.length < b₃ + 2 ^ k := by
  obtain ⟨h₁, h₂, h₃, h₄, h₅, h₆, h₇⟩ := h.counts
  unfold FifoState.wrCount
  cases e.wr with
  | none => exact .inl rfl
  | some port =>
    simp only [FifoWr.fifoIncrWptr, FifoWr.wreadyO, h.wr.fullWclk (by omega) h₇]
    by_cases hfull : s.accepted.length = b₃ + 2 ^ k
    · simp [hfull]
    · cases port.1
      · simp
      · simp [hfull]
        omega

/-- A word is delivered only when the read side knows of one. -/
theorem rdCount_le : s.rdCount e = 0 ∨ s.rdCount e = 1 ∧ s.delivered.length < a₂ := by
  obtain ⟨h₁, h₂, h₃, h₄, h₅, h₆, h₇⟩ := h.counts
  unfold FifoState.rdCount
  cases e.rd with
  | none => exact .inl rfl
  | some rready_i =>
    simp only [FifoRd.fifoIncrRptr, FifoRd.rvalidO, h.rd.emptyRclk h₁ (by omega)]
    by_cases hempty : a₂ = s.delivered.length
    · simp [hempty]
    · cases rready_i
      · simp
      · simp [hempty]
        omega

/-- The read clock samples the count of words accepted before the event, or after it. -/
theorem sampledWptr_eq : ∃ x, s.sampledWptr e = encode (BitVec.ofNat _ x) ∧
    (x = s.accepted.length ∨ x = s.accepted.length + s.wrCount e) := by
  unfold FifoState.sampledWptr FifoState.wrCount
  cases e.wr with
  | none => exact ⟨_, h.wr.wptrGray, .inl rfl⟩
  | some port =>
    obtain ⟨wvalid_i, wdata_i⟩ := port
    simp only [h.wr.wptrGray, h.wr.wptrGrayNext]
    obtain hold | hnew := sample_eq e.lateWptr
      (weight_encode_ofNat_le (fifoPtrWidth (2 ^ k)) s.accepted.length
        (s.wr.fifoIncrWptr wvalid_i).toNat_le)
    · exact ⟨_, hold, .inl rfl⟩
    · exact ⟨_, hnew, .inr rfl⟩

/-- The write clock samples the count of words delivered before the event, or after it. -/
theorem sampledRptr_eq : ∃ y, s.sampledRptr e = encode (BitVec.ofNat _ y) ∧
    (y = s.delivered.length ∨ y = s.delivered.length + s.rdCount e) := by
  unfold FifoState.sampledRptr FifoState.rdCount
  cases e.rd with
  | none => exact ⟨_, h.rd.rptrGray, .inl rfl⟩
  | some rready_i =>
    simp only [h.rd.rptrGray, h.rd.rptrGrayNext]
    obtain hold | hnew := sample_eq e.lateRptr
      (weight_encode_ofNat_le (fifoPtrWidth (2 ^ k)) s.delivered.length
        (s.rd.fifoIncrRptr rready_i).toNat_le)
    · exact ⟨_, hold, .inl rfl⟩
    · exact ⟨_, hnew, .inr rfl⟩

/-- The words not delivered are kept: a write goes to a place that none of them has. -/
theorem storage_step (j : ℕ) (hge : s.delivered.length ≤ j)
    (hlt : j < s.accepted.length + s.wrCount e) :
    (s.step OutputZeroIfEmpty OutputZeroIfInvalid e).accepted[j]? =
      some ((s.step OutputZeroIfEmpty OutputZeroIfInvalid e).wr.storage (j % 2 ^ k)) := by
  obtain ⟨h₁, h₂, h₃, h₄, h₅, h₆, h₇⟩ := h.counts
  have hcount := wrCount_le h e
  unfold FifoState.wrCount at hlt hcount
  unfold FifoState.step
  cases hwr : e.wr with
  | none =>
    rw [hwr] at hlt
    simp only [List.append_nil]
    exact h.storage j hge hlt
  | some port =>
    obtain ⟨wvalid_i, wdata_i⟩ := port
    simp only [hwr] at hlt hcount
    simp only [FifoWr.clock, FifoWr.accepts, h.wr.wptr, fifoIndex_ofNat (fifoPtrWidth_two_pow k)]
    cases hincr : s.wr.fifoIncrWptr wvalid_i with
    | false =>
      rw [hincr] at hlt
      simp only [Bool.false_eq_true, if_false, List.append_nil]
      exact h.storage j hge hlt
    | true =>
      rw [hincr] at hlt hcount
      simp only [if_true]
      obtain hold | rfl := Nat.lt_succ_iff_lt_or_eq.mp hlt
      · rw [List.getElem?_append_left hold, Function.update_of_ne, h.storage j hge hold]
        intro hplace
        -- less than the depth apart, two words have different places
        have hroom : s.accepted.length < j + 2 ^ k := by
          simp at hcount
          omega
        have hzero := Nat.sub_mod_eq_zero_of_mod_eq hplace.symm
        rw [Nat.mod_eq_of_lt (by omega)] at hzero
        omega
      · rw [List.getElem?_append_right (Nat.le_refl _), Nat.sub_self, Function.update_self]
        rfl

/-- What is delivered is the next word accepted. -/
theorem delivered_step : (s.step OutputZeroIfEmpty OutputZeroIfInvalid e).delivered <+:
    (s.step OutputZeroIfEmpty OutputZeroIfInvalid e).accepted := by
  obtain ⟨h₁, h₂, h₃, h₄, h₅, h₆, h₇⟩ := h.counts
  have hcount := rdCount_le h e
  unfold FifoState.rdCount at hcount
  unfold FifoState.step
  apply List.IsPrefix.trans _ (List.prefix_append _ _)
  cases hrd : e.rd with
  | none =>
    simp only [List.append_nil]
    exact h.delivered
  | some rready_i =>
    simp only [hrd] at hcount
    simp only [FifoRd.delivers]
    cases hincr : s.rd.fifoIncrRptr rready_i with
    | false =>
      simp only [Bool.false_eq_true, if_false, List.append_nil]
      exact h.delivered
    | true =>
      have hvalid : s.rd.rvalidO = true := (Bool.and_eq_true_iff.mp hincr).1
      have hempty : s.rd.emptyRclk = false := by
        simpa [FifoRd.rvalidO] using hvalid
      have hword : s.rd.rdataO OutputZeroIfEmpty OutputZeroIfInvalid s.wr.storage =
          s.wr.storage (s.delivered.length % 2 ^ k) := by
        simp [FifoRd.rdataO, hvalid, hempty, h.rd.rptr, fifoIndex_ofNat (fifoPtrWidth_two_pow k)]
      rw [hincr] at hcount
      have hnext := h.storage s.delivered.length (Nat.le_refl _) (by simp at hcount; omega)
      rw [if_pos rfl, hword, List.prefix_iff_eq_take, List.length_append, List.length_singleton,
        List.take_add_one, hnext, ← List.prefix_iff_eq_take.mp h.delivered]
      rfl

/-- The step of the write side, which samples `y` when its clock has an edge. -/
theorem fifoWrAt_step {y : ℕ} (hy : s.sampledRptr e = encode (BitVec.ofNat _ y)) :
    FifoWrAt (s.step OutputZeroIfEmpty OutputZeroIfInvalid e).wr (s.accepted.length + s.wrCount e)
      (if e.wr.isSome then y else b₁) (if e.wr.isSome then b₁ else b₂)
      (if e.wr.isSome then b₂ else b₃) := by
  unfold FifoState.step FifoState.wrCount
  cases e.wr with
  | none => exact h.wr
  | some port => exact h.wr.clock port.1 port.2 hy

theorem fifoRdAt_step {x : ℕ} (hx : s.sampledWptr e = encode (BitVec.ofNat _ x)) :
    FifoRdAt (s.step OutputZeroIfEmpty OutputZeroIfInvalid e).rd
      (s.delivered.length + s.rdCount e)
      (if e.rd.isSome then x else a₁) (if e.rd.isSome then a₁ else a₂) := by
  unfold FifoState.step FifoState.rdCount
  cases e.rd with
  | none => exact h.rd
  | some rready_i => exact h.rd.clock rready_i hx

theorem fifoInv_step : ∃ x y,
    (x = s.accepted.length ∨
      x = (s.step OutputZeroIfEmpty OutputZeroIfInvalid e).accepted.length) ∧
    (y = s.delivered.length ∨
      y = (s.step OutputZeroIfEmpty OutputZeroIfInvalid e).delivered.length) ∧
    FifoInv (s.step OutputZeroIfEmpty OutputZeroIfInvalid e)
      (if e.rd.isSome then x else a₁) (if e.rd.isSome then a₁ else a₂)
      (if e.wr.isSome then y else b₁) (if e.wr.isSome then b₁ else b₂)
      (if e.wr.isSome then b₂ else b₃) := by
  obtain ⟨x, hx, hxcases⟩ := sampledWptr_eq h e
  obtain ⟨y, hy, hycases⟩ := sampledRptr_eq h e
  rw [length_accepted_step, length_delivered_step]
  refine ⟨x, y, hxcases, hycases, ?_⟩
  have hw := wrCount_le h e
  have hr := rdCount_le h e
  obtain ⟨h₁, h₂, h₃, h₄, h₅, h₆, h₇⟩ := h.counts
  refine ⟨?_, ?_, ?_, ?_, delivered_step h e⟩
  · rw [length_accepted_step]
    exact fifoWrAt_step h e hy
  · rw [length_delivered_step]
    exact fifoRdAt_step h e hx
  · rw [length_accepted_step, length_delivered_step]
    constructor <;> split_ifs <;> omega
  · intro j hge hlt
    rw [length_delivered_step] at hge
    rw [length_accepted_step] at hlt
    exact storage_step h e j (by omega) hlt

end Step

/-! ### Runs -/

theorem fifoInv_init (storage : ℕ → BitVec Width) :
    FifoInv (FifoState.init storage : FifoState (2 ^ k) Width) 0 0 0 0 0 where
  wr := by constructor <;> simp [FifoState.init]
  rd := by constructor <;> simp [FifoState.init]
  counts := by constructor <;> simp [FifoState.init]
  storage := nofun
  delivered := List.nil_prefix

/-- An edge of the write clock. -/
def FifoEvent.isWr (e : FifoEvent (2 ^ k) Width) : Bool := e.wr.isSome

/-- An edge of the read clock. -/
def FifoEvent.isRd (e : FifoEvent (2 ^ k) Width) : Bool := e.rd.isSome

section Run

variable (OutputZeroIfEmpty OutputZeroIfInvalid : Bool) (storage : ℕ → BitVec Width)
  (events : List (FifoEvent (2 ^ k) Width))

/-- What a side knows of the other side's count is a count of the recent past. -/
theorem fifoInv_run : ∃ a₁ a₂ b₁ b₂ b₃,
    FifoInv (FifoState.run OutputZeroIfEmpty OutputZeroIfInvalid storage events) a₁ a₂ b₁ b₂ b₃ ∧
    Recent (FifoState.step OutputZeroIfEmpty OutputZeroIfInvalid) (FifoState.init storage)
      (fun s => s.accepted.length) FifoEvent.isRd events 1 a₁ ∧
    Recent (FifoState.step OutputZeroIfEmpty OutputZeroIfInvalid) (FifoState.init storage)
      (fun s => s.accepted.length) FifoEvent.isRd events 2 a₂ ∧
    Recent (FifoState.step OutputZeroIfEmpty OutputZeroIfInvalid) (FifoState.init storage)
      (fun s => s.delivered.length) FifoEvent.isWr events 1 b₁ ∧
    Recent (FifoState.step OutputZeroIfEmpty OutputZeroIfInvalid) (FifoState.init storage)
      (fun s => s.delivered.length) FifoEvent.isWr events 2 b₂ := by
  induction events using List.reverseRecOn with
  | nil =>
    have hnow : ∀ n (f : FifoState (2 ^ k) Width → ℕ) edge, f (FifoState.init storage) = 0 →
        Recent (FifoState.step OutputZeroIfEmpty OutputZeroIfInvalid) (FifoState.init storage)
          f edge [] n 0 := fun n f edge h => (recent_now h).mono (Nat.zero_le n)
    exact ⟨0, 0, 0, 0, 0, fifoInv_init storage, hnow _ _ _ rfl, hnow _ _ _ rfl, hnow _ _ _ rfl,
      hnow _ _ _ rfl⟩
  | append_singleton events e ih =>
    obtain ⟨a₁, a₂, b₁, b₂, b₃, h, ha₁, ha₂, hb₁, hb₂⟩ := ih
    obtain ⟨x, y, hx, hy, hstep⟩ := fifoInv_step h e
    obtain ⟨ha₁', ha₂'⟩ := ha₁.sync e ha₂ hx
    obtain ⟨hb₁', hb₂'⟩ := hb₁.sync e hb₂ hy
    refine ⟨_, _, _, _, if e.wr.isSome then b₂ else b₃, ?_, ha₁', ha₂', hb₁', hb₂'⟩
    rw [FifoState.run, List.foldl_append]
    exact hstep

/-- Over any order of the clock edges and any samples of the pointers, from reset on: the
words delivered are the first of the words accepted, at most `Depth` of these are not
delivered, a clock edge changes at most one bit of a Gray-coded pointer, and what a side
knows of the other side's pointer is a value from at most two of its edges ago. -/
theorem fifo_async_in_order :
    let step := FifoState.step OutputZeroIfEmpty OutputZeroIfInvalid
    let init : FifoState (2 ^ k) Width := FifoState.init storage
    let s := FifoState.run OutputZeroIfEmpty OutputZeroIfInvalid storage events
    s.delivered <+: s.accepted ∧
      s.accepted.length ≤ s.delivered.length + 2 ^ k ∧
      (∀ e, weight ((step s e).wr.fifoWptrGrayQ ^^^ s.wr.fifoWptrGrayQ) ≤ 1 ∧
        weight ((step s e).rd.fifoRptrGrayQ ^^^ s.rd.fifoRptrGrayQ) ≤ 1) ∧
      Recent step init (fun s => s.wr.fifoWptrQ) FifoEvent.isRd events 2 s.rd.fifoWptrSyncCombi ∧
      Recent step init (fun s => s.rd.fifoRptrQ) FifoEvent.isWr events 2 s.wr.fifoRptrSyncCombi := by
  intro step init s
  obtain ⟨a₁, a₂, b₁, b₂, b₃, h, -, ha₂, -, hb₂⟩ :=
    fifoInv_run OutputZeroIfEmpty OutputZeroIfInvalid storage events
  change FifoInv s a₁ a₂ b₁ b₂ b₃ at h
  obtain ⟨h₁, h₂, h₃, h₄, h₅, h₆, h₇⟩ := h.counts
  refine ⟨h.delivered, by omega, fun e => ⟨?_, ?_⟩, ?_, ?_⟩
  · obtain ⟨x, y, -, -, h'⟩ := fifoInv_step h e
    rw [h.wr.wptrGray, h'.wr.wptrGray, length_accepted_step]
    exact weight_encode_ofNat_le _ _ (by have := wrCount_le h e; omega)
  · obtain ⟨x, y, -, -, h'⟩ := fifoInv_step h e
    rw [h.rd.rptrGray, h'.rd.rptrGray, length_delivered_step]
    exact weight_encode_ofNat_le _ _ (by have := rdCount_le h e; omega)
  · obtain ⟨early, late, hevents, hcount, hpast⟩ := ha₂
    refine ⟨early, late, hevents, hcount, ?_⟩
    obtain ⟨_, _, _, _, _, hearly, _⟩ :=
      fifoInv_run OutputZeroIfEmpty OutputZeroIfInvalid storage early
    rw [h.rd.fifoWptrSyncCombi, ← hpast]
    exact hearly.wr.wptr
  · obtain ⟨early, late, hevents, hcount, hpast⟩ := hb₂
    refine ⟨early, late, hevents, hcount, ?_⟩
    obtain ⟨_, _, _, _, _, hearly, _⟩ :=
      fifoInv_run OutputZeroIfEmpty OutputZeroIfInvalid storage early
    rw [h.wr.fifoRptrSyncCombi, ← hpast]
    exact hearly.rd.rptr

/-- The fill levels are safe: the read side shows at most the words not delivered, and the
write side at least these. -/
theorem fifo_async_levels :
    let s : FifoState (2 ^ k) Width :=
      FifoState.run OutputZeroIfEmpty OutputZeroIfInvalid storage events
    s.rd.rdepthO.toNat ≤ s.accepted.length - s.delivered.length ∧
      s.accepted.length - s.delivered.length ≤ s.wr.wdepthO.toNat ∧
      s.wr.wdepthO.toNat ≤ 2 ^ k := by
  intro s
  obtain ⟨a₁, a₂, b₁, b₂, b₃, h, -⟩ :=
    fifoInv_run OutputZeroIfEmpty OutputZeroIfInvalid storage events
  change FifoInv s a₁ a₂ b₁ b₂ b₃ at h
  obtain ⟨h₁, h₂, h₃, h₄, h₅, h₆, h₇⟩ := h.counts
  have hfull : s.rd.fullRclk = decide (a₂ = s.delivered.length + 2 ^ k) := by
    unfold FifoRd.fullRclk
    rw [h.rd.fifoWptrSyncCombi, h.rd.rptr]
    exact decide_eq_decide.mpr
      (ofNat_eq_xor_fifoXorMask_iff (fifoPtrWidth_two_pow k) h₁ (by omega))
  have hrd : s.rd.rdepthO.toNat = a₂ - s.delivered.length := by
    rw [FifoRd.rdepthO, hfull, h.rd.fifoWptrSyncCombi, h.rd.rptr,
      toNat_fifoDepth (fifoPtrWidth_two_pow k) h₁ (by omega)]
  have hwr : s.wr.wdepthO.toNat = s.accepted.length - b₃ := by
    rw [FifoWr.wdepthO, h.wr.fullWclk (by omega) h₇, h.wr.wptr, h.wr.rptrSync,
      toNat_fifoDepth (fifoPtrWidth_two_pow k) (by omega) h₇]
  rw [hrd, hwr]
  omega

end Run

end SecureBoot
