import SecureBoot.Base.Word

/-! The branch-free comparisons and the select of the hardened library. A truth value is a word
with all of its bits set or none. Each function comes for 32-bit words and for words of the size
of a pointer, with one formula for both. -/

namespace SecureBoot

section Formulas

variable {w : ℕ}

/-- The words that stand for truth values. -/
def ctBool (p : Bool) : BitVec w := if p then BitVec.allOnes w else 0

/-- The sign bit at all places. -/
def ctSltz (a : BitVec w) : BitVec w := a.sshiftRight (w - 1)

def ctSltu (a b : BitVec w) : BitVec w := ctSltz ((a &&& ~~~b) ||| ((a ^^^ ~~~b) &&& (a - b)))

def ctSeqz (a : BitVec w) : BitVec w := ctSltz (~~~a &&& (a - 1))

def ctSeq (a b : BitVec w) : BitVec w := ctSeqz (a ^^^ b)

def ctCmov (c a b : BitVec w) : BitVec w := (c &&& a) ||| (~~~c &&& b)

end Formulas

def ctSltz32 (a : Word) : Word := ctSltz a

def ctSltu32 (a b : Word) : Word := ctSltu a b

def ctSeqz32 (a : Word) : Word := ctSeqz a

def ctSeq32 (a b : Word) : Word := ctSeq a b

def ctCmov32 (c a b : Word) : Word := ctCmov c a b

section PointerSized

variable {w : ℕ}

def ctSltzw (a : BitVec w) : BitVec w := ctSltz a

def ctSltuw (a b : BitVec w) : BitVec w := ctSltu a b

def ctSeqzw (a : BitVec w) : BitVec w := ctSeqz a

def ctSeqw (a b : BitVec w) : BitVec w := ctSeq a b

def ctCmovw (c a b : BitVec w) : BitVec w := ctCmov c a b

end PointerSized

/-! ### What the formulas compute -/

section Values

variable {w : ℕ}

theorem ctSltz_eq (a : BitVec w) : ctSltz a = ctBool a.msb := by
  apply BitVec.eq_of_getLsbD_eq
  intro i hi
  rw [ctSltz, BitVec.getLsbD_sshiftRight, decide_eq_false (by omega), Bool.not_false,
    Bool.true_and]
  have hbit : (if w - 1 + i < w then a.getLsbD (w - 1 + i) else a.msb) = a.msb := by
    split_ifs with h
    · rw [show w - 1 + i = w - 1 by omega, BitVec.msb_eq_getLsbD_last]
    · rfl
  rw [hbit, ctBool]
  cases a.msb with
  | false => exact BitVec.getLsbD_zero.symm
  | true => rw [if_pos rfl, BitVec.getLsbD_allOnes, decide_eq_true hi]

theorem ctBool_inj (hw : 0 < w) {p q : Bool} : (ctBool p : BitVec w) = ctBool q ↔ p = q := by
  refine ⟨fun h => ?_, fun h => by rw [h]⟩
  have hbit := congrArg (BitVec.getLsbD · 0) h
  cases p <;> cases q <;> simp_all [ctBool]

theorem two_mul_two_pow_pred (hw : 0 < w) : 2 * 2 ^ (w - 1) = 2 ^ w := by
  rw [← Nat.pow_succ', Nat.succ_eq_add_one, Nat.sub_add_cancel hw]

/-- With equal signs the sign of the difference is the borrow. -/
theorem msb_sub_of_msb_eq (hw : 0 < w) (a b : BitVec w) (h : a.msb = b.msb) :
    (a - b).msb = a.ult b := by
  have hpow := two_mul_two_pow_pred hw
  have ha := a.isLt
  have hb := b.isLt
  rw [BitVec.msb_eq_decide, BitVec.msb_eq_decide, decide_eq_decide] at h
  rw [BitVec.msb_eq_decide, BitVec.ult, decide_eq_decide, BitVec.toNat_sub]
  generalize 2 ^ (w - 1) = half at hpow h ⊢
  rcases Nat.lt_or_ge a.toNat b.toNat with hlt | hge
  · rw [Nat.mod_eq_of_lt (by omega)]
    omega
  · rw [show 2 ^ w - b.toNat + a.toNat = a.toNat - b.toNat + 2 ^ w by omega, Nat.add_mod_right,
      Nat.mod_eq_of_lt (by omega)]
    omega

/-- The formula of `ct_sltu32` compares its arguments as signed words. -/
theorem ctSltu_eq_slt (hw : 0 < w) (a b : BitVec w) : ctSltu a b = ctBool (a.slt b) := by
  rw [ctSltu, ctSltz_eq, BitVec.slt_eq_ult, BitVec.msb_or, BitVec.msb_and, BitVec.msb_and,
    BitVec.msb_xor, BitVec.msb_not, decide_eq_true hw, Bool.true_and]
  by_cases h : a.msb = b.msb
  · rw [msb_sub_of_msb_eq hw a b h, h]
    cases b.msb <;> cases a.ult b <;> rfl
  · have hult : a.ult b = b.msb := by
      rw [BitVec.ult, BitVec.msb_eq_decide, decide_eq_decide]
      rw [BitVec.msb_eq_decide, BitVec.msb_eq_decide, decide_eq_decide] at h
      omega
    rw [hult]
    cases ha : a.msb <;> cases hb : b.msb <;> simp_all

theorem ctSltu_eq_ult_iff (hw : 0 < w) (a b : BitVec w) :
    ctSltu a b = ctBool (a.ult b) ↔ a.msb = b.msb := by
  rw [ctSltu_eq_slt hw, ctBool_inj hw, BitVec.slt_eq_ult]
  cases a.msb <;> cases b.msb <;> cases a.ult b <;> decide

/-- Only `0` has no sign and a predecessor with one. -/
theorem ctSeqz_eq (hw : 0 < w) (a : BitVec w) : ctSeqz a = ctBool (a == 0) := by
  have hpow := two_mul_two_pow_pred hw
  have ha := a.isLt
  have hone : (1 : BitVec w).toNat = 1 := Nat.mod_eq_of_lt (Nat.one_lt_two_pow hw.ne')
  rw [ctSeqz, ctSltz_eq, BitVec.msb_and, BitVec.msb_not, decide_eq_true hw, Bool.true_and]
  congr 1
  rw [BitVec.msb_eq_decide, BitVec.msb_eq_decide, BitVec.toNat_sub, hone, Bool.eq_iff_iff,
    Bool.and_eq_true, Bool.not_eq_true', decide_eq_false_iff_not, decide_eq_true_iff, beq_iff_eq,
    ← BitVec.toNat_inj]
  generalize 2 ^ (w - 1) = half at hpow ⊢
  change _ ↔ a.toNat = 0
  rcases Nat.eq_zero_or_pos a.toNat with hzero | hpos
  · rw [hzero, Nat.add_zero, Nat.mod_eq_of_lt (by omega)]
    omega
  · rw [show 2 ^ w - 1 + a.toNat = a.toNat - 1 + 2 ^ w by omega, Nat.add_mod_right,
      Nat.mod_eq_of_lt (by omega)]
    omega

theorem ctSeq_eq (hw : 0 < w) (a b : BitVec w) : ctSeq a b = ctBool (a == b) := by
  rw [ctSeq, ctSeqz_eq hw]
  congr 1
  rw [Bool.eq_iff_iff, beq_iff_eq, beq_iff_eq]
  exact BitVec.xor_eq_zero_iff

theorem ctCmov_true (a b : BitVec w) : ctCmov (ctBool true) a b = a := by
  rw [ctCmov, ctBool, if_pos rfl, BitVec.allOnes_and, BitVec.not_allOnes, BitVec.zero_and,
    BitVec.or_zero]

theorem ctCmov_false (a b : BitVec w) : ctCmov (ctBool false) a b = b := by
  rw [ctCmov, ctBool, if_neg Bool.false_ne_true]
  exact (congrArg₂ _ BitVec.zero_and (congrArg (· &&& b) BitVec.not_zero)).trans
    ((BitVec.zero_or).trans BitVec.allOnes_and)

/-! ### The comments of the header -/

/-- The values that the comments give for operands `a` and `b`: comparisons are unsigned. -/
structure CtMeetsSpec (sltu seq : BitVec w → BitVec w → BitVec w) (seqz : BitVec w → BitVec w)
    (cmov : BitVec w → BitVec w → BitVec w → BitVec w) (a b : BitVec w) : Prop where
  sltu_eq : sltu a b = ctBool (a.ult b)
  seqz_eq : seqz a = ctBool (a == 0)
  seq_eq : seq a b = ctBool (a == b)
  cmov_true : cmov (ctBool true) a b = a
  cmov_false : cmov (ctBool false) a b = b

theorem ctMeetsSpec_iff (hw : 0 < w) (a b : BitVec w) :
    CtMeetsSpec ctSltu ctSeq ctSeqz ctCmov a b ↔ a.msb = b.msb :=
  ⟨fun h => (ctSltu_eq_ult_iff hw a b).1 h.sltu_eq, fun h =>
    { sltu_eq := (ctSltu_eq_ult_iff hw a b).2 h
      seqz_eq := ctSeqz_eq hw a
      seq_eq := ctSeq_eq hw a b
      cmov_true := ctCmov_true a b
      cmov_false := ctCmov_false a b }⟩

end Values

/-- The functions do what the comments say on words of one sign, and on no others: with different
signs it is `ct_sltu` that goes wrong. -/
theorem ct_primitives_meet_spec_iff {w : ℕ} (a b : Word) (p q : BitVec (w + 1)) :
    (CtMeetsSpec ctSltu32 ctSeq32 ctSeqz32 ctCmov32 a b ↔ a.msb = b.msb) ∧
      (CtMeetsSpec ctSltuw ctSeqw ctSeqzw ctCmovw p q ↔ p.msb = q.msb) :=
  ⟨ctMeetsSpec_iff (by decide) a b, ctMeetsSpec_iff w.succ_pos p q⟩

/-- A word with its top bit set is taken to be smaller than `0`. -/
theorem ct_sltu_of_top_bit :
    (ctSltu32 0x80000000 0 = ctBool true ∧ (0x80000000 : Word).ult 0 = false) ∧
    (ctSltuw 0x8000000000000000#64 0 = ctBool true ∧ (0x8000000000000000#64).ult 0 = false) ∧
    ¬CtMeetsSpec ctSltu32 ctSeq32 ctSeqz32 ctCmov32 0x80000000 0 := by
  refine ⟨by decide, by decide, fun h => ?_⟩
  exact absurd h.sltu_eq (by decide)

end SecureBoot
