import Mathlib.Data.List.Induction
import SecureBoot.Lib.Bits

/-! The hardened counter `prim_count`: a primary counter and a secondary one that counts
the other way, whose sum stays the maximum. -/

namespace SecureBoot

variable {Width : ℕ}

/-- `cnt_q`. -/
structure CountRegs (Width : ℕ) where
  primary : BitVec Width
  secondary : BitVec Width
  deriving DecidableEq

structure CountIn (Width : ℕ) where
  clr_i : Bool
  set_i : Bool
  set_cnt_i : BitVec Width
  incr_en_i : Bool
  decr_en_i : Bool
  step_i : BitVec Width

/-- `gen_cnts`, one of the two counters; `reset` and `set_val` are its values on a clear and
on a set. -/
def cntD (reset set_val cnt_q : BitVec Width) (clr_i set_i incr_en decr_en : Bool)
    (step_i : BitVec Width) : BitVec Width :=
  let ext_cnt : BitVec (Width + 1) :=
    if decr_en then cnt_q.setWidth (Width + 1) - step_i.setWidth (Width + 1)
    else if incr_en then cnt_q.setWidth (Width + 1) + step_i.setWidth (Width + 1)
    else cnt_q.setWidth (Width + 1)
  let oflow := incr_en && ext_cnt.getLsbD Width
  let uflow := decr_en && ext_cnt.getLsbD Width
  let cnt_sat := if uflow then 0 else if oflow then .allOnes Width else ext_cnt.setWidth Width
  let cnt_en := (incr_en ^^ decr_en) &&
    ((incr_en && cnt_q != .allOnes Width) || (decr_en && cnt_q != 0))
  if clr_i then reset else if set_i then set_val else if cnt_en then cnt_sat else cnt_q

def primCountReset (ResetValue : BitVec Width) : CountRegs Width :=
  ⟨ResetValue, .allOnes Width - ResetValue⟩

/-- A clock edge of the counter. -/
def primCount (ResetValue : BitVec Width) (r : CountRegs Width) (i : CountIn Width) :
    CountRegs Width :=
  ⟨cntD ResetValue i.set_cnt_i r.primary i.clr_i i.set_i i.incr_en_i i.decr_en_i i.step_i,
    cntD (.allOnes Width - ResetValue) (.allOnes Width - i.set_cnt_i) r.secondary i.clr_i i.set_i
      i.decr_en_i i.incr_en_i i.step_i⟩

/-- `err_o`. -/
def CountRegs.err_o (r : CountRegs Width) : Bool :=
  r.primary.setWidth (Width + 1) + r.secondary.setWidth (Width + 1) !=
    (BitVec.allOnes Width).setWidth (Width + 1)

/-! ### What the counters hold -/

section Count

variable {reset set_val c : BitVec Width} (step : BitVec Width)

theorem lt_of_ne_allOnes (h : c ≠ .allOnes Width) : c.toNat < 2 ^ Width - 1 := by
  have hlt := c.isLt
  have hne : c.toNat ≠ 2 ^ Width - 1 := fun heq => h (BitVec.eq_of_toNat_eq (by
    rw [heq, BitVec.toNat_allOnes]))
  omega

/-- An increment saturates at the maximum. -/
theorem toNat_cntD_incr : (cntD reset set_val c false false true false step).toNat =
    min (c.toNat + step.toNat) (2 ^ Width - 1) := by
  have hstep := step.isLt
  by_cases hmax : c = .allOnes Width
  · subst hmax
    simp only [cntD, Bool.false_eq_true, if_false, Bool.true_and, Bool.false_and, Bool.or_false,
      bne_self_eq_false, Bool.and_false]
    rw [BitVec.toNat_allOnes]
    omega
  · have hlt := lt_of_ne_allOnes hmax
    have hpow : 2 ^ (Width + 1) = 2 * 2 ^ Width := Nat.pow_succ'
    have hext : (c.setWidth (Width + 1) + step.setWidth (Width + 1)).toNat =
        c.toNat + step.toNat := by
      rw [BitVec.toNat_add, BitVec.toNat_setWidth, BitVec.toNat_setWidth,
        Nat.mod_eq_of_lt (show c.toNat < 2 ^ (Width + 1) by omega),
        Nat.mod_eq_of_lt (show step.toNat < 2 ^ (Width + 1) by omega), Nat.mod_eq_of_lt (by omega)]
    have hflow : (c.setWidth (Width + 1) + step.setWidth (Width + 1)).getLsbD Width =
        decide (2 ^ Width ≤ c.toNat + step.toNat) := by
      rw [← BitVec.testBit_toNat, hext, Nat.testBit_eq_decide_div_mod_eq]
      congr 1
      rw [eq_iff_iff]
      by_cases hge : 2 ^ Width ≤ c.toNat + step.toNat
      · have : (c.toNat + step.toNat) / 2 ^ Width = 1 :=
          Nat.div_eq_of_lt_le (by omega) (by omega)
        simp [this, hge]
      · rw [Nat.div_eq_of_lt (by omega)]
        simp [hge]
    simp only [cntD, Bool.false_eq_true, if_false, if_true, Bool.true_and, Bool.false_and,
      Bool.or_false, Bool.xor_false, hflow, bne_iff_ne, ne_eq, hmax, not_false_eq_true]
    by_cases hge : 2 ^ Width ≤ c.toNat + step.toNat
    · rw [if_pos (decide_eq_true hge), BitVec.toNat_allOnes]
      omega
    · rw [decide_eq_false hge, if_neg Bool.false_ne_true, BitVec.toNat_setWidth, hext,
        Nat.mod_eq_of_lt (by omega)]
      omega

/-- A decrement saturates at zero. -/
theorem toNat_cntD_decr : (cntD reset set_val c false false false true step).toNat =
    c.toNat - step.toNat := by
  have hstep := step.isLt
  have hc := c.isLt
  by_cases hzero : c = 0
  · subst hzero
    simp only [cntD, Bool.false_eq_true, if_false, Bool.true_and, Bool.false_and, Bool.false_or,
      bne_self_eq_false, Bool.and_false]
    rw [show (0 : BitVec Width).toNat = 0 from BitVec.toNat_zero]
    omega
  · have hpow : 2 ^ (Width + 1) = 2 * 2 ^ Width := Nat.pow_succ'
    have hext : (c.setWidth (Width + 1) - step.setWidth (Width + 1)).toNat =
        if step.toNat ≤ c.toNat then c.toNat - step.toNat
        else 2 ^ (Width + 1) - step.toNat + c.toNat := by
      rw [BitVec.toNat_sub, BitVec.toNat_setWidth, BitVec.toNat_setWidth,
        Nat.mod_eq_of_lt (show c.toNat < 2 ^ (Width + 1) by omega),
        Nat.mod_eq_of_lt (show step.toNat < 2 ^ (Width + 1) by omega)]
      split_ifs with hle
      · rw [show 2 ^ (Width + 1) - step.toNat + c.toNat =
          c.toNat - step.toNat + 2 ^ (Width + 1) by omega, Nat.add_mod_right,
          Nat.mod_eq_of_lt (by omega)]
      · rw [Nat.mod_eq_of_lt (by omega)]
    have hflow : (c.setWidth (Width + 1) - step.setWidth (Width + 1)).getLsbD Width =
        decide (c.toNat < step.toNat) := by
      rw [← BitVec.testBit_toNat, hext, Nat.testBit_eq_decide_div_mod_eq]
      congr 1
      rw [eq_iff_iff]
      split_ifs with hle
      · rw [Nat.div_eq_of_lt (by omega)]
        simp [hle]
      · have : (2 ^ (Width + 1) - step.toNat + c.toNat) / 2 ^ Width = 1 :=
          Nat.div_eq_of_lt_le (by omega) (by omega)
        simp [this]
        omega
    simp only [cntD, Bool.false_eq_true, if_false, if_true, Bool.true_and, Bool.false_and,
      Bool.false_or, Bool.false_xor, hflow, bne_iff_ne, ne_eq, hzero, not_false_eq_true]
    by_cases hlt : c.toNat < step.toNat
    · rw [if_pos (decide_eq_true hlt)]
      rw [show (0 : BitVec Width).toNat = 0 from BitVec.toNat_zero]
      omega
    · rw [decide_eq_false hlt, if_neg Bool.false_ne_true, BitVec.toNat_setWidth, hext,
        if_pos (by omega), Nat.mod_eq_of_lt (by omega)]

theorem cntD_hold (b : Bool) : cntD reset set_val c false false b b step = c := by
  cases b <;> simp [cntD]

end Count

namespace CountRegs

/-- The two counters agree. -/
def Consistent (r : CountRegs Width) : Prop := r.secondary = .allOnes Width - r.primary

variable {r : CountRegs Width}

theorem toNat_allOnes_sub (x : BitVec Width) :
    (BitVec.allOnes Width - x).toNat = 2 ^ Width - 1 - x.toNat := by
  have hx := x.isLt
  rw [BitVec.toNat_sub_of_le (by rw [BitVec.le_def, BitVec.toNat_allOnes]; omega),
    BitVec.toNat_allOnes]

theorem err_o_eq_false (h : r.Consistent) : r.err_o = false := by
  rw [err_o, bne_eq_false_iff_eq, h]
  apply BitVec.eq_of_toNat_eq
  have hlt := r.primary.isLt
  have hpow : 2 ^ (Width + 1) = 2 * 2 ^ Width := Nat.pow_succ'
  rw [BitVec.toNat_add, BitVec.toNat_setWidth, BitVec.toNat_setWidth, BitVec.toNat_setWidth,
    toNat_allOnes_sub, BitVec.toNat_allOnes,
    Nat.mod_eq_of_lt (show r.primary.toNat < 2 ^ (Width + 1) by omega),
    Nat.mod_eq_of_lt (show 2 ^ Width - 1 - r.primary.toNat < 2 ^ (Width + 1) by omega)]
  congr 1
  omega

theorem consistent_reset (ResetValue : BitVec Width) : (primCountReset ResetValue).Consistent := rfl

/-- Every edge keeps the counters in agreement. -/
theorem Consistent.primCount (h : r.Consistent) (ResetValue : BitVec Width) (i : CountIn Width) :
    (SecureBoot.primCount ResetValue r i).Consistent := by
  obtain ⟨clr_i, set_i, set_cnt_i, incr_en_i, decr_en_i, step_i⟩ := i
  have hlt := r.primary.isLt
  have hsecondary : r.secondary.toNat = 2 ^ Width - 1 - r.primary.toNat := by
    rw [h, toNat_allOnes_sub]
  simp only [Consistent, SecureBoot.primCount]
  cases clr_i with
  | true => rfl
  | false =>
    cases set_i with
    | true => rfl
    | false =>
      apply BitVec.eq_of_toNat_eq
      rw [toNat_allOnes_sub]
      cases incr_en_i <;> cases decr_en_i
      · rw [cntD_hold, cntD_hold, hsecondary]
      · rw [toNat_cntD_incr, toNat_cntD_decr, hsecondary]
        omega
      · rw [toNat_cntD_incr, toNat_cntD_decr, hsecondary]
        omega
      · rw [cntD_hold, cntD_hold, hsecondary]

/-- The sum tells whether the counters agree. -/
theorem err_o_eq_false_iff : r.err_o = false ↔ r.Consistent := by
  refine ⟨fun herr => ?_, err_o_eq_false⟩
  rw [err_o, bne_eq_false_iff_eq] at herr
  have hsum := congrArg BitVec.toNat herr
  have hprimary := r.primary.isLt
  have hsecondary := r.secondary.isLt
  have hpow : 2 ^ (Width + 1) = 2 * 2 ^ Width := Nat.pow_succ'
  rw [BitVec.toNat_add, BitVec.toNat_setWidth, BitVec.toNat_setWidth, BitVec.toNat_setWidth,
    BitVec.toNat_allOnes, Nat.mod_eq_of_lt (show r.primary.toNat < 2 ^ (Width + 1) by omega),
    Nat.mod_eq_of_lt (show r.secondary.toNat < 2 ^ (Width + 1) by omega),
    Nat.mod_eq_of_lt (by omega), Nat.mod_eq_of_lt (by omega)] at hsum
  apply BitVec.eq_of_toNat_eq
  rw [toNat_allOnes_sub]
  omega

/-- The counter that the two registers stand for. -/
def satCount (ResetValue : BitVec Width) (cnt : ℕ) (i : CountIn Width) : ℕ :=
  if i.clr_i then ResetValue.toNat
  else if i.set_i then i.set_cnt_i.toNat
  else if i.incr_en_i && !i.decr_en_i then min (cnt + i.step_i.toNat) (2 ^ Width - 1)
  else if i.decr_en_i && !i.incr_en_i then cnt - i.step_i.toNat
  else cnt

theorem toNat_primary_primCount (ResetValue : BitVec Width) (r : CountRegs Width)
    (i : CountIn Width) : (SecureBoot.primCount ResetValue r i).primary.toNat =
      satCount ResetValue r.primary.toNat i := by
  obtain ⟨clr_i, set_i, set_cnt_i, incr_en_i, decr_en_i, step_i⟩ := i
  simp only [SecureBoot.primCount, satCount]
  cases clr_i with
  | true => rfl
  | false =>
    cases set_i with
    | true => rfl
    | false =>
      cases incr_en_i <;> cases decr_en_i
      · rw [cntD_hold]
        rfl
      · rw [toNat_cntD_decr]
        rfl
      · rw [toNat_cntD_incr]
        rfl
      · rw [cntD_hold]
        rfl

/-- The registers after a run from reset. -/
def run (ResetValue : BitVec Width) (inputs : List (CountIn Width)) : CountRegs Width :=
  inputs.foldl (SecureBoot.primCount ResetValue) (primCountReset ResetValue)

theorem consistent_run (ResetValue : BitVec Width) (inputs : List (CountIn Width)) :
    (run ResetValue inputs).Consistent := by
  induction inputs using List.reverseRecOn with
  | nil => exact consistent_reset ResetValue
  | append_singleton inputs i ih =>
    rw [run, List.foldl_append]
    exact ih.primCount ResetValue i

theorem toNat_primary_run (ResetValue : BitVec Width) (inputs : List (CountIn Width)) :
    (run ResetValue inputs).primary.toNat =
      inputs.foldl (satCount ResetValue) ResetValue.toNat := by
  induction inputs using List.reverseRecOn with
  | nil => rfl
  | append_singleton inputs i ih =>
    rw [run, List.foldl_append, List.foldl_append, ← ih]
    exact toNat_primary_primCount ResetValue _ i

end CountRegs

/-- The counter saturates and reports no error, and one register changed alone is reported at
once. -/
theorem prim_count_detects (ResetValue : BitVec Width) (inputs : List (CountIn Width)) :
    let r := CountRegs.run ResetValue inputs
    r.primary.toNat = inputs.foldl (CountRegs.satCount ResetValue) ResetValue.toNat ∧
    r.primary.toNat + r.secondary.toNat = 2 ^ Width - 1 ∧
    r.err_o = false ∧
    (∀ x, x ≠ r.primary → ({ r with primary := x } : CountRegs Width).err_o = true) ∧
    ∀ x, x ≠ r.secondary → ({ r with secondary := x } : CountRegs Width).err_o = true := by
  intro r
  have hr : r.Consistent := CountRegs.consistent_run ResetValue inputs
  refine ⟨CountRegs.toNat_primary_run ResetValue inputs, ?_, CountRegs.err_o_eq_false hr, ?_, ?_⟩
  · have hlt := r.primary.isLt
    rw [hr, CountRegs.toNat_allOnes_sub]
    omega
  · intro x hx
    rw [← Bool.not_eq_false, CountRegs.err_o_eq_false_iff]
    intro hsum
    apply hx
    have heq : BitVec.allOnes Width - r.primary = .allOnes Width - x := hr.symm.trans hsum
    exact (BitVec.sub_right_inj _).mp heq.symm
  · intro x hx
    rw [← Bool.not_eq_false, CountRegs.err_o_eq_false_iff]
    intro hsum
    exact hx (hsum.trans hr.symm)

end SecureBoot
