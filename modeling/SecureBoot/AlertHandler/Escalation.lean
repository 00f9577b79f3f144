import Mathlib.Data.Nat.Count
import SecureBoot.AlertHandler.EscTimer

/-! What a class does over a whole run, told by its inputs: what the accumulator counts,
when escalation starts, and which phase a cycle belongs to. -/

namespace SecureBoot.AlertHandler

attribute [local instance] neZero_nPhases

variable (cfg : ClassConfig) (inp : ℕ → ClassIn)

/-! ### The history of a class -/

/-- The outputs of the class in cycle `t`. -/
def outAt (t : ℕ) : EscTimerOut := (classAt cfg inp t).out cfg (inp t)

def Triggered (t : ℕ) : Prop := (inp t).class_trig = true ∧ (inp t).class_en = true

instance : DecidablePred (Triggered inp) := fun _ => inferInstanceAs (Decidable (_ ∧ _))

/-- A trigger of cycle `u` that no clear up to cycle `t` has removed. -/
def Counted (t u : ℕ) : Prop := Triggered inp u ∧ ∀ v < t, u ≤ v → (inp v).class_clr = false

instance (t : ℕ) : DecidablePred (Counted inp t) := fun _ => inferInstanceAs (Decidable (_ ∧ _))

/-- The enabled triggers before cycle `t` since the last clear. -/
def triggersSinceClear (t : ℕ) : ℕ := Nat.count (Counted inp t) t

/-- An enabled trigger that is not cleared and finds enough others. -/
def TriggerEscalates (t : ℕ) : Prop :=
  Triggered inp t ∧ (inp t).class_clr = false ∧
    cfg.class_accum_thresh.toNat ≤ triggersSinceClear inp t

/-- The interrupt started the timeout of an enabled idle class in cycle `start`, and up to
cycle `t` it was high and nothing escalated. -/
def Waiting (start t : ℕ) : Prop :=
  (outAt cfg inp start).esc_state_o = .Idle ∧ (inp start).class_en = true ∧
    ∀ u, start ≤ u → u < t → (inp u).irq = true ∧ (outAt cfg inp u).esc_trig_o = false

/-- The interrupt stayed high for the cycles of a non-zero timeout. -/
def TimeoutEscalates (t : ℕ) : Prop :=
  0 < cfg.class_timeout_cyc.toNat ∧ (inp t).irq = true ∧
    ∃ start, t = start + cfg.class_timeout_cyc.toNat ∧ Waiting cfg inp start t

/-- Escalation started in cycle `start`, and no clear came since. -/
def EscalatingSince (start t : ℕ) : Prop :=
  start < t ∧ (outAt cfg inp start).esc_trig_o = true ∧
    ∀ u, start < u → u < t → (inp u).class_clr = false

def Escalating (t : ℕ) : Prop := ∃ start, EscalatingSince cfg inp start t

/-- The cycles of phase `k`. -/
def phaseDuration (k : ℕ) : ℕ := max 1 (cfg.class_phase_cyc (Fin.ofNat N_PHASES k)).toNat

/-- The cycles of the phases before phase `k`. -/
def phaseStart : ℕ → ℕ
  | 0 => 0
  | k + 1 => phaseStart k + phaseDuration cfg k

/-! ### One cycle -/

variable {cfg inp} {t : ℕ}

/-- Both counters of the class, which no run makes inconsistent. -/
theorem consistent_classAt (t : ℕ) : (classAt cfg inp t).u_accu.Consistent ∧
    (classAt cfg inp t).u_esc_timer.u_prim_count.Consistent := by
  induction t with
  | zero => exact ⟨CountRegs.consistent_reset 0, CountRegs.consistent_reset 0⟩
  | succ t ih => exact ⟨ih.1.primCount _ _, ih.2.primCount _ _⟩

/-- The inputs of the timer in cycle `t`. -/
def timerIn (cfg : ClassConfig) (inp : ℕ → ClassIn) (t : ℕ) : EscTimerIn :=
  (classAt cfg inp t).escTimerIn cfg (inp t)

@[simp] theorem timerIn_en_i : (timerIn cfg inp t).en_i = (inp t).class_en := rfl
@[simp] theorem timerIn_clr_i : (timerIn cfg inp t).clr_i = (inp t).class_clr := rfl
@[simp] theorem timerIn_timeout_en_i : (timerIn cfg inp t).timeout_en_i = (inp t).irq := rfl
@[simp] theorem timerIn_timeout_cyc_i :
    (timerIn cfg inp t).timeout_cyc_i = cfg.class_timeout_cyc := rfl
@[simp] theorem timerIn_phase_cyc_i : (timerIn cfg inp t).phase_cyc_i = cfg.class_phase_cyc := rfl

@[simp] theorem timerIn_accu_fail_i : (timerIn cfg inp t).accu_fail_i = false :=
  CountRegs.err_o_eq_false (consistent_classAt t).1

/-- Without an inconsistent counter the case analysis decides. -/
theorem outAt_eq (cfg : ClassConfig) (inp : ℕ → ClassIn) (t : ℕ) :
    outAt cfg inp t = (classAt cfg inp t).u_esc_timer.caseState (timerIn cfg inp t) := by
  rw [outAt, ClassRegs.out, ← timerIn, EscTimer.p_fsm, timerIn_accu_fail_i,
    CountRegs.err_o_eq_false (consistent_classAt t).2]
  rfl

/-- The timer's counter after a cycle with these controls. -/
def nextCnt (out : EscTimerOut) (n : ℕ) : ℕ :=
  if out.cnt_clr then (if out.cnt_en then 1 else 0)
  else if out.cnt_en then min (n + 1) (2 ^ EscCntDw - 1) else n

/-- The state and the counter of the timer in cycle `t`. -/
def stateAt (cfg : ClassConfig) (inp : ℕ → ClassIn) (t : ℕ) : EscState :=
  (classAt cfg inp t).u_esc_timer.state_q

def cntAt (cfg : ClassConfig) (inp : ℕ → ClassIn) (t : ℕ) : ℕ :=
  (classAt cfg inp t).u_esc_timer.esc_cnt_o.toNat

theorem stateAt_succ (t : ℕ) : stateAt cfg inp (t + 1) = (outAt cfg inp t).state_d := rfl

theorem cntAt_succ (t : ℕ) : cntAt cfg inp (t + 1) = nextCnt (outAt cfg inp t) (cntAt cfg inp t) := by
  change (primCount 0 _ _).primary.toNat = _
  rw [primCount, nextCnt]
  change (cntD _ _ _ ((outAt cfg inp t).cnt_clr && !(outAt cfg inp t).cnt_en)
    ((outAt cfg inp t).cnt_clr && (outAt cfg inp t).cnt_en) (outAt cfg inp t).cnt_en false 1).toNat = _
  cases (outAt cfg inp t).cnt_clr <;> cases (outAt cfg inp t).cnt_en
  · rw [Bool.false_and, Bool.false_and, cntD_hold]
    rfl
  · rw [Bool.false_and, Bool.false_and, toNat_cntD_incr]
    rfl
  · rfl
  · rfl

/-! ### The accumulator -/

theorem counted_succ_of_clr (hclr : (inp t).class_clr = true) {u : ℕ} (hu : u ≤ t) :
    ¬Counted inp (t + 1) u := by
  rintro ⟨-, h⟩
  exact absurd hclr (by rw [h t (Nat.lt_succ_self t) hu]; decide)

theorem counted_succ_iff (hclr : (inp t).class_clr = false) {u : ℕ} :
    Counted inp (t + 1) u ↔ Counted inp t u := by
  refine and_congr_right fun _ => ⟨fun h v hv => h v (Nat.lt_succ_of_lt hv), fun h v hv huv => ?_⟩
  obtain hlt | rfl := Nat.lt_succ_iff_lt_or_eq.1 hv
  · exact h v hlt huv
  · exact hclr

theorem counted_self_iff : Counted inp t t ↔ Triggered inp t :=
  and_iff_left fun _ hv hle => absurd hv (Nat.not_lt.2 hle)

theorem triggersSinceClear_succ (t : ℕ) : triggersSinceClear inp (t + 1) =
    if (inp t).class_clr then 0
    else triggersSinceClear inp t + if Triggered inp t then 1 else 0 := by
  rw [triggersSinceClear, triggersSinceClear]
  cases hclr : (inp t).class_clr with
  | true =>
    rw [if_pos rfl, Nat.count_iff_forall_not]
    exact fun u hu => counted_succ_of_clr hclr (Nat.lt_succ_iff.1 hu)
  | false =>
    have hcount : Nat.count (Counted inp (t + 1)) t = Nat.count (Counted inp t) t :=
      Nat.le_antisymm (Nat.count_mono_left fun _ _ => (counted_succ_iff hclr).1)
        (Nat.count_mono_left fun _ _ => (counted_succ_iff hclr).2)
    rw [Nat.count_succ, hcount]
    simp only [counted_succ_iff hclr, counted_self_iff, Bool.false_eq_true, if_false]

/-- The accumulator saturates at its maximum. -/
theorem accu_cnt_classAt (t : ℕ) : (classAt cfg inp t).u_accu.primary.toNat =
    min (triggersSinceClear inp t) (2 ^ AccuCntDw - 1) := by
  induction t with
  | zero => rfl
  | succ t ih =>
    rw [triggersSinceClear_succ]
    have hlt := (classAt cfg inp t).u_accu.primary.isLt
    change (cntD 0 0 (classAt cfg inp t).u_accu.primary (inp t).class_clr false
      ((inp t).class_trig && (inp t).class_en &&
        (classAt cfg inp t).u_accu.primary != .allOnes AccuCntDw) false 1).toNat = _
    cases (inp t).class_clr with
    | true => rfl
    | false =>
      rw [if_neg Bool.false_ne_true]
      cases htrig : (inp t).class_trig && (inp t).class_en with
      | false =>
        have hnot : ¬Triggered inp t := fun h => by simp [h.1, h.2] at htrig
        rw [if_neg hnot, Nat.add_zero, ← ih, Bool.false_and, cntD_hold]
      | true =>
        have hyes : Triggered inp t := Bool.and_eq_true_iff.1 htrig
        rw [if_pos hyes, Bool.true_and]
        by_cases hmax : (classAt cfg inp t).u_accu.primary = .allOnes AccuCntDw
        · rw [bne_eq_false_iff_eq.2 hmax, cntD_hold, ih]
          have htop := congrArg BitVec.toNat hmax
          rw [BitVec.toNat_allOnes, ih] at htop
          omega
        · rw [bne_iff_ne.2 hmax, toNat_cntD_incr, ih, show (1 : BitVec AccuCntDw).toNat = 1 from rfl]
          omega

/-! ### The timer, state by state -/

theorem trigger_guard_iff :
    ((timerIn cfg inp t).accu_trig_i && (inp t).class_en && !(inp t).class_clr) = true ↔
      TriggerEscalates cfg inp t := by
  have hthresh := cfg.class_accum_thresh.isLt
  have hle : cfg.class_accum_thresh ≤ (classAt cfg inp t).u_accu.primary ↔
      cfg.class_accum_thresh.toNat ≤ triggersSinceClear inp t := by
    rw [BitVec.le_def, accu_cnt_classAt]
    omega
  simp only [timerIn, ClassRegs.escTimerIn, accu_trig_o, ClassRegs.accuIn, AccuIn.trig_gated,
    TriggerEscalates, Triggered, Bool.and_eq_true, decide_eq_true_eq, hle, Bool.not_eq_true']
  tauto

theorem cnt_ge_iff (thresh : BitVec EscCntDw) :
    (classAt cfg inp t).u_esc_timer.cnt_ge thresh = true ↔ thresh.toNat ≤ cntAt cfg inp t := by
  rw [EscTimer.cnt_ge, decide_eq_true_eq, BitVec.le_def]
  rfl

/-- The state of phase `k`. -/
def EscState.phase : Fin N_PHASES → EscState
  | 0 => .Phase0St
  | 1 => .Phase1St
  | 2 => .Phase2St
  | 3 => .Phase3St

/-- The state after phase `k`. -/
def EscState.afterPhase : Fin N_PHASES → EscState
  | 0 => .Phase1St
  | 1 => .Phase2St
  | 2 => .Phase3St
  | 3 => .TerminalSt

theorem outAt_idle (hstate : stateAt cfg inp t = .IdleSt) (hcnt : cntAt cfg inp t = 0) :
    (outAt cfg inp t).esc_state_o = .Idle ∧ (outAt cfg inp t).phase_oh = 0 ∧
      ((outAt cfg inp t).esc_trig_o = true ↔ TriggerEscalates cfg inp t) ∧
      (TriggerEscalates cfg inp t ∧
          stateAt cfg inp (t + 1) = .phase 0 ∧ cntAt cfg inp (t + 1) = 1 ∨
        ¬TriggerEscalates cfg inp t ∧ (inp t).irq = true ∧ 0 < cfg.class_timeout_cyc.toNat ∧
          (inp t).class_en = true ∧
          stateAt cfg inp (t + 1) = .TimeoutSt ∧ cntAt cfg inp (t + 1) = 1 ∨
        ¬TriggerEscalates cfg inp t ∧ ¬((inp t).irq = true ∧ 0 < cfg.class_timeout_cyc.toNat ∧
          (inp t).class_en = true) ∧
          stateAt cfg inp (t + 1) = .IdleSt ∧ cntAt cfg inp (t + 1) = 0) := by
  have hout := outAt_eq cfg inp t
  simp only [EscTimer.caseState, show (classAt cfg inp t).u_esc_timer.state_q = .IdleSt from hstate,
    timerIn_en_i, timerIn_clr_i, timerIn_timeout_en_i, timerIn_timeout_cyc_i] at hout
  by_cases htrig : TriggerEscalates cfg inp t
  · simp only [trigger_guard_iff.2 htrig, if_true] at hout
    refine ⟨by rw [hout], by rw [hout], by simp [hout, htrig], .inl ⟨htrig, ?_, ?_⟩⟩
    · rw [stateAt_succ, hout]
      rfl
    · rw [cntAt_succ, hout]
      rfl
  · simp only [Bool.eq_false_iff.2 (mt trigger_guard_iff.1 htrig), Bool.false_eq_true, if_false] at hout
    have hguard : ((inp t).irq &&
        !(classAt cfg inp t).u_esc_timer.cnt_ge cfg.class_timeout_cyc && (inp t).class_en) = true ↔
          (inp t).irq = true ∧ 0 < cfg.class_timeout_cyc.toNat ∧ (inp t).class_en = true := by
      rw [Bool.and_eq_true, Bool.and_eq_true, Bool.not_eq_true', ← Bool.not_eq_true, cnt_ge_iff,
        hcnt, Nat.not_le, and_assoc]
    by_cases hwait : (inp t).irq = true ∧ 0 < cfg.class_timeout_cyc.toNat ∧ (inp t).class_en = true
    · simp only [hguard.2 hwait, if_true] at hout
      refine ⟨by rw [hout], by rw [hout], by simp [hout, htrig], .inr (.inl ⟨htrig, hwait.1, hwait.2.1, hwait.2.2, ?_, ?_⟩)⟩
      · rw [stateAt_succ, hout]
      · rw [cntAt_succ, hout]
        rfl
    · simp only [Bool.eq_false_iff.2 (mt hguard.1 hwait), Bool.false_eq_true, if_false] at hout
      refine ⟨by rw [hout], by rw [hout], by simp [hout, htrig], .inr (.inr ⟨htrig, hwait, ?_, ?_⟩)⟩
      · rw [stateAt_succ, hout]
      · rw [cntAt_succ, hout]
        rfl

theorem outAt_timeout (hstate : stateAt cfg inp t = .TimeoutSt) :
    (outAt cfg inp t).esc_state_o = .Timeout ∧ (outAt cfg inp t).phase_oh = 0 ∧
      ((outAt cfg inp t).esc_trig_o = true ↔ TriggerEscalates cfg inp t ∨
        cfg.class_timeout_cyc.toNat ≤ cntAt cfg inp t ∧ (inp t).irq = true) ∧
      ((outAt cfg inp t).esc_trig_o = true ∧
          stateAt cfg inp (t + 1) = .phase 0 ∧ cntAt cfg inp (t + 1) = 1 ∨
        (outAt cfg inp t).esc_trig_o = false ∧ (inp t).irq = true ∧
          stateAt cfg inp (t + 1) = .TimeoutSt ∧
          cntAt cfg inp (t + 1) = min (cntAt cfg inp t + 1) (2 ^ EscCntDw - 1) ∨
        (outAt cfg inp t).esc_trig_o = false ∧ (inp t).irq = false ∧
          stateAt cfg inp (t + 1) = .IdleSt ∧ cntAt cfg inp (t + 1) = 0) := by
  have hout := outAt_eq cfg inp t
  simp only [EscTimer.caseState, show (classAt cfg inp t).u_esc_timer.state_q = .TimeoutSt from hstate,
    timerIn_en_i, timerIn_clr_i, timerIn_timeout_en_i, timerIn_timeout_cyc_i] at hout
  have hguard : ((timerIn cfg inp t).accu_trig_i && (inp t).class_en && !(inp t).class_clr ||
        (classAt cfg inp t).u_esc_timer.cnt_ge cfg.class_timeout_cyc && (inp t).irq) = true ↔
      TriggerEscalates cfg inp t ∨
        cfg.class_timeout_cyc.toNat ≤ cntAt cfg inp t ∧ (inp t).irq = true := by
    rw [Bool.or_eq_true, trigger_guard_iff, Bool.and_eq_true, cnt_ge_iff]
  by_cases hesc : TriggerEscalates cfg inp t ∨
      cfg.class_timeout_cyc.toNat ≤ cntAt cfg inp t ∧ (inp t).irq = true
  · simp only [hguard.2 hesc, if_true] at hout
    refine ⟨by rw [hout], by rw [hout], by simp [hout, hesc], .inl ⟨by rw [hout], ?_, ?_⟩⟩
    · rw [stateAt_succ, hout]
      rfl
    · rw [cntAt_succ, hout]
      rfl
  · simp only [Bool.eq_false_iff.2 (mt hguard.1 hesc), Bool.false_eq_true, if_false] at hout
    cases hirq : (inp t).irq with
    | true =>
      simp only [hirq, if_true] at hout
      rw [hirq] at hesc
      refine ⟨by rw [hout], by rw [hout], iff_of_false (by simp [hout]) hesc, .inr (.inl ⟨by rw [hout], rfl, ?_, ?_⟩)⟩
      · rw [stateAt_succ, hout]
      · rw [cntAt_succ, hout]
        rfl
    | false =>
      simp only [hirq, Bool.false_eq_true, if_false] at hout
      rw [hirq] at hesc
      refine ⟨by rw [hout], by rw [hout], iff_of_false (by simp [hout]) hesc, .inr (.inr ⟨by rw [hout], rfl, ?_, ?_⟩)⟩
      · rw [stateAt_succ, hout]
      · rw [cntAt_succ, hout]
        rfl

theorem outAt_phase {k : Fin N_PHASES} (hstate : stateAt cfg inp t = .phase k) :
    (outAt cfg inp t).esc_state_o = .Phase k ∧ (outAt cfg inp t).esc_trig_o = false ∧
      (outAt cfg inp t).phase_oh = .twoPow N_PHASES k ∧
      ((inp t).class_clr = true ∧
          stateAt cfg inp (t + 1) = .IdleSt ∧ cntAt cfg inp (t + 1) = 0 ∨
        (inp t).class_clr = false ∧ (cfg.class_phase_cyc k).toNat ≤ cntAt cfg inp t ∧
          stateAt cfg inp (t + 1) = .afterPhase k ∧ (k ≠ 3 → cntAt cfg inp (t + 1) = 1) ∨
        (inp t).class_clr = false ∧ cntAt cfg inp t < (cfg.class_phase_cyc k).toNat ∧
          stateAt cfg inp (t + 1) = .phase k ∧
          cntAt cfg inp (t + 1) = min (cntAt cfg inp t + 1) (2 ^ EscCntDw - 1)) := by
  have hout : outAt cfg inp t = (classAt cfg inp t).u_esc_timer.phaseSt
      (timerIn cfg inp t) k (.phase k) (.afterPhase k) (k != 3) := by
    rw [outAt_eq, EscTimer.caseState, show (classAt cfg inp t).u_esc_timer.state_q = _ from hstate]
    match k with
    | 0 | 1 | 2 | 3 => rfl
  simp only [EscTimer.phaseSt, timerIn_clr_i, timerIn_phase_cyc_i] at hout
  cases hclr : (inp t).class_clr with
  | true =>
    simp only [hclr, if_true] at hout
    refine ⟨by rw [hout], by rw [hout], by rw [hout], .inl ⟨rfl, ?_, ?_⟩⟩
    · rw [stateAt_succ, hout]
    · rw [cntAt_succ, hout]
      rfl
  | false =>
    simp only [hclr, Bool.false_eq_true, if_false] at hout
    by_cases hge : (cfg.class_phase_cyc k).toNat ≤ cntAt cfg inp t
    · simp only [(cnt_ge_iff _).2 hge, if_true] at hout
      refine ⟨by rw [hout], by rw [hout], by rw [hout], .inr (.inl ⟨rfl, hge, ?_, fun hk => ?_⟩)⟩
      · rw [stateAt_succ, hout]
      · rw [cntAt_succ, hout, nextCnt, if_pos rfl, if_pos (bne_iff_ne.2 hk)]
    · simp only [Bool.eq_false_iff.2 (mt (cnt_ge_iff _).1 hge), Bool.false_eq_true, if_false] at hout
      refine ⟨by rw [hout], by rw [hout], by rw [hout], .inr (.inr ⟨rfl, Nat.lt_of_not_le hge, ?_, ?_⟩)⟩
      · rw [stateAt_succ, hout]
      · rw [cntAt_succ, hout]
        rfl

theorem outAt_terminal (hstate : stateAt cfg inp t = .TerminalSt) :
    (outAt cfg inp t).esc_state_o = .Terminal ∧ (outAt cfg inp t).esc_trig_o = false ∧
      (outAt cfg inp t).phase_oh = 0 ∧ cntAt cfg inp (t + 1) = 0 ∧
      ((inp t).class_clr = true ∧ stateAt cfg inp (t + 1) = .IdleSt ∨
        (inp t).class_clr = false ∧ stateAt cfg inp (t + 1) = .TerminalSt) := by
  have hout := outAt_eq cfg inp t
  simp only [EscTimer.caseState, show (classAt cfg inp t).u_esc_timer.state_q = .TerminalSt from hstate]
    at hout
  refine ⟨by rw [hout], by rw [hout], by rw [hout], by rw [cntAt_succ, hout]; rfl, ?_⟩
  rw [stateAt_succ, hout]
  cases hclr : (inp t).class_clr with
  | true => exact .inl ⟨rfl, if_pos hclr⟩
  | false =>
    refine .inr ⟨rfl, if_neg ?_⟩
    rw [timerIn_clr_i, hclr]
    exact Bool.false_ne_true

/-! ### The history behind each state -/

theorem escalatingSince_succ {start : ℕ} (h : EscalatingSince cfg inp start t)
    (hclr : (inp t).class_clr = false) : EscalatingSince cfg inp start (t + 1) := by
  refine ⟨Nat.lt_succ_of_lt h.1, h.2.1, fun u hu hut => ?_⟩
  obtain hlt | rfl := Nat.lt_succ_iff_lt_or_eq.1 hut
  · exact h.2.2 u hu hlt
  · exact hclr

theorem escalatingSince_now (h : (outAt cfg inp t).esc_trig_o = true) :
    EscalatingSince cfg inp t (t + 1) :=
  ⟨Nat.lt_succ_self t, h, fun _ hu hut => absurd hu (by omega)⟩

theorem not_escalating_succ (hquiet : ¬Escalating cfg inp t)
    (htrig : (outAt cfg inp t).esc_trig_o = false) : ¬Escalating cfg inp (t + 1) := by
  rintro ⟨start, hlt, hstart, hclr⟩
  obtain hlt | rfl := Nat.lt_succ_iff_lt_or_eq.1 hlt
  · exact hquiet ⟨start, hlt, hstart, fun u hu hut => hclr u hu (Nat.lt_succ_of_lt hut)⟩
  · exact absurd hstart (by rw [htrig]; exact Bool.false_ne_true)

theorem not_escalating_of_clr (hclr : (inp t).class_clr = true)
    (htrig : (outAt cfg inp t).esc_trig_o = false) : ¬Escalating cfg inp (t + 1) := by
  rintro ⟨start, hlt, hstart, hclr'⟩
  obtain hlt | rfl := Nat.lt_succ_iff_lt_or_eq.1 hlt
  · exact absurd hclr (by rw [hclr' t hlt (Nat.lt_succ_self t)]; exact Bool.false_ne_true)
  · exact absurd hstart (by rw [htrig]; exact Bool.false_ne_true)

/-- What the state and the counter of the timer tell about the cycles before. -/
inductive History (cfg : ClassConfig) (inp : ℕ → ClassIn) (t : ℕ) : EscState → ℕ → Prop
  | idle (hquiet : ¬Escalating cfg inp t) : History cfg inp t .IdleSt 0
  | timeout (n start : ℕ) (hquiet : ¬Escalating cfg inp t) (hpos : 0 < n)
      (hle : n ≤ cfg.class_timeout_cyc.toNat) (ht : t = start + n)
      (hwait : Waiting cfg inp start t) : History cfg inp t .TimeoutSt n
  | phase (k : Fin N_PHASES) (n start : ℕ) (hpos : 0 < n) (hle : n ≤ phaseDuration cfg k)
      (hsince : EscalatingSince cfg inp start t) (ht : t = start + phaseStart cfg k + n) :
      History cfg inp t (.phase k) n
  | terminal (n start : ℕ) (hsince : EscalatingSince cfg inp start t)
      (ht : start + phaseStart cfg N_PHASES < t) : History cfg inp t .TerminalSt n

theorem phaseDuration_eq (k : Fin N_PHASES) :
    phaseDuration cfg k = max 1 (cfg.class_phase_cyc k).toNat := by
  rw [phaseDuration, Fin.ofNat_val_eq_self]

theorem phaseDuration_le (k : ℕ) : phaseDuration cfg k ≤ 2 ^ EscCntDw - 1 :=
  Nat.max_le.2 ⟨by decide, Nat.le_pred_of_lt (cfg.class_phase_cyc (Fin.ofNat N_PHASES k)).isLt⟩

/-- Escalation that starts leads to the first phase. -/
theorem History.start (hesc : (outAt cfg inp t).esc_trig_o = true) :
    History cfg inp (t + 1) (.phase 0) 1 :=
  .phase 0 1 t Nat.one_pos (Nat.le_max_left _ _) (escalatingSince_now hesc) rfl

theorem History.afterPhase {k : Fin N_PHASES} {start : ℕ}
    (hsince : EscalatingSince cfg inp start (t + 1))
    (ht : t = start + phaseStart cfg k + phaseDuration cfg k)
    (hcnt : k ≠ 3 → cntAt cfg inp (t + 1) = 1) :
    History cfg inp (t + 1) (.afterPhase k) (cntAt cfg inp (t + 1)) := by
  have hnext : t = start + phaseStart cfg (k + 1) := by rw [ht, phaseStart, Nat.add_assoc]
  match k with
  | 0 =>
    rw [hcnt (by decide)]
    exact .phase 1 1 start Nat.one_pos (Nat.le_max_left _ _) hsince (congrArg (· + 1) hnext)
  | 1 =>
    rw [hcnt (by decide)]
    exact .phase 2 1 start Nat.one_pos (Nat.le_max_left _ _) hsince (congrArg (· + 1) hnext)
  | 2 =>
    rw [hcnt (by decide)]
    exact .phase 3 1 start Nat.one_pos (Nat.le_max_left _ _) hsince (congrArg (· + 1) hnext)
  | 3 => exact .terminal _ start hsince (Nat.lt_succ_of_le hnext.ge)

theorem history_succ (h : History cfg inp t (stateAt cfg inp t) (cntAt cfg inp t)) :
    History cfg inp (t + 1) (stateAt cfg inp (t + 1)) (cntAt cfg inp (t + 1)) := by
  generalize hstate : stateAt cfg inp t = state at h
  generalize hcnt : cntAt cfg inp t = n at h
  cases h with
  | idle hquiet =>
    obtain ⟨hidle, -, htrig, hnext⟩ := outAt_idle hstate hcnt
    obtain ⟨hesc, hs, hn⟩ | ⟨hesc, hirq, hT, hen, hs, hn⟩ | ⟨hesc, -, hs, hn⟩ := hnext
    · rw [hs, hn]
      exact .start (htrig.2 hesc)
    · have hno := Bool.eq_false_iff.2 (mt htrig.1 hesc)
      rw [hs, hn]
      refine .timeout 1 t (not_escalating_succ hquiet hno) Nat.one_pos hT rfl ⟨hidle, hen, ?_⟩
      intro u hle hlt
      obtain rfl : u = t := by omega
      exact ⟨hirq, hno⟩
    · rw [hs, hn]
      exact .idle (not_escalating_succ hquiet (Bool.eq_false_iff.2 (mt htrig.1 hesc)))
  | timeout _ start hquiet hpos hle ht hwait =>
    obtain ⟨-, -, htrig, hnext⟩ := outAt_timeout hstate
    obtain ⟨hesc, hs, hn⟩ | ⟨hesc, hirq, hs, hn⟩ | ⟨hesc, -, hs, hn⟩ := hnext
    · rw [hs, hn]
      exact .start hesc
    · have hlt : n < cfg.class_timeout_cyc.toNat := by
        by_contra hge
        exact Bool.eq_false_iff.1 hesc (htrig.2 (.inr ⟨by rw [hcnt]; omega, hirq⟩))
      have hmax : n + 1 ≤ 2 ^ EscCntDw - 1 :=
        hlt.trans_le (Nat.le_pred_of_lt cfg.class_timeout_cyc.isLt)
      rw [hs, hn, hcnt, Nat.min_eq_left hmax]
      refine .timeout (n + 1) start (not_escalating_succ hquiet hesc) (Nat.succ_pos n) hlt
        (by rw [ht, Nat.add_assoc]) ⟨hwait.1, hwait.2.1, fun u hle hut => ?_⟩
      obtain hut | rfl := Nat.lt_succ_iff_lt_or_eq.1 hut
      · exact hwait.2.2 u hle hut
      · exact ⟨hirq, hesc⟩
    · rw [hs, hn]
      exact .idle (not_escalating_succ hquiet hesc)
  | phase k _ start hpos hle hsince ht =>
    obtain ⟨-, htrig, -, hnext⟩ := outAt_phase hstate
    obtain ⟨hclr, hs, hn⟩ | ⟨hclr, hge, hs, hn⟩ | ⟨hclr, hlt, hs, hn⟩ := hnext
    · rw [hs, hn]
      exact .idle (not_escalating_of_clr hclr htrig)
    · have hend : n = phaseDuration cfg k := by
        rw [phaseDuration_eq] at hle ⊢
        omega
      rw [hs]
      exact .afterPhase (escalatingSince_succ hsince hclr) (hend ▸ ht) hn
    · have hlt' : n < phaseDuration cfg k := by
        rw [phaseDuration_eq]
        omega
      rw [hs, hn, hcnt, Nat.min_eq_left (hlt'.trans_le (phaseDuration_le k))]
      exact .phase k (n + 1) start (Nat.succ_pos n) hlt' (escalatingSince_succ hsince hclr)
        (by rw [ht, Nat.add_assoc])
  | terminal _ start hsince ht =>
    obtain ⟨-, htrig, -, hn, ⟨hclr, hs⟩ | ⟨hclr, hs⟩⟩ := outAt_terminal hstate
    · rw [hs, hn]
      exact .idle (not_escalating_of_clr hclr htrig)
    · rw [hs]
      exact .terminal _ start (escalatingSince_succ hsince hclr) (Nat.lt_succ_of_lt ht)

theorem history (cfg : ClassConfig) (inp : ℕ → ClassIn) (t : ℕ) :
    History cfg inp t (stateAt cfg inp t) (cntAt cfg inp t) := by
  induction t with
  | zero => exact .idle fun ⟨start, hlt, _⟩ => absurd hlt (Nat.not_lt_zero start)
  | succ t ih => exact history_succ ih

/-! ### The history decides -/

theorem not_escalating_of_trig (h : (outAt cfg inp t).esc_trig_o = true) :
    ¬Escalating cfg inp t := by
  have hhist := history cfg inp t
  generalize hstate : stateAt cfg inp t = state at hhist
  generalize cntAt cfg inp t = n at hhist
  cases hhist with
  | idle hquiet => exact hquiet
  | timeout _ _ hquiet => exact hquiet
  | phase k => exact absurd h (by rw [(outAt_phase hstate).2.1]; exact Bool.false_ne_true)
  | terminal => exact absurd h (by rw [(outAt_terminal hstate).2.1]; exact Bool.false_ne_true)

theorem EscalatingSince.le {start start' : ℕ} (h : EscalatingSince cfg inp start t)
    (h' : EscalatingSince cfg inp start' t) : start' ≤ start := by
  by_contra hlt
  refine not_escalating_of_trig h'.2.1 ⟨start, Nat.lt_of_not_le hlt, h.2.1, fun u hu hut => ?_⟩
  exact h.2.2 u hu (hut.trans h'.1)

theorem EscalatingSince.unique {start start' : ℕ} (h : EscalatingSince cfg inp start t)
    (h' : EscalatingSince cfg inp start' t) : start = start' :=
  Nat.le_antisymm (h'.le h) (h.le h')

theorem phaseStart_mono {j k : ℕ} (h : j ≤ k) : phaseStart cfg j ≤ phaseStart cfg k := by
  induction k with
  | zero => rw [Nat.le_zero.1 h]
  | succ k ih =>
    obtain hle | rfl := Nat.le_succ_iff.1 h
    · exact (ih hle).trans (Nat.le_add_right _ _)
    · exact Nat.le_refl _

/-- A cycle belongs to one phase at most. -/
theorem phase_unique {start j k : ℕ} (hj : start + phaseStart cfg j < t)
    (hj' : t ≤ start + phaseStart cfg (j + 1)) (hk : start + phaseStart cfg k < t)
    (hk' : t ≤ start + phaseStart cfg (k + 1)) : j = k := by
  obtain hlt | rfl | hlt := Nat.lt_trichotomy j k
  · have hmono : phaseStart cfg (j + 1) ≤ phaseStart cfg k := phaseStart_mono hlt
    omega
  · rfl
  · have hmono : phaseStart cfg (k + 1) ≤ phaseStart cfg j := phaseStart_mono hlt
    omega

/-- A class that waits is in the timeout state and counts the cycles since the start. -/
theorem state_of_waiting {start n : ℕ} (hpos : 0 < n) (hle : n ≤ cfg.class_timeout_cyc.toNat)
    (hwait : Waiting cfg inp start (start + n)) :
    stateAt cfg inp (start + n) = .TimeoutSt ∧ cntAt cfg inp (start + n) = n := by
  induction n with
  | zero => exact absurd hpos (Nat.lt_irrefl 0)
  | succ n ih =>
    obtain rfl | hpos := Nat.eq_zero_or_pos n
    · obtain ⟨hidle, hen, hcyc⟩ := hwait
      obtain ⟨hirq, hno⟩ := hcyc start (Nat.le_refl _) (Nat.lt_succ_self _)
      have hhist := history cfg inp start
      generalize hstate : stateAt cfg inp start = state at hhist
      generalize hcnt : cntAt cfg inp start = c at hhist
      cases hhist with
      | idle =>
        obtain ⟨-, -, htrig, hnext⟩ := outAt_idle hstate hcnt
        obtain ⟨hesc, -, -⟩ | ⟨-, -, -, -, hs, hn⟩ | ⟨-, hnot, -, -⟩ := hnext
        · exact absurd (htrig.2 hesc) (by rw [hno]; exact Bool.false_ne_true)
        · exact ⟨hs, hn⟩
        · exact absurd ⟨hirq, hle, hen⟩ hnot
      | timeout => exact absurd ((outAt_timeout hstate).1.symm.trans hidle) (by decide)
      | phase k => exact absurd ((outAt_phase hstate).1.symm.trans hidle) nofun
      | terminal => exact absurd ((outAt_terminal hstate).1.symm.trans hidle) (by decide)
    · obtain ⟨hs, hn⟩ := ih hpos (Nat.le_of_succ_le hle)
        ⟨hwait.1, hwait.2.1, fun u hu hut => hwait.2.2 u hu (hut.trans (Nat.lt_succ_self _))⟩
      obtain ⟨hirq, hno⟩ := hwait.2.2 (start + n) (Nat.le_add_right _ _) (Nat.lt_succ_self _)
      obtain ⟨hesc, -⟩ | ⟨-, -, hs', hn'⟩ | ⟨-, hirq', -⟩ := (outAt_timeout hs).2.2.2
      · exact absurd hesc (by rw [hno]; exact Bool.false_ne_true)
      · have hmax : n + 1 ≤ 2 ^ EscCntDw - 1 :=
          hle.trans (Nat.le_pred_of_lt cfg.class_timeout_cyc.isLt)
        rw [hn, Nat.min_eq_left hmax] at hn'
        exact ⟨hs', hn'⟩
      · exact absurd hirq (by rw [hirq']; exact Bool.false_ne_true)

theorem esc_trig_o_iff (t : ℕ) : (outAt cfg inp t).esc_trig_o = true ↔
    ¬Escalating cfg inp t ∧ (TriggerEscalates cfg inp t ∨ TimeoutEscalates cfg inp t) := by
  constructor
  · intro h
    refine ⟨not_escalating_of_trig h, ?_⟩
    have hhist := history cfg inp t
    generalize hstate : stateAt cfg inp t = state at hhist
    generalize hcnt : cntAt cfg inp t = n at hhist
    cases hhist with
    | idle => exact .inl ((outAt_idle hstate hcnt).2.2.1.1 h)
    | timeout _ start hquiet hpos hle ht hwait =>
      obtain htrig | ⟨hge, hirq⟩ := (outAt_timeout hstate).2.2.1.1 h
      · exact .inl htrig
      · rw [hcnt] at hge
        exact .inr ⟨by omega, hirq, start, by omega, hwait⟩
    | phase k => exact absurd h (by rw [(outAt_phase hstate).2.1]; exact Bool.false_ne_true)
    | terminal => exact absurd h (by rw [(outAt_terminal hstate).2.1]; exact Bool.false_ne_true)
  · rintro ⟨hquiet, htrig | ⟨hpos, hirq, start, rfl, hwait⟩⟩
    · have hhist := history cfg inp t
      generalize hstate : stateAt cfg inp t = state at hhist
      generalize hcnt : cntAt cfg inp t = n at hhist
      cases hhist with
      | idle => exact (outAt_idle hstate hcnt).2.2.1.2 htrig
      | timeout => exact (outAt_timeout hstate).2.2.1.2 (.inl htrig)
      | phase _ _ start _ _ hsince => exact absurd ⟨start, hsince⟩ hquiet
      | terminal _ start hsince => exact absurd ⟨start, hsince⟩ hquiet
    · obtain ⟨hs, hn⟩ := state_of_waiting hpos (Nat.le_refl _) hwait
      exact (outAt_timeout hs).2.2.1.2 (.inr ⟨hn.ge, hirq⟩)

/-- The outputs tell whether escalation runs, and since when. -/
theorem out_cases (cfg : ClassConfig) (inp : ℕ → ClassIn) (t : ℕ) :
    ((outAt cfg inp t).esc_state_o = .Idle ∨ (outAt cfg inp t).esc_state_o = .Timeout) ∧
        (outAt cfg inp t).phase_oh = 0 ∧ ¬Escalating cfg inp t ∨
      (∃ k start, (outAt cfg inp t).esc_state_o = .Phase k ∧
        (outAt cfg inp t).phase_oh = .twoPow N_PHASES k ∧ EscalatingSince cfg inp start t ∧
        start + phaseStart cfg k < t ∧ t ≤ start + phaseStart cfg (k + 1)) ∨
      (∃ start, (outAt cfg inp t).esc_state_o = .Terminal ∧ (outAt cfg inp t).phase_oh = 0 ∧
        EscalatingSince cfg inp start t ∧ start + phaseStart cfg N_PHASES < t) := by
  have hhist := history cfg inp t
  generalize hstate : stateAt cfg inp t = state at hhist
  generalize hcnt : cntAt cfg inp t = n at hhist
  cases hhist with
  | idle hquiet =>
    obtain ⟨hidle, hoh, -⟩ := outAt_idle hstate hcnt
    exact .inl ⟨.inl hidle, hoh, hquiet⟩
  | timeout _ _ hquiet =>
    obtain ⟨htimeout, hoh, -⟩ := outAt_timeout hstate
    exact .inl ⟨.inr htimeout, hoh, hquiet⟩
  | phase k _ start hpos hle hsince ht =>
    obtain ⟨hphase, -, hoh, -⟩ := outAt_phase hstate
    refine .inr (.inl ⟨k, start, hphase, hoh, hsince, by omega, ?_⟩)
    rw [phaseStart]
    omega
  | terminal _ start hsince ht =>
    obtain ⟨hterminal, -, hoh, -⟩ := outAt_terminal hstate
    exact .inr (.inr ⟨start, hterminal, hoh, hsince, ht⟩)

theorem esc_state_o_phase_iff (t : ℕ) (k : Fin N_PHASES) :
    (outAt cfg inp t).esc_state_o = .Phase k ↔ ∃ start, EscalatingSince cfg inp start t ∧
      start + phaseStart cfg k < t ∧ t ≤ start + phaseStart cfg (k + 1) := by
  obtain ⟨hidle, -, hquiet⟩ | ⟨j, start, hphase, -, hsince, hlt, hle⟩ |
    ⟨start, hterminal, -, hsince, hlt⟩ := out_cases cfg inp t
  · refine iff_of_false ?_ fun ⟨start, hsince, _⟩ => hquiet ⟨start, hsince⟩
    obtain hidle | hidle := hidle <;> rw [hidle] <;> exact nofun
  · rw [hphase, Cstate.Phase.injEq]
    constructor
    · rintro rfl
      exact ⟨start, hsince, hlt, hle⟩
    · rintro ⟨start', hsince', hlt', hle'⟩
      obtain rfl := hsince.unique hsince'
      exact Fin.ext (phase_unique hlt hle hlt' hle')
  · refine iff_of_false (by rw [hterminal]; exact nofun) ?_
    rintro ⟨start', hsince', -, hle'⟩
    obtain rfl := hsince.unique hsince'
    have hmono : phaseStart cfg (k + 1) ≤ phaseStart cfg N_PHASES := phaseStart_mono k.isLt
    omega

theorem esc_state_o_terminal_iff (t : ℕ) :
    (outAt cfg inp t).esc_state_o = .Terminal ↔ ∃ start, EscalatingSince cfg inp start t ∧
      start + phaseStart cfg N_PHASES < t := by
  obtain ⟨hidle, -, hquiet⟩ | ⟨j, start, hphase, -, hsince, hlt, hle⟩ |
    ⟨start, hterminal, -, hsince, hlt⟩ := out_cases cfg inp t
  · refine iff_of_false ?_ fun ⟨start, hsince, _⟩ => hquiet ⟨start, hsince⟩
    obtain hidle | hidle := hidle <;> rw [hidle] <;> exact nofun
  · refine iff_of_false (by rw [hphase]; exact nofun) ?_
    rintro ⟨start', hsince', hlt'⟩
    obtain rfl := hsince.unique hsince'
    have hmono : phaseStart cfg (j + 1) ≤ phaseStart cfg N_PHASES := phaseStart_mono j.isLt
    omega
  · exact iff_of_true hterminal ⟨start, hsince, hlt⟩

theorem esc_map_oh_phase (en : Bool) (m : BitVec PHASE_DW) (k : Fin N_PHASES) :
    ((BitVec.ofBool en).setWidth N_PHASES <<< m &&& .twoPow N_PHASES k != 0) =
      (en && decide (k = m.toFin)) := by
  revert en m k
  decide

theorem fsm_error_outAt (t : ℕ) : (outAt cfg inp t).fsm_error = false := by
  have hhist := history cfg inp t
  generalize hstate : stateAt cfg inp t = state at hhist
  have hphase (k : Fin N_PHASES) (state next : EscState) (b : Bool) :
      ((classAt cfg inp t).u_esc_timer.phaseSt (timerIn cfg inp t) k state next b).fsm_error =
        false := by
    rw [EscTimer.phaseSt]
    split_ifs <;> rfl
  rw [outAt_eq, EscTimer.caseState, show (classAt cfg inp t).u_esc_timer.state_q = _ from hstate]
  generalize cntAt cfg inp t = n at hhist
  cases hhist with
  | idle =>
    simp only
    split_ifs <;> rfl
  | timeout =>
    simp only
    split_ifs <;> rfl
  | phase k =>
    match k with
    | 0 | 1 | 2 | 3 => exact hphase ..
  | terminal => rfl

theorem class_esc_sig_req_iff (t : ℕ) (s : Fin N_ESC_SEV) :
    (classAt cfg inp t).class_esc_sig_req cfg (inp t) s = true ↔
      (inp t).class_esc_en s = true ∧
        (outAt cfg inp t).esc_state_o = .Phase ((inp t).class_esc_map s).toFin := by
  have hreq : (classAt cfg inp t).class_esc_sig_req cfg (inp t) s =
      (EscTimer.esc_map_oh (timerIn cfg inp t) s &&& (outAt cfg inp t).phase_oh != 0 ||
        (outAt cfg inp t).fsm_error) := rfl
  have hzero (m : BitVec N_PHASES) : (m &&& 0 != 0) = false := by
    revert m
    decide
  rw [hreq, fsm_error_outAt, Bool.or_false]
  obtain ⟨hidle, hoh, -⟩ | ⟨k, -, hphase, hoh, -⟩ | ⟨-, hterminal, hoh, -⟩ :=
    out_cases cfg inp t
  · rw [hoh, hzero]
    refine iff_of_false Bool.false_ne_true fun h => ?_
    obtain hidle | hidle := hidle <;> exact absurd (hidle.symm.trans h.2) nofun
  · rw [hoh, hphase]
    change ((BitVec.ofBool ((inp t).class_esc_en s)).setWidth N_PHASES <<<
      (inp t).class_esc_map s &&& .twoPow N_PHASES k != 0) = true ↔ _
    rw [esc_map_oh_phase, Bool.and_eq_true, decide_eq_true_eq, Cstate.Phase.injEq]
  · rw [hoh, hzero]
    exact iff_of_false Bool.false_ne_true fun h => absurd (hterminal.symm.trans h.2) nofun

/-- In every cycle of every run: what the accumulator holds, when escalation starts, which
phase the cycle belongs to until a clear, and which escalation signals are raised. -/
theorem alert_class_escalation (cfg : ClassConfig) (inp : ℕ → ClassIn) (t : ℕ) :
    (classAt cfg inp t).u_accu.primary.toNat =
        min (triggersSinceClear inp t) (2 ^ AccuCntDw - 1) ∧
      ((outAt cfg inp t).esc_trig_o = true ↔
        ¬Escalating cfg inp t ∧ (TriggerEscalates cfg inp t ∨ TimeoutEscalates cfg inp t)) ∧
      (((outAt cfg inp t).esc_state_o = .Idle ∨ (outAt cfg inp t).esc_state_o = .Timeout) ↔
        ¬Escalating cfg inp t) ∧
      (∀ k : Fin N_PHASES, (outAt cfg inp t).esc_state_o = .Phase k ↔
        ∃ start, EscalatingSince cfg inp start t ∧
          start + phaseStart cfg k < t ∧ t ≤ start + phaseStart cfg (k + 1)) ∧
      ((outAt cfg inp t).esc_state_o = .Terminal ↔
        ∃ start, EscalatingSince cfg inp start t ∧ start + phaseStart cfg N_PHASES < t) ∧
      ∀ s, (classAt cfg inp t).class_esc_sig_req cfg (inp t) s = true ↔
        (inp t).class_esc_en s = true ∧
          (outAt cfg inp t).esc_state_o = .Phase ((inp t).class_esc_map s).toFin := by
  refine ⟨accu_cnt_classAt t, esc_trig_o_iff t, ?_, esc_state_o_phase_iff t,
    esc_state_o_terminal_iff t, class_esc_sig_req_iff t⟩
  obtain ⟨hidle, -, hquiet⟩ | ⟨k, start, hphase, -, hsince, -⟩ | ⟨start, hterminal, -, hsince, -⟩ :=
    out_cases cfg inp t
  · exact iff_of_true hidle hquiet
  · refine iff_of_false ?_ (not_not.2 ⟨start, hsince⟩)
    rw [hphase]
    rintro (h | h) <;> exact nomatch h
  · refine iff_of_false ?_ (not_not.2 ⟨start, hsince⟩)
    rw [hterminal]
    rintro (h | h) <;> exact nomatch h

end SecureBoot.AlertHandler
