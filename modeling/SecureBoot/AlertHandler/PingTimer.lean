import Mathlib.Data.Nat.Log
import SecureBoot.AlertHandler.EscTimer

/-! `alert_handler_ping_timer`: the machine that waits for a random time, pings an alert
receiver that is drawn at random, waits again and pings the next escalation sender. The state
of its random generator is an input of each cycle. -/

namespace SecureBoot.AlertHandler

abbrev PING_CNT_DW : ℕ := 16

/-- The width of an alert index. -/
abbrev IdDw (NAlerts : ℕ) : ℕ := Nat.clog 2 NAlerts

/-- `state_e` of the ping timer, without the values that no register holds unless it is
glitched. -/
inductive PingState
  | InitSt | AlertWaitSt | AlertPingSt | EscWaitSt | EscPingSt | FsmErrorSt
  deriving DecidableEq

/-- The inputs of a cycle. -/
structure PingIn (NAlerts : ℕ) where
  en_i : Bool
  alert_ping_en_i : BitVec NAlerts
  ping_timeout_cyc_i : BitVec PING_CNT_DW
  wait_cyc_mask_i : BitVec PING_CNT_DW
  alert_ping_ok_i : BitVec NAlerts
  esc_ping_ok_i : BitVec N_ESC_SEV
  lfsr_state : BitVec (PING_CNT_DW + IdDw NAlerts)
  lfsr_err : Bool

structure PingRegs (NAlerts : ℕ) where
  state_q : PingState
  id_to_ping_q : BitVec (IdDw NAlerts)
  u_prim_count_esc_cnt : CountRegs PING_CNT_DW
  u_prim_count_cnt : CountRegs PING_CNT_DW

/-- The outputs of `p_fsm`. -/
structure PingOut where
  state_d : PingState
  wait_cnt_set : Bool := false
  timeout_cnt_set : Bool := false
  esc_cnt_en : Bool := false
  alert_ping_fail_o : Bool
  esc_ping_fail_o : Bool

variable {NAlerts : ℕ}

namespace PingIn

variable (i : PingIn NAlerts)

/-- The drawn index, brought into range. -/
def id_to_ping_d : BitVec (IdDw NAlerts) :=
  let id := i.lfsr_state.extractLsb' PING_CNT_DW (IdDw NAlerts)
  .ofNat _ (if id.toNat ≥ NAlerts then id.toNat - NAlerts else id.toNat)

/-- The constant offset keeps pings apart. -/
def wait_cyc : BitVec PING_CNT_DW := i.lfsr_state.extractLsb' 0 PING_CNT_DW ||| 0b100

def enable_mask : BitVec (2 ^ IdDw NAlerts) := i.alert_ping_en_i.setWidth _

end PingIn

namespace PingRegs

def reset : PingRegs NAlerts where
  state_q := .InitSt
  id_to_ping_q := 0
  u_prim_count_esc_cnt := primCountReset 0
  u_prim_count_cnt := primCountReset 0

variable (r : PingRegs NAlerts) (i : PingIn NAlerts)

def cnt : BitVec PING_CNT_DW := r.u_prim_count_cnt.primary

def esc_cnt : BitVec PING_CNT_DW := r.u_prim_count_esc_cnt.primary

def timer_expired : Bool := r.cnt == 0

def id_vld : Bool := i.enable_mask.getLsbD r.id_to_ping_q.toNat

def alert_ping_en : Bool := r.state_q == .AlertPingSt && r.id_vld i

def esc_ping_en : Bool := r.state_q == .EscPingSt

def alert_ping_req_o : BitVec NAlerts :=
  (BitVec.ofBool (r.alert_ping_en i)).setWidth NAlerts <<< r.id_to_ping_q

def esc_ping_req_o : BitVec N_ESC_SEV := (BitVec.ofBool r.esc_ping_en).setWidth N_ESC_SEV <<< r.esc_cnt

def spurious_alert_ping : Bool := i.alert_ping_ok_i &&& ~~~(r.alert_ping_req_o i) != 0

def spurious_esc_ping : Bool := i.esc_ping_ok_i &&& ~~~r.esc_ping_req_o != 0

/-- An answer to the ping of this cycle. -/
def alert_ping_ack : Bool := i.alert_ping_ok_i &&& r.alert_ping_req_o i != 0

def esc_ping_ack : Bool := i.esc_ping_ok_i &&& r.esc_ping_req_o != 0

/-- The case analysis of `p_fsm`. -/
def casePing : PingOut :=
  let out (state_d : PingState) : PingOut :=
    { state_d, alert_ping_fail_o := r.spurious_alert_ping i
      esc_ping_fail_o := r.spurious_esc_ping i }
  match r.state_q with
  | .InitSt =>
    if i.en_i then { out .AlertWaitSt with wait_cnt_set := true } else out .InitSt
  | .AlertWaitSt =>
    if r.timer_expired then { out .AlertPingSt with timeout_cnt_set := true }
    else out .AlertWaitSt
  | .AlertPingSt =>
    if r.timer_expired || r.alert_ping_ack i || !r.id_vld i then
      { out .EscWaitSt with
        wait_cnt_set := true
        alert_ping_fail_o := r.timer_expired || r.spurious_alert_ping i }
    else out .AlertPingSt
  | .EscWaitSt =>
    if r.timer_expired then { out .EscPingSt with timeout_cnt_set := true } else out .EscWaitSt
  | .EscPingSt =>
    if r.timer_expired || r.esc_ping_ack i then
      { out .AlertWaitSt with
        wait_cnt_set := true
        esc_cnt_en := true
        esc_ping_fail_o := r.timer_expired || r.spurious_esc_ping i }
    else out .EscPingSt
  | .FsmErrorSt => { state_d := .FsmErrorSt, alert_ping_fail_o := true, esc_ping_fail_o := true }

/-- `p_fsm`: random generators or counters that disagree override the state. -/
def p_fsm : PingOut :=
  if i.lfsr_err || r.u_prim_count_cnt.err_o || r.u_prim_count_esc_cnt.err_o then
    { r.casePing i with
      state_d := .FsmErrorSt, alert_ping_fail_o := true, esc_ping_fail_o := true }
  else r.casePing i

def cnt_set : Bool := (r.p_fsm i).wait_cnt_set || (r.p_fsm i).timeout_cnt_set

def cnt_setval : BitVec PING_CNT_DW :=
  if (r.p_fsm i).wait_cnt_set then i.wait_cyc &&& i.wait_cyc_mask_i else i.ping_timeout_cyc_i

def esc_cnt_clr : Bool := decide (r.esc_cnt.toNat ≥ N_ESC_SEV - 1) && (r.p_fsm i).esc_cnt_en

/-- A clock edge. -/
def clock : PingRegs NAlerts where
  state_q := (r.p_fsm i).state_d
  id_to_ping_q := if r.cnt_set i then i.id_to_ping_d else r.id_to_ping_q
  u_prim_count_esc_cnt := primCount 0 r.u_prim_count_esc_cnt
    { clr_i := r.esc_cnt_clr i
      set_i := false
      set_cnt_i := 0
      incr_en_i := (r.p_fsm i).esc_cnt_en
      decr_en_i := false
      step_i := 1 }
  u_prim_count_cnt := primCount 0 r.u_prim_count_cnt
    { clr_i := false
      set_i := r.cnt_set i
      set_cnt_i := r.cnt_setval i
      incr_en_i := false
      decr_en_i := !r.timer_expired
      step_i := 1 }

end PingRegs

/-- The registers after `t` cycles. -/
def pingAt (inp : ℕ → PingIn NAlerts) : ℕ → PingRegs NAlerts
  | 0 => .reset
  | t + 1 => (pingAt inp t).clock (inp t)

end SecureBoot.AlertHandler

/-! The ping timer over whole runs: what it pings and for how long, in which order and at which
distance the escalation senders are pinged, and what its failures report. -/

namespace SecureBoot.AlertHandler

variable {NAlerts : ℕ}

section Run

variable (inp : ℕ → PingIn NAlerts)

/-- No faults, a timeout that is not zero, and settings that do not change once the timer is
enabled. -/
structure PingEnv : Prop where
  no_err : ∀ t, (inp t).lfsr_err = false
  timeout_pos : ∀ t, (inp t).ping_timeout_cyc_i ≠ 0
  locked : ∀ t, (∃ u ≤ t, (inp u).en_i = true) →
    (inp (t + 1)).alert_ping_en_i = (inp t).alert_ping_en_i ∧
      (inp (t + 1)).ping_timeout_cyc_i = (inp t).ping_timeout_cyc_i

def pingStateAt (t : ℕ) : PingState := (pingAt inp t).state_q

def pingCntAt (t : ℕ) : ℕ := (pingAt inp t).cnt.toNat

def escCntAt (t : ℕ) : ℕ := (pingAt inp t).esc_cnt.toNat

def timeoutAt (t : ℕ) : ℕ := (inp t).ping_timeout_cyc_i.toNat

def alertReqAt (t : ℕ) : BitVec NAlerts := (pingAt inp t).alert_ping_req_o (inp t)

def escReqAt (t : ℕ) : BitVec N_ESC_SEV := (pingAt inp t).esc_ping_req_o

def alertAckAt (t : ℕ) : Bool := (pingAt inp t).alert_ping_ack (inp t)

def escAckAt (t : ℕ) : Bool := (pingAt inp t).esc_ping_ack (inp t)

def idVldAt (t : ℕ) : Bool := (pingAt inp t).id_vld (inp t)

/-- What happens in cycle `t`. -/
inductive PingStep (t : ℕ) : PingState → PingState → Prop
  | init (hen : (inp t).en_i = false) (hcnt : pingCntAt inp (t + 1) = pingCntAt inp t - 1) :
    PingStep t .InitSt .InitSt
  | start (hen : (inp t).en_i = true) : PingStep t .InitSt .AlertWaitSt
  | alertWait (hpos : 0 < pingCntAt inp t) (hcnt : pingCntAt inp (t + 1) = pingCntAt inp t - 1) :
    PingStep t .AlertWaitSt .AlertWaitSt
  | alertPing (hcnt : pingCntAt inp (t + 1) = timeoutAt inp t) :
    PingStep t .AlertWaitSt .AlertPingSt
  | alertHold (hpos : 0 < pingCntAt inp t) (hcnt : pingCntAt inp (t + 1) = pingCntAt inp t - 1)
    (hack : alertAckAt inp t = false) (hvld : idVldAt inp t = true)
    (hid : (pingAt inp (t + 1)).id_to_ping_q = (pingAt inp t).id_to_ping_q) :
    PingStep t .AlertPingSt .AlertPingSt
  | alertDone (h : pingCntAt inp t = 0 ∨ alertAckAt inp t = true ∨ idVldAt inp t = false) :
    PingStep t .AlertPingSt .EscWaitSt
  | escWait (hpos : 0 < pingCntAt inp t) (hcnt : pingCntAt inp (t + 1) = pingCntAt inp t - 1) :
    PingStep t .EscWaitSt .EscWaitSt
  | escPing (hcnt : pingCntAt inp (t + 1) = timeoutAt inp t) : PingStep t .EscWaitSt .EscPingSt
  | escHold (hpos : 0 < pingCntAt inp t) (hcnt : pingCntAt inp (t + 1) = pingCntAt inp t - 1)
    (hack : escAckAt inp t = false) : PingStep t .EscPingSt .EscPingSt
  | escDone (h : pingCntAt inp t = 0 ∨ escAckAt inp t = true) : PingStep t .EscPingSt .AlertWaitSt

end Run

/-! ### One cycle -/

namespace PingRegs

variable {r : PingRegs NAlerts} {i : PingIn NAlerts}

/-- Both counters agree with their copies. -/
structure Sound (r : PingRegs NAlerts) : Prop where
  cnt : r.u_prim_count_cnt.Consistent
  esc_cnt : r.u_prim_count_esc_cnt.Consistent
  esc_lt : r.esc_cnt.toNat < N_ESC_SEV
  no_error : r.state_q ≠ .FsmErrorSt

theorem p_fsm_of_sound (h : r.Sound) (herr : i.lfsr_err = false) : r.p_fsm i = r.casePing i := by
  rw [p_fsm, herr, CountRegs.err_o_eq_false h.cnt, CountRegs.err_o_eq_false h.esc_cnt]
  rfl

theorem toNat_cnt_hold (hset : r.cnt_set i = false) :
    (r.clock i).cnt.toNat = r.cnt.toNat - 1 := by
  change (cntD 0 (r.cnt_setval i) r.cnt false (r.cnt_set i) false (!r.timer_expired) 1).toNat = _
  rw [hset]
  cases hexp : r.timer_expired with
  | false => exact toNat_cntD_decr 1
  | true =>
    rw [timer_expired, beq_iff_eq] at hexp
    rw [Bool.not_true, cntD_hold, hexp]
    rfl

theorem cnt_set_eq (hset : r.cnt_set i = true) : (r.clock i).cnt = r.cnt_setval i := by
  change cntD 0 (r.cnt_setval i) r.cnt false (r.cnt_set i) false (!r.timer_expired) 1 = _
  rw [hset]
  rfl

theorem toNat_esc_cnt (hlt : r.esc_cnt.toNat < N_ESC_SEV) : (r.clock i).esc_cnt.toNat =
    if (r.p_fsm i).esc_cnt_en then (r.esc_cnt.toNat + 1) % N_ESC_SEV else r.esc_cnt.toNat := by
  change (cntD 0 0 r.esc_cnt (r.esc_cnt_clr i) false (r.p_fsm i).esc_cnt_en false 1).toNat = _
  rw [esc_cnt_clr]
  cases (r.p_fsm i).esc_cnt_en with
  | false =>
    rw [Bool.and_false, cntD_hold]
    rfl
  | true =>
    rw [if_pos rfl, Bool.and_true]
    by_cases hmax : r.esc_cnt.toNat ≥ N_ESC_SEV - 1
    · have heq : r.esc_cnt.toNat + 1 = N_ESC_SEV := by omega
      rw [decide_eq_true hmax, heq, Nat.mod_self]
      rfl
    · rw [decide_eq_false hmax, toNat_cntD_incr, Nat.mod_eq_of_lt (by omega)]
      change min (r.esc_cnt.toNat + 1) 65535 = _
      have hlt : r.esc_cnt.toNat < 4 := hlt
      omega

theorem Sound.clock (h : r.Sound) (herr : i.lfsr_err = false) : (r.clock i).Sound where
  cnt := h.cnt.primCount 0 _
  esc_cnt := h.esc_cnt.primCount 0 _
  esc_lt := by
    rw [toNat_esc_cnt h.esc_lt]
    split_ifs
    · exact Nat.mod_lt _ (by decide)
    · exact h.esc_lt
  no_error := by
    change (r.p_fsm i).state_d ≠ _
    rw [p_fsm_of_sound h herr, casePing]
    cases hs : r.state_q with
    | FsmErrorSt => exact absurd hs h.no_error
    | _ => simp only; split_ifs <;> exact PingState.noConfusion

end PingRegs

section Run

variable {inp : ℕ → PingIn NAlerts} {t : ℕ}

theorem sound (henv : PingEnv inp) (t : ℕ) : (pingAt inp t).Sound := by
  induction t with
  | zero => exact ⟨rfl, rfl, Nat.zero_lt_succ 3, PingState.noConfusion⟩
  | succ t ih => exact ih.clock (henv.no_err t)

theorem timer_expired_eq (t : ℕ) :
    (pingAt inp t).timer_expired = decide (pingCntAt inp t = 0) := by
  rw [PingRegs.timer_expired, Bool.eq_iff_iff, beq_iff_eq, decide_eq_true_iff, pingCntAt]
  exact (BitVec.toNat_inj (y := 0)).symm

/-- Every cycle is one of the steps. -/
theorem pingStep (henv : PingEnv inp) (t : ℕ) :
    PingStep inp t (pingStateAt inp t) (pingStateAt inp (t + 1)) := by
  have hsound := sound henv t
  have hfsm := PingRegs.p_fsm_of_sound hsound (henv.no_err t)
  have hstate : pingStateAt inp (t + 1) = ((pingAt inp t).casePing (inp t)).state_d :=
    congrArg PingOut.state_d hfsm
  have hhold (h : (pingAt inp t).cnt_set (inp t) = false) :
      pingCntAt inp (t + 1) = pingCntAt inp t - 1 := PingRegs.toNat_cnt_hold h
  have hset (h : (pingAt inp t).cnt_set (inp t) = true)
      (hwait : ((pingAt inp t).casePing (inp t)).wait_cnt_set = false) :
      pingCntAt inp (t + 1) = timeoutAt inp t := by
    change ((pingAt inp t).clock (inp t)).cnt.toNat = _
    rw [PingRegs.cnt_set_eq h, PingRegs.cnt_setval, hfsm, hwait]
    rfl
  have hid (h : (pingAt inp t).cnt_set (inp t) = false) :
      (pingAt inp (t + 1)).id_to_ping_q = (pingAt inp t).id_to_ping_q := by
    change (if (pingAt inp t).cnt_set (inp t) then _ else _) = _
    rw [h, if_neg Bool.false_ne_true]
  rw [hstate]
  rw [PingRegs.cnt_set, hfsm] at hhold hset hid
  rw [PingRegs.casePing, timer_expired_eq] at hhold hset hid ⊢
  rw [pingStateAt]
  cases hs : (pingAt inp t).state_q with
  | InitSt =>
    simp only [hs] at hhold hset ⊢
    cases hen : (inp t).en_i with
    | true => exact .start hen
    | false => exact .init hen (hhold (by rw [hen]; rfl))
  | AlertWaitSt =>
    simp only [hs] at hhold hset ⊢
    by_cases hzero : pingCntAt inp t = 0
    · simp only [hzero, decide_true, if_true] at hset ⊢
      exact .alertPing (hset rfl trivial)
    · simp only [hzero, decide_false, Bool.false_eq_true, if_false] at hhold ⊢
      exact .alertWait (Nat.pos_of_ne_zero hzero) (hhold rfl)
  | AlertPingSt =>
    simp only [hs] at hhold hset hid ⊢
    by_cases hdone : (decide (pingCntAt inp t = 0) || (pingAt inp t).alert_ping_ack (inp t) ||
        !(pingAt inp t).id_vld (inp t)) = true
    · rw [if_pos hdone]
      rw [Bool.or_eq_true, Bool.or_eq_true, decide_eq_true_iff, Bool.not_eq_true', or_assoc] at hdone
      exact .alertDone hdone
    · rw [if_neg hdone] at hhold hid ⊢
      rw [Bool.or_eq_true, Bool.or_eq_true, decide_eq_true_iff, Bool.not_eq_true', not_or, not_or,
        Bool.not_eq_true, Bool.not_eq_false] at hdone
      exact .alertHold (Nat.pos_of_ne_zero hdone.1.1) (hhold rfl) hdone.1.2 hdone.2 (hid rfl)
  | EscWaitSt =>
    simp only [hs] at hhold hset ⊢
    by_cases hzero : pingCntAt inp t = 0
    · simp only [hzero, decide_true, if_true] at hset ⊢
      exact .escPing (hset rfl trivial)
    · simp only [hzero, decide_false, Bool.false_eq_true, if_false] at hhold ⊢
      exact .escWait (Nat.pos_of_ne_zero hzero) (hhold rfl)
  | EscPingSt =>
    simp only [hs] at hhold hset ⊢
    by_cases hdone : (decide (pingCntAt inp t = 0) || (pingAt inp t).esc_ping_ack (inp t)) = true
    · rw [if_pos hdone]
      rw [Bool.or_eq_true, decide_eq_true_iff] at hdone
      exact .escDone hdone
    · rw [if_neg hdone] at hhold ⊢
      rw [Bool.or_eq_true, decide_eq_true_iff, not_or, Bool.not_eq_true] at hdone
      exact .escHold (Nat.pos_of_ne_zero hdone.1) (hhold rfl) hdone.2
  | FsmErrorSt => exact absurd hs hsound.no_error

theorem escCntAt_succ (henv : PingEnv inp) (t : ℕ) : escCntAt inp (t + 1) =
    if pingStateAt inp t = .EscPingSt ∧ pingStateAt inp (t + 1) = .AlertWaitSt then
      (escCntAt inp t + 1) % N_ESC_SEV else escCntAt inp t := by
  have hsound := sound henv t
  have hfsm := PingRegs.p_fsm_of_sound hsound (henv.no_err t)
  have hstate : pingStateAt inp (t + 1) = ((pingAt inp t).casePing (inp t)).state_d :=
    congrArg PingOut.state_d hfsm
  have hcnt := PingRegs.toNat_esc_cnt (i := inp t) hsound.esc_lt
  have hen : ((pingAt inp t).p_fsm (inp t)).esc_cnt_en = decide (pingStateAt inp t = .EscPingSt ∧
      pingStateAt inp (t + 1) = .AlertWaitSt) := by
    rw [hstate, hfsm, pingStateAt, PingRegs.casePing]
    cases hs : (pingAt inp t).state_q <;> simp only [reduceCtorEq, false_and, true_and, decide_false]
    all_goals split_ifs <;> simp
  rw [hen] at hcnt
  change ((pingAt inp t).clock (inp t)).esc_cnt.toNat = _
  rw [hcnt]
  simp only [decide_eq_true_eq]
  rfl

/-! ### Periods of a state -/

def PingState.next : PingState → PingState
  | .InitSt | .EscPingSt => .AlertWaitSt
  | .AlertWaitSt => .AlertPingSt
  | .AlertPingSt => .EscWaitSt
  | .EscWaitSt => .EscPingSt
  | .FsmErrorSt => .FsmErrorSt

/-- A state lasts as long as the counter runs, at most. -/
theorem ends (henv : PingEnv inp) (t : ℕ) (hinit : pingStateAt inp t ≠ .InitSt) :
    ∃ e, t ≤ e ∧ e ≤ t + pingCntAt inp t ∧
      (∀ u, t ≤ u → u ≤ e → pingStateAt inp u = pingStateAt inp t) ∧
      pingStateAt inp (e + 1) = (pingStateAt inp t).next := by
  induction hn : pingCntAt inp t generalizing t with
  | zero =>
    refine ⟨t, Nat.le_refl t, Nat.le_add_right _ _, fun u hle hge => ?_, ?_⟩
    · rw [Nat.le_antisymm hge hle]
    · have hstep := pingStep henv t
      generalize pingStateAt inp t = s at hstep hinit ⊢
      generalize pingStateAt inp (t + 1) = s' at hstep ⊢
      cases hstep <;> first | rfl | exact absurd rfl hinit | omega
  | succ n ih =>
    have hstep := pingStep henv t
    by_cases hsame : pingStateAt inp (t + 1) = pingStateAt inp t
    · have hcnt : pingCntAt inp (t + 1) = n := by
        rw [hsame] at hstep
        generalize pingStateAt inp t = s at hstep
        cases hstep <;> omega
      obtain ⟨e, hle, hge, hall, hnext⟩ := ih (t + 1) (hsame ▸ hinit) hcnt
      refine ⟨e, by omega, by omega, fun u hu hue => ?_, hsame ▸ hnext⟩
      obtain rfl | hlt := Nat.eq_or_lt_of_le hu
      · rfl
      · rw [hall u hlt hue, hsame]
    · refine ⟨t, Nat.le_refl t, Nat.le_add_right _ _, fun u hle hge => ?_, ?_⟩
      · rw [Nat.le_antisymm hge hle]
      · generalize pingStateAt inp t = s at hstep hinit hsame ⊢
        generalize pingStateAt inp (t + 1) = s' at hstep hsame ⊢
        cases hstep <;> first | rfl | exact absurd rfl hinit | exact absurd rfl hsame

theorem enabled (henv : PingEnv inp) (t : ℕ) (hinit : pingStateAt inp t ≠ .InitSt) :
    ∃ u < t, (inp u).en_i = true := by
  induction t with
  | zero => exact absurd rfl hinit
  | succ t ih =>
    by_cases hs : pingStateAt inp t = .InitSt
    · have hstep := pingStep henv t
      rw [hs] at hstep
      generalize pingStateAt inp (t + 1) = s' at hstep hinit
      cases hstep with
      | init => exact absurd rfl hinit
      | start hen => exact ⟨t, Nat.lt_succ_self t, hen⟩
    · obtain ⟨u, hu, hen⟩ := ih hs
      exact ⟨u, Nat.lt_succ_of_lt hu, hen⟩

theorem locked (henv : PingEnv inp) (t : ℕ) (hinit : pingStateAt inp t ≠ .InitSt) :
    (inp (t + 1)).alert_ping_en_i = (inp t).alert_ping_en_i ∧
      timeoutAt inp (t + 1) = timeoutAt inp t := by
  obtain ⟨u, hu, hen⟩ := enabled henv t hinit
  obtain ⟨hmask, htimeout⟩ := henv.locked t ⟨u, hu.le, hen⟩
  exact ⟨hmask, congrArg BitVec.toNat htimeout⟩

end Run

/-! ### Pings -/

/-- A request that is up in cycle `t` and has not changed since it was raised in cycle `s`. -/
structure RaisedSince {n : ℕ} (req : ℕ → BitVec n) (s t : ℕ) : Prop where
  le : s ≤ t
  up : req t ≠ 0
  same : ∀ u, s ≤ u → u ≤ t → req u = req t
  before : ∀ v, s = v + 1 → req v = 0

theorem RaisedSince.unique {n : ℕ} {req : ℕ → BitVec n} {s s' t : ℕ} (h : RaisedSince req s t)
    (h' : RaisedSince req s' t) : s = s' := by
  have hle {s s' : ℕ} (h : RaisedSince req s t) (h' : RaisedSince req s' t) : s' ≤ s := by
    by_contra hlt
    obtain ⟨v, rfl⟩ := Nat.exists_eq_add_of_lt (Nat.lt_of_not_le hlt)
    have hzero := h'.before (s + v) rfl
    have hle := h'.le
    rw [h.same (s + v) (by omega) (by omega)] at hzero
    exact h.up hzero
  exact Nat.le_antisymm (hle h' h) (hle h h')

/-- The two kinds of pings: a state of the machine whose request goes to one index. -/
structure PingKind (inp : ℕ → PingIn NAlerts) (X : PingState) {n : ℕ} (req : ℕ → BitVec n)
    (ack vld : ℕ → Bool) (idx : ℕ → ℕ) : Prop where
  req_eq : ∀ t, req t = if pingStateAt inp t = X ∧ vld t = true then .twoPow n (idx t) else 0
  idx_lt : ∀ t, vld t = true → idx t < n
  not_init : X ≠ .InitSt
  enter : ∀ t, pingStateAt inp t ≠ X → pingStateAt inp (t + 1) = X →
    pingCntAt inp (t + 1) = timeoutAt inp (t + 1)
  hold : ∀ t, pingStateAt inp t = X → pingStateAt inp (t + 1) = X →
    0 < pingCntAt inp t ∧ pingCntAt inp (t + 1) = pingCntAt inp t - 1 ∧ ack t = false ∧
      vld t = true ∧ idx (t + 1) = idx t ∧ vld (t + 1) = true
  leave : ∀ t, pingStateAt inp t = X → pingStateAt inp (t + 1) ≠ X →
    pingCntAt inp t = 0 ∨ ack t = true ∨ vld t = false

namespace PingKind

variable {inp : ℕ → PingIn NAlerts} {X : PingState} {n : ℕ} {req : ℕ → BitVec n}
  {ack vld : ℕ → Bool} {idx : ℕ → ℕ} {t : ℕ}

theorem up_iff (h : PingKind inp X req ack vld idx) :
    req t ≠ 0 ↔ pingStateAt inp t = X ∧ vld t = true := by
  rw [h.req_eq]
  split_ifs with hup
  · refine iff_of_true (fun hzero => ?_) hup
    have hbit := congrArg (fun v => BitVec.getLsbD v (idx t)) hzero
    simp [h.idx_lt t hup.2] at hbit
  · exact iff_of_false (fun hne => hne rfl) hup

/-- A period of the state, with the counter that it goes by. -/
theorem since (h : PingKind inp X req ack vld idx) (henv : PingEnv inp)
    (hs : pingStateAt inp t = X) :
    ∃ s, s ≤ t ∧ (∀ v, s = v + 1 → pingStateAt inp v ≠ X) ∧
      (∀ u, s ≤ u → u ≤ t → pingStateAt inp u = X ∧ idx u = idx t) ∧
      (∀ u, s ≤ u → u < t → ack u = false ∧ vld u = true) ∧
      (s < t → vld t = true) ∧ pingCntAt inp t + (t - s) = timeoutAt inp t := by
  induction t with
  | zero => exact absurd hs.symm h.not_init
  | succ t ih =>
    by_cases hprev : pingStateAt inp t = X
    · obtain ⟨s, hle, hbefore, hsame, hheld, -, hcnt⟩ := ih hprev
      obtain ⟨hpos, hdec, hack, hvld, hidx, hvld'⟩ := h.hold t hprev hs
      have htimeout := (locked henv t (hprev ▸ h.not_init)).2
      refine ⟨s, Nat.le_succ_of_le hle, hbefore, fun u hu hut => ?_, fun u hu hut => ?_,
        fun _ => hvld', by omega⟩
      · obtain hlt | rfl := Nat.le_succ_iff.1 hut
        · rw [hidx]
          exact hsame u hu hlt
        · exact ⟨hs, rfl⟩
      · obtain hlt | rfl := Nat.lt_succ_iff_lt_or_eq.1 hut
        · exact hheld u hu hlt
        · exact ⟨hack, hvld⟩
    · refine ⟨t + 1, Nat.le_refl _, fun v hv => ?_, fun u hu hut => ?_,
        fun u hu hut => absurd hu (Nat.not_le.2 hut), fun hlt => absurd hlt (Nat.lt_irrefl _), ?_⟩
      · rwa [← Nat.succ_injective hv]
      · rw [Nat.le_antisymm hut hu]
        exact ⟨hs, rfl⟩
      · rw [Nat.sub_self, Nat.add_zero]
        exact h.enter t hprev hs

/-- A request, the cycle in which it was raised, and the counter. -/
theorem raised (h : PingKind inp X req ack vld idx) (henv : PingEnv inp) (hup : req t ≠ 0) :
    ∃ s, RaisedSince req s t ∧ (∀ u, s ≤ u → u < t → ack u = false) ∧
      pingCntAt inp t + (t - s) = timeoutAt inp t := by
  obtain ⟨hs, hvld⟩ := h.up_iff.1 hup
  obtain ⟨s, hle, hbefore, hsame, hheld, -, hcnt⟩ := h.since henv hs
  refine ⟨s, ⟨hle, hup, fun u hu hut => ?_, fun v hv => ?_⟩, fun u hu hut => (hheld u hu hut).1, hcnt⟩
  · obtain ⟨hsu, hidx⟩ := hsame u hu hut
    have hvldu : vld u = true := by
      obtain hlt | rfl := Nat.lt_or_eq_of_le hut
      · exact (hheld u hu hlt).2
      · exact hvld
    rw [h.req_eq u, h.req_eq t, if_pos ⟨hsu, hvldu⟩, if_pos ⟨hs, hvld⟩, hidx]
  · rw [h.req_eq v, if_neg fun hboth => hbefore v hv hboth.1]

/-- A request stays as it is until it is answered or its time is over. -/
theorem life (h : PingKind inp X req ack vld idx) (henv : PingEnv inp) (hup : req t ≠ 0) :
    ∃ s, RaisedSince req s t ∧ t ≤ s + timeoutAt inp t ∧ (∀ u, s ≤ u → u < t → ack u = false) ∧
      req (t + 1) =
        if ack t = true ∨ t = s + timeoutAt inp t then 0 else req t := by
  obtain ⟨hs, hvld⟩ := h.up_iff.1 hup
  obtain ⟨s, hraised, hquiet, hcnt⟩ := h.raised henv hup
  have hle := hraised.le
  refine ⟨s, hraised, by omega, hquiet, ?_⟩
  by_cases hnext : pingStateAt inp (t + 1) = X
  · obtain ⟨hpos, -, hack, -, hidx, hvld'⟩ := h.hold t hs hnext
    rw [if_neg (by rw [hack]; simp; omega), h.req_eq (t + 1), h.req_eq t, if_pos ⟨hnext, hvld'⟩,
      if_pos ⟨hs, hvld⟩, hidx]
  · have hdone : ack t = true ∨ t = s + timeoutAt inp t := by
      obtain hzero | hack | hnot := h.leave t hs hnext
      · exact .inr (by omega)
      · exact .inl hack
      · exact absurd (hvld.symm.trans hnot) Bool.noConfusion
    rw [if_pos hdone, h.req_eq (t + 1), if_neg fun hboth => hnext hboth.1]

/-- The counter runs out in the last cycle of a request that was not answered. -/
theorem expired_iff (h : PingKind inp X req ack vld idx) (henv : PingEnv inp) :
    pingStateAt inp t = X ∧ pingCntAt inp t = 0 ↔
      ∃ s, RaisedSince req s t ∧ t = s + timeoutAt inp t ∧ ∀ u, s ≤ u → u < t → ack u = false := by
  constructor
  · rintro ⟨hs, hzero⟩
    obtain ⟨s, hle, -, -, -, hvld, hcnt⟩ := h.since henv hs
    have hpos : 0 < timeoutAt inp t := Nat.pos_of_ne_zero fun hzero =>
      henv.timeout_pos t (BitVec.eq_of_toNat_eq hzero)
    obtain ⟨s', hraised, hquiet, hcnt'⟩ := h.raised henv (h.up_iff.2 ⟨hs, hvld (by omega)⟩)
    have hle' := hraised.le
    exact ⟨s', hraised, by omega, hquiet⟩
  · rintro ⟨s, hraised, htime, -⟩
    obtain ⟨s', hraised', -, hcnt⟩ := h.raised henv hraised.up
    obtain rfl := hraised.unique hraised'
    exact ⟨(h.up_iff.1 hraised.up).1, by omega⟩

end PingKind

section Kinds

variable {inp : ℕ → PingIn NAlerts} {t : ℕ}

theorem ofBool_shiftLeft {w v : ℕ} (b : Bool) (k : BitVec v) :
    (BitVec.ofBool b).setWidth w <<< k = if b = true then .twoPow w k.toNat else 0 := by
  cases b with
  | false => simp
  | true =>
    rw [if_pos rfl, BitVec.twoPow, BitVec.shiftLeft_eq']
    congr 1
    apply BitVec.eq_of_toNat_eq
    simp

theorem getLsbD_of_idVldAt (h : idVldAt inp t = true) :
    (inp t).alert_ping_en_i.getLsbD (pingAt inp t).id_to_ping_q.toNat = true := by
  rw [idVldAt, PingRegs.id_vld, PingIn.enable_mask, BitVec.getLsbD_setWidth, Bool.and_eq_true] at h
  exact h.2

theorem alertKind (henv : PingEnv inp) : PingKind inp .AlertPingSt (alertReqAt inp)
    (alertAckAt inp) (idVldAt inp) fun t => (pingAt inp t).id_to_ping_q.toNat where
  req_eq t := by
    rw [alertReqAt, PingRegs.alert_ping_req_o, ofBool_shiftLeft]
    simp only [PingRegs.alert_ping_en, Bool.and_eq_true, beq_iff_eq]
    rfl
  idx_lt t hvld := BitVec.lt_of_getLsbD (getLsbD_of_idVldAt hvld)
  not_init := PingState.noConfusion
  enter t hne hs := by
    have hstep := pingStep henv t
    have hlocked := locked henv t
    rw [hs] at hstep
    generalize pingStateAt inp t = s at hstep hne hlocked
    cases hstep with
    | alertPing hcnt => rw [hcnt, (hlocked PingState.noConfusion).2]
    | alertHold => exact absurd rfl hne
  hold t hs hs' := by
    have hstep := pingStep henv t
    have hmask := (locked henv t (by rw [hs]; exact PingState.noConfusion)).1
    rw [hs, hs'] at hstep
    cases hstep with
    | alertHold hpos hcnt hack hvld hid =>
      refine ⟨hpos, hcnt, hack, hvld, congrArg BitVec.toNat hid, ?_⟩
      rwa [idVldAt, PingRegs.id_vld, PingIn.enable_mask, hmask, hid]
  leave t hs hne := by
    have hstep := pingStep henv t
    rw [hs] at hstep
    generalize pingStateAt inp (t + 1) = s' at hstep hne
    cases hstep with
    | alertHold => exact absurd rfl hne
    | alertDone h => exact h

theorem escKind (henv : PingEnv inp) : PingKind inp .EscPingSt (escReqAt inp)
    (escAckAt inp) (fun _ => true) (escCntAt inp) where
  req_eq t := by
    rw [escReqAt, PingRegs.esc_ping_req_o, ofBool_shiftLeft]
    simp only [PingRegs.esc_ping_en, beq_iff_eq, and_true]
    rfl
  idx_lt t _ := (sound henv t).esc_lt
  not_init := PingState.noConfusion
  enter t hne hs := by
    have hstep := pingStep henv t
    have hlocked := locked henv t
    rw [hs] at hstep
    generalize pingStateAt inp t = s at hstep hne hlocked
    cases hstep with
    | escPing hcnt => rw [hcnt, (hlocked PingState.noConfusion).2]
    | escHold => exact absurd rfl hne
  hold t hs hs' := by
    have hstep := pingStep henv t
    have hesc := escCntAt_succ henv t
    rw [hs'] at hesc
    rw [if_neg fun h => PingState.noConfusion h.2] at hesc
    rw [hs, hs'] at hstep
    cases hstep with
    | escHold hpos hcnt hack => exact ⟨hpos, hcnt, hack, rfl, hesc, rfl⟩
  leave t hs hne := by
    have hstep := pingStep henv t
    rw [hs] at hstep
    generalize pingStateAt inp (t + 1) = s' at hstep hne
    cases hstep with
    | escHold => exact absurd rfl hne
    | escDone h =>
      obtain hzero | hack := h
      · exact .inl hzero
      · exact .inr (.inl hack)

end Kinds

end SecureBoot.AlertHandler
