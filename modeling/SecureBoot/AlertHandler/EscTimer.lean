import SecureBoot.Prim.Count

/-! `alert_handler_accu` and `alert_handler_esc_timer`, wired as `alert_handler` wires them
for one class: the accumulator counts the triggers of the class and raises the escalation
trigger at its threshold, and the timer runs the interrupt timeout and the four phases. -/

namespace SecureBoot.AlertHandler

abbrev EscCntDw : ℕ := 32
abbrev AccuCntDw : ℕ := 16
abbrev N_ESC_SEV : ℕ := 4
abbrev N_PHASES : ℕ := 4
abbrev PHASE_DW : ℕ := 2

theorem neZero_nPhases : NeZero N_PHASES := ⟨by decide⟩

attribute [local instance] neZero_nPhases

/-- `cstate_e`. -/
inductive Cstate
  | Idle | Timeout | Terminal | FsmError
  | Phase (k : Fin N_PHASES)
  deriving DecidableEq

/-- `state_e`, without the values that no register holds unless it is glitched. -/
inductive EscState
  | IdleSt | TimeoutSt | Phase0St | Phase1St | Phase2St | Phase3St | TerminalSt | FsmErrorSt
  deriving DecidableEq

/-! ### `alert_handler_accu` -/

structure AccuIn where
  class_en_i : Bool
  clr_i : Bool
  class_trig_i : Bool
  thresh_i : BitVec AccuCntDw

def AccuIn.trig_gated (i : AccuIn) : Bool := i.class_trig_i && i.class_en_i

/-- A clock edge of the accumulator. -/
def accuClock (r : CountRegs AccuCntDw) (i : AccuIn) : CountRegs AccuCntDw :=
  primCount 0 r
    { clr_i := i.clr_i
      set_i := false
      set_cnt_i := 0
      incr_en_i := i.trig_gated && r.primary != .allOnes AccuCntDw
      decr_en_i := false
      step_i := 1 }

def accu_trig_o (r : CountRegs AccuCntDw) (i : AccuIn) : Bool :=
  decide (i.thresh_i ≤ r.primary) && i.trig_gated

/-! ### `alert_handler_esc_timer` -/

structure EscTimerIn where
  en_i : Bool
  clr_i : Bool
  accu_trig_i : Bool
  accu_fail_i : Bool
  timeout_en_i : Bool
  timeout_cyc_i : BitVec EscCntDw
  esc_en_i : Fin N_ESC_SEV → Bool
  esc_map_i : Fin N_ESC_SEV → BitVec PHASE_DW
  phase_cyc_i : Fin N_PHASES → BitVec EscCntDw
  crashdump_phase_i : BitVec PHASE_DW

structure EscTimer where
  state_q : EscState
  u_prim_count : CountRegs EscCntDw
  deriving DecidableEq

/-- The signals that `p_fsm` drives. -/
structure EscTimerOut where
  state_d : EscState
  esc_state_o : Cstate := .Idle
  cnt_en : Bool := false
  cnt_clr : Bool := false
  esc_trig_o : Bool := false
  phase_oh : BitVec N_PHASES := 0
  fsm_error : Bool := false
  latch_crashdump_o : Bool := false

namespace EscTimer

def reset : EscTimer := ⟨.IdleSt, primCountReset 0⟩

variable (r : EscTimer) (i : EscTimerIn)

def esc_cnt_o : BitVec EscCntDw := r.u_prim_count.primary

/-- The threshold test against the threshold that the state selects. -/
def cnt_ge (thresh : BitVec EscCntDw) : Bool := decide (thresh ≤ r.esc_cnt_o)

/-- The states `Phase0St` to `Phase3St`; the last one does not restart the counter. -/
def phaseSt (k : Fin N_PHASES) (state next : EscState) (restart : Bool) : EscTimerOut :=
  let out : EscTimerOut :=
    { state_d := state
      cnt_en := true
      phase_oh := .twoPow N_PHASES k
      esc_state_o := .Phase k
      latch_crashdump_o := i.crashdump_phase_i == BitVec.ofNat PHASE_DW k }
  if i.clr_i then { out with state_d := .IdleSt, cnt_clr := true, cnt_en := false }
  else if r.cnt_ge (i.phase_cyc_i k) then
    { out with state_d := next, cnt_clr := true, cnt_en := restart }
  else out

/-- The case analysis of `p_fsm`. -/
def caseState : EscTimerOut :=
  match r.state_q with
  | .IdleSt =>
    if i.accu_trig_i && i.en_i && !i.clr_i then
      { state_d := .Phase0St, cnt_clr := true, cnt_en := true, esc_trig_o := true }
    else if i.timeout_en_i && !r.cnt_ge i.timeout_cyc_i && i.en_i then
      { state_d := .TimeoutSt, cnt_clr := true, cnt_en := true }
    else { state_d := .IdleSt, cnt_clr := true }
  | .TimeoutSt =>
    if (i.accu_trig_i && i.en_i && !i.clr_i) || (r.cnt_ge i.timeout_cyc_i && i.timeout_en_i) then
      { state_d := .Phase0St, esc_state_o := .Timeout, cnt_clr := true, cnt_en := true,
        esc_trig_o := true }
    else if i.timeout_en_i then
      { state_d := .TimeoutSt, esc_state_o := .Timeout, cnt_en := true }
    else { state_d := .IdleSt, esc_state_o := .Timeout, cnt_clr := true }
  | .Phase0St => r.phaseSt i 0 .Phase0St .Phase1St true
  | .Phase1St => r.phaseSt i 1 .Phase1St .Phase2St true
  | .Phase2St => r.phaseSt i 2 .Phase2St .Phase3St true
  | .Phase3St => r.phaseSt i 3 .Phase3St .TerminalSt false
  | .TerminalSt =>
    { state_d := if i.clr_i then .IdleSt else .TerminalSt, esc_state_o := .Terminal,
      cnt_clr := true }
  | .FsmErrorSt => { state_d := .FsmErrorSt, esc_state_o := .FsmError, fsm_error := true }

/-- `p_fsm`: an inconsistent counter pair overrides the state. -/
def p_fsm : EscTimerOut :=
  let out := r.caseState i
  if i.accu_fail_i || r.u_prim_count.err_o then
    { out with state_d := .FsmErrorSt, fsm_error := true }
  else out

/-- A clock edge of the timer. -/
def clock : EscTimer :=
  let out := r.p_fsm i
  ⟨out.state_d, primCount 0 r.u_prim_count
    { clr_i := out.cnt_clr && !out.cnt_en
      set_i := out.cnt_clr && out.cnt_en
      set_cnt_i := 1
      incr_en_i := out.cnt_en
      decr_en_i := false
      step_i := 1 }⟩

def esc_map_oh (k : Fin N_ESC_SEV) : BitVec N_PHASES :=
  (BitVec.ofBool (i.esc_en_i k)).setWidth N_PHASES <<< i.esc_map_i k

def esc_sig_req_o (k : Fin N_ESC_SEV) : Bool :=
  let out := r.p_fsm i
  (esc_map_oh i k &&& out.phase_oh != 0) || out.fsm_error

end EscTimer

/-! ### One class -/

/-- The thresholds of a class. -/
structure ClassConfig where
  class_accum_thresh : BitVec AccuCntDw
  class_timeout_cyc : BitVec EscCntDw
  class_phase_cyc : Fin N_PHASES → BitVec EscCntDw

/-- The inputs of a class in one cycle. -/
structure ClassIn where
  class_en : Bool
  class_clr : Bool
  class_trig : Bool
  irq : Bool
  class_esc_en : Fin N_ESC_SEV → Bool
  class_esc_map : Fin N_ESC_SEV → BitVec PHASE_DW
  class_crashdump_phase : BitVec PHASE_DW

structure ClassRegs where
  u_accu : CountRegs AccuCntDw
  u_esc_timer : EscTimer
  deriving DecidableEq

namespace ClassRegs

def reset : ClassRegs := ⟨primCountReset 0, .reset⟩

variable (r : ClassRegs) (cfg : ClassConfig) (i : ClassIn)

def accuIn : AccuIn := ⟨i.class_en, i.class_clr, i.class_trig, cfg.class_accum_thresh⟩

def escTimerIn : EscTimerIn :=
  { en_i := i.class_en
    clr_i := i.class_clr
    accu_trig_i := accu_trig_o r.u_accu (accuIn cfg i)
    accu_fail_i := r.u_accu.err_o
    timeout_en_i := i.irq
    timeout_cyc_i := cfg.class_timeout_cyc
    esc_en_i := i.class_esc_en
    esc_map_i := i.class_esc_map
    phase_cyc_i := cfg.class_phase_cyc
    crashdump_phase_i := i.class_crashdump_phase }

/-- A clock edge of the class. -/
def clock : ClassRegs :=
  ⟨accuClock r.u_accu (accuIn cfg i), r.u_esc_timer.clock (r.escTimerIn cfg i)⟩

def out : EscTimerOut := r.u_esc_timer.p_fsm (r.escTimerIn cfg i)

def class_esc_sig_req (k : Fin N_ESC_SEV) : Bool :=
  r.u_esc_timer.esc_sig_req_o (r.escTimerIn cfg i) k

end ClassRegs

/-- The registers of the class after `t` cycles. -/
def classAt (cfg : ClassConfig) (inp : ℕ → ClassIn) : ℕ → ClassRegs
  | 0 => .reset
  | t + 1 => (classAt cfg inp t).clock cfg (inp t)

end SecureBoot.AlertHandler
