import SecureBoot.Prim.Count
import SecureBoot.Prim.DiffDecode

/-! The escalation channel: `prim_esc_sender` and `prim_esc_receiver`, connected by the two
differential pairs on one clock. A single pulse is a ping and longer ones escalate; the
receiver answers by toggling its response. The requester holds a ping request until it is
answered, and pings reach the receiver before its ping timeout. -/

namespace SecureBoot

open Clocked

/-! ### The sender -/

inductive EscSenderState
  | Idle
  | CheckEscRespLo
  | CheckEscRespHi
  | CheckPingResp0
  | CheckPingResp1
  | CheckPingResp2
  | CheckPingResp3
  deriving DecidableEq

structure EscSender where
  u_decode_resp : DiffRegs
  state_q : EscSenderState
  esc_req_q : Bool
  esc_req_q1 : Bool
  ping_req_q : Bool
  deriving DecidableEq

namespace EscSender

def reset : EscSender := ⟨.reset, .Idle, false, false, false⟩

structure Out where
  state_d : EscSenderState
  ping_ok_o : Bool
  integ_fail_o : Bool

variable (r : EscSender) (ping_req_i esc_req_i : Bool) (esc_rx_i : DiffPair)

/-- `esc_p`. -/
def esc_p : Bool := esc_req_i || r.esc_req_q || (ping_req_i && !r.ping_req_q)

def esc_tx_o : DiffPair := .ofLevel (r.esc_p ping_req_i esc_req_i)

/-- `p_fsm`, up to the integrity failure. -/
def fsmState : Out :=
  let o := diffDecode false r.u_decode_resp esc_rx_i
  let resp := o.level_o
  let sigint_detected := o.sigint_o
  match r.state_q with
  | .Idle =>
    ⟨if esc_req_i then .CheckEscRespHi else if ping_req_i && !r.ping_req_q then .CheckPingResp0
      else .Idle, false, sigint_detected || resp⟩
  | .CheckEscRespLo =>
    if !r.esc_p ping_req_i esc_req_i || resp then ⟨.Idle, false, sigint_detected || resp⟩
    else ⟨.CheckEscRespHi, false, sigint_detected⟩
  | .CheckEscRespHi =>
    if !r.esc_p ping_req_i esc_req_i || !resp then ⟨.Idle, false, sigint_detected || !resp⟩
    else ⟨.CheckEscRespLo, false, sigint_detected⟩
  | .CheckPingResp0 =>
    if esc_req_i then ⟨.CheckEscRespLo, false, sigint_detected⟩
    else if !resp then ⟨.Idle, false, true⟩ else ⟨.CheckPingResp1, false, sigint_detected⟩
  | .CheckPingResp1 =>
    if esc_req_i then ⟨.CheckEscRespHi, false, sigint_detected⟩
    else if resp then ⟨.Idle, false, true⟩ else ⟨.CheckPingResp2, false, sigint_detected⟩
  | .CheckPingResp2 =>
    if esc_req_i then ⟨.CheckEscRespLo, false, sigint_detected⟩
    else if !resp then ⟨.Idle, false, true⟩ else ⟨.CheckPingResp3, false, sigint_detected⟩
  | .CheckPingResp3 =>
    if esc_req_i then ⟨.CheckEscRespHi, false, sigint_detected⟩
    else if resp then ⟨.Idle, false, true⟩ else ⟨.Idle, ping_req_i, sigint_detected⟩

/-- `p_fsm`. -/
def fsm : Out :=
  let o := r.fsmState ping_req_i esc_req_i esc_rx_i
  let sigint_detected := (diffDecode false r.u_decode_resp esc_rx_i).sigint_o
  ⟨if sigint_detected then .Idle else o.state_d,
    (!sigint_detected && o.ping_ok_o) ||
      ((esc_req_i || r.esc_req_q || r.esc_req_q1) && ping_req_i), o.integ_fail_o⟩

def clock : EscSender :=
  ⟨diffDecodeClock false r.u_decode_resp esc_rx_i, (r.fsm ping_req_i esc_req_i esc_rx_i).state_d,
    esc_req_i, r.esc_req_q, ping_req_i⟩

end EscSender

/-! ### The receiver -/

inductive EscReceiverState
  | Idle
  | Check
  | PingResp
  | EscResp
  | SigInt
  deriving DecidableEq

structure EscReceiver (TimeoutCntDw : ℕ) where
  u_decode_esc : DiffRegs
  u_prim_count : CountRegs TimeoutCntDw
  state_q : EscReceiverState
  /-- `resp_pq` and `resp_nq`. -/
  resp_q : DiffPair
  deriving DecidableEq

namespace EscReceiver

variable {TimeoutCntDw : ℕ}

def reset : EscReceiver TimeoutCntDw := ⟨.reset, primCountReset 0, .Idle, .ofLevel false⟩

structure Out where
  state_d : EscReceiverState
  resp_d : DiffPair
  esc_req : Bool
  ping_en : Bool

variable (r : EscReceiver TimeoutCntDw) (esc_tx_i : DiffPair)

/-- `p_fsm`, up to the integrity failure. -/
def fsmState : Out :=
  let o := diffDecode false r.u_decode_esc esc_tx_i
  let toggled : DiffPair := ⟨!r.resp_q.p, r.resp_q.p⟩
  match r.state_q with
  | .Idle => if o.level_o then ⟨.Check, toggled, false, false⟩ else ⟨.Idle, .ofLevel false, false, false⟩
  | .Check => ⟨if o.level_o then .EscResp else .PingResp, toggled, o.level_o, false⟩
  | .PingResp => ⟨if o.level_o then .EscResp else .Idle, toggled, o.level_o, true⟩
  | .EscResp =>
    if o.level_o then ⟨.EscResp, toggled, true, false⟩ else ⟨.Idle, .ofLevel false, false, false⟩
  | .SigInt =>
    if o.sigint_o then ⟨.SigInt, ⟨!r.resp_q.p, !r.resp_q.p⟩, true, false⟩
    else ⟨.Idle, .ofLevel false, true, false⟩

/-- `p_fsm`. -/
def fsm : Out :=
  let o := r.fsmState esc_tx_i
  let sigint_detected := (diffDecode false r.u_decode_esc esc_tx_i).sigint_o
  if sigint_detected && r.state_q != .SigInt then { o with state_d := .SigInt, resp_d := .bad } else o

/-- `&timeout_cnt`. -/
def timeout : Bool := r.u_prim_count.primary == .allOnes TimeoutCntDw

/-- The inputs of `u_prim_count`. -/
def countIn : CountIn TimeoutCntDw where
  clr_i := false
  set_i := (r.fsm esc_tx_i).ping_en && !r.timeout
  set_cnt_i := 1
  incr_en_i := decide (0 < r.u_prim_count.primary) && !r.timeout
  decr_en_i := false
  step_i := 1

def clock : EscReceiver TimeoutCntDw :=
  ⟨diffDecodeClock false r.u_decode_esc esc_tx_i, primCount 0 r.u_prim_count (r.countIn esc_tx_i),
    (r.fsm esc_tx_i).state_d, (r.fsm esc_tx_i).resp_d⟩

end EscReceiver

/-! ### The channel -/

structure EscIn where
  ping_req_i : Bool
  esc_req_i : Bool
  deriving DecidableEq

/-- The two sides, and whether a ping request waits for its answer. -/
structure EscChannel (TimeoutCntDw : ℕ) where
  sender : EscSender
  receiver : EscReceiver TimeoutCntDw
  waiting : Bool
  deriving DecidableEq

namespace EscChannel

variable {TimeoutCntDw : ℕ}

def reset : EscChannel TimeoutCntDw := ⟨.reset, .reset, false⟩

variable (s : EscChannel TimeoutCntDw) (i : EscIn)

def senderOut : EscSender.Out := s.sender.fsm i.ping_req_i i.esc_req_i s.receiver.resp_q

def esc_tx : DiffPair := s.sender.esc_tx_o i.ping_req_i i.esc_req_i

def ping_ok_o : Bool := (s.senderOut i).ping_ok_o

def integ_fail_o : Bool := (s.senderOut i).integ_fail_o

/-- A rising ping request. -/
def pingRises : Bool := i.ping_req_i && !s.sender.ping_req_q

/-- The environment: a ping request is held until it is answered, and the receiver has seen
a ping before its timeout. -/
def allowed : Bool := (!s.waiting || i.ping_req_i) && !s.receiver.timeout

def step : Option (EscChannel TimeoutCntDw) :=
  if s.allowed i then
    some ⟨s.sender.clock i.ping_req_i i.esc_req_i s.receiver.resp_q, s.receiver.clock (s.esc_tx i),
      (s.waiting || s.pingRises i) && !s.ping_ok_o i⟩
  else none

/-! ### The two sides in lock step -/

/-- The sender in escalation: it has seen an escalation request in the last two cycles, or
a ping request has come right after them. The receiver answers, at first in the state that
tells a ping from an escalation. -/
structure Escalating (sender : EscSender) (state_q : EscReceiverState) (waiting : Bool) : Prop where
  recent : sender.esc_req_q = false → sender.esc_req_q1 = false → sender.ping_req_q = true
  receiver : state_q = .EscResp ∨
    state_q = .Check ∧ sender.esc_req_q = true ∧ sender.esc_req_q1 = false
  answered : waiting = false

/-- The sender in a ping sequence or idle. -/
structure Quiet (sender : EscSender) (pinging waiting : Bool) : Prop where
  esc_req_q : sender.esc_req_q = false
  esc_req_q1 : sender.esc_req_q1 = false
  ping_req_q : pinging = true → sender.ping_req_q = true
  waiting : waiting = pinging

/-- Which states of the two sides come together. -/
def Lockstep (s : EscChannel TimeoutCntDw) : Prop :=
  match s.sender.state_q with
  | .Idle => s.receiver.state_q = .Idle ∧ s.receiver.resp_q = .ofLevel false ∧
      Quiet s.sender false s.waiting
  | .CheckPingResp0 => s.receiver.state_q = .Check ∧ s.receiver.resp_q = .ofLevel true ∧
      Quiet s.sender true s.waiting
  | .CheckPingResp1 => s.receiver.state_q = .PingResp ∧ s.receiver.resp_q = .ofLevel false ∧
      Quiet s.sender true s.waiting
  | .CheckPingResp2 => s.receiver.state_q = .Idle ∧ s.receiver.resp_q = .ofLevel true ∧
      Quiet s.sender true s.waiting
  | .CheckPingResp3 => s.receiver.state_q = .Idle ∧ s.receiver.resp_q = .ofLevel false ∧
      Quiet s.sender true s.waiting
  | .CheckEscRespHi => s.receiver.resp_q = .ofLevel true ∧
      Escalating s.sender s.receiver.state_q s.waiting
  | .CheckEscRespLo => s.receiver.resp_q = .ofLevel false ∧
      Escalating s.sender s.receiver.state_q s.waiting

structure Inv (s : EscChannel TimeoutCntDw) : Prop where
  count : s.receiver.u_prim_count.Consistent
  lockstep : s.Lockstep

theorem inv_reset : Inv (reset : EscChannel TimeoutCntDw) where
  count := CountRegs.consistent_reset 0
  lockstep := ⟨rfl, rfl, rfl, rfl, nofun, rfl⟩

variable {s} {s' : EscChannel TimeoutCntDw} {i : EscIn}

theorem lockstep_step (h : s.Lockstep) (hstep : s.step i = some s') : s'.Lockstep := by
  obtain ⟨⟨dr, st, q, q1, pq⟩, ⟨de, cnt, rst, resp⟩, w⟩ := s
  obtain ⟨ping, esc⟩ := i
  simp only [step, Option.ite_none_right_eq_some, Option.some.injEq] at hstep
  obtain ⟨hallow, rfl⟩ := hstep
  simp only [allowed, Bool.and_eq_true] at hallow
  replace hallow := hallow.1
  cases st with
  | Idle =>
    obtain ⟨rfl, rfl, rfl, rfl, -, rfl⟩ := h
    cases ping <;> cases esc <;> cases pq <;>
      first
      | exact ⟨rfl, rfl, rfl, rfl, Bool.false_ne_true.elim, rfl⟩
      | exact ⟨rfl, rfl, rfl, rfl, fun _ => rfl, rfl⟩
      | exact ⟨rfl, fun h => (Bool.false_ne_true h.symm).elim, .inr ⟨rfl, rfl, rfl⟩, rfl⟩
  | CheckPingResp0 =>
    obtain ⟨rfl, rfl, rfl, rfl, hpq, rfl⟩ := h
    obtain rfl := hpq rfl
    obtain rfl : ping = true := hallow
    cases esc <;>
      first
      | exact ⟨rfl, rfl, rfl, rfl, fun _ => rfl, rfl⟩
      | exact ⟨rfl, fun h => (Bool.false_ne_true h.symm).elim, .inl rfl, rfl⟩
  | CheckPingResp1 =>
    obtain ⟨rfl, rfl, rfl, rfl, hpq, rfl⟩ := h
    obtain rfl := hpq rfl
    obtain rfl : ping = true := hallow
    cases esc <;>
      first
      | exact ⟨rfl, rfl, rfl, rfl, fun _ => rfl, rfl⟩
      | exact ⟨rfl, fun h => (Bool.false_ne_true h.symm).elim, .inl rfl, rfl⟩
  | CheckPingResp2 =>
    obtain ⟨rfl, rfl, rfl, rfl, hpq, rfl⟩ := h
    obtain rfl := hpq rfl
    obtain rfl : ping = true := hallow
    cases esc <;>
      first
      | exact ⟨rfl, rfl, rfl, rfl, fun _ => rfl, rfl⟩
      | exact ⟨rfl, fun h => (Bool.false_ne_true h.symm).elim, .inr ⟨rfl, rfl, rfl⟩, rfl⟩
  | CheckPingResp3 =>
    obtain ⟨rfl, rfl, rfl, rfl, hpq, rfl⟩ := h
    obtain rfl := hpq rfl
    obtain rfl : ping = true := hallow
    cases esc <;>
      first
      | exact ⟨rfl, rfl, rfl, rfl, Bool.false_ne_true.elim, rfl⟩
      | exact ⟨rfl, fun h => (Bool.false_ne_true h.symm).elim, .inr ⟨rfl, rfl, rfl⟩, rfl⟩
  | CheckEscRespHi =>
    obtain ⟨rfl, hrecent, rfl | ⟨rfl, rfl, rfl⟩, rfl⟩ := h
    · cases q <;> cases q1 <;> cases pq <;> cases ping <;> cases esc <;>
        first
        | exact ⟨rfl, fun h => (Bool.false_ne_true h.symm).elim, .inl rfl, rfl⟩
        | exact ⟨rfl, fun _ h => (Bool.false_ne_true h.symm).elim, .inl rfl, rfl⟩
        | exact ⟨rfl, fun _ _ => rfl, .inl rfl, rfl⟩
        | exact ⟨rfl, rfl, rfl, rfl, Bool.false_ne_true.elim, rfl⟩
        | exact absurd (hrecent rfl rfl) Bool.false_ne_true
    · cases pq <;> cases ping <;> cases esc <;>
        first
        | exact ⟨rfl, fun h => (Bool.false_ne_true h.symm).elim, .inl rfl, rfl⟩
        | exact ⟨rfl, fun _ h => (Bool.false_ne_true h.symm).elim, .inl rfl, rfl⟩
  | CheckEscRespLo =>
    obtain ⟨rfl, hrecent, rfl | ⟨rfl, rfl, rfl⟩, rfl⟩ := h
    · cases q <;> cases q1 <;> cases pq <;> cases ping <;> cases esc <;>
        first
        | exact ⟨rfl, fun h => (Bool.false_ne_true h.symm).elim, .inl rfl, rfl⟩
        | exact ⟨rfl, fun _ h => (Bool.false_ne_true h.symm).elim, .inl rfl, rfl⟩
        | exact ⟨rfl, fun _ _ => rfl, .inl rfl, rfl⟩
        | exact ⟨rfl, rfl, rfl, rfl, Bool.false_ne_true.elim, rfl⟩
        | exact absurd (hrecent rfl rfl) Bool.false_ne_true
    · cases pq <;> cases ping <;> cases esc <;>
        first
        | exact ⟨rfl, fun h => (Bool.false_ne_true h.symm).elim, .inl rfl, rfl⟩
        | exact ⟨rfl, fun _ h => (Bool.false_ne_true h.symm).elim, .inl rfl, rfl⟩

theorem inv_step (h : s.Inv) (hstep : s.step i = some s') : s'.Inv where
  count := by
    simp only [step, Option.ite_none_right_eq_some, Option.some.injEq] at hstep
    obtain ⟨-, rfl⟩ := hstep
    exact h.count.primCount 0 _
  lockstep := lockstep_step h.lockstep hstep

theorem inv_run {events : List EscIn} (hrun : run step s events = some s') (h : s.Inv) : s'.Inv :=
  Clocked.invariant_of_step (fun _ _ _ hstep h => inv_step h hstep) hrun h

/-- Some cycle of a run answers a ping request. -/
def Answers (s : EscChannel TimeoutCntDw) (window : List EscIn) : Prop :=
  ∃ k s₁ i, run step s (window.take k) = some s₁ ∧ window[k]? = some i ∧ s₁.ping_ok_o i = true

theorem Answers.cons {window : List EscIn} (hstep : s.step i = some s')
    (h : s'.Answers window) : s.Answers (i :: window) := by
  obtain ⟨k, s₁, j, hrun, hj, hok⟩ := h
  refine ⟨k + 1, s₁, j, ?_, hj, hok⟩
  rw [List.take_succ_cons, run_cons, hstep, Option.bind_some, hrun]

end EscChannel

end SecureBoot
