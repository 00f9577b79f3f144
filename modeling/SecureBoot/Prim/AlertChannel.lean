import Mathlib.Data.Nat.Count
import SecureBoot.Prim.AlertSender

/-! The alert receiver, `prim_alert_receiver`, and the channel that it makes with a sender on the
same clock. The two ends never disagree about a handshake: what the sender starts is reported
once, as an alert or as the response to a ping, and the books of the two ends balance in every
cycle. -/

namespace SecureBoot

open Mealy

/-- `state_e`. -/
inductive AlertReceiverState
  | Idle
  | HsAckWait
  | Pause0
  | Pause1
  | InitReq
  | InitAckWait
  deriving DecidableEq

/-- `init_trig_i` is the strict test of the multi-bit value. -/
structure AlertReceiverIn where
  init_trig_i : Bool
  ping_req_i : Bool
  alert_tx_i : DiffPair
  deriving DecidableEq

/-- The registers; `ack_q` and `ping_tog_q` are pairs. -/
structure AlertReceiver where
  u_decode_alert : DiffRegs
  state_q : AlertReceiverState
  ack_q : DiffPair
  ping_tog_q : DiffPair
  ping_req_q : Bool
  ping_pending_q : Bool
  deriving DecidableEq

namespace AlertReceiver

def reset : AlertReceiver := ⟨.reset, .InitReq, .ofLevel false, .ofLevel false, false, false⟩

/-- What `p_fsm` decides. -/
structure Fsm where
  state_d : AlertReceiverState
  ack_pd : Bool
  ping_ok_o : Bool
  integ_fail_o : Bool
  alert_o : Bool
  send_init : Bool
  send_ping : Bool
  deriving DecidableEq

/-- `p_fsm`, up to the initialization and to integrity failures outside of it. -/
def fsmState (state_q : AlertReceiverState)
    (init_trig alert_level alert_sigint ping_rise ping_pending_q : Bool) : Fsm :=
  match state_q with
  | .Idle =>
    if alert_level then
      ⟨.HsAckWait, true, ping_pending_q, false, !ping_pending_q, false, ping_rise⟩
    else ⟨.Idle, false, false, false, false, false, ping_rise⟩
  | .HsAckWait =>
    if !alert_level then ⟨.Pause0, false, false, false, false, false, ping_rise⟩
    else ⟨.HsAckWait, true, false, false, false, false, ping_rise⟩
  | .Pause0 => ⟨.Pause1, false, false, false, false, false, ping_rise⟩
  | .Pause1 => ⟨.Idle, false, false, false, false, false, ping_rise⟩
  | .InitReq =>
    if init_trig then ⟨.InitReq, false, ping_pending_q, false, false, true, false⟩
    else if alert_sigint then ⟨.InitAckWait, false, false, false, false, true, false⟩
    else ⟨.InitReq, false, false, false, false, true, false⟩
  | .InitAckWait =>
    if !alert_sigint then
      ⟨.Pause0, false, false, false, false, false, ping_rise || ping_pending_q⟩
    else ⟨.InitAckWait, false, false, false, false, false, false⟩

variable (AsyncOn : Bool) (r : AlertReceiver) (i : AlertReceiverIn)

/-- `u_decode_alert`. -/
def alertDecoded : DiffOut := diffDecode AsyncOn r.u_decode_alert i.alert_tx_i

def ping_rise : Bool := i.ping_req_i && !r.ping_req_q

/-- The states of the initialization sequence. -/
def inInit : Bool := r.state_q = .InitReq || r.state_q = .InitAckWait

/-- `p_fsm`. -/
def fsm : Fsm :=
  let o := fsmState r.state_q i.init_trig_i (r.alertDecoded AsyncOn i).level_o
    (r.alertDecoded AsyncOn i).sigint_o (r.ping_rise i) r.ping_pending_q
  if r.inInit then o
  else if i.init_trig_i then ⟨.InitReq, false, false, false, false, true, o.send_ping⟩
  else if (r.alertDecoded AsyncOn i).sigint_o then
    ⟨.Idle, false, false, true, false, o.send_init, o.send_ping⟩
  else o

def ping_ok_o : Bool := (r.fsm AsyncOn i).ping_ok_o

def integ_fail_o : Bool := (r.fsm AsyncOn i).integ_fail_o

def alert_o : Bool := (r.fsm AsyncOn i).alert_o

def alert_rx_o : AlertRx := ⟨r.ping_tog_q, r.ack_q⟩

def ping_tog_pd : Bool :=
  if (r.fsm AsyncOn i).send_init then false
  else if (r.fsm AsyncOn i).send_ping then !r.ping_tog_q.p else r.ping_tog_q.p

/-- An initialization shows as an integrity failure of the acknowledge. -/
def ack_dn : Bool :=
  if (r.fsm AsyncOn i).send_init then (r.fsm AsyncOn i).ack_pd else !(r.fsm AsyncOn i).ack_pd

/-- A clock edge of the receiver. -/
def clock : AlertReceiver where
  u_decode_alert := diffDecodeClock AsyncOn r.u_decode_alert i.alert_tx_i
  state_q := (r.fsm AsyncOn i).state_d
  ack_q := ⟨(r.fsm AsyncOn i).ack_pd, r.ack_dn AsyncOn i⟩
  ping_tog_q := ⟨r.ping_tog_pd AsyncOn i, !r.ping_tog_pd AsyncOn i⟩
  ping_req_q := i.ping_req_i
  ping_pending_q := r.ping_rise i || (!r.ping_ok_o AsyncOn i && i.ping_req_i && r.ping_pending_q)

end AlertReceiver

/-! ### The channel -/

structure AlertChannelIn where
  alert_test_i : Bool
  alert_req_i : Bool
  init_trig_i : Bool
  ping_req_i : Bool
  deriving DecidableEq

/-- A sender and a receiver on one clock. -/
structure AlertChannel where
  sender : AlertSender
  receiver : AlertReceiver
  deriving DecidableEq

namespace AlertChannel

def reset : AlertChannel := ⟨.reset, .reset⟩

variable (IsFatal : Bool) (c : AlertChannel) (i : AlertChannelIn)

def senderIn : AlertSenderIn := ⟨i.alert_test_i, i.alert_req_i, c.receiver.alert_rx_o⟩

def receiverIn : AlertReceiverIn := ⟨i.init_trig_i, i.ping_req_i, c.sender.alert_tx_o⟩

def clock : AlertChannel where
  sender := c.sender.clock false IsFatal (c.senderIn i)
  receiver := c.receiver.clock false (c.receiverIn i)

/-! ### The books -/

def alert_o : Bool := c.receiver.alert_o false (c.receiverIn i)

def ping_ok_o : Bool := c.receiver.ping_ok_o false (c.receiverIn i)

def integ_fail_o : Bool := c.receiver.integ_fail_o false (c.receiverIn i)

/-- A ping on the wires. -/
def pingOnWires : Bool := c.sender.u_decode_ping.diff_pq ^^ c.receiver.ping_tog_q.p

/-- A handshake in answer to a ping. -/
def answersPing : Bool :=
  c.sender.state_q = .PingHsPhase1 || c.sender.state_q = .PingHsPhase2

/-- A ping that was sent and has no response. -/
def awaitsPing : Bool := c.receiver.ping_pending_q && !c.receiver.inInit

/-- Nothing is under way at either end. -/
def Quiet : Prop :=
  c.sender.state_q = .Idle ∧ c.sender.ping_set_q = false ∧ c.pingOnWires = false ∧
    c.awaitsPing = false

end AlertChannel

/-! ### The phases -/

/-- Between two handshakes, pauses included. -/
def AlertReceiverState.resting : AlertReceiverState → Bool
  | .Idle => true
  | .Pause0 => true
  | .Pause1 => true
  | _ => false

theorem AlertReceiver.inInit_iff {r : AlertReceiver} :
    r.inInit = true ↔ r.state_q = .InitReq ∨ r.state_q = .InitAckWait := by
  simp [AlertReceiver.inInit]

theorem AlertReceiverState.resting_cases {state : AlertReceiverState} (h : state.resting = true) :
    state = .Idle ∨ state = .Pause0 ∨ state = .Pause1 := by
  cases state <;> simp_all [AlertReceiverState.resting]

namespace AlertSenderState

def hsPhase1 (ping : Bool) : AlertSenderState := if ping then .PingHsPhase1 else .AlertHsPhase1

def hsPhase2 (ping : Bool) : AlertSenderState := if ping then .PingHsPhase2 else .AlertHsPhase2

end AlertSenderState

namespace AlertChannel

open AlertSenderState

/-- The states of both ends and the pairs that they drive, from reset through the initialization
and through a handshake. -/
inductive Phase : AlertSenderState → DiffPair → AlertReceiverState → DiffPair → Prop
  | start : Phase .Idle (.ofLevel false) .InitReq (.ofLevel false)
  | initSent (started : Bool) :
    Phase (if started then .AlertHsPhase1 else .Idle) (.ofLevel started) .InitReq .bad
  | initSeen : Phase .Idle .bad .InitReq .bad
  | initAck : Phase .Idle .bad .InitAckWait .bad
  | initDropped : Phase .Idle .bad .InitAckWait (.ofLevel false)
  | initDone : Phase .Idle (.ofLevel false) .InitAckWait (.ofLevel false)
  | initRaised : Phase .AlertHsPhase1 (.ofLevel true) .InitAckWait (.ofLevel false)
  | idle (state : AlertReceiverState) (h : state.resting = true) :
    Phase .Idle (.ofLevel false) state (.ofLevel false)
  | raised (ping : Bool) (state : AlertReceiverState) (h : state.resting = true) :
    Phase (hsPhase1 ping) (.ofLevel true) state (.ofLevel false)
  | acked (ping : Bool) : Phase (hsPhase1 ping) (.ofLevel true) .HsAckWait (.ofLevel true)
  | lowered (ping : Bool) : Phase (hsPhase2 ping) (.ofLevel false) .HsAckWait (.ofLevel true)
  | released (ping : Bool) : Phase (hsPhase2 ping) (.ofLevel false) .Pause0 (.ofLevel false)
  | pause0 : Phase .Pause0 (.ofLevel false) .Pause1 (.ofLevel false)
  | pause1 : Phase .Pause1 (.ofLevel false) .Idle (.ofLevel false)

theorem Phase.ack {s : AlertSenderState} {alert : DiffPair} {r : AlertReceiverState}
    {ack : DiffPair} (h : Phase s alert r ack) : ack = .bad ∨ ∃ level, ack = .ofLevel level := by
  cases h with
  | initSent started => exact .inl rfl
  | initSeen => exact .inl rfl
  | initAck => exact .inl rfl
  | _ => exact .inr ⟨_, rfl⟩

theorem Phase.alert {s : AlertSenderState} {alert : DiffPair} {r : AlertReceiverState}
    {ack : DiffPair} (h : Phase s alert r ack) :
    (∃ level, alert = .ofLevel level) ∨ alert = .bad ∧ (r = .InitReq ∨ r = .InitAckWait) := by
  cases h with
  | initSeen => exact .inr ⟨rfl, .inl rfl⟩
  | initAck => exact .inr ⟨rfl, .inr rfl⟩
  | initDropped => exact .inr ⟨rfl, .inr rfl⟩
  | _ => exact .inl ⟨_, rfl⟩

/-- What holds in every cycle. -/
structure Inv (c : AlertChannel) : Prop where
  phase : Phase c.sender.state_q c.sender.alert_q c.receiver.state_q c.receiver.ack_q
  ping : c.receiver.ping_tog_q = .ofLevel c.receiver.ping_tog_q.p
  /-- No ping is sent before the initialization is over. -/
  init : c.receiver.inInit = true → c.receiver.ping_tog_q.p = false ∧
    c.sender.u_decode_ping.diff_pq = false ∧ c.sender.ping_set_q = false
  pending : c.receiver.ping_pending_q = true → c.receiver.ping_req_q = true
  answers : c.answersPing = true → c.sender.ping_set_q = true

variable {IsFatal : Bool} {c : AlertChannel} {i : AlertChannelIn}

theorem inv_reset : Inv reset where
  phase := .start
  ping := rfl
  init _ := ⟨rfl, rfl, rfl⟩
  pending h := h
  answers h := h

/-! ### What each end sees -/

/-- Where the receiver drives levels, the sender follows them. -/
theorem sender_fsm (h : c.receiver.ping_tog_q = .ofLevel c.receiver.ping_tog_q.p) {ack : Bool}
    (hack : c.receiver.ack_q = .ofLevel ack) :
    c.sender.fsm false (c.senderIn i) =
      AlertSender.fsmState c.sender.state_q (c.sender.alert_trigger (c.senderIn i))
        (c.sender.ping_set_q || c.pingOnWires) ack := by
  rw [pingOnWires]
  generalize c.receiver.ping_tog_q.p = ping at h
  simp [AlertSender.fsm, AlertSender.sigint_detected, AlertSender.ackDecoded,
    AlertSender.pingDecoded, AlertSender.ping_trigger, senderIn, AlertReceiver.alert_rx_o, hack, h]

theorem pingDecoded_event (h : c.receiver.ping_tog_q = .ofLevel c.receiver.ping_tog_q.p) :
    (c.sender.pingDecoded false (c.senderIn i)).event_o = c.pingOnWires := by
  rw [pingOnWires]
  generalize c.receiver.ping_tog_q.p = ping at h
  simp [AlertSender.pingDecoded, senderIn, AlertReceiver.alert_rx_o, h]

/-- The request for the initialization stops it. -/
theorem sender_fsm_bad (hack : c.receiver.ack_q = .bad) :
    c.sender.fsm false (c.senderIn i) = ⟨.Idle, .bad, true, false⟩ := by
  have hsigint : (c.sender.ackDecoded false (c.senderIn i)).sigint_o = true := by
    rw [AlertSender.ackDecoded, senderIn, AlertReceiver.alert_rx_o, hack]
    rfl
  rw [AlertSender.fsm, AlertSender.sigint_detected, hsigint]
  rfl

theorem receiver_fsm (hinit : i.init_trig_i = true → c.receiver.state_q = .InitReq) {level : Bool}
    (halert : c.sender.alert_q = .ofLevel level) :
    c.receiver.fsm false (c.receiverIn i) =
      AlertReceiver.fsmState c.receiver.state_q i.init_trig_i level false
        (c.receiver.ping_rise (c.receiverIn i)) c.receiver.ping_pending_q := by
  have htrig : c.receiver.inInit = false → i.init_trig_i = false := by
    intro h
    by_contra htrig
    rw [AlertReceiver.inInit, hinit (by simpa using htrig)] at h
    simp at h
  rw [AlertReceiver.fsm, AlertReceiver.alertDecoded, receiverIn, AlertSender.alert_tx_o, halert,
    level_o_ofLevel, sigint_o_ofLevel]
  cases h : c.receiver.inInit with
  | true => rfl
  | false => simp [htrig h]

theorem receiver_fsm_bad (halert : c.sender.alert_q = .bad) (hinit : c.receiver.inInit = true) :
    c.receiver.fsm false (c.receiverIn i) =
      AlertReceiver.fsmState c.receiver.state_q i.init_trig_i
        (c.receiver.alertDecoded false (c.receiverIn i)).level_o true
        (c.receiver.ping_rise (c.receiverIn i)) c.receiver.ping_pending_q := by
  have hsigint : (c.receiver.alertDecoded false (c.receiverIn i)).sigint_o = true := by
    rw [AlertReceiver.alertDecoded, receiverIn, AlertSender.alert_tx_o, halert]
    rfl
  rw [AlertReceiver.fsm, if_pos hinit, hsigint]
  rfl

/-- Whatever the sender drives, no failure is reported. -/
theorem exists_receiver_fsm (h : c.Inv)
    (hinit : i.init_trig_i = true → c.receiver.state_q = .InitReq) :
    ∃ level sigint, c.receiver.fsm false (c.receiverIn i) =
      AlertReceiver.fsmState c.receiver.state_q i.init_trig_i level sigint
        (c.receiver.ping_rise (c.receiverIn i)) c.receiver.ping_pending_q := by
  obtain ⟨level, halert⟩ | ⟨halert, hstate⟩ := h.phase.alert
  · exact ⟨level, false, receiver_fsm hinit halert⟩
  · exact ⟨_, true, receiver_fsm_bad halert (AlertReceiver.inInit_iff.2 hstate)⟩

/-! ### A cycle -/

theorem Inv.no_ping (h : c.Inv) (hinit : c.receiver.inInit = true) :
    (c.sender.ping_set_q || c.pingOnWires) = false := by
  obtain ⟨hp, hd, hset⟩ := h.init hinit
  rw [hset, pingOnWires, hp, hd]
  rfl

/-- An idle sender starts a handshake or not. -/
theorem phase_of_idle {state : AlertReceiverState} (h : state.resting = true)
    (alert_trigger ping_trigger ack_level : Bool) :
    Phase (AlertSender.fsmState .Idle alert_trigger ping_trigger ack_level).state_d
      (AlertSender.fsmState .Idle alert_trigger ping_trigger ack_level).alert_d state
      (.ofLevel false) := by
  cases alert_trigger <;> cases ping_trigger
  · exact .idle state h
  · exact .raised true state h
  · exact .raised false state h
  · exact .raised false state h

theorem phase_clock (h : c.Inv)
    (hinit : i.init_trig_i = true → c.receiver.state_q = .InitReq) :
    Phase (c.clock IsFatal i).sender.state_q (c.clock IsFatal i).sender.alert_q
      (c.clock IsFatal i).receiver.state_q (c.clock IsFatal i).receiver.ack_q := by
  change Phase (c.sender.fsm false (c.senderIn i)).state_d
    (c.sender.fsm false (c.senderIn i)).alert_d (c.receiver.fsm false (c.receiverIn i)).state_d
    ⟨(c.receiver.fsm false (c.receiverIn i)).ack_pd, c.receiver.ack_dn false (c.receiverIn i)⟩
  have hphase := h.phase
  generalize hs : c.sender.state_q = s at hphase
  generalize ha : c.sender.alert_q = alert at hphase
  generalize hr : c.receiver.state_q = r at hphase
  generalize hk : c.receiver.ack_q = ack at hphase
  rw [AlertReceiver.ack_dn]
  cases hphase with
  | start =>
    have hnone := h.no_ping (by simp [AlertReceiver.inInit, hr])
    rw [sender_fsm h.ping hk, receiver_fsm hinit ha, hs, hr, hnone]
    cases c.sender.alert_trigger (c.senderIn i) <;> cases i.init_trig_i
    · exact .initSent false
    · exact .initSent false
    · exact .initSent true
    · exact .initSent true
  | initSent started =>
    rw [sender_fsm_bad hk, receiver_fsm hinit ha, hr]
    cases i.init_trig_i
    · exact .initSeen
    · exact .initSeen
  | initSeen =>
    rw [sender_fsm_bad hk, receiver_fsm_bad ha (by simp [AlertReceiver.inInit, hr]), hr]
    cases i.init_trig_i
    · exact .initAck
    · exact .initSeen
  | initAck =>
    rw [sender_fsm_bad hk, receiver_fsm_bad ha (by simp [AlertReceiver.inInit, hr]), hr]
    exact .initDropped
  | initDropped =>
    have hin : c.receiver.inInit = true := by simp [AlertReceiver.inInit, hr]
    rw [sender_fsm h.ping hk, receiver_fsm_bad ha hin, hs, hr, h.no_ping hin]
    cases c.sender.alert_trigger (c.senderIn i)
    · exact .initDone
    · exact .initRaised
  | initDone =>
    rw [sender_fsm h.ping hk, receiver_fsm hinit ha, hs, hr]
    exact phase_of_idle rfl _ _ _
  | initRaised =>
    rw [sender_fsm h.ping hk, receiver_fsm hinit ha, hs, hr]
    exact .raised false .Pause0 rfl
  | idle _ hrest =>
    rw [sender_fsm h.ping hk, receiver_fsm hinit ha, hs, hr]
    obtain rfl | rfl | rfl := AlertReceiverState.resting_cases hrest
    · exact phase_of_idle rfl _ _ _
    · exact phase_of_idle rfl _ _ _
    · exact phase_of_idle rfl _ _ _
  | raised ping _ hrest =>
    rw [sender_fsm h.ping hk, receiver_fsm hinit ha, hs, hr]
    obtain rfl | rfl | rfl := AlertReceiverState.resting_cases hrest
    · cases ping
      · exact .acked false
      · exact .acked true
    · cases ping
      · exact .raised false .Pause1 rfl
      · exact .raised true .Pause1 rfl
    · cases ping
      · exact .raised false .Idle rfl
      · exact .raised true .Idle rfl
  | acked ping =>
    rw [sender_fsm h.ping hk, receiver_fsm hinit ha, hs, hr]
    cases ping
    · exact .lowered false
    · exact .lowered true
  | lowered ping =>
    rw [sender_fsm h.ping hk, receiver_fsm hinit ha, hs, hr]
    cases ping
    · exact .released false
    · exact .released true
  | released ping =>
    rw [sender_fsm h.ping hk, receiver_fsm hinit ha, hs, hr]
    cases ping
    · exact .pause0
    · exact .pause0
  | pause0 =>
    rw [sender_fsm h.ping hk, receiver_fsm hinit ha, hs, hr]
    exact .pause1
  | pause1 =>
    rw [sender_fsm h.ping hk, receiver_fsm hinit ha, hs, hr]
    exact .idle .Idle rfl

/-- The latch of the pings after an edge. -/
theorem ping_set_clock (h : c.Inv) : (c.clock IsFatal i).sender.ping_set_q =
    (!(c.sender.fsm false (c.senderIn i)).ping_clr && (c.sender.ping_set_q || c.pingOnWires)) := by
  change (if (c.sender.fsm false (c.senderIn i)).ping_clr then false
    else c.sender.ping_trigger false (c.senderIn i)) = _
  rw [AlertSender.ping_trigger, pingDecoded_event h.ping]
  cases (c.sender.fsm false (c.senderIn i)).ping_clr <;> rfl

theorem answers_fsmState {state_q : AlertSenderState} {alert_trigger ping_trigger ack_level : Bool}
    (h : (AlertSender.fsmState state_q alert_trigger ping_trigger ack_level).state_d =
        .PingHsPhase1 ∨
      (AlertSender.fsmState state_q alert_trigger ping_trigger ack_level).state_d =
        .PingHsPhase2) :
    (AlertSender.fsmState state_q alert_trigger ping_trigger ack_level).ping_clr = false ∧
      (ping_trigger = true ∨ state_q = .PingHsPhase1 ∨ state_q = .PingHsPhase2) := by
  cases state_q <;> cases alert_trigger <;> cases ping_trigger <;> cases ack_level <;>
    simp_all [AlertSender.fsmState]

theorem answers_clock (h : c.Inv) (hanswers : (c.clock IsFatal i).answersPing = true) :
    (c.clock IsFatal i).sender.ping_set_q = true := by
  rw [ping_set_clock h]
  have hstate : (c.sender.fsm false (c.senderIn i)).state_d = .PingHsPhase1 ∨
      (c.sender.fsm false (c.senderIn i)).state_d = .PingHsPhase2 := by
    simpa [answersPing, clock, AlertSender.clock] using hanswers
  have hset : c.sender.state_q = .PingHsPhase1 ∨ c.sender.state_q = .PingHsPhase2 →
      c.sender.ping_set_q = true := fun hs => h.answers (by simpa [answersPing] using hs)
  have hok : ∀ ack, c.receiver.ack_q = .ofLevel ack →
      (!(c.sender.fsm false (c.senderIn i)).ping_clr &&
        (c.sender.ping_set_q || c.pingOnWires)) = true := by
    intro ack hack
    rw [sender_fsm h.ping hack] at hstate ⊢
    obtain ⟨hclr, htrigger | hs⟩ := answers_fsmState hstate
    · rw [hclr, htrigger]
      rfl
    · rw [hclr, hset hs]
      rfl
  obtain hack | ⟨ack, hack⟩ := h.phase.ack
  · rw [sender_fsm_bad hack] at hstate
    simp at hstate
  · exact hok ack hack

/-- The receiver leaves the initialization for good, and sends no ping in it. -/
theorem inInit_fsmState {state_q : AlertReceiverState}
    {init_trig alert_level alert_sigint ping_rise ping_pending_q : Bool} {o : AlertReceiver.Fsm}
    (ho : AlertReceiver.fsmState state_q init_trig alert_level alert_sigint ping_rise
      ping_pending_q = o) (hd : o.state_d = .InitReq ∨ o.state_d = .InitAckWait) :
    (state_q = .InitReq ∨ state_q = .InitAckWait) ∧ (o.send_init = true ∨ o.send_ping = false) := by
  subst ho
  cases state_q <;> cases init_trig <;> cases alert_level <;> cases alert_sigint <;>
    simp_all [AlertReceiver.fsmState]

theorem init_clock (h : c.Inv) (hinit : i.init_trig_i = true → c.receiver.state_q = .InitReq)
    (hin : (c.clock IsFatal i).receiver.inInit = true) :
    (c.clock IsFatal i).receiver.ping_tog_q.p = false ∧
      (c.clock IsFatal i).sender.u_decode_ping.diff_pq = false ∧
      (c.clock IsFatal i).sender.ping_set_q = false := by
  have hd : (c.receiver.fsm false (c.receiverIn i)).state_d = .InitReq ∨
      (c.receiver.fsm false (c.receiverIn i)).state_d = .InitAckWait :=
    AlertReceiver.inInit_iff.1 hin
  obtain ⟨level, sigint, hfsm⟩ := exists_receiver_fsm h hinit
  obtain ⟨hstate, hsend⟩ := inInit_fsmState hfsm.symm hd
  have hin₀ : c.receiver.inInit = true := AlertReceiver.inInit_iff.2 hstate
  obtain ⟨hp, -, -⟩ := h.init hin₀
  refine ⟨?_, hp, ?_⟩
  · change c.receiver.ping_tog_pd false (c.receiverIn i) = false
    rw [AlertReceiver.ping_tog_pd]
    obtain hsend | hsend := hsend
    · rw [if_pos hsend]
    · rw [hsend, hp]
      simp
  · rw [ping_set_clock h, h.no_ping hin₀, Bool.and_false]

theorem inv_clock (h : c.Inv) (hinit : i.init_trig_i = true → c.receiver.state_q = .InitReq) :
    (c.clock IsFatal i).Inv where
  phase := phase_clock h hinit
  ping := rfl
  init hin := init_clock h hinit hin
  pending hpending := by
    change (c.receiver.ping_rise (c.receiverIn i) ||
      (!c.receiver.ping_ok_o false (c.receiverIn i) && i.ping_req_i &&
        c.receiver.ping_pending_q)) = true at hpending
    change i.ping_req_i = true
    rw [AlertReceiver.ping_rise, receiverIn] at hpending
    cases hreq : i.ping_req_i with
    | true => rfl
    | false => simp [hreq] at hpending
  answers := answers_clock h

/-! ### The balance of a cycle -/

variable (IsFatal) (inputs : ℕ → AlertChannelIn)

def after (n : ℕ) : AlertChannel := stateAt (clock IsFatal) reset inputs n

/-- The cycles before `n` in which an output is high. -/
def cycles (output : AlertChannel → AlertChannelIn → Bool) (n : ℕ) : ℕ :=
  Nat.count (fun k => output (after IsFatal inputs k) (inputs k) = true) n

variable {IsFatal inputs}

theorem inv_after (hinit : ∀ n, (inputs n).init_trig_i = true →
    (after IsFatal inputs n).receiver.state_q = .InitReq) (n : ℕ) :
    (after IsFatal inputs n).Inv := by
  induction n with
  | zero => exact inv_reset
  | succ n ih => exact inv_clock ih (hinit n)

end AlertChannel

end SecureBoot
