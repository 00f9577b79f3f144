import SecureBoot.Prim.DiffDecode

/-! The alert sender, `prim_alert_sender`. A handshake on the alert pair is started for a
request, for a test or for a ping; a request that arrives during a handshake is latched,
and the end of a handshake for an alert clears the latches of the request and of the test
together. -/

namespace SecureBoot

open Mealy

/-- `alert_rx_t`. -/
structure AlertRx where
  ping : DiffPair
  ack : DiffPair
  deriving DecidableEq

structure AlertSenderIn where
  alert_test_i : Bool
  alert_req_i : Bool
  alert_rx_i : AlertRx
  deriving DecidableEq

/-- `state_e`. -/
inductive AlertSenderState
  | Idle
  | AlertHsPhase1
  | AlertHsPhase2
  | PingHsPhase1
  | PingHsPhase2
  | Pause0
  | Pause1
  deriving DecidableEq

/-- The registers; `alert_q` is the pair `alert_pq`, `alert_nq`. -/
structure AlertSender where
  u_decode_ping : DiffRegs
  u_decode_ack : DiffRegs
  state_q : AlertSenderState
  alert_set_q : Bool
  alert_test_set_q : Bool
  ping_set_q : Bool
  alert_q : DiffPair
  deriving DecidableEq

namespace AlertSender

def reset : AlertSender := ⟨.reset, .reset, .Idle, false, false, false, .ofLevel false⟩

/-- What `p_fsm` decides; `alert_d` is the pair `alert_pd`, `alert_nd`. -/
structure Fsm where
  state_d : AlertSenderState
  alert_d : DiffPair
  ping_clr : Bool
  alert_clr : Bool
  deriving DecidableEq

/-- `p_fsm`, up to the signal integrity issue. -/
def fsmState (state_q : AlertSenderState) (alert_trigger ping_trigger ack_level : Bool) : Fsm :=
  match state_q with
  | .Idle =>
    if alert_trigger || ping_trigger then
      ⟨if alert_trigger then .AlertHsPhase1 else .PingHsPhase1, .ofLevel true, false, false⟩
    else ⟨.Idle, .ofLevel false, false, false⟩
  | .AlertHsPhase1 =>
    if ack_level then ⟨.AlertHsPhase2, .ofLevel false, false, false⟩
    else ⟨.AlertHsPhase1, .ofLevel true, false, false⟩
  | .AlertHsPhase2 =>
    if !ack_level then ⟨.Pause0, .ofLevel false, false, true⟩
    else ⟨.AlertHsPhase2, .ofLevel false, false, false⟩
  | .PingHsPhase1 =>
    if ack_level then ⟨.PingHsPhase2, .ofLevel false, false, false⟩
    else ⟨.PingHsPhase1, .ofLevel true, false, false⟩
  | .PingHsPhase2 =>
    if !ack_level then ⟨.Pause0, .ofLevel false, true, false⟩
    else ⟨.PingHsPhase2, .ofLevel false, false, false⟩
  | .Pause0 => ⟨.Pause1, .ofLevel false, false, false⟩
  | .Pause1 => ⟨.Idle, .ofLevel false, false, false⟩

variable (AsyncOn IsFatal : Bool) (r : AlertSender) (i : AlertSenderIn)

/-- `u_decode_ping`. -/
def pingDecoded : DiffOut := diffDecode AsyncOn r.u_decode_ping i.alert_rx_i.ping

/-- `u_decode_ack`. -/
def ackDecoded : DiffOut := diffDecode AsyncOn r.u_decode_ack i.alert_rx_i.ack

def sigint_detected : Bool :=
  (r.ackDecoded AsyncOn i).sigint_o || (r.pingDecoded AsyncOn i).sigint_o

def alert_req_trigger : Bool := i.alert_req_i || r.alert_set_q

def alert_test_trigger : Bool := i.alert_test_i || r.alert_test_set_q

def alert_trigger : Bool := r.alert_req_trigger i || r.alert_test_trigger i

def ping_trigger : Bool := r.ping_set_q || (r.pingDecoded AsyncOn i).event_o

/-- `p_fsm`. -/
def fsm : Fsm :=
  let o := fsmState r.state_q (r.alert_trigger i) (r.ping_trigger AsyncOn i)
    (r.ackDecoded AsyncOn i).level_o
  if r.sigint_detected AsyncOn i then ⟨.Idle, .bad, true, false⟩ else o

def alert_ack_o : Bool := (r.fsm AsyncOn i).alert_clr && r.alert_set_q

def alert_state_o : Bool := r.alert_set_q

def alert_tx_o : DiffPair := r.alert_q

/-- A clock edge of the sender. -/
def clock : AlertSender :=
  let o := r.fsm AsyncOn i
  { u_decode_ping := diffDecodeClock AsyncOn r.u_decode_ping i.alert_rx_i.ping
    u_decode_ack := diffDecodeClock AsyncOn r.u_decode_ack i.alert_rx_i.ack
    state_q := o.state_d
    alert_set_q :=
      if IsFatal then r.alert_req_trigger i
      else if o.alert_clr then false else r.alert_req_trigger i
    alert_test_set_q := if o.alert_clr then false else r.alert_test_trigger i
    ping_set_q := if o.ping_clr then false else r.ping_trigger AsyncOn i
    alert_q := o.alert_d }

/-! ### A cycle -/

/-- The handshake for an alert is over: the receiver has taken its acknowledge back, and no
pair shows an integrity failure. -/
def HandshakeDone : Prop :=
  r.state_q = .AlertHsPhase2 ∧ (r.ackDecoded AsyncOn i).level_o = false ∧
    r.sigint_detected AsyncOn i = false

/-- A request that arrives as a handshake that was started for a test alone is over. -/
def LateForTest : Prop :=
  i.alert_req_i = true ∧ r.alert_set_q = false ∧ r.HandshakeDone AsyncOn i

/-- The end of a handshake that acknowledges the latched request. -/
def Acknowledged : Prop :=
  r.alert_ack_o AsyncOn i = true ∧ r.HandshakeDone AsyncOn i ∧
    (r.clock AsyncOn IsFatal i).state_q = .Pause0

variable {AsyncOn IsFatal r i}

theorem alert_clr_fsmState {state_q : AlertSenderState} {alert_trigger ping_trigger ack : Bool} :
    (fsmState state_q alert_trigger ping_trigger ack).alert_clr = true ↔
      state_q = .AlertHsPhase2 ∧ ack = false := by
  cases state_q <;> cases alert_trigger <;> cases ping_trigger <;> cases ack <;> decide

theorem alert_clr_iff : (r.fsm AsyncOn i).alert_clr = true ↔ r.HandshakeDone AsyncOn i := by
  rw [fsm, HandshakeDone]
  cases r.sigint_detected AsyncOn i with
  | true => simp
  | false => simp [alert_clr_fsmState]

theorem alert_ack_iff : r.alert_ack_o AsyncOn i = true ↔
    r.HandshakeDone AsyncOn i ∧ r.alert_set_q = true := by
  rw [alert_ack_o, Bool.and_eq_true, alert_clr_iff]

theorem HandshakeDone.state_d (h : r.HandshakeDone AsyncOn i) :
    (r.clock AsyncOn IsFatal i).state_q = .Pause0 := by
  obtain ⟨hstate, hack, hsigint⟩ := h
  simp [clock, fsm, hstate, hack, hsigint, fsmState]

theorem acknowledged_iff :
    r.Acknowledged AsyncOn IsFatal i ↔ r.HandshakeDone AsyncOn i ∧ r.alert_set_q = true := by
  rw [Acknowledged, alert_ack_iff]
  exact ⟨fun h => h.1, fun h => ⟨h, h.1, h.1.state_d⟩⟩

/-- The latch of the requests after an edge, where it is cleared. -/
theorem alert_set_clock :
    (r.clock AsyncOn false i).alert_set_q = true ↔
      ¬ r.HandshakeDone AsyncOn i ∧ (i.alert_req_i = true ∨ r.alert_set_q = true) := by
  rw [← alert_clr_iff]
  cases h : (r.fsm AsyncOn i).alert_clr with
  | true => simp [clock, h]
  | false => simp [clock, h, alert_req_trigger]

theorem alert_set_clock_of_not_acknowledged (h : r.alert_set_q = true)
    (hack : ¬ r.Acknowledged AsyncOn false i) : (r.clock AsyncOn false i).alert_set_q = true := by
  rw [acknowledged_iff] at hack
  exact alert_set_clock.mpr ⟨fun hdone => hack ⟨hdone, h⟩, .inr h⟩

/-- A request is lost in the cycle in which it arrives, or not at all. -/
theorem not_lost_iff (hreq : i.alert_req_i = true) :
    (r.clock AsyncOn false i).alert_set_q = true ∨ r.alert_ack_o AsyncOn i = true ↔
      ¬ r.LateForTest AsyncOn i := by
  rw [alert_set_clock, alert_ack_iff, LateForTest]
  by_cases hdone : r.HandshakeDone AsyncOn i
  · cases r.alert_set_q <;> simp [hdone, hreq]
  · simp [hdone, hreq]

/-! ### Runs -/

variable (AsyncOn) (inputs : ℕ → AlertSenderIn)

/-- The registers of a sender that is not fatal. -/
def after (n : ℕ) : AlertSender := stateAt (clock AsyncOn false) reset inputs n

/-- The request of a cycle is not dropped: the latch shows it in the next cycle, or it is
acknowledged in this one; and where it is not, it stays latched until an acknowledged
handshake completes. -/
structure KeepsRequest (n : ℕ) : Prop where
  next : (AlertSender.after AsyncOn inputs (n + 1)).alert_state_o = true ∨
    (AlertSender.after AsyncOn inputs n).alert_ack_o AsyncOn (inputs n) = true
  latched : (AlertSender.after AsyncOn inputs n).alert_ack_o AsyncOn (inputs n) = true ∨
    ∀ m > n, (∀ k, n < k → k < m →
        ¬ (AlertSender.after AsyncOn inputs k).Acknowledged AsyncOn false (inputs k)) →
      (AlertSender.after AsyncOn inputs m).alert_state_o = true

/-- No request of a run is dropped silently exactly if none arrives in a cycle in which a
handshake for a test alone is over. -/
theorem keeps_requests_iff :
    (∀ n, (inputs n).alert_req_i = true → KeepsRequest AsyncOn inputs n) ↔
      ∀ n, ¬ (AlertSender.after AsyncOn inputs n).LateForTest AsyncOn (inputs n) := by
  constructor
  · intro h n hlate
    exact (not_lost_iff hlate.1).mp (h n hlate.1).next hlate
  · intro h n hreq
    have hnext := (not_lost_iff hreq).mpr (h n)
    refine ⟨hnext, ?_⟩
    obtain hset | hack := hnext
    · right
      intro m hm hfree
      have hlatched :
          (stateAt (clock AsyncOn false) reset inputs (n + 1)).alert_set_q = true := hset
      have hkeep : ∀ (s : AlertSender) i, s.alert_set_q = true →
          ¬ s.Acknowledged AsyncOn false i → (s.clock AsyncOn false i).alert_set_q = true :=
        fun _ _ => alert_set_clock_of_not_acknowledged
      exact holds_until hkeep hlatched hm hfree
    · exact .inl hack

/-- A test pulse, its acknowledge, and a request in the cycle in which the acknowledge
falls. -/
def testThenRequest (n : ℕ) : AlertSenderIn :=
  ⟨n == 0, n == 2, ⟨.ofLevel false, .ofLevel (n == 1)⟩⟩

theorem drops_request_after_test :
    ∃ inputs n, (inputs n).alert_req_i = true ∧
      (AlertSender.after false inputs (n + 1)).alert_state_o = false ∧
      (AlertSender.after false inputs n).alert_ack_o false (inputs n) = false :=
  ⟨testThenRequest, 2, by decide, by decide, by decide⟩

end AlertSender

end SecureBoot
