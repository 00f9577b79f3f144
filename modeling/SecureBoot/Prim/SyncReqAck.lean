import SecureBoot.Lib.Clocked

/-! The request and acknowledge synchronizer `prim_sync_reqack`, in both protocols. The
two clocks have edges in any order. Where they fall together, a synchronizer samples
what the other side drove before the edge or after it. The source holds its request
until the acknowledge, and the destination acknowledges only a visible request. -/

namespace SecureBoot

open Clocked

/-- One protocol: what each side shows, what it drives across, and its clock edge, which
takes the input of the side and the sample of the line from the other side. -/
structure ReqAckProtocol (S D : Type) where
  srcAckO : S → Bool
  dstReqO : D → Bool
  srcLine : S → Bool
  dstLine : D → Bool
  srcClock : S → (src_req_i : Bool) → (sample : Bool) → S
  dstClock : D → (dst_ack_i : Bool) → (sample : Bool) → D
  srcReset : S
  dstReset : D

/-- What is observed: a request is raised, and the two handshakes. -/
inductive ReqAckMark
  | raise
  | src
  | dst
  deriving DecidableEq

/-- The module with its environment: whether a request is raised and not acknowledged,
and the observations, the latest first. -/
structure ReqAckState (S D : Type) where
  src : S
  dst : D
  pending : Bool
  log : List ReqAckMark
  deriving DecidableEq

inductive ReqAckEvent
  | src (src_req_i : Bool)
  | dst (dst_ack_i : Bool)
  /-- Both edges; a line that changes is sampled after the change when `new` says so. -/
  | both (src_req_i dst_ack_i newReq newAck : Bool)
  | rstSrc
  | rstDst
  deriving DecidableEq

namespace ReqAckProtocol

variable {S D : Type} (P : ReqAckProtocol S D)

/-- Both domains out of a common reset. -/
def init : ReqAckState S D := ⟨P.srcReset, P.dstReset, false, []⟩

variable (s : ReqAckState S D)

/-- The acknowledge line that a source edge samples. -/
def ackSample : ReqAckEvent → Bool
  | .both _ dst_ack_i _ true => P.dstLine (P.dstClock s.dst dst_ack_i (P.srcLine s.src))
  | _ => P.dstLine s.dst

/-- The request line that a destination edge samples. -/
def reqSample : ReqAckEvent → Bool
  | .both src_req_i _ true _ => P.srcLine (P.srcClock s.src src_req_i (P.dstLine s.dst))
  | _ => P.srcLine s.src

/-- The observations at a source edge. -/
def srcMarks (src_req_i : Bool) : List ReqAckMark :=
  (if src_req_i && P.srcAckO s.src then [.src] else []) ++
    if src_req_i && !s.pending then [.raise] else []

def dstMarks (dst_ack_i : Bool) : List ReqAckMark := if dst_ack_i && P.dstReqO s.dst then [.dst] else []

/-- The rule of the source: a request that is not acknowledged is held. -/
def srcHolds (src_req_i : Bool) : Bool := !s.pending || src_req_i

/-- The rule of the destination: an acknowledge needs a visible request. -/
def dstAnswers (dst_ack_i : Bool) : Bool := !dst_ack_i || P.dstReqO s.dst

def step (e : ReqAckEvent) : Option (ReqAckState S D) :=
  match e with
  | .src src_req_i =>
    if srcHolds s src_req_i then
      some { s with
        src := P.srcClock s.src src_req_i (P.ackSample s e)
        pending := src_req_i && !P.srcAckO s.src
        log := P.srcMarks s src_req_i ++ s.log }
    else none
  | .dst dst_ack_i =>
    if P.dstAnswers s dst_ack_i then
      some { s with
        dst := P.dstClock s.dst dst_ack_i (P.reqSample s e)
        log := P.dstMarks s dst_ack_i ++ s.log }
    else none
  | .both src_req_i dst_ack_i _ _ =>
    if srcHolds s src_req_i && P.dstAnswers s dst_ack_i then
      some {
        src := P.srcClock s.src src_req_i (P.ackSample s e)
        dst := P.dstClock s.dst dst_ack_i (P.reqSample s e)
        pending := src_req_i && !P.srcAckO s.src
        log := P.dstMarks s dst_ack_i ++ (P.srcMarks s src_req_i ++ s.log) }
    else none
  | .rstSrc => some { s with src := P.srcReset, pending := false }
  | .rstDst => some { s with dst := P.dstReset }

end ReqAckProtocol

/-- The observations since the last request was raised. -/
def sinceRaise (log : List ReqAckMark) : List ReqAckMark := log.takeWhile (· ≠ .raise)

/-- A source handshake at this point follows a destination handshake that came after the
request was raised, and no other source handshake has come since. -/
def Served (log : List ReqAckMark) : Prop :=
  .raise ∈ log ∧ .dst ∈ sinceRaise log ∧ .src ∉ sinceRaise log

/-- Every source handshake was served. -/
def Justified : List ReqAckMark → Prop
  | [] => True
  | .src :: log => Served log ∧ Justified log
  | _ :: log => Justified log

@[simp] theorem sinceRaise_raise (log : List ReqAckMark) : sinceRaise (.raise :: log) = [] := rfl

@[simp] theorem sinceRaise_src (log : List ReqAckMark) :
    sinceRaise (.src :: log) = .src :: sinceRaise log := rfl

@[simp] theorem sinceRaise_dst (log : List ReqAckMark) :
    sinceRaise (.dst :: log) = .dst :: sinceRaise log := rfl

/-- Every source handshake so far was served, and a pending request was raised since the
last one. -/
structure ReqAckLog (pending : Bool) (log : List ReqAckMark) : Prop where
  raised : pending = true → .raise ∈ log ∧ .src ∉ sinceRaise log
  justified : Justified log

namespace ReqAckProtocol

variable {S D : Type} (P : ReqAckProtocol S D) {s : ReqAckState S D}

/-- A source edge keeps the log in order when an acknowledge shown to the source comes
from a destination handshake for the pending request. -/
theorem reqAckLog_src (h : ReqAckLog s.pending s.log) (src_req_i : Bool)
    (hserved : P.srcAckO s.src = true → s.pending = true ∧ .dst ∈ sinceRaise s.log) :
    ReqAckLog (src_req_i && !P.srcAckO s.src) (P.srcMarks s src_req_i ++ s.log) := by
  unfold srcMarks
  cases hreq : src_req_i with
  | false => exact ⟨nofun, h.justified⟩
  | true =>
    cases hack : P.srcAckO s.src with
    | true =>
      obtain ⟨hpending, hdst⟩ := hserved hack
      obtain ⟨hraise, hsrc⟩ := h.raised hpending
      rw [hpending]
      exact ⟨nofun, ⟨hraise, hdst, hsrc⟩, h.justified⟩
    | false =>
      cases hpending : s.pending with
      | true => exact ⟨fun _ => h.raised hpending, h.justified⟩
      | false => exact ⟨fun _ => ⟨List.mem_cons_self, List.not_mem_nil⟩, h.justified⟩

theorem reqAckLog_dst {pending : Bool} {log : List ReqAckMark} (h : ReqAckLog pending log)
    (dst_ack_i : Bool) : ReqAckLog pending (P.dstMarks s dst_ack_i ++ log) := by
  unfold dstMarks
  split_ifs
  · refine ⟨fun hpending => ?_, h.justified⟩
    obtain ⟨hraise, hsrc⟩ := h.raised hpending
    exact ⟨List.mem_cons_of_mem _ hraise, by simpa using hsrc⟩
  · exact h

end ReqAckProtocol

/-! ### The NRZ protocol -/

inductive ReqAckPhase
  | EVEN
  | ODD
  deriving DecidableEq

structure NrzSrc where
  fsm : ReqAckPhase
  srcReqQ : Bool
  ackSync : Sync Bool
  deriving DecidableEq

structure NrzDst where
  fsm : ReqAckPhase
  dstAckQ : Bool
  reqSync : Sync Bool
  deriving DecidableEq

def NrzSrc.srcAckO (s : NrzSrc) : Bool :=
  match s.fsm with
  | .EVEN => s.ackSync.q
  | .ODD => !s.ackSync.q

def NrzSrc.clock (s : NrzSrc) (src_req_i sample : Bool) : NrzSrc :=
  match s.fsm with
  | .EVEN => ⟨if src_req_i && s.srcAckO then .ODD else .EVEN, src_req_i, s.ackSync.clock sample⟩
  | .ODD => ⟨if src_req_i && s.srcAckO then .EVEN else .ODD, !src_req_i, s.ackSync.clock sample⟩

def NrzDst.dstReqO (d : NrzDst) : Bool :=
  match d.fsm with
  | .EVEN => d.reqSync.q
  | .ODD => !d.reqSync.q

def NrzDst.clock (d : NrzDst) (dst_ack_i sample : Bool) : NrzDst :=
  match d.fsm with
  | .EVEN => ⟨if d.dstReqO && dst_ack_i then .ODD else .EVEN, dst_ack_i, d.reqSync.clock sample⟩
  | .ODD => ⟨if d.dstReqO && dst_ack_i then .EVEN else .ODD, !dst_ack_i, d.reqSync.clock sample⟩

/-- `gen_nrz_hs_protocol`. -/
def nrzProtocol : ReqAckProtocol NrzSrc NrzDst where
  srcAckO := NrzSrc.srcAckO
  dstReqO := NrzDst.dstReqO
  srcLine := NrzSrc.srcReqQ
  dstLine := NrzDst.dstAckQ
  srcClock := NrzSrc.clock
  dstClock := NrzDst.clock
  srcReset := ⟨.EVEN, false, ⟨false, false⟩⟩
  dstReset := ⟨.EVEN, false, ⟨false, false⟩⟩

/-! ### The RZ protocol -/

inductive RzPhase
  | LoSt
  | HiSt
  deriving DecidableEq

structure RzSrc where
  fsm : RzPhase
  ackSync : Sync Bool
  deriving DecidableEq

structure RzDst where
  fsm : RzPhase
  reqSync : Sync Bool
  deriving DecidableEq

/-- `src_req`, which is also the line to the destination. -/
def RzSrc.srcReq (s : RzSrc) : Bool := s.fsm = .HiSt

def RzSrc.srcAckO (s : RzSrc) : Bool :=
  match s.fsm with
  | .LoSt => false
  | .HiSt => s.ackSync.q

def RzSrc.clock (s : RzSrc) (src_req_i sample : Bool) : RzSrc :=
  match s.fsm with
  | .LoSt => ⟨if !s.ackSync.q && src_req_i then .HiSt else .LoSt, s.ackSync.clock sample⟩
  | .HiSt => ⟨if !src_req_i || s.ackSync.q then .LoSt else .HiSt, s.ackSync.clock sample⟩

def RzDst.dstAck (d : RzDst) : Bool := d.fsm = .HiSt

def RzDst.dstReqO (d : RzDst) : Bool :=
  match d.fsm with
  | .LoSt => d.reqSync.q
  | .HiSt => false

def RzDst.clock (d : RzDst) (dst_ack_i sample : Bool) : RzDst :=
  match d.fsm with
  | .LoSt => ⟨if d.reqSync.q && dst_ack_i then .HiSt else .LoSt, d.reqSync.clock sample⟩
  | .HiSt => ⟨if !d.reqSync.q then .LoSt else .HiSt, d.reqSync.clock sample⟩

/-- `gen_rz_hs_protocol`. -/
def rzProtocol : ReqAckProtocol RzSrc RzDst where
  srcAckO := RzSrc.srcAckO
  dstReqO := RzDst.dstReqO
  srcLine := RzSrc.srcReq
  dstLine := RzDst.dstAck
  srcClock := RzSrc.clock
  dstClock := RzDst.clock
  srcReset := ⟨.LoSt, ⟨false, false⟩⟩
  dstReset := ⟨.LoSt, ⟨false, false⟩⟩

end SecureBoot

/-! The RZ protocol under resets of one side. The source waits for the acknowledge to
return to zero before it starts a transaction, but it looks at its synchronizer, which
its own reset clears while the destination still acknowledges, and which a reset of
the destination lets fall for a moment. A transaction started then takes the stale
acknowledge for its own. Without such a start every source handshake is served. -/

namespace SecureBoot

open Clocked

namespace RzSrc

variable (s : RzSrc) (src_req_i : Bool)

/-- A source edge at which the FSM goes to `HiSt`. -/
def starts : Bool := s.fsm = .LoSt && !s.ackSync.q && src_req_i

theorem srcAckO_eq_true {s : RzSrc} (h : s.srcAckO = true) : s.fsm = .HiSt ∧ s.ackSync.q = true := by
  unfold RzSrc.srcAckO at h
  cases hf : s.fsm with
  | LoSt => simp [hf] at h
  | HiSt => simpa [hf] using h

end RzSrc

/-- An acknowledge on its way to the source: sampled by a flop of the synchronizer, or
shown by the destination. -/
def rzAckOnWay (s : ReqAckState RzSrc RzDst) : Bool :=
  s.src.ackSync.q || s.src.ackSync.intq || s.dst.dstAck

/-- The event starts a transaction while the acknowledge of an earlier one is still on its
way: the first flop of the synchronizer has it, or the edge samples it from the
destination. -/
def rzStaleStart (s : ReqAckState RzSrc RzDst) (e : ReqAckEvent) : Bool :=
  match e with
  | .src src_req_i | .both src_req_i _ _ _ =>
    s.src.starts src_req_i &&
      (s.src.ackSync.intq || s.dst.dstAck && rzProtocol.ackSample s e)
  | .dst _ | .rstSrc | .rstDst => false

/-- The steps that start no transaction on a stale acknowledge. -/
def rzCleanStep (s : ReqAckState RzSrc RzDst) (e : ReqAckEvent) :
    Option (ReqAckState RzSrc RzDst) :=
  if rzStaleStart s e then none else rzProtocol.step s e

/-- The invariant of the RZ protocol: the source is in a transaction only with a request
pending, and an acknowledge on its way to it then comes from a handshake for that request. -/
structure RzInv (s : ReqAckState RzSrc RzDst) : Prop where
  pending : s.src.fsm = .HiSt → s.pending = true
  served : s.src.fsm = .HiSt → rzAckOnWay s = true → .dst ∈ sinceRaise s.log
  log : ReqAckLog s.pending s.log

section Step

variable {s s' : ReqAckState RzSrc RzDst} (h : RzInv s)

include h

theorem rz_log_src (src_req_i : Bool) :
    ReqAckLog (src_req_i && !s.src.srcAckO) (rzProtocol.srcMarks s src_req_i ++ s.log) := by
  apply rzProtocol.reqAckLog_src h.log
  intro hack
  obtain ⟨hfsm, hq⟩ := RzSrc.srcAckO_eq_true hack
  exact ⟨h.pending hfsm, h.served hfsm (by simp [rzAckOnWay, hq])⟩

omit h in
/-- After a source edge the source is in a transaction that it has started there, or in
one that goes on with the log unchanged; its synchronizer has shifted. -/
theorem rz_src_edge {src_req_i sample : Bool}
    (hhi : (s.src.clock src_req_i sample).fsm = .HiSt) :
    (src_req_i && !s.src.srcAckO) = true ∧
      (s.src.clock src_req_i sample).ackSync = ⟨sample, s.src.ackSync.intq⟩ ∧
      (s.src.starts src_req_i = true ∨ s.src.fsm = .HiSt) := by
  unfold RzSrc.clock at hhi ⊢
  unfold RzSrc.srcAckO RzSrc.starts
  cases hf : s.src.fsm with
  | LoSt =>
    simp only [hf, ite_eq_left_iff, reduceCtorEq, imp_false, Decidable.not_not] at hhi
    obtain ⟨hq, rfl⟩ := Bool.and_eq_true_iff.mp hhi
    exact ⟨rfl, rfl, .inl (by simp [hq])⟩
  | HiSt =>
    simp only [hf, ite_eq_right_iff, reduceCtorEq, imp_false, Bool.or_eq_true, not_or,
      Bool.not_eq_true, Bool.not_eq_false'] at hhi
    obtain ⟨rfl, hq⟩ := hhi
    exact ⟨by simp [hq], rfl, .inr rfl⟩

/-- In a transaction that goes on no request is raised and none is acknowledged. -/
theorem rz_srcMarks_of_hi {src_req_i : Bool} (hfsm : s.src.fsm = .HiSt)
    (hgoes : (src_req_i && !s.src.srcAckO) = true) : rzProtocol.srcMarks s src_req_i = [] := by
  obtain ⟨rfl, hack⟩ := Bool.and_eq_true_iff.mp hgoes
  unfold ReqAckProtocol.srcMarks
  rw [Bool.not_eq_true'] at hack
  rw [show rzProtocol.srcAckO s.src = false from hack, h.pending hfsm]
  rfl

omit h in
/-- The destination comes to acknowledge by a handshake. -/
theorem rz_dst_edge {dst_ack_i sample : Bool} (hack : (s.dst.clock dst_ack_i sample).dstAck = true) :
    s.dst.dstAck = true ∨ rzProtocol.dstMarks s dst_ack_i = [.dst] := by
  unfold RzDst.clock at hack
  unfold RzDst.dstAck ReqAckProtocol.dstMarks
  cases hf : s.dst.fsm with
  | HiSt => exact .inl (decide_eq_true rfl)
  | LoSt =>
    right
    simp only [hf, RzDst.dstAck, decide_eq_true_eq, ite_eq_left_iff, reduceCtorEq, imp_false,
      Decidable.not_not] at hack
    obtain ⟨hq, rfl⟩ := Bool.and_eq_true_iff.mp hack
    have hreq : rzProtocol.dstReqO s.dst = true := by
      change RzDst.dstReqO s.dst = true
      rw [RzDst.dstReqO, hf]
      exact hq
    rw [hreq]
    rfl

omit h in
/-- A source edge samples what the destination shows before the event or after it. -/
theorem rz_ackSample {src_req_i dst_ack_i newReq newAck : Bool} (sample : Bool) :
    rzProtocol.ackSample s (.both src_req_i dst_ack_i newReq newAck) = s.dst.dstAck ∨
      rzProtocol.ackSample s (.both src_req_i dst_ack_i newReq newAck) =
        (s.dst.clock dst_ack_i sample).dstAck := by
  cases newAck with
  | false => exact .inl rfl
  | true =>
    right
    change (s.dst.clock dst_ack_i _).dstAck = _
    unfold RzDst.clock
    cases s.dst.fsm <;> rfl

omit h in
theorem mem_since_dstMarks {log : List ReqAckMark} (dst_ack_i : Bool)
    (hmem : .dst ∈ sinceRaise log) :
    .dst ∈ sinceRaise (rzProtocol.dstMarks s dst_ack_i ++ log) := by
  unfold ReqAckProtocol.dstMarks
  split_ifs
  · exact List.mem_cons_self
  · exact hmem

theorem rzInv_src {src_req_i : Bool} (hclean : rzStaleStart s (.src src_req_i) = false)
    (hstep : rzProtocol.step s (.src src_req_i) = some s') : RzInv s' := by
  simp only [ReqAckProtocol.step] at hstep
  split_ifs at hstep with hholds
  obtain rfl := Option.some.inj hstep
  refine ⟨fun hhi => (rz_src_edge hhi).1, fun hhi hway => ?_, rz_log_src h src_req_i⟩
  obtain ⟨hgoes, hsync, hstarts | hfsm⟩ := rz_src_edge hhi
  · -- a transaction that starts here finds no acknowledge on its way
    exfalso
    simp only [rzStaleStart, hstarts, Bool.true_and, Bool.or_eq_false_iff] at hclean
    obtain ⟨hintq, hack⟩ := hclean
    change (s.dst.dstAck && s.dst.dstAck) = false at hack
    rw [Bool.and_self] at hack
    have hsync' : (s.src.clock src_req_i s.dst.dstAck).ackSync =
      ⟨s.dst.dstAck, s.src.ackSync.intq⟩ := hsync
    change ((s.src.clock src_req_i s.dst.dstAck).ackSync.q ||
      (s.src.clock src_req_i s.dst.dstAck).ackSync.intq || s.dst.dstAck) = true at hway
    rw [hsync', hack, hintq] at hway
    exact Bool.false_ne_true hway
  · have hsync' : (s.src.clock src_req_i s.dst.dstAck).ackSync =
      ⟨s.dst.dstAck, s.src.ackSync.intq⟩ := hsync
    change ((s.src.clock src_req_i s.dst.dstAck).ackSync.q ||
      (s.src.clock src_req_i s.dst.dstAck).ackSync.intq || s.dst.dstAck) = true at hway
    rw [hsync', Bool.or_assoc, Bool.or_self] at hway
    have hold : rzAckOnWay s = true := by
      rw [rzAckOnWay, Bool.or_assoc, hway, Bool.or_true]
    rw [rz_srcMarks_of_hi h hfsm hgoes]
    exact h.served hfsm hold

theorem rzInv_dst {dst_ack_i : Bool}
    (hstep : rzProtocol.step s (.dst dst_ack_i) = some s') : RzInv s' := by
  simp only [ReqAckProtocol.step] at hstep
  split_ifs at hstep
  obtain rfl := Option.some.inj hstep
  refine ⟨h.pending, fun hfsm hway => ?_, rzProtocol.reqAckLog_dst h.log dst_ack_i⟩
  by_cases hold : rzAckOnWay s = true
  · exact mem_since_dstMarks dst_ack_i (h.served hfsm hold)
  · -- the acknowledge is new, and so is its handshake
    have hnew : (s.dst.clock dst_ack_i (rzProtocol.reqSample s (.dst dst_ack_i))).dstAck = true := by
      simp only [rzAckOnWay, Bool.or_eq_true, not_or] at hold hway
      tauto
    obtain hdst | hmarks := rz_dst_edge hnew
    · exact absurd (by simp [rzAckOnWay, hdst]) hold
    · rw [hmarks]
      exact List.mem_cons_self

/-- Both edges together, where the sample of the acknowledge line is from before the
destination's edge or from after it. -/
theorem rzInv_both {src_req_i dst_ack_i newReq newAck : Bool}
    (hclean : rzStaleStart s (.both src_req_i dst_ack_i newReq newAck) = false)
    (hstep : rzProtocol.step s (.both src_req_i dst_ack_i newReq newAck) = some s') :
    RzInv s' := by
  simp only [ReqAckProtocol.step] at hstep
  split_ifs at hstep with hrules
  obtain rfl := Option.some.inj hstep
  obtain ⟨hholds, -⟩ := Bool.and_eq_true_iff.mp hrules
  set sample := rzProtocol.ackSample s (.both src_req_i dst_ack_i newReq newAck) with hsample
  set reqSample := rzProtocol.reqSample s (.both src_req_i dst_ack_i newReq newAck)
  have hcases : sample = s.dst.dstAck ∨ sample = (s.dst.clock dst_ack_i reqSample).dstAck :=
    rz_ackSample reqSample
  refine ⟨fun hhi => (rz_src_edge hhi).1, fun hhi hway => ?_,
    rzProtocol.reqAckLog_dst (rz_log_src h src_req_i) dst_ack_i⟩
  obtain ⟨hgoes, hsync, hfrom⟩ := rz_src_edge hhi
  change ((s.src.clock src_req_i sample).ackSync.q || (s.src.clock src_req_i sample).ackSync.intq ||
    (s.dst.clock dst_ack_i reqSample).dstAck) = true at hway
  rw [hsync] at hway
  simp only [Bool.or_eq_true] at hway
  by_cases hold : (s.src.ackSync.intq || s.dst.dstAck) = true
  · obtain hstarts | hfsm := hfrom
    · -- only an acknowledge that the edge does not sample is left
      exfalso
      simp only [rzStaleStart, hstarts, Bool.true_and, Bool.or_eq_false_iff, ← hsample] at hclean
      obtain ⟨hintq, hmissed⟩ := hclean
      rw [hintq, Bool.false_or] at hold
      rw [hold, Bool.true_and] at hmissed
      rw [hintq, hmissed] at hway
      obtain hdst | hdst := hcases
      · exact Bool.false_ne_true (hmissed.symm.trans (hdst.trans hold))
      · simp [← hdst, hmissed] at hway
    · have hway : rzAckOnWay s = true := by
        rw [rzAckOnWay, Bool.or_assoc, hold, Bool.or_true]
      rw [rz_srcMarks_of_hi h hfsm hgoes]
      exact mem_since_dstMarks dst_ack_i (h.served hfsm hway)
  · -- the acknowledge is new, and so is its handshake
    simp only [Bool.or_eq_true, not_or, Bool.not_eq_true] at hold
    obtain ⟨hintq, hdst⟩ := hold
    have hnew : (s.dst.clock dst_ack_i reqSample).dstAck = true := by
      obtain (hq | hsampled) | hnew := hway
      · exact absurd hq (by simp [hintq])
      · obtain hold | hnew := hcases
        · exact absurd (hold.symm.trans hsampled) (by simp [hdst])
        · exact hnew.symm.trans hsampled
      · exact hnew
    obtain hack | hmarks := rz_dst_edge hnew
    · exact absurd hack (by simp [hdst])
    · rw [hmarks]
      exact List.mem_cons_self

theorem rzInv_rstSrc (hstep : rzProtocol.step s .rstSrc = some s') : RzInv s' := by
  obtain rfl := Option.some.inj hstep
  exact ⟨nofun, nofun, nofun, h.log.justified⟩

theorem rzInv_rstDst (hstep : rzProtocol.step s .rstDst = some s') : RzInv s' := by
  obtain rfl := Option.some.inj hstep
  refine ⟨h.pending, fun hfsm hway => h.served hfsm ?_, h.log⟩
  rw [rzAckOnWay, Bool.or_eq_true]
  exact .inl ((Bool.or_eq_true _ _).mp hway |>.resolve_right (by simp [rzProtocol, RzDst.dstAck]))

end Step

theorem rzInv_init : RzInv rzProtocol.init := ⟨nofun, nofun, nofun, trivial⟩

theorem rzInv_step (s : ReqAckState RzSrc RzDst) (e : ReqAckEvent) (s' : ReqAckState RzSrc RzDst)
    (_ : True) (hstep : rzCleanStep s e = some s') (h : RzInv s) : RzInv s' := by
  unfold rzCleanStep at hstep
  split_ifs at hstep with hstale
  have hclean : rzStaleStart s e = false := Bool.eq_false_iff.mpr hstale
  cases e with
  | src src_req_i => exact rzInv_src h hclean hstep
  | dst dst_ack_i => exact rzInv_dst h hstep
  | both src_req_i dst_ack_i newReq newAck => exact rzInv_both h hclean hstep
  | rstSrc => exact rzInv_rstSrc h hstep
  | rstDst => exact rzInv_rstDst h hstep

/-- Over any order of the clock edges and of resets of one side, in which no source edge
starts a transaction on a stale acknowledge: each source handshake follows a destination
handshake that came after its request was raised, and none shares it with another. -/
theorem rz_safe_without_stale_start (events : List ReqAckEvent) (s : ReqAckState RzSrc RzDst)
    (hrun : run rzCleanStep rzProtocol.init events = some s) : Justified s.log :=
  (invariant rzInv_step (fun _ _ => trivial) hrun rzInv_init).log.justified

/-- A reset of the source after the destination's handshake, and the request made anew only
once the acknowledge has returned to zero. -/
theorem rz_safe_without_stale_start_reset : ∃ s : ReqAckState RzSrc RzDst,
    run rzCleanStep rzProtocol.init
      [.src true, .dst false, .dst false, .dst true, .rstSrc, .dst false, .dst false, .dst false,
        .src true, .dst false, .dst false, .dst true, .src true, .src true, .src true] = some s ∧
      s.log = [.src, .dst, .raise, .dst, .raise] ∧ Justified s.log := by
  have hmap : (run rzCleanStep rzProtocol.init
      [.src true, .dst false, .dst false, .dst true, .rstSrc, .dst false, .dst false, .dst false,
        .src true, .dst false, .dst false, .dst true, .src true, .src true, .src true]).map
        ReqAckState.log = some [.src, .dst, .raise, .dst, .raise] := by decide
  obtain ⟨s, hs, hlog⟩ := Option.map_eq_some_iff.mp hmap
  exact ⟨s, hs, hlog, rz_safe_without_stale_start _ s hs⟩

/-- A reset of the source alone, with the destination still acknowledging the request from
before it: the request made after the reset takes that acknowledge. -/
theorem rz_partial_reset_stale_ack : ∃ s : ReqAckState RzSrc RzDst,
    run rzProtocol.step rzProtocol.init
      [.src true, .dst false, .dst false, .dst true, .rstSrc, .src true, .src true, .src true] =
        some s ∧
      s.log = [.src, .raise, .dst, .raise] ∧ ¬ Justified s.log := by
  have hmap : (run rzProtocol.step rzProtocol.init
      [.src true, .dst false, .dst false, .dst true, .rstSrc, .src true, .src true, .src true]).map
        ReqAckState.log = some [.src, .raise, .dst, .raise] := by decide
  obtain ⟨s, hs, hlog⟩ := Option.map_eq_some_iff.mp hmap
  refine ⟨s, hs, hlog, fun hjust => ?_⟩
  rw [hlog] at hjust
  obtain ⟨⟨-, hdst, -⟩, -⟩ := hjust
  exact absurd hdst List.not_mem_nil

end SecureBoot
