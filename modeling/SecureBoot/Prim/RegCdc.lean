import SecureBoot.Lib.Clocked

/-! The register clock domain crossing `prim_reg_cdc` with `prim_reg_cdc_arb`, for registers
that hardware writes as well (`DstWrReq = 1`). The edges of the two clocks come in any
order or together. The pulse and the handshake synchronizer deliver each event once, after
any time; the value of the destination register after an edge is the one of `dst_ds_i`. -/

namespace SecureBoot

open Clocked

inductive RegCdcSel
  | SelSwReq
  | SelHwReq
  deriving DecidableEq

inductive RegCdcArbState
  | StIdle
  | StWait
  deriving DecidableEq

/-- Where a handshake is: a request on its way to the source side, or an acknowledge on its
way back. -/
inductive RegCdcHandshake
  | idle
  | req
  | ack
  deriving DecidableEq

/-- A software access, and what arrives of it in the destination domain. -/
structure RegCdcTxn (DataWidth : ℕ) where
  we : Bool
  re : Bool
  regwen : Bool
  wd : BitVec DataWidth
  deriving DecidableEq

/-- An edge of the source clock; a request that is on its way may arrive. -/
structure RegCdcSrcIn (DataWidth : ℕ) where
  src_we_i : Bool
  src_re_i : Bool
  src_regwen_i : Bool
  src_wd_i : BitVec DataWidth
  reqArrives : Bool

/-- An edge of the destination clock; a pulse and an acknowledge that are on their way may
arrive. -/
structure RegCdcDstIn (DataWidth : ℕ) where
  dst_update_i : Bool
  dst_ds_i : BitVec DataWidth
  pulseArrives : Bool
  ackArrives : Bool

/-- The edges that come at one time. -/
structure RegCdcEvent (DataWidth : ℕ) where
  src : Option (RegCdcSrcIn DataWidth)
  dst : Option (RegCdcDstIn DataWidth)

structure RegCdc (DataWidth : ℕ) where
  src_busy_q : Bool
  src_q : BitVec DataWidth
  /-- `txn_bits_q`. -/
  txn_we : Bool
  txn_re : Bool
  txn_regwen : Bool
  state_q : RegCdcArbState
  dst_req_q : Bool
  dst_qs_o : BitVec DataWidth
  id_q : RegCdcSel
  /-- The pulses that are on their way to the destination domain. -/
  u_src_to_dst_req : ℕ
  u_dst_update_sync : RegCdcHandshake
  /-- The destination register. -/
  dst_qs_i : BitVec DataWidth
  /-- The software accesses so far. -/
  accesses : List (RegCdcTxn DataWidth)
  /-- The pulses on `dst_we_o`, `dst_re_o` and `dst_regwen_o` so far, with `dst_wd_o`. -/
  pulses : List (RegCdcTxn DataWidth)
  /-- The pulses of `src_ack` so far. -/
  acks : ℕ

namespace RegCdc

variable {DataWidth : ℕ} (ResetVal BitMask : BitVec DataWidth)

/-- Out of reset, with any value in the destination register. -/
def reset (dst_qs_i : BitVec DataWidth) : RegCdc DataWidth where
  src_busy_q := false
  src_q := ResetVal
  txn_we := false
  txn_re := false
  txn_regwen := false
  state_q := .StIdle
  dst_req_q := false
  dst_qs_o := ResetVal
  id_q := .SelSwReq
  u_src_to_dst_req := 0
  u_dst_update_sync := .idle
  dst_qs_i := dst_qs_i
  accesses := []
  pulses := []
  acks := 0

variable (s : RegCdc DataWidth)

/-! ### The source domain -/

section Source

variable (i : RegCdcSrcIn DataWidth)

/-- `src_req` of `prim_reg_cdc`. -/
def srcReq : Bool := i.src_we_i || i.src_re_i

/-- `src_req` of `prim_reg_cdc_arb`. -/
def arbSrcReq : Bool := s.u_dst_update_sync == .req && i.reqArrives

def src_ack : Bool := s.arbSrcReq i && s.id_q == .SelSwReq

def src_update : Bool := s.arbSrcReq i && s.id_q == .SelHwReq

def srcBusy : Bool := s.src_busy_q && !s.src_ack i

/-- An edge of the source clock. -/
def clockSrc : RegCdc DataWidth :=
  if srcReq i then
    { s with
      src_busy_q := true
      src_q := i.src_wd_i &&& BitMask
      txn_we := i.src_we_i
      txn_re := i.src_re_i
      txn_regwen := i.src_regwen_i
      accesses := s.accesses ++ [⟨i.src_we_i, i.src_re_i, i.src_regwen_i, i.src_wd_i⟩]
      acks := s.acks + (s.src_ack i).toNat }
  else
    let sample := s.src_busy_q && s.src_ack i || s.src_update i && !s.srcBusy i
    { s with
      src_busy_q := if s.src_ack i then false else s.src_busy_q
      src_q := if sample then s.dst_qs_o else s.src_q
      txn_we := if sample then false else s.txn_we
      txn_re := if sample then false else s.txn_re
      txn_regwen := if sample then false else s.txn_regwen
      acks := s.acks + (s.src_ack i).toNat }

end Source

/-! ### The destination domain -/

section Destination

variable (i : RegCdcDstIn DataWidth)

def dst_update : Bool := i.dst_update_i && s.dst_qs_o != i.dst_ds_i

/-- `dst_req_i`. -/
def dst_req_i : Bool := s.u_src_to_dst_req != 0 && i.pulseArrives

def dst_req : Bool := s.dst_req_q || s.dst_req_i i

def dst_update_ack : Bool := s.u_dst_update_sync == .ack && i.ackArrives

def busy : Bool := s.state_q != .StIdle

def dst_lat_d : Bool := !s.busy && (s.dst_req i || s.dst_update i)

def dst_lat_q : Bool := !s.busy && !s.dst_req i && !s.dst_update i && s.dst_qs_o != s.dst_qs_i

def dst_update_req : Bool := s.state_q == .StWait || s.dst_lat_d i || s.dst_lat_q i

def dst_req_o : Bool := !s.busy && s.dst_req i

/-- An edge of the destination clock. -/
def clockDst : RegCdc DataWidth :=
  { s with
    state_q :=
      match s.state_q with
      | .StIdle => if s.dst_lat_d i || s.dst_lat_q i then .StWait else .StIdle
      | .StWait => if s.dst_update_ack i then .StIdle else .StWait
    dst_req_q :=
      if s.dst_req_q && s.dst_lat_d i then false
      else if s.dst_req_i i && !s.dst_req_q && s.busy then true else s.dst_req_q
    dst_qs_o :=
      if s.dst_lat_d i then i.dst_ds_i
      else if s.dst_lat_q i then s.dst_qs_i else s.dst_qs_o
    id_q :=
      if s.dst_update_req i && s.dst_update_ack i then .SelSwReq
      else if s.dst_req i && s.dst_lat_d i then .SelSwReq
      else if !s.dst_req i && s.dst_lat_d i then .SelHwReq
      else if s.dst_lat_q i then .SelHwReq
      else s.id_q
    dst_qs_i := i.dst_ds_i
    pulses :=
      if s.dst_req_o i then s.pulses ++ [⟨s.txn_we, s.txn_re, s.txn_regwen, s.src_q⟩]
      else s.pulses }

end Destination

/-! ### Both domains -/

/-- The pulses on their way after the edges. -/
def nextPulses (e : RegCdcEvent DataWidth) : ℕ :=
  s.u_src_to_dst_req - (e.dst.elim false s.dst_req_i).toNat + (e.src.elim false srcReq).toNat

/-- The handshake after the edges. -/
def nextHandshake (e : RegCdcEvent DataWidth) : RegCdcHandshake :=
  match s.u_dst_update_sync with
  | .idle => if e.dst.elim false s.dst_update_req then .req else .idle
  | .req => if e.src.elim false s.arbSrcReq then .ack else .req
  | .ack => if e.dst.elim false s.dst_update_ack then .idle else .ack

/-- The registers after the edges; each domain reads what the other one held before. -/
def clock (e : RegCdcEvent DataWidth) : RegCdc DataWidth :=
  let src := e.src.elim s (s.clockSrc BitMask)
  let dst := e.dst.elim s s.clockDst
  { src_busy_q := src.src_busy_q
    src_q := src.src_q
    txn_we := src.txn_we
    txn_re := src.txn_re
    txn_regwen := src.txn_regwen
    state_q := dst.state_q
    dst_req_q := dst.dst_req_q
    dst_qs_o := dst.dst_qs_o
    id_q := dst.id_q
    u_src_to_dst_req := s.nextPulses e
    u_dst_update_sync := s.nextHandshake e
    dst_qs_i := dst.dst_qs_i
    accesses := src.accesses
    pulses := dst.pulses
    acks := src.acks }

/-- Software accesses the register only while `src_busy_o` is clear. -/
def Allowed (e : RegCdcEvent DataWidth) : Prop :=
  e.src.elim false srcReq = true → s.src_busy_q = false
  deriving Decidable

def step (e : RegCdcEvent DataWidth) : Option (RegCdc DataWidth) :=
  if s.Allowed e then some (s.clock BitMask e) else none

end RegCdc

end SecureBoot

/-! What one edge does to the crossing `prim_reg_cdc`, by the state of the arbiter and of the
handshake. Edges that come together act as one of the destination clock and then one of the
source clock. -/

namespace SecureBoot

namespace RegCdc

variable {DataWidth : ℕ} {BitMask : BitVec DataWidth} {s : RegCdc DataWidth}

/-- The access that the source domain holds. -/
def txn (s : RegCdc DataWidth) : RegCdcTxn DataWidth :=
  ⟨s.txn_we, s.txn_re, s.txn_regwen, s.src_q⟩

/-! ### The destination domain -/

section Destination

variable (d : RegCdcDstIn DataWidth)

theorem clock_serve (hst : s.state_q = .StIdle) (hhs : s.u_dst_update_sync = .idle)
    (hreq : s.dst_req d = true) :
    s.clock BitMask ⟨none, some d⟩ = { s with
      state_q := .StWait
      dst_req_q := false
      dst_qs_o := d.dst_ds_i
      id_q := .SelSwReq
      u_src_to_dst_req := s.u_src_to_dst_req - (s.dst_req_i d).toNat
      u_dst_update_sync := .req
      dst_qs_i := d.dst_ds_i
      pulses := s.pulses ++ [s.txn] } := by
  have hlat : s.dst_lat_d d = true := by simp [dst_lat_d, busy, hst, hreq]
  have hack : s.dst_update_ack d = false := by simp [dst_update_ack, hhs]
  simp [clock, clockDst, nextPulses, nextHandshake, hst, hhs, hreq, hlat, hack, busy,
    dst_req_o, dst_update_req, txn]

/-- A hardware update, which latches the next value or the one it missed. -/
theorem clock_update {v : BitVec DataWidth} (hst : s.state_q = .StIdle)
    (hhs : s.u_dst_update_sync = .idle) (hreq : s.dst_req d = false)
    (hv : s.dst_update d = true ∧ v = d.dst_ds_i ∨
      s.dst_update d = false ∧ s.dst_qs_o ≠ s.dst_qs_i ∧ v = s.dst_qs_i) :
    s.clock BitMask ⟨none, some d⟩ = { s with
      state_q := .StWait
      dst_qs_o := v
      id_q := .SelHwReq
      u_dst_update_sync := .req
      dst_qs_i := d.dst_ds_i } := by
  have hack : s.dst_update_ack d = false := by simp [dst_update_ack, hhs]
  have hnone : s.dst_req_q = false ∧ s.dst_req_i d = false := by simpa [dst_req] using hreq
  obtain ⟨hupd, rfl⟩ | ⟨hupd, hne, rfl⟩ := hv
  · have hlat : s.dst_lat_d d = true := by simp [dst_lat_d, busy, hst, hupd]
    simp [clock, clockDst, nextPulses, nextHandshake, hst, hhs, hreq, hlat, hack, busy,
      dst_req_o, dst_update_req, hnone]
  · have hlat : s.dst_lat_d d = false := by simp [dst_lat_d, busy, hst, hreq, hupd]
    have hlatq : s.dst_lat_q d = true := by simp [dst_lat_q, busy, hst, hreq, hupd, hne]
    simp [clock, clockDst, nextPulses, nextHandshake, hst, hhs, hreq, hlat, hlatq, hack, busy,
      dst_req_o, dst_update_req, hnone]

theorem clock_rest (hst : s.state_q = .StIdle) (hhs : s.u_dst_update_sync = .idle)
    (hreq : s.dst_req d = false) (hupd : s.dst_update d = false)
    (heq : s.dst_qs_o = s.dst_qs_i) :
    s.clock BitMask ⟨none, some d⟩ = { s with dst_qs_i := d.dst_ds_i } := by
  have hnone : s.dst_req_q = false ∧ s.dst_req_i d = false := by simpa [dst_req] using hreq
  have hlat : s.dst_lat_d d = false := by simp [dst_lat_d, busy, hst, hreq, hupd]
  have hlatq : s.dst_lat_q d = false := by simp [dst_lat_q, busy, hst, hreq, hupd, heq]
  simp [clock, clockDst, nextPulses, nextHandshake, hst, hhs, hreq, hlat, hlatq, busy,
    dst_req_o, dst_update_req, hnone]

theorem clock_wait (hst : s.state_q = .StWait) (hhs : s.u_dst_update_sync ≠ .idle) :
    s.clock BitMask ⟨none, some d⟩ = { s with
      state_q := if s.dst_update_ack d then .StIdle else .StWait
      id_q := if s.dst_update_ack d then .SelSwReq else s.id_q
      dst_req_q := s.dst_req_q || s.dst_req_i d
      u_src_to_dst_req := s.u_src_to_dst_req - (s.dst_req_i d).toNat
      u_dst_update_sync := if s.dst_update_ack d then .idle else s.u_dst_update_sync
      dst_qs_i := d.dst_ds_i } := by
  have hlat : s.dst_lat_d d = false := by simp [dst_lat_d, busy, hst]
  have hlatq : s.dst_lat_q d = false := by simp [dst_lat_q, busy, hst]
  have hnext : s.nextHandshake ⟨none, some d⟩ =
      if s.dst_update_ack d then .idle else s.u_dst_update_sync := by
    cases h : s.u_dst_update_sync with
    | idle => exact absurd h hhs
    | req => simp [nextHandshake, h, dst_update_ack]
    | ack =>
      simp only [nextHandshake, h]
      rfl
  have hq : (if s.dst_req_i d = true ∧ s.dst_req_q = false then true else s.dst_req_q) =
      (s.dst_req_q || s.dst_req_i d) := by
    cases s.dst_req_q <;> cases s.dst_req_i d <;> rfl
  simp [clock, clockDst, nextPulses, hnext, hst, hlat, hlatq, busy, dst_req_o, dst_update_req,
    hq]

end Destination

/-! ### The source domain -/

section Source

variable (i : RegCdcSrcIn DataWidth)

theorem arbSrcReq_handshake (harb : s.arbSrcReq i = true) : s.u_dst_update_sync = .req := by
  simp only [arbSrcReq, Bool.and_eq_true, beq_iff_eq] at harb
  exact harb.1

theorem nextHandshake_src :
    s.nextHandshake ⟨some i, none⟩ = if s.arbSrcReq i then .ack else s.u_dst_update_sync := by
  cases h : s.u_dst_update_sync <;> simp [nextHandshake, h, arbSrcReq]

theorem clock_access (hreq : srcReq i = true) (hack : s.src_ack i = false) :
    s.clock BitMask ⟨some i, none⟩ = { s with
      src_busy_q := true
      src_q := i.src_wd_i &&& BitMask
      txn_we := i.src_we_i
      txn_re := i.src_re_i
      txn_regwen := i.src_regwen_i
      u_src_to_dst_req := s.u_src_to_dst_req + 1
      u_dst_update_sync := if s.arbSrcReq i then .ack else s.u_dst_update_sync
      accesses := s.accesses ++ [⟨i.src_we_i, i.src_re_i, i.src_regwen_i, i.src_wd_i⟩] } := by
  simp [clock, clockSrc, nextPulses, nextHandshake_src, hreq, hack]

theorem clock_src_none (hreq : srcReq i = false) (harb : s.arbSrcReq i = false) :
    s.clock BitMask ⟨some i, none⟩ = s := by
  simp [clock, clockSrc, nextPulses, nextHandshake_src, hreq, harb, src_ack, src_update]

theorem clock_src_ack (hreq : srcReq i = false) (harb : s.arbSrcReq i = true)
    (hid : s.id_q = .SelSwReq) (hbusy : s.src_busy_q = true) :
    s.clock BitMask ⟨some i, none⟩ = { s with
      src_busy_q := false
      src_q := s.dst_qs_o
      txn_we := false
      txn_re := false
      txn_regwen := false
      u_dst_update_sync := .ack
      acks := s.acks + 1 } := by
  simp [clock, clockSrc, nextPulses, nextHandshake_src, hreq, harb, src_ack, src_update, hid,
    hbusy]

/-- A hardware update that the source domain drops while it is busy. -/
theorem clock_src_drop (hreq : srcReq i = false) (harb : s.arbSrcReq i = true)
    (hid : s.id_q = .SelHwReq) (hbusy : s.src_busy_q = true) :
    s.clock BitMask ⟨some i, none⟩ = { s with u_dst_update_sync := .ack } := by
  simp [clock, clockSrc, nextPulses, nextHandshake_src, hreq, harb, src_ack, src_update, hid,
    srcBusy, hbusy]

theorem clock_src_update (hreq : srcReq i = false) (harb : s.arbSrcReq i = true)
    (hid : s.id_q = .SelHwReq) (hbusy : s.src_busy_q = false) :
    s.clock BitMask ⟨some i, none⟩ = { s with
      src_q := s.dst_qs_o
      txn_we := false
      txn_re := false
      txn_regwen := false
      u_dst_update_sync := .ack } := by
  simp [clock, clockSrc, nextPulses, nextHandshake_src, hreq, harb, src_ack, src_update, hid,
    srcBusy, hbusy]

end Source

/-! ### Edges that come together -/

/-- The edge of the source clock that is left after one of the destination clock: a request
raised there is not seen before. -/
def late (s : RegCdc DataWidth) (i : RegCdcSrcIn DataWidth) : RegCdcSrcIn DataWidth :=
  { i with reqArrives := s.u_dst_update_sync == .req && i.reqArrives }

@[simp] theorem srcReq_late (i : RegCdcSrcIn DataWidth) : srcReq (s.late i) = srcReq i := rfl

theorem arbSrcReq_late (i : RegCdcSrcIn DataWidth) : s.arbSrcReq (s.late i) = s.arbSrcReq i := by
  cases h : s.u_dst_update_sync <;> simp [arbSrcReq, late, h]

/-- While the handshake carries a request, an edge of the destination clock leaves what goes
with it. -/
theorem clockDst_of_arbSrcReq {i : RegCdcSrcIn DataWidth}
    (hidle : s.state_q = .StIdle ↔ s.u_dst_update_sync = .idle) (d : RegCdcDstIn DataWidth)
    (harb : s.arbSrcReq i = true) :
    (s.clockDst d).id_q = s.id_q ∧ (s.clockDst d).dst_qs_o = s.dst_qs_o := by
  have hreq := arbSrcReq_handshake i harb
  have hst : s.state_q ≠ .StIdle := fun h => by simp [hidle.mp h] at hreq
  have hack : s.dst_update_ack d = false := by simp [dst_update_ack, hreq]
  simp [clockDst, hack, dst_lat_d, dst_lat_q, busy, hst]

/-- Edges that come together while the arbiter is idle exactly when the handshake is. -/
theorem clock_both (hidle : s.state_q = .StIdle ↔ s.u_dst_update_sync = .idle)
    (i : RegCdcSrcIn DataWidth) (d : RegCdcDstIn DataWidth) :
    s.clock BitMask ⟨some i, some d⟩ =
      (s.clock BitMask ⟨none, some d⟩).clock BitMask ⟨some (s.late i), none⟩ := by
  set s₁ := s.clock BitMask ⟨none, some d⟩ with hs₁
  have hnext : s.nextHandshake ⟨some i, some d⟩ = s₁.nextHandshake ⟨some (s.late i), none⟩ := by
    cases h : s.u_dst_update_sync with
    | idle =>
      cases hd : s.dst_update_req d <;> simp [hs₁, nextHandshake, clock, h, hd, arbSrcReq, late]
    | req => simp [hs₁, nextHandshake, clock, h, arbSrcReq, late]
    | ack => cases hd : s.dst_update_ack d <;> simp [hs₁, nextHandshake, clock, h, hd]
  have harb : s₁.arbSrcReq (s.late i) = s.arbSrcReq i := by
    cases h : s.u_dst_update_sync <;> simp [hs₁, arbSrcReq, late, clock, nextHandshake, h]
  have hid : s.arbSrcReq i = true → s₁.id_q = s.id_q :=
    fun h => (clockDst_of_arbSrcReq hidle d h).1
  have hqs : s.arbSrcReq i = true → s₁.dst_qs_o = s.dst_qs_o :=
    fun h => (clockDst_of_arbSrcReq hidle d h).2
  have hack : s₁.src_ack (s.late i) = s.src_ack i := by
    cases h : s.arbSrcReq i with
    | false => simp only [src_ack, harb, h, Bool.false_and]
    | true => simp only [src_ack, harb, hid h]
  have hupdate : s₁.src_update (s.late i) = s.src_update i := by
    cases h : s.arbSrcReq i with
    | false => simp only [src_update, harb, h, Bool.false_and]
    | true => simp only [src_update, harb, hid h]
  have hbusy : s₁.srcBusy (s.late i) = s.srcBusy i := by
    simp only [srcBusy, hack]
    rfl
  have hsrc : s₁.clockSrc BitMask (s.late i) = { s₁ with
      src_busy_q := (s.clockSrc BitMask i).src_busy_q
      src_q := (s.clockSrc BitMask i).src_q
      txn_we := (s.clockSrc BitMask i).txn_we
      txn_re := (s.clockSrc BitMask i).txn_re
      txn_regwen := (s.clockSrc BitMask i).txn_regwen
      accesses := (s.clockSrc BitMask i).accesses
      acks := (s.clockSrc BitMask i).acks } := by
    cases hreq : srcReq i with
    | true =>
      simp only [clockSrc, srcReq_late, hreq, hack, if_true]
      rfl
    | false =>
      have hsample : (s.src_busy_q && s.src_ack i || s.src_update i && !s.srcBusy i) = true →
          s₁.dst_qs_o = s.dst_qs_o := by
        intro h
        apply hqs
        cases harb : s.arbSrcReq i with
        | true => rfl
        | false => simp [src_ack, src_update, harb] at h
      have hbusy_q : s₁.src_busy_q = s.src_busy_q := rfl
      simp only [clockSrc, srcReq_late, hreq, hack, hupdate, hbusy, hbusy_q, Bool.false_eq_true,
        if_false]
      by_cases h : (s.src_busy_q && s.src_ack i || s.src_update i && !s.srcBusy i) = true
      · simp only [h, if_true, hsample h]
        rfl
      · simp only [h]
        rfl
  rw [clock, clock, hnext]
  simp only [Option.elim, hsrc]
  rfl

end RegCdc

end SecureBoot
