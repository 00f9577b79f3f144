import SecureBoot.Prim.RegCdcSafe

/-! The crossing `prim_reg_cdc` comes to rest: a measure of what is left to do falls with every
round of edges that deliver what is on its way. What software and hardware see of every run. -/

namespace SecureBoot

open Clocked

/-- The edges that a handshake still needs. -/
def RegCdcHandshake.left : RegCdcHandshake → ℕ
  | .idle => 0
  | .ack => 1
  | .req => 2

namespace RegCdcEvent

variable {DataWidth : ℕ} (e : RegCdcEvent DataWidth)

/-- A request on its way arrives. -/
def srcPrompt : Bool := e.src.elim false (·.reqArrives)

/-- A pulse and an acknowledge on their way arrive. -/
def dstPrompt : Bool := e.dst.elim false fun d => d.pulseArrives && d.ackArrives

/-- Edges in which everything that was on its way at the first of them arrives. -/
def Round (events : List (RegCdcEvent DataWidth)) : Prop :=
  (∃ e ∈ events, e.srcPrompt = true) ∧ ∃ e ∈ events, e.dstPrompt = true
  deriving Decidable

end RegCdcEvent

namespace RegCdc

variable {DataWidth : ℕ} {BitMask : BitVec DataWidth} {s s' : RegCdc DataWidth}

/-! ### The measure -/

/-- What is left of an access in flight. -/
def flightLeft (s : RegCdc DataWidth) : ℕ :=
  if s.u_src_to_dst_req ≠ 0 then 5
  else if s.dst_req_q then 2 + s.u_dst_update_sync.left
  else 1

/-- What is left to tell software of the destination register. -/
def restLeft (s : RegCdc DataWidth) : ℕ :=
  s.u_dst_update_sync.left + if s.dst_qs_o = s.dst_qs_i then 0 else 3

def remaining (s : RegCdc DataWidth) : ℕ :=
  if s.src_busy_q then 5 + s.flightLeft else s.restLeft

/-- The values of the measure that an edge of the source clock lowers. -/
def awaitsSrc (n : ℕ) : Bool := n == 2 || n == 5 || n == 6 || n == 9

def Lowers (n : ℕ) (e : RegCdcEvent DataWidth) : Prop :=
  if awaitsSrc n then e.srcPrompt = true else e.dstPrompt = true

theorem Requested.left_cases (hr : s.Requested BitMask) :
    s.flightLeft = 5 ∧ s.u_src_to_dst_req = 1 ∧ s.dst_req_q = false ∨
      s.flightLeft = 2 + s.u_dst_update_sync.left ∧ s.u_src_to_dst_req = 0 ∧
        s.dst_req_q = true := by
  have honce := hr.once
  cases hq : s.dst_req_q with
  | false =>
    have h : s.u_src_to_dst_req = 1 := by simpa [hq] using honce
    exact .inl ⟨by simp [flightLeft, h], h, rfl⟩
  | true =>
    have h : s.u_src_to_dst_req = 0 := by simpa [hq] using honce
    exact .inr ⟨by simp [flightLeft, h, hq], h, rfl⟩

theorem Answered.left_eq (ha : s.Answered BitMask) : s.flightLeft = 1 := by
  simp [flightLeft, ha.arrived, ha.taken]

/-- A request that an idle arbiter does not see has not arrived. -/
theorem Requested.unseen (hr : s.Requested BitMask) {d : RegCdcDstIn DataWidth}
    (hreq : s.dst_req d = false) : s.u_src_to_dst_req = 1 ∧ d.pulseArrives = false := by
  obtain ⟨-, h, -⟩ | ⟨-, -, h⟩ := hr.left_cases
  · have hlate : s.dst_req_q = false ∧ d.pulseArrives = false := by
      simpa [dst_req, dst_req_i, h] using hreq
    exact ⟨h, hlate.2⟩
  · simp [dst_req, h] at hreq

theorem Requested.flightLeft_wait (hr : s.Requested BitMask) (d : RegCdcDstIn DataWidth)
    (hst : s.state_q = .StWait) (hhs : s.u_dst_update_sync ≠ .idle) :
    (s.clock BitMask ⟨none, some d⟩).flightLeft ≤ s.flightLeft ∧
      (awaitsSrc (5 + s.flightLeft) = false → d.pulseArrives = true → d.ackArrives = true →
        (s.clock BitMask ⟨none, some d⟩).flightLeft < s.flightLeft) := by
  rw [clock_wait d hst hhs]
  obtain ⟨hleft, h, hq⟩ | ⟨hleft, h, hq⟩ := hr.left_cases
  · cases harrives : d.pulseArrives with
    | false => simp [flightLeft, dst_req_i, h, harrives]
    | true =>
      cases hack : s.dst_update_ack d <;> cases hsync : s.u_dst_update_sync <;>
        simp [flightLeft, dst_req_i, h, hq, harrives, RegCdcHandshake.left]
  · rw [hleft]
    cases hsync : s.u_dst_update_sync with
    | idle => exact absurd hsync hhs
    | req =>
      simp [flightLeft, dst_req_i, dst_update_ack, h, hq, hsync, awaitsSrc, RegCdcHandshake.left]
    | ack =>
      cases harrives : d.ackArrives <;>
        simp [flightLeft, dst_req_i, dst_update_ack, h, hq, hsync, harrives, RegCdcHandshake.left]

theorem flightLeft_dst (hs : s.Inv BitMask) (hbusy : s.src_busy_q = true)
    (d : RegCdcDstIn DataWidth) :
    (s.clock BitMask ⟨none, some d⟩).flightLeft ≤ s.flightLeft ∧
      (awaitsSrc (5 + s.flightLeft) = false → d.pulseArrives = true → d.ackArrives = true →
        (s.clock BitMask ⟨none, some d⟩).flightLeft < s.flightLeft) := by
  obtain hr | ha := hs.flight hbusy
  · obtain ⟨hst, hhs, hreq⟩ | ⟨hst, hhs, hreq, v, hv⟩ | ⟨hst, hhs, hreq, hupd, heq⟩ |
      ⟨hst, hhs⟩ := hs.dst_cases d
    · have hnext : (s.clock BitMask ⟨none, some d⟩).flightLeft = 1 := by
        simp [clock_serve d hst hhs hreq, flightLeft, hr.take d hreq]
      rw [hnext]
      obtain ⟨h, -⟩ | ⟨h, -⟩ := hr.left_cases <;> omega
    · obtain ⟨h, hlate⟩ := hr.unseen hreq
      simp [clock_update d hst hhs hreq hv, flightLeft, h, hlate]
    · obtain ⟨h, hlate⟩ := hr.unseen hreq
      simp [clock_rest d hst hhs hreq hupd heq, flightLeft, h, hlate]
    · exact hr.flightLeft_wait d hst hhs
  · rw [ha.clock_dst d hs]
    refine ⟨Nat.le_refl _, fun h => ?_⟩
    simp [ha.left_eq, awaitsSrc] at h

theorem Resting.restLeft_dst (hr : s.Resting BitMask) (hs : s.Inv BitMask)
    {d : RegCdcDstIn DataWidth} (hquiet : d.dst_ds_i = s.dst_qs_i) :
    (s.clock BitMask ⟨none, some d⟩).restLeft ≤ s.restLeft ∧
      (awaitsSrc s.restLeft = false → 0 < s.restLeft → d.pulseArrives = true →
        d.ackArrives = true → (s.clock BitMask ⟨none, some d⟩).restLeft < s.restLeft) := by
  have hreq := dst_req_eq_false d hr.arrived hr.taken
  obtain ⟨hst, hhs, h⟩ | ⟨hst, hhs, -, v, hv⟩ | ⟨hst, hhs, -, hupd, heq⟩ | ⟨hst, hhs⟩ :=
    hs.dst_cases d
  · simp [hreq] at h
  · have hne : s.dst_qs_o ≠ s.dst_qs_i ∧ v = s.dst_qs_i := by
      obtain ⟨hupd, rfl⟩ | ⟨-, hne, hv⟩ := hv
      · simp only [dst_update, Bool.and_eq_true, bne_iff_ne] at hupd
        exact ⟨hquiet ▸ hupd.2, hquiet⟩
      · exact ⟨hne, hv⟩
    simp [clock_update d hst hhs hreq hv, restLeft, hne, hquiet, hhs, RegCdcHandshake.left]
  · simp [clock_rest d hst hhs hreq hupd heq, restLeft, heq, hquiet, hhs, RegCdcHandshake.left]
  · rw [clock_wait d hst hhs]
    cases hsync : s.u_dst_update_sync with
    | idle => exact absurd hsync hhs
    | req =>
      by_cases heq : s.dst_qs_o = s.dst_qs_i <;>
        simp [restLeft, dst_update_ack, hsync, hquiet, heq, RegCdcHandshake.left, awaitsSrc]
    | ack =>
      cases harrives : d.ackArrives <;>
        simp [restLeft, dst_update_ack, hsync, hquiet, harrives, RegCdcHandshake.left]

theorem Resting.restLeft_src (hr : s.Resting BitMask) (hbusy : s.src_busy_q = false)
    {i : RegCdcSrcIn DataWidth} (hreq : srcReq i = false) :
    (s.clock BitMask ⟨some i, none⟩).restLeft ≤ s.restLeft ∧
      (awaitsSrc s.restLeft = true → i.reqArrives = true →
        (s.clock BitMask ⟨some i, none⟩).restLeft < s.restLeft) := by
  cases harb : s.arbSrcReq i with
  | true =>
    have hhs := arbSrcReq_handshake i harb
    simp [clock_src_update i hreq harb (hr.update hhs) hbusy, restLeft, hhs,
      RegCdcHandshake.left]
  | false =>
    rw [clock_src_none i hreq harb]
    refine ⟨Nat.le_refl _, fun hawaits harrives => ?_⟩
    cases hhs : s.u_dst_update_sync with
    | req => simp [arbSrcReq, hhs, harrives] at harb
    | idle | ack =>
      by_cases heq : s.dst_qs_o = s.dst_qs_i <;>
        simp [restLeft, hhs, heq, awaitsSrc, RegCdcHandshake.left] at hawaits

/-- A request that an edge of the source clock is needed for. -/
theorem Inv.flight_awaitsSrc (hs : s.Inv BitMask) (hbusy : s.src_busy_q = true)
    (h : awaitsSrc (5 + s.flightLeft) = true) : s.u_dst_update_sync = .req := by
  obtain hr | ha := hs.flight hbusy
  · obtain ⟨hleft, -⟩ | ⟨hleft, -⟩ := hr.left_cases
    · simp [hleft, awaitsSrc] at h
    · cases hhs : s.u_dst_update_sync with
      | req => rfl
      | idle | ack => simp [hleft, hhs, awaitsSrc, RegCdcHandshake.left] at h
  · exact ha.answer

theorem Inv.flightLeft_src (hs : s.Inv BitMask) (hbusy : s.src_busy_q = true)
    {i : RegCdcSrcIn DataWidth} (hreq : srcReq i = false) :
    ((s.clock BitMask ⟨some i, none⟩).src_busy_q = true ∧
      (s.clock BitMask ⟨some i, none⟩).flightLeft ≤ s.flightLeft ∧
      (awaitsSrc (5 + s.flightLeft) = true → i.reqArrives = true →
        (s.clock BitMask ⟨some i, none⟩).flightLeft < s.flightLeft)) ∨
    ((s.clock BitMask ⟨some i, none⟩).src_busy_q = false ∧
      (s.clock BitMask ⟨some i, none⟩).restLeft ≤ 4) := by
  cases harb : s.arbSrcReq i with
  | false =>
    rw [clock_src_none i hreq harb]
    refine .inl ⟨hbusy, Nat.le_refl _, fun hawaits harrives => ?_⟩
    simp [arbSrcReq, hs.flight_awaitsSrc hbusy hawaits, harrives] at harb
  | true =>
    have hhs := arbSrcReq_handshake i harb
    cases hid : s.id_q with
    | SelSwReq =>
      rw [clock_src_ack i hreq harb hid hbusy]
      refine .inr ⟨rfl, ?_⟩
      by_cases heq : s.dst_qs_o = s.dst_qs_i <;> simp [restLeft, heq, RegCdcHandshake.left]
    | SelHwReq =>
      rw [clock_src_drop i hreq harb hid hbusy]
      obtain hr | ha := hs.flight hbusy
      · refine .inl ⟨hbusy, ?_⟩
        obtain ⟨hleft, h, -⟩ | ⟨hleft, h, hq⟩ := hr.left_cases
        · simp [flightLeft, h, awaitsSrc]
        · simp [flightLeft, h, hq, hhs, RegCdcHandshake.left]
      · simp [ha.access] at hid

/-! ### Quiet events -/

/-- No access comes, and hardware leaves the destination register unless a write of software
is served. -/
def Quiet (s : RegCdc DataWidth) (e : RegCdcEvent DataWidth) : Prop :=
  e.src.elim false srcReq = false ∧
    ∀ d, e.dst = some d → s.dst_req_o d = false → d.dst_ds_i = s.dst_qs_i

instance (s : RegCdc DataWidth) (e : RegCdcEvent DataWidth) : Decidable (s.Quiet e) := by
  unfold Quiet; infer_instance

theorem remaining_of_busy (h : s.src_busy_q = true) : s.remaining = 5 + s.flightLeft := by
  simp [remaining, h]

theorem remaining_of_rest (h : s.src_busy_q = false) : s.remaining = s.restLeft := by
  simp [remaining, h]

theorem Inv.remaining_awaitsSrc (hs : s.Inv BitMask) (h : awaitsSrc s.remaining = true) :
    s.u_dst_update_sync = .req := by
  cases hbusy : s.src_busy_q with
  | true => exact hs.flight_awaitsSrc hbusy (remaining_of_busy hbusy ▸ h)
  | false =>
    rw [remaining_of_rest hbusy] at h
    cases hhs : s.u_dst_update_sync with
    | req => rfl
    | idle | ack =>
      by_cases heq : s.dst_qs_o = s.dst_qs_i <;>
        simp [restLeft, hhs, heq, awaitsSrc, RegCdcHandshake.left] at h

theorem Inv.remaining_dst (hs : s.Inv BitMask) {e : RegCdcEvent DataWidth}
    (hquiet : s.src_busy_q = true ∨ s.Quiet e) :
    (s.afterDst BitMask e).remaining ≤ s.remaining ∧
      (awaitsSrc s.remaining = false → 0 < s.remaining → e.dstPrompt = true →
        (s.afterDst BitMask e).remaining < s.remaining) := by
  obtain ⟨src, _ | d⟩ := e
  · exact ⟨Nat.le_refl _, fun _ _ h => absurd h Bool.false_ne_true⟩
  have hafter : (s.afterDst BitMask ⟨src, some d⟩).src_busy_q = s.src_busy_q :=
    afterDst_src_busy_q _
  cases hbusy : s.src_busy_q with
  | true =>
    rw [remaining_of_busy hbusy, remaining_of_busy (hafter.trans hbusy)]
    obtain ⟨hle, hlt⟩ := flightLeft_dst hs hbusy d
    refine ⟨Nat.add_le_add_left hle 5, fun hawaits _ hprompt => Nat.add_lt_add_left ?_ 5⟩
    obtain ⟨hpulse, hack⟩ := Bool.and_eq_true_iff.mp hprompt
    exact hlt hawaits hpulse hack
  | false =>
    rw [remaining_of_rest hbusy, remaining_of_rest (hafter.trans hbusy)]
    have hr := hs.rest hbusy
    have hds : d.dst_ds_i = s.dst_qs_i := by
      obtain h | ⟨-, h⟩ := hquiet
      · simp [hbusy] at h
      · exact h d rfl (by simp [dst_req_o, dst_req_eq_false d hr.arrived hr.taken])
    obtain ⟨hle, hlt⟩ := hr.restLeft_dst hs hds
    refine ⟨hle, fun hawaits hpos hprompt => ?_⟩
    obtain ⟨hpulse, hack⟩ := Bool.and_eq_true_iff.mp hprompt
    exact hlt hawaits hpos hpulse hack

theorem Inv.remaining_src (hs : s.Inv BitMask) {i : RegCdcSrcIn DataWidth}
    (hreq : srcReq i = false) :
    (s.clock BitMask ⟨some i, none⟩).remaining ≤ s.remaining ∧
      (awaitsSrc s.remaining = true → i.reqArrives = true →
        (s.clock BitMask ⟨some i, none⟩).remaining < s.remaining) := by
  cases hbusy : s.src_busy_q with
  | true =>
    rw [remaining_of_busy hbusy]
    obtain ⟨hbusy', hle, hlt⟩ | ⟨hbusy', hle⟩ := hs.flightLeft_src hbusy hreq
    · rw [remaining_of_busy hbusy']
      exact ⟨Nat.add_le_add_left hle 5, fun hawaits h => Nat.add_lt_add_left (hlt hawaits h) 5⟩
    · rw [remaining_of_rest hbusy']
      exact ⟨by omega, fun _ _ => by omega⟩
  | false =>
    have hbusy' : (s.clock BitMask ⟨some i, none⟩).src_busy_q = false := by
      simp [clock, clockSrc, hreq, hbusy]
    rw [remaining_of_rest hbusy, remaining_of_rest hbusy']
    exact (hs.rest hbusy).restLeft_src hbusy hreq

/-- An access in flight needs no quiet: hardware may write at any time. -/
theorem Inv.remaining_step (hs : s.Inv BitMask) {e : RegCdcEvent DataWidth}
    (hstep : s.step BitMask e = some s') (hquiet : s.src_busy_q = true ∨ s.Quiet e) :
    s'.remaining ≤ s.remaining ∧
      (Lowers s.remaining e → 0 < s.remaining → s'.remaining < s.remaining) := by
  rw [RegCdc.step] at hstep
  split_ifs at hstep with hallowed
  obtain rfl := Option.some.inj hstep
  have hreq : e.src.elim false srcReq = false := by
    obtain hbusy | h := hquiet
    · cases h : e.src.elim false srcReq with
      | false => rfl
      | true => simp [hallowed h] at hbusy
    · exact h.1
  obtain ⟨hle, hlt⟩ := hs.remaining_dst hquiet
  rw [hs.clock_eq e]
  rcases hsrc : e.src with _ | i
  · refine ⟨hle, fun hlow hpos => ?_⟩
    cases hawaits : awaitsSrc s.remaining with
    | true => simp [Lowers, hawaits, RegCdcEvent.srcPrompt, hsrc] at hlow
    | false => exact hlt hawaits hpos (by simpa [Lowers, hawaits] using hlow)
  · rw [hsrc] at hreq
    obtain ⟨hle', hlt'⟩ := (hs.afterDst e).remaining_src (i := s.late i) hreq
    refine ⟨Nat.le_trans hle' hle, fun hlow hpos => ?_⟩
    cases hawaits : awaitsSrc s.remaining with
    | false =>
      exact Nat.lt_of_le_of_lt hle' (hlt hawaits hpos (by simpa [Lowers, hawaits] using hlow))
    | true =>
      -- The edge of the destination clock made no progress, so the request is still there.
      obtain hlt₁ | heq := Nat.lt_or_eq_of_le hle
      · exact Nat.lt_of_le_of_lt hle' hlt₁
      · have hprompt : i.reqArrives = true := by
          simpa [Lowers, hawaits, RegCdcEvent.srcPrompt, hsrc] using hlow
        rw [heq] at hlt'
        exact hlt' hawaits (by simp [late, hs.remaining_awaitsSrc hawaits, hprompt])

/-! ### Quiescence -/

/-- Nothing is in flight, and with nothing new the destination domain raises no request. -/
def Quiescent (s : RegCdc DataWidth) : Prop :=
  s.src_busy_q = false ∧ s.u_src_to_dst_req = 0 ∧ s.u_dst_update_sync = .idle ∧
    s.dst_update_req ⟨false, s.dst_qs_i, false, false⟩ = false
  deriving Decidable

theorem Inv.quiescent_current (hs : s.Inv BitMask) (hq : s.Quiescent) : s.src_q = s.dst_qs_i := by
  obtain ⟨hbusy, -, hhs, hupdate⟩ := hq
  have hr := hs.rest hbusy
  have hreq := dst_req_eq_false ⟨false, s.dst_qs_i, false, false⟩ hr.arrived hr.taken
  have heq : s.dst_qs_o = s.dst_qs_i := by
    simpa [dst_update_req, dst_lat_d, dst_lat_q, RegCdc.busy, hs.idle.mpr hhs, hreq, dst_update]
      using hupdate
  rw [hr.current (by simp [hhs]), heq]

theorem Inv.quiescent_of_remaining (hs : s.Inv BitMask) (h : s.remaining = 0) : s.Quiescent := by
  have hbusy : s.src_busy_q = false := by
    cases hbusy : s.src_busy_q with
    | false => rfl
    | true =>
      rw [remaining_of_busy hbusy] at h
      omega
  have hr := hs.rest hbusy
  rw [remaining_of_rest hbusy, restLeft] at h
  have hhs : s.u_dst_update_sync = .idle := by
    cases hhs : s.u_dst_update_sync with
    | idle => rfl
    | req | ack => simp [hhs, RegCdcHandshake.left] at h
  have heq : s.dst_qs_o = s.dst_qs_i := by
    simpa [hhs, RegCdcHandshake.left] using h
  refine ⟨hbusy, hr.arrived, hhs, ?_⟩
  simp [dst_update_req, dst_lat_d, dst_lat_q, RegCdc.busy, hs.idle.mpr hhs, dst_update, heq,
    dst_req_eq_false _ hr.arrived hr.taken]

theorem Inv.remaining_le (hs : s.Inv BitMask) : s.remaining ≤ 10 := by
  cases hbusy : s.src_busy_q with
  | true =>
    rw [remaining_of_busy hbusy]
    obtain hr | ha := hs.flight hbusy
    · obtain ⟨h, -⟩ | ⟨h, -⟩ := hr.left_cases
      · omega
      · cases hhs : s.u_dst_update_sync <;> simp [hhs, RegCdcHandshake.left] at h <;> omega
    · rw [ha.left_eq]
      omega
  | false =>
    rw [remaining_of_rest hbusy, restLeft]
    cases s.u_dst_update_sync <;> simp only [RegCdcHandshake.left] <;> split_ifs <;> omega

theorem lowers_of_round {events : List (RegCdcEvent DataWidth)}
    (h : RegCdcEvent.Round events) (n : ℕ) : ∃ e ∈ events, Lowers n e := by
  cases hawaits : awaitsSrc n with
  | true => simpa [Lowers, hawaits] using h.1
  | false => simpa [Lowers, hawaits] using h.2

/-- A step while the environment is quiet. -/
def quietStep (BitMask : BitVec DataWidth) (s : RegCdc DataWidth) (e : RegCdcEvent DataWidth) :
    Option (RegCdc DataWidth) :=
  if s.Quiet e then s.step BitMask e else none

theorem quietStep_eq_some {e : RegCdcEvent DataWidth} (h : s.quietStep BitMask e = some s') :
    s.Quiet e ∧ s.step BitMask e = some s' := by
  rw [quietStep] at h
  split_ifs at h with hquiet
  exact ⟨hquiet, h⟩

/-- Ten rounds in which nothing new comes bring the crossing to rest. -/
theorem Inv.quiescent_of_rounds (hs : s.Inv BitMask)
    {rounds : List (List (RegCdcEvent DataWidth))} (hlen : 10 ≤ rounds.length)
    (hround : ∀ r ∈ rounds, RegCdcEvent.Round r)
    (hrun : run (quietStep BitMask) s rounds.flatten = some s') :
    s'.Inv BitMask ∧ s'.Quiescent := by
  have hkeep : ∀ (s : RegCdc DataWidth) e s', s.quietStep BitMask e = some s' → s.Inv BitMask →
      s'.Inv BitMask ∧ s'.remaining ≤ s.remaining := by
    intro s e s' h hs
    obtain ⟨hquiet, hstep⟩ := quietStep_eq_some h
    exact ⟨hs.step hstep, (hs.remaining_step hstep (.inr hquiet)).1⟩
  have hlower : ∀ (s : RegCdc DataWidth) e s', s.quietStep BitMask e = some s' → s.Inv BitMask →
      Lowers s.remaining e → 0 < s.remaining → s'.remaining < s.remaining := by
    intro s e s' h hs
    obtain ⟨hquiet, hstep⟩ := quietStep_eq_some h
    exact (hs.remaining_step hstep (.inr hquiet)).2
  have hs' := (rank_le_of_run hkeep hrun hs).1
  have hle := rank_le_of_rounds hkeep hlower hrun hs fun r hr => lowers_of_round (hround r hr)
  have hmax := hs.remaining_le
  exact ⟨hs', hs'.quiescent_of_remaining (by omega)⟩

/-! ### Acknowledges -/

/-- `src_busy_o` is cleared by the acknowledge only. -/
theorem Inv.busy_cleared (hs : s.Inv BitMask) {e : RegCdcEvent DataWidth}
    (hstep : s.step BitMask e = some s') (hbusy : s.src_busy_q = true)
    (hbusy' : s'.src_busy_q = false) :
    (∃ i, e.src = some i ∧ s.src_ack i = true) ∧ s'.acks = s.acks + 1 ∧
      s.pulses = s.accesses.map (·.masked BitMask) := by
  rw [RegCdc.step] at hstep
  split_ifs at hstep with hallowed
  obtain rfl := Option.some.inj hstep
  obtain ⟨_ | i, dst⟩ := e
  · simp [clock, hbusy] at hbusy'
  · have hreq : srcReq i = false := by
      cases h : srcReq i with
      | false => rfl
      | true => simp [hallowed h] at hbusy
    have hack : s.src_ack i = true := by
      simpa [clock, clockSrc, hreq, hbusy] using hbusy'
    refine ⟨⟨i, rfl, hack⟩, ?_, (hs.answered i hack).2.served⟩
    simp [clock, clockSrc, hreq, hack]

theorem acks_le_step {e : RegCdcEvent DataWidth} (hstep : s.step BitMask e = some s') :
    s.acks ≤ s'.acks := by
  rw [RegCdc.step] at hstep
  split_ifs at hstep with hallowed
  obtain rfl := Option.some.inj hstep
  obtain ⟨_ | i, dst⟩ := e
  · exact Nat.le_refl _
  · cases hreq : srcReq i <;> simp [clock, clockSrc, hreq]

/-- Past `acks` acknowledges, or with the access in flight that brings the next one. -/
def Pending (BitMask : BitVec DataWidth) (acks : ℕ) (s : RegCdc DataWidth) : Prop :=
  s.Inv BitMask ∧ (acks < s.acks ∨ acks ≤ s.acks ∧ s.src_busy_q = true)

def pendingLeft (acks : ℕ) (s : RegCdc DataWidth) : ℕ := if acks < s.acks then 0 else s.remaining

theorem Pending.step {acks : ℕ} {e : RegCdcEvent DataWidth}
    (hstep : s.step BitMask e = some s') (hs : s.Pending BitMask acks) :
    s'.Pending BitMask acks ∧ s'.pendingLeft acks ≤ s.pendingLeft acks ∧
      (Lowers (s.pendingLeft acks) e → 0 < s.pendingLeft acks →
        s'.pendingLeft acks < s.pendingLeft acks) := by
  obtain ⟨hinv, hs⟩ := hs
  have hmono := acks_le_step hstep
  by_cases hpast : acks < s'.acks
  · have hleft : s'.pendingLeft acks = 0 := by simp [pendingLeft, hpast]
    rw [hleft]
    exact ⟨⟨hinv.step hstep, .inl hpast⟩, Nat.zero_le _, fun _ hpos => hpos⟩
  · obtain hs | ⟨hle, hbusy⟩ := hs
    · omega
    have hbusy' : s'.src_busy_q = true := by
      cases h : s'.src_busy_q with
      | true => rfl
      | false =>
        have hacks := (hinv.busy_cleared hstep hbusy h).2.1
        omega
    have hleft : s.pendingLeft acks = s.remaining := if_neg (by omega)
    have hleft' : s'.pendingLeft acks = s'.remaining := if_neg hpast
    rw [hleft, hleft']
    exact ⟨⟨hinv.step hstep, .inr ⟨Nat.le_trans hle hmono, hbusy'⟩⟩,
      hinv.remaining_step hstep (.inl hbusy)⟩

theorem Inv.pulses_prefix (hs : s.Inv BitMask) :
    s.pulses <+: s.accesses.map (·.masked BitMask) := by
  cases hbusy : s.src_busy_q with
  | false => exact (hs.rest hbusy).served ▸ List.prefix_refl _
  | true =>
    obtain hr | ha := hs.flight hbusy
    · exact ⟨[s.txn], hr.served⟩
    · exact ha.served ▸ List.prefix_refl _

theorem Inv.acks_le (hs : s.Inv BitMask) : s.acks ≤ s.pulses.length := by
  have hcount := hs.count
  cases hbusy : s.src_busy_q with
  | false =>
    rw [(hs.rest hbusy).served, List.length_map]
    omega
  | true =>
    obtain hr | ha := hs.flight hbusy
    · have hlen := congrArg List.length hr.served
      simp [hbusy] at hlen hcount
      omega
    · rw [ha.served, List.length_map]
      omega

/-- Five rounds bring the acknowledge of the access in flight, whatever hardware writes. -/
theorem Inv.acked_of_rounds (hs : s.Inv BitMask) (hbusy : s.src_busy_q = true)
    {rounds : List (List (RegCdcEvent DataWidth))} (hlen : 5 ≤ rounds.length)
    (hround : ∀ r ∈ rounds, RegCdcEvent.Round r)
    (hrun : run (RegCdc.step BitMask) s rounds.flatten = some s') : s.acks < s'.acks := by
  have hkeep : ∀ (t : RegCdc DataWidth) e t', t.step BitMask e = some t' →
      t.Pending BitMask s.acks →
      t'.Pending BitMask s.acks ∧ t'.pendingLeft s.acks ≤ t.pendingLeft s.acks :=
    fun t e t' h ht => ⟨(ht.step h).1, (ht.step h).2.1⟩
  have hlower : ∀ (t : RegCdc DataWidth) e t', t.step BitMask e = some t' →
      t.Pending BitMask s.acks → Lowers (t.pendingLeft s.acks) e → 0 < t.pendingLeft s.acks →
      t'.pendingLeft s.acks < t.pendingLeft s.acks :=
    fun t e t' h ht => (ht.step h).2.2
  have hpending : s.Pending BitMask s.acks := ⟨hs, .inr ⟨Nat.le_refl _, hbusy⟩⟩
  have hpending' := (rank_le_of_run hkeep hrun hpending).1
  have hle := rank_le_of_rounds hkeep hlower hrun hpending
    fun r hr => lowers_of_round (hround r hr)
  obtain ⟨hinv', h | ⟨-, hbusy'⟩⟩ := hpending'
  · exact h
  · by_contra hacks
    have hleft : s.pendingLeft s.acks = s.remaining := if_neg (Nat.lt_irrefl _)
    have hleft' : s'.pendingLeft s.acks = 5 + s'.flightLeft :=
      (if_neg hacks).trans (remaining_of_busy hbusy')
    have hpos : 0 < s'.flightLeft := by
      rw [flightLeft]
      split_ifs <;> omega
    have hmax := hs.remaining_le
    omega

/-! ### Every run -/

/-- Every access is served once, in order, with the bits of its write data that the register
has, and acknowledged once; only that clears `src_busy_o`, and it comes within five rounds.
At rest software reads the destination register, and ten quiet rounds bring the crossing to
rest, whatever hardware wrote before. -/
theorem reg_cdc_loses_no_update {DataWidth : ℕ} (ResetVal BitMask dst_qs_i : BitVec DataWidth)
    (events : List (RegCdcEvent DataWidth)) (s : RegCdc DataWidth)
    (hrun : run (step BitMask) (reset ResetVal dst_qs_i) events = some s) :
    s.accesses.length = s.acks + s.src_busy_q.toNat ∧
    s.pulses <+: s.accesses.map (·.masked BitMask) ∧ s.acks ≤ s.pulses.length ∧
    (∀ e s', s.step BitMask e = some s' → s.src_busy_q = true → s'.src_busy_q = false →
      (∃ i, e.src = some i ∧ s.src_ack i = true) ∧ s'.acks = s.acks + 1 ∧
        s.pulses = s.accesses.map (·.masked BitMask)) ∧
    (∀ (rounds : List (List (RegCdcEvent DataWidth))) s', 5 ≤ rounds.length →
      (∀ r ∈ rounds, RegCdcEvent.Round r) → s.src_busy_q = true →
      run (step BitMask) s rounds.flatten = some s' → s.acks < s'.acks) ∧
    (s.Quiescent → s.src_q = s.dst_qs_i) ∧
    (∀ (rounds : List (List (RegCdcEvent DataWidth))) s', 10 ≤ rounds.length →
      (∀ r ∈ rounds, RegCdcEvent.Round r) →
      run (quietStep BitMask) s rounds.flatten = some s' →
      s'.Quiescent ∧ s'.src_q = s'.dst_qs_i) := by
  have hs := inv_of_run hrun
  refine ⟨hs.count, hs.pulses_prefix, hs.acks_le, fun e s' => hs.busy_cleared, ?_,
    hs.quiescent_current, ?_⟩
  · intro rounds s' hlen hround hbusy hrounds
    exact hs.acked_of_rounds hbusy hlen hround hrounds
  · intro rounds s' hlen hround hrounds
    obtain ⟨hs', hq⟩ := hs.quiescent_of_rounds hlen hround hrounds
    exact ⟨hq, hs'.quiescent_current hq⟩

/-- A write during which hardware updates the register. -/
def writeAndUpdate : List (RegCdcEvent 4) :=
  [⟨some ⟨true, false, true, 13#4, false⟩, none⟩, ⟨none, some ⟨false, 5#4, true, true⟩⟩,
    ⟨some ⟨false, false, false, 0#4, true⟩, some ⟨true, 6#4, true, true⟩⟩]

theorem reg_cdc_loses_no_update_write :
    ∃ s, run (step 7#4) (reset 0#4 0#4) writeAndUpdate = some s ∧
      s.accesses.length = 1 ∧ s.pulses = [⟨true, false, true, 5#4⟩] ∧ s.src_q = 5#4 ∧
      s.accesses.length = s.acks + s.src_busy_q.toNat ∧
      (s.Quiescent → s.src_q = s.dst_qs_i) := by
  refine ⟨_, rfl, rfl, rfl, rfl, ?_⟩
  have h := reg_cdc_loses_no_update 0#4 7#4 0#4 writeAndUpdate _ rfl
  exact ⟨h.1, h.2.2.2.2.2.1⟩

/-- A pulse carries only the bits of the write data that the register has. -/
theorem reg_cdc_pulse_masked :
    ¬ ∀ (ResetVal BitMask dst_qs_i : BitVec 4) (events : List (RegCdcEvent 4)) (s : RegCdc 4),
      run (step BitMask) (reset ResetVal dst_qs_i) events = some s → s.pulses <+: s.accesses := by
  intro h
  have hprefix := h 0#4 7#4 0#4 writeAndUpdate _ rfl
  revert hprefix
  decide

end RegCdc

end SecureBoot
