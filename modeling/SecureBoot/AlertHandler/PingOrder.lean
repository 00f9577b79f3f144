import SecureBoot.AlertHandler.PingTimer

/-! What the ping timer guarantees to the receivers of its pings: one ping at a time, that
lasts until its answer or its timeout, an order of the escalation senders with a bound on the
distance of two pings, and failures that report nothing else. -/

namespace SecureBoot.AlertHandler

variable {NAlerts : ℕ}

section Run

variable (inp : ℕ → PingIn NAlerts)

def alertFailAt (t : ℕ) : Bool := ((pingAt inp t).p_fsm (inp t)).alert_ping_fail_o

def escFailAt (t : ℕ) : Bool := ((pingAt inp t).p_fsm (inp t)).esc_ping_fail_o

/-- A ping of sender `k` that begins in cycle `t`. -/
structure EscStart (k t : ℕ) : Prop where
  up : escReqAt inp t = .twoPow N_ESC_SEV k
  lt : k < N_ESC_SEV
  before : ∀ v, t = v + 1 → escReqAt inp v = 0

/-- An endpoint that got a ping in cycle `s` and did not answer within the timeout, which ends
in cycle `t`. -/
structure TimedOut {n : ℕ} (req : ℕ → BitVec n) (ack : ℕ → Bool) (s t : ℕ) : Prop where
  raised : RaisedSince req s t
  time : t = s + timeoutAt inp t
  quiet : ∀ u, s ≤ u → u < t → ack u = false

end Run

variable {inp : ℕ → PingIn NAlerts} {t : ℕ}

/-! ### Failures -/

theorem spurious_iff {n : ℕ} {ok req : BitVec n} :
    (ok &&& ~~~req != 0) = true ↔ ∃ k, ok.getLsbD k = true ∧ req.getLsbD k = false := by
  rw [bne_iff_ne]
  refine Bits.ne_zero_iff.trans (exists_congr fun k => ?_)
  rw [BitVec.getLsbD_and, BitVec.getLsbD_not, Bool.and_eq_true, Bool.and_eq_true,
    Bool.not_eq_true', decide_eq_true_iff]
  exact ⟨fun h => ⟨h.1, h.2.2⟩, fun h => ⟨h.1, BitVec.lt_of_getLsbD h.1, h.2⟩⟩

theorem PingKind.timedOut_iff {X : PingState} {n : ℕ} {req : ℕ → BitVec n} {ack vld : ℕ → Bool}
    {idx : ℕ → ℕ} (h : PingKind inp X req ack vld idx) (henv : PingEnv inp) :
    pingStateAt inp t = X ∧ pingCntAt inp t = 0 ↔ ∃ s, TimedOut inp req ack s t :=
  (h.expired_iff henv).trans
    (exists_congr fun _ => ⟨fun ⟨hr, ht, hq⟩ => ⟨hr, ht, hq⟩, fun ⟨hr, ht, hq⟩ => ⟨hr, ht, hq⟩⟩)

/-- A failure of an alert ping is an answer nobody asked for or a ping without an answer. -/
theorem alertFailAt_iff (henv : PingEnv inp) : alertFailAt inp t = true ↔
    (∃ k, (inp t).alert_ping_ok_i.getLsbD k = true ∧ (alertReqAt inp t).getLsbD k = false) ∨
      ∃ s, TimedOut inp (alertReqAt inp) (alertAckAt inp) s t := by
  have hfail : alertFailAt inp t = ((pingAt inp t).spurious_alert_ping (inp t) ||
      decide (pingStateAt inp t = .AlertPingSt ∧ pingCntAt inp t = 0)) := by
    have hsound := sound henv t
    rw [alertFailAt, PingRegs.p_fsm_of_sound hsound (henv.no_err t), PingRegs.casePing,
      pingStateAt, timer_expired_eq]
    cases hs : (pingAt inp t).state_q with
    | FsmErrorSt => exact absurd hs hsound.no_error
    | AlertPingSt =>
      by_cases hzero : pingCntAt inp t = 0
      · simp [hzero]
      · simp only [hzero, decide_false, and_false, Bool.false_or, Bool.or_false]
        split_ifs <;> rfl
    | _ => simp only [reduceCtorEq, false_and, decide_false, Bool.or_false]; split_ifs <;> rfl
  rw [hfail, Bool.or_eq_true, decide_eq_true_iff, (alertKind henv).timedOut_iff henv]
  exact or_congr_left spurious_iff

theorem escFailAt_iff (henv : PingEnv inp) : escFailAt inp t = true ↔
    (∃ k, (inp t).esc_ping_ok_i.getLsbD k = true ∧ (escReqAt inp t).getLsbD k = false) ∨
      ∃ s, TimedOut inp (escReqAt inp) (escAckAt inp) s t := by
  have hfail : escFailAt inp t = ((pingAt inp t).spurious_esc_ping (inp t) ||
      decide (pingStateAt inp t = .EscPingSt ∧ pingCntAt inp t = 0)) := by
    have hsound := sound henv t
    rw [escFailAt, PingRegs.p_fsm_of_sound hsound (henv.no_err t), PingRegs.casePing,
      pingStateAt, timer_expired_eq]
    cases hs : (pingAt inp t).state_q with
    | FsmErrorSt => exact absurd hs hsound.no_error
    | EscPingSt =>
      by_cases hzero : pingCntAt inp t = 0
      · simp [hzero]
      · simp only [hzero, decide_false, and_false, Bool.false_or, Bool.or_false]
        split_ifs <;> rfl
    | _ => simp only [reduceCtorEq, false_and, decide_false, Bool.or_false]; split_ifs <;> rfl
  rw [hfail, Bool.or_eq_true, decide_eq_true_iff, (escKind henv).timedOut_iff henv]
  exact or_congr_left spurious_iff

/-! ### Requests -/

theorem alertReqAt_enabled (henv : PingEnv inp) {k : ℕ}
    (h : (alertReqAt inp t).getLsbD k = true) : (inp t).alert_ping_en_i.getLsbD k = true := by
  rw [(alertKind henv).req_eq] at h
  split_ifs at h with hup
  · rw [BitVec.getLsbD_twoPow, Bool.and_eq_true, decide_eq_true_iff] at h
    exact of_decide_eq_true h.2 ▸ getLsbD_of_idVldAt hup.2
  · exact absurd h (by simp)

/-- At most one endpoint has a request. -/
theorem one_request (henv : PingEnv inp) (t : ℕ) :
    (alertReqAt inp t = 0 ∧ escReqAt inp t = 0) ∨
      (∃ k < NAlerts, alertReqAt inp t = .twoPow NAlerts k ∧ escReqAt inp t = 0) ∨
        ∃ k < N_ESC_SEV, alertReqAt inp t = 0 ∧ escReqAt inp t = .twoPow N_ESC_SEV k := by
  have halert := (alertKind henv).req_eq t
  have hesc := (escKind henv).req_eq t
  by_cases hs : pingStateAt inp t = .EscPingSt
  · rw [if_neg fun h => PingState.noConfusion (hs.symm.trans h.1)] at halert
    rw [if_pos ⟨hs, rfl⟩] at hesc
    exact .inr (.inr ⟨_, (escKind henv).idx_lt t rfl, halert, hesc⟩)
  · rw [if_neg fun h => hs h.1] at hesc
    split_ifs at halert with hup
    · exact .inr (.inl ⟨_, (alertKind henv).idx_lt t hup.2, halert, hesc⟩)
    · exact .inl ⟨halert, hesc⟩

/-! ### The order of the senders -/

/-- A state other than the first lasts at most `2 ^ PING_CNT_DW` cycles. -/
theorem period (henv : PingEnv inp) (t : ℕ) (hinit : pingStateAt inp t ≠ .InitSt) :
    ∃ e, t < e ∧ e ≤ t + 2 ^ PING_CNT_DW ∧
      (∀ u, t ≤ u → u < e →
        pingStateAt inp u = pingStateAt inp t ∧ escCntAt inp u = escCntAt inp t) ∧
      pingStateAt inp e = (pingStateAt inp t).next ∧
      escCntAt inp e =
        if pingStateAt inp t = .EscPingSt then (escCntAt inp t + 1) % N_ESC_SEV
        else escCntAt inp t := by
  obtain ⟨e, hle, hge, hsame, hnext⟩ := ends henv t hinit
  have hcnt (u : ℕ) (hu : t ≤ u) (hue : u ≤ e) : escCntAt inp u = escCntAt inp t := by
    induction u, hu using Nat.le_induction with
    | base => rfl
    | succ u hu ih =>
      have hstate := (hsame (u + 1) (by omega) hue).trans (hsame u hu (by omega)).symm
      rw [escCntAt_succ henv, if_neg fun h => ?_, ih (by omega)]
      rw [h.1, h.2] at hstate
      exact PingState.noConfusion hstate
  have hwidth : pingCntAt inp t < 2 ^ PING_CNT_DW := (pingAt inp t).cnt.isLt
  refine ⟨e + 1, by omega, by omega, fun u hu hue => ?_, hnext, ?_⟩
  · exact ⟨hsame u hu (by omega), hcnt u hu (by omega)⟩
  · rw [escCntAt_succ henv, hcnt e hle (Nat.le_refl e), hsame e hle (Nat.le_refl e), hnext]
    cases pingStateAt inp t <;> rfl

/-- The first cycle of a ping of an escalation sender. -/
def StartsEscPing (inp : ℕ → PingIn NAlerts) (t : ℕ) : Prop :=
  pingStateAt inp t = .EscPingSt ∧ ∀ v, t = v + 1 → pingStateAt inp v ≠ .EscPingSt

theorem escStart_iff (henv : PingEnv inp) {k : ℕ} :
    EscStart inp k t ↔ StartsEscPing inp t ∧ escCntAt inp t = k := by
  have hreq := (escKind henv).req_eq
  have hup (u : ℕ) : escReqAt inp u = 0 ↔ pingStateAt inp u ≠ .EscPingSt := by
    have h := not_congr ((escKind henv).up_iff (t := u))
    rwa [not_not, and_iff_left rfl] at h
  constructor
  · rintro ⟨hreqt, hlt, hbefore⟩
    have hs : pingStateAt inp t = .EscPingSt := by
      by_contra hs
      rw [(hup t).2 hs] at hreqt
      have hbit := congrArg (fun v => BitVec.getLsbD v k) hreqt
      simp [hlt] at hbit
    refine ⟨⟨hs, fun v hv => (hup v).1 (hbefore v hv)⟩, ?_⟩
    rw [hreq t, if_pos ⟨hs, rfl⟩] at hreqt
    have hbit := congrArg (fun v => BitVec.getLsbD v k) hreqt
    simpa [hlt, eq_comm] using hbit
  · rintro ⟨⟨hs, hbefore⟩, rfl⟩
    refine ⟨?_, (escKind henv).idx_lt t rfl, fun v hv => (hup v).2 (hbefore v hv)⟩
    rw [hreq t, if_pos ⟨hs, rfl⟩]

/-- From a wait for an alert ping, the next ping of an escalation sender begins within three
periods. -/
theorem next_from_wait (henv : PingEnv inp) (hs : pingStateAt inp t = .AlertWaitSt) :
    ∃ e, t < e ∧ e ≤ t + 3 * 2 ^ PING_CNT_DW ∧ StartsEscPing inp e ∧
      escCntAt inp e = escCntAt inp t ∧
      ∀ u, t ≤ u → u < e → pingStateAt inp u ≠ .EscPingSt := by
  obtain ⟨a, ha, hal, hasame, hanext, hacnt⟩ := period henv t (by rw [hs]; exact PingState.noConfusion)
  rw [hs] at hasame hanext hacnt
  obtain ⟨b, hb, hbl, hbsame, hbnext, hbcnt⟩ :=
    period henv a (by rw [hanext]; exact PingState.noConfusion)
  rw [hanext] at hbsame hbnext hbcnt
  obtain ⟨c, hc, hcl, hcsame, hcnext, hccnt⟩ :=
    period henv b (by rw [hbnext]; exact PingState.noConfusion)
  rw [hbnext] at hcsame hcnext hccnt
  have hother (u : ℕ) (hu : t ≤ u) (huc : u < c) : pingStateAt inp u ≠ .EscPingSt := by
    obtain hlt | hge := Nat.lt_or_ge u a
    · rw [(hasame u hu hlt).1]; exact PingState.noConfusion
    · obtain hlt | hge' := Nat.lt_or_ge u b
      · rw [(hbsame u hge hlt).1]; exact PingState.noConfusion
      · rw [(hcsame u hge' huc).1]; exact PingState.noConfusion
  refine ⟨c, by omega, by omega, ⟨hcnext, fun v hv => hother v (by omega) (by omega)⟩, ?_, hother⟩
  exact hccnt.trans (hbcnt.trans hacnt)

/-- The ping of a sender is followed by the ping of the next one within four periods. -/
theorem next_start (henv : PingEnv inp) (hstart : StartsEscPing inp t) :
    ∃ e, t < e ∧ e ≤ t + 4 * 2 ^ PING_CNT_DW ∧ StartsEscPing inp e ∧
      escCntAt inp e = (escCntAt inp t + 1) % N_ESC_SEV ∧
      ∀ u, t < u → u < e → ¬ StartsEscPing inp u := by
  obtain ⟨a, ha, hal, hsame, hnext, hcnt⟩ :=
    period henv t (by rw [hstart.1]; exact PingState.noConfusion)
  rw [hstart.1] at hsame hnext hcnt
  obtain ⟨e, he, hel, hstarte, hcnte, hother⟩ := next_from_wait henv hnext
  refine ⟨e, by omega, by omega, hstarte, hcnte.trans hcnt, fun u hu hue hstartu => ?_⟩
  obtain hlt | hge := Nat.lt_or_ge u a
  · obtain ⟨v, rfl⟩ := Nat.exists_eq_add_of_lt hu
    exact hstartu.2 (t + v) rfl (hsame (t + v) (by omega) (by omega)).1
  · exact hother u hge hue hstartu.1

/-- The `n`-th ping after one of a sender. -/
theorem nth_start (henv : PingEnv inp) (hstart : StartsEscPing inp t) (n : ℕ) :
    ∃ e, t + n ≤ e ∧ e ≤ t + n * (4 * 2 ^ PING_CNT_DW) ∧ StartsEscPing inp e ∧
      escCntAt inp e = (escCntAt inp t + n) % N_ESC_SEV ∧
      ∀ u, t < u → u < e → StartsEscPing inp u →
        ∃ m, 0 < m ∧ m < n ∧ escCntAt inp u = (escCntAt inp t + m) % N_ESC_SEV := by
  induction n with
  | zero =>
    refine ⟨t, Nat.le_refl t, by omega, hstart, ?_, fun u hu hue => by omega⟩
    exact (Nat.mod_eq_of_lt (sound henv t).esc_lt).symm
  | succ n ih =>
    obtain ⟨e, hle, hge, hstarte, hcnt, hbetween⟩ := ih
    obtain ⟨e', hlt, hle', hstarte', hcnt', hnone⟩ := next_start henv hstarte
    have hmul : (n + 1) * (4 * 2 ^ PING_CNT_DW) = n * (4 * 2 ^ PING_CNT_DW) + 4 * 2 ^ PING_CNT_DW :=
      Nat.succ_mul _ _
    refine ⟨e', by omega, by omega, hstarte', ?_, fun u hu hue' hstartu => ?_⟩
    · rw [hcnt', hcnt, Nat.mod_add_mod, Nat.add_assoc]
    · obtain hue | rfl | hue := Nat.lt_trichotomy u e
      · obtain ⟨m, hpos, hm, hcntu⟩ := hbetween u hu hue hstartu
        exact ⟨m, hpos, by omega, hcntu⟩
      · exact ⟨n, Nat.pos_of_ne_zero (by rintro rfl; omega), Nat.lt_succ_self n, hcnt⟩
      · exact absurd hstartu (hnone u hue hue')

theorem before_enable (henv : PingEnv inp) (hfirst : ∀ u < t, (inp u).en_i = false) :
    pingStateAt inp t = .InitSt ∧ escCntAt inp t = 0 := by
  have hinit (u : ℕ) (hu : u ≤ t) : pingStateAt inp u = .InitSt := by
    by_contra hne
    obtain ⟨v, hv, hen⟩ := enabled henv u hne
    exact absurd ((hfirst v (by omega)).symm.trans hen) Bool.noConfusion
  have hcnt (u : ℕ) (hu : u ≤ t) : escCntAt inp u = 0 := by
    induction u with
    | zero => rfl
    | succ u ih =>
      rw [escCntAt_succ henv, hinit u (by omega), if_neg fun h => PingState.noConfusion h.1]
      exact ih (by omega)
  exact ⟨hinit t (Nat.le_refl t), hcnt t (Nat.le_refl t)⟩

/-- Once the timer is enabled, the first sender is the first one to be pinged. -/
theorem first_start (henv : PingEnv inp) (hen : (inp t).en_i = true)
    (hfirst : ∀ u < t, (inp u).en_i = false) :
    ∃ e ≤ t + 4 * 2 ^ PING_CNT_DW, StartsEscPing inp e ∧ escCntAt inp e = 0 ∧
      ∀ u < e, ¬ StartsEscPing inp u := by
  obtain ⟨hinit, hcnt⟩ := before_enable henv hfirst
  have hwait : pingStateAt inp (t + 1) = .AlertWaitSt := by
    have hstep := pingStep henv t
    rw [hinit] at hstep
    generalize pingStateAt inp (t + 1) = s' at hstep ⊢
    cases hstep with
    | init hdis => exact absurd (hdis.symm.trans hen) Bool.noConfusion
    | start => rfl
  obtain ⟨e, hlt, hle, hstart, hcnte, hother⟩ := next_from_wait henv hwait
  refine ⟨e, by omega, hstart, ?_, fun u hu hstartu => ?_⟩
  · rw [hcnte, escCntAt_succ henv, hinit, if_neg fun h => PingState.noConfusion h.1, hcnt]
  · obtain hut | hut := Nat.lt_or_ge t u
    · exact hother u hut hu hstartu.1
    · have hearly := (before_enable henv fun v hv => hfirst v (Nat.lt_of_lt_of_le hv hut)).1
      exact PingState.noConfusion (hearly.symm.trans hstartu.1)

/-! ### The guarantees -/

/-- What the ping timer promises over a whole run. -/
structure PingGuarantees (inp : ℕ → PingIn NAlerts) : Prop where
  one_at_a_time : ∀ t, (alertReqAt inp t = 0 ∧ escReqAt inp t = 0) ∨
    (∃ k < NAlerts, alertReqAt inp t = .twoPow NAlerts k ∧ escReqAt inp t = 0) ∨
      ∃ k < N_ESC_SEV, alertReqAt inp t = 0 ∧ escReqAt inp t = .twoPow N_ESC_SEV k
  alert_held : ∀ t, alertReqAt inp t ≠ 0 → ∃ s, RaisedSince (alertReqAt inp) s t ∧
    t ≤ s + timeoutAt inp t ∧ (∀ u, s ≤ u → u < t → alertAckAt inp u = false) ∧
      alertReqAt inp (t + 1) =
        if alertAckAt inp t = true ∨ t = s + timeoutAt inp t then 0 else alertReqAt inp t
  esc_held : ∀ t, escReqAt inp t ≠ 0 → ∃ s, RaisedSince (escReqAt inp) s t ∧
    t ≤ s + timeoutAt inp t ∧ (∀ u, s ≤ u → u < t → escAckAt inp u = false) ∧
      escReqAt inp (t + 1) =
        if escAckAt inp t = true ∨ t = s + timeoutAt inp t then 0 else escReqAt inp t
  enabled : ∀ t k, (alertReqAt inp t).getLsbD k = true →
    (inp t).alert_ping_en_i.getLsbD k = true
  first : ∀ t, (inp t).en_i = true → (∀ u < t, (inp u).en_i = false) →
    ∃ e ≤ t + 4 * 2 ^ PING_CNT_DW, EscStart inp 0 e ∧ ∀ j, ∀ u < e, ¬ EscStart inp j u
  cyclic : ∀ k t, EscStart inp k t → ∃ e > t, EscStart inp ((k + 1) % N_ESC_SEV) e ∧
    ∀ j u, t < u → u < e → ¬ EscStart inp j u
  gap : ∀ k t, EscStart inp k t → ∃ e > t, e ≤ t + N_ESC_SEV * 4 * 2 ^ PING_CNT_DW ∧
    EscStart inp k e ∧ ∀ u, t < u → u < e → ¬ EscStart inp k u
  alert_fail : ∀ t, alertFailAt inp t = true ↔
    (∃ k, (inp t).alert_ping_ok_i.getLsbD k = true ∧ (alertReqAt inp t).getLsbD k = false) ∨
      ∃ s, TimedOut inp (alertReqAt inp) (alertAckAt inp) s t
  esc_fail : ∀ t, escFailAt inp t = true ↔
    (∃ k, (inp t).esc_ping_ok_i.getLsbD k = true ∧ (escReqAt inp t).getLsbD k = false) ∨
      ∃ s, TimedOut inp (escReqAt inp) (escAckAt inp) s t

theorem ping_guarantees (henv : PingEnv inp) : PingGuarantees inp where
  one_at_a_time := one_request henv
  alert_held _ hup := (alertKind henv).life henv hup
  esc_held _ hup := (escKind henv).life henv hup
  enabled _ _ h := alertReqAt_enabled henv h
  first t hen hfirst := by
    obtain ⟨e, hle, hstart, hcnt, hnone⟩ := first_start henv hen hfirst
    exact ⟨e, hle, (escStart_iff henv).2 ⟨hstart, hcnt⟩,
      fun _ u hu hj => hnone u hu ((escStart_iff henv).1 hj).1⟩
  cyclic k t hk := by
    obtain ⟨hstart, rfl⟩ := (escStart_iff henv).1 hk
    obtain ⟨e, hlt, -, hstarte, hcnt, hnone⟩ := next_start henv hstart
    exact ⟨e, hlt, (escStart_iff henv).2 ⟨hstarte, hcnt⟩,
      fun _ u hu hue hj => hnone u hu hue ((escStart_iff henv).1 hj).1⟩
  gap k t hk := by
    obtain ⟨hstart, rfl⟩ := (escStart_iff henv).1 hk
    have hlt : escCntAt inp t < 4 := (sound henv t).esc_lt
    obtain ⟨e, hle, hge, hstarte, hcnt, hbetween⟩ := nth_start henv hstart N_ESC_SEV
    rw [Nat.add_mod_right, Nat.mod_eq_of_lt hlt] at hcnt
    rw [← Nat.mul_assoc] at hge
    refine ⟨e, Nat.lt_of_lt_of_le (Nat.lt_add_of_pos_right (by decide)) hle, hge,
      (escStart_iff henv).2 ⟨hstarte, hcnt⟩, fun u hu hue hj => ?_⟩
    obtain ⟨hstartu, hcntu⟩ := (escStart_iff henv).1 hj
    obtain ⟨m, hpos, hm, hmod⟩ := hbetween u hu hue hstartu
    have hm : m < 4 := hm
    have hmod : escCntAt inp u = (escCntAt inp t + m) % 4 := hmod
    omega
  alert_fail _ := alertFailAt_iff henv
  esc_fail _ := escFailAt_iff henv

/-- A run with two alerts in which nobody answers. -/
def silentRun : ℕ → PingIn 2 := fun _ =>
  { en_i := true
    alert_ping_en_i := 0b01
    ping_timeout_cyc_i := 2
    wait_cyc_mask_i := 0b111
    alert_ping_ok_i := 0
    esc_ping_ok_i := 0
    lfsr_state := 0
    lfsr_err := false }

theorem ping_guarantees_silent :
    PingGuarantees silentRun ∧ alertFailAt silentRun 8 = true ∧ EscStart silentRun 0 14 :=
  have henv : PingEnv silentRun :=
    { no_err := fun _ => rfl
      timeout_pos := fun _ => (by decide : (2 : BitVec PING_CNT_DW) ≠ 0)
      locked := fun _ _ => ⟨rfl, rfl⟩ }
  ⟨ping_guarantees henv, by decide +kernel, by decide +kernel, by decide +kernel, fun v hv => by
    obtain rfl : v = 13 := by omega
    decide +kernel⟩

end SecureBoot.AlertHandler
