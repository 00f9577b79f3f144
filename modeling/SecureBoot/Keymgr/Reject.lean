import SecureBoot.Keymgr.Lifecycle

/-! Operations of the key manager that complete with an error: what they leave of the key
state. An advance has a transaction for each CDI and writes the result of each as it arrives,
and the errors of all of them are collected until the last one. -/

namespace SecureBoot.Keymgr

/-- The states that carry out operations. -/
def CtrlState.working : CtrlState → Bool
  | .StCtrlInit | .StCtrlCreatorRootKey | .StCtrlOwnerIntKey | .StCtrlOwnerKey => true
  | _ => false

theorem CtrlState.accepts_of_working {s : CtrlState} (h : s.working = true) :
    s.accepts = true := by
  cases s <;> first | rfl | exact absurd h Bool.false_ne_true

theorem CtrlState.early_of_working {s : CtrlState} (h : s.working = true) : s.early = false := by
  cases s <;> first | rfl | exact absurd h Bool.false_ne_true

namespace CtrlRegs

variable (KmacEnMasking : Bool) (r : CtrlRegs) (i : CtrlIn)

/-- `error_o`, with `ErrInvalidOp` first. -/
def error_o : BitVec 3 :=
  .ofBoolListLE [r.op_done_o i && (r.sync_err_o KmacEnMasking i).getLsbD 0,
    r.op_done_o i && (r.sync_err_o KmacEnMasking i).getLsbD 1, i.shadowed_update_err_i]

/-- One of the two synchronous errors is reported. -/
def syncErrorReported : Bool :=
  (r.error_o KmacEnMasking i).getLsbD 0 || (r.error_o KmacEnMasking i).getLsbD 1

variable {KmacEnMasking r i}

theorem op_err_of_reported (h : r.syncErrorReported KmacEnMasking i = true) :
    r.op_err KmacEnMasking i = true := by
  refine bne_iff_ne.2 fun hzero => ?_
  simp [syncErrorReported, error_o, BitVec.ofBoolListLE, hzero] at h

/-! ### One cycle of a working state -/

section Working

variable (hs : r.state_q.working = true)

include hs

theorem fsm_of_working : (r.fsm i).wipe_req = false ∧ (r.fsm i).random_req = false ∧
    (r.fsm i).init_o = false ∧ (r.fsm i).disabled = false ∧ (r.fsm i).invalid = false := by
  rw [fsm]
  cases h : r.state_q <;> rw [h] at hs <;>
    first | exact ⟨rfl, rfl, rfl, rfl, rfl⟩ | exact absurd hs Bool.false_ne_true

/-- Only a completed command is done. -/
theorem req_of_done (hdone : r.op_done_o i = true) :
    i.op_start_i = true ∧ r.op_req i = true ∧ r.op_ack i = true := by
  have hreq := op_req_of_accepts (i := i) (CtrlState.accepts_of_working hs)
  cases hstart : i.op_start_i with
  | true =>
    rw [hstart] at hreq
    rw [op_done_o, if_pos hreq] at hdone
    exact ⟨rfl, hreq, hdone⟩
  | false =>
    rw [hstart] at hreq
    rw [op_done_o, if_neg (by rw [hreq]; exact Bool.false_ne_true), (fsm_of_working hs).2.2.1,
      Bool.false_or, fsm] at hdone
    cases h : r.state_q <;> rw [h] at hs hdone <;>
      first
        | exact absurd hs Bool.false_ne_true
        | simp [hstart] at hdone

/-- The enable that drops wipes the keys. -/
theorem en_of_not_wipe (hnext : r.state_d KmacEnMasking i ≠ .StCtrlWipe) : i.en_i = true := by
  by_contra hen
  refine hnext ?_
  rw [state_d]
  cases h : r.state_q <;> rw [h] at hs <;>
    first
      | exact absurd hs Bool.false_ne_true
      | simp [opState, hen]

/-- A CDI keeps its key, unless a transaction without an error delivers its result. -/
theorem key_state_of_working (hload : r.ld_root_key KmacEnMasking i = false) {c : Fin CDIs}
    (hfault : r.op_ack i = true ∨ r.op_update i = true → r.op_fault_err KmacEnMasking i = false)
    (hwritten : r.op_ack i = true ∨ r.op_update i = true → r.op_err KmacEnMasking i = false →
      c ≠ (r.cdi_sel_o i).toFin) :
    (r.clock KmacEnMasking i).key_state_q c = r.key_state_q c := by
  change r.key_state_d KmacEnMasking i c = _
  obtain ⟨hwipe, hrandom, hinit, hdisabled, hinvalid⟩ := fsm_of_working (i := i) hs
  have hsel : r.update_sel KmacEnMasking i = r.op_update_sel KmacEnMasking i := by
    simp [update_sel, hwipe, hrandom, hinit, hload]
  rw [key_state_d, hsel, op_update_sel, hinvalid, hdisabled]
  by_cases hack : (r.op_ack i || r.op_update i) = true
  · have hor := Bool.or_eq_true_iff.1 hack
    rw [if_pos hack, hfault hor]
    cases herr : r.op_err KmacEnMasking i with
    | true => rfl
    | false => exact if_neg (hwritten hor herr)
  · rw [if_neg hack]

end Working

theorem op_state_cmd_err_of_async (h : r.async_fault_o i = 0) : r.op_state_cmd_err i = false := by
  have hbit := congrArg (fun d => d.getLsbD 6) (BitVec.or_eq_zero_iff.1 h).2
  simp only [async_fault_d, BitVec.getLsbD_ofBoolListLE, BitVec.getLsbD_zero] at hbit
  exact (Bool.or_eq_false_iff.1 hbit).2

/-- An advance that is under way and not flagged has its command. -/
theorem start_of_adv (hadv : r.op_state_q = .StAdv) (hen : i.en_i = true)
    (hfault : r.async_fault_o i = 0) : i.op_start_i = true := by
  by_contra hstart
  have hcmd := (Bool.or_eq_false_iff.1 (op_state_cmd_err_of_async hfault)).1
  have hadv_en : (r.op i).adv_en_o = true := by
    rw [op, hadv]
    dsimp only
    split_ifs <;> rfl
  simp [hadv_en, CtrlIn.advance_sel, CtrlIn.disable_sel, hen, hstart] at hcmd

end CtrlRegs

/-! ### Operations -/

section Runs

variable (KmacEnMasking : Bool) (inp : ℕ → CtrlIn)

/-- The operation machine takes up a command in cycle `s` and is busy with it up to cycle `t`. -/
structure Operation (s t : ℕ) : Prop where
  lt : s < t
  idle : opStateAt KmacEnMasking inp s = .StIdle
  busy : ∀ v, s < v → v ≤ t → opStateAt KmacEnMasking inp v ≠ .StIdle

/-- What the operation machine, its counter and the collected faults have in common. -/
structure Sound (t : ℕ) : Prop where
  early_idle : (stateAt KmacEnMasking inp t).early = true → opStateAt KmacEnMasking inp t = .StIdle
  cnt_fits : stateAt KmacEnMasking inp t ≠ .StCtrlRandom →
    CtrlRegs.CntFits (ctrlAt KmacEnMasking inp t).cnt.toNat (opStateAt KmacEnMasking inp t)
  /-- Before the first transaction of an operation is done there is nothing to collect. -/
  no_fault : opStateAt KmacEnMasking inp t = .StIdle ∨ opStateAt KmacEnMasking inp t = .StWait ∨
    opStateAt KmacEnMasking inp t = .StAdv ∧ (ctrlAt KmacEnMasking inp t).cnt.toNat = 0 →
    (ctrlAt KmacEnMasking inp t).sync_fault_q = 0

variable {KmacEnMasking inp} {s t v : ℕ}

theorem exists_operation (hbusy : opStateAt KmacEnMasking inp t ≠ .StIdle) :
    ∃ s, Operation KmacEnMasking inp s t := by
  induction t with
  | zero => exact absurd rfl hbusy
  | succ t ih =>
    by_cases hidle : opStateAt KmacEnMasking inp t = .StIdle
    · refine ⟨t, Nat.lt_succ_self t, hidle, fun v hv hle => ?_⟩
      obtain rfl : v = t + 1 := by omega
      exact hbusy
    · obtain ⟨s, hop⟩ := ih hidle
      refine ⟨s, Nat.lt_succ_of_lt hop.lt, hop.idle, fun v hv hle => ?_⟩
      obtain hle | rfl := Nat.le_succ_iff.1 hle
      · exact hop.busy v hv hle
      · exact hbusy

theorem op_ack_of_busy_succ (hbusy : opStateAt KmacEnMasking inp (t + 1) ≠ .StIdle) :
    (ctrlAt KmacEnMasking inp t).op_ack (inp t) = false := by
  by_cases hidle : opStateAt KmacEnMasking inp t = .StIdle
  · exact (CtrlRegs.op_of_idle hidle).1
  · obtain ⟨-, -, hnext, -⟩ | ⟨hack, -⟩ | ⟨hack, -⟩ := CtrlRegs.op_of_busy (i := inp t) hidle
    · exact absurd hnext hbusy
    · exact hack
    · exact hack

/-- Outside the early states only the operation machine moves the counter. -/
theorem cnt_succ (hearly : (stateAt KmacEnMasking inp t).early = false)
    (hack : (ctrlAt KmacEnMasking inp t).op_ack (inp t) = false)
    (hupdate : (ctrlAt KmacEnMasking inp t).op_update (inp t) = false) :
    (ctrlAt KmacEnMasking inp (t + 1)).cnt.toNat = (ctrlAt KmacEnMasking inp t).cnt.toNat := by
  have hcnt := CtrlRegs.cnt_clock KmacEnMasking (ctrlAt KmacEnMasking inp t) (inp t)
  obtain ⟨hreq, hrack⟩ := CtrlRegs.random_of_not_early (i := inp t) hearly
  rw [hack, hupdate, hreq, hrack] at hcnt
  exact hcnt

theorem sync_fault_q_succ (t : ℕ) : (ctrlAt KmacEnMasking inp (t + 1)).sync_fault_q =
    if (ctrlAt KmacEnMasking inp t).op_done_o (inp t) then 0
    else if (ctrlAt KmacEnMasking inp t).op_update (inp t) then
      (ctrlAt KmacEnMasking inp t).sync_fault_d KmacEnMasking (inp t)
    else (ctrlAt KmacEnMasking inp t).sync_fault_q := rfl

theorem Sound.succ (h : Sound KmacEnMasking inp t)
    (hreq : opStateAt KmacEnMasking inp t = .StAdv →
      (ctrlAt KmacEnMasking inp t).op_req (inp t) = true) :
    Sound KmacEnMasking inp (t + 1) where
  early_idle := early_idle_succ h.early_idle
  cnt_fits := cnt_fits_succ h.early_idle h.cnt_fits hreq
  no_fault hnext := by
    rw [sync_fault_q_succ]
    split_ifs with hdone hupdate
    · rfl
    · -- The first transaction leads to the acknowledge, where faults may be collected.
      exfalso
      by_cases hidle : opStateAt KmacEnMasking inp t = .StIdle
      · rw [(CtrlRegs.op_of_idle hidle).2.1] at hupdate
        exact absurd hupdate Bool.false_ne_true
      · obtain ⟨-, hno, -⟩ | ⟨-, -, hack, -⟩ | ⟨-, hno, -⟩ :=
          CtrlRegs.op_of_busy (i := inp t) hidle
        · exact absurd hupdate (by rw [hno]; exact Bool.false_ne_true)
        · rw [show opStateAt KmacEnMasking inp (t + 1) = _ from hack] at hnext
          obtain h | h | ⟨h, -⟩ := hnext <;> exact OpState.noConfusion h
        · exact absurd hupdate (by rw [hno]; exact Bool.false_ne_true)
    · by_cases hidle : opStateAt KmacEnMasking inp t = .StIdle
      · exact h.no_fault (.inl hidle)
      · have hearly : (stateAt KmacEnMasking inp t).early = false :=
          Bool.eq_false_iff.2 fun hearly => hidle (h.early_idle hearly)
        rw [Bool.not_eq_true] at hupdate
        obtain ⟨hack, -, -, hcdi⟩ | ⟨-, hno, -⟩ | ⟨hack, -, -, hsame⟩ :=
          CtrlRegs.op_of_busy (i := inp t) hidle
        · -- A completion that is not reported is one without a request.
          cases hop : opStateAt KmacEnMasking inp t with
          | StIdle => exact absurd hop hidle
          | StWait => exact h.no_fault (.inr (.inl hop))
          | StAdv =>
            rw [CtrlRegs.op_done_o_of_req (hreq hop), hack] at hdone
            exact absurd rfl hdone
          | StAdvAck =>
            rw [CtrlRegs.op_ack, CtrlRegs.op,
              show (ctrlAt KmacEnMasking inp t).op_state_q = _ from hop] at hack
            exact absurd hack Bool.false_ne_true
        · rw [hno] at hupdate
          exact absurd hupdate.symm Bool.false_ne_true
        · rw [cnt_succ hearly hack hupdate] at hnext
          obtain ⟨hsame, -⟩ | ⟨hop, hsame⟩ := hsame
          · rw [show opStateAt KmacEnMasking inp (t + 1) = opStateAt KmacEnMasking inp t
              from hsame] at hnext
            exact h.no_fault hnext
          · have hfits := h.cnt_fits fun hs => by rw [hs] at hearly; cases hearly
            rw [show opStateAt KmacEnMasking inp t = _ from hop] at hfits
            rw [show opStateAt KmacEnMasking inp (t + 1) = _ from hsame] at hnext
            have hone : (ctrlAt KmacEnMasking inp t).cnt.toNat = 1 := hfits
            rw [hone] at hnext
            obtain h | h | ⟨-, h⟩ := hnext <;> cases h

/-! ### Up to a completion without a fault -/

theorem async_fault_of_le (hle : v ≤ t)
    (h : (ctrlAt KmacEnMasking inp t).async_fault_o (inp t) = 0) :
    (ctrlAt KmacEnMasking inp v).async_fault_o (inp v) = 0 := by
  induction hle with
  | refl => exact h
  | step _ ih => exact ih (BitVec.or_eq_zero_iff.1 h).1

theorem working_iff_rank (s : CtrlState) : s.working = true ↔ 4 ≤ s.rank ∧ s.rank ≤ 7 := by
  cases s <;> decide

theorem early_iff_rank (s : CtrlState) : s.early = true ↔ s.rank ≤ 3 := by
  cases s <;> decide

/-- A cycle `t` in a working state that no fault was seen before. -/
structure Unfaulted (KmacEnMasking : Bool) (inp : ℕ → CtrlIn) (t : ℕ) : Prop where
  working : (stateAt KmacEnMasking inp t).working = true
  async : (ctrlAt KmacEnMasking inp t).async_fault_o (inp t) = 0

theorem Unfaulted.rank_le (h : Unfaulted KmacEnMasking inp t) (hle : v ≤ t) :
    (stateAt KmacEnMasking inp v).rank ≤ 7 := by
  obtain ⟨n, rfl⟩ := Nat.exists_eq_add_of_le hle
  exact (rank_le_add v n).trans ((working_iff_rank _).1 h.working).2

/-- Nothing was wiped before. -/
theorem Unfaulted.ne_wipe (h : Unfaulted KmacEnMasking inp t) (hle : v ≤ t) :
    stateAt KmacEnMasking inp v ≠ .StCtrlWipe := by
  intro hs
  have hrank := h.rank_le hle
  rw [hs] at hrank
  exact absurd hrank (by decide)

theorem Unfaulted.working_of_busy (h : Unfaulted KmacEnMasking inp t) (hle : v ≤ t)
    (hsound : Sound KmacEnMasking inp v) (hbusy : opStateAt KmacEnMasking inp v ≠ .StIdle) :
    (stateAt KmacEnMasking inp v).working = true := by
  have hearly : ¬(stateAt KmacEnMasking inp v).early = true := fun h => hbusy (hsound.early_idle h)
  rw [early_iff_rank] at hearly
  exact (working_iff_rank _).2 ⟨by omega, h.rank_le hle⟩

theorem Unfaulted.req_of_adv (h : Unfaulted KmacEnMasking inp t) (hlt : v < t)
    (hsound : Sound KmacEnMasking inp v) (hadv : opStateAt KmacEnMasking inp v = .StAdv) :
    (ctrlAt KmacEnMasking inp v).op_req (inp v) = true := by
  have hworking := h.working_of_busy hlt.le hsound (by rw [hadv]; exact OpState.noConfusion)
  have hen := CtrlRegs.en_of_not_wipe hworking (h.ne_wipe (v := v + 1) hlt)
  rw [CtrlRegs.op_req_of_accepts (CtrlState.accepts_of_working hworking)]
  exact CtrlRegs.start_of_adv hadv hen (async_fault_of_le hlt.le h.async)

theorem Unfaulted.sound (h : Unfaulted KmacEnMasking inp t) (hle : v ≤ t) :
    Sound KmacEnMasking inp v := by
  induction v with
  | zero => exact ⟨fun _ => rfl, fun _ => rfl, fun _ => rfl⟩
  | succ v ih =>
    have hsound := ih (Nat.le_of_succ_le hle)
    exact hsound.succ (h.req_of_adv hle hsound)

/-- An operation is carried out in one state. -/
theorem Operation.state (hop : Operation KmacEnMasking inp s t)
    (h : Unfaulted KmacEnMasking inp t) (hs : s ≤ v) (ht : v ≤ t) :
    stateAt KmacEnMasking inp v = stateAt KmacEnMasking inp t := by
  have hstate : ∀ v, s ≤ v → v ≤ t →
      stateAt KmacEnMasking inp v = stateAt KmacEnMasking inp s ∧
        (stateAt KmacEnMasking inp v).accepts = true := by
    intro v hv
    induction hv with
    | refl =>
      intro _
      have hbusy := hop.busy (s + 1) (Nat.lt_succ_self s) hop.lt
      obtain ⟨-, -, hstay | ⟨hreq, -⟩⟩ := CtrlRegs.op_of_idle (i := inp s) hop.idle
      · exact absurd hstay hbusy
      · exact ⟨rfl, (accepts_of_start hop.idle hreq).1⟩
    | @step v hv ih =>
      intro hle
      obtain ⟨hsame, haccepts⟩ := ih (Nat.le_of_succ_le hle)
      have hack := op_ack_of_busy_succ (hop.busy (v + 1) (Nat.lt_succ_of_le hv) hle)
      have hnext := state_of_not_done haccepts hack (h.ne_wipe hle)
      rw [hnext]
      exact ⟨hsame, haccepts⟩
  rw [(hstate v hs ht).1, (hstate t hop.lt.le le_rfl).1]

theorem Operation.working (hop : Operation KmacEnMasking inp s t)
    (h : Unfaulted KmacEnMasking inp t) (hs : s ≤ v) (ht : v ≤ t) :
    (ctrlAt KmacEnMasking inp v).state_q.working = true := by
  change (stateAt KmacEnMasking inp v).working = true
  rw [hop.state h hs ht]
  exact h.working

/-- What the first transaction leaves until the operation is done. -/
theorem Operation.latched (hop : Operation KmacEnMasking inp s t)
    (h : Unfaulted KmacEnMasking inp t) (hs : s < v)
    (hupdate : (ctrlAt KmacEnMasking inp v).op_update (inp v) = true) {w : ℕ} (hw : v < w)
    (ht : w ≤ t) :
    (opStateAt KmacEnMasking inp w = .StAdvAck ∨ opStateAt KmacEnMasking inp w = .StAdv) ∧
      (ctrlAt KmacEnMasking inp w).cnt.toNat = 1 ∧
      (ctrlAt KmacEnMasking inp w).sync_fault_q =
        (ctrlAt KmacEnMasking inp v).sync_fault_d KmacEnMasking (inp v) := by
  have hnot_done : ∀ w, s < w → w < t →
      (ctrlAt KmacEnMasking inp w).op_done_o (inp w) = false := fun w hw ht => by
    by_contra hdone
    rw [Bool.not_eq_false] at hdone
    have hack := (CtrlRegs.req_of_done (hop.working h hw.le ht.le) hdone).2.2
    rw [op_ack_of_busy_succ (hop.busy (w + 1) (Nat.lt_succ_of_lt hw) ht)] at hack
    exact absurd hack Bool.false_ne_true
  induction hw with
  | refl =>
    have hbusy := hop.busy v hs (Nat.le_of_succ_le ht)
    have hnext : opStateAt KmacEnMasking inp (v + 1) = .StAdvAck := by
      obtain ⟨-, hno, -⟩ | ⟨-, -, hnext, -⟩ | ⟨-, hno, -⟩ := CtrlRegs.op_of_busy (i := inp v) hbusy
      · exact absurd hupdate (by rw [hno]; exact Bool.false_ne_true)
      · exact hnext
      · exact absurd hupdate (by rw [hno]; exact Bool.false_ne_true)
    have hworking := hop.working h (hs.le.trans (Nat.le_succ v)) ht
    have hfits := (h.sound ht).cnt_fits fun hs => by
      rw [show (ctrlAt KmacEnMasking inp (v + 1)).state_q = _ from hs] at hworking
      exact absurd hworking Bool.false_ne_true
    rw [hnext] at hfits
    refine ⟨.inl hnext, hfits, ?_⟩
    rw [sync_fault_q_succ, hnot_done v hs ht, hupdate]
    rfl
  | @step w hw ih =>
    obtain ⟨hop_state, hcnt, hfault⟩ := ih (Nat.le_of_succ_le ht)
    have hsw : s < w := hs.trans hw
    have hworking := hop.working h hsw.le (Nat.le_of_succ_le ht)
    have hno : (ctrlAt KmacEnMasking inp w).op_update (inp w) = false := by
      obtain hack | hadv := hop_state
      · rw [CtrlRegs.op_update, CtrlRegs.op,
          show (ctrlAt KmacEnMasking inp w).op_state_q = _ from hack]
      · have hreq := h.req_of_adv ht (h.sound (Nat.le_of_succ_le ht)) hadv
        obtain ⟨-, hno, -⟩ | ⟨-, -, -, -, hcdi⟩ | ⟨-, hno, -⟩ :=
          CtrlRegs.op_of_busy (i := inp w) (hop.busy w hsw (Nat.le_of_succ_le ht))
        · exact hno
        · rw [CtrlRegs.cdi_cnt, if_pos hreq, BitVec.toNat_setWidth, hcnt] at hcdi
          exact absurd hcdi (by decide)
        · exact hno
    have hack := op_ack_of_busy_succ (hop.busy (w + 1) (Nat.lt_succ_of_lt hsw) ht)
    refine ⟨?_, ?_, ?_⟩
    · obtain ⟨hyes, -⟩ | ⟨-, hyes, -⟩ | ⟨-, -, -, hnext⟩ :=
        CtrlRegs.op_of_busy (i := inp w) (hop.busy w hsw (Nat.le_of_succ_le ht))
      · exact absurd hyes (by rw [hack]; exact Bool.false_ne_true)
      · exact absurd hyes (by rw [hno]; exact Bool.false_ne_true)
      · obtain ⟨hsame, hne⟩ | ⟨-, hadv⟩ := hnext
        · right
          have hsame : opStateAt KmacEnMasking inp (w + 1) = opStateAt KmacEnMasking inp w := hsame
          rw [hsame]
          exact hop_state.resolve_left hne
        · exact .inr hadv
    · rw [cnt_succ (CtrlState.early_of_working hworking) hack hno, hcnt]
    · rw [sync_fault_q_succ, hnot_done w hsw ht, hno, hfault]
      rfl

/-! ### Rejected operations -/

/-- A transaction before cycle `t` that delivers its result to a CDI. -/
def Written (KmacEnMasking : Bool) (inp : ℕ → CtrlIn) (s t : ℕ) (c : Fin CDIs) : Prop :=
  ∃ v, s < v ∧ v < t ∧ (ctrlAt KmacEnMasking inp v).op_update (inp v) = true ∧
    (ctrlAt KmacEnMasking inp v).op_err KmacEnMasking (inp v) = false ∧
    c = ((ctrlAt KmacEnMasking inp v).cdi_sel_o (inp v)).toFin

/-- No cycle of the operation loads the root key. -/
def NotLoaded (KmacEnMasking : Bool) (inp : ℕ → CtrlIn) (s t : ℕ) : Prop :=
  ∀ v, s ≤ v → v ≤ t → (ctrlAt KmacEnMasking inp v).ld_root_key KmacEnMasking (inp v) = false

theorem unfaulted_of_fault (hworking : (stateAt KmacEnMasking inp t).working = true)
    (hfault : (ctrlAt KmacEnMasking inp t).fault KmacEnMasking (inp t) = false) :
    Unfaulted KmacEnMasking inp t := by
  rw [CtrlRegs.fault, Bool.or_eq_false_iff, bne_eq_false_iff_eq] at hfault
  exact ⟨hworking, hfault.2⟩

/-- No transaction of the operation sees a fault. -/
theorem Operation.no_fault (hop : Operation KmacEnMasking inp s t)
    (h : Unfaulted KmacEnMasking inp t)
    (hfault : (ctrlAt KmacEnMasking inp t).sync_fault_o KmacEnMasking (inp t) = 0) (hs : s < v)
    (ht : v < t) (hupdate : (ctrlAt KmacEnMasking inp v).op_update (inp v) = true) :
    (ctrlAt KmacEnMasking inp v).op_fault_err KmacEnMasking (inp v) = false := by
  have hsound := h.sound ht.le
  obtain ⟨-, hno, -⟩ | ⟨-, -, -, hadv, hcdi⟩ | ⟨-, hno, -⟩ :=
    CtrlRegs.op_of_busy (i := inp v) (hop.busy v hs ht.le)
  · exact absurd hupdate (by rw [hno]; exact Bool.false_ne_true)
  · have hworking := hop.working h hs.le ht.le
    have hfits := hsound.cnt_fits fun hs => by
      rw [show (ctrlAt KmacEnMasking inp v).state_q = _ from hs] at hworking
      exact absurd hworking Bool.false_ne_true
    rw [show opStateAt KmacEnMasking inp v = _ from hadv] at hfits
    have hle : (ctrlAt KmacEnMasking inp v).cnt.toNat ≤ 1 := hfits
    rw [CtrlRegs.cdi_cnt, if_pos (h.req_of_adv ht hsound hadv), BitVec.toNat_setWidth,
      show 2 ^ CdiWidth = 2 from rfl] at hcdi
    have hq := hsound.no_fault (.inr (.inr ⟨hadv, by omega⟩))
    have hd : (ctrlAt KmacEnMasking inp v).sync_fault_d KmacEnMasking (inp v) = 0 := by
      rw [← (hop.latched h hs hupdate ht le_rfl).2.2]
      exact (BitVec.or_eq_zero_iff.1 hfault).1
    rw [CtrlRegs.op_fault_err, CtrlRegs.sync_fault_o, hq, hd, async_fault_of_le ht.le h.async]
    rfl
  · exact absurd hupdate (by rw [hno]; exact Bool.false_ne_true)

/-- The keys up to the last transaction. -/
theorem Operation.keys (hop : Operation KmacEnMasking inp s t) (h : Unfaulted KmacEnMasking inp t)
    (hfault : (ctrlAt KmacEnMasking inp t).sync_fault_o KmacEnMasking (inp t) = 0)
    (hload : NotLoaded KmacEnMasking inp s t) {c : Fin CDIs}
    (hc : ¬Written KmacEnMasking inp s t c) (hs : s ≤ v) (ht : v ≤ t) :
    (ctrlAt KmacEnMasking inp v).key_state_q c = (ctrlAt KmacEnMasking inp s).key_state_q c := by
  induction hs with
  | refl => rfl
  | @step v hs ih =>
    rw [← ih (Nat.le_of_succ_le ht)]
    have hack := op_ack_of_busy_succ (hop.busy (v + 1) (Nat.lt_succ_of_le hs) ht)
    have hlt (hupdate : (ctrlAt KmacEnMasking inp v).op_update (inp v) = true) : s < v := by
      refine Nat.lt_of_le_of_ne hs ?_
      rintro rfl
      rw [(CtrlRegs.op_of_idle hop.idle).2.1] at hupdate
      exact absurd hupdate Bool.false_ne_true
    have hupdate (hor : (ctrlAt KmacEnMasking inp v).op_ack (inp v) = true ∨
        (ctrlAt KmacEnMasking inp v).op_update (inp v) = true) :
        (ctrlAt KmacEnMasking inp v).op_update (inp v) = true :=
      hor.resolve_left (by rw [hack]; exact Bool.false_ne_true)
    refine CtrlRegs.key_state_of_working (hop.working h hs (Nat.le_of_succ_le ht))
      (hload v hs (Nat.le_of_succ_le ht)) (fun hor => ?_) (fun hor herr hsel => ?_)
    · exact hop.no_fault h hfault (hlt (hupdate hor)) ht (hupdate hor)
    · exact hc ⟨v, hlt (hupdate hor), ht, hupdate hor, herr, hsel⟩

/-- What an operation from cycle `s` to cycle `t` that is rejected leaves. -/
structure Rejected (KmacEnMasking : Bool) (inp : ℕ → CtrlIn) (s t : ℕ) : Prop where
  /-- It was carried out in one state. -/
  state : ∀ v, s ≤ v → v ≤ t → stateAt KmacEnMasking inp v = stateAt KmacEnMasking inp t
  working : workingAt KmacEnMasking inp (t + 1) = workingAt KmacEnMasking inp t ∨
    (inp t).dis_op = true ∧ workingAt KmacEnMasking inp (t + 1) = .StDisabled
  keys : NotLoaded KmacEnMasking inp s t → ∀ c, ¬Written KmacEnMasking inp s t c →
    (ctrlAt KmacEnMasking inp (t + 1)).key_state_q c = (ctrlAt KmacEnMasking inp s).key_state_q c

theorem working_of_error (hworking : (stateAt KmacEnMasking inp t).working = true)
    (herr : (ctrlAt KmacEnMasking inp t).op_err KmacEnMasking (inp t) = true) :
    workingAt KmacEnMasking inp (t + 1) = workingAt KmacEnMasking inp t ∨
      (inp t).dis_op = true ∧ workingAt KmacEnMasking inp (t + 1) = .StDisabled := by
  have htrans := transAt KmacEnMasking inp t
  generalize hs : stateAt KmacEnMasking inp t = s at htrans hworking
  generalize hs' : stateAt KmacEnMasking inp (t + 1) = s' at htrans
  have hsame (heq : stateAt KmacEnMasking inp (t + 1) = stateAt KmacEnMasking inp t) :
      workingAt KmacEnMasking inp (t + 1) = workingAt KmacEnMasking inp t := by
    rw [stateAt, stateAt] at heq
    rw [stateAt] at hs
    rw [workingAt, workingAt, CtrlRegs.working_state_o, CtrlRegs.working_state_o, heq, hs]
    cases s <;> first | rfl | exact absurd hworking Bool.false_ne_true
  cases htrans with
  | opWipe => exact .inl (workingAt_wipe hs')
  | opDisable _ _ _ hdis =>
    rw [CtrlRegs.dis_state, CtrlRegs.dis_req, Bool.and_eq_true, Bool.and_eq_true] at hdis
    refine .inr ⟨hdis.2.2, ?_⟩
    rw [workingAt, CtrlRegs.working_state_o,
      show (ctrlAt KmacEnMasking inp (t + 1)).state_q = _ from hs']
  | opAdvance _ _ _ hadv =>
    rw [CtrlRegs.adv_state, herr, Bool.not_true, Bool.and_false] at hadv
    exact absurd hadv Bool.false_ne_true
  | opStay => exact .inl (hsame (hs'.trans hs.symm))
  | _ => exact absurd hworking Bool.false_ne_true

/-- An operation of a working state that completes with a synchronous error and without a
fault does not advance the state, and leaves the key of every CDI that no earlier transaction
without an error has written. -/
theorem keymgr_rejected (hworking : (stateAt KmacEnMasking inp t).working = true)
    (hdone : DoneAt KmacEnMasking inp t)
    (herr : (ctrlAt KmacEnMasking inp t).syncErrorReported KmacEnMasking (inp t) = true)
    (hfault : (ctrlAt KmacEnMasking inp t).fault KmacEnMasking (inp t) = false) :
    ∃ s, Operation KmacEnMasking inp s t ∧ Rejected KmacEnMasking inp s t := by
  have herr := CtrlRegs.op_err_of_reported herr
  have h := unfaulted_of_fault hworking hfault
  have hack := (CtrlRegs.req_of_done hworking hdone).2.2
  have hbusy : opStateAt KmacEnMasking inp t ≠ .StIdle := fun hidle => by
    rw [(CtrlRegs.op_of_idle hidle).1] at hack
    exact absurd hack Bool.false_ne_true
  have hsync : (ctrlAt KmacEnMasking inp t).sync_fault_o KmacEnMasking (inp t) = 0 := by
    rw [CtrlRegs.fault, show (ctrlAt KmacEnMasking inp t).op_done_o (inp t) = true from hdone,
      Bool.true_and, Bool.or_eq_false_iff, bne_eq_false_iff_eq] at hfault
    exact hfault.1
  obtain ⟨s, hop⟩ := exists_operation hbusy
  refine ⟨s, hop, fun v hs ht => hop.state h hs ht, working_of_error hworking herr, ?_⟩
  intro hload c hc
  rw [← hop.keys h hsync hload hc hop.lt.le le_rfl]
  refine CtrlRegs.key_state_of_working hworking (hload t hop.lt.le le_rfl) (fun _ => ?_) ?_
  · rw [CtrlRegs.op_fault_err, hsync, h.async]
    rfl
  · intro _ hno
    exact absurd (herr.symm.trans hno) Bool.noConfusion

end Runs

/-! ### Examples of rejected operations -/

/-- An operation out of the init state, from cycle 11 to cycle 14, whose second transaction
is the last one. -/
def afterInit (op_i : BitVec 3) : ℕ → CtrlIn :=
  afterAdvance { quietIn with op_start_i := true, op_i }

/-- The inputs are invalid in the first transaction, and in the second one. -/
def earlyInvalid (t : ℕ) : CtrlIn :=
  { afterInit CtrlIn.OpAdvance t with kmac_input_invalid_i := t == 12 }

def lateInvalid (t : ℕ) : CtrlIn :=
  { afterInit CtrlIn.OpAdvance t with kmac_input_invalid_i := t == 14 }

def shadowError (t : ℕ) : CtrlIn :=
  { afterInit CtrlIn.OpAdvance t with shadowed_update_err_i := t == 14 }

def invalidDisable (t : ℕ) : CtrlIn := { afterInit 4 t with kmac_input_invalid_i := t == 12 }

/-- A completion in a working state with an error and without a fault. -/
def FailsWithoutFault (KmacEnMasking : Bool) (inp : ℕ → CtrlIn) (t : ℕ) : Prop :=
  (stateAt KmacEnMasking inp t).working = true ∧ DoneAt KmacEnMasking inp t ∧
    (ctrlAt KmacEnMasking inp t).error_o KmacEnMasking (inp t) ≠ 0 ∧
    (ctrlAt KmacEnMasking inp t).fault KmacEnMasking (inp t) = false

instance {KmacEnMasking : Bool} {inp : ℕ → CtrlIn} {t : ℕ} :
    Decidable (FailsWithoutFault KmacEnMasking inp t) :=
  inferInstanceAs (Decidable (_ ∧ _ ∧ _ ∧ _))

theorem operation_of_init {inp : ℕ → CtrlIn} (hidle : opStateAt true inp 11 = .StIdle)
    (h : opStateAt true inp 12 ≠ .StIdle ∧ opStateAt true inp 13 ≠ .StIdle ∧
      opStateAt true inp 14 ≠ .StIdle) : Operation true inp 11 14 where
  lt := by decide
  idle := hidle
  busy v hs ht := by
    obtain rfl | rfl | rfl : v = 12 ∨ v = 13 ∨ v = 14 := by omega
    · exact h.1
    · exact h.2.1
    · exact h.2.2

/-- An error that the first transaction does not see comes after its key was written, an error
in the update of a shadow register does not count, and a disable with an error disables. -/
theorem rejected_with_changes :
    (Operation true lateInvalid 11 14 ∧ FailsWithoutFault true lateInvalid 14 ∧
      (ctrlAt true lateInvalid 15).key_state_q 0 1 ≠
        (ctrlAt true lateInvalid 11).key_state_q 0 1) ∧
    (Operation true shadowError 11 14 ∧ FailsWithoutFault true shadowError 14 ∧
      (ctrlAt true shadowError 15).key_state_q 1 1 ≠
        (ctrlAt true shadowError 11).key_state_q 1 1 ∧
      workingAt true shadowError 14 = .StInit ∧
      workingAt true shadowError 15 = .StCreatorRootKey) ∧
    Operation true invalidDisable 11 14 ∧ FailsWithoutFault true invalidDisable 14 ∧
      workingAt true invalidDisable 14 = .StInit ∧
      workingAt true invalidDisable 15 = .StDisabled := by
  refine ⟨⟨operation_of_init ?_ ?_, ?_, ?_⟩, ⟨operation_of_init ?_ ?_, ?_, ?_, ?_, ?_⟩,
    operation_of_init ?_ ?_, ?_, ?_, ?_⟩ <;> decide +kernel

/-- The error of the first transaction keeps both results from the keys. -/
theorem keymgr_rejected_earlyInvalid :
    ∃ s, Operation true earlyInvalid s 14 ∧ Rejected true earlyInvalid s 14 :=
  keymgr_rejected (by decide +kernel) (by decide +kernel) (by decide +kernel) (by decide +kernel)

end SecureBoot.Keymgr
