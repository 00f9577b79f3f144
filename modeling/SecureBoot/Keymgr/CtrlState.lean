import SecureBoot.Keymgr.Ctrl

/-! The states of the key manager over whole runs whose commands are held until they are
done: in which order they are entered, and by the completion of which command. -/

namespace SecureBoot.Keymgr

namespace CtrlRegs

variable {KmacEnMasking : Bool} {r : CtrlRegs} {i : CtrlIn}

/-! ### One cycle of the operation machine -/

/-- An idle operation machine completes nothing, and starts on a request only. -/
theorem op_of_idle (h : r.op_state_q = .StIdle) : r.op_ack i = false ∧ r.op_update i = false ∧
    ((r.op i).state_d = .StIdle ∨
      r.op_req i = true ∧ ((r.op i).state_d = .StAdv ∨ (r.op i).state_d = .StWait)) := by
  simp only [op_ack, op_update, op, h, true_and]
  cases hreq : r.op_req i with
  | false => simp [adv_req, dis_req, id_req, gen_req, hreq]
  | true =>
    split_ifs
    · exact .inr ⟨rfl, .inl rfl⟩
    · exact .inr ⟨rfl, .inr rfl⟩
    · exact .inl rfl

/-- What a busy operation machine does, with the counter that the two parts of an advance
go by. -/
theorem op_of_busy (h : r.op_state_q ≠ .StIdle) :
    (r.op_ack i = true ∧ r.op_update i = false ∧ (r.op i).state_d = .StIdle ∧
        (r.op_state_q = .StAdv → (r.cdi_cnt i).toNat = 1)) ∨
      (r.op_ack i = false ∧ r.op_update i = true ∧ (r.op i).state_d = .StAdvAck ∧
        r.op_state_q = .StAdv ∧ (r.cdi_cnt i).toNat = 0) ∨
      (r.op_ack i = false ∧ r.op_update i = false ∧ (r.op i).state_d ≠ .StIdle ∧
        ((r.op i).state_d = r.op_state_q ∧ r.op_state_q ≠ .StAdvAck ∨
          r.op_state_q = .StAdvAck ∧ (r.op i).state_d = .StAdv)) := by
  simp only [op_ack, op_update, op]
  cases hop : r.op_state_q with
  | StIdle => exact absurd hop h
  | StAdv =>
    simp only
    split_ifs with hlast hfirst
    · rw [Bool.and_eq_true, beq_iff_eq] at hlast
      exact .inl ⟨rfl, rfl, rfl, fun _ => hlast.2⟩
    · rw [Bool.and_eq_true, decide_eq_true_eq] at hfirst
      exact .inr (.inl ⟨rfl, rfl, rfl, trivial, Nat.lt_one_iff.1 hfirst.2⟩)
    · exact .inr (.inr ⟨rfl, rfl, nofun, .inl ⟨rfl, nofun⟩⟩)
  | StAdvAck => exact .inr (.inr ⟨rfl, rfl, nofun, .inr ⟨rfl, rfl⟩⟩)
  | StWait =>
    simp only
    split_ifs
    · exact .inl ⟨rfl, rfl, rfl, nofun⟩
    · exact .inr (.inr ⟨rfl, rfl, nofun, .inl ⟨rfl, nofun⟩⟩)

/-- The counter after a cycle. -/
theorem cnt_clock (KmacEnMasking : Bool) (r : CtrlRegs) (i : CtrlIn) :
    ((r.clock KmacEnMasking i).cnt).toNat =
    if r.op_ack i || (r.fsm i).random_ack then 0
    else if r.op_update i || (r.fsm i).random_req then min (r.cnt.toNat + 1) 7
    else r.cnt.toNat := by
  change (cntD 0 0 r.cnt (r.op_ack i || (r.fsm i).random_ack) false
    (r.op_update i || (r.fsm i).random_req) false 1).toNat = _
  cases r.op_ack i || (r.fsm i).random_ack with
  | true => rfl
  | false =>
    cases r.op_update i || (r.fsm i).random_req with
    | false => rw [cntD_hold, if_neg Bool.false_ne_true, if_neg Bool.false_ne_true]
    | true =>
      rw [toNat_cntD_incr]
      rfl

/-! ### One cycle of the main machine -/

/-- An advance leads from a state of software operations to the next one. -/
inductive Advances : CtrlState → CtrlState → Prop
  | init : Advances .StCtrlInit .StCtrlCreatorRootKey
  | creator : Advances .StCtrlCreatorRootKey .StCtrlOwnerIntKey
  | ownerInt : Advances .StCtrlOwnerIntKey .StCtrlOwnerKey
  | owner : Advances .StCtrlOwnerKey .StCtrlDisabled

/-- Every way from one state to the next, with what it needs. -/
inductive Trans (KmacEnMasking : Bool) (r : CtrlRegs) (i : CtrlIn) : CtrlState → CtrlState → Prop
  | resetStay (hsel : i.advance_sel = false) : Trans KmacEnMasking r i .StCtrlReset .StCtrlReset
  | resetAdvance (hsel : i.advance_sel = true) :
    Trans KmacEnMasking r i .StCtrlReset .StCtrlEntropyReseed
  | resetWipe : Trans KmacEnMasking r i .StCtrlReset .StCtrlWipe
  | reseedStay : Trans KmacEnMasking r i .StCtrlEntropyReseed .StCtrlEntropyReseed
  | reseedAck : Trans KmacEnMasking r i .StCtrlEntropyReseed .StCtrlRandom
  | randomStay : Trans KmacEnMasking r i .StCtrlRandom .StCtrlRandom
  | randomLast (hlast : r.cnt.toNat = EntropyRounds - 1) :
    Trans KmacEnMasking r i .StCtrlRandom .StCtrlRootKey
  | rootInit : Trans KmacEnMasking r i .StCtrlRootKey .StCtrlInit
  | rootWipe : Trans KmacEnMasking r i .StCtrlRootKey .StCtrlWipe
  | opWipe {s next : CtrlState} (h : Advances s next) : Trans KmacEnMasking r i s .StCtrlWipe
  | opDisable {s next : CtrlState} (h : Advances s next) (hen : i.en_i = true)
    (hok : r.fault KmacEnMasking i = false) (hdis : r.dis_state i = true) :
    Trans KmacEnMasking r i s .StCtrlDisabled
  | opAdvance {s next : CtrlState} (h : Advances s next) (hen : i.en_i = true)
    (hok : r.fault KmacEnMasking i = false) (hadv : r.adv_state KmacEnMasking i = true) :
    Trans KmacEnMasking r i s next
  | opStay {s next : CtrlState} (h : Advances s next) : Trans KmacEnMasking r i s s
  | wipeStay (hstart : i.op_start_i = true) : Trans KmacEnMasking r i .StCtrlWipe .StCtrlWipe
  | wipeDone (hstart : i.op_start_i = false) : Trans KmacEnMasking r i .StCtrlWipe .StCtrlInvalid
  | disabledStay : Trans KmacEnMasking r i .StCtrlDisabled .StCtrlDisabled
  | disabledWipe : Trans KmacEnMasking r i .StCtrlDisabled .StCtrlWipe
  | invalidStay : Trans KmacEnMasking r i .StCtrlInvalid .StCtrlInvalid

theorem trans_opState {s next : CtrlState} (h : Advances s next) :
    Trans KmacEnMasking r i s (r.opState KmacEnMasking i s next) := by
  rw [opState]
  split_ifs with hbad hdis hadv
  · exact .opWipe h
  · simp only [inv_state, Bool.or_eq_true, Bool.not_eq_true', not_or, Bool.not_eq_false,
      Bool.not_eq_true] at hbad
    exact .opDisable h hbad.1 hbad.2 hdis
  · simp only [inv_state, Bool.or_eq_true, Bool.not_eq_true', not_or, Bool.not_eq_false,
      Bool.not_eq_true] at hbad
    exact .opAdvance h hbad.1 hbad.2 hadv
  · exact .opStay h

theorem trans (KmacEnMasking : Bool) (r : CtrlRegs) (i : CtrlIn) :
    Trans KmacEnMasking r i r.state_q (r.state_d KmacEnMasking i) := by
  rw [state_d]
  cases r.state_q with
  | StCtrlReset =>
    simp only
    split_ifs with hbad hsel
    · exact .resetWipe
    · exact .resetAdvance hsel
    · exact .resetStay (Bool.eq_false_iff.2 hsel)
  | StCtrlEntropyReseed =>
    simp only
    split_ifs
    · exact .reseedAck
    · exact .reseedStay
  | StCtrlRandom =>
    simp only
    split_ifs with hlast
    · exact .randomLast hlast
    · exact .randomStay
  | StCtrlRootKey =>
    simp only
    split_ifs
    · exact .rootInit
    · exact .rootWipe
  | StCtrlInit => exact trans_opState .init
  | StCtrlCreatorRootKey => exact trans_opState .creator
  | StCtrlOwnerIntKey => exact trans_opState .ownerInt
  | StCtrlOwnerKey => exact trans_opState .owner
  | StCtrlDisabled =>
    simp only
    split_ifs
    · exact .disabledWipe
    · exact .disabledStay
  | StCtrlWipe =>
    cases hstart : i.op_start_i with
    | true => exact .wipeStay hstart
    | false => exact .wipeDone hstart
  | StCtrlInvalid => exact .invalidStay

end CtrlRegs

/-! ### Commands -/

section Commands

variable (KmacEnMasking : Bool) (inp : ℕ → CtrlIn)

def stateAt (t : ℕ) : CtrlState := (ctrlAt KmacEnMasking inp t).state_q

def opStateAt (t : ℕ) : OpState := (ctrlAt KmacEnMasking inp t).op_state_q

/-- The command of cycle `t` is done in it. -/
def DoneAt (t : ℕ) : Prop := (ctrlAt KmacEnMasking inp t).op_done_o (inp t) = true

/-- A command that is not done stays as it is. -/
def Held : Prop := ∀ t, (inp t).op_start_i = true → ¬DoneAt KmacEnMasking inp t →
  (inp (t + 1)).op_start_i = true ∧ (inp (t + 1)).op_i = (inp t).op_i ∧
    (inp (t + 1)).op_cdi_sel_i = (inp t).op_cdi_sel_i

/-- A command starts in cycle `u` and is under way up to cycle `t`. -/
structure UnderWay (u t : ℕ) : Prop where
  issued : ∀ v, u = v + 1 → (inp v).op_start_i = false ∨ DoneAt KmacEnMasking inp v
  le : u ≤ t
  held : ∀ v, u ≤ v → v ≤ t → (inp v).op_start_i = true ∧ (inp v).op_i = (inp u).op_i
  not_done : ∀ v, u ≤ v → v < t → ¬DoneAt KmacEnMasking inp v

variable {KmacEnMasking inp} {t u : ℕ}

theorem underWay_now (hstart : (inp t).op_start_i = true)
    (hissued : ∀ v, t = v + 1 → (inp v).op_start_i = false ∨ DoneAt KmacEnMasking inp v) :
    UnderWay KmacEnMasking inp t t where
  issued := hissued
  le := Nat.le_refl t
  held v hu ht := by
    obtain rfl := Nat.le_antisymm hu ht
    exact ⟨hstart, rfl⟩
  not_done v hu ht := absurd ht (Nat.not_lt.2 hu)

theorem UnderWay.succ (hheld : Held KmacEnMasking inp) (h : UnderWay KmacEnMasking inp u t)
    (hnot : ¬DoneAt KmacEnMasking inp t) : UnderWay KmacEnMasking inp u (t + 1) where
  issued := h.issued
  le := Nat.le_succ_of_le h.le
  held v hu ht := by
    obtain hle | rfl := Nat.le_succ_iff.1 ht
    · exact h.held v hu hle
    · obtain ⟨hstart, hop⟩ := h.held t h.le (Nat.le_refl t)
      obtain ⟨hstart', hop', -⟩ := hheld t hstart hnot
      exact ⟨hstart', hop'.trans hop⟩
  not_done v hu ht := by
    obtain hlt | rfl := Nat.lt_succ_iff_lt_or_eq.1 ht
    · exact h.not_done v hu hlt
    · exact hnot

end Commands

/-! ### What holds in every cycle -/

/-- The states before any operation is accepted. -/
def CtrlState.early : CtrlState → Bool
  | .StCtrlReset | .StCtrlEntropyReseed | .StCtrlRandom | .StCtrlRootKey => true
  | _ => false

/-- The states in which the operation machine sees the command. -/
def CtrlState.accepts : CtrlState → Bool
  | .StCtrlInit | .StCtrlCreatorRootKey | .StCtrlOwnerIntKey | .StCtrlOwnerKey
  | .StCtrlDisabled | .StCtrlInvalid => true
  | _ => false

namespace CtrlRegs

variable {KmacEnMasking : Bool} {r : CtrlRegs} {i : CtrlIn}

theorem op_req_of_early (h : r.state_q.early = true) : r.op_req i = false := by
  rw [op_req, fsm]
  cases hs : r.state_q <;> rw [hs] at h <;> first | rfl | exact absurd h Bool.false_ne_true

theorem op_req_of_accepts (h : r.state_q.accepts = true) : r.op_req i = i.op_start_i := by
  rw [op_req, fsm]
  cases hs : r.state_q <;> rw [hs] at h <;> first | rfl | exact absurd h Bool.false_ne_true

theorem op_req_of_wipe (h : r.state_q = .StCtrlWipe) : r.op_req i = r.op_busy := by
  rw [op_req, fsm, h]

theorem op_done_o_of_req (h : r.op_req i = true) : r.op_done_o i = r.op_ack i := by
  rw [op_done_o, if_pos h]

theorem early_of_early_succ (h : (r.state_d KmacEnMasking i).early = true) :
    r.state_q.early = true := by
  have htrans := trans KmacEnMasking r i
  generalize r.state_q = s at htrans ⊢
  generalize r.state_d KmacEnMasking i = s' at htrans h
  cases htrans with
  | opAdvance hadv => cases hadv <;> exact absurd h Bool.false_ne_true
  | opStay hadv => cases hadv <;> exact absurd h Bool.false_ne_true
  | opWipe | opDisable => exact absurd h Bool.false_ne_true
  | _ => first | rfl | exact absurd h Bool.false_ne_true

theorem random_of_not_early (h : r.state_q.early = false) :
    (r.fsm i).random_req = false ∧ (r.fsm i).random_ack = false := by
  rw [fsm]
  cases hs : r.state_q <;> rw [hs] at h <;>
    first | exact absurd h.symm Bool.false_ne_true | exact ⟨rfl, rfl⟩

/-- The values of the counter beside a state of the operation machine. -/
def CntFits (n : ℕ) : OpState → Prop
  | .StIdle | .StWait => n = 0
  | .StAdv => n ≤ 1
  | .StAdvAck => n = 1

end CtrlRegs

section Good

variable {KmacEnMasking : Bool} {inp : ℕ → CtrlIn} {t : ℕ}

/-- The invariant of the two machines under held commands. -/
structure Good (KmacEnMasking : Bool) (inp : ℕ → CtrlIn) (t : ℕ) : Prop where
  early_idle : (stateAt KmacEnMasking inp t).early = true → opStateAt KmacEnMasking inp t = .StIdle
  busy_start : opStateAt KmacEnMasking inp t ≠ .StIdle → (inp t).op_start_i = true
  cnt_fits : stateAt KmacEnMasking inp t ≠ .StCtrlRandom →
    CtrlRegs.CntFits (ctrlAt KmacEnMasking inp t).cnt.toNat (opStateAt KmacEnMasking inp t)

theorem CtrlState.cases (s : CtrlState) :
    s.early = true ∨ s.accepts = true ∨ s = .StCtrlWipe := by
  cases s <;> decide

theorem Good.op_req_of_busy (h : Good KmacEnMasking inp t)
    (hbusy : opStateAt KmacEnMasking inp t ≠ .StIdle) :
    (ctrlAt KmacEnMasking inp t).op_req (inp t) = true := by
  obtain hearly | haccepts | hwipe := (stateAt KmacEnMasking inp t).cases
  · exact absurd (h.early_idle hearly) hbusy
  · rw [CtrlRegs.op_req_of_accepts haccepts]
    exact h.busy_start hbusy
  · rw [CtrlRegs.op_req_of_wipe hwipe]
    exact bne_iff_ne.2 hbusy

/-- A command that the operation machine takes up is in a state that accepts it. -/
theorem accepts_of_start (hidle : opStateAt KmacEnMasking inp t = .StIdle)
    (hreq : (ctrlAt KmacEnMasking inp t).op_req (inp t) = true) :
    (stateAt KmacEnMasking inp t).accepts = true ∧ (inp t).op_start_i = true := by
  obtain hearly | haccepts | hwipe := (stateAt KmacEnMasking inp t).cases
  · exact absurd hreq (by rw [CtrlRegs.op_req_of_early hearly]; exact Bool.false_ne_true)
  · exact ⟨haccepts, CtrlRegs.op_req_of_accepts haccepts ▸ hreq⟩
  · rw [CtrlRegs.op_req_of_wipe hwipe] at hreq
    exact absurd hidle (bne_iff_ne.1 hreq)

/-- The operation machine is busy in the next cycle: its command is not done. -/
theorem Good.not_done (h : Good KmacEnMasking inp t)
    (hnext : opStateAt KmacEnMasking inp (t + 1) ≠ .StIdle) :
    (inp t).op_start_i = true ∧ ¬DoneAt KmacEnMasking inp t := by
  by_cases hidle : opStateAt KmacEnMasking inp t = .StIdle
  · obtain ⟨hack, -, hstay | ⟨hreq, -⟩⟩ := CtrlRegs.op_of_idle (i := inp t) hidle
    · exact absurd hstay hnext
    · refine ⟨(accepts_of_start hidle hreq).2, ?_⟩
      rw [DoneAt, CtrlRegs.op_done_o_of_req hreq, hack]
      exact Bool.false_ne_true
  · refine ⟨h.busy_start hidle, ?_⟩
    rw [DoneAt, CtrlRegs.op_done_o_of_req (h.op_req_of_busy hidle)]
    obtain ⟨-, -, hback, -⟩ | ⟨hack, -⟩ | ⟨hack, -⟩ := CtrlRegs.op_of_busy (i := inp t) hidle
    · exact absurd hback hnext
    · rw [hack]
      exact Bool.false_ne_true
    · rw [hack]
      exact Bool.false_ne_true

/-- Before the first operation the counter is zero outside the random state. -/
theorem cnt_zero
    (hidle : opStateAt KmacEnMasking inp t = .StIdle)
    (hfits : stateAt KmacEnMasking inp t ≠ .StCtrlRandom →
      CtrlRegs.CntFits (ctrlAt KmacEnMasking inp t).cnt.toNat (opStateAt KmacEnMasking inp t))
    (hrandom : stateAt KmacEnMasking inp (t + 1) ≠ .StCtrlRandom) :
    (if ((ctrlAt KmacEnMasking inp t).fsm (inp t)).random_ack then 0
      else if ((ctrlAt KmacEnMasking inp t).fsm (inp t)).random_req then
        min ((ctrlAt KmacEnMasking inp t).cnt.toNat + 1) 7
      else (ctrlAt KmacEnMasking inp t).cnt.toNat) = 0 := by
  by_cases hs : stateAt KmacEnMasking inp t = .StCtrlRandom
  · have hlast : (ctrlAt KmacEnMasking inp t).cnt.toNat = EntropyRounds - 1 := by
      by_contra hne
      refine hrandom ?_
      change (ctrlAt KmacEnMasking inp t).state_d KmacEnMasking (inp t) = _
      rw [CtrlRegs.state_d, show (ctrlAt KmacEnMasking inp t).state_q = _ from hs]
      exact if_neg hne
    rw [CtrlRegs.fsm, show (ctrlAt KmacEnMasking inp t).state_q = _ from hs]
    exact if_pos (beq_iff_eq.2 hlast)
  · have hzero := hfits hs
    rw [hidle] at hzero
    have hzero : (ctrlAt KmacEnMasking inp t).cnt.toNat = 0 := hzero
    rw [CtrlRegs.fsm, hzero]
    cases hstate : (ctrlAt KmacEnMasking inp t).state_q with
    | StCtrlRandom => exact absurd hstate hs
    | _ => rfl

/-- The operation machine starts in a state that accepts operations. -/
theorem early_idle_succ
    (h : (stateAt KmacEnMasking inp t).early = true → opStateAt KmacEnMasking inp t = .StIdle)
    (hearly : (stateAt KmacEnMasking inp (t + 1)).early = true) :
    opStateAt KmacEnMasking inp (t + 1) = .StIdle := by
  have hearly' := CtrlRegs.early_of_early_succ hearly
  obtain ⟨-, -, hstay | ⟨hreq, -⟩⟩ := CtrlRegs.op_of_idle (i := inp t) (h hearly')
  · exact hstay
  · exact absurd hreq (by rw [CtrlRegs.op_req_of_early hearly']; exact Bool.false_ne_true)

/-- The counter stays beside the operation machine while an advance is requested. -/
theorem cnt_fits_succ
    (hidle : (stateAt KmacEnMasking inp t).early = true → opStateAt KmacEnMasking inp t = .StIdle)
    (hfits : stateAt KmacEnMasking inp t ≠ .StCtrlRandom →
      CtrlRegs.CntFits (ctrlAt KmacEnMasking inp t).cnt.toNat (opStateAt KmacEnMasking inp t))
    (hreq : opStateAt KmacEnMasking inp t = .StAdv →
      (ctrlAt KmacEnMasking inp t).op_req (inp t) = true)
    (hrandom : stateAt KmacEnMasking inp (t + 1) ≠ .StCtrlRandom) :
    CtrlRegs.CntFits (ctrlAt KmacEnMasking inp (t + 1)).cnt.toNat
      (opStateAt KmacEnMasking inp (t + 1)) := by
  have hcnt := CtrlRegs.cnt_clock KmacEnMasking (ctrlAt KmacEnMasking inp t) (inp t)
  change CtrlRegs.CntFits ((ctrlAt KmacEnMasking inp t).clock KmacEnMasking (inp t)).cnt.toNat
    ((ctrlAt KmacEnMasking inp t).op (inp t)).state_d
  rw [hcnt]
  cases hearly : (stateAt KmacEnMasking inp t).early with
  | true =>
    obtain ⟨hack, hupdate, hstay | ⟨hreq, -⟩⟩ := CtrlRegs.op_of_idle (i := inp t) (hidle hearly)
    · rw [hack, hupdate, Bool.false_or, Bool.false_or, hstay]
      exact cnt_zero (hidle hearly) hfits hrandom
    · exact absurd hreq (by rw [CtrlRegs.op_req_of_early hearly]; exact Bool.false_ne_true)
  | false =>
    obtain ⟨hrreq, hrack⟩ := CtrlRegs.random_of_not_early (i := inp t) hearly
    have hfits := hfits fun hs => by rw [hs] at hearly; exact absurd hearly nofun
    rw [hrreq, hrack, Bool.or_false, Bool.or_false]
    by_cases hidle : opStateAt KmacEnMasking inp t = .StIdle
    · obtain ⟨hack, hupdate, hnext⟩ := CtrlRegs.op_of_idle (i := inp t) hidle
      rw [hidle] at hfits
      have hzero : (ctrlAt KmacEnMasking inp t).cnt.toNat = 0 := hfits
      rw [hack, hupdate, if_neg Bool.false_ne_true, if_neg Bool.false_ne_true, hzero]
      obtain hs | ⟨-, hs | hs⟩ := hnext <;> rw [hs]
      · rfl
      · exact Nat.zero_le 1
      · rfl
    · obtain ⟨hack, -, hs, -⟩ | ⟨hack, hupdate, hs, hadv, hcdi⟩ | ⟨hack, hupdate, -, hs⟩ :=
        CtrlRegs.op_of_busy (i := inp t) hidle
      · rw [hack, if_pos rfl, hs]
        rfl
      · rw [hack, hupdate, if_neg Bool.false_ne_true, if_pos rfl, hs]
        rw [show opStateAt KmacEnMasking inp t = .StAdv from hadv] at hfits
        have hle : (ctrlAt KmacEnMasking inp t).cnt.toNat ≤ 1 := hfits
        rw [CtrlRegs.cdi_cnt, if_pos (hreq hadv), BitVec.toNat_setWidth,
          show 2 ^ CdiWidth = 2 from rfl] at hcdi
        have hzero : (ctrlAt KmacEnMasking inp t).cnt.toNat = 0 := by omega
        rw [hzero]
        rfl
      · rw [hack, hupdate, if_neg Bool.false_ne_true, if_neg Bool.false_ne_true]
        obtain ⟨hs, -⟩ | ⟨hs, hs'⟩ := hs
        · rw [hs]
          exact hfits
        · rw [hs']
          rw [show opStateAt KmacEnMasking inp t = .StAdvAck from hs] at hfits
          exact (show (ctrlAt KmacEnMasking inp t).cnt.toNat = 1 from hfits).le

theorem Good.succ (hheld : Held KmacEnMasking inp) (h : Good KmacEnMasking inp t) :
    Good KmacEnMasking inp (t + 1) where
  early_idle := early_idle_succ h.early_idle
  busy_start hbusy := by
    obtain ⟨hstart, hnot⟩ := h.not_done hbusy
    exact (hheld t hstart hnot).1
  cnt_fits := cnt_fits_succ h.early_idle h.cnt_fits fun hadv =>
    h.op_req_of_busy (by rw [hadv]; exact OpState.noConfusion)

theorem good (hheld : Held KmacEnMasking inp) (t : ℕ) : Good KmacEnMasking inp t := by
  induction t with
  | zero => exact ⟨fun _ => rfl, fun h => absurd rfl h, fun _ => rfl⟩
  | succ t ih => exact ih.succ hheld

/-! ### Where a command was issued -/

theorem stateAt_succ (t : ℕ) : stateAt KmacEnMasking inp (t + 1) =
    (ctrlAt KmacEnMasking inp t).state_d KmacEnMasking (inp t) := rfl

theorem transAt (KmacEnMasking : Bool) (inp : ℕ → CtrlIn) (t : ℕ) :
    CtrlRegs.Trans KmacEnMasking (ctrlAt KmacEnMasking inp t) (inp t)
      (stateAt KmacEnMasking inp t) (stateAt KmacEnMasking inp (t + 1)) :=
  CtrlRegs.trans KmacEnMasking (ctrlAt KmacEnMasking inp t) (inp t)

theorem next_busy_of_req (hidle : opStateAt KmacEnMasking inp t = .StIdle)
    (hreq : (ctrlAt KmacEnMasking inp t).op_req (inp t) = true) :
    opStateAt KmacEnMasking inp (t + 1) ≠ .StIdle := by
  change ((ctrlAt KmacEnMasking inp t).op (inp t)).state_d ≠ _
  rw [CtrlRegs.op, show (ctrlAt KmacEnMasking inp t).op_state_q = .StIdle from hidle]
  simp only [CtrlRegs.adv_req, CtrlRegs.dis_req, CtrlRegs.id_req, CtrlRegs.gen_req, hreq,
    Bool.true_and, CtrlIn.dis_op]
  cases (inp t).adv_op <;> cases (inp t).gen_id_op <;> cases (inp t).gen_sw_op <;>
    cases (inp t).gen_hw_op <;> exact nofun

/-- In a state that accepts operations a command is done when the operation machine is. -/
theorem done_iff_ack (haccepts : (stateAt KmacEnMasking inp t).accepts = true)
    (hstart : (inp t).op_start_i = true) :
    DoneAt KmacEnMasking inp t ↔ (ctrlAt KmacEnMasking inp t).op_ack (inp t) = true := by
  rw [DoneAt, CtrlRegs.op_done_o_of_req (by rw [CtrlRegs.op_req_of_accepts haccepts, hstart])]

/-- A command that is not done leaves the state, unless the keys are wiped. -/
theorem state_of_not_done (haccepts : (stateAt KmacEnMasking inp t).accepts = true)
    (hack : (ctrlAt KmacEnMasking inp t).op_ack (inp t) = false)
    (hwipe : stateAt KmacEnMasking inp (t + 1) ≠ .StCtrlWipe) :
    stateAt KmacEnMasking inp (t + 1) = stateAt KmacEnMasking inp t := by
  have htrans := transAt KmacEnMasking inp t
  generalize stateAt KmacEnMasking inp t = s at htrans haccepts ⊢
  generalize stateAt KmacEnMasking inp (t + 1) = s' at htrans hwipe ⊢
  cases htrans with
  | opDisable _ _ _ hdis =>
    rw [CtrlRegs.dis_state, hack] at hdis
    exact absurd hdis Bool.false_ne_true
  | opAdvance _ _ _ hadv =>
    rw [CtrlRegs.adv_state, hack] at hadv
    exact absurd hadv Bool.false_ne_true
  | _ => first | rfl | exact absurd rfl hwipe | exact absurd haccepts Bool.false_ne_true

/-- A command that the operation machine takes up was issued in this cycle. -/
theorem issued_of_idle
    (haccepts : (stateAt KmacEnMasking inp t).accepts = true)
    (hidle : opStateAt KmacEnMasking inp t = .StIdle) (v : ℕ) (hv : t = v + 1) :
    (inp v).op_start_i = false ∨ DoneAt KmacEnMasking inp v := by
  subst hv
  by_contra hnot
  rw [not_or, Bool.not_eq_false] at hnot
  obtain ⟨hstart, hnot⟩ := hnot
  obtain hearly | haccepts' | hwipe := (stateAt KmacEnMasking inp v).cases
  · rw [DoneAt, CtrlRegs.op_done_o, CtrlRegs.op_req_of_early hearly, if_neg Bool.false_ne_true,
      CtrlRegs.fsm] at hnot
    rw [stateAt_succ, CtrlRegs.state_d] at haccepts
    rw [stateAt] at hearly
    cases hs : (ctrlAt KmacEnMasking inp v).state_q <;>
      simp only [hs] at hearly hnot haccepts <;> first
      | exact absurd hearly Bool.false_ne_true
      | exact absurd rfl hnot
      | (split_ifs at haccepts <;> exact absurd haccepts Bool.false_ne_true)
  · rw [done_iff_ack haccepts' hstart, Bool.not_eq_true] at hnot
    by_cases hidle' : opStateAt KmacEnMasking inp v = .StIdle
    · exact next_busy_of_req hidle' (by rw [CtrlRegs.op_req_of_accepts haccepts', hstart]) hidle
    · obtain ⟨hack, -⟩ | ⟨-, -, hs, -⟩ | ⟨-, -, hs, -⟩ := CtrlRegs.op_of_busy (i := inp v) hidle'
      · exact absurd hack (by rw [hnot]; exact Bool.false_ne_true)
      · exact absurd (hs.symm.trans hidle) nofun
      · exact hs hidle
  · rw [stateAt_succ, CtrlRegs.state_d, show (ctrlAt KmacEnMasking inp v).state_q = _ from hwipe,
      hstart] at haccepts
    exact absurd haccepts Bool.false_ne_true

/-- The operation under way was issued in the present state. -/
theorem underWay_of_busy (hheld : Held KmacEnMasking inp)
    (hbusy : opStateAt KmacEnMasking inp t ≠ .StIdle)
    (hwipe : stateAt KmacEnMasking inp t ≠ .StCtrlWipe) :
    ∃ u, UnderWay KmacEnMasking inp u t ∧
      ∀ v, u ≤ v → v ≤ t → stateAt KmacEnMasking inp v = stateAt KmacEnMasking inp t := by
  induction t with
  | zero => exact absurd rfl hbusy
  | succ t ih =>
    obtain ⟨hstart, hnot⟩ := (good hheld t).not_done hbusy
    have hgood := good hheld t
    by_cases hidle : opStateAt KmacEnMasking inp t = .StIdle
    · obtain ⟨hack, -, hstay | ⟨hreq, -⟩⟩ := CtrlRegs.op_of_idle (i := inp t) hidle
      · exact absurd hstay hbusy
      · have haccepts := (accepts_of_start hidle hreq).1
        have hsame := state_of_not_done haccepts hack hwipe
        refine ⟨t, (underWay_now hstart (issued_of_idle haccepts hidle)).succ hheld hnot, ?_⟩
        intro v hv hvt
        obtain rfl | rfl : v = t ∨ v = t + 1 := by omega
        · exact hsame.symm
        · rfl
    · have hnext : stateAt KmacEnMasking inp t ≠ .StCtrlWipe := by
        intro hs
        refine hwipe ?_
        rw [stateAt_succ, CtrlRegs.state_d, show (ctrlAt KmacEnMasking inp t).state_q = _ from hs,
          hstart]
        rfl
      obtain hearly | haccepts | hs := (stateAt KmacEnMasking inp t).cases
      · exact absurd (hgood.early_idle hearly) hidle
      · rw [done_iff_ack haccepts hstart, Bool.not_eq_true] at hnot
        have hsame := state_of_not_done haccepts hnot hwipe
        obtain ⟨u, hunder, hstates⟩ := ih hidle hnext
        refine ⟨u, hunder.succ hheld ?_, fun v hu hv => ?_⟩
        · rw [done_iff_ack haccepts hstart, hnot]
          exact Bool.false_ne_true
        · obtain hle | rfl := Nat.le_succ_iff.1 hv
          · rw [hsame, hstates v hu hle]
          · rfl
      · exact absurd hs hnext

theorem not_done_of_loading (hs : stateAt KmacEnMasking inp t = .StCtrlEntropyReseed ∨
    stateAt KmacEnMasking inp t = .StCtrlRandom) : ¬DoneAt KmacEnMasking inp t := by
  rw [DoneAt, CtrlRegs.op_done_o, CtrlRegs.op_req, CtrlRegs.fsm]
  obtain hs | hs := hs <;> rw [show (ctrlAt KmacEnMasking inp t).state_q = _ from hs] <;>
    exact Bool.false_ne_true

theorem reset_of_reset_succ (hs : stateAt KmacEnMasking inp (t + 1) = .StCtrlReset) :
    stateAt KmacEnMasking inp t = .StCtrlReset ∧ (inp t).advance_sel = false := by
  have htrans := transAt KmacEnMasking inp t
  rw [hs] at htrans
  generalize stateAt KmacEnMasking inp t = s at htrans ⊢
  cases htrans with
  | resetStay hsel => exact ⟨rfl, hsel⟩
  | opAdvance hadv => cases hadv
  | opStay hadv => cases hadv

/-- The state before the root key is loaded, and whether an advance led to it. -/
theorem before_loading (hs : stateAt KmacEnMasking inp (t + 1) = .StCtrlEntropyReseed ∨
    stateAt KmacEnMasking inp (t + 1) = .StCtrlRandom ∨
    stateAt KmacEnMasking inp (t + 1) = .StCtrlRootKey) :
    stateAt KmacEnMasking inp t = .StCtrlReset ∧ (inp t).advance_sel = true ∨
      stateAt KmacEnMasking inp t = .StCtrlEntropyReseed ∨
      stateAt KmacEnMasking inp t = .StCtrlRandom := by
  have htrans := transAt KmacEnMasking inp t
  generalize stateAt KmacEnMasking inp t = s at htrans ⊢
  generalize stateAt KmacEnMasking inp (t + 1) = s' at htrans hs
  cases htrans with
  | resetAdvance hsel => exact .inl ⟨rfl, hsel⟩
  | reseedStay | reseedAck => exact .inr (.inl rfl)
  | randomStay | randomLast => exact .inr (.inr rfl)
  | opAdvance hadv => cases hadv <;> simp at hs
  | opStay hadv => cases hadv <;> simp at hs
  | _ => simp at hs

/-- The advance that leaves the reset state is under way until the root key is loaded. -/
theorem underWay_of_loading (hheld : Held KmacEnMasking inp)
    (hloading : stateAt KmacEnMasking inp t = .StCtrlEntropyReseed ∨
      stateAt KmacEnMasking inp t = .StCtrlRandom ∨ stateAt KmacEnMasking inp t = .StCtrlRootKey) :
    ∃ u, UnderWay KmacEnMasking inp u t ∧ stateAt KmacEnMasking inp u = .StCtrlReset ∧
      (inp u).adv_op = true ∧ (inp u).en_i = true := by
  induction t with
  | zero => obtain h | h | h := hloading <;> exact absurd h nofun
  | succ t ih =>
    obtain ⟨hreset, hsel⟩ | hloading := before_loading hloading
    · have hadv := hsel
      rw [CtrlIn.advance_sel, Bool.and_eq_true, Bool.and_eq_true] at hadv
      obtain ⟨⟨hstart, hop⟩, hen⟩ := hadv
      have hnot : ¬DoneAt KmacEnMasking inp t := by
        rw [DoneAt, CtrlRegs.op_done_o, CtrlRegs.op_req, CtrlRegs.fsm,
          show (ctrlAt KmacEnMasking inp t).state_q = _ from hreset, hsel]
        simp
      refine ⟨t, (underWay_now hstart ?_).succ hheld hnot, hreset, hop, hen⟩
      rintro v rfl
      obtain ⟨hreset', hsel'⟩ := reset_of_reset_succ hreset
      by_contra hboth
      rw [not_or, Bool.not_eq_false, DoneAt, CtrlRegs.op_done_o, CtrlRegs.op_req, CtrlRegs.fsm,
        show (ctrlAt KmacEnMasking inp v).state_q = _ from hreset', hsel'] at hboth
      simp [hboth.1] at hboth
    · obtain ⟨u, hunder, hreset, hop, hen⟩ := ih (by tauto)
      exact ⟨u, hunder.succ hheld (not_done_of_loading hloading), hreset, hop, hen⟩

end Good

/-! ### The working states -/

/-- The place of a working state in the life of the key manager. -/
def WorkingState.level : WorkingState → ℕ
  | .StReset => 0
  | .StInit => 1
  | .StCreatorRootKey => 2
  | .StOwnerIntKey => 3
  | .StOwnerKey => 4
  | .StDisabled => 5
  | .StInvalid => 6

section Working

variable {KmacEnMasking : Bool} {inp : ℕ → CtrlIn} {t : ℕ}

def workingAt (KmacEnMasking : Bool) (inp : ℕ → CtrlIn) (t : ℕ) : WorkingState :=
  (ctrlAt KmacEnMasking inp t).working_state_o

/-- An operation completes in cycle `t` without an error of its own and without a fault. -/
def CleanlyDone (KmacEnMasking : Bool) (inp : ℕ → CtrlIn) (t : ℕ) : Prop :=
  (inp t).op_start_i = true ∧ DoneAt KmacEnMasking inp t ∧ (inp t).en_i = true ∧
    (ctrlAt KmacEnMasking inp t).op_err KmacEnMasking (inp t) = false ∧
    (ctrlAt KmacEnMasking inp t).fault KmacEnMasking (inp t) = false

/-- The command of cycle `t` was issued in the state that it is still in. -/
def IssuedHere (KmacEnMasking : Bool) (inp : ℕ → CtrlIn) (t : ℕ) : Prop :=
  ∃ u, UnderWay KmacEnMasking inp u t ∧
    ∀ v, u ≤ v → v ≤ t → stateAt KmacEnMasking inp v = stateAt KmacEnMasking inp t

theorem workingAt_wipe (hs : stateAt KmacEnMasking inp (t + 1) = .StCtrlWipe) :
    workingAt KmacEnMasking inp (t + 1) = workingAt KmacEnMasking inp t := by
  rw [workingAt, CtrlRegs.working_state_o,
    show (ctrlAt KmacEnMasking inp (t + 1)).state_q = _ from hs]
  change (if (ctrlAt KmacEnMasking inp t).state_q = .StCtrlWipe then _ else _) = _
  split_ifs with hwipe
  · rw [workingAt, CtrlRegs.working_state_o, hwipe]
  · rfl

/-- The completion of an operation in a state of software operations. -/
theorem done_of_ack (hheld : Held KmacEnMasking inp)
    (hack : (ctrlAt KmacEnMasking inp t).op_ack (inp t) = true)
    (hwipe : stateAt KmacEnMasking inp t ≠ .StCtrlWipe) :
    (inp t).op_start_i = true ∧ DoneAt KmacEnMasking inp t ∧ IssuedHere KmacEnMasking inp t := by
  have hbusy : opStateAt KmacEnMasking inp t ≠ .StIdle := fun hidle => by
    rw [(CtrlRegs.op_of_idle (i := inp t) hidle).1] at hack
    exact absurd hack Bool.false_ne_true
  have hgood := good hheld t
  refine ⟨hgood.busy_start hbusy, ?_, underWay_of_busy hheld hbusy hwipe⟩
  rw [DoneAt, CtrlRegs.op_done_o_of_req (hgood.op_req_of_busy hbusy), hack]

theorem Advances.ne_wipe {s next : CtrlState} (h : CtrlRegs.Advances s next) :
    s ≠ .StCtrlWipe := by
  cases h <;> exact nofun

/-- Every change of the working state, with the command that brings it. -/
theorem working_change (hheld : Held KmacEnMasking inp)
    (hne : workingAt KmacEnMasking inp (t + 1) ≠ workingAt KmacEnMasking inp t) :
    (stateAt KmacEnMasking inp t = .StCtrlRandom ∧
      stateAt KmacEnMasking inp (t + 1) = .StCtrlRootKey ∧ DoneAt KmacEnMasking inp (t + 1) ∧
      ∃ u, UnderWay KmacEnMasking inp u (t + 1) ∧ stateAt KmacEnMasking inp u = .StCtrlReset ∧
        (inp u).adv_op = true ∧ (inp u).en_i = true) ∨
    (CtrlRegs.Advances (stateAt KmacEnMasking inp t) (stateAt KmacEnMasking inp (t + 1)) ∧
      (inp t).adv_op = true ∧ CleanlyDone KmacEnMasking inp t ∧ IssuedHere KmacEnMasking inp t) ∨
    ((∃ next, CtrlRegs.Advances (stateAt KmacEnMasking inp t) next) ∧
      stateAt KmacEnMasking inp (t + 1) = .StCtrlDisabled ∧
      (inp t).dis_op = true ∧ DoneAt KmacEnMasking inp t ∧ IssuedHere KmacEnMasking inp t) ∨
    stateAt KmacEnMasking inp t = .StCtrlWipe ∧
      stateAt KmacEnMasking inp (t + 1) = .StCtrlInvalid := by
  have htrans := transAt KmacEnMasking inp t
  generalize hs : stateAt KmacEnMasking inp t = s at htrans ⊢
  generalize hs' : stateAt KmacEnMasking inp (t + 1) = s' at htrans ⊢
  have hworking (hsame : (ctrlAt KmacEnMasking inp (t + 1)).working_state_o =
      (ctrlAt KmacEnMasking inp t).working_state_o) : False := hne hsame
  cases htrans with
  | randomLast hlast =>
    refine .inl ⟨rfl, rfl, ?_, underWay_of_loading hheld (.inr (.inr hs'))⟩
    rw [DoneAt, CtrlRegs.op_done_o, CtrlRegs.op_req, CtrlRegs.fsm,
      show (ctrlAt KmacEnMasking inp (t + 1)).state_q = _ from hs']
    rfl
  | opAdvance hadvances hen hok hadv =>
    rw [CtrlRegs.adv_state, Bool.and_eq_true, Bool.and_eq_true, CtrlRegs.adv_req, Bool.and_eq_true,
      Bool.not_eq_true'] at hadv
    obtain ⟨⟨hack, -, hop⟩, herr⟩ := hadv
    obtain ⟨hstart, hdone, hissued⟩ := done_of_ack hheld hack (hs ▸ Advances.ne_wipe hadvances)
    exact .inr (.inl ⟨hadvances, hop, ⟨hstart, hdone, hen, herr, hok⟩, hissued⟩)
  | opDisable hadvances hen hok hdis =>
    rw [CtrlRegs.dis_state, Bool.and_eq_true, CtrlRegs.dis_req, Bool.and_eq_true] at hdis
    obtain ⟨hack, -, hop⟩ := hdis
    obtain ⟨-, hdone, hissued⟩ := done_of_ack hheld hack (hs ▸ Advances.ne_wipe hadvances)
    exact .inr (.inr (.inl ⟨⟨_, hadvances⟩, rfl, hop, hdone, hissued⟩))
  | wipeDone => exact .inr (.inr (.inr ⟨rfl, rfl⟩))
  | opStay hadvances =>
    refine absurd ?_ hne
    simp only [workingAt, CtrlRegs.working_state_o,
      show (ctrlAt KmacEnMasking inp t).state_q = _ from hs,
      show (ctrlAt KmacEnMasking inp (t + 1)).state_q = _ from hs']
    cases hadvances <;> rfl
  | resetWipe | rootWipe | opWipe | wipeStay | disabledWipe => exact absurd (workingAt_wipe hs') hne
  | _ =>
    refine absurd ?_ hne
    simp only [workingAt, CtrlRegs.working_state_o,
      show (ctrlAt KmacEnMasking inp t).state_q = _ from hs,
      show (ctrlAt KmacEnMasking inp (t + 1)).state_q = _ from hs']

/-- The place of a state of the main machine. -/
def CtrlState.rank : CtrlState → ℕ
  | .StCtrlReset => 0
  | .StCtrlEntropyReseed => 1
  | .StCtrlRandom => 2
  | .StCtrlRootKey => 3
  | .StCtrlInit => 4
  | .StCtrlCreatorRootKey => 5
  | .StCtrlOwnerIntKey => 6
  | .StCtrlOwnerKey => 7
  | .StCtrlDisabled => 8
  | .StCtrlWipe => 9
  | .StCtrlInvalid => 10

theorem Advances.rank_lt {s next : CtrlState} (h : CtrlRegs.Advances s next) :
    s.rank < next.rank ∧ s.rank < 8 := by
  cases h <;> decide

theorem rank_le_succ (t : ℕ) :
    (stateAt KmacEnMasking inp t).rank ≤ (stateAt KmacEnMasking inp (t + 1)).rank := by
  have htrans := transAt KmacEnMasking inp t
  generalize stateAt KmacEnMasking inp t = s at htrans ⊢
  generalize stateAt KmacEnMasking inp (t + 1) = s' at htrans ⊢
  cases htrans with
  | opDisable hadv => exact (Advances.rank_lt hadv).2.le
  | opWipe hadv => exact (Advances.rank_lt hadv).2.le.trans (Nat.le_succ 8)
  | opAdvance hadv => exact (Advances.rank_lt hadv).1.le
  | _ => first | exact Nat.le_refl _ | decide

/-- The main machine never goes back. -/
theorem rank_le_add (t n : ℕ) :
    (stateAt KmacEnMasking inp t).rank ≤ (stateAt KmacEnMasking inp (t + n)).rank := by
  induction n with
  | zero => exact Nat.le_refl _
  | succ n ih => exact ih.trans (rank_le_succ (t + n))

end Working

end SecureBoot.Keymgr
