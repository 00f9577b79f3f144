import SecureBoot.Keymgr.CtrlState

/-! Two runs of the key manager that reach the wipe state and see the same inputs from there
on: after the first cycle their keys and key outputs are the same. -/

namespace SecureBoot.Keymgr

namespace CtrlRegs

variable {KmacEnMasking : Bool} {r r' : CtrlRegs} {i : CtrlIn}

/-! ### Wiping -/

section Wipe

variable (h : r.state_q = .StCtrlWipe)

include h

theorem update_sel_of_wipe : r.update_sel KmacEnMasking i = .KeyUpdateWipe := by
  rw [update_sel, fsm, h]
  rfl

/-- The wipe writes entropy over all of the key state. -/
theorem key_state_of_wipe :
    (r.clock KmacEnMasking i).key_state_q = fun _ => entropyKey i.entropy_i := by
  change r.key_state_d KmacEnMasking i = _
  rw [key_state_d, update_sel_of_wipe h]

theorem key_of_wipe : (r.key_o i).key = entropyKey i.entropy_i := by
  simp only [key_o, fsm, h, if_true]

theorem state_d_of_wipe (KmacEnMasking : Bool) (i : CtrlIn) :
    r.state_d KmacEnMasking i = if i.op_start_i then .StCtrlWipe else .StCtrlInvalid := by
  rw [state_d, h]
  cases i.op_start_i <;> rfl

end Wipe

/-! ### After the wipe -/

/-- What the invalid state goes by: the operation machine and its counter. -/
structure SameOp (r r' : CtrlRegs) : Prop where
  op_state_q : r.op_state_q = r'.op_state_q
  cnt : r.cnt = r'.cnt

section Invalid

variable (h : r.state_q = .StCtrlInvalid) (h' : r'.state_q = .StCtrlInvalid)

include h

theorem fsm_of_invalid : r.fsm i = { op_req := i.op_start_i, invalid := true } := by
  rw [fsm, h]

theorem op_req_of_invalid : r.op_req i = i.op_start_i := by
  rw [op_req, fsm_of_invalid h]

theorem key_of_invalid : (r.key_o i).key = entropyKey i.entropy_i := by
  simp only [key_o, fsm_of_invalid h, if_true]

theorem update_sel_of_invalid : r.update_sel KmacEnMasking i =
    if r.op_ack i || r.op_update i then .KeyUpdateKmac else .KeyUpdateIdle := by
  have hload : r.ld_root_key KmacEnMasking i = false := by rw [ld_root_key, h]; rfl
  simp only [update_sel, fsm_of_invalid h, hload, op_update_sel, Bool.or_self,
    Bool.false_eq_true, if_false, if_true]

include h'

theorem SameOp.cdi_cnt (hsame : SameOp r r') : r.cdi_cnt i = r'.cdi_cnt i := by
  rw [CtrlRegs.cdi_cnt, CtrlRegs.cdi_cnt, op_req_of_invalid h, op_req_of_invalid h', hsame.cnt]

theorem SameOp.op (hsame : SameOp r r') : r.op i = r'.op i := by
  simp only [CtrlRegs.op, hsame.op_state_q, hsame.cdi_cnt h h', adv_req, dis_req, id_req, gen_req,
    op_req_of_invalid h, op_req_of_invalid h']

theorem SameOp.update_sel (hsame : SameOp r r') :
    r.update_sel KmacEnMasking i = r'.update_sel KmacEnMasking i := by
  rw [update_sel_of_invalid h, update_sel_of_invalid h', op_ack, op_ack, op_update, op_update,
    hsame.op h h']

theorem SameOp.clock (hsame : SameOp r r') :
    SameOp (r.clock KmacEnMasking i) (r'.clock KmacEnMasking i) where
  op_state_q := congrArg OpOut.state_d (hsame.op h h')
  cnt := by
    change cntD _ _ r.cnt (r.op_ack i || (r.fsm i).random_ack) _
        (r.op_update i || (r.fsm i).random_req) _ _ =
      cntD _ _ r'.cnt (r'.op_ack i || (r'.fsm i).random_ack) _
        (r'.op_update i || (r'.fsm i).random_req) _ _
    rw [fsm_of_invalid h, fsm_of_invalid h', op_ack, op_ack, op_update, op_update, hsame.op h h',
      hsame.cnt]

/-- In the invalid state equal key states stay equal. -/
theorem SameOp.key_state (hsame : SameOp r r') (hkey : r.key_state_q = r'.key_state_q) :
    (r.clock KmacEnMasking i).key_state_q = (r'.clock KmacEnMasking i).key_state_q := by
  change r.key_state_d KmacEnMasking i = r'.key_state_d KmacEnMasking i
  have hcdi : r.cdi_sel_o i = r'.cdi_sel_o i := by
    rw [cdi_sel_o, cdi_sel_o, hsame.cdi_cnt h h']
  rw [key_state_d, key_state_d, hsame.update_sel h h', update_sel_of_invalid h', hkey, hcdi]
  split_ifs <;> rfl

end Invalid

end CtrlRegs

/-! ### Two runs -/

section Runs

variable {KmacEnMasking : Bool} {inp inp' : ℕ → CtrlIn} {t t' : ℕ}

/-- Two runs in or after their wipe. -/
inductive Wiped (r r' : CtrlRegs) : Prop
  | wiping (h : r.state_q = .StCtrlWipe) (h' : r'.state_q = .StCtrlWipe)
  | invalid (h : r.state_q = .StCtrlInvalid) (h' : r'.state_q = .StCtrlInvalid)
    (hsame : CtrlRegs.SameOp r r')

/-- A wipe that ends leaves an idle operation machine with its counter at zero. -/
theorem Good.idle_of_wiped (hheld : Held KmacEnMasking inp)
    (hs : stateAt KmacEnMasking inp t = .StCtrlWipe) (hstart : (inp t).op_start_i = false) :
    opStateAt KmacEnMasking inp (t + 1) = .StIdle ∧ (ctrlAt KmacEnMasking inp (t + 1)).cnt = 0 := by
  have hidle : opStateAt KmacEnMasking inp (t + 1) = .StIdle := by
    by_contra hbusy
    rw [((good hheld t).not_done hbusy).1] at hstart
    exact absurd hstart.symm Bool.false_ne_true
  have hfits := (good hheld (t + 1)).cnt_fits (by
    rw [stateAt_succ, CtrlRegs.state_d_of_wipe hs _ _, hstart]
    exact CtrlState.noConfusion)
  rw [hidle] at hfits
  exact ⟨hidle, BitVec.eq_of_toNat_eq hfits⟩

theorem Wiped.succ (hheld : Held KmacEnMasking inp) (hheld' : Held KmacEnMasking inp')
    (heq : inp t = inp' t')
    (h : Wiped (ctrlAt KmacEnMasking inp t) (ctrlAt KmacEnMasking inp' t')) :
    Wiped (ctrlAt KmacEnMasking inp (t + 1)) (ctrlAt KmacEnMasking inp' (t' + 1)) := by
  cases h with
  | wiping hs hs' =>
    have hnext := CtrlRegs.state_d_of_wipe hs KmacEnMasking (inp t)
    have hnext' := CtrlRegs.state_d_of_wipe hs' KmacEnMasking (inp' t')
    rw [← heq] at hnext'
    cases hstart : (inp t).op_start_i with
    | true => exact .wiping (by rw [hstart] at hnext; exact hnext) (by
        rw [hstart] at hnext'
        change (ctrlAt KmacEnMasking inp' t').state_d KmacEnMasking (inp' t') = _
        rw [← heq]
        exact hnext')
    | false =>
      obtain ⟨hidle, hcnt⟩ := Good.idle_of_wiped hheld hs hstart
      obtain ⟨hidle', hcnt'⟩ := Good.idle_of_wiped hheld' hs' (heq ▸ hstart)
      refine .invalid (by rw [hstart] at hnext; exact hnext) ?_
        ⟨hidle.trans hidle'.symm, hcnt.trans hcnt'.symm⟩
      rw [hstart] at hnext'
      change (ctrlAt KmacEnMasking inp' t').state_d KmacEnMasking (inp' t') = _
      rw [← heq]
      exact hnext'
  | invalid hs hs' hsame =>
    refine .invalid ?_ ?_ ?_
    · change (ctrlAt KmacEnMasking inp t).state_d KmacEnMasking (inp t) = _
      rw [CtrlRegs.state_d, hs]
    · change (ctrlAt KmacEnMasking inp' t').state_d KmacEnMasking (inp' t') = _
      rw [CtrlRegs.state_d, hs']
    · change CtrlRegs.SameOp ((ctrlAt KmacEnMasking inp t).clock KmacEnMasking (inp t))
        ((ctrlAt KmacEnMasking inp' t').clock KmacEnMasking (inp' t'))
      rw [← heq]
      exact hsame.clock hs hs'

/-- Whatever the keys were, after one more cycle they are the same. -/
theorem Wiped.key_state (heq : inp t = inp' t')
    (h : Wiped (ctrlAt KmacEnMasking inp t) (ctrlAt KmacEnMasking inp' t'))
    (hkey : stateAt KmacEnMasking inp t ≠ .StCtrlWipe →
      (ctrlAt KmacEnMasking inp t).key_state_q = (ctrlAt KmacEnMasking inp' t').key_state_q) :
    (ctrlAt KmacEnMasking inp (t + 1)).key_state_q =
      (ctrlAt KmacEnMasking inp' (t' + 1)).key_state_q := by
  change ((ctrlAt KmacEnMasking inp t).clock KmacEnMasking (inp t)).key_state_q =
    ((ctrlAt KmacEnMasking inp' t').clock KmacEnMasking (inp' t')).key_state_q
  rw [← heq]
  cases h with
  | wiping hs hs' => rw [CtrlRegs.key_state_of_wipe hs, CtrlRegs.key_state_of_wipe hs']
  | invalid hs hs' hsame =>
    exact hsame.key_state hs hs' (hkey (by rw [stateAt, hs]; exact CtrlState.noConfusion))

/-- What the key manager shows of its keys in a cycle. -/
structure SameKeys (KmacEnMasking : Bool) (r r' : CtrlRegs) (i i' : CtrlIn) : Prop where
  key_state_q : r.key_state_q = r'.key_state_q
  key : (r.key_o i).key = (r'.key_o i').key
  data_valid_o : r.data_valid_o KmacEnMasking i = r'.data_valid_o KmacEnMasking i'
  wipe_key_o : r.wipe_key_o KmacEnMasking i = r'.wipe_key_o KmacEnMasking i'

theorem Wiped.sameKeys {r r' : CtrlRegs} {i : CtrlIn} (h : Wiped r r')
    (hkey : r.key_state_q = r'.key_state_q) : SameKeys KmacEnMasking r r' i i := by
  cases h with
  | wiping hs hs' =>
    refine ⟨hkey, by rw [CtrlRegs.key_of_wipe hs, CtrlRegs.key_of_wipe hs'], ?_, ?_⟩
    · rw [CtrlRegs.data_valid_o, CtrlRegs.data_valid_o, CtrlRegs.update_sel_of_wipe hs,
        CtrlRegs.update_sel_of_wipe hs']
    · rw [CtrlRegs.wipe_key_o, CtrlRegs.wipe_key_o, CtrlRegs.update_sel_of_wipe hs,
        CtrlRegs.update_sel_of_wipe hs']
  | invalid hs hs' hsame =>
    refine ⟨hkey, by rw [CtrlRegs.key_of_invalid hs, CtrlRegs.key_of_invalid hs'], ?_, ?_⟩
    · rw [CtrlRegs.data_valid_o, CtrlRegs.data_valid_o, hsame.update_sel hs hs']
    · rw [CtrlRegs.wipe_key_o, CtrlRegs.wipe_key_o, hsame.update_sel hs hs']

theorem wiped_add (hheld : Held KmacEnMasking inp) (hheld' : Held KmacEnMasking inp')
    (hs : stateAt KmacEnMasking inp t = .StCtrlWipe)
    (hs' : stateAt KmacEnMasking inp' t' = .StCtrlWipe)
    (heq : ∀ j, inp (t + j) = inp' (t' + j)) (j : ℕ) :
    Wiped (ctrlAt KmacEnMasking inp (t + j)) (ctrlAt KmacEnMasking inp' (t' + j)) := by
  induction j with
  | zero => exact .wiping hs hs'
  | succ j ih => exact ih.succ hheld hheld' (heq j)

/-- After a wipe nothing that is shown depends on the keys before it. -/
theorem sameKeys_after_wipe (hheld : Held KmacEnMasking inp) (hheld' : Held KmacEnMasking inp')
    (hs : stateAt KmacEnMasking inp t = .StCtrlWipe)
    (hs' : stateAt KmacEnMasking inp' t' = .StCtrlWipe)
    (heq : ∀ j, inp (t + j) = inp' (t' + j)) (j : ℕ) :
    SameKeys KmacEnMasking (ctrlAt KmacEnMasking inp (t + j + 1))
      (ctrlAt KmacEnMasking inp' (t' + j + 1)) (inp (t + j + 1)) (inp' (t' + j + 1)) := by
  have hwiped := wiped_add hheld hheld' hs hs' heq
  have hkey : (ctrlAt KmacEnMasking inp (t + j + 1)).key_state_q =
      (ctrlAt KmacEnMasking inp' (t' + j + 1)).key_state_q := by
    induction j with
    | zero => exact (hwiped 0).key_state (heq 0) fun hne => absurd hs hne
    | succ j ih => exact (hwiped (j + 1)).key_state (heq (j + 1)) fun _ => ih
  have hin : inp (t + j + 1) = inp' (t' + j + 1) := heq (j + 1)
  rw [← hin]
  exact (hwiped (j + 1)).sameKeys hkey

/-- A command that is done is taken back. -/
def Released (KmacEnMasking : Bool) (inp : ℕ → CtrlIn) : Prop :=
  ∀ t, (inp t).op_start_i = true → DoneAt KmacEnMasking inp t → (inp (t + 1)).op_start_i = false

/-- A wipe lasts as long as the operation that it found. -/
theorem op_req_of_wiped (hheld : Held KmacEnMasking inp) (hreleased : Released KmacEnMasking inp)
    (hs : stateAt KmacEnMasking inp t = .StCtrlWipe)
    (hs' : stateAt KmacEnMasking inp (t + 1) = .StCtrlWipe) :
    (ctrlAt KmacEnMasking inp (t + 1)).op_req (inp (t + 1)) = (inp (t + 1)).op_start_i := by
  have hstart : (inp t).op_start_i = true := by
    rw [stateAt_succ, CtrlRegs.state_d_of_wipe hs _ _] at hs'
    by_contra hne
    rw [if_neg hne] at hs'
    exact CtrlState.noConfusion hs'
  rw [CtrlRegs.op_req_of_wipe hs']
  cases hnext : (inp (t + 1)).op_start_i with
  | false =>
    refine bne_eq_false_iff_eq.2 ?_
    by_contra hbusy
    rw [(good hheld (t + 1)).busy_start hbusy] at hnext
    exact absurd hnext.symm Bool.false_ne_true
  | true =>
    have hnot : ¬DoneAt KmacEnMasking inp t := fun hdone => by
      rw [hreleased t hstart hdone] at hnext
      exact absurd hnext Bool.false_ne_true
    have hbusy : opStateAt KmacEnMasking inp t ≠ .StIdle := fun hidle => by
      refine hnot ?_
      rw [DoneAt, CtrlRegs.op_done_o, CtrlRegs.op_req_of_wipe hs, CtrlRegs.op_busy,
        show (ctrlAt KmacEnMasking inp t).op_state_q = _ from hidle, CtrlRegs.fsm,
        show (ctrlAt KmacEnMasking inp t).state_q = _ from hs, hstart]
      rfl
    have hreq := (good hheld t).op_req_of_busy hbusy
    rw [DoneAt, CtrlRegs.op_done_o_of_req hreq, Bool.not_eq_true] at hnot
    refine bne_iff_ne.2 ?_
    change ((ctrlAt KmacEnMasking inp t).op (inp t)).state_d ≠ _
    obtain ⟨hack, -⟩ | ⟨-, -, hadv, -⟩ | ⟨-, -, hne, -⟩ := CtrlRegs.op_of_busy (i := inp t) hbusy
    · exact Bool.noConfusion (hack.symm.trans hnot)
    · rw [hadv]
      exact OpState.noConfusion
    · exact hne

/-- The key is offered as long as there is a command, in every run. -/
theorem valid_after_wipe (hheld : Held KmacEnMasking inp) (hreleased : Released KmacEnMasking inp)
    {r' r'' : CtrlRegs} (h : Wiped (ctrlAt KmacEnMasking inp t) r')
    (hnext : Wiped (ctrlAt KmacEnMasking inp (t + 1)) r'') :
    ((ctrlAt KmacEnMasking inp (t + 1)).key_o (inp (t + 1))).valid =
      (inp (t + 1)).op_start_i := by
  cases hnext with
  | invalid hs => exact CtrlRegs.op_req_of_invalid hs
  | wiping hs =>
    cases h with
    | wiping hs' => exact op_req_of_wiped hheld hreleased hs' hs
    | invalid hs' =>
      change (ctrlAt KmacEnMasking inp t).state_d KmacEnMasking (inp t) = _ at hs
      rw [CtrlRegs.state_d, hs'] at hs
      exact CtrlState.noConfusion hs

end Runs

end SecureBoot.Keymgr
