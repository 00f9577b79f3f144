import SecureBoot.Keymgr.CtrlWipe

/-! The life of the key manager: by which commands its working states are entered, and what
a wipe leaves. -/

namespace SecureBoot.Keymgr

section Order

variable (KmacEnMasking : Bool) (inp : ℕ → CtrlIn) (t : ℕ)

/-- How a working state gives way to the next one between cycle `t` and cycle `t + 1`. -/
inductive Entered : WorkingState → WorkingState → Prop
  /-- The advance issued in reset is done in the first cycle of the init state. -/
  | init (u : ℕ) (hdone : DoneAt KmacEnMasking inp (t + 1))
    (hunder : UnderWay KmacEnMasking inp u (t + 1))
    (hreset : stateAt KmacEnMasking inp u = .StCtrlReset) (hop : (inp u).adv_op = true)
    (hen : (inp u).en_i = true) : Entered .StReset .StInit
  | advance {w w' : WorkingState} (hlevel : w'.level = w.level + 1) (hpos : 0 < w.level)
    (hle : w'.level ≤ WorkingState.StDisabled.level) (hop : (inp t).adv_op = true)
    (hdone : CleanlyDone KmacEnMasking inp t) (hissued : IssuedHere KmacEnMasking inp t) :
    Entered w w'
  | disable {w : WorkingState} (hpos : 0 < w.level) (hlt : w.level < WorkingState.StDisabled.level)
    (hop : (inp t).dis_op = true) (hdone : DoneAt KmacEnMasking inp t)
    (hissued : IssuedHere KmacEnMasking inp t) : Entered w .StDisabled
  | invalid {w : WorkingState} (hwipe : stateAt KmacEnMasking inp t = .StCtrlWipe)
    (hle : w.level ≤ WorkingState.StInvalid.level) : Entered w .StInvalid

end Order

variable {KmacEnMasking : Bool} {inp : ℕ → CtrlIn} {t : ℕ}

theorem WorkingState.level_le_invalid (w : WorkingState) :
    w.level ≤ WorkingState.StInvalid.level := by
  cases w <;> decide

/-- The levels of the states that an advance goes between. -/
theorem Advances.working {t : ℕ}
    (h : CtrlRegs.Advances (stateAt KmacEnMasking inp t) (stateAt KmacEnMasking inp (t + 1))) :
    (workingAt KmacEnMasking inp (t + 1)).level = (workingAt KmacEnMasking inp t).level + 1 ∧
      0 < (workingAt KmacEnMasking inp t).level ∧
      (workingAt KmacEnMasking inp (t + 1)).level ≤ WorkingState.StDisabled.level := by
  simp only [workingAt, CtrlRegs.working_state_o]
  simp only [stateAt] at h
  generalize (ctrlAt KmacEnMasking inp t).state_q = s at h ⊢
  generalize (ctrlAt KmacEnMasking inp (t + 1)).state_q = s' at h ⊢
  cases h <;> exact ⟨rfl, Nat.succ_pos _, Nat.le_of_ble_eq_true rfl⟩

theorem Advances.level {next : CtrlState}
    (h : CtrlRegs.Advances (stateAt KmacEnMasking inp t) next) :
    0 < (workingAt KmacEnMasking inp t).level ∧
      (workingAt KmacEnMasking inp t).level < WorkingState.StDisabled.level := by
  simp only [workingAt, CtrlRegs.working_state_o]
  simp only [stateAt] at h
  generalize (ctrlAt KmacEnMasking inp t).state_q = s at h ⊢
  cases h <;> exact ⟨Nat.succ_pos _, Nat.le_of_ble_eq_true rfl⟩

theorem entered_of_change (hheld : Held KmacEnMasking inp)
    (hne : workingAt KmacEnMasking inp (t + 1) ≠ workingAt KmacEnMasking inp t) :
    Entered KmacEnMasking inp t (workingAt KmacEnMasking inp t)
      (workingAt KmacEnMasking inp (t + 1)) := by
  have hworking (n : ℕ) (s : CtrlState) (hs : stateAt KmacEnMasking inp n = s) :
      workingAt KmacEnMasking inp n =
        { ctrlAt KmacEnMasking inp n with state_q := s }.working_state_o := by
    rw [workingAt, ← hs]
    rfl
  obtain ⟨hs, hs', hdone, u, hunder, hreset, hop, hen⟩ | ⟨hadv, hop, hdone, hissued⟩ |
    ⟨⟨next, hadv⟩, hs', hop, hdone, hissued⟩ | ⟨hs, hs'⟩ := working_change hheld hne
  · rw [hworking t _ hs, hworking (t + 1) _ hs']
    exact .init u hdone hunder hreset hop hen
  · obtain ⟨hlevel, hpos, hle⟩ := Advances.working hadv
    exact .advance hlevel hpos hle hop hdone hissued
  · obtain ⟨hpos, hlt⟩ := Advances.level hadv
    rw [hworking (t + 1) _ hs']
    exact .disable hpos hlt hop hdone hissued
  · rw [hworking (t + 1) _ hs']
    exact .invalid hs (WorkingState.level_le_invalid _)

/-! ### Runs -/

/-- A cycle without a command and without an error. -/
def quietIn : CtrlIn where
  en_i := true
  regfile_intg_err_i := false
  shadowed_update_err_i := false
  shadowed_storage_err_i := false
  reseed_cnt_err_i := false
  sideload_sel_err_i := false
  sideload_fsm_err_i := false
  op_start_i := false
  op_i := 0
  op_cdi_sel_i := 0
  root_key_i := ⟨true, 1, 2⟩
  kmac_done_i := true
  kmac_input_invalid_i := false
  kmac_fsm_err_i := false
  kmac_op_err_i := false
  kmac_done_err_i := false
  kmac_cmd_err_i := false
  kmac_data_i := fun _ => 1
  entropy_i := fun _ => 3
  prng_reseed_ack_i := true
  ecc_err := false
  data_fsm_err := false

/-- An advance out of reset, done in cycle 10, and then always `next`. -/
def afterAdvance (next : CtrlIn) (t : ℕ) : CtrlIn :=
  if t ≤ 10 then { quietIn with op_start_i := true, op_i := CtrlIn.OpAdvance } else next

def thenDisable : ℕ → CtrlIn := afterAdvance { quietIn with op_start_i := true, op_i := 4 }

def faultyAdvance (t : ℕ) : CtrlIn :=
  { afterAdvance quietIn t with kmac_cmd_err_i := t == 5 }

def earlyFault (t : ℕ) : CtrlIn := { quietIn with regfile_intg_err_i := t == 0 }

def lateFault (t : ℕ) : CtrlIn := { afterAdvance quietIn t with regfile_intg_err_i := t == 11 }

theorem afterAdvance_succ (next : CtrlIn) {t : ℕ} (h : t ≠ 10) :
    afterAdvance next (t + 1) = afterAdvance next t := by
  rw [afterAdvance, afterAdvance]
  obtain hlt | hlt := lt_or_gt_of_ne h
  · rw [if_pos (Nat.succ_le_of_lt hlt), if_pos hlt.le]
  · rw [if_neg (Nat.not_le.2 hlt), if_neg (by omega)]

instance : Decidable (DoneAt KmacEnMasking inp t) :=
  inferInstanceAs (Decidable (_ = true))

theorem held_of_done (next : CtrlIn) (hdone : DoneAt true inp 10)
    (h : ∀ t, (inp t).op_start_i = (afterAdvance next t).op_start_i ∧
      (inp t).op_i = (afterAdvance next t).op_i ∧
      (inp t).op_cdi_sel_i = (afterAdvance next t).op_cdi_sel_i) : Held true inp := by
  intro t hstart hnot
  have hne : t ≠ 10 := fun heq => hnot (heq ▸ hdone)
  obtain ⟨hs, ho, hc⟩ := h t
  obtain ⟨hs', ho', hc'⟩ := h (t + 1)
  rw [afterAdvance_succ next hne] at hs' ho' hc'
  exact ⟨(hs'.trans hs.symm).trans hstart, ho'.trans ho.symm, hc'.trans hc.symm⟩

/-- The working states follow each other by the commands issued in them, no state is entered
again, and after a wipe the keys are those of any other run with the same inputs. -/
theorem keymgr_life (hheld : Held KmacEnMasking inp) :
    (∀ t, workingAt KmacEnMasking inp (t + 1) ≠ workingAt KmacEnMasking inp t →
      Entered KmacEnMasking inp t (workingAt KmacEnMasking inp t)
        (workingAt KmacEnMasking inp (t + 1))) ∧
    (∀ t n, (stateAt KmacEnMasking inp t).rank ≤ (stateAt KmacEnMasking inp (t + n)).rank) ∧
    ∀ inp', Held KmacEnMasking inp' → ∀ t t', stateAt KmacEnMasking inp t = .StCtrlWipe →
      stateAt KmacEnMasking inp' t' = .StCtrlWipe → (∀ j, inp (t + j) = inp' (t' + j)) → ∀ j,
      SameKeys KmacEnMasking (ctrlAt KmacEnMasking inp (t + j + 1))
        (ctrlAt KmacEnMasking inp' (t' + j + 1)) (inp (t + j + 1)) (inp' (t' + j + 1)) ∧
      (Released KmacEnMasking inp → Released KmacEnMasking inp' →
        (ctrlAt KmacEnMasking inp (t + j + 1)).key_o (inp (t + j + 1)) =
          (ctrlAt KmacEnMasking inp' (t' + j + 1)).key_o (inp' (t' + j + 1))) := by
  refine ⟨fun t => entered_of_change hheld, rank_le_add, ?_⟩
  intro inp' hheld' t t' hs hs' heq j
  have hsame := sameKeys_after_wipe hheld hheld' hs hs' heq j
  refine ⟨hsame, fun hreleased hreleased' => ?_⟩
  have hwiped := wiped_add hheld hheld' hs hs' heq
  have heq' (j : ℕ) : inp' (t' + j) = inp (t + j) := (heq j).symm
  have hwiped' := wiped_add hheld' hheld hs' hs heq'
  have hvalid := valid_after_wipe hheld hreleased (hwiped j) (hwiped (j + 1))
  have hvalid' := valid_after_wipe hheld' hreleased' (hwiped' j) (hwiped' (j + 1))
  have hin : inp (t + j + 1) = inp' (t' + j + 1) := heq (j + 1)
  have hbits : ((ctrlAt KmacEnMasking inp (t + j + 1)).key_o (inp (t + j + 1))).valid =
      ((ctrlAt KmacEnMasking inp' (t' + j + 1)).key_o (inp' (t' + j + 1))).valid := by
    rw [hvalid, hvalid', hin]
  exact congrArg₂ CtrlRegs.HwKeyReq.mk hbits hsame.key

/-- A fault in the first cycle, and one after the root key has been loaded. -/
theorem keymgr_life_fault :
    SameKeys true (ctrlAt true earlyFault 2) (ctrlAt true lateFault 13) (earlyFault 2)
      (lateFault 13) := by
  have hearly : Held true earlyFault := fun t hstart => absurd hstart Bool.false_ne_true
  have hlate : Held true lateFault :=
    held_of_done quietIn (by decide +kernel) fun t => ⟨rfl, rfl, rfl⟩
  refine ((keymgr_life hearly).2.2 lateFault hlate 1 12 (by decide +kernel) (by decide +kernel)
    (fun j => ?_) 0).1
  rw [earlyFault, lateFault, afterAdvance, if_neg (by omega),
    beq_eq_false_iff_ne.2 (show 1 + j ≠ 0 by omega),
    beq_eq_false_iff_ne.2 (show 12 + j ≠ 11 by omega)]

/-- The disabled state is entered from the init state by a disable command, and the init state
by an advance that completes with an error. -/
theorem steps_without_advance_or_with_error :
    (Held true thenDisable ∧ workingAt true thenDisable 14 = .StInit ∧
      workingAt true thenDisable 15 = .StDisabled ∧ (thenDisable 14).adv_op = false) ∧
    Held true faultyAdvance ∧ workingAt true faultyAdvance 9 = .StReset ∧
      workingAt true faultyAdvance 10 = .StInit ∧ DoneAt true faultyAdvance 10 ∧
      (ctrlAt true faultyAdvance 10).op_err true (faultyAdvance 10) = true := by
  refine ⟨⟨held_of_done _ (by decide +kernel) fun _ => ⟨rfl, rfl, rfl⟩, ?_, ?_, ?_⟩,
    held_of_done quietIn (by decide +kernel) fun _ => ⟨rfl, rfl, rfl⟩, ?_⟩ <;>
    decide +kernel

end SecureBoot.Keymgr
