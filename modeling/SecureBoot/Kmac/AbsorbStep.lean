import SecureBoot.Kmac.Absorb

/-! What a cycle of the padding logic does: the writes and runs that were to come are the ones
of the cycle and those that are still to come. -/

namespace SecureBoot

open Clocked

variable {EnMasking : Bool}

namespace Absorb

/-! ### What one cycle does -/

variable {c} {tail : PartialWord} {s : Absorb EnMasking} {i : Sha3PadIn EnMasking}

/-- What one cycle keeps. -/
structure StepOk (c : Sha3PadConfig) (tail : PartialWord) (s : Absorb EnMasking)
    (i : Sha3PadIn EnMasking) : Prop where
  inv : (s.next c i).Inv c tail
  rest_eq : s.rest c tail = emitted c s.pad i ++ (s.next c i).rest c tail
  todo_le : s.pad.st ≠ .StPadIdle →
    (s.next c i).todo c tail + (if s.Prompt i then 1 else 0) ≤ s.todo c tail

theorem ctrl_eq (h : s.Allowed i) : s.pad.ctrl c i = s.pad.ctrlState c i := by
  simp only [Sha3Pad.ctrl, h.2.2.2.2, bne_self_eq_false, Bool.false_eq_true, if_false]

theorem sent_next (h : s.Inv c tail) :
    (s.next c i).sent = if (s.pad.ctrl c i).clr_sentmsg then 0
      else if s.pad.keccak_valid_o c i && i.keccak_ready_i then s.sent + 1 else s.sent :=
  s.pad.sent_message_clock c i h.sent_le

/-- The latch of a cycle that leaves everything delivered. -/
theorem latched_next (h : s.Inv c tail) (hallow : s.Allowed i)
    (hlatched : (s.next c i).pad.process_latched = true) : (s.next c i).Delivered := by
  have hdelivered : s.Delivered := by
    simp only [next, Sha3Pad.clock] at hlatched
    cases hprocess : i.process_i
    · simp only [hprocess, hallow.2.2.2.1, Bool.false_eq_true, if_false] at hlatched
      exact h.delivered_of_latched hlatched
    · have := hallow.2.1 hprocess
      exact ⟨this.1, Option.isNone_iff_eq_none.mp this.2⟩
  simp [Delivered, next, hdelivered.1, hdelivered.2]

theorem sent_blocksize_eq : s.pad.sent_blocksize c = decide (s.sent = c.strength_i.keccakRate) :=
  s.pad.sent_blocksize_eq c

theorem next_of_not_ready (hready : s.pad.msg_ready_o c i = false) :
    (s.next c i).words = s.words ∧ (s.next c i).part = s.part := by
  simp [next, hready]

/-- Only the message state takes words. -/
theorem next_of_not_fifo {c : Sha3PadConfig} {s : Absorb EnMasking} {i : Sha3PadIn EnMasking}
    (hmux : (s.pad.ctrl c i).sel_mux ≠ .MuxFifo) :
    (s.next c i).words = s.words ∧ (s.next c i).part = s.part :=
  next_of_not_ready (by simp only [Sha3Pad.msg_ready_o])

theorem Buffered.next (h : s.Buffered tail) (hen : (s.pad.ctrl c i).en_msgbuf = false)
    (hclr : (s.pad.ctrl c i).clr_msgbuf = false) (hpart : (s.next c i).part = s.part) :
    (s.next c i).Buffered tail := by
  have hbuf : (s.next c i).pad.msg_buf = s.pad.msg_buf := by
    simp [Absorb.next, Sha3Pad.clock, hen, hclr]
  have hstrb : (s.next c i).pad.msg_strb = s.pad.msg_strb := by
    simp [Absorb.next, Sha3Pad.clock, hen, hclr]
  rw [Buffered, hpart, hbuf, hstrb]
  exact h

theorem stepOk_of (h : s.Inv c tail) (hallow : s.Allowed i) (hst : s.pad.st ≠ .StPadIdle)
    (habsorbed : (s.pad.ctrl c i).absorbed_d = MuBi4True ↔ (s.pad.ctrl c i).st_d = .StPadIdle)
    (hsent : (s.next c i).sent ≤ c.strength_i.keccakRate)
    (hstate : (s.next c i).StateInv c tail)
    (hrest : s.rest c tail = emitted c s.pad i ++ (s.next c i).rest c tail)
    (hweight : (s.next c i).weight + (if s.Prompt i then 1 else 0) ≤
      s.weight + 2 * (emitted c s.pad i).length) : s.StepOk c tail i := by
  refine ⟨⟨hsent, latched_next h hallow, hstate, ?_⟩, hrest, fun _ => ?_⟩
  · have hpulses := h.pulses
    rw [if_neg hst] at hpulses
    simp only [next, Sha3Pad.clock, hpulses, Nat.zero_add]
    exact if_congr habsorbed rfl rfl
  · rw [todo, todo, hrest, List.length_append]
    omega

theorem not_absorbed (habsorbed : (s.pad.ctrl c i).absorbed_d = MuBi4False)
    (hst : (s.next c i).pad.st ≠ .StPadIdle) :
    (s.pad.ctrl c i).absorbed_d = MuBi4True ↔ (s.pad.ctrl c i).st_d = .StPadIdle := by
  rw [habsorbed]
  exact iff_of_false (by decide) hst

/-! ### Events -/

theorem emitted_stall (hvalid : (s.pad.keccak_valid_o c i && i.keccak_ready_i) = false)
    (hrun : (s.pad.ctrl c i).keccak_run_o = false) : emitted c s.pad i = [] := by
  simp [emitted, hvalid, hrun]

theorem emitted_run (hvalid : s.pad.keccak_valid_o c i = false)
    (hrun : (s.pad.ctrl c i).keccak_run_o = true) : emitted c s.pad i = [.run] := by
  simp [emitted, hvalid, hrun]

theorem emitted_write (hvalid : (s.pad.keccak_valid_o c i && i.keccak_ready_i) = true)
    (hrun : (s.pad.ctrl c i).keccak_run_o = false) (hlt : s.sent < c.strength_i.keccakRate)
    {w : BitVec 64} (hw : (s.pad.keccak_data_o c i).unmask = w) :
    emitted c s.pad i = [.write s.sent w] := by
  simp only [emitted, hvalid, hrun, if_true, Bool.false_eq_true, if_false, List.append_nil, hw,
    s.pad.keccak_addr_o_eq c hlt, sent]

theorem prompt_of_not_ready (h : i.keccak_ready_i = false) :
    (if s.Prompt i then 1 else 0) = 0 := by
  rw [if_neg fun hprompt => Bool.false_ne_true (h.symm.trans hprompt.1)]

theorem prompt_of_not_complete (h : i.keccak_complete_i = false) :
    (if s.Prompt i then 1 else 0) = 0 := by
  rw [if_neg fun hprompt => Bool.false_ne_true (h.symm.trans hprompt.2.1)]

theorem prompt_le (s : Absorb EnMasking) (i : Sha3PadIn EnMasking) :
    (if s.Prompt i then 1 else 0) ≤ 1 := by
  split_ifs <;> omega

/-! ### One cycle in each state -/

theorem stepOk_prefix (h : s.Inv c tail) (hallow : s.Allowed i) (hst : s.pad.st = .StPrefix) :
    s.StepOk c tail i := by
  have hctrl := s.ctrl_eq (c := c) hallow
  have hsent := sent_next (i := i) h
  have hle := h.sent_le
  have hbuffered := h.state
  have hprompt := s.prompt_le i
  simp only [StateInv, hst] at hbuffered
  simp only [Sha3Pad.ctrlState, hst, sent_blocksize_eq, Sha3Pad.Ctrl.default] at hctrl
  by_cases hfull : s.sent = c.strength_i.keccakRate
  · rw [if_pos (decide_eq_true hfull)] at hctrl
    obtain ⟨hwords, hpart⟩ := next_of_not_fifo (s := s) (i := i) (c := c) (by rw [hctrl]; decide)
    have hst' : (s.next c i).pad.st = .StPrefixWait := congrArg (·.st_d) hctrl
    have hemit : emitted c s.pad i = [.run] :=
      emitted_run (by rw [Sha3Pad.keccak_valid_o, hctrl]) (by rw [hctrl])
    rw [hctrl, if_pos rfl] at hsent
    refine stepOk_of h hallow (by rw [hst]; decide) (by rw [hctrl]; decide) ?_ ?_ ?_ ?_
    · omega
    · simp only [StateInv, hst']
      exact ⟨hsent, hbuffered.next (by rw [hctrl]) (by rw [hctrl]) hpart⟩
    · have hdrop : (prefixWords c c.strength_i.keccakRate).drop c.strength_i.keccakRate = [] :=
        List.drop_eq_nil_of_le (by simp [prefixWords])
      simp only [rest, hst, hst', hwords, hfull, resume_self, hemit, hdrop, List.nil_append,
        List.singleton_append]
    · simp only [weight, hst, hst', hpart, hemit, List.length_singleton]
      omega
  · rw [if_neg (by simpa using hfull)] at hctrl
    obtain ⟨hwords, hpart⟩ := next_of_not_fifo (s := s) (i := i) (c := c) (by rw [hctrl]; decide)
    have hst' : (s.next c i).pad.st = .StPrefix := congrArg (·.st_d) hctrl
    have hvalid : s.pad.keccak_valid_o c i = true := by rw [Sha3Pad.keccak_valid_o, hctrl]
    have hbuffered' := hbuffered.next (c := c) (i := i) (by rw [hctrl]) (by rw [hctrl]) hpart
    rw [hctrl, if_neg Bool.false_ne_true, hvalid, Bool.true_and] at hsent
    have hlt : s.sent < c.strength_i.keccakRate := by omega
    have hstate : (s.next c i).StateInv c tail := by
      simp only [StateInv, hst']
      exact hbuffered'
    cases hready : i.keccak_ready_i
    · have hemit : emitted c s.pad i = [] :=
        emitted_stall (by rw [hvalid, hready]; rfl) (by rw [hctrl])
      rw [hready, if_neg Bool.false_ne_true] at hsent
      refine stepOk_of h hallow (by rw [hst]; decide) (by rw [hctrl]; decide) (by omega) hstate ?_ ?_
      · simp only [rest, hst, hst', hwords, hsent, hemit, List.nil_append]
      · simp only [weight, hst, hst', hpart, hemit, prompt_of_not_ready hready]
        omega
    · have hdata : (s.pad.keccak_data_o c i).unmask = Sha3Pad.prefix_sliced c s.sent := by
        rw [Sha3Pad.keccak_data_o, hctrl, Shares.unmask_inLast, s.pad.keccak_addr_o_eq c hlt, sent]
      have hemit := emitted_write (by rw [hvalid, hready]; rfl) (by rw [hctrl]) hlt hdata
      rw [hready, if_pos rfl] at hsent
      refine stepOk_of h hallow (by rw [hst]; decide) (by rw [hctrl]; decide) (by omega) hstate ?_ ?_
      · have hdrop : (prefixWords c c.strength_i.keccakRate).drop s.sent =
            Sha3Pad.prefix_sliced c s.sent ::
              (prefixWords c c.strength_i.keccakRate).drop (s.sent + 1) := by
          rw [List.drop_eq_getElem_cons (by simpa [prefixWords] using hlt)]
          simp [prefixWords]
        simp only [rest, hst, hst', hwords, hsent, hemit, hdrop, resume_of_lt hlt, List.cons_append,
          emit_cons, List.nil_append]
      · simp only [weight, hst, hst', hpart, hemit, List.length_singleton]
        omega

/-- A wait for the round logic. -/
theorem stepOk_wait (h : s.Inv c tail) (hallow : s.Allowed i)
    (hst : s.pad.st = .StPrefixWait ∨ s.pad.st = .StMessageWait) : s.StepOk c tail i := by
  obtain ⟨sel_mux, hold_msg, hmux, hctrl⟩ : ∃ sel_mux hold_msg,
      (sel_mux = .MuxPrefix ∨ sel_mux = .MuxNone) ∧
        s.pad.ctrl c i = { Sha3Pad.Ctrl.default s.pad with
          sel_mux := sel_mux
          hold_msg := hold_msg
          st_d := if i.keccak_complete_i then .StMessage else s.pad.st } := by
    rw [s.ctrl_eq hallow]
    obtain hst | hst := hst <;> simp only [Sha3Pad.ctrlState, hst]
    · exact ⟨.MuxPrefix, false, .inl rfl, rfl⟩
    · exact ⟨.MuxNone, true, .inr rfl, rfl⟩
  have hvalid : s.pad.keccak_valid_o c i = false := by
    rw [Sha3Pad.keccak_valid_o, hctrl]
    obtain rfl | rfl := hmux <;> rfl
  obtain ⟨hwords, hpart⟩ := next_of_not_fifo (s := s) (i := i) (c := c) (by
    rw [hctrl]
    obtain rfl | rfl := hmux <;> exact fun h => PadMuxSel.noConfusion h)
  have hemit : emitted c s.pad i = [] := emitted_stall (by rw [hvalid]; rfl) (by rw [hctrl]; rfl)
  obtain ⟨hzero, hbuffered⟩ : s.sent = 0 ∧ s.Buffered tail := by
    have hstate := h.state
    obtain hst | hst := hst <;> simpa only [StateInv, hst] using hstate
  have hbuffered' := hbuffered.next (c := c) (i := i) (by rw [hctrl]; rfl) (by rw [hctrl]; rfl) hpart
  have hsent : (s.next c i).sent = 0 := by
    rw [sent_next h, hctrl, hvalid, Bool.false_and, if_neg Bool.false_ne_true, hzero]
    rfl
  have hrest : s.rest c tail =
      emit c.strength_i.keccakRate 0 (messageWords c c.strength_i.keccakRate tail 0 s.words) := by
    obtain hst | hst := hst <;> simp only [rest, hst]
  have hweight : s.weight = 2 + s.part.toList.length := by
    obtain hst | hst := hst <;> simp only [weight, hst]
  have hidle : s.pad.st ≠ .StPadIdle := by
    obtain hst | hst := hst <;> rw [hst] <;> decide
  cases hcomplete : i.keccak_complete_i
  · have hst' : (s.next c i).pad.st = s.pad.st := by
      change (s.pad.ctrl c i).st_d = _
      rw [hctrl, hcomplete]
      rfl
    have habsorbed := not_absorbed (c := c) (i := i) (by rw [hctrl]; rfl) (by rw [hst']; exact hidle)
    refine stepOk_of h hallow hidle habsorbed (by omega) ?_ ?_ ?_
    · obtain hst | hst := hst <;> simpa only [StateInv, hst', hst] using ⟨hsent, hbuffered'⟩
    · rw [hrest, hemit, List.nil_append]
      obtain hst | hst := hst <;> simp only [rest, hst', hst, hwords]
    · rw [prompt_of_not_complete hcomplete, hemit, hweight]
      obtain hst | hst := hst <;> simp only [weight, hst', hst, hpart] <;> omega
  · have hst' : (s.next c i).pad.st = .StMessage := by
      change (s.pad.ctrl c i).st_d = _
      rw [hctrl, hcomplete]
      rfl
    have habsorbed := not_absorbed (c := c) (i := i) (by rw [hctrl]; rfl) (by rw [hst']; decide)
    refine stepOk_of h hallow hidle habsorbed (by omega) ?_ ?_ ?_
    · simp only [StateInv, hst']
      exact hbuffered'
    · have hpos := Sha3Pad.keccakRate_pos c.strength_i
      rw [hrest, hemit, List.nil_append]
      simp only [rest, hst', hwords, hsent, resume_of_lt hpos]
    · have hprompt := s.prompt_le i
      rw [hweight, hemit]
      simp only [weight, hst', hpart]
      omega

/-- A partial word goes to the buffer. -/
theorem stepOk_short (h : s.Inv c tail) (hallow : s.Allowed i) (hst : s.pad.st = .StMessage)
    (hvalid : i.msg_valid_i = true) (hshort : Sha3Pad.msg_partial i = true) :
    s.StepOk c tail i := by
  have hctrl := s.ctrl_eq (c := c) hallow
  have hsent := sent_next (i := i) h
  have hle := h.sent_le
  have hstate := h.state
  have hprompt := s.prompt_le i
  have hoffer := hallow.1 hvalid
  simp only [StateInv, hst] at hstate
  simp only [Sha3Pad.ctrlState, hst, hvalid, hshort, Bool.and_self, if_true,
    Sha3Pad.Ctrl.default] at hctrl
  have hready : s.pad.msg_ready_o c i = true := by
    simp only [Sha3Pad.msg_ready_o, hctrl, Bool.true_or]
  have hkeccak : s.pad.keccak_valid_o c i = false := by
    simp only [Sha3Pad.keccak_valid_o, hctrl, Bool.not_true, Bool.and_false]
  have hemit : emitted c s.pad i = [] := emitted_stall (by rw [hkeccak]; rfl) (by rw [hctrl])
  have hst' : (s.next c i).pad.st = .StMessage := congrArg (·.st_d) hctrl
  rw [hctrl, if_neg Bool.false_ne_true, hkeccak, Bool.false_and, if_neg Bool.false_ne_true] at hsent
  -- Only the partial word is offered with this strobe.
  obtain ⟨hwords, hpart, hstrb, hdata⟩ : s.words = [] ∧ s.part = some tail ∧
      i.msg_strb_i = BitVec.ofNat 8 (2 ^ tail.n - 1) ∧ i.msg_data_i.unmask = tail.data := by
    simp only [ Sha3Pad.msg_partial, bne_iff_ne] at hshort
    cases hw : s.words with
    | cons w ws =>
      simp only [Offers, hw] at hoffer
      exact absurd hoffer.1 hshort
    | nil =>
      cases hp : s.part with
      | none => simp only [Offers, hw, hp] at hoffer
      | some p =>
        simp only [Offers, hw, hp] at hoffer
        simp only [Buffered, hp] at hstate
        subst hstate
        exact ⟨rfl, rfl, hoffer⟩
  have hnext : (s.next c i).words = [] ∧ (s.next c i).part = none := by
    simp [next, hvalid, hready, hwords]
  have hbuf : (s.next c i).pad.msg_buf = fun k => (i.msg_data_i k).setWidth 56 := by
    simp only [next, Sha3Pad.clock, hctrl, if_true]
  have hstrb' : (s.next c i).pad.msg_strb = i.msg_strb_i.setWidth 7 := by
    simp only [next, Sha3Pad.clock, hctrl, if_true]
  have habsorbed := not_absorbed (c := c) (i := i) (by rw [hctrl]) (by rw [hst']; decide)
  refine stepOk_of h hallow (by rw [hst]; decide) habsorbed (by omega) ?_ ?_ ?_
  · simp only [StateInv, hst', Buffered, hnext.2, hbuf, hstrb', hstrb, Shares.unmask_setWidth, hdata]
    have hn := tail.n_lt
    refine ⟨?_, ?_⟩
    · generalize tail.n = n at hn
      revert n
      decide
    · rw [BitVec.setWidth_setWidth_of_le]
      omega
  · simp only [rest, hst, hst', hwords, hnext.1, hsent, hemit, List.nil_append]
  · simp only [weight, hst, hst', hpart, hnext.2, hemit, Option.toList_some, Option.toList_none,
      List.length_singleton, List.length_nil]
    omega

theorem delivered_of_process (h : s.Inv c tail) (hallow : s.Allowed i)
    (hprocess : (s.pad.process_latched || i.process_i) = true) : s.Delivered := by
  obtain hlatched | hprocess := Bool.or_eq_true_iff.mp hprocess
  · exact h.delivered_of_latched hlatched
  · exact ⟨(hallow.2.1 hprocess).1, Option.isNone_iff_eq_none.mp (hallow.2.1 hprocess).2⟩

/-- What the message state does with a full word or none. -/
theorem ctrl_message (hallow : s.Allowed i) (hst : s.pad.st = .StMessage)
    (hnot : (i.msg_valid_i && Sha3Pad.msg_partial i) = false) :
    s.pad.ctrl c i =
      if s.sent = c.strength_i.keccakRate then
        { Sha3Pad.Ctrl.default s.pad with
          sel_mux := .MuxFifo, st_d := .StMessageWait, keccak_run_o := true, clr_sentmsg := true,
          hold_msg := true }
      else if s.pad.process_latched || i.process_i then
        { Sha3Pad.Ctrl.default s.pad with sel_mux := .MuxFifo, st_d := .StPad, hold_msg := true }
      else { Sha3Pad.Ctrl.default s.pad with sel_mux := .MuxFifo } := by
  rw [ctrl_eq hallow]
  simp only [Sha3Pad.ctrlState, hst, hnot, Bool.false_eq_true, if_false, sent_blocksize_eq,
    decide_eq_true_eq]

/-- The run of a full block. -/
theorem stepOk_fullBlock (h : s.Inv c tail) (hallow : s.Allowed i) (hst : s.pad.st = .StMessage)
    (hnot : (i.msg_valid_i && Sha3Pad.msg_partial i) = false)
    (hfull : s.sent = c.strength_i.keccakRate) : s.StepOk c tail i := by
  have hctrl := ctrl_message (c := c) hallow hst hnot
  have hsent := sent_next (i := i) h
  have hbuffered := h.state
  have hprompt := s.prompt_le i
  simp only [StateInv, hst] at hbuffered
  simp only [hfull, if_true, Sha3Pad.Ctrl.default] at hctrl
  have hready : s.pad.msg_ready_o c i = false := by
    simp only [Sha3Pad.msg_ready_o, hctrl, Bool.not_true, Bool.and_false, Bool.or_false]
  have hvalid : s.pad.keccak_valid_o c i = false := by
    simp only [Sha3Pad.keccak_valid_o, hctrl, Bool.not_true, Bool.and_false, Bool.false_and]
  obtain ⟨hwords, hpart⟩ := next_of_not_ready hready
  have hst' : (s.next c i).pad.st = .StMessageWait := congrArg (·.st_d) hctrl
  have hemit : emitted c s.pad i = [.run] := emitted_run hvalid (by rw [hctrl])
  have habsorbed := not_absorbed (c := c) (i := i) (by rw [hctrl]) (by rw [hst']; decide)
  rw [hctrl, if_pos rfl] at hsent
  refine stepOk_of h hallow (by rw [hst]; decide) habsorbed (by omega) ?_ ?_ ?_
  · simp only [StateInv, hst']
    exact ⟨hsent, hbuffered.next (by rw [hctrl]) (by rw [hctrl]) hpart⟩
  · simp only [rest, hst, hst', hwords, hfull, resume_self, messageWords_self, hemit,
      List.singleton_append]
  · simp only [weight, hst, hst', hpart, hemit, List.length_singleton]
    omega

/-- The end of the message. -/
theorem stepOk_process (h : s.Inv c tail) (hallow : s.Allowed i) (hst : s.pad.st = .StMessage)
    (hnot : (i.msg_valid_i && Sha3Pad.msg_partial i) = false)
    (hlt : s.sent < c.strength_i.keccakRate)
    (hprocess : (s.pad.process_latched || i.process_i) = true) : s.StepOk c tail i := by
  have hctrl := ctrl_message (c := c) hallow hst hnot
  have hsent := sent_next (i := i) h
  have hbuffered := h.state
  have hprompt := s.prompt_le i
  have hdelivered := delivered_of_process h hallow hprocess
  simp only [StateInv, hst] at hbuffered
  rw [if_neg hlt.ne, if_pos hprocess] at hctrl
  simp only [Sha3Pad.Ctrl.default] at hctrl
  have hready : s.pad.msg_ready_o c i = false := by
    simp only [Sha3Pad.msg_ready_o, hctrl, Bool.not_true, Bool.and_false, Bool.or_false]
  have hvalid : s.pad.keccak_valid_o c i = false := by
    simp only [Sha3Pad.keccak_valid_o, hctrl, Bool.not_true, Bool.and_false, Bool.false_and]
  obtain ⟨hwords, hpart⟩ := next_of_not_ready hready
  have hst' : (s.next c i).pad.st = .StPad := congrArg (·.st_d) hctrl
  have hemit : emitted c s.pad i = [] := emitted_stall (by rw [hvalid]; rfl) (by rw [hctrl])
  have habsorbed := not_absorbed (c := c) (i := i) (by rw [hctrl]) (by rw [hst']; decide)
  rw [hctrl, if_neg Bool.false_ne_true, hvalid, Bool.false_and, if_neg Bool.false_ne_true] at hsent
  refine stepOk_of h hallow (by rw [hst]; decide) habsorbed (by omega) ?_ ?_ ?_
  · simp only [StateInv, hst', hsent]
    exact ⟨hlt, ⟨hwords.trans hdelivered.1, hpart.trans hdelivered.2⟩,
      hbuffered.next (by rw [hctrl]) (by rw [hctrl]) hpart⟩
  · simp only [rest, hst, hst', hdelivered.1, hsent, hemit, messageWords_nil c hlt,
      resume_of_lt hlt, List.nil_append]
  · simp only [weight, hst, hst', hemit, List.length_nil]
    omega

/-- A full word or none. -/
theorem stepOk_word (h : s.Inv c tail) (hallow : s.Allowed i) (hst : s.pad.st = .StMessage)
    (hnot : (i.msg_valid_i && Sha3Pad.msg_partial i) = false)
    (hlt : s.sent < c.strength_i.keccakRate)
    (hprocess : (s.pad.process_latched || i.process_i) = false) : s.StepOk c tail i := by
  have hctrl := ctrl_message (c := c) hallow hst hnot
  have hsent := sent_next (i := i) h
  have hbuffered := h.state
  have hprompt := s.prompt_le i
  simp only [StateInv, hst] at hbuffered
  rw [if_neg hlt.ne, hprocess, if_neg Bool.false_ne_true] at hctrl
  simp only [Sha3Pad.Ctrl.default] at hctrl
  have hst' : (s.next c i).pad.st = .StMessage := (congrArg (·.st_d) hctrl).trans hst
  have hready : s.pad.msg_ready_o c i = i.keccak_ready_i := by
    simp only [Sha3Pad.msg_ready_o, hctrl, Bool.not_false, Bool.and_true, Bool.false_or]
  have hvalid : s.pad.keccak_valid_o c i = i.msg_valid_i := by
    simp only [Sha3Pad.keccak_valid_o, hctrl, Bool.not_false, Bool.and_true]
  have hidle : s.pad.st ≠ .StPadIdle := by rw [hst]; decide
  have habsorbed := not_absorbed (c := c) (i := i) (by rw [hctrl]) (by rw [hst']; decide)
  rw [hctrl, if_neg Bool.false_ne_true, hvalid] at hsent
  cases htaken : i.msg_valid_i && i.keccak_ready_i
  · have hnext : (s.next c i).words = s.words ∧ (s.next c i).part = s.part := by
      simp [next, hready, htaken]
    have hemit : emitted c s.pad i = [] := emitted_stall (by rw [hvalid]; exact htaken) (by rw [hctrl])
    rw [htaken, if_neg Bool.false_ne_true] at hsent
    have hstalled : (if s.Prompt i then 1 else 0) = 0 := by
      refine if_neg fun hprompt => ?_
      obtain ⟨hkeccak, -, hport⟩ := hprompt
      rw [hkeccak, Bool.and_true] at htaken
      simp only [htaken, Bool.false_eq_true, ← Bool.or_eq_true, hprocess, ite_self] at hport
    refine stepOk_of h hallow hidle habsorbed (by omega) ?_ ?_ ?_
    · simp only [StateInv, hst']
      exact hbuffered.next (by rw [hctrl]) (by rw [hctrl]) hnext.2
    · simp only [rest, hst, hst', hnext.1, hsent, hemit, List.nil_append]
    · simp only [weight, hst, hst', hnext.2, hstalled, hemit]
      omega
  · obtain ⟨hmsg, hkeccak⟩ := Bool.and_eq_true_iff.mp htaken
    have hoffer := hallow.1 hmsg
    -- No partial word is offered with this strobe.
    obtain ⟨w, ws, hwords, hdata⟩ : ∃ w ws, s.words = w :: ws ∧ i.msg_data_i.unmask = w := by
      simp only [hmsg, Sha3Pad.msg_partial, Bool.true_and, bne_eq_false_iff_eq] at hnot
      cases hw : s.words with
      | cons w ws =>
        simp only [Offers, hw] at hoffer
        exact ⟨w, ws, rfl, hoffer.2⟩
      | nil =>
        cases hp : s.part with
        | none => simp only [Offers, hw, hp] at hoffer
        | some p =>
          simp only [Offers, hw, hp, hnot] at hoffer
          have hne : ∀ n < 8, BitVec.allOnes 8 ≠ BitVec.ofNat 8 (2 ^ n - 1) := by decide
          exact absurd hoffer.1 (hne p.n p.n_lt)
    have hnext : (s.next c i).words = ws ∧ (s.next c i).part = s.part := by
      simp [next, hready, htaken, hwords]
    have hemit : emitted c s.pad i = [.write s.sent w] :=
      emitted_write (by rw [hvalid]; exact htaken) (by rw [hctrl]) hlt
        (by rw [Sha3Pad.keccak_data_o, hctrl]; exact hdata)
    rw [htaken, if_pos rfl] at hsent
    refine stepOk_of h hallow hidle habsorbed (by omega) ?_ ?_ ?_
    · simp only [StateInv, hst']
      exact hbuffered.next (by rw [hctrl]) (by rw [hctrl]) hnext.2
    · simp only [rest, hst, hst', hnext.1, hwords, hsent, hemit, messageWords_cons,
        resume_of_lt hlt, emit_cons, List.singleton_append]
    · simp only [weight, hst, hst', hnext.2, hemit, List.length_singleton]
      omega

theorem stepOk_message (h : s.Inv c tail) (hallow : s.Allowed i) (hst : s.pad.st = .StMessage) :
    s.StepOk c tail i := by
  cases hshort : i.msg_valid_i && Sha3Pad.msg_partial i
  · have hle := h.sent_le
    by_cases hfull : s.sent = c.strength_i.keccakRate
    · exact stepOk_fullBlock h hallow hst hshort hfull
    · cases hprocess : s.pad.process_latched || i.process_i
      · exact stepOk_word h hallow hst hshort (by omega) hprocess
      · exact stepOk_process h hallow hst hshort (by omega) hprocess
  · rw [Bool.and_eq_true] at hshort
    exact stepOk_short h hallow hst hshort.1 hshort.2

theorem Delivered.next (h : s.Delivered) : (s.next c i).Delivered := by
  simp [Delivered, Absorb.next, h.1, h.2]

/-- The first word of the padding. -/
theorem stepOk_pad (h : s.Inv c tail) (hallow : s.Allowed i) (hst : s.pad.st = .StPad) :
    s.StepOk c tail i := by
  have hctrl := s.ctrl_eq (c := c) hallow
  have hsent := sent_next (i := i) h
  have hstate := h.state
  have hprompt := s.prompt_le i
  have hidle : s.pad.st ≠ .StPadIdle := by rw [hst]; decide
  simp only [StateInv, hst] at hstate
  obtain ⟨hlt, hdelivered, hbuffered⟩ := hstate
  have hend : s.pad.end_of_block c = decide (s.sent + 1 = c.strength_i.keccakRate) :=
    s.pad.end_of_block_eq c h.sent_le
  simp only [Sha3Pad.ctrlState, hst, hend, Sha3Pad.Ctrl.default] at hctrl
  cases hready : i.keccak_ready_i
  · simp only [hready, Bool.false_and, Bool.false_eq_true, if_false] at hctrl
    have hvalid : s.pad.keccak_valid_o c i = true := by rw [Sha3Pad.keccak_valid_o, hctrl]
    obtain ⟨hwords, hpart⟩ := next_of_not_fifo (s := s) (i := i) (c := c) (by rw [hctrl]; decide)
    have hst' : (s.next c i).pad.st = .StPad := congrArg (·.st_d) hctrl
    have hemit : emitted c s.pad i = [] :=
      emitted_stall (by rw [hvalid, hready]; rfl) (by rw [hctrl])
    have habsorbed := not_absorbed (c := c) (i := i) (by rw [hctrl]) (by rw [hst']; decide)
    rw [hctrl, if_neg Bool.false_ne_true, hready, Bool.and_false,
      if_neg Bool.false_ne_true] at hsent
    refine stepOk_of h hallow hidle habsorbed (by omega) ?_ ?_ ?_
    · simp only [StateInv, hst', hsent]
      exact ⟨hlt, hdelivered.next, hbuffered.next (by rw [hctrl]) (by rw [hctrl]) hpart⟩
    · simp only [rest, hst, hst', hsent, hemit, List.nil_append]
    · simp only [weight, hst, hst', hemit, prompt_of_not_ready hready]
      omega
  · have hdata : (s.pad.funcpad_data c).unmask =
        Sha3Pad.funcpadMerged c (decide (s.sent + 1 = c.strength_i.keccakRate)) tail.n
          (tail.data.setWidth 56) := by
      simp only [Buffered, hdelivered.2] at hbuffered
      have hn := tail.n_lt
      rw [Sha3Pad.unmask_funcpad_data c _ hbuffered.1, hend]
      refine Sha3Pad.funcpadMerged_congr c _ _ ?_
      rw [hbuffered.2, BitVec.setWidth_setWidth_of_le]
      omega
    by_cases hlast : s.sent + 1 = c.strength_i.keccakRate
    · simp only [hready, hlast, decide_true, Bool.and_self, if_true] at hctrl
      have hvalid : s.pad.keccak_valid_o c i = true := by rw [Sha3Pad.keccak_valid_o, hctrl]
      have hst' : (s.next c i).pad.st = .StPadRun := congrArg (·.st_d) hctrl
      have hemit := emitted_write (by rw [hvalid, hready]; rfl) (by rw [hctrl]) hlt
        ((congrArg Shares.unmask (by rw [Sha3Pad.keccak_data_o, hctrl])).trans hdata)
      have habsorbed := not_absorbed (c := c) (i := i) (by rw [hctrl]) (by rw [hst']; decide)
      rw [hctrl, if_pos rfl] at hsent
      refine stepOk_of h hallow hidle habsorbed (by omega) ?_ ?_ ?_
      · simp only [StateInv, hst']
        exact hdelivered.next
      · simp only [rest, hst, hst', hemit, padWords, emit_cons, hlast, resume_self, zeroWords_self,
          emit, List.singleton_append]
      · simp only [weight, hst, hst', hemit, List.length_singleton]
        omega
    · simp only [hready, hlast, decide_false, Bool.and_false, Bool.false_eq_true, if_false,
        if_true] at hctrl
      have hvalid : s.pad.keccak_valid_o c i = true := by rw [Sha3Pad.keccak_valid_o, hctrl]
      have hst' : (s.next c i).pad.st = .StPad01 := congrArg (·.st_d) hctrl
      have hemit := emitted_write (by rw [hvalid, hready]; rfl) (by rw [hctrl]) hlt
        ((congrArg Shares.unmask (by rw [Sha3Pad.keccak_data_o, hctrl])).trans hdata)
      have habsorbed := not_absorbed (c := c) (i := i) (by rw [hctrl]) (by rw [hst']; decide)
      rw [hctrl, if_neg Bool.false_ne_true, hvalid, hready, Bool.and_self, if_pos rfl] at hsent
      refine stepOk_of h hallow hidle habsorbed (by omega) ?_ ?_ ?_
      · simp only [StateInv, hst']
        exact hdelivered.next
      · simp only [rest, hst, hst', hsent, hemit, padWords, emit_cons, List.singleton_append]
      · simp only [weight, hst, hst', hemit, List.length_singleton]
        omega

theorem stepOk_padRun (h : s.Inv c tail) (hallow : s.Allowed i) (hst : s.pad.st = .StPadRun) :
    s.StepOk c tail i := by
  have hctrl := s.ctrl_eq (c := c) hallow
  have hsent := sent_next (i := i) h
  have hdelivered := h.state
  have hprompt := s.prompt_le i
  simp only [StateInv, hst] at hdelivered
  simp only [Sha3Pad.ctrlState, hst, Sha3Pad.Ctrl.default] at hctrl
  have hst' : (s.next c i).pad.st = .StPadFlush := congrArg (·.st_d) hctrl
  have hemit : emitted c s.pad i = [.run] :=
    emitted_run (by rw [Sha3Pad.keccak_valid_o, hctrl]) (by rw [hctrl])
  have habsorbed := not_absorbed (c := c) (i := i) (by rw [hctrl]) (by rw [hst']; decide)
  rw [hctrl, if_pos rfl] at hsent
  refine stepOk_of h hallow (by rw [hst]; decide) habsorbed (by omega) ?_ ?_ ?_
  · simp only [StateInv, hst']
    exact hdelivered.next
  · simp only [rest, hst, hst', hemit, List.append_nil]
  · simp only [weight, hst, hst', hemit, List.length_singleton]
    omega

/-- The rest of the last block. -/
theorem stepOk_pad01 (h : s.Inv c tail) (hallow : s.Allowed i) (hst : s.pad.st = .StPad01) :
    s.StepOk c tail i := by
  have hctrl := s.ctrl_eq (c := c) hallow
  have hsent := sent_next (i := i) h
  have hle := h.sent_le
  have hdelivered := h.state
  have hprompt := s.prompt_le i
  have hidle : s.pad.st ≠ .StPadIdle := by rw [hst]; decide
  simp only [StateInv, hst] at hdelivered
  simp only [Sha3Pad.ctrlState, hst, sent_blocksize_eq, Sha3Pad.Ctrl.default] at hctrl
  by_cases hfull : s.sent = c.strength_i.keccakRate
  · rw [if_pos (decide_eq_true hfull)] at hctrl
    have hst' : (s.next c i).pad.st = .StPadFlush := congrArg (·.st_d) hctrl
    have hemit : emitted c s.pad i = [.run] :=
      emitted_run (by rw [Sha3Pad.keccak_valid_o, hctrl]) (by rw [hctrl])
    have habsorbed := not_absorbed (c := c) (i := i) (by rw [hctrl]) (by rw [hst']; decide)
    rw [hctrl, if_pos rfl] at hsent
    refine stepOk_of h hallow hidle habsorbed (by omega) ?_ ?_ ?_
    · simp only [StateInv, hst']
      exact hdelivered.next
    · simp only [rest, hst, hst', hfull, resume_self, zeroWords_self, emit, hemit, List.append_nil]
    · simp only [weight, hst, hst', hemit, List.length_singleton]
      omega
  · rw [if_neg (by simpa using hfull)] at hctrl
    have hlt : s.sent < c.strength_i.keccakRate := by omega
    have hst' : (s.next c i).pad.st = .StPad01 := congrArg (·.st_d) hctrl
    have hvalid : s.pad.keccak_valid_o c i = true := by rw [Sha3Pad.keccak_valid_o, hctrl]
    have habsorbed := not_absorbed (c := c) (i := i) (by rw [hctrl]) (by rw [hst']; decide)
    have hstate : (s.next c i).StateInv c tail := by
      simp only [StateInv, hst']
      exact hdelivered.next
    rw [hctrl, if_neg Bool.false_ne_true, hvalid, Bool.true_and] at hsent
    cases hready : i.keccak_ready_i
    · have hemit : emitted c s.pad i = [] :=
        emitted_stall (by rw [hvalid, hready]; rfl) (by rw [hctrl])
      rw [hready, if_neg Bool.false_ne_true] at hsent
      refine stepOk_of h hallow hidle habsorbed (by omega) hstate ?_ ?_
      · simp only [rest, hst, hst', hsent, hemit, List.nil_append]
      · simp only [weight, hst, hst', hemit, prompt_of_not_ready hready]
        omega
    · have hdata : (s.pad.keccak_data_o c i).unmask =
          BitVec.ofBool (decide (s.sent + 1 = c.strength_i.keccakRate)) ++ 0#63 := by
        rw [Sha3Pad.keccak_data_o, hctrl, Shares.unmask_inLast, Sha3Pad.zero_with_endbit,
          s.pad.end_of_block_eq c h.sent_le]
        rfl
      have hemit := emitted_write (by rw [hvalid, hready]; rfl) (by rw [hctrl]) hlt hdata
      rw [hready, if_pos rfl] at hsent
      refine stepOk_of h hallow hidle habsorbed (by omega) hstate ?_ ?_
      · simp only [rest, hst, hst', hsent, hemit, zeroWords_of_lt hlt, resume_of_lt hlt,
          List.singleton_append]
        rfl
      · simp only [weight, hst, hst', hemit, List.length_singleton]
        omega

theorem stepOk_flush (h : s.Inv c tail) (hallow : s.Allowed i) (hst : s.pad.st = .StPadFlush) :
    s.StepOk c tail i := by
  have hctrl := s.ctrl_eq (c := c) hallow
  have hsent := sent_next (i := i) h
  have hdelivered := h.state
  have hprompt := s.prompt_le i
  have hidle : s.pad.st ≠ .StPadIdle := by rw [hst]; decide
  simp only [StateInv, hst] at hdelivered
  simp only [Sha3Pad.ctrlState, hst, Sha3Pad.Ctrl.default] at hctrl
  cases hcomplete : i.keccak_complete_i
  · rw [hcomplete, if_neg Bool.false_ne_true] at hctrl
    have hst' : (s.next c i).pad.st = .StPadFlush := congrArg (·.st_d) hctrl
    have hemit : emitted c s.pad i = [] :=
      emitted_stall (by simp only [Sha3Pad.keccak_valid_o, hctrl, Bool.false_and]) (by rw [hctrl])
    have habsorbed := not_absorbed (c := c) (i := i) (by rw [hctrl]) (by rw [hst']; decide)
    rw [hctrl, if_pos rfl] at hsent
    refine stepOk_of h hallow hidle habsorbed (by omega) ?_ ?_ ?_
    · simp only [StateInv, hst']
      exact hdelivered.next
    · simp only [rest, hst, hst', hemit, List.nil_append]
    · simp only [weight, hst, hst', hemit, prompt_of_not_complete hcomplete]
      omega
  · rw [hcomplete, if_pos rfl] at hctrl
    have hst' : (s.next c i).pad.st = .StPadIdle := congrArg (·.st_d) hctrl
    have hemit : emitted c s.pad i = [] :=
      emitted_stall (by simp only [Sha3Pad.keccak_valid_o, hctrl, Bool.false_and]) (by rw [hctrl])
    rw [hctrl, if_pos rfl] at hsent
    have hstrb : (s.next c i).pad.msg_strb = 0 := by
      simp only [next, Sha3Pad.clock, hctrl, if_true, Bool.false_eq_true, if_false]
    refine stepOk_of h hallow hidle (by rw [hctrl]; decide) (by omega) ?_ ?_ ?_
    · simp only [StateInv, hst']
      exact ⟨hdelivered.next, hsent, hstrb⟩
    · simp only [rest, hst, hst', hemit, List.nil_append]
    · simp only [weight, hst, hst', hemit]
      omega

/-- After the message the logic stays idle. -/
theorem stepOk_idle (h : s.Inv c tail) (hallow : s.Allowed i) (hst : s.pad.st = .StPadIdle) :
    s.StepOk c tail i := by
  have hctrl := s.ctrl_eq (c := c) hallow
  have hsent := sent_next (i := i) h
  have hle := h.sent_le
  have hstate := h.state
  have hpulses := h.pulses
  simp only [StateInv, hst] at hstate
  obtain ⟨hdelivered, hzero, hstrb⟩ := hstate
  simp only [Sha3Pad.ctrlState, hst, hallow.2.2.1, Bool.false_eq_true, if_false,
    Sha3Pad.Ctrl.default] at hctrl
  have hst' : (s.next c i).pad.st = .StPadIdle := congrArg (·.st_d) hctrl
  have hvalid : s.pad.keccak_valid_o c i = false := by rw [Sha3Pad.keccak_valid_o, hctrl]
  have hemit : emitted c s.pad i = [] := emitted_stall (by rw [hvalid]; rfl) (by rw [hctrl])
  rw [hctrl, if_neg Bool.false_ne_true, hvalid, Bool.false_and, if_neg Bool.false_ne_true] at hsent
  refine ⟨⟨by omega, latched_next h hallow, ?_, ?_⟩, ?_, fun hne => absurd hst hne⟩
  · have hstrb' : (s.next c i).pad.msg_strb = s.pad.msg_strb := by
      simp only [next, Sha3Pad.clock, hctrl, Bool.false_eq_true, if_false]
    simp only [StateInv, hst']
    exact ⟨hdelivered.next, hsent.trans hzero, hstrb'.trans hstrb⟩
  · have habsorbed : (s.pad.clock c i).absorbed_o = MuBi4False := congrArg (·.absorbed_d) hctrl
    rw [hst, if_pos rfl] at hpulses
    rw [hst', if_pos rfl]
    change s.pulses + _ = 1
    rw [habsorbed, if_neg (by decide), hpulses]
  · simp only [rest, hst, hst', hemit, List.nil_append]

theorem Inv.next (h : s.Inv c tail) (hallow : s.Allowed i) : s.StepOk c tail i := by
  cases hst : s.pad.st with
  | StPadIdle => exact stepOk_idle h hallow hst
  | StPrefix => exact stepOk_prefix h hallow hst
  | StPrefixWait => exact stepOk_wait h hallow (.inl hst)
  | StMessage => exact stepOk_message h hallow hst
  | StMessageWait => exact stepOk_wait h hallow (.inr hst)
  | StPad => exact stepOk_pad h hallow hst
  | StPadRun => exact stepOk_padRun h hallow hst
  | StPad01 => exact stepOk_pad01 h hallow hst
  | StPadFlush => exact stepOk_flush h hallow hst
  | StTerminalError =>
    have hstate := h.state
    simp only [StateInv, hst] at hstate

/-! ### Runs -/

/-- What a run from `s₀` has done: its events are the first ones of those that were to come
and the prompt cycles are counted until the logic is idle. -/
structure RunOk (c : Sha3PadConfig) (tail : PartialWord) (s₀ s : Absorb EnMasking) : Prop where
  inv : s.Inv c tail
  events : s₀.events ++ s₀.rest c tail = s.events ++ s.rest c tail
  todo : s.pad.st ≠ .StPadIdle → s.todo c tail + s.prompt ≤ s₀.todo c tail + s₀.prompt

theorem RunOk.step {s₀ s' : Absorb EnMasking} (h : RunOk c tail s₀ s)
    (hstep : step c s i = some s') : RunOk c tail s₀ s' := by
  unfold Absorb.step at hstep
  split_ifs at hstep with hallow
  obtain rfl := Option.some.inj hstep
  have hnext := h.inv.next hallow
  refine ⟨hnext.inv, ?_, fun hidle => ?_⟩
  · rw [h.events, hnext.rest_eq]
    exact (List.append_assoc _ _ _).symm
  · have hne : s.pad.st ≠ .StPadIdle := by
      intro hst
      have hctrl := s.ctrl_eq (c := c) hallow
      simp only [Sha3Pad.ctrlState, hst, hallow.2.2.1, Bool.false_eq_true, if_false,
        Sha3Pad.Ctrl.default] at hctrl
      exact hidle (congrArg (·.st_d) hctrl)
    have htodo := h.todo hne
    have hle := hnext.todo_le hne
    change _ + (s.prompt + _) ≤ _
    omega

theorem runOk_run {s₀ s' : Absorb EnMasking} {inputs : List (Sha3PadIn EnMasking)}
    (hinv : s₀.Inv c tail) (hrun : run (Absorb.step c) s₀ inputs = some s') :
    RunOk c tail s₀ s' :=
  invariant_of_step (fun _ _ _ hstep h => RunOk.step h hstep) hrun
    ⟨hinv, rfl, fun _ => Nat.le_refl _⟩

end Absorb

end SecureBoot
