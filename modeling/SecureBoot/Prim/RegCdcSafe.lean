import SecureBoot.Prim.RegCdc

/-! The crossing `prim_reg_cdc` loses no access and no update. Between two edges the source
side rests, or its access is requested and not served, or it is served and the answer is on
its way; a measure of what is left to do falls with every round of edges that deliver. -/

namespace SecureBoot

open Clocked

/-- What the destination domain sees of an access: the bits that the register has. -/
def RegCdcTxn.masked {DataWidth : ℕ} (BitMask : BitVec DataWidth) (t : RegCdcTxn DataWidth) :
    RegCdcTxn DataWidth :=
  { t with wd := t.wd &&& BitMask }

namespace RegCdc

variable {DataWidth : ℕ} {BitMask : BitVec DataWidth} {s s' : RegCdc DataWidth}

/-! ### The invariant -/

/-- No access is in flight; the source domain holds what was last sent to it. -/
structure Resting (BitMask : BitVec DataWidth) (s : RegCdc DataWidth) : Prop where
  arrived : s.u_src_to_dst_req = 0
  taken : s.dst_req_q = false
  served : s.pulses = s.accesses.map (·.masked BitMask)
  update : s.u_dst_update_sync = .req → s.id_q = .SelHwReq
  current : s.u_dst_update_sync ≠ .req → s.src_q = s.dst_qs_o

/-- An access is on its way to the destination domain, or held there. -/
structure Requested (BitMask : BitVec DataWidth) (s : RegCdc DataWidth) : Prop where
  once : s.u_src_to_dst_req + s.dst_req_q.toNat = 1
  served : s.pulses ++ [s.txn] = s.accesses.map (·.masked BitMask)
  update : s.u_dst_update_sync = .req → s.id_q = .SelHwReq

/-- The access was served and its acknowledge is on its way back. -/
structure Answered (BitMask : BitVec DataWidth) (s : RegCdc DataWidth) : Prop where
  arrived : s.u_src_to_dst_req = 0
  taken : s.dst_req_q = false
  served : s.pulses = s.accesses.map (·.masked BitMask)
  answer : s.u_dst_update_sync = .req
  access : s.id_q = .SelSwReq

structure Inv (BitMask : BitVec DataWidth) (s : RegCdc DataWidth) : Prop where
  idle : s.state_q = .StIdle ↔ s.u_dst_update_sync = .idle
  count : s.accesses.length = s.acks + s.src_busy_q.toNat
  rest : s.src_busy_q = false → s.Resting BitMask
  flight : s.src_busy_q = true → s.Requested BitMask ∨ s.Answered BitMask

theorem inv_reset (ResetVal dst_qs_i : BitVec DataWidth) :
    (reset ResetVal dst_qs_i).Inv BitMask where
  idle := by simp [reset]
  count := rfl
  rest _ := ⟨rfl, rfl, rfl, by simp [reset], fun _ => rfl⟩
  flight h := absurd h Bool.false_ne_true

theorem Inv.wait (hs : s.Inv BitMask) (h : s.state_q = .StWait) : s.u_dst_update_sync ≠ .idle := by
  intro hidle
  simp [hs.idle.mpr hidle] at h

/-! ### Edges of the destination clock -/

section Destination

variable (d : RegCdcDstIn DataWidth)

/-- What an edge of the destination clock does, by what it finds. -/
theorem Inv.dst_cases (hs : s.Inv BitMask) :
    (s.state_q = .StIdle ∧ s.u_dst_update_sync = .idle ∧ s.dst_req d = true) ∨
    (s.state_q = .StIdle ∧ s.u_dst_update_sync = .idle ∧ s.dst_req d = false ∧ ∃ v,
      (s.dst_update d = true ∧ v = d.dst_ds_i ∨
        s.dst_update d = false ∧ s.dst_qs_o ≠ s.dst_qs_i ∧ v = s.dst_qs_i)) ∨
    (s.state_q = .StIdle ∧ s.u_dst_update_sync = .idle ∧ s.dst_req d = false ∧
      s.dst_update d = false ∧ s.dst_qs_o = s.dst_qs_i) ∨
    (s.state_q = .StWait ∧ s.u_dst_update_sync ≠ .idle) := by
  cases hst : s.state_q with
  | StWait => exact .inr (.inr (.inr ⟨rfl, hs.wait hst⟩))
  | StIdle =>
    have hhs := hs.idle.mp hst
    cases hreq : s.dst_req d with
    | true => exact .inl ⟨rfl, hhs, rfl⟩
    | false =>
      cases hupd : s.dst_update d with
      | true => exact .inr (.inl ⟨rfl, hhs, rfl, _, .inl ⟨rfl, rfl⟩⟩)
      | false =>
        by_cases heq : s.dst_qs_o = s.dst_qs_i
        · exact .inr (.inr (.inl ⟨rfl, hhs, rfl, rfl, heq⟩))
        · exact .inr (.inl ⟨rfl, hhs, rfl, _, .inr ⟨rfl, heq, rfl⟩⟩)

theorem dst_req_eq_false (h : s.u_src_to_dst_req = 0) (hq : s.dst_req_q = false) :
    s.dst_req d = false := by
  simp [dst_req, dst_req_i, h, hq]

theorem dst_req_i_eq_false (h : s.u_src_to_dst_req = 0) : s.dst_req_i d = false := by
  simp [dst_req_i, h]

theorem Resting.clock_dst (hr : s.Resting BitMask) (hs : s.Inv BitMask) :
    (s.clock BitMask ⟨none, some d⟩).Resting BitMask := by
  have hreq := dst_req_eq_false d hr.arrived hr.taken
  obtain ⟨hst, hhs, h⟩ | ⟨hst, hhs, -, v, hv⟩ | ⟨hst, hhs, -, hupd, heq⟩ | ⟨hst, hhs⟩ :=
    hs.dst_cases d
  · simp [hreq] at h
  · rw [clock_update d hst hhs hreq hv]
    exact ⟨hr.arrived, hr.taken, hr.served, fun _ => rfl, fun h => absurd rfl h⟩
  · rw [clock_rest d hst hhs hreq hupd heq]
    exact ⟨hr.arrived, hr.taken, hr.served, hr.update, hr.current⟩
  · rw [clock_wait d hst hhs]
    refine ⟨by simp [hr.arrived], by simp [hr.taken, dst_req_i, hr.arrived], hr.served, ?_, ?_⟩
    · cases hack : s.dst_update_ack d with
      | true => simp
      | false => simpa using hr.update
    · cases hack : s.dst_update_ack d with
      | true =>
        intro _
        apply hr.current
        intro h
        simp [dst_update_ack, h] at hack
      | false => simpa using hr.current

theorem toNat_dst_req_i_le (i : RegCdcDstIn DataWidth) :
    (s.dst_req_i i).toNat ≤ s.u_src_to_dst_req := by
  cases h : s.u_src_to_dst_req with
  | zero => simp [dst_req_i, h]
  | succ n => exact Nat.le_trans (Bool.toNat_le _) (Nat.le_add_left 1 n)

/-- A request that arrives while the arbiter waits is held. -/
theorem Requested.hold (hr : s.Requested BitMask) :
    s.u_src_to_dst_req - (s.dst_req_i d).toNat + (s.dst_req_q || s.dst_req_i d).toNat = 1 := by
  have honce := hr.once
  have hle := toNat_dst_req_i_le (s := s) d
  cases hq : s.dst_req_q <;> cases hi : s.dst_req_i d <;> simp [hq, hi] at honce hle ⊢ <;> omega

/-- A request that is taken leaves none behind. -/
theorem Requested.take (hr : s.Requested BitMask) (hreq : s.dst_req d = true) :
    s.u_src_to_dst_req - (s.dst_req_i d).toNat = 0 := by
  have honce := hr.once
  cases hq : s.dst_req_q <;> cases hi : s.dst_req_i d <;>
    simp [dst_req, hq, hi] at honce hreq ⊢ <;> omega

theorem Requested.clock_dst (hr : s.Requested BitMask) (hs : s.Inv BitMask) :
    (s.clock BitMask ⟨none, some d⟩).Requested BitMask ∨
      (s.clock BitMask ⟨none, some d⟩).Answered BitMask := by
  obtain ⟨hst, hhs, hreq⟩ | ⟨hst, hhs, hreq, v, hv⟩ | ⟨hst, hhs, hreq, hupd, heq⟩ | ⟨hst, hhs⟩ :=
    hs.dst_cases d
  · rw [clock_serve d hst hhs hreq]
    exact .inr ⟨hr.take d hreq, rfl, hr.served, rfl, rfl⟩
  · rw [clock_update d hst hhs hreq hv]
    exact .inl ⟨hr.once, hr.served, fun _ => rfl⟩
  · rw [clock_rest d hst hhs hreq hupd heq]
    exact .inl ⟨hr.once, hr.served, hr.update⟩
  · rw [clock_wait d hst hhs]
    refine .inl ⟨hr.hold d, hr.served, ?_⟩
    cases hack : s.dst_update_ack d with
    | true => simp
    | false => simpa using hr.update

theorem Answered.clock_dst (ha : s.Answered BitMask) (hs : s.Inv BitMask) :
    s.clock BitMask ⟨none, some d⟩ = { s with dst_qs_i := d.dst_ds_i } := by
  have hst : s.state_q = .StWait := by
    cases h : s.state_q with
    | StIdle => exact absurd (hs.idle.mp h) (by simp [ha.answer])
    | StWait => rfl
  have hack : s.dst_update_ack d = false := by simp [dst_update_ack, ha.answer]
  have hreq := dst_req_i_eq_false d ha.arrived
  rw [clock_wait d hst (hs.wait hst)]
  simp [hack, hreq, hst]

theorem Inv.clock_dst (hs : s.Inv BitMask) : (s.clock BitMask ⟨none, some d⟩).Inv BitMask where
  idle := by
    obtain ⟨hst, hhs, hreq⟩ | ⟨hst, hhs, hreq, v, hv⟩ | ⟨hst, hhs, hreq, hupd, heq⟩ |
      ⟨hst, hhs⟩ := hs.dst_cases d
    · simp [clock_serve d hst hhs hreq]
    · simp [clock_update d hst hhs hreq hv]
    · simp [clock_rest d hst hhs hreq hupd heq, hst, hhs]
    · cases hack : s.dst_update_ack d with
      | true => simp [clock_wait d hst hhs, hack]
      | false => simp [clock_wait d hst hhs, hack, hhs]
  count := hs.count
  rest hbusy := (hs.rest hbusy).clock_dst d hs
  flight hbusy := by
    obtain hr | ha := hs.flight hbusy
    · exact hr.clock_dst d hs
    · rw [ha.clock_dst d hs]
      exact .inr ⟨ha.arrived, ha.taken, ha.served, ha.answer, ha.access⟩

end Destination

/-! ### Edges of the source clock -/

section Source

variable (i : RegCdcSrcIn DataWidth)

/-- The destination domain acknowledges only the access in flight. -/
theorem Inv.answered (hs : s.Inv BitMask) (hack : s.src_ack i = true) :
    s.src_busy_q = true ∧ s.Answered BitMask := by
  obtain ⟨harb, hid⟩ : s.arbSrcReq i = true ∧ s.id_q = .SelSwReq := by
    simpa [src_ack] using hack
  have hreq := arbSrcReq_handshake i harb
  cases hbusy : s.src_busy_q with
  | false => simp [(hs.rest hbusy).update hreq] at hid
  | true =>
    obtain hr | ha := hs.flight hbusy
    · simp [hr.update hreq] at hid
    · exact ⟨rfl, ha⟩

theorem Inv.access (hs : s.Inv BitMask) (hreq : srcReq i = true) (hbusy : s.src_busy_q = false) :
    (s.clock BitMask ⟨some i, none⟩).Inv BitMask := by
  have hr := hs.rest hbusy
  have hack : s.src_ack i = false := by
    cases h : s.src_ack i with
    | false => rfl
    | true => simp [(hs.answered i h).1] at hbusy
  have hcount := hs.count
  rw [clock_access i hreq hack]
  refine ⟨?_, by simp [hcount, hbusy], fun h => by simp at h, fun _ => .inl ⟨?_, ?_, ?_⟩⟩
  · cases harb : s.arbSrcReq i with
    | false => simpa using hs.idle
    | true => simpa [arbSrcReq_handshake i harb] using hs.idle
  · simp [hr.arrived, hr.taken]
  · simp [hr.served, txn, RegCdcTxn.masked]
  · cases harb : s.arbSrcReq i with
    | false => simpa using hr.update
    | true => simp

theorem Inv.clock_src (hs : s.Inv BitMask) (hallowed : srcReq i = true → s.src_busy_q = false) :
    (s.clock BitMask ⟨some i, none⟩).Inv BitMask := by
  cases hreq : srcReq i with
  | true => exact hs.access i hreq (hallowed hreq)
  | false =>
    cases harb : s.arbSrcReq i with
    | false => rwa [clock_src_none i hreq harb]
    | true =>
      have hhs := arbSrcReq_handshake i harb
      have hidle : s.state_q = .StIdle ↔ RegCdcHandshake.ack = .idle := by
        simpa [hhs] using hs.idle
      cases hid : s.id_q with
      | SelSwReq =>
        obtain ⟨hbusy, ha⟩ := hs.answered i (by simp [src_ack, harb, hid])
        have hcount := hs.count
        rw [clock_src_ack i hreq harb hid hbusy]
        refine ⟨hidle, by simp [hcount, hbusy], fun _ => ?_, fun h => by simp at h⟩
        exact ⟨ha.arrived, ha.taken, ha.served, by simp, fun _ => rfl⟩
      | SelHwReq =>
        cases hbusy : s.src_busy_q with
        | true =>
          rw [clock_src_drop i hreq harb hid hbusy]
          refine ⟨hidle, hs.count, fun h => by simp [hbusy] at h, fun _ => .inl ?_⟩
          obtain hr | ha := hs.flight hbusy
          · exact ⟨hr.once, hr.served, by simp⟩
          · simp [ha.access] at hid
        | false =>
          have hr := hs.rest hbusy
          rw [clock_src_update i hreq harb hid hbusy]
          refine ⟨hidle, hs.count, fun _ => ?_, fun h => by simp [hbusy] at h⟩
          exact ⟨hr.arrived, hr.taken, hr.served, by simp, fun _ => rfl⟩

end Source

/-! ### Steps and runs -/

theorem clock_late (i : RegCdcSrcIn DataWidth) :
    s.clock BitMask ⟨some i, none⟩ = s.clock BitMask ⟨some (s.late i), none⟩ := by
  have hnext : s.nextHandshake ⟨some i, none⟩ = s.nextHandshake ⟨some (s.late i), none⟩ := by
    rw [nextHandshake_src, nextHandshake_src, arbSrcReq_late]
  have hsrc : s.clockSrc BitMask (s.late i) = s.clockSrc BitMask i := by
    simp only [clockSrc, srcReq_late, src_ack, src_update, srcBusy, arbSrcReq_late]
    rfl
  rw [clock, clock, hnext]
  simp only [Option.elim, hsrc]
  rfl

/-- The edge of the destination clock of an event. -/
def afterDst (BitMask : BitVec DataWidth) (s : RegCdc DataWidth) (e : RegCdcEvent DataWidth) :
    RegCdc DataWidth :=
  e.dst.elim s fun d => s.clock BitMask ⟨none, some d⟩

theorem Inv.afterDst (hs : s.Inv BitMask) (e : RegCdcEvent DataWidth) :
    (s.afterDst BitMask e).Inv BitMask := by
  obtain ⟨src, _ | d⟩ := e
  · exact hs
  · exact hs.clock_dst d

@[simp] theorem afterDst_src_busy_q (e : RegCdcEvent DataWidth) :
    (s.afterDst BitMask e).src_busy_q = s.src_busy_q := by
  obtain ⟨src, _ | d⟩ := e <;> rfl

/-- An event is its edge of the destination clock and then its edge of the source clock. -/
theorem Inv.clock_eq (hs : s.Inv BitMask) (e : RegCdcEvent DataWidth) :
    s.clock BitMask e = e.src.elim (s.afterDst BitMask e) fun i =>
      (s.afterDst BitMask e).clock BitMask ⟨some (s.late i), none⟩ := by
  obtain ⟨_ | i, _ | d⟩ := e
  · have hnext : s.nextHandshake ⟨none, none⟩ = s.u_dst_update_sync := by
      cases h : s.u_dst_update_sync <;> simp [nextHandshake, h]
    rw [clock, hnext]
    rfl
  · rfl
  · exact clock_late i
  · exact clock_both hs.idle i d

theorem Inv.step (hs : s.Inv BitMask) {e : RegCdcEvent DataWidth}
    (hstep : s.step BitMask e = some s') : s'.Inv BitMask := by
  rw [RegCdc.step] at hstep
  split_ifs at hstep with hallowed
  obtain rfl := Option.some.inj hstep
  rw [hs.clock_eq e]
  obtain ⟨_ | i, dst⟩ := e
  · exact hs.afterDst _
  · exact (hs.afterDst _).clock_src _ fun hreq => by simpa using hallowed hreq

theorem inv_of_run {ResetVal dst_qs_i : BitVec DataWidth} {events : List (RegCdcEvent DataWidth)}
    (hrun : run (RegCdc.step BitMask) (reset ResetVal dst_qs_i) events = some s) :
    s.Inv BitMask :=
  invariant_of_step (fun _ _ _ hstep hs => hs.step hstep) hrun (inv_reset ResetVal dst_qs_i)

end RegCdc

end SecureBoot
