import Mathlib.Data.List.Induction
import SecureBoot.LcCtrl.Fsm

/-! The life cycle state machine programs a new state only at the end of an attempt in which
the counter was programmed and the token of the transition was presented, and makes at most
one attempt. -/

namespace SecureBoot

open Clocked

/-- The order of the states along an attempt, with the terminal ones last. -/
def LcFsmState.rank : LcFsmState → ℕ
  | .ResetSt => 0
  | .IdleSt => 1
  | .ClkMuxSt => 2
  | .CntIncrSt => 3
  | .CntProgSt => 4
  | .TransCheckSt => 5
  | .TokenHashSt => 6
  | .FlashRmaSt => 7
  | .TokenCheck0St => 8
  | .TokenCheck1St => 9
  | .TransProgSt => 10
  | .PostTransSt => 11
  | .ScrapSt => 11
  | .InvalidSt => 12
  | .EscalateSt => 13

namespace LcFsm

variable (RndCnstInvalidTokens : BitVec 1024) (r : LcFsm) (i : LcFsmIn)

/-! ### One cycle -/

/-- What the cycle that enters a state is like. -/
def LeadsTo : LcFsmState → Prop
  | .ResetSt => r.fsm_state_q = .ResetSt
  | .IdleSt => r.fsm_state_q = .ResetSt ∨ r.fsm_state_q = .IdleSt
  | .ClkMuxSt => r.fsm_state_q = .IdleSt ∨ r.fsm_state_q = .ClkMuxSt
  | .CntIncrSt => r.fsm_state_q = .ClkMuxSt
  | .CntProgSt =>
    (r.fsm_state_q = .CntIncrSt ∧ (r.stateTransition i).trans_cnt_oflw_error_o = false) ∨
      r.fsm_state_q = .CntProgSt
  | .TransCheckSt =>
    r.fsm_state_q = .CntProgSt ∧ i.otp_prog_ack_i = true ∧ i.otp_prog_err_i = false
  | .TokenHashSt => r.fsm_state_q = .TransCheckSt ∨ r.fsm_state_q = .TokenHashSt
  | .FlashRmaSt => r.fsm_state_q = .TokenHashSt ∨ r.fsm_state_q = .FlashRmaSt
  | .TokenCheck0St => r.fsm_state_q = .FlashRmaSt
  | .TokenCheck1St => r.fsm_state_q = .TokenCheck0St
  | .TransProgSt =>
    (r.fsm_state_q = .TokenCheck1St ∧ r.flashRmaAgrees = true ∧
        r.tokenMatches RndCnstInvalidTokens i = true) ∨
      r.fsm_state_q = .TransProgSt
  | .PostTransSt => r.fsm_state_q.rank ≤ 11
  | .ScrapSt => r.fsm_state_q.rank ≤ 11
  | .InvalidSt => r.fsm_state_q.rank ≤ 12
  | .EscalateSt => r.fsm_state_q.rank ≤ 13

theorem fsmState_leadsTo :
    r.LeadsTo RndCnstInvalidTokens i (r.fsmState RndCnstInvalidTokens i).fsm_state_d := by
  unfold fsmState
  cases hq : r.fsm_state_q <;> simp only [tokenCheck, Out.default] <;> (try split_ifs) <;>
    simp_all [LeadsTo, LcFsmState.rank]

theorem fsm_leadsTo :
    r.LeadsTo RndCnstInvalidTokens i (r.fsm RndCnstInvalidTokens i).fsm_state_d := by
  unfold fsm
  dsimp only
  split_ifs with hesc herr
  · simp only [LeadsTo]
    cases r.fsm_state_q <;> decide
  · -- Only an escalation stays as it is when there is an error.
    have hne : r.fsm_state_q ≠ .EscalateSt := by simpa using (Bool.and_eq_true_iff.mp herr).2
    simp only [LeadsTo]
    cases hq : r.fsm_state_q <;> first | exact absurd hq hne | decide
  · exact r.fsmState_leadsTo RndCnstInvalidTokens i

theorem rank_le_clock :
    r.fsm_state_q.rank ≤ (r.clock RndCnstInvalidTokens i).fsm_state_q.rank := by
  have h := r.fsm_leadsTo RndCnstInvalidTokens i
  change _ ≤ ((r.fsm RndCnstInvalidTokens i).fsm_state_d).rank
  cases hd : (r.fsm RndCnstInvalidTokens i).fsm_state_d <;> rw [hd] at h <;>
    simp only [LeadsTo] at h <;> grind [LcFsmState.rank]

theorem fsm_otp_prog_req_o :
    (r.fsm RndCnstInvalidTokens i).otp_prog_req_o =
      (r.fsm_state_q == .CntProgSt || r.fsm_state_q == .TransProgSt) := by
  have hstate : (r.fsmState RndCnstInvalidTokens i).otp_prog_req_o =
      (r.fsm_state_q == .CntProgSt || r.fsm_state_q == .TransProgSt) := by
    unfold fsmState
    cases hq : r.fsm_state_q <;> simp only [tokenCheck, Out.default] <;> (try split_ifs) <;> rfl
  unfold fsm
  dsimp only
  split_ifs <;> exact hstate

/-- The registers that a transition is about. -/
structure SameTransition (r r' : LcFsm) : Prop where
  lc_state_q : r.lc_state_q = r'.lc_state_q
  lc_cnt_q : r.lc_cnt_q = r'.lc_cnt_q
  transition_target_q : r.transition_target_q = r'.transition_target_q

theorem SameTransition.refl : SameTransition r r := ⟨rfl, rfl, rfl⟩

theorem SameTransition.trans {r r₁ r₂ : LcFsm} (h : SameTransition r r₁)
    (h' : SameTransition r₁ r₂) : SameTransition r r₂ :=
  ⟨h.1.trans h'.1, h.2.trans h'.2, h.3.trans h'.3⟩

/-- An attempt keeps the transition it is about. -/
theorem clock_same (hq : 2 ≤ r.fsm_state_q.rank) :
    SameTransition r (r.clock RndCnstInvalidTokens i) := by
  have hstate : (r.fsmState RndCnstInvalidTokens i).lc_state_d = r.lc_state_q ∧
      (r.fsmState RndCnstInvalidTokens i).lc_cnt_d = r.lc_cnt_q ∧
      (r.fsmState RndCnstInvalidTokens i).idle_o = false := by
    unfold fsmState
    cases h : r.fsm_state_q <;> rw [h] at hq <;>
      first
        | exact absurd hq (by decide)
        | (refine ⟨?_, ?_, ?_⟩ <;> simp only [tokenCheck, Out.default] <;> (try split_ifs) <;> rfl)
  have hfsm : (r.fsm RndCnstInvalidTokens i).lc_state_d = r.lc_state_q ∧
      (r.fsm RndCnstInvalidTokens i).lc_cnt_d = r.lc_cnt_q ∧
      (r.fsm RndCnstInvalidTokens i).idle_o = false := by
    unfold fsm
    dsimp only
    split_ifs <;> exact hstate
  refine ⟨hfsm.1.symm, hfsm.2.1.symm, ?_⟩
  simp only [clock, hfsm.2.2]
  rfl

/-! ### The transition that is programmed -/

theorem targetState_eq_some {trans_target_i : ExtDecLcState} {target : LcState}
    (h : targetState trans_target_i = some target) :
    trans_target_i = replicateDec target.dec := by
  have hfound := List.find?_some h
  exact (beq_iff_eq.mp hfound).symm

theorem incrCnt_eq_some {lc_cnt_i next : BitVec (24 * 16)} (h : incrCnt lc_cnt_i = some next) :
    ∃ n < 24, decodeCnt lc_cnt_i = some n ∧ next = lcCnt (n + 1) := by
  obtain ⟨n, hn, hnext⟩ := Option.bind_eq_some_iff.mp h
  split_ifs at hnext with hlt
  exact ⟨n, hlt, hn, (Option.some.inj hnext).symm⟩

/-- What a new state is assigned for. -/
theorem next_lc_state_of_ne (hne : (r.stateTransition i).next_lc_state_o ≠ r.lc_state_q) :
    r.transChecked = true ∧
      matrixAllows (r.decodeState i).dec_lc_state_o r.transition_target_q = true ∧
      ∃ target, targetState r.transition_target_q = some target ∧
        (r.stateTransition i).next_lc_state_o = target.enc := by
  simp only [stateTransition] at hne ⊢
  split_ifs at hne ⊢ with h
  · obtain ⟨hchecked, hallowed⟩ := Bool.and_eq_true_iff.mp h
    cases htarget : targetState r.transition_target_q with
    | none => exact absurd (by rw [htarget]; rfl) hne
    | some target => exact ⟨hchecked, hallowed, target, rfl, rfl⟩
  · exact absurd rfl hne

theorem dec_lt (s : LcState) : s.dec.toNat < 21 := by
  cases s <;> decide

/-- The state is decoded while a transition is checked. -/
theorem decodeState_dec_lc_state_o (hq : 1 ≤ r.fsm_state_q.rank) (hq' : r.fsm_state_q.rank ≤ 10) :
    (r.decodeState i).dec_lc_state_o =
      replicateDec (((LcState.decode r.lc_state_q).map LcState.dec).getD DecLcStInvalid) := by
  unfold decodeState
  cases h : r.fsm_state_q <;> rw [h] at hq hq' <;>
    first | exact absurd hq (by decide) | exact absurd hq' (by decide)

/-- A transition between states that the matrix has a token for. -/
theorem matrixAllows_replicate {lc_state : Option LcState} {target : LcState}
    (h : matrixAllows (replicateDec ((lc_state.map LcState.dec).getD DecLcStInvalid))
      (replicateDec target.dec) = true) :
    ∃ s, lc_state = some s ∧ TokenIdx.matrix s.dec target.dec ≠ .InvalidTokenIdx := by
  simp only [matrixAllows, copy_replicateDec, Bool.and_eq_true, Bool.or_self,
    decide_eq_true_eq, bne_iff_ne] at h
  cases lc_state with
  | none => exact absurd h.1.1.1.1 (by decide)
  | some s => exact ⟨s, rfl, h.2⟩

theorem token_idx_eq {s target : LcState} (hq : 1 ≤ r.fsm_state_q.rank)
    (hq' : r.fsm_state_q.rank ≤ 10) (hs : LcState.decode r.lc_state_q = some s)
    (htarget : r.transition_target_q = replicateDec target.dec) :
    r.token_idx i 0 = TokenIdx.matrix s.dec target.dec ∧
      r.token_idx i 1 = TokenIdx.matrix s.dec target.dec := by
  have hlt : (s.dec.toNat < 21 && target.dec.toNat < 21) = true := by
    rw [decide_eq_true (dec_lt s), decide_eq_true (dec_lt target), Bool.true_and]
  simp only [token_idx, r.decodeState_dec_lc_state_o i hq hq', hs, htarget, Option.map_some,
    Option.getD_some, copy_replicateDec, hlt, if_true, and_self]

/-! ### Tokens -/

/-- The hashed token that a transition asks for, when there is a valid one. -/
def selectedToken : TokenIdx → Option (BitVec 128)
  | .ZeroTokenIdx => some AllZeroTokenHashed
  | .RawUnlockTokenIdx => some RndCnstRawUnlockTokenHashed
  | .TestUnlockTokenIdx =>
    if i.test_tokens_valid_i = LcTx.On then some i.test_unlock_token_i else none
  | .TestExitTokenIdx =>
    if i.test_tokens_valid_i = LcTx.On then some i.test_exit_token_i else none
  | .RmaTokenIdx => if i.rma_token_valid_i = LcTx.On then some i.rma_token_i else none
  | .InvalidTokenIdx => none

theorem tokenHalf_append (token : BitVec 128) : tokenHalf token 0 ++ tokenHalf token 1 = token := by
  apply BitVec.eq_of_getLsbD_eq
  intro k hk
  simp only [tokenHalf, BitVec.getLsbD_append, BitVec.getLsbD_extractLsb']
  split_ifs with h
  · simp [h]
  · have : 64 + (k - 64) = k := by omega
    simp [this, show k - 64 < 64 by omega]

/-- A valid index selects both halves of its token. -/
theorem selectedToken_of_valid {idx : TokenIdx} (h : hashed_tokens_valid i idx = true) :
    selectedToken i idx =
      some (hashed_tokens RndCnstInvalidTokens i 0 idx ++
        hashed_tokens RndCnstInvalidTokens i 1 idx) := by
  cases idx <;> simp_all [hashed_tokens_valid, selectedToken, hashed_tokens, tokenHalf_append]

/-- A match is with the token of the transition. -/
theorem selectedToken_of_matches {idx : TokenIdx} (h₀ : r.token_idx i 0 = idx)
    (h₁ : r.token_idx i 1 = idx) (h : r.tokenMatches RndCnstInvalidTokens i = true) :
    selectedToken i idx = some i.hashed_token_i ∧ i.token_hash_err_i = false := by
  simp only [tokenMatches, hashed_token_mux, hashed_token_valid, h₀, h₁, Bool.and_self,
    Bool.and_eq_true, beq_iff_eq, Bool.not_eq_true'] at h
  rw [selectedToken_of_valid RndCnstInvalidTokens i h.2, h.1.1]
  exact ⟨rfl, h.1.2⟩

/-! ### Runs -/

/-- Some earlier cycle was like `P`. -/
def Earlier (P : LcFsm → LcFsmIn → Prop) (inputs : List LcFsmIn) : Prop :=
  Happened (fun r i => r.clock RndCnstInvalidTokens i) reset P inputs

/-- The cycle whose acknowledge says that the counter of a transition is programmed. -/
def CounterProgrammed (goal : LcFsm) (r : LcFsm) (i : LcFsmIn) : Prop :=
  r.fsm_state_q = .CntProgSt ∧ i.otp_prog_ack_i = true ∧ i.otp_prog_err_i = false ∧
    SameTransition r goal

/-- The last comparison with the token of a transition. -/
def TokenChecked (goal : LcFsm) (r : LcFsm) (i : LcFsmIn) : Prop :=
  r.fsm_state_q = .TokenCheck1St ∧ r.flashRmaAgrees = true ∧
    r.tokenMatches RndCnstInvalidTokens i = true ∧ SameTransition r goal

/-- What a run to the registers `r` has behind it. -/
structure Progress (inputs : List LcFsmIn) (r : LcFsm) : Prop where
  /-- The counter is not at its end. -/
  cnt : 4 ≤ r.fsm_state_q.rank → r.fsm_state_q.rank ≤ 10 → (incrCnt r.lc_cnt_q).isSome = true
  programmed : 5 ≤ r.fsm_state_q.rank → r.fsm_state_q.rank ≤ 10 →
    Earlier RndCnstInvalidTokens (CounterProgrammed r) inputs
  checked : r.fsm_state_q = .TransProgSt →
    Earlier RndCnstInvalidTokens (TokenChecked RndCnstInvalidTokens r) inputs

theorem run_concat (inputs : List LcFsmIn) :
    run RndCnstInvalidTokens (inputs ++ [i]) =
      (run RndCnstInvalidTokens inputs).clock RndCnstInvalidTokens i := by
  simp only [run, List.foldl_append, List.foldl_cons, List.foldl_nil]

/-- No state leads back to one before it. -/
theorem rank_le_run_append (inputs late : List LcFsmIn) :
    (run RndCnstInvalidTokens inputs).fsm_state_q.rank ≤
      (run RndCnstInvalidTokens (inputs ++ late)).fsm_state_q.rank := by
  rw [run, run, List.foldl_append]
  exact le_foldl (fun r : LcFsm => r.fsm_state_q.rank) (rank_le_clock RndCnstInvalidTokens) late _

variable {RndCnstInvalidTokens r i} {inputs : List LcFsmIn}

/-- A counter that is assigned has a next value, once it was looked at. -/
theorem LeadsTo.cnt {next : LcFsmState} (h : r.LeadsTo RndCnstInvalidTokens i next)
    (hrank : 4 ≤ next.rank) (hrank' : next.rank ≤ 10) :
    (r.fsm_state_q = .CntIncrSt ∧ (r.stateTransition i).trans_cnt_oflw_error_o = false) ∨
      (4 ≤ r.fsm_state_q.rank ∧ r.fsm_state_q.rank ≤ 10) := by
  cases next <;> simp only [LeadsTo] at h <;> grind [LcFsmState.rank]

/-- The states after the acknowledge are entered by it or from each other. -/
theorem LeadsTo.programmed {next : LcFsmState} (h : r.LeadsTo RndCnstInvalidTokens i next)
    (hrank : 5 ≤ next.rank) (hrank' : next.rank ≤ 10) :
    (r.fsm_state_q = .CntProgSt ∧ i.otp_prog_ack_i = true ∧ i.otp_prog_err_i = false) ∨
      (5 ≤ r.fsm_state_q.rank ∧ r.fsm_state_q.rank ≤ 10) := by
  cases next <;> simp only [LeadsTo] at h <;> grind [LcFsmState.rank]

theorem Progress.concat (h : Progress RndCnstInvalidTokens inputs r)
    (hr : run RndCnstInvalidTokens inputs = r) :
    Progress RndCnstInvalidTokens (inputs ++ [i]) (r.clock RndCnstInvalidTokens i) := by
  have hlead := r.fsm_leadsTo RndCnstInvalidTokens i
  have hsame := r.clock_same RndCnstInvalidTokens i
  change r.LeadsTo RndCnstInvalidTokens i (r.clock RndCnstInvalidTokens i).fsm_state_q at hlead
  refine ⟨fun hrank hrank' => ?_, fun hrank hrank' => ?_, fun hprog => ?_⟩
  · obtain ⟨hincr, hoflw⟩ | ⟨hrank, hrank'⟩ := hlead.cnt hrank hrank'
    · rw [← (hsame (by rw [hincr]; decide)).lc_cnt_q]
      simp only [stateTransition, cntAssigned, hincr] at hoflw
      simpa using hoflw
    · rw [← (hsame (by omega)).lc_cnt_q]
      exact h.cnt hrank hrank'
  · obtain ⟨hprog, hack, herr⟩ | ⟨hrank, hrank'⟩ := hlead.programmed hrank hrank'
    · refine happened_now ?_
      change CounterProgrammed _ (run RndCnstInvalidTokens inputs) i
      rw [hr]
      exact ⟨hprog, hack, herr, hsame (by rw [hprog]; decide)⟩
    · refine ((h.programmed hrank hrank').imp fun r₁ j hj => ?_).append [i]
      exact ⟨hj.1, hj.2.1, hj.2.2.1, hj.2.2.2.trans (hsame (by omega))⟩
  · rw [hprog] at hlead
    obtain ⟨hcheck, hflash, hmatch⟩ | hprog := hlead
    · refine happened_now ?_
      change TokenChecked RndCnstInvalidTokens _ (run RndCnstInvalidTokens inputs) i
      rw [hr]
      exact ⟨hcheck, hflash, hmatch, hsame (by rw [hcheck]; decide)⟩
    · refine ((h.checked hprog).imp fun r₁ j hj => ?_).append [i]
      exact ⟨hj.1, hj.2.1, hj.2.2.1, hj.2.2.2.trans (hsame (by rw [hprog]; decide))⟩

theorem progress_run (RndCnstInvalidTokens : BitVec 1024) (inputs : List LcFsmIn) :
    Progress RndCnstInvalidTokens inputs (run RndCnstInvalidTokens inputs) := by
  induction inputs using List.reverseRecOn with
  | nil =>
    have hnil : run RndCnstInvalidTokens [] = reset := rfl
    rw [hnil]
    refine ⟨fun h _ => ?_, fun h _ => ?_, fun h => ?_⟩ <;> exact absurd h (by decide)
  | append_singleton inputs i ih =>
    rw [run_concat]
    exact ih.concat rfl

/-- The flops of the synchronizer hold acknowledges that were received. -/
theorem flash_rma_ack_received (inputs : List LcFsmIn) {ack : LcTx} (hack : ack ≠ LcTx.Off) :
    ((run RndCnstInvalidTokens inputs).u_prim_lc_sync_flash_rma_ack.intq = ack →
      Earlier RndCnstInvalidTokens (fun _ j => j.lc_flash_rma_ack_i = ack) inputs) ∧
    ((run RndCnstInvalidTokens inputs).u_prim_lc_sync_flash_rma_ack.q = ack →
      Earlier RndCnstInvalidTokens (fun _ j => j.lc_flash_rma_ack_i = ack) inputs) := by
  induction inputs using List.reverseRecOn with
  | nil => exact ⟨fun h => absurd h.symm hack, fun h => absurd h.symm hack⟩
  | append_singleton inputs i ih =>
    rw [run_concat]
    exact ⟨fun h => happened_now h, fun h => (ih.1 h).append [i]⟩

/-! ### Soundness -/

/-- A cycle that starts an attempt. -/
def StartsTransition (RndCnstInvalidTokens : BitVec 1024) (r : LcFsm) (i : LcFsmIn) : Prop :=
  r.fsm_state_q = .IdleSt ∧ (r.fsm RndCnstInvalidTokens i).fsm_state_d = .ClkMuxSt

/-- The registers and the inputs of a cycle that presents the hashed token of a transition,
with the acknowledge of the flash for a transition to RMA. -/
structure PresentsToken (s target : LcState) (r : LcFsm) (i : LcFsmIn) : Prop where
  check : r.fsm_state_q = .TokenCheck1St
  token : selectedToken i (TokenIdx.matrix s.dec target.dec) = some i.hashed_token_i
  no_err : i.token_hash_err_i = false
  flash : target = .Rma → r.lc_flash_rma_req_o = LcTx.On ∧ r.lc_flash_rma_ack = LcTx.On

/-- A request after the run `inputs` that programs `target` over `s`, and the counter that
follows `n` with it. -/
structure SoundRequest (RndCnstInvalidTokens : BitVec 1024) (inputs : List LcFsmIn)
    (r : LcFsm) (i : LcFsmIn) (s target : LcState) (n : ℕ) : Prop where
  step : r.fsm_state_q = .TransProgSt
  current : LcState.decode r.lc_state_q = some s
  target_eq : r.transition_target_q = replicateDec target.dec
  next_state : (r.stateTransition i).next_lc_state_o = target.enc
  allowed : TokenIdx.matrix s.dec target.dec ≠ .InvalidTokenIdx
  cnt_lt : n < 24
  cnt_eq : decodeCnt r.lc_cnt_q = some n
  next_cnt : (r.stateTransition i).next_lc_cnt_o = lcCnt (if target = .Scrap then 24 else n + 1)
  /-- The counter was programmed, for the same transition. -/
  programmed : Earlier RndCnstInvalidTokens
    (fun r' j => CounterProgrammed r r' j ∧
      (r'.stateTransition j).next_lc_cnt_o = (r.stateTransition i).next_lc_cnt_o) inputs
  /-- The token was presented, for the same transition. -/
  token : Earlier RndCnstInvalidTokens
    (fun r' j => PresentsToken s target r' j ∧ SameTransition r' r) inputs
  flash : target = .Rma →
    Earlier RndCnstInvalidTokens (fun _ j => j.lc_flash_rma_ack_i = LcTx.On) inputs

theorem replicateDec_dec_inj (s s' : LcState) :
    replicateDec s.dec = replicateDec s'.dec ↔ s = s' := by
  cases s <;> cases s' <;> decide

theorem presentsToken_of_checked {goal r : LcFsm} {i : LcFsmIn} {s target : LcState}
    (h : TokenChecked RndCnstInvalidTokens goal r i)
    (hs : LcState.decode goal.lc_state_q = some s)
    (htarget : goal.transition_target_q = replicateDec target.dec) :
    PresentsToken s target r i := by
  obtain ⟨hcheck, hflash, hmatch, hsame⟩ := h
  have hidx := r.token_idx_eq i (by rw [hcheck]; decide) (by rw [hcheck]; decide)
    (hsame.lc_state_q.symm ▸ hs) (hsame.transition_target_q.trans htarget)
  have htoken := r.selectedToken_of_matches RndCnstInvalidTokens i hidx.1 hidx.2 hmatch
  refine ⟨hcheck, htoken.1, htoken.2, fun hrma => ?_⟩
  have htargets : r.targetsRma = true := by
    rw [targetsRma, hsame.transition_target_q, htarget, hrma, beq_self_eq_true]
  simpa [flashRmaAgrees, htargets] using hflash

theorem soundRequest_of_ne (inputs : List LcFsmIn) (i : LcFsmIn)
    (hreq : ((run RndCnstInvalidTokens inputs).fsm RndCnstInvalidTokens i).otp_prog_req_o = true)
    (hne : ((run RndCnstInvalidTokens inputs).stateTransition i).next_lc_state_o ≠
      (run RndCnstInvalidTokens inputs).lc_state_q) :
    ∃ s target n, SoundRequest RndCnstInvalidTokens inputs (run RndCnstInvalidTokens inputs) i
      s target n := by
  have hprogress := progress_run RndCnstInvalidTokens inputs
  generalize run RndCnstInvalidTokens inputs = r at hreq hne hprogress ⊢
  obtain ⟨hchecked, hallowed, target, htarget, hnext⟩ := r.next_lc_state_of_ne i hne
  have hprog : r.fsm_state_q = .TransProgSt := by
    rw [fsm_otp_prog_req_o] at hreq
    obtain h | h := Bool.or_eq_true_iff.mp hreq
    · rw [transChecked, beq_iff_eq.mp h] at hchecked
      exact absurd hchecked (by decide)
    · exact beq_iff_eq.mp h
  have hrank : r.fsm_state_q.rank = 10 := by rw [hprog]; rfl
  have htarget_eq := targetState_eq_some htarget
  rw [r.decodeState_dec_lc_state_o i (by omega) (by omega), htarget_eq] at hallowed
  obtain ⟨s, hs, hmatrix⟩ := matrixAllows_replicate hallowed
  obtain ⟨next, hincr⟩ := Option.isSome_iff_exists.mp (hprogress.cnt (by omega) (by omega))
  obtain ⟨n, hn, hcnt, rfl⟩ := incrCnt_eq_some hincr
  have hassigned : ∀ r' j, r'.cntAssigned = true → SameTransition r' r →
      (r'.stateTransition j).next_lc_cnt_o = lcCnt (if target = .Scrap then 24 else n + 1) := by
    intro r' j hassigned hsame
    simp only [stateTransition, hassigned, hsame.lc_cnt_q, hsame.transition_target_q, htarget_eq,
      hincr, if_true, Option.getD_some, replicateDec_dec_inj]
    split_ifs <;> rfl
  have hnext_cnt := hassigned r i (by rw [cntAssigned, hprog]; rfl) (SameTransition.refl r)
  refine ⟨s, target, n, hprog, hs, htarget_eq, hnext, hmatrix, hn, hcnt, hnext_cnt, ?_, ?_, ?_⟩
  · refine (hprogress.programmed (by omega) (by omega)).imp fun r' j hj => ⟨hj, ?_⟩
    rw [hassigned r' j (by rw [cntAssigned, hj.1]; rfl) hj.2.2.2, hnext_cnt]
  · exact (hprogress.checked hprog).imp fun r' j hj =>
      ⟨presentsToken_of_checked hj hs htarget_eq, hj.2.2.2⟩
  · intro hrma
    obtain ⟨early, j, late, rfl, hj⟩ := hprogress.checked hprog
    have hack := ((presentsToken_of_checked hj hs htarget_eq).flash hrma).2
    exact ((flash_rma_ack_received early (by decide)).2 hack).append _

/-- Every request for a new state is sound, a run starts at most one transition, and a terminal
state requests nothing anymore. -/
theorem lc_transitions_sound (RndCnstInvalidTokens : BitVec 1024) :
    (∀ inputs i,
      ((run RndCnstInvalidTokens inputs).fsm RndCnstInvalidTokens i).otp_prog_req_o = true →
      ((run RndCnstInvalidTokens inputs).stateTransition i).next_lc_state_o ≠
        (run RndCnstInvalidTokens inputs).lc_state_q →
      ∃ s target n, SoundRequest RndCnstInvalidTokens inputs (run RndCnstInvalidTokens inputs) i
        s target n) ∧
    (∀ inputs i late j,
      StartsTransition RndCnstInvalidTokens (run RndCnstInvalidTokens inputs) i →
      ¬StartsTransition RndCnstInvalidTokens (run RndCnstInvalidTokens (inputs ++ i :: late)) j) ∧
    ∀ inputs late i,
      (run RndCnstInvalidTokens inputs).fsm_state_q ∈
        [.PostTransSt, .ScrapSt, .EscalateSt, .InvalidSt] →
      ((run RndCnstInvalidTokens (inputs ++ late)).fsm RndCnstInvalidTokens i).otp_prog_req_o =
        false := by
  refine ⟨soundRequest_of_ne, fun inputs i late j hstart hagain => ?_, fun inputs late i hq => ?_⟩
  · -- The machine never comes back to the idle state.
    have hle := rank_le_run_append RndCnstInvalidTokens (inputs ++ [i]) late
    have hmux : (run RndCnstInvalidTokens (inputs ++ [i])).fsm_state_q = .ClkMuxSt := by
      rw [run_concat]
      exact hstart.2
    rw [List.append_assoc, List.singleton_append, hagain.1, hmux] at hle
    exact absurd hle (by decide)
  · have hle := rank_le_run_append RndCnstInvalidTokens inputs late
    rw [fsm_otp_prog_req_o]
    generalize (run RndCnstInvalidTokens (inputs ++ late)).fsm_state_q = q at hle ⊢
    have hterminal : 11 ≤ q.rank := by
      refine Nat.le_trans ?_ hle
      simp only [List.mem_cons, List.not_mem_nil, or_false] at hq
      obtain h | h | h | h := hq <;> rw [h] <;> decide
    cases q <;> first | rfl | exact absurd hterminal (by decide)

/-- The inputs of a transition from DEV to RMA, where everything is answered at once. -/
def devToRma : LcFsmIn where
  init_req_i := true
  esc_scrap_state0_i := false
  esc_scrap_state1_i := false
  lc_state_valid_i := true
  lc_state_i := LcState.Dev.enc
  lc_cnt_i := lcCnt 5
  secrets_valid_i := LcTx.On
  use_ext_clock_i := false
  test_unlock_token_i := 0
  test_exit_token_i := 0
  test_tokens_valid_i := LcTx.On
  rma_token_i := 7
  rma_token_valid_i := LcTx.On
  trans_cmd_i := true
  token_hash_ack_i := true
  token_hash_err_i := false
  token_if_fsm_err_i := false
  hashed_token_i := 7
  otp_prog_ack_i := true
  otp_prog_err_i := false
  lc_clk_byp_ack_i := LcTx.Off
  lc_flash_rma_ack_i := LcTx.On
  transition_target := replicateDec LcState.Rma.dec

theorem lc_transitions_sound_dev_to_rma :
    (∃ s target n, SoundRequest 0 (List.replicate 11 devToRma)
      (run 0 (List.replicate 11 devToRma)) devToRma s target n) ∧
    ∀ late i, ((run 0 (List.replicate 12 devToRma ++ late)).fsm 0 i).otp_prog_req_o = false := by
  have hrun : ((run 0 (List.replicate 11 devToRma)).fsm 0 devToRma).otp_prog_req_o = true ∧
      ((run 0 (List.replicate 11 devToRma)).stateTransition devToRma).next_lc_state_o ≠
        (run 0 (List.replicate 11 devToRma)).lc_state_q ∧
      ((run 0 (List.replicate 11 devToRma)).clock 0 devToRma).fsm_state_q ∈
        [.PostTransSt, .ScrapSt, .EscalateSt, .InvalidSt] := by
    decide +kernel
  constructor
  · exact (lc_transitions_sound 0).1 (List.replicate 11 devToRma) devToRma hrun.1 hrun.2.1
  · intro late i
    refine (lc_transitions_sound 0).2.2 (List.replicate 12 devToRma) late i ?_
    rw [List.replicate_succ', run_concat]
    exact hrun.2.2

end LcFsm

end SecureBoot

/-! A failed check of the clock mux while the counter is programmed aborts the transition
unless the OTP controller acknowledges the programming in the very same cycle. -/

namespace SecureBoot

namespace LcFsm

variable (RndCnstInvalidTokens : BitVec 1024) (r : LcFsm) (i : LcFsmIn)

/-! ### One cycle -/

/-- The check that the clock mux is still where it was steered to. -/
def ClockCheckFails : Prop :=
  r.fsm_state_q = .CntProgSt ∧ r.lc_clk_byp_req_o ≠ r.lc_clk_byp_ack

/-- The two overrides at the end of the process, which hold in every state. -/
def escalates : Bool := i.esc_scrap_state0_i || i.esc_scrap_state1_i

def invalidates : Bool :=
  ((r.decodeState i).state_invalid_error_o.any id || i.token_if_fsm_err_i) &&
    r.fsm_state_q != .EscalateSt

/-- The terminal state of an abort. -/
def abortState : LcFsmState :=
  if escalates i then .EscalateSt else if r.invalidates i then .InvalidSt else .PostTransSt

/-- The acknowledge without an error that is assigned after the check. -/
def AckOverrides : Prop :=
  i.otp_prog_ack_i = true ∧ i.otp_prog_err_i = false ∧ escalates i = false ∧
    r.invalidates i = false

theorem fsm_state_d_eq :
    (r.fsm RndCnstInvalidTokens i).fsm_state_d =
      if escalates i then .EscalateSt
      else if r.invalidates i then .InvalidSt
      else (r.fsmState RndCnstInvalidTokens i).fsm_state_d := by
  unfold fsm escalates invalidates
  dsimp only
  split_ifs <;> rfl

variable {r i}

theorem fsmState_of_fails (h : r.ClockCheckFails) :
    (r.fsmState RndCnstInvalidTokens i).fsm_state_d =
      if i.otp_prog_ack_i && !i.otp_prog_err_i then .TransCheckSt else .PostTransSt := by
  obtain ⟨hq, hne⟩ := h
  have hcheck : (r.lc_clk_byp_req_o != r.lc_clk_byp_ack) = true := bne_iff_ne.mpr hne
  unfold fsmState
  simp only [hq, hcheck, if_true]
  cases i.otp_prog_ack_i <;> cases i.otp_prog_err_i <;> rfl

/-- The failed check sends the machine to its abort state, except under the acknowledge. -/
theorem clock_of_fails (h : r.ClockCheckFails) (hack : ¬r.AckOverrides i) :
    (r.clock RndCnstInvalidTokens i).fsm_state_q = r.abortState i := by
  change (r.fsm RndCnstInvalidTokens i).fsm_state_d = _
  rw [fsm_state_d_eq, fsmState_of_fails RndCnstInvalidTokens h, abortState]
  split_ifs with hesc hinv hok
  · rfl
  · rfl
  · -- The acknowledge without an error is the one that overrides.
    simp only [Bool.and_eq_true, Bool.not_eq_true'] at hok
    refine absurd ⟨hok.1, hok.2, ?_, ?_⟩ hack
    · exact Bool.eq_false_iff.mpr hesc
    · exact Bool.eq_false_iff.mpr hinv
  · rfl

theorem clock_of_ackOverrides (h : r.ClockCheckFails) (hack : r.AckOverrides i) :
    (r.clock RndCnstInvalidTokens i).fsm_state_q = .TransCheckSt ∧
      r.abortState i = .PostTransSt := by
  obtain ⟨hok, herr, hesc, hinv⟩ := hack
  refine ⟨?_, ?_⟩
  · change (r.fsm RndCnstInvalidTokens i).fsm_state_d = _
    rw [fsm_state_d_eq, fsmState_of_fails RndCnstInvalidTokens h]
    simp [hok, herr, hesc, hinv]
  · simp [abortState, hesc, hinv]

theorem le_rank_abortState : 11 ≤ (r.abortState i).rank := by
  unfold abortState
  split_ifs <;> decide

/-! ### Runs -/

variable (inputs : List LcFsmIn)

/-- Every cycle of the run in which the check fails ends in the terminal state of an abort, and
no later cycle of the run hashes a token or programs a state. -/
def ClockCheckAborts : Prop :=
  ∀ early i late, inputs = early ++ i :: late →
    (run RndCnstInvalidTokens early).ClockCheckFails →
      (run RndCnstInvalidTokens (early ++ [i])).fsm_state_q =
          (run RndCnstInvalidTokens early).abortState i ∧
        ∀ later, later <+: late →
          (run RndCnstInvalidTokens (early ++ i :: later)).fsm_state_q ∉
            [.TokenHashSt, .TransProgSt]

/-- A run aborts at each failed check exactly when no error-free acknowledge of the OTP
controller falls together with one. -/
theorem clock_check_aborts_iff :
    ClockCheckAborts RndCnstInvalidTokens inputs ↔
      ∀ early i late, inputs = early ++ i :: late →
        (run RndCnstInvalidTokens early).ClockCheckFails →
          ¬(run RndCnstInvalidTokens early).AckOverrides i := by
  constructor
  · intro haborts early i late hinputs hfails hack
    obtain ⟨hnext, -⟩ := haborts early i late hinputs hfails
    obtain ⟨hcheck, habort⟩ := clock_of_ackOverrides RndCnstInvalidTokens hfails hack
    rw [run_concat, hcheck, habort] at hnext
    exact absurd hnext (by decide)
  · intro hacks early i late hinputs hfails
    have hnext := clock_of_fails RndCnstInvalidTokens hfails (hacks early i late hinputs hfails)
    refine ⟨by rw [run_concat, hnext], ?_⟩
    intro later _ hmem
    have hle := rank_le_run_append RndCnstInvalidTokens (early ++ [i]) later
    rw [run_concat, hnext, List.append_assoc, List.singleton_append] at hle
    have hterminal := (le_rank_abortState (i := i)).trans hle
    generalize (run RndCnstInvalidTokens (early ++ i :: later)).fsm_state_q = q at hterminal hmem
    simp only [List.mem_cons, List.not_mem_nil, or_false] at hmem
    obtain h | h := hmem <;> rw [h] at hterminal <;> exact absurd hterminal (by decide)

/-- The inputs of an unlock of the RAW state on the external clock. -/
def rawUnlock (lc_clk_byp_ack_i : LcTx) : LcFsmIn :=
  { devToRma with
    lc_state_i := LcState.Raw.enc
    lc_cnt_i := lcCnt 0
    secrets_valid_i := LcTx.Off
    use_ext_clock_i := true
    hashed_token_i := RndCnstRawUnlockTokenHashed
    lc_clk_byp_ack_i
    lc_flash_rma_ack_i := LcTx.Off
    transition_target := replicateDec LcState.TestUnlocked0.dec }

/-- The acknowledge of the clock bypass is withdrawn for one cycle, and comes through the
synchronizer while the counter is being programmed. -/
def rawUnlockDisturbed : List LcFsmIn :=
  ([LcTx.Off, LcTx.Off, LcTx.Off, LcTx.On, LcTx.On, LcTx.Off] ++ List.replicate 7 LcTx.On).map
    rawUnlock

/-- Under the acknowledge the transition goes on in spite of the failed check, up to a request
to program the new state that succeeds. -/
theorem clock_check_overridden :
    ¬ClockCheckAborts 0 rawUnlockDisturbed ∧
      ((run 0 (rawUnlockDisturbed.take 7)).fsm 0 (rawUnlock LcTx.On)).otp_prog_error_o = true ∧
      (run 0 (rawUnlockDisturbed.take 9)).fsm_state_q = .TokenHashSt ∧
      (run 0 rawUnlockDisturbed).fsm_state_q = .TransProgSt ∧
      ((run 0 rawUnlockDisturbed).stateTransition (rawUnlock LcTx.On)).next_lc_state_o =
        LcState.TestUnlocked0.enc ∧
      ((run 0 rawUnlockDisturbed).fsm 0 (rawUnlock LcTx.On)).trans_success_o = true := by
  have hrun : ((run 0 (rawUnlockDisturbed.take 7)).fsm_state_q = .CntProgSt ∧
        (run 0 (rawUnlockDisturbed.take 7)).lc_clk_byp_req_o ≠
          (run 0 (rawUnlockDisturbed.take 7)).lc_clk_byp_ack) ∧
      ((run 0 (rawUnlockDisturbed.take 7)).fsm 0 (rawUnlock LcTx.On)).otp_prog_error_o = true ∧
      (run 0 (rawUnlockDisturbed.take 9)).fsm_state_q = .TokenHashSt ∧
      (run 0 rawUnlockDisturbed).fsm_state_q = .TransProgSt ∧
      ((run 0 rawUnlockDisturbed).stateTransition (rawUnlock LcTx.On)).next_lc_state_o =
        LcState.TestUnlocked0.enc ∧
      ((run 0 rawUnlockDisturbed).fsm 0 (rawUnlock LcTx.On)).trans_success_o = true := by
    decide +kernel
  refine ⟨fun haborts => ?_, hrun.2⟩
  obtain ⟨-, hnever⟩ := haborts (rawUnlockDisturbed.take 7) (rawUnlock LcTx.On)
    (rawUnlockDisturbed.drop 8) rfl hrun.1
  have hprog : rawUnlockDisturbed.take 7 ++ rawUnlock LcTx.On :: rawUnlockDisturbed.drop 8 =
      rawUnlockDisturbed := rfl
  refine hnever (rawUnlockDisturbed.drop 8) (List.prefix_refl _) ?_
  rw [hprog, hrun.2.2.2.1]
  decide

end LcFsm

end SecureBoot
