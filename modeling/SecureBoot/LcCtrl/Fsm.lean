import SecureBoot.Lib.Bits
import SecureBoot.Lib.Clocked

/-! The packages of the life cycle controller: the life cycle signals, the encodings of the
life cycle state and of its transition counter in OTP, and the matrix that says which token
a transition takes. -/

namespace SecureBoot

/-- `lc_tx_t`, which also has invalid values. -/
abbrev LcTx := BitVec 4

namespace LcTx

def On : LcTx := 0b0101#4

def Off : LcTx := 0b1010#4

end LcTx

/-! ### Encodings -/

/-- `lc_state_e`, in the order of the decoded states. -/
inductive LcState
  | Raw
  | TestUnlocked0
  | TestLocked0
  | TestUnlocked1
  | TestLocked1
  | TestUnlocked2
  | TestLocked2
  | TestUnlocked3
  | TestLocked3
  | TestUnlocked4
  | TestLocked4
  | TestUnlocked5
  | TestLocked5
  | TestUnlocked6
  | TestLocked6
  | TestUnlocked7
  | Dev
  | Prod
  | ProdEnd
  | Rma
  | Scrap
  deriving DecidableEq

namespace LcState

def all : List LcState :=
  [.Raw, .TestUnlocked0, .TestLocked0, .TestUnlocked1, .TestLocked1, .TestUnlocked2,
    .TestLocked2, .TestUnlocked3, .TestLocked3, .TestUnlocked4, .TestLocked4,
    .TestUnlocked5, .TestLocked5, .TestUnlocked6, .TestLocked6, .TestUnlocked7, .Dev,
    .Prod, .ProdEnd, .Rma, .Scrap]

/-- The value of `dec_lc_state_e`. -/
def dec (s : LcState) : BitVec 5 := BitVec.ofNat 5 (all.idxOf s)

/-- `A0` to `A19`. -/
def wordA : List (BitVec 16) :=
  [0x8638, 0xc626, 0x21ec, 0x19e8, 0x9664, 0x1616, 0x5252, 0x225f, 0x03b9, 0xc978, 0x21b7,
    0xb107, 0x3810, 0x30ab, 0x3d20, 0xab12, 0x4694, 0xbf85, 0xe417, 0x495a]

/-- `B0` to `B19`. -/
def wordB : List (BitVec 16) :=
  [0xe679, 0xdf6e, 0x77ed, 0xdbec, 0xde74, 0xb677, 0xdff2, 0x3aff, 0xc3bf, 0xfb79, 0xb5ff,
    0xfd87, 0xf930, 0xb4fb, 0x3f6b, 0xff9a, 0x5f97, 0xbfd7, 0xfcbf, 0xe9ff]

/-- The words of the state that are at their second stage. -/
def stageB (s : LcState) (k : ℕ) : Bool :=
  match s with
  | .Dev => k < 16
  | .Prod => k < 15 || k == 16
  | .ProdEnd => k < 15 || k == 17
  | .Rma => k != 17
  | .Scrap => true
  | _ => k < all.idxOf s

/-- Word `k` of the encoding. -/
def word (s : LcState) (k : ℕ) : BitVec 16 :=
  if s = .Raw then 0 else if s.stageB k then wordB.getD k 0 else wordA.getD k 0

/-- The vector of `n` words, word 0 in the low bits. -/
def packWords (n : ℕ) (word : ℕ → BitVec 16) : BitVec (n * 16) :=
  Bits.ofBits (n * 16) fun j => (word (j / 16)).getLsbD (j % 16)

/-- The encoding in OTP. -/
def enc (s : LcState) : BitVec (20 * 16) := packWords 20 s.word

/-- The state of an encoding, if it is one. -/
def decode (lc_state_i : BitVec (20 * 16)) : Option LcState := all.find? (·.enc == lc_state_i)

end LcState

/-- `C0` to `C23`. -/
def lcCntWordC : List (BitVec 16) :=
  [0x0c1b, 0x7314, 0x1ba2, 0x0d42, 0x1fd1, 0x2430, 0x2e8f, 0x443d, 0xe02c, 0x272e, 0x2cee,
    0xc113, 0x8dad, 0x07cb, 0xd24a, 0x18f5, 0x83a3, 0x4d51, 0xa42a, 0x1e70, 0x2a7e, 0x90f0,
    0x5a81, 0xd12e]

/-- `D0` to `D23`. -/
def lcCntWordD : List (BitVec 16) :=
  [0x3e1f, 0xfb76, 0x3fe3, 0xcdd6, 0x1ff9, 0x7735, 0xbebf, 0x5cfd, 0xe5bd, 0xb7af, 0xaefe,
    0xe19b, 0x9fbd, 0x9fcf, 0xd2ef, 0x3cf7, 0xcfef, 0xfd53, 0xa7ee, 0x7ff3, 0x6bfe, 0x92fd,
    0xfa95, 0xf9ae]

/-- `LcCnt0` to `LcCnt24`. -/
def lcCnt (n : ℕ) : BitVec (24 * 16) :=
  LcState.packWords 24 fun k =>
    if n = 0 then 0 else if k < n then lcCntWordD.getD k 0 else lcCntWordC.getD k 0

def decodeCnt (lc_cnt_i : BitVec (24 * 16)) : Option ℕ :=
  (List.range 25).find? (lcCnt · == lc_cnt_i)

/-! ### Decoded states -/

def DecLcStPostTrans : BitVec 5 := 21

def DecLcStEscalate : BitVec 5 := 22

def DecLcStInvalid : BitVec 5 := 23

/-- `ext_dec_lc_state_t`: six copies of a decoded state. -/
abbrev ExtDecLcState := BitVec (5 * 6)

/-- `{DecLcStateNumRep{x}}`. -/
def replicateDec (x : BitVec 5) : ExtDecLcState := x.replicate 6

/-- Copy `k`. -/
def ExtDecLcState.copy (x : ExtDecLcState) (k : ℕ) : BitVec 5 := x.extractLsb' (5 * k) 5

theorem copy_replicateDec (x : BitVec 5) :
    (replicateDec x).copy 0 = x ∧ (replicateDec x).copy 1 = x := by
  revert x
  decide

/-! ### Tokens -/

/-- `token_idx_e`. -/
inductive TokenIdx
  | ZeroTokenIdx
  | RawUnlockTokenIdx
  | TestUnlockTokenIdx
  | TestExitTokenIdx
  | RmaTokenIdx
  | InvalidTokenIdx
  deriving DecidableEq

namespace TokenIdx

/-- A row of the matrix, from the last target to the first one. -/
def testUnlockedRow (idx : ℕ) : List TokenIdx :=
  List.replicate 2 ZeroTokenIdx ++ List.replicate 3 TestExitTokenIdx ++
    (List.replicate (7 - idx) [InvalidTokenIdx, ZeroTokenIdx]).flatten ++
    List.replicate (2 * idx + 2) InvalidTokenIdx

def testLockedRow (idx : ℕ) : List TokenIdx :=
  [ZeroTokenIdx, InvalidTokenIdx] ++ List.replicate 3 TestExitTokenIdx ++
    (List.replicate (7 - idx) [TestUnlockTokenIdx, InvalidTokenIdx]).flatten ++
    List.replicate (2 * idx + 2) InvalidTokenIdx

/-- `TransTokenIdxMatrix`, from the last state to the first one. -/
def matrixRows : List (List TokenIdx) :=
  [ -- SCRAP, RMA, PROD_END, PROD, DEV
    List.replicate 21 InvalidTokenIdx,
    ZeroTokenIdx :: List.replicate 20 InvalidTokenIdx,
    ZeroTokenIdx :: List.replicate 20 InvalidTokenIdx,
    ZeroTokenIdx :: RmaTokenIdx :: List.replicate 19 InvalidTokenIdx,
    ZeroTokenIdx :: RmaTokenIdx :: List.replicate 19 InvalidTokenIdx,
    -- TEST_UNLOCKED0-7, TEST_LOCKED0-6
    testUnlockedRow 7, testLockedRow 6, testUnlockedRow 6, testLockedRow 5, testUnlockedRow 5,
    testLockedRow 4, testUnlockedRow 4, testLockedRow 3, testUnlockedRow 3, testLockedRow 2,
    testUnlockedRow 2, testLockedRow 1, testUnlockedRow 1, testLockedRow 0, testUnlockedRow 0,
    -- RAW
    ZeroTokenIdx :: List.replicate 4 InvalidTokenIdx ++
      (List.replicate 8 [RawUnlockTokenIdx, InvalidTokenIdx]).flatten]

/-- `TransTokenIdxMatrix[state][target]`, for states below `NumLcStates`. -/
def matrix (state target : BitVec 5) : TokenIdx :=
  ((matrixRows.reverse.getD state.toNat []).reverse).getD target.toNat InvalidTokenIdx

end TokenIdx

end SecureBoot

/-! The main state machine of the life cycle controller (`lc_ctrl_fsm`) with the decoder of
the state, the transition checks and the token mux, and the target register of `lc_ctrl`
that can be written while the machine is idle. -/

namespace SecureBoot

open Clocked

/-- `fsm_state_e`. -/
inductive LcFsmState
  | ResetSt
  | IdleSt
  | ClkMuxSt
  | CntIncrSt
  | CntProgSt
  | TransCheckSt
  | TokenHashSt
  | FlashRmaSt
  | TokenCheck0St
  | TokenCheck1St
  | TransProgSt
  | PostTransSt
  | ScrapSt
  | EscalateSt
  | InvalidSt
  deriving DecidableEq

/-- The inputs of `lc_ctrl_fsm`, and what software would write to the target register. -/
structure LcFsmIn where
  init_req_i : Bool
  esc_scrap_state0_i : Bool
  esc_scrap_state1_i : Bool
  lc_state_valid_i : Bool
  lc_state_i : BitVec (20 * 16)
  lc_cnt_i : BitVec (24 * 16)
  secrets_valid_i : LcTx
  use_ext_clock_i : Bool
  test_unlock_token_i : BitVec 128
  test_exit_token_i : BitVec 128
  test_tokens_valid_i : LcTx
  rma_token_i : BitVec 128
  rma_token_valid_i : LcTx
  trans_cmd_i : Bool
  token_hash_ack_i : Bool
  token_hash_err_i : Bool
  token_if_fsm_err_i : Bool
  hashed_token_i : BitVec 128
  otp_prog_ack_i : Bool
  otp_prog_err_i : Bool
  lc_clk_byp_ack_i : LcTx
  lc_flash_rma_ack_i : LcTx
  transition_target : ExtDecLcState

/-- The registers of `lc_ctrl_fsm`, and the target register. -/
structure LcFsm where
  fsm_state_q : LcFsmState
  lc_state_q : BitVec (20 * 16)
  lc_cnt_q : BitVec (24 * 16)
  lc_state_valid_q : Bool
  u_prim_lc_sync_clk_byp_ack : Sync LcTx
  u_prim_lc_sync_flash_rma_ack : Sync LcTx
  lc_clk_byp_req_o : LcTx
  lc_flash_rma_req_o : LcTx
  lc_check_byp_en_o : LcTx
  transition_target_q : ExtDecLcState

namespace LcFsm

def reset : LcFsm where
  fsm_state_q := .ResetSt
  lc_state_q := LcState.Scrap.enc
  lc_cnt_q := lcCnt 24
  lc_state_valid_q := false
  u_prim_lc_sync_clk_byp_ack := ⟨LcTx.Off, LcTx.Off⟩
  u_prim_lc_sync_flash_rma_ack := ⟨LcTx.Off, LcTx.Off⟩
  lc_clk_byp_req_o := LcTx.Off
  lc_flash_rma_req_o := LcTx.Off
  lc_check_byp_en_o := LcTx.Off
  transition_target_q := replicateDec LcState.Raw.dec

variable (RndCnstInvalidTokens : BitVec 1024) (r : LcFsm) (i : LcFsmIn)

/-- All copies of the synchronized acknowledge. -/
def lc_clk_byp_ack : LcTx := r.u_prim_lc_sync_clk_byp_ack.q

/-- All copies of the synchronized acknowledge. -/
def lc_flash_rma_ack : LcTx := r.u_prim_lc_sync_flash_rma_ack.q

/-! ### `lc_ctrl_state_decode` -/

inductive DecLcIdState
  | DecLcIdBlank
  | DecLcIdPersonalized
  | DecLcIdInvalid

structure StateDecode where
  dec_lc_state_o : ExtDecLcState
  dec_lc_id_state_o : DecLcIdState
  dec_lc_cnt_o : BitVec 5
  /-- `state_invalid_error_o`, bit 0 first. -/
  state_invalid_error_o : List Bool

/-- What is decoded in the states that the life cycle state does not decide. -/
def StateDecode.fixed (dec_lc_state : BitVec 5) : StateDecode :=
  ⟨replicateDec dec_lc_state, .DecLcIdInvalid, -1#5, List.replicate 6 false⟩

def decodeState : StateDecode :=
  match r.fsm_state_q with
  | .ResetSt => .fixed DecLcStInvalid
  | .EscalateSt => .fixed DecLcStEscalate
  | .PostTransSt => .fixed DecLcStPostTrans
  | .InvalidSt => .fixed DecLcStInvalid
  | .ScrapSt => .fixed LcState.Scrap.dec
  | _ =>
    let state := LcState.decode r.lc_state_q
    let cnt := decodeCnt r.lc_cnt_q
    { dec_lc_state_o := replicateDec ((state.map LcState.dec).getD DecLcStInvalid)
      dec_lc_id_state_o :=
        if i.secrets_valid_i = LcTx.Off then .DecLcIdBlank
        else if i.secrets_valid_i = LcTx.On then .DecLcIdPersonalized else .DecLcIdInvalid
      dec_lc_cnt_o := (cnt.map (BitVec.ofNat 5)).getD (-1#5)
      state_invalid_error_o :=
        [!r.lc_state_valid_q, state.isNone, cnt.isNone,
          i.secrets_valid_i != LcTx.Off && i.secrets_valid_i != LcTx.On,
          r.lc_state_q != LcState.Raw.enc && r.lc_cnt_q == lcCnt 0,
          i.secrets_valid_i == LcTx.On &&
            !([.Dev, .Prod, .ProdEnd, .Rma, .Scrap].map LcState.enc).contains r.lc_state_q] }

/-! ### `lc_ctrl_state_transition` -/

structure StateTransition where
  next_lc_state_o : BitVec (20 * 16)
  next_lc_cnt_o : BitVec (24 * 16)
  trans_cnt_oflw_error_o : Bool
  trans_invalid_error_o : Bool

/-- The states in which the incremented counter is assigned. -/
def cntAssigned : Bool :=
  [.CntIncrSt, .CntProgSt, .TransCheckSt, .TokenCheck0St, .TokenCheck1St, .TransProgSt].contains
    r.fsm_state_q

/-- The states in which the transition is checked. -/
def transChecked : Bool :=
  [.TransCheckSt, .TokenCheck0St, .TokenCheck1St, .TransProgSt].contains r.fsm_state_q

/-- The next counter value, if there is one. -/
def incrCnt (lc_cnt_i : BitVec (24 * 16)) : Option (BitVec (24 * 16)) :=
  (decodeCnt lc_cnt_i).bind fun n => if n < 24 then some (lcCnt (n + 1)) else none

/-- The encoded state of a target with equal copies. -/
def targetState (trans_target_i : ExtDecLcState) : Option LcState :=
  LcState.all.find? fun s => replicateDec s.dec == trans_target_i

/-- Both looks into the matrix are at states, and one of them finds a token. -/
def matrixAllows (dec_lc_state_i trans_target_i : ExtDecLcState) : Bool :=
  dec_lc_state_i.copy 0 ≤ LcState.Scrap.dec && trans_target_i.copy 0 ≤ LcState.Scrap.dec &&
    dec_lc_state_i.copy 1 ≤ LcState.Scrap.dec && trans_target_i.copy 1 ≤ LcState.Scrap.dec &&
    (TokenIdx.matrix (dec_lc_state_i.copy 0) (trans_target_i.copy 0) != .InvalidTokenIdx ||
      TokenIdx.matrix (dec_lc_state_i.copy 1) (trans_target_i.copy 1) != .InvalidTokenIdx)

def stateTransition : StateTransition :=
  let dec_lc_state_i := (r.decodeState i).dec_lc_state_o
  let target :=
    if r.transChecked && matrixAllows dec_lc_state_i r.transition_target_q then
      targetState r.transition_target_q
    else none
  { next_lc_state_o := (target.map LcState.enc).getD r.lc_state_q
    next_lc_cnt_o :=
      if r.cntAssigned then
        if r.transition_target_q = replicateDec LcState.Scrap.dec then lcCnt 24
        else (incrCnt r.lc_cnt_q).getD r.lc_cnt_q
      else r.lc_cnt_q
    trans_cnt_oflw_error_o := r.cntAssigned && (incrCnt r.lc_cnt_q).isNone
    trans_invalid_error_o :=
      r.transChecked && (target.isNone || (targetState dec_lc_state_i).isNone) }

/-! ### Token mux -/

def AllZeroTokenHashed : BitVec 128 := 0x3852305baecf5ff1d5c1d25f6db9058d#128

def RndCnstRawUnlockTokenHashed : BitVec 128 := 0xdec8cca47526bc0793af7bb7560dd5a2#128

/-- Half `half` of the entry of a token index in the random constant, the lower half being
the first one. -/
def invalidToken (half idx : ℕ) : BitVec 64 :=
  RndCnstInvalidTokens.extractLsb' (512 * (1 - half) + 64 * idx) 64

/-- Half `half` of a token, `lower` being the first one. -/
def tokenHalf (token : BitVec 128) (half : ℕ) : BitVec 64 := token.extractLsb' (64 * (1 - half)) 64

/-- `hashed_tokens_lower` for half 0 and `hashed_tokens_upper` for half 1. -/
def hashed_tokens (half : ℕ) : TokenIdx → BitVec 64
  | .ZeroTokenIdx => tokenHalf AllZeroTokenHashed half
  | .RawUnlockTokenIdx => tokenHalf RndCnstRawUnlockTokenHashed half
  | .TestUnlockTokenIdx =>
    if i.test_tokens_valid_i = LcTx.On then tokenHalf i.test_unlock_token_i half
    else invalidToken RndCnstInvalidTokens half 2
  | .TestExitTokenIdx =>
    if i.test_tokens_valid_i = LcTx.On then tokenHalf i.test_exit_token_i half
    else invalidToken RndCnstInvalidTokens half 3
  | .RmaTokenIdx =>
    if i.rma_token_valid_i = LcTx.On then tokenHalf i.rma_token_i half
    else invalidToken RndCnstInvalidTokens half 4
  | .InvalidTokenIdx => invalidToken RndCnstInvalidTokens half 5

/-- `hashed_tokens_valid0` and `hashed_tokens_valid1`. -/
def hashed_tokens_valid : TokenIdx → Bool
  | .ZeroTokenIdx => true
  | .RawUnlockTokenIdx => true
  | .TestUnlockTokenIdx => i.test_tokens_valid_i == LcTx.On
  | .TestExitTokenIdx => i.test_tokens_valid_i == LcTx.On
  | .RmaTokenIdx => i.rma_token_valid_i == LcTx.On
  | .InvalidTokenIdx => false

/-- `token_idx0` and `token_idx1`. -/
def token_idx (k : ℕ) : TokenIdx :=
  let dec_lc_state := (r.decodeState i).dec_lc_state_o.copy k
  let trans_target := r.transition_target_q.copy k
  if dec_lc_state.toNat < 21 && trans_target.toNat < 21 then
    TokenIdx.matrix dec_lc_state trans_target
  else .InvalidTokenIdx

def hashed_token_mux : BitVec 128 :=
  hashed_tokens RndCnstInvalidTokens i 0 (r.token_idx i 0) ++
    hashed_tokens RndCnstInvalidTokens i 1 (r.token_idx i 1)

/-- `&hashed_token_valid_mux`. -/
def hashed_token_valid : Bool :=
  hashed_tokens_valid i (r.token_idx i 0) && hashed_tokens_valid i (r.token_idx i 1)

def trans_invalid_error_o : Bool :=
  (r.stateTransition i).trans_invalid_error_o || r.token_idx i 0 != r.token_idx i 1

/-- The comparison that is made in three states. -/
def tokenMatches : Bool :=
  i.hashed_token_i == r.hashed_token_mux RndCnstInvalidTokens i && !i.token_hash_err_i &&
    r.hashed_token_valid i

/-! ### `p_fsm` -/

/-- The outputs of the process. -/
structure Out where
  fsm_state_d : LcFsmState
  lc_state_d : BitVec (20 * 16)
  lc_cnt_d : BitVec (24 * 16)
  token_hash_req_o : Bool
  token_hash_req_chk_o : Bool
  otp_prog_req_o : Bool
  token_invalid_error_o : Bool
  otp_prog_error_o : Bool
  flash_rma_error_o : Bool
  trans_success_o : Bool
  state_invalid_error_o : Bool
  init_done_o : Bool
  idle_o : Bool
  lc_clk_byp_req : LcTx
  lc_flash_rma_req : LcTx
  lc_check_byp_en : LcTx

def Out.default : Out where
  fsm_state_d := r.fsm_state_q
  lc_state_d := r.lc_state_q
  lc_cnt_d := r.lc_cnt_q
  token_hash_req_o := false
  token_hash_req_chk_o := true
  otp_prog_req_o := false
  token_invalid_error_o := false
  otp_prog_error_o := false
  flash_rma_error_o := false
  trans_success_o := false
  state_invalid_error_o := false
  init_done_o := true
  idle_o := false
  lc_clk_byp_req := r.lc_clk_byp_req_o
  lc_flash_rma_req := r.lc_flash_rma_req_o
  lc_check_byp_en := r.lc_check_byp_en_o

/-- The life cycle states that may switch to an external clock. -/
def extClockAllowed : Bool :=
  ([.Raw, .TestLocked0, .TestLocked1, .TestLocked2, .TestLocked3, .TestLocked4, .TestLocked5,
    .TestLocked6, .TestUnlocked0, .TestUnlocked1, .TestUnlocked2, .TestUnlocked3,
    .TestUnlocked4, .TestUnlocked5, .TestUnlocked6, .TestUnlocked7, .Rma].map
      LcState.enc).contains r.lc_state_q

def targetsRma : Bool := r.transition_target_q == replicateDec LcState.Rma.dec

/-- The request and the acknowledge that the target asks for. -/
def flashRmaAgrees : Bool :=
  (!r.targetsRma && r.lc_flash_rma_req_o == LcTx.Off && r.lc_flash_rma_ack == LcTx.Off) ||
    (r.targetsRma && r.lc_flash_rma_req_o == LcTx.On && r.lc_flash_rma_ack == LcTx.On)

/-- The check of `TokenCheck0St` and `TokenCheck1St`, with the state that follows. -/
def tokenCheck (next : LcFsmState) : Out :=
  let o := Out.default r
  if r.trans_invalid_error_o i then { o with fsm_state_d := .PostTransSt }
  else if r.flashRmaAgrees then
    if r.tokenMatches RndCnstInvalidTokens i then { o with fsm_state_d := next }
    else { o with fsm_state_d := .PostTransSt, token_invalid_error_o := true }
  else { o with fsm_state_d := .PostTransSt, flash_rma_error_o := true }

/-- `p_fsm`, up to the escalation. -/
def fsmState : Out :=
  let o := Out.default r
  match r.fsm_state_q with
  | .ResetSt =>
    let o := { o with init_done_o := false, lc_clk_byp_req := LcTx.Off,
                      lc_flash_rma_req := LcTx.Off, lc_check_byp_en := LcTx.Off }
    if i.init_req_i && r.lc_state_valid_q then
      { o with fsm_state_d := .IdleSt, lc_state_d := i.lc_state_i, lc_cnt_d := i.lc_cnt_i }
    else o
  | .IdleSt =>
    { o with
      idle_o := true
      lc_state_d := i.lc_state_i
      lc_cnt_d := i.lc_cnt_i
      fsm_state_d :=
        if r.lc_state_q = LcState.Scrap.enc then .ScrapSt
        else if i.trans_cmd_i then .ClkMuxSt else .IdleSt
      lc_clk_byp_req :=
        if r.extClockAllowed && i.use_ext_clock_i then LcTx.On else r.lc_clk_byp_req_o }
  | .ClkMuxSt =>
    let o := { o with lc_check_byp_en := LcTx.On }
    if r.extClockAllowed && i.use_ext_clock_i then
      { o with
        lc_clk_byp_req := LcTx.On
        fsm_state_d := if r.lc_clk_byp_ack = LcTx.On then .CntIncrSt else .ClkMuxSt }
    else { o with fsm_state_d := .CntIncrSt }
  | .CntIncrSt =>
    { o with
      fsm_state_d :=
        if (r.stateTransition i).trans_cnt_oflw_error_o then .PostTransSt else .CntProgSt }
  | .CntProgSt =>
    let o := { o with otp_prog_req_o := true }
    let o :=
      if r.lc_clk_byp_req_o != r.lc_clk_byp_ack then
        { o with fsm_state_d := .PostTransSt, otp_prog_error_o := true }
      else o
    -- The acknowledge overrides an abort because of the clock mux.
    if i.otp_prog_ack_i then
      if i.otp_prog_err_i then { o with fsm_state_d := .PostTransSt, otp_prog_error_o := true }
      else { o with fsm_state_d := .TransCheckSt }
    else o
  | .TransCheckSt =>
    { o with fsm_state_d := if r.trans_invalid_error_o i then .PostTransSt else .TokenHashSt }
  | .TokenHashSt =>
    let o := { o with token_hash_req_o := true }
    if i.token_hash_ack_i then
      if r.tokenMatches RndCnstInvalidTokens i then { o with fsm_state_d := .FlashRmaSt }
      else { o with fsm_state_d := .PostTransSt, token_invalid_error_o := true }
    else o
  | .FlashRmaSt =>
    if r.targetsRma then
      { o with
        lc_flash_rma_req := LcTx.On
        fsm_state_d := if r.lc_flash_rma_ack = LcTx.On then .TokenCheck0St else .FlashRmaSt }
    else { o with fsm_state_d := .TokenCheck0St }
  | .TokenCheck0St => r.tokenCheck RndCnstInvalidTokens i .TokenCheck1St
  | .TokenCheck1St => r.tokenCheck RndCnstInvalidTokens i .TransProgSt
  | .TransProgSt =>
    let o := { o with otp_prog_req_o := true }
    if r.lc_clk_byp_req_o != r.lc_clk_byp_ack then
      { o with fsm_state_d := .PostTransSt, otp_prog_error_o := true }
    else if
      (!r.targetsRma && (r.lc_flash_rma_req_o != LcTx.Off || r.lc_flash_rma_ack != LcTx.Off)) ||
        (r.targetsRma && (r.lc_flash_rma_req_o != LcTx.On || r.lc_flash_rma_ack != LcTx.On)) then
      { o with fsm_state_d := .PostTransSt, flash_rma_error_o := true }
    else if i.otp_prog_ack_i then
      { o with fsm_state_d := .PostTransSt, otp_prog_error_o := i.otp_prog_err_i,
               trans_success_o := !i.otp_prog_err_i }
    else o
  | .ScrapSt => o
  | .PostTransSt => o
  | .EscalateSt => { o with token_hash_req_chk_o := false }
  | .InvalidSt => { o with token_hash_req_chk_o := false, state_invalid_error_o := true }

/-- `p_fsm`. -/
def fsm : Out :=
  let o := r.fsmState RndCnstInvalidTokens i
  if i.esc_scrap_state0_i || i.esc_scrap_state1_i then { o with fsm_state_d := .EscalateSt }
  else if ((r.decodeState i).state_invalid_error_o.any id || i.token_if_fsm_err_i) &&
      r.fsm_state_q != .EscalateSt then
    { o with fsm_state_d := .InvalidSt, state_invalid_error_o := true }
  else o

/-- A clock cycle. Software reaches the target register only while the machine is idle. -/
def clock : LcFsm :=
  let o := r.fsm RndCnstInvalidTokens i
  { fsm_state_q := o.fsm_state_d
    lc_state_q := o.lc_state_d
    lc_cnt_q := o.lc_cnt_d
    lc_state_valid_q := i.lc_state_valid_i
    u_prim_lc_sync_clk_byp_ack := r.u_prim_lc_sync_clk_byp_ack.clock i.lc_clk_byp_ack_i
    u_prim_lc_sync_flash_rma_ack := r.u_prim_lc_sync_flash_rma_ack.clock i.lc_flash_rma_ack_i
    lc_clk_byp_req_o := o.lc_clk_byp_req
    lc_flash_rma_req_o := o.lc_flash_rma_req
    lc_check_byp_en_o := o.lc_check_byp_en
    transition_target_q := if o.idle_o then i.transition_target else r.transition_target_q }

/-- The registers after a run from reset. -/
def run (inputs : List LcFsmIn) : LcFsm :=
  inputs.foldl (fun r i => r.clock RndCnstInvalidTokens i) reset

end LcFsm

end SecureBoot
