import SecureBoot.Lib.BitLoops
import SecureBoot.Lib.Clocked
import SecureBoot.Prim.Count

/-! `keymgr_ctrl` with its operation state machine `keymgr_op_state_ctrl` and the error
collection `keymgr_err`. Registers that hold a state have one of its values. The ECC check of
the key registers and the data enable machine report faults as inputs. -/

namespace SecureBoot.Keymgr

open Bits

abbrev KeyWidth : ℕ := 256
abbrev CDIs : ℕ := 2
abbrev CdiWidth : ℕ := 1
abbrev Shares : ℕ := 2
abbrev RandWidth : ℕ := 32
abbrev EntropyWidth : ℕ := 32
abbrev EntropyRounds : ℕ := 8
abbrev CntWidth : ℕ := 3

/-- `state_e` of the main machine. -/
inductive CtrlState
  | StCtrlReset | StCtrlEntropyReseed | StCtrlRandom | StCtrlRootKey | StCtrlInit
  | StCtrlCreatorRootKey | StCtrlOwnerIntKey | StCtrlOwnerKey | StCtrlDisabled | StCtrlWipe
  | StCtrlInvalid
  deriving DecidableEq

/-- `state_e` of the operation machine. -/
inductive OpState
  | StIdle | StAdv | StAdvAck | StWait
  deriving DecidableEq

/-- `keymgr_stage_e`. -/
inductive Stage
  | Creator | OwnerInt | Owner | Disable
  deriving DecidableEq

/-- `keymgr_working_state_e`. -/
inductive WorkingState
  | StReset | StInit | StCreatorRootKey | StOwnerIntKey | StOwnerKey | StDisabled | StInvalid
  deriving DecidableEq

/-- `keymgr_key_update_e`. -/
inductive KeyUpdate
  | KeyUpdateIdle | KeyUpdateRandom | KeyUpdateRoot | KeyUpdateKmac | KeyUpdateWipe
  deriving DecidableEq

abbrev KeyShares := Fin Shares → BitVec KeyWidth

abbrev KeyState := Fin CDIs → KeyShares

/-- `otp_keymgr_key_t`. -/
structure OtpKeymgrKey where
  valid : Bool
  key_share0 : BitVec KeyWidth
  key_share1 : BitVec KeyWidth

/-- The inputs of one cycle. -/
structure CtrlIn where
  en_i : Bool
  regfile_intg_err_i : Bool
  shadowed_update_err_i : Bool
  shadowed_storage_err_i : Bool
  reseed_cnt_err_i : Bool
  sideload_sel_err_i : Bool
  sideload_fsm_err_i : Bool
  op_start_i : Bool
  op_i : BitVec 3
  op_cdi_sel_i : BitVec CdiWidth
  root_key_i : OtpKeymgrKey
  kmac_done_i : Bool
  kmac_input_invalid_i : Bool
  kmac_fsm_err_i : Bool
  kmac_op_err_i : Bool
  kmac_done_err_i : Bool
  kmac_cmd_err_i : Bool
  kmac_data_i : KeyShares
  entropy_i : Fin Shares → BitVec RandWidth
  prng_reseed_ack_i : Bool
  ecc_err : Bool
  data_fsm_err : Bool

structure CtrlRegs where
  state_q : CtrlState
  key_state_q : KeyState
  u_key_valid_sync : Clocked.Sync Bool
  u_cnt : CountRegs CntWidth
  op_state_q : OpState
  sync_err_q : BitVec 2
  sync_fault_q : BitVec 3
  async_fault_q : BitVec 11
  vld_state_change_q : Bool
  last_working_st : WorkingState

/-! ### Operations -/

namespace CtrlIn

variable (i : CtrlIn)

def OpAdvance : BitVec 3 := 0
def OpGenId : BitVec 3 := 1
def OpGenSwOut : BitVec 3 := 2
def OpGenHwOut : BitVec 3 := 3

def adv_op : Bool := i.op_i == OpAdvance
def gen_id_op : Bool := i.op_i == OpGenId
def gen_sw_op : Bool := i.op_i == OpGenSwOut
def gen_hw_op : Bool := i.op_i == OpGenHwOut
def dis_op : Bool := !(i.adv_op || i.gen_id_op || i.gen_sw_op || i.gen_hw_op)
def gen_op : Bool := i.gen_id_op || i.gen_sw_op || i.gen_hw_op

def advance_sel : Bool := i.op_start_i && i.adv_op && i.en_i
def disable_sel : Bool := (i.op_start_i && i.dis_op) || !i.en_i

end CtrlIn

namespace CtrlRegs

def reset : CtrlRegs where
  state_q := .StCtrlReset
  key_state_q := fun _ _ => 0
  u_key_valid_sync := ⟨false, false⟩
  u_cnt := primCountReset 0
  op_state_q := .StIdle
  sync_err_q := 0
  sync_fault_q := 0
  async_fault_q := 0
  vld_state_change_q := false
  last_working_st := .StReset

variable (KmacEnMasking : Bool) (r : CtrlRegs) (i : CtrlIn)

def cnt : BitVec CntWidth := r.u_cnt.primary

def op_busy : Bool := r.op_state_q != .StIdle

/-! ### The main machine, its outputs -/

/-- The outputs of the main machine that do not depend on faults. -/
structure FsmOut where
  op_req : Bool := false
  random_req : Bool := false
  random_ack : Bool := false
  wipe_req : Bool := false
  invalid_op : Bool := false
  stage_sel_o : Stage := .Disable
  disabled : Bool := false
  invalid : Bool := false
  prng_reseed_req_o : Bool := false
  init_o : Bool := false
  initialized : Bool := true

def fsm : FsmOut :=
  match r.state_q with
  | .StCtrlReset => { initialized := false, invalid_op := i.op_start_i && !i.advance_sel }
  | .StCtrlEntropyReseed => { initialized := false, prng_reseed_req_o := true }
  | .StCtrlRandom =>
    { initialized := false, random_req := true
      random_ack := r.cnt.toNat == EntropyRounds - 1 }
  | .StCtrlRootKey => { init_o := true }
  | .StCtrlInit =>
    { op_req := i.op_start_i
      stage_sel_o := if i.advance_sel then .Creator else .Disable
      invalid_op := i.op_start_i && !(i.advance_sel || i.disable_sel) }
  | .StCtrlCreatorRootKey =>
    { op_req := i.op_start_i
      stage_sel_o :=
        if i.disable_sel then .Disable else if i.advance_sel then .OwnerInt else .Creator }
  | .StCtrlOwnerIntKey =>
    { op_req := i.op_start_i
      stage_sel_o :=
        if i.disable_sel then .Disable else if i.advance_sel then .Owner else .OwnerInt }
  | .StCtrlOwnerKey =>
    { op_req := i.op_start_i
      stage_sel_o := if i.disable_sel || i.advance_sel then .Disable else .Owner }
  -- an operation that is under way keeps its request until it completes
  | .StCtrlWipe => { wipe_req := true, op_req := r.op_busy, invalid_op := i.op_start_i }
  | .StCtrlDisabled => { op_req := i.op_start_i, disabled := true }
  | .StCtrlInvalid => { op_req := i.op_start_i, invalid := true }

def op_req : Bool := (r.fsm i).op_req

def adv_req : Bool := r.op_req i && i.adv_op
def dis_req : Bool := r.op_req i && i.dis_op
def id_req : Bool := r.op_req i && i.gen_id_op
def gen_req : Bool := r.op_req i && (i.gen_sw_op || i.gen_hw_op)

def cdi_cnt : BitVec CdiWidth := if r.op_req i then r.cnt.setWidth CdiWidth else 0

def cdi_sel_o : BitVec CdiWidth := if i.advance_sel then r.cdi_cnt i else i.op_cdi_sel_i

/-! ### `keymgr_op_state_ctrl` -/

structure OpOut where
  state_d : OpState
  op_update_o : Bool := false
  op_ack_o : Bool := false
  adv_en_o : Bool := false
  gen_en : Bool := false

def op : OpOut :=
  match r.op_state_q with
  | .StIdle =>
    { state_d :=
        if r.adv_req i || r.dis_req i then .StAdv
        else if r.id_req i || r.gen_req i then .StWait else .StIdle }
  | .StAdv =>
    if i.kmac_done_i && (r.cdi_cnt i).toNat == CDIs - 1 then
      { state_d := .StIdle, adv_en_o := true, op_ack_o := true }
    else if i.kmac_done_i && decide ((r.cdi_cnt i).toNat < CDIs - 1) then
      { state_d := .StAdvAck, adv_en_o := true, op_update_o := true }
    else { state_d := .StAdv, adv_en_o := true }
  | .StAdvAck => { state_d := .StAdv }
  | .StWait =>
    if i.kmac_done_i then { state_d := .StIdle, gen_en := true, op_ack_o := true }
    else { state_d := .StWait, gen_en := true }

def op_ack : Bool := (r.op i).op_ack_o
def op_update : Bool := (r.op i).op_update_o
def gen_en_o : Bool := (r.op i).gen_en && r.gen_req i

def op_done_o : Bool :=
  if r.op_req i then r.op_ack i else (r.fsm i).init_o || (r.fsm i).invalid_op

/-! ### `keymgr_err` -/

def valid_data_chk (value : BitVec KeyWidth) : Bool := value != 0 && value != .allOnes KeyWidth

def invalid_kmac_out : Bool :=
  (r.op_update i || r.op_ack i) &&
    (!valid_data_chk (i.kmac_data_i 0) || (!valid_data_chk (i.kmac_data_i 1) && KmacEnMasking))

def op_state_cmd_err : Bool :=
  ((r.op i).adv_en_o && !(i.advance_sel || i.disable_sel)) || (r.gen_en_o i && !i.gen_op)

def state_change_err : Bool := r.vld_state_change_q && !i.adv_op

def err_vld : Bool := r.op_update i || r.op_done_o i

def sync_fault_d : BitVec 3 :=
  .ofBoolListLE [r.err_vld i && i.kmac_op_err_i,
    r.err_vld i && r.invalid_kmac_out KmacEnMasking i, r.err_vld i && i.sideload_sel_err_i]

def sync_fault_o : BitVec 3 := r.sync_fault_q ||| r.sync_fault_d KmacEnMasking i

def async_fault_d : BitVec 11 :=
  .ofBoolListLE [i.kmac_cmd_err_i, i.kmac_fsm_err_i, i.kmac_done_err_i, i.regfile_intg_err_i,
    i.shadowed_storage_err_i, i.data_fsm_err, r.state_change_err i || r.op_state_cmd_err i,
    r.u_cnt.err_o, i.reseed_cnt_err_i, i.sideload_fsm_err_i, i.ecc_err]

def async_fault_o : BitVec 11 := r.async_fault_q ||| r.async_fault_d i

/-- `|fault_o`: the synchronous faults count when the operation is done. -/
def fault : Bool :=
  (r.op_done_o i && r.sync_fault_o KmacEnMasking i != 0) || r.async_fault_o i != 0

def sync_err_d : BitVec 2 :=
  .ofBoolListLE [r.err_vld i && ((r.fsm i).invalid_op ||
      ((r.fsm i).disabled || ((r.fsm i).initialized && !i.en_i)) || (r.fsm i).invalid ||
      r.fault KmacEnMasking i),
    r.err_vld i && i.kmac_input_invalid_i]

def sync_err_o : BitVec 2 := r.sync_err_q ||| r.sync_err_d KmacEnMasking i

def op_err : Bool := r.sync_err_o KmacEnMasking i != 0

def op_fault_err : Bool := r.sync_fault_o KmacEnMasking i != 0 || r.async_fault_o i != 0

/-! ### The main machine, its next state -/

def inv_state : Bool := r.fault KmacEnMasking i

def adv_state : Bool := r.op_ack i && r.adv_req i && !r.op_err KmacEnMasking i

def dis_state : Bool := r.op_ack i && r.dis_req i

/-- The states of the software operations, with the state an advance leads to. -/
def opState (state next : CtrlState) : CtrlState :=
  if !i.en_i || r.inv_state KmacEnMasking i then .StCtrlWipe
  else if r.dis_state i then .StCtrlDisabled
  else if r.adv_state KmacEnMasking i then next
  else state

def state_d : CtrlState :=
  match r.state_q with
  | .StCtrlReset =>
    if r.inv_state KmacEnMasking i then .StCtrlWipe
    else if i.advance_sel then .StCtrlEntropyReseed else .StCtrlReset
  | .StCtrlEntropyReseed => if i.prng_reseed_ack_i then .StCtrlRandom else .StCtrlEntropyReseed
  | .StCtrlRandom => if r.cnt.toNat = EntropyRounds - 1 then .StCtrlRootKey else .StCtrlRandom
  | .StCtrlRootKey => if i.en_i then .StCtrlInit else .StCtrlWipe
  | .StCtrlInit => r.opState KmacEnMasking i .StCtrlInit .StCtrlCreatorRootKey
  | .StCtrlCreatorRootKey => r.opState KmacEnMasking i .StCtrlCreatorRootKey .StCtrlOwnerIntKey
  | .StCtrlOwnerIntKey => r.opState KmacEnMasking i .StCtrlOwnerIntKey .StCtrlOwnerKey
  | .StCtrlOwnerKey => r.opState KmacEnMasking i .StCtrlOwnerKey .StCtrlDisabled
  | .StCtrlWipe => if !i.op_start_i then .StCtrlInvalid else .StCtrlWipe
  | .StCtrlDisabled =>
    if !i.en_i || r.inv_state KmacEnMasking i then .StCtrlWipe else .StCtrlDisabled
  | .StCtrlInvalid => .StCtrlInvalid

/-- In the init state the root key is loaded as long as there is no operation and nothing to
wipe. -/
def ld_root_key : Bool :=
  r.state_q == .StCtrlInit && !(!i.en_i || r.inv_state KmacEnMasking i) && !i.op_start_i

def vld_state_change_d : Bool :=
  r.state_d KmacEnMasking i != r.state_q &&
    [CtrlState.StCtrlRootKey, .StCtrlCreatorRootKey, .StCtrlOwnerIntKey, .StCtrlOwnerKey].contains
      (r.state_d KmacEnMasking i)

def working_state_o : WorkingState :=
  match r.state_q with
  | .StCtrlReset | .StCtrlEntropyReseed | .StCtrlRandom => .StReset
  | .StCtrlRootKey | .StCtrlInit => .StInit
  | .StCtrlCreatorRootKey => .StCreatorRootKey
  | .StCtrlOwnerIntKey => .StOwnerIntKey
  | .StCtrlOwnerKey => .StOwnerKey
  | .StCtrlDisabled => .StDisabled
  | .StCtrlWipe => r.last_working_st
  | .StCtrlInvalid => .StInvalid

/-! ### The key state -/

def op_update_sel : KeyUpdate :=
  if r.op_ack i || r.op_update i then
    if (r.fsm i).invalid then .KeyUpdateKmac
    else if r.op_fault_err KmacEnMasking i then .KeyUpdateWipe
    else if (r.fsm i).disabled then .KeyUpdateKmac
    else if r.op_err KmacEnMasking i then .KeyUpdateIdle
    else .KeyUpdateKmac
  else .KeyUpdateIdle

def update_sel : KeyUpdate :=
  if (r.fsm i).wipe_req then .KeyUpdateWipe
  else if (r.fsm i).random_req then .KeyUpdateRandom
  else if (r.fsm i).init_o || r.ld_root_key KmacEnMasking i then .KeyUpdateRoot
  else r.op_update_sel KmacEnMasking i

/-- `{EntropyRounds{entropy_i}}`. -/
def entropyKey (entropy : Fin Shares → BitVec RandWidth) : KeyShares :=
  fun j => (entropy j).replicate EntropyRounds

/-- The root key in the shares that the masking asks for. -/
def rootKey (key : OtpKeymgrKey) (valid : Bool) : KeyShares := fun j =>
  if valid then
    if KmacEnMasking then (if j = 0 then key.key_share0 else key.key_share1)
    else (if j = 0 then key.key_share0 ^^^ key.key_share1 else 0)
  else (if j = 0 then 0 else .allOnes KeyWidth)

def key_state_d : KeyState :=
  match r.update_sel KmacEnMasking i with
  | .KeyUpdateRandom => fun c j =>
    setSlice (r.key_state_q c j) (EntropyWidth * r.cnt.toNat) (i.entropy_i j)
  | .KeyUpdateRoot => fun _ => rootKey KmacEnMasking i.root_key_i r.u_key_valid_sync.q
  | .KeyUpdateKmac => fun c =>
    if c = (r.cdi_sel_o i).toFin then
      (if i.adv_op || i.dis_op then i.kmac_data_i else r.key_state_q c)
    else r.key_state_q c
  | .KeyUpdateWipe => fun _ => entropyKey i.entropy_i
  | .KeyUpdateIdle => r.key_state_q

def data_valid_o : Bool := r.update_sel KmacEnMasking i == .KeyUpdateKmac && i.gen_op

def wipe_key_o : Bool := r.update_sel KmacEnMasking i == .KeyUpdateWipe

/-- `hw_key_req_t`. -/
structure HwKeyReq where
  valid : Bool
  key : KeyShares

def key_o : HwKeyReq where
  valid := r.op_req i
  key := if (r.fsm i).stage_sel_o = .Disable then entropyKey i.entropy_i
    else r.key_state_q (r.cdi_sel_o i).toFin

/-! ### The clock -/

/-- A clock edge. -/
def clock : CtrlRegs where
  state_q := r.state_d KmacEnMasking i
  key_state_q := r.key_state_d KmacEnMasking i
  u_key_valid_sync := r.u_key_valid_sync.clock i.root_key_i.valid
  u_cnt := primCount 0 r.u_cnt
    { clr_i := r.op_ack i || (r.fsm i).random_ack
      set_i := false
      set_cnt_i := 0
      incr_en_i := r.op_update i || (r.fsm i).random_req
      decr_en_i := false
      step_i := 1 }
  op_state_q := (r.op i).state_d
  sync_err_q := if r.op_done_o i then 0
    else if r.op_update i then r.sync_err_d KmacEnMasking i else r.sync_err_q
  sync_fault_q := if r.op_done_o i then 0
    else if r.op_update i then r.sync_fault_d KmacEnMasking i else r.sync_fault_q
  async_fault_q := r.async_fault_o i
  vld_state_change_q := r.vld_state_change_d KmacEnMasking i
  last_working_st := if r.state_q = .StCtrlWipe then r.last_working_st else r.working_state_o

end CtrlRegs

/-- The registers after `t` cycles. -/
def ctrlAt (KmacEnMasking : Bool) (inp : ℕ → CtrlIn) : ℕ → CtrlRegs
  | 0 => .reset
  | t + 1 => (ctrlAt KmacEnMasking inp t).clock KmacEnMasking (inp t)

end SecureBoot.Keymgr
