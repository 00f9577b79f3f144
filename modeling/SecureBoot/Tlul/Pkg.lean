import SecureBoot.Prim.Pkg
import SecureBoot.Secded.Gen

/-! The bus types of `tlul_pkg` and the combinational checks on them: `tlul_err`,
`tlul_cmd_intg_chk`, `tlul_data_integ_enc` and `tlul_rsp_intg_gen`. -/

namespace SecureBoot.Tlul

open Bits Parity

/-! ### Types -/

def PutFullData : BitVec 3 := 0#3
def PutPartialData : BitVec 3 := 1#3
def Get : BitVec 3 := 4#3

def AccessAck : BitVec 3 := 0#3
def AccessAckData : BitVec 3 := 1#3

def DataWhenInstrError : BitVec 32 := 0#32
def DataWhenError : BitVec 32 := BitVec.allOnes 32

/-- `tl_a_user_t`. -/
structure AUser where
  rsvd : BitVec 5
  instr_type : Mubi4
  cmd_intg : BitVec 7
  data_intg : BitVec 7

/-- `tl_h2d_t`. -/
structure H2d where
  a_valid : Bool
  a_opcode : BitVec 3
  a_param : BitVec 3
  a_size : BitVec 2
  a_source : BitVec 8
  a_address : BitVec 32
  a_mask : BitVec 4
  a_data : BitVec 32
  a_user : AUser
  d_ready : Bool

/-- `tl_d_user_t`. -/
structure DUser where
  rsp_intg : BitVec 7
  data_intg : BitVec 7

/-- `tl_d2h_t`. -/
structure D2h where
  d_valid : Bool
  d_opcode : BitVec 3
  d_param : BitVec 3
  d_size : BitVec 2
  d_source : BitVec 8
  d_sink : Bool
  d_data : BitVec 32
  d_user : DUser
  d_error : Bool
  a_ready : Bool

/-! ### Integrity codes -/

/-- `prim_secded_inv_39_32_enc`. -/
def prim_secded_inv_39_32_enc (data_i : BitVec 32) : BitVec 39 :=
  [EncLine.parity 32 0x002606BD25, .parity 33 0x00DEBA8050, .parity 34 0x00413D89AA,
    .parity 35 0x0031234ED1, .parity 36 0x00C2C1323B, .parity 37 0x002DCC624C,
    .parity 38 0x0098505586, .invert 0x2A00000000].foldl (fun x line => line.run x)
      (data_i.setWidth 39)

/-- `prim_secded_inv_64_57_enc`. -/
def prim_secded_inv_64_57_enc (data_i : BitVec 57) : BitVec 64 :=
  [EncLine.parity 57 0x0103FFF800007FFF, .parity 58 0x017C1FF801FF801F,
    .parity 59 0x01BDE1F87E0781E1, .parity 60 0x01DEEE3B8E388E22, .parity 61 0x01EF76CDB2C93244,
    .parity 62 0x01F7BB56D5525488, .parity 63 0x01FBDDA769A46910,
    .invert 0x5400000000000000].foldl (fun x line => line.run x) (data_i.setWidth 64)

/-- Whether a decoder reports a single or a double error. -/
def secdedErr {w : ℕ} (rows : List (BitVec w)) (inv data_i : BitVec w) : Bool :=
  let syndrome_o := ofBits 7 fun j => xorReduce ((data_i ^^^ inv) &&& rows.getD j 0)
  let err_o0 := xorReduce syndrome_o
  let err_o1 := !err_o0 && syndrome_o != 0#7
  err_o0 || err_o1

/-- The errors of `prim_secded_inv_39_32_dec`. -/
def prim_secded_inv_39_32_err (data_i : BitVec 39) : Bool :=
  secdedErr [0x012606BD25#39, 0x02DEBA8050#39, 0x04413D89AA#39, 0x0831234ED1#39, 0x10C2C1323B#39,
    0x202DCC624C#39, 0x4098505586#39] 0x2A00000000#39 data_i

/-- The errors of `prim_secded_inv_64_57_dec`. -/
def prim_secded_inv_64_57_err (data_i : BitVec 64) : Bool :=
  secdedErr [0x0303FFF800007FFF#64, 0x057C1FF801FF801F#64, 0x09BDE1F87E0781E1#64,
    0x11DEEE3B8E388E22#64, 0x21EF76CDB2C93244#64, 0x41F7BB56D5525488#64, 0x81FBDDA769A46910#64]
    0x5400000000000000#64 data_i

def SecdedInv3932ZeroEcc : BitVec 7 := 0x2A#7

def SecdedInv3932ZeroWord : BitVec 39 := 0x2A00000000#39

/-- The check bits of `tlul_data_integ_enc`. -/
def get_data_intg (data : BitVec 32) : BitVec 7 :=
  (prim_secded_inv_39_32_enc data).extractLsb' 32 7

/-! ### Checks -/

/-- `extract_h2d_cmd_intg`, in the width of the code. -/
def extract_h2d_cmd_intg (tl : H2d) : BitVec 57 :=
  (tl.a_user.instr_type ++ tl.a_address ++ tl.a_opcode ++ tl.a_mask).setWidth 57

def tlul_cmd_intg_chk (tl_i : H2d) : Bool :=
  tl_i.a_valid &&
    (prim_secded_inv_64_57_err (tl_i.a_user.cmd_intg ++ extract_h2d_cmd_intg tl_i) ||
      prim_secded_inv_39_32_err (tl_i.a_user.data_intg ++ tl_i.a_data))

def tlul_err (tl_i : H2d) : Bool :=
  let op_full := tl_i.a_opcode == PutFullData
  let op_partial := tl_i.a_opcode == PutPartialData
  let op_get := tl_i.a_opcode == Get
  let instr_wr_err := mubi4_test_true_strict tl_i.a_user.instr_type && (op_full || op_partial)
  let instr_type_err := mubi4_test_invalid tl_i.a_user.instr_type
  let opcode_allowed := op_full || op_partial || op_get
  let mask := 1#4 <<< (tl_i.a_address.extractLsb' 0 2).toNat
  let addr_sz_chk := tl_i.a_valid &&
    match tl_i.a_size.toNat with
    | 0 => true
    | 1 => !tl_i.a_address.getLsbD 0
    | 2 => tl_i.a_address.extractLsb' 0 2 == 0#2
    | _ => false
  let mask_chk := tl_i.a_valid &&
    match tl_i.a_size.toNat with
    | 0 => tl_i.a_mask &&& ~~~mask == 0#4
    | 1 =>
      if tl_i.a_address.getLsbD 1 then tl_i.a_mask &&& 0b0011#4 == 0#4
      else tl_i.a_mask &&& 0b1100#4 == 0#4
    | 2 => true
    | _ => false
  let fulldata_chk := tl_i.a_valid &&
    match tl_i.a_size.toNat with
    | 0 => tl_i.a_mask &&& mask != 0#4
    | 1 =>
      if tl_i.a_address.getLsbD 1 then tl_i.a_mask.extractLsb' 2 2 == BitVec.allOnes 2
      else tl_i.a_mask.extractLsb' 0 2 == BitVec.allOnes 2
    | 2 => tl_i.a_mask == BitVec.allOnes 4
    | _ => false
  let a_config_allowed := addr_sz_chk && mask_chk && (op_get || op_partial || fulldata_chk)
  !(opcode_allowed && a_config_allowed) || instr_wr_err || instr_type_err

/-- `extract_d2h_rsp_intg`, in the width of the code. -/
def extract_d2h_rsp_intg (tl : D2h) : BitVec 57 :=
  (tl.d_opcode ++ tl.d_size ++ BitVec.ofBool tl.d_error).setWidth 57

/-- `tlul_rsp_intg_gen`. -/
def tlul_rsp_intg_gen (EnableRspIntgGen EnableDataIntgGen : Bool) (tl_i : D2h) : D2h :=
  let rsp_intg :=
    if EnableRspIntgGen then
      (prim_secded_inv_64_57_enc (extract_d2h_rsp_intg tl_i)).extractLsb' 57 7
    else tl_i.d_user.rsp_intg
  let data_intg :=
    if EnableDataIntgGen then get_data_intg tl_i.d_data else tl_i.d_user.data_intg
  { tl_i with d_user := { rsp_intg, data_intg } }

theorem get_data_intg_zero : get_data_intg 0#32 = SecdedInv3932ZeroEcc := by
  decide +kernel

/-- All ones have the check bits of zero. -/
theorem get_data_intg_allOnes : get_data_intg (BitVec.allOnes 32) = SecdedInv3932ZeroEcc := by
  decide +kernel

/-- A legal write is no instruction fetch. -/
theorem instr_type_of_tlul_err {tl_i : H2d} (h : tlul_err tl_i = false)
    (hwrite : tl_i.a_opcode = PutFullData ∨ tl_i.a_opcode = PutPartialData) :
    mubi4_test_true_strict tl_i.a_user.instr_type = false := by
  simp only [tlul_err, Bool.or_eq_false_iff, Bool.and_eq_false_iff, beq_eq_false_iff_ne] at h
  obtain hinstr | ⟨hfull, hpartial⟩ := h.1.2
  · exact hinstr
  · exact absurd hwrite (not_or.mpr ⟨hfull, hpartial⟩)

end SecureBoot.Tlul
