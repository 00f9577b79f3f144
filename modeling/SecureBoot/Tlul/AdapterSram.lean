import SecureBoot.Tlul.SramByte

/-! `tlul_adapter_sram` with `EnableDataIntgPt`, so that check bits pass through and none are
generated. The SRAM is `2 ^ WoffsetWidth` bus words wide. -/

namespace SecureBoot.Tlul

/-! ### Types -/

/-- The parameters. `SecFifoPtr` changes nothing, since the FIFO never reports an error. -/
structure SramParams where
  SramAw : ℕ
  WoffsetWidth : ℕ
  Outstanding : ℕ
  ByteAccess : Bool
  ErrOnWrite : Bool
  ErrOnRead : Bool
  CmdIntgCheck : Bool
  EnableRspIntgGen : Bool

/-- `req_op_e`. -/
inductive ReqOp where
  | OpWrite
  | OpRead
  | OpUnknown
deriving DecidableEq

/-- `req_t`. -/
structure Req where
  op : ReqOp
  error : Bool
  instr_type : Mubi4
  size : BitVec 2
  source : BitVec 8

/-- `sram_req_t`. -/
structure SramReq (WoffsetWidth : ℕ) where
  mask : BitVec 4
  woffset : BitVec WoffsetWidth

/-- `rsp_t`. -/
structure Rsp where
  data : BitVec 32
  data_intg : BitVec 7
  error : Bool

/-- The inputs of a cycle; `rdata_i` is given by its bus words. -/
structure SramIn (WoffsetWidth : ℕ) where
  tl_i : H2d
  en_ifetch_i : Mubi4
  gnt_i : Bool
  rdata_i : BitVec WoffsetWidth → BitVec 39
  rvalid_i : Bool
  rerror_i : BitVec 2

/-- The registers. -/
structure AdapterSram (WoffsetWidth : ℕ) where
  u_sram_byte : SramByte
  u_reqfifo : SyncQueue Req
  u_sramreqfifo : SyncQueue (SramReq WoffsetWidth)
  u_rspfifo : SyncQueue Rsp
  intg_error_q : Bool

namespace AdapterSram

variable (p : SramParams)

def reset (u_sram_byte : SramByte) : AdapterSram p.WoffsetWidth :=
  ⟨u_sram_byte, .reset, .reset, .reset, false⟩

/-! ### Errors of a request -/

section Errors

variable (i : SramIn p.WoffsetWidth)

def intg_error : Bool := p.CmdIntgCheck && tlul_cmd_intg_chk i.tl_i

def wr_attr_error : Bool :=
  SramByte.wr_txn i.tl_i && !p.ByteAccess &&
    (i.tl_i.a_mask != BitVec.allOnes 4 || i.tl_i.a_size != 2#2)

def instr_error : Bool :=
  mubi4_test_invalid i.tl_i.a_user.instr_type ||
    (mubi4_test_true_strict i.tl_i.a_user.instr_type && mubi4_test_false_loose i.en_ifetch_i)

def error_det : Bool :=
  wr_attr_error p i || (p.ErrOnWrite && i.tl_i.a_opcode != Get) ||
    (p.ErrOnRead && i.tl_i.a_opcode == Get) || instr_error p i || tlul_err i.tl_i ||
      intg_error p i

/-- The parameter of `tlul_sram_byte`. -/
def EnableIntg : Bool := p.ByteAccess && !p.ErrOnWrite

end Errors

/-! ### Signals -/

section Signals

variable (s : AdapterSram p.WoffsetWidth) (i : SramIn p.WoffsetWidth)

def tl_i_int : H2d :=
  if EnableIntg p then s.u_sram_byte.tl_sram_o i.tl_i (error_det p i) else i.tl_i

def error_internal : Bool :=
  if EnableIntg p then s.u_sram_byte.error_o (error_det p i) else error_det p i

def reqfifo_wready : Bool := s.u_reqfifo.wready_o p.Outstanding

def reqfifo_rvalid : Bool := s.u_reqfifo.rvalid_o false false

def woffset : BitVec p.WoffsetWidth :=
  (tl_i_int p s i).a_address.extractLsb' 2 p.WoffsetWidth

def reqfifo_wdata : Req where
  op := if (tl_i_int p s i).a_opcode != Get then .OpWrite else .OpRead
  error := error_internal p s i
  instr_type := (tl_i_int p s i).a_user.instr_type
  size := (tl_i_int p s i).a_size
  source := (tl_i_int p s i).a_source

def reqfifo_rdata : Req :=
  s.u_reqfifo.rdata_o false false (reqfifo_wdata p s i) ⟨.OpWrite, false, 0#4, 0#2, 0#8⟩

def sramreqfifo_wdata : SramReq p.WoffsetWidth := ⟨(tl_i_int p s i).a_mask, woffset p s i⟩

def sramreqfifo_rdata : SramReq p.WoffsetWidth :=
  s.u_sramreqfifo.rdata_o false false (sramreqfifo_wdata p s i) ⟨0#4, 0#p.WoffsetWidth⟩

/-- The word for a read; one without bytes is zero. -/
def rdata_tlword : BitVec 39 :=
  if (sramreqfifo_rdata p s i).mask ≠ 0#4 then i.rdata_i (sramreqfifo_rdata p s i).woffset
  else SecdedInv3932ZeroWord

def rspfifo_wvalid : Bool := i.rvalid_i && reqfifo_rvalid p s

def rspfifo_wdata : Rsp where
  data := (rdata_tlword p s i).extractLsb' 0 32
  data_intg := (rdata_tlword p s i).extractLsb' 32 7
  error := i.rerror_i.getLsbD 1

def rspfifo_rvalid : Bool := s.u_rspfifo.rvalid_o true (rspfifo_wvalid p s i)

def rspfifo_rdata : Rsp :=
  s.u_rspfifo.rdata_o true (rspfifo_wvalid p s i) (rspfifo_wdata p s i) ⟨0#32, 0#7, false⟩

def d_valid : Bool :=
  if reqfifo_rvalid p s then
    if (reqfifo_rdata p s i).error then true
    else if (reqfifo_rdata p s i).op = .OpRead then rspfifo_rvalid p s i
    else true
  else false

def d_error : Bool :=
  if reqfifo_rvalid p s then
    if (reqfifo_rdata p s i).op = .OpRead then
      (rspfifo_rdata p s i).error || (reqfifo_rdata p s i).error
    else (reqfifo_rdata p s i).error
  else false

def vld_rd_rsp : Bool :=
  d_valid p s i && reqfifo_rvalid p s && rspfifo_rvalid p s i &&
    decide ((reqfifo_rdata p s i).op = .OpRead)

def error_blanking_data : BitVec 32 :=
  if mubi4_test_true_strict (reqfifo_rdata p s i).instr_type then DataWhenInstrError
  else DataWhenError

def error_blanking_integ : BitVec 7 :=
  if mubi4_test_true_strict (reqfifo_rdata p s i).instr_type then get_data_intg DataWhenInstrError
  else get_data_intg DataWhenError

def d_data : BitVec 32 :=
  if vld_rd_rsp p s i && !d_error p s i then (rspfifo_rdata p s i).data
  else error_blanking_data p s i

def data_intg : BitVec 7 :=
  if vld_rd_rsp p s i && (reqfifo_rdata p s i).error then error_blanking_integ p s i
  else if vld_rd_rsp p s i then (rspfifo_rdata p s i).data_intg
  else SecdedInv3932ZeroEcc

def tl_o_int : D2h where
  d_valid := d_valid p s i
  d_opcode :=
    if d_valid p s i && decide ((reqfifo_rdata p s i).op ≠ .OpRead) then AccessAck
    else AccessAckData
  d_param := 0#3
  d_size := if d_valid p s i then (reqfifo_rdata p s i).size else 0#2
  d_source := if d_valid p s i then (reqfifo_rdata p s i).source else 0#8
  d_sink := false
  d_data := d_data p s i
  d_user := ⟨0#7, data_intg p s i⟩
  d_error := d_valid p s i && d_error p s i
  a_ready := (i.gnt_i || error_internal p s i) && reqfifo_wready p s &&
    s.u_sramreqfifo.wready_o p.Outstanding

def tl_out : D2h :=
  if EnableIntg p then s.u_sram_byte.tl_o p.Outstanding i.tl_i (tl_o_int p s i)
  else tl_o_int p s i

/-- The bus response. -/
def tl_o : D2h := tlul_rsp_intg_gen p.EnableRspIntgGen false (tl_out p s i)

def req_o : Bool :=
  (tl_i_int p s i).a_valid && reqfifo_wready p s && !error_internal p s i

def req_type_o : Mubi4 := (tl_i_int p s i).a_user.instr_type

def we_o : Bool := (tl_i_int p s i).a_valid && SramByte.wr_txn (tl_i_int p s i)

def addr_o : BitVec p.SramAw :=
  if (tl_i_int p s i).a_valid then
    (tl_i_int p s i).a_address.extractLsb' (p.WoffsetWidth + 2) p.SramAw
  else 0#p.SramAw

/-- A byte of a word for each bit of a mask. -/
def byteMask (a_mask : BitVec 4) : BitVec 32 := Bits.ofBits 32 fun j => a_mask.getLsbD (j / 8)

def wmask_o (woff : BitVec p.WoffsetWidth) : BitVec 39 :=
  if (tl_i_int p s i).a_valid ∧ woff = woffset p s i then
    BitVec.allOnes 7 ++ byteMask (tl_i_int p s i).a_mask
  else 0#39

def wdata_o (woff : BitVec p.WoffsetWidth) : BitVec 39 :=
  if (tl_i_int p s i).a_valid ∧ woff = woffset p s i then
    (tl_i_int p s i).a_user.data_intg ++
      if we_o p s i then (tl_i_int p s i).a_data &&& byteMask (tl_i_int p s i).a_mask else 0#32
  else 0#39

def intg_error_o : Bool := intg_error p i || s.intg_error_q

def a_ack : Bool := (tl_i_int p s i).a_valid && (tl_o_int p s i).a_ready

def d_ack : Bool := (tl_o_int p s i).d_valid && (tl_i_int p s i).d_ready

def sram_ack : Bool := req_o p s i && i.gnt_i

def rspfifo_rready : Bool :=
  if (reqfifo_rdata p s i).op = .OpRead ∧ (reqfifo_rdata p s i).error = false then d_ack p s i
  else false

/-- A clock edge. -/
def clock : AdapterSram p.WoffsetWidth where
  u_sram_byte :=
    if EnableIntg p then
      s.u_sram_byte.clock p.Outstanding i.tl_i (error_det p i) (tl_o_int p s i)
    else s.u_sram_byte
  u_reqfifo :=
    s.u_reqfifo.clock p.Outstanding false (a_ack p s i) (reqfifo_wdata p s i) (d_ack p s i)
  u_sramreqfifo := s.u_sramreqfifo.clock p.Outstanding false (sram_ack p s i && !we_o p s i)
    (sramreqfifo_wdata p s i) (rspfifo_wvalid p s i)
  u_rspfifo := s.u_rspfifo.clock p.Outstanding true (rspfifo_wvalid p s i)
    (rspfifo_wdata p s i) (rspfifo_rready p s i)
  intg_error_q := s.intg_error_q || intg_error p i

end Signals

end AdapterSram

end SecureBoot.Tlul
