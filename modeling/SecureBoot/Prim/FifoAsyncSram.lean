import SecureBoot.Lib.MaskedMem
import SecureBoot.Prim.FifoAsyncOrder

/-! `prim_fifo_async_sram_adapter`, a FIFO across two clocks that keeps its words in an SRAM. The
read side fetches a word ahead, and holds it in a register while the reader does not take it. The
fill levels at the ports are left out. -/

namespace SecureBoot

open Clocked Gray MaskedMem

/-- The parameters, as the module asserts them, and an SRAM with a word for each place. -/
structure SramFifoParams where
  Width : ℕ
  Depth : ℕ
  SramAw : ℕ
  SramDw : ℕ
  SramBaseAddr : BitVec SramAw
  ParamCheckDepth_A : Depth = 2 ^ Nat.clog 2 Depth
  MinDepth_A : 4 ≤ Depth
  WidthMatch_A : Width ≤ SramDw
  addressable : Depth ≤ 2 ^ SramAw

namespace SramFifoParams

variable (p : SramFifoParams)

abbrev PtrVW : ℕ := Nat.clog 2 p.Depth

abbrev PtrW : ℕ := p.PtrVW + 1

/-- The SRAM's address for a pointer. -/
def sramAddr (ptr : BitVec p.PtrW) : BitVec p.SramAw :=
  p.SramBaseAddr + (ptr.setWidth p.PtrVW).setWidth p.SramAw

end SramFifoParams

variable {p : SramFifoParams}

/-! ### The write side -/

structure SramFifoWrIn (p : SramFifoParams) where
  wvalid_i : Bool
  wdata_i : BitVec p.Width
  w_sram_gnt_i : Bool

structure SramFifoWr (p : SramFifoParams) where
  w_wptr_q : BitVec p.PtrW
  w_wptr_gray_q : BitVec p.PtrW
  u_sync_rptr_gray : Sync (BitVec p.PtrW)

namespace SramFifoWr

variable (s : SramFifoWr p) (i : SramFifoWrIn p)

def w_rptr : BitVec p.PtrW := gray2dec p.Depth s.u_sync_rptr_gray.q

def w_full : Bool := s.w_wptr_q = s.w_rptr ^^^ fifoXorMask p.PtrW

def wready_o : Bool := !s.w_full && i.w_sram_gnt_i

def w_wptr_inc : Bool := i.wvalid_i && s.wready_o i

def w_wptr_d : BitVec p.PtrW := s.w_wptr_q + 1#_

def w_sram_req_o : Bool := i.wvalid_i && !s.w_full

/-- The write that the SRAM sees. -/
def w_sram : Write (BitVec p.SramAw) p.SramDw where
  addr := p.sramAddr s.w_wptr_q
  data := i.wdata_i.setWidth p.SramDw
  mask := (BitVec.allOnes p.Width).setWidth p.SramDw

/-- `w_wptr_gray_q` after an edge. -/
def wptrGrayNext : BitVec p.PtrW :=
  if s.w_wptr_inc i then dec2gray p.Depth s.w_wptr_d else s.w_wptr_gray_q

/-- An edge of the write clock, at which the synchronizer samples `rptrGray`. -/
def clock (rptrGray : BitVec p.PtrW) : SramFifoWr p where
  w_wptr_q := if s.w_wptr_inc i then s.w_wptr_d else s.w_wptr_q
  w_wptr_gray_q := s.wptrGrayNext i
  u_sync_rptr_gray := s.u_sync_rptr_gray.clock rptrGray

end SramFifoWr

/-! ### The read side -/

/-- The inputs, and what the SRAM shows in the next cycle if it has nothing to answer. -/
structure SramFifoRdIn (p : SramFifoParams) where
  rready_i : Bool
  r_sram_gnt_i : Bool
  idle : BitVec p.SramDw

/-- The registers, and the SRAM's answer in the cycle. -/
structure SramFifoRd (p : SramFifoParams) where
  r_rptr_q : BitVec p.PtrW
  r_rptr_gray_q : BitVec p.PtrW
  u_sync_wptr_gray : Sync (BitVec p.PtrW)
  r_sram_rptr : BitVec p.PtrW
  stored : Bool
  rdata_q : BitVec p.Width
  r_sram_rvalid_i : Bool
  r_sram_rdata_i : BitVec p.SramDw

namespace SramFifoRd

variable (s : SramFifoRd p) (i : SramFifoRdIn p)

def r_wptr : BitVec p.PtrW := gray2dec p.Depth s.u_sync_wptr_gray.q

def r_sramrptr_empty : Bool := s.r_wptr = s.r_sram_rptr

def rvalid_o : Bool := s.stored || s.r_sram_rvalid_i

def rfifo_ack : Bool := s.rvalid_o && i.rready_i

def rdata_d : BitVec p.Width := if s.r_sram_rvalid_i then s.r_sram_rdata_i.setWidth p.Width else 0

def rdata_o : BitVec p.Width := if s.stored then s.rdata_q else s.rdata_d

/-- `r_sram_req`. -/
def r_sram_req_o : Bool :=
  if s.stored then !s.r_sramrptr_empty && s.rfifo_ack i
  else !s.r_sramrptr_empty && !(s.r_sram_rvalid_i ^^ s.rfifo_ack i)

def rsram_ack : Bool := s.r_sram_req_o i && i.r_sram_gnt_i

def r_sram_addr_o : BitVec p.SramAw := p.sramAddr s.r_sram_rptr

def r_rptr_d : BitVec p.PtrW := s.r_rptr_q + 1#_

def store_en : Bool := s.r_sram_rvalid_i && !(s.stored ^^ s.rfifo_ack i)

/-- `r_rptr_gray_q` after an edge. -/
def rptrGrayNext : BitVec p.PtrW :=
  if s.rfifo_ack i then dec2gray p.Depth s.r_rptr_d else s.r_rptr_gray_q

/-- An edge of the read clock, at which the synchronizer samples `wptrGray` and the SRAM reads. -/
def clock (wptrGray : BitVec p.PtrW) (mem : BitVec p.SramAw → BitVec p.SramDw) : SramFifoRd p where
  r_rptr_q := if s.rfifo_ack i then s.r_rptr_d else s.r_rptr_q
  r_rptr_gray_q := s.rptrGrayNext i
  u_sync_wptr_gray := s.u_sync_wptr_gray.clock wptrGray
  r_sram_rptr := if s.rsram_ack i then s.r_sram_rptr + 1#_ else s.r_sram_rptr
  stored :=
    if s.store_en i then true
    else if !s.r_sram_rvalid_i && s.rfifo_ack i then false
    else s.stored
  rdata_q :=
    if s.store_en i then s.rdata_d
    else if !s.r_sram_rvalid_i && s.rfifo_ack i then 0
    else s.rdata_q
  r_sram_rvalid_i := s.rsram_ack i
  r_sram_rdata_i := if s.rsram_ack i then mem s.r_sram_addr_o else i.idle

end SramFifoRd

/-! ### Runs -/

/-- The FIFO with the SRAM, and the words accepted and delivered so far, the earliest first. -/
structure SramFifo (p : SramFifoParams) where
  wr : SramFifoWr p
  rd : SramFifoRd p
  mem : BitVec p.SramAw → BitVec p.SramDw
  accepted : List (BitVec p.Width)
  delivered : List (BitVec p.Width)

/-- Clock edges that fall together, each with the inputs of its side. A bit of a pointer that
changes is sampled from before the change where `late` is set. -/
structure SramFifoEvent (p : SramFifoParams) where
  wr : Option (SramFifoWrIn p)
  rd : Option (SramFifoRdIn p)
  lateWptr : BitVec p.PtrW
  lateRptr : BitVec p.PtrW

namespace SramFifo

/-- The state after a common reset, which leaves the SRAM as it is. -/
def init (mem : BitVec p.SramAw → BitVec p.SramDw) (r_sram_rdata_i : BitVec p.SramDw) :
    SramFifo p where
  wr := ⟨0, 0, ⟨0, 0⟩⟩
  rd := ⟨0, 0, ⟨0, 0⟩, 0, false, 0, false, r_sram_rdata_i⟩
  mem
  accepted := []
  delivered := []

variable (s : SramFifo p) (e : SramFifoEvent p)

/-- The Gray-coded write pointer as the read clock samples it. -/
def sampledWptr : BitVec p.PtrW :=
  match e.wr with
  | none => s.wr.w_wptr_gray_q
  | some i => sample e.lateWptr s.wr.w_wptr_gray_q (s.wr.wptrGrayNext i)

/-- The Gray-coded read pointer as the write clock samples it. -/
def sampledRptr : BitVec p.PtrW :=
  match e.rd with
  | none => s.rd.r_rptr_gray_q
  | some i => sample e.lateRptr s.rd.r_rptr_gray_q (s.rd.rptrGrayNext i)

def step : SramFifo p where
  wr := match e.wr with
    | none => s.wr
    | some i => s.wr.clock i (s.sampledRptr e)
  rd := match e.rd with
    | none => s.rd
    | some i => s.rd.clock i (s.sampledWptr e) s.mem
  mem := match e.wr with
    | none => s.mem
    | some i => if s.wr.w_sram_req_o i && i.w_sram_gnt_i then (s.wr.w_sram i).apply s.mem else s.mem
  accepted := s.accepted ++ match e.wr with
    | none => []
    | some i => if s.wr.w_wptr_inc i then [i.wdata_i] else []
  delivered := s.delivered ++ match e.rd with
    | none => []
    | some i => if s.rd.rfifo_ack i then [s.rd.rdata_o] else []

/-- A run from reset. -/
def run (mem : BitVec p.SramAw → BitVec p.SramDw) (r_sram_rdata_i : BitVec p.SramDw)
    (events : List (SramFifoEvent p)) : SramFifo p :=
  events.foldl step (init mem r_sram_rdata_i)

end SramFifo

end SecureBoot
