import SecureBoot.Prim.FifoSync
import SecureBoot.Tlul.Pkg

/-! `tlul_sram_byte`, which turns a byte write into a read and a write of the whole word. The FIFOs
are the queues that `prim_fifo_sync` refines. -/

namespace SecureBoot.Tlul

open Bits BoundedQueue

/-! ### FIFOs as queues -/

/-- A `prim_fifo_sync` of structured words. -/
structure SyncQueue (α : Type) where
  under_rst : Bool
  words : List α

namespace SyncQueue

variable {α : Type}

def reset : SyncQueue α := ⟨true, []⟩

variable (Depth : ℕ) (Pass : Bool) (q : SyncQueue α) (wvalid_i : Bool) (wdata_i : α)
  (rready_i : Bool)

def wready_o : Bool := !q.under_rst && decide (q.words.length < Depth)

def rvalid_o : Bool := !q.under_rst && (!q.words.isEmpty || Pass && wvalid_i)

/-- `rdata_o`, where `zero` is shown by an empty FIFO. -/
def rdata_o (zero : α) : α := q.words.headD (if Pass && wvalid_i then wdata_i else zero)

def clock : SyncQueue α where
  under_rst := false
  words := next Depth Pass q.words
    ⟨wvalid_i && !q.under_rst, wdata_i, rready_i && !q.under_rst, false⟩

end SyncQueue

section Refinement

variable {Depth Width : ℕ} (Pass : Bool) {inputs : ℕ → FifoSyncIn Width}

/-- The queue of a run. -/
def syncQueueAfter (Depth : ℕ) (inputs : ℕ → FifoSyncIn Width) (n : ℕ) :
    SyncQueue (BitVec Width) :=
  Mealy.stateAt (fun q i => q.clock Depth Pass i.wvalid_i i.wdata_i i.rready_i) .reset inputs n

theorem syncQueueAfter_eq (hclr : ∀ n, (inputs n).clr_i = false) (n : ℕ) :
    syncQueueAfter Pass Depth inputs n = ⟨n == 0, FifoSync.queueAfter Pass inputs Depth n⟩ := by
  induction n with
  | zero => rfl
  | succ n ih =>
    have hcycle : FifoSync.cycleAt inputs n = ⟨(inputs n).wvalid_i && !(n == 0),
        (inputs n).wdata_i, (inputs n).rready_i && !(n == 0), false⟩ := by
      rw [FifoSync.cycleAt, FifoSync.cycle, hclr]
    have hqueue : FifoSync.queueAfter Pass inputs Depth (n + 1) =
        next Depth Pass (FifoSync.queueAfter Pass inputs Depth n) (FifoSync.cycleAt inputs n) := rfl
    rw [syncQueueAfter, Mealy.stateAt_succ, ← syncQueueAfter, ih, hqueue, hcycle]
    rfl

/-- `prim_fifo_sync` shows the queue at its ports in every cycle from reset on. -/
theorem fifoSync_shows_syncQueue (hDepth : 0 < Depth) (OutputZeroIfEmpty Secure : Bool)
    (storage : ℕ → BitVec Width) (hclr : ∀ n, (inputs n).clr_i = false) (n : ℕ) :
    let q := syncQueueAfter Pass Depth inputs n
    let o : FifoSyncOut Depth Width :=
      FifoSync.outAt Pass OutputZeroIfEmpty Secure storage inputs n
    o.wready_o = q.wready_o Depth ∧ o.rvalid_o = q.rvalid_o Pass (inputs n).wvalid_i ∧
      (o.rvalid_o = true → o.rdata_o = q.rdata_o Pass (inputs n).wvalid_i (inputs n).wdata_i 0) ∧
        o.depth_o.toNat = q.words.length ∧ o.err_o = false := by
  have hshows : FifoSync.ShowsQueue Pass (n != 0) (FifoSync.queueAfter Pass inputs Depth n)
      (inputs n) (FifoSync.outAt Pass OutputZeroIfEmpty Secure storage inputs n :
        FifoSyncOut Depth Width) := FifoSync.showsQueue_after hDepth n
  intro q o
  have hq : q = ⟨n == 0, FifoSync.queueAfter Pass inputs Depth n⟩ := syncQueueAfter_eq Pass hclr n
  have hvalid : o.rvalid_o = q.rvalid_o Pass (inputs n).wvalid_i := by
    rw [Bool.eq_iff_iff, hshows.rvalid, hq, SyncQueue.rvalid_o]
    simp
  refine ⟨?_, hvalid, fun hv => ?_, ?_, hshows.err⟩
  · rw [Bool.eq_iff_iff, hshows.wready, hq, SyncQueue.wready_o]
    simp
  · rw [hshows.rdata hv, hq, SyncQueue.rdata_o]
    obtain ⟨-, hne | ⟨hpass, hwvalid⟩⟩ := hshows.rvalid.mp hv
    · obtain ⟨word, words, hwords⟩ := List.exists_cons_of_ne_nil hne
      rw [hwords]
      rfl
    · rw [hpass, hwvalid]
      rfl
  · rw [hshows.depth, hq]

end Refinement

/-! ### The module -/

/-- `state_e`. -/
inductive ByteState where
  | StPassThru
  | StWaitRd
  | StWriteCmd
deriving DecidableEq

/-- `tl_txn_data_t`. -/
structure TxnData where
  a_param : BitVec 3
  a_size : BitVec 2
  a_source : BitVec 8
  a_address : BitVec 32
  a_mask : BitVec 4
  a_data : BitVec 32
  a_user : AUser

/-- The registers of `gen_integ_handling`. The FIFO of depth one shows its storage at all times. -/
structure SramByte where
  state_q : ByteState
  held : SyncQueue TxnData
  held_data : TxnData
  rsp_data : BitVec 32
  sizes : SyncQueue (BitVec 2)

namespace SramByte

/-- Reset leaves the storage and the captured data as they are. -/
def reset (held_data : TxnData) (rsp_data : BitVec 32) : SramByte :=
  ⟨.StPassThru, .reset, held_data, rsp_data, .reset⟩

/-- An address within a word is cleared. -/
def alignWord (a : BitVec 32) : BitVec 32 := a &&& ~~~3#32

variable (s : SramByte)

/-- The bytes that a write names, and the captured ones. -/
def combined_data : BitVec 32 :=
  ofBits 32 fun j =>
    if s.held_data.a_mask.getLsbD (j / 8) then s.held_data.a_data.getLsbD j
    else s.rsp_data.getLsbD j

def stall_host : Bool := s.state_q != .StPassThru

def wr_phase : Bool := s.state_q == .StWriteCmd

/-- One outstanding transaction remains, the read of the byte write. -/
def rd_wait : Bool := s.state_q == .StWaitRd && s.sizes.words.length == 1

def wr_txn (tl_i : H2d) : Bool := tl_i.a_opcode == PutFullData || tl_i.a_opcode == PutPartialData

def byte_wr_txn (tl_i : H2d) : Bool :=
  tl_i.a_valid && tl_i.a_mask != BitVec.allOnes 4 && wr_txn tl_i

def rd_phase (tl_i : H2d) : Bool :=
  match s.state_q with
  | .StPassThru => byte_wr_txn tl_i
  | .StWaitRd => true
  | .StWriteCmd => false

/-- What goes to the SRAM. -/
def tl_sram_o (tl_i : H2d) (error_i : Bool) : H2d :=
  let passed := { tl_i with d_ready := tl_i.d_ready || s.rd_wait }
  if s.wr_phase then
    { passed with
      a_valid := true
      a_opcode := PutFullData
      a_size := 2#2
      a_mask := BitVec.allOnes 4
      a_address := alignWord s.held_data.a_address
      a_source := s.held_data.a_source
      a_param := s.held_data.a_param
      a_data := s.combined_data
      a_user := { s.held_data.a_user with data_intg := get_data_intg s.combined_data } }
  else if s.rd_phase tl_i then
    let aligned := { passed with a_address := alignWord tl_i.a_address }
    if !error_i || s.stall_host then
      { aligned with
        a_size := 2#2
        a_mask := BitVec.allOnes 4
        a_valid := tl_i.a_valid && !s.stall_host
        a_opcode := Get }
    else aligned
  else passed

def error_o (error_i : Bool) : Bool := error_i && !s.stall_host

variable (Outstanding : ℕ)

/-- What goes to the host, given the answer of the SRAM. -/
def tl_o (tl_i : H2d) (tl_sram_i : D2h) : D2h :=
  { tl_sram_i with
    a_ready := tl_sram_i.a_ready && !s.stall_host && s.held.wready_o 1 &&
      s.sizes.wready_o Outstanding
    d_valid := tl_sram_i.d_valid && !s.rd_wait
    d_size := s.sizes.rdata_o false false tl_i.a_size 0#2 }

/-! ### Handshakes -/

section Handshakes

variable (tl_i : H2d) (error_i : Bool) (tl_sram_i : D2h)

def a_ack : Bool := tl_i.a_valid && (s.tl_o Outstanding tl_i tl_sram_i).a_ready

def d_ack : Bool := (s.tl_o Outstanding tl_i tl_sram_i).d_valid && tl_i.d_ready

def sram_a_ack : Bool := (s.tl_sram_o tl_i error_i).a_valid && tl_sram_i.a_ready

def sram_d_ack : Bool := tl_sram_i.d_valid && (s.tl_sram_o tl_i error_i).d_ready

def byte_req_ack : Bool := byte_wr_txn tl_i && s.a_ack Outstanding tl_i tl_sram_i && !error_i

def txn_data : TxnData :=
  ⟨tl_i.a_param, tl_i.a_size, tl_i.a_source, tl_i.a_address, tl_i.a_mask, tl_i.a_data, tl_i.a_user⟩

def state_d : ByteState :=
  match s.state_q with
  | .StPassThru =>
    if byte_wr_txn tl_i && s.byte_req_ack Outstanding tl_i error_i tl_sram_i then .StWaitRd
    else .StPassThru
  | .StWaitRd => if s.rd_wait && s.sram_d_ack tl_i error_i tl_sram_i then .StWriteCmd else .StWaitRd
  | .StWriteCmd => if s.sram_a_ack tl_i error_i tl_sram_i then .StPassThru else .StWriteCmd

/-- A clock edge. -/
def clock : SramByte :=
  let byte_req_ack := s.byte_req_ack Outstanding tl_i error_i tl_sram_i
  { state_q := s.state_d Outstanding tl_i error_i tl_sram_i
    held := s.held.clock 1 false byte_req_ack (txn_data tl_i) (s.sram_a_ack tl_i error_i tl_sram_i)
    held_data := if byte_req_ack && s.held.wready_o 1 then txn_data tl_i else s.held_data
    rsp_data :=
      if s.sram_d_ack tl_i error_i tl_sram_i && s.rd_wait then tl_sram_i.d_data else s.rsp_data
    sizes := s.sizes.clock Outstanding false (s.a_ack Outstanding tl_i tl_sram_i) tl_i.a_size
      (s.d_ack Outstanding tl_i tl_sram_i) }

end Handshakes

end SramByte

end SecureBoot.Tlul
