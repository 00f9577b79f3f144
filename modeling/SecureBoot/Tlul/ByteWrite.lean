import SecureBoot.Tlul.ResponseIntegrity

/-! What `tlul_sram_byte` stores for a write of single bytes. The word it reads back is merged
with the written bytes as the adapter answers it, and gets new check bits, whatever its own were. -/

namespace SecureBoot.Tlul

open Bits

/-! ### Edges of a FIFO -/

namespace SyncQueue

variable {α β : Type} {Depth : ℕ} {q : SyncQueue α} {q' : SyncQueue β}
  {wvalid_i rready_i : Bool} {wdata_i : α}

/-- Without pass-through, a word comes in at the end and one goes at the head. -/
theorem words_clock : (q.clock Depth false wvalid_i wdata_i rready_i).words =
    (q.words ++ if wvalid_i && q.wready_o Depth then [wdata_i] else []).drop
      (if rready_i && q.rvalid_o false wvalid_i then 1 else 0) := by
  obtain ⟨under_rst, words⟩ := q
  simp only [clock, BoundedQueue.next, BoundedQueue.accepted, BoundedQueue.delivered,
    BoundedQueue.offered, wready_o, rvalid_o]
  cases under_rst <;> cases wvalid_i <;> cases rready_i <;> cases words <;> simp

/-- Two FIFOs that see the same handshakes hold as many words. -/
theorem length_clock_eq {wdata_i' : β} (hrst : q.under_rst = q'.under_rst)
    (hlen : q.words.length = q'.words.length) :
    (q.clock Depth false wvalid_i wdata_i rready_i).words.length =
      (q'.clock Depth false wvalid_i wdata_i' rready_i).words.length := by
  have hempty : q.words.isEmpty = q'.words.isEmpty := by
    rw [Bool.eq_iff_iff, List.isEmpty_iff_length_eq_zero, List.isEmpty_iff_length_eq_zero, hlen]
  rw [words_clock, words_clock, List.length_drop, List.length_drop, List.length_append,
    List.length_append, wready_o, wready_o, rvalid_o, rvalid_o, hrst, hlen, hempty]
  split_ifs <;> rfl

theorem length_clock_le (hle : q.words.length ≤ Depth) :
    (q.clock Depth false wvalid_i wdata_i rready_i).words.length ≤ Depth := by
  rw [words_clock, List.length_drop, List.length_append]
  split_ifs with hwvalid hrready
  all_goals simp only [Bool.and_eq_true, wready_o, decide_eq_true_eq] at hwvalid
  all_goals simp only [List.length_singleton, List.length_nil]
  all_goals omega

end SyncQueue

/-! ### The phases of `tlul_sram_byte` -/

namespace SramByte

/-- The bytes that a write names, and those of another word. -/
def merge (txn : TxnData) (data : BitVec 32) : BitVec 32 :=
  ofBits 32 fun j =>
    if txn.a_mask.getLsbD (j / 8) then txn.a_data.getLsbD j else data.getLsbD j

variable {s : SramByte} {tl_i : H2d} {error_i : Bool} {tl_sram_i : D2h} {Outstanding : ℕ}

theorem combined_data_eq : s.combined_data = merge s.held_data s.rsp_data := rfl

theorem tl_sram_o_d_ready : (s.tl_sram_o tl_i error_i).d_ready = (tl_i.d_ready || s.rd_wait) := by
  rw [tl_sram_o]
  split_ifs <;> rfl

theorem a_valid_of_passThru (h : s.state_q = .StPassThru) :
    (s.tl_sram_o tl_i error_i).a_valid = tl_i.a_valid := by
  rw [tl_sram_o]
  split_ifs <;> simp_all [wr_phase, stall_host]

theorem a_user_of_passThru (h : s.state_q = .StPassThru) :
    (s.tl_sram_o tl_i error_i).a_user = tl_i.a_user := by
  rw [tl_sram_o]
  split_ifs <;> simp_all [wr_phase]

theorem a_valid_of_waitRd (h : s.state_q = .StWaitRd) :
    (s.tl_sram_o tl_i error_i).a_valid = false := by
  simp [tl_sram_o, wr_phase, stall_host, rd_phase, h]

theorem a_opcode_of_byte_wr_txn (h : s.state_q = .StPassThru) (hbyte : byte_wr_txn tl_i = true)
    (herror : error_i = false) : (s.tl_sram_o tl_i error_i).a_opcode = Get := by
  simp [tl_sram_o, wr_phase, rd_phase, h, hbyte, herror]

theorem tl_sram_o_of_writeCmd (h : s.state_q = .StWriteCmd) :
    s.tl_sram_o tl_i error_i =
      { a_valid := true
        a_opcode := PutFullData
        a_param := s.held_data.a_param
        a_size := 2#2
        a_source := s.held_data.a_source
        a_address := alignWord s.held_data.a_address
        a_mask := BitVec.allOnes 4
        a_data := s.combined_data
        a_user := { s.held_data.a_user with data_intg := get_data_intg s.combined_data }
        d_ready := tl_i.d_ready || s.rd_wait } := by
  simp [tl_sram_o, wr_phase, h]

theorem a_ack_of_stall (h : s.state_q ≠ .StPassThru) :
    s.a_ack Outstanding tl_i tl_sram_i = false := by
  simp [a_ack, tl_o, stall_host, h]

theorem byte_req_ack_of_stall (h : s.state_q ≠ .StPassThru) :
    s.byte_req_ack Outstanding tl_i error_i tl_sram_i = false := by
  simp [byte_req_ack, a_ack_of_stall h]

theorem rd_wait_iff : s.rd_wait = true ↔ s.state_q = .StWaitRd ∧ s.sizes.words.length = 1 := by
  simp [rd_wait]

/-- The part of an address that selects a word. -/
theorem extractLsb'_alignWord {k n : ℕ} (hk : 2 ≤ k) (a : BitVec 32) :
    (alignWord a).extractLsb' k n = a.extractLsb' k n := by
  ext j hj
  have hbit : (3#32).getLsbD (k + j) = false := by
    have hpow : 2 ^ 2 ≤ 2 ^ (k + j) := Nat.pow_le_pow_right Nat.zero_lt_two (by omega)
    have hthree : (3 : ℕ) < 2 ^ (k + j) := Nat.lt_of_lt_of_le (by decide) hpow
    simp [BitVec.getLsbD, Nat.testBit_lt_two_pow hthree]
  simp only [alignWord, BitVec.getElem_extractLsb', BitVec.getLsbD_and, BitVec.getLsbD_not, hbit]
  by_cases hlt : k + j < 32
  · simp [hlt]
  · simp [BitVec.getLsbD_of_ge a (k + j) (by omega)]

end SramByte

/-! ### The invariant -/

namespace AdapterSram

variable {p : SramParams}

/-- The entry of the request FIFO for the read of a byte write. -/
structure ReadEntry (r : Req) : Prop where
  op : r.op = .OpRead
  error : r.error = false
  instr_type : mubi4_test_true_strict r.instr_type = false

/-- The entries of the two FIFOs that count transactions, in each state. -/
def PhaseInv (b : SramByte) (reqs : List Req) : Prop :=
  match b.state_q with
  | .StPassThru => b.held.words = [] ∧ b.sizes.words.length = reqs.length
  | .StWaitRd => b.sizes.words.length = reqs.length ∧ ∃ r, reqs.getLast? = some r ∧ ReadEntry r
  | .StWriteCmd => b.sizes.words.length = 1 ∧ reqs = []

structure Inv (s : AdapterSram p.WoffsetWidth) : Prop where
  held_rst : s.u_sram_byte.held.under_rst = s.u_reqfifo.under_rst
  sizes_rst : s.u_sram_byte.sizes.under_rst = s.u_reqfifo.under_rst
  held_le : s.u_sram_byte.held.words.length ≤ 1
  phase : PhaseInv s.u_sram_byte s.u_reqfifo.words

section Step

variable {s : AdapterSram p.WoffsetWidth} {i : SramIn p.WoffsetWidth}

theorem tl_i_int_eq (hintg : EnableIntg p = true) :
    tl_i_int p s i = s.u_sram_byte.tl_sram_o i.tl_i (error_det p i) :=
  if_pos hintg

theorem tl_out_eq (hintg : EnableIntg p = true) :
    tl_out p s i = s.u_sram_byte.tl_o p.Outstanding i.tl_i (tl_o_int p s i) :=
  if_pos hintg

theorem clock_u_sram_byte (hintg : EnableIntg p = true) : (clock p s i).u_sram_byte =
    s.u_sram_byte.clock p.Outstanding i.tl_i (error_det p i) (tl_o_int p s i) :=
  if_pos hintg

theorem d_ack_eq (hintg : EnableIntg p = true) : d_ack p s i =
    (d_valid p s i && (i.tl_i.d_ready || s.u_sram_byte.rd_wait)) := by
  rw [d_ack, tl_i_int_eq hintg, SramByte.tl_sram_o_d_ready]
  rfl

/-- The read of a byte write is answered. -/
def readBack (p : SramParams) (s : AdapterSram p.WoffsetWidth) (i : SramIn p.WoffsetWidth) : Bool :=
  s.u_sram_byte.rd_wait && d_ack p s i

/-- The write of the whole word is taken. -/
def storeTaken (p : SramParams) (s : AdapterSram p.WoffsetWidth) (i : SramIn p.WoffsetWidth) :
    Bool :=
  s.u_sram_byte.wr_phase && a_ack p s i

theorem readBack_iff (hintg : EnableIntg p = true) : readBack p s i = true ↔
    s.u_sram_byte.state_q = .StWaitRd ∧ s.u_sram_byte.sizes.words.length = 1 ∧
      d_valid p s i = true := by
  rw [readBack, d_ack_eq hintg, Bool.and_eq_true, SramByte.rd_wait_iff]
  constructor
  · rintro ⟨hwait, hvalid⟩
    exact ⟨hwait.1, hwait.2, (Bool.and_eq_true_iff.mp hvalid).1⟩
  · rintro ⟨hstate, hlen, hvalid⟩
    simp [hstate, hlen, hvalid, SramByte.rd_wait]

theorem reqfifo_rvalid_of_d_valid (h : d_valid p s i = true) : reqfifo_rvalid p s = true := by
  by_contra hreq
  simp [d_valid, hreq] at h

theorem reqfifo_rvalid_eq :
    reqfifo_rvalid p s = (!s.u_reqfifo.under_rst && !s.u_reqfifo.words.isEmpty) := by
  simp [reqfifo_rvalid, SyncQueue.rvalid_o]

/-- A popped request leaves the others. -/
theorem clock_u_reqfifo : (clock p s i).u_reqfifo.words =
    (s.u_reqfifo.words ++ if a_ack p s i then [reqfifo_wdata p s i] else []).drop
      (if d_ack p s i then 1 else 0) := by
  have ha : (a_ack p s i && s.u_reqfifo.wready_o p.Outstanding) = a_ack p s i := by
    rw [Bool.and_eq_left_iff_imp]
    intro h
    simp only [a_ack, tl_o_int, reqfifo_wready, Bool.and_eq_true] at h
    exact h.2.1.2
  have hd : (d_ack p s i && s.u_reqfifo.rvalid_o false (a_ack p s i)) = d_ack p s i := by
    rw [Bool.and_eq_left_iff_imp]
    intro h
    have hvalid := reqfifo_rvalid_of_d_valid (Bool.and_eq_true_iff.mp h).1
    simpa [reqfifo_rvalid, SyncQueue.rvalid_o] using hvalid
  rw [clock, SyncQueue.words_clock, ha, hd]

/-- While the host's requests pass through, both sides of the module see the same handshakes. -/
theorem a_ack_of_passThru (hintg : EnableIntg p = true) (h : Inv s)
    (hstate : s.u_sram_byte.state_q = .StPassThru) :
    s.u_sram_byte.a_ack p.Outstanding i.tl_i (tl_o_int p s i) = a_ack p s i := by
  have hphase := h.phase
  simp only [PhaseInv, hstate] at hphase
  have hwready (hready : (tl_o_int p s i).a_ready = true) :
      s.u_sram_byte.held.wready_o 1 = true ∧
        s.u_sram_byte.sizes.wready_o p.Outstanding = true := by
    have hreq : reqfifo_wready p s = true := by
      simp only [tl_o_int, Bool.and_eq_true] at hready
      exact hready.1.2
    rw [reqfifo_wready, SyncQueue.wready_o, Bool.and_eq_true] at hreq
    rw [SyncQueue.wready_o, SyncQueue.wready_o, h.held_rst, h.sizes_rst, hphase.1, hphase.2]
    simp [hreq]
  rw [SramByte.a_ack, a_ack, tl_i_int_eq hintg, SramByte.a_valid_of_passThru hstate, SramByte.tl_o]
  cases hready : (tl_o_int p s i).a_ready with
  | false => simp
  | true => simp [hwready hready, SramByte.stall_host, hstate]

theorem d_ack_of_not_rd_wait (hintg : EnableIntg p = true) (h : s.u_sram_byte.rd_wait = false) :
    s.u_sram_byte.d_ack p.Outstanding i.tl_i (tl_o_int p s i) = d_ack p s i := by
  rw [d_ack_eq hintg, SramByte.d_ack, SramByte.tl_o, h]
  simp [tl_o_int]

theorem rd_wait_of_state (h : s.u_sram_byte.state_q ≠ .StWaitRd) :
    s.u_sram_byte.rd_wait = false := by
  simp [SramByte.rd_wait, h]

theorem sram_a_ack_eq (hintg : EnableIntg p = true) :
    s.u_sram_byte.sram_a_ack i.tl_i (error_det p i) (tl_o_int p s i) = a_ack p s i := by
  rw [a_ack, tl_i_int_eq hintg]
  rfl

theorem sram_d_ack_eq (hintg : EnableIntg p = true) :
    s.u_sram_byte.sram_d_ack i.tl_i (error_det p i) (tl_o_int p s i) = d_ack p s i := by
  rw [d_ack, tl_i_int_eq hintg]
  rfl

/-- The host's byte write is accepted. -/
def byteWriteTaken (p : SramParams) (s : AdapterSram p.WoffsetWidth) (i : SramIn p.WoffsetWidth) :
    Bool :=
  s.u_sram_byte.byte_req_ack p.Outstanding i.tl_i (error_det p i) (tl_o_int p s i)

theorem state_of_byteWriteTaken (h : byteWriteTaken p s i = true) :
    s.u_sram_byte.state_q = .StPassThru := by
  by_contra hstate
  rw [byteWriteTaken, SramByte.byte_req_ack_of_stall hstate] at h
  cases h

theorem error_det_of_byteWriteTaken (h : byteWriteTaken p s i = true) :
    error_det p i = false := by
  simpa using (Bool.and_eq_true_iff.mp h).2

theorem byte_wr_txn_of_byteWriteTaken (h : byteWriteTaken p s i = true) :
    SramByte.byte_wr_txn i.tl_i = true :=
  (Bool.and_eq_true_iff.mp (Bool.and_eq_true_iff.mp h).1).1

theorem a_ack_of_byteWriteTaken (hintg : EnableIntg p = true) (hinv : Inv s)
    (h : byteWriteTaken p s i = true) : a_ack p s i = true := by
  rw [← a_ack_of_passThru hintg hinv (state_of_byteWriteTaken h)]
  exact (Bool.and_eq_true_iff.mp (Bool.and_eq_true_iff.mp h).1).2

/-- The read that a byte write becomes. -/
theorem readEntry_of_byteWriteTaken (hintg : EnableIntg p = true)
    (h : byteWriteTaken p s i = true) : ReadEntry (reqfifo_wdata p s i) := by
  have hstate := state_of_byteWriteTaken h
  have herror := error_det_of_byteWriteTaken h
  have hbyte := byte_wr_txn_of_byteWriteTaken h
  constructor
  · simp [reqfifo_wdata, tl_i_int_eq hintg, SramByte.a_opcode_of_byte_wr_txn hstate hbyte herror]
  · simp [reqfifo_wdata, error_internal, hintg, SramByte.error_o, herror]
  · rw [reqfifo_wdata, tl_i_int_eq hintg, SramByte.a_user_of_passThru hstate]
    apply instr_type_of_tlul_err
    · simp only [error_det, Bool.or_eq_false_iff] at herror
      exact herror.1.2
    · simpa [SramByte.byte_wr_txn, SramByte.wr_txn] using (Bool.and_eq_true_iff.mp hbyte).2

theorem d_ack_of_words_nil (h : s.u_reqfifo.words = []) : d_valid p s i = false := by
  by_contra hvalid
  have hreq := reqfifo_rvalid_of_d_valid (Bool.eq_true_of_not_eq_false hvalid)
  simp [reqfifo_rvalid_eq, h] at hreq

theorem words_ne_nil_of_d_ack (h : d_ack p s i = true) : s.u_reqfifo.words ≠ [] := by
  intro hnil
  rw [d_ack, tl_o_int, d_ack_of_words_nil hnil] at h
  cases h

/-- A request that is pushed is the last one. -/
theorem getLast?_clock (ha : a_ack p s i = true) :
    (clock p s i).u_reqfifo.words.getLast? = some (reqfifo_wdata p s i) := by
  rw [clock_u_reqfifo, ha, if_pos rfl]
  split_ifs with hd
  · obtain ⟨r, rs, hwords⟩ := List.exists_cons_of_ne_nil (words_ne_nil_of_d_ack hd)
    rw [hwords]
    simp
  · simp

theorem under_rst_of_a_ack (h : a_ack p s i = true) : s.u_reqfifo.under_rst = false := by
  simp only [a_ack, tl_o_int, reqfifo_wready, SyncQueue.wready_o, Bool.and_eq_true] at h
  simpa using h.2.1.2.1

theorem outstanding_pos_of_a_ack (h : a_ack p s i = true) : 0 < p.Outstanding := by
  simp only [a_ack, tl_o_int, reqfifo_wready, SyncQueue.wready_o, Bool.and_eq_true,
    decide_eq_true_eq] at h
  exact Nat.zero_lt_of_lt h.2.1.2.2

theorem inv_reset (u_sram_byte : SramByte) (h : u_sram_byte = .reset u_sram_byte.held_data
    u_sram_byte.rsp_data) : Inv (reset p u_sram_byte) := by
  rw [h]
  exact ⟨rfl, rfl, Nat.zero_le 1, rfl, rfl⟩

theorem phaseInv_passThru (hintg : EnableIntg p = true) (h : Inv s)
    (hstate : s.u_sram_byte.state_q = .StPassThru) :
    PhaseInv (clock p s i).u_sram_byte (clock p s i).u_reqfifo.words := by
  have hphase := h.phase
  simp only [PhaseInv, hstate] at hphase
  have hwait : s.u_sram_byte.rd_wait = false := rd_wait_of_state (by simp [hstate])
  have hlen : (clock p s i).u_sram_byte.sizes.words.length =
      (clock p s i).u_reqfifo.words.length := by
    rw [clock_u_sram_byte hintg, SramByte.clock, a_ack_of_passThru hintg h hstate,
      d_ack_of_not_rd_wait hintg hwait]
    exact SyncQueue.length_clock_eq h.sizes_rst hphase.2
  cases htaken : byteWriteTaken p s i with
  | true =>
    have hnext : (clock p s i).u_sram_byte.state_q = .StWaitRd := by
      rw [clock_u_sram_byte hintg, SramByte.clock, SramByte.state_d, hstate]
      rw [byteWriteTaken] at htaken
      simp [htaken, (Bool.and_eq_true_iff.mp (Bool.and_eq_true_iff.mp htaken).1).1]
    simp only [PhaseInv, hnext]
    exact ⟨hlen, _, getLast?_clock (a_ack_of_byteWriteTaken hintg h htaken),
      readEntry_of_byteWriteTaken hintg htaken⟩
  | false =>
    have hnext : (clock p s i).u_sram_byte.state_q = .StPassThru := by
      rw [clock_u_sram_byte hintg, SramByte.clock, SramByte.state_d, hstate]
      rw [byteWriteTaken] at htaken
      simp [htaken]
    have hheld : (clock p s i).u_sram_byte.held.words = [] := by
      rw [clock_u_sram_byte hintg, SramByte.clock, SyncQueue.words_clock, hphase.1]
      rw [byteWriteTaken] at htaken
      simp [htaken]
    simp only [PhaseInv, hnext]
    exact ⟨hheld, hlen⟩

theorem a_ack_of_waitRd (hintg : EnableIntg p = true)
    (hstate : s.u_sram_byte.state_q = .StWaitRd) : a_ack p s i = false := by
  rw [a_ack, tl_i_int_eq hintg, SramByte.a_valid_of_waitRd hstate]
  rfl

theorem phaseInv_waitRd (hintg : EnableIntg p = true) (h : Inv s)
    (hstate : s.u_sram_byte.state_q = .StWaitRd) :
    PhaseInv (clock p s i).u_sram_byte (clock p s i).u_reqfifo.words := by
  have hphase := h.phase
  simp only [PhaseInv, hstate] at hphase
  obtain ⟨hlen, r, hlast, hentry⟩ := hphase
  have hstall : s.u_sram_byte.state_q ≠ .StPassThru := by simp [hstate]
  have hreqs : (clock p s i).u_reqfifo.words =
      s.u_reqfifo.words.drop (if d_ack p s i then 1 else 0) := by
    rw [clock_u_reqfifo, a_ack_of_waitRd hintg hstate]
    simp
  cases hback : readBack p s i with
  | true =>
    obtain ⟨hwait, hack⟩ := Bool.and_eq_true_iff.mp hback
    have hone : s.u_sram_byte.sizes.words.length = 1 := (SramByte.rd_wait_iff.mp hwait).2
    have hnext : (clock p s i).u_sram_byte.state_q = .StWriteCmd := by
      rw [clock_u_sram_byte hintg, SramByte.clock, SramByte.state_d, hstate, sram_d_ack_eq hintg]
      simp [hwait, hack]
    have hsizes : (clock p s i).u_sram_byte.sizes.words = s.u_sram_byte.sizes.words := by
      rw [clock_u_sram_byte hintg, SramByte.clock, SyncQueue.words_clock,
        SramByte.a_ack_of_stall hstall, SramByte.d_ack, SramByte.tl_o, hwait]
      simp
    simp only [PhaseInv, hnext]
    rw [hsizes, hreqs, hack]
    exact ⟨hone, List.drop_eq_nil_of_le (hlen.symm.trans hone).le⟩
  | false =>
    have hnext : (clock p s i).u_sram_byte.state_q = .StWaitRd := by
      rw [clock_u_sram_byte hintg, SramByte.clock, SramByte.state_d, hstate, sram_d_ack_eq hintg]
      rw [readBack] at hback
      simp [hback]
    have hdack : s.u_sram_byte.d_ack p.Outstanding i.tl_i (tl_o_int p s i) = d_ack p s i := by
      cases hwait : s.u_sram_byte.rd_wait with
      | false => exact d_ack_of_not_rd_wait hintg hwait
      | true =>
        rw [readBack, hwait, Bool.true_and] at hback
        rw [hback, SramByte.d_ack, SramByte.tl_o, hwait]
        simp
    have hlen' : (clock p s i).u_sram_byte.sizes.words.length =
        (clock p s i).u_reqfifo.words.length := by
      rw [clock_u_sram_byte hintg, SramByte.clock, SramByte.a_ack_of_stall hstall, hdack, clock,
        a_ack_of_waitRd hintg hstate]
      exact SyncQueue.length_clock_eq h.sizes_rst hlen
    simp only [PhaseInv, hnext]
    refine ⟨hlen', r, ?_, hentry⟩
    rw [hreqs]
    split_ifs with hack
    · -- The answered request is an earlier one, since more than one is outstanding.
      have hne : s.u_reqfifo.words.length ≠ 1 := by
        intro hone
        have hwait : s.u_sram_byte.rd_wait = true :=
          SramByte.rd_wait_iff.mpr ⟨hstate, hlen.trans hone⟩
        simp [readBack, hwait, hack] at hback
      have hpos : 0 < s.u_reqfifo.words.length :=
        List.length_pos_of_ne_nil (words_ne_nil_of_d_ack hack)
      rw [List.getLast?_drop, if_neg (by omega)]
      exact hlast
    · exact hlast

theorem phaseInv_writeCmd (hintg : EnableIntg p = true) (h : Inv s)
    (hstate : s.u_sram_byte.state_q = .StWriteCmd) :
    PhaseInv (clock p s i).u_sram_byte (clock p s i).u_reqfifo.words := by
  have hphase := h.phase
  simp only [PhaseInv, hstate] at hphase
  obtain ⟨hone, hnil⟩ := hphase
  have hstall : s.u_sram_byte.state_q ≠ .StPassThru := by simp [hstate]
  have hwait : s.u_sram_byte.rd_wait = false := rd_wait_of_state (by simp [hstate])
  have hdack : d_ack p s i = false := by
    rw [d_ack_eq hintg, d_ack_of_words_nil hnil]
    rfl
  have hsizes : (clock p s i).u_sram_byte.sizes.words = s.u_sram_byte.sizes.words := by
    rw [clock_u_sram_byte hintg, SramByte.clock, SyncQueue.words_clock,
      SramByte.a_ack_of_stall hstall, d_ack_of_not_rd_wait hintg hwait, hdack]
    simp
  have hreqs : (clock p s i).u_reqfifo.words =
      if a_ack p s i then [reqfifo_wdata p s i] else [] := by
    rw [clock_u_reqfifo, hdack, hnil]
    simp
  cases hack : a_ack p s i with
  | false =>
    have hnext : (clock p s i).u_sram_byte.state_q = .StWriteCmd := by
      rw [clock_u_sram_byte hintg, SramByte.clock, SramByte.state_d, hstate, sram_a_ack_eq hintg]
      simp [hack]
    simp only [PhaseInv, hnext]
    rw [hsizes, hreqs, hack]
    exact ⟨hone, rfl⟩
  | true =>
    have hnext : (clock p s i).u_sram_byte.state_q = .StPassThru := by
      rw [clock_u_sram_byte hintg, SramByte.clock, SramByte.state_d, hstate, sram_a_ack_eq hintg]
      simp [hack]
    have hheld : (clock p s i).u_sram_byte.held.words = [] := by
      rw [clock_u_sram_byte hintg, SramByte.clock, SyncQueue.words_clock,
        SramByte.byte_req_ack_of_stall hstall, sram_a_ack_eq hintg, hack, SyncQueue.rvalid_o,
        h.held_rst, under_rst_of_a_ack hack]
      have hle := h.held_le
      cases hwords : s.u_sram_byte.held.words with
      | nil => simp
      | cons x xs => simpa [hwords] using hle
    simp only [PhaseInv, hnext]
    rw [hheld, hsizes, hreqs, hack]
    exact ⟨rfl, hone⟩

theorem inv_clock (hintg : EnableIntg p = true) (h : Inv s) : Inv (clock p s i) where
  held_rst := by
    rw [clock_u_sram_byte hintg]
    rfl
  sizes_rst := by
    rw [clock_u_sram_byte hintg]
    rfl
  held_le := by
    rw [clock_u_sram_byte hintg]
    exact SyncQueue.length_clock_le h.held_le
  phase := by
    cases hstate : s.u_sram_byte.state_q with
    | StPassThru => exact phaseInv_passThru hintg h hstate
    | StWaitRd => exact phaseInv_waitRd hintg h hstate
    | StWriteCmd => exact phaseInv_writeCmd hintg h hstate

end Step

/-! ### One byte write -/

/-- What the adapter answers to a read. -/
def readData (word : Rsp) : BitVec 32 := if word.error then DataWhenError else word.data

/-- The registers while the read of a byte write is outstanding. -/
structure Reading (txn : TxnData) (s : AdapterSram p.WoffsetWidth) : Prop where
  inv : Inv s
  state : s.u_sram_byte.state_q = .StWaitRd
  held : s.u_sram_byte.held_data = txn

/-- The registers while its write is. -/
structure Writing (txn : TxnData) (data : BitVec 32) (s : AdapterSram p.WoffsetWidth) : Prop where
  inv : Inv s
  state : s.u_sram_byte.state_q = .StWriteCmd
  held : s.u_sram_byte.held_data = txn
  rsp : s.u_sram_byte.rsp_data = data

/-- The request at the head is a write without an error. -/
structure Answering (a_source : BitVec 8) (s : AdapterSram p.WoffsetWidth) : Prop where
  inv : Inv s
  under_rst : s.u_reqfifo.under_rst = false
  head : ∃ r rs, s.u_reqfifo.words = r :: rs ∧ r.op = .OpWrite ∧ r.error = false ∧
    r.source = a_source

section Track

variable {s : AdapterSram p.WoffsetWidth} {i : SramIn p.WoffsetWidth} {txn : TxnData}
  {data : BitVec 32} {a_source : BitVec 8}

theorem reading_of_byteWriteTaken (hintg : EnableIntg p = true) (h : Inv s)
    (htaken : byteWriteTaken p s i = true) :
    Reading (SramByte.txn_data i.tl_i) (clock p s i) where
  inv := inv_clock hintg h
  state := by
    have hack := htaken
    rw [byteWriteTaken] at hack
    rw [clock_u_sram_byte hintg, SramByte.clock, SramByte.state_d, state_of_byteWriteTaken htaken]
    simp [hack, byte_wr_txn_of_byteWriteTaken htaken]
  held := by
    have hwready : s.u_sram_byte.held.wready_o 1 = true := by
      have hack := (Bool.and_eq_true_iff.mp (Bool.and_eq_true_iff.mp htaken).1).2
      simp only [SramByte.a_ack, SramByte.tl_o, Bool.and_eq_true] at hack
      exact hack.2.1.2
    rw [byteWriteTaken] at htaken
    rw [clock_u_sram_byte hintg, SramByte.clock, htaken, hwready]
    rfl

/-- The held transaction changes only when one is taken. -/
theorem held_data_of_stall (hintg : EnableIntg p = true)
    (h : s.u_sram_byte.state_q ≠ .StPassThru) :
    (clock p s i).u_sram_byte.held_data = s.u_sram_byte.held_data := by
  rw [clock_u_sram_byte hintg, SramByte.clock, SramByte.byte_req_ack_of_stall h]
  rfl

theorem Reading.clock (hintg : EnableIntg p = true) (h : Reading txn s)
    (hback : readBack p s i = false) : Reading txn (clock p s i) where
  inv := inv_clock hintg h.inv
  state := by
    rw [clock_u_sram_byte hintg, SramByte.clock, SramByte.state_d, h.state, sram_d_ack_eq hintg]
    rw [readBack] at hback
    simp [hback]
  held := by
    rw [held_data_of_stall hintg (by simp [h.state])]
    exact h.held

/-- The answer to the read of a byte write. -/
theorem Reading.d_data (hintg : EnableIntg p = true) (h : Reading txn s)
    (hback : readBack p s i = true) : d_data p s i = readData (rspfifo_rdata p s i) := by
  obtain ⟨-, hone, hvalid⟩ := (readBack_iff hintg).mp hback
  have hphase := h.inv.phase
  simp only [PhaseInv, h.state] at hphase
  obtain ⟨hlen, r, hlast, hentry⟩ := hphase
  have hhead : reqfifo_rdata p s i = r := by
    obtain ⟨r', hwords⟩ := List.length_eq_one_iff.mp (hlen.symm.trans hone)
    rw [hwords] at hlast
    rw [reqfifo_rdata, SyncQueue.rdata_o, hwords]
    exact Option.some.inj hlast
  have hreq := reqfifo_rvalid_of_d_valid hvalid
  have hrsp : rspfifo_rvalid p s i = true := by
    simpa [d_valid, hreq, hhead, hentry.op, hentry.error] using hvalid
  have hvld : vld_rd_rsp p s i = true := by
    simp [vld_rd_rsp, hvalid, hreq, hrsp, hhead, hentry.op]
  rw [AdapterSram.d_data, hvld, readData, error_blanking_data, hhead, hentry.instr_type]
  cases herror : (rspfifo_rdata p s i).error <;>
    simp [d_error, hreq, hhead, hentry.op, hentry.error, herror]

theorem Reading.writing (hintg : EnableIntg p = true) (h : Reading txn s)
    (hback : readBack p s i = true) :
    Writing txn (readData (rspfifo_rdata p s i)) (AdapterSram.clock p s i) where
  inv := inv_clock hintg h.inv
  state := by
    rw [clock_u_sram_byte hintg, SramByte.clock, SramByte.state_d, h.state, sram_d_ack_eq hintg]
    rw [readBack] at hback
    simp [hback]
  held := by
    rw [held_data_of_stall hintg (by simp [h.state])]
    exact h.held
  rsp := by
    rw [← h.d_data hintg hback, clock_u_sram_byte hintg, SramByte.clock, sram_d_ack_eq hintg]
    rw [readBack, Bool.and_comm] at hback
    rw [hback]
    rfl

theorem Writing.clock (hintg : EnableIntg p = true) (h : Writing txn data s)
    (hstore : storeTaken p s i = false) : Writing txn data (clock p s i) where
  inv := inv_clock hintg h.inv
  state := by
    rw [clock_u_sram_byte hintg, SramByte.clock, SramByte.state_d, h.state, sram_a_ack_eq hintg]
    simpa [storeTaken, SramByte.wr_phase, h.state] using hstore
  held := by
    rw [held_data_of_stall hintg (by simp [h.state])]
    exact h.held
  rsp := by
    have hwait : s.u_sram_byte.rd_wait = false := rd_wait_of_state (by simp [h.state])
    rw [clock_u_sram_byte hintg, SramByte.clock, hwait, Bool.and_false]
    exact h.rsp

theorem byteMask_allOnes : byteMask (BitVec.allOnes 4) = BitVec.allOnes 32 := by
  decide

/-- The request of the write. -/
theorem Writing.tl_i_int (hintg : EnableIntg p = true) (h : Writing txn data s) :
    tl_i_int p s i =
      { a_valid := true
        a_opcode := PutFullData
        a_param := txn.a_param
        a_size := 2#2
        a_source := txn.a_source
        a_address := SramByte.alignWord txn.a_address
        a_mask := BitVec.allOnes 4
        a_data := SramByte.merge txn data
        a_user := { txn.a_user with data_intg := get_data_intg (SramByte.merge txn data) }
        d_ready := i.tl_i.d_ready || s.u_sram_byte.rd_wait } := by
  rw [tl_i_int_eq hintg, SramByte.tl_sram_o_of_writeCmd h.state, SramByte.combined_data_eq, h.held,
    h.rsp]

theorem Writing.error_internal (hintg : EnableIntg p = true) (h : Writing txn data s) :
    error_internal p s i = false := by
  simp [AdapterSram.error_internal, hintg, SramByte.error_o, SramByte.stall_host, h.state]

theorem Writing.req_o (hintg : EnableIntg p = true) (h : Writing txn data s)
    (hrst : s.u_reqfifo.under_rst = false) (hpos : 0 < p.Outstanding) : req_o p s i = true := by
  have hphase := h.inv.phase
  simp only [PhaseInv, h.state] at hphase
  rw [AdapterSram.req_o, h.tl_i_int hintg, h.error_internal hintg, reqfifo_wready,
    SyncQueue.wready_o, hrst, hphase.2]
  simpa using hpos

theorem Writing.we_o (hintg : EnableIntg p = true) (h : Writing txn data s) :
    we_o p s i = true := by
  rw [AdapterSram.we_o, h.tl_i_int hintg]
  rfl

theorem Writing.woffset (hintg : EnableIntg p = true) (h : Writing txn data s) :
    woffset p s i = txn.a_address.extractLsb' 2 p.WoffsetWidth := by
  rw [AdapterSram.woffset, h.tl_i_int hintg]
  exact SramByte.extractLsb'_alignWord le_rfl _

theorem Writing.addr_o (hintg : EnableIntg p = true) (h : Writing txn data s) :
    addr_o p s i = txn.a_address.extractLsb' (p.WoffsetWidth + 2) p.SramAw := by
  rw [AdapterSram.addr_o, h.tl_i_int hintg]
  exact SramByte.extractLsb'_alignWord (by omega) _

theorem Writing.wmask_o (hintg : EnableIntg p = true) (h : Writing txn data s)
    (woff : BitVec p.WoffsetWidth) : wmask_o p s i woff =
      if woff = txn.a_address.extractLsb' 2 p.WoffsetWidth then BitVec.allOnes 39 else 0#39 := by
  rw [AdapterSram.wmask_o, h.woffset hintg, h.tl_i_int hintg, byteMask_allOnes]
  simp only [true_and]
  rfl

theorem Writing.wdata_o (hintg : EnableIntg p = true) (h : Writing txn data s) :
    wdata_o p s i (txn.a_address.extractLsb' 2 p.WoffsetWidth) =
      get_data_intg (SramByte.merge txn data) ++ SramByte.merge txn data := by
  rw [AdapterSram.wdata_o, h.woffset hintg, h.we_o hintg, h.tl_i_int hintg, byteMask_allOnes,
    if_pos ⟨rfl, rfl⟩, if_pos rfl, BitVec.and_allOnes]

theorem Writing.answering (hintg : EnableIntg p = true) (h : Writing txn data s)
    (hstore : storeTaken p s i = true) :
    Answering txn.a_source (AdapterSram.clock p s i) where
  inv := inv_clock hintg h.inv
  under_rst := rfl
  head := by
    have hphase := h.inv.phase
    simp only [PhaseInv, h.state] at hphase
    have hack : a_ack p s i = true := (Bool.and_eq_true_iff.mp hstore).2
    have hdack : d_ack p s i = false := by
      rw [d_ack_eq hintg, d_ack_of_words_nil hphase.2]
      rfl
    refine ⟨reqfifo_wdata p s i, [], ?_, ?_, h.error_internal hintg, ?_⟩
    · rw [clock_u_reqfifo, hack, hdack, hphase.2]
      rfl
    · rw [reqfifo_wdata, h.tl_i_int hintg]
      rfl
    · rw [reqfifo_wdata, h.tl_i_int hintg]

theorem Answering.rd_wait (h : Answering a_source s) : s.u_sram_byte.rd_wait = false := by
  obtain ⟨r, rs, hwords, hop, -, -⟩ := h.head
  by_contra hwait
  obtain ⟨hstate, hone⟩ := SramByte.rd_wait_iff.mp (Bool.eq_true_of_not_eq_false hwait)
  have hphase := h.inv.phase
  simp only [PhaseInv, hstate, hone, hwords] at hphase
  obtain ⟨hlen, r', hlast, hentry⟩ := hphase
  have hrs : rs = [] := by simpa using hlen.symm
  rw [hrs] at hlast
  have heq : r = r' := Option.some.inj hlast
  rw [heq, hentry.op] at hop
  cases hop

theorem Answering.reqfifo (h : Answering a_source s) : reqfifo_rvalid p s = true ∧
    (reqfifo_rdata p s i).op = .OpWrite ∧ (reqfifo_rdata p s i).error = false ∧
      (reqfifo_rdata p s i).source = a_source := by
  obtain ⟨r, rs, hwords, hop, herror, hsource⟩ := h.head
  have hhead : reqfifo_rdata p s i = r := by
    rw [reqfifo_rdata, SyncQueue.rdata_o, hwords]
    rfl
  rw [hhead, reqfifo_rvalid_eq, h.under_rst, hwords]
  exact ⟨rfl, hop, herror, hsource⟩

theorem Answering.tl_o (hintg : EnableIntg p = true) (h : Answering a_source s) :
    (tl_o p s i).d_valid = true ∧ (tl_o p s i).d_error = false ∧
      (tl_o p s i).d_source = a_source := by
  obtain ⟨hreq, hop, herror, hsource⟩ := h.reqfifo (i := i)
  have hvalid : d_valid p s i = true := by simp [d_valid, hreq, hop, herror]
  have hd_error : d_error p s i = false := by simp [d_error, hreq, hop, herror]
  rw [AdapterSram.tl_o, tlul_rsp_intg_gen, tl_out_eq hintg, SramByte.tl_o, h.rd_wait]
  simp [tl_o_int, hvalid, hd_error, hsource]

/-- The host takes a response. -/
def answered (p : SramParams) (s : AdapterSram p.WoffsetWidth) (i : SramIn p.WoffsetWidth) : Bool :=
  (tl_o p s i).d_valid && i.tl_i.d_ready

theorem Answering.clock (hintg : EnableIntg p = true) (h : Answering a_source s)
    (hwait : answered p s i = false) : Answering a_source (clock p s i) where
  inv := inv_clock hintg h.inv
  under_rst := rfl
  head := by
    obtain ⟨r, rs, hwords, hr⟩ := h.head
    have hready : i.tl_i.d_ready = false := by
      rw [answered, (h.tl_o hintg).1] at hwait
      exact hwait
    have hdack : d_ack p s i = false := by
      rw [d_ack_eq hintg, h.rd_wait, hready]
      simp
    refine ⟨r, rs ++ if a_ack p s i then [reqfifo_wdata p s i] else [], ?_, hr⟩
    rw [clock_u_reqfifo, hdack, hwords]
    rfl

end Track

/-! ### Runs -/

section Run

variable {held_data : TxnData} {rsp_data : BitVec 32} {inputs : ℕ → SramIn p.WoffsetWidth}
  {n k m : ℕ}

/-- The registers in a cycle, from reset on. -/
def runAt (held_data : TxnData) (rsp_data : BitVec 32) (inputs : ℕ → SramIn p.WoffsetWidth) :
    ℕ → AdapterSram p.WoffsetWidth :=
  Mealy.stateAt (clock p) (reset p (.reset held_data rsp_data)) inputs

theorem inv_runAt (hintg : EnableIntg p = true) (n : ℕ) :
    Inv (runAt held_data rsp_data inputs n) :=
  Mealy.invariant (inv_reset _ rfl) (fun _ _ => inv_clock hintg) n

theorem reading_runAt (hintg : EnableIntg p = true)
    (htaken : byteWriteTaken p (runAt held_data rsp_data inputs n) (inputs n) = true)
    (hnk : n < k) (hback : ∀ j, n < j → j < k →
      readBack p (runAt held_data rsp_data inputs j) (inputs j) = false) :
    Reading (SramByte.txn_data (inputs n).tl_i) (runAt held_data rsp_data inputs k) := by
  have hnext (s : AdapterSram p.WoffsetWidth) (i : SramIn p.WoffsetWidth)
      (h : Reading (SramByte.txn_data (inputs n).tl_i) s) (hstop : ¬ readBack p s i = true) :
      Reading (SramByte.txn_data (inputs n).tl_i) (clock p s i) :=
    h.clock hintg (Bool.eq_false_iff.mpr hstop)
  have hstart : Reading (SramByte.txn_data (inputs n).tl_i)
      (runAt held_data rsp_data inputs (n + 1)) :=
    reading_of_byteWriteTaken hintg (inv_runAt hintg n) htaken
  apply Mealy.holds_until hnext hstart hnk
  intro j hj hlt
  exact Bool.eq_false_iff.mp (hback j hj hlt)

theorem writing_runAt (hintg : EnableIntg p = true) {txn : TxnData}
    (hread : Reading txn (runAt held_data rsp_data inputs k))
    (hback : readBack p (runAt held_data rsp_data inputs k) (inputs k) = true)
    (hkm : k < m) (hstore : ∀ j, k < j → j < m →
      storeTaken p (runAt held_data rsp_data inputs j) (inputs j) = false) :
    Writing txn (readData (rspfifo_rdata p (runAt held_data rsp_data inputs k) (inputs k)))
      (runAt held_data rsp_data inputs m) := by
  have hnext (data : BitVec 32) (s : AdapterSram p.WoffsetWidth) (i : SramIn p.WoffsetWidth)
      (h : Writing txn data s) (hstop : ¬ storeTaken p s i = true) :
      Writing txn data (clock p s i) :=
    h.clock hintg (Bool.eq_false_iff.mpr hstop)
  have hstart : Writing txn _ (runAt held_data rsp_data inputs (k + 1)) :=
    hread.writing hintg hback
  apply Mealy.holds_until (hnext _) hstart hkm
  intro j hj hlt
  exact Bool.eq_false_iff.mp (hstore j hj hlt)

theorem answering_runAt (hintg : EnableIntg p = true) {txn : TxnData} {data : BitVec 32} {j : ℕ}
    (hwrite : Writing txn data (runAt held_data rsp_data inputs m))
    (hstore : storeTaken p (runAt held_data rsp_data inputs m) (inputs m) = true)
    (hmj : m < j) (hwait : ∀ l, m < l → l < j →
      answered p (runAt held_data rsp_data inputs l) (inputs l) = false) :
    Answering txn.a_source (runAt held_data rsp_data inputs j) := by
  have hnext (s : AdapterSram p.WoffsetWidth) (i : SramIn p.WoffsetWidth)
      (h : Answering txn.a_source s) (hstop : ¬ answered p s i = true) :
      Answering txn.a_source (clock p s i) :=
    h.clock hintg (Bool.eq_false_iff.mpr hstop)
  have hstart : Answering txn.a_source (runAt held_data rsp_data inputs (m + 1)) :=
    hwrite.answering hintg hstore
  apply Mealy.holds_until hnext hstart hmj
  intro l hl hlt
  exact Bool.eq_false_iff.mp (hwait l hl hlt)

/-- A stored word has valid check bits and keeps the bytes of another word that a write leaves. -/
def Launders (txn : TxnData) (word : Rsp) (stored : BitVec 39) : Prop :=
  Intact stored ∧
    ∀ j < 32, txn.a_mask.getLsbD (j / 8) = false → stored.getLsbD j = word.data.getLsbD j

instance (txn : TxnData) (word : Rsp) (stored : BitVec 39) :
    Decidable (Launders txn word stored) :=
  inferInstanceAs (Decidable (_ ∧ _))

/-- New check bits are valid. -/
theorem intact_get_data_intg (data : BitVec 32) : Intact (get_data_intg data ++ data) := by
  rw [Intact]
  rw [BitVec.extractLsb'_append_eq_of_le le_rfl, BitVec.extractLsb'_append_eq_of_add_le le_rfl,
    BitVec.extractLsb'_eq_self, BitVec.extractLsb'_eq_self]

theorem launders_iff (txn : TxnData) (word : Rsp) :
    Launders txn word (get_data_intg (SramByte.merge txn (readData word)) ++
      SramByte.merge txn (readData word)) ↔ word.error = false ∨
        ∀ j < 32, txn.a_mask.getLsbD (j / 8) = false → word.data.getLsbD j = true := by
  have hkept (j : ℕ) (hj : j < 32) (hmask : txn.a_mask.getLsbD (j / 8) = false) :
      (get_data_intg (SramByte.merge txn (readData word)) ++
        SramByte.merge txn (readData word)).getLsbD j = (readData word).getLsbD j := by
    rw [BitVec.getLsbD_append, if_pos hj, SramByte.merge, getLsbD_ofBits hj, hmask]
    rfl
  rw [Launders]
  cases herror : word.error with
  | false =>
    have hdata : readData word = word.data := by simp [readData, herror]
    simp only [true_or, iff_true]
    refine ⟨intact_get_data_intg _, fun j hj hmask => ?_⟩
    rw [hkept j hj hmask, hdata]
  | true =>
    have hdata : readData word = BitVec.allOnes 32 := by simp [readData, herror, DataWhenError]
    simp only [Bool.true_eq_false, false_or]
    constructor
    · intro h j hj hmask
      rw [← h.2 j hj hmask, hkept j hj hmask, hdata, BitVec.getLsbD_allOnes]
      exact decide_eq_true hj
    · intro h
      refine ⟨intact_get_data_intg _, fun j hj hmask => ?_⟩
      rw [hkept j hj hmask, hdata, BitVec.getLsbD_allOnes, h j hj hmask]
      exact decide_eq_true hj

/-- The write that follows the read of a byte write, the word that it stores, and its answer. The
word that came back matters only through its data and its error flag. -/
theorem byte_write_stores (hintg : EnableIntg p = true)
    (htaken : byteWriteTaken p (runAt held_data rsp_data inputs n) (inputs n) = true)
    (hnk : n < k) (hkm : k < m)
    (hpending : ∀ j, n < j → j < k →
      readBack p (runAt held_data rsp_data inputs j) (inputs j) = false)
    (hback : readBack p (runAt held_data rsp_data inputs k) (inputs k) = true)
    (hwriting : ∀ j, k < j → j < m →
      storeTaken p (runAt held_data rsp_data inputs j) (inputs j) = false) :
    let s := runAt held_data rsp_data inputs
    let txn := SramByte.txn_data (inputs n).tl_i
    let word := rspfifo_rdata p (s k) (inputs k)
    let off := txn.a_address.extractLsb' 2 p.WoffsetWidth
    let stored := wdata_o p (s m) (inputs m) off
    (req_o p (s m) (inputs m) = true ∧ we_o p (s m) (inputs m) = true ∧
      addr_o p (s m) (inputs m) = txn.a_address.extractLsb' (p.WoffsetWidth + 2) p.SramAw ∧
      ∀ woff, wmask_o p (s m) (inputs m) woff = if woff = off then BitVec.allOnes 39 else 0#39) ∧
    stored = get_data_intg (SramByte.merge txn (readData word)) ++
      SramByte.merge txn (readData word) ∧
    (Launders txn word stored ↔ word.error = false ∨
      ∀ j < 32, txn.a_mask.getLsbD (j / 8) = false → word.data.getLsbD j = true) ∧
    (storeTaken p (s m) (inputs m) = true → ∀ j, m < j →
      (∀ l, m < l → l < j → answered p (s l) (inputs l) = false) →
        (tl_o p (s j) (inputs j)).d_valid = true ∧ (tl_o p (s j) (inputs j)).d_error = false ∧
          (tl_o p (s j) (inputs j)).d_source = txn.a_source) := by
  intro s txn word off stored
  have hread : Reading txn (s k) := reading_runAt hintg htaken hnk hpending
  have hwrite : Writing txn (readData word) (s m) := writing_runAt hintg hread hback hkm hwriting
  have hstored : stored = get_data_intg (SramByte.merge txn (readData word)) ++
      SramByte.merge txn (readData word) := hwrite.wdata_o hintg
  have hpos : 0 < p.Outstanding :=
    outstanding_pos_of_a_ack (a_ack_of_byteWriteTaken hintg (inv_runAt hintg n) htaken)
  have hreq : req_o p (s m) (inputs m) = true := by
    obtain ⟨l, rfl⟩ : ∃ l, m = l + 1 := ⟨m - 1, by omega⟩
    exact hwrite.req_o hintg rfl hpos
  refine ⟨⟨hreq, hwrite.we_o hintg, hwrite.addr_o hintg, hwrite.wmask_o hintg⟩, hstored, ?_, ?_⟩
  · rw [hstored]
    exact launders_iff txn word
  · intro hstore j hmj hwait
    exact (answering_runAt hintg hwrite hstore hmj hwait).tl_o hintg

end Run

/-! ### A write of one byte -/

section Byte

def byteTxn : TxnData := ⟨0#3, 0#2, 0#8, 0#32, 0#4, 0#32, ⟨0#5, 0#4, 0#7, 0#7⟩⟩

/-- A write of the low byte at address 0, and an SRAM that returns a word whose check bits are
those of another. -/
def byteIn : SramIn wordParams.WoffsetWidth :=
  { wordIn 0#2 with
    tl_i := { (wordIn 0#2).tl_i with
      a_opcode := PutPartialData
      a_size := 0#2
      a_mask := 0b0001#4
      a_data := 0xAB#32 }
    rdata_i := fun _ => get_data_intg 0#32 ++ 0x100#32 }

theorem byte_write_stores_word :
    let s := runAt byteTxn 0#32 fun _ => byteIn
    Launders (SramByte.txn_data byteIn.tl_i) (rspfifo_rdata wordParams (s 2) byteIn)
      (wdata_o wordParams (s 3) byteIn (byteIn.tl_i.a_address.extractLsb' 2 0)) := by
  intro s
  have htaken : byteWriteTaken wordParams (s 1) byteIn = true := by decide +kernel
  have hback : readBack wordParams (s 2) byteIn = true := by decide +kernel
  have herror : (rspfifo_rdata wordParams (s 2) byteIn).error = false := by decide +kernel
  exact (byte_write_stores rfl htaken (by decide) (by decide) (fun j hj hlt => by omega) hback
    (fun j hj hlt => by omega)).2.2.1.mpr (Or.inl herror)

/-- A word that came back with the check bits of another is stored with valid ones. -/
theorem byte_write_launders :
    let s := runAt byteTxn 0#32 fun _ => byteIn
    let word := rspfifo_rdata wordParams (s 2) byteIn
    byteWriteTaken wordParams (s 1) byteIn = true ∧ readBack wordParams (s 2) byteIn = true ∧
      word.data_intg ≠ get_data_intg word.data ∧ storeTaken wordParams (s 3) byteIn = true ∧
        Launders (SramByte.txn_data byteIn.tl_i) word (wdata_o wordParams (s 3) byteIn 0#0) ∧
          (tl_o wordParams (s 4) byteIn).d_valid = true ∧
            (tl_o wordParams (s 4) byteIn).d_error = false := by
  decide +kernel

end Byte

end AdapterSram

end SecureBoot.Tlul
