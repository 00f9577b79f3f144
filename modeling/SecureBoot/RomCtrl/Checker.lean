import SecureBoot.Prim.Count
import SecureBoot.Prim.Pkg

/-! The ROM checker: `rom_ctrl_fsm` with its counter and its comparator, and the ROM, the
digest registers and the mux that `rom_ctrl` connects to it. The ROM answers in the cycle
after a request and holds its output until the next one. -/

namespace SecureBoot

/-! ### The counter -/

structure CounterRegs (RomDepth : ℕ) where
  addr_q : BitVec (vbits RomDepth)
  done_q : Bool
  last_nontop_q : Bool
  req_q : Bool
  vld_q : Bool
  deriving DecidableEq

namespace CounterRegs

variable {RomDepth : ℕ} (RomTopCount : ℕ) (r : CounterRegs RomDepth) (data_rdy_i : Bool)

def reset : CounterRegs RomDepth := ⟨0, false, false, false, false⟩

/-- `addr_q == TopAddr`. -/
def done_d : Bool := r.addr_q == BitVec.ofNat _ (RomDepth - 1)

def go : Bool := data_rdy_i && r.vld_q && !r.done_d

def addr_d : BitVec (vbits RomDepth) := r.addr_q + 1

/-- `addr_q == TNTAddr`. -/
def last_nontop_d : Bool := r.addr_q == BitVec.ofNat _ (RomDepth - RomTopCount - 2)

def read_addr_o : BitVec (vbits RomDepth) := if r.go data_rdy_i then r.addr_d else r.addr_q

def clock : CounterRegs RomDepth where
  addr_q := if r.go data_rdy_i then r.addr_d else r.addr_q
  done_q := r.done_d
  last_nontop_q := if r.go data_rdy_i then r.last_nontop_d RomTopCount else r.last_nontop_q
  req_q := true
  vld_q := r.req_q

end CounterRegs

/-! ### The comparator -/

inductive CompareState
  | Waiting
  | Checking
  | Done
  deriving DecidableEq

structure CompareRegs (NumWords : ℕ) where
  state_q : CompareState
  addr : CountRegs (vbits NumWords)
  matches_q : Bool
  deriving DecidableEq

namespace CompareRegs

variable {NumWords : ℕ} (r : CompareRegs NumWords) (start_i : Bool)
  (digest_i exp_digest_i : BitVec (NumWords * 32))

def reset : CompareRegs NumWords := ⟨.Waiting, primCountReset 0, true⟩

/-- `addr_q == LastAddr`. -/
def atLast : Bool := r.addr.primary == BitVec.ofNat _ (NumWords - 1)

/-- The 32 bits of a digest below bit `{addr_q, 5'd31}`. -/
def word (digest : BitVec (NumWords * 32)) : BitVec 32 :=
  digest.extractLsb' (32 * r.addr.primary.toNat) 32

def state_d : CompareState :=
  match r.state_q with
  | .Waiting => if start_i then .Checking else .Waiting
  | .Checking => if r.atLast then .Done else .Checking
  | .Done => .Done

def addr_incr : Bool := r.state_q == .Checking && !r.atLast

def clock : CompareRegs NumWords where
  state_q := r.state_d start_i
  addr := primCount 0 r.addr ⟨false, false, 0, r.addr_incr, false, BitVec.ofNat _ 1⟩
  matches_q :=
    if r.state_q = .Checking then r.matches_q && (r.word digest_i == r.word exp_digest_i)
    else r.matches_q

def done_o : Bool := r.state_q == .Done

def alert_o : Bool :=
  let start_alert := start_i && r.state_q != .Waiting
  let wait_addr_alert := r.state_q == .Waiting && r.addr.primary != 0
  let done_addr_alert := r.state_q == .Done && !r.atLast
  start_alert || wait_addr_alert || done_addr_alert || r.addr.err_o

end CompareRegs

/-! ### The main state machine -/

inductive CheckerState
  | ReadingLow
  | ReadingHigh
  | RomAhead
  | KmacAhead
  | Checking
  | Done
  | Invalid
  deriving DecidableEq

/-- The sparse encoding of `fsm_state_e`. -/
def CheckerState.bits : CheckerState → BitVec 10
  | .ReadingLow => 0b001100#6 ++ MuBi4False
  | .ReadingHigh => 0b001011#6 ++ MuBi4False
  | .RomAhead => 0b111001#6 ++ MuBi4False
  | .KmacAhead => 0b100111#6 ++ MuBi4False
  | .Checking => 0b010101#6 ++ MuBi4False
  | .Done => 0b100000#6 ++ MuBi4True
  | .Invalid => 0b010010#6 ++ MuBi4False

structure FsmRegs (RomDepth TopCount : ℕ) where
  state_q : CheckerState
  kmac_rom_vld_q : Bool
  start_checker_q : Bool
  u_counter : CounterRegs RomDepth
  u_compare : CompareRegs TopCount
  deriving DecidableEq

structure KmacIn (TopCount : ℕ) where
  kmac_rom_rdy_i : Bool
  kmac_done_i : Bool
  kmac_digest_i : BitVec (TopCount * 32)
  kmac_err_i : Bool

namespace FsmRegs

variable {RomDepth TopCount : ℕ} (r : FsmRegs RomDepth TopCount) (i : KmacIn TopCount)
  (digest_i exp_digest_i : BitVec (TopCount * 32))

def reset : FsmRegs RomDepth TopCount := ⟨.ReadingLow, false, false, .reset, .reset⟩

def in_state_done : Mubi4 := r.state_q.bits.setWidth 4

def fsm_alert : Bool := r.state_q == .Invalid

def unexpected_counter_change : Bool :=
  mubi4_test_true_loose r.in_state_done && !r.u_counter.done_q

def alert_o : Bool :=
  r.fsm_alert || r.u_compare.alert_o r.start_checker_q || r.unexpected_counter_change

def kmac_rom_last_o : Bool := r.u_counter.last_nontop_q

/-- The `unique case` of the next state. -/
def nextState : CheckerState :=
  match r.state_q with
  | .ReadingLow =>
    if r.u_counter.last_nontop_q && i.kmac_rom_rdy_i && r.kmac_rom_vld_q then .ReadingHigh
    else .ReadingLow
  | .ReadingHigh =>
    match i.kmac_done_i, r.u_counter.done_q with
    | false, true => .RomAhead
    | true, false => if i.kmac_err_i then .Invalid else .KmacAhead
    | true, true => if i.kmac_err_i then .Invalid else .Checking
    | false, false => .ReadingHigh
  | .RomAhead =>
    if i.kmac_done_i then if i.kmac_err_i then .Invalid else .Checking else .RomAhead
  | .KmacAhead => if r.u_counter.done_q then .Checking else .KmacAhead
  | .Checking => if r.u_compare.done_o then .Done else .Checking
  | .Done => .Done
  | .Invalid => .Invalid

/-- The consistency checks for the done signals. -/
def inconsistent : Bool :=
  r.u_compare.done_o && !(r.state_q == .Checking || r.state_q == .Done) ||
    r.u_counter.done_q && r.state_q == .ReadingLow ||
    i.kmac_done_i && !(r.state_q == .ReadingHigh || r.state_q == .RomAhead)

def state_d : CheckerState := if r.inconsistent i || r.alert_o then .Invalid else r.nextState i

/-- `state_q inside {ReadingHigh, KmacAhead}`. -/
def readingHigh : Bool := r.state_q == .ReadingHigh || r.state_q == .KmacAhead

def counter_data_rdy : Bool := i.kmac_rom_rdy_i || r.readingHigh

def kmac_rom_vld_d : Bool :=
  if r.u_counter.req_q && r.state_q == .ReadingLow && !r.u_counter.last_nontop_q then true
  else if i.kmac_rom_rdy_i then false else r.kmac_rom_vld_q

/-- `reading_top`. -/
def exp_digest_vld_o : Bool := r.readingHigh && !r.u_counter.done_q

/-- `rel_addr`. -/
def exp_digest_idx_o : BitVec (vbits TopCount) :=
  (r.u_counter.addr_q - BitVec.ofNat _ (RomDepth - TopCount)).setWidth (vbits TopCount)

def rom_addr_o : BitVec (vbits RomDepth) := r.u_counter.read_addr_o (r.counter_data_rdy i)

def rom_req_o : Bool := r.u_counter.req_q

def rom_select_bus_o : Mubi4 := r.in_state_done

def clock : FsmRegs RomDepth TopCount where
  state_q := r.state_d i
  kmac_rom_vld_q := r.kmac_rom_vld_d i
  start_checker_q := r.state_q != .Checking && r.state_d i == .Checking
  u_counter := r.u_counter.clock TopCount (r.counter_data_rdy i)
  u_compare := r.u_compare.clock r.start_checker_q digest_i exp_digest_i

end FsmRegs

/-! ### The controller around it -/

/-- The checker with the output of the ROM and the digest registers, and what KMAC has seen:
the words that it accepted with their last flags, and its answers (the digest and the
error flag). -/
structure RomCheck (RomDepth TopCount DataWidth : ℕ) where
  u_checker_fsm : FsmRegs RomDepth TopCount
  rom_rdata : BitVec DataWidth
  digest_q : BitVec (TopCount * 32)
  exp_digest_q : BitVec (TopCount * 32)
  accepted : List (BitVec DataWidth × Bool)
  answers : List (BitVec (TopCount * 32) × Bool)
  deriving DecidableEq

structure RomCheckIn (RomDepth TopCount : ℕ) where
  kmac : KmacIn TopCount
  bus_req_i : Bool
  bus_rom_addr_i : BitVec (vbits RomDepth)

namespace RomCheck

variable {RomDepth TopCount DataWidth : ℕ} (rom : ℕ → BitVec DataWidth)
  (s : RomCheck RomDepth TopCount DataWidth) (i : RomCheckIn RomDepth TopCount)

/-- The output of the ROM is not reset. -/
def reset (rdata : BitVec DataWidth) : RomCheck RomDepth TopCount DataWidth :=
  ⟨.reset, rdata, 0, 0, [], []⟩

/-- `rom_req_o` of the mux. -/
def rom_req : Bool :=
  if mubi4_test_true_strict s.u_checker_fsm.rom_select_bus_o then i.bus_req_i
  else s.u_checker_fsm.rom_req_o

/-- `rom_rom_addr_o` of the mux. -/
def rom_rom_index : BitVec (vbits RomDepth) :=
  if mubi4_test_true_strict s.u_checker_fsm.rom_select_bus_o then i.bus_rom_addr_i
  else s.u_checker_fsm.rom_addr_o i.kmac

def exp_digest_o : BitVec 32 := s.rom_rdata.setWidth 32

/-- The expected digest, of which `exp_digest_vld_o` loads one register. -/
def exp_digest_d : BitVec (TopCount * 32) :=
  Bits.ofBits (TopCount * 32) fun j =>
    if s.u_checker_fsm.exp_digest_vld_o &&
        BitVec.ofNat (vbits TopCount) (j / 32) == s.u_checker_fsm.exp_digest_idx_o then
      s.exp_digest_o.getLsbD (j % 32)
    else s.exp_digest_q.getLsbD j

/-- KMAC takes a word. -/
def accepts : Bool := s.u_checker_fsm.kmac_rom_vld_q && i.kmac.kmac_rom_rdy_i

/-- KMAC is done only after it has accepted the last word. -/
def allowed : Bool := !i.kmac.kmac_done_i || s.accepted.any (·.2)

def next : RomCheck RomDepth TopCount DataWidth where
  u_checker_fsm := s.u_checker_fsm.clock i.kmac s.digest_q s.exp_digest_q
  rom_rdata := if s.rom_req i then rom (s.rom_rom_index i).toNat else s.rom_rdata
  digest_q := if i.kmac.kmac_done_i then i.kmac.kmac_digest_i else s.digest_q
  exp_digest_q := s.exp_digest_d
  accepted :=
    if s.accepts i then s.accepted ++ [(s.rom_rdata, s.u_checker_fsm.kmac_rom_last_o)]
    else s.accepted
  answers :=
    if i.kmac.kmac_done_i then s.answers ++ [(i.kmac.kmac_digest_i, i.kmac.kmac_err_i)]
    else s.answers

def step : Option (RomCheck RomDepth TopCount DataWidth) :=
  if s.allowed i then some (s.next rom i) else none

end RomCheck

end SecureBoot
