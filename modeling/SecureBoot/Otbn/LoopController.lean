import SecureBoot.Prim.Count

/-! The loop controller of OTBN, `otbn_loop_controller` with its `otbn_stack`: the addresses of
the loops on a stack of eight entries and a counter beside each entry. The integrity bits of
the addresses and the outputs to the prefetcher are left out. -/

namespace SecureBoot

/-- `LoopStackDepth`. -/
def LoopStackDepth : ℕ := 8

/-- What the controller of the core asks for in a cycle. -/
structure LoopControllerIn (ImemAddrWidth : ℕ) where
  state_reset_i : Bool
  insn_valid_i : Bool
  insn_addr_i : BitVec ImemAddrWidth
  next_insn_addr_i : BitVec ImemAddrWidth
  loop_start_req_i : Bool
  loop_start_commit_i : Bool
  loop_bodysize_i : BitVec 12
  loop_iterations_i : BitVec 32
  jump_or_branch_i : Bool
  otbn_stall_i : Bool

/-- `loop_addr_info_t`; the end has a bit above those of an address. -/
structure LoopAddrInfo (ImemAddrWidth : ℕ) where
  loop_start : BitVec ImemAddrWidth
  loop_end : BitVec (ImemAddrWidth + 1)
  deriving DecidableEq

structure LoopController (ImemAddrWidth : ℕ) where
  stack_storage : BitVec 3 → LoopAddrInfo ImemAddrWidth
  stack_wr_ptr : CountRegs 4
  loop_counters : BitVec 3 → CountRegs 32

namespace LoopController

variable {ImemAddrWidth : ℕ}

/-- Out of reset the stack is empty, with any entries. -/
def reset (stack_storage : BitVec 3 → LoopAddrInfo ImemAddrWidth) :
    LoopController ImemAddrWidth where
  stack_storage := stack_storage
  stack_wr_ptr := primCountReset 0
  loop_counters _ := primCountReset (.allOnes 32)

/-! ### The loop that starts -/

section NewLoop

variable (i : LoopControllerIn ImemAddrWidth)

/-- `LoopEndAddrWidth`. -/
def LoopEndAddrWidth (ImemAddrWidth : ℕ) : ℕ :=
  1 + if ImemAddrWidth < 14 then 14 else ImemAddrWidth

def new_loop_end_addr_full : BitVec (LoopEndAddrWidth ImemAddrWidth) :=
  i.insn_addr_i.setWidth _ + (i.loop_bodysize_i ++ 0#2).setWidth _ + 4

/-- The end in memory; the top bit says that it lies beyond. -/
def new_loop_end_addr_imem : BitVec (ImemAddrWidth + 1) :=
  let full := new_loop_end_addr_full i
  BitVec.cons (full >>> ImemAddrWidth != 0) (full.setWidth ImemAddrWidth)

def new_loop : LoopAddrInfo ImemAddrWidth :=
  ⟨i.next_insn_addr_i, new_loop_end_addr_imem i⟩

end NewLoop

/-! ### The current loop -/

section Current

variable (s : LoopController ImemAddrWidth) (i : LoopControllerIn ImemAddrWidth)

def stack_full : Bool := s.stack_wr_ptr.primary == BitVec.ofNat 4 LoopStackDepth

def current_loop_valid : Bool := s.stack_wr_ptr.primary != 0

def stack_rd_idx : BitVec 3 := s.stack_wr_ptr.primary.setWidth 3 - 1

def current_loop : LoopAddrInfo ImemAddrWidth := s.stack_storage s.stack_rd_idx

def current_loop_iterations : BitVec 32 := (s.loop_counters s.stack_rd_idx).primary

def at_current_loop_end_insn : Bool :=
  s.current_loop_valid && s.current_loop.loop_end == BitVec.cons false i.insn_addr_i &&
    i.insn_valid_i

def current_loop_finish : Bool :=
  s.at_current_loop_end_insn i && s.current_loop_iterations == 1 && !i.otbn_stall_i

def loop_jump_o : Bool := s.at_current_loop_end_insn i && !s.current_loop_finish i

def loop_jump_addr_o : BitVec ImemAddrWidth := s.current_loop.loop_start

def current_loop_counter_dec : Bool :=
  !i.state_reset_i && !i.otbn_stall_i && s.at_current_loop_end_insn i

/-! ### Errors -/

def loop_iteration_err : Bool := i.loop_iterations_i == 0 && i.loop_start_req_i

def loop_branch_err : Bool := s.at_current_loop_end_insn i && i.jump_or_branch_i

def loop_stack_overflow_err : Bool := i.loop_start_req_i && s.stack_full

def loop_at_end_err : Bool := s.at_current_loop_end_insn i && i.loop_start_req_i

def sw_err_o : Bool :=
  loop_iteration_err i || s.loop_branch_err i || s.loop_stack_overflow_err i ||
    s.loop_at_end_err i

/-! ### The stack -/

def loop_stack_push : Bool := i.loop_start_commit_i && i.loop_start_req_i

def loop_stack_pop : Bool := s.current_loop_finish i

def stack_write : Bool := loop_stack_push i && (!s.stack_full || s.loop_stack_pop i)

def stack_read : Bool := s.current_loop_valid && s.loop_stack_pop i

def stack_wr_idx : BitVec 3 :=
  if s.loop_stack_pop i then s.stack_rd_idx else s.stack_wr_ptr.primary.setWidth 3

/-- A clock edge. -/
def clock : LoopController ImemAddrWidth where
  stack_storage :=
    if s.stack_write i then Function.update s.stack_storage (s.stack_wr_idx i) (new_loop i)
    else s.stack_storage
  stack_wr_ptr := primCount 0 s.stack_wr_ptr
    ⟨i.state_reset_i, false, 0, s.stack_write i, s.stack_read i, 1⟩
  loop_counters i_count := primCount (.allOnes 32) (s.loop_counters i_count)
    ⟨i.state_reset_i, s.stack_write i && s.stack_wr_idx i == i_count, i.loop_iterations_i,
      false, s.current_loop_counter_dec i && s.stack_rd_idx == i_count, 1⟩

end Current

end LoopController

/-! ### Instructions -/

/-- A cycle of the core: no instruction, one that stalls, or one that retires. Only loads and
reads of random numbers stall. A loop instruction at the top of memory does not retire, since
the next address is invalid. -/
inductive OtbnEvent (ImemAddrWidth : ℕ)
  | bubble
  | stall (addr : BitVec ImemAddrWidth)
  | retire (addr : BitVec ImemAddrWidth)
  /-- A jump or a branch, with its target when it is taken. -/
  | jump (addr : BitVec ImemAddrWidth) (target : Option (BitVec ImemAddrWidth))
  /-- `LOOP` or `LOOPI`. -/
  | loop (addr : BitVec ImemAddrWidth) (iterations : BitVec 32) (bodysize : BitVec 12)
      (inside : addr.toNat + 4 < 2 ^ ImemAddrWidth)

namespace LoopController

variable {ImemAddrWidth : ℕ}

/-- What `otbn_controller` drives in a cycle. A loop instruction commits when it raises no
error. -/
def inputs (s : LoopController ImemAddrWidth) :
    OtbnEvent ImemAddrWidth → LoopControllerIn ImemAddrWidth
  | .bubble => ⟨false, false, 0, 4, false, false, 0, 0, false, false⟩
  | .stall addr => ⟨false, true, addr, addr + 4, false, true, 0, 0, false, true⟩
  | .retire addr => ⟨false, true, addr, addr + 4, false, true, 0, 0, false, false⟩
  | .jump addr _ => ⟨false, true, addr, addr + 4, false, true, 0, 0, true, false⟩
  | .loop addr iterations bodysize _ =>
    let request : LoopControllerIn ImemAddrWidth :=
      ⟨false, true, addr, addr + 4, true, false, bodysize, iterations, false, false⟩
    { request with loop_start_commit_i := !s.sw_err_o request }

variable (s : LoopController ImemAddrWidth) (e : OtbnEvent ImemAddrWidth)

/-- The instruction raises a loop error. -/
def loopErr : Bool := s.sw_err_o (s.inputs e)

/-- The jump back to the start of a loop that the core takes. -/
def loopJump : Option (BitVec ImemAddrWidth) :=
  match e with
  | .bubble | .stall _ => none
  | _ => if s.loop_jump_o (s.inputs e) then some s.loop_jump_addr_o else none

/-- A cycle, unless the instruction raises a loop error and stops the core. -/
def step : Option (LoopController ImemAddrWidth) :=
  if s.loopErr e then none else some (s.clock (s.inputs e))

/-- The loops that are active. -/
def depth : ℕ := s.stack_wr_ptr.primary.toNat

/-- The iterations that are left of the loop at a level of the stack, the current one
included. -/
def iterationsLeft (k : ℕ) : ℕ := (s.loop_counters (BitVec.ofNat 3 k)).primary.toNat

end LoopController

end SecureBoot

/-! The loops of the OTBN simulator: `LoopStack` of `sim/loop.py`, driven by `sim/sim.py` and
`sim/state.py`. The traces of loop starts and iterations are left out. -/

namespace SecureBoot

structure LoopLevel where
  loop_count : ℕ
  restarts_left : ℕ
  start_addr : ℕ
  last_addr : ℕ
  deriving DecidableEq

/-- `LoopLevel.__init__`. -/
def LoopLevel.init (start_addr insn_count restarts : ℕ) : LoopLevel where
  loop_count := 1 + restarts
  restarts_left := restarts
  start_addr := start_addr
  last_addr := start_addr + 4 * insn_count - 4

/-- The top of the stack is the end of the list. -/
structure LoopStack where
  stack : List LoopLevel
  err_flag : Bool
  pop_stack_on_commit : Bool
  deriving DecidableEq

namespace LoopStack

def init : LoopStack := ⟨[], false, false⟩

variable (s : LoopStack)

def start_loop (start_addr loop_count insn_count : ℕ) : LoopStack :=
  { s with
    err_flag := s.err_flag || s.stack.length == LoopStackDepth
    stack := s.stack ++ [LoopLevel.init start_addr insn_count (loop_count - 1)] }

def is_last_insn_in_loop_body (pc : ℕ) : Bool :=
  s.stack.getLast?.elim false fun top => pc == top.last_addr

def check_insn (pc : ℕ) (insn_affects_control : Bool) : LoopStack :=
  { s with err_flag := s.err_flag || s.is_last_insn_in_loop_body pc && insn_affects_control }

/-- The stack with another innermost loop. -/
def setTop (top : LoopLevel) : LoopStack := { s with stack := s.stack.dropLast ++ [top] }

/-- The iteration counts to skip to; without any the stack is unchanged. -/
def apply_warps (warps : ℕ → Option ℕ) : LoopStack :=
  match s.stack.getLast? with
  | none => s
  | some top =>
    match warps (top.loop_count - (1 + top.restarts_left)) with
    | none => s
    | some new_iter_count =>
      s.setTop { top with restarts_left := top.loop_count - new_iter_count - 1 }

/-- `LoopStack.step`, with the address to go back to. -/
def stepLoops (pc : ℕ) (warps : ℕ → Option ℕ) : LoopStack × Option ℕ :=
  let s := { s with pop_stack_on_commit := false }.apply_warps warps
  match s.stack.getLast? with
  | none => (s, none)
  | some top =>
    if pc == top.last_addr then
      if top.restarts_left = 0 then ({ s with pop_stack_on_commit := true }, none)
      else (s.setTop { top with restarts_left := top.restarts_left - 1 }, some top.start_addr)
    else (s, none)

def commit : LoopStack :=
  if s.pop_stack_on_commit then { s with stack := s.stack.dropLast, pop_stack_on_commit := false }
  else s

/-! ### Instructions -/

section Instructions

variable {ImemAddrWidth : ℕ}

def noWarps : ℕ → Option ℕ := fun _ => none

/-- `pre_insn`, the execution of an instruction and `post_insn`: the loops, the address to go
back to and whether the bit `LOOP` of the errors is set. -/
def insn (pc : ℕ) (affects_control : Bool) (execute : LoopStack → LoopStack × Bool) :
    LoopStack × Option ℕ × Bool :=
  let (s, stop) := execute (s.check_insn pc affects_control)
  let (s, back_pc) := s.stepLoops pc noWarps
  (s, back_pc, stop || s.err_flag)

/-- `LOOP.execute` and `LOOPI.execute`. -/
def executeLoop (pc iterations bodysize : ℕ) (s : LoopStack) : LoopStack × Bool :=
  if iterations = 0 then (s, true) else (s.start_loop (pc + 4) iterations bodysize, false)

/-- A cycle of the simulator; the operand `bodysize` is one more than its encoding. -/
def cycle (e : OtbnEvent ImemAddrWidth) : LoopStack × Option ℕ × Bool :=
  match e with
  | .bubble => (s, none, false)
  | .stall addr => (s.check_insn addr.toNat false, none, false)
  | .retire addr => s.insn addr.toNat false fun s => (s, false)
  | .jump addr _ => s.insn addr.toNat true fun s => (s, false)
  | .loop addr iterations bodysize _ =>
    s.insn addr.toNat true (executeLoop addr.toNat iterations.toNat (bodysize.toNat + 1))

variable (e : OtbnEvent ImemAddrWidth)

def loopErr : Bool := (s.cycle e).2.2

def loopJump : Option ℕ := (s.cycle e).2.1

/-- A cycle, unless the instruction sets the bit `LOOP` and stops the simulator. -/
def step : Option LoopStack := if s.loopErr e then none else some (s.cycle e).1.commit

end Instructions

end LoopStack

end SecureBoot
