import SecureBoot.Base.Word
import SecureBoot.Lib.Clocked

/-! The start and stop FSM of the OTBN simulator (`OTBNState`, `OTBNSim`): what its calls do to the
FSM, the errors and the registers that the FSM reads. A failed assertion has no result. What the
program computes stays outside: each cycle of an instruction brings the errors it reports. -/

namespace SecureBoot

namespace Otbnsim

/-! ### EDN clients -/

/-- `ACC_LEN`, the number of words to accumulate. -/
def ACC_LEN : ℕ := 8

def MAX_CDC_WAIT : ℕ := 5

structure EdnClient where
  acc : Option (List Word) := none
  cdc_counter : Option ℕ := none
  poisoned : Bool := false
  retry : Bool := false
  fips_err : Bool := false
  rep_err : Bool := false
  last_word : Option Word := none

namespace EdnClient

variable (self : EdnClient)

def request : Option EdnClient :=
  match self.acc with
  | none => if self.cdc_counter.isNone then some { self with acc := some [] } else none
  | some _ => some (if self.poisoned then { self with retry := true } else self)

def poison : EdnClient :=
  if self.acc.isSome then
    { self with poisoned := true, retry := false, fips_err := false, rep_err := false }
  else self

def forget : EdnClient := { self with retry := false }

def take_word (word : Word) (fips_err : Bool) : Option EdnClient :=
  match self.acc with
  | none => some self
  | some acc =>
    if acc.length < ACC_LEN ∧ self.cdc_counter.isNone then
      some { self with
        acc := some (acc ++ [word])
        cdc_counter := if (acc ++ [word]).length = ACC_LEN then some 0 else none
        fips_err := fips_err || self.fips_err
        rep_err := self.last_word == some word || self.rep_err
        last_word := some word }
    else none

def edn_reset : EdnClient := {}

/-- The data is `none` when it is to be discarded. -/
def cdc_complete : Option ((Option (List Word) × Bool × Bool × Bool) × EdnClient) :=
  match self.acc, self.cdc_counter with
  | some acc, some cdc_counter =>
    if acc.length = ACC_LEN ∧ cdc_counter ≤ MAX_CDC_WAIT then
      let idle : EdnClient := { last_word := self.last_word }
      let result := if self.poisoned then (none, self.retry, false, false)
        else (some acc, self.retry, self.fips_err, self.rep_err)
      if self.retry then
        if self.poisoned then idle.request.map fun client => (result, client) else none
      else some (result, idle)
    else none
  | _, _ => none

def step : Option EdnClient :=
  match self.cdc_counter with
  | none => some self
  | some n =>
    if self.acc.map List.length = some ACC_LEN ∧ n + 1 ≤ MAX_CDC_WAIT then
      some { self with cdc_counter := some (n + 1) }
    else none

end EdnClient

/-! ### The state -/

inductive FsmState
  | IDLE
  | PRE_EXEC
  | EXEC
  | WIPING_GOOD
  | WIPING_BAD
  | MEM_SEC_WIPE
  | LOCKED
  deriving DecidableEq

inductive InitSecWipeState
  | NOT_DONE
  | IN_PROGRESS
  | DONE
  deriving DecidableEq

inductive Status
  | IDLE
  | BUSY_EXECUTE
  | BUSY_SEC_WIPE_DMEM
  | BUSY_SEC_WIPE_IMEM
  | BUSY_SEC_WIPE_INT
  | LOCKED
  deriving DecidableEq

/-- The external registers that are read back. -/
structure OTBNExtRegs where
  STATUS : Status := .BUSY_SEC_WIPE_INT
  INSN_CNT : ℕ := 0
  WIPE_START : Bool := false

/-- The circumstances of a call of `stop` with a fatal error. -/
structure FatalStop where
  fsm_state : FsmState
  init_sec_wipe_state : InitSecWipeState
  lock_immediately : Bool
  urnd_running : Bool
  deriving DecidableEq

structure OTBNState where
  ext_regs : OTBNExtRegs := {}
  /-- What the next commit writes to them. -/
  ext_regs_next : OTBNExtRegs := {}
  rnd_client : EdnClient := {}
  urnd_client : EdnClient := {}
  /-- `wsrs.URND.running`. -/
  urnd_running : Bool := false
  fsm_state : FsmState := .IDLE
  next_fsm_state : FsmState := .IDLE
  init_sec_wipe_state : InitSecWipeState := .NOT_DONE
  first_round_of_wipe : Bool := true
  err_bits : ℕ := 0
  pending_halt : Bool := false
  time_to_imem_invalidation : Option ℤ := none
  invalidated_imem : Bool := false
  wipe_cycles : ℤ := -1
  injected_err_bits : ℕ := 0
  lock_immediately : Bool := false
  zero_insn_cnt_next : Bool := false
  software_errs_fatal : Bool := false
  cycles_in_this_state : ℕ := 0
  rma_req : Bool := false
  /-- The history of fatal errors, latest first. -/
  fatal_stops : List FatalStop := []

namespace OTBNState

variable (self : OTBNState)

def edn_flush : Option OTBNState :=
  let self := { self with rnd_client := .edn_reset, urnd_client := .edn_reset }
  if self.init_sec_wipe_state = .IN_PROGRESS then
    self.urnd_client.request.map fun client => { self with urnd_client := client }
  else some self

/-- The value goes to the `RND` register, which only instructions read. -/
def rnd_completed : Option OTBNState :=
  self.rnd_client.cdc_complete.map fun (_, client) => { self with rnd_client := client }

def urnd_completed : Option OTBNState :=
  self.urnd_client.cdc_complete.bind fun ((w256, retry, _, _), client) =>
    if w256.isSome ∧ retry = false then
      some { self with urnd_client := client, urnd_running := true }
    else none

def start_init_sec_wipe : Option OTBNState :=
  self.urnd_client.request.map fun client =>
    { self with init_sec_wipe_state := .IN_PROGRESS, urnd_client := client }

def init_sec_wipe_is_running : Bool := self.init_sec_wipe_state == .IN_PROGRESS

def init_sec_wipe_is_done : Bool := self.init_sec_wipe_state == .DONE

def stop_at_end_of_cycle (err_bits : ℕ) : OTBNState :=
  { self with err_bits := self.err_bits ||| err_bits, pending_halt := true }

def take_injected_err_bits : OTBNState :=
  if self.injected_err_bits ≠ 0 then
    { self.stop_at_end_of_cycle self.injected_err_bits with injected_err_bits := 0 }
  else self

def set_fsm_state (new_state : FsmState) : OTBNState :=
  { self with
    wipe_cycles := if new_state = .WIPING_BAD ∨ new_state = .WIPING_GOOD then 68
      else self.wipe_cycles
    next_fsm_state := new_state }

def step (handle_injected_error : Bool) : Option OTBNState := do
  let self := if handle_injected_error then self.take_injected_err_bits else self
  let rnd_client ← self.rnd_client.step
  let urnd_client ← self.urnd_client.step
  some { self with rnd_client, urnd_client }

def commit : OTBNState :=
  let self := match self.time_to_imem_invalidation with
    | none => self
    | some n =>
      if n - 1 = 0 then
        { self with time_to_imem_invalidation := none, invalidated_imem := true }
      else { self with time_to_imem_invalidation := some (n - 1) }
  { self with
    fsm_state := self.next_fsm_state
    cycles_in_this_state :=
      if self.next_fsm_state = self.fsm_state then self.cycles_in_this_state + 1 else 0
    ext_regs := self.ext_regs_next }

/-- Aborts the pending changes. -/
def abort : OTBNState := { self with ext_regs_next := self.ext_regs }

def start : Option OTBNState :=
  self.urnd_client.request.map fun client =>
    { self with
      ext_regs_next := { self.ext_regs_next with STATUS := .BUSY_EXECUTE }
      pending_halt := false
      err_bits := 0
      fsm_state := .PRE_EXEC
      next_fsm_state := .PRE_EXEC
      urnd_running := false
      rnd_client := self.rnd_client.poison
      urnd_client := client }

/-- The errors that lock. -/
def should_lock : Bool :=
  self.err_bits >>> 16 != 0 || (self.err_bits >>> 10) &&& 1 != 0 ||
    (self.err_bits != 0 && self.software_errs_fatal) || self.rma_req

/-- The FSM part of `stop`. -/
def stopFsm (should_lock : Bool) : Option OTBNState :=
  let locked := { self.ext_regs_next with STATUS := Status.LOCKED }
  if self.lock_immediately then
    if should_lock then some { self.set_fsm_state .LOCKED with ext_regs_next := locked } else none
  else
    match self.fsm_state, self.init_sec_wipe_state with
    | .EXEC, _ =>
      -- `WIPE_START` is committed at once.
      some { self.set_fsm_state (if should_lock then .WIPING_BAD else .WIPING_GOOD) with
        ext_regs := { self.ext_regs with WIPE_START := true }
        ext_regs_next := { self.ext_regs_next with WIPE_START := true } }
    | .WIPING_BAD, _ | .WIPING_GOOD, _ =>
      if should_lock then some { self with next_fsm_state := .WIPING_BAD } else none
    | _, .IN_PROGRESS => if should_lock then some { self with pending_halt := true } else none
    | _, .DONE =>
      if should_lock then some { self with next_fsm_state := .LOCKED, ext_regs_next := locked }
      else none
    | _, .NOT_DONE => some self

def fatalStop : FatalStop :=
  ⟨self.fsm_state, self.init_sec_wipe_state, self.lock_immediately, self.urnd_running⟩

def stop : Option OTBNState := do
  let aborted :=
    if self.err_bits ≠ 0 ∧ self.fsm_state = .EXEC ∨ self.rma_req then self.abort else self
  let stopped ← { aborted with pending_halt := false }.stopFsm self.should_lock
  some { stopped with
    rnd_client := stopped.rnd_client.forget
    rma_req := false
    fatal_stops :=
      if self.should_lock then self.fatalStop :: self.fatal_stops else self.fatal_stops }

/-- With whether the halt was pending. -/
def stop_if_pending_halt : Option (Bool × OTBNState) :=
  if self.pending_halt then self.stop.map fun stopped => (true, stopped) else some (false, self)

end OTBNState

/-! ### Instructions -/

/-- The attributes of an instruction that decide when it runs. -/
structure OTBNInsn where
  has_bits : Bool
  has_fetch_stall : Bool

/-- What is fetched from a memory without valid integrity bits. -/
def EmptyInsn : OTBNInsn := ⟨false, false⟩

/-- What the program brings in a cycle. -/
structure InsnCycle where
  /-- The arguments of the calls of `stop_at_end_of_cycle` by the instruction. -/
  stops : List ℕ
  rnd_request : Bool
  finished : Bool
  rep_err_escalate : Bool
  fips_err_escalate : Bool
  /-- The errors of the call stack and the loop stack when the instruction retires. -/
  stack_err_bits : ℕ
  next_pc_valid : Bool
  fetched : OTBNInsn

namespace ErrBits

def BAD_INSN_ADDR : ℕ := 1 <<< 1

def RND_REP_CHK_FAIL : ℕ := 1 <<< 6

def RND_FIPS_CHK_FAIL : ℕ := 1 <<< 7

def IMEM_INTG_VIOLATION : ℕ := 1 <<< 16

def MASK : ℕ := 2 ^ 24 - 1

end ErrBits

def OTBNState.post_insn (self : OTBNState) (cycle : InsnCycle) : OTBNState :=
  let insn_cnt := min (self.ext_regs.INSN_CNT + 1) (2 ^ 32 - 1)
  let self := { self with
    ext_regs_next := { self.ext_regs_next with INSN_CNT := insn_cnt }
    err_bits := self.err_bits ||| cycle.stack_err_bits }
  let self := if self.err_bits ≠ 0 then { self with pending_halt := true } else self
  if ¬ cycle.next_pc_valid ∧ ¬ self.pending_halt then
    self.stop_at_end_of_cycle ErrBits.BAD_INSN_ADDR
  else self

/-! ### The simulator -/

structure OTBNSim where
  state : OTBNState := {}
  next_insn : Option OTBNInsn := none

namespace OTBNSim

variable (self : OTBNSim) (cycle : InsnCycle)

def fetch (state : OTBNState) : OTBNInsn :=
  if state.invalidated_imem then EmptyInsn else cycle.fetched

def on_stall (fetch_next : Bool) : Option OTBNSim := do
  let (_, state) ← self.state.stop_if_pending_halt
  let state := state.commit
  some { self with
    state
    next_insn := if fetch_next then some (fetch cycle state) else self.next_insn }

def on_retire (insn : OTBNInsn) : Option OTBNSim := do
  let (halting, state) ← (self.state.post_insn cycle).stop_if_pending_halt
  let state := state.commit
  let no_fetch := halting || insn.has_fetch_stall
  some { self with state, next_insn := if no_fetch then none else some (fetch cycle state) }

def step_idle : Option OTBNSim := do
  let (_, state) ← self.state.stop_if_pending_halt
  let state :=
    if state.fsm_state = .LOCKED ∧ state.cycles_in_this_state = 0 then
      { state with ext_regs_next := { state.ext_regs_next with INSN_CNT := 0 } }
    else state
  let state :=
    if state.init_sec_wipe_is_running ∧ state.urnd_running then
      if state.fsm_state = .LOCKED then state.set_fsm_state .WIPING_BAD
      else state.set_fsm_state .WIPING_GOOD
    else state
  some { self with state := state.commit }

def step_ext_wipe : Option OTBNSim := do
  let (_, state) ← self.state.stop_if_pending_halt
  some { self with state := state.commit }

def step_pre_exec : Option OTBNSim := do
  let state := if self.state.urnd_running then self.state.set_fsm_state .EXEC else self.state
  let sim ← { self with state }.on_stall cycle false
  let state :=
    if sim.state.ext_regs.INSN_CNT ≠ 0 then
      { sim.state with ext_regs_next := { sim.state.ext_regs_next with INSN_CNT := 0 } }
    else sim.state
  some { sim with state }

/-- A cycle of an instruction, with the errors of the `RND` register behind its own. -/
def executeInsn (insn : OTBNInsn) (state : OTBNState) : OTBNState :=
  let state :=
    if insn.has_bits then cycle.stops.foldl OTBNState.stop_at_end_of_cycle state
    else state.stop_at_end_of_cycle ErrBits.IMEM_INTG_VIOLATION
  let state :=
    if cycle.rep_err_escalate then state.stop_at_end_of_cycle ErrBits.RND_REP_CHK_FAIL else state
  if cycle.fips_err_escalate then state.stop_at_end_of_cycle ErrBits.RND_FIPS_CHK_FAIL else state

def step_exec : Option OTBNSim :=
  if self.state.init_sec_wipe_is_done then
    match self.next_insn with
    | none => { self with state := self.state.take_injected_err_bits }.on_stall cycle true
    | some insn =>
      (if cycle.rnd_request then self.state.rnd_client.request
        else some self.state.rnd_client).bind fun rnd_client =>
      let state := (executeInsn cycle insn { self.state with rnd_client }).take_injected_err_bits
      -- An instruction that a halt comes for is over.
      let sim_stalled := !cycle.finished && !state.pending_halt
      let sim := { self with state }
      if sim_stalled then sim.on_stall cycle false else sim.on_retire cycle insn
  else none

/-- The first statements of `step_wiping`. -/
def wipeCycle (state : OTBNState) : OTBNState :=
  let state := { state with
    wipe_cycles := if state.wipe_cycles > 0 then state.wipe_cycles - 1 else state.wipe_cycles
    fsm_state := if state.pending_halt then .WIPING_BAD else state.fsm_state }
  if state.wipe_cycles > 0 ∧ state.ext_regs.STATUS ≠ .BUSY_SEC_WIPE_INT ∧
      state.ext_regs.STATUS ≠ .LOCKED then
    { state with ext_regs_next := { state.ext_regs_next with STATUS := .BUSY_SEC_WIPE_INT } }
  else state

/-- The registers `WIPE_START` and `INSN_CNT` during a wipe. -/
def wipeRegs (is_good : Bool) (state : OTBNState) : OTBNState :=
  let state :=
    if state.ext_regs.WIPE_START then
      { state with ext_regs_next := { state.ext_regs_next with WIPE_START := false } }
    else state
  if ¬ is_good ∧ state.ext_regs.INSN_CNT ≠ 0 then
    let state :=
      if state.zero_insn_cnt_next ∨ ¬ state.lock_immediately then
        { state with
          ext_regs_next := { state.ext_regs_next with INSN_CNT := 0 }
          zero_insn_cnt_next := false }
      else state
    if state.lock_immediately then { state with zero_insn_cnt_next := true } else state
  else state

/-- The penultimate cycle of a round. -/
def wipePenultimate (is_good : Bool) (state : OTBNState) : Option OTBNState :=
  if state.wipe_cycles = 1 then
    if state.first_round_of_wipe then
      state.urnd_client.request.map fun client =>
        { state with urnd_running := false, urnd_client := client }
    else
      let next_status := if is_good then Status.IDLE else .LOCKED
      some { state with ext_regs_next := { state.ext_regs_next with STATUS := next_status } }
  else some state

/-- The final cycle of a round. -/
def wipeFinal (is_good : Bool) (state : OTBNState) : OTBNState :=
  if state.wipe_cycles = 0 then
    if state.first_round_of_wipe then
      if state.urnd_running then
        { state with first_round_of_wipe := false }.set_fsm_state state.fsm_state
      else state
    else
      -- The source sets `wipe_cycles` of the simulator to `-1` here, not that of the state.
      let next_state := if is_good then FsmState.IDLE else .LOCKED
      let state :=
        if is_good ∧ state.init_sec_wipe_is_running then
          { state with init_sec_wipe_state := .DONE }
        else state
      { state with first_round_of_wipe := true }.set_fsm_state next_state
  else state

def step_wiping : Option OTBNSim :=
  if self.state.wipe_cycles ≥ 0 then do
    let state := wipeCycle self.state
    let is_good := state.fsm_state == .WIPING_GOOD
    let state ← wipePenultimate is_good (wipeRegs is_good state)
    { self with state := wipeFinal is_good state }.on_stall cycle false
  else none

def step : Option OTBNSim := do
  let state ← self.state.step (self.state.fsm_state != .EXEC)
  let sim := { self with state }
  match self.state.fsm_state with
  | .MEM_SEC_WIPE => sim.step_ext_wipe
  | .IDLE => sim.step_idle
  | .PRE_EXEC => sim.step_pre_exec cycle
  | .EXEC => sim.step_exec cycle
  | .WIPING_GOOD => sim.step_wiping cycle
  | .WIPING_BAD => sim.step_wiping cycle
  | .LOCKED => sim.step_idle

def start : Option OTBNSim :=
  if self.state.fsm_state ≠ .IDLE then some self
  else self.state.start.map fun state =>
    { self with state, next_insn := none }

def start_mem_wipe (is_imem : Bool) : OTBNSim :=
  if self.state.fsm_state ≠ .IDLE then self
  else
    let new_status := if is_imem then Status.BUSY_SEC_WIPE_IMEM else .BUSY_SEC_WIPE_DMEM
    let state := self.state.set_fsm_state .MEM_SEC_WIPE
    { self with
      state := { state with ext_regs_next := { state.ext_regs_next with STATUS := new_status } } }

def on_otp_cdc_done : Option OTBNSim :=
  match self.state.fsm_state with
  | .MEM_SEC_WIPE =>
    let state := self.state.set_fsm_state .IDLE
    some { self with
      state := { state with ext_regs_next := { state.ext_regs_next with STATUS := .IDLE } } }
  | .WIPING_BAD | .LOCKED => some self
  | _ => none

def send_err_escalation (err_val : ℕ) (lock_immediately : Bool) : Option OTBNSim :=
  if err_val ≤ ErrBits.MASK then
    some { self with
      state := { self.state with
        injected_err_bits := self.state.injected_err_bits ||| err_val
        lock_immediately } }
  else none

def send_rma_req : OTBNSim :=
  { self with state := { self.state with rma_req := true, pending_halt := true } }

end OTBNSim

/-! ### Calls -/

/-- The calls of the simulator that its state depends on. -/
inductive Call
  | start
  | start_mem_wipe (is_imem : Bool)
  | step (cycle : InsnCycle)
  | initial_secure_wipe
  | on_otp_cdc_done
  | send_err_escalation (err_val : ℕ) (lock_immediately : Bool)
  | send_rma_req
  | edn_rnd_step (rnd_data : Word) (fips_err : Bool)
  | edn_urnd_step (urnd_data : Word)
  | edn_flush
  | rnd_completed
  | urnd_completed
  | set_software_errs_fatal (new_val : Bool)
  | invalidate_imem
  /-- `load_program`, of which the state keeps only that the memory is valid again. -/
  | load_program

def OTBNSim.withState (sim : OTBNSim) (state : OTBNState) : OTBNSim := { sim with state }

def call (sim : OTBNSim) : Call → Option OTBNSim
  | .start => sim.start
  | .start_mem_wipe is_imem => some (sim.start_mem_wipe is_imem)
  | .step cycle => sim.step cycle
  | .initial_secure_wipe => sim.state.start_init_sec_wipe.map sim.withState
  | .on_otp_cdc_done => sim.on_otp_cdc_done
  | .send_err_escalation err_val lock_immediately =>
    sim.send_err_escalation err_val lock_immediately
  | .send_rma_req => some sim.send_rma_req
  | .edn_rnd_step rnd_data fips_err =>
    (sim.state.rnd_client.take_word rnd_data fips_err).map fun client =>
      sim.withState { sim.state with rnd_client := client }
  | .edn_urnd_step urnd_data =>
    (sim.state.urnd_client.take_word urnd_data false).map fun client =>
      sim.withState { sim.state with urnd_client := client }
  | .edn_flush => sim.state.edn_flush.map sim.withState
  | .rnd_completed => sim.state.rnd_completed.map sim.withState
  | .urnd_completed => sim.state.urnd_completed.map sim.withState
  | .set_software_errs_fatal new_val =>
    some (sim.withState { sim.state with software_errs_fatal := new_val })
  | .invalidate_imem =>
    some (sim.withState { sim.state with time_to_imem_invalidation := some 2 })
  | .load_program =>
    some (sim.withState { sim.state with
      time_to_imem_invalidation := none, invalidated_imem := false })

/-- A sequence of calls from reset, `none` when it trips an assertion. -/
def run (calls : List Call) : Option OTBNSim := Clocked.run call {} calls

end Otbnsim

end SecureBoot
