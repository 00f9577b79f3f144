import Mathlib.Data.List.Basic
import SecureBoot.Lib.Clocked
import SecureBoot.Otbn.LoopController

/-! The loop controller of OTBN and the loop stack of its simulator agree: level `k` of the
stack is entry `k` of the controller with its counter, one above the restarts that are left. -/

namespace SecureBoot

variable {ImemAddrWidth : ℕ}

/-- An entry of the controller and a level of the simulator. -/
structure LoopLevel.Agrees (info : LoopAddrInfo ImemAddrWidth) (counter : CountRegs 32)
    (level : LoopLevel) : Prop where
  start : level.start_addr = info.loop_start.toNat
  last : ∀ addr : BitVec ImemAddrWidth,
    info.loop_end = BitVec.cons false addr ↔ addr.toNat = level.last_addr
  left : counter.primary.toNat = level.restarts_left + 1

structure LoopsAgree (r : LoopController ImemAddrWidth) (s : LoopStack) : Prop where
  depth : r.depth = s.stack.length
  bound : s.stack.length ≤ LoopStackDepth
  level : ∀ k (l : LoopLevel), s.stack[k]? = some l →
    l.Agrees (r.stack_storage (BitVec.ofNat 3 k)) (r.loop_counters (BitVec.ofNat 3 k))
  no_err : s.err_flag = false
  no_pop : s.pop_stack_on_commit = false

/-! ### The simulator -/

namespace LoopStack

/-- A stack between two instructions. -/
def active (stack : List LoopLevel) : LoopStack := ⟨stack, false, false⟩

theorem eq_active {s : LoopStack} (herr : s.err_flag = false)
    (hpop : s.pop_stack_on_commit = false) : s = active s.stack := by
  obtain ⟨stack, err, pop⟩ := s
  simp_all [active]

@[simp] theorem apply_noWarps (s : LoopStack) : s.apply_warps noWarps = s := by
  unfold apply_warps noWarps
  cases s.stack.getLast? <;> rfl

theorem is_last_concat (base : List LoopLevel) (top : LoopLevel) (pc : ℕ) :
    (active (base ++ [top])).is_last_insn_in_loop_body pc = (pc == top.last_addr) := by
  simp [active, is_last_insn_in_loop_body]

theorem stepLoops_of_not_last {s : LoopStack} {pc : ℕ}
    (h : s.is_last_insn_in_loop_body pc = false) :
    s.stepLoops pc noWarps = ({ s with pop_stack_on_commit := false }, none) := by
  rw [is_last_insn_in_loop_body] at h
  cases htop : s.stack.getLast? with
  | none => simp [stepLoops, htop]
  | some top =>
    have hne : (pc == top.last_addr) = false := by simpa [htop] using h
    simp [stepLoops, htop, hne]

/-- The first instruction of a body comes after the loop instruction. -/
theorem start_loop_not_last (stack : List LoopLevel) (pc count bodysize : ℕ) :
    ((active stack).start_loop (pc + 4) count (bodysize + 1)).is_last_insn_in_loop_body pc =
      false := by
  simp only [is_last_insn_in_loop_body, start_loop, active, List.getLast?_concat, Option.elim,
    LoopLevel.init, beq_eq_false_iff_ne]
  omega

theorem stepLoops_err_flag (s : LoopStack) (pc : ℕ) :
    (s.stepLoops pc noWarps).1.err_flag = s.err_flag := by
  simp only [stepLoops, apply_noWarps]
  split
  · rfl
  · split_ifs <;> rfl

/-! ### Loop errors -/

section Errors

variable (s : LoopStack) (addr : BitVec ImemAddrWidth)

@[simp] theorem check_insn_false (pc : ℕ) : s.check_insn pc false = s := by
  simp [check_insn]

theorem check_insn_of_not_last {s : LoopStack} {pc : ℕ}
    (h : s.is_last_insn_in_loop_body pc = false) (affects_control : Bool) :
    s.check_insn pc affects_control = s := by
  simp [check_insn, h]

theorem loopErr_retire : s.loopErr (.retire addr) = s.err_flag := by
  simp [loopErr, cycle, insn, stepLoops_err_flag]

theorem loopErr_jump (target : Option (BitVec ImemAddrWidth)) :
    s.loopErr (.jump addr target) = (s.err_flag || s.is_last_insn_in_loop_body addr.toNat) := by
  simp [loopErr, cycle, insn, stepLoops_err_flag, check_insn]

theorem loopErr_loop (iterations : BitVec 32) (bodysize : BitVec 12)
    (inside : addr.toNat + 4 < 2 ^ ImemAddrWidth) :
    s.loopErr (.loop addr iterations bodysize inside) =
      (iterations == 0 || s.err_flag || s.is_last_insn_in_loop_body addr.toNat ||
        s.stack.length == LoopStackDepth) := by
  by_cases h : iterations = 0
  · simp [loopErr, cycle, insn, executeLoop, h]
  · have hcount : iterations.toNat ≠ 0 := fun hzero => h (BitVec.eq_of_toNat_eq hzero)
    simp only [loopErr, cycle, insn, executeLoop, hcount, if_false, stepLoops_err_flag]
    have hne : (iterations == 0#32) = false := by simpa using h
    simp [hne, start_loop, check_insn]

theorem step_eq_none {e : OtbnEvent ImemAddrWidth} : s.step e = none ↔ s.loopErr e = true := by
  rw [step]
  split_ifs with h <;> simp [h]

theorem loopErr_of_step {s s' : LoopStack} {e : OtbnEvent ImemAddrWidth}
    (h : s.step e = some s') : s.loopErr e = false := by
  cases herr : s.loopErr e with
  | false => rfl
  | true => simp [s.step_eq_none.mpr herr] at h

end Errors

/-! ### Instructions -/

section Cases

variable {stack : List LoopLevel} {s' : LoopStack}

/-- The event is no instruction at the end of the innermost body, and starts no loop. -/
def Passes (s : LoopStack) : OtbnEvent ImemAddrWidth → Prop
  | .bubble | .stall _ => True
  | .retire addr | .jump addr _ => s.is_last_insn_in_loop_body addr.toNat = false
  | .loop .. => False

theorem cycle_retire_last {base : List LoopLevel} {top : LoopLevel}
    {addr : BitVec ImemAddrWidth} (hlast : addr.toNat = top.last_addr) :
    (active (base ++ [top])).cycle (.retire addr) =
      if top.restarts_left = 0 then (⟨base ++ [top], false, true⟩, none, false)
      else (active (base ++ [{ top with restarts_left := top.restarts_left - 1 }]),
        some top.start_addr, false) := by
  by_cases h : top.restarts_left = 0 <;>
    simp [cycle, insn, stepLoops, active, hlast, h, setTop]

/-- What an instruction without a loop error does to the stack. -/
theorem step_cases {e : OtbnEvent ImemAddrWidth} (h : (active stack).step e = some s') :
    ((active stack).Passes e ∧ s' = active stack ∧ (active stack).loopJump e = none) ∨
    (∃ base top addr, e = .retire addr ∧ stack = base ++ [top] ∧ addr.toNat = top.last_addr ∧
      top.restarts_left ≠ 0 ∧ (active stack).loopJump e = some top.start_addr ∧
      s' = active (base ++ [{ top with restarts_left := top.restarts_left - 1 }])) ∨
    (∃ base top addr, e = .retire addr ∧ stack = base ++ [top] ∧ addr.toNat = top.last_addr ∧
      top.restarts_left = 0 ∧ (active stack).loopJump e = none ∧ s' = active base) ∨
    (∃ addr iterations bodysize inside, e = .loop addr iterations bodysize inside ∧
      iterations ≠ 0 ∧ stack.length ≠ LoopStackDepth ∧
      (active stack).is_last_insn_in_loop_body addr.toNat = false ∧
      (active stack).loopJump e = none ∧
      s' = active (stack ++
        [LoopLevel.init (addr.toNat + 4) (bodysize.toNat + 1) (iterations.toNat - 1)])) := by
  rw [step] at h
  split_ifs at h with herr
  obtain rfl := Option.some.inj h
  cases e with
  | bubble => exact .inl ⟨trivial, rfl, rfl⟩
  | stall addr =>
    refine .inl ⟨trivial, ?_, rfl⟩
    simp only [cycle, check_insn_false]
    rfl
  | retire addr =>
    cases hlast : (active stack).is_last_insn_in_loop_body addr.toNat with
    | false =>
      have hcycle : (active stack).cycle (.retire addr) = (active stack, none, false) := by
        simp only [cycle, insn, check_insn_false, stepLoops_of_not_last hlast]
        rfl
      exact .inl ⟨hlast, by rw [hcycle]; rfl, by rw [loopJump, hcycle]⟩
    | true =>
      obtain rfl | ⟨base, top, rfl⟩ := List.eq_nil_or_concat' stack
      · simp [is_last_insn_in_loop_body, active] at hlast
      · rw [is_last_concat, beq_iff_eq] at hlast
        have hcycle : (active (base ++ [top])).cycle (.retire addr) = _ := cycle_retire_last hlast
        by_cases hleft : top.restarts_left = 0
        · rw [if_pos hleft] at hcycle
          refine .inr (.inr (.inl ⟨base, top, addr, rfl, rfl, hlast, hleft, ?_, ?_⟩))
          · rw [loopJump, hcycle]
          · rw [hcycle]
            simp [commit, active]
        · rw [if_neg hleft] at hcycle
          refine .inr (.inl ⟨base, top, addr, rfl, rfl, hlast, hleft, ?_, ?_⟩)
          · rw [loopJump, hcycle]
          · rw [hcycle]
            rfl
  | jump addr target =>
    have hlast : (active stack).is_last_insn_in_loop_body addr.toNat = false := by
      simpa [loopErr_jump, active] using herr
    have hcycle : (active stack).cycle (.jump addr target) = (active stack, none, false) := by
      simp only [cycle, insn, check_insn_of_not_last hlast, stepLoops_of_not_last hlast]
      rfl
    exact .inl ⟨hlast, by rw [hcycle]; rfl, by rw [loopJump, hcycle]⟩
  | loop addr iterations bodysize inside =>
    obtain ⟨⟨hzero, hlast⟩, hfull⟩ : (iterations ≠ 0 ∧
        (active stack).is_last_insn_in_loop_body addr.toNat = false) ∧
        stack.length ≠ LoopStackDepth := by
      simpa [loopErr_loop, active] using herr
    have hcount : iterations.toNat ≠ 0 := fun h => hzero (BitVec.eq_of_toNat_eq h)
    have hcycle : (active stack).cycle (.loop addr iterations bodysize inside) =
        (active (stack ++
          [LoopLevel.init (addr.toNat + 4) (bodysize.toNat + 1) (iterations.toNat - 1)]),
          none, false) := by
      have hnext := stepLoops_of_not_last
        (start_loop_not_last stack addr.toNat iterations.toNat bodysize.toNat)
      simp only [cycle, insn, check_insn_of_not_last hlast, executeLoop, hcount, if_false, hnext]
      simp [start_loop, active, hfull]
    exact .inr (.inr (.inr ⟨addr, iterations, bodysize, inside, rfl, hzero, hfull, hlast,
      by rw [loopJump, hcycle], by rw [hcycle]; rfl⟩))

end Cases

end LoopStack

/-! ### The controller -/

namespace LoopController

theorem sw_err_eq (s : LoopController ImemAddrWidth) (i : LoopControllerIn ImemAddrWidth) :
    s.sw_err_o i = (i.loop_iterations_i == 0 && i.loop_start_req_i ||
      s.at_current_loop_end_insn i && i.jump_or_branch_i ||
      i.loop_start_req_i && s.stack_full ||
      s.at_current_loop_end_insn i && i.loop_start_req_i) :=
  rfl

/-- Without a request and away from the end of the body, or in a stall, nothing changes. -/
theorem clock_hold {s : LoopController ImemAddrWidth} {i : LoopControllerIn ImemAddrWidth}
    (hreset : i.state_reset_i = false) (hreq : i.loop_start_req_i = false)
    (hend : s.at_current_loop_end_insn i = false ∨ i.otbn_stall_i = true) : s.clock i = s := by
  have hfinish : s.current_loop_finish i = false := by
    obtain h | h := hend <;> simp [current_loop_finish, h]
  have hdec : s.current_loop_counter_dec i = false := by
    obtain h | h := hend <;> simp [current_loop_counter_dec, h]
  have hwrite : s.stack_write i = false := by simp [stack_write, loop_stack_push, hreq]
  have hread : s.stack_read i = false := by simp [stack_read, loop_stack_pop, hfinish]
  have hptr : primCount 0 s.stack_wr_ptr ⟨false, false, 0, false, false, 1⟩ = s.stack_wr_ptr := by
    simp [primCount, cntD_hold]
  have hcount : (fun k => primCount (.allOnes 32) (s.loop_counters k)
      ⟨false, false, i.loop_iterations_i, false, false, 1⟩) = s.loop_counters := by
    funext k
    simp [primCount, cntD_hold]
  simp only [clock, hreset, hwrite, hread, hdec, hptr, Bool.false_and, hcount]
  rfl

/-- At the end of the body without a stall. -/
theorem clock_end {s : LoopController ImemAddrWidth} {i : LoopControllerIn ImemAddrWidth}
    (hreset : i.state_reset_i = false) (hreq : i.loop_start_req_i = false)
    (hstall : i.otbn_stall_i = false) (hvalid : s.current_loop_valid = true)
    (hend : s.at_current_loop_end_insn i = true) :
    s.clock i =
      { stack_storage := s.stack_storage
        stack_wr_ptr := primCount 0 s.stack_wr_ptr
          ⟨false, false, 0, false, s.current_loop_iterations == 1, 1⟩
        loop_counters := fun k => primCount (.allOnes 32) (s.loop_counters k)
          ⟨false, false, i.loop_iterations_i, false, s.stack_rd_idx == k, 1⟩ } := by
  have hfinish : s.current_loop_finish i = (s.current_loop_iterations == 1) := by
    simp [current_loop_finish, hend, hstall]
  have hdec : s.current_loop_counter_dec i = true := by
    simp [current_loop_counter_dec, hreset, hstall, hend]
  have hwrite : s.stack_write i = false := by simp [stack_write, loop_stack_push, hreq]
  have hread : s.stack_read i = (s.current_loop_iterations == 1) := by
    simp [stack_read, loop_stack_pop, hfinish, hvalid]
  simp [clock, hreset, hwrite, hread, hdec]

/-- A loop that starts away from the end of a body. -/
theorem clock_start {s : LoopController ImemAddrWidth} {i : LoopControllerIn ImemAddrWidth}
    (hreset : i.state_reset_i = false) (hreq : i.loop_start_req_i = true)
    (hcommit : i.loop_start_commit_i = true) (hfull : s.stack_full = false)
    (hend : s.at_current_loop_end_insn i = false) :
    s.clock i =
      { stack_storage := Function.update s.stack_storage (s.stack_wr_ptr.primary.setWidth 3)
          (new_loop i)
        stack_wr_ptr := primCount 0 s.stack_wr_ptr ⟨false, false, 0, true, false, 1⟩
        loop_counters := fun k => primCount (.allOnes 32) (s.loop_counters k)
          ⟨false, s.stack_wr_ptr.primary.setWidth 3 == k, i.loop_iterations_i, false, false,
            1⟩ } := by
  have hfinish : s.current_loop_finish i = false := by simp [current_loop_finish, hend]
  have hdec : s.current_loop_counter_dec i = false := by simp [current_loop_counter_dec, hend]
  have hwrite : s.stack_write i = true := by
    simp [stack_write, loop_stack_push, hreq, hcommit, hfull]
  have hread : s.stack_read i = false := by simp [stack_read, loop_stack_pop, hfinish]
  simp [clock, hreset, hwrite, hread, hdec, stack_wr_idx, loop_stack_pop, hfinish]

/-- Twice the size of the memory, and of a body, fits the width of the end address. -/
theorem two_pow_le_half_LoopEndAddrWidth (ImemAddrWidth : ℕ) :
    2 * 2 ^ ImemAddrWidth ≤ 2 ^ LoopEndAddrWidth ImemAddrWidth ∧
      2 * 2 ^ 14 ≤ 2 ^ LoopEndAddrWidth ImemAddrWidth := by
  have hle : ∀ n, n ≤ (if ImemAddrWidth < 14 then 14 else ImemAddrWidth) →
      2 * 2 ^ n ≤ 2 ^ LoopEndAddrWidth ImemAddrWidth := by
    intro n hn
    rw [LoopEndAddrWidth, Nat.add_comm, Nat.pow_succ']
    exact Nat.mul_le_mul_left 2 (Nat.pow_le_pow_right (by omega) hn)
  constructor <;> apply hle <;> split_ifs <;> omega

/-- The end of a loop as it is stored is reached at the last instruction of its body, and
never when that lies beyond the memory. -/
theorem new_loop_end_iff (i : LoopControllerIn ImemAddrWidth) (addr : BitVec ImemAddrWidth) :
    (new_loop i).loop_end = BitVec.cons false addr ↔
      addr.toNat = i.insn_addr_i.toNat + 4 * i.loop_bodysize_i.toNat + 4 := by
  have hfull : (new_loop_end_addr_full i).toNat =
      i.insn_addr_i.toNat + 4 * i.loop_bodysize_i.toNat + 4 := by
    have haddr := i.insn_addr_i.isLt
    have hsize := i.loop_bodysize_i.isLt
    have hwidth := two_pow_le_half_LoopEndAddrWidth ImemAddrWidth
    have happend : (i.loop_bodysize_i ++ 0#2).toNat = 4 * i.loop_bodysize_i.toNat := by
      rw [BitVec.toNat_append, Nat.shiftLeft_eq]
      simp
      omega
    have hfour : (4 : BitVec (LoopEndAddrWidth ImemAddrWidth)).toNat = 4 := by
      have hlt : 4 < 2 ^ LoopEndAddrWidth ImemAddrWidth := by omega
      exact Nat.mod_eq_of_lt hlt
    rw [new_loop_end_addr_full, BitVec.toNat_add, BitVec.toNat_add, BitVec.toNat_setWidth,
      BitVec.toNat_setWidth, happend, hfour, Nat.mod_eq_of_lt (a := i.insn_addr_i.toNat) (by omega),
      Nat.mod_eq_of_lt (a := 4 * i.loop_bodysize_i.toNat) (by omega),
      Nat.mod_eq_of_lt (a := i.insn_addr_i.toNat + _) (by omega), Nat.mod_eq_of_lt (by omega)]
  have hcons : (new_loop i).loop_end = BitVec.cons false addr ↔
      (new_loop_end_addr_full i >>> ImemAddrWidth != 0) = false ∧
        (new_loop_end_addr_full i).setWidth ImemAddrWidth = addr := by
    constructor
    · intro h
      have hmsb := congrArg BitVec.msb h
      have hlow := congrArg (BitVec.setWidth ImemAddrWidth) h
      simp only [new_loop, new_loop_end_addr_imem, BitVec.msb_cons, BitVec.setWidth_cons]
        at hmsb hlow
      exact ⟨hmsb, hlow⟩
    · rintro ⟨hmsb, hlow⟩
      simp only [new_loop, new_loop_end_addr_imem, hmsb, hlow]
  have haddr := addr.isLt
  rw [hcons, bne_eq_false_iff_eq, ← BitVec.toNat_inj, ← BitVec.toNat_inj, BitVec.toNat_ushiftRight,
    BitVec.toNat_setWidth, hfull, Nat.shiftRight_eq_div_pow,
    show (0 : BitVec (LoopEndAddrWidth ImemAddrWidth)).toNat = 0 from BitVec.toNat_zero,
    Nat.div_eq_zero_iff_lt (by omega)]
  constructor
  · rintro ⟨hlt, hmod⟩
    rw [← hmod, Nat.mod_eq_of_lt hlt]
  · intro h
    rw [← h]
    exact ⟨haddr, Nat.mod_eq_of_lt haddr⟩

end LoopController

namespace LoopsAgree

variable {r : LoopController ImemAddrWidth} {base : List LoopLevel} {top : LoopLevel}
  {stack : List LoopLevel}

open LoopStack (active)

theorem ptr (h : LoopsAgree r (active stack)) :
    r.stack_wr_ptr.primary.toNat = stack.length :=
  h.depth

theorem wr_idx (h : LoopsAgree r (active stack)) :
    r.stack_wr_ptr.primary.setWidth 3 = BitVec.ofNat 3 stack.length := by
  apply BitVec.eq_of_toNat_eq
  rw [BitVec.toNat_setWidth, h.ptr, BitVec.toNat_ofNat]

theorem rd_idx (h : LoopsAgree r (active (base ++ [top]))) :
    r.stack_rd_idx = BitVec.ofNat 3 base.length := by
  rw [LoopController.stack_rd_idx, h.wr_idx, List.length_append]
  apply BitVec.eq_of_toNat_eq
  simp [BitVec.toNat_sub]
  omega

theorem stack_full (h : LoopsAgree r (active stack)) :
    r.stack_full = (stack.length == LoopStackDepth) := by
  rw [LoopController.stack_full, Bool.eq_iff_iff, beq_iff_eq, beq_iff_eq, ← h.ptr,
    ← BitVec.toNat_inj]
  rfl

theorem valid_concat (h : LoopsAgree r (active (base ++ [top]))) :
    r.current_loop_valid = true := by
  have hptr := h.ptr
  rw [LoopController.current_loop_valid, bne_iff_ne]
  intro hzero
  simp [hzero] at hptr

theorem valid_nil (h : LoopsAgree r (active [])) : r.current_loop_valid = false := by
  have hptr : r.stack_wr_ptr.primary = 0 := BitVec.eq_of_toNat_eq h.ptr
  simp [LoopController.current_loop_valid, hptr]

/-- The top level is the entry that the controller reads. -/
theorem top_level (h : LoopsAgree r (active (base ++ [top]))) :
    top.Agrees r.current_loop (r.loop_counters r.stack_rd_idx) := by
  have htop := h.level base.length top (by simp [active])
  rw [LoopController.current_loop, h.rd_idx]
  exact htop

theorem at_end (h : LoopsAgree r (active stack)) (i : LoopControllerIn ImemAddrWidth) :
    r.at_current_loop_end_insn i =
      (i.insn_valid_i && (active stack).is_last_insn_in_loop_body i.insn_addr_i.toNat) := by
  obtain rfl | ⟨base, top, rfl⟩ := List.eq_nil_or_concat' stack
  · simp [LoopController.at_current_loop_end_insn, h.valid_nil,
      LoopStack.is_last_insn_in_loop_body, active]
  · have hlast : (r.current_loop.loop_end == BitVec.cons false i.insn_addr_i) =
        (i.insn_addr_i.toNat == top.last_addr) := by
      rw [Bool.eq_iff_iff, beq_iff_eq, beq_iff_eq]
      exact h.top_level.last i.insn_addr_i
    rw [LoopController.at_current_loop_end_insn, h.valid_concat, hlast, LoopStack.is_last_concat,
      Bool.true_and, Bool.and_comm]

theorem iterations (h : LoopsAgree r (active (base ++ [top]))) :
    (r.current_loop_iterations == 1) = (top.restarts_left == 0) := by
  have hleft : r.current_loop_iterations.toNat = top.restarts_left + 1 := h.top_level.left
  rw [Bool.eq_iff_iff, beq_iff_eq, beq_iff_eq, ← BitVec.toNat_inj, hleft]
  simp

/-- Both report the same loop errors. -/
theorem loopErr (h : LoopsAgree r (active stack)) (e : OtbnEvent ImemAddrWidth) :
    r.loopErr e = (active stack).loopErr e := by
  rw [LoopController.loopErr, LoopController.sw_err_eq, h.at_end, h.stack_full]
  cases e with
  | bubble | stall addr => simp [LoopController.inputs, LoopStack.loopErr, LoopStack.cycle]
  | retire addr => simp [LoopController.inputs, LoopStack.loopErr_retire, active]
  | jump addr target => simp [LoopController.inputs, LoopStack.loopErr_jump, active]
  | loop addr iterations bodysize inside =>
    rw [LoopStack.loopErr_loop]
    simp [LoopController.inputs, active, Bool.or_comm, Bool.or_assoc]

/-! ### Steps -/

theorem ofNat_ne {j k : ℕ} (hj : j < LoopStackDepth) (hk : k < LoopStackDepth) (h : j ≠ k) :
    BitVec.ofNat 3 j ≠ BitVec.ofNat 3 k := by
  intro heq
  have hnat := congrArg BitVec.toNat heq
  rw [BitVec.toNat_ofNat, BitVec.toNat_ofNat] at hnat
  rw [LoopStackDepth] at hj hk
  omega

/-- A counter that neither counts nor is set. -/
theorem counter_hold (c : CountRegs 32) (set_cnt : BitVec 32) :
    primCount (.allOnes 32) c ⟨false, false, set_cnt, false, false, 1⟩ = c := by
  simp [primCount, cntD_hold]

theorem counter_dec (c : CountRegs 32) (set_cnt : BitVec 32) :
    (primCount (.allOnes 32) c ⟨false, false, set_cnt, false, true, 1⟩).primary.toNat =
      c.primary.toNat - 1 :=
  @toNat_cntD_decr 32 (.allOnes 32) set_cnt c.primary 1

theorem getElem?_concat {x l : LoopLevel} {k : ℕ} (h : (base ++ [x])[k]? = some l) :
    base[k]? = some l ∨ k = base.length ∧ l = x := by
  obtain hlt | hge := Nat.lt_or_ge k base.length
  · rw [List.getElem?_append_left hlt] at h
    exact .inl h
  · rw [List.getElem?_append_right hge, List.getElem?_singleton] at h
    split_ifs at h with hk
    exact .inr ⟨by omega, (Option.some.inj h).symm⟩

/-- The levels below the top are entries that an edge at the end of a body leaves. -/
theorem level_below (h : LoopsAgree r (active (base ++ [top]))) {k : ℕ} {l : LoopLevel}
    (hk : base[k]? = some l) :
    (r.stack_rd_idx == BitVec.ofNat 3 k) = false ∧
      l.Agrees (r.stack_storage (BitVec.ofNat 3 k)) (r.loop_counters (BitVec.ofNat 3 k)) := by
  have hlt : k < base.length := (List.getElem?_eq_some_iff.mp hk).1
  have hbound := h.bound
  simp only [active, List.length_append, List.length_singleton] at hbound
  rw [h.rd_idx, beq_eq_false_iff_ne]
  refine ⟨ofNat_ne (by omega) (by omega) (by omega), h.level k l ?_⟩
  simp only [active]
  rw [List.getElem?_append_left hlt, hk]

section Steps

variable {i : LoopControllerIn ImemAddrWidth}

theorem restart (h : LoopsAgree r (active (base ++ [top]))) (hreset : i.state_reset_i = false)
    (hreq : i.loop_start_req_i = false) (hstall : i.otbn_stall_i = false)
    (hend : r.at_current_loop_end_insn i = true) (hleft : top.restarts_left ≠ 0) :
    LoopsAgree (r.clock i)
      (active (base ++ [{ top with restarts_left := top.restarts_left - 1 }])) := by
  have hiter : (r.current_loop_iterations == 1) = false := by
    rw [h.iterations, beq_eq_false_iff_ne]
    exact hleft
  have hptr := h.ptr
  simp only [List.length_append, List.length_singleton] at hptr
  rw [LoopController.clock_end hreset hreq hstall h.valid_concat hend, hiter]
  refine ⟨?_, by simpa [active] using h.bound, ?_, rfl, rfl⟩
  · simp [LoopController.depth, primCount, cntD_hold, active, hptr]
  · intro k l hk
    obtain hk | ⟨rfl, rfl⟩ := getElem?_concat hk
    · obtain ⟨hne, hl⟩ := h.level_below hk
      simp only [hne, counter_hold]
      exact hl
    · obtain ⟨hstart, hlast, hcount⟩ := h.level base.length top (by simp [active])
      simp only [h.rd_idx, beq_self_eq_true]
      refine ⟨hstart, hlast, ?_⟩
      rw [counter_dec, hcount]
      simp only
      omega

theorem finish (h : LoopsAgree r (active (base ++ [top]))) (hreset : i.state_reset_i = false)
    (hreq : i.loop_start_req_i = false) (hstall : i.otbn_stall_i = false)
    (hend : r.at_current_loop_end_insn i = true) (hleft : top.restarts_left = 0) :
    LoopsAgree (r.clock i) (active base) := by
  have hiter : (r.current_loop_iterations == 1) = true := by
    rw [h.iterations, beq_iff_eq]
    exact hleft
  have hptr := h.ptr
  have hbound := h.bound
  simp only [active, List.length_append, List.length_singleton] at hptr hbound
  rw [LoopController.clock_end hreset hreq hstall h.valid_concat hend, hiter]
  refine ⟨?_, Nat.le_of_succ_le hbound, ?_, rfl, rfl⟩
  · simp only [LoopController.depth, primCount]
    rw [toNat_cntD_decr, hptr]
    rfl
  · intro k l hk
    obtain ⟨hne, hl⟩ := h.level_below hk
    simp only [hne, counter_hold]
    exact hl

theorem start (h : LoopsAgree r (active stack)) (hreset : i.state_reset_i = false)
    (hreq : i.loop_start_req_i = true) (hcommit : i.loop_start_commit_i = true)
    (hend : r.at_current_loop_end_insn i = false) (hfull : stack.length ≠ LoopStackDepth)
    (hnext : i.next_insn_addr_i.toNat = i.insn_addr_i.toNat + 4)
    (hzero : i.loop_iterations_i ≠ 0) :
    LoopsAgree (r.clock i) (active (stack ++ [LoopLevel.init (i.insn_addr_i.toNat + 4)
      (i.loop_bodysize_i.toNat + 1) (i.loop_iterations_i.toNat - 1)])) := by
  have hptr := h.ptr
  have hbound : stack.length ≤ LoopStackDepth := h.bound
  have hlt : stack.length < LoopStackDepth := Nat.lt_of_le_of_ne hbound hfull
  have hnotfull : r.stack_full = false := by
    rw [h.stack_full, beq_eq_false_iff_ne]
    exact hfull
  have hcount : i.loop_iterations_i.toNat ≠ 0 := fun hc => hzero (BitVec.eq_of_toNat_eq hc)
  rw [LoopController.clock_start hreset hreq hcommit hnotfull hend, h.wr_idx]
  refine ⟨?_, by simpa [active, Nat.succ_le_iff] using hlt, ?_, rfl, rfl⟩
  · simp only [LoopController.depth, primCount, active, List.length_append, List.length_singleton]
    rw [toNat_cntD_incr, hptr]
    rw [LoopStackDepth] at hlt
    simp
    omega
  · intro k l hk
    obtain hk | ⟨rfl, rfl⟩ := getElem?_concat hk
    · have hklt : k < stack.length := (List.getElem?_eq_some_iff.mp hk).1
      have hne := ofNat_ne hlt (Nat.lt_trans hklt hlt) (Nat.ne_of_gt hklt)
      simp only [Function.update_of_ne hne.symm, beq_eq_false_iff_ne.mpr hne, counter_hold]
      exact h.level k l hk
    · simp only [Function.update_self, beq_self_eq_true]
      refine ⟨hnext.symm, fun addr => ?_, ?_⟩
      · rw [LoopController.new_loop_end_iff]
        simp only [LoopLevel.init]
        omega
      · simp only [primCount, cntD, LoopLevel.init]
        simp
        omega

end Steps

theorem passes (h : LoopsAgree r (active stack)) {e : OtbnEvent ImemAddrWidth}
    (he : (active stack).Passes e) :
    r.clock (r.inputs e) = r ∧ r.loopJump e = none := by
  have hend := h.at_end (r.inputs e)
  cases e with
  | bubble =>
    have hend' : r.at_current_loop_end_insn (r.inputs .bubble) = false := hend
    exact ⟨LoopController.clock_hold rfl rfl (.inl hend'), rfl⟩
  | stall addr => exact ⟨LoopController.clock_hold rfl rfl (.inr rfl), rfl⟩
  | retire addr | jump addr target =>
    have hlast : (active stack).is_last_insn_in_loop_body addr.toNat = false := he
    replace hend := hend.trans hlast
    refine ⟨LoopController.clock_hold rfl rfl (.inl hend), ?_⟩
    simp only [LoopController.loopJump, LoopController.loop_jump_o, hend, Bool.false_and]
    rfl
  | loop => exact absurd he not_false

/-- An instruction without a loop error: both take the same jump and stay in agreement. -/
theorem next (h : LoopsAgree r (active stack)) {e : OtbnEvent ImemAddrWidth} {s' : LoopStack}
    (hstep : (active stack).step e = some s') :
    LoopsAgree (r.clock (r.inputs e)) s' ∧
      (r.loopJump e).map BitVec.toNat = (active stack).loopJump e := by
  have herr : r.loopErr e = false := (h.loopErr e).trans (LoopStack.loopErr_of_step hstep)
  have hend := h.at_end (r.inputs e)
  obtain ⟨he, rfl, hjump⟩ | ⟨base, top, addr, rfl, rfl, hlast, hleft, hjump, rfl⟩ |
    ⟨base, top, addr, rfl, rfl, hlast, hleft, hjump, rfl⟩ |
    ⟨addr, iterations, bodysize, inside, rfl, hzero, hfull, hlast, hjump, rfl⟩ :=
    LoopStack.step_cases hstep
  · obtain ⟨hclock, hnone⟩ := h.passes he
    rw [hclock, hnone, hjump]
    exact ⟨h, rfl⟩
  · replace hend := hend.trans ((LoopStack.is_last_concat _ _ _).trans (beq_iff_eq.mpr hlast))
    refine ⟨h.restart rfl rfl rfl hend hleft, ?_⟩
    have hiter : (r.current_loop_iterations == 1) = false := by
      rw [h.iterations, beq_eq_false_iff_ne]
      exact hleft
    rw [hjump, h.top_level.start]
    simp only [LoopController.loopJump, LoopController.loop_jump_o,
      LoopController.current_loop_finish, hend, hiter]
    rfl
  · replace hend := hend.trans ((LoopStack.is_last_concat _ _ _).trans (beq_iff_eq.mpr hlast))
    refine ⟨h.finish rfl rfl rfl hend hleft, ?_⟩
    have hiter : (r.current_loop_iterations == 1) = true := by
      rw [h.iterations, beq_iff_eq]
      exact hleft
    rw [hjump]
    simp only [LoopController.loopJump, LoopController.loop_jump_o,
      LoopController.current_loop_finish, hend, hiter]
    rfl
  · replace hend := hend.trans hlast
    have hcommit : (r.inputs (.loop addr iterations bodysize inside)).loop_start_commit_i =
        true :=
      congrArg Bool.not herr
    have hnext : (addr + 4).toNat = addr.toNat + 4 := by
      have hfour : (4 : BitVec ImemAddrWidth).toNat = 4 := by
        have hlt : 4 < 2 ^ ImemAddrWidth := by omega
        exact Nat.mod_eq_of_lt hlt
      rw [BitVec.toNat_add, hfour, Nat.mod_eq_of_lt inside]
    refine ⟨h.start rfl rfl hcommit hend hfull hnext hzero, ?_⟩
    rw [hjump]
    simp only [LoopController.loopJump, LoopController.loop_jump_o, hend, Bool.false_and]
    rfl

end LoopsAgree

/-! ### Runs -/

open Clocked LoopStack

theorem loopsAgree_init (stack_storage : BitVec 3 → LoopAddrInfo ImemAddrWidth) :
    LoopsAgree (LoopController.reset stack_storage) LoopStack.init :=
  ⟨rfl, Nat.zero_le _, by simp [LoopStack.init], rfl, rfl⟩

theorem LoopsAgree.eq_active {r : LoopController ImemAddrWidth} {s : LoopStack}
    (h : LoopsAgree r s) : s = active s.stack :=
  LoopStack.eq_active h.no_err h.no_pop

/-- A trace stops both or neither, and leaves them in agreement. -/
theorem LoopsAgree.run {r : LoopController ImemAddrWidth} {s : LoopStack} (h : LoopsAgree r s)
    (events : List (OtbnEvent ImemAddrWidth)) :
    (Clocked.run LoopController.step r events = none ∧
      Clocked.run (fun s e => s.step e) s events = none) ∨
    ∃ r' s', Clocked.run LoopController.step r events = some r' ∧
      Clocked.run (fun s e => s.step e) s events = some s' ∧ LoopsAgree r' s' := by
  induction events generalizing r s with
  | nil => exact .inr ⟨r, s, rfl, rfl, h⟩
  | cons e events ih =>
    obtain ⟨stack, rfl⟩ : ∃ stack, s = active stack := ⟨s.stack, h.eq_active⟩
    rw [run_cons, run_cons]
    cases hstep : (active stack).step e with
    | none =>
      have herr : r.loopErr e = true := by
        rw [h.loopErr, ← LoopStack.step_eq_none]
        exact hstep
      rw [LoopController.step, if_pos herr]
      exact .inl ⟨rfl, rfl⟩
    | some s₁ =>
      have herr : r.loopErr e = false := (h.loopErr e).trans (loopErr_of_step hstep)
      rw [LoopController.step, herr]
      exact ih (h.next hstep).1

end SecureBoot
