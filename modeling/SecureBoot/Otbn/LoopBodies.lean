import SecureBoot.Otbn.LoopAgreement

/-! How often the body of a loop of OTBN is executed, when the bodies of nested loops end at
different instructions and jumps stay in the innermost body. -/

namespace SecureBoot

open Clocked

variable {ImemAddrWidth : ℕ}

namespace OtbnEvent

/-- The instruction of the event is at `pc`. -/
def IsAt (pc : ℕ) : OtbnEvent ImemAddrWidth → Prop
  | .bubble => True
  | .stall addr | .retire addr | .jump addr _ | .loop addr _ _ _ => addr.toNat = pc

instance (pc : ℕ) (e : OtbnEvent ImemAddrWidth) : Decidable (e.IsAt pc) := by
  cases e <;> unfold IsAt <;> infer_instance

/-- A straight-line instruction at `pc` retires. -/
def retiresAt (pc : ℕ) : OtbnEvent ImemAddrWidth → Bool
  | .retire addr => addr.toNat == pc
  | _ => false

/-- Where execution goes on when no loop jumps back. -/
def next (pc : ℕ) : OtbnEvent ImemAddrWidth → ℕ
  | .bubble | .stall _ => pc
  | .jump _ (some target) => target.toNat
  | _ => pc + 4

/-- The target of a jump is a whole word in the body of the innermost loop, and the body of a
loop ends before that of the loop around it. -/
def Nests (stack : List LoopLevel) : OtbnEvent ImemAddrWidth → Prop
  | .jump _ (some target) => 4 ∣ target.toNat ∧
      ∀ top ∈ stack.getLast?, top.start_addr ≤ target.toNat ∧ target.toNat ≤ top.last_addr
  | .loop addr _ bodysize _ =>
      ∀ top ∈ stack.getLast?, addr.toNat + 4 * (bodysize.toNat + 1) < top.last_addr
  | _ => True

instance (stack : List LoopLevel) (e : OtbnEvent ImemAddrWidth) : Decidable (e.Nests stack) := by
  unfold Nests
  split <;> infer_instance

end OtbnEvent

/-- The loops and the program counter. -/
structure OtbnLoops where
  loops : LoopStack
  pc : ℕ

namespace OtbnLoops

/-- The instruction at the program counter, in a program whose loops nest. -/
def step (x : OtbnLoops) (e : OtbnEvent ImemAddrWidth) : Option OtbnLoops :=
  if e.IsAt x.pc ∧ e.Nests x.loops.stack then
    (x.loops.step e).map fun loops => ⟨loops, (x.loops.loopJump e).getD (e.next x.pc)⟩
  else none

def start : OtbnLoops := ⟨LoopStack.init, 0⟩

/-! ### The bodies nest -/

/-- The body of a level lies in whole words. -/
structure Body (l : LoopLevel) : Prop where
  start : 4 ∣ l.start_addr
  last : 4 ∣ l.last_addr
  ordered : l.start_addr ≤ l.last_addr

/-- The body of the outer level goes on after the one of the inner level. -/
def Inside (outer inner : LoopLevel) : Prop :=
  outer.start_addr ≤ inner.start_addr ∧ inner.last_addr < outer.last_addr

/-- Execution is in the body of the innermost loop, which is inside those around it. -/
structure Nested (stack : List LoopLevel) (pc : ℕ) : Prop where
  aligned : 4 ∣ pc
  body : ∀ l ∈ stack, Body l
  inside : stack.Pairwise Inside
  current : ∀ top ∈ stack.getLast?, top.start_addr ≤ pc ∧ pc ≤ top.last_addr

theorem nested_nil {pc : ℕ} (h : 4 ∣ pc) : Nested [] pc :=
  ⟨h, by simp, .nil, by simp⟩

theorem nested_concat {base : List LoopLevel} {top : LoopLevel} {pc : ℕ} :
    Nested (base ++ [top]) pc ↔ 4 ∣ pc ∧ (∀ l ∈ base, Body l ∧ Inside l top) ∧ Body top ∧
      base.Pairwise Inside ∧ top.start_addr ≤ pc ∧ pc ≤ top.last_addr := by
  constructor
  · rintro ⟨haligned, hbody, hinside, hcurrent⟩
    rw [List.pairwise_append] at hinside
    refine ⟨haligned, fun l hl => ⟨hbody l (by simp [hl]), hinside.2.2 l hl top (by simp)⟩,
      hbody top (by simp), hinside.1, hcurrent top (by simp)⟩
  · rintro ⟨haligned, hbase, htop, hinside, hcurrent⟩
    refine ⟨haligned, ?_, ?_, by simpa using hcurrent⟩
    · intro l hl
      obtain hl | hl := List.mem_append.mp hl
      · exact (hbase l hl).1
      · rw [List.mem_singleton.mp hl]
        exact htop
    · rw [List.pairwise_append]
      refine ⟨hinside, by simp, fun l hl x hx => ?_⟩
      rw [List.mem_singleton.mp hx]
      exact (hbase l hl).2

/-- The address after an instruction that is not the last one of the body. -/
theorem Nested.advance {stack : List LoopLevel} {pc : ℕ} (h : Nested stack pc)
    (hlast : (LoopStack.active stack).is_last_insn_in_loop_body pc = false) :
    Nested stack (pc + 4) := by
  obtain rfl | ⟨base, top, rfl⟩ := List.eq_nil_or_concat' stack
  · exact nested_nil (Nat.dvd_add h.aligned (Nat.dvd_refl 4))
  · rw [LoopStack.is_last_concat, beq_eq_false_iff_ne] at hlast
    rw [nested_concat] at h ⊢
    obtain ⟨haligned, hbase, htop, hinside, hstart, hend⟩ := h
    have hlast4 := htop.last
    exact ⟨by omega, hbase, htop, hinside, by omega, by omega⟩

/-! ### Steps -/

section Steps

variable {x x' : OtbnLoops} {e : OtbnEvent ImemAddrWidth} {stack : List LoopLevel} {pc : ℕ}

theorem step_eq_some (h : x.step e = some x') :
    e.IsAt x.pc ∧ e.Nests x.loops.stack ∧ x.loops.step e = some x'.loops ∧
      x'.pc = (x.loops.loopJump e).getD (e.next x.pc) := by
  rw [step] at h
  split_ifs at h with hcond
  obtain ⟨loops, hloops, rfl⟩ := Option.map_eq_some_iff.mp h
  exact ⟨hcond.1, hcond.2, hloops, rfl⟩

theorem Nested.target (h : Nested stack pc) {target : ℕ} (haligned : 4 ∣ target)
    (hin : ∀ top ∈ stack.getLast?, top.start_addr ≤ target ∧ target ≤ top.last_addr) :
    Nested stack target :=
  ⟨haligned, h.body, h.inside, hin⟩

/-- An instruction that neither ends nor starts a body. -/
theorem Nested.passes (h : Nested stack pc) (he : (LoopStack.active stack).Passes e)
    (hat : e.IsAt pc) (hnests : e.Nests stack) : Nested stack (e.next pc) := by
  cases e with
  | bubble | stall addr => exact h
  | retire addr =>
    cases hat
    exact h.advance he
  | jump addr target =>
    cases hat
    cases target with
    | none => exact h.advance he
    | some target => exact h.target hnests.1 hnests.2
  | loop => exact absurd he not_false

/-- The body goes around: execution goes on at its start. -/
theorem Nested.restart {base : List LoopLevel} {top : LoopLevel} (restarts_left : ℕ)
    (h : Nested (base ++ [top]) pc) :
    Nested (base ++ [{ top with restarts_left := restarts_left }]) top.start_addr := by
  rw [nested_concat] at h ⊢
  obtain ⟨-, hbase, htop, hinside, -⟩ := h
  exact ⟨htop.start, hbase, ⟨htop.start, htop.last, htop.ordered⟩, hinside, Nat.le_refl _,
    htop.ordered⟩

/-- A body is left at its end for the one around it. -/
theorem Nested.finish {base : List LoopLevel} {top : LoopLevel}
    (h : Nested (base ++ [top]) top.last_addr) : Nested base (top.last_addr + 4) := by
  rw [nested_concat] at h
  obtain ⟨-, hbase, htop, hinside, -⟩ := h
  have hlast := htop.last
  refine ⟨by omega, fun l hl => (hbase l hl).1, hinside, fun l hl => ?_⟩
  obtain ⟨hbody, hstart, hend⟩ := hbase l (List.mem_of_getLast? hl)
  have hl4 := hbody.last
  have htop' := htop.ordered
  omega

theorem Nested.start {count bodysize : ℕ} (h : Nested stack pc)
    (hlast : (LoopStack.active stack).is_last_insn_in_loop_body pc = false)
    (hin : ∀ top ∈ stack.getLast?, pc + 4 * (bodysize + 1) < top.last_addr) :
    Nested (stack ++ [LoopLevel.init (pc + 4) (bodysize + 1) count]) (pc + 4) := by
  have haligned := h.aligned
  rw [nested_concat]
  simp only [LoopLevel.init]
  refine ⟨by omega, fun l hl => ⟨h.body l hl, ?_⟩, ?_, h.inside, by omega, by omega⟩
  · obtain rfl | ⟨base, top, rfl⟩ := List.eq_nil_or_concat' stack
    · simp at hl
    · rw [nested_concat] at h
      obtain ⟨-, hbase, -, -, hstart, hend⟩ := h
      have htop := hin top (by simp)
      obtain hl | hl := List.mem_append.mp hl
      · obtain ⟨-, hl⟩ := hbase l hl
        exact ⟨by simp only; have := hl.1; omega, by simp only; have := hl.2; omega⟩
      · rw [List.mem_singleton.mp hl]
        exact ⟨by simp only; omega, by simp only; omega⟩
  · exact ⟨by simp only; omega, by simp only; omega, by simp only; omega⟩

end Steps

/-! ### Runs -/

/-- Between two instructions, with nested loops. -/
structure Inv (x : OtbnLoops) : Prop where
  active : x.loops = LoopStack.active x.loops.stack
  nested : Nested x.loops.stack x.pc

theorem inv_start : start.Inv := ⟨rfl, nested_nil (Nat.dvd_zero 4)⟩

section Runs

variable {x x' : OtbnLoops} {e : OtbnEvent ImemAddrWidth}

theorem Inv.step (hx : x.Inv) (h : x.step e = some x') : x'.Inv := by
  obtain ⟨hat, hnests, hstep, hpc⟩ := step_eq_some h
  obtain ⟨loops, pc⟩ := x
  obtain ⟨loops', pc'⟩ := x'
  obtain ⟨hactive, hnested⟩ := hx
  obtain ⟨stack, rfl⟩ : ∃ stack, loops = LoopStack.active stack := ⟨_, hactive⟩
  simp only at hat hnests hstep hpc hnested
  obtain ⟨he, rfl, hjump⟩ | ⟨base, top, addr, rfl, rfl, hlast, -, hjump, rfl⟩ |
    ⟨base, top, addr, rfl, rfl, hlast, -, hjump, rfl⟩ |
    ⟨addr, iterations, bodysize, inside, rfl, -, -, hlast, hjump, rfl⟩ :=
    LoopStack.step_cases hstep
  · rw [hpc, hjump]
    exact ⟨rfl, hnested.passes he hat hnests⟩
  · rw [hpc, hjump]
    exact ⟨rfl, hnested.restart _⟩
  · rw [hpc, hjump]
    cases hat
    rw [hlast] at hnested ⊢
    exact ⟨rfl, hnested.finish⟩
  · rw [hpc, hjump]
    cases hat
    exact ⟨rfl, hnested.start hlast hnests⟩

theorem Inv.run (hx : x.Inv) {events : List (OtbnEvent ImemAddrWidth)}
    (h : run OtbnLoops.step x events = some x') : x'.Inv :=
  invariant_of_step (fun _ _ _ hstep hx => hx.step hstep) h hx

/-! ### Iterations -/

/-- The loop at a level of the stack, `count` iterations of which are done. -/
def Executing (base : List LoopLevel) (last iterations count : ℕ) (x : OtbnLoops) : Prop :=
  ∃ level inner, x.loops.stack = base ++ level :: inner ∧ level.last_addr = last ∧
    level.restarts_left + 1 + count = iterations

theorem retiresAt_eq_false {pc last : ℕ} (hat : e.IsAt pc) (hne : pc ≠ last) :
    e.retiresAt last = false := by
  cases e with
  | retire addr =>
    cases hat
    exact beq_eq_false_iff_ne.mpr hne
  | bubble | stall | jump | loop => rfl

/-- Execution in a loop further in is not at the end of the body. -/
theorem Nested.ne_last {base : List LoopLevel} {level top : LoopLevel} {inner : List LoopLevel}
    {pc : ℕ} (h : Nested (base ++ level :: (inner ++ [top])) pc) : pc ≠ level.last_addr := by
  have hstack : base ++ level :: (inner ++ [top]) = (base ++ level :: inner) ++ [top] := by simp
  rw [hstack, nested_concat] at h
  obtain ⟨-, hbase, -, -, -, hend⟩ := h
  have hlevel := (hbase level (by simp)).2.2
  omega

/-- The last instruction of the body counts an iteration, and the last one of them ends the
loop. -/
theorem Executing.step {base : List LoopLevel} {last iterations count : ℕ} (hx : x.Inv)
    (h : x.step e = some x') (hloop : x.Executing base last iterations count) :
    x'.Executing base last iterations (count + (e.retiresAt last).toNat) ∨
      x'.loops.stack = base ∧ count + (e.retiresAt last).toNat = iterations := by
  obtain ⟨hat, -, hstep, -⟩ := step_eq_some h
  obtain ⟨level, inner, hstack, rfl, hcount⟩ := hloop
  obtain ⟨hactive, hnested⟩ := hx
  rw [hstack] at hactive hnested
  rw [hactive] at hstep
  obtain rfl | ⟨inner, top, rfl⟩ := List.eq_nil_or_concat' inner
  · obtain ⟨he, hnext, -⟩ | ⟨base', top, addr, rfl, heq, hlast, hleft, -, hnext⟩ |
      ⟨base', top, addr, rfl, heq, hlast, hleft, -, hnext⟩ |
      ⟨addr, iterations, bodysize, inside, rfl, -, -, -, -, hnext⟩ := LoopStack.step_cases hstep
    · have hretires : e.retiresAt level.last_addr = false := by
        cases e with
        | retire addr => exact (LoopStack.is_last_concat base level addr.toNat).symm.trans he
        | bubble | stall | jump | loop => rfl
      rw [hretires]
      exact .inl ⟨level, [], by rw [hnext]; rfl, rfl, hcount⟩
    · obtain ⟨rfl, hlevel⟩ := List.append_inj' heq rfl
      obtain rfl : level = top := by simpa using hlevel
      have hretires : (OtbnEvent.retire addr).retiresAt level.last_addr = true :=
        beq_iff_eq.mpr hlast
      rw [hretires]
      refine .inl ⟨{ level with restarts_left := level.restarts_left - 1 }, [], ?_, rfl, ?_⟩
      · rw [hnext]
        rfl
      · simp only [Bool.toNat_true]
        omega
    · obtain ⟨rfl, hlevel⟩ := List.append_inj' heq rfl
      obtain rfl : level = top := by simpa using hlevel
      have hretires : (OtbnEvent.retire addr).retiresAt level.last_addr = true :=
        beq_iff_eq.mpr hlast
      rw [hretires, hnext]
      refine .inr ⟨rfl, ?_⟩
      simp only [Bool.toNat_true]
      omega
    · refine .inl ⟨level, [LoopLevel.init (addr.toNat + 4) (bodysize.toNat + 1)
        (iterations.toNat - 1)], ?_, rfl, hcount⟩
      rw [hnext]
      simp [LoopStack.active]
  · have hretires := retiresAt_eq_false hat hnested.ne_last
    have hcons : base ++ level :: (inner ++ [top]) = (base ++ level :: inner) ++ [top] := by simp
    rw [hcons] at hstep
    rw [hretires]
    obtain ⟨-, hnext, -⟩ | ⟨base', top', addr, rfl, heq, -, -, -, hnext⟩ |
      ⟨base', top', addr, rfl, heq, -, -, -, hnext⟩ |
      ⟨addr, iterations, bodysize, inside, rfl, -, -, -, -, hnext⟩ := LoopStack.step_cases hstep
    · exact .inl ⟨level, inner ++ [top], by rw [hnext]; simp [LoopStack.active], rfl, hcount⟩
    · obtain ⟨rfl, -⟩ := List.append_inj' heq rfl
      refine .inl ⟨level, inner ++ [{ top' with restarts_left := top'.restarts_left - 1 }], ?_,
        rfl, hcount⟩
      rw [hnext]
      simp [LoopStack.active]
    · obtain ⟨rfl, -⟩ := List.append_inj' heq rfl
      exact .inl ⟨level, inner, by rw [hnext]; simp [LoopStack.active], rfl, hcount⟩
    · refine .inl ⟨level, inner ++ [top, LoopLevel.init (addr.toNat + 4) (bodysize.toNat + 1)
        (iterations.toNat - 1)], ?_, rfl, hcount⟩
      rw [hnext]
      simp [LoopStack.active]

/-- A run of a loop ends it after its iterations, or is still in one of them. -/
theorem Executing.run {base : List LoopLevel} {last iterations count : ℕ} (hx : x.Inv)
    (hloop : x.Executing base last iterations count)
    {events : List (OtbnEvent ImemAddrWidth)} (h : run OtbnLoops.step x events = some x') :
    x'.Executing base last iterations (count + events.countP (·.retiresAt last)) ∨
    ∃ early late y, events = early ++ late ∧ run OtbnLoops.step x early = some y ∧
      y.loops.stack = base ∧ count + early.countP (·.retiresAt last) = iterations := by
  induction events generalizing x count with
  | nil =>
    obtain rfl := Option.some.inj h
    exact .inl hloop
  | cons e events ih =>
    obtain ⟨x₁, hstep, hrun⟩ := Option.bind_eq_some_iff.mp h
    have hcount : ∀ events : List (OtbnEvent ImemAddrWidth),
        count + (e :: events).countP (·.retiresAt last) =
          count + (e.retiresAt last).toNat + events.countP (·.retiresAt last) := by
      intro events
      rw [List.countP_cons]
      cases e.retiresAt last
      · simp
      · simp
        omega
    obtain hloop | ⟨hbase, hdone⟩ := hloop.step hx hstep
    · obtain hloop | ⟨early, late, y, rfl, hearly, hy⟩ := ih (hx.step hstep) hloop hrun
      · exact .inl (by rw [hcount]; exact hloop)
      · refine .inr ⟨e :: early, late, y, rfl, ?_, ?_⟩
        · rw [run_cons, hstep]
          exact hearly
        · rw [hcount]
          exact hy
    · refine .inr ⟨[e], events, x₁, rfl, ?_, hbase, ?_⟩
      · rw [run_cons, hstep]
        rfl
      · rw [hcount]
        exact hdone

end Runs

/-- The loops of a run are those of the simulator on its trace. -/
theorem run_loops {x x' : OtbnLoops} {events : List (OtbnEvent ImemAddrWidth)}
    (h : run OtbnLoops.step x events = some x') :
    run (fun s e => LoopStack.step s e) x.loops events = some x'.loops := by
  induction events generalizing x with
  | nil =>
    obtain rfl := Option.some.inj h
    rfl
  | cons e events ih =>
    obtain ⟨x₁, hstep, hrun⟩ := Option.bind_eq_some_iff.mp h
    rw [run_cons, (step_eq_some hstep).2.2.1]
    exact ih hrun

/-- A loop that ends has executed the last instruction of its body once an iteration. -/
theorem countP_retiresAt {x₀ x₁ x₂ : OtbnLoops} (hx₀ : x₀.Inv) {addr : BitVec ImemAddrWidth}
    {iterations : BitVec 32} {bodysize : BitVec 12}
    {inside : addr.toNat + 4 < 2 ^ ImemAddrWidth} {late : List (OtbnEvent ImemAddrWidth)}
    (hstart : x₀.step (.loop addr iterations bodysize inside) = some x₁)
    (hrun : run OtbnLoops.step x₁ late = some x₂)
    (hbefore : ∀ early rest y, late = early ++ rest → rest ≠ [] →
      run OtbnLoops.step x₁ early = some y → x₀.loops.stack.length < y.loops.stack.length)
    (hend : x₂.loops.stack.length ≤ x₀.loops.stack.length) :
    late.countP (·.retiresAt (addr.toNat + 4 * (bodysize.toNat + 1))) = iterations.toNat := by
  have hx₁ := hx₀.step hstart
  have hloop : x₁.Executing x₀.loops.stack (addr.toNat + 4 * (bodysize.toNat + 1))
      iterations.toNat 0 := by
    obtain ⟨-, -, hstep, -⟩ := step_eq_some hstart
    rw [hx₀.active] at hstep
    obtain ⟨he, -⟩ | ⟨_, _, _, heq, -⟩ | ⟨_, _, _, heq, -⟩ | ⟨_, _, _, _, heq, hzero, -, -, -, h⟩ :=
      LoopStack.step_cases hstep
    · exact absurd he not_false
    · cases heq
    · cases heq
    · cases heq
      have hcount : iterations.toNat ≠ 0 := fun hc => hzero (BitVec.eq_of_toNat_eq hc)
      refine ⟨_, [], by rw [h]; rfl, ?_, ?_⟩
      · simp only [LoopLevel.init]
        omega
      · simp only [LoopLevel.init]
        omega
  obtain ⟨level, inner, hstack, -⟩ | ⟨early, rest, y, rfl, hearly, hy, hcount⟩ :=
    hloop.run hx₁ hrun
  · rw [hstack] at hend
    simp at hend
  · have hrest : rest = [] := by
      by_contra hne
      have hlt := hbefore early rest y rfl hne hearly
      rw [hy] at hlt
      exact Nat.lt_irrefl _ hlt
    rw [hrest, List.append_nil]
    omega

example : (run OtbnLoops.step start ([.loop 0#12 2 2 (by decide), .loop 4#12 3 0 (by decide),
    .retire 8#12, .stall 8#12, .retire 8#12, .retire 8#12, .retire 12#12,
    .loop 4#12 1 0 (by decide), .retire 8#12, .retire 12#12] : List (OtbnEvent 12))).map (fun x => (x.loops.stack, x.pc)) =
      some ([], 16) := by
  decide

end OtbnLoops

/-! ### Every trace -/

/-- On every trace the controller and the simulator both stop with a loop error or neither
does, and then they hold the same loops with the same iterations left, raise the same errors
and take the same jumps. A body whose loops nest is executed as often as its loop says. -/
theorem otbn_loops_agree (stack_storage : BitVec 3 → LoopAddrInfo ImemAddrWidth)
    (events : List (OtbnEvent ImemAddrWidth)) :
    ((run LoopController.step (.reset stack_storage) events = none ∧
        run (fun s e => LoopStack.step s e) .init events = none) ∨
      ∃ r s, run LoopController.step (.reset stack_storage) events = some r ∧
        run (fun s e => LoopStack.step s e) .init events = some s ∧
        r.depth = s.stack.length ∧
        (∀ k (l : LoopLevel), s.stack[k]? = some l → r.iterationsLeft k = l.restarts_left + 1) ∧
        ∀ e : OtbnEvent ImemAddrWidth, r.loopErr e = s.loopErr e ∧
          (r.loopErr e = false → (r.loopJump e).map BitVec.toNat = s.loopJump e)) ∧
    ∀ x₀, run OtbnLoops.step .start events = some x₀ →
      run (fun s e => LoopStack.step s e) .init events = some x₀.loops ∧
      ∀ (addr : BitVec ImemAddrWidth) iterations bodysize inside x₁
        (late : List (OtbnEvent ImemAddrWidth)) x₂,
        x₀.step (.loop addr iterations bodysize inside) = some x₁ →
        run OtbnLoops.step x₁ late = some x₂ →
        (∀ early rest y, late = early ++ rest → rest ≠ [] →
          run OtbnLoops.step x₁ early = some y →
          x₀.loops.stack.length < y.loops.stack.length) →
        x₂.loops.stack.length ≤ x₀.loops.stack.length →
        late.countP (·.retiresAt (addr.toNat + 4 * (bodysize.toNat + 1))) = iterations.toNat := by
  refine ⟨?_, fun x₀ hx₀ => ⟨OtbnLoops.run_loops hx₀, ?_⟩⟩
  · obtain h | ⟨r, s, hr, hs, h⟩ := (loopsAgree_init stack_storage).run events
    · exact .inl h
    · obtain ⟨stack, rfl⟩ : ∃ stack, s = LoopStack.active stack := ⟨s.stack, h.eq_active⟩
      refine .inr ⟨r, _, hr, hs, h.depth, fun k l hl => (h.level k l hl).left, fun e => ?_⟩
      refine ⟨h.loopErr e, fun herr => ?_⟩
      obtain ⟨s', hs'⟩ : ∃ s', (LoopStack.active stack).step e = some s' := by
        rw [LoopStack.step, if_neg (by rw [← h.loopErr e, herr]; exact Bool.false_ne_true)]
        exact ⟨_, rfl⟩
      exact (h.next hs').2
  · intro addr iterations bodysize inside x₁ late x₂ hstart hrun hbefore hend
    exact OtbnLoops.countP_retiresAt (OtbnLoops.inv_start.run hx₀) hstart hrun hbefore hend

end SecureBoot
