import SecureBoot.Otbn.Simulator

/-! What a fatal error does to the FSM of the OTBN simulator: where `stop` leads to, cycle by
cycle, and what holds from a fatal error on. -/

namespace SecureBoot

namespace Otbnsim

/-- The states behind a fatal error. -/
def FsmState.locking : FsmState → Bool
  | .WIPING_BAD => true
  | .LOCKED => true
  | _ => false

namespace OTBNState

/-! ### Stopping -/

/-- The next state after `stop`. -/
def stopNext (s : OTBNState) : FsmState :=
  if s.lock_immediately then .LOCKED
  else
    match s.fsm_state, s.init_sec_wipe_state with
    | .EXEC, _ => if s.should_lock then .WIPING_BAD else .WIPING_GOOD
    | .WIPING_BAD, _ => .WIPING_BAD
    | .WIPING_GOOD, _ => .WIPING_BAD
    | _, .DONE => .LOCKED
    | _, _ => s.next_fsm_state

/-- Whether `stop` has to run again in the next cycle. -/
def stopsAgain (s : OTBNState) : Bool :=
  match s.lock_immediately, s.fsm_state, s.init_sec_wipe_state with
  | true, _, _ => false
  | _, .EXEC, _ => false
  | _, .WIPING_BAD, _ => false
  | _, .WIPING_GOOD, _ => false
  | _, _, .IN_PROGRESS => true
  | _, _, _ => false

/-- The states that agree in what `stop` is decided by, apart from errors. -/
structure SameFsm (s t : OTBNState) : Prop where
  fsm_state : t.fsm_state = s.fsm_state
  next_fsm_state : t.next_fsm_state = s.next_fsm_state
  init : t.init_sec_wipe_state = s.init_sec_wipe_state
  urnd_running : t.urnd_running = s.urnd_running
  lock_immediately : t.lock_immediately = s.lock_immediately
  fatal_stops : t.fatal_stops = s.fatal_stops

theorem SameFsm.refl (s : OTBNState) : SameFsm s s := ⟨rfl, rfl, rfl, rfl, rfl, rfl⟩

theorem SameFsm.trans {s t u : OTBNState} (h : SameFsm s t) (h' : SameFsm t u) : SameFsm s u :=
  ⟨h'.fsm_state.trans h.fsm_state, h'.next_fsm_state.trans h.next_fsm_state,
    h'.init.trans h.init, h'.urnd_running.trans h.urnd_running,
    h'.lock_immediately.trans h.lock_immediately, h'.fatal_stops.trans h.fatal_stops⟩

/-- What `stop` does to the FSM. -/
structure Stops (s t : OTBNState) : Prop where
  fsm_state : t.fsm_state = s.fsm_state
  next_fsm_state : t.next_fsm_state = s.stopNext
  init : t.init_sec_wipe_state = s.init_sec_wipe_state
  urnd_running : t.urnd_running = s.urnd_running
  pending_halt : t.pending_halt = s.stopsAgain
  fatal_stops : t.fatal_stops =
    if s.should_lock then s.fatalStop :: s.fatal_stops else s.fatal_stops
  /-- Where `stop` does not assert a fatal error. -/
  unlocked : s.should_lock = false → s.fsm_state = .EXEC ∨ s.init_sec_wipe_state = .NOT_DONE

/-- What `stop_if_pending_halt` does to the FSM. -/
structure Halts (s t : OTBNState) : Prop where
  fsm_state : t.fsm_state = s.fsm_state
  next_fsm_state : t.next_fsm_state = if s.pending_halt then s.stopNext else s.next_fsm_state
  init : t.init_sec_wipe_state = s.init_sec_wipe_state
  urnd_running : t.urnd_running = s.urnd_running
  pending_halt : t.pending_halt = (s.pending_halt && s.stopsAgain)
  fatal_stops : t.fatal_stops =
    if s.pending_halt && s.should_lock then s.fatalStop :: s.fatal_stops else s.fatal_stops
  unlocked : s.pending_halt = true → s.should_lock = false →
    s.fsm_state = .EXEC ∨ s.init_sec_wipe_state = .NOT_DONE

/-- The end of a cycle: `next` is committed. -/
structure Commits (next : FsmState) (s t : OTBNState) : Prop where
  fsm_state : t.fsm_state = next
  next_fsm_state : t.next_fsm_state = next
  init : t.init_sec_wipe_state = s.init_sec_wipe_state
  pending_halt : t.pending_halt = s.pending_halt
  fatal_stops : t.fatal_stops = s.fatal_stops

end OTBNState

open OTBNState

namespace OTBNSim

variable {sim sim' : OTBNSim} {cycle : InsnCycle}

/-- The next state of `step_idle`, which may begin the initial secure wipe. -/
def idleNext (v : OTBNState) : FsmState :=
  if v.init_sec_wipe_state = .IN_PROGRESS ∧ v.urnd_running = true then
    if v.fsm_state = .LOCKED then .WIPING_BAD else .WIPING_GOOD
  else v.next_fsm_state

/-- The states that agree in the FSM and the pending halt. -/
structure SameWipe (s t : OTBNState) : Prop where
  fsm_state : t.fsm_state = s.fsm_state
  next_fsm_state : t.next_fsm_state = s.next_fsm_state
  init : t.init_sec_wipe_state = s.init_sec_wipe_state
  pending_halt : t.pending_halt = s.pending_halt
  fatal_stops : t.fatal_stops = s.fatal_stops

theorem SameWipe.trans {s t u : OTBNState} (h : SameWipe s t) (h' : SameWipe t u) :
    SameWipe s u :=
  ⟨h'.fsm_state.trans h.fsm_state, h'.next_fsm_state.trans h.next_fsm_state,
    h'.init.trans h.init, h'.pending_halt.trans h.pending_halt,
    h'.fatal_stops.trans h.fatal_stops⟩

/-- What a cycle of a wipe does before it may stop. -/
structure Wipes (s u : OTBNState) : Prop where
  fsm_state : u.fsm_state = if s.pending_halt then .WIPING_BAD else s.fsm_state
  pending_halt : u.pending_halt = s.pending_halt
  fatal_stops : u.fatal_stops = s.fatal_stops
  next_fsm_state : u.next_fsm_state = s.next_fsm_state ∨ u.next_fsm_state = u.fsm_state ∨
    u.next_fsm_state = .LOCKED ∨ u.fsm_state = .WIPING_GOOD ∧ u.next_fsm_state = .IDLE
  init : u.init_sec_wipe_state = s.init_sec_wipe_state ∨ u.init_sec_wipe_state = .DONE

end OTBNSim

/-! ### From a fatal error on -/

/-- The fatal errors that lock the FSM in the cycle they are met. -/
def FatalStop.Decisive (stop : FatalStop) : Prop :=
  match stop.fsm_state with
  | .EXEC | .WIPING_GOOD | .WIPING_BAD | .LOCKED => True
  | .PRE_EXEC | .MEM_SEC_WIPE =>
    stop.init_sec_wipe_state = .DONE ∨ stop.lock_immediately = true
  | .IDLE => stop.init_sec_wipe_state = .DONE ∨ stop.lock_immediately = true ∧
      ¬(stop.init_sec_wipe_state = .IN_PROGRESS ∧ stop.urnd_running = true)

/-- The fatal errors that wait in `IDLE` for the initial secure wipe. -/
def FatalStop.Waits (stop : FatalStop) : Prop :=
  stop.fsm_state = .IDLE ∧ stop.init_sec_wipe_state = .IN_PROGRESS ∧
    stop.lock_immediately = false

namespace OTBNState

/-- What holds between calls. -/
structure Inv (s : OTBNState) : Prop where
  settled : s.next_fsm_state = s.fsm_state ∨ s.fsm_state = .IDLE ∨ s.fsm_state = .MEM_SEC_WIPE
  locked : ∀ stop ∈ s.fatal_stops, stop.Decisive → s.fsm_state.locking = true

variable {s t : OTBNState}

theorem locking_stopNext (hfsm : s.fsm_state.locking = true)
    (hnext : s.fsm_state = .LOCKED → s.next_fsm_state.locking = true) :
    s.stopNext.locking = true := by
  unfold stopNext
  cases hstate : s.fsm_state <;> rw [hstate] at hfsm hnext <;> try cases hfsm
  all_goals
    cases s.lock_immediately <;> cases s.init_sec_wipe_state <;> first | rfl | exact hnext rfl

/-- A fatal error locks where it is decisive. -/
theorem Halts.locking (h : Halts s t) (hpending : s.pending_halt = true)
    (hshould : s.should_lock = true) (hdecisive : s.fatalStop.Decisive)
    (hnext : s.fsm_state = .LOCKED → s.next_fsm_state.locking = true) :
    t.next_fsm_state.locking = true := by
  rw [h.next_fsm_state, hpending, if_pos rfl]
  by_cases hlocking : s.fsm_state.locking = true
  · exact locking_stopNext hlocking hnext
  · unfold FatalStop.Decisive fatalStop at hdecisive
    unfold stopNext
    cases hlock : s.lock_immediately with
    | true => rfl
    | false =>
      cases hstate : s.fsm_state <;> simp only [hstate, hlock, Bool.false_eq_true, false_and,
        or_false, FsmState.locking, not_true_eq_false] at hdecisive hlocking <;>
        simp only [hshould, hdecisive, Bool.false_eq_true, if_false, if_true,
          FsmState.locking]

end OTBNState

namespace OTBNSim

variable {sim sim' : OTBNSim} {cycle : InsnCycle}

/-- What a step does: `u` is where it may stop, `v` is behind that. -/
structure StepEnds (s u v s' : OTBNState) (next : FsmState) : Prop where
  halts : Halts u v
  commits : Commits next v s'
  fatal_stops : u.fatal_stops = s.fatal_stops
  fsm_state : u.fsm_state = s.fsm_state ∨ u.fsm_state = .WIPING_BAD
  init : u.init_sec_wipe_state = s.init_sec_wipe_state ∨ u.init_sec_wipe_state = .DONE
  locking : s.fsm_state.locking = true → next.locking = true
  decisive : u.pending_halt = true → u.should_lock = true → u.fatalStop.Decisive →
    next.locking = true
  idle : s.fsm_state = .IDLE →
    SameFsm s u ∧ (s.pending_halt = true → u.pending_halt = true) ∧ next = idleNext v
  good : s.fsm_state = .WIPING_GOOD →
    (∃ t, SameFsm s t ∧ (s.pending_halt = true → t.pending_halt = true) ∧ Wipes t u) ∧
      next = v.next_fsm_state

end OTBNSim

/-! ### Calls -/

/-- The calls that leave the FSM to the next step. -/
def Call.quiet : Call → Bool
  | .start | .start_mem_wipe _ | .step _ | .on_otp_cdc_done => false
  | _ => true

/-- What such a call does. -/
structure Quiet (c : Call) (s t : OTBNState) : Prop where
  fsm_state : t.fsm_state = s.fsm_state
  next_fsm_state : t.next_fsm_state = s.next_fsm_state
  fatal_stops : t.fatal_stops = s.fatal_stops
  pending_halt : s.pending_halt = true → t.pending_halt = true
  init : t.init_sec_wipe_state = s.init_sec_wipe_state ∨ c = .initial_secure_wipe

/-- The commands. -/
def Call.command : Call → Bool
  | .start | .start_mem_wipe _ => true
  | _ => false

/-- The halt for a fatal error that came before the URND seed of the initial secure wipe. -/
def OTBNState.Waiting (s : OTBNState) : Prop :=
  s.pending_halt = true ∧ (s.fsm_state = .WIPING_GOOD ∨
    s.fsm_state = .IDLE ∧ s.next_fsm_state = .IDLE ∧ s.init_sec_wipe_state = .IN_PROGRESS)

/-- What holds between orderly calls. -/
structure OTBNState.OrderlyInv (s : OTBNState) : Prop where
  inv : Inv s
  early : s.init_sec_wipe_state ≠ .DONE → s.next_fsm_state = s.fsm_state ∧
    (s.fsm_state = .IDLE ∨ s.fsm_state = .WIPING_GOOD ∨ s.fsm_state.locking = true)
  held : (∀ stop ∈ s.fatal_stops, stop.Decisive ∨ stop.Waits) → s.fatal_stops ≠ [] →
    s.fsm_state.locking = true ∨ s.Waiting

namespace OTBNSim

variable {sim sim' : OTBNSim} {cycle : InsnCycle}

/-- Before the initial secure wipe is done, `stop` leaves the idle state only at once. -/
theorem stopNext_of_idle {s : OTBNState} (hfsm : s.fsm_state = .IDLE)
    (hinit : s.init_sec_wipe_state ≠ .DONE) :
    s.stopNext = if s.lock_immediately then .LOCKED else s.next_fsm_state := by
  unfold stopNext
  rw [hfsm]
  cases h : s.init_sec_wipe_state with
  | DONE => exact absurd h hinit
  | _ => rfl

theorem StepEnds.init_ne {s u v s' : OTBNState} {next : FsmState} (h : StepEnds s u v s' next)
    (hinit : s'.init_sec_wipe_state ≠ .DONE) : s.init_sec_wipe_state ≠ .DONE := by
  rw [h.commits.init, h.halts.init] at hinit
  obtain heq | heq := h.init
  · rwa [heq] at hinit
  · exact absurd heq hinit

theorem StepEnds.early {s u v s' : OTBNState} {next : FsmState} (h : StepEnds s u v s' next)
    (hord : OrderlyInv s) (hinit : s'.init_sec_wipe_state ≠ .DONE) :
    next = .IDLE ∨ next = .WIPING_GOOD ∨ next.locking = true := by
  have hne := h.init_ne hinit
  obtain ⟨hnext, hfsm | hfsm | hfsm⟩ := hord.early hne
  · obtain ⟨hsame, -, rfl⟩ := h.idle hfsm
    unfold idleNext
    split_ifs with _ hlocked
    · exact .inr (.inr rfl)
    · exact .inr (.inl rfl)
    · rw [h.halts.next_fsm_state,
        stopNext_of_idle (hsame.fsm_state.trans hfsm) (hsame.init ▸ hne), hsame.next_fsm_state,
        hnext, hfsm]
      split_ifs
      · exact .inr (.inr rfl)
      · exact .inl rfl
      · exact .inl rfl
  · obtain ⟨⟨t, hsame, -, hwipes⟩, rfl⟩ := h.good hfsm
    rw [h.halts.next_fsm_state]
    split_ifs with hpending
    · have hbad : u.fsm_state = .WIPING_BAD := by
        rw [hwipes.fsm_state, ← hwipes.pending_halt, hpending, if_pos rfl]
      exact .inr (.inr (locking_stopNext (by rw [hbad]; rfl) (by rw [hbad]; nofun)))
    · obtain heq | heq | heq | ⟨-, heq⟩ := hwipes.next_fsm_state
      · exact .inr (.inl (heq.trans (hsame.next_fsm_state.trans (hnext.trans hfsm))))
      · rw [hwipes.fsm_state, ← hwipes.pending_halt, if_neg hpending, hsame.fsm_state,
          hfsm] at heq
        exact .inr (.inl heq)
      · rw [heq]
        exact .inr (.inr rfl)
      · exact .inl heq
  · exact .inr (.inr (h.locking hfsm))

/-- An error that waits for the URND seed keeps the halt pending. -/
theorem StepEnds.waiting {s u v s' : OTBNState} {next : FsmState} (h : StepEnds s u v s' next)
    (hfsm : s.fsm_state = .IDLE) (hnext : s.next_fsm_state = .IDLE)
    (hpending : u.pending_halt = true) (hwaits : u.fatalStop.Waits) : s'.Waiting := by
  obtain ⟨hsame, -, heq⟩ := h.idle hfsm
  obtain ⟨hidle, hinit, hlock⟩ := hwaits
  have hagain : u.stopsAgain = true := by
    unfold stopsAgain
    rw [show u.lock_immediately = false from hlock, show u.fsm_state = .IDLE from hidle,
      show u.init_sec_wipe_state = .IN_PROGRESS from hinit]
  have hv : v.next_fsm_state = .IDLE := by
    rw [h.halts.next_fsm_state, hpending, if_pos rfl, stopNext_of_idle hidle (by
      rw [show u.init_sec_wipe_state = .IN_PROGRESS from hinit]
      nofun), show u.lock_immediately = false from hlock, hsame.next_fsm_state, hnext]
    rfl
  refine ⟨by rw [h.commits.pending_halt, h.halts.pending_halt, hpending, hagain]; rfl, ?_⟩
  rw [h.commits.fsm_state, h.commits.next_fsm_state, h.commits.init, h.halts.init, heq]
  unfold idleNext
  rw [h.halts.fsm_state, show u.fsm_state = .IDLE from hidle, hv]
  split_ifs with _ hlocked
  · cases hlocked
  · exact .inl rfl
  · exact .inr ⟨rfl, rfl, hinit⟩

end OTBNSim

end Otbnsim

end SecureBoot
