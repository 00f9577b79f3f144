import SecureBoot.Lib.TwoPhase

/-! `prim_subreg_shadow`, a register that is written twice. The staged and the shadow copy hold the
complement of the value, each behind an access filter of its own. -/

namespace SecureBoot

/-- `sw_access_e`. -/
inductive SwAccessE where
  | SwAccessRW
  | SwAccessRO
  | SwAccessWO
  | SwAccessW1C
  | SwAccessW1S
  | SwAccessW0C
  | SwAccessRC
deriving DecidableEq

open SwAccessE

section Subreg

variable {DW : ℕ} (SwAccess : SwAccessE) (we : Bool) (wd : BitVec DW) (de : Bool)
  (d q : BitVec DW)

/-- `wr_en` and `wr_data`. -/
def prim_subreg_arb : Bool × BitVec DW :=
  match SwAccess with
  | .SwAccessRW | .SwAccessWO => (we || de, if we then wd else d)
  | .SwAccessRO => (de, d)
  | .SwAccessW1S => (we || de, (if de then d else q) ||| if we then wd else 0)
  | .SwAccessW1C => (we || de, (if de then d else q) &&& if we then ~~~wd else BitVec.allOnes DW)
  | .SwAccessW0C => (we || de, (if de then d else q) &&& if we then wd else BitVec.allOnes DW)
  | .SwAccessRC => (we || de, (if de then d else q) &&& if we then 0 else BitVec.allOnes DW)

/-- The flop of `prim_subreg` after a clock edge. -/
def prim_subreg : BitVec DW :=
  if (prim_subreg_arb SwAccess we wd de d q).1 then (prim_subreg_arb SwAccess we wd de d q).2
  else q

end Subreg

/-- The parameters, as the module asserts them. -/
structure ShadowParams (DW : ℕ) where
  SwAccess : SwAccessE
  RESVAL : BitVec DW
  CheckSwAccessIsLegal_A :
    SwAccess ∈ [SwAccessRW, SwAccessRO, SwAccessWO, SwAccessW1S, SwAccessW0C]

structure ShadowIn (DW : ℕ) where
  re : Bool
  we : Bool
  wd : BitVec DW
  de : Bool
  d : BitVec DW

/-- The registers. -/
structure SubregShadow (DW : ℕ) where
  phase_q : Bool
  staged_q : BitVec DW
  shadow_q : BitVec DW
  committed_q : BitVec DW

def InvertedSwAccess (SwAccess : SwAccessE) : SwAccessE :=
  if SwAccess = SwAccessW1S then SwAccessW0C
  else if SwAccess = SwAccessW0C then SwAccessW1S
  else SwAccess

def StagedSwAccess (SwAccess : SwAccessE) : SwAccessE :=
  if SwAccess = SwAccessW1S then SwAccessRW
  else if SwAccess = SwAccessW0C then SwAccessRW
  else SwAccess

namespace SubregShadow

variable {DW : ℕ} (p : ShadowParams DW)

/-- Both resets together. -/
def reset : SubregShadow DW := ⟨false, ~~~p.RESVAL, ~~~p.RESVAL, p.RESVAL⟩

section Signals

variable (s : SubregShadow DW) (i : ShadowIn DW)

def wr_en : Bool := (prim_subreg_arb p.SwAccess i.we i.wd i.de i.d s.committed_q).1

def wr_data : BitVec DW := (prim_subreg_arb p.SwAccess i.we i.wd i.de i.d s.committed_q).2

def phase_clear : Bool := if p.SwAccess = SwAccessRO then false else i.re

def err_update : Bool :=
  if ~~~s.staged_q ≠ wr_data p s i then s.phase_q && wr_en p s i else false

def err_storage : Bool := decide (~~~s.shadow_q ≠ s.committed_q)

def staged_we : Bool := i.we && !s.phase_q && !s.err_storage

def staged_de : Bool := i.de && !s.phase_q && !s.err_storage

def shadow_we : Bool := i.we && s.phase_q && !err_update p s i && !s.err_storage

def shadow_de : Bool := i.de && s.phase_q && !err_update p s i && !s.err_storage

/-- A clock edge. -/
def clock : SubregShadow DW where
  phase_q :=
    if wr_en p s i && !s.err_storage then !s.phase_q
    else if phase_clear p i || s.err_storage then false
    else s.phase_q
  staged_q := prim_subreg (StagedSwAccess p.SwAccess) (s.staged_we i) (~~~wr_data p s i)
    (s.staged_de i) (~~~i.d) s.staged_q
  shadow_q := prim_subreg (InvertedSwAccess p.SwAccess) (shadow_we p s i) s.staged_q
    (shadow_de p s i) s.staged_q s.shadow_q
  committed_q := prim_subreg p.SwAccess (shadow_we p s i) (wr_data p s i) (shadow_de p s i) i.d
    s.committed_q

/-- `qe`, which announces a commit. -/
def qe : Bool :=
  (prim_subreg_arb p.SwAccess (shadow_we p s i) (wr_data p s i) (shadow_de p s i) i.d
    s.committed_q).1

/-- `ds`, the value after the edge. -/
def ds : BitVec DW :=
  if qe p s i then
    (prim_subreg_arb p.SwAccess (shadow_we p s i) (wr_data p s i) (shadow_de p s i) i.d
      s.committed_q).2
  else s.committed_q

end Signals

/-! ### The copies -/

section Copies

variable {p} {s : SubregShadow DW} {i : ShadowIn DW}

/-- A copy whose write enables are off keeps its word. -/
theorem prim_subreg_off (SwAccess : SwAccessE) (wd d q : BitVec DW) :
    prim_subreg SwAccess false wd false d q = q := by
  cases SwAccess <;> rfl

/-- The filter is a projection: what it lets through, it lets through again. -/
theorem prim_subreg_wr_data {SwAccess : SwAccessE} {we de : Bool} {wd d q : BitVec DW}
    (hlegal : SwAccess ∈ [SwAccessRW, SwAccessRO, SwAccessWO, SwAccessW1S, SwAccessW0C])
    (hen : (prim_subreg_arb SwAccess we wd de d q).1 = true) :
    prim_subreg SwAccess we (prim_subreg_arb SwAccess we wd de d q).2 de d q =
      (prim_subreg_arb SwAccess we wd de d q).2 := by
  cases SwAccess <;> cases we <;> cases de <;>
    simp_all [prim_subreg, prim_subreg_arb, ← BitVec.or_assoc, ← BitVec.and_assoc]

/-- The staged copy takes the complement of every first write. -/
theorem prim_subreg_staged {SwAccess : SwAccessE} {we de : Bool} {wd d q staged_q : BitVec DW}
    (hlegal : SwAccess ∈ [SwAccessRW, SwAccessRO, SwAccessWO, SwAccessW1S, SwAccessW0C])
    (hen : (prim_subreg_arb SwAccess we wd de d q).1 = true) :
    prim_subreg (StagedSwAccess SwAccess) we (~~~(prim_subreg_arb SwAccess we wd de d q).2) de
      (~~~d) staged_q = ~~~(prim_subreg_arb SwAccess we wd de d q).2 := by
  cases SwAccess <;> cases we <;> cases de <;>
    simp_all [prim_subreg, prim_subreg_arb, StagedSwAccess]

/-- Beside the complement of the value, the inverted filter lets the complement through. -/
theorem prim_subreg_inverted {SwAccess : SwAccessE} {we de : Bool} {wd d q : BitVec DW}
    (hlegal : SwAccess ∈ [SwAccessRW, SwAccessRO, SwAccessWO, SwAccessW1S, SwAccessW0C])
    (hen : (prim_subreg_arb SwAccess we wd de d q).1 = true) :
    prim_subreg (InvertedSwAccess SwAccess) we (~~~(prim_subreg_arb SwAccess we wd de d q).2) de
      (~~~(prim_subreg_arb SwAccess we wd de d q).2) (~~~q) =
        ~~~(prim_subreg_arb SwAccess we wd de d q).2 := by
  cases SwAccess <;> cases we <;> cases de <;>
    simp_all [prim_subreg, prim_subreg_arb, InvertedSwAccess, BitVec.not_or, BitVec.not_and,
      ← BitVec.and_assoc, ← BitVec.or_assoc]

theorem arb_wr_en (SwAccess : SwAccessE) (we : Bool) (wd : BitVec DW) (de : Bool)
    (d q : BitVec DW) : (prim_subreg_arb SwAccess we wd de d q).1 =
      (de || (we && decide (SwAccess ≠ SwAccessRO))) := by
  cases SwAccess <;> simp [prim_subreg_arb, Bool.or_comm]

theorem inverted_ne_RO {SwAccess : SwAccessE} :
    InvertedSwAccess SwAccess ≠ SwAccessRO ↔ SwAccess ≠ SwAccessRO := by
  cases SwAccess <;> simp [InvertedSwAccess]

theorem staged_ne_RO {SwAccess : SwAccessE} :
    StagedSwAccess SwAccess ≠ SwAccessRO ↔ SwAccess ≠ SwAccessRO := by
  cases SwAccess <;> simp [StagedSwAccess]

/-- A write that the filter of one copy drops is dropped by that of another. -/
theorem prim_subreg_keeps {A B : SwAccessE} {we de : Bool} {wd d q : BitVec DW}
    (hAB : A ≠ SwAccessRO ↔ B ≠ SwAccessRO) (hen : (prim_subreg_arb B we wd de d q).1 = false)
    (wd' d' q' : BitVec DW) : prim_subreg A we wd' de d' q' = q' := by
  rw [arb_wr_en] at hen
  rw [prim_subreg, arb_wr_en, decide_eq_decide.mpr hAB, hen]
  rfl

/-- Write enables behind a common gate. -/
theorem prim_subreg_gate (SwAccess : SwAccessE) (we de g : Bool) (wd d q : BitVec DW) :
    prim_subreg SwAccess (we && g) wd (de && g) d q =
      if g then prim_subreg SwAccess we wd de d q else q := by
  cases g with
  | false => simp [prim_subreg_off]
  | true => simp

/-- The staged copy takes first writes. -/
theorem clock_staged_q : (clock p s i).staged_q =
    if wr_en p s i && (!s.phase_q && !s.err_storage) then ~~~wr_data p s i else s.staged_q := by
  simp only [clock, staged_we, staged_de, Bool.and_assoc, prim_subreg_gate]
  cases hen : wr_en p s i with
  | false =>
    rw [prim_subreg_keeps staged_ne_RO hen]
    simp
  | true =>
    rw [wr_data, prim_subreg_staged p.CheckSwAccessIsLegal_A hen, Bool.true_and]

/-- The value takes second writes that agree with the staged copy. -/
theorem clock_committed_q : (clock p s i).committed_q =
    if wr_en p s i && (s.phase_q && (!err_update p s i && !s.err_storage)) then wr_data p s i
    else s.committed_q := by
  simp only [clock, shadow_we, shadow_de, Bool.and_assoc, prim_subreg_gate]
  cases hen : wr_en p s i with
  | false =>
    rw [prim_subreg_keeps Iff.rfl hen]
    simp
  | true =>
    rw [wr_data, prim_subreg_wr_data p.CheckSwAccessIsLegal_A hen, Bool.true_and]

theorem err_storage_eq_false : s.err_storage = false ↔ s.shadow_q = ~~~s.committed_q := by
  rw [err_storage, decide_eq_false_iff_not, not_not]
  constructor
  · intro h
    rw [← h, BitVec.not_not]
  · intro h
    rw [h, BitVec.not_not]

theorem err_update_eq_false (hphase : s.phase_q = true) (hen : wr_en p s i = true) :
    err_update p s i = false ↔ s.staged_q = ~~~wr_data p s i := by
  rw [err_update, hphase, hen]
  constructor
  · intro h
    by_contra hne
    rw [if_pos fun heq => hne (by rw [← heq, BitVec.not_not])] at h
    cases h
  · intro h
    rw [h, BitVec.not_not]
    simp

/-- The shadow copy stays the complement of the value. -/
theorem clock_shadow_q (h : s.shadow_q = ~~~s.committed_q) :
    (clock p s i).shadow_q = ~~~(clock p s i).committed_q := by
  rw [clock_committed_q]
  simp only [clock, shadow_we, shadow_de, Bool.and_assoc, prim_subreg_gate]
  cases hen : wr_en p s i with
  | false =>
    rw [prim_subreg_keeps inverted_ne_RO hen]
    simpa using h
  | true =>
    rw [Bool.true_and]
    split_ifs with hgate
    · simp only [Bool.and_eq_true, Bool.not_eq_true'] at hgate
      obtain ⟨hphase, hupdate, -⟩ := hgate
      rw [(err_update_eq_false hphase hen).mp hupdate, h, wr_data,
        prim_subreg_inverted p.CheckSwAccessIsLegal_A hen]
    · exact h

end Copies

/-! ### Two phases -/

section Phases

variable {s : SubregShadow DW} {i : ShadowIn DW}

/-- The value and the pending write. -/
def twoPhase (s : SubregShadow DW) : TwoPhase (BitVec DW) :=
  ⟨s.committed_q, if s.phase_q then some (~~~s.staged_q) else none⟩

def event (s : SubregShadow DW) (i : ShadowIn DW) : TwoPhase.Event (BitVec DW) :=
  ⟨if wr_en p s i then some (wr_data p s i) else none, phase_clear p i⟩

variable {p}

/-- Beside an intact shadow copy, the register is a two-phase one. -/
theorem twoPhase_clock (h : s.shadow_q = ~~~s.committed_q) :
    (clock p s i).twoPhase = s.twoPhase.next (event p s i) := by
  have hstorage : s.err_storage = false := err_storage_eq_false.mpr h
  have hphase' : (clock p s i).phase_q = if wr_en p s i then !s.phase_q
      else if phase_clear p i then false else s.phase_q := by
    rw [clock, hstorage]
    simp
  rw [twoPhase, hphase', clock_staged_q, clock_committed_q, hstorage]
  cases hen : wr_en p s i with
  | false =>
    have hwrite : (event p s i).write = none := by simp [event, hen]
    rw [TwoPhase.next_none hwrite]
    cases hclear : phase_clear p i <;> cases hphase : s.phase_q <;>
      simp [event, hclear, twoPhase, hphase]
  | true =>
    have hwrite : (event p s i).write = some (wr_data p s i) := by simp [event, hen]
    cases hphase : s.phase_q with
    | false =>
      rw [TwoPhase.next_first hwrite (by simp [twoPhase, hphase])]
      simp [twoPhase]
    | true =>
      rw [TwoPhase.next_second hwrite (by simp [twoPhase, hphase]; rfl)]
      cases hupdate : err_update p s i with
      | false =>
        have hstaged := (err_update_eq_false hphase hen).mp hupdate
        simp [hstaged]
      | true =>
        have hstaged : ¬ ~~~s.staged_q = wr_data p s i := by
          intro heq
          simp [err_update, heq] at hupdate
        simp [hstaged, twoPhase]

end Phases

/-! ### Runs -/

section Run

variable {p : ShadowParams DW} {inputs : ℕ → ShadowIn DW} {m n : ℕ}

/-- The registers in a cycle, from a state on. -/
def runFrom (p : ShadowParams DW) (s : SubregShadow DW) (inputs : ℕ → ShadowIn DW) :
    ℕ → SubregShadow DW :=
  Mealy.stateAt (clock p) s inputs

theorem shadow_runFrom (n : ℕ) : (runFrom p (reset p) inputs n).shadow_q =
    ~~~(runFrom p (reset p) inputs n).committed_q := by
  induction n with
  | zero => rfl
  | succ n ih => exact clock_shadow_q ih

/-- The effective writes and the reads of a run. -/
def events (p : ShadowParams DW) (inputs : ℕ → ShadowIn DW) (n : ℕ) :
    TwoPhase.Event (BitVec DW) :=
  event p (runFrom p (reset p) inputs n) (inputs n)

/-- The run is one of the two-phase register. -/
theorem twoPhase_runFrom (n : ℕ) : (runFrom p (reset p) inputs n).twoPhase =
    Mealy.stateAt TwoPhase.next ⟨p.RESVAL, none⟩ (events p inputs) n := by
  induction n with
  | zero => rfl
  | succ n ih =>
    rw [Mealy.stateAt_succ, ← ih]
    exact twoPhase_clock (shadow_runFrom n)

theorem events_write_eq_none : (events p inputs n).write = none ↔
    wr_en p (runFrom p (reset p) inputs n) (inputs n) = false := by
  cases hen : wr_en p (runFrom p (reset p) inputs n) (inputs n) <;> simp [events, event, hen]

theorem events_write_eq_some {v : BitVec DW} : (events p inputs n).write = some v ↔
    wr_en p (runFrom p (reset p) inputs n) (inputs n) = true ∧
      wr_data p (runFrom p (reset p) inputs n) (inputs n) = v := by
  cases hen : wr_en p (runFrom p (reset p) inputs n) (inputs n) <;> simp [events, event, hen]

theorem pending_eq_none {s : SubregShadow DW} :
    s.twoPhase.pending = none ↔ s.phase_q = false := by
  cases hphase : s.phase_q <;> simp [twoPhase, hphase]

/-- An effective write in phase 0 and the next effective write, with no read in between that
clears the phase. -/
structure WritePair (p : ShadowParams DW) (inputs : ℕ → ShadowIn DW) (m n : ℕ) : Prop where
  lt : m < n
  phase : (runFrom p (reset p) inputs m).phase_q = false
  first : wr_en p (runFrom p (reset p) inputs m) (inputs m) = true
  second : wr_en p (runFrom p (reset p) inputs n) (inputs n) = true
  between : ∀ l, m < l → l < n →
    wr_en p (runFrom p (reset p) inputs l) (inputs l) = false ∧ phase_clear p (inputs l) = false

theorem WritePair.quiet (h : WritePair p inputs m n) : TwoPhase.Quiet (events p inputs) m n :=
  fun l hl hln => ⟨events_write_eq_none.mpr (h.between l hl hln).1, (h.between l hl hln).2⟩

/-- The value changes only by the second of two equal writes in a row. -/
theorem writePair_of_committed_ne (h : (runFrom p (reset p) inputs (n + 1)).committed_q ≠
    (runFrom p (reset p) inputs n).committed_q) :
    ∃ m, WritePair p inputs m n ∧ wr_data p (runFrom p (reset p) inputs m) (inputs m) =
      wr_data p (runFrom p (reset p) inputs n) (inputs n) := by
  have hvalue (n : ℕ) : (runFrom p (reset p) inputs n).committed_q =
      (Mealy.stateAt TwoPhase.next ⟨p.RESVAL, none⟩ (events p inputs) n).value := by
    rw [← twoPhase_runFrom]
    rfl
  rw [hvalue, hvalue] at h
  obtain ⟨m, hmn, v, hfirst, hwrite_m, hwrite_n, hquiet, -⟩ := TwoPhase.writes_of_value_ne rfl h
  rw [← twoPhase_runFrom] at hfirst
  obtain ⟨hen_m, hdata_m⟩ := events_write_eq_some.mp hwrite_m
  obtain ⟨hen_n, hdata_n⟩ := events_write_eq_some.mp hwrite_n
  refine ⟨m, ⟨hmn, pending_eq_none.mp hfirst, hen_m, hen_n, fun l hl hln => ?_⟩,
    hdata_m.trans hdata_n.symm⟩
  obtain ⟨hwrite_l, hclear_l⟩ := hquiet l hl hln
  exact ⟨events_write_eq_none.mp hwrite_l, hclear_l⟩

/-- The second write of a pair commits the first, or reports that the two differ. -/
theorem WritePair.outcome (h : WritePair p inputs m n) :
    (runFrom p (reset p) inputs (n + 1)).phase_q = false ∧
      err_update p (runFrom p (reset p) inputs n) (inputs n) =
        decide (wr_data p (runFrom p (reset p) inputs m) (inputs m) ≠
          wr_data p (runFrom p (reset p) inputs n) (inputs n)) ∧
      (runFrom p (reset p) inputs (n + 1)).committed_q =
        if wr_data p (runFrom p (reset p) inputs m) (inputs m) =
            wr_data p (runFrom p (reset p) inputs n) (inputs n) then
          wr_data p (runFrom p (reset p) inputs n) (inputs n)
        else (runFrom p (reset p) inputs n).committed_q := by
  have hfirst := events_write_eq_some.mpr ⟨h.first, rfl⟩
  have hsecond := events_write_eq_some.mpr ⟨h.second, rfl⟩
  have hphase : (Mealy.stateAt TwoPhase.next ⟨p.RESVAL, none⟩ (events p inputs) m).pending =
      none := by
    rw [← twoPhase_runFrom]
    exact pending_eq_none.mpr h.phase
  have hbefore := TwoPhase.stateAt_of_quiet h.lt hphase hfirst h.quiet
  have hafter := TwoPhase.stateAt_of_second h.lt hphase hfirst h.quiet hsecond
  rw [← twoPhase_runFrom, ← twoPhase_runFrom] at hafter
  rw [← twoPhase_runFrom n] at hbefore
  have hpending := congrArg TwoPhase.pending hbefore
  have hvalue := congrArg TwoPhase.value hafter
  refine ⟨pending_eq_none.mp (congrArg TwoPhase.pending hafter), ?_, hvalue⟩
  cases hphase_n : (runFrom p (reset p) inputs n).phase_q with
  | false => simp [twoPhase, hphase_n] at hpending
  | true =>
    have hstaged : ~~~(runFrom p (reset p) inputs n).staged_q =
        wr_data p (runFrom p (reset p) inputs m) (inputs m) := by
      simpa [twoPhase, hphase_n] using hpending
    rw [err_update, hstaged, hphase_n, h.second]
    by_cases heq : wr_data p (runFrom p (reset p) inputs m) (inputs m) =
        wr_data p (runFrom p (reset p) inputs n) (inputs n)
    · simp [heq]
    · simp [heq]

/-- A storage error stops the copies that it compares. -/
theorem clock_of_err_storage {s : SubregShadow DW} {i : ShadowIn DW}
    (h : s.err_storage = true) : (clock p s i).committed_q = s.committed_q ∧
      (clock p s i).err_storage = true := by
  have hcommitted : (clock p s i).committed_q = s.committed_q := by
    rw [clock_committed_q, h]
    simp
  have hshadow : (clock p s i).shadow_q = s.shadow_q := by
    simp only [clock, shadow_we, shadow_de, h, Bool.not_true, Bool.and_false, prim_subreg_off]
  rw [err_storage, hcommitted, hshadow]
  exact ⟨rfl, h⟩

theorem runFrom_of_err_storage {s : SubregShadow DW} (h : s.err_storage = true) (n : ℕ) :
    (runFrom p s inputs n).committed_q = s.committed_q ∧
      (runFrom p s inputs n).err_storage = true := by
  induction n with
  | zero => exact ⟨rfl, h⟩
  | succ n ih =>
    obtain ⟨hcommitted, hstorage⟩ := clock_of_err_storage (p := p) (i := inputs n) ih.2
    exact ⟨hcommitted.trans ih.1, hstorage⟩

/-- The shadow register in every run from reset, and after a storage error in every run from any
state. -/
theorem prim_subreg_shadow_commits (p : ShadowParams DW) (inputs : ℕ → ShadowIn DW) :
    (∀ n, (runFrom p (reset p) inputs n).shadow_q = ~~~(runFrom p (reset p) inputs n).committed_q ∧
      (runFrom p (reset p) inputs n).err_storage = false) ∧
    (∀ n, (runFrom p (reset p) inputs (n + 1)).committed_q ≠
        (runFrom p (reset p) inputs n).committed_q →
      ∃ m, WritePair p inputs m n ∧ wr_data p (runFrom p (reset p) inputs m) (inputs m) =
        wr_data p (runFrom p (reset p) inputs n) (inputs n)) ∧
    (∀ m n, WritePair p inputs m n →
      (runFrom p (reset p) inputs (n + 1)).phase_q = false ∧
        err_update p (runFrom p (reset p) inputs n) (inputs n) =
          decide (wr_data p (runFrom p (reset p) inputs m) (inputs m) ≠
            wr_data p (runFrom p (reset p) inputs n) (inputs n)) ∧
        (runFrom p (reset p) inputs (n + 1)).committed_q =
          if wr_data p (runFrom p (reset p) inputs m) (inputs m) =
              wr_data p (runFrom p (reset p) inputs n) (inputs n) then
            wr_data p (runFrom p (reset p) inputs n) (inputs n)
          else (runFrom p (reset p) inputs n).committed_q) ∧
    ∀ s : SubregShadow DW, s.err_storage = true → ∀ n,
      (runFrom p s inputs n).committed_q = s.committed_q ∧
        (runFrom p s inputs n).err_storage = true := by
  refine ⟨fun n => ?_, fun n => writePair_of_committed_ne, fun m n h => h.outcome,
    fun s h n => runFrom_of_err_storage h n⟩
  have hshadow : (runFrom p (reset p) inputs n).shadow_q =
      ~~~(runFrom p (reset p) inputs n).committed_q := shadow_runFrom n
  exact ⟨hshadow, err_storage_eq_false.mpr hshadow⟩

end Run
end SubregShadow

end SecureBoot
