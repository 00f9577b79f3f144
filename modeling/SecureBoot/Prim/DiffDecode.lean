import SecureBoot.Lib.Clocked

/-! The decoder of a differential pair, `prim_diff_decode`, with and without the
synchronization of the pair, and the wires that lead to it. In the asynchronous case a
wire that changes between two edges of the decoder's clock may be sampled late by one
edge, each wire of the pair on its own. -/

namespace SecureBoot

open Clocked

structure DiffPair where
  p : Bool
  n : Bool
  deriving DecidableEq

namespace DiffPair

/-- The encoding of a level. -/
def ofLevel (b : Bool) : DiffPair := ⟨b, !b⟩

/-- The encoding that signals an integrity failure. -/
def bad : DiffPair := ⟨false, false⟩

/-- `diff_check_ok`. -/
def ok (d : DiffPair) : Bool := d.p ^^ d.n

end DiffPair

/-- `state_e` of `gen_async`. -/
inductive DiffState
  | IsStd
  | IsSkewed
  | SigInt
  deriving DecidableEq

/-- The registers; those of the synchronizers, `diff_nq` and `state_q` are in `gen_async`. -/
structure DiffRegs where
  i_sync_p : Sync Bool
  i_sync_n : Sync Bool
  diff_pq : Bool
  diff_nq : Bool
  level_q : Bool
  state_q : DiffState
  deriving DecidableEq

def DiffRegs.reset : DiffRegs := ⟨⟨false, false⟩, ⟨true, true⟩, false, true, false, .IsStd⟩

structure DiffOut where
  level_o : Bool
  rise_o : Bool
  fall_o : Bool
  sigint_o : Bool
  state_d : DiffState
  deriving DecidableEq

def DiffOut.event_o (o : DiffOut) : Bool := o.rise_o || o.fall_o

/-- The outputs with `gen_async`. -/
def diffDecodeAsync (r : DiffRegs) : DiffOut :=
  let diff_pd := r.i_sync_p.q
  let diff_nd := r.i_sync_n.q
  let diff_p_edge := r.diff_pq ^^ diff_pd
  let diff_n_edge := r.diff_nq ^^ diff_nd
  let diff_check_ok := diff_pd ^^ diff_nd
  let level := diff_pd
  match r.state_q with
  | .IsStd =>
    if diff_check_ok then
      let both := diff_p_edge && diff_n_edge
      ⟨level, both && level, both && !level, false, .IsStd⟩
    else if diff_p_edge || diff_n_edge then ⟨r.level_q, false, false, false, .IsSkewed⟩
    else ⟨r.level_q, false, false, true, .SigInt⟩
  | .IsSkewed =>
    if diff_check_ok then ⟨level, level, !level, false, .IsStd⟩
    else ⟨r.level_q, false, false, true, .SigInt⟩
  | .SigInt =>
    if diff_check_ok then ⟨r.level_q, false, false, false, .IsStd⟩
    else ⟨r.level_q, false, false, true, .SigInt⟩

/-- The outputs with `gen_no_async`. -/
def diffDecodeSync (r : DiffRegs) (diff_i : DiffPair) : DiffOut :=
  let sigint_o := !(diff_i.p ^^ diff_i.n)
  ⟨if sigint_o then r.level_q else diff_i.p, !r.diff_pq && diff_i.p && !sigint_o,
    r.diff_pq && !diff_i.p && !sigint_o, sigint_o, r.state_q⟩

def diffDecode (AsyncOn : Bool) (r : DiffRegs) (diff_i : DiffPair) : DiffOut :=
  if AsyncOn then diffDecodeAsync r else diffDecodeSync r diff_i

/-- A clock edge of the decoder. -/
def diffDecodeClock (AsyncOn : Bool) (r : DiffRegs) (diff_i : DiffPair) : DiffRegs :=
  let o := diffDecode AsyncOn r diff_i
  if AsyncOn then
    ⟨r.i_sync_p.clock diff_i.p, r.i_sync_n.clock diff_i.n, r.i_sync_p.q, r.i_sync_n.q, o.level_o,
      o.state_d⟩
  else { r with diff_pq := diff_i.p, level_q := o.level_o }

@[simp] theorem level_o_ofLevel (r : DiffRegs) (b : Bool) :
    (diffDecode false r (.ofLevel b)).level_o = b := by
  cases b <;> rfl

@[simp] theorem sigint_o_ofLevel (r : DiffRegs) (b : Bool) :
    (diffDecode false r (.ofLevel b)).sigint_o = false := by
  cases b <;> rfl

@[simp] theorem event_o_ofLevel (r : DiffRegs) (b : Bool) :
    (diffDecode false r (.ofLevel b)).event_o = (r.diff_pq ^^ b) := by
  cases b <;> cases h : r.diff_pq <;>
    simp [DiffOut.event_o, diffDecode, diffDecodeSync, DiffPair.ofLevel, h]

end SecureBoot

/-! Runs of the asynchronous decoder. What it detects depends on the pairs that leave the
synchronizers: while these are skewed by one cycle at most, every change of the level is one
event, and whatever they are, two equal pairs in a row are an integrity failure. -/

namespace SecureBoot

open Mealy

/-! ### The pattern matcher -/

namespace DiffRegs

variable (r : DiffRegs) (diff_i : DiffPair)

/-- `diff_pd` and `diff_nd`. -/
def pair : DiffPair := ⟨r.i_sync_p.q, r.i_sync_n.q⟩

/-- `diff_pq` and `diff_nq`. -/
def prev : DiffPair := ⟨r.diff_pq, r.diff_nq⟩

variable {r}

theorem async_isStd_ok (hstate : r.state_q = .IsStd) (hok : r.pair.ok = true) :
    diffDecodeAsync r =
      let both := (r.prev.p ^^ r.pair.p) && (r.prev.n ^^ r.pair.n)
      ⟨r.pair.p, both && r.pair.p, both && !r.pair.p, false, .IsStd⟩ := by
  simp only [pair, DiffPair.ok] at hok
  simp [diffDecodeAsync, hstate, hok, pair, prev]

theorem async_isStd_bad (hstate : r.state_q = .IsStd) (hbad : r.pair.ok = false) :
    diffDecodeAsync r =
      if (r.prev.p ^^ r.pair.p) || (r.prev.n ^^ r.pair.n) then
        ⟨r.level_q, false, false, false, .IsSkewed⟩
      else ⟨r.level_q, false, false, true, .SigInt⟩ := by
  simp only [pair, DiffPair.ok] at hbad
  simp [diffDecodeAsync, hstate, hbad, pair, prev]

theorem async_isSkewed_ok (hstate : r.state_q = .IsSkewed) (hok : r.pair.ok = true) :
    diffDecodeAsync r = ⟨r.pair.p, r.pair.p, !r.pair.p, false, .IsStd⟩ := by
  simp only [pair, DiffPair.ok] at hok
  simp [diffDecodeAsync, hstate, hok, pair]

theorem async_sigInt_ok (hstate : r.state_q = .SigInt) (hok : r.pair.ok = true) :
    diffDecodeAsync r = ⟨r.level_q, false, false, false, .IsStd⟩ := by
  simp only [pair, DiffPair.ok] at hok
  simp [diffDecodeAsync, hstate, hok]

/-- Outside `IsStd` an incorrect pair is a failure. -/
theorem async_bad (hstate : r.state_q ≠ .IsStd) (hbad : r.pair.ok = false) :
    diffDecodeAsync r = ⟨r.level_q, false, false, true, .SigInt⟩ := by
  simp only [pair, DiffPair.ok] at hbad
  cases hcase : r.state_q with
  | IsStd => exact absurd hcase hstate
  | IsSkewed => simp [diffDecodeAsync, hcase, hbad]
  | SigInt => simp [diffDecodeAsync, hcase, hbad]

/-- A failure is no event. -/
theorem event_o_of_sigint (h : (diffDecodeAsync r).sigint_o = true) :
    (diffDecodeAsync r).event_o = false := by
  cases hok : r.pair.ok with
  | true =>
    cases hstate : r.state_q with
    | IsStd =>
      rw [async_isStd_ok hstate hok] at h
      exact absurd h Bool.false_ne_true
    | IsSkewed =>
      rw [async_isSkewed_ok hstate hok] at h
      exact absurd h Bool.false_ne_true
    | SigInt =>
      rw [async_sigInt_ok hstate hok] at h
      exact absurd h Bool.false_ne_true
  | false =>
    by_cases hstate : r.state_q = .IsStd
    · rw [async_isStd_bad hstate hok]
      split_ifs <;> rfl
    · rw [async_bad hstate hok]
      rfl

/-- An incorrect pair leads away from `IsStd`. -/
theorem state_d_ne_isStd (hbad : r.pair.ok = false) : (diffDecodeAsync r).state_d ≠ .IsStd := by
  by_cases hstate : r.state_q = .IsStd
  · rw [async_isStd_bad hstate hbad]
    split_ifs <;> simp
  · rw [async_bad hstate hbad]
    simp

end DiffRegs

/-! ### Skew of one cycle -/

/-- The level that the pairs before a cycle encode: that of the last correct one. -/
def encodedLevel (d : ℕ → DiffPair) : ℕ → Bool
  | 0 => false
  | n + 1 => if (d n).ok then (d n).p else encodedLevel d n

/-- The wires are never equal for more than a cycle, and have the opposite level after it. -/
structure SkewedByOne (d : ℕ → DiffPair) : Prop where
  once : ∀ n, (d n).ok = false → (d (n + 1)).ok = true
  opposite : ∀ n, (d (n + 1)).ok = false → (d (n + 2)).p = !(d n).p

/-- What the pattern matcher knows in a cycle of such a waveform, `level` being the level so far. -/
inductive Tracks (r : DiffRegs) (level : Bool) : Prop
  | std (hstate : r.state_q = .IsStd) (hlevel : r.level_q = level) (hprev : r.prev = .ofLevel level)
  | skewed (hstate : r.state_q = .IsSkewed) (hlevel : r.level_q = level)
      (hpair : r.pair = .ofLevel !level)

namespace Tracks

variable {r : DiffRegs} {level : Bool} (h : Tracks r level)

include h

/-- A correct pair is an event exactly when it has another level. -/
theorem out_ok (hok : r.pair.ok = true) : diffDecodeAsync r =
    ⟨r.pair.p, r.pair.p && !level, !r.pair.p && level, false, .IsStd⟩ := by
  cases h with
  | std hstate hlevel hprev =>
    have hn : r.pair.n = !r.pair.p := by
      simp only [DiffPair.ok] at hok
      cases hp : r.pair.p <;> cases hn : r.pair.n <;> simp_all
    rw [DiffRegs.async_isStd_ok hstate hok, hprev, hn]
    cases level <;> cases r.pair.p <;> rfl
  | skewed hstate hlevel hpair =>
    rw [DiffRegs.async_isSkewed_ok hstate hok, hpair]
    cases level <;> rfl

/-- An incorrect pair is the first one. -/
theorem out_bad (hbad : r.pair.ok = false) : r.prev = .ofLevel level ∧
    diffDecodeAsync r = ⟨level, false, false, false, .IsSkewed⟩ := by
  cases h with
  | std hstate hlevel hprev =>
    have hn : r.pair.n = r.pair.p := by
      simp only [DiffPair.ok] at hbad
      cases hp : r.pair.p <;> cases hn : r.pair.n <;> simp_all
    rw [DiffRegs.async_isStd_bad hstate hbad, hprev, hn, hlevel]
    refine ⟨rfl, if_pos ?_⟩
    cases level <;> cases r.pair.p <;> rfl
  | skewed hstate hlevel hpair =>
    rw [hpair] at hbad
    cases level <;> exact absurd hbad (by decide)

end Tracks

section Run

variable (inputs : ℕ → DiffPair)

/-- The registers in a cycle. -/
def diffRegsAt (n : ℕ) : DiffRegs := stateAt (diffDecodeClock true) DiffRegs.reset inputs n

/-- The outputs in a cycle. -/
def diffOutAt (n : ℕ) : DiffOut := diffDecode true (diffRegsAt inputs n) (inputs n)

/-- The pair behind the synchronizers in a cycle. -/
def diffPairAt (n : ℕ) : DiffPair := (diffRegsAt inputs n).pair

variable {inputs}

theorem prev_succ (n : ℕ) : (diffRegsAt inputs (n + 1)).prev = diffPairAt inputs n := rfl

/-- A correct pair is the encoding of its level. -/
theorem DiffPair.eq_ofLevel {d : DiffPair} (hok : d.ok = true) : d = .ofLevel d.p := by
  obtain ⟨p, n⟩ := d
  cases p <;> cases n <;> first | rfl | exact absurd hok (by decide)

theorem tracks (h : SkewedByOne (diffPairAt inputs)) (n : ℕ) :
    Tracks (diffRegsAt inputs n) (encodedLevel (diffPairAt inputs) n) := by
  induction n with
  | zero => exact .std rfl rfl rfl
  | succ n ih =>
    cases hok : (diffPairAt inputs n).ok with
    | true =>
      have hout := ih.out_ok hok
      rw [encodedLevel, hok, if_pos rfl]
      refine .std ?_ ?_ (DiffPair.eq_ofLevel hok)
      · exact congrArg DiffOut.state_d hout
      · exact congrArg DiffOut.level_o hout
    | false =>
      obtain ⟨hprev, hout⟩ := ih.out_bad hok
      rw [encodedLevel, hok, if_neg Bool.false_ne_true]
      refine .skewed (congrArg DiffOut.state_d hout) (congrArg DiffOut.level_o hout) ?_
      change diffPairAt inputs (n + 1) = _
      cases n with
      | zero =>
        have hreset : (diffPairAt inputs 0).ok = true := rfl
        exact absurd (hreset.symm.trans hok) (by decide)
      | succ n =>
        rw [DiffPair.eq_ofLevel (h.once (n + 1) hok), h.opposite n hok, ← prev_succ, hprev]
        rfl

/-- Two incorrect pairs in a row. -/
theorem sigint_of_twice {n : ℕ} (hbad : (diffPairAt inputs n).ok = false)
    (hbad' : (diffPairAt inputs (n + 1)).ok = false) :
    (diffOutAt inputs (n + 1)).sigint_o = true := by
  have hstate : (diffRegsAt inputs (n + 1)).state_q ≠ .IsStd := DiffRegs.state_d_ne_isStd hbad
  exact congrArg DiffOut.sigint_o (DiffRegs.async_bad hstate hbad')

/-- Skew of one cycle is tolerated, and no more than that: without longer skew there is no failure,
the level follows and each of its changes is one event; two equal pairs in a row are a failure, and
there is no event in a cycle with a failure. -/
theorem diff_decode_tolerates_one_cycle (inputs : ℕ → DiffPair) :
    (SkewedByOne (diffPairAt inputs) → ∀ n,
      (diffOutAt inputs n).sigint_o = false ∧
      (diffOutAt inputs n).level_o = encodedLevel (diffPairAt inputs) (n + 1) ∧
      (diffOutAt inputs n).rise_o = (encodedLevel (diffPairAt inputs) (n + 1) &&
        !encodedLevel (diffPairAt inputs) n) ∧
      (diffOutAt inputs n).fall_o = (!encodedLevel (diffPairAt inputs) (n + 1) &&
        encodedLevel (diffPairAt inputs) n)) ∧
    (∀ n, (diffPairAt inputs n).ok = false → (diffPairAt inputs (n + 1)).ok = false →
      (diffOutAt inputs (n + 1)).sigint_o = true) ∧
    ∀ n, (diffOutAt inputs n).sigint_o = true → (diffOutAt inputs n).event_o = false := by
  refine ⟨fun h n => ?_, fun n => sigint_of_twice, fun n => DiffRegs.event_o_of_sigint⟩
  have htracks := tracks h n
  change (diffDecodeAsync _).sigint_o = false ∧ (diffDecodeAsync _).level_o = _ ∧
    (diffDecodeAsync _).rise_o = _ ∧ (diffDecodeAsync _).fall_o = _
  cases hok : (diffPairAt inputs n).ok with
  | true =>
    rw [htracks.out_ok hok, encodedLevel, hok, if_pos rfl]
    exact ⟨rfl, rfl, rfl, rfl⟩
  | false =>
    rw [(htracks.out_bad hok).2, encodedLevel, hok, if_neg Bool.false_ne_true]
    simp

end Run

end SecureBoot
