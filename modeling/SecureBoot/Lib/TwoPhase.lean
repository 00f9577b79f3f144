import SecureBoot.Lib.Clocked

/-! A value that changes only by two equal writes in a row. A first write is remembered, the
second one commits it if it agrees and drops it if not, and a clear in between drops it too. -/

/-- The value, and a first write that waits for its second. -/
structure TwoPhase (α : Type*) where
  value : α
  pending : Option α

namespace TwoPhase

open Mealy

variable {α : Type*} [DecidableEq α]

/-- What happens in a cycle. A write goes before a clear. -/
structure Event (α : Type*) where
  write : Option α
  clear : Bool

def next (t : TwoPhase α) (e : Event α) : TwoPhase α :=
  match e.write, t.pending with
  | some v, none => { t with pending := some v }
  | some v, some w => ⟨if w = v then v else t.value, none⟩
  | none, _ => if e.clear then { t with pending := none } else t

variable {t : TwoPhase α} {e : Event α} {v w : α}

theorem next_first (hwrite : e.write = some v) (hpending : t.pending = none) :
    t.next e = { t with pending := some v } := by
  rw [next, hwrite, hpending]

theorem next_second (hwrite : e.write = some v) (hpending : t.pending = some w) :
    t.next e = ⟨if w = v then v else t.value, none⟩ := by
  rw [next, hwrite, hpending]

theorem next_none (hwrite : e.write = none) :
    t.next e = if e.clear then { t with pending := none } else t := by
  rw [next, hwrite]

theorem next_idle (hwrite : e.write = none) (hclear : e.clear = false) : t.next e = t := by
  rw [next_none hwrite, hclear]
  rfl

/-- Only a second write that agrees changes the value. -/
theorem write_of_value_ne (h : (t.next e).value ≠ t.value) :
    ∃ v, e.write = some v ∧ t.pending = some v ∧ (t.next e).value = v := by
  cases hwrite : e.write with
  | none => simp [next_none hwrite, apply_ite] at h
  | some v =>
    cases hpending : t.pending with
    | none => simp [next_first hwrite hpending] at h
    | some w =>
      rw [next_second hwrite hpending] at h ⊢
      by_cases heq : w = v
      · exact ⟨v, rfl, by rw [heq], if_pos heq⟩
      · simp [heq] at h

/-- A write is pending after a cycle that made it, or that did nothing to it. -/
theorem pending_next (h : (t.next e).pending = some w) :
    (t.pending = none ∧ e.write = some w) ∨
      (t.pending = some w ∧ e.write = none ∧ e.clear = false) := by
  cases hwrite : e.write with
  | none =>
    cases hclear : e.clear with
    | true => simp [next_none hwrite, hclear] at h
    | false =>
      rw [next_idle hwrite hclear] at h
      exact Or.inr ⟨h, rfl, rfl⟩
  | some v =>
    cases hpending : t.pending with
    | none =>
      rw [next_first hwrite hpending] at h
      exact Or.inl ⟨rfl, h⟩
    | some u => simp [next_second hwrite hpending] at h

/-! ### Runs -/

section Run

variable {reset : TwoPhase α} {events : ℕ → Event α} {m n : ℕ}

/-- No write and no clear in the cycles between two others. -/
def Quiet (events : ℕ → Event α) (m n : ℕ) : Prop :=
  ∀ l, m < l → l < n → (events l).write = none ∧ (events l).clear = false

/-- A pending write is an earlier first write, with nothing in between. -/
theorem first_of_pending (hreset : reset.pending = none)
    (h : (stateAt next reset events n).pending = some w) :
    ∃ m < n, (stateAt next reset events m).pending = none ∧ (events m).write = some w ∧
      Quiet events m n := by
  induction n with
  | zero => simp [hreset] at h
  | succ n ih =>
    obtain ⟨hfirst, hwrite⟩ | ⟨hpending, hwrite, hclear⟩ := pending_next h
    · exact ⟨n, Nat.lt_succ_self n, hfirst, hwrite, fun l hl hlt => by omega⟩
    · obtain ⟨m, hm, hfirst, hfirst_write, hquiet⟩ := ih hpending
      refine ⟨m, Nat.lt_succ_of_lt hm, hfirst, hfirst_write, fun l hl hlt => ?_⟩
      obtain hlt | rfl := Nat.lt_succ_iff_lt_or_eq.mp hlt
      · exact hquiet l hl hlt
      · exact ⟨hwrite, hclear⟩

/-- A first write is pending, and the value is kept, as long as nothing happens. -/
theorem stateAt_of_quiet (hmn : m < n)
    (hfirst : (stateAt next reset events m).pending = none)
    (hwrite : (events m).write = some w) (hquiet : Quiet events m n) :
    stateAt next reset events n = ⟨(stateAt next reset events m).value, some w⟩ := by
  induction n with
  | zero => omega
  | succ n ih =>
    obtain hlt | rfl := Nat.lt_succ_iff_lt_or_eq.mp hmn
    · have hn := hquiet n hlt (Nat.lt_succ_self n)
      rw [stateAt_succ, ih hlt fun l hl hln => hquiet l hl (Nat.lt_succ_of_lt hln),
        next_idle hn.1 hn.2]
    · rw [stateAt_succ, next_first hwrite hfirst]

/-- The value changes only by the second of two equal writes in a row. -/
theorem writes_of_value_ne (hreset : reset.pending = none)
    (h : (stateAt next reset events (n + 1)).value ≠ (stateAt next reset events n).value) :
    ∃ m < n, ∃ v, (stateAt next reset events m).pending = none ∧ (events m).write = some v ∧
      (events n).write = some v ∧ Quiet events m n ∧
        (stateAt next reset events (n + 1)).value = v := by
  obtain ⟨v, hwrite, hpending, hvalue⟩ := write_of_value_ne h
  obtain ⟨m, hm, hfirst, hfirst_write, hquiet⟩ := first_of_pending hreset hpending
  exact ⟨m, hm, v, hfirst, hfirst_write, hwrite, hquiet, hvalue⟩

/-- The second of two writes in a row commits or drops the first. -/
theorem stateAt_of_second (hmn : m < n) (hfirst : (stateAt next reset events m).pending = none)
    (hwrite : (events m).write = some w) (hquiet : Quiet events m n)
    (hsecond : (events n).write = some v) :
    stateAt next reset events (n + 1) =
      ⟨if w = v then v else (stateAt next reset events n).value, none⟩ := by
  have hn := stateAt_of_quiet hmn hfirst hwrite hquiet
  have hpending : (stateAt next reset events n).pending = some w := by rw [hn]
  rw [stateAt_succ, next_second hsecond hpending]

end Run

end TwoPhase
