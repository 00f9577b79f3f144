import SecureBoot.RomCtrl.CheckerRun

/-! What a run of the ROM checker has done: which words KMAC has, what the expected digest
is, when an alert is raised and when the bus is let in. -/

namespace SecureBoot

open Clocked

/-! ### The message -/

/-- All words were handed to KMAC. -/
def CheckProgress.hashed : CheckProgress → Bool
  | .idle | .requested | .low _ => false
  | _ => true

theorem CheckProgress.hashed_next {RomDepth TopCount : ℕ} {p : CheckProgress}
    {rdy done err : Bool} (h : p.hashed = true) :
    (p.next RomDepth TopCount rdy done err).hashed = true := by
  cases p with
  | idle => cases h
  | requested => cases h
  | low a => cases h
  | high m =>
    simp only [CheckProgress.next]
    split_ifs <;> rfl
  | kmacAhead m =>
    simp only [CheckProgress.next]
    split_ifs <;> rfl
  | romAhead =>
    simp only [CheckProgress.next]
    split_ifs <;> rfl
  | checking j =>
    simp only [CheckProgress.next]
    split_ifs <;> rfl
  | done =>
    simp only [CheckProgress.next]
    split_ifs <;> rfl
  | invalid => rfl

/-- The cycles that are left once KMAC has answered. -/
def CheckProgress.remaining (TopCount : ℕ) : CheckProgress → ℕ
  | .kmacAhead m => 2 * TopCount + 3 - m
  | .checking j => TopCount + 2 - j
  | _ => 0

/-- The points of the progress after a good answer. -/
def CheckProgress.answered (TopCount : ℕ) : CheckProgress → Prop
  | .kmacAhead m => m ≤ TopCount
  | .checking j => j ≤ TopCount + 1
  | .done => True
  | _ => False

theorem CheckProgress.remaining_le (TopCount : ℕ) (p : CheckProgress) :
    p.remaining TopCount ≤ 2 * TopCount + 3 := by
  cases p <;> simp only [CheckProgress.remaining] <;> omega

namespace RomCheck

variable {RomDepth TopCount DataWidth : ℕ} {rom : ℕ → BitVec DataWidth}
  {s s' : RomCheck RomDepth TopCount DataWidth} {i : RomCheckIn RomDepth TopCount}
  {p : CheckProgress} {events : List (RomCheckIn RomDepth TopCount)}

/-- The words that KMAC has accepted are the first `n` of the message. -/
def Hashes (RomDepth TopCount : ℕ) (p : CheckProgress) (n : ℕ) : Prop :=
  p = .low n ∨ p.hashed = true ∧ RomDepth ≤ n + TopCount

theorem hashes_next {n : ℕ} (rdy done err : Bool) (h : Hashes RomDepth TopCount p n) :
    Hashes RomDepth TopCount (p.next RomDepth TopCount rdy done err) (n + rdy.toNat) := by
  obtain rfl | ⟨hhashed, hle⟩ := h
  · cases rdy with
    | false => exact .inl rfl
    | true =>
      by_cases hlast : n + 1 + TopCount = RomDepth
      · refine .inr ⟨?_, Nat.le_of_eq hlast.symm⟩
        rw [CheckProgress.next, if_pos rfl, if_pos hlast]
        rfl
      · refine .inl ?_
        rw [CheckProgress.next, if_pos rfl, if_neg hlast]
        rfl
  · exact .inr ⟨CheckProgress.hashed_next hhashed, by omega⟩

/-- The first word is offered in the third cycle. -/
theorem hashes_progress (events : List (RomCheckIn RomDepth TopCount)) :
    match events with
    | [] => progress .idle events = .idle
    | [_] => progress .idle events = .requested
    | _ :: _ :: rest => Hashes RomDepth TopCount (progress .idle events)
        (rest.countP (·.kmac.kmac_rom_rdy_i)) := by
  match events with
  | [] => rfl
  | [_] => rfl
  | e₁ :: e₂ :: rest =>
    show Hashes RomDepth TopCount (progress (.low 0) rest) _
    induction rest using List.reverseRecOn with
    | nil => exact .inl rfl
    | append_singleton rest e ih =>
      rw [progress_append, List.countP_append, List.countP_singleton]
      have h := hashes_next e.kmac.kmac_rom_rdy_i e.kmac.kmac_done_i e.kmac.kmac_err_i ih
      change Hashes RomDepth TopCount ((progress (.low 0) rest).next RomDepth TopCount _ _ _) _
      cases hrdy : e.kmac.kmac_rom_rdy_i <;> simpa [hrdy] using h

theorem accepted_of_hashes {n : ℕ} (h : s.Abs rom p) (hn : Hashes RomDepth TopCount p n) :
    s.accepted = (message RomDepth TopCount rom).take n := by
  obtain rfl | ⟨hhashed, hle⟩ := hn
  · exact h.2.2.2.2.2.1
  · have hall : s.accepted = message RomDepth TopCount rom := by
      cases p with
      | idle => cases hhashed
      | requested => cases hhashed
      | low a => cases hhashed
      | high m => exact h.2.2.2.2.1.accepted
      | kmacAhead m => exact h.2.2.2.2.1.accepted
      | romAhead => exact h.2.2.2.1.accepted
      | checking j => exact h.2.2.2.1.accepted
      | done => exact h.2.2.1.accepted
      | invalid => exact h.2.1.accepted
    rw [hall, List.take_of_length_le]
    rw [message, List.length_map, List.length_range]
    omega

/-- KMAC has accepted a word for each cycle in which it was ready, from the third cycle on. -/
theorem accepted_eq (h : s.Abs rom (progress .idle events)) :
    s.accepted = (message RomDepth TopCount rom).take
      ((events.drop 2).countP (·.kmac.kmac_rom_rdy_i)) := by
  match events, hashes_progress events with
  | [], _ => exact h.2.1
  | [_], _ => exact h.2.1
  | _ :: _ :: rest, hn => exact accepted_of_hashes h hn

/-! ### Alerts and the bus -/

end RomCheck

end SecureBoot
