import Mathlib.Data.Int.ModEq
import SecureBoot.Lib.Clocked

/-! A queue of bounded capacity between a writer and a reader that agree on each word by a
valid and a ready signal in the same cycle, and the storage of a queue in a ring of cells. -/

namespace BoundedQueue

variable {α : Type*}

/-- What the two sides do in a cycle. -/
structure Exchange (α : Type*) where
  valid : Bool
  data : α
  ready : Bool
  clear : Bool

section Machine

variable (capacity : ℕ) (pass : Bool) (q : List α) (c : Exchange α)

/-- The word that the queue takes in. -/
def accepted : List α := if c.valid ∧ q.length < capacity then [c.data] else []

/-- The word at the head; an empty queue may pass on the one that is being written. -/
def offered : Option α := if q.isEmpty ∧ pass ∧ c.valid then some c.data else q.head?

/-- The word that the reader takes. -/
def delivered : List α := if c.ready then (offered pass q c).toList else []

/-- The queue after a cycle. -/
def next : List α :=
  if c.clear then [] else (q ++ accepted capacity q c).drop (delivered pass q c).length

variable {capacity pass q c}

theorem next_clear (h : c.clear = true) : next capacity pass q c = [] := if_pos h

/-- What is in the queue after a cycle was in it, or has just been written. -/
theorem mem_next {x : α} (h : x ∈ next capacity pass q c) :
    x ∈ q ∨ c.valid = true ∧ x = c.data := by
  by_cases hclear : c.clear = true
  · simp [next_clear hclear] at h
  · rw [next, if_neg hclear] at h
    have hmem := List.mem_append.mp (List.mem_of_mem_drop h)
    rw [accepted] at hmem
    split_ifs at hmem with hvalid
    · exact hmem.imp_right fun hx => ⟨hvalid.1, List.mem_singleton.mp hx⟩
    · exact Or.inl (by simpa using hmem)

/-- Only what is in the queue, or just enters it, is delivered. -/
theorem delivered_le (hcapacity : 0 < capacity) :
    delivered pass q c <+: q ++ accepted capacity q c := by
  unfold delivered offered accepted
  cases q with
  | nil => cases pass <;> cases c.valid <;> cases c.ready <;> simp [hcapacity]
  | cons x q => cases c.ready <;> simp

/-- A cycle that does not clear the queue loses nothing. -/
theorem conserved (hcapacity : 0 < capacity) (h : c.clear = false) :
    q ++ accepted capacity q c = delivered pass q c ++ next capacity pass q c := by
  rw [next, h, if_neg Bool.false_ne_true]
  exact (List.prefix_iff_eq_append.mp (delivered_le hcapacity)).symm

end Machine

/-! ### Runs -/

section Run

open Mealy

variable {capacity : ℕ} {pass : Bool} {queue : ℕ → List α} {cycles : ℕ → Exchange α} {m len : ℕ}

/-- While nothing clears the queue, what was in it and what it takes in is what it delivers
and what is left, in order. -/
theorem run_conserved (hcapacity : 0 < capacity)
    (hqueue : ∀ n, queue (n + 1) = next capacity pass (queue n) (cycles n))
    (hclear : ∀ k < len, (cycles (m + k)).clear = false) :
    queue m ++ collect (fun n => accepted capacity (queue n) (cycles n)) m len =
      collect (fun n => delivered pass (queue n) (cycles n)) m len ++ queue (m + len) := by
  apply collect_conserved queue
  intro k hk
  rw [hqueue]
  exact conserved hcapacity (hclear k hk)

/-- The cycle that clears the queue may still deliver its head. -/
theorem run_delivered_le (hcapacity : 0 < capacity)
    (hqueue : ∀ n, queue (n + 1) = next capacity pass (queue n) (cycles n))
    (hclear : ∀ k < len, (cycles (m + k)).clear = false) :
    collect (fun n => delivered pass (queue n) (cycles n)) m (len + 1) <+:
      queue m ++ collect (fun n => accepted capacity (queue n) (cycles n)) m (len + 1) := by
  rw [collect_succ, collect_succ, ← List.append_assoc,
    run_conserved hcapacity hqueue hclear, List.append_assoc, List.prefix_append_right_inj]
  exact delivered_le hcapacity

end Run

/-! ### A ring of cells -/

/-- A ring of `n` cells holds the queue from the place `r` on. -/
structure Held (n : ℕ) (cells : ℕ → α) (r : ℕ) (q : List α) : Prop where
  length_le : q.length ≤ n
  cell : ∀ j (hj : j < q.length), cells ((r + j) % n) = q[j]

namespace Held

variable {n r : ℕ} {cells : ℕ → α} {q : List α} {x : α}

theorem nil (n : ℕ) (cells : ℕ → α) (r : ℕ) : Held n cells r [] :=
  ⟨Nat.zero_le n, fun _ hj => absurd hj (Nat.not_lt_zero _)⟩

theorem head (h : Held n cells r (x :: q)) : cells (r % n) = x :=
  h.cell 0 (Nat.zero_lt_succ _)

theorem tail (h : Held n cells r (x :: q)) : Held n cells (r + 1) q := by
  refine ⟨Nat.le_of_succ_le h.length_le, fun j hj => ?_⟩
  have hcell := h.cell (j + 1) (Nat.succ_lt_succ hj)
  rw [Nat.add_right_comm]
  exact hcell

/-- Only the place modulo the size matters. -/
theorem congr {r' : ℕ} (h : Held n cells r q) (hr : r % n = r' % n) : Held n cells r' q := by
  refine ⟨h.length_le, fun j hj => ?_⟩
  rw [← h.cell j hj, ← Nat.mod_add_mod r' n j, ← hr, Nat.mod_add_mod]

theorem push (h : Held n cells r q) (hlt : q.length < n) (x : α) :
    Held n (Function.update cells ((r + q.length) % n) x) r (q ++ [x]) := by
  refine ⟨by simpa [Nat.succ_le_iff] using hlt, fun j hj => ?_⟩
  rw [List.length_append, List.length_singleton] at hj
  obtain hj | rfl : j < q.length ∨ j = q.length := by omega
  · have hne : (r + j) % n ≠ (r + q.length) % n := by
      intro heq
      have hmod : j ≡ q.length [MOD n] := Nat.ModEq.add_left_cancel' r heq
      exact Nat.ne_of_lt hj (hmod.eq_of_lt_of_lt (hj.trans hlt) hlt)
    rw [Function.update_of_ne hne, h.cell j hj, List.getElem_append_left hj]
  · rw [Function.update_self]
    simp

end Held

end BoundedQueue
