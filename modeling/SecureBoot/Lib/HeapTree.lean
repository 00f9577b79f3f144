import Mathlib.Algebra.Ring.Nat
import Mathlib.Data.Nat.Log
import Mathlib.Tactic.Common

/-! Reductions over a complete binary tree. A node is given by its height and by its offset among
the nodes of that height; the leaves below it are those that shifted by the height give its
offset. -/

namespace HeapTree

variable {α : Type*}

/-- The value of a node: the combination of its children, at their height. -/
def node (leaf : ℕ → α) (combine : ℕ → α → α → α) : ℕ → ℕ → α
  | 0, offset => leaf offset
  | height + 1, offset =>
    combine height (node leaf combine height (2 * offset))
      (node leaf combine height (2 * offset + 1))

/-- Leaf `i` is below the node. -/
def Below (height offset i : ℕ) : Prop := i / 2 ^ height = offset

instance (height offset i : ℕ) : Decidable (Below height offset i) :=
  inferInstanceAs (Decidable (_ = _))

theorem below_zero (offset i : ℕ) : Below 0 offset i ↔ i = offset := by
  rw [Below, Nat.pow_zero, Nat.div_one]

theorem below_succ (height offset i : ℕ) : Below (height + 1) offset i ↔
    Below height (2 * offset) i ∨ Below height (2 * offset + 1) i := by
  rw [Below, Below, Below, Nat.pow_succ, ← Nat.div_div_eq_div_mul]
  omega

theorem below_root (height i : ℕ) : Below height 0 i ↔ i < 2 ^ height :=
  Nat.div_eq_zero_iff_lt (Nat.two_pow_pos height)

/-- The leaves below the left child are in front of those below the right one. -/
theorem lt_of_below {height offset i j : ℕ} (hi : Below height (2 * offset) i)
    (hj : Below height (2 * offset + 1) j) : i < j := by
  by_contra hle
  have hdiv : j / 2 ^ height ≤ i / 2 ^ height := Nat.div_le_div_right (Nat.not_lt.mp hle)
  rw [Below] at hi hj
  omega

/-- What holds at the leaves, and of a node where it holds of the children, holds at every node. -/
theorem node_induction {leaf : ℕ → α} {combine : ℕ → α → α → α} {P : ℕ → ℕ → α → Prop}
    (hleaf : ∀ offset, P 0 offset (leaf offset))
    (hnode : ∀ height offset c0 c1, P height (2 * offset) c0 → P height (2 * offset + 1) c1 →
      P (height + 1) offset (combine height c0 c1))
    (height offset : ℕ) : P height offset (node leaf combine height offset) := by
  induction height generalizing offset with
  | zero => exact hleaf offset
  | succ height ih => exact hnode height offset _ _ (ih _) (ih _)

/-- A leaf with a property below one of the children. -/
theorem exists_below_succ {height offset : ℕ} {p : ℕ → Prop} :
    (∃ i, Below (height + 1) offset i ∧ p i) ↔
      (∃ i, Below height (2 * offset) i ∧ p i) ∨ ∃ i, Below height (2 * offset + 1) i ∧ p i := by
  simp only [below_succ, or_and_right, exists_or]

end HeapTree
