import Mathlib.Data.List.Induction
import SecureBoot.Lib.Bits

/-! Memories with masked writes: a write replaces the bits that its mask enables, and each
bit of a word is what the last write that enabled it has written. -/

namespace MaskedMem

variable {α : Type*} {w : ℕ}

/-- The bits of `data` where the mask is set, those of `old` elsewhere. -/
def merge (mask data old : BitVec w) : BitVec w := (data &&& mask) ||| (old &&& ~~~mask)

theorem getLsbD_merge (mask data old : BitVec w) (j : ℕ) :
    (merge mask data old).getLsbD j = if mask.getLsbD j then data.getLsbD j else old.getLsbD j := by
  rw [merge, BitVec.getLsbD_or, BitVec.getLsbD_and, BitVec.getLsbD_and, BitVec.getLsbD_not]
  by_cases hj : j < w
  · cases mask.getLsbD j <;> simp [hj]
  · rw [BitVec.getLsbD_of_ge mask j (by omega), BitVec.getLsbD_of_ge old j (by omega)]
    simp

structure Write (α : Type*) (w : ℕ) where
  addr : α
  data : BitVec w
  mask : BitVec w

variable [DecidableEq α]

def Write.apply (m : α → BitVec w) (x : Write α w) : α → BitVec w :=
  Function.update m x.addr (merge x.mask x.data (m x.addr))

/-- The write enables bit `j` of the word at `a`. -/
def Write.enables (a : α) (j : ℕ) (x : Write α w) : Bool := decide (x.addr = a) && x.mask.getLsbD j

theorem getLsbD_apply (m : α → BitVec w) (x : Write α w) (a : α) (j : ℕ) :
    (x.apply m a).getLsbD j = if x.enables a j then x.data.getLsbD j else (m a).getLsbD j := by
  unfold Write.apply Write.enables
  by_cases ha : x.addr = a
  · subst ha
    rw [Function.update_self, getLsbD_merge]
    simp
  · rw [Function.update_of_ne (Ne.symm ha)]
    simp [ha]

/-- The bit `j` at `a` after the writes: of the last one that enabled it, else as before. -/
def lastBit (m : α → BitVec w) (writes : List (Write α w)) (a : α) (j : ℕ) : Bool :=
  match writes.reverse.find? (·.enables a j) with
  | some x => x.data.getLsbD j
  | none => (m a).getLsbD j

theorem getLsbD_foldl_apply (m : α → BitVec w) (writes : List (Write α w)) (a : α) (j : ℕ) :
    (writes.foldl Write.apply m a).getLsbD j = lastBit m writes a j := by
  induction writes using List.reverseRecOn with
  | nil => rfl
  | append_singleton writes x ih =>
    rw [List.foldl_append, lastBit, List.reverse_append, List.reverse_singleton,
      List.singleton_append, List.find?_cons]
    change (x.apply (writes.foldl Write.apply m) a).getLsbD j = _
    rw [getLsbD_apply, ih]
    cases x.enables a j <;> rfl

end MaskedMem
