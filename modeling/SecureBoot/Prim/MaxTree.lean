import SecureBoot.Lib.HeapTree

/-! `prim_max_tree`, which finds the greatest of the valid inputs. -/

namespace SecureBoot

open HeapTree

variable {Width : ℕ}

/-- A node of `vld_tree`, `idx_tree` and `max_tree`. -/
structure MaxNode (SrcWidth Width : ℕ) where
  vld : Bool
  idx : BitVec SrcWidth
  max : BitVec Width

section Tree

variable {NumSrc : ℕ} (values_i : ℕ → BitVec Width) (valid_i : BitVec NumSrc)

/-- `gen_leafs`: the inputs, and tied-off leaves from `NumSrc` on. -/
def maxLeaf (offset : ℕ) : MaxNode (Nat.clog 2 NumSrc) Width :=
  if offset < NumSrc then ⟨valid_i.getLsbD offset, BitVec.ofNat _ offset, values_i offset⟩
  else ⟨false, 0, 0⟩

/-- `gen_nodes`. -/
def maxNode {SrcWidth : ℕ} (c0 c1 : MaxNode SrcWidth Width) : MaxNode SrcWidth Width :=
  let sel := (!c0.vld && c1.vld) || (c0.vld && c1.vld && decide (c1.max > c0.max))
  { vld := if sel then c1.vld else c0.vld
    idx := if sel then c1.idx else c0.idx
    max := if sel then c1.max else c0.max }

/-- The root of the tree: `max_valid_o`, `max_idx_o` and `max_value_o`. -/
def primMaxTree : MaxNode (Nat.clog 2 NumSrc) Width :=
  node (maxLeaf values_i valid_i) (fun _ => maxNode) (Nat.clog 2 NumSrc) 0

/-- Input `i` is valid and its value is the greatest one below the node, for the first time. -/
structure FirstMax (height offset i : ℕ) : Prop where
  below : Below height offset i
  valid : valid_i.getLsbD i = true
  le : ∀ j, Below height offset j → valid_i.getLsbD j = true → values_i j ≤ values_i i
  first : ∀ j, Below height offset j → valid_i.getLsbD j = true → values_i j = values_i i → i ≤ j

/-- What a node says about the leaves below it. -/
structure MaxNodeAt (height offset : ℕ) (n : MaxNode (Nat.clog 2 NumSrc) Width) : Prop where
  vld : n.vld = true ↔ ∃ i, Below height offset i ∧ valid_i.getLsbD i = true
  max : n.vld = true →
    ∃ i, FirstMax values_i valid_i height offset i ∧ n.idx = BitVec.ofNat _ i ∧ n.max = values_i i

variable {values_i valid_i}

theorem maxLeaf_at (offset : ℕ) :
    MaxNodeAt values_i valid_i 0 offset (maxLeaf values_i valid_i offset) := by
  rw [maxLeaf]
  split_ifs with hlt
  · refine ⟨by simp [below_zero], fun hvalid => ⟨offset, ?_, rfl, rfl⟩⟩
    constructor
    · exact (below_zero offset offset).mpr rfl
    · exact hvalid
    · intro j hj _
      rw [(below_zero offset j).mp hj]
      exact BitVec.le_refl _
    · intro j hj _ _
      rw [(below_zero offset j).mp hj]
  · have hzero := BitVec.getLsbD_of_ge valid_i offset (Nat.not_lt.mp hlt)
    exact ⟨by simp [below_zero, hzero], fun hvalid => absurd hvalid Bool.false_ne_true⟩

/-- The winner of one child beats the leaves below the other one. -/
theorem FirstMax.left {height offset i : ℕ} (h : FirstMax values_i valid_i height (2 * offset) i)
    (hright : ∀ j, Below height (2 * offset + 1) j → valid_i.getLsbD j = true →
      values_i j ≤ values_i i) : FirstMax values_i valid_i (height + 1) offset i where
  below := (below_succ height offset i).mpr (Or.inl h.below)
  valid := h.valid
  le j hj hvalid := by
    obtain hj | hj := (below_succ height offset j).mp hj
    · exact h.le j hj hvalid
    · exact hright j hj hvalid
  first j hj hvalid heq := by
    obtain hj | hj := (below_succ height offset j).mp hj
    · exact h.first j hj hvalid heq
    · exact (lt_of_below h.below hj).le

theorem FirstMax.right {height offset i : ℕ}
    (h : FirstMax values_i valid_i height (2 * offset + 1) i)
    (hleft : ∀ j, Below height (2 * offset) j → valid_i.getLsbD j = true →
      values_i j < values_i i) : FirstMax values_i valid_i (height + 1) offset i where
  below := (below_succ height offset i).mpr (Or.inr h.below)
  valid := h.valid
  le j hj hvalid := by
    obtain hj | hj := (below_succ height offset j).mp hj
    · exact BitVec.le_of_lt (hleft j hj hvalid)
    · exact h.le j hj hvalid
  first j hj hvalid heq := by
    obtain hj | hj := (below_succ height offset j).mp hj
    · exact absurd (heq ▸ hleft j hj hvalid) (BitVec.lt_irrefl _)
    · exact h.first j hj hvalid heq

theorem maxNode_at {height offset : ℕ} {c0 c1 : MaxNode (Nat.clog 2 NumSrc) Width}
    (h0 : MaxNodeAt values_i valid_i height (2 * offset) c0)
    (h1 : MaxNodeAt values_i valid_i height (2 * offset + 1) c1) :
    MaxNodeAt values_i valid_i (height + 1) offset (maxNode c0 c1) := by
  have hnone0 : c0.vld = false → ∀ j, Below height (2 * offset) j →
      valid_i.getLsbD j = true → False := fun hvld j hj hvalid =>
    absurd (h0.vld.mpr ⟨j, hj, hvalid⟩) (by rw [hvld]; exact Bool.false_ne_true)
  have hnone1 : c1.vld = false → ∀ j, Below height (2 * offset + 1) j →
      valid_i.getLsbD j = true → False := fun hvld j hj hvalid =>
    absurd (h1.vld.mpr ⟨j, hj, hvalid⟩) (by rw [hvld]; exact Bool.false_ne_true)
  constructor
  · rw [exists_below_succ, ← h0.vld, ← h1.vld, maxNode]
    cases c0.vld <;> cases c1.vld <;> simp
  · intro hvld
    rw [maxNode] at hvld ⊢
    cases hc0 : c0.vld with
    | false =>
      cases hc1 : c1.vld with
      | false => simp [hc0, hc1] at hvld
      | true =>
        obtain ⟨i, hfirst, hidx, hmax⟩ := h1.max hc1
        exact ⟨i, hfirst.right fun j hj hvalid => (hnone0 hc0 j hj hvalid).elim,
          by simpa using hidx, by simpa using hmax⟩
    | true =>
      obtain ⟨i, hfirst, hidx, hmax⟩ := h0.max hc0
      cases hc1 : c1.vld with
      | false =>
        exact ⟨i, hfirst.left fun j hj hvalid => (hnone1 hc1 j hj hvalid).elim,
          by simpa using hidx, by simpa using hmax⟩
      | true =>
        obtain ⟨i', hfirst', hidx', hmax'⟩ := h1.max hc1
        by_cases hgt : c1.max > c0.max
        · refine ⟨i', hfirst'.right fun j hj hvalid => ?_, by simpa [hgt] using hidx',
            by simpa [hgt] using hmax'⟩
          rw [hmax, hmax'] at hgt
          exact Nat.lt_of_le_of_lt (hfirst.le j hj hvalid) hgt
        · refine ⟨i, hfirst.left fun j hj hvalid => ?_, by simpa [hgt] using hidx,
            by simpa [hgt] using hmax⟩
          rw [hmax, hmax'] at hgt
          exact BitVec.le_trans (hfirst'.le j hj hvalid) (BitVec.not_lt.mp hgt)

end Tree

/-- The output is valid if an input is, and then it is the greatest valid value with the lowest
index that has it. -/
theorem prim_max_tree_exact {NumSrc : ℕ} (values_i : ℕ → BitVec Width) (valid_i : BitVec NumSrc) :
    ((primMaxTree values_i valid_i).vld = true ↔ ∃ i, valid_i.getLsbD i = true) ∧
    ((primMaxTree values_i valid_i).vld = true → ∃ i < NumSrc, valid_i.getLsbD i = true ∧
      (primMaxTree values_i valid_i).idx.toNat = i ∧
      (primMaxTree values_i valid_i).max = values_i i ∧
      (∀ j, valid_i.getLsbD j = true → values_i j ≤ (primMaxTree values_i valid_i).max) ∧
      ∀ j, valid_i.getLsbD j = true → values_i j = (primMaxTree values_i valid_i).max → i ≤ j) := by
  have hroot : MaxNodeAt values_i valid_i (Nat.clog 2 NumSrc) 0 (primMaxTree values_i valid_i) :=
    node_induction maxLeaf_at (fun _ _ _ _ => maxNode_at) _ 0
  have hlt : ∀ i, valid_i.getLsbD i = true → i < 2 ^ Nat.clog 2 NumSrc := fun i hi =>
    (BitVec.lt_of_getLsbD hi).trans_le (Nat.le_pow_clog (by decide) NumSrc)
  constructor
  · rw [hroot.vld]
    refine exists_congr fun i => ?_
    rw [below_root, and_iff_right_iff_imp]
    exact hlt i
  · intro hvld
    obtain ⟨i, hfirst, hidx, hmax⟩ := hroot.max hvld
    refine ⟨i, BitVec.lt_of_getLsbD hfirst.valid, hfirst.valid, ?_, hmax, ?_, ?_⟩
    · rw [hidx, BitVec.toNat_ofNat, Nat.mod_eq_of_lt (hlt i hfirst.valid)]
    · intro j hj
      rw [hmax]
      exact hfirst.le j ((below_root _ j).mpr (hlt j hj)) hj
    · intro j hj heq
      exact hfirst.first j ((below_root _ j).mpr (hlt j hj)) hj (heq.trans hmax)

end SecureBoot
