import SecureBoot.Lib.HeapTree

/-! `prim_onehot_check`, which compares a one-hot vector with an enable and an address. -/

namespace SecureBoot

open HeapTree

/-- The parameters, as the module asserts them. -/
structure OnehotParams where
  AddrWidth : ℕ
  OneHotWidth : ℕ
  AddrCheck : Bool
  EnableCheck : Bool
  StrictCheck : Bool
  NumSources_A : 1 ≤ OneHotWidth
  AddrWidth_A : 1 ≤ AddrWidth
  AddrRange_A : OneHotWidth ≤ 2 ^ AddrWidth
  AddrImpliesEnable_A : (AddrCheck && EnableCheck || !AddrCheck) = true

/-- A node of `or_tree`, `and_tree` and `err_tree`. -/
structure OnehotNode where
  or : Bool
  and : Bool
  err : Bool

variable {p : OnehotParams} (oh_i : BitVec p.OneHotWidth) (addr_i : BitVec p.AddrWidth)

/-- `gen_leafs`: the vector, and tied-off leaves behind it. -/
def onehotLeaf (offset : ℕ) : OnehotNode :=
  if offset < p.OneHotWidth then ⟨oh_i.getLsbD offset, oh_i.getLsbD offset, false⟩
  else ⟨false, false, false⟩

/-- `gen_nodes`: the address bit `AddrWidth - 1 - level` is the height of the children. -/
def onehotNode (height : ℕ) (c0 c1 : OnehotNode) : OnehotNode where
  or := c0.or || c1.or
  and := (!addr_i.getLsbD height && c0.and) || (addr_i.getLsbD height && c1.and)
  err := (c0.or && c1.or) || c0.err || c1.err

/-- `err_o`. -/
def primOnehotCheck (en_i : Bool) : Bool :=
  let root := node (onehotLeaf oh_i) (onehotNode addr_i) p.AddrWidth 0
  let oh0_err := root.err
  let enable_err :=
    if p.EnableCheck then
      if p.StrictCheck then root.or ^^ en_i else !en_i && root.or
    else false
  let addr_err := if p.AddrCheck then root.or ^^ root.and else false
  oh0_err || enable_err || addr_err

/-! ### The tree -/

/-- What a node says about the leaves below it: whether one is set, whether the one at the address
is set, and whether two are set. -/
structure OnehotNodeAt (height offset : ℕ) (n : OnehotNode) : Prop where
  or : n.or = true ↔ ∃ i, Below height offset i ∧ oh_i.getLsbD i = true
  and : n.and = oh_i.getLsbD (2 ^ height * offset + addr_i.toNat % 2 ^ height)
  err : n.err = true ↔ ∃ i j, i < j ∧ Below height offset i ∧ Below height offset j ∧
    oh_i.getLsbD i = true ∧ oh_i.getLsbD j = true

variable {oh_i addr_i}

theorem onehotLeaf_eq (offset : ℕ) :
    onehotLeaf oh_i offset = ⟨oh_i.getLsbD offset, oh_i.getLsbD offset, false⟩ := by
  rw [onehotLeaf]
  split_ifs with hlt
  · rfl
  · rw [BitVec.getLsbD_of_ge oh_i offset (Nat.not_lt.mp hlt)]

theorem onehotLeaf_at (offset : ℕ) :
    OnehotNodeAt oh_i addr_i 0 offset (onehotLeaf oh_i offset) := by
  rw [onehotLeaf_eq]
  constructor
  · simp [below_zero]
  · simp [Nat.mod_one]
  · simp only [Bool.false_eq_true, false_iff, below_zero]
    rintro ⟨i, j, hlt, rfl, rfl, -⟩
    exact lt_irrefl _ hlt

/-- The address below a node, by its topmost bit. -/
theorem mod_two_pow_succ_eq (x height : ℕ) :
    x % 2 ^ (height + 1) = 2 ^ height * (x.testBit height).toNat + x % 2 ^ height := by
  rw [Nat.mod_pow_succ, Nat.testBit_eq_decide_div_mod_eq, Nat.add_comm]
  obtain h | h := Nat.mod_two_eq_zero_or_one (x / 2 ^ height) <;> rw [h] <;> rfl

theorem onehotNode_at {height offset : ℕ} {c0 c1 : OnehotNode}
    (h0 : OnehotNodeAt oh_i addr_i height (2 * offset) c0)
    (h1 : OnehotNodeAt oh_i addr_i height (2 * offset + 1) c1) :
    OnehotNodeAt oh_i addr_i (height + 1) offset (onehotNode addr_i height c0 c1) where
  or := by
    rw [exists_below_succ, ← h0.or, ← h1.or]
    exact Bool.or_eq_true_iff
  and := by
    rw [onehotNode, h0.and, h1.and, mod_two_pow_succ_eq, BitVec.testBit_toNat]
    cases addr_i.getLsbD height with
    | false => simp [Nat.pow_succ, Nat.mul_assoc]
    | true => simp [Nat.pow_succ, Nat.mul_assoc, Nat.mul_add, Nat.add_assoc]
  err := by
    simp only [onehotNode, Bool.or_eq_true, Bool.and_eq_true, h0.or, h1.or, h0.err, h1.err,
      below_succ]
    constructor
    · rintro ((⟨⟨i, hi, hsi⟩, j, hj, hsj⟩ | ⟨i, j, hlt, hi, hj, hset⟩) | ⟨i, j, hlt, hi, hj, hset⟩)
      · exact ⟨i, j, lt_of_below hi hj, Or.inl hi, Or.inr hj, hsi, hsj⟩
      · exact ⟨i, j, hlt, Or.inl hi, Or.inl hj, hset⟩
      · exact ⟨i, j, hlt, Or.inr hi, Or.inr hj, hset⟩
    · rintro ⟨i, j, hlt, hi | hi, hj | hj, hsi, hsj⟩
      · exact Or.inl (Or.inr ⟨i, j, hlt, hi, hj, hsi, hsj⟩)
      · exact Or.inl (Or.inl ⟨⟨i, hi, hsi⟩, j, hj, hsj⟩)
      · exact absurd (lt_of_below hj hi) (Nat.lt_asymm hlt)
      · exact Or.inr ⟨i, j, hlt, hi, hj, hsi, hsj⟩

/-! ### The checks -/

/-- A set bit is below the root. -/
theorem exists_below_root_iff (oh_i : BitVec p.OneHotWidth) :
    (∃ i, Below p.AddrWidth 0 i ∧ oh_i.getLsbD i = true) ↔ oh_i ≠ 0 := by
  constructor
  · rintro ⟨i, -, hi⟩ rfl
    simp at hi
  · intro hne
    by_contra hnone
    refine hne (BitVec.eq_of_getLsbD_eq fun i hi => ?_)
    refine (Bool.eq_false_iff.mpr fun hset => ?_).trans (by simp)
    exact hnone ⟨i, (below_root _ i).mpr (hi.trans_le p.AddrRange_A), hset⟩

/-- No error exactly if at most one bit is set, the vector agrees with the enable, and a set bit
is at the address. -/
theorem prim_onehot_check_exact (p : OnehotParams) (oh_i : BitVec p.OneHotWidth)
    (addr_i : BitVec p.AddrWidth) (en_i : Bool) :
    primOnehotCheck oh_i addr_i en_i = false ↔
      (∀ i j, oh_i.getLsbD i = true → oh_i.getLsbD j = true → i = j) ∧
      (p.EnableCheck = true → (oh_i ≠ 0 → en_i = true) ∧
        (p.StrictCheck = true → en_i = true → oh_i ≠ 0)) ∧
      (p.AddrCheck = true → ∀ i, oh_i.getLsbD i = true → i = addr_i.toNat) := by
  have hroot : OnehotNodeAt oh_i addr_i p.AddrWidth 0
      (node (onehotLeaf oh_i) (onehotNode addr_i) p.AddrWidth 0) :=
    node_induction onehotLeaf_at (fun _ _ _ _ => onehotNode_at) _ 0
  rw [primOnehotCheck]
  generalize node (onehotLeaf oh_i) (onehotNode addr_i) p.AddrWidth 0 = root at hroot
  have hbelow : ∀ i, oh_i.getLsbD i = true → Below p.AddrWidth 0 i := fun i hi =>
    (below_root _ i).mpr ((BitVec.lt_of_getLsbD hi).trans_le p.AddrRange_A)
  have hor : root.or = true ↔ oh_i ≠ 0 := hroot.or.trans (exists_below_root_iff oh_i)
  have hand : root.and = oh_i.getLsbD addr_i.toNat := by
    rw [hroot.and, Nat.mul_zero, Nat.zero_add, Nat.mod_eq_of_lt addr_i.isLt]
  have herr : root.err = false ↔
      ∀ i j, oh_i.getLsbD i = true → oh_i.getLsbD j = true → i = j := by
    rw [← Bool.not_eq_true, hroot.err]
    constructor
    · intro hnone i j hi hj
      obtain hlt | heq | hgt := Nat.lt_trichotomy i j
      · exact absurd ⟨i, j, hlt, hbelow i hi, hbelow j hj, hi, hj⟩ hnone
      · exact heq
      · exact absurd ⟨j, i, hgt, hbelow j hj, hbelow i hi, hj, hi⟩ hnone
    · rintro hone ⟨i, j, hlt, -, -, hi, hj⟩
      exact absurd (hone i j hi hj) hlt.ne
  simp only [Bool.or_eq_false_iff, herr, and_assoc]
  refine and_congr_right fun hone => and_congr ?_ ?_
  · rw [← hor]
    cases p.EnableCheck <;> cases p.StrictCheck <;> cases en_i <;> cases root.or <;> simp
  · cases p.AddrCheck with
    | false => simp
    | true =>
      have hxor : (root.or ^^ root.and) = false ↔ root.or = root.and := by
        cases root.or <;> cases root.and <;> decide
      rw [hand] at hxor
      simp only [if_true, forall_const, hand, hxor]
      constructor
      · intro heq i hi
        have hset := hor.mpr fun hzero => by simp [hzero] at hi
        exact hone i _ hi (heq ▸ hset)
      · intro haddr
        rw [Bool.eq_iff_iff, hor, ← exists_below_root_iff]
        constructor
        · rintro ⟨i, -, hi⟩
          exact haddr i hi ▸ hi
        · intro hset
          exact ⟨_, hbelow _ hset, hset⟩

end SecureBoot
