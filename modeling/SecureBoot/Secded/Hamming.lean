import Mathlib.Data.Nat.Size
import SecureBoot.Secded.Codes

/-! The Hamming codes. The generator takes every position that is no power of two for
a data bit. There are exactly `k` of them when no parity bit is spare, and then the
columns are the positions; with a spare parity bit there are more, the surplus codes
overlap the parity bits, and no check covers the last bit of the word. -/

namespace SecureBoot

open Bits Parity

/-! ### The data positions -/

theorem size_succ_of_isPowerOfTwo {n : ℕ} (h : (n + 1).isPowerOfTwo) :
    (n + 1).size = n.size + 1 := by
  obtain ⟨p, hp⟩ := h
  have hsize : n.size = p := by
    apply Nat.le_antisymm
    · exact Nat.size_le.mpr (by omega)
    · cases p with
      | zero => omega
      | succ p =>
        apply Nat.lt_size.mpr
        rw [Nat.pow_succ] at hp
        have := Nat.two_pow_pos p
        omega
  rw [hp, Nat.size_pow, hsize]

theorem size_succ_of_not_isPowerOfTwo {n : ℕ} (h : ¬(n + 1).isPowerOfTwo) :
    (n + 1).size = n.size := by
  apply Nat.le_antisymm
  · have hlt := Nat.lt_size_self n
    apply Nat.size_le.mpr
    apply Nat.lt_of_le_of_ne (by omega)
    intro heq
    exact h ⟨n.size, heq⟩
  · exact Nat.size_le_size (Nat.le_succ n)

/-- Among the first `n` positions there is a power of two for every bit of `n`. -/
theorem length_filter_add_size (n : ℕ) :
    ((List.range' 1 n).filter fun b => b &&& (b - 1) ≠ 0).length + n.size = n := by
  induction n with
  | zero => rfl
  | succ n ih =>
    have hpow : (1 + n) &&& n = 0 ↔ (n + 1).isPowerOfTwo := by
      rw [Nat.add_comm 1 n]
      exact Nat.and_sub_one_eq_zero_iff_isPowerOfTwo (Nat.succ_ne_zero n)
    rw [List.range'_1_concat, List.filter_append, List.length_append]
    by_cases h : (n + 1).isPowerOfTwo
    · have hlast : [1 + n].filter (fun b => decide (b &&& (b - 1) ≠ 0)) = [] := by
        simp [hpow.mpr h]
      rw [size_succ_of_isPowerOfTwo h, hlast, List.length_nil]
      omega
    · have hlast : [1 + n].filter (fun b => decide (b &&& (b - 1) ≠ 0)) = [1 + n] := by
        simp [mt hpow.mp h]
      rw [size_succ_of_not_isPowerOfTwo h, hlast, List.length_singleton]
      omega

theorem length_hammingDataBits (k m : ℕ) :
    (hammingDataBits k m).length + (k + m - 1).size = k + m - 1 :=
  length_filter_add_size _

/-- There is a data position for every data bit exactly when no parity bit is spare. -/
theorem length_hammingDataBits_eq {k m : ℕ} (hm : 2 ≤ m) (hle : k + m ≤ 2 ^ (m - 1))
    (hspare : 2 ^ (m - 2) ≤ k + m - 1) : (hammingDataBits k m).length = k := by
  have hlen := length_hammingDataBits k m
  have hsize : (k + m - 1).size = m - 1 := by
    apply Nat.le_antisymm
    · exact Nat.size_le.mpr (by omega)
    · have hlt : m - 2 < (k + m - 1).size := Nat.lt_size.mpr hspare
      omega
  omega

theorem lt_length_hammingDataBits {k m : ℕ} (hm : 2 ≤ m) (hspare : k + m - 1 < 2 ^ (m - 2)) :
    k < (hammingDataBits k m).length := by
  have hlen := length_hammingDataBits k m
  have hsize : (k + m - 1).size ≤ m - 2 := Nat.size_le.mpr hspare
  omega

theorem mem_hammingDataBits {k m b : ℕ} (hb : b ∈ hammingDataBits k m) :
    1 ≤ b ∧ b < k + m ∧ ∀ j, b ≠ 2 ^ j := by
  obtain ⟨hrange, hpow⟩ := List.mem_filter.mp hb
  rw [List.mem_range'_1] at hrange
  refine ⟨hrange.1, by omega, ?_⟩
  rintro j rfl
  have hzero := (Nat.and_sub_one_eq_zero_iff_isPowerOfTwo (Nat.two_pow_pos j).ne').mpr ⟨j, rfl⟩
  simp [hzero] at hpow

theorem nodup_hammingDataBits (k m : ℕ) : (hammingDataBits k m).Nodup :=
  (List.nodup_range' 1).filter _

/-! ### The codes -/

section Codes

variable (k m : ℕ)

theorem getD_hammingCode_data {i : ℕ} (hi : i < (hammingDataBits k m).length) :
    (hammingCode k m).getD i [] = hammingTuple (m - 1) ((hammingDataBits k m)[i]) := by
  rw [hammingCode, List.getD_append _ _ _ _ (by rwa [List.length_map]),
    List.getD_eq_getElem _ _ (by rwa [List.length_map]), List.getElem_map]

theorem getD_hammingCode_parity {i : ℕ} (hge : (hammingDataBits k m).length ≤ i)
    (hlt : i < (hammingDataBits k m).length + (m - 1)) : (hammingCode k m).getD i [] = [m - 1] := by
  rw [hammingCode, List.getD_append_right _ _ _ _ (by rwa [List.length_map]), List.length_map,
    List.getD_eq_getElem _ _ (by rw [List.length_replicate]; omega), List.getElem_replicate]

theorem getD_hammingCode_none {i : ℕ} (hge : (hammingDataBits k m).length + (m - 1) ≤ i) :
    (hammingCode k m).getD i [] = [] := by
  apply List.getD_eq_default
  simpa [hammingCode] using hge

theorem mem_hammingTuple {last b j : ℕ} :
    j ∈ hammingTuple last b ↔ j < last ∧ b.testBit j = true ∨ j = last := by
  simp [hammingTuple]

theorem nodup_hammingCode : ∀ c ∈ hammingCode k m, c.Nodup := by
  intro c hc
  obtain hc | hc := List.mem_append.mp hc
  · obtain ⟨b, _, rfl⟩ := List.mem_map.mp hc
    apply List.Nodup.append (List.nodup_range.filter _) (List.nodup_singleton _)
    intro j hj
    have := List.mem_range.mp (List.mem_filter.mp hj).1
    simp
    omega
  · rw [List.eq_of_mem_replicate hc]
    exact List.nodup_singleton _

end Codes

/-! ### Without a spare parity bit -/

/-- The position of a column: the parity bit `j` stands at `2 ^ j`, the last at `0`. -/
def hammingPosition (k m i : ℕ) : ℕ :=
  if i < k then (hammingDataBits k m).getD i 0 else if i < k + (m - 1) then 2 ^ (i - k) else 0

section Minimal

variable {k m : ℕ} (hm : 2 ≤ m) (hlen : (hammingDataBits k m).length = k)

include hlen

theorem triangular_hammingCode (_ : 2 ≤ m) : Triangular k m (hammingCode k m) where
  nodup := nodup_hammingCode k m
  lt := by
    intro i j hmem
    by_cases hi : i < k
    · omega
    · by_cases hi' : i < k + (m - 1)
      · rw [getD_hammingCode_parity k m (by omega) (by omega), List.mem_singleton] at hmem
        omega
      · rw [getD_hammingCode_none k m (by omega)] at hmem
        exact absurd hmem List.not_mem_nil

theorem hammingPosition_of_lt {i : ℕ} (hi : i < k) :
    hammingPosition k m i ∈ hammingDataBits k m ∧
      (hammingCode k m).getD i [] = hammingTuple (m - 1) (hammingPosition k m i) := by
  have hi' : i < (hammingDataBits k m).length := by omega
  rw [hammingPosition, if_pos hi, List.getD_eq_getElem _ _ hi', getD_hammingCode_data k m hi']
  exact ⟨List.getElem_mem hi', rfl⟩

include hm

/-- The columns are the positions, under an overall parity. -/
theorem getLsbD_decRow_hamming {i j : ℕ} (hi : i < k + m) (hj : j < m) :
    (decRow k m (hammingCode k m) j).getLsbD i =
      (decide (j = m - 1) || (hammingPosition k m i).testBit j && decide (j < m - 1)) := by
  rw [(triangular_hammingCode hlen hm).getLsbD_decRow hi hj, Bool.eq_iff_iff]
  simp only [decide_eq_true_eq, Bool.or_eq_true, Bool.and_eq_true]
  by_cases hik : i < k
  · rw [(hammingPosition_of_lt hlen hik).2, mem_hammingTuple]
    have hne : i ≠ k + j := by omega
    tauto
  · rw [hammingPosition, if_neg hik]
    by_cases hi' : i < k + (m - 1)
    · rw [getD_hammingCode_parity k m (by omega) (by omega), List.mem_singleton, if_pos hi',
        Nat.testBit_two_pow, decide_eq_true_eq]
      omega
    · rw [getD_hammingCode_none k m (by omega), if_neg hi', Nat.zero_testBit]
      simp only [List.not_mem_nil, false_or, Bool.false_eq_true, false_and, or_false]
      omega

omit hm in
theorem hammingPosition_lt (hle : k + m ≤ 2 ^ (m - 1)) (i : ℕ) :
    hammingPosition k m i < 2 ^ (m - 1) := by
  by_cases hik : i < k
  · have := mem_hammingDataBits (hammingPosition_of_lt hlen hik).1
    omega
  · rw [hammingPosition, if_neg hik]
    split_ifs with hi
    · exact Nat.pow_lt_pow_right (by omega) (by omega)
    · exact Nat.two_pow_pos _

theorem hammingPosition_injective {i i' : ℕ} (hi : i < k + m) (hi' : i' < k + m)
    (h : hammingPosition k m i = hammingPosition k m i') : i = i' := by
  -- a data position is neither `0` nor a power of two
  have hmixed : ∀ a b, a < k → k ≤ b → hammingPosition k m a ≠ hammingPosition k m b := by
    intro a b ha hb heq
    obtain ⟨hpos, _, hpow⟩ := mem_hammingDataBits (hammingPosition_of_lt hlen ha).1
    rw [heq, hammingPosition, if_neg (by omega)] at hpos hpow
    by_cases hb' : b < k + (m - 1)
    · rw [if_pos hb'] at hpow
      exact hpow _ rfl
    · rw [if_neg hb'] at hpos
      omega
  by_cases hk : i < k <;> by_cases hk' : i' < k
  · rw [hammingPosition, if_pos hk, hammingPosition, if_pos hk',
      List.getD_eq_getElem _ _ (by omega), List.getD_eq_getElem _ _ (by omega)] at h
    exact (nodup_hammingDataBits k m).getElem_inj_iff.mp h
  · exact absurd h (hmixed i i' hk (by omega))
  · exact absurd h.symm (hmixed i' i hk' (by omega))
  · rw [hammingPosition, if_neg hk, hammingPosition, if_neg hk'] at h
    have hpow : ∀ j, 0 < 2 ^ j := Nat.two_pow_pos
    split_ifs at h with h₁ h₂ h₂
    · have := Nat.pow_right_injective (Nat.le_refl 2) h
      omega
    · exact absurd h (hpow _).ne'
    · exact absurd h.symm (hpow _).ne'
    · omega

theorem separates_hammingCode (t : CodeType) (ht : t.isHamming = true)
    (hle : k + m ≤ 2 ^ (m - 1)) : Separates (decRow k m (hammingCode k m)) (t.odd (m := m)) where
  injective := by
    intro i hi i' hi' hcol
    apply hammingPosition_injective hm hlen hi hi'
    apply Nat.eq_of_testBit_eq
    intro j
    by_cases hj : j < m - 1
    · have hbit := congrArg (fun c => c.getLsbD j) hcol
      simp only [getLsbD_column (show j < m by omega)] at hbit
      rw [getLsbD_decRow_hamming hm hlen hi (by omega),
        getLsbD_decRow_hamming hm hlen hi' (by omega)] at hbit
      simpa [hj, Nat.ne_of_lt hj] using hbit
    · have hpow : 2 ^ (m - 1) ≤ 2 ^ j := Nat.pow_le_pow_right (by omega) (by omega)
      rw [Nat.testBit_lt_two_pow, Nat.testBit_lt_two_pow]
      · exact (hammingPosition_lt hlen hle i').trans_le hpow
      · exact (hammingPosition_lt hlen hle i).trans_le hpow
  linear := t.odd_xor
  column := by
    intro i hi
    rw [CodeType.odd, if_pos ht, getLsbD_column (by omega),
      getLsbD_decRow_hamming hm hlen hi (by omega)]
    simp

end Minimal

/-! ### With a spare parity bit -/

/-- With a spare parity bit no check covers the last bit of the word. -/
theorem getLsbD_decRow_last {k m : ℕ} (hm : 2 ≤ m) (hlen : k < (hammingDataBits k m).length)
    {j : ℕ} (hj : j < m) : (decRow k m (hammingCode k m) j).getLsbD (k + m - 1) = false := by
  have hmask : (calcBitmasks k m (hammingCode k m) true).getD j 0 =
      (calcBitmasks k m (hammingCode k m) false).getD j 0 + 2 ^ (k + j) :=
    getD_calcBitmasks_true k (hammingCode k m) hj
  have hbit := testBit_calcBitmasks k (nodup_hammingCode k m) hj
  have hsize := length_hammingDataBits k m
  have hpos : 0 < (k + m - 1).size := Nat.size_pos.mpr (by omega)
  rw [decRow, BitVec.getLsbD_ofNat, hmask]
  apply Bool.and_eq_false_imp.mpr
  intro _
  by_cases hlast : j = m - 1
  · -- the bit of the parity itself is added to a mask that has it already
    have hset : ((calcBitmasks k m (hammingCode k m) false).getD j 0).testBit (k + m - 1) = true := by
      rw [hbit]
      apply decide_eq_true
      by_cases hdata : k + m - 1 < (hammingDataBits k m).length
      · rw [getD_hammingCode_data k m hdata, mem_hammingTuple]
        exact .inr hlast
      · rw [getD_hammingCode_parity k m (by omega) (by omega), hlast]
        exact List.mem_singleton_self _
    have hkj : k + j = k + m - 1 := by omega
    rw [hkj, Nat.add_comm, Nat.testBit_two_pow_add_eq, hset]
    rfl
  · -- the mask and the parity bit both lie below the bit before the last
    have hlow : (calcBitmasks k m (hammingCode k m) false).getD j 0 < 2 ^ (k + m - 2) := by
      apply Nat.lt_pow_two_of_testBit
      intro i hi
      rw [hbit]
      apply decide_eq_false
      by_cases hi' : i < (hammingDataBits k m).length + (m - 1)
      · rw [getD_hammingCode_parity k m (by omega) hi', List.mem_singleton]
        exact hlast
      · rw [getD_hammingCode_none k m (by omega)]
        exact List.not_mem_nil
    have hpar : 2 ^ (k + j) ≤ 2 ^ (k + m - 2) := Nat.pow_le_pow_right (by omega) (by omega)
    have hdouble : 2 ^ (k + m - 1) = 2 ^ (k + m - 2) + 2 ^ (k + m - 2) := by
      rw [show k + m - 1 = k + m - 2 + 1 by omega, Nat.pow_succ]
      omega
    apply Nat.testBit_lt_two_pow
    omega

end SecureBoot
