import Mathlib.Data.List.GetD
import SecureBoot.Secded.Gen

/-! What the printed encoder and decoder compute from the codes: the rows of the check
matrix, that an encoded word passes every check, and that a code whose columns are
told apart corrects one error and detects two. -/

namespace SecureBoot

open Bits Parity

/-! ### The masks -/

theorem getD_concat {α : Type*} (l : List α) (a d : α) (i : ℕ) :
    (l ++ [a]).getD i d = if i = l.length then a else l.getD i d := by
  obtain hi | rfl | hi := Nat.lt_trichotomy i l.length
  · rw [List.getD_append _ _ _ _ hi, if_neg (Nat.ne_of_lt hi)]
  · simp
  · rw [if_neg (Nat.ne_of_gt hi), List.getD_eq_default _ _ (Nat.le_of_lt hi),
      List.getD_eq_default _ _ (by simp; omega)]

theorem getD_foldl_modify (c : List ℕ) (p : ℕ) (masks : List ℕ) {j : ℕ} (hj : j < masks.length) :
    (c.foldl (fun masks j => masks.modify j (· + p)) masks).getD j 0 =
      masks.getD j 0 + c.count j * p := by
  induction c generalizing masks with
  | nil => simp
  | cons a c ih =>
    rw [List.foldl_cons, ih _ (by rwa [List.length_modify]), List.count_cons, List.getD_eq_getElem _ _ (by rwa [List.length_modify]),
      List.getElem_modify, List.getD_eq_getElem _ _ hj]
    by_cases h : a = j
    · simp only [h, if_true, beq_self_eq_true, Nat.add_mul, Nat.one_mul]
      omega
    · simp [h]

theorem calcBitmasks_append (k m : ℕ) (codes : List (List ℕ)) (c : List ℕ) :
    calcBitmasks k m (codes ++ [c]) false =
      c.foldl (fun masks j => masks.modify j (· + 2 ^ codes.length))
        (calcBitmasks k m codes false) := by
  simp [calcBitmasks, List.zipIdx_append]

theorem length_foldl_modify (c : List ℕ) (p : ℕ) (masks : List ℕ) :
    (c.foldl (fun masks j => masks.modify j (· + p)) masks).length = masks.length := by
  induction c generalizing masks with
  | nil => rfl
  | cons a c ih => rw [List.foldl_cons, ih, List.length_modify]

@[simp] theorem length_calcBitmasks (k m : ℕ) (codes : List (List ℕ)) :
    (calcBitmasks k m codes false).length = m := by
  induction codes using List.reverseRecOn with
  | nil => simp [calcBitmasks]
  | append_singleton codes c ih => rw [calcBitmasks_append, length_foldl_modify, ih]

/-- Bit `i` of mask `j` is set when parity bit `j` is in code `i`. -/
theorem testBit_calcBitmasks {m : ℕ} (k : ℕ) {codes : List (List ℕ)}
    (hnodup : ∀ c ∈ codes, c.Nodup) {j : ℕ} (hj : j < m) (i : ℕ) :
    ((calcBitmasks k m codes false).getD j 0).testBit i = decide (j ∈ codes.getD i []) := by
  induction codes using List.reverseRecOn generalizing i with
  | nil => simp [calcBitmasks, hj]
  | append_singleton codes c ih =>
    have hold := ih fun c hc => hnodup c (by simp [hc])
    have hc : c.Nodup := hnodup c (by simp)
    have hget := getD_foldl_modify c (2 ^ codes.length) (calcBitmasks k m codes false)
      (j := j) (by rwa [length_calcBitmasks])
    have hclear : ((calcBitmasks k m codes false).getD j 0).testBit codes.length = false := by
      rw [hold]
      simp
    rw [calcBitmasks_append, hget]
    rw [getD_concat]
    by_cases hmem : j ∈ c
    · rw [List.count_eq_one_of_mem hc hmem, Nat.one_mul, testBit_add_two_pow hclear, hold]
      split_ifs with hi
      · simp [hi, hmem]
      · simp [hi]
    · rw [List.count_eq_zero_of_not_mem hmem, Nat.zero_mul, Nat.add_zero, hold]
      split_ifs with hi
      · simp [hi, hmem]
      · rfl

/-- The masks of the decoder have the parity bits added. -/
theorem getD_calcBitmasks_true {m : ℕ} (k : ℕ) (codes : List (List ℕ)) {j : ℕ} (hj : j < m) :
    (calcBitmasks k m codes true).getD j 0 =
      (calcBitmasks k m codes false).getD j 0 + 2 ^ (k + j) := by
  have hlen : j < (calcBitmasks k m codes false).length := by rwa [length_calcBitmasks]
  have hmap : calcBitmasks k m codes true =
      (calcBitmasks k m codes false).mapIdx fun j mask => mask + 2 ^ (k + j) := rfl
  rw [hmap, List.getD_eq_getElem _ _ (by rwa [List.length_mapIdx]), List.getElem_mapIdx,
    List.getD_eq_getElem _ _ hlen]

/-- Codes whose parity bits are computed from bits below them. -/
structure Triangular (k m : ℕ) (codes : List (List ℕ)) : Prop where
  nodup : ∀ c ∈ codes, c.Nodup
  lt : ∀ i j, j ∈ codes.getD i [] → i < k + j

/-- The row of parity bit `j` in the encoder. -/
def encRow (k m : ℕ) (codes : List (List ℕ)) (j : ℕ) : BitVec (k + m) :=
  BitVec.ofNat (k + m) ((calcBitmasks k m codes false).getD j 0)

namespace Triangular

variable {k m : ℕ} {codes : List (List ℕ)} (h : Triangular k m codes)

include h

theorem getLsbD_encRow {i j : ℕ} (hi : i < k + m) (hj : j < m) :
    (encRow k m codes j).getLsbD i = decide (j ∈ codes.getD i []) := by
  rw [encRow, BitVec.getLsbD_ofNat, testBit_calcBitmasks k h.nodup hj]
  simp [hi]

theorem getLsbD_encRow_of_le {i j : ℕ} (hj : j < m) (hij : k + j ≤ i) :
    (encRow k m codes j).getLsbD i = false := by
  by_cases hi : i < k + m
  · rw [h.getLsbD_encRow hi hj]
    apply decide_eq_false
    intro hmem
    have := h.lt i j hmem
    omega
  · exact BitVec.getLsbD_of_ge _ i (by omega)

/-- The decoder checks what the encoder computed, and the parity bit itself. -/
theorem decRow_eq {j : ℕ} (hj : j < m) :
    decRow k m codes j = encRow k m codes j ^^^ BitVec.twoPow (k + m) (k + j) := by
  have hclear : ((calcBitmasks k m codes false).getD j 0).testBit (k + j) = false := by
    rw [testBit_calcBitmasks k h.nodup hj]
    exact decide_eq_false fun hmem => absurd (h.lt _ _ hmem) (Nat.lt_irrefl _)
  apply BitVec.eq_of_getLsbD_eq
  intro i hi
  rw [BitVec.getLsbD_xor, decRow, getD_calcBitmasks_true k codes hj, BitVec.getLsbD_ofNat, testBit_add_two_pow hclear,
    encRow, BitVec.getLsbD_ofNat, BitVec.getLsbD_twoPow]
  have hkj : k + j < k + m := by omega
  by_cases hij : i = k + j
  · rw [hij, hclear]
    simp [hkj]
  · simp [hi, hij, Ne.symm hij]

/-- The columns of the decoder: the code of a data bit, and the place of a parity bit. -/
theorem getLsbD_decRow {i j : ℕ} (hi : i < k + m) (hj : j < m) :
    (decRow k m codes j).getLsbD i = decide (j ∈ codes.getD i [] ∨ i = k + j) := by
  rw [h.decRow_eq hj, BitVec.getLsbD_xor, BitVec.getLsbD_twoPow]
  by_cases hij : i = k + j
  · rw [hij, h.getLsbD_encRow_of_le hj (Nat.le_refl _)]
    have hkj : k + j < k + m := by omega
    simp [hkj]
  · rw [h.getLsbD_encRow hi hj]
    simp [hij, Ne.symm hij]

end Triangular

/-! ### The encoder -/

/-- The lines of the encoder that compute parity bits, from the masks `masks`. -/
def runParity {n : ℕ} (k : ℕ) (masks : List ℕ) (x : BitVec n) : BitVec n :=
  (masks.zipIdx.map fun (mask, j) => EncLine.parity (j + k) mask).foldl (fun x line => line.run x) x

theorem runParity_concat {n : ℕ} (k : ℕ) (masks : List ℕ) (mask : ℕ) (x : BitVec n) :
    runParity k (masks ++ [mask]) x =
      setBit (runParity k masks x) (masks.length + k)
        (xorReduce (runParity k masks x &&& BitVec.ofNat n mask)) := by
  simp [runParity, List.zipIdx_append, EncLine.run]

theorem getLsbD_runParity_of_lt {n k : ℕ} (masks : List ℕ) (x : BitVec n) {i : ℕ} (hi : i < k) :
    (runParity k masks x).getLsbD i = x.getLsbD i := by
  induction masks using List.reverseRecOn with
  | nil => rfl
  | append_singleton masks mask ih =>
    rw [runParity_concat, getLsbD_setBit, if_neg (by omega), ih]

/-- A parity bit keeps the value it is given, since the masks after it assign other bits,
and its own mask reads bits that are final. -/
theorem getLsbD_runParity {n k : ℕ} (masks : List ℕ) (x : BitVec n)
    (hlen : k + masks.length ≤ n)
    (hmasks : ∀ j < masks.length, ∀ i, k + j ≤ i → (masks.getD j 0).testBit i = false)
    {j : ℕ} (hj : j < masks.length) :
    (runParity k masks x).getLsbD (k + j) =
      xorReduce (runParity k masks x &&& BitVec.ofNat n (masks.getD j 0)) := by
  induction masks using List.reverseRecOn generalizing j with
  | nil => exact absurd hj (Nat.not_lt_zero j)
  | append_singleton masks mask ih =>
    rw [List.length_append, List.length_singleton] at hlen hj
    have hrow : ∀ i, k + masks.length ≤ i →
        (BitVec.ofNat n ((masks ++ [mask]).getD j 0)).getLsbD i = false := by
      intro i hi
      rw [BitVec.getLsbD_ofNat, hmasks j (by simpa using hj) i (by omega), Bool.and_false]
    have hread : xorReduce (runParity k (masks ++ [mask]) x &&&
          BitVec.ofNat n ((masks ++ [mask]).getD j 0)) =
        xorReduce (runParity k masks x &&& BitVec.ofNat n ((masks ++ [mask]).getD j 0)) := by
      apply xorReduce_and_congr
      intro i _ hbit
      rw [runParity_concat, getLsbD_setBit, if_neg]
      intro hassigned
      rw [hrow i (by omega)] at hbit
      exact Bool.false_ne_true hbit
    rw [hread, runParity_concat, getLsbD_setBit, getD_concat]
    by_cases hlast : j = masks.length
    · subst hlast
      rw [if_pos (by omega), if_pos rfl]
    · rw [if_neg (by omega), if_neg hlast]
      refine ih (by omega) (fun l hl i hi => ?_) (by omega)
      have := hmasks l (by simp; omega) i hi
      rwa [getD_concat, if_neg (Nat.ne_of_lt hl)] at this

theorem secdedEnc_eq (t : CodeType) (k m : ℕ) (codes : List (List ℕ)) (data : BitVec k) :
    secdedEnc t k m codes data =
      runParity k (calcBitmasks k m codes false) (data.setWidth (k + m)) ^^^ invWord t k m := by
  rw [secdedEnc, printEnc, List.foldl_append, runParity, invWord]
  cases t.inverted with
  | false => simp
  | true => rfl

theorem getLsbD_invWord_of_lt (t : CodeType) {k : ℕ} (m : ℕ) {i : ℕ} (hi : i < k) :
    (invWord t k m).getLsbD i = false := by
  unfold invWord
  split_ifs
  · rw [BitVec.getLsbD_ofNat, Nat.testBit_shiftLeft]
    simp
    omega
  · exact BitVec.getLsbD_zero

namespace Triangular

variable {k m : ℕ} {codes : List (List ℕ)} (h : Triangular k m codes) (t : CodeType)
  (data : BitVec k)

theorem getLsbD_secdedEnc_of_lt {i : ℕ} (hi : i < k) :
    (secdedEnc t k m codes data).getLsbD i = data.getLsbD i := by
  rw [secdedEnc_eq, BitVec.getLsbD_xor, getLsbD_invWord_of_lt t m hi, Bool.xor_false,
    getLsbD_runParity_of_lt _ _ hi, BitVec.getLsbD_setWidth]
  have hin : i < k + m := by omega
  simp [hin]

include h

/-- Each parity bit, its complement undone, is the parity of the bits of its row. -/
theorem getLsbD_secdedEnc {j : ℕ} (hj : j < m) :
    (secdedEnc t k m codes data ^^^ invWord t k m).getLsbD (k + j) =
      xorReduce ((secdedEnc t k m codes data ^^^ invWord t k m) &&& encRow k m codes j) := by
  rw [secdedEnc_eq, BitVec.xor_assoc, BitVec.xor_self, BitVec.xor_zero]
  apply getLsbD_runParity _ _ (by rw [length_calcBitmasks]) _ (by rwa [length_calcBitmasks])
  intro l hl i hi
  rw [length_calcBitmasks] at hl
  rw [testBit_calcBitmasks k h.nodup hl]
  apply decide_eq_false
  intro hmem
  have := h.lt i l hmem
  omega

/-- An encoded word passes every check of the decoder. -/
theorem syndrome_secdedEnc :
    syndrome (decRow k m codes) (secdedEnc t k m codes data ^^^ invWord t k m) = 0#m := by
  apply BitVec.eq_of_getLsbD_eq
  intro j hj
  have hand : ∀ x : BitVec (k + m), x &&& decRow k m codes j =
      (x &&& encRow k m codes j) ^^^ (BitVec.twoPow (k + m) (k + j) &&& x) := by
    intro x
    rw [h.decRow_eq hj, BitVec.and_comm, xor_and, BitVec.and_comm x]
  rw [getLsbD_syndrome _ hj, hand, xorReduce_xor, ← h.getLsbD_secdedEnc t data hj,
    xorReduce_twoPow_and _ (by omega), Bool.xor_self, BitVec.getLsbD_zero]

end Triangular

/-! ### The decoder -/

/-- The functional that the decoder takes for a single error. -/
def CodeType.odd (t : CodeType) {m : ℕ} (syndrome : BitVec m) : Bool :=
  if t.isHamming then syndrome.getLsbD (m - 1) else xorReduce syndrome

theorem CodeType.odd_xor (t : CodeType) {m : ℕ} (x y : BitVec m) :
    t.odd (x ^^^ y) = (t.odd x ^^ t.odd y) := by
  unfold CodeType.odd
  split_ifs
  · exact BitVec.getLsbD_xor
  · exact xorReduce_xor x y

theorem getLsbD_decErr_zero (t : CodeType) {m : ℕ} (syndrome : BitVec m) :
    (decErr t syndrome).getLsbD 0 = t.odd syndrome := by
  unfold decErr CodeType.odd
  split_ifs
  all_goals rw [getLsbD_setBit, if_neg (by omega), getLsbD_setBit, if_pos (by omega)]

/-- Below a clear last bit, the syndrome is zero when its other bits are. -/
theorem setWidth_eq_zero_iff {m : ℕ} (x : BitVec m) (hlast : x.getLsbD (m - 1) = false) :
    x.setWidth (m - 1) = 0#(m - 1) ↔ x = 0#m := by
  constructor
  · intro hzero
    apply BitVec.eq_of_getLsbD_eq
    intro i hi
    rw [BitVec.getLsbD_zero]
    by_cases hi' : i = m - 1
    · rw [hi', hlast]
    · have hbit : (x.setWidth (m - 1)).getLsbD i = x.getLsbD i := by
        rw [BitVec.getLsbD_setWidth, decide_eq_true (by omega), Bool.true_and]
      rw [← hbit, hzero, BitVec.getLsbD_zero]
  · rintro rfl
    simp

theorem getLsbD_decErr_one (t : CodeType) {m : ℕ} (syndrome : BitVec m) :
    (decErr t syndrome).getLsbD 1 = (!t.odd syndrome && decide (syndrome ≠ 0#m)) := by
  unfold decErr CodeType.odd
  split_ifs
  all_goals rw [getLsbD_setBit, if_pos (by omega)]
  · cases hlast : syndrome.getLsbD (m - 1) with
    | true => simp
    | false => simp [setWidth_eq_zero_iff syndrome hlast]
  · rfl

/-- Data comes back through at most one error, and the error bits tell one error from
two. -/
def CorrectsOneDetectsTwo (t : CodeType) (k m : ℕ) (codes : List (List ℕ)) (data : BitVec k)
    (e : BitVec (k + m)) : Prop :=
  let out := secdedDec t k m codes (secdedEnc t k m codes data ^^^ e)
  (weight e ≤ 1 → out.data = data) ∧
  (out.err.getLsbD 0 = true ↔ weight e = 1) ∧ (out.err.getLsbD 1 = true ↔ weight e = 2)

namespace Triangular

variable {k m : ℕ} {codes : List (List ℕ)} (h : Triangular k m codes) (t : CodeType)

include h

/-- The syndrome that corrects data bit `i` is the column of that bit. -/
theorem ofNat_calcSyndrome {i : ℕ} (hi : i < k) :
    BitVec.ofNat m (calcSyndrome (codes.getD i [])) = column (decRow k m codes) i := by
  have hnodup : (codes.getD i []).Nodup := by
    by_cases hlen : i < codes.length
    · rw [List.getD_eq_getElem _ _ hlen]
      exact h.nodup _ (List.getElem_mem hlen)
    · rw [List.getD_eq_default _ _ (by omega)]
      exact List.nodup_nil
  apply BitVec.eq_of_getLsbD_eq
  intro j hj
  rw [getLsbD_column hj, h.getLsbD_decRow (by omega) hj, BitVec.getLsbD_ofNat, calcSyndrome,
    testBit_sum_two_pow hnodup]
  have hij : i ≠ k + j := by omega
  simp [hj, hij]

theorem syndrome_secdedDec (data : BitVec k) (e : BitVec (k + m)) :
    (secdedDec t k m codes (secdedEnc t k m codes data ^^^ e)).syndrome =
      syndrome (decRow k m codes) e := by
  have hinv : secdedEnc t k m codes data ^^^ e ^^^ invWord t k m =
      secdedEnc t k m codes data ^^^ invWord t k m ^^^ e := by
    rw [BitVec.xor_assoc, BitVec.xor_comm e, BitVec.xor_assoc]
  rw [secdedDec, hinv, syndrome_xor, h.syndrome_secdedEnc, BitVec.zero_xor]

/-- A code whose columns are told apart, each odd, is a SECDED code. -/
theorem correctsOneDetectsTwo
    (hsep : Separates (decRow k m codes) (t.odd (m := m))) (data : BitVec k)
    {e : BitVec (k + m)} (he : weight e ≤ 2) : CorrectsOneDetectsTwo t k m codes data e := by
  have hsyn := h.syndrome_secdedDec t data e
  refine ⟨fun hone => ?_, ?_, ?_⟩
  · apply BitVec.eq_of_getLsbD_eq
    intro i hi
    have hdata : (secdedDec t k m codes (secdedEnc t k m codes data ^^^ e)).data.getLsbD i =
        ((secdedDec t k m codes (secdedEnc t k m codes data ^^^ e)).syndrome ==
          BitVec.ofNat m (calcSyndrome (codes.getD i [])) ^^
          (secdedEnc t k m codes data ^^^ e).getLsbD i) := getLsbD_ofBits hi
    have hcol := hsep.syndrome_eq_column_iff hone (i := i) (by omega)
    have hbit : (syndrome (m := m) (decRow k m codes) e == column (decRow k m codes) i) =
        e.getLsbD i := by
      rw [Bool.eq_iff_iff, beq_iff_eq]
      exact hcol
    rw [hdata, hsyn, h.ofNat_calcSyndrome hi, hbit, BitVec.getLsbD_xor,
      getLsbD_secdedEnc_of_lt t data hi]
    cases e.getLsbD i <;> cases data.getLsbD i <;> rfl
  · have herr : (secdedDec t k m codes (secdedEnc t k m codes data ^^^ e)).err.getLsbD 0 =
        decide (weight e = 1) := by
      rw [← hsep.odd_syndrome he, ← hsyn]
      exact getLsbD_decErr_zero t _
    rw [herr, decide_eq_true_eq]
  · have herr : (secdedDec t k m codes (secdedEnc t k m codes data ^^^ e)).err.getLsbD 1 =
        decide (weight e = 2) := by
      rw [← hsep.even_syndrome he, ← hsyn]
      exact getLsbD_decErr_one t _
    rw [herr, decide_eq_true_eq]

end Triangular

end SecureBoot
