import SecureBoot.Secded.Hsiao

/-! Agreement of the encoders. Python complements an odd parity bit when it is
computed, the RTL complements all of them at the end. The two differ where a parity
row covers complemented bits, which only the last row of a Hamming code does. -/

namespace SecureBoot

open Bits Parity

/-! ### Digit strings -/

theorem parity_eq_of_zero {f : ℕ → Bool} {n m : ℕ} (h : ∀ i, n ≤ i → f i = false)
    (h' : ∀ i, m ≤ i → f i = false) : parity f n = parity f m := by
  obtain hle | hle := Nat.le_total n m
  · exact (parity_of_le hle h).symm
  · exact parity_of_le hle h'

theorem getD_formatBin (width x i : ℕ) :
    (formatBin width x).reverse.getD i false = x.testBit i := by
  rw [formatBin, List.reverse_reverse]
  by_cases hi : i < max (max width x.size) 1
  · rw [List.getD_eq_getElem _ _ (by simpa using hi), List.getElem_map, List.getElem_range]
  · rw [List.getD_eq_default _ _ (by rw [List.length_map, List.length_range]; omega)]
    have hsize : x.size ≤ i := by omega
    exact (Nat.testBit_lt_two_pow (Nat.size_le.mp hsize)).symm

theorem length_formatBin {width x : ℕ} (hwidth : 1 ≤ width) (hx : x < 2 ^ width) :
    (formatBin width x).length = width := by
  have hsize : x.size ≤ width := Nat.size_le.mpr hx
  rw [formatBin, List.length_reverse, List.length_map, List.length_range]
  omega

theorem testBit_intOfBin (digits : List Bool) (i : ℕ) :
    (intOfBin digits).testBit i = digits.reverse.getD i false := by
  induction digits using List.reverseRecOn generalizing i with
  | nil => simp [intOfBin]
  | append_singleton digits b ih =>
    have hconcat : intOfBin (digits ++ [b]) = 2 * intOfBin digits + b.toNat := by
      simp [intOfBin]
    rw [hconcat, List.reverse_concat']
    cases i with
    | zero =>
      rw [Nat.testBit_zero, List.getD_cons_zero]
      cases b <;> simp
    | succ i =>
      rw [Nat.testBit_succ, List.getD_cons_succ, ← ih]
      congr 1
      cases b <;> simp
      omega

theorem eccBit_concat (codewordRev maskRev : List Bool) (f : Bool) :
    eccBit codewordRev (maskRev ++ [f]) = (eccBit codewordRev maskRev).bind fun bit =>
      if f then codewordRev[maskRev.length]?.map (bit ^^ ·) else some bit := by
  simp [eccBit, List.zipIdx_append, List.foldlM_append]

/-- A mask within the string selects the parity of its digits. -/
theorem eccBit_eq_some {codewordRev maskRev : List Bool}
    (h : ∀ i, maskRev.getD i false = true → i < codewordRev.length) :
    eccBit codewordRev maskRev =
      some (parity (fun i => maskRev.getD i false && codewordRev.getD i false) maskRev.length) := by
  induction maskRev using List.reverseRecOn with
  | nil => rfl
  | append_singleton maskRev f ih =>
    have hinit : ∀ i < maskRev.length,
        (maskRev ++ [f]).getD i false = maskRev.getD i false := fun i hi => by
      rw [getD_concat, if_neg (Nat.ne_of_lt hi)]
    have hlast : (maskRev ++ [f]).getD maskRev.length false = f := by
      rw [getD_concat, if_pos rfl]
    have hih : ∀ i, maskRev.getD i false = true → i < codewordRev.length := by
      intro i hbit
      by_cases hi : i < maskRev.length
      · exact h i (by rw [hinit i hi, hbit])
      · rw [List.getD_eq_default _ _ (by omega)] at hbit
        exact absurd hbit Bool.false_ne_true
    rw [eccBit_concat, ih hih, List.length_append, List.length_singleton, parity, hlast,
      parity_congr fun i hi => by rw [← hinit i hi]]
    cases f with
    | false => simp
    | true =>
      have hlen : maskRev.length < codewordRev.length := h _ hlast
      simp [hlen]

/-- A mask beyond the string raises an `IndexError`. -/
theorem eccBit_eq_none {codewordRev maskRev : List Bool} {i : ℕ}
    (hbit : maskRev.getD i false = true) (hi : codewordRev.length ≤ i) :
    eccBit codewordRev maskRev = none := by
  induction maskRev using List.reverseRecOn with
  | nil => simp at hbit
  | append_singleton maskRev f ih =>
    rw [eccBit_concat]
    rw [getD_concat] at hbit
    split_ifs at hbit with hlast
    · subst hlast
      rw [hbit, List.getElem?_eq_none hi]
      cases eccBit codewordRev maskRev <;> rfl
    · rw [ih hbit]
      rfl

/-! ### The Python encoder -/

/-- Digit `i` of a codeword, from the least significant on. -/
def digit (codeword : List Bool) (i : ℕ) : Bool := codeword.reverse.getD i false

theorem digit_cons (b : Bool) (codeword : List Bool) (i : ℕ) :
    digit (b :: codeword) i = if i = codeword.length then b else digit codeword i := by
  rw [digit, List.reverse_cons, getD_concat, List.length_reverse]
  rfl

theorem digit_of_le {codeword : List Bool} {i : ℕ} (hi : codeword.length ≤ i) :
    digit codeword i = false := by
  rw [digit, List.getD_eq_default _ _ (by rwa [List.length_reverse])]

theorem eccStep_eq_some (m : ℕ) (invert : Bool) {codeword : List Bool} {mask : ℕ} (j : ℕ)
    (hmask : ∀ i, codeword.length ≤ i → mask.testBit i = false) :
    eccStep m invert codeword (mask, j) =
      some ((parity (fun i => mask.testBit i && digit codeword i) codeword.length ^^
        (invert && decide (j % 2 = 1))) :: codeword) := by
  have hbits : ∀ i, (formatBin (j + m) mask).reverse.getD i false = true →
      i < codeword.reverse.length := by
    intro i hbit
    by_contra hi
    rw [getD_formatBin, hmask i (by simpa using hi)] at hbit
    exact Bool.false_ne_true hbit
  rw [eccStep, eccBit_eq_some hbits, Option.map_some]
  congr 3
  have hzero : ∀ i, (formatBin (j + m) mask).reverse.length ≤ i →
      ((formatBin (j + m) mask).reverse.getD i false && codeword.reverse.getD i false) = false := by
    intro i hi
    rw [List.getD_eq_default _ _ hi, Bool.false_and]
  rw [parity_eq_of_zero (m := codeword.length) hzero]
  · exact parity_congr fun i _ => by rw [getD_formatBin, digit]
  · intro i hi
    rw [getD_formatBin, hmask i hi, Bool.false_and]

theorem eccStep_eq_none (m : ℕ) (invert : Bool) {codeword : List Bool} {mask : ℕ} (j : ℕ) {i : ℕ}
    (hbit : mask.testBit i = true) (hi : codeword.length ≤ i) :
    eccStep m invert codeword (mask, j) = none := by
  rw [eccStep, eccBit_eq_none (i := i) (by rw [getD_formatBin, hbit]) (by simpa using hi)]
  rfl

/-- A string of parity bits on the data: each the parity of its row below it, complemented
where `flip` says so. -/
structure Encodes (masks : List ℕ) (flip : ℕ → Bool) (k : ℕ) (data y : ℕ → Bool) : Prop where
  data : ∀ i < k, y i = data i
  parity : ∀ j < masks.length, y (k + j) =
    (Parity.parity (fun i => (masks.getD j 0).testBit i && y i) (k + j) ^^ flip j)

namespace Encodes

variable {masks : List ℕ} {flip flip' : ℕ → Bool} {k : ℕ} {data y y' : ℕ → Bool}

/-- The parity bits are determined one after the other. -/
theorem eq_of_flip_eq (h : Encodes masks flip k data y) (h' : Encodes masks flip' k data y')
    {n : ℕ} (hn : n ≤ masks.length) (hflip : ∀ j < n, flip j = flip' j) :
    ∀ i < k + n, y i = y' i := by
  induction n with
  | zero =>
    intro i hi
    rw [h.data i hi, h'.data i hi]
  | succ n ih =>
    have hbelow := ih (by omega) fun j hj => hflip j (by omega)
    intro i hi
    by_cases hlast : i = k + n
    · rw [hlast, h.parity n hn, h'.parity n hn, hflip n (Nat.lt_succ_self n)]
      rw [parity_congr fun i hi => by rw [hbelow i hi]]
    · exact hbelow i (by omega)

/-- Two encodings are equal exactly when they complement the same parity bits. -/
theorem eq_iff (h : Encodes masks flip k data y) (h' : Encodes masks flip' k data y') :
    (∀ i < k + masks.length, y i = y' i) ↔ ∀ j < masks.length, flip j = flip' j := by
  constructor
  · intro heq j hj
    have hpar := h'.parity j hj
    rw [← heq _ (by omega), h.parity j hj,
      parity_congr fun i (hi : i < k + j) => by rw [heq i (by omega)]] at hpar
    exact Bool.xor_right_inj.mp hpar
  · exact h.eq_of_flip_eq h' (Nat.le_refl _)

end Encodes

theorem foldlM_eccStep_concat (m : ℕ) (invert : Bool) (masks : List ℕ) (mask : ℕ)
    (word : List Bool) :
    (masks ++ [mask]).zipIdx.foldlM (eccStep m invert) word =
      (masks.zipIdx.foldlM (eccStep m invert) word).bind fun codeword =>
        eccStep m invert codeword (mask, masks.length) := by
  simp [List.zipIdx_append, List.foldlM_append]

/-- A run of the loop of `_ecc_encode` over rows that lie below their parity bits. -/
theorem foldlM_eccStep (m : ℕ) (invert : Bool) {masks : List ℕ} {k : ℕ} {word : List Bool}
    (hword : word.length = k)
    (hmasks : ∀ j < masks.length, ∀ i, k + j ≤ i → (masks.getD j 0).testBit i = false) :
    ∃ codeword, masks.zipIdx.foldlM (eccStep m invert) word = some codeword ∧
      codeword.length = k + masks.length ∧
      Encodes masks (fun j => invert && decide (j % 2 = 1)) k (digit word) (digit codeword) := by
  induction masks using List.reverseRecOn with
  | nil => exact ⟨word, rfl, hword, fun _ _ => rfl, nofun⟩
  | append_singleton masks mask ih =>
    have hold : ∀ j < masks.length, (masks ++ [mask]).getD j 0 = masks.getD j 0 := fun j hj => by
      rw [getD_concat, if_neg (Nat.ne_of_lt hj)]
    have hlast : (masks ++ [mask]).getD masks.length 0 = mask := by rw [getD_concat, if_pos rfl]
    obtain ⟨codeword, hrun, hlen, henc⟩ := ih fun j hj i hi => by
      have := hmasks j (by simp; omega) i hi
      rwa [hold j hj] at this
    have hmask : ∀ i, codeword.length ≤ i → mask.testBit i = false := by
      intro i hi
      have := hmasks masks.length (by simp) i (by omega)
      rwa [hlast] at this
    have hstep := eccStep_eq_some m invert masks.length hmask
    refine ⟨(parity (fun i => mask.testBit i && digit codeword i) codeword.length ^^
        (invert && decide (masks.length % 2 = 1))) :: codeword, ?_, ?_, ?_, ?_⟩
    · rw [foldlM_eccStep_concat, hrun]
      exact hstep
    · rw [List.length_cons, List.length_append, List.length_singleton]
      omega
    · intro i hi
      rw [digit_cons, if_neg (by omega), henc.data i hi]
    · intro j hj
      rw [List.length_append, List.length_singleton] at hj
      rw [parity_congr fun i (hi : i < k + j) => by rw [digit_cons, if_neg (by omega)], digit_cons]
      by_cases hj' : j = masks.length
      · rw [if_pos (by omega), hj', hlast, hlen]
      · rw [if_neg (by omega), hold j (by omega), henc.parity j (by omega)]

/-- The RTL encoder, against the complement of Python, complements a parity bit once more
for every complemented bit in its row. -/
theorem encodes_secdedEnc {k m : ℕ} {codes : List (List ℕ)} (h : Triangular k m codes)
    (t : CodeType) (data : BitVec k) :
    Encodes (calcBitmasks k m codes false)
      (fun j => xorReduce (invWord t k m &&& encRow k m codes j) ^^ (invWord t k m).getLsbD (k + j))
      k data.getLsbD (secdedEnc t k m codes data).getLsbD where
  data := fun i hi => Triangular.getLsbD_secdedEnc_of_lt t data hi
  parity := by
    intro j hj
    rw [length_calcBitmasks] at hj
    have hpar := h.getLsbD_secdedEnc t data hj
    rw [xor_and, xorReduce_xor, BitVec.getLsbD_xor] at hpar
    have hrow : xorReduce (secdedEnc t k m codes data &&& encRow k m codes j) =
        parity (fun i => ((calcBitmasks k m codes false).getD j 0).testBit i &&
          (secdedEnc t k m codes data).getLsbD i) (k + j) := by
      rw [xorReduce, ← parity_of_le (n := k + j) (m := k + m) (by omega)]
      · apply parity_congr
        intro i hi
        rw [BitVec.getLsbD_and, encRow, BitVec.getLsbD_ofNat, decide_eq_true hi, Bool.true_and,
          Bool.and_comm]
      · intro i hi
        rw [testBit_calcBitmasks k h.nodup hj, decide_eq_false, Bool.false_and]
        intro hmem
        have := h.lt i j hmem
        omega
    rw [← hrow]
    grind

theorem testBit_invMask (m j : ℕ) : (invMask m).testBit j = decide (j < m ∧ j % 2 = 1) := by
  induction m generalizing j with
  | zero => simp [invMask]
  | succ m ih =>
    have hsucc : invMask (m + 1) = invMask m + (m % 2) * 2 ^ m := by
      simp [invMask, List.range_succ]
    obtain hm | hm := Nat.mod_two_eq_zero_or_one m
    · rw [hsucc, hm, Nat.zero_mul, Nat.add_zero, ih, decide_eq_decide]
      omega
    · rw [hsucc, hm, Nat.one_mul, testBit_add_two_pow, ih, ← Bool.decide_or, decide_eq_decide]
      · omega
      · rw [ih]
        simp

/-- Where the complemented bits are. -/
theorem getLsbD_invWord {k m j : ℕ} (t : CodeType) (hj : j < m) :
    (invWord t k m).getLsbD (k + j) = (t.inverted && decide (j % 2 = 1)) := by
  unfold invWord
  have hkj : k + j < k + m := by omega
  cases t.inverted with
  | false => simp
  | true =>
    rw [if_pos rfl, BitVec.getLsbD_ofNat, Nat.testBit_shiftLeft, Nat.add_sub_cancel_left,
      testBit_invMask]
    simp [hkj, hj]

/-- The Python encoder and the RTL agree when no row covers an odd number of complemented
bits. -/
theorem eccEncodeWord_eq_iff {k m : ℕ} {codes : List (List ℕ)} (h : Triangular k m codes)
    (hk : 1 ≤ k) (t : CodeType) (data : BitVec k) :
    (eccEncodeWord k m (calcBitmasks k m codes false) t.inverted data.toNat).map intOfBin =
        some (secdedEnc t k m codes data).toNat ↔
      ∀ j < m, xorReduce (invWord t k m &&& encRow k m codes j) = false := by
  have hmasks : ∀ j < (calcBitmasks k m codes false).length, ∀ i, k + j ≤ i →
      ((calcBitmasks k m codes false).getD j 0).testBit i = false := by
    intro j hj i hi
    rw [length_calcBitmasks] at hj
    rw [testBit_calcBitmasks k h.nodup hj]
    apply decide_eq_false
    intro hmem
    have := h.lt i j hmem
    omega
  obtain ⟨codeword, hrun, hlen, hpy⟩ := foldlM_eccStep m t.inverted
    (length_formatBin hk data.isLt) hmasks
  have hdata : digit (formatBin k data.toNat) = data.getLsbD := by
    funext i
    rw [digit, getD_formatBin, BitVec.testBit_toNat]
  rw [hdata] at hpy
  rw [eccEncodeWord, if_pos data.isLt, hrun, Option.map_some, Option.some_inj]
  have heq := hpy.eq_iff (encodes_secdedEnc h t data)
  rw [length_calcBitmasks] at heq hlen
  have hnat : intOfBin codeword = (secdedEnc t k m codes data).toNat ↔
      ∀ i < k + m, digit codeword i = (secdedEnc t k m codes data).getLsbD i := by
    constructor
    · intro hint i _
      rw [digit, ← testBit_intOfBin, hint, BitVec.testBit_toNat]
    · intro hbits
      apply Nat.eq_of_testBit_eq
      intro i
      rw [testBit_intOfBin, BitVec.testBit_toNat]
      by_cases hi : i < k + m
      · exact hbits i hi
      · rw [BitVec.getLsbD_of_ge _ i (by omega)]
        exact digit_of_le (by omega)
  rw [hnat, heq]
  apply forall₂_congr
  intro j hj
  rw [getLsbD_invWord t hj]
  generalize (t.inverted && decide (j % 2 = 1)) = flip
  cases flip <;> cases xorReduce (invWord t k m &&& encRow k m codes j) <;> simp

/-- A row beyond the string at some round makes the whole run fail. -/
theorem foldlM_eccStep_eq_none (m : ℕ) (invert : Bool) {masks : List ℕ} {mask k i : ℕ}
    {word : List Bool} (hword : word.length = k) (hbit : mask.testBit i = true)
    (hi : k + masks.length ≤ i) :
    (masks ++ [mask]).zipIdx.foldlM (eccStep m invert) word = none := by
  have hlength : ∀ (masks : List ℕ) (codeword : List Bool),
      masks.zipIdx.foldlM (eccStep m invert) word = some codeword →
        codeword.length = k + masks.length := by
    intro masks
    induction masks using List.reverseRecOn with
    | nil =>
      intro codeword hrun
      rw [← Option.some.inj hrun, hword]
      rfl
    | append_singleton masks mask ih =>
      intro codeword hrun
      rw [foldlM_eccStep_concat] at hrun
      obtain ⟨before, hbefore, hstep⟩ := Option.bind_eq_some_iff.mp hrun
      obtain ⟨bit, _, rfl⟩ := Option.map_eq_some_iff.mp hstep
      rw [List.length_cons, ih before hbefore, List.length_append, List.length_singleton]
      omega
  rw [foldlM_eccStep_concat]
  cases hrun : masks.zipIdx.foldlM (eccStep m invert) word with
  | none => rfl
  | some codeword =>
    have hlen := hlength masks codeword hrun
    exact eccStep_eq_none m invert masks.length hbit (by omega)

/-! ### The rows over complemented bits -/

theorem parity_add (f : ℕ → Bool) (n n' : ℕ) :
    parity f (n + n') = (parity f n ^^ parity (fun i => f (n + i)) n') := by
  induction n' with
  | zero => simp [parity]
  | succ n' ih => rw [← Nat.add_assoc, parity, parity, ih, Bool.xor_assoc]

theorem parity_odd (n : ℕ) : parity (fun i => decide (i % 2 = 1)) n = decide (n / 2 % 2 = 1) := by
  induction n with
  | zero => rfl
  | succ n ih =>
    rw [parity, ih]
    obtain ⟨q, hq⟩ : ∃ q, n = 4 * q ∨ n = 4 * q + 1 ∨ n = 4 * q + 2 ∨ n = 4 * q + 3 :=
      ⟨n / 4, by omega⟩
    obtain rfl | rfl | rfl | rfl := hq <;> grind

/-- A row over data bits alone covers no complemented bit. -/
theorem xorReduce_invWord_of_data {k m : ℕ} {codes : List (List ℕ)} (h : Triangular k m codes)
    (t : CodeType) {j : ℕ} (hj : j < m) (hdata : ∀ i, k ≤ i → j ∉ codes.getD i []) :
    xorReduce (invWord t k m &&& encRow k m codes j) = false := by
  rw [xorReduce, parity_congr (g := fun _ => false), parity_false]
  intro i hi
  rw [BitVec.getLsbD_and, h.getLsbD_encRow hi hj]
  by_cases hk : i < k
  · rw [getLsbD_invWord_of_lt t m hk, Bool.false_and]
  · rw [decide_eq_false (hdata i (by omega)), Bool.and_false]

/-- The last row of a Hamming code covers every parity bit below it. -/
theorem xorReduce_invWord_hamming {k m : ℕ} (hm : 2 ≤ m)
    (hlen : (hammingDataBits k m).length = k) (t : CodeType) :
    xorReduce (invWord t k m &&& encRow k m (hammingCode k m) (m - 1)) =
      (t.inverted && decide ((m - 1) / 2 % 2 = 1)) := by
  have h := triangular_hammingCode hlen hm
  have hbits : ∀ i < m - 1, (invWord t k m &&& encRow k m (hammingCode k m) (m - 1)).getLsbD (k + i) =
      (t.inverted && decide (i % 2 = 1)) := by
    intro i hi
    rw [BitVec.getLsbD_and, getLsbD_invWord t (by omega), h.getLsbD_encRow (by omega) (by omega),
      getD_hammingCode_parity k m (by omega) (by omega)]
    simp
  have hdata : ∀ i < k, (invWord t k m &&& encRow k m (hammingCode k m) (m - 1)).getLsbD i =
      false := fun i hi => by
    rw [BitVec.getLsbD_and, getLsbD_invWord_of_lt t m hi, Bool.false_and]
  have hlast : ∀ i, m - 1 ≤ i →
      (invWord t k m &&& encRow k m (hammingCode k m) (m - 1)).getLsbD (k + i) = false := by
    intro i hi
    rw [BitVec.getLsbD_and, h.getLsbD_encRow_of_le (by omega) (by omega), Bool.and_false]
  rw [xorReduce, parity_add, parity_congr hdata, parity_false, Bool.false_xor,
    parity_of_le (n := m - 1) (by omega) hlast, parity_congr hbits]
  cases t.inverted with
  | false => simp
  | true => simpa using parity_odd (m - 1)

/-! ### The C encoder -/

theorem xorReduce_ushiftRight_one (word : BitVec 64) :
    xorReduce word = (word.getLsbD 0 ^^ xorReduce (word >>> 1)) := by
  have hshift : xorReduce (word >>> 1) = parity (fun i => word.getLsbD (1 + i)) 64 :=
    parity_congr fun i _ => BitVec.getLsbD_ushiftRight word 1 i
  have htop : parity (fun i => word.getLsbD (1 + i)) 64 =
      parity (fun i => word.getLsbD (1 + i)) 63 :=
    parity_of_le (by omega) fun i hi => BitVec.getLsbD_of_ge word (1 + i) (by omega)
  rw [hshift, htop, xorReduce]
  exact (parity_add word.getLsbD 1 63).trans (by rw [parity, parity, Bool.false_xor])

theorem calcParityLoop_eq (word : BitVec 64) (p : Bool) :
    calcParityLoop word p = (p ^^ xorReduce word) := by
  induction word, p using calcParityLoop.induct with
  | case1 p =>
    rw [calcParityLoop, if_pos rfl]
    exact (by rw [xorReduce_zero, Bool.xor_false] : p = (p ^^ xorReduce (0#64)))
  | case2 word p hword ih =>
    rw [dite_eq_ite] at ih
    rw [calcParityLoop, if_neg hword, ih, xorReduce_ushiftRight_one word]
    cases word.getLsbD 0 <;> cases p <;> simp

theorem calcParity_eq (word : BitVec 64) (invert : Bool) :
    calcParity word invert = (xorReduce word ^^ invert) := by
  rw [calcParity, calcParityLoop_eq, Bool.false_xor]

theorem getLsbD_cWord (inType inBytes : ℕ) (bytes : ℕ → BitVec 8) {i : ℕ} (hi : i < inType) :
    (cWord inType inBytes bytes).getLsbD i =
      (decide (i < 8 * inBytes) && (bytes (i / 8)).getLsbD (i % 8)) := by
  induction inBytes with
  | zero => simp [cWord]
  | succ n ih =>
    have hsucc : cWord inType (n + 1) bytes =
        cWord inType n bytes ||| (bytes n).setWidth inType <<< (n * 8) := by
      simp [cWord, List.range_succ]
    rw [hsucc, BitVec.getLsbD_or, ih, BitVec.getLsbD_shiftLeft, BitVec.getLsbD_setWidth]
    obtain hlt | ⟨r, hr, rfl⟩ | hge : i < 8 * n ∨ (∃ r < 8, i = 8 * n + r) ∨ 8 * n + 8 ≤ i := by
      by_cases hlow : i < 8 * n
      · exact .inl hlow
      · by_cases hmid : i < 8 * n + 8
        · exact .inr (.inl ⟨i - 8 * n, by omega, by omega⟩)
        · exact .inr (.inr (by omega))
    · have hlt' : i < n * 8 := by omega
      have hlt'' : i < 8 * (n + 1) := by omega
      simp [hlt, hlt', hlt'']
    · have hdiv : (8 * n + r) / 8 = n := by omega
      have hmod : (8 * n + r) % 8 = r := by omega
      have hsub : 8 * n + r - n * 8 = r := by omega
      have h₁ : ¬8 * n + r < 8 * n := by omega
      have h₂ : ¬8 * n + r < n * 8 := by omega
      have h₃ : 8 * n + r < 8 * (n + 1) := by omega
      have h₄ : r < inType := by omega
      simp [hdiv, hmod, hsub, h₁, h₂, h₃, h₄, hi]
    · have hout : (bytes n).getLsbD (i - n * 8) = false := BitVec.getLsbD_of_ge _ _ (by omega)
      have h₁ : ¬i < 8 * n := by omega
      have h₂ : ¬i < 8 * (n + 1) := by omega
      simp [hout, h₁, h₂]

theorem getLsbD_cIntegrity (outType : ℕ) {inType : ℕ} (t : CodeType) (masks : List ℕ)
    (word : BitVec inType) {j : ℕ} (hj : j < outType) :
    (cIntegrity outType t masks word).getLsbD j = (decide (j < masks.length) &&
      calcParity ((word &&& BitVec.ofNat inType (masks.getD j 0)).setWidth 64)
        (t.inverted && decide (j % 2 = 1))) := by
  induction masks using List.reverseRecOn with
  | nil => simp [cIntegrity]
  | append_singleton masks mask ih =>
    have hconcat : cIntegrity outType t (masks ++ [mask]) word =
        cIntegrity outType t masks word ||| BitVec.ofNat outType
          ((calcParity ((word &&& BitVec.ofNat inType mask).setWidth 64)
            (t.inverted && decide (masks.length % 2 = 1))).toNat <<< masks.length) := by
      simp [cIntegrity, List.zipIdx_append]
    rw [hconcat, BitVec.getLsbD_or, ih, BitVec.getLsbD_ofNat, Nat.testBit_shiftLeft, getD_concat,
      List.length_append, List.length_singleton]
    obtain hlt | rfl | hgt := Nat.lt_trichotomy j masks.length
    · have hle : ¬masks.length ≤ j := by omega
      have hsucc : j < masks.length + 1 := by omega
      simp [hlt, hle, hsucc, Nat.ne_of_lt hlt]
    · rw [if_pos rfl]
      generalize calcParity ((word &&& BitVec.ofNat inType mask).setWidth 64)
        (t.inverted && decide (masks.length % 2 = 1)) = b
      cases b <;> simp [hj]
    · have hsub : j - masks.length ≠ 0 := by omega
      have hout : ¬j < masks.length := by omega
      have hout' : ¬j < masks.length + 1 := by omega
      have hbit : ∀ b : Bool, b.toNat.testBit (j - masks.length) = false := by
        intro b
        apply Nat.testBit_lt_two_pow
        exact b.toNat_lt.trans_le (Nat.le_self_pow hsub 2)
      simp [hout, hout', hbit]

theorem bytesToCType_spec {n : ℕ} (hn : n ≤ 8) :
    ∃ width, bytesToCType n = some width ∧ 8 * n ≤ width ∧ width ≤ 64 := by
  unfold bytesToCType
  split_ifs
  · exact ⟨8, rfl, by omega, by omega⟩
  · exact ⟨16, rfl, by omega, by omega⟩
  · exact ⟨32, rfl, by omega, by omega⟩
  · exact ⟨64, rfl, by omega, by omega⟩

/-- A byte array that holds a data word, the least significant byte first. -/
def LittleEndian {k : ℕ} (bytes : ℕ → BitVec 8) (data : BitVec k) : Prop :=
  ∀ i < k, (bytes (i / 8)).getLsbD (i % 8) = data.getLsbD i

/-- The integrity bits of the C encoder are the parity bits of the RTL encoder, for a code
whose rows cover data bits alone. -/
theorem secdedEncC_eq {k m : ℕ} {codes : List (List ℕ)} (h : Triangular k m codes)
    (hdata : ∀ i j, k ≤ i → j ∉ codes.getD i []) (hk : k ≤ 64) (hm : m ≤ 20) (t : CodeType)
    (ht : t.isHamming = false) (data : BitVec k) {bytes : ℕ → BitVec 8}
    (hbytes : LittleEndian bytes data) :
    ∃ ecc, secdedEncC t k m codes bytes = some ecc ∧
      (secdedEnc t k m codes data).toNat = 2 ^ k * ecc + data.toNat := by
  obtain ⟨inType, hin, hinle, hin64⟩ := bytesToCType_spec (n := (k + 7) / 8) (by omega)
  obtain ⟨outType, hout, houtle, _⟩ := bytesToCType_spec (n := (m + 7) / 8) (by omega)
  have hguard : ¬(64 < k ∨ t.isHamming = true) := by
    rw [ht]
    simp
    omega
  refine ⟨(cIntegrity outType t (calcBitmasks k m codes false)
    (cWord inType ((k + 7) / 8) bytes)).toNat, ?_, ?_⟩
  · rw [secdedEncC, if_neg hguard]
    simp only [hin, hout]
    rfl
  have henc := encodes_secdedEnc h t data
  -- a row reads the data bits, whichever word they are in
  have hrow : ∀ j < m, xorReduce ((cWord inType ((k + 7) / 8) bytes &&&
        BitVec.ofNat inType ((calcBitmasks k m codes false).getD j 0)).setWidth 64) =
      parity (fun i => ((calcBitmasks k m codes false).getD j 0).testBit i &&
        (secdedEnc t k m codes data).getLsbD i) (k + j) := by
    intro j hj
    have hmask : ∀ i, k ≤ i →
        ((calcBitmasks k m codes false).getD j 0).testBit i = false := fun i hi => by
      rw [testBit_calcBitmasks k h.nodup hj, decide_eq_false (hdata i j hi)]
    rw [xorReduce, parity_of_le (n := k) hk, parity_of_le (n := k) (m := k + j) (by omega)]
    · apply parity_congr
      intro i hi
      rw [henc.data i hi, ← hbytes i hi, BitVec.getLsbD_setWidth, BitVec.getLsbD_and,
        getLsbD_cWord _ _ _ (by omega), BitVec.getLsbD_ofNat]
      have h₁ : i < 64 := by omega
      have h₂ : i < 8 * ((k + 7) / 8) := by omega
      have h₃ : i < inType := by omega
      simp [h₁, h₂, h₃, Bool.and_comm]
    · intro i hi
      rw [hmask i hi, Bool.false_and]
    · intro i hi
      rw [BitVec.getLsbD_setWidth, BitVec.getLsbD_and, BitVec.getLsbD_ofNat, hmask i hi]
      simp
  apply Nat.eq_of_testBit_eq
  intro i
  rw [Nat.testBit_two_pow_mul_add _ data.isLt, BitVec.testBit_toNat, BitVec.testBit_toNat]
  split_ifs with hi
  · exact henc.data i hi
  · obtain ⟨j, rfl⟩ := Nat.exists_eq_add_of_le (Nat.le_of_not_lt hi)
    rw [Nat.add_sub_cancel_left, BitVec.testBit_toNat]
    by_cases hj : j < m
    · rw [henc.parity j (by rwa [length_calcBitmasks]), getLsbD_cIntegrity _ _ _ _ (by omega),
        length_calcBitmasks, calcParity_eq, hrow j hj, getLsbD_invWord t hj,
        xorReduce_invWord_of_data h t hj fun i hi => hdata i j hi, Bool.false_xor,
        decide_eq_true hj, Bool.true_and]
    · rw [BitVec.getLsbD_of_ge _ _ (by omega)]
      by_cases hj' : j < outType
      · rw [getLsbD_cIntegrity _ _ _ _ hj', length_calcBitmasks, decide_eq_false hj,
          Bool.false_and]
      · rw [BitVec.getLsbD_of_ge _ _ (by omega)]

/-! ### The configurations -/

theorem eccEncode_eq (shuffle : Shuffle) (fuel : ℕ) {cfgs : List SecdedCfg} {cfg cfg' : SecdedCfg}
    {t : CodeType} (hpick : eccCfg cfgs t cfg.k = some cfg') (hm : cfg'.m = cfg.m)
    {codes : List (List ℕ)} (hcodes : genCode shuffle fuel t cfg.k cfg.m = some codes)
    (data x : ℕ) :
    eccEncode shuffle fuel cfgs t cfg.k data = some (x, cfg.m) ↔
      (eccEncodeWord cfg.k cfg.m (calcBitmasks cfg.k cfg.m codes false) t.inverted data).map
        intOfBin = some x := by
  have hcode : eccPickCode shuffle fuel cfgs t cfg.k =
      some (cfg.m, calcBitmasks cfg.k cfg.m codes false, t.inverted) := by
    rw [eccPickCode, hpick]
    simp only [hm, hcodes, Option.map_some]
  rw [eccEncode, hcode]
  simp only [Option.bind_eq_bind, Option.bind_some]
  cases eccEncodeWord cfg.k cfg.m (calcBitmasks cfg.k cfg.m codes false) t.inverted data with
  | none => simp
  | some codeword => simp

/-- `ecc_encode` returns the number of parity bits of the entry it takes. -/
theorem eccEncode_snd {shuffle : Shuffle} {fuel : ℕ} {cfgs : List SecdedCfg} {t : CodeType}
    {k data x m : ℕ} (h : eccEncode shuffle fuel cfgs t k data = some (x, m)) :
    (eccCfg cfgs t k).map SecdedCfg.m = some m := by
  unfold eccEncode eccPickCode at h
  cases hpick : eccCfg cfgs t k with
  | none => simp [hpick] at h
  | some cfg =>
    simp only [hpick, Option.bind_eq_bind, Option.bind_eq_some_iff, Option.map_eq_some_iff] at h
    obtain ⟨_, ⟨codes, _, rfl⟩, codeword, _, hout⟩ := h
    rw [Option.map_some]
    exact congrArg (fun out => some out.2) (Option.some.inj hout)

/-- The Python, RTL and C encoders on one data word. -/
def EncodersAgree (shuffle : Shuffle) (fuel : ℕ) (cfgs : List SecdedCfg) (t : CodeType) (k m : ℕ)
    (codes : List (List ℕ)) (data : BitVec k) : Prop :=
  eccEncode shuffle fuel cfgs t k data.toNat = some ((secdedEnc t k m codes data).toNat, m) ∧
  (t.isHamming = false → k ≤ 64 → ∀ bytes, LittleEndian bytes data →
    ∃ ecc, secdedEncC t k m codes bytes = some ecc ∧
      (secdedEnc t k m codes data).toNat = 2 ^ k * ecc + data.toNat)

theorem hsiao_eccEncodeWord {k m : ℕ} {codes : List (List ℕ)} (hlen : codes.length = k)
    (hrows : HsiaoRows m (oddSteps m) codes) (hk : 1 ≤ k) (t : CodeType) (data : BitVec k) :
    (eccEncodeWord k m (calcBitmasks k m codes false) t.inverted data.toNat).map intOfBin =
      some (secdedEnc t k m codes data).toNat := by
  have h := triangular_hsiaoCode hlen hrows
  rw [eccEncodeWord_eq_iff h hk]
  intro j hj
  apply xorReduce_invWord_of_data h t hj
  intro i hi
  rw [List.getD_eq_default _ _ (by omega)]
  exact List.not_mem_nil

/-- Without a spare parity bit, Python agrees with the RTL on a Hamming code unless an odd
number of complemented bits is in the last row. -/
theorem hamming_eccEncodeWord_iff {k m : ℕ} (hm : 2 ≤ m)
    (hlen : (hammingDataBits k m).length = k) (hk : 1 ≤ k) (t : CodeType) (data : BitVec k) :
    (eccEncodeWord k m (calcBitmasks k m (hammingCode k m) false) t.inverted data.toNat).map
        intOfBin = some (secdedEnc t k m (hammingCode k m) data).toNat ↔
      (t.inverted = true → (m - 1) / 2 % 2 = 0) := by
  have h := triangular_hammingCode hlen hm
  have hlast := xorReduce_invWord_hamming hm hlen t
  rw [eccEncodeWord_eq_iff h hk]
  constructor
  · intro hrows ht
    have := hrows (m - 1) (by omega)
    rw [hlast, ht, Bool.true_and, decide_eq_false_iff_not] at this
    omega
  · intro heven j hj
    by_cases hj' : j = m - 1
    · rw [hj', hlast]
      cases ht : t.inverted with
      | false => rfl
      | true =>
        have := heven ht
        rw [Bool.true_and, decide_eq_false_iff_not]
        omega
    · apply xorReduce_invWord_of_data h t hj
      intro i hi
      by_cases hi' : i < k + (m - 1)
      · rw [getD_hammingCode_parity k m (by omega) (by omega), List.mem_singleton]
        exact hj'
      · rw [getD_hammingCode_none k m (by omega)]
        exact List.not_mem_nil

/-- With a spare parity bit the last row of a Hamming code runs into the bit that Python
has yet to compute. -/
theorem hamming_eccEncodeWord_none {k m : ℕ} (hm : 2 ≤ m)
    (hlen : k < (hammingDataBits k m).length) (hk : 1 ≤ k) (invert : Bool) (data : BitVec k) :
    eccEncodeWord k m (calcBitmasks k m (hammingCode k m) false) invert data.toNat = none := by
  obtain ⟨masks, mask, hmasks⟩ : ∃ masks mask,
      calcBitmasks k m (hammingCode k m) false = masks ++ [mask] := by
    refine ⟨_, _, (List.dropLast_append_getLast ?_).symm⟩
    apply List.ne_nil_of_length_pos
    rw [length_calcBitmasks]
    omega
  have hlength : masks.length = m - 1 := by
    have := length_calcBitmasks k m (hammingCode k m)
    rw [hmasks, List.length_append, List.length_singleton] at this
    omega
  have hbit : mask.testBit (k + m - 1) = true := by
    have hget : (calcBitmasks k m (hammingCode k m) false).getD (m - 1) 0 = mask := by
      rw [hmasks, getD_concat, if_pos hlength.symm]
    rw [← hget, testBit_calcBitmasks k (nodup_hammingCode k m) (by omega)]
    apply decide_eq_true
    by_cases hdata : k + m - 1 < (hammingDataBits k m).length
    · rw [getD_hammingCode_data k m hdata, mem_hammingTuple]
      exact .inr rfl
    · rw [getD_hammingCode_parity k m (by omega) (by omega)]
      exact List.mem_singleton_self _
  rw [eccEncodeWord, if_pos data.isLt, hmasks]
  exact foldlM_eccStep_eq_none m invert (length_formatBin hk data.isLt) hbit (by omega)

/-- The encoders of an accepted configuration agree on a data word exactly when Python
takes the entry, no parity bit of a Hamming code is spare, and the last row of an
inverted Hamming code covers an even number of complemented bits. -/
theorem secded_encoders_agree_iff (shuffle : Shuffle) (fuel : ℕ) (cfgs : List SecdedCfg)
    (hverify : verify cfgs = 0) (cfg : SecdedCfg) (hcfg : cfg ∈ cfgs) (t : CodeType)
    (ht : cfg.codeType = some t) (codes : List (List ℕ))
    (hcodes : genCode shuffle fuel t cfg.k cfg.m = some codes) (data : BitVec cfg.k) :
    EncodersAgree shuffle fuel cfgs t cfg.k cfg.m codes data ↔
      (eccCfg cfgs t cfg.k).map SecdedCfg.m = some cfg.m ∧
      (t.isHamming = true → 2 ^ (cfg.m - 2) ≤ cfg.k + cfg.m - 1) ∧
      (t = .invHamming → (cfg.m - 1) / 2 % 2 = 0) := by
  obtain ⟨hk, hm20, hm, hle⟩ := verify_eq_zero hverify hcfg
  by_cases hpick : (eccCfg cfgs t cfg.k).map SecdedCfg.m = some cfg.m
  case neg =>
    constructor
    · intro h
      exact absurd (eccEncode_snd h.1) hpick
    · intro h
      exact absurd h.1 hpick
  obtain ⟨cfg', hcfg', hmeq⟩ := Option.map_eq_some_iff.mp hpick
  have hpy := eccEncode_eq shuffle fuel hcfg' hmeq hcodes data.toNat
    (secdedEnc t cfg.k cfg.m codes data).toNat
  rw [EncodersAgree, hpy]
  cases hham : t.isHamming with
  | false =>
    have hcode : hsiaoCode shuffle fuel cfg.k cfg.m = some codes := by
      cases t with
      | hsiao => exact hcodes
      | invHsiao => exact hcodes
      | hamming => exact absurd hham Bool.false_ne_true.symm
      | invHamming => exact absurd hham Bool.false_ne_true.symm
    have hne : t ≠ .invHamming := by
      rintro rfl
      exact Bool.false_ne_true hham.symm
    obtain ⟨hlen, hrows⟩ := hsiaoCode_eq_some shuffle fuel cfg.m (by omega) hle hcode
    have hdata : ∀ i j, cfg.k ≤ i → j ∉ codes.getD i [] := fun i j hi => by
      rw [List.getD_eq_default _ _ (by omega)]
      exact List.not_mem_nil
    constructor
    · exact fun _ => ⟨hpick, nofun, fun h => absurd h hne⟩
    · intro _
      refine ⟨hsiao_eccEncodeWord hlen hrows (by omega) t data, ?_⟩
      intro _ hk64 bytes hbytes
      exact secdedEncC_eq (triangular_hsiaoCode hlen hrows) hdata hk64 hm20 t hham data hbytes
  | true =>
    have hcode : codes = hammingCode cfg.k cfg.m := by
      cases t with
      | hamming => exact (Option.some.inj hcodes).symm
      | invHamming => exact (Option.some.inj hcodes).symm
      | hsiao => exact absurd hham Bool.false_ne_true
      | invHsiao => exact absurd hham Bool.false_ne_true
    have hinv : t.inverted = true ↔ t = .invHamming := by
      cases t <;> simp_all [CodeType.inverted, CodeType.isHamming]
    subst hcode
    by_cases hspare : 2 ^ (cfg.m - 2) ≤ cfg.k + cfg.m - 1
    · rw [hamming_eccEncodeWord_iff hm (length_hammingDataBits_eq hm hle hspare) (by omega), hinv]
      constructor
      · exact fun h => ⟨hpick, fun _ => hspare, h.1⟩
      · exact fun h => ⟨h.2.2, nofun⟩
    · rw [hamming_eccEncodeWord_none hm (lt_length_hammingDataBits hm (by omega)) (by omega)]
      constructor
      · exact fun h => absurd h.1 (by simp)
      · exact fun h => absurd (h.2.1 rfl) hspare

theorem secded_encoders_agree_iff_68 :
    verify secdedCfgs = 0 ∧
      ∀ data, EncodersAgree Shuffle.id 0 secdedCfgs .hamming 68 8 (hammingCode 68 8) data :=
  ⟨by decide, fun data => (secded_encoders_agree_iff Shuffle.id 0 secdedCfgs (by decide)
    ⟨68, 8, some .hamming⟩ (by decide) .hamming rfl (hammingCode 68 8) rfl data).mpr
    ⟨by decide, fun _ => by decide, nofun⟩⟩

/-- In the shipped configuration, Python sets the last parity bit of the inverted Hamming
codeword of zero for 32 bits, and the RTL does not. -/
theorem invHamming_encoders_differ :
    verify secdedCfgs = 0 ∧
      eccEncode Shuffle.id 0 secdedCfgs .invHamming 32 0 = some (0x6a00000000, 7) ∧
      (secdedEnc .invHamming 32 7 (hammingCode 32 7) 0#32).toNat = 0x2a00000000 ∧
      ¬EncodersAgree Shuffle.id 0 secdedCfgs .invHamming 32 7 (hammingCode 32 7) 0#32 := by
  have hpy : eccEncode Shuffle.id 0 secdedCfgs .invHamming 32 0 = some (0x6a00000000, 7) := by
    decide +kernel
  have hrtl : (secdedEnc .invHamming 32 7 (hammingCode 32 7) 0#32).toNat = 0x2a00000000 := by
    decide +kernel
  refine ⟨by decide, hpy, hrtl, ?_⟩
  intro h
  have hagree := h.1
  rw [BitVec.toNat_zero, hpy, hrtl] at hagree
  exact absurd hagree (by decide)

end SecureBoot
