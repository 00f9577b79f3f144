import Mathlib.Data.Nat.Choose.Sum
import SecureBoot.Secded.Hamming

/-! The Hsiao codes. Whatever the shuffles, the generator collects `k` different sets
of parity bits of an odd size from three on, so that the columns of the check matrix
are different and odd. -/

namespace SecureBoot

open Bits Parity

/-! ### Combinations -/

section Combinations

variable {α : Type*}

theorem combinations_perm (l : List α) (n : ℕ) :
    (combinations l n).Perm (List.sublistsLen n l) := by
  induction l generalizing n with
  | nil => cases n <;> simp [combinations]
  | cons a l ih =>
    cases n with
    | zero => simp [combinations]
    | succ n =>
      rw [combinations, List.sublistsLen_succ_cons]
      exact List.perm_append_comm.trans ((ih (n + 1)).append ((ih n).map _))

theorem mem_combinations {l c : List α} {n : ℕ} :
    c ∈ combinations l n ↔ c.Sublist l ∧ c.length = n := by
  rw [(combinations_perm l n).mem_iff, List.mem_sublistsLen]

theorem length_combinations (l : List α) (n : ℕ) :
    (combinations l n).length = l.length.choose n := by
  rw [(combinations_perm l n).length_eq, List.length_sublistsLen]

theorem nodup_combinations {l : List α} (hl : l.Nodup) (n : ℕ) : (combinations l n).Nodup :=
  (combinations_perm l n).nodup_iff.mpr (List.nodup_sublistsLen n hl)

end Combinations

/-! ### The choice of the rows -/

/-- What the generator appends to the codes: different combinations of the given sizes. -/
structure HsiaoRows (m : ℕ) (steps : List ℕ) (rows : List (List ℕ)) : Prop where
  nodup : rows.Nodup
  sublist : ∀ c ∈ rows, c.Sublist (List.range m)
  length_mem : ∀ c ∈ rows, c.length ∈ steps

variable (shuffle : Shuffle) (fuel m : ℕ)

theorem hsiaoRows_take {step : ℕ} {rows : List (List ℕ)} (n : ℕ)
    (hrows : rows.Perm (combinations (List.range m) step)) :
    HsiaoRows m [step] (rows.take n) where
  nodup := (hrows.nodup_iff.mpr (nodup_combinations List.nodup_range step)).sublist
    (List.take_sublist n rows)
  sublist := fun _ hc => (mem_combinations.mp (hrows.mem_iff.mp (List.mem_of_mem_take hc))).1
  length_mem := fun _ hc => List.mem_singleton.mpr
    (mem_combinations.mp (hrows.mem_iff.mp (List.mem_of_mem_take hc))).2

theorem HsiaoRows.append {step : ℕ} {steps : List ℕ} {rows rows' : List (List ℕ)}
    (h : HsiaoRows m [step] rows) (h' : HsiaoRows m steps rows') (hstep : step ∉ steps) :
    HsiaoRows m (step :: steps) (rows ++ rows') where
  nodup := by
    apply List.Nodup.append h.nodup h'.nodup
    intro c hc hc'
    have hlen := List.mem_singleton.mp (h.length_mem c hc)
    exact hstep (hlen ▸ h'.length_mem c hc')
  sublist := by
    intro c hc
    obtain hc | hc := List.mem_append.mp hc
    · exact h.sublist c hc
    · exact h'.sublist c hc
  length_mem := by
    intro c hc
    obtain hc | hc := List.mem_append.mp hc
    · rw [List.mem_singleton.mp (h.length_mem c hc)]
      exact List.mem_cons_self
    · exact List.mem_cons_of_mem step (h'.length_mem c hc)

theorem HsiaoRows.mono {steps steps' : List ℕ} {rows : List (List ℕ)} (h : HsiaoRows m steps rows)
    (hsub : steps ⊆ steps') : HsiaoRows m steps' rows :=
  ⟨h.nodup, h.sublist, fun c hc => hsub (h.length_mem c hc)⟩

/-- The search returns the first rows of a permutation of the candidates. -/
theorem hsiaoPick_eq_some {requiredRow faninIdeal : ℕ} {fanins : List ℕ} {call : ℕ}
    {candidate rows : List (List ℕ)}
    (h : hsiaoPick shuffle m requiredRow faninIdeal fanins fuel call candidate = some rows) :
    ∃ l : List (List ℕ), l.Perm candidate ∧ rows = l.take requiredRow := by
  induction fuel generalizing call candidate with
  | zero => exact absurd h (Option.some_ne_none rows).symm
  | succ fuel ih =>
    rw [hsiaoPick] at h
    split_ifs at h
    · exact ⟨shuffle.run call candidate, shuffle.perm call candidate, (Option.some.inj h).symm⟩
    · obtain ⟨l, hl, hrows⟩ := ih h
      exact ⟨l, hl.trans (shuffle.perm call candidate), hrows⟩

/-- The generator appends `requiredRow` rows when there are enough combinations. -/
theorem hsiaoSteps_eq_some {faninIdeal : ℕ} {steps : List ℕ} {requiredRow : ℕ}
    {codes out : List (List ℕ)} (hsteps : steps.Nodup)
    (h : hsiaoSteps shuffle fuel m faninIdeal steps requiredRow codes = some out)
    (henough : requiredRow ≤ (steps.map fun s => m.choose s).sum) :
    ∃ rows, out = codes ++ rows ∧ rows.length = requiredRow ∧ HsiaoRows m steps rows := by
  induction steps generalizing requiredRow codes with
  | nil =>
    have hzero : requiredRow = 0 := Nat.le_zero.mp henough
    refine ⟨[], ?_, hzero.symm, List.nodup_nil, nofun, nofun⟩
    rw [List.append_nil]
    exact (Option.some.inj h).symm
  | cons step steps ih =>
    obtain ⟨hstep, hsteps⟩ := List.nodup_cons.mp hsteps
    have hall : HsiaoRows m [step] (combinations (List.range m) step) := by
      have := hsiaoRows_take m (combinations (List.range m) step).length
        (List.Perm.refl (combinations (List.range m) step))
      rwa [List.take_length] at this
    have hchoose : (combinations (List.range m) step).length = m.choose step := by
      rw [length_combinations, List.length_range]
    rw [List.map_cons, List.sum_cons] at henough
    simp only [hsiaoSteps] at h
    split_ifs at h with hfit hlast
    · refine ⟨_, (Option.some.inj h).symm, by omega, hall.mono m ?_⟩
      simp
    · obtain ⟨rows, rfl, hlen, hrows⟩ := ih hsteps h (by omega)
      refine ⟨_, List.append_assoc _ _ _, ?_, hall.append m hrows hstep⟩
      rw [List.length_append]
      omega
    · obtain ⟨rows, hpick, rfl⟩ := Option.map_eq_some_iff.mp h
      obtain ⟨l, hl, rfl⟩ := hsiaoPick_eq_some shuffle fuel m hpick
      refine ⟨_, rfl, ?_, (hsiaoRows_take m requiredRow hl).mono m ?_⟩
      · rw [List.length_take, hl.length_eq]
        omega
      · simp

/-! ### Enough combinations -/

/-- Pairs of neighbours in a row of Pascal's triangle. -/
theorem sum_choose_odd_pairs (m n : ℕ) :
    ∑ i ∈ Finset.range n, (m + 1).choose (2 * i + 1) = ∑ j ∈ Finset.range (2 * n), m.choose j := by
  induction n with
  | zero => rfl
  | succ n ih =>
    rw [Finset.sum_range_succ, ih, Nat.mul_succ, Finset.sum_range_succ, Finset.sum_range_succ,
      Nat.choose_succ_succ']
    omega

theorem sum_choose_of_le {m n : ℕ} (hn : m < n) : ∑ j ∈ Finset.range n, m.choose j = 2 ^ m := by
  rw [← Nat.sum_range_choose]
  apply (Finset.sum_subset (Finset.range_mono hn) _).symm
  intro j _ hj
  exact Nat.choose_eq_zero_of_lt (by simpa using hj)

theorem sum_map_oddSteps (f : ℕ → ℕ) (m : ℕ) :
    ((oddSteps m).map f).sum = ∑ i ∈ Finset.range ((m - 1) / 2), f (2 * i + 3) := by
  rw [oddSteps]
  induction (m - 1) / 2 with
  | zero => rfl
  | succ n ih =>
    rw [List.range'_concat, List.map_append, List.sum_append, ih, Finset.sum_range_succ]
    simp [Nat.add_comm]

/-- There are `2 ^ (m - 1) - m` sets of an odd size from three on. -/
theorem sum_choose_oddSteps {m : ℕ} (hm : 1 ≤ m) :
    ((oddSteps m).map fun s => m.choose s).sum + m = 2 ^ (m - 1) := by
  obtain ⟨m, rfl⟩ := Nat.exists_eq_add_of_le' hm
  have hpairs := sum_choose_odd_pairs m (m / 2 + 1)
  rw [sum_choose_of_le (by omega), Finset.sum_range_succ'] at hpairs
  rw [sum_map_oddSteps, Nat.add_sub_cancel, ← hpairs]
  simp [Nat.mul_add]

theorem nodup_oddSteps (m : ℕ) : (oddSteps m).Nodup := List.nodup_range' 2

theorem mem_oddSteps {m s : ℕ} (hs : s ∈ oddSteps m) : 3 ≤ s ∧ s % 2 = 1 := by
  obtain ⟨i, _, rfl⟩ := List.mem_range'.mp hs
  omega

/-- The codes that the generator returns. -/
theorem hsiaoCode_eq_some {k : ℕ} {codes : List (List ℕ)} (hm : 1 ≤ m)
    (hle : k + m ≤ 2 ^ (m - 1)) (h : hsiaoCode shuffle fuel k m = some codes) :
    codes.length = k ∧ HsiaoRows m (oddSteps m) codes := by
  have hsum := sum_choose_oddSteps hm
  obtain ⟨rows, hout, hlen, hrows⟩ :=
    hsiaoSteps_eq_some shuffle fuel m (nodup_oddSteps m) h (by omega)
  rw [List.nil_append] at hout
  rw [hout]
  exact ⟨hlen, hrows⟩

/-! ### The columns -/

/-- The parity of the indicator of a set of indices. -/
theorem parity_mem {c : List ℕ} (hc : c.Nodup) {m : ℕ} (hlt : ∀ j ∈ c, j < m) :
    parity (fun j => decide (j ∈ c)) m = decide (c.length % 2 = 1) := by
  induction c with
  | nil => simp
  | cons a c ih =>
    obtain ⟨ha, hc⟩ := List.nodup_cons.mp hc
    have hsplit : (fun j => decide (j ∈ a :: c)) =
        fun j => (decide (j = a) && true) ^^ decide (j ∈ c) := by
      funext j
      by_cases hj : j = a
      · simp [hj, ha]
      · simp [hj]
    rw [hsplit, parity_xor, parity_single (hlt a List.mem_cons_self),
      ih hc fun j hj => hlt j (List.mem_cons_of_mem a hj), List.length_cons, Bool.true_xor,
      ← decide_not, decide_eq_decide]
    omega

section Columns

variable {m} {k : ℕ} {codes : List (List ℕ)} (hlen : codes.length = k)
  (hrows : HsiaoRows m (oddSteps m) codes)

include hlen hrows

theorem triangular_hsiaoCode : Triangular k m codes where
  nodup := fun c hc => (hrows.sublist c hc).nodup List.nodup_range
  lt := by
    intro i j hmem
    by_contra hge
    rw [List.getD_eq_default _ _ (by omega)] at hmem
    exact List.not_mem_nil hmem

/-- The set of parity bits that a column stands for. -/
def hsiaoColumn (k : ℕ) (codes : List (List ℕ)) (i : ℕ) : List ℕ :=
  if i < k then codes.getD i [] else [i - k]

theorem hsiaoColumn_spec {i : ℕ} (hi : i < k + m) :
    (hsiaoColumn k codes i).Sublist (List.range m) ∧ (hsiaoColumn k codes i).length % 2 = 1 ∧
      (i < k ↔ 3 ≤ (hsiaoColumn k codes i).length) := by
  unfold hsiaoColumn
  split_ifs with hk
  · rw [List.getD_eq_getElem _ _ (by omega)]
    have hmem : codes[i] ∈ codes := List.getElem_mem (by omega)
    obtain ⟨hge, hodd⟩ := mem_oddSteps (hrows.length_mem _ hmem)
    exact ⟨hrows.sublist _ hmem, hodd, fun _ => hge, fun _ => hk⟩
  · refine ⟨?_, rfl, fun h => absurd h hk, fun h => absurd h (by simp)⟩
    exact List.singleton_sublist.mpr (List.mem_range.mpr (by omega))

theorem getLsbD_column_hsiao {i j : ℕ} (hi : i < k + m) (hj : j < m) :
    (column (m := m) (decRow k m codes) i).getLsbD j = decide (j ∈ hsiaoColumn k codes i) := by
  rw [getLsbD_column hj, (triangular_hsiaoCode hlen hrows).getLsbD_decRow hi hj,
    decide_eq_decide, hsiaoColumn]
  split_ifs with hk
  · have hne : i ≠ k + j := by omega
    simp [hne]
  · rw [List.getD_eq_default _ _ (by omega), List.mem_singleton]
    simp
    omega

/-- Different columns: a set of parity bits is a sublist of `range m`, which its members
determine, and a code has three of them where a parity bit has one. -/
theorem hsiaoColumn_injective {i i' : ℕ} (hi : i < k + m) (hi' : i' < k + m)
    (h : ∀ j < m, j ∈ hsiaoColumn k codes i ↔ j ∈ hsiaoColumn k codes i') : i = i' := by
  obtain ⟨hsub, _, hk⟩ := hsiaoColumn_spec hlen hrows hi
  obtain ⟨hsub', _, hk'⟩ := hsiaoColumn_spec hlen hrows hi'
  have heq : hsiaoColumn k codes i = hsiaoColumn k codes i' := by
    have hperm : (hsiaoColumn k codes i).Perm (hsiaoColumn k codes i') := by
      apply (List.perm_ext_iff_of_nodup (hsub.nodup List.nodup_range)
        (hsub'.nodup List.nodup_range)).mpr
      intro j
      by_cases hj : j < m
      · exact h j hj
      · have hout : ∀ c : List ℕ, c.Sublist (List.range m) → j ∉ c := fun c hc hmem =>
          hj (List.mem_range.mp (hc.subset hmem))
        simp [hout _ hsub, hout _ hsub']
    exact hperm.eq_of_pairwise (fun a b _ _ hab hba => absurd hab (Nat.lt_asymm hba))
      (List.pairwise_lt_range.sublist hsub) (List.pairwise_lt_range.sublist hsub')
  have hside : i < k ↔ i' < k := by rw [hk, hk', heq]
  unfold hsiaoColumn at heq
  by_cases hi : i < k
  · rw [if_pos hi, if_pos (hside.mp hi), List.getD_eq_getElem _ _ (by omega),
      List.getD_eq_getElem _ _ (by omega)] at heq
    exact hrows.nodup.getElem_inj_iff.mp heq
  · rw [if_neg hi, if_neg (mt hside.mpr hi), List.singleton_inj] at heq
    omega

theorem separates_hsiaoCode (t : CodeType) (ht : t.isHamming = false) :
    Separates (decRow k m codes) (t.odd (m := m)) where
  injective := by
    intro i hi i' hi' hcol
    apply hsiaoColumn_injective hlen hrows hi hi'
    intro j hj
    have hbit := congrArg (fun c => c.getLsbD j) hcol
    simp only [getLsbD_column_hsiao hlen hrows hi hj, getLsbD_column_hsiao hlen hrows hi' hj,
      decide_eq_decide] at hbit
    exact hbit
  linear := t.odd_xor
  column := by
    intro i hi
    obtain ⟨hsub, hodd, _⟩ := hsiaoColumn_spec hlen hrows hi
    rw [CodeType.odd, ht, if_neg Bool.false_ne_true, xorReduce,
      parity_congr fun j hj => getLsbD_column_hsiao hlen hrows hi hj,
      parity_mem (hsub.nodup List.nodup_range) fun j hj => List.mem_range.mp (hsub.subset hj)]
    exact decide_eq_true hodd

end Columns

end SecureBoot

/-! Error correction of the generated codes. A configuration that `verify` accepts has
parity bits enough; the Hsiao codes use them all, and the Hamming codes correct errors
exactly when none of them is spare. -/

namespace SecureBoot

open Bits Parity

/-! ### What `verify` accepts -/

theorem lt_two_pow_of_le {a l : ℕ} (h : a + 1 ≤ 2 ^ l) {n : ℕ} (hle : l ≤ n) :
    a - l + n + 1 ≤ 2 ^ n := by
  induction n, hle using Nat.le_induction with
  | base =>
    have : l < 2 ^ l := Nat.lt_two_pow_self
    omega
  | succ n hle ih =>
    rw [Nat.pow_succ]
    omega

/-- A parity size of at least the minimum covers every bit of the word. -/
theorem le_two_pow_of_minParitysize_le {k m : ℕ} (hk : k ≤ 120) (hm : minParitysize k ≤ m) :
    2 ≤ m ∧ k + m ≤ 2 ^ (m - 1) := by
  unfold minParitysize at hm
  split at hm
  case h_1 l hfind =>
    have hcover := List.find?_some hfind
    rw [decide_eq_true_eq] at hcover
    have hl : 2 ≤ l := (List.mem_range'_1.mp (List.mem_of_find?_eq_some hfind)).1
    have := lt_two_pow_of_le hcover (n := m - 1) (by omega)
    omega
  case h_2 hnone =>
    rw [List.find?_eq_none] at hnone
    have := hnone 9 (by decide)
    rw [decide_eq_true_eq] at this
    omega

theorem verify_eq_zero {cfgs : List SecdedCfg} (h : verify cfgs = 0) {cfg : SecdedCfg}
    (hcfg : cfg ∈ cfgs) :
    1 < cfg.k ∧ cfg.m ≤ 20 ∧ 2 ≤ cfg.m ∧ cfg.k + cfg.m ≤ 2 ^ (cfg.m - 1) := by
  have herror : verifyCfg cfg = 0 :=
    Nat.eq_zero_of_le_zero (h ▸ List.le_sum_of_mem (List.mem_map_of_mem hcfg))
  simp only [verifyCfg, Nat.add_eq_zero_iff, ite_eq_right_iff, Nat.one_ne_zero, imp_false]
    at herror
  obtain ⟨⟨⟨hk, hm⟩, hmin⟩, _⟩ := herror
  exact ⟨by omega, by omega, le_two_pow_of_minParitysize_le (by omega) (by omega)⟩

/-! ### Correction and detection -/

section Accepted

variable {k m : ℕ} (hm : 2 ≤ m) (hle : k + m ≤ 2 ^ (m - 1)) {codes : List (List ℕ)}

include hm hle

theorem hsiao_correctsOneDetectsTwo {shuffle : Shuffle} {fuel : ℕ} (t : CodeType)
    (ht : t.isHamming = false) (hcodes : hsiaoCode shuffle fuel k m = some codes)
    (data : BitVec k) {e : BitVec (k + m)} (he : weight e ≤ 2) :
    CorrectsOneDetectsTwo t k m codes data e := by
  obtain ⟨hlen, hrows⟩ := hsiaoCode_eq_some shuffle fuel m (by omega) hle hcodes
  exact (triangular_hsiaoCode hlen hrows).correctsOneDetectsTwo t
    (separates_hsiaoCode hlen hrows t ht) data he

theorem hamming_correctsOneDetectsTwo (t : CodeType) (ht : t.isHamming = true)
    (hspare : 2 ^ (m - 2) ≤ k + m - 1) (data : BitVec k) {e : BitVec (k + m)}
    (he : weight e ≤ 2) : CorrectsOneDetectsTwo t k m (hammingCode k m) data e := by
  have hlen := length_hammingDataBits_eq hm hle hspare
  exact (triangular_hammingCode hlen hm).correctsOneDetectsTwo t
    (separates_hammingCode hm hlen t ht hle) data he

omit hle

/-- With a spare parity bit an error in the last bit of a word goes unnoticed. -/
theorem hamming_misses_last_bit (t : CodeType) (hspare : k + m - 1 < 2 ^ (m - 2))
    (x : BitVec (k + m)) :
    (secdedDec t k m (hammingCode k m) (x ^^^ BitVec.twoPow (k + m) (k + m - 1))).err =
      (secdedDec t k m (hammingCode k m) x).err := by
  have hlen := lt_length_hammingDataBits hm hspare
  have hlast : syndrome (m := m) (decRow k m (hammingCode k m))
      (BitVec.twoPow (k + m) (k + m - 1)) = 0#m := by
    rw [syndrome_twoPow (by omega)]
    apply BitVec.eq_of_getLsbD_eq
    intro j hj
    rw [getLsbD_column hj, getLsbD_decRow_last hm hlen hj, BitVec.getLsbD_zero]
  have hsyn : syndrome (m := m) (decRow k m (hammingCode k m))
        (x ^^^ BitVec.twoPow (k + m) (k + m - 1) ^^^ invWord t k m) =
      syndrome (decRow k m (hammingCode k m)) (x ^^^ invWord t k m) := by
    rw [BitVec.xor_assoc, BitVec.xor_comm (BitVec.twoPow _ _), ← BitVec.xor_assoc, syndrome_xor,
      hlast, BitVec.xor_zero]
  rw [secdedDec, secdedDec, hsyn]

end Accepted

/-- The generated code of an accepted configuration corrects one error and detects two
exactly when it is a Hsiao code or has no spare parity bit. -/
theorem secded_corrects_iff (shuffle : Shuffle) (fuel : ℕ) (cfgs : List SecdedCfg)
    (hverify : verify cfgs = 0) (cfg : SecdedCfg) (hcfg : cfg ∈ cfgs) (t : CodeType)
    (ht : cfg.codeType = some t) (codes : List (List ℕ))
    (hcodes : genCode shuffle fuel t cfg.k cfg.m = some codes) (data : BitVec cfg.k) :
    (∀ e, weight e ≤ 2 → CorrectsOneDetectsTwo t cfg.k cfg.m codes data e) ↔
      (t.isHamming = true → 2 ^ (cfg.m - 2) ≤ cfg.k + cfg.m - 1) := by
  obtain ⟨_, _, hm, hle⟩ := verify_eq_zero hverify hcfg
  constructor
  · intro h ht
    by_contra hspare
    have hcode : codes = hammingCode cfg.k cfg.m := by
      cases t with
      | hamming => exact (Option.some.inj hcodes).symm
      | invHamming => exact (Option.some.inj hcodes).symm
      | hsiao => exact absurd ht Bool.false_ne_true
      | invHsiao => exact absurd ht Bool.false_ne_true
    subst hcode
    have hnone := (h 0#_ (by rw [weight_zero]; omega)).2.1
    have hone := weight_twoPow (w := cfg.k + cfg.m) (i := cfg.k + cfg.m - 1) (by omega)
    have hlast := (h (BitVec.twoPow _ (cfg.k + cfg.m - 1)) (by omega)).2.1
    rw [hamming_misses_last_bit hm t (by omega)] at hlast
    rw [BitVec.xor_zero] at hnone
    have := hnone.mp (hlast.mpr hone)
    rw [weight_zero] at this
    omega
  · intro h e he
    cases t with
    | hsiao => exact hsiao_correctsOneDetectsTwo hm hle .hsiao rfl hcodes data he
    | invHsiao => exact hsiao_correctsOneDetectsTwo hm hle .invHsiao rfl hcodes data he
    | hamming =>
      rw [← Option.some.inj hcodes]
      exact hamming_correctsOneDetectsTwo hm hle .hamming rfl (h rfl) data he
    | invHamming =>
      rw [← Option.some.inj hcodes]
      exact hamming_correctsOneDetectsTwo hm hle .invHamming rfl (h rfl) data he

/-- No shuffling at all. -/
def Shuffle.id : Shuffle := ⟨fun _ l => l, fun _ _ => .refl _⟩

/-- The shipped configuration for 68 bits has no spare parity bit. -/
theorem secded_corrects_iff_68 :
    verify [⟨68, 8, some .hamming⟩] = 0 ∧ ∀ data e, weight e ≤ 2 →
      CorrectsOneDetectsTwo .hamming 68 8 (hammingCode 68 8) data e :=
  ⟨by decide, fun data => (secded_corrects_iff Shuffle.id 0 [⟨68, 8, some .hamming⟩] (by decide)
    ⟨68, 8, some .hamming⟩ List.mem_cons_self .hamming rfl (hammingCode 68 8) rfl data).mpr
    fun _ => by decide⟩

/-- `verify` accepts four data bits with six parity bits, and the decoder does not see an
error in bit 9. -/
theorem hamming_spare_misses_error :
    verify [⟨4, 6, some .hamming⟩] = 0 ∧
      genCode Shuffle.id 0 .hamming 4 6 = some (hammingCode 4 6) ∧
      weight (BitVec.twoPow 10 9) = 1 ∧
      ¬CorrectsOneDetectsTwo .hamming 4 6 (hammingCode 4 6) 0#4 (BitVec.twoPow 10 9) := by
  refine ⟨by decide, rfl, weight_twoPow (by omega), ?_⟩
  intro h
  have hbit : (secdedDec .hamming 4 6 (hammingCode 4 6)
      (secdedEnc .hamming 4 6 (hammingCode 4 6) 0#4 ^^^ BitVec.twoPow 10 9)).err.getLsbD 0 =
        false := by
    decide +kernel
  rw [h.2.1.mpr (weight_twoPow (by omega))] at hbit
  exact Bool.true_eq_false.mp hbit

end SecureBoot

/-! The other two encoders of `secded_gen.py`: `ecc_encode`, which builds the codeword
as a string of binary digits, and the C function that `write_c_files` prints. -/

namespace SecureBoot

open Bits Parity

/-! ### The Python encoder -/

/-- `format(x, '0' + str(width) + 'b')`, the most significant digit first. -/
def formatBin (width x : ℕ) : List Bool :=
  ((List.range (max (max width x.size) 1)).map x.testBit).reverse

/-- `int(digits, 2)`. -/
def intOfBin (digits : List Bool) : ℕ := digits.foldl (fun v b => 2 * v + b.toNat) 0

/-- The entry that `_ecc_pick_code` takes: the first of the length and type. -/
def eccCfg (config : List SecdedCfg) (codetype : CodeType) (k : ℕ) : Option SecdedCfg :=
  config.find? fun cfg => cfg.k = k ∧ cfg.codeType = some codetype

/-- `_ecc_pick_code`; `none` is the exception, and a code that the search did not find. -/
def eccPickCode (shuffle : Shuffle) (fuel : ℕ) (config : List SecdedCfg) (codetype : CodeType)
    (k : ℕ) : Option (ℕ × List ℕ × Bool) :=
  match eccCfg config codetype k with
  | some cfg => (genCode shuffle fuel codetype k cfg.m).map fun codes =>
      (cfg.m, calcBitmasks k cfg.m codes false, codetype.inverted)
  | none => none

/-- The digits of the codeword that a mask selects, `none` being an `IndexError`. Both
strings are read from the least significant digit on. -/
def eccBit (codewordRev maskRev : List Bool) : Option Bool :=
  maskRev.zipIdx.foldlM (fun bit (f, idx) =>
    if f then codewordRev[idx]?.map (bit ^^ ·) else some bit) false

/-- One round of the loop of `_ecc_encode`. -/
def eccStep (m : ℕ) (invert : Bool) (codeword : List Bool) (round : ℕ × ℕ) :
    Option (List Bool) :=
  let (mask, j) := round
  -- the loop variable `k` hides the data width, so that the mask is padded to `j + m`
  (eccBit codeword.reverse (formatBin (j + m) mask).reverse).map fun bit =>
    (bit ^^ (invert && decide (j % 2 = 1))) :: codeword

/-- `_ecc_encode`; `none` is a failed assertion or an `IndexError`. -/
def eccEncodeWord (k m : ℕ) (bitmasks : List ℕ) (invert : Bool) (dataword : ℕ) :
    Option (List Bool) :=
  if dataword < 2 ^ k then bitmasks.zipIdx.foldlM (eccStep m invert) (formatBin k dataword)
  else none

/-- `ecc_encode`: the codeword and the number of its parity bits. -/
def eccEncode (shuffle : Shuffle) (fuel : ℕ) (config : List SecdedCfg) (codetype : CodeType)
    (k dataword : ℕ) : Option (ℕ × ℕ) := do
  let (m, bitmasks, invert) ← eccPickCode shuffle fuel config codetype k
  let codeword ← eccEncodeWord k m bitmasks invert dataword
  some (intOfBin codeword, m)

/-- `ecc_encode_some`. -/
def eccEncodeSome (shuffle : Shuffle) (fuel : ℕ) (config : List SecdedCfg) (codetype : CodeType)
    (k : ℕ) (datawords : List ℕ) : Option (List ℕ × ℕ) := do
  let (m, bitmasks, invert) ← eccPickCode shuffle fuel config codetype k
  let codewords ← datawords.mapM fun w => (eccEncodeWord k m bitmasks invert w).map intOfBin
  some (codewords, m)

/-! ### The C encoder -/

/-- `bytes_to_c_type`, as the width of the type. -/
def bytesToCType (numBytes : ℕ) : Option ℕ :=
  if numBytes = 1 then some 8
  else if numBytes ≤ 2 then some 16
  else if numBytes ≤ 4 then some 32
  else if numBytes ≤ 8 then some 64
  else none

/-- `calc_parity`. -/
def calcParityLoop (word : BitVec 64) (parity : Bool) : Bool :=
  if word = 0 then parity
  else calcParityLoop (word >>> 1) (if word.getLsbD 0 then !parity else parity)
  termination_by word.toNat
  decreasing_by
    rename_i hword
    have hpos : 0 < word.toNat := by
      apply Nat.pos_of_ne_zero
      intro hzero
      exact hword (BitVec.eq_of_toNat_eq hzero)
    rw [BitVec.toNat_ushiftRight, Nat.shiftRight_eq_div_pow]
    exact Nat.div_lt_self hpos (by omega)

def calcParity (word : BitVec 64) (invert : Bool) : Bool := calcParityLoop word false ^^ invert

/-- The word of the `const uint8_t bytes[]` of the printed function. -/
def cWord (inType inBytes : ℕ) (bytes : ℕ → BitVec 8) : BitVec inType :=
  (List.range inBytes).foldl (fun word i => word ||| (bytes i).setWidth inType <<< (i * 8)) 0

/-- The integrity bits that the printed function returns. -/
def cIntegrity (outType : ℕ) {inType : ℕ} (t : CodeType) (masks : List ℕ) (word : BitVec inType) :
    BitVec outType :=
  masks.zipIdx.foldl (fun acc (mask, parBit) =>
    acc ||| BitVec.ofNat outType
      ((calcParity ((word &&& BitVec.ofNat inType mask).setWidth 64)
        (t.inverted && decide (parBit % 2 = 1))).toNat <<< parBit)) 0

/-- The function that `write_c_files` prints; `none` when it prints none. -/
def secdedEncC (t : CodeType) (k m : ℕ) (codes : List (List ℕ)) (bytes : ℕ → BitVec 8) :
    Option ℕ := do
  if 64 < k ∨ t.isHamming then none else
  let inBytes := (k + 7) / 8
  let inType ← bytesToCType inBytes
  let outType ← bytesToCType ((m + 7) / 8)
  some (cIntegrity outType t (calcBitmasks k m codes false) (cWord inType inBytes bytes)).toNat

/-- `secded_cfg.hjson`. -/
def secdedCfgs : List SecdedCfg :=
  [⟨16, 6, some .hsiao⟩, ⟨22, 6, some .hsiao⟩, ⟨32, 7, some .hsiao⟩, ⟨57, 7, some .hsiao⟩,
    ⟨64, 8, some .hsiao⟩, ⟨16, 6, some .hamming⟩, ⟨32, 7, some .hamming⟩,
    ⟨64, 8, some .hamming⟩, ⟨68, 8, some .hamming⟩, ⟨16, 6, some .invHsiao⟩,
    ⟨22, 6, some .invHsiao⟩, ⟨32, 7, some .invHsiao⟩, ⟨57, 7, some .invHsiao⟩,
    ⟨64, 8, some .invHsiao⟩, ⟨16, 6, some .invHamming⟩, ⟨32, 7, some .invHamming⟩,
    ⟨64, 8, some .invHamming⟩, ⟨68, 8, some .invHamming⟩]

end SecureBoot
