import SecureBoot.Sigverify.Keys

/-! The lookup of a key does not depend on the random start: every start visits each index once,
and distinct identifiers leave at most one candidate. -/

namespace SecureBoot

/-! ### Validity -/

section Validity

variable (otp : Word → Word)

theorem key_address_eq (key_index : Word) :
    kOtpCreatorSwCfgKeyIsValid + key_index - (kOtpCreatorSwCfgKeyIsValid + key_index) % 4 =
      kOtpCreatorSwCfgKeyIsValid + key_index / kSigverifyNumEntriesPerOtpWord * 4 := by
  have hlt := key_index.isLt
  apply BitVec.eq_of_toNat_eq
  simp only [BitVec.toNat_add, BitVec.toNat_sub, BitVec.toNat_umod, BitVec.toNat_mul,
    BitVec.toNat_udiv]
  change (2 ^ 32 - (232 + key_index.toNat) % 2 ^ 32 % 4 + (232 + key_index.toNat) % 2 ^ 32) %
    2 ^ 32 = (232 + key_index.toNat / 4 * 4 % 2 ^ 32) % 2 ^ 32
  omega

theorem key_lane_eq (key_index : Word) :
    8 * ((kOtpCreatorSwCfgKeyIsValid + key_index) % 4).toNat =
      (key_index % kSigverifyNumEntriesPerOtpWord * 8).toNat := by
  have hlt := key_index.isLt
  simp only [BitVec.toNat_add, BitVec.toNat_umod, BitVec.toNat_mul]
  change 8 * ((232 + key_index.toNat) % 2 ^ 32 % 4) = key_index.toNat % 4 * 8 % 2 ^ 32
  omega

theorem and_eq_true_byte_iff (w : Word) :
    w &&& 0xff = kHardenedByteBoolTrue ↔ w.setWidth 8 = kHardenedByteBoolTrue.setWidth 8 := by
  rw [← BitVec.toNat_inj, ← BitVec.toNat_inj, BitVec.toNat_and, BitVec.toNat_setWidth]
  exact (Nat.and_two_pow_sub_one_eq_mod w.toNat 8).congr_left

theorem keyIsValidInOtp_eq_ok_iff (key_index : Word) :
    keyIsValidInOtp otp key_index = kErrorOk ↔
      otpByte otp (kOtpCreatorSwCfgKeyIsValid + key_index) = kHardenedByteBoolTrue.setWidth 8 := by
  rw [otpByte, key_address_eq, key_lane_eq, ← and_eq_true_byte_iff, keyIsValidInOtp]
  have hne : kErrorSigverifyBadKey ≠ kErrorOk := by decide
  simp only [ite_eq_left_iff, hne, imp_false, not_not]
  rfl

/-- The checks of all states together. -/
theorem keyIsValid_eq_ok_iff (key_type : SigverifyKeyType) (lc_state : LifecycleState)
    (key_index : Word) :
    keyIsValid otp key_type lc_state key_index = kErrorOk ↔
      KeyUsable otp key_type lc_state key_index := by
  have hne : kErrorSigverifyBadKey ≠ kErrorOk := by decide
  cases lc_state <;> cases key_type <;>
    simp only [keyIsValid, keyIsValidInLcStateTest, keyIsValidInLcStateProd,
      keyIsValidInLcStateDev, keyIsValidInLcStateRma, KeyUsable, SigverifyKeyType.states, hne,
      keyIsValidInOtp_eq_ok_iff] <;>
    simp

end Validity

/-! ### The table -/

section Table

variable (T : SigverifyRsaKeys)

theorem SigverifyRsaKeys.length_lt : T.keys.length < 2 ^ 31 := by
  have h : 420 * T.keys.length < 2 ^ 32 := T.fits
  omega

theorem SigverifyRsaKeys.toNat_cnt : T.cnt.toNat = T.keys.length := by
  rw [SigverifyRsaKeys.cnt, BitVec.toNat_ofNat]
  exact Nat.mod_eq_of_lt (T.length_lt.trans (by decide))

theorem SigverifyRsaKeys.at_eq {i : Word} {k : SigverifyRomKey} (h : T.keys[i.toNat]? = some k) :
    T.at i = .ok k := by
  rw [SigverifyRsaKeys.at, h]

/-- A word for an index of the table. -/
theorem SigverifyRsaKeys.toNat_index {j : ℕ} (h : j < T.keys.length) :
    (BitVec.ofNat 32 j).toNat = j :=
  Nat.mod_eq_of_lt ((h.trans T.length_lt).trans (by decide))

variable (otp : Word → Word) (key_id : Word) (lc_state : LifecycleState)

/-- The key at an index is the one to return. -/
def KeyCandidate (j : Word) : Prop :=
  ∃ k, T.keys[j.toNat]? = some k ∧ k.id = key_id ∧ KeyUsable otp k.key_type lc_state j

variable {T otp key_id lc_state}

theorem keyCandidate_unique {i j : Word} (hi : KeyCandidate T otp key_id lc_state i)
    (hj : KeyCandidate T otp key_id lc_state j) : i = j := by
  obtain ⟨k, hk, hid, -⟩ := hi
  obtain ⟨k', hk', hid', -⟩ := hj
  apply BitVec.eq_of_toNat_eq
  have hik : (T.keys.map SigverifyRomKey.id)[i.toNat]? = some key_id := by
    rw [List.getElem?_map, hk, Option.map_some, hid]
  have hjk : (T.keys.map SigverifyRomKey.id)[j.toNat]? = some key_id := by
    rw [List.getElem?_map, hk', Option.map_some, hid']
  obtain ⟨hlt, -⟩ := List.getElem?_eq_some_iff.1 hik
  exact (List.getElem?_inj hlt T.nodup).1 (hik.trans hjk.symm)

end Table

/-! ### The loop -/

section Loop

variable (T : SigverifyRsaKeys) (otp : Word → Word) (key_id : Word) (lc_state : LifecycleState)

/-- The indices of `k` iterations from `start`, latest first. -/
def visitedIndices (start k : ℕ) : List Word :=
  (((List.range k).map (Stride.place T.keys.length T.step.toNat start)).map (BitVec.ofNat 32)).reverse

/-- The state after `k` iterations from `start`. -/
structure KeySearchInv (start k : ℕ) (s : KeySearch) : Prop where
  i_eq : s.i = .ofNat 32 (Stride.place T.keys.length T.step.toNat start k)
  iter_cnt_eq : s.iter_cnt = .ofNat 32 k
  visited_eq : s.visited = visitedIndices T start k
  cand_of_mem : ∀ j ∈ s.visited, KeyCandidate T otp key_id lc_state j → s.cand_key_index = j
  cand_of_none : (∀ j ∈ s.visited, ¬KeyCandidate T otp key_id lc_state j) →
    s.cand_key_index = wordMax

variable {T otp key_id lc_state} {start k : ℕ} {s : KeySearch}

theorem run_keyCheck {c : Prop} [Decidable c] (h : c) : keyCheck c = .ok ⟨⟩ := if_pos h

theorem except_ok_bind {ε α β : Type} (a : α) (f : α → Except ε β) : (Except.ok a >>= f) = f a :=
  rfl

theorem visitedIndices_succ (start k : ℕ) : visitedIndices T start (k + 1) =
    .ofNat 32 (Stride.place T.keys.length T.step.toNat start k) :: visitedIndices T start k := by
  rw [visitedIndices, List.range_succ, List.map_append, List.map_append, List.reverse_append]
  rfl

/-- The index moves to the next place. -/
theorem next_place {i : ℕ} (hi : i < T.keys.length) :
    (if T.cnt ≤ .ofNat 32 i + T.step then .ofNat 32 i + T.step - T.cnt
      else .ofNat 32 i + T.step) =
      BitVec.ofNat 32 (Stride.place T.keys.length T.step.toNat i 1) := by
  have hlen := T.length_lt
  have hstep := T.step_le (List.ne_nil_of_length_pos (by omega))
  have hindex := T.toNat_index hi
  apply BitVec.eq_of_toNat_eq
  rw [T.toNat_index (Stride.place_lt (by omega) _ _), Stride.place_one,
    Word.toNat_wrapped_add (by rwa [hindex, T.toNat_cnt]) (by rwa [T.toNat_cnt])
      (by rw [hindex]; omega), hindex, T.toNat_cnt]

/-- The two checks of an iteration find the candidate. -/
theorem cand_eq [Decidable (KeyCandidate T otp key_id lc_state s.i)] {k : SigverifyRomKey}
    (hk : T.keys[s.i.toNat]? = some k) :
    (if k.id = key_id then
      if keyIsValid otp k.key_type lc_state s.i = kErrorOk then s.i else s.cand_key_index
      else s.cand_key_index) =
      if KeyCandidate T otp key_id lc_state s.i then s.i else s.cand_key_index := by
  have hiff : KeyCandidate T otp key_id lc_state s.i ↔
      k.id = key_id ∧ keyIsValid otp k.key_type lc_state s.i = kErrorOk := by
    rw [keyIsValid_eq_ok_iff]
    refine ⟨?_, fun h => ⟨k, hk, h⟩⟩
    rintro ⟨k', hk', h⟩
    rwa [Option.some.inj (hk.symm.trans hk')]
  by_cases hid : k.id = key_id <;> simp [hiff, hid]

open scoped Classical in
theorem keySearchInv_step (hinv : KeySearchInv T otp key_id lc_state start k s)
    (hk : k < T.keys.length) :
    ∃ s', sigverifyRsaKeyStep T otp key_id lc_state s = .ok s' ∧
      KeySearchInv T otp key_id lc_state start (k + 1) s' := by
  have hpos : 0 < T.keys.length := by omega
  have hplace := @Stride.place_lt _ T.step.toNat hpos start k
  have hkey : T.keys[s.i.toNat]? = some T.keys[Stride.place T.keys.length T.step.toNat start k] := by
    rw [hinv.i_eq, T.toNat_index hplace, List.getElem?_eq_getElem hplace]
  have hnext : (if T.cnt ≤ s.i + T.step then s.i + T.step - T.cnt else s.i + T.step) =
      .ofNat 32 (Stride.place T.keys.length T.step.toNat start (k + 1)) := by
    rw [Stride.place_succ, hinv.i_eq, next_place hplace]
  have hcheck : BitVec.ofNat 32 (Stride.place T.keys.length T.step.toNat start (k + 1)) < T.cnt := by
    rw [BitVec.lt_def, T.toNat_index (Stride.place_lt hpos _ _), T.toNat_cnt]
    exact Stride.place_lt hpos _ _
  refine ⟨⟨_, s.iter_cnt + 1,
    if KeyCandidate T otp key_id lc_state s.i then s.i else s.cand_key_index, s.i :: s.visited⟩,
    ?_, rfl, ?_, ?_, ?_, ?_⟩
  · rw [sigverifyRsaKeyStep, T.at_eq hkey]
    simp only [except_ok_bind, cand_eq hkey, hnext, run_keyCheck hcheck]
    rfl
  · rw [BitVec.ofNat_add, ← hinv.iter_cnt_eq]
    rfl
  · rw [visitedIndices_succ, hinv.i_eq, hinv.visited_eq]
  · intro j hj hcand
    rcases List.mem_cons.1 hj with rfl | hj
    · exact if_pos hcand
    · by_cases hi : KeyCandidate T otp key_id lc_state s.i
      · rw [if_pos hi, keyCandidate_unique hi hcand]
      · rw [if_neg hi, hinv.cand_of_mem j hj hcand]
  · intro hnone
    rw [if_neg (hnone s.i List.mem_cons_self)]
    exact hinv.cand_of_none fun j hj => hnone j (List.mem_cons_of_mem _ hj)

theorem keySearchInv_loop (n : ℕ) (hinv : KeySearchInv T otp key_id lc_state start k s)
    (hn : k + n = T.keys.length) :
    ∃ s', sigverifyRsaKeyLoop T otp key_id lc_state n s = .ok s' ∧
      KeySearchInv T otp key_id lc_state start T.keys.length s' := by
  induction n generalizing k s with
  | zero => exact ⟨s, rfl, hn ▸ hinv⟩
  | succ n ih =>
    obtain ⟨s₁, hstep, hinv₁⟩ := keySearchInv_step hinv (by omega)
    obtain ⟨s₂, hloop, hinv₂⟩ := ih hinv₁ (by omega)
    have hlt : s.iter_cnt < T.cnt := by
      rw [hinv.iter_cnt_eq, BitVec.lt_def, T.toNat_index (by omega), T.toNat_cnt]
      omega
    refine ⟨s₂, ?_, hinv₂⟩
    rw [sigverifyRsaKeyLoop, if_pos hlt, hstep]
    exact hloop

/-- The start index of a random word. -/
theorem start_place (rnd : Word) :
    (((rnd.setWidth 64 * T.cnt.setWidth 64) >>> 32).setWidth 32 : Word) =
      .ofNat 32 (Stride.place T.keys.length T.step.toNat
        (rnd.toNat * T.keys.length / 2 ^ 32) 0) := by
  have hstart : Stride.place T.keys.length T.step.toNat (rnd.toNat * T.keys.length / 2 ^ 32) 0 =
      rnd.toNat * T.keys.length / 2 ^ 32 := by
    rcases Nat.eq_zero_or_pos T.keys.length with hzero | hpos
    · rw [hzero, Nat.mul_zero, Nat.zero_div, Stride.place, Nat.zero_mul, Nat.mod_zero]
    · exact Stride.place_zero
        (Nat.div_lt_of_lt_mul (Nat.mul_lt_mul_of_pos_right rnd.isLt hpos))
  rw [hstart, ← T.toNat_cnt, ← Word.toNat_mulHigh, BitVec.ofNat_toNat, BitVec.setWidth_eq]

variable (T otp key_id lc_state) in
theorem exists_run_search (rnd : Word) :
    ∃ s, sigverifyRsaKeySearch T otp key_id lc_state rnd = .ok s ∧
      KeySearchInv T otp key_id lc_state (rnd.toNat * T.keys.length / 2 ^ 32) T.keys.length s := by
  have hinv₀ : KeySearchInv T otp key_id lc_state (rnd.toNat * T.keys.length / 2 ^ 32) 0
      ⟨((rnd.setWidth 64 * T.cnt.setWidth 64) >>> 32).setWidth 32, 0, wordMax, []⟩ :=
    ⟨start_place rnd, rfl, rfl, fun j hj => absurd hj List.not_mem_nil, fun _ => rfl⟩
  obtain ⟨s, hloop, hinv⟩ := keySearchInv_loop T.keys.length hinv₀ (Nat.zero_add _)
  refine ⟨s, ?_, hinv⟩
  have hcheck : s.iter_cnt = T.cnt := hinv.iter_cnt_eq
  rw [sigverifyRsaKeySearch, hloop]
  simp only [except_ok_bind, run_keyCheck hcheck]
  rfl

end Loop

/-! ### The result -/

section Result

variable (T : SigverifyRsaKeys) (otp : Word → Word) (key_id : Word) (lc_state : LifecycleState)

/-- The indices of the table. -/
def SigverifyRsaKeys.indices : List Word := (List.range T.keys.length).map (BitVec.ofNat 32)

variable {T otp key_id lc_state}

theorem visitedIndices_perm (start : ℕ) :
    (visitedIndices T start T.keys.length).Perm T.indices := by
  refine (List.reverse_perm _).trans (List.Perm.map _ ?_)
  rcases Nat.eq_zero_or_pos T.keys.length with hzero | hpos
  · rw [hzero]
    rfl
  · exact Stride.perm_range (T.coprime (List.ne_nil_of_length_pos hpos)) start

theorem KeyCandidate.mem_indices {j : Word} (h : KeyCandidate T otp key_id lc_state j) :
    j ∈ T.indices := by
  obtain ⟨k, hk, -⟩ := h
  obtain ⟨hlt, -⟩ := List.getElem?_eq_some_iff.1 hk
  exact List.mem_map.2 ⟨j.toNat, List.mem_range.2 hlt, BitVec.ofNat_toNat _ _⟩

/-- A candidate is returned, from whatever start. -/
theorem sigverifyRsaKeyGet_of_candidate {j : Word} {k : SigverifyRomKey}
    (hk : T.keys[j.toNat]? = some k) (hid : k.id = key_id)
    (husable : KeyUsable otp k.key_type lc_state j) (rnd : Word) :
    sigverifyRsaKeyGet T otp key_id lc_state rnd = .ok (kErrorOk, some k.key) := by
  have hcand : KeyCandidate T otp key_id lc_state j := ⟨k, hk, hid, husable⟩
  obtain ⟨s, hsearch, hinv⟩ := exists_run_search T otp key_id lc_state rnd
  have hmem : j ∈ s.visited := by
    rw [hinv.visited_eq]
    exact (visitedIndices_perm _).mem_iff.2 hcand.mem_indices
  have hindex := hinv.cand_of_mem j hmem hcand
  have hlt : j < T.cnt := by
    rw [BitVec.lt_def, T.toNat_cnt]
    exact (List.getElem?_eq_some_iff.1 hk).1
  have hvalid := (keyIsValid_eq_ok_iff otp k.key_type lc_state j).2 husable
  rw [sigverifyRsaKeyGet, hsearch]
  simp only [except_ok_bind, hindex, if_pos hlt, T.at_eq hk, hvalid, run_keyCheck trivial]
  rfl

theorem sigverifyRsaKeyGet_of_no_candidate
    (hnone : ∀ j, ¬KeyCandidate T otp key_id lc_state j) (rnd : Word) :
    sigverifyRsaKeyGet T otp key_id lc_state rnd = .ok (kErrorSigverifyBadKey, none) := by
  obtain ⟨s, hsearch, hinv⟩ := exists_run_search T otp key_id lc_state rnd
  have hindex := hinv.cand_of_none fun j _ => hnone j
  have hge : ¬wordMax < T.cnt := by
    have hlen := T.length_lt
    rw [BitVec.lt_def, T.toNat_cnt]
    change ¬2 ^ 32 - 1 < _
    omega
  rw [sigverifyRsaKeyGet, hsearch]
  simp only [except_ok_bind, hindex, if_neg hge]
  rfl

end Result

/-- Whatever the random word, each key is visited once, no check traps, and the result is the key
with the identifier that can be used in this state with this OTP, or an error if there is none. -/
theorem sigverify_rsa_key_get_order_independent (T : SigverifyRsaKeys) (otp : Word → Word)
    (key_id : Word) (lc_state : LifecycleState) :
    ∃ result,
      (∀ rnd, ∃ s, sigverifyRsaKeySearch T otp key_id lc_state rnd = .ok s ∧
        s.visited.Perm T.indices ∧
        sigverifyRsaKeyGet T otp key_id lc_state rnd = .ok result) ∧
      (∀ key, result = (kErrorOk, some key) ↔
        ∃ j k, T.keys[j.toNat]? = some k ∧ k.key = key ∧ k.id = key_id ∧
          KeyUsable otp k.key_type lc_state j) ∧
      ((∃ key, result = (kErrorOk, some key)) ∨ result = (kErrorSigverifyBadKey, none)) := by
  have hvisits : ∀ rnd, ∃ s, sigverifyRsaKeySearch T otp key_id lc_state rnd = .ok s ∧
      s.visited.Perm T.indices := by
    intro rnd
    obtain ⟨s, hsearch, hinv⟩ := exists_run_search T otp key_id lc_state rnd
    exact ⟨s, hsearch, hinv.visited_eq ▸ visitedIndices_perm _⟩
  by_cases hcand : ∃ j, KeyCandidate T otp key_id lc_state j
  · obtain ⟨j, k, hk, hid, husable⟩ := hcand
    refine ⟨(kErrorOk, some k.key), fun rnd => ?_, fun key => ⟨fun h => ?_, ?_⟩, .inl ⟨_, rfl⟩⟩
    · obtain ⟨s, hsearch, hperm⟩ := hvisits rnd
      exact ⟨s, hsearch, hperm, sigverifyRsaKeyGet_of_candidate hk hid husable rnd⟩
    · exact ⟨j, k, hk, Option.some.inj (congrArg Prod.snd h), hid, husable⟩
    · rintro ⟨j', k', hk', rfl, hid', husable'⟩
      have hjj : j = j' := keyCandidate_unique ⟨k, hk, hid, husable⟩ ⟨k', hk', hid', husable'⟩
      subst hjj
      rw [Option.some.inj (hk.symm.trans hk')]
  · have hnone : ∀ j, ¬KeyCandidate T otp key_id lc_state j := not_exists.1 hcand
    refine ⟨(kErrorSigverifyBadKey, none), fun rnd => ?_, fun key => ⟨fun h => ?_, ?_⟩, .inr rfl⟩
    · obtain ⟨s, hsearch, hperm⟩ := hvisits rnd
      exact ⟨s, hsearch, hperm, sigverifyRsaKeyGet_of_no_candidate hnone rnd⟩
    · exact absurd (congrArg Prod.fst h) (show kErrorSigverifyBadKey ≠ kErrorOk by decide)
    · rintro ⟨j, k, hk, rfl, hid, husable⟩
      exact absurd ⟨k, hk, hid, husable⟩ (hnone j)

/-- A key with an identifier and zeros. -/
def romKeyOf (id : Word) (key_type : SigverifyKeyType) : SigverifyRomKey :=
  ⟨⟨(Vector.replicate 96 0).set 0 id, .replicate 8 0⟩, key_type⟩

/-- A table of three keys with a step of two. -/
def threeKeys : SigverifyRsaKeys where
  keys := [romKeyOf 1 .test, romKeyOf 2 .prod, romKeyOf 3 .dev]
  step := 2
  fits := by decide
  step_le _ := by decide
  coprime _ := by decide
  nodup := by decide

example : (sigverifyRsaKeyGet threeKeys (fun _ => 0xa5a5) 2 .prod 0x60000000).map Prod.fst =
    .ok kErrorOk := by
  rfl

end SecureBoot
