import SecureBoot.Prim.Prince

/-! `prim_prince` at 32 bits and the two supported widths side by side. At 32 bits the middle part
reads one bit of its own result instead of the last word of the forward pass. That word,
`data_state[NumRoundsHalf]`, is read by nothing, so that the forward pass is left out here; the
signals of the middle part are those that satisfy its assignments. -/

namespace SecureBoot

open Bits PrimCipherPkg

structure Prince32In where
  rst_ni : Bool
  valid_i : Bool
  data_i : BitVec 32
  key_i : BitVec 64
  dec_i : Bool

structure Prince32Keys where
  k0 : BitVec 32
  k0Prime : BitVec 32
  k1 : BitVec 32
  k0New : BitVec 32

structure Prince32Regs where
  k1Q : BitVec 32
  k0PrimeQ : BitVec 32
  k0NewQ : BitVec 32
  dataStateMiddleQ : BitVec 32
  validQ : Bool

/-- The signals of the middle part. -/
structure Prince32Middle where
  data_state_middle_d : BitVec 32
  data_state_middle_q : BitVec 32
  data_state_middle : BitVec 32

section Prince32

variable (P : PrinceParams) (i : Prince32In) (r : Prince32Regs) (s : Prince32Middle)

/-- `p_key_expansion` and the key schedule. -/
def prince32Keys : Prince32Keys :=
  let alpha := PRINCE_ALPHA_CONST.extractLsb' 0 32
  let upper := i.key_i.extractLsb' 32 32
  let rotated := BitVec.ofBool (upper.getLsbD 0) ++ upper.extractLsb' 2 30 ++
    BitVec.ofBool (upper.getLsbD 31 ^^ upper.getLsbD 1)
  let k1 := i.key_i.extractLsb' 0 32
  let k1 := if i.dec_i then k1 ^^^ alpha else k1
  { k0 := if i.dec_i then rotated else upper
    k0Prime := if i.dec_i then upper else rotated
    k1
    k0New :=
      if P.UseOldKeySched then k1
      else if i.dec_i then upper ^^^ alpha else upper }

/-- `data_state_middle_d`: the substitution is that of one bit of `data_state_middle`. -/
def prince32MiddleD (data_state_middle : BitVec 32) : BitVec 32 :=
  sbox432bit ((BitVec.ofBool (data_state_middle.getLsbD P.NumRoundsHalf)).setWidth 32) PRINCE_SBOX4

/-- `data_state_middle`. -/
def prince32Middle (data_state_middle_q : BitVec 32) : BitVec 32 :=
  sbox432bit (princeMultPrime32bit data_state_middle_q) PRINCE_SBOX4_INV

/-- The signals satisfy the assignments of the middle part. -/
structure Prince32Settles : Prop where
  middle_d : s.data_state_middle_d = prince32MiddleD P s.data_state_middle
  middle_q : s.data_state_middle_q =
    if P.HalfwayDataReg then r.dataStateMiddleQ else s.data_state_middle_d
  middle : s.data_state_middle = prince32Middle s.data_state_middle_q

/-- The word `k` of the round constants, at this width. -/
def prince32RoundConst (k : ℕ) : BitVec 32 := (PRINCE_ROUND_CONST.getD k 0).extractLsb' 0 32

/-- A round of the backward pass. -/
def prince32BwdPass (k0NewQ k1Q : BitVec 32) (data_state : BitVec 32) (k : ℕ) : BitVec 32 :=
  let data_state_xor0 := data_state ^^^ (if (P.NumRoundsHalf + k + 1) % 2 = 1 then k0NewQ else k1Q)
  let data_state_xor1 := data_state_xor0 ^^^ prince32RoundConst (10 - P.NumRoundsHalf + k)
  sbox432bit (princeMultPrime32bit (princeShiftrows32bit data_state_xor1 PRINCE_SHIFT_ROWS64_INV))
    PRINCE_SBOX4_INV

/-- `data_o` in a cycle. -/
def prince32DataO : BitVec 32 :=
  let k1Q := if P.HalfwayKeyReg then r.k1Q else (prince32Keys P i).k1
  let k0PrimeQ := if P.HalfwayKeyReg then r.k0PrimeQ else (prince32Keys P i).k0Prime
  let k0NewQ := if P.HalfwayKeyReg then r.k0NewQ else (prince32Keys P i).k0New
  (List.range' 1 P.NumRoundsHalf).foldl (prince32BwdPass P k0NewQ k1Q) s.data_state_middle ^^^
    prince32RoundConst 11 ^^^ k1Q ^^^ k0PrimeQ

/-- The registers after a cycle. -/
def prince32Clock : Prince32Regs :=
  if !i.rst_ni then ⟨0, 0, 0, 0, false⟩
  else if i.valid_i then
    let keys := prince32Keys P i
    ⟨keys.k1, keys.k0Prime, keys.k0New, s.data_state_middle_d, true⟩
  else { r with validQ := false }

/-- Where the bit that is read is clear, the middle part settles at zero. -/
theorem prince32Middle_middleD_zero : prince32Middle (prince32MiddleD P 0) = 0 := by
  have hzero : prince32Middle (sbox432bit 0 PRINCE_SBOX4) = 0 := by decide +kernel
  simpa [prince32MiddleD] using hzero

theorem exists_prince32Settles : ∃ s, Prince32Settles P r s := by
  cases hreg : P.HalfwayDataReg with
  | true =>
    refine ⟨⟨prince32MiddleD P (prince32Middle r.dataStateMiddleQ), r.dataStateMiddleQ,
      prince32Middle r.dataStateMiddleQ⟩, rfl, ?_, rfl⟩
    rw [hreg, if_pos rfl]
  | false =>
    refine ⟨⟨prince32MiddleD P 0, prince32MiddleD P 0, 0⟩, rfl, ?_,
      (prince32Middle_middleD_zero P).symm⟩
    rw [hreg, if_neg Bool.false_ne_true]

variable {r s}

end Prince32

/-! ### Both widths -/

/-- The supported widths of the data and the key. -/
inductive PrinceWidths
  | data64Key128
  | data32Key64

namespace PrinceWidths

def DataWidth : PrinceWidths → ℕ
  | data64Key128 => 64
  | data32Key64 => 32

def KeyWidth : PrinceWidths → ℕ
  | data64Key128 => 128
  | data32Key64 => 64

end PrinceWidths

/-- `data_o` after the inputs were held valid for a cycle, whatever the registers held before. -/
def PrinceOutputs (P : PrinceParams) : (W : PrinceWidths) → BitVec W.KeyWidth → Bool →
    BitVec W.DataWidth → BitVec W.DataWidth → Prop
  | .data64Key128, key_i, dec_i, data_i, data_o =>
    let i : PrinceIn := ⟨true, true, data_i, key_i, dec_i⟩
    ∃ r, data_o = princeDataO P i (princeClock P i r)
  | .data32Key64, key_i, dec_i, data_i, data_o =>
    let i : Prince32In := ⟨true, true, data_i, key_i, dec_i⟩
    ∃ r s s', Prince32Settles P r s ∧ Prince32Settles P (prince32Clock P i r s) s' ∧
      data_o = prince32DataO P i (prince32Clock P i r s) s'

/-- Each mode returns the data that the other mode was given. -/
def PrinceRoundTrips (P : PrinceParams) (W : PrinceWidths) (key_i : BitVec W.KeyWidth) : Prop :=
  ∀ dec_i data_i mid data_o, PrinceOutputs P W key_i dec_i data_i mid →
    PrinceOutputs P W key_i (!dec_i) mid data_o → data_o = data_i

section

variable (P : PrinceParams)

theorem exists_princeOutputs (W : PrinceWidths) (key_i : BitVec W.KeyWidth) (dec_i : Bool)
    (data_i : BitVec W.DataWidth) : ∃ data_o, PrinceOutputs P W key_i dec_i data_i data_o := by
  cases W with
  | data64Key128 => exact ⟨_, ⟨0, 0, 0, 0, false⟩, rfl⟩
  | data32Key64 =>
    obtain ⟨s, hs⟩ := exists_prince32Settles P ⟨0, 0, 0, 0, false⟩
    obtain ⟨s', hs'⟩ := exists_prince32Settles P
      (prince32Clock P ⟨true, true, data_i, key_i, dec_i⟩ ⟨0, 0, 0, 0, false⟩ s)
    exact ⟨_, _, s, s', hs, hs', rfl⟩

theorem princeRoundTrips_64 (hn : P.NumRoundsHalf ≤ 10) (key_i : BitVec 128) :
    PrinceRoundTrips P .data64Key128 key_i := by
  rintro dec_i data_i mid data_o ⟨r, rfl⟩ ⟨r', rfl⟩
  rw [princeDataO_of_held P _ _ rfl rfl, princeDataO_of_held P _ _ rfl rfl]
  exact primPrince_primPrince P ⟨true, true, data_i, key_i, dec_i⟩ hn

/-- At 32 bits the output does not depend on the data. -/
theorem princeOutputs_32_congr {key_i : BitVec 64} {dec_i : Bool}
    {data_i data_i' data_o : BitVec 32}
    (h : PrinceOutputs P .data32Key64 key_i dec_i data_i data_o) :
    PrinceOutputs P .data32Key64 key_i dec_i data_i' data_o :=
  h

theorem not_princeRoundTrips_32 (key_i : BitVec 64) : ¬ PrinceRoundTrips P .data32Key64 key_i := by
  intro h
  obtain ⟨mid, hmid⟩ := exists_princeOutputs P .data32Key64 key_i false (BitVec.ofNat 32 0)
  obtain ⟨data_o, hout⟩ := exists_princeOutputs P .data32Key64 key_i true mid
  have h0 := h false _ mid data_o hmid hout
  have h1 := h false (BitVec.ofNat 32 1) mid data_o (princeOutputs_32_congr P hmid) hout
  have hne : 0#32 ≠ 1#32 := by decide
  exact hne (h0.symm.trans h1)

/-- Ten rounds and two in the middle, at 32 bits: the block 1 is not returned. -/
theorem prince_32_loses_block :
    PrinceOutputs ⟨5, false, false, false⟩ .data32Key64 0#64 false 1#32 0x37f10e11#32 ∧
      PrinceOutputs ⟨5, false, false, false⟩ .data32Key64 0#64 true 0x37f10e11#32 0x6486b8ed#32 ∧
      ¬ PrinceRoundTrips ⟨5, false, false, false⟩ .data32Key64 0#64 := by
  have hsettles (r : Prince32Regs) : Prince32Settles ⟨5, false, false, false⟩ r
      ⟨prince32MiddleD ⟨5, false, false, false⟩ 0, prince32MiddleD ⟨5, false, false, false⟩ 0, 0⟩ :=
    ⟨rfl, rfl, (prince32Middle_middleD_zero _).symm⟩
  refine ⟨⟨⟨0, 0, 0, 0, false⟩, _, _, hsettles _, hsettles _, ?_⟩,
    ⟨⟨0, 0, 0, 0, false⟩, _, _, hsettles _, hsettles _, ?_⟩, not_princeRoundTrips_32 _ _⟩
  · change @Eq (BitVec 32) _ _
    decide +kernel
  · change @Eq (BitVec 32) _ _
    decide +kernel

/-- The two modes undo each other at 64 bits and only there. -/
theorem prince_round_trips_iff (W : PrinceWidths) (key_i : BitVec W.KeyWidth)
    (hlt : P.NumRoundsHalf < 6) :
    PrinceRoundTrips P W key_i ↔ W.DataWidth = 64 := by
  cases W with
  | data64Key128 => exact iff_of_true (princeRoundTrips_64 P (by omega) key_i) rfl
  | data32Key64 =>
    exact iff_of_false (not_princeRoundTrips_32 P key_i) (by decide)

theorem prince_round_trips_64_five :
    PrinceRoundTrips ⟨5, false, false, false⟩ .data64Key128 0#128 :=
  (prince_round_trips_iff ⟨5, false, false, false⟩ .data64Key128 0#128 (by decide)).mpr rfl

end

end SecureBoot
