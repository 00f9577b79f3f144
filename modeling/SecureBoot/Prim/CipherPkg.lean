import SecureBoot.Lib.BitLoops

/-! `prim_cipher_pkg`: the constants of PRESENT and of 64-bit PRINCE and the functions on
them. Packed arrays are lists from index zero on, written from the highest index down. -/

namespace SecureBoot.PrimCipherPkg

open Bits

def PRINCE_SBOX4 : List (BitVec 4) :=
  [0x4, 0xD, 0x5, 0xE, 0x0, 0x8, 0x7, 0x6, 0x1, 0x9, 0xC, 0xA, 0x2, 0x3, 0xF, 0xB].reverse

def PRINCE_SBOX4_INV : List (BitVec 4) :=
  [0x1, 0xC, 0xE, 0x5, 0x0, 0x4, 0x6, 0xA, 0x9, 0x8, 0xD, 0xF, 0x2, 0x3, 0x7, 0xB].reverse

def PRINCE_SHIFT_ROWS64 : List (BitVec 4) :=
  [0xF, 0xA, 0x5, 0x0, 0xB, 0x6, 0x1, 0xC, 0x7, 0x2, 0xD, 0x8, 0x3, 0xE, 0x9, 0x4].reverse

def PRINCE_SHIFT_ROWS64_INV : List (BitVec 4) :=
  [0xF, 0x2, 0x5, 0x8, 0xB, 0xE, 0x1, 0x4, 0x7, 0xA, 0xD, 0x0, 0x3, 0x6, 0x9, 0xC].reverse

def PRINCE_ROUND_CONST : List (BitVec 64) :=
  [0xC0AC29B7C97C50DD, 0xD3B5A399CA0C2399, 0x64A51195E0E3610D, 0xC882D32F25323C54,
    0x85840851F1AC43AA, 0x7EF84F78FD955CB1, 0xBE5466CF34E90C6C, 0x452821E638D01377,
    0x082EFA98EC4E6C89, 0xA4093822299F31D0, 0x13198A2E03707344, 0x0000000000000000].reverse

def PRINCE_ALPHA_CONST : BitVec 64 := 0xC0AC29B7C97C50DD

def PRINCE_SHIFT_ROWS_CONST0 : BitVec 16 := 0x7BDE
def PRINCE_SHIFT_ROWS_CONST1 : BitVec 16 := 0xBDE7
def PRINCE_SHIFT_ROWS_CONST2 : BitVec 16 := 0xDE7B
def PRINCE_SHIFT_ROWS_CONST3 : BitVec 16 := 0xE7BD

def PRESENT_SBOX4 : List (BitVec 4) :=
  [0x2, 0x1, 0x7, 0x4, 0x8, 0xF, 0xE, 0x3, 0xD, 0xA, 0x0, 0x9, 0xB, 0x6, 0x5, 0xC].reverse

def PRESENT_SBOX4_INV : List (BitVec 4) :=
  [0xA, 0x9, 0x7, 0x0, 0x3, 0x6, 0x4, 0xB, 0xD, 0x2, 0x1, 0xC, 0x8, 0xF, 0xE, 0x5].reverse

/-- `table[i]` of a packed array of 16 nibbles. -/
def entry (table : List (BitVec 4)) (i : BitVec 4) : BitVec 4 := table.getD i.toNat 0

/-- `prince_shiftrows_64bit`. -/
def princeShiftrows64bit (state_in : BitVec 64) (shifts : List (BitVec 4)) : BitVec 64 :=
  (List.range (64 / 4)).foldl
    (fun state_out k =>
      setSlice state_out (4 * k) (state_in.extractLsb' ((shifts.getD k 0).toNat * 4) 4)) 0

/-- `prince_shiftrows_32bit`, on pairs of bits. -/
def princeShiftrows32bit (state_in : BitVec 32) (shifts : List (BitVec 4)) : BitVec 32 :=
  (List.range (32 / 2)).foldl
    (fun state_out k =>
      setSlice state_out (2 * k) (state_in.extractLsb' ((shifts.getD k 0).toNat * 2) 2)) 0

/-- `prince_nibble_red16`. -/
def princeNibbleRed16 (vect : BitVec 16) : BitVec 4 :=
  vect.extractLsb' 0 4 ^^^ vect.extractLsb' 4 4 ^^^ vect.extractLsb' 8 4 ^^^ vect.extractLsb' 12 4

/-- `prince_mult_prime_64bit`. -/
def princeMultPrime64bit (state_in : BitVec 64) : BitVec 64 :=
  let red (lsb : ℕ) (const : BitVec 16) := princeNibbleRed16 (state_in.extractLsb' lsb 16 &&& const)
  [ -- M0
    (0, red 0 PRINCE_SHIFT_ROWS_CONST3),
    (4, red 0 PRINCE_SHIFT_ROWS_CONST2),
    (8, red 0 PRINCE_SHIFT_ROWS_CONST1),
    (12, red 0 PRINCE_SHIFT_ROWS_CONST0),
    -- M1
    (16, red 16 PRINCE_SHIFT_ROWS_CONST0),
    (20, red 16 PRINCE_SHIFT_ROWS_CONST3),
    (24, red 16 PRINCE_SHIFT_ROWS_CONST2),
    (28, red 16 PRINCE_SHIFT_ROWS_CONST1),
    -- M1
    (32, red 32 PRINCE_SHIFT_ROWS_CONST0),
    (36, red 32 PRINCE_SHIFT_ROWS_CONST3),
    (40, red 32 PRINCE_SHIFT_ROWS_CONST2),
    (44, red 32 PRINCE_SHIFT_ROWS_CONST1),
    -- M0
    (48, red 48 PRINCE_SHIFT_ROWS_CONST3),
    (52, red 48 PRINCE_SHIFT_ROWS_CONST2),
    (56, red 48 PRINCE_SHIFT_ROWS_CONST1),
    (60, red 48 PRINCE_SHIFT_ROWS_CONST0)
  ].foldl (fun state_out p => setSlice state_out p.1 p.2) 0

/-- `prince_mult_prime_32bit`. -/
def princeMultPrime32bit (state_in : BitVec 32) : BitVec 32 :=
  let red (lsb : ℕ) (const : BitVec 16) := princeNibbleRed16 (state_in.extractLsb' lsb 16 &&& const)
  [ -- M0
    (0, red 0 PRINCE_SHIFT_ROWS_CONST3),
    (4, red 0 PRINCE_SHIFT_ROWS_CONST2),
    (8, red 0 PRINCE_SHIFT_ROWS_CONST1),
    (12, red 0 PRINCE_SHIFT_ROWS_CONST0),
    -- M1
    (16, red 16 PRINCE_SHIFT_ROWS_CONST0),
    (20, red 16 PRINCE_SHIFT_ROWS_CONST3),
    (24, red 16 PRINCE_SHIFT_ROWS_CONST2),
    (28, red 16 PRINCE_SHIFT_ROWS_CONST1)
  ].foldl (fun state_out p => setSlice state_out p.1 p.2) 0

/-- `sbox4_8bit`. -/
def sbox48bit (state_in : BitVec 8) (sbox4 : List (BitVec 4)) : BitVec 8 :=
  (List.range (8 / 4)).foldl
    (fun state_out k => setSlice state_out (4 * k) (entry sbox4 (state_in.extractLsb' (4 * k) 4))) 0

/-- `sbox4_64bit`. -/
def sbox464bit (state_in : BitVec 64) (sbox4 : List (BitVec 4)) : BitVec 64 :=
  (List.range 8).foldl
    (fun state_out k =>
      setSlice state_out (8 * k) (sbox48bit (state_in.extractLsb' (8 * k) 8) sbox4)) 0

/-- `sbox4_32bit`. -/
def sbox432bit (state_in : BitVec 32) (sbox4 : List (BitVec 4)) : BitVec 32 :=
  (List.range 4).foldl
    (fun state_out k =>
      setSlice state_out (8 * k) (sbox48bit (state_in.extractLsb' (8 * k) 8) sbox4)) 0

/-! ### Nibbles -/

theorem entry_PRESENT_SBOX4_INV (x : BitVec 4) :
    entry PRESENT_SBOX4_INV (entry PRESENT_SBOX4 x) = x := by
  revert x
  decide

theorem entry_PRESENT_SBOX4 (x : BitVec 4) :
    entry PRESENT_SBOX4 (entry PRESENT_SBOX4_INV x) = x := by
  revert x
  decide

theorem getLsbD_sbox48bit (x : BitVec 8) (sbox4 : List (BitVec 4)) {j : ℕ} (hj : j < 8) :
    (sbox48bit x sbox4).getLsbD j =
      (entry sbox4 (x.extractLsb' (4 * (j / 4)) 4)).getLsbD (j % 4) := by
  rw [sbox48bit, getLsbD_foldl_setSlice (fun k => entry sbox4 (x.extractLsb' (4 * k) 4)) 0 hj,
    if_pos (by omega)]

/-- The bytes of a substitution are nibbles. -/
theorem foldl_sbox48bit_eq {w : ℕ} (n : ℕ) (hw : w = 8 * n) (x : BitVec w)
    (sbox4 : List (BitVec 4)) :
    (List.range n).foldl (fun state_out k =>
        setSlice state_out (8 * k) (sbox48bit (x.extractLsb' (8 * k) 8) sbox4)) (BitVec.ofNat w 0) =
      (List.range (2 * n)).foldl (fun state_out k =>
        setSlice state_out (4 * k) (entry sbox4 (x.extractLsb' (4 * k) 4))) (BitVec.ofNat w 0) := by
  apply BitVec.eq_of_getLsbD_eq
  intro j hj
  rw [getLsbD_foldl_setSlice (fun k => sbox48bit (x.extractLsb' (8 * k) 8) sbox4) _ hj,
    if_pos (by omega), getLsbD_sbox48bit _ _ (Nat.mod_lt j (by omega)),
    getLsbD_foldl_setSlice (fun k => entry sbox4 (x.extractLsb' (4 * k) 4)) _ hj,
    if_pos (by omega), show j % 8 % 4 = j % 4 by omega]
  congr 2
  apply BitVec.eq_of_getLsbD_eq
  intro i hi
  simp only [BitVec.getLsbD_extractLsb', hi, show 4 * (j % 8 / 4) + i < 8 by omega, decide_true,
    Bool.true_and]
  congr 1
  omega

theorem sbox464bit_eq (state_in : BitVec 64) (sbox4 : List (BitVec 4)) :
    sbox464bit state_in sbox4 = (List.range 16).foldl
      (fun state_out k =>
        setSlice state_out (4 * k) (entry sbox4 (state_in.extractLsb' (4 * k) 4))) 0 :=
  foldl_sbox48bit_eq 8 rfl state_in sbox4

theorem sbox432bit_eq (state_in : BitVec 32) (sbox4 : List (BitVec 4)) :
    sbox432bit state_in sbox4 = (List.range 8).foldl
      (fun state_out k =>
        setSlice state_out (4 * k) (entry sbox4 (state_in.extractLsb' (4 * k) 4))) 0 :=
  foldl_sbox48bit_eq 4 rfl state_in sbox4

/-- The products of the four blocks are one sequence of nibbles. -/
theorem princeMultPrime64bit_eq (state_in : BitVec 64) :
    princeMultPrime64bit state_in = (List.range 16).foldl
      (fun state_out k => setSlice state_out (4 * k)
        (princeNibbleRed16 (state_in.extractLsb' (16 * (k / 4)) 16 &&&
          [PRINCE_SHIFT_ROWS_CONST0, PRINCE_SHIFT_ROWS_CONST1, PRINCE_SHIFT_ROWS_CONST2,
            PRINCE_SHIFT_ROWS_CONST3].getD
            (((if k / 4 = 0 ∨ k / 4 = 3 then 0 else 1) + 3 - k % 4) % 4) 0))) 0 :=
  rfl

end SecureBoot.PrimCipherPkg

/-! `prim_subst_perm`, for every width and number of rounds, and that its two modes undo
each other: the nibbles of each round are substituted by inverse tables, and the
regrouping and the flip of the bits are undone in the opposite order. -/

namespace SecureBoot

open Bits PrimCipherPkg

section Rounds

variable {DataWidth : ℕ}

/-- The substitution in place, aligned to nibbles. -/
def sboxLayer (sbox4 : List (BitVec 4)) (x : BitVec DataWidth) : BitVec DataWidth :=
  (List.range (DataWidth / 4)).foldl
    (fun x k => setSlice x (4 * k) (entry sbox4 (x.extractLsb' (4 * k) 4))) x

/-- The assignments that flip the vector `x`. -/
def flipBits (DataWidth : ℕ) (x : ℕ → Bool) : List (ℕ × Bool) :=
  (List.range DataWidth).map fun k => (DataWidth - 1 - k, x k)

/-- The assignments that stack up the even bits of `x` first, then the odd ones. -/
def groupBits (DataWidth : ℕ) (x : ℕ → Bool) : List (ℕ × Bool) :=
  (List.range (DataWidth / 2)).flatMap fun k =>
    [(k, x (k * 2)), (k + DataWidth / 2, x (k * 2 + 1))]

/-- The assignments that reverse the odd/even grouping of `x`. -/
def ungroupBits (DataWidth : ℕ) (x : ℕ → Bool) : List (ℕ × Bool) :=
  (List.range (DataWidth / 2)).flatMap fun k =>
    [(k * 2, x k), (k * 2 + 1, x (k + DataWidth / 2))]

variable (key_i : BitVec DataWidth) (data_state : BitVec DataWidth)

/-- A round of `gen_enc`. -/
def encRound : BitVec DataWidth :=
  let data_state_sbox := sboxLayer PRESENT_SBOX4 (data_state ^^^ key_i)
  let data_state_flipped := setBits (BitVec.ofNat DataWidth 0) (flipBits DataWidth data_state_sbox.getLsbD)
  setBits data_state_flipped (groupBits DataWidth data_state_flipped.getLsbD)

/-- A round of `gen_dec`. -/
def decRound : BitVec DataWidth :=
  let data_state_sbox := data_state ^^^ key_i
  let data_state_flipped := setBits data_state_sbox (ungroupBits DataWidth data_state_sbox.getLsbD)
  let data_state_sbox := setBits data_state_sbox (flipBits DataWidth data_state_flipped.getLsbD)
  sboxLayer PRESENT_SBOX4_INV data_state_sbox

/-- `prim_subst_perm`. -/
def primSubstPerm (NumRounds : ℕ) (Decrypt : Bool) (data_i key_i : BitVec DataWidth) :
    BitVec DataWidth :=
  (if Decrypt then decRound key_i else encRound key_i)^[NumRounds] data_i ^^^ key_i

end Rounds

/-! ### The layers bit by bit -/

section Layers

variable {w : ℕ}

theorem functional_flipBits (x : ℕ → Bool) : Functional (flipBits w x) := by
  intro i b b' hb hb'
  simp only [flipBits, List.mem_map, List.mem_range, Prod.mk.injEq] at hb hb'
  obtain ⟨k, hk, rfl, rfl⟩ := hb
  obtain ⟨k', hk', hpos, rfl⟩ := hb'
  rw [show k = k' by omega]

theorem functional_groupBits (x : ℕ → Bool) : Functional (groupBits w x) := by
  intro i b b' hb hb'
  simp only [groupBits, List.mem_flatMap, List.mem_range, List.mem_cons, Prod.mk.injEq,
    List.not_mem_nil, or_false] at hb hb'
  obtain ⟨k, hk, ⟨rfl, rfl⟩ | ⟨rfl, rfl⟩⟩ := hb <;>
    obtain ⟨k', hk', ⟨hpos, rfl⟩ | ⟨hpos, rfl⟩⟩ := hb' <;>
      exact congrArg x (by omega)

theorem functional_ungroupBits (x : ℕ → Bool) : Functional (ungroupBits w x) := by
  intro i b b' hb hb'
  simp only [ungroupBits, List.mem_flatMap, List.mem_range, List.mem_cons, Prod.mk.injEq,
    List.not_mem_nil, or_false] at hb hb'
  obtain ⟨k, hk, ⟨rfl, rfl⟩ | ⟨rfl, rfl⟩⟩ := hb <;>
    obtain ⟨k', hk', ⟨hpos, rfl⟩ | ⟨hpos, rfl⟩⟩ := hb' <;>
      exact congrArg x (by omega)

theorem exists_mem_flipBits {x : ℕ → Bool} {j : ℕ} : (∃ b, (j, b) ∈ flipBits w x) ↔ j < w := by
  simp only [flipBits, List.mem_map, List.mem_range, Prod.mk.injEq]
  constructor
  · rintro ⟨b, k, hk, rfl, -⟩
    omega
  · intro hj
    exact ⟨_, w - 1 - j, by omega, by omega, rfl⟩

theorem exists_mem_groupBits {x : ℕ → Bool} {j : ℕ} :
    (∃ b, (j, b) ∈ groupBits w x) ↔ j < w / 2 * 2 := by
  simp only [groupBits, List.mem_flatMap, List.mem_range, List.mem_cons, Prod.mk.injEq,
    List.not_mem_nil, or_false]
  constructor
  · rintro ⟨b, k, hk, ⟨rfl, -⟩ | ⟨rfl, -⟩⟩ <;> omega
  · intro hj
    by_cases hlow : j < w / 2
    · exact ⟨_, j, hlow, .inl ⟨rfl, rfl⟩⟩
    · exact ⟨_, j - w / 2, by omega, .inr ⟨by omega, rfl⟩⟩

theorem exists_mem_ungroupBits {x : ℕ → Bool} {j : ℕ} :
    (∃ b, (j, b) ∈ ungroupBits w x) ↔ j < w / 2 * 2 := by
  simp only [ungroupBits, List.mem_flatMap, List.mem_range, List.mem_cons, Prod.mk.injEq,
    List.not_mem_nil, or_false]
  constructor
  · rintro ⟨b, k, hk, ⟨rfl, -⟩ | ⟨rfl, -⟩⟩ <;> omega
  · intro hj
    by_cases heven : j % 2 = 0
    · exact ⟨_, j / 2, by omega, .inl ⟨by omega, rfl⟩⟩
    · exact ⟨_, j / 2, by omega, .inr ⟨by omega, rfl⟩⟩

theorem getLsbD_flip (y : BitVec w) (x : ℕ → Bool) {j : ℕ} (hj : j < w) :
    (setBits y (flipBits w x)).getLsbD j = x (w - 1 - j) := by
  apply getLsbD_setBits_of_mem (functional_flipBits x) hj
  rw [flipBits, List.mem_map]
  exact ⟨w - 1 - j, List.mem_range.mpr (by omega), by rw [show w - 1 - (w - 1 - j) = j by omega]⟩

/-- Where the bit `j` of a grouped vector comes from. -/
def groupIndex (w j : ℕ) : ℕ :=
  if j < w / 2 then j * 2 else if j < w / 2 * 2 then (j - w / 2) * 2 + 1 else j

/-- Where the bit `j` of an ungrouped vector comes from. -/
def ungroupIndex (w j : ℕ) : ℕ :=
  if j < w / 2 * 2 then if j % 2 = 0 then j / 2 else j / 2 + w / 2 else j

theorem getLsbD_group (x : BitVec w) {j : ℕ} (hj : j < w) :
    (setBits x (groupBits w x.getLsbD)).getLsbD j = x.getLsbD (groupIndex w j) := by
  unfold groupIndex
  split_ifs with hlow hhigh
  · apply getLsbD_setBits_of_mem (functional_groupBits _) hj
    exact List.mem_flatMap.mpr ⟨j, List.mem_range.mpr hlow, List.mem_cons_self⟩
  · apply getLsbD_setBits_of_mem (functional_groupBits _) hj
    refine List.mem_flatMap.mpr ⟨j - w / 2, List.mem_range.mpr (by omega), ?_⟩
    rw [show j - w / 2 + w / 2 = j by omega]
    exact List.mem_cons_of_mem _ List.mem_cons_self
  · exact getLsbD_setBits_of_notMem fun b hb => hhigh (exists_mem_groupBits.mp ⟨b, hb⟩)

theorem getLsbD_ungroup (x : BitVec w) {j : ℕ} (hj : j < w) :
    (setBits x (ungroupBits w x.getLsbD)).getLsbD j = x.getLsbD (ungroupIndex w j) := by
  unfold ungroupIndex
  split_ifs with hlow heven
  · apply getLsbD_setBits_of_mem (functional_ungroupBits _) hj
    refine List.mem_flatMap.mpr ⟨j / 2, List.mem_range.mpr (by omega), ?_⟩
    rw [show j / 2 * 2 = j by omega]
    exact List.mem_cons_self
  · apply getLsbD_setBits_of_mem (functional_ungroupBits _) hj
    refine List.mem_flatMap.mpr ⟨j / 2, List.mem_range.mpr (by omega), ?_⟩
    rw [show j / 2 * 2 + 1 = j by omega]
    exact List.mem_cons_of_mem _ List.mem_cons_self
  · exact getLsbD_setBits_of_notMem fun b hb => hlow (exists_mem_ungroupBits.mp ⟨b, hb⟩)

theorem getLsbD_sboxLayer (sbox4 : List (BitVec 4)) (x : BitVec w) {j : ℕ} (hj : j < w) :
    (sboxLayer sbox4 x).getLsbD j =
      if j < 4 * (w / 4) then (entry sbox4 (x.extractLsb' (4 * (j / 4)) 4)).getLsbD (j % 4)
      else x.getLsbD j := by
  rw [sboxLayer, foldl_setSlice_inPlace (entry sbox4) x (by omega),
    getLsbD_foldl_setSlice (fun k => entry sbox4 (x.extractLsb' (4 * k) 4)) x hj]

theorem sbox464bit_eq_sboxLayer (sbox4 : List (BitVec 4)) (x : BitVec 64) :
    sbox464bit x sbox4 = sboxLayer sbox4 x := by
  apply BitVec.eq_of_getLsbD_eq
  intro j hj
  rw [sbox464bit_eq,
    getLsbD_foldl_setSlice (fun k => entry sbox4 (x.extractLsb' (4 * k) 4)) 0 hj,
    getLsbD_sboxLayer _ _ hj, if_pos (by omega), if_pos (by omega)]

theorem sbox432bit_eq_sboxLayer (sbox4 : List (BitVec 4)) (x : BitVec 32) :
    sbox432bit x sbox4 = sboxLayer sbox4 x := by
  apply BitVec.eq_of_getLsbD_eq
  intro j hj
  rw [sbox432bit_eq,
    getLsbD_foldl_setSlice (fun k => entry sbox4 (x.extractLsb' (4 * k) 4)) 0 hj,
    getLsbD_sboxLayer _ _ hj, if_pos (by omega), if_pos (by omega)]

/-- A bit of a decryption round depends on the bits that its nibble comes from. -/
theorem getLsbD_decRound_congr (key : BitVec w) {x y : BitVec w} {j : ℕ} (hj : j < w)
    (h : ∀ i < w, i / 4 = j / 4 →
      x.getLsbD (ungroupIndex w (w - 1 - i)) = y.getLsbD (ungroupIndex w (w - 1 - i))) :
    (decRound key x).getLsbD j = (decRound key y).getLsbD j := by
  have hpre : ∀ i < w, i / 4 = j / 4 → ∀ z z' : BitVec w,
      (setBits z (flipBits w (setBits (x ^^^ key)
        (ungroupBits w (x ^^^ key).getLsbD)).getLsbD)).getLsbD i =
      (setBits z' (flipBits w (setBits (y ^^^ key)
        (ungroupBits w (y ^^^ key).getLsbD)).getLsbD)).getLsbD i := by
    intro i hi hnibble z z'
    rw [getLsbD_flip _ _ hi, getLsbD_flip _ _ hi, getLsbD_ungroup _ (by omega),
      getLsbD_ungroup _ (by omega), BitVec.getLsbD_xor, BitVec.getLsbD_xor, h i hi hnibble]
  simp only [decRound]
  rw [getLsbD_sboxLayer _ _ hj, getLsbD_sboxLayer _ _ hj]
  split_ifs with hlow
  · congr 2
    apply BitVec.eq_of_getLsbD_eq
    intro i hi
    rw [BitVec.getLsbD_extractLsb', BitVec.getLsbD_extractLsb',
      hpre _ (by omega) (by omega) (x ^^^ key) (y ^^^ key)]
  · exact hpre j hj rfl _ _

/-! ### The layers undone -/

theorem extractLsb'_sboxLayer (sbox4 : List (BitVec 4)) (x : BitVec w) {k : ℕ} (hk : k < w / 4) :
    (sboxLayer sbox4 x).extractLsb' (4 * k) 4 = entry sbox4 (x.extractLsb' (4 * k) 4) := by
  apply BitVec.eq_of_getLsbD_eq
  intro i hi
  rw [BitVec.getLsbD_extractLsb', getLsbD_sboxLayer _ _ (by omega), if_pos (by omega),
    decide_eq_true hi, Bool.true_and, show (4 * k + i) / 4 = k by omega,
    show (4 * k + i) % 4 = i by omega]

theorem sboxLayer_sboxLayer {sbox4 sbox4' : List (BitVec 4)}
    (h : ∀ x, entry sbox4' (entry sbox4 x) = x) (x : BitVec w) :
    sboxLayer sbox4' (sboxLayer sbox4 x) = x := by
  apply BitVec.eq_of_getLsbD_eq
  intro j hj
  rw [getLsbD_sboxLayer _ _ hj]
  split_ifs with hlow
  · rw [extractLsb'_sboxLayer _ _ (by omega), h, BitVec.getLsbD_extractLsb',
      decide_eq_true (Nat.mod_lt j (by omega)), Bool.true_and, Nat.div_add_mod]
  · rw [getLsbD_sboxLayer _ _ hj, if_neg hlow]

theorem ungroupIndex_lt {j : ℕ} (hj : j < w) : ungroupIndex w j < w := by
  unfold ungroupIndex
  split_ifs <;> omega

theorem groupIndex_lt {j : ℕ} (hj : j < w) : groupIndex w j < w := by
  unfold groupIndex
  split_ifs <;> omega

theorem groupIndex_ungroupIndex {j : ℕ} (hj : j < w) : groupIndex w (ungroupIndex w j) = j := by
  unfold groupIndex ungroupIndex
  split_ifs <;> omega

theorem ungroupIndex_groupIndex (j : ℕ) : ungroupIndex w (groupIndex w j) = j := by
  unfold groupIndex ungroupIndex
  split_ifs <;> omega

theorem ungroup_group (x : BitVec w) :
    setBits (setBits x (groupBits w x.getLsbD))
      (ungroupBits w (setBits x (groupBits w x.getLsbD)).getLsbD) = x := by
  apply BitVec.eq_of_getLsbD_eq
  intro j hj
  rw [getLsbD_ungroup _ hj, getLsbD_group _ (ungroupIndex_lt hj), groupIndex_ungroupIndex hj]

theorem group_ungroup (x : BitVec w) :
    setBits (setBits x (ungroupBits w x.getLsbD))
      (groupBits w (setBits x (ungroupBits w x.getLsbD)).getLsbD) = x := by
  apply BitVec.eq_of_getLsbD_eq
  intro j hj
  rw [getLsbD_group _ hj, getLsbD_ungroup _ (groupIndex_lt hj), ungroupIndex_groupIndex j]

/-- The flip undoes itself, whatever the vectors are that it assigns to. -/
theorem flip_flip (x y z : BitVec w) :
    setBits y (flipBits w (setBits z (flipBits w x.getLsbD)).getLsbD) = x := by
  apply BitVec.eq_of_getLsbD_eq
  intro j hj
  rw [getLsbD_flip _ _ hj, getLsbD_flip _ _ (by omega), show w - 1 - (w - 1 - j) = j by omega]

variable (key x : BitVec w)

theorem decRound_encRound : decRound key (encRound key x ^^^ key) = x ^^^ key := by
  have hxor : ∀ y : BitVec w, y ^^^ key ^^^ key = y := fun y => by
    rw [BitVec.xor_assoc, BitVec.xor_self, BitVec.xor_zero]
  simp only [decRound, encRound, hxor, ungroup_group, flip_flip]
  exact sboxLayer_sboxLayer entry_PRESENT_SBOX4_INV _

theorem encRound_decRound : encRound key (decRound key x ^^^ key) = x ^^^ key := by
  have hxor : ∀ y : BitVec w, y ^^^ key ^^^ key = y := fun y => by
    rw [BitVec.xor_assoc, BitVec.xor_self, BitVec.xor_zero]
  simp only [decRound, encRound, hxor, sboxLayer_sboxLayer entry_PRESENT_SBOX4, flip_flip,
    group_ungroup]

/-- Rounds that undo one round up to the key undo any number of them. -/
theorem iterate_undo {f g : BitVec w → BitVec w} (h : ∀ x, g (f x ^^^ key) = x ^^^ key) (n : ℕ) :
    g^[n] (f^[n] x ^^^ key) = x ^^^ key := by
  induction n generalizing x with
  | zero => rfl
  | succ n ih =>
    rw [Function.iterate_succ_apply f, Function.iterate_succ_apply' g, ih, h]

theorem primSubstPerm_dec_enc (n : ℕ) :
    primSubstPerm n true (primSubstPerm n false x key) key = x := by
  simp only [primSubstPerm, if_true, Bool.false_eq_true, if_false,
    iterate_undo key x (decRound_encRound key)]
  rw [BitVec.xor_assoc, BitVec.xor_self, BitVec.xor_zero]

theorem primSubstPerm_enc_dec (n : ℕ) :
    primSubstPerm n false (primSubstPerm n true x key) key = x := by
  simp only [primSubstPerm, if_true, Bool.false_eq_true, if_false,
    iterate_undo key x (encRound_decRound key)]
  rw [BitVec.xor_assoc, BitVec.xor_self, BitVec.xor_zero]

/-- The network as a permutation of the words. -/
def substPermEquiv (n : ℕ) (key : BitVec w) : BitVec w ≃ BitVec w where
  toFun x := primSubstPerm n false x key
  invFun x := primSubstPerm n true x key
  left_inv x := primSubstPerm_dec_enc key x n
  right_inv x := primSubstPerm_enc_dec key x n

end Layers

end SecureBoot
