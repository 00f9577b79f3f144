import SecureBoot.Prim.Present

/-! `Present.py`, the software model of PRESENT, and that the hardware computes the same. Integers
are unbounded and the layers sum up shifted pieces. A raised exception is an error. -/

namespace SecureBoot

open Bits PrimCipherPkg

structure PyPresent where
  rounds : ℕ
  roundkeys : List ℕ

namespace PyPresent

def Sbox : List ℕ :=
  [0xc, 0x5, 0x6, 0xb, 0x9, 0x0, 0xa, 0xd, 0x3, 0xe, 0xf, 0x8, 0x4, 0x7, 0x1, 0x2]

def PBox : List ℕ := [
  0, 16, 32, 48, 1, 17, 33, 49, 2, 18, 34, 50, 3, 19, 35, 51, 4, 20, 36, 52,
  5, 21, 37, 53, 6, 22, 38, 54, 7, 23, 39, 55, 8, 24, 40, 56, 9, 25, 41, 57,
  10, 26, 42, 58, 11, 27, 43, 59, 12, 28, 44, 60, 13, 29, 45, 61, 14, 30, 46,
  62, 15, 31, 47, 63]

/-- `l[i]`. -/
def index (l : List ℕ) (i : ℕ) : Except String ℕ :=
  match l[i]? with
  | some x => .ok x
  | none => .error "IndexError: list index out of range"

/-- The round of `generateRoundkeys80` that appends the key `i`: the shift, the substitution and
the salt. -/
def roundkey80 (s : ℕ × List ℕ) (i : ℕ) : Except String (ℕ × List ℕ) := do
  let (key, roundkeys) := s
  let roundkeys := roundkeys ++ [key >>> 16]
  let key := ((key &&& (2 ^ 19 - 1)) <<< 61) + (key >>> 19)
  let key := ((← index Sbox (key >>> 76)) <<< 76) + (key &&& (2 ^ 76 - 1))
  return (key ^^^ (i <<< 15), roundkeys)

def generateRoundkeys80 (key rounds : ℕ) : Except String (List ℕ) :=
  Prod.snd <$> (List.range' 1 rounds).foldlM roundkey80 (key, [])

/-- The round of `generateRoundkeys128` that appends the key `i`. -/
def roundkey128 (s : ℕ × List ℕ) (i : ℕ) : Except String (ℕ × List ℕ) := do
  let (key, roundkeys) := s
  let roundkeys := roundkeys ++ [key >>> 64]
  let key := ((key &&& (2 ^ 67 - 1)) <<< 61) + (key >>> 67)
  let key := ((← index Sbox (key >>> 124)) <<< 124) +
    ((← index Sbox ((key >>> 120) &&& 0xF)) <<< 120) + (key &&& (2 ^ 120 - 1))
  return (key ^^^ (i <<< 62), roundkeys)

def generateRoundkeys128 (key rounds : ℕ) : Except String (List ℕ) :=
  Prod.snd <$> (List.range' 1 rounds).foldlM roundkey128 (key, [])

/-- `Present(key, rounds, keylen)`. -/
def init (key rounds keylen : ℕ) : Except String PyPresent := do
  if keylen = 80 ∧ key < 2 ^ 80 then
    return { rounds, roundkeys := ← generateRoundkeys80 key rounds }
  else if keylen = 128 ∧ key < 2 ^ 128 then
    return { rounds, roundkeys := ← generateRoundkeys128 key rounds }
  else throw "ValueError: keylen be 80 or 128"

def addRoundKey (state roundkey : ℕ) : ℕ := state ^^^ roundkey

/-- `sBoxLayer`. An index below 16 is always in the table. -/
def sBoxLayer (state : ℕ) : ℕ :=
  (List.range 16).foldl
    (fun output i => output + Sbox.getD ((state >>> (i * 4)) &&& 0xF) 0 <<< (i * 4)) 0

def pLayer (state : ℕ) : ℕ :=
  (List.range 64).foldl (fun output i => output + ((state >>> i) &&& 0x01) <<< PBox.getD i 0) 0

/-- A round of `encrypt`. -/
def encryptRound (self : PyPresent) (state i : ℕ) : Except String ℕ := do
  let state := addRoundKey state (← index self.roundkeys i)
  return pLayer (sBoxLayer state)

def encrypt (self : PyPresent) (block : ℕ) : Except String ℕ := do
  let state ← (List.range (self.rounds - 1)).foldlM self.encryptRound block
  match self.roundkeys.getLast? with
  | some roundkey => return addRoundKey state roundkey
  | none => throw "IndexError: list index out of range"

/-! ### Layers -/

theorem index_Sbox (v : BitVec 4) : index Sbox v.toNat = .ok (entry PRESENT_SBOX4 v).toNat := by
  revert v
  decide

theorem toNat_extractLsb'_and (x : ℕ) (i : ℕ) : (x >>> i) &&& 0xF = x >>> i % 2 ^ 4 :=
  Nat.and_two_pow_sub_one_eq_mod _ 4

theorem sBoxLayer_toNat (x : BitVec 64) :
    sBoxLayer x.toNat = (sbox464bit x PRESENT_SBOX4).toNat := by
  have hentry : ∀ v : BitVec 4, Sbox.getD v.toNat 0 = (entry PRESENT_SBOX4 v).toNat := by decide
  have hnibble (i : ℕ) : Sbox.getD ((x.toNat >>> (i * 4)) &&& 0xF) 0 <<< (i * 4) =
      (entry PRESENT_SBOX4 (x.extractLsb' (4 * i) 4)).toNat <<< (4 * i) := by
    rw [← hentry, BitVec.extractLsb'_toNat, toNat_extractLsb'_and, Nat.mul_comm]
  simp only [sBoxLayer, hnibble]
  rw [foldl_add_eq_foldl_or fun i _ => BitVec.isLt _, sbox464bit_eq]
  refine foldl_or_eq_toNat_foldl_setSlice (by omega) (fun _ _ => rfl)
    (fun j _ => Nat.zero_testBit j) fun j _ => ?_
  rw [Nat.zero_testBit]
  exact BitVec.getLsbD_zero.symm

theorem pLayer_toNat (x : BitVec 64) : pLayer x.toNat = (perm64bit x PRESENT_PERM64).toNat := by
  have hperm : ∀ i < 64, PBox.getD i 0 = (PRESENT_PERM64.getD i 0).toNat := by decide
  have hinv : ∀ k < 64, (PRESENT_PERM64_INV.getD (PRESENT_PERM64.getD k 0).toNat 0).toNat = k := by
    decide
  have hbit (i : ℕ) : (x.toNat >>> i) &&& 0x01 = (x.getLsbD i).toNat := by
    rw [Nat.and_one_is_mod, Nat.shiftRight_eq_div_pow, ← BitVec.testBit_toNat,
      Nat.testBit_eq_decide_div_mod_eq]
    obtain h | h := Nat.mod_two_eq_zero_or_one (x.toNat / 2 ^ i) <;> simp [h]
  have hloop : pLayer x.toNat = (List.range 64).foldl
      (fun r i => r + (x.getLsbD i).toNat <<< (PRESENT_PERM64.getD i 0).toNat) 0 := by
    refine List.foldl_ext _ _ _ fun r i hi => ?_
    rw [hbit, hperm i (List.mem_range.mp hi)]
  have hinj : ∀ i < 64, ∀ j < 64,
      (PRESENT_PERM64.getD i 0).toNat = (PRESENT_PERM64.getD j 0).toNat → i = j := by
    intro i hi j hj heq
    rw [← hinv i hi, heq, hinv j hj]
  rw [hloop, foldl_add_eq_orBits x.getLsbD hinj]
  refine orBits_eq_toNat_setBits (functional_perm hinv x.getLsbD) ?_
    (fun p _ => Nat.zero_testBit _) fun j _ => ?_
  · intro p hp
    obtain ⟨k, -, rfl⟩ := List.mem_map.mp hp
    exact (PRESENT_PERM64.getD k 0).isLt
  · rw [Nat.zero_testBit]
    exact BitVec.getLsbD_zero.symm

/-! ### Keys -/

theorem toNat_append_add {m n : ℕ} (x : BitVec m) (y : BitVec n) :
    (x ++ y).toNat = x.toNat <<< n + y.toNat := by
  rw [BitVec.toNat_append, Nat.shiftLeft_eq, Nat.mul_comm, Nat.two_pow_add_eq_or_of_lt y.isLt]

/-- The shift of the schedules. -/
theorem toNat_exchange {m n : ℕ} (x : BitVec (m + n)) :
    ((x.toNat &&& (2 ^ m - 1)) <<< n) + (x.toNat >>> m) =
      (x.extractLsb' 0 m ++ x.extractLsb' m n).toNat := by
  have hx := x.isLt
  rw [Nat.pow_add] at hx
  rw [toNat_append_add, BitVec.extractLsb'_toNat, BitVec.extractLsb'_toNat,
    Nat.and_two_pow_sub_one_eq_mod, Nat.shiftRight_zero, Nat.shiftRight_eq_div_pow,
    Nat.mod_eq_of_lt (Nat.div_lt_of_lt_mul hx)]

/-- The salt of the schedules, in the five bits of the counter. -/
theorem xor_salt {w lsb i : ℕ} (x : BitVec w) (hlsb : lsb + 5 ≤ w) (hi : i < 32) :
    x.toNat ^^^ (i <<< lsb) =
      (setSlice x lsb (x.extractLsb' lsb 5 ^^^ BitVec.ofNat 5 i)).toNat := by
  have hlt : i <<< lsb < 2 ^ w := by
    rw [Nat.shiftLeft_eq, Nat.mul_comm]
    calc 2 ^ lsb * i < 2 ^ lsb * 2 ^ 5 := Nat.mul_lt_mul_of_pos_left hi (Nat.two_pow_pos _)
      _ = 2 ^ (lsb + 5) := (Nat.pow_add 2 lsb 5).symm
      _ ≤ 2 ^ w := Nat.pow_le_pow_right (by omega) hlsb
  have hmod : i < 2 ^ w := by
    calc i < 2 ^ 5 := hi
      _ ≤ 2 ^ w := Nat.pow_le_pow_right (by omega) (by omega)
  rw [PresentCipher.setSlice_extractLsb'_xor, BitVec.toNat_xor, BitVec.toNat_shiftLeft,
    BitVec.toNat_setWidth, BitVec.toNat_ofNat, Nat.mod_eq_of_lt hi, Nat.mod_eq_of_lt hmod,
    Nat.mod_eq_of_lt hlt]

/-- The substitution of the 80-bit schedule. -/
theorem toNat_substitute80 (x : BitVec 80) (v : BitVec 4) :
    (v.toNat <<< 76) + (x.toNat &&& (2 ^ 76 - 1)) = (setSlice x 76 v).toNat := by
  have happend : setSlice x 76 v = v ++ x.extractLsb' 0 76 := by
    apply BitVec.eq_of_getLsbD_eq
    intro j hj
    rw [getLsbD_setSlice _ _ _ hj, BitVec.getLsbD_append, BitVec.getLsbD_extractLsb']
    by_cases hlow : j < 76
    · simp [hlow]
    · rw [if_pos (by omega), if_neg hlow]
  rw [happend, toNat_append_add, BitVec.extractLsb'_toNat, Nat.shiftRight_zero,
    Nat.and_two_pow_sub_one_eq_mod]

/-- The substitutions of the 128-bit schedule. -/
theorem toNat_substitute128 (x : BitVec 128) (v v' : BitVec 4) :
    (v.toNat <<< 124) + (v'.toNat <<< 120) + (x.toNat &&& (2 ^ 120 - 1)) =
      (setSlice (setSlice x 124 v) 120 v').toNat := by
  have happend : setSlice (setSlice x 124 v) 120 v' = v ++ v' ++ x.extractLsb' 0 120 := by
    apply BitVec.eq_of_getLsbD_eq
    intro j hj
    rw [getLsbD_setSlice _ _ _ hj, getLsbD_setSlice _ _ _ hj, BitVec.getLsbD_append,
      BitVec.getLsbD_append, BitVec.getLsbD_extractLsb']
    by_cases hlow : j < 120
    · rw [if_neg (by omega), if_neg (by omega)]
      simp [hlow]
    · rw [if_neg hlow]
      by_cases hmid : j < 124
      · rw [if_pos (by omega), if_pos (by omega)]
      · rw [if_neg (by omega), if_pos (by omega), if_neg (by omega), Nat.sub_sub]
  rw [happend, toNat_append_add, toNat_append_add, BitVec.extractLsb'_toNat, Nat.shiftRight_zero,
    Nat.and_two_pow_sub_one_eq_mod]
  simp only [Nat.shiftLeft_eq]
  omega

/-- A round of the 80-bit schedule: an update without the salt, then the salt. -/
theorem roundkey80_toNat (key : BitVec 80) (roundkeys : List ℕ) (i : ℕ) :
    ∃ x : BitVec 80, (∀ idx, presentUpdateKey80 key idx =
        setSlice x 15 (x.extractLsb' 15 5 ^^^ idx)) ∧
      roundkey80 (key.toNat, roundkeys) i =
        .ok (x.toNat ^^^ (i <<< 15), roundkeys ++ [key.toNat >>> 16]) := by
  let rotated : BitVec 80 := key.extractLsb' 0 19 ++ key.extractLsb' 19 61
  refine ⟨setSlice rotated 76 (entry PRESENT_SBOX4 (rotated.extractLsb' 76 4)), fun _ => rfl, ?_⟩
  have hrotated : ((key.toNat &&& (2 ^ 19 - 1)) <<< 61) + (key.toNat >>> 19) = rotated.toNat :=
    toNat_exchange (m := 19) (n := 61) key
  have htop : rotated.toNat >>> 76 = (rotated.extractLsb' 76 4).toNat := by
    have hlt := rotated.isLt
    rw [BitVec.extractLsb'_toNat, Nat.mod_eq_of_lt]
    rw [Nat.shiftRight_eq_div_pow]
    omega
  simp only [roundkey80, hrotated, htop, index_Sbox, bind, Except.bind, pure, Except.pure,
    toNat_substitute80]

/-- A round of the 128-bit schedule likewise. -/
theorem roundkey128_toNat (key : BitVec 128) (roundkeys : List ℕ) (i : ℕ) :
    ∃ x : BitVec 128, (∀ idx, presentUpdateKey128 key idx =
        setSlice x 62 (x.extractLsb' 62 5 ^^^ idx)) ∧
      roundkey128 (key.toNat, roundkeys) i =
        .ok (x.toNat ^^^ (i <<< 62), roundkeys ++ [key.toNat >>> 64]) := by
  let rotated : BitVec 128 := key.extractLsb' 0 67 ++ key.extractLsb' 67 61
  let upper := setSlice rotated 124 (entry PRESENT_SBOX4 (rotated.extractLsb' 124 4))
  refine ⟨setSlice upper 120 (entry PRESENT_SBOX4 (upper.extractLsb' 120 4)), fun _ => rfl, ?_⟩
  have hrotated : ((key.toNat &&& (2 ^ 67 - 1)) <<< 61) + (key.toNat >>> 67) = rotated.toNat :=
    toNat_exchange (m := 67) (n := 61) key
  have htop : rotated.toNat >>> 124 = (rotated.extractLsb' 124 4).toNat := by
    have hlt := rotated.isLt
    rw [BitVec.extractLsb'_toNat, Nat.mod_eq_of_lt]
    rw [Nat.shiftRight_eq_div_pow]
    omega
  have hsecond : (rotated.toNat >>> 120) &&& 0xF = (upper.extractLsb' 120 4).toNat := by
    have hkeep : upper.extractLsb' 120 4 = rotated.extractLsb' 120 4 := by
      apply BitVec.eq_of_getLsbD_eq
      intro j hj
      rw [BitVec.getLsbD_extractLsb', BitVec.getLsbD_extractLsb',
        getLsbD_setSlice _ _ _ (by omega), if_neg (by omega)]
    rw [hkeep, BitVec.extractLsb'_toNat, toNat_extractLsb'_and]
  simp only [roundkey128, hrotated, htop, hsecond, index_Sbox, bind, Except.bind, pure, Except.pure,
    toNat_substitute128]
  rfl

section Schedule

variable {w : ℕ} {update : BitVec w → BitVec 5 → BitVec w}
  {round : ℕ × List ℕ → ℕ → Except String (ℕ × List ℕ)} {lsb shift : ℕ} (hlsb : lsb + 5 ≤ w)
  (hround : ∀ (key : BitVec w) (roundkeys : List ℕ) (i : ℕ), ∃ x : BitVec w,
    (∀ idx, update key idx = setSlice x lsb (x.extractLsb' lsb 5 ^^^ idx)) ∧
      round (key.toNat, roundkeys) i =
        .ok (x.toNat ^^^ (i <<< lsb), roundkeys ++ [key.toNat >>> shift]))

include hlsb hround

/-- The schedule up to the last salt that fits the counter. -/
theorem foldlM_roundkey (key : BitVec w) {n : ℕ} (hn : n < 32) :
    (List.range' 1 n).foldlM round (key.toNat, []) =
      .ok ((presentGetDecKey update key (BitVec.ofNat 5 n)).toNat, (List.range n).map fun k =>
        (presentGetDecKey update key (BitVec.ofNat 5 k)).toNat >>> shift) := by
  induction n with
  | zero => rfl
  | succ n ih =>
    obtain ⟨x, hupdate, hx⟩ := hround (presentGetDecKey update key (BitVec.ofNat 5 n))
      ((List.range n).map fun k =>
        (presentGetDecKey update key (BitVec.ofNat 5 k)).toNat >>> shift) (1 + n)
    have hnext : presentGetDecKey update key (BitVec.ofNat 5 (n + 1)) =
        update (presentGetDecKey update key (BitVec.ofNat 5 n)) (BitVec.ofNat 5 (1 + n)) := by
      rw [presentGetDecKey, presentGetDecKey, BitVec.toNat_ofNat, BitVec.toNat_ofNat,
        Nat.mod_eq_of_lt hn, Nat.mod_eq_of_lt (Nat.lt_of_succ_lt hn), List.range_succ,
        List.foldl_append, Nat.add_comm 1 n]
      rfl
    rw [List.range'_1_concat, List.foldlM_append, ih (Nat.lt_of_succ_lt hn), List.range_succ,
      List.map_append, hnext, hupdate, ← xor_salt x hlsb (by omega)]
    simp only [bind, Except.bind, List.foldlM_cons, List.foldlM_nil, hx, pure, Except.pure,
      List.map_cons, List.map_nil]

/-- The 32 round keys are the tops of the keys of the hardware. -/
theorem roundkeys_toNat (key : BitVec w) :
    Prod.snd <$> (List.range' 1 32).foldlM round (key.toNat, []) =
      .ok ((List.range 32).map fun k =>
        (presentGetDecKey update key (BitVec.ofNat 5 k)).toNat >>> shift) := by
  obtain ⟨x, -, hx⟩ := hround (presentGetDecKey update key (BitVec.ofNat 5 31))
    ((List.range 31).map fun k =>
      (presentGetDecKey update key (BitVec.ofNat 5 k)).toNat >>> shift) (1 + 31)
  have hrange' : List.range' 1 32 = List.range' 1 31 ++ [1 + 31] := List.range'_1_concat
  have hrange : List.range 32 = List.range 31 ++ [31] := List.range_succ
  rw [hrange', hrange, List.foldlM_append, foldlM_roundkey hlsb hround key (by omega),
    List.map_append]
  simp only [bind, Except.bind, List.foldlM_cons, List.foldlM_nil, hx, pure, Except.pure,
    List.map_cons, List.map_nil]
  rfl

end Schedule

/-! ### The cipher -/

/-- The 32 round keys of a width, as the hardware holds them. -/
def roundkeysOf (W : PresentWidths) (key : BitVec W.KeyWidth) : List ℕ :=
  (List.range 32).map fun k =>
    (W.getDecKey key (BitVec.ofNat 5 k)).toNat >>> (W.KeyWidth - W.DataWidth)

theorem init_toNat (W : PresentWidths) (hdata : W.DataWidth = 64) (key : BitVec W.KeyWidth) :
    init key.toNat 32 W.KeyWidth = .ok ⟨32, roundkeysOf W key⟩ := by
  cases W with
  | data64Key80 =>
    have hkeys : generateRoundkeys80 key.toNat 32 = .ok (roundkeysOf .data64Key80 key) :=
      roundkeys_toNat (by omega) roundkey80_toNat key
    rw [init, if_pos ⟨rfl, key.isLt⟩, hkeys]
    rfl
  | data64Key128 =>
    have hkeys : generateRoundkeys128 key.toNat 32 = .ok (roundkeysOf .data64Key128 key) :=
      roundkeys_toNat (by omega) roundkey128_toNat key
    have hne : ¬ (PresentWidths.data64Key128.KeyWidth = 80 ∧ key.toNat < 2 ^ 80) :=
      fun h => absurd h.1 (by decide)
    rw [init, if_neg hne, if_pos ⟨rfl, key.isLt⟩, hkeys]
    rfl
  | data32Key64 => exact absurd hdata (by decide)

theorem layers_toNat (W : PresentWidths) (hdata : W.DataWidth = 64) (x : BitVec W.DataWidth) :
    pLayer (sBoxLayer x.toNat) = (W.encLayers x).toNat := by
  have h64 (x : BitVec 64) : pLayer (sBoxLayer x.toNat) =
      (perm64bit (sbox464bit x PRESENT_SBOX4) PRESENT_PERM64).toNat := by
    rw [sBoxLayer_toNat, pLayer_toNat]
  cases W with
  | data64Key80 => exact h64 x
  | data64Key128 => exact h64 x
  | data32Key64 => exact absurd hdata (by decide)

variable {W : PresentWidths}

/-- The addition of a round key. -/
theorem addRoundKey_toNat (s : PresentState W) :
    addRoundKey s.data.toNat (s.key.toNat >>> (W.KeyWidth - W.DataWidth)) =
      (s.data ^^^ s.roundKey).toNat := by
  have hshift : s.key.toNat >>> (W.KeyWidth - W.DataWidth) = s.roundKey.toNat := by
    have hlt : s.key.toNat >>> (W.KeyWidth - W.DataWidth) < 2 ^ W.DataWidth := by
      rw [Nat.shiftRight_eq_div_pow]
      refine Nat.div_lt_of_lt_mul ?_
      rw [← Nat.pow_add]
      cases W <;> exact s.key.isLt
    rw [PresentState.roundKey, BitVec.extractLsb'_toNat, Nat.mod_eq_of_lt hlt]
  rw [hshift, addRoundKey, BitVec.toNat_xor]

/-- The rounds of the script are those of the hardware. -/
theorem foldlM_encryptRound (hdata : W.DataWidth = 64) (block : BitVec W.DataWidth)
    (key : BitVec W.KeyWidth) {n : ℕ} (hn : n < 32) :
    (List.range n).foldlM (encryptRound ⟨32, roundkeysOf W key⟩) block.toNat =
      .ok (PresentState.encRound^[n] ⟨block, key, 1⟩).data.toNat := by
  induction n with
  | zero => rfl
  | succ n ih =>
    let s : PresentState W := PresentState.encRound^[n] ⟨block, key, 1⟩
    have hn' : n < 32 := Nat.lt_of_succ_lt hn
    have hindex : index (roundkeysOf W key) n =
        .ok (s.key.toNat >>> (W.KeyWidth - W.DataWidth)) := by
      rw [PresentState.key_iterate_encRound block key hn']
      simp only [index, roundkeysOf, List.getElem?_map, List.getElem?_range hn', Option.map_some]
    rw [List.range_succ, List.foldlM_append, ih hn', Function.iterate_succ_apply']
    simp only [bind, Except.bind, List.foldlM_cons, List.foldlM_nil, encryptRound, hindex, pure,
      Except.pure]
    rw [addRoundKey_toNat s, layers_toNat W hdata]
    rfl

/-- The ciphertext of the script is that of the unrolled hardware with 31 rounds. -/
theorem encrypt_toNat (hdata : W.DataWidth = 64) (block : BitVec W.DataWidth)
    (key : BitVec W.KeyWidth) : encrypt ⟨32, roundkeysOf W key⟩ block.toNat =
      .ok (primPresent 31 31 false ⟨block, key, 1⟩).data.toNat := by
  let s : PresentState W := PresentState.encRound^[31] ⟨block, key, 1⟩
  have hlast : (roundkeysOf W key).getLast? =
      some (s.key.toNat >>> (W.KeyWidth - W.DataWidth)) := by
    rw [PresentState.key_iterate_encRound block key (by omega)]
    rfl
  rw [encrypt, foldlM_encryptRound hdata block key (by change 31 < 32; omega),
    primPresent_enc_eq (by omega)]
  simp only [bind, Except.bind, hlast, pure, Except.pure]
  exact congrArg Except.ok (addRoundKey_toNat s)

end PyPresent

/-- Every split of the rounds encrypts like the unrolled instance, decrypts it with the derived
key, and at 64 bits and 31 rounds agrees with the software model. -/
theorem present_consistent (W : PresentWidths) (NumRounds NumPhysRounds : ℕ) (hpos : 0 < NumRounds)
    (hle : NumRounds ≤ 31) (hdvd : NumPhysRounds ∣ NumRounds) (key : BitVec W.KeyWidth)
    (block : BitVec W.DataWidth) :
    let unrolled := primPresent NumRounds NumRounds false (⟨block, key, 1⟩ : PresentState W)
    (primPresent NumRounds NumPhysRounds false)^[NumRounds / NumPhysRounds] ⟨block, key, 1⟩ =
        unrolled ∧
      ((primPresent NumRounds NumPhysRounds true)^[NumRounds / NumPhysRounds]
        (⟨unrolled.data, W.getDecKey key (BitVec.ofNat 5 NumRounds), BitVec.ofNat 5 NumRounds⟩ :
          PresentState W)).data = block ∧
      (NumRounds = 31 → W.DataWidth = 64 →
        (PyPresent.init key.toNat 32 W.KeyWidth >>= fun cipher => cipher.encrypt block.toNat) =
          .ok unrolled.data.toNat) := by
  intro unrolled
  refine ⟨iterate_primPresent_enc hpos (by omega) hdvd block key, ?_, ?_⟩
  · rw [iterate_primPresent_dec hpos (by omega) hdvd rfl]
    exact primPresent_dec_enc (by omega) block key
  · rintro rfl hdata
    rw [PyPresent.init_toNat W hdata key]
    simp only [bind, Except.bind]
    exact PyPresent.encrypt_toNat hdata block key

theorem present_consistent_zero_key :
    (PyPresent.init (0 : BitVec PresentWidths.data64Key80.KeyWidth).toNat 32
        PresentWidths.data64Key80.KeyWidth >>= fun cipher =>
      cipher.encrypt (0 : BitVec PresentWidths.data64Key80.DataWidth).toNat) =
      .ok (primPresent 31 31 false (⟨0, 0, 1⟩ : PresentState .data64Key80)).data.toNat :=
  (present_consistent .data64Key80 31 1 (by decide) (by decide) (by decide) 0 0).2.2 rfl rfl

end SecureBoot
