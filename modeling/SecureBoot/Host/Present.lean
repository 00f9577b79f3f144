import Mathlib.Data.Nat.Digits.Lemmas
import SecureBoot.Lib.PresentCipher

/-! `present.rs`: the PRESENT block cipher of the host tools. A table that is indexed out
of its bounds panics, which is `none` here. Blocks always round trip. The 80-bit schedule
pads the key at the wrong end of the 128-bit register it works in, and both schedules
add a round counter that does not wrap at the five bits of the standard. -/

namespace SecureBoot

structure Present where
  round_keys : List (BitVec 64)
  deriving DecidableEq

namespace Present

open PresentCipher Bits

def S_BOX : List (BitVec 8) :=
  [0x0c, 0x05, 0x06, 0x0b, 0x09, 0x00, 0x0a, 0x0d, 0x03, 0x0e, 0x0f, 0x08, 0x04, 0x07, 0x01, 0x02]

def S_BOX_INV : List (BitVec 8) :=
  [0x05, 0x0e, 0x0f, 0x08, 0x0c, 0x01, 0x02, 0x0d, 0x0b, 0x04, 0x06, 0x03, 0x00, 0x07, 0x09, 0x0a]

def P_BOX : List ℕ := [
  0x00, 0x10, 0x20, 0x30, 0x01, 0x11, 0x21, 0x31, 0x02, 0x12, 0x22, 0x32, 0x03, 0x13, 0x23, 0x33,
  0x04, 0x14, 0x24, 0x34, 0x05, 0x15, 0x25, 0x35, 0x06, 0x16, 0x26, 0x36, 0x07, 0x17, 0x27, 0x37,
  0x08, 0x18, 0x28, 0x38, 0x09, 0x19, 0x29, 0x39, 0x0a, 0x1a, 0x2a, 0x3a, 0x0b, 0x1b, 0x2b, 0x3b,
  0x0c, 0x1c, 0x2c, 0x3c, 0x0d, 0x1d, 0x2d, 0x3d, 0x0e, 0x1e, 0x2e, 0x3e, 0x0f, 0x1f, 0x2f, 0x3f]

def P_BOX_INV : List ℕ := [
  0x00, 0x04, 0x08, 0x0c, 0x10, 0x14, 0x18, 0x1c, 0x20, 0x24, 0x28, 0x2c, 0x30, 0x34, 0x38, 0x3c,
  0x01, 0x05, 0x09, 0x0d, 0x11, 0x15, 0x19, 0x1d, 0x21, 0x25, 0x29, 0x2d, 0x31, 0x35, 0x39, 0x3d,
  0x02, 0x06, 0x0a, 0x0e, 0x12, 0x16, 0x1a, 0x1e, 0x22, 0x26, 0x2a, 0x2e, 0x32, 0x36, 0x3a, 0x3e,
  0x03, 0x07, 0x0b, 0x0f, 0x13, 0x17, 0x1b, 0x1f, 0x23, 0x27, 0x2b, 0x2f, 0x33, 0x37, 0x3b, 0x3f]

/-- `u128::from_le_bytes`, and the same at other widths. -/
def from_le_bytes (w : ℕ) (bytes : List (BitVec 8)) : BitVec w :=
  BitVec.ofNat w (Nat.ofDigits 256 (bytes.map BitVec.toNat))

/-! ### Layers -/

/-- The loop of the S-box layers. An index below 16 is always in the table. -/
def substitute (table : List (BitVec 8)) (state : BitVec 64) : BitVec 64 :=
  (List.range' 0 16 4).foldl
    (fun output i => output ||| (table.getD ((state >>> i) &&& 0x0f#64).toNat 0).setWidth 64 <<< i)
    0#64

/-- The loop of the P-box layers. -/
def permute (table : List ℕ) (state : BitVec 64) : BitVec 64 :=
  table.zipIdx.foldl (fun output p => output ||| ((state >>> p.2) &&& 0x01#64) <<< p.1) 0#64

def s_box_layer : BitVec 64 → BitVec 64 := substitute S_BOX

def s_box_layer_dec : BitVec 64 → BitVec 64 := substitute S_BOX_INV

def p_box_layer : BitVec 64 → BitVec 64 := permute P_BOX

def p_box_layer_dec : BitVec 64 → BitVec 64 := permute P_BOX_INV

/-! ### Round keys -/

/-- The three steps of the 80-bit schedule. -/
def update_key_80 (key : BitVec 128) (i : ℕ) : Option (BitVec 128) := do
  -- 1. Rotate bits
  let key := (key &&& 0x7ffff) <<< 61 ||| key >>> 19
  -- 2. SBox
  let s ← S_BOX[(key >>> 76).toNat]?
  let key := s.setWidth 128 <<< 76 ||| (key &&& (~~~(0 : BitVec 128)) >>> (128 - 76))
  -- 3. Salt
  return key ^^^ BitVec.ofNat 128 i <<< 15

/-- The three steps of the 128-bit schedule. -/
def update_key_128 (key : BitVec 128) (i : ℕ) : Option (BitVec 128) := do
  -- 1. Rotate bits
  let key := key.rotateLeft 61
  -- 2. SBox
  let s ← S_BOX[(key >>> 124).toNat]?
  let s' ← S_BOX[((key >>> 120) &&& 0xF).toNat]?
  let key := s.setWidth 128 <<< 124 ||| s'.setWidth 128 <<< 120 |||
    (key &&& (~~~(0 : BitVec 128)) >>> 8)
  -- 3. Salt
  return key ^^^ BitVec.ofNat 128 i <<< 62

/-- One pass of the loop of both schedules: the round key is cut from the register before
the update. -/
def schedule_round (update : BitVec 128 → ℕ → Option (BitVec 128)) (shift : ℕ)
    (s : BitVec 128 × List (BitVec 64)) (i : ℕ) : Option (BitVec 128 × List (BitVec 64)) := do
  let round_key := (s.1 >>> shift).setWidth 64
  let key ← update s.1 i
  return (key, s.2 ++ [round_key])

def generate_round_keys (update : BitVec 128 → ℕ → Option (BitVec 128)) (shift : ℕ)
    (key : BitVec 128) (rounds : ℕ) : Option (List (BitVec 64)) :=
  ((List.range' 1 rounds).foldlM (schedule_round update shift) (key, [])).map Prod.snd

def generate_round_keys_80 (key : List (BitVec 8)) (rounds : ℕ) : Option (List (BitVec 64)) :=
  -- Pad out key so it fits in a u128 later.
  generate_round_keys update_key_80 16 (from_le_bytes 128 (List.replicate 6 0 ++ key)) rounds

def generate_round_keys_128 (key : List (BitVec 8)) (rounds : ℕ) : Option (List (BitVec 64)) :=
  generate_round_keys update_key_128 64 (from_le_bytes 128 key) rounds

/-! ### The cipher -/

/-- `Present::try_new_rounds`. -/
def try_new_rounds (key : List (BitVec 8)) (rounds : ℕ) : Option (Except String Present) :=
  if 1 ≤ rounds ∧ rounds ≤ 254 then
    match key.length with
    | 10 => (generate_round_keys_80 key rounds).map fun round_keys => .ok ⟨round_keys⟩
    | 16 => (generate_round_keys_128 key rounds).map fun round_keys => .ok ⟨round_keys⟩
    | _ => some (.error "key length must be 80 or 128 bits")
  else some (.error s!"unsupported number of rounds {rounds}")

/-- `Present::try_new`. -/
def try_new (key : List (BitVec 8)) : Option (Except String Present) := try_new_rounds key 32

/-- `Result::unwrap`. -/
def unwrap (result : Except String Present) : Option Present := result.toOption

/-- `Present::new_128`. -/
def new_128 (key : Vector (BitVec 8) 16) : Option Present := try_new key.toList >>= unwrap

/-- `Present::new_80`. -/
def new_80 (key : Vector (BitVec 8) 10) : Option Present := try_new key.toList >>= unwrap

variable (cipher : Present)

/-- `Present::encrypt_block`. -/
def encrypt_block (block : BitVec 64) : Option (BitVec 64) :=
  match cipher.round_keys with
  | [] => none
  | first :: rest => some (rest.foldl
      (fun state round_key => p_box_layer (s_box_layer state) ^^^ round_key) (block ^^^ first))

/-- `Present::decrypt_block`. -/
def decrypt_block (block : BitVec 64) : Option (BitVec 64) :=
  match cipher.round_keys with
  | [] => none
  | first :: rest => some (rest.reverse.foldl
      (fun state round_key => s_box_layer_dec (p_box_layer_dec (state ^^^ round_key))) block ^^^
        first)

/-! ### The layers are those of the standard -/

theorem getLsbD_foldl_or {α : Type} (g : α → BitVec 64) (l : List α) (x : BitVec 64) (j : ℕ) :
    (l.foldl (fun output a => output ||| g a) x).getLsbD j =
      (x.getLsbD j || l.any fun a => (g a).getLsbD j) := by
  induction l generalizing x with
  | nil => simp
  | cons a l ih => rw [List.foldl_cons, ih, BitVec.getLsbD_or, List.any_cons, Bool.or_assoc]

theorem toNat_and_0x0f (state : BitVec 64) (i : ℕ) :
    ((state >>> i) &&& 0x0f#64).toNat = (state.extractLsb' i 4).toNat := by
  rw [BitVec.toNat_and, BitVec.toNat_ushiftRight, BitVec.extractLsb'_toNat]
  exact Nat.and_two_pow_sub_one_eq_mod _ 4

theorem substitute_eq {table : List (BitVec 8)} {S : BitVec 4 → BitVec 4}
    (htable : ∀ n : BitVec 4, table.getD n.toNat 0 = (S n).setWidth 8) (state : BitVec 64) :
    substitute table state = nibbleLayer S state := by
  apply BitVec.eq_of_getLsbD_eq
  intro j hj
  rw [substitute, getLsbD_foldl_or, BitVec.getLsbD_zero, Bool.false_or, nibbleLayer,
    getLsbD_ofBits hj]
  simp only [toNat_and_0x0f, htable, BitVec.getLsbD_shiftLeft, BitVec.getLsbD_setWidth]
  rw [Bool.eq_iff_iff, List.any_eq_true]
  constructor
  · rintro ⟨i, hi, hbit⟩
    obtain ⟨k, hk, rfl⟩ := List.mem_range'.1 hi
    simp only [Bool.and_eq_true, Bool.not_eq_true', decide_eq_true_eq, decide_eq_false_iff_not]
      at hbit
    have hlt := BitVec.lt_of_getLsbD hbit.2.2.2
    rw [show j / 4 = k by omega, show j % 4 = j - 4 * k by omega]
    simp only [Nat.zero_add] at hbit
    exact hbit.2.2.2
  · intro hbit
    refine ⟨4 * (j / 4), List.mem_range'.2 ⟨j / 4, by omega, by omega⟩, ?_⟩
    rw [show j - 4 * (j / 4) = j % 4 by omega, hbit]
    have hle : ¬j < 4 * (j / 4) := by omega
    have hmod : j % 4 < 8 := by omega
    have hmod' : j % 4 < 64 := by omega
    simp [hj, hle, hmod, hmod']

theorem permute_eq {table : List ℕ} {source : ℕ → ℕ}
    (hsource : ∀ p ∈ table.zipIdx, source p.1 = p.2)
    (htable : ∀ j < 64, table[source j]? = some j) (state : BitVec 64) :
    permute table state = bitLayer source state := by
  apply BitVec.eq_of_getLsbD_eq
  intro j hj
  rw [permute, getLsbD_foldl_or, BitVec.getLsbD_zero, Bool.false_or, bitLayer, getLsbD_ofBits hj,
    Bool.eq_iff_iff, List.any_eq_true]
  have hone (k : ℕ) : (1#64).getLsbD k = decide (k = 0) := by simp
  constructor
  · rintro ⟨⟨v, i⟩, hp, hbit⟩
    simp only [BitVec.getLsbD_shiftLeft, BitVec.getLsbD_and, BitVec.getLsbD_ushiftRight, hone,
      Bool.and_eq_true, Bool.not_eq_true', decide_eq_true_eq, decide_eq_false_iff_not] at hbit
    obtain ⟨⟨-, hle⟩, hstate, hsub⟩ := hbit
    have hv : j = v := by omega
    subst hv
    have hi : source j = i := hsource _ hp
    rwa [Nat.sub_self, Nat.add_zero, ← hi] at hstate
  · intro hbit
    refine ⟨(j, source j), List.mk_mem_zipIdx_iff_getElem?.2 (htable j hj), ?_⟩
    simp [hj, hbit]

theorem s_box_layer_eq (state : BitVec 64) : s_box_layer state = sBoxLayer state :=
  substitute_eq (by decide) state

/-- The inverse of the substitution of the standard, as the table gives it. -/
def sBoxInv (x : BitVec 4) : BitVec 4 := (S_BOX_INV.getD x.toNat 0).setWidth 4

theorem s_box_layer_dec_eq (state : BitVec 64) :
    s_box_layer_dec state = nibbleLayer sBoxInv state := substitute_eq (by decide) state

theorem p_box_layer_eq (state : BitVec 64) : p_box_layer state = pLayer state :=
  permute_eq (by decide) (by decide) state

theorem p_box_layer_dec_eq (state : BitVec 64) :
    p_box_layer_dec state = bitLayer pTarget state := permute_eq (by decide) (by decide) state

@[simp] theorem s_box_layer_dec_s_box_layer (state : BitVec 64) :
    s_box_layer_dec (s_box_layer state) = state := by
  rw [s_box_layer_eq, s_box_layer_dec_eq]
  exact nibbleLayer_nibbleLayer (by decide) state

@[simp] theorem s_box_layer_s_box_layer_dec (state : BitVec 64) :
    s_box_layer (s_box_layer_dec state) = state := by
  rw [s_box_layer_eq, s_box_layer_dec_eq]
  exact nibbleLayer_nibbleLayer (by decide) state

@[simp] theorem p_box_layer_dec_p_box_layer (state : BitVec 64) :
    p_box_layer_dec (p_box_layer state) = state := by
  rw [p_box_layer_eq, p_box_layer_dec_eq]
  exact bitLayer_bitLayer (fun j _ => pTarget_lt j) (fun j hj => pSource_pTarget hj) state

@[simp] theorem p_box_layer_p_box_layer_dec (state : BitVec 64) :
    p_box_layer (p_box_layer_dec state) = state := by
  rw [p_box_layer_eq, p_box_layer_dec_eq]
  exact bitLayer_bitLayer (fun j _ => pSource_lt j) (fun j hj => pTarget_pSource hj) state

/-! ### Blocks round trip under any round keys -/

variable {cipher}

theorem decrypt_block_encrypt_block (hkeys : cipher.round_keys ≠ []) (block : BitVec 64) :
    (cipher.encrypt_block block >>= cipher.decrypt_block) = some block := by
  obtain ⟨_ | ⟨first, rest⟩⟩ := cipher
  · exact absurd rfl hkeys
  · change some (_ ^^^ first) = some block
    rw [foldl_reverse_foldl fun state round_key => by
      simp [BitVec.xor_assoc], BitVec.xor_assoc, BitVec.xor_self, BitVec.xor_zero]

theorem encrypt_block_decrypt_block (hkeys : cipher.round_keys ≠ []) (block : BitVec 64) :
    (cipher.decrypt_block block >>= cipher.encrypt_block) = some block := by
  obtain ⟨_ | ⟨first, rest⟩⟩ := cipher
  · exact absurd rfl hkeys
  · change some (rest.foldl _ ((_ ^^^ first) ^^^ first)) = some block
    have hundo := foldl_reverse_foldl (g := fun state round_key =>
        p_box_layer (s_box_layer state) ^^^ round_key) (f := fun state round_key =>
        s_box_layer_dec (p_box_layer_dec (state ^^^ round_key)))
      (fun state round_key => by simp [BitVec.xor_assoc]) rest.reverse block
    rw [List.reverse_reverse] at hundo
    rw [BitVec.xor_assoc, BitVec.xor_self, BitVec.xor_zero, hundo]

end Present

end SecureBoot

/-! The key schedules of the host tools against those of the standard. A register that
holds the key in its low bits follows the standard for as long as the counter fits five
bits. The 128-bit key starts like that; of the padded 80-bit keys only zero does. -/

namespace SecureBoot

namespace Present

open PresentCipher Bits

/-- The loop of a schedule as a recursion. -/
def roundKeysLoop (update : BitVec 128 → ℕ → Option (BitVec 128)) (shift : ℕ) :
    ℕ → ℕ → BitVec 128 → Option (List (BitVec 64))
  | _, 0, _ => some []
  | i, n + 1, key => do
    let next ← update key i
    let round_keys ← roundKeysLoop update shift (i + 1) n next
    return (key >>> shift).setWidth 64 :: round_keys

theorem schedule_rounds_eq (update : BitVec 128 → ℕ → Option (BitVec 128)) (shift i n : ℕ)
    (key : BitVec 128) (acc : List (BitVec 64)) :
    ((List.range' i n).foldlM (schedule_round update shift) (key, acc)).map Prod.snd =
      (roundKeysLoop update shift i n key).map (acc ++ ·) := by
  induction n generalizing i key acc with
  | zero => simp [roundKeysLoop]
  | succ n ih =>
    rw [List.range'_succ, List.foldlM_cons, roundKeysLoop, schedule_round]
    cases update key i with
    | none => rfl
    | some next =>
      change ((List.range' (i + 1) n).foldlM (schedule_round update shift)
        (next, acc ++ [(key >>> shift).setWidth 64])).map Prod.snd = _
      rw [ih]
      cases hrest : roundKeysLoop update shift (i + 1) n next <;> simp [hrest]

theorem generate_round_keys_eq (update : BitVec 128 → ℕ → Option (BitVec 128)) (shift : ℕ)
    (key : BitVec 128) (rounds : ℕ) :
    generate_round_keys update shift key rounds = roundKeysLoop update shift 1 rounds key := by
  rw [generate_round_keys, schedule_rounds_eq]
  simp

theorem roundKeysLoop_succ {update : BitVec 128 → ℕ → Option (BitVec 128)} {shift i n : ℕ}
    {key : BitVec 128} {keys : List (BitVec 64)}
    (h : roundKeysLoop update shift i (n + 1) key = some keys) :
    ∃ next rest, update key i = some next ∧ roundKeysLoop update shift (i + 1) n next = some rest ∧
      keys = (key >>> shift).setWidth 64 :: rest := by
  obtain ⟨next, hnext, h⟩ := Option.bind_eq_some_iff.1 h
  obtain ⟨rest, hrest, h⟩ := Option.bind_eq_some_iff.1 h
  exact ⟨next, rest, hnext, hrest, (Option.some.inj h).symm⟩

/-! ### One update -/

theorem getElem?_S_BOX (n : BitVec 4) : S_BOX[n.toNat]? = some ((sBox n).setWidth 8) := by
  revert n
  decide

variable {w : ℕ}

/-- A counter that fits the five bits of the field is added as the standard adds it. -/
theorem setWidth_setSlice_salt (x : BitVec w) {salt i : ℕ} (hsalt : salt + 5 ≤ w)
    (hi : i < 32) :
    (setSlice x salt (x.extractLsb' salt 5 ^^^ BitVec.ofNat 5 i)).setWidth 128 =
      x.setWidth 128 ^^^ BitVec.ofNat 128 i <<< salt := by
  rw [setSlice_extractLsb'_xor]
  apply BitVec.eq_of_getLsbD_eq
  intro j hj
  have hbit (k : ℕ) (hk : 5 ≤ k) : i.testBit k = false :=
    Nat.testBit_lt_two_pow (hi.trans_le (Nat.pow_le_pow_right Nat.two_pos hk))
  simp only [BitVec.getLsbD_setWidth, BitVec.getLsbD_xor, BitVec.getLsbD_shiftLeft,
    BitVec.getLsbD_ofNat, hj, decide_true, Bool.true_and]
  by_cases hlow : j < salt
  · simp [hlow]
  · by_cases hfield : j - salt < 5
    · have hjw : j < w := by omega
      have hjw' : j - salt < w := by omega
      have hj' : j - salt < 128 := by omega
      simp [hfield, hjw, hjw', hj']
    · simp [hfield, hbit _ (Nat.not_lt.1 hfield)]

/-- The rotation and the substitution of PRESENT-80. -/
def substituted80 (register : BitVec 80) : BitVec 80 :=
  setSlice (register.rotateLeft 61) 76 (sBox ((register.rotateLeft 61).extractLsb' 76 4))

theorem rotate_80 (register : BitVec 80) :
    (register.setWidth 128 &&& 0x7ffff) <<< 61 ||| register.setWidth 128 >>> 19 =
      (register.rotateLeft 61).setWidth 128 := by
  apply BitVec.eq_of_getLsbD_eq
  intro j hj
  have hmask : (0x7ffff : BitVec 128).getLsbD (j - 61) = decide (j - 61 < 19) := by
    revert j
    decide
  rw [BitVec.getLsbD_or, BitVec.getLsbD_shiftLeft, BitVec.getLsbD_and, hmask,
    BitVec.getLsbD_ushiftRight, BitVec.getLsbD_setWidth, BitVec.getLsbD_setWidth,
    BitVec.getLsbD_setWidth, BitVec.getLsbD_rotateLeft]
  by_cases hlow : j < 61
  · have hj' : 19 + j < 128 := by omega
    simp [hlow, hj, hj']
  · by_cases hhigh : j < 80
    · have hj' : j - 61 < 19 := by omega
      have hj'' : j - 61 < 128 := by omega
      have hge : 80 ≤ 19 + j := by omega
      simp [hlow, hj, hj', hj'', hhigh, BitVec.getLsbD_of_ge register _ hge]
    · have hj' : ¬j - 61 < 19 := by omega
      have hge : 80 ≤ 19 + j := by omega
      simp [hlow, hj', hhigh, BitVec.getLsbD_of_ge register _ hge]

theorem substitute_80 (x : BitVec 80) (v : BitVec 4) :
    (v.setWidth 8).setWidth 128 <<< 76 |||
      (x.setWidth 128 &&& (~~~(0 : BitVec 128)) >>> (128 - 76)) =
        (setSlice x 76 v).setWidth 128 := by
  apply BitVec.eq_of_getLsbD_eq
  intro j hj
  have hmask : ((~~~(0 : BitVec 128)) >>> (128 - 76)).getLsbD j = decide (j < 76) := by
    revert j
    decide
  rw [BitVec.getLsbD_or, BitVec.getLsbD_and, hmask, BitVec.getLsbD_shiftLeft,
    BitVec.getLsbD_setWidth, BitVec.getLsbD_setWidth, BitVec.getLsbD_setWidth,
    BitVec.getLsbD_setWidth]
  by_cases hlow : j < 76
  · rw [getLsbD_setSlice _ _ _ (by omega), if_neg (by omega)]
    simp [hlow, hj]
  · by_cases hhigh : j < 80
    · have hj' : j - 76 < 128 := by omega
      have hj'' : j - 76 < 8 := by omega
      rw [getLsbD_setSlice _ _ _ hhigh, if_pos (by omega)]
      simp [hlow, hj, hj', hj'']
    · rw [BitVec.getLsbD_of_ge v _ (by omega), BitVec.getLsbD_of_ge (setSlice x 76 v) _ (by omega)]
      simp [hlow]

theorem update_key_80_eq (register : BitVec 80) (i : ℕ) :
    update_key_80 (register.setWidth 128) i =
      some ((substituted80 register).setWidth 128 ^^^ BitVec.ofNat 128 i <<< 15) := by
  have hindex (x : BitVec 80) : (x.setWidth 128 >>> 76).toNat = (x.extractLsb' 76 4).toNat := by
    rw [BitVec.toNat_ushiftRight, BitVec.toNat_setWidth, BitVec.extractLsb'_toNat,
      Nat.mod_eq_of_lt (x.isLt.trans (by decide)), Nat.shiftRight_eq_div_pow]
    have hx := x.isLt
    omega
  simp only [update_key_80, rotate_80, hindex, getElem?_S_BOX, Option.bind_eq_bind,
    Option.bind_some, substitute_80]
  rfl

/-- The rotation and the substitutions of PRESENT-128. -/
def substituted128 (register : BitVec 128) : BitVec 128 :=
  let register := register.rotateLeft 61
  let register := setSlice register 124 (sBox (register.extractLsb' 124 4))
  setSlice register 120 (sBox (register.extractLsb' 120 4))

theorem substitute_128 (x : BitVec 128) (v v' : BitVec 4) :
    (v.setWidth 8).setWidth 128 <<< 124 ||| (v'.setWidth 8).setWidth 128 <<< 120 |||
      (x &&& (~~~(0 : BitVec 128)) >>> 8) = setSlice (setSlice x 124 v) 120 v' := by
  apply BitVec.eq_of_getLsbD_eq
  intro j hj
  have hmask : ((~~~(0 : BitVec 128)) >>> 8).getLsbD j = decide (j < 120) := by
    revert j
    decide
  rw [BitVec.getLsbD_or, BitVec.getLsbD_or, BitVec.getLsbD_and, hmask, BitVec.getLsbD_shiftLeft,
    BitVec.getLsbD_shiftLeft, BitVec.getLsbD_setWidth, BitVec.getLsbD_setWidth,
    BitVec.getLsbD_setWidth, BitVec.getLsbD_setWidth, getLsbD_setSlice _ _ _ hj,
    getLsbD_setSlice _ _ _ hj]
  by_cases hlow : j < 120
  · rw [if_neg (by omega), if_neg (by omega)]
    simp [hlow, show j < 124 by omega]
  · by_cases hhigh : j < 124
    · rw [if_pos (by omega)]
      simp [hlow, hj, hhigh, show j - 120 < 128 by omega, show j - 120 < 8 by omega]
    · rw [if_neg (by omega), if_pos (by omega), BitVec.getLsbD_of_ge v' _ (by omega)]
      simp [hlow, hj, hhigh, show j - 124 < 128 by omega, show j - 124 < 8 by omega]

theorem update_key_128_eq (register : BitVec 128) (i : ℕ) :
    update_key_128 (register.setWidth 128) i =
      some ((substituted128 register).setWidth 128 ^^^ BitVec.ofNat 128 i <<< 62) := by
  rw [BitVec.setWidth_eq, BitVec.setWidth_eq]
  have hindex (x : BitVec 128) : (x >>> 124).toNat = (x.extractLsb' 124 4).toNat := by
    rw [BitVec.toNat_ushiftRight, BitVec.extractLsb'_toNat, Nat.shiftRight_eq_div_pow]
    have hx := x.isLt
    omega
  have hindex' (x : BitVec 128) : ((x >>> 120) &&& 0xF).toNat = (x.extractLsb' 120 4).toNat := by
    rw [BitVec.toNat_and, BitVec.toNat_ushiftRight, BitVec.extractLsb'_toNat]
    exact Nat.and_two_pow_sub_one_eq_mod _ 4
  have hkeep (x : BitVec 128) (v : BitVec 4) :
      (setSlice x 124 v).extractLsb' 120 4 = x.extractLsb' 120 4 := by
    apply BitVec.eq_of_getLsbD_eq
    intro j hj
    rw [BitVec.getLsbD_extractLsb', BitVec.getLsbD_extractLsb', getLsbD_setSlice _ _ _ (by omega),
      if_neg (by omega)]
  simp only [update_key_128, substituted128, hindex, hindex', getElem?_S_BOX, Option.bind_eq_bind,
    Option.bind_some, substitute_128, hkeep]
  rfl

/-! ### Whole schedules -/

section Schedule

variable (salt : ℕ) {substituted : BitVec w → BitVec w}
  {update : BitVec 128 → ℕ → Option (BitVec 128)}

/-- The update of the standard: the rotated and substituted register with the counter
added to its field. -/
def saltedUpdate (salt : ℕ) (substituted : BitVec w → BitVec w) (register : BitVec w)
    (roundCounter : BitVec 5) : BitVec w :=
  setSlice (substituted register) salt ((substituted register).extractLsb' salt 5 ^^^ roundCounter)

theorem setWidth_round_key (register : BitVec w) (hw : w ≤ 128) (hw' : 64 ≤ w) :
    (register.setWidth 128 >>> (w - 64)).setWidth 64 = register.extractLsb' (w - 64) 64 := by
  apply BitVec.eq_of_getLsbD_eq
  intro j hj
  simp [hj, show w - 64 + j < 128 by omega]

variable (hw : w ≤ 128) (hw' : 64 ≤ w) (hsalt : salt + 5 ≤ w)
  (hupdate : ∀ register i, update (register.setWidth 128) i =
    some ((substituted register).setWidth 128 ^^^ BitVec.ofNat 128 i <<< salt))

include hw hw' hsalt hupdate

/-- Up to the round with counter 32, whose update comes after its round key. -/
theorem roundKeysLoop_eq {i n : ℕ} (hn : i + n ≤ 33) (register : BitVec w) :
    roundKeysLoop update (w - 64) i n (register.setWidth 128) =
      some (roundKeysFrom (saltedUpdate salt substituted) i n register) := by
  induction n generalizing i register with
  | zero => rfl
  | succ n ih =>
    rw [roundKeysLoop, hupdate, roundKeysFrom, setWidth_round_key _ hw hw']
    obtain rfl | hpos := Nat.eq_zero_or_pos n
    · rfl
    · rw [← setWidth_setSlice_salt _ hsalt (by omega), ← saltedUpdate]
      change (roundKeysLoop update (w - 64) (i + 1) n _ >>= _) = _
      rw [ih (by omega)]
      rfl

/-- From there on the counter of the code reaches a bit above the field. -/
theorem roundKeysLoop_ne {i n : ℕ} (hi : i ≤ 32) (hn : 33 < i + n) (hbit : w - 64 ≤ salt + 5)
    (hbit' : salt + 5 < w) (register : BitVec w) :
    roundKeysLoop update (w - 64) i n (register.setWidth 128) ≠
      some (roundKeysFrom (saltedUpdate salt substituted) i n register) := by
  induction n generalizing i register with
  | zero => omega
  | succ n ih =>
    intro heq
    obtain ⟨next, rest, hnext, hrest, hkeys⟩ := roundKeysLoop_succ heq
    rw [hupdate, Option.some.injEq] at hnext
    obtain ⟨-, rfl⟩ := List.cons.inj hkeys
    obtain hlt | rfl := Nat.lt_or_eq_of_le hi
    · rw [← setWidth_setSlice_salt _ hsalt hlt] at hnext
      subst hnext
      exact ih hlt (by omega) (saltedUpdate salt substituted register (BitVec.ofNat 5 i)) hrest
    · obtain ⟨n, rfl⟩ : ∃ m, n = m + 1 := ⟨n - 1, by omega⟩
      obtain ⟨_, _, _, _, hsecond⟩ := roundKeysLoop_succ hrest
      have hhead := (List.cons.inj hsecond).1
      rw [← setWidth_round_key _ hw hw', show BitVec.ofNat 5 32 = BitVec.ofNat 5 0 from rfl,
        saltedUpdate, setWidth_setSlice_salt _ hsalt (by omega), ← hnext] at hhead
      -- the two registers differ in the bit above the field
      have hbits := congrArg (BitVec.getLsbD · (salt + 5 - (w - 64))) hhead
      have hpos : w - 64 + (salt + 5 - (w - 64)) = salt + 5 := by omega
      simp [hpos, show salt + 5 - (w - 64) < 64 by omega, show salt + 5 < 128 by omega] at hbits

end Schedule

/-- The register of the 128-bit schedule is that of the standard. -/
theorem generate_round_keys_128_eq (key : List (BitVec 8)) {rounds : ℕ} (hrounds : rounds ≤ 32) :
    generate_round_keys_128 key rounds = some (roundKeys128 (from_le_bytes 128 key) rounds) := by
  rw [generate_round_keys_128, generate_round_keys_eq]
  exact roundKeysLoop_eq 62 (by omega) (by omega) (by omega) update_key_128_eq (by omega)
    (from_le_bytes 128 key)

theorem generate_round_keys_128_ne (key : List (BitVec 8)) {rounds : ℕ} (hrounds : 32 < rounds) :
    generate_round_keys_128 key rounds ≠ some (roundKeys128 (from_le_bytes 128 key) rounds) := by
  rw [generate_round_keys_128, generate_round_keys_eq]
  exact roundKeysLoop_ne 62 (by omega) (by omega) (by omega) update_key_128_eq (by omega)
    (by omega) (by omega) (by omega) (from_le_bytes 128 key)

/-! ### The padded 80-bit key -/

theorem from_le_bytes_pad (key : List (BitVec 8)) :
    from_le_bytes 128 (List.replicate 6 0 ++ key) =
      (from_le_bytes 80 key).setWidth 128 <<< 48 := by
  apply BitVec.eq_of_toNat_eq
  rw [from_le_bytes, BitVec.toNat_ofNat, BitVec.toNat_shiftLeft, BitVec.toNat_setWidth,
    from_le_bytes, BitVec.toNat_ofNat, List.map_append, Nat.ofDigits_append, Nat.shiftLeft_eq,
    show Nat.ofDigits 256 ((List.replicate 6 (0 : BitVec 8)).map BitVec.toNat) = 0 from rfl]
  simp only [List.length_map, List.length_replicate]
  omega

variable {K : BitVec 80}

/-- The first update of a padded key looks the top of the key up in the S-box. -/
theorem update_key_80_pad (i : ℕ) (hK : 2 ^ 51 ≤ K.toNat) :
    update_key_80 (K.setWidth 128 <<< 48) i = none := by
  have hlt := K.isLt
  have hrotate : (K.setWidth 128 <<< 48 &&& 0x7ffff) <<< 61 ||| (K.setWidth 128 <<< 48) >>> 19 =
      K.setWidth 128 <<< 29 := by
    have hlow : K.setWidth 128 <<< 48 &&& 0x7ffff = 0#128 := by
      apply BitVec.eq_of_toNat_eq
      rw [BitVec.toNat_and, BitVec.toNat_shiftLeft, Nat.shiftLeft_eq]
      refine (Nat.and_two_pow_sub_one_eq_mod _ 19).trans ?_
      rw [BitVec.toNat_zero]
      omega
    rw [hlow, BitVec.zero_shiftLeft, BitVec.zero_or]
    apply BitVec.eq_of_toNat_eq
    rw [BitVec.toNat_ushiftRight, BitVec.toNat_shiftLeft, BitVec.toNat_shiftLeft,
      BitVec.toNat_setWidth, Nat.shiftLeft_eq, Nat.shiftLeft_eq, Nat.shiftRight_eq_div_pow]
    omega
  have hlookup : S_BOX[((K.setWidth 128 <<< 29) >>> 76).toNat]? = none := by
    rw [List.getElem?_eq_none_iff, BitVec.toNat_ushiftRight, BitVec.toNat_shiftLeft,
      BitVec.toNat_setWidth, Nat.shiftLeft_eq, Nat.shiftRight_eq_div_pow]
    change 16 ≤ _
    omega
  simp only [update_key_80, hrotate, hlookup]
  rfl

theorem first_round_key_pad :
    ((K.setWidth 128 <<< 48) >>> 16).setWidth 64 = K.extractLsb' 16 64 ↔
      ∃ m < 2 ^ 16, K.toNat = m * (2 ^ 48 + 1) := by
  have hlt := K.isLt
  rw [← BitVec.toNat_inj, BitVec.toNat_setWidth, BitVec.toNat_ushiftRight, BitVec.toNat_shiftLeft,
    BitVec.toNat_setWidth, BitVec.extractLsb'_toNat, Nat.shiftLeft_eq, Nat.shiftRight_eq_div_pow,
    Nat.shiftRight_eq_div_pow, Nat.mod_eq_of_lt (hlt.trans (by omega)),
    Nat.mod_eq_of_lt (by omega : K.toNat * 2 ^ 48 < 2 ^ 128),
    show K.toNat * 2 ^ 48 / 2 ^ 16 = K.toNat * 2 ^ 32 by omega]
  constructor
  · intro h
    exact ⟨K.toNat % 2 ^ 16, Nat.mod_lt _ (by omega), by omega⟩
  · rintro ⟨m, hm, hK⟩
    have hspec : K.toNat / 2 ^ 16 = m * 2 ^ 32 := by omega
    have hcode : K.toNat * 2 ^ 32 = m * 2 ^ 32 + 2 ^ 64 * (m * 2 ^ 16) := by omega
    rw [hspec, hcode, Nat.add_mul_mod_self_left]

/-- After the first update the registers differ for every key that passed so far, except zero. -/
theorem second_round_key_pad (m : Fin 8) (hm : m ≠ 0) :
    (update_key_80 (BitVec.ofNat 128 (m * (2 ^ 48 + 1)) <<< 48) 1).map
        (fun key : BitVec 128 => (key >>> 16).setWidth 64) ≠
      some ((update80 (BitVec.ofNat 80 (m * (2 ^ 48 + 1))) 1).extractLsb' 16 64) := by
  revert m
  decide +kernel

theorem update_key_80_pad_isSome (m : Fin 8) :
    (update_key_80 (BitVec.ofNat 128 (m * (2 ^ 48 + 1)) <<< 48) 1).isSome := by
  revert m
  decide +kernel

/-- The keys whose padded register gives the round keys of the standard. -/
def PaddedAgrees (K : BitVec 80) (rounds : ℕ) : Prop :=
  K = 0 ∧ rounds ≤ 32 ∨ rounds = 1 ∧ ∃ m < 8, K.toNat = m * (2 ^ 48 + 1)

theorem generate_round_keys_80_zero {rounds : ℕ} (hrounds : rounds ≤ 32) :
    roundKeysLoop update_key_80 16 1 rounds ((0 : BitVec 80).setWidth 128) =
      some (roundKeys80 0 rounds) :=
  roundKeysLoop_eq 15 (by omega) (by omega) (by omega) update_key_80_eq (by omega) 0

theorem generate_round_keys_80_zero_ne {rounds : ℕ} (hrounds : 32 < rounds) :
    roundKeysLoop update_key_80 16 1 rounds ((0 : BitVec 80).setWidth 128) ≠
      some (roundKeys80 0 rounds) :=
  roundKeysLoop_ne 15 (by omega) (by omega) (by omega) update_key_80_eq (by omega)
    (by omega) (by omega) (by omega) 0

theorem roundKeysLoop_pad_iff {rounds : ℕ} (hpos : 1 ≤ rounds) :
    roundKeysLoop update_key_80 16 1 rounds (K.setWidth 128 <<< 48) =
      some (roundKeys80 K rounds) ↔ PaddedAgrees K rounds := by
  obtain ⟨rounds, rfl⟩ : ∃ n, rounds = n + 1 := ⟨rounds - 1, by omega⟩
  have hpad {m : ℕ} (hm : K.toNat = m * (2 ^ 48 + 1)) :
      K.setWidth 128 = BitVec.ofNat 128 (m * (2 ^ 48 + 1)) := by
    rw [← hm]
    exact (BitVec.ofNat_toNat 128 K).symm
  constructor
  · intro heq
    obtain ⟨next, rest, hnext, hrest, hkeys⟩ := roundKeysLoop_succ heq
    obtain ⟨hfirst, rfl⟩ := List.cons.inj hkeys
    obtain ⟨m, -, hm⟩ := first_round_key_pad.1 hfirst.symm
    have hlt : ¬2 ^ 51 ≤ K.toNat := by
      intro hge
      rw [update_key_80_pad 1 hge] at hnext
      exact nomatch hnext
    have hm8 : m < 8 := by omega
    obtain rfl | hrounds := Nat.eq_zero_or_pos rounds
    · exact .inr ⟨rfl, m, hm8, hm⟩
    · obtain ⟨rounds, rfl⟩ : ∃ n, rounds = n + 1 := ⟨rounds - 1, by omega⟩
      obtain ⟨_, _, _, _, hkeys⟩ := roundKeysLoop_succ hrest
      have hsecond := (List.cons.inj hkeys).1
      obtain rfl : m = 0 := by
        by_contra hne
        refine second_round_key_pad ⟨m, hm8⟩ (fun h => hne (congrArg Fin.val h)) ?_
        rw [hpad hm] at hnext
        have hK : K = BitVec.ofNat 80 (m * (2 ^ 48 + 1)) := by
          rw [← hm, BitVec.ofNat_toNat, BitVec.setWidth_eq]
        rw [hK] at hsecond
        rw [hnext]
        exact congrArg some hsecond.symm
      obtain rfl : K = 0 := BitVec.eq_of_toNat_eq (by simpa using hm)
      refine .inl ⟨rfl, ?_⟩
      by_contra hgt
      exact generate_round_keys_80_zero_ne (by omega) heq
  · rintro (⟨rfl, hrounds⟩ | ⟨hone, m, hm8, hm⟩)
    · exact generate_round_keys_80_zero hrounds
    · obtain rfl : rounds = 0 := by omega
      obtain ⟨next, hnext⟩ := Option.isSome_iff_exists.1 (update_key_80_pad_isSome ⟨m, hm8⟩)
      have hfirst := first_round_key_pad.2 ⟨m, by omega, hm⟩
      rw [roundKeysLoop, hpad hm, hnext, ← hpad hm, hfirst]
      rfl

/-! ### The constructor -/

/-- The round keys of the standard for the key whose bytes come from the lowest on. -/
def standardRoundKeys (key : List (BitVec 8)) (rounds : ℕ) : List (BitVec 64) :=
  if key.length = 10 then roundKeys80 (from_le_bytes 80 key) rounds
  else roundKeys128 (from_le_bytes 128 key) rounds

/-- The constructor returns a cipher that undoes itself both ways and has the round keys of
the standard. -/
def MeetsStandard (key : List (BitVec 8)) (rounds : ℕ) : Prop :=
  ∃ cipher, try_new_rounds key rounds = some (.ok cipher) ∧
    (∀ block, (cipher.encrypt_block block >>= cipher.decrypt_block) = some block) ∧
    (∀ block, (cipher.decrypt_block block >>= cipher.encrypt_block) = some block) ∧
    cipher.round_keys = standardRoundKeys key rounds

theorem meetsStandard_iff_of_keys {key : List (BitVec 8)} {rounds : ℕ}
    {round_keys : Option (List (BitVec 64))} (hpos : 1 ≤ rounds)
    (htry : try_new_rounds key rounds = round_keys.map fun round_keys => .ok ⟨round_keys⟩) :
    MeetsStandard key rounds ↔ round_keys = some (standardRoundKeys key rounds) := by
  constructor
  · rintro ⟨cipher, hcipher, -, -, hkeys⟩
    rw [htry, Option.map_eq_some_iff] at hcipher
    obtain ⟨keys, rfl, hok⟩ := hcipher
    cases hok
    exact congrArg some hkeys
  · rintro rfl
    have hne : standardRoundKeys key rounds ≠ [] := by
      obtain ⟨n, rfl⟩ : ∃ n, rounds = n + 1 := ⟨rounds - 1, by omega⟩
      unfold standardRoundKeys
      split_ifs <;> exact List.cons_ne_nil _ _
    exact ⟨⟨standardRoundKeys key rounds⟩, htry, decrypt_block_encrypt_block hne,
      encrypt_block_decrypt_block hne, rfl⟩

/-- For an accepted number of rounds, a 128-bit key is right up to 32 round keys. An 80-bit
key is right when its padded register agrees. -/
theorem present_meets_standard_iff (key : List (BitVec 8)) (rounds : ℕ)
    (hlen : key.length = 10 ∨ key.length = 16) (hrounds : 1 ≤ rounds ∧ rounds ≤ 254) :
    MeetsStandard key rounds ↔
      key.length = 16 ∧ rounds ≤ 32 ∨
      key.length = 10 ∧ PaddedAgrees (from_le_bytes 80 key) rounds := by
  obtain h10 | h16 := hlen
  · have htry : try_new_rounds key rounds =
        (generate_round_keys_80 key rounds).map fun round_keys => .ok ⟨round_keys⟩ := by
      rw [try_new_rounds, if_pos hrounds, h10]
      rfl
    rw [meetsStandard_iff_of_keys hrounds.1 htry, generate_round_keys_80, from_le_bytes_pad,
      generate_round_keys_eq, standardRoundKeys, if_pos h10, roundKeysLoop_pad_iff hrounds.1]
    simp [h10]
  · have htry : try_new_rounds key rounds =
        (generate_round_keys_128 key rounds).map fun round_keys => .ok ⟨round_keys⟩ := by
      rw [try_new_rounds, if_pos hrounds, h16]
      rfl
    rw [meetsStandard_iff_of_keys hrounds.1 htry, standardRoundKeys, if_neg (by omega)]
    have hiff : generate_round_keys_128 key rounds =
        some (roundKeys128 (from_le_bytes 128 key) rounds) ↔ rounds ≤ 32 := by
      refine ⟨fun heq => ?_, generate_round_keys_128_eq key⟩
      by_contra hgt
      exact generate_round_keys_128_ne key (by omega) heq
    rw [hiff]
    simp [h16]

theorem present_meets_standard_iff_zero_key :
    MeetsStandard (List.replicate 10 0) 32 :=
  (present_meets_standard_iff (List.replicate 10 0) 32 (.inl rfl) ⟨by omega, by omega⟩).2
    (.inr ⟨rfl, .inl ⟨by decide, by omega⟩⟩)

/-- The key `2 ^ 51` panics, and the key `1` gets other round keys. -/
theorem present_80_panics :
    try_new_rounds [0, 0, 0, 0, 0, 0, 8, 0, 0, 0] 32 = none ∧
      generate_round_keys_80 [1, 0, 0, 0, 0, 0, 0, 0, 0, 0] 1 ≠
        some (roundKeys80 (from_le_bytes 80 [1, 0, 0, 0, 0, 0, 0, 0, 0, 0]) 1) := by
  decide +kernel

end Present

end SecureBoot
