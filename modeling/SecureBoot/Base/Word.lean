import Mathlib.Data.Fin.VecNotation
import Mathlib.Data.Nat.Digits.Lemmas
import Mathlib.Data.Nat.Prime.Basic
import Mathlib.Tactic.FinCases

/-! Machine words of the boot code: `uint32_t` and `uint8_t`, the hardened and
multi-bit booleans, and the bitfield helpers. `launder32` and `barrier32` are
identities for the compiler's eyes only and do not appear; a `HARDENED_CHECK`
that repeats the test of the branch it stands in is not repeated here. -/

namespace SecureBoot

abbrev Byte := BitVec 8

abbrev Word := BitVec 32

instance : LawfulBEq Word := inferInstance

/-- `UINT32_MAX`. -/
abbrev wordMax : Word := 0xffffffff

/-! ### Hardened and multi-bit booleans -/

abbrev kHardenedBoolTrue : Word := 0x739

abbrev kHardenedBoolFalse : Word := 0x1d4

abbrev kHardenedByteBoolTrue : Word := 0xa5

abbrev kHardenedByteBoolFalse : Word := 0x4b

abbrev kMultiBitBool4True : Word := 0x6

abbrev kMultiBitBool4False : Word := 0x9

/-! ### Bitfields -/

/-- `bitfield_field32_t`: the mask is unshifted. -/
structure BitfieldField32 where
  mask : Word
  index : ℕ

def bitfieldField32Read (bitfield : Word) (field : BitfieldField32) : Word :=
  (bitfield >>> field.index) &&& field.mask

def bitfieldField32Write (bitfield : Word) (field : BitfieldField32) (value : Word) : Word :=
  (bitfield &&& ~~~(field.mask <<< field.index)) ||| ((value &&& field.mask) <<< field.index)

/-- Whether a field covers a bit. -/
def BitfieldField32.covers (field : BitfieldField32) (i : ℕ) : Bool :=
  decide (field.index ≤ i) && field.mask.getLsbD (i - field.index)

theorem getLsbD_bitfieldField32Write (b : Word) (field : BitfieldField32) (v : Word) {i : ℕ}
    (hi : i < 32) : (bitfieldField32Write b field v).getLsbD i =
      if field.covers i then v.getLsbD (i - field.index) else b.getLsbD i := by
  simp only [bitfieldField32Write, BitVec.getLsbD_or, BitVec.getLsbD_and,
    BitVec.getLsbD_not, BitVec.getLsbD_shiftLeft, hi, decide_true, Bool.true_and]
  by_cases hle : field.index ≤ i
  · have hcovers : field.covers i = field.mask.getLsbD (i - field.index) := by
      simp [BitfieldField32.covers, hle]
    have hlt : ¬ i < field.index := by omega
    simp only [hcovers, hlt, decide_false, Bool.not_false, Bool.true_and]
    cases field.mask.getLsbD (i - field.index) <;> simp
  · have hcovers : field.covers i = false := by simp [BitfieldField32.covers, hle]
    have hlt : i < field.index := by omega
    simp [hcovers, hlt]

theorem getLsbD_bitfieldField32Read (b : Word) (field : BitfieldField32) (i : ℕ) :
    (bitfieldField32Read b field).getLsbD i =
      (b.getLsbD (field.index + i) && field.covers (field.index + i)) := by
  simp [bitfieldField32Read, BitfieldField32.covers]

/-- A write of one field leaves a disjoint field alone. -/
theorem bitfieldField32Read_write_of_disjoint (b v : Word) {f g : BitfieldField32}
    (h : ∀ i < 32, ¬ (f.covers i ∧ g.covers i)) :
    bitfieldField32Read (bitfieldField32Write b f v) g = bitfieldField32Read b g := by
  refine BitVec.eq_of_getLsbD_eq fun i _ => ?_
  rw [getLsbD_bitfieldField32Read, getLsbD_bitfieldField32Read]
  by_cases hi : g.index + i < 32
  · rw [getLsbD_bitfieldField32Write _ _ _ hi]
    cases hg : g.covers (g.index + i) with
    | false => simp
    | true =>
      have hf : f.covers (g.index + i) = false := by
        have := h _ hi
        simp_all
      simp [hf]
  · rw [BitVec.getLsbD_of_ge _ _ (by omega), BitVec.getLsbD_of_ge _ _ (by omega)]

/-- A field reads back what was written to it, if it fits into the word. -/
theorem bitfieldField32Read_write_self (b v : Word) {f : BitfieldField32}
    (h : ∀ i < 32, f.mask.getLsbD i → f.index + i < 32) :
    bitfieldField32Read (bitfieldField32Write b f v) f = v &&& f.mask := by
  refine BitVec.eq_of_getLsbD_eq fun i hi => ?_
  have hcovers : f.covers (f.index + i) = f.mask.getLsbD i := by simp [BitfieldField32.covers]
  rw [getLsbD_bitfieldField32Read, BitVec.getLsbD_and, hcovers]
  cases hm : f.mask.getLsbD i with
  | false => simp
  | true => rw [getLsbD_bitfieldField32Write _ _ _ (h i hi hm), hcovers, hm, if_pos rfl,
      Nat.add_sub_cancel_left]

def bitfieldBit32ToField32 (bitIndex : ℕ) : BitfieldField32 := ⟨0x1, bitIndex⟩

def bitfieldBit32Read (bitfield : Word) (bitIndex : ℕ) : Bool :=
  bitfieldField32Read bitfield (bitfieldBit32ToField32 bitIndex) == 0x1

theorem bitfieldBit32Read_eq_getLsbD (bitfield : Word) (bitIndex : ℕ) :
    bitfieldBit32Read bitfield bitIndex = bitfield.getLsbD bitIndex := by
  have h : (bitfield >>> bitIndex &&& 1#32) =
      (BitVec.ofBool (bitfield.getLsbD bitIndex)).setWidth 32 := by
    refine BitVec.eq_of_getLsbD_eq fun i hi => ?_
    simp only [BitVec.getLsbD_and, BitVec.getLsbD_ushiftRight, BitVec.getLsbD_one,
      BitVec.getLsbD_setWidth, BitVec.getLsbD_ofBool]
    by_cases h0 : i = 0
    · simp [h0]
    · simp [h0]
  change ((bitfield >>> bitIndex &&& 1#32) == 1#32) = _
  rw [h]
  cases bitfield.getLsbD bitIndex <;> rfl

def bitfieldBit32Write (bitfield : Word) (bitIndex : ℕ) (value : Bool) : Word :=
  bitfieldField32Write bitfield (bitfieldBit32ToField32 bitIndex) (if value then 0x1 else 0x0)

/-! ### Bytes of a word -/

/-- The bytes of a word in memory order, least significant first. -/
def Word.toBytes (w : Word) : List Byte :=
  [w.extractLsb' 0 8, w.extractLsb' 8 8, w.extractLsb' 16 8, w.extractLsb' 24 8]

/-- The little-endian load of four bytes. -/
def Word.ofBytes (b₀ b₁ b₂ b₃ : Byte) : Word := b₃ ++ b₂ ++ b₁ ++ b₀

def wordsToBytes (ws : List Word) : List Byte := ws.flatMap Word.toBytes

@[simp] theorem Word.length_toBytes (w : Word) : w.toBytes.length = 4 := rfl

theorem length_wordsToBytes (ws : List Word) : (wordsToBytes ws).length = 4 * ws.length := by
  induction ws with
  | nil => rfl
  | cons w ws ih =>
    simp only [wordsToBytes, List.flatMap_cons, List.length_append] at ih ⊢
    rw [ih, Word.length_toBytes, List.length_cons]
    omega

theorem wordsToBytes_append (us vs : List Word) :
    wordsToBytes (us ++ vs) = wordsToBytes us ++ wordsToBytes vs := List.flatMap_append

theorem wordsToBytes_replicate_wordMax (k : ℕ) :
    wordsToBytes (List.replicate k wordMax) = List.replicate (4 * k) 0xff := by
  induction k with
  | zero => rfl
  | succ k ih =>
    rw [wordsToBytes] at ih ⊢
    rw [List.replicate_succ, List.flatMap_cons, ih, Nat.mul_succ, Nat.add_comm,
      ← List.replicate_append_replicate]
    rfl

theorem Word.getLsbD_ofBytes (b₀ b₁ b₂ b₃ : Byte) (i : ℕ) :
    (Word.ofBytes b₀ b₁ b₂ b₃).getLsbD i =
      if i < 8 then b₀.getLsbD i else if i < 16 then b₁.getLsbD (i - 8)
      else if i < 24 then b₂.getLsbD (i - 16) else b₃.getLsbD (i - 24) := by
  simp only [Word.ofBytes, BitVec.getLsbD_append, Nat.sub_sub]
  split_ifs <;> first | rfl | omega

theorem Word.toBytes_ofBytes (b₀ b₁ b₂ b₃ : Byte) :
    (Word.ofBytes b₀ b₁ b₂ b₃).toBytes = [b₀, b₁, b₂, b₃] := by
  simp only [Word.toBytes, List.cons.injEq, and_true]
  refine ⟨?_, ?_, ?_, ?_⟩
  all_goals
    refine BitVec.eq_of_getLsbD_eq fun i hi => ?_
    simp only [BitVec.getLsbD_extractLsb', hi, decide_true, Bool.true_and, Word.getLsbD_ofBytes]
    split_ifs <;> first | omega | (congr 1; omega)

theorem Word.ofBytes_extract (w : Word) :
    Word.ofBytes (w.extractLsb' 0 8) (w.extractLsb' 8 8) (w.extractLsb' 16 8)
      (w.extractLsb' 24 8) = w := by
  refine BitVec.eq_of_getLsbD_eq fun i hi => ?_
  rw [Word.getLsbD_ofBytes]
  simp only [BitVec.getLsbD_extractLsb']
  split_ifs with h₀ h₁ h₂
  · simp [h₀]
  · rw [decide_eq_true (by omega), Bool.true_and, Nat.add_sub_cancel' (by omega)]
  · rw [decide_eq_true (by omega), Bool.true_and, Nat.add_sub_cancel' (by omega)]
  · rw [decide_eq_true (by omega), Bool.true_and, Nat.add_sub_cancel' (by omega)]

theorem Word.toBytes_injective : Function.Injective Word.toBytes := by
  intro v w h
  simp only [Word.toBytes, List.cons.injEq, and_true] at h
  obtain ⟨h₀, h₁, h₂, h₃⟩ := h
  rw [← Word.ofBytes_extract v, ← Word.ofBytes_extract w, h₀, h₁, h₂, h₃]

theorem wordsToBytes_inj {us vs : List Word} (hlen : us.length = vs.length) :
    wordsToBytes us = wordsToBytes vs ↔ us = vs := by
  constructor
  · intro h
    induction us generalizing vs with
    | nil => exact (List.eq_nil_of_length_eq_zero hlen.symm).symm
    | cons u us ih =>
      obtain _ | ⟨v, vs⟩ := vs
      · simp at hlen
      · simp only [wordsToBytes, List.flatMap_cons] at h
        obtain ⟨hu, hus⟩ := List.append_inj h rfl
        rw [Word.toBytes_injective hu, ih (by simpa using hlen) hus]
  · rintro rfl
    rfl

/-! ### Random indices -/

/-- An index that moves by `step` and wraps around the end of an array of `n` items. -/
theorem Word.toNat_wrapped_add {n i step : Word} (hi : i.toNat < n.toNat)
    (hstep : step.toNat ≤ n.toNat) (hfits : i.toNat + step.toNat < 2 ^ 32) :
    (if n ≤ i + step then i + step - n else i + step).toNat =
      (i.toNat + step.toNat) % n.toNat := by
  have hadd : (i + step).toNat = i.toNat + step.toNat := by
    rw [BitVec.toNat_add, Nat.mod_eq_of_lt hfits]
  by_cases hle : n ≤ i + step
  · rw [if_pos hle, BitVec.toNat_sub_of_le hle, hadd]
    rw [BitVec.le_def, hadd] at hle
    rw [Nat.mod_eq_sub_mod hle, Nat.mod_eq_of_lt (by omega)]
  · rw [if_neg hle, hadd]
    rw [BitVec.le_def, hadd] at hle
    rw [Nat.mod_eq_of_lt (by omega)]

/-- The upper word of a product, which scales a random word to an index below `n`. -/
theorem Word.toNat_mulHigh (rnd n : Word) :
    (((rnd.setWidth 64 * n.setWidth 64) >>> 32).setWidth 32 : Word).toNat =
      rnd.toNat * n.toNat / 2 ^ 32 := by
  have hmul : rnd.toNat * n.toNat < 2 ^ 64 :=
    lt_of_lt_of_eq (Nat.mul_lt_mul'' rnd.isLt n.isLt) (by norm_num)
  rw [BitVec.toNat_setWidth, BitVec.toNat_ushiftRight, BitVec.toNat_mul,
    BitVec.toNat_setWidth_of_le (by decide), BitVec.toNat_setWidth_of_le (by decide),
    Nat.mod_eq_of_lt hmul, Nat.shiftRight_eq_div_pow, Nat.mod_eq_of_lt]
  exact Nat.div_lt_of_lt_mul hmul

/-! ### Digests -/

abbrev kHmacDigestNumWords : ℕ := 8

/-- `hmac_digest_t`: a SHA-256 digest as a little-endian integer. -/
abbrev HmacDigest := Vector Word kHmacDigestNumWords

/-- The digest as the octet string of the standard, most significant byte first. -/
def HmacDigest.octets (digest : HmacDigest) : List Byte := (wordsToBytes digest.toList).reverse

end SecureBoot
