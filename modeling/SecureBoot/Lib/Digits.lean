import Mathlib.Data.Nat.Bitwise
import Mathlib.Data.Nat.Digits.Lemmas
import Mathlib.Data.Nat.Size

/-! Decimal numerals in ASCII: their value, which a reader accumulates digit by digit, in a
machine word modulo its size, and the numeral that is written for a number. -/

namespace Decimal

def isDigit (c : BitVec 8) : Bool := !decide (c < 0x30 ∨ 0x39 < c)

/-- The value of a numeral whose leading digits have the value `v`. -/
def valueFrom (v : ℕ) (digits : List (BitVec 8)) : ℕ :=
  digits.foldl (fun v c => v * 10 + (c.toNat - 0x30)) v

def value (digits : List (BitVec 8)) : ℕ := valueFrom 0 digits

theorem isDigit_iff (c : BitVec 8) : isDigit c = true ↔ ¬(c < 0x30 ∨ 0x39 < c) := by
  rw [isDigit, Bool.not_eq_true', decide_eq_false_iff_not]

theorem isDigit_iff_le (c : BitVec 8) : isDigit c = true ↔ 0x30 ≤ c ∧ c ≤ 0x39 := by
  rw [isDigit_iff, not_or, BitVec.not_lt, BitVec.not_lt]

theorem isDigit_zero : isDigit 0 = false := by decide

theorem ne_zero_of_isDigit {c : BitVec 8} (h : isDigit c = true) : c ≠ 0 := by
  rintro rfl
  exact Bool.false_ne_true h

/-- A digit as a word. -/
theorem setWidth_digit {w : ℕ} {c : BitVec 8} (h : isDigit c = true) :
    (c - 0x30).setWidth w = BitVec.ofNat w (c.toNat - 0x30) := by
  apply BitVec.eq_of_toNat_eq
  rw [BitVec.toNat_setWidth, BitVec.toNat_sub_of_le ((isDigit_iff_le c).1 h).1, BitVec.toNat_ofNat]
  rfl

theorem valueFrom_append (v : ℕ) (ds es : List (BitVec 8)) :
    valueFrom v (ds ++ es) = valueFrom (valueFrom v ds) es := List.foldl_append

/-- A digit read into a word: the value is kept modulo the size of the word. -/
theorem word_digit {w : ℕ} {c : BitVec 8} (h : isDigit c = true) (v : ℕ) :
    BitVec.ofNat w v * 10 + (c - 0x30).setWidth w =
      BitVec.ofNat w (valueFrom v [c]) := by
  rw [setWidth_digit h, valueFrom, List.foldl_cons, List.foldl_nil, BitVec.ofNat_add,
    BitVec.ofNat_mul]
  rfl

/-! ### Writing numbers -/

def digitChar (d : ℕ) : BitVec 8 := 0x30 + .ofNat 8 d

/-- The numeral of a number, without leading zeros. -/
def ofNat (n : ℕ) : List (BitVec 8) :=
  if n = 0 then [digitChar 0] else ((Nat.digits 10 n).map digitChar).reverse

theorem toNat_digitChar {d : ℕ} (h : d < 10) : (digitChar d).toNat = 0x30 + d := by
  rw [digitChar, BitVec.toNat_add, BitVec.toNat_ofNat, show (0x30 : BitVec 8).toNat = 0x30 from rfl]
  omega

theorem isDigit_digitChar {d : ℕ} (h : d < 10) : isDigit (digitChar d) = true := by
  rw [isDigit_iff_le, BitVec.le_def, BitVec.le_def, toNat_digitChar h]
  change 0x30 ≤ 0x30 + d ∧ 0x30 + d ≤ 0x39
  omega

theorem ofNat_ne_nil (n : ℕ) : ofNat n ≠ [] := by
  unfold ofNat
  split_ifs with h
  · exact List.cons_ne_nil _ _
  · simpa [Nat.digits_ne_nil_iff_ne_zero] using h

theorem isDigit_of_mem_ofNat {n : ℕ} {c : BitVec 8} (h : c ∈ ofNat n) : isDigit c = true := by
  unfold ofNat at h
  split_ifs at h
  · rw [List.mem_singleton.1 h]
    exact isDigit_digitChar (by decide)
  · obtain ⟨d, hd, rfl⟩ := List.mem_map.1 (List.mem_reverse.1 h)
    exact isDigit_digitChar (Nat.digits_lt_base (by decide) hd)

/-- The last digit of a number and the numeral of the others. -/
theorem ofNat_eq_append {n : ℕ} (h : 10 ≤ n) : ofNat n = ofNat (n / 10) ++ [digitChar (n % 10)] := by
  rw [ofNat, if_neg (by omega), ofNat, if_neg (by omega), Nat.digits_def' (by decide) (by omega),
    List.map_cons, List.reverse_cons]

theorem ofNat_of_lt {n : ℕ} (h : n < 10) : ofNat n = [digitChar n] := by
  unfold ofNat
  split_ifs with hzero
  · rw [hzero]
  · rw [Nat.digits_of_lt 10 n hzero h]
    rfl

theorem value_ofNat (n : ℕ) : value (ofNat n) = n := by
  induction n using Nat.strongRecOn with
  | ind n ih =>
    rcases Nat.lt_or_ge n 10 with h | h
    · rw [ofNat_of_lt h, value, valueFrom, List.foldl_cons, List.foldl_nil, toNat_digitChar h]
      omega
    · rw [ofNat_eq_append h, value, valueFrom_append, ← value, ih (n / 10) (by omega), valueFrom,
        List.foldl_cons, List.foldl_nil, toNat_digitChar (Nat.mod_lt n (by decide))]
      omega

end Decimal

/-! Unsigned integers of any size and their bytes, the least significant one first. Bytes filled up
with zeros to a length and the integers below a bound are in one-to-one correspondence. -/

namespace BigUint

abbrev Octet := BitVec 8

/-- `BigUint::from_bytes_le`. -/
def fromBytesLe (bytes : List Octet) : ℕ := Nat.ofDigits 256 (bytes.map BitVec.toNat)

/-- `to_bytes_le`, which has a byte for zero as well. -/
def toBytesLe (n : ℕ) : List Octet :=
  if n = 0 then [0] else (Nat.digits 256 n).map (BitVec.ofNat 8)

/-- `v.resize(n, a)`. -/
def resize {α : Type} (v : List α) (n : ℕ) (a : α) : List α :=
  v.take n ++ List.replicate (n - v.length) a

variable {bytes bytes' : List Octet} {n k : ℕ}

theorem length_resize {α : Type} (v : List α) (n : ℕ) (a : α) : (resize v n a).length = n := by
  simp only [resize, List.length_append, List.length_take, List.length_replicate]
  omega

theorem digits_of_octets : ∀ d ∈ bytes.map BitVec.toNat, d < 256 := by
  intro d hd
  obtain ⟨b, -, rfl⟩ := List.mem_map.1 hd
  exact b.isLt

theorem fromBytesLe_lt (bytes : List Octet) : fromBytesLe bytes < 256 ^ bytes.length := by
  rw [← List.length_map]
  exact Nat.ofDigits_lt_base_pow_length (by decide) digits_of_octets

theorem fromBytesLe_concat (bytes : List Octet) (b : Octet) :
    fromBytesLe (bytes ++ [b]) = fromBytesLe bytes + 256 ^ bytes.length * b.toNat := by
  rw [fromBytesLe, List.map_append, Nat.ofDigits_append, List.length_map]
  simp [fromBytesLe]

/-- A byte of a little-endian word. -/
theorem byte_fromBytesLe (bytes : List Octet) (j : ℕ) :
    BitVec.ofNat 8 (fromBytesLe bytes >>> (8 * j)) = bytes.getD j 0 := by
  induction bytes generalizing j with
  | nil => simp [fromBytesLe]
  | cons b bytes ih =>
    have hcons : fromBytesLe (b :: bytes) = b.toNat + 256 * fromBytesLe bytes := by
      rw [fromBytesLe, List.map_cons, Nat.ofDigits_cons]
      rfl
    have hb := b.isLt
    cases j with
    | zero =>
      apply BitVec.eq_of_toNat_eq
      rw [hcons, Nat.mul_zero, Nat.shiftRight_zero, BitVec.toNat_ofNat, List.getD_cons_zero]
      omega
    | succ j =>
      have hdiv : (b.toNat + 256 * fromBytesLe bytes) / 256 = fromBytesLe bytes := by omega
      rw [List.getD_cons_succ, ← ih, hcons, Nat.mul_succ, Nat.add_comm (8 * j), Nat.shiftRight_add,
        Nat.shiftRight_eq_div_pow _ 8, show 2 ^ 8 = 256 from rfl, hdiv]

/-- A byte or'ed in above the bytes so far. -/
theorem fromBytesLe_or (bytes : List Octet) (b : Octet) :
    fromBytesLe bytes ||| b.toNat <<< (8 * bytes.length) = fromBytesLe (bytes ++ [b]) := by
  have hlt : fromBytesLe bytes < 2 ^ (8 * bytes.length) := by
    rw [Nat.pow_mul]
    exact fromBytesLe_lt bytes
  rw [fromBytesLe_concat, Nat.shiftLeft_eq, Nat.mul_comm b.toNat, Nat.or_comm,
    ← Nat.two_pow_add_eq_or_of_lt hlt, Nat.pow_mul, Nat.add_comm]

theorem fromBytesLe_inj (hlength : bytes.length = bytes'.length)
    (h : fromBytesLe bytes = fromBytesLe bytes') : bytes = bytes' := by
  have hmap : bytes.map BitVec.toNat = bytes'.map BitVec.toNat := by
    apply Nat.ofDigits_inj_of_len_eq (by decide : 1 < 256) _ digits_of_octets digits_of_octets h
    rw [List.length_map, List.length_map, hlength]
  exact List.map_injective_iff.2 (fun _ _ => BitVec.eq_of_toNat_eq) hmap

theorem fromBytesLe_toBytesLe (n : ℕ) : fromBytesLe (toBytesLe n) = n := by
  unfold fromBytesLe toBytesLe
  split_ifs with hn
  · rw [hn]
    rfl
  · have hdigits : (Nat.digits 256 n).map (BitVec.toNat ∘ BitVec.ofNat 8) = Nat.digits 256 n := by
      refine (List.map_congr_left fun d hd => ?_).trans (List.map_id _)
      exact Nat.mod_eq_of_lt (Nat.digits_lt_base (by decide) hd)
    rw [List.map_map, hdigits, Nat.ofDigits_digits]

theorem length_toBytesLe_le (h : n < 256 ^ k) (hk : 0 < k) : (toBytesLe n).length ≤ k := by
  unfold toBytesLe
  split_ifs
  · exact hk
  · rw [List.length_map]
    exact (Nat.digits_length_le_iff (by decide) n).2 h

theorem fromBytesLe_resize (h : bytes.length ≤ k) :
    fromBytesLe (resize bytes k 0) = fromBytesLe bytes := by
  rw [fromBytesLe, resize, List.take_of_length_le h, List.map_append, List.map_replicate]
  exact Nat.ofDigits_append_replicate_zero _

/-- An integer to bytes and back. -/
theorem fromBytesLe_resize_toBytesLe (h : n < 256 ^ k) (hk : 0 < k) :
    fromBytesLe (resize (toBytesLe n) k 0) = n := by
  rw [fromBytesLe_resize (length_toBytesLe_le h hk), fromBytesLe_toBytesLe]

end BigUint
