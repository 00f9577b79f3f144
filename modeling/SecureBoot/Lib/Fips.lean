import Mathlib.Data.List.Basic
import Mathlib.Data.Nat.Digits.Defs
import Mathlib.Data.Nat.NthRoot.Defs
import SecureBoot.Lib.Bits

/-! Messages of whole bytes as FIPS 180-4 pads them for SHA-256, their words, and the hash. -/

namespace Fips180

/-! ### Padding -/

/-- The zero bytes between the byte `0x80` and the length of a message of `n` bytes. -/
def zeroBytes (n : ℕ) : ℕ := (119 - n % 64) % 64

/-- The zero bits behind the one bit are the smallest solution of `l + 1 + k ≡ 448 mod 512`. -/
theorem zeroBytes_isLeast (n : ℕ) :
    IsLeast {k | (8 * n + 1 + k) % 512 = 448} (7 + 8 * zeroBytes n) := by
  constructor
  · simp only [Set.mem_ofPred_eq, zeroBytes]
    omega
  · intro k hk
    simp only [Set.mem_ofPred_eq, zeroBytes] at hk ⊢
    omega

/-- The bit length of `n` bytes in 64 bits, most significant byte first. -/
def lengthBytes (n : ℕ) : List (BitVec 8) :=
  [56, 48, 40, 32, 24, 16, 8, 0].map fun i => (BitVec.ofNat 64 (8 * n)).extractLsb' i 8

def pad (message : List (BitVec 8)) : List (BitVec 8) :=
  message ++
    0x80#8 :: (List.replicate (zeroBytes message.length) 0#8 ++ lengthBytes message.length)

/-! ### Words -/

/-- The big-endian words of a list of bytes. -/
def words : List (BitVec 8) → List (BitVec 32)
  | b₀ :: b₁ :: b₂ :: b₃ :: bytes => (b₀ ++ b₁ ++ b₂ ++ b₃) :: words bytes
  | _ => []

theorem length_words (bytes : List (BitVec 8)) : (words bytes).length = bytes.length / 4 := by
  induction bytes using words.induct with
  | case1 b₀ b₁ b₂ b₃ bytes ih =>
    simp only [words, List.length_cons, ih]
    omega
  | case2 bytes h =>
    match bytes, h with
    | [], _ => simp [words]
    | [_], _ => simp [words]
    | [_, _], _ => simp [words]
    | [_, _, _], _ => simp [words]
    | b₀ :: b₁ :: b₂ :: b₃ :: bytes, h => exact absurd rfl (h b₀ b₁ b₂ b₃ bytes)

/-- A padded message is a number of blocks of sixteen words. -/
theorem length_words_pad (message : List (BitVec 8)) : (words (pad message)).length % 16 = 0 := by
  rw [length_words, pad, List.length_append, List.length_cons, List.length_append,
    List.length_replicate, lengthBytes, List.length_map]
  simp only [List.length_cons, List.length_nil, zeroBytes]
  omega

theorem words_zeros (z : ℕ) (bytes : List (BitVec 8)) :
    words (List.replicate (4 * z) 0#8 ++ bytes) = List.replicate z 0#32 ++ words bytes := by
  induction z with
  | zero => rfl
  | succ z ih =>
    rw [show 4 * (z + 1) = 4 * z + 1 + 1 + 1 + 1 by omega]
    simp only [List.replicate_succ, List.cons_append, words, ih]
    rfl

theorem append_extractLsb' (x : BitVec 64) (k : ℕ) :
    x.extractLsb' (k + 24) 8 ++ x.extractLsb' (k + 16) 8 ++ x.extractLsb' (k + 8) 8 ++
      x.extractLsb' k 8 = x.extractLsb' k 32 := by
  apply BitVec.eq_of_getLsbD_eq
  intro i hi
  simp only [BitVec.getLsbD_append, BitVec.getLsbD_extractLsb', hi, decide_true, Bool.true_and,
    Nat.sub_sub]
  split_ifs with h₀ h₁ h₂
  · simp [h₀]
  · rw [decide_eq_true h₁, Bool.true_and]
    congr 1
    omega
  · rw [decide_eq_true h₂, Bool.true_and]
    congr 1
    omega
  · rw [decide_eq_true (by omega), Bool.true_and]
    congr 1
    omega

theorem words_lengthBytes (n : ℕ) :
    words (lengthBytes n) =
      [(BitVec.ofNat 64 (8 * n)).extractLsb' 32 32,
        (BitVec.ofNat 64 (8 * n)).extractLsb' 0 32] := by
  rw [← append_extractLsb', ← append_extractLsb']
  simp [lengthBytes, words]

/-! ### SHA-256 -/

/-- The first 64 primes. -/
def primes : List ℕ :=
  [2, 3, 5, 7, 11, 13, 17, 19, 23, 29, 31, 37, 41, 43, 47, 53, 59, 61, 67, 71, 73, 79, 83, 89, 97,
   101, 103, 107, 109, 113, 127, 131, 137, 139, 149, 151, 157, 163, 167, 173, 179, 181, 191, 193,
   197, 199, 211, 223, 227, 229, 233, 239, 241, 251, 257, 263, 269, 271, 277, 281, 283, 293, 307,
   311]

/-- The first 32 bits of the fractional parts of the roots of the primes. -/
def rootFractions (degree : ℕ) : List (BitVec 32) :=
  primes.map fun p => BitVec.ofNat 32 (Nat.nthRoot degree (p * 2 ^ (32 * degree)))

/-- `H⁽⁰⁾`. -/
def initialHash : Vector (BitVec 32) 8 := Vector.ofFn fun i => (rootFractions 2).getD i 0

/-- `K_t`. -/
def roundConstant (t : ℕ) : BitVec 32 := (rootFractions 3).getD t 0

def ch (x y z : BitVec 32) : BitVec 32 := (x &&& y) ^^^ (~~~x &&& z)

def maj (x y z : BitVec 32) : BitVec 32 := (x &&& y) ^^^ (x &&& z) ^^^ (y &&& z)

def bigSigma0 (x : BitVec 32) : BitVec 32 :=
  x.rotateRight 2 ^^^ x.rotateRight 13 ^^^ x.rotateRight 22

def bigSigma1 (x : BitVec 32) : BitVec 32 :=
  x.rotateRight 6 ^^^ x.rotateRight 11 ^^^ x.rotateRight 25

def smallSigma0 (x : BitVec 32) : BitVec 32 :=
  x.rotateRight 7 ^^^ x.rotateRight 18 ^^^ x >>> 3

def smallSigma1 (x : BitVec 32) : BitVec 32 :=
  x.rotateRight 17 ^^^ x.rotateRight 19 ^^^ x >>> 10

/-- `W_t` of a block. -/
def schedule (M : ℕ → BitVec 32) (t : ℕ) : BitVec 32 :=
  if t < 16 then M t
  else
    smallSigma1 (schedule M (t - 2)) + schedule M (t - 7) + smallSigma0 (schedule M (t - 15)) +
      schedule M (t - 16)
termination_by t

theorem schedule_of_lt (M : ℕ → BitVec 32) {t : ℕ} (ht : t < 16) : schedule M t = M t := by
  rw [schedule, if_pos ht]

theorem schedule_add (M : ℕ → BitVec 32) (t : ℕ) : schedule M (t + 16) =
    smallSigma1 (schedule M (t + 14)) + schedule M (t + 9) + smallSigma0 (schedule M (t + 1)) +
      schedule M t := by
  rw [schedule, if_neg (by omega)]
  rfl

scoped instance neZero_eight : NeZero 8 := ⟨by decide⟩

/-- A round on the working variables `a` to `h`. -/
def hashRound (K W : BitVec 32) (v : Vector (BitVec 32) 8) : Vector (BitVec 32) 8 :=
  let T₁ := v.get 7 + bigSigma1 (v.get 4) + ch (v.get 4) (v.get 5) (v.get 6) + K + W
  let T₂ := bigSigma0 (v.get 0) + maj (v.get 0) (v.get 1) (v.get 2)
  #v[T₁ + T₂, v.get 0, v.get 1, v.get 2, v.get 3 + T₁, v.get 4, v.get 5, v.get 6]

/-- The working variables of a block after `t` rounds. -/
def rounds (M : ℕ → BitVec 32) (H : Vector (BitVec 32) 8) : ℕ → Vector (BitVec 32) 8
  | 0 => H
  | t + 1 => hashRound (roundConstant t) (schedule M t) (rounds M H t)

/-- The words of the block `b` of a padded message. -/
def block (M : ℕ → BitVec 32) (b : ℕ) : ℕ → BitVec 32 := fun t => M (16 * b + t)

/-- `H⁽ᵇ⁾`. -/
def hashValue (M : ℕ → BitVec 32) : ℕ → Vector (BitVec 32) 8
  | 0 => initialHash
  | b + 1 => (hashValue M b).zipWith (· + ·) (rounds (block M b) (hashValue M b) 64)

def messageWords (message : List (BitVec 8)) (t : ℕ) : BitVec 32 := (words (pad message)).getD t 0

def sha256 (message : List (BitVec 8)) : Vector (BitVec 32) 8 :=
  hashValue (messageWords message) ((words (pad message)).length / 16)

end Fips180

/-! Padding as FIPS 202 and SP 800-185 define it, on strings of bits and bytes. -/

namespace Fips202

/-- The bits of a word, the least significant one first. -/
def bits {w : ℕ} (x : BitVec w) : List Bool := (List.range w).map x.getLsbD

def bitsOfBytes (bytes : List (BitVec 8)) : List Bool := bytes.flatMap bits

/-- `pad10*1(x, m)`. -/
def pad101 (x m : ℕ) : List Bool :=
  true :: List.replicate ((-(m : ℤ) - 2) % x).toNat false ++ [true]

/-- `left_encode(x)`. -/
def leftEncode (x : ℕ) : List (BitVec 8) :=
  let digits := if x = 0 then [0] else Nat.digits 256 x
  (digits.length :: digits.reverse).map (BitVec.ofNat 8)

/-- `right_encode(x)`. -/
def rightEncode (x : ℕ) : List (BitVec 8) :=
  let digits := if x = 0 then [0] else Nat.digits 256 x
  (digits.reverse ++ [digits.length]).map (BitVec.ofNat 8)

/-- `encode_string(S)`. -/
def encodeString (S : List (BitVec 8)) : List (BitVec 8) := leftEncode (8 * S.length) ++ S

/-- `bytepad(X, w)`. -/
def bytepad (X : List (BitVec 8)) (w : ℕ) : List (BitVec 8) :=
  let z := leftEncode w ++ X
  z ++ List.replicate ((w - z.length % w) % w) 0

/-! ### Lemmas -/

theorem length_bits {w : ℕ} (x : BitVec w) : (bits x).length = w := by
  rw [bits, List.length_map, List.length_range]

/-- The padding is the one that fills up a block. -/
theorem pad101_eq {x m j : ℕ} (hj : j < x) (h : x ∣ m + 2 + j) :
    pad101 x m = true :: List.replicate j false ++ [true] := by
  have hmod : (-(m : ℤ) - 2) % x = j := by
    obtain ⟨k, hk⟩ := h
    have hcast : (m : ℤ) + 2 + j = x * k := by exact_mod_cast hk
    rw [show -(m : ℤ) - 2 = j + x * (-k) by linarith, Int.add_mul_emod_self_left,
      Int.emod_eq_of_lt (by positivity) (by exact_mod_cast hj)]
  rw [pad101, hmod, Int.toNat_natCast]

theorem map_range_add {α : Type*} (f : ℕ → α) (a b : ℕ) :
    (List.range (a + b)).map f = (List.range a).map f ++ (List.range b).map fun j => f (a + j) := by
  rw [List.range_add, List.map_append, List.map_map]
  rfl

/-- The bits of a word from its low part and the rest. -/
theorem bits_eq_append {w : ℕ} (x : BitVec w) {a b : ℕ} (h : a + b = w) :
    bits x = (List.range a).map x.getLsbD ++ (List.range b).map fun j => x.getLsbD (a + j) := by
  subst h
  exact map_range_add x.getLsbD a b

/-- A string of `n` words. -/
theorem map_range_mul {α : Type*} (f : ℕ → α) (w n : ℕ) :
    (List.range (w * n)).map f =
      (List.range n).flatMap fun k => (List.range w).map fun j => f (w * k + j) := by
  induction n with
  | zero => rfl
  | succ n ih =>
    rw [Nat.mul_succ, map_range_add, ih, List.range_succ (n := n), List.flatMap_append,
      List.flatMap_singleton]

/-- The bytes of a word from its bit `8 * k` on. -/
def byteAt {w : ℕ} (x : BitVec w) (k : ℕ) : BitVec 8 := x.extractLsb' (8 * k) 8

/-- The bits of the first `n` bytes of a word. -/
theorem bitsOfBytes_byteAt {w : ℕ} (x : BitVec w) (n : ℕ) :
    bitsOfBytes ((List.range n).map (byteAt x)) = (List.range (8 * n)).map x.getLsbD := by
  rw [map_range_mul, bitsOfBytes, List.flatMap_map]
  congr 1
  funext k
  refine List.map_congr_left fun j hj => ?_
  rw [byteAt, BitVec.getLsbD_extractLsb', decide_eq_true (List.mem_range.mp hj), Bool.true_and]

theorem leftEncode_of_lt {x : ℕ} (hx : 0 < x) (hlt : x < 256) :
    leftEncode x = [1, BitVec.ofNat 8 x] := by
  rw [leftEncode, if_neg hx.ne', Nat.digits_of_lt 256 x hx.ne' hlt]
  rfl

theorem length_encodeString_ge (S : List (BitVec 8)) :
    S.length + 2 ≤ (encodeString S).length := by
  rw [encodeString, List.length_append, leftEncode, List.length_map, List.length_cons,
    List.length_reverse]
  split_ifs with h
  · rw [List.length_singleton]
    omega
  · have hpos : (Nat.digits 256 (8 * S.length)).length ≠ 0 :=
      mt List.length_eq_zero_iff.1 (Nat.digits_ne_nil_iff_ne_zero.2 h)
    omega

end Fips202
