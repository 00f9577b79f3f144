import Mathlib.Data.Nat.Bitwise
import Mathlib.Tactic.Linarith
import SecureBoot.Lib.Bits

/-! The permutations KECCAK-p and KECCAK-f of FIPS 202. A state array has a bit for each triple of
coordinates below 5, 5 and the lane size `w`. -/

namespace Keccak

/-- `(a - b) mod n`. -/
def modSub (n a b : ℕ) : ℕ := (((a : ℤ) - b) % n).toNat

abbrev StateArray := ℕ → ℕ → ℕ → Bool

/-! ### Strings -/

variable {w : ℕ}

/-- The state array of a string. -/
def ofString (S : BitVec (25 * w)) : StateArray := fun x y z => S.getLsbD (w * (5 * y + x) + z)

/-- The string of a state array, plane by plane and lane by lane. -/
def toString (w : ℕ) (A : StateArray) : BitVec (25 * w) :=
  Bits.ofBits (25 * w) fun i => A (i / w % 5) (i / w / 5) (i % w)

/-! ### Step mappings -/

/-- The parity of a column. -/
def column (A : StateArray) (x z : ℕ) : Bool :=
  A x 0 z ^^ A x 1 z ^^ A x 2 z ^^ A x 3 z ^^ A x 4 z

def theta (w : ℕ) (A : StateArray) : StateArray := fun x y z =>
  A x y z ^^ (column A (modSub 5 x 1) z ^^ column A ((x + 1) % 5) (modSub w z 1))

/-- The coordinates of the lanes in the order in which they are rotated. -/
def rhoLane : ℕ → ℕ × ℕ
  | 0 => (1, 0)
  | t + 1 => ((rhoLane t).2, (2 * (rhoLane t).1 + 3 * (rhoLane t).2) % 5)

/-- A lane is rotated, the others are left. -/
def rhoStep (w : ℕ) (A A' : StateArray) (t : ℕ) : StateArray := fun x y z =>
  if (x, y) = rhoLane t then A x y (modSub w z ((t + 1) * (t + 2) / 2)) else A' x y z

def rho (w : ℕ) (A : StateArray) : StateArray := (List.range 24).foldl (rhoStep w A) A

def pi (A : StateArray) : StateArray := fun x y z => A ((x + 3 * y) % 5) x z

def chi (A : StateArray) : StateArray := fun x y z =>
  A x y z ^^ ((A ((x + 1) % 5) y z ^^ true) && A ((x + 2) % 5) y z)

/-- One shift of the register of `rc`. -/
def rcStep (R : List Bool) : List Bool :=
  let R := false :: R
  let R := R.set 0 (R.getD 0 false ^^ R.getD 8 false)
  let R := R.set 4 (R.getD 4 false ^^ R.getD 8 false)
  let R := R.set 5 (R.getD 5 false ^^ R.getD 8 false)
  let R := R.set 6 (R.getD 6 false ^^ R.getD 8 false)
  R.take 8

def rc (t : ℕ) : Bool :=
  if t % 255 = 0 then true
  else (rcStep^[t % 255] [true, false, false, false, false, false, false, false]).getD 0 false

/-- The round constant, of lanes of `2 ^ l` bits. -/
def roundConstant (l ir : ℕ) : ℕ → Bool :=
  (List.range (l + 1)).foldl (fun RC j => Function.update RC (2 ^ j - 1) (rc (j + 7 * ir)))
    fun _ => false

def iota (l ir : ℕ) (A : StateArray) : StateArray := fun x y z =>
  if x = 0 ∧ y = 0 then A x y z ^^ roundConstant l ir z else A x y z

/-! ### The permutations -/

def Rnd (l : ℕ) (A : StateArray) (ir : ℕ) : StateArray :=
  iota l ir (chi (pi (rho (2 ^ l) (theta (2 ^ l) A))))

/-- KECCAK-f[25 * 2 ^ l], which is KECCAK-p with `12 + 2 * l` rounds. -/
def keccakF (l : ℕ) (S : BitVec (25 * 2 ^ l)) : BitVec (25 * 2 ^ l) :=
  toString (2 ^ l) ((List.range (12 + 2 * l)).foldl (Rnd l) (ofString S))

/-! ### Coordinates -/

theorem modSub_lt {n : ℕ} (hn : 0 < n) (a b : ℕ) : modSub n a b < n := by
  have hlt := Int.emod_lt_of_pos ((a : ℤ) - b) (Int.natCast_pos.mpr hn)
  have hle := Int.emod_nonneg ((a : ℤ) - b) (Int.natCast_ne_zero.mpr hn.ne')
  unfold modSub
  omega

theorem modSub_eq {n a : ℕ} (ha : a < n) (b : ℕ) :
    modSub n a b = if a < b % n then a + n - b % n else a - b % n := by
  have hb : b % n < n := Nat.mod_lt b (Nat.zero_lt_of_lt ha)
  have hsplit : (a : ℤ) - b = (a - (b % n : ℕ)) + n * -(b / n : ℕ) := by
    have hdiv : ((n * (b / n) + b % n : ℕ) : ℤ) = b := congrArg _ (Nat.div_add_mod b n)
    push_cast at hdiv ⊢
    linarith
  rw [modSub, hsplit, Int.add_mul_emod_self_left]
  split_ifs with hlt
  · rw [← Int.add_emod_right, Int.emod_eq_of_lt (by omega) (by omega)]
    omega
  · rw [Int.emod_eq_of_lt (by omega) (by omega)]
    omega

/-- The position of a bit in the string. -/
theorem position_lt {x y z : ℕ} (hx : x < 5) (hy : y < 5) (hz : z < w) :
    w * (5 * y + x) + z < 25 * w := by
  have hle : w * (5 * y + x + 1) ≤ w * 25 := Nat.mul_le_mul_left w (by omega)
  rw [Nat.mul_succ] at hle
  omega

/-- The coordinates of a bit of the string. -/
theorem exists_position {i : ℕ} (hi : i < 25 * w) :
    ∃ x y z, x < 5 ∧ y < 5 ∧ z < w ∧ i = w * (5 * y + x) + z := by
  have hw : 0 < w := by omega
  have hlane : i / w < 25 := (Nat.div_lt_iff_lt_mul hw).mpr hi
  refine ⟨i / w % 5, i / w / 5, i % w, Nat.mod_lt _ (by decide), by omega, Nat.mod_lt i hw, ?_⟩
  rw [Nat.div_add_mod, Nat.div_add_mod]

theorem getLsbD_toString (A : StateArray) {x y z : ℕ} (hx : x < 5) (hy : y < 5) (hz : z < w) :
    (toString w A).getLsbD (w * (5 * y + x) + z) = A x y z := by
  have hlane : (w * (5 * y + x) + z) / w = 5 * y + x := by
    rw [Nat.mul_add_div (by omega), Nat.div_eq_of_lt hz, Nat.add_zero]
  have hbit : (w * (5 * y + x) + z) % w = z := by
    rw [Nat.mul_add_mod, Nat.mod_eq_of_lt hz]
  rw [toString, Bits.getLsbD_ofBits (position_lt hx hy hz), hlane, hbit]
  congr 1 <;> omega

/-! ### Rotations and constants by tables -/

/-- The offset of the last rotation of a lane, among the first `n`. -/
def rhoOffset (n x y : ℕ) : ℕ :=
  (List.range n).foldl (fun o t => if (x, y) = rhoLane t then (t + 1) * (t + 2) / 2 else o) 0

theorem rho_eq {w : ℕ} (A : StateArray) (x y : ℕ) {z : ℕ} (hz : z < w) :
    rho w A x y z = A x y (modSub w z (rhoOffset 24 x y)) := by
  unfold rho rhoOffset
  generalize 24 = n
  induction n with
  | zero =>
    have hzero : modSub w z 0 = z := by
      rw [modSub_eq hz, Nat.zero_mod, if_neg (Nat.not_lt_zero z)]
      rfl
    exact (congrArg (A x y) hzero).symm
  | succ n ih =>
    simp only [List.range_succ, List.foldl_append, List.foldl_cons, List.foldl_nil]
    rw [rhoStep]
    split_ifs
    · rfl
    · exact ih

theorem roundConstant_succ (l ir : ℕ) : roundConstant (l + 1) ir =
    Function.update (roundConstant l ir) (2 ^ (l + 1) - 1) (rc (l + 1 + 7 * ir)) := by
  rw [roundConstant, List.range_succ, List.foldl_append]
  rfl

theorem two_pow_sub_one_inj {j k : ℕ} (h : 2 ^ j - 1 = 2 ^ k - 1) : j = k := by
  have hj : 0 < 2 ^ j := Nat.two_pow_pos j
  have hk : 0 < 2 ^ k := Nat.two_pow_pos k
  exact Nat.pow_right_injective (Nat.le_refl 2) (by omega : 2 ^ j = 2 ^ k)

/-- The bits of the round constant that are set by `rc`. -/
theorem roundConstant_two_pow {l j : ℕ} (hj : j ≤ l) (ir : ℕ) :
    roundConstant l ir (2 ^ j - 1) = rc (j + 7 * ir) := by
  induction l with
  | zero =>
    obtain rfl : j = 0 := Nat.le_zero.mp hj
    rfl
  | succ l ih =>
    rw [roundConstant_succ]
    obtain rfl | hlt := Nat.eq_or_lt_of_le hj
    · exact Function.update_self ..
    · rw [Function.update_of_ne fun h => hlt.ne (two_pow_sub_one_inj h)]
      exact ih (Nat.le_of_lt_succ hlt)

theorem roundConstant_of_ne {l z : ℕ} (h : ∀ j ≤ l, z ≠ 2 ^ j - 1) (ir : ℕ) :
    roundConstant l ir z = false := by
  induction l with
  | zero =>
    change Function.update (fun _ => false) (2 ^ 0 - 1) _ z = false
    rw [Function.update_of_ne (h 0 (Nat.le_refl 0))]
  | succ l ih =>
    rw [roundConstant_succ, Function.update_of_ne (h (l + 1) (Nat.le_refl _))]
    exact ih fun j hj => h j (Nat.le_succ_of_le hj)

end Keccak
