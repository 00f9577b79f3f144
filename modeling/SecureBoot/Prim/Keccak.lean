import SecureBoot.Lib.Keccak
import SecureBoot.Prim.Pkg

/-! `prim_keccak`, one round of KECCAK-f. The lane size `W` is `Width / 25`, so that a state has
`25 * W` bits. -/

namespace SecureBoot.PrimKeccak

/-! ### The module -/

variable {W : ℕ}

/-- `MaxRound`. -/
def MaxRound (W : ℕ) : ℕ := 12 + 2 * Nat.clog 2 W

/-- The width of the index of a round. -/
def RndW (W : ℕ) : ℕ := Nat.clog 2 (MaxRound W + 1)

/-- `box_t`: a lane for each `x` and `y` below 5. -/
abbrev Box (W : ℕ) := ℕ → ℕ → BitVec W

def RhoOffset : List (List ℕ) := [
  [0, 36, 3, 105, 210],
  [1, 300, 10, 45, 66],
  [190, 6, 171, 15, 253],
  [28, 55, 153, 21, 120],
  [91, 276, 231, 136, 78]]

def PiRotate : List (List ℕ) := [
  [0, 3, 1, 4, 2],
  [1, 4, 2, 0, 3],
  [2, 0, 3, 1, 4],
  [3, 1, 4, 2, 0],
  [4, 2, 0, 3, 1]]

def RC : List (BitVec 64) := [
  0x0000000000000001, 0x0000000000008082, 0x800000000000808a,
  0x8000000080008000, 0x000000000000808b, 0x0000000080000001,
  0x8000000080008081, 0x8000000000008009, 0x000000000000008a,
  0x0000000000000088, 0x0000000080008009, 0x000000008000000a,
  0x000000008000808b, 0x800000000000008b, 0x8000000000008089,
  0x8000000000008003, 0x8000000000008002, 0x8000000000000080,
  0x000000000000800a, 0x800000008000000a, 0x8000000080008081,
  0x8000000000008080, 0x0000000080000001, 0x8000000080008008]

/-- `t[x][y]` of a table. -/
def entry (t : List (List ℕ)) (x y : ℕ) : ℕ := (t.getD x []).getD y 0

def bitarrayToBox (s_in : BitVec (25 * W)) : Box W := fun x y =>
  Bits.ofBits W fun z => s_in.getLsbD (W * (5 * y + x) + z)

/-- The bit `W * (5 * y + x) + z` is the bit `z` of the lane `x`, `y`. -/
def boxToBitarray (state : Box W) : BitVec (25 * W) :=
  Bits.ofBits (25 * W) fun i => (state (i / W % 5) (i / W / 5)).getLsbD (i % W)

def theta (state : Box W) : Box W :=
  let c : ℕ → BitVec W := fun x => Bits.ofBits W fun z =>
    (state x 0).getLsbD z ^^ (state x 1).getLsbD z ^^ (state x 2).getLsbD z ^^
      (state x 3).getLsbD z ^^ (state x 4).getLsbD z
  let d : ℕ → BitVec W := fun x =>
    let index_x1 := if x = 0 then 4 else x - 1
    let index_x2 := if x = 4 then 0 else x + 1
    Bits.ofBits W fun z =>
      let index_z := if z = 0 then W - 1 else z - 1
      (c index_x1).getLsbD z ^^ (c index_x2).getLsbD index_z
  fun x y => Bits.ofBits W fun z => (state x y).getLsbD z ^^ (d x).getLsbD z

/-- `gen_rho_x`, `gen_rho_y`. -/
def rho (theta_data : Box W) : Box W := fun x y =>
  let Offset := entry RhoOffset x y % W
  let ShiftAmt := W - Offset
  if Offset = 0 then theta_data x y
  else ((theta_data x y).extractLsb' 0 ShiftAmt ++
    (theta_data x y).extractLsb' ShiftAmt Offset).setWidth W

def pi (state : Box W) : Box W := fun x y => state (entry PiRotate x y) x

def chi (state : Box W) : Box W := fun x y =>
  let index_x1 := if x = 4 then 0 else x + 1
  let index_x2 := if 3 ≤ x then x - 3 else x + 2
  Bits.ofBits W fun z => (state x y).getLsbD z ^^
    (!(state index_x1 y).getLsbD z && (state index_x2 y).getLsbD z)

def iota (state : Box W) (rnd : BitVec (RndW W)) : Box W := fun x y =>
  if x = 0 ∧ y = 0 then state 0 0 ^^^ (RC.getD rnd.toNat 0).setWidth W else state x y

/-- `prim_keccak`. -/
def s_o (rnd_i : BitVec (RndW W)) (s_i : BitVec (25 * W)) : BitVec (25 * W) :=
  boxToBitarray (iota (chi (pi (rho (theta (bitarrayToBox s_i))))) rnd_i)

/-! ### The step mappings -/

/-- A box and a state array with the same bits. -/
def Holds (state : Box W) (A : Keccak.StateArray) : Prop :=
  ∀ x < 5, ∀ y < 5, ∀ z < W, (state x y).getLsbD z = A x y z

variable {state : Box W} {A : Keccak.StateArray}

theorem holds_bitarrayToBox (s_in : BitVec (25 * W)) :
    Holds (bitarrayToBox s_in) (Keccak.ofString s_in) := by
  intro x _ y _ z hz
  exact Bits.getLsbD_ofBits hz

theorem holds_boxToBitarray (h : Holds state A) :
    Holds (bitarrayToBox (boxToBitarray state)) A := by
  intro x hx y hy z hz
  rw [bitarrayToBox, Bits.getLsbD_ofBits hz, ← h x hx y hy z hz]
  exact Keccak.getLsbD_toString (fun x y z => (state x y).getLsbD z) hx hy hz

/-- The string of a state array from its bits. -/
theorem eq_toString {S : BitVec (25 * W)} (h : Holds (bitarrayToBox S) A) :
    S = Keccak.toString W A := by
  apply BitVec.eq_of_getLsbD_eq
  intro i hi
  obtain ⟨x, y, z, hx, hy, hz, rfl⟩ := Keccak.exists_position hi
  rw [Keccak.getLsbD_toString A hx hy hz, ← h x hx y hy z hz, bitarrayToBox,
    Bits.getLsbD_ofBits hz]

theorem modSub_one {n a : ℕ} (ha : a < n) :
    Keccak.modSub n a 1 = if a = 0 then n - 1 else a - 1 := by
  rw [Keccak.modSub_eq ha]
  obtain rfl | hn := Nat.eq_or_lt_of_le (Nat.succ_le_of_lt (Nat.zero_lt_of_lt ha))
  · obtain rfl : a = 0 := by omega
    rfl
  · rw [Nat.mod_eq_of_lt hn]
    split_ifs <;> omega

theorem holds_theta (h : Holds state A) : Holds (theta state) (Keccak.theta W A) := by
  intro x hx y hy z hz
  have hcolumn : ∀ x < 5, ∀ z < W, (Bits.ofBits W fun z => (state x 0).getLsbD z ^^
      (state x 1).getLsbD z ^^ (state x 2).getLsbD z ^^ (state x 3).getLsbD z ^^
        (state x 4).getLsbD z).getLsbD z = Keccak.column A x z := by
    intro x hx z hz
    rw [Bits.getLsbD_ofBits hz, h x hx 0 (by decide) z hz, h x hx 1 (by decide) z hz,
      h x hx 2 (by decide) z hz, h x hx 3 (by decide) z hz, h x hx 4 (by decide) z hz]
    rfl
  have hx1 : (if x = 0 then 4 else x - 1) = Keccak.modSub 5 x 1 := (modSub_one hx).symm
  have hx2 : (if x = 4 then 0 else x + 1) = (x + 1) % 5 := by split_ifs <;> omega
  have hz1 : (if z = 0 then W - 1 else z - 1) = Keccak.modSub W z 1 := (modSub_one hz).symm
  simp only [theta]
  rw [Bits.getLsbD_ofBits hz, Bits.getLsbD_ofBits hz, h x hx y hy z hz, hx1, hx2, hz1,
    hcolumn _ (Keccak.modSub_lt (by decide) x 1) z hz,
    hcolumn _ (Nat.mod_lt _ (by decide)) _ (Keccak.modSub_lt (by omega) z 1)]
  rfl

/-- The table holds the offsets of the rotations. -/
theorem rhoOffset_eq : ∀ x < 5, ∀ y < 5, Keccak.rhoOffset 24 x y = entry RhoOffset x y := by
  decide

theorem holds_rho (h : Holds state A) : Holds (rho state) (Keccak.rho W A) := by
  intro x hx y hy z hz
  have hOffset : entry RhoOffset x y % W < W := Nat.mod_lt _ (by omega)
  rw [Keccak.rho_eq A x y hz, rhoOffset_eq x hx y hy, Keccak.modSub_eq hz]
  simp only [rho]
  split_ifs with hzero hlt hlt
  · omega
  · rw [hzero, Nat.sub_zero]
    exact h x hx y hy z hz
  all_goals
    rw [BitVec.getLsbD_setWidth, BitVec.getLsbD_append, decide_eq_true hz, Bool.true_and]
  · rw [if_pos hlt, BitVec.getLsbD_extractLsb', decide_eq_true hlt, Bool.true_and,
      h x hx y hy _ (by omega)]
    congr 1
    omega
  · rw [if_neg hlt, BitVec.getLsbD_extractLsb', decide_eq_true (by omega), Bool.true_and,
      Nat.zero_add, h x hx y hy _ (by omega)]

theorem piRotate_eq : ∀ x < 5, ∀ y < 5, entry PiRotate x y = (x + 3 * y) % 5 := by
  decide

theorem holds_pi (h : Holds state A) : Holds (pi state) (Keccak.pi A) := by
  intro x hx y hy z hz
  rw [pi, piRotate_eq x hx y hy]
  exact h _ (Nat.mod_lt _ (by decide)) x hx z hz

theorem holds_chi (h : Holds state A) : Holds (chi state) (Keccak.chi A) := by
  intro x hx y hy z hz
  have hx1 : (if x = 4 then 0 else x + 1) = (x + 1) % 5 := by split_ifs <;> omega
  have hx2 : (if 3 ≤ x then x - 3 else x + 2) = (x + 2) % 5 := by split_ifs <;> omega
  simp only [chi]
  rw [Bits.getLsbD_ofBits hz, hx1, hx2, h x hx y hy z hz,
    h _ (Nat.mod_lt _ (by decide)) y hy z hz, h _ (Nat.mod_lt _ (by decide)) y hy z hz,
    ← Bool.xor_true]
  rfl

/-! ### Round constants -/

/-- The table has the bits of `rc` at the positions `2 ^ j - 1`. -/
theorem RC_two_pow : ∀ ir < 24, ∀ j < 7,
    (RC.getD ir 0).getLsbD (2 ^ j - 1) = Keccak.rc (j + 7 * ir) := by
  decide +kernel

theorem RC_of_ne : ∀ ir < 24, ∀ z < 64, (∀ j < 7, z ≠ 2 ^ j - 1) →
    (RC.getD ir 0).getLsbD z = false := by
  decide +kernel

/-- For narrower lanes the low bits of the table are the round constant. -/
theorem RC_eq {l ir z : ℕ} (hl : l ≤ 6) (hir : ir < 24) (hz : z < 2 ^ l) :
    (RC.getD ir 0).getLsbD z = Keccak.roundConstant l ir z := by
  have hle : 2 ^ l ≤ 2 ^ 6 := Nat.pow_le_pow_right (by decide) hl
  by_cases hj : ∃ j ≤ l, z = 2 ^ j - 1
  · obtain ⟨j, hjl, rfl⟩ := hj
    rw [Keccak.roundConstant_two_pow hjl]
    exact RC_two_pow ir hir j (by omega)
  · rw [Keccak.roundConstant_of_ne fun j hjl h => hj ⟨j, hjl, h⟩]
    refine RC_of_ne ir hir z (Nat.lt_of_lt_of_le hz hle) fun j hj7 h => hj ⟨j, ?_, h⟩
    have hpos : 0 < 2 ^ j := Nat.two_pow_pos j
    have hpow : 2 ^ j ≤ 2 ^ l := by omega
    exact (Nat.pow_le_pow_iff_right (by decide)).mp hpow

variable {l : ℕ}

/-- The index of every round fits in `rnd_i`. -/
theorem toNat_rnd {ir : ℕ} (hir : ir < MaxRound W) :
    (BitVec.ofNat (RndW W) ir).toNat = ir := by
  have hle : MaxRound W + 1 ≤ 2 ^ RndW W := Nat.le_pow_clog (by decide) _
  rw [BitVec.toNat_ofNat, Nat.mod_eq_of_lt (by omega)]

theorem maxRound_two_pow (l : ℕ) : MaxRound (2 ^ l) = 12 + 2 * l := by
  rw [MaxRound, Nat.clog_pow 2 l (by decide)]

theorem holds_iota {state : Box (2 ^ l)} (hl : l ≤ 6) {ir : ℕ} (hir : ir < 12 + 2 * l)
    (h : Holds state A) :
    Holds (iota state (BitVec.ofNat (RndW (2 ^ l)) ir)) (Keccak.iota l ir A) := by
  intro x hx y hy z hz
  simp only [iota, Keccak.iota]
  rw [toNat_rnd ((maxRound_two_pow l).symm ▸ hir)]
  split_ifs with hxy
  · rw [BitVec.getLsbD_xor, BitVec.getLsbD_setWidth, decide_eq_true hz, Bool.true_and,
      RC_eq hl (by omega) hz, h 0 (by decide) 0 (by decide) z hz, hxy.1, hxy.2]
  · exact h x hx y hy z hz

/-! ### The rounds -/

variable {s : BitVec (25 * 2 ^ l)}

theorem holds_s_o (hl : l ≤ 6) {ir : ℕ} (hir : ir < 12 + 2 * l)
    (h : Holds (bitarrayToBox s) A) :
    Holds (bitarrayToBox (s_o (BitVec.ofNat (RndW (2 ^ l)) ir) s)) (Keccak.Rnd l A ir) := by
  apply holds_boxToBitarray
  apply holds_iota hl hir
  apply holds_chi
  apply holds_pi
  apply holds_rho
  exact holds_theta h

theorem holds_rounds (hl : l ≤ 6) (s : BitVec (25 * 2 ^ l)) {n : ℕ} (hn : n ≤ 12 + 2 * l) :
    Holds (bitarrayToBox ((List.range n).foldl
      (fun s rnd => s_o (BitVec.ofNat (RndW (2 ^ l)) rnd) s) s))
      ((List.range n).foldl (Keccak.Rnd l) (Keccak.ofString s)) := by
  induction n with
  | zero => exact holds_bitarrayToBox s
  | succ n ih =>
    simp only [List.range_succ, List.foldl_append, List.foldl_cons, List.foldl_nil]
    exact holds_s_o hl hn (ih (Nat.le_of_succ_le hn))

/-- All rounds of the module make KECCAK-f, for lanes of 1 to 64 bits. -/
theorem prim_keccak_rounds {l : ℕ} (hl : l ≤ 6) (s : BitVec (25 * 2 ^ l)) :
    (List.range (12 + 2 * l)).foldl (fun s rnd => s_o (BitVec.ofNat (RndW (2 ^ l)) rnd) s) s =
      Keccak.keccakF l s :=
  eq_toString (holds_rounds hl s (Nat.le_refl _))

theorem prim_keccak_rounds_zero :
    (List.range 24).foldl (fun s rnd => s_o (BitVec.ofNat (RndW (2 ^ 6)) rnd) s)
      (0 : BitVec (25 * 2 ^ 6)) = Keccak.keccakF 6 0 :=
  prim_keccak_rounds (by decide) 0

end SecureBoot.PrimKeccak
