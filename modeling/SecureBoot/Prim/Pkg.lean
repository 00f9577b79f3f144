import Mathlib.Data.Nat.Log
import SecureBoot.Lib.Bits

/-! Shared definitions of the hardware primitives: the width of an index (`prim_util_pkg`)
and the four-bit booleans (`prim_mubi_pkg`). -/

namespace SecureBoot

/-- The width of a register for `value` items. -/
def vbits (value : ℕ) : ℕ := if value = 1 then 1 else Nat.clog 2 value

theorem le_two_pow_vbits (value : ℕ) : value ≤ 2 ^ vbits value := by
  unfold vbits
  split_ifs with h
  · rw [h]
    decide
  · exact Nat.le_pow_clog Nat.one_lt_two value

/-- `mubi4_t`, which also has invalid values. -/
abbrev Mubi4 := BitVec 4

def MuBi4True : Mubi4 := 0x6#4

def MuBi4False : Mubi4 := 0x9#4

def mubi4_bool_to_mubi (val : Bool) : Mubi4 := if val then MuBi4True else MuBi4False

def mubi4_test_true_strict (val : Mubi4) : Bool := MuBi4True == val

def mubi4_test_false_strict (val : Mubi4) : Bool := MuBi4False == val

def mubi4_test_true_loose (val : Mubi4) : Bool := MuBi4False != val

def mubi4_test_false_loose (val : Mubi4) : Bool := MuBi4True != val

def mubi4_test_invalid (val : Mubi4) : Bool := !(val == MuBi4True || val == MuBi4False)

end SecureBoot
