import SecureBoot.Lib.Gf2Poly

/-! Cyclic redundancy checks over bytes sent least significant bit first. The check of a message
is the remainder of its polynomial, times `Xʷ`, in a register that starts with all ones; it is
read in reflected order and complemented. A register that is shifted to the right once for each
bit computes it. -/

namespace Crc

open Polynomial Gf2Poly

variable {w : ℕ}

/-! ### The check -/

/-- The polynomial of a message, the first bit with the highest power. -/
noncomputable def message (bits : List Bool) : (ZMod 2)[X] :=
  bits.foldl (fun p b => X * p + if b then 1 else 0) 0

def byteBits (b : BitVec 8) : List Bool := (List.range 8).map b.getLsbD

/-- The bits of a byte string in the order they are sent. -/
def bits (bs : List (BitVec 8)) : List Bool := bs.flatMap byteBits

/-- The check of a byte string for a generator of degree `w`. -/
def IsCheck (g : (ZMod 2)[X]) (bs : List (BitVec 8)) (crc : BitVec w) : Prop :=
  poly (~~~crc) =
    (X ^ w * message (bits bs) + X ^ (bits bs).length * poly (BitVec.allOnes w)) %ₘ g

theorem message_append (u v : List Bool) :
    message (u ++ v) = X ^ v.length * message u + message v := by
  induction v using List.reverseRecOn with
  | nil => simp [message]
  | append_singleton v b ih =>
    rw [← List.append_assoc, message, List.foldl_append, ← message, ih, message.eq_def (v ++ [b]),
      List.foldl_append, ← message, List.length_append]
    simp only [List.foldl_cons, List.foldl_nil, List.length_cons, List.length_nil]
    ring

/-- The message of a list of bits, power by power. -/
theorem message_map_range (f : ℕ → Bool) (n : ℕ) : message ((List.range n).map f) =
    ∑ j ∈ Finset.range n, if f (n - 1 - j) then X ^ j else 0 := by
  induction n with
  | zero => rfl
  | succ n ih =>
    rw [List.range_succ, List.map_append, message_append, ih, Finset.sum_range_succ',
      Finset.mul_sum]
    congr 1
    · refine Finset.sum_congr rfl fun j _ => ?_
      rw [show n + 1 - 1 - (j + 1) = n - 1 - j by omega, mul_ite, mul_zero]
      exact if_congr Iff.rfl (by rw [List.length_map, List.length_singleton, pow_one, pow_succ'])
        rfl
    · simp [message]

theorem message_byteBits (b : BitVec 8) : message (byteBits b) = poly b := by
  rw [byteBits, message_map_range, poly]
  refine Finset.sum_congr rfl fun j hj => ?_
  rw [BitVec.getMsbD_eq_getLsbD, decide_eq_true (Finset.mem_range.1 hj), Bool.true_and]

@[simp] theorem length_byteBits (b : BitVec 8) : (byteBits b).length = 8 := rfl

theorem bits_append (bs cs : List (BitVec 8)) : bits (bs ++ cs) = bits bs ++ bits cs :=
  List.flatMap_append

/-! ### The register -/

variable (r : BitVec w)

/-- A byte is added to the register and shifted out. -/
def addByte (c : BitVec w) (b : BitVec 8) : BitVec w := (mulX r)^[8] (c ^^^ b.setWidth w)

theorem mk_addByte (hw : 8 ≤ w) (c : BitVec w) (b : BitVec 8) :
    AdjoinRoot.mk (modulus r) (poly (addByte r c b)) =
      AdjoinRoot.mk (modulus r) (X ^ 8 * poly c + X ^ w * poly b) := by
  have hpow : (X : (ZMod 2)[X]) ^ w = X ^ 8 * X ^ (w - 8) := by
    rw [← pow_add, Nat.add_sub_cancel' hw]
  rw [addByte, mk_iterate_mulX, poly_xor, poly_setWidth hw, hpow, mul_assoc, ← mul_add, map_mul,
    map_pow]

theorem mk_foldl_addByte (hw : 8 ≤ w) (c : BitVec w) (bs : List (BitVec 8)) :
    AdjoinRoot.mk (modulus r) (poly (bs.foldl (addByte r) c)) =
      AdjoinRoot.mk (modulus r) (X ^ (bits bs).length * poly c + X ^ w * message (bits bs)) := by
  induction bs using List.reverseRecOn with
  | nil => simp [bits, message]
  | append_singleton bs b ih =>
    rw [List.foldl_append, List.foldl_cons, List.foldl_nil, mk_addByte r hw, map_add, map_mul, ih,
      ← map_mul, ← map_add, bits_append, message_append, List.length_append,
      show bits [b] = byteBits b from List.append_nil _, message_byteBits, length_byteBits]
    generalize message (bits bs) = m, poly b = p, poly c = q, (bits bs).length = n
    refine congrArg _ ?_
    rw [pow_add]
    ring

/-- The complement of the register is the check of the bytes that were added to it. -/
theorem isCheck_foldl_addByte (hw : 8 ≤ w) (bs : List (BitVec 8)) :
    IsCheck (modulus r) bs (~~~(bs.foldl (addByte r) (BitVec.allOnes w))) := by
  rw [IsCheck, BitVec.not_not, add_comm]
  exact poly_eq_modByMonic (mk_foldl_addByte r hw _ bs)

/-! ### A table -/

theorem mulX_xor (u v : BitVec w) : mulX r (u ^^^ v) = mulX r u ^^^ mulX r v := by
  apply BitVec.eq_of_getLsbD_eq
  intro i hi
  simp only [mulX, BitVec.getLsbD_xor]
  cases u.getLsbD 0 <;> cases v.getLsbD 0 <;> cases hr : r.getLsbD i <;> simp [hr]

theorem iterate_mulX_xor (n : ℕ) (u v : BitVec w) :
    (mulX r)^[n] (u ^^^ v) = (mulX r)^[n] u ^^^ (mulX r)^[n] v := by
  induction n generalizing u v with
  | zero => rfl
  | succ n ih => rw [Function.iterate_succ_apply, mulX_xor, ih]; rfl

/-- Zeros are shifted out. -/
theorem iterate_mulX_of_low {n : ℕ} {v : BitVec w} (h : ∀ i < n, v.getLsbD i = false) :
    (mulX r)^[n] v = v >>> n := by
  induction n generalizing v with
  | zero => rw [BitVec.ushiftRight_zero]; rfl
  | succ n ih =>
    have hstep : mulX r v = v >>> 1 := by
      rw [mulX, h 0 (Nat.succ_pos n)]
      exact BitVec.xor_zero
    have hlow : ∀ i < n, (v >>> 1).getLsbD i = false := by
      intro i hi
      rw [BitVec.getLsbD_ushiftRight]
      exact h (1 + i) (by omega)
    rw [Function.iterate_succ_apply, hstep, ih hlow, ← BitVec.shiftRight_add, Nat.add_comm]

/-- A byte shifted out by itself: an entry of the table. -/
def tableEntry (b : BitVec 8) : BitVec w := (mulX r)^[8] (b.setWidth w)

/-- A byte is added with one look at the table. -/
theorem addByte_eq_table (c : BitVec w) (b : BitVec 8) :
    addByte r c b = c >>> 8 ^^^ tableEntry r (c.setWidth 8 ^^^ b) := by
  have hsplit : c ^^^ b.setWidth w = (c >>> 8) <<< 8 ^^^ (c.setWidth 8 ^^^ b).setWidth w := by
    apply BitVec.eq_of_getLsbD_eq
    intro i hi
    by_cases hlow : i < 8
    · simp [hi, hlow]
    · simp [hi, hlow, Nat.add_sub_cancel' (Nat.not_lt.mp hlow), BitVec.getLsbD_of_ge b i (by omega)]
  have hhigh : (mulX r)^[8] ((c >>> 8) <<< 8) = c >>> 8 := by
    rw [iterate_mulX_of_low]
    · apply BitVec.eq_of_getLsbD_eq
      intro i hi
      by_cases hin : 8 + i < w
      · simp [hin]
      · simp [hin, BitVec.getLsbD_of_ge c (8 + i) (by omega)]
    · intro i hi
      simp [hi]
  rw [addByte, hsplit, iterate_mulX_xor, hhigh, tableEntry]

end Crc
