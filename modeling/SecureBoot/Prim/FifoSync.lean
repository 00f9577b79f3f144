import SecureBoot.Lib.BoundedQueue
import SecureBoot.Prim.Count
import SecureBoot.Prim.FifoAsync
import SecureBoot.Prim.Pkg

/-! The FIFO on one clock, `prim_fifo_sync`, for any depth, and its pointers,
`prim_fifo_sync_cnt`. A pointer runs over the places of the storage and has one bit more,
which changes with every turn; with `Secure` it is a hardened counter. -/

namespace SecureBoot

open Bits

/-! ### Pointers -/

/-- A pointer register, of `gen_normal_ptrs` or of `gen_secure_ptrs`. -/
inductive FifoPtr (Width : ℕ)
  | normal (ptr : BitVec Width)
  | secure (u : CountRegs Width)

namespace FifoPtr

variable {Width : ℕ}

def reset (Secure : Bool) : FifoPtr Width :=
  if Secure then .secure (primCountReset 0) else .normal 0

/-- `wptr_o`, `rptr_o`. -/
def ptr_o : FifoPtr Width → BitVec Width
  | normal ptr => ptr
  | secure u => u.primary

/-- `wptr_err`, `rptr_err`. -/
def err : FifoPtr Width → Bool
  | normal _ => false
  | secure u => u.err_o

/-- `wptr_wrap`, `rptr_wrap`. -/
def wrap (Depth : ℕ) (incr : Bool) (ptr : BitVec Width) : Bool :=
  incr && ptr.setWidth (Width - 1) == BitVec.ofNat (Width - 1) (Depth - 1)

/-- `wptr_wrap_cnt`, `rptr_wrap_cnt`. -/
def wrap_cnt (ptr : BitVec Width) : BitVec Width :=
  setBit 0 (Width - 1) (!ptr.getLsbD (Width - 1))

/-- A clock edge of a pointer. -/
def clock (Depth : ℕ) (clr_i incr : Bool) (p : FifoPtr Width) : FifoPtr Width :=
  let ptr := p.ptr_o
  match p with
  | normal _ => normal <|
    if clr_i then 0
    else if wrap Depth incr ptr then wrap_cnt ptr
    else if incr then ptr + BitVec.ofNat Width 1
    else ptr
  | secure u => secure <|
    primCount 0 u ⟨clr_i, wrap Depth incr ptr, wrap_cnt ptr, incr, false, BitVec.ofNat Width 1⟩

end FifoPtr

/-! ### The FIFO -/

/-- `PTRV_W`. -/
abbrev fifoSyncPtrvW (Depth : ℕ) : ℕ := vbits Depth

/-- `PTR_WIDTH`. -/
abbrev fifoSyncPtrWidth (Depth : ℕ) : ℕ := fifoSyncPtrvW Depth + 1

/-- `DepthW`. -/
abbrev fifoSyncDepthW (Depth : ℕ) : ℕ := vbits (Depth + 1)

structure FifoSyncIn (Width : ℕ) where
  clr_i : Bool
  wvalid_i : Bool
  wdata_i : BitVec Width
  rready_i : Bool

@[ext]
structure FifoSyncOut (Depth Width : ℕ) where
  wready_o : Bool
  rvalid_o : Bool
  rdata_o : BitVec Width
  full_o : Bool
  depth_o : BitVec (fifoSyncDepthW Depth)
  err_o : Bool

/-- The registers of `gen_normal_fifo`. -/
@[ext]
structure FifoSync (Depth Width : ℕ) where
  under_rst : Bool
  wptr : FifoPtr (fifoSyncPtrWidth Depth)
  rptr : FifoPtr (fifoSyncPtrWidth Depth)
  storage : ℕ → BitVec Width

namespace FifoSync

variable {Depth Width : ℕ}

/-- Reset leaves the storage as it is. -/
def reset (Secure : Bool) (storage : ℕ → BitVec Width) : FifoSync Depth Width :=
  ⟨true, .reset Secure, .reset Secure, storage⟩

variable (Pass OutputZeroIfEmpty : Bool) (s : FifoSync Depth Width) (i : FifoSyncIn Width)

def fifo_wptr : BitVec (fifoSyncPtrWidth Depth) := s.wptr.ptr_o

def fifo_rptr : BitVec (fifoSyncPtrWidth Depth) := s.rptr.ptr_o

/-- `wptr_value`, `rptr_value`. -/
def ptrValue (ptr : BitVec (fifoSyncPtrWidth Depth)) : BitVec (fifoSyncPtrvW Depth) :=
  ptr.setWidth (fifoSyncPtrvW Depth)

/-- `wptr_msb`, `rptr_msb`. -/
def ptrMsb (ptr : BitVec (fifoSyncPtrWidth Depth)) : Bool := ptr.getLsbD (fifoSyncPtrvW Depth)

def full : Bool := s.fifo_wptr = s.fifo_rptr ^^^ fifoXorMask _

def fifo_empty : Bool := s.fifo_wptr = s.fifo_rptr

def depth_o : BitVec (fifoSyncDepthW Depth) :=
  let wptr_value := (ptrValue s.fifo_wptr).setWidth (fifoSyncDepthW Depth)
  let rptr_value := (ptrValue s.fifo_rptr).setWidth (fifoSyncDepthW Depth)
  if s.full then BitVec.ofNat _ Depth
  else if ptrMsb s.fifo_wptr = ptrMsb s.fifo_rptr then wptr_value - rptr_value
  else BitVec.ofNat _ Depth - rptr_value + wptr_value

/-- The place of a pointer in the storage, of `gen_depth_eq1` or of `gen_depth_gt1`. -/
def place (ptr : BitVec (fifoSyncPtrWidth Depth)) : ℕ :=
  if Depth = 1 then 0 else (ptrValue ptr).toNat

def storage_rdata : BitVec Width := s.storage (place s.fifo_rptr)

def rdata_int : BitVec Width :=
  if Pass then if s.fifo_empty && i.wvalid_i then i.wdata_i else s.storage_rdata
  else s.storage_rdata

def empty : Bool := if Pass then s.fifo_empty && !i.wvalid_i else s.fifo_empty

def wready_o : Bool := !s.full && !s.under_rst

def rvalid_o : Bool := !s.empty Pass i && !s.under_rst

def rdata_o : BitVec Width :=
  if OutputZeroIfEmpty then if s.empty Pass i then 0 else s.rdata_int Pass i
  else s.rdata_int Pass i

def fifo_incr_wptr : Bool := i.wvalid_i && s.wready_o && !s.under_rst

def fifo_incr_rptr : Bool := s.rvalid_o Pass i && i.rready_i && !s.under_rst

def out : FifoSyncOut Depth Width where
  wready_o := s.wready_o
  rvalid_o := s.rvalid_o Pass i
  rdata_o := s.rdata_o Pass OutputZeroIfEmpty i
  full_o := s.full
  depth_o := s.depth_o
  err_o := s.wptr.err || s.rptr.err

/-- A clock edge of the FIFO. -/
def clock : FifoSync Depth Width where
  under_rst := if s.under_rst then !s.under_rst else s.under_rst
  wptr := s.wptr.clock Depth i.clr_i (s.fifo_incr_wptr i)
  rptr := s.rptr.clock Depth i.clr_i (s.fifo_incr_rptr Pass i)
  storage :=
    if s.fifo_incr_wptr i then Function.update s.storage (place s.fifo_wptr) i.wdata_i
    else s.storage

end FifoSync

end SecureBoot

/-! The FIFO on one clock is a bounded queue. A pointer stands at one of twice as many
positions as there are places, so that the distance of the two tells an empty queue from a
full one; the hardened pointers stand where the plain ones do. -/

namespace SecureBoot

open Bits BoundedQueue Mealy

/-! ### Pointers -/

section Pointer

variable {k : ℕ} {x y : BitVec (k + 1)}

theorem toNat_eq_value_add_msb (x : BitVec (k + 1)) :
    x.toNat = (x.setWidth k).toNat + if x.getLsbD k then 2 ^ k else 0 := by
  have hlt := x.isLt
  have hpow : 2 ^ (k + 1) = 2 * 2 ^ k := pow_succ' 2 k
  have hdiv := Nat.div_add_mod x.toNat (2 ^ k)
  rw [BitVec.toNat_setWidth, ← BitVec.testBit_toNat, Nat.testBit_eq_decide_div_mod_eq]
  have hle : x.toNat / 2 ^ k ≤ 1 := Nat.lt_succ_iff.mp (Nat.div_lt_of_lt_mul (by omega))
  obtain h | h := Nat.le_one_iff_eq_zero_or_eq_one.mp hle
  · rw [h] at hdiv ⊢
    simp at hdiv ⊢
    omega
  · rw [h] at hdiv ⊢
    simp at hdiv ⊢
    omega

theorem ptr_ext_iff : x = y ↔
    (x.setWidth k).toNat = (y.setWidth k).toNat ∧ x.getLsbD k = y.getLsbD k := by
  constructor
  · rintro rfl
    exact ⟨rfl, rfl⟩
  · rintro ⟨hvalue, hmsb⟩
    apply BitVec.eq_of_toNat_eq
    rw [toNat_eq_value_add_msb x, toNat_eq_value_add_msb y, hvalue, hmsb]

theorem getLsbD_xor_fifoXorMask (x : BitVec (k + 1)) {i : ℕ} (hi : i ≤ k) :
    (x ^^^ fifoXorMask (k + 1)).getLsbD i = (x.getLsbD i ^^ decide (i = k)) := by
  rw [BitVec.getLsbD_xor, fifoXorMask, BitVec.getLsbD_shiftLeft]
  congr 1
  obtain hlt | rfl := Nat.lt_or_eq_of_le hi
  · simp [show i ≠ k by omega, hlt]
  · simp

theorem setWidth_xor_fifoXorMask (x : BitVec (k + 1)) :
    (x ^^^ fifoXorMask (k + 1)).setWidth k = x.setWidth k := by
  apply BitVec.eq_of_getLsbD_eq
  intro i hi
  rw [BitVec.getLsbD_setWidth, BitVec.getLsbD_setWidth,
    getLsbD_xor_fifoXorMask x (Nat.le_of_lt hi), decide_eq_false (Nat.ne_of_lt hi), Bool.xor_false]

/-! ### Positions -/

/-- A pointer stands at one of `2 * Depth` positions: at a place, in an even or an odd
turn. -/
structure StandsAt (Depth : ℕ) (x : BitVec (k + 1)) (pos : ℕ) : Prop where
  value : (x.setWidth k).toNat = if pos < Depth then pos else pos - Depth
  msb : x.getLsbD k = decide (Depth ≤ pos)
  lt : pos < 2 * Depth

/-- The position after `pos`. -/
def advance (Depth pos : ℕ) : ℕ := if pos + 1 = 2 * Depth then 0 else pos + 1

theorem advance_cases (Depth pos : ℕ) :
    advance Depth pos = 0 ∧ pos + 1 = 2 * Depth ∨
      advance Depth pos = pos + 1 ∧ pos + 1 ≠ 2 * Depth := by
  rw [advance]
  split_ifs with h
  · exact .inl ⟨rfl, h⟩
  · exact .inr ⟨rfl, h⟩

namespace StandsAt

variable {Depth pos pos' : ℕ}

theorem zero (hDepth : 0 < Depth) : StandsAt Depth (0 : BitVec (k + 1)) 0 := by
  refine ⟨?_, ?_, by omega⟩
  · simp
  · simp [Nat.ne_of_gt hDepth]

theorem eq_iff (h : StandsAt Depth x pos) (h' : StandsAt Depth y pos') : x = y ↔ pos = pos' := by
  have hlt := h.lt
  have hlt' := h'.lt
  rw [ptr_ext_iff, h.value, h'.value, h.msb, h'.msb, decide_eq_decide]
  split_ifs <;> omega

theorem eq_xor_iff (h : StandsAt Depth x pos) (h' : StandsAt Depth y pos') :
    x = y ^^^ fifoXorMask _ ↔ pos = pos' + Depth ∨ pos' = pos + Depth := by
  have hlt := h.lt
  have hlt' := h'.lt
  rw [ptr_ext_iff, setWidth_xor_fifoXorMask, getLsbD_xor_fifoXorMask _ (Nat.le_refl k), h.value,
    h'.value, h.msb, h'.msb, decide_eq_true rfl, Bool.xor_true, ← decide_not, decide_eq_decide]
  split_ifs <;> omega

theorem value_lt (h : StandsAt Depth x pos) : (x.setWidth k).toNat < Depth := by
  have hlt := h.lt
  rw [h.value]
  split_ifs <;> omega

theorem value_eq_mod (h : StandsAt Depth x pos) : (x.setWidth k).toNat = pos % Depth := by
  have hlt := h.lt
  rw [h.value]
  split_ifs with hpos
  · exact (Nat.mod_eq_of_lt hpos).symm
  · rw [Nat.mod_eq_sub_mod (by omega), Nat.mod_eq_of_lt (by omega)]

theorem wrap_iff (h : StandsAt Depth x pos) (hk : Depth ≤ 2 ^ k) (incr : Bool) :
    FifoPtr.wrap Depth incr x = true ↔
      incr = true ∧ (pos + 1 = Depth ∨ pos + 1 = 2 * Depth) := by
  have hlt := h.lt
  rw [FifoPtr.wrap, Bool.and_eq_true, beq_iff_eq, ← BitVec.toNat_inj]
  show incr = true ∧ (x.setWidth k).toNat = (BitVec.ofNat k (Depth - 1)).toNat ↔ _
  rw [h.value, BitVec.toNat_ofNat, Nat.mod_eq_of_lt (by omega)]
  refine and_congr_right fun _ => ?_
  split_ifs <;> omega

/-- At the last place the next turn begins. -/
theorem wrap_cnt (h : StandsAt Depth x pos) (hpos : pos + 1 = Depth ∨ pos + 1 = 2 * Depth) :
    StandsAt Depth (FifoPtr.wrap_cnt x) (advance Depth pos) := by
  have hlt := h.lt
  have hvalue : ((FifoPtr.wrap_cnt x).setWidth k).toNat = 0 := by
    rw [show (FifoPtr.wrap_cnt x).setWidth k = 0#k from ?_]
    · rfl
    · apply BitVec.eq_of_getLsbD_eq
      intro i hi
      rw [BitVec.getLsbD_setWidth, FifoPtr.wrap_cnt, getLsbD_setBit]
      simp [Nat.ne_of_lt hi]
  have hmsb : (FifoPtr.wrap_cnt x).getLsbD k = !x.getLsbD k := by
    rw [FifoPtr.wrap_cnt, getLsbD_setBit]
    simp
  refine ⟨?_, ?_, ?_⟩
  · rw [hvalue, advance]
    split_ifs <;> omega
  · rw [hmsb, h.msb, advance, ← decide_not, decide_eq_decide]
    split_ifs <;> omega
  · rw [advance]
    split_ifs <;> omega

theorem add_one_lt (h : StandsAt Depth x pos) (hk : Depth ≤ 2 ^ k)
    (hpos : ¬ (pos + 1 = Depth ∨ pos + 1 = 2 * Depth)) : x.toNat + 1 < 2 ^ (k + 1) := by
  have hlt := h.lt
  have hvalue := h.value
  have hpow : 2 ^ (k + 1) = 2 * 2 ^ k := pow_succ' 2 k
  rw [toNat_eq_value_add_msb x]
  split_ifs at hvalue ⊢ <;> omega

theorem toNat_add_one (h : StandsAt Depth x pos) (hk : Depth ≤ 2 ^ k)
    (hpos : ¬ (pos + 1 = Depth ∨ pos + 1 = 2 * Depth)) :
    (x + 1#(k + 1)).toNat = x.toNat + 1 := by
  rw [BitVec.toNat_add, BitVec.toNat_ofNat,
    Nat.mod_eq_of_lt (Nat.one_lt_two_pow (Nat.succ_ne_zero k)),
    Nat.mod_eq_of_lt (h.add_one_lt hk hpos)]

/-- Elsewhere the place goes up by one. -/
theorem add_one (h : StandsAt Depth x pos) (hk : Depth ≤ 2 ^ k)
    (hpos : ¬ (pos + 1 = Depth ∨ pos + 1 = 2 * Depth)) :
    StandsAt Depth (x + 1#(k + 1)) (advance Depth pos) := by
  have hlt := h.lt
  have hvalue := h.value
  have hstep := h.toNat_add_one hk hpos
  have hnext : ((x + 1#(k + 1)).setWidth k).toNat = (x.setWidth k).toNat + 1 := by
    rw [BitVec.toNat_setWidth, hstep, ← Nat.mod_add_mod, ← BitVec.toNat_setWidth]
    apply Nat.mod_eq_of_lt
    split_ifs at hvalue <;> omega
  have hmsb : (x + 1#(k + 1)).getLsbD k = x.getLsbD k := by
    have hpos2 := Nat.two_pow_pos k
    rw [toNat_eq_value_add_msb x, toNat_eq_value_add_msb (x + 1#(k + 1)), hnext] at hstep
    cases h1 : (x + 1#(k + 1)).getLsbD k <;> cases h2 : x.getLsbD k <;>
      simp only [h1, h2, if_true, Bool.false_eq_true, if_false] at hstep ⊢ <;> omega
  have hadvance : advance Depth pos = pos + 1 := if_neg fun h => hpos (.inr h)
  refine ⟨?_, ?_, ?_⟩
  · rw [hnext, hvalue, hadvance]
    split_ifs <;> omega
  · rw [hmsb, h.msb, hadvance, decide_eq_decide]
    omega
  · omega

/-- A clock edge of a plain pointer. -/
theorem clock_normal (h : StandsAt Depth x pos) (hDepth : 0 < Depth) (hk : Depth ≤ 2 ^ k)
    (clr_i incr : Bool) : StandsAt Depth ((FifoPtr.normal x).clock Depth clr_i incr).ptr_o
      (if clr_i then 0 else if incr then advance Depth pos else pos) := by
  have hwrap := h.wrap_iff hk incr
  have hptr : ((FifoPtr.normal x).clock Depth clr_i incr).ptr_o =
      if clr_i then 0 else if FifoPtr.wrap Depth incr x then FifoPtr.wrap_cnt x
      else if incr then x + 1#(k + 1) else x := rfl
  rw [hptr]
  cases clr_i with
  | true => exact zero hDepth
  | false =>
    cases incr with
    | false =>
      rw [if_neg Bool.false_ne_true, if_neg Bool.false_ne_true,
        if_neg fun hw => Bool.false_ne_true (hwrap.mp hw).1]
      exact h
    | true =>
      simp only [Bool.false_eq_true, if_false, if_true]
      split_ifs with hw
      · exact h.wrap_cnt (hwrap.mp hw).2
      · exact h.add_one hk fun hpos => hw (hwrap.mpr ⟨rfl, hpos⟩)

end StandsAt

end Pointer

namespace FifoPtr

variable {k Depth : ℕ} {p : FifoPtr (k + 1)} {pos : ℕ}

/-- A pointer register at a position; a hardened one agrees with its second counter. -/
structure At (Depth : ℕ) (p : FifoPtr (k + 1)) (pos : ℕ) : Prop where
  stands : StandsAt Depth p.ptr_o pos
  consistent : ∀ u, p = secure u → u.Consistent

theorem at_reset (hDepth : 0 < Depth) (Secure : Bool) :
    (reset Secure : FifoPtr (k + 1)).At Depth 0 := by
  cases Secure with
  | false => exact ⟨.zero hDepth, fun u hu => by simp [reset] at hu⟩
  | true =>
    refine ⟨.zero hDepth, fun u hu => ?_⟩
    obtain rfl : primCountReset 0 = u := by simpa [reset] using hu
    exact CountRegs.consistent_reset 0

namespace At

theorem err_eq_false (h : p.At Depth pos) : p.err = false := by
  cases p with
  | normal ptr => rfl
  | secure u => exact CountRegs.err_o_eq_false (h.consistent u rfl)

/-- The hardened pointer moves as the plain one. -/
theorem ptr_o_clock (h : p.At Depth pos) (hk : Depth ≤ 2 ^ k) (clr_i incr : Bool) :
    (p.clock Depth clr_i incr).ptr_o = ((normal p.ptr_o).clock Depth clr_i incr).ptr_o := by
  cases p with
  | normal ptr => rfl
  | secure u =>
    cases clr_i with
    | true => rfl
    | false =>
      cases hwrap : wrap Depth incr u.primary with
      | true => simp [clock, ptr_o, primCount, cntD, hwrap]
      | false =>
        cases incr with
        | false => simp [clock, ptr_o, primCount, cntD, hwrap]
        | true =>
          have hne : ¬ (pos + 1 = Depth ∨ pos + 1 = 2 * Depth) := by
            intro hpos
            have htrue : wrap Depth true u.primary = true :=
              (h.stands.wrap_iff hk true).mpr ⟨rfl, hpos⟩
            rw [htrue] at hwrap
            exact Bool.noConfusion hwrap
          have hlt := h.stands.add_one_lt hk hne
          have hstep := h.stands.toNat_add_one hk hne
          -- the counter would saturate at the maximum, which is never reached
          apply BitVec.eq_of_toNat_eq
          simp only [clock, ptr_o, primCount, hwrap, if_true, Bool.false_eq_true, if_false]
          rw [toNat_cntD_incr, BitVec.toNat_ofNat,
            Nat.mod_eq_of_lt (Nat.one_lt_two_pow (Nat.succ_ne_zero k))]
          simp only [ptr_o] at hstep hlt
          omega

/-- A clock edge of a pointer. -/
theorem clock (h : p.At Depth pos) (hDepth : 0 < Depth) (hk : Depth ≤ 2 ^ k) (clr_i incr : Bool) :
    (p.clock Depth clr_i incr).At Depth
      (if clr_i then 0 else if incr then advance Depth pos else pos) := by
  constructor
  · rw [h.ptr_o_clock hk]
    exact h.stands.clock_normal hDepth hk clr_i incr
  · intro u hu
    cases p with
    | normal ptr => simp [FifoPtr.clock] at hu
    | secure v =>
      obtain rfl := FifoPtr.secure.inj hu
      exact (h.consistent v rfl).primCount 0 _

end At

end FifoPtr

/-! ### The queue -/

namespace FifoSync

variable {Depth Width : ℕ}

/-- A cycle of the FIFO as one of a queue, in which it takes no part under reset. -/
def cycle (i : FifoSyncIn Width) (under_rst : Bool) : Exchange (BitVec Width) :=
  ⟨i.wvalid_i && !under_rst, i.wdata_i, i.rready_i && !under_rst, i.clr_i⟩

/-- The FIFO holds a queue: the pointers stand apart by its length, and the storage has its
words from the read pointer on. -/
structure HoldsQueue (s : FifoSync Depth Width) (wpos rpos : ℕ) (q : List (BitVec Width)) :
    Prop where
  wptr : s.wptr.At Depth wpos
  rptr : s.rptr.At Depth rpos
  apart : wpos = rpos + q.length ∨ wpos + 2 * Depth = rpos + q.length
  held : Held Depth s.storage rpos q

theorem place_eq_mod {p : FifoPtr (fifoSyncPtrWidth Depth)} {pos : ℕ} (h : p.At Depth pos) :
    place p.ptr_o = pos % Depth := by
  unfold place
  split_ifs with hone
  · rw [hone, Nat.mod_one]
  · exact h.stands.value_eq_mod

/-- The place of a pointer in the width of the depth. -/
theorem toNat_value {p : FifoPtr (fifoSyncPtrWidth Depth)} {pos : ℕ} (h : p.At Depth pos) :
    ((ptrValue p.ptr_o).setWidth (fifoSyncDepthW Depth)).toNat =
      if pos < Depth then pos else pos - Depth := by
  have hlt : (ptrValue p.ptr_o).toNat < Depth := h.stands.value_lt
  have hfits : Depth < 2 ^ fifoSyncDepthW Depth := le_two_pow_vbits (Depth + 1)
  rw [BitVec.toNat_setWidth, Nat.mod_eq_of_lt (hlt.trans hfits)]
  exact h.stands.value

theorem sub_add_mod_eq {a b c M : ℕ} (hb : b ≤ M) (hc : a = b + c) (hcM : c < M) :
    (M - b + a) % M = c := by
  rw [show M - b + a = M + c by omega, Nat.add_mod_left, Nat.mod_eq_of_lt hcM]

theorem holdsQueue_reset (hDepth : 0 < Depth) (Secure : Bool) (storage : ℕ → BitVec Width) :
    (reset Secure storage : FifoSync Depth Width).HoldsQueue 0 0 [] :=
  ⟨FifoPtr.at_reset hDepth Secure, FifoPtr.at_reset hDepth Secure, .inl rfl, .nil Depth storage 0⟩

/-- The outputs of a cycle as those of a queue; `live` is not under reset. -/
structure ShowsQueue (Pass live : Bool) (q : List (BitVec Width)) (i : FifoSyncIn Width)
    (o : FifoSyncOut Depth Width) : Prop where
  depth : o.depth_o.toNat = q.length
  length_le : q.length ≤ Depth
  full : o.full_o = true ↔ q.length = Depth
  wready : o.wready_o = true ↔ live = true ∧ q.length < Depth
  rvalid : o.rvalid_o = true ↔ live = true ∧ (q ≠ [] ∨ Pass = true ∧ i.wvalid_i = true)
  rdata : o.rvalid_o = true → o.rdata_o = q.headD i.wdata_i
  err : o.err_o = false

namespace HoldsQueue

variable {s : FifoSync Depth Width} {wpos rpos : ℕ} {q : List (BitVec Width)}
  (h : s.HoldsQueue wpos rpos q)

include h

theorem full_iff : s.full = true ↔ q.length = Depth := by
  have hw := h.wptr.stands.lt
  have hr := h.rptr.stands.lt
  have hle := h.held.length_le
  have hapart := h.apart
  rw [full, decide_eq_true_iff, fifo_wptr, fifo_rptr, h.wptr.stands.eq_xor_iff h.rptr.stands]
  omega

theorem empty_iff : s.fifo_empty = true ↔ q = [] := by
  have hw := h.wptr.stands.lt
  have hr := h.rptr.stands.lt
  have hle := h.held.length_le
  have hapart := h.apart
  rw [fifo_empty, decide_eq_true_iff, fifo_wptr, fifo_rptr, h.wptr.stands.eq_iff h.rptr.stands,
    ← List.length_eq_zero_iff]
  omega

/-- The three cases of the depth agree with the distance of the pointers. -/
theorem depth_eq : s.depth_o.toNat = q.length := by
  have hw := h.wptr.stands.lt
  have hr := h.rptr.stands.lt
  have hle := h.held.length_le
  have hapart := h.apart
  have hfits : Depth < 2 ^ fifoSyncDepthW Depth := le_two_pow_vbits (Depth + 1)
  have hmsb : ptrMsb s.fifo_wptr = ptrMsb s.fifo_rptr ↔ (Depth ≤ wpos ↔ Depth ≤ rpos) := by
    rw [ptrMsb, ptrMsb, fifo_wptr, fifo_rptr, h.wptr.stands.msb, h.rptr.stands.msb,
      decide_eq_decide]
  have hfull := h.full_iff
  unfold depth_o
  split_ifs with hf hturn
  · rw [BitVec.toNat_ofNat, Nat.mod_eq_of_lt hfits, hfull.mp hf]
  · rw [hmsb] at hturn
    rw [hfull] at hf
    rw [BitVec.toNat_sub, fifo_wptr, fifo_rptr, toNat_value h.wptr, toNat_value h.rptr]
    refine sub_add_mod_eq ?_ ?_ (by omega)
    all_goals split_ifs <;> omega
  · rw [hmsb] at hturn
    rw [hfull] at hf
    rw [BitVec.toNat_add, BitVec.toNat_sub, fifo_wptr, fifo_rptr, toNat_value h.wptr,
      toNat_value h.rptr, BitVec.toNat_ofNat, Nat.mod_eq_of_lt hfits, Nat.mod_add_mod,
      Nat.add_assoc]
    refine sub_add_mod_eq ?_ ?_ (by omega)
    all_goals split_ifs <;> omega

theorem wready_iff : s.wready_o = true ↔ q.length < Depth ∧ s.under_rst = false := by
  have hle := h.held.length_le
  rw [wready_o, Bool.and_eq_true, Bool.not_eq_true', Bool.not_eq_true', ← Bool.not_eq_true,
    h.full_iff]
  exact and_congr_left fun _ => by omega

/-- The word that is written is the one that the queue takes in. -/
theorem accepted_eq (i : FifoSyncIn Width) :
    accepted Depth q (cycle i s.under_rst) = if s.fifo_incr_wptr i then [i.wdata_i] else [] := by
  refine if_congr ?_ rfl rfl
  have hready := h.wready_iff
  cases hvalid : i.wvalid_i <;> cases hrst : s.under_rst <;>
    simp [cycle, fifo_incr_wptr, hvalid, hrst] at hready ⊢
  exact hready.symm

/-- What the FIFO shows to its reader. -/
theorem offered_eq (Pass OutputZeroIfEmpty : Bool) (i : FifoSyncIn Width)
    (hrst : s.under_rst = false) : offered Pass q (cycle i s.under_rst) =
      if s.rvalid_o Pass i then some (s.rdata_o Pass OutputZeroIfEmpty i) else none := by
  have hempty := h.empty_iff
  cases q with
  | nil =>
    have hfifo : s.fifo_empty = true := hempty.mpr rfl
    cases Pass <;> cases hvalid : i.wvalid_i <;> cases OutputZeroIfEmpty <;>
      simp [offered, cycle, rvalid_o, rdata_o, empty, rdata_int, hfifo, hrst, hvalid]
  | cons x q =>
    have hfifo : s.fifo_empty = false := by simpa using mt hempty.mp (List.cons_ne_nil x q)
    have hread : s.storage_rdata = x := by
      rw [storage_rdata, fifo_rptr, place_eq_mod h.rptr]
      exact h.held.head
    cases Pass <;> cases OutputZeroIfEmpty <;>
      simp [offered, rvalid_o, rdata_o, empty, rdata_int, hfifo, hrst, hread]

/-- The word that is read is the one that the queue delivers. -/
theorem delivered_eq (Pass OutputZeroIfEmpty : Bool) (i : FifoSyncIn Width) :
    delivered Pass q (cycle i s.under_rst) =
      if s.fifo_incr_rptr Pass i then [s.rdata_o Pass OutputZeroIfEmpty i] else [] := by
  cases hrst : s.under_rst with
  | true => simp [delivered, cycle, fifo_incr_rptr, hrst]
  | false =>
    have hoffered := h.offered_eq Pass OutputZeroIfEmpty i hrst
    rw [hrst] at hoffered
    rw [delivered, hoffered]
    cases hready : i.rready_i <;> cases hvalid : s.rvalid_o Pass i <;>
      simp [cycle, fifo_incr_rptr, hrst, hready, hvalid]

theorem wptr_clock (hDepth : 0 < Depth) (Pass : Bool) (i : FifoSyncIn Width) :
    (s.clock Pass i).wptr.At Depth
      (if i.clr_i then 0 else if s.fifo_incr_wptr i then advance Depth wpos else wpos) :=
  h.wptr.clock hDepth (le_two_pow_vbits Depth) i.clr_i (s.fifo_incr_wptr i)

theorem rptr_clock (hDepth : 0 < Depth) (Pass : Bool) (i : FifoSyncIn Width) :
    (s.clock Pass i).rptr.At Depth
      (if i.clr_i then 0 else if s.fifo_incr_rptr Pass i then advance Depth rpos else rpos) :=
  h.rptr.clock hDepth (le_two_pow_vbits Depth) i.clr_i (s.fifo_incr_rptr Pass i)

/-- A clock edge that does not clear the queue. -/
theorem clock_keep (hDepth : 0 < Depth) (Pass : Bool) (i : FifoSyncIn Width)
    (hclr : i.clr_i = false) : ∃ wpos' rpos', (s.clock Pass i).HoldsQueue wpos' rpos'
      (next Depth Pass q (cycle i s.under_rst)) := by
  have hwptr := h.wptr_clock hDepth Pass i
  have hrptr := h.rptr_clock hDepth Pass i
  have haccepted := h.accepted_eq i
  have hdelivered := h.delivered_eq Pass false i
  have hstart : delivered Pass q (cycle i s.under_rst) <+:
      q ++ accepted Depth q (cycle i s.under_rst) := delivered_le hDepth
  have hw := h.wptr.stands.lt
  have hr := h.rptr.stands.lt
  have hapart := h.apart
  rw [hclr, if_neg Bool.false_ne_true] at hwptr hrptr
  -- the write first, at the place behind the last word
  have hpushed : Held Depth (s.clock Pass i).storage rpos (q ++ accepted Depth q
      (cycle i s.under_rst)) := by
    rw [haccepted]
    cases hincr : s.fifo_incr_wptr i with
    | false => simpa [clock, hincr] using h.held
    | true =>
      have hready : s.wready_o = true := by
        rw [fifo_incr_wptr, Bool.and_eq_true, Bool.and_eq_true] at hincr
        exact hincr.1.2
      have hplace : place s.fifo_wptr = (rpos + q.length) % Depth := by
        rw [fifo_wptr, place_eq_mod h.wptr]
        obtain hapart | hapart := hapart
        · rw [hapart]
        · rw [← hapart, Nat.mul_comm, Nat.add_mul_mod_self_left]
      have hpush := h.held.push (h.wready_iff.mp hready).1 i.wdata_i
      simpa [clock, hincr, hplace] using hpush
  have hlength := congrArg List.length haccepted
  have hnext : next Depth Pass q (cycle i s.under_rst) =
      (q ++ accepted Depth q (cycle i s.under_rst)).drop
        (delivered Pass q (cycle i s.under_rst)).length := by
    rw [next, show (cycle i s.under_rst).clear = false from hclr, if_neg Bool.false_ne_true]
  have hshort := hpushed.length_le
  rw [hdelivered] at hstart
  have hdeliveredle := hstart.length_le
  rw [hnext, hdelivered]
  refine ⟨_, _, hwptr, hrptr, ?_, ?_⟩
  · rw [List.length_drop]
    rw [List.length_append, hlength] at hshort hdeliveredle ⊢
    have hwadvance := advance_cases Depth wpos
    have hradvance := advance_cases Depth rpos
    cases hwrite : s.fifo_incr_wptr i <;> cases hread : s.fifo_incr_rptr Pass i <;>
      simp [hwrite, hread] at hshort hdeliveredle ⊢ <;> omega
  · cases hincr : s.fifo_incr_rptr Pass i with
    | false => simpa using hpushed
    | true =>
      rw [hincr, if_pos rfl] at hstart
      obtain ⟨rest, hrest⟩ := hstart
      rw [← hrest] at hpushed ⊢
      refine hpushed.tail.congr ?_
      simp only [if_true, advance]
      split_ifs with hlast
      · rw [hlast, Nat.mul_mod_left, Nat.zero_mod]
      · rfl

theorem clock (hDepth : 0 < Depth) (Pass : Bool) (i : FifoSyncIn Width) :
    ∃ wpos' rpos', (s.clock Pass i).HoldsQueue wpos' rpos'
      (next Depth Pass q (cycle i s.under_rst)) := by
  cases hclr : i.clr_i with
  | false => exact h.clock_keep hDepth Pass i hclr
  | true =>
    have hwptr := h.wptr_clock hDepth Pass i
    have hrptr := h.rptr_clock hDepth Pass i
    rw [hclr, if_pos rfl] at hwptr hrptr
    rw [next_clear (show (cycle i s.under_rst).clear = true from hclr)]
    exact ⟨0, 0, hwptr, hrptr, .inl rfl, .nil Depth _ 0⟩

theorem shows (Pass OutputZeroIfEmpty : Bool) (i : FifoSyncIn Width) :
    ShowsQueue Pass (!s.under_rst) q i (s.out Pass OutputZeroIfEmpty i) where
  depth := h.depth_eq
  length_le := h.held.length_le
  full := h.full_iff
  wready := by
    rw [Bool.not_eq_true', and_comm]
    exact h.wready_iff
  rvalid := by
    have hempty := h.empty_iff
    show s.rvalid_o Pass i = true ↔ _
    cases hrst : s.under_rst <;> cases hfifo : s.fifo_empty <;> cases Pass <;>
      cases hvalid : i.wvalid_i <;> simp [rvalid_o, empty, hrst, hfifo, hvalid] at hempty ⊢ <;>
      exact hempty
  rdata := by
    intro hvalid
    have hrst : s.under_rst = false := by
      rw [out, rvalid_o, Bool.and_eq_true, Bool.not_eq_true', Bool.not_eq_true'] at hvalid
      exact hvalid.2
    have hoffered := (h.offered_eq Pass OutputZeroIfEmpty i hrst).trans (if_pos hvalid)
    unfold offered at hoffered
    cases q with
    | nil =>
      split_ifs at hoffered
      · exact (Option.some.inj hoffered).symm
      · cases hoffered
    | cons x q => exact (Option.some.inj hoffered).symm
  err := by
    show (s.wptr.err || s.rptr.err) = false
    rw [h.wptr.err_eq_false, h.rptr.err_eq_false, Bool.or_self]

end HoldsQueue

theorem fifo_incr_wptr_iff (s : FifoSync Depth Width) (i : FifoSyncIn Width) :
    s.fifo_incr_wptr i = true ↔ i.wvalid_i = true ∧ s.wready_o = true := by
  cases h : s.under_rst <;> simp [fifo_incr_wptr, wready_o, h]

theorem fifo_incr_rptr_iff (Pass : Bool) (s : FifoSync Depth Width) (i : FifoSyncIn Width) :
    s.fifo_incr_rptr Pass i = true ↔ s.rvalid_o Pass i = true ∧ i.rready_i = true := by
  cases h : s.under_rst <;> simp [fifo_incr_rptr, rvalid_o, h]

theorem under_rst_clock (Pass : Bool) (s : FifoSync Depth Width) (i : FifoSyncIn Width) :
    (s.clock Pass i).under_rst = false := by
  show (if s.under_rst then !s.under_rst else s.under_rst) = false
  cases s.under_rst <;> rfl

/-! ### The plain pointers -/

/-- The FIFO with plain pointers. -/
def plain (s : FifoSync Depth Width) : FifoSync Depth Width :=
  { s with wptr := .normal s.wptr.ptr_o, rptr := .normal s.rptr.ptr_o }

section Plain

variable {s : FifoSync Depth Width} {wpos rpos : ℕ} {q : List (BitVec Width)}

theorem out_plain (h : s.HoldsQueue wpos rpos q) (Pass OutputZeroIfEmpty : Bool)
    (i : FifoSyncIn Width) :
    s.plain.out Pass OutputZeroIfEmpty i = s.out Pass OutputZeroIfEmpty i := by
  have herr : (s.wptr.err || s.rptr.err) = false := by
    rw [h.wptr.err_eq_false, h.rptr.err_eq_false, Bool.or_self]
  ext1
  case err_o => exact herr.symm
  all_goals rfl

theorem clock_plain (h : s.HoldsQueue wpos rpos q) (Pass : Bool) (i : FifoSyncIn Width) :
    s.plain.clock Pass i = (s.clock Pass i).plain := by
  have hk : Depth ≤ 2 ^ fifoSyncPtrvW Depth := le_two_pow_vbits Depth
  have hw := h.wptr.ptr_o_clock hk i.clr_i (s.fifo_incr_wptr i)
  have hr := h.rptr.ptr_o_clock hk i.clr_i (s.fifo_incr_rptr Pass i)
  ext1
  case wptr => exact congrArg FifoPtr.normal hw.symm
  case rptr => exact congrArg FifoPtr.normal hr.symm
  all_goals rfl

end Plain

/-! ### Runs -/

section Run

variable (Pass OutputZeroIfEmpty Secure : Bool) (storage : ℕ → BitVec Width)
  (inputs : ℕ → FifoSyncIn Width)

/-- The registers in a cycle, from reset on. -/
def after (n : ℕ) : FifoSync Depth Width := stateAt (clock Pass) (reset Secure storage) inputs n

/-- The outputs of a cycle. -/
def outAt (n : ℕ) : FifoSyncOut Depth Width :=
  (after Pass Secure storage inputs n).out Pass OutputZeroIfEmpty (inputs n)

/-- The cycles of the queue; in the first one the FIFO is still under reset. -/
def cycleAt (n : ℕ) : Exchange (BitVec Width) := cycle (inputs n) (n == 0)

/-- The bounded queue that has taken part in the cycles before. -/
def queueAfter (Depth : ℕ) (n : ℕ) : List (BitVec Width) :=
  stateAt (next Depth Pass) [] (cycleAt inputs) n

/-- The word written in a cycle, seen at the ports. -/
def written (Depth : ℕ) (n : ℕ) : List (BitVec Width) :=
  let o : FifoSyncOut Depth Width := outAt Pass OutputZeroIfEmpty Secure storage inputs n
  if (inputs n).wvalid_i ∧ o.wready_o then [(inputs n).wdata_i] else []

/-- The word read in a cycle, seen at the ports. -/
def read (Depth : ℕ) (n : ℕ) : List (BitVec Width) :=
  let o : FifoSyncOut Depth Width := outAt Pass OutputZeroIfEmpty Secure storage inputs n
  if o.rvalid_o ∧ (inputs n).rready_i then [o.rdata_o] else []

variable {Pass OutputZeroIfEmpty Secure storage inputs}

theorem under_rst_after (n : ℕ) :
    (after Pass Secure storage inputs n : FifoSync Depth Width).under_rst = (n == 0) := by
  cases n with
  | zero => rfl
  | succ n => exact under_rst_clock _ _ _

theorem holdsQueue_after (hDepth : 0 < Depth) (n : ℕ) : ∃ wpos rpos,
    (after Pass Secure storage inputs n : FifoSync Depth Width).HoldsQueue wpos rpos
      (queueAfter Pass inputs Depth n) := by
  induction n with
  | zero => exact ⟨0, 0, holdsQueue_reset hDepth Secure storage⟩
  | succ n ih =>
    obtain ⟨wpos, rpos, h⟩ := ih
    have hclock := h.clock hDepth Pass (inputs n)
    rw [under_rst_after] at hclock
    exact hclock

/-- The hardened pointers run like the plain ones. -/
theorem plain_after (hDepth : 0 < Depth) (n : ℕ) :
    (after Pass Secure storage inputs n : FifoSync Depth Width).plain =
      after Pass false storage inputs n := by
  induction n with
  | zero => cases Secure <;> rfl
  | succ n ih =>
    obtain ⟨wpos, rpos, h⟩ : ∃ wpos rpos, (after Pass Secure storage inputs n :
        FifoSync Depth Width).HoldsQueue wpos rpos _ := holdsQueue_after hDepth n
    exact (clock_plain h Pass (inputs n)).symm.trans (congrArg (clock Pass · (inputs n)) ih)

theorem outAt_plain (hDepth : 0 < Depth) (n : ℕ) :
    (outAt Pass OutputZeroIfEmpty Secure storage inputs n : FifoSyncOut Depth Width) =
      outAt Pass OutputZeroIfEmpty false storage inputs n := by
  obtain ⟨wpos, rpos, h⟩ : ∃ wpos rpos, (after Pass Secure storage inputs n :
      FifoSync Depth Width).HoldsQueue wpos rpos _ := holdsQueue_after hDepth n
  rw [outAt, ← out_plain h, plain_after hDepth]
  rfl

theorem accepted_after (hDepth : 0 < Depth) (n : ℕ) :
    accepted Depth (queueAfter Pass inputs Depth n) (cycleAt inputs n) =
      written Pass OutputZeroIfEmpty Secure storage inputs Depth n := by
  obtain ⟨wpos, rpos, h⟩ : ∃ wpos rpos, (after Pass Secure storage inputs n :
      FifoSync Depth Width).HoldsQueue wpos rpos _ := holdsQueue_after hDepth n
  have haccepted := h.accepted_eq (inputs n)
  rw [under_rst_after] at haccepted
  rw [cycleAt, haccepted, written]
  exact if_congr (fifo_incr_wptr_iff _ _) rfl rfl

theorem delivered_after (hDepth : 0 < Depth) (n : ℕ) :
    delivered Pass (queueAfter Pass inputs Depth n) (cycleAt inputs n) =
      read Pass OutputZeroIfEmpty Secure storage inputs Depth n := by
  obtain ⟨wpos, rpos, h⟩ : ∃ wpos rpos, (after Pass Secure storage inputs n :
      FifoSync Depth Width).HoldsQueue wpos rpos _ := holdsQueue_after hDepth n
  have hdelivered := h.delivered_eq Pass OutputZeroIfEmpty (inputs n)
  rw [under_rst_after] at hdelivered
  rw [cycleAt, hdelivered, read]
  exact if_congr (fifo_incr_rptr_iff _ _ _) rfl rfl

theorem showsQueue_after (hDepth : 0 < Depth) (n : ℕ) :
    ShowsQueue Pass (n != 0) (queueAfter Pass inputs Depth n) (inputs n)
      (outAt Pass OutputZeroIfEmpty Secure storage inputs n : FifoSyncOut Depth Width) := by
  obtain ⟨wpos, rpos, h⟩ : ∃ wpos rpos, (after Pass Secure storage inputs n :
      FifoSync Depth Width).HoldsQueue wpos rpos _ := holdsQueue_after hDepth n
  have hshows := h.shows Pass OutputZeroIfEmpty (inputs n)
  rw [under_rst_after] at hshows
  exact hshows

variable (Pass OutputZeroIfEmpty Secure storage inputs)

/-- In every cycle after reset the FIFO shows the queue, and without a clear what is written
is read in order. The hardened pointers change nothing, and never report an error. -/
theorem fifo_sync_refines_queue (hDepth : 0 < Depth) :
    (∀ n, ShowsQueue Pass (n != 0) (queueAfter Pass inputs Depth n) (inputs n)
      (outAt Pass OutputZeroIfEmpty Secure storage inputs n : FifoSyncOut Depth Width)) ∧
    (queueAfter Pass inputs Depth 0 = [] ∧
      ∀ n, (inputs n).clr_i = true → queueAfter Pass inputs Depth (n + 1) = []) ∧
    (∀ m len, (∀ k < len, (inputs (m + k)).clr_i = false) →
      queueAfter Pass inputs Depth m ++
          collect (written Pass OutputZeroIfEmpty Secure storage inputs Depth) m len =
        collect (read Pass OutputZeroIfEmpty Secure storage inputs Depth) m len ++
          queueAfter Pass inputs Depth (m + len) ∧
      collect (read Pass OutputZeroIfEmpty Secure storage inputs Depth) m (len + 1) <+:
        queueAfter Pass inputs Depth m ++
          collect (written Pass OutputZeroIfEmpty Secure storage inputs Depth) m (len + 1)) ∧
    ∀ n, (outAt Pass OutputZeroIfEmpty Secure storage inputs n : FifoSyncOut Depth Width) =
      outAt Pass OutputZeroIfEmpty false storage inputs n := by
  refine ⟨showsQueue_after hDepth, ⟨rfl, fun n hclr => next_clear hclr⟩, ?_, outAt_plain hDepth⟩
  intro m len hclr
  have hqueue : ∀ n, queueAfter Pass inputs Depth (n + 1) =
      next Depth Pass (queueAfter Pass inputs Depth n) (cycleAt inputs n) := fun _ => rfl
  have hclear : ∀ k < len, (cycleAt inputs (m + k)).clear = false := hclr
  have hwritten : (fun n => accepted Depth (queueAfter Pass inputs Depth n) (cycleAt inputs n)) =
      written Pass OutputZeroIfEmpty Secure storage inputs Depth := funext (accepted_after hDepth)
  have hread : (fun n => delivered Pass (queueAfter Pass inputs Depth n) (cycleAt inputs n)) =
      read Pass OutputZeroIfEmpty Secure storage inputs Depth := funext (delivered_after hDepth)
  rw [← hwritten, ← hread]
  exact ⟨run_conserved hDepth hqueue hclear, run_delivered_le hDepth hqueue hclear⟩

end Run

/-- Words that come in every cycle, read in every second one. -/
def halfRate (n : ℕ) : FifoSyncIn 8 := ⟨false, true, BitVec.ofNat 8 n, n % 2 == 0⟩

theorem fifo_sync_refines_queue_three :
    ShowsQueue true true [3, 4, 5] (halfRate 6)
      (outAt true true true (fun _ => 0) halfRate 6 : FifoSyncOut 3 8) :=
  (fifo_sync_refines_queue true true true (fun _ => 0) halfRate (by decide : 0 < 3)).1 6

end FifoSync

end SecureBoot
