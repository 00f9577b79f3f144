import SecureBoot.Lib.BitWindow
import SecureBoot.Lib.Clocked
import SecureBoot.Prim.Packer

/-! The packer loses no bit. What is stored are the bits under a mask of ones from the lowest
bit on, as many as the position says; a word that comes in is put on top of them, and one
that goes out takes the lowest of them. -/

namespace SecureBoot

open BitCount BitWindow Mealy

namespace Packer

variable {InW OutW : ℕ}

/-! ### The loops over the mask -/

theorem lt_two_pow_onesCntW (InW : ℕ) : InW < 2 ^ packerOnesCntW InW :=
  Nat.lt_of_succ_le (Nat.le_pow_clog Nat.one_lt_two _)

theorem lt_two_pow_ptrW (InW OutW : ℕ) : packerConcatW InW OutW < 2 ^ packerPtrW InW OutW :=
  Nat.lt_of_succ_le (Nat.le_pow_clog Nat.one_lt_two _)

theorem count_concat (f : ℕ → Bool) (n : ℕ) : count f (n + 1) = count f n + (f n).toNat := by
  rw [count, List.range_succ, List.countP_append, List.countP_singleton]
  cases f n <;> rfl

theorem count_le (f : ℕ → Bool) (n : ℕ) : count f n ≤ n := by
  rw [count]
  exact List.countP_le_length.trans_eq List.length_range

/-- The counter of the ones does not overflow. -/
theorem toNat_inmask_ones (mask_i : BitVec InW) :
    (inmask_ones mask_i).toNat = count mask_i.getLsbD InW := by
  have hloop : ∀ n ≤ InW, ((List.range n).foldl (fun (ones : BitVec (packerOnesCntW InW)) i =>
      ones + (BitVec.ofBool (mask_i.getLsbD i)).setWidth (packerOnesCntW InW)) 0).toNat =
        count mask_i.getLsbD n := by
    intro n hn
    induction n with
    | zero => simp [count]
    | succ n ih =>
      have hle := count_le mask_i.getLsbD n
      have hlt := lt_two_pow_onesCntW InW
      rw [List.range_succ, List.foldl_append, List.foldl_cons, List.foldl_nil, BitVec.toNat_add,
        ih (by omega), BitVec.toNat_setWidth, BitVec.toNat_ofBool, Nat.add_mod_mod, count_concat]
      apply Nat.mod_eq_of_lt
      have := Bool.toNat_le (mask_i.getLsbD n)
      omega
  exact hloop InW (Nat.le_refl InW)

/-- The last assignment of the loop is that of the lowest one. -/
theorem toNat_lod_idx {mask_i : BitVec InW} {lo n : ℕ} (h : Ones mask_i lo n) (hn : 0 < n) :
    (lod_idx mask_i).toNat = lo := by
  have hle := h.le
  have hloop : ∀ k (init : BitVec (packerIdxW InW)), (List.range k).reverse.foldl
      (fun idx i => if mask_i.getLsbD i then BitVec.ofNat _ i else idx) init =
        if lo < k then BitVec.ofNat _ lo else init := by
    intro k
    induction k with
    | zero => exact fun init => rfl
    | succ k ih =>
      intro init
      rw [List.range_succ, List.reverse_append, List.reverse_singleton, List.singleton_append,
        List.foldl_cons, ih]
      obtain hk | rfl | hk := Nat.lt_trichotomy lo k
      · rw [if_pos hk, if_pos (by omega)]
      · rw [if_neg (Nat.lt_irrefl lo), h.bit, decide_eq_true (by omega), if_pos rfl,
          if_pos (Nat.lt_succ_self lo)]
      · rw [if_neg (by omega), h.bit, decide_eq_false (by omega), if_neg Bool.false_ne_true,
          if_neg (by omega)]
  rw [lod_idx, hloop, if_pos (by omega), BitVec.toNat_ofNat]
  exact Nat.mod_eq_of_lt (Nat.lt_of_lt_of_le (by omega) (le_two_pow_vbits InW))

/-! ### The words of a cycle -/

section Concat

variable {r : Packer InW OutW} {i : PackerIn InW} {p lo n : ℕ}

theorem getLsbD_shiftr_mask (hvalid : i.valid_i = true) (h : Ones i.mask_i lo n) (j : ℕ) :
    (shiftr_mask i).getLsbD j = decide (j < n) := by
  rw [shiftr_mask, if_pos hvalid, BitVec.getLsbD_ushiftRight, h.bit]
  obtain rfl | hn := Nat.eq_zero_or_pos n
  · rw [decide_eq_decide]
    omega
  · rw [toNat_lod_idx h hn, decide_eq_decide]
    omega

theorem getLsbD_shiftr_data (hvalid : i.valid_i = true) (h : Ones i.mask_i lo n) {j : ℕ}
    (hj : j < n) : (shiftr_data i).getLsbD j = i.data_i.getLsbD (lo + j) := by
  rw [shiftr_data, if_pos hvalid, BitVec.getLsbD_ushiftRight, toNat_lod_idx h (by omega)]

variable (hvalid : i.valid_i = true) (h : Ones i.mask_i lo n) (hpos : r.pos_q.toNat = p)
  (hmask : Ones r.stored_mask 0 p)

include hvalid h hpos hmask

theorem getLsbD_concat_mask (k : ℕ) : (r.concat_mask i).getLsbD k = decide (k < p + n) := by
  have hle := h.le
  have hp := hmask.le
  have hwidth : packerConcatW InW OutW = packerWidth InW OutW + InW := rfl
  rw [concat_mask, shiftl_mask, hpos, BitVec.getLsbD_or, BitVec.getLsbD_setWidth, hmask.bit,
    BitVec.getLsbD_shiftLeft, BitVec.getLsbD_setWidth, getLsbD_shiftr_mask hvalid h,
    Bool.eq_iff_iff]
  simp
  omega

omit hvalid h in
theorem getLsbD_concat_data_low {k : ℕ} (hk : k < p) :
    (r.concat_data i).getLsbD k = r.stored_data.getLsbD k := by
  have hp := hmask.le
  have hwidth : packerConcatW InW OutW = packerWidth InW OutW + InW := rfl
  rw [concat_data, shiftl_mask, hpos, BitVec.getLsbD_or, BitVec.getLsbD_setWidth,
    BitVec.getLsbD_and, BitVec.getLsbD_and, hmask.bit, BitVec.getLsbD_shiftLeft]
  simp [hk, show k < packerConcatW InW OutW by omega]

theorem getLsbD_concat_data_high {j : ℕ} (hj : j < n) :
    (r.concat_data i).getLsbD (p + j) = i.data_i.getLsbD (lo + j) := by
  have hle := h.le
  have hp := hmask.le
  have hwidth : packerConcatW InW OutW = packerWidth InW OutW + InW := rfl
  rw [concat_data, shiftl_mask, shiftl_data, hpos, BitVec.getLsbD_or, BitVec.getLsbD_setWidth,
    BitVec.getLsbD_and, BitVec.getLsbD_and, hmask.bit, BitVec.getLsbD_shiftLeft,
    BitVec.getLsbD_shiftLeft, BitVec.getLsbD_setWidth, BitVec.getLsbD_setWidth,
    Nat.add_sub_cancel_left, getLsbD_shiftr_mask hvalid h, getLsbD_shiftr_data hvalid h hj]
  simp [hj, show p + j < packerConcatW InW OutW by omega, show j < packerConcatW InW OutW by omega]

end Concat

/-! ### The position -/

/-- The storage is filled with `p` bits. -/
structure Filled (r : Packer InW OutW) (p : ℕ) : Prop where
  pos : r.pos_q.toNat = p
  mask : Ones r.stored_mask 0 p
  consistent : ∀ u, r.pos = .dupcnt u → u.Consistent

theorem filled_reset (EnProtection : Bool) : (reset EnProtection : Packer InW OutW).Filled 0 := by
  refine ⟨?_, Ones.zero _, ?_⟩
  · cases EnProtection <;> rfl
  · intro u hu
    cases EnProtection with
    | false => simp [reset, PackerPos.reset] at hu
    | true =>
      obtain rfl : primCountReset 0 = u := by simpa [reset, PackerPos.reset] using hu
      exact CountRegs.consistent_reset 0

section Position

variable {r : Packer InW OutW} {i : PackerIn InW} {p : ℕ}

theorem ready_o_iff (hpos : r.pos_q.toNat = p) : r.ready_o = true ↔ p ≤ OutW := by
  rw [ready_o, decide_eq_true_iff, hpos]

theorem ack_in_iff (hpos : r.pos_q.toNat = p) :
    r.ack_in i = true ↔ i.valid_i = true ∧ p ≤ OutW := by
  rw [ack_in, Bool.and_eq_true, ready_o_iff hpos]

theorem flush_done_iff (hpos : r.pos_q.toNat = p) :
    r.flush_done = true ↔ r.flush_st = .FlushSend ∧ p = 0 := by
  rw [flush_done, decide_eq_true_iff, ← hpos]
  exact and_congr_right fun _ => BitVec.toNat_inj.symm

theorem valid_o_iff (hpos : r.pos_q.toNat = p) :
    r.valid_o = true ↔ OutW ≤ p ∨ r.flush_st = .FlushSend ∧ p ≠ 0 := by
  have hzero : r.pos_q = 0#(packerPtrW InW OutW) ↔ p = 0 := by
    rw [← hpos]
    exact BitVec.toNat_inj.symm
  rw [valid_o, hpos, flush_valid]
  by_cases h : OutW ≤ p
  · simp [h]
  · simp [h, hzero]

/-- How far the position moves. -/
def posAfter (r : Packer InW OutW) (i : PackerIn InW) (p : ℕ) : ℕ :=
  (p + if r.ack_in i then count i.mask_i.getLsbD InW else 0) - if r.ack_out i then OutW else 0

theorem toNat_pos_with_input (hpos : r.pos_q.toNat = p) (hp : p ≤ packerWidth InW OutW) :
    (r.pos_with_input i).toNat = p + count i.mask_i.getLsbD InW := by
  have hle := count_le i.mask_i.getLsbD InW
  have hlt := lt_two_pow_ptrW InW OutW
  have hwidth : packerConcatW InW OutW = packerWidth InW OutW + InW := rfl
  rw [pos_with_input, BitVec.toNat_add, hpos, BitVec.toNat_setWidth, toNat_inmask_ones,
    Nat.add_mod_mod, Nat.mod_eq_of_lt (by omega)]

theorem toNat_ofNat_outW (InW OutW : ℕ) :
    (BitVec.ofNat (packerPtrW InW OutW) OutW).toNat = OutW := by
  have hlt := lt_two_pow_ptrW InW OutW
  have hwidth : packerConcatW InW OutW = InW + OutW + InW := rfl
  rw [BitVec.toNat_ofNat, Nat.mod_eq_of_lt (by omega)]

/-- A subtraction that stops at zero. -/
theorem toNat_sub_outW (x : BitVec (packerPtrW InW OutW)) :
    (if x.toNat ≤ OutW then 0 else x - BitVec.ofNat _ OutW).toNat = x.toNat - OutW := by
  have hout := toNat_ofNat_outW InW OutW
  split_ifs with hle
  · rw [Nat.sub_eq_zero_of_le hle]
    exact BitVec.toNat_zero
  · rw [BitVec.toNat_sub_of_le (by rw [BitVec.le_def]; omega), hout]

theorem toNat_pos_d (hpos : r.pos_q.toNat = p) (hp : p ≤ packerWidth InW OutW) :
    (r.pos_d i).toNat = r.posAfter i p := by
  have hinput := toNat_pos_with_input (i := i) hpos hp
  unfold pos_d posAfter
  cases r.ack_in i <;> cases r.ack_out i <;> simp only [Bool.false_eq_true, if_false, if_true]
  · exact hpos
  · rw [toNat_sub_outW, hpos]
    rfl
  · exact hinput
  · rw [toNat_sub_outW, hinput]

/-- The hardened counter moves like the plain register. -/
theorem primCount_u_pos_in {u : CountRegs (packerPtrW InW OutW)} (hpos : u.primary.toNat = p)
    (hr : r.pos_q = u.primary) (hp : p ≤ packerWidth InW OutW) :
    (primCount 0 u (r.u_pos_in i)).primary = if r.flush_done then 0 else r.pos_d i := by
  cases hdone : r.flush_done with
  | true => simp [primCount, u_pos_in, cntD, hdone]
  | false =>
    have hq : r.pos_q.toNat = p := by rw [hr, hpos]
    have hd := toNat_pos_d (i := i) hq hp
    have hinput := toNat_pos_with_input (i := i) hq hp
    have hout := toNat_ofNat_outW InW OutW
    have hle := count_le i.mask_i.getLsbD InW
    have hlt := lt_two_pow_ptrW InW OutW
    have hwidth : packerConcatW InW OutW = packerWidth InW OutW + InW := rfl
    apply BitVec.eq_of_toNat_eq
    rw [if_neg Bool.false_ne_true, hd, posAfter]
    simp only [primCount, u_pos_in, hdone]
    cases hin : r.ack_in i <;> cases hack : r.ack_out i
    · exact (congrArg BitVec.toNat (cntD_hold _ false)).trans hpos
    · simp only [Bool.not_false, Bool.not_true, Bool.and_self, Bool.and_true,
        Bool.false_eq_true, if_false, if_true]
      rw [toNat_cntD_decr, hpos, hout]
      rfl
    · simp only [Bool.not_false, Bool.not_true, Bool.and_self, Bool.and_false,
        Bool.false_eq_true, if_false, if_true]
      rw [toNat_cntD_incr, hpos, BitVec.toNat_setWidth, toNat_inmask_ones,
        Nat.mod_eq_of_lt (by omega)]
      omega
    · simp only [Bool.not_true, Bool.and_self, Bool.and_false, Bool.false_and,
        Bool.false_eq_true, if_false, if_true, cntD]
      have hgt : r.pos_with_input i > BitVec.ofNat _ OutW ↔
          OutW < p + count i.mask_i.getLsbD InW := by
        rw [gt_iff_lt, BitVec.lt_def, hout, hinput]
      rw [apply_ite BitVec.toNat]
      split_ifs with h <;> rw [hgt] at h
      · rw [BitVec.toNat_sub_of_le (by rw [BitVec.le_def]; omega), hout, hinput]
      · rw [Nat.sub_eq_zero_of_le (by omega)]
        exact BitVec.toNat_zero

theorem Filled.le (h : r.Filled p) : p ≤ packerWidth InW OutW := by
  have hle := h.mask.le
  omega

theorem Filled.pos_q_posNext (h : r.Filled p) :
    (r.posNext i).pos_q = if r.flush_done then 0 else r.pos_d i := by
  have hpos := h.pos
  cases hr : r.pos with
  | nodup q => simp [posNext, hr, PackerPos.pos_q]
  | dupcnt u =>
    have hq : r.pos_q = u.primary := by simp [pos_q, hr, PackerPos.pos_q]
    rw [hq] at hpos
    rw [posNext, hr]
    exact primCount_u_pos_in hpos hq h.le

theorem Filled.consistent_posNext (h : r.Filled p) (u : CountRegs (packerPtrW InW OutW))
    (hu : r.posNext i = .dupcnt u) : u.Consistent := by
  cases hr : r.pos with
  | nodup q => simp [posNext, hr] at hu
  | dupcnt v =>
    rw [posNext, hr] at hu
    obtain rfl := PackerPos.dupcnt.inj hu
    exact (h.consistent v hr).primCount 0 _

theorem Filled.err_o (h : r.Filled p) : r.pos.err_o = false := by
  cases hr : r.pos with
  | nodup q => rfl
  | dupcnt u => exact CountRegs.err_o_eq_false (h.consistent u hr)

end Position

/-! ### A cycle -/

/-- What the packer demands of a cycle: masks without holes, and no input from a request to
flush until the flush is done. -/
structure Obeys (r : Packer InW OutW) (i : PackerIn InW) : Prop where
  contiguous : i.valid_i = true → Contiguous i.mask_i
  quiet : i.flush_i = true ∨ r.flush_st = .FlushSend → i.valid_i = false

/-- The bits in the storage. -/
def stored (r : Packer InW OutW) : List Bool := masked r.stored_data r.stored_mask

/-- The bits that an accepted input brings. -/
def accepted (r : Packer InW OutW) (i : PackerIn InW) : List Bool :=
  if r.ack_in i then masked i.data_i i.mask_i else []

/-- The bits that an output word takes along. -/
def emitted (r : Packer InW OutW) (i : PackerIn InW) : List Bool :=
  if r.ack_out i then masked r.data_o r.mask_o else []

namespace Filled

variable {r : Packer InW OutW} {i : PackerIn InW} {p lo n : ℕ} (h : r.Filled p)

include h

theorem stored_eq : r.stored = window r.stored_data.getLsbD 0 p := h.mask.masked_eq _

theorem mask_o : Ones r.mask_o 0 (min p OutW) := by
  refine ⟨by omega, fun k => ?_⟩
  rw [Packer.mask_o, BitVec.getLsbD_setWidth, h.mask.bit, Bool.eq_iff_iff]
  simp
  omega

/-- An output word has the lowest bits. -/
theorem masked_out : masked r.data_o r.mask_o = window r.stored_data.getLsbD 0 (min p OutW) := by
  rw [h.mask_o.masked_eq]
  apply window_congr
  intro j hj
  rw [data_o, BitVec.getLsbD_setWidth]
  simp [show j < OutW by omega]

/-- The storage after an edge, from its four cases. -/
theorem clock_of {p' : ℕ} (hdone : r.flush_done = false) (hp' : r.posAfter i p = p')
    (hmask : Ones (r.storedNext i r.stored_mask (r.concat_mask i)) 0 p') :
    (r.clock i).Filled p' := by
  refine ⟨?_, ?_, fun u hu => h.consistent_posNext u hu⟩
  · show (r.posNext i).pos_q.toNat = p'
    rw [h.pos_q_posNext, hdone, if_neg Bool.false_ne_true, toNat_pos_d h.pos h.le, hp']
  · simpa [clock, hdone] using hmask

theorem step_hold (hdone : r.flush_done = false) (hin : r.ack_in i = false)
    (hout : r.ack_out i = false) :
    (r.clock i).Filled (r.posAfter i p) ∧ (r.clock i).stored = r.stored := by
  have hp : r.posAfter i p = p := by simp [posAfter, hin, hout]
  constructor
  · rw [hp]
    apply h.clock_of hdone hp
    simpa [storedNext, hin, hout] using h.mask
  · simp [stored, clock, hdone, storedNext, hin, hout]

/-- A word goes out and the rest moves down. -/
theorem step_out (hdone : r.flush_done = false) (hin : r.ack_in i = false)
    (hout : r.ack_out i = true) :
    (r.clock i).Filled (r.posAfter i p) ∧
      r.stored = masked r.data_o r.mask_o ++ (r.clock i).stored := by
  have hle := h.le
  have hwidth : packerWidth InW OutW = InW + OutW := rfl
  have hp : r.posAfter i p = p - OutW := by simp [posAfter, hin, hout]
  have hfilled : (r.clock i).Filled (p - OutW) := by
    apply h.clock_of hdone hp
    refine ⟨by omega, fun k => ?_⟩
    simp only [storedNext, hin, hout, BitVec.getLsbD_setWidth, BitVec.getLsbD_extractLsb',
      h.mask.bit]
    rw [Bool.eq_iff_iff]
    simp
    omega
  refine ⟨hp ▸ hfilled, ?_⟩
  have hsplit : p = min p OutW + (p - OutW) := by omega
  rw [h.stored_eq, h.masked_out, hfilled.stored_eq]
  nth_rewrite 1 [hsplit]
  rw [window_add]
  congr 1
  apply window_congr
  intro j hj
  simp only [clock, hdone, storedNext, hin, hout, BitVec.getLsbD_setWidth,
    BitVec.getLsbD_extractLsb', Bool.false_eq_true, if_false]
  simp [show j < packerWidth InW OutW by omega, show j < InW by omega,
    show min p OutW = OutW by omega]

section Input

variable (hvalid : i.valid_i = true) (hones : Ones i.mask_i lo n)

include hvalid hones

theorem window_concat : window (r.concat_data i).getLsbD 0 (p + n) =
    r.stored ++ masked i.data_i i.mask_i := by
  rw [window_add, h.stored_eq, hones.masked_eq]
  congr 1
  · apply window_congr
    intro j hj
    rw [Nat.zero_add]
    exact getLsbD_concat_data_low h.pos h.mask hj
  · apply window_congr
    intro j hj
    rw [Nat.zero_add]
    exact getLsbD_concat_data_high hvalid hones h.pos h.mask hj

/-- A word comes in on top. -/
theorem step_in (hdone : r.flush_done = false) (hin : r.ack_in i = true)
    (hout : r.ack_out i = false) :
    (r.clock i).Filled (r.posAfter i p) ∧
      (r.clock i).stored = r.stored ++ masked i.data_i i.mask_i := by
  have hready := ((ack_in_iff h.pos).mp hin).2
  have hle := hones.le
  have hwidth : packerWidth InW OutW = InW + OutW := rfl
  have hconcat : packerConcatW InW OutW = packerWidth InW OutW + InW := rfl
  have hp : r.posAfter i p = p + n := by simp [posAfter, hin, hout, hones.count_eq]
  have hfilled : (r.clock i).Filled (p + n) := by
    apply h.clock_of hdone hp
    refine ⟨by omega, fun k => ?_⟩
    simp only [storedNext, hin, hout, BitVec.getLsbD_setWidth,
      getLsbD_concat_mask hvalid hones h.pos h.mask]
    rw [Bool.eq_iff_iff]
    simp
    omega
  refine ⟨hp ▸ hfilled, ?_⟩
  rw [hfilled.stored_eq, ← h.window_concat hvalid hones]
  apply window_congr
  intro j hj
  simp only [clock, hdone, storedNext, hin, hout, BitVec.getLsbD_setWidth, Bool.false_eq_true,
    if_false]
  simp [show j < packerWidth InW OutW by omega]

/-- A full word goes out while one comes in behind it. -/
theorem step_both (hfull : p = OutW) (hdone : r.flush_done = false) (hin : r.ack_in i = true)
    (hout : r.ack_out i = true) :
    (r.clock i).Filled (r.posAfter i p) ∧ r.stored ++ masked i.data_i i.mask_i =
      masked r.data_o r.mask_o ++ (r.clock i).stored := by
  have hle := hones.le
  have hwidth : packerWidth InW OutW = InW + OutW := rfl
  have hconcat : packerConcatW InW OutW = packerWidth InW OutW + InW := rfl
  have hp : r.posAfter i p = n := by simp [posAfter, hin, hout, hones.count_eq, hfull]
  have hfilled : (r.clock i).Filled n := by
    apply h.clock_of hdone hp
    refine ⟨by omega, fun k => ?_⟩
    simp only [storedNext, hin, hout, BitVec.getLsbD_setWidth, BitVec.getLsbD_extractLsb',
      getLsbD_concat_mask hvalid hones h.pos h.mask]
    rw [Bool.eq_iff_iff]
    simp
    omega
  refine ⟨hp ▸ hfilled, ?_⟩
  rw [← h.window_concat hvalid hones, h.masked_out, hfilled.stored_eq, hfull, Nat.min_self,
    window_add]
  congr 1
  · apply window_congr
    intro j hj
    rw [Nat.zero_add]
    exact getLsbD_concat_data_low h.pos h.mask (by omega)
  · apply window_congr
    intro j hj
    simp only [clock, hdone, storedNext, hin, hout, BitVec.getLsbD_setWidth,
      BitVec.getLsbD_extractLsb', Bool.false_eq_true, if_false]
    simp [show j < packerWidth InW OutW by omega,
      show j < packerConcatW InW OutW - OutW by omega]

end Input

/-- The end of a flush leaves the storage empty, as it was. -/
theorem step_done (hOut : 0 < OutW) (hdone : r.flush_done = true) :
    r.ack_out i = false ∧ (r.clock i).Filled 0 ∧ r.stored = [] ∧ (r.clock i).stored = [] := by
  obtain ⟨hsend, hzero⟩ := (flush_done_iff h.pos).mp hdone
  subst hzero
  have hfilled : (r.clock i).Filled 0 := by
    refine ⟨?_, ?_, fun u hu => h.consistent_posNext u hu⟩
    · show (r.posNext i).pos_q.toNat = 0
      rw [h.pos_q_posNext, hdone, if_pos rfl]
      exact BitVec.toNat_zero
    · simpa [clock, hdone] using Ones.zero _
  refine ⟨?_, hfilled, ?_, ?_⟩
  · have hvalid : ¬ r.valid_o = true := by
      rw [valid_o_iff h.pos]
      omega
    simp [ack_out, hvalid]
  · rw [h.stored_eq, window_zero]
  · rw [hfilled.stored_eq, window_zero]

/-- A clock edge: the bits keep their order. -/
theorem step (hOut : 0 < OutW) (hobeys : r.Obeys i) :
    (r.clock i).Filled (if r.flush_done then 0 else r.posAfter i p) ∧
      r.stored ++ r.accepted i = r.emitted i ++ (r.clock i).stored := by
  cases hdone : r.flush_done with
  | true =>
    have hvalid := hobeys.quiet (.inr ((flush_done_iff h.pos).mp hdone).1)
    have hin : r.ack_in i = false := by simp [ack_in, hvalid]
    obtain ⟨hout, hfilled, hstored, hclock⟩ := h.step_done hOut hdone
    exact ⟨hfilled, by simp [accepted, emitted, hin, hout, hstored, hclock]⟩
  | false =>
    rw [if_neg Bool.false_ne_true]
    cases hin : r.ack_in i with
    | false =>
      cases hout : r.ack_out i with
      | false =>
        obtain ⟨hfilled, hstored⟩ := h.step_hold hdone hin hout
        exact ⟨hfilled, by simp [accepted, emitted, hin, hout, hstored]⟩
      | true =>
        obtain ⟨hfilled, hstored⟩ := h.step_out hdone hin hout
        exact ⟨hfilled, by simpa [accepted, emitted, hin, hout] using hstored⟩
    | true =>
      obtain ⟨hvalid, hready⟩ := (ack_in_iff h.pos).mp hin
      obtain ⟨lo, n, hones⟩ := (hobeys.contiguous hvalid).exists_ones
      cases hout : r.ack_out i with
      | false =>
        obtain ⟨hfilled, hstored⟩ := h.step_in hvalid hones hdone hin hout
        exact ⟨hfilled, by simp [accepted, emitted, hin, hout, hstored]⟩
      | true =>
        have hidle : r.flush_st ≠ .FlushSend := fun hsend => by
          rw [hobeys.quiet (.inr hsend)] at hvalid
          exact Bool.false_ne_true hvalid
        have hshow : r.valid_o = true := (Bool.and_eq_true_iff.mp hout).1
        have hfull : p = OutW := by
          obtain hge | hflush := (valid_o_iff h.pos).mp hshow
          · omega
          · exact absurd hflush.1 hidle
        obtain ⟨hfilled, hstored⟩ := h.step_both hvalid hones hfull hdone hin hout
        exact ⟨hfilled, by simpa [accepted, emitted, hin, hout] using hstored⟩

/-- Outside of a flush only full words are shown. -/
theorem mask_o_eq_allOnes (hidle : r.flush_st = .FlushIdle) (hvalid : r.valid_o = true) :
    r.mask_o = BitVec.allOnes OutW := by
  have hfull : OutW ≤ p := by
    obtain hge | hflush := (valid_o_iff h.pos).mp hvalid
    · exact hge
    · rw [hidle] at hflush
      exact FlushSt.noConfusion hflush.1
  apply BitVec.eq_of_getLsbD_eq
  intro k hk
  rw [h.mask_o.bit, BitVec.getLsbD_allOnes, decide_eq_decide]
  omega

end Filled

/-! ### The plain position -/

/-- The packer with the plain position register. -/
def plain (r : Packer InW OutW) : Packer InW OutW := { r with pos := .nodup r.pos_q }

theorem out_plain {r : Packer InW OutW} {p : ℕ} (h : r.Filled p) : r.plain.out = r.out := by
  ext1
  case err_o => exact h.err_o.symm
  all_goals rfl

theorem clock_plain {r : Packer InW OutW} {p : ℕ} (h : r.Filled p) (i : PackerIn InW) :
    r.plain.clock i = (r.clock i).plain := by
  ext1
  case pos => exact congrArg PackerPos.nodup h.pos_q_posNext.symm
  all_goals rfl

/-! ### Runs -/

section Run

variable (OutW) (EnProtection : Bool) (inputs : ℕ → PackerIn InW)

/-- The registers in a cycle, from reset on. -/
def after (n : ℕ) : Packer InW OutW := stateAt clock (reset EnProtection) inputs n

/-- From cycle `n` on, the flush is done `len` cycles later. -/
def FlushDone (n len : ℕ) : Prop :=
  (∀ j < len, (after OutW EnProtection inputs (n + j)).flush_done = false) ∧
    (after OutW EnProtection inputs (n + len)).flush_done = true

variable {OutW EnProtection inputs} (hOut : 0 < OutW)
  (hobeys : ∀ n, (after OutW EnProtection inputs n).Obeys (inputs n))

include hOut hobeys

theorem filled_after (n : ℕ) : ∃ p, (after OutW EnProtection inputs n).Filled p := by
  induction n with
  | zero => exact ⟨0, filled_reset EnProtection⟩
  | succ n ih =>
    obtain ⟨p, h⟩ := ih
    exact ⟨_, (h.step hOut (hobeys n)).1⟩

theorem plain_after (n : ℕ) :
    (after OutW EnProtection inputs n).plain = after OutW false inputs n := by
  induction n with
  | zero => cases EnProtection <;> rfl
  | succ n ih =>
    obtain ⟨p, h⟩ := filled_after hOut hobeys n
    exact (clock_plain h (inputs n)).symm.trans (congrArg (clock · (inputs n)) ih)

theorem stored_accepted_after (m len : ℕ) :
    (after OutW EnProtection inputs m).stored ++
        collect (fun n => (after OutW EnProtection inputs n).accepted (inputs n)) m len =
      collect (fun n => (after OutW EnProtection inputs n).emitted (inputs n)) m len ++
        (after OutW EnProtection inputs (m + len)).stored := by
  apply collect_conserved fun n => (after OutW EnProtection inputs n).stored
  intro k hk
  obtain ⟨p, h⟩ := filled_after hOut hobeys (m + k)
  exact (h.step hOut (hobeys (m + k))).2

/-! ### Flush -/

omit hOut hobeys in
theorem flush_st_succ {n : ℕ} (hsend : (after OutW EnProtection inputs n).flush_st = .FlushSend)
    (hdone : (after OutW EnProtection inputs n).flush_done = false) :
    (after OutW EnProtection inputs (n + 1)).flush_st = .FlushSend := by
  have hpos : (after OutW EnProtection inputs n).pos_q ≠ 0 := by
    simpa [flush_done, hsend] using hdone
  show (after OutW EnProtection inputs n).flush_st_next (inputs n) = .FlushSend
  rw [flush_st_next, hsend]
  exact if_neg hpos

/-- While a flush lasts, each word that is taken shortens the remnant. -/
theorem filled_flush {n p : ℕ} (hfilled : (after OutW EnProtection inputs n).Filled p)
    (hsend : (after OutW EnProtection inputs n).flush_st = .FlushSend) (hp : p ≠ 0) :
    (after OutW EnProtection inputs (n + 1)).Filled
      (if (inputs n).ready_i then p - OutW else p) := by
  have hvalid := (hobeys n).quiet (.inr hsend)
  have hdone : (after OutW EnProtection inputs n).flush_done = false := by
    rw [Bool.eq_false_iff, Ne, flush_done_iff hfilled.pos]
    exact fun h => hp h.2
  have hshow : (after OutW EnProtection inputs n).valid_o = true :=
    (valid_o_iff hfilled.pos).mpr (.inr ⟨hsend, hp⟩)
  have hafter : (after OutW EnProtection inputs n).posAfter (inputs n) p =
      if (inputs n).ready_i then p - OutW else p := by
    cases hready : (inputs n).ready_i <;> simp [posAfter, ack_in, ack_out, hvalid, hshow, hready]
  have hstep := (hfilled.step hOut (hobeys n)).1
  rw [hdone, if_neg Bool.false_ne_true, hafter] at hstep
  exact hstep

omit hOut hobeys in
theorem FlushDone.succ {n len : ℕ} (hdone : (after OutW EnProtection inputs n).flush_done = false)
    (h : FlushDone OutW EnProtection inputs (n + 1) len) :
    FlushDone OutW EnProtection inputs n (len + 1) := by
  constructor
  · intro j hj
    cases j with
    | zero => exact hdone
    | succ j =>
      have hlater := h.1 j (by omega)
      rwa [Nat.add_right_comm] at hlater
  · have hlater := h.2
    rwa [Nat.add_right_comm] at hlater

/-- A flush ends when its reader takes enough words. -/
theorem flush_ends (hready : ∀ n, ∃ k ≥ n, (inputs k).ready_i = true) (p : ℕ) :
    ∀ n, (after OutW EnProtection inputs n).Filled p →
      (after OutW EnProtection inputs n).flush_st = .FlushSend →
      ∃ len, FlushDone OutW EnProtection inputs n len := by
  induction p using Nat.strong_induction_on with
  | _ p ih =>
    -- a cycle of the flush, where the next one is known if the reader takes nothing
    have hstep (n : ℕ) (hfilled : (after OutW EnProtection inputs n).Filled p)
        (hsend : (after OutW EnProtection inputs n).flush_st = .FlushSend)
        (hwait : (inputs n).ready_i = false → (after OutW EnProtection inputs (n + 1)).Filled p →
          (after OutW EnProtection inputs (n + 1)).flush_st = .FlushSend →
          ∃ len, FlushDone OutW EnProtection inputs (n + 1) len) :
        ∃ len, FlushDone OutW EnProtection inputs n len := by
      by_cases hp : p = 0
      · exact ⟨0, fun j hj => absurd hj (Nat.not_lt_zero j),
          (flush_done_iff hfilled.pos).mpr ⟨hsend, hp⟩⟩
      · have hdone : (after OutW EnProtection inputs n).flush_done = false := by
          rw [Bool.eq_false_iff, Ne, flush_done_iff hfilled.pos]
          exact fun h => hp h.2
        have hnext := filled_flush hOut hobeys hfilled hsend hp
        have hsend' := flush_st_succ hsend hdone
        cases hready : (inputs n).ready_i with
        | true =>
          rw [hready, if_pos rfl] at hnext
          obtain ⟨len, hlen⟩ := ih (p - OutW) (by omega) (n + 1) hnext hsend'
          exact ⟨len + 1, hlen.succ hdone⟩
        | false =>
          rw [hready, if_neg Bool.false_ne_true] at hnext
          obtain ⟨len, hlen⟩ := hwait hready hnext hsend'
          exact ⟨len + 1, hlen.succ hdone⟩
    intro n hfilled hsend
    obtain ⟨k, hk, hkready⟩ := hready n
    obtain ⟨d, rfl⟩ := Nat.exists_eq_add_of_le hk
    induction d generalizing n with
    | zero =>
      refine hstep n hfilled hsend fun hnot => ?_
      rw [Nat.add_zero, hnot] at hkready
      exact absurd hkready Bool.false_ne_true
    | succ d ihd =>
      refine hstep n hfilled hsend fun _ hfilled' hsend' => ?_
      rw [Nat.add_comm d 1, ← Nat.add_assoc] at hkready
      exact ihd (n + 1) hfilled' hsend' (Nat.le_add_right _ _) hkready

/-- A flush that is done has put out what was stored, and leaves nothing. -/
theorem flush_emits {m len : ℕ} (hidle : (after OutW EnProtection inputs m).flush_st = .FlushIdle)
    (hflush : (inputs m).flush_i = true) (hdone : FlushDone OutW EnProtection inputs (m + 1) len) :
    collect (fun n => (after OutW EnProtection inputs n).emitted (inputs n)) m (len + 2) =
        (after OutW EnProtection inputs m).stored ∧
      (after OutW EnProtection inputs (m + 1 + len + 1)).Filled 0 := by
  have hsend : ∀ j ≤ len, (after OutW EnProtection inputs (m + 1 + j)).flush_st = .FlushSend := by
    intro j
    induction j with
    | zero =>
      intro _
      show (after OutW EnProtection inputs m).flush_st_next (inputs m) = .FlushSend
      rw [flush_st_next, hidle]
      exact if_pos hflush
    | succ j ihj => exact fun hj => flush_st_succ (ihj (by omega)) (hdone.1 j (by omega))
  have hquiet : ∀ k < len + 2, (after OutW EnProtection inputs (m + k)).accepted (inputs (m + k)) =
      [] := by
    intro k hk
    have hvalid : (inputs (m + k)).valid_i = false := by
      cases k with
      | zero => exact (hobeys m).quiet (.inl hflush)
      | succ k =>
        apply (hobeys (m + (k + 1))).quiet
        rw [Nat.add_comm k 1, ← Nat.add_assoc]
        exact .inr (hsend k (by omega))
    simp [accepted, ack_in, hvalid]
  obtain ⟨p, hfilled⟩ := filled_after hOut hobeys (m + 1 + len)
  obtain ⟨-, hempty, -, hstored⟩ := hfilled.step_done (i := inputs (m + 1 + len)) hOut hdone.2
  have hconserved := stored_accepted_after hOut hobeys m (len + 2)
  rw [collect_eq_nil hquiet, List.append_nil] at hconserved
  have hlast : (after OutW EnProtection inputs (m + (len + 2))).stored = [] := by
    rw [show m + (len + 2) = m + 1 + len + 1 by omega]
    exact hstored
  rw [hlast, List.append_nil] at hconserved
  exact ⟨hconserved.symm, hempty⟩

/-- The packer repacks what it accepts without loss: the position counts the bits stored, words
are full except in a flush, and a flush puts out what is left. -/
theorem packer_repacks :
    ((after OutW EnProtection inputs 0).stored = [] ∧
      ∀ m len, (after OutW EnProtection inputs m).stored ++
          collect (fun n => (after OutW EnProtection inputs n).accepted (inputs n)) m len =
        collect (fun n => (after OutW EnProtection inputs n).emitted (inputs n)) m len ++
          (after OutW EnProtection inputs (m + len)).stored) ∧
    (∀ n, (after OutW EnProtection inputs n).pos_q.toNat =
        count (after OutW EnProtection inputs n).stored_mask.getLsbD (packerWidth InW OutW) ∧
      (after OutW EnProtection inputs n).pos_q.toNat ≤ InW + OutW) ∧
    (∀ n, (after OutW EnProtection inputs n).flush_st = .FlushIdle →
      (after OutW EnProtection inputs n).out.valid_o = true →
      (after OutW EnProtection inputs n).out.mask_o = BitVec.allOnes OutW) ∧
    (∀ m, (after OutW EnProtection inputs m).flush_st = .FlushIdle →
      (inputs m).flush_i = true →
      (∀ len, FlushDone OutW EnProtection inputs (m + 1) len →
        collect (fun n => (after OutW EnProtection inputs n).emitted (inputs n)) m (len + 2) =
            (after OutW EnProtection inputs m).stored ∧
          (after OutW EnProtection inputs (m + 1 + len + 1)).stored = [] ∧
          (after OutW EnProtection inputs (m + 1 + len + 1)).pos_q = 0) ∧
      ((∀ n, ∃ k ≥ n, (inputs k).ready_i = true) →
        ∃ len, FlushDone OutW EnProtection inputs (m + 1) len)) ∧
    ∀ n, (after OutW EnProtection inputs n).out = (after OutW false inputs n).out ∧
      (after OutW EnProtection inputs n).out.err_o = false := by
  refine ⟨⟨?_, stored_accepted_after hOut hobeys⟩, fun n => ?_, fun n hidle hvalid => ?_,
    fun m hidle hflush => ⟨fun len hdone => ?_, fun hready => ?_⟩, fun n => ?_⟩
  · exact (filled_reset EnProtection).stored_eq
  · obtain ⟨p, h⟩ := filled_after hOut hobeys n
    rw [h.pos, h.mask.count_eq]
    exact ⟨rfl, h.le⟩
  · obtain ⟨p, h⟩ := filled_after hOut hobeys n
    exact h.mask_o_eq_allOnes hidle hvalid
  · obtain ⟨hemitted, hempty⟩ := flush_emits hOut hobeys hidle hflush hdone
    exact ⟨hemitted, hempty.stored_eq, BitVec.eq_of_toNat_eq (hempty.pos.trans (by simp))⟩
  · obtain ⟨p, h⟩ := filled_after hOut hobeys (m + 1)
    refine flush_ends hOut hobeys hready p (m + 1) h ?_
    show (after OutW EnProtection inputs m).flush_st_next (inputs m) = .FlushSend
    rw [flush_st_next, hidle]
    exact if_pos hflush
  · obtain ⟨p, h⟩ := filled_after hOut hobeys n
    rw [← plain_after hOut hobeys, out_plain h]
    exact ⟨rfl, h.err_o⟩

end Run

/-- Two words of three bits, of which the second one has to wait, and a flush. -/
def twoWords (n : ℕ) : PackerIn 3 := ⟨n < 3, 0b101#3, BitVec.allOnes 3, true, n == 3⟩

theorem twoWords_obeys (n : ℕ) : (after 2 true twoWords n).Obeys (twoWords n) := by
  constructor
  · intro _ i j k _ hjk _ hk
    simp only [twoWords, BitVec.getLsbD_allOnes, decide_eq_true_iff] at hk ⊢
    omega
  · rintro (hflush | hsend)
    · simp [twoWords] at hflush ⊢
      omega
    · by_contra hvalid
      have hn : n < 3 := by simpa [twoWords] using hvalid
      obtain rfl | rfl | rfl : n = 0 ∨ n = 1 ∨ n = 2 := by omega
      all_goals exact absurd hsend (by decide)

theorem packer_repacks_twoWords :
    (after 2 true twoWords 0).stored ++
        collect (fun n => (after 2 true twoWords n).accepted (twoWords n)) 0 6 =
      collect (fun n => (after 2 true twoWords n).emitted (twoWords n)) 0 6 ++
        (after 2 true twoWords (0 + 6)).stored :=
  (packer_repacks (by decide) twoWords_obeys).1.2 0 6

end Packer

end SecureBoot
