import SecureBoot.Lib.Cyclic
import SecureBoot.Prim.Arbiter

/-! The arbiter with a prefix or takes turns. After a grant the mask has the ports behind the
winner, so that the next turn is that of the next requester; while nothing is accepted it has
the winner as well, which wins again. -/

namespace SecureBoot

open Bits RoundRobin

/-! ### The winner of a cycle -/

/-- The port that wins a cycle. -/
structure Wins {N DW : ℕ} (mask : BitVec N) (i : ArbiterIn N DW) (w : ℕ) : Prop where
  first : IsFirst (ppcArbReq mask i).getLsbD w
  req : i.req_i.getLsbD w = true

section Winner

variable {N DW : ℕ} {EnDataPort : Bool} {mask : BitVec N} {i : ArbiterIn N DW} {w : ℕ}

theorem exists_isFirst {x : BitVec N} (hx : x ≠ 0#N) : ∃ w, IsFirst x.getLsbD w := by
  have hex := ne_zero_iff.mp hx
  refine ⟨Nat.find hex, Nat.find_spec hex, fun j hj => ?_⟩
  simpa using Nat.find_min hex hj

theorem exists_wins (hreq : i.req_i ≠ 0) : ∃ w, Wins mask i w := by
  by_cases hmasked : mask &&& i.req_i ≠ 0
  · have harb : ppcArbReq mask i = mask &&& i.req_i := if_pos hmasked
    obtain ⟨w, hw⟩ := exists_isFirst hmasked
    have hset := hw.set
    rw [BitVec.getLsbD_and, Bool.and_eq_true] at hset
    exact ⟨w, harb ▸ hw, hset.2⟩
  · have harb : ppcArbReq mask i = i.req_i := if_neg hmasked
    obtain ⟨w, hw⟩ := exists_isFirst hreq
    exact ⟨w, harb ▸ hw, hw.set⟩

/-- Without a request nothing is granted. -/
theorem ppcOutputs_gnt_o_of_idle (hreq : i.req_i = 0) :
    (ppcOutputs EnDataPort mask i).gnt_o = 0 := by
  have harb : ppcArbReq mask i = 0 := by simp [ppcArbReq, hreq]
  have hnone (n : ℕ) : ppcPrefix (0#N) n = false := by
    induction n with
    | zero => simp [ppcPrefix]
    | succ n ih => simp [ppcPrefix, ih]
  have hout : ppcOut mask i = 0 := by
    apply BitVec.eq_of_getLsbD_eq
    intro j hj
    simp [ppcOut, harb, getLsbD_ofBits hj, hnone]
  simp [ppcOutputs, ppcWinner, hout]

namespace Wins

variable (h : Wins mask i w)

include h

theorem lt : w < N := BitVec.lt_of_getLsbD h.req

theorem req_ne_zero : i.req_i ≠ 0 := ne_zero_iff.mpr ⟨w, h.req⟩

theorem gnt_o_iff (j : ℕ) : (ppcOutputs EnDataPort mask i).gnt_o.getLsbD j = true ↔
    i.ready_i = true ∧ j = w := by
  by_cases hj : j < N
  · cases hready : i.ready_i with
    | false => simp [ppcOutputs, hready]
    | true => simp [ppcOutputs, hready, getLsbD_ppcWinner h.first hj]
  · rw [BitVec.getLsbD_of_ge _ j (by omega)]
    have hw := h.lt
    simp
    omega

theorem idx_o_eq : (ppcOutputs EnDataPort mask i).idx_o = BitVec.ofNat _ w :=
  lastWinner_eq h.lt (fun _ hj => getLsbD_ppcWinner h.first hj) _ _

/-- The mask after the cycle has the ports from `w` on, and `w` only if it was not accepted. -/
theorem getLsbD_ppcMask (hrst : i.rst_ni = true) {j : ℕ} (hj : j < N) :
    (ppcMask mask i).getLsbD j = decide ((if i.ready_i then w + 1 else w) ≤ j) := by
  have hreq : ¬ i.req_i = 0#N := h.req_ne_zero
  cases hready : i.ready_i with
  | false => simp [ppcMask, hrst, hreq, hready, getLsbD_ppcOut h.first hj]
  | true => simp [ppcMask, hrst, hreq, hready, getLsbD_ppcMaskNext h.first hj, Nat.succ_le_iff]

end Wins

/-- The winner under a mask of the ports from `lo` on. -/
theorem Wins.of_mask {lo : ℕ} (h : Wins mask i w)
    (hmask : ∀ j < N, mask.getLsbD j = decide (lo ≤ j)) :
    (lo ≤ w ∧ ∀ j, lo ≤ j → j < w → i.req_i.getLsbD j = false) ∨
      (∀ j, lo ≤ j → i.req_i.getLsbD j = false) ∧ ∀ j < w, i.req_i.getLsbD j = false := by
  have hbit (j : ℕ) : (mask &&& i.req_i).getLsbD j = (decide (lo ≤ j) && i.req_i.getLsbD j) := by
    rw [BitVec.getLsbD_and]
    by_cases hj : j < N
    · rw [hmask j hj]
    · rw [BitVec.getLsbD_of_ge i.req_i j (by omega), Bool.and_false, Bool.and_false]
  by_cases hmasked : mask &&& i.req_i ≠ 0
  · have harb : ppcArbReq mask i = mask &&& i.req_i := if_pos hmasked
    have hfirst := h.first
    rw [harb] at hfirst
    left
    constructor
    · have hset := hfirst.set
      rw [hbit, Bool.and_eq_true, decide_eq_true_iff] at hset
      exact hset.1
    · intro j hlo hj
      have hclear := hfirst.clear j hj
      rwa [hbit, decide_eq_true hlo, Bool.true_and] at hclear
  · have harb : ppcArbReq mask i = i.req_i := if_neg hmasked
    right
    constructor
    · intro j hlo
      by_contra hset
      refine hmasked (ne_zero_iff.mpr ⟨j, ?_⟩)
      rw [hbit, decide_eq_true hlo, Bool.true_and]
      simpa using hset
    · exact fun j hj => harb ▸ h.first.clear j hj

end Winner

/-! ### Runs -/

section Run

variable {N DW : ℕ}

/-- The mask register in a run from any mask; it reads zero while reset is asserted. -/
def ppcMaskFrom (mask : BitVec N) (inputs : ℕ → ArbiterIn N DW) : ℕ → BitVec N
  | 0 => mask
  | n + 1 =>
    let mask := ppcMask (ppcMaskFrom mask inputs n) (inputs n)
    if (inputs (n + 1)).rst_ni then mask else 0

/-- The outputs of a cycle. -/
def ppcOutputsFrom (EnDataPort : Bool) (mask : BitVec N) (inputs : ℕ → ArbiterIn N DW) (n : ℕ) :
    ArbiterOut N DW :=
  ppcOutputs EnDataPort (ppcMaskFrom mask inputs n) (inputs n)

variable {EnDataPort : Bool} {mask : BitVec N} {inputs : ℕ → ArbiterIn N DW} {n w w' : ℕ}

theorem Wins.getLsbD_succ (h : Wins (ppcMaskFrom mask inputs n) (inputs n) w)
    (hrst : (inputs n).rst_ni = true) (hrst' : (inputs (n + 1)).rst_ni = true) :
    ∀ j < N, (ppcMaskFrom mask inputs (n + 1)).getLsbD j =
      decide ((if (inputs n).ready_i then w + 1 else w) ≤ j) := by
  intro j hj
  rw [ppcMaskFrom, hrst', if_pos rfl]
  exact h.getLsbD_ppcMask hrst hj

/-- A winner that is not accepted wins again if it still requests. -/
theorem Wins.again (h : Wins (ppcMaskFrom mask inputs n) (inputs n) w)
    (hrst : (inputs n).rst_ni = true) (hrst' : (inputs (n + 1)).rst_ni = true)
    (hready : (inputs n).ready_i = false) (hreq : (inputs (n + 1)).req_i.getLsbD w = true)
    (h' : Wins (ppcMaskFrom mask inputs (n + 1)) (inputs (n + 1)) w') : w' = w := by
  have hmask := h.getLsbD_succ hrst hrst'
  rw [hready, if_neg Bool.false_ne_true] at hmask
  obtain ⟨hle, hclear⟩ | ⟨hnone, -⟩ := h'.of_mask hmask
  · by_contra hne
    rw [hclear w (Nat.le_refl w) (by omega)] at hreq
    exact Bool.false_ne_true hreq
  · rw [hnone w (Nat.le_refl w)] at hreq
    exact absurd hreq Bool.false_ne_true

/-- After an accepted turn, the next one among the same requests. -/
theorem Wins.follows {req : BitVec N} (h : Wins (ppcMaskFrom mask inputs n) (inputs n) w)
    (hrst : (inputs n).rst_ni = true) (hrst' : (inputs (n + 1)).rst_ni = true)
    (hready : (inputs n).ready_i = true) (hreq : (inputs (n + 1)).req_i = req)
    (h' : Wins (ppcMaskFrom mask inputs (n + 1)) (inputs (n + 1)) w') :
    Follows (fun j => req.getLsbD j = true) N w w' := by
  have hmask := h.getLsbD_succ hrst hrst'
  rw [hready, if_pos rfl] at hmask
  have hp := h'.req
  rw [hreq] at hp
  have hnot {j : ℕ} (hclear : (inputs (n + 1)).req_i.getLsbD j = false) :
      ¬ req.getLsbD j = true := by
    rw [← hreq, hclear]
    exact Bool.false_ne_true
  obtain ⟨hle, hclear⟩ | ⟨hnone, hfirst⟩ := h'.of_mask hmask
  · exact .next hle hp fun j hj hlt => hnot (hclear j hj hlt)
  · exact .wrap (fun j hj _ => hnot (hnone j hj)) hp fun j hj => hnot (hfirst j hj)

/-- A window of cycles in which the same ports request, each is accepted, and reset is not
asserted. -/
structure SteadyWindow (inputs : ℕ → ArbiterIn N DW) (req : BitVec N) (t n : ℕ) : Prop where
  req : ∀ k < n, (inputs (t + k)).req_i = req
  ready : ∀ k < n, (inputs (t + k)).ready_i = true
  rst : ∀ k < n, (inputs (t + k)).rst_ni = true

/-- As many cycles as there are requesters grant each of them once. -/
theorem SteadyWindow.granted_once {req : BitVec N} {t : ℕ} (h : SteadyWindow inputs req t n)
    (hn : n = Nat.count (fun j => req.getLsbD j = true) N) {j : ℕ} (hj : req.getLsbD j = true) :
    ∃! k, k < n ∧
      (ppcOutputsFrom EnDataPort mask inputs (t + k)).gnt_o.getLsbD j = true := by
  have hne : req ≠ 0#N := ne_zero_iff.mpr ⟨j, hj⟩
  have hwins : ∀ k, ∃ w, k < n → Wins (ppcMaskFrom mask inputs (t + k)) (inputs (t + k)) w := by
    intro k
    by_cases hk : k < n
    · have hreq : (inputs (t + k)).req_i ≠ 0 := by
        rw [h.req k hk]
        exact hne
      have hex : ∃ w, Wins (ppcMaskFrom mask inputs (t + k)) (inputs (t + k)) w :=
        exists_wins hreq
      exact hex.imp fun w hw _ => hw
    · exact ⟨0, fun hlt => absurd hlt hk⟩
  choose turn hturn using hwins
  have hturns : Turns (fun j => req.getLsbD j = true) N n turn := by
    refine ⟨fun k hk => ?_, fun k hk => (hturn k hk).lt, fun k hk => ?_⟩
    · rw [← h.req k hk]
      exact (hturn k hk).req
    · have hk' : k < n := Nat.lt_of_succ_lt hk
      exact (hturn k hk').follows (h.rst k hk') (h.rst (k + 1) hk) (h.ready k hk')
        (h.req (k + 1) hk) (hturn (k + 1) hk)
  have hunique := hturns.existsUnique hn hj (BitVec.lt_of_getLsbD hj)
  have hgnt (k : ℕ) : k < n ∧ turn k = j ↔
      k < n ∧ (ppcOutputsFrom EnDataPort mask inputs (t + k)).gnt_o.getLsbD j = true := by
    refine and_congr_right fun hk => ?_
    rw [ppcOutputsFrom, (hturn k hk).gnt_o_iff]
    simp [h.ready k hk, eq_comm]
  simpa only [hgnt] using hunique

/-- Grants go to one requester in a cycle; without `ready_i`, the requests that stay get the
same index again; and a window of as many accepted cycles as there are steady requesters grants
each of them once. -/
theorem arbiter_ppc_fair (EnDataPort : Bool) (mask : BitVec N) (inputs : ℕ → ArbiterIn N DW) :
    (∀ n j, (ppcOutputsFrom EnDataPort mask inputs n).gnt_o.getLsbD j = true →
      (inputs n).req_i.getLsbD j = true ∧
        ∀ k, (ppcOutputsFrom EnDataPort mask inputs n).gnt_o.getLsbD k = true → k = j) ∧
    (∀ n, (inputs n).rst_ni = true → (inputs (n + 1)).rst_ni = true →
      (inputs n).req_i ≠ 0 → (inputs n).ready_i = false →
      (∀ j, (inputs n).req_i.getLsbD j = true → (inputs (n + 1)).req_i.getLsbD j = true) →
      (ppcOutputsFrom EnDataPort mask inputs (n + 1)).idx_o =
          (ppcOutputsFrom EnDataPort mask inputs n).idx_o ∧
        ∀ j, (ppcOutputsFrom EnDataPort mask inputs (n + 1)).gnt_o.getLsbD j = true ↔
          (inputs (n + 1)).ready_i = true ∧
            j = (ppcOutputsFrom EnDataPort mask inputs n).idx_o.toNat) ∧
    ∀ t (req : BitVec N),
      SteadyWindow inputs req t (Nat.count (fun j => req.getLsbD j = true) N) →
      ∀ j, req.getLsbD j = true →
        ∃! k, k < Nat.count (fun j => req.getLsbD j = true) N ∧
          (ppcOutputsFrom EnDataPort mask inputs (t + k)).gnt_o.getLsbD j = true := by
  refine ⟨fun n j hj => ?_, fun n hrst hrst' hreq hready hstay => ?_,
    fun t req h j hj => h.granted_once rfl hj⟩
  · by_cases hreq : (inputs n).req_i = 0
    · rw [ppcOutputsFrom, ppcOutputs_gnt_o_of_idle hreq] at hj
      simp at hj
    · obtain ⟨w, hw⟩ : ∃ w, Wins (ppcMaskFrom mask inputs n) (inputs n) w := exists_wins hreq
      obtain ⟨-, rfl⟩ := (hw.gnt_o_iff j).mp hj
      exact ⟨hw.req, fun k hk => ((hw.gnt_o_iff k).mp hk).2⟩
  · obtain ⟨w, hw⟩ : ∃ w, Wins (ppcMaskFrom mask inputs n) (inputs n) w := exists_wins hreq
    have hkeep := hstay w hw.req
    obtain ⟨w', hw'⟩ : ∃ w, Wins (ppcMaskFrom mask inputs (n + 1)) (inputs (n + 1)) w :=
      exists_wins (ne_zero_iff.mpr ⟨w, hkeep⟩)
    obtain rfl : w' = w := hw.again hrst hrst' hready hkeep hw'
    have hidx : (ppcOutputsFrom EnDataPort mask inputs n).idx_o = BitVec.ofNat _ w' :=
      hw.idx_o_eq
    constructor
    · rw [hidx]
      exact hw'.idx_o_eq
    · intro j
      have hlt : w' < 2 ^ Nat.clog 2 N := hw.lt.trans_le (Nat.le_pow_clog Nat.one_lt_two N)
      rw [hidx, BitVec.toNat_ofNat, Nat.mod_eq_of_lt hlt]
      exact hw'.gnt_o_iff j

end Run

end SecureBoot
