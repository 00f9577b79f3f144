import SecureBoot.Lib.Clocked
import SecureBoot.Prim.MaxTree
import Mathlib.Data.Nat.Count

/-! The platform-level interrupt controller, `rv_plic`, for one target. The gateway of a source is
a machine of three states, idle, pending and active, and the claims of the software move it on
exactly as they return: every interrupt is served once, and the best one first. -/

namespace SecureBoot

open Mealy Clocked HeapTree

/-! ### The gateways -/

/-- The registers of `rv_plic_gateway`. -/
structure PlicGateway (N_SOURCE : ℕ) where
  src_q : BitVec N_SOURCE
  ip_o : BitVec N_SOURCE
  ia : BitVec N_SOURCE

namespace PlicGateway

variable {N_SOURCE : ℕ} (g : PlicGateway N_SOURCE)
  (src_i le_i claim_i complete_i : BitVec N_SOURCE)

def set : BitVec N_SOURCE := (le_i &&& (src_i &&& ~~~g.src_q)) ||| (~~~le_i &&& src_i)

def clock : PlicGateway N_SOURCE where
  src_q := src_i
  ip_o := (g.ip_o ||| (g.set src_i le_i &&& ~~~g.ia &&& ~~~g.ip_o)) &&& ~~~(g.ip_o &&& claim_i)
  ia := (g.ia ||| (g.set src_i le_i &&& ~~~g.ia)) &&& ~~~(g.ia &&& complete_i &&& ~~~g.ip_o)

end PlicGateway

/-! ### The target -/

/-- The registers of `rv_plic_target`. -/
structure PlicTarget (SrcWidth : ℕ) where
  irq_q : Bool
  irq_id_q : BitVec SrcWidth

def PlicTarget.clock {N_SOURCE PrioWidth : ℕ} (ip_i ie_i : BitVec N_SOURCE)
    (prio_i : ℕ → BitVec PrioWidth) (threshold_i : BitVec PrioWidth) :
    PlicTarget (Nat.clog 2 N_SOURCE) :=
  let max := primMaxTree prio_i (ip_i &&& ie_i)
  { irq_q := if max.max > threshold_i then max.vld else false
    irq_id_q := if max.vld then max.idx else 0 }

/-! ### The controller -/

variable {NumSrc PRIOW : ℕ}

/-- The inputs of a cycle: the requests, the registers that software has set, and its accesses to
the claim and complete register. -/
structure PlicIn (NumSrc PRIOW : ℕ) where
  intr_src_i : BitVec NumSrc
  prio : ℕ → BitVec PRIOW
  ie : BitVec NumSrc
  threshold : BitVec PRIOW
  claim_re : Bool
  complete_we : Bool
  complete_id : BitVec (Nat.clog 2 NumSrc)

structure Plic (NumSrc : ℕ) where
  u_prim_flop_2sync : Sync (BitVec NumSrc)
  u_gateway : PlicGateway NumSrc
  u_target : PlicTarget (Nat.clog 2 NumSrc)

namespace Plic

def reset : Plic NumSrc where
  u_prim_flop_2sync := ⟨0#(NumSrc), 0#(NumSrc)⟩
  u_gateway := ⟨0#(NumSrc), 0#(NumSrc), 0#(NumSrc)⟩
  u_target := ⟨false, 0#_⟩

variable (p : Plic NumSrc) (LevelEdgeTrig : BitVec NumSrc) (i : PlicIn NumSrc PRIOW)

def irq_o : Bool := p.u_target.irq_q

def irq_id_o : BitVec (Nat.clog 2 NumSrc) := p.u_target.irq_id_q

def claim : BitVec NumSrc := if i.claim_re then BitVec.twoPow NumSrc p.irq_id_o.toNat else 0#(NumSrc)

def complete : BitVec NumSrc :=
  if i.complete_we then BitVec.twoPow NumSrc i.complete_id.toNat else 0#(NumSrc)

def clock : Plic NumSrc where
  u_prim_flop_2sync := p.u_prim_flop_2sync.clock i.intr_src_i
  u_gateway := p.u_gateway.clock p.u_prim_flop_2sync.q LevelEdgeTrig (p.claim i) (complete i)
  u_target := PlicTarget.clock p.u_gateway.ip_o i.ie i.prio i.threshold

/-- A claim that returns the source `k`. -/
def claims (k : ℕ) : Bool := i.claim_re && decide (p.irq_id_o.toNat = k)

/-- A completion of the source `k`. -/
def completes (k : ℕ) : Bool := i.complete_we && decide (i.complete_id.toNat = k)

/-- The request of the source `k` as its trigger shows it. -/
def requests (k : ℕ) : Bool :=
  (p.u_gateway.set p.u_prim_flop_2sync.q LevelEdgeTrig).getLsbD k

end Plic

/-! ### A source -/

/-- What the interrupt of a source has come to. -/
inductive PlicSource
  | idle | pending | active
  deriving DecidableEq

namespace PlicSource

/-- The life of an interrupt: raised, claimed, completed. -/
def next (raise claim complete : Bool) : PlicSource → PlicSource
  | idle => if raise then pending else idle
  | pending => if claim then active else pending
  | active => if complete then idle else active

end PlicSource

namespace PlicGateway

variable {N_SOURCE : ℕ} {g : PlicGateway N_SOURCE} {src_i le_i claim_i complete_i : BitVec N_SOURCE}

/-- A pending interrupt is active. -/
def Inv (g : PlicGateway N_SOURCE) : Prop := ∀ k, g.ip_o.getLsbD k = true → g.ia.getLsbD k = true

def source (g : PlicGateway N_SOURCE) (k : ℕ) : PlicSource :=
  if g.ip_o.getLsbD k then .pending else if g.ia.getLsbD k then .active else .idle

theorem source_eq_pending_iff {k : ℕ} : g.source k = .pending ↔ g.ip_o.getLsbD k = true := by
  cases hip : g.ip_o.getLsbD k <;> cases hia : g.ia.getLsbD k <;> simp [source, hip, hia]

theorem Inv.clock (h : g.Inv) : (g.clock src_i le_i claim_i complete_i).Inv := by
  intro k hk
  have hlt : k < N_SOURCE := BitVec.lt_of_getLsbD hk
  have hkeep := h k
  simp only [PlicGateway.clock, BitVec.getLsbD_and, BitVec.getLsbD_or, BitVec.getLsbD_not, hlt,
    decide_true, Bool.true_and] at hk ⊢
  cases hip : g.ip_o.getLsbD k <;> cases hia : g.ia.getLsbD k <;> simp_all

/-- The gateway of a source runs through the states of its interrupt. -/
theorem Inv.source_clock (h : g.Inv) (k : ℕ) :
    (g.clock src_i le_i claim_i complete_i).source k =
      (g.source k).next ((g.set src_i le_i).getLsbD k) (claim_i.getLsbD k)
        (complete_i.getLsbD k) := by
  have hkeep := h k
  by_cases hlt : k < N_SOURCE
  · simp only [source, PlicGateway.clock, BitVec.getLsbD_and, BitVec.getLsbD_or,
      BitVec.getLsbD_not, hlt, decide_true, Bool.true_and]
    cases hip : g.ip_o.getLsbD k <;> cases hia : g.ia.getLsbD k <;>
      cases (g.set src_i le_i).getLsbD k <;> cases claim_i.getLsbD k <;>
      cases complete_i.getLsbD k <;> simp_all [PlicSource.next]
  · have hnone (w : BitVec N_SOURCE) : w.getLsbD k = false :=
      BitVec.getLsbD_of_ge w k (Nat.not_lt.mp hlt)
    simp [source, hnone, PlicSource.next]

end PlicGateway

namespace Plic

/-! ### The greatest request -/

section Notify

variable {p : Plic NumSrc} {LevelEdgeTrig : BitVec NumSrc} {i : PlicIn NumSrc PRIOW} {k : ℕ}

def source (p : Plic NumSrc) (k : ℕ) : PlicSource := p.u_gateway.source k

/-- The source is pending and enabled. -/
def Competes (p : Plic NumSrc) (i : PlicIn NumSrc PRIOW) (k : ℕ) : Prop :=
  p.source k = .pending ∧ i.ie.getLsbD k = true

/-- The source competes with the greatest priority, and is the first one to. -/
structure Best (p : Plic NumSrc) (i : PlicIn NumSrc PRIOW) (k : ℕ) : Prop where
  competes : p.Competes i k
  le : ∀ j, p.Competes i j → i.prio j ≤ i.prio k
  first : ∀ j, p.Competes i j → i.prio j = i.prio k → k ≤ j

theorem competes_iff :
    p.Competes i k ↔ (p.u_gateway.ip_o &&& i.ie).getLsbD k = true := by
  rw [Competes, source, PlicGateway.source_eq_pending_iff, BitVec.getLsbD_and, Bool.and_eq_true]

theorem Competes.below (h : p.Competes i k) : Below (Nat.clog 2 NumSrc) 0 k := by
  have hlt : k < NumSrc := BitVec.lt_of_getLsbD h.2
  exact (below_root _ k).mpr (hlt.trans_le (Nat.le_pow_clog (by decide) NumSrc))

theorem best_iff : p.Best i k ↔
    FirstMax i.prio (p.u_gateway.ip_o &&& i.ie) (Nat.clog 2 NumSrc) 0 k := by
  constructor
  · intro h
    exact ⟨h.competes.below, competes_iff.mp h.competes,
      fun j _ hj => h.le j (competes_iff.mpr hj), fun j _ hj => h.first j (competes_iff.mpr hj)⟩
  · intro h
    exact ⟨competes_iff.mpr h.valid, fun j hj => h.le j hj.below (competes_iff.mp hj),
      fun j hj => h.first j hj.below (competes_iff.mp hj)⟩

theorem Best.unique {j : ℕ} (h : p.Best i k) (h' : p.Best i j) : k = j := by
  have heq : i.prio j = i.prio k := BitVec.le_antisymm (h.le j h'.competes) (h'.le k h.competes)
  exact Nat.le_antisymm (h.first j h'.competes heq) (h'.first k h.competes heq.symm)

/-- What the tree finds: nothing, or the best source. -/
theorem primMaxTree_cases :
    ((primMaxTree i.prio (p.u_gateway.ip_o &&& i.ie)).vld = false ∧ ∀ j, ¬ p.Competes i j) ∨
      ∃ j, p.Best i j ∧ primMaxTree i.prio (p.u_gateway.ip_o &&& i.ie) =
        ⟨true, BitVec.ofNat _ j, i.prio j⟩ := by
  have hroot : MaxNodeAt i.prio (p.u_gateway.ip_o &&& i.ie) (Nat.clog 2 NumSrc) 0
      (primMaxTree i.prio (p.u_gateway.ip_o &&& i.ie)) :=
    node_induction maxLeaf_at (fun _ _ _ _ => maxNode_at) _ 0
  generalize primMaxTree i.prio (p.u_gateway.ip_o &&& i.ie) = root at hroot ⊢
  obtain ⟨vld, idx, max⟩ := root
  cases vld with
  | false =>
    refine .inl ⟨rfl, fun j hj => ?_⟩
    exact Bool.false_ne_true (hroot.vld.mpr ⟨j, hj.below, competes_iff.mp hj⟩)
  | true =>
    obtain ⟨j, hfirst, rfl, rfl⟩ := hroot.max rfl
    exact .inr ⟨j, best_iff.mpr hfirst, rfl⟩

theorem Best.toNat_ofNat (h : p.Best i k) :
    (BitVec.ofNat (Nat.clog 2 NumSrc) k).toNat = k := by
  rw [BitVec.toNat_ofNat, Nat.mod_eq_of_lt ((below_root _ k).mp h.competes.below)]

/-- The number that is shown next is that of the best source, and zero without one. -/
theorem irq_id_o_clock (hk : 0 < k) :
    (p.clock LevelEdgeTrig i).irq_id_o.toNat = k ↔ p.Best i k := by
  change (PlicTarget.clock p.u_gateway.ip_o i.ie i.prio i.threshold).irq_id_q.toNat = k ↔ _
  obtain ⟨hnone, hno⟩ | ⟨j, hbest, hroot⟩ := @primMaxTree_cases NumSrc PRIOW p i
  · rw [PlicTarget.clock, hnone]
    constructor
    · intro h
      exact absurd h (by simpa using hk.ne)
    · intro h
      exact absurd h.competes (hno k)
  · rw [PlicTarget.clock, hroot]
    change (BitVec.ofNat _ j).toNat = k ↔ _
    rw [hbest.toNat_ofNat]
    constructor
    · rintro rfl
      exact hbest
    · exact fun h => hbest.unique h

/-- The interrupt comes when a source that competes has a priority above the threshold. -/
theorem irq_o_clock : (p.clock LevelEdgeTrig i).irq_o = true ↔
    ∃ k, p.Competes i k ∧ i.threshold < i.prio k := by
  change (PlicTarget.clock p.u_gateway.ip_o i.ie i.prio i.threshold).irq_q = true ↔ _
  obtain ⟨hnone, hno⟩ | ⟨j, hbest, hroot⟩ := @primMaxTree_cases NumSrc PRIOW p i
  · simp [PlicTarget.clock, hnone, hno]
  · simp only [PlicTarget.clock, hroot, gt_iff_lt]
    constructor
    · intro h
      exact ⟨j, hbest.competes, by simpa using h⟩
    · rintro ⟨k, hk, hlt⟩
      have hgt : i.threshold < i.prio j := Nat.lt_of_lt_of_le hlt (hbest.le k hk)
      exact if_pos hgt

end Notify

/-! ### Runs -/

section Run

variable (LevelEdgeTrig : BitVec NumSrc) (inputs : ℕ → PlicIn NumSrc PRIOW)

def after (n : ℕ) : Plic NumSrc := stateAt (fun p i => p.clock LevelEdgeTrig i) reset inputs n

/-- The interrupts of the source `k` that were raised before the cycle `n`. -/
def raised (k n : ℕ) : ℕ :=
  Nat.count (fun t => (after LevelEdgeTrig inputs t).source k = .idle ∧
    (after LevelEdgeTrig inputs t).requests LevelEdgeTrig k = true) n

/-- The claims before the cycle `n` that returned the source `k`. -/
def claimed (k n : ℕ) : ℕ :=
  Nat.count (fun t => (after LevelEdgeTrig inputs t).claims (inputs t) k = true) n

/-- The completions of the source `k` before the cycle `n`, while it was active. -/
def completed (k n : ℕ) : ℕ :=
  Nat.count (fun t => (after LevelEdgeTrig inputs t).source k = .active ∧
    completes (inputs t) k = true) n

/-- The raised interrupts of the source `k` are claimed or still pending, and the claimed ones
completed or still active. -/
def Books (k n : ℕ) : Prop :=
  raised LevelEdgeTrig inputs k n = claimed LevelEdgeTrig inputs k n +
      (if (after LevelEdgeTrig inputs n).source k = .pending then 1 else 0) ∧
    claimed LevelEdgeTrig inputs k n = completed LevelEdgeTrig inputs k n +
      (if (after LevelEdgeTrig inputs n).source k = .active then 1 else 0)

variable {LevelEdgeTrig inputs} {k : ℕ}

theorem inv_after (n : ℕ) : (after LevelEdgeTrig inputs n).u_gateway.Inv := by
  induction n with
  | zero =>
    intro k hk
    simp [after, reset] at hk
  | succ n ih => exact ih.clock

theorem source_after_succ (hlt : k < NumSrc) (n : ℕ) :
    (after LevelEdgeTrig inputs (n + 1)).source k =
      ((after LevelEdgeTrig inputs n).source k).next
        ((after LevelEdgeTrig inputs n).requests LevelEdgeTrig k)
        ((after LevelEdgeTrig inputs n).claims (inputs n) k) (completes (inputs n) k) := by
  have hclaim : ((after LevelEdgeTrig inputs n).claim (inputs n)).getLsbD k =
      (after LevelEdgeTrig inputs n).claims (inputs n) k := by
    cases hre : (inputs n).claim_re <;> simp [claim, claims, hre, hlt, eq_comm]
  have hcomplete : (complete (inputs n)).getLsbD k = completes (inputs n) k := by
    cases hwe : (inputs n).complete_we <;> simp [complete, completes, hwe, hlt, eq_comm]
  rw [← hclaim, ← hcomplete]
  exact (inv_after n).source_clock k

/-- Where no two cycles in a row claim, a claim returns a source that is pending. -/
theorem pending_of_claims
    (hpulse : ∀ n, (inputs n).claim_re = true → (inputs (n + 1)).claim_re = false) (hk : 0 < k)
    {n : ℕ} (h : (after LevelEdgeTrig inputs n).claims (inputs n) k = true) :
    (after LevelEdgeTrig inputs n).source k = .pending := by
  rw [claims, Bool.and_eq_true, decide_eq_true_eq] at h
  obtain ⟨hre, hid⟩ := h
  cases n with
  | zero => exact absurd hid (by simpa [after, reset, irq_id_o] using hk.ne)
  | succ n =>
    have hbest : (after LevelEdgeTrig inputs n).Best (inputs n) k := (irq_id_o_clock hk).mp hid
    have hnone : (inputs n).claim_re = false := by
      by_contra hre'
      rw [hpulse n (Bool.not_eq_false _ ▸ hre')] at hre
      exact Bool.false_ne_true hre
    rw [source_after_succ (BitVec.lt_of_getLsbD hbest.competes.2), hbest.competes.1]
    simp [claims, hnone, PlicSource.next]

/-- What a cycle books on a source. -/
theorem books_next (s : PlicSource) {raise claim complete : Bool}
    (hclaim : claim = true → s = .pending) :
    ((if s = .idle ∧ raise = true then 1 else 0) + if s = .pending then 1 else 0) =
        ((if claim = true then 1 else 0) +
          if s.next raise claim complete = .pending then 1 else 0) ∧
      ((if claim = true then 1 else 0) + if s = .active then 1 else 0) =
        ((if s = .active ∧ complete = true then 1 else 0) +
          if s.next raise claim complete = .active then 1 else 0) := by
  cases s <;> cases raise <;> cases claim <;> cases complete <;> simp_all [PlicSource.next]

theorem books_after
    (hpulse : ∀ n, (inputs n).claim_re = true → (inputs (n + 1)).claim_re = false) (hk : 0 < k)
    (hlt : k < NumSrc) (n : ℕ) : Books LevelEdgeTrig inputs k n := by
  induction n with
  | zero =>
    have hidle : (after LevelEdgeTrig inputs 0).source k = .idle := by
      simp [after, reset, source, PlicGateway.source]
    rw [Books, hidle]
    exact ⟨rfl, rfl⟩
  | succ n ih =>
    have hnext := @books_next ((after LevelEdgeTrig inputs n).source k)
      ((after LevelEdgeTrig inputs n).requests LevelEdgeTrig k) _ (completes (inputs n) k)
      (pending_of_claims hpulse hk)
    rw [← source_after_succ hlt n] at hnext
    rw [Books, raised, claimed, completed] at ih ⊢
    rw [Nat.count_succ, Nat.count_succ, Nat.count_succ]
    omega

/-- Every interrupt of a source is claimed once and completed once, as long as no two cycles in a
row claim. A claim returns the best of the sources that are pending and enabled, and the target is
notified when one of these is above the threshold. -/
theorem rv_plic_serves_once (LevelEdgeTrig : BitVec NumSrc) (inputs : ℕ → PlicIn NumSrc PRIOW)
    (hpulse : ∀ n, (inputs n).claim_re = true → (inputs (n + 1)).claim_re = false) {k : ℕ}
    (hk : 0 < k) (hlt : k < NumSrc) (n : ℕ) :
    Books LevelEdgeTrig inputs k n ∧
      ((after LevelEdgeTrig inputs (n + 1)).irq_id_o.toNat = k ↔
        (after LevelEdgeTrig inputs n).Best (inputs n) k) ∧
      ((after LevelEdgeTrig inputs (n + 1)).irq_o = true ↔
        ∃ j, (after LevelEdgeTrig inputs n).Competes (inputs n) j ∧
          (inputs n).threshold < (inputs n).prio j) :=
  ⟨books_after hpulse hk hlt n, irq_id_o_clock hk, irq_o_clock⟩

/-- A level on source 1, and a claim of it in cycle 4. -/
def oneInterrupt (n : ℕ) : PlicIn 2 2 :=
  ⟨0b10, fun _ => 1, 0b10, 0, decide (n = 4), false, 0⟩

theorem rv_plic_serves_once_oneInterrupt :
    claimed 0 oneInterrupt 1 5 = 1 ∧
      1 = completed 0 oneInterrupt 1 5 +
        if (after 0 oneInterrupt 5).source 1 = .active then 1 else 0 := by
  have hpulse : ∀ n, (oneInterrupt n).claim_re = true →
      (oneInterrupt (n + 1)).claim_re = false := by
    intro n hn
    obtain rfl : n = 4 := of_decide_eq_true hn
    rfl
  have hclaimed : claimed 0 oneInterrupt 1 5 = 1 := by decide +kernel
  obtain ⟨⟨-, hbooks⟩, -⟩ := rv_plic_serves_once 0 oneInterrupt hpulse Nat.one_pos Nat.one_lt_two 5
  exact ⟨hclaimed, hclaimed ▸ hbooks⟩

end Run

end Plic

end SecureBoot
