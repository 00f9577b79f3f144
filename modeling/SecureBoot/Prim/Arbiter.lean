import Mathlib.Data.Nat.Log
import SecureBoot.Lib.Bits

/-! The two round-robin arbiters, `prim_arbiter_ppc` and `prim_arbiter_tree`, for
`N > 1` ports. The combinational logic of a cycle is a function of the mask register
and the inputs; the tree is addressed by the height of a node and its offset in the
level. -/

namespace SecureBoot

open Bits

/-- The inputs of a cycle; `data_i` has an entry for each of the `N` ports. -/
structure ArbiterIn (N DW : ℕ) where
  rst_ni : Bool
  req_i : BitVec N
  data_i : ℕ → BitVec DW
  ready_i : Bool

@[ext]
structure ArbiterOut (N DW : ℕ) where
  gnt_o : BitVec N
  idx_o : BitVec (Nat.clog 2 N)
  valid_o : Bool
  data_o : BitVec DW

section Ppc

variable {N DW : ℕ} (EnDataPort : Bool) (mask : BitVec N) (i : ArbiterIn N DW)

def ppcArbReq : BitVec N :=
  let maskedReq := mask &&& i.req_i
  if maskedReq ≠ 0 then maskedReq else i.req_i

/-- The prefix or of the requests, bit by bit. -/
def ppcPrefix (arbReq : BitVec N) : ℕ → Bool
  | 0 => arbReq.getLsbD 0
  | n + 1 => ppcPrefix arbReq n || arbReq.getLsbD (n + 1)

def ppcOut : BitVec N := ofBits N (ppcPrefix (ppcArbReq mask i))

def ppcMaskNext : BitVec N := ppcOut mask i <<< 1

def ppcWinner : BitVec N := ppcOut mask i ^^^ (ppcOut mask i <<< 1)

/-- `if (winner[i]) out = value i;` for all `i` in order. -/
def lastWinner {α : Type*} (winner : BitVec N) (value : ℕ → α) (init : α) : α :=
  (List.range N).foldl (fun out i => if winner.getLsbD i then value i else out) init

/-- The outputs of `prim_arbiter_ppc` in a cycle. -/
def ppcOutputs : ArbiterOut N DW where
  gnt_o := if i.ready_i then ppcWinner mask i else 0
  idx_o := lastWinner (ppcWinner mask i) (fun j => BitVec.ofNat _ j) 0
  valid_o := i.req_i ≠ 0
  data_o := if EnDataPort then lastWinner (ppcWinner mask i) i.data_i 0 else BitVec.allOnes DW

/-- The mask register of `prim_arbiter_ppc` after a cycle. -/
def ppcMask : BitVec N :=
  if !i.rst_ni then 0
  else if i.req_i ≠ 0 ∧ i.ready_i then ppcMaskNext mask i
  else if i.req_i ≠ 0 ∧ !i.ready_i then ppcOut mask i
  else mask

end Ppc

section Tree

variable {N DW : ℕ} (EnDataPort : Bool) (prioMask : BitVec N) (i : ArbiterIn N DW)

/-- The forward signals of a node. -/
structure ArbiterNode (N DW : ℕ) where
  req : Bool
  prio : Bool
  idx : BitVec (Nat.clog 2 N)
  data : BitVec DW

/-- `gen_leafs`: the requests, and tied-off leaves from `N` on. -/
def treeLeaf (offset : ℕ) : ArbiterNode N DW :=
  if offset < N then
    { req := i.req_i.getLsbD offset
      prio := i.req_i.getLsbD offset && prioMask.getLsbD offset
      idx := BitVec.ofNat _ offset
      data := i.data_i offset }
  else { req := false, prio := false, idx := 0, data := 0 }

/-- The local selection of a node between its children. -/
def treeSel (c0 c1 : ArbiterNode N DW) : Bool := !c0.req || !c0.prio && c1.prio

/-- `gen_nodes`, the forward path. -/
def treeNode (c0 c1 : ArbiterNode N DW) : ArbiterNode N DW where
  req := c0.req || c1.req
  prio := c1.prio || c0.prio
  idx := if treeSel c0 c1 then c1.idx else c0.idx
  data := if treeSel c0 c1 then c1.data else c0.data

/-- The forward signals at a height above the leaves. -/
def treeForward : ℕ → ℕ → ArbiterNode N DW
  | 0, offset => treeLeaf prioMask i offset
  | height + 1, offset =>
    treeNode (treeForward height (2 * offset)) (treeForward height (2 * offset + 1))

/-- The backward signals `sel_tree` and `mask_tree` at a level below the root. -/
def treeBackward : ℕ → ℕ → Bool × Bool
  | 0, _ => (true, false)
  | level + 1, offset =>
    let pa := offset / 2
    let height := Nat.clog 2 N - (level + 1)
    let sel := treeSel (treeForward prioMask i height (2 * pa))
      (treeForward prioMask i height (2 * pa + 1))
    let (selPa, maskPa) := treeBackward level pa
    let selC0 := selPa && !sel
    if offset % 2 = 0 then (selC0, maskPa) else (selPa && sel, maskPa || selC0)

/-- The outputs of `prim_arbiter_tree` in a cycle. -/
def treeOutputs : ArbiterOut N DW where
  gnt_o := ofBits N fun offset =>
    i.req_i.getLsbD offset && (treeBackward prioMask i (Nat.clog 2 N) offset).1 && i.ready_i
  idx_o := (treeForward prioMask i (Nat.clog 2 N) 0).idx
  valid_o := (treeForward prioMask i (Nat.clog 2 N) 0).req
  data_o := if EnDataPort then (treeForward prioMask i (Nat.clog 2 N) 0).data
    else BitVec.allOnes DW

/-- The mask register of `prim_arbiter_tree` after a cycle. -/
def treeMask : BitVec N :=
  let prioMaskD := ofBits N fun offset =>
    let (sel, mask) := treeBackward prioMask i (Nat.clog 2 N) offset
    if i.req_i ≠ 0 then mask || sel && !i.ready_i else prioMask.getLsbD offset
  if !i.rst_ni then 0 else prioMaskD

end Tree

/-- The mask register at the start of a cycle, from reset on; it reads zero as soon as
reset is asserted. -/
def arbiterMask {N DW : ℕ} (next : BitVec N → ArbiterIn N DW → BitVec N)
    (inputs : ℕ → ArbiterIn N DW) : ℕ → BitVec N
  | 0 => 0
  | n + 1 =>
    let mask := next (arbiterMask next inputs n) (inputs n)
    if (inputs (n + 1)).rst_ni then mask else 0

end SecureBoot

/-! The tree arbiter against the arbiter with a prefix or. Both grant the first
request of the masked ones, or of all of them when none is masked in; a node of the
tree decides so among the leaves below it, and the backward path marks the leaf
decided at the root and the leaves after it. -/

namespace SecureBoot

open Bits

/-- The first place where `f` is set. -/
structure IsFirst (f : ℕ → Bool) (w : ℕ) : Prop where
  set : f w = true
  clear : ∀ j < w, f j = false

/-! ### The prefix or -/

section Ppc

variable {N DW : ℕ} {EnDataPort : Bool} {mask : BitVec N} {i : ArbiterIn N DW} {w : ℕ}

theorem ppcPrefix_eq {arbReq : BitVec N} (hw : IsFirst arbReq.getLsbD w) (j : ℕ) :
    ppcPrefix arbReq j = decide (w ≤ j) := by
  induction j with
  | zero =>
    rw [ppcPrefix]
    by_cases h : w = 0
    · rw [← h, hw.set, decide_eq_true (Nat.le_refl w)]
    · rw [hw.clear 0 (by omega), decide_eq_false (by omega)]
  | succ j ih =>
    rw [ppcPrefix, ih]
    obtain h | h | h : w ≤ j ∨ w = j + 1 ∨ j + 1 < w := by omega
    · rw [decide_eq_true h, decide_eq_true (by omega), Bool.true_or]
    · rw [← h, hw.set, Bool.or_true, decide_eq_true (Nat.le_refl w)]
    · rw [hw.clear _ h, decide_eq_false (by omega), decide_eq_false (by omega), Bool.or_false]

variable (hw : IsFirst (ppcArbReq mask i).getLsbD w)

include hw

theorem getLsbD_ppcOut {j : ℕ} (hj : j < N) : (ppcOut mask i).getLsbD j = decide (w ≤ j) := by
  rw [ppcOut, getLsbD_ofBits hj, ppcPrefix_eq hw]

theorem getLsbD_ppcMaskNext {j : ℕ} (hj : j < N) :
    (ppcMaskNext mask i).getLsbD j = decide (w < j) := by
  rw [ppcMaskNext, BitVec.getLsbD_shiftLeft]
  cases j with
  | zero => simp
  | succ j =>
    rw [Nat.add_sub_cancel, getLsbD_ppcOut hw (by omega)]
    simp [hj, Nat.lt_succ_iff]

theorem getLsbD_ppcWinner {j : ℕ} (hj : j < N) :
    (ppcWinner mask i).getLsbD j = decide (j = w) := by
  have hnext : (ppcOut mask i <<< 1).getLsbD j = decide (w < j) := getLsbD_ppcMaskNext hw hj
  rw [ppcWinner, BitVec.getLsbD_xor, getLsbD_ppcOut hw hj, hnext]
  obtain h | rfl | h := Nat.lt_trichotomy j w
  · rw [decide_eq_false (by omega), decide_eq_false (by omega), decide_eq_false (by omega),
      Bool.xor_false]
  · simp
  · rw [decide_eq_true (by omega), decide_eq_true h, decide_eq_false (by omega), Bool.xor_self]

omit hw in
theorem lastWinner_eq {α : Type*} {winner : BitVec N} (hwN : w < N)
    (h : ∀ j < N, winner.getLsbD j = decide (j = w)) (value : ℕ → α) (init : α) :
    lastWinner winner value init = value w := by
  have hfold : ∀ n ≤ N, (List.range n).foldl
      (fun out i => if winner.getLsbD i then value i else out) init =
        if w < n then value w else init := by
    intro n hn
    induction n with
    | zero => rfl
    | succ n ih =>
      rw [List.range_succ, List.foldl_append, ih (by omega), List.foldl_cons, List.foldl_nil,
        h n (by omega)]
      by_cases hlast : n = w
      · simp [hlast]
      · rw [decide_eq_false hlast, if_neg Bool.false_ne_true]
        by_cases hlt : w < n
        · rw [if_pos hlt, if_pos (by omega)]
        · rw [if_neg hlt, if_neg (by omega)]
  rw [lastWinner, hfold N (Nat.le_refl N), if_pos hwN]

end Ppc

/-! ### The tree -/

section Tree

variable {N DW : ℕ} (prioMask : BitVec N) (i : ArbiterIn N DW)

/-- The leaf that a node decides for. -/
def treeWinner : ℕ → ℕ → ℕ
  | 0, offset => offset
  | height + 1, offset =>
    if treeSel (treeForward prioMask i height (2 * offset))
        (treeForward prioMask i height (2 * offset + 1)) then
      treeWinner height (2 * offset + 1)
    else treeWinner height (2 * offset)

theorem treeForward_payload (height offset : ℕ) :
    (treeForward prioMask i height offset).idx =
        (treeLeaf prioMask i (treeWinner prioMask i height offset)).idx ∧
      (treeForward prioMask i height offset).data =
        (treeLeaf prioMask i (treeWinner prioMask i height offset)).data := by
  induction height generalizing offset with
  | zero => exact ⟨rfl, rfl⟩
  | succ height ih =>
    simp only [treeForward, treeNode, treeWinner]
    split_ifs
    · exact ih _
    · exact ih _

/-- The leaves below a node are those below its children. -/
theorem div_two_pow_succ {l height offset : ℕ} :
    l / 2 ^ (height + 1) = offset ↔
      l / 2 ^ height = 2 * offset ∨ l / 2 ^ height = 2 * offset + 1 := by
  rw [Nat.pow_succ, ← Nat.div_div_eq_div_mul]
  omega

theorem treeWinner_div (height offset : ℕ) :
    treeWinner prioMask i height offset / 2 ^ height = offset := by
  induction height generalizing offset with
  | zero => rw [treeWinner, Nat.pow_zero, Nat.div_one]
  | succ height ih =>
    rw [treeWinner, div_two_pow_succ]
    split_ifs
    · exact .inr (ih _)
    · exact .inl (ih _)

/-- What a node decides from its leaves: there is a request, or a masked one, when a leaf
has it, and the decision is the first masked request, or else the first request. -/
structure TreeDecides (height offset : ℕ) : Prop where
  req : (treeForward prioMask i height offset).req = true ↔
    ∃ l, l / 2 ^ height = offset ∧ (treeLeaf prioMask i l).req = true
  prio : (treeForward prioMask i height offset).prio = true ↔
    ∃ l, l / 2 ^ height = offset ∧ (treeLeaf prioMask i l).prio = true
  first_prio : (treeForward prioMask i height offset).prio = true →
    (treeLeaf prioMask i (treeWinner prioMask i height offset)).prio = true ∧
    ∀ l < treeWinner prioMask i height offset, l / 2 ^ height = offset →
      (treeLeaf prioMask i l).prio = false
  first_req : (treeForward prioMask i height offset).prio = false →
    (treeForward prioMask i height offset).req = true →
    (treeLeaf prioMask i (treeWinner prioMask i height offset)).req = true ∧
    ∀ l < treeWinner prioMask i height offset, l / 2 ^ height = offset →
      (treeLeaf prioMask i l).req = false

namespace TreeDecides

variable {prioMask i} {height offset : ℕ} (h : TreeDecides prioMask i height offset)

include h

theorem prio_le_req (hprio : (treeForward prioMask i height offset).prio = true) :
    (treeForward prioMask i height offset).req = true := by
  obtain ⟨l, hl, hleaf⟩ := h.prio.mp hprio
  refine h.req.mpr ⟨l, hl, ?_⟩
  unfold treeLeaf at hleaf ⊢
  split_ifs at hleaf ⊢
  exact (Bool.and_eq_true_iff.mp hleaf).1

theorem leaf_prio_false (hprio : (treeForward prioMask i height offset).prio = false) {l : ℕ}
    (hl : l / 2 ^ height = offset) : (treeLeaf prioMask i l).prio = false := by
  by_contra hleaf
  rw [h.prio.mpr ⟨l, hl, by simpa using hleaf⟩] at hprio
  exact Bool.false_ne_true hprio.symm

theorem leaf_req_false (hreq : (treeForward prioMask i height offset).req = false) {l : ℕ}
    (hl : l / 2 ^ height = offset) : (treeLeaf prioMask i l).req = false := by
  by_contra hleaf
  rw [h.req.mpr ⟨l, hl, by simpa using hleaf⟩] at hreq
  exact Bool.false_ne_true hreq.symm

end TreeDecides

/-- The leaves below the left child come before those below the right child. -/
theorem not_lt_of_div {l w height offset : ℕ} (hl : l / 2 ^ height = 2 * offset + 1)
    (hw : w / 2 ^ height = 2 * offset) : ¬l < w := by
  intro hlt
  have := Nat.div_le_div_right (c := 2 ^ height) (Nat.le_of_lt hlt)
  omega

theorem treeDecides_zero (offset : ℕ) : TreeDecides prioMask i 0 offset where
  req := by simp [treeForward]
  prio := by simp [treeForward]
  first_prio := by
    intro h
    refine ⟨h, fun l hl hdiv => ?_⟩
    rw [Nat.pow_zero, Nat.div_one] at hdiv
    exact absurd hdiv (Nat.ne_of_lt hl)
  first_req := by
    intro _ h
    refine ⟨h, fun l hl hdiv => ?_⟩
    rw [Nat.pow_zero, Nat.div_one] at hdiv
    exact absurd hdiv (Nat.ne_of_lt hl)

variable {prioMask i} in
/-- A node decides for the left child when that has a masked request, or a request where
the right child has no masked one. -/
theorem treeDecides_succ {height offset : ℕ}
    (h0 : TreeDecides prioMask i height (2 * offset))
    (h1 : TreeDecides prioMask i height (2 * offset + 1)) :
    TreeDecides prioMask i (height + 1) offset where
  req := by
    simp only [treeForward, treeNode, Bool.or_eq_true, h0.req, h1.req, div_two_pow_succ, or_and_right,
      exists_or]
  prio := by
    simp only [treeForward, treeNode, Bool.or_eq_true, h0.prio, h1.prio, div_two_pow_succ,
      or_and_right, exists_or]
    exact or_comm
  first_prio := by
    simp only [treeForward, treeNode, treeWinner]
    intro hprio
    have hle := h0.prio_le_req
    cases hsel : treeSel (treeForward prioMask i height (2 * offset))
        (treeForward prioMask i height (2 * offset + 1)) with
    | true =>
      rw [if_pos rfl]
      rw [treeSel] at hsel
      have hc0 : (treeForward prioMask i height (2 * offset)).prio = false := by grind
      have hc1 : (treeForward prioMask i height (2 * offset + 1)).prio = true := by grind
      obtain ⟨hset, hclear⟩ := h1.first_prio hc1
      refine ⟨hset, fun l hl hdiv => ?_⟩
      obtain hl0 | hl1 := div_two_pow_succ.mp hdiv
      · exact h0.leaf_prio_false hc0 hl0
      · exact hclear l hl hl1
    | false =>
      rw [if_neg Bool.false_ne_true]
      rw [treeSel] at hsel
      have hc0 : (treeForward prioMask i height (2 * offset)).prio = true := by grind
      obtain ⟨hset, hclear⟩ := h0.first_prio hc0
      refine ⟨hset, fun l hl hdiv => ?_⟩
      obtain hl0 | hl1 := div_two_pow_succ.mp hdiv
      · exact hclear l hl hl0
      · exact absurd hl (not_lt_of_div hl1 (treeWinner_div prioMask i height (2 * offset)))
  first_req := by
    simp only [treeForward, treeNode, treeWinner]
    intro hprio hreq
    obtain ⟨hp1, hp0⟩ := Bool.or_eq_false_iff.mp hprio
    cases hsel : treeSel (treeForward prioMask i height (2 * offset))
        (treeForward prioMask i height (2 * offset + 1)) with
    | true =>
      rw [if_pos rfl]
      rw [treeSel] at hsel
      have hc0 : (treeForward prioMask i height (2 * offset)).req = false := by grind
      have hc1 : (treeForward prioMask i height (2 * offset + 1)).req = true := by grind
      obtain ⟨hset, hclear⟩ := h1.first_req hp1 hc1
      refine ⟨hset, fun l hl hdiv => ?_⟩
      obtain hl0 | hl1 := div_two_pow_succ.mp hdiv
      · exact h0.leaf_req_false hc0 hl0
      · exact hclear l hl hl1
    | false =>
      rw [if_neg Bool.false_ne_true]
      rw [treeSel] at hsel
      have hc0 : (treeForward prioMask i height (2 * offset)).req = true := by grind
      obtain ⟨hset, hclear⟩ := h0.first_req hp0 hc0
      refine ⟨hset, fun l hl hdiv => ?_⟩
      obtain hl0 | hl1 := div_two_pow_succ.mp hdiv
      · exact hclear l hl hl0
      · exact absurd hl (not_lt_of_div hl1 (treeWinner_div prioMask i height (2 * offset)))

theorem treeDecides (height offset : ℕ) : TreeDecides prioMask i height offset := by
  induction height generalizing offset with
  | zero => exact treeDecides_zero prioMask i offset
  | succ height ih => exact treeDecides_succ (ih _) (ih _)

/-- The backward path marks the node above the leaf that the root decides for, and the
nodes after it. -/
theorem treeBackward_eq {level : ℕ} (hlevel : level ≤ Nat.clog 2 N) :
    ∃ p, treeWinner prioMask i (Nat.clog 2 N - level) p = treeWinner prioMask i (Nat.clog 2 N) 0 ∧
      ∀ offset < 2 ^ level,
        treeBackward prioMask i level offset = (decide (offset = p), decide (p < offset)) := by
  induction level with
  | zero =>
    refine ⟨0, rfl, fun offset hoffset => ?_⟩
    have hzero : offset = 0 := by omega
    rw [hzero]
    rfl
  | succ level ih =>
    obtain ⟨p, hp, hback⟩ := ih (by omega)
    have hheight : Nat.clog 2 N - level = Nat.clog 2 N - (level + 1) + 1 := by omega
    rw [hheight, treeWinner] at hp
    have hstep : ∀ offset < 2 ^ (level + 1), treeBackward prioMask i (level + 1) offset =
        if offset % 2 = 0 then
          (decide (offset / 2 = p) && !treeSel
            (treeForward prioMask i (Nat.clog 2 N - (level + 1)) (2 * (offset / 2)))
            (treeForward prioMask i (Nat.clog 2 N - (level + 1)) (2 * (offset / 2) + 1)),
            decide (p < offset / 2))
        else
          (decide (offset / 2 = p) && treeSel
            (treeForward prioMask i (Nat.clog 2 N - (level + 1)) (2 * (offset / 2)))
            (treeForward prioMask i (Nat.clog 2 N - (level + 1)) (2 * (offset / 2) + 1)),
            decide (p < offset / 2) || (decide (offset / 2 = p) && !treeSel
            (treeForward prioMask i (Nat.clog 2 N - (level + 1)) (2 * (offset / 2)))
            (treeForward prioMask i (Nat.clog 2 N - (level + 1)) (2 * (offset / 2) + 1)))) := by
      intro offset hoffset
      rw [Nat.pow_succ] at hoffset
      simp only [treeBackward, hback (offset / 2) (by omega)]
    cases hsel : treeSel (treeForward prioMask i (Nat.clog 2 N - (level + 1)) (2 * p))
        (treeForward prioMask i (Nat.clog 2 N - (level + 1)) (2 * p + 1)) with
    | true =>
      rw [if_pos hsel] at hp
      refine ⟨2 * p + 1, hp, fun offset hoffset => ?_⟩
      rw [hstep offset hoffset]
      by_cases hpa : offset / 2 = p
      · rw [hpa, hsel]
        split_ifs with heven <;> simp <;> omega
      · rw [decide_eq_false hpa]
        split_ifs with heven <;> simp <;> omega
    | false =>
      rw [if_neg (by rw [hsel]; exact Bool.false_ne_true)] at hp
      refine ⟨2 * p, hp, fun offset hoffset => ?_⟩
      rw [hstep offset hoffset]
      by_cases hpa : offset / 2 = p
      · rw [hpa, hsel]
        split_ifs with heven <;> simp <;> omega
      · rw [decide_eq_false hpa]
        split_ifs with heven <;> simp <;> omega

theorem treeLeaf_req (l : ℕ) : (treeLeaf prioMask i l).req = i.req_i.getLsbD l := by
  unfold treeLeaf
  split_ifs with hl
  · rfl
  · exact (BitVec.getLsbD_of_ge _ l (by omega)).symm

theorem treeLeaf_prio (l : ℕ) :
    (treeLeaf prioMask i l).prio = (prioMask &&& i.req_i).getLsbD l := by
  unfold treeLeaf
  rw [BitVec.getLsbD_and, Bool.and_comm]
  split_ifs with hl
  · rfl
  · rw [BitVec.getLsbD_of_ge i.req_i l (by omega), Bool.and_false]

/-- Every port has a leaf below the root. -/
theorem div_two_pow_clog {l : ℕ} (hl : l < N) : l / 2 ^ Nat.clog 2 N = 0 :=
  Nat.div_eq_of_lt (hl.trans_le (Nat.le_pow_clog (by omega) N))

theorem root_req : (treeForward prioMask i (Nat.clog 2 N) 0).req = decide (i.req_i ≠ 0) := by
  rw [Bool.eq_iff_iff, (treeDecides prioMask i (Nat.clog 2 N) 0).req, decide_eq_true_eq]
  simp only [treeLeaf_req]
  constructor
  · rintro ⟨l, _, hl⟩
    exact ne_zero_iff.mpr ⟨l, hl⟩
  · intro hne
    obtain ⟨l, hl⟩ := ne_zero_iff.mp hne
    exact ⟨l, div_two_pow_clog (BitVec.lt_of_getLsbD hl), hl⟩

theorem root_prio :
    (treeForward prioMask i (Nat.clog 2 N) 0).prio = decide (prioMask &&& i.req_i ≠ 0) := by
  rw [Bool.eq_iff_iff, (treeDecides prioMask i (Nat.clog 2 N) 0).prio, decide_eq_true_eq]
  simp only [treeLeaf_prio]
  constructor
  · rintro ⟨l, _, hl⟩
    exact ne_zero_iff.mpr ⟨l, hl⟩
  · intro hne
    obtain ⟨l, hl⟩ := ne_zero_iff.mp hne
    exact ⟨l, div_two_pow_clog (BitVec.lt_of_getLsbD hl), hl⟩

/-- The root decides for the port that the prefix or finds first. -/
theorem root_isFirst (hreq : i.req_i ≠ 0) :
    IsFirst (ppcArbReq prioMask i).getLsbD (treeWinner prioMask i (Nat.clog 2 N) 0) ∧
      i.req_i.getLsbD (treeWinner prioMask i (Nat.clog 2 N) 0) = true := by
  have h := treeDecides prioMask i (Nat.clog 2 N) 0
  have hroot := root_req prioMask i
  rw [decide_eq_true hreq] at hroot
  have hunder : ∀ l < treeWinner prioMask i (Nat.clog 2 N) 0, l / 2 ^ Nat.clog 2 N = 0 := by
    intro l hl
    have hw := treeWinner_div prioMask i (Nat.clog 2 N) 0
    have := Nat.div_le_div_right (c := 2 ^ Nat.clog 2 N) (Nat.le_of_lt hl)
    exact Nat.le_zero.mp (this.trans_eq hw)
  unfold ppcArbReq
  by_cases hmasked : prioMask &&& i.req_i ≠ 0
  · have hprio := root_prio prioMask i
    rw [decide_eq_true hmasked] at hprio
    obtain ⟨hset, hclear⟩ := h.first_prio hprio
    rw [treeLeaf_prio] at hset
    simp only [if_pos hmasked]
    refine ⟨⟨hset, fun l hl => ?_⟩, ?_⟩
    · rw [← treeLeaf_prio]
      exact hclear l hl (hunder l hl)
    · rw [BitVec.getLsbD_and] at hset
      exact (Bool.and_eq_true_iff.mp hset).2
  · have hprio := root_prio prioMask i
    rw [decide_eq_false hmasked] at hprio
    obtain ⟨hset, hclear⟩ := h.first_req hprio hroot
    rw [treeLeaf_req] at hset
    simp only [if_neg hmasked]
    refine ⟨⟨hset, fun l hl => ?_⟩, hset⟩
    rw [← treeLeaf_req prioMask]
    exact hclear l hl (hunder l hl)

/-- At the leaves the backward path marks the winner and the ports after it. -/
theorem treeBackward_leaf {j : ℕ} (hj : j < N) :
    treeBackward prioMask i (Nat.clog 2 N) j =
      (decide (j = treeWinner prioMask i (Nat.clog 2 N) 0),
        decide (treeWinner prioMask i (Nat.clog 2 N) 0 < j)) := by
  obtain ⟨p, hp, hback⟩ := treeBackward_eq prioMask i (Nat.le_refl (Nat.clog 2 N))
  rw [Nat.sub_self, treeWinner] at hp
  rw [hback j (hj.trans_le (Nat.le_pow_clog (by omega) N)), hp]

end Tree

/-! ### Refinement -/

section Refinement

variable {N DW : ℕ} (EnDataPort : Bool) (mask : BitVec N) (i : ArbiterIn N DW)

theorem treeOutputs_eq (hreq : i.req_i ≠ 0) :
    treeOutputs EnDataPort mask i = ppcOutputs EnDataPort mask i := by
  obtain ⟨hfirst, hwreq⟩ := root_isFirst mask i hreq
  have hw := BitVec.lt_of_getLsbD hwreq
  have hwinner := fun j (hj : j < N) => getLsbD_ppcWinner hfirst hj
  obtain ⟨hidx, hdata⟩ := treeForward_payload mask i (Nat.clog 2 N) 0
  ext1
  · apply BitVec.eq_of_getLsbD_eq
    intro j hj
    rw [treeOutputs, ppcOutputs, getLsbD_ofBits hj, treeBackward_leaf mask i hj]
    by_cases hjw : j = treeWinner mask i (Nat.clog 2 N) 0
    · subst hjw
      cases i.ready_i with
      | true => simp [hwinner _ hj, hwreq]
      | false => simp
    · cases i.ready_i with
      | true => simp [hwinner j hj, hjw]
      | false => simp
  · rw [treeOutputs, ppcOutputs, hidx, lastWinner_eq hw hwinner, treeLeaf, if_pos hw]
  · rw [treeOutputs, ppcOutputs, root_req]
  · simp only [treeOutputs, ppcOutputs, hdata, lastWinner_eq hw hwinner, treeLeaf, if_pos hw]

theorem treeMask_eq : treeMask mask i = ppcMask mask i := by
  unfold treeMask ppcMask
  cases i.rst_ni with
  | false => rfl
  | true =>
    apply BitVec.eq_of_getLsbD_eq
    intro j hj
    by_cases hreq : i.req_i ≠ 0
    · obtain ⟨hfirst, _⟩ := root_isFirst mask i hreq
      simp only [Bool.not_true, Bool.false_eq_true, if_false, getLsbD_ofBits hj, if_pos hreq,
        treeBackward_leaf mask i hj]
      cases i.ready_i with
      | true =>
        rw [if_pos ⟨hreq, rfl⟩, getLsbD_ppcMaskNext hfirst hj, Bool.not_true, Bool.and_false,
          Bool.or_false]
      | false =>
        rw [if_neg (by simp), if_pos ⟨hreq, rfl⟩, getLsbD_ppcOut hfirst hj, Bool.not_false,
          Bool.and_true, ← Bool.decide_or, decide_eq_decide]
        omega
    · simp only [Bool.not_true, Bool.false_eq_true, if_false, getLsbD_ofBits hj, hreq, false_and]

/-- From reset on, the arbiters hold equal masks, and in every cycle with a request their
outputs are equal. -/
theorem arbiterTree_refines_ppc (inputs : ℕ → ArbiterIn N DW) (n : ℕ) :
    arbiterMask treeMask inputs n = arbiterMask ppcMask inputs n ∧
      ((inputs n).req_i ≠ 0 →
        treeOutputs EnDataPort (arbiterMask treeMask inputs n) (inputs n) =
          ppcOutputs EnDataPort (arbiterMask ppcMask inputs n) (inputs n)) := by
  have hmask : arbiterMask treeMask inputs n = arbiterMask ppcMask inputs n := by
    induction n with
    | zero => rfl
    | succ n ih => simp only [arbiterMask, ih, treeMask_eq]
  exact ⟨hmask, fun hreq => by rw [hmask, treeOutputs_eq EnDataPort _ _ hreq]⟩

end Refinement

end SecureBoot
