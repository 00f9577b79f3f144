import SecureBoot.Lib.BitCount

/-! The bits of a word that a mask selects, as a list with the lowest bit first. A mask
without holes selects a window of the word. -/

namespace BitWindow

open BitCount

/-- The `n` bits from `lo` on. -/
def window (f : ℕ → Bool) (lo n : ℕ) : List Bool := (List.range n).map fun j => f (lo + j)

section Window

variable {f g : ℕ → Bool} {lo lo' m n : ℕ}

@[simp] theorem length_window (f : ℕ → Bool) (lo n : ℕ) : (window f lo n).length = n := by
  simp [window]

@[simp] theorem window_zero (f : ℕ → Bool) (lo : ℕ) : window f lo 0 = [] := rfl

theorem window_add (f : ℕ → Bool) (lo m n : ℕ) :
    window f lo (m + n) = window f lo m ++ window f (lo + m) n := by
  simp [window, List.range_add, Function.comp_def, Nat.add_assoc]

theorem window_congr (h : ∀ j < n, f (lo + j) = g (lo' + j)) : window f lo n = window g lo' n :=
  List.map_congr_left fun j hj => h j (List.mem_range.mp hj)

end Window

/-- The bits of the data that the mask selects. -/
def masked {w : ℕ} (data mask : BitVec w) : List Bool :=
  (List.range w).filterMap fun i => if mask.getLsbD i then some (data.getLsbD i) else none

variable {w lo n : ℕ} {data mask : BitVec w}

theorem length_masked (data mask : BitVec w) :
    (masked data mask).length = count mask.getLsbD w := by
  rw [masked, count]
  induction List.range w with
  | nil => rfl
  | cons i l ih => cases h : mask.getLsbD i <;> simp [h, ih]

/-! ### Masks without holes -/

/-- The mask has ones from `lo` on, `n` of them. -/
structure Ones (mask : BitVec w) (lo n : ℕ) : Prop where
  le : lo + n ≤ w
  bit : ∀ i, mask.getLsbD i = decide (lo ≤ i ∧ i < lo + n)

namespace Ones

theorem zero (w : ℕ) : Ones (0 : BitVec w) 0 0 :=
  ⟨Nat.zero_le w, fun i => by simp⟩

theorem masked_eq (h : Ones mask lo n) (data : BitVec w) :
    masked data mask = window data.getLsbD lo n := by
  obtain ⟨k, rfl⟩ := Nat.exists_eq_add_of_le h.le
  have hnone {l : List ℕ} (hl : ∀ i ∈ l, ¬ (lo ≤ i ∧ i < lo + n)) :
      l.filterMap (fun i => if mask.getLsbD i then some (data.getLsbD i) else none) = [] := by
    rw [List.filterMap_eq_nil_iff]
    intro i hi
    rw [h.bit, decide_eq_false (hl i hi), if_neg Bool.false_ne_true]
  have hlow := hnone (l := List.range lo) fun i hi => by
    have := List.mem_range.mp hi
    omega
  have hhigh := hnone (l := (List.range k).map (lo + n + ·)) fun i hi => by
    obtain ⟨j, -, rfl⟩ := List.mem_map.mp hi
    omega
  rw [masked, List.range_add, List.range_add, List.filterMap_append, List.filterMap_append, hlow,
    hhigh, List.nil_append, List.append_nil, List.filterMap_map, window, ← List.filterMap_eq_map]
  apply List.filterMap_congr
  intro j hj
  have hlt := List.mem_range.mp hj
  simp [h.bit, hlt]

theorem count_eq (h : Ones mask lo n) : count mask.getLsbD w = n := by
  rw [← length_masked mask mask, h.masked_eq, length_window]

end Ones

/-- Between two ones of the mask there is no zero. -/
def Contiguous (mask : BitVec w) : Prop :=
  ∀ i j k, i ≤ j → j ≤ k → mask.getLsbD i = true → mask.getLsbD k = true → mask.getLsbD j = true

theorem Contiguous.exists_ones (h : Contiguous mask) : ∃ lo n, Ones mask lo n := by
  by_cases hzero : ∃ i, mask.getLsbD i = true
  · have hend : ∃ n, mask.getLsbD (Nat.find hzero + n) = false :=
      ⟨w, BitVec.getLsbD_of_ge mask _ (Nat.le_add_left w _)⟩
    have hset := Nat.find_spec hzero
    have hclear := Nat.find_spec hend
    have hbit (j : ℕ) (hj : j < Nat.find hend) : mask.getLsbD (Nat.find hzero + j) = true := by
      simpa using Nat.find_min hend hj
    refine ⟨Nat.find hzero, Nat.find hend, ?_, fun i => ?_⟩
    · obtain h0 | ⟨n, hn⟩ : Nat.find hend = 0 ∨ ∃ n, Nat.find hend = n + 1 := by
        cases Nat.find hend <;> simp
      · have := BitVec.lt_of_getLsbD hset
        omega
      · have := BitVec.lt_of_getLsbD (hbit n (by omega))
        omega
    · by_cases hlt : i < Nat.find hzero
      · have hi : mask.getLsbD i = false := by simpa using Nat.find_min hzero hlt
        rw [hi, decide_eq_false (by omega)]
      · by_cases hle : i < Nat.find hzero + Nat.find hend
        · have hi := hbit (i - Nat.find hzero) (by omega)
          rw [Nat.add_sub_cancel' (by omega)] at hi
          rw [hi, decide_eq_true (by omega)]
        · rw [decide_eq_false (by omega)]
          by_contra hi
          have hhole := h _ (Nat.find hzero + Nat.find hend) i (Nat.le_add_right _ _) (by omega)
            hset (by simpa using hi)
          rw [hclear] at hhole
          exact Bool.false_ne_true hhole
  · refine ⟨0, 0, Nat.zero_le w, fun i => ?_⟩
    have hi : mask.getLsbD i = false := by simpa using fun hi => hzero ⟨i, hi⟩
    simp [hi]

end BitWindow
