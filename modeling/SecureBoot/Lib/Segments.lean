import Mathlib.Data.List.Induction
import Mathlib.Data.Nat.Bitwise

/-! Segments laid over a buffer one after another, where the last one that covers a place is
what the place shows. -/

namespace Segments

variable {α : Type}

structure Segment (α : Type) where
  start : ℕ
  data : List α

namespace Segment

variable (s : Segment α)

def Covers (i : ℕ) : Prop := s.start ≤ i ∧ i < s.start + s.data.length

def Fits (n : ℕ) : Prop := s.start + s.data.length ≤ n

/-- No place is in both. -/
def Disjoint (t : Segment α) : Prop := ∀ i, s.Covers i → ¬ t.Covers i

/-- There are places of both in one block of `n`. -/
def ShareBlock (n : ℕ) (t : Segment α) : Prop :=
  ∃ i j, s.Covers i ∧ t.Covers j ∧ i / n = j / n

variable {s} {t : Segment α}

theorem Disjoint.symm (h : s.Disjoint t) : t.Disjoint s := fun i ht hs => h i hs ht

theorem ShareBlock.symm {n : ℕ} (h : s.ShareBlock n t) : t.ShareBlock n s := by
  obtain ⟨i, j, hi, hj, heq⟩ := h
  exact ⟨j, i, hj, hi, heq.symm⟩

/-- A segment that starts no later than a disjoint one ends before it. -/
theorem Disjoint.le (h : s.Disjoint t) (hle : s.start ≤ t.start) (ht : 0 < t.data.length) :
    s.start + s.data.length ≤ t.start := by
  by_contra hlt
  exact h t.start ⟨hle, by omega⟩ ⟨Nat.le_refl _, by omega⟩

theorem not_shareBlock_iff (n : ℕ) (hle : s.start + s.data.length ≤ t.start)
    (hs : 0 < s.data.length) (ht : 0 < t.data.length) :
    ¬ s.ShareBlock n t ↔ (s.start + s.data.length - 1) / n < t.start / n := by
  constructor
  · intro h
    by_contra hnot
    have hmono : (s.start + s.data.length - 1) / n ≤ t.start / n :=
      Nat.div_le_div_right (by omega)
    apply h
    refine ⟨s.start + s.data.length - 1, t.start, ⟨by omega, by omega⟩, ⟨Nat.le_refl _, ?_⟩, ?_⟩
    · omega
    · exact Nat.le_antisymm hmono (Nat.not_lt.mp hnot)
  · rintro hlt ⟨i, j, ⟨-, hi⟩, ⟨hj, -⟩, heq⟩
    have hi' : i / n ≤ (s.start + s.data.length - 1) / n := Nat.div_le_div_right (by omega)
    have hj' : t.start / n ≤ j / n := Nat.div_le_div_right hj
    omega

end Segment

def overwrite (buf : List α) (s : Segment α) : List α :=
  buf.take s.start ++ s.data ++ buf.drop (s.start + s.data.length)

/-- What segments leave of a buffer: a place shows the last one that covers it. -/
structure LaidOver (base : List α) (segs : List (Segment α)) (buf : List α) : Prop where
  length : buf.length = base.length
  covered : ∀ before s after i, segs = before ++ s :: after → s.Covers i →
    (∀ t ∈ after, ¬ t.Covers i) → buf[i]? = s.data[i - s.start]?
  uncovered : ∀ i, (∀ s ∈ segs, ¬ s.Covers i) → buf[i]? = base[i]?

variable {base buf : List α} {segs : List (Segment α)} {s : Segment α} {i : ℕ}

theorem length_overwrite (h : s.Fits buf.length) : (overwrite buf s).length = buf.length := by
  unfold Segment.Fits at h
  simp only [overwrite, List.length_append, List.length_take, List.length_drop]
  omega

theorem getElem?_overwrite_of_covers (h : s.Fits buf.length) (hi : s.Covers i) :
    (overwrite buf s)[i]? = s.data[i - s.start]? := by
  obtain ⟨hle, hlt⟩ := hi
  unfold Segment.Fits at h
  have hstart : (buf.take s.start).length = s.start := by
    rw [List.length_take]
    omega
  rw [overwrite, List.append_assoc, List.getElem?_append_right (by omega), hstart,
    List.getElem?_append_left (by omega)]

theorem getElem?_overwrite_of_not_covers (h : s.Fits buf.length) (hi : ¬ s.Covers i) :
    (overwrite buf s)[i]? = buf[i]? := by
  unfold Segment.Fits at h
  unfold Segment.Covers at hi
  have hstart : (buf.take s.start).length = s.start := by
    rw [List.length_take]
    omega
  rcases Nat.lt_or_ge i s.start with hlt | hge
  · rw [overwrite, List.append_assoc, List.getElem?_append_left (by omega),
      List.getElem?_take_of_lt hlt]
  · have hout : s.start + s.data.length ≤ i := by omega
    have hlength : (buf.take s.start ++ s.data).length = s.start + s.data.length := by
      rw [List.length_append, hstart]
    rw [overwrite, List.getElem?_append_right (by omega), hlength, List.getElem?_drop]
    congr 1
    omega

theorem laidOver_nil (base : List α) : LaidOver base [] base where
  length := rfl
  covered before s after i h := by simp at h
  uncovered i h := rfl

theorem LaidOver.concat (h : LaidOver base segs buf) (hs : s.Fits base.length) :
    LaidOver base (segs ++ [s]) (overwrite buf s) where
  length := by rw [length_overwrite (h.length ▸ hs), h.length]
  covered before t after i hsegs ht hafter := by
    rw [← h.length] at hs
    induction after using List.reverseRecOn with
    | nil =>
      obtain ⟨-, rfl⟩ := List.append_singleton_inj.1 hsegs
      exact getElem?_overwrite_of_covers hs ht
    | append_singleton after u _ =>
      rw [← List.cons_append, ← List.append_assoc] at hsegs
      obtain ⟨hbefore, rfl⟩ := List.append_singleton_inj.1 hsegs
      simp only [List.mem_append, List.mem_singleton] at hafter
      rw [getElem?_overwrite_of_not_covers hs (hafter s (.inr rfl))]
      exact h.covered before t after i hbefore ht fun u hu => hafter u (.inl hu)
  uncovered i hi := by
    rw [← h.length] at hs
    simp only [List.mem_append, List.mem_singleton] at hi
    rw [getElem?_overwrite_of_not_covers hs (hi s (.inr rfl))]
    exact h.uncovered i fun u hu => hi u (.inl hu)

/-- Segments that fit, laid over a buffer in their order. -/
theorem laidOver_foldl (h : ∀ s ∈ segs, s.Fits base.length) :
    LaidOver base segs (segs.foldl overwrite base) := by
  induction segs using List.reverseRecOn with
  | nil => exact laidOver_nil base
  | append_singleton segs s ih =>
    simp only [List.mem_append, List.mem_singleton] at h
    rw [List.foldl_append]
    apply (ih fun t ht => h t (.inl ht)).concat
    exact h s (.inr rfl)

/-! ### Blocks filled up between segments -/

/-- Blocks that show every segment, and `fill` where there is none. -/
structure FilledUp (fill : α) (blocks segs : List (Segment α)) : Prop where
  covered : ∀ s ∈ segs, ∀ i, s.Covers i →
    ∃ b ∈ blocks, b.Covers i ∧ b.data[i - b.start]? = s.data[i - s.start]?
  uncovered : ∀ b ∈ blocks, ∀ i, b.Covers i → (∀ s ∈ segs, ¬ s.Covers i) →
    b.data[i - b.start]? = some fill

theorem filledUp_nil (fill : α) : FilledUp fill [] [] where
  covered _ hs := absurd hs List.not_mem_nil
  uncovered _ hb := absurd hb List.not_mem_nil

/-- A segment behind filling, as a part of a block. -/
def Segment.behind (s : Segment α) (fill : α) (gap : ℕ) : List α :=
  List.replicate gap fill ++ s.data

theorem Segment.getElem?_behind (s : Segment α) (fill : α) {gap i : ℕ} (hgap : gap ≤ s.start) :
    (s.start - gap ≤ i → i < s.start →
      (s.behind fill gap)[i - (s.start - gap)]? = some fill) ∧
    (s.start ≤ i → (s.behind fill gap)[i - (s.start - gap)]? = s.data[i - s.start]?) := by
  constructor
  · intro hle hlt
    rw [behind, List.getElem?_append_left (by rw [List.length_replicate]; omega),
      List.getElem?_replicate, if_pos (by omega)]
  · intro hle
    rw [behind, List.getElem?_append_right (by rw [List.length_replicate]; omega),
      List.length_replicate]
    congr 1
    omega

variable {fill : α} {blocks : List (Segment α)} {b : Segment α} {gap : ℕ}

/-- A further segment as a block of its own, behind some filling. -/
theorem FilledUp.concat (h : FilledUp fill blocks segs) (hgap : gap ≤ s.start) :
    FilledUp fill (blocks ++ [⟨s.start - gap, s.behind fill gap⟩]) (segs ++ [s]) where
  covered t ht i hi := by
    rcases List.mem_append.mp ht with ht | ht
    · obtain ⟨b, hb, hcovers, hdata⟩ := h.covered t ht i hi
      exact ⟨b, List.mem_append_left _ hb, hcovers, hdata⟩
    · obtain rfl := List.mem_singleton.mp ht
      obtain ⟨hle, hlt⟩ := hi
      refine ⟨_, List.mem_append_right _ (List.mem_singleton_self _),
        ⟨(Nat.sub_le _ _).trans hle, ?_⟩, (t.getElem?_behind fill hgap).2 hle⟩
      change i < t.start - gap + (t.behind fill gap).length
      rw [Segment.behind, List.length_append, List.length_replicate]
      omega
  uncovered c hc i hi hnone := by
    rcases List.mem_append.mp hc with hc | hc
    · exact h.uncovered c hc i hi fun t ht => hnone t (List.mem_append_left _ ht)
    · obtain rfl := List.mem_singleton.mp hc
      obtain ⟨hle, hlt⟩ := hi
      simp only [Segment.behind, List.length_append, List.length_replicate] at hle hlt
      have hs := hnone s (List.mem_append_right _ (List.mem_singleton_self _))
      unfold Segment.Covers at hs
      exact (s.getElem?_behind fill hgap).1 hle (by omega)

/-- A further segment at the end of the last block, behind some filling. -/
theorem FilledUp.extend (h : FilledUp fill (blocks ++ [b]) segs)
    (hstart : s.start = b.start + b.data.length + gap) :
    FilledUp fill (blocks ++ [⟨b.start, b.data ++ s.behind fill gap⟩]) (segs ++ [s]) where
  covered t ht i hi := by
    rcases List.mem_append.mp ht with ht | ht
    · obtain ⟨c, hc, hcovers, hdata⟩ := h.covered t ht i hi
      rcases List.mem_append.mp hc with hc | hc
      · exact ⟨c, List.mem_append_left _ hc, hcovers, hdata⟩
      · obtain rfl := List.mem_singleton.mp hc
        obtain ⟨hle, hlt⟩ := hcovers
        refine ⟨_, List.mem_append_right _ (List.mem_singleton_self _), ⟨hle, ?_⟩, ?_⟩
        · change i < c.start + (c.data ++ _).length
          rw [List.length_append]
          omega
        · have hin : i - c.start < c.data.length := by omega
          rw [← hdata]
          exact List.getElem?_append_left hin
    · obtain rfl := List.mem_singleton.mp ht
      obtain ⟨hle, hlt⟩ := hi
      refine ⟨_, List.mem_append_right _ (List.mem_singleton_self _),
        ⟨by change b.start ≤ i; omega, ?_⟩, ?_⟩
      · change i < b.start + (b.data ++ t.behind fill gap).length
        rw [Segment.behind, List.length_append, List.length_append, List.length_replicate]
        omega
      · have hread := (t.getElem?_behind fill (show gap ≤ t.start by omega)).2 hle
        change (b.data ++ t.behind fill gap)[i - b.start]? = _
        rw [List.getElem?_append_right (by omega), ← hread]
        congr 1
        omega
  uncovered c hc i hi hnone := by
    have hbefore : ∀ t ∈ segs, ¬ t.Covers i := fun t ht => hnone t (List.mem_append_left _ ht)
    rcases List.mem_append.mp hc with hc | hc
    · exact h.uncovered c (List.mem_append_left _ hc) i hi hbefore
    · obtain rfl := List.mem_singleton.mp hc
      obtain ⟨hle, hlt⟩ := hi
      simp only [Segment.behind, List.length_append, List.length_replicate] at hle hlt
      by_cases hb : i < b.start + b.data.length
      · have hfill := h.uncovered b (List.mem_append_right _ (List.mem_singleton_self _)) i
          ⟨hle, hb⟩ hbefore
        have hin : i - b.start < b.data.length := by omega
        rw [← hfill]
        exact List.getElem?_append_left hin
      · have hs := hnone s (List.mem_append_right _ (List.mem_singleton_self _))
        unfold Segment.Covers at hs
        have hread := (s.getElem?_behind fill (show gap ≤ s.start by omega)).1
          (show s.start - gap ≤ i by omega) (by omega)
        rw [← hread]
        change (b.data ++ s.behind fill gap)[i - b.start]? = _
        rw [List.getElem?_append_right (by omega)]
        congr 1
        omega

end Segments
