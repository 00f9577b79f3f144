import SecureBoot.Lib.Rust

/-! Chunks of a list: all but the last one have the same length. The first and the last chunk with a
property are looked for by their position. -/

namespace Chunks

open Rust

variable {ε α : Type} {n k : ℕ} {l : List α} {p : α → Bool} {q : List α → Bool}

/-- Chunk `k`, which is empty behind the end of the list. -/
def chunk (n : ℕ) (l : List α) (k : ℕ) : List α := (l.drop (n * k)).take n

/-- `l.chunks(n)`. -/
def chunks (n : ℕ) (l : List α) : List (List α) :=
  (List.range ((l.length + n - 1) / n)).map (chunk n l)

/-- `l.rposition(p)`. -/
def rposition (p : α → Bool) : List α → Option ℕ
  | [] => none
  | a :: l => match rposition p l with
    | some k => some (k + 1)
    | none => if p a then some 0 else none

/-- `l.position(p)`, for a test that may panic. -/
def positionM (f : α → Run ε Bool) : List α → Run ε (Option ℕ)
  | [] => pure none
  | a :: l => do
    if ← f a then pure (some 0)
    else
      let k ← positionM f l
      pure (k.map Nat.succ)

/-- There is a chunk `k`, and it has a property. -/
def Has (n : ℕ) (q : List α → Bool) (l : List α) (k : ℕ) : Prop :=
  n * k < l.length ∧ q (chunk n l k) = true

instance : Decidable (Has n q l k) := inferInstanceAs (Decidable (_ ∧ _))

theorem lt_count_iff (hn : 0 < n) : k < (l.length + n - 1) / n ↔ n * k < l.length := by
  rw [← Nat.succ_le_iff, Nat.le_div_iff_mul_le hn, Nat.succ_mul, Nat.mul_comm]
  omega

theorem length_chunk (n : ℕ) (l : List α) (k : ℕ) :
    (chunk n l k).length = min n (l.length - n * k) := by
  simp [chunk]

theorem length_chunks : (chunks n l).length = (l.length + n - 1) / n := by
  simp [chunks]

theorem getElem_chunks (hk : k < (chunks n l).length) : (chunks n l)[k] = chunk n l k := by
  simp [chunks]

theorem mem_chunks (hn : 0 < n) {c : List α} :
    c ∈ chunks n l ↔ ∃ k, n * k < l.length ∧ chunk n l k = c := by
  simp [chunks, lt_count_iff hn]

theorem chunk_drop (n : ℕ) (l : List α) (j k : ℕ) :
    chunk n (l.drop (n * j)) k = chunk n l (j + k) := by
  rw [chunk, chunk, List.drop_drop, Nat.mul_add]

theorem has_drop {j : ℕ} : Has n q (l.drop (n * j)) k ↔ Has n q l (j + k) := by
  have hlt : n * k < (l.drop (n * j)).length ↔ n * (j + k) < l.length := by
    rw [List.length_drop, Nat.mul_add]
    omega
  rw [Has, Has, chunk_drop, hlt]

theorem chunks_append {a : List α} (hn : 0 < n) (ha : a.length = n) :
    chunks n (a ++ l) = a :: chunks n l := by
  have hcount : ((a ++ l).length + n - 1) / n = (l.length + n - 1) / n + 1 := by
    rw [List.length_append, ha, ← Nat.add_div_right _ hn]
    congr 1
    omega
  have hrest (k : ℕ) : chunk n (a ++ l) (k + 1) = chunk n l k := by
    rw [Nat.add_comm, ← chunk_drop, Nat.mul_one, ← ha, List.drop_left]
  have hfirst : chunk n (a ++ l) 0 = a := by
    rw [chunk, Nat.mul_zero, List.drop_zero, ← ha, List.take_left]
  rw [chunks, hcount, List.range_succ_eq_map, List.map_cons, List.map_map, hfirst]
  exact congrArg _ (List.map_congr_left fun k _ => hrest k)

/-- The first chunk with a property. -/
theorem findIdx?_chunks_eq_some_iff (hn : 0 < n) :
    (chunks n l).findIdx? q = some k ↔ Has n q l k ∧ ∀ j < k, ¬ Has n q l j := by
  rw [List.findIdx?_eq_some_iff_getElem]
  constructor
  · rintro ⟨hk, hq, hbefore⟩
    rw [getElem_chunks] at hq
    rw [length_chunks, lt_count_iff hn] at hk
    refine ⟨⟨hk, hq⟩, fun j hj hhas => hbefore j hj ?_⟩
    rw [getElem_chunks]
    exact hhas.2
  · rintro ⟨⟨hk, hq⟩, hbefore⟩
    rw [← lt_count_iff hn, ← length_chunks] at hk
    refine ⟨hk, by rwa [getElem_chunks], fun j hj hq => hbefore j hj ⟨?_, ?_⟩⟩
    · rw [← lt_count_iff hn, ← length_chunks]
      exact Nat.lt_trans hj hk
    · rwa [getElem_chunks] at hq

theorem findIdx?_chunks_eq_none_iff (hn : 0 < n) :
    (chunks n l).findIdx? q = none ↔ ∀ k, ¬ Has n q l k := by
  rw [List.findIdx?_eq_none_iff]
  constructor
  · rintro h k ⟨hk, hq⟩
    have hfalse := h _ ((mem_chunks hn).2 ⟨k, hk, rfl⟩)
    rw [hq] at hfalse
    cases hfalse
  · intro h c hc
    obtain ⟨k, hk, rfl⟩ := (mem_chunks hn).1 hc
    exact Bool.eq_false_iff.2 fun hq => h k ⟨hk, hq⟩

theorem rposition_eq_none_iff : rposition p l = none ↔ ∀ a ∈ l, p a = false := by
  induction l with
  | nil => simp [rposition]
  | cons a l ih =>
    rw [rposition, List.forall_mem_cons, ← ih]
    cases rposition p l with
    | none => simp
    | some k => simp

theorem of_rposition_eq_some (h : rposition p l = some k) :
    ∃ hk : k < l.length, p l[k] = true ∧ ∀ j (hj : j < l.length), k < j → p l[j] = false := by
  induction l generalizing k with
  | nil => simp [rposition] at h
  | cons a l ih =>
    rw [rposition] at h
    cases hl : rposition p l with
    | none =>
      have hnone := rposition_eq_none_iff.1 hl
      simp only [hl, Option.ite_none_right_eq_some, Option.some.injEq] at h
      obtain ⟨ha, rfl⟩ := h
      refine ⟨Nat.succ_pos _, ha, fun j hj hlt => ?_⟩
      obtain ⟨j, rfl⟩ := Nat.exists_eq_succ_of_ne_zero (Nat.ne_zero_of_lt hlt)
      exact hnone _ (List.getElem_mem _)
    | some m =>
      simp only [hl, Option.some.injEq] at h
      subst h
      obtain ⟨hm, hp, hafter⟩ := ih hl
      refine ⟨Nat.succ_lt_succ hm, hp, fun j hj hlt => ?_⟩
      obtain ⟨j, rfl⟩ := Nat.exists_eq_succ_of_ne_zero (Nat.ne_zero_of_lt hlt)
      exact hafter j (Nat.lt_of_succ_lt_succ hj) (Nat.lt_of_succ_lt_succ hlt)

/-- The last chunk with a property. -/
theorem of_rposition_chunks_eq_some (hn : 0 < n) (h : rposition q (chunks n l) = some k) :
    Has n q l k ∧ ∀ j, k < j → ¬ Has n q l j := by
  obtain ⟨hk, hq, hafter⟩ := of_rposition_eq_some h
  rw [getElem_chunks] at hq
  refine ⟨⟨?_, hq⟩, fun j hj hhas => ?_⟩
  · rwa [length_chunks, lt_count_iff hn] at hk
  · have hlt : j < (chunks n l).length := by
      rw [length_chunks, lt_count_iff hn]
      exact hhas.1
    have hfalse := hafter j hlt hj
    rw [getElem_chunks, hhas.2] at hfalse
    cases hfalse

theorem rposition_chunks_eq_none_iff (hn : 0 < n) :
    rposition q (chunks n l) = none ↔ ∀ k, ¬ Has n q l k := by
  rw [rposition_eq_none_iff, ← findIdx?_chunks_eq_none_iff hn, List.findIdx?_eq_none_iff]

/-! ### Tests that may panic -/

/-- All that is tested up to the first match satisfies `c`. -/
def Tested (c : α → Prop) (p : α → Bool) : List α → Prop
  | [] => True
  | a :: l => c a ∧ (p a = false → Tested c p l)

theorem returns_positionM {f : α → Run ε Bool} {c : α → Prop} (h : ∀ a, Returns (c a) (f a) (p a))
    (l : List α) : Returns (Tested c p l) (positionM f l) (l.findIdx? p) := by
  induction l with
  | nil => exact returns_pure none
  | cons a l ih =>
    rw [positionM, List.findIdx?_cons, Tested]
    refine (h a).bind fun _ => ?_
    cases hp : p a with
    | true => exact (returns_pure (some 0)).congr (iff_of_true trivial fun h => by cases h)
    | false =>
      refine ((ih.bind_pure (Option.map Nat.succ)).congr ?_)
      exact ⟨fun h _ => h, fun h => h rfl⟩

theorem tested_iff {c : α → Prop} : Tested c p l ↔
    ∀ k (hk : k < l.length), (∀ j (hj : j < k), p l[j] = false) → c l[k] := by
  induction l with
  | nil => simp [Tested]
  | cons a l ih =>
    rw [Tested, ih]
    constructor
    · rintro ⟨ha, hl⟩ k hk hbefore
      cases k with
      | zero => exact ha
      | succ k =>
        refine hl (hbefore 0 (Nat.succ_pos k)) k (Nat.lt_of_succ_lt_succ hk) fun j hj => ?_
        exact hbefore (j + 1) (Nat.succ_lt_succ hj)
    · intro h
      refine ⟨h 0 (Nat.succ_pos _) fun j hj => absurd hj (Nat.not_lt_zero j), ?_⟩
      intro hp k hk hbefore
      refine h (k + 1) (Nat.succ_lt_succ hk) fun j hj => ?_
      cases j with
      | zero => exact hp
      | succ j => exact hbefore j (Nat.lt_of_succ_lt_succ hj)

/-- The tests of the chunks of a list. -/
theorem tested_chunks_iff (hn : 0 < n) {c : List α → Prop} : Tested c q (chunks n l) ↔
    ∀ k, n * k < l.length → (∀ j < k, ¬ Has n q l j) → c (chunk n l k) := by
  rw [tested_iff]
  constructor
  · intro h k hk hbefore
    have hk' : k < (chunks n l).length := by rwa [length_chunks, lt_count_iff hn]
    have hc := h k hk' fun j hj => ?_
    · rwa [getElem_chunks] at hc
    · rw [getElem_chunks]
      have hlt : n * j < l.length := Nat.lt_of_le_of_lt (Nat.mul_le_mul_left n hj.le) hk
      exact Bool.eq_false_iff.2 fun hq => hbefore j hj ⟨hlt, hq⟩
  · intro h k hk hbefore
    rw [getElem_chunks]
    rw [length_chunks, lt_count_iff hn] at hk
    refine h k hk fun j hj hhas => ?_
    have hfalse := hbefore j hj
    rw [getElem_chunks, hhas.2] at hfalse
    cases hfalse

end Chunks
