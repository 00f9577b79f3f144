import Mathlib.Algebra.Order.Group.Int
import Mathlib.Data.List.Basic

/-! Elements laid out one after another, and dictionaries from names to positions. -/

namespace Layout

variable {α : Type*} {offset size : α → ℤ}

/-- The elements of a list occupy the space from `start` to `stop`, in order and disjointly. -/
structure Laid (offset size : α → ℤ) (start stop : ℤ) (l : List α) : Prop where
  ascending : l.Pairwise fun a b => offset a + size a ≤ offset b
  inside : ∀ a ∈ l, start ≤ offset a ∧ 0 ≤ size a ∧ offset a + size a ≤ stop
  le : start ≤ stop

theorem Laid.nil (start : ℤ) : Laid offset size start start [] where
  ascending := List.Pairwise.nil
  inside := by simp
  le := le_rfl

/-- One more element behind the others, with a gap or without. -/
theorem Laid.concat {start stop : ℤ} {l : List α} (h : Laid offset size start stop l) {a : α}
    (hoffset : stop ≤ offset a) (hsize : 0 ≤ size a) :
    Laid offset size start (offset a + size a) (l ++ [a]) where
  ascending := by
    rw [List.pairwise_append]
    refine ⟨h.ascending, List.pairwise_singleton _ a, fun b hb c hc => ?_⟩
    rw [List.mem_singleton.mp hc]
    exact (h.inside b hb).2.2.trans hoffset
  inside := by
    have hle := h.le
    intro b hb
    obtain hb | hb := List.mem_append.mp hb
    · obtain ⟨hstart, hb₀, hstop⟩ := h.inside b hb
      exact ⟨hstart, hb₀, by omega⟩
    · rw [List.mem_singleton.mp hb]
      exact ⟨by omega, hsize, le_rfl⟩
  le := by
    have hle := h.le
    omega

theorem Laid.mono {start stop stop' : ℤ} {l : List α} (h : Laid offset size start stop l)
    (hle : stop ≤ stop') : Laid offset size start stop' l where
  ascending := h.ascending
  inside a ha := ⟨(h.inside a ha).1, (h.inside a ha).2.1, (h.inside a ha).2.2.trans hle⟩
  le := h.le.trans hle

/-! ### Dictionaries -/

section Dict

variable {β γ : Type*} [BEq β] {dict : List (β × γ)}

/-- A new name is found behind the others, and the others stay. -/
theorem lookup_concat (name name' : β) (value : γ) :
    (dict ++ [(name', value)]).lookup name =
      (dict.lookup name).or (if name == name' then some value else none) := by
  induction dict with
  | nil =>
    rw [List.nil_append, List.lookup_cons, List.lookup_nil]
    cases name == name' <;> rfl
  | cons entry dict ih =>
    rw [List.cons_append, List.lookup_cons, List.lookup_cons, ih]
    cases name == entry.1 <;> rfl

/-- Every element is found under its name, as a function of its position gives it. -/
def Resolves (dict : List (β × γ)) (name : α → β) (value : ℕ → α → γ → Prop) (l : List α) : Prop :=
  ∀ k a, l[k]? = some a → ∃ v, dict.lookup (name a) = some v ∧ value k a v

theorem Resolves.concat [LawfulBEq β] {name : α → β} {value : ℕ → α → γ → Prop} {l : List α}
    (h : Resolves dict name value l) {a : α} {v : γ} (hnew : dict.lookup (name a) = none)
    (hvalue : value l.length a v) : Resolves (dict ++ [(name a, v)]) name value (l ++ [a]) := by
  intro k b hb
  rw [lookup_concat]
  obtain hk | hk := Nat.lt_or_ge k l.length
  · rw [List.getElem?_append_left hk] at hb
    obtain ⟨v', hv', hvalue'⟩ := h k b hb
    exact ⟨v', by rw [hv', Option.some_or], hvalue'⟩
  · rw [List.getElem?_append_right hk] at hb
    obtain ⟨hlt, rfl⟩ := List.getElem?_eq_some_iff.mp hb
    have hzero : k = l.length := by
      rw [List.length_singleton] at hlt
      omega
    subst hzero
    refine ⟨v, ?_, ?_⟩
    · simp [hnew]
    · simpa using hvalue

end Dict

end Layout
