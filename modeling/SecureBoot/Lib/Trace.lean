import Mathlib.Data.List.Basic
import SecureBoot.Lib.Hoare

/-! Programs that append to a log in their state. What a program does is the list of its entries in
the order in which they were made, without those that are of no interest. -/

namespace Trace

open Hoare

variable {ε σ τ α β : Type}

/-- The new entries of a log that are kept, earliest first; a log has its latest entry first. -/
def kept (keep : τ → Bool) (new : List τ) : List τ := (new.filter keep).reverse

theorem kept_append (keep : τ → Bool) (later earlier : List τ) :
    kept keep (later ++ earlier) = kept keep earlier ++ kept keep later := by
  rw [kept, List.filter_append, List.reverse_append]
  rfl

theorem kept_of_forall {keep : τ → Bool} {new : List τ} (h : ∀ a ∈ new, keep a = false) :
    kept keep new = [] := by
  rw [kept, List.filter_eq_nil_iff.2 fun a ha => by rw [h a ha]; exact Bool.false_ne_true]
  rfl

variable (log : σ → List τ) (keep : τ → Bool)

/-- From `s` to `s'` the log grows by entries that are kept as `t`. -/
def Grows (t : List τ) (s s' : σ) : Prop := ∃ new, log s' = new ++ log s ∧ kept keep new = t

/-- A run that returns makes entries in `Q`, one that stops makes entries in `E`. -/
def Traces (x : EStateM ε σ α) (Q : α → List τ → Prop) (E : List τ → Prop) : Prop :=
  ∀ s, Outcome (fun a s' => ∃ t, Grows log keep t s s' ∧ Q a t)
    (fun _ s' => ∃ t, Grows log keep t s s' ∧ E t) (x.run s)

variable {log keep}

theorem Grows.refl {s s' : σ} (h : log s' = log s) : Grows log keep [] s s' := ⟨[], h, rfl⟩

theorem Grows.trans {t t' : List τ} {s s' s'' : σ} (h : Grows log keep t s s')
    (h' : Grows log keep t' s' s'') : Grows log keep (t ++ t') s s'' := by
  obtain ⟨new, hlog, rfl⟩ := h
  obtain ⟨later, hlater, rfl⟩ := h'
  exact ⟨later ++ new, by rw [hlater, hlog, List.append_assoc], kept_append keep later new⟩

namespace Traces

variable {Q Q' : α → List τ → Prop} {E E' : List τ → Prop} {x : EStateM ε σ α}

theorem mono (h : Traces log keep x Q E) (hQ : ∀ a t, Q a t → Q' a t) (hE : ∀ t, E t → E' t) :
    Traces log keep x Q' E' := fun s =>
  (h s).mono (fun a _ ⟨t, hgrows, ht⟩ => ⟨t, hgrows, hQ a t ht⟩)
    fun _ _ ⟨t, hgrows, ht⟩ => ⟨t, hgrows, hE t ht⟩

theorem pure {a : α} (h : Q a []) : Traces log keep (pure a : EStateM ε σ α) Q E :=
  fun _ => ⟨[], .refl rfl, h⟩

theorem throw (e : ε) (h : E []) : Traces log keep (throw e : EStateM ε σ α) Q E :=
  fun _ => ⟨[], .refl rfl, h⟩

theorem modify {Q : PUnit → List τ → Prop} {f : σ → σ} {t : List τ}
    (hf : ∀ s, Grows log keep t s (f s)) (h : Q ⟨⟩ t) :
    Traces log keep (modify f : EStateM ε σ PUnit) Q E :=
  fun s => ⟨t, hf s, h⟩

/-- A program whose entries are all dropped. -/
theorem silent (h : ∀ s, Grows log keep [] s (final (x.run s))) (hQ : ∀ a, Q a []) (hE : E []) :
    Traces log keep x Q E := by
  intro s
  have hs := h s
  cases hrun : x.run s with
  | ok a s' =>
    rw [hrun] at hs
    exact ⟨[], hs, hQ a⟩
  | error e s' =>
    rw [hrun] at hs
    exact ⟨[], hs, hE⟩

theorem bind {R : β → List τ → Prop} {f : α → EStateM ε σ β} (hx : Traces log keep x Q E)
    (hf : ∀ a t, Q a t → Traces log keep (f a) (fun b t' => R b (t ++ t')) fun t' => E (t ++ t')) :
    Traces log keep (x >>= f) R E := by
  intro s
  have hs := hx s
  rw [EStateM.run_bind]
  cases hrun : x.run s with
  | ok a s' =>
    rw [hrun] at hs
    obtain ⟨t, hgrows, ht⟩ := hs
    exact (hf a t ht s').mono
      (fun b _ ⟨t', hgrows', ht'⟩ => ⟨t ++ t', hgrows.trans hgrows', ht'⟩)
      fun _ _ ⟨t', hgrows', ht'⟩ => ⟨t ++ t', hgrows.trans hgrows', ht'⟩
  | error e s' =>
    rw [hrun] at hs
    exact hs

theorem ite (c : Prop) [Decidable c] {y : EStateM ε σ α} (hx : c → Traces log keep x Q E)
    (hy : ¬c → Traces log keep y Q E) : Traces log keep (if c then x else y) Q E := by
  split_ifs with h
  · exact hx h
  · exact hy h

/-- What a program does from one state. -/
theorem exists_grows (h : Traces log keep x Q E) (s : σ) :
    ∃ t, Grows log keep t s (final (x.run s)) ∧
      ((∃ a s', x.run s = .ok a s' ∧ Q a t) ∨ (∃ e s', x.run s = .error e s') ∧ E t) := by
  have hs := h s
  cases hrun : x.run s with
  | ok a s' =>
    rw [hrun] at hs
    obtain ⟨t, hgrows, ht⟩ := hs
    exact ⟨t, hgrows, .inl ⟨a, s', rfl, ht⟩⟩
  | error e s' =>
    rw [hrun] at hs
    obtain ⟨t, hgrows, ht⟩ := hs
    exact ⟨t, hgrows, .inr ⟨⟨e, s', rfl⟩, ht⟩⟩

end Traces

end Trace
