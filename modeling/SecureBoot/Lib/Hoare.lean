import Mathlib.Tactic.Common

/-! Hoare logic for programs with a state and abrupt termination. A triple has
two postconditions, one for a program that returns and one for a program that
stops, so that a step that fails ends the argument once and for all. Every rule
is stated for arbitrary states, results and ways of stopping. -/

namespace Hoare

variable {ε σ α β : Type}

/-- A result that returns in `Q` or stops in `E`. -/
def Outcome (Q : α → σ → Prop) (E : ε → σ → Prop) : EStateM.Result ε σ α → Prop
  | .ok a s => Q a s
  | .error e s => E e s

/-- The state in which a run ends. -/
def final : EStateM.Result ε σ α → σ
  | .ok _ s => s
  | .error _ s => s

/-- Whether a run returned. -/
def returns : EStateM.Result ε σ α → Bool
  | .ok _ _ => true
  | .error _ _ => false

theorem exists_ok_of_returns {o : EStateM.Result ε σ α} (h : returns o = true) :
    ∃ a s, o = .ok a s := by
  cases o with
  | ok a s => exact ⟨a, s, rfl⟩
  | error e s => cases h

/-- From a state in `P`, the program `x` returns in `Q` or stops in `E`. -/
def Triple (P : σ → Prop) (x : EStateM ε σ α) (Q : α → σ → Prop) (E : ε → σ → Prop) : Prop :=
  ∀ s, P s → Outcome Q E (x.run s)

variable {P P' : σ → Prop} {Q Q' : α → σ → Prop} {E E' : ε → σ → Prop} {x : EStateM ε σ α}

/-! ### Structural rules -/

theorem Triple.pure (a : α) (h : ∀ s, P s → Q a s) : Triple P (pure a : EStateM ε σ α) Q E :=
  fun s hs => h s hs

theorem Triple.throw (e : ε) (h : ∀ s, P s → E e s) :
    Triple P (throw e : EStateM ε σ α) Q E :=
  fun s hs => h s hs

theorem Triple.get {R : σ → σ → Prop} (h : ∀ s, P s → R s s) :
    Triple P (get : EStateM ε σ σ) R E :=
  fun s hs => h s hs

theorem Triple.modify {R : PUnit → σ → Prop} (f : σ → σ) (h : ∀ s, P s → R ⟨⟩ (f s)) :
    Triple P (modify f : EStateM ε σ PUnit) R E :=
  fun s hs => h s hs

theorem Triple.modifyGet (f : σ → α × σ) (h : ∀ s, P s → Q (f s).1 (f s).2) :
    Triple P (modifyGet f : EStateM ε σ α) Q E :=
  fun s hs => h s hs

theorem Outcome.mono {o : EStateM.Result ε σ α} (h : Outcome Q E o) (hQ : ∀ a s, Q a s → Q' a s)
    (hE : ∀ e s, E e s → E' e s) : Outcome Q' E' o := by
  cases o with
  | ok a s => exact hQ a s h
  | error e s => exact hE e s h

theorem Outcome.and {o : EStateM.Result ε σ α} (h : Outcome Q E o) (h' : Outcome Q' E' o) :
    Outcome (fun a s => Q a s ∧ Q' a s) (fun e s => E e s ∧ E' e s) o := by
  cases o with
  | ok a s => exact ⟨h, h'⟩
  | error e s => exact ⟨h, h'⟩

/-- Any program satisfies the trivial triple. -/
theorem Triple.top : Triple P x (fun _ _ => True) (fun _ _ => True) := by
  intro s _
  cases x.run s <;> trivial

theorem Triple.bind {R : α → σ → Prop} {S : β → σ → Prop} {f : α → EStateM ε σ β}
    (hx : Triple P x R E) (hf : ∀ a, Triple (R a) (f a) S E) : Triple P (x >>= f) S E := by
  intro s hs
  have h := hx s hs
  rw [EStateM.run_bind]
  cases hxs : x.run s with
  | ok a s' =>
    rw [hxs] at h
    exact hf a s' h
  | error e s' =>
    rw [hxs] at h
    exact h

/-- A first part of which only the result matters. -/
theorem Triple.bind_fact {p : α → Prop} {S : β → σ → Prop} {f : α → EStateM ε σ β}
    (hx : Triple P x (fun a _ => p a) E) (hf : ∀ a, p a → Triple (fun _ => True) (f a) S E) :
    Triple P (x >>= f) S E :=
  .bind hx fun a => fun s ha => hf a ha s trivial

/-- Continuations that agree on the results that are possible. -/
theorem Triple.bind_congr {p : α → Prop} {f g : α → EStateM ε σ β}
    (hx : Triple (fun _ => True) x (fun a _ => p a) E) (hfg : ∀ a, p a → f a = g a) :
    x >>= f = x >>= g := by
  funext s
  change (x >>= f).run s = (x >>= g).run s
  have h := hx s trivial
  rw [EStateM.run_bind, EStateM.run_bind]
  cases hxs : x.run s with
  | ok a s' =>
    rw [hxs] at h
    simp only [hfg a h]
  | error e s' => rfl

theorem run_bind_of_ok {f : α → EStateM ε σ β} {s t : σ} {a : α} (h : x.run s = .ok a t) :
    (x >>= f).run s = (f a).run t := by
  rw [EStateM.run_bind, h]

theorem run_bind_of_error {f : α → EStateM ε σ β} {s t : σ} {e : ε} (h : x.run s = .error e t) :
    (x >>= f).run s = .error e t := by
  rw [EStateM.run_bind, h]

/-- A sequence that returned is made of two runs that returned. -/
theorem exists_of_run_bind {f : α → EStateM ε σ β} {s s' : σ} {b : β}
    (h : (x >>= f).run s = .ok b s') : ∃ a t, x.run s = .ok a t ∧ (f a).run t = .ok b s' := by
  rw [EStateM.run_bind] at h
  cases hx : x.run s with
  | ok a t =>
    rw [hx] at h
    exact ⟨a, t, rfl, h⟩
  | error e t =>
    rw [hx] at h
    cases h

theorem Triple.conseq (h : Triple P x Q E) (hP : ∀ s, P' s → P s) (hQ : ∀ a s, Q a s → Q' a s)
    (hE : ∀ e s, E e s → E' e s) : Triple P' x Q' E' :=
  fun s hs => (h s (hP s hs)).mono hQ hE

theorem Triple.and (h : Triple P x Q E) (h' : Triple P' x Q' E') :
    Triple (fun s => P s ∧ P' s) x (fun a s => Q a s ∧ Q' a s) (fun e s => E e s ∧ E' e s) :=
  fun s hs => (h s hs.1).and (h' s hs.2)

theorem Triple.ite (c : Prop) [Decidable c] {y : EStateM ε σ α}
    (hx : c → Triple P x Q E) (hy : ¬ c → Triple P y Q E) :
    Triple P (if c then x else y) Q E := by
  split_ifs with h
  · exact hx h
  · exact hy h

/-- A precondition that does not depend on the state. -/
theorem Triple.of_pre {p : Prop} (h : p → Triple P x Q E) :
    Triple (fun s => p ∧ P s) x Q E :=
  fun s hs => h hs.1 s hs.2

/-- A ghost state: a triple for the exact initial state is a triple. -/
theorem Triple.of_state (h : ∀ s, P s → Triple (· = s) x Q E) : Triple P x Q E :=
  fun s hs => h s hs s rfl

/-! ### Frame relations -/

/-- Whatever `x` does, it moves the state along `r`. -/
def Moves (r : σ → σ → Prop) (x : EStateM ε σ α) : Prop :=
  ∀ s, Triple (· = s) x (fun _ => r s) (fun _ => r s)

section Moves

variable {r : σ → σ → Prop}

/-- An invariant that `r` preserves holds in every outcome. -/
theorem Moves.invariant (h : Moves r x) (hI : ∀ s t, r s t → P s → P t) :
    Triple P x (fun _ => P) (fun _ => P) :=
  .of_state fun s hs => (h s).conseq (fun _ h => h) (fun _ t hr => hI s t hr hs)
    fun _ t hr => hI s t hr hs

theorem Moves.mono {r' : σ → σ → Prop} (h : Moves r x) (hr : ∀ s t, r s t → r' s t) :
    Moves r' x :=
  fun s => (h s).conseq (fun _ h => h) (fun _ t => hr s t) fun _ t => hr s t

/-- The effect of a whole run along `r`. -/
theorem Moves.final (h : Moves r x) (s : σ) : r s (final (x.run s)) := by
  have hs := h s s rfl
  cases hrun : x.run s with
  | ok a t =>
    rw [hrun] at hs
    exact hs
  | error e t =>
    rw [hrun] at hs
    exact hs

theorem Moves.modify (f : σ → σ) (h : ∀ s, r s (f s)) :
    Moves r (modify f : EStateM ε σ PUnit) :=
  fun s => .modify f (by rintro _ rfl; exact h _)

theorem Moves.modifyGet (f : σ → α × σ) (h : ∀ s, r s (f s).2) :
    Moves r (modifyGet f : EStateM ε σ α) :=
  fun s => .modifyGet f (by rintro _ rfl; exact h _)

theorem Moves.ite (c : Prop) [Decidable c] {y : EStateM ε σ α} (hx : Moves r x)
    (hy : Moves r y) : Moves r (if c then x else y) := by
  split_ifs
  · exact hx
  · exact hy

variable [IsPreorder σ r]

theorem Moves.pure (a : α) : Moves r (pure a : EStateM ε σ α) :=
  fun s => .pure a (by rintro _ rfl; exact refl_of r _)

theorem Moves.throw (e : ε) : Moves r (throw e : EStateM ε σ α) :=
  fun s => .throw e (by rintro _ rfl; exact refl_of r _)

theorem Moves.get : Moves r (get : EStateM ε σ σ) :=
  fun s => .get (by rintro _ rfl; exact refl_of r _)

theorem Moves.bind {f : α → EStateM ε σ β} (hx : Moves r x) (hf : ∀ a, Moves r (f a)) :
    Moves r (x >>= f) := by
  intro s
  refine (Triple.bind (R := fun _ => r s) (hx s) fun a => ?_)
  refine Triple.of_state fun t ht => ?_
  exact (hf a t).conseq (fun _ h => h) (fun _ u hu => trans_of r ht hu)
    fun _ u hu => trans_of r ht hu

end Moves

end Hoare
