import Mathlib.Tactic.Common

/-! Synchronous machines: registers that every clock edge updates from their values and the
inputs of the cycle, driven by a stream of inputs. -/

namespace Mealy

variable {σ τ ι : Type*}

/-- The registers in cycle `n`, from reset on. -/
def stateAt (next : σ → ι → σ) (reset : σ) (inputs : ℕ → ι) : ℕ → σ
  | 0 => reset
  | n + 1 => next (stateAt next reset inputs n) (inputs n)

variable {next : σ → ι → σ} {reset : σ} {inputs : ℕ → ι}

@[simp] theorem stateAt_zero : stateAt next reset inputs 0 = reset := rfl

@[simp] theorem stateAt_succ (n : ℕ) : stateAt next reset inputs (n + 1) =
    next (stateAt next reset inputs n) (inputs n) := rfl

/-- What reset establishes and every edge keeps. -/
theorem invariant {I : σ → Prop} (hreset : I reset) (hnext : ∀ s i, I s → I (next s i)) (n : ℕ) :
    I (stateAt next reset inputs n) := by
  induction n with
  | zero => exact hreset
  | succ n ih => exact hnext _ _ ih

/-- What holds from a cycle on, up to one that ends it. -/
theorem holds_until {P : σ → Prop} {stop : σ → ι → Prop}
    (hnext : ∀ s i, P s → ¬ stop s i → P (next s i)) {n m : ℕ}
    (hn : P (stateAt next reset inputs n)) (hle : n ≤ m)
    (hstop : ∀ k, n ≤ k → k < m → ¬ stop (stateAt next reset inputs k) (inputs k)) :
    P (stateAt next reset inputs m) := by
  induction hle with
  | refl => exact hn
  | @step m hle ih =>
    have hm := ih fun k hk hlt => hstop k hk (Nat.lt_succ_of_lt hlt)
    exact hnext _ _ hm (hstop m hle (Nat.lt_succ_self m))

/-! ### Streams -/

section Stream

variable {α : Type*}

/-- What the cycles from `m` on bring, in order. -/
def collect (f : ℕ → List α) (m len : ℕ) : List α := (List.range len).flatMap fun k => f (m + k)

@[simp] theorem collect_zero (f : ℕ → List α) (m : ℕ) : collect f m 0 = [] := rfl

@[simp] theorem collect_succ (f : ℕ → List α) (m len : ℕ) :
    collect f m (len + 1) = collect f m len ++ f (m + len) := by
  simp [collect, List.range_succ]

theorem collect_eq_nil {f : ℕ → List α} {m len : ℕ} (h : ∀ k < len, f (m + k) = []) :
    collect f m len = [] := by
  rw [collect, List.flatMap_eq_nil_iff]
  exact fun k hk => h k (List.mem_range.mp hk)

/-- When every cycle keeps the order of what comes in behind what is stored, so does a run. -/
theorem collect_conserved (stored : ℕ → List α) {accepted delivered : ℕ → List α} {m len : ℕ}
    (hstep : ∀ k < len, stored (m + k) ++ accepted (m + k) =
      delivered (m + k) ++ stored (m + k + 1)) :
    stored m ++ collect accepted m len = collect delivered m len ++ stored (m + len) := by
  induction len with
  | zero => simp
  | succ len ih =>
    rw [collect_succ, collect_succ, ← List.append_assoc,
      ih fun k hk => hstep k (Nat.lt_succ_of_lt hk), List.append_assoc,
      hstep len (Nat.lt_succ_self len), List.append_assoc]
    rfl

end Stream

/-! ### Progress -/

/-- What stays until an event happens that would come sooner or later. -/
theorem exists_event {S E : ℕ → Prop} {t : ℕ} (ht : S t)
    (hstay : ∀ k, t ≤ k → S k → ¬ E k → S (k + 1))
    (hevent : (∀ k, t ≤ k → S k) → ∃ k, t ≤ k ∧ E k) : ∃ k, t ≤ k ∧ S k ∧ E k := by
  by_contra hno
  have hforever (k : ℕ) (hle : t ≤ k) : S k := by
    induction hle with
    | refl => exact ht
    | @step k hle ih => exact hstay k hle ih fun hk => hno ⟨k, hle, ih, hk⟩
  obtain ⟨k, hle, hk⟩ := hevent hforever
  exact hno ⟨k, hle, hforever k hle, hk⟩

/-- A rank that goes down again and again up to a goal. -/
theorem exists_of_rank {P Q : ℕ → Prop} (rank : ℕ → ℕ)
    (hdown : ∀ t, P t → ¬ Q t → ∃ t', t ≤ t' ∧ P t' ∧ rank t' < rank t) {t : ℕ} (ht : P t) :
    ∃ t', t ≤ t' ∧ P t' ∧ Q t' := by
  induction hrank : rank t using Nat.strongRecOn generalizing t with
  | ind m ih =>
    by_cases hq : Q t
    · exact ⟨t, Nat.le_refl t, ht, hq⟩
    · obtain ⟨k, hle, hk, hlt⟩ := hdown t ht hq
      obtain ⟨t', hle', ht'⟩ := ih _ (hrank ▸ hlt) hk rfl
      exact ⟨t', Nat.le_trans hle hle', ht'⟩

end Mealy

/-! Machines driven by events, such as the edges of several clocks, where an event that
the environment may not cause has no successor; and the two-flop synchronizer. -/

namespace Clocked

variable {σ ε : Type*}

/-- A run over a list of events, `none` when one of them was not allowed. -/
def run (step : σ → ε → Option σ) (s : σ) (events : List ε) : Option σ := events.foldlM step s

variable {step : σ → ε → Option σ} {s s' : σ}

@[simp] theorem run_cons (e : ε) (events : List ε) :
    run step s (e :: events) = (step s e).bind fun s' => run step s' events := rfl

theorem run_append (events late : List ε) :
    run step s (events ++ late) = (run step s events).bind fun s' => run step s' late :=
  List.foldlM_append

/-- What the steps of a kind keep, a run of them keeps. -/
theorem invariant {I : σ → Prop} {ok : ε → Prop}
    (hstep : ∀ s e s', ok e → step s e = some s' → I s → I s') {events : List ε}
    (hok : ∀ e ∈ events, ok e) (hrun : run step s events = some s') (hs : I s) : I s' := by
  induction events generalizing s with
  | nil => exact Option.some.inj hrun ▸ hs
  | cons e events ih =>
    obtain ⟨s₁, he, hrun⟩ := Option.bind_eq_some_iff.mp hrun
    exact ih (fun e he => hok e (List.mem_cons_of_mem _ he)) hrun
      (hstep s e s₁ (hok e List.mem_cons_self) he hs)

/-- What every step keeps, a run keeps. -/
theorem invariant_of_step {I : σ → Prop} (hstep : ∀ s e s', step s e = some s' → I s → I s')
    {events : List ε} (hrun : run step s events = some s') (hs : I s) : I s' := by
  have hall : ∀ e ∈ events, (fun _ : ε => True) e := fun _ _ => trivial
  exact invariant (fun s e s' _ => hstep s e s') hall hrun hs

/-! ### Progress -/

section Progress

variable {rank : σ → ℕ} {I : σ → Prop} {lowers : ℕ → ε → Prop}

theorem rank_le_of_run
    (hkeep : ∀ s e s', step s e = some s' → I s → I s' ∧ rank s' ≤ rank s)
    {events : List ε} (hrun : run step s events = some s') (hs : I s) :
    I s' ∧ rank s' ≤ rank s := by
  refine invariant_of_step (I := fun t => I t ∧ rank t ≤ rank s) ?_ hrun ⟨hs, Nat.le_refl _⟩
  rintro t e t' he ⟨ht, hle⟩
  obtain ⟨ht', hle'⟩ := hkeep t e t' he ht
  exact ⟨ht', Nat.le_trans hle' hle⟩

/-- A measure that no step raises is lower at the end of a run with an event that lowers it. -/
theorem rank_lt_of_lowers
    (hkeep : ∀ s e s', step s e = some s' → I s → I s' ∧ rank s' ≤ rank s)
    (hlower : ∀ s e s', step s e = some s' → I s → lowers (rank s) e → 0 < rank s →
      rank s' < rank s)
    {events : List ε} (hrun : run step s events = some s') (hs : I s) (hpos : 0 < rank s)
    (hevent : ∃ e ∈ events, lowers (rank s) e) : rank s' < rank s := by
  induction events generalizing s with
  | nil => simp at hevent
  | cons e events ih =>
    obtain ⟨s₁, he, hrun⟩ := Option.bind_eq_some_iff.mp hrun
    obtain ⟨hs₁, hle⟩ := hkeep s e s₁ he hs
    obtain hlt | heq := Nat.lt_or_eq_of_le hle
    · exact Nat.lt_of_le_of_lt (rank_le_of_run hkeep hrun hs₁).2 hlt
    · obtain ⟨a, ha, hlow⟩ := hevent
      obtain rfl | ha := List.mem_cons.mp ha
      · exact absurd heq (Nat.ne_of_lt (hlower s a s₁ he hs hlow hpos))
      · rw [← heq] at hlow hpos ⊢
        exact ih hrun hs₁ hpos ⟨a, ha, hlow⟩

/-- Every round, with an event for each value of the measure, lowers it. -/
theorem rank_le_of_rounds
    (hkeep : ∀ s e s', step s e = some s' → I s → I s' ∧ rank s' ≤ rank s)
    (hlower : ∀ s e s', step s e = some s' → I s → lowers (rank s) e → 0 < rank s →
      rank s' < rank s)
    {rounds : List (List ε)} (hrun : run step s rounds.flatten = some s') (hs : I s)
    (hround : ∀ r ∈ rounds, ∀ n, ∃ e ∈ r, lowers n e) : rank s' ≤ rank s - rounds.length := by
  induction rounds generalizing s with
  | nil =>
    cases Option.some.inj hrun
    exact Nat.le_refl _
  | cons r rounds ih =>
    rw [List.flatten_cons, run_append] at hrun
    obtain ⟨s₁, hr, hrun⟩ := Option.bind_eq_some_iff.mp hrun
    have hkept := rank_le_of_run hkeep hr hs
    have hrest := ih hrun hkept.1 fun r hr => hround r (List.mem_cons_of_mem _ hr)
    have hfirst : 0 < rank s → rank s₁ < rank s := fun hpos =>
      rank_lt_of_lowers hkeep hlower hr hs hpos (hround r List.mem_cons_self (rank s))
    simp only [List.length_cons]
    omega

end Progress

/-! ### The past of a run -/

section Happened

variable {next : σ → ε → σ} {s : σ} {P : σ → ε → Prop} {events : List ε}

/-- Some event of the run came in a state where it had `P`. -/
def Happened (next : σ → ε → σ) (s : σ) (P : σ → ε → Prop) (events : List ε) : Prop :=
  ∃ early e late, events = early ++ e :: late ∧ P (early.foldl next s) e

theorem happened_now {e : ε} (h : P (events.foldl next s) e) :
    Happened next s P (events ++ [e]) :=
  ⟨events, e, [], rfl, h⟩

theorem Happened.append (h : Happened next s P events) (late : List ε) :
    Happened next s P (events ++ late) := by
  obtain ⟨early, e, mid, rfl, he⟩ := h
  exact ⟨early, e, mid ++ late, by rw [List.append_assoc, List.cons_append], he⟩

theorem Happened.imp {Q : σ → ε → Prop} (h : Happened next s P events)
    (himp : ∀ s e, P s e → Q s e) : Happened next s Q events := by
  obtain ⟨early, e, late, hevents, he⟩ := h
  exact ⟨early, e, late, hevents, himp _ e he⟩

/-- A measure that no event decreases. -/
theorem le_foldl (rank : σ → ℕ) (hstep : ∀ s e, rank s ≤ rank (next s e)) (events : List ε)
    (s : σ) : rank s ≤ rank (events.foldl next s) := by
  induction events generalizing s with
  | nil => exact Nat.le_refl _
  | cons e events ih => exact Nat.le_trans (hstep s e) (ih (next s e))

end Happened

/-! ### Values of the recent past -/

section Recent

variable {α : Type*} {next : σ → ε → σ} {s : σ} {f : σ → α} {edge : ε → Bool}
  {events : List ε} {n : ℕ} {x : α}

/-- `x` is the value of `f` after a part of the run with at most `n` edges since then. -/
def Recent (next : σ → ε → σ) (s : σ) (f : σ → α) (edge : ε → Bool) (events : List ε) (n : ℕ)
    (x : α) : Prop :=
  ∃ early late, events = early ++ late ∧ late.countP edge ≤ n ∧ f (early.foldl next s) = x

theorem recent_now (h : f (events.foldl next s) = x) : Recent next s f edge events 0 x :=
  ⟨events, [], (List.append_nil events).symm, Nat.le_refl 0, h⟩

theorem Recent.mono {m : ℕ} (h : Recent next s f edge events n x) (hle : n ≤ m) :
    Recent next s f edge events m x := by
  obtain ⟨early, late, hevents, hcount, hx⟩ := h
  exact ⟨early, late, hevents, Nat.le_trans hcount hle, hx⟩

/-- An event makes a value older by its edge. -/
theorem Recent.concat (h : Recent next s f edge events n x) (e : ε) :
    Recent next s f edge (events ++ [e]) (n + (edge e).toNat) x := by
  obtain ⟨early, late, rfl, hcount, hx⟩ := h
  refine ⟨early, late ++ [e], List.append_assoc early late [e], ?_, hx⟩
  rw [List.countP_append, List.countP_singleton]
  cases edge e <;> simp [hcount]

/-- The flops of a synchronizer of `f`, where an edge samples `f` from before the event or
from after it: the first holds a value at most one edge old, the second one at most two. -/
theorem Recent.sync {x₁ x₂ : α} (e : ε) (h₁ : Recent next s f edge events 1 x₁)
    (h₂ : Recent next s f edge events 2 x₂)
    (hx : x = f (events.foldl next s) ∨ x = f (next (events.foldl next s) e)) :
    Recent next s f edge (events ++ [e]) 1 (if edge e then x else x₁) ∧
      Recent next s f edge (events ++ [e]) 2 (if edge e then x₁ else x₂) := by
  have hsampled : Recent next s f edge (events ++ [e]) 1 x := by
    obtain hold | hnew := hx
    · refine ((recent_now hold.symm).concat e).mono ?_
      rw [Nat.zero_add]
      exact Bool.toNat_le _
    · refine (recent_now ?_).mono (Nat.zero_le 1)
      rw [List.foldl_append, hnew]
      rfl
  have h₁' := h₁.concat e
  have h₂' := h₂.concat e
  cases hedge : edge e with
  | true =>
    rw [hedge] at h₁'
    exact ⟨hsampled, h₁'⟩
  | false =>
    rw [hedge] at h₁' h₂'
    exact ⟨h₁', h₂'⟩

end Recent

/-- The flops of a synchronizer: what the first one sampled, and the output. -/
structure Sync (α : Type*) where
  intq : α
  q : α
  deriving DecidableEq

/-- A clock edge of a synchronizer whose first flop samples `d`. -/
def Sync.clock {α : Type*} (s : Sync α) (d : α) : Sync α := ⟨d, s.intq⟩

end Clocked
