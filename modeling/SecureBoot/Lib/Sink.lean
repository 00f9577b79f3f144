import Mathlib.Data.List.Basic

/-! Programs that write to a sink they know nothing about. A sink takes a piece and says how much
of it was written; a program that never looks at this count writes the same pieces to any sink,
so that what one sink receives tells what another one does. -/

namespace Sink

variable {β σ : Type} {w : ℕ}

/-- What a sink does with a piece: its new data and the number of items written. -/
abbrev Write (β σ : Type) := σ → List β → σ × ℕ

/-- The data of a sink and a counter of the items written. -/
structure State (σ : Type) (w : ℕ) where
  data : σ
  written : BitVec w

def put (out : Write β σ) (st : State σ w) (piece : List β) : State σ w :=
  ⟨(out st.data piece).1, st.written + .ofNat w (out st.data piece).2⟩

def puts (out : Write β σ) (st : State σ w) (pieces : List (List β)) : State σ w :=
  pieces.foldl (put out) st

/-- A function with a counter of its own, whose result is added to that of the caller. -/
def State.call (st : State σ w) (f : σ → State σ w) : State σ w :=
  ⟨(f st.data).data, st.written + (f st.data).written⟩

theorem puts_append (out : Write β σ) (st : State σ w) (ps qs : List (List β)) :
    puts out st (ps ++ qs) = puts out (puts out st ps) qs := List.foldl_append

/-- The counter of the caller is only added to. -/
theorem call_puts (out : Write β σ) (st : State σ w) (ps : List (List β)) :
    st.call (fun data => puts out ⟨data, 0⟩ ps) = puts out st ps := by
  have hshift : ∀ (st : State σ w) (m : BitVec w),
      puts out ⟨st.data, m + st.written⟩ ps =
        ⟨(puts out st ps).data, m + (puts out st ps).written⟩ := by
    intro st m
    induction ps generalizing st with
    | nil => rfl
    | cons p ps ih =>
      have hput : put out ⟨st.data, m + st.written⟩ p =
          ⟨(put out st p).data, m + (put out st p).written⟩ := by
        simp only [put, BitVec.add_assoc]
      rw [puts, List.foldl_cons, hput]
      exact ih (put out st p)
  have h := hshift ⟨st.data, 0⟩ st.written
  rw [show st.written + (0 : BitVec w) = st.written from BitVec.add_zero _] at h
  exact h.symm

/-! ### Programs that know nothing of the sink -/

/-- The program writes certain pieces, whatever the sink. -/
def Appends (f : ∀ σ : Type, Write β σ → State σ w → State σ w) : Prop :=
  ∃ ps, ∀ σ out st, f σ out st = puts out st ps

/-- A function with a counter of its own writes certain pieces. -/
def Counts (f : ∀ σ : Type, Write β σ → σ → State σ w) : Prop :=
  ∃ ps, ∀ σ out data, f σ out data = puts out ⟨data, 0⟩ ps

theorem Appends.id : Appends (β := β) (w := w) fun _ _ st => st := ⟨[], fun _ _ _ => rfl⟩

theorem Appends.put (piece : List β) : Appends (w := w) fun _ out st => put out st piece :=
  ⟨[piece], fun _ _ _ => rfl⟩

theorem Appends.comp {f g : ∀ σ : Type, Write β σ → State σ w → State σ w} (hf : Appends f)
    (hg : Appends g) : Appends fun σ out st => g σ out (f σ out st) := by
  obtain ⟨ps, hps⟩ := hf
  obtain ⟨qs, hqs⟩ := hg
  refine ⟨ps ++ qs, fun σ out st => ?_⟩
  rw [puts_append, ← hps, ← hqs]

theorem Counts.call {f : ∀ σ : Type, Write β σ → σ → State σ w} (hf : Counts f) :
    Appends fun σ out st => st.call (f σ out) := by
  obtain ⟨ps, hps⟩ := hf
  refine ⟨ps, fun σ out st => ?_⟩
  rw [← call_puts]
  exact congrArg st.call (funext fun data => hps σ out data)

theorem Appends.counts {f : ∀ σ : Type, Write β σ → State σ w → State σ w} (hf : Appends f) :
    Counts fun σ out data => f σ out ⟨data, 0⟩ := by
  obtain ⟨ps, hps⟩ := hf
  exact ⟨ps, fun σ out data => hps σ out _⟩

/-! ### The sink that takes everything -/

def collect : Write β (List β) := fun data piece => (data ++ piece, piece.length)

theorem puts_collect (st : State (List β) w) (ps : List (List β)) :
    puts collect st ps = ⟨st.data ++ ps.flatten, st.written + .ofNat w ps.flatten.length⟩ := by
  induction ps generalizing st with
  | nil => simp [puts]
  | cons p ps ih =>
    rw [puts, List.foldl_cons, ← puts, ih]
    simp only [put, collect, List.flatten_cons, List.length_append, BitVec.ofNat_add,
      List.append_assoc, BitVec.add_assoc]

end Sink
