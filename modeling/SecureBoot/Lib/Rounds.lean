import Mathlib.Logic.Function.Iterate
import Mathlib.Tactic.Common

/-! Reflective ciphers. A forward pass, a middle layer that undoes itself, and a backward pass of
the inverse rounds in the opposite order, each pass under keys of its own. With the keys of the
two passes exchanged the same cipher decrypts. -/

namespace Reflection

variable {α κ : Type*}

/-- The rounds from the first on, the round `k` under the key `k`. -/
def forward (f : κ → α → α) (keys : ℕ → κ) : ℕ → α → α
  | 0, x => x
  | n + 1, x => f (keys (n + 1)) (forward f keys n x)

/-- The rounds from the last on. -/
def backward (g : κ → α → α) (keys : ℕ → κ) : ℕ → α → α
  | 0, y => y
  | n + 1, y => backward g keys n (g (keys (n + 1)) y)

def cipher (f g : κ → α → α) (middle : α → α) (inner outer : ℕ → κ) (n : ℕ) (x : α) : α :=
  backward g outer n (middle (forward f inner n x))

/-! ### Loops -/

theorem foldl_eq_forward (f : κ → α → α) (keys : ℕ → κ) (n : ℕ) (x : α) :
    (List.range' 1 n).foldl (fun x k => f (keys k) x) x = forward f keys n x := by
  induction n with
  | zero => rfl
  | succ n ih =>
    rw [List.range'_1_concat, List.foldl_append, ih, Nat.add_comm 1 n]
    rfl

/-- A loop that counts up while the keys count down. -/
theorem foldl_eq_backward (g : κ → α → α) (keys : ℕ → κ) (n : ℕ) (y : α) :
    (List.range' 1 n).foldl (fun y k => g (keys (n + 1 - k)) y) y = backward g keys n y := by
  have hloop (s : ℕ) : (List.range' (s + 1) n).foldl (fun y k => g (keys (s + n + 1 - k)) y) y =
      backward g keys n y := by
    induction n generalizing s y with
    | zero => rfl
    | succ n ih =>
      have hkey : s + (n + 1) + 1 - (s + 1) = n + 1 := by omega
      have hnext : s + (n + 1) + 1 = s + 1 + n + 1 := by omega
      rw [List.range'_succ, List.foldl_cons, hkey, backward, hnext]
      exact ih _ (s + 1)
  simpa using hloop 0

/-! ### Inverses -/

variable {f g : κ → α → α} {middle : α → α}

theorem backward_forward (h : ∀ k x, g k (f k x) = x) (keys : ℕ → κ) (n : ℕ) (x : α) :
    backward g keys n (forward f keys n x) = x := by
  induction n with
  | zero => rfl
  | succ n ih => rw [forward, backward, h, ih]

theorem forward_backward (h : ∀ k y, f k (g k y) = y) (keys : ℕ → κ) (n : ℕ) (y : α) :
    forward f keys n (backward g keys n y) = y := by
  induction n generalizing y with
  | zero => rfl
  | succ n ih => rw [forward, backward, ih, h]

/-- The cipher with the keys exchanged undoes the cipher. -/
theorem cipher_cipher (hgf : ∀ k x, g k (f k x) = x) (hfg : ∀ k y, f k (g k y) = y)
    (hmiddle : ∀ x, middle (middle x) = x) (inner outer : ℕ → κ) (n : ℕ) (x : α) :
    cipher f g middle outer inner n (cipher f g middle inner outer n x) = x := by
  rw [cipher, cipher, forward_backward hfg, hmiddle, backward_forward hgf]

/-! ### The keys in use -/

variable {inner inner' outer outer' : ℕ → κ} {n : ℕ}

theorem forward_congr (h : ∀ k, 1 ≤ k → k ≤ n → inner k = inner' k) (x : α) :
    forward f inner n x = forward f inner' n x := by
  induction n with
  | zero => rfl
  | succ n ih =>
    rw [forward, forward, h (n + 1) (by omega) (Nat.le_refl _), ih fun k h1 hk => h k h1 (by omega)]

theorem backward_congr (h : ∀ k, 1 ≤ k → k ≤ n → outer k = outer' k) (y : α) :
    backward g outer n y = backward g outer' n y := by
  induction n generalizing y with
  | zero => rfl
  | succ n ih =>
    rw [backward, backward, h (n + 1) (by omega) (Nat.le_refl _),
      ih fun k h1 hk => h k h1 (by omega)]

theorem cipher_congr (hinner : ∀ k, 1 ≤ k → k ≤ n → inner k = inner' k)
    (houter : ∀ k, 1 ≤ k → k ≤ n → outer k = outer' k) (x : α) :
    cipher f g middle inner outer n x = cipher f g middle inner' outer' n x := by
  rw [cipher, cipher, forward_congr hinner, backward_congr houter]

end Reflection

/-! A loop of rounds that is cut into instances of `p` rounds each. An instance that reaches the
last round finishes the state; if none before the end does, the instances in turn compute what a
single instance with all the rounds does. -/

namespace Unrolled

variable {σ : Type*} (round : σ → σ) (last : σ → Prop) [DecidablePred last] (finish : σ → σ)

/-- The rounds of one instance. -/
def inst (p : ℕ) (s : σ) : σ :=
  if last (round^[p] s) then finish (round^[p] s) else round^[p] s

variable {round last finish} {p m : ℕ} {s : σ}

theorem iterate_inst_of_not_last (h : ∀ k, 0 < k → k ≤ m → ¬ last (round^[p * k] s)) :
    (inst round last finish p)^[m] s = round^[p * m] s := by
  induction m with
  | zero => rfl
  | succ m ih =>
    have hround : round^[p * (m + 1)] s = round^[p] (round^[p * m] s) := by
      rw [Nat.mul_succ, Nat.add_comm, Function.iterate_add_apply]
    have hnot := h (m + 1) (Nat.succ_pos m) (Nat.le_refl _)
    rw [hround] at hnot
    rw [Function.iterate_succ_apply', ih fun k hpos hk => h k hpos (Nat.le_succ_of_le hk), inst,
      if_neg hnot, hround]

/-- Only the last of the instances finishes the state. -/
theorem iterate_inst (hm : 0 < m) (h : ∀ k, 0 < k → k < m → ¬ last (round^[p * k] s)) :
    (inst round last finish p)^[m] s = inst round last finish (p * m) s := by
  obtain ⟨m, rfl⟩ := Nat.exists_eq_add_one_of_ne_zero (Nat.ne_of_gt hm)
  have hround : round^[p * (m + 1)] s = round^[p] (round^[p * m] s) := by
    rw [Nat.mul_succ, Nat.add_comm, Function.iterate_add_apply]
  rw [Function.iterate_succ_apply',
    iterate_inst_of_not_last fun k hpos hk => h k hpos (Nat.lt_succ_of_le hk), inst, inst, hround]

end Unrolled
