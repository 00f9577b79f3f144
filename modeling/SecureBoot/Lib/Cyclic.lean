import Mathlib.Data.Nat.Count
import Mathlib.Data.Nat.ModEq
import Mathlib.Order.Nat

/-! A walk around a ring of `n` places in steps of a size coprime with `n`. -/

namespace Stride

/-- The place after `k` steps. -/
def place (n step start k : ℕ) : ℕ := (start + k * step) % n

variable {n step : ℕ}

theorem place_lt (hn : 0 < n) (start k : ℕ) : place n step start k < n := Nat.mod_lt _ hn

theorem place_zero {start : ℕ} (h : start < n) : place n step start 0 = start := by
  rw [place, Nat.zero_mul, Nat.add_zero, Nat.mod_eq_of_lt h]

theorem place_succ (start k : ℕ) :
    place n step start (k + 1) = place n step (place n step start k) 1 := by
  rw [place, place, place, Nat.mod_add_mod, Nat.one_mul, Nat.succ_mul, Nat.add_assoc]

theorem place_one (start : ℕ) : place n step start 1 = (start + step) % n := by
  rw [place, Nat.one_mul]

theorem place_injOn (hcoprime : Nat.Coprime step n) (start : ℕ) {j k : ℕ} (hj : j < n)
    (hk : k < n) (h : place n step start j = place n step start k) : j = k := by
  have hmul : j * step ≡ k * step [MOD n] := Nat.ModEq.add_left_cancel' start h
  exact (hmul.cancel_right_of_coprime hcoprime.symm).eq_of_lt_of_lt hj hk

/-- `n` steps visit every place once. -/
theorem perm_range (hcoprime : Nat.Coprime step n) (start : ℕ) :
    ((List.range n).map (place n step start)).Perm (List.range n) := by
  rcases Nat.eq_zero_or_pos n with rfl | hn
  · rfl
  have hnodup : ((List.range n).map (place n step start)).Nodup :=
    List.Nodup.map_on (fun j hj k hk =>
      place_injOn hcoprime start (List.mem_range.1 hj) (List.mem_range.1 hk)) List.nodup_range
  have hsubset : (List.range n).map (place n step start) ⊆ List.range n := by
    intro i hi
    obtain ⟨k, -, rfl⟩ := List.mem_map.1 hi
    exact List.mem_range.2 (place_lt hn start k)
  exact (hnodup.subperm hsubset).perm_of_length_le (by rw [List.length_map])

end Stride

/-! Turns taken round robin: each turn goes to the next of the candidates in the order of their
numbers, and after the last one to the first. The rank of a candidate goes up by one with each
turn, so that as many turns as there are candidates reach each of them once. -/

namespace RoundRobin

variable {p : ℕ → Prop} [DecidablePred p] {N w w' : ℕ}

/-- The turn after the one of `w` is that of `w'`. -/
inductive Follows (p : ℕ → Prop) (N w w' : ℕ) : Prop
  | next (hlt : w < w') (hp : p w') (hbetween : ∀ j, w < j → j < w' → ¬ p j)
  | wrap (hlast : ∀ j, w < j → j < N → ¬ p j) (hp : p w') (hfirst : ∀ j < w', ¬ p j)

/-- Places without a candidate do not count. -/
theorem count_eq_of_forall_not {a b : ℕ} (hab : a ≤ b) (h : ∀ j, a ≤ j → j < b → ¬ p j) :
    Nat.count p b = Nat.count p a := by
  induction hab with
  | refl => rfl
  | @step b hab ih =>
    rw [Nat.count_succ, if_neg (h b hab (Nat.lt_succ_self b)), Nat.add_zero]
    exact ih fun j hj hlt => h j hj (Nat.lt_succ_of_lt hlt)

theorem count_lt (hp : p w) (hw : w < N) : Nat.count p w < Nat.count p N :=
  Nat.count_strict_mono hp hw

/-- The rank goes up by one, modulo the number of candidates. -/
theorem Follows.count_eq (h : Follows p N w w') (hp : p w) (hw : w < N) (hw' : w' < N) :
    Nat.count p w' = (Nat.count p w + 1) % Nat.count p N := by
  have hsucc : Nat.count p (w + 1) = Nat.count p w + 1 := by rw [Nat.count_succ, if_pos hp]
  cases h with
  | next hlt hp' hbetween =>
    have hrank : Nat.count p w' = Nat.count p (w + 1) :=
      count_eq_of_forall_not hlt fun j hj => hbetween j hj
    have hbound := count_lt hp' hw'
    rw [hrank, hsucc, Nat.mod_eq_of_lt (by omega)]
  | wrap hlast hp' hfirst =>
    have hall := count_eq_of_forall_not hw fun j hj => hlast j hj
    have hrank := count_eq_of_forall_not (Nat.zero_le w') fun j _ => hfirst j
    rw [hrank, Nat.count_zero, hall, hsucc, Nat.mod_self]

/-- The candidates take their turns, one in each round. -/
structure Turns (p : ℕ → Prop) (N n : ℕ) (turn : ℕ → ℕ) : Prop where
  candidate : ∀ k < n, p (turn k)
  lt : ∀ k < n, turn k < N
  follows : ∀ k, k + 1 < n → Follows p N (turn k) (turn (k + 1))

variable {n : ℕ} {turn : ℕ → ℕ}

theorem Turns.count_eq (h : Turns p N n turn) {k : ℕ} (hk : k < n) :
    Nat.count p (turn k) = (Nat.count p (turn 0) + k) % Nat.count p N := by
  induction k with
  | zero =>
    rw [Nat.add_zero, Nat.mod_eq_of_lt (count_lt (h.candidate 0 hk) (h.lt 0 hk))]
  | succ k ih =>
    have hk' : k < n := Nat.lt_of_succ_lt hk
    rw [(h.follows k hk).count_eq (h.candidate k hk') (h.lt k hk') (h.lt (k + 1) hk), ih hk',
      Nat.mod_add_mod, Nat.add_assoc]

/-- In a window of as many rounds as there are candidates, each one has one turn. -/
theorem Turns.existsUnique (h : Turns p N n turn) (hn : n = Nat.count p N) {j : ℕ} (hj : p j)
    (hjN : j < N) : ∃! k, k < n ∧ turn k = j := by
  have hrank := count_lt hj hjN
  rw [← hn] at hrank
  have h0 : 0 < n := Nat.zero_lt_of_lt hrank
  have hfirst := count_lt (h.candidate 0 h0) (h.lt 0 h0)
  rw [← hn] at hfirst
  have hturn (k : ℕ) (hk : k < n) :
      turn k = j ↔ (Nat.count p (turn 0) + k) % n = Nat.count p j := by
    rw [hn, ← h.count_eq hk]
    exact ⟨congrArg _, Nat.count_injective (h.candidate k hk) hj⟩
  have hmod (k : ℕ) (hk : k < n) : (Nat.count p (turn 0) + k) % n =
      if Nat.count p (turn 0) + k < n then Nat.count p (turn 0) + k
      else Nat.count p (turn 0) + k - n := by
    split_ifs with hlt
    · exact Nat.mod_eq_of_lt hlt
    · rw [Nat.mod_eq_sub_mod (by omega), Nat.mod_eq_of_lt (by omega)]
  let k := if Nat.count p (turn 0) ≤ Nat.count p j then Nat.count p j - Nat.count p (turn 0)
    else Nat.count p j + n - Nat.count p (turn 0)
  have hk : k < n := by
    simp only [k]
    split_ifs <;> omega
  refine ⟨k, ⟨hk, ?_⟩, ?_⟩
  · rw [hturn k hk, hmod k hk]
    simp only [k]
    split_ifs <;> omega
  · rintro k' ⟨hk', hturn'⟩
    rw [hturn k' hk', hmod k' hk'] at hturn'
    simp only [k]
    split_ifs at hturn' ⊢ <;> omega

end RoundRobin
