import SecureBoot.Lib.Traverse
import SecureBoot.Secded.Agreement

/-! `sparse-fsm-encode.py`, which draws random state encodings until enough of them keep their
distance. An encoding is a string of binary digits. A draw is a value of `random.getrandbits`. -/

namespace SecureBoot.SparseFsmEncode

open Traverse

/-! ### The arguments -/

inductive Language where
  | sv | c | rust
deriving DecidableEq

structure Args where
  d : ℤ
  m : ℤ
  n : ℤ
  language : Language
  avoid_zero : Bool

/-- The checks of `main` before the first draw. -/
def check_args (args : Args) : Except String Unit := do
  let ⟨d, m, n, language, _⟩ := args
  if language ∈ [.c, .rust] ∧ n ∉ [8, 16, 32] then
    throw ("When using C or Rust, widths must be a power-of-two " ++
      s!"at least a byte (8 bits) wide. You chose {n}.")
  if m < 2 then throw s!"Number of states {m} must be at least 2."
  -- a power with a negative exponent is a fraction
  if n < 0 ∨ 2 ^ n.toNat < m then
    throw s!"Statespace 2^{n} not large enough to accommodate {m} states."
  if n ≤ d ∧ ¬(d = n ∧ m = 2) then
    throw (s!"State is only {n} bits wide, which is not enough to fulfill a " ++
      s!"minimum Hamming distance constraint of {d}. ")
  if d ≤ 0 then throw "Hamming distance must be > 0."

def min_popcnt (args : Args) : ℤ := if args.avoid_zero then args.d else 1

/-! ### The search -/

def MAX_DRAWS : ℕ := 10000
def MAX_RESTARTS : ℕ := 10000

def get_hd (word1 word2 : List Bool) : Except String ℕ := do
  if word1.length ≠ word2.length then throw "Words are not of equal size"
  return (formatBin 0 (intOfBin word1 ^^^ intOfBin word2)).count true

/-- The two checks of a candidate against an encoding; integers are unbounded. -/
def clashes (args : Args) (cand k : List Bool) : Except String Bool := do
  if (intOfBin cand : ℤ) = ~~~(intOfBin k : ℤ) then return true
  return (← get_hd cand k) < args.d

/-- The encodings after a candidate. -/
def consider (args : Args) (encodings : List (List Bool)) (cand : List Bool) :
    Except String (List (List Bool)) := do
  let pop_cnt : ℤ := cand.count true
  if pop_cnt < args.n ∧ min_popcnt args ≤ pop_cnt then
    if ← encodings.anyM (clashes args cand) then return encodings
    return encodings ++ [cand]
  return encodings

/-- The variables of the loop, and how many values have been drawn. -/
structure State where
  num_draws : ℕ
  num_restarts : ℕ
  drawn : ℕ
  encodings : List (List Bool)

def restart (s : State) : State :=
  if MAX_DRAWS ≤ s.num_draws then
    { num_draws := 0, num_restarts := s.num_restarts + 1, drawn := s.drawn + 1, encodings := [] }
  else s

section Loop

variable (args : Args) (random : ℕ → BitVec args.n.toNat)

def candidate (s : State) : List Bool := formatBin args.n.toNat (random s.drawn).toNat

/-- One round of the loop. -/
def round (s : State) : Except String State := do
  let s := restart s
  let num_restarts := s.num_restarts
  if MAX_RESTARTS ≤ num_restarts then
    throw (s!"Did not find a solution after restarting {num_restarts} times. This is " ++
      "an indicator that not many (or even no) solutions exist for " ++
      "the current parameterization. Rerun the script and/or adjust " ++
      "the d/m/n parameters. E.g. make the state space more sparse by " ++
      "increasing n, or lower the minimum Hamming distance threshold d.")
  let encodings ← consider args s.encodings (candidate args random s)
  return { s with num_draws := s.num_draws + 1, drawn := s.drawn + 1, encodings }

theorem round_ok {s s' : State} (h : round args random s = .ok s') :
    (restart s).num_restarts < MAX_RESTARTS ∧ ∃ encodings,
      consider args (restart s).encodings (candidate args random (restart s)) = .ok encodings ∧
        s' = { restart s with
          num_draws := (restart s).num_draws + 1, drawn := (restart s).drawn + 1, encodings } := by
  rw [round] at h
  dsimp only at h
  by_cases hmax : MAX_RESTARTS ≤ (restart s).num_restarts
  · rw [if_pos hmax] at h
    cases h
  · rw [if_neg hmax] at h
    obtain ⟨encodings, hencodings, h⟩ := bind_ok h
    cases h
    exact ⟨not_le.mp hmax, encodings, hencodings, rfl⟩

/-- Either an attempt is restarted or one of its draws is used up. -/
theorem round_decreases {s s' : State} (h : round args random s = .ok s') :
    Prod.Lex (· < ·) (· < ·)
      (MAX_RESTARTS - s'.num_restarts, MAX_DRAWS - s'.num_draws)
      (MAX_RESTARTS - s.num_restarts, MAX_DRAWS - s.num_draws) := by
  obtain ⟨hlt, encodings, -, rfl⟩ := round_ok args random h
  unfold restart at hlt ⊢
  split_ifs at hlt ⊢ with hdraws
  · exact Prod.Lex.left _ _ (by simp only at hlt ⊢; omega)
  · exact Prod.Lex.right _ (by simp only; omega)

/-- `while len(encodings) < args.m`. -/
def loop (s : State) : Except String (List (List Bool)) :=
  if s.encodings.length < args.m then
    match _hround : round args random s with
    | .ok s' => loop s'
    | .error e => .error e
  else .ok s.encodings
termination_by (MAX_RESTARTS - s.num_restarts, MAX_DRAWS - s.num_draws)
decreasing_by exact round_decreases args random ‹_›

/-- The first value drawn is not used. -/
def initial : State := { num_draws := 0, num_restarts := 0, drawn := 1, encodings := [] }

/-- The encodings that are printed, or the error that ends the script. -/
def main : Except String (List (List Bool)) := do
  check_args args
  loop args random initial

end Loop

/-! ### Distances -/

/-- The number of positions in which two strings differ. -/
def distance (a b : List Bool) : ℕ := (List.zipWith (· ^^ ·) a b).count true

theorem distance_comm (a b : List Bool) : distance a b = distance b a :=
  congrArg (List.count true) (List.zipWith_comm_of_comm Bool.xor_comm)

/-- Strings of the same digits, apart from leading zeros, have as many ones. -/
theorem count_eq_of_getD {l l' : List Bool} (h : ∀ i, l.getD i false = l'.getD i false) :
    l.count true = l'.count true := by
  induction l generalizing l' with
  | nil =>
    refine (List.count_eq_zero.mpr fun hmem => ?_).symm
    obtain ⟨i, hi, hget⟩ := List.getElem_of_mem hmem
    have hfalse := h i
    rw [List.getD_nil, List.getD_eq_getElem _ _ hi, hget] at hfalse
    cases hfalse
  | cons b l ih =>
    cases l' with
    | nil =>
      have hb : b = false := h 0
      rw [hb, List.count_cons_of_ne (by decide)]
      exact ih fun i => h (i + 1)
    | cons b' l' =>
      have hb : b = b' := h 0
      rw [List.count_cons, List.count_cons, hb, ih fun i => h (i + 1)]

/-- `get_hd` counts the ones of an exclusive or of numbers. -/
theorem get_hd_eq {a b : List Bool} (h : a.length = b.length) :
    get_hd a b = .ok (distance a b) := by
  rw [get_hd, if_neg (not_not.mpr h)]
  refine congrArg Except.ok ?_
  rw [distance, ← List.count_reverse, ← List.count_reverse (l := List.zipWith _ a b),
    List.reverse_zipWith h]
  refine count_eq_of_getD fun i => ?_
  rw [getD_formatBin, Nat.testBit_xor, testBit_intOfBin, testBit_intOfBin]
  simp only [List.getD_eq_getElem?_getD, List.getElem?_zipWith]
  by_cases hi : i < a.length
  · rw [List.getElem?_eq_getElem (by simpa using hi), List.getElem?_eq_getElem (by simpa [← h])]
    rfl
  · rw [List.getElem?_eq_none (by simpa using hi), List.getElem?_eq_none (by simpa [← h] using hi)]
    rfl

theorem natCast_ne_not (x y : ℕ) : (x : ℤ) ≠ ~~~(y : ℤ) := by
  intro h
  cases h

/-- The complement test never fires. -/
theorem clashes_eq {args : Args} {cand k : List Bool} (h : k.length = cand.length) :
    clashes args cand k = .ok (decide (distance cand k < args.d)) := by
  rw [clashes, if_neg (natCast_ne_not _ _), get_hd_eq h.symm]
  rfl

/-- A candidate of a good weight that is far enough from the encodings. -/
def Passes (args : Args) (encodings : List (List Bool)) (cand : List Bool) : Prop :=
  (cand.count true < args.n ∧ min_popcnt args ≤ cand.count true) ∧
    ∀ k ∈ encodings, args.d ≤ distance cand k

instance (args : Args) (encodings : List (List Bool)) (cand : List Bool) :
    Decidable (Passes args encodings cand) :=
  inferInstanceAs (Decidable (_ ∧ _))

theorem anyM_clashes {args : Args} {encodings : List (List Bool)} {cand : List Bool}
    (h : ∀ k ∈ encodings, k.length = cand.length) :
    encodings.anyM (clashes args cand) =
      .ok (encodings.any fun k => decide (distance cand k < args.d)) := by
  induction encodings with
  | nil => rfl
  | cons k encodings ih =>
    obtain ⟨hk, hrest⟩ := List.forall_mem_cons.mp h
    rw [List.anyM, clashes_eq hk, List.any_cons, ih hrest]
    cases decide (distance cand k < args.d) <;> rfl

theorem consider_eq {args : Args} {encodings : List (List Bool)} {cand : List Bool}
    (h : ∀ k ∈ encodings, k.length = cand.length) :
    consider args encodings cand =
      .ok (if Passes args encodings cand then encodings ++ [cand] else encodings) := by
  rw [consider]
  by_cases hweight : cand.count true < args.n ∧ min_popcnt args ≤ cand.count true
  · rw [if_pos hweight, anyM_clashes h]
    by_cases hfar : ∀ k ∈ encodings, args.d ≤ distance cand k
    · have hany : encodings.any (fun k => decide (distance cand k < args.d)) = false := by
        simpa using hfar
      rw [hany, if_pos ⟨hweight, hfar⟩]
      rfl
    · have hany : encodings.any (fun k => decide (distance cand k < args.d)) = true := by
        simpa using hfar
      rw [hany, if_neg fun hpasses => hfar hpasses.2]
      rfl
  · rw [if_neg hweight, if_neg fun hpasses => hweight hpasses.1]
    rfl

/-! ### Constraints -/

/-- The bitwise complement. -/
def complement (e : List Bool) : List Bool := e.map not

theorem complement_complement (e : List Bool) : complement (complement e) = e := by
  simp [complement, Function.comp_def]

/-- What the encodings have to meet. -/
structure Meets (args : Args) (encodings : List (List Bool)) : Prop where
  length : ∀ e ∈ encodings, (e.length : ℤ) = args.n
  distance : encodings.Pairwise fun a b => args.d ≤ distance a b
  weight : ∀ e ∈ encodings, true ∈ e ∧ false ∈ e ∧ (args.avoid_zero → args.d ≤ e.count true)
  complement : ∀ a ∈ encodings, ∀ b ∈ encodings, b ≠ complement a

variable {args : Args} {encodings : List (List Bool)} {cand : List Bool}

theorem meets_nil : Meets args [] where
  length := by simp
  distance := List.Pairwise.nil
  weight := by simp
  complement := by simp

theorem bounds_of_check_args (h : check_args args = .ok ()) :
    0 < args.d ∧ 0 < args.n ∧ 2 ≤ args.m := by
  obtain ⟨d, m, n, language, avoid_zero⟩ := args
  rw [check_args] at h
  dsimp only at h ⊢
  split_ifs at h <;> try cases h
  rename_i hm hn _ hd
  have hzero : n ≠ 0 := by
    rintro rfl
    exact hn (Or.inr (by rw [Int.toNat_zero, pow_zero]; omega))
  omega

theorem Passes.weight (h : check_args args = .ok ()) (hlength : (cand.length : ℤ) = args.n)
    (hpasses : Passes args encodings cand) :
    true ∈ cand ∧ false ∈ cand ∧ (args.avoid_zero → args.d ≤ cand.count true) := by
  obtain ⟨⟨hlt, hmin⟩, -⟩ := hpasses
  have hd := (bounds_of_check_args h).1
  refine ⟨?_, ?_, fun havoid => ?_⟩
  · rw [← List.count_pos_iff]
    unfold min_popcnt at hmin
    split_ifs at hmin <;> omega
  · by_contra hfalse
    have hall : cand.count true = cand.length := by
      rw [List.count_eq_length]
      intro b hb
      cases b with
      | true => rfl
      | false => exact absurd hb hfalse
    omega
  · rwa [min_popcnt, if_pos havoid] at hmin

/-- A candidate that passes keeps the constraints exactly if no encoding is its complement. -/
theorem meets_concat_iff (h : check_args args = .ok ()) (hlength : (cand.length : ℤ) = args.n)
    (hmeets : Meets args encodings) (hpasses : Passes args encodings cand) :
    Meets args (encodings ++ [cand]) ↔ ∀ k ∈ encodings, cand ≠ complement k := by
  constructor
  · intro hconcat k hk
    exact hconcat.complement k (List.mem_append_left _ hk) cand (by simp)
  · intro hsafe
    refine ⟨?_, ?_, ?_, ?_⟩
    · rw [List.forall_mem_append, List.forall_mem_singleton]
      exact ⟨hmeets.length, hlength⟩
    · refine List.pairwise_append.mpr ⟨hmeets.distance, List.pairwise_singleton _ _, ?_⟩
      intro k hk cand' hcand'
      rw [List.mem_singleton.mp hcand', distance_comm]
      exact hpasses.2 k hk
    · rw [List.forall_mem_append, List.forall_mem_singleton]
      exact ⟨hmeets.weight, hpasses.weight h hlength⟩
    · have hself : cand ≠ complement cand := by
        intro heq
        have hlen := (bounds_of_check_args h).2.1
        cases cand with
        | nil => simp at hlength; omega
        | cons b cand => cases b <;> cases heq
      intro a ha b hb
      rw [List.mem_append, List.mem_singleton] at ha hb
      obtain ha | rfl := ha
      · obtain hb | rfl := hb
        · exact hmeets.complement a ha b hb
        · exact hsafe a ha
      · obtain hb | rfl := hb
        · intro heq
          exact hsafe b hb (by rw [heq, complement_complement])
        · exact hself

/-! ### Runs -/

section Runs

variable {random : ℕ → BitVec args.n.toNat} {s s' : State}

variable (args random) in
/-- The states of the loop, at the start of a round or at its end. -/
inductive Reached : State → Prop where
  | start : Reached initial
  | step {s s' : State} : Reached s → s.encodings.length < args.m → round args random s = .ok s' →
      Reached s'

variable (args random) in
/-- A candidate that passes is not the complement of an encoding that is kept. -/
def Safe (s : State) : Prop :=
  Passes args (restart s).encodings (candidate args random (restart s)) →
    ∀ k ∈ (restart s).encodings, candidate args random (restart s) ≠ complement k

theorem length_candidate (h : check_args args = .ok ()) (s : State) :
    ((candidate args random s).length : ℤ) = args.n := by
  have hn := (bounds_of_check_args h).2.1
  rw [candidate, length_formatBin (by omega) (BitVec.isLt _)]
  omega

theorem restart_encodings (s : State) :
    (restart s).encodings = s.encodings ∨ (restart s).encodings = [] := by
  rw [restart]
  split_ifs
  · exact Or.inr rfl
  · exact Or.inl rfl

/-- The encodings after a round. -/
theorem round_encodings (h : check_args args = .ok ())
    (hlength : ∀ e ∈ s.encodings, (e.length : ℤ) = args.n) (hround : round args random s = .ok s') :
    s'.encodings =
      if Passes args (restart s).encodings (candidate args random (restart s))
      then (restart s).encodings ++ [candidate args random (restart s)]
      else (restart s).encodings := by
  obtain ⟨-, encodings, hconsider, rfl⟩ := round_ok args random hround
  have hrestart : ∀ e ∈ (restart s).encodings,
      e.length = (candidate args random (restart s)).length := by
    intro e he
    have hcand := @length_candidate args random h (restart s)
    obtain hsame | hnil := restart_encodings s
    · rw [hsame] at he
      have hlen := hlength e he
      omega
    · rw [hnil] at he
      cases he
  rw [consider_eq hrestart] at hconsider
  exact (Except.ok.inj hconsider).symm

/-- All encodings have `n` digits, and there are at most `m`. -/
theorem Reached.bounds (h : check_args args = .ok ()) (hreached : Reached args random s) :
    (∀ e ∈ s.encodings, (e.length : ℤ) = args.n) ∧ (s.encodings.length : ℤ) ≤ args.m := by
  induction hreached with
  | start =>
    have hm := (bounds_of_check_args h).2.2
    exact ⟨by simp [initial], by simp only [initial, List.length_nil]; omega⟩
  | @step s s' _ hlt hround ih =>
    have hrestart : (∀ e ∈ (restart s).encodings, (e.length : ℤ) = args.n) ∧
        ((restart s).encodings.length : ℤ) < args.m := by
      obtain hsame | hnil := restart_encodings s
      · rw [hsame]
        exact ⟨ih.1, hlt⟩
      · have hm := (bounds_of_check_args h).2.2
        rw [hnil, List.length_nil]
        exact ⟨by simp, by omega⟩
    rw [round_encodings h ih.1 hround]
    split_ifs
    · rw [List.forall_mem_append, List.forall_mem_singleton, List.length_append,
        List.length_singleton]
      exact ⟨⟨hrestart.1, length_candidate h _⟩, by omega⟩
    · exact ⟨hrestart.1, hrestart.2.le⟩

/-- A round keeps the constraints exactly if it is safe. -/
theorem meets_round_iff (h : check_args args = .ok ()) (hmeets : Meets args s.encodings)
    (hround : round args random s = .ok s') :
    Meets args s'.encodings ↔ Safe args random s := by
  have hrestart : Meets args (restart s).encodings := by
    obtain hsame | hnil := restart_encodings s
    · rwa [hsame]
    · rw [hnil]
      exact meets_nil
  rw [round_encodings h hmeets.length hround, Safe]
  split_ifs with hpasses
  · rw [meets_concat_iff h (length_candidate h _) hrestart hpasses]
    exact ⟨fun hsafe _ => hsafe, fun hsafe => hsafe hpasses⟩
  · exact iff_of_true hrestart fun hp => absurd hp hpasses

theorem Reached.of_loop {encodings : List (List Bool)} (hreached : Reached args random s)
    (hloop : loop args random s = .ok encodings) :
    ∃ s', Reached args random s' ∧ args.m ≤ s'.encodings.length ∧ s'.encodings = encodings := by
  fun_induction loop args random s with
  | case1 s hlt s' hround ih => exact ih (hreached.step hlt hround) hloop
  | case2 s hlt e hround => cases hloop
  | case3 s hge => exact ⟨s, hreached, not_lt.mp hge, Except.ok.inj hloop⟩

/-- The encodings meet the constraints in every state of the loop, and those that are printed are
as many as requested and meet them too. -/
def Correct (args : Args) (random : ℕ → BitVec args.n.toNat) : Prop :=
  (∀ s, Reached args random s → Meets args s.encodings) ∧
    ∀ encodings, main args random = .ok encodings →
      encodings.length = args.m ∧ Meets args encodings

/-- For accepted arguments and any draws the script is correct exactly if every round is safe. -/
theorem correct_iff (h : check_args args = .ok ()) :
    Correct args random ↔ ∀ s s', Reached args random s → s.encodings.length < args.m →
      round args random s = .ok s' → Safe args random s := by
  constructor
  · intro hcorrect s s' hreached hlt hround
    exact (meets_round_iff h (hcorrect.1 s hreached) hround).mp
      (hcorrect.1 s' (hreached.step hlt hround))
  · intro hsafe
    have hmeets : ∀ s, Reached args random s → Meets args s.encodings := by
      intro s hreached
      induction hreached with
      | start => exact meets_nil
      | step hreached hlt hround ih =>
        exact (meets_round_iff h ih hround).mpr (hsafe _ _ hreached hlt hround)
    refine ⟨hmeets, fun encodings hmain => ?_⟩
    rw [main, h] at hmain
    obtain ⟨s, hreached, hge, rfl⟩ := Reached.start.of_loop hmain
    exact ⟨le_antisymm (hreached.bounds h).2 hge, hmeets s hreached⟩

/-- Every encoding has been drawn. -/
theorem Reached.drawn (h : check_args args = .ok ()) (hreached : Reached args random s) :
    ∀ e ∈ s.encodings, ∃ i, e = formatBin args.n.toNat (random i).toNat := by
  induction hreached with
  | start => exact fun e he => absurd he List.not_mem_nil
  | @step s s' hreached hlt hround ih =>
    have hrestart : ∀ e ∈ (restart s).encodings,
        ∃ i, e = formatBin args.n.toNat (random i).toNat := by
      obtain hsame | hnil := restart_encodings s
      · rwa [hsame]
      · rw [hnil]
        exact fun e he => absurd he List.not_mem_nil
    rw [round_encodings h (hreached.bounds h).1 hround]
    split_ifs
    · rw [List.forall_mem_append, List.forall_mem_singleton]
      exact ⟨hrestart, _, rfl⟩
    · exact hrestart

theorem loop_of_round (hlt : s.encodings.length < args.m) (hround : round args random s = .ok s') :
    loop args random s = loop args random s' := by
  rw [loop, if_pos hlt]
  split
  · rename_i s₁ hs₁
    rw [hround] at hs₁
    cases hs₁
    rfl
  · rename_i e he
    rw [hround] at he
    cases he

end Runs

/-! ### Two draws -/

/-- Two states of ten bits at the default distance. -/
def twoStates : Args where
  d := 5
  m := 2
  n := 10
  language := .sv
  avoid_zero := false

theorem correct_twoStates :
    Correct twoStates fun i => if i % 2 = 0 then 0x01F#10 else 0x3E1#10 := by
  refine (correct_iff rfl).mpr fun s s' hreached _ _ _ k hk => ?_
  have hkept : k ∈ s.encodings := by
    obtain hsame | hnil := restart_encodings s
    · rwa [hsame] at hk
    · rw [hnil] at hk
      cases hk
  obtain ⟨i, rfl⟩ := hreached.drawn rfl k hkept
  have hdraws : ∀ x ∈ [0x01F#10, 0x3E1#10], ∀ y ∈ [0x01F#10, 0x3E1#10],
      formatBin 10 x.toNat ≠ complement (formatBin 10 y.toNat) := by decide
  have hdraw : ∀ i : ℕ, (if i % 2 = 0 then 0x01F#10 else 0x3E1#10) ∈ [0x01F#10, 0x3E1#10] := by
    intro i
    split_ifs <;> simp
  exact hdraws _ (hdraw _) _ (hdraw i)

/-- The second draw is the complement of the first one. -/
theorem complementary_draws_fail :
    main twoStates (fun i => if i = 1 then 0x155#10 else 0x2AA#10) =
        .ok [[false, true, false, true, false, true, false, true, false, true],
          [true, false, true, false, true, false, true, false, true, false]] ∧
      ¬Correct twoStates fun i => if i = 1 then 0x155#10 else 0x2AA#10 := by
  have hmain : main twoStates (fun i => if i = 1 then 0x155#10 else 0x2AA#10) =
      .ok [[false, true, false, true, false, true, false, true, false, true],
        [true, false, true, false, true, false, true, false, true, false]] := by
    change loop twoStates _ initial = _
    have hfirst : round twoStates (fun i => if i = 1 then 0x155#10 else 0x2AA#10) initial =
        .ok ⟨1, 0, 2, [[false, true, false, true, false, true, false, true, false, true]]⟩ := rfl
    have hsecond : round twoStates (fun i => if i = 1 then 0x155#10 else 0x2AA#10)
        ⟨1, 0, 2, [[false, true, false, true, false, true, false, true, false, true]]⟩ =
          .ok ⟨2, 0, 3, [[false, true, false, true, false, true, false, true, false, true],
            [true, false, true, false, true, false, true, false, true, false]]⟩ := rfl
    rw [loop_of_round (by decide) hfirst, loop_of_round (by decide) hsecond, loop,
      if_neg (by decide)]
  refine ⟨hmain, fun hcorrect => ?_⟩
  exact (hcorrect.2 _ hmain).2.complement _ (List.mem_cons_self ..) _
    (List.mem_cons_of_mem _ (List.mem_cons_self ..)) rfl

end SecureBoot.SparseFsmEncode
