import Mathlib.Data.List.DropRight
import SecureBoot.Lib.PyStr

/-! Sized hexadecimal literals of SystemVerilog and lists of them, as they stand between the braces
of a concatenation. -/

namespace SvLiteral

open PyStr

/-! ### Literals -/

/-- The digits behind a base: underscores may stand anywhere but in front. -/
def hexNumber : List Char → Option ℕ
  | [] => none
  | c :: s =>
    if (hexDigit c).isSome ∧ s.all fun c => c = '_' ∨ (hexDigit c).isSome then
      some (valueFrom 0 ((c :: s).filter (· ≠ '_')))
    else none

/-- The size and the value of a literal; a value that is too large is truncated. -/
def literal (s : List Char) : Option (ℕ × ℕ) :=
  let size := s.takeWhile Char.isDigit
  match s.dropWhile Char.isDigit with
  | q :: base :: digits =>
    if size ≠ [] ∧ size.head? ≠ some '0' ∧ q = apostrophe ∧ (base = 'h' ∨ base = 'H') then
      (hexNumber digits).map fun x =>
        (Nat.ofDigitChars 10 size 0, x % 2 ^ Nat.ofDigitChars 10 size 0)
    else none
  | _ => none

/-- The literal is put to the right of a word, given by its width and value. -/
def concatLiteral (word : ℕ × ℕ) (s : List Char) : Option (ℕ × ℕ) :=
  (literal s).map fun l => (word.1 + l.1, word.2 * 2 ^ l.1 + l.2)

def strip (s : List Char) : List Char := (s.dropWhile isspaceChar).rdropWhile isspaceChar

/-- The width and the value of a list of literals. There is no empty concatenation. -/
def concatenation (s : List Char) : Option (ℕ × ℕ) :=
  ((s.splitOnP (· = ',')).map strip).foldlM concatLiteral (0, 0)

/-! ### Reading a literal -/

/-- An underscore behind the first character is not read. -/
theorem hexNumber_insert {i : ℕ} (hi : 0 < i) (s : List Char) :
    hexNumber (s.take i ++ '_' :: s.drop i) = hexNumber s := by
  obtain ⟨i, rfl⟩ := Nat.exists_eq_add_one.mpr hi
  cases s with
  | nil => rfl
  | cons c s =>
    have hfilter : (s.take i ++ '_' :: s.drop i).filter (· ≠ '_') = s.filter (· ≠ '_') := by
      rw [List.filter_append, List.filter_cons_of_neg (by decide), ← List.filter_append,
        List.take_append_drop]
    have hall : ((s.take i ++ '_' :: s.drop i).all fun c => c = '_' ∨ (hexDigit c).isSome) =
        s.all fun c => c = '_' ∨ (hexDigit c).isSome := by
      conv_rhs => rw [← List.take_append_drop i s, List.all_append]
      rw [List.all_append, List.all_cons, decide_eq_true (Or.inl rfl), Bool.true_and]
    rw [List.take_succ_cons, List.drop_succ_cons, List.cons_append, hexNumber, hexNumber]
    simp only [hall, List.filter_cons, hfilter]

theorem hexNumber_eq {s : List Char} (h : IsHex s) (hne : s ≠ []) :
    hexNumber s = some (valueFrom 0 s) := by
  have hsolid : ∀ c ∈ s, c ≠ '_' := by
    intro c hc
    obtain ⟨d, hd⟩ := Option.isSome_iff_exists.mp (h c hc)
    exact ne_of_hexDigit hd (by decide)
  cases s with
  | nil => exact absurd rfl hne
  | cons c s =>
    obtain ⟨hc, hs⟩ := List.forall_mem_cons.mp h
    have hall : (s.all fun c => c = '_' ∨ (hexDigit c).isSome) = true := by
      rw [List.all_eq_true]
      exact fun c hc => decide_eq_true (Or.inr (hs c hc))
    rw [hexNumber, if_pos ⟨hc, hall⟩,
      List.filter_eq_self.mpr fun c hc => decide_eq_true (hsolid c hc)]

theorem head?_toDigits_ne {n : ℕ} (hn : 0 < n) : (Nat.toDigits 10 n).head? ≠ some '0' := by
  induction n using Nat.strongRecOn with
  | ind n ih =>
    obtain hlt | hge := Nat.lt_or_ge n 10
    · rw [Nat.toDigits_of_lt_base hlt, List.head?_cons, ne_eq, Option.some.injEq,
        Nat.digitChar_eq_zero]
      omega
    · rw [Nat.toDigits_of_base_le (by decide) hge,
        List.head?_append, Option.or_of_isSome (by simp)]
      exact ih (n / 10) (by omega) (by omega)

theorem literal_lt {s : List Char} {l : ℕ × ℕ} (h : literal s = some l) : l.2 < 2 ^ l.1 := by
  simp only [literal] at h
  split at h
  · split_ifs at h
    obtain ⟨x, -, rfl⟩ := Option.map_eq_some_iff.mp h
    exact Nat.mod_lt _ (Nat.two_pow_pos _)
  · cases h

/-- A literal with a size in decimal digits. -/
theorem literal_eq {n : ℕ} (hn : 0 < n) (digits : List Char) :
    literal (Nat.toDigits 10 n ++ apostrophe :: 'h' :: digits) =
      (hexNumber digits).map fun x => (n, x % 2 ^ n) := by
  have hdigits : ∀ c ∈ Nat.toDigits 10 n, Char.isDigit c = true := fun c hc =>
    Nat.isDigit_of_mem_toDigits (by decide) (by decide) hc
  have hsize : (Nat.toDigits 10 n ++ apostrophe :: 'h' :: digits).takeWhile Char.isDigit =
      Nat.toDigits 10 n := by
    rw [List.takeWhile_append_of_pos hdigits, List.takeWhile_cons_of_neg (by decide),
      List.append_nil]
  have hrest : (Nat.toDigits 10 n ++ apostrophe :: 'h' :: digits).dropWhile Char.isDigit =
      apostrophe :: 'h' :: digits := by
    rw [List.dropWhile_append_of_pos hdigits, List.dropWhile_cons_of_neg (by decide)]
  simp only [literal, hsize, hrest]
  rw [if_pos ⟨Nat.toDigits_ne_nil, head?_toDigits_ne hn, trivial, Or.inl trivial⟩,
    Nat.ofDigitChars_ten_toDigits]

/-! ### Reading a concatenation -/

/-- A text without commas and white space. -/
def Solid (s : List Char) : Prop := ∀ c ∈ s, c ≠ ',' ∧ isspaceChar c = false

theorem strip_eq {s blanks : List Char} (h : Solid s) (hblanks : ∀ c ∈ blanks, isspaceChar c) :
    strip (blanks ++ s) = s := by
  have hdrop : (blanks ++ s).dropWhile isspaceChar = s := by
    rw [List.dropWhile_append_of_pos hblanks]
    cases s with
    | nil => rfl
    | cons c s => exact List.dropWhile_cons_of_neg (by simp [(h c List.mem_cons_self).2])
  rw [strip, hdrop]
  obtain rfl | ⟨s, c, rfl⟩ := List.eq_nil_or_concat s
  · rfl
  · have hc : isspaceChar c = false := (h c (by simp)).2
    rw [List.concat_eq_append]
    exact List.rdropWhile_concat_neg _ _ _ (by rw [hc]; decide)

/-- Literals joined by commas and a white space of one's own. -/
theorem concatenation_intercalate {blanks : List Char}
    (hblanks : ∀ c ∈ blanks, c ≠ ',' ∧ isspaceChar c) {s : List Char} {texts : List (List Char)}
    (hs : Solid s) (h : ∀ s ∈ texts, Solid s) :
    concatenation ((',' :: blanks).intercalate (s :: texts)) =
      (s :: texts).foldlM concatLiteral (0, 0) := by
  have hnot : ∀ {s lead : List Char}, Solid s → (∀ c ∈ lead, c ≠ ',' ∧ isspaceChar c) →
      ∀ c ∈ lead ++ s, decide (c = ',') = false := by
    intro s lead hs hlead
    rw [List.forall_mem_append]
    exact ⟨fun c hc => decide_eq_false (hlead c hc).1, fun c hc => decide_eq_false (hs c hc).1⟩
  have hsplit : ∀ lead, (∀ c ∈ lead, c ≠ ',' ∧ isspaceChar c) →
      ((lead ++ (',' :: blanks).intercalate (s :: texts)).splitOnP (· = ',')).map strip =
        s :: texts := by
    induction texts generalizing s with
    | nil =>
      intro lead hlead
      rw [List.intercalate_singleton, List.splitOnP_eq_singleton (hnot hs hlead),
        List.map_singleton, strip_eq hs fun c hc => (hlead c hc).2]
    | cons s' texts ih =>
      intro lead hlead
      obtain ⟨hs', htexts⟩ := List.forall_mem_cons.mp h
      rw [List.intercalate_cons_cons, List.append_assoc, List.cons_append, ← List.append_assoc,
        List.splitOnP_append_cons_of_forall_mem (hnot hs hlead) ',' (decide_eq_true rfl),
        List.map_cons, strip_eq hs fun c hc => (hlead c hc).2, ih hs' htexts blanks hblanks]
  have hlist := hsplit [] (by simp)
  rw [List.nil_append] at hlist
  rw [concatenation, hlist]

/-- The value fits in the width. -/
theorem concatenation_lt {s : List Char} {word : ℕ × ℕ} (h : concatenation s = some word) :
    word.2 < 2 ^ word.1 := by
  have hrun : ∀ (texts : List (List Char)) (start : ℕ × ℕ), start.2 < 2 ^ start.1 →
      texts.foldlM concatLiteral start = some word → word.2 < 2 ^ word.1 := by
    intro texts
    induction texts with
    | nil =>
      intro start hstart hrun
      cases hrun
      exact hstart
    | cons text texts ih =>
      intro start hstart hrun
      rw [List.foldlM_cons, Option.bind_eq_bind, Option.bind_eq_some_iff] at hrun
      obtain ⟨next, hnext, hrest⟩ := hrun
      obtain ⟨l, hl, rfl⟩ := Option.map_eq_some_iff.mp hnext
      refine ih _ ?_ hrest
      have hlit : l.2 < 2 ^ l.1 := literal_lt hl
      calc start.2 * 2 ^ l.1 + l.2 < (start.2 + 1) * 2 ^ l.1 := by rw [Nat.succ_mul]; omega
        _ ≤ 2 ^ start.1 * 2 ^ l.1 := Nat.mul_le_mul_right _ hstart
        _ = 2 ^ (start.1 + l.1) := (Nat.pow_add ..).symm
  exact hrun _ (0, 0) (by decide) h

end SvLiteral
