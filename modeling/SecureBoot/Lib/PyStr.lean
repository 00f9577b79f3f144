import Mathlib.Data.Nat.Digits.Lemmas

/-! Python strings of ASCII characters: lines, tokens between white space, and hexadecimal numerals
as a format writes and `int` reads them. -/

namespace PyStr

/-! ### Lines -/

/-- The lines of a file, each one with its line break. -/
def lines : List Char → List (List Char)
  | [] => []
  | c :: s =>
    if c = '\n' then ['\n'] :: lines s
    else match lines s with
      | [] => [[c]]
      | line :: rest => (c :: line) :: rest

/-- A line of a text that is written line by line. -/
def Line (s : List Char) : Prop := ∃ line, '\n' ∉ line ∧ s = line ++ ['\n']

theorem lines_append {s : List Char} (h : Line s) (rest : List Char) :
    lines (s ++ rest) = s :: lines rest := by
  obtain ⟨line, hline, rfl⟩ := h
  induction line with
  | nil => simp [lines]
  | cons c line ih =>
    obtain ⟨hc, hline⟩ := not_or.mp (fun h => hline (List.mem_cons.mpr h))
    rw [List.cons_append, List.cons_append, lines, if_neg (Ne.symm hc), ih hline]

theorem lines_flatten {texts : List (List Char)} (h : ∀ s ∈ texts, Line s) :
    lines texts.flatten = texts := by
  induction texts with
  | nil => rfl
  | cons s texts ih =>
    obtain ⟨hs, hrest⟩ := List.forall_mem_cons.mp h
    rw [List.flatten_cons, lines_append hs, ih hrest]

/-! ### Tokens -/

def isspaceChar (c : Char) : Bool :=
  c = ' ' ∨ (9 ≤ c.toNat ∧ c.toNat ≤ 13) ∨ (0x1c ≤ c.toNat ∧ c.toNat ≤ 0x1f)

/-- `s.isspace()`. -/
def isspace (s : List Char) : Bool := s ≠ [] ∧ s.all isspaceChar

/-- `s.split()`. -/
def split (s : List Char) : List (List Char) := (s.splitOnP isspaceChar).filter (· ≠ [])

/-- `' '.join(toks)`. -/
def join (toks : List (List Char)) : List Char := [' '].intercalate toks

/-- A string that stays whole when a line is split. -/
structure Token (s : List Char) : Prop where
  ne_nil : s ≠ []
  solid : ∀ c ∈ s, isspaceChar c = false

theorem Token.split_append {tok : List Char} (h : Token tok) {c : Char} (hc : isspaceChar c = true)
    (rest : List Char) : split (tok ++ c :: rest) = tok :: split rest := by
  rw [split, List.splitOnP_append_cons_of_forall_mem h.solid c hc, List.filter_cons_of_pos]
  · rfl
  · exact decide_eq_true h.ne_nil

theorem split_nil : split [] = [] := rfl

theorem join_singleton (tok : List Char) : join [tok] = tok := by simp [join]

theorem join_cons_cons (tok tok' : List Char) (toks : List (List Char)) :
    join (tok :: tok' :: toks) = tok ++ ' ' :: join (tok' :: toks) := by
  simp [join]

/-- A line is not blank if it starts with a token. -/
theorem Token.not_isspace {tok : List Char} (h : Token tok) (toks : List (List Char))
    (rest : List Char) : isspace (join (tok :: toks) ++ rest) = false := by
  obtain ⟨c, tok, rfl⟩ := List.exists_cons_of_ne_nil h.ne_nil
  have hc := h.solid c List.mem_cons_self
  cases toks with
  | nil => simp [isspace, join_singleton, hc]
  | cons tok' toks => simp [isspace, join_cons_cons, hc]

/-- The tokens of a line are what was joined. -/
theorem split_join {toks : List (List Char)} (h : ∀ tok ∈ toks, Token tok) (hne : toks ≠ []) :
    split (join toks ++ ['\n']) = toks := by
  induction toks with
  | nil => exact absurd rfl hne
  | cons tok toks ih =>
    obtain ⟨htok, hrest⟩ := List.forall_mem_cons.mp h
    cases toks with
    | nil => rw [join_singleton, htok.split_append (by decide), split_nil]
    | cons tok' toks =>
      rw [join_cons_cons, List.append_assoc, List.cons_append, htok.split_append (by decide),
        ih hrest (List.cons_ne_nil _ _)]

theorem line_join {toks : List (List Char)} (h : ∀ tok ∈ toks, Token tok) :
    Line (join toks ++ ['\n']) := by
  refine ⟨_, fun hmem => ?_, rfl⟩
  induction toks with
  | nil => simp [join] at hmem
  | cons tok toks ih =>
    obtain ⟨htok, hrest⟩ := List.forall_mem_cons.mp h
    have hnot : '\n' ∉ tok := fun hin => absurd (htok.solid _ hin) (by decide)
    cases toks with
    | nil =>
      rw [join_singleton] at hmem
      exact hnot hmem
    | cons tok' toks =>
      rw [join_cons_cons, List.mem_append, List.mem_cons] at hmem
      rcases hmem with hmem | hmem | hmem
      · exact hnot hmem
      · exact absurd hmem (by decide)
      · exact ih hrest hmem

/-! ### Quoting -/

def apostrophe : Char := Char.ofNat 0x27

def reprChar (quote c : Char) : List Char :=
  if c = quote ∨ c = '\\' then ['\\', c]
  else if c = '\t' then ['\\', 't']
  else if c = '\n' then ['\\', 'n']
  else if c = '\r' then ['\\', 'r']
  else if c.toNat < 0x20 ∨ c.toNat = 0x7f then
    ['\\', 'x', (c.toNat / 16).digitChar, (c.toNat % 16).digitChar]
  else [c]

/-- `repr(s)`. -/
def repr (s : List Char) : String :=
  let quote := if apostrophe ∈ s ∧ '"' ∉ s then '"' else apostrophe
  String.ofList (quote :: s.flatMap (reprChar quote) ++ [quote])

/-! ### Hexadecimal numerals -/

/-- The value of a digit of either case. -/
def hexDigit (c : Char) : Option ℕ :=
  if 0x30 ≤ c.toNat ∧ c.toNat ≤ 0x39 then some (c.toNat - 0x30)
  else if 0x61 ≤ c.toNat ∧ c.toNat ≤ 0x66 then some (c.toNat - 0x61 + 10)
  else if 0x41 ≤ c.toNat ∧ c.toNat ≤ 0x46 then some (c.toNat - 0x41 + 10)
  else none

/-- The digits after those of value `v`, with single underscores before them. -/
def hexFrom (v : ℕ) : List Char → Option ℕ
  | [] => some v
  | '_' :: c :: s => do hexFrom (16 * v + (← hexDigit c)) s
  | c :: s => do hexFrom (16 * v + (← hexDigit c)) s

/-- A numeral behind its sign and prefix. -/
def hexNumeral : List Char → Option ℕ
  | [] => none
  | c :: s => do hexFrom (← hexDigit c) s

/-- What stands behind a prefix, if there is one. -/
def dropBase : List Char → List Char
  | '0' :: x :: s =>
    if x = 'x' ∨ x = 'X' then
      match s with
      | '_' :: s => s
      | s => s
    else '0' :: x :: s
  | s => s

/-- `int(s, 16)` of a string without white space. -/
def int16 : List Char → Option ℤ
  | '+' :: s => (hexNumeral (dropBase s)).map fun (n : ℕ) => (n : ℤ)
  | '-' :: s => (hexNumeral (dropBase s)).map fun (n : ℕ) => -(n : ℤ)
  | s => (hexNumeral (dropBase s)).map fun (n : ℕ) => (n : ℤ)

/-- The digits of a number, in upper case. -/
def hexDigits (n : ℕ) : List Char := (Nat.toDigits 16 n).map Char.toUpper

/-- `f'{n:0{width}X}'`. -/
def formatX (width n : ℕ) : List Char :=
  List.replicate (width - (hexDigits n).length) '0' ++ hexDigits n

def IsHex (s : List Char) : Prop := ∀ c ∈ s, (hexDigit c).isSome

/-- The value of digits behind those of value `v`. -/
def valueFrom (v : ℕ) (s : List Char) : ℕ := s.foldl (fun v c => 16 * v + (hexDigit c).getD 0) v

theorem valueFrom_append (v : ℕ) (s s' : List Char) :
    valueFrom v (s ++ s') = valueFrom (valueFrom v s) s' := List.foldl_append

/-- Digits behind a value shift it to the left. -/
theorem valueFrom_eq (v : ℕ) (s : List Char) :
    valueFrom v s = v * 16 ^ s.length + valueFrom 0 s := by
  induction s generalizing v with
  | nil => simp [valueFrom]
  | cons c s ih =>
    change valueFrom (16 * v + (hexDigit c).getD 0) s =
      v * 16 ^ (s.length + 1) + valueFrom (16 * 0 + (hexDigit c).getD 0) s
    rw [ih, ih (16 * 0 + _), Nat.mul_zero, Nat.zero_add, Nat.add_mul, Nat.pow_succ',
      ← Nat.add_assoc, ← Nat.mul_assoc, Nat.mul_comm v 16]

theorem hexDigit_of_isHex {c : Char} {s : List Char} (h : IsHex (c :: s)) :
    ∃ d, hexDigit c = some d ∧ IsHex s := by
  obtain ⟨hc, hs⟩ := List.forall_mem_cons.mp h
  obtain ⟨d, hd⟩ := Option.isSome_iff_exists.mp hc
  exact ⟨d, hd, hs⟩

theorem hexDigit_of_isDigit {c : Char} (h : c.isDigit = true) : (hexDigit c).isSome := by
  have hle : 0x30 ≤ c.toNat ∧ c.toNat ≤ 0x39 := Char.isDigit_iff_toNat.mp h
  rw [hexDigit, if_pos hle]
  rfl

theorem hexDigit_lt {c : Char} {d : ℕ} (h : hexDigit c = some d) : d < 16 := by
  unfold hexDigit at h
  split_ifs at h <;> cases h <;> omega

theorem valueFrom_lt {s : List Char} (h : IsHex s) : valueFrom 0 s < 16 ^ s.length := by
  induction s with
  | nil => exact Nat.one_pos
  | cons c s ih =>
    obtain ⟨d, hd, hs⟩ := hexDigit_of_isHex h
    have hlt := hexDigit_lt hd
    change valueFrom (16 * 0 + (hexDigit c).getD 0) s < 16 ^ (s.length + 1)
    rw [valueFrom_eq, hd, Option.getD_some, Nat.mul_zero, Nat.zero_add]
    calc d * 16 ^ s.length + valueFrom 0 s < (d + 1) * 16 ^ s.length := by
          rw [Nat.succ_mul]
          exact Nat.add_lt_add_left (ih hs) _
      _ ≤ 16 ^ (s.length + 1) := by
          rw [Nat.pow_succ']
          exact Nat.mul_le_mul_right _ hlt

/-- A digit is none of the characters that mean something else. -/
theorem ne_of_hexDigit {c : Char} {d : ℕ} (h : hexDigit c = some d) {c' : Char}
    (h' : hexDigit c' = none) : c ≠ c' := by
  rintro rfl
  rw [h] at h'
  cases h'

theorem hexFrom_eq {v : ℕ} {s : List Char} (h : IsHex s) : hexFrom v s = some (valueFrom v s) := by
  induction s generalizing v with
  | nil => rfl
  | cons c s ih =>
    obtain ⟨d, hd, hs⟩ := hexDigit_of_isHex h
    have hc : c ≠ '_' := ne_of_hexDigit hd (by decide)
    rw [hexFrom, hd]
    · change hexFrom (16 * v + d) s = _
      rw [ih hs, valueFrom, valueFrom, List.foldl_cons, hd, Option.getD_some]
    · intro _ _ heq _
      exact absurd heq hc

theorem hexNumeral_eq {s : List Char} (h : IsHex s) (hne : s ≠ []) :
    hexNumeral s = some (valueFrom 0 s) := by
  cases s with
  | nil => exact absurd rfl hne
  | cons c s =>
    obtain ⟨d, hd, hs⟩ := hexDigit_of_isHex h
    rw [hexNumeral, hd]
    change hexFrom d s = _
    rw [hexFrom_eq hs, valueFrom, valueFrom, List.foldl_cons, hd, Option.getD_some, Nat.mul_zero,
      Nat.zero_add]

/-- Digits have no prefix. -/
theorem dropBase_eq {s : List Char} (h : IsHex s) : dropBase s = s := by
  unfold dropBase
  split
  next x s =>
    obtain ⟨-, -, hx⟩ := hexDigit_of_isHex h
    obtain ⟨d, hd, -⟩ := hexDigit_of_isHex hx
    rw [if_neg (not_or.mpr ⟨ne_of_hexDigit hd (by decide), ne_of_hexDigit hd (by decide)⟩)]
  next => rfl

/-- `int` of digits. -/
theorem int16_eq {s : List Char} (h : IsHex s) (hne : s ≠ []) :
    int16 s = some (valueFrom 0 s : ℤ) := by
  unfold int16
  split
  next s =>
    obtain ⟨d, hd, -⟩ := hexDigit_of_isHex h
    exact absurd rfl (ne_of_hexDigit hd (by decide : hexDigit '+' = none))
  next s =>
    obtain ⟨d, hd, -⟩ := hexDigit_of_isHex h
    exact absurd rfl (ne_of_hexDigit hd (by decide : hexDigit '-' = none))
  next => rw [dropBase_eq h, hexNumeral_eq h hne, Option.map_some]

/-- A digit is no white space. -/
theorem solid_of_hexDigit {c : Char} {d : ℕ} (h : hexDigit c = some d) :
    isspaceChar c = false := by
  have hne : c ≠ ' ' := ne_of_hexDigit h (by decide)
  unfold hexDigit at h
  simp only [isspaceChar, hne, false_or, decide_eq_false_iff_not]
  split_ifs at h <;> omega

/-! ### Reading what was written -/

theorem hexDigit_digitChar : ∀ d < 16, hexDigit d.digitChar = some d := by
  decide

theorem hexDigit_digitChar_toUpper : ∀ d < 16, hexDigit d.digitChar.toUpper = some d := by
  decide

section ToDigits

variable {f : Char → Char} (hf : ∀ d < 16, hexDigit (f d.digitChar) = some d) (n : ℕ)

include hf

/-- Numerals in the case that `f` chooses. -/
theorem isHex_map_toDigits : IsHex ((Nat.toDigits 16 n).map f) := by
  induction n using Nat.strongRecOn with
  | ind n ih =>
    rcases Nat.lt_or_ge n 16 with h | h
    · rw [Nat.toDigits_of_lt_base h]
      simp [IsHex, hf n h]
    · rw [Nat.toDigits_of_base_le (by decide) h, List.map_append]
      refine List.forall_mem_append.mpr ⟨ih (n / 16) (by omega), ?_⟩
      simp [hf _ (Nat.mod_lt n (by decide))]

theorem valueFrom_map_toDigits : valueFrom 0 ((Nat.toDigits 16 n).map f) = n := by
  induction n using Nat.strongRecOn with
  | ind n ih =>
    rcases Nat.lt_or_ge n 16 with h | h
    · rw [Nat.toDigits_of_lt_base h, List.map_singleton, valueFrom, List.foldl_cons,
        List.foldl_nil, hf n h, Option.getD_some, Nat.mul_zero, Nat.zero_add]
    · rw [Nat.toDigits_of_base_le (by decide) h, List.map_append, valueFrom_append,
        ih (n / 16) (by omega), List.map_singleton, valueFrom, List.foldl_cons, List.foldl_nil,
        hf _ (Nat.mod_lt n (by decide)), Option.getD_some]
      omega

end ToDigits

theorem hexDigits_ne_nil (n : ℕ) : hexDigits n ≠ [] := by
  simp [hexDigits]

theorem isHex_hexDigits (n : ℕ) : IsHex (hexDigits n) :=
  isHex_map_toDigits hexDigit_digitChar_toUpper n

theorem valueFrom_hexDigits (n : ℕ) : valueFrom 0 (hexDigits n) = n :=
  valueFrom_map_toDigits hexDigit_digitChar_toUpper n

variable (width n : ℕ)

theorem isHex_formatX : IsHex (formatX width n) := by
  refine List.forall_mem_append.mpr ⟨fun c hc => ?_, isHex_hexDigits n⟩
  rw [List.eq_of_mem_replicate hc]
  rfl

theorem formatX_ne_nil : formatX width n ≠ [] := by
  simp [formatX, hexDigits_ne_nil]

theorem token_formatX : Token (formatX width n) where
  ne_nil := formatX_ne_nil width n
  solid c hc := by
    obtain ⟨d, hd⟩ := Option.isSome_iff_exists.mp (isHex_formatX width n c hc)
    exact solid_of_hexDigit hd

theorem valueFrom_formatX : valueFrom 0 (formatX width n) = n := by
  have hzeros : ∀ k, valueFrom 0 (List.replicate k '0') = 0 := by
    intro k
    induction k with
    | zero => rfl
    | succ k ih => exact ih
  rw [formatX, valueFrom_append, hzeros, valueFrom_hexDigits]

/-- `int` reads the number that was written, whatever the width it was padded to. -/
theorem int16_formatX : int16 (formatX width n) = some (n : ℤ) := by
  rw [int16_eq (isHex_formatX width n) (formatX_ne_nil width n), valueFrom_formatX]

end PyStr
