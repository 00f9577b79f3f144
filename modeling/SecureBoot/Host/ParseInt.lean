import SecureBoot.Lib.Rust

/-! The parser of integers in any of the usual bases. The sign and the prefix are taken off first,
and what is left goes to `from_str_radix`, which takes a sign of its own. -/

namespace SecureBoot

open RustInt

/-- The string behind a sign, and whether the sign is a minus. -/
def splitSign (src : List Char) : List Char × Bool :=
  match src with
  | '-' :: val => (val, true)
  | '+' :: val => (val, false)
  | _ => (src, false)

/-- The radix that a prefix announces, and the digits behind it. -/
def splitRadix (val : List Char) : ℕ × List Char :=
  match val with
  | '0' :: 'x' :: digits => (16, digits)
  | '0' :: 'X' :: digits => (16, digits)
  | '0' :: 'o' :: digits => (8, digits)
  | '0' :: 'O' :: digits => (8, digits)
  | '0' :: 'b' :: digits => (2, digits)
  | '0' :: 'B' :: digits => (2, digits)
  | '0' :: _ => (8, val)
  | _ => (10, val)

/-- `ParseInt::from_str`, on the characters of the string. -/
def parseIntFromChars (ty : MachineInt) (src : List Char) : Except IntErrorKind ℤ :=
  let (val, negative) := splitSign src
  let (radix, digits) := splitRadix val
  if negative then fromStrRadix ty ('-' :: digits) radix else fromStrRadix ty digits radix

/-- `ParseInt::from_str`. -/
def parseIntFromStr (ty : MachineInt) (src : String) : Except IntErrorKind ℤ :=
  parseIntFromChars ty src.toList

/-! ### The grammar -/

/-- A string behind a prefix, with the radix of the prefix. -/
inductive Prefixed : List Char → ℕ → List Char → Prop
  | hex {x digits} (hx : x = 'x' ∨ x = 'X') : Prefixed ('0' :: x :: digits) 16 digits
  | octal {o digits} (ho : o = 'o' ∨ o = 'O') : Prefixed ('0' :: o :: digits) 8 digits
  | binary {b digits} (hb : b = 'b' ∨ b = 'B') : Prefixed ('0' :: b :: digits) 2 digits

/-- A numeral without a sign: with a prefix, in the classic octal notation, or decimal. -/
inductive UnsignedNumeral : List Char → ℕ → Prop
  | prefixed {src radix digits n} (hp : Prefixed src radix digits)
      (h : IsNumeral radix digits n) : UnsignedNumeral src n
  | classic {digits n} (h : IsNumeral 8 ('0' :: digits) n) : UnsignedNumeral ('0' :: digits) n
  | decimal {c digits n} (hc : c ≠ '0') (h : IsNumeral 10 (c :: digits) n) :
      UnsignedNumeral (c :: digits) n

/-- A numeral of a type, with at most one sign in front of it. -/
inductive IntNumeral (ty : MachineInt) : List Char → ℤ → Prop
  | plain {src n} (h : UnsignedNumeral src n) (hv : ty.Holds n) : IntNumeral ty src n
  | plus {src n} (h : UnsignedNumeral src n) (hv : ty.Holds n) : IntNumeral ty ('+' :: src) n
  | minus {src n} (hs : ty.signed = true) (h : UnsignedNumeral src n) (hv : ty.Holds (-n)) :
      IntNumeral ty ('-' :: src) (-n)

/-- A sign that the library takes where none belongs: behind a prefix, or behind a plus. -/
inductive ExtraSign (ty : MachineInt) : List Char → ℤ → Prop
  | inner {src radix sign digits v} (hs : sign = '+' ∨ sign = '-')
      (hp : Prefixed src radix (sign :: digits))
      (h : SignedNumeral ty radix (sign :: digits) v) : ExtraSign ty src v
  | plusInner {src radix sign digits v} (hs : sign = '+' ∨ sign = '-')
      (hp : Prefixed src radix (sign :: digits))
      (h : SignedNumeral ty radix (sign :: digits) v) : ExtraSign ty ('+' :: src) v
  | plusSign {sign digits v} (hs : sign = '+' ∨ sign = '-')
      (h : SignedNumeral ty 10 (sign :: digits) v) : ExtraSign ty ('+' :: sign :: digits) v

variable {ty : MachineInt} {src digits : List Char} {radix n : ℕ} {v : ℤ}

theorem Prefixed.splitRadix_eq (h : Prefixed src radix digits) :
    splitRadix src = (radix, digits) := by
  cases h with
  | hex hx => obtain rfl | rfl := hx <;> rfl
  | octal ho => obtain rfl | rfl := ho <;> rfl
  | binary hb => obtain rfl | rfl := hb <;> rfl

theorem Prefixed.radix_pos (h : Prefixed src radix digits) : 0 < radix := by
  cases h <;> decide

/-- The three shapes of what stands behind the sign. -/
theorem splitRadix_cases (src : List Char) :
    (∃ radix digits, Prefixed src radix digits) ∨
      (∃ digits, src = '0' :: digits ∧ splitRadix src = (8, src)) ∨
        (∀ digits, src ≠ '0' :: digits) ∧ splitRadix src = (10, src) := by
  unfold splitRadix
  split
  · exact .inl ⟨_, _, .hex (.inl rfl)⟩
  · exact .inl ⟨_, _, .hex (.inr rfl)⟩
  · exact .inl ⟨_, _, .octal (.inl rfl)⟩
  · exact .inl ⟨_, _, .octal (.inr rfl)⟩
  · exact .inl ⟨_, _, .binary (.inl rfl)⟩
  · exact .inl ⟨_, _, .binary (.inr rfl)⟩
  · exact .inr (.inl ⟨_, rfl, rfl⟩)
  · next h => exact .inr (.inr ⟨fun digits hd => h digits hd, rfl⟩)

theorem splitRadix_radix_pos (src : List Char) : 0 < (splitRadix src).1 := by
  obtain ⟨radix, digits, h⟩ | ⟨digits, -, h⟩ | ⟨-, h⟩ := splitRadix_cases src
  · rw [h.splitRadix_eq]
    exact h.radix_pos
  · rw [h]
    exact Nat.succ_pos 7
  · rw [h]
    exact Nat.succ_pos 9

/-- The letter of a prefix is not an octal digit. -/
theorem Prefixed.not_classic (h : Prefixed src radix digits) : ¬ IsNumeral 8 src n := by
  have hnone : ∃ c ∈ src, toDigit 8 c = none := by
    have hletter : ∀ {c : Char} {rest : List Char}, c ∈ '0' :: c :: rest :=
      List.mem_cons_of_mem _ List.mem_cons_self
    cases h with
    | hex hx => obtain rfl | rfl := hx <;> exact ⟨_, hletter, rfl⟩
    | octal ho => obtain rfl | rfl := ho <;> exact ⟨_, hletter, rfl⟩
    | binary hb => obtain rfl | rfl := hb <;> exact ⟨_, hletter, rfl⟩
  rintro ⟨-, xs, hxs, -⟩
  obtain ⟨c, hc, hdigit⟩ := hnone
  have hmem : none ∈ xs.map some := hxs ▸ hdigit ▸ List.mem_map_of_mem hc
  simp at hmem

theorem unsignedNumeral_iff :
    UnsignedNumeral src n ↔ IsNumeral (splitRadix src).1 (splitRadix src).2 n := by
  constructor
  · intro h
    cases h with
    | prefixed hp h => rwa [hp.splitRadix_eq]
    | @classic digits _ h =>
      obtain ⟨radix, rest, hp⟩ | ⟨-, -, hs⟩ | ⟨hne, -⟩ := splitRadix_cases ('0' :: digits)
      · exact absurd h hp.not_classic
      · rwa [hs]
      · exact absurd rfl (hne digits)
    | @decimal c digits _ hc h =>
      obtain ⟨radix, rest, hp⟩ | ⟨rest, heq, -⟩ | ⟨-, hs⟩ := splitRadix_cases (c :: digits)
      · cases hp <;> exact absurd rfl hc
      · exact absurd (List.cons.inj heq).1 hc
      · rwa [hs]
  · intro h
    obtain ⟨radix, digits, hp⟩ | ⟨digits, rfl, hs⟩ | ⟨hne, hs⟩ := splitRadix_cases src
    · rw [hp.splitRadix_eq] at h
      exact .prefixed hp h
    · rw [hs] at h
      exact .classic h
    · rw [hs] at h
      obtain _ | ⟨c, digits⟩ := src
      · exact absurd rfl h.1
      · exact .decimal (fun hc => hne digits (hc ▸ rfl)) h

/-- A string without a sign in front goes to the library as it is, which takes a sign behind the
prefix. -/
theorem fromStrRadix_splitRadix_iff :
    fromStrRadix ty (splitRadix src).2 (splitRadix src).1 = .ok v ↔
      (∃ n : ℕ, UnsignedNumeral src n ∧ v = n ∧ ty.Holds v) ∨
        ∃ sign digits, (sign = '+' ∨ sign = '-') ∧ (splitRadix src).2 = sign :: digits ∧
          SignedNumeral ty (splitRadix src).1 (sign :: digits) v := by
  rw [fromStrRadix_eq_ok_iff (splitRadix_radix_pos src)]
  constructor
  · intro h
    generalize hd : (splitRadix src).2 = digits at h
    cases h with
    | plain h hv => exact .inl ⟨_, unsignedNumeral_iff.2 (hd ▸ h), rfl, hv⟩
    | plus h hv => exact .inr ⟨_, _, .inl rfl, rfl, .plus h hv⟩
    | minus hs h hv => exact .inr ⟨_, _, .inr rfl, rfl, .minus hs h hv⟩
  · rintro (⟨n, h, rfl, hv⟩ | ⟨sign, digits, -, hd, h⟩)
    · exact .plain (unsignedNumeral_iff.1 h) hv
    · rwa [hd]

/-- A string whose digits begin with a sign has a prefix, or begins with the sign. -/
theorem splitRadix_sign {sign : Char} (hs : sign = '+' ∨ sign = '-')
    (h : (splitRadix src).2 = sign :: digits) :
    Prefixed src (splitRadix src).1 (sign :: digits) ∨
      src = sign :: digits ∧ (splitRadix src).1 = 10 := by
  obtain ⟨radix, rest, hp⟩ | ⟨rest, rfl, hsplit⟩ | ⟨-, hsplit⟩ := splitRadix_cases src
  · rw [hp.splitRadix_eq] at h ⊢
    obtain rfl : rest = sign :: digits := h
    exact .inl hp
  · rw [hsplit] at h
    obtain rfl | rfl := hs <;> exact absurd (List.cons.inj h).1 (by decide)
  · rw [hsplit] at h ⊢
    exact .inr ⟨h, rfl⟩

/-- What is read without a sign in front: a numeral, or digits with a sign of their own. -/
theorem fromStrRadix_splitRadix_cases :
    fromStrRadix ty (splitRadix src).2 (splitRadix src).1 = .ok v ↔
      (∃ n : ℕ, UnsignedNumeral src n ∧ v = n ∧ ty.Holds v) ∨
        ∃ sign digits, (sign = '+' ∨ sign = '-') ∧
          ((∃ radix, Prefixed src radix (sign :: digits) ∧
              SignedNumeral ty radix (sign :: digits) v) ∨
            src = sign :: digits ∧ SignedNumeral ty 10 (sign :: digits) v) := by
  rw [fromStrRadix_splitRadix_iff]
  refine or_congr_right (exists_congr fun sign => exists_congr fun digits =>
    and_congr_right fun hs => ?_)
  constructor
  · rintro ⟨hd, h⟩
    obtain hp | ⟨rfl, hradix⟩ := splitRadix_sign hs hd
    · exact .inl ⟨_, hp, h⟩
    · rw [hradix] at h
      exact .inr ⟨rfl, h⟩
  · rintro (⟨radix, hp, h⟩ | ⟨rfl, h⟩)
    · rw [hp.splitRadix_eq]
      exact ⟨rfl, h⟩
    · obtain rfl | rfl := hs <;> exact ⟨rfl, h⟩

theorem not_unsignedNumeral_of_sign {c : Char} (hc : c = '+' ∨ c = '-') (digits : List Char) :
    ¬ UnsignedNumeral (c :: digits) n := by
  intro h
  cases h with
  | prefixed hp h => cases hp <;> obtain hc | hc := hc <;> exact absurd hc (by decide)
  | classic h => obtain hc | hc := hc <;> exact absurd hc (by decide)
  | decimal hne h => exact not_isNumeral_of_sign hc _ h

theorem Prefixed.head_eq {c : Char} (h : Prefixed (c :: src) radix digits) : c = '0' := by
  cases h <;> rfl

theorem parseIntFromChars_minus (ty : MachineInt) (val : List Char) :
    parseIntFromChars ty ('-' :: val) =
      fromStrRadix ty ('-' :: (splitRadix val).2) (splitRadix val).1 := rfl

theorem parseIntFromChars_plus (ty : MachineInt) (val : List Char) :
    parseIntFromChars ty ('+' :: val) =
      fromStrRadix ty (splitRadix val).2 (splitRadix val).1 := rfl

theorem parseIntFromChars_plain (ty : MachineInt) (hminus : ∀ val, src ≠ '-' :: val)
    (hplus : ∀ val, src ≠ '+' :: val) :
    parseIntFromChars ty src = fromStrRadix ty (splitRadix src).2 (splitRadix src).1 := by
  have hsign : splitSign src = (src, false) := by
    unfold splitSign
    split
    · exact absurd rfl (hminus _)
    · exact absurd rfl (hplus _)
    · rfl
  unfold parseIntFromChars
  rw [hsign]
  rfl

/-- What the parser reads: the numerals of the grammar, and those with a sign too many. -/
theorem parseIntFromChars_iff :
    parseIntFromChars ty src = .ok v ↔ IntNumeral ty src v ∨ ExtraSign ty src v := by
  by_cases hminus : ∃ val, src = '-' :: val
  · obtain ⟨val, rfl⟩ := hminus
    rw [parseIntFromChars_minus, fromStrRadix_eq_ok_iff (splitRadix_radix_pos val),
      signedNumeral_minus_iff]
    constructor
    · rintro ⟨hs, n, h, rfl, hv⟩
      exact .inl (.minus hs (unsignedNumeral_iff.2 h) hv)
    · rintro (h | h)
      · cases h with
        | plain h hv => exact absurd h (not_unsignedNumeral_of_sign (.inr rfl) _)
        | minus hs h hv => exact ⟨hs, _, unsignedNumeral_iff.1 h, rfl, hv⟩
      · cases h with
        | inner hs hp h => exact absurd hp.head_eq (by decide)
  by_cases hplus : ∃ val, src = '+' :: val
  · obtain ⟨val, rfl⟩ := hplus
    rw [parseIntFromChars_plus, fromStrRadix_splitRadix_cases]
    constructor
    · rintro (⟨n, h, rfl, hv⟩ | ⟨sign, digits, hs, ⟨radix, hp, h⟩ | ⟨rfl, h⟩⟩)
      · exact .inl (.plus h hv)
      · exact .inr (.plusInner hs hp h)
      · exact .inr (.plusSign hs h)
    · rintro (h | h)
      · cases h with
        | plain h hv => exact absurd h (not_unsignedNumeral_of_sign (.inl rfl) _)
        | plus h hv => exact .inl ⟨_, h, rfl, hv⟩
      · cases h with
        | inner hs hp h => exact absurd hp.head_eq (by decide)
        | plusInner hs hp h => exact .inr ⟨_, _, hs, .inl ⟨_, hp, h⟩⟩
        | plusSign hs h => exact .inr ⟨_, _, hs, .inr ⟨rfl, h⟩⟩
  · rw [parseIntFromChars_plain ty (fun val h => hminus ⟨val, h⟩) fun val h => hplus ⟨val, h⟩,
      fromStrRadix_splitRadix_cases]
    constructor
    · rintro (⟨n, h, rfl, hv⟩ | ⟨sign, digits, hs, ⟨radix, hp, h⟩ | ⟨rfl, h⟩⟩)
      · exact .inl (.plain h hv)
      · exact .inr (.inner hs hp h)
      · obtain rfl | rfl := hs
        · exact absurd ⟨digits, rfl⟩ hplus
        · exact absurd ⟨digits, rfl⟩ hminus
    · rintro (h | h)
      · cases h with
        | plain h hv => exact .inl ⟨_, h, rfl, hv⟩
        | plus h hv => exact absurd ⟨_, rfl⟩ hplus
        | minus hs h hv => exact absurd ⟨_, rfl⟩ hminus
      · cases h with
        | inner hs hp h => exact .inr ⟨_, _, hs, .inl ⟨_, hp, h⟩⟩
        | plusInner hs hp h => exact absurd ⟨_, rfl⟩ hplus
        | plusSign hs h => exact absurd ⟨_, rfl⟩ hplus

/-- A string with a sign too many is no numeral. -/
theorem ExtraSign.not_intNumeral {u : ℤ} (h : ExtraSign ty src v) : ¬ IntNumeral ty src u := by
  have hprefixed : ∀ {src radix sign digits n}, (sign = '+' ∨ sign = '-') →
      Prefixed src radix (sign :: digits) → ¬ UnsignedNumeral src n := by
    intro src radix sign digits n hs hp h
    rw [unsignedNumeral_iff, hp.splitRadix_eq] at h
    exact not_isNumeral_of_sign hs _ h
  intro hn
  cases h with
  | inner hs hp h =>
    cases hn with
    | plain hn hv => exact hprefixed hs hp hn
    | plus hn hv => exact absurd hp.head_eq (by decide)
    | minus hsigned hn hv => exact absurd hp.head_eq (by decide)
  | plusInner hs hp h =>
    cases hn with
    | plain hn hv => exact not_unsignedNumeral_of_sign (.inl rfl) _ hn
    | plus hn hv => exact hprefixed hs hp hn
  | plusSign hs h =>
    cases hn with
    | plain hn hv => exact not_unsignedNumeral_of_sign (.inl rfl) _ hn
    | plus hn hv => exact not_unsignedNumeral_of_sign hs _ hn

/-- The parser accepts exactly its grammar, and reads its values, for the strings that have no sign
behind a prefix or behind a plus. -/
theorem parse_int_accepts_grammar_iff (ty : MachineInt) (src : String) :
    (∀ v, parseIntFromStr ty src = .ok v ↔ IntNumeral ty src.toList v) ↔
      ∀ v, ¬ ExtraSign ty src.toList v := by
  constructor
  · intro h v hextra
    exact hextra.not_intNumeral ((h v).1 (parseIntFromChars_iff.2 (.inr hextra)))
  · intro h v
    exact parseIntFromChars_iff.trans (or_iff_left (h v))

def u8 : MachineInt := ⟨false, 8, le_rfl⟩

/-- `"0x+5"` is read as 5. -/
theorem parse_int_takes_sign_after_prefix :
    parseIntFromStr u8 "0x+5" = .ok 5 ∧ ∀ v, ¬ IntNumeral u8 "0x+5".toList v := by
  have hchars : "0x+5".toList = ['0', 'x', '+', '5'] := by decide
  have hextra : ExtraSign u8 ['0', 'x', '+', '5'] 5 :=
    .inner (.inl rfl) (.hex (.inl rfl))
      (.plus ⟨List.cons_ne_nil _ _, [5], rfl, rfl⟩ ⟨by decide, by decide⟩)
  rw [parseIntFromStr, hchars]
  exact ⟨parseIntFromChars_iff.2 (.inr hextra), fun v => hextra.not_intNumeral⟩

/-- The most negative value, and a value that is out of range by one. -/
example : parseIntFromChars ⟨true, 8, le_rfl⟩ ['-', '0', 'x', '8', '0'] = .ok (-128) ∧
    parseIntFromChars ⟨true, 8, le_rfl⟩ ['1', '2', '8'] = .error .PosOverflow := ⟨rfl, rfl⟩

end SecureBoot
