import Mathlib.Data.List.Basic

/-! The grammar of JSON texts. -/

namespace Json

def Space (s : List Char) : Prop := ∀ c ∈ s, c ∈ [' ', '\t', '\n', '\r']

def IsHex (c : Char) : Prop :=
  '0' ≤ c ∧ c ≤ '9' ∨ 'a' ≤ c ∧ c ≤ 'f' ∨ 'A' ≤ c ∧ c ≤ 'F'

/-- What stands between the quotes of a string. -/
inductive Body : List Char → Prop
  | nil : Body []
  | plain {c : Char} {s : List Char} (hspace : ' ' ≤ c) (hquote : c ≠ '"') (hslash : c ≠ '\\')
      (hs : Body s) : Body (c :: s)
  | escape {c : Char} {s : List Char} (hc : c ∈ ['"', '\\', '/', 'b', 'f', 'n', 'r', 't'])
      (hs : Body s) : Body ('\\' :: c :: s)
  | unicode {a b c d : Char} {s : List Char} (ha : IsHex a) (hb : IsHex b) (hc : IsHex c)
      (hd : IsHex d) (hs : Body s) : Body ('\\' :: 'u' :: a :: b :: c :: d :: s)

def Quoted (s : List Char) : Prop := ∃ body, Body body ∧ s = '"' :: (body ++ ['"'])

def Digits (s : List Char) : Prop := s ≠ [] ∧ ∀ c ∈ s, '0' ≤ c ∧ c ≤ '9'

/-- Digits without a leading zero. -/
def Whole (s : List Char) : Prop := Digits s ∧ (s.head? = some '0' → s = ['0'])

def Fraction (s : List Char) : Prop := s = [] ∨ ∃ digits, Digits digits ∧ s = '.' :: digits

def Exponent (s : List Char) : Prop :=
  s = [] ∨ ∃ e sign digits, e ∈ ['e', 'E'] ∧ sign ∈ [[], ['+'], ['-']] ∧ Digits digits ∧
    s = e :: (sign ++ digits)

def Number (s : List Char) : Prop :=
  ∃ sign whole fraction exponent, sign ∈ [[], ['-']] ∧ Whole whole ∧ Fraction fraction ∧
    Exponent exponent ∧ s = sign ++ (whole ++ (fraction ++ exponent))

mutual

inductive Value : List Char → Prop
  | literal {s : List Char} (hs : s ∈ ["true", "false", "null"].map String.toList) : Value s
  | number {s : List Char} (hs : Number s) : Value s
  | string {s : List Char} (hs : Quoted s) : Value s
  | emptyArray {w : List Char} (hw : Space w) : Value ('[' :: (w ++ [']']))
  | array {s : List Char} (hs : Elements s) : Value ('[' :: (s ++ [']']))
  | emptyObject {w : List Char} (hw : Space w) : Value ('{' :: (w ++ ['}']))
  | object {s : List Char} (hs : Members s) : Value ('{' :: (s ++ ['}']))

inductive Elements : List Char → Prop
  | one {w v w' : List Char} (hw : Space w) (hv : Value v) (hw' : Space w') :
      Elements (w ++ (v ++ w'))
  | more {w v w' s : List Char} (hw : Space w) (hv : Value v) (hw' : Space w') (hs : Elements s) :
      Elements (w ++ (v ++ (w' ++ ',' :: s)))

inductive Members : List Char → Prop
  | one {w key w' u v u' : List Char} (hw : Space w) (hkey : Quoted key) (hw' : Space w')
      (hu : Space u) (hv : Value v) (hu' : Space u') :
      Members (w ++ (key ++ (w' ++ ':' :: (u ++ (v ++ u')))))
  | more {w key w' u v u' s : List Char} (hw : Space w) (hkey : Quoted key) (hw' : Space w')
      (hu : Space u) (hv : Value v) (hu' : Space u') (hs : Members s) :
      Members (w ++ (key ++ (w' ++ ':' :: (u ++ (v ++ (u' ++ ',' :: s))))))

end

def Text (s : List Char) : Prop :=
  ∃ w v w', Space w ∧ Value v ∧ Space w' ∧ s = w ++ (v ++ w')

/-! ### Without spaces -/

variable {s t v key : List Char}

theorem space_nil : Space [] := fun _ h => absurd h List.not_mem_nil

theorem Value.text (h : Value v) : Text v :=
  ⟨[], v, [], space_nil, h, space_nil, (List.append_nil v).symm⟩

theorem Value.element (h : Value v) : Elements v := by
  simpa using Elements.one space_nil h space_nil

theorem Value.cons (h : Value v) (hs : Elements s) : Elements (v ++ ',' :: s) := by
  simpa using Elements.more space_nil h space_nil hs

theorem Quoted.member (hkey : Quoted key) (h : Value v) : Members (key ++ ':' :: v) := by
  simpa using Members.one space_nil hkey space_nil space_nil h space_nil

theorem Body.of_plain (h : ∀ c ∈ s, ' ' ≤ c ∧ c ≠ '"' ∧ c ≠ '\\') : Body s := by
  induction s with
  | nil => exact .nil
  | cons c s ih =>
    obtain ⟨⟨hspace, hquote, hslash⟩, hs⟩ := List.forall_mem_cons.1 h
    exact .plain hspace hquote hslash (ih hs)

theorem Whole.number (h : Whole s) : Number s :=
  ⟨[], s, [], [], by simp, h, .inl rfl, .inl rfl, by simp⟩

end Json
