import Mathlib.Data.Nat.Bitwise
import Mathlib.Data.Nat.Digits.Lemmas

/-! Functions of Rust that return a `Result` and may panic: arithmetic that overflows, an index or
a slice out of bounds, and `unwrap` of nothing stop them without a result. -/

namespace Rust

inductive Panic
  | arithmetic | index | slice | unwrap
  deriving DecidableEq, Repr

/-- How a function stops without a value. -/
inductive Stop (ε : Type)
  | panic (why : Panic)
  | err (e : ε)
  deriving DecidableEq, Repr

abbrev Run (ε α : Type) := Except (Stop ε) α

variable {ε α β : Type}

def stop (why : Panic) : Run ε α := .error (.panic why)

def fail (e : ε) : Run ε α := .error (.err e)

def Panics (x : Run ε α) : Prop := ∃ why, x = .error (.panic why)

/-! ### Operations -/

variable {w : ℕ}

def checkedAdd (a b : BitVec w) : Run ε (BitVec w) :=
  if a.toNat + b.toNat < 2 ^ w then pure (a + b) else stop .arithmetic

def checkedSub (a b : BitVec w) : Run ε (BitVec w) :=
  if b ≤ a then pure (a - b) else stop .arithmetic

def checkedMul (a b : BitVec w) : Run ε (BitVec w) :=
  if a.toNat * b.toNat < 2 ^ w then pure (a * b) else stop .arithmetic

def checkedRem (a b : BitVec w) : Run ε (BitVec w) :=
  if b ≠ 0 then pure (a % b) else stop .arithmetic

/-- A shift by the width or more overflows. -/
def checkedShl (a : BitVec w) (n : ℕ) : Run ε (BitVec w) :=
  if n < w then pure (a <<< n) else stop .arithmetic

def checkedShr (a : BitVec w) (n : ℕ) : Run ε (BitVec w) :=
  if n < w then pure (a >>> n) else stop .arithmetic

/-- `l[i]`. -/
def index (l : List α) (i : ℕ) : Run ε α :=
  match l[i]? with
  | some a => pure a
  | none => stop .index

/-- `l.get(start..end)`. -/
def getRange (l : List α) (start last : ℕ) : Option (List α) :=
  if start ≤ last ∧ last ≤ l.length then some ((l.drop start).take (last - start)) else none

/-- `&l[start..end]`. -/
def slice (l : List α) (start last : ℕ) : Run ε (List α) :=
  match getRange l start last with
  | some part => pure part
  | none => stop .slice

def unwrap (o : Option α) : Run ε α :=
  match o with
  | some a => pure a
  | none => stop .unwrap

/-- `ok_or`, with the question mark behind it. -/
def okOr (o : Option α) (e : ε) : Run ε α :=
  match o with
  | some a => pure a
  | none => fail e

/-! ### Panics -/

@[simp] theorem not_panics_pure (a : α) : ¬ Panics (pure a : Run ε α) := by
  rintro ⟨why, h⟩
  cases h

@[simp] theorem not_panics_ok (a : α) : ¬ Panics (.ok a : Run ε α) := not_panics_pure a

@[simp] theorem not_panics_fail (e : ε) : ¬ Panics (fail e : Run ε α) := by
  rintro ⟨why, h⟩
  cases h

@[simp] theorem panics_stop (why : Panic) : Panics (stop why : Run ε α) := ⟨why, rfl⟩

/-- A sequence panics in its first part, or in the second one. -/
theorem panics_bind_iff {x : Run ε α} {f : α → Run ε β} :
    Panics (x >>= f) ↔ Panics x ∨ ∃ a, x = .ok a ∧ Panics (f a) := by
  cases x with
  | ok a =>
    change Panics (f a) ↔ _
    simp
  | error e =>
    change Panics (.error e) ↔ _
    simp [Panics]

theorem panics_bind {x : Run ε α} (h : Panics x) (f : α → Run ε β) : Panics (x >>= f) :=
  panics_bind_iff.2 (.inl h)

theorem not_panics_bind {x : Run ε α} {f : α → Run ε β} (hx : ¬ Panics x)
    (hf : ∀ a, x = .ok a → ¬ Panics (f a)) : ¬ Panics (x >>= f) := by
  rw [panics_bind_iff, not_or]
  exact ⟨hx, fun ⟨a, ha, hpanics⟩ => hf a ha hpanics⟩

/-! ### Functions that return or panic -/

/-- `x` returns `a` under a condition, and panics without it. -/
structure Returns (c : Prop) (x : Run ε α) (a : α) : Prop where
  eq (h : c) : x = pure a
  panics (h : ¬ c) : Panics x

variable {c d : Prop} {x y : Run ε α} {f : α → Run ε β} {a : α} {b : β}

theorem Returns.of_eq (h : x = pure a) : Returns True x a := ⟨fun _ => h, fun h => absurd trivial h⟩

theorem returns_pure (a : α) : Returns True (pure a : Run ε α) a := .of_eq rfl

theorem Returns.congr (h : Returns c x a) (hcd : c ↔ d) : Returns d x a :=
  ⟨fun hd => h.eq (hcd.2 hd), fun hd => h.panics fun hc => hd (hcd.1 hc)⟩

theorem Returns.bind (hx : Returns c x a) (hf : c → Returns d (f a) b) :
    Returns (c ∧ d) (x >>= f) b where
  eq h := by rw [hx.eq h.1, pure_bind, (hf h.1).eq h.2]
  panics h := by
    by_cases hc : c
    · rw [hx.eq hc, pure_bind]
      exact (hf hc).panics fun hd => h ⟨hc, hd⟩
    · exact panics_bind (hx.panics hc) f

theorem Returns.bind_pure (hx : Returns c x a) (g : α → β) :
    Returns c (x >>= fun a => pure (g a)) (g a) :=
  (hx.bind fun _ => returns_pure (g a)).congr (and_iff_left trivial)

theorem Returns.ite {b : Bool} {u v : α} (hx : b = true → Returns c x u)
    (hy : b = false → Returns d y v) :
    Returns (if b then c else d) (if b then x else y) (if b then u else v) := by
  cases b with
  | true => exact hx rfl
  | false => exact hy rfl

theorem Returns.panics_iff (h : Returns c x a) : Panics x ↔ ¬ c := by
  refine ⟨fun hp hc => ?_, h.panics⟩
  rw [h.eq hc] at hp
  exact not_panics_pure a hp

theorem Returns.ok_iff (h : Returns c x a) {v : α} : x = .ok v ↔ c ∧ a = v := by
  by_cases hc : c
  · rw [h.eq hc]
    exact ⟨fun ha => ⟨hc, Except.ok.inj ha⟩, fun ha => congrArg Except.ok ha.2⟩
  · obtain ⟨why, hw⟩ := h.panics hc
    rw [hw]
    refine ⟨fun ha => ?_, fun ha => absurd ha.1 hc⟩
    cases ha

/-- A checked operation. -/
theorem returns_ite_stop (c : Prop) [Decidable c] (a : α) (why : Panic) :
    Returns c (if c then pure a else stop why : Run ε α) a :=
  ⟨fun h => if_pos h, fun h => (if_neg h).symm ▸ panics_stop why⟩

theorem returns_checkedAdd (a b : BitVec w) :
    Returns (a.toNat + b.toNat < 2 ^ w) (checkedAdd a b : Run ε (BitVec w)) (a + b) :=
  returns_ite_stop _ _ _

theorem returns_checkedSub (a b : BitVec w) :
    Returns (b ≤ a) (checkedSub a b : Run ε (BitVec w)) (a - b) := returns_ite_stop _ _ _

theorem returns_checkedMul (a b : BitVec w) :
    Returns (a.toNat * b.toNat < 2 ^ w) (checkedMul a b : Run ε (BitVec w)) (a * b) :=
  returns_ite_stop _ _ _

theorem returns_checkedRem (a b : BitVec w) :
    Returns (b ≠ 0) (checkedRem a b : Run ε (BitVec w)) (a % b) := returns_ite_stop _ _ _

theorem returns_checkedShl (a : BitVec w) (n : ℕ) :
    Returns (n < w) (checkedShl a n : Run ε (BitVec w)) (a <<< n) := returns_ite_stop _ _ _

theorem returns_checkedShr (a : BitVec w) (n : ℕ) :
    Returns (n < w) (checkedShr a n : Run ε (BitVec w)) (a >>> n) := returns_ite_stop _ _ _

theorem returns_index [Inhabited α] (l : List α) (i : ℕ) :
    Returns (i < l.length) (index l i : Run ε α) (l.getD i default) where
  eq h := by rw [index, List.getElem?_eq_getElem h, List.getD_eq_getElem?_getD,
      List.getElem?_eq_getElem h, Option.getD_some]
  panics h := by
    rw [index, List.getElem?_eq_none (Nat.not_lt.1 h)]
    exact panics_stop _

theorem getRange_eq {l : List α} {start last : ℕ} (hle : start ≤ last) (h : last ≤ l.length) :
    getRange l start last = some ((l.drop start).take (last - start)) := if_pos ⟨hle, h⟩

theorem getRange_eq_none {l : List α} {start last : ℕ} (h : l.length < last) :
    getRange l start last = none := if_neg fun hs => absurd hs.2 (Nat.not_le.2 h)

theorem returns_slice (l : List α) {start last : ℕ} (h : start ≤ last) :
    Returns (last ≤ l.length) (slice l start last : Run ε (List α))
      ((l.drop start).take (last - start)) where
  eq hlast := by rw [slice, getRange_eq h hlast]
  panics hlast := by
    rw [slice, getRange_eq_none (Nat.not_le.1 hlast)]
    exact panics_stop _

/-- `&l[start..]`. -/
theorem returns_slice_length (l : List α) (start : ℕ) :
    Returns (start ≤ l.length) (slice l start l.length : Run ε (List α)) (l.drop start) where
  eq h := by rw [slice, getRange_eq h (Nat.le_refl _), List.take_of_length_le (by simp)]
  panics h := by
    rw [slice, getRange, if_neg fun hs => h hs.1]
    exact panics_stop _

/-! ### Loops -/

variable {l l' : List α} {g : α → Run ε β}

theorem bind_eq_ok {x : Run ε α} {f : α → Run ε β} {b : β} :
    x >>= f = .ok b ↔ ∃ a, x = .ok a ∧ f a = .ok b := by
  cases x with
  | ok a =>
    change f a = .ok b ↔ _
    simp
  | error e =>
    change Except.error e = .ok b ↔ _
    simp

theorem mapM_eq_pure {h : α → β} (hg : ∀ a ∈ l, g a = pure (h a)) :
    l.mapM g = pure (l.map h) := by
  induction l with
  | nil => rfl
  | cons a l ih =>
    obtain ⟨ha, hl⟩ := List.forall_mem_cons.1 hg
    rw [List.mapM_cons, ha, pure_bind, ih hl, pure_bind]
    rfl

/-- A loop that comes to its end had no round that failed. -/
theorem ok_of_mapM_eq_ok {bs : List β} (h : l.mapM g = .ok bs) :
    ∀ a ∈ l, ∃ b, g a = .ok b := by
  induction l generalizing bs with
  | nil => exact fun a ha => absurd ha List.not_mem_nil
  | cons a l ih =>
    rw [List.mapM_cons] at h
    obtain ⟨b, hb, hrest⟩ := bind_eq_ok.1 h
    obtain ⟨bs', hbs', -⟩ := bind_eq_ok.1 hrest
    exact List.forall_mem_cons.2 ⟨⟨b, hb⟩, ih hbs'⟩

theorem not_panics_mapM (h : ∀ a ∈ l, ¬ Panics (g a)) : ¬ Panics (l.mapM g) := by
  induction l with
  | nil => exact not_panics_pure []
  | cons a l ih =>
    obtain ⟨ha, hl⟩ := List.forall_mem_cons.1 h
    rw [List.mapM_cons]
    exact not_panics_bind ha fun b _ => not_panics_bind (ih hl) fun bs _ => not_panics_pure _

theorem panics_mapM_append_iff : Panics ((l ++ l').mapM g) ↔
    Panics (l.mapM g) ∨ (∃ bs, l.mapM g = .ok bs) ∧ Panics (l'.mapM g) := by
  rw [List.mapM_append, panics_bind_iff]
  refine or_congr_right ⟨?_, ?_⟩
  · rintro ⟨bs, hbs, h⟩
    refine ⟨⟨bs, hbs⟩, ?_⟩
    exact (panics_bind_iff.1 h).resolve_right fun ⟨_, _, hp⟩ => not_panics_pure _ hp
  · rintro ⟨⟨bs, hbs⟩, h⟩
    exact ⟨bs, hbs, panics_bind h _⟩

/-- A loop with an accumulator stops in the first round that does. -/
theorem returns_foldlM {f : β → α → Run ε β} {c : α → Prop} {v : β → α → β}
    (h : ∀ b, ∀ a ∈ l, Returns (c a) (f b a) (v b a)) (b : β) :
    Returns (∀ a ∈ l, c a) (l.foldlM f b) (l.foldl v b) := by
  induction l generalizing b with
  | nil => exact (returns_pure b).congr (iff_of_true trivial fun a ha => absurd ha List.not_mem_nil)
  | cons a l ih =>
    rw [List.foldlM_cons]
    refine ((h b a List.mem_cons_self).bind fun _ =>
      ih (fun b a ha => h b a (List.mem_cons_of_mem _ ha)) (v b a)).congr ?_
    exact List.forall_mem_cons.symm

end Rust

/-! The integer types of Rust and their `from_str_radix`. A string is read digit by digit with
checks for overflow; the branch without checks that the library takes for few digits computes the
same. What is read is the value of the numeral, if that is a value of the type. -/

namespace RustInt

/-- A primitive integer type. -/
structure MachineInt where
  signed : Bool
  bits : ℕ
  bits_ge : 8 ≤ bits

namespace MachineInt

variable (ty : MachineInt)

def min : ℤ := if ty.signed then -2 ^ (ty.bits - 1) else 0

def max : ℤ := if ty.signed then 2 ^ (ty.bits - 1) - 1 else 2 ^ ty.bits - 1

/-- The values of the type. -/
def Holds (v : ℤ) : Prop := ty.min ≤ v ∧ v ≤ ty.max

instance (v : ℤ) : Decidable (ty.Holds v) := inferInstanceAs (Decidable (_ ∧ _))

theorem min_le_zero : ty.min ≤ 0 := by
  unfold min
  split_ifs
  · exact neg_nonpos.2 (pow_nonneg (by decide) _)
  · exact le_rfl

theorem zero_le_max : 0 ≤ ty.max := by
  unfold max
  split_ifs
  · exact sub_nonneg.2 (one_le_pow₀ (by decide))
  · exact sub_nonneg.2 (one_le_pow₀ (by decide))

end MachineInt

inductive IntErrorKind
  | Empty | InvalidDigit | PosOverflow | NegOverflow
  deriving DecidableEq, Repr

/-- The value of a letter or digit in a base that is large enough. -/
def digitValue (c : Char) : Option ℕ :=
  if '0' ≤ c ∧ c ≤ '9' then some (c.toNat - '0'.toNat)
  else if 'a' ≤ c ∧ c ≤ 'z' then some (c.toNat - 'a'.toNat + 10)
  else if 'A' ≤ c ∧ c ≤ 'Z' then some (c.toNat - 'A'.toNat + 10)
  else none

/-- `char::to_digit`. -/
def toDigit (radix : ℕ) (c : Char) : Option ℕ := (digitValue c).filter (· < radix)

/-- The value with the sign that was read. -/
def numeralValue (isPositive : Bool) (n : ℕ) : ℤ := if isPositive then n else -n

def overflow (isPositive : Bool) : IntErrorKind :=
  if isPositive then .PosOverflow else .NegOverflow

/-- The loop over the digits, with `result` the magnitude of what is read so far. -/
def readDigits (ty : MachineInt) (radix : ℕ) (isPositive : Bool) :
    List Char → (result : ℕ) → Except IntErrorKind ℤ
  | [], result => .ok (numeralValue isPositive result)
  | c :: digits, result =>
    match toDigit radix c with
    | none => .error .InvalidDigit
    | some x =>
      if ty.Holds (numeralValue isPositive (result * radix)) ∧
          ty.Holds (numeralValue isPositive (result * radix + x)) then
        readDigits ty radix isPositive digits (result * radix + x)
      else .error (overflow isPositive)

/-- `from_str_radix`. -/
def fromStrRadix (ty : MachineInt) (src : List Char) (radix : ℕ) : Except IntErrorKind ℤ :=
  match src with
  | [] => .error .Empty
  | [c] => if c = '+' ∨ c = '-' then .error .InvalidDigit else readDigits ty radix true [c] 0
  | c :: digits =>
    if c = '+' then readDigits ty radix true digits 0
    else if c = '-' ∧ ty.signed then readDigits ty radix false digits 0
    else readDigits ty radix true (c :: digits) 0

/-! ### Numerals -/

/-- The digits of the number `n`, the most significant one first. -/
def IsNumeral (radix : ℕ) (digits : List Char) (n : ℕ) : Prop :=
  digits ≠ [] ∧ ∃ xs : List ℕ, digits.map (toDigit radix) = xs.map some ∧
    n = Nat.ofDigits radix xs.reverse

theorem holds_signedValue_of_le {ty : MachineInt} {isPositive : Bool} {m n : ℕ} (hle : m ≤ n)
    (h : ty.Holds (numeralValue isPositive n)) : ty.Holds (numeralValue isPositive m) := by
  have hmin := ty.min_le_zero
  have hmax := ty.zero_le_max
  obtain ⟨hlow, hhigh⟩ := h
  cases isPositive with
  | true =>
    change (n : ℤ) ≤ ty.max at hhigh
    exact ⟨by change ty.min ≤ (m : ℤ); omega, by change (m : ℤ) ≤ ty.max; omega⟩
  | false =>
    change ty.min ≤ -(n : ℤ) at hlow
    exact ⟨by change ty.min ≤ -(m : ℤ); omega, by change -(m : ℤ) ≤ ty.max; omega⟩

/-- The number that the digits `xs` continue. -/
theorem ofDigits_reverse_append (radix : ℕ) (xs ys : List ℕ) :
    Nat.ofDigits radix (xs ++ ys).reverse =
      Nat.ofDigits radix xs.reverse * radix ^ ys.length + Nat.ofDigits radix ys.reverse := by
  rw [List.reverse_append, Nat.ofDigits_append, List.length_reverse, Nat.add_comm, Nat.mul_comm]

/-- The loop reads exactly the numerals whose value is one of the type. -/
theorem readDigits_eq_ok_iff {ty : MachineInt} {radix : ℕ} (hradix : 0 < radix) {isPositive : Bool}
    {digits : List Char} {result : ℕ} (hresult : ty.Holds (numeralValue isPositive result)) {v : ℤ} :
    readDigits ty radix isPositive digits result = .ok v ↔
      ∃ xs : List ℕ, digits.map (toDigit radix) = xs.map some ∧
        v = numeralValue isPositive
          (result * radix ^ xs.length + Nat.ofDigits radix xs.reverse) ∧ ty.Holds v := by
  induction digits generalizing result with
  | nil =>
    rw [readDigits, Except.ok.injEq]
    constructor
    · rintro rfl
      exact ⟨[], rfl, by simp, hresult⟩
    · rintro ⟨xs, hxs, rfl, -⟩
      obtain rfl := List.map_eq_nil_iff.1 hxs.symm
      simp
  | cons c digits ih =>
    rw [readDigits]
    cases hx : toDigit radix c with
    | none =>
      refine ⟨fun h => absurd h (by simp), ?_⟩
      rintro ⟨_ | ⟨x, xs⟩, hxs, -⟩
      · exact absurd hxs (List.cons_ne_nil _ _)
      · rw [List.map_cons, List.map_cons, hx] at hxs
        exact absurd (List.cons.inj hxs).1.symm (Option.some_ne_none x)
    | some x =>
      have hsplit : ∀ xs : List ℕ, (result * radix + x) * radix ^ xs.length +
          Nat.ofDigits radix xs.reverse =
            result * radix ^ (x :: xs).length + Nat.ofDigits radix (x :: xs).reverse := by
        intro xs
        rw [← List.singleton_append, ofDigits_reverse_append, List.reverse_singleton,
          Nat.ofDigits_singleton, List.length_append, List.length_singleton, Nat.add_mul,
          Nat.pow_add, Nat.pow_one, Nat.mul_assoc, Nat.add_assoc]
      dsimp only
      split_ifs with hfits
      · rw [ih hfits.2]
        constructor
        · rintro ⟨xs, hxs, rfl, hv⟩
          refine ⟨x :: xs, ?_, by rw [hsplit], hv⟩
          rw [List.map_cons, List.map_cons, hx, hxs]
        · rintro ⟨_ | ⟨y, xs⟩, hxs, rfl, hv⟩
          · exact absurd hxs (List.cons_ne_nil _ _)
          · rw [List.map_cons, List.map_cons, hx] at hxs
            obtain ⟨hy, htail⟩ := List.cons.inj hxs
            obtain rfl := Option.some.inj hy
            exact ⟨xs, htail, by rw [hsplit], hv⟩
      · refine ⟨fun h => absurd h (by simp), ?_⟩
        rintro ⟨_ | ⟨y, xs⟩, hxs, rfl, hv⟩
        · exact absurd hxs (List.cons_ne_nil _ _)
        · rw [List.map_cons, List.map_cons, hx] at hxs
          obtain rfl := Option.some.inj (List.cons.inj hxs).1
          rw [← hsplit] at hv
          have hpow : 0 < radix ^ xs.length := Nat.pow_pos hradix
          have hle : result * radix + x ≤
              (result * radix + x) * radix ^ xs.length + Nat.ofDigits radix xs.reverse :=
            (Nat.le_mul_of_pos_right _ hpow).trans (Nat.le_add_right _ _)
          exact absurd ⟨holds_signedValue_of_le ((Nat.le_add_right _ _).trans hle) hv,
            holds_signedValue_of_le hle hv⟩ hfits

theorem readDigits_zero_eq_ok_iff {ty : MachineInt} {radix : ℕ} (hradix : 0 < radix)
    {isPositive : Bool} {digits : List Char} (hne : digits ≠ []) {v : ℤ} :
    readDigits ty radix isPositive digits 0 = .ok v ↔
      ∃ n, IsNumeral radix digits n ∧ v = numeralValue isPositive n ∧ ty.Holds v := by
  have hzero : ty.Holds (numeralValue isPositive 0) := by
    have hmin := ty.min_le_zero
    have hmax := ty.zero_le_max
    cases isPositive <;> exact ⟨hmin, hmax⟩
  rw [readDigits_eq_ok_iff hradix hzero]
  constructor
  · rintro ⟨xs, hxs, rfl, hv⟩
    rw [Nat.zero_mul, Nat.zero_add] at hv ⊢
    exact ⟨_, ⟨hne, xs, hxs, rfl⟩, rfl, hv⟩
  · rintro ⟨n, ⟨-, xs, hxs, rfl⟩, rfl, hv⟩
    exact ⟨xs, hxs, by rw [Nat.zero_mul, Nat.zero_add], hv⟩

/-- The numerals of a type with at most one sign. -/
inductive SignedNumeral (ty : MachineInt) (radix : ℕ) : List Char → ℤ → Prop
  | plain {digits n} (h : IsNumeral radix digits n) (hv : ty.Holds n) :
      SignedNumeral ty radix digits n
  | plus {digits n} (h : IsNumeral radix digits n) (hv : ty.Holds n) :
      SignedNumeral ty radix ('+' :: digits) n
  | minus {digits n} (hs : ty.signed = true) (h : IsNumeral radix digits n) (hv : ty.Holds (-n)) :
      SignedNumeral ty radix ('-' :: digits) (-n)

theorem toDigit_of_sign {radix : ℕ} {c : Char} (h : c = '+' ∨ c = '-') : toDigit radix c = none := by
  obtain rfl | rfl := h <;> rfl

/-- A numeral does not begin with a sign. -/
theorem not_isNumeral_of_sign {radix n : ℕ} {c : Char} (h : c = '+' ∨ c = '-')
    (digits : List Char) : ¬ IsNumeral radix (c :: digits) n := by
  rintro ⟨-, _ | ⟨x, xs⟩, hxs, -⟩
  · exact absurd hxs (List.cons_ne_nil _ _)
  · rw [List.map_cons, List.map_cons, toDigit_of_sign h] at hxs
    exact absurd (List.cons.inj hxs).1.symm (Option.some_ne_none x)

/-- A string that does not begin with a sign is a numeral as it stands. -/
theorem signedNumeral_of_not_sign {ty : MachineInt} {radix : ℕ} {src : List Char} {v : ℤ}
    (hplus : ∀ digits, src ≠ '+' :: digits)
    (hminus : ∀ digits, ty.signed = true → src ≠ '-' :: digits) :
    SignedNumeral ty radix src v ↔ ∃ n, IsNumeral radix src n ∧ v = n ∧ ty.Holds v := by
  constructor
  · rintro (⟨h, hv⟩ | ⟨h, hv⟩ | ⟨hs, h, hv⟩)
    · exact ⟨_, h, rfl, hv⟩
    · exact absurd rfl (hplus _)
    · exact absurd rfl (hminus _ hs)
  · rintro ⟨n, h, rfl, hv⟩
    exact .plain h hv

theorem signedNumeral_plus_iff {ty : MachineInt} {radix : ℕ} {digits : List Char} {v : ℤ} :
    SignedNumeral ty radix ('+' :: digits) v ↔
      ∃ n, IsNumeral radix digits n ∧ v = n ∧ ty.Holds v := by
  constructor
  · rintro (⟨h, hv⟩ | ⟨h, hv⟩)
    · exact absurd h (not_isNumeral_of_sign (.inl rfl) _)
    · exact ⟨_, h, rfl, hv⟩
  · rintro ⟨n, h, rfl, hv⟩
    exact .plus h hv

theorem signedNumeral_minus_iff {ty : MachineInt} {radix : ℕ} {digits : List Char} {v : ℤ} :
    SignedNumeral ty radix ('-' :: digits) v ↔
      ty.signed = true ∧ ∃ n, IsNumeral radix digits n ∧ v = -n ∧ ty.Holds v := by
  constructor
  · rintro (⟨h, hv⟩ | ⟨h, hv⟩ | ⟨hs, h, hv⟩)
    · exact absurd h (not_isNumeral_of_sign (.inr rfl) _)
    · exact ⟨hs, _, h, rfl, hv⟩
  · rintro ⟨hs, n, h, rfl, hv⟩
    exact .minus hs h hv

/-- What `from_str_radix` reads. -/
theorem fromStrRadix_eq_ok_iff {ty : MachineInt} {radix : ℕ} (hradix : 0 < radix) {src : List Char}
    {v : ℤ} : fromStrRadix ty src radix = .ok v ↔ SignedNumeral ty radix src v := by
  unfold fromStrRadix
  split
  · refine ⟨fun h => absurd h (by simp), fun h => ?_⟩
    obtain ⟨⟨hne, -⟩, -⟩ := h
    exact absurd rfl hne
  · next c =>
    split_ifs with hc
    · refine ⟨fun h => absurd h (by simp), fun h => ?_⟩
      obtain rfl | rfl := hc
      · obtain ⟨n, ⟨hne, -⟩, -⟩ := signedNumeral_plus_iff.1 h
        exact absurd rfl hne
      · obtain ⟨-, n, ⟨hne, -⟩, -⟩ := signedNumeral_minus_iff.1 h
        exact absurd rfl hne
    · rw [readDigits_zero_eq_ok_iff hradix (List.cons_ne_nil _ _), signedNumeral_of_not_sign]
      · rfl
      · rintro digits h
        exact hc (.inl (List.cons.inj h).1)
      · rintro digits - h
        exact hc (.inr (List.cons.inj h).1)
  · next c digits hne =>
    have hne : digits ≠ [] := by
      rintro rfl
      exact hne rfl
    split_ifs with hplus hminus
    · rw [hplus, readDigits_zero_eq_ok_iff hradix hne, signedNumeral_plus_iff]
      rfl
    · rw [hminus.1, readDigits_zero_eq_ok_iff hradix hne, signedNumeral_minus_iff]
      exact (and_iff_right hminus.2).symm
    · rw [readDigits_zero_eq_ok_iff hradix (List.cons_ne_nil _ _), signedNumeral_of_not_sign]
      · rfl
      · rintro digits h
        exact hplus (List.cons.inj h).1
      · rintro digits hs h
        exact hminus ⟨(List.cons.inj h).1, hs⟩

end RustInt
