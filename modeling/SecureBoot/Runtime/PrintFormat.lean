import Mathlib.Data.List.TakeWhile
import SecureBoot.Lib.Digits
import SecureBoot.Runtime.Print

/-! Parsing of format strings. The width is read modulo `2 ^ 32`, so that a numeral is taken for
a width of `1..32` exactly when its residue is one; the pointer moves forward over characters
other than the terminator, which bounds the number of specifiers. -/

namespace SecureBoot

open Decimal
open Sink (Write State put)

/-! ### Widths -/

/-- What the loop over the digits does with one. -/
def widthDigit (spec : FormatSpecifier) (c : Byte) : FormatSpecifier :=
  if spec.padding = 0 ∧ c = 0x30 then { spec with padding := 0x30 }
  else { spec with
    padding := if spec.padding = 0 then 0x20 else spec.padding
    width := spec.width * 10 + (c - 0x30).setWidth 32 }

theorem consumeWidth_digits (spec : FormatSpecifier) {digits : List Byte}
    (hdigits : ∀ c ∈ digits, isDigit c = true) {t : Byte} (ht : isDigit t = false)
    (rest : List Byte) :
    consumeWidth spec (digits ++ t :: rest) = some (digits.foldl widthDigit spec, t :: rest) := by
  induction digits generalizing spec with
  | nil =>
    have hstop : t < 0x30 ∨ 0x39 < t := by
      by_contra hgo
      exact Bool.false_ne_true (ht.symm.trans ((isDigit_iff t).2 hgo))
    rw [List.nil_append, consumeWidth, if_pos hstop, ite_self]
    rfl
  | cons c digits ih =>
    obtain ⟨hc, hdigits⟩ := List.forall_mem_cons.1 hdigits
    rw [List.cons_append, consumeWidth, if_neg (ne_zero_of_isDigit hc),
      if_neg ((isDigit_iff c).1 hc), List.foldl_cons, widthDigit]
    by_cases hzero : spec.padding = 0 ∧ c = 0x30
    · rw [if_pos hzero, if_pos hzero]
      exact ih _ hdigits
    · rw [if_neg hzero, if_neg hzero]
      exact ih _ hdigits

theorem padding_widthDigit (spec : FormatSpecifier) (c : Byte) :
    (widthDigit spec c).padding ≠ 0 := by
  unfold widthDigit
  by_cases hzero : spec.padding = 0 ∧ c = 0x30
  · rw [if_pos hzero]
    exact (by decide : (0x30 : Byte) ≠ 0)
  · rw [if_neg hzero]
    by_cases hpad : spec.padding = 0
    · simp only [if_pos hpad]
      decide
    · simpa only [if_neg hpad] using hpad

/-- A leading zero leaves the width at zero, as multiplying it does. -/
theorem width_widthDigit {spec : FormatSpecifier} (h : spec.padding = 0 → spec.width = 0)
    (c : Byte) : (widthDigit spec c).width = spec.width * 10 + (c - 0x30).setWidth 32 := by
  unfold widthDigit
  by_cases hzero : spec.padding = 0 ∧ c = 0x30
  · rw [if_pos hzero, h hzero.1, hzero.2]
    decide
  · rw [if_neg hzero]

theorem width_foldl_widthDigit {digits : List Byte} (hdigits : ∀ c ∈ digits, isDigit c = true)
    {spec : FormatSpecifier} (h : spec.padding = 0 → spec.width = 0) {v : ℕ}
    (hv : spec.width = BitVec.ofNat 32 v) :
    (digits.foldl widthDigit spec).width = BitVec.ofNat 32 (valueFrom v digits) := by
  induction digits generalizing spec v with
  | nil => exact hv
  | cons c digits ih =>
    obtain ⟨hc, hdigits⟩ := List.forall_mem_cons.1 hdigits
    refine ih hdigits (fun h0 => absurd h0 (padding_widthDigit spec c)) ?_
    rw [width_widthDigit h, hv, word_digit hc]
    rfl

theorem padding_foldl_widthDigit {digits : List Byte} (hne : digits ≠ [])
    (spec : FormatSpecifier) : (digits.foldl widthDigit spec).padding ≠ 0 := by
  rw [← List.dropLast_append_getLast hne, List.foldl_append]
  exact padding_widthDigit _ _

/-! ### Specifiers -/

/-- What follows the `%`, and the `!` if there is one. -/
def specBody (rest : List Byte) : List Byte := if rest.head? == some 0x21 then rest.drop 1 else rest

def widthNumeral (rest : List Byte) : List Byte := (specBody rest).takeWhile isDigit

/-- The character after the numeral. -/
def specEnd (rest : List Byte) : Byte := ((specBody rest).dropWhile isDigit).headD 0

theorem zero_mem_specBody {rest : List Byte} (h : 0 ∈ rest) : 0 ∈ specBody rest := by
  unfold specBody
  split_ifs with hbang
  · obtain _ | ⟨c, rest⟩ := rest
    · exact h
    · have hc : c = 0x21 := by simpa using hbang
      rcases List.mem_cons.1 h with h0 | hmem
      · exact absurd (h0.trans hc) (by decide)
      · exact hmem
  · exact h

/-- The characters before the body are no terminators. -/
theorem exists_append_specBody (rest : List Byte) :
    ∃ bang, rest = bang ++ specBody rest ∧ 0 ∉ bang := by
  unfold specBody
  split_ifs with hbang
  · obtain _ | ⟨c, rest⟩ := rest
    · exact ⟨[], rfl, List.not_mem_nil⟩
    · have hc : c = 0x21 := by simpa using hbang
      subst hc
      exact ⟨[0x21], rfl, by decide⟩
  · exact ⟨[], rfl, List.not_mem_nil⟩

theorem mem_takeWhile_isDigit {body : List Byte} {c : Byte} (h : c ∈ body.takeWhile isDigit) :
    isDigit c = true := List.mem_takeWhile_imp h

theorem zero_notMem_takeWhile (body : List Byte) : 0 ∉ body.takeWhile isDigit := fun h =>
  Bool.false_ne_true (isDigit_zero.symm.trans (mem_takeWhile_isDigit h))

/-- A body with a terminator is a numeral, a character that ends it, and the rest. -/
theorem specBody_eq {rest : List Byte} (h : 0 ∈ rest) :
    ∃ tail, specBody rest = widthNumeral rest ++ specEnd rest :: tail ∧
      isDigit (specEnd rest) = false ∧ (specEnd rest ≠ 0 → 0 ∈ tail) := by
  have hzero := zero_mem_specBody h
  have hsplit := List.takeWhile_append_dropWhile (p := isDigit) (l := specBody rest)
  unfold widthNumeral specEnd
  generalize specBody rest = body at hzero hsplit ⊢
  rw [← hsplit] at hzero
  have hdrop : 0 ∈ body.dropWhile isDigit :=
    (List.mem_append.1 hzero).resolve_left (zero_notMem_takeWhile body)
  obtain ⟨t, tail, ht⟩ := List.exists_cons_of_ne_nil (List.ne_nil_of_mem hdrop)
  rw [ht] at hsplit hdrop ⊢
  refine ⟨tail, hsplit.symm, ?_, fun hne => ?_⟩
  · have := List.head?_dropWhile_not isDigit body
    rw [ht] at this
    simpa using this
  · exact (List.mem_cons.1 hdrop).resolve_left fun h0 => hne h0.symm

section Functions

variable {σ : Type} (out : Write Byte σ)

/-- Whether the width that is read from a numeral passes the check. -/
def WidthPasses (numeral : List Byte) : Prop :=
  numeral = [] ∨ 1 ≤ Decimal.value numeral % 2 ^ 32 ∧ Decimal.value numeral % 2 ^ 32 ≤ 32

theorem widthPasses_iff (numeral : List Byte) (hdigits : ∀ c ∈ numeral, isDigit c = true)
    (isNonstd : Bool) :
    ¬(((numeral.foldl widthDigit ⟨0, 0, 0, isNonstd⟩).width = 0 ∧
        (numeral.foldl widthDigit ⟨0, 0, 0, isNonstd⟩).padding ≠ 0) ∨
      32 < (numeral.foldl widthDigit ⟨0, 0, 0, isNonstd⟩).width) ↔ WidthPasses numeral := by
  have hwidth : (numeral.foldl widthDigit ⟨0, 0, 0, isNonstd⟩).width =
      BitVec.ofNat 32 (Decimal.value numeral) := width_foldl_widthDigit hdigits (fun _ => rfl) rfl
  unfold WidthPasses
  by_cases hne : numeral = []
  · subst hne
    simp
  · have hpad := padding_foldl_widthDigit hne ⟨0, 0, 0, isNonstd⟩
    rw [hwidth, BitVec.lt_def, BitVec.toNat_ofNat, ← BitVec.toNat_inj, BitVec.toNat_ofNat]
    simp only [hne, hpad, false_or, ne_eq, not_false_eq_true, and_true]
    change ¬(_ = 0 ∨ 32 < _) ↔ _
    omega

/-- The specifier is read in one of three ways. -/
inductive Parses (rest : List Byte) (st : Printer σ) : Consumed σ → Prop where
  | unexpectedNul (spec : FormatSpecifier) (h : specEnd rest = 0) :
    Parses rest st ⟨false, specBody rest, put out st kErrorNul, spec⟩
  | badWidth (spec : FormatSpecifier) (h : specEnd rest ≠ 0)
      (hwidth : ¬WidthPasses (widthNumeral rest)) :
    Parses rest st ⟨false, specBody rest, put out st kErrorTooWide, spec⟩
  | complete (spec : FormatSpecifier) (tail : List Byte) (h : specEnd rest ≠ 0)
      (hwidth : WidthPasses (widthNumeral rest))
      (hbody : specBody rest = widthNumeral rest ++ specEnd rest :: tail) (htail : 0 ∈ tail) :
    Parses rest st ⟨true, tail, st, spec⟩

theorem consumeFormatSpecifier_parses (c : Byte) {rest : List Byte} (h : 0 ∈ rest)
    (st : Printer σ) :
    ∃ r, consumeFormatSpecifier out (c :: rest) st = some r ∧ Parses out rest st r := by
  obtain ⟨tail, hbody, hend, htail⟩ := specBody_eq h
  have hdigits : ∀ c ∈ widthNumeral rest, isDigit c = true := fun _ => mem_takeWhile_isDigit
  have hloop := consumeWidth_digits ⟨0, 0, 0, rest.head? == some 0x21⟩ hdigits hend tail
  rw [← hbody] at hloop
  unfold specBody at hloop
  simp only [consumeFormatSpecifier, List.drop_succ_cons, List.drop_zero]
  rw [hloop]
  simp only
  have hiff := widthPasses_iff (widthNumeral rest) hdigits (rest.head? == some 0x21)
  by_cases h0 : specEnd rest = 0
  · rw [if_pos h0]
    exact ⟨_, rfl, .unexpectedNul _ h0⟩
  · rw [if_neg h0]
    by_cases hwidth : WidthPasses (widthNumeral rest)
    · rw [if_neg (hiff.2 hwidth)]
      exact ⟨_, rfl, .complete _ tail h0 hwidth hbody (htail h0)⟩
    · rw [if_pos (not_not.1 fun h => hwidth (hiff.1 h))]
      exact ⟨_, rfl, .badWidth _ h0 hwidth⟩

theorem Parses.forward {rest : List Byte} {st : Printer σ} {r : Consumed σ}
    (h : Parses out rest st r) : ∃ consumed, rest = consumed ++ r.format ∧ 0 ∉ consumed := by
  obtain ⟨bang, hbang, hzero⟩ := exists_append_specBody rest
  cases h with
  | unexpectedNul => exact ⟨bang, hbang, hzero⟩
  | badWidth => exact ⟨bang, hbang, hzero⟩
  | complete spec tail h0 _ hbody =>
    refine ⟨bang ++ widthNumeral rest ++ [specEnd rest], ?_, ?_⟩
    · rw [List.append_assoc, List.append_assoc, List.singleton_append, ← hbody, ← hbang]
    · simp only [List.mem_append, List.mem_singleton, not_or]
      exact ⟨⟨hzero, zero_notMem_takeWhile _⟩, fun h => h0 h.symm⟩

theorem Parses.ok_iff {rest : List Byte} {st : Printer σ} {r : Consumed σ}
    (h : Parses out rest st r) (hend : specEnd rest ≠ 0) :
    r.ok = true ↔ WidthPasses (widthNumeral rest) := by
  cases h with
  | unexpectedNul spec h0 => exact absurd h0 hend
  | badWidth spec _ hwidth => exact iff_of_false Bool.false_ne_true hwidth
  | complete spec tail _ hwidth => exact iff_of_true rfl hwidth

theorem Parses.zero_mem {rest : List Byte} {st : Printer σ} {r : Consumed σ}
    (h : Parses out rest st r) (hok : r.ok = true) : 0 ∈ r.format := by
  cases h with
  | unexpectedNul => exact absurd hok Bool.false_ne_true
  | badWidth => exact absurd hok Bool.false_ne_true
  | complete spec tail _ _ _ htail => exact htail

/-! ### Text -/

theorem scanText_spec {format : List Byte} (h : 0 ∈ format) :
    ∃ text c rest, scanText format = some (text, c :: rest) ∧ format = text ++ c :: rest ∧
      0 ∉ text ∧ (c = 0 ∨ c = kPercent) := by
  induction format with
  | nil => exact absurd h List.not_mem_nil
  | cons d format ih =>
    rw [scanText]
    by_cases hstop : d = 0 ∨ d = kPercent
    · rw [if_pos hstop]
      exact ⟨[], d, format, rfl, rfl, List.not_mem_nil, hstop⟩
    · rw [if_neg hstop]
      have hd : d ≠ 0 := fun hd => hstop (.inl hd)
      obtain ⟨text, c, rest, hscan, hformat, hzero, hc⟩ :=
        ih ((List.mem_cons.1 h).resolve_left fun h0 => hd h0.symm)
      refine ⟨d :: text, c, rest, ?_, ?_, ?_, hc⟩
      · rw [hscan]
        rfl
      · rw [hformat, List.cons_append]
      · exact fun hmem => (List.mem_cons.1 hmem).elim (fun h0 => hd h0.symm) hzero

/-- Either the end of the string is reached, or a `%` with a string behind it. -/
theorem consumeUntilPercent_spec {format : List Byte} (h : 0 ∈ format) (st : Printer σ) :
    ∃ text c rest st', consumeUntilPercent out format st = some (c != 0, c :: rest, st') ∧
      format = text ++ c :: rest ∧ 0 ∉ text ∧ (c ≠ 0 → c = kPercent ∧ 0 ∈ rest) := by
  obtain ⟨text, c, rest, hscan, hformat, hzero, hc⟩ := scanText_spec h
  refine ⟨text, c, rest, if 0 < text.length then put out st text else st, ?_, hformat, hzero,
    fun hne => ⟨hc.resolve_left hne, ?_⟩⟩
  · rw [consumeUntilPercent, hscan]
    rfl
  · rw [hformat] at h
    exact (List.mem_cons.1 ((List.mem_append.1 h).resolve_left hzero)).resolve_left
      fun h0 => hne h0.symm

/-! ### Termination -/

/-- As many rounds as there are characters are enough. -/
theorem vfprintfLoop_ne_outOfFuel {fuel : ℕ} {format : List Byte} (h : 0 ∈ format)
    (hfuel : format.length ≤ fuel) (st : Printer σ) (args : List Arg) :
    vfprintfLoop out fuel format st args ≠ .error .outOfFuel := by
  induction fuel generalizing format st args with
  | zero =>
    have := List.length_pos_of_mem h
    omega
  | succ fuel ih =>
    obtain ⟨text, c, rest, st', hconsume, hformat, -, hpercent⟩ :=
      consumeUntilPercent_spec out h st
    rw [vfprintfLoop, if_neg (List.ne_nil_of_mem h), hconsume]
    split_ifs
    · exact fun h => by cases h
    · by_cases hc : c = 0
      · subst hc
        exact fun h => by cases h
      · rw [show (c != 0) = true from bne_iff_ne.2 hc]
        obtain ⟨r, hr, hparses⟩ := consumeFormatSpecifier_parses out c (hpercent hc).2 st'
        simp only [hr]
        split_ifs with hok
        · cases processSpecifier out r.spec r.st args with
          | none => exact fun h => by cases h
          | some next =>
            obtain ⟨consumed, hrest, -⟩ := hparses.forward
            refine ih (hparses.zero_mem out hok) ?_ next.1 next.2
            have hlen := congrArg List.length hformat
            rw [hrest] at hlen
            simp only [List.length_append, List.length_cons] at hlen
            omega
        · exact fun h => by cases h

end Functions

/-! ### Format strings -/

/-- A width in a specifier that is not cut off by the end of the string. -/
def HasWidth (rest : List Byte) : Prop := widthNumeral rest ≠ [] ∧ specEnd rest ≠ 0

/-- What parsing a format string is to do. -/
structure ParsesFormat (format : List Byte) : Prop where
  width_iff : ∀ rest, format = kPercent :: rest → HasWidth rest →
    ∀ (σ : Type) (out : Write Byte σ) (st : Printer σ) (r : Consumed σ),
      consumeFormatSpecifier out format st = some r →
        (r.ok = true ↔ 1 ≤ Decimal.value (widthNumeral rest) ∧
          Decimal.value (widthNumeral rest) ≤ 32)
  forward : ∀ rest, format = kPercent :: rest →
    ∀ (σ : Type) (out : Write Byte σ) (st : Printer σ),
      ∃ r, consumeFormatSpecifier out format st = some r ∧
        ∃ consumed, consumed ≠ [] ∧ 0 ∉ consumed ∧ format = consumed ++ r.format
  terminates : ∀ (σ : Type) (out : BufferSink σ) (data : σ) (args : List Arg),
    baseVfprintf out data format args ≠ .error .outOfFuel

/-- No width is larger than 32 and has a residue modulo `2 ^ 32` that is not. -/
def WidthsFit (format : List Byte) : Prop :=
  ∀ rest, format = kPercent :: rest → HasWidth rest →
    1 ≤ Decimal.value (widthNumeral rest) % 2 ^ 32 →
      Decimal.value (widthNumeral rest) % 2 ^ 32 ≤ 32 → Decimal.value (widthNumeral rest) ≤ 32

/-- The width wraps around, everything else holds for all strings. -/
theorem consume_format_specifier_iff (format : List Byte) (h : 0 ∈ format) :
    ParsesFormat format ↔ WidthsFit format := by
  have hmem : ∀ {rest}, format = kPercent :: rest → 0 ∈ rest := by
    rintro rest rfl
    exact (List.mem_cons.1 h).resolve_left (by decide)
  constructor
  · intro hparses rest hformat hwidth h1 h32
    obtain ⟨r, hr, hr'⟩ := consumeFormatSpecifier_parses (σ := Unit) baseDevNull kPercent
      (hmem hformat) ⟨(), 0⟩
    rw [← hformat] at hr
    exact ((hparses.width_iff rest hformat hwidth _ _ _ _ hr).1
      ((hr'.ok_iff _ hwidth.2).2 (.inr ⟨h1, h32⟩))).2
  · intro hfit
    refine ⟨fun rest hformat hwidth σ out st r hr => ?_, fun rest hformat σ out st => ?_,
      fun σ out data args => vfprintfLoop_ne_outOfFuel _ h (le_refl _) _ _⟩
    · obtain ⟨r', hr', hparses⟩ := consumeFormatSpecifier_parses out kPercent (hmem hformat) st
      rw [hformat, hr', Option.some.injEq] at hr
      subst hr
      rw [hparses.ok_iff _ hwidth.2, WidthPasses, or_iff_right hwidth.1]
      constructor
      · rintro ⟨h1, h32⟩
        have hle := hfit rest hformat hwidth h1 h32
        rw [Nat.mod_eq_of_lt (by omega)] at h1
        exact ⟨h1, hle⟩
      · rintro ⟨h1, h32⟩
        rw [Nat.mod_eq_of_lt (by omega)]
        exact ⟨h1, h32⟩
    · obtain ⟨r, hr, hparses⟩ := consumeFormatSpecifier_parses out kPercent (hmem hformat) st
      obtain ⟨consumed, hrest, hzero⟩ := hparses.forward
      refine ⟨r, hformat ▸ hr, kPercent :: consumed, List.cons_ne_nil _ _, ?_, ?_⟩
      · exact fun h0 => (List.mem_cons.1 h0).elim (by decide) hzero
      · rw [hformat, List.cons_append, ← hrest]

theorem consume_format_specifier_fits : ParsesFormat (ascii "%08x\x00") := by
  refine (consume_format_specifier_iff (ascii "%08x\x00") (by decide)).2 ?_
  intro rest hformat _ _ _
  obtain rfl : ascii "08x\x00" = rest := (List.cons.inj hformat).2
  decide

/-- A width of `2 ^ 32 + 1` is taken for a width of 1. -/
theorem consume_format_specifier_wraps :
    ((consumeFormatSpecifier baseDevNull (ascii "%4294967297d\x00") ⟨(), 0⟩).map
        fun r => (r.ok, r.spec.width)) = some (true, 1) ∧
      Decimal.value (widthNumeral (ascii "4294967297d\x00")) = 4294967297 ∧
      ¬ParsesFormat (ascii "%4294967297d\x00") := by
  refine ⟨by decide, by decide, fun h => ?_⟩
  have hok := h.width_iff (ascii "4294967297d\x00") rfl ⟨by decide, by decide⟩ Unit baseDevNull
    ⟨(), 0⟩ _ rfl
  exact absurd (hok.1 (by decide)).2 (by decide)

end SecureBoot
