import SecureBoot.Runtime.UjsonString

/-! Integers as characters. A numeral of any length is read, and its value is stored modulo the
size of the destination; the numeral that was written for a value is read back as that value. -/

namespace SecureBoot

open Decimal (isDigit)

/-! ### Integer types -/

/-- The types that have a function of their own. -/
inductive IntType where
  | uint64 | uint32 | uint16 | uint8 | size | int64 | int32 | int16 | int8
  deriving DecidableEq, Repr

namespace IntType

/-- `sizeof`. -/
def bytes : IntType → ℕ
  | uint64 | int64 => 8
  | uint32 | int32 | size => 4
  | uint16 | int16 => 2
  | uint8 | int8 => 1

def signed : IntType → Bool
  | int64 | int32 | int16 | int8 => true
  | _ => false

abbrev Value (T : IntType) : Type := BitVec (8 * T.bytes)

/-- The number that a value of the type is. -/
def toInt (T : IntType) (v : T.Value) : ℤ := if T.signed then v.toInt else v.toNat

/-- The numbers that are values of the type. -/
def Represents (T : IntType) (z : ℤ) : Prop := ∃ v, T.toInt v = z

def deserialize : IntType → UjsonM Unit
  | uint64 => ujsonDeserializeUint64T
  | uint32 => ujsonDeserializeUint32T
  | uint16 => ujsonDeserializeUint16T
  | uint8 => ujsonDeserializeUint8T
  | size => ujsonDeserializeSizeT
  | int64 => ujsonDeserializeInt64T
  | int32 => ujsonDeserializeInt32T
  | int16 => ujsonDeserializeInt16T
  | int8 => ujsonDeserializeInt8T

def serialize : (T : IntType) → T.Value → UjsonM Unit
  | uint64 => ujsonSerializeUint64T
  | uint32 => ujsonSerializeUint32T
  | uint16 => ujsonSerializeUint16T
  | uint8 => ujsonSerializeUint8T
  | size => ujsonSerializeSizeT
  | int64 => ujsonSerializeInt64T
  | int32 => ujsonSerializeInt32T
  | int16 => ujsonSerializeInt16T
  | int8 => ujsonSerializeInt8T

theorem deserialize_eq (T : IntType) : T.deserialize = ujsonParseInteger T.bytes := by
  cases T <;> rfl

theorem bytes_le (T : IntType) : T.bytes ≤ 8 := by cases T <;> decide

/-- A value is the number that it is, modulo the size of the type. -/
theorem ofInt_toInt (T : IntType) (v : T.Value) : BitVec.ofInt _ (T.toInt v) = v := by
  unfold toInt
  split_ifs
  · exact BitVec.ofInt_toInt
  · rw [BitVec.ofInt_natCast, BitVec.ofNat_toNat, BitVec.setWidth_eq]

theorem toInt_ofInt_iff (T : IntType) (z : ℤ) :
    T.toInt (BitVec.ofInt _ z) = z ↔ T.Represents z := by
  refine ⟨fun h => ⟨_, h⟩, ?_⟩
  rintro ⟨v, rfl⟩
  rw [ofInt_toInt]

end IntType

/-! ### Reading -/

/-- The little-endian value of the bytes that a result was stored as. -/
def Ujson.result (uj : Ujson) (w : ℕ) : BitVec w :=
  Bits.ofBits w fun i => (uj.dest (i / 8)).getLsbD (i % 8)

/-- The number of a numeral with its sign. -/
def signedValue (neg : Bool) (digits : List Byte) : ℤ :=
  if neg then -(Decimal.value digits : ℤ) else Decimal.value digits

/-- The state when a numeral has been read: the character after it has been put back. -/
def Ujson.past (uj : Ujson) (rest : List Byte) : Ujson :=
  { uj with buffer := rest.head?, input := rest.tail }

theorem Ujson.chars_past (uj : Ujson) (rest : List Byte) : (uj.past rest).chars = rest := by
  cases rest <;> rfl

theorem Ujson.at_of_chars_nil {uj : Ujson} (h : uj.chars = []) : uj.at [] = uj := by
  obtain ⟨input, endStatus, buffer, output, dest⟩ := uj
  obtain ⟨hbuffer, rfl⟩ := List.append_eq_nil_iff.1 h
  cases buffer with
  | none => rfl
  | some b => cases hbuffer

/-- One round of the loop on a digit. -/
theorem run_parseDigitsLoop_succ {uj : Ujson} {c : Byte} (hc : isDigit c = true) (fuel v : ℕ) :
    (parseDigitsLoop (fuel + 1) c (.ofNat 64 v)).run uj =
      match uj.chars with
      | [] => .ok (.ofNat 64 (Decimal.valueFrom v [c]), none) (uj.at [])
      | d :: rest => (parseDigitsLoop fuel d (.ofNat 64 (Decimal.valueFrom v [c]))).run
          (uj.at rest) := by
  rw [parseDigitsLoop, if_pos hc, EStateM.run_bind, Decimal.word_digit hc]
  cases h : uj.chars with
  | nil =>
    rw [run_ujsonGetc_nil h, uj.at_of_chars_nil h]
    rfl
  | cons d rest => rw [run_ujsonGetc_cons h]

/-- The loop reads the digits and the character after them. -/
theorem run_parseDigitsLoop {uj : Ujson} {c : Byte} {digits rest : List Byte}
    (h : uj.chars = digits ++ rest) (hc : isDigit c = true)
    (hdigits : ∀ c ∈ digits, isDigit c = true) (hrest : ∀ c ∈ rest.head?, isDigit c = false)
    {fuel : ℕ} (hfuel : (digits ++ rest).length < fuel) (v : ℕ) :
    (parseDigitsLoop fuel c (.ofNat 64 v)).run uj =
      .ok (.ofNat 64 (Decimal.valueFrom v (c :: digits)), rest.head?) (uj.at rest.tail) := by
  induction digits generalizing uj c v fuel with
  | nil =>
    obtain ⟨fuel, rfl⟩ := Nat.exists_eq_add_of_lt hfuel
    have h : uj.chars = rest := h
    rw [run_parseDigitsLoop_succ hc, h]
    cases rest with
    | nil => rfl
    | cons d rest =>
      have hfuel' : ([] ++ d :: rest).length + fuel = rest.length + fuel + 1 := Nat.succ_add _ _
      simp only
      rw [hfuel', parseDigitsLoop, if_neg (by rw [hrest d rfl]; exact Bool.false_ne_true)]
      rfl
  | cons d digits ih =>
    obtain ⟨fuel, rfl⟩ := Nat.exists_eq_add_of_lt hfuel
    obtain ⟨hd, hdigits⟩ := List.forall_mem_cons.1 hdigits
    rw [run_parseDigitsLoop_succ hc, h, List.cons_append]
    refine (ih (uj.chars_at _) hd hdigits (by rw [List.length_cons]; omega)
      _).trans ?_
    rw [← Decimal.valueFrom_append]
    rfl

theorem ofInt_signedValue (w : ℕ) (neg : Bool) (digits : List Byte) :
    BitVec.ofInt w (signedValue neg digits) =
      if neg then -BitVec.ofNat w (Decimal.value digits) else .ofNat w (Decimal.value digits) := by
  cases neg with
  | false => exact BitVec.ofInt_natCast _ _
  | true => exact (BitVec.ofInt_neg).trans (congrArg _ (BitVec.ofInt_natCast _ _))

/-- From the first digit on. -/
theorem run_digits {uj : Ujson} {c : Byte} {digits rest : List Byte} (neg : Bool)
    (h : uj.chars = digits ++ rest) (hdigits : ∀ d ∈ c :: digits, isDigit d = true)
    (hrest : ∀ c ∈ rest.head?, isDigit c = false) (rsz : ℕ) : (do
      if !isDigit c then throw (.status .notFound)
      let r ← parseDigitsLoop ((← get).chars.length + 1) c 0
      match r.2 with
        | some ch => ujsonUngetc ch
        | none => pure ()
      storeResult (if neg then -r.1 else r.1) rsz : UjsonM Unit).run uj = .ok () { uj.past rest with
        dest := fun i => if i < rsz then
          (BitVec.ofInt 64 (signedValue neg (c :: digits))).extractLsb' (8 * i) 8
            else uj.dest i } := by
  obtain ⟨hc, hdigits⟩ := List.forall_mem_cons.1 hdigits
  have hloop : (parseDigitsLoop (uj.chars.length + 1) c 0).run uj =
      .ok (.ofNat 64 (Decimal.value (c :: digits)), rest.head?) (uj.at rest.tail) :=
    run_parseDigitsLoop h hc hdigits hrest (by rw [h]; exact Nat.lt_succ_self _) 0
  rw [hc, ofInt_signedValue]
  change (parseDigitsLoop (uj.chars.length + 1) c 0 >>= _).run uj = _
  rw [EStateM.run_bind, hloop]
  cases rest with
  | nil => rfl
  | cons d rest => rfl

theorem isSpace_of_isDigit {c : Byte} (h : isDigit c = true) : isSpace c = false := by
  revert c
  decide

theorem ne_minus_of_isDigit {c : Byte} (h : isDigit c = true) : (c == 0x2d) = false := by
  revert c
  decide

theorem run_ujsonParseInteger {uj : Ujson} {spaces digits rest : List Byte} {neg : Bool}
    (h : uj.chars = spaces ++ ((if neg then [0x2d] else []) ++ (digits ++ rest)))
    (hspaces : ∀ c ∈ spaces, isSpace c = true) (hne : digits ≠ [])
    (hdigits : ∀ c ∈ digits, isDigit c = true) (hrest : ∀ c ∈ rest.head?, isDigit c = false)
    (rsz : ℕ) : (ujsonParseInteger rsz).run uj = .ok () { uj.past rest with
      dest := fun i => if i < rsz then
          (BitVec.ofInt 64 (signedValue neg digits)).extractLsb' (8 * i) 8 else uj.dest i } := by
  obtain ⟨c, digits, rfl⟩ := List.exists_cons_of_ne_nil hne
  have hc := (List.forall_mem_cons.1 hdigits).1
  cases neg with
  | false =>
    have h : uj.chars = spaces ++ c :: (digits ++ rest) := h
    rw [ujsonParseInteger, EStateM.run_bind,
      run_consumeWhitespace h hspaces (isSpace_of_isDigit hc)]
    simp only [ne_minus_of_isDigit hc]
    exact run_digits false (uj.chars_at _) hdigits hrest rsz
  | true =>
    have h : uj.chars = spaces ++ 0x2d :: c :: (digits ++ rest) := h
    rw [ujsonParseInteger, EStateM.run_bind, run_consumeWhitespace h hspaces (by decide)]
    change (tryGetc >>= _).run (uj.at _) = _
    rw [run_tryGetc_bind (uj.chars_at _)]
    exact run_digits true (Ujson.chars_at _ _) hdigits hrest rsz

theorem setWidth_ofInt {w v : ℕ} (h : w ≤ v) (z : ℤ) :
    (BitVec.ofInt v z).setWidth w = BitVec.ofInt w z := by
  apply BitVec.eq_of_toNat_eq
  have hv : 0 ≤ z % (2 ^ v : ℕ) := Int.emod_nonneg z (by positivity)
  have hdvd : ((2 ^ w : ℕ) : ℤ) ∣ (2 ^ v : ℕ) := Int.natCast_dvd_natCast.2 (pow_dvd_pow 2 h)
  rw [BitVec.toNat_setWidth, BitVec.toNat_ofInt, BitVec.toNat_ofInt, ← Int.emod_emod_of_dvd z hdvd,
    Int.toNat_emod hv (by positivity), Int.toNat_natCast]

/-- The bytes of a number, as a value of their size. -/
theorem result_of_dest {uj : Ujson} {n : ℕ} (hn : n ≤ 8) {z : ℤ}
    (h : ∀ i < n, uj.dest i = (BitVec.ofInt 64 z).extractLsb' (8 * i) 8) :
    uj.result (8 * n) = BitVec.ofInt (8 * n) z := by
  rw [← setWidth_ofInt (by omega : 8 * n ≤ 64)]
  refine BitVec.eq_of_getLsbD_eq fun i hi => ?_
  have hmod := Nat.mod_lt i (by decide : 0 < 8)
  rw [Ujson.result, Bits.getLsbD_ofBits hi, h (i / 8) (by omega), BitVec.getLsbD_extractLsb',
    Nat.div_add_mod, BitVec.getLsbD_setWidth, decide_eq_true hmod, decide_eq_true hi]

theorem run_deserialize (T : IntType) {uj : Ujson} {spaces digits rest : List Byte} {neg : Bool}
    (h : uj.chars = spaces ++ ((if neg then [0x2d] else []) ++ (digits ++ rest)))
    (hspaces : ∀ c ∈ spaces, isSpace c = true) (hne : digits ≠ [])
    (hdigits : ∀ c ∈ digits, isDigit c = true) (hrest : ∀ c ∈ rest.head?, isDigit c = false) :
    ∃ vj, T.deserialize.run uj = .ok () vj ∧ vj.buffer = rest.head? ∧ vj.input = rest.tail ∧
      vj.result (8 * T.bytes) = BitVec.ofInt (8 * T.bytes) (signedValue neg digits) ∧
      ∀ i, T.bytes ≤ i → vj.dest i = uj.dest i := by
  rw [T.deserialize_eq]
  refine ⟨_, run_ujsonParseInteger h hspaces hne hdigits hrest T.bytes, rfl, rfl,
    result_of_dest T.bytes_le fun i hi => if_pos hi, fun i hi => if_neg (by omega)⟩

/-- Every numeral is taken. Its number is stored modulo the size of the type, which is the number
itself exactly when it is one of the type. -/
theorem ujson_parse_integer_wraps (T : IntType) {uj : Ujson} {spaces digits rest : List Byte}
    {neg : Bool} (h : uj.chars = spaces ++ ((if neg then [0x2d] else []) ++ (digits ++ rest)))
    (hspaces : ∀ c ∈ spaces, isSpace c = true) (hne : digits ≠ [])
    (hdigits : ∀ c ∈ digits, isDigit c = true) (hrest : ∀ c ∈ rest.head?, isDigit c = false) :
    ∃ vj, T.deserialize.run uj = .ok () vj ∧ vj.chars = rest ∧
      vj.result (8 * T.bytes) = BitVec.ofInt (8 * T.bytes) (signedValue neg digits) ∧
      (∀ i, T.bytes ≤ i → vj.dest i = uj.dest i) ∧
      (T.toInt (vj.result (8 * T.bytes)) = signedValue neg digits ↔
        T.Represents (signedValue neg digits)) := by
  obtain ⟨vj, hrun, hbuffer, hinput, hresult, hframe⟩ :=
    run_deserialize T h hspaces hne hdigits hrest
  refine ⟨vj, hrun, ?_, hresult, hframe, ?_⟩
  · rw [Ujson.chars, hbuffer, hinput]
    exact uj.chars_past rest
  · rw [hresult]
    exact T.toInt_ofInt_iff _

theorem ujson_parse_integer_wraps_at : ∃ vj : Ujson, IntType.int8.deserialize.run
    ⟨ascii " -129,", .resourceExhausted, none, [], fun _ => 0⟩ = .ok () vj ∧
      vj.chars = ascii "," ∧ IntType.int8.toInt (vj.result 8) = 127 := by
  have hchars : Ujson.chars ⟨ascii " -129,", .resourceExhausted, none, [], fun _ => 0⟩ =
      ascii " " ++ ((if true then [0x2d] else []) ++ (ascii "129" ++ ascii ",")) := rfl
  obtain ⟨vj, hrun, hchars, hresult, -, -⟩ := ujson_parse_integer_wraps .int8 hchars
    (by decide) (by decide) (by decide) (by decide)
  refine ⟨vj, hrun, hchars, ?_⟩
  change IntType.int8.toInt (vj.result (8 * IntType.int8.bytes)) = 127
  rw [hresult]
  decide

/-- A number that does not fit is taken, and zero is stored for it. -/
theorem ujson_parse_integer_takes_256 : ∃ uj vj : Ujson, uj.chars = ascii "256" ∧
    signedValue false (ascii "256") = 256 ∧ ¬ IntType.uint8.Represents 256 ∧
      IntType.uint8.deserialize.run uj = .ok () vj ∧ vj.dest 0 = 0 := by
  refine ⟨⟨ascii "256", .resourceExhausted, none, [], fun _ => 1⟩, _, rfl, rfl, ?_, rfl, rfl⟩
  rintro ⟨v, hv⟩
  have : (v.toNat : ℤ) = 256 := hv
  have hlt : v.toNat < 2 ^ 8 := v.isLt
  omega

/-! ### Writing -/

/-- The numeral of a number. -/
def numeral (z : ℤ) : List Byte := (if z < 0 then [0x2d] else []) ++ Decimal.ofNat z.natAbs

theorem toNat_ten {w : ℕ} (hw : 4 ≤ w) : (10 : BitVec w).toNat = 10 :=
  Nat.mod_eq_of_lt (lt_of_lt_of_le (by decide : 10 < 2 ^ 4) (Nat.pow_le_pow_right (by decide) hw))

/-- One round of either loop: the last digit, in front of which the other ones are written. -/
theorem digits_round {w : ℕ} (hw : 4 ≤ w) (x : BitVec w) (tail : List Byte)
    (others : List Byte → List Byte)
    (h : x / 10 ≠ 0 → ∀ t, others t = Decimal.ofNat (x / 10).toNat ++ t) :
    (if x / 10 ≠ 0 then others ((0x30 + (x % 10).setWidth 8) :: tail)
      else (0x30 + (x % 10).setWidth 8) :: tail) = Decimal.ofNat x.toNat ++ tail := by
  have hdigit : 0x30 + (x % 10).setWidth 8 = Decimal.digitChar (x.toNat % 10) := by
    rw [Decimal.digitChar, ← BitVec.ofNat_toNat, BitVec.toNat_umod, toNat_ten hw]
  have hdiv : (x / 10).toNat = x.toNat / 10 := by rw [BitVec.toNat_udiv, toNat_ten hw]
  rw [hdigit]
  split_ifs with hx
  · have hpos : (x / 10).toNat ≠ 0 := fun h0 => hx (BitVec.eq_of_toNat_eq h0)
    rw [h hx, hdiv, Decimal.ofNat_eq_append (by omega : 10 ≤ x.toNat), List.append_assoc]
    rfl
  · have hzero : x.toNat / 10 = 0 := by rw [← hdiv, not_not.1 hx]; rfl
    rw [Decimal.ofNat_of_lt (by omega), Nat.mod_eq_of_lt (by omega)]
    rfl

theorem toNat_div_ten_lt {w : ℕ} (hw : 4 ≤ w) {x : BitVec w} {n : ℕ} (h : x.toNat < 10 ^ (n + 1)) :
    (x / 10).toNat < 10 ^ n := by
  rw [BitVec.toNat_udiv, toNat_ten hw]
  rw [pow_succ] at h
  omega

theorem serializeDigits64_eq {fuel : ℕ} {value : BitVec 64} (h : value.toNat < 10 ^ (fuel + 1))
    (tail : List Byte) :
    serializeDigits64 (fuel + 1) value tail = Decimal.ofNat value.toNat ++ tail := by
  induction fuel generalizing value tail with
  | zero =>
    rw [serializeDigits64, udiv64Slow_eq _ (by decide)]
    refine digits_round (by decide) value tail _ fun hx => absurd ?_ hx
    exact BitVec.eq_of_toNat_eq (Nat.lt_one_iff.1 (toNat_div_ten_lt (by decide) h))
  | succ fuel ih =>
    rw [serializeDigits64, udiv64Slow_eq _ (by decide)]
    exact digits_round (by decide) value tail _ fun _ => ih (toNat_div_ten_lt (by decide) h)

theorem serializeDigits32_eq {fuel : ℕ} {value : Word} (h : value.toNat < 10 ^ (fuel + 1))
    (tail : List Byte) :
    serializeDigits32 (fuel + 1) value tail = Decimal.ofNat value.toNat ++ tail := by
  induction fuel generalizing value tail with
  | zero =>
    refine digits_round (by decide) value tail _ fun hx => absurd ?_ hx
    exact BitVec.eq_of_toNat_eq (Nat.lt_one_iff.1 (toNat_div_ten_lt (by decide) h))
  | succ fuel ih =>
    exact digits_round (by decide) value tail _ fun _ => ih (toNat_div_ten_lt (by decide) h)

/-- The magnitude that is written for a value with its sign. -/
theorem numeral_toInt {w : ℕ} (value : BitVec w) : numeral value.toInt =
    (if value.msb then [0x2d] else []) ++
      Decimal.ofNat (if value.msb then ~~~value + 1 else value).toNat := by
  have hlt := value.isLt
  rw [numeral, BitVec.toInt_eq_msb_cond]
  cases hmsb : value.msb with
  | false =>
    rw [if_neg Bool.false_ne_true, if_neg (by omega), Int.natAbs_natCast,
      if_neg Bool.false_ne_true, if_neg Bool.false_ne_true]
  | true =>
    have hge := BitVec.msb_eq_true_iff_two_mul_ge.1 hmsb
    have hneg : (~~~value + 1).toNat = 2 ^ w - value.toNat := by
      rw [show ~~~value + 1 = -value from (BitVec.neg_eq_not_add value).symm, BitVec.toNat_neg]
      exact Nat.mod_eq_of_lt (by omega)
    rw [if_pos rfl, if_pos (by omega), if_pos rfl, if_pos rfl, hneg]
    congr 2
    omega

theorem numeral_natCast (n : ℕ) : numeral n = Decimal.ofNat n := by
  rw [numeral, if_neg (by omega), Int.natAbs_natCast, List.nil_append]

theorem run_ujsonSerializeInteger64 (uj : Ujson) (value : BitVec 64) (neg : Bool) :
    (ujsonSerializeInteger64 value neg).run uj = .ok () { uj with output := uj.output ++
      ((if neg then [0x2d] else []) ++
        Decimal.ofNat (if neg then ~~~value + 1 else value).toNat) } := by
  have hlt : ∀ x : BitVec 64, x.toNat < 10 ^ (23 + 1) := fun x => lt_trans x.isLt (by norm_num)
  rw [ujsonSerializeInteger64, serializeDigits64_eq (hlt _), List.append_nil]
  cases neg <;> rfl

theorem run_ujsonSerializeInteger32 (uj : Ujson) (value : Word) (neg : Bool) :
    (ujsonSerializeInteger32 value neg).run uj = .ok () { uj with output := uj.output ++
      ((if neg then [0x2d] else []) ++
        Decimal.ofNat (if neg then ~~~value + 1 else value).toNat) } := by
  have hlt : ∀ x : Word, x.toNat < 10 ^ (23 + 1) := fun x => lt_trans x.isLt (by norm_num)
  rw [ujsonSerializeInteger32, serializeDigits32_eq (hlt _), List.append_nil]
  cases neg <;> rfl

theorem serialize64_signed (uj : Ujson) (value : BitVec 64) :
    (ujsonSerializeInteger64 value value.msb).run uj =
      .ok () { uj with output := uj.output ++ numeral value.toInt } := by
  rw [run_ujsonSerializeInteger64, numeral_toInt]

theorem serialize64_unsigned (uj : Ujson) (value : BitVec 64) :
    (ujsonSerializeInteger64 value false).run uj =
      .ok () { uj with output := uj.output ++ numeral value.toNat } := by
  rw [run_ujsonSerializeInteger64, numeral_natCast]
  rfl

/-- A narrower value is extended. -/
theorem serialize32_signed (uj : Ujson) {w : ℕ} (hw : w ≤ 32) (value : BitVec w) :
    (ujsonSerializeInteger32 (value.signExtend 32) value.msb).run uj =
      .ok () { uj with output := uj.output ++ numeral value.toInt } := by
  have hint : (value.signExtend 32).toInt = value.toInt := BitVec.toInt_signExtend_of_le hw
  have hmsb : (value.signExtend 32).msb = value.msb := by
    rw [BitVec.msb_eq_toInt, BitVec.msb_eq_toInt, hint]
  rw [run_ujsonSerializeInteger32, ← hmsb, ← hint, numeral_toInt]

theorem serialize32_unsigned (uj : Ujson) {w : ℕ} (hw : w ≤ 32) (value : BitVec w) :
    (ujsonSerializeInteger32 (value.setWidth 32) false).run uj =
      .ok () { uj with output := uj.output ++ numeral value.toNat } := by
  rw [run_ujsonSerializeInteger32, numeral_natCast, if_neg Bool.false_ne_true,
    if_neg Bool.false_ne_true, BitVec.toNat_setWidth_of_le hw]
  rfl

theorem run_serialize (T : IntType) (v : T.Value) (uj : Ujson) : (T.serialize v).run uj =
    .ok () { uj with output := uj.output ++ numeral (T.toInt v) } := by
  have hsame : BitVec.signExtend 32 = (id : Word → Word) := funext fun x => BitVec.signExtend_eq x
  have hsame' : BitVec.setWidth 32 = (id : Word → Word) := funext fun x => BitVec.setWidth_eq x
  cases T with
  | uint64 => exact serialize64_unsigned uj v
  | uint32 => exact (congrFun hsame' v ▸ serialize32_unsigned uj le_rfl v :)
  | uint16 => exact serialize32_unsigned uj (by decide) v
  | uint8 => exact serialize32_unsigned uj (by decide) v
  | size => exact (congrFun hsame' v ▸ serialize32_unsigned uj le_rfl v :)
  | int64 => exact serialize64_signed uj v
  | int32 => exact (congrFun hsame v ▸ serialize32_signed uj le_rfl v :)
  | int16 => exact serialize32_signed uj (by decide) v
  | int8 => exact serialize32_signed uj (by decide) v

theorem signedValue_ofNat (z : ℤ) :
    signedValue (decide (z < 0)) (Decimal.ofNat z.natAbs) = z := by
  rw [signedValue, Decimal.value_ofNat]
  split_ifs with h
  · have := of_decide_eq_true h
    omega
  · have := of_decide_eq_false (Bool.eq_false_iff.2 h)
    omega

/-- What is written for a value of an integer type is read back as the value: exactly these
characters are taken, and the one behind them is put back. -/
theorem ujson_integer_round_trip (T : IntType) (v : T.Value) (out uj : Ujson) :
    ∃ text, (T.serialize v).run out = .ok () { out with output := out.output ++ text } ∧
      ∀ rest, uj.chars = text ++ rest → (∀ c ∈ rest.head?, isDigit c = false) →
        ∃ vj, T.deserialize.run uj = .ok () vj ∧ vj.buffer = rest.head? ∧ vj.input = rest.tail ∧
          vj.result (8 * T.bytes) = v ∧ ∀ i, T.bytes ≤ i → vj.dest i = uj.dest i := by
  refine ⟨numeral (T.toInt v), run_serialize T v out, fun rest hchars hrest => ?_⟩
  have hchars' : uj.chars = [] ++ ((if decide (T.toInt v < 0) then [0x2d] else []) ++
      (Decimal.ofNat (T.toInt v).natAbs ++ rest)) := by
    rw [hchars, numeral, List.append_assoc, List.nil_append]
    simp only [decide_eq_true_eq]
  obtain ⟨vj, hrun, hbuffer, hinput, hresult, hframe⟩ := run_deserialize T hchars'
    (fun _ h => absurd h List.not_mem_nil) (Decimal.ofNat_ne_nil _)
    (fun _ h => Decimal.isDigit_of_mem_ofNat h) hrest
  refine ⟨vj, hrun, hbuffer, hinput, ?_, hframe⟩
  rw [hresult, signedValue_ofNat, T.ofInt_toInt]

end SecureBoot
