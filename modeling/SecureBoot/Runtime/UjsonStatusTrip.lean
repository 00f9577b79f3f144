import SecureBoot.Runtime.UjsonStatus

/-! Status values written and read back. A reader is known by the characters that it takes, and by
those on which it stops with an error. -/

namespace SecureBoot

open Decimal (isDigit)

/-! ### Readers -/

variable {α β : Type}

/-- The reader takes `text` in front of `rest`. -/
def Takes (x : UjsonM α) (text rest : List Byte) (a : α) : Prop :=
  ∀ uj : Ujson, uj.chars = text ++ rest → ∃ vj, x.run uj = .ok a vj ∧ vj.chars = rest

def Fails (x : UjsonM α) (chars : List Byte) : Prop :=
  ∀ uj : Ujson, uj.chars = chars → ∃ e vj, x.run uj = .error e vj

variable {x : UjsonM α} {f : α → UjsonM β} {a : α} {b : β} {t u chars rest : List Byte}

theorem Takes.pure (a : α) (rest : List Byte) : Takes (pure a) [] rest a := fun uj h => ⟨uj, rfl, h⟩

theorem Takes.bind (hx : Takes x t (u ++ rest) a) (hf : Takes (f a) u rest b) :
    Takes (x >>= f) (t ++ u) rest b := by
  intro uj h
  rw [List.append_assoc] at h
  obtain ⟨vj, hrun, hvj⟩ := hx uj h
  obtain ⟨wj, hrun', hwj⟩ := hf vj hvj
  exact ⟨wj, by rw [EStateM.run_bind, hrun]; exact hrun', hwj⟩

theorem Takes.bind_fails (hx : Takes x t rest a) (hf : Fails (f a) rest) :
    Fails (x >>= f) (t ++ rest) := by
  intro uj h
  obtain ⟨vj, hrun, hvj⟩ := hx uj h
  obtain ⟨e, wj, hrun'⟩ := hf vj hvj
  exact ⟨e, wj, by rw [EStateM.run_bind, hrun]; exact hrun'⟩

theorem Fails.bind (hx : Fails x chars) (f : α → UjsonM β) : Fails (x >>= f) chars := by
  intro uj h
  obtain ⟨e, vj, hrun⟩ := hx uj h
  exact ⟨e, vj, by rw [EStateM.run_bind, hrun]⟩

theorem fails_throw (e : UjsonError) (chars : List Byte) : Fails (throw e : UjsonM α) chars :=
  fun uj _ => ⟨e, uj, rfl⟩

theorem run_storing {dest : ℕ → Byte} {uj vj : Ujson}
    (h : x.run { uj with dest := dest } = .ok a vj) :
    (storing dest x).run uj = .ok vj.dest { vj with dest := uj.dest } := by
  rw [EStateM.run] at h ⊢
  rw [storing, h]

theorem Fails.storing (hx : Fails x chars) (dest : ℕ → Byte) : Fails (storing dest x) chars := by
  intro uj h
  obtain ⟨e, vj, hrun⟩ := hx { uj with dest := dest } h
  rw [EStateM.run] at hrun
  exact ⟨e, { vj with dest := uj.dest }, by rw [EStateM.run, SecureBoot.storing, hrun]⟩

theorem reads_consume {ch : Byte} (hch : isSpace ch = false) (rest : List Byte) :
    Takes (ujsonConsume ch) [ch] rest () :=
  fun _ h => ⟨_, run_ujsonConsume h hch, Ujson.chars_at _ _⟩

theorem run_consumeWhitespace_cons {uj : Ujson} {ch : Byte} (hch : isSpace ch = false)
    (h : uj.chars = ch :: rest) : consumeWhitespace.run uj = .ok ch (uj.at rest) :=
  run_consumeWhitespace (show uj.chars = [] ++ ch :: rest from h)
    (fun _ hc => absurd hc List.not_mem_nil) hch

theorem run_ujsonConsumeMaybe_self {uj : Ujson} {ch : Byte} (hch : isSpace ch = false)
    (h : uj.chars = ch :: rest) : (ujsonConsumeMaybe ch).run uj = .ok true (uj.at rest) := by
  rw [ujsonConsumeMaybe, EStateM.run_bind, run_consumeWhitespace_cons hch h]
  simp only [ne_eq, not_true_eq_false, if_false]
  rfl

theorem reads_consumeMaybe_self {ch : Byte} (hch : isSpace ch = false) (rest : List Byte) :
    Takes (ujsonConsumeMaybe ch) [ch] rest true :=
  fun _ h => ⟨_, run_ujsonConsumeMaybe_self hch h, Ujson.chars_at _ _⟩

/-- Another character is put back. -/
theorem reads_consumeMaybe_other {ch c : Byte} (hne : ch ≠ c) (hc : isSpace c = false)
    (rest : List Byte) : Takes (ujsonConsumeMaybe ch) [] (c :: rest) false := by
  intro uj h
  refine ⟨{ uj.at rest with buffer := some c }, ?_, rfl⟩
  rw [ujsonConsumeMaybe, EStateM.run_bind, run_consumeWhitespace_cons hc h]
  simp only [ne_eq, hne, not_false_eq_true, if_true]
  rfl

/-! ### Strings -/

/-- A variable that a string was stored in. -/
def stringDest (stack : ℕ → Byte) (s : List Byte) : ℕ → Byte := fun i =>
  if i < s.length + 1 then (s ++ [0]).getD i 0 else stack i

theorem reads_string (stack : ℕ → Byte) {s : List Byte} {len : Word} (hlen : s.length < len.toNat)
    (rest : List Byte) :
    Takes (storing stack (ujsonParseQs len)) (quoted s) rest (stringDest stack s) := by
  intro uj h
  have hchars : Ujson.chars { uj with dest := stack } = quoted s ++ rest := h
  have hrun := run_storing (run_ujsonParseQs hchars hlen)
  have hdest : (Ujson.storeAll { uj with dest := stack } 0 (s ++ [0])).dest =
      stringDest stack s := by
    funext i
    rw [Ujson.dest_storeAll, stringDest, List.length_append]
    exact if_congr (by simp only [List.length_singleton]; omega) rfl rfl
  exact ⟨_, hrun.trans (congrArg (EStateM.Result.ok · _) hdest), rfl⟩

theorem ujsonStreq_eq {a : ℕ → Byte} {s t : List Byte} (hs : 0 ∉ s) (ht : 0 ∉ t)
    (h : ∀ i ≤ s.length, a i = (s ++ [0]).getD i 0) : ujsonStreq a t = (s == t) := by
  have h0 := h 0 (Nat.zero_le _)
  induction t generalizing a s with
  | nil =>
    rw [ujsonStreq, h0]
    cases s with
    | nil => rfl
    | cons d s =>
      rw [List.mem_cons, not_or] at hs
      exact beq_eq_false_iff_ne.2 (Ne.symm hs.1)
  | cons c t ih =>
    rw [List.mem_cons, not_or] at ht
    rw [ujsonStreq, h0]
    cases s with
    | nil => exact (if_neg fun hc => hc.1 rfl).trans (beq_eq_false_iff_ne.2 ht.1)
    | cons d s =>
      rw [List.mem_cons, not_or] at hs
      change (if d ≠ 0 ∧ c ≠ 0 ∧ d = c then _ else d == c) = (d :: s == c :: t)
      by_cases hdc : d = c
      · rw [if_pos ⟨Ne.symm hs.1, Ne.symm ht.1, hdc⟩, hdc]
        have hnext (i : ℕ) (hi : i ≤ s.length) : a (i + 1) = (s ++ [0]).getD i 0 :=
          h (i + 1) (Nat.succ_le_succ hi)
        rw [ih hs.2 ht.2 hnext (hnext 0 (Nat.zero_le _)), List.cons_beq_cons, beq_self_eq_true,
          Bool.true_and]
      · rw [if_neg fun hc => hdc hc.2.2, List.cons_beq_cons, beq_eq_false_iff_ne.2 hdc,
          Bool.false_and]

theorem ujsonStreq_stringDest (stack : ℕ → Byte) {s t : List Byte} (hs : 0 ∉ s) (ht : 0 ∉ t) :
    ujsonStreq (stringDest stack s) t = (s == t) :=
  ujsonStreq_eq hs ht fun _ hi => if_pos (Nat.lt_succ_of_le hi)

/-! ### Integers -/

theorem reads_readWord (dest : ℕ → Byte) (n : ℕ) {c : Byte} (hc : isDigit c = false)
    (rest : List Byte) :
    Takes (readWord dest) (Decimal.ofNat n) (c :: rest) (BitVec.ofNat 32 n) := by
  intro uj h
  have hrest : ∀ d ∈ (c :: rest).head?, isDigit d = false := by
    rintro d ⟨⟩
    exact hc
  have hchars : Ujson.chars { uj with dest := dest } =
      [] ++ ((if false then [0x2d] else []) ++ (Decimal.ofNat n ++ c :: rest)) := h
  obtain ⟨vj, hrun, hbuffer, hinput, hresult, -⟩ := run_deserialize .uint32 hchars
    (fun _ h => absurd h List.not_mem_nil) (Decimal.ofNat_ne_nil n)
    (fun _ h => Decimal.isDigit_of_mem_ofNat h) hrest
  refine ⟨{ vj with dest := uj.dest }, ?_, ?_⟩
  · have hstored : (storing dest ujsonDeserializeUint32T).run uj = _ := run_storing hrun
    rw [readWord, EStateM.run_bind, hstored]
    refine congrArg (EStateM.Result.ok · _) (hresult.trans ?_)
    rw [signedValue, if_neg Bool.false_ne_true, Decimal.value_ofNat]
    exact BitVec.ofInt_natCast _ _
  · rw [Ujson.chars, hbuffer, hinput]
    rfl

/-! ### Names of codes -/

theorem findIdx?_congr {l : List α} {p q : α → Bool} (h : ∀ a ∈ l, p a = q a) :
    l.findIdx? p = l.findIdx? q := by
  induction l with
  | nil => rfl
  | cons a l ih =>
    obtain ⟨ha, hl⟩ := List.forall_mem_cons.1 h
    rw [List.findIdx?_cons, List.findIdx?_cons, ha, ih hl]

/-- A character that is printed as it is. -/
def isPlain (b : Byte) : Bool :=
  decide (0x20 ≤ b) && decide (b < 0x7f) && (b != 0x22) && (b != 0x5c)

theorem plain_byte : ∀ b : Byte, isPlain b = true → escapeChar b = [b] ∧
    ' ' ≤ Char.ofNat b.toNat ∧ Char.ofNat b.toNat ≠ '"' ∧ Char.ofNat b.toNat ≠ '\\' := by
  decide +kernel

theorem escapeChar_of_isPlain {b : Byte} (h : isPlain b = true) : escapeChar b = [b] :=
  (plain_byte b h).1

theorem quoted_of_isPlain {s : List Byte} (h : s.all isPlain = true) :
    quoted s = 0x22 :: (s ++ [0x22]) := by
  have hflat : s.flatMap escapeChar = s := by
    induction s with
    | nil => rfl
    | cons b s ih =>
      rw [List.all_cons, Bool.and_eq_true] at h
      rw [List.flatMap_cons, escapeChar_of_isPlain h.1, ih h.2]
      rfl
  rw [quoted, hflat]
  rfl

theorem zero_notMem_of_isPlain {s : List Byte} (h : s.all isPlain = true) : 0 ∉ s := fun h0 =>
  Bool.false_ne_true (List.all_eq_true.1 h 0 h0)

/-- The names are plain and short, and the deserializer knows the first of them only. -/
theorem status_names :
    (statusCodes.all fun t => t.all isPlain && decide (t.length < 128)) = true ∧
    (privateStatusNames.all fun t => t.all isPlain) = true ∧
    ((List.range 33).all fun k => privateStatusNames.findIdx? (statusCodes.getD k [] == ·) ==
      if k < 17 then some k else none) = true := by
  decide +kernel

theorem mem_statusCodes {k : ℕ} (hk : k < 33) : statusCodes.getD k [] ∈ statusCodes := by
  rw [List.getD_eq_getElem _ _ hk]
  exact List.getElem_mem _

theorem isPlain_statusCodes {k : ℕ} (hk : k < 33) : (statusCodes.getD k []).all isPlain = true :=
  (Bool.and_eq_true_iff.1 (List.all_eq_true.1 status_names.1 _ (mem_statusCodes hk))).1

theorem length_statusCodes_lt {k : ℕ} (hk : k < 33) : (statusCodes.getD k []).length < 128 :=
  of_decide_eq_true (Bool.and_eq_true_iff.1
    (List.all_eq_true.1 status_names.1 _ (mem_statusCodes hk))).2

theorem findIdx?_statusCodes {k : ℕ} (hk : k < 33) :
    privateStatusNames.findIdx? (statusCodes.getD k [] == ·) = if k < 17 then some k else none :=
  eq_of_beq (List.all_eq_true.1 status_names.2.2 k (List.mem_range.2 hk))

theorem zero_notMem_privateStatusNames {t : List Byte} (ht : t ∈ privateStatusNames) : 0 ∉ t :=
  zero_notMem_of_isPlain (List.all_eq_true.1 status_names.2.1 t ht)

theorem findIdx?_stringDest (stack : ℕ → Byte) {k : ℕ} (hk : k < 33) :
    privateStatusNames.findIdx? (ujsonStreq (stringDest stack (statusCodes.getD k []))) =
      if k < 17 then some k else none := by
  rw [← findIdx?_statusCodes hk]
  exact findIdx?_congr fun t ht => ujsonStreq_stringDest stack
    (zero_notMem_of_isPlain (isPlain_statusCodes hk)) (zero_notMem_privateStatusNames ht)

/-- The name of a code is looked at, put back and read as a string. -/
theorem run_privateStatus {stack : ℕ → Byte} {uj : Ujson} {chars : List Byte}
    (h : uj.chars = 0x22 :: chars) :
    (ujsonDeserializePrivateStatusT stack).run uj = (do
      let value ← storing stack (ujsonParseQs 128)
      match privateStatusNames.findIdx? (ujsonStreq value) with
      | some code => return .ofNat 32 code
      | none => throw (.status .invalidArgument) : UjsonM Word).run
        { uj.at chars with buffer := some 0x22 } := by
  rw [ujsonDeserializePrivateStatusT, EStateM.run_bind, run_ujsonConsumeMaybe_self (by decide) h]
  rfl

theorem reads_privateStatus (stack : ℕ → Byte) {k : ℕ} (hk : k < 17) (rest : List Byte) :
    Takes (ujsonDeserializePrivateStatusT stack) (0x22 :: (statusCodes.getD k [] ++ [0x22])) rest
      (.ofNat 32 k) := by
  have hk' : k < 33 := hk.trans (by decide)
  intro uj h
  rw [run_privateStatus h]
  have hlen : _ < (128 : Word).toNat := length_statusCodes_lt hk'
  have hread := reads_string stack hlen rest
  rw [quoted_of_isPlain (isPlain_statusCodes hk')] at hread
  obtain ⟨vj, hrun, hvj⟩ := hread { uj.at _ with buffer := some 0x22 } rfl
  refine ⟨vj, ?_, hvj⟩
  rw [EStateM.run_bind, hrun]
  simp only [findIdx?_stringDest stack hk', if_pos hk]
  rfl

theorem fails_privateStatus (stack : ℕ → Byte) {k : ℕ} (hk : 17 ≤ k) (hk' : k < 33)
    (rest : List Byte) :
    Fails (ujsonDeserializePrivateStatusT stack)
      (0x22 :: (statusCodes.getD k [] ++ [0x22]) ++ rest) := by
  intro uj h
  rw [run_privateStatus h]
  have hlen : _ < (128 : Word).toNat := length_statusCodes_lt hk'
  have hread := reads_string stack hlen rest
  rw [quoted_of_isPlain (isPlain_statusCodes hk')] at hread
  obtain ⟨vj, hrun, hvj⟩ := hread { uj.at _ with buffer := some 0x22 } rfl
  refine ⟨.status .invalidArgument, vj, ?_⟩
  rw [EStateM.run_bind, hrun]
  simp only [findIdx?_stringDest stack hk', if_neg (Nat.not_lt.2 hk)]
  rfl

/-! ### Fields -/

/-- The letter that a part of a module identifier stands for. -/
def letter (x : BitVec 5) : Byte := 0x40 + x.setWidth 8

/-- A module identifier in its place. -/
def packModule (a b c : BitVec 5) : Word :=
  (a.setWidth 32 <<< 16) ||| (b.setWidth 32 <<< 21) ||| (c.setWidth 32 <<< 26)

/-- An error with the letters of its module, its argument and its code. -/
def errorStatus (a b c : BitVec 5) (arg : BitVec 11) (code : BitVec 5) : Word :=
  packModule a b c ||| 0x80000000 ||| code.setWidth 32 ||| arg.setWidth 32 <<< 5

theorem ascii5Bit_letter (x : BitVec 5) : ascii5Bit (letter x) = x.setWidth 32 := by
  revert x
  decide

theorem makeModuleId_letters (a b c : BitVec 5) :
    makeModuleId (letter a) (letter b) (letter c) = packModule a b c := by
  simp only [makeModuleId, ascii5Bit_letter, packModule]

/-- The terminator in the place of the last letter. -/
theorem makeModuleId_short (a b : BitVec 5) :
    makeModuleId (letter a) (letter b) 0 = packModule a b 31 := by
  simp only [makeModuleId, ascii5Bit_letter, packModule]
  rfl

section Fields

variable (a b c code : BitVec 5) (arg : BitVec 11)

theorem getLsbD_errorStatus {i : ℕ} (hi : i < 32) :
    (errorStatus a b c arg code).getLsbD i =
      (((((decide (16 ≤ i) && a.getLsbD (i - 16)) || (decide (21 ≤ i) && b.getLsbD (i - 21))) ||
        (decide (26 ≤ i) && c.getLsbD (i - 26))) || decide (i = 31)) || code.getLsbD i ||
          (decide (5 ≤ i) && arg.getLsbD (i - 5))) := by
  simp only [errorStatus, packModule, BitVec.getLsbD_or, BitVec.getLsbD_shiftLeft,
    BitVec.getLsbD_setWidth, hi, decide_true, Bool.true_and]
  interval_cases i <;> simp

/-- Every error is made of such parts. -/
theorem exists_errorStatus {s : Word} (h : s.msb = true) :
    ∃ a b c code arg, s = errorStatus a b c arg code := by
  have h31 : s.getLsbD 31 = true := h
  refine ⟨s.extractLsb' 16 5, s.extractLsb' 21 5, s.extractLsb' 26 5, s.extractLsb' 0 5,
    s.extractLsb' 5 11, BitVec.eq_of_getLsbD_eq fun i hi => ?_⟩
  rw [getLsbD_errorStatus _ _ _ _ _ hi]
  simp only [BitVec.getLsbD_extractLsb']
  interval_cases i <;> simp [h31]

theorem msb_errorStatus : (errorStatus a b c arg code).msb = true := by
  have h := getLsbD_errorStatus a b c code arg (i := 31) (by decide)
  rw [BitVec.msb_eq_getLsbD_last, h]
  simp

theorem extract_eq {s : Word} {lo n : ℕ} {v : BitVec n}
    (h : ∀ i < n, s.getLsbD (lo + i) = v.getLsbD i) : s.extractLsb' lo n = v := by
  refine BitVec.eq_of_getLsbD_eq fun i hi => ?_
  rw [BitVec.getLsbD_extractLsb', h i hi, decide_eq_true hi, Bool.true_and]

theorem extract_first : (errorStatus a b c arg code).extractLsb' 16 5 = a := by
  refine extract_eq fun i hi => ?_
  rw [getLsbD_errorStatus _ _ _ _ _ (by omega)]
  interval_cases i <;> simp

theorem extract_second : (errorStatus a b c arg code).extractLsb' 21 5 = b := by
  refine extract_eq fun i hi => ?_
  rw [getLsbD_errorStatus _ _ _ _ _ (by omega)]
  interval_cases i <;> simp

theorem extract_third : (errorStatus a b c arg code).extractLsb' 26 5 = c := by
  refine extract_eq fun i hi => ?_
  rw [getLsbD_errorStatus _ _ _ _ _ (by omega)]
  interval_cases i <;> simp

theorem extract_code : (errorStatus a b c arg code).extractLsb' 0 5 = code := by
  refine extract_eq fun i hi => ?_
  rw [getLsbD_errorStatus _ _ _ _ _ (by omega)]
  interval_cases i <;> simp

theorem extract_arg : (errorStatus a b c arg code).extractLsb' 5 11 = arg := by
  refine extract_eq fun i hi => ?_
  rw [getLsbD_errorStatus _ _ _ _ _ (by omega)]
  interval_cases i <;> simp

/-- A read of a field of `n` bits. -/
theorem read_eq_extract (s : Word) {n index : ℕ} (mask : Word)
    (hmask : ∀ i < 32, mask.getLsbD i = decide (i < n)) :
    bitfieldField32Read s ⟨mask, index⟩ = (s.extractLsb' index n).setWidth 32 := by
  refine BitVec.eq_of_getLsbD_eq fun i hi => ?_
  simp only [bitfieldField32Read, BitVec.getLsbD_and, BitVec.getLsbD_ushiftRight, hmask i hi,
    BitVec.getLsbD_setWidth, BitVec.getLsbD_extractLsb', hi, decide_true, Bool.true_and,
    Bool.and_comm]

theorem read_code (s : Word) :
    bitfieldField32Read s kStatusFieldCode = (s.extractLsb' 0 5).setWidth 32 :=
  read_eq_extract s 0x1f (by decide)

theorem read_arg (s : Word) :
    bitfieldField32Read s kStatusFieldArg = (s.extractLsb' 5 11).setWidth 32 :=
  read_eq_extract s 0x7ff (by decide)

theorem read_letter (s : Word) (k : ℕ) (hk : k < 3) :
    ((bitfieldField32Read s kStatusFieldModuleId >>> (5 * k)) &&& 0x1f).setWidth 8 =
      (s.extractLsb' (16 + 5 * k) 5).setWidth 8 := by
  rw [read_eq_extract s 0x7fff (n := 15) (by decide)]
  refine BitVec.eq_of_getLsbD_eq fun i hi => ?_
  interval_cases k <;> interval_cases i <;> simp

theorem read_code_errorStatus :
    bitfieldField32Read (errorStatus a b c arg code) kStatusFieldCode = code.setWidth 32 := by
  rw [read_code, extract_code]

/-- The index of the name of a code in the table. -/
def nameIndex (code : BitVec 5) : ℕ := if code = 0 then 32 else code.toNat

theorem nameIndex_lt : nameIndex code < 33 := by
  unfold nameIndex
  split_ifs
  · decide
  · exact Nat.lt_trans code.isLt (by decide)

theorem nameIndex_ne_zero : nameIndex code ≠ 0 := by
  unfold nameIndex
  split_ifs with h
  · decide
  · exact fun h0 => h (BitVec.eq_of_toNat_eq h0)

theorem setWidth_code_eq_zero_iff : code.setWidth 32 = 0 ↔ code = 0 := by
  revert code
  decide

theorem statusExtract_errorStatus :
    statusExtract (errorStatus a b c arg code) =
      ⟨true, statusCodes.getD (nameIndex code) [], arg.setWidth 32,
        [letter a, letter b, letter c]⟩ := by
  have herr : statusErr (errorStatus a b c arg code) = code.setWidth 32 := by
    rw [statusErr, if_pos (msb_errorStatus ..), read_code_errorStatus]
  have hindex : (if (errorStatus a b c arg code).msb && (code.setWidth 32 : Word) == 0 then
      statusCodes.length - 1 else (code.setWidth 32 : Word).toNat) = nameIndex code := by
    rw [msb_errorStatus, Bool.true_and, nameIndex]
    refine if_congr (beq_iff_eq.trans (setWidth_code_eq_zero_iff code)) rfl ?_
    exact BitVec.toNat_setWidth_of_le (by decide)
  have hfirst := read_letter (errorStatus a b c arg code) 0 (by decide)
  have hsecond := read_letter (errorStatus a b c arg code) 1 (by decide)
  have hthird := read_letter (errorStatus a b c arg code) 2 (by decide)
  simp only [Nat.mul_zero, Nat.add_zero, extract_first] at hfirst
  simp only [Nat.mul_one, Nat.reduceAdd, extract_second] at hsecond
  simp only [Nat.reduceMul, Nat.reduceAdd, extract_third] at hthird
  simp only [statusExtract, herr, hindex, ne_eq, nameIndex_ne_zero, not_false_eq_true, if_true,
    read_arg, extract_arg, hfirst, hsecond, hthird, letter]
  rfl

theorem statusExtract_ok {s : Word} (h : s.msb = false) :
    statusExtract s = ⟨false, ascii "Ok", s, []⟩ := by
  simp only [statusExtract, statusErr, h, Bool.false_eq_true, if_false, Bool.false_and]
  rfl

theorem bitfieldField32Write_zero (v : Word) (field : BitfieldField32) :
    bitfieldField32Write 0 field v = (v &&& field.mask) <<< field.index := by
  simp [bitfieldField32Write]

theorem statusCreate_error (hcode : code ≠ 0) {file : List Byte} :
    statusCreate (code.setWidth 32) (packModule a b c) file (arg.setWidth 32) =
      if packModule a b c = 0 then
        makeModuleId ((basename file).getD 0 0) ((basename file).getD 1 0)
          ((basename file).getD 2 0) ||| 0x80000000 ||| code.setWidth 32 ||| arg.setWidth 32 <<< 5
      else errorStatus a b c arg code := by
  have hne : code.setWidth 32 ≠ 0 := fun h => hcode ((setWidth_code_eq_zero_iff code).1 h)
  have hmask : (code.setWidth 32 &&& 0x1f : Word) = code.setWidth 32 := by
    clear hne hcode
    revert code
    decide
  have hargmask : (arg.setWidth 32 &&& 0x7ff : Word) = arg.setWidth 32 := by
    refine BitVec.eq_of_getLsbD_eq fun i hi => ?_
    interval_cases i <;> simp
  have hbit : bitfieldBit32Write 0 31 true = 0x80000000 := by decide
  rw [statusCreate, if_neg fun h => hne h.1]
  simp only [hne, if_false, bitfieldField32Write_zero, hmask, hargmask, hbit, BitVec.shiftLeft_zero]
  split_ifs <;> rfl

end Fields

/-! ### Modules -/

/-- The part of a letter that is the backslash. -/
abbrev kBackslash : BitVec 5 := 28

theorem letter_kBackslash : letter kBackslash = 0x5c := rfl

theorem letter_ne (x : BitVec 5) : letter x ≠ 0x22 ∧ letter x ≠ 0 := by
  revert x
  decide

theorem letter_ne_backslash {x : BitVec 5} (h : x ≠ kBackslash) : letter x ≠ 0x5c := by
  revert x
  decide

theorem isPlain_letter {x : BitVec 5} (h : x ≠ kBackslash) : isPlain (letter x) = true := by
  revert x
  decide

theorem isPlain_letters {a b c : BitVec 5} (ha : a ≠ kBackslash) (hb : b ≠ kBackslash)
    (hc : c ≠ kBackslash) : [letter a, letter b, letter c].all isPlain = true := by
  simp only [List.all_cons, isPlain_letter ha, isPlain_letter hb, isPlain_letter hc, List.all_nil,
    Bool.and_true]

/-- A backslash in front of another letter is no escape. -/
theorem run_unescape_letter {x : BitVec 5} (h : x ≠ kBackslash) (uj : Ujson) :
    (unescape (letter x)).run uj = .error (.status .outOfRange) uj := by
  have hno : ¬ (letter x = 0x22 ∨ letter x = 0x5c ∨ letter x = 0x2f) ∧ letter x ≠ 0x62 ∧
      letter x ≠ 0x66 ∧ letter x ≠ 0x6e ∧ letter x ≠ 0x72 ∧ letter x ≠ 0x74 ∧ letter x ≠ 0x75 := by
    revert x
    decide
  simp only [unescape, hno, if_false]
  rfl

/-- The module and the argument of an error, as they are written. -/
def partsText (a b c : BitVec 5) (n : ℕ) : List Byte :=
  0x22 :: letter a :: letter b :: letter c :: 0x22 :: 0x2c :: (Decimal.ofNat n ++ [0x5d])

theorem reads_parts (stack : ℕ → Byte) {s : List Byte} (hs : s.length < 4) (n : ℕ)
    (rest : List Byte) :
    Takes (deserializeErrorParts stack)
      (quoted s ++ ([0x2c] ++ (Decimal.ofNat n ++ ([0x5d] ++ [])))) rest
      (makeModuleId (stringDest stack s 0) (stringDest stack s 1) (stringDest stack s 2),
        .ofNat 32 n) := by
  refine (reads_string stack hs _).bind ?_
  refine (reads_consume (by decide) _).bind ?_
  refine (reads_readWord _ n (by decide) _).bind ?_
  exact (reads_consume (by decide) _).bind (.pure _ _)

section Modules

variable {a b c : BitVec 5} (n : ℕ) (stack : ℕ → Byte)

theorem reads_letters (ha : a ≠ kBackslash) (hb : b ≠ kBackslash) (hc : c ≠ kBackslash)
    (rest : List Byte) :
    Takes (deserializeErrorParts stack) (partsText a b c n) rest
      (packModule a b c, .ofNat 32 n) := by
  have h := reads_parts stack (s := [letter a, letter b, letter c])
    (by simp only [List.length_cons, List.length_nil]; decide) n rest
  rw [quoted_of_isPlain (isPlain_letters ha hb hc)] at h
  rw [← makeModuleId_letters]
  exact h

/-- Two backslashes are read as one, in front of another letter. -/
theorem reads_backslashes_first (hc : c ≠ kBackslash) (rest : List Byte) :
    Takes (deserializeErrorParts stack) (partsText kBackslash kBackslash c n) rest
      (packModule kBackslash c 31, .ofNat 32 n) := by
  have h := reads_parts stack (s := [letter kBackslash, letter c])
    (by simp only [List.length_cons, List.length_nil]; decide) n rest
  have hquoted : quoted [letter kBackslash, letter c] =
      [0x22, letter kBackslash, letter kBackslash, letter c, 0x22] := by
    simp only [quoted, List.flatMap_cons, List.flatMap_nil,
      escapeChar_of_isPlain (isPlain_letter hc)]
    rfl
  rw [hquoted] at h
  rw [← makeModuleId_short]
  exact h

theorem reads_backslashes_last (ha : a ≠ kBackslash) (rest : List Byte) :
    Takes (deserializeErrorParts stack) (partsText a kBackslash kBackslash n) rest
      (packModule a kBackslash 31, .ofNat 32 n) := by
  have h := reads_parts stack (s := [letter a, letter kBackslash])
    (by simp only [List.length_cons, List.length_nil]; decide) n rest
  have hquoted : quoted [letter a, letter kBackslash] =
      [0x22, letter a, letter kBackslash, letter kBackslash, 0x22] := by
    simp only [quoted, List.flatMap_cons, List.flatMap_nil,
      escapeChar_of_isPlain (isPlain_letter ha)]
    rfl
  rw [hquoted] at h
  rw [← makeModuleId_short]
  exact h

end Modules

/-! ### Strings that do not end -/

/-- The loop over a string stops with an error, whatever it has room for. -/
def LoopFails (chars : List Byte) : Prop := ∀ fuel len n, Fails (parseQsLoop fuel len n) chars

theorem LoopFails.escape {ch : Byte} {cs : List Byte} (hcs : Escapes ch cs)
    (h : LoopFails rest) : LoopFails (cs ++ rest) := by
  intro fuel len n uj huj
  cases fuel with
  | zero => exact fails_throw _ _ uj huj
  | succ fuel =>
    rw [run_parseQsLoop_round hcs huj]
    split_ifs
    · exact h fuel (len - 1) (n + 1) ((uj.at rest).store n ch) rfl
    · exact h fuel len n (uj.at rest) rfl

theorem LoopFails.plain {c : Byte} (h : LoopFails rest) (hquote : c ≠ 0x22) (hslash : c ≠ 0x5c) :
    LoopFails (c :: rest) :=
  h.escape (.plain hquote hslash)

theorem loopFails_nil : LoopFails [] := by
  intro fuel len n uj huj
  cases fuel with
  | zero => exact fails_throw _ _ uj huj
  | succ fuel =>
    refine ⟨.status uj.endStatus, uj, ?_⟩
    rw [parseQsLoop, EStateM.run_bind, run_tryGetc_nil huj]

theorem loopFails_of_plain {chars : List Byte} (h : ∀ c ∈ chars, c ≠ 0x22 ∧ c ≠ 0x5c) :
    LoopFails chars := by
  induction chars with
  | nil => exact loopFails_nil
  | cons c chars ih =>
    obtain ⟨⟨hquote, hslash⟩, hrest⟩ := List.forall_mem_cons.1 h
    exact (ih hrest).plain hquote hslash

theorem loopFails_backslash_letter {x : BitVec 5} (h : x ≠ kBackslash) (rest : List Byte) :
    LoopFails (0x5c :: letter x :: rest) := by
  intro fuel len n uj huj
  cases fuel with
  | zero => exact fails_throw _ _ uj huj
  | succ fuel =>
    refine ⟨.status .outOfRange, uj.at rest, ?_⟩
    rw [parseQsLoop, run_tryGetc_bind huj, if_neg (by decide), if_pos rfl,
      run_tryGetc_bind (uj.chars_at _), EStateM.run_bind, run_unescape_letter h]
    rfl

theorem escapes_backslash : Escapes 0x5c [0x5c, 0x5c] := .named 0x5c fun _ => rfl

theorem escapes_quote : Escapes 0x22 [0x5c, 0x22] := .named 0x22 fun _ => rfl

/-- Behind an escaped quote there is no other one. -/
theorem loopFails_escaped_quote (n : ℕ) :
    LoopFails (0x5c :: 0x22 :: 0x2c :: (Decimal.ofNat n ++ [0x5d] ++ [0x7d])) := by
  show LoopFails ([0x5c, 0x22] ++ 0x2c :: (Decimal.ofNat n ++ [0x5d] ++ [0x7d]))
  apply LoopFails.escape escapes_quote
  apply loopFails_of_plain
  intro c hc
  simp only [List.mem_cons, List.mem_append, List.mem_nil_iff, or_false] at hc
  rcases hc with rfl | (hc | rfl) | rfl
  · decide
  · have hdigit := Decimal.isDigit_of_mem_ofNat hc
    constructor <;> rintro rfl <;> cases hdigit
  · decide
  · decide

theorem LoopFails.parts {chars : List Byte} (h : LoopFails chars) (stack : ℕ → Byte) :
    Fails (deserializeErrorParts stack) (0x22 :: chars) := by
  have hparse : Fails (ujsonParseQs 4) (0x22 :: chars) := by
    intro uj huj
    rw [ujsonParseQs, EStateM.run_bind, run_ujsonConsume huj (by decide)]
    exact h _ _ _ _ (Ujson.chars_at _ _)
  exact (hparse.storing stack).bind _

/-- A module with a backslash is read as another one, or not at all. -/
theorem parts_of_backslash {a b c : BitVec 5} (n : ℕ)
    (h : a = kBackslash ∨ b = kBackslash ∨ c = kBackslash) :
    (∃ x y, (x, y, 31) ≠ (a, b, c) ∧ ∀ stack rest, Takes (deserializeErrorParts stack)
      (partsText a b c n) rest (packModule x y 31, .ofNat 32 n)) ∨
    ∀ stack, Fails (deserializeErrorParts stack) (partsText a b c n ++ [0x7d]) := by
  by_cases ha : a = kBackslash <;> by_cases hb : b = kBackslash <;> by_cases hc : c = kBackslash
  · subst ha hb hc
    exact .inr fun stack => ((loopFails_escaped_quote n).escape escapes_backslash).parts stack
  · subst ha hb
    refine .inl ⟨kBackslash, c, ?_, fun stack rest => reads_backslashes_first n stack hc rest⟩
    simp only [ne_eq, Prod.mk.injEq, not_and]
    exact fun _ h => absurd h hc
  · subst ha
    exact .inr fun stack => (loopFails_backslash_letter hb _).parts stack
  · subst ha
    exact .inr fun stack => (loopFails_backslash_letter hb _).parts stack
  · subst hb hc
    refine .inl ⟨a, kBackslash, ?_, fun stack rest => reads_backslashes_last n stack ha rest⟩
    simp
  · subst hb
    exact .inr fun stack => ((loopFails_backslash_letter hc _).plain (letter_ne a).1
      (letter_ne_backslash ha)).parts stack
  · subst hc
    exact .inr fun stack => (((loopFails_escaped_quote n).plain (letter_ne b).1
      (letter_ne_backslash hb)).plain (letter_ne a).1 (letter_ne_backslash ha)).parts stack
  · exact absurd h (not_or.2 ⟨ha, not_or.2 ⟨hb, hc⟩⟩)

/-! ### Whole status values -/

section Whole

variable (a b c code : BitVec 5) (arg : BitVec 11) (stack : ℕ → Byte)

/-- The name of a code, between quotes. -/
def nameText (k : ℕ) : List Byte := 0x22 :: (statusCodes.getD k [] ++ [0x22])

theorem statusText_error :
    statusText (errorStatus a b c arg code) = [0x7b] ++ (nameText (nameIndex code) ++ ([0x3a] ++
      ([0x5b] ++ (partsText a b c arg.toNat ++ [0x7d])))) := by
  have harg : (arg.setWidth 32).toNat = arg.toNat := BitVec.toNat_setWidth_of_le (by decide)
  simp only [statusText, statusExtract_errorStatus, if_true, harg, nameText, partsText,
    List.cons_append, List.nil_append, List.append_assoc]

theorem statusText_ok {s : Word} (h : s.msb = false) :
    statusText s =
      [0x7b] ++ (nameText 0 ++ ([0x3a] ++ ([] ++ (Decimal.ofNat s.toNat ++ [0x7d])))) := by
  simp only [statusText, statusExtract_ok h, Bool.false_eq_true, if_false]
  rfl

/-- The reader behind the name of a code. -/
def deserializeAfterName (stack : ℕ → Byte) (code : Word) : UjsonM Word := do
  ujsonConsume 0x3a
  let isError ← ujsonConsumeMaybe 0x5b
  let (moduleId, arg) ← deserializeParts stack isError
  ujsonConsume 0x7d
  return statusCreate code moduleId kUjsonFile arg

theorem ujsonDeserializeStatusT_eq : ujsonDeserializeStatusT stack = (do
    ujsonConsume 0x7b
    let code ← ujsonDeserializePrivateStatusT stack
    deserializeAfterName stack code) := rfl

theorem reads_status {k : ℕ} (hk : k < 17) {text rest : List Byte} {v : Word}
    (h : Takes (deserializeAfterName stack (.ofNat 32 k)) text rest v) :
    Takes (ujsonDeserializeStatusT stack) ([0x7b] ++ (nameText k ++ text)) rest v := by
  rw [ujsonDeserializeStatusT_eq]
  exact (reads_consume (by decide) _).bind ((reads_privateStatus stack hk _).bind h)

theorem fails_status {k : ℕ} (hk : k < 33) {chars : List Byte}
    (h : k < 17 → Fails (deserializeAfterName stack (.ofNat 32 k)) chars) :
    Fails (ujsonDeserializeStatusT stack) ([0x7b] ++ (nameText k ++ chars)) := by
  rw [ujsonDeserializeStatusT_eq]
  apply (reads_consume (by decide) _).bind_fails
  by_cases hk' : k < 17
  · exact (reads_privateStatus stack hk' _).bind_fails (h hk')
  · exact (fails_privateStatus stack (Nat.not_lt.1 hk') hk chars).bind _

theorem reads_afterName_error {code m arg : Word} {text rest : List Byte}
    (h : Takes (deserializeErrorParts stack) text ([0x7d] ++ [] ++ rest) (m, arg)) :
    Takes (deserializeAfterName stack code) ([0x3a] ++ ([0x5b] ++ (text ++ [0x7d]))) rest
      (statusCreate code m kUjsonFile arg) := by
  refine (reads_consume (by decide) _).bind ((reads_consumeMaybe_self (by decide) _).bind ?_)
  exact h.bind ((reads_consume (by decide) _).bind (.pure _ _))

theorem fails_afterName_error {code : Word} {chars : List Byte}
    (h : Fails (deserializeErrorParts stack) chars) :
    Fails (deserializeAfterName stack code) ([0x3a] ++ ([0x5b] ++ chars)) := by
  apply (reads_consume (by decide) _).bind_fails
  exact (reads_consumeMaybe_self (by decide) _).bind_fails (h.bind _)

theorem reads_afterName_ok {code : Word} (n : ℕ) (rest : List Byte) :
    Takes (deserializeAfterName stack code)
      ([0x3a] ++ ([] ++ (Decimal.ofNat n ++ [0x7d]))) rest
      (statusCreate code 0 kUjsonFile (.ofNat 32 n)) := by
  obtain ⟨d, digits, hdigits⟩ := List.exists_cons_of_ne_nil (Decimal.ofNat_ne_nil n)
  have hd : isDigit d = true := Decimal.isDigit_of_mem_ofNat (n := n) (hdigits ▸ List.mem_cons_self)
  have hother : (0x5b : Byte) ≠ d := by
    rintro rfl
    cases hd
  refine (reads_consume (by decide) _).bind (Takes.bind (a := false) ?_ ?_)
  · rw [hdigits]
    exact reads_consumeMaybe_other hother (isSpace_of_isDigit hd) _
  · have hread : Takes (deserializeParts stack false) (Decimal.ofNat n ++ [])
        ([0x7d] ++ [] ++ rest) (0, .ofNat 32 n) :=
      (reads_readWord (fun _ => 0) n (by decide) rest).bind (.pure _ _)
    rw [List.append_nil] at hread
    exact hread.bind ((reads_consume (by decide) _).bind (.pure _ _))

end Whole

theorem exists_chars (chars : List Byte) : ∃ uj : Ujson, uj.chars = chars :=
  ⟨⟨chars, .cancelled, none, [], fun _ => 0⟩, rfl⟩

theorem Takes.unique {a' : α} (h : Takes x t rest a) (h' : Takes x t rest a') : a = a' := by
  obtain ⟨uj, huj⟩ := exists_chars (t ++ rest)
  obtain ⟨vj, hrun, -⟩ := h uj huj
  obtain ⟨vj', hrun', -⟩ := h' uj huj
  rw [hrun] at hrun'
  cases hrun'
  rfl

theorem Takes.not_fails (h : Takes x t rest a) : ¬ Fails x (t ++ rest) := by
  intro hfails
  obtain ⟨uj, huj⟩ := exists_chars (t ++ rest)
  obtain ⟨vj, hrun, -⟩ := h uj huj
  obtain ⟨e, vj', hrun'⟩ := hfails uj huj
  rw [hrun] at hrun'
  cases hrun'

/-! ### JSON -/

/-- The characters of bytes below 128. -/
def asChars (text : List Byte) : List Char := text.map fun b => Char.ofNat b.toNat

theorem char_of_isPlain {b : Byte} (h : isPlain b = true) : ' ' ≤ Char.ofNat b.toNat ∧
    Char.ofNat b.toNat ≠ '"' ∧ Char.ofNat b.toNat ≠ '\\' :=
  (plain_byte b h).2

theorem quoted_asChars {s : List Byte} (h : s.all isPlain = true) :
    Json.Quoted (asChars (0x22 :: (s ++ [0x22]))) := by
  refine ⟨asChars s, .of_plain ?_, ?_⟩
  · intro c hc
    obtain ⟨b, hb, rfl⟩ := List.mem_map.1 hc
    exact char_of_isPlain (List.all_eq_true.1 h b hb)
  · simp only [asChars, List.map_cons, List.map_append]
    rfl

theorem whole_asChars (n : ℕ) : Json.Whole (asChars (Decimal.ofNat n)) := by
  have hdigit : ∀ d < 10, '0' ≤ Char.ofNat (Decimal.digitChar d).toNat ∧
      Char.ofNat (Decimal.digitChar d).toNat ≤ '9' ∧
      (Char.ofNat (Decimal.digitChar d).toNat = '0' → d = 0) := by
    decide
  by_cases h0 : n = 0
  · subst h0
    refine ⟨⟨by simp [asChars, Decimal.ofNat], fun c hc => ?_⟩, fun _ => rfl⟩
    obtain rfl := List.mem_singleton.1 hc
    exact ⟨(hdigit 0 (by omega)).1, (hdigit 0 (by omega)).2.1⟩
  · have hne : Nat.digits 10 n ≠ [] := Nat.digits_ne_nil_iff_ne_zero.2 h0
    have hlt (d : ℕ) (hd : d ∈ Nat.digits 10 n) : d < 10 := Nat.digits_lt_base (by decide) hd
    rw [asChars, Decimal.ofNat, if_neg h0]
    refine ⟨⟨by simpa using hne, ?_⟩, fun hhead => ?_⟩
    · intro c hc
      simp only [List.mem_map, List.mem_reverse] at hc
      obtain ⟨b, ⟨d, hd, rfl⟩, rfl⟩ := hc
      exact ⟨(hdigit d (hlt d hd)).1, (hdigit d (hlt d hd)).2.1⟩
    · rw [List.map_reverse, List.head?_reverse, List.map_map, List.getLast?_map,
        List.getLast?_eq_getLast_of_ne_nil hne, Option.map_some, Option.some.injEq] at hhead
      have hlast := hlt _ (List.getLast_mem hne)
      exact absurd ((hdigit _ hlast).2.2 hhead) (Nat.getLast_digit_ne_zero 10 h0)

/-! ### The round trip -/

/-- The characters that are written for a value are JSON, and the value is read back from them. -/
def RoundTrips (s : Word) : Prop :=
  ∃ text, (∀ out : Ujson, (ujsonSerializeStatusT s).run out =
      .ok () { out with output := out.output ++ text }) ∧
    Json.Text (asChars text) ∧ ∀ stack rest, Takes (ujsonDeserializeStatusT stack) text rest s

/-- An error has one of the sixteen codes with a name of their own, and a module other than `@@@`
without a backslash. -/
def Restorable (s : Word) : Prop :=
  s.msb = true → (0 < (s.extractLsb' 0 5).toNat ∧ (s.extractLsb' 0 5).toNat ≤ 16) ∧
    ¬ (s.extractLsb' 16 5 = 0 ∧ s.extractLsb' 21 5 = 0 ∧ s.extractLsb' 26 5 = 0) ∧
    ¬ (s.extractLsb' 16 5 = kBackslash ∨ s.extractLsb' 21 5 = kBackslash ∨
      s.extractLsb' 26 5 = kBackslash)

theorem RoundTrips.reads {s : Word} (h : RoundTrips s) (stack : ℕ → Byte) :
    Takes (ujsonDeserializeStatusT stack) (statusText s) [] s := by
  obtain ⟨text, hwrite, -, hread⟩ := h
  have hrun := hwrite ⟨[], .cancelled, none, [], stack⟩
  rw [run_ujsonSerializeStatusT] at hrun
  have htext : statusText s = text := by
    injection hrun with _ hstate
    exact congrArg Ujson.output hstate
  exact htext ▸ hread stack []

theorem RoundTrips.of_text {s : Word} (hjson : Json.Text (asChars (statusText s)))
    (hread : ∀ stack rest, Takes (ujsonDeserializeStatusT stack) (statusText s) rest s) :
    RoundTrips s :=
  ⟨statusText s, fun out => run_ujsonSerializeStatusT out s, hjson, hread⟩

theorem roundTrips_ok {s : Word} (h : s.msb = false) : RoundTrips s := by
  refine .of_text ?_ fun stack rest => ?_
  · have hvalue := Json.Value.object
      ((quoted_asChars (isPlain_statusCodes (k := 0) (by decide))).member
        (Json.Value.number (whole_asChars s.toNat).number))
    have htext : asChars (statusText s) = _ := congrArg asChars (statusText_ok h)
    rw [htext]
    simp only [asChars, nameText, List.map_append, List.map_cons, List.map_nil, List.append_assoc,
      List.cons_append, List.nil_append] at hvalue ⊢
    exact hvalue.text
  · have hok : Takes (deserializeAfterName stack (.ofNat 32 0)) _ rest _ :=
      reads_afterName_ok stack s.toNat rest
    have hread := reads_status stack (k := 0) (by decide) hok
    have hcreate : statusCreate (.ofNat 32 0) 0 kUjsonFile (.ofNat 32 s.toNat) = s := by
      rw [BitVec.ofNat_toNat, BitVec.setWidth_eq, statusCreate, if_pos ⟨rfl, h⟩]
    rw [hcreate] at hread
    rw [statusText_ok h]
    exact hread

section Errors

variable {a b c code : BitVec 5} {arg : BitVec 11}

theorem packModule_eq_zero_iff : packModule a b c = 0 ↔ a = 0 ∧ b = 0 ∧ c = 0 := by
  constructor
  · intro h
    have hstatus : errorStatus a b c 0 0 = errorStatus 0 0 0 0 0 := by
      rw [errorStatus, h]
      decide
    have hfirst := congrArg (·.extractLsb' 16 5) hstatus
    have hsecond := congrArg (·.extractLsb' 21 5) hstatus
    have hthird := congrArg (·.extractLsb' 26 5) hstatus
    simp only [extract_first, extract_second, extract_third] at hfirst hsecond hthird
    exact ⟨hfirst, hsecond, hthird⟩
  · rintro ⟨rfl, rfl, rfl⟩
    decide

theorem restorable_errorStatus_iff : Restorable (errorStatus a b c arg code) ↔
    (0 < code.toNat ∧ code.toNat ≤ 16) ∧ ¬ (a = 0 ∧ b = 0 ∧ c = 0) ∧
      ¬ (a = kBackslash ∨ b = kBackslash ∨ c = kBackslash) := by
  simp only [Restorable, msb_errorStatus, forall_const, extract_first, extract_second,
    extract_third, extract_code]

theorem nameIndex_of_pos (h : 0 < code.toNat) : nameIndex code = code.toNat := by
  refine if_neg ?_
  rintro rfl
  exact Nat.lt_irrefl 0 h

/-- An error whose module is read as `x`, `y` and `z`. -/
theorem reads_error {x y z : BitVec 5} (hcode : 0 < code.toNat ∧ code.toNat ≤ 16)
    (stack : ℕ → Byte) {rest : List Byte}
    (h : Takes (deserializeErrorParts stack) (partsText a b c arg.toNat) ([0x7d] ++ [] ++ rest)
      (packModule x y z, .ofNat 32 arg.toNat)) :
    Takes (ujsonDeserializeStatusT stack) (statusText (errorStatus a b c arg code)) rest
      (if packModule x y z = 0 then errorStatus 21 10 19 arg code
        else errorStatus x y z arg code) := by
  have hne : code ≠ 0 := by
    rintro rfl
    exact Nat.lt_irrefl 0 hcode.1
  have harg : BitVec.ofNat 32 arg.toNat = arg.setWidth 32 := BitVec.ofNat_toNat ..
  have hofNat : BitVec.ofNat 32 code.toNat = code.setWidth 32 := BitVec.ofNat_toNat ..
  have hread := reads_status stack (k := code.toNat) (by omega) (reads_afterName_error stack h)
  rw [harg, hofNat, statusCreate_error x y z code arg hne] at hread
  rw [statusText_error, nameIndex_of_pos hcode.1]
  exact hread

theorem roundTrips_error (h : Restorable (errorStatus a b c arg code)) :
    RoundTrips (errorStatus a b c arg code) := by
  obtain ⟨hcode, hzero, hslash⟩ := restorable_errorStatus_iff.1 h
  obtain ⟨ha, hb, hc⟩ : a ≠ kBackslash ∧ b ≠ kBackslash ∧ c ≠ kBackslash := by
    simpa only [not_or] using hslash
  refine .of_text ?_ fun stack rest => ?_
  · have hletters := isPlain_letters ha hb hc
    have harray := Json.Value.array ((Json.Value.string (quoted_asChars hletters)).cons
      (Json.Value.number (whole_asChars arg.toNat).number).element)
    have hvalue := Json.Value.object
      ((quoted_asChars (isPlain_statusCodes (k := code.toNat) (by omega))).member harray)
    have htext : asChars (statusText (errorStatus a b c arg code)) = _ :=
      congrArg asChars (statusText_error a b c code arg)
    rw [htext, nameIndex_of_pos hcode.1]
    simp only [asChars, nameText, partsText, List.map_append, List.map_cons, List.map_nil,
      List.append_assoc, List.cons_append, List.nil_append] at hvalue ⊢
    exact hvalue.text
  · have hread := reads_error hcode stack (reads_letters arg.toNat stack ha hb hc (0x7d :: rest))
    rwa [if_neg fun h => hzero (packModule_eq_zero_iff.1 h)] at hread

theorem restorable_of_reads
    (h : ∀ stack, Takes (ujsonDeserializeStatusT stack) (statusText (errorStatus a b c arg code)) []
      (errorStatus a b c arg code)) : Restorable (errorStatus a b c arg code) := by
  rw [restorable_errorStatus_iff]
  let stack : ℕ → Byte := fun _ => 0
  have hindex : nameIndex code < 17 := by
    by_contra hindex
    refine (h stack).not_fails ?_
    rw [List.append_nil, statusText_error]
    exact fails_status stack (nameIndex_lt code) fun hlt => absurd hlt hindex
  have hcode : 0 < code.toNat ∧ code.toNat ≤ 16 := by
    have hne : code ≠ 0 := by
      rintro rfl
      exact absurd hindex (by decide)
    rw [nameIndex, if_neg hne] at hindex
    exact ⟨Nat.pos_of_ne_zero fun h => hne (BitVec.eq_of_toNat_eq h), Nat.le_of_lt_succ hindex⟩
  have hmodule {x y z : BitVec 5} (hread : Takes (deserializeErrorParts stack)
      (partsText a b c arg.toNat) [0x7d] (packModule x y z, .ofNat 32 arg.toNat)) :
      packModule x y z ≠ 0 ∧ (x, y, z) = (a, b, c) ∨
        packModule x y z = 0 ∧ (21, 10, 19) = (a, b, c) := by
    have hnil : Takes (deserializeErrorParts stack) (partsText a b c arg.toNat)
        ([0x7d] ++ [] ++ []) (packModule x y z, .ofNat 32 arg.toNat) := hread
    have heq := (reads_error hcode stack hnil).unique (h stack)
    have hfields {x y z : BitVec 5}
        (heq : errorStatus x y z arg code = errorStatus a b c arg code) :
        (x, y, z) = (a, b, c) := by
      have hfirst := congrArg (·.extractLsb' 16 5) heq
      have hsecond := congrArg (·.extractLsb' 21 5) heq
      have hthird := congrArg (·.extractLsb' 26 5) heq
      simp only [extract_first, extract_second, extract_third] at hfirst hsecond hthird
      rw [hfirst, hsecond, hthird]
    split_ifs at heq with h0
    · exact .inr ⟨h0, hfields heq⟩
    · exact .inl ⟨h0, hfields heq⟩
  have hslash : ¬ (a = kBackslash ∨ b = kBackslash ∨ c = kBackslash) := by
    intro hslash
    rcases parts_of_backslash arg.toNat hslash with ⟨x, y, hne, hread⟩ | hfails
    · rcases hmodule (hread stack _) with ⟨-, heq⟩ | ⟨h0, -⟩
      · exact hne heq
      · exact absurd (packModule_eq_zero_iff.1 h0).2.2 (by decide)
    · refine (h stack).not_fails ?_
      rw [List.append_nil, statusText_error]
      exact fails_status stack (nameIndex_lt code) fun _ =>
        fails_afterName_error stack (hfails stack)
  obtain ⟨ha, hb, hc⟩ : a ≠ kBackslash ∧ b ≠ kBackslash ∧ c ≠ kBackslash := by
    simpa only [not_or] using hslash
  refine ⟨hcode, fun h0 => ?_, hslash⟩
  rcases hmodule (reads_letters arg.toNat stack ha hb hc _) with ⟨hne, -⟩ | ⟨-, heq⟩
  · exact hne (packModule_eq_zero_iff.2 h0)
  · obtain ⟨rfl, rfl, rfl⟩ := h0
    cases heq

end Errors

/-- A status value is written as JSON and read back as itself exactly when it is a result, or an
error with a code that the reader knows and a module of plain letters other than `@@@`. -/
theorem ujson_status_round_trip_iff (s : Word) : RoundTrips s ↔ Restorable s := by
  cases hs : s.msb with
  | false => exact iff_of_true (roundTrips_ok hs) fun h => absurd (h.symm.trans hs) (by decide)
  | true =>
    obtain ⟨a, b, c, code, arg, rfl⟩ := exists_errorStatus hs
    exact ⟨fun h => restorable_of_reads h.reads, roundTrips_error⟩

/-- The text of an error of module `\AB`, where the backslash is followed by a letter. -/
def backslashText : List Byte := ascii "\x7b\"Cancelled\":[\"\\AB\",1]\x7d"

theorem ujson_status_backslash :
    statusText 0x883c0021 = backslashText ∧ ¬ RoundTrips 0x883c0021 := by
  refine ⟨by decide +kernel, fun h => ?_⟩
  have hstatus : (0x883c0021 : Word) = errorStatus kBackslash 1 2 1 1 := by decide
  rw [hstatus] at h
  exact (restorable_errorStatus_iff.1 (restorable_of_reads h.reads)).2.2 (.inl rfl)

end SecureBoot
