import Mathlib.Data.List.GetD
import SecureBoot.Runtime.Print

/-! What is printed does not depend on the sink: every function writes the same pieces to all
sinks. A buffer that takes what fits therefore ends up with the first bytes of what a sink that
takes everything receives. -/

namespace SecureBoot

open Sink

/-! ### Digits -/

/-- The digits are those of the number, so that one division for each bit is enough. -/
theorem digitsLoop_eq {base : Word} (hbase : 1 < base.toNat) (glyphs : List Byte) {n : ℕ}
    {value : Word} (hvalue : value.toNat < 2 ^ n) (buffer : List Byte) :
    digitsLoop base glyphs n value buffer =
      ((Nat.digits base.toNat value.toNat).map fun d => glyphs.getD d 0).reverse ++ buffer := by
  induction n generalizing value buffer with
  | zero =>
    obtain h0 : value.toNat = 0 := by omega
    rw [digitsLoop, h0, Nat.digits_zero]
    rfl
  | succ n ih =>
    rw [digitsLoop]
    by_cases hpos : 0 < value
    · have hpos' : 0 < value.toNat := BitVec.lt_def.1 hpos
      have hdiv : (value / base).toNat < 2 ^ n := by
        rw [BitVec.toNat_udiv, Nat.div_lt_iff_lt_mul (by omega)]
        rw [pow_succ] at hvalue
        exact hvalue.trans_le (Nat.mul_le_mul_left _ hbase)
      rw [if_pos hpos, ih hdiv, BitVec.toNat_udiv, BitVec.toNat_umod,
        Nat.digits_def' hbase hpos', List.map_cons, List.reverse_cons, List.append_assoc]
      rfl
    · have h0 : value.toNat = 0 := Nat.eq_zero_of_not_pos fun h => hpos (BitVec.lt_def.2 h)
      rw [if_neg hpos, h0, Nat.digits_zero]
      rfl

/-! ### Pieces -/

theorem counts_writeDigits (value width : Word) (padding : Byte) (base : Word)
    (glyphs : List Byte) :
    Counts fun _ out data => writeDigits out data value width padding base glyphs :=
  (Appends.put _).counts

theorem appends_writeDigits (value width : Word) (padding : Byte) (base : Word)
    (glyphs : List Byte) : Appends fun _ out (st : Printer _) =>
      st.call fun data => writeDigits out data value width padding base glyphs :=
  (counts_writeDigits value width padding base glyphs).call

theorem counts_writeStatus (value : Word) (asJson : Bool) :
    Counts fun _ out data => writeStatus out data value asJson := by
  have hdigits := appends_writeDigits (statusExtract value).arg 0 0 10 kDigitsLow
  have hhead := (((Appends.put (w := 32) (if asJson then ascii "\x7b\"" else [])).comp
    (.put (statusExtract value).code)).comp (.put (if asJson then ascii "\"" else []))).comp
    (.put (ascii ":"))
  have htail := Appends.put (w := 32) (if asJson then ascii "\x7d" else [])
  simp only [writeStatus]
  cases (statusExtract value).err with
  | false => exact ((hhead.comp hdigits).comp htail).counts
  | true =>
    exact (((((hhead.comp (.put (ascii "["))).comp
      (.put (ascii "\"" ++ (statusExtract value).modId ++ ascii "\","))).comp hdigits).comp
      (.put (ascii "]"))).comp htail).counts

theorem appends_hexDumpPad (padding : Byte) (width : ℕ) :
    Appends fun _ out st => hexDumpPad out padding st width := by
  induction width using Nat.strongRecOn with
  | ind width ih =>
    have hunfold : (fun (σ : Type) (out : Write Byte σ) st => hexDumpPad out padding st width) =
        fun σ out st => if 0 < width then
          hexDumpPad out padding
            (put out st (List.replicate (if 32 < width then 32 else width) padding))
            (width - if 32 < width then 32 else width)
        else st := by
      funext σ out st
      rw [hexDumpPad]
    rw [hunfold]
    split_ifs with hpos hlong
    · exact (Appends.put _).comp (ih _ (by omega))
    · exact (Appends.put _).comp (ih _ (by omega))
    · exact .id

theorem foldl_hexDumpByte (glyphs : List Byte) (byteAt : ℕ → Byte) (l : List ℕ)
    (buf : List Byte) :
    ∃ buf' ps, ∀ (σ : Type) (out : Write Byte σ) (st : Printer σ),
      l.foldl (fun s i => hexDumpByte out glyphs s (byteAt i)) (buf, st) =
        (buf', puts out st ps) := by
  induction l generalizing buf with
  | nil => exact ⟨buf, [], fun _ _ _ => rfl⟩
  | cons i l ih =>
    let buffered := buf ++ [glyphs.getD ((byteAt i >>> 4) &&& 0xf).toNat 0,
      glyphs.getD (byteAt i &&& 0xf).toNat 0]
    by_cases hfull : buffered.length = 32
    · obtain ⟨buf', ps, hps⟩ := ih []
      refine ⟨buf', buffered :: ps, fun σ out st => ?_⟩
      rw [List.foldl_cons, hexDumpByte, if_pos hfull, hps]
      rfl
    · obtain ⟨buf', ps, hps⟩ := ih buffered
      refine ⟨buf', ps, fun σ out st => ?_⟩
      rw [List.foldl_cons, hexDumpByte, if_neg hfull, hps]

/-! ### Specifiers -/

/-- Whether the arguments go with the specifier does not depend on the sink either. -/
def AppendsOrFails
    (f : ∀ σ : Type, Write Byte σ → Printer σ → Option (Printer σ × List Arg)) : Prop :=
  (∀ σ out st, f σ out st = none) ∨
    ∃ ps args, ∀ σ out st, f σ out st = some (puts out st ps, args)

theorem AppendsOrFails.fail : AppendsOrFails fun _ _ _ => none := .inl fun _ _ _ => rfl

theorem AppendsOrFails.ite {f g : ∀ σ : Type, Write Byte σ → Printer σ →
    Option (Printer σ × List Arg)} {p : Prop} [Decidable p] (hf : AppendsOrFails f)
    (hg : AppendsOrFails g) :
    AppendsOrFails fun σ out st => if p then f σ out st else g σ out st := by
  by_cases hp : p
  · simpa only [if_pos hp] using hf
  · simpa only [if_neg hp] using hg

theorem AppendsOrFails.of_appends {f : ∀ σ : Type, Write Byte σ → Printer σ → Printer σ}
    (hf : Appends f) (args : List Arg) :
    AppendsOrFails fun σ out st => some (f σ out st, args) := by
  obtain ⟨ps, hps⟩ := hf
  exact .inr ⟨ps, args, fun σ out st => congrArg (fun st => some (st, args)) (hps σ out st)⟩

theorem AppendsOrFails.comp {f : ∀ σ : Type, Write Byte σ → Printer σ → Printer σ} (hf : Appends f)
    {g : ∀ σ : Type, Write Byte σ → Printer σ → Option (Printer σ × List Arg)}
    (hg : AppendsOrFails g) : AppendsOrFails fun σ out st => g σ out (f σ out st) := by
  obtain ⟨ps, hps⟩ := hf
  rcases hg with hnone | ⟨qs, args, hqs⟩
  · exact .inl fun σ out st => hnone σ out _
  · refine .inr ⟨ps ++ qs, args, fun σ out st => ?_⟩
    rw [puts_append, ← hps]
    exact hqs σ out _

theorem appendsOrFails_hexDump (object : List Byte) (len : ℕ) (width : Word) (padding : Byte)
    (bigEndian : Bool) (glyphs : List Byte) (args : List Arg) :
    AppendsOrFails fun _ out st =>
      (hexDump out st.data object len width padding bigEndian glyphs).map
        fun r => (st.call fun _ => r, args) := by
  by_cases hshort : object.length < len
  · refine .inl fun σ out st => ?_
    simp only [hexDump, if_pos hshort, Option.map_none]
  · obtain ⟨buf, ps, hps⟩ := foldl_hexDumpByte glyphs
      (fun i => object.getD (if bigEndian then len - i - 1 else i) 0) (List.range len) []
    have hpad : Appends fun (σ : Type) (out : Write Byte σ) (st : Printer σ) =>
        if len < width.toNat then hexDumpPad out padding st (width.toNat - len) else st := by
      split_ifs
      · exact appends_hexDumpPad padding _
      · exact .id
    have hbytes : Appends fun (σ : Type) (out : Write Byte σ) (st : Printer σ) => puts out st ps :=
      ⟨ps, fun _ _ _ => rfl⟩
    have hrest : Appends fun (σ : Type) (out : Write Byte σ) (st : Printer σ) =>
        if buf.length ≠ 0 then put out st buf else st := by
      split_ifs
      · exact .put buf
      · exact .id
    obtain ⟨qs, hqs⟩ := ((hpad.comp hbytes).comp hrest).counts.call
    refine .inr ⟨qs, args, fun σ out st => ?_⟩
    rw [← hqs]
    simp only [hexDump, if_neg hshort, hps, Option.map_some]
    rfl

theorem appendsOrFails_printDigits (spec : FormatSpecifier) (base : Word) (glyphs : List Byte)
    (args : List Arg) :
    AppendsOrFails fun _ out st => printDigits out spec base glyphs st args := by
  cases args with
  | nil => exact .fail
  | cons arg args => exact .of_appends (appends_writeDigits _ _ _ _ _) args

theorem appendsOrFails_printHexDump (spec : FormatSpecifier) (bigEndian : Bool)
    (glyphs : List Byte) (args : List Arg) :
    AppendsOrFails fun _ out st => printHexDump out spec bigEndian glyphs st args := by
  rcases args with _ | ⟨len, _ | ⟨value, args⟩⟩
  · exact .fail
  · exact .fail
  · exact appendsOrFails_hexDump _ _ _ _ _ _ args

theorem appendsOrFails_put (piece : List Byte) (args : List Arg) :
    AppendsOrFails fun _ out st => some (put out st piece, args) := .of_appends (.put piece) args

theorem appendsOrFails_badSpec (args : List Arg) :
    AppendsOrFails fun _ out st => badSpec out st args := appendsOrFails_put kUnknownSpec args

theorem appendsOrFails_processSpecifier (spec : FormatSpecifier) (args : List Arg) :
    AppendsOrFails fun _ out st => processSpecifier out spec st args := by
  have hbad := appendsOrFails_badSpec args
  have hdigits := fun base glyphs => appendsOrFails_printDigits spec base glyphs args
  have hdump := fun bigEndian glyphs => appendsOrFails_printHexDump spec bigEndian glyphs args
  unfold processSpecifier
  refine .ite (.ite hbad (appendsOrFails_put _ args)) (.ite (.ite hbad ?_) (.ite (.ite ?_ ?_)
    (.ite (.ite hbad ?_) (.ite (.ite hbad (hdigits _ _)) (.ite (.ite hbad ?_)
    (.ite (hdump _ _) (.ite (hdigits _ _) (.ite (hdump _ _) (.ite (hdigits _ _)
    (.ite (.ite (hdump _ _) hbad) (.ite (.ite (hdump _ _) hbad) (.ite (.ite hbad (hdigits _ _))
    (.ite (.ite ?_ (hdigits _ _)) (.ite ?_ hbad))))))))))))))
  · cases args with
    | nil => exact .fail
    | cons arg args => exact appendsOrFails_put _ args
  · rcases args with _ | ⟨len, _ | ⟨value, args⟩⟩
    · exact .fail
    · exact .fail
    · exact .ite .fail (appendsOrFails_put _ args)
  · cases args with
    | nil => exact .fail
    | cons value args => exact .ite (appendsOrFails_put _ args) .fail
  · cases args with
    | nil => exact .fail
    | cons arg args =>
      have hsign : Appends fun (σ : Type) (out : Write Byte σ) (st : Printer σ) =>
          if arg.value.msb then put out st (ascii "-") else st := by
        split_ifs
        · exact .put _
        · exact .id
      exact .of_appends (hsign.comp (appends_writeDigits _ _ _ _ _)) args
  · exact .comp (.put (ascii "0x")) (appendsOrFails_printDigits _ 16 kDigitsLow args)
  · cases args with
    | nil => exact .fail
    | cons arg args => exact appendsOrFails_put _ args
  · cases args with
    | nil => exact .fail
    | cons arg args => exact .of_appends (counts_writeStatus _ _).call args

/-! ### Format strings -/

theorem appends_consumeUntilPercent (text : List Byte) :
    Appends fun (σ : Type) (out : Write Byte σ) (st : Printer σ) =>
      if 0 < text.length then put out st text else st := by
  split_ifs
  · exact .put text
  · exact .id

/-- What a specifier parses to, and what is printed of it. -/
theorem consumeFormatSpecifier_appends (format : List Byte) :
    (∀ (σ : Type) (out : Write Byte σ) st, consumeFormatSpecifier out format st = none) ∨
      ∃ ok format' ps spec, ∀ (σ : Type) (out : Write Byte σ) st,
        consumeFormatSpecifier out format st = some ⟨ok, format', puts out st ps, spec⟩ := by
  unfold consumeFormatSpecifier
  simp only
  rcases consumeWidth _ _ with _ | ⟨spec, _ | ⟨c, rest⟩⟩
  · exact .inl fun _ _ _ => rfl
  · exact .inl fun _ _ _ => rfl
  · by_cases h0 : c = 0
    · exact .inr ⟨_, _, [kErrorNul], _, fun _ _ _ => if_pos h0⟩
    · by_cases hwidth : (spec.width = 0 ∧ spec.padding ≠ 0) ∨ 32 < spec.width
      · exact .inr ⟨_, _, [kErrorTooWide], _, fun _ _ _ => (if_neg h0).trans (if_pos hwidth)⟩
      · exact .inr ⟨_, _, [], _, fun _ _ _ => (if_neg h0).trans (if_neg hwidth)⟩

/-- A run ends in the same way for all sinks, having written the same pieces to them. -/
theorem vfprintfLoop_appends (fuel : ℕ) (format : List Byte) (args : List Arg) :
    ∃ r : Except PrintFault (List (List Byte)), ∀ (σ : Type) (out : Write Byte σ) st,
      vfprintfLoop out fuel format st args = r.map (puts out st) := by
  induction fuel generalizing format args with
  | zero => exact ⟨.error .outOfFuel, fun _ _ _ => rfl⟩
  | succ fuel ih =>
    simp only [vfprintfLoop, consumeUntilPercent]
    by_cases hnil : format = []
    · simp only [if_pos hnil]
      exact ⟨.error .undefined, fun _ _ _ => rfl⟩
    · simp only [if_neg hnil]
      by_cases hend : format.head? = some 0
      · simp only [if_pos hend]
        exact ⟨.ok [], fun _ _ _ => rfl⟩
      · simp only [if_neg hend]
        cases scanText format with
        | none => exact ⟨.error .undefined, fun _ _ _ => rfl⟩
        | some r =>
          obtain ⟨ps, hps⟩ := appends_consumeUntilPercent r.1
          simp only [Option.map_some, hps]
          cases r.2.head? != some 0 with
          | false => exact ⟨.ok ps, fun _ _ _ => rfl⟩
          | true =>
            simp only
            rcases consumeFormatSpecifier_appends r.2 with hnone | ⟨ok, format', qs, spec, hspec⟩
            · simp only [hnone]
              exact ⟨.error .undefined, fun _ _ _ => rfl⟩
            · simp only [hspec, ← puts_append]
              cases ok with
              | false => exact ⟨.ok (ps ++ qs), fun _ _ _ => rfl⟩
              | true =>
                rcases appendsOrFails_processSpecifier spec args with hfail | ⟨us, args', hus⟩
                · simp only [hfail]
                  exact ⟨.error .undefined, fun _ _ _ => rfl⟩
                · obtain ⟨rest, hrest⟩ := ih format' args'
                  refine ⟨rest.map ((ps ++ qs) ++ us ++ ·), fun σ out st => ?_⟩
                  simp only [if_true, hus, ← puts_append, hrest]
                  cases rest with
                  | error fault => rfl
                  | ok vs => exact congrArg Except.ok (puts_append out st _ vs).symm

/-! ### The buffer -/

theorem SnprintfCaptures.memcpy_nil (mem : ℕ → Byte) (dest : ℕ) : memcpy mem dest [] = mem := by
  funext i
  exact if_neg fun h => absurd h.2 (Nat.not_lt.2 h.1)

theorem SnprintfCaptures.memcpy_append (mem : ℕ → Byte) (dest : ℕ) (u v : List Byte) :
    memcpy (memcpy mem dest u) (dest + u.length) v = memcpy mem dest (u ++ v) := by
  funext i
  unfold memcpy
  rw [List.length_append]
  by_cases hlow : dest ≤ i ∧ i < dest + u.length
  · rw [if_neg (by omega), if_pos hlow, if_pos (by omega),
      List.getD_append _ _ _ _ (by omega)]
  · rw [if_neg hlow]
    by_cases hhigh : dest + u.length ≤ i ∧ i < dest + u.length + v.length
    · rw [if_pos hhigh, if_pos (by omega), List.getD_append_right _ _ _ _ (by omega),
        Nat.sub_sub]
    · rw [if_neg hhigh, if_neg (by omega)]

/-- The buffer after a piece, also when nothing is left. -/
def SnprintfCaptures.push (captures : SnprintfCaptures) (piece : List Byte) : SnprintfCaptures where
  mem := memcpy captures.mem captures.buf (piece.take captures.bytesLeft)
  buf := captures.buf + min captures.bytesLeft piece.length
  bytesLeft := captures.bytesLeft - piece.length

theorem snprintfSink_eq (captures : SnprintfCaptures) (piece : List Byte) :
    snprintfSink captures piece = (captures.push piece, min captures.bytesLeft piece.length) := by
  unfold snprintfSink SnprintfCaptures.push
  by_cases hzero : captures.bytesLeft = 0
  · rw [if_pos hzero, hzero, List.take_zero, SnprintfCaptures.memcpy_nil, Nat.zero_min,
      Nat.add_zero, Nat.zero_sub, ← hzero]
  · rw [if_neg hzero]
    by_cases hlt : captures.bytesLeft < piece.length
    · simp only [if_pos hlt, Nat.min_eq_left hlt.le, Nat.sub_self, Nat.sub_eq_zero_of_le hlt.le]
    · simp only [if_neg hlt, Nat.min_eq_right (Nat.not_lt.1 hlt), List.take_length,
        List.take_of_length_le (Nat.not_lt.1 hlt)]

theorem SnprintfCaptures.push_push (captures : SnprintfCaptures) (u v : List Byte) :
    (captures.push u).push v = captures.push (u ++ v) := by
  have hmem : memcpy (captures.push u).mem (captures.push u).buf
      (v.take (captures.push u).bytesLeft) =
        memcpy captures.mem captures.buf ((u ++ v).take captures.bytesLeft) := by
    rw [List.take_append, ← memcpy_append, List.length_take]
    rfl
  rw [push, hmem, push.eq_def captures (u ++ v), List.length_append]
  simp only [push, mk.injEq, true_and]
  omega

/-- A buffer takes what fits into it of all that it is given. -/
theorem puts_snprintfSink (captures : SnprintfCaptures) (written : Word)
    (ps : List (List Byte)) :
    puts snprintfSink ⟨captures, written⟩ ps = (⟨captures.push ps.flatten,
      written + .ofNat 32 (min captures.bytesLeft ps.flatten.length)⟩ : Printer _) := by
  induction ps generalizing captures written with
  | nil =>
    have hnil : captures.push [] = captures := by
      rw [SnprintfCaptures.push, List.take_nil, SnprintfCaptures.memcpy_nil, List.length_nil,
        Nat.min_zero, Nat.add_zero, Nat.sub_zero]
    rw [List.flatten_nil, hnil, List.length_nil, Nat.min_zero]
    exact congrArg (State.mk captures) (BitVec.add_zero written).symm
  | cons p ps ih =>
    have hput : put snprintfSink (⟨captures, written⟩ : Printer _) p =
        ⟨captures.push p, written + .ofNat 32 (min captures.bytesLeft p.length)⟩ := by
      rw [put, snprintfSink_eq]
    have hlen : min captures.bytesLeft (p ++ ps.flatten).length =
        min captures.bytesLeft p.length + min (captures.push p).bytesLeft ps.flatten.length := by
      rw [List.length_append]
      simp only [SnprintfCaptures.push]
      omega
    rw [puts, List.foldl_cons, hput, ← puts, ih, SnprintfCaptures.push_push, List.flatten_cons,
      hlen, BitVec.ofNat_add, BitVec.add_assoc]

/-- The buffer holds the first bytes of the output, as many as fit, and their number is
returned. -/
theorem base_snprintf_stores_first_bytes (mem : ℕ → Byte) (len : Word) (format : List Byte)
    (args : List Arg) :
    (∀ fault, baseVfprintf ⟨some collect⟩ [] format args = .error fault →
      baseSnprintf mem len format args = .error fault) ∧
    ∀ st, baseVfprintf ⟨some collect⟩ [] format args = .ok st →
      ∃ mem' count, baseSnprintf mem len format args = .ok (mem', count) ∧
        count.toNat = min len.toNat st.data.length ∧
        (∀ i < count.toNat, mem' i = st.data.getD i 0) ∧
        ∀ i, count.toNat ≤ i → mem' i = mem i := by
  obtain ⟨r, hr⟩ := vfprintfLoop_appends format.length format args
  have hall : baseVfprintf ⟨some collect⟩ [] format args =
      r.map (puts collect ⟨[], 0⟩) := hr _ collect _
  have hbuf : baseSnprintf mem len format args =
      (r.map (puts snprintfSink ⟨⟨mem, 0, len.toNat⟩, 0⟩)).map
        fun st => (st.data.mem, st.written) := congrArg (Except.map _) (hr _ snprintfSink _)
  rw [hall, hbuf]
  cases r with
  | error fault =>
    exact ⟨fun _ h => congrArg Except.error (Except.error.inj h), fun _ h => (by cases h)⟩
  | ok ps =>
    refine ⟨fun _ h => (by cases h), fun st h => ?_⟩
    have hst : puts collect ⟨[], 0⟩ ps = st := Except.ok.inj h
    have hdata : st.data = ps.flatten := by rw [← hst, puts_collect, List.nil_append]
    refine ⟨_, _, rfl, ?_⟩
    rw [puts_snprintfSink, hdata]
    have hcount : ((0 : Word) + .ofNat 32 (min len.toNat ps.flatten.length)).toNat =
        min len.toNat ps.flatten.length := by
      have := len.isLt
      rw [show (0 : Word) + .ofNat 32 (min len.toNat ps.flatten.length) =
        .ofNat 32 (min len.toNat ps.flatten.length) from BitVec.zero_add _, BitVec.toNat_ofNat,
        Nat.mod_eq_of_lt (by omega)]
    refine ⟨hcount, fun i hi => ?_, fun i hi => ?_⟩
    · rw [hcount] at hi
      have htaken : i < (ps.flatten.take len.toNat).length := by rwa [List.length_take]
      simp only [SnprintfCaptures.push, SnprintfCaptures.memcpy]
      rw [if_pos ⟨Nat.zero_le i, by omega⟩, Nat.sub_zero, List.getD_eq_getElem _ _ htaken,
        List.getElem_take, List.getD_eq_getElem]
    · rw [hcount] at hi
      simp only [SnprintfCaptures.push, SnprintfCaptures.memcpy, List.length_take]
      exact if_neg (by omega)

end SecureBoot
