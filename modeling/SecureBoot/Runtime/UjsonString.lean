import SecureBoot.Lib.Hoare
import SecureBoot.Runtime.Ujson

/-! What the readers do with given characters, and the strings: a string that was written is read
back, and whatever is read stays inside of the buffer. -/

namespace SecureBoot

open Hoare

/-! ### Single characters -/

/-- The state when the characters before `rest` have been read. -/
def Ujson.at (uj : Ujson) (rest : List Byte) : Ujson := { uj with buffer := none, input := rest }

@[simp] theorem Ujson.chars_at (uj : Ujson) (rest : List Byte) : (uj.at rest).chars = rest := rfl

@[simp] theorem Ujson.at_at (uj : Ujson) (cs rest : List Byte) :
    (uj.at cs).at rest = uj.at rest := rfl

theorem run_ujsonGetc_cons {uj : Ujson} {ch : Byte} {rest : List Byte}
    (h : uj.chars = ch :: rest) : ujsonGetc.run uj = .ok (.ok ch) (uj.at rest) := by
  obtain ⟨input, endStatus, buffer, output, dest⟩ := uj
  cases buffer with
  | none =>
    obtain rfl : input = ch :: rest := h
    rfl
  | some b =>
    obtain ⟨rfl, rfl⟩ := List.cons.inj h
    rfl

theorem run_ujsonGetc_nil {uj : Ujson} (h : uj.chars = []) :
    ujsonGetc.run uj = .ok (.error uj.endStatus) uj := by
  obtain ⟨input, endStatus, buffer, output, dest⟩ := uj
  cases buffer with
  | none =>
    obtain rfl : input = [] := h
    rfl
  | some b => cases h

theorem run_tryGetc_cons {uj : Ujson} {ch : Byte} {rest : List Byte}
    (h : uj.chars = ch :: rest) : tryGetc.run uj = .ok ch (uj.at rest) := by
  rw [tryGetc, EStateM.run_bind, run_ujsonGetc_cons h]
  rfl

theorem run_tryGetc_nil {uj : Ujson} (h : uj.chars = []) :
    tryGetc.run uj = .error (.status uj.endStatus) uj := by
  rw [tryGetc, EStateM.run_bind, run_ujsonGetc_nil h]
  rfl

/-- A program that goes on with the next character. -/
theorem run_tryGetc_bind {α : Type} {uj : Ujson} {ch : Byte} {rest : List Byte}
    (h : uj.chars = ch :: rest) (f : Byte → UjsonM α) :
    (tryGetc >>= f).run uj = (f ch).run (uj.at rest) := by
  rw [EStateM.run_bind, run_tryGetc_cons h]

theorem run_consumeWhitespace {uj : Ujson} {spaces rest : List Byte} {ch : Byte}
    (h : uj.chars = spaces ++ ch :: rest) (hspaces : ∀ c ∈ spaces, isSpace c = true)
    (hch : isSpace ch = false) : consumeWhitespace.run uj = .ok ch (uj.at rest) := by
  have hloop : ∀ fuel, spaces.length < fuel →
      (consumeWhitespaceLoop fuel).run uj = .ok ch (uj.at rest) := by
    induction spaces generalizing uj with
    | nil =>
      intro fuel hfuel
      obtain ⟨fuel, rfl⟩ := Nat.exists_eq_add_of_lt hfuel
      rw [consumeWhitespaceLoop, run_tryGetc_bind h, if_neg (by rw [hch]; exact Bool.false_ne_true)]
      rfl
    | cons c spaces ih =>
      intro fuel hfuel
      obtain ⟨fuel, rfl⟩ := Nat.exists_eq_add_of_lt hfuel
      obtain ⟨hc, hspaces⟩ := List.forall_mem_cons.1 hspaces
      rw [consumeWhitespaceLoop, run_tryGetc_bind h, if_pos hc]
      exact ih (uj.chars_at _) hspaces _ (by simp only [List.length_cons]; omega)
  rw [consumeWhitespace, EStateM.run_bind]
  refine hloop (uj.chars.length + 1) ?_
  rw [h, List.length_append]
  omega

theorem run_ujsonConsume {uj : Ujson} {ch : Byte} {rest : List Byte} (h : uj.chars = ch :: rest)
    (hch : isSpace ch = false) : (ujsonConsume ch).run uj = .ok () (uj.at rest) := by
  have hrun := run_consumeWhitespace (show uj.chars = [] ++ ch :: rest from h)
    (fun _ hc => absurd hc List.not_mem_nil) hch
  rw [ujsonConsume, EStateM.run_bind, hrun]
  simp only [ne_eq, not_true_eq_false, if_false]
  rfl

theorem run_consumeHexdigit {uj : Ujson} {d : ℕ} (hd : d < 16) {rest : List Byte}
    (h : uj.chars = hex.getD d 0 :: rest) :
    consumeHexdigit.run uj = .ok (.ofNat 32 d) (uj.at rest) := by
  rw [consumeHexdigit, run_tryGetc_bind h]
  interval_cases d <;> rfl

theorem run_consumeHex {uj : Ujson} {d₀ d₁ d₂ d₃ : ℕ} (h₀ : d₀ < 16) (h₁ : d₁ < 16) (h₂ : d₂ < 16)
    (h₃ : d₃ < 16) {rest : List Byte} (h : uj.chars = hex.getD d₃ 0 :: hex.getD d₂ 0 ::
      hex.getD d₁ 0 :: hex.getD d₀ 0 :: rest) :
    consumeHex.run uj = .ok ((BitVec.ofNat 32 d₃ <<< 12) ||| (BitVec.ofNat 32 d₂ <<< 8) |||
      (BitVec.ofNat 32 d₁ <<< 4) ||| BitVec.ofNat 32 d₀) (uj.at rest) := by
  rw [consumeHex, EStateM.run_bind, run_consumeHexdigit h₃ h]
  simp only
  rw [EStateM.run_bind, run_consumeHexdigit h₂ (uj.chars_at _)]
  simp only
  rw [EStateM.run_bind, run_consumeHexdigit h₁ (Ujson.chars_at _ _)]
  simp only
  rw [EStateM.run_bind, run_consumeHexdigit h₀ (Ujson.chars_at _ _)]
  rfl

/-! ### Escapes -/

/-- How a character of a string is written, and what the escape stands for. -/
inductive Escapes (ch : Byte) : List Byte → Prop where
  | plain (hquote : ch ≠ 0x22) (hslash : ch ≠ 0x5c) : Escapes ch [ch]
  | named (e : Byte) (h : ∀ uj, (unescape e).run uj = .ok (ch.setWidth 32) uj) :
    Escapes ch [0x5c, e]
  | code : Escapes ch [0x5c, 0x75, 0x30, 0x30, hex.getD (ch >>> 4).toNat 0,
      hex.getD (ch &&& 0xf).toNat 0]

theorem escapes_escapeChar (ch : Byte) : Escapes ch (escapeChar ch) := by
  have hnamed : ∀ e c : Byte, (∀ uj, (unescape e).run uj = .ok (c.setWidth 32) uj) → ch = c →
      Escapes ch [0x5c, e] := fun e c hrun hch => .named e (hch ▸ hrun)
  unfold escapeChar
  split_ifs with hplain hquote hslash hb hf hn hr ht
  · exact hnamed 0x22 0x22 (fun _ => rfl) hquote
  · exact hnamed 0x5c 0x5c (fun _ => rfl) hslash
  · exact hnamed 0x62 0x08 (fun _ => rfl) hb
  · exact hnamed 0x66 0x0c (fun _ => rfl) hf
  · exact hnamed 0x6e 0x0a (fun _ => rfl) hn
  · exact hnamed 0x72 0x0d (fun _ => rfl) hr
  · exact hnamed 0x74 0x09 (fun _ => rfl) ht
  · exact .code
  · exact .plain (fun h => hplain (.inr (.inl h))) fun h => hplain (.inr (.inr (.inl h)))

theorem Escapes.length_pos {ch : Byte} {cs : List Byte} (h : Escapes ch cs) : 0 < cs.length := by
  cases h <;> exact Nat.zero_lt_succ _

theorem length_le_flatMap_escapeChar (s : List Byte) :
    s.length ≤ (s.flatMap escapeChar).length := by
  induction s with
  | nil => exact le_rfl
  | cons ch s ih =>
    have hch := (escapes_escapeChar ch).length_pos
    rw [List.flatMap_cons, List.length_append, List.length_cons]
    omega

theorem toNat_shiftRight_nibble (ch : Byte) : (ch >>> 4).toNat < 16 := by
  rw [BitVec.toNat_ushiftRight, Nat.shiftRight_eq_div_pow]
  have := ch.isLt
  omega

theorem toNat_and_nibble (ch : Byte) : (ch &&& 0xf).toNat < 16 :=
  lt_of_le_of_lt Nat.and_le_right (by decide)

/-- The two halves of a byte. -/
theorem or_nibbles (ch : Byte) :
    ((BitVec.ofNat 32 0 <<< 12) ||| (BitVec.ofNat 32 0 <<< 8) |||
      (BitVec.ofNat 32 (ch >>> 4).toNat <<< 4) |||
        BitVec.ofNat 32 (ch &&& 0xf).toNat).setWidth 8 = ch := by
  revert ch
  decide

/-! ### The loop over a written string -/

def Ujson.store (uj : Ujson) (i : ℕ) (ch : Byte) : Ujson :=
  { uj with dest := Function.update uj.dest i ch }

@[simp] theorem Ujson.chars_store (uj : Ujson) (i : ℕ) (ch : Byte) :
    (uj.store i ch).chars = uj.chars := rfl

theorem run_storeChar (uj : Ujson) (i : ℕ) (ch : Byte) :
    (storeChar i ch).run uj = .ok () (uj.store i ch) := rfl

/-- One round, on a character as it is written, which is stored if there is room. -/
theorem run_parseQsLoop_round {uj : Ujson} {ch : Byte} {cs rest : List Byte}
    (hcs : Escapes ch cs) (h : uj.chars = cs ++ rest) (fuel : ℕ) (len : Word) (n : ℕ) :
    (parseQsLoop (fuel + 1) len n).run uj =
      if 0 < len then (parseQsLoop fuel (len - 1) (n + 1)).run ((uj.at rest).store n ch)
      else (parseQsLoop fuel len n).run (uj.at rest) := by
  have hrest : ∀ (vj : Ujson) (w : Word), w.setWidth 8 = ch →
      (if 0 < len then do
          storeChar n (w.setWidth 8)
          parseQsLoop fuel (len - 1) (n + 1)
        else parseQsLoop fuel len n : UjsonM ℕ).run vj =
        if 0 < len then (parseQsLoop fuel (len - 1) (n + 1)).run (vj.store n ch)
        else (parseQsLoop fuel len n).run vj := by
    intro vj w hw
    split_ifs
    · rw [EStateM.run_bind, run_storeChar, hw]
    · rfl
  rw [parseQsLoop]
  cases hcs with
  | plain hquote hslash =>
    rw [run_tryGetc_bind h, if_neg hquote, if_neg hslash]
    exact hrest _ _ (BitVec.setWidth_setWidth_of_le ch (by decide))
  | named e he =>
    have h : uj.chars = 0x5c :: e :: rest := h
    rw [run_tryGetc_bind h, if_neg (by decide), if_pos rfl, run_tryGetc_bind (uj.chars_at _),
      EStateM.run_bind, he]
    exact hrest _ _ (BitVec.setWidth_setWidth_of_le ch (by decide))
  | code =>
    have h : uj.chars = 0x5c :: 0x75 :: 0x30 :: 0x30 :: hex.getD (ch >>> 4).toNat 0 ::
      hex.getD (ch &&& 0xf).toNat 0 :: rest := h
    have hhex : ∀ vj : Ujson, vj.chars = 0x30 :: 0x30 :: hex.getD (ch >>> 4).toNat 0 ::
        hex.getD (ch &&& 0xf).toNat 0 :: rest → consumeHex.run vj = .ok _ (vj.at rest) :=
      fun vj => run_consumeHex (toNat_and_nibble ch) (toNat_shiftRight_nibble ch)
        (by decide : 0 < 16) (by decide : 0 < 16)
    rw [run_tryGetc_bind h, if_neg (by decide), if_pos rfl, run_tryGetc_bind (uj.chars_at _),
      EStateM.run_bind, show unescape 0x75 = consumeHex from rfl, hhex _ (Ujson.chars_at _ _)]
    exact hrest _ _ (or_nibbles ch)

theorem run_parseQsLoop_escape {uj : Ujson} {ch : Byte} {cs rest : List Byte}
    (hcs : Escapes ch cs) (h : uj.chars = cs ++ rest) (fuel : ℕ) {len : Word} (hlen : 0 < len)
    (n : ℕ) : (parseQsLoop (fuel + 1) len n).run uj =
      (parseQsLoop fuel (len - 1) (n + 1)).run ((uj.at rest).store n ch) := by
  rw [run_parseQsLoop_round hcs h, if_pos hlen]

/-- The characters of `s` from `n` on. -/
def Ujson.storeAll (uj : Ujson) (n : ℕ) : List Byte → Ujson
  | [] => uj
  | ch :: s => (uj.store n ch).storeAll (n + 1) s

theorem Ujson.dest_storeAll (uj : Ujson) (n : ℕ) (s : List Byte) (i : ℕ) :
    (uj.storeAll n s).dest i =
      if n ≤ i ∧ i < n + s.length then s.getD (i - n) 0 else uj.dest i := by
  induction s generalizing uj n with
  | nil => exact (if_neg (by simp only [List.length_nil]; omega)).symm
  | cons ch s ih =>
    have hstore : (uj.store n ch).dest i = if i = n then ch else uj.dest i :=
      Function.update_apply uj.dest n ch i
    rw [storeAll, ih, hstore, List.length_cons]
    rcases Nat.lt_trichotomy i n with hi | rfl | hi
    · rw [if_neg (by omega), if_neg (by omega), if_neg (by omega)]
    · rw [if_neg (by omega), if_pos rfl, if_pos (by omega), Nat.sub_self, List.getD_cons_zero]
    · obtain ⟨k, rfl⟩ := Nat.exists_eq_add_of_lt hi
      rw [show n + k + 1 - (n + 1) = k by omega, show n + k + 1 - n = k + 1 by omega,
        List.getD_cons_succ]
      refine if_congr (by omega) rfl (if_neg (by omega))

theorem Ujson.at_storeAll (uj : Ujson) (n : ℕ) (s rest : List Byte) :
    (uj.at rest).storeAll n s = (uj.storeAll n s).at rest := by
  induction s generalizing uj n with
  | nil => rfl
  | cons ch s ih => exact ih (uj.store n ch) (n + 1)

theorem run_parseQsLoop {uj : Ujson} {s rest : List Byte}
    (h : uj.chars = s.flatMap escapeChar ++ 0x22 :: rest) {fuel : ℕ} (hfuel : s.length < fuel)
    {len : Word} (hlen : s.length ≤ len.toNat) (n : ℕ) : (parseQsLoop fuel len n).run uj =
      .ok (n + s.length) ((uj.storeAll n (s ++ [0])).at rest) := by
  induction s generalizing uj fuel len n with
  | nil =>
    obtain ⟨fuel, rfl⟩ := Nat.exists_eq_add_of_lt hfuel
    rw [parseQsLoop, run_tryGetc_bind h, if_pos rfl]
    rfl
  | cons ch s ih =>
    obtain ⟨fuel, rfl⟩ := Nat.exists_eq_add_of_lt hfuel
    rw [List.length_cons] at hlen
    have hlen' : 0 < len.toNat := by omega
    have hpos : 0 < len := hlen'
    have hsub : (len - 1).toNat = len.toNat - 1 := BitVec.toNat_sub_of_le (show 1 ≤ len from hlen')
    rw [List.flatMap_cons, List.append_assoc] at h
    rw [run_parseQsLoop_escape (escapes_escapeChar ch) h _ hpos,
      ih rfl (by rw [List.length_cons]; omega) (by omega), List.length_cons, List.cons_append,
      Ujson.storeAll, ← Ujson.at_storeAll, ← Ujson.at_storeAll]
    congr 1
    omega

theorem run_serializeChars (uj : Ujson) {s : List Byte} (hs : 0 ∉ s) (tail : List Byte) :
    (serializeChars (s ++ 0 :: tail)).run uj =
      .ok () { uj with output := uj.output ++ s.flatMap escapeChar } := by
  induction s generalizing uj with
  | nil =>
    rw [List.flatMap_nil, List.append_nil]
    rfl
  | cons ch s ih =>
    obtain ⟨hch, hs⟩ := not_or.1 (List.mem_cons.not.1 hs)
    rw [List.cons_append, serializeChars, if_pos (Ne.symm hch), EStateM.run_bind]
    refine (ih { uj with output := uj.output ++ escapeChar ch } hs).trans ?_
    rw [List.flatMap_cons, ← List.append_assoc]

/-- The characters of a written string. -/
def quoted (s : List Byte) : List Byte := 0x22 :: s.flatMap escapeChar ++ [0x22]

theorem run_ujsonSerializeString (uj : Ujson) {s : List Byte} (hs : 0 ∉ s) (tail : List Byte) :
    (ujsonSerializeString (s ++ 0 :: tail)).run uj =
      .ok () { uj with output := uj.output ++ quoted s } := by
  have hchars := run_serializeChars { uj with output := uj.output ++ [0x22] } hs tail
  rw [ujsonSerializeString, EStateM.run_bind]
  change (serializeChars (s ++ 0 :: tail) >>= fun _ => ujsonPutbuf (ascii "\"")).run
    { uj with output := uj.output ++ [0x22] } = _
  rw [EStateM.run_bind, hchars]
  change EStateM.Result.ok () { uj with output := _ } = _
  congr 2
  simp only [quoted, List.append_assoc, List.cons_append, List.nil_append]
  rfl

/-! ### Bounds -/

/-- A reader that leaves the memory alone and does not put back more than it took. -/
def TakesInput {α : Type} (x : UjsonM α) : Prop :=
  ∀ uj, Triple (· = uj) x (fun _ vj => vj.dest = uj.dest ∧ vj.chars.length ≤ uj.chars.length)
    fun e vj => e ≠ .outOfFuel ∧ vj.dest = uj.dest

theorem TakesInput.pure {α : Type} (a : α) : TakesInput (pure a) :=
  fun _ => .pure a (by rintro _ rfl; exact ⟨rfl, le_rfl⟩)

theorem TakesInput.throw {α : Type} (code : AbslStatus) :
    TakesInput (throw (.status code) : UjsonM α) :=
  fun _ => .throw _ (by rintro _ rfl; exact ⟨(by rintro ⟨⟩), rfl⟩)

theorem TakesInput.bind {α β : Type} {x : UjsonM α} {f : α → UjsonM β} (hx : TakesInput x)
    (hf : ∀ a, TakesInput (f a)) : TakesInput (x >>= f) := by
  refine fun uj => (hx uj).bind fun a => .of_state fun vj hvj => ?_
  refine (hf a vj).conseq (fun _ h => h) (fun _ wj hwj => ?_) fun e wj hwj => ?_
  · exact ⟨hwj.1.trans hvj.1, hwj.2.trans hvj.2⟩
  · exact ⟨hwj.1, hwj.2.trans hvj.1⟩

theorem TakesInput.ite {α : Type} (c : Prop) [Decidable c] {x y : UjsonM α} (hx : TakesInput x)
    (hy : TakesInput y) : TakesInput (if c then x else y) := by
  split_ifs
  · exact hx
  · exact hy

/-- A character is taken, or the source has ended. -/
theorem tryGetc_takes (uj : Ujson) : Triple (· = uj) tryGetc
    (fun _ vj => vj.dest = uj.dest ∧ vj.chars.length + 1 = uj.chars.length)
    fun e vj => e ≠ .outOfFuel ∧ vj.dest = uj.dest := by
  rintro uj rfl
  cases h : uj.chars with
  | nil =>
    rw [run_tryGetc_nil h]
    exact ⟨(by rintro ⟨⟩), rfl⟩
  | cons ch rest =>
    rw [run_tryGetc_cons h]
    exact ⟨rfl, rfl⟩

theorem reads_tryGetc : TakesInput tryGetc := fun uj =>
  (tryGetc_takes uj).conseq (fun _ h => h) (fun _ _ h => ⟨h.1, by omega⟩) fun _ _ h => h

theorem reads_consumeWhitespaceLoop (fuel : ℕ) (uj : Ujson) (hfuel : uj.chars.length < fuel) :
    Triple (· = uj) (consumeWhitespaceLoop fuel)
      (fun _ vj => vj.dest = uj.dest ∧ vj.chars.length ≤ uj.chars.length)
      fun e vj => e ≠ .outOfFuel ∧ vj.dest = uj.dest := by
  induction fuel generalizing uj with
  | zero => omega
  | succ fuel ih =>
    refine (tryGetc_takes uj).bind fun ch => .of_state fun vj hvj => ?_
    refine .ite _ (fun _ => ?_) fun _ => ?_
    · refine (ih vj (by omega)).conseq (fun _ h => h) (fun _ wj hwj => ?_) fun e wj hwj => ?_
      · exact ⟨hwj.1.trans hvj.1, by omega⟩
      · exact ⟨hwj.1, hwj.2.trans hvj.1⟩
    · exact .pure ch (by rintro _ rfl; exact ⟨hvj.1, by omega⟩)

theorem reads_consumeWhitespace : TakesInput consumeWhitespace := fun uj =>
  Triple.bind (R := fun r vj => r = uj ∧ vj = uj) (.get (by rintro _ rfl; exact ⟨rfl, rfl⟩))
    fun _ => .of_pre (by rintro rfl; exact reads_consumeWhitespaceLoop _ _ (Nat.lt_succ_self _))

theorem reads_ujsonConsume (ch : Byte) : TakesInput (ujsonConsume ch) :=
  reads_consumeWhitespace.bind fun _ => .ite _ (.throw _) (.pure _)

theorem reads_consumeHexdigit : TakesInput consumeHexdigit :=
  reads_tryGetc.bind fun _ => .ite _ (.pure _) (.ite _ (.pure _) (.ite _ (.pure _) (.throw _)))

theorem reads_consumeHex : TakesInput consumeHex :=
  reads_consumeHexdigit.bind fun _ => reads_consumeHexdigit.bind fun _ =>
    reads_consumeHexdigit.bind fun _ => reads_consumeHexdigit.bind fun _ => .pure _

theorem reads_unescape (ch : Byte) : TakesInput (unescape ch) :=
  .ite _ (.pure _) (.ite _ (.pure _) (.ite _ (.pure _) (.ite _ (.pure _) (.ite _ (.pure _)
    (.ite _ (.pure _) (.ite _ reads_consumeHex (.throw _)))))))

/-- The loop stores nothing beyond the place for the terminator, which it stores at the end. -/
theorem parseQsLoop_bounds (fuel : ℕ) (len : Word) (n : ℕ) (uj : Ujson)
    (hfuel : uj.chars.length < fuel) : Triple (· = uj) (parseQsLoop fuel len n)
      (fun r vj => r ≤ n + len.toNat ∧ vj.dest r = 0 ∧
        ∀ i, n + len.toNat < i → vj.dest i = uj.dest i)
      fun e vj => e ≠ .outOfFuel ∧ ∀ i, n + len.toNat < i → vj.dest i = uj.dest i := by
  induction fuel generalizing len n uj with
  | zero => omega
  | succ fuel ih =>
    have hweaken : ∀ {α : Type} {x : UjsonM α} {P : Ujson → Prop} {Q : α → Ujson → Prop}
        {vj : Ujson}, vj.dest = uj.dest →
        Triple P x Q (fun e wj => e ≠ .outOfFuel ∧ wj.dest = vj.dest) →
        Triple P x Q fun e wj => e ≠ .outOfFuel ∧ ∀ i, n + len.toNat < i →
          wj.dest i = uj.dest i := fun hvj hx =>
      hx.conseq (fun _ h => h) (fun _ _ h => h) fun _ _ h => ⟨h.1, fun i _ => by rw [h.2, hvj]⟩
    -- the rest of a round, once the character is known
    have hround : ∀ (w : Word) (vj : Ujson), vj.dest = uj.dest ∧ vj.chars.length < fuel →
        Triple (· = vj) (if 0 < len then do
            storeChar n (w.setWidth 8)
            parseQsLoop fuel (len - 1) (n + 1)
          else parseQsLoop fuel len n)
        (fun r wj => r ≤ n + len.toNat ∧ wj.dest r = 0 ∧
          ∀ i, n + len.toNat < i → wj.dest i = uj.dest i)
        fun e wj => e ≠ .outOfFuel ∧ ∀ i, n + len.toNat < i → wj.dest i = uj.dest i := by
      rintro w vj ⟨hdest, hchars⟩
      refine .ite _ (fun hlen => ?_) fun hlen => ?_
      · have hsub : (len - 1).toNat + 1 = len.toNat :=
          (congrArg (· + 1) (BitVec.toNat_sub_of_le (show 1 ≤ len from hlen))).trans
            (Nat.sub_add_cancel hlen)
        have hstore : ∀ i, n + len.toNat < i → (vj.store n (w.setWidth 8)).dest i = uj.dest i :=
          fun i hi => (Function.update_of_ne (by omega) _ _).trans (congrFun hdest i)
        refine Triple.bind (R := fun _ => (· = vj.store n (w.setWidth 8)))
          (.modify _ (by rintro _ rfl; rfl)) fun _ => ?_
        refine (ih (len - 1) (n + 1) (vj.store n (w.setWidth 8)) hchars).conseq (fun _ h => h)
          (fun r wj h => ?_) fun e wj h => ?_
        · exact ⟨by omega, h.2.1, fun i hi => (h.2.2 i (by omega)).trans (hstore i hi)⟩
        · exact ⟨h.1, fun i hi => (h.2 i (by omega)).trans (hstore i hi)⟩
      · refine (ih len n vj hchars).conseq (fun _ h => h) (fun r wj h => ?_) fun e wj h => ?_
        · exact ⟨h.1, h.2.1, fun i hi => (h.2.2 i hi).trans (congrFun hdest i)⟩
        · exact ⟨h.1, fun i hi => (h.2 i hi).trans (congrFun hdest i)⟩
    rw [parseQsLoop]
    refine (hweaken rfl (tryGetc_takes uj)).bind fun ch => .of_state fun vj hvj => ?_
    refine .ite _ (fun _ => ?_) fun _ => .ite _ (fun _ => ?_) fun _ => ?_
    · refine Triple.bind (R := fun _ => (· = vj.store n 0)) (.modify _ (by rintro _ rfl; rfl))
        fun _ => .pure n ?_
      rintro _ rfl
      refine ⟨Nat.le_add_right _ _, Function.update_self _ _ _, fun i hi => ?_⟩
      exact (Function.update_of_ne (by omega) _ _).trans (congrFun hvj.1 i)
    · refine (hweaken hvj.1 (reads_tryGetc vj)).bind fun e => .of_state fun wj hwj => ?_
      have hwj' : wj.dest = uj.dest := hwj.1.trans hvj.1
      refine (hweaken hwj' (reads_unescape e wj)).bind fun w => .of_state fun xj hxj => ?_
      exact hround w xj ⟨hxj.1.trans hwj', by omega⟩
    · exact hround (ch.setWidth 32) vj ⟨hvj.1, by omega⟩

theorem ujsonParseQs_bounds (uj : Ujson) {len : Word} (hlen : 0 < len.toNat) :
    Triple (· = uj) (ujsonParseQs len)
      (fun n vj => n < len.toNat ∧ vj.dest n = 0 ∧ ∀ i, len.toNat ≤ i → vj.dest i = uj.dest i)
      fun e vj => e ≠ .outOfFuel ∧ ∀ i, len.toNat ≤ i → vj.dest i = uj.dest i := by
  have hsub : (len - 1).toNat = len.toNat - 1 := BitVec.toNat_sub_of_le (show 1 ≤ len from hlen)
  refine Triple.bind ((reads_ujsonConsume 0x22 uj).conseq (fun _ h => h) (fun _ _ h => h)
    fun e vj h => ⟨h.1, fun i _ => congrFun h.2 i⟩) fun _ => .of_state fun vj hvj => ?_
  refine Triple.bind (R := fun r wj => r = vj ∧ wj = vj) (.get (by rintro _ rfl; exact ⟨rfl, rfl⟩))
    fun _ => .of_pre ?_
  rintro rfl
  refine (parseQsLoop_bounds _ (len - 1) 0 _ (Nat.lt_succ_self _)).conseq (fun _ h => h)
    (fun r wj h => ?_) fun e wj h => ?_
  · exact ⟨by omega, h.2.1, fun i hi => (h.2.2 i (by omega)).trans (congrFun hvj.1 i)⟩
  · exact ⟨h.1, fun i hi => (h.2 i (by omega)).trans (congrFun hvj.1 i)⟩

/-! ### The round trip -/

theorem run_ujsonParseQs {uj : Ujson} {s rest : List Byte} (h : uj.chars = quoted s ++ rest)
    {len : Word} (hlen : s.length < len.toNat) : (ujsonParseQs len).run uj =
      .ok s.length ((uj.storeAll 0 (s ++ [0])).at rest) := by
  have hsub : (len - 1).toNat = len.toNat - 1 :=
    BitVec.toNat_sub_of_le (show 1 ≤ len from show 1 ≤ len.toNat by omega)
  have hquoted : uj.chars = 0x22 :: (s.flatMap escapeChar ++ 0x22 :: rest) :=
    h.trans (by simp only [quoted, List.cons_append, List.append_assoc, List.nil_append])
  have hfuel : s.length < (s.flatMap escapeChar ++ 0x22 :: rest).length + 1 := by
    have hle := length_le_flatMap_escapeChar s
    rw [List.length_append]
    omega
  rw [ujsonParseQs, EStateM.run_bind, run_ujsonConsume hquoted (by decide)]
  refine (run_parseQsLoop (uj.chars_at _) hfuel (by omega) 0).trans ?_
  rw [Nat.zero_add, Ujson.at_storeAll, Ujson.at_at]

/-- A string without terminators is read back from the characters it is written as, which are used
up, and is stored with a terminator and nothing else. On any input no character is stored outside
of the buffer, the reader ends, and the string has a terminator inside of the buffer when it
succeeds. -/
theorem ujson_string_round_trip_bounds :
    (∀ (s tail : List Byte), 0 ∉ s → ∀ out uj : Ujson, ∃ text,
      (ujsonSerializeString (s ++ 0 :: tail)).run out =
        .ok () { out with output := out.output ++ text } ∧
      ∀ (rest : List Byte) (len : Word), uj.chars = text ++ rest → s.length < len.toNat →
        ∃ vj, (ujsonParseQs len).run uj = .ok s.length vj ∧ vj.chars = rest ∧
          ∀ i, vj.dest i = if i ≤ s.length then (s ++ [0]).getD i 0 else uj.dest i) ∧
    ∀ (uj : Ujson) (len : Word), 0 < len.toNat →
      Outcome (fun n vj => n < len.toNat ∧ vj.dest n = 0 ∧
          ∀ i, len.toNat ≤ i → vj.dest i = uj.dest i)
        (fun e vj => e ≠ .outOfFuel ∧ ∀ i, len.toNat ≤ i → vj.dest i = uj.dest i)
        ((ujsonParseQs len).run uj) := by
  refine ⟨fun s tail hs out uj => ⟨quoted s, run_ujsonSerializeString out hs tail, ?_⟩,
    fun uj len hlen => ujsonParseQs_bounds uj hlen uj rfl⟩
  intro rest len huj hlen
  refine ⟨_, run_ujsonParseQs huj hlen, Ujson.chars_at _ _, fun i => ?_⟩
  refine (Ujson.dest_storeAll uj 0 (s ++ [0]) i).trans ?_
  rw [List.length_append, Nat.sub_zero]
  exact if_congr (by simp only [List.length_singleton]; omega) rfl rfl

/-- A string that ends too early is left without a terminator. -/
theorem ujsonParseQs_without_terminator :
    ∃ (uj : Ujson) (len : Word), 0 < len.toNat ∧
      ∀ i, (final ((ujsonParseQs len).run uj)).dest i ≠ 0 := by
  refine ⟨⟨[0x22, 0x61], .resourceExhausted, none, [], fun _ => 0xff⟩, 4, by decide, fun i => ?_⟩
  change Function.update (fun _ => (0xff : Byte)) 0 0x61 i ≠ 0
  rw [Function.update_apply]
  split_ifs
  · decide
  · decide

end SecureBoot
