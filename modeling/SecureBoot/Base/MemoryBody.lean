import SecureBoot.Base.MemoryFunctions

/-! The body of the memory functions: it is made of aligned words, and what a round does with a
word is what it would do with the bytes of the word one after another. -/

namespace SecureBoot

namespace Ram

/-! ### The three parts -/

theorem item_add (ptr : Word) (i k : ℕ) : item ptr (i + k) = item ptr i + .ofNat 32 k := by
  rw [item, item, BitVec.ofNat_add, BitVec.add_assoc]

theorem indices_one (i stop : ℕ) : indices i stop 1 = List.range' i (stop - i) := by
  rw [indices, Nat.add_sub_cancel, Nat.div_one]

theorem indices_words (b n : ℕ) : indices b (b + 4 * n) 4 = List.range' b n 4 := by
  rw [indices, show (b + 4 * n - b + 4 - 1) / 4 = n by omega]

theorem toNat_toAligned {ptr : Word} :
    ((4 - misalignment32Of ptr) &&& 0x3).toNat = (4 - ptr.toNat % 4) % 4 := by
  have hle : misalignment32Of ptr ≤ 4 := by
    change (misalignment32Of ptr).toNat ≤ 4
    rw [toNat_misalignment32Of]
    omega
  rw [BitVec.toNat_and, BitVec.toNat_sub_of_le hle, toNat_misalignment32Of]
  exact Nat.and_two_pow_sub_one_eq_mod _ 2

/-- The head is everything, or the body starts at aligned addresses. -/
theorem computeNumLeadingBytes_spec (left right len : Word) :
    computeNumLeadingBytes left right len = len ∨
      (computeNumLeadingBytes left right len).toNat < 4 ∧ 4 ≤ len.toNat ∧
      misalignment32Of (item left (computeNumLeadingBytes left right len).toNat) = 0 ∧
      (right ≠ 0 →
        misalignment32Of (item right (computeNumLeadingBytes left right len).toNat) = 0) := by
  have haligned : ∀ ptr : Word, ptr.toNat % 4 = left.toNat % 4 →
      misalignment32Of (item ptr ((4 - misalignment32Of left) &&& 0x3).toNat) = 0 := by
    intro ptr hptr
    apply BitVec.eq_of_toNat_eq
    rw [toNat_misalignment32Of, item, BitVec.toNat_add, BitVec.toNat_ofNat, toNat_toAligned]
    change _ = 0
    omega
  simp only [computeNumLeadingBytes]
  split_ifs with hlen hahead
  · exact .inl rfl
  · refine .inr ⟨?_, not_lt.1 hlen, haligned left rfl, fun hright => haligned right ?_⟩
    · rw [toNat_toAligned]
      omega
    · have heq := congrArg BitVec.toNat (hahead.resolve_left hright)
      rw [toNat_misalignment32Of, toNat_misalignment32Of] at heq
      exact heq.symm
  · exact .inl rfl

/-- What the two offsets are: the body is made of whole words, which are aligned. -/
theorem computeAlignment_spec (left right len : Word) : ∃ b n,
    (computeAlignment left right len).1.toNat = b ∧
    (computeAlignment left right len).2.toNat = b + 4 * n ∧ b + 4 * n ≤ len.toNat ∧
    (n ≠ 0 → misalignment32Of (item left b) = 0 ∧
      (right ≠ 0 → misalignment32Of (item right b) = 0)) := by
  have hlen : len.toNat < 2 ^ 32 := len.isLt
  refine ⟨(computeNumLeadingBytes left right len).toNat,
    (len.toNat - (computeNumLeadingBytes left right len).toNat) / 4, rfl, ?_⟩
  have htail : (computeNumLeadingBytes left right len).toNat ≤ len.toNat →
      (computeAlignment left right len).2.toNat = (computeNumLeadingBytes left right len).toNat +
        4 * ((len.toNat - (computeNumLeadingBytes left right len).toNat) / 4) := by
    intro hle
    rw [computeAlignment]
    simp only
    rw [BitVec.toNat_add, BitVec.toNat_mul, BitVec.toNat_udiv, BitVec.toNat_sub_of_le hle]
    change (_ + _ / 4 * 4 % 2 ^ 32) % 2 ^ 32 = _
    omega
  rcases computeNumLeadingBytes_spec left right len with h | ⟨hlt, hle, hleft, hright⟩
  · refine ⟨htail (by rw [h]), ?_, fun hn => absurd ?_ hn⟩
    · rw [h]
      omega
    · rw [h, Nat.sub_self]
  · exact ⟨htail (by omega), by omega, fun _ => ⟨hleft, hright⟩⟩

/-- The words of the body are aligned. -/
theorem misalignment32Of_item {ptr : Word} {b n : ℕ} (h : misalignment32Of (item ptr b) = 0)
    {a : ℕ} (ha : a ∈ List.range' b n 4) : misalignment32Of (item ptr a) = 0 := by
  obtain ⟨j, -, rfl⟩ := List.mem_range'.1 ha
  have hmod := congrArg BitVec.toNat h
  apply BitVec.eq_of_toNat_eq
  rw [toNat_misalignment32Of] at hmod ⊢
  rw [item_add, BitVec.toNat_add, BitVec.toNat_ofNat]
  change (item ptr b).toNat % 4 = 0 at hmod
  change _ = 0
  omega

theorem ne_zero_of_mem_range' {a b n : ℕ} (h : a ∈ List.range' b n 4) : n ≠ 0 := by
  rintro rfl
  exact absurd h List.not_mem_nil

section Search

variable {α : Type} {f g : ℕ → RamM (Option α)}

/-- Three loops with an exit are one loop over all of the indices. -/
theorem find_three (l₁ l₂ l₃ : List ℕ) (block : ℕ → List ℕ)
    (h : ∀ a ∈ l₂, g a = (block a).findSomeM? f) (d : α) :
    (loopThen (l₁.findSomeM? f) <| loopThen (l₂.findSomeM? g) <| loopThen (l₃.findSomeM? f) <|
      pure d) = (l₁ ++ (l₂.flatMap block ++ l₃)).findSomeM? f >>= fun r => pure (r.getD d) := by
  rw [loopThen, loopThen, loopThen, Traverse.findSomeM?_append, Traverse.findSomeM?_append,
    Traverse.findSomeM?_flatMap, Traverse.findSomeM?_congr h, bind_assoc]
  refine bind_congr fun r => ?_
  cases r with
  | some r => rw [pure_bind]; rfl
  | none =>
    rw [bind_assoc]
    refine bind_congr fun r => ?_
    cases r with
    | some r => rw [pure_bind]; rfl
    | none =>
      refine bind_congr fun r => ?_
      cases r <;> rfl

/-- A loop whose rounds leave the memory alone. -/
theorem run_findSomeM? {ram : Ram} {r : ℕ → Option α} {l : List ℕ}
    (h : ∀ a ∈ l, (f a).run ram = some (r a, ram)) :
    (l.findSomeM? f).run ram = some (l.findSome? r, ram) := by
  induction l with
  | nil => rfl
  | cons a l ih =>
    obtain ⟨ha, hl⟩ := List.forall_mem_cons.1 h
    rw [List.findSomeM?_cons, StateT.run_bind, ha, List.findSome?_cons]
    cases hr : r a with
    | some b => rfl
    | none => exact ih hl

theorem run_findSomeM?_none {ram : Ram} {a : ℕ} {l : List ℕ} (h : (f a).run ram = none) :
    ((a :: l).findSomeM? f).run ram = none := by
  rw [List.findSomeM?_cons, StateT.run_bind, h]
  rfl

end Search

/-- A byte of an aligned word. -/
theorem byteAt_item {ptr : Word} {a : ℕ} (h : misalignment32Of (item ptr a) = 0) {k : ℕ}
    (hk : k < 4) (ram : Ram) :
    ram.byteAt (item ptr (a + k)) = (ram (wordIndex (item ptr a))).map (·.byte k) := by
  rw [byteAt, item_add, wordIndex_add h hk, misalignment32Of_add h hk]

/-! ### A word at a time -/

theorem cmpResult_lt {w : ℕ} {left right : BitVec w} (h : left.toNat < right.toNat) :
    cmpResult left right = some kMemCmpLt := if_pos h

theorem cmpResult_gt {w : ℕ} {left right : BitVec w} (h : right.toNat < left.toNat) :
    cmpResult left right = some kMemCmpGt := by
  rw [cmpResult, if_neg (fun hlt => absurd (BitVec.lt_def.1 hlt) (by omega))]
  exact if_pos h

theorem cmpResult_eq {w : ℕ} {left right : BitVec w} (h : left.toNat = right.toNat) :
    cmpResult left right = none := by
  rw [cmpResult, if_neg (fun hlt => absurd (BitVec.lt_def.1 hlt) (by omega)),
    if_neg (fun hlt => absurd (BitVec.lt_def.1 hlt) (by omega))]

/-- The bytes of two words, compared from the last one on. -/
theorem cmpResult_eq_bytes (left right : Word) : cmpResult left right =
    [3, 2, 1, 0].findSome? fun k => cmpResult (left.byte k) (right.byte k) := by
  have hl := left.toNat_eq_bytes
  have hr := right.toNat_eq_bytes
  have hlt : ∀ (w : Word) k, (w.byte k).toNat < 2 ^ 8 := fun w k => (w.byte k).isLt
  have hl₀ := hlt left 0
  have hl₁ := hlt left 1
  have hl₂ := hlt left 2
  have hr₀ := hlt right 0
  have hr₁ := hlt right 1
  have hr₂ := hlt right 2
  rw [List.findSome?_cons]
  rcases Nat.lt_trichotomy (left.byte 3).toNat (right.byte 3).toNat with h₃ | h₃ | h₃
  · rw [cmpResult_lt h₃, cmpResult_lt (by omega)]
  · rw [cmpResult_eq h₃, List.findSome?_cons]
    rcases Nat.lt_trichotomy (left.byte 2).toNat (right.byte 2).toNat with h₂ | h₂ | h₂
    · rw [cmpResult_lt h₂, cmpResult_lt (by omega)]
    · rw [cmpResult_eq h₂, List.findSome?_cons]
      rcases Nat.lt_trichotomy (left.byte 1).toNat (right.byte 1).toNat with h₁ | h₁ | h₁
      · rw [cmpResult_lt h₁, cmpResult_lt (by omega)]
      · rw [cmpResult_eq h₁, List.findSome?_singleton]
        rcases Nat.lt_trichotomy (left.byte 0).toNat (right.byte 0).toNat with h₀ | h₀ | h₀
        · rw [cmpResult_lt h₀, cmpResult_lt (by omega)]
        · rw [cmpResult_eq h₀, cmpResult_eq (by omega)]
        · rw [cmpResult_gt h₀, cmpResult_gt (by omega)]
      · rw [cmpResult_gt h₁, cmpResult_gt (by omega)]
    · rw [cmpResult_gt h₂, cmpResult_gt (by omega)]
  · rw [cmpResult_gt h₃, cmpResult_gt (by omega)]

theorem cmpResult_bswap32 (left right : Word) : cmpResult (bswap32 left) (bswap32 right) =
    [0, 1, 2, 3].findSome? fun k => cmpResult (left.byte k) (right.byte k) := by
  have hbytes : ∀ x : Word, (bswap32 x).toBytes = [x.byte 3, x.byte 2, x.byte 1, x.byte 0] :=
    fun x => Word.toBytes_ofBytes _ _ _ _
  obtain ⟨hl₀, hl⟩ := List.cons.inj (hbytes left)
  obtain ⟨hl₁, hl⟩ := List.cons.inj hl
  obtain ⟨hl₂, hl⟩ := List.cons.inj hl
  obtain ⟨hr₀, hr⟩ := List.cons.inj (hbytes right)
  obtain ⟨hr₁, hr⟩ := List.cons.inj hr
  obtain ⟨hr₂, hr⟩ := List.cons.inj hr
  rw [cmpResult_eq_bytes]
  simp only [List.findSome?_cons, List.findSome?_nil, Word.byte, Nat.mul_zero, Nat.mul_one,
    Nat.reduceMul, hl₀, hl₁, hl₂, List.cons.inj hl, hr₀, hr₁, hr₂, List.cons.inj hr]

theorem run_cmpByte {lhs rhs : Word} {a : ℕ} (hl : misalignment32Of (item lhs a) = 0)
    (hr : misalignment32Of (item rhs a) = 0) {k : ℕ} (hk : k < 4) (ram : Ram) :
    (cmpByte lhs rhs (a + k)).run ram = (ram (wordIndex (item lhs a))).bind fun left =>
      (ram (wordIndex (item rhs a))).map fun right =>
        (cmpResult (left.byte k) (right.byte k), ram) := by
  rw [cmpByte, StateT.run_bind, run_readByte, byteAt_item hl hk]
  cases ram (wordIndex (item lhs a)) with
  | none => rfl
  | some left =>
    simp only [Option.map_some, Option.bind_eq_bind, Option.bind_some]
    rw [StateT.run_bind, run_readByte, byteAt_item hr hk]
    cases ram (wordIndex (item rhs a)) <;> rfl

/-- A round on two words that compares their bytes in the order `ks`. -/
theorem cmpWord_eq {lhs rhs : Word} {a : ℕ} (hl : misalignment32Of (item lhs a) = 0)
    (hr : misalignment32Of (item rhs a) = 0) {k : ℕ} {ks : List ℕ} (hks : ∀ j ∈ k :: ks, j < 4)
    (word : Word → Word → Option ℤ) (hword : ∀ left right, word left right =
      (k :: ks).findSome? fun k => cmpResult (left.byte k) (right.byte k)) :
    (do return word (← read32 (item lhs a)) (← read32 (item rhs a)) : RamM (Option ℤ)) =
      ((k :: ks).map (a + ·)).findSomeM? (cmpByte lhs rhs) := by
  refine StateT.ext fun ram => ?_
  have hfirst := run_cmpByte hl hr (hks k List.mem_cons_self) ram
  rw [StateT.run_bind, run_read32 hl]
  cases hleft : ram (wordIndex (item lhs a)) with
  | none =>
    rw [hleft] at hfirst
    exact (run_findSomeM?_none hfirst).symm
  | some left =>
    simp only [Option.map_some, Option.bind_eq_bind, Option.bind_some]
    rw [StateT.run_bind, run_read32 hr]
    cases hright : ram (wordIndex (item rhs a)) with
    | none =>
      rw [hleft, hright] at hfirst
      exact (run_findSomeM?_none hfirst).symm
    | some right =>
      rw [run_findSomeM? (r := fun i => cmpResult (left.byte (i - a)) (right.byte (i - a)))]
      · rw [List.findSome?_map]
        simp only [Option.map_some, Option.bind_eq_bind, Option.bind_some, Function.comp_def,
          Nat.add_sub_cancel_left]
        rw [← hword]
        rfl
      · intro i hi
        obtain ⟨j, hj, rfl⟩ := List.mem_map.1 hi
        rw [run_cmpByte hl hr (hks j hj), hleft, hright, Nat.add_sub_cancel_left]
        rfl

theorem run_findByte {ptr : Word} {a : ℕ} (h : misalignment32Of (item ptr a) = 0) (value8 : Byte)
    {k : ℕ} (hk : k < 4) (ram : Ram) :
    (findByte ptr value8 (a + k)).run ram = (ram (wordIndex (item ptr a))).map fun word =>
      (if word.byte k = value8 then some (item ptr (a + k)) else none, ram) := by
  rw [findByte, StateT.run_bind, run_readByte, byteAt_item h hk]
  cases ram (wordIndex (item ptr a)) <;> rfl

/-- A round on a word that looks at its bytes in the order `ks`. -/
theorem findWord_eq {ptr : Word} {a : ℕ} (h : misalignment32Of (item ptr a) = 0) (value8 : Byte)
    {k : ℕ} {ks : List ℕ} (hks : ∀ j ∈ k :: ks, j < 4) (word : Word → Option Word)
    (hword : ∀ w, word w = (k :: ks).findSome? fun k =>
      if w.byte k = value8 then some (item ptr (a + k)) else none) :
    (do return word (← read32 (item ptr a)) : RamM (Option Word)) =
      ((k :: ks).map (a + ·)).findSomeM? (findByte ptr value8) := by
  refine StateT.ext fun ram => ?_
  have hfirst := run_findByte h value8 (hks k List.mem_cons_self) ram
  rw [StateT.run_bind, run_read32 h]
  cases hram : ram (wordIndex (item ptr a)) with
  | none =>
    rw [hram] at hfirst
    exact (run_findSomeM?_none hfirst).symm
  | some w =>
    rw [run_findSomeM? (r := fun i => if w.byte (i - a) = value8 then some (item ptr i) else none)]
    · rw [List.findSome?_map]
      simp only [Option.map_some, Option.bind_eq_bind, Option.bind_some, Function.comp_def,
        Nat.add_sub_cancel_left]
      rw [← hword]
      rfl
    · intro i hi
      obtain ⟨j, hj, rfl⟩ := List.mem_map.1 hi
      rw [run_findByte h value8 (hks j hj), hram, Nat.add_sub_cancel_left]
      rfl

/-- The bytes of `repeat_byte_to_u32`. -/
theorem byte_repeatByteToU32 (b : Byte) {k : ℕ} (hk : k < 4) : (repeatByteToU32 b).byte k = b := by
  refine BitVec.eq_of_getLsbD_eq fun i hi => ?_
  have hge : ∀ j, 8 ≤ j → b.getLsbD j = false := fun j hj => BitVec.getLsbD_of_ge b j hj
  rw [Word.getLsbD_byte _ _ hi]
  simp only [repeatByteToU32, BitVec.getLsbD_or, BitVec.getLsbD_shiftLeft, BitVec.getLsbD_setWidth]
  obtain rfl | rfl | rfl | rfl : k = 0 ∨ k = 1 ∨ k = 2 ∨ k = 3 := by omega
  all_goals grind

theorem and_ff_iff (x : Word) (k : ℕ) : (x >>> (8 * k)) &&& 0xff = 0xff ↔ x.byte k = 0xff := by
  have hand : ((x >>> (8 * k)) &&& 0xff).toNat = (x.byte k).toNat := by
    rw [BitVec.toNat_and, BitVec.toNat_ushiftRight, Nat.shiftRight_eq_div_pow, Word.toNat_byte]
    exact Nat.and_two_pow_sub_one_eq_mod _ 8
  rw [← BitVec.toNat_inj, ← BitVec.toNat_inj, hand]
  rfl

/-- The test of one byte of the equal bits. -/
theorem bits_eq_iff (w : Word) (b : Byte) {k : ℕ} (hk : k < 4) :
    (~~~(w ^^^ repeatByteToU32 b) >>> (8 * k)) &&& 0xff = 0xff ↔ w.byte k = b := by
  have hbyte : (~~~(w ^^^ repeatByteToU32 b)).byte k = ~~~(w.byte k ^^^ b) := by
    refine BitVec.eq_of_getLsbD_eq fun i hi => ?_
    have hb := congrArg (fun b : Byte => b.getLsbD i) (byte_repeatByteToU32 b hk)
    simp only [Word.getLsbD_byte _ _ hi] at hb
    rw [Word.getLsbD_byte _ _ hi, BitVec.getLsbD_not, BitVec.getLsbD_xor, BitVec.getLsbD_not,
      BitVec.getLsbD_xor, Word.getLsbD_byte _ _ hi, hb, decide_eq_true hi,
      decide_eq_true (by omega : 8 * k + i < 32)]
  rw [and_ff_iff, hbyte, show (0xff : Byte) = ~~~0 from rfl, BitVec.not_inj]
  exact BitVec.xor_eq_zero_iff

/-- Storing the bytes of `v` one after another into the word at an aligned address. The byte of
a round comes from `load`, which may look at the word that is stored to. -/
theorem run_writeBytes {dest : Word} {a : ℕ} (h : misalignment32Of (item dest a) = 0) {ram : Ram}
    {v w : Word} (hram : ram (wordIndex (item dest a)) = some w) (load : ℕ → RamM Byte)
    (hload : ∀ k < 4, (load (a + k)).run
      (Function.update ram (wordIndex (item dest a)) (some (Word.blend k v w))) =
        some (v.byte k, Function.update ram (wordIndex (item dest a)) (some (Word.blend k v w))))
    {n : ℕ} (hn : n ≤ 4) :
    ((List.range' a n).forM fun i => do writeByte (item dest i) (← load i)).run ram =
      some ((), Function.update ram (wordIndex (item dest a)) (some (Word.blend n v w))) := by
  induction n with
  | zero =>
    rw [Word.blend_zero, ← hram, Function.update_eq_self]
    rfl
  | succ n ih =>
    have hrun := run_writeByte (item dest (a + n)) (v.byte n)
      (Function.update ram (wordIndex (item dest a)) (some (Word.blend n v w)))
    rw [item_add, wordIndex_add h (by omega), misalignment32Of_add h (by omega),
      Function.update_self, Option.map_some, Word.setByte_blend, Function.update_idem] at hrun
    rw [List.range'_concat, Nat.one_mul, Traverse.forM_append, StateT.run_bind, ih (by omega),
      Option.bind_eq_bind, Option.bind_some]
    change ((load (a + n) >>= writeByte (item dest (a + n))) >>= fun _ => pure ()).run _ = _
    rw [bind_pure, StateT.run_bind, hload n (by omega), Option.bind_eq_bind, Option.bind_some,
      item_add]
    exact hrun

/-- The first byte of a word cannot be written when the word is not there. -/
theorem run_writeBytes_none {dest : Word} {a : ℕ} {ram : Ram} (load : ℕ → RamM Byte)
    (h : (do writeByte (item dest a) (← load a) : RamM Unit).run ram = none) :
    ((List.range' a 4).forM fun i => do writeByte (item dest i) (← load i)).run ram = none := by
  change ((do writeByte (item dest a) (← load a)) >>= fun _ =>
    (List.range' (a + 1) 3).forM fun i => do writeByte (item dest i) (← load i)).run ram = none
  rw [StateT.run_bind, h]
  rfl

theorem copyWord_eq {dest src : Word} {a : ℕ} (hd : misalignment32Of (item dest a) = 0)
    (hs : misalignment32Of (item src a) = 0) :
    (do write32 (← read32 (item src a)) (item dest a)) =
      (List.range' a 4).forM (copyByte dest src) := by
  refine StateT.ext fun ram => ?_
  have hread : ∀ ram : Ram, ∀ k < 4, (readByte (item src (a + k))).run ram =
      (ram (wordIndex (item src a))).map fun v => (v.byte k, ram) := by
    intro ram k hk
    rw [run_readByte, byteAt_item hs hk, Option.map_map]
    rfl
  have hfirst : (copyByte dest src a).run ram = (ram (wordIndex (item src a))).bind fun v =>
      (writeByte (item dest a) (v.byte 0)).run ram := by
    rw [copyByte, StateT.run_bind, show a = a + 0 from rfl, hread ram 0 (by decide)]
    cases ram (wordIndex (item src (a + 0))) <;> rfl
  rw [StateT.run_bind, run_read32 hs]
  cases hv : ram (wordIndex (item src a)) with
  | none =>
    rw [hv] at hfirst
    exact (run_writeBytes_none (fun i => readByte (item src i)) hfirst).symm
  | some v =>
    rw [hv, Option.bind_some, run_writeByte] at hfirst
    rw [Option.map_some, Option.bind_eq_bind, Option.bind_some, run_write32 hd]
    dsimp only
    cases hw : ram (wordIndex (item dest a)) with
    | none =>
      rw [hw] at hfirst
      exact (run_writeBytes_none (fun i => readByte (item src i)) hfirst).symm
    | some w =>
      rw [Option.map_some]
      symm
      refine (run_writeBytes hd (v := v) hw (fun i => readByte (item src i))
        (fun k hk => ?_) le_rfl).trans ?_
      · rw [hread _ k hk, Function.update_apply]
        split_ifs with hindex
        · have hvw : v = w := Option.some.inj (hv.symm.trans (hindex ▸ hw))
          rw [hvw, Word.blend_self]
          rfl
        · rw [hv]
          rfl
      · rw [Word.blend_four]

theorem setWord_eq {dest : Word} {a : ℕ} (h : misalignment32Of (item dest a) = 0)
    (value8 : Byte) : write32 (repeatByteToU32 value8) (item dest a) =
      (List.range' a 4).forM (setByte dest value8) := by
  refine StateT.ext fun ram => ?_
  have hpure : setByte dest value8 = fun i => pure value8 >>= writeByte (item dest i) :=
    funext fun i => (pure_bind _ _).symm
  rw [run_write32 h, hpure]
  cases hw : ram (wordIndex (item dest a)) with
  | none =>
    have hfirst : (writeByte (item dest a) value8).run ram = none := by
      rw [run_writeByte, hw]
      rfl
    rw [Option.map_none]
    exact (run_writeBytes_none (fun _ => pure value8) (by rw [pure_bind, hfirst])).symm
  | some w =>
    rw [Option.map_some]
    symm
    refine (run_writeBytes h (v := repeatByteToU32 value8) hw (fun _ => pure value8)
      (fun k hk => ?_) le_rfl).trans ?_
    · rw [byte_repeatByteToU32 value8 hk]
      rfl
    · rw [Word.blend_four]

end Ram

end SecureBoot

/-! The memory functions do what loops over the bytes do, for buffers at any addresses and of any
length, and neither touch a word that no byte of the buffers is in nor change another byte. -/

namespace SecureBoot

namespace Ram

/-! ### Whole runs -/

/-- A loop that stores has the same three parts. -/
theorem forM_three {f g : ℕ → RamM Unit} {b n len : ℕ} (hlen : b + 4 * n ≤ len)
    (h : ∀ a ∈ List.range' b n 4, g a = (List.range' a 4).forM f) {α : Type} (d : α) : (do
      (indices 0 b 1).forM f
      (indices b (b + 4 * n) 4).forM g
      (indices (b + 4 * n) len 1).forM f
      return d : RamM α) = (do (List.range len).forM f; return d) := by
  rw [Traverse.range_eq_blocks hlen, Traverse.forM_append, Traverse.forM_append,
    Traverse.forM_flatMap, ← Traverse.forM_congr h, indices_one, indices_words, indices_one,
    Nat.sub_zero, bind_assoc]
  refine bind_congr fun _ => ?_
  rw [bind_assoc]

theorem memcpy_eq_bytes {dest src : Word} (hdest : dest ≠ 0) (hsrc : src ≠ 0) (len : Word) :
    memcpy dest src len = memcpyBytes dest src len := by
  obtain ⟨b, n, hbody, htail, hlen, haligned⟩ := computeAlignment_spec dest src len
  rw [memcpy, if_neg (not_or.2 ⟨hdest, hsrc⟩)]
  simp only [hbody, htail]
  refine forM_three hlen (fun a ha => ?_) dest
  have hn := ne_zero_of_mem_range' ha
  exact copyWord_eq (misalignment32Of_item (haligned hn).1 ha)
    (misalignment32Of_item ((haligned hn).2 hsrc) ha)

theorem memset_eq_bytes (dest value len : Word) :
    memset dest value len = memsetBytes dest value len := by
  obtain ⟨b, n, hbody, htail, hlen, haligned⟩ := computeAlignment_spec dest 0 len
  rw [memset]
  simp only [hbody, htail]
  refine forM_three hlen (fun a ha => ?_) dest
  have hn := ne_zero_of_mem_range' ha
  exact setWord_eq (misalignment32Of_item (haligned hn).1 ha) _

section Search

variable {lhs rhs : Word} {b n len : ℕ}

/-- The three parts of a search from the front. -/
theorem find_forward {α : Type} {f g : ℕ → RamM (Option α)} (hlen : b + 4 * n ≤ len)
    (h : ∀ a ∈ List.range' b n 4, g a = (List.range' a 4).findSomeM? f) (d : α) :
    (loopThen ((indices 0 b 1).findSomeM? f) <|
      loopThen ((indices b (b + 4 * n) 4).findSomeM? g) <|
      loopThen ((indices (b + 4 * n) len 1).findSomeM? f) <| pure d) =
    (List.range len).findSomeM? f >>= fun r => pure (r.getD d) := by
  rw [indices_words, find_three _ _ _ (List.range' · 4) h, Traverse.range_eq_blocks hlen,
    indices_one, indices_one, Nat.sub_zero]

/-- The three parts of a search from the back. -/
theorem find_backward {α : Type} {f g : ℕ → RamM (Option α)} (hlen : b + 4 * n ≤ len)
    (h : ∀ a ∈ List.range' b n 4, g a = (List.range' a 4).reverse.findSomeM? f) (d : α) :
    (loopThen ((indices (b + 4 * n) len 1).reverse.findSomeM? f) <|
      loopThen ((indices b (b + 4 * n) 4).reverse.findSomeM? g) <|
      loopThen ((indices 0 b 1).reverse.findSomeM? f) <| pure d) =
    (List.range len).reverse.findSomeM? f >>= fun r => pure (r.getD d) := by
  rw [indices_words, find_three _ _ _ (fun a => (List.range' a 4).reverse)
    (fun a ha => h a (List.mem_reverse.1 ha)), Traverse.range_eq_blocks hlen, indices_one,
    indices_one, Nat.sub_zero, List.reverse_append, List.reverse_append, List.reverse_flatMap,
    List.append_assoc]
  rfl

/-- The order that a result stands for. -/
theorem cmpByte_map (lhs rhs : Word) (i : ℕ) : Option.map (compare · 0) <$> cmpByte lhs rhs i = (do
      let left ← readByte (item lhs i)
      let right ← readByte (item rhs i)
      return if left = right then none else some (compare left.toNat right.toNat)) := by
  rw [cmpByte, map_bind]
  refine bind_congr fun left => ?_
  rw [map_bind]
  refine bind_congr fun right => ?_
  rw [map_pure]
  rcases Nat.lt_trichotomy left.toNat right.toNat with h | h | h
  · rw [cmpResult_lt h, if_neg (fun heq => absurd (congrArg BitVec.toNat heq) (by omega)),
      Nat.compare_eq_lt.2 h]
    rfl
  · rw [cmpResult_eq h, if_pos (BitVec.eq_of_toNat_eq h)]
    rfl
  · rw [cmpResult_gt h, if_neg (fun heq => absurd (congrArg BitVec.toNat heq) (by omega)),
      Nat.compare_eq_gt.2 h]
    rfl

theorem map_findSomeM?_cmpByte (lhs rhs : Word) (l : List ℕ) :
    (compare · 0) <$> (l.findSomeM? (cmpByte lhs rhs) >>= fun r => pure (r.getD kMemCmpEq)) =
      cmpBytes lhs rhs l := by
  rw [cmpBytes, ← funext (cmpByte_map lhs rhs), Traverse.findSomeM?_map, map_bind, bind_map_left]
  refine bind_congr fun r => ?_
  cases r <;> rfl

theorem memcmp_eq_bytes (lhs : Word) {rhs : Word} (hrhs : rhs ≠ 0) (len : Word) :
    (compare · 0) <$> memcmp lhs rhs len = cmpBytes lhs rhs (List.range len.toNat) := by
  obtain ⟨b, n, hbody, htail, hlen, haligned⟩ := computeAlignment_spec lhs rhs len
  rw [← map_findSomeM?_cmpByte, memcmp]
  simp only [hbody, htail]
  refine congrArg _ (find_forward hlen (fun a ha => ?_) kMemCmpEq)
  have hn := ne_zero_of_mem_range' ha
  exact cmpWord_eq (misalignment32Of_item (haligned hn).1 ha)
    (misalignment32Of_item ((haligned hn).2 hrhs) ha) (by decide : ∀ j ∈ [0, 1, 2, 3], j < 4)
    (fun left right => cmpResult (bswap32 left) (bswap32 right)) cmpResult_bswap32

theorem memrcmp_eq_bytes (lhs : Word) {rhs : Word} (hrhs : rhs ≠ 0) (len : Word) :
    (compare · 0) <$> memrcmp lhs rhs len =
      cmpBytes lhs rhs (List.range len.toNat).reverse := by
  obtain ⟨b, n, hbody, htail, hlen, haligned⟩ := computeAlignment_spec lhs rhs len
  rw [← map_findSomeM?_cmpByte, memrcmp]
  simp only [hbody, htail]
  refine congrArg _ (find_backward hlen (fun a ha => ?_) kMemCmpEq)
  have hn := ne_zero_of_mem_range' ha
  exact cmpWord_eq (misalignment32Of_item (haligned hn).1 ha)
    (misalignment32Of_item ((haligned hn).2 hrhs) ha) (by decide : ∀ j ∈ [3, 2, 1, 0], j < 4)
    cmpResult cmpResult_eq_bytes

/-- The tests of the bytes of a word, in any order. -/
theorem bits_eq_chain (w : Word) (b : Byte) (k₀ k₁ k₂ k₃ : ℕ) (hk : ∀ k ∈ [k₀, k₁, k₂, k₃], k < 4)
    (place : ℕ → Word) :
    (if (~~~(w ^^^ repeatByteToU32 b) >>> (8 * k₀)) &&& 0xff = 0xff then some (place k₀)
      else if (~~~(w ^^^ repeatByteToU32 b) >>> (8 * k₁)) &&& 0xff = 0xff then some (place k₁)
      else if (~~~(w ^^^ repeatByteToU32 b) >>> (8 * k₂)) &&& 0xff = 0xff then some (place k₂)
      else if (~~~(w ^^^ repeatByteToU32 b) >>> (8 * k₃)) &&& 0xff = 0xff then some (place k₃)
      else none) =
    [k₀, k₁, k₂, k₃].findSome? fun k => if w.byte k = b then some (place k) else none := by
  simp only [List.forall_mem_cons] at hk
  simp only [bits_eq_iff w b hk.1, bits_eq_iff w b hk.2.1, bits_eq_iff w b hk.2.2.1,
    bits_eq_iff w b hk.2.2.2.1, List.findSome?_cons, List.findSome?_nil]
  split_ifs <;> rfl

theorem memchr_eq_bytes (ptr value len : Word) :
    memchr ptr value len = findBytes ptr value (List.range len.toNat) := by
  obtain ⟨b, n, hbody, htail, hlen, haligned⟩ := computeAlignment_spec ptr 0 len
  rw [memchr]
  simp only [hbody, htail]
  refine find_forward hlen (fun a ha => ?_) 0
  have hn := ne_zero_of_mem_range' ha
  refine findWord_eq (misalignment32Of_item (haligned hn).1 ha) (value.setWidth 8)
    (by decide : ∀ k ∈ [0, 1, 2, 3], k < 4) _ fun w => ?_
  rw [← bits_eq_chain w _ 0 1 2 3 (by decide) fun k => item ptr (a + k), Nat.mul_zero,
    BitVec.ushiftRight_zero]
  rfl

theorem memrchr_eq_bytes (ptr value len : Word) :
    memrchr ptr value len = findBytes ptr value (List.range len.toNat).reverse := by
  obtain ⟨b, n, hbody, htail, hlen, haligned⟩ := computeAlignment_spec ptr 0 len
  rw [memrchr]
  simp only [hbody, htail]
  refine find_backward hlen (fun a ha => ?_) 0
  have hn := ne_zero_of_mem_range' ha
  refine findWord_eq (misalignment32Of_item (haligned hn).1 ha) (value.setWidth 8)
    (by decide : ∀ k ∈ [3, 2, 1, 0], k < 4) _ fun w => ?_
  rw [← bits_eq_chain w _ 3 2 1 0 (by decide) fun k => item ptr (a + k), Nat.mul_zero,
    BitVec.ushiftRight_zero]
  rfl

end Search

/-! ### Memory that is there -/

/-- The rounds of a loop that store one byte each keep all of the bytes that they do not store. -/
theorem exists_run_forM (dest : Word) (f : ℕ → RamM Unit) (l : List ℕ) {ram : Ram}
    (h : ∀ ram' : Ram, (∀ q, (ram'.byteAt q).isSome = (ram.byteAt q).isSome) → ∀ i ∈ l,
      (ram.byteAt (item dest i)).isSome ∧
        ∃ v, (f i).run ram' = (writeByte (item dest i) v).run ram') :
    ∃ ram' : Ram, (l.forM f).run ram = some ((), ram') ∧
      ∀ q, (∀ i ∈ l, q ≠ item dest i) → ram'.byteAt q = ram.byteAt q := by
  induction l generalizing ram with
  | nil => exact ⟨ram, rfl, fun _ _ => rfl⟩
  | cons a l ih =>
    obtain ⟨hplace, v, hv⟩ := h ram (fun _ => rfl) a List.mem_cons_self
    obtain ⟨ram₁, hrun, hbytes⟩ := exists_run_writeByte hplace v
    have hsame : ∀ q, (ram₁.byteAt q).isSome = (ram.byteAt q).isSome := by
      intro q
      rw [hbytes]
      split_ifs with hq
      · rw [hq, hplace]
        rfl
      · rfl
    obtain ⟨ram₂, hrun₂, hframe⟩ := @ih ram₁ fun ram' hram' i hi => by
      obtain ⟨hplace, hstore⟩ := h ram' (fun q => (hram' q).trans (hsame q)) i
        (List.mem_cons_of_mem a hi)
      exact ⟨(hsame _).trans hplace, hstore⟩
    refine ⟨ram₂, ?_, fun q hq => ?_⟩
    · change (f a >>= fun _ => l.forM f).run ram = _
      rw [StateT.run_bind, hv, hrun]
      exact hrun₂
    · obtain ⟨hqa, hq⟩ := List.forall_mem_cons.1 hq
      rw [hframe q hq, hbytes, if_neg hqa]

theorem exists_run_memcpyBytes {dest src len : Word} {ram : Ram} (hdest : ram.Covers dest len)
    (hsrc : ram.Covers src len) : ∃ ram', (memcpyBytes dest src len).run ram = some (dest, ram') ∧
      ∀ q, (∀ i < len.toNat, q ≠ item dest i) → byteAt ram' q = ram.byteAt q := by
  obtain ⟨ram', hrun, hframe⟩ := exists_run_forM dest (copyByte dest src)
    (List.range len.toNat) (fun (ram' : Ram) hsame i hi => by
      have hi := List.mem_range.1 hi
      obtain ⟨v, hv⟩ := Option.isSome_iff_exists.1 ((hsame _).trans (hsrc i hi))
      refine ⟨hdest i hi, v, ?_⟩
      rw [copyByte, StateT.run_bind, run_readByte, item, hv]
      rfl)
  refine ⟨ram', ?_, fun q hq => hframe q fun i hi => hq i (List.mem_range.1 hi)⟩
  change ((List.range len.toNat).forM (copyByte dest src) >>= fun _ => pure dest).run ram = _
  rw [StateT.run_bind, hrun]
  rfl

theorem exists_run_memsetBytes {dest len : Word} {ram : Ram} (value : Word)
    (hdest : ram.Covers dest len) :
    ∃ ram', (memsetBytes dest value len).run ram = some (dest, ram') ∧
      ∀ q, (∀ i < len.toNat, q ≠ item dest i) → byteAt ram' q = ram.byteAt q := by
  obtain ⟨ram', hrun, hframe⟩ := exists_run_forM dest (setByte dest (value.setWidth 8))
    (List.range len.toNat) fun _ _ i hi => ⟨hdest i (List.mem_range.1 hi), value.setWidth 8, rfl⟩
  refine ⟨ram', ?_, fun q hq => hframe q fun i hi => hq i (List.mem_range.1 hi)⟩
  change ((List.range len.toNat).forM (setByte dest (value.setWidth 8)) >>=
    fun _ => pure dest).run ram = _
  rw [StateT.run_bind, hrun]
  rfl

/-- A byte of a buffer is read, and nothing changes. -/
theorem run_readByte_of_covers {ptr len : Word} {ram : Ram} (h : ram.Covers ptr len) {i : ℕ}
    (hi : i < len.toNat) :
    (readByte (item ptr i)).run ram = some ((ram.byteAt (item ptr i)).getD 0, ram) := by
  obtain ⟨b, hb⟩ := Option.isSome_iff_exists.1 (h i hi)
  have hb : ram.byteAt (item ptr i) = some b := hb
  rw [run_readByte, hb]
  rfl

theorem exists_run_findSomeM? {α : Type} (f : ℕ → RamM (Option α)) (ram : Ram) {l : List ℕ}
    (h : ∀ i ∈ l, ∃ r, (f i).run ram = some (r, ram)) :
    ∃ r, (l.findSomeM? f).run ram = some (r, ram) := by
  induction l with
  | nil => exact ⟨none, rfl⟩
  | cons a l ih =>
    obtain ⟨⟨r, hr⟩, hl⟩ := List.forall_mem_cons.1 h
    rw [List.findSomeM?_cons, StateT.run_bind, hr]
    cases r with
    | some r => exact ⟨some r, rfl⟩
    | none => exact ih hl

theorem exists_run_cmpBytes {lhs rhs len : Word} {ram : Ram} (hlhs : ram.Covers lhs len)
    (hrhs : ram.Covers rhs len) {l : List ℕ} (hl : ∀ i ∈ l, i < len.toNat) :
    ∃ o, (cmpBytes lhs rhs l).run ram = some (o, ram) := by
  obtain ⟨r, hr⟩ := exists_run_findSomeM? (l := l) (fun i => do
      let left ← readByte (item lhs i)
      let right ← readByte (item rhs i)
      return if left = right then none else some (compare left.toNat right.toNat)) ram
      fun i hi => by
    have hleft := run_readByte_of_covers hlhs (hl i hi)
    have hright := run_readByte_of_covers hrhs (hl i hi)
    exact ⟨_, by rw [StateT.run_bind, hleft, Option.bind_eq_bind, Option.bind_some,
      StateT.run_bind, hright]; rfl⟩
  exact ⟨r.getD .eq, by rw [cmpBytes, StateT.run_bind, hr]; rfl⟩

theorem exists_run_findBytes {ptr len : Word} (value : Word) {ram : Ram}
    (hptr : ram.Covers ptr len) {l : List ℕ} (hl : ∀ i ∈ l, i < len.toNat) :
    ∃ p, (findBytes ptr value l).run ram = some (p, ram) := by
  obtain ⟨r, hr⟩ := exists_run_findSomeM? (l := l) (findByte ptr (value.setWidth 8)) ram
      fun i hi => by
    exact ⟨_, by rw [findByte, StateT.run_bind, run_readByte_of_covers hptr (hl i hi)]; rfl⟩
  refine ⟨r.getD 0, ?_⟩
  change ((l.findSomeM? (findByte ptr (value.setWidth 8))) >>= fun r => pure (r.getD 0)).run ram = _
  rw [StateT.run_bind, hr]
  rfl

theorem exists_run_of_map {α β : Type} {x : RamM α} {g : α → β} {ram ram' : Ram} {b : β}
    (h : (g <$> x).run ram = some (b, ram')) : ∃ a, x.run ram = some (a, ram') := by
  rw [StateT.run_map] at h
  obtain ⟨⟨a, s⟩, ha, hb⟩ := Option.map_eq_some_iff.1 h
  obtain ⟨-, rfl⟩ := Prod.mk.inj hb
  exact ⟨a, ha⟩

/-- Every memory function does, in every memory, what the loop over the bytes does, and stops when
that stops. When the bytes of the buffers are there, and whatever else is not, it comes to its end,
and only bytes of the destination change. A null pointer is not the address of a buffer. -/
theorem memory_functions_eq_bytes {left right : Word} (hleft : left ≠ 0) (hright : right ≠ 0)
    (value len : Word) :
    (memcpy left right len = memcpyBytes left right len ∧
      memset left value len = memsetBytes left value len ∧
      (compare · 0) <$> memcmp left right len =
        cmpBytes left right (List.range len.toNat) ∧
      (compare · 0) <$> memrcmp left right len =
        cmpBytes left right (List.range len.toNat).reverse ∧
      memchr left value len = findBytes left value (List.range len.toNat) ∧
      memrchr left value len = findBytes left value (List.range len.toNat).reverse) ∧
    ∀ ram : Ram, ram.Covers left len → ram.Covers right len →
      (∀ f ∈ [memcpy left right len, memset left value len], ∃ ram' : Ram,
        f.run ram = some (left, ram') ∧
          ∀ q, (∀ i < len.toNat, q ≠ item left i) → ram'.byteAt q = ram.byteAt q) ∧
      (∀ f ∈ [memcmp left right len, memrcmp left right len], ∃ c, f.run ram = some (c, ram)) ∧
      ∀ f ∈ [memchr left value len, memrchr left value len], ∃ p, f.run ram = some (p, ram) := by
  have hcmp := memcmp_eq_bytes left hright len
  have hrcmp := memrcmp_eq_bytes left hright len
  have hrange : ∀ i ∈ List.range len.toNat, i < len.toNat := fun i => List.mem_range.1
  have hreverse : ∀ i ∈ (List.range len.toNat).reverse, i < len.toNat := fun i hi =>
    List.mem_range.1 (List.mem_reverse.1 hi)
  refine ⟨⟨memcpy_eq_bytes hleft hright len, memset_eq_bytes left value len, hcmp, hrcmp,
    memchr_eq_bytes left value len, memrchr_eq_bytes left value len⟩, fun ram hl hr => ⟨?_, ?_, ?_⟩⟩
  · simp only [List.forall_mem_cons]
    refine ⟨?_, ?_, fun _ h => absurd h List.not_mem_nil⟩
    · rw [memcpy_eq_bytes hleft hright]
      exact exists_run_memcpyBytes hl hr
    · rw [memset_eq_bytes]
      exact exists_run_memsetBytes value hl
  · simp only [List.forall_mem_cons]
    refine ⟨?_, ?_, fun _ h => absurd h List.not_mem_nil⟩
    · obtain ⟨o, ho⟩ := exists_run_cmpBytes hl hr hrange
      rw [← hcmp] at ho
      exact exists_run_of_map ho
    · obtain ⟨o, ho⟩ := exists_run_cmpBytes hl hr hreverse
      rw [← hrcmp] at ho
      exact exists_run_of_map ho
  · simp only [List.forall_mem_cons]
    refine ⟨?_, ?_, fun _ h => absurd h List.not_mem_nil⟩
    · rw [memchr_eq_bytes]
      exact exists_run_findBytes value hl hrange
    · rw [memrchr_eq_bytes]
      exact exists_run_findBytes value hl hreverse

theorem memory_functions_eq_bytes_at : memcpy 0x10000001 0x20000003 7 =
    memcpyBytes 0x10000001 0x20000003 7 :=
  (memory_functions_eq_bytes (by decide : (0x10000001 : Word) ≠ 0)
    (by decide : (0x20000003 : Word) ≠ 0) 0 7).1.1

end Ram

end SecureBoot
