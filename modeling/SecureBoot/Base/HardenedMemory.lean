import SecureBoot.Base.ConstantTime
import SecureBoot.Base.Ram
import SecureBoot.Lib.Traverse

/-! `hardened_memeq` over the traversal order of `random_order`: words in the order that is
drawn, with equal decoys for the indices past the end. -/

namespace SecureBoot

/-- `random_order_t`. -/
structure RandomOrder where
  state : ℕ
  max : ℕ

def randomOrderInit (min_len : ℕ) : RandomOrder := ⟨0, min_len * 2⟩

def randomOrderAdvance (ctx : RandomOrder) : ℕ × RandomOrder :=
  (ctx.state, { ctx with state := ctx.state + 1 })

abbrev memeqDecoy : Word := 0xaaaaaaaa

/-- The loop of `hardened_memeq` with `n` indices to go: the words `zeros` and `ones`. -/
def memeqLoop (lhs rhs : List Word) : ℕ → RandomOrder → Word × Word → Word × Word
  | 0, _, acc => acc
  | n + 1, order, (zeros, ones) =>
    let (idx, order) := randomOrderAdvance order
    let a := if idx < lhs.length then lhs.getD idx 0 else memeqDecoy
    let b := if idx < lhs.length then rhs.getD idx 0 else memeqDecoy
    memeqLoop lhs rhs n order (zeros ||| (a ^^^ b), ones &&& (a ^^^ ~~~b))

/-- `hardened_memeq`; `none` is a trap. -/
def hardenedMemeq (lhs rhs : List Word) : Option Word :=
  let order := randomOrderInit lhs.length
  let (zeros, ones) := memeqLoop lhs rhs order.max order (0#32, wordMax)
  if zeros = 0#32 then (if ones = wordMax then some kHardenedBoolTrue else none)
  else if ones ≠ wordMax then some kHardenedBoolFalse else none

/-! ### What it decides -/

/-- The words that the loop compares from `idx` on. -/
def memeqSame (lhs rhs : List Word) (idx n : ℕ) : Prop :=
  ∀ k, idx ≤ k → k < idx + n → k < lhs.length → lhs.getD k 0 = rhs.getD k 0

theorem or_xor_eq_zero {z a b : Word} : z ||| (a ^^^ b) = 0#32 ↔ z = 0#32 ∧ a = b := by
  rw [BitVec.or_eq_zero_iff, BitVec.xor_eq_zero_iff]

theorem and_xor_not_eq_max {o a b : Word} :
    o &&& (a ^^^ ~~~b) = wordMax ↔ o = wordMax ∧ a = b := by
  have hxor : a ^^^ ~~~b = BitVec.allOnes 32 ↔ a = b := by
    rw [← BitVec.not_xor_right]
    constructor
    · intro h
      rw [← BitVec.xor_eq_zero_iff, ← @BitVec.not_not _ (a ^^^ b), h, BitVec.not_allOnes]
    · rintro rfl
      rw [BitVec.xor_self, BitVec.not_zero]
  rw [show wordMax = BitVec.allOnes 32 from rfl, BitVec.and_eq_allOnes_iff, hxor]

theorem memeqLoop_iff (lhs rhs : List Word) (n : ℕ) (order : RandomOrder) (zeros ones : Word) :
    ((memeqLoop lhs rhs n order (zeros, ones)).1 = 0#32 ↔
      zeros = 0#32 ∧ memeqSame lhs rhs order.state n) ∧
    ((memeqLoop lhs rhs n order (zeros, ones)).2 = wordMax ↔
      ones = wordMax ∧ memeqSame lhs rhs order.state n) := by
  induction n generalizing order zeros ones with
  | zero =>
    have hsame : memeqSame lhs rhs order.state 0 := fun k hle hlt => absurd hlt (by omega)
    exact ⟨(and_iff_left hsame).symm, (and_iff_left hsame).symm⟩
  | succ n ih =>
    obtain ⟨hz, ho⟩ := ih { order with state := order.state + 1 }
      (zeros ||| ((if order.state < lhs.length then lhs.getD order.state 0 else memeqDecoy) ^^^
        if order.state < lhs.length then rhs.getD order.state 0 else memeqDecoy))
      (ones &&& ((if order.state < lhs.length then lhs.getD order.state 0 else memeqDecoy) ^^^
        ~~~if order.state < lhs.length then rhs.getD order.state 0 else memeqDecoy))
    have hstep : memeqSame lhs rhs order.state (n + 1) ↔
        (if order.state < lhs.length then lhs.getD order.state 0 else memeqDecoy) =
          (if order.state < lhs.length then rhs.getD order.state 0 else memeqDecoy) ∧
        memeqSame lhs rhs (order.state + 1) n := by
      constructor
      · intro h
        refine ⟨?_, fun k hle hlt => h k (by omega) (by omega)⟩
        split_ifs with hlen
        · exact h _ (Nat.le_refl _) (by omega) hlen
        · rfl
      · rintro ⟨hhead, htail⟩ k hle hlt hlen
        obtain rfl | hne := eq_or_ne k order.state
        · rwa [if_pos hlen, if_pos hlen] at hhead
        · exact htail k (by omega) (by omega) hlen
    rw [memeqLoop]
    exact ⟨hz.trans (by rw [or_xor_eq_zero, and_assoc, hstep]),
      ho.trans (by rw [and_xor_not_eq_max, and_assoc, hstep])⟩

/-- The comparison never traps and tells whether the words are the same. -/
theorem hardenedMemeq_eq {lhs rhs : List Word} (hlen : rhs.length = lhs.length) :
    hardenedMemeq lhs rhs =
      some (if lhs = rhs then kHardenedBoolTrue else kHardenedBoolFalse) := by
  have hsame : memeqSame lhs rhs 0 (lhs.length * 2) ↔ lhs = rhs := by
    constructor
    · intro h
      refine List.ext_getElem hlen.symm fun k hk hk' => ?_
      have := h k (Nat.zero_le k) (by omega) hk
      rwa [List.getD_eq_getElem?_getD, List.getD_eq_getElem?_getD, List.getElem?_eq_getElem hk,
        List.getElem?_eq_getElem hk', Option.getD_some, Option.getD_some] at this
    · rintro rfl k - - -
      rfl
  obtain ⟨hz, ho⟩ := memeqLoop_iff lhs rhs (lhs.length * 2) ⟨0, lhs.length * 2⟩ 0#32 wordMax
  have hz := hz.trans ((and_iff_right rfl).trans hsame)
  have ho := ho.trans ((and_iff_right rfl).trans hsame)
  simp only [hardenedMemeq, randomOrderInit, ne_eq, hz, ho]
  split_ifs <;> rfl

end SecureBoot

/-! The hardened memory functions with their pointers. A round works on the words of the buffers at
the index that the order draws, or on words of an array of decoys, which the stack has at any
place. `launderw` and `barrierw` are identities; a check that fails ends the program. -/

namespace SecureBoot

open Ram

/-- What an order draws until its end. -/
def RandomOrder.drawsFrom : ℕ → RandomOrder → List Word
  | 0, _ => []
  | n + 1, ctx =>
    let (idx, ctx) := randomOrderAdvance ctx
    BitVec.ofNat 32 idx :: drawsFrom n ctx

/-- The draws for a length of the order that there is. -/
def randomOrderDraws (word_len : Word) : List Word :=
  let ctx := randomOrderInit word_len.toNat
  ctx.drawsFrom ctx.max

/-- `sizeof(decoys)`. -/
abbrev decoysSize : Word := 32

/-- The pointer of a round: the real one as long as the index is inside of the buffer. -/
def selectPointer (byte_idx byte_len real decoy : Word) : Word :=
  ctCmovw (ctSltuw byte_idx byte_len) real decoy

/-- The loop over an order, which ends with the check of the number of rounds. A round is told how
many there were before it. -/
def orderLoop {σ : Type} (draws : List Word) (round : ℕ → Word → σ → RamM σ) (s : σ) :
    RamM σ := do
  let r ← draws.foldlM (fun (r : ℕ × σ) idx => do return (r.1 + 1, ← round r.1 idx r.2)) (0, s)
  if r.1 = draws.length then return r.2 else failure

def memcpyRound (decoy_addr dest src byte_len idx : Word) : RamM Unit := do
  let byte_idx := idx * 4
  let srcp := src + byte_idx
  let destp := dest + byte_idx
  let decoy1 := decoy_addr + byte_idx % decoysSize
  let decoy2 := decoy_addr + (byte_idx + decoysSize / 2) % decoysSize
  let src := selectPointer byte_idx byte_len srcp decoy1
  let dest := selectPointer byte_idx byte_len destp decoy2
  Ram.write32 (← Ram.read32 src) dest

def hardenedMemcpy (decoy_addr dest src word_len : Word) (draws : List Word) : RamM Unit :=
  orderLoop draws (fun _ idx _ => memcpyRound decoy_addr dest src (word_len * 4) idx) ()

/-- `hardened_memshred_random_word` where nothing else is linked. -/
def hardenedMemshredRandomWord : Word := 0xcaffe17e

def memshredRound (decoy_addr dest byte_len value idx : Word) : RamM Unit := do
  let byte_idx := idx * 4
  let datap := dest + byte_idx
  let decoy := decoy_addr + byte_idx % decoysSize
  Ram.write32 value (selectPointer byte_idx byte_len datap decoy)

/-- `hardened_memshred`; `random` is what the calls of the source of random words return. -/
def hardenedMemshred (decoy_addr dest word_len : Word) (random : ℕ → Word) (draws : List Word) :
    RamM Unit :=
  orderLoop draws (fun count idx _ =>
    memshredRound decoy_addr dest (word_len * 4) (random count) idx) ()

def memeqRound (decoy_addr lhs rhs byte_len idx : Word) (acc : Word × Word) :
    RamM (Word × Word) := do
  let byte_idx := idx * 4
  let ap := lhs + byte_idx
  let bp := rhs + byte_idx
  let decoy1 := decoy_addr + byte_idx % decoysSize
  let decoy2 := decoy_addr + (byte_idx + decoysSize / 2) % decoysSize
  let a ← Ram.read32 (selectPointer byte_idx byte_len ap decoy1)
  let b ← Ram.read32 (selectPointer byte_idx byte_len bp decoy2)
  return (acc.1 ||| (a ^^^ b), acc.2 &&& (a ^^^ ~~~b))

/-- `hardened_memeq`, which fills its decoys first. -/
def hardenedMemeqAt (decoy_addr lhs rhs word_len : Word) (draws : List Word) : RamM Word := do
  (List.range 8).forM fun i => Ram.write32 memeqDecoy (decoy_addr + .ofNat 32 (4 * i))
  let (zeros, ones) ← orderLoop draws
    (fun _ idx acc => memeqRound decoy_addr lhs rhs (word_len * 4) idx acc) (0, wordMax)
  if zeros = 0 then if ones = wordMax then return kHardenedBoolTrue else failure
  else if ones ≠ wordMax then return kHardenedBoolFalse else failure

/-! ### The selection -/

theorem toNat_mul_four {idx : Word} (h : idx.toNat < 2 ^ 30) : (idx * 4).toNat = 4 * idx.toNat := by
  rw [BitVec.toNat_mul]
  change idx.toNat * 4 % 2 ^ 32 = _
  omega

theorem msb_mul_four {idx : Word} (h : idx.toNat < 2 ^ 30) :
    (idx * 4).msb = decide (2 ^ 29 ≤ idx.toNat) := by
  rw [BitVec.msb_eq_decide, toNat_mul_four h, decide_eq_decide]
  omega

/-- The real pointer is taken inside of the buffer and where the byte index has its top bit set. -/
theorem selectPointer_eq {idx word_len : Word} (hidx : idx.toNat < 2 ^ 30)
    (hlen : word_len.toNat < 2 ^ 29) (real decoy : Word) :
    selectPointer (idx * 4) (word_len * 4) real decoy =
      if idx.toNat < word_len.toNat ∨ 2 ^ 29 ≤ idx.toNat then real else decoy := by
  have hult : (idx * 4).ult (word_len * 4) = decide (idx.toNat < word_len.toNat) := by
    rw [BitVec.ult, toNat_mul_four hidx, toNat_mul_four (by omega), decide_eq_decide]
    omega
  have hslt : (idx * 4).slt (word_len * 4) =
      decide (idx.toNat < word_len.toNat ∨ 2 ^ 29 ≤ idx.toNat) := by
    rw [BitVec.slt_eq_ult, msb_mul_four hidx, msb_mul_four (by omega : word_len.toNat < 2 ^ 30),
      hult]
    by_cases h : 2 ^ 29 ≤ idx.toNat
    · rw [decide_eq_true h, decide_eq_false (by omega), decide_eq_false (by omega),
        decide_eq_true (.inr h)]
      rfl
    · rw [decide_eq_false h, decide_eq_false (by omega), bne_self_eq_false, Bool.false_xor,
        decide_eq_decide]
      omega
  rw [selectPointer, ctSltuw, ctCmovw, ctSltu_eq_slt (by decide), hslt]
  split_ifs with h
  · rw [decide_eq_true h, ctCmov_true]
  · rw [decide_eq_false h, ctCmov_false]

/-- The word that a round works on. -/
def roundWord (decoy_addr ptr word_len idx : Word) (j : ℕ) : BitVec 30 :=
  if idx.toNat < word_len.toNat ∨ 2 ^ 29 ≤ idx.toNat then wordAt ptr idx.toNat
  else wordAt decoy_addr j

theorem selectPointer_word {ptr decoy_addr idx word_len off : Word} {j : ℕ}
    (hptr : misalignment32Of ptr = 0) (hdecoys : misalignment32Of decoy_addr = 0)
    (hidx : idx.toNat < 2 ^ 30) (hlen : word_len.toNat < 2 ^ 29) (hoff : off.toNat = 4 * j) :
    misalignment32Of (selectPointer (idx * 4) (word_len * 4) (ptr + idx * 4)
        (decoy_addr + off)) = 0 ∧
      wordIndex (selectPointer (idx * 4) (word_len * 4) (ptr + idx * 4) (decoy_addr + off)) =
        roundWord decoy_addr ptr word_len idx j := by
  rw [selectPointer_eq hidx hlen, roundWord]
  split_ifs
  · exact ⟨misalignment32Of_add_bytes hptr (toNat_mul_four hidx),
      wordIndex_add_bytes hptr (toNat_mul_four hidx)⟩
  · exact ⟨misalignment32Of_add_bytes hdecoys hoff, wordIndex_add_bytes hdecoys hoff⟩

/-- Inside of the buffer the word is that of the buffer. -/
theorem roundWord_of_lt {word_len idx : Word} (h : idx.toNat < word_len.toNat)
    (decoy_addr ptr : Word) (j : ℕ) :
    roundWord decoy_addr ptr word_len idx j = wordAt ptr idx.toNat := if_pos (.inl h)

/-- Behind the buffer it is a decoy, unless the byte index has its top bit set. -/
theorem inBuffer_roundWord {word_len idx : Word} (h : word_len.toNat ≤ idx.toNat)
    (hidx : idx.toNat < 2 ^ 29) (decoy_addr ptr : Word) {j : ℕ} (hj : j < 8) :
    InBuffer decoy_addr 8 (roundWord decoy_addr ptr word_len idx j) := by
  rw [roundWord, if_neg (by omega)]
  exact inBuffer_wordAt hj

theorem toNat_decoy_first {idx : Word} (h : idx.toNat < 2 ^ 30) :
    (idx * 4 % decoysSize).toNat = 4 * (idx.toNat % 8) := by
  rw [BitVec.toNat_umod, toNat_mul_four h]
  change 4 * idx.toNat % 32 = _
  omega

theorem toNat_decoy_second {idx : Word} (h : idx.toNat < 2 ^ 30) :
    ((idx * 4 + decoysSize / 2) % decoysSize).toNat = 4 * ((idx.toNat + 4) % 8) := by
  rw [BitVec.toNat_umod, BitVec.toNat_add, toNat_mul_four h]
  change (4 * idx.toNat + 16) % 2 ^ 32 % 32 = _
  omega

/-! ### Rounds -/

section Rounds

variable {decoy_addr word_len idx : Word} (hdecoys : misalignment32Of decoy_addr = 0)
  (hlen : word_len.toNat < 2 ^ 29) (hidx : idx.toNat < 2 ^ 30)

include hdecoys hlen hidx

theorem run_memcpyRound {dest src : Word} (hdest : misalignment32Of dest = 0)
    (hsrc : misalignment32Of src = 0) (ram : Ram) :
    (memcpyRound decoy_addr dest src (word_len * 4) idx).run ram =
      (ram (roundWord decoy_addr src word_len idx (idx.toNat % 8))).bind fun v =>
        (ram (roundWord decoy_addr dest word_len idx ((idx.toNat + 4) % 8))).map fun _ =>
          ((), Function.update ram
            (roundWord decoy_addr dest word_len idx ((idx.toNat + 4) % 8)) (some v)) := by
  obtain ⟨hs, hsword⟩ := selectPointer_word hsrc hdecoys hidx hlen (toNat_decoy_first hidx)
  obtain ⟨hd, hdword⟩ := selectPointer_word hdest hdecoys hidx hlen (toNat_decoy_second hidx)
  rw [memcpyRound, StateT.run_bind, Ram.run_read32 hs, hsword]
  cases ram (roundWord decoy_addr src word_len idx (idx.toNat % 8)) with
  | none => rfl
  | some v =>
    rw [Option.map_some, Option.bind_eq_bind, Option.bind_some, Option.bind_some,
      Ram.run_write32 hd, hdword]

theorem run_memshredRound {dest : Word} (hdest : misalignment32Of dest = 0) (value : Word)
    (ram : Ram) : (memshredRound decoy_addr dest (word_len * 4) value idx).run ram =
      (ram (roundWord decoy_addr dest word_len idx (idx.toNat % 8))).map fun _ =>
        ((), Function.update ram
          (roundWord decoy_addr dest word_len idx (idx.toNat % 8)) (some value)) := by
  obtain ⟨hd, hdword⟩ := selectPointer_word hdest hdecoys hidx hlen (toNat_decoy_first hidx)
  rw [memshredRound, Ram.run_write32 hd, hdword]

theorem run_memeqRound {lhs rhs : Word} (hlhs : misalignment32Of lhs = 0)
    (hrhs : misalignment32Of rhs = 0) (acc : Word × Word) (ram : Ram) :
    (memeqRound decoy_addr lhs rhs (word_len * 4) idx acc).run ram =
      (ram (roundWord decoy_addr lhs word_len idx (idx.toNat % 8))).bind fun a =>
        (ram (roundWord decoy_addr rhs word_len idx ((idx.toNat + 4) % 8))).map fun b =>
          ((acc.1 ||| (a ^^^ b), acc.2 &&& (a ^^^ ~~~b)), ram) := by
  obtain ⟨hl, hlword⟩ := selectPointer_word hlhs hdecoys hidx hlen (toNat_decoy_first hidx)
  obtain ⟨hr, hrword⟩ := selectPointer_word hrhs hdecoys hidx hlen (toNat_decoy_second hidx)
  rw [memeqRound, StateT.run_bind, Ram.run_read32 hl, hlword]
  cases ram (roundWord decoy_addr lhs word_len idx (idx.toNat % 8)) with
  | none => rfl
  | some a =>
    rw [Option.map_some, Option.bind_eq_bind, Option.bind_some, Option.bind_some, StateT.run_bind,
      Ram.run_read32 hr, hrword]
    dsimp only
    cases ram (roundWord decoy_addr rhs word_len idx ((idx.toNat + 4) % 8)) <;> rfl

end Rounds

/-! ### The loop -/

/-- The loop keeps an invariant that its rounds keep, and its check passes. -/
theorem exists_run_orderLoop {σ : Type} (I : List Word → σ → Ram → Prop) {draws : List Word}
    (round : ℕ → Word → σ → RamM σ) (h : ∀ done, ∀ idx ∈ draws, ∀ s ram, I done s ram →
      ∃ s' ram', (round done.length idx s).run ram = some (s', ram') ∧ I (done ++ [idx]) s' ram')
    {s : σ} {ram : Ram} (hI : I [] s ram) :
    ∃ s' ram', (orderLoop draws round s).run ram = some (s', ram') ∧ I draws s' ram' := by
  have hround : ∀ done, ∀ idx ∈ draws, ∀ (r : ℕ × σ) ram, r.1 = done.length ∧ I done r.2 ram →
      ∃ r' ram', (do return (r.1 + 1, ← round r.1 idx r.2) : RamM (ℕ × σ)).run ram =
        some (r', ram') ∧ r'.1 = (done ++ [idx]).length ∧ I (done ++ [idx]) r'.2 ram' := by
    rintro done idx hidx ⟨count, s⟩ ram ⟨rfl, hI⟩
    obtain ⟨s', ram', hrun, hI'⟩ := h done idx hidx s ram hI
    refine ⟨(done.length + 1, s'), ram', ?_, ?_, hI'⟩
    · rw [StateT.run_bind, hrun]
      rfl
    · rw [List.length_append]
      rfl
  obtain ⟨⟨count, s'⟩, ram', hrun, hcount, hI'⟩ := Traverse.exists_run_foldlM
    (fun done (r : ℕ × σ) ram => r.1 = done.length ∧ I done r.2 ram) hround [] (0, s) ⟨rfl, hI⟩
  have hcount : count = draws.length := hcount
  refine ⟨s', ram', ?_, hI'⟩
  rw [orderLoop, StateT.run_bind, hrun, Option.bind_eq_bind, Option.bind_some]
  dsimp only
  rw [if_pos hcount]
  rfl

end SecureBoot
