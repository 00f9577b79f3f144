import SecureBoot.Base.Word
import SecureBoot.Lib.Bits

/-! Memory by its aligned words, and the accesses of a program to it. Some words are not there:
an access to one of these, or of a word at an address that is not aligned, is the end of the
program. -/

namespace SecureBoot

/-! ### Bytes of a word -/

/-- Byte `k` of a word in memory order. -/
def Word.byte (w : Word) (k : ℕ) : Byte := w.extractLsb' (8 * k) 8

/-- The word with byte `k` replaced. -/
def Word.setByte (w : Word) (k : ℕ) (b : Byte) : Word :=
  Bits.ofBits 32 fun i => if i / 8 = k then b.getLsbD (i % 8) else w.getLsbD i

/-- The first `k` bytes of one word and the others of a second one. -/
def Word.blend (k : ℕ) (v w : Word) : Word :=
  Bits.ofBits 32 fun i => if i / 8 < k then v.getLsbD i else w.getLsbD i

theorem Word.getLsbD_byte (w : Word) (k : ℕ) {i : ℕ} (hi : i < 8) :
    (w.byte k).getLsbD i = w.getLsbD (8 * k + i) := by
  rw [byte, BitVec.getLsbD_extractLsb', decide_eq_true hi, Bool.true_and]

theorem Word.blend_zero (v w : Word) : Word.blend 0 v w = w :=
  BitVec.eq_of_getLsbD_eq fun i hi => by rw [blend, Bits.getLsbD_ofBits hi, if_neg (by omega)]

theorem Word.blend_four (v w : Word) : Word.blend 4 v w = v :=
  BitVec.eq_of_getLsbD_eq fun i hi => by rw [blend, Bits.getLsbD_ofBits hi, if_pos (by omega)]

theorem Word.blend_self (k : ℕ) (w : Word) : Word.blend k w w = w :=
  BitVec.eq_of_getLsbD_eq fun i hi => by rw [blend, Bits.getLsbD_ofBits hi, ite_self]

/-- One byte more. -/
theorem Word.setByte_blend (k : ℕ) (v w : Word) :
    (Word.blend k v w).setByte k (v.byte k) = Word.blend (k + 1) v w := by
  refine BitVec.eq_of_getLsbD_eq fun i hi => ?_
  have hmod := Nat.mod_lt i (by decide : 0 < 8)
  rw [setByte, blend, blend, Bits.getLsbD_ofBits hi, Bits.getLsbD_ofBits hi,
    Bits.getLsbD_ofBits hi, getLsbD_byte v k hmod]
  rcases Nat.lt_trichotomy (i / 8) k with h | h | h
  · rw [if_neg (by omega), if_pos h, if_pos (by omega)]
  · rw [if_pos h, if_pos (by omega), ← h, Nat.div_add_mod]
  · rw [if_neg (by omega), if_neg (by omega), if_neg (by omega)]

theorem Word.byte_setByte (w : Word) {k : ℕ} (b : Byte) {j : ℕ} (hj : j < 4) :
    (w.setByte k b).byte j = if j = k then b else w.byte j := by
  refine BitVec.eq_of_getLsbD_eq fun i hi => ?_
  rw [getLsbD_byte _ _ hi, setByte, Bits.getLsbD_ofBits (by omega),
    show (8 * j + i) / 8 = j by omega, show (8 * j + i) % 8 = i by omega]
  split_ifs with h
  · rfl
  · rw [getLsbD_byte _ _ hi]

theorem Word.toNat_byte (w : Word) (k : ℕ) : (w.byte k).toNat = w.toNat / 2 ^ (8 * k) % 256 := by
  rw [byte, BitVec.extractLsb'_toNat, Nat.shiftRight_eq_div_pow]

/-- A word from its bytes. -/
theorem Word.toNat_eq_bytes (w : Word) : w.toNat = (w.byte 0).toNat + 256 * ((w.byte 1).toNat +
    256 * ((w.byte 2).toNat + 256 * (w.byte 3).toNat)) := by
  have hlt : w.toNat < 2 ^ 32 := w.isLt
  simp only [toNat_byte]
  omega

/-! ### Accesses -/

abbrev Ram := BitVec 30 → Option Word

namespace Ram

abbrev RamM := StateT Ram Option

/-- The aligned word that an address is in. -/
def wordIndex (ptr : Word) : BitVec 30 := ptr.extractLsb' 2 30

/-- `misalignment32_of`. -/
def misalignment32Of (addr : Word) : Word := addr % 4

def loadAligned (ptr : Word) : RamM Word := fun ram => (ram (wordIndex ptr)).map (·, ram)

def storeAligned (ptr value : Word) : RamM Unit := fun ram =>
  (ram (wordIndex ptr)).map fun _ => ((), Function.update ram (wordIndex ptr) (some value))

def readByte (ptr : Word) : RamM Byte := do
  return (← loadAligned ptr).byte (misalignment32Of ptr).toNat

def writeByte (ptr : Word) (value : Byte) : RamM Unit := do
  storeAligned ptr ((← loadAligned ptr).setByte (misalignment32Of ptr).toNat value)

/-- `read_32`. -/
def read32 (ptr : Word) : RamM Word :=
  if misalignment32Of ptr = 0 then loadAligned ptr else failure

/-- `write_32`. -/
def write32 (value ptr : Word) : RamM Unit :=
  if misalignment32Of ptr = 0 then storeAligned ptr value else failure

/-- The byte at an address, if it is there. -/
def byteAt (ram : Ram) (ptr : Word) : Option Byte :=
  (ram (wordIndex ptr)).map (·.byte (misalignment32Of ptr).toNat)

/-- Every byte of a range is there. -/
def Covers (ram : Ram) (ptr len : Word) : Prop :=
  ∀ i < len.toNat, (ram.byteAt (ptr + .ofNat 32 i)).isSome

/-! ### Addresses -/

theorem toNat_misalignment32Of (addr : Word) :
    (misalignment32Of addr).toNat = addr.toNat % 4 := BitVec.toNat_umod

theorem toNat_wordIndex (ptr : Word) : (wordIndex ptr).toNat = ptr.toNat / 4 := by
  have hlt : ptr.toNat < 2 ^ 32 := ptr.isLt
  rw [wordIndex, BitVec.extractLsb'_toNat, Nat.shiftRight_eq_div_pow]
  omega

theorem toNat_add_ofNat_of_aligned {ptr : Word} (h : misalignment32Of ptr = 0) {k : ℕ}
    (hk : k < 4) : (ptr + .ofNat 32 k).toNat = ptr.toNat + k := by
  have hlt : ptr.toNat < 2 ^ 32 := ptr.isLt
  have hmod : ptr.toNat % 4 = 0 := (toNat_misalignment32Of ptr).symm.trans (congrArg _ h)
  rw [BitVec.toNat_add, BitVec.toNat_ofNat]
  omega

/-- The bytes of an aligned word are in that word. -/
theorem wordIndex_add {ptr : Word} (h : misalignment32Of ptr = 0) {k : ℕ} (hk : k < 4) :
    wordIndex (ptr + .ofNat 32 k) = wordIndex ptr := by
  apply BitVec.eq_of_toNat_eq
  have hmod : ptr.toNat % 4 = 0 := (toNat_misalignment32Of ptr).symm.trans (congrArg _ h)
  rw [toNat_wordIndex, toNat_wordIndex, toNat_add_ofNat_of_aligned h hk]
  omega

theorem misalignment32Of_add {ptr : Word} (h : misalignment32Of ptr = 0) {k : ℕ} (hk : k < 4) :
    (misalignment32Of (ptr + .ofNat 32 k)).toNat = k := by
  have hmod : ptr.toNat % 4 = 0 := (toNat_misalignment32Of ptr).symm.trans (congrArg _ h)
  rw [toNat_misalignment32Of, toNat_add_ofNat_of_aligned h hk]
  omega

/-! ### Runs -/

theorem run_read32 {ptr : Word} (h : misalignment32Of ptr = 0) (ram : Ram) :
    (read32 ptr).run ram = (ram (wordIndex ptr)).map (·, ram) := by
  rw [read32, if_pos h]
  rfl

theorem run_write32 {ptr : Word} (h : misalignment32Of ptr = 0) (value : Word) (ram : Ram) :
    (write32 value ptr).run ram = (ram (wordIndex ptr)).map fun _ =>
      ((), Function.update ram (wordIndex ptr) (some value)) := by
  rw [write32, if_pos h]
  rfl

/-- A store keeps what is there. -/
theorem isSome_of_run_write32 {value ptr : Word} {ram ram' : Ram}
    (h : (write32 value ptr).run ram = some ((), ram')) (x : BitVec 30) :
    (ram' x).isSome = (ram x).isSome := by
  rw [write32] at h
  split_ifs at h
  · obtain ⟨w, hw, heq⟩ := Option.map_eq_some_iff.1 h
    obtain ⟨-, rfl⟩ := Prod.mk.inj heq
    rw [Function.update_apply]
    split_ifs with hx
    · rw [hx, hw]
      rfl
    · rfl
  · cases h

theorem run_loadAligned (ptr : Word) (ram : Ram) :
    (loadAligned ptr).run ram = (ram (wordIndex ptr)).map (·, ram) := rfl

theorem run_storeAligned (ptr value : Word) (ram : Ram) : (storeAligned ptr value).run ram =
    (ram (wordIndex ptr)).map fun _ =>
      ((), Function.update ram (wordIndex ptr) (some value)) := rfl

theorem run_readByte (ptr : Word) (ram : Ram) :
    (readByte ptr).run ram = (ram.byteAt ptr).map (·, ram) := by
  rw [readByte, StateT.run_bind, run_loadAligned, byteAt]
  cases ram (wordIndex ptr) <;> rfl

theorem run_writeByte (ptr : Word) (value : Byte) (ram : Ram) :
    (writeByte ptr value).run ram = (ram (wordIndex ptr)).map fun w =>
      ((), Function.update ram (wordIndex ptr)
        (some (w.setByte (misalignment32Of ptr).toNat value))) := by
  rw [writeByte, StateT.run_bind, run_loadAligned]
  cases h : ram (wordIndex ptr) with
  | none => rfl
  | some w =>
    rw [Option.map_some, Option.bind_eq_bind, Option.bind_some, run_storeAligned]
    dsimp only
    rw [h, Option.map_some, Option.map_some]

/-- An address is the word that it is in and the place in it. -/
theorem eq_of_wordIndex_eq {p q : Word} (hindex : wordIndex p = wordIndex q)
    (hmod : (misalignment32Of p).toNat = (misalignment32Of q).toNat) : p = q := by
  apply BitVec.eq_of_toNat_eq
  have hdiv := congrArg BitVec.toNat hindex
  rw [toNat_wordIndex, toNat_wordIndex] at hdiv
  rw [toNat_misalignment32Of, toNat_misalignment32Of] at hmod
  omega

/-- A byte that is there can be stored to, and no other byte changes. -/
theorem exists_run_writeByte {ptr : Word} {ram : Ram} (h : (ram.byteAt ptr).isSome)
    (value : Byte) : ∃ ram' : Ram, (writeByte ptr value).run ram = some ((), ram') ∧
      ∀ q, ram'.byteAt q = if q = ptr then some value else ram.byteAt q := by
  rw [byteAt, Option.isSome_map] at h
  obtain ⟨w, hw⟩ := Option.isSome_iff_exists.1 h
  have hmod : ∀ q, (misalignment32Of q).toNat < 4 := by
    intro q
    rw [toNat_misalignment32Of]
    omega
  refine ⟨_, by rw [run_writeByte, hw, Option.map_some], fun q => ?_⟩
  by_cases hindex : wordIndex q = wordIndex ptr
  · rw [byteAt, hindex, Function.update_self, Option.map_some, Word.byte_setByte _ _ (hmod q)]
    by_cases hq : q = ptr
    · rw [hq, if_pos rfl, if_pos rfl]
    · rw [if_neg (fun h => hq (eq_of_wordIndex_eq hindex h)), if_neg hq, byteAt, hindex, hw,
        Option.map_some]
  · rw [byteAt, Function.update_of_ne hindex, if_neg (fun h => hindex (congrArg _ h))]
    rfl

/-! ### Buffers of words -/

/-- Word `i` of a buffer. -/
def wordAt (ptr : Word) (i : ℕ) : BitVec 30 := wordIndex ptr + .ofNat 30 i

/-- An aligned buffer whose words are there. -/
structure Buffer (ram : Ram) (ptr : Word) (n : ℕ) : Prop where
  aligned : misalignment32Of ptr = 0
  there : ∀ i < n, (ram (wordAt ptr i)).isSome

def InBuffer (ptr : Word) (n : ℕ) (x : BitVec 30) : Prop := ∃ i < n, x = wordAt ptr i

/-- Two buffers without a common word. -/
def Apart (ptr : Word) (n : ℕ) (ptr' : Word) (n' : ℕ) : Prop :=
  ∀ x, InBuffer ptr n x → ¬ InBuffer ptr' n' x

theorem inBuffer_wordAt {ptr : Word} {n i : ℕ} (hi : i < n) : InBuffer ptr n (wordAt ptr i) :=
  ⟨i, hi, rfl⟩

theorem wordAt_inj {ptr : Word} {i j : ℕ} (hi : i < 2 ^ 30) (hj : j < 2 ^ 30) :
    wordAt ptr i = wordAt ptr j ↔ i = j := by
  rw [wordAt, wordAt, BitVec.add_right_inj, ← BitVec.toNat_inj, BitVec.toNat_ofNat,
    BitVec.toNat_ofNat, Nat.mod_eq_of_lt hi, Nat.mod_eq_of_lt hj]

theorem toNat_wordAt {ptr : Word} {i : ℕ} (h : ptr.toNat / 4 + i < 2 ^ 30) :
    (wordAt ptr i).toNat = ptr.toNat / 4 + i := by
  rw [wordAt, BitVec.toNat_add, toNat_wordIndex, BitVec.toNat_ofNat]
  omega

theorem wordIndex_add_bytes {ptr off : Word} (h : misalignment32Of ptr = 0) {i : ℕ}
    (hoff : off.toNat = 4 * i) : wordIndex (ptr + off) = wordAt ptr i := by
  have hmod : ptr.toNat % 4 = 0 := (toNat_misalignment32Of ptr).symm.trans (congrArg _ h)
  have hlt : ptr.toNat < 2 ^ 32 := ptr.isLt
  apply BitVec.eq_of_toNat_eq
  rw [wordAt, toNat_wordIndex, BitVec.toNat_add, BitVec.toNat_add, BitVec.toNat_ofNat,
    toNat_wordIndex, hoff]
  omega

theorem misalignment32Of_add_bytes {ptr off : Word} (h : misalignment32Of ptr = 0) {i : ℕ}
    (hoff : off.toNat = 4 * i) : misalignment32Of (ptr + off) = 0 := by
  have hmod : ptr.toNat % 4 = 0 := (toNat_misalignment32Of ptr).symm.trans (congrArg _ h)
  apply BitVec.eq_of_toNat_eq
  rw [toNat_misalignment32Of, BitVec.toNat_add, hoff]
  change _ = 0
  omega

end Ram

end SecureBoot
