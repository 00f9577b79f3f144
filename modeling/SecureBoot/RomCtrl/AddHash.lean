import SecureBoot.RomCtrl.Scramble
import SecureBoot.Secded.Agreement

/-! `Scrambler.add_hash`: the digest of a scrambled ROM is put into its top eight words. The
hardware reads these words raw, and no check bits should make one of them a codeword when
it is unscrambled. The hash function is a parameter. -/

namespace SecureBoot.ScrambleImage

open Bits

/-- `x.to_bytes(n, byteorder='little')`; `none` is an `OverflowError`. -/
def toBytes (n x : ℕ) : Option (List (BitVec 8)) :=
  if x < 1 <<< (8 * n) then some ((List.range n).map fun i => BitVec.ofNat 8 (x >>> (8 * i)))
  else none

/-- `int.from_bytes(bytes, byteorder='little')`. -/
def fromBytes (bytes : List (BitVec 8)) : ℕ := bytes.foldr (fun b v => b.toNat ||| v <<< 8) 0

/-- `cSHAKE256.new(data, custom).read(n)`. -/
abbrev CShake := List (BitVec 8) → List (BitVec 8) → ℕ → List (BitVec 8)

/-- `'ROM_CTRL'.encode('UTF-8')`. -/
def customRomCtrl : List (BitVec 8) := [0x52, 0x4f, 0x4d, 0x5f, 0x43, 0x54, 0x52, 0x4c]

def bytesPerWord : ℕ := 32 / 8

def numDigestWords : ℕ := 256 / 32

def mask32 : ℕ := (1 <<< 32) - 1

/-- The word `digest_idx` of the digest. -/
def digestWord (digest256 digestIdx : ℕ) : ℕ := (digest256 >>> (32 * digestIdx)) &&& mask32

namespace Scrambler

variable (cSHAKE256 : CShake) (shuffle : Shuffle) (fuel : ℕ) (self : Scrambler)

/-- The scrambled data in the order of its logical addresses. -/
def toHash (words : List ℕ) : Option (List (BitVec 8)) :=
  (List.range (self.romSizeWords - numDigestWords)).foldlM (fun bytes logAddr => do
    let phyAddr ← self.addrSpEnc logAddr
    let scrWord ← words[phyAddr]?
    let scrBytes ← toBytes ((39 + 7) / 8) scrWord
    some (bytes ++ scrBytes)) []

/-- `digest256`. -/
def digestOf (words : List ℕ) : Option ℕ :=
  (self.toHash words).map fun bytes =>
    fromBytes (cSHAKE256 bytes customRomCtrl (bytesPerWord * numDigestWords))

/-- `clr39 != exp39`. -/
def checksumMismatch (logAddr w39 : ℕ) : Option Bool := do
  let clr39 ← self.unscrambleWord 39 logAddr w39
  let clr32 := clr39 &&& mask32
  let (codewords, _) ← eccEncodeSome shuffle fuel secdedCfgs .invHsiao 32 [clr32]
  let exp39 ← codewords[0]?
  some (clr39 ≠ exp39)

/-- The loop over the check bits, up to its `break`: `found_mismatch`. -/
def findMismatch (logAddr w32 : ℕ) : List ℕ → Option Bool
  | [] => some false
  | chkBits :: rest => do
    if ← self.checksumMismatch shuffle fuel logAddr (w32 ||| chkBits <<< 32) then some true
    else findMismatch logAddr w32 rest

/-- A round of the loop over the words of the digest. -/
def addDigestWord (digest256 : ℕ) (words : List ℕ) (digestIdx : ℕ) : Option (List ℕ) := do
  let logAddr := self.romSizeWords - numDigestWords + digestIdx
  let w32 := digestWord digest256 digestIdx
  if ← self.findMismatch shuffle fuel logAddr w32 (List.range 128) then
    let phyAddr ← self.addrSpEnc logAddr
    if phyAddr < words.length then some (words.set phyAddr w32) else none
  else none

/-- `add_hash`. A ROM shorter than the digest has a negative address, which
`get_keystream` does not accept. -/
def addHash (mem : MemFile) : Option MemFile := do
  match mem.chunks with
  | [chunk] =>
    if chunk.baseAddr = 0 ∧ chunk.words.length = self.romSizeWords ∧ mem.width = 39 ∧
        numDigestWords ≤ self.romSizeWords then
      let digest256 ← self.digestOf cSHAKE256 chunk.words
      let words ← (List.range numDigestWords).foldlM
        (self.addDigestWord shuffle fuel digest256) chunk.words
      some ⟨mem.width, [⟨chunk.baseAddr, words⟩]⟩
    else none
  | _ => none

/-! ### The permutations on numbers -/

variable {self}

theorem addrSpEnc_eq_some_iff {logAddr phyAddr : ℕ} : self.addrSpEnc logAddr = some phyAddr ↔
    self.addrWidth < 64 ∧ ∃ i : BitVec self.addrWidth,
      i.toNat = logAddr ∧ (self.addrPerm i).toNat = phyAddr := by
  constructor
  · intro h
    have hwidth : self.addrWidth < 64 := by
      by_contra hge
      rw [addrSpEnc, if_neg hge] at h
      exact absurd h (by simp)
    have hlt : logAddr < 2 ^ self.addrWidth := by
      by_contra hge
      rw [addrSpEnc, if_pos hwidth] at h
      simp only [substPermEnc, Nat.one_shiftLeft] at h
      rw [if_neg fun hlt => hge hlt.1] at h
      exact absurd h (by simp)
    have hlog : (BitVec.ofNat self.addrWidth logAddr).toNat = logAddr := by
      rw [BitVec.toNat_ofNat, Nat.mod_eq_of_lt hlt]
    rw [← hlog, addrSpEnc_eq hwidth] at h
    exact ⟨hwidth, _, hlog, Option.some.inj h⟩
  · rintro ⟨hwidth, i, rfl, rfl⟩
    exact addrSpEnc_eq hwidth i

/-- Different logical addresses have different physical ones. -/
theorem addrSpEnc_injective {logAddr logAddr' phyAddr : ℕ}
    (h : self.addrSpEnc logAddr = some phyAddr) (h' : self.addrSpEnc logAddr' = some phyAddr) :
    logAddr = logAddr' := by
  obtain ⟨-, i, rfl, hi⟩ := addrSpEnc_eq_some_iff.mp h
  obtain ⟨-, i', rfl, hi'⟩ := addrSpEnc_eq_some_iff.mp h'
  rw [self.addrPerm.injective (BitVec.eq_of_toNat_eq (hi.trans hi'.symm))]

section

variable (hwidth : self.addrWidth < 64) {width : ℕ} (hpos : 0 < width) (hle : width ≤ 64)
  (i : BitVec self.addrWidth)

include hwidth hpos hle

theorem scrambleWord_eq_some_iff {clrData scrData : ℕ} :
    self.scrambleWord width i.toNat clrData = some scrData ↔ ∃ x : BitVec width,
      x.toNat = clrData ∧ (self.wordPerm width i x).toNat = scrData := by
  constructor
  · intro h
    have hlt : clrData < 2 ^ width := by
      by_contra hge
      have hxor : ¬(self.keystream width i).toNat ^^^ clrData < 2 ^ width := fun hlt => by
        have := Nat.xor_lt_two_pow (self.keystream width i).isLt hlt
        rw [← Nat.xor_assoc, Nat.xor_self, Nat.zero_xor] at this
        exact hge this
      rw [scrambleWord, getKeystream_eq hwidth hpos hle, Option.bind_eq_bind, Option.bind_some,
        dataSpEnc] at h
      simp only [substPermEnc, Nat.one_shiftLeft] at h
      rw [if_neg fun hlt => hxor hlt.1] at h
      exact absurd h (by simp)
    have hclr : (BitVec.ofNat width clrData).toNat = clrData := by
      rw [BitVec.toNat_ofNat, Nat.mod_eq_of_lt hlt]
    rw [← hclr, scrambleWord_eq hwidth hpos hle] at h
    exact ⟨_, hclr, Option.some.inj h⟩
  · rintro ⟨x, rfl, rfl⟩
    exact scrambleWord_eq hwidth hpos hle i x

/-- A word unscrambles to the one that it is the scrambled form of. -/
theorem unscrambleWord_eq_some_iff {clrData : ℕ} (x : BitVec width) :
    self.unscrambleWord width i.toNat x.toNat = some clrData ↔
      self.scrambleWord width i.toNat clrData = some x.toNat := by
  rw [unscrambleWord_eq hwidth hpos hle, scrambleWord_eq_some_iff hwidth hpos hle]
  constructor
  · intro h
    refine ⟨_, Option.some.inj h, ?_⟩
    rw [Equiv.apply_symm_apply]
  · rintro ⟨y, rfl, hy⟩
    rw [← BitVec.eq_of_toNat_eq hy, Equiv.symm_apply_apply]

end

/-! ### The search for check bits -/

/-- The top bit of a word does not reach the data of the word it unscrambles to. -/
theorem getLsbD_wordPerm_symm_congr {i : BitVec self.addrWidth} {x y : BitVec 39}
    (h : ∀ j < 38, x.getLsbD j = y.getLsbD j) {j : ℕ} (hj : j < 32) :
    ((self.wordPerm 39 i).symm x).getLsbD j = ((self.wordPerm 39 i).symm y).getLsbD j := by
  have hround : ∀ l, 4 ≤ l → l < 39 → (decRound 0 x).getLsbD l = (decRound 0 y).getLsbD l := by
    intro l hl hl'
    apply getLsbD_decRound_congr _ hl'
    intro n hn hnibble
    apply h
    unfold ungroupIndex
    split_ifs <;> omega
  have hrounds : (decRound 0 (decRound 0 x)).getLsbD j = (decRound 0 (decRound 0 y)).getLsbD j := by
    apply getLsbD_decRound_congr _ (by omega)
    intro n hn hnibble
    apply hround
    · unfold ungroupIndex
      split_ifs <;> omega
    · exact ungroupIndex_lt (by omega)
  change (self.keystream 39 i ^^^ (decRound 0 (decRound 0 x) ^^^ 0)).getLsbD j =
    (self.keystream 39 i ^^^ (decRound 0 (decRound 0 y) ^^^ 0)).getLsbD j
  simp only [BitVec.getLsbD_xor, hrounds]

variable {shuffle fuel}

theorem findMismatch_eq_true {logAddr w32 : ℕ} {candidates : List ℕ}
    (htotal : ∀ c ∈ candidates, ∃ b,
      self.checksumMismatch shuffle fuel logAddr (w32 ||| c <<< 32) = some b)
    (hfound : ∃ c ∈ candidates,
      self.checksumMismatch shuffle fuel logAddr (w32 ||| c <<< 32) = some true) :
    self.findMismatch shuffle fuel logAddr w32 candidates = some true := by
  induction candidates with
  | nil =>
    obtain ⟨c, hc, -⟩ := hfound
    exact absurd hc List.not_mem_nil
  | cons c rest ih =>
    obtain ⟨b, hb⟩ := htotal c List.mem_cons_self
    rw [findMismatch, hb]
    cases b with
    | true => rfl
    | false =>
      apply ih fun c' hc' => htotal c' (List.mem_cons_of_mem c hc')
      obtain ⟨c', hc', hmismatch⟩ := hfound
      rcases List.mem_cons.mp hc' with rfl | hrest
      · rw [hb] at hmismatch
        exact absurd hmismatch (by simp)
      · exact ⟨c', hrest, hmismatch⟩

theorem digestWord_lt (digest256 digestIdx : ℕ) : digestWord digest256 digestIdx < 2 ^ 32 := by
  rw [digestWord, mask32, Nat.one_shiftLeft, Nat.and_two_pow_sub_one_eq_mod]
  exact Nat.mod_lt _ (Nat.two_pow_pos _)

theorem and_mask32 (x : BitVec 39) : x.toNat &&& mask32 = (x.setWidth 32).toNat := by
  rw [mask32, Nat.one_shiftLeft, Nat.and_two_pow_sub_one_eq_mod, BitVec.toNat_setWidth]

section Search

variable {codes : List (List ℕ)} (hcodes : genCode shuffle fuel .invHsiao 32 7 = some codes)

include hcodes

theorem eccEncodeSome_eq (data : BitVec 32) :
    eccEncodeSome shuffle fuel secdedCfgs .invHsiao 32 [data.toNat] =
      some ([(secdedEnc .invHsiao 32 7 codes data).toNat], 7) := by
  have hpick : eccPickCode shuffle fuel secdedCfgs .invHsiao 32 =
      some (7, calcBitmasks 32 7 codes false, true) := by
    rw [eccPickCode, show eccCfg secdedCfgs .invHsiao 32 = some ⟨32, 7, some .invHsiao⟩ by decide]
    simp only [hcodes]
    rfl
  obtain ⟨hlen, hrows⟩ := hsiaoCode_eq_some shuffle fuel 7 (by omega) (by decide) hcodes
  have hword := hsiao_eccEncodeWord hlen hrows (by omega) .invHsiao data
  change (eccEncodeWord 32 7 (calcBitmasks 32 7 codes false) true data.toNat).map intOfBin = _
    at hword
  rw [eccEncodeSome, hpick]
  simp only [Option.bind_eq_bind, Option.bind_some, List.mapM_cons, List.mapM_nil, hword]
  rfl

variable (hwidth : self.addrWidth < 64) (i : BitVec self.addrWidth)

include hwidth

theorem checksumMismatch_eq (x : BitVec 39) :
    self.checksumMismatch shuffle fuel i.toNat x.toNat =
      some (decide (((self.wordPerm 39 i).symm x).toNat ≠
        (secdedEnc .invHsiao 32 7 codes (((self.wordPerm 39 i).symm x).setWidth 32)).toNat)) := by
  rw [checksumMismatch, unscrambleWord_eq hwidth (by omega) (by omega)]
  simp only [Option.bind_eq_bind, Option.bind_some, and_mask32, eccEncodeSome_eq hcodes]
  rfl

/-- Of two candidates that differ in the top bit, one has a wrong checksum: they unscramble
to different words with the same data. -/
theorem exists_checksumMismatch {w32 : ℕ} (hw : w32 < 2 ^ 32) : ∃ c ∈ List.range 128,
    self.checksumMismatch shuffle fuel i.toNat (w32 ||| c <<< 32) = some true := by
  have hlow : w32 ||| 0 <<< 32 = (BitVec.ofNat 39 w32).toNat := by
    rw [BitVec.toNat_ofNat, Nat.mod_eq_of_lt (by omega)]
    exact Nat.or_zero w32
  have hhigh : w32 ||| 64 <<< 32 = (BitVec.ofNat 39 w32 ||| BitVec.twoPow 39 38).toNat := by
    rw [BitVec.toNat_or, BitVec.toNat_ofNat, Nat.mod_eq_of_lt (by omega)]
    rfl
  have hbit : ∀ j < 38, (BitVec.ofNat 39 w32).getLsbD j =
      (BitVec.ofNat 39 w32 ||| BitVec.twoPow 39 38).getLsbD j := by
    intro j hj
    rw [BitVec.getLsbD_or, BitVec.getLsbD_twoPow, decide_eq_false (show ¬38 = j by omega),
      Bool.and_false, Bool.or_false]
  have hdata : ((self.wordPerm 39 i).symm (BitVec.ofNat 39 w32)).setWidth 32 =
      ((self.wordPerm 39 i).symm (BitVec.ofNat 39 w32 ||| BitVec.twoPow 39 38)).setWidth 32 := by
    apply BitVec.eq_of_getLsbD_eq
    intro j hj
    rw [BitVec.getLsbD_setWidth, BitVec.getLsbD_setWidth, getLsbD_wordPerm_symm_congr hbit hj]
  by_contra hnone
  have hcodeword : ∀ c < 128, ∀ x : BitVec 39, w32 ||| c <<< 32 = x.toNat →
      ((self.wordPerm 39 i).symm x).toNat =
        (secdedEnc .invHsiao 32 7 codes (((self.wordPerm 39 i).symm x).setWidth 32)).toNat := by
    intro c hc x hx
    by_contra hne
    apply hnone
    refine ⟨c, List.mem_range.mpr hc, ?_⟩
    rw [hx, checksumMismatch_eq hcodes hwidth, decide_eq_true hne]
  have hsame := hcodeword 0 (by omega) _ hlow
  rw [hdata, ← hcodeword 64 (by omega) _ hhigh] at hsame
  have hword := (self.wordPerm 39 i).symm.injective (BitVec.eq_of_toNat_eq hsame)
  have htop := congrArg (BitVec.getLsbD · 38) hword
  simp only [BitVec.getLsbD_or, BitVec.getLsbD_twoPow, BitVec.getLsbD_ofNat,
    Nat.testBit_lt_two_pow (show w32 < 2 ^ 38 by omega)] at htop
  exact absurd htop (by decide)

theorem findMismatch_range {w32 : ℕ} (hw : w32 < 2 ^ 32) :
    self.findMismatch shuffle fuel i.toNat w32 (List.range 128) = some true := by
  apply findMismatch_eq_true _ (exists_checksumMismatch hcodes hwidth i hw)
  intro c hc
  have hlt : w32 ||| c <<< 32 < 2 ^ 39 := by
    apply Nat.or_lt_two_pow (by omega)
    have := List.mem_range.mp hc
    rw [Nat.shiftLeft_eq]
    omega
  have hx : w32 ||| c <<< 32 = (BitVec.ofNat 39 (w32 ||| c <<< 32)).toNat := by
    rw [BitVec.toNat_ofNat, Nat.mod_eq_of_lt hlt]
  rw [hx]
  exact ⟨_, checksumMismatch_eq hcodes hwidth i _⟩

end Search

/-! ### The words of the digest -/

/-- What the rounds of the loop leave: the words of the digest at their addresses. -/
theorem foldlM_addDigestWord {digest256 : ℕ} {words words' : List ℕ} {n : ℕ}
    (h : (List.range n).foldlM (self.addDigestWord shuffle fuel digest256) words = some words') :
    words'.length = words.length ∧ ∀ i < n, ∃ phyAddr,
      self.addrSpEnc (self.romSizeWords - numDigestWords + i) = some phyAddr ∧
        words'[phyAddr]? = some (digestWord digest256 i) := by
  induction n generalizing words' with
  | zero =>
    obtain rfl : words = words' := Option.some.inj h
    exact ⟨rfl, nofun⟩
  | succ n ih =>
    rw [List.range_succ, List.foldlM_append] at h
    obtain ⟨before, hbefore, hstep⟩ := Option.bind_eq_some_iff.mp h
    obtain ⟨hlen, hold⟩ := ih hbefore
    simp only [List.foldlM_cons, List.foldlM_nil, bind_pure, addDigestWord] at hstep
    obtain ⟨found, -, hwrite⟩ := Option.bind_eq_some_iff.mp hstep
    cases found with
    | false => exact absurd hwrite (by simp)
    | true =>
      obtain ⟨phyAddr, haddr, hset⟩ := Option.bind_eq_some_iff.mp hwrite
      by_cases hlt : phyAddr < before.length
      case neg =>
        rw [if_neg hlt] at hset
        exact absurd hset (by simp)
      rw [if_pos hlt] at hset
      obtain rfl := Option.some.inj hset
      refine ⟨by rw [List.length_set, hlen], ?_⟩
      intro i hi
      by_cases hlast : i = n
      · subst hlast
        exact ⟨phyAddr, haddr, List.getElem?_set_self hlt⟩
      · obtain ⟨phyAddr', haddr', hword⟩ := hold i (by omega)
        refine ⟨phyAddr', haddr', ?_⟩
        rw [List.getElem?_set_ne, hword]
        rintro rfl
        exact hlast (by have := addrSpEnc_injective haddr haddr'; omega)

variable (shuffle fuel) in
/-- A word with a valid checksum. -/
def IsCodeword (w39 : ℕ) : Prop :=
  ∃ data m, eccEncode shuffle fuel secdedCfgs .invHsiao 32 data = some (w39, m)

variable (shuffle fuel self) in
/-- The guarantee of `add_hash`: the top words hold the digest and unscramble to words
with invalid checksums. -/
def DigestUnreadable (digest256 : ℕ) (words : List ℕ) : Prop :=
  ∀ i < numDigestWords, ∃ phyAddr w39 clr39,
    self.addrSpEnc (self.romSizeWords - numDigestWords + i) = some phyAddr ∧
      words[phyAddr]? = some w39 ∧ w39 &&& mask32 = digestWord digest256 i ∧
      self.unscrambleWord 39 (self.romSizeWords - numDigestWords + i) w39 = some clr39 ∧
      ¬IsCodeword shuffle fuel clr39

variable (shuffle fuel self) in
/-- No word of the digest, extended by zeros, is the scrambled form of a codeword. -/
def DigestNotScrambled (digest256 : ℕ) : Prop :=
  ∀ i < numDigestWords, ∀ w39, IsCodeword shuffle fuel w39 →
    self.scrambleWord 39 (self.romSizeWords - numDigestWords + i) w39 ≠
      some (digestWord digest256 i)

theorem digestUnreadable_iff {digest256 : ℕ} {words words' : List ℕ}
    (h : (List.range numDigestWords).foldlM (self.addDigestWord shuffle fuel digest256) words =
      some words') :
    self.DigestUnreadable shuffle fuel digest256 words' ↔
      self.DigestNotScrambled shuffle fuel digest256 := by
  obtain ⟨-, hwords⟩ := foldlM_addDigestWord h
  apply forall_congr'
  intro i
  apply imp_congr_right
  intro hi
  obtain ⟨phyAddr, haddr, hword⟩ := hwords i hi
  obtain ⟨hwidth, logAddr, hlog, -⟩ := addrSpEnc_eq_some_iff.mp haddr
  have hlt := digestWord_lt digest256 i
  obtain ⟨x, hx⟩ : ∃ x : BitVec 39, x.toNat = digestWord digest256 i := by
    refine ⟨BitVec.ofNat 39 (digestWord digest256 i), ?_⟩
    rw [BitVec.toNat_ofNat, Nat.mod_eq_of_lt (by omega)]
  constructor
  · rintro ⟨phyAddr', w39, clr39, haddr', hword', -, hclr, hinvalid⟩ w hw hscr
    obtain rfl := Option.some.inj (haddr.symm.trans haddr')
    obtain rfl := Option.some.inj (hword.symm.trans hword')
    rw [← hlog, ← hx] at hclr hscr
    rw [(unscrambleWord_eq_some_iff hwidth (by omega) (by omega) logAddr x).mpr hscr] at hclr
    exact hinvalid (Option.some.inj hclr ▸ hw)
  · intro hvalid
    refine ⟨phyAddr, _, ((self.wordPerm 39 logAddr).symm x).toNat, haddr, hword, ?_, ?_, ?_⟩
    · rw [mask32, Nat.one_shiftLeft, Nat.and_two_pow_sub_one_eq_mod, Nat.mod_eq_of_lt hlt]
    · rw [← hlog, ← hx, unscrambleWord_eq hwidth (by omega) (by omega)]
    · intro hcodeword
      apply hvalid _ hcodeword
      rw [← hlog, ← hx, ← unscrambleWord_eq_some_iff hwidth (by omega) (by omega),
        unscrambleWord_eq hwidth (by omega) (by omega)]

/-! ### The whole function -/

theorem addHash_eq_some {mem mem' : MemFile}
    (h : self.addHash cSHAKE256 shuffle fuel mem = some mem') : ∃ words digest256 words',
      mem = ⟨39, [⟨0, words⟩]⟩ ∧ mem' = ⟨39, [⟨0, words'⟩]⟩ ∧
      self.digestOf cSHAKE256 words = some digest256 ∧
      (List.range numDigestWords).foldlM (self.addDigestWord shuffle fuel digest256) words =
        some words' := by
  obtain ⟨width, chunks⟩ := mem
  match chunks, h with
  | [], h => exact absurd h (by simp [addHash])
  | _ :: _ :: _, h => exact absurd h (by simp [addHash])
  | [⟨base, words⟩], h =>
    simp only [addHash] at h
    split_ifs at h with hchecks
    obtain ⟨rfl, -, rfl, -⟩ := hchecks
    simp only [Option.bind_eq_bind, Option.bind_eq_some_iff] at h
    obtain ⟨digest256, hdigest, words', hwords, hout⟩ := h
    exact ⟨words, digest256, words', rfl, (Option.some.inj hout).symm, hdigest, hwords⟩

section

variable (hsize : self.romSizeWords = 2 ^ self.addrWidth) (hdigest : numDigestWords ≤ self.romSizeWords)
  {words : List ℕ} (hwords : self.FlatRom words)

include hsize hdigest hwords

theorem exists_digestOf : ∃ digest256, self.digestOf cSHAKE256 words = some digest256 := by
  have hrun : ∀ n ≤ self.romSizeWords, ∃ bytes,
      (List.range n).foldlM (fun bytes logAddr => do
        let phyAddr ← self.addrSpEnc logAddr
        let scrWord ← words[phyAddr]?
        let scrBytes ← toBytes ((39 + 7) / 8) scrWord
        some (bytes ++ scrBytes)) [] = some bytes := by
    intro n hn
    induction n with
    | zero => exact ⟨[], rfl⟩
    | succ n ih =>
      obtain ⟨bytes, hbytes⟩ := ih (by omega)
      obtain ⟨i, hi⟩ : ∃ i : BitVec self.addrWidth, i.toNat = n := by
        refine ⟨BitVec.ofNat _ n, ?_⟩
        rw [BitVec.toNat_ofNat, Nat.mod_eq_of_lt (by omega)]
      have hphy : (self.addrPerm i).toNat < words.length := by
        rw [hwords.1, hsize]
        exact (self.addrPerm i).isLt
      obtain ⟨scrBytes, hscr⟩ : ∃ scrBytes,
          toBytes ((39 + 7) / 8) words[(self.addrPerm i).toNat] = some scrBytes := by
        have hword := hwords.2 _ (List.getElem_mem hphy)
        rw [toBytes, Nat.one_shiftLeft, if_pos (by omega)]
        exact ⟨_, rfl⟩
      refine ⟨bytes ++ scrBytes, ?_⟩
      rw [List.range_succ, List.foldlM_append, hbytes]
      simp only [Option.bind_eq_bind, Option.bind_some, List.foldlM_cons, List.foldlM_nil, ← hi,
        addrSpEnc_eq (addrWidth_lt hsize), List.getElem?_eq_getElem hphy, hscr]
      rfl
  obtain ⟨bytes, hbytes⟩ := hrun (self.romSizeWords - numDigestWords) (by omega)
  rw [digestOf, toHash, hbytes]
  exact ⟨_, rfl⟩

/-- With the generator's code, `add_hash` finds check bits for every word of the digest. -/
theorem exists_addHash (hcodes : (genCode shuffle fuel .invHsiao 32 7).isSome) :
    ∃ mem', self.addHash cSHAKE256 shuffle fuel ⟨39, [⟨0, words⟩]⟩ = some mem' := by
  obtain ⟨codes, hcodes⟩ := Option.isSome_iff_exists.mp hcodes
  obtain ⟨digest256, hdigest256⟩ := exists_digestOf cSHAKE256 hsize hdigest hwords
  have hrun : ∀ n ≤ numDigestWords, ∃ words',
      (List.range n).foldlM (self.addDigestWord shuffle fuel digest256) words = some words' := by
    intro n hn
    induction n with
    | zero => exact ⟨words, rfl⟩
    | succ n ih =>
      obtain ⟨words', hwords'⟩ := ih (by omega)
      obtain ⟨i, hi⟩ : ∃ i : BitVec self.addrWidth,
          i.toNat = self.romSizeWords - numDigestWords + n := by
        refine ⟨BitVec.ofNat _ (self.romSizeWords - numDigestWords + n), ?_⟩
        rw [BitVec.toNat_ofNat, Nat.mod_eq_of_lt (by omega)]
      have hphy : (self.addrPerm i).toNat < words'.length := by
        rw [(foldlM_addDigestWord hwords').1, hwords.1, hsize]
        exact (self.addrPerm i).isLt
      refine ⟨words'.set (self.addrPerm i).toNat (digestWord digest256 n), ?_⟩
      rw [List.range_succ, List.foldlM_append, hwords']
      simp only [Option.bind_eq_bind, Option.bind_some, List.foldlM_cons, List.foldlM_nil, addDigestWord, ← hi,
        findMismatch_range hcodes (addrWidth_lt hsize) i (digestWord_lt digest256 n),
        addrSpEnc_eq (addrWidth_lt hsize), if_true, if_pos hphy]
      rfl
  obtain ⟨words', hwords'⟩ := hrun numDigestWords le_rfl
  refine ⟨⟨39, [⟨0, words'⟩]⟩, ?_⟩
  simp only [addHash, hwords.1, hdigest, hdigest256, hwords', Option.bind_eq_bind,
    Option.bind_some]
  rfl

end

end Scrambler

/-- `add_hash` returns on every flat memory of a ROM with a power of two of words that holds
the digest. On every ROM that it returns for, its guarantee holds exactly when no word of
the digest, extended by zeros, is the scrambled form of a codeword: it checks words with
other check bits, and writes the word of the digest without them. -/
theorem addHash_digestUnreadable_iff (cSHAKE256 : CShake) (shuffle : Shuffle) (fuel : ℕ)
    (s : Scrambler) :
    (∀ k words, s.romSizeWords = 2 ^ k → 3 ≤ k → s.FlatRom words →
      (genCode shuffle fuel .invHsiao 32 7).isSome →
      ∃ mem', s.addHash cSHAKE256 shuffle fuel ⟨39, [⟨0, words⟩]⟩ = some mem') ∧
    ∀ mem mem', s.addHash cSHAKE256 shuffle fuel mem = some mem' → ∃ words digest256 words',
      mem = ⟨39, [⟨0, words⟩]⟩ ∧ mem' = ⟨39, [⟨0, words'⟩]⟩ ∧
      s.digestOf cSHAKE256 words = some digest256 ∧
      (s.DigestUnreadable shuffle fuel digest256 words' ↔
        s.DigestNotScrambled shuffle fuel digest256) := by
  constructor
  · intro k words hsize hk hwords hcodes
    have hpow : 2 ^ 3 ≤ 2 ^ k := Nat.pow_le_pow_right (by omega) hk
    have hdigest : numDigestWords ≤ s.romSizeWords := by
      rw [hsize]
      exact hpow
    rw [← Scrambler.addrWidth_eq hsize] at hsize
    exact Scrambler.exists_addHash cSHAKE256 hsize hdigest hwords hcodes
  · intro mem mem' h
    obtain ⟨words, digest256, words', hmem, hmem', hdigest, hrun⟩ :=
      Scrambler.addHash_eq_some cSHAKE256 h
    exact ⟨words, digest256, words', hmem, hmem', hdigest, Scrambler.digestUnreadable_iff hrun⟩

/-! ### A digest that can be read -/

/-- The rows of the shipped inverted Hsiao code for 32 bits, and the three left over. -/
def shippedRows : List (List ℕ) :=
  [[0, 3, 4], [2, 4, 6], [0, 5, 6], [2, 4, 5], [1, 3, 4], [0, 2, 4], [1, 3, 5], [2, 3, 6],
    [0, 2, 6], [3, 4, 5], [0, 3, 6], [0, 2, 3], [0, 4, 6], [0, 4, 5], [3, 5, 6], [0, 1, 2],
    [2, 3, 4], [0, 1, 3], [0, 2, 5], [1, 2, 5], [1, 2, 6], [1, 2, 3], [4, 5, 6], [1, 4, 5],
    [2, 3, 5], [0, 1, 4], [0, 1, 5], [1, 5, 6], [1, 3, 6], [0, 3, 5], [1, 2, 4], [1, 4, 6],
    [0, 1, 6], [2, 5, 6], [3, 4, 6]]

/-- The order that leads to the shipped code. -/
def shippedShuffle : Shuffle where
  run _ l := if l.Perm shippedRows then shippedRows else l
  perm _ l := by
    split_ifs with h
    · exact h.symm
    · exact List.Perm.refl l

/-- The digest of no data at all, little-endian. -/
def emptyDigest : ℕ := 0xce50562af5cc10052dd50c9a3408132a388e303d574945655ed5d546616071ac

/-- The hash function on no data. -/
def cShakeOfEmpty : CShake := fun data custom n =>
  if data = [] ∧ custom = customRomCtrl then
    (List.range n).map fun i => BitVec.ofNat 8 (emptyDigest >>> (8 * i))
  else List.replicate n 0

theorem digestWords_pos : 0 < 8 := by decide

/-- A ROM that the digest fills. -/
def digestRom : Scrambler :=
  ⟨0x16c16c16c16c04, 0x123456789abcdef, 8, by decide, by decide, digestWords_pos, by decide⟩

/-- The seventh word of the digest unscrambles to a codeword. -/
theorem addHash_digest_readable :
    ∃ words',
      digestRom.addHash cShakeOfEmpty shippedShuffle 1 ⟨39, [⟨0, List.replicate 8 0⟩]⟩ =
        some ⟨39, [⟨0, words'⟩]⟩ ∧
      digestRom.digestOf cShakeOfEmpty (List.replicate 8 0) = some emptyDigest ∧
      ¬digestRom.DigestUnreadable shippedShuffle 1 emptyDigest words' := by
  have hdigest : digestRom.digestOf cShakeOfEmpty (List.replicate 8 0) = some emptyDigest := by
    decide +kernel
  have hrun : digestRom.addHash cShakeOfEmpty shippedShuffle 1 ⟨39, [⟨0, List.replicate 8 0⟩]⟩ =
      some ⟨39, [⟨0, [1633710508, 1591072070, 1464419685, 948842557, 872944426, 768937114,
        4123791365, 3461371434]⟩]⟩ := by
    decide +kernel
  refine ⟨_, hrun, hdigest, ?_⟩
  obtain ⟨words, digest256, words', hmem, hmem', hdigest', hloop⟩ :=
    Scrambler.addHash_eq_some cShakeOfEmpty hrun
  have hcodeword : Scrambler.IsCodeword shippedShuffle 1 294153354298 :=
    ⟨2095578170, 7, by decide +kernel⟩
  simp only [MemFile.mk.injEq, List.cons.injEq, MemChunk.mk.injEq, true_and, and_true]
    at hmem hmem'
  rw [← hmem, hdigest] at hdigest'
  obtain rfl := Option.some.inj hdigest'
  rw [hmem', Scrambler.digestUnreadable_iff hloop]
  intro h
  exact h 6 (by decide) _ hcodeword (by decide +kernel)

end SecureBoot.ScrambleImage
