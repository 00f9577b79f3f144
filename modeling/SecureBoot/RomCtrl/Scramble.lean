import SecureBoot.RomCtrl.ScrambleImage

/-! The scrambled ROM image. The addresses are permuted by the network under the upper part
of the nonce, and the words at an address by the network after the keystream of the
address. The image is built at the physical addresses and read at the logical ones. -/

namespace SecureBoot.ScrambleImage

open Bits

theorem mapM_eq_some {α β : Type*} {f : α → Option β} {g : α → β} {l : List α}
    (h : ∀ a ∈ l, f a = some (g a)) : l.mapM f = some (l.map g) := by
  induction l with
  | nil => rfl
  | cons a l ih =>
    rw [List.mapM_cons, h a List.mem_cons_self, ih fun b hb => h b (List.mem_cons_of_mem a hb)]
    rfl

namespace Scrambler

variable (s : Scrambler)

/-! ### The permutations -/

/-- `addr_scr_nonce`. -/
def addrScrNonce : BitVec s.addrWidth := BitVec.ofNat _ (s.nonce >>> (64 - s.addrWidth))

/-- The permutation of the addresses. -/
def addrPerm : BitVec s.addrWidth ≃ BitVec s.addrWidth :=
  substPermEquiv substPermRounds s.addrScrNonce

/-- The cipher as it stands in the scrambled ROM. -/
def romPrince : PrinceParams := ⟨numRoundsHalf, false, true, true⟩

/-- `{data_scr_nonce, addr}`. -/
def toScramble (i : BitVec s.addrWidth) : BitVec 64 :=
  BitVec.ofNat 64 (((s.nonce &&& onesMask (64 - s.addrWidth)) <<< s.addrWidth) ||| i.toNat)

/-- The keystream of an address. -/
def keystream (width : ℕ) (i : BitVec s.addrWidth) : BitVec width :=
  (primPrince romPrince ⟨true, true, s.toScramble i, BitVec.ofNat 128 s.key, false⟩).setWidth width

/-- The permutation of the words at an address. -/
def wordPerm (width : ℕ) (i : BitVec s.addrWidth) : BitVec width ≃ BitVec width where
  toFun x := substPermEquiv substPermRounds (BitVec.ofNat width 0) (s.keystream width i ^^^ x)
  invFun x := s.keystream width i ^^^ (substPermEquiv substPermRounds (BitVec.ofNat width 0)).symm x
  left_inv x := by
    change s.keystream width i ^^^ (substPermEquiv substPermRounds (BitVec.ofNat width 0)).symm
      (substPermEquiv substPermRounds (BitVec.ofNat width 0) (s.keystream width i ^^^ x)) = x
    rw [Equiv.symm_apply_apply, ← BitVec.xor_assoc, BitVec.xor_self, BitVec.zero_xor]
  right_inv x := by
    change substPermEquiv substPermRounds (BitVec.ofNat width 0) (s.keystream width i ^^^
      (s.keystream width i ^^^ (substPermEquiv substPermRounds (BitVec.ofNat width 0)).symm x)) = x
    rw [← BitVec.xor_assoc, BitVec.xor_self, BitVec.zero_xor, Equiv.apply_symm_apply]

section

variable {s} (hwidth : s.addrWidth < 64)

include hwidth

theorem nonce_shiftRight_lt : s.nonce >>> (64 - s.addrWidth) < 2 ^ s.addrWidth := by
  have hnonce := s.nonce_lt
  rw [Nat.one_shiftLeft] at hnonce
  rw [Nat.shiftRight_eq_div_pow]
  apply Nat.div_lt_of_lt_mul
  rw [← pow_add, show 64 - s.addrWidth + s.addrWidth = 64 by omega]
  exact hnonce

theorem toNat_addrScrNonce : s.addrScrNonce.toNat = s.nonce >>> (64 - s.addrWidth) := by
  rw [addrScrNonce, BitVec.toNat_ofNat, Nat.mod_eq_of_lt (nonce_shiftRight_lt hwidth)]

theorem addrSpEnc_eq (i : BitVec s.addrWidth) : s.addrSpEnc i.toNat = some (s.addrPerm i).toNat := by
  rw [addrSpEnc, if_pos hwidth]
  simp only [← toNat_addrScrNonce hwidth, substPermEnc_eq]
  rfl

theorem addrSpDec_eq (p : BitVec s.addrWidth) :
    s.addrSpDec p.toNat = some (s.addrPerm.symm p).toNat := by
  rw [addrSpDec, if_pos hwidth]
  simp only [← toNat_addrScrNonce hwidth, substPermDec_eq]
  rfl

theorem toNat_toScramble (i : BitVec s.addrWidth) : (s.toScramble i).toNat =
    ((s.nonce &&& onesMask (64 - s.addrWidth)) <<< s.addrWidth) ||| i.toNat := by
  rw [toScramble, BitVec.toNat_ofNat, Nat.mod_eq_of_lt]
  apply Nat.or_lt_two_pow
  · rw [Nat.shiftLeft_eq, onesMask, Nat.one_shiftLeft, Nat.and_two_pow_sub_one_eq_mod,
      show 2 ^ 64 = 2 ^ (64 - s.addrWidth) * 2 ^ s.addrWidth by
        rw [← pow_add, show 64 - s.addrWidth + s.addrWidth = 64 by omega]]
    exact Nat.mul_lt_mul_of_pos_right (Nat.mod_lt _ (Nat.two_pow_pos _)) (Nat.two_pow_pos _)
  · exact i.isLt.trans (Nat.pow_lt_pow_right (by omega) hwidth)

variable {width : ℕ} (hpos : 0 < width) (hle : width ≤ 64)

include hpos hle

theorem getKeystream_eq (i : BitVec s.addrWidth) :
    s.getKeystream i.toNat width = some (s.keystream width i).toNat := by
  have hkey : s.key = (BitVec.ofNat 128 s.key).toNat := by
    have := s.key_lt
    rw [Nat.one_shiftLeft] at this
    rw [BitVec.toNat_ofNat, Nat.mod_eq_of_lt this]
  have hshift : i.toNat >>> s.addrWidth = 0 := by
    rw [Nat.shiftRight_eq_div_pow, Nat.div_eq_of_lt i.isLt]
  have hprince := prince_eq romPrince ⟨true, true, s.toScramble i, BitVec.ofNat 128 s.key, false⟩
    (by decide) rfl rfl
  rw [toNat_toScramble hwidth, ← hkey] at hprince
  change prince _ _ numRoundsHalf = _ at hprince
  rw [getKeystream, if_pos ⟨hshift, hpos, hle⟩]
  simp only [hprince, Option.bind_eq_bind, Option.bind_some]
  rw [keystream, BitVec.toNat_setWidth, onesMask, Nat.one_shiftLeft,
    Nat.and_two_pow_sub_one_eq_mod]

theorem scrambleWord_eq (i : BitVec s.addrWidth) (x : BitVec width) :
    s.scrambleWord width i.toNat x.toNat = some (s.wordPerm width i x).toNat := by
  rw [scrambleWord, getKeystream_eq hwidth hpos hle, Option.bind_eq_bind, Option.bind_some,
    dataSpEnc, ← BitVec.toNat_xor, ← BitVec.toNat_zero, substPermEnc_eq]
  rfl

theorem unscrambleWord_eq (i : BitVec s.addrWidth) (x : BitVec width) :
    s.unscrambleWord width i.toNat x.toNat = some ((s.wordPerm width i).symm x).toNat := by
  rw [unscrambleWord, getKeystream_eq hwidth hpos hle, Option.bind_eq_bind, Option.bind_some,
    dataSpDec, ← BitVec.toNat_zero, substPermDec_eq, Option.bind_some, ← BitVec.toNat_xor]
  rfl

end

/-! ### Images -/

/-- A memory as long as the ROM, of 39-bit words. -/
def FlatRom (words : List ℕ) : Prop := words.length = s.romSizeWords ∧ ∀ w ∈ words, w < 2 ^ 39

/-- A memory given by the word at each address. -/
def romWords (W : BitVec s.addrWidth → BitVec 39) : List ℕ :=
  (List.range s.romSizeWords).map fun i => (W (BitVec.ofNat _ i)).toNat

section

variable {s} (hsize : s.romSizeWords = 2 ^ s.addrWidth)

include hsize

theorem addrWidth_lt : s.addrWidth < 64 := by
  have h := s.romSizeWords_lt
  rw [hsize, Nat.one_shiftLeft] at h
  exact (Nat.pow_lt_pow_iff_right (by omega)).mp h

theorem getElem?_romWords (W : BitVec s.addrWidth → BitVec 39) (i : BitVec s.addrWidth) :
    (s.romWords W)[i.toNat]? = some (W i).toNat := by
  have hi : i.toNat < s.romSizeWords := hsize ▸ i.isLt
  rw [romWords, List.getElem?_map, List.getElem?_range hi, Option.map_some, BitVec.ofNat_toNat,
    BitVec.setWidth_eq]

omit hsize in
theorem flatRom_romWords (W : BitVec s.addrWidth → BitVec 39) : s.FlatRom (s.romWords W) := by
  constructor
  · rw [romWords, List.length_map, List.length_range]
  · intro w hw
    obtain ⟨i, -, rfl⟩ := List.mem_map.mp hw
    exact (W _).isLt

/-- Every flat memory is given by its words. -/
theorem exists_romWords {words : List ℕ} (h : s.FlatRom words) : ∃ W, words = s.romWords W := by
  refine ⟨fun i => BitVec.ofNat 39 (words.getD i.toNat 0), ?_⟩
  apply List.ext_getElem
  · rw [romWords, List.length_map, List.length_range, h.1]
  · intro i hi hi'
    have hlt : i < 2 ^ s.addrWidth := by rw [← hsize, ← h.1]; exact hi
    have hword := h.2 _ (List.getElem_mem hi)
    simp only [romWords, List.getElem_map, List.getElem_range, BitVec.toNat_ofNat,
      Nat.mod_eq_of_lt hlt, List.getD_eq_getElem _ _ hi, Nat.mod_eq_of_lt hword]

theorem romWords_injective : Function.Injective s.romWords := by
  intro W W' h
  funext i
  have hi := getElem?_romWords hsize W i
  rw [h, getElem?_romWords hsize W'] at hi
  exact BitVec.eq_of_toNat_eq (Option.some.inj hi).symm

variable (s) in
/-- The scrambled memory: the word at a physical address is that of its logical address,
permuted there. -/
def scrambleEquiv : (BitVec s.addrWidth → BitVec 39) ≃ (BitVec s.addrWidth → BitVec 39) where
  toFun W p := s.wordPerm 39 (s.addrPerm.symm p) (W (s.addrPerm.symm p))
  invFun S i := (s.wordPerm 39 i).symm (S (s.addrPerm i))
  left_inv W := by
    funext i
    simp
  right_inv S := by
    funext p
    simp

theorem scrambledAt_romWords (W : BitVec s.addrWidth → BitVec 39) (p : BitVec s.addrWidth) :
    s.scrambledAt 39 (s.romWords W) p.toNat = some (s.scrambleEquiv W p).toNat := by
  have hlog : (s.addrPerm.symm p).toNat < s.romSizeWords := hsize ▸ (s.addrPerm.symm p).isLt
  have hword : (W (s.addrPerm.symm p)).toNat < 1 <<< 39 := toNat_lt_one_shiftLeft _
  rw [scrambledAt, addrSpDec_eq (addrWidth_lt hsize), Option.bind_eq_bind, Option.bind_some,
    if_pos hlog, getElem?_romWords hsize, Option.bind_some, if_pos hword,
    scrambleWord_eq (addrWidth_lt hsize) (by omega) (by omega)]
  rfl

theorem scramble_romWords (base : ℕ) (W : BitVec s.addrWidth → BitVec 39) :
    s.scramble ⟨39, [⟨base, s.romWords W⟩]⟩ =
      some ⟨39, [⟨0, s.romWords (s.scrambleEquiv W)⟩]⟩ := by
  have hmap : (List.range s.romSizeWords).mapM (s.scrambledAt 39 (s.romWords W)) =
      some (s.romWords (s.scrambleEquiv W)) := by
    apply mapM_eq_some
    intro p hp
    have hlt : p < 2 ^ s.addrWidth := hsize ▸ List.mem_range.mp hp
    have hp' : p = (BitVec.ofNat s.addrWidth p).toNat := by
      rw [BitVec.toNat_ofNat, Nat.mod_eq_of_lt hlt]
    conv_lhs => rw [hp']
    exact scrambledAt_romWords hsize W _
  simp only [scramble, (flatRom_romWords W).1, hmap]
  rfl

end

/-! ### The image read back -/

/-- What scrambling keeps of a flat memory. -/
structure UndoneByReading : Prop where
  /-- Read at the physical addresses of the logical ones, the image unscrambles to the
  memory it was built from. -/
  reads : ∀ base words, s.FlatRom words → ∃ scr,
    s.scramble ⟨39, [⟨base, words⟩]⟩ = some ⟨39, [⟨0, scr⟩]⟩ ∧ s.FlatRom scr ∧
      ∀ i < s.romSizeWords,
        ((s.addrSpEnc i).bind fun p => scr[p]?).bind (s.unscrambleWord 39 i) = words[i]?
  /-- Every physical address belongs to one logical address. -/
  addresses : ∀ p < s.romSizeWords, ∃! i, i < s.romSizeWords ∧ s.addrSpEnc i = some p
  /-- Every flat memory is the image of one flat memory. -/
  bijective : ∀ base scr, s.FlatRom scr → ∃! words, s.FlatRom words ∧
    s.scramble ⟨39, [⟨base, words⟩]⟩ = some ⟨39, [⟨0, scr⟩]⟩

/-- What the script takes from the hardware. -/
structure ModelsHardware : Prop where
  substPermEnc : ∀ (w n : ℕ) (x key : BitVec w),
    substPermEnc x.toNat key.toNat w n = some (primSubstPerm n false x key).toNat
  substPermDec : ∀ (w n : ℕ) (x key : BitVec w),
    substPermDec x.toNat key.toNat w n = some (primSubstPerm n true x key).toNat
  /-- The output of an input held for a second cycle, with any of the registers. -/
  prince : ∀ (P : PrinceParams) (i : PrinceIn) (r : PrinceRegs), P.NumRoundsHalf ≤ 5 →
    P.UseOldKeySched = false → i.rst_ni = true → i.valid_i = true → i.dec_i = false →
    prince i.data_i.toNat i.key_i.toNat P.NumRoundsHalf =
      some (princeDataO P i (princeClock P i r)).toNat

variable {s}

theorem undoneByReading (hsize : s.romSizeWords = 2 ^ s.addrWidth) : s.UndoneByReading where
  reads := by
    intro base words hwords
    obtain ⟨W, rfl⟩ := exists_romWords hsize hwords
    refine ⟨_, scramble_romWords hsize base W, flatRom_romWords _, fun i hi => ?_⟩
    obtain ⟨I, rfl⟩ : ∃ I : BitVec s.addrWidth, I.toNat = i := by
      refine ⟨BitVec.ofNat _ i, ?_⟩
      rw [BitVec.toNat_ofNat, Nat.mod_eq_of_lt (hsize ▸ hi)]
    have hwidth := addrWidth_lt hsize
    rw [addrSpEnc_eq hwidth, Option.bind_some, getElem?_romWords hsize, Option.bind_some,
      unscrambleWord_eq hwidth (by omega) (by omega), getElem?_romWords hsize]
    simp [scrambleEquiv]
  addresses := by
    intro p hp
    obtain ⟨P, rfl⟩ : ∃ P : BitVec s.addrWidth, P.toNat = p := by
      refine ⟨BitVec.ofNat _ p, ?_⟩
      rw [BitVec.toNat_ofNat, Nat.mod_eq_of_lt (hsize ▸ hp)]
    have hwidth := addrWidth_lt hsize
    refine ⟨(s.addrPerm.symm P).toNat, ⟨hsize ▸ (s.addrPerm.symm P).isLt, ?_⟩, ?_⟩
    · rw [addrSpEnc_eq hwidth, Equiv.apply_symm_apply]
    · rintro i ⟨hi, henc⟩
      obtain ⟨I, rfl⟩ : ∃ I : BitVec s.addrWidth, I.toNat = i := by
        refine ⟨BitVec.ofNat _ i, ?_⟩
        rw [BitVec.toNat_ofNat, Nat.mod_eq_of_lt (hsize ▸ hi)]
      rw [addrSpEnc_eq hwidth] at henc
      rw [← BitVec.eq_of_toNat_eq (Option.some.inj henc), Equiv.symm_apply_apply]
  bijective := by
    intro base scr hscr
    obtain ⟨S, rfl⟩ := exists_romWords hsize hscr
    refine ⟨s.romWords (s.scrambleEquiv.symm S), ⟨flatRom_romWords _, ?_⟩, ?_⟩
    · rw [scramble_romWords hsize, Equiv.apply_symm_apply]
    · rintro words ⟨hwords, hscramble⟩
      obtain ⟨W, rfl⟩ := exists_romWords hsize hwords
      rw [scramble_romWords hsize] at hscramble
      have himage : s.romWords (s.scrambleEquiv W) = s.romWords S := by
        simpa using hscramble
      rw [← romWords_injective hsize himage, Equiv.symm_apply_apply]

theorem modelsHardware : ModelsHardware where
  substPermEnc _ n x key := substPermEnc_eq key x n
  substPermDec _ n x key := substPermDec_eq key x n
  prince P i r hrounds hsched hrst hvalid hdec := by
    rw [princeDataO_of_held P i r hrst hvalid]
    exact prince_eq P i hrounds hsched hdec

theorem addrWidth_eq {k : ℕ} (hsize : s.romSizeWords = 2 ^ k) : s.addrWidth = k := by
  rw [addrWidth, hsize]
  apply le_antisymm
  · rw [Nat.size_le]
    have := Nat.two_pow_pos k
    omega
  · by_contra hlt
    have hsmall := Nat.size_le.mp (show (2 ^ k - 1).size ≤ k - 1 by omega)
    have hk : k = k - 1 + 1 := by omega
    have hpow : 2 ^ k = 2 * 2 ^ (k - 1) := by
      conv_lhs => rw [hk, pow_succ']
    have := Nat.two_pow_pos (k - 1)
    omega

end Scrambler

/-- For every nonce, key and power of two as the ROM size: the scrambled image is a
bijective rearrangement that the reading order of the hardware undoes, and the network
and the cipher of the script are those of the hardware. -/
theorem scramble_undone_by_reading (s : Scrambler) (k : ℕ) (hsize : s.romSizeWords = 2 ^ k) :
    s.UndoneByReading ∧ Scrambler.ModelsHardware :=
  ⟨Scrambler.undoneByReading (by rw [Scrambler.addrWidth_eq hsize, hsize]),
    Scrambler.modelsHardware⟩

theorem scramble_undone_by_reading_16 :
    Scrambler.UndoneByReading ⟨0xabcdef0123456789, 0x123456789, 16, by decide, by decide, by decide,
      by decide⟩ :=
  (scramble_undone_by_reading _ 4 rfl).1

end SecureBoot.ScrambleImage
