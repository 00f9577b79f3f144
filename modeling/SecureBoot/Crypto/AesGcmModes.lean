import SecureBoot.Crypto.AesGcmRun

/-! `aes_gcm_encrypt` and `aes_gcm_decrypt` against the standard: what is written is the
ciphertext and the tag of the mode, a round trip gives the plaintext back, and a tag that is not
the tag of the mode leaves the plaintext buffer alone. -/

namespace SecureBoot

open AesError

variable (hw : AesUnit) {key : AesKey} {key_words : ℕ} {r : AesRegs}

/-! ### The parts before the text -/

theorem aesGcmHashSubkey_ok (hkey : key.Supported key_words) (tbl : AesGcmProductTable)
    (hr : r.alert = false) :
    ∃ H r', aesGcmHashSubkey hw key tbl r = some ((kAesOk, makeProductTable H), r') ∧
      r'.alert = false ∧ H.value = key.ciph hw key_words 0 := by
  obtain ⟨H, r', hrun, hr', hvalue⟩ := aesEncryptBlock_ok hw hkey .zero .zero .zero hr
  rw [AesBlock.value_zero, BitVec.zero_xor] at hvalue
  refine ⟨H, r', ?_, hr', hvalue⟩
  rw [aesGcmHashSubkey]
  simp only [bind, StateT.bind, hrun, Option.bind_some]
  rfl

theorem blocks_tail_16 : Gcm.blocks (List.replicate 15 0 ++ [0x80]) = [0#64 ++ 128#64] := by
  decide +kernel

/-- The block before the first counter block. -/
theorem aesGcmCounter_ok {H : AesBlock} (ciph : Gcm.Block → Gcm.Block) (hH : H.value = ciph 0)
    {iv : List Byte} (hiv : iv.length = 12 ∨ iv.length = 16) (j : AesBlock) :
    ∃ j0, aesGcmCounter iv (makeProductTable H) j = (kAesOk, j0) ∧ j0.value = Gcm.j0 ciph iv := by
  rw [aesGcmCounter, Gcm.j0]
  obtain h12 | h16 := hiv
  · rw [if_pos h12, if_pos h12]
    refine ⟨_, rfl, Gcm.eq_of_byte_eq fun k hk => ?_⟩
    rw [AesBlock.byte_value _ hk, Gcm.ofBytes, Gcm.byte_blockAt _ 0 hk, Nat.mul_zero, Nat.zero_add,
      List.getD_eq_getElem?_getD]
    by_cases hlow : k < 12
    · have hne : Fin.ofNat kAesBlockNumWords (k / 4) ≠ 3 := by
        intro h
        have := congrArg Fin.val h
        have : k / 4 % 4 = 3 := this
        omega
      rw [AesBlock.byte, Function.update_of_ne hne, List.getElem?_append_left (by omega),
        ← List.getD_eq_getElem?_getD]
      exact AesBlock.byte_ofBytes iv hk
    · have hlast : Fin.ofNat kAesBlockNumWords (k / 4) = 3 :=
        Fin.ext (show k / 4 % 4 = 3 by omega)
      rw [List.getElem?_append_right (by omega), h12, AesBlock.byte, hlast, Function.update_self]
      obtain rfl | rfl | rfl | rfl : k = 12 ∨ k = 13 ∨ k = 14 ∨ k = 15 := by omega
      all_goals decide
  · rw [if_neg (by omega), if_pos h16, if_neg (by omega)]
    refine ⟨_, rfl, ?_⟩
    rw [value_aesGcmGhashUpdate, value_aesGcmGhashUpdate, blocks_tail_16, hH, Gcm.ghash,
      Gcm.ghashFrom_append, Gcm.len64, h16, AesBlock.value_zero]
    rfl

/-! ### The tag -/

theorem length_bigEndian64 (v : BitVec 64) : (bigEndian64 v).length = 8 := rfl

theorem blocks_bigEndian64 (x y : BitVec 64) :
    Gcm.blocks (bigEndian64 x ++ bigEndian64 y) = [x ++ y] := by
  have hblock : Gcm.blockAt (bigEndian64 x ++ bigEndian64 y) 0 = x ++ y := by
    apply BitVec.eq_of_getLsbD_eq
    intro i hi
    rw [Gcm.blockAt, Bits.getLsbD_ofBits hi, List.getD_eq_getElem?_getD, BitVec.getLsbD_append,
      List.getElem?_append, length_bigEndian64]
    by_cases hlow : i < 64
    · rw [if_pos hlow, if_neg (by omega), bigEndian64, List.getElem?_map,
        List.getElem?_range (by omega)]
      simp only [Option.map_some, Option.getD_some, BitVec.getLsbD_extractLsb']
      rw [decide_eq_true (Nat.mod_lt _ (by omega)), Bool.true_and]
      congr 1
      omega
    · rw [if_neg hlow, if_pos (by omega), bigEndian64, List.getElem?_map,
        List.getElem?_range (by omega)]
      simp only [Option.map_some, Option.getD_some, BitVec.getLsbD_extractLsb']
      rw [decide_eq_true (Nat.mod_lt _ (by omega)), Bool.true_and]
      congr 1
      omega
  rw [Gcm.blocks, List.length_append, length_bigEndian64, length_bigEndian64]
  exact congrArg (fun b => [b]) hblock

theorem ofNat_mul_8 (n : ℕ) : BitVec.ofNat 64 n * 8 = BitVec.ofNat 64 (8 * n) := by
  rw [Nat.mul_comm, BitVec.ofNat_mul]
  rfl

theorem aesGcmComputeTag_ok (hkey : key.Supported key_words) {H j0 : AesBlock}
    (hH : H.value = key.ciph hw key_words 0) {iv : List Byte}
    (hj0 : j0.value = Gcm.j0 (key.ciph hw key_words) iv) (ciphertext aad : List Byte)
    {tag : List Byte} (htag : tag.length = kAesBlockNumBytes) (hr : r.alert = false) :
    ∃ r', aesGcmComputeTag hw key (makeProductTable H) ciphertext aad j0 tag r =
        some ((kAesOk, Gcm.tag (key.ciph hw key_words) iv aad ciphertext), r') ∧
      r'.alert = false := by
  generalize hs : aesGcmGhashUpdate (makeProductTable H)
    (bigEndian64 (BitVec.ofNat 64 aad.length * 8) ++
      bigEndian64 (BitVec.ofNat 64 ciphertext.length * 8))
    (aesGcmGhashUpdate (makeProductTable H) ciphertext
      (aesGcmGhashUpdate (makeProductTable H) aad .zero)) = s
  have hvalue : s.value = Gcm.ghash (key.ciph hw key_words 0)
      (Gcm.blocks aad ++ Gcm.blocks ciphertext ++ [Gcm.len64 aad ++ Gcm.len64 ciphertext]) := by
    rw [← hs, value_aesGcmGhashUpdate, value_aesGcmGhashUpdate, value_aesGcmGhashUpdate,
      blocks_bigEndian64, ofNat_mul_8, ofNat_mul_8, hH, Gcm.ghash, Gcm.ghashFrom_append,
      Gcm.ghashFrom_append, AesBlock.value_zero]
    rfl
  obtain ⟨tag', r', hrun, hr', htag'⟩ := aesGcmGctr_ok hw hkey j0
    (some s.toBytes) (some tag) hr htag
  refine ⟨r', ?_, hr'⟩
  rw [aesGcmComputeTag]
  simp only [hs, bind, StateT.bind]
  rw [Option.getD_some] at hrun htag'
  rw [show kAesBlockNumBytes = s.toBytes.length from rfl, hrun]
  simp only [Option.bind_some]
  rw [AesBlock.toBytes_eq, hvalue, hj0] at htag'
  cases tag' with
  | none => exact absurd (congrArg List.length htag') (by simp [Gcm.length_toBytes])
  | some tag' =>
    rw [Option.getD_some] at htag'
    rw [Option.getD_some, htag']
    rfl

/-! ### The operations -/

theorem checkBufferLengths_ok {iv_len plaintext_len aad_len : ℕ} (hiv : iv_len = 12 ∨ iv_len = 16)
    (hp : plaintext_len ≤ wordMax.toNat) (ha : aad_len ≤ wordMax.toNat) :
    checkBufferLengths iv_len plaintext_len aad_len = kHardenedBoolTrue := by
  rw [checkBufferLengths, if_neg (by omega), if_neg (by omega)]

theorem aesGcmEncrypt_ok (hkey : key.Supported key_words) {iv aad : List Byte}
    (hiv : iv.length = 12 ∨ iv.length = 16) (haad : aad.length ≤ wordMax.toNat)
    {plaintext ciphertext : Option (List Byte)} {tag : List Byte}
    (hp : (plaintext.getD []).length ≤ wordMax.toNat)
    (hc : (ciphertext.getD []).length = (plaintext.getD []).length)
    (htag : tag.length = kAesBlockNumBytes) (hr : r.alert = false) :
    ∃ ciphertext' r', aesGcmEncrypt hw key iv (plaintext.getD []).length plaintext aad ciphertext
        tag r = some ((kAesOk, ciphertext',
          (Gcm.encrypt (key.ciph hw key_words) iv (plaintext.getD []) aad).2), r') ∧
      r'.alert = false ∧ ciphertext'.getD [] =
        (Gcm.encrypt (key.ciph hw key_words) iv (plaintext.getD []) aad).1 := by
  obtain ⟨H, r₁, hsubkey, hr₁, hH⟩ := aesGcmHashSubkey_ok hw hkey (fun _ => .zero) hr
  obtain ⟨j0, hcounter, hj0⟩ := aesGcmCounter_ok (key.ciph hw key_words) hH hiv .zero
  obtain ⟨ciphertext', r₂, hgctr, hr₂, hc'⟩ := aesGcmGctr_ok hw hkey (blockInc32 j0)
    plaintext ciphertext hr₁ hc
  rw [value_blockInc32, hj0] at hc'
  have hlen : (ciphertext'.getD []).length = (plaintext.getD []).length := by
    rw [hc', Gcm.length_gctr]
  obtain ⟨r₃, hcompute, hr₃⟩ := aesGcmComputeTag_ok hw hkey hH hj0 (ciphertext'.getD []) aad htag
    hr₂
  refine ⟨ciphertext', r₃, ?_, hr₃, hc'⟩
  have htake : (ciphertext'.getD []).take (plaintext.getD []).length = ciphertext'.getD [] :=
    List.take_of_length_le hlen.le
  rw [aesGcmEncrypt, if_neg (not_not.2 (checkBufferLengths_ok hiv hp haad))]
  simp only [bind, StateT.bind, hsubkey, Option.bind_some, hcounter, hgctr, htake, hcompute,
    ne_eq, not_true, if_false]
  rw [hc']
  rfl

theorem ofBytes_inj {l l' : List Byte} (hl : l.length = kAesBlockNumBytes)
    (hl' : l'.length = kAesBlockNumBytes) :
    List.ofFn (AesBlock.ofBytes l) = List.ofFn (AesBlock.ofBytes l') ↔ l = l' := by
  refine ⟨fun h => ?_, fun h => h ▸ rfl⟩
  have hblock := List.ofFn_injective h
  refine List.ext_getElem (hl.trans hl'.symm) fun k hk hk' => ?_
  have hbyte := congrArg (fun b => AesBlock.byte b k) hblock
  simp only [AesBlock.byte_ofBytes _ (Nat.lt_of_lt_of_eq hk hl)] at hbyte
  rwa [List.getD_eq_getElem?_getD, List.getD_eq_getElem?_getD, List.getElem?_eq_getElem hk,
    List.getElem?_eq_getElem hk', Option.getD_some, Option.getD_some] at hbyte

/-- A decryption compares the tag before it writes anything. -/
theorem aesGcmDecrypt_eq (hkey : key.Supported key_words) {iv aad : List Byte}
    (hiv : iv.length = 12 ∨ iv.length = 16) (haad : aad.length ≤ wordMax.toNat)
    (plaintext ciphertext : Option (List Byte)) {tag : List Byte} (success : Word)
    (hc : (ciphertext.getD []).length ≤ wordMax.toNat)
    (htag : tag.length = kAesBlockNumBytes) (hr : r.alert = false) :
    ∃ j0 r', j0.value = Gcm.inc32 (Gcm.j0 (key.ciph hw key_words) iv) ∧ r'.alert = false ∧
      aesGcmDecrypt hw key iv (ciphertext.getD []).length ciphertext aad tag plaintext success r =
        if tag = Gcm.tag (key.ciph hw key_words) iv aad (ciphertext.getD []) then
          (aesGcmGctr hw key j0 (ciphertext.getD []).length ciphertext plaintext r').map
            fun s => ((s.1.1, s.1.2, kHardenedBoolTrue), s.2)
        else some ((kAesOk, plaintext, kHardenedBoolFalse), r') := by
  obtain ⟨H, r₁, hsubkey, hr₁, hH⟩ := aesGcmHashSubkey_ok hw hkey (fun _ => .zero) hr
  obtain ⟨j0, hcounter, hj0⟩ := aesGcmCounter_ok (key.ciph hw key_words) hH hiv .zero
  have hzeros : (List.replicate kAesBlockNumBytes (0 : Byte)).length = kAesBlockNumBytes :=
    List.length_replicate
  obtain ⟨r₂, hcompute, hr₂⟩ := aesGcmComputeTag_ok hw hkey hH hj0 (ciphertext.getD []) aad hzeros
    hr₁
  have hexpected : (Gcm.tag (key.ciph hw key_words) iv aad (ciphertext.getD [])).length =
      kAesBlockNumBytes := by
    rw [Gcm.tag, Gcm.length_gctr, Gcm.length_toBytes]
  have hmemeq : hardenedMemeq (List.ofFn (AesBlock.ofBytes
      (Gcm.tag (key.ciph hw key_words) iv aad (ciphertext.getD []))))
      (List.ofFn (AesBlock.ofBytes tag)) = _ :=
    hardenedMemeq_eq (by rw [List.length_ofFn, List.length_ofFn])
  refine ⟨blockInc32 j0, r₂, by rw [value_blockInc32, hj0], hr₂, ?_⟩
  rw [aesGcmDecrypt, if_neg (not_not.2 (checkBufferLengths_ok hiv hc haad))]
  simp only [bind, StateT.bind, hsubkey, Option.bind_some, hcounter, List.take_length, hcompute,
    ne_eq, not_true, if_false, hmemeq, ofBytes_inj hexpected htag, liftM, monadLift,
    MonadLift.monadLift, StateT.lift, pure]
  by_cases heq : tag = Gcm.tag (key.ciph hw key_words) iv aad (ciphertext.getD [])
  · rw [if_pos heq.symm, if_neg (not_not.2 rfl), if_pos heq]
    change Option.bind (aesGcmGctr hw key (blockInc32 j0) _ ciphertext plaintext r₂) _ = _
    cases aesGcmGctr hw key (blockInc32 j0) _ ciphertext plaintext r₂ <;> rfl
  · have hne : ¬Gcm.tag (key.ciph hw key_words) iv aad (ciphertext.getD []) = tag :=
      fun h => heq h.symm
    have hfalse : ¬kHardenedBoolFalse = kHardenedBoolTrue := by decide
    rw [if_neg hne, if_pos hfalse, if_neg heq]
    rfl

/-- With a key that the code supports: what is encrypted is the ciphertext and the tag of the
mode and decrypts to the plaintext, another tag is reported and leaves the plaintext buffer as it
was, and lengths that are not accepted leave everything as it was. -/
theorem aes_gcm_round_trip (hw : AesUnit) (key : AesKey) (key_words : ℕ)
    (hkey : key.Supported key_words) (r : AesRegs) (hr : r.alert = false) :
    (∀ iv aad plaintext ciphertext tag, iv.length = 12 ∨ iv.length = 16 →
      aad.length ≤ wordMax.toNat → (plaintext.getD []).length ≤ wordMax.toNat →
      (ciphertext.getD []).length = (plaintext.getD []).length → tag.length = kAesBlockNumBytes →
      ∃ ciphertext' r', aesGcmEncrypt hw key iv (plaintext.getD []).length plaintext aad ciphertext
          tag r = some ((kAesOk, ciphertext',
            (Gcm.encrypt (key.ciph hw key_words) iv (plaintext.getD []) aad).2), r') ∧
        ciphertext'.getD [] =
          (Gcm.encrypt (key.ciph hw key_words) iv (plaintext.getD []) aad).1 ∧
        ∀ buffer success, (buffer.getD []).length = (plaintext.getD []).length →
          ∃ buffer' r'', aesGcmDecrypt hw key iv (plaintext.getD []).length ciphertext' aad
              (Gcm.encrypt (key.ciph hw key_words) iv (plaintext.getD []) aad).2 buffer success r' =
              some ((kAesOk, buffer', kHardenedBoolTrue), r'') ∧
            buffer'.getD [] = plaintext.getD []) ∧
    (∀ iv aad ciphertext tag plaintext success, iv.length = 12 ∨ iv.length = 16 →
      aad.length ≤ wordMax.toNat → (ciphertext.getD []).length ≤ wordMax.toNat →
      tag.length = kAesBlockNumBytes →
      tag ≠ Gcm.tag (key.ciph hw key_words) iv aad (ciphertext.getD []) →
      ∃ r', aesGcmDecrypt hw key iv (ciphertext.getD []).length ciphertext aad tag plaintext
        success r = some ((kAesOk, plaintext, kHardenedBoolFalse), r')) ∧
    ∀ iv ciphertext_len ciphertext aad tag plaintext success,
      checkBufferLengths iv.length ciphertext_len aad.length ≠ kHardenedBoolTrue →
      aesGcmDecrypt hw key iv ciphertext_len ciphertext aad tag plaintext success r =
        some ((kAesInternalError, plaintext, success), r) := by
  refine ⟨?_, ?_, ?_⟩
  · intro iv aad plaintext ciphertext tag hiv haad hp hc htag
    obtain ⟨ciphertext', r', hrun, hr', hc'⟩ := aesGcmEncrypt_ok hw hkey hiv haad hp hc
      htag hr
    refine ⟨ciphertext', r', hrun, hc', fun buffer success hbuffer => ?_⟩
    have hlen : (ciphertext'.getD []).length = (plaintext.getD []).length := by
      rw [hc', Gcm.encrypt, Gcm.length_gctr]
    have htag' : (Gcm.encrypt (key.ciph hw key_words) iv (plaintext.getD []) aad).2.length =
        kAesBlockNumBytes := by
      rw [Gcm.encrypt, Gcm.tag, Gcm.length_gctr, Gcm.length_toBytes]
    obtain ⟨j0, r₁, hj0, hr₁, hdecrypt⟩ := aesGcmDecrypt_eq hw hkey hiv
      haad buffer ciphertext' success (hlen.trans_le hp) htag' hr'
    obtain ⟨buffer', r₂, hgctr, -, hbuffer'⟩ := aesGcmGctr_ok hw hkey j0 _ _ hr₁
      (hbuffer.trans hlen.symm)
    refine ⟨buffer', r₂, ?_, ?_⟩
    · rw [← hlen, hdecrypt, if_pos (by rw [hc']; rfl), hgctr]
      rfl
    · rw [hbuffer', hj0, hc', Gcm.encrypt, Gcm.gctr_gctr]
  · intro iv aad ciphertext tag plaintext success hiv haad hc htag hne
    obtain ⟨_, r', -, -, hdecrypt⟩ := aesGcmDecrypt_eq hw hkey hiv
      haad plaintext ciphertext success hc htag hr
    exact ⟨r', by rw [hdecrypt, if_neg hne]⟩
  · intro iv ciphertext_len ciphertext aad tag plaintext success hcheck
    rw [aesGcmDecrypt, if_pos hcheck]
    rfl

/-- The AES-128 cipher of the zero key on the blocks that the encryption of a zero block needs. -/
def zeroKeyCipher (b : Gcm.Block) : Gcm.Block :=
  if b = 0 then 0x66e94bd4ef8a2c3b884cfa59ca342b2e
  else if b = 1 then 0x58e2fccefa7e3061367f1d57a4e7455a
  else if b = 2 then 0x0388dace60b6a392f328c2b971b2fe78
  else 0

def AesRegs.idle : AesRegs where
  ctrl := AES_CTRL_SHADOWED_REG_RESVAL
  key_share := fun _ _ => 0
  iv := .zero
  data_out := none
  alert := false

def zeroKeyUnit : AesUnit where
  cipher := fun _ _ => zeroKeyCipher
  crypt := fun r data_in =>
    (.ofBytes (Gcm.toBytes (data_in.value ^^^ zeroKeyCipher r.iv.value)), .zero)
  cleared := .idle
  crypt_ctr := fun r data_in _ _ _ _ => by
    rw [AesBlock.value_ofBytes, Gcm.blockAt_toBytes]

def zeroKey : AesKey := ⟨kAesCipherModeCtr, kHardenedBoolFalse, kAesKeyLen128, fun _ _ => 0⟩

/-- A zero block under the zero key, with the ciphertext and the tag of the published vector. -/
theorem aes_gcm_round_trip_zero :
    ∃ ciphertext' r', aesGcmEncrypt zeroKeyUnit zeroKey (List.replicate 12 0) 16
        (some (List.replicate 16 0)) [] (some (List.replicate 16 0)) (List.replicate 16 0)
        .idle = some ((kAesOk, ciphertext',
          Gcm.toBytes 0xab6e47d42cec13bdf53a67b21257bddf), r') ∧
      ciphertext'.getD [] = Gcm.toBytes 0x0388dace60b6a392f328c2b971b2fe78 := by
  have hkey : zeroKey.Supported 4 := ⟨rfl, rfl, rfl⟩
  obtain ⟨ciphertext', r', hrun, hc, -⟩ :=
    (aes_gcm_round_trip zeroKeyUnit zeroKey 4 hkey .idle rfl).1 (List.replicate 12 0) []
      (some (List.replicate 16 0)) (some (List.replicate 16 0)) (List.replicate 16 0) (.inl rfl)
      (by decide) (by decide) rfl rfl
  have hencrypt : Gcm.encrypt (zeroKey.ciph zeroKeyUnit 4) (List.replicate 12 0)
      (List.replicate 16 0) [] = (Gcm.toBytes 0x0388dace60b6a392f328c2b971b2fe78,
        Gcm.toBytes 0xab6e47d42cec13bdf53a67b21257bddf) := by
    decide +kernel
  refine ⟨ciphertext', r', ?_, ?_⟩
  · rw [Option.getD_some, hencrypt] at hrun
    exact hrun
  · rw [hc, Option.getD_some, hencrypt]

end SecureBoot
