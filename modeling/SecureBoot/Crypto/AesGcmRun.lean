import SecureBoot.Crypto.GaloisMul

/-! The parts of AES-GCM against the standard: the block operation on the AES unit, GHASH over a
buffer and GCTR over a buffer. -/

namespace SecureBoot

open AesError

attribute [local instance] neZero_kAesBlockNumWords neZero_keyShares

/-! ### The block function of a key -/

/-- The keys that AES-GCM takes: for counter mode, given by software, of a length that the unit
has. -/
structure AesKey.Supported (key : AesKey) (key_words : ℕ) : Prop where
  mode : key.mode = kAesCipherModeCtr
  sideload : key.sideload = kHardenedBoolFalse
  keyWords : key.keyWords = some key_words

/-- The block function under a key. -/
def AesKey.ciph (hw : AesUnit) (key : AesKey) (key_words : ℕ) : Gcm.Block → Gcm.Block :=
  hw.cipher key.key_len fun i =>
    if (i : ℕ) < key_words then key.key_shares 0 i ^^^ key.key_shares 1 i else 0

variable (hw : AesUnit) {key : AesKey} {key_words : ℕ} {r : AesRegs}

/-- The fields of the control register for a key that is supported. -/
theorem fields_aesCtrlReg (hkey : key.Supported key_words)
    (hctrl : r.ctrl = aesCtrlReg AES_CTRL_SHADOWED_OPERATION_VALUE_AES_ENC false key) :
    r.operation = AES_CTRL_SHADOWED_OPERATION_VALUE_AES_ENC ∧ r.mode = kAesCipherModeCtr ∧
      r.key_len = key.key_len ∧ r.sideload = false ∧ r.manual_operation = false := by
  have hlen : key.key_len &&& 0x7 = key.key_len := by
    have hwords := hkey.keyWords
    rw [AesKey.keyWords] at hwords
    split_ifs at hwords with h₁ h₂ h₃
    · rw [h₁]; rfl
    · rw [h₂]; rfl
    · rw [h₃]; rfl
  refine ⟨?_, ?_, ?_, ?_, ?_⟩
  · rw [AesRegs.operation, hctrl, aesCtrlReg]
    simp only [bitfieldBit32Write]
    iterate 5 rw [bitfieldField32Read_write_of_disjoint _ _ (by decide)]
    rw [bitfieldField32Read_write_self _ _ (by decide)]
    rfl
  · rw [AesRegs.mode, hctrl, aesCtrlReg, hkey.mode]
    simp only [bitfieldBit32Write]
    iterate 3 rw [bitfieldField32Read_write_of_disjoint _ _ (by decide)]
    rw [bitfieldField32Read_write_self _ _ (by decide)]
    rfl
  · rw [AesRegs.key_len, hctrl, aesCtrlReg]
    simp only [bitfieldBit32Write]
    iterate 2 rw [bitfieldField32Read_write_of_disjoint _ _ (by decide)]
    rw [bitfieldField32Read_write_self _ _ (by decide)]
    exact hlen
  · rw [AesRegs.sideload, hctrl, aesCtrlReg, bitfieldBit32Read]
    simp only [bitfieldBit32Write]
    iterate 4 rw [bitfieldField32Read_write_of_disjoint _ _ (by decide)]
    rw [bitfieldField32Read_write_self _ _ (by decide)]
    rfl
  · rw [AesRegs.manual_operation, hctrl, aesCtrlReg, bitfieldBit32Read]
    simp only [bitfieldBit32Write]
    rw [bitfieldField32Read_write_of_disjoint _ _ (by decide),
      bitfieldField32Read_write_self _ _ (by decide)]
    rfl

theorem aesEncryptBegin_ok (hkey : key.Supported key_words) (iv : AesBlock)
    (hr : r.alert = false) :
    aesEncryptBegin key iv r = some (kAesOk, { r with
      ctrl := aesCtrlReg AES_CTRL_SHADOWED_OPERATION_VALUE_AES_ENC false key
      key_share := fun s i => if (i : ℕ) < key_words then key.key_shares s i else 0
      iv := iv }) := by
  obtain ⟨hmode, hside, hwords⟩ := hkey
  simp [aesEncryptBegin, aesBegin, aesWriteKey, spinUntil, hr, hmode, hside, hwords,
    AesM.get_apply, AesM.modify_apply, AesM.bind_apply, AesM.map_apply]

/-- One block: the input with the encrypted counter added. -/
theorem aesEncryptBlock_ok (hkey : key.Supported key_words) (iv input output : AesBlock)
    (hr : r.alert = false) :
    ∃ block r', aesEncryptBlock hw key iv input output r = some ((kAesOk, block), r') ∧
      r'.alert = false ∧ block.value = input.value ^^^ key.ciph hw key_words iv.value := by
  have hbegin := aesEncryptBegin_ok hkey iv hr
  generalize hregs : { r with
      ctrl := aesCtrlReg AES_CTRL_SHADOWED_OPERATION_VALUE_AES_ENC false key
      key_share := fun s i => if (i : ℕ) < key_words then key.key_shares s i else 0
      iv := iv } = regs at hbegin
  have halert : regs.alert = false := by rw [← hregs]; exact hr
  obtain ⟨hop, hmode, hlen, hside, hmanual⟩ :=
    fields_aesCtrlReg (r := regs) hkey (by rw [← hregs])
  have hcrypt := hw.crypt_ctr regs input hop hmode hside hmanual
  have hkeys : hw.cipher regs.key_len regs.key regs.iv.value =
      key.ciph hw key_words iv.value := by
    rw [hlen, AesKey.ciph, ← hregs]
    congr 1
    funext i
    simp only [AesRegs.key]
    split_ifs
    · rfl
    · exact BitVec.xor_self
  rw [hkeys] at hcrypt
  refine ⟨(hw.crypt regs input).1, { hw.cleared with
    ctrl := bitfieldBit32Write AES_CTRL_SHADOWED_REG_RESVAL
      AES_CTRL_SHADOWED_MANUAL_OPERATION_BIT true
    data_out := none
    alert := false }, ?_, rfl, hcrypt⟩
  simp [aesEncryptBlock, aesUpdateSrc, aesUpdateDest, aesEnd, spinUntil, hbegin, halert,
    AesM.get_apply, AesM.modify_apply, AesM.bind_apply, AesM.map_apply]

/-! ### Blocks of a buffer -/

theorem getNblocks_eq (sz : ℕ) : getNblocks sz = (sz + 15) / 16 := by
  rw [getNblocks, getLastBlockNumBytes, Nat.shiftRight_eq_div_pow]
  simp only [kAesBlockNumBytes]
  split_ifs <;> omega

/-- The bytes of the buffer in block `i`. -/
theorem nbytes_eq {sz i : ℕ} (hi : i < getNblocks sz) :
    (if i = getNblocks sz - 1 then getLastBlockNumBytes sz else kAesBlockNumBytes) =
      min 16 (sz - i * 16) := by
  rw [getNblocks_eq] at hi ⊢
  rw [getLastBlockNumBytes]
  simp only [kAesBlockNumBytes]
  split_ifs <;> omega

theorem value_inputBlock (input : List Byte) {i : ℕ} (hi : i < getNblocks input.length) :
    (inputBlock input (getNblocks input.length) i).value = Gcm.blockAt input i := by
  rw [inputBlock, nbytes_eq hi]
  refine Gcm.eq_of_byte_eq fun k hk => ?_
  rw [AesBlock.byte_value _ hk, AesBlock.byte_ofBytes _ hk, Gcm.byte_blockAt input i hk,
    List.getD_eq_getElem?_getD, List.getD_eq_getElem?_getD, List.getElem?_take,
    List.getElem?_drop, Nat.mul_comm i]
  split_ifs with hlt
  · rfl
  · rw [List.getElem?_eq_none (by omega)]

/-! ### GHASH -/

theorem value_aesGcmGhashUpdate (H : AesBlock) (input : List Byte) (state : AesBlock) :
    (aesGcmGhashUpdate (makeProductTable H) input state).value =
      Gcm.ghashFrom H.value state.value (Gcm.blocks input) := by
  rw [aesGcmGhashUpdate, Gcm.blocks, ← getNblocks_eq, Gcm.ghashFrom, List.foldl_map]
  have hloop : ∀ n ≤ getNblocks input.length, ((List.range n).foldl (fun state i =>
      galoisMul (blockXor state (inputBlock input (getNblocks input.length) i))
        (makeProductTable H)) state).value =
      (List.range n).foldl (fun y i => Gcm.mul (y ^^^ Gcm.blockAt input i) H.value)
        state.value := by
    intro n hn
    induction n with
    | zero => rfl
    | succ n ih =>
      rw [List.range_succ, List.foldl_append, List.foldl_append, List.foldl_cons, List.foldl_nil,
        List.foldl_cons, List.foldl_nil, AesBlock.value_galoisMul, AesBlock.value_blockXor,
        value_inputBlock input hn, ih (by omega)]
  exact hloop _ (Nat.le_refl _)

/-! ### GCTR -/

theorem value_blockInc32 (b : AesBlock) : (blockInc32 b).value = Gcm.inc32 b.value := by
  refine AesBlock.value_eq fun w i hi => ?_
  rw [blockInc32, Gcm.inc32, BitVec.getLsbD_append]
  by_cases hw : w = 3
  · subst hw
    have hlow : (reverseBytes (b 3)) = b.value.setWidth 32 := by
      apply BitVec.eq_of_getLsbD_eq
      intro j hj
      rw [BitVec.getLsbD_setWidth, decide_eq_true hj, Bool.true_and,
        ← AesBlock.getLsbD_value b 3 hj, show 32 * (3 - ((3 : Fin 4) : ℕ)) + j = j from
          Nat.zero_add j]
    rw [Function.update_self, wordInc32, reverseBytes_reverseBytes, hlow,
      show 32 * (3 - ((3 : Fin 4) : ℕ)) + i = i from Nat.zero_add i, if_pos hi]
    rfl
  · have hlt : (w : ℕ) < 3 := by
      have := w.isLt
      have : (w : ℕ) ≠ 3 := fun h => hw (Fin.ext h)
      omega
    rw [Function.update_of_ne hw, if_neg (by omega), ← AesBlock.getLsbD_value b w hi,
      BitVec.getLsbD_extractLsb', decide_eq_true (by omega), Bool.true_and]
    congr 1
    omega

/-- The bytes of one block of the result. -/
theorem take_toBytes_eq (ciph : Gcm.Block → Gcm.Block) (icb : Gcm.Block) (input : List Byte)
    (i : ℕ) :
    (Gcm.toBytes (Gcm.blockAt input i ^^^ ciph (Gcm.inc32^[i] icb))).take
      (min 16 (input.length - i * 16)) =
      ((Gcm.gctr ciph icb input).drop (i * 16)).take 16 := by
  refine List.ext_getElem (by simp [Gcm.length_toBytes]) fun k hk hk' => ?_
  rw [List.length_take, Gcm.length_toBytes] at hk
  have hlt : k < 16 := by omega
  have hpos : i * 16 + k < input.length := by omega
  have hdiv : (i * 16 + k) / 16 = i := by omega
  have hmod : (i * 16 + k) % 16 = k := by omega
  have hlen := Gcm.length_gctr ciph icb input
  rw [List.getElem_take, List.getElem_take, List.getElem_drop,
    Gcm.getElem_gctr ciph icb _ hpos (hpos.trans_eq hlen.symm), Gcm.keyByte, hdiv, hmod]
  simp only [Gcm.toBytes, List.getElem_map, List.getElem_range]
  rw [Gcm.byte_xor, Gcm.byte_blockAt input i hlt, Nat.mul_comm 16 i, List.getD_eq_getElem?_getD,
    List.getElem?_eq_getElem hpos, Option.getD_some]

/-- A copy of `bytes` before the part of `whole` that comes next. -/
theorem copyTo_take_append {output whole bytes : List Byte} {i : ℕ} (hi : i * 16 < whole.length)
    (hlen : output.length = whole.length) (hbytes : bytes = (whole.drop (i * 16)).take 16) :
    (copyTo output (i * 16) bytes).length = whole.length ∧
      (copyTo output (i * 16) bytes).take ((i + 1) * 16) ++ whole.drop ((i + 1) * 16) =
        output.take (i * 16) ++ whole.drop (i * 16) := by
  have hblen : bytes.length = min 16 (whole.length - i * 16) := by
    rw [hbytes, List.length_take, List.length_drop]
  have htake : (output.take (i * 16)).length = i * 16 := by
    rw [List.length_take]
    omega
  have hfront : (copyTo output (i * 16) bytes).take ((i + 1) * 16) =
      output.take (i * 16) ++ bytes := by
    have hsucc : (i + 1) * 16 = i * 16 + 16 := Nat.succ_mul i 16
    by_cases hfull : bytes.length = 16
    · exact List.take_left' (by rw [List.length_append, htake, hfull, hsucc])
    · have hnil : output.drop (i * 16 + bytes.length) = [] :=
        List.drop_eq_nil_of_le (by omega)
      rw [copyTo, hnil, List.append_nil]
      refine List.take_of_length_le ?_
      rw [List.length_append, htake]
      omega
  constructor
  · rw [copyTo, List.length_append, List.length_append, htake, List.length_drop]
    omega
  · rw [hfront, hbytes, List.append_assoc, Nat.succ_mul, ← List.drop_drop,
      List.take_append_drop]

/-- The loop from block `i` on leaves the bytes before and writes the rest of the result. -/
theorem aesGcmGctrLoop_ok (hkey : key.Supported key_words) (icb : Gcm.Block)
    (input : List Byte) (n i : ℕ) (iv : AesBlock) (output : List Byte) (hr : r.alert = false)
    (hn : i + n = getNblocks input.length) (hlen : output.length = input.length)
    (hiv : iv.value = Gcm.inc32^[i] icb) :
    ∃ r', aesGcmGctrLoop hw key input n i iv output r = some ((kAesOk, output.take (i * 16) ++
        (Gcm.gctr (key.ciph hw key_words) icb input).drop (i * 16)), r') ∧ r'.alert = false := by
  induction n generalizing i iv output r with
  | zero =>
    have hle : input.length ≤ i * 16 := by
      rw [getNblocks_eq] at hn
      omega
    refine ⟨r, ?_, hr⟩
    rw [List.take_of_length_le (by omega), List.drop_eq_nil_of_le (by simpa using hle),
      List.append_nil]
    rfl
  | succ n ih =>
    have hi : i < getNblocks input.length := by omega
    have hpos : i * 16 < input.length := by
      rw [getNblocks_eq] at hi
      omega
    obtain ⟨block, r', hblock, hr', hvalue⟩ := aesEncryptBlock_ok hw hkey iv
      (inputBlock input (getNblocks input.length) i) .zero hr
    rw [value_inputBlock input hi, hiv] at hvalue
    have hbytes : block.toBytes.take (min 16 (input.length - i * 16)) =
        ((Gcm.gctr (key.ciph hw key_words) icb input).drop (i * 16)).take 16 := by
      rw [AesBlock.toBytes_eq, hvalue, take_toBytes_eq]
    have hglen := Gcm.length_gctr (key.ciph hw key_words) icb input
    obtain ⟨hlen', hsplit⟩ := copyTo_take_append (by rw [hglen]; exact hpos)
      (hlen.trans hglen.symm) hbytes
    obtain ⟨r'', hrun, hr''⟩ := ih (i + 1) (blockInc32 iv)
      (copyTo output (i * 16) (block.toBytes.take (min 16 (input.length - i * 16)))) hr'
      (by omega) (hlen'.trans hglen) (by
        rw [value_blockInc32, hiv]
        exact (Function.iterate_succ_apply' Gcm.inc32 i icb).symm)
    refine ⟨r'', ?_, hr''⟩
    rw [hsplit] at hrun
    rw [← hrun, aesGcmGctrLoop, nbytes_eq hi]
    simp only [bind, StateT.bind, hblock, Option.bind_some]
    rfl

/-- GCTR over a buffer; nothing is read or written when it is empty. -/
theorem aesGcmGctr_ok (hkey : key.Supported key_words) (icb : AesBlock)
    (input output : Option (List Byte)) (hr : r.alert = false)
    (hlen : (output.getD []).length = (input.getD []).length) :
    ∃ output' r', aesGcmGctr hw key icb (input.getD []).length input output r =
        some ((kAesOk, output'), r') ∧ r'.alert = false ∧
      output'.getD [] = Gcm.gctr (key.ciph hw key_words) icb.value (input.getD []) := by
  by_cases hzero : (input.getD []).length = 0
  · have hnil : input.getD [] = [] := List.eq_nil_of_length_eq_zero hzero
    refine ⟨output, r, ?_, hr, ?_⟩
    · unfold aesGcmGctr
      rw [if_pos hzero]
      rfl
    · rw [hnil] at hlen ⊢
      exact List.eq_nil_of_length_eq_zero hlen
  · cases input with
    | none => exact absurd rfl hzero
    | some input =>
      cases output with
      | none => exact absurd hlen.symm hzero
      | some output =>
        rw [Option.getD_some] at hlen hzero ⊢
        obtain ⟨r', hrun, hr'⟩ := aesGcmGctrLoop_ok hw hkey icb.value input
          (getNblocks input.length) 0 icb output hr (Nat.zero_add _) hlen rfl
        refine ⟨some (Gcm.gctr (key.ciph hw key_words) icb.value input), r', ?_, hr', rfl⟩
        rw [Nat.zero_mul, List.take_zero, List.drop_zero, List.nil_append] at hrun
        rw [aesGcmGctr, if_neg hzero, List.take_length]
        simp only [hkey.sideload, hkey.mode, ne_eq, not_true, if_false]
        simp only [bind, StateT.bind, hrun, Option.bind_some]
        rfl

end SecureBoot

/-! GHASH of the crypto library against its definition over polynomials: the product by the table
of four-bit windows is the product of polynomials modulo `X¹²⁸ + X⁷ + X² + X + 1`, and the loop
over a buffer is the recurrence on its blocks. -/

namespace SecureBoot

open AesError Polynomial

/-- `aes_gcm_ghash`. -/
def aesGcmGhash (hash_subkey : AesBlock) (input : List Byte) (output : AesBlock) :
    AesError × AesBlock :=
  let tbl := makeProductTable hash_subkey
  if getLastBlockNumBytes input.length ≠ kAesBlockNumBytes then (kAesInternalError, output)
  else (kAesOk, aesGcmGhashUpdate tbl input .zero)

theorem getLastBlockNumBytes_eq_iff (sz : ℕ) :
    getLastBlockNumBytes sz = kAesBlockNumBytes ↔ 16 ∣ sz := by
  rw [getLastBlockNumBytes, Nat.dvd_iff_mod_eq_zero]
  simp only [kAesBlockNumBytes]
  split_ifs with h
  · exact iff_of_true rfl h
  · exact iff_of_false (by omega) h

theorem poly_galoisMul (p H : AesBlock) :
    Gcm.poly (galoisMul p (makeProductTable H)).value =
      (Gcm.poly p.value * Gcm.poly H.value) %ₘ Gcm.modulus := by
  rw [AesBlock.value_galoisMul, Gcm.poly_mul]

theorem poly_aesGcmGhashUpdate (H : AesBlock) (input : List Byte) (state : AesBlock) :
    Gcm.poly (aesGcmGhashUpdate (makeProductTable H) input state).value =
      Gcm.ghashPoly (Gcm.poly H.value) (Gcm.poly state.value) ((Gcm.blocks input).map Gcm.poly) := by
  rw [value_aesGcmGhashUpdate, Gcm.poly_ghashFrom]

/-- The product by the table is the product of the field, and GHASH over a buffer, whatever its
length, is the recurrence on its blocks, the last one filled up with zeros; `aes_gcm_ghash` takes
whole blocks only. -/
theorem ghash_eq_field_definition (H : AesBlock) :
    (∀ p : AesBlock, Gcm.poly (galoisMul p (makeProductTable H)).value =
      (Gcm.poly p.value * Gcm.poly H.value) %ₘ Gcm.modulus) ∧
    (∀ (input : List Byte) (state : AesBlock),
      Gcm.poly (aesGcmGhashUpdate (makeProductTable H) input state).value =
        Gcm.ghashPoly (Gcm.poly H.value) (Gcm.poly state.value)
          ((Gcm.blocks input).map Gcm.poly)) ∧
    (∀ (input : List Byte) (output : AesBlock),
      (aesGcmGhash H input output).1 = (if 16 ∣ input.length then kAesOk else kAesInternalError) ∧
      Gcm.poly (aesGcmGhash H input output).2.value =
        if 16 ∣ input.length then
          Gcm.ghashPoly (Gcm.poly H.value) 0 ((Gcm.blocks input).map Gcm.poly)
        else Gcm.poly output.value) := by
  refine ⟨fun p => poly_galoisMul p H, poly_aesGcmGhashUpdate H, fun input output => ?_⟩
  rw [aesGcmGhash]
  by_cases hlen : 16 ∣ input.length
  · rw [if_neg (not_not.2 ((getLastBlockNumBytes_eq_iff _).2 hlen)), if_pos hlen, if_pos hlen,
      poly_aesGcmGhashUpdate, AesBlock.value_zero, Gcm.poly_zero]
    exact ⟨rfl, Eq.refl _⟩
  · rw [if_pos (mt (getLastBlockNumBytes_eq_iff _).1 hlen), if_neg hlen, if_neg hlen]
    exact ⟨rfl, rfl⟩

end SecureBoot
