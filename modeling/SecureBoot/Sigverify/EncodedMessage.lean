import SecureBoot.Lib.Pkcs1
import SecureBoot.Sigverify.Keys

/-! The check of a recovered message against the EMSA-PKCS1-v1_5 encoding of a
digest. The check works on shares: every word of the message is masked with the
expected word and its share, and the masked words are folded into the value that
unlocks flash execution. A second library encodes the same layout for its own
verification. -/

namespace SecureBoot

/-- The value of the flash_ctrl EXEC register that enables execution. -/
abbrev kSigverifyFlashExec : Word := 0xa26a38f7

/-- The shares: together they make `kSigverifyFlashExec`. -/
def kSigverifyShares : List Word := [
  0xaf28073b, 0x5eb7dcfb, 0x177240b5, 0xa8469df3, 0x2e92e9c0, 0x83ed133b,
  0x0c9e99f0, 0x25611bd9, 0x411a9d85, 0x5c52b3df, 0x4347a537, 0x1e78e574,
  0x273e33af, 0x6f363bba, 0x11e4ee52, 0xd29ad9aa, 0x4fc2ac85, 0x52490c66,
  0x59c2528c, 0xef8d3ab2, 0xe74d7eb8, 0x2822259c, 0xe58efaa3, 0xe702fa04,
  0x82c670f6, 0x42be0a77, 0x3b021ea0, 0x09bd2a22, 0x26d656a4, 0x2f8e008f,
  0xefca5842, 0xfbc3a713, 0x4ce07aa1, 0xc1826ecc, 0xc697d53f, 0xf6a69161,
  0x4a7d7628, 0x87f2e957, 0x84db848d, 0xe05e01c5, 0x6188ff27, 0xbf1a2b31,
  0xb51d4166, 0x85fd6e7c, 0x59c5d2d5, 0x13c6e4e6, 0xff83c944, 0xc78cd4bb,
  0x8710d989, 0x7608c41e, 0x1061b036, 0x9c2fb244, 0x34a26844, 0x2bdc22a2,
  0xfd1d95f3, 0x94ac4e84, 0x1a99ce21, 0xd54eb8f7, 0x54c2cd9f, 0x70a967c8,
  0xde39d471, 0x652563cd, 0x3d4adea1, 0x1cf6631c, 0xb27d16ee, 0x3a18bafa,
  0xd8a86a86, 0xd839cd7b, 0xda2ab05a, 0x37fc1d99, 0xbc702308, 0x01d57596,
  0x480d3091, 0x51420446, 0xcc56d97c, 0x7aa57434, 0x7b6097ae, 0x45bca8ae,
  0xb0b1e322, 0x5487b90f, 0x1045e6ef, 0x87ad10f0, 0x4c72b7f0, 0xc527c9a3,
  0x29ed4350, 0xe345625b, 0x57063d83, 0xbb56900a, 0xbfb1be4c, 0x1c454e8f,
  0xdb27c1b7, 0xbe02c694, 0x2604d74a, 0x4d6516dd, 0x322918ab, 0xd25e8754]

/-- Includes the zero byte right before `PS`. -/
def kEncodedSha256 : List Word := [0x05000420, 0x03040201, 0x86480165, 0x0d060960, 0x00303130]

/-- `PS` up to the last word, which is `0x0001ffff`. -/
abbrev kPsLen : ℕ := 82

/-! ### The check -/

/-- The words that the four loops of step 1 compare a message with. -/
def expectedEncMsg (actDigest : HmacDigest) : List Word :=
  actDigest.toList ++ kEncodedSha256 ++ List.replicate kPsLen wordMax ++ [0x0001ffff]

/-- Step 1: `encMsg[i] ^= expected[i] ^ kSigverifyShares[i]`. -/
def maskEncMsg (expected shares encMsg : List Word) : List Word :=
  List.zipWith (· ^^^ ·) encMsg (List.zipWith (· ^^^ ·) expected shares)

/-- The upper bits are set to 1 if `diff` is not 0, then all of them if the most
significant one is. -/
def saturateDiff (diff : Word) : Word :=
  let diff := diff ||| (~~~diff + 1)
  diff ||| (~~~(diff >>> 31) + 1)

/-- One iteration of step 2 on `(*flash_exec, diff)`. -/
def reduceEncMsgWord (acc : Word × Word) (word share : Word) : Word × Word :=
  let diff := saturateDiff (acc.2 ||| (word ^^^ share))
  ((acc.1 ^^^ word) ||| diff, diff)

/-- Step 2. -/
def reduceEncMsg : Word × Word → List Word → List Word → Word × Word
  | acc, word :: encMsg, share :: shares =>
      reduceEncMsg (reduceEncMsgWord acc word share) encMsg shares
  | acc, _, _ => acc

/-- The return value as a function of `*flash_exec`. -/
def flashExecToError (flashExec : Word) : RomError :=
  let result := (flashExec <<< 21 ^^^ flashExec <<< 10 ^^^ flashExec >>> 1) >>> 21
  if result = kErrorOk then result else kErrorSigverifyBadEncodedMessage

/-- `sigverify_encoded_message_check`: the result and `*flash_exec`. -/
def sigverifyEncodedMessageCheck (encMsg : SigverifyRsaBuffer) (actDigest : HmacDigest) :
    RomError × Word :=
  let masked := maskEncMsg (expectedEncMsg actDigest) kSigverifyShares encMsg.toList
  let flashExec := (reduceEncMsg (0, 0) masked kSigverifyShares).1
  (flashExecToError flashExec, flashExec)

/-! ### The encoder of the RSA-3072 library -/

abbrev kRsa3072NumWords : ℕ := 96

/-- `rsa_3072_encode_sha256`; a null message is hashed as the empty one. The
errors of the HMAC driver only report null pointers and do not occur here. -/
def rsa3072EncodeSha256 (sha256 : List Byte → HmacDigest) (msg : Option (List Byte)) : List Word :=
  let result := List.replicate kRsa3072NumWords wordMax
  let result := result.set (kRsa3072NumWords - 1) 0x0001ffff
  let digest := sha256 (msg.getD [])
  let result := digest.toList ++ result.drop kHmacDigestNumWords
  let result := result.set kHmacDigestNumWords 0x05000420
  let result := result.set (kHmacDigestNumWords + 1) 0x03040201
  let result := result.set (kHmacDigestNumWords + 2) 0x86480165
  let result := result.set (kHmacDigestNumWords + 3) 0x0d060960
  result.set (kHmacDigestNumWords + 4) 0x00303130

/-! ### Words that differ -/

theorem msb_or_neg {d : Word} (h : d ≠ 0#32) : (d ||| (~~~d + 1)).msb = true := by
  rw [show ~~~d + 1 = -d from (BitVec.neg_eq_not_add d).symm, BitVec.msb_or, BitVec.msb_neg]
  cases hd : d.msb
  · have hmin : d ≠ BitVec.intMin 32 := by
      rintro rfl
      revert hd
      decide
    simp [h, hmin]
  · rfl

theorem shiftRight_of_msb {d : Word} (h : d.msb = true) : d >>> 31 = 1 := by
  rw [BitVec.msb_eq_decide, decide_eq_true_eq] at h
  have hlt := d.isLt
  refine BitVec.eq_of_toNat_eq ?_
  rw [BitVec.toNat_ushiftRight, Nat.shiftRight_eq_div_pow]
  change d.toNat / 2 ^ 31 = 1
  omega

theorem or_wordMax (d : Word) : d ||| wordMax = wordMax := by
  rw [show wordMax = BitVec.allOnes 32 by decide, BitVec.or_allOnes]

theorem saturateDiff_of_ne {d : Word} (h : d ≠ 0) : saturateDiff d = wordMax := by
  rw [saturateDiff, shiftRight_of_msb (msb_or_neg h), show ~~~(1 : Word) + 1 = wordMax by decide,
    or_wordMax]

theorem reduceEncMsgWord_same (flashExec share : Word) :
    reduceEncMsgWord (flashExec, 0) share share = (flashExec ^^^ share, 0) := by
  have hzero : saturateDiff 0#32 = 0#32 := by decide
  simp [reduceEncMsgWord, hzero]

theorem reduceEncMsgWord_differs (flashExec diff word share : Word)
    (h : diff = wordMax ∨ word ≠ share) :
    reduceEncMsgWord (flashExec, diff) word share = (wordMax, wordMax) := by
  have hne : diff ||| (word ^^^ share) ≠ 0 := by
    intro hz
    obtain ⟨hd, hx⟩ := BitVec.or_eq_zero_iff.1 hz
    rcases h with rfl | hws
    · exact absurd hd (by decide)
    · exact hws (BitVec.xor_eq_zero_iff.1 hx)
  simp only [reduceEncMsgWord, saturateDiff_of_ne hne, or_wordMax]

theorem reduceEncMsg_wordMax (encMsg shares : List Word) :
    reduceEncMsg (wordMax, wordMax) encMsg shares = (wordMax, wordMax) := by
  induction encMsg generalizing shares with
  | nil => rfl
  | cons word encMsg ih =>
    obtain _ | ⟨share, shares⟩ := shares
    · rfl
    · rw [reduceEncMsg, reduceEncMsgWord_differs _ _ _ _ (Or.inl rfl), ih]

/-- Step 2 accumulates the shares as long as every word is its share, and is
stuck at all ones from the first one that is not. -/
theorem reduceEncMsg_eq (flashExec : Word) {encMsg shares : List Word}
    (hlen : encMsg.length = shares.length) :
    reduceEncMsg (flashExec, 0) encMsg shares =
      if encMsg = shares then (shares.foldl (· ^^^ ·) flashExec, 0) else (wordMax, wordMax) := by
  induction encMsg generalizing flashExec shares with
  | nil =>
    obtain rfl := List.eq_nil_of_length_eq_zero hlen.symm
    rfl
  | cons word encMsg ih =>
    obtain _ | ⟨share, shares⟩ := shares
    · simp at hlen
    · rw [reduceEncMsg]
      by_cases hw : word = share
      · subst hw
        rw [reduceEncMsgWord_same, ih _ (by simpa using hlen)]
        simp
      · rw [reduceEncMsgWord_differs _ _ _ _ (Or.inr hw), reduceEncMsg_wordMax, if_neg]
        simp [hw]

theorem maskEncMsg_eq_shares_iff {expected shares encMsg : List Word}
    (he : expected.length = shares.length) (hm : encMsg.length = shares.length) :
    maskEncMsg expected shares encMsg = shares ↔ encMsg = expected := by
  induction shares generalizing expected encMsg with
  | nil =>
    rw [List.eq_nil_of_length_eq_zero he, List.eq_nil_of_length_eq_zero hm]
    simp [maskEncMsg]
  | cons s shares ih =>
    obtain _ | ⟨e, expected⟩ := expected
    · simp at he
    obtain _ | ⟨m, encMsg⟩ := encMsg
    · simp at hm
    have hword : m ^^^ (e ^^^ s) = s ↔ m = e := by
      constructor
      · intro h
        have hcancel := congrArg (· ^^^ s) h
        simp only [BitVec.xor_assoc, BitVec.xor_self, BitVec.xor_zero] at hcancel
        exact BitVec.xor_eq_zero_iff.1 hcancel
      · rintro rfl
        rw [← BitVec.xor_assoc, BitVec.xor_self, BitVec.zero_xor]
    simp only [maskEncMsg, List.zipWith_cons_cons, List.cons.injEq] at ih ⊢
    rw [hword, ih (by simpa using he) (by simpa using hm)]

theorem length_maskEncMsg {expected shares encMsg : List Word}
    (he : expected.length = shares.length) (hm : encMsg.length = shares.length) :
    (maskEncMsg expected shares encMsg).length = shares.length := by
  simp [maskEncMsg, he, hm]

theorem length_expectedEncMsg (actDigest : HmacDigest) :
    (expectedEncMsg actDigest).length = kSigverifyShares.length := by
  simp only [expectedEncMsg, List.length_append, Vector.length_toList, List.length_replicate]
  rfl

theorem foldl_kSigverifyShares : kSigverifyShares.foldl (· ^^^ ·) 0 = kSigverifyFlashExec := by
  decide

/-- The check distinguishes exactly one message, and both of its outputs do. -/
theorem sigverifyEncodedMessageCheck_eq (encMsg : SigverifyRsaBuffer) (actDigest : HmacDigest) :
    sigverifyEncodedMessageCheck encMsg actDigest =
      if encMsg.toList = expectedEncMsg actDigest then (kErrorOk, kSigverifyFlashExec)
      else (kErrorSigverifyBadEncodedMessage, wordMax) := by
  have hm : encMsg.toList.length = kSigverifyShares.length := encMsg.length_toList
  have he := length_expectedEncMsg actDigest
  simp only [sigverifyEncodedMessageCheck]
  rw [reduceEncMsg_eq 0 (length_maskEncMsg he hm)]
  simp only [maskEncMsg_eq_shares_iff he hm, foldl_kSigverifyShares]
  split_ifs
  · simp only [Prod.mk.injEq, and_true]
    decide
  · simp only [Prod.mk.injEq, and_true]
    decide

/-! ### The encoding -/

theorem octets_expectedEncMsg (actDigest : HmacDigest) :
    (wordsToBytes (expectedEncMsg actDigest)).reverse =
      Pkcs1.frame 330 ++ (Pkcs1.sha256DigestInfo ++ actDigest.octets) := by
  simp only [expectedEncMsg, wordsToBytes_append, wordsToBytes_replicate_wordMax,
    List.reverse_append, List.reverse_replicate]
  have hlast : (wordsToBytes [0x0001ffff]).reverse = [0x00, 0x01] ++ List.replicate 2 0xff := by
    decide
  have hinfo : (wordsToBytes kEncodedSha256).reverse = [0x00] ++ Pkcs1.sha256DigestInfo := by
    decide
  rw [hlast, hinfo, HmacDigest.octets, Pkcs1.frame, show 330 = 2 + 4 * kPsLen from rfl,
    ← List.replicate_append_replicate]
  simp only [List.append_assoc]

theorem length_octets_hmacDigest (digest : HmacDigest) : digest.octets.length = 32 := by
  rw [HmacDigest.octets, List.length_reverse, length_wordsToBytes, Vector.length_toList]
  rfl

/-- The encoding of a digest for a 384-byte modulus is the expected message. -/
theorem emsaPkcs1V15_eq_some_iff (encMsg : SigverifyRsaBuffer) (actDigest : HmacDigest) :
    Pkcs1.emsaPkcs1V15 kSigVerifyRsaNumBytes Pkcs1.sha256DigestInfo actDigest.octets =
      some encMsg.octets ↔ encMsg.toList = expectedEncMsg actDigest := by
  rw [Pkcs1.emsaPkcs1V15_eq_some (show 8 ≤ 330 by omega)
    (by rw [length_octets_hmacDigest]; rfl), ← octets_expectedEncMsg, SigverifyRsaBuffer.octets,
    Option.some.injEq, List.reverse_inj, eq_comm, wordsToBytes_inj]
  rw [Vector.length_toList, length_expectedEncMsg]
  rfl

/-- The other library's encoder writes the same words. -/
theorem rsa3072EncodeSha256_eq (sha256 : List Byte → HmacDigest) (msg : Option (List Byte)) :
    rsa3072EncodeSha256 sha256 msg = expectedEncMsg (sha256 (msg.getD [])) := by
  simp only [rsa3072EncodeSha256, expectedEncMsg]
  have hlen := (sha256 (msg.getD [])).length_toList
  generalize (sha256 (msg.getD [])).toList = digest at hlen ⊢
  match digest, hlen with
  | [_, _, _, _, _, _, _, _], _ => rfl

/-- The check decides the padding and the digest: it releases the unlocking value
exactly for the EMSA-PKCS1-v1_5 encoding of the digest, which is also what
`rsa_3072_encode_sha256` writes, and for any other message it returns an error
with `*flash_exec` all ones. -/
theorem sigverifyEncodedMessageCheck_decides (encMsg : SigverifyRsaBuffer)
    (actDigest : HmacDigest) :
    (sigverifyEncodedMessageCheck encMsg actDigest = (kErrorOk, kSigverifyFlashExec) ↔
      Pkcs1.emsaPkcs1V15 kSigVerifyRsaNumBytes Pkcs1.sha256DigestInfo actDigest.octets =
        some encMsg.octets) ∧
    (∀ sha256 msg, sha256 (msg.getD []) = actDigest →
      (sigverifyEncodedMessageCheck encMsg actDigest = (kErrorOk, kSigverifyFlashExec) ↔
        encMsg.toList = rsa3072EncodeSha256 sha256 msg)) ∧
    (Pkcs1.emsaPkcs1V15 kSigVerifyRsaNumBytes Pkcs1.sha256DigestInfo actDigest.octets ≠
        some encMsg.octets →
      ∃ error flashExec, sigverifyEncodedMessageCheck encMsg actDigest = (error, flashExec) ∧
        error ≠ kErrorOk ∧ flashExec = wordMax ∧ flashExec ≠ kSigverifyFlashExec) := by
  have hok : sigverifyEncodedMessageCheck encMsg actDigest = (kErrorOk, kSigverifyFlashExec) ↔
      encMsg.toList = expectedEncMsg actDigest := by
    rw [sigverifyEncodedMessageCheck_eq]
    split_ifs with h
    · exact iff_of_true rfl h
    · exact iff_of_false (by decide) h
  refine ⟨?_, ?_, ?_⟩
  · rw [hok, emsaPkcs1V15_eq_some_iff]
  · rintro sha256 msg rfl
    rw [hok, rsa3072EncodeSha256_eq]
  · intro hne
    rw [ne_eq, emsaPkcs1V15_eq_some_iff] at hne
    refine ⟨kErrorSigverifyBadEncodedMessage, wordMax, ?_, by decide, rfl, by decide⟩
    rw [sigverifyEncodedMessageCheck_eq, if_neg hne]

end SecureBoot
