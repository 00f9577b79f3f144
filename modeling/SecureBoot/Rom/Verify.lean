import SecureBoot.BootData.ActivePage
import SecureBoot.Rom.Digest
import SecureBoot.Sigverify.EncodedMessage
import SecureBoot.Sigverify.KeyLookup
import SecureBoot.Sigverify.ModExpIbex

/-! The verification of an image in ROM: the key is looked up with reads of OTP, the signature is
checked on Ibex or on OTBN, and the two slots are tried in the order of the boot policy. What
`rom_boot` does is not part of it, only which image it is called with. -/

namespace SecureBoot

abbrev kOtpCreatorSwCfgUseSwRsaVerify : Word := 228

abbrev kOtpCreatorSwCfgRngEn : Word := 248

abbrev kRvCoreIbexCfgBase : Word := 0x411F0000

abbrev kRvCoreIbexRndData : Word := kRvCoreIbexCfgBase + 0x58

abbrev kRvCoreIbexRndStatus : Word := kRvCoreIbexCfgBase + 0x5c

/-- The number of the CSR, below the addresses of all devices. -/
abbrev kCsrMcycle : Word := 0xb00

variable (hw : Hw)

/-- `rnd_uint32`. -/
def rndUint32 : Drv Word := do
  let rngEn ← otpRead32 hw kOtpCreatorSwCfgRngEn
  if rngEn = kHardenedBoolTrue then
    let _ ← absMmioPoll32 hw kRvCoreIbexRndStatus (· ≠ 0)
  let mcycle ← absMmioSample32 hw kCsrMcycle
  let data ← absMmioSample32 hw kRvCoreIbexRndData
  pure (mcycle + data)

/-! ### The key -/

namespace RomKey

/-- `key_is_valid_in_otp`. -/
def keyIsValidInOtp (key_index : Word) : Drv RomError := do
  let addr := kOtpCreatorSwCfgKeyIsValid + key_index / kSigverifyNumEntriesPerOtpWord * 4
  let field : BitfieldField32 := ⟨0xff, (key_index % kSigverifyNumEntriesPerOtpWord * 8).toNat⟩
  let word ← otpRead32 hw addr
  pure (if bitfieldField32Read word field = kHardenedByteBoolTrue then kErrorOk
    else kErrorSigverifyBadKey)

/-- `key_is_valid`, with the functions for each state. -/
def keyIsValid (key_type : SigverifyKeyType) (lc_state : LifecycleState) (key_index : Word) :
    Drv RomError :=
  match lc_state, key_type with
  | .test, .test => pure kErrorOk
  | .test, .prod => pure kErrorOk
  | .test, .dev => pure kErrorSigverifyBadKey
  | .prod, .test => pure kErrorSigverifyBadKey
  | .prod, .prod => keyIsValidInOtp hw key_index
  | .prod, .dev => pure kErrorSigverifyBadKey
  | .prodEnd, .test => pure kErrorSigverifyBadKey
  | .prodEnd, .prod => keyIsValidInOtp hw key_index
  | .prodEnd, .dev => pure kErrorSigverifyBadKey
  | .dev, .test => pure kErrorSigverifyBadKey
  | .dev, .prod => keyIsValidInOtp hw key_index
  | .dev, .dev => keyIsValidInOtp hw key_index
  | .rma, .test => keyIsValidInOtp hw key_index
  | .rma, .prod => keyIsValidInOtp hw key_index
  | .rma, .dev => pure kErrorSigverifyBadKey

variable (T : SigverifyRsaKeys) (key_id : Word) (lc_state : LifecycleState)

/-- A read of the table; an index outside of it counts as a trap. -/
def keyAt (i : Word) : Drv SigverifyRomKey :=
  match T.at i with
  | .ok k => pure k
  | .error trap => throw trap

/-- One iteration. -/
def step (s : KeySearch) : Drv KeySearch := do
  let k ← keyAt T s.i
  let cand_key_index ←
    if k.id = key_id then do
      let error ← keyIsValid hw k.key_type lc_state s.i
      pure (if error = kErrorOk then s.i else s.cand_key_index)
    else pure s.cand_key_index
  let i := if T.cnt ≤ s.i + T.step then s.i + T.step - T.cnt else s.i + T.step
  hardenedCheck (i < T.cnt) .hardened
  pure ⟨i, s.iter_cnt + 1, cand_key_index, s.i :: s.visited⟩

def loop : ℕ → KeySearch → Drv KeySearch
  | 0, s => pure s
  | n + 1, s =>
    if s.iter_cnt < T.cnt then do
      let s ← step hw T key_id lc_state s
      loop n s
    else pure s

/-- `sigverify_rsa_key_get`. -/
def sigverifyRsaKeyGet : Drv (RomError × Option SigverifyRsaKey) := do
  let rnd ← rndUint32 hw
  let i := ((rnd.setWidth 64 * T.cnt.setWidth 64) >>> 32).setWidth 32
  let s ← loop hw T key_id lc_state T.keys.length ⟨i, 0, wordMax, []⟩
  hardenedCheck (s.iter_cnt = T.cnt) .hardened
  if s.cand_key_index < T.cnt then do
    let k ← keyAt T s.cand_key_index
    let error ← keyIsValid hw k.key_type lc_state s.cand_key_index
    hardenedCheck (error = kErrorOk) .hardened
    pure (error, some k.key)
  else pure (kErrorSigverifyBadKey, none)

end RomKey

/-! ### The signature -/

/-- `sigverify_use_sw_rsa_verify`. -/
def sigverifyUseSwRsaVerify : LifecycleState → Drv Word
  | .test => pure kHardenedBoolTrue
  | .dev => otpRead32 hw kOtpCreatorSwCfgUseSwRsaVerify
  | .prod => otpRead32 hw kOtpCreatorSwCfgUseSwRsaVerify
  | .prodEnd => otpRead32 hw kOtpCreatorSwCfgUseSwRsaVerify
  | .rma => otpRead32 hw kOtpCreatorSwCfgUseSwRsaVerify

/-- `memrcmp` of aligned buffers: the last words that differ decide. -/
def memrcmpWords : List Word → List Word → Ordering
  | a :: as, b :: bs => (memrcmpWords as bs).then (compare a.toNat b.toNat)
  | _, _ => .eq

/-- A function that leaves a buffer or fails. -/
abbrev ModExp := SigverifyRsaKey → SigverifyRsaBuffer → Drv (Except RomError SigverifyRsaBuffer)

/-- `sigverify_mod_exp_ibex` as a program: a loop that does not end hangs. -/
def RomKey.modExpIbex (fuel : ℕ) : ModExp := fun key sig =>
  match sigverifyModExpIbex fuel key sig with
  | some result => pure result
  | none => throw .hang

/-- `sigverify_mod_exp_otbn`, with what OTBN does as a parameter. -/
def sigverifyModExpOtbn (runOtbnRsa3072Modexp : ModExp) : ModExp := fun key sig =>
  match memrcmpWords key.n.toList sig.toList with
  | .gt => runOtbnRsa3072Modexp key sig
  | _ => pure (.error kErrorSigverifyBadSignature)

variable (fuel : ℕ) (runOtbnRsa3072Modexp : ModExp)

/-- `sigverify_rsa_verify`: the error and the value for the EXEC register. -/
def sigverifyRsaVerify (signature : SigverifyRsaBuffer) (key : SigverifyRsaKey)
    (act_digest : HmacDigest) (lc_state : LifecycleState) : Drv (RomError × Word) := do
  let use_sw ← sigverifyUseSwRsaVerify hw lc_state
  let enc_msg ←
    if use_sw = kHardenedBoolTrue then RomKey.modExpIbex fuel key signature
    else if use_sw = kHardenedBoolFalse then
      sigverifyModExpOtbn runOtbnRsa3072Modexp key signature
    else hardenedUnreachable
  match enc_msg with
  | .ok enc_msg => pure (sigverifyEncodedMessageCheck enc_msg act_digest)
  | .error error => pure (error, wordMax)

/-! ### The image -/

/-- What `rom_verify` leaves: `flash_exec` and `boot_measurements.rom_ext`. -/
structure RomVerification where
  error : RomError
  flash_exec : Word
  measurement : HmacDigest

variable (T : SigverifyRsaKeys) (lc_state : LifecycleState)

/-- `rom_verify`. -/
def romVerify (boot_data : BootData) (ptr : Word) (measurement : HmacDigest) :
    Drv RomVerification := do
  let m := manifestLoad hw.flash ptr
  let error := bootPolicyManifestCheck m boot_data.min_security_version_rom_ext
  if error ≠ kErrorOk then
    return ⟨error, 0, measurement⟩
  let (error, key) ← RomKey.sigverifyRsaKeyGet hw T (sigverifyRsaKeyIdGet m.modulus) lc_state
  match key with
  | some key =>
    if error ≠ kErrorOk then
      return ⟨error, 0, measurement⟩
    let _clobber_value ← rndUint32 hw
    let act_digest ← romVerifyDigest hw ptr m boot_data.min_security_version_rom_ext
    let (error, flash_exec) ←
      sigverifyRsaVerify hw fuel runOtbnRsa3072Modexp m.signature key act_digest lc_state
    return ⟨error, flash_exec, act_digest⟩
  | none => return ⟨error, 0, measurement⟩

/-- The registers from which a verification decides show the same in every state. -/
structure DeviceShows (identity : HwIdentity) (otp : Word → Word) : Prop where
  identity : ∀ io, identity.ShownBy hw io
  otp : ∀ j ∈ T.indices, ∀ io : Io,
    io.read hw (kOtpCtrlSwCfgWindow +
      (kOtpCreatorSwCfgKeyIsValid + j / kSigverifyNumEntriesPerOtpWord * 4)) =
      otp (kOtpCreatorSwCfgKeyIsValid + j / kSigverifyNumEntriesPerOtpWord * 4)

section Key

variable {hw T lc_state} {identity : HwIdentity} {otp : Word → Word} {key_id : Word}

theorem triple_otpRead32 {address value : Word}
    (h : ∀ io : Io, io.read hw (kOtpCtrlSwCfgWindow + address) = value) :
    Hoare.Triple (fun _ => True) (otpRead32 hw address) (fun word _ => word = value)
      (fun _ _ => True) := by
  refine .of_state fun io _ => (same_otpRead32 io address).conseq ?_ ?_ fun _ _ _ => trivial
  · rintro _ rfl
    exact .refl _
  · rintro word - ⟨hword, -⟩
    exact hword.trans (h io)

theorem fact_hardenedCheck (c : Prop) [Decidable c] (trap : Trap) :
    Hoare.Triple (fun _ => True) (hardenedCheck c trap) (fun _ _ => c) (fun _ _ => True) :=
  .ite _ (fun h => .pure _ fun _ _ => h) fun _ => .throw _ fun _ _ => trivial

theorem triple_keyAt (i : Word) :
    Hoare.Triple (fun _ => True) (RomKey.keyAt T i) (fun k _ => T.at i = .ok k)
      (fun _ _ => True) := by
  rw [RomKey.keyAt]
  cases hat : T.at i with
  | ok k => exact .pure _ fun _ _ => rfl
  | error trap => exact .throw _ fun _ _ => trivial

theorem mem_indices_of_at {i : Word} {k : SigverifyRomKey} (h : T.at i = .ok k) :
    i ∈ T.indices := by
  rw [SigverifyRsaKeys.at] at h
  split at h
  · next hk =>
    obtain ⟨hlt, -⟩ := List.getElem?_eq_some_iff.1 hk
    exact List.mem_map.2 ⟨i.toNat, List.mem_range.2 hlt, BitVec.ofNat_toNat _ _⟩
  · cases h

variable (hshows : DeviceShows hw T identity otp)
include hshows

theorem triple_keyIsValidInOtp {j : Word} (hj : j ∈ T.indices) :
    Hoare.Triple (fun _ => True) (RomKey.keyIsValidInOtp hw j)
      (fun error _ => error = keyIsValidInOtp otp j) (fun _ _ => True) := by
  refine .bind (triple_otpRead32 (hshows.otp j hj)) fun word => .pure _ fun _ hword => ?_
  rw [hword, keyIsValidInOtp]

theorem triple_keyIsValid {j : Word} (hj : j ∈ T.indices) (key_type : SigverifyKeyType) :
    Hoare.Triple (fun _ => True) (RomKey.keyIsValid hw key_type lc_state j)
      (fun error _ => error = keyIsValid otp key_type lc_state j) (fun _ _ => True) := by
  have hotp := triple_keyIsValidInOtp hshows hj
  cases lc_state <;> cases key_type <;>
    first | exact hotp | exact .pure _ fun _ _ => rfl

/-- An iteration that returns is one on the constant values of OTP. -/
theorem triple_step (s : KeySearch) :
    Hoare.Triple (fun _ => True) (RomKey.step hw T key_id lc_state s)
      (fun s' _ => sigverifyRsaKeyStep T otp key_id lc_state s = .ok s') (fun _ _ => True) := by
  refine .bind_fact (triple_keyAt s.i) fun k hat => ?_
  -- What follows the choice of the candidate.
  have hrest : ∀ cand, (if k.id = key_id then
        if keyIsValid otp k.key_type lc_state s.i = kErrorOk then s.i else s.cand_key_index
      else s.cand_key_index) = cand →
      Hoare.Triple (fun _ => True)
        (do
          hardenedCheck ((if T.cnt ≤ s.i + T.step then s.i + T.step - T.cnt else s.i + T.step) <
            T.cnt) .hardened
          pure ⟨if T.cnt ≤ s.i + T.step then s.i + T.step - T.cnt else s.i + T.step,
            s.iter_cnt + 1, cand, s.i :: s.visited⟩ : Drv KeySearch)
        (fun s' _ => sigverifyRsaKeyStep T otp key_id lc_state s = .ok s') (fun _ _ => True) := by
    intro cand hcand
    refine .bind_fact (fact_hardenedCheck _ _) fun _ hlt => .pure _ fun _ _ => ?_
    rw [sigverifyRsaKeyStep, hat]
    simp only [except_ok_bind, hcand, run_keyCheck hlt]
    rfl
  refine .ite _ (fun hid => ?_) fun hid => hrest _ (if_neg hid)
  refine .bind_fact (triple_keyIsValid hshows (mem_indices_of_at hat) k.key_type)
    fun error herror => hrest _ ?_
  rw [herror, if_pos hid]

theorem triple_loop (n : ℕ) (s : KeySearch) :
    Hoare.Triple (fun _ => True) (RomKey.loop hw T key_id lc_state n s)
      (fun s' _ => sigverifyRsaKeyLoop T otp key_id lc_state n s = .ok s') (fun _ _ => True) := by
  induction n generalizing s with
  | zero => exact .pure _ fun _ _ => rfl
  | succ n ih =>
    rw [RomKey.loop, sigverifyRsaKeyLoop]
    by_cases hlt : s.iter_cnt < T.cnt
    · rw [if_pos hlt, if_pos hlt]
      refine .bind_fact (triple_step hshows s) fun s' hstep => ?_
      rw [hstep]
      exact ih s'
    · rw [if_neg hlt, if_neg hlt]
      exact .pure _ fun _ _ => rfl

/-- The lookup with reads of OTP is the lookup on the values of OTP, for some random word. -/
theorem triple_sigverifyRsaKeyGet :
    Hoare.Triple (fun _ => True) (RomKey.sigverifyRsaKeyGet hw T key_id lc_state)
      (fun result _ => ∃ rnd, sigverifyRsaKeyGet T otp key_id lc_state rnd = .ok result)
      (fun _ _ => True) := by
  refine .bind .top fun rnd => ?_
  refine .bind_fact (triple_loop hshows _ _) fun s hloop => ?_
  refine .bind_fact (fact_hardenedCheck _ _) fun _ hcnt => ?_
  have hsearch : sigverifyRsaKeySearch T otp key_id lc_state rnd = .ok s := by
    rw [sigverifyRsaKeySearch, hloop]
    simp only [except_ok_bind, run_keyCheck hcnt]
    rfl
  have hget : ∀ result, sigverifyRsaKeyGet T otp key_id lc_state rnd = .ok result →
      ∃ rnd, sigverifyRsaKeyGet T otp key_id lc_state rnd = .ok result := fun _ h => ⟨rnd, h⟩
  rw [sigverifyRsaKeyGet, hsearch] at hget
  simp only [except_ok_bind] at hget
  refine .ite _ (fun hlt => ?_) fun hge => .pure _ fun _ _ => hget _ (by rw [if_neg hge]; rfl)
  rw [if_pos hlt] at hget
  refine .bind_fact (triple_keyAt s.cand_key_index) fun k hat => ?_
  refine .bind_fact (triple_keyIsValid hshows (mem_indices_of_at hat) k.key_type)
    fun error herror => ?_
  refine .bind_fact (fact_hardenedCheck _ _) fun _ hok => .pure _ fun _ _ => hget _ ?_
  subst herror
  rw [hat]
  simp only [except_ok_bind, run_keyCheck hok]
  rfl

end Key

/-! ### The signature that is checked -/

section Signature

theorem memrcmpWords_eq {as bs : List Word} (h : as.length = bs.length) :
    memrcmpWords as bs = compare (Limbs.value as) (Limbs.value bs) := by
  induction as generalizing bs with
  | nil =>
    obtain rfl := List.eq_nil_of_length_eq_zero h.symm
    rfl
  | cons a as ih =>
    obtain _ | ⟨b, bs⟩ := bs
    · simp at h
    have ha := a.isLt
    have hb := b.isLt
    rw [memrcmpWords, ih (by simpa using h), Limbs.value_cons, Limbs.value_cons]
    rcases Nat.lt_trichotomy (Limbs.value as) (Limbs.value bs) with hlt | heq | hgt
    · have hwhole : a.toNat + 2 ^ 32 * Limbs.value as < b.toNat + 2 ^ 32 * Limbs.value bs := by
        omega
      rw [Nat.compare_eq_lt.2 hlt, Nat.compare_eq_lt.2 hwhole]
      rfl
    · rw [heq, Nat.compare_eq_eq.2 rfl, ← cmp_eq_compare, ← cmp_eq_compare, cmp_add_right]
      rfl
    · have hwhole : b.toNat + 2 ^ 32 * Limbs.value bs < a.toNat + 2 ^ 32 * Limbs.value as := by
        omega
      rw [Nat.compare_eq_gt.2 hgt, Nat.compare_eq_gt.2 hwhole]
      rfl

/-- RSASSA-PKCS1-v1_5 verification of a digest with exponent 65537. -/
structure SigverifyRsaKey.Verifies (key : SigverifyRsaKey) (sig : SigverifyRsaBuffer)
    (digest : HmacDigest) : Prop where
  lt : sig.value < key.n.value
  encoded : ∃ encMsg : SigverifyRsaBuffer, encMsg.value = sig.value ^ 65537 % key.n.value ∧
    Pkcs1.emsaPkcs1V15 kSigVerifyRsaNumBytes Pkcs1.sha256DigestInfo digest.octets =
      some encMsg.octets

/-- What the source relies on in the OTBN application: on a key of the ROM and a signature below
its modulus the result is exact, and failures are reported. -/
structure ModExp.Exact (runOtbnRsa3072Modexp : ModExp) (Fails : RomError → Prop) : Prop where
  run : ∀ key sig, key.WellFormed → sig.value < key.n.value →
    Hoare.Triple (fun _ => True) (runOtbnRsa3072Modexp key sig)
      (fun result _ => match result with
        | .ok encMsg => encMsg.value = sig.value ^ 65537 % key.n.value
        | .error error => Fails error)
      (fun _ _ => True)
  fails : ¬Fails kErrorOk

/-- Either implementation. -/
def ModExpResult (key : SigverifyRsaKey) (sig : SigverifyRsaBuffer) (Fails : RomError → Prop) :
    Except RomError SigverifyRsaBuffer → Prop
  | .ok encMsg => sig.value < key.n.value ∧ encMsg.value = sig.value ^ 65537 % key.n.value
  | .error error => error ≠ kErrorOk ∧ (sig.value < key.n.value → Fails error)

variable {fuel : ℕ} {runOtbnRsa3072Modexp : ModExp} {Fails : RomError → Prop}
  {key : SigverifyRsaKey} {sig : SigverifyRsaBuffer}

theorem triple_modExpIbex (hkey : key.WellFormed) (hfuel : 2 ≤ fuel) :
    Hoare.Triple (fun _ => True) (RomKey.modExpIbex fuel key sig)
      (fun result _ => ModExpResult key sig Fails result) (fun _ _ => True) := by
  have hge := greaterEqualModulus_iff key sig.length_toList
  rw [RomKey.modExpIbex, sigverifyModExpIbex]
  split_ifs with hlarge
  · have hle := hge.1 hlarge
    exact .pure _ fun _ _ => ⟨by decide, fun hlt => absurd hle (Nat.not_le.2 hlt)⟩
  · have hlt := Nat.not_le.1 (mt hge.2 hlarge)
    obtain ⟨out, hout, hvalue⟩ := modExpWords_spec hkey hfuel sig.length_toList
    simp only [hout, Option.pmap_some]
    refine .pure _ fun _ _ => ⟨hlt, ?_⟩
    rw [SigverifyRsaBuffer.value, SigverifyRsaBuffer.value, SigverifyRsaBuffer.toList_ofList]
    exact hvalue

theorem triple_sigverifyModExpOtbn (hkey : key.WellFormed)
    (hotbn : runOtbnRsa3072Modexp.Exact Fails) :
    Hoare.Triple (fun _ => True) (sigverifyModExpOtbn runOtbnRsa3072Modexp key sig)
      (fun result _ => ModExpResult key sig Fails result) (fun _ _ => True) := by
  have hcompare := memrcmpWords_eq (key.n.length_toList.trans sig.length_toList.symm)
  have hbad : sig.value < key.n.value →
      memrcmpWords key.n.toList sig.toList = .gt := fun h => hcompare.trans (Nat.compare_eq_gt.2 h)
  rw [sigverifyModExpOtbn]
  split
  · next hgt =>
    have hlt : sig.value < key.n.value := Nat.compare_eq_gt.1 (hcompare.symm.trans hgt)
    refine (hotbn.run key sig hkey hlt).conseq (fun _ h => h) (fun result _ h => ?_) fun _ _ h => h
    cases result with
    | ok encMsg => exact ⟨hlt, h⟩
    | error error => exact ⟨fun hok => hotbn.fails (hok ▸ h), fun _ => h⟩
  · next hne => exact .pure _ fun _ _ => ⟨by decide, fun hlt => absurd (hbad hlt) hne⟩

/-- What `sigverify_rsa_verify` returns is the verdict, with both of its outputs. -/
def RsaVerdict (P : Prop) (Fails : RomError → Prop) (error : RomError) (flash_exec : Word) : Prop :=
  (error = kErrorOk ∧ flash_exec = kSigverifyFlashExec ∧ P) ∨
    (error ≠ kErrorOk ∧ flash_exec ≠ kSigverifyFlashExec ∧ (P → Fails error))

theorem verdict_sigverifyEncodedMessageCheck (encMsg : SigverifyRsaBuffer) (digest : HmacDigest)
    (hlt : sig.value < key.n.value) (hvalue : encMsg.value = sig.value ^ 65537 % key.n.value) :
    RsaVerdict (key.Verifies sig digest) Fails (sigverifyEncodedMessageCheck encMsg digest).1
      (sigverifyEncodedMessageCheck encMsg digest).2 := by
  rw [sigverifyEncodedMessageCheck_eq]
  split_ifs with h
  · exact .inl ⟨rfl, rfl, hlt, encMsg, hvalue, (emsaPkcs1V15_eq_some_iff encMsg digest).2 h⟩
  · refine .inr ⟨by decide, by decide, ?_⟩
    rintro ⟨-, encMsg', hvalue', hencoded⟩
    refine absurd ?_ h
    have hsame : encMsg.toList = encMsg'.toList := Limbs.value_inj
      (encMsg.length_toList.trans encMsg'.length_toList.symm) (hvalue.trans hvalue'.symm)
    rw [hsame, (emsaPkcs1V15_eq_some_iff encMsg' digest).1 hencoded]

theorem triple_sigverifyRsaVerify (hkey : key.WellFormed) (hfuel : 2 ≤ fuel)
    (hotbn : runOtbnRsa3072Modexp.Exact Fails) (digest : HmacDigest) :
    Hoare.Triple (fun _ => True)
      (sigverifyRsaVerify hw fuel runOtbnRsa3072Modexp sig key digest lc_state)
      (fun result _ => RsaVerdict (key.Verifies sig digest) Fails result.1 result.2)
      (fun _ _ => True) := by
  refine .bind .top fun use_sw => ?_
  have hrest : ∀ result, ModExpResult key sig Fails result → Hoare.Triple (fun _ => True)
      (match result with
        | .ok enc_msg => pure (sigverifyEncodedMessageCheck enc_msg digest)
        | .error error => pure (error, wordMax) : Drv (RomError × Word))
      (fun result _ => RsaVerdict (key.Verifies sig digest) Fails result.1 result.2)
      (fun _ _ => True) := by
    rintro (error | encMsg) hresult
    · exact .pure _ fun _ _ =>
        .inr ⟨hresult.1, show wordMax ≠ kSigverifyFlashExec by decide, fun h => hresult.2 h.lt⟩
    · exact .pure _ fun _ _ =>
        verdict_sigverifyEncodedMessageCheck encMsg digest hresult.1 hresult.2
  refine .ite _ (fun _ => ?_) fun _ => .ite _ (fun _ => ?_) fun _ => .throw _ fun _ _ => trivial
  · exact .bind_fact (triple_modExpIbex hkey hfuel) hrest
  · exact .bind_fact (triple_sigverifyModExpOtbn hkey hotbn) hrest

end Signature

/-! ### The image that is verified -/

section Image

/-- An image that this device accepts: the policy accepts its manifest, and a key of the ROM that
this device can use verifies the signature of the digest. -/
structure RomVerified (identity : HwIdentity) (otp : Word → Word) (boot_data : BootData)
    (ptr : Word) : Prop where
  accepted : (manifestLoad hw.flash ptr).Accepted boot_data.min_security_version_rom_ext
  signed : ∃ j k, T.keys[j.toNat]? = some k ∧
    k.id = sigverifyRsaKeyIdGet (manifestLoad hw.flash ptr).modulus ∧
    KeyUsable otp k.key_type lc_state j ∧
    k.key.Verifies (manifestLoad hw.flash ptr).signature
      (hw.sha256 (digestMessage hw identity ptr (manifestLoad hw.flash ptr)))

variable {hw T lc_state} {identity : HwIdentity} {otp : Word → Word}
  {fuel : ℕ} {runOtbnRsa3072Modexp : ModExp} {Fails : RomError → Prop}

theorem HwIdentity.ShownBy.unique {identity' : HwIdentity} {io : Io}
    (h : identity.ShownBy hw io) (h' : identity'.ShownBy hw io) : identity' = identity := by
  obtain ⟨deviceId, creator, owner, lcState⟩ := identity
  obtain ⟨deviceId', creator', owner', lcState'⟩ := identity'
  have hdevice : deviceId' = deviceId := by
    refine Vector.ext fun i hi => ?_
    exact (h'.deviceId ⟨i, hi⟩).trans (h.deviceId ⟨i, hi⟩).symm
  obtain rfl := hdevice
  obtain rfl : creator' = creator := h'.manufStateCreator.trans h.manufStateCreator.symm
  obtain rfl : owner' = owner := h'.manufStateOwner.trans h.manufStateOwner.symm
  obtain rfl : lcState' = lcState := Option.some.inj (h'.lcState.symm.trans h.lcState)
  rfl

theorem triple_romVerifyDigest_shown (hshows : DeviceShows hw T identity otp)
    (ptr minVersion : Word) (m : Manifest) :
    Hoare.Triple (fun _ => True) (romVerifyDigest hw ptr m minVersion)
      (fun digest _ => digest = hw.sha256 (digestMessage hw identity ptr m)) (fun _ _ => True) := by
  refine .of_state fun io _ => ?_
  obtain ⟨io₁, hinit⟩ : ∃ io₁, (hmacSha256Init hw).run io = .ok () io₁ := ⟨_, rfl⟩
  refine (triple_romVerifyDigest io io₁ ptr minVersion m hinit).conseq (fun _ h => h) ?_
    fun _ _ h => h
  rintro digest io' ⟨⟨identity', hshown, hmessage⟩, rfl⟩
  rw [hmessage, (hshows.identity io₁).unique hshown]

/-- A lookup that returns has found the one key, if there is one. -/
theorem sigverifyRsaKeyGet_cases {key_id rnd : Word} {result : RomError × Option SigverifyRsaKey}
    (h : sigverifyRsaKeyGet T otp key_id lc_state rnd = .ok result) :
    (∃ j k, T.keys[j.toNat]? = some k ∧ k.id = key_id ∧ KeyUsable otp k.key_type lc_state j ∧
      result = (kErrorOk, some k.key)) ∨
    ((∀ j, ¬KeyCandidate T otp key_id lc_state j) ∧ result = (kErrorSigverifyBadKey, none)) := by
  by_cases hcand : ∃ j, KeyCandidate T otp key_id lc_state j
  · obtain ⟨j, k, hk, hid, husable⟩ := hcand
    have hget := sigverifyRsaKeyGet_of_candidate hk hid husable rnd
    exact .inl ⟨j, k, hk, hid, husable, (Except.ok.inj (h.symm.trans hget))⟩
  · have hnone := not_exists.1 hcand
    have hget := sigverifyRsaKeyGet_of_no_candidate hnone rnd
    exact .inr ⟨hnone, Except.ok.inj (h.symm.trans hget)⟩

theorem RsaVerdict.congr {P Q : Prop} {error : RomError} {flash_exec : Word}
    (h : RsaVerdict P Fails error flash_exec) (hPQ : P ↔ Q) :
    RsaVerdict Q Fails error flash_exec := by
  obtain ⟨hok, hexec, hP⟩ | ⟨hok, hexec, hP⟩ := h
  · exact .inl ⟨hok, hexec, hPQ.1 hP⟩
  · exact .inr ⟨hok, hexec, fun hQ => hP (hPQ.2 hQ)⟩

end Image

/-! ### A device -/

/-- Hardware on which the life cycle state is a test state and all else is zero. -/
def testDevice : Hw where
  readOnly addr := some (if addr = kLcCtrlLcState then lcStateValue 1 else 0)
  busWrite regs _ _ := regs
  sample _ _ := 1
  flash _ := 0
  sha256 _ := .replicate _ 0
  powerLoss _ := false
  takes _ _ := true

def testIdentity : HwIdentity := ⟨.replicate _ 0, 0, 0, .test⟩

def testBootData : BootData := BootDataWords.entry (.replicate _ 0)

def oneKey : SigverifyRsaKeys where
  keys := [⟨maxModulusKey, .test⟩]
  step := 1
  fits := by decide
  step_le _ := by decide
  coprime _ := by decide
  nodup := List.nodup_singleton _

theorem testDevice_shows : DeviceShows testDevice oneKey testIdentity fun _ => 0 where
  identity io := by
    have hstate : lifecycleStateDecode (bitfieldField32Read (lcStateValue 1) ⟨0x3fffffff, 0⟩) =
        some LifecycleState.test := by
      decide
    refine ⟨fun i => ?_, rfl, rfl, hstate⟩
    fin_cases i <;> rfl
  otp j hj io := by
    obtain rfl : j = 0 := List.mem_singleton.1 hj
    rfl

theorem oneKey_wellFormed : ∀ k ∈ oneKey.keys, k.key.WellFormed := by
  intro k hk
  rw [List.mem_singleton.1 hk]
  exact maxModulusKey_wellFormed

/-- The software implementation in place of OTBN. -/
theorem modExpIbex_exact : (RomKey.modExpIbex 2).Exact fun _ => False where
  run key sig hkey hlt := by
    have hibex : Hoare.Triple (fun _ => True) (RomKey.modExpIbex 2 key sig)
        (fun result _ => ModExpResult key sig (fun _ => False) result) (fun _ _ => True) :=
      triple_modExpIbex hkey le_rfl
    refine hibex.conseq (fun _ h => h) (fun result _ h => ?_) fun _ _ h => h
    cases result with
    | ok encMsg => exact h.2
    | error error => exact h.2 hlt
  fails := id

/-- There is no image in its flash. -/
theorem not_romVerified_testDevice (boot_data : BootData) (ptr : Word) :
    ¬RomVerified testDevice oneKey .test testIdentity (fun _ => 0) boot_data ptr := by
  have hne : Word.ofBytes 0 0 0 0 ≠ kChipRomExtIdentifier := by decide
  exact fun h => hne h.accepted.identifier

/-! ### The verdict -/

section Verdict

variable {hw T lc_state} {identity : HwIdentity} {otp : Word → Word}
  {fuel : ℕ} {runOtbnRsa3072Modexp : ModExp} {Fails : RomError → Prop}

variable (lc_state) in
theorem triple_romVerify (hshows : DeviceShows hw T identity otp)
    (hkeys : ∀ k ∈ T.keys, k.key.WellFormed) (hfuel : 2 ≤ fuel)
    (hotbn : runOtbnRsa3072Modexp.Exact Fails) (boot_data : BootData) (ptr : Word)
    (measurement : HmacDigest) :
    Hoare.Triple (fun _ => True)
      (romVerify hw fuel runOtbnRsa3072Modexp T lc_state boot_data ptr measurement)
      (fun r _ =>
        RsaVerdict (RomVerified hw T lc_state identity otp boot_data ptr) Fails r.error
          r.flash_exec ∧
        (r.error = kErrorOk → r.measurement =
          hw.sha256 (digestMessage hw identity ptr (manifestLoad hw.flash ptr))))
      (fun _ _ => True) := by
  have hzero : (0 : Word) ≠ kSigverifyFlashExec := by decide
  have hbad : kErrorSigverifyBadKey ≠ kErrorOk := by decide
  refine .ite _ (fun hne => .pure _ fun _ _ => ⟨.inr ⟨hne, hzero, fun h => ?_⟩, fun h => ?_⟩)
    fun hpolicy => ?_
  · exact absurd ((bootPolicyManifestCheck_eq_ok_iff _ _).2 h.accepted) hne
  · exact absurd h hne
  have haccepted := (bootPolicyManifestCheck_eq_ok_iff _ _).1 (not_not.1 hpolicy)
  refine .bind_fact (triple_sigverifyRsaKeyGet hshows) ?_
  rintro result ⟨rnd, hget⟩
  obtain ⟨j, k, hk, hid, husable, rfl⟩ | ⟨hnone, rfl⟩ := sigverifyRsaKeyGet_cases hget
  · refine .ite _ (fun hne => absurd rfl hne) fun _ => ?_
    refine .bind .top fun _ => ?_
    refine .bind_fact (triple_romVerifyDigest_shown hshows _ _ _) fun digest hdigest => ?_
    refine .bind_fact (triple_sigverifyRsaVerify hw lc_state (hkeys k (List.mem_of_getElem? hk))
      hfuel hotbn digest) fun verdict hverdict => .pure _ fun _ _ =>
        ⟨RsaVerdict.congr hverdict ?_, fun _ => hdigest⟩
    rw [hdigest]
    refine ⟨fun h => ⟨haccepted, j, k, hk, hid, husable, h⟩, ?_⟩
    rintro ⟨-, j', k', hk', hid', husable', h⟩
    obtain rfl : j = j' := keyCandidate_unique ⟨k, hk, hid, husable⟩ ⟨k', hk', hid', husable'⟩
    rwa [Option.some.inj (hk.symm.trans hk')]
  · refine .pure _ fun _ _ => ⟨.inr ⟨hbad, hzero, fun h => ?_⟩, fun h => absurd h hbad⟩
    obtain ⟨-, j, k, hk, hid, husable, -⟩ := h
    exact absurd ⟨k, hk, hid, husable⟩ (hnone j)

/-- Whenever `rom_verify` returns, it has decided whether the image is one that this device
accepts: the error and the value for the EXEC register both tell it, and the measurement of an
accepted image is its digest. Only a failure of OTBN rejects such an image. -/
theorem rom_verify_verdict (hshows : DeviceShows hw T identity otp)
    (hkeys : ∀ k ∈ T.keys, k.key.WellFormed) (hfuel : 2 ≤ fuel)
    (hotbn : runOtbnRsa3072Modexp.Exact Fails) {boot_data : BootData} {ptr : Word}
    {measurement : HmacDigest} {io io' : Io} {r : RomVerification}
    (hrun : (romVerify hw fuel runOtbnRsa3072Modexp T lc_state boot_data ptr measurement).run io =
      .ok r io') :
    (r.error = kErrorOk ↔ r.flash_exec = kSigverifyFlashExec) ∧
      (r.error = kErrorOk → RomVerified hw T lc_state identity otp boot_data ptr ∧
        r.measurement =
          hw.sha256 (digestMessage hw identity ptr (manifestLoad hw.flash ptr))) ∧
      (RomVerified hw T lc_state identity otp boot_data ptr →
        r.error = kErrorOk ∨ Fails r.error) := by
  have houtcome := triple_romVerify lc_state hshows hkeys hfuel hotbn boot_data ptr measurement io
    trivial
  rw [hrun] at houtcome
  obtain ⟨⟨hok, hexec, hverified⟩ | ⟨hne, hexec, hfails⟩, hmeasurement⟩ := houtcome
  · exact ⟨iff_of_true hok hexec, fun _ => ⟨hverified, hmeasurement hok⟩, fun _ => .inl hok⟩
  · exact ⟨iff_of_false hne hexec, fun h => absurd h hne, fun h => .inr (hfails h)⟩

theorem rom_verify_verdict_testDevice :
    ∃ r io, (romVerify testDevice 2 (RomKey.modExpIbex 2) oneKey .test testBootData kEflashBaseAddr
        (.replicate 8 0)).run Io.powerOn = .ok r io ∧ r.error ≠ kErrorOk := by
  obtain ⟨r, io, hrun⟩ : ∃ r io, (romVerify testDevice 2 (RomKey.modExpIbex 2) oneKey .test
      testBootData kEflashBaseAddr (.replicate 8 0)).run Io.powerOn = .ok r io := ⟨_, _, rfl⟩
  obtain ⟨-, hok, -⟩ := rom_verify_verdict testDevice_shows oneKey_wellFormed le_rfl
    modExpIbex_exact hrun
  exact ⟨r, io, hrun, fun h => not_romVerified_testDevice _ _ (hok h).1⟩

end Verdict

end SecureBoot
