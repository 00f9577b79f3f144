import Mathlib.Data.List.GetD
import SecureBoot.Base.Bus
import SecureBoot.Drivers.Kmac
import SecureBoot.Lib.Fips

/-! The prefix of cSHAKE and KMAC in the crypto library's driver. The lengths of the two strings
are encoded with their least significant byte first, which is `left_encode` for lengths of one
byte only. -/

namespace SecureBoot

open BusM Fips202

/-- `TOP_EARLGREY_KMAC_BASE_ADDR`. -/
abbrev kKmacBaseAddr : Word := 0x41120000

/-- `KMAC_PREFIX_0_REG_OFFSET`: the registers of the prefix follow each other. -/
abbrev kKmacPrefixAddr : Word := kKmacBaseAddr + 0xc4

/-- `KMAC_PREFIX_MULTIREG_COUNT`. -/
abbrev kKmacPrefixMultiregCount : ℕ := 11

/-- A length and a pointer, null or to that many bytes. -/
structure KmacString where
  len : Word
  data : Option (List Byte)
  length_eq : ∀ bytes ∈ data, bytes.length = len.toNat

def KmacString.bytes (s : KmacString) : List Byte := s.data.getD []

/-- The digits of `little_endian_encode` with at most `n` to go; a `size_t` has at most four. -/
def littleEndianEncodeFrom : ℕ → Word → List Byte
  | 0, _ => []
  | n + 1, value =>
    let value' := value >>> 8
    value.setWidth 8 :: if value' ≠ 0 then littleEndianEncodeFrom n value' else []

/-- `little_endian_encode`; the header is the number of bytes. -/
def littleEndianEncode (value : Word) : List Byte := littleEndianEncodeFrom 4 value

/-- `memcpy` of some bytes into a buffer. -/
def storeBytes (buffer : ℕ → Byte) (offset : ℕ) (bytes : List Byte) : ℕ → Byte := fun k =>
  if offset ≤ k ∧ k < offset + bytes.length then bytes.getD (k - offset) 0 else buffer k

/-- The part of `kmac_set_prefix_regs` for one of the strings: its length in bits behind a byte
for the header, the header, the string. -/
def kmacEncodeString (buffer : ℕ → Byte) (write_cnt : ℕ) (s : KmacString) : (ℕ → Byte) × ℕ :=
  let len_bits := 8 * s.len
  let encoding := littleEndianEncode len_bits
  let j := encoding.length
  let buffer := storeBytes buffer (write_cnt + 1) encoding
  let buffer := storeBytes buffer write_cnt [.ofNat 8 j]
  let write_cnt := write_cnt + (j + 1)
  (storeBytes buffer write_cnt s.bytes, write_cnt + s.bytes.length)

/-- A word of the buffer. -/
def prefixWord (buffer : ℕ → Byte) (i : ℕ) : Word :=
  .ofBytes (buffer (4 * i)) (buffer (4 * i + 1)) (buffer (4 * i + 2)) (buffer (4 * i + 3))

def writePrefixRegs (buffer : ℕ → Byte) : List ℕ → BusM Unit
  | [] => pure ()
  | i :: is => do
    write32 (kKmacPrefixAddr + .ofNat 32 (4 * i)) (prefixWord buffer i)
    writePrefixRegs buffer is

def kmacSetPrefixRegs (func_name cust_str : KmacString) : BusM KmacError := do
  if (cust_str.len ≠ 0 ∧ cust_str.data = none) ∨ (func_name.len ≠ 0 ∧ func_name.data = none) then
    return .argsError
  else if kKmacPrefixMaxSize < func_name.len + cust_str.len then
    return .argsError
  let (buffer, write_cnt) := kmacEncodeString (fun _ => 0) 0 func_name
  let (buffer, _) := kmacEncodeString buffer write_cnt cust_str
  writePrefixRegs buffer (List.range kKmacPrefixMultiregCount)
  return .ok

/-- The function name of KMAC. -/
def kmacFuncName : KmacString := ⟨4, some [0x4b, 0x4d, 0x41, 0x43], by simp⟩

def kmacWritePrefixBlock (operation : KmacOperation) (func_name cust_str : KmacString) :
    BusM KmacError :=
  match operation with
  | .CSHAKE => kmacSetPrefixRegs func_name cust_str
  | .KMAC => kmacSetPrefixRegs kmacFuncName cust_str
  | .SHA3 | .SHAKE => return .ok

/-! ### The encoding of one string -/

/-- The digits to the base 256, with one digit for zero. -/
def byteDigits (x : ℕ) : List ℕ := if x = 0 then [0] else Nat.digits 256 x

theorem byteDigits_of_lt {x : ℕ} (h : x < 256) : byteDigits x = [x] := by
  rw [byteDigits]
  split_ifs with hzero
  · rw [hzero]
  · exact Nat.digits_of_lt 256 x hzero h

theorem byteDigits_of_ge {x : ℕ} (h : 256 ≤ x) :
    byteDigits x = x % 256 :: byteDigits (x / 256) := by
  rw [byteDigits, if_neg (by omega), Nat.digits_def' (by decide) (by omega), byteDigits,
    if_neg (by omega)]

theorem length_byteDigits_pos (x : ℕ) : 0 < (byteDigits x).length := by
  rcases Nat.lt_or_ge x 256 with h | h
  · rw [byteDigits_of_lt h]
    exact Nat.one_pos
  · rw [byteDigits_of_ge h]
    exact Nat.succ_pos _

theorem littleEndianEncodeFrom_eq (n : ℕ) (value : Word) (h : value.toNat < 256 ^ (n + 1)) :
    littleEndianEncodeFrom (n + 1) value = (byteDigits value.toNat).map (BitVec.ofNat 8) := by
  have hbyte : value.setWidth 8 = BitVec.ofNat 8 (value.toNat % 256) := by
    apply BitVec.eq_of_toNat_eq
    rw [BitVec.toNat_setWidth, BitVec.toNat_ofNat, Nat.mod_mod]
  have hshift : (value >>> 8).toNat = value.toNat / 256 := by
    rw [BitVec.toNat_ushiftRight, Nat.shiftRight_eq_div_pow]
  rw [littleEndianEncodeFrom, hbyte]
  rcases Nat.lt_or_ge value.toNat 256 with hlt | hge
  · have hzero : value >>> 8 = 0 := BitVec.eq_of_toNat_eq (by rw [hshift]; exact Nat.div_eq_of_lt hlt)
    rw [if_neg (not_not.2 hzero), byteDigits_of_lt hlt, Nat.mod_eq_of_lt hlt]
    rfl
  · have hne : value >>> 8 ≠ 0 := fun hzero => by
      rw [hzero] at hshift
      change 0 = value.toNat / 256 at hshift
      omega
    rw [if_pos hne, byteDigits_of_ge hge, List.map_cons, ← hshift]
    cases n with
    | zero => exact absurd h (by omega)
    | succ n =>
      rw [littleEndianEncodeFrom_eq n (value >>> 8) ?_]
      rw [hshift, Nat.div_lt_iff_lt_mul (by decide)]
      exact h

theorem littleEndianEncode_eq (value : Word) :
    littleEndianEncode value = (byteDigits value.toNat).map (BitVec.ofNat 8) :=
  littleEndianEncodeFrom_eq 3 value value.isLt

/-- What the driver writes for a string: the digits of the length are in reverse order. -/
def kmacEncoding (s : KmacString) : List Byte :=
  let digits := byteDigits (8 * s.len).toNat
  (digits.length :: digits).map (BitVec.ofNat 8) ++ s.bytes

theorem storeBytes_append (A B : List Byte) :
    storeBytes (fun k => A.getD k 0) A.length B = fun k => (A ++ B).getD k 0 := by
  funext k
  rw [storeBytes]
  split_ifs with h
  · rw [List.getD_append_right _ _ _ _ h.1]
  · rcases Nat.lt_or_ge k A.length with hlt | hge
    · rw [List.getD_append _ _ _ _ hlt]
    · rw [List.getD_eq_default _ _ hge, List.getD_eq_default _ _ (by rw [List.length_append]; omega)]

/-- A byte in front of those stored. -/
theorem storeBytes_cons (buffer : ℕ → Byte) (offset : ℕ) (b : Byte) (bytes : List Byte) :
    storeBytes (storeBytes buffer (offset + 1) bytes) offset [b] =
      storeBytes buffer offset (b :: bytes) := by
  funext k
  rw [storeBytes, storeBytes, storeBytes, List.length_singleton, List.length_cons]
  rcases Nat.lt_trichotomy k offset with hlt | rfl | hgt
  · rw [if_neg (by omega), if_neg (by omega), if_neg (by omega)]
  · rw [if_pos (by omega), if_pos (by omega), Nat.sub_self]
    rfl
  · obtain ⟨d, rfl⟩ : ∃ d, k = offset + 1 + d := ⟨k - offset - 1, by omega⟩
    rw [if_neg (by omega), Nat.add_sub_cancel_left, Nat.add_assoc, Nat.add_sub_cancel_left,
      Nat.add_comm 1 d, List.getD_cons_succ]
    split_ifs
    · rfl
    · omega
    · omega
    · rfl

/-- The part for one string appends its encoding. -/
theorem kmacEncodeString_eq (A : List Byte) (s : KmacString) :
    kmacEncodeString (fun k => A.getD k 0) A.length s =
      (fun k => (A ++ kmacEncoding s).getD k 0, (A ++ kmacEncoding s).length) := by
  have hencode := littleEndianEncode_eq (8 * s.len)
  rw [kmacEncodeString, kmacEncoding]
  simp only [hencode, storeBytes_cons, List.length_map]
  rw [storeBytes_append, ← List.map_cons, ← List.append_assoc]
  have hlen : A.length + ((byteDigits (8 * s.len).toNat).length + 1) =
      (A ++ ((byteDigits (8 * s.len).toNat).length ::
        byteDigits (8 * s.len).toNat).map (BitVec.ofNat 8)).length := by
    rw [List.length_append, List.length_map, List.length_cons]
  rw [hlen, storeBytes_append, @List.length_append _ _ s.bytes]

/-! ### The registers -/

/-- What `kmac_set_prefix_regs` takes. -/
def PrefixAccepted (func_name cust_str : KmacString) : Prop :=
  ¬((cust_str.len ≠ 0 ∧ cust_str.data = none) ∨ (func_name.len ≠ 0 ∧ func_name.data = none)) ∧
    ¬kKmacPrefixMaxSize < func_name.len + cust_str.len

/-- The writes of some words to the registers of the prefix, in order. -/
def prefixWrites (words : List Word) : List BusAccess :=
  words.mapIdx fun i word => .write32 (kKmacPrefixAddr + .ofNat 32 (4 * i)) word

theorem prefixWrites_map_range (f : ℕ → Word) (n : ℕ) :
    prefixWrites ((List.range n).map f) =
      (List.range n).map fun i => .write32 (kKmacPrefixAddr + .ofNat 32 (4 * i)) (f i) := by
  refine List.ext_getElem (by simp [prefixWrites]) fun i _ _ => ?_
  simp [prefixWrites]

theorem run_writePrefixRegs (buffer : ℕ → Byte) (is : List ℕ) (past : List BusAccess) :
    (writePrefixRegs buffer is).run past = .ok ⟨⟩ ((is.map fun i =>
      BusAccess.write32 (kKmacPrefixAddr + .ofNat 32 (4 * i)) (prefixWord buffer i)).reverse ++
      past) := by
  induction is generalizing past with
  | nil => rfl
  | cons i is ih =>
    rw [writePrefixRegs, run_bind_ok _ (run_write32 _ _ _), ih, List.map_cons, List.reverse_cons,
      List.append_assoc]
    rfl

/-- The bytes of the registers that hold the first words of a buffer. -/
theorem wordsToBytes_prefixWord (buffer : ℕ → Byte) (n : ℕ) :
    wordsToBytes ((List.range n).map (prefixWord buffer)) = (List.range (4 * n)).map buffer := by
  rw [map_range_mul, wordsToBytes, List.flatMap_map]
  congr 1
  funext i
  rw [prefixWord, Word.toBytes_ofBytes]
  rfl

theorem map_range_getD (bytes : List Byte) {n : ℕ} (h : bytes.length ≤ n) :
    (List.range n).map (fun k => bytes.getD k 0) =
      bytes ++ List.replicate (n - bytes.length) 0 := by
  refine List.ext_getElem (by simp; omega) fun k hk _ => ?_
  rw [List.getElem_map, List.getElem_range, List.getElem_append]
  split_ifs with hlt
  · exact List.getD_eq_getElem _ _ hlt
  · rw [List.getElem_replicate]
    exact List.getD_eq_default _ _ (by omega)

/-- The bytes that the two strings leave in the registers. -/
def prefixBytes (func_name cust_str : KmacString) : List Byte :=
  (List.range (4 * kKmacPrefixMultiregCount)).map fun k =>
    (kmacEncoding func_name ++ kmacEncoding cust_str).getD k 0

/-- A call either changes nothing or leaves the encodings of the two strings in the registers. -/
theorem run_kmacSetPrefixRegs (func_name cust_str : KmacString) (past : List BusAccess) :
    (¬PrefixAccepted func_name cust_str ∧
      (kmacSetPrefixRegs func_name cust_str).run past = .ok .argsError past) ∨
    (PrefixAccepted func_name cust_str ∧ ∃ words, words.length = kKmacPrefixMultiregCount ∧
      wordsToBytes words = prefixBytes func_name cust_str ∧
      (kmacSetPrefixRegs func_name cust_str).run past =
        .ok .ok ((prefixWrites words).reverse ++ past)) := by
  rw [PrefixAccepted, kmacSetPrefixRegs]
  split_ifs with hnull hlong
  · exact .inl ⟨fun h => h.1 hnull, rfl⟩
  · exact .inl ⟨fun h => h.2 hlong, rfl⟩
  · refine .inr ⟨⟨hnull, hlong⟩, ?_⟩
    have hfirst := kmacEncodeString_eq [] func_name
    have hsecond := kmacEncodeString_eq (kmacEncoding func_name) cust_str
    rw [List.nil_append] at hfirst
    have hzero : (fun k => ([] : List Byte).getD k 0) = fun _ => 0 := by
      funext k
      exact List.getD_nil
    rw [hzero] at hfirst
    refine ⟨(List.range kKmacPrefixMultiregCount).map (prefixWord fun k =>
      (kmacEncoding func_name ++ kmacEncoding cust_str).getD k 0), by simp,
      wordsToBytes_prefixWord _ _, ?_⟩
    rw [show (0 : ℕ) = ([] : List Byte).length from rfl, hfirst]
    simp only [hsecond]
    rw [run_bind_ok _ (run_writePrefixRegs _ _ _), run_pure, prefixWrites_map_range]

/-! ### Against `encode_string` -/

/-- A string that is not null, or empty. -/
def KmacString.Present (s : KmacString) : Prop := ¬(s.len ≠ 0 ∧ s.data = none)

theorem KmacString.Present.length_bytes {s : KmacString} (h : s.Present) :
    s.bytes.length = s.len.toNat := by
  rw [KmacString.bytes]
  cases hdata : s.data with
  | some bytes => exact s.length_eq bytes hdata
  | none =>
    have hzero : s.len = 0 := by
      by_contra hne
      exact h ⟨hne, hdata⟩
    rw [hzero]
    rfl

theorem leftEncode_eq (x : ℕ) :
    leftEncode x = ((byteDigits x).length :: (byteDigits x).reverse).map (BitVec.ofNat 8) := rfl

theorem kmacEncoding_of_short {s : KmacString} (hs : s.Present) (h : s.len.toNat < 32) :
    kmacEncoding s = encodeString s.bytes := by
  have hbits : (8 * s.len).toNat = 8 * s.len.toNat := by
    rw [BitVec.toNat_mul]
    exact Nat.mod_eq_of_lt (by change 8 * s.len.toNat < 2 ^ 32; omega)
  rw [kmacEncoding, encodeString, leftEncode_eq, hs.length_bytes, hbits]
  simp only [byteDigits_of_lt (show 8 * s.len.toNat < 256 by omega)]
  rfl

/-- From 32 bytes on the byte after the header differs. -/
theorem kmacEncoding_of_long {s : KmacString} (hs : s.Present) (h : 32 ≤ s.len.toNat)
    (hlt : s.len.toNat ≤ 40) :
    (kmacEncoding s).getD 1 0 ≠ (encodeString s.bytes).getD 1 0 := by
  have hbits : (8 * s.len).toNat = 8 * s.len.toNat := by
    rw [BitVec.toNat_mul]
    exact Nat.mod_eq_of_lt (by change 8 * s.len.toNat < 2 ^ 32; omega)
  have hdigits : byteDigits (8 * s.len.toNat) = [8 * s.len.toNat - 256, 1] := by
    rw [byteDigits_of_ge (by omega), show 8 * s.len.toNat / 256 = 1 by omega,
      show 8 * s.len.toNat % 256 = 8 * s.len.toNat - 256 by omega, byteDigits_of_lt (by decide)]
  rw [kmacEncoding, encodeString, leftEncode_eq, hs.length_bytes, hbits]
  simp only [hdigits]
  change BitVec.ofNat 8 (8 * s.len.toNat - 256) ≠ BitVec.ofNat 8 1
  intro heq
  have hnat := congrArg BitVec.toNat heq
  rw [BitVec.toNat_ofNat, BitVec.toNat_ofNat] at hnat
  omega

theorem one_lt_length_kmacEncoding (s : KmacString) : 1 < (kmacEncoding s).length := by
  have hpos := length_byteDigits_pos (8 * s.len).toNat
  rw [kmacEncoding, List.length_append, List.length_map, List.length_cons]
  omega

theorem length_encodeString_of_short {S : List Byte} (h : S.length < 32) :
    (encodeString S).length = S.length + 2 := by
  rw [encodeString, leftEncode_eq, byteDigits_of_lt (by omega), List.length_append, Nat.add_comm]
  rfl

/-- The prefix of SP 800-185 in registers that are zero elsewhere. -/
def prefixSpec (N S : List Byte) : List Byte :=
  let encoded := encodeString N ++ encodeString S
  encoded ++ List.replicate (4 * kKmacPrefixMultiregCount - encoded.length) 0

theorem length_prefixBytes (N S : KmacString) : (prefixBytes N S).length = 44 := by
  rw [prefixBytes, List.length_map, List.length_range]
  rfl

theorem getD_prefixBytes (N S : KmacString) {k : ℕ} (hk : k < 44) :
    (prefixBytes N S).getD k 0 = (kmacEncoding N ++ kmacEncoding S).getD k 0 := by
  rw [List.getD_eq_getElem _ _ (by rwa [length_prefixBytes])]
  simp only [prefixBytes, List.getElem_map, List.getElem_range]

theorem getD_prefixSpec (N S : List Byte) (k : ℕ) :
    (prefixSpec N S).getD k 0 = (encodeString N ++ encodeString S).getD k 0 := by
  rw [prefixSpec]
  rcases Nat.lt_or_ge k (encodeString N ++ encodeString S).length with hlt | hge
  · exact List.getD_append _ _ _ _ hlt
  · simp only [List.getD_append_right _ _ _ _ hge, List.getD_eq_default _ _ hge]
    rw [List.getD_eq_getElem?_getD, List.getElem?_replicate]
    split_ifs <;> rfl

theorem prefixBytes_eq_iff {N S : KmacString} (h : PrefixAccepted N S) :
    prefixBytes N S = prefixSpec N.bytes S.bytes ↔ N.len.toNat < 32 ∧ S.len.toNat < 32 := by
  have hN : N.Present := fun hno => h.1 (.inr hno)
  have hS : S.Present := fun hno => h.1 (.inl hno)
  have hsum : (N.len.toNat + S.len.toNat) % 2 ^ 32 ≤ 40 := by
    have hle := h.2
    rw [BitVec.lt_def, BitVec.toNat_add] at hle
    exact not_lt.1 hle
  have hNspec := length_encodeString_ge N.bytes
  have hSspec := length_encodeString_ge S.bytes
  rw [hN.length_bytes] at hNspec
  rw [hS.length_bytes] at hSspec
  constructor
  · intro heq
    have hlen := congrArg List.length heq
    rw [length_prefixBytes, prefixSpec, List.length_append, List.length_append] at hlen
    have hsmall : N.len.toNat + S.len.toNat ≤ 40 := by omega
    have hget := fun k (hk : k < 44) => (getD_prefixBytes N S hk).symm.trans
      ((congrArg (List.getD · k 0) heq).trans (getD_prefixSpec N.bytes S.bytes k))
    have hNshort : N.len.toNat < 32 := by
      by_contra hlong
      refine kmacEncoding_of_long hN (not_lt.1 hlong) (by omega) ?_
      have hone := hget 1 (by decide)
      rwa [List.getD_append _ _ _ _ (one_lt_length_kmacEncoding N),
        List.getD_append _ _ _ _ (by omega)] at hone
    refine ⟨hNshort, ?_⟩
    by_contra hlong
    refine kmacEncoding_of_long hS (not_lt.1 hlong) (by omega) ?_
    have hlenN : (encodeString N.bytes).length = N.len.toNat + 2 := by
      rw [length_encodeString_of_short (hN.length_bytes.trans_lt hNshort), hN.length_bytes]
    have hone := hget (N.len.toNat + 2 + 1) (by omega)
    rwa [kmacEncoding_of_short hN hNshort, List.getD_append_right _ _ _ _ (by omega), hlenN,
      List.getD_append_right _ _ _ _ (by omega), hlenN, Nat.add_sub_cancel_left] at hone
  · rintro ⟨hNshort, hSshort⟩
    rw [prefixBytes, kmacEncoding_of_short hN hNshort, kmacEncoding_of_short hS hSshort,
      map_range_getD _ ?_]
    · rfl
    · rw [List.length_append, length_encodeString_of_short (hN.length_bytes.trans_lt hNshort),
        length_encodeString_of_short (hS.length_bytes.trans_lt hSshort), hN.length_bytes,
        hS.length_bytes]
      change N.len.toNat + 2 + (S.len.toNat + 2) ≤ 44
      omega

/-- If the call is accepted, the registers of the prefix are written once each, in order, and hold
the prefix of SP 800-185. -/
def PrefixMeetsSpec (x : BusM KmacError) (N S : List Byte) (past : List BusAccess) : Prop :=
  ∀ past', x.run past = .ok .ok past' → ∃ words, words.length = kKmacPrefixMultiregCount ∧
    past' = (prefixWrites words).reverse ++ past ∧ wordsToBytes words = prefixSpec N S

theorem prefixWrites_injective : Function.Injective prefixWrites := by
  intro ws vs h
  have hvalue := congrArg (List.map fun a => match a with
    | .write32 _ value => value
    | _ => 0) h
  simpa [prefixWrites, List.mapIdx_eq_zipIdx_map, Function.comp_def] using hvalue

theorem prefixMeetsSpec_iff (func_name cust_str : KmacString) (past : List BusAccess) :
    PrefixMeetsSpec (kmacSetPrefixRegs func_name cust_str) func_name.bytes cust_str.bytes past ↔
      (PrefixAccepted func_name cust_str →
        func_name.len.toNat < 32 ∧ cust_str.len.toNat < 32) := by
  rcases run_kmacSetPrefixRegs func_name cust_str past with
    ⟨hno, hrun⟩ | ⟨haccepted, words, hlen, hbytes, hrun⟩
  · refine iff_of_true (fun past' hok => ?_) fun h => absurd h hno
    rw [hrun] at hok
    cases hok
  · rw [← prefixBytes_eq_iff haccepted, ← hbytes]
    constructor
    · intro h _
      obtain ⟨words', -, hpast, hspec⟩ := h _ hrun
      have hsame := prefixWrites_injective
        (List.reverse_injective (List.append_cancel_right hpast))
      rw [hsame, hspec]
    · intro h past' hok
      rw [hrun] at hok
      obtain ⟨-, rfl⟩ := EStateM.Result.ok.inj hok
      exact ⟨words, hlen, rfl, h haccepted⟩

/-- The prefix is right just when every string that is accepted has less than 32 bytes; KMAC has
a function name of its own, and the other operations write no prefix. -/
theorem kmac_prefix_encoding_iff (func_name cust_str : KmacString) (past : List BusAccess) :
    (PrefixMeetsSpec (kmacWritePrefixBlock .CSHAKE func_name cust_str) func_name.bytes
        cust_str.bytes past ↔
      (PrefixAccepted func_name cust_str →
        func_name.len.toNat < 32 ∧ cust_str.len.toNat < 32)) ∧
    (PrefixMeetsSpec (kmacWritePrefixBlock .KMAC func_name cust_str) [0x4b, 0x4d, 0x41, 0x43]
        cust_str.bytes past ↔
      (PrefixAccepted kmacFuncName cust_str → cust_str.len.toNat < 32)) ∧
    (kmacWritePrefixBlock .SHA3 func_name cust_str).run past = .ok .ok past ∧
    (kmacWritePrefixBlock .SHAKE func_name cust_str).run past = .ok .ok past := by
  refine ⟨prefixMeetsSpec_iff func_name cust_str past, ?_, rfl, rfl⟩
  refine (prefixMeetsSpec_iff kmacFuncName cust_str past).trans ?_
  exact imp_congr_right fun _ => and_iff_right (by decide)

/-- A customization string of 32 bytes is accepted, and its length `0x100` is written as
`00 01`. -/
theorem kmac_prefix_of_32_bytes :
    let N : KmacString := ⟨0, none, fun bytes h => absurd h (Option.not_mem_none bytes)⟩
    let S : KmacString := ⟨32, some (List.replicate 32 0), by simp⟩
    PrefixAccepted N S ∧ (prefixBytes N S).take 5 = [1, 0, 2, 0, 1] ∧
      (prefixSpec N.bytes S.bytes).take 5 = [1, 0, 2, 1, 0] ∧
      ¬PrefixMeetsSpec (kmacWritePrefixBlock .CSHAKE N S) N.bytes S.bytes [] := by
  intro N S
  have haccepted : PrefixAccepted N S :=
    ⟨fun h => h.elim (fun h => Option.some_ne_none _ h.2) fun h => h.1 rfl, by decide⟩
  refine ⟨haccepted, by decide, by decide, fun h => ?_⟩
  have hlens := (prefixMeetsSpec_iff N S []).1 h haccepted
  exact absurd hlens.2 (by decide)

end SecureBoot
