import Mathlib.Tactic.Common

/-! EMSA-PKCS1-v1_5 of RFC 8017, section 9.2, over octet strings. The hash is
left to the caller: the encoding takes the `DigestInfo` prefix of the hash
algorithm and the digest. -/

namespace Pkcs1

abbrev Octet := BitVec 8

/-- The octets that separate the padding from the frame: `0x00 0x01 PS 0x00`. -/
def frame (psLen : ℕ) : List Octet := [0x00, 0x01] ++ List.replicate psLen 0xff ++ [0x00]

/-- `EMSA-PKCS1-v1_5-ENCODE` with `T = digestInfo || digest`; `none` is "intended
encoded message length too short". -/
def emsaPkcs1V15 (emLen : ℕ) (digestInfo digest : List Octet) : Option (List Octet) :=
  let t := digestInfo ++ digest
  if emLen < t.length + 11 then none else some (frame (emLen - t.length - 3) ++ t)

/-- The `DigestInfo` prefix of SHA-256. -/
def sha256DigestInfo : List Octet :=
  [0x30, 0x31, 0x30, 0x0d, 0x06, 0x09, 0x60, 0x86, 0x48, 0x01, 0x65, 0x03, 0x04, 0x02, 0x01, 0x05,
    0x00, 0x04, 0x20]

/-- With room for eight octets of padding the encoding is the frame, `PS` filling
what `T` leaves. -/
theorem emsaPkcs1V15_eq_some {emLen psLen : ℕ} {digestInfo digest : List Octet} (hps : 8 ≤ psLen)
    (hlen : emLen = psLen + 3 + (digestInfo.length + digest.length)) :
    emsaPkcs1V15 emLen digestInfo digest = some (frame psLen ++ (digestInfo ++ digest)) := by
  simp only [emsaPkcs1V15, List.length_append]
  rw [if_neg (by omega), show emLen - (digestInfo.length + digest.length) - 3 = psLen by omega]

end Pkcs1
