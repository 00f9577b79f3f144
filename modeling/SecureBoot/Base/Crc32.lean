import SecureBoot.Base.Memory
import SecureBoot.Lib.Crc

/-! The CRC-32 of the boot code, byte by byte and without a table. A buffer is added in an
unaligned head, aligned words and an unaligned tail; all of them add the bytes of the buffer in
order. -/

namespace SecureBoot

abbrev kCrc32Poly : Word := 0xedb88320

/-! ### The source -/

def crc32Init : Word := wordMax

/-- One iteration of the loop over the bits of a byte. -/
def crc32Shift (ctx : Word) : Word :=
  let lsb := ctx &&& 1
  let ctx := ctx >>> 1
  if lsb ≠ 0 then ctx ^^^ kCrc32Poly else ctx

def crc32Add8 (ctx : Word) (byte : Byte) : Word := crc32Shift^[8] (ctx ^^^ byte.setWidth 32)

def crc32Add32 (ctx word : Word) : Word := word.toBytes.foldl crc32Add8 ctx

/-- The locals of `crc32_add`. -/
structure Crc32Loop where
  ctx : Word
  data : Word
  len : ℕ

section Loops

variable (mem : Word → Byte)

def crc32AddHead (ctx data : Word) : ℕ → Crc32Loop
  | 0 => ⟨ctx, data, 0⟩
  | len + 1 =>
    if data &&& 0x3 ≠ 0 then crc32AddHead (crc32Add8 ctx (mem data)) (data + 1) len
    else ⟨ctx, data, len + 1⟩

def crc32AddBody (ctx data : Word) : ℕ → Crc32Loop
  | len + 4 => crc32AddBody (crc32Add32 ctx (loadWord mem data)) (data + 4) len
  | len => ⟨ctx, data, len⟩

def crc32AddTail (ctx data : Word) : ℕ → Word
  | 0 => ctx
  | len + 1 => crc32AddTail (crc32Add8 ctx (mem data)) (data + 1) len

def crc32Add (ctx buf : Word) (len : ℕ) : Word :=
  let head := crc32AddHead mem ctx buf len
  let body := crc32AddBody mem head.ctx head.data head.len
  crc32AddTail mem body.ctx body.data body.len

def crc32Finish (ctx : Word) : Word := ctx ^^^ wordMax

def crc32 (buf : Word) (len : ℕ) : Word := crc32Finish (crc32Add mem crc32Init buf len)

end Loops

/-! ### The bytes that are added -/

section Loops

variable (mem : Word → Byte)

theorem loadBytes_succ (addr : Word) (n : ℕ) :
    loadBytes mem addr (n + 1) = mem addr :: loadBytes mem (addr + 1) n := by
  rw [Nat.add_comm, loadBytes_add]
  simp [loadBytes]

theorem crc32AddTail_eq (ctx data : Word) (len : ℕ) :
    crc32AddTail mem ctx data len = (loadBytes mem data len).foldl crc32Add8 ctx := by
  induction len generalizing ctx data with
  | zero => rfl
  | succ len ih => rw [crc32AddTail, ih, loadBytes_succ, List.foldl_cons]

/-- What is left to add after the head, and after the body. -/
def Crc32Loop.rest (s : Crc32Loop) : Word := (loadBytes mem s.data s.len).foldl crc32Add8 s.ctx

theorem rest_crc32AddHead (ctx data : Word) (len : ℕ) :
    (crc32AddHead mem ctx data len).rest mem = (loadBytes mem data len).foldl crc32Add8 ctx := by
  induction len generalizing ctx data with
  | zero => rfl
  | succ len ih =>
    rw [crc32AddHead]
    split_ifs
    · rw [ih, loadBytes_succ, List.foldl_cons]
    · rfl

theorem rest_crc32AddBody (ctx data : Word) (len : ℕ) :
    (crc32AddBody mem ctx data len).rest mem = (loadBytes mem data len).foldl crc32Add8 ctx := by
  fun_induction crc32AddBody mem ctx data len with
  | case1 ctx data len ih =>
    have hlen : len.succ.succ.succ.succ = 4 + len := Nat.add_comm len 4
    rw [ih, crc32Add32, toBytes_loadWord, ← List.foldl_append, hlen, loadBytes_add]
    rfl
  | case2 ctx data len _ => rfl

theorem crc32Add_eq (ctx buf : Word) (len : ℕ) :
    crc32Add mem ctx buf len = (loadBytes mem buf len).foldl crc32Add8 ctx := by
  rw [crc32Add, crc32AddTail_eq]
  exact (rest_crc32AddBody mem _ _ _).trans (rest_crc32AddHead mem ctx buf len)

end Loops

/-! ### The standard -/

open Polynomial

/-- The generator polynomial of IEEE 802.3. -/
noncomputable def ieeeGenerator : (ZMod 2)[X] :=
  X ^ 32 + (X ^ 26 + X ^ 23 + X ^ 22 + X ^ 16 + X ^ 12 + X ^ 11 + X ^ 10 + X ^ 8 + X ^ 7 + X ^ 5 +
    X ^ 4 + X ^ 2 + X + 1)

theorem poly_kCrc32Poly : Gf2Poly.poly kCrc32Poly = X ^ 26 + X ^ 23 + X ^ 22 + X ^ 16 + X ^ 12 +
    X ^ 11 + X ^ 10 + X ^ 8 + X ^ 7 + X ^ 5 + X ^ 4 + X ^ 2 + X + 1 := by
  have hbits : (Finset.range 32).filter (fun j => kCrc32Poly.getMsbD j) =
      {0, 1, 2, 4, 5, 7, 8, 10, 11, 12, 16, 22, 23, 26} := by decide
  rw [Gf2Poly.poly, ← Finset.sum_filter, hbits]
  iterate 13 rw [Finset.sum_insert (by decide)]
  rw [Finset.sum_singleton, pow_zero, pow_one]
  abel

theorem modulus_kCrc32Poly : Gf2Poly.modulus kCrc32Poly = ieeeGenerator := by
  rw [Gf2Poly.modulus, poly_kCrc32Poly]
  unfold ieeeGenerator
  with_reducible rfl

theorem crc32Shift_eq (ctx : Word) : crc32Shift ctx = Gf2Poly.mulX kCrc32Poly ctx := by
  have hlsb : ctx &&& 1 = (BitVec.ofBool (ctx.getLsbD 0)).setWidth 32 :=
    BitVec.and_one_eq_setWidth_ofBool_getLsbD
  rw [crc32Shift, Gf2Poly.mulX, hlsb]
  cases ctx.getLsbD 0 with
  | false => exact (BitVec.xor_zero).symm
  | true => rfl

theorem crc32Add8_eq : crc32Add8 = Crc.addByte kCrc32Poly := by
  funext ctx byte
  rw [crc32Add8, Crc.addByte, show crc32Shift = Gf2Poly.mulX kCrc32Poly from funext crc32Shift_eq]

theorem crc32Finish_eq (ctx : Word) : crc32Finish ctx = ~~~ctx := BitVec.xor_allOnes

/-! ### Calls -/

/-- A call that adds bytes; the memory may have changed since the call before. -/
inductive Crc32Call where
  | add (mem : Word → Byte) (buf : Word) (len : ℕ)
  | add8 (byte : Byte)
  | add32 (word : Word)

def Crc32Call.run (ctx : Word) : Crc32Call → Word
  | .add mem buf len => crc32Add mem ctx buf len
  | .add8 byte => crc32Add8 ctx byte
  | .add32 word => crc32Add32 ctx word

def Crc32Call.bytes : Crc32Call → List Byte
  | .add mem buf len => loadBytes mem buf len
  | .add8 byte => [byte]
  | .add32 word => word.toBytes

theorem Crc32Call.run_eq (ctx : Word) (call : Crc32Call) :
    call.run ctx = call.bytes.foldl crc32Add8 ctx := by
  cases call with
  | add mem buf len => exact crc32Add_eq mem ctx buf len
  | add8 byte => rfl
  | add32 word => rfl

theorem foldl_run_eq (ctx : Word) (calls : List Crc32Call) :
    calls.foldl Crc32Call.run ctx = (calls.flatMap Crc32Call.bytes).foldl crc32Add8 ctx := by
  induction calls generalizing ctx with
  | nil => rfl
  | cons call calls ih =>
    rw [List.foldl_cons, ih, Crc32Call.run_eq, List.flatMap_cons, List.foldl_append]

/-- Any calls give the CRC-32 of the bytes they add, which is what one call on a buffer with all
of these bytes gives. -/
theorem crc32_chunks (calls : List Crc32Call) :
    Crc.IsCheck ieeeGenerator (calls.flatMap Crc32Call.bytes)
        (crc32Finish (calls.foldl Crc32Call.run crc32Init)) ∧
      ∀ mem buf len, loadBytes mem buf len = calls.flatMap Crc32Call.bytes →
        crc32 mem buf len = crc32Finish (calls.foldl Crc32Call.run crc32Init) := by
  refine ⟨?_, fun mem buf len h => ?_⟩
  · rw [foldl_run_eq, crc32Finish_eq, crc32Add8_eq, ← modulus_kCrc32Poly]
    exact Crc.isCheck_foldl_addByte kCrc32Poly (by decide) _
  · rw [foldl_run_eq, ← h, crc32, crc32Add_eq]

/-- The check value of the string `123456789`. -/
example : crc32Finish (([0x31, 0x32, 0x33, 0x34, 0x35, 0x36, 0x37, 0x38, 0x39] : List Byte).foldl
    crc32Add8 crc32Init) = 0xcbf43926 := by decide +kernel

end SecureBoot
