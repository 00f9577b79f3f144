import SecureBoot.Lib.MaskedMem
import SecureBoot.Prim.Pkg
import SecureBoot.Prim.Prince

/-! `prim_ram_1p_scr`, a memory that holds scrambled data at scrambled addresses. A write
goes to the memory macro one cycle later, or when no read is in its way. The columns of
the macro for parity are left out: they do not take part in the data that is read. -/

namespace SecureBoot

open MaskedMem

structure RamScrParams where
  Depth : ℕ
  Width : ℕ
  DataBitsPerMask : ℕ
  NumPrinceRoundsHalf : ℕ
  NumDiffRounds : ℕ
  DiffWidth : ℕ
  NumAddrScrRounds : ℕ
  ReplicateKeyStream : Bool

namespace RamScrParams

variable (P : RamScrParams)

abbrev AddrWidth : ℕ := vbits P.Depth

abbrev NumParScr : ℕ := if P.ReplicateKeyStream then 1 else (P.Width + 63) / 64

abbrev NumParKeystr : ℕ := if P.ReplicateKeyStream then (P.Width + 63) / 64 else 1

abbrev NonceWidth : ℕ := 64 * P.NumParScr

def u_prim_prince : PrinceParams := ⟨P.NumPrinceRoundsHalf, false, true, false⟩

/-- `gen_diffuse_data`: the substitution and permutation of slice `k`, of which the last one
may be shorter than `DiffWidth`. -/
def diffuseSlice (Decrypt : Bool) (x : BitVec P.Width) (k : ℕ) : BitVec P.DiffWidth :=
  let LocalWidth := min P.DiffWidth (P.Width - k * P.DiffWidth)
  (primSubstPerm P.NumDiffRounds Decrypt (x.extractLsb' (k * P.DiffWidth) LocalWidth)
    (BitVec.ofNat LocalWidth 0)).setWidth P.DiffWidth

def diffuse (Decrypt : Bool) (x : BitVec P.Width) : BitVec P.Width :=
  Bits.ofBits P.Width fun j =>
    (P.diffuseSlice Decrypt x (j / P.DiffWidth)).getLsbD (j % P.DiffWidth)

/-- The macro writes the mask groups all of whose bits are set. -/
def macroWrite (wmask_i wdata_i old : BitVec P.Width) : BitVec P.Width :=
  Bits.ofBits P.Width fun j =>
    let i := j / P.DataBitsPerMask
    if i < P.Width / P.DataBitsPerMask &&
        wmask_i.extractLsb' (i * P.DataBitsPerMask) P.DataBitsPerMask ==
          BitVec.allOnes P.DataBitsPerMask then
      wdata_i.getLsbD j
    else old.getLsbD j

end RamScrParams

structure RamScrIn (P : RamScrParams) where
  key_valid_i : Bool
  req_i : Bool
  write_i : Bool
  addr_i : BitVec P.AddrWidth
  wdata_i : BitVec P.Width
  wmask_i : BitVec P.Width
  intg_error_i : Bool

namespace RamScrIn

variable {P : RamScrParams} (i : RamScrIn P)

def gnt_o : Bool := i.req_i && i.key_valid_i

def read_en : Bool := i.gnt_o && !i.write_i

def write_en_d : Bool := i.gnt_o && i.write_i

end RamScrIn

/-- The registers, and the macro's words and its output. -/
structure RamScr (P : RamScrParams) where
  write_pending_q : Bool
  addr_collision_q : Bool
  rvalid_q : Bool
  write_en_q : Bool
  intg_error_r_q : Bool
  intg_error_w_q : Bool
  raddr_q : BitVec P.AddrWidth
  waddr_scr_q : BitVec P.AddrWidth
  wmask_q : BitVec P.Width
  wdata_q : BitVec P.Width
  wdata_scr_q : BitVec P.Width
  u_prim_prince : ℕ → PrinceRegs
  mem : BitVec P.AddrWidth → BitVec P.Width
  rdata_scr : BitVec P.Width

namespace RamScr

variable {P : RamScrParams} (key_i : BitVec 128) (nonce_i : BitVec P.NonceWidth)

/-- The macro and its output are not reset. -/
def reset (mem : BitVec P.AddrWidth → BitVec P.Width) (rdata_scr : BitVec P.Width) : RamScr P where
  write_pending_q := false
  addr_collision_q := false
  rvalid_q := false
  write_en_q := false
  intg_error_r_q := false
  intg_error_w_q := false
  raddr_q := 0
  waddr_scr_q := 0
  wmask_q := 0
  wdata_q := 0
  wdata_scr_q := 0
  u_prim_prince := fun _ => ⟨0, 0, 0, 0, false⟩
  mem
  rdata_scr

/-- The scrambled address. -/
def addrScr (addr_i : BitVec P.AddrWidth) : BitVec P.AddrWidth :=
  if 0 < P.NumAddrScrRounds then
    primSubstPerm P.NumAddrScrRounds false addr_i
      (nonce_i.extractLsb' (P.NonceWidth - P.AddrWidth) P.AddrWidth)
  else addr_i

/-- The input of cipher `k`, in counter mode. -/
def princeIn (valid_i : Bool) (addr_i : BitVec P.AddrWidth) (k : ℕ) : PrinceIn where
  rst_ni := true
  valid_i
  data_i := (nonce_i.extractLsb' (k * (64 - P.AddrWidth)) (64 - P.AddrWidth) ++ addr_i).setWidth 64
  key_i
  dec_i := false

variable (r : RamScr P) (i : RamScrIn P)

/-- `keystream_repl`. -/
def keystream : BitVec P.Width :=
  let keystream : BitVec (P.NumParScr * 64) := Bits.ofBits (P.NumParScr * 64) fun j =>
    (princeDataO P.u_prim_prince (princeIn key_i nonce_i i.gnt_o i.addr_i (j / 64))
      (r.u_prim_prince (j / 64))).getLsbD (j % 64)
  (keystream.replicate P.NumParKeystr).setWidth P.Width

def wdata_scr_d : BitVec P.Width := P.diffuse false (r.wdata_q ^^^ keystream key_i nonce_i r i)

def rdata : BitVec P.Width := P.diffuse true r.rdata_scr ^^^ keystream key_i nonce_i r i

def addr_collision_d : Bool :=
  i.read_en && (r.write_en_q || r.write_pending_q) && addrScr nonce_i i.addr_i == r.waddr_scr_q

def macro_req : Bool :=
  !r.intg_error_w_q && !i.intg_error_i && (i.read_en || r.write_en_q || r.write_pending_q)

def macro_write : Bool := (r.write_en_q || r.write_pending_q) && !i.read_en && !r.intg_error_w_q

def rw_collision : Bool := r.write_en_q && i.read_en

def addr_mux : BitVec P.AddrWidth :=
  if i.read_en then addrScr nonce_i i.addr_i else r.waddr_scr_q

def write_scr_pending_d : Bool :=
  if r.macro_write i then false else if r.rw_collision i then true else r.write_pending_q

def wdata_scr : BitVec P.Width :=
  if r.write_pending_q then r.wdata_scr_q else wdata_scr_d key_i nonce_i r i

def rvalid_o : Bool := !r.intg_error_r_q && r.rvalid_q

/-- `p_forward_mux`. -/
def rdata_o : BitVec P.Width :=
  if r.rvalid_o then
    if r.addr_collision_q then merge r.wmask_q r.wdata_q (rdata key_i nonce_i r i)
    else rdata key_i nonce_i r i
  else 0

/-- `p_wdata_buf` and the clocked parts of the ciphers and of the macro, where a word
outside of the macro's depth cannot be written. -/
def clock : RamScr P where
  write_pending_q := r.write_scr_pending_d i
  addr_collision_q := addr_collision_d nonce_i r i
  rvalid_q := i.read_en
  write_en_q := i.write_en_d
  intg_error_r_q := i.intg_error_i
  intg_error_w_q := if i.write_en_d then i.intg_error_i else r.intg_error_w_q
  raddr_q := if i.read_en then i.addr_i else r.raddr_q
  waddr_scr_q := if i.write_en_d then addrScr nonce_i i.addr_i else r.waddr_scr_q
  wmask_q := if i.write_en_d then i.wmask_i else r.wmask_q
  wdata_q := if i.write_en_d then i.wdata_i else r.wdata_q
  wdata_scr_q := if r.rw_collision i then wdata_scr_d key_i nonce_i r i else r.wdata_scr_q
  u_prim_prince := fun k =>
    princeClock P.u_prim_prince (princeIn key_i nonce_i i.gnt_o i.addr_i k) (r.u_prim_prince k)
  mem :=
    let addr := addr_mux nonce_i r i
    if r.macro_req i && r.macro_write i && addr.toNat < P.Depth then
      Function.update r.mem addr (P.macroWrite r.wmask_q (wdata_scr key_i nonce_i r i) (r.mem addr))
    else r.mem
  rdata_scr := if r.macro_req i && !r.macro_write i then r.mem (addr_mux nonce_i r i) else r.rdata_scr

end RamScr

end SecureBoot
