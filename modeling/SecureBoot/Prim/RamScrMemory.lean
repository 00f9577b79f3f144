import SecureBoot.Prim.RamScr

/-! The scrambled memory as a memory. What is in the macro, descrambled, is the memory's
content but for one write that waits for the macro; a read finds that write in its holding
registers. -/

namespace SecureBoot

open MaskedMem

/-! ### Masks and slices -/

/-- The mask has one value on each slice of `n` bits. -/
def UniformMask (n : ℕ) {w : ℕ} (mask : BitVec w) : Prop :=
  ∀ i j, i < w → j < w → i / n = j / n → mask.getLsbD i = mask.getLsbD j

namespace RamScrParams

variable {P : RamScrParams}

/-- The slice of bit `j` of two words is the same. -/
def SameSlice (P : RamScrParams) (x y : BitVec P.Width) (j : ℕ) : Prop :=
  ∀ i < P.Width, i / P.DiffWidth = j / P.DiffWidth → x.getLsbD i = y.getLsbD i

/-- The bits of slice `k`. -/
def slice (x : BitVec P.Width) (k : ℕ) :
    BitVec (min P.DiffWidth (P.Width - k * P.DiffWidth)) :=
  x.extractLsb' (k * P.DiffWidth) _

theorem slice_congr {x y : BitVec P.Width} {j : ℕ} (hpos : 0 < P.DiffWidth)
    (h : P.SameSlice x y j) : slice x (j / P.DiffWidth) = slice y (j / P.DiffWidth) := by
  apply BitVec.eq_of_getLsbD_eq
  intro t ht
  rw [slice, slice, BitVec.getLsbD_extractLsb', BitVec.getLsbD_extractLsb', decide_eq_true ht,
    Bool.true_and, Bool.true_and]
  refine h _ (by omega) ?_
  rw [Nat.add_comm, Nat.add_mul_div_right t _ hpos, Nat.div_eq_of_lt (by omega), Nat.zero_add]

theorem getLsbD_diffuse_congr {x y : BitVec P.Width} {j : ℕ} (Decrypt : Bool) (hj : j < P.Width)
    (hpos : 0 < P.DiffWidth) (h : P.SameSlice x y j) :
    (P.diffuse Decrypt x).getLsbD j = (P.diffuse Decrypt y).getLsbD j := by
  have hslice := slice_congr hpos h
  simp only [slice] at hslice
  rw [diffuse, diffuse, Bits.getLsbD_ofBits hj, Bits.getLsbD_ofBits hj, diffuseSlice, diffuseSlice]
  simp only [hslice]

theorem slice_diffuse (hpos : 0 < P.DiffWidth) (Decrypt : Bool) (x : BitVec P.Width) (k : ℕ) :
    slice (P.diffuse Decrypt x) k =
      primSubstPerm P.NumDiffRounds Decrypt (slice x k) (BitVec.ofNat _ 0) := by
  apply BitVec.eq_of_getLsbD_eq
  intro t ht
  have hdiv : (k * P.DiffWidth + t) / P.DiffWidth = k := by
    rw [Nat.add_comm, Nat.add_mul_div_right t _ hpos, Nat.div_eq_of_lt (by omega), Nat.zero_add]
  have hmod : (k * P.DiffWidth + t) % P.DiffWidth = t := by
    rw [Nat.add_comm, Nat.add_mul_mod_self_right, Nat.mod_eq_of_lt (by omega)]
  rw [slice, BitVec.getLsbD_extractLsb', decide_eq_true ht, Bool.true_and, diffuse,
    Bits.getLsbD_ofBits (by omega), hdiv, hmod, diffuseSlice, BitVec.getLsbD_setWidth,
    decide_eq_true (by omega), Bool.true_and]
  rfl

/-- The two modes undo each other. -/
theorem diffuse_dec_enc (hpos : 0 < P.DiffWidth) (x : BitVec P.Width) :
    P.diffuse true (P.diffuse false x) = x := by
  apply BitVec.eq_of_getLsbD_eq
  intro j hj
  have hlt := Nat.mod_lt j hpos
  have hj' : j / P.DiffWidth * P.DiffWidth + j % P.DiffWidth = j := by
    rw [Nat.mul_comm]
    exact Nat.div_add_mod j P.DiffWidth
  have hslice : slice (P.diffuse true (P.diffuse false x)) (j / P.DiffWidth) =
      slice x (j / P.DiffWidth) := by
    rw [slice_diffuse hpos, slice_diffuse hpos, primSubstPerm_dec_enc]
  have hbit := congrArg (·.getLsbD (j % P.DiffWidth)) hslice
  simp only [slice, BitVec.getLsbD_extractLsb', hj'] at hbit
  rwa [decide_eq_true (by omega), Bool.true_and, Bool.true_and] at hbit

/-- A write with a mask that does not cut slices can be made on scrambled words. -/
theorem diffuse_merge (hpos : 0 < P.DiffWidth) {mask : BitVec P.Width}
    (hmask : UniformMask P.DiffWidth mask) (data old ks : BitVec P.Width) :
    P.diffuse true (merge mask (P.diffuse false (data ^^^ ks)) old) ^^^ ks =
      merge mask data (P.diffuse true old ^^^ ks) := by
  apply BitVec.eq_of_getLsbD_eq
  intro j hj
  rw [BitVec.getLsbD_xor, getLsbD_merge]
  by_cases hset : mask.getLsbD j
  · have hslice : P.SameSlice (merge mask (P.diffuse false (data ^^^ ks)) old)
        (P.diffuse false (data ^^^ ks)) j := by
      intro i hi hij
      rw [getLsbD_merge, hmask i j hi hj hij, if_pos hset]
    rw [if_pos hset, getLsbD_diffuse_congr true hj hpos hslice, diffuse_dec_enc hpos,
      BitVec.getLsbD_xor]
    simp
  · have hslice : P.SameSlice (merge mask (P.diffuse false (data ^^^ ks)) old) old j := by
      intro i hi hij
      rw [getLsbD_merge, hmask i j hi hj hij, if_neg hset]
    rw [if_neg hset, getLsbD_diffuse_congr true hj hpos hslice, BitVec.getLsbD_xor]

/-- The mask cuts neither mask groups nor slices of the diffusion. -/
structure MaskOk (P : RamScrParams) (mask : BitVec P.Width) : Prop where
  groups : UniformMask P.DataBitsPerMask mask
  slices : UniformMask P.DiffWidth mask

theorem macroWrite_eq_merge (hpos : 0 < P.DataBitsPerMask) (hdvd : P.DataBitsPerMask ∣ P.Width)
    {mask : BitVec P.Width} (hmask : UniformMask P.DataBitsPerMask mask)
    (data old : BitVec P.Width) : P.macroWrite mask data old = merge mask data old := by
  apply BitVec.eq_of_getLsbD_eq
  intro j hj
  obtain ⟨n, hn⟩ := hdvd
  have hlt := Nat.mod_lt j hpos
  have hdiv : j / P.DataBitsPerMask < P.Width / P.DataBitsPerMask := by
    rw [hn, Nat.mul_div_cancel_left _ hpos]
    exact Nat.div_lt_of_lt_mul (by rw [← hn]; exact hj)
  have hin : ∀ t < P.DataBitsPerMask,
      j / P.DataBitsPerMask * P.DataBitsPerMask + t < P.Width ∧
        (j / P.DataBitsPerMask * P.DataBitsPerMask + t) / P.DataBitsPerMask =
          j / P.DataBitsPerMask := by
    intro t ht
    constructor
    · have hle := Nat.mul_le_mul_left P.DataBitsPerMask (Nat.succ_le_of_lt hdiv)
      rw [Nat.mul_div_cancel' ⟨n, hn⟩, Nat.mul_succ, Nat.mul_comm] at hle
      omega
    · rw [Nat.add_comm, Nat.add_mul_div_right t _ hpos, Nat.div_eq_of_lt ht, Nat.zero_add]
  have hgroup : (mask.extractLsb' (j / P.DataBitsPerMask * P.DataBitsPerMask) P.DataBitsPerMask ==
      BitVec.allOnes P.DataBitsPerMask) = mask.getLsbD j := by
    rw [Bool.eq_iff_iff, beq_iff_eq]
    constructor
    · intro hall
      have hbit := congrArg (·.getLsbD 0) hall
      simp only [BitVec.getLsbD_extractLsb', BitVec.getLsbD_allOnes] at hbit
      rw [decide_eq_true hpos, Bool.true_and] at hbit
      rw [← hbit]
      exact hmask j _ hj (hin 0 hpos).1 (hin 0 hpos).2.symm
    · intro hset
      apply BitVec.eq_of_getLsbD_eq
      intro t ht
      rw [BitVec.getLsbD_extractLsb', BitVec.getLsbD_allOnes, decide_eq_true ht, Bool.true_and,
        hmask _ j (hin t ht).1 hj (hin t ht).2, hset]
  rw [macroWrite, Bits.getLsbD_ofBits hj, getLsbD_merge]
  simp only [hgroup, decide_eq_true hdiv, Bool.true_and]

/-- The parameters fit: masks and the diffusion have a width, the macro's words consist of
mask groups, and the depth is a power of two if addresses are scrambled. -/
structure Valid (P : RamScrParams) : Prop where
  diffWidth : 0 < P.DiffWidth
  dataBitsPerMask : 0 < P.DataBitsPerMask
  width : P.DataBitsPerMask ∣ P.Width
  depth : P.NumAddrScrRounds = 0 ∨ P.Depth = 2 ^ P.AddrWidth

end RamScrParams

namespace RamScr

variable {P : RamScrParams} (key_i : BitVec 128) (nonce_i : BitVec P.NonceWidth)
  {r : RamScr P} {i : RamScrIn P} {spec : BitVec P.AddrWidth → BitVec P.Width}

/-! ### Addresses and the keystream -/

theorem addrScr_injective : Function.Injective (addrScr nonce_i) := by
  unfold addrScr
  split_ifs with h
  · exact (substPermEquiv P.NumAddrScrRounds _).injective
  · exact fun _ _ h => h

theorem toNat_addrScr_lt (hP : P.Valid) {a : BitVec P.AddrWidth} (ha : a.toNat < P.Depth) :
    (addrScr nonce_i a).toNat < P.Depth := by
  obtain hrounds | hdepth := hP.depth
  · rwa [addrScr, if_neg (by omega)]
  · rw [hdepth]
    exact (addrScr nonce_i a).isLt

/-- The keystream of an address. -/
def addrKeystream (a : BitVec P.AddrWidth) : BitVec P.Width :=
  let keystream : BitVec (P.NumParScr * 64) := Bits.ofBits (P.NumParScr * 64) fun j =>
    (primPrince P.u_prim_prince (princeIn key_i nonce_i true a (j / 64))).getLsbD (j % 64)
  (keystream.replicate P.NumParKeystr).setWidth P.Width

/-- The ciphers have taken the address. -/
def Streams (r : RamScr P) (a : BitVec P.AddrWidth) : Prop :=
  ∀ k, (r.u_prim_prince k).dataStateMiddleQ =
    princeMiddleD P.u_prim_prince (princeIn key_i nonce_i true a k)

theorem keystream_eq {a : BitVec P.AddrWidth} (h : r.Streams key_i nonce_i a) :
    keystream key_i nonce_i r i = addrKeystream key_i nonce_i a := by
  have hdata : ∀ k, princeDataO P.u_prim_prince (princeIn key_i nonce_i i.gnt_o i.addr_i k)
      (r.u_prim_prince k) = primPrince P.u_prim_prince (princeIn key_i nonce_i true a k) := by
    intro k
    simp only [princeDataO, primPrince, princeHalfway, princeBackward,
      RamScrParams.u_prim_prince, Bool.false_eq_true, if_false, if_true]
    rw [h k]
    rfl
  simp only [keystream, addrKeystream, hdata]

theorem streams_clock (hgnt : i.gnt_o = true) :
    (clock key_i nonce_i r i).Streams key_i nonce_i i.addr_i := by
  intro k
  simp [clock, princeClock, princeIn, hgnt]

/-! ### The content -/

/-- What a word of the macro holds for an address. -/
def descramble (a : BitVec P.AddrWidth) (word : BitVec P.Width) : BitVec P.Width :=
  P.diffuse true word ^^^ addrKeystream key_i nonce_i a

def scramble (a : BitVec P.AddrWidth) (data : BitVec P.Width) : BitVec P.Width :=
  P.diffuse false (data ^^^ addrKeystream key_i nonce_i a)

/-- The content of the macro, descrambled. -/
def content (r : RamScr P) (a : BitVec P.AddrWidth) : BitVec P.Width :=
  descramble key_i nonce_i a (r.mem (addrScr nonce_i a))

/-- The write of a cycle. -/
def write (i : RamScrIn P) : Write (BitVec P.AddrWidth) P.Width := ⟨i.addr_i, i.wdata_i, i.wmask_i⟩

/-- Requests are inside of the memory and masks are whole. -/
structure InOk (i : RamScrIn P) : Prop where
  intg_error_i : i.intg_error_i = false
  addr_i : i.req_i = true → i.addr_i.toNat < P.Depth
  wmask_i : i.write_i = true → P.MaskOk i.wmask_i

/-- A write that waits for the macro is in the holding registers. -/
structure Pending (r : RamScr P) (a : BitVec P.AddrWidth) : Prop where
  addr : a.toNat < P.Depth
  waddr_scr_q : r.waddr_scr_q = addrScr nonce_i a
  scrambled : ∀ i, wdata_scr key_i nonce_i r i = scramble key_i nonce_i a r.wdata_q
  one : (r.write_en_q && r.write_pending_q) = false

/-- The macro and the holding registers make up the memory `spec`. -/
structure Inv (r : RamScr P) (spec : BitVec P.AddrWidth → BitVec P.Width) : Prop where
  intg_error_w_q : r.intg_error_w_q = false
  content : (r.write_en_q || r.write_pending_q) = false →
    ∀ a, a.toNat < P.Depth → spec a = r.content key_i nonce_i a
  pending : (r.write_en_q || r.write_pending_q) = true → ∃ a, r.Pending key_i nonce_i a ∧
    P.MaskOk r.wmask_q ∧ ∀ b, b.toNat < P.Depth → spec b =
      if b = a then merge r.wmask_q r.wdata_q (r.content key_i nonce_i b)
      else r.content key_i nonce_i b

/-! ### A cycle -/

theorem gnt_of_read (h : i.read_en = true) : i.gnt_o = true := (Bool.and_eq_true_iff.mp h).1

theorem gnt_of_write (h : i.write_en_d = true) : i.gnt_o = true := (Bool.and_eq_true_iff.mp h).1

theorem not_read_of_write (h : i.write_en_d = true) : i.read_en = false := by
  rw [RamScrIn.read_en, (Bool.and_eq_true_iff.mp h).2, Bool.not_true, Bool.and_false]

theorem not_write_of_read (h : i.read_en = true) : i.write_en_d = false := by
  cases hwrite : i.write_en_d
  · rfl
  · rw [not_read_of_write hwrite] at h
    cases h

/-- Without a read, nothing goes on waiting. -/
theorem write_scr_pending_d_of_not_read (hread : i.read_en = false)
    (hintg : r.intg_error_w_q = false) : r.write_scr_pending_d i = false := by
  simp only [write_scr_pending_d, macro_write, rw_collision, hread, hintg]
  cases r.write_en_q <;> simp

theorem InOk.addr_of_gnt (h : InOk i) (hgnt : i.gnt_o = true) : i.addr_i.toNat < P.Depth :=
  h.addr_i (Bool.and_eq_true_iff.mp hgnt).1

/-- A cycle without a read writes the waiting word. -/
theorem mem_clock_of_pending (hP : P.Valid) {a : BitVec P.AddrWidth}
    (h : r.Pending key_i nonce_i a) (hpending : (r.write_en_q || r.write_pending_q) = true)
    (hintg : r.intg_error_w_q = false) (hintg_i : i.intg_error_i = false)
    (hread : i.read_en = false) : (clock key_i nonce_i r i).mem =
      Function.update r.mem (addrScr nonce_i a) (P.macroWrite r.wmask_q
        (scramble key_i nonce_i a r.wdata_q) (r.mem (addrScr nonce_i a))) := by
  have hwrite : r.macro_write i = true := by
    simp [macro_write, hpending, hread, hintg]
  have hreq : r.macro_req i = true := by
    simp only [macro_req, hintg, hintg_i, Bool.or_assoc, hpending]
    simp
  have haddr : addr_mux nonce_i r i = addrScr nonce_i a := by
    rw [addr_mux, hread, h.waddr_scr_q]
    rfl
  simp only [clock, hreq, hwrite, haddr, Bool.true_and,
    decide_eq_true (toNat_addrScr_lt nonce_i hP h.addr), if_true, h.scrambled]

theorem mem_clock_of_not_pending (hpending : (r.write_en_q || r.write_pending_q) = false) :
    (clock key_i nonce_i r i).mem = r.mem := by
  simp [clock, macro_write, hpending]

theorem content_clock_of_not_read (hP : P.Valid) (h : r.Inv key_i nonce_i spec) (hok : InOk i)
    (hread : i.read_en = false) {a : BitVec P.AddrWidth} (ha : a.toNat < P.Depth) :
    (clock key_i nonce_i r i).content key_i nonce_i a = spec a := by
  cases hpending : r.write_en_q || r.write_pending_q with
  | false =>
    rw [content, mem_clock_of_not_pending key_i nonce_i hpending, h.content hpending a ha, content]
  | true =>
    obtain ⟨b, hb, hmask, hspec⟩ := h.pending hpending
    rw [hspec a ha, content, mem_clock_of_pending key_i nonce_i hP hb hpending h.intg_error_w_q
      hok.intg_error_i hread, RamScrParams.macroWrite_eq_merge hP.dataBitsPerMask hP.width
      hmask.groups]
    by_cases hab : a = b
    · subst hab
      rw [if_pos rfl, Function.update_self, descramble, scramble,
        RamScrParams.diffuse_merge hP.diffWidth hmask.slices]
      rfl
    · rw [if_neg hab, Function.update_of_ne fun heq => hab (addrScr_injective nonce_i heq)]
      rfl

/-- A read leaves the macro as it is. -/
theorem mem_clock_of_read (hread : i.read_en = true) :
    (clock key_i nonce_i r i).mem = r.mem := by
  simp [clock, macro_write, hread]

/-- The write of this cycle waits for the macro. -/
theorem pending_of_write (haddr : i.addr_i.toNat < P.Depth) (hwrite : i.write_en_d = true)
    (hone : r.write_scr_pending_d i = false) :
    (clock key_i nonce_i r i).Pending key_i nonce_i i.addr_i where
  addr := haddr
  waddr_scr_q := by simp [clock, hwrite]
  scrambled := fun j => by
    rw [wdata_scr, wdata_scr_d, keystream_eq key_i nonce_i
      (streams_clock key_i nonce_i (gnt_of_write hwrite))]
    simp [clock, hone, hwrite, scramble]
  one := by simp [clock, hone]

/-- A write that a read comes upon keeps waiting, with its scrambled data. -/
theorem Pending.clock_of_read {a : BitVec P.AddrWidth} (h : r.Pending key_i nonce_i a)
    (hpending : (r.write_en_q || r.write_pending_q) = true) (hread : i.read_en = true) :
    (clock key_i nonce_i r i).Pending key_i nonce_i a ∧
      (clock key_i nonce_i r i).write_pending_q = true ∧
      (clock key_i nonce_i r i).wmask_q = r.wmask_q ∧
      (clock key_i nonce_i r i).wdata_q = r.wdata_q := by
  have hwrite : i.write_en_d = false := not_write_of_read hread
  have hkept : (clock key_i nonce_i r i).write_pending_q = true := by
    simp only [clock, write_scr_pending_d, macro_write, rw_collision, hread]
    cases hen : r.write_en_q <;> simp_all
  have hmask : (clock key_i nonce_i r i).wmask_q = r.wmask_q := by simp [clock, hwrite]
  have hdata : (clock key_i nonce_i r i).wdata_q = r.wdata_q := by simp [clock, hwrite]
  refine ⟨⟨h.addr, ?_, ?_, ?_⟩, hkept, hmask, hdata⟩
  · rw [← h.waddr_scr_q]
    simp [clock, hwrite]
  · intro j
    rw [wdata_scr, hkept, if_pos rfl, hdata, ← h.scrambled i, wdata_scr]
    simp only [clock, rw_collision, hread, Bool.and_true]
    have hone := h.one
    cases hen : r.write_en_q <;> simp_all
  · simp [clock, hwrite]

/-- A read leaves the macro and the holding registers with the memory that they make up. -/
theorem inv_clock_of_read (h : r.Inv key_i nonce_i spec) (hread : i.read_en = true) :
    (clock key_i nonce_i r i).Inv key_i nonce_i spec := by
  have hwrite : i.write_en_d = false := not_write_of_read hread
  have hintg : (clock key_i nonce_i r i).intg_error_w_q = false := by
    simp [clock, hwrite, h.intg_error_w_q]
  have hmem := mem_clock_of_read key_i nonce_i (r := r) hread
  cases hpending : r.write_en_q || r.write_pending_q with
  | false =>
    obtain ⟨hen, hp⟩ := Bool.or_eq_false_iff.mp hpending
    have hclear : ((clock key_i nonce_i r i).write_en_q ||
        (clock key_i nonce_i r i).write_pending_q) = false := by
      simp [clock, hwrite, write_scr_pending_d, rw_collision, hen, hp]
    refine ⟨hintg, fun _ a ha => ?_, fun hp => absurd hp (by rw [hclear]; nofun)⟩
    rw [content, hmem, h.content hpending a ha, content]
  | true =>
    obtain ⟨b, hb, hok_q, hspec⟩ := h.pending hpending
    obtain ⟨hb', hkept, hmask, hdata⟩ := hb.clock_of_read key_i nonce_i hpending hread
    refine ⟨hintg, fun hp => absurd hkept (by rw [(Bool.or_eq_false_iff.mp hp).2]; nofun),
      fun _ => ⟨b, hb', hmask ▸ hok_q, fun a ha => ?_⟩⟩
    rw [hspec a ha, hmask, hdata, content, content, hmem]

/-- A write on top of a memory that is all in the macro. -/
theorem inv_clock_of_write (hok : InOk i) (hwrite : i.write_en_d = true)
    (hempty : r.write_scr_pending_d i = false)
    (hcontent : ∀ a, a.toNat < P.Depth →
      (clock key_i nonce_i r i).content key_i nonce_i a = spec a) :
    (clock key_i nonce_i r i).Inv key_i nonce_i ((write i).apply spec) := by
  have hintg : (clock key_i nonce_i r i).intg_error_w_q = false := by
    simp [clock, hwrite, hok.intg_error_i]
  have hmask : (clock key_i nonce_i r i).wmask_q = i.wmask_i := by simp [clock, hwrite]
  have hdata : (clock key_i nonce_i r i).wdata_q = i.wdata_i := by simp [clock, hwrite]
  have hpending := pending_of_write key_i nonce_i (r := r)
    (hok.addr_of_gnt (gnt_of_write hwrite)) hwrite hempty
  refine ⟨hintg, fun hp => absurd hp (by simp [clock, hwrite]), fun _ => ⟨i.addr_i, hpending,
    hmask ▸ hok.wmask_i (Bool.and_eq_true_iff.mp hwrite).2, fun a ha => ?_⟩⟩
  rw [hmask, hdata, hcontent a ha, Write.apply]
  by_cases hab : a = i.addr_i
  · subst hab
    rw [if_pos rfl, write, Function.update_self]
  · rw [if_neg hab, write, Function.update_of_ne hab]

/-- A memory that is all in the macro, when no request comes. -/
theorem inv_clock_of_idle (hread : i.read_en = false) (hwrite : i.write_en_d = false)
    (hintg : r.intg_error_w_q = false)
    (hcontent : ∀ a, a.toNat < P.Depth →
      (clock key_i nonce_i r i).content key_i nonce_i a = spec a) :
    (clock key_i nonce_i r i).Inv key_i nonce_i spec := by
  have hempty : r.write_scr_pending_d i = false := write_scr_pending_d_of_not_read hread hintg
  have hclear : ((clock key_i nonce_i r i).write_en_q ||
      (clock key_i nonce_i r i).write_pending_q) = false := by
    simp [clock, hwrite, hempty]
  have hintg' : (clock key_i nonce_i r i).intg_error_w_q = false := by simp [clock, hwrite, hintg]
  exact ⟨hintg', fun _ a ha => (hcontent a ha).symm, fun hp => absurd hp (by rw [hclear]; nofun)⟩

theorem inv_clock (hP : P.Valid) (h : r.Inv key_i nonce_i spec) (hok : InOk i) :
    (clock key_i nonce_i r i).Inv key_i nonce_i
      (if i.write_en_d then (write i).apply spec else spec) := by
  cases hread : i.read_en with
  | true =>
    rw [if_neg (by simp [not_write_of_read hread])]
    exact inv_clock_of_read key_i nonce_i h hread
  | false =>
    have hflush := fun (a : BitVec P.AddrWidth) (ha : a.toNat < P.Depth) =>
      content_clock_of_not_read key_i nonce_i hP h hok hread ha
    cases hwrite : i.write_en_d with
    | true =>
      have hempty : r.write_scr_pending_d i = false :=
        write_scr_pending_d_of_not_read hread h.intg_error_w_q
      exact inv_clock_of_write key_i nonce_i hok hwrite hempty hflush
    | false => exact inv_clock_of_idle key_i nonce_i hread hwrite h.intg_error_w_q hflush

/-- A read returns what the memory holds in the cycle of the request. -/
theorem rdata_o_clock (h : r.Inv key_i nonce_i spec) (hok : InOk i) (hread : i.read_en = true)
    (j : RamScrIn P) : (clock key_i nonce_i r i).rvalid_o = true ∧
      rdata_o key_i nonce_i (clock key_i nonce_i r i) j = spec i.addr_i := by
  have ha := hok.addr_of_gnt (gnt_of_read hread)
  have hvalid : (clock key_i nonce_i r i).rvalid_o = true := by
    simp [rvalid_o, clock, hok.intg_error_i, hread]
  have hrdata : rdata key_i nonce_i (clock key_i nonce_i r i) j =
      r.content key_i nonce_i i.addr_i := by
    rw [rdata, keystream_eq key_i nonce_i (streams_clock key_i nonce_i (gnt_of_read hread)),
      content, descramble]
    simp [clock, macro_req, macro_write, addr_mux, hread, h.intg_error_w_q, hok.intg_error_i]
  refine ⟨hvalid, ?_⟩
  rw [rdata_o, if_pos hvalid, hrdata]
  cases hpending : r.write_en_q || r.write_pending_q with
  | false =>
    have hcollision : (clock key_i nonce_i r i).addr_collision_q = false := by
      simp [clock, addr_collision_d, hpending]
    rw [hcollision, if_neg Bool.false_ne_true, h.content hpending _ ha]
  | true =>
    obtain ⟨b, hb, -, hspec⟩ := h.pending hpending
    obtain ⟨-, -, hmask, hdata⟩ := hb.clock_of_read key_i nonce_i hpending hread
    have hcollision : (clock key_i nonce_i r i).addr_collision_q = decide (i.addr_i = b) := by
      simp only [clock, addr_collision_d, hread, hpending, hb.waddr_scr_q, Bool.and_true,
        Bool.true_and]
      rw [Bool.eq_iff_iff, beq_iff_eq, decide_eq_true_eq]
      exact (addrScr_injective nonce_i).eq_iff
    rw [hcollision, hspec _ ha, hmask, hdata]
    simp only [decide_eq_true_eq]

theorem rdata_o_of_idle
    (hpending : (r.write_en_q || r.write_pending_q) = false) (hintg : r.intg_error_w_q = false)
    (j : RamScrIn P) (hi : InOk i) (hread : i.read_en = true) :
    rdata_o key_i nonce_i (clock key_i nonce_i r i) j = r.content key_i nonce_i i.addr_i := by
  have h : r.Inv key_i nonce_i (r.content key_i nonce_i) :=
    ⟨hintg, fun _ _ _ => rfl, fun hp => absurd hp (by rw [hpending]; nofun)⟩
  exact (rdata_o_clock key_i nonce_i h hi hread j).2

/-! ### Runs -/

/-- The granted writes of a run. -/
def writes (events : List (RamScrIn P)) : List (Write (BitVec P.AddrWidth) P.Width) :=
  (events.filter RamScrIn.write_en_d).map write

theorem inv_reset (mem : BitVec P.AddrWidth → BitVec P.Width) (rdata_scr : BitVec P.Width) :
    (reset mem rdata_scr).Inv key_i nonce_i ((reset mem rdata_scr).content key_i nonce_i) :=
  ⟨rfl, fun _ _ _ => rfl, nofun⟩

theorem inv_run (hP : P.Valid) (h : r.Inv key_i nonce_i spec) (events : List (RamScrIn P))
    (hok : ∀ i ∈ events, InOk i) : (events.foldl (clock key_i nonce_i) r).Inv key_i nonce_i
      ((writes events).foldl Write.apply spec) := by
  induction events generalizing r spec with
  | nil => exact h
  | cons i events ih =>
    have hstep := inv_clock key_i nonce_i hP h (hok i List.mem_cons_self)
    have hrun := ih hstep fun i hi => hok i (List.mem_cons_of_mem _ hi)
    rw [List.foldl_cons]
    cases hwrite : i.write_en_d with
    | true => simpa [writes, hwrite] using hrun
    | false => simpa [writes, hwrite] using hrun

end RamScr

open RamScr in
/-- The scrambled memory is a memory. After any run of requests from reset, a read returns in
the next cycle, in each bit, what the last write that enabled the bit at its address has
written, or else the descrambled initial content; other cycles are not answered; and a
cycle without a request leaves all of this in the macro. -/
theorem ram_scr_is_memory (P : RamScrParams) (hP : P.Valid) (key_i : BitVec 128)
    (nonce_i : BitVec P.NonceWidth) (mem : BitVec P.AddrWidth → BitVec P.Width)
    (rdata_scr : BitVec P.Width) (events : List (RamScrIn P)) (hok : ∀ i ∈ events, InOk i) :
    let r₀ : RamScr P := reset mem rdata_scr
    let r := events.foldl (clock key_i nonce_i) r₀
    (∀ i i', InOk i → i.read_en = true → (clock key_i nonce_i r i).rvalid_o = true ∧
      ∀ j, (rdata_o key_i nonce_i (clock key_i nonce_i r i) i').getLsbD j =
        lastBit (r₀.content key_i nonce_i) (writes events) i.addr_i j) ∧
    (∀ i, i.read_en = false → (clock key_i nonce_i r i).rvalid_o = false) ∧
    ∀ i, InOk i → i.gnt_o = false → ∀ a, a.toNat < P.Depth →
      ∀ j, ((clock key_i nonce_i r i).content key_i nonce_i a).getLsbD j =
        lastBit (r₀.content key_i nonce_i) (writes events) a j := by
  intro r₀ r
  have h := inv_run key_i nonce_i hP (inv_reset key_i nonce_i mem rdata_scr) events hok
  refine ⟨fun i i' hi hread => ?_, fun i hread => ?_, fun i hi hgnt a ha j => ?_⟩
  · obtain ⟨hvalid, hdata⟩ := rdata_o_clock key_i nonce_i h hi hread i'
    refine ⟨hvalid, fun j => ?_⟩
    rw [hdata, getLsbD_foldl_apply]
  · simp [rvalid_o, clock, hread]
  · have hread : i.read_en = false := by simp [RamScrIn.read_en, hgnt]
    rw [content_clock_of_not_read key_i nonce_i hP h hi hread ha, getLsbD_foldl_apply]

def writeRequest {P : RamScrParams} (wdata_i wmask_i : BitVec P.Width) : RamScrIn P :=
  ⟨true, true, true, 0, wdata_i, wmask_i, false⟩

def readRequest {P : RamScrParams} : RamScrIn P := ⟨true, true, false, 0, 0, 0, false⟩

def idleRequest {P : RamScrParams} : RamScrIn P := ⟨false, true, false, 0, 0, 0, false⟩

/-- Two bytes a word. -/
def byteWords : RamScrParams where
  Depth := 4
  Width := 16
  DataBitsPerMask := 8
  NumPrinceRoundsHalf := 2
  NumDiffRounds := 2
  DiffWidth := 8
  NumAddrScrRounds := 2
  ReplicateKeyStream := false

theorem valid_byteWords : byteWords.Valid :=
  ⟨by decide, by decide, by decide, .inr (by decide)⟩

theorem RamScr.inOk_writeRequest (addr_i : BitVec byteWords.AddrWidth)
    (wdata_i : BitVec byteWords.Width) :
    InOk { (writeRequest wdata_i 0xff : RamScrIn byteWords) with addr_i } := by
  have hbits : ∀ i < 16, ∀ j < 16, i / 8 = j / 8 →
      (0xff : BitVec 16).getLsbD i = (0xff : BitVec 16).getLsbD j := by decide
  have hmask : UniformMask 8 (0xff : BitVec 16) := fun i j hi hj => hbits i hi j hj
  exact ⟨rfl, fun _ => addr_i.isLt, fun _ => ⟨hmask, hmask⟩⟩

theorem RamScr.inOk_readRequest : InOk (readRequest : RamScrIn byteWords) :=
  ⟨rfl, fun _ => by decide, nofun⟩

open RamScr in
/-- A read right after the write of a byte. -/
theorem ram_scr_is_memory_byte :
    let r₀ : RamScr byteWords := reset (fun _ => 0) 0
    let r := [writeRequest 0x12 0xff].foldl (clock 3 7) r₀
    ∀ j, (rdata_o 3 7 (clock 3 7 r readRequest) idleRequest).getLsbD j =
      lastBit (r₀.content 3 7) (writes [writeRequest 0x12 0xff]) 0 j := by
  have hwrite : InOk (writeRequest 0x12 0xff : RamScrIn byteWords) := inOk_writeRequest 0 0x12
  exact ((ram_scr_is_memory byteWords valid_byteWords 3 7 (fun _ => 0) 0 [writeRequest 0x12 0xff]
    (by simpa using hwrite)).1 readRequest idleRequest inOk_readRequest rfl).2

/-- Mask groups of one bit, under a diffusion of four. -/
def cutSlices : RamScrParams where
  Depth := 2
  Width := 4
  DataBitsPerMask := 1
  NumPrinceRoundsHalf := 2
  NumDiffRounds := 1
  DiffWidth := 4
  NumAddrScrRounds := 0
  ReplicateKeyStream := false

/-- A memory of one word, at a scrambled address. -/
def oneWord : RamScrParams where
  Depth := 1
  Width := 8
  DataBitsPerMask := 8
  NumPrinceRoundsHalf := 2
  NumDiffRounds := 2
  DiffWidth := 8
  NumAddrScrRounds := 2
  ReplicateKeyStream := false

namespace RamScr

theorem exists_getLsbD_ne {w : ℕ} {x : BitVec w} {bits : ℕ → Bool} {y : BitVec w}
    (hy : ∀ j, y.getLsbD j = bits j) (hne : x ≠ y) : ∃ j, x.getLsbD j ≠ bits j := by
  by_contra hall
  apply hne
  apply BitVec.eq_of_getLsbD_eq
  intro j _
  rw [hy j]
  by_contra hbit
  exact hall ⟨j, hbit⟩

/-- A write that destroys bits next to those that it enables. -/
def cutRun : List (RamScrIn cutSlices) := [writeRequest 0 0xf, writeRequest 1 0x1, idleRequest]

theorem cut_slice (ks : BitVec cutSlices.Width) :
    cutSlices.diffuse true (cutSlices.macroWrite 1 (cutSlices.diffuse false (1 ^^^ ks))
      (cutSlices.macroWrite 0xf (cutSlices.diffuse false (0 ^^^ ks)) 0)) ^^^ ks ≠ 1 := by
  revert ks
  change ∀ ks : BitVec 4, _
  decide +kernel

theorem writes_cutRun (m : BitVec cutSlices.AddrWidth → BitVec cutSlices.Width) :
    (writes cutRun).foldl Write.apply m 0 = 1 := by
  have hwrites : writes cutRun = [⟨0, 0, 0xf⟩, ⟨0, 1, 1⟩] := rfl
  rw [hwrites, List.foldl_cons, List.foldl_cons, List.foldl_nil, Write.apply, Function.update_self,
    Write.apply, Function.update_self]
  generalize m 0 = old
  revert old
  change ∀ old : BitVec 4, _
  decide

theorem content_cutRun : (cutRun.foldl (clock 0 0) (reset (fun _ => 0) 0)).content 0 0 0 ≠ 1 := by
  have hvalid : cutSlices.Valid := ⟨by decide, by decide, by decide, .inl rfl⟩
  let r₁ : RamScr cutSlices := clock 0 0 (reset (fun _ => 0) 0) (writeRequest 0 0xf)
  let r₂ : RamScr cutSlices := clock 0 0 r₁ (writeRequest 1 0x1)
  have h₁ : r₁.Pending 0 0 0 := pending_of_write 0 0 (i := writeRequest 0 0xf) (by decide) rfl rfl
  have h₂ : r₂.Pending 0 0 0 := pending_of_write 0 0 (i := writeRequest 1 0x1) (by decide) rfl rfl
  have hmem₁ : r₁.mem = fun _ => 0 := mem_clock_of_not_pending 0 0 rfl
  have hmem₂ := mem_clock_of_pending 0 0 (i := writeRequest 1 0x1) hvalid h₁ rfl rfl rfl rfl
  have hmem₃ := mem_clock_of_pending 0 0 (i := idleRequest) hvalid h₂ rfl rfl rfl rfl
  rw [show r₂.mem = _ from hmem₂, hmem₁, Function.update_self] at hmem₃
  change descramble 0 0 0 ((clock 0 0 r₂ idleRequest).mem (addrScr 0 0)) ≠ 1
  rw [hmem₃, Function.update_self]
  exact cut_slice _

/-- A write that the memory of one word loses. -/
def oneRun : List (RamScrIn oneWord) := [writeRequest 0xff 0xff, idleRequest]

def oneNonce : BitVec oneWord.NonceWidth := BitVec.ofNat _ (2 ^ 63)

/-- The descrambled initial content is zero. -/
def oneReset : RamScr oneWord := reset (fun _ => scramble 0 oneNonce 0 0) 0

theorem writes_oneRun (m : BitVec oneWord.AddrWidth → BitVec oneWord.Width) :
    ((writes oneRun).foldl Write.apply m 0).getLsbD 0 = true := by
  have hwrites : writes oneRun = [⟨0, 0xff, 0xff⟩] := rfl
  rw [hwrites, List.foldl_cons, List.foldl_nil, getLsbD_apply]
  rfl

theorem content_oneRun : (oneRun.foldl (clock 0 oneNonce) oneReset).content 0 oneNonce 0 = 0 := by
  have hmem : (oneRun.foldl (clock 0 oneNonce) oneReset).mem = oneReset.mem := by
    let r₁ : RamScr oneWord := clock 0 oneNonce oneReset (writeRequest 0xff 0xff)
    have hmem₁ : r₁.mem = oneReset.mem := mem_clock_of_not_pending 0 oneNonce rfl
    have haddr : ¬(addr_mux oneNonce r₁ idleRequest).toNat < oneWord.Depth := by decide
    change (clock 0 oneNonce r₁ idleRequest).mem = oneReset.mem
    rw [← hmem₁]
    simp only [clock, haddr, decide_false, Bool.and_false, Bool.false_eq_true, if_false]
  rw [content, hmem]
  change descramble 0 oneNonce 0 (scramble 0 oneNonce 0 0) = 0
  rw [descramble, scramble, RamScrParams.diffuse_dec_enc (by decide)]
  simp

end RamScr

open RamScr in
/-- A mask that cuts a slice of the diffusion destroys the rest of the slice, and a memory
of one word has no word at the address that the nonce leads to. -/
theorem ram_scr_is_no_memory :
    (let r : RamScr cutSlices := reset (fun _ => 0) 0
      ∃ j, (rdata_o 0 0 (clock 0 0 (cutRun.foldl (clock 0 0) r) readRequest) idleRequest).getLsbD j ≠
        lastBit (r.content 0 0) (writes cutRun) 0 j) ∧
    ∃ j, (rdata_o 0 oneNonce (clock 0 oneNonce
        (oneRun.foldl (clock 0 oneNonce) oneReset) readRequest) idleRequest).getLsbD j ≠
      lastBit (oneReset.content 0 oneNonce) (writes oneRun) 0 j := by
  constructor
  · refine exists_getLsbD_ne (getLsbD_foldl_apply _ _ _) ?_
    have hread : InOk (readRequest : RamScrIn cutSlices) := ⟨rfl, fun _ => by decide, nofun⟩
    rw [rdata_o_of_idle 0 0 rfl rfl _ hread rfl]
    rw [writes_cutRun]
    exact content_cutRun
  · refine exists_getLsbD_ne (getLsbD_foldl_apply _ _ _) ?_
    have hread : InOk (readRequest : RamScrIn oneWord) := ⟨rfl, fun _ => by decide, nofun⟩
    rw [rdata_o_of_idle 0 oneNonce rfl rfl _ hread rfl]
    change (oneRun.foldl (clock 0 oneNonce) oneReset).content 0 oneNonce 0 ≠ _
    rw [content_oneRun]
    intro h
    have hbit := writes_oneRun (oneReset.content 0 oneNonce)
    rw [← h] at hbit
    simp at hbit

end SecureBoot
