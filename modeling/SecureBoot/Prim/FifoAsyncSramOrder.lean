import SecureBoot.Prim.FifoAsyncSram

/-! The FIFO over SRAM delivers what it accepts, in order. The read side is ahead of the reader by
the word that it holds or waits for, and a place in the SRAM is free again only when its word is
delivered. -/

namespace SecureBoot

open Bits Parity Gray Clocked MaskedMem

variable {p : SramFifoParams}

/-! ### Pointers -/

namespace SramFifoParams

theorem dec2gray_eq (x : BitVec p.PtrW) : dec2gray p.Depth x = encode x := by
  have h : ∀ D, D = 2 ^ p.PtrVW → dec2gray D x = encode x := by
    intro D hD
    rw [hD]
    exact dec2gray_eq_encode x
  exact h _ p.ParamCheckDepth_A

theorem gray2dec_eq (x : BitVec p.PtrW) : gray2dec p.Depth (encode x) = x := by
  have h : ∀ D, D = 2 ^ p.PtrVW → gray2dec D (encode x) = x := by
    intro D hD
    rw [hD]
    exact gray2dec_encode x
  exact h _ p.ParamCheckDepth_A

theorem depth_pos : 0 < p.Depth := Nat.lt_of_lt_of_le (by decide) p.MinDepth_A

theorem two_pow_ptrW : 2 ^ p.PtrW = 2 * p.Depth := by
  rw [PtrW, pow_succ', ← p.ParamCheckDepth_A]

theorem sramAddr_ofNat (n : ℕ) : p.sramAddr (BitVec.ofNat _ n) =
    p.SramBaseAddr + BitVec.ofNat _ (n % p.Depth) := by
  have hlt : n % p.Depth < 2 ^ p.SramAw :=
    Nat.lt_of_lt_of_le (Nat.mod_lt n p.depth_pos) p.addressable
  rw [sramAddr, BitVec.setWidth_ofNat_of_le (Nat.le_succ _)]
  congr 1
  apply BitVec.eq_of_toNat_eq
  rw [BitVec.toNat_setWidth, BitVec.toNat_ofNat, BitVec.toNat_ofNat, ← p.ParamCheckDepth_A]

/-- Less than the depth apart, two words have different places. -/
theorem sramAddr_ne {m n : ℕ} (hlt : m < n) (hroom : n < m + p.Depth) :
    p.sramAddr (BitVec.ofNat _ m) ≠ p.sramAddr (BitVec.ofNat _ n) := by
  intro h
  rw [sramAddr_ofNat, sramAddr_ofNat] at h
  have hplace := congrArg BitVec.toNat (BitVec.add_right_inj _ |>.mp h)
  have hle (j : ℕ) : j % p.Depth < 2 ^ p.SramAw :=
    Nat.lt_of_lt_of_le (Nat.mod_lt j p.depth_pos) p.addressable
  rw [BitVec.toNat_ofNat, BitVec.toNat_ofNat, Nat.mod_eq_of_lt (hle m),
    Nat.mod_eq_of_lt (hle n)] at hplace
  have hzero := Nat.sub_mod_eq_zero_of_mod_eq hplace.symm
  rw [Nat.mod_eq_of_lt (by omega)] at hzero
  omega

/-- A pointer is full against another when the counts differ by the depth. -/
theorem ofNat_eq_xor_iff {a b : ℕ} (hle : a ≤ b) (hbound : b ≤ a + p.Depth) :
    BitVec.ofNat p.PtrW b = BitVec.ofNat p.PtrW a ^^^ fifoXorMask p.PtrW ↔ b = a + p.Depth := by
  have hpow : p.Depth = 2 ^ p.PtrVW := p.ParamCheckDepth_A
  rw [ofNat_eq_xor_fifoXorMask_iff rfl hle (hpow ▸ hbound), ← hpow]

end SramFifoParams

/-! ### The two sides -/

/-- The write side after `n` words accepted; what it knows of the words delivered is `b₁` in the
first flop, then `b₂`. -/
structure SramFifoWrAt (s : SramFifoWr p) (n b₁ b₂ : ℕ) : Prop where
  wptr : s.w_wptr_q = BitVec.ofNat _ n
  wptrGray : s.w_wptr_gray_q = encode (BitVec.ofNat _ n)
  intq : s.u_sync_rptr_gray.intq = encode (BitVec.ofNat _ b₁)
  q : s.u_sync_rptr_gray.q = encode (BitVec.ofNat _ b₂)

/-- The read side after `n` words delivered and `f` words fetched; what it knows of the words
accepted is `a₁` in the first flop, then `a₂`. -/
structure SramFifoRdAt (s : SramFifoRd p) (n f a₁ a₂ : ℕ) : Prop where
  rptr : s.r_rptr_q = BitVec.ofNat _ n
  rptrGray : s.r_rptr_gray_q = encode (BitVec.ofNat _ n)
  intq : s.u_sync_wptr_gray.intq = encode (BitVec.ofNat _ a₁)
  q : s.u_sync_wptr_gray.q = encode (BitVec.ofNat _ a₂)
  sramRptr : s.r_sram_rptr = BitVec.ofNat _ f
  /-- The SRAM does not answer while a word is stored. -/
  one : (s.stored && s.r_sram_rvalid_i) = false
  fetched : f = n + s.stored.toNat + s.r_sram_rvalid_i.toNat

section Sides

variable {s : SramFifoWr p} {r : SramFifoRd p} {i : SramFifoRdIn p} {n f x a₁ a₂ b₁ b₂ : ℕ}
  {mem : BitVec p.SramAw → BitVec p.SramDw}

theorem SramFifoWrAt.w_full (h : SramFifoWrAt s n b₁ b₂) (hle : b₂ ≤ n)
    (hn : n ≤ b₂ + p.Depth) : s.w_full = decide (n = b₂ + p.Depth) := by
  rw [SramFifoWr.w_full, SramFifoWr.w_rptr, h.wptr, h.q, SramFifoParams.gray2dec_eq]
  exact decide_eq_decide.mpr (SramFifoParams.ofNat_eq_xor_iff hle hn)

theorem SramFifoRdAt.r_sramrptr_empty (h : SramFifoRdAt r n f a₁ a₂) (hle : f ≤ a₂)
    (hn : a₂ ≤ f + p.Depth) : r.r_sramrptr_empty = decide (a₂ = f) := by
  rw [SramFifoRd.r_sramrptr_empty, SramFifoRd.r_wptr, h.sramRptr, h.q, SramFifoParams.gray2dec_eq]
  have hpos := p.depth_pos
  have hpow := p.two_pow_ptrW
  exact decide_eq_decide.mpr (ofNat_eq_ofNat_iff hle (by omega))

theorem SramFifoWrAt.wptrGrayNext (h : SramFifoWrAt s n b₁ b₂) (i : SramFifoWrIn p) :
    s.wptrGrayNext i = encode (BitVec.ofNat _ (n + (s.w_wptr_inc i).toNat)) := by
  rw [SramFifoWr.wptrGrayNext]
  cases s.w_wptr_inc i with
  | false => exact h.wptrGray
  | true =>
    rw [if_pos rfl, SramFifoParams.dec2gray_eq, SramFifoWr.w_wptr_d, h.wptr, BitVec.ofNat_add]
    rfl

theorem SramFifoRdAt.rptrGrayNext (h : SramFifoRdAt r n f a₁ a₂) (i : SramFifoRdIn p) :
    r.rptrGrayNext i = encode (BitVec.ofNat _ (n + (r.rfifo_ack i).toNat)) := by
  rw [SramFifoRd.rptrGrayNext]
  cases r.rfifo_ack i with
  | false => exact h.rptrGray
  | true =>
    rw [if_pos rfl, SramFifoParams.dec2gray_eq, SramFifoRd.r_rptr_d, h.rptr, BitVec.ofNat_add]
    rfl

/-- An edge of the write clock. -/
theorem SramFifoWrAt.clock (h : SramFifoWrAt s n b₁ b₂) (i : SramFifoWrIn p)
    {rptrGray : BitVec p.PtrW} (hx : rptrGray = encode (BitVec.ofNat _ x)) :
    SramFifoWrAt (s.clock i rptrGray) (n + (s.w_wptr_inc i).toNat) x b₁ where
  wptr := by
    rw [SramFifoWr.clock]
    cases s.w_wptr_inc i with
    | false => exact h.wptr
    | true => simp only [if_true, SramFifoWr.w_wptr_d, h.wptr, Bool.toNat_true, BitVec.ofNat_add]
  wptrGray := h.wptrGrayNext i
  intq := hx
  q := h.intq

/-- An edge of the read clock. -/
theorem SramFifoRdAt.clock (h : SramFifoRdAt r n f a₁ a₂) (i : SramFifoRdIn p)
    {wptrGray : BitVec p.PtrW} (hx : wptrGray = encode (BitVec.ofNat _ x)) :
    SramFifoRdAt (r.clock i wptrGray mem) (n + (r.rfifo_ack i).toNat)
      (f + (r.rsram_ack i).toNat) x a₁ where
  rptr := by
    rw [SramFifoRd.clock]
    cases r.rfifo_ack i with
    | false => exact h.rptr
    | true => simp only [if_true, SramFifoRd.r_rptr_d, h.rptr, Bool.toNat_true, BitVec.ofNat_add]
  rptrGray := h.rptrGrayNext i
  intq := hx
  q := h.intq
  sramRptr := by
    rw [SramFifoRd.clock]
    cases r.rsram_ack i with
    | false => exact h.sramRptr
    | true => simp only [if_true, h.sramRptr, Bool.toNat_true, BitVec.ofNat_add]
  one := by
    have hone := h.one
    obtain ⟨_, _, _, _, stored, _, rvalid, _⟩ := r
    obtain ⟨ready, _, _⟩ := i
    cases stored <;> cases rvalid <;> cases ready <;>
      simp_all [SramFifoRd.clock, SramFifoRd.store_en, SramFifoRd.rsram_ack,
        SramFifoRd.r_sram_req_o, SramFifoRd.rfifo_ack, SramFifoRd.rvalid_o]
  fetched := by
    have hone := h.one
    have hfetched := h.fetched
    obtain ⟨_, _, _, _, stored, _, rvalid, _⟩ := r
    obtain ⟨ready, _, _⟩ := i
    cases stored <;> cases rvalid <;> cases ready <;>
      simp_all [SramFifoRd.clock, SramFifoRd.store_en, SramFifoRd.rsram_ack,
        SramFifoRd.r_sram_req_o, SramFifoRd.rfifo_ack, SramFifoRd.rvalid_o]

/-- A word is fetched only if the read side knows of one. -/
theorem SramFifoRdAt.rsram_ack (h : SramFifoRdAt r n f a₁ a₂) (hle : f ≤ a₂)
    (hn : a₂ ≤ f + p.Depth) (hack : r.rsram_ack i = true) : f < a₂ := by
  have hempty : r.r_sramrptr_empty = false := by
    by_contra hempty
    simp [SramFifoRd.rsram_ack, SramFifoRd.r_sram_req_o, hempty] at hack
  rw [h.r_sramrptr_empty hle hn, decide_eq_false_iff_not] at hempty
  omega

/-- A word is delivered only if it has been fetched. -/
theorem SramFifoRdAt.rfifo_ack (h : SramFifoRdAt r n f a₁ a₂) (hack : r.rfifo_ack i = true) :
    n < f := by
  have hfetched := h.fetched
  have hvalid := (Bool.and_eq_true_iff.mp hack).1
  rw [SramFifoRd.rvalid_o, Bool.or_eq_true] at hvalid
  obtain hvalid | hvalid := hvalid <;> rw [hvalid, Bool.toNat_true] at hfetched <;> omega

/-- What is at the port after an edge was there before, or has just been read, as the first word
that is not delivered. -/
theorem SramFifoRdAt.rdata_o_clock (h : SramFifoRdAt r n f a₁ a₂) {wptrGray : BitVec p.PtrW}
    (hvalid : (r.clock i wptrGray mem).rvalid_o = true) :
    (r.rfifo_ack i = false ∧ r.rvalid_o = true ∧ (r.clock i wptrGray mem).rdata_o = r.rdata_o) ∨
      (r.rsram_ack i = true ∧ f = n + (r.rfifo_ack i).toNat ∧
        (r.clock i wptrGray mem).rdata_o = (mem r.r_sram_addr_o).setWidth p.Width) := by
  have hone := h.one
  have hfetched := h.fetched
  obtain ⟨_, _, _, _, stored, _, rvalid, _⟩ := r
  obtain ⟨ready, _, _⟩ := i
  cases stored <;> cases rvalid <;> cases ready <;>
    simp_all [SramFifoRd.clock, SramFifoRd.rvalid_o, SramFifoRd.rdata_o, SramFifoRd.rdata_d,
      SramFifoRd.store_en, SramFifoRd.rsram_ack, SramFifoRd.r_sram_req_o, SramFifoRd.rfifo_ack,
      SramFifoRd.r_sram_addr_o]

/-- A fetched word is held while the reader does not take it. -/
theorem SramFifoRdAt.held (h : SramFifoRdAt r n f a₁ a₂) {wptrGray : BitVec p.PtrW}
    (hvalid : r.rvalid_o = true) (hready : i.rready_i = false) :
    (r.clock i wptrGray mem).rvalid_o = true ∧
      (r.clock i wptrGray mem).rdata_o = r.rdata_o := by
  have hone := h.one
  obtain ⟨_, _, _, _, stored, _, rvalid, _⟩ := r
  cases stored <;> cases rvalid <;>
    simp_all [SramFifoRd.clock, SramFifoRd.rvalid_o, SramFifoRd.rdata_o, SramFifoRd.rdata_d,
      SramFifoRd.store_en, SramFifoRd.rfifo_ack]

end Sides

/-! ### Steps -/

/-- The counts: what a side knows of the other side's count only lags behind, and the write side
stays within the depth of what it knows. -/
structure SramFifoCounts (Depth nW nR f a₁ a₂ b₁ b₂ : ℕ) : Prop where
  nR_le : nR ≤ f
  f_le : f ≤ a₂
  a₂_le : a₂ ≤ a₁
  a₁_le : a₁ ≤ nW
  b₂_le : b₂ ≤ b₁
  b₁_le : b₁ ≤ nR
  nW_le : nW ≤ b₂ + Depth

/-- The counts after `w` words accepted, `r` delivered and `g` fetched. -/
theorem SramFifoCounts.step {Depth nW nR f a₁ a₂ b₁ b₂ w r g x y : ℕ}
    (h : SramFifoCounts Depth nW nR f a₁ a₂ b₁ b₂) (hw : w = 0 ∨ w = 1 ∧ nW < b₂ + Depth)
    (hr : r = 0 ∨ r = 1 ∧ nR < f) (hg : g = 0 ∨ g = 1 ∧ f < a₂) (hx : x = nW ∨ x = nW + w)
    (hy : y = nR ∨ y = nR + r) (rd wr : Bool) :
    SramFifoCounts Depth (nW + w) (nR + r) (f + g) (if rd then x else a₁) (if rd then a₁ else a₂)
      (if wr then y else b₁) (if wr then b₁ else b₂) := by
  obtain ⟨h₁, h₂, h₃, h₄, h₅, h₆, h₇⟩ := h
  split_ifs <;> constructor <;> omega

/-- The word in the place of the `j`-th one. -/
def SramFifo.word (s : SramFifo p) (j : ℕ) : BitVec p.Width :=
  (s.mem (p.sramAddr (BitVec.ofNat _ j))).setWidth p.Width

/-- The invariant of the FIFO. -/
structure SramFifoInv (s : SramFifo p) (f a₁ a₂ b₁ b₂ : ℕ) : Prop where
  wr : SramFifoWrAt s.wr s.accepted.length b₁ b₂
  rd : SramFifoRdAt s.rd s.delivered.length f a₁ a₂
  counts : SramFifoCounts p.Depth s.accepted.length s.delivered.length f a₁ a₂ b₁ b₂
  /-- The words not delivered yet are in their places. -/
  mem : ∀ j, s.delivered.length ≤ j → j < s.accepted.length → s.accepted[j]? = some (s.word j)
  /-- The first of them is at the port once it is there. -/
  rdata : s.rd.rvalid_o = true → s.accepted[s.delivered.length]? = some s.rd.rdata_o
  delivered : s.delivered <+: s.accepted

/-- The masked write of a word. -/
theorem setWidth_merge {w d : ℕ} (hle : w ≤ d) (x : BitVec w) (old : BitVec d) :
    (merge ((BitVec.allOnes w).setWidth d) (x.setWidth d) old).setWidth w = x := by
  apply BitVec.eq_of_getLsbD_eq
  intro j hj
  rw [BitVec.getLsbD_setWidth, getLsbD_merge, BitVec.getLsbD_setWidth, BitVec.getLsbD_setWidth,
    BitVec.getLsbD_allOnes]
  simp [hj, show j < d by omega]

namespace SramFifo

variable (s : SramFifo p) (e : SramFifoEvent p)

/-- The words accepted, delivered and fetched by an event. -/
def wrCount : ℕ :=
  match e.wr with
  | none => 0
  | some i => (s.wr.w_wptr_inc i).toNat

def rdCount : ℕ :=
  match e.rd with
  | none => 0
  | some i => (s.rd.rfifo_ack i).toNat

def fetchCount : ℕ :=
  match e.rd with
  | none => 0
  | some i => (s.rd.rsram_ack i).toNat

theorem length_accepted_step :
    (s.step e).accepted.length = s.accepted.length + s.wrCount e := by
  rw [step, List.length_append, wrCount]
  cases e.wr with
  | none => rfl
  | some i => cases hinc : s.wr.w_wptr_inc i <;> simp [hinc]

theorem length_delivered_step :
    (s.step e).delivered.length = s.delivered.length + s.rdCount e := by
  rw [step, List.length_append, rdCount]
  cases e.rd with
  | none => rfl
  | some i => cases hack : s.rd.rfifo_ack i <;> simp [hack]

/-- The words accepted before the event are still there after it. -/
theorem getElem?_accepted_step {j : ℕ} {x : BitVec p.Width} (hx : s.accepted[j]? = some x) :
    (s.step e).accepted[j]? = some x := by
  have hlt : j < s.accepted.length := (List.getElem?_eq_some_iff.mp hx).1
  rw [step, List.getElem?_append_left hlt, hx]

end SramFifo

namespace SramFifoInv

open SramFifo

variable {s : SramFifo p} {f a₁ a₂ b₁ b₂ : ℕ} (h : SramFifoInv s f a₁ a₂ b₁ b₂)
  (e : SramFifoEvent p)

include h

/-- A word is accepted only below the depth. -/
theorem wrCount_le : s.wrCount e = 0 ∨ s.wrCount e = 1 ∧ s.accepted.length < b₂ + p.Depth := by
  obtain ⟨h₁, h₂, h₃, h₄, h₅, h₆, h₇⟩ := h.counts
  rw [wrCount]
  cases e.wr with
  | none => exact Or.inl rfl
  | some i =>
    simp only [SramFifoWr.w_wptr_inc, SramFifoWr.wready_o, h.wr.w_full (by omega) h₇]
    by_cases hfull : s.accepted.length = b₂ + p.Depth
    · simp [hfull]
    · cases i.wvalid_i <;> cases i.w_sram_gnt_i <;> simp [hfull]
      omega

theorem rdCount_le : s.rdCount e = 0 ∨ s.rdCount e = 1 ∧ s.delivered.length < f := by
  rw [rdCount]
  cases e.rd with
  | none => exact Or.inl rfl
  | some i =>
    cases hack : s.rd.rfifo_ack i with
    | false => exact Or.inl (by simp [hack])
    | true => exact Or.inr ⟨by simp [hack], h.rd.rfifo_ack hack⟩

theorem fetchCount_le : s.fetchCount e = 0 ∨ s.fetchCount e = 1 ∧ f < a₂ := by
  obtain ⟨h₁, h₂, h₃, h₄, h₅, h₆, h₇⟩ := h.counts
  rw [fetchCount]
  cases e.rd with
  | none => exact Or.inl rfl
  | some i =>
    cases hack : s.rd.rsram_ack i with
    | false => exact Or.inl (by simp [hack])
    | true => exact Or.inr ⟨by simp [hack], h.rd.rsram_ack h₂ (by omega) hack⟩

/-- The read clock samples the count of words accepted before the event, or after it. -/
theorem sampledWptr_eq : ∃ x, s.sampledWptr e = encode (BitVec.ofNat _ x) ∧
    (x = s.accepted.length ∨ x = s.accepted.length + s.wrCount e) := by
  rw [sampledWptr, wrCount]
  cases e.wr with
  | none => exact ⟨_, h.wr.wptrGray, Or.inl rfl⟩
  | some i =>
    simp only [h.wr.wptrGray, h.wr.wptrGrayNext]
    obtain hold | hnew := sample_eq e.lateWptr
      (weight_encode_ofNat_le p.PtrW s.accepted.length (s.wr.w_wptr_inc i).toNat_le)
    · exact ⟨_, hold, Or.inl rfl⟩
    · exact ⟨_, hnew, Or.inr rfl⟩

/-- The write clock samples the count of words delivered before the event, or after it. -/
theorem sampledRptr_eq : ∃ y, s.sampledRptr e = encode (BitVec.ofNat _ y) ∧
    (y = s.delivered.length ∨ y = s.delivered.length + s.rdCount e) := by
  rw [sampledRptr, rdCount]
  cases e.rd with
  | none => exact ⟨_, h.rd.rptrGray, Or.inl rfl⟩
  | some i =>
    simp only [h.rd.rptrGray, h.rd.rptrGrayNext]
    obtain hold | hnew := sample_eq e.lateRptr
      (weight_encode_ofNat_le p.PtrW s.delivered.length (s.rd.rfifo_ack i).toNat_le)
    · exact ⟨_, hold, Or.inl rfl⟩
    · exact ⟨_, hnew, Or.inr rfl⟩

/-- A write goes to a place that no word waits in. -/
theorem mem_step (j : ℕ) (hge : s.delivered.length ≤ j)
    (hlt : j < s.accepted.length + s.wrCount e) :
    (s.step e).accepted[j]? = some ((s.step e).word j) := by
  obtain ⟨h₁, h₂, h₃, h₄, h₅, h₆, h₇⟩ := h.counts
  have hcount := h.wrCount_le e
  rw [wrCount] at hlt hcount
  simp only [step, word]
  cases hwr : e.wr with
  | none =>
    rw [hwr] at hlt
    simp only [List.append_nil]
    exact h.mem j hge hlt
  | some i =>
    simp only [hwr] at hlt hcount
    have hreq : (s.wr.w_sram_req_o i && i.w_sram_gnt_i) = s.wr.w_wptr_inc i := by
      rw [SramFifoWr.w_sram_req_o, SramFifoWr.w_wptr_inc, SramFifoWr.wready_o, Bool.and_assoc]
    simp only [hreq]
    cases hinc : s.wr.w_wptr_inc i with
    | false =>
      rw [hinc] at hlt
      simp only [Bool.false_eq_true, if_false, List.append_nil]
      exact h.mem j hge hlt
    | true =>
      rw [hinc] at hlt hcount
      simp only [if_true, Write.apply, SramFifoWr.w_sram, h.wr.wptr]
      obtain hold | heq := Nat.lt_succ_iff_lt_or_eq.mp hlt
      · have hroom : s.accepted.length < j + p.Depth := by
          simp at hcount
          omega
        rw [List.getElem?_append_left hold,
          Function.update_of_ne (SramFifoParams.sramAddr_ne hold hroom), h.mem j hge hold, word]
      · rw [heq, List.getElem?_append_right (Nat.le_refl _), Nat.sub_self, Function.update_self,
          setWidth_merge p.WidthMatch_A]
        rfl

/-- The port shows the first word that is not delivered. -/
theorem rdata_step (hvalid : (s.step e).rd.rvalid_o = true) :
    (s.step e).accepted[s.delivered.length + s.rdCount e]? = some (s.step e).rd.rdata_o := by
  obtain ⟨h₁, h₂, h₃, h₄, h₅, h₆, h₇⟩ := h.counts
  apply SramFifo.getElem?_accepted_step
  rw [rdCount]
  simp only [step] at hvalid ⊢
  cases hrd : e.rd with
  | none =>
    simp only [hrd] at hvalid
    exact h.rdata hvalid
  | some i =>
    simp only [hrd] at hvalid
    obtain ⟨hack, hbefore, hdata⟩ | ⟨hack, hf, hdata⟩ := h.rd.rdata_o_clock hvalid
    · simp only [hack, hdata]
      exact h.rdata hbefore
    · have hlt := h.rd.rsram_ack h₂ (by omega) hack
      simp only [hdata, SramFifoRd.r_sram_addr_o, h.rd.sramRptr]
      rw [← hf]
      exact h.mem f h₁ (by omega)

/-- What is delivered is the next word accepted. -/
theorem delivered_step : (s.step e).delivered <+: (s.step e).accepted := by
  simp only [step]
  apply List.IsPrefix.trans _ (List.prefix_append _ _)
  cases e.rd with
  | none =>
    simp only [List.append_nil]
    exact h.delivered
  | some i =>
    cases hack : s.rd.rfifo_ack i with
    | false =>
      simp only [hack, Bool.false_eq_true, if_false, List.append_nil]
      exact h.delivered
    | true =>
      have hnext := h.rdata (Bool.and_eq_true_iff.mp hack).1
      simp only [hack, if_true]
      rw [List.prefix_iff_eq_take, List.length_append, List.length_singleton, List.take_add_one,
        hnext, ← List.prefix_iff_eq_take.mp h.delivered]
      rfl

/-- The step of the write side, which samples `y` when its clock has an edge. -/
theorem wr_step {y : ℕ} (hy : s.sampledRptr e = encode (BitVec.ofNat _ y)) :
    SramFifoWrAt (s.step e).wr (s.accepted.length + s.wrCount e)
      (if e.wr.isSome then y else b₁) (if e.wr.isSome then b₁ else b₂) := by
  simp only [step, wrCount]
  cases e.wr with
  | none => exact h.wr
  | some i => exact h.wr.clock i hy

theorem rd_step {x : ℕ} (hx : s.sampledWptr e = encode (BitVec.ofNat _ x)) :
    SramFifoRdAt (s.step e).rd (s.delivered.length + s.rdCount e) (f + s.fetchCount e)
      (if e.rd.isSome then x else a₁) (if e.rd.isSome then a₁ else a₂) := by
  simp only [step, rdCount, fetchCount]
  cases e.rd with
  | none => exact h.rd
  | some i => exact h.rd.clock i hx

protected theorem step : ∃ x y,
    (x = s.accepted.length ∨ x = (s.step e).accepted.length) ∧
    SramFifoInv (s.step e) (f + s.fetchCount e)
      (if e.rd.isSome then x else a₁) (if e.rd.isSome then a₁ else a₂)
      (if e.wr.isSome then y else b₁) (if e.wr.isSome then b₁ else b₂) := by
  obtain ⟨x, hx, hxcases⟩ := h.sampledWptr_eq e
  obtain ⟨y, hy, hycases⟩ := h.sampledRptr_eq e
  have hw := h.wrCount_le e
  have hr := h.rdCount_le e
  have hf := h.fetchCount_le e
  refine ⟨x, y, ?_, ?_, ?_, ?_, ?_, ?_, h.delivered_step e⟩
  · rw [SramFifo.length_accepted_step]
    exact hxcases
  · rw [SramFifo.length_accepted_step]
    exact h.wr_step e hy
  · rw [SramFifo.length_delivered_step]
    exact h.rd_step e hx
  · rw [SramFifo.length_accepted_step, SramFifo.length_delivered_step]
    exact h.counts.step hw hr hf hxcases hycases _ _
  · intro j hge hlt
    rw [SramFifo.length_delivered_step] at hge
    rw [SramFifo.length_accepted_step] at hlt
    exact h.mem_step e j (by omega) hlt
  · rw [SramFifo.length_delivered_step]
    exact h.rdata_step e

/-- A fetched word is held while the reader does not take it. -/
theorem held (hvalid : s.rd.rvalid_o = true) (hready : ∀ i, e.rd = some i → i.rready_i = false) :
    (s.step e).rd.rvalid_o = true ∧ (s.step e).rd.rdata_o = s.rd.rdata_o := by
  simp only [step]
  cases hrd : e.rd with
  | none => exact ⟨hvalid, rfl⟩
  | some i => exact h.rd.held hvalid (hready i hrd)

end SramFifoInv

/-! ### Drains -/

/-- An edge of the read clock at which the reader takes what there is and the SRAM grants. -/
def SramFifoEvent.Drains (e : SramFifoEvent p) : Prop :=
  e.wr = none ∧ ∃ i, e.rd = some i ∧ i.rready_i = true ∧ i.r_sram_gnt_i = true

namespace SramFifoEvent.Drains

open SramFifo

variable {s : SramFifo p} {e : SramFifoEvent p} (he : e.Drains)

include he

theorem accepted_step : (s.step e).accepted = s.accepted := by
  simp [step, he.1]

/-- Where not all is delivered, an edge delivers a word or fetches one. -/
theorem progress {f a₁ a₂ b₁ b₂ : ℕ} (h : SramFifoInv s f a₁ a₂ b₁ b₂)
    (hlt : s.delivered.length < a₂) : 1 ≤ s.rdCount e + s.fetchCount e := by
  obtain ⟨h₁, h₂, h₃, h₄, h₅, h₆, h₇⟩ := h.counts
  obtain ⟨i, hrd, hready, hgnt⟩ := he.2
  have hfetched := h.rd.fetched
  have hempty := h.rd.r_sramrptr_empty h₂ (by omega)
  simp only [rdCount, fetchCount, hrd, SramFifoRd.rfifo_ack, SramFifoRd.rvalid_o,
    SramFifoRd.rsram_ack, SramFifoRd.r_sram_req_o, hready, hgnt, hempty]
  cases hstored : s.rd.stored <;> cases hvalid : s.rd.r_sram_rvalid_i <;>
    simp [hstored, hvalid] at hfetched ⊢
  rw [decide_eq_false (by omega)]
  decide

/-- The write pointer moves through the synchronizer. -/
theorem inv_step {f a₁ a₂ b₁ b₂ : ℕ} (h : SramFifoInv s f a₁ a₂ b₁ b₂) :
    SramFifoInv (s.step e) (f + s.fetchCount e) s.accepted.length a₁ b₁ b₂ := by
  obtain ⟨x, y, hx, hinv⟩ := h.step e
  obtain ⟨i, hrd, -, -⟩ := he.2
  have hacc := he.accepted_step (s := s)
  rw [hacc, or_self] at hx
  rw [hrd, he.1, hx] at hinv
  exact hinv

end SramFifoEvent.Drains

namespace SramFifo

open SramFifoEvent

/-- A synchronized FIFO drains, at two edges a word at most. -/
theorem delivered_drain {s : SramFifo p} {f b₁ b₂ : ℕ} {drain : List (SramFifoEvent p)}
    (hdrain : ∀ e ∈ drain, e.Drains)
    (h : SramFifoInv s f s.accepted.length s.accepted.length b₁ b₂)
    (hlen : 2 * s.accepted.length ≤ s.delivered.length + f + drain.length) :
    (drain.foldl step s).delivered = s.accepted := by
  induction drain generalizing s f with
  | nil =>
    obtain ⟨h₁, h₂, -, -, -, -, -⟩ := h.counts
    rw [List.length_nil] at hlen
    exact h.delivered.eq_of_length (by omega)
  | cons e drain ih =>
    rw [List.forall_mem_cons] at hdrain
    obtain ⟨he, hdrain⟩ := hdrain
    obtain ⟨h₁, h₂, -, -, -, -, -⟩ := h.counts
    have hacc := he.accepted_step (s := s)
    have hinv := he.inv_step h
    rw [← hacc] at hinv ⊢
    apply ih hdrain hinv
    rw [List.length_cons] at hlen
    rw [hacc, SramFifo.length_delivered_step]
    by_cases hlt : s.delivered.length < s.accepted.length
    · have hprogress := he.progress h hlt
      omega
    · omega

/-! ### Runs -/

section Run

variable (mem : BitVec p.SramAw → BitVec p.SramDw) (r_sram_rdata_i : BitVec p.SramDw)

theorem sramFifoInv_init : SramFifoInv (init mem r_sram_rdata_i) 0 0 0 0 0 where
  wr := by
    constructor <;> simp [init, encode_zero]
  rd := by
    constructor <;> simp [init, encode_zero]
  counts := by
    constructor <;> simp [init]
  mem j hge hlt := by
    simp [init] at hlt
  rdata hvalid := by
    simp [init, SramFifoRd.rvalid_o] at hvalid
  delivered := List.prefix_refl []

theorem sramFifoInv_run (events : List (SramFifoEvent p)) :
    ∃ f a₁ a₂ b₁ b₂, SramFifoInv (run mem r_sram_rdata_i events) f a₁ a₂ b₁ b₂ := by
  induction events using List.reverseRecOn with
  | nil => exact ⟨0, 0, 0, 0, 0, sramFifoInv_init mem r_sram_rdata_i⟩
  | append_singleton events e ih =>
    obtain ⟨f, a₁, a₂, b₁, b₂, h⟩ := ih
    obtain ⟨x, y, -, hstep⟩ := h.step e
    rw [run, List.foldl_append]
    exact ⟨_, _, _, _, _, hstep⟩

/-- Once nothing more is written and the reader and the SRAM are ready, all that has been accepted
is delivered. -/
theorem delivered_run_drain (events : List (SramFifoEvent p)) {drain : List (SramFifoEvent p)}
    (hdrain : ∀ e ∈ drain, e.Drains)
    (hlen : 2 * (run mem r_sram_rdata_i events).accepted.length + 2 ≤ drain.length) :
    (run mem r_sram_rdata_i (events ++ drain)).delivered =
      (run mem r_sram_rdata_i events).accepted := by
  obtain ⟨f, a₁, a₂, b₁, b₂, h⟩ := sramFifoInv_run mem r_sram_rdata_i events
  rw [run, List.foldl_append]
  change (drain.foldl step (run mem r_sram_rdata_i events)).delivered = _
  generalize run mem r_sram_rdata_i events = s at h hlen ⊢
  match drain with
  | [] => simp at hlen
  | [_] => simp at hlen
  | e₁ :: e₂ :: drain =>
    simp only [List.forall_mem_cons] at hdrain
    obtain ⟨he₁, he₂, hdrain⟩ := hdrain
    have hinv := he₂.inv_step (he₁.inv_step h)
    have hacc : ((s.step e₁).step e₂).accepted = s.accepted := by
      rw [he₂.accepted_step, he₁.accepted_step]
    rw [he₁.accepted_step, ← hacc] at hinv
    rw [List.foldl_cons, List.foldl_cons, ← hacc]
    apply delivered_drain hdrain hinv
    simp only [List.length_cons] at hlen
    rw [hacc]
    omega

end Run

end SramFifo

/-- The words delivered are the words accepted, in order. A word that is not delivered is in its
place in the SRAM, and once fetched it is at the port as the next one and stays there until it is
taken. All of them are delivered once nothing more is written and the reader and the SRAM are
ready. -/
theorem fifo_async_sram_in_order (p : SramFifoParams) (mem : BitVec p.SramAw → BitVec p.SramDw)
    (r_sram_rdata_i : BitVec p.SramDw) (events : List (SramFifoEvent p)) :
    let s := SramFifo.run mem r_sram_rdata_i events
    s.delivered <+: s.accepted ∧
    s.accepted.length ≤ s.delivered.length + p.Depth ∧
    (∀ j, s.delivered.length ≤ j → j < s.accepted.length → s.accepted[j]? = some (s.word j)) ∧
    (∀ e i, e.rd = some i → s.rd.rsram_ack i = true → (s.step e).rd.rvalid_o = true) ∧
    (s.rd.rvalid_o = true → s.accepted[s.delivered.length]? = some s.rd.rdata_o ∧
      ∀ e : SramFifoEvent p, (∀ i, e.rd = some i → i.rready_i = false) →
        (s.step e).rd.rvalid_o = true ∧ (s.step e).rd.rdata_o = s.rd.rdata_o) ∧
    ∀ drain : List (SramFifoEvent p), (∀ e ∈ drain, e.Drains) →
      2 * s.accepted.length + 2 ≤ drain.length →
      (SramFifo.run mem r_sram_rdata_i (events ++ drain)).delivered = s.accepted := by
  intro s
  obtain ⟨f, a₁, a₂, b₁, b₂, h⟩ : ∃ f a₁ a₂ b₁ b₂, SramFifoInv s f a₁ a₂ b₁ b₂ :=
    SramFifo.sramFifoInv_run mem r_sram_rdata_i events
  obtain ⟨h₁, h₂, h₃, h₄, h₅, h₆, h₇⟩ := h.counts
  refine ⟨h.delivered, by omega, h.mem, ?_, ?_, ?_⟩
  · intro e i hrd hack
    simp [SramFifo.step, hrd, SramFifoRd.rvalid_o, SramFifoRd.clock, hack]
  · intro hvalid
    exact ⟨h.rdata hvalid, fun e hready => h.held e hvalid hready⟩
  · intro drain hdrain hlen
    exact SramFifo.delivered_run_drain mem r_sram_rdata_i events hdrain hlen

end SecureBoot
