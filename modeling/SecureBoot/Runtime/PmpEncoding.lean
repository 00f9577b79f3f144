import SecureBoot.Runtime.Pmp

/-! A region that is configured with success decodes to the request: every register is compared
with what was written, so nothing that an implementation drops goes unnoticed. -/

namespace SecureBoot

open Pmp (Csrs Cfg Regs Warl)

/-! ### Reading back -/

section Writes

variable {warl : Warl} {region : Word} {c : PmpCsrs} (h : region.toNat < 16)

include h

theorem pmpCsrAddressWrite_eq (address : Word) :
    pmpCsrAddressWrite warl region c address =
      (if address >>> 2 =
          (c.regs.writeAddr warl ⟨region.toNat, h⟩ (address >>> 2)).addr ⟨region.toNat, h⟩ then
        .Ok else .WarlError,
      ⟨c.regs.writeAddr warl ⟨region.toNat, h⟩ (address >>> 2), c.writes + 1⟩) := by
  simp only [pmpCsrAddressWrite, pmpAddrCsrWrite, pmpAddrCsrRead, dif_pos h, ne_eq, ite_not]
  split_ifs <;> rfl

theorem pmpCsrCfgFieldWrite_eq (field_value : Word) :
    pmpCsrCfgFieldWrite warl region c field_value =
      let k := Regs.reg ⟨region.toNat, h⟩
      let value :=
        bitfieldField32Write (c.regs.readCfg k) ⟨0xff, 8 * (region.toNat % 4)⟩ field_value
      (if (c.regs.writeCfg warl k value).readCfg k = value then .Ok else .WarlError,
        ⟨c.regs.writeCfg warl k value, c.writes + 1⟩) := by
  have hindex : ((region % 4) * 8).toNat = 8 * (region.toNat % 4) := by
    rw [BitVec.toNat_mul, BitVec.toNat_umod, show (4 : Word).toNat = 4 from rfl,
      show (8 : Word).toNat = 8 from rfl]
    omega
  simp only [pmpCsrCfgFieldWrite, pmpCfgCsrWrite, pmpCfgCsrRead, dif_pos h, hindex, ne_eq, ite_not]
  split_ifs <;> rfl

variable (warl c) in
theorem pmpCsrAddressWrite_ok (address : Word)
    (hok : (pmpCsrAddressWrite warl region c address).1 = .Ok) :
    (pmpCsrAddressWrite warl region c address).2.regs.cfg = c.regs.cfg ∧
      (pmpCsrAddressWrite warl region c address).2.regs.addr =
        Function.update c.regs.addr ⟨region.toNat, h⟩ (address >>> 2) := by
  rw [pmpCsrAddressWrite_eq h] at hok ⊢
  refine ⟨c.regs.cfg_writeAddr warl _ _, ?_⟩
  funext j
  by_cases hj : j = ⟨region.toNat, h⟩
  · subst hj
    rw [Function.update_self]
    by_contra hne
    rw [if_neg (Ne.symm hne)] at hok
    cases hok
  · rw [Function.update_of_ne hj]
    exact c.regs.addr_writeAddr_of_ne warl hj _

theorem pmpCsrCfgFieldWrite_ok {field_value : Word} {b : Byte}
    (hb : field_value = b.setWidth 32)
    (hok : (pmpCsrCfgFieldWrite warl region c field_value).1 = .Ok) :
    (pmpCsrCfgFieldWrite warl region c field_value).2.regs.addr = c.regs.addr ∧
      (pmpCsrCfgFieldWrite warl region c field_value).2.regs.cfg =
        Function.update c.regs.cfg ⟨region.toNat, h⟩ b := by
  rw [pmpCsrCfgFieldWrite_eq h] at hok ⊢
  refine ⟨rfl, Regs.cfg_of_readCfg ?_ fun j hj => c.regs.cfg_writeCfg_of_ne warl hj _⟩
  have hmask : b.setWidth 32 &&& 0xff = b.setWidth 32 := by
    refine BitVec.eq_of_getLsbD_eq fun i hi => ?_
    rw [BitVec.getLsbD_and, Pmp.getLsbD_laneMask, BitVec.getLsbD_setWidth]
    by_cases hlt : i < 8
    · rw [decide_eq_true hlt, Bool.and_true]
    · rw [BitVec.getLsbD_of_ge b i (Nat.not_lt.mp hlt), Bool.and_false, Bool.false_and]
  by_contra hne
  simp only [bitfieldField32Write, hb, hmask] at hok hne
  rw [if_neg hne] at hok
  cases hok

theorem pmpAddressThenCfg_ok {address field_value : Word} {b : Byte}
    (hb : field_value = b.setWidth 32)
    (hok : (pmpAddressThenCfg warl region address c field_value).1 = .Ok) :
    (pmpAddressThenCfg warl region address c field_value).2.regs.addr =
        Function.update c.regs.addr ⟨region.toNat, h⟩ (address >>> 2) ∧
      (pmpAddressThenCfg warl region address c field_value).2.regs.cfg =
        Function.update c.regs.cfg ⟨region.toNat, h⟩ b := by
  have haddr := pmpCsrAddressWrite_ok warl c h address
  revert hok
  rw [pmpAddressThenCfg]
  cases hwrite : pmpCsrAddressWrite warl region c address with
  | mk result c' =>
    rw [hwrite] at haddr
    cases result with
    | Ok =>
      intro hok
      obtain ⟨haddr', hcfg'⟩ := pmpCsrCfgFieldWrite_ok h hb hok
      rw [haddr', hcfg', (haddr rfl).1, (haddr rfl).2]
      exact ⟨rfl, rfl⟩
    | _ => intro hok; cases hok

variable (warl c) in
theorem pmpCsrAddressWrite_result (address : Word) :
    (pmpCsrAddressWrite warl region c address).1 = .Ok ∨
      (pmpCsrAddressWrite warl region c address).1 = .WarlError := by
  rw [pmpCsrAddressWrite_eq h]
  simp only
  split_ifs
  · exact .inl rfl
  · exact .inr rfl

theorem pmpCsrCfgFieldWrite_result (field_value : Word) :
    (pmpCsrCfgFieldWrite warl region c field_value).1 = .Ok ∨
      (pmpCsrCfgFieldWrite warl region c field_value).1 = .WarlError := by
  rw [pmpCsrCfgFieldWrite_eq h]
  simp only
  split_ifs
  · exact .inl rfl
  · exact .inr rfl

theorem pmpAddressThenCfg_result (address field_value : Word) :
    (pmpAddressThenCfg warl region address c field_value).1 = .Ok ∨
      (pmpAddressThenCfg warl region address c field_value).1 = .WarlError := by
  have haddr := pmpCsrAddressWrite_result warl c h address
  rw [pmpAddressThenCfg]
  revert haddr
  obtain ⟨result, c'⟩ := pmpCsrAddressWrite warl region c address
  rintro (rfl | rfl)
  · exact pmpCsrCfgFieldWrite_result h field_value
  · exact .inr rfl

end Writes

/-! ### Arguments -/

/-- Clearing the low bits below a power of two keeps exactly its multiples. -/
theorem eq_and_not_sub_one_iff {size : Word} {k : ℕ} (hsize : size.toNat = 2 ^ k) (a : Word) :
    a = a &&& ~~~(size - 1) ↔ 2 ^ k ∣ a.toNat := by
  constructor
  · intro h
    rw [Nat.dvd_iff_mod_eq_zero]
    refine Nat.eq_of_testBit_eq fun i => ?_
    rw [Nat.testBit_mod_two_pow, Nat.zero_testBit, BitVec.testBit_toNat, h, BitVec.getLsbD_and,
      BitVec.getLsbD_not, Napot.getLsbD_sub_one hsize]
    by_cases hi : i < k
    · rw [decide_eq_true hi, Bool.not_true, Bool.and_false, Bool.and_false, Bool.and_false]
    · rw [decide_eq_false hi, Bool.false_and]
  · intro h
    refine BitVec.eq_of_getLsbD_eq fun i hi => ?_
    rw [BitVec.getLsbD_and, BitVec.getLsbD_not, Napot.getLsbD_sub_one hsize, decide_eq_true hi,
      Bool.true_and]
    by_cases hik : i < k
    · rw [Napot.getLsbD_of_aligned h hik, Bool.false_and]
    · rw [decide_eq_false hik, Bool.not_false, Bool.and_true]

theorem pmpAddressAligned_iff (address : Word) :
    pmpAddressAligned address = true ↔ 4 ∣ address.toNat := by
  rw [pmpAddressAligned, beq_iff_eq]
  exact eq_and_not_sub_one_iff (k := 2) rfl address

/-- The sizes and addresses that have a NAPOT encoding. -/
def NapotAccepts (address size : Word) : Prop :=
  ∃ k, 3 ≤ k ∧ size.toNat = 2 ^ k ∧ 2 ^ k ∣ address.toNat

theorem exists_two_pow_of_and_sub_one {size : Word} (hsize : 8 ≤ size.toNat)
    (hand : size &&& (size - 1) = 0) : ∃ k, 3 ≤ k ∧ size.toNat = 2 ^ k := by
  have hsub : (size - 1).toNat = size.toNat - 1 :=
    BitVec.toNat_sub_of_le (by rw [BitVec.le_def]; exact (by decide : 1 ≤ 8).trans hsize)
  have hnat : size.toNat &&& (size.toNat - 1) = 0 := by
    rw [← hsub, ← BitVec.toNat_and, hand]
    rfl
  obtain ⟨k, hk⟩ := (Nat.and_sub_one_eq_zero_iff_isPowerOfTwo (by omega)).mp hnat
  refine ⟨k, ?_, hk⟩
  by_contra hlt
  have hle : 2 ^ k ≤ 2 ^ 2 := Nat.pow_le_pow_right (by decide) (by omega)
  omega

theorem pmpNapotAddressConstruct_ok_iff (address size napot_address : Word) :
    pmpNapotAddressConstruct address size = .ok napot_address ↔
      NapotAccepts address size ∧ napot_address = address ||| (size - 1) >>> 1 := by
  have hlt : (size < 4 ∨ size < 8) ↔ size.toNat < 8 := by
    rw [BitVec.lt_def, BitVec.lt_def]
    exact or_iff_right_of_imp fun h => Nat.lt_trans h (by decide)
  simp only [pmpNapotAddressConstruct, hlt]
  by_cases hsmall : size.toNat < 8
  · rw [if_pos hsmall]
    refine iff_of_false (by simp) fun ⟨⟨k, hk, hsize, _⟩, _⟩ => ?_
    have hle : 2 ^ 3 ≤ 2 ^ k := Nat.pow_le_pow_right (by decide) hk
    omega
  rw [if_neg hsmall]
  by_cases hand : size &&& (size - 1) = 0
  · obtain ⟨k, hk, hsize⟩ := exists_two_pow_of_and_sub_one (Nat.not_lt.mp hsmall) hand
    rw [if_neg (not_not.mpr hand)]
    have haccepts : NapotAccepts address size ↔ address = address &&& ~~~(size - 1) := by
      rw [eq_and_not_sub_one_iff hsize]
      constructor
      · rintro ⟨j, -, hj, hdvd⟩
        rwa [← hsize, hj]
      · exact fun hdvd => ⟨k, hk, hsize, hdvd⟩
    by_cases haligned : address = address &&& ~~~(size - 1)
    · rw [if_neg (not_not.mpr haligned), Except.ok.injEq, haccepts]
      exact ⟨fun h => ⟨haligned, h.symm⟩, fun h => h.2.symm⟩
    · rw [if_pos haligned, haccepts]
      exact iff_of_false (by simp) fun h => haligned h.1
  · rw [if_pos hand]
    refine iff_of_false (by simp) fun ⟨⟨k, _, hsize, _⟩, _⟩ => hand ?_
    refine BitVec.eq_of_toNat_eq ?_
    rw [BitVec.toNat_and, BitVec.toNat_sub_of_le
      (by rw [BitVec.le_def]; exact (by decide : 1 ≤ 8).trans (Nat.not_lt.mp hsmall)), hsize]
    exact (Nat.and_sub_one_eq_zero_iff_isPowerOfTwo (by positivity)).mpr ⟨k, rfl⟩

theorem pmpNapotAddressConstruct_error {address size : Word}
    {e : PmpRegionConfigureNapotResult} (h : pmpNapotAddressConstruct address size = .error e) :
    e = .shared .BadAddress ∨ e = .BadSize := by
  simp only [pmpNapotAddressConstruct] at h
  split_ifs at h
  · exact .inl (Except.error.inj h).symm
  · exact .inr (Except.error.inj h).symm
  · exact .inl (Except.error.inj h).symm

theorem napotAddr_eq (address size : Word) :
    (address ||| (size - 1) >>> 1) >>> 2 = Pmp.napotAddr address size := by
  rw [Pmp.napotAddr, BitVec.ushiftRight_or_distrib, ← BitVec.shiftRight_add]

/-! ### What the functions configure -/

section Configure

variable (warl : Warl) (region : Word) (config : PmpRegionConfig) (c : PmpCsrs)

/-- The entry after an address register and a configuration byte are written. -/
theorem encodes_of_update {before after : Regs} {i : Fin 16} {own : Fin 16 → Prop} {cfg : Cfg}
    {range : Word → Prop} {w : Word} (hcfg : after.cfg = Function.update before.cfg i cfg.byte)
    (hother : ∀ j, ¬ own j → after.addr j = before.addr j)
    (haddr : after.addr i = w)
    (hrange : ∀ a, cfg.mode.Matches (after.decode.prevAddr i) w a ↔ range a) :
    PmpEncodes before after i own cfg range := by
  have hbyte : after.cfg i = cfg.byte := by rw [hcfg, Function.update_self]
  have hdecode : after.decode.cfg i = cfg := by
    rw [Regs.decode]
    simp only [hbyte, Cfg.ofByte_byte]
  refine ⟨hbyte, hdecode, fun a => ?_, fun j hj => ?_, hother⟩
  · rw [Csrs.Matches, hdecode, ← hrange, ← haddr]
    rfl
  · rw [hcfg, Function.update_of_ne hj]

/-- The functions that write only the registers of their own region. -/
theorem pmpAddressThenCfg_encodes (h : region.toNat < 16) {address field_value w : Word}
    {cfg : Cfg} {range : Word → Prop} (hvalue : field_value = cfg.byte.setWidth 32)
    (haddress : address >>> 2 = w) (hrange : ∀ prev a, cfg.mode.Matches prev w a ↔ range a)
    (hok : (pmpAddressThenCfg warl region address c field_value).1 = .Ok) :
    PmpEncodes c.regs (pmpAddressThenCfg warl region address c field_value).2.regs
      ⟨region.toNat, h⟩ (· = ⟨region.toNat, h⟩) cfg range := by
  obtain ⟨haddr, hcfg⟩ := pmpAddressThenCfg_ok h hvalue hok
  refine encodes_of_update hcfg (fun j hj => ?_) ?_ (hrange _)
  · rw [haddr, Function.update_of_ne hj]
  · rw [haddr, Function.update_self, haddress]

variable {warl region config c}

theorem PmpConfigures.of_error {ρ : Type} {shared : PmpRegionConfigureResult → ρ} {e : ρ}
    {accepted : Prop} {own : Fin 16 → Fin 16 → Prop} {cfg : Option Cfg} {range : Word → Prop}
    (hok : e ≠ shared .Ok) (hwarl : e ≠ shared .WarlError) (hno : ¬ accepted) :
    PmpConfigures shared c (e, c) region accepted own cfg range :=
  ⟨iff_of_false (not_or.mpr ⟨hok, hwarl⟩) hno, fun _ => rfl, fun h => absurd h hok⟩

theorem PmpConfigures.of_accepted {ρ : Type} {shared : PmpRegionConfigureResult → ρ}
    {out : ρ × PmpCsrs} {accepted : Prop} {own : Fin 16 → Fin 16 → Prop} {cfg : Cfg}
    {range : Word → Prop} (h : region.toNat < 16) (hyes : accepted)
    (hresult : out.1 = shared .Ok ∨ out.1 = shared .WarlError)
    (hok : out.1 = shared .Ok → PmpEncodes c.regs out.2.regs ⟨region.toNat, h⟩
      (own ⟨region.toNat, h⟩) cfg range) :
    PmpConfigures shared c out region accepted own (some cfg) range :=
  ⟨iff_of_true hresult hyes, fun hno => absurd hyes hno, fun hout => ⟨_, cfg, rfl, rfl, hok hout⟩⟩

theorem not_ge_iff : ¬ region ≥ 16 ↔ region.toNat < 16 := by
  rw [ge_iff_le, BitVec.le_def, Nat.not_le]
  exact Iff.rfl

theorem pmpAddressAligned_eq_false (address : Word) :
    pmpAddressAligned address = false ↔ ¬ 4 ∣ address.toNat := by
  rw [← pmpAddressAligned_iff, Bool.not_eq_true]

variable (warl region config c)

theorem pmpRegionConfigureOff_configures (address : Word) :
    PmpConfigures id c (pmpRegionConfigureOff warl region address c) region
      (region.toNat < 16 ∧ 4 ∣ address.toNat) (fun i j => j = i) (some Cfg.off) fun _ => False := by
  rw [pmpRegionConfigureOff]
  split_ifs with hregion haligned
  · exact .of_error (by simp) (by simp) fun h => not_ge_iff.mpr h.1 hregion
  · rw [Bool.not_eq_true', pmpAddressAligned_eq_false] at haligned
    exact .of_error (by simp) (by simp) fun h => haligned h.2
  · have h := not_ge_iff.mp hregion
    rw [Bool.not_eq_true', Bool.not_eq_false, pmpAddressAligned_iff] at haligned
    exact .of_accepted h ⟨h, haligned⟩ (pmpAddressThenCfg_result h _ _) fun hok =>
      pmpAddressThenCfg_encodes warl region c h rfl rfl (fun _ _ => Iff.rfl) hok

/-- The last steps of a function with a field value. -/
theorem pmpFieldValue_cases (mode : Pmp.Mode) (value : Word)
    (hvalue : value = mode.bits.setWidth 32) :
    (config.cfg mode = none ∧ pmpFieldValue config value = none) ∨
      ∃ cfg, config.cfg mode = some cfg ∧ cfg.mode = mode ∧
        pmpFieldValue config value = some (cfg.byte.setWidth 32) := by
  rw [hvalue, pmpFieldValue_eq]
  cases hcfg : config.cfg mode with
  | none => exact .inl ⟨rfl, rfl⟩
  | some cfg =>
    refine .inr ⟨cfg, rfl, ?_, rfl⟩
    unfold PmpRegionConfig.cfg at hcfg
    split at hcfg
    all_goals cases hcfg
    all_goals rfl

theorem pmpRegionConfigureNa4_configures (address : Word) :
    PmpConfigures .shared c (pmpRegionConfigureNa4 warl region config address c) region
      (region.toNat < 16 ∧ 4 ∣ address.toNat ∧ (config.cfg .na4).isSome) (fun i j => j = i)
      (config.cfg .na4) fun a => address.toNat ≤ a.toNat ∧ a.toNat < address.toNat + 4 := by
  rw [pmpRegionConfigureNa4]
  simp only [Nat.lt_irrefl, if_false, gt_iff_lt]
  split_ifs with hregion haligned
  · exact .of_error (by simp) (by simp) fun h => not_ge_iff.mpr h.1 hregion
  · rw [Bool.not_eq_true', pmpAddressAligned_eq_false] at haligned
    exact .of_error (by simp) (by simp) fun h => haligned h.2.1
  · have h := not_ge_iff.mp hregion
    rw [Bool.not_eq_true', Bool.not_eq_false, pmpAddressAligned_iff] at haligned
    obtain ⟨hcfg, hvalue⟩ | ⟨cfg, hcfg, hmode, hvalue⟩ :=
      pmpFieldValue_cases config .na4 2 rfl
    · simp only [hcfg, hvalue]
      exact .of_error (by simp) (by simp) (by simp)
    · simp only [hcfg, hvalue]
      refine .of_accepted h ⟨h, haligned, rfl⟩
        ((pmpAddressThenCfg_result h _ _).imp (congrArg _) (congrArg _)) fun hok => ?_
      refine pmpAddressThenCfg_encodes warl region c h rfl rfl (fun prev a => ?_)
        (PmpRegionConfigureNa4Result.shared.inj hok)
      rw [hmode]
      exact Pmp.matches_na4 haligned prev a

theorem pmpRegionConfigureNapot_configures (address size : Word) :
    PmpConfigures .shared c (pmpRegionConfigureNapot warl region config address c size) region
      (region.toNat < 16 ∧ NapotAccepts address size ∧ (config.cfg .napot).isSome)
      (fun i j => j = i) (config.cfg .napot)
      fun a => address.toNat ≤ a.toNat ∧ a.toNat < address.toNat + size.toNat := by
  rw [pmpRegionConfigureNapot]
  split_ifs with hregion
  · exact .of_error (by simp) (by simp) fun h => not_ge_iff.mpr h.1 hregion
  have h := not_ge_iff.mp hregion
  cases hconstruct : pmpNapotAddressConstruct address size with
  | error e =>
    have hno : ¬ NapotAccepts address size := fun haccepts => by
      rw [(pmpNapotAddressConstruct_ok_iff address size _).mpr ⟨haccepts, rfl⟩] at hconstruct
      cases hconstruct
    obtain rfl | rfl := pmpNapotAddressConstruct_error hconstruct
    · exact .of_error (by simp) (by simp) fun h => hno h.2.1
    · exact .of_error (by simp) (by simp) fun h => hno h.2.1
  | ok napot_address =>
    obtain ⟨haccepts, rfl⟩ := (pmpNapotAddressConstruct_ok_iff address size _).mp hconstruct
    obtain ⟨k, hk, hsize, haligned⟩ := haccepts
    obtain ⟨hcfg, hvalue⟩ | ⟨cfg, hcfg, hmode, hvalue⟩ :=
      pmpFieldValue_cases config .napot 3 rfl
    · simp only [hcfg, hvalue]
      exact .of_error (by simp) (by simp) (by simp)
    · simp only [hcfg, hvalue]
      refine .of_accepted h ⟨h, ⟨k, hk, hsize, haligned⟩, rfl⟩
        ((pmpAddressThenCfg_result h _ _).imp (congrArg _) (congrArg _)) fun hok => ?_
      refine pmpAddressThenCfg_encodes warl region c h rfl (napotAddr_eq address size)
        (fun prev a => ?_) (PmpRegionConfigureNapotResult.shared.inj hok)
      rw [hmode]
      exact Pmp.matches_napot hk hsize haligned prev a

theorem val_sub_one {i : Fin 16} (h : i ≠ 0) : (i - 1).val = i.val - 1 := by
  revert i
  decide

/-- The region ends at its own address register, and starts at the one below. -/
theorem pmpAddressThenCfg_encodes_tor {c' : PmpCsrs} (h : region.toNat < 16)
    {start end_ field_value : Word} {cfg : Cfg} (hmode : cfg.mode = .tor)
    (hvalue : field_value = cfg.byte.setWidth 32) (hstart : 4 ∣ start.toNat)
    (hend : 4 ∣ end_.toNat) (hcfg : c'.regs.cfg = c.regs.cfg)
    (haddr : ∀ j : Fin 16, j.val + 1 ≠ region.toNat → c'.regs.addr j = c.regs.addr j)
    (hprev : c'.regs.decode.prevAddr ⟨region.toNat, h⟩ = start >>> 2)
    (hok : (pmpAddressThenCfg warl region end_ c' field_value).1 = .Ok) :
    PmpEncodes c.regs (pmpAddressThenCfg warl region end_ c' field_value).2.regs
      ⟨region.toNat, h⟩ (fun j => j = ⟨region.toNat, h⟩ ∨ j.val + 1 = region.toNat) cfg
      fun a => start.toNat ≤ a.toNat ∧ a.toNat < end_.toNat := by
  obtain ⟨haddr', hcfg'⟩ := pmpAddressThenCfg_ok h hvalue hok
  have hbelow : (pmpAddressThenCfg warl region end_ c' field_value).2.regs.decode.prevAddr
      ⟨region.toNat, h⟩ = c'.regs.decode.prevAddr ⟨region.toNat, h⟩ := by
    simp only [Csrs.prevAddr, Regs.decode, haddr']
    split_ifs with hzero
    · rfl
    · rw [Function.update_of_ne]
      intro heq
      have hval := congrArg Fin.val heq
      rw [val_sub_one hzero] at hval
      exact hzero (Fin.ext (show region.toNat = 0 by simp only at hval; omega))
  refine encodes_of_update (w := end_ >>> 2) (hcfg ▸ hcfg') (fun j hj => ?_) ?_ fun a => ?_
  · rw [haddr', Function.update_of_ne fun heq => hj (.inl heq)]
    exact haddr j fun heq => hj (.inr heq)
  · rw [haddr', Function.update_self]
  · rw [hbelow, hprev, hmode]
    exact Pmp.matches_tor hstart hend a

/-- The writes of a request that is accepted. -/
theorem tor_writes {start end_ : Word} {cfg : Cfg} {accepted : Prop} (h : region.toNat < 16)
    (hyes : accepted) (hmode : cfg.mode = .tor) (hzero : region = 0 → start = 0)
    (hstart : 4 ∣ start.toNat) (hend : 4 ∣ end_.toNat) :
    PmpConfigures id c
      (if region ≠ 0 then
        match pmpCsrAddressWrite warl (region - 1) c start with
        | (.Ok, c) => pmpAddressThenCfg warl region end_ c (cfg.byte.setWidth 32)
        | r => r
      else pmpAddressThenCfg warl region end_ c (cfg.byte.setWidth 32))
      region accepted (fun i j => j = i ∨ j.val + 1 = i.val) (some cfg)
      fun a => start.toNat ≤ a.toNat ∧ a.toNat < end_.toNat := by
  by_cases hregion : region = 0
  · rw [if_neg (not_not.mpr hregion)]
    obtain rfl := hregion
    obtain rfl := hzero rfl
    exact .of_accepted h hyes (pmpAddressThenCfg_result h _ _) fun hok =>
      pmpAddressThenCfg_encodes_tor warl 0 c h hmode rfl hstart hend rfl (fun _ _ => rfl) rfl hok
  rw [if_pos hregion]
  have hpos : region.toNat ≠ 0 := fun heq => hregion (BitVec.eq_of_toNat_eq heq)
  have hsub : (region - 1).toNat = region.toNat - 1 :=
    BitVec.toNat_sub_of_le (BitVec.le_def.mpr (Nat.pos_of_ne_zero hpos))
  have hbelow : (region - 1).toNat < 16 := by omega
  have hne : (⟨region.toNat, h⟩ : Fin 16) ≠ 0 := fun heq => hpos (congrArg Fin.val heq)
  have hi : (⟨region.toNat, h⟩ : Fin 16) - 1 = ⟨(region - 1).toNat, hbelow⟩ :=
    Fin.ext ((val_sub_one hne).trans hsub.symm)
  have haddr := pmpCsrAddressWrite_ok warl c hbelow start
  have hresult := pmpCsrAddressWrite_result warl c hbelow start
  revert haddr hresult
  obtain ⟨result, c'⟩ := pmpCsrAddressWrite warl (region - 1) c start
  rintro haddr (rfl | rfl)
  · obtain ⟨hcfg', haddr'⟩ := haddr rfl
    refine .of_accepted h hyes (pmpAddressThenCfg_result h _ _) fun hok => ?_
    refine pmpAddressThenCfg_encodes_tor warl region c h hmode rfl hstart hend hcfg'
      (fun j hj => ?_) ?_ hok
    · rw [haddr', Function.update_of_ne]
      rintro rfl
      simp only [hsub] at hj
      omega
    · rw [Csrs.prevAddr, if_neg hne, hi]
      exact (congrFun haddr' _).trans (Function.update_self _ _ _)
  · exact ⟨iff_of_true (.inr rfl) hyes, fun hno => absurd hyes hno, fun hok => by cases hok⟩

theorem pmpRegionConfigureTor_configures (start end_ : Word) :
    PmpConfigures id c (pmpRegionConfigureTor warl region config start c end_) region
      (region.toNat < 16 ∧ (region = 0 → start = 0) ∧ 4 ∣ start.toNat ∧ 4 ∣ end_.toNat ∧
        (config.cfg .tor).isSome)
      (fun i j => j = i ∨ j.val + 1 = i.val) (config.cfg .tor)
      fun a => start.toNat ≤ a.toNat ∧ a.toNat < end_.toNat := by
  have hpos (x : Word) : x > 0 ↔ x ≠ 0 := by
    rw [gt_iff_lt, BitVec.lt_def, show (0 : Word).toNat = 0 from rfl, Nat.pos_iff_ne_zero, ne_eq,
      ne_eq, ← BitVec.toNat_inj]
    rfl
  rw [pmpRegionConfigureTor]
  by_cases hregion : region ≥ 16
  · rw [if_pos hregion]
    exact .of_error (by simp) (by simp) fun h => not_ge_iff.mpr h.1 hregion
  have h := not_ge_iff.mp hregion
  rw [if_neg hregion]
  by_cases hfirst : region = 0 ∧ start > 0
  · rw [if_pos hfirst]
    exact .of_error (by simp) (by simp) fun h => (hpos start).mp hfirst.2 (h.2.1 hfirst.1)
  have hzero (heq : region = 0) : start = 0 := by
    by_contra hne
    exact hfirst ⟨heq, (hpos start).mpr hne⟩
  rw [if_neg hfirst]
  by_cases hunaligned : region > 0 ∧ (!pmpAddressAligned start) = true
  · rw [if_pos hunaligned]
    rw [Bool.not_eq_true', pmpAddressAligned_eq_false] at hunaligned
    exact .of_error (by simp) (by simp) fun h => hunaligned.2 h.2.2.1
  have hstart : 4 ∣ start.toNat := by
    by_cases heq : region = 0
    · rw [hzero heq]
      exact Nat.dvd_zero 4
    · rw [← pmpAddressAligned_iff, ← Bool.not_eq_false, ← Bool.not_eq_true']
      exact fun hno => hunaligned ⟨(hpos region).mpr heq, hno⟩
  rw [if_neg hunaligned]
  by_cases hend : 4 ∣ end_.toNat
  case neg =>
    rw [(pmpAddressAligned_eq_false end_).mpr hend]
    exact .of_error (by simp) (by simp) fun h => hend h.2.2.2.1
  rw [(pmpAddressAligned_iff end_).mpr hend, Bool.not_true, if_neg Bool.false_ne_true]
  obtain ⟨hcfg, hvalue⟩ | ⟨cfg, hcfg, hmode, hvalue⟩ :=
    pmpFieldValue_cases config .tor 1 rfl
  · simp only [hcfg, hvalue]
    exact .of_error (by simp) (by simp) (by simp)
  · simp only [hcfg, hvalue]
    exact tor_writes warl region c h ⟨h, hzero, hstart, hend, rfl⟩ hmode hzero hstart hend

/-- A region that is off keeps its address register as the start of the one above. -/
theorem pmpRegionConfigureOff_addr {address : Word} (h : region.toNat < 16)
    (hok : (pmpRegionConfigureOff warl region address c).1 = .Ok) :
    (pmpRegionConfigureOff warl region address c).2.regs.addr ⟨region.toNat, h⟩ =
      address >>> 2 := by
  revert hok
  rw [pmpRegionConfigureOff]
  split_ifs
  · exact fun hok => by cases hok
  · exact fun hok => by cases hok
  · intro hok
    have hzero : (0 : Word) = (0 : Byte).setWidth 32 := rfl
    rw [(pmpAddressThenCfg_ok h hzero hok).1, Function.update_self]

/-! ### Main result -/

/-- Whatever the registers keep of a write. -/
theorem pmp_region_configure_encodes (start end_ size : Word) :
    (PmpConfigures id c (pmpRegionConfigureOff warl region start c) region
        (region.toNat < 16 ∧ 4 ∣ start.toNat) (fun i j => j = i) (some Cfg.off)
        (fun _ => False) ∧
      ∀ h : region.toNat < 16, (pmpRegionConfigureOff warl region start c).1 = .Ok →
        (pmpRegionConfigureOff warl region start c).2.regs.addr ⟨region.toNat, h⟩ =
          start >>> 2) ∧
    PmpConfigures .shared c (pmpRegionConfigureNa4 warl region config start c) region
      (region.toNat < 16 ∧ 4 ∣ start.toNat ∧ (config.cfg .na4).isSome) (fun i j => j = i)
      (config.cfg .na4) (fun a => start.toNat ≤ a.toNat ∧ a.toNat < start.toNat + 4) ∧
    PmpConfigures .shared c (pmpRegionConfigureNapot warl region config start c size) region
      (region.toNat < 16 ∧ NapotAccepts start size ∧ (config.cfg .napot).isSome)
      (fun i j => j = i) (config.cfg .napot)
      (fun a => start.toNat ≤ a.toNat ∧ a.toNat < start.toNat + size.toNat) ∧
    PmpConfigures id c (pmpRegionConfigureTor warl region config start c end_) region
      (region.toNat < 16 ∧ (region = 0 → start = 0) ∧ 4 ∣ start.toNat ∧ 4 ∣ end_.toNat ∧
        (config.cfg .tor).isSome)
      (fun i j => j = i ∨ j.val + 1 = i.val) (config.cfg .tor)
      (fun a => start.toNat ≤ a.toNat ∧ a.toNat < end_.toNat) :=
  ⟨⟨pmpRegionConfigureOff_configures warl region c start,
      fun h => pmpRegionConfigureOff_addr warl region c h⟩,
    pmpRegionConfigureNa4_configures warl region config c start,
    pmpRegionConfigureNapot_configures warl region config c start size,
    pmpRegionConfigureTor_configures warl region config c start end_⟩

end Configure

/-- On the Ibex core out of reset every function succeeds. -/
example :
    let csrs : Csrs := ⟨fun _ => .off, fun _ => 0, false, false⟩
    let config : PmpRegionConfig := ⟨.Locked, .ReadExecute⟩
    (pmpRegionConfigureOff .ibex 4 0x100 ⟨csrs.raw, 0⟩).1 = .Ok ∧
      (pmpRegionConfigureNa4 .ibex 4 config 0x100 ⟨csrs.raw, 0⟩).1 = .shared .Ok ∧
      (pmpRegionConfigureNapot .ibex 15 config 0x20000000 ⟨csrs.raw, 0⟩ 0x80000).1 =
        .shared .Ok ∧
      (pmpRegionConfigureTor .ibex 1 config 0x100 ⟨csrs.raw, 0⟩ 0x200).1 = .Ok := by
  decide +kernel

end SecureBoot
