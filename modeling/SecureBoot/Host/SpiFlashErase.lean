import SecureBoot.Host.JedecConformance
import SecureBoot.Host.SpiFlash
import SecureBoot.Lib.Traverse

/-! Erasing a range of a serial flash. The steps are those of the smallest erase size of the chip,
while the opcode that is sent is always the same one. -/

namespace SecureBoot

open Rust NorFlash InternalJedecParams JedecParams

namespace SpiFlash

/-- A chip that the tool has the right description of. -/
structure Describes (flash : SpiFlash) (chip : Chip) : Prop where
  size : flash.size.toNat = chip.size
  erase : ∃ n, chip.eraseExponent flash.eraseOpcode = some n ∧ flash.eraseSize.toNat = 2 ^ n
  programSize : flash.programSize = kLegacyPageSize

/-- A chip that waits for a command, in the addressing mode of the tool. -/
structure Ready (flash : SpiFlash) (s : NorFlash.State) : Prop where
  busy : s.busy = 0
  mode : s.fourByte = decide (flash.addressMode = .mode4b)

variable {chip : Chip} {flash : SpiFlash} {s : NorFlash.State} {addr address length : Word}

/-- The description that the tool makes from a table, when the table is right about the blocks of
4 KiB. -/
theorem describes_fromSfdp_of_4KiB {sfdp : Sfdp} (hsize : sfdp.jedec.density.toNat = chip.size)
    (hblock : sfdp.jedec.blockEraseSize = .block4KiB)
    (herase : chip.eraseExponent sfdp.jedec.eraseOpcode4kib = some 12) :
    Describes (fromSfdp sfdp) chip where
  size := hsize
  erase := ⟨12, by rw [fromSfdp, hblock, herase], by rw [fromSfdp, hblock]; rfl⟩
  programSize := rfl

/-- And when there are none, and it is right about the first kind of blocks. -/
theorem describes_fromSfdp_of_erase0 {sfdp : Sfdp} {n : ℕ}
    (hsize : sfdp.jedec.density.toNat = chip.size)
    (hblock : sfdp.jedec.blockEraseSize = .blockNot4KiB)
    (herase : chip.eraseExponent sfdp.jedec.erase0.opcode = some n)
    (hn : sfdp.jedec.erase0.size.toNat = 2 ^ n) : Describes (fromSfdp sfdp) chip where
  size := hsize
  erase := ⟨n, by rw [fromSfdp, hblock, herase], by rw [fromSfdp, hblock, hn]⟩
  programSize := rfl

theorem run_opcodeWithAddress (op : Byte) (h : addr < flash.size) :
    (opcodeWithAddress flash op addr).run s =
      .ok (op :: addressBytes flash.addressMode addr) s := by
  rw [opcodeWithAddress, Hoare.run_bind_of_ok (run_ensure_of_pos h _)]
  rfl

theorem run_opcodeWithAddress_of_ge (op : Byte) (h : ¬ addr < flash.size) :
    (opcodeWithAddress flash op addr).run s =
      .error (.err (.addressOutOfBounds addr flash.size)) s := by
  rw [opcodeWithAddress, Hoare.run_bind_of_error (run_ensure_of_neg h _)]

theorem sentAddress_le (mode : AddressMode) (addr : Word) : sentAddress mode addr ≤ addr.toNat := by
  cases mode
  · exact Nat.mod_le _ _
  · exact le_rfl

/-- What a round of the loop does to the contents of the chip. -/
def eraseAt (chip : Chip) (flash : SpiFlash) (addr : Word) (contents : ℕ → Byte) : ℕ → Byte :=
  match chip.eraseExponent opSectorErase with
  | some n => eraseBlock n (sentAddress flash.addressMode addr) contents
  | none => contents

theorem run_eraseRound (hd : Describes flash chip) (hs : Ready flash s) (h : addr < flash.size) :
    ∃ t, (eraseRound chip flash addr).run s = .ok () t ∧ Ready flash t ∧
      t.contents = eraseAt chip flash addr s.contents := by
  have hlt : sentAddress flash.addressMode addr < chip.size := by
    rw [← hd.size]
    exact (sentAddress_le _ _).trans_lt h
  have haddr := decodeAddress_addressBytes flash.addressMode addr []
  rw [List.append_nil, ← hs.mode] at haddr
  have hop : opSectorErase ∉ reserved := by decide
  have hready : ({ s with writeEnabled := true } : NorFlash.State).busy = 0 := hs.busy
  have herase := transact_erase chip hop hready rfl haddr
  rw [Nat.mod_eq_of_lt hlt] at herase
  rw [eraseRound, Hoare.run_bind_of_ok (run_setWriteEnable hs.busy),
    Hoare.run_bind_of_ok (run_opcodeWithAddress _ h),
    Hoare.run_bind_of_ok (run_runTransaction_write _), herase, run_waitForBusyClear]
  refine ⟨_, rfl, ?_⟩
  unfold eraseAt
  cases chip.eraseExponent opSectorErase with
  | none => exact ⟨⟨rfl, hs.mode⟩, rfl⟩
  | some n => exact ⟨⟨rfl, hs.mode⟩, rfl⟩

theorem run_eraseRound_of_ge (chip : Chip) (hs : Ready flash s) (h : ¬ addr < flash.size) :
    ∃ e t, (eraseRound chip flash addr).run s = .error (.err e) t := by
  rw [eraseRound, Hoare.run_bind_of_ok (run_setWriteEnable hs.busy),
    Hoare.run_bind_of_error (run_opcodeWithAddress_of_ge _ h)]
  exact ⟨_, _, rfl⟩

/-- The loop, over addresses inside the chip. -/
theorem run_eraseRounds (hd : Describes flash chip) {l : List Word} (hs : Ready flash s)
    (h : ∀ addr ∈ l, addr < flash.size) :
    ∃ t, (l.forM (eraseRound chip flash)).run s = .ok () t ∧ Ready flash t ∧
      t.contents = l.foldl (fun contents addr => eraseAt chip flash addr contents) s.contents := by
  induction l generalizing s with
  | nil => exact ⟨s, rfl, hs, rfl⟩
  | cons addr l ih =>
    obtain ⟨haddr, hl⟩ := List.forall_mem_cons.1 h
    obtain ⟨t, ht, htready, htcontents⟩ := run_eraseRound hd hs haddr
    obtain ⟨u, hu, huready, hucontents⟩ := ih htready hl
    refine ⟨u, ?_, huready, ?_⟩
    · rw [Traverse.forM_cons, Hoare.run_bind_of_ok ht, hu]
    · rw [hucontents, htcontents, List.foldl_cons]

/-- The loop fails at the first address behind the end of the chip. -/
theorem run_eraseRounds_of_ge (hd : Describes flash chip) {l : List Word} (hs : Ready flash s)
    (h : ∃ addr ∈ l, ¬ addr < flash.size) :
    ∃ e t, (l.forM (eraseRound chip flash)).run s = .error (.err e) t := by
  induction l generalizing s with
  | nil => exact absurd h (by simp)
  | cons addr l ih =>
    rw [Traverse.forM_cons]
    by_cases haddr : addr < flash.size
    · obtain ⟨t, ht, htready, -⟩ := run_eraseRound hd hs haddr
      rw [Hoare.run_bind_of_ok ht]
      refine ih htready ?_
      obtain ⟨a, ha, hge⟩ := h
      obtain rfl | ha := List.mem_cons.1 ha
      · exact absurd haddr hge
      · exact ⟨a, ha, hge⟩
    · obtain ⟨e, t, ht⟩ := run_eraseRound_of_ge chip hs haddr
      exact ⟨e, t, Hoare.run_bind_of_error ht⟩

/-- What the loop leaves: ones in the blocks around its addresses. -/
theorem eraseAts_apply {n : ℕ} (hn : chip.eraseExponent opSectorErase = some n) (l : List Word)
    (contents : ℕ → Byte) (x : ℕ) :
    l.foldl (fun contents addr => eraseAt chip flash addr contents) contents x =
      if ∃ addr ∈ l, x / 2 ^ n = sentAddress flash.addressMode addr / 2 ^ n then 0xff
      else contents x := by
  induction l generalizing contents with
  | nil => rw [if_neg (fun h => absurd h.choose_spec.1 List.not_mem_nil), List.foldl_nil]
  | cons addr l ih =>
    have hhead : eraseAt chip flash addr contents x =
        if x / 2 ^ n = sentAddress flash.addressMode addr / 2 ^ n then 0xff else contents x := by
      rw [eraseAt, hn]
      rfl
    rw [List.foldl_cons, ih, hhead]
    by_cases htail : ∃ addr ∈ l, x / 2 ^ n = sentAddress flash.addressMode addr / 2 ^ n
    · obtain ⟨a, ha, hblock⟩ := htail
      rw [if_pos ⟨a, ha, hblock⟩, if_pos ⟨a, List.mem_cons_of_mem _ ha, hblock⟩]
    · rw [if_neg htail]
      refine if_congr ⟨fun h => ⟨addr, List.mem_cons_self, h⟩, ?_⟩ rfl rfl
      rintro ⟨a, ha, hblock⟩
      obtain rfl | ha := List.mem_cons.1 ha
      · exact hblock
      · exact absurd ⟨a, ha, hblock⟩ htail

theorem eraseAts_none (hn : chip.eraseExponent opSectorErase = none) (l : List Word)
    (contents : ℕ → Byte) :
    l.foldl (fun contents addr => eraseAt chip flash addr contents) contents = contents := by
  induction l with
  | nil => rfl
  | cons addr l ih => rwa [List.foldl_cons, eraseAt, hn]

/-! ### The whole function -/

/-- A range of whole sectors. -/
def Aligned (flash : SpiFlash) (address length : Word) : Prop :=
  flash.eraseSize.toNat ∣ address.toNat ∧ flash.eraseSize.toNat ∣ length.toNat

theorem mod_eq_zero_iff (a b : Word) : a % b = 0 ↔ b.toNat ∣ a.toNat := by
  rw [← BitVec.toNat_inj, BitVec.toNat_umod, Nat.dvd_iff_mod_eq_zero]
  rfl

theorem Describes.eraseSize_pos (hd : Describes flash chip) : 0 < flash.eraseSize.toNat := by
  obtain ⟨n, -, hn⟩ := hd.erase
  rw [hn]
  exact Nat.two_pow_pos n

theorem Describes.eraseSize_dvd (hd : Describes flash chip) :
    flash.eraseSize.toNat ∣ chip.size := by
  obtain ⟨n, hop, hn⟩ := hd.erase
  rw [hn]
  exact chip.block_dvd _ n hop

theorem Describes.eraseSize_ne_zero (hd : Describes flash chip) : flash.eraseSize ≠ 0 := by
  intro h
  have hpos := hd.eraseSize_pos
  rw [h] at hpos
  exact absurd hpos (Nat.lt_irrefl 0)

/-- A range that is not made of whole sectors is refused before anything is sent. -/
theorem run_erase_of_not_aligned (hd : Describes flash chip) (h : ¬ Aligned flash address length) :
    ∃ e, (erase chip flash address length).run s = .error (.err e) s := by
  have hne := hd.eraseSize_ne_zero
  rw [erase, Hoare.run_bind_of_ok (run_liftRun_of_returns (returns_checkedRem _ _) hne)]
  by_cases haddress : address % flash.eraseSize = 0
  · rw [Hoare.run_bind_of_ok (run_ensure_of_pos haddress _),
      Hoare.run_bind_of_ok (run_liftRun_of_returns (returns_checkedRem _ _) hne)]
    have hlength : ¬ length % flash.eraseSize = 0 := fun hlength =>
      h ⟨(mod_eq_zero_iff _ _).1 haddress, (mod_eq_zero_iff _ _).1 hlength⟩
    rw [Hoare.run_bind_of_error (run_ensure_of_neg hlength _)]
    exact ⟨_, rfl⟩
  · rw [Hoare.run_bind_of_error (run_ensure_of_neg haddress _)]
    exact ⟨_, rfl⟩

/-- For a range of whole sectors, what is left is the sum and the loop. -/
theorem run_erase_of_aligned (hd : Describes flash chip) (h : Aligned flash address length) :
    (erase chip flash address length).run s =
      (liftRun (checkedAdd address length) >>= fun last =>
        (stepBy address last flash.eraseSize).forM (eraseRound chip flash)).run s := by
  have hne := hd.eraseSize_ne_zero
  rw [erase, Hoare.run_bind_of_ok (run_liftRun_of_returns (returns_checkedRem _ _) hne),
    Hoare.run_bind_of_ok (run_ensure_of_pos ((mod_eq_zero_iff _ _).2 h.1) _),
    Hoare.run_bind_of_ok (run_liftRun_of_returns (returns_checkedRem _ _) hne),
    Hoare.run_bind_of_ok (run_ensure_of_pos ((mod_eq_zero_iff _ _).2 h.2) _)]

/-- The addresses of the loop. -/
theorem mem_stepBy {step : Word} {m : ℕ} (hstep : 0 < step.toNat)
    (hm : length.toNat = step.toNat * m) (hlt : address.toNat + length.toNat < 2 ^ 32) :
    addr ∈ stepBy address (address + length) step ↔
      ∃ k < m, addr.toNat = address.toNat + k * step.toNat := by
  have hlast : (address + length).toNat = address.toNat + length.toNat := by
    rw [BitVec.toNat_add, Nat.mod_eq_of_lt hlt]
  have hcount : ((address + length).toNat - address.toNat + step.toNat - 1) / step.toNat = m := by
    rw [hlast, Nat.add_sub_cancel_left, hm, Nat.add_sub_assoc hstep, Nat.mul_add_div hstep,
      Nat.div_eq_of_lt (Nat.sub_lt hstep Nat.one_pos), Nat.add_zero]
  have htoNat {k : ℕ} (hk : k < m) :
      (BitVec.ofNat 32 (address.toNat + k * step.toNat)).toNat =
        address.toNat + k * step.toNat := by
    refine Nat.mod_eq_of_lt (Nat.lt_trans (Nat.add_lt_add_left ?_ _) hlt)
    rw [hm, Nat.mul_comm]
    exact (Nat.mul_lt_mul_left hstep).2 hk
  rw [stepBy, hcount, List.mem_map]
  constructor
  · rintro ⟨k, hk, rfl⟩
    exact ⟨k, List.mem_range.1 hk, htoNat (List.mem_range.1 hk)⟩
  · rintro ⟨k, hk, haddr⟩
    exact ⟨k, List.mem_range.2 hk, BitVec.eq_of_toNat_eq ((htoNat hk).trans haddr.symm)⟩

theorem stepBy_self {step : Word} (hstep : 0 < step.toNat) (a : Word) : stepBy a a step = [] := by
  have hcount : (a.toNat - a.toNat + step.toNat - 1) / step.toNat = 0 :=
    Nat.div_eq_of_lt (by omega)
  rw [stepBy, hcount]
  rfl

/-- In steps of `step` bytes the blocks make up the range. -/
theorem covers_truncate_iff (mode : AddressMode) (first n : ℕ) {m step : ℕ} (hstep : 0 < step)
    (hm : 0 < m) :
    Covers (2 ^ n) m (fun k => truncate mode (first + k * step)) first (step * m) ↔
      step ≤ 2 ^ n ∧ 2 ^ n ∣ first ∧ 2 ^ n ∣ step * m ∧
        (mode = .mode4b ∨ first + step * m ≤ max (2 ^ 24) (2 ^ n)) := by
  have hS : 0 < 2 ^ n := Nat.two_pow_pos n
  have hpos : 0 < step * m := Nat.mul_pos hstep hm
  constructor
  · intro h
    have hfirst := h.dvd_first hpos
    refine ⟨h.step_le hS hpos rfl, hfirst, (Nat.dvd_add_right hfirst).1 (h.dvd_last hpos hS), ?_⟩
    cases mode with
    | mode3b => exact .inr (h.last_le hpos fun k _ => Nat.mod_lt _ (Nat.two_pow_pos 24))
    | mode4b => exact .inl rfl
  · rintro ⟨hle, hfirst, hlength, hfits⟩
    have hlt {k : ℕ} (hk : k < m) : first + k * step < first + step * m := by
      rw [Nat.mul_comm k]
      exact Nat.add_lt_add_left ((Nat.mul_lt_mul_left hstep).2 hk) _
    cases mode with
    | mode4b => exact covers_of_dvd hS hstep hfirst hlength hle rfl fun k _ => rfl
    | mode3b =>
      replace hfits := hfits.resolve_left (fun h => by cases h)
      by_cases h24 : first + step * m ≤ 2 ^ 24
      · refine covers_of_dvd hS hstep hfirst hlength hle rfl fun k hk => ?_
        exact Nat.mod_eq_of_lt ((hlt hk).trans_le h24)
      · -- one block, larger than what three bytes can tell apart
        have hle24 : first + step * m ≤ 2 ^ n :=
          (le_max_iff.1 hfits).resolve_left h24
        have hzero : first = 0 := by
          refine Nat.eq_zero_of_dvd_of_lt hfirst ?_
          omega
        subst hzero
        rw [Nat.zero_add] at hle24 h24
        have hone : step * m = 2 ^ n := Nat.le_antisymm hle24 (Nat.le_of_dvd hpos hlength)
        intro x
        have hblock (k : ℕ) : truncate .mode3b (k * step) / 2 ^ n = 0 := by
          refine Nat.div_eq_of_lt ((Nat.mod_lt _ (Nat.two_pow_pos 24)).trans ?_)
          omega
        simp only [hblock, hone, Nat.div_eq_zero_iff_lt hS, Nat.zero_le, true_and, Nat.zero_add]
        exact ⟨fun ⟨_, _, hx⟩ => hx, fun hx => ⟨0, hm, hx⟩⟩

/-- Erasing a range, as it should be: a range that is not made of whole sectors is refused before
anything happens, and otherwise the range is erased and nothing else, unless there is an error. -/
def EraseCovers (chip : Chip) (flash : SpiFlash) (address length : Word) : Prop :=
  ∀ s, Ready flash s → Hoare.Outcome
    (fun _ t => Aligned flash address length ∧ ∀ x, t.contents x =
      if address.toNat ≤ x ∧ x < address.toNat + length.toNat then 0xff else s.contents x)
    (fun stop t => (∃ e, stop = .err e) ∧ (¬ Aligned flash address length → t = s))
    ((erase chip flash address length).run s)

/-- What it takes: the blocks of the one opcode that is sent are no smaller than the steps, the
range is made of such blocks, and its addresses can be sent. -/
def EraseFits (chip : Chip) (flash : SpiFlash) (address length : Word) : Prop :=
  Aligned flash address length → length ≠ 0 → address.toNat + length.toNat < 2 ^ 32 ∧
    (address.toNat + length.toNat ≤ chip.size → ∃ n, chip.eraseExponent opSectorErase = some n ∧
      flash.eraseSize.toNat ≤ 2 ^ n ∧ 2 ^ n ∣ address.toNat ∧ 2 ^ n ∣ length.toNat ∧
      (flash.addressMode = .mode4b ∨ address.toNat + length.toNat ≤ max (2 ^ 24) (2 ^ n)))

/-- A chip that is ready, all of whose bytes are zero. -/
def zeroed (flash : SpiFlash) : NorFlash.State :=
  ⟨fun _ => 0, flash.addressMode = .mode4b, false, 0, 0⟩

theorem ready_zeroed (flash : SpiFlash) : Ready flash (zeroed flash) := ⟨rfl, rfl⟩

theorem zero_ne_erased : (0 : Byte) ≠ 0xff := by decide

section

variable {m : ℕ}

/-- For a range of whole sectors inside the chip, the loop runs to its end. -/
theorem run_erase (hd : Describes flash chip) (hs : Ready flash s)
    (hal : Aligned flash address length) (hm : length.toNat = flash.eraseSize.toNat * m)
    (hsum : address.toNat + length.toNat < 2 ^ 32)
    (hsize : address.toNat + length.toNat ≤ chip.size) :
    ∃ t, (erase chip flash address length).run s = .ok () t ∧ t.contents =
      (stepBy address (address + length) flash.eraseSize).foldl
        (fun contents addr => eraseAt chip flash addr contents) s.contents := by
  have hinside : ∀ addr ∈ stepBy address (address + length) flash.eraseSize,
      addr < flash.size := by
    intro addr haddr
    obtain ⟨k, hk, heq⟩ := (mem_stepBy hd.eraseSize_pos hm hsum).1 haddr
    have hlt : flash.eraseSize.toNat * k < length.toNat := by
      rw [hm]
      exact (Nat.mul_lt_mul_left hd.eraseSize_pos).2 hk
    rw [BitVec.lt_def, hd.size, heq, Nat.mul_comm]
    omega
  obtain ⟨t, ht, -, hcontents⟩ := run_eraseRounds hd hs hinside
  refine ⟨t, ?_, hcontents⟩
  rw [run_erase_of_aligned hd hal,
    Hoare.run_bind_of_ok (run_liftRun_of_returns (returns_checkedAdd _ _) hsum), ht]

/-- A range of whole sectors that ends behind the chip leads to an error. -/
theorem run_erase_of_gt (hd : Describes flash chip) (hs : Ready flash s)
    (hal : Aligned flash address length) (hsum : address.toNat + length.toNat < 2 ^ 32)
    (hsize : chip.size < address.toNat + length.toNat) (hpos : length ≠ 0) :
    ∃ e t, (erase chip flash address length).run s = .error (.err e) t := by
  obtain ⟨m, hm⟩ := hal.2
  have hlast : ∃ addr ∈ stepBy address (address + length) flash.eraseSize,
      ¬ addr < flash.size := by
    obtain ⟨x, hx⟩ := hal.1
    obtain ⟨z, hz⟩ := hd.eraseSize_dvd
    have hE := hd.eraseSize_pos
    rw [hx, hm, hz, ← Nat.mul_add, Nat.mul_lt_mul_left hE] at hsize
    have hm0 : 0 < m := by
      refine Nat.pos_of_ne_zero fun h => hpos (BitVec.eq_of_toNat_eq ?_)
      rw [hm, h]
      rfl
    have hlt : address.toNat + (m - 1) * flash.eraseSize.toNat < 2 ^ 32 := by
      refine Nat.lt_of_le_of_lt (Nat.add_le_add_left ?_ _) hsum
      rw [hm, Nat.mul_comm]
      exact Nat.mul_le_mul_left _ (Nat.sub_le m 1)
    refine ⟨BitVec.ofNat 32 (address.toNat + (m - 1) * flash.eraseSize.toNat),
      (mem_stepBy hE hm hsum).2 ⟨m - 1, Nat.sub_lt hm0 Nat.one_pos, Nat.mod_eq_of_lt hlt⟩, ?_⟩
    rw [BitVec.lt_def, hd.size, BitVec.toNat_ofNat, Nat.mod_eq_of_lt hlt, not_lt, hx, hz,
      Nat.mul_comm (m - 1), ← Nat.mul_add]
    exact Nat.mul_le_mul_left _ (by omega)
  obtain ⟨e, t, ht⟩ := run_eraseRounds_of_ge hd hs hlast
  refine ⟨e, t, ?_⟩
  rw [run_erase_of_aligned hd hal,
    Hoare.run_bind_of_ok (run_liftRun_of_returns (returns_checkedAdd _ _) hsum), ht]

/-- A range inside the chip is erased, and nothing else, exactly if the blocks make it up. -/
theorem eraseCovers_iff_covers (hd : Describes flash chip)
    (hal : Aligned flash address length) (hm : length.toNat = flash.eraseSize.toNat * m)
    (hsum : address.toNat + length.toNat < 2 ^ 32)
    (hsize : address.toNat + length.toNat ≤ chip.size) (hpos : 0 < length.toNat) :
    EraseCovers chip flash address length ↔ ∃ n, chip.eraseExponent opSectorErase = some n ∧
      Covers (2 ^ n) m
        (fun k => truncate flash.addressMode (address.toNat + k * flash.eraseSize.toNat))
        address.toNat length.toNat := by
  have hblock {n x : ℕ} : (∃ addr ∈ stepBy address (address + length) flash.eraseSize,
      x / 2 ^ n = sentAddress flash.addressMode addr / 2 ^ n) ↔ ∃ k < m, x / 2 ^ n =
        truncate flash.addressMode (address.toNat + k * flash.eraseSize.toNat) / 2 ^ n := by
    constructor
    · rintro ⟨addr, haddr, hx⟩
      obtain ⟨k, hk, heq⟩ := (mem_stepBy hd.eraseSize_pos hm hsum).1 haddr
      exact ⟨k, hk, heq ▸ hx⟩
    · rintro ⟨k, hk, hx⟩
      have hlt : address.toNat + k * flash.eraseSize.toNat < 2 ^ 32 := by
        refine Nat.lt_of_le_of_lt (Nat.add_le_add_left ?_ _) hsum
        rw [hm, Nat.mul_comm]
        exact Nat.mul_le_mul_left _ hk.le
      have haddr := Nat.mod_eq_of_lt hlt
      refine ⟨BitVec.ofNat 32 (address.toNat + k * flash.eraseSize.toNat),
        (mem_stepBy hd.eraseSize_pos hm hsum).2 ⟨k, hk, haddr⟩, ?_⟩
      rwa [sentAddress, BitVec.toNat_ofNat, haddr]
  constructor
  · intro h
    obtain ⟨t, ht, hcontents⟩ := run_erase hd (ready_zeroed flash) hal hm hsum hsize
    have hout := h (zeroed flash) (ready_zeroed flash)
    rw [ht] at hout
    replace hout := hout.2
    cases hn : chip.eraseExponent opSectorErase with
    | none =>
      -- nothing is erased, not even the first byte of the range
      have hfirst := hout address.toNat
      rw [hcontents, eraseAts_none hn, if_pos ⟨le_rfl, Nat.lt_add_of_pos_right hpos⟩] at hfirst
      exact absurd hfirst zero_ne_erased
    | some n =>
      refine ⟨n, rfl, fun x => hblock.symm.trans ?_⟩
      have hx := hout x
      rw [hcontents, eraseAts_apply hn] at hx
      by_cases hin : address.toNat ≤ x ∧ x < address.toNat + length.toNat
      · refine iff_of_true (by_contra fun hc => ?_) hin
        rw [if_neg hc, if_pos hin] at hx
        exact zero_ne_erased hx
      · refine iff_of_false (fun hc => ?_) hin
        rw [if_pos hc, if_neg hin] at hx
        exact zero_ne_erased hx.symm
  · rintro ⟨n, hn, hcovers⟩ s hs
    obtain ⟨t, ht, hcontents⟩ := run_erase hd hs hal hm hsum hsize
    rw [ht]
    refine ⟨hal, fun x => ?_⟩
    rw [hcontents, eraseAts_apply hn]
    exact if_congr (hblock.trans (hcovers x)) rfl rfl

end

/-- Erasing covers its range exactly if the opcode that is sent fits the steps. -/
theorem spi_flash_erase_covers_iff (hd : Describes flash chip) (address length : Word) :
    EraseCovers chip flash address length ↔ EraseFits chip flash address length := by
  by_cases hal : Aligned flash address length
  swap
  · refine iff_of_true (fun s _ => ?_) fun h => absurd h hal
    obtain ⟨e, he⟩ := run_erase_of_not_aligned (s := s) hd hal
    rw [he]
    exact ⟨⟨e, rfl⟩, fun _ => rfl⟩
  obtain ⟨m, hm⟩ := hal.2
  by_cases hzero : length = 0
  · subst hzero
    refine iff_of_true (fun s _ => ?_) fun _ h => absurd rfl h
    rw [run_erase_of_aligned hd hal,
      Hoare.run_bind_of_ok (run_liftRun_of_returns (returns_checkedAdd _ _) address.isLt),
      show address + 0 = address from BitVec.add_zero address, stepBy_self hd.eraseSize_pos]
    refine ⟨hal, fun x => (if_neg fun hx => ?_).symm⟩
    exact absurd hx.2 (not_lt.2 hx.1)
  have hpos : 0 < length.toNat := Nat.pos_of_ne_zero fun h => hzero (BitVec.eq_of_toNat_eq h)
  by_cases hsum : address.toNat + length.toNat < 2 ^ 32
  swap
  · refine iff_of_false (fun h => ?_) fun h => hsum (h hal hzero).1
    have hout := h (zeroed flash) (ready_zeroed flash)
    obtain ⟨why, hwhy⟩ := (returns_checkedAdd (ε := SpiFlashError) address length).panics hsum
    rw [run_erase_of_aligned hd hal, hwhy] at hout
    obtain ⟨e, he⟩ := hout.1
    cases he
  by_cases hsize : address.toNat + length.toNat ≤ chip.size
  · rw [eraseCovers_iff_covers hd hal hm hsum hsize hpos]
    have hm0 : 0 < m := Nat.pos_of_mul_pos_left (hm ▸ hpos)
    have hcovers (n : ℕ) :=
      covers_truncate_iff flash.addressMode address.toNat n hd.eraseSize_pos hm0
    rw [← hm] at hcovers
    simp only [EraseFits, hcovers]
    exact ⟨fun h _ _ => ⟨hsum, fun _ => h⟩, fun h => (h hal hzero).2 hsize⟩
  · refine iff_of_true (fun s hs => ?_) fun _ _ => ⟨hsum, fun h => absurd h hsize⟩
    obtain ⟨e, t, ht⟩ := run_erase_of_gt hd hs hal hsum (not_le.1 hsize) hzero
    rw [ht]
    exact ⟨⟨e, rfl⟩, fun h => absurd hal h⟩

theorem block_dvd_of_eq {size n : ℕ} {op₀ : Byte} (h : 2 ^ n ∣ size) (op : Byte) (k : ℕ)
    (hk : (if op = op₀ then some n else none) = some k) : 2 ^ k ∣ size := by
  split_ifs at hk
  · cases hk
    exact h

/-- A part of `2 ^ m` bytes with blocks of `2 ^ n` bytes, erased by one opcode. -/
def uniformChip (op₀ : Byte) (n m : ℕ) (hblock : n ≤ m) (hpage : 8 ≤ m) : Chip where
  size := 2 ^ m
  eraseExponent op := if op = op₀ then some n else none
  latency _ := 0
  page_dvd := Nat.pow_dvd_pow 2 hpage
  block_dvd := block_dvd_of_eq (Nat.pow_dvd_pow 2 hblock)

theorem spi_flash_erase_covers_4KiB :
    ∃ chip, Describes .default chip ∧ EraseCovers chip .default 0x1000 0x2000 := by
  have hd : Describes .default (uniformChip opSectorErase 12 24 (by decide) (by decide)) :=
    ⟨rfl, ⟨12, rfl, rfl⟩, rfl⟩
  refine ⟨_, hd, (spi_flash_erase_covers_iff hd 0x1000 0x2000).2 fun _ _ => ?_⟩
  refine ⟨by decide, fun _ => ?_⟩
  exact ⟨12, rfl, le_rfl, ⟨1, rfl⟩, ⟨2, rfl⟩, .inr (le_max_of_le_left (by decide))⟩

/-- The table of a part of 16 MiB that erases blocks of 64 KiB with 0xd8, and nothing else. -/
def largeBlockBfpt : List Word :=
  [0xfffb20e7, 0x07ffffff, 0x6b08eb44, 0xbb043b08, 0xfffffffe, 0xff00ffff, 0xeb44ffff, 0x0000d810,
    0x00000000]

/-- For that part the tool says that it has erased a block, and has erased nothing. -/
theorem spi_flash_erase_misses_64KiB :
    ∃ jedec chip, JedecParams.tryFrom (wordsToBytes largeBlockBfpt) = .ok jedec ∧
      ∀ header phdr params, Describes (fromSfdp ⟨header, phdr, jedec, params⟩) chip ∧
        (∀ s, Ready (fromSfdp ⟨header, phdr, jedec, params⟩) s →
          ∃ t, (erase chip (fromSfdp ⟨header, phdr, jedec, params⟩) 0 0x10000).run s = .ok () t ∧
            t.contents = s.contents) ∧
        ¬ EraseCovers chip (fromSfdp ⟨header, phdr, jedec, params⟩) 0 0x10000 := by
  have h : JedecParams.tryFrom (wordsToBytes largeBlockBfpt) = .ok (decoded ⟨largeBlockBfpt⟩) := by
    rw [tryFrom_eq_ok_iff, tryFrom_wordsToBytes]
    refine ⟨⟨by decide, fun hflag => ?_, by decide, by decide, by decide, by decide⟩, rfl⟩
    exact absurd hflag (by decide)
  refine ⟨_, uniformChip 0xd8 16 24 (by decide) (by decide), h, fun header phdr params => ?_⟩
  have hdensity : (decoded ⟨largeBlockBfpt⟩).density = 0x1000000 := by decide
  have hblock : (decoded ⟨largeBlockBfpt⟩).blockEraseSize = .blockNot4KiB := by decide
  have herase : (decoded ⟨largeBlockBfpt⟩).erase0.opcode = 0xd8 ∧
      (decoded ⟨largeBlockBfpt⟩).erase0.size = 0x10000 := by decide
  have hd : Describes (fromSfdp ⟨header, phdr, decoded ⟨largeBlockBfpt⟩, params⟩)
      (uniformChip 0xd8 16 24 (by decide) (by decide)) := by
    refine describes_fromSfdp_of_erase0 (n := 16) ?_ hblock ?_ ?_
    · exact congrArg BitVec.toNat hdensity
    · rw [herase.1]
      rfl
    · exact congrArg BitVec.toNat herase.2
  have hsize : (fromSfdp ⟨header, phdr, decoded ⟨largeBlockBfpt⟩, params⟩).eraseSize.toNat =
      0x10000 := by
    rw [fromSfdp, hblock]
    exact congrArg BitVec.toNat herase.2
  have hal : Aligned (fromSfdp ⟨header, phdr, decoded ⟨largeBlockBfpt⟩, params⟩) 0 0x10000 := by
    rw [Aligned, hsize]
    exact ⟨⟨0, rfl⟩, ⟨1, rfl⟩⟩
  have hrun {s : NorFlash.State}
      (hs : Ready (fromSfdp ⟨header, phdr, decoded ⟨largeBlockBfpt⟩, params⟩) s) :=
    run_erase hd hs hal (m := 1) (by rw [hsize]; rfl) (by decide)
      (Nat.pow_le_pow_right two_pos (show 16 ≤ 24 by decide))
  refine ⟨hd, fun s hs => ?_, fun hcovers => ?_⟩
  · obtain ⟨t, ht, hcontents⟩ := hrun hs
    exact ⟨t, ht, hcontents.trans (eraseAts_none rfl _ _)⟩
  · obtain ⟨t, ht, hcontents⟩ := hrun (ready_zeroed _)
    have hout := hcovers _ (ready_zeroed _)
    rw [ht] at hout
    have hfirst := hout.2 0
    rw [hcontents, eraseAts_none rfl, if_pos ⟨le_rfl, by decide⟩] at hfirst
    exact zero_ne_erased hfirst

end SpiFlash

end SecureBoot
