import SecureBoot.Base.Error
import SecureBoot.Base.Memory
import SecureBoot.Lib.Pmp

/-! The ePMP library of the silicon creator: an in-memory copy of the PMP registers,
the functions that configure one entry of it and the check of the copy against the
CSRs. An entry of the configuration is decoded by the rules of `Pmp`. -/

namespace SecureBoot

open Pmp (Csrs Cfg lane)

/-- `epmp_perm_t`. -/
inductive EpmpPerm where
  | unlocked | lockedNoAccess | lockedReadOnly | lockedReadWrite | lockedReadExecute
  | lockedReadWriteExecute
  deriving DecidableEq, Repr

def EpmpPerm.code : EpmpPerm → Word
  | .unlocked => 0
  | .lockedNoAccess => 0x80
  | .lockedReadOnly => 0x81
  | .lockedReadWrite => 0x83
  | .lockedReadExecute => 0x85
  | .lockedReadWriteExecute => 0x87

/-- `epmp_mode_t`. -/
inductive EpmpMode where
  | off | tor | na4 | napot
  deriving DecidableEq, Repr

def EpmpMode.code : EpmpMode → Word
  | .off => 0 <<< 3
  | .tor => 1 <<< 3
  | .na4 => 2 <<< 3
  | .napot => 3 <<< 3

/-- `epmp_region_t`: `start` is inclusive and `end_` exclusive. -/
structure EpmpRegion where
  start : Word
  end_ : Word
  deriving DecidableEq

abbrev kMseccfgMmwp : Word := 1 <<< 1

abbrev kMseccfgRlb : Word := 1 <<< 2

/-- `epmp_state_t`. -/
structure EpmpState where
  pmpcfg : Fin 4 → Word
  pmpaddr : Fin 16 → Word
  mseccfg : Word

def EpmpState.zero : EpmpState := ⟨fun _ => 0, fun _ => 0, 0⟩

/-- The CSRs and their copy `epmp_state`. -/
structure Epmp where
  csrs : Csrs
  state : EpmpState

/-! ### Configuration of the copy -/

/-- The configuration register that holds an entry. -/
def cfgReg (entry : Fin 16) : Fin 4 := ⟨entry.val / 4, by omega⟩

namespace EpmpState

/-- The last two lines of each of the configuration functions. -/
def setCfg (s : EpmpState) (entry : Fin 16) (mode : EpmpMode) (perm : EpmpPerm) : EpmpState :=
  let field : BitfieldField32 := ⟨0xff, (entry.val % 4) * 8⟩
  let pmpcfg := bitfieldField32Write (s.pmpcfg (cfgReg entry)) field (mode.code ||| perm.code)
  { s with pmpcfg := Function.update s.pmpcfg (cfgReg entry) pmpcfg }

def setAddr (s : EpmpState) (entry : Fin 16) (addr : Word) : EpmpState :=
  { s with pmpaddr := Function.update s.pmpaddr entry addr }

end EpmpState

def epmpStateConfigureTor (s : EpmpState) (entry : Fin 16) (region : EpmpRegion)
    (perm : EpmpPerm) : EpmpState :=
  let s := if entry > 0 then s.setAddr (entry - 1) (region.start >>> 2) else s
  (s.setAddr entry (region.end_ >>> 2)).setCfg entry .tor perm

def epmpStateConfigureNa4 (s : EpmpState) (entry : Fin 16) (region : EpmpRegion)
    (perm : EpmpPerm) : EpmpState :=
  (s.setAddr entry (region.start >>> 2)).setCfg entry .na4 perm

def epmpStateConfigureNapot (s : EpmpState) (entry : Fin 16) (region : EpmpRegion)
    (perm : EpmpPerm) : EpmpState :=
  let len := (region.end_ - region.start - 1) >>> 3
  (s.setAddr entry ((region.start >>> 2) ||| len)).setCfg entry .napot perm

section Fields

variable (s : EpmpState) (entry : Fin 16) (region : EpmpRegion) (perm : EpmpPerm)

/-- The `pmpcfg` registers after the byte of an entry is written. -/
def pmpcfgWrite (pmpcfg : Fin 4 → Word) (entry : Fin 16) (mode : EpmpMode) (perm : EpmpPerm) :
    Fin 4 → Word :=
  Function.update pmpcfg (cfgReg entry) (bitfieldField32Write (pmpcfg (cfgReg entry))
    ⟨0xff, (entry.val % 4) * 8⟩ (mode.code ||| perm.code))

theorem pmpcfg_epmpStateConfigureTor : (epmpStateConfigureTor s entry region perm).pmpcfg =
    pmpcfgWrite s.pmpcfg entry .tor perm := by
  unfold epmpStateConfigureTor
  split_ifs <;> rfl

theorem pmpcfg_epmpStateConfigureNa4 : (epmpStateConfigureNa4 s entry region perm).pmpcfg =
    pmpcfgWrite s.pmpcfg entry .na4 perm := rfl

theorem pmpcfg_epmpStateConfigureNapot : (epmpStateConfigureNapot s entry region perm).pmpcfg =
    pmpcfgWrite s.pmpcfg entry .napot perm := rfl

theorem pmpaddr_epmpStateConfigureTor (hentry : entry > 0) :
    (epmpStateConfigureTor s entry region perm).pmpaddr =
      Function.update (Function.update s.pmpaddr (entry - 1) (region.start >>> 2)) entry
        (region.end_ >>> 2) := by
  rw [epmpStateConfigureTor, if_pos hentry]
  rfl

theorem pmpaddr_epmpStateConfigureNa4 : (epmpStateConfigureNa4 s entry region perm).pmpaddr =
    Function.update s.pmpaddr entry (region.start >>> 2) := rfl

theorem pmpaddr_epmpStateConfigureNapot :
    (epmpStateConfigureNapot s entry region perm).pmpaddr =
      Function.update s.pmpaddr entry
        (Pmp.napotAddr region.start (region.end_ - region.start)) := rfl

theorem mseccfg_epmpStateConfigureTor :
    (epmpStateConfigureTor s entry region perm).mseccfg = s.mseccfg := by
  unfold epmpStateConfigureTor
  split_ifs <;> rfl

end Fields

/-! ### Decoding -/

def EpmpMode.pmp : EpmpMode → Pmp.Mode
  | .off => .off
  | .tor => .tor
  | .na4 => .na4
  | .napot => .napot

/-- The configuration byte of a mode and a permission. -/
def epmpCfg (mode : EpmpMode) (perm : EpmpPerm) : Cfg :=
  .ofByte ((mode.code ||| perm.code).setWidth 8)

@[simp] theorem mode_epmpCfg (mode : EpmpMode) (perm : EpmpPerm) :
    (epmpCfg mode perm).mode = mode.pmp := by
  cases mode <;> cases perm <;> decide

@[simp] theorem lock_epmpCfg (mode : EpmpMode) (perm : EpmpPerm) :
    (epmpCfg mode perm).lock = decide (perm ≠ .unlocked) := by
  cases mode <;> cases perm <;> decide

@[simp] theorem exec_epmpCfg (mode : EpmpMode) (perm : EpmpPerm) :
    (epmpCfg mode perm).exec =
      decide (perm = .lockedReadExecute ∨ perm = .lockedReadWriteExecute) := by
  cases mode <;> cases perm <;> decide

@[simp] theorem write_epmpCfg (mode : EpmpMode) (perm : EpmpPerm) :
    (epmpCfg mode perm).write =
      decide (perm = .lockedReadWrite ∨ perm = .lockedReadWriteExecute) := by
  cases mode <;> cases perm <;> decide

theorem code_byte (mode : EpmpMode) (perm : EpmpPerm) :
    mode.code ||| perm.code = (epmpCfg mode perm).byte.setWidth 32 := by
  cases mode <;> cases perm <;> decide

theorem code_and_mask (mode : EpmpMode) (perm : EpmpPerm) :
    (mode.code ||| perm.code) &&& 0xff = (epmpCfg mode perm).byte.setWidth 32 := by
  cases mode <;> cases perm <;> decide

/-- The intended configuration of one PMP entry. -/
structure EpmpEntry where
  mode : EpmpMode
  perm : EpmpPerm
  region : EpmpRegion

def EpmpRegion.Mem (region : EpmpRegion) (a : Word) : Prop := region.start ≤ a ∧ a < region.end_

instance : Membership Word EpmpRegion := ⟨EpmpRegion.Mem⟩

theorem EpmpRegion.mem_iff (region : EpmpRegion) (a : Word) :
    a ∈ region ↔ region.start.toNat ≤ a.toNat ∧ a.toNat < region.end_.toNat := Iff.rfl

namespace EpmpEntry

def addr (e : EpmpEntry) : Word :=
  match e.mode with
  | .off => 0
  | .tor => e.region.end_ >>> 2
  | .na4 => e.region.start >>> 2
  | .napot => Pmp.napotAddr e.region.start (e.region.end_ - e.region.start)

/-- The regions that a mode can express. -/
def LegallyAligned (e : EpmpEntry) : Prop :=
  match e.mode with
  | .off => False
  | .tor => 4 ∣ e.region.start.toNat ∧ 4 ∣ e.region.end_.toNat
  | .na4 => 4 ∣ e.region.start.toNat ∧ e.region.end_.toNat = e.region.start.toNat + 4
  | .napot => ∃ k, 3 ≤ k ∧ 2 ^ k ∣ e.region.start.toNat ∧
      e.region.end_.toNat = e.region.start.toNat + 2 ^ k

/-- What the registers of entry `i` hold when it is configured as `e`. -/
structure In (e : EpmpEntry) (s : Csrs) (i : Fin 16) : Prop where
  cfg : s.cfg i = epmpCfg e.mode e.perm
  addr : s.addr i = e.addr
  start : e.mode = .tor → s.prevAddr i = e.region.start >>> 2

/-- A configured entry matches exactly the addresses of its region. -/
theorem In.matches_iff {e : EpmpEntry} {s : Csrs} {i : Fin 16} (h : e.In s i)
    (halign : e.LegallyAligned) (a : Word) : s.Matches i a ↔ a ∈ e.region := by
  rw [Csrs.Matches, h.cfg, h.addr, mode_epmpCfg, e.region.mem_iff]
  unfold LegallyAligned at halign
  unfold EpmpEntry.addr
  cases hmode : e.mode with
  | off => simp [hmode] at halign
  | tor =>
    simp only [hmode, EpmpMode.pmp] at halign ⊢
    rw [h.start hmode]
    exact Pmp.matches_tor halign.1 halign.2 a
  | na4 =>
    simp only [hmode, EpmpMode.pmp] at halign ⊢
    rw [Pmp.matches_na4 halign.1, halign.2]
  | napot =>
    simp only [hmode, EpmpMode.pmp] at halign ⊢
    obtain ⟨k, hk, hstart, hend⟩ := halign
    have hlen : (e.region.end_ - e.region.start).toNat = 2 ^ k := by
      rw [BitVec.toNat_sub_of_le (by rw [BitVec.le_def]; omega), hend, Nat.add_sub_cancel_left]
    rw [Pmp.matches_napot hk hlen hstart, hlen, hend]

end EpmpEntry

/-! ### The check -/

/-- The CSRs that `epmp_state_check` compares, each with its expected value. -/
def Epmp.checks (m : Epmp) : List (Word × Word) :=
  ((List.finRange 16).map fun i => (m.csrs.addr i, m.state.pmpaddr i)) ++
  ((List.finRange 4).map fun k => (m.csrs.readCfg k, m.state.pmpcfg k)) ++
  [(m.csrs.readMseccfg, m.state.mseccfg), (0, 0)]

def epmpStateCheck (m : Epmp) : RomError :=
  let checks := BitVec.ofNat 32 (m.checks.countP fun check => check.1 = check.2)
  let kTotalChecks : Word := 22
  let error := kErrorOk ^^^ kTotalChecks
  if checks = kTotalChecks then error ^^^ checks else kErrorEpmpBadCheck

/-- The copy holds the values of the CSRs. -/
structure Epmp.Agrees (m : Epmp) : Prop where
  pmpcfg : ∀ k, m.csrs.readCfg k = m.state.pmpcfg k
  pmpaddr : ∀ i, m.csrs.addr i = m.state.pmpaddr i
  mseccfg : m.csrs.readMseccfg = m.state.mseccfg

/-- `bitfield_field32_write` of the byte of an entry is a change of that entry alone. -/
theorem readCfg_update (s : Csrs) (entry : Fin 16) (mode : EpmpMode) (perm : EpmpPerm)
    (k : Fin 4) :
    Csrs.readCfg { s with cfg := Function.update s.cfg entry (epmpCfg mode perm) } k =
      pmpcfgWrite s.readCfg entry mode perm k := by
  have hlane := Nat.mod_lt entry.val (by decide : 0 < 4)
  have hentry (j : ℕ) (hj : j < 4) : Csrs.entry k j = entry ↔ k = cfgReg entry ∧ j = entry.val % 4 := by
    have hreg : k = cfgReg entry ↔ entry.val / 4 = k := by
      rw [Fin.ext_iff, cfgReg]
      exact eq_comm
    rw [eq_comm, Csrs.eq_entry_iff entry k hj, hreg, eq_comm (a := j)]
  refine Pmp.ext_lanes fun j hj => ?_
  rw [Csrs.lane_readCfg _ k hj]
  by_cases hk : k = cfgReg entry
  · subst hk
    rw [pmpcfgWrite, Function.update_self]
    simp only [bitfieldField32Write, code_and_mask, Nat.mul_comm _ 8]
    rw [Pmp.lane_or, Pmp.lane_clear _ _ hj, Pmp.lane_shift _ _ hj]
    by_cases hij : j = entry.val % 4
    · rw [(hentry j hj).mpr ⟨rfl, hij⟩, Function.update_self, if_pos hij, if_pos hij]
      exact BitVec.zero_or.symm
    · rw [Function.update_of_ne (mt (hentry j hj).mp (by tauto)), if_neg hij, if_neg hij,
        Csrs.lane_readCfg _ _ hj]
      exact BitVec.or_zero.symm
  · rw [pmpcfgWrite, Function.update_of_ne hk, Csrs.lane_readCfg _ k hj]
    simp only [Function.update_of_ne (mt (hentry j hj).mp (by tauto))]

/-- A step that configures one entry on both sides keeps the agreement. -/
theorem Epmp.Agrees.configure {m m' : Epmp} (h : m.Agrees) {entry : Fin 16} {mode : EpmpMode}
    {perm : EpmpPerm} (hcfg : m'.csrs.cfg = Function.update m.csrs.cfg entry (epmpCfg mode perm))
    (hpmpcfg : m'.state.pmpcfg = pmpcfgWrite m.state.pmpcfg entry mode perm)
    (hpmpaddr : m.csrs.addr = m.state.pmpaddr → m'.csrs.addr = m'.state.pmpaddr)
    (hreg : m'.csrs.readMseccfg = m.csrs.readMseccfg)
    (hmseccfg : m'.state.mseccfg = m.state.mseccfg) : m'.Agrees where
  pmpcfg k := by
    have hread : m.csrs.readCfg = m.state.pmpcfg := funext h.pmpcfg
    rw [hpmpcfg, ← hread, ← readCfg_update, Csrs.readCfg, hcfg]
    rfl
  pmpaddr i := congrFun (hpmpaddr (funext h.pmpaddr)) i
  mseccfg := by rw [hreg, hmseccfg, h.mseccfg]

theorem Epmp.agrees_iff (m : Epmp) : m.Agrees ↔ ∀ check ∈ m.checks, check.1 = check.2 := by
  simp only [checks, List.forall_mem_append, List.forall_mem_map, List.mem_finRange, true_imp_iff,
    List.forall_mem_cons]
  constructor
  · intro h
    exact ⟨⟨h.pmpaddr, h.pmpcfg⟩, h.mseccfg, trivial, by simp⟩
  · rintro ⟨⟨haddr, hcfg⟩, hmseccfg, -⟩
    exact ⟨hcfg, haddr, hmseccfg⟩

/-- The check succeeds exactly on a copy that holds the values of the CSRs. -/
theorem epmpStateCheck_eq_ok_iff (m : Epmp) : epmpStateCheck m = kErrorOk ↔ m.Agrees := by
  have hle : m.checks.countP (fun check => check.1 = check.2) ≤ 22 := List.countP_le_length
  have hcount : BitVec.ofNat 32 (m.checks.countP fun check => check.1 = check.2) = 22 ↔
      m.Agrees := by
    rw [m.agrees_iff, ← BitVec.toNat_inj, BitVec.toNat_ofNat, Nat.mod_eq_of_lt (by omega),
      show (22 : Word).toNat = m.checks.length from rfl, List.countP_eq_length]
    simp only [decide_eq_true_eq]
  rw [← hcount]
  simp only [epmpStateCheck]
  split_ifs with h
  · exact iff_of_true (by rw [h]; decide) h
  · exact iff_of_false (by decide) h

end SecureBoot
