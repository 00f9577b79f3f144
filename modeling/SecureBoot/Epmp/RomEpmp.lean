import SecureBoot.Epmp.State

/-! The ePMP configuration of the ROM, kept twice: by assembly and CSR writes in
the hardware, and by the library in `epmp_state`. The two agree after initialization,
and every unlock of a ROM_EXT region changes the same entry on both sides. -/

namespace SecureBoot

open Pmp (Csrs Cfg)

/-! ### Regions -/

/-- The symbols of the linker script, with the alignment it gives them. -/
structure RomSymbols where
  textStart : Word
  textEnd : Word
  stackStart : Word
  textStart_aligned : 4 ∣ textStart.toNat
  textEnd_aligned : 4 ∣ textEnd.toNat
  stackStart_aligned : 4 ∣ stackStart.toNat
  stackStart_lt : stackStart.toNat + 4 < 2 ^ 32

/-- The region of a memory with a base address and a size in bytes. -/
def memRegion (base size : Word) : EpmpRegion := ⟨base, base + size⟩

def romRegion : EpmpRegion := memRegion kRomBaseAddr kRomSizeBytes

def eflashRegion : EpmpRegion := memRegion kEflashBaseAddr kEflashSizeBytes

def mmioRegion : EpmpRegion := memRegion kMmioBaseAddr kMmioSizeBytes

def debugRomRegion : EpmpRegion := memRegion kRvDmMemBaseAddr kRvDmMemSizeBytes

def ramRegion : EpmpRegion := memRegion kRamMainBaseAddr kRamMainSizeBytes

namespace RomSymbols

variable (rom : RomSymbols)

def text : EpmpRegion := ⟨rom.textStart, rom.textEnd⟩

def stackGuard : EpmpRegion := memRegion rom.stackStart 4

/-- `_epmp_text_tor_lo`. -/
def epmpTextTorLo : Word := rom.textStart / 4

/-- `_epmp_text_tor_hi`. -/
def epmpTextTorHi : Word := rom.textEnd / 4

/-- `_epmp_stack_guard_na4`. -/
def epmpStackGuardNa4 : Word := rom.stackStart / 4

end RomSymbols

/-! ### The hardware side -/

/-- The PMP registers after reset. -/
def pmpReset : Csrs where
  cfg
    | 2 => ⟨true, .napot, true, false, true, by decide⟩
    | 11 => ⟨true, .tor, false, true, true, by decide⟩
    | 13 => ⟨true, .napot, true, true, true, by decide⟩
    | _ => .off
  addr
    | 2 => 0x83fc >>> 2
    | 10 => 0x40000000 >>> 2
    | 11 => 0x42010000 >>> 2
    | 13 => 0x107fc >>> 2
    | _ => 0
  rlb := true
  mmwp := true

/-- `CFG_INDEX`. -/
def cfgIndex (i : ℕ) (mode : EpmpMode) (perm : EpmpPerm) : Word :=
  (mode.code ||| perm.code) <<< (i * 8)

/-- `TOR`. -/
def torAddr (addr : Word) : Word := addr >>> 2

open Pmp (napotAddr)

/-- The assembly routine `rom_epmp_init`. -/
def romEpmpInit (rom : RomSymbols) (s : Csrs) : Csrs :=
  let s := s.writeAddr 0 rom.epmpTextTorLo
  let s := s.writeAddr 1 rom.epmpTextTorHi
  let s := s.writeAddr 2 (napotAddr kRomBaseAddr kRomSizeBytes)
  let s := s.writeAddr 3 0
  let s := s.writeAddr 4 0
  let s := s.writeAddr 5 (napotAddr kEflashBaseAddr kEflashSizeBytes)
  let s := s.writeAddr 10 (torAddr kMmioBaseAddr)
  let s := s.writeAddr 11 (torAddr (kMmioBaseAddr + kMmioSizeBytes))
  let s := s.writeAddr 13 (napotAddr kRvDmMemBaseAddr kRvDmMemSizeBytes)
  let s := s.writeAddr 14 rom.epmpStackGuardNa4
  let s := s.writeAddr 15 (napotAddr kRamMainBaseAddr kRamMainSizeBytes)
  let s := s.writeCfg 0 (cfgIndex (1 % 4) .tor .lockedReadExecute |||
    cfgIndex (2 % 4) .napot .lockedReadOnly)
  let s := s.writeCfg 1 (cfgIndex (5 % 4) .napot .lockedReadOnly)
  let s := s.writeCfg 2 (cfgIndex (11 % 4) .tor .lockedReadWrite)
  s.writeCfg 3 (cfgIndex (13 % 4) .napot .lockedReadWriteExecute |||
    cfgIndex (14 % 4) .na4 .lockedNoAccess ||| cfgIndex (15 % 4) .napot .lockedReadWrite)

/-- `CSR_CLEAR_BITS` on a `pmpcfg` register. -/
def csrClearBits (s : Csrs) (k : Fin 4) (mask : Word) : Csrs :=
  s.writeCfg k (s.readCfg k &&& ~~~mask)

/-- `CSR_SET_BITS` on a `pmpcfg` register. -/
def csrSetBits (s : Csrs) (k : Fin 4) (mask : Word) : Csrs :=
  s.writeCfg k (s.readCfg k ||| mask)

/-- The access to the debug ROM that both copies give in a life cycle state. -/
def debugRomAccess : LifecycleState → EpmpPerm
  | .test => .lockedReadWriteExecute
  | .dev => .lockedReadWriteExecute
  | .prod => .lockedNoAccess
  | .prodEnd => .lockedNoAccess
  | .rma => .lockedReadWriteExecute

/-- `rom_epmp_config_debug_rom`. -/
def romEpmpConfigDebugRom (lcState : LifecycleState) (s : Csrs) : Csrs :=
  let pmpaddr := (kRvDmMemBaseAddr >>> 2) ||| ((kRvDmMemSizeBytes - 1) >>> 3)
  let s := s.writeAddr 13 pmpaddr
  let s := csrClearBits s 3 0xff00
  csrSetBits s 3 ((EpmpMode.napot.code ||| (debugRomAccess lcState).code) <<< 8)

/-! ### The copy -/

/-- `rom_epmp_state_init`: it starts from an all-zero `epmp_state`. -/
def romEpmpStateInit (rom : RomSymbols) (lcState : LifecycleState) : EpmpState :=
  let s := EpmpState.zero
  let s := epmpStateConfigureTor s 1 rom.text .lockedReadExecute
  let s := epmpStateConfigureNapot s 2 romRegion .lockedReadOnly
  let s := epmpStateConfigureNapot s 5 eflashRegion .lockedReadOnly
  let s := epmpStateConfigureTor s 11 mmioRegion .lockedReadWrite
  let s := epmpStateConfigureNapot s 13 debugRomRegion (debugRomAccess lcState)
  let s := epmpStateConfigureNa4 s 14 rom.stackGuard .lockedNoAccess
  let s := epmpStateConfigureNapot s 15 ramRegion .lockedReadWrite
  { s with mseccfg := kMseccfgMmwp ||| kMseccfgRlb }

/-! ### Both sides -/

/-- `rom_epmp_unlock_rom_ext_rx`. -/
def romEpmpUnlockRomExtRx (m : Epmp) (region : EpmpRegion) : Epmp :=
  let state := epmpStateConfigureTor m.state 4 region .lockedReadExecute
  let s := m.csrs.writeAddr 3 (region.start >>> 2)
  let s := s.writeAddr 4 (region.end_ >>> 2)
  let s := csrClearBits s 1 0xff
  ⟨csrSetBits s 1 (EpmpMode.tor.code ||| EpmpPerm.lockedReadExecute.code), state⟩

/-- `rom_epmp_unlock_rom_ext_r`. -/
def romEpmpUnlockRomExtR (m : Epmp) (region : EpmpRegion) : Epmp :=
  let state := epmpStateConfigureNapot m.state 6 region .lockedReadOnly
  let s := m.csrs.writeAddr 6 ((region.start >>> 2) ||| ((region.end_ - region.start - 1) >>> 3))
  let s := csrClearBits s 1 (0xff <<< 16)
  ⟨csrSetBits s 1 ((EpmpMode.napot.code ||| EpmpPerm.lockedReadOnly.code) <<< 16), state⟩

/-- A call of one of the unlock functions. -/
inductive EpmpUnlock where
  | romExtRx (region : EpmpRegion)
  | romExtR (region : EpmpRegion)

def EpmpUnlock.run (m : Epmp) : EpmpUnlock → Epmp
  | romExtRx region => romEpmpUnlockRomExtRx m region
  | romExtR region => romEpmpUnlockRomExtR m region

/-- The ePMP from reset through the initialization of the ROM. -/
def epmpAtRomInit (rom : RomSymbols) (lcState : LifecycleState) : Epmp :=
  ⟨romEpmpConfigDebugRom lcState (romEpmpInit rom pmpReset), romEpmpStateInit rom lcState⟩

def epmpRun (rom : RomSymbols) (lcState : LifecycleState) (calls : List EpmpUnlock) : Epmp :=
  calls.foldl EpmpUnlock.run (epmpAtRomInit rom lcState)

/-! ### The registers after initialization -/

variable (rom : RomSymbols) (lcState : LifecycleState)

/-- The entries that `rom_epmp_init` and `rom_epmp_config_debug_rom` configure. -/
def initCfg : Fin 16 → Cfg
  | 1 => epmpCfg .tor .lockedReadExecute
  | 2 => epmpCfg .napot .lockedReadOnly
  | 5 => epmpCfg .napot .lockedReadOnly
  | 11 => epmpCfg .tor .lockedReadWrite
  | 13 => epmpCfg .napot (debugRomAccess lcState)
  | 14 => epmpCfg .na4 .lockedNoAccess
  | 15 => epmpCfg .napot .lockedReadWrite
  | _ => .off

def initAddr : Fin 16 → Word :=
  ![rom.textStart >>> 2, rom.textEnd >>> 2, napotAddr kRomBaseAddr kRomSizeBytes, 0, 0,
    napotAddr kEflashBaseAddr kEflashSizeBytes, 0, 0, 0, 0, kMmioBaseAddr >>> 2,
    (kMmioBaseAddr + kMmioSizeBytes) >>> 2, 0, napotAddr kRvDmMemBaseAddr kRvDmMemSizeBytes,
    rom.stackStart >>> 2, napotAddr kRamMainBaseAddr kRamMainSizeBytes]

theorem cfg_romEpmpInit : (romEpmpInit rom pmpReset).cfg = initCfg .test := by
  have hrlb : pmpReset.rlb = true := rfl
  simp only [romEpmpInit, Csrs.cfg_writeAddr, Csrs.cfg_writeCfg, Csrs.rlb_writeAddr,
    Csrs.rlb_writeCfg, hrlb]
  funext i
  revert i
  decide

theorem udiv_four (w : Word) : w / (4 : Word) = w >>> 2 := by
  rw [← BitVec.toNat_inj, BitVec.toNat_udiv, BitVec.toNat_ushiftRight,
    Nat.shiftRight_eq_div_pow]
  rfl

theorem addr_romEpmpInit : (romEpmpInit rom pmpReset).addr = initAddr rom := by
  have hrlb : pmpReset.rlb = true := rfl
  simp only [romEpmpInit, Csrs.addr_writeAddr, Csrs.addr_writeCfg, Csrs.rlb_writeAddr, hrlb,
    RomSymbols.epmpTextTorLo, RomSymbols.epmpTextTorHi, RomSymbols.epmpStackGuardNa4, udiv_four]
  funext i
  fin_cases i <;> rfl

/-- A clear and a set of one byte of a `pmpcfg` register configure one entry. -/
theorem cfg_csrSetBits_csrClearBits {s : Csrs} (hrlb : s.rlb = true) (k : Fin 4) {j : ℕ}
    (hj : j < 4) (mode : EpmpMode) (perm : EpmpPerm) :
    (csrSetBits (csrClearBits s k ((0xff : Word) <<< (8 * j))) k
      ((mode.code ||| perm.code) <<< (8 * j))).cfg =
      Function.update s.cfg (Csrs.entry k j) (epmpCfg mode perm) := by
  have hclear : (csrClearBits s k ((0xff : Word) <<< (8 * j))).cfg =
      Function.update s.cfg (Csrs.entry k j) .off := s.cfg_writeCfg_clear hrlb k hj
  have hset := (csrClearBits s k ((0xff : Word) <<< (8 * j))).cfg_writeCfg_set hrlb k hj
    (epmpCfg mode perm).byte (by rw [hclear, Function.update_self])
  rw [hclear, Function.update_idem, Cfg.ofByte_byte, ← code_byte] at hset
  exact hset

theorem rlb_romEpmpInit (s : Csrs) : (romEpmpInit rom s).rlb = s.rlb := by
  simp only [romEpmpInit, Csrs.rlb_writeCfg, Csrs.rlb_writeAddr]

theorem mmwp_romEpmpInit (s : Csrs) : (romEpmpInit rom s).mmwp = s.mmwp := by
  simp only [romEpmpInit, Csrs.mmwp_writeCfg, Csrs.mmwp_writeAddr]

theorem rlb_romEpmpConfigDebugRom (s : Csrs) :
    (romEpmpConfigDebugRom lcState s).rlb = s.rlb :=
  s.rlb_writeAddr 13 _

theorem mmwp_romEpmpConfigDebugRom (s : Csrs) :
    (romEpmpConfigDebugRom lcState s).mmwp = s.mmwp :=
  s.mmwp_writeAddr 13 _

theorem cfg_romEpmpConfigDebugRom {s : Csrs} (hrlb : s.rlb = true) :
    (romEpmpConfigDebugRom lcState s).cfg =
      Function.update s.cfg 13 (epmpCfg .napot (debugRomAccess lcState)) := by
  have h := cfg_csrSetBits_csrClearBits (s := s.writeAddr 13
    ((kRvDmMemBaseAddr >>> 2) ||| ((kRvDmMemSizeBytes - 1) >>> 3))) (by simp [hrlb]) 3
    (by decide : 1 < 4) .napot (debugRomAccess lcState)
  rwa [Csrs.cfg_writeAddr] at h

theorem addr_romEpmpConfigDebugRom {s : Csrs} (hrlb : s.rlb = true) :
    (romEpmpConfigDebugRom lcState s).addr = Function.update s.addr 13
      (napotAddr kRvDmMemBaseAddr kRvDmMemSizeBytes) :=
  s.addr_writeAddr hrlb 13 _

theorem cfg_epmpAtRomInit : (epmpAtRomInit rom lcState).csrs.cfg = initCfg lcState := by
  rw [epmpAtRomInit, cfg_romEpmpConfigDebugRom _ (rlb_romEpmpInit rom pmpReset), cfg_romEpmpInit]
  funext i
  cases lcState <;> revert i <;> decide

theorem addr_epmpAtRomInit : (epmpAtRomInit rom lcState).csrs.addr = initAddr rom := by
  rw [epmpAtRomInit, addr_romEpmpConfigDebugRom _ (rlb_romEpmpInit rom pmpReset),
    addr_romEpmpInit]
  exact Function.update_eq_self 13 (initAddr rom)

theorem rlb_epmpAtRomInit : (epmpAtRomInit rom lcState).csrs.rlb = true := by
  rw [epmpAtRomInit, rlb_romEpmpConfigDebugRom, rlb_romEpmpInit]
  rfl

theorem mmwp_epmpAtRomInit : (epmpAtRomInit rom lcState).csrs.mmwp = true := by
  rw [epmpAtRomInit, mmwp_romEpmpConfigDebugRom, mmwp_romEpmpInit]
  rfl

/-! ### Agreement -/

theorem pmpcfg_romEpmpStateInit (k : Fin 4) :
    (romEpmpStateInit rom lcState).pmpcfg k =
      Pmp.pack fun j => (initCfg lcState (Csrs.entry k j)).byte := by
  simp only [romEpmpStateInit, pmpcfg_epmpStateConfigureTor, pmpcfg_epmpStateConfigureNapot,
    pmpcfg_epmpStateConfigureNa4]
  cases lcState <;> revert k <;> decide

theorem pmpaddr_romEpmpStateInit : (romEpmpStateInit rom lcState).pmpaddr = initAddr rom := by
  have h1 : (1 : Fin 16) > 0 := by decide
  have h11 : (11 : Fin 16) > 0 := by decide
  simp only [romEpmpStateInit, pmpaddr_epmpStateConfigureTor _ _ _ _ h1,
    pmpaddr_epmpStateConfigureTor _ _ _ _ h11, pmpaddr_epmpStateConfigureNapot,
    pmpaddr_epmpStateConfigureNa4]
  funext i
  fin_cases i <;> rfl

theorem epmpAtRomInit_agrees : (epmpAtRomInit rom lcState).Agrees where
  pmpcfg k := by
    rw [Csrs.readCfg, cfg_epmpAtRomInit]
    exact (pmpcfg_romEpmpStateInit rom lcState k).symm
  pmpaddr i := by
    rw [addr_epmpAtRomInit]
    exact congrFun (pmpaddr_romEpmpStateInit rom lcState).symm i
  mseccfg := by
    rw [Csrs.readMseccfg, rlb_epmpAtRomInit, mmwp_epmpAtRomInit]
    rfl

/-! ### Unlocking -/

section Unlock

variable (m : Epmp) (region : EpmpRegion)

theorem rlb_romEpmpUnlockRomExtRx :
    (romEpmpUnlockRomExtRx m region).csrs.rlb = m.csrs.rlb :=
  ((m.csrs.writeAddr 3 _).rlb_writeAddr 4 _).trans (m.csrs.rlb_writeAddr 3 _)

theorem mmwp_romEpmpUnlockRomExtRx :
    (romEpmpUnlockRomExtRx m region).csrs.mmwp = m.csrs.mmwp :=
  ((m.csrs.writeAddr 3 _).mmwp_writeAddr 4 _).trans (m.csrs.mmwp_writeAddr 3 _)

theorem cfg_romEpmpUnlockRomExtRx (hrlb : m.csrs.rlb = true) :
    (romEpmpUnlockRomExtRx m region).csrs.cfg =
      Function.update m.csrs.cfg 4 (epmpCfg .tor .lockedReadExecute) := by
  have h := cfg_csrSetBits_csrClearBits
    (s := (m.csrs.writeAddr 3 (region.start >>> 2)).writeAddr 4 (region.end_ >>> 2))
    (by simp [hrlb]) 1 (by decide : 0 < 4) .tor .lockedReadExecute
  rwa [Csrs.cfg_writeAddr, Csrs.cfg_writeAddr] at h

theorem addr_romEpmpUnlockRomExtRx (hrlb : m.csrs.rlb = true) :
    (romEpmpUnlockRomExtRx m region).csrs.addr =
      Function.update (Function.update m.csrs.addr 3 (region.start >>> 2)) 4
        (region.end_ >>> 2) := by
  have h := (m.csrs.writeAddr 3 (region.start >>> 2)).addr_writeAddr (by simp [hrlb]) 4
    (region.end_ >>> 2)
  rwa [Csrs.addr_writeAddr _ hrlb] at h

theorem romEpmpUnlockRomExtRx_agrees (hrlb : m.csrs.rlb = true) (h : m.Agrees) :
    (romEpmpUnlockRomExtRx m region).Agrees := by
  refine h.configure (cfg_romEpmpUnlockRomExtRx m region hrlb)
    (pmpcfg_epmpStateConfigureTor _ _ _ _) (fun haddr => ?_) ?_
    (mseccfg_epmpStateConfigureTor _ _ _ _)
  · rw [addr_romEpmpUnlockRomExtRx m region hrlb, haddr]
    exact (pmpaddr_epmpStateConfigureTor m.state 4 region _ (by decide)).symm
  · rw [Csrs.readMseccfg, rlb_romEpmpUnlockRomExtRx, mmwp_romEpmpUnlockRomExtRx, Csrs.readMseccfg]

theorem rlb_romEpmpUnlockRomExtR :
    (romEpmpUnlockRomExtR m region).csrs.rlb = m.csrs.rlb :=
  m.csrs.rlb_writeAddr 6 _

theorem mmwp_romEpmpUnlockRomExtR :
    (romEpmpUnlockRomExtR m region).csrs.mmwp = m.csrs.mmwp :=
  m.csrs.mmwp_writeAddr 6 _

theorem cfg_romEpmpUnlockRomExtR (hrlb : m.csrs.rlb = true) :
    (romEpmpUnlockRomExtR m region).csrs.cfg =
      Function.update m.csrs.cfg 6 (epmpCfg .napot .lockedReadOnly) := by
  have h := cfg_csrSetBits_csrClearBits (s := m.csrs.writeAddr 6
    ((region.start >>> 2) ||| ((region.end_ - region.start - 1) >>> 3)))
    (by simp [hrlb]) 1 (by decide : 2 < 4) .napot .lockedReadOnly
  rwa [Csrs.cfg_writeAddr] at h

theorem addr_romEpmpUnlockRomExtR (hrlb : m.csrs.rlb = true) :
    (romEpmpUnlockRomExtR m region).csrs.addr =
      Function.update m.csrs.addr 6 (napotAddr region.start (region.end_ - region.start)) :=
  m.csrs.addr_writeAddr hrlb 6 _

theorem romEpmpUnlockRomExtR_agrees (hrlb : m.csrs.rlb = true) (h : m.Agrees) :
    (romEpmpUnlockRomExtR m region).Agrees := by
  refine h.configure (cfg_romEpmpUnlockRomExtR m region hrlb)
    (pmpcfg_epmpStateConfigureNapot _ _ _ _) (fun haddr => ?_) ?_ rfl
  · rw [addr_romEpmpUnlockRomExtR m region hrlb, haddr]
    exact (pmpaddr_epmpStateConfigureNapot m.state 6 region _).symm
  · rw [Csrs.readMseccfg, rlb_romEpmpUnlockRomExtR, mmwp_romEpmpUnlockRomExtR, Csrs.readMseccfg]

end Unlock

end SecureBoot
