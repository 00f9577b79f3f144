import SecureBoot.Base.Word
import SecureBoot.Lib.Pmp

/-! The functions that configure one region of the physical memory protection, on a core whose
registers may keep what they like of a write. Each register is read back after it is written. -/

namespace SecureBoot

open Pmp (Csrs Cfg Regs Warl)

/-- `pmp_region_permissions_t`. -/
inductive PmpRegionPermissions
  | None
  | ReadOnly
  | ExecuteOnly
  | ReadExecute
  | ReadWrite
  | ReadWriteExecute
  /-- A value outside of the enumeration. -/
  | other (code : Word)

/-- `pmp_region_lock_t`. -/
inductive PmpRegionLock
  | Unlocked
  | Locked
  deriving DecidableEq

/-- `pmp_region_config_t`. -/
structure PmpRegionConfig where
  lock : PmpRegionLock
  permissions : PmpRegionPermissions

/-- `pmp_region_configure_result_t`. -/
inductive PmpRegionConfigureResult
  | Ok
  | Error
  | BadArg
  | BadRegion
  | BadAddress
  | WarlError
  deriving DecidableEq

/-- `pmp_region_configure_na4_result_t`. -/
inductive PmpRegionConfigureNa4Result
  | shared (result : PmpRegionConfigureResult)
  | Unavailable
  deriving DecidableEq

/-- `pmp_region_configure_napot_result_t`. -/
inductive PmpRegionConfigureNapotResult
  | shared (result : PmpRegionConfigureResult)
  | BadSize
  deriving DecidableEq

/-- The registers and the number of their writes so far. -/
structure PmpCsrs where
  regs : Regs
  writes : ℕ

/-! ### The registers -/

section Csrs

variable (warl : Warl) (region : Word) (c : PmpCsrs)

def pmpCfgCsrRead : Option Word :=
  if h : region.toNat < 16 then some (c.regs.readCfg (Regs.reg ⟨region.toNat, h⟩)) else none

def pmpCfgCsrWrite (value : Word) : Option PmpCsrs :=
  if h : region.toNat < 16 then
    some ⟨c.regs.writeCfg warl (Regs.reg ⟨region.toNat, h⟩) value, c.writes + 1⟩
  else none

def pmpAddrCsrRead : Option Word :=
  if h : region.toNat < 16 then some (c.regs.addr ⟨region.toNat, h⟩) else none

def pmpAddrCsrWrite (value : Word) : Option PmpCsrs :=
  if h : region.toNat < 16 then
    some ⟨c.regs.writeAddr warl ⟨region.toNat, h⟩ value, c.writes + 1⟩
  else none

def pmpCsrCfgFieldWrite (field_value : Word) : PmpRegionConfigureResult × PmpCsrs :=
  match pmpCfgCsrRead region c with
  | none => (.Error, c)
  | some cfg_csr_current =>
    let field_index := (region % 4) * 8
    let cfg_csr_new :=
      bitfieldField32Write cfg_csr_current ⟨0xff, field_index.toNat⟩ field_value
    match pmpCfgCsrWrite warl region c cfg_csr_new with
    | none => (.Error, c)
    | some c =>
      match pmpCfgCsrRead region c with
      | none => (.Error, c)
      | some cfg_csr_current =>
        if cfg_csr_current ≠ cfg_csr_new then (.WarlError, c) else (.Ok, c)

def pmpCsrAddressWrite (address : Word) : PmpRegionConfigureResult × PmpCsrs :=
  let address_shifted := address >>> 2
  match pmpAddrCsrWrite warl region c address_shifted with
  | none => (.Error, c)
  | some c =>
    match pmpAddrCsrRead region c with
    | none => (.Error, c)
    | some addr_csr_after_write =>
      if address_shifted ≠ addr_csr_after_write then (.WarlError, c) else (.Ok, c)

end Csrs

/-! ### The configuration of a region -/

def pmpCfgPermissionsSet (perm : PmpRegionPermissions) (bitfield : Word) : Option Word :=
  let kPmpCfgCsrR := 0
  let kPmpCfgCsrW := 1
  let kPmpCfgCsrX := 2
  match perm with
  | .None => some bitfield
  | .ReadOnly => some (bitfieldBit32Write bitfield kPmpCfgCsrR true)
  | .ExecuteOnly => some (bitfieldBit32Write bitfield kPmpCfgCsrX true)
  | .ReadExecute =>
    some (bitfieldBit32Write (bitfieldBit32Write bitfield kPmpCfgCsrR true) kPmpCfgCsrX true)
  | .ReadWrite =>
    some (bitfieldBit32Write (bitfieldBit32Write bitfield kPmpCfgCsrR true) kPmpCfgCsrW true)
  | .ReadWriteExecute =>
    some (bitfieldBit32Write (bitfieldBit32Write (bitfieldBit32Write bitfield kPmpCfgCsrR true)
      kPmpCfgCsrW true) kPmpCfgCsrX true)
  | .other _ => none

def pmpCfgModeLockSet (lock : PmpRegionLock) (bitfield : Word) : Word :=
  bitfieldBit32Write bitfield 7 (lock == .Locked)

/-- `kPmpCfgModeField`. -/
def kPmpCfgModeField : BitfieldField32 := ⟨0x3, 3⟩

/-- The `field_value` of the functions that set a mode. -/
def pmpFieldValue (config : PmpRegionConfig) (mode : Word) : Option Word :=
  (pmpCfgPermissionsSet config.permissions 0).map fun field_value =>
    bitfieldField32Write (pmpCfgModeLockSet config.lock field_value) kPmpCfgModeField mode

def pmpAddressAligned (address : Word) : Bool := address == address &&& ~~~(4 - 1)

def pmpNapotAddressConstruct (address size : Word) :
    Except PmpRegionConfigureNapotResult Word :=
  if size < 4 ∨ size < 8 then .error (.shared .BadAddress)
  else
    let size_mask := size - 1
    if size &&& size_mask ≠ 0 then .error .BadSize
    else if address ≠ address &&& ~~~size_mask then .error (.shared .BadAddress)
    else .ok (address ||| size_mask >>> 1)

section Configure

variable (warl : Warl) (region : Word) (config : PmpRegionConfig) (address : Word) (c : PmpCsrs)

/-- Address registers are written before the configuration registers, which may lock them. -/
def pmpAddressThenCfg (field_value : Word) : PmpRegionConfigureResult × PmpCsrs :=
  match pmpCsrAddressWrite warl region c address with
  | (.Ok, c) => pmpCsrCfgFieldWrite warl region c field_value
  | r => r

def pmpRegionConfigureOff : PmpRegionConfigureResult × PmpCsrs :=
  if region ≥ 16 then (.BadRegion, c)
  else if !pmpAddressAligned address then (.BadAddress, c)
  else pmpAddressThenCfg warl region address c 0

def pmpRegionConfigureNa4 : PmpRegionConfigureNa4Result × PmpCsrs :=
  let kPmpGranularityIbex := 0
  if kPmpGranularityIbex > 0 then (.Unavailable, c)
  else if region ≥ 16 then (.shared .BadRegion, c)
  else if !pmpAddressAligned address then (.shared .BadAddress, c)
  else
    match pmpFieldValue config 2 with
    | none => (.shared .Error, c)
    | some field_value => (pmpAddressThenCfg warl region address c field_value).map .shared id

def pmpRegionConfigureNapot (size : Word) : PmpRegionConfigureNapotResult × PmpCsrs :=
  if region ≥ 16 then (.shared .BadRegion, c)
  else
    match pmpNapotAddressConstruct address size with
    | .error napot_result => (napot_result, c)
    | .ok napot_address =>
      match pmpFieldValue config 3 with
      | none => (.shared .Error, c)
      | some field_value =>
        (pmpAddressThenCfg warl region napot_address c field_value).map .shared id

def pmpRegionConfigureTor (address_end : Word) : PmpRegionConfigureResult × PmpCsrs :=
  if region ≥ 16 then (.BadRegion, c)
  else if region = 0 ∧ address > 0 then (.BadAddress, c)
  else if region > 0 ∧ !pmpAddressAligned address then (.BadAddress, c)
  else if !pmpAddressAligned address_end then (.BadAddress, c)
  else
    match pmpFieldValue config 1 with
    | none => (.Error, c)
    | some field_value =>
      if region ≠ 0 then
        match pmpCsrAddressWrite warl (region - 1) c address with
        | (.Ok, c) => pmpAddressThenCfg warl region address_end c field_value
        | r => r
      else pmpAddressThenCfg warl region address_end c field_value

end Configure

/-! ### The requests -/

theorem not_writable {read : Bool} (h : false = true) : read = true := by cases h

theorem readable_of_writable (_ : true = true) : true = true := rfl

/-- The entry that a configuration asks for, when its permissions are known. -/
def PmpRegionConfig.cfg (config : PmpRegionConfig) (mode : Pmp.Mode) : Option Cfg :=
  let lock := config.lock == .Locked
  match config.permissions with
  | .None => some ⟨lock, mode, false, false, false, not_writable⟩
  | .ReadOnly => some ⟨lock, mode, false, false, true, not_writable⟩
  | .ExecuteOnly => some ⟨lock, mode, true, false, false, not_writable⟩
  | .ReadExecute => some ⟨lock, mode, true, false, true, not_writable⟩
  | .ReadWrite => some ⟨lock, mode, false, true, true, readable_of_writable⟩
  | .ReadWriteExecute => some ⟨lock, mode, true, true, true, readable_of_writable⟩
  | .other _ => none

theorem pmpFieldValue_eq (config : PmpRegionConfig) (mode : Pmp.Mode) :
    pmpFieldValue config (mode.bits.setWidth 32) =
      (config.cfg mode).map fun cfg => cfg.byte.setWidth 32 := by
  obtain ⟨lock, permissions⟩ := config
  cases permissions with
  | other => rfl
  | _ => cases lock <;> cases mode <;> decide

/-- What a successful call leaves: the entry decodes to the request, and the registers that
are not its own are as before. -/
structure PmpEncodes (before after : Regs) (i : Fin 16) (own : Fin 16 → Prop) (cfg : Cfg)
    (range : Word → Prop) : Prop where
  byte : after.cfg i = cfg.byte
  cfg : after.decode.cfg i = cfg
  range : ∀ a, after.decode.Matches i a ↔ range a
  other_cfg : ∀ j ≠ i, after.cfg j = before.cfg j
  other_addr : ∀ j, ¬ own j → after.addr j = before.addr j

/-- A call with result `out`, whose type has the results `shared` in it. -/
structure PmpConfigures {ρ : Type} (shared : PmpRegionConfigureResult → ρ) (c : PmpCsrs)
    (out : ρ × PmpCsrs) (region : Word) (accepted : Prop) (own : Fin 16 → Fin 16 → Prop)
    (cfg : Option Cfg) (range : Word → Prop) : Prop where
  accepted_iff : (out.1 = shared .Ok ∨ out.1 = shared .WarlError) ↔ accepted
  /-- An argument error comes before any write. -/
  rejected : ¬ accepted → out.2 = c
  ok : out.1 = shared .Ok → ∃ i : Fin 16, ∃ cfg', i.val = region.toNat ∧ cfg = some cfg' ∧
    PmpEncodes c.regs out.2.regs i (own i) cfg' range

end SecureBoot
