import SecureBoot.Base.Word

/-! The KMAC driver of the crypto library: `kmac_init` on the configuration register, which
takes a value that is written twice. -/

namespace SecureBoot

/-- `kmac_operation_t`. -/
inductive KmacOperation
  | SHA3
  | SHAKE
  | CSHAKE
  | KMAC
  deriving DecidableEq, Repr

/-- `kmac_security_str_t`. -/
inductive KmacSecurityStr
  | strength128
  | strength224
  | strength256
  | strength384
  | strength512
  deriving DecidableEq, Repr

def KmacSecurityStr.value : KmacSecurityStr → Word
  | .strength128 => 0
  | .strength224 => 1
  | .strength256 => 2
  | .strength384 => 3
  | .strength512 => 4

/-- The values of `kmac_error_t` that the functions modelled here return. -/
inductive KmacError
  | ok
  | internalError
  | argsError
  | digestLenTooLongError
  deriving DecidableEq, Repr

abbrev kKmacPrefixMaxSize : Word := 40

abbrev KMAC_STATUS_SHA3_IDLE_BIT : ℕ := 0

abbrev KMAC_STATUS_ALERT_FATAL_FAULT_BIT : ℕ := 16

abbrev KMAC_STATUS_ALERT_RECOV_CTRL_UPDATE_ERR_BIT : ℕ := 17

abbrev KMAC_CFG_SHADOWED_KMAC_EN_BIT : ℕ := 0

abbrev KMAC_CFG_SHADOWED_KSTRENGTH_FIELD : BitfieldField32 := ⟨0x7, 1⟩

abbrev KMAC_CFG_SHADOWED_MODE_FIELD : BitfieldField32 := ⟨0x3, 4⟩

abbrev KMAC_CFG_SHADOWED_MODE_VALUE_SHA3 : Word := 0

abbrev KMAC_CFG_SHADOWED_MODE_VALUE_SHAKE : Word := 2

abbrev KMAC_CFG_SHADOWED_MODE_VALUE_CSHAKE : Word := 3

/-! ### The register -/

/-- `CFG_SHADOWED`: its value and what the first of two writes left. -/
structure KmacCfg where
  cfg : Word
  staged : Option Word
  deriving DecidableEq

namespace KmacCfg

def reset : KmacCfg := ⟨0, none⟩

/-- A write; the second one takes effect when it repeats the first. -/
def write (dev : KmacCfg) (value : Word) : KmacCfg :=
  match dev.staged with
  | none => { dev with staged := some value }
  | some first => { cfg := if first = value then value else dev.cfg, staged := none }

/-- A read starts the two writes again. -/
def read (dev : KmacCfg) : Word × KmacCfg := (dev.cfg, { dev with staged := none })

/-- `abs_mmio_write32_shadowed`. -/
def writeShadowed (dev : KmacCfg) (value : Word) : KmacCfg := (dev.write value).write value

def kmac_en (dev : KmacCfg) : Bool := bitfieldBit32Read dev.cfg KMAC_CFG_SHADOWED_KMAC_EN_BIT

def mode (dev : KmacCfg) : Word := bitfieldField32Read dev.cfg KMAC_CFG_SHADOWED_MODE_FIELD

def kstrength (dev : KmacCfg) : Word :=
  bitfieldField32Read dev.cfg KMAC_CFG_SHADOWED_KSTRENGTH_FIELD

end KmacCfg

/-! ### The driver -/

/-- The arguments of a call, with null pointers as `none`, and the values of the status
register that it reads. -/
structure KmacInitCall where
  operation : KmacOperation
  security_str : KmacSecurityStr
  func_name : Option Word
  func_name_len : Byte
  cust_str : Option Word
  cust_str_len : Word
  status : List Word

/-- `wait_status_bit` on the values it reads; `none` while it still waits. -/
def waitStatusBit (bit_position : ℕ) (bit_value : Bool) : List Word → Option KmacError
  | [] => none
  | reg :: rest =>
    if bitfieldBit32Read reg KMAC_STATUS_ALERT_FATAL_FAULT_BIT ||
        bitfieldBit32Read reg KMAC_STATUS_ALERT_RECOV_CTRL_UPDATE_ERR_BIT then
      some .internalError
    else if bitfieldBit32Read reg bit_position = bit_value then some .ok
    else waitStatusBit bit_position bit_value rest

/-- The switch of `kmac_init` on the operation. -/
def kmacCfgOperation (cfg_reg : Word) : KmacOperation → Word
  | .SHA3 =>
    bitfieldField32Write cfg_reg KMAC_CFG_SHADOWED_MODE_FIELD KMAC_CFG_SHADOWED_MODE_VALUE_SHA3
  | .SHAKE =>
    bitfieldField32Write cfg_reg KMAC_CFG_SHADOWED_MODE_FIELD KMAC_CFG_SHADOWED_MODE_VALUE_SHAKE
  | .KMAC =>
    bitfieldField32Write (bitfieldBit32Write cfg_reg KMAC_CFG_SHADOWED_KMAC_EN_BIT true)
      KMAC_CFG_SHADOWED_MODE_FIELD KMAC_CFG_SHADOWED_MODE_VALUE_CSHAKE
  | .CSHAKE =>
    bitfieldField32Write cfg_reg KMAC_CFG_SHADOWED_MODE_FIELD KMAC_CFG_SHADOWED_MODE_VALUE_CSHAKE

/-- `kmac_init`; `none` while it still waits for the status. -/
def kmacInit (dev : KmacCfg) (call : KmacInitCall) : Option (KmacError × KmacCfg) :=
  if call.cust_str_len ≠ 0 ∧ call.cust_str = none then some (.argsError, dev)
  else if call.func_name_len ≠ 0 ∧ call.func_name = none then some (.argsError, dev)
  else if kKmacPrefixMaxSize < call.cust_str_len + call.func_name_len.setWidth 32 then
    some (.argsError, dev)
  else
    match waitStatusBit KMAC_STATUS_SHA3_IDLE_BIT true call.status with
    | none => none
    | some .ok =>
      let (cfg_reg, dev) := dev.read
      let cfg_reg := kmacCfgOperation cfg_reg call.operation
      let cfg_reg := bitfieldField32Write cfg_reg KMAC_CFG_SHADOWED_KSTRENGTH_FIELD
        call.security_str.value
      some (.ok, dev.writeShadowed cfg_reg)
    | some err => some (err, dev)

/-- The value of the mode field for an operation: KMAC runs as cSHAKE. -/
def KmacOperation.modeValue : KmacOperation → Word
  | .SHA3 => KMAC_CFG_SHADOWED_MODE_VALUE_SHA3
  | .SHAKE => KMAC_CFG_SHADOWED_MODE_VALUE_SHAKE
  | .CSHAKE | .KMAC => KMAC_CFG_SHADOWED_MODE_VALUE_CSHAKE

/-! ### One call -/

namespace KmacCfg

@[simp] theorem writeShadowed_of_none {dev : KmacCfg} (h : dev.staged = none) (value : Word) :
    dev.writeShadowed value = ⟨value, none⟩ := by
  simp [writeShadowed, write, h]

end KmacCfg

theorem kmacCfgOperation_eq (cfg_reg : Word) (operation : KmacOperation) :
    kmacCfgOperation cfg_reg operation =
      bitfieldField32Write
        (if operation = .KMAC then bitfieldBit32Write cfg_reg KMAC_CFG_SHADOWED_KMAC_EN_BIT true
          else cfg_reg)
        KMAC_CFG_SHADOWED_MODE_FIELD operation.modeValue := by
  cases operation <;> rfl

/-- What a call that returns does to the register. -/
theorem kmacInit_cases {dev dev' : KmacCfg} {call : KmacInitCall} {err : KmacError}
    (h : kmacInit dev call = some (err, dev')) :
    (err ≠ .ok ∧ dev' = dev) ∨
    (err = .ok ∧ dev' = ⟨bitfieldField32Write (kmacCfgOperation dev.cfg call.operation)
      KMAC_CFG_SHADOWED_KSTRENGTH_FIELD call.security_str.value, none⟩) := by
  rw [kmacInit] at h
  split_ifs at h
  iterate 3
    cases h
    exact .inl ⟨by decide, rfl⟩
  cases hwait : waitStatusBit KMAC_STATUS_SHA3_IDLE_BIT true call.status with
  | none => simp [hwait] at h
  | some waited =>
    rw [hwait] at h
    cases waited with
    | ok =>
      cases h
      refine .inr ⟨rfl, ?_⟩
      rw [KmacCfg.writeShadowed_of_none rfl]
    | internalError | argsError | digestLenTooLongError =>
      cases h
      exact .inl ⟨by decide, rfl⟩

/-- The fields after a call that succeeds; the bit of KMAC is set but never cleared. -/
theorem kmacInit_ok {dev dev' : KmacCfg} {call : KmacInitCall}
    (h : kmacInit dev call = some (.ok, dev')) :
    dev'.mode = call.operation.modeValue ∧ dev'.kstrength = call.security_str.value ∧
      dev'.kmac_en = (dev.kmac_en || call.operation == .KMAC) := by
  obtain ⟨hne, -⟩ | ⟨-, rfl⟩ := kmacInit_cases h
  · exact absurd rfl hne
  · rw [kmacCfgOperation_eq]
    refine ⟨?_, ?_, ?_⟩
    · rw [KmacCfg.mode, bitfieldField32Read_write_of_disjoint _ _ (by decide),
        bitfieldField32Read_write_self _ _ (by decide)]
      cases call.operation <;> rfl
    · rw [KmacCfg.kstrength, bitfieldField32Read_write_self _ _ (by decide)]
      cases call.security_str <;> rfl
    · rw [KmacCfg.kmac_en, bitfieldBit32Read_eq_getLsbD, KmacCfg.kmac_en,
        bitfieldBit32Read_eq_getLsbD, getLsbD_bitfieldField32Write _ _ _ (by decide),
        getLsbD_bitfieldField32Write _ _ _ (by decide)]
      cases call.operation with
      | KMAC =>
        rw [if_pos rfl, bitfieldBit32Write, getLsbD_bitfieldField32Write _ _ _ (by decide)]
        simp [BitfieldField32.covers, bitfieldBit32ToField32]
      | SHA3 | SHAKE | CSHAKE => simp [BitfieldField32.covers]

/-! ### Sequences of calls -/

/-- The results of a sequence of calls, and the register after them. -/
def kmacInits : KmacCfg → List KmacInitCall → Option (List KmacError × KmacCfg)
  | dev, [] => some ([], dev)
  | dev, call :: calls => do
    let (err, dev) ← kmacInit dev call
    let (errs, dev) ← kmacInits dev calls
    some (err :: errs, dev)

/-- Some call of a sequence succeeded for KMAC. -/
def StartedKmac (calls : List KmacInitCall) (errs : List KmacError) : Prop :=
  ∃ c ∈ calls.zip errs, c.1.operation = .KMAC ∧ c.2 = .ok

theorem kmac_en_kmacInits {dev dev' : KmacCfg} {calls : List KmacInitCall}
    {errs : List KmacError} (h : kmacInits dev calls = some (errs, dev')) :
    dev'.kmac_en = true ↔ dev.kmac_en = true ∨ StartedKmac calls errs := by
  induction calls generalizing dev errs with
  | nil =>
    cases h
    simp [StartedKmac]
  | cons call calls ih =>
    obtain ⟨⟨err, dev₁⟩, hcall, h⟩ := Option.bind_eq_some_iff.mp h
    obtain ⟨⟨errs, dev₂⟩, hcalls, h⟩ := Option.bind_eq_some_iff.mp h
    cases h
    rw [ih hcalls]
    have hstarted : StartedKmac (call :: calls) (err :: errs) ↔
        (call.operation = .KMAC ∧ err = .ok) ∨ StartedKmac calls errs := by
      simp [StartedKmac]
    rw [hstarted]
    obtain ⟨hne, rfl⟩ | ⟨rfl, -⟩ := kmacInit_cases hcall
    · simp [hne]
    · rw [(kmacInit_ok hcall).2.2]
      simp [or_assoc]

/-- The mode and the strength are those of the last call that succeeds; the bit of KMAC is right
for a call exactly when it is for KMAC or no call for KMAC succeeded before. -/
theorem kmac_init_mode_bit {calls : List KmacInitCall} {errs : List KmacError}
    {dev dev' : KmacCfg} {call : KmacInitCall}
    (hcalls : kmacInits .reset calls = some (errs, dev))
    (hcall : kmacInit dev call = some (.ok, dev')) :
    dev'.mode = call.operation.modeValue ∧ dev'.kstrength = call.security_str.value ∧
      ((dev'.kmac_en = true ↔ call.operation = .KMAC) ↔
        call.operation = .KMAC ∨ ¬ StartedKmac calls errs) := by
  obtain ⟨hmode, hstrength, hen⟩ := kmacInit_ok hcall
  refine ⟨hmode, hstrength, ?_⟩
  have hdev : dev.kmac_en = true ↔ StartedKmac calls errs := by
    rw [kmac_en_kmacInits hcalls]
    simp [KmacCfg.reset, KmacCfg.kmac_en, bitfieldBit32Read_eq_getLsbD]
  rw [hen, Bool.or_eq_true, beq_iff_eq, hdev]
  by_cases hkmac : call.operation = .KMAC <;> simp [hkmac]

/-- A call for an operation on an idle device. -/
def idleCall (operation : KmacOperation) : KmacInitCall :=
  ⟨operation, .strength256, none, 0, none, 0, [1]⟩

theorem kmac_init_mode_bit_shake_sha3 :
    ∃ errs dev dev', kmacInits .reset [idleCall .SHAKE] = some (errs, dev) ∧
      kmacInit dev (idleCall .SHA3) = some (.ok, dev') ∧
      dev'.mode = KMAC_CFG_SHADOWED_MODE_VALUE_SHA3 ∧ dev'.kmac_en = false := by
  refine ⟨_, _, _, rfl, rfl, ?_, by decide⟩
  exact (@kmac_init_mode_bit [idleCall .SHAKE] _ _ _ (idleCall .SHA3) rfl rfl).1

/-- SHA3 after KMAC runs with the bit of KMAC set. -/
theorem kmac_init_stale_mode_bit :
    ¬ ∀ (calls : List KmacInitCall) (errs : List KmacError) (dev dev' : KmacCfg)
      (call : KmacInitCall), kmacInits .reset calls = some (errs, dev) →
      kmacInit dev call = some (.ok, dev') → (dev'.kmac_en = true ↔ call.operation = .KMAC) := by
  intro h
  have hbit := h [idleCall .KMAC] _ _ _ (idleCall .SHA3) rfl rfl
  revert hbit
  decide

end SecureBoot
