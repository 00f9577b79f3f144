import SecureBoot.Base.Bus

/-! The configuration of the alert handler: one alert, one local alert or one class at a time. -/

namespace SecureBoot

open BusM

abbrev kAlertHandlerBase : Word := 0x40150000

abbrev ALERT_CLASSES : ℕ := 4

/-! ### Encodings -/

/-- Alerts of class X are not configured. -/
abbrev kAlertClassX : Word := 0x94

abbrev kAlertClassA : Word := 0xee

abbrev kAlertClassB : Word := 0x64

abbrev kAlertClassC : Word := 0xa7

abbrev kAlertClassD : Word := 0x32

abbrev kAlertEnableNone : Word := 0xa9

abbrev kAlertEnableEnabled : Word := 0x07

abbrev kAlertEnableLocked : Word := 0xd2

abbrev kAlertEscalateNone : Word := 0xd1

abbrev kAlertEscalatePhase0 : Word := 0xb9

abbrev kAlertEscalatePhase1 : Word := 0xcb

abbrev kAlertEscalatePhase2 : Word := 0x25

abbrev kAlertEscalatePhase3 : Word := 0x76

/-- `alert_class_config_t`. -/
structure AlertClassConfig where
  enabled : Word
  escalation : Word
  accum_threshold : Word
  timeout_cycles : Word
  phase_cycles : List Word

/-! ### Registers -/

/-- The registers of a kind of alerts: how many alerts there are, and the offsets of
`REGWEN`, `EN_SHADOWED` and `CLASS_SHADOWED` of the first. -/
structure AlertRegs where
  count : ℕ
  regwen : Word
  en : Word
  cls : Word

def alertRegs : AlertRegs := ⟨65, 0x18, 0x11c, 0x220⟩

def localAlertRegs : AlertRegs := ⟨7, 0x428, 0x444, 0x460⟩

abbrev kClassARegwen : Word := 0x498

abbrev kClassACtrlShadowed : Word := 0x49c

abbrev kClassAAccumThreshShadowed : Word := 0x4ac

abbrev kClassATimeoutCycShadowed : Word := 0x4b0

abbrev kClassAPhase0CycShadowed : Word := 0x4b8

abbrev kClassBCtrlShadowed : Word := 0x4d4

abbrev kClassCCtrlShadowed : Word := 0x50c

abbrev kClassDCtrlShadowed : Word := 0x544

abbrev CLASSA_CTRL_EN_BIT : ℕ := 0

abbrev CLASSA_CTRL_LOCK_BIT : ℕ := 1

abbrev CLASSA_CTRL_EN_E0_BIT : ℕ := 2

abbrev CLASSA_CTRL_EN_E1_BIT : ℕ := 3

abbrev CLASSA_CTRL_EN_E2_BIT : ℕ := 4

abbrev CLASSA_CTRL_EN_E3_BIT : ℕ := 5

abbrev CLASSA_CTRL_MAP_E0_FIELD : BitfieldField32 := ⟨0x3, 6⟩

abbrev CLASSA_CTRL_MAP_E1_FIELD : BitfieldField32 := ⟨0x3, 8⟩

abbrev CLASSA_CTRL_MAP_E2_FIELD : BitfieldField32 := ⟨0x3, 10⟩

abbrev CLASSA_CTRL_MAP_E3_FIELD : BitfieldField32 := ⟨0x3, 12⟩

/-- The address of a register of a group at an index. -/
def alertReg (offset : Word) (index : ℕ) : Word := kAlertHandlerBase + offset + .ofNat 32 (4 * index)

/-! ### Alerts -/

/-- The value of a class in `CLASS_SHADOWED`. -/
def alertClassValue (cls : Word) : Option Word :=
  if cls = kAlertClassA then some 0
  else if cls = kAlertClassB then some 1
  else if cls = kAlertClassC then some 2
  else if cls = kAlertClassD then some 3
  else none

/-- The second switch of `alert_configure`. -/
def alertEnable (regs : AlertRegs) (index : ℕ) (enabled : Word) : BusM RomError :=
  if enabled = kAlertEnableNone then return kErrorOk
  else if enabled = kAlertEnableLocked then do
    write32Shadowed (alertReg regs.en index) 1
    write32 (alertReg regs.regwen index) 0
    return kErrorOk
  else if enabled = kAlertEnableEnabled then do
    write32Shadowed (alertReg regs.en index) 1
    return kErrorOk
  else return kErrorAlertBadEnable

def alertConfigureWith (regs : AlertRegs) (index : ℕ) (cls enabled : Word) : BusM RomError :=
  if regs.count ≤ index then return kErrorAlertBadIndex
  else match alertClassValue cls with
    | some value => do
      write32Shadowed (alertReg regs.cls index) value
      alertEnable regs index enabled
    | none => if cls = kAlertClassX then return kErrorOk else return kErrorAlertBadClass

def alertConfigure : ℕ → Word → Word → BusM RomError := alertConfigureWith alertRegs

def alertLocalConfigure : ℕ → Word → Word → BusM RomError := alertConfigureWith localAlertRegs

/-! ### Classes -/

/-- The distance of the registers of a class from those of class A. -/
def alertClassOffset (cls : Word) : Option Word :=
  if cls = kAlertClassA then some (kClassACtrlShadowed - kClassACtrlShadowed)
  else if cls = kAlertClassB then some (kClassBCtrlShadowed - kClassACtrlShadowed)
  else if cls = kAlertClassC then some (kClassCCtrlShadowed - kClassACtrlShadowed)
  else if cls = kAlertClassD then some (kClassDCtrlShadowed - kClassACtrlShadowed)
  else none

/-- `CTRL_SHADOWED` with each escalation signal in its phase. -/
def alertClassMap : Word :=
  let reg := bitfieldField32Write 0 CLASSA_CTRL_MAP_E0_FIELD 0
  let reg := bitfieldField32Write reg CLASSA_CTRL_MAP_E1_FIELD 1
  let reg := bitfieldField32Write reg CLASSA_CTRL_MAP_E2_FIELD 2
  bitfieldField32Write reg CLASSA_CTRL_MAP_E3_FIELD 3

/-- The switch over `enabled`, whose cases fall through. -/
def alertClassEnable (reg enabled : Word) : Option Word :=
  if enabled = kAlertEnableLocked then
    some (bitfieldBit32Write (bitfieldBit32Write reg CLASSA_CTRL_LOCK_BIT true)
      CLASSA_CTRL_EN_BIT true)
  else if enabled = kAlertEnableEnabled then some (bitfieldBit32Write reg CLASSA_CTRL_EN_BIT true)
  else if enabled = kAlertEnableNone then some reg
  else none

/-- The switch over `escalation`, whose cases fall through. -/
def alertClassEscalate (reg escalation : Word) : Option Word :=
  let e₀ reg := bitfieldBit32Write reg CLASSA_CTRL_EN_E0_BIT true
  let e₁ reg := e₀ (bitfieldBit32Write reg CLASSA_CTRL_EN_E1_BIT true)
  let e₂ reg := e₁ (bitfieldBit32Write reg CLASSA_CTRL_EN_E2_BIT true)
  let e₃ reg := e₂ (bitfieldBit32Write reg CLASSA_CTRL_EN_E3_BIT true)
  if escalation = kAlertEscalatePhase3 then some (e₃ reg)
  else if escalation = kAlertEscalatePhase2 then some (e₂ reg)
  else if escalation = kAlertEscalatePhase1 then some (e₁ reg)
  else if escalation = kAlertEscalatePhase0 then some (e₀ reg)
  else if escalation = kAlertEscalateNone then some reg
  else none

/-- The loop over the phases, at phase `i`. -/
def alertPhases (offset : Word) : List Word → ℕ → BusM Unit
  | [], _ => pure ()
  | cycles :: rest, i => do
    write32Shadowed (alertReg (kClassAPhase0CycShadowed + offset) i) cycles
    alertPhases offset rest (i + 1)

def alertClassConfigure (cls : Word) (config : AlertClassConfig) : BusM RomError :=
  match alertClassOffset cls with
  | none => return kErrorAlertBadClass
  | some offset =>
    match alertClassEnable alertClassMap config.enabled with
    | none => return kErrorAlertBadEnable
    | some reg =>
      match alertClassEscalate reg config.escalation with
      | none => return kErrorAlertBadEscalation
      | some reg => do
        write32Shadowed (kAlertHandlerBase + kClassACtrlShadowed + offset) reg
        write32Shadowed (kAlertHandlerBase + kClassAAccumThreshShadowed + offset)
          config.accum_threshold
        write32Shadowed (kAlertHandlerBase + kClassATimeoutCycShadowed + offset)
          config.timeout_cycles
        alertPhases offset config.phase_cycles 0
        if config.enabled = kAlertEnableLocked then
          write32 (kAlertHandlerBase + kClassARegwen + offset) 0
        return kErrorOk

/-! ### What they do -/

/-- Both writes of a shadowed register. -/
def shadowedWrites (addr value : Word) : List BusAccess := [.write32 addr value, .write32 addr value]

def alertEnableValid (enabled : Word) : Prop :=
  enabled ∈ [kAlertEnableNone, kAlertEnableEnabled, kAlertEnableLocked]

instance (enabled : Word) : Decidable (alertEnableValid enabled) :=
  inferInstanceAs (Decidable (_ ∈ _))

def alertEscalateValid (escalation : Word) : Prop :=
  escalation ∈ [kAlertEscalateNone, kAlertEscalatePhase0, kAlertEscalatePhase1,
    kAlertEscalatePhase2, kAlertEscalatePhase3]

instance (escalation : Word) : Decidable (alertEscalateValid escalation) :=
  inferInstanceAs (Decidable (_ ∈ _))

/-- The writes for an alert: its class, whether it is enabled, and the lock. -/
def alertWrites (regs : AlertRegs) (index : ℕ) (cls enabled : Word) : List BusAccess :=
  match alertClassValue cls with
  | none => []
  | some value =>
    shadowedWrites (alertReg regs.cls index) value ++
      ((if enabled ∈ [kAlertEnableEnabled, kAlertEnableLocked] then
        shadowedWrites (alertReg regs.en index) 1 else []) ++
      if enabled = kAlertEnableLocked then [.write32 (alertReg regs.regwen index) 0] else [])

def alertError (cls enabled : Word) : RomError :=
  if (alertClassValue cls).isSome then
    if alertEnableValid enabled then kErrorOk else kErrorAlertBadEnable
  else if cls = kAlertClassX then kErrorOk
  else kErrorAlertBadClass

theorem does_alertEnable (regs : AlertRegs) (index : ℕ) (enabled : Word) :
    Does (alertEnable regs index enabled)
      (if alertEnableValid enabled then kErrorOk else kErrorAlertBadEnable)
      ((if enabled ∈ [kAlertEnableEnabled, kAlertEnableLocked] then
        shadowedWrites (alertReg regs.en index) 1 else []) ++
      if enabled = kAlertEnableLocked then [.write32 (alertReg regs.regwen index) 0] else []) := by
  rw [alertEnable]
  by_cases hnone : enabled = kAlertEnableNone
  · subst hnone
    exact .pure _
  by_cases hlocked : enabled = kAlertEnableLocked
  · subst hlocked
    exact (Does.write32Shadowed _ _).bind ((Does.write32 _ _).bind_pure _)
  by_cases henabled : enabled = kAlertEnableEnabled
  · subst henabled
    exact (Does.write32Shadowed _ _).bind_pure _
  · have hvalid : ¬alertEnableValid enabled := by
      simp only [alertEnableValid, List.mem_cons, List.not_mem_nil, or_false, hnone, hlocked,
        henabled, not_false_eq_true]
    have hmem : enabled ∉ [kAlertEnableEnabled, kAlertEnableLocked] := by
      simp only [List.mem_cons, List.not_mem_nil, or_false, hlocked, henabled, not_false_eq_true]
    rw [if_neg hnone, if_neg hlocked, if_neg henabled, if_neg hvalid, if_neg hmem, if_neg hlocked]
    exact .pure _

theorem does_alertConfigureWith {regs : AlertRegs} {index : ℕ} (hindex : index < regs.count)
    (cls enabled : Word) :
    Does (alertConfigureWith regs index cls enabled) (alertError cls enabled)
      (alertWrites regs index cls enabled) := by
  rw [alertConfigureWith, if_neg (not_le.2 hindex), alertError, alertWrites]
  cases alertClassValue cls with
  | some value => exact (Does.write32Shadowed _ _).bind (does_alertEnable regs index enabled)
  | none =>
    simp only [Option.isSome_none, Bool.false_eq_true, if_false]
    split_ifs <;> exact .pure _

/-- The value of `CTRL_SHADOWED` for a configuration with valid encodings. -/
def alertClassReg (config : AlertClassConfig) : Option Word :=
  (alertClassEnable alertClassMap config.enabled).bind fun reg =>
    alertClassEscalate reg config.escalation

/-- The writes for a class, all or none. -/
def alertClassWrites (offset : Word) (config : AlertClassConfig) : List BusAccess :=
  match alertClassReg config with
  | none => []
  | some reg =>
    shadowedWrites (kAlertHandlerBase + kClassACtrlShadowed + offset) reg ++
      (shadowedWrites (kAlertHandlerBase + kClassAAccumThreshShadowed + offset)
        config.accum_threshold ++
      (shadowedWrites (kAlertHandlerBase + kClassATimeoutCycShadowed + offset)
        config.timeout_cycles ++
      ((config.phase_cycles.zipIdx.flatMap fun (cycles, i) =>
        shadowedWrites (alertReg (kClassAPhase0CycShadowed + offset) i) cycles) ++
      if config.enabled = kAlertEnableLocked then
        [.write32 (kAlertHandlerBase + kClassARegwen + offset) 0] else [])))

def alertClassError (config : AlertClassConfig) : RomError :=
  if alertEnableValid config.enabled then
    if alertEscalateValid config.escalation then kErrorOk else kErrorAlertBadEscalation
  else kErrorAlertBadEnable

theorem alertClassEnable_isSome_iff (reg enabled : Word) :
    (alertClassEnable reg enabled).isSome ↔ alertEnableValid enabled := by
  simp only [alertClassEnable, alertEnableValid, List.mem_cons, List.not_mem_nil, or_false]
  split_ifs <;> simp only [*, Option.isSome_some, Option.isSome_none, true_or, or_true, or_self,
    Bool.false_eq_true]

theorem alertClassEscalate_isSome_iff (reg escalation : Word) :
    (alertClassEscalate reg escalation).isSome ↔ alertEscalateValid escalation := by
  simp only [alertClassEscalate, alertEscalateValid, List.mem_cons, List.not_mem_nil, or_false]
  split_ifs <;> simp only [*, Option.isSome_some, Option.isSome_none, true_or, or_true, or_self,
    Bool.false_eq_true]

theorem does_alertPhases (offset : Word) (phases : List Word) (i : ℕ) :
    Does (alertPhases offset phases i) ⟨⟩ ((phases.zipIdx i).flatMap fun (cycles, i) =>
      shadowedWrites (alertReg (kClassAPhase0CycShadowed + offset) i) cycles) := by
  induction phases generalizing i with
  | nil => exact .pure _
  | cons cycles rest ih => exact (Does.write32Shadowed _ _).bind (ih (i + 1))

theorem does_alertClassConfigure {cls offset : Word} (hcls : alertClassOffset cls = some offset)
    (config : AlertClassConfig) :
    Does (alertClassConfigure cls config) (alertClassError config)
      (alertClassWrites offset config) := by
  rw [alertClassConfigure, hcls, alertClassError, alertClassWrites, alertClassReg]
  have henable := alertClassEnable_isSome_iff alertClassMap config.enabled
  cases hreg : alertClassEnable alertClassMap config.enabled with
  | none =>
    rw [hreg] at henable
    rw [if_neg fun h => Bool.noConfusion (henable.2 h)]
    exact .pure _
  | some reg =>
    rw [hreg] at henable
    rw [if_pos (henable.1 rfl)]
    have hescalate := alertClassEscalate_isSome_iff reg config.escalation
    simp only [Option.bind_some]
    cases hreg' : alertClassEscalate reg config.escalation with
    | none =>
      rw [hreg'] at hescalate
      rw [if_neg fun h => Bool.noConfusion (hescalate.2 h)]
      exact .pure _
    | some reg =>
      rw [hreg'] at hescalate
      rw [if_pos (hescalate.1 rfl)]
      refine (Does.write32Shadowed _ _).bind <| (Does.write32Shadowed _ _).bind <|
        (Does.write32Shadowed _ _).bind <| (does_alertPhases _ _ 0).bind ?_
      split_ifs
      · exact (Does.write32 _ _).bind_pure _
      · exact .pure _

end SecureBoot
