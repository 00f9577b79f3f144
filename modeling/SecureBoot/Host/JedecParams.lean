import SecureBoot.Host.JedecFields

/-! The basic flash parameter table, decoded: `JedecParams` and its extensions. -/

namespace SecureBoot

open Rust

/-- A duration, in nanoseconds. -/
abbrev Duration := ℕ

namespace Duration

def fromNanos (n : ℕ) : Duration := n

def fromMicros (n : ℕ) : Duration := fromNanos (1000 * n)

def fromMillis (n : ℕ) : Duration := fromMicros (1000 * n)

def fromSecs (n : ℕ) : Duration := fromMillis (1000 * n)

/-- The product with an integer, whose seconds are 64 bits. -/
def mul (d : Duration) (k : Word) : SfdpRun Duration :=
  if d * k.toNat < fromSecs (2 ^ 64) then pure (d * k.toNat : ℕ) else stop .arithmetic

end Duration

structure FastReadParam where
  waitStates : Byte
  modeBits : Byte
  opcode : Byte
  deriving DecidableEq

/-- `FastReadParam::default`. -/
def FastReadParam.default : FastReadParam := ⟨0, 0, 0⟩

structure TimeBound where
  typical : Duration
  maximum : Duration
  deriving DecidableEq

structure SectorErase where
  size : Word
  opcode : Byte
  time : Option TimeBound
  deriving DecidableEq

structure JedecParamsRevB where
  pageSize : Word
  pageProgramTime : TimeBound
  byteProgramTime : TimeBound
  additionalByteProgramTime : TimeBound
  chipEraseTime : TimeBound
  suspendResumeSupported : Bool
  prohibitedOpsProgramSuspend : Byte
  prohibitedOpsEraseSuspend : Byte
  programResumeToSuspend : Duration
  suspendInProgressProgramLatency : Duration
  eraseResumeToSuspend : Duration
  suspendInProgressEraseLatency : Duration
  programResumeInstruction : Byte
  programSuspendInstruction : Byte
  resumeInstruction : Byte
  suspendInstruction : Byte
  deepPowerdownSupported : Bool
  enterDeepPowerdownInstruction : Byte
  exitDeepPowerdownInstruction : Byte
  exitDeepPowerdownDelay : Duration
  statusRegisterPolling : Byte
  holdOrResetDisable : Bool
  quadEnableRequirements : Byte
  mode444Entry : Byte
  mode444Exit : Byte
  mode444Supported : Bool
  mode444Disable : Byte
  mode444Enable : Byte
  enter4bAddressing : Byte
  exit4bAddressing : BitVec 16
  softResetSupport : Byte
  statusReg1WriteEnable : Byte
  deriving DecidableEq

structure JedecParamsRevD where
  param118 : FastReadParam
  param188 : FastReadParam
  outputDriverStrength : Byte
  jedecSpiProtocolReset : Bool
  dataStrobeWaveformStr : Byte
  dataStrobeSupport4s4s4s : Bool
  dataStrobeSupport4d4d4d : Bool
  octalDtrCommand : Byte
  octalByteOrder : Byte
  mode8s8s8sDisable : Byte
  mode8s8s8sEnable : Byte
  mode088Supported : Bool
  mode088Exit : Byte
  mode088Enter : Byte
  octalEnableRequirements : Byte
  maxSpeed4s4s4sNoStrobe : MaxSpeed
  maxSpeed4s4s4sStrobe : MaxSpeed
  maxSpeed4d4d4dNoStrobe : MaxSpeed
  maxSpeed4d4d4dStrobe : MaxSpeed
  maxSpeed8s8s8sNoStrobe : MaxSpeed
  maxSpeed8s8s8sStrobe : MaxSpeed
  maxSpeed8d8d8dNoStrobe : MaxSpeed
  maxSpeed8d8d8dStrobe : MaxSpeed
  deriving DecidableEq

structure JedecParamsRevF where
  param1s1d1d : Option FastReadParam
  param1s2d2d : Option FastReadParam
  param1s4d4d : Option FastReadParam
  param4s4d4d : Option FastReadParam
  deriving DecidableEq

structure JedecParams where
  blockEraseSize : BlockEraseSize
  writeGranularity : WriteGranularity
  writeEnRequired : Bool
  writeEnOpcode : Byte
  eraseOpcode4kib : Byte
  supportFastRead112 : Bool
  addressModes : SupportedAddressModes
  supportDoubleRateClocking : Bool
  supportFastRead122 : Bool
  supportFastRead144 : Bool
  supportFastRead114 : Bool
  supportFastRead222 : Bool
  supportFastRead444 : Bool
  density : Word
  param112 : FastReadParam
  param122 : FastReadParam
  param114 : FastReadParam
  param144 : FastReadParam
  param222 : FastReadParam
  param444 : FastReadParam
  erase0 : SectorErase
  erase1 : SectorErase
  erase2 : SectorErase
  erase3 : SectorErase
  revB : Option JedecParamsRevB
  revD : Option JedecParamsRevD
  revF : Option JedecParamsRevF
  deriving DecidableEq

/-! ### Decoding -/

/-- The dwords of a little-endian buffer. -/
def readU32Into : List Byte → List Word
  | b₀ :: b₁ :: b₂ :: b₃ :: rest => Word.ofBytes b₀ b₁ b₂ b₃ :: readU32Into rest
  | _ => []

/-- `InternalJedecParams::try_from`. -/
def InternalJedecParams.tryFrom (buf : List Byte) : InternalJedecParams := ⟨readU32Into buf⟩

namespace JedecParams

def eraseTimeUnits : List Duration := [.fromMillis 1, .fromMillis 16, .fromMillis 128, .fromSecs 1]

def chipEraseUnits : List Duration := [.fromMillis 16, .fromMillis 256, .fromSecs 4, .fromSecs 64]

def pagePgmUnits : List Duration := [.fromMicros 8, .fromMicros 64]

def bytePgmUnits : List Duration := [.fromMicros 1, .fromMicros 8]

def suspendResumeUnits : List Duration :=
  [.fromNanos 128, .fromMicros 1, .fromMicros 8, .fromMicros 64]

def pow2Size (shift : Byte) : SfdpRun Word :=
  if shift = 0 then pure 0 else checkedShl 1 shift.toNat

variable (p : InternalJedecParams)

def sizeBytes : SfdpRun Word := do
  if ← p.read .densityPow2 then
    let density ← p.read .density
    let shift ← checkedSub (density &&& 0x7fffffff) 8
    checkedShl 1 shift.toNat
  else
    let density ← p.read .density
    pure ((← checkedAdd density 1) / 8)

def sectorErase (size opcode : JedecField Byte) : SfdpRun SectorErase := do
  let size ← pow2Size (← p.read size)
  let opcode ← p.read opcode
  pure ⟨size, opcode, none⟩

def fastReadParam (waitStates modeBits opcode : JedecField Byte) : SfdpRun FastReadParam := do
  let waitStates ← p.read waitStates
  let modeBits ← p.read modeBits
  let opcode ← p.read opcode
  pure ⟨waitStates, modeBits, opcode⟩

/-- `2 * (multiplier + 1)`. -/
def timeMultiplier (multiplier : JedecField Word) : SfdpRun Word := do
  checkedMul 2 (← checkedAdd (← p.read multiplier) 1)

/-- `UNITS[unit] * (time + 1)`. -/
def unitTime (units : List Duration) (unit : JedecField ℕ) (time : JedecField Word) :
    SfdpRun Duration := do
  let unit ← index units (← p.read unit)
  unit.mul (← checkedAdd (← p.read time) 1)

/-- A typical time, and the longest one. -/
def timeBound (units : List Duration) (unit : JedecField ℕ) (time : JedecField Word)
    (mult : Word) : SfdpRun TimeBound := do
  let typical ← unitTime p units unit time
  pure ⟨typical, ← typical.mul mult⟩

/-- A number of units of 64 ms. -/
def resumeToSuspend (time : JedecField Word) : SfdpRun Duration := do
  (Duration.fromMillis 64).mul (← checkedAdd 1 (← p.read time))

def readRevB : SfdpRun JedecParamsRevB := do
  let mult ← timeMultiplier p .pgmTimeMultiplier
  pure {
    pageSize := ← checkedShl 1 (← p.read .pageSize).toNat
    pageProgramTime := ← timeBound p pagePgmUnits .pagePgmUnit .pagePgmTime mult
    byteProgramTime := ← timeBound p bytePgmUnits .bytePgmUnit .bytePgmTime mult
    additionalByteProgramTime :=
      ← timeBound p bytePgmUnits .additionalBytePgmUnit .additionalBytePgmTime mult
    chipEraseTime := ← timeBound p chipEraseUnits .chipEraseUnit .chipEraseTime mult
    suspendResumeSupported := !(← p.read .suspendResumeSupported)
    prohibitedOpsProgramSuspend := ← p.read .prohibitedPgmSuspend
    prohibitedOpsEraseSuspend := ← p.read .prohibitedEraseSuspend
    programResumeToSuspend := ← resumeToSuspend p .pgmResumeToSuspend
    suspendInProgressProgramLatency :=
      ← unitTime p suspendResumeUnits .suspendPgmLatencyUnit .suspendPgmLatencyTime
    eraseResumeToSuspend := ← resumeToSuspend p .eraseResumeToSuspend
    suspendInProgressEraseLatency :=
      ← unitTime p suspendResumeUnits .suspendEraseLatencyUnit .suspendEraseLatencyTime
    programResumeInstruction := ← p.read .pgmResumeInstruction
    programSuspendInstruction := ← p.read .pgmSuspendInstruction
    resumeInstruction := ← p.read .suspendInstruction
    suspendInstruction := ← p.read .resumeInstruction
    deepPowerdownSupported := !(← p.read .deepPowerdownSupported)
    enterDeepPowerdownInstruction := ← p.read .enterDeepPowerdownInstruction
    exitDeepPowerdownInstruction := ← p.read .exitDeepPowerdownInstruction
    exitDeepPowerdownDelay :=
      ← unitTime p suspendResumeUnits .exitDeepPowerdownUnit .exitDeepPowerdownTime
    statusRegisterPolling := ← p.read .statusBusyPolling
    holdOrResetDisable := ← p.read .holdOrResetDisable
    quadEnableRequirements := ← p.read .quadEnableRequirements
    mode444Entry := ← p.read .mode444Entry
    mode444Exit := ← p.read .mode444Exit
    mode444Supported := ← p.read .mode444Supported
    mode444Disable := ← p.read .mode444Disable
    mode444Enable := ← p.read .mode444Enable
    enter4bAddressing := ← p.read .enter4bAddressing
    exit4bAddressing := ← p.read .exit4bAddressing
    softResetSupport := ← p.read .softResetSupport
    statusReg1WriteEnable := ← p.read .statusReg1WriteEnable }

def readRevD : SfdpRun JedecParamsRevD := do
  pure {
    param118 := ← fastReadParam p .waitStates118 .modeBits118 .readOpcode118
    param188 := ← fastReadParam p .waitStates188 .modeBits188 .readOpcode188
    outputDriverStrength := ← p.read .outputDriverStrength
    jedecSpiProtocolReset := ← p.read .spiProtocolReset
    dataStrobeWaveformStr := ← p.read .dataStrobeStr
    dataStrobeSupport4s4s4s := ← p.read .dataQpiStr
    dataStrobeSupport4d4d4d := ← p.read .dataQpiDtr
    octalDtrCommand := ← p.read .octalDtrCommand
    octalByteOrder := ← p.read .octalByteOrder
    mode8s8s8sDisable := ← p.read .mode8s8s8sDisable
    mode8s8s8sEnable := ← p.read .mode8s8s8sEnable
    mode088Supported := ← p.read .mode088Supported
    mode088Exit := ← p.read .mode088Exit
    mode088Enter := ← p.read .mode088Enter
    octalEnableRequirements := ← p.read .octalEnableRequirements
    maxSpeed4s4s4sNoStrobe := ← p.read .maxSpeed4s4s4sNoStrobe
    maxSpeed4s4s4sStrobe := ← p.read .maxSpeed4s4s4sStrobe
    maxSpeed4d4d4dNoStrobe := ← p.read .maxSpeed4d4d4dNoStrobe
    maxSpeed4d4d4dStrobe := ← p.read .maxSpeed4d4d4dStrobe
    maxSpeed8s8s8sNoStrobe := ← p.read .maxSpeed8s8s8sNoStrobe
    maxSpeed8s8s8sStrobe := ← p.read .maxSpeed8s8s8sStrobe
    maxSpeed8d8d8dNoStrobe := ← p.read .maxSpeed8d8d8dNoStrobe
    maxSpeed8d8d8dStrobe := ← p.read .maxSpeed8d8d8dStrobe }

/-- The parameters of a fast read, if it is supported. -/
def optionalFastRead (support : JedecField Bool) (waitStates modeBits opcode : JedecField Byte) :
    SfdpRun (Option FastReadParam) := do
  if ← p.read support then
    pure (some (← fastReadParam p waitStates modeBits opcode))
  else
    pure none

def readRevF : SfdpRun JedecParamsRevF := do
  pure {
    param1s1d1d :=
      ← optionalFastRead p .supportFastRead1s1d1d .waitStates1s1d1d .modeBits1s1d1d
        .readOpcode1s1d1d
    param1s2d2d :=
      ← optionalFastRead p .supportFastRead1s2d2d .waitStates1s2d2d .modeBits1s2d2d
        .readOpcode1s2d2d
    param1s4d4d :=
      ← optionalFastRead p .supportFastRead1s4d4d .waitStates1s4d4d .modeBits1s4d4d
        .readOpcode1s4d4d
    param4s4d4d :=
      ← optionalFastRead p .supportFastRead4s4d4d .waitStates4s4d4d .modeBits4s4d4d
        .readOpcode4s4d4d }

/-- What every table has. -/
def base : SfdpRun JedecParams := do
  let size ← sizeBytes p
  pure {
    blockEraseSize := ← p.read .blockEraseSize
    writeGranularity := ← p.read .writeGranularity
    writeEnRequired := ← p.read .writeEnRequired
    writeEnOpcode := if ← p.read .writeEnOpcode then 0x50 else 0x06
    eraseOpcode4kib := ← p.read .eraseOpcode4kib
    supportFastRead112 := ← p.read .supportFastRead112
    addressModes := ← p.read .addressModes
    supportDoubleRateClocking := ← p.read .supportDoubleRateClocking
    supportFastRead122 := ← p.read .supportFastRead122
    supportFastRead144 := ← p.read .supportFastRead144
    supportFastRead114 := ← p.read .supportFastRead114
    supportFastRead222 := ← p.read .supportFastRead222
    supportFastRead444 := ← p.read .supportFastRead444
    density := size
    erase0 := ← sectorErase p .sectorType1Size .sectorType1Opcode
    erase1 := ← sectorErase p .sectorType2Size .sectorType2Opcode
    erase2 := ← sectorErase p .sectorType3Size .sectorType3Opcode
    erase3 := ← sectorErase p .sectorType4Size .sectorType4Opcode
    param112 := .default
    param122 := .default
    param114 := .default
    param144 := .default
    param222 := .default
    param444 := .default
    revB := none
    revD := none
    revF := none }

/-- The parameters of a fast read that the first dwords announce, or the default ones. -/
def announcedFastRead (support : Bool) (waitStates modeBits opcode : JedecField Byte) :
    SfdpRun FastReadParam :=
  if support then fastReadParam p waitStates modeBits opcode else pure .default

def withFastReads (jedec : JedecParams) : SfdpRun JedecParams := do
  pure { jedec with
    param112 := ←
      announcedFastRead p jedec.supportFastRead112 .waitStates112 .modeBits112 .readOpcode112
    param122 := ←
      announcedFastRead p jedec.supportFastRead122 .waitStates122 .modeBits122 .readOpcode122
    param144 := ←
      announcedFastRead p jedec.supportFastRead144 .waitStates144 .modeBits144 .readOpcode144
    param114 := ←
      announcedFastRead p jedec.supportFastRead114 .waitStates114 .modeBits114 .readOpcode114
    param222 := ←
      announcedFastRead p jedec.supportFastRead222 .waitStates222 .modeBits222 .readOpcode222
    param444 := ←
      announcedFastRead p jedec.supportFastRead444 .waitStates444 .modeBits444 .readOpcode444 }

/-- The erase times and the extension of revision B. -/
def withRevB (jedec : JedecParams) : SfdpRun JedecParams := do
  if 16 ≤ p.data.length then
    let mult ← timeMultiplier p .eraseTimeMultiplier
    let type1 ← timeBound p eraseTimeUnits .eraseType1Unit .eraseType1Time mult
    let type2 ← timeBound p eraseTimeUnits .eraseType2Unit .eraseType2Time mult
    let type3 ← timeBound p eraseTimeUnits .eraseType3Unit .eraseType3Time mult
    let type4 ← timeBound p eraseTimeUnits .eraseType4Unit .eraseType4Time mult
    pure { jedec with
      erase0 := { jedec.erase0 with time := some type1 }
      erase1 := { jedec.erase1 with time := some type2 }
      erase2 := { jedec.erase2 with time := some type3 }
      erase3 := { jedec.erase3 with time := some type4 }
      revB := some (← readRevB p) }
  else
    pure jedec

def withRevD (jedec : JedecParams) : SfdpRun JedecParams := do
  if 20 ≤ p.data.length then
    pure { jedec with revD := some (← readRevD p) }
  else
    pure jedec

def withRevF (jedec : JedecParams) : SfdpRun JedecParams := do
  if 23 ≤ p.data.length then
    pure { jedec with revF := some (← readRevF p) }
  else
    pure jedec

/-- `JedecParams::try_from`. -/
def tryFrom (buf : List Byte) : SfdpRun JedecParams := do
  let p := InternalJedecParams.tryFrom buf
  let jedec ← base p
  let jedec ← withFastReads p jedec
  let jedec ← withRevB p jedec
  let jedec ← withRevD p jedec
  withRevF p jedec

end JedecParams

end SecureBoot
