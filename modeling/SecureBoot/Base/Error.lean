import SecureBoot.Base.Word

/-! Status values: a result or an error with its code, the line it comes from and three letters
that name the module. -/

namespace SecureBoot

/-- The characters of a string literal, without the terminator. -/
def ascii (s : String) : List Byte := s.toList.map fun c => BitVec.ofNat 8 c.toNat

abbrev kStatusFieldCode : BitfieldField32 := ⟨0x1f, 0⟩

abbrev kStatusFieldArg : BitfieldField32 := ⟨0x7ff, 5⟩

abbrev kStatusFieldModuleId : BitfieldField32 := ⟨0x7fff, 16⟩

/-- `status_codes`; the last one is for an error whose code is `kOk`. -/
def statusCodes : List (List Byte) :=
  ["Ok", "Cancelled", "Unknown", "InvalidArgument", "DeadlineExceeded", "NotFound",
    "AlreadyExists", "PermissionDenied", "ResourceExhausted", "FailedPrecondition", "Aborted",
    "OutOfRange", "Unimplemented", "Internal", "Unavailable", "DataLoss", "Unauthenticated",
    "Undefined17", "Undefined18", "Undefined19", "Undefined20", "Undefined21", "Undefined22",
    "Undefined23", "Undefined24", "Undefined25", "Undefined26", "Undefined27", "Undefined28",
    "Undefined29", "Undefined30", "Undefined31", "ErrorError"].map ascii

def statusErr (s : Word) : Word :=
  if s.msb then bitfieldField32Read s kStatusFieldCode else 0

/-- What `status_extract` stores: the name of the code, the argument, and the module of an
error. -/
structure StatusParts where
  err : Bool
  code : List Byte
  arg : Word
  modId : List Byte

def statusExtract (s : Word) : StatusParts :=
  let err := statusErr s
  let err := if s.msb && err == 0 then statusCodes.length - 1 else err.toNat
  let code := statusCodes.getD err []
  if err ≠ 0 then
    let moduleId := bitfieldField32Read s kStatusFieldModuleId
    { err := true
      code := code
      arg := bitfieldField32Read s kStatusFieldArg
      modId := [0x40 + ((moduleId >>> 0) &&& 0x1f).setWidth 8,
        0x40 + ((moduleId >>> 5) &&& 0x1f).setWidth 8,
        0x40 + ((moduleId >>> 10) &&& 0x1f).setWidth 8] }
  else { err := false, code := code, arg := s, modId := [] }

end SecureBoot

/-! The unified error codes of ROM and ROM_EXT and the life cycle states. Both
are words in the source, and several functions compute them by `^` and `&`, so
they stay words here. -/

namespace SecureBoot

/-- `rom_error_t`. -/
abbrev RomError := Word

/-- `ERROR_`: error number, two-letter module and status in one word. -/
abbrev romErrorCode (error module status : Word) : RomError :=
  error <<< 24 ||| module <<< 8 ||| status

/-- `MODULE_CODE`. -/
abbrev moduleCode (ch₀ ch₁ : Word) : Word := ch₀ <<< 8 ||| ch₁

abbrev kInvalidArgument : Word := 3

abbrev kInternal : Word := 13

abbrev kModuleAlertHandler : Word := moduleCode 0x41 0x48

abbrev kModuleSigverify : Word := moduleCode 0x53 0x56

abbrev kModuleManifest : Word := moduleCode 0x4d 0x41

abbrev kModuleEpmp : Word := moduleCode 0x45 0x50

abbrev kModuleOtbn : Word := moduleCode 0x42 0x4e

abbrev kModuleFlashCtrl : Word := moduleCode 0x46 0x43

abbrev kModuleBootPolicy : Word := moduleCode 0x42 0x50

abbrev kModuleBootstrap : Word := moduleCode 0x42 0x53

abbrev kModuleBootData : Word := moduleCode 0x42 0x44

abbrev kModuleSpiDevice : Word := moduleCode 0x53 0x50

abbrev kErrorOk : RomError := 0x739

abbrev kErrorUnknown : RomError := 0xffffffff

abbrev kErrorSigverifyBadEncodedMessage : RomError :=
  romErrorCode 1 kModuleSigverify kInvalidArgument

abbrev kErrorSigverifyBadKey : RomError := romErrorCode 2 kModuleSigverify kInvalidArgument

abbrev kErrorSigverifyBadSignature : RomError := romErrorCode 3 kModuleSigverify kInvalidArgument

abbrev kErrorManifestBadEntryPoint : RomError := romErrorCode 1 kModuleManifest kInternal

abbrev kErrorManifestBadCodeRegion : RomError := romErrorCode 2 kModuleManifest kInternal

abbrev kErrorAlertBadIndex : RomError := romErrorCode 1 kModuleAlertHandler kInvalidArgument

abbrev kErrorAlertBadClass : RomError := romErrorCode 2 kModuleAlertHandler kInvalidArgument

abbrev kErrorAlertBadEnable : RomError := romErrorCode 3 kModuleAlertHandler kInvalidArgument

abbrev kErrorAlertBadEscalation : RomError := romErrorCode 4 kModuleAlertHandler kInvalidArgument

abbrev kErrorEpmpBadCheck : RomError := romErrorCode 1 kModuleEpmp kInternal

abbrev kErrorOtbnInvalidArgument : RomError := romErrorCode 1 kModuleOtbn kInvalidArgument

abbrev kErrorOtbnBadOffsetLen : RomError := romErrorCode 2 kModuleOtbn kInvalidArgument

abbrev kErrorOtbnSecWipeImemFailed : RomError := romErrorCode 4 kModuleOtbn kInternal

abbrev kErrorOtbnSecWipeDmemFailed : RomError := romErrorCode 5 kModuleOtbn kInternal

abbrev kErrorOtbnUnavailable : RomError := romErrorCode 7 kModuleOtbn kInternal

abbrev kErrorFlashCtrlInfoRead : RomError := romErrorCode 2 kModuleFlashCtrl kInternal

abbrev kErrorFlashCtrlDataWrite : RomError := romErrorCode 3 kModuleFlashCtrl kInternal

abbrev kErrorFlashCtrlDataErase : RomError := romErrorCode 5 kModuleFlashCtrl kInternal

abbrev kErrorFlashCtrlDataEraseVerify : RomError := romErrorCode 7 kModuleFlashCtrl kInternal

abbrev kErrorBootPolicyBadIdentifier : RomError := romErrorCode 1 kModuleBootPolicy kInternal

abbrev kErrorBootPolicyBadLength : RomError := romErrorCode 2 kModuleBootPolicy kInternal

abbrev kErrorBootPolicyRollback : RomError := romErrorCode 3 kModuleBootPolicy kInternal

abbrev kErrorBootstrapEraseAddress : RomError := romErrorCode 1 kModuleBootstrap kInvalidArgument

abbrev kErrorBootstrapProgramAddress : RomError :=
  romErrorCode 2 kModuleBootstrap kInvalidArgument

abbrev kErrorBootDataInvalid : RomError := romErrorCode 3 kModuleBootData kInternal

abbrev kErrorSpiDevicePayloadOverflow : RomError := romErrorCode 1 kModuleSpiDevice kInternal

/-- `lifecycle_state_t`, the states in which the CPU executes. -/
inductive LifecycleState where
  | test | dev | prod | prodEnd | rma
  deriving DecidableEq, Repr

/-- The `kLcState*` encoding. -/
def LifecycleState.code : LifecycleState → Word
  | .test => 0xb2865fbb
  | .dev => 0x0b5a75e0
  | .prod => 0x65f2520f
  | .prodEnd => 0x91b9b68a
  | .rma => 0xcf8cfaab

end SecureBoot
