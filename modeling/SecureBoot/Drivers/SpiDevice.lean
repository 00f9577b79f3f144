import SecureBoot.Drivers.FlashCtrl

/-! The SPI device as the bootstrap code uses it. Commands come from the host: every
register is sampled, so that any sequence of commands is possible. -/

namespace SecureBoot

abbrev kSpiDeviceBase : Word := 0x40050000

abbrev kSpiDeviceIntrState : Word := kSpiDeviceBase + 0x0

abbrev kSpiDeviceFlashStatus : Word := kSpiDeviceBase + 0x3c

abbrev kSpiDeviceUploadStatus : Word := kSpiDeviceBase + 0x50

abbrev kSpiDeviceUploadStatus2 : Word := kSpiDeviceBase + 0x54

abbrev kSpiDeviceUploadCmdfifo : Word := kSpiDeviceBase + 0x58

abbrev kSpiDeviceUploadAddrfifo : Word := kSpiDeviceBase + 0x5c

abbrev kSpiDevicePayloadArea : Word := kSpiDeviceBase + 0x1000 + 0xd00

abbrev kSpiDevicePayloadAreaNumBytes : ℕ := 256

abbrev kSpiDeviceNoAddress : Word := wordMax

abbrev kSpiDeviceWelBit : ℕ := 1

abbrev kSpiDeviceOpcodeChipErase : Word := 0xc7

abbrev kSpiDeviceOpcodeSectorErase : Word := 0x20

abbrev kSpiDeviceOpcodePageProgram : Word := 0x02

abbrev kSpiDeviceOpcodeReset : Word := 0x99

/-- `spi_device_cmd_t`: the payload holds `payload_byte_count` bytes. -/
structure SpiDeviceCmd where
  opcode : Word
  address : Word
  payload : List Byte

variable (hw : Hw)

/-- The copy of `n` words of the payload from `addr` on. -/
def spiDevicePayloadRead : (n : ℕ) → (addr : Word) → Drv (List Word)
  | 0, _ => pure []
  | n + 1, addr => do
      let word ← absMmioSample32 hw addr
      let words ← spiDevicePayloadRead n (addr + 4)
      pure (word :: words)

/-- The address of a command, if it has one. -/
def spiDeviceAddressGet (uploadStatus : Word) : Drv Word :=
  if bitfieldBit32Read uploadStatus 15 then absMmioSample32 hw kSpiDeviceUploadAddrfifo
  else pure kSpiDeviceNoAddress

/-- `spi_device_cmd_get`. -/
def spiDeviceCmdGet : Drv (Except RomError SpiDeviceCmd) := do
  let reg ← absMmioPoll32 hw kSpiDeviceIntrState fun reg => bitfieldBit32Read reg 6
  absMmioWrite32 hw kSpiDeviceIntrState wordMax
  if bitfieldBit32Read reg 8 then
    pure (.error kErrorSpiDevicePayloadOverflow)
  else
    let opcode ← absMmioSample32 hw kSpiDeviceUploadCmdfifo
    let reg ← absMmioSample32 hw kSpiDeviceUploadStatus
    let address ← spiDeviceAddressGet hw reg
    let reg ← absMmioSample32 hw kSpiDeviceUploadStatus2
    let payloadByteCount := (bitfieldField32Read reg ⟨0x1ff, 0⟩).toNat
    hardenedCheck (payloadByteCount ≤ kSpiDevicePayloadAreaNumBytes) .hardened
    let words ← spiDevicePayloadRead hw ((payloadByteCount + 3) / 4) kSpiDevicePayloadArea
    pure (.ok ⟨opcode, address, (wordsToBytes words).take payloadByteCount⟩)

/-- `spi_device_flash_status_clear`. -/
def spiDeviceFlashStatusClear : Drv Unit := absMmioWrite32 hw kSpiDeviceFlashStatus 0

/-- `spi_device_flash_status_get`. -/
def spiDeviceFlashStatusGet : Drv Word := absMmioSample32 hw kSpiDeviceFlashStatus

section

variable {hw : Hw} {A : Word → Prop} {T : TransactionParams → Prop}

theorem frames_spiDevicePayloadRead (n : ℕ) (addr : Word) :
    Frames hw A T (spiDevicePayloadRead hw n addr) := by
  induction n generalizing addr with
  | zero => exact .pure _
  | succ n ih => exact .bind (frames_absMmioSample32 _) fun _ => .bind (ih _) fun _ => .pure _

theorem frames_spiDeviceCmdGet (hA : A kSpiDeviceIntrState) :
    Frames hw A T (spiDeviceCmdGet hw) := by
  refine .bind (frames_absMmioPoll32 _ _) fun _ => ?_
  refine .bind (frames_absMmioWrite32 _ hA) fun _ => .ite _ (.pure _) ?_
  refine .bind (frames_absMmioSample32 _) fun _ => .bind (frames_absMmioSample32 _) fun _ => ?_
  refine .bind (.ite _ (frames_absMmioSample32 _) (.pure _)) fun _ => ?_
  refine .bind (frames_absMmioSample32 _) fun _ => .bind (frames_hardenedCheck _ _) fun _ => ?_
  exact .bind (frames_spiDevicePayloadRead _ _) fun _ => .pure _

end

end SecureBoot

/-! The basic flash parameter table that the boot code serves, word by word as its macros
compute it. -/

namespace SecureBoot

/-- `kFlashBitCount`, of two banks. -/
abbrev kFlashBitCount : ℕ := 2 * kFlashBytesPerBank * 8

abbrev kBfptNotSupported : Word := 0

/-- `BFPT_FIELD_MASK`. -/
def bfptFieldMask (upper lower : ℕ) : BitVec 64 :=
  ((1 : BitVec 64) <<< (upper - lower + 1) - 1) <<< lower

/-- `BFPT_FIELD_VALUE`: the bits outside the field are ones. -/
def bfptFieldValue (upper lower : ℕ) (value : Word) : Word :=
  let mask := (bfptFieldMask upper lower).setWidth 32
  ~~~mask ||| (mask &&& (value <<< lower))

/-- A word, from the fields that are not all ones. -/
def bfptWord (fields : List (ℕ × ℕ × Word)) : Word :=
  fields.foldl (fun word field => word &&& bfptFieldValue field.1 field.2.1 field.2.2) wordMax

def bfptWord1 : Word := bfptWord [(22, 19, kBfptNotSupported), (18, 17, 0x0),
  (16, 16, kBfptNotSupported), (15, 8, kSpiDeviceOpcodeSectorErase), (4, 4, 0x1), (3, 3, 0x1),
  (2, 2, 0x1), (1, 0, 0x1)]

def bfptWord2 : Word := bfptWord [(31, 31, 0x0), (30, 0, .ofNat 32 (kFlashBitCount - 1))]

def bfptWord3 : Word := bfptWord [(31, 0, kBfptNotSupported)]

def bfptWord4 : Word := bfptWord [(31, 0, kBfptNotSupported)]

def bfptWord5 : Word := bfptWord [(4, 4, kBfptNotSupported), (0, 0, kBfptNotSupported)]

def bfptWord6 : Word := bfptWord [(31, 16, kBfptNotSupported)]

def bfptWord7 : Word := bfptWord [(31, 16, kBfptNotSupported)]

def bfptWord8 : Word := bfptWord [(31, 16, kBfptNotSupported),
  (15, 8, kSpiDeviceOpcodeSectorErase), (7, 0, 0x0c)]

def bfptWord9 : Word := bfptWord [(31, 0, kBfptNotSupported)]

def bfptWord10 : Word := bfptWord [(31, 11, kBfptNotSupported), (10, 9, 0x1), (8, 4, 0x8),
  (3, 0, 0x0)]

def bfptWord11 : Word := bfptWord [(30, 29, 0x0), (28, 24, 0xb), (23, 23, 0x1), (22, 19, 0x5),
  (18, 18, 0x1), (17, 14, 0x5), (13, 13, 0x1), (12, 8, 0xb), (7, 4, 0x8), (3, 0, 0x0)]

def bfptWord12 : Word := bfptWord [(31, 31, 0x1), (30, 9, kBfptNotSupported),
  (7, 0, kBfptNotSupported)]

def bfptWord13 : Word := bfptWord [(31, 0, kBfptNotSupported)]

def bfptWord14 : Word := bfptWord [(31, 31, 0x1), (30, 8, kBfptNotSupported), (7, 2, 0x1)]

def bfptWord15 : Word := bfptWord [(23, 0, kBfptNotSupported)]

def bfptWord16 : Word := bfptWord [(31, 14, kBfptNotSupported), (13, 8, 0x10), (6, 0, 0x0)]

def bfptWord17 : Word := bfptWord [(31, 0, kBfptNotSupported)]

def bfptWord18 : Word := bfptWord [(31, 0, kBfptNotSupported)]

def bfptWord19 : Word := bfptWord [(31, 0, kBfptNotSupported)]

def bfptWord20 : Word := bfptWord [(31, 0, wordMax)]

def bfptWord21 : Word := bfptWord [(31, 0, kBfptNotSupported)]

def bfptWord22 : Word := bfptWord [(31, 0, kBfptNotSupported)]

def bfptWord23 : Word := bfptWord [(31, 0, kBfptNotSupported)]

/-- `kSpiDeviceSfdpTable.bfpt`. -/
def kSpiDeviceBfpt : List Word :=
  [bfptWord1, bfptWord2, bfptWord3, bfptWord4, bfptWord5, bfptWord6, bfptWord7, bfptWord8,
    bfptWord9, bfptWord10, bfptWord11, bfptWord12, bfptWord13, bfptWord14, bfptWord15,
    bfptWord16, bfptWord17, bfptWord18, bfptWord19, bfptWord20, bfptWord21, bfptWord22,
    bfptWord23]

end SecureBoot
