import SecureBoot.Base.Error
import SecureBoot.Lib.Hoare

/-! The hardware under the drivers and the monad they run in. `Hw` is everything
the environment decides: the values of read-only registers, what a bus write does
to the registers, the successive values of registers that change on their own, the
data partition of the flash, SHA-256, and the faults of the flash. `Io` is what the
software changes. A driver returns or stops with a `Trap`. -/

namespace SecureBoot

/-- Where a driver stops. The first four are the `HARDENED_CHECK`s of sec_mmio,
`hardened` is any other `HARDENED_CHECK` or `HARDENED_UNREACHABLE`, `hang` a
polling loop that does not end. -/
inductive Trap where
  | secMmioFull | secMmioReadback | secMmioValues | secMmioCounters
  | hardened | hang | powerLoss
  deriving DecidableEq, Repr

structure Hw where
  /-- Registers that software cannot change: OTP window, life cycle controller. -/
  readOnly : Word → Option Word
  /-- The register file after a bus write of a value to an address. -/
  busWrite : (Word → Word) → Word → Word → Word → Word
  /-- The value of a register that changes on its own, at its `n`-th read. -/
  sample : ℕ → Word → Word
  /-- The flash data partition as the CPU sees it. -/
  flash : Word → Byte
  sha256 : List Byte → HmacDigest
  /-- The power fails at the end of the flash transaction at this time. -/
  powerLoss : ℕ → Bool
  /-- Whether the flash transaction at this time takes effect on its `i`-th word. -/
  takes : ℕ → ℕ → Bool

abbrev kSecMmioRegFileSize : ℕ := 1000

/-- `sec_mmio_ctx_t`. -/
structure SecMmioCtx where
  lastIndex : ℕ
  writeCount : Word
  expectedWriteCount : Word
  checkCount : Word
  values : ℕ → Word
  addrs : ℕ → Word

/-- The flash partitions that the ROM uses. -/
inductive FlashCtrlPartition where
  | data | info0
  deriving DecidableEq, Repr

/-- `flash_ctrl_erase_type_t`. -/
inductive FlashCtrlEraseType where
  | page | bank
  deriving DecidableEq, Repr

/-- `FLASH_CTRL_CONTROL_OP_VALUE_*`. -/
inductive FlashCtrlOp where
  | read | prog | erase
  deriving DecidableEq, Repr

/-- `transaction_params_t`. -/
structure TransactionParams where
  addr : Word
  opType : FlashCtrlOp
  eraseType : FlashCtrlEraseType
  partition : FlashCtrlPartition
  wordCount : Word
  deriving DecidableEq, Repr

structure Io where
  regs : Word → Word
  now : ℕ
  /-- The bus writes so far, latest first. -/
  bus : List (Word × Word)
  secMmio : SecMmioCtx
  /-- The message fed to the HMAC block since its last start. -/
  hmac : List Byte
  /-- The flash transaction in progress and the words in its program FIFO. -/
  transaction : Option TransactionParams
  fifo : List Word
  /-- The words of the info partition of type 0. -/
  info : ℕ → Word
  /-- The transactions that reached the data partition, latest first. -/
  dataOps : List TransactionParams

abbrev Drv := EStateM Trap Io

/-- Hardware on which every register is plain memory and nothing fails. -/
def Hw.plain : Hw where
  readOnly _ := none
  busWrite regs addr value := Function.update regs addr value
  sample _ _ := 0
  flash _ := 0
  sha256 _ := .replicate _ 0
  powerLoss _ := false
  takes _ _ := true

/-- The state at power-on, with all memory zero and all of the flash erased. -/
def Io.powerOn : Io where
  regs _ := 0
  now := 0
  bus := []
  secMmio := ⟨0, 0, 0, 0, fun _ => 0, fun _ => 0⟩
  hmac := []
  transaction := none
  fifo := []
  info _ := wordMax
  dataOps := []

/-! ### Hardened control flow -/

def hardenedCheck (c : Prop) [Decidable c] (trap : Trap) : Drv Unit :=
  if c then pure () else throw trap

def hardenedUnreachable {α : Type} : Drv α := throw .hardened

/-- `RETURN_IF_ERROR` and `HARDENED_RETURN_IF_ERROR`. -/
def returnIfError (x : Drv RomError) (rest : Drv RomError) : Drv RomError := do
  let error ← x
  if error = kErrorOk then rest else pure error

/-! ### Register access -/

/-- The value of a register that does not change on its own. -/
def Io.read (hw : Hw) (io : Io) (addr : Word) : Word := (hw.readOnly addr).getD (io.regs addr)

def Io.setSecMmio (io : Io) (ctx : SecMmioCtx) : Io := { io with secMmio := ctx }

@[simp] theorem Io.secMmio_setSecMmio (io : Io) (ctx : SecMmioCtx) :
    (io.setSecMmio ctx).secMmio = ctx := rfl

@[simp] theorem Io.read_setSecMmio (hw : Hw) (io : Io) (ctx : SecMmioCtx) (addr : Word) :
    (io.setSecMmio ctx).read hw addr = io.read hw addr := rfl

/-- The effect of a bus write. -/
def Io.write (hw : Hw) (io : Io) (addr value : Word) : Io :=
  { io with regs := hw.busWrite io.regs addr value, bus := (addr, value) :: io.bus }

@[simp] theorem Io.secMmio_write (hw : Hw) (io : Io) (addr value : Word) :
    (io.write hw addr value).secMmio = io.secMmio := rfl

section

variable (hw : Hw)

/-- `abs_mmio_read32` of a register that does not change on its own. -/
def absMmioRead32 (addr : Word) : Drv Word := do
  let io ← get
  pure (io.read hw addr)

/-- `abs_mmio_read32` of a register that does. -/
def absMmioSample32 (addr : Word) : Drv Word :=
  modifyGet fun io => (hw.sample io.now addr, { io with now := io.now + 1 })

/-- `abs_mmio_write32`. -/
def absMmioWrite32 (addr value : Word) : Drv Unit :=
  modify fun io => io.write hw addr value

/-- A loop that reads a register until it satisfies `done`: the sample stands for
the last read, and a loop without a last read hangs. -/
def absMmioPoll32 (addr : Word) (done : Word → Bool) : Drv Word := do
  let value ← absMmioSample32 hw addr
  if done value then pure value else throw .hang

end

end SecureBoot
