import SecureBoot.Host.Sfdp
import SecureBoot.Lib.Hoare
import SecureBoot.Lib.NorFlash

/-! The host tool as a user of a serial flash: the transactions that it makes with a chip to erase
and to program it. A transport that fails ends a function with its error, and does not appear. -/

namespace SecureBoot

open Rust NorFlash

inductive SpiFlashError
  | addressOutOfBounds (address size : Word)
  | badEraseAddress (address eraseSize : Word)
  | badEraseLength (length eraseSize : Word)
  deriving DecidableEq, Repr

inductive AddressMode
  | mode3b | mode4b
  deriving DecidableEq, Repr

/-- `AddressMode::from`. -/
def AddressMode.ofSupported : SupportedAddressModes → AddressMode
  | .mode4b => mode4b
  | _ => mode3b

structure SpiFlash where
  size : Word
  eraseSize : Word
  eraseOpcode : Byte
  programSize : Word
  addressMode : AddressMode

/-- `SpiFlash::LEGACY_PAGE_SIZE`. -/
abbrev kLegacyPageSize : Word := 256

/-- `SpiFlash::default`. -/
def SpiFlash.default : SpiFlash := ⟨16 * 1024 * 1024, 4 * 1024, 0x20, kLegacyPageSize, .mode3b⟩

/-- `SpiFlash::from_sfdp`. -/
def SpiFlash.fromSfdp (sfdp : Sfdp) : SpiFlash where
  size := sfdp.jedec.density
  eraseSize := match sfdp.jedec.blockEraseSize with
    | .block4KiB => 4096
    | _ => sfdp.jedec.erase0.size
  eraseOpcode := match sfdp.jedec.blockEraseSize with
    | .block4KiB => sfdp.jedec.eraseOpcode4kib
    | _ => sfdp.jedec.erase0.opcode
  programSize := kLegacyPageSize
  addressMode := .ofSupported sfdp.jedec.addressModes

/-- `Transfer`. -/
inductive Transfer
  | write (bytes : List Byte)
  | read (length : ℕ)

/-- A function of the host that talks to a chip. -/
abbrev Spi := EStateM (Stop SpiFlashError) NorFlash.State

/-- A computation of the host alone. -/
def liftRun {α : Type} (x : Run SpiFlashError α) : Spi α :=
  match x with
  | .ok a => pure a
  | .error e => throw e

def ensure (c : Prop) [Decidable c] (e : SpiFlashError) : Spi Unit :=
  if c then pure () else throw (.err e)

variable (chip : Chip)

/-- `run_transaction`: all that is written, and then all that is read. -/
def runTransaction (transfers : List Transfer) : Spi (List Byte) :=
  modifyGet (transact chip
    (transfers.flatMap fun | .write bytes => bytes | .read _ => [])
    (transfers.map fun | .write _ => 0 | .read length => length).sum)

namespace SpiFlash

abbrev opPageProgram : Byte := 0x02
abbrev opSectorErase : Byte := 0x20
abbrev opWriteEnable : Byte := 0x06
abbrev opReadStatus : Byte := 0x05

abbrev statusWip : Byte := 0x01

/-- `read_status`. -/
def readStatus : Spi Byte := do
  let buf ← runTransaction chip [.write [opReadStatus], .read 1]
  liftRun (index buf 0)

/-- The rounds of `wait_for_busy_clear`, up to a number of them. -/
def pollBusy : ℕ → Spi Unit
  | 0 => pure ()
  | n + 1 => do
    let status ← readStatus chip
    if status &&& statusWip ≠ 0 then pollBusy n else pure ()

/-- `wait_for_busy_clear`: its rounds are as many as the chip answers that it is busy. -/
def waitForBusyClear : Spi Unit := do
  let s ← get
  pollBusy chip (s.busy + 1)

/-- `set_write_enable`. -/
def setWriteEnable : Spi Unit := do
  let _ ← runTransaction chip [.write [opWriteEnable]]

variable (flash : SpiFlash)

/-- The bytes of an address, in the current addressing mode. -/
def addressBytes (mode : AddressMode) (address : Word) : List Byte :=
  let low := [(address >>> 16).setWidth 8, (address >>> 8).setWidth 8, address.setWidth 8]
  match mode with
  | .mode3b => low
  | .mode4b => (address >>> 24).setWidth 8 :: low

/-- `opcode_with_address`. -/
def opcodeWithAddress (opcode : Byte) (address : Word) : Spi (List Byte) := do
  ensure (address < flash.size) (.addressOutOfBounds address flash.size)
  pure (opcode :: addressBytes flash.addressMode address)

/-- `(first..last).step_by(step)`. -/
def stepBy (first last step : Word) : List Word :=
  (List.range ((last.toNat - first.toNat + step.toNat - 1) / step.toNat)).map fun k =>
    .ofNat 32 (first.toNat + k * step.toNat)

/-- A round of the loop of `erase`. -/
def eraseRound (addr : Word) : Spi Unit := do
  setWriteEnable chip
  let opAddr ← opcodeWithAddress flash opSectorErase addr
  let _ ← runTransaction chip [.write opAddr]
  waitForBusyClear chip

/-- `erase`, without the reports of its progress. -/
def erase (address length : Word) : Spi Unit := do
  let rem ← liftRun (checkedRem address flash.eraseSize)
  ensure (rem = 0) (.badEraseAddress address flash.eraseSize)
  let rem ← liftRun (checkedRem length flash.eraseSize)
  ensure (rem = 0) (.badEraseLength length flash.eraseSize)
  let last ← liftRun (checkedAdd address length)
  (stepBy address last flash.eraseSize).forM (eraseRound chip flash)

/-- What the loop of `program` sends for a chunk. -/
def programChunk (address : Word) (chunk : List Byte) : Spi Unit :=
  if chunk.all (· == 0xff) then pure ()
  else do
    let opAddr ← opcodeWithAddress flash opPageProgram address
    setWriteEnable chip
    let _ ← runTransaction chip [.write opAddr, .write chunk]
    waitForBusyClear chip

/-- The rounds of the loop of `program`, up to a number of them, with the bytes that remain. -/
def programRounds : ℕ → Word → List Byte → Spi Unit
  | 0, _, _ => pure ()
  | n + 1, address, remain =>
    if remain = [] then pure ()
    else do
      let offset ← liftRun (checkedRem address flash.programSize)
      let size ← liftRun (checkedSub flash.programSize offset)
      let chunkSize := min size.toNat remain.length
      programChunk chip flash address (remain.take chunkSize)
      let next ← liftRun (checkedAdd address (.ofNat 32 chunkSize))
      programRounds n next (remain.drop chunkSize)

/-- `program`, without the reports of its progress: its rounds are no more than its bytes. -/
def program (address : Word) (buffer : List Byte) : Spi Unit :=
  programRounds chip flash buffer.length address buffer

end SpiFlash

/-! ### Runs -/

section

variable {chip : Chip} {s : NorFlash.State} {α : Type}

theorem run_liftRun_of_returns {c : Prop} {x : Run SpiFlashError α} {a : α} (h : Returns c x a)
    (hc : c) : (liftRun x).run s = .ok a s := by
  rw [h.eq hc]
  rfl

theorem run_ensure_of_pos {c : Prop} [Decidable c] (h : c) (e : SpiFlashError) :
    (ensure c e).run s = .ok () s := by
  rw [ensure, if_pos h]
  rfl

theorem run_ensure_of_neg {c : Prop} [Decidable c] (h : ¬ c) (e : SpiFlashError) :
    (ensure c e).run s = .error (.err e) s := by
  rw [ensure, if_neg h]
  rfl

theorem run_runTransaction_write (out : List Byte) :
    (runTransaction chip [.write out]).run s =
      .ok (transact chip out 0 s).1 (transact chip out 0 s).2 := by
  change EStateM.Result.ok (transact chip (out ++ []) 0 s).1 (transact chip (out ++ []) 0 s).2 = _
  rw [List.append_nil]

theorem run_runTransaction_write_write (out data : List Byte) :
    (runTransaction chip [.write out, .write data]).run s =
      .ok (transact chip (out ++ data) 0 s).1 (transact chip (out ++ data) 0 s).2 := by
  change EStateM.Result.ok (transact chip (out ++ (data ++ [])) 0 s).1
    (transact chip (out ++ (data ++ [])) 0 s).2 = _
  rw [List.append_nil]

namespace SpiFlash

theorem run_readStatus (chip : Chip) (s : NorFlash.State) :
    (readStatus chip).run s = .ok (status s) { s with busy := s.busy - 1 } := rfl

theorem status_and_wip (s : NorFlash.State) : status s &&& statusWip ≠ 0 ↔ s.busy ≠ 0 := by
  unfold status
  by_cases hb : s.busy = 0
  · rw [if_pos hb]
    cases s.writeEnabled <;> exact iff_of_false (by decide) (not_not.2 hb)
  · rw [if_neg hb]
    cases s.writeEnabled <;> exact iff_of_true (by decide) hb

/-- Enough rounds see the chip until it is ready. -/
theorem run_pollBusy {n : ℕ} (h : s.busy < n) :
    (pollBusy chip n).run s = .ok () { s with busy := 0 } := by
  induction n generalizing s with
  | zero => exact absurd h (Nat.not_lt_zero _)
  | succ n ih =>
    rw [pollBusy, Hoare.run_bind_of_ok (run_readStatus chip s)]
    by_cases hb : s.busy = 0
    · rw [if_neg (fun hw => (status_and_wip s).1 hw hb), hb]
      rfl
    · rw [if_pos ((status_and_wip s).2 hb), ih (show s.busy - 1 < n by omega)]

theorem run_waitForBusyClear (chip : Chip) (s : NorFlash.State) :
    (waitForBusyClear chip).run s = .ok () { s with busy := 0 } :=
  run_pollBusy (Nat.lt_succ_self s.busy)

theorem run_setWriteEnable (h : s.busy = 0) :
    (setWriteEnable chip).run s = .ok () { s with writeEnabled := true } := by
  rw [setWriteEnable, Hoare.run_bind_of_ok (run_runTransaction_write _)]
  exact congrArg (EStateM.Result.ok ()) (transact_writeEnable h)

/-- What the bytes of an address can say. -/
def truncate (mode : AddressMode) (a : ℕ) : ℕ :=
  match mode with
  | .mode3b => a % 2 ^ 24
  | .mode4b => a

/-- The address that the chip takes from the bytes of an address. -/
def sentAddress (mode : AddressMode) (address : Word) : ℕ := truncate mode address.toNat

theorem decodeAddress_addressBytes (mode : AddressMode) (address : Word) (rest : List Byte) :
    decodeAddress (mode = .mode4b) (addressBytes mode address ++ rest) =
      some (sentAddress mode address, rest) := by
  have hlt := address.isLt
  have hbyte (n : ℕ) : ((address >>> n).setWidth 8).toNat = address.toNat / 2 ^ n % 2 ^ 8 := by
    rw [BitVec.toNat_setWidth, BitVec.toNat_ushiftRight, Nat.shiftRight_eq_div_pow]
  have hlow : (address.setWidth 8).toNat = address.toNat % 2 ^ 8 := BitVec.toNat_setWidth _ _
  cases mode with
  | mode3b =>
    refine congrArg (fun a => some (a, rest)) ?_
    rw [hbyte, hbyte, hlow, sentAddress, truncate]
    omega
  | mode4b =>
    refine congrArg (fun a => some (a, rest)) ?_
    rw [hbyte, hbyte, hbyte, hlow, sentAddress, truncate]
    omega

end SpiFlash

end

end SecureBoot
