import SecureBoot.Drivers.SpiDevice

/-! Bootstrap: the host writes a new image over SPI. The event loop goes through three
states; before it programs anything it erases the whole flash and verifies that it is
erased, and it gives itself access to the flash only for the time of one command. -/

namespace SecureBoot

abbrev kGpioDataIn : Word := 0x40040000 + 0x10

abbrev kRstmgrResetReq : Word := 0x40410000 + 0x4

abbrev kOtpOwnerSwCfgRomBootstrapEn : Word := 868

/-- `SW_STRAP_MASK` and `SW_STRAP_BOOTSTRAP`: all three straps. -/
abbrev kSwStrapBootstrap : Word := 1 <<< 24 ||| 1 <<< 23 ||| 1 <<< 22

/-- Maximum flash address, exclusive. -/
abbrev kMaxAddress : Word := 0x100000

/-- `kFlashProgPageSize`. -/
abbrev kFlashProgPageSize : ℕ := 256

/-- `bootstrap_state_t`. -/
inductive BootstrapState where
  | erase | eraseVerify | program
  deriving DecidableEq, Repr

/-- Access to no data page. -/
abbrev kFlashNoAccess : FlashCtrlPerms :=
  ⟨kMultiBitBool4False, kMultiBitBool4False, kMultiBitBool4False⟩

/-- The words of a buffer; the bytes after the last whole word are not read. -/
def bytesToWords : List Byte → List Word
  | b₀ :: b₁ :: b₂ :: b₃ :: rest => Word.ofBytes b₀ b₁ b₂ b₃ :: bytesToWords rest
  | _ => []

variable (hw : Hw)

/-- `bootstrap_requested`. -/
def bootstrapRequested : Drv Word := do
  let res ← otpRead32 hw kOtpOwnerSwCfgRomBootstrapEn
  if res ≠ kHardenedBoolTrue then pure kHardenedBoolFalse
  else
    let dataIn ← absMmioSample32 hw kGpioDataIn
    let res := res ^^^ kSwStrapBootstrap ^^^ (dataIn &&& kSwStrapBootstrap)
    if res ≠ kHardenedBoolTrue then pure kHardenedBoolFalse else pure res

/-- `rstmgr_reset`: requests a reset and waits for it. -/
def rstmgrReset {α : Type} : Drv α := do
  absMmioWrite32 hw kRstmgrResetReq kMultiBitBool4True
  throw .hang

/-- `bootstrap_chip_erase`. -/
def bootstrapChipErase : Drv RomError := do
  flashCtrlBankErasePermsSet hw true
  let err₀ ← flashCtrlDataErase hw 0 .bank
  let err₁ ← flashCtrlDataErase hw (.ofNat 32 kFlashBytesPerBank) .bank
  flashCtrlBankErasePermsSet hw false
  pure (if err₀ ≠ kErrorOk then err₀ else err₁)

/-- `bootstrap_sector_erase`: a sector is two pages. -/
def bootstrapSectorErase (addr : Word) : Drv RomError :=
  if addr ≥ kMaxAddress then pure kErrorBootstrapEraseAddress
  else do
    let addr := addr &&& (~~~4096 + 1)
    flashCtrlDataDefaultPermsSet hw { kFlashNoAccess with erase := kMultiBitBool4True }
    let err₀ ← flashCtrlDataErase hw addr .page
    let err₁ ← flashCtrlDataErase hw (addr + .ofNat 32 kFlashBytesPerPage) .page
    flashCtrlDataDefaultPermsSet hw kFlashNoAccess
    pure (if err₀ ≠ kErrorOk then err₀ else err₁)

/-- The payload rounded up to the next flash word with `0xff`. -/
def bootstrapPadding (data : List Byte) : List Byte :=
  let misalignment := data.length % kFlashBytesPerWord
  if misalignment > 0 then data ++ .replicate (kFlashBytesPerWord - misalignment) 0xff else data

/-- The two writes of `bootstrap_page_program`: up to the end of the page, and from
its start on. -/
def bootstrapPageWrites (addr : Word) (words : List Word) : Drv (RomError × RomError) := do
  let misalignment := addr.toNat % kFlashProgPageSize
  let wordCount :=
    if misalignment > 0 then min ((kFlashProgPageSize - misalignment) / 4) words.length else 0
  let err₀ ← (if misalignment > 0 then flashCtrlDataWrite hw addr (words.take wordCount)
    else pure kErrorOk)
  let addr := if misalignment > 0 then addr &&& ~~~(.ofNat 32 (kFlashProgPageSize - 1)) else addr
  let err₁ ← (if words.drop wordCount ≠ [] then flashCtrlDataWrite hw addr (words.drop wordCount)
    else pure kErrorOk)
  pure (err₀, err₁)

/-- `bootstrap_page_program`. -/
def bootstrapPageProgram (addr : Word) (data : List Byte) : Drv RomError :=
  if addr &&& .ofNat 32 (kFlashBytesPerWord - 1) ≠ 0 ∨ addr ≥ kMaxAddress then
    pure kErrorBootstrapProgramAddress
  else do
    flashCtrlDataDefaultPermsSet hw { kFlashNoAccess with write := kMultiBitBool4True }
    let (err₀, err₁) ← bootstrapPageWrites hw addr (bytesToWords (bootstrapPadding data))
    flashCtrlDataDefaultPermsSet hw kFlashNoAccess
    pure (if err₀ ≠ kErrorOk then err₀ else err₁)

/-- `bootstrap_handle_erase`: either erase command erases both banks. -/
def bootstrapHandleErase : Drv (RomError × BootstrapState) := do
  match ← spiDeviceCmdGet hw with
  | .error error => pure (error, .erase)
  | .ok cmd =>
    let status ← spiDeviceFlashStatusGet hw
    if bitfieldBit32Read status kSpiDeviceWelBit = false then pure (kErrorOk, .erase)
    else if cmd.opcode = kSpiDeviceOpcodeChipErase ∨ cmd.opcode = kSpiDeviceOpcodeSectorErase then
      let error ← bootstrapChipErase hw
      pure (error, if error = kErrorOk then .eraseVerify else .erase)
    else
      spiDeviceFlashStatusClear hw
      pure (kErrorOk, .erase)

/-- `bootstrap_handle_erase_verify`. -/
def bootstrapHandleEraseVerify : Drv (RomError × BootstrapState) := do
  let err₀ ← flashCtrlDataEraseVerify hw 0 .bank
  let err₁ ← flashCtrlDataEraseVerify hw (.ofNat 32 kFlashBytesPerBank) .bank
  if err₀ ≠ kErrorOk then pure (err₀, .eraseVerify)
  else if err₁ ≠ kErrorOk then pure (err₁, .eraseVerify)
  else
    spiDeviceFlashStatusClear hw
    pure (err₀, .program)

/-- Whether a command is to be executed: all but a reset require write enable. -/
def bootstrapWriteEnabled (opcode : Word) : Drv Bool :=
  if opcode = kSpiDeviceOpcodeReset then pure true
  else do
    let status ← spiDeviceFlashStatusGet hw
    pure (bitfieldBit32Read status kSpiDeviceWelBit)

/-- The switch of `bootstrap_handle_program`. -/
def bootstrapExecute (cmd : SpiDeviceCmd) : Drv RomError :=
  if cmd.opcode = kSpiDeviceOpcodeChipErase then bootstrapChipErase hw
  else if cmd.opcode = kSpiDeviceOpcodeSectorErase then bootstrapSectorErase hw cmd.address
  else if cmd.opcode = kSpiDeviceOpcodePageProgram then
    bootstrapPageProgram hw cmd.address cmd.payload
  else if cmd.opcode = kSpiDeviceOpcodeReset then rstmgrReset hw
  else pure kErrorOk

/-- `bootstrap_handle_program`. -/
def bootstrapHandleProgram : Drv (RomError × BootstrapState) := do
  match ← spiDeviceCmdGet hw with
  | .error error => pure (error, .program)
  | .ok cmd =>
    let enabled ← bootstrapWriteEnabled hw cmd.opcode
    if enabled = false then pure (kErrorOk, .program)
    else
      let error ← bootstrapExecute hw cmd
      if error ≠ kErrorOk then pure (error, .program)
      else
        spiDeviceFlashStatusClear hw
        pure (error, .program)

/-- One round of the event loop of `bootstrap`. -/
def bootstrapHandle : BootstrapState → Drv (RomError × BootstrapState)
  | .erase => bootstrapHandleErase hw
  | .eraseVerify => bootstrapHandleEraseVerify hw
  | .program => bootstrapHandleProgram hw

/-- The first `n` rounds of the event loop. -/
def bootstrapLoop : (n : ℕ) → BootstrapState → Drv RomError
  | 0, _ => throw .hang
  | n + 1, state => do
      let (error, state) ← bootstrapHandle hw state
      if error ≠ kErrorOk then pure error else bootstrapLoop n state

/-! ### Sessions -/

/-- A round of the event loop with the state before it and its outcome. -/
structure BootstrapRound where
  state : BootstrapState
  before : Io
  outcome : EStateM.Result Trap Io (RomError × BootstrapState)

/-- The rounds of a session, as `bootstrapLoop` makes them: the loop ends with the
first error or trap. -/
def bootstrapRounds : (n : ℕ) → BootstrapState → Io → List BootstrapRound
  | 0, _, _ => []
  | n + 1, state, io =>
    let outcome := (bootstrapHandle hw state).run io
    ⟨state, io, outcome⟩ ::
      match outcome with
      | .ok (error, state') io' =>
        if error ≠ kErrorOk then [] else bootstrapRounds n state' io'
      | .error _ _ => []

end SecureBoot

/-! The safety of bootstrap. Whatever the host sends and whatever the flash controller
reports, a transaction that programs or that erases a sector is made in the third
state only, and this state is reached only from an erase of both banks and the
verification that follows it. Between two rounds there is no access to the flash. -/

namespace SecureBoot

variable {hw : Hw} {A : Word → Prop} {T : TransactionParams → Prop}

/-! ### What the handlers start -/

/-- The transactions that change a part of the data partition. -/
def TransactionParams.IsPartial (p : TransactionParams) : Prop :=
  p.opType = .prog ∨ p.opType = .erase ∧ p.eraseType = .page

/-- The erase of one bank. -/
def bankErase (addr : Word) : TransactionParams := ⟨addr, .erase, .bank, .data, 1⟩

abbrev kFlashPermRegs : List Word := [kFlashCtrlDefaultRegion, kFlashCtrlMpBankCfgShadowed]

/-- The registers of the bootstrap code apart from those of the permissions. -/
abbrev kBootstrapRegs : List Word :=
  kFlashTransactionRegs ++ [kSpiDeviceIntrState, kSpiDeviceFlashStatus, kRstmgrResetReq]

theorem frames_bootstrapChipErase (hflash : ∀ a ∈ kFlashTransactionRegs, A a)
    (hbank : A kFlashCtrlMpBankCfgShadowed) (hT : ∀ addr, T (bankErase addr)) :
    Frames hw A T (bootstrapChipErase hw) := by
  refine .bind (frames_flashCtrlBankErasePermsSet hbank _) fun _ => ?_
  refine .bind (frames_flashCtrlDataErase hflash _ _ (hT _)) fun _ => ?_
  refine .bind (frames_flashCtrlDataErase hflash _ _ (hT _)) fun _ => ?_
  exact .bind (frames_flashCtrlBankErasePermsSet hbank _) fun _ => .pure _

theorem frames_bootstrapSectorErase (hflash : ∀ a ∈ kFlashTransactionRegs, A a)
    (hregion : A kFlashCtrlDefaultRegion) (addr : Word) :
    Frames hw A (fun _ => True) (bootstrapSectorErase hw addr) := by
  refine .ite _ (.pure _) ?_
  refine .bind (frames_flashCtrlDataDefaultPermsSet hregion _) fun _ => ?_
  refine .bind (frames_flashCtrlDataErase hflash _ _ trivial) fun _ => ?_
  refine .bind (frames_flashCtrlDataErase hflash _ _ trivial) fun _ => ?_
  exact .bind (frames_flashCtrlDataDefaultPermsSet hregion _) fun _ => .pure _

theorem frames_bootstrapPageWrites (hflash : ∀ a ∈ kFlashTransactionRegs, A a) (addr : Word)
    (words : List Word) : Frames hw A (fun _ => True) (bootstrapPageWrites hw addr words) := by
  have hwrite (addr : Word) (data : List Word) :
      Frames hw A (fun _ => True) (flashCtrlDataWrite hw addr data) :=
    frames_flashCtrlDataWrite hflash (fun _ _ => trivial) addr data
  refine .bind (.ite _ (hwrite _ _) (.pure _)) fun _ => ?_
  exact .bind (.ite _ (hwrite _ _) (.pure _)) fun _ => .pure _

theorem frames_bootstrapPageProgram (hflash : ∀ a ∈ kFlashTransactionRegs, A a)
    (hregion : A kFlashCtrlDefaultRegion) (addr : Word) (data : List Byte) :
    Frames hw A (fun _ => True) (bootstrapPageProgram hw addr data) := by
  refine .ite _ (.pure _) ?_
  refine .bind (frames_flashCtrlDataDefaultPermsSet hregion _) fun _ => ?_
  refine .bind (frames_bootstrapPageWrites hflash _ _) fun _ => ?_
  exact .bind (frames_flashCtrlDataDefaultPermsSet hregion _) fun _ => .pure _

theorem frames_bootstrapHandleErase (hA : ∀ a ∈ kBootstrapRegs, A a)
    (hbank : A kFlashCtrlMpBankCfgShadowed) (hT : ∀ addr, T (bankErase addr)) :
    Frames hw A T (bootstrapHandleErase hw) := by
  refine .bind (frames_spiDeviceCmdGet (hA _ (by simp))) fun cmd => ?_
  cases cmd with
  | error error => exact .pure _
  | ok cmd =>
    refine .bind (frames_absMmioSample32 _) fun _ => .ite _ (.pure _) (.ite _ ?_ ?_)
    · have hflash : ∀ a ∈ kFlashTransactionRegs, A a := fun a ha =>
        hA a (List.mem_append_left _ ha)
      exact .bind (frames_bootstrapChipErase hflash hbank hT) fun _ => .pure _
    · exact .bind (frames_absMmioWrite32 _ (hA _ (by simp))) fun _ => .pure _

theorem frames_bootstrapHandleEraseVerify (hA : A kSpiDeviceFlashStatus) :
    Frames hw A T (bootstrapHandleEraseVerify hw) := by
  refine .bind (frames_flashCtrlDataEraseVerify _ _) fun _ => ?_
  refine .bind (frames_flashCtrlDataEraseVerify _ _) fun _ => ?_
  refine .ite _ (.pure _) (.ite _ (.pure _) ?_)
  exact .bind (frames_absMmioWrite32 _ hA) fun _ => .pure _

theorem frames_bootstrapWriteEnabled (opcode : Word) :
    Frames hw A T (bootstrapWriteEnabled hw opcode) :=
  .ite _ (.pure _) (.bind (frames_absMmioSample32 _) fun _ => .pure _)

/-! ### Permissions between rounds -/

/-- Neither the default data-page permissions nor those to erase a bank give access. -/
structure Io.PermsDisabled (hw : Hw) (io : Io) : Prop where
  data : io.DataPermsDisabled hw
  bankErase : io.BankErasePermsDisabled hw

section

variable (hregion : hw.Isolates kFlashCtrlDefaultRegion)
variable (hbank : hw.Isolates kFlashCtrlMpBankCfgShadowed)

include hregion in
theorem dataPermsDisabled_of_frames {α : Type} {x : Drv α} (h : Frames hw A T x)
    (hA : ¬ A kFlashCtrlDefaultRegion) :
    Hoare.Triple (Io.DataPermsDisabled hw) x (fun _ => Io.DataPermsDisabled hw)
      (fun _ _ => True) := by
  refine (h.invariant fun s t hframe hs => ?_).conseq (fun _ h => h) (fun _ _ h => h)
    fun _ _ _ => trivial
  have hread := hframe.read hregion hA
  exact ⟨hread ▸ hs.read, hread ▸ hs.prog, hread ▸ hs.erase⟩

include hbank in
theorem bankErasePermsDisabled_of_frames {α : Type} {x : Drv α} (h : Frames hw A T x)
    (hA : ¬ A kFlashCtrlMpBankCfgShadowed) :
    Hoare.Triple (Io.BankErasePermsDisabled hw) x (fun _ => Io.BankErasePermsDisabled hw)
      (fun _ _ => True) := by
  refine (h.invariant fun s t hframe hs => ?_).conseq (fun _ h => h) (fun _ _ h => h)
    fun _ _ _ => trivial
  exact (hframe.read hbank hA).trans hs

variable (hw) in
/-- A piece of the bootstrap code after which there is no access if there was none. -/
def KeepsPermsDisabled {α : Type} (x : Drv α) : Prop :=
  Hoare.Triple (Io.PermsDisabled hw) x (fun _ => Io.PermsDisabled hw) (fun _ _ => True)

theorem KeepsPermsDisabled.of_triples {α : Type} {x : Drv α}
    (hdata : Hoare.Triple (Io.DataPermsDisabled hw) x (fun _ => Io.DataPermsDisabled hw)
      (fun _ _ => True))
    (hbankErase : Hoare.Triple (Io.BankErasePermsDisabled hw) x
      (fun _ => Io.BankErasePermsDisabled hw) (fun _ _ => True)) : KeepsPermsDisabled hw x :=
  (hdata.and hbankErase).conseq (fun _ h => ⟨h.data, h.bankErase⟩) (fun _ _ h => ⟨h.1, h.2⟩)
    fun _ _ _ => trivial

theorem KeepsPermsDisabled.bind {α β : Type} {x : Drv α} {f : α → Drv β}
    (hx : KeepsPermsDisabled hw x) (hf : ∀ a, KeepsPermsDisabled hw (f a)) :
    KeepsPermsDisabled hw (x >>= f) := Hoare.Triple.bind hx hf

theorem KeepsPermsDisabled.pure {α : Type} (a : α) : KeepsPermsDisabled hw (pure a) :=
  Hoare.Triple.pure a fun _ h => h

theorem KeepsPermsDisabled.ite {α : Type} (c : Prop) [Decidable c] {x y : Drv α}
    (hx : KeepsPermsDisabled hw x) (hy : KeepsPermsDisabled hw y) :
    KeepsPermsDisabled hw (if c then x else y) :=
  Hoare.Triple.ite c (fun _ => hx) fun _ => hy

include hregion hbank

theorem keepsPermsDisabled_of_frames {α : Type} {x : Drv α} (h : Frames hw A T x)
    (hA : ∀ a ∈ kFlashPermRegs, ¬ A a) : KeepsPermsDisabled hw x :=
  .of_triples (dataPermsDisabled_of_frames hregion h (hA _ (by simp)))
    (bankErasePermsDisabled_of_frames hbank h (hA _ (by simp)))

omit hbank in
/-- The permission to erase banks is the last that is set. -/
theorem keepsPermsDisabled_bootstrapChipErase : KeepsPermsDisabled hw (bootstrapChipErase hw) := by
  refine .of_triples (dataPermsDisabled_of_frames hregion
    (frames_bootstrapChipErase (A := (· ≠ kFlashCtrlDefaultRegion)) (T := fun _ => True)
      (by simp) (by simp) fun _ => trivial) (by simp)) ?_
  refine .bind .top fun _ => .bind .top fun _ => .bind .top fun _ => ?_
  exact .bind bankErasePermsDisabled_flashCtrlBankErasePermsSet fun _ => .pure _ fun _ h => h

omit hregion in
theorem keepsPermsDisabled_bootstrapSectorErase (addr : Word) :
    KeepsPermsDisabled hw (bootstrapSectorErase hw addr) := by
  refine .of_triples ?_ (bankErasePermsDisabled_of_frames hbank
    (frames_bootstrapSectorErase (A := (· ≠ kFlashCtrlMpBankCfgShadowed))
      (by simp) (by simp) addr) (by simp))
  refine .ite _ (fun _ => .pure _ fun _ h => h) fun _ => ?_
  refine .bind .top fun _ => .bind .top fun _ => .bind .top fun _ => ?_
  exact .bind dataPermsDisabled_flashCtrlDataDefaultPermsSet fun _ => .pure _ fun _ h => h

omit hregion in
theorem keepsPermsDisabled_bootstrapPageProgram (addr : Word) (data : List Byte) :
    KeepsPermsDisabled hw (bootstrapPageProgram hw addr data) := by
  refine .of_triples ?_ (bankErasePermsDisabled_of_frames hbank
    (frames_bootstrapPageProgram (A := (· ≠ kFlashCtrlMpBankCfgShadowed))
      (by simp) (by simp) addr data) (by simp))
  refine .ite _ (fun _ => .pure _ fun _ h => h) fun _ => ?_
  refine .bind .top fun _ => .bind .top fun _ => ?_
  exact .bind dataPermsDisabled_flashCtrlDataDefaultPermsSet fun _ => .pure _ fun _ h => h

/-- A piece of the code that touches no permission. -/
theorem keepsPermsDisabled_of_bootstrapRegs {α : Type} {x : Drv α}
    (h : Frames hw (· ∈ kBootstrapRegs) T x) : KeepsPermsDisabled hw x :=
  keepsPermsDisabled_of_frames hregion hbank h
    (List.forall_mem_cons.mpr ⟨by decide, List.forall_mem_singleton.mpr (by decide)⟩)

theorem keepsPermsDisabled_bootstrapExecute (cmd : SpiDeviceCmd) :
    KeepsPermsDisabled hw (bootstrapExecute hw cmd) := by
  refine .ite _ (keepsPermsDisabled_bootstrapChipErase hregion) (.ite _ ?_ (.ite _ ?_ ?_))
  · exact keepsPermsDisabled_bootstrapSectorErase hbank _
  · exact keepsPermsDisabled_bootstrapPageProgram hbank _ _
  · refine .ite _ ?_ (.pure _)
    exact Hoare.Triple.bind .top fun _ => .throw _ fun _ _ => trivial

/-- After every round there is no access to the flash, if there was none before it. -/
theorem keepsPermsDisabled_bootstrapHandle (state : BootstrapState) :
    KeepsPermsDisabled hw (bootstrapHandle hw state) := by
  have quiet {α : Type} {x : Drv α} (h : Frames hw (· ∈ kBootstrapRegs) (fun _ => True) x) :
      KeepsPermsDisabled hw x := keepsPermsDisabled_of_bootstrapRegs hregion hbank h
  cases state with
  | erase =>
    refine .bind (quiet (frames_spiDeviceCmdGet (by decide))) fun cmd => ?_
    cases cmd with
    | error error => exact .pure _
    | ok cmd =>
      refine .bind (quiet (frames_absMmioSample32 _)) fun _ => .ite _ (.pure _) (.ite _ ?_ ?_)
      · exact .bind (keepsPermsDisabled_bootstrapChipErase hregion) fun _ => .pure _
      · exact .bind (quiet (frames_absMmioWrite32 _ (by decide))) fun _ => .pure _
  | eraseVerify => exact quiet (frames_bootstrapHandleEraseVerify (by decide))
  | program =>
    refine .bind (quiet (frames_spiDeviceCmdGet (by decide))) fun cmd => ?_
    cases cmd with
    | error error => exact .pure _
    | ok cmd =>
      refine .bind (quiet (frames_bootstrapWriteEnabled _)) fun _ => .ite _ (.pure _) ?_
      refine .bind (keepsPermsDisabled_bootstrapExecute hregion hbank cmd) fun _ => ?_
      refine .ite _ (.pure _) ?_
      exact .bind (quiet (frames_absMmioWrite32 _ (by decide))) fun _ => .pure _

end

/-! ### The transactions of a round -/

/-- Between two states the transaction reached the data partition. -/
def Io.Sends (op : TransactionParams) (io io' : Io) : Prop :=
  ∃ new, io'.dataOps = new ++ io.dataOps ∧ op ∈ new

def Io.Extends (io io' : Io) : Prop := ∃ new, io'.dataOps = new ++ io.dataOps

section

variable {s : Io} {op : TransactionParams}

theorem extends_of_frames {α : Type} {x : Drv α} (h : Frames hw A T x) :
    Hoare.Triple s.Extends x (fun _ => s.Extends) (fun _ _ => True) := by
  refine (h.invariant ?_).conseq (fun _ h => h) (fun _ _ h => h) fun _ _ _ => trivial
  rintro t u hframe ⟨new, hnew⟩
  obtain ⟨new', hnew', -⟩ := hframe.dataOps
  exact ⟨new' ++ new, by rw [hnew', hnew, List.append_assoc]⟩

theorem sends_of_frames {α : Type} {x : Drv α} (h : Frames hw A T x) :
    Hoare.Triple (s.Sends op) x (fun _ => s.Sends op) (fun _ _ => True) := by
  refine (h.invariant ?_).conseq (fun _ h => h) (fun _ _ h => h) fun _ _ _ => trivial
  rintro t u hframe ⟨new, hnew, hop⟩
  obtain ⟨new', hnew', -⟩ := hframe.dataOps
  exact ⟨new' ++ new, by rw [hnew', hnew, List.append_assoc], List.mem_append_right _ hop⟩

theorem sends_flashCtrlDataErase (addr : Word) (eraseType : FlashCtrlEraseType) :
    Hoare.Triple s.Extends (flashCtrlDataErase hw addr eraseType)
      (fun _ => s.Sends ⟨addr, .erase, eraseType, .data, 1⟩) (fun _ _ => True) := by
  refine .bind (R := fun _ => s.Sends ⟨addr, .erase, eraseType, .data, 1⟩) ?_ fun _ =>
    sends_of_frames (A := fun _ => True) (T := fun _ => True)
      (frames_waitForDone trivial _)
  have hwrite (a v : Word) : Hoare.Triple s.Extends (absMmioWrite32 hw a v) (fun _ => s.Extends)
      (fun _ _ => True) :=
    extends_of_frames (A := fun _ => True) (T := fun _ => True) (frames_absMmioWrite32 v trivial)
  refine .bind (hwrite _ _) fun _ => .bind (hwrite _ _) fun _ => .modify _ ?_
  rintro io ⟨new, hnew⟩
  exact ⟨_ :: new, by simp [Io.startTransaction, hnew], List.mem_cons_self⟩

theorem Io.Sends.extends {io io' : Io} (h : io.Sends op io') : io.Extends io' :=
  ⟨h.choose, h.choose_spec.1⟩

/-- A chip erase erases both banks. -/
theorem sends_bootstrapChipErase :
    Hoare.Triple s.Extends (bootstrapChipErase hw)
      (fun _ io => s.Sends (bankErase 0) io ∧
        s.Sends (bankErase (.ofNat 32 kFlashBytesPerBank)) io) (fun _ _ => True) := by
  have hperms (enable : Bool) : Frames hw (fun _ => True) (fun _ => True)
      (flashCtrlBankErasePermsSet hw enable) := frames_flashCtrlBankErasePermsSet trivial enable
  have herase (addr : Word) : Frames hw (fun _ => True) (fun _ => True)
      (flashCtrlDataErase hw addr .bank) :=
    frames_flashCtrlDataErase (fun _ _ => trivial) addr _ trivial
  refine .bind (extends_of_frames (hperms true)) fun _ => ?_
  refine .bind (sends_flashCtrlDataErase _ _) fun _ => ?_
  refine .bind (((sends_of_frames (herase _)).and (sends_flashCtrlDataErase _ _)).conseq
    (fun _ h => ⟨h, h.extends⟩) (fun _ _ h => h) fun _ _ _ => trivial) fun _ => ?_
  refine .bind (((sends_of_frames (hperms false)).and (sends_of_frames (hperms false))).conseq
    (fun _ h => h) (fun _ _ h => h) fun _ _ _ => trivial) fun _ => ?_
  exact .pure _ fun _ h => h

variable (hw s) in
/-- The first state is left with a chip erase only. -/
theorem triple_bootstrapHandleErase :
    Hoare.Triple (· = s) (bootstrapHandleErase hw)
      (fun r io => r.2 = .erase ∨ r.2 = .eraseVerify ∧ s.Sends (bankErase 0) io ∧
        s.Sends (bankErase (.ofNat 32 kFlashBytesPerBank)) io) (fun _ _ => True) := by
  refine .bind (R := fun _ => s.Extends) ?_ fun cmd => ?_
  · refine (extends_of_frames (A := fun _ => True) (T := fun _ => True)
      (frames_spiDeviceCmdGet trivial)).conseq ?_ (fun _ _ h => h) fun _ _ h => h
    rintro _ rfl
    exact ⟨[], rfl⟩
  cases cmd with
  | error error => exact .pure _ fun _ _ => .inl rfl
  | ok cmd =>
    refine .bind (extends_of_frames (A := fun _ => True) (T := fun _ => True)
      (frames_absMmioSample32 _)) fun status => ?_
    refine .ite _ (fun _ => .pure _ fun _ _ => .inl rfl) fun _ => .ite _ (fun _ => ?_) fun _ => ?_
    · refine .bind sends_bootstrapChipErase fun error => ?_
      by_cases herror : error = kErrorOk
      · rw [if_pos herror]
        exact .pure _ fun _ h => .inr ⟨rfl, h⟩
      · rw [if_neg herror]
        exact .pure _ fun _ _ => .inl rfl
    · exact .bind .top fun _ => .pure _ fun _ _ => .inl rfl

end

/-- The second state is left, without an error, with both banks verified only. -/
theorem run_bootstrapHandleEraseVerify {io io' : Io} {state : BootstrapState}
    (h : (bootstrapHandleEraseVerify hw).run io = .ok (kErrorOk, state) io') :
    state = .program ∧ ∃ io₁ io₂,
      (flashCtrlDataEraseVerify hw 0 .bank).run io = .ok kErrorOk io₁ ∧
      (flashCtrlDataEraseVerify hw (.ofNat 32 kFlashBytesPerBank) .bank).run io₁ =
        .ok kErrorOk io₂ := by
  obtain ⟨err₀, io₁, h₀, h⟩ := Hoare.exists_of_run_bind h
  obtain ⟨err₁, io₂, h₁, h⟩ := Hoare.exists_of_run_bind h
  split_ifs at h with hne₀ hne₁
  · cases h
    exact absurd rfl hne₀
  · cases h
    exact absurd rfl hne₁
  · rw [not_not] at hne₀ hne₁
    obtain ⟨_, io₃, -, h⟩ := Hoare.exists_of_run_bind h
    cases h
    exact ⟨rfl, io₁, io₂, h₀, hne₁ ▸ h₁⟩

/-! ### Sessions -/

def BootstrapRound.Sends (round : BootstrapRound) (op : TransactionParams) : Prop :=
  round.before.Sends op (Hoare.final round.outcome)

/-- A round in which an erase command erased both banks. -/
structure BootstrapRound.ErasesChip (round : BootstrapRound) : Prop where
  state : round.state = .erase
  returned : ∃ io, round.outcome = .ok (kErrorOk, .eraseVerify) io
  sends_bank0 : round.Sends (bankErase 0)
  sends_bank1 : round.Sends (bankErase (.ofNat 32 kFlashBytesPerBank))

/-- A round in which `flash_ctrl_data_erase_verify` succeeded for both banks. -/
structure BootstrapRound.VerifiesErase (hw : Hw) (round : BootstrapRound) : Prop where
  state : round.state = .eraseVerify
  verified : ∃ io₁ io₂,
    (flashCtrlDataEraseVerify hw 0 .bank).run round.before = .ok kErrorOk io₁ ∧
    (flashCtrlDataEraseVerify hw (.ofNat 32 kFlashBytesPerBank) .bank).run io₁ =
      .ok kErrorOk io₂

/-- The state at the end of some rounds from `io` on. -/
def roundsEnd (io : Io) : List BootstrapRound → Io
  | [] => io
  | round :: rounds => roundsEnd (Hoare.final round.outcome) rounds

/-- The rounds are those of the event loop. -/
theorem final_bootstrapLoop (n : ℕ) (state : BootstrapState) (io : Io) :
    Hoare.final ((bootstrapLoop hw n state).run io) =
      roundsEnd io (bootstrapRounds hw n state io) := by
  induction n generalizing state io with
  | zero => rfl
  | succ n ih =>
    rw [bootstrapLoop, bootstrapRounds, EStateM.run_bind, roundsEnd]
    cases (bootstrapHandle hw state).run io with
    | error trap io' => rfl
    | ok r io' =>
      simp only [Hoare.final]
      split_ifs
      · rfl
      · exact ih _ _

/-- What the rounds before the third state contain, by the state they start in. -/
def Preceded (hw : Hw) : BootstrapState → List BootstrapRound → Prop
  | .erase, rounds => ∃ earlier e v later, rounds = earlier ++ e :: v :: later ∧
      e.ErasesChip ∧ v.VerifiesErase hw
  | .eraseVerify, rounds => ∃ v later, rounds = v :: later ∧ v.VerifiesErase hw
  | .program, _ => True

/-- One round keeps it. -/
theorem preceded_cons {state state' : BootstrapState} {io io' : Io} {rounds : List BootstrapRound}
    (hrun : (bootstrapHandle hw state).run io = .ok (kErrorOk, state') io')
    (h : Preceded hw state' rounds) :
    Preceded hw state (⟨state, io, (bootstrapHandle hw state).run io⟩ :: rounds) := by
  cases state with
  | erase =>
    have hstep : Hoare.Outcome _ _ ((bootstrapHandle hw .erase).run io) :=
      triple_bootstrapHandleErase hw io io rfl
    rw [hrun] at hstep
    obtain rfl | ⟨rfl, hbank0, hbank1⟩ := hstep
    · obtain ⟨earlier, e, v, later, rfl, he, hv⟩ := h
      exact ⟨_ :: earlier, e, v, later, rfl, he, hv⟩
    · obtain ⟨v, later, rfl, hv⟩ := h
      refine ⟨[], _, v, later, rfl, ⟨rfl, ⟨io', hrun⟩, ?_, ?_⟩, hv⟩
      · rw [BootstrapRound.Sends, hrun]
        exact hbank0
      · rw [BootstrapRound.Sends, hrun]
        exact hbank1
  | eraseVerify =>
    obtain ⟨-, hverified⟩ := run_bootstrapHandleEraseVerify hrun
    exact ⟨_, rounds, rfl, rfl, hverified⟩
  | program => trivial

/-- A round in the third state comes after the erase and its verification. -/
theorem preceded_of_split {n : ℕ} {state : BootstrapState} {io : Io} {pre post : List BootstrapRound}
    {round : BootstrapRound} (h : bootstrapRounds hw n state io = pre ++ round :: post)
    (hround : round.state = .program) : Preceded hw state pre := by
  induction n generalizing state io pre with
  | zero => simp [bootstrapRounds] at h
  | succ n ih =>
    rw [bootstrapRounds] at h
    cases pre with
    | nil =>
      obtain ⟨rfl, -⟩ := List.cons.inj h
      change state = .program at hround
      rw [hround]
      trivial
    | cons first pre =>
      obtain ⟨rfl, hrest⟩ := List.cons.inj h
      cases hrun : (bootstrapHandle hw state).run io with
      | error trap io' => simp [hrun] at hrest
      | ok r io' =>
        obtain ⟨error, state'⟩ := r
        simp only [hrun] at hrest
        split_ifs at hrest with herror
        · simp at hrest
        · rw [not_not] at herror
          subst herror
          rw [← hrun]
          exact preceded_cons hrun (ih hrest)

theorem outcome_of_mem {n : ℕ} {state : BootstrapState} {io : Io} {round : BootstrapRound}
    (h : round ∈ bootstrapRounds hw n state io) :
    round.outcome = (bootstrapHandle hw round.state).run round.before := by
  induction n generalizing state io with
  | zero => simp [bootstrapRounds] at h
  | succ n ih =>
    rw [bootstrapRounds, List.mem_cons] at h
    obtain rfl | h := h
    · rfl
    · split at h
      · split_ifs at h with herror
        · simp at h
        · exact ih h
      · simp at h

theorem Io.Frame.of_sends {io io' : Io} (h : io.Frame hw A T io') {op : TransactionParams}
    (hop : io.Sends op io') : T op := by
  obtain ⟨new, hnew, hmem⟩ := hop
  obtain ⟨new', hnew', hT⟩ := h.dataOps
  rw [hnew, List.append_cancel_right_eq] at hnew'
  exact hT op (hnew' ▸ hmem)

/-- Only the third state programs or erases a sector. -/
theorem state_of_isPartial {n : ℕ} {state : BootstrapState} {io : Io} {round : BootstrapRound}
    (h : round ∈ bootstrapRounds hw n state io) {op : TransactionParams} (hop : round.Sends op)
    (hkind : op.IsPartial) : round.state = .program := by
  have houtcome := outcome_of_mem h
  rw [BootstrapRound.Sends, houtcome] at hop
  cases hstate : round.state with
  | erase =>
    rw [hstate] at hop
    have hframes : Frames hw (fun _ => True) (fun op => ¬ op.IsPartial) (bootstrapHandle hw .erase) :=
      frames_bootstrapHandleErase (fun _ _ => trivial) trivial fun addr => by
        simp [TransactionParams.IsPartial, bankErase]
    exact absurd hkind ((hframes.final _).of_sends hop)
  | eraseVerify =>
    rw [hstate] at hop
    have hframes : Frames hw (fun _ => True) (fun _ => False) (bootstrapHandle hw .eraseVerify) :=
      frames_bootstrapHandleEraseVerify trivial
    exact ((hframes.final _).of_sends hop).elim
  | program => rfl

/-- The rounds of a session keep what one round keeps. -/
theorem permsDisabled_of_mem (hregion : hw.Isolates kFlashCtrlDefaultRegion)
    (hbank : hw.Isolates kFlashCtrlMpBankCfgShadowed) {n : ℕ} {state : BootstrapState} {io : Io}
    (hdisabled : io.PermsDisabled hw) {round : BootstrapRound}
    (h : round ∈ bootstrapRounds hw n state io) {r : RomError × BootstrapState} {io' : Io}
    (hreturned : round.outcome = .ok r io') : io'.PermsDisabled hw := by
  induction n generalizing state io with
  | zero => simp [bootstrapRounds] at h
  | succ n ih =>
    have hstep := keepsPermsDisabled_bootstrapHandle hregion hbank state io hdisabled
    rw [bootstrapRounds, List.mem_cons] at h
    obtain rfl | h := h
    · simp only at hreturned
      rw [hreturned] at hstep
      exact hstep
    · split at h
      · next error state' io'' hrun =>
        rw [hrun] at hstep
        split_ifs at h with herror
        · simp at h
        · exact ih hstep h
      · simp at h

/-- In every session, whatever the host sends and whatever the flash controller
reports, a transaction that programs or that erases a sector comes after an erase of
both banks and its verification, and after every round that ends there is no access. -/
theorem bootstrap_safe (hw : Hw) (hregion : hw.Isolates kFlashCtrlDefaultRegion)
    (hbank : hw.Isolates kFlashCtrlMpBankCfgShadowed) (io : Io) (hdisabled : io.PermsDisabled hw)
    (n : ℕ) :
    (∀ pre round post op, bootstrapRounds hw n .erase io = pre ++ round :: post →
      round.Sends op → op.IsPartial → ∃ earlier e v later, pre = earlier ++ e :: v :: later ∧
        e.ErasesChip ∧ v.VerifiesErase hw) ∧
    ∀ round ∈ bootstrapRounds hw n .erase io, ∀ r io', round.outcome = .ok r io' →
      io'.PermsDisabled hw := by
  constructor
  · intro pre round post op hsplit hop hkind
    have hmem : round ∈ bootstrapRounds hw n .erase io := by
      rw [hsplit]
      exact List.mem_append_right _ List.mem_cons_self
    exact preceded_of_split hsplit (state_of_isPartial hmem hop hkind)
  · intro round hmem r io' hreturned
    exact permsDisabled_of_mem hregion hbank hdisabled hmem hreturned

/-- The flash controller out of reset. -/
def flashCtrlReset : Io :=
  { Io.powerOn with regs := fun a => if a = kFlashCtrlDefaultRegion then 0x999999 else 0 }

theorem bootstrap_safe_reset :
    (∀ pre round post op, bootstrapRounds Hw.plain 4 .erase flashCtrlReset = pre ++ round :: post →
      round.Sends op → op.IsPartial → ∃ earlier e v later, pre = earlier ++ e :: v :: later ∧
        e.ErasesChip ∧ v.VerifiesErase Hw.plain) ∧
    ∀ round ∈ bootstrapRounds Hw.plain 4 .erase flashCtrlReset, ∀ r io',
      round.outcome = .ok r io' → io'.PermsDisabled Hw.plain :=
  bootstrap_safe Hw.plain (fun _ _ _ h => Function.update_of_ne h.symm _ _)
    (fun _ _ _ h => Function.update_of_ne h.symm _ _) flashCtrlReset
    ⟨⟨by decide, by decide, by decide⟩, by unfold Io.BankErasePermsDisabled; decide⟩ 4

end SecureBoot
