import SecureBoot.Drivers.Frame
import SecureBoot.Drivers.Lifecycle
import SecureBoot.Base.Memory

/-! The flash controller: transactions on the data partition and on the information
pages, and the access permissions. A transaction takes effect when the controller
reports that it is done; which of its words take the effect is up to the hardware. -/

namespace SecureBoot

abbrev kFlashCtrlBase : Word := 0x41000000

abbrev kFlashCtrlControl : Word := kFlashCtrlBase + 0x20

abbrev kFlashCtrlAddr : Word := kFlashCtrlBase + 0x24

abbrev kFlashCtrlDefaultRegion : Word := kFlashCtrlBase + 0x90

abbrev kFlashCtrlBank0Info0PageCfg0 : Word := kFlashCtrlBase + 0xbc

abbrev kFlashCtrlBank1Info0PageCfg0 : Word := kFlashCtrlBase + 0x124

abbrev kFlashCtrlMpBankCfgShadowed : Word := kFlashCtrlBase + 0x16c

abbrev kFlashCtrlOpStatus : Word := kFlashCtrlBase + 0x170

abbrev kFlashCtrlProgFifo : Word := kFlashCtrlBase + 0x1b0

/-- `FLASH_CTRL_PARAM_BYTES_PER_PAGE`. -/
abbrev kFlashBytesPerPage : ℕ := 2048

/-- `FLASH_CTRL_PARAM_BYTES_PER_BANK`. -/
abbrev kFlashBytesPerBank : ℕ := 0x80000

/-- `FLASH_CTRL_PARAM_BYTES_PER_WORD`. -/
abbrev kFlashBytesPerWord : ℕ := 8

abbrev kFlashCtrlErasedWord : Word := wordMax

/-- `kWindowWordCount`: program operations cannot cross windows of this many words. -/
abbrev kWindowWordCount : ℕ := 16

def FlashCtrlOp.value : FlashCtrlOp → Word
  | .read => 0
  | .prog => 1
  | .erase => 2

/-- `flash_ctrl_partition_t`: bit 0 tells an information partition, the rest its type. -/
def FlashCtrlPartition.code : FlashCtrlPartition → Word
  | .data => 0
  | .info0 => 1

/-- `flash_ctrl_info_page_t`. -/
inductive FlashCtrlInfoPage where
  | factoryId | creatorSecret | ownerSecret | waferAuthSecret | bank0Type0Page4
  | bank0Type0Page5 | ownerReserved0 | ownerReserved1 | ownerReserved2 | ownerReserved3
  | bootData0 | bootData1 | ownerSlot0 | ownerSlot1 | bank1Type0Page4
  | bank1Type0Page5 | creatorCertificate | bootServices | ownerCertificate0 | ownerCertificate1
  deriving DecidableEq, Repr

/-- The bank and the page of `FLASH_CTRL_INFO_PAGES_DEFINE`. -/
def FlashCtrlInfoPage.location : FlashCtrlInfoPage → ℕ × ℕ
  | .factoryId => (0, 0)
  | .creatorSecret => (0, 1)
  | .ownerSecret => (0, 2)
  | .waferAuthSecret => (0, 3)
  | .bank0Type0Page4 => (0, 4)
  | .bank0Type0Page5 => (0, 5)
  | .ownerReserved0 => (0, 6)
  | .ownerReserved1 => (0, 7)
  | .ownerReserved2 => (0, 8)
  | .ownerReserved3 => (0, 9)
  | .bootData0 => (1, 0)
  | .bootData1 => (1, 1)
  | .ownerSlot0 => (1, 2)
  | .ownerSlot1 => (1, 3)
  | .bank1Type0Page4 => (1, 4)
  | .bank1Type0Page5 => (1, 5)
  | .creatorCertificate => (1, 6)
  | .bootServices => (1, 7)
  | .ownerCertificate0 => (1, 8)
  | .ownerCertificate1 => (1, 9)

/-- `info_page_addr`. -/
def infoPageAddr (page : FlashCtrlInfoPage) : Word :=
  .ofNat 32 (page.location.1 * kFlashBytesPerBank + page.location.2 * kFlashBytesPerPage)

/-- The configuration register of `info_cfg_regs`. -/
def infoCfgAddr (page : FlashCtrlInfoPage) : Word :=
  (if page.location.1 = 0 then kFlashCtrlBank0Info0PageCfg0 else kFlashCtrlBank1Info0PageCfg0) +
    .ofNat 32 (4 * page.location.2)

/-- `flash_ctrl_perms_t`. -/
structure FlashCtrlPerms where
  read : Word
  write : Word
  erase : Word

/-! ### Transactions -/

/-- The words that an erase covers: its page or its bank. -/
def TransactionParams.eraseRange (p : TransactionParams) : ℕ × ℕ :=
  match p.eraseType with
  | .page => (p.addr.toNat / kFlashBytesPerPage * kFlashBytesPerPage / 4, kFlashBytesPerPage / 4)
  | .bank => (p.addr.toNat / kFlashBytesPerBank * kFlashBytesPerBank / 4, kFlashBytesPerBank / 4)

/-- Flash is programmed by clearing bits and erased to ones. -/
def TransactionParams.effect (p : TransactionParams) (takes : ℕ → Bool) (fifo : List Word)
    (mem : ℕ → Word) : ℕ → Word := fun i =>
  match p.opType with
  | .read => mem i
  | .prog =>
    let first := p.addr.toNat / 4
    if first ≤ i ∧ i < first + fifo.length ∧ takes (i - first) then
      mem i &&& fifo.getD (i - first) wordMax
    else mem i
  | .erase =>
    let (first, n) := p.eraseRange
    if first ≤ i ∧ i < first + n ∧ takes (i - first) then kFlashCtrlErasedWord else mem i

def Io.startTransaction (io : Io) (p : TransactionParams) : Io :=
  { io with
    transaction := some p
    fifo := []
    dataOps := if p.partition = .data then p :: io.dataOps else io.dataOps }

/-- The effect of the transaction in progress, when it is done. -/
def Io.completeTransaction (hw : Hw) (io : Io) : Io :=
  match io.transaction with
  | some p =>
    { io with
      transaction := none
      fifo := []
      info := if p.partition = .info0 then p.effect (hw.takes io.now) io.fifo io.info
        else io.info }
  | none => io

/-- The `i`-th word that the read FIFO delivers. -/
def Io.readFifoWord (hw : Hw) (io : Io) (i : ℕ) : Word :=
  match io.transaction with
  | some p =>
    match p.partition with
    | .data => loadWord hw.flash (kEflashBaseAddr + .ofNat 32 (4 * (p.addr.toNat / 4 + i)))
    | .info0 => io.info (p.addr.toNat / 4 + i)
  | none => 0

variable (hw : Hw)

/-- `transaction_start`. -/
def transactionStart (params : TransactionParams) : Drv Unit := do
  absMmioWrite32 hw kFlashCtrlAddr params.addr
  let isInfo := bitfieldBit32Read params.partition.code 0
  let infoType := bitfieldField32Read params.partition.code ⟨0x3, 1⟩
  let bankErase := params.eraseType = .bank
  let reg := bitfieldBit32Write 0 0 true
  let reg := bitfieldField32Write reg ⟨0x3, 4⟩ params.opType.value
  let reg := bitfieldBit32Write reg 8 isInfo
  let reg := bitfieldField32Write reg ⟨0x3, 9⟩ infoType
  let reg := bitfieldBit32Write reg 7 bankErase
  let reg := bitfieldField32Write reg ⟨0xfff, 16⟩ (params.wordCount - 1)
  absMmioWrite32 hw kFlashCtrlControl reg
  modify fun io => io.startTransaction params

/-- `fifo_read`. -/
def fifoRead : (wordCount : ℕ) → Drv (Vector Word wordCount)
  | 0 => pure #v[]
  | wordCount + 1 => do
      let words ← fifoRead wordCount
      let io ← get
      pure (words.push (io.readFifoWord hw wordCount))

/-- `fifo_write`. -/
def fifoWrite : List Word → Drv Unit
  | [] => pure ()
  | word :: rest => do
      absMmioWrite32 hw kFlashCtrlProgFifo word
      modify fun io => { io with fifo := io.fifo ++ [word] }
      fifoWrite rest

/-- The end of a transaction, at which the power can fail. -/
def transactionDone : Drv Unit := do
  modify fun io => io.completeTransaction hw
  let io ← get
  if hw.powerLoss io.now then throw .powerLoss else pure ()

/-- `wait_for_done`. -/
def waitForDone (error : RomError) : Drv RomError := do
  let opStatus ← absMmioPoll32 hw kFlashCtrlOpStatus fun opStatus => bitfieldBit32Read opStatus 0
  transactionDone hw
  absMmioWrite32 hw kFlashCtrlOpStatus 0
  if bitfieldBit32Read opStatus 1 then pure error else pure kErrorOk

/-- The loop of `write`: each round programs the words up to the end of a window, so
that the number of words bounds the number of rounds. -/
def flashWriteFrom (partition : FlashCtrlPartition) (error : RomError) :
    (rounds : ℕ) → (addr : Word) → (windowWordCount : ℕ) → List Word → Drv RomError
  | 0, _, _, _ => pure kErrorOk
  | rounds + 1, addr, windowWordCount, data =>
    if data = [] then pure kErrorOk
    else
      let windowWordCount := min data.length windowWordCount
      returnIfError
        (do
          transactionStart hw ⟨addr, .prog, .page, partition, .ofNat 32 windowWordCount⟩
          fifoWrite hw (data.take windowWordCount)
          waitForDone hw error)
        (flashWriteFrom partition error rounds (addr + .ofNat 32 (4 * windowWordCount))
          kWindowWordCount (data.drop windowWordCount))

/-- `write`. -/
def flashWrite (addr : Word) (partition : FlashCtrlPartition) (data : List Word)
    (error : RomError) : Drv RomError :=
  flashWriteFrom hw partition error data.length addr
    (kWindowWordCount - addr.toNat / 4 % kWindowWordCount) data

/-- `flash_ctrl_info_read`. -/
def flashCtrlInfoRead (infoPage : FlashCtrlInfoPage) (offset : Word) (wordCount : ℕ) :
    Drv (RomError × Vector Word wordCount) := do
  transactionStart hw
    ⟨infoPageAddr infoPage + offset, .read, .page, .info0, .ofNat 32 wordCount⟩
  let data ← fifoRead hw wordCount
  let error ← waitForDone hw kErrorFlashCtrlInfoRead
  pure (error, data)

/-- `flash_ctrl_data_write`. -/
def flashCtrlDataWrite (addr : Word) (data : List Word) : Drv RomError :=
  flashWrite hw addr .data data kErrorFlashCtrlDataWrite

/-- `flash_ctrl_data_erase`. -/
def flashCtrlDataErase (addr : Word) (eraseType : FlashCtrlEraseType) : Drv RomError := do
  transactionStart hw ⟨addr, .erase, eraseType, .data, 1⟩
  waitForDone hw kErrorFlashCtrlDataErase

def FlashCtrlEraseType.byteCount : FlashCtrlEraseType → ℕ
  | .page => kFlashBytesPerPage
  | .bank => kFlashBytesPerBank

/-- The loop of `flash_ctrl_data_erase_verify` with `n` words left from `addr` on. -/
def eraseVerifyFrom : (n : ℕ) → (addr mask error : Word) → Drv (Word × Word)
  | 0, _, mask, error => pure (mask, error)
  | n + 1, addr, mask, error => do
      let word ← absMmioSample32 hw addr
      eraseVerifyFrom n (addr + 4) (mask &&& word) (error &&& word)

/-- `flash_ctrl_data_erase_verify`. -/
def flashCtrlDataEraseVerify (addr : Word) (eraseType : FlashCtrlEraseType) : Drv RomError := do
  let byteCount : Word := .ofNat 32 eraseType.byteCount
  let addr := addr &&& (~~~byteCount + 1)
  let (mask, error) ← eraseVerifyFrom hw (eraseType.byteCount / 4) (kEflashBaseAddr + addr)
    kFlashCtrlErasedWord (kErrorOk ^^^ (byteCount - 1))
  if mask = kFlashCtrlErasedWord then pure (error ^^^ (byteCount - 1))
  else pure kErrorFlashCtrlDataEraseVerify

/-! ### Permissions and configuration -/

/-- `flash_ctrl_data_default_perms_set`. -/
def flashCtrlDataDefaultPermsSet (perms : FlashCtrlPerms) : Drv Unit := do
  let reg ← secMmioRead32 hw kFlashCtrlDefaultRegion
  let reg := bitfieldField32Write reg ⟨0xf, 0⟩ perms.read
  let reg := bitfieldField32Write reg ⟨0xf, 4⟩ perms.write
  let reg := bitfieldField32Write reg ⟨0xf, 8⟩ perms.erase
  secMmioWrite32 hw kFlashCtrlDefaultRegion reg

/-- `flash_ctrl_info_perms_set`. -/
def flashCtrlInfoPermsSet (infoPage : FlashCtrlInfoPage) (perms : FlashCtrlPerms) :
    Drv Unit := do
  let reg ← secMmioRead32 hw (infoCfgAddr infoPage)
  let reg := bitfieldField32Write reg ⟨0xf, 0⟩ kMultiBitBool4True
  let reg := bitfieldField32Write reg ⟨0xf, 4⟩ perms.read
  let reg := bitfieldField32Write reg ⟨0xf, 8⟩ perms.write
  let reg := bitfieldField32Write reg ⟨0xf, 12⟩ perms.erase
  secMmioWrite32 hw (infoCfgAddr infoPage) reg

/-- `flash_ctrl_bank_erase_perms_set`. -/
def flashCtrlBankErasePermsSet (enable : Bool) : Drv Unit := do
  let reg := if enable then bitfieldBit32Write (bitfieldBit32Write 0 0 true) 1 true else 0
  secMmioWrite32Shadowed hw kFlashCtrlMpBankCfgShadowed reg

/-! ### What the flash controller leaves alone -/

/-- The registers of a transaction. -/
abbrev kFlashTransactionRegs : List Word :=
  [kFlashCtrlControl, kFlashCtrlAddr, kFlashCtrlOpStatus, kFlashCtrlProgFifo]

section

variable {hw : Hw} {A : Word → Prop} {T : TransactionParams → Prop}

theorem frames_transactionStart (hA : ∀ a ∈ kFlashTransactionRegs, A a) (p : TransactionParams)
    (hT : p.partition = .data → T p) : Frames hw A T (transactionStart hw p) := by
  refine .bind (frames_absMmioWrite32 _ (hA _ (by simp))) fun _ => ?_
  refine .bind (frames_absMmioWrite32 _ (hA _ (by simp))) fun _ => ?_
  refine .modify _ fun io => ⟨⟨[], rfl, by simp⟩, ?_, fun _ _ _ => rfl⟩
  by_cases hp : p.partition = .data
  · exact ⟨[p], if_pos hp, by simpa using hT hp⟩
  · exact ⟨[], if_neg hp, by simp⟩

theorem frames_fifoRead (wordCount : ℕ) : Frames hw A T (fifoRead hw wordCount) := by
  induction wordCount with
  | zero => exact .pure _
  | succ n ih => exact .bind ih fun _ => .bind .get fun _ => .pure _

theorem frames_fifoWrite (hA : ∀ a ∈ kFlashTransactionRegs, A a) (data : List Word) :
    Frames hw A T (fifoWrite hw data) := by
  induction data with
  | nil => exact .pure _
  | cons word rest ih =>
    refine .bind (frames_absMmioWrite32 _ (hA _ (by simp))) fun _ => ?_
    exact .bind (.modify _ fun _ => .of_eq rfl rfl rfl) fun _ => ih

theorem Io.frame_completeTransaction (io : Io) : io.Frame hw A T (io.completeTransaction hw) := by
  unfold Io.completeTransaction
  split <;> exact .of_eq rfl rfl rfl

theorem frames_waitForDone (hA : A kFlashCtrlOpStatus) (error : RomError) :
    Frames hw A T (waitForDone hw error) := by
  refine .bind (frames_absMmioPoll32 _ _) fun _ => .bind ?_ fun _ => ?_
  · refine .bind (.modify _ Io.frame_completeTransaction) fun _ => .bind .get fun io => ?_
    exact .ite _ (.throw _) (.pure _)
  · exact .bind (frames_absMmioWrite32 _ hA) fun _ => .ite _ (.pure _) (.pure _)

theorem frames_flashWriteFrom (hA : ∀ a ∈ kFlashTransactionRegs, A a)
    (partition : FlashCtrlPartition) (hT : partition = .data → ∀ p, p.opType = .prog → T p)
    (error : RomError) (rounds : ℕ) (addr : Word) (windowWordCount : ℕ) (data : List Word) :
    Frames hw A T (flashWriteFrom hw partition error rounds addr windowWordCount data) := by
  induction rounds generalizing addr windowWordCount data with
  | zero => exact .pure _
  | succ rounds ih =>
    refine .ite _ (.pure _) (frames_returnIfError ?_ (ih _ _ _))
    refine .bind (frames_transactionStart hA _ fun hp => hT hp _ rfl) fun _ => ?_
    exact .bind (frames_fifoWrite hA _) fun _ => frames_waitForDone (hA _ (by simp)) _

theorem frames_flashCtrlInfoRead (hA : ∀ a ∈ kFlashTransactionRegs, A a)
    (infoPage : FlashCtrlInfoPage) (offset : Word) (wordCount : ℕ) :
    Frames hw A T (flashCtrlInfoRead hw infoPage offset wordCount) := by
  refine .bind (frames_transactionStart hA _ nofun) fun _ => .bind (frames_fifoRead _) fun _ => ?_
  exact .bind (frames_waitForDone (hA _ (by simp)) _) fun _ => .pure _

theorem frames_flashCtrlDataWrite (hA : ∀ a ∈ kFlashTransactionRegs, A a)
    (hT : ∀ p, p.opType = .prog → T p) (addr : Word) (data : List Word) :
    Frames hw A T (flashCtrlDataWrite hw addr data) :=
  frames_flashWriteFrom hA _ (fun _ => hT) _ _ _ _ _

theorem frames_flashCtrlDataErase (hA : ∀ a ∈ kFlashTransactionRegs, A a) (addr : Word)
    (eraseType : FlashCtrlEraseType) (hT : T ⟨addr, .erase, eraseType, .data, 1⟩) :
    Frames hw A T (flashCtrlDataErase hw addr eraseType) :=
  .bind (frames_transactionStart hA _ fun _ => hT) fun _ => frames_waitForDone (hA _ (by simp)) _

theorem frames_eraseVerifyFrom (n : ℕ) (addr mask error : Word) :
    Frames hw A T (eraseVerifyFrom hw n addr mask error) := by
  induction n generalizing addr mask error with
  | zero => exact .pure _
  | succ n ih => exact .bind (frames_absMmioSample32 _) fun _ => ih _ _ _

-- A bank has 131072 words: unification must not run the loop.
attribute [irreducible] eraseVerifyFrom

theorem frames_flashCtrlDataEraseVerify (addr : Word) (eraseType : FlashCtrlEraseType) :
    Frames hw A T (flashCtrlDataEraseVerify hw addr eraseType) :=
  .bind (frames_eraseVerifyFrom _ _ _ _) fun _ => .ite _ (.pure _) (.pure _)

theorem frames_flashCtrlDataDefaultPermsSet (hA : A kFlashCtrlDefaultRegion)
    (perms : FlashCtrlPerms) : Frames hw A T (flashCtrlDataDefaultPermsSet hw perms) :=
  .bind (frames_secMmioRead32 _) fun _ => frames_secMmioWrite32 _ hA

theorem frames_flashCtrlInfoPermsSet {infoPage : FlashCtrlInfoPage} (hA : A (infoCfgAddr infoPage))
    (perms : FlashCtrlPerms) : Frames hw A T (flashCtrlInfoPermsSet hw infoPage perms) :=
  .bind (frames_secMmioRead32 _) fun _ => frames_secMmioWrite32 _ hA

theorem frames_flashCtrlBankErasePermsSet (hA : A kFlashCtrlMpBankCfgShadowed) (enable : Bool) :
    Frames hw A T (flashCtrlBankErasePermsSet hw enable) :=
  frames_secMmioWrite32Shadowed _ hA

end

/-! ### Permissions -/

/-- The fields of the default region that give access. -/
abbrev kFlashCtrlDefaultRegionRdEn : BitfieldField32 := ⟨0xf, 0⟩

abbrev kFlashCtrlDefaultRegionProgEn : BitfieldField32 := ⟨0xf, 4⟩

abbrev kFlashCtrlDefaultRegionEraseEn : BitfieldField32 := ⟨0xf, 8⟩

/-- No access to data pages by default. -/
structure Io.DataPermsDisabled (hw : Hw) (io : Io) : Prop where
  read : bitfieldField32Read (io.read hw kFlashCtrlDefaultRegion) kFlashCtrlDefaultRegionRdEn =
    kMultiBitBool4False
  prog : bitfieldField32Read (io.read hw kFlashCtrlDefaultRegion) kFlashCtrlDefaultRegionProgEn =
    kMultiBitBool4False
  erase : bitfieldField32Read (io.read hw kFlashCtrlDefaultRegion) kFlashCtrlDefaultRegionEraseEn =
    kMultiBitBool4False

/-- No permission to erase a bank. -/
def Io.BankErasePermsDisabled (hw : Hw) (io : Io) : Prop :=
  io.read hw kFlashCtrlMpBankCfgShadowed = 0

section

variable {hw : Hw}

theorem dataPermsDisabled_flashCtrlDataDefaultPermsSet :
    Hoare.Triple (fun _ => True) (flashCtrlDataDefaultPermsSet hw
        ⟨kMultiBitBool4False, kMultiBitBool4False, kMultiBitBool4False⟩)
      (fun _ io => io.DataPermsDisabled hw) (fun _ _ => True) := by
  refine .bind .top fun reg => ?_
  refine (read_secMmioWrite32 _ _).conseq (fun _ h => h) (fun _ io h => ?_) fun _ _ h => h
  constructor
  · rw [h, bitfieldField32Read_write_of_disjoint _ _ (by decide),
      bitfieldField32Read_write_of_disjoint _ _ (by decide),
      bitfieldField32Read_write_self _ _ (by decide)]
    rfl
  · rw [h, bitfieldField32Read_write_of_disjoint _ _ (by decide),
      bitfieldField32Read_write_self _ _ (by decide)]
    rfl
  · rw [h, bitfieldField32Read_write_self _ _ (by decide)]
    rfl

theorem bankErasePermsDisabled_flashCtrlBankErasePermsSet :
    Hoare.Triple (fun _ => True) (flashCtrlBankErasePermsSet hw false)
      (fun _ io => io.BankErasePermsDisabled hw) (fun _ _ => True) :=
  read_secMmioWrite32Shadowed _ _

end

end SecureBoot
