import SecureBoot.BootData.ActivePageRun

/-! The search of the boot data pages reads nothing outside them, and takes back the permissions
that it gives. -/

namespace SecureBoot

open Trace

/-- A transaction that reads words of an information page. -/
structure FlashTransaction.ReadsPage (t : FlashTransaction) (page : FlashCtrlInfoPage) : Prop where
  start : bitfieldBit32Read t.control 0 = true
  op : bitfieldField32Read t.control ⟨0x3, 4⟩ = FlashCtrlOp.read.value
  info : bitfieldBit32Read t.control 8 = true
  noWords : t.words = []
  lower : (infoPageAddr page).toNat ≤ t.addr.toNat
  upper : t.addr.toNat + 4 * ((bitfieldField32Read t.control ⟨0xfff, 16⟩).toNat + 1) ≤
    (infoPageAddr page).toNat + kFlashBytesPerPage

/-- A value of a page configuration that gives no access. -/
structure NoAccess (cfg : Word) : Prop where
  read : bitfieldField32Read cfg ⟨0xf, 4⟩ = kMultiBitBool4False
  prog : bitfieldField32Read cfg ⟨0xf, 8⟩ = kMultiBitBool4False
  erase : bitfieldField32Read cfg ⟨0xf, 12⟩ = kMultiBitBool4False

/-! ### What the search leaves alone -/

/-- The registers of the HMAC block. -/
abbrev kHmacRegs : List Word := [kHmacCfg, kHmacIntrEnable, kHmacIntrState, kHmacCmd, kHmacMsgFifo]

/-- The registers that a search of a page writes. -/
abbrev kBootDataScanRegs : List Word := kFlashTransactionRegs ++ kHmacRegs

section Frames

variable {hw : Hw} {T : TransactionParams → Prop}

theorem frames_hmacUpdateBytes (data : List Byte) :
    Frames hw (· ∈ kHmacRegs) T (hmacUpdateBytes hw data) := by
  induction data with
  | nil => exact .pure _
  | cons b rest ih =>
    exact .bind (.bind (frames_absMmioWrite32 _ (by decide)) fun _ =>
      .modify _ fun _ => .of_eq rfl rfl rfl) fun _ => ih

theorem frames_hmacUpdateWords (data : List Byte) :
    Frames hw (· ∈ kHmacRegs) T (hmacUpdateWords hw data) := by
  induction data using hmacUpdateWords.induct with
  | case1 b₀ b₁ b₂ b₃ rest ih =>
    exact .bind (.bind (frames_absMmioWrite32 _ (by decide)) fun _ =>
      .modify _ fun _ => .of_eq rfl rfl rfl) fun _ => ih
  | case2 rest hshort =>
    rw [hmacUpdateWords]
    · exact frames_hmacUpdateBytes rest
    · exact hshort

theorem frames_bootDataCheckAt (addr : Word) (entry : BootData) :
    Frames hw (· ∈ kHmacRegs) T (bootDataCheckAt hw addr entry) := by
  have hwrite : ∀ (reg value : Word), reg ∈ kHmacRegs →
      Frames hw (· ∈ kHmacRegs) T (absMmioWrite32 hw reg value) :=
    fun _ value h => frames_absMmioWrite32 value h
  refine .bind ?_ fun _ => .bind ?_ fun _ => .bind ?_ fun _ => .pure _
  · exact .bind (hwrite _ _ (by decide)) fun _ => .bind (hwrite _ _ (by decide)) fun _ =>
      .bind (hwrite _ _ (by decide)) fun _ => .bind (hwrite _ _ (by decide)) fun _ =>
        .bind (hwrite _ _ (by decide)) fun _ => .modify _ fun _ => .of_eq rfl rfl rfl
  · exact .bind (frames_hmacUpdateBytes _) fun _ => frames_hmacUpdateWords _
  · exact .bind (hwrite _ _ (by decide)) fun _ => .bind (frames_absMmioPoll32 _ _) fun _ =>
      .bind (hwrite _ _ (by decide)) fun _ => .bind .get fun _ => .pure _

theorem frames_scanRegs {α : Type} {x : Drv α} (h : Frames hw (· ∈ kHmacRegs) T x) :
    Frames hw (· ∈ kBootDataScanRegs) T x := by
  refine h.mono fun s t hframe => ⟨?_, hframe.dataOps, fun a hi ha => hframe.regs a hi ?_⟩
  · obtain ⟨new, hbus, hnew⟩ := hframe.bus
    exact ⟨new, hbus, fun w hw' => List.mem_append_right _ (hnew w hw')⟩
  · exact fun h' => ha (List.mem_append_right _ h')

theorem frames_bootDataSniff (page : FlashCtrlInfoPage) (index : ℕ) :
    Frames hw (· ∈ kBootDataScanRegs) T (bootDataSniff hw page index) :=
  .bind (frames_flashCtrlInfoRead (fun _ h => List.mem_append_left _ h) _ _ _) fun _ => .pure _

theorem frames_bootDataEntryRead (page : FlashCtrlInfoPage) (index : ℕ) :
    Frames hw (· ∈ kBootDataScanRegs) T (bootDataEntryRead hw page index) :=
  frames_flashCtrlInfoRead (fun _ h => List.mem_append_left _ h) _ _ _

theorem frames_bootDataFirstEmptyFrom (page : FlashCtrlInfoPage) (n i : ℕ)
    (h : n + i = kBootDataEntriesPerPage) (sniffResults : Vector Word kBootDataEntriesPerPage) :
    Frames hw (· ∈ kBootDataScanRegs) T (bootDataFirstEmptyFrom hw page n i h sniffResults) := by
  induction n generalizing i sniffResults with
  | zero => exact .pure _
  | succ n ih =>
    refine .bind (frames_bootDataSniff _ _) fun r => .ite _ (.pure _) (.ite _ ?_ (ih _ _ _))
    refine .bind (frames_bootDataEntryRead _ _) fun r => .ite _ (.pure _) (.ite _ (.pure _) ?_)
    exact .bind (frames_hardenedCheck _ _) fun _ => ih _ _ _

theorem frames_bootDataLastValidFrom (page : FlashCtrlInfoPage) (found : FirstEmpty) (buf : Word)
    (rounds : ℕ) (i : Word) :
    Frames hw (· ∈ kBootDataScanRegs) T (bootDataLastValidFrom hw page found buf rounds i) := by
  induction rounds generalizing i with
  | zero => exact .pure _
  | succ rounds ih =>
    rw [bootDataLastValidFrom]
    split_ifs
    · refine .bind (frames_bootDataEntryRead _ _) fun r => .ite _ (.pure _) ?_
      exact .bind (frames_scanRegs (frames_bootDataCheckAt _ _)) fun _ => .ite _ (.pure _)
        (.bind (frames_hardenedCheck _ _) fun _ => ih _)
    · exact ih _
    · exact .pure _

theorem frames_bootDataPageInfoSelect (page : FlashCtrlInfoPage) (found : FirstEmpty) (i : Word)
    (entry : BootData) (pageInfo : ActivePageInfo) (bootData : BootData) :
    Frames hw (· ∈ kBootDataScanRegs) T
      (bootDataPageInfoSelect page found i entry pageInfo bootData) :=
  .ite _ (.pure _) (.ite _ (.pure _) (.bind (frames_hardenedCheck _ _) fun _ =>
    .bind (frames_hardenedCheck _ _) fun _ => .pure _))

theorem frames_bootDataPageInfoUpdateImpl (page : FlashCtrlInfoPage) (buf : Word)
    (sniffResults : Vector Word kBootDataEntriesPerPage) (pageInfo : ActivePageInfo)
    (bootData : BootData) : Frames hw (· ∈ kBootDataScanRegs) T
      (bootDataPageInfoUpdateImpl hw page buf sniffResults pageInfo bootData) := by
  refine .bind (frames_bootDataFirstEmptyFrom _ _ _ _ _) ?_
  rintro (error | found)
  · exact .pure _
  refine .bind (frames_bootDataLastValidFrom _ _ _ _ _) ?_
  rintro (error | _ | ⟨i, entry⟩)
  · exact .pure _
  · exact .pure _
  · exact frames_bootDataPageInfoSelect _ _ _ _ _ _

end Frames

/-! ### The reads -/

/-- Reads of the boot data pages and nothing else. -/
def ReadsPages (t : List (Word × Word)) : Prop :=
  ∃ ts : List FlashTransaction, t = ts.flatMap FlashTransaction.accesses ∧
    ∀ x ∈ ts, ∃ page ∈ kPages, x.ReadsPage page

theorem ReadsPages.nil : ReadsPages [] := ⟨[], rfl, fun _ h => absurd h List.not_mem_nil⟩

theorem ReadsPages.append {t t' : List (Word × Word)} (h : ReadsPages t) (h' : ReadsPages t') :
    ReadsPages (t ++ t') := by
  obtain ⟨ts, rfl, hts⟩ := h
  obtain ⟨us, rfl, hus⟩ := h'
  exact ⟨ts ++ us, List.flatMap_append.symm, List.forall_mem_append.2 ⟨hts, hus⟩⟩

/-- A program that reads the boot data pages and nothing else of the flash. -/
def ReadsOnly {α : Type} (x : Drv α) : Prop :=
  Traces Io.bus flashKeep x (fun _ => ReadsPages) ReadsPages

section Reads

variable {hw : Hw}

theorem ReadsOnly.bind {α β : Type} {x : Drv α} {f : α → Drv β} (hx : ReadsOnly x)
    (hf : ∀ a, ReadsOnly (f a)) : ReadsOnly (x >>= f) :=
  Traces.bind hx fun a _ ht => (hf a).mono (fun _ _ ht' => ht.append ht') fun _ ht' => ht.append ht'

theorem ReadsOnly.pure {α : Type} (a : α) : ReadsOnly (pure a : Drv α) := Traces.pure .nil

theorem ReadsOnly.ite {α : Type} (c : Prop) [Decidable c] {x y : Drv α} (hx : ReadsOnly x)
    (hy : ReadsOnly y) : ReadsOnly (if c then x else y) := Traces.ite c (fun _ => hx) fun _ => hy

theorem ReadsOnly.check (c : Prop) [Decidable c] (trap : Trap) :
    ReadsOnly (hardenedCheck c trap) := .ite c (.pure _) (Traces.throw _ .nil)

theorem ReadsOnly.of_frames {α : Type} {x : Drv α} {A : Word → Prop}
    (h : Frames hw A (fun _ => True) x) (hA : ∀ a, A a → a ∉ kFlashStartRegs) : ReadsOnly x :=
  traces_of_frames hw h hA (fun _ => .nil) .nil

/-- The control word of a read of `n` words. -/
theorem transactionControl_read : ∀ n ∈ [3, kBootDataNumWords],
    let control := transactionControl .read .page .info0 (.ofNat 32 n)
    bitfieldBit32Read control 0 = true ∧
      bitfieldField32Read control ⟨0x3, 4⟩ = FlashCtrlOp.read.value ∧
      bitfieldBit32Read control 8 = true ∧
      (bitfieldField32Read control ⟨0xfff, 16⟩).toNat + 1 = n := by
  decide

theorem readsOnly_flashCtrlInfoRead {page : FlashCtrlInfoPage} (hpage : page ∈ kPages)
    {offset n : ℕ} (hn : n ∈ [3, kBootDataNumWords]) (hin : offset + 4 * n ≤ kFlashBytesPerPage) :
    ReadsOnly (flashCtrlInfoRead hw page (.ofNat 32 offset) n) := by
  obtain ⟨hstart, hop, hinfo, hnum⟩ := transactionControl_read n hn
  simp only [kFlashBytesPerPage] at hin
  have haddr := (toNat_infoPageAddr_add page (show offset < 2 ^ 20 by omega)).1
  have hreads : ReadsPages [(kFlashCtrlAddr, infoPageAddr page + .ofNat 32 offset),
      (kFlashCtrlControl, transactionControl .read .page .info0 (.ofNat 32 n))] := by
    refine ⟨[⟨infoPageAddr page + .ofNat 32 offset, transactionControl .read .page .info0
      (.ofNat 32 n), []⟩], rfl, fun x hx => ⟨page, hpage, ?_⟩⟩
    rw [List.mem_singleton.1 hx]
    refine ⟨hstart, hop, hinfo, rfl, haddr ▸ Nat.le_add_right _ _, ?_⟩
    simp only [haddr, hnum, kFlashBytesPerPage]
    omega
  have hwait : ReadsOnly (waitForDone hw kErrorFlashCtrlInfoRead) :=
    .of_frames (frames_waitForDone (A := (· = kFlashCtrlOpStatus)) rfl _) fun _ ha => ha ▸ by decide
  have hfifo : ReadsOnly (fifoRead hw n) :=
    .of_frames (@frames_fifoRead hw (fun _ => False) _ n) fun _ ha => ha.elim
  refine ReadsOnly.bind ?_ fun _ => hfifo.bind fun _ => hwait.bind fun _ => .pure _
  exact (traces_transactionStart hw _).mono (fun _ t ht => ht ▸ hreads) fun _ h => h

theorem readsOnly_bootDataSniff {page : FlashCtrlInfoPage} (hpage : page ∈ kPages) {index : ℕ}
    (hindex : index < kBootDataEntriesPerPage) : ReadsOnly (bootDataSniff hw page index) := by
  refine (readsOnly_flashCtrlInfoRead hpage (by decide) ?_).bind fun _ => .pure _
  simp only [kBootDataEntriesPerPage, kBootDataSize, kIsValidOffset, kFlashBytesPerPage] at hindex ⊢
  omega

theorem readsOnly_bootDataEntryRead {page : FlashCtrlInfoPage} (hpage : page ∈ kPages) {index : ℕ}
    (hindex : index < kBootDataEntriesPerPage) : ReadsOnly (bootDataEntryRead hw page index) := by
  refine readsOnly_flashCtrlInfoRead hpage (by decide) ?_
  simp only [kBootDataEntriesPerPage, kBootDataSize, kBootDataNumWords, kFlashBytesPerPage]
    at hindex ⊢
  omega

theorem readsOnly_bootDataCheckAt (addr : Word) (entry : BootData) :
    ReadsOnly (bootDataCheckAt hw addr entry) := by
  have hregs : (kHmacRegs.all fun a => decide (a ∉ kFlashStartRegs)) = true := by decide
  exact .of_frames (frames_bootDataCheckAt addr entry) fun a ha =>
    of_decide_eq_true (List.all_eq_true.1 hregs a ha)

theorem readsOnly_bootDataFirstEmptyFrom {page : FlashCtrlInfoPage} (hpage : page ∈ kPages)
    (n i : ℕ) (h : n + i = kBootDataEntriesPerPage)
    (sniffResults : Vector Word kBootDataEntriesPerPage) :
    ReadsOnly (bootDataFirstEmptyFrom hw page n i h sniffResults) := by
  induction n generalizing i sniffResults with
  | zero => exact .pure _
  | succ n ih =>
    have hi : i < kBootDataEntriesPerPage := by omega
    refine (readsOnly_bootDataSniff hpage hi).bind fun r => .ite _ (.pure _) (.ite _ ?_ (ih _ _ _))
    refine (readsOnly_bootDataEntryRead hpage hi).bind fun r =>
      .ite _ (.pure _) (.ite _ (.pure _) ?_)
    exact (ReadsOnly.check _ _).bind fun _ => ih _ _ _

theorem readsOnly_bootDataLastValidFrom {page : FlashCtrlInfoPage} (hpage : page ∈ kPages)
    (found : FirstEmpty) (buf : Word) (rounds : ℕ) (i : Word) :
    ReadsOnly (bootDataLastValidFrom hw page found buf rounds i) := by
  induction rounds generalizing i with
  | zero => exact .pure _
  | succ rounds ih =>
    rw [bootDataLastValidFrom]
    split_ifs with hin
    · have hi := Nat.lt_of_lt_of_le hin (Nat.le_of_lt_succ found.index.isLt)
      refine (readsOnly_bootDataEntryRead hpage hi).bind fun r => .ite _ (.pure _) ?_
      exact (readsOnly_bootDataCheckAt _ _).bind fun _ => .ite _ (.pure _)
        ((ReadsOnly.check _ _).bind fun _ => ih _)
    · exact ih _
    · exact .pure _

theorem readsOnly_bootDataPageInfoUpdate {page : FlashCtrlInfoPage} (hpage : page ∈ kPages)
    (buf : Word) (sniffResults : Vector Word kBootDataEntriesPerPage) (pageInfo : ActivePageInfo)
    (bootData : BootData) :
    ReadsOnly (bootDataPageInfoUpdate hw page buf sniffResults pageInfo bootData) := by
  have hperms : ∀ perms, ReadsOnly (flashCtrlInfoPermsSet hw page perms) := fun perms =>
    .of_frames (frames_flashCtrlInfoPermsSet (A := (· = infoCfgAddr page)) rfl perms) fun _ ha =>
      ha ▸ by cases page <;> decide
  refine (hperms _).bind fun _ => ReadsOnly.bind ?_ fun _ => (hperms _).bind fun _ =>
    ReadsOnly.bind (Traces.modify (fun _ => .refl rfl) .nil) fun _ => .pure _
  refine (readsOnly_bootDataFirstEmptyFrom hpage _ _ _ _).bind ?_
  rintro (error | found)
  · exact .pure _
  refine (readsOnly_bootDataLastValidFrom hpage _ _ _ _).bind ?_
  rintro (error | _ | ⟨i, entry⟩)
  · exact .pure _
  · exact .pure _
  · exact .ite _ (.pure _) (.ite _ (.pure _) ((ReadsOnly.check _ _).bind fun _ =>
      (ReadsOnly.check _ _).bind fun _ => .pure _))

theorem readsOnly_bootDataActivePageFindFrom (hw : Hw) (buf : Word)
    (sniffResults : Vector Word kBootDataEntriesPerPage) {pages : List FlashCtrlInfoPage}
    (hpages : ∀ page ∈ pages, page ∈ kPages) (pageInfo : ActivePageInfo) (bootData : BootData) :
    ReadsOnly (bootDataActivePageFindFrom hw buf sniffResults pages pageInfo bootData) := by
  induction pages generalizing pageInfo bootData with
  | nil => exact .pure _
  | cons page rest ih =>
    obtain ⟨hpage, hrest⟩ := List.forall_mem_cons.1 hpages
    exact (readsOnly_bootDataPageInfoUpdate hpage _ _ _ _).bind fun r =>
      .ite _ (ih hrest _ _) (.pure _)

end Reads

/-! ### The permissions -/

/-- The last write to a page configuration gives no access. -/
def EndsNoAccess (t : List (Word × Word)) : Prop := ∀ w, t.getLast? = some w → NoAccess w.2

theorem EndsNoAccess.append {t t' : List (Word × Word)} (h : EndsNoAccess t)
    (h' : EndsNoAccess t') : EndsNoAccess (t ++ t') := by
  intro w hw
  rw [List.getLast?_append] at hw
  cases hlast : t'.getLast? with
  | none =>
    rw [hlast] at hw
    exact h w hw
  | some w' =>
    rw [hlast] at hw
    exact Option.some.inj hw ▸ h' w' hlast

section Perms

variable {hw : Hw} (page other : FlashCtrlInfoPage)

/-- The writes to the configuration of a page. -/
def cfgKeep (w : Word × Word) : Bool := w.1 = infoCfgAddr page

/-- The value that takes the access away. -/
theorem noAccess_write (reg : Word) :
    NoAccess (bitfieldField32Write (bitfieldField32Write (bitfieldField32Write
      (bitfieldField32Write reg ⟨0xf, 0⟩ kMultiBitBool4True) ⟨0xf, 4⟩ kMultiBitBool4False)
      ⟨0xf, 8⟩ kMultiBitBool4False) ⟨0xf, 12⟩ kMultiBitBool4False) := by
  constructor
  · rw [bitfieldField32Read_write_of_disjoint _ _ (by decide),
      bitfieldField32Read_write_of_disjoint _ _ (by decide),
      bitfieldField32Read_write_self _ _ (by decide)]
    rfl
  · rw [bitfieldField32Read_write_of_disjoint _ _ (by decide),
      bitfieldField32Read_write_self _ _ (by decide)]
    rfl
  · rw [bitfieldField32Read_write_self _ _ (by decide)]
    rfl

theorem traces_silent_cfg {α : Type} {x : Drv α} {A : Word → Prop}
    (h : Frames hw A (fun _ => True) x) (hA : ¬A (infoCfgAddr page)) :
    Traces Io.bus (cfgKeep page) x (fun _ t => t = []) fun _ => True := by
  refine .silent (fun io => ?_) (fun _ => rfl) trivial
  obtain ⟨new, hbus, hnew⟩ := (h.final io).bus
  exact ⟨new, hbus, kept_of_forall fun w hw => decide_eq_false fun heq => hA (heq ▸ hnew w hw)⟩

/-- Writes to one configuration: of this page they are kept, of another page they are not. -/
theorem traces_flashCtrlInfoPermsSet (perms : FlashCtrlPerms) :
    Traces Io.bus (cfgKeep page) (flashCtrlInfoPermsSet hw other perms)
      (fun _ t => if infoCfgAddr other = infoCfgAddr page then
        ∃ reg, t = [(infoCfgAddr other, bitfieldField32Write (bitfieldField32Write
          (bitfieldField32Write (bitfieldField32Write reg ⟨0xf, 0⟩ kMultiBitBool4True)
          ⟨0xf, 4⟩ perms.read) ⟨0xf, 8⟩ perms.write) ⟨0xf, 12⟩ perms.erase)] else t = [])
      fun _ => True := by
  have hread : Traces Io.bus (cfgKeep page) (secMmioRead32 hw (infoCfgAddr other))
      (fun _ t => t = []) fun _ => True :=
    traces_silent_cfg page (A := fun _ => False) (frames_secMmioRead32 _) id
  have hrecord : ∀ value, Traces Io.bus (cfgKeep page)
      (secMmioRecordWrite hw (infoCfgAddr other) value) (fun _ t => t = []) fun _ => True :=
    fun value => traces_silent_cfg page (A := fun _ => False) (frames_secMmioRecordWrite _ _) id
  have hwrite : ∀ value, Traces Io.bus (cfgKeep page) (absMmioWrite32 hw (infoCfgAddr other) value)
      (fun _ t => t = if infoCfgAddr other = infoCfgAddr page then [(infoCfgAddr other, value)]
        else []) fun _ => True := by
    refine fun value => .modify (fun _ => ⟨[(infoCfgAddr other, value)], rfl, ?_⟩) rfl
    split_ifs with h
    · have hkeep : cfgKeep page (infoCfgAddr other, value) = true := decide_eq_true h
      rw [kept, List.filter_cons_of_pos hkeep]
      rfl
    · refine kept_of_forall fun w hw => decide_eq_false ?_
      rw [List.mem_singleton.1 hw]
      exact h
  refine hread.bind fun reg t ht => (hwrite _).bind fun _ t' ht' =>
    (hrecord _).mono (fun _ t'' ht'' => ?_) fun _ _ => trivial
  rw [ht, ht', ht'', List.append_nil, List.nil_append]
  split_ifs
  · exact ⟨reg, rfl⟩
  · rfl

theorem traces_bootDataPageInfoUpdate (hout : infoCfgAddr page ∉ kBootDataScanRegs) (buf : Word)
    (sniffResults : Vector Word kBootDataEntriesPerPage) (pageInfo : ActivePageInfo)
    (bootData : BootData) :
    Traces Io.bus (cfgKeep page)
      (bootDataPageInfoUpdate hw other buf sniffResults pageInfo bootData)
      (fun _ => EndsNoAccess) fun _ => True := by
  refine (traces_flashCtrlInfoPermsSet page other _).bind fun _ t ht =>
    (traces_silent_cfg page (frames_bootDataPageInfoUpdateImpl other buf sniffResults pageInfo
      bootData) hout).bind fun _ t' ht' => (traces_flashCtrlInfoPermsSet page other _).bind
        fun _ t'' ht'' => Traces.bind (Q := fun _ t => t = []) (.modify (fun _ => .refl rfl) rfl)
          fun _ u hu => .pure ?_
  rw [ht', hu]
  split_ifs at ht ht''
  · obtain ⟨reg, rfl⟩ := ht''
    intro w hw
    simp only [List.append_nil, List.nil_append, List.getLast?_append, List.getLast?_singleton,
      Option.some_or, Option.some.injEq] at hw
    rw [← hw]
    exact noAccess_write reg
  · rw [ht, ht'']
    exact fun w hw => absurd hw (by simp)

theorem traces_bootDataActivePageFindFrom (hw : Hw) (hout : infoCfgAddr page ∉ kBootDataScanRegs)
    (buf : Word) (sniffResults : Vector Word kBootDataEntriesPerPage)
    (pages : List FlashCtrlInfoPage) (pageInfo : ActivePageInfo) (bootData : BootData) :
    Traces Io.bus (cfgKeep page)
      (bootDataActivePageFindFrom hw buf sniffResults pages pageInfo bootData)
      (fun _ => EndsNoAccess) fun _ => True := by
  induction pages generalizing pageInfo bootData with
  | nil => exact .pure fun w hw => absurd hw (by simp)
  | cons other rest ih =>
    refine (traces_bootDataPageInfoUpdate page other hout buf sniffResults pageInfo
      bootData).bind fun r t ht => .ite _ (fun _ => (ih _ _).mono (fun _ _ => ht.append)
        fun _ _ => trivial) fun _ => .pure ?_
    rw [List.append_nil]
    exact ht

end Perms

/-! ### The search -/

theorem FindsActive.not_ties {entryAt : FlashCtrlInfoPage → ℕ → BootData}
    {summary : FlashCtrlInfoPage → PageSummary} {bootData : BootData}
    {r : ActivePageInfo × BootData} (h : FindsActive entryAt summary kPages bootData r) :
    ¬Ties entryAt summary := by
  rintro ⟨page, hpage, other, hother, hne, i, j, hi, hj, heq⟩
  rcases h with ⟨hnone, -⟩ | ⟨active, hactive, k, hk, -, hnewest⟩
  · exact absurd (hi.symm.trans (hnone page hpage)) (by simp)
  have hcases : page = active ∨ other = active := by
    rcases List.mem_pair.1 hpage with rfl | rfl <;> rcases List.mem_pair.1 hother with rfl | rfl <;>
      rcases List.mem_pair.1 hactive with rfl | rfl <;> simp_all
  rcases hcases with rfl | rfl
  · have hlt := hnewest other hother hne.symm j hj
    rw [← Option.some.inj (hi.symm.trans hk), heq] at hlt
    exact BitVec.lt_irrefl _ hlt
  · have hlt := hnewest page hpage hne i hi
    rw [← Option.some.inj (hj.symm.trans hk), heq] at hlt
    exact BitVec.lt_irrefl _ hlt

theorem outcome_bootDataActivePageFind {hw : Hw} {summary : FlashCtrlInfoPage → PageSummary}
    {io : Io} (hholds : PagesHold hw.sha256 io.info summary) (buf : Word)
    (sniffResults : Vector Word kBootDataEntriesPerPage) (bootData : BootData) :
    let works := hw.BootDataWorks ∧ io.secMmio.HasRoom kBootDataCfgs
    Hoare.Outcome
      (fun r io' => FindsOrFails works (entryOf io.info) summary kPages bootData r ∧
        ScanState works io.info io')
      (fun trap _ => Stops works (Ties (entryOf io.info) summary) trap)
      ((bootDataActivePageFind hw buf sniffResults bootData).run io) :=
  scans_bootDataActivePageFindFrom (fun h => h.1) hholds buf sniffResults (List.nil_append _)
    (.inl ⟨fun _ h => absurd h List.not_mem_nil, rfl⟩) io ⟨rfl, fun h => h.2⟩

/-- `boot_data_active_page_find` on arbitrary flash. It finds the page whose last valid entry before
the first empty one has the greatest counter, or no page; a failed `HARDENED_CHECK` means that the
counters of both pages are equal, and an error or another trap that the hardware does not work. It
reads the boot data pages and nothing else, and a return leaves no page with a permission. -/
theorem boot_data_active_page_find_spec (hw : Hw) (buf : Word)
    (sniffResults : Vector Word kBootDataEntriesPerPage) (bootData : BootData) (io : Io) :
    ∃ summary, PagesHold hw.sha256 io.info summary ∧
      let run := (bootDataActivePageFind hw buf sniffResults bootData).run io
      let works := hw.BootDataWorks ∧ io.secMmio.HasRoom kBootDataCfgs
      Hoare.Outcome
        (fun r io' => io'.info = io.info ∧
          ((r.1 = kErrorOk ∧ FindsActive (entryOf io.info) summary kPages bootData r.2 ∧
            ¬Ties (entryOf io.info) summary) ∨ (¬works ∧ r.1 = kErrorFlashCtrlInfoRead)))
        (fun trap _ => Stops works (Ties (entryOf io.info) summary) trap) run ∧
      (∃ ts, FlashTraced io (Hoare.final run) ts ∧ ∀ t ∈ ts, ∃ page ∈ kPages, t.ReadsPage page) ∧
      ∀ r io', run = .ok r io' →
        ∃ new, io'.bus = new ++ io.bus ∧ ∀ page, EndsNoAccess (kept (cfgKeep page) new) := by
  have hsummary : ∀ page, ∃ summary : PageSummary, PageHolds hw.sha256 (pageEntry io.info page)
      summary.firstEmpty summary.last := by
    intro page
    obtain ⟨firstEmpty, last, h⟩ := exists_pageHolds hw.sha256 (pageEntry io.info page)
    exact ⟨⟨firstEmpty, last⟩, h⟩
  choose summary hsummary using hsummary
  have hholds : PagesHold hw.sha256 io.info summary := fun page _ => hsummary page
  refine ⟨summary, hholds, ?_, ?_, ?_⟩
  · refine (outcome_bootDataActivePageFind hholds buf sniffResults bootData).mono
      (fun r io' h => ⟨h.2.1, ?_⟩) fun _ _ h => h
    rcases h.1 with ⟨hok, hfinds⟩ | hfail
    · exact .inl ⟨hok, hfinds, hfinds.not_ties⟩
    · exact .inr hfail
  · obtain ⟨t, hgrows, hend⟩ := (readsOnly_bootDataActivePageFindFrom hw buf sniffResults
      (fun _ h => h) .initial bootData).exists_grows io
    have hreads : ReadsPages t := by
      rcases hend with ⟨-, -, -, h⟩ | ⟨-, h⟩
      · exact h
      · exact h
    obtain ⟨ts, rfl, hts⟩ := hreads
    obtain ⟨new, hbus, hkept⟩ := hgrows
    exact ⟨ts, ⟨new, hbus, by rw [hkept, flashTransactions_flatMap]⟩, hts⟩
  · intro r io' hrun
    have hpage : ∀ page, ∃ new, io'.bus = new ++ io.bus ∧
        EndsNoAccess (kept (cfgKeep page) new) := by
      intro page
      have hout : infoCfgAddr page ∉ kBootDataScanRegs := by cases page <;> decide
      have htraces := traces_bootDataActivePageFindFrom page hw hout buf sniffResults kPages
        .initial bootData io
      rw [show (bootDataActivePageFindFrom hw buf sniffResults kPages .initial bootData).run io =
        .ok r io' from hrun] at htraces
      obtain ⟨t, ⟨new, hbus, rfl⟩, hends⟩ := htraces
      exact ⟨new, hbus, hends⟩
    obtain ⟨new, hbus, -⟩ := hpage .bootData0
    refine ⟨new, hbus, fun page => ?_⟩
    obtain ⟨new', hbus', hends⟩ := hpage page
    rw [List.append_cancel_right (hbus.symm.trans hbus')]
    exact hends

/-! ### An invalidated entry -/

/-- An entry whose digest was made after it was invalidated. -/
def invalidatedEntry : BootDataWords :=
  #v[0x3d209b1e, 0xda803690, 0x3656d76d, 0xe303e1db, 0x79c6074a, 0x12da43be, 0xd8bef37a, 0x008a3367,
    0, 0, kBootDataIdentifier, 5, 0, 0, wordMax, wordMax]

/-- Flash that holds this entry, at the start of the first page, and nothing else. -/
def invalidatedFlash (i : ℕ) : Word :=
  if 0x20000 ≤ i then invalidatedEntry.toList.getD (i - 0x20000) wordMax else wordMax

/-- Hardware that works, with the SHA-256 of the entry. -/
def Hw.invalidated : Hw :=
  { Hw.plain with sample := fun _ _ => 1, sha256 := fun _ => invalidatedEntry.entry.digest }

theorem pageEntry_invalidatedFlash :
    pageEntry invalidatedFlash .bootData0 0 = invalidatedEntry := by
  have hbase : (infoPageAddr .bootData0).toNat / 4 + kBootDataNumWords * 0 = 0x20000 := by decide
  have hget : ∀ k : Fin kBootDataNumWords,
      invalidatedEntry.toList.getD k wordMax = invalidatedEntry.get k := by decide
  refine Vector.ext fun k hk => ?_
  refine (get_pageEntry _ _ _ ⟨k, hk⟩).trans ?_
  rw [hbase, invalidatedFlash, if_pos (Nat.le_add_right _ _), Nat.add_sub_cancel_left]
  exact hget ⟨k, hk⟩

theorem empty_invalidatedFlash {page : FlashCtrlInfoPage} {index : ℕ}
    (h : kBootDataNumWords ≤
      (infoPageAddr page).toNat / 4 + kBootDataNumWords * index - 0x20000) :
    (pageEntry invalidatedFlash page index).Empty := by
  intro k
  rw [get_pageEntry, invalidatedFlash]
  split_ifs with hle
  · have hlen : invalidatedEntry.toList.length ≤
        (infoPageAddr page).toNat / 4 + kBootDataNumWords * index + k - 0x20000 := by
      rw [Vector.length_toList]
      exact h.trans (Nat.sub_le_sub_right (Nat.le_add_right _ _) _)
    rw [List.getD_eq_getElem?_getD, List.getElem?_eq_none hlen]
    rfl
  · rfl

/-- The only entry has a valid digest, but the search finds no page. -/
theorem boot_data_active_page_find_skips_invalidated :
    let io := { Io.powerOn with info := invalidatedFlash }
    bootDataCheck Hw.invalidated.sha256 (entryOf io.info .bootData0 0) = kErrorOk ∧
      ¬(pageEntry io.info .bootData0 0).Empty ∧
      ∃ io', (bootDataActivePageFind .invalidated 0 (.replicate _ 0) cancellingEntry).run io =
        .ok (kErrorOk, .initial, cancellingEntry) io' := by
  intro io
  have hfirst : pageEntry io.info .bootData0 0 = invalidatedEntry := pageEntry_invalidatedFlash
  have hnotEmpty : ¬(pageEntry io.info .bootData0 0).Empty := by
    rw [hfirst]
    exact fun h => absurd (h 8) (by decide)
  have hnotValid : ¬(pageEntry io.info .bootData0 0).Valid Hw.invalidated.sha256 := by
    rw [hfirst]
    exact fun h => absurd h.identifier (by decide)
  refine ⟨?_, hnotEmpty, ?_⟩
  · rw [entryOf, hfirst]
    decide
  let summary : FlashCtrlInfoPage → PageSummary := fun page =>
    if page = .bootData0 then ⟨1, none⟩ else ⟨0, none⟩
  have hholds : PagesHold Hw.invalidated.sha256 io.info summary := by
    intro page hpage
    rcases List.mem_pair.1 hpage with rfl | rfl
    · refine ⟨by decide, fun i hi => ?_, fun _ => empty_invalidatedFlash (by decide),
        fun _ h => absurd h (by simp [summary]), fun _ h => absurd h (by simp [summary]), fun i hi h => ?_⟩
      · obtain rfl := Nat.lt_one_iff.1 hi
        exact hnotEmpty
      · obtain rfl := Nat.lt_one_iff.1 hi
        exact absurd h hnotValid
    · exact ⟨by decide, fun i hi => absurd hi i.not_lt_zero,
        fun _ => empty_invalidatedFlash (by decide), fun _ h => absurd h (by simp [summary]),
        fun _ h => absurd h (by simp [summary]), fun i hi => absurd hi i.not_lt_zero⟩
  have hnone : ∀ page, (summary page).last = none := by
    intro page
    by_cases hpage : page = .bootData0 <;> simp [summary, hpage]
  have hworks : Hw.invalidated.BootDataWorks := by
    refine ⟨⟨fun _ => ?_, fun _ => ?_, fun _ => rfl⟩, fun _ => ?_, fun page _ => ⟨rfl, ?_⟩⟩
    · exact show bitfieldBit32Read 1 0 = true by decide
    · exact show bitfieldBit32Read 1 1 = false by decide
    · exact show bitfieldBit32Read 1 0 = true by decide
    · exact fun regs value => show Function.update regs (infoCfgAddr page) value
        (infoCfgAddr page) = value from Function.update_self ..
  have houtcome := outcome_bootDataActivePageFind hholds 0 (.replicate _ 0) cancellingEntry
  have hroom : io.secMmio.HasRoom kBootDataCfgs := .of_empty (by decide) rfl rfl
  cases hrun : (bootDataActivePageFind .invalidated 0 (.replicate _ 0) cancellingEntry).run io with
  | ok r io' =>
    rw [hrun] at houtcome
    rcases houtcome.1 with ⟨hok, ⟨-, hr⟩ | ⟨page, -, i, hi, -⟩⟩ | ⟨hfail, -⟩
    · exact ⟨io', by rw [← hr, ← hok]⟩
    · exact absurd (hi.symm.trans (hnone page)) (by simp)
    · exact absurd ⟨hworks, hroom⟩ hfail
  | error trap io' =>
    rw [hrun] at houtcome
    by_cases htrap : trap = .hardened
    · obtain ⟨page, -, -, -, -, i, j, hi, -⟩ : Ties (entryOf io.info) summary :=
        (if_pos htrap).mp houtcome
      exact absurd (hi.symm.trans (hnone page)) (by simp)
    · exact absurd ⟨hworks, hroom⟩ ((if_neg htrap).mp houtcome)

end SecureBoot
