import SecureBoot.Drivers.FlashCtrl
import SecureBoot.Lib.Trace
import SecureBoot.SecMmio.History

/-! The program transactions of the flash controller, as the bus shows them: the address, the
control word and the words pushed into the FIFO. The write loop splits its data at the windows of
the controller. -/

namespace SecureBoot

open Trace

/-- A transaction with the words that are pushed into the FIFO after its start. -/
structure FlashTransaction where
  addr : Word
  control : Word
  words : List Word

/-- The bus writes of a transaction. -/
def FlashTransaction.accesses (t : FlashTransaction) : List (Word × Word) :=
  (kFlashCtrlAddr, t.addr) :: (kFlashCtrlControl, t.control) ::
    t.words.map fun word => (kFlashCtrlProgFifo, word)

/-- The transactions in a list of bus writes, with the last write to the address register. -/
def flashTransactions : Word → List (Word × Word) → List FlashTransaction
  | _, [] => []
  | addr, (reg, value) :: rest =>
    if reg = kFlashCtrlAddr then flashTransactions value rest
    else if reg = kFlashCtrlControl then
      ⟨addr, value, (rest.takeWhile fun w => w.1 = kFlashCtrlProgFifo).map Prod.snd⟩ ::
        flashTransactions addr rest
    else flashTransactions addr rest

/-- The registers that start a transaction or fill its FIFO. -/
abbrev kFlashStartRegs : List Word := [kFlashCtrlAddr, kFlashCtrlControl, kFlashCtrlProgFifo]

def flashKeep (w : Word × Word) : Bool := w.1 ∈ kFlashStartRegs

/-- From `io` to `io'` the flash controller is given these transactions. -/
def FlashTraced (io io' : Io) (ts : List FlashTransaction) : Prop :=
  ∃ new, io'.bus = new ++ io.bus ∧ flashTransactions 0 (kept flashKeep new) = ts

/-- A transaction that programs exactly its words, on the data partition. -/
structure FlashTransaction.Programs (t : FlashTransaction) : Prop where
  start : bitfieldBit32Read t.control 0 = true
  op : bitfieldField32Read t.control ⟨0x3, 4⟩ = FlashCtrlOp.prog.value
  data : bitfieldBit32Read t.control 8 = false
  num : (bitfieldField32Read t.control ⟨0xfff, 16⟩).toNat + 1 = t.words.length

/-- A transaction that does not cross a window. -/
def FlashTransaction.InWindow (t : FlashTransaction) : Prop :=
  t.words ≠ [] ∧ t.addr.toNat % (4 * kWindowWordCount) + 4 * t.words.length ≤ 4 * kWindowWordCount

/-- Transactions each of which starts where the one before ends. -/
def Consecutive : Word → List FlashTransaction → Prop
  | _, [] => True
  | addr, t :: ts => t.addr = addr ∧ Consecutive (addr + .ofNat 32 (4 * t.words.length)) ts

/-- Bytes at consecutive addresses. -/
def placed (addr : Word) (bytes : List Byte) : List (Word × Byte) :=
  bytes.mapIdx fun k b => (addr + .ofNat 32 k, b)

/-- The bytes that the transactions program, in order. -/
def programmedBytes (ts : List FlashTransaction) : List (Word × Byte) :=
  ts.flatMap fun t => placed t.addr (wordsToBytes t.words)

/-! ### Reading the bus -/

theorem flashTransactions_fifo (addr : Word) (words : List Word) (rest : List (Word × Word)) :
    flashTransactions addr ((words.map fun word => (kFlashCtrlProgFifo, word)) ++ rest) =
      flashTransactions addr rest := by
  induction words with
  | nil => rfl
  | cons word words ih =>
    rw [List.map_cons, List.cons_append, flashTransactions, if_neg (by decide),
      if_neg (by decide), ih]

theorem takeWhile_fifo (ts : List FlashTransaction) :
    (ts.flatMap FlashTransaction.accesses).takeWhile (fun w => w.1 = kFlashCtrlProgFifo) = [] := by
  cases ts with
  | nil => rfl
  | cons t ts =>
    exact List.takeWhile_cons_of_neg
      (show ¬decide (kFlashCtrlAddr = kFlashCtrlProgFifo) = true by decide)

theorem flashTransactions_flatMap (addr : Word) (ts : List FlashTransaction) :
    flashTransactions addr (ts.flatMap FlashTransaction.accesses) = ts := by
  induction ts generalizing addr with
  | nil => rfl
  | cons t ts ih =>
    have hwords : ∀ w ∈ t.words.map fun word => (kFlashCtrlProgFifo, word),
        decide (w.1 = kFlashCtrlProgFifo) = true := by
      intro w hw
      obtain ⟨word, -, rfl⟩ := List.mem_map.1 hw
      exact decide_eq_true rfl
    rw [List.flatMap_cons, FlashTransaction.accesses, List.cons_append, List.cons_append,
      flashTransactions, if_pos rfl, flashTransactions, if_neg (by decide), if_pos rfl,
      List.takeWhile_append_of_pos hwords, takeWhile_fifo, List.append_nil, List.map_map,
      flashTransactions_fifo, ih]
    exact congrArg (fun words => _ :: ts) (List.map_id t.words)

theorem placed_append (addr : Word) (bs cs : List Byte) :
    placed addr (bs ++ cs) = placed addr bs ++ placed (addr + .ofNat 32 bs.length) cs := by
  rw [placed, List.mapIdx_append]
  simp only [Nat.add_comm _ bs.length, BitVec.ofNat_add, ← BitVec.add_assoc]
  rfl

theorem prefix_placed (addr : Word) {bs cs : List Byte} (h : bs <+: cs) :
    placed addr bs <+: placed addr cs := by
  obtain ⟨rest, rfl⟩ := h
  exact ⟨_, (placed_append addr bs rest).symm⟩

theorem programmedBytes_append (ts us : List FlashTransaction) :
    programmedBytes (ts ++ us) = programmedBytes ts ++ programmedBytes us := List.flatMap_append

theorem programmedBytes_of_consecutive {addr : Word} {ts : List FlashTransaction}
    (h : Consecutive addr ts) :
    programmedBytes ts = placed addr (wordsToBytes (ts.flatMap FlashTransaction.words)) := by
  induction ts generalizing addr with
  | nil => rfl
  | cons t ts ih =>
    obtain ⟨rfl, h⟩ := h
    rw [programmedBytes, List.flatMap_cons, List.flatMap_cons, wordsToBytes_append, placed_append,
      length_wordsToBytes, ← ih h]
    rfl

/-! ### The write loop -/

section Write

variable (hw : Hw) {A : Word → Prop} {T : TransactionParams → Prop} {E : List (Word × Word) → Prop}

/-- A program that leaves the registers of a transaction alone. -/
theorem traces_of_frames {α : Type} {x : Drv α} {Q : α → List (Word × Word) → Prop}
    (h : Frames hw A T x) (hA : ∀ a, A a → a ∉ kFlashStartRegs) (hQ : ∀ a, Q a []) (hE : E []) :
    Traces Io.bus flashKeep x Q E := by
  refine .silent (fun io => ?_) hQ hE
  obtain ⟨new, hbus, hnew⟩ := (h.final io).bus
  exact ⟨new, hbus, kept_of_forall fun w hw => decide_eq_false (hA _ (hnew w hw))⟩

theorem traces_absMmioWrite32 {addr : Word} (value : Word) (h : addr ∈ kFlashStartRegs) :
    Traces Io.bus flashKeep (absMmioWrite32 hw addr value) (fun _ t => t = [(addr, value)]) E := by
  have hkeep : flashKeep (addr, value) = true := decide_eq_true h
  refine .modify (fun _ => ⟨[(addr, value)], rfl, ?_⟩) rfl
  rw [kept, List.filter_cons_of_pos hkeep]
  rfl

/-- The control word of a transaction. -/
def transactionControl (opType : FlashCtrlOp) (eraseType : FlashCtrlEraseType)
    (partition : FlashCtrlPartition) (wordCount : Word) : Word :=
  let reg := bitfieldBit32Write 0 0 true
  let reg := bitfieldField32Write reg ⟨0x3, 4⟩ opType.value
  let reg := bitfieldBit32Write reg 8 (bitfieldBit32Read partition.code 0)
  let reg := bitfieldField32Write reg ⟨0x3, 9⟩ (bitfieldField32Read partition.code ⟨0x3, 1⟩)
  let reg := bitfieldBit32Write reg 7 (eraseType = .bank)
  bitfieldField32Write reg ⟨0xfff, 16⟩ (wordCount - 1)

theorem traces_transactionStart (p : TransactionParams) :
    Traces Io.bus flashKeep (transactionStart hw p) (fun _ t => t = [(kFlashCtrlAddr, p.addr),
      (kFlashCtrlControl, transactionControl p.opType p.eraseType p.partition p.wordCount)]) E := by
  refine (traces_absMmioWrite32 hw _ (by decide)).bind fun _ t ht =>
    (traces_absMmioWrite32 hw _ (by decide)).bind fun _ t' ht' => .modify (fun _ => .refl rfl) ?_
  rw [ht, ht']
  rfl

theorem traces_fifoWrite (words : List Word) :
    Traces Io.bus flashKeep (fifoWrite hw words)
      (fun _ t => t = words.map fun word => (kFlashCtrlProgFifo, word)) E := by
  induction words generalizing E with
  | nil => exact .pure rfl
  | cons word rest ih =>
    refine (traces_absMmioWrite32 hw _ (by decide)).bind fun _ t ht =>
      Traces.bind (Q := fun _ t => t = []) (.modify (fun _ => .refl rfl) rfl) fun _ t' ht' =>
        ih.mono (fun _ t'' h => ?_) fun _ h => h
    rw [ht, ht', h]
    rfl

theorem traces_waitForDone (error : RomError) (hE : E []) :
    Traces Io.bus flashKeep (waitForDone hw error) (fun _ t => t = []) E :=
  traces_of_frames hw (T := fun _ => True)
    (frames_waitForDone (A := (· = kFlashCtrlOpStatus)) rfl error) (fun _ ha => ha ▸ by decide)
    (fun _ => rfl) hE

/-- A transaction of the write loop. -/
def progTransaction (addr : Word) (partition : FlashCtrlPartition) (words : List Word) :
    FlashTransaction :=
  ⟨addr, transactionControl .prog .page partition (.ofNat 32 words.length), words⟩

/-- A transaction of the write loop, from its start to its end. -/
theorem traces_progTransaction (addr : Word) (partition : FlashCtrlPartition) (words : List Word)
    (error : RomError) (hE : E (progTransaction addr partition words).accesses) :
    Traces Io.bus flashKeep
      (do
        transactionStart hw ⟨addr, .prog, .page, partition, .ofNat 32 words.length⟩
        fifoWrite hw words
        waitForDone hw error)
      (fun _ t => t = (progTransaction addr partition words).accesses) E := by
  refine (traces_transactionStart hw _).bind fun _ t ht => (traces_fifoWrite hw _).bind
    fun _ t' ht' => (traces_waitForDone hw error ?_).mono (fun _ t'' h => ?_) fun _ h => h
  · rw [ht, ht', List.append_nil]
    exact hE
  · rw [ht, ht', h, List.append_nil]
    rfl

/-- The write loop has programmed the first words of `data`. -/
structure WritesPrefix (addr : Word) (partition : FlashCtrlPartition) (data : List Word)
    (ts : List FlashTransaction) : Prop where
  consecutive : Consecutive addr ts
  inWindow : ∀ t ∈ ts, t.InWindow
  prog : ∀ t ∈ ts, t = progTransaction t.addr partition t.words
  isPrefix : ts.flatMap FlashTransaction.words <+: data

variable {addr : Word} {partition : FlashCtrlPartition} {data : List Word}

theorem WritesPrefix.nil : WritesPrefix addr partition data [] where
  consecutive := trivial
  inWindow _ h := absurd h List.not_mem_nil
  prog _ h := absurd h List.not_mem_nil
  isPrefix := List.nil_prefix

/-- The first round programs `n` words. -/
theorem WritesPrefix.cons {n : ℕ} {ts : List FlashTransaction} (hn : 0 < n)
    (hlen : n ≤ data.length) (hwindow : addr.toNat % 64 + 4 * n ≤ 64)
    (h : WritesPrefix (addr + .ofNat 32 (4 * n)) partition (data.drop n) ts) :
    WritesPrefix addr partition data (progTransaction addr partition (data.take n) :: ts) := by
  have hlength : (data.take n).length = n := List.length_take_of_le hlen
  refine ⟨⟨rfl, ?_⟩, List.forall_mem_cons.2 ⟨⟨?_, ?_⟩, h.inWindow⟩,
    List.forall_mem_cons.2 ⟨rfl, h.prog⟩, ?_⟩
  · rw [progTransaction, hlength]
    exact h.consecutive
  · exact List.ne_nil_of_length_pos (hlength.symm ▸ hn)
  · rw [progTransaction, hlength]
    exact hwindow
  · obtain ⟨rest, hrest⟩ := h.isPrefix
    refine ⟨rest, ?_⟩
    rw [List.flatMap_cons, List.append_assoc, hrest]
    exact List.take_append_drop n data

theorem traces_flashWriteFrom (error : RomError) (rounds : ℕ) {windowWordCount : ℕ}
    (haligned : addr.toNat % 4 = 0) (hrounds : data.length ≤ rounds)
    (hwindow : data = [] ∨ windowWordCount = kWindowWordCount - addr.toNat / 4 % kWindowWordCount) :
    Traces Io.bus flashKeep (flashWriteFrom hw partition error rounds addr windowWordCount data)
      (fun err t => ∃ ts, t = ts.flatMap FlashTransaction.accesses ∧
        WritesPrefix addr partition data ts ∧
        (err = kErrorOk → ts.flatMap FlashTransaction.words = data))
      fun t => ∃ ts, t = ts.flatMap FlashTransaction.accesses ∧
        WritesPrefix addr partition data ts := by
  induction rounds generalizing addr windowWordCount data with
  | zero =>
    rw [List.eq_nil_of_length_eq_zero (Nat.le_zero.1 hrounds)]
    exact .pure ⟨[], rfl, .nil, fun _ => rfl⟩
  | succ rounds ih =>
    rw [flashWriteFrom]
    refine .ite _ (fun hnil => .pure ⟨[], rfl, .nil, fun _ => hnil.symm⟩) fun hne => ?_
    obtain rfl := hwindow.resolve_left hne
    have hpos := List.length_pos_of_ne_nil hne
    obtain ⟨n, hn⟩ : ∃ n, n = min data.length
      (kWindowWordCount - addr.toNat / 4 % kWindowWordCount) := ⟨_, rfl⟩
    have hbounds : 0 < n ∧ n ≤ data.length ∧ addr.toNat % 64 + 4 * n ≤ 64 ∧
        (n = data.length ∨ addr.toNat % 64 + 4 * n = 64) := by
      simp only [kWindowWordCount] at hn
      omega
    obtain ⟨hn₀, hnlen, hnwindow, hnlast⟩ := hbounds
    have hnext : (addr + .ofNat 32 (4 * n)).toNat = (addr.toNat + 4 * n) % 2 ^ 32 := by
      rw [BitVec.toNat_add, BitVec.toNat_ofNat, Nat.add_mod_mod]
    have hcons : ∀ {ts}, WritesPrefix (addr + .ofNat 32 (4 * n)) partition (data.drop n) ts →
        WritesPrefix addr partition data (progTransaction addr partition (data.take n) :: ts) :=
      .cons hn₀ hnlen hnwindow
    have hround := traces_progTransaction hw addr partition (data.take n) error
      (E := fun t => ∃ ts, t = ts.flatMap FlashTransaction.accesses ∧
        WritesPrefix addr partition data ts)
      ⟨_, (List.flatMap_singleton _ _).symm, hcons .nil⟩
    rw [List.length_take_of_le hnlen] at hround
    have hrest := @ih (addr + .ofNat 32 (4 * n)) (data.drop n) kWindowWordCount
      (by rw [hnext]; omega) (by rw [List.length_drop]; omega) ?_
    · simp only [← hn]
      refine hround.bind fun err t ht => .ite _ (fun hok => hrest.mono ?_ ?_) fun hbad => .pure ?_
      · rintro err' t' ⟨ts, rfl, hts, hall⟩
        refine ⟨_ :: ts, by rw [ht, List.flatMap_cons], hcons hts, fun hok' => ?_⟩
        rw [List.flatMap_cons, hall hok']
        exact List.take_append_drop n data
      · rintro t' ⟨ts, rfl, hts⟩
        exact ⟨_ :: ts, by rw [ht, List.flatMap_cons], hcons hts⟩
      · exact ⟨[_], by rw [ht, List.append_nil, List.flatMap_singleton], hcons .nil,
          fun h => absurd h hbad⟩
    · rcases hnlast with hlast | hlast
      · exact .inl (List.drop_eq_nil_of_le hlast.ge)
      · refine .inr ?_
        rw [hnext]
        simp only [kWindowWordCount]
        omega

theorem traces_flashCtrlDataWrite (haligned : addr.toNat % 4 = 0) (data : List Word) :
    Traces Io.bus flashKeep (flashCtrlDataWrite hw addr data)
      (fun err t => ∃ ts, t = ts.flatMap FlashTransaction.accesses ∧
        WritesPrefix addr .data data ts ∧
        (err = kErrorOk → ts.flatMap FlashTransaction.words = data))
      fun t => ∃ ts, t = ts.flatMap FlashTransaction.accesses ∧ WritesPrefix addr .data data ts :=
  traces_flashWriteFrom hw _ _ haligned (Nat.le_refl _) (.inr rfl)

theorem transactionControl_prog :
    ∀ n ∈ List.range' 1 kWindowWordCount,
      let control := transactionControl .prog .page .data (.ofNat 32 n)
      bitfieldBit32Read control 0 = true ∧
        bitfieldField32Read control ⟨0x3, 4⟩ = FlashCtrlOp.prog.value ∧
        bitfieldBit32Read control 8 = false ∧
        (bitfieldField32Read control ⟨0xfff, 16⟩).toNat + 1 = n := by
  decide +kernel

theorem WritesPrefix.programs {ts : List FlashTransaction} (h : WritesPrefix addr .data data ts) :
    ∀ t ∈ ts, t.Programs := by
  intro t ht
  obtain ⟨hne, hwindow⟩ := h.inWindow t ht
  have hpos := List.length_pos_of_ne_nil hne
  have hrange : t.words.length ∈ List.range' 1 kWindowWordCount := by
    rw [List.mem_range'_1]
    exact ⟨hpos, by simp only [kWindowWordCount] at hwindow ⊢; omega⟩
  obtain ⟨hstart, hop, hdata, hnum⟩ := transactionControl_prog _ hrange
  rw [h.prog t ht]
  exact ⟨hstart, hop, hdata, hnum⟩

end Write

/-! ### Flash that works -/

/-- Every transaction ends without an error and the power stays on. -/
structure Hw.FlashWorks (hw : Hw) : Prop where
  done : ∀ n, bitfieldBit32Read (hw.sample n kFlashCtrlOpStatus) 0 = true
  noError : ∀ n, bitfieldBit32Read (hw.sample n kFlashCtrlOpStatus) 1 = false
  power : ∀ n, hw.powerLoss n = false

section Works

variable {hw : Hw} (h : hw.FlashWorks) {P : SecMmioCtx → Prop}

theorem succeeds_transactionStart (p : TransactionParams) :
    Succeeds P (transactionStart hw p) fun _ => True :=
  (succeeds_absMmioWrite32 _ _).bind fun _ _ => (succeeds_absMmioWrite32 _ _).bind fun _ _ =>
    .modify _ fun _ hP => ⟨trivial, hP⟩

theorem succeeds_fifoWrite (words : List Word) :
    Succeeds P (fifoWrite hw words) fun _ => True := by
  induction words with
  | nil => exact .pure _ fun _ hP => ⟨trivial, hP⟩
  | cons word rest ih =>
    exact (succeeds_absMmioWrite32 _ _).bind fun _ _ =>
      Succeeds.bind (Q := fun _ => True) (.modify _ fun _ hP => ⟨trivial, hP⟩) fun _ _ => ih

include h

theorem succeeds_waitForDone (error : RomError) :
    Succeeds P (waitForDone hw error) (· = kErrorOk) := by
  refine Succeeds.bind (Q := fun status => bitfieldBit32Read status 1 = false) ?_
    fun status hstatus => Succeeds.bind (Q := fun _ => True) ?_ fun _ _ => ?_
  · refine Hoare.Triple.bind (R := fun status io => (bitfieldBit32Read status 0 = true ∧
      bitfieldBit32Read status 1 = false) ∧ P io.secMmio)
      (.modifyGet _ fun io hP => ⟨⟨h.done _, h.noError _⟩, hP⟩) fun status => ?_
    exact .of_pre fun hstatus => .ite _ (fun _ => .pure _ fun _ hP => ⟨hstatus.2, hP⟩)
      fun hbusy => absurd hstatus.1 hbusy
  · refine Succeeds.bind (Q := fun _ => True) (.modify _ fun io hP => ⟨trivial, ?_⟩) fun _ _ => ?_
    · unfold Io.completeTransaction
      split <;> exact hP
    · refine Hoare.Triple.bind (R := fun _ io => P io.secMmio) (.get fun _ hP => hP) fun io =>
        .ite _ (fun hlost => ?_) fun _ => ?_
      · rw [h.power] at hlost
        exact absurd hlost Bool.false_ne_true
      · exact .pure _ fun _ hP => ⟨trivial, hP⟩
  · refine (succeeds_absMmioWrite32 _ _).bind fun _ _ => ?_
    rw [hstatus]
    exact .pure _ fun _ hP => ⟨rfl, hP⟩

theorem succeeds_flashWriteFrom (partition : FlashCtrlPartition) (error : RomError) (rounds : ℕ)
    (addr : Word) (windowWordCount : ℕ) (data : List Word) :
    Succeeds P (flashWriteFrom hw partition error rounds addr windowWordCount data)
      (· = kErrorOk) := by
  induction rounds generalizing addr windowWordCount data with
  | zero => exact .pure _ fun _ hP => ⟨rfl, hP⟩
  | succ rounds ih =>
    rw [flashWriteFrom]
    refine .ite _ (fun _ => .pure _ fun _ hP => ⟨rfl, hP⟩) fun _ => ?_
    refine Succeeds.bind (Q := (· = kErrorOk)) ?_ fun err herr => ?_
    · exact (succeeds_transactionStart _).bind fun _ _ =>
        (succeeds_fifoWrite _).bind fun _ _ => succeeds_waitForDone h error
    · rw [if_pos herr]
      exact ih _ _ _

theorem succeeds_flashCtrlDataWrite (addr : Word) (data : List Word) :
    Succeeds P (flashCtrlDataWrite hw addr data) (· = kErrorOk) :=
  succeeds_flashWriteFrom h _ _ _ _ _ _

end Works

end SecureBoot
