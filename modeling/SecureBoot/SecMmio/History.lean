import SecureBoot.SecMmio.Table

/-! Histories of sec_mmio operations. Between two operations the hardware may
change its registers in any way. Every operation keeps the table in step with the
history: the map of the values last written or read and the number of writes,
both since the last `sec_mmio_init`. -/

namespace SecureBoot

/-- One step of a history: a function of the module, or a change of the registers. -/
inductive SecMmioOp where
  | init
  | write32 (addr value : Word)
  | write32Shadowed (addr value : Word)
  | read32 (addr : Word)
  | checkValues (rndOffset : Word)
  | checkCounters (expectedCheckCount : Word)
  | writeIncrement (value : Word)
  | hardware (regs : Word → Word)

/-- What happened since the last `sec_mmio_init`. -/
structure SecMmioHistory where
  recorded : Word → Option Word
  writes : ℕ

namespace SecMmioHistory

def empty : SecMmioHistory := ⟨fun _ => none, 0⟩

def read (hist : SecMmioHistory) (addr value : Word) : SecMmioHistory :=
  { hist with recorded := Function.update hist.recorded addr (some value) }

def write (hist : SecMmioHistory) (addr value : Word) : SecMmioHistory :=
  ⟨Function.update hist.recorded addr (some value), hist.writes + 1⟩

end SecMmioHistory

namespace SecMmioOp

/-- The registers an operation may record. -/
def touched : SecMmioOp → Finset Word
  | write32 addr _ | write32Shadowed addr _ | read32 addr => {addr}
  | _ => ∅

def touchedAll (ops : List SecMmioOp) : Finset Word := ops.foldr (fun op s => op.touched ∪ s) ∅

/-- Run the operation and extend the history. -/
def run (hw : Hw) (hist : SecMmioHistory) : SecMmioOp → Drv SecMmioHistory
  | init => do
      secMmioInit
      pure .empty
  | write32 addr value => do
      secMmioWrite32 hw addr value
      pure (hist.write addr value)
  | write32Shadowed addr value => do
      secMmioWrite32Shadowed hw addr value
      pure (hist.write addr value)
  | read32 addr => do
      let value ← secMmioRead32 hw addr
      pure (hist.read addr value)
  | checkValues rndOffset => do
      secMmioCheckValues hw rndOffset
      pure hist
  | checkCounters expectedCheckCount => do
      secMmioCheckCounters expectedCheckCount
      pure hist
  | writeIncrement value => do
      secMmioWriteIncrement value
      pure hist
  | hardware regs => do
      modify fun io => { io with regs := regs }
      pure hist

def runAll (hw : Hw) : SecMmioHistory → List SecMmioOp → Drv SecMmioHistory
  | hist, [] => pure hist
  | hist, op :: ops => do
      let hist ← op.run hw hist
      runAll hw hist ops

end SecMmioOp

/-- The table is in step with a history that records registers of `touched` only. -/
structure SecMmioCtx.InStep (touched : Finset Word) (hist : SecMmioHistory) (ctx : SecMmioCtx) :
    Prop where
  records : ctx.Records hist.recorded
  within : ∀ addr, (hist.recorded addr).isSome → addr ∈ touched
  writes : ctx.writeCount = BitVec.ofNat 32 hist.writes

theorem SecMmioCtx.writeCount_upsert (ctx : SecMmioCtx) (addr value : Word) :
    (ctx.upsert addr value).writeCount = ctx.writeCount := by
  rw [SecMmioCtx.upsert]
  split_ifs <;> rfl

section

variable (hw : Hw) {touched : Finset Word} {hist : SecMmioHistory}

theorem within_update {addr : Word} (value : Word) (haddr : addr ∈ touched)
    (h : ∀ a, (hist.recorded a).isSome → a ∈ touched) (a : Word)
    (ha : (Function.update hist.recorded addr (some value) a).isSome) : a ∈ touched := by
  by_cases hne : a = addr
  · rwa [hne]
  · rw [Function.update_of_ne hne] at ha
    exact h a ha

theorem triple_secMmioRead32 (hcard : touched.card ≤ kSecMmioRegFileSize) {addr : Word}
    (haddr : addr ∈ touched) :
    Hoare.Triple (fun io => io.secMmio.InStep touched hist) (secMmioRead32 hw addr)
      (fun value io => io.secMmio.InStep touched (hist.read addr value))
      (fun trap _ => trap ≠ .secMmioFull) := by
  intro io h
  have hroom := h.records.search_lt hcard h.within haddr
  rw [run_secMmioRead32]
  simp only [if_pos hroom]
  refine ⟨?_, within_update _ haddr h.within, ?_⟩
  · exact h.records.upsert hroom
  · exact (SecMmioCtx.writeCount_upsert ..).trans h.writes

theorem triple_secMmioRecordWrite (hcard : touched.card ≤ kSecMmioRegFileSize) {addr : Word}
    (haddr : addr ∈ touched) (value : Word) :
    Hoare.Triple (fun io => io.secMmio.InStep touched hist) (secMmioRecordWrite hw addr value)
      (fun _ io => io.secMmio.InStep touched (hist.write addr value))
      (fun trap _ => trap ≠ .secMmioFull) := by
  intro io h
  have hroom := h.records.search_lt hcard h.within haddr
  have hrec := h.records.upsert (v := value) hroom
  rw [run_secMmioRecordWrite]
  simp only [if_pos hroom]
  split_ifs
  · refine ⟨⟨hrec.inj, hrec.entry, hrec.covers⟩, within_update _ haddr h.within, ?_⟩
    simp only [Io.secMmio_setSecMmio, SecMmioCtx.writeCount_upsert, h.writes]
    exact (BitVec.ofNat_add ..).symm
  · exact nofun

theorem triple_absMmioWrite32 (addr value : Word) {P : SecMmioCtx → Prop}
    {E : Trap → Io → Prop} :
    Hoare.Triple (fun io => P io.secMmio) (absMmioWrite32 hw addr value)
      (fun _ io => P io.secMmio) E :=
  .modify _ fun _ h => h

theorem triple_secMmioCheckValues (rndOffset : Word) :
    Hoare.Triple (fun io => io.secMmio.InStep touched hist) (secMmioCheckValues hw rndOffset)
      (fun _ io => io.secMmio.InStep touched hist) (fun trap _ => trap ≠ .secMmioFull) := by
  intro io h
  obtain ⟨hpass, hfail⟩ := run_secMmioCheckValues hw rndOffset h.records
  by_cases hrec : ∀ addr v, hist.recorded addr = some v → io.read hw addr = v
  · rw [hpass hrec]
    exact ⟨⟨h.records.inj, h.records.entry, h.records.covers⟩, h.within, h.writes⟩
  · rw [hfail hrec]
    exact nofun

theorem triple_hardenedCheck (c : Prop) [Decidable c] {trap : Trap} {P : Io → Prop}
    {E : Trap → Io → Prop} (hE : ∀ io, E trap io) :
    Hoare.Triple P (hardenedCheck c trap) (fun _ io => P io) E :=
  .ite c (fun _ => .pure () fun _ h => h) fun _ => .throw trap fun io _ => hE io

theorem triple_modifySecMmio (f : SecMmioCtx → SecMmioCtx) {P P' : SecMmioCtx → Prop}
    {E : Trap → Io → Prop} (hf : ∀ ctx, P ctx → P' (f ctx)) :
    Hoare.Triple (fun io => P io.secMmio) (modifySecMmio f) (fun _ io => P' io.secMmio) E :=
  .modify _ fun _ h => hf _ h

theorem triple_secMmioCheckCounters (expectedCheckCount : Word) :
    Hoare.Triple (fun io => io.secMmio.InStep touched hist)
      (secMmioCheckCounters expectedCheckCount)
      (fun _ io => io.secMmio.InStep touched hist) (fun trap _ => trap ≠ .secMmioFull) := by
  refine .bind (R := fun _ io => io.secMmio.InStep touched hist) (.get fun _ h => h) fun io => ?_
  refine .bind (triple_hardenedCheck _ fun _ => nofun) fun _ => ?_
  refine .bind (triple_hardenedCheck _ fun _ => nofun) fun _ => ?_
  exact triple_modifySecMmio _ fun ctx h =>
    ⟨⟨h.records.inj, h.records.entry, h.records.covers⟩, h.within, h.writes⟩

/-- One operation keeps the table in step and never finds it full. -/
theorem SecMmioOp.run_spec (hcard : touched.card ≤ kSecMmioRegFileSize) (op : SecMmioOp)
    (hop : op.touched ⊆ touched) :
    Hoare.Triple (fun io => io.secMmio.InStep touched hist) (op.run hw hist)
      (fun hist' io => io.secMmio.InStep touched hist') (fun trap _ => trap ≠ .secMmioFull) := by
  cases op with
  | init =>
    refine .bind (triple_modifySecMmio _  fun ctx _ => ?_)
      fun _ => .pure _ fun _ h => h
    exact ⟨⟨nofun, nofun, nofun⟩, nofun, rfl⟩
  | write32 addr value =>
    refine .bind (.bind (triple_absMmioWrite32 hw addr value) fun _ => ?_)
      fun _ => .pure _ fun _ h => h
    exact triple_secMmioRecordWrite hw hcard (hop (Finset.mem_singleton_self addr)) value
  | write32Shadowed addr value =>
    refine .bind (.bind (triple_absMmioWrite32 hw addr value) fun _ =>
      .bind (triple_absMmioWrite32 hw addr value) fun _ => ?_) fun _ => .pure _ fun _ h => h
    exact triple_secMmioRecordWrite hw hcard (hop (Finset.mem_singleton_self addr)) value
  | read32 addr =>
    exact .bind (triple_secMmioRead32 hw hcard (hop (Finset.mem_singleton_self addr)))
      fun _ => .pure _ fun _ h => h
  | checkValues rndOffset =>
    exact .bind (triple_secMmioCheckValues hw rndOffset) fun _ => .pure _ fun _ h => h
  | checkCounters expectedCheckCount =>
    exact .bind (triple_secMmioCheckCounters expectedCheckCount) fun _ => .pure _ fun _ h => h
  | writeIncrement value =>
    refine .bind (triple_modifySecMmio _ fun ctx h => ?_) fun _ => .pure _ fun _ h => h
    exact ⟨⟨h.records.inj, h.records.entry, h.records.covers⟩, h.within, h.writes⟩
  | hardware regs =>
    exact .bind (.modify _ fun _ h => h) fun _ => .pure _ fun _ h => h

/-- The table stays in step over a whole history. -/
theorem SecMmioOp.runAll_spec (hcard : touched.card ≤ kSecMmioRegFileSize) (ops : List SecMmioOp)
    (hops : ∀ op ∈ ops, op.touched ⊆ touched) :
    Hoare.Triple (fun io => io.secMmio.InStep touched hist) (SecMmioOp.runAll hw hist ops)
      (fun hist' io => io.secMmio.InStep touched hist') (fun trap _ => trap ≠ .secMmioFull) := by
  induction ops generalizing hist with
  | nil => exact .pure _ fun _ h => h
  | cons op ops ih =>
    refine .bind (SecMmioOp.run_spec hw hcard op (hops op List.mem_cons_self)) fun hist' => ?_
    exact ih fun o ho => hops o (List.mem_cons_of_mem _ ho)

theorem SecMmioOp.run_init_spec (E : Trap → Io → Prop) :
    Hoare.Triple (fun _ => True) (SecMmioOp.init.run hw hist)
      (fun hist' io => io.secMmio.InStep touched hist') E :=
  .bind (.modify _ fun _ _ => ⟨⟨nofun, nofun, nofun⟩, nofun, rfl⟩) fun _ => .pure _ fun _ h => h

end

theorem SecMmioOp.touched_subset_touchedAll {op : SecMmioOp} {ops : List SecMmioOp}
    (h : op ∈ ops) : op.touched ⊆ touchedAll ops := by
  induction ops with
  | nil => cases h
  | cons o ops ih =>
    rcases List.mem_cons.1 h with rfl | h
    · exact Finset.subset_union_left
    · exact (ih h).trans Finset.subset_union_right

/-- The shadow table over every history that starts with `sec_mmio_init` and
touches no more registers than the table holds: the table never overflows, its
addresses are distinct, its entries are the masked last values, the write count is
the number of writes modulo `2 ^ 32`, and a check of the values visits every entry
once and stops exactly when some recorded register reads a different value. -/
theorem secMmio_table_inStep (hw : Hw) (ops : List SecMmioOp)
    (hcard : (SecMmioOp.touchedAll ops).card ≤ kSecMmioRegFileSize) (io : Io) :
    Hoare.Outcome
      (fun hist io' =>
        let ctx := io'.secMmio
        (∀ i < ctx.lastIndex, ∀ j < ctx.lastIndex, ctx.addrs i = ctx.addrs j → i = j) ∧
        (∀ i < ctx.lastIndex, ∃ v, hist.recorded (ctx.addrs i) = some v ∧
          ctx.values i = v ^^^ kSecMmioMaskVal) ∧
        (∀ addr v, hist.recorded addr = some v → ∃ i < ctx.lastIndex, ctx.addrs i = addr) ∧
        ctx.writeCount.toNat = hist.writes % 2 ^ 32 ∧
        ∀ rndOffset,
          (∃ visits : List ℕ, visits.Perm (List.range ctx.lastIndex) ∧
            (secMmioCheckValues hw rndOffset).run io' =
              (visits.forM (secMmioCheckEntry hw) >>= fun _ => secMmioCheckDone).run io') ∧
          ((∃ trap io'', (secMmioCheckValues hw rndOffset).run io' = .error trap io'') ↔
            ∃ addr v, hist.recorded addr = some v ∧ io'.read hw addr ≠ v))
      (fun trap _ => trap ≠ .secMmioFull)
      ((SecMmioOp.runAll hw .empty (.init :: ops)).run io) := by
  have hrun : Hoare.Triple (fun _ => True) (SecMmioOp.runAll hw .empty (.init :: ops))
      (fun hist io => io.secMmio.InStep (SecMmioOp.touchedAll ops) hist)
      (fun trap _ => trap ≠ .secMmioFull) :=
    .bind (SecMmioOp.run_init_spec hw _) fun _ =>
      SecMmioOp.runAll_spec hw hcard ops fun _ h => SecMmioOp.touched_subset_touchedAll h
  refine (hrun io trivial).mono (fun hist io' h => ?_) fun _ _ h => h
  refine ⟨h.records.inj, h.records.entry, h.records.covers, ?_, fun rndOffset => ⟨?_, ?_⟩⟩
  · rw [h.writes, BitVec.toNat_ofNat]
  · refine ⟨_, checkVisits_perm rndOffset io'.secMmio.lastIndex, ?_⟩
    rw [← secMmioCheckValuesFrom_eq_forM]
    rfl
  · obtain ⟨hpass, hfail⟩ := run_secMmioCheckValues hw rndOffset h.records
    constructor
    · rintro ⟨trap, io'', hstop⟩
      by_contra hnone
      push Not at hnone
      rw [hpass hnone] at hstop
      cases hstop
    · rintro ⟨addr, v, hv, hne⟩
      exact ⟨_, _, hfail fun hall => hne (hall addr v hv)⟩

theorem secMmio_table_inStep_twoRegisters :
    Hoare.Outcome
      (fun hist io' => io'.secMmio.writeCount.toNat = hist.writes % 2 ^ 32 ∧
        ∀ addr v, hist.recorded addr = some v →
          ∃ i < io'.secMmio.lastIndex, io'.secMmio.addrs i = addr)
      (fun trap _ => trap ≠ .secMmioFull)
      ((SecMmioOp.runAll Hw.plain .empty [.init, .write32 4 5, .read32 8]).run .powerOn) :=
  (secMmio_table_inStep Hw.plain [.write32 4 5, .read32 8] (by decide) .powerOn).mono
    (fun _ _ h => ⟨h.2.2.2.1, h.2.2.1⟩) fun _ _ h => h

/-! ### The write count wraps -/

theorem SecMmioOp.touchedAll_replicate_subset (n : ℕ) (addr value : Word) :
    touchedAll (List.replicate n (.write32 addr value)) ⊆ {addr} := by
  induction n with
  | zero => exact Finset.empty_subset _
  | succ n ih => exact Finset.union_subset subset_rfl ih

/-- On plain hardware a write to a register always succeeds. -/
theorem run_write32_plain {touched : Finset Word} {hist : SecMmioHistory} {io : Io}
    (hcard : touched.card ≤ kSecMmioRegFileSize) {addr : Word} (haddr : addr ∈ touched)
    (value : Word) (h : io.secMmio.InStep touched hist) :
    Hoare.Outcome (fun hist' io' => hist' = hist.write addr value ∧ io'.secMmio.InStep touched hist')
      (fun _ _ => False) (((SecMmioOp.write32 addr value).run Hw.plain hist).run io) := by
  have hroom := h.records.search_lt hcard h.within haddr
  have hspec := SecMmioOp.run_spec Hw.plain hcard (.write32 addr value)
    (Finset.singleton_subset_iff.2 haddr) io h
  have hread : (io.write Hw.plain addr value).read Hw.plain addr = value := by
    simp [Io.read, Io.write, Hw.plain]
  have hrun : ((SecMmioOp.write32 addr value).run Hw.plain hist).run io =
      (secMmioRecordWrite Hw.plain addr value >>= fun _ => pure (hist.write addr value)).run
        (io.write Hw.plain addr value) := rfl
  rw [EStateM.run_bind, run_secMmioRecordWrite] at hrun
  simp only [Io.secMmio_write, hread, if_pos hroom, if_true, EStateM.run_pure] at hrun
  rw [hrun] at hspec ⊢
  exact ⟨rfl, hspec⟩

theorem runAll_replicate_write_plain (n : ℕ) (hist : SecMmioHistory) (io : Io)
    (h : io.secMmio.InStep {0} hist) :
    Hoare.Outcome
      (fun hist' io' => hist'.writes = hist.writes + n ∧ io'.secMmio.InStep {0} hist')
      (fun _ _ => False)
      ((SecMmioOp.runAll Hw.plain hist (List.replicate n (.write32 0 0))).run io) := by
  induction n generalizing hist io with
  | zero => exact ⟨rfl, h⟩
  | succ n ih =>
    have hstep := run_write32_plain (by decide) (Finset.mem_singleton_self (0 : Word)) 0 h
    rw [List.replicate_succ, SecMmioOp.runAll, EStateM.run_bind]
    cases hres : ((SecMmioOp.write32 0 0).run Hw.plain hist).run io with
    | ok hist' io' =>
      rw [hres] at hstep
      obtain ⟨rfl, hin⟩ := hstep
      refine (ih _ _ hin).mono (fun hist'' io'' hrest => ⟨?_, hrest.2⟩) fun _ _ hf => hf
      rw [hrest.1]
      exact Nat.add_right_comm ..
    | error trap io' =>
      rw [hres] at hstep
      exact hstep

/-- After `2 ^ 32` writes of one register the write count reads zero. -/
theorem secMmio_writeCount_wraps :
    (SecMmioOp.touchedAll (List.replicate (2 ^ 32) (.write32 0 0))).card ≤ kSecMmioRegFileSize ∧
      Hoare.Outcome
        (fun hist io' => hist.writes = 2 ^ 32 ∧ io'.secMmio.writeCount.toNat ≠ hist.writes)
        (fun _ _ => False)
        ((SecMmioOp.runAll Hw.plain .empty
          (.init :: List.replicate (2 ^ 32) (.write32 0 0))).run .powerOn) := by
  generalize hn : (2 ^ 32 : ℕ) = n
  refine ⟨(Finset.card_le_card (SecMmioOp.touchedAll_replicate_subset n 0 0)).trans (by decide), ?_⟩
  have hrun : Hoare.Triple (fun _ => True)
      (SecMmioOp.runAll Hw.plain .empty (.init :: List.replicate n (.write32 0 0)))
      (fun hist io' => hist.writes = n ∧ io'.secMmio.InStep {0} hist) (fun _ _ => False) := by
    refine .bind (R := fun hist io => hist = .empty ∧ io.secMmio.InStep {0} hist) ?_ ?_
    · exact .bind (.modify _ fun _ _ => ⟨⟨nofun, nofun, nofun⟩, nofun, rfl⟩)
        fun _ => .pure _ fun _ h => ⟨rfl, h⟩
    · rintro hist io ⟨rfl, h⟩
      exact (runAll_replicate_write_plain n .empty io h).mono
        (fun _ _ hr => ⟨hr.1.trans (Nat.zero_add n), hr.2⟩) fun _ _ hf => hf
  refine (hrun .powerOn trivial).mono (fun hist io' h => ⟨h.1, ?_⟩) fun _ _ hf => hf
  rw [h.2.writes, BitVec.toNat_ofNat, h.1, ← hn]
  decide

end SecureBoot

/-! Register accesses that succeed: the table has room for the register, and the register holds
what is written to it. -/

namespace SecureBoot

/-- The table of `sec_mmio` has, or has room for, an entry of each of these registers. -/
def SecMmioCtx.HasRoom (addrs : Finset Word) (ctx : SecMmioCtx) : Prop :=
  ∃ touched hist, addrs ⊆ touched ∧ touched.card ≤ kSecMmioRegFileSize ∧ ctx.InStep touched hist

theorem SecMmioCtx.HasRoom.of_empty {addrs : Finset Word} (hcard : addrs.card ≤ kSecMmioRegFileSize)
    {ctx : SecMmioCtx} (hempty : ctx.lastIndex = 0) (hwrites : ctx.writeCount = 0) :
    ctx.HasRoom addrs := by
  refine ⟨addrs, .empty, Finset.Subset.refl _, hcard, ⟨fun i hi => ?_, fun i hi => ?_, ?_⟩, ?_, ?_⟩
  · exact absurd (hempty ▸ hi) i.not_lt_zero
  · exact absurd (hempty ▸ hi) i.not_lt_zero
  · exact fun _ _ h => absurd h (by simp [SecMmioHistory.empty])
  · exact fun _ h => absurd h Bool.false_ne_true
  · exact hwrites

/-- A register that holds what is written to it. -/
structure Hw.Holds (hw : Hw) (addr : Word) : Prop where
  writable : hw.readOnly addr = none
  written : ∀ regs value, hw.busWrite regs addr value addr = value

section

variable {hw : Hw} {addrs : Finset Word} {addr : Word} {io : Io}

theorem run_secMmioRead32_of_room (hw : Hw) (haddr : addr ∈ addrs) (h : io.secMmio.HasRoom addrs) :
    ∃ ctx, ctx.HasRoom addrs ∧
      (secMmioRead32 hw addr).run io = .ok (io.read hw addr) (io.setSecMmio ctx) := by
  obtain ⟨touched, hist, hsub, hcard, hstep⟩ := h
  have hnext := triple_secMmioRead32 hw hcard (hsub haddr) io hstep
  rw [run_secMmioRead32] at hnext ⊢
  simp only [if_pos (hstep.records.search_lt hcard hstep.within (hsub haddr))] at hnext ⊢
  exact ⟨_, ⟨touched, _, hsub, hcard, hnext⟩, rfl⟩

theorem run_secMmioWrite32_of_room (hholds : hw.Holds addr) (haddr : addr ∈ addrs)
    (h : io.secMmio.HasRoom addrs) (value : Word) :
    ∃ ctx, ctx.HasRoom addrs ∧ (secMmioWrite32 hw addr value).run io =
      .ok () ((io.write hw addr value).setSecMmio ctx) := by
  obtain ⟨touched, hist, hsub, hcard, hstep⟩ := h
  have hread : (io.write hw addr value).read hw addr = value := by
    rw [Io.read, hholds.writable]
    exact hholds.written _ _
  have hrun : (secMmioWrite32 hw addr value).run io =
      (secMmioRecordWrite hw addr value).run (io.write hw addr value) := rfl
  have hnext := triple_secMmioRecordWrite hw hcard (hsub haddr) value (io.write hw addr value) hstep
  rw [hrun]
  rw [run_secMmioRecordWrite] at hnext ⊢
  simp only [Io.secMmio_write, hread, if_true,
    if_pos (hstep.records.search_lt hcard hstep.within (hsub haddr))] at hnext ⊢
  exact ⟨_, ⟨touched, _, hsub, hcard, hnext⟩, rfl⟩

end

/-! ### Programs that return -/

/-- A program that returns and keeps a property of the `sec_mmio` table. -/
def Succeeds {α : Type} (P : SecMmioCtx → Prop) (x : Drv α) (Q : α → Prop) : Prop :=
  Hoare.Triple (fun io => P io.secMmio) x (fun a io => Q a ∧ P io.secMmio) fun _ _ => False

section Succeeds

variable {hw : Hw} {addrs : Finset Word} {addr : Word} {P : SecMmioCtx → Prop}

theorem Succeeds.bind {α β : Type} {x : Drv α} {f : α → Drv β} {Q : α → Prop} {R : β → Prop}
    (hx : Succeeds P x Q) (hf : ∀ a, Q a → Succeeds P (f a) R) : Succeeds P (x >>= f) R :=
  Hoare.Triple.bind hx fun a => .of_pre fun hQ => hf a hQ

theorem succeeds_absMmioWrite32 (addr value : Word) :
    Succeeds P (absMmioWrite32 hw addr value) fun _ => True :=
  .modify _ fun _ hP => ⟨trivial, hP⟩

theorem succeeds_secMmioRead32 (haddr : addr ∈ addrs) :
    Succeeds (SecMmioCtx.HasRoom addrs) (secMmioRead32 hw addr) fun _ => True := by
  intro io hroom
  obtain ⟨ctx, hctx, hrun⟩ := run_secMmioRead32_of_room hw haddr hroom
  rw [hrun]
  exact ⟨trivial, hctx⟩

theorem succeeds_secMmioWrite32 (hholds : hw.Holds addr) (haddr : addr ∈ addrs) (value : Word) :
    Succeeds (SecMmioCtx.HasRoom addrs) (secMmioWrite32 hw addr value) fun _ => True := by
  intro io hroom
  obtain ⟨ctx, hctx, hrun⟩ := run_secMmioWrite32_of_room hholds haddr hroom value
  rw [hrun]
  exact ⟨trivial, hctx⟩

end Succeeds

end SecureBoot
