import SecureBoot.SecMmio.Table

/-! What a driver leaves alone. A driver is known by the registers that it writes and
the transactions that it starts on the data partition of the flash; every other
register keeps its value on hardware where a write reaches one register only. -/

namespace SecureBoot

/-- No write to another register changes this one. -/
def Hw.Isolates (hw : Hw) (addr : Word) : Prop :=
  ∀ regs a v, a ≠ addr → hw.busWrite regs a v addr = regs addr

/-- From `io` to `io'` only registers in `A` are written and only transactions in `T`
reach the data partition. -/
structure Io.Frame (hw : Hw) (A : Word → Prop) (T : TransactionParams → Prop) (io io' : Io) :
    Prop where
  bus : ∃ new, io'.bus = new ++ io.bus ∧ ∀ w ∈ new, A w.1
  dataOps : ∃ new, io'.dataOps = new ++ io.dataOps ∧ ∀ op ∈ new, T op
  regs : ∀ a, hw.Isolates a → ¬ A a → io'.regs a = io.regs a

section

variable {hw : Hw} {A : Word → Prop} {T : TransactionParams → Prop}

/-- A step that changes neither bus, registers nor the data partition. -/
theorem Io.Frame.of_eq {io io' : Io} (hbus : io'.bus = io.bus) (hops : io'.dataOps = io.dataOps)
    (hregs : io'.regs = io.regs) : io.Frame hw A T io' :=
  ⟨⟨[], hbus, by simp⟩, ⟨[], hops, by simp⟩, fun a _ _ => congrFun hregs a⟩

theorem Io.Frame.trans {s t u : Io} (h : s.Frame hw A T t) (h' : t.Frame hw A T u) :
    s.Frame hw A T u := by
  obtain ⟨⟨b, hb, hbA⟩, ⟨o, ho, hoT⟩, hr⟩ := h
  obtain ⟨⟨b', hb', hbA'⟩, ⟨o', ho', hoT'⟩, hr'⟩ := h'
  refine ⟨⟨b' ++ b, by rw [hb', hb, List.append_assoc], ?_⟩,
    ⟨o' ++ o, by rw [ho', ho, List.append_assoc], ?_⟩, fun a hi ha => ?_⟩
  · exact List.forall_mem_append.mpr ⟨hbA', hbA⟩
  · exact List.forall_mem_append.mpr ⟨hoT', hoT⟩
  · rw [hr' a hi ha, hr a hi ha]

instance : IsPreorder Io (Io.Frame hw A T) where
  refl _ := .of_eq rfl rfl rfl
  trans _ _ _ := Io.Frame.trans

variable (hw A T) in
/-- The program writes only registers in `A` and starts only transactions in `T`. -/
abbrev Frames {α : Type} (x : Drv α) : Prop := Hoare.Moves (Io.Frame hw A T) x

theorem Io.Frame.read {io io' : Io} (h : io.Frame hw A T io') {a : Word} (hi : hw.Isolates a)
    (ha : ¬ A a) : io'.read hw a = io.read hw a := by
  rw [Io.read, Io.read, h.regs a hi ha]

/-! ### Register access -/

theorem frames_absMmioRead32 (addr : Word) : Frames hw A T (absMmioRead32 hw addr) :=
  .bind .get fun _ => .pure _

theorem frames_absMmioSample32 (addr : Word) : Frames hw A T (absMmioSample32 hw addr) :=
  .modifyGet _ fun _ => .of_eq rfl rfl rfl

theorem frames_absMmioPoll32 (addr : Word) (done : Word → Bool) :
    Frames hw A T (absMmioPoll32 hw addr done) :=
  .bind (frames_absMmioSample32 addr) fun _ => .ite _ (.pure _) (.throw _)

theorem frames_absMmioWrite32 {addr : Word} (value : Word) (h : A addr) :
    Frames hw A T (absMmioWrite32 hw addr value) := by
  refine .modify _ fun io => ⟨⟨[(addr, value)], rfl, by simpa using h⟩, ⟨[], rfl, by simp⟩, ?_⟩
  intro a hi ha
  exact hi _ _ _ fun he => ha (he ▸ h)

theorem frames_hardenedCheck (c : Prop) [Decidable c] (trap : Trap) :
    Frames hw A T (hardenedCheck c trap) := .ite _ (.pure _) (.throw _)

theorem frames_returnIfError {x rest : Drv RomError} (hx : Frames hw A T x)
    (hrest : Frames hw A T rest) : Frames hw A T (returnIfError x rest) :=
  .bind hx fun _ => .ite _ hrest (.pure _)

/-! ### sec_mmio -/

theorem frames_modifySecMmio (f : SecMmioCtx → SecMmioCtx) : Frames hw A T (modifySecMmio f) :=
  .modify _ fun _ => .of_eq rfl rfl rfl

theorem frames_upsertRegister (addr value : Word) : Frames hw A T (upsertRegister addr value) :=
  .bind .get fun _ => .bind (frames_modifySecMmio _) fun _ => frames_hardenedCheck _ _

theorem frames_secMmioReadback (addr value : Word) : Frames hw A T (secMmioReadback hw addr value) :=
  .bind (frames_absMmioRead32 _) fun _ => frames_hardenedCheck _ _

theorem frames_secMmioRead32 (addr : Word) : Frames hw A T (secMmioRead32 hw addr) :=
  .bind (frames_absMmioRead32 _) fun _ => .bind (frames_upsertRegister _ _) fun _ =>
    .bind (frames_secMmioReadback _ _) fun _ => .pure _

theorem frames_secMmioRecordWrite (addr value : Word) :
    Frames hw A T (secMmioRecordWrite hw addr value) :=
  .bind (frames_upsertRegister _ _) fun _ => .bind (frames_secMmioReadback _ _) fun _ =>
    frames_modifySecMmio _

theorem frames_secMmioWrite32 {addr : Word} (value : Word) (h : A addr) :
    Frames hw A T (secMmioWrite32 hw addr value) :=
  .bind (frames_absMmioWrite32 value h) fun _ => frames_secMmioRecordWrite _ _

theorem frames_secMmioWrite32Shadowed {addr : Word} (value : Word) (h : A addr) :
    Frames hw A T (secMmioWrite32Shadowed hw addr value) :=
  .bind (frames_absMmioWrite32 value h) fun _ => .bind (frames_absMmioWrite32 value h) fun _ =>
    frames_secMmioRecordWrite _ _

/-! ### A write that returns has been read back -/

theorem read_secMmioRecordWrite (addr value : Word) :
    Hoare.Triple (fun _ => True) (secMmioRecordWrite hw addr value)
      (fun _ io => io.read hw addr = value) (fun _ _ => True) := by
  intro io _
  rw [run_secMmioRecordWrite]
  simp only
  split_ifs with hroom hread
  · exact hread
  · trivial
  · trivial

theorem read_secMmioWrite32 (addr value : Word) :
    Hoare.Triple (fun _ => True) (secMmioWrite32 hw addr value)
      (fun _ io => io.read hw addr = value) (fun _ _ => True) :=
  .bind .top fun _ => read_secMmioRecordWrite _ _

theorem read_secMmioWrite32Shadowed (addr value : Word) :
    Hoare.Triple (fun _ => True) (secMmioWrite32Shadowed hw addr value)
      (fun _ io => io.read hw addr = value) (fun _ _ => True) :=
  .bind .top fun _ => .bind .top fun _ => read_secMmioRecordWrite _ _

end

end SecureBoot
