import SecureBoot.Drivers.Otbn

/-! Which applications the two versions of `otbn_load_app` take. The version of the silicon
creator code rejects a malformed application before it touches the device. The version of the
crypto library tests a hardened boolean as a C truth value, and both hardened booleans are
nonzero. -/

namespace SecureBoot

open BusM

/-- The instruction range is not empty, and neither range runs backwards. -/
def SiliconCreator.OtbnApp.WellFormed (app : OtbnApp) : Prop :=
  app.imem_start < app.imem_end ∧ app.dmem_data_start ≤ app.dmem_data_end

/-- An access that leaves the memories of OTBN as they are: any read, and a write that is neither
a command nor in one of the memories. -/
def KeepsOtbnMemories : BusAccess → Prop
  | .read32 _ _ | .read8 _ _ => True
  | a => a.addr ≠ kOtbnCmd ∧ kOtbnIMemSizeBytes ≤ a.addr - kOtbnImem ∧
    kOtbnDMemSizeBytes ≤ a.addr - kOtbnDmem

/-- The program returns an error and leaves the memories of OTBN as they are. -/
def FailsUnchanged (ok : Word) (x : BusM Word) (past : List BusAccess) : Prop :=
  ∃ error past', x.run past = .ok error past' ∧ error ≠ ok ∧ Adds KeepsOtbnMemories past past'

/-- The program gets past its checks to the device. -/
def TouchesBus {α : Type} (x : BusM α) (past : List BusAccess) : Prop :=
  Hoare.final (x.run past) ≠ past

/-! ### Whatever the drivers do, they extend the past -/

section Extends

variable {α β : Type}

abbrev Extends (x : BusM α) : Prop := Only (fun _ => True) x

theorem extends_otbnWriteLoop (dest_addr : Word) (src : Word → Word) (num_words : Word) (n : ℕ)
    (i : Word) : Extends (otbnWriteLoop dest_addr src num_words n i) := by
  induction n generalizing i with
  | zero => exact .pure _
  | succ n ih => exact .bind (only_write32 trivial) fun _ => .bind (only_check _) fun _ => ih _

theorem extends_otbnMemWrite (ok bad memory mem_size rnd offset_bytes : Word) (src : Word → Word)
    (num_words : Word) :
    Extends (otbnMemWrite ok bad memory mem_size rnd offset_bytes src num_words) :=
  only_returnUnless (.pure _) (.bind (extends_otbnWriteLoop _ _ _ _ _) fun _ => .pure _)

variable (dev : BusDevices)

namespace Cryptolib

theorem extends_otbnBusyWaitForDone : Extends (otbnBusyWaitForDone dev) :=
  .bind (only_poll fun _ => trivial) fun _ => .bind (only_read32 fun _ => trivial) fun _ => .ite _
    (.bind (only_read32 fun _ => trivial) fun _ => .bind (only_check _) fun _ =>
      .bind (only_read32 fun _ => trivial) fun _ => .bind (only_check _) fun _ => .pure _)
    (.pure _)

theorem extends_otbnAssertIdle : Extends (otbnAssertIdle dev) :=
  .bind (only_read32 fun _ => trivial) fun _ => .ite _
    (.bind (only_read32 fun _ => trivial) fun _ => .bind (only_check _) fun _ => .pure _) (.pure _)

theorem extends_otbnSecWipe (cmd : Word) : Extends (otbnSecWipe dev cmd) :=
  only_returnUnless (extends_otbnAssertIdle dev) (.bind (only_write32 trivial) fun _ =>
    only_returnUnless (extends_otbnBusyWaitForDone dev) (.pure _))

end Cryptolib

namespace SiliconCreator

theorem extends_otbnCmdRun (cmd : Word) (error : RomError) : Extends (otbnCmdRun dev cmd error) :=
  .bind (only_write32 trivial) fun _ => .bind (only_write32 trivial) fun _ =>
    .bind (only_poll fun _ => trivial) fun _ => .bind (only_write32 trivial) fun _ =>
    .bind (only_read32 fun _ => trivial) fun _ => .bind (only_read32 fun _ => trivial) fun _ => .ite _
    (.bind (only_read32 fun _ => trivial) fun _ => .bind (only_check _) fun _ => .pure _) (.pure _)

theorem extends_otbnBusyWaitForDone : Extends (otbnBusyWaitForDone dev) :=
  .bind (only_poll fun _ => trivial) fun _ => .ite _
    (.bind (only_read32 fun _ => trivial) fun _ => .bind (only_check _) fun _ => .pure _) (.pure _)

end SiliconCreator

/-! ### Programs that do something -/

/-- The program does at least one access. -/
def Accesses (x : BusM α) : Prop := ∀ past, past.length < (Hoare.final (x.run past)).length

theorem Extends.length_le {x : BusM α} (h : Extends x) (past : List BusAccess) :
    past.length ≤ (Hoare.final (x.run past)).length := by
  obtain ⟨new, heq, -⟩ := h.final past
  rw [heq, List.length_append]
  exact Nat.le_add_left _ _

theorem accesses_read32 (addr : Word) : Accesses (read32 dev addr) := by
  intro past
  rw [run_read32]
  exact Nat.lt_succ_self _

theorem Accesses.bind {x : BusM α} {f : α → BusM β} (hx : Accesses x) (hf : ∀ a, Extends (f a)) :
    Accesses (x >>= f) := by
  intro past
  have hlt := hx past
  rw [EStateM.run_bind]
  cases hrun : x.run past with
  | ok a past' =>
    rw [hrun] at hlt
    exact hlt.trans_le ((hf a).length_le past')
  | error t past' =>
    rw [hrun] at hlt
    exact hlt

theorem accesses_poll (addr : Word) (done : Word → Bool) : Accesses (poll dev addr done) := by
  rw [poll]
  cases dev.patience with
  | zero => exact (accesses_read32 dev addr).bind fun _ => .ite _ (.pure _) (.throw _)
  | succ n =>
    exact (accesses_read32 dev addr).bind fun _ => .ite _ (.pure _)
      (.bind (only_pollFrom (fun _ => trivial) n) fun _ => .pure _)

theorem Accesses.touchesBus {x : BusM α} (h : Accesses x) (past : List BusAccess) :
    TouchesBus x past := by
  intro heq
  have hlt := h past
  rw [heq] at hlt
  exact Nat.lt_irrefl _ hlt

end Extends

/-! ### The check of the silicon creator code -/

namespace SiliconCreator

variable (dev : BusDevices) (mem : Word → Word) (rnd_imem rnd_dmem : Word) (ctx : Otbn)
  (app : OtbnApp)

theorem checkAppAddressRanges_eq : checkAppAddressRanges app = true ↔ app.WellFormed := by
  rw [checkAppAddressRanges, OtbnApp.WellFormed]
  simp only [BitVec.le_def, BitVec.lt_def]
  split_ifs with h1 h2
  · exact iff_of_false not_false fun h => absurd h.1 (by omega)
  · exact iff_of_false not_false fun h => absurd h.2 (by omega)
  · exact iff_of_true rfl ⟨by omega, by omega⟩

/-- A malformed application leaves the bus and the context alone. -/
theorem run_otbnLoadApp_malformed (h : ¬app.WellFormed) (past : List BusAccess) :
    (otbnLoadApp dev mem rnd_imem rnd_dmem ctx app).run past =
      .ok (kErrorOtbnInvalidArgument, ctx) past := by
  have hcheck : checkAppAddressRanges app = false :=
    Bool.eq_false_iff.2 (mt (checkAppAddressRanges_eq app).1 h)
  rw [otbnLoadApp, hcheck]
  rfl

theorem accesses_otbnLoadApp (h : app.WellFormed) :
    Accesses (otbnLoadApp dev mem rnd_imem rnd_dmem ctx app) := by
  rw [otbnLoadApp, (checkAppAddressRanges_eq app).2 h, Bool.not_true, if_neg Bool.false_ne_true]
  refine Accesses.bind (Accesses.bind (accesses_poll dev _ _) fun _ => .ite _
    (.bind (only_read32 fun _ => trivial) fun _ => .bind (only_check _) fun _ => .pure _) (.pure _))
    fun _ => .ite _ (.pure _) (.bind ?_ fun _ => .ite _ (.pure _) (.pure _))
  exact only_returnUnless (extends_otbnCmdRun dev _ _) <|
    only_returnUnless (extends_otbnMemWrite _ _ _ _ _ _ _ _) <|
    only_returnUnless (extends_otbnCmdRun dev _ _) <|
    .ite _ (extends_otbnMemWrite _ _ _ _ _ _ _ _) (.pure _)

theorem touchesBus_otbnLoadApp_iff (past : List BusAccess) :
    TouchesBus (otbnLoadApp dev mem rnd_imem rnd_dmem ctx app) past ↔ app.WellFormed := by
  by_cases h : app.WellFormed
  · exact iff_of_true ((accesses_otbnLoadApp dev mem rnd_imem rnd_dmem ctx app h).touchesBus past) h
  · refine iff_of_false (fun htouch => htouch ?_) h
    rw [run_otbnLoadApp_malformed dev mem rnd_imem rnd_dmem ctx app h]
    rfl

end SiliconCreator

/-! ### The check of the crypto library -/

namespace Cryptolib

variable (dev : BusDevices) (mem : Word → Word) (app : OtbnApp)

/-- The hardened boolean is never a C `false`. -/
theorem checkAppAddressRanges_ne_zero : checkAppAddressRanges app ≠ 0 := by
  rw [checkAppAddressRanges]
  split_ifs <;> decide

/-- The part of `otbn_load_app` after the two checks for an idle device and the one in the first
wipe. -/
theorem otbnLoadApp_eq : ∃ rest, Extends rest ∧
    otbnLoadApp dev mem app = returnUnless kOtbnErrorOk (otbnAssertIdle dev)
      (returnUnless kOtbnErrorOk (otbnImemSecWipe dev) rest) := by
  refine ⟨_, ?_, by rw [otbnLoadApp, if_neg (checkAppAddressRanges_ne_zero app)]⟩
  exact only_returnUnless (extends_otbnSecWipe dev _) <|
    only_returnUnless (extends_otbnMemWrite _ _ _ _ _ _ _ _) <|
    .ite _ (only_returnUnless (extends_otbnMemWrite _ _ _ _ _ _ _ _) (.pure _)) (.pure _)

theorem accesses_otbnLoadApp : Accesses (otbnLoadApp dev mem app) := by
  obtain ⟨rest, hrest, heq⟩ := otbnLoadApp_eq dev mem app
  rw [heq]
  exact Accesses.bind (Accesses.bind (accesses_read32 dev _) fun _ => .ite _
    (.bind (only_read32 fun _ => trivial) fun _ => .bind (only_check _) fun _ => .pure _) (.pure _))
    fun _ => .ite _ (only_returnUnless (extends_otbnSecWipe dev _) hrest) (.pure _)

/-- The past after one more read of the status. -/
def readsStatus (past : List BusAccess) : List BusAccess :=
  .read32 kOtbnStatus (dev.answer past kOtbnStatus) :: past

theorem run_readsStatus (past : List BusAccess) :
    (read32 dev kOtbnStatus).run past =
      .ok (dev.answer past kOtbnStatus) (readsStatus dev past) := rfl

/-- `otbn_assert_idle` reads the status, and once more if it was idle. -/
theorem run_otbnAssertIdle (past : List BusAccess) :
    (otbnAssertIdle dev).run past =
      let first := readsStatus dev past
      let second := readsStatus dev first
      if dev.answer past kOtbnStatus = kOtbnStatusIdle then
        if dev.answer first kOtbnStatus = kOtbnStatusIdle then .ok kOtbnErrorOk second
        else .error .hardened second
      else .ok kOtbnErrorUnavailable first := by
  have hres : ∀ status : Word,
      kOtbnErrorOk ^^^ ~~~kOtbnStatusIdle ^^^ ~~~status = status := by
    intro status
    rw [show kOtbnErrorOk ^^^ ~~~kOtbnStatusIdle = BitVec.allOnes 32 by decide,
      BitVec.allOnes_xor, BitVec.not_not]
  rw [otbnAssertIdle, run_bind_ok _ (run_readsStatus dev past), hres]
  by_cases hidle : dev.answer past kOtbnStatus = kOtbnStatusIdle
  · rw [if_pos hidle, if_pos hidle, run_bind_ok _ (run_readsStatus dev _), EStateM.run_bind,
      run_check, hidle]
    split_ifs <;> rfl
  · rw [if_neg hidle, if_neg hidle]
    rfl

/-- A wipe that finds the device idle gives its command. -/
theorem adds_otbnSecWipe (cmd : Word) {past past' : List BusAccess}
    (h : (otbnAssertIdle dev).run past = .ok kOtbnErrorOk past') :
    Adds (fun _ => True) (.write32 kOtbnCmd cmd :: past')
      (Hoare.final ((otbnSecWipe dev cmd).run past)) := by
  rw [otbnSecWipe, run_returnUnless_ok _ _ h, run_bind_ok _ (run_write32 _ _ _)]
  exact Hoare.Moves.final (only_returnUnless (extends_otbnBusyWaitForDone dev) (.pure _)) _

/-- The device is not idle when the load starts, or not any more when the wipe does, and no two
reads of the status in one check differ. -/
def StopsBeforeWipe (past : List BusAccess) : Prop :=
  let first := readsStatus dev past
  let second := readsStatus dev first
  dev.answer past kOtbnStatus ≠ kOtbnStatusIdle ∨
    dev.answer first kOtbnStatus = kOtbnStatusIdle ∧
    dev.answer second kOtbnStatus ≠ kOtbnStatusIdle

theorem adds_readsStatus (past : List BusAccess) :
    Adds KeepsOtbnMemories past (readsStatus dev past) := .one trivial past

/-- Every application is loaded, unless the device is not idle. -/
theorem failsUnchanged_otbnLoadApp_iff (past : List BusAccess) :
    FailsUnchanged kOtbnErrorOk (otbnLoadApp dev mem app) past ↔ StopsBeforeWipe dev past := by
  obtain ⟨rest, hrest, heq⟩ := otbnLoadApp_eq dev mem app
  have hne : kOtbnErrorUnavailable ≠ kOtbnErrorOk := by decide
  have hfirst := run_otbnAssertIdle dev past
  have hsecond := run_otbnAssertIdle dev (readsStatus dev (readsStatus dev past))
  have htwo : Adds KeepsOtbnMemories past (readsStatus dev (readsStatus dev past)) :=
    trans_of (Adds _) (adds_readsStatus dev past) (adds_readsStatus dev _)
  rw [heq, StopsBeforeWipe]
  simp only at hfirst hsecond ⊢
  generalize readsStatus dev (readsStatus dev past) = past₂ at *
  by_cases h1 : dev.answer past kOtbnStatus = kOtbnStatusIdle
  · rw [if_pos h1] at hfirst
    by_cases h2 : dev.answer (readsStatus dev past) kOtbnStatus = kOtbnStatusIdle
    · rw [if_pos h2] at hfirst
      by_cases h3 : dev.answer past₂ kOtbnStatus = kOtbnStatusIdle
      · rw [if_pos h3] at hsecond
        refine iff_of_false ?_ fun h => h.elim (absurd h1) fun h => h.2 h3
        rintro ⟨error, past', hrun, -, hadds⟩
        rw [run_returnUnless_ok _ _ hfirst, otbnImemSecWipe] at hrun
        by_cases h4 : dev.answer (readsStatus dev past₂) kOtbnStatus = kOtbnStatusIdle
        · rw [if_pos h4] at hsecond
          have hwipe := Adds.bind (f := fun error => if error = kOtbnErrorOk then rest
            else pure error) (adds_otbnSecWipe dev kOtbnCmdSecWipeImem hsecond)
            fun _ => .ite _ hrest (.pure _)
          rw [← returnUnless, hrun] at hwipe
          have hmid : Adds KeepsOtbnMemories past (readsStatus dev (readsStatus dev past₂)) :=
            trans_of (Adds _) htwo
              (trans_of (Adds _) (adds_readsStatus dev past₂) (adds_readsStatus dev _))
          exact (hadds.of_later hmid hwipe).1 rfl
        · rw [if_neg h4] at hsecond
          rw [otbnSecWipe, run_returnUnless_error _ _ (run_returnUnless_error _ _ hsecond)] at hrun
          cases hrun
      · rw [if_neg h3] at hsecond
        refine iff_of_true ⟨_, _, ?_, hne, trans_of (Adds _) htwo (adds_readsStatus dev past₂)⟩
          (.inr ⟨h2, h3⟩)
        rw [run_returnUnless_ok _ _ hfirst]
        exact run_returnUnless_ne _ _ (run_returnUnless_ne _ _ hsecond hne) hne
    · rw [if_neg h2] at hfirst
      refine iff_of_false ?_ fun h => h.elim (absurd h1) fun h => h2 h.1
      rintro ⟨error, past', hrun, -⟩
      rw [run_returnUnless_error _ _ hfirst] at hrun
      cases hrun
  · rw [if_neg h1] at hfirst
    exact iff_of_true
      ⟨_, _, run_returnUnless_ne _ _ hfirst hne, hne, adds_readsStatus dev past⟩ (.inl h1)

end Cryptolib

/-! ### The two versions -/

/-- What the comments promise: a malformed application is rejected without a change to the device,
and the same applications get past the checks of the two versions. -/
structure OtbnLoadMeetsSpec (dev : BusDevices) (mem : Word → Word) (rnd_imem rnd_dmem : Word)
    (ctx : SiliconCreator.Otbn) (app : Cryptolib.OtbnApp) (past : List BusAccess) : Prop where
  malformed : ¬app.WellFormed → FailsUnchanged kOtbnErrorOk (Cryptolib.otbnLoadApp dev mem app) past
  accepts_iff : TouchesBus (Cryptolib.otbnLoadApp dev mem app) past ↔
    TouchesBus (SiliconCreator.otbnLoadApp dev mem rnd_imem rnd_dmem ctx app.toOtbnApp) past

/-- The crypto library does what the comments promise for the well-formed applications only. A
malformed one fails without a change only where a well-formed one does too: on a device that is
not idle. -/
theorem otbn_load_app_meets_spec_iff (dev : BusDevices) (mem : Word → Word)
    (rnd_imem rnd_dmem : Word) (ctx : SiliconCreator.Otbn) (app : Cryptolib.OtbnApp)
    (past : List BusAccess) :
    (OtbnLoadMeetsSpec dev mem rnd_imem rnd_dmem ctx app past ↔ app.WellFormed) ∧
    (FailsUnchanged kOtbnErrorOk (Cryptolib.otbnLoadApp dev mem app) past ↔
      Cryptolib.StopsBeforeWipe dev past) := by
  have htouch := (Cryptolib.accesses_otbnLoadApp dev mem app).touchesBus past
  have hcreator := SiliconCreator.touchesBus_otbnLoadApp_iff dev mem rnd_imem rnd_dmem ctx
    app.toOtbnApp past
  refine ⟨⟨fun h => hcreator.1 (h.accepts_iff.1 htouch), fun h => ⟨fun hno => absurd h hno, ?_⟩⟩,
    Cryptolib.failsUnchanged_otbnLoadApp_iff dev mem app past⟩
  exact iff_of_true htouch (hcreator.2 h)

/-- With an empty instruction range the crypto library wipes both memories and reports success,
where the silicon creator code rejects the application. -/
theorem otbn_load_app_empty_range :
    let dev : BusDevices := ⟨fun _ _ => 0, 0⟩
    let app : Cryptolib.OtbnApp := ⟨⟨0x1000, 0x1000, 0x2000, 0x2000⟩, 0⟩
    let ctx : SiliconCreator.Otbn := ⟨app.toOtbnApp, kHardenedBoolFalse⟩
    (∃ past', (Cryptolib.otbnLoadApp dev (fun _ => 0) app).run [] = .ok kOtbnErrorOk past' ∧
      .write32 kOtbnCmd kOtbnCmdSecWipeImem ∈ past' ∧
      .write32 kOtbnCmd kOtbnCmdSecWipeDmem ∈ past') ∧
    (SiliconCreator.otbnLoadApp dev (fun _ => 0) 0 0 ctx app.toOtbnApp).run [] =
      .ok (kErrorOtbnInvalidArgument, ctx) [] ∧
    ¬OtbnLoadMeetsSpec dev (fun _ => 0) 0 0 ctx app [] := by
  refine ⟨⟨_, rfl, ?_, ?_⟩, rfl, fun h => ?_⟩
  · decide
  · decide
  · have hmalformed := h.malformed fun happ => absurd happ.1 (by decide)
    have hstops := (Cryptolib.failsUnchanged_otbnLoadApp_iff _ _ _ _).1 hmalformed
    exact hstops.elim (absurd rfl) fun hwipe => hwipe.2 rfl

end SecureBoot
