import SecureBoot.Epmp.RomEpmp

/-! What the ePMP of the ROM protects. The entries form a table, the purpose of the
configuration; the registers hold the table after initialization and after every
unlock, so each entry matches the region the table gives it and only the text of
the ROM, the unlocked text of the ROM_EXT and the debug ROM can be executed. -/

namespace SecureBoot

open Pmp (Csrs Cfg napotAddr)

/-- The regions that the calls of the unlock functions have opened so far. -/
structure Unlocked where
  rx : Option EpmpRegion
  r : Option EpmpRegion

def Unlocked.call (u : Unlocked) : EpmpUnlock → Unlocked
  | .romExtRx region => { u with rx := some region }
  | .romExtR region => { u with r := some region }

def unlocked (calls : List EpmpUnlock) : Unlocked := calls.foldl Unlocked.call ⟨none, none⟩

/-- The entries the ROM means to configure, given the regions that are unlocked. -/
def epmpTable (rom : RomSymbols) (lcState : LifecycleState) (u : Unlocked) :
    Fin 16 → Option EpmpEntry
  | 1 => some ⟨.tor, .lockedReadExecute, rom.text⟩
  | 2 => some ⟨.napot, .lockedReadOnly, romRegion⟩
  | 4 => u.rx.map fun region => ⟨.tor, .lockedReadExecute, region⟩
  | 5 => some ⟨.napot, .lockedReadOnly, eflashRegion⟩
  | 6 => u.r.map fun region => ⟨.napot, .lockedReadOnly, region⟩
  | 11 => some ⟨.tor, .lockedReadWrite, mmioRegion⟩
  | 13 => some ⟨.napot, debugRomAccess lcState, debugRomRegion⟩
  | 14 => some ⟨.na4, .lockedNoAccess, rom.stackGuard⟩
  | 15 => some ⟨.napot, .lockedReadWrite, ramRegion⟩
  | _ => none

/-- The CSRs are configured as a table says. -/
structure Configured (s : Csrs) (table : Fin 16 → Option EpmpEntry) : Prop where
  rlb : s.rlb = true
  mmwp : s.mmwp = true
  entry : ∀ i e, table i = some e → e.In s i
  free : ∀ i, table i = none → s.cfg i = .off

namespace Configured

variable {s s' : Csrs} {table : Fin 16 → Option EpmpEntry}

theorem matches_iff (h : Configured s table) {i : Fin 16} {e : EpmpEntry} (he : table i = some e)
    (halign : e.LegallyAligned) (a : Word) : s.Matches i a ↔ a ∈ e.region :=
  (h.entry i e he).matches_iff halign a

theorem not_matches (h : Configured s table) {i : Fin 16} (hi : table i = none) (a : Word) :
    ¬ s.Matches i a := by
  rw [Csrs.Matches, h.free i hi]
  exact not_false

/-- Configuring one entry of the registers configures one entry of the table, if the
address registers of the other entries stay as they are. -/
theorem update (h : Configured s table) {i : Fin 16} {e : EpmpEntry} (hrlb : s'.rlb = s.rlb)
    (hmmwp : s'.mmwp = s.mmwp) (hcfg : s'.cfg = Function.update s.cfg i (epmpCfg e.mode e.perm))
    (haddr : s'.addr i = e.addr)
    (hstart : e.mode = .tor → s'.prevAddr i = e.region.start >>> 2)
    (hframe : ∀ j e', table j = some e' → j ≠ i →
      s'.addr j = s.addr j ∧ (e'.mode = .tor → s'.prevAddr j = s.prevAddr j)) :
    Configured s' (Function.update table i (some e)) where
  rlb := hrlb.trans h.rlb
  mmwp := hmmwp.trans h.mmwp
  entry j e' he' := by
    by_cases hji : j = i
    · subst hji
      rw [Function.update_self, Option.some.injEq] at he'
      subst he'
      exact ⟨by rw [hcfg, Function.update_self], haddr, hstart⟩
    · rw [Function.update_of_ne hji] at he'
      obtain ⟨hcfg', haddr', hstart'⟩ := h.entry j e' he'
      obtain ⟨hsame, hprev⟩ := hframe j e' he' hji
      exact ⟨by rw [hcfg, Function.update_of_ne hji, hcfg'], hsame.trans haddr',
        fun htor => (hprev htor).trans (hstart' htor)⟩
  free j hj := by
    by_cases hji : j = i
    · rw [hji, Function.update_self] at hj
      cases hj
    · rw [Function.update_of_ne hji] at hj
      rw [hcfg, Function.update_of_ne hji, h.free j hj]

end Configured

section Table

variable (rom : RomSymbols) (lcState : LifecycleState) (u : Unlocked)

theorem epmpTable_romExtRx (region : EpmpRegion) :
    epmpTable rom lcState (u.call (.romExtRx region)) =
      Function.update (epmpTable rom lcState u) 4
        (some ⟨.tor, .lockedReadExecute, region⟩) := by
  funext i
  fin_cases i <;> rfl

theorem epmpTable_romExtR (region : EpmpRegion) :
    epmpTable rom lcState (u.call (.romExtR region)) =
      Function.update (epmpTable rom lcState u) 6 (some ⟨.napot, .lockedReadOnly, region⟩) := by
  funext i
  fin_cases i <;> rfl

end Table

theorem epmpAtRomInit_configured (rom : RomSymbols) (lcState : LifecycleState) :
    Configured (epmpAtRomInit rom lcState).csrs (epmpTable rom lcState ⟨none, none⟩) where
  rlb := rlb_epmpAtRomInit rom lcState
  mmwp := mmwp_epmpAtRomInit rom lcState
  entry i e he := by
    refine ⟨?_, ?_, fun htor => ?_⟩
    · rw [cfg_epmpAtRomInit]
      fin_cases i <;> cases he <;> rfl
    · rw [addr_epmpAtRomInit]
      fin_cases i <;> cases he <;> simp only [EpmpEntry.addr] <;> first | decide | rfl
    · rw [Csrs.prevAddr, addr_epmpAtRomInit]
      fin_cases i <;> cases he <;> cases htor <;> rfl
  free i hi := by
    rw [cfg_epmpAtRomInit]
    fin_cases i <;> first | rfl | cases hi

section Steps

variable {rom : RomSymbols} {lcState : LifecycleState} {u : Unlocked} {m : Epmp}

/-- Entries 3 and 5 have no use for the address registers that entry 4 takes. -/
theorem romEpmpUnlockRomExtRx_configured
    (h : Configured m.csrs (epmpTable rom lcState u)) (region : EpmpRegion) :
    Configured (romEpmpUnlockRomExtRx m region).csrs
      (epmpTable rom lcState (u.call (.romExtRx region))) := by
  have haddr := addr_romEpmpUnlockRomExtRx m region h.rlb
  rw [epmpTable_romExtRx]
  refine h.update (rlb_romEpmpUnlockRomExtRx m region) (mmwp_romEpmpUnlockRomExtRx m region)
    (cfg_romEpmpUnlockRomExtRx m region h.rlb) ?_ (fun _ => ?_) fun j e he hj => ?_
  · rw [haddr, Function.update_self]
    rfl
  · rw [Csrs.prevAddr, haddr]
    rfl
  · have h3 : j ≠ 3 := by
      rintro rfl
      cases he
    refine ⟨by rw [haddr, Function.update_of_ne hj, Function.update_of_ne h3], fun htor => ?_⟩
    have h5 : j ≠ 5 := by
      rintro rfl
      cases he
      cases htor
    rw [Csrs.prevAddr, haddr, Csrs.prevAddr]
    rw [Function.update_of_ne (by omega), Function.update_of_ne (by omega)]

theorem romEpmpUnlockRomExtR_configured
    (h : Configured m.csrs (epmpTable rom lcState u)) (region : EpmpRegion) :
    Configured (romEpmpUnlockRomExtR m region).csrs
      (epmpTable rom lcState (u.call (.romExtR region))) := by
  have haddr := addr_romEpmpUnlockRomExtR m region h.rlb
  rw [epmpTable_romExtR]
  refine h.update (rlb_romEpmpUnlockRomExtR m region) (mmwp_romEpmpUnlockRomExtR m region)
    (cfg_romEpmpUnlockRomExtR m region h.rlb) ?_ (fun htor => by cases htor) fun j e he hj => ?_
  · rw [haddr, Function.update_self]
    rfl
  · refine ⟨by rw [haddr, Function.update_of_ne hj], fun htor => ?_⟩
    have h7 : j ≠ 7 := by
      rintro rfl
      cases he
    rw [Csrs.prevAddr, haddr, Csrs.prevAddr]
    rw [Function.update_of_ne (by omega)]

end Steps

/-- After any calls of the unlock functions the copy agrees with the CSRs and both
hold the table of the regions unlocked. -/
theorem epmpRun_spec (rom : RomSymbols) (lcState : LifecycleState) (calls : List EpmpUnlock) :
    (epmpRun rom lcState calls).Agrees ∧
      Configured (epmpRun rom lcState calls).csrs (epmpTable rom lcState (unlocked calls)) := by
  have hrun (calls : List EpmpUnlock) (m : Epmp) (u : Unlocked) (hm : m.Agrees)
      (hu : Configured m.csrs (epmpTable rom lcState u)) :
      (calls.foldl EpmpUnlock.run m).Agrees ∧
        Configured (calls.foldl EpmpUnlock.run m).csrs
          (epmpTable rom lcState (calls.foldl Unlocked.call u)) := by
    induction calls generalizing m u with
    | nil => exact ⟨hm, hu⟩
    | cons call calls ih =>
      cases call with
      | romExtRx region =>
        exact ih _ _ (romEpmpUnlockRomExtRx_agrees m region hu.rlb hm)
          (romEpmpUnlockRomExtRx_configured hu region)
      | romExtR region =>
        exact ih _ _ (romEpmpUnlockRomExtR_agrees m region hu.rlb hm)
          (romEpmpUnlockRomExtR_configured hu region)
  exact hrun calls _ _ (epmpAtRomInit_agrees rom lcState) (epmpAtRomInit_configured rom lcState)

/-! ### Regions and execution -/

section Exec

variable {rom : RomSymbols} {lcState : LifecycleState} {u : Unlocked}

/-- Case analysis on an entry of the table. -/
@[elab_as_elim]
theorem epmpTable_cases {motive : Fin 16 → EpmpEntry → Prop} {i : Fin 16} {e : EpmpEntry}
    (he : epmpTable rom lcState u i = some e)
    (text : motive 1 ⟨.tor, .lockedReadExecute, rom.text⟩)
    (romMem : motive 2 ⟨.napot, .lockedReadOnly, romRegion⟩)
    (romExtText : ∀ region ∈ u.rx, motive 4 ⟨.tor, .lockedReadExecute, region⟩)
    (eflash : motive 5 ⟨.napot, .lockedReadOnly, eflashRegion⟩)
    (romExt : ∀ region ∈ u.r, motive 6 ⟨.napot, .lockedReadOnly, region⟩)
    (mmio : motive 11 ⟨.tor, .lockedReadWrite, mmioRegion⟩)
    (debugRom : motive 13 ⟨.napot, debugRomAccess lcState, debugRomRegion⟩)
    (stackGuard : motive 14 ⟨.na4, .lockedNoAccess, rom.stackGuard⟩)
    (ram : motive 15 ⟨.napot, .lockedReadWrite, ramRegion⟩) : motive i e := by
  have h4 : epmpTable rom lcState u 4 = some e → motive 4 e := by
    intro h
    obtain ⟨region, hregion, rfl⟩ := Option.map_eq_some_iff.mp h
    exact romExtText region hregion
  have h6 : epmpTable rom lcState u 6 = some e → motive 6 e := by
    intro h
    obtain ⟨region, hregion, rfl⟩ := Option.map_eq_some_iff.mp h
    exact romExt region hregion
  fin_cases i
  all_goals first | exact h4 he | exact h6 he | (cases he <;> assumption)

theorem stackGuard_end : rom.stackGuard.end_.toNat = rom.stackGuard.start.toNat + 4 := by
  have h := rom.stackStart_lt
  change (rom.stackStart + 4).toNat = rom.stackStart.toNat + 4
  rw [BitVec.toNat_add]
  exact Nat.mod_eq_of_lt h

/-- The regions that the ROM chooses itself are legally aligned. -/
theorem epmpTable_legallyAligned {i : Fin 16} {e : EpmpEntry}
    (he : epmpTable rom lcState u i = some e) (hi : i ≠ 4) (hi' : i ≠ 6) :
    e.LegallyAligned := by
  revert hi hi'
  refine epmpTable_cases he ?text ?romMem ?romExtText ?eflash ?romExt ?mmio ?debugRom
    ?stackGuard ?ram
  case text => exact fun _ _ => ⟨rom.textStart_aligned, rom.textEnd_aligned⟩
  case romMem => exact fun _ _ => ⟨15, by decide⟩
  case romExtText => exact fun _ _ h => absurd rfl h
  case eflash => exact fun _ _ => ⟨20, by decide⟩
  case romExt => exact fun _ _ _ h => absurd rfl h
  case mmio => exact fun _ _ => ⟨by decide, by decide⟩
  case debugRom =>
    have hregion : 2 ^ 12 ∣ debugRomRegion.start.toNat ∧
        debugRomRegion.end_.toNat = debugRomRegion.start.toNat + 2 ^ 12 := by decide
    exact fun _ _ => ⟨12, by decide, hregion⟩
  case stackGuard => exact fun _ _ => ⟨rom.stackStart_aligned, stackGuard_end⟩
  case ram => exact fun _ _ => ⟨17, by decide⟩

theorem epmpTable_locked {i : Fin 16} {e : EpmpEntry}
    (he : epmpTable rom lcState u i = some e) : e.perm ≠ .unlocked := by
  refine epmpTable_cases he ?_ ?_ ?_ ?_ ?_ ?_ ?_ ?_ ?_
  case refine_7 => cases lcState <;> decide
  all_goals simp

/-- The entries with execute permission. -/
theorem epmpTable_exec {i : Fin 16} {e : EpmpEntry} (he : epmpTable rom lcState u i = some e)
    (hexec : e.perm = .lockedReadExecute ∨ e.perm = .lockedReadWriteExecute) :
    (i = 1 ∧ e.region = rom.text) ∨
      (i = 4 ∧ e.mode = .tor ∧ e.region ∈ u.rx) ∨
      (i = 13 ∧ e.region = debugRomRegion ∧
        debugRomAccess lcState = .lockedReadWriteExecute) := by
  revert hexec
  refine epmpTable_cases he ?_ ?_ ?_ ?_ ?_ ?_ ?_ ?_ ?_
  case refine_7 => cases lcState <;> simp [debugRomAccess]
  all_goals simp

/-- An executable address lies in one of the entries with execute permission. -/
theorem Configured.mem_of_exec {s : Csrs} (h : Configured s (epmpTable rom lcState u))
    (halign : ∀ region ∈ u.rx, 4 ∣ region.start.toNat ∧ 4 ∣ region.end_.toNat) {a : Word}
    (ha : s.Allowed .exec a = true) :
    a ∈ rom.text ∨ (∃ region ∈ u.rx, a ∈ region) ∨
      (debugRomAccess lcState = .lockedReadWriteExecute ∧ a ∈ debugRomRegion) := by
  obtain ⟨i, hi, -, hgrant⟩ := Pmp.Csrs.exists_of_allowed h.mmwp ha
  cases he : epmpTable rom lcState u i with
  | none => exact absurd hi (h.not_matches he a)
  | some e =>
    have hcfg := (h.entry i e he).cfg
    have hexec : (s.cfg i).exec = true := hgrant (by simp [hcfg, epmpTable_locked he])
    rw [hcfg, exec_epmpCfg, decide_eq_true_eq] at hexec
    obtain ⟨rfl, hregion⟩ | ⟨rfl, hmode, hregion⟩ | ⟨rfl, hregion, hdebug⟩ :=
      epmpTable_exec he hexec
    · have hlegal := epmpTable_legallyAligned he (by decide) (by decide)
      rw [h.matches_iff he hlegal, hregion] at hi
      exact .inl hi
    · have hlegal : e.LegallyAligned := by
        rw [EpmpEntry.LegallyAligned, hmode]
        exact halign _ hregion
      rw [h.matches_iff he hlegal] at hi
      exact .inr (.inl ⟨_, hregion, hi⟩)
    · have hlegal := epmpTable_legallyAligned he (by decide) (by decide)
      rw [h.matches_iff he hlegal, hregion] at hi
      exact .inr (.inr ⟨hdebug, hi⟩)

/-- The text of the ROM can be executed whatever is unlocked. -/
theorem Configured.exec_romText {s : Csrs} (h : Configured s (epmpTable rom lcState u)) {a : Word}
    (ha : a ∈ rom.text) : s.Allowed .exec a = true := by
  have he : epmpTable rom lcState u 1 = some ⟨.tor, .lockedReadExecute, rom.text⟩ := rfl
  have hmatch := (h.matches_iff he (epmpTable_legallyAligned he (by decide) (by decide)) a).mpr ha
  rw [Pmp.Csrs.allowed_of_first hmatch, (h.entry 1 _ he).cfg]
  · simp [Cfg.Grants]
  · intro j hj
    have hj0 : j = 0 := by omega
    subst hj0
    exact h.not_matches rfl a

/-- The unlocked text of the ROM_EXT can be executed where the ROM does not overlap it. -/
theorem Configured.exec_romExtText {s : Csrs} (h : Configured s (epmpTable rom lcState u))
    {region : EpmpRegion} (hregion : u.rx = some region) (hstart : 4 ∣ region.start.toNat)
    (hend : 4 ∣ region.end_.toNat) {a : Word} (ha : a ∈ region) (hrom : a ∉ romRegion) :
    s.Allowed .exec a = true := by
  by_cases htext : a ∈ rom.text
  · exact h.exec_romText htext
  have he : epmpTable rom lcState u 4 = some ⟨.tor, .lockedReadExecute, region⟩ := by
    simp only [epmpTable, hregion, Option.map_some]
  have hmatch := (h.matches_iff he ⟨hstart, hend⟩ a).mpr ha
  rw [Pmp.Csrs.allowed_of_first hmatch, (h.entry 4 _ he).cfg]
  · simp [Cfg.Grants]
  · intro j hj
    have hcases : j = 0 ∨ j = 1 ∨ j = 2 ∨ j = 3 := by omega
    obtain rfl | rfl | rfl | rfl := hcases
    · exact h.not_matches rfl a
    · have he1 : epmpTable rom lcState u 1 = some ⟨.tor, .lockedReadExecute, rom.text⟩ := rfl
      rwa [h.matches_iff he1 (epmpTable_legallyAligned he1 (by decide) (by decide))]
    · have he2 : epmpTable rom lcState u 2 = some ⟨.napot, .lockedReadOnly, romRegion⟩ := rfl
      rwa [h.matches_iff he2 (epmpTable_legallyAligned he2 (by decide) (by decide))]
    · exact h.not_matches rfl a

/-- The entry that decides on an allowed access grants it. -/
theorem Configured.exists_entry {s : Csrs} (h : Configured s (epmpTable rom lcState u))
    {access : Pmp.Access} {a : Word} (ha : s.Allowed access a = true) :
    ∃ i e, epmpTable rom lcState u i = some e ∧ s.Matches i a ∧ (∀ j < i, ¬ s.Matches j a) ∧
      (epmpCfg e.mode e.perm).Grants access = true := by
  obtain ⟨i, hi, hfirst, hgrant⟩ := Pmp.Csrs.exists_of_allowed h.mmwp ha
  cases he : epmpTable rom lcState u i with
  | none => exact absurd hi (h.not_matches he a)
  | some e =>
    have hcfg := (h.entry i e he).cfg
    rw [hcfg] at hgrant
    exact ⟨i, e, he, hi, hfirst, hgrant (by simp [epmpTable_locked he])⟩

/-- The entries with write permission. -/
theorem epmpTable_write {i : Fin 16} {e : EpmpEntry} (he : epmpTable rom lcState u i = some e)
    (hwrite : e.perm = .lockedReadWrite ∨ e.perm = .lockedReadWriteExecute) :
    (i = 11 ∧ e.region = mmioRegion) ∨ (i = 15 ∧ e.region = ramRegion) ∨
      (i = 13 ∧ e.region = debugRomRegion ∧
        debugRomAccess lcState = .lockedReadWriteExecute) := by
  revert hwrite
  refine epmpTable_cases he ?_ ?_ ?_ ?_ ?_ ?_ ?_ ?_ ?_
  case refine_7 => cases lcState <;> simp [debugRomAccess]
  all_goals simp

/-- A writable address lies in one of the entries with write permission, and not in the guard. -/
theorem Configured.mem_of_write {s : Csrs} (h : Configured s (epmpTable rom lcState u)) {a : Word}
    (ha : s.Allowed .write a = true) :
    a ∈ mmioRegion ∨ (a ∈ ramRegion ∧ a ∉ rom.stackGuard) ∨
      (debugRomAccess lcState = .lockedReadWriteExecute ∧ a ∈ debugRomRegion) := by
  obtain ⟨i, e, he, hi, hfirst, hwrite⟩ := h.exists_entry ha
  replace hwrite : (epmpCfg e.mode e.perm).write = true := hwrite
  rw [write_epmpCfg, decide_eq_true_eq] at hwrite
  have hwrites := epmpTable_write he hwrite
  have hlegal : e.LegallyAligned := by
    apply epmpTable_legallyAligned he
    · rintro rfl
      simp at hwrites
    · rintro rfl
      simp at hwrites
  rw [h.matches_iff he hlegal] at hi
  rcases hwrites with ⟨rfl, hregion⟩ | ⟨rfl, hregion⟩ | ⟨rfl, hregion, hdebug⟩
  · exact .inl (hregion ▸ hi)
  · have hguard : epmpTable rom lcState u 14 = some ⟨.na4, .lockedNoAccess, rom.stackGuard⟩ := rfl
    have haligned := epmpTable_legallyAligned hguard (by decide) (by decide)
    have hout := hfirst 14 (by decide)
    rw [h.matches_iff hguard haligned] at hout
    exact .inr (.inl ⟨hregion ▸ hi, hout⟩)
  · exact .inr (.inr ⟨hdebug, hregion ▸ hi⟩)

/-- Nothing is writable and executable but the debug ROM. -/
theorem Configured.mem_of_write_of_exec {s : Csrs} (h : Configured s (epmpTable rom lcState u))
    {a : Word} (hwrite : s.Allowed .write a = true) (hexec : s.Allowed .exec a = true) :
    debugRomAccess lcState = .lockedReadWriteExecute ∧ a ∈ debugRomRegion := by
  obtain ⟨i, e, he, hi, hfirst, hwrite⟩ := h.exists_entry hwrite
  obtain ⟨j, e', he', hj, hfirst', hexec⟩ := h.exists_entry hexec
  obtain rfl : i = j := by
    rcases lt_trichotomy i j with hlt | heq | hgt
    · exact absurd hi (hfirst' i hlt)
    · exact heq
    · exact absurd hj (hfirst j hgt)
  obtain rfl : e = e' := Option.some.inj (he.symm.trans he')
  replace hwrite : (epmpCfg e.mode e.perm).write = true := hwrite
  replace hexec : (epmpCfg e.mode e.perm).exec = true := hexec
  rw [write_epmpCfg, decide_eq_true_eq] at hwrite
  rw [exec_epmpCfg, decide_eq_true_eq] at hexec
  rcases epmpTable_exec he hexec with ⟨rfl, -⟩ | ⟨rfl, -, -⟩ | ⟨rfl, hregion, hdebug⟩
  · simpa using epmpTable_write he hwrite
  · simpa using epmpTable_write he hwrite
  · have haligned := epmpTable_legallyAligned he (by decide) (by decide)
    rw [h.matches_iff he haligned, hregion] at hi
    exact ⟨hdebug, hi⟩

end Exec

/-- The shadow agrees with the hardware, its entries decode to the intended regions,
and nothing but the three texts is executable. -/
theorem epmpRun_shadow_regions_exec (rom : RomSymbols) (lcState : LifecycleState)
    (calls : List EpmpUnlock) :
    let m := epmpRun rom lcState calls
    let table := epmpTable rom lcState (unlocked calls)
    (m.Agrees ∧ epmpStateCheck m = kErrorOk) ∧
    (∀ i e, table i = some e → ((i = 4 ∨ i = 6) → e.LegallyAligned) →
      ∀ a, m.csrs.Matches i a ↔ a ∈ e.region) ∧
    (∀ i, table i = none → ∀ a, ¬ m.csrs.Matches i a) ∧
    ((∀ region ∈ (unlocked calls).rx, 4 ∣ region.start.toNat ∧ 4 ∣ region.end_.toNat) →
      ∀ a, m.csrs.Allowed .exec a = true →
        a ∈ rom.text ∨ (∃ region ∈ (unlocked calls).rx, a ∈ region) ∨
          (debugRomAccess lcState = .lockedReadWriteExecute ∧ a ∈ debugRomRegion)) := by
  obtain ⟨hagrees, hconf⟩ := epmpRun_spec rom lcState calls
  refine ⟨⟨hagrees, (epmpStateCheck_eq_ok_iff _).mpr hagrees⟩, fun i e he halign a => ?_,
    fun i hi a => hconf.not_matches hi a, fun halign a ha => hconf.mem_of_exec halign ha⟩
  by_cases hi : i = 4 ∨ i = 6
  · exact hconf.matches_iff he (halign hi) a
  · exact hconf.matches_iff he
      (epmpTable_legallyAligned he (fun h => hi (.inl h)) fun h => hi (.inr h)) a

/-- The symbols of a ROM with 16 KiB of text. -/
def smallRom : RomSymbols where
  textStart := 0x8000
  textEnd := 0xc000
  stackStart := 0x1001c000
  textStart_aligned := by decide
  textEnd_aligned := by decide
  stackStart_aligned := by decide
  stackStart_lt := by decide

/-- A translated ROM_EXT: the entry of its text ends where the text ends. -/
theorem epmpRun_shadow_regions_exec_translated :
    let m := epmpRun smallRom .prod
      [.romExtR ⟨0x90000000, 0x90080000⟩, .romExtRx ⟨0x90000400, 0x90001000⟩]
    epmpStateCheck m = kErrorOk ∧ m.csrs.Matches 4 0x90000ffc ∧ ¬ m.csrs.Matches 4 0x90001000 := by
  obtain ⟨⟨-, hcheck⟩, hmatch, -, -⟩ := epmpRun_shadow_regions_exec smallRom .prod
    [.romExtR ⟨0x90000000, 0x90080000⟩, .romExtRx ⟨0x90000400, 0x90001000⟩]
  have htext := hmatch 4 _ rfl fun _ => ⟨by decide, by decide⟩
  exact ⟨hcheck, (htext _).mpr ⟨by decide, by decide⟩, fun h => absurd ((htext _).mp h).2 (by decide)⟩

/-- What can be written cannot be executed, outside of a debug ROM that the life cycle state opens:
the text of the ROM and the unlocked text of the ROM_EXT can be executed, and writes reach only the
devices and the memory above the guard of the stack. -/
theorem epmpRun_write_xor_exec (rom : RomSymbols) (lcState : LifecycleState)
    (calls : List EpmpUnlock) :
    let s := (epmpRun rom lcState calls).csrs
    (∀ a, s.Allowed .write a = true →
      (s.Allowed .exec a = true → debugRomAccess lcState = .lockedReadWriteExecute ∧
        a ∈ debugRomRegion) ∧
      (a ∈ mmioRegion ∨ (a ∈ ramRegion ∧ a ∉ rom.stackGuard) ∨
        (debugRomAccess lcState = .lockedReadWriteExecute ∧ a ∈ debugRomRegion))) ∧
    (∀ a ∈ rom.text, s.Allowed .exec a = true) ∧
    ∀ region ∈ (unlocked calls).rx, 4 ∣ region.start.toNat → 4 ∣ region.end_.toNat →
      ∀ a ∈ region, a ∉ romRegion → s.Allowed .exec a = true := by
  obtain ⟨-, hconf⟩ := epmpRun_spec rom lcState calls
  refine ⟨fun a ha => ⟨hconf.mem_of_write_of_exec ha, hconf.mem_of_write ha⟩,
    fun a ha => hconf.exec_romText ha, fun region hregion hstart hend a ha hrom => ?_⟩
  exact hconf.exec_romExtText hregion hstart hend ha hrom

theorem epmpRun_write_xor_exec_translated :
    let s := (epmpRun smallRom .prod
      [.romExtR ⟨0x90000000, 0x90080000⟩, .romExtRx ⟨0x90000400, 0x90001000⟩]).csrs
    s.Allowed .exec 0x90000ffc = true ∧ ¬ s.Allowed .write 0x90000ffc = true := by
  obtain ⟨hwrite, -, htext⟩ := epmpRun_write_xor_exec smallRom .prod
    [.romExtR ⟨0x90000000, 0x90080000⟩, .romExtRx ⟨0x90000400, 0x90001000⟩]
  have hexec := htext _ rfl (by decide) (by decide) 0x90000ffc ⟨by decide, by decide⟩
    fun h => absurd h.2 (by decide)
  exact ⟨hexec, fun h => EpmpPerm.noConfusion ((hwrite _ h).1 hexec).1⟩

end SecureBoot
