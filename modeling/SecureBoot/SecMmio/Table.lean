import SecureBoot.Base.Io

/-! The sec_mmio module: register accesses that are read back and recorded in a
table of expected values, with counts of the writes and of the checks. The table
is an array with a linear search; what it stands for is a finite map from register
addresses to the value last written or read, and every operation is stated on
that map. -/

namespace SecureBoot

/-- Masks the stored expected values. -/
abbrev kSecMmioMaskVal : Word := 0x21692436

abbrev kSecMmioValZero : Word := 0x3ca5965a

abbrev kSecMmioValOne : Word := 0xc35a69a5

/-! ### The functions of sec_mmio.c -/

/-- The loop of `upsert_register`, `n` entries left from `i` on: the first index
that holds `addr`, or the end. -/
def SecMmioCtx.searchFrom (ctx : SecMmioCtx) (addr : Word) : ℕ → ℕ → ℕ
  | 0, i => i
  | n + 1, i => if ctx.addrs i = addr then i else ctx.searchFrom addr n (i + 1)

def SecMmioCtx.search (ctx : SecMmioCtx) (addr : Word) : ℕ :=
  ctx.searchFrom addr ctx.lastIndex 0

/-- What `upsert_register` does to the context. -/
def SecMmioCtx.upsert (ctx : SecMmioCtx) (addr value : Word) : SecMmioCtx :=
  let i := ctx.search addr
  if i < ctx.lastIndex then { ctx with values := Function.update ctx.values i value }
  else if i = ctx.lastIndex ∧ i < kSecMmioRegFileSize then
    { ctx with
      addrs := Function.update ctx.addrs i addr
      values := Function.update ctx.values i value
      lastIndex := ctx.lastIndex + 1 }
  else ctx

def modifySecMmio (f : SecMmioCtx → SecMmioCtx) : Drv Unit :=
  modify fun io => io.setSecMmio (f io.secMmio)

/-- `upsert_register`. -/
def upsertRegister (addr value : Word) : Drv Unit := do
  let io ← get
  modifySecMmio fun ctx => ctx.upsert addr value
  hardenedCheck (io.secMmio.search addr < kSecMmioRegFileSize) .secMmioFull

/-- `sec_mmio_init`; its `HARDENED_CHECK` repeats the four assignments. -/
def secMmioInit : Drv Unit :=
  modifySecMmio fun _ =>
    { lastIndex := 0
      writeCount := 0
      expectedWriteCount := 0
      checkCount := 0
      addrs := fun _ => wordMax
      values := fun _ => wordMax }

/-- `SEC_MMIO_WRITE_INCREMENT`. -/
def secMmioWriteIncrement (value : Word) : Drv Unit :=
  modifySecMmio fun ctx => { ctx with expectedWriteCount := ctx.expectedWriteCount + value }

section

variable (hw : Hw)

/-- The readback that ends every access. -/
def secMmioReadback (addr maskedValue : Word) : Drv Unit := do
  let value ← absMmioRead32 hw addr
  hardenedCheck (value ^^^ kSecMmioMaskVal = maskedValue) .secMmioReadback

/-- `sec_mmio_read32`. -/
def secMmioRead32 (addr : Word) : Drv Word := do
  let value ← absMmioRead32 hw addr
  upsertRegister addr (value ^^^ kSecMmioMaskVal)
  secMmioReadback hw addr (value ^^^ kSecMmioMaskVal)
  pure value

/-- What `sec_mmio_write32` and its shadowed variant do after the bus writes. -/
def secMmioRecordWrite (addr value : Word) : Drv Unit := do
  upsertRegister addr (value ^^^ kSecMmioMaskVal)
  secMmioReadback hw addr (value ^^^ kSecMmioMaskVal)
  modifySecMmio fun ctx => { ctx with writeCount := ctx.writeCount + 1 }

/-- `sec_mmio_write32`. -/
def secMmioWrite32 (addr value : Word) : Drv Unit := do
  absMmioWrite32 hw addr value
  secMmioRecordWrite hw addr value

/-- `sec_mmio_write32_shadowed`: shadowed registers require two writes. -/
def secMmioWrite32Shadowed (addr value : Word) : Drv Unit := do
  absMmioWrite32 hw addr value
  absMmioWrite32 hw addr value
  secMmioRecordWrite hw addr value

/-- One comparison of `sec_mmio_check_values`. -/
def secMmioCheckEntry (offset : ℕ) : Drv Unit := do
  let io ← get
  let readValue ← absMmioRead32 hw (io.secMmio.addrs offset)
  hardenedCheck (readValue ^^^ kSecMmioMaskVal = io.secMmio.values offset) .secMmioValues

/-- The step of `offset` around the table. -/
def nextOffset (lastIndex offset : ℕ) : ℕ :=
  if offset + 1 ≥ lastIndex then offset + 1 - lastIndex else offset + 1

/-- The loop of `sec_mmio_check_values` with `n` iterations left. -/
def secMmioCheckValuesFrom (lastIndex : ℕ) : ℕ → ℕ → Drv Unit
  | 0, _ => pure ()
  | n + 1, offset => do
      secMmioCheckEntry hw offset
      secMmioCheckValuesFrom lastIndex n (nextOffset lastIndex offset)

/-- The random starting offset, a 64-bit product. -/
def checkOffset (rndOffset : Word) (lastIndex : ℕ) : ℕ := rndOffset.toNat * lastIndex / 2 ^ 32

def secMmioCheckDone : Drv Unit :=
  modifySecMmio fun ctx => { ctx with checkCount := ctx.checkCount + 1 }

/-- `sec_mmio_check_values`. -/
def secMmioCheckValues (rndOffset : Word) : Drv Unit := do
  let io ← get
  let lastIndex := io.secMmio.lastIndex
  secMmioCheckValuesFrom hw lastIndex lastIndex (checkOffset rndOffset lastIndex)
  secMmioCheckDone

/-- `sec_mmio_check_counters`. -/
def secMmioCheckCounters (expectedCheckCount : Word) : Drv Unit := do
  let io ← get
  let result := kSecMmioValZero ^^^ io.secMmio.writeCount ^^^ io.secMmio.expectedWriteCount
  hardenedCheck (result = kSecMmioValZero) .secMmioCounters
  let result := result ^^^ io.secMmio.checkCount ^^^ expectedCheckCount
  hardenedCheck (~~~result = kSecMmioValOne) .secMmioCounters
  secMmioCheckDone

end

/-! ### The table as a map -/

/-- The table holds the finite map `recorded`: the addresses are pairwise distinct
and every recorded value is stored masked under its address. -/
structure SecMmioCtx.Records (ctx : SecMmioCtx) (recorded : Word → Option Word) : Prop where
  inj : ∀ i < ctx.lastIndex, ∀ j < ctx.lastIndex, ctx.addrs i = ctx.addrs j → i = j
  entry : ∀ i < ctx.lastIndex, ∃ v, recorded (ctx.addrs i) = some v ∧
    ctx.values i = v ^^^ kSecMmioMaskVal
  covers : ∀ addr v, recorded addr = some v → ∃ i < ctx.lastIndex, ctx.addrs i = addr

theorem SecMmioCtx.searchFrom_spec (ctx : SecMmioCtx) (addr : Word) (n i : ℕ) :
    i ≤ ctx.searchFrom addr n i ∧ ctx.searchFrom addr n i ≤ i + n ∧
      (ctx.searchFrom addr n i < i + n → ctx.addrs (ctx.searchFrom addr n i) = addr) ∧
      ∀ j, i ≤ j → j < ctx.searchFrom addr n i → ctx.addrs j ≠ addr := by
  induction n generalizing i with
  | zero => exact ⟨le_rfl, le_rfl, fun h => by simp [searchFrom] at h,
      fun j h h' => by simp only [searchFrom] at h'; omega⟩
  | succ n ih =>
    rw [searchFrom]
    split_ifs with h
    · exact ⟨le_rfl, by omega, fun _ => h, fun j hj hj' => by omega⟩
    · obtain ⟨hge, hle, hfound, hbefore⟩ := ih (i + 1)
      refine ⟨by omega, by omega, fun hlt => hfound (by omega), fun j hj hj' => ?_⟩
      rcases Nat.eq_or_lt_of_le hj with rfl | hlt
      · exact h
      · exact hbefore j hlt hj'

theorem SecMmioCtx.search_le (ctx : SecMmioCtx) (addr : Word) : ctx.search addr ≤ ctx.lastIndex := by
  have h := (ctx.searchFrom_spec addr ctx.lastIndex 0).2.1
  rwa [Nat.zero_add] at h

theorem SecMmioCtx.addrs_search (ctx : SecMmioCtx) {addr : Word}
    (h : ctx.search addr < ctx.lastIndex) : ctx.addrs (ctx.search addr) = addr :=
  (ctx.searchFrom_spec addr ctx.lastIndex 0).2.2.1 (by rwa [Nat.zero_add])

theorem SecMmioCtx.addrs_ne_of_lt_search (ctx : SecMmioCtx) {addr : Word} {j : ℕ}
    (h : j < ctx.search addr) : ctx.addrs j ≠ addr :=
  (ctx.searchFrom_spec addr ctx.lastIndex 0).2.2.2 j (Nat.zero_le _) h

/-- An upsert with room for a new entry updates the map at one address. -/
theorem SecMmioCtx.Records.upsert {ctx : SecMmioCtx} {recorded : Word → Option Word}
    (h : ctx.Records recorded) {addr v : Word} (hroom : ctx.search addr < kSecMmioRegFileSize) :
    (ctx.upsert addr (v ^^^ kSecMmioMaskVal)).Records
      (Function.update recorded addr (some v)) := by
  rw [SecMmioCtx.upsert]
  split_ifs with hlt hend
  · have haddr := ctx.addrs_search hlt
    refine ⟨h.inj, fun i hi => ?_, fun a w hw => ?_⟩
    · by_cases hia : i = ctx.search addr
      · subst hia
        exact ⟨v, by rw [haddr, Function.update_self], Function.update_self ..⟩
      · have hne : ctx.addrs i ≠ addr := fun he => hia (h.inj i hi _ hlt (he.trans haddr.symm))
        obtain ⟨w, hw, hwv⟩ := h.entry i hi
        refine ⟨w, ?_, ?_⟩
        · rwa [Function.update_of_ne hne]
        · exact (Function.update_of_ne hia ..).trans hwv
    · by_cases ha : a = addr
      · exact ⟨_, hlt, haddr.trans ha.symm⟩
      · rw [Function.update_of_ne ha] at hw
        exact h.covers a w hw
  · have hnew : ∀ j < ctx.lastIndex, ctx.addrs j ≠ addr := fun j hj =>
      ctx.addrs_ne_of_lt_search (by omega)
    have hold : ∀ j < ctx.lastIndex,
        Function.update ctx.addrs (ctx.search addr) addr j = ctx.addrs j := fun j hj =>
      Function.update_of_ne (by omega) ..
    refine ⟨fun i hi j hj hij => ?_, fun i hi => ?_, fun a w hw => ?_⟩
    · simp only at hi hj hij
      rcases Nat.lt_succ_iff_lt_or_eq.1 hi with hi' | rfl <;>
        rcases Nat.lt_succ_iff_lt_or_eq.1 hj with hj' | rfl
      · rw [hold i hi', hold j hj'] at hij
        exact h.inj i hi' j hj' hij
      · rw [hold i hi', hend.1, Function.update_self] at hij
        exact absurd hij (hnew i hi')
      · rw [hold j hj', hend.1, Function.update_self] at hij
        exact absurd hij.symm (hnew j hj')
      · rfl
    · simp only at hi ⊢
      rcases Nat.lt_succ_iff_lt_or_eq.1 hi with hi' | rfl
      · obtain ⟨w, hw, hwv⟩ := h.entry i hi'
        refine ⟨w, ?_, ?_⟩
        · rw [hold i hi', Function.update_of_ne (hnew i hi')]
          exact hw
        · rw [Function.update_of_ne (by omega)]
          exact hwv
      · refine ⟨v, ?_, ?_⟩
        · rw [hend.1, Function.update_self, Function.update_self]
        · rw [hend.1, Function.update_self]
    · by_cases ha : a = addr
      · exact ⟨ctx.lastIndex, Nat.lt_succ_self _, by simp [hend.1, ha]⟩
      · rw [Function.update_of_ne ha] at hw
        obtain ⟨i, hi, hia⟩ := h.covers a w hw
        exact ⟨i, Nat.lt_succ_of_lt hi, (hold i hi).trans hia⟩
  · have := ctx.search_le addr
    omega

/-- Room for a register among at most as many registers as the table has entries. -/
theorem SecMmioCtx.Records.search_lt {ctx : SecMmioCtx} {recorded : Word → Option Word}
    (h : ctx.Records recorded) {touched : Finset Word} (hcard : touched.card ≤ kSecMmioRegFileSize)
    (hwithin : ∀ a, (recorded a).isSome → a ∈ touched) {addr : Word} (haddr : addr ∈ touched) :
    ctx.search addr < kSecMmioRegFileSize := by
  have hinj : Set.InjOn ctx.addrs (Finset.range ctx.lastIndex : Finset ℕ) := fun i hi j hj =>
    h.inj i (Finset.mem_range.1 hi) j (Finset.mem_range.1 hj)
  have hsub : (Finset.range ctx.lastIndex).image ctx.addrs ⊆ touched := by
    intro a ha
    obtain ⟨i, hi, rfl⟩ := Finset.mem_image.1 ha
    obtain ⟨v, hv, -⟩ := h.entry i (Finset.mem_range.1 hi)
    exact hwithin _ (by simp [hv])
  have hle := Finset.card_le_card hsub
  rw [Finset.card_image_of_injOn hinj, Finset.card_range] at hle
  by_cases hlt : ctx.search addr < ctx.lastIndex
  · omega
  · -- a new register is not among the recorded ones
    have hnot : addr ∉ (Finset.range ctx.lastIndex).image ctx.addrs := by
      intro ha
      obtain ⟨i, hi, hia⟩ := Finset.mem_image.1 ha
      exact ctx.addrs_ne_of_lt_search (by have := Finset.mem_range.1 hi; omega) hia
    have hins := Finset.card_le_card (Finset.insert_subset haddr hsub)
    rw [Finset.card_insert_of_notMem hnot, Finset.card_image_of_injOn hinj,
      Finset.card_range] at hins
    have := ctx.search_le addr
    omega

/-! ### Runs of the operations -/

theorem run_hardenedCheck (c : Prop) [Decidable c] (trap : Trap) (io : Io) :
    (hardenedCheck c trap).run io = if c then .ok () io else .error trap io := by
  rw [hardenedCheck]
  split_ifs <;> rfl

theorem xor_mask_inj {v w m : Word} : v ^^^ m = w ^^^ m ↔ v = w := by
  constructor
  · intro h
    have hm := congrArg (· ^^^ m) h
    simpa [BitVec.xor_assoc] using hm
  · rintro rfl
    rfl

section

variable (hw : Hw)

theorem run_upsertRegister (addr value : Word) (io : Io) :
    (upsertRegister addr value).run io =
      if io.secMmio.search addr < kSecMmioRegFileSize then
        .ok () (io.setSecMmio (io.secMmio.upsert addr value))
      else .error .secMmioFull (io.setSecMmio (io.secMmio.upsert addr value)) := by
  rw [upsertRegister, EStateM.run_bind]
  exact run_hardenedCheck ..

theorem run_secMmioReadback (addr value : Word) (io : Io) :
    (secMmioReadback hw addr (value ^^^ kSecMmioMaskVal)).run io =
      if io.read hw addr = value then .ok () io else .error .secMmioReadback io := by
  have h := run_hardenedCheck (io.read hw addr ^^^ kSecMmioMaskVal = value ^^^ kSecMmioMaskVal)
    .secMmioReadback io
  simp only [xor_mask_inj] at h
  exact h

/-- A read always passes its own readback. -/
theorem run_secMmioRead32 (addr : Word) (io : Io) :
    (secMmioRead32 hw addr).run io =
      let io' := io.setSecMmio (io.secMmio.upsert addr (io.read hw addr ^^^ kSecMmioMaskVal))
      if io.secMmio.search addr < kSecMmioRegFileSize then .ok (io.read hw addr) io'
      else .error .secMmioFull io' := by
  have hread : (absMmioRead32 hw addr).run io = .ok (io.read hw addr) io := rfl
  rw [secMmioRead32, EStateM.run_bind, hread]
  simp only [EStateM.run_bind, run_upsertRegister]
  by_cases hroom : io.secMmio.search addr < kSecMmioRegFileSize
  · simp only [if_pos hroom, run_secMmioReadback, Io.read_setSecMmio, if_true]
    rfl
  · simp only [if_neg hroom]

theorem run_secMmioRecordWrite (addr value : Word) (io : Io) :
    (secMmioRecordWrite hw addr value).run io =
      let ctx := io.secMmio.upsert addr (value ^^^ kSecMmioMaskVal)
      if io.secMmio.search addr < kSecMmioRegFileSize then
        if io.read hw addr = value then
          .ok () (io.setSecMmio { ctx with writeCount := ctx.writeCount + 1 })
        else .error .secMmioReadback (io.setSecMmio ctx)
      else .error .secMmioFull (io.setSecMmio ctx) := by
  rw [secMmioRecordWrite, EStateM.run_bind, run_upsertRegister]
  by_cases hroom : io.secMmio.search addr < kSecMmioRegFileSize
  · simp only [if_pos hroom, EStateM.run_bind, run_secMmioReadback, Io.read_setSecMmio]
    by_cases hread : io.read hw addr = value
    · simp only [hread, if_true]
      rfl
    · simp only [hread, if_false]
  · simp only [if_neg hroom]

/-! ### The walk around the table -/

/-- The entries that `sec_mmio_check_values` visits, in order. -/
def checkVisits (lastIndex : ℕ) : ℕ → ℕ → List ℕ
  | 0, _ => []
  | n + 1, offset => offset :: checkVisits lastIndex n (nextOffset lastIndex offset)

theorem secMmioCheckValuesFrom_eq_forM (lastIndex n offset : ℕ) :
    secMmioCheckValuesFrom hw lastIndex n offset =
      (checkVisits lastIndex n offset).forM (secMmioCheckEntry hw) := by
  induction n generalizing offset with
  | zero => rfl
  | succ n ih =>
    rw [secMmioCheckValuesFrom, checkVisits, ih]
    rfl

theorem checkOffset_lt (rndOffset : Word) {lastIndex : ℕ} (h : 0 < lastIndex) :
    checkOffset rndOffset lastIndex < lastIndex := by
  rw [checkOffset, Nat.div_lt_iff_lt_mul (Nat.two_pow_pos 32), Nat.mul_comm lastIndex]
  exact Nat.mul_lt_mul_of_pos_right rndOffset.isLt h

theorem nextOffset_eq {lastIndex offset : ℕ} (h : offset < lastIndex) :
    nextOffset lastIndex offset = (offset + 1) % lastIndex := by
  rw [nextOffset]
  split_ifs with hge
  · obtain rfl : lastIndex = offset + 1 := by omega
    simp
  · rw [Nat.mod_eq_of_lt (by omega)]

theorem checkVisits_eq_map {lastIndex offset : ℕ} (n : ℕ) (h : offset < lastIndex) :
    checkVisits lastIndex n offset = (List.range n).map fun k => (offset + k) % lastIndex := by
  induction n generalizing offset with
  | zero => rfl
  | succ n ih =>
    have hnext := Nat.mod_lt (offset + 1) (by omega : 0 < lastIndex)
    rw [checkVisits, nextOffset_eq h, ih hnext, List.range_succ_eq_map, List.map_cons,
      List.map_map]
    refine congrArg₂ _ (Nat.mod_eq_of_lt h).symm (List.map_congr_left fun k _ => ?_)
    rw [Nat.mod_add_mod, Function.comp_apply, Nat.succ_eq_add_one, Nat.add_assoc,
      Nat.add_comm 1 k]

/-- A full walk visits every entry exactly once, wherever it starts. -/
theorem checkVisits_perm (rndOffset : Word) (lastIndex : ℕ) :
    (checkVisits lastIndex lastIndex (checkOffset rndOffset lastIndex)).Perm
      (List.range lastIndex) := by
  rcases Nat.eq_zero_or_pos lastIndex with rfl | hpos
  · exact List.Perm.refl _
  have hlt := checkOffset_lt rndOffset hpos
  generalize checkOffset rndOffset lastIndex = offset at hlt ⊢
  rw [checkVisits_eq_map lastIndex hlt]
  refine (List.subperm_of_subset ?_ ?_).perm_of_length_le (by simp)
  · refine List.Nodup.map_on (fun i hi j hj hij => ?_) List.nodup_range
    have hi' := List.mem_range.1 hi
    have hj' := List.mem_range.1 hj
    have hmod : i ≡ j [MOD lastIndex] := Nat.ModEq.add_left_cancel' offset hij
    rwa [Nat.ModEq, Nat.mod_eq_of_lt hi', Nat.mod_eq_of_lt hj'] at hmod
  · intro k hk
    obtain ⟨i, -, rfl⟩ := List.mem_map.1 hk
    exact List.mem_range.2 (Nat.mod_lt _ hpos)

/-- Checking a list of entries changes nothing and stops at the first that differs. -/
theorem run_forM_secMmioCheckEntry (offsets : List ℕ) (io : Io) :
    (offsets.forM (secMmioCheckEntry hw)).run io =
      if ∀ i ∈ offsets, io.read hw (io.secMmio.addrs i) ^^^ kSecMmioMaskVal = io.secMmio.values i
      then .ok () io else .error .secMmioValues io := by
  induction offsets with
  | nil => rfl
  | cons i offsets ih =>
    have hentry : (secMmioCheckEntry hw i).run io =
        if io.read hw (io.secMmio.addrs i) ^^^ kSecMmioMaskVal = io.secMmio.values i
        then .ok () io else .error .secMmioValues io := run_hardenedCheck ..
    change EStateM.run (secMmioCheckEntry hw i >>= fun _ => offsets.forM _) io = _
    rw [EStateM.run_bind, hentry]
    by_cases hi : io.read hw (io.secMmio.addrs i) ^^^ kSecMmioMaskVal = io.secMmio.values i
    · simp only [hi, if_true, ih, List.forall_mem_cons, true_and]
    · rw [if_neg hi, if_neg]
      exact fun h => hi (h i List.mem_cons_self)

theorem run_secMmioCheckValuesFrom (rndOffset : Word) (io : Io) :
    (secMmioCheckValuesFrom hw io.secMmio.lastIndex io.secMmio.lastIndex
        (checkOffset rndOffset io.secMmio.lastIndex)).run io =
      if ∀ i < io.secMmio.lastIndex,
          io.read hw (io.secMmio.addrs i) ^^^ kSecMmioMaskVal = io.secMmio.values i
      then .ok () io else .error .secMmioValues io := by
  rw [secMmioCheckValuesFrom_eq_forM, run_forM_secMmioCheckEntry]
  refine if_congr ?_ rfl rfl
  refine forall_congr' fun i => ?_
  rw [(checkVisits_perm rndOffset io.secMmio.lastIndex).mem_iff, List.mem_range]

/-- `sec_mmio_check_values` passes exactly when every recorded register still has
its recorded value. -/
theorem run_secMmioCheckValues {recorded : Word → Option Word} (rndOffset : Word) {io : Io}
    (h : io.secMmio.Records recorded) :
    ((∀ addr v, recorded addr = some v → io.read hw addr = v) →
      (secMmioCheckValues hw rndOffset).run io =
        .ok () (io.setSecMmio { io.secMmio with checkCount := io.secMmio.checkCount + 1 })) ∧
    (¬ (∀ addr v, recorded addr = some v → io.read hw addr = v) →
      (secMmioCheckValues hw rndOffset).run io = .error .secMmioValues io) := by
  have hall : (∀ addr v, recorded addr = some v → io.read hw addr = v) ↔
      ∀ i < io.secMmio.lastIndex,
        io.read hw (io.secMmio.addrs i) ^^^ kSecMmioMaskVal = io.secMmio.values i := by
    constructor
    · intro hrec i hi
      obtain ⟨v, hv, hval⟩ := h.entry i hi
      rw [hval, hrec _ v hv]
    · intro hent addr v hv
      obtain ⟨i, hi, rfl⟩ := h.covers addr v hv
      obtain ⟨w, hw', hval⟩ := h.entry i hi
      have heq := hent i hi
      rw [hval, xor_mask_inj] at heq
      rw [heq]
      exact Option.some.inj (hw'.symm.trans hv)
  have hrun : (secMmioCheckValues hw rndOffset).run io =
      ((secMmioCheckValuesFrom hw io.secMmio.lastIndex io.secMmio.lastIndex
        (checkOffset rndOffset io.secMmio.lastIndex)) >>= fun _ => secMmioCheckDone).run io := rfl
  rw [EStateM.run_bind, run_secMmioCheckValuesFrom, ← if_congr hall rfl rfl] at hrun
  constructor
  · intro hrec
    rw [hrun, if_pos hrec]
    rfl
  · intro hrec
    rw [hrun, if_neg hrec]

end

end SecureBoot
