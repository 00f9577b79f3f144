import SecureBoot.Epmp.Regions
import SecureBoot.Manifest.Manifest

/-! Where ROM_EXT code executes. The core translates the addresses of a window to
the slot that is booted; the ePMP opens the code region of the manifest, moved to
the window when the manifest asks for translation. Every byte that the open region
can fetch lies in the region of the image that was hashed for its signature. -/

namespace SecureBoot

/-! ### Address translation of the core -/

/-- One translation region of rv_core_ibex, for the instruction or the data bus. -/
structure AddrRegion where
  en : Bool
  matching : Word
  remap : Word

def AddrRegion.off : AddrRegion := ⟨false, 0, 0⟩

/-- The configuration that `ibex_addr_remap_0_set` writes. -/
def ibexAddrRemap (matchingAddr remapAddr size : Word) : AddrRegion :=
  ⟨true, matchingAddr ||| ((size - 1) >>> 1), remapAddr⟩

namespace AddrRegion

/-- The bits that select the region; the others pass the translation unchanged. -/
def inputMask (region : AddrRegion) : Word :=
  (BitVec.ofBoolListLE ((List.range 32).map fun j =>
    decide (Napot.Compares region.matching j))).setWidth 32

theorem getLsbD_inputMask (region : AddrRegion) (i : ℕ) :
    region.inputMask.getLsbD i = decide (i < 32 ∧ Napot.Compares region.matching i) := by
  rw [inputMask, BitVec.getLsbD_setWidth, BitVec.getLsbD_ofBoolListLE]
  by_cases hi : i < 32
  · simp [List.getD, hi]
  · simp [hi]

def Matches (region : AddrRegion) (addr : Word) : Prop :=
  region.en = true ∧ region.matching &&& region.inputMask = addr &&& region.inputMask

instance (region : AddrRegion) (addr : Word) : Decidable (region.Matches addr) :=
  inferInstanceAs (Decidable (_ ∧ _))

end AddrRegion

/-- `rv_core_addr_trans`: the first region that matches translates the address. -/
def coreAddrTrans (regions : List AddrRegion) (addr : Word) : Word :=
  match regions.find? fun region => decide (region.Matches addr) with
  | some region => (addr &&& ~~~region.inputMask) ||| region.remap
  | none => addr

/-- The virtual window of the ROM_EXT, with what its linker script guarantees. -/
structure RomExtWindow where
  start : Word
  size : Word
  bits : ℕ
  size_eq : size.toNat = 2 ^ bits
  start_aligned : 2 ^ bits ∣ start.toNat
  size_le_slot : size.toNat ≤ (kEflashSizeBytes / 2).toNat
  end_lt : start.toNat + size.toNat < 2 ^ 32

def RomExtWindow.region (win : RomExtWindow) : EpmpRegion := memRegion win.start win.size

section

variable (win : RomExtWindow) (ptr : Word) (m : Manifest)

/-- `rom_ext_vma_get`. -/
def romExtVmaGet (lmaAddr : Word) : Word := lmaAddr - ptr + win.start

/-- The text region that `rom_boot` unlocks. -/
def romBootTextRegion : EpmpRegion :=
  let textRegion := manifestCodeRegionGet ptr m
  if m.addressTranslation = kHardenedBoolTrue then
    ⟨romExtVmaGet win ptr textRegion.start, romExtVmaGet win ptr textRegion.end_⟩
  else
    textRegion

/-- The address that `rom_boot` jumps to. -/
def romBootEntryPoint : Word :=
  let entryPoint := manifestEntryPointGet ptr m
  if m.addressTranslation = kHardenedBoolTrue then romExtVmaGet win ptr entryPoint else entryPoint

/-- The calls of the ePMP unlock functions in `rom_boot`. -/
def romBootUnlocks : List EpmpUnlock :=
  if m.addressTranslation = kHardenedBoolTrue then
    [.romExtR win.region, .romExtRx (romBootTextRegion win ptr m)]
  else
    [.romExtRx (romBootTextRegion win ptr m)]

/-- The two translation regions when `rom_boot` jumps. -/
def romBootAddrRegions : List AddrRegion :=
  if m.addressTranslation = kHardenedBoolTrue then
    [ibexAddrRemap win.start ptr win.size, .off]
  else
    [.off, .off]

end

/-! ### The translated window -/

namespace RomExtWindow

variable (win : RomExtWindow)

theorem le_bits {win : RomExtWindow} (hwin : kChipRomExtSizeMax ≤ win.size) : 16 ≤ win.bits := by
  have hsize : 2 ^ 16 ≤ win.size.toNat := BitVec.le_def.mp hwin
  rw [win.size_eq] at hsize
  exact (Nat.pow_le_pow_iff_right (by decide)).mp hsize

/-- The window is no larger than a slot, and the slots are aligned to their size. -/
theorem bits_le : win.bits ≤ 19 := by
  have h := win.size_le_slot
  rw [win.size_eq] at h
  exact (Nat.pow_le_pow_iff_right (by decide)).mp h

theorem slot_aligned {ptr : Word} (hptr : ptr = bootPolicyManifestAGet ∨ ptr = bootPolicyManifestBGet) :
    2 ^ win.bits ∣ ptr.toNat := by
  refine (Nat.pow_dvd_pow 2 win.bits_le).trans ?_
  obtain rfl | rfl := hptr
  · decide
  · decide

end RomExtWindow

section Remap

variable {win : RomExtWindow} {ptr : Word}

theorem getLsbD_matching_ibexAddrRemap (i : ℕ) :
    (ibexAddrRemap win.start ptr win.size).matching.getLsbD i =
      (win.start.getLsbD i || decide (1 + i < win.bits)) := by
  rw [ibexAddrRemap, BitVec.getLsbD_or, BitVec.getLsbD_ushiftRight,
    Napot.getLsbD_sub_one win.size_eq]

theorem getLsbD_inputMask_ibexAddrRemap (hbits : 1 ≤ win.bits) (i : ℕ) :
    (ibexAddrRemap win.start ptr win.size).inputMask.getLsbD i =
      decide (i < 32 ∧ win.bits ≤ i) := by
  rw [AddrRegion.getLsbD_inputMask, decide_eq_decide]
  refine and_congr_right fun _ => ?_
  rw [Napot.compares_iff (n := win.bits - 1)]
  · omega
  · intro j hj
    rw [getLsbD_matching_ibexAddrRemap, decide_eq_true (by omega), Bool.or_true]
  · rw [getLsbD_matching_ibexAddrRemap, decide_eq_false (by omega), Bool.or_false]
    exact Napot.getLsbD_of_aligned win.start_aligned (by omega)

variable (ptr) in
theorem ibexAddrRemap_matches_iff (hbits : 1 ≤ win.bits) (a : Word) :
    (ibexAddrRemap win.start ptr win.size).Matches a ↔
      win.start.toNat ≤ a.toNat ∧ a.toNat < win.start.toNat + win.size.toNat := by
  have hen : (ibexAddrRemap win.start ptr win.size).en = true := rfl
  rw [win.size_eq, ← Napot.mem_region_iff win.start_aligned, AddrRegion.Matches,
    and_iff_right hen]
  constructor
  · intro h i hi
    by_cases hlt : i < 32
    · have hbit := congrArg (·.getLsbD i) h
      simp only [BitVec.getLsbD_and, getLsbD_inputMask_ibexAddrRemap hbits,
        getLsbD_matching_ibexAddrRemap, decide_eq_true (And.intro hlt hi),
        decide_eq_false (show ¬ 1 + i < win.bits by omega), Bool.or_false, Bool.and_true] at hbit
      exact hbit.symm
    · rw [BitVec.getLsbD_of_ge a i (by omega), BitVec.getLsbD_of_ge win.start i (by omega)]
  · intro h
    refine BitVec.eq_of_getLsbD_eq fun i hlt => ?_
    rw [BitVec.getLsbD_and, BitVec.getLsbD_and, getLsbD_inputMask_ibexAddrRemap hbits,
      getLsbD_matching_ibexAddrRemap]
    by_cases hi : win.bits ≤ i
    · rw [h i hi, decide_eq_false (show ¬ 1 + i < win.bits by omega), Bool.or_false]
    · simp [hi]

/-- An address of the window fetches the byte of the slot at the same offset. -/
theorem toNat_coreAddrTrans (hbits : 1 ≤ win.bits)
    (hptr : 2 ^ win.bits ∣ ptr.toNat) {a : Word} (hge : win.start.toNat ≤ a.toNat)
    (hlt : a.toNat < win.start.toNat + win.size.toNat) :
    (coreAddrTrans [ibexAddrRemap win.start ptr win.size, .off] a).toNat =
      ptr.toNat + (a.toNat - win.start.toNat) := by
  have hmatch := (ibexAddrRemap_matches_iff ptr hbits a).mpr ⟨hge, hlt⟩
  have hfind : [ibexAddrRemap win.start ptr win.size, .off].find?
      (fun region => decide (region.Matches a)) = some (ibexAddrRemap win.start ptr win.size) := by
    rw [List.find?_cons_of_pos]
    exact decide_eq_true hmatch
  rw [coreAddrTrans, hfind]
  rw [win.size_eq] at hlt
  refine Napot.toNat_rebase hptr win.start_aligned hge hlt fun i => ?_
  rw [BitVec.getLsbD_or, BitVec.getLsbD_and, BitVec.getLsbD_not,
    getLsbD_inputMask_ibexAddrRemap hbits]
  have hbits' := win.bits_le
  by_cases hi : i < 32
  · by_cases hk : win.bits ≤ i
    · simp [hi, hk, ibexAddrRemap]
    · simp [hi, hk, ibexAddrRemap, show i < win.bits by omega]
  · simp [hi, ibexAddrRemap, show ¬ i < win.bits by omega]

end Remap

/-! ### Signed code -/

def ManifestDigestRegion.Mem (region : ManifestDigestRegion) (a : Word) : Prop :=
  region.start.toNat ≤ a.toNat ∧ a.toNat < region.start.toNat + region.length.toNat

instance : Membership Word ManifestDigestRegion := ⟨ManifestDigestRegion.Mem⟩

section Signed

variable {win : RomExtWindow} {ptr : Word} {m : Manifest} {minVersion : Word}

theorem slot_add_lt (hptr : ptr = bootPolicyManifestAGet ∨ ptr = bootPolicyManifestBGet) :
    ptr.toNat + 0x10000 < 2 ^ 32 := by
  obtain rfl | rfl := hptr
  · decide
  · decide

/-- An offset in an image of bounded length does not wrap around. -/
theorem toNat_slot_add (hptr : ptr = bootPolicyManifestAGet ∨ ptr = bootPolicyManifestBGet)
    (offset : Word) (hoffset : offset.toNat ≤ 0x10000) :
    (ptr + offset).toNat = ptr.toNat + offset.toNat := by
  have h := slot_add_lt hptr
  rw [BitVec.toNat_add, Nat.mod_eq_of_lt (by omega)]

variable (ptr) in
theorem toNat_romExtVmaGet (hwin : kChipRomExtSizeMax ≤ win.size) (offset : Word)
    (hoffset : offset.toNat ≤ 0x10000) :
    (romExtVmaGet win ptr (ptr + offset)).toNat = win.start.toNat + offset.toNat := by
  have hend := win.end_lt
  have hsize : 0x10000 ≤ win.size.toNat := BitVec.le_def.mp hwin
  rw [romExtVmaGet, BitVec.add_comm ptr offset, BitVec.add_sub_cancel, BitVec.toNat_add,
    Nat.mod_eq_of_lt (by omega), Nat.add_comm]

/-- The image has its code region, which holds the entry point, inside the bytes
from the end of the usage constraints to its length, and no address wraps around. -/
structure CodeInDigestRegion (ptr : Word) (m : Manifest) : Prop where
  nonempty : m.codeStart.toNat < m.codeEnd.toNat
  start_aligned : 4 ∣ m.codeStart.toNat
  end_aligned : 4 ∣ m.codeEnd.toNat
  entry_aligned : 4 ∣ m.entryPoint.toNat
  offset_le_start : kDigestRegionOffset.toNat ≤ m.codeStart.toNat
  end_le_length : m.codeEnd.toNat ≤ m.length.toNat
  code_start : (manifestCodeRegionGet ptr m).start.toNat = ptr.toNat + m.codeStart.toNat
  code_end : (manifestCodeRegionGet ptr m).end_.toNat = ptr.toNat + m.codeEnd.toNat
  entry : (manifestEntryPointGet ptr m).toNat = ptr.toNat + m.entryPoint.toNat
  entry_mem : manifestEntryPointGet ptr m ∈ manifestCodeRegionGet ptr m
  digest_start : (manifestDigestRegionGet ptr m).start.toNat =
    ptr.toNat + kDigestRegionOffset.toNat
  digest_end : (manifestDigestRegionGet ptr m).start.toNat +
    (manifestDigestRegionGet ptr m).length.toNat = ptr.toNat + m.length.toNat

theorem codeInDigestRegion (hptr : ptr = bootPolicyManifestAGet ∨ ptr = bootPolicyManifestBGet)
    (h : m.Accepted minVersion) : CodeInDigestRegion ptr m := by
  have hoffsets := h.offsets
  have hmin := h.min_le_length
  have hmax := h.length_le_max
  obtain ⟨hlt, hsize, hend, hsa, hea, hse, hee, hna⟩ := hoffsets
  have hoff : kDigestRegionOffset.toNat = 432 := by decide
  have hcs := toNat_slot_add hptr m.codeStart (by omega)
  have hce := toNat_slot_add hptr m.codeEnd (by omega)
  have hen := toNat_slot_add hptr m.entryPoint (by omega)
  have hds := toNat_slot_add hptr kDigestRegionOffset (by omega)
  have hlen : (m.length - kDigestRegionOffset).toNat =
      m.length.toNat - kDigestRegionOffset.toNat :=
    BitVec.toNat_sub_of_le (by rw [BitVec.le_def]; omega)
  refine ⟨hlt, hsa, hea, hna, by omega, hend, hcs, hce, hen, ?_, hds, ?_⟩
  · rw [EpmpRegion.mem_iff]
    simp only [manifestCodeRegionGet, manifestEntryPointGet, hcs, hce, hen]
    omega
  · simp only [manifestDigestRegionGet, hds, hlen]
    omega

/-- The translated code region and entry point lie in the window. -/
structure CodeInWindow (win : RomExtWindow) (ptr : Word) (m : Manifest) : Prop where
  start_le : win.start.toNat ≤ (romExtVmaGet win ptr (manifestCodeRegionGet ptr m).start).toNat
  start_lt_end : (romExtVmaGet win ptr (manifestCodeRegionGet ptr m).start).toNat <
    (romExtVmaGet win ptr (manifestCodeRegionGet ptr m).end_).toNat
  end_le : (romExtVmaGet win ptr (manifestCodeRegionGet ptr m).end_).toNat ≤
    win.start.toNat + win.size.toNat
  start_le_entry : (romExtVmaGet win ptr (manifestCodeRegionGet ptr m).start).toNat ≤
    (romExtVmaGet win ptr (manifestEntryPointGet ptr m)).toNat
  entry_lt_end : (romExtVmaGet win ptr (manifestEntryPointGet ptr m)).toNat <
    (romExtVmaGet win ptr (manifestCodeRegionGet ptr m).end_).toNat

variable (ptr) in
theorem codeInWindow (hwin : kChipRomExtSizeMax ≤ win.size) (h : m.Accepted minVersion) :
    CodeInWindow win ptr m := by
  have hmax := h.length_le_max
  have hsize : 0x10000 ≤ win.size.toNat := BitVec.le_def.mp hwin
  obtain ⟨hlt, -, hend, -, -, hse, hee, -⟩ := h.offsets
  have hcs := toNat_romExtVmaGet ptr hwin m.codeStart (by omega)
  have hce := toNat_romExtVmaGet ptr hwin m.codeEnd (by omega)
  have hen := toNat_romExtVmaGet ptr hwin m.entryPoint (by omega)
  constructor
  all_goals
    simp only [manifestCodeRegionGet, manifestEntryPointGet, hcs, hce, hen]
    omega

theorem coreAddrTrans_off (a : Word) : coreAddrTrans [.off, .off] a = a := by
  have hoff : ¬ AddrRegion.off.Matches a := fun h => absurd h.1 (by decide)
  rw [coreAddrTrans, List.find?_cons_of_neg (by simpa using hoff),
    List.find?_cons_of_neg (by simpa using hoff)]
  rfl

/-- What the unlocked text region fetches was hashed. -/
theorem coreAddrTrans_mem_digestRegion
    (hptr : ptr = bootPolicyManifestAGet ∨ ptr = bootPolicyManifestBGet)
    (hwin : kChipRomExtSizeMax ≤ win.size) (h : m.Accepted minVersion) {a : Word}
    (ha : a ∈ romBootTextRegion win ptr m) :
    coreAddrTrans (romBootAddrRegions win ptr m) a ∈ manifestDigestRegionGet ptr m := by
  have hcode := codeInDigestRegion hptr h
  have hds := hcode.digest_start
  have hde := hcode.digest_end
  have hlo := hcode.offset_le_start
  have hhi := hcode.end_le_length
  rw [EpmpRegion.mem_iff] at ha
  change (manifestDigestRegionGet ptr m).start.toNat ≤ _ ∧
    _ < (manifestDigestRegionGet ptr m).start.toNat + (manifestDigestRegionGet ptr m).length.toNat
  unfold romBootTextRegion at ha
  unfold romBootAddrRegions
  by_cases htrans : m.addressTranslation = kHardenedBoolTrue
  · rw [if_pos htrans] at ha
    rw [if_pos htrans]
    have hmax := h.length_le_max
    have hsize : 0x10000 ≤ win.size.toNat := BitVec.le_def.mp hwin
    have hlt := hcode.nonempty
    have hcs := toNat_romExtVmaGet ptr hwin m.codeStart (by omega)
    have hce := toNat_romExtVmaGet ptr hwin m.codeEnd (by omega)
    change (romExtVmaGet win ptr (ptr + m.codeStart)).toNat ≤ _ ∧
      _ < (romExtVmaGet win ptr (ptr + m.codeEnd)).toNat at ha
    rw [hcs, hce] at ha
    have hbits := RomExtWindow.le_bits hwin
    rw [toNat_coreAddrTrans (by omega) (win.slot_aligned hptr) (by omega) (by omega)]
    omega
  · rw [if_neg htrans] at ha
    rw [if_neg htrans, coreAddrTrans_off]
    have hcs := hcode.code_start
    have hce := hcode.code_end
    omega

theorem romBootTextRegion_aligned
    (hptr : ptr = bootPolicyManifestAGet ∨ ptr = bootPolicyManifestBGet)
    (hwin : kChipRomExtSizeMax ≤ win.size) (h : m.Accepted minVersion) :
    4 ∣ (romBootTextRegion win ptr m).start.toNat ∧
      4 ∣ (romBootTextRegion win ptr m).end_.toNat := by
  have hcode := codeInDigestRegion hptr h
  have hlt := hcode.nonempty
  have hsa := hcode.start_aligned
  have hea := hcode.end_aligned
  have hhi := hcode.end_le_length
  have hmax := h.length_le_max
  unfold romBootTextRegion
  by_cases htrans : m.addressTranslation = kHardenedBoolTrue
  · have hcs := toNat_romExtVmaGet ptr hwin m.codeStart (by omega)
    have hce := toNat_romExtVmaGet ptr hwin m.codeEnd (by omega)
    have hstart : 4 ∣ win.start.toNat :=
      (Nat.pow_dvd_pow 2 ((by decide : 2 ≤ 16).trans (RomExtWindow.le_bits hwin))).trans
        win.start_aligned
    simp only [htrans, if_true, manifestCodeRegionGet, hcs, hce]
    omega
  · have hcs := hcode.code_start
    have hce := hcode.code_end
    have hptr4 : 4 ∣ ptr.toNat := by
      obtain rfl | rfl := hptr
      · decide
      · decide
    simp only [if_neg htrans, hcs, hce]
    omega

variable (win ptr m) in
theorem rx_unlocked_romBootUnlocks :
    (unlocked (romBootUnlocks win ptr m)).rx = some (romBootTextRegion win ptr m) := by
  unfold romBootUnlocks
  split_ifs <;> rfl

/-- Code of an accepted manifest is signed code: it lies in the bytes that are hashed,
its translation lies in the window, and apart from the ROM and the debug ROM the ePMP
that `rom_boot` sets up executes hashed bytes only. -/
theorem acceptedCode_isSigned (win : RomExtWindow) (hwin : kChipRomExtSizeMax ≤ win.size)
    (ptr : Word) (hptr : ptr = bootPolicyManifestAGet ∨ ptr = bootPolicyManifestBGet)
    (m : Manifest) (minVersion : Word)
    (hok : bootPolicyManifestCheck m minVersion = kErrorOk) :
    CodeInDigestRegion ptr m ∧ CodeInWindow win ptr m ∧
    (romBootEntryPoint win ptr m ∈ romBootTextRegion win ptr m) ∧
    (∀ a ∈ romBootTextRegion win ptr m,
      coreAddrTrans (romBootAddrRegions win ptr m) a ∈ manifestDigestRegionGet ptr m) ∧
    ∀ (rom : RomSymbols) (lcState : LifecycleState) (a : Word),
      (epmpRun rom lcState (romBootUnlocks win ptr m)).csrs.Allowed .exec a = true →
        a ∈ rom.text ∨ a ∈ debugRomRegion ∨
          coreAddrTrans (romBootAddrRegions win ptr m) a ∈ manifestDigestRegionGet ptr m := by
  have h := (bootPolicyManifestCheck_eq_ok_iff m minVersion).mp hok
  have hcode := codeInDigestRegion hptr h
  have hwindow := codeInWindow ptr hwin h
  refine ⟨hcode, hwindow, ?_, fun a ha => coreAddrTrans_mem_digestRegion hptr hwin h ha,
    fun rom lcState a ha => ?_⟩
  · unfold romBootEntryPoint romBootTextRegion
    split_ifs
    · exact ⟨hwindow.start_le_entry, hwindow.entry_lt_end⟩
    · exact hcode.entry_mem
  · have hrx := rx_unlocked_romBootUnlocks win ptr m
    have hexec := (epmpRun_spec rom lcState (romBootUnlocks win ptr m)).2.mem_of_exec
      (by
        rintro region hregion
        rw [hrx, Option.mem_some_iff] at hregion
        exact hregion ▸ romBootTextRegion_aligned hptr hwin h) ha
    obtain htext | ⟨region, hregion, hmem⟩ | ⟨-, hdebug⟩ := hexec
    · exact .inl htext
    · rw [hrx, Option.mem_some_iff] at hregion
      exact .inr (.inr (coreAddrTrans_mem_digestRegion hptr hwin h (hregion ▸ hmem)))
    · exact .inr (.inl hdebug)

end Signed

/-- The window of the linker script. -/
def romExtVirtual : RomExtWindow where
  start := 0x90000000
  size := 0x80000
  bits := 19
  size_eq := by decide
  start_aligned := by decide
  size_le_slot := by decide
  end_lt := by decide

/-- A translated image of 64 KiB whose code begins right behind the manifest. -/
def translatedManifest : Manifest where
  signature := .replicate _ 0
  usageConstraints := ⟨0, .replicate _ 0, 0, 0, 0⟩
  modulus := .replicate _ 0
  addressTranslation := kHardenedBoolTrue
  identifier := kChipRomExtIdentifier
  length := 0x10000
  securityVersion := 3
  bindingValue := .replicate _ 0
  maxKeyVersion := 1
  codeStart := 0x380
  codeEnd := 0x10000
  entryPoint := 0x384

theorem acceptedCode_isSigned_translatedManifest :
    bootPolicyManifestCheck translatedManifest 2 = kErrorOk ∧
      romBootEntryPoint romExtVirtual bootPolicyManifestBGet translatedManifest ∈
        romBootTextRegion romExtVirtual bootPolicyManifestBGet translatedManifest :=
  ⟨by decide, (acceptedCode_isSigned romExtVirtual (by decide) bootPolicyManifestBGet (.inr rfl)
    translatedManifest 2 (by decide)).2.2.1⟩

end SecureBoot
