import SecureBoot.Host.JedecParams

/-! What the parser computes from a table that it can decode: every field in terms of the bits that
it comes from, and the tables that it stops on. -/

namespace SecureBoot

open Rust

namespace InternalJedecParams

variable (p : InternalJedecParams)

def flag (dword offset : ℕ) : Bool := p.bits dword offset 1 != 0

def byte (dword offset size : ℕ) : Byte := (p.bits dword offset size).setWidth 8

/-- A number of units, one more than a field says. -/
def count (dword offset size : ℕ) : ℕ := (p.bits dword offset size).toNat + 1

def unit (units : List Duration) (dword offset size : ℕ) : Duration :=
  units.getD (p.bits dword offset size).toNat default

/-- The time of an operation, whose longest time has a factor of its own. -/
def bound (typical : Duration) (dword offset size : ℕ) : TimeBound :=
  ⟨typical, typical * (2 * p.count dword offset size)⟩

/-- A field that an accessor can read from a table of `n` dwords. -/
def Placed (n dword offset size : ℕ) : Prop :=
  0 < dword ∧ dword ≤ n ∧ BitField.Fits ⟨offset, size⟩

instance (n dword offset size : ℕ) : Decidable (Placed n dword offset size) :=
  inferInstanceAs (Decidable (_ ∧ _ ∧ _))

variable {p} {n dword offset size : ℕ} {α : Type}

theorem read_eq {field : JedecField α} {value : Word → α} (hn : n ≤ p.data.length)
    (h : field.dword ≤ n) (ht : field.Total value) :
    p.read field = pure (value (p.bits field.dword field.bitField.offset field.bitField.size)) :=
  ht.returns_read.eq (h.trans hn)

theorem read_bool (hn : n ≤ p.data.length) (h : Placed n dword offset 1) :
    p.read (.bool dword offset 1) = pure (p.flag dword offset) :=
  read_eq hn h.2.1 (JedecField.total_bool h.1 h.2.2)

theorem read_u32 (hn : n ≤ p.data.length) (h : Placed n dword offset size) :
    p.read (.u32 dword offset size) = pure (p.bits dword offset size) :=
  read_eq hn h.2.1 (JedecField.total_u32 h.1 h.2.2)

theorem read_usize (hn : n ≤ p.data.length) (h : Placed n dword offset size) :
    p.read (.usize dword offset size) = pure (p.bits dword offset size).toNat :=
  read_eq hn h.2.1 (JedecField.total_usize h.1 h.2.2)

theorem read_primitive {fromPrimitive : Word → α} (hn : n ≤ p.data.length)
    (h : Placed n dword offset size) :
    p.read (.primitive fromPrimitive dword offset size) =
      pure (fromPrimitive (p.bits dword offset size)) :=
  read_eq hn h.2.1 (JedecField.total_primitive fromPrimitive h.1 h.2.2)

theorem read_u8 (hn : n ≤ p.data.length) (h : Placed n dword offset size) (hle : size ≤ 8) :
    p.read (.u8 dword offset size) = pure (p.byte dword offset size) :=
  read_eq hn h.2.1 (JedecField.total_u8 h.1 h.2.2 hle)

theorem read_u16 (hn : n ≤ p.data.length) (h : Placed n dword offset size) (hle : size ≤ 16) :
    p.read (.u16 dword offset size) = pure ((p.bits dword offset size).setWidth 16) :=
  read_eq hn h.2.1 (JedecField.total_u16 h.1 h.2.2 hle)

theorem toNat_bits_lt (p : InternalJedecParams) (h : Placed n dword offset size) :
    (p.bits dword offset size).toNat < 2 ^ size := h.2.2.toNat_bits_lt _

end InternalJedecParams

open InternalJedecParams

namespace JedecParams

variable {p : InternalJedecParams} {n : ℕ}

theorem fastReadParam_eq {dword w ws m ms o os : ℕ} (hn : n ≤ p.data.length)
    (hw : Placed n dword w ws) (hws : ws ≤ 8) (hm : Placed n dword m ms) (hms : ms ≤ 8)
    (ho : Placed n dword o os) (hos : os ≤ 8) :
    fastReadParam p (.u8 dword w ws) (.u8 dword m ms) (.u8 dword o os) =
      pure ⟨p.byte dword w ws, p.byte dword m ms, p.byte dword o os⟩ := by
  simp only [fastReadParam, read_u8 hn hw hws, read_u8 hn hm hms, read_u8 hn ho hos, pure_bind]

/-- One more than a field of at most five bits. -/
theorem checkedAdd_one {bits : Word} (h : bits.toNat < 32) :
    (checkedAdd bits 1 : SfdpRun Word) = pure (bits + 1) ∧ (bits + 1).toNat = bits.toNat + 1 := by
  have hlt : bits.toNat + 1 < 2 ^ 32 := Nat.lt_trans (Nat.succ_lt_succ h) (by decide)
  refine ⟨(returns_checkedAdd bits 1).eq hlt, ?_⟩
  rw [BitVec.toNat_add]
  exact Nat.mod_eq_of_lt hlt

theorem Duration.mul_eq {d : Duration} {k : Word} (h : d * k.toNat < Duration.fromSecs (2 ^ 64)) :
    d.mul k = pure (d * k.toNat : ℕ) := if_pos h

theorem timeMultiplier_eq {dword offset : ℕ} (hn : n ≤ p.data.length)
    (h : Placed n dword offset 4) : ∃ mult,
      timeMultiplier p (.u32 dword offset 4) = pure mult ∧
        mult.toNat = 2 * p.count dword offset 4 ∧ mult.toNat ≤ 32 := by
  have hlt : (p.bits dword offset 4).toNat < 16 := toNat_bits_lt p h
  obtain ⟨hadd, htoNat⟩ := checkedAdd_one (hlt.trans (by decide))
  have hprod : (2 : Word).toNat * (p.bits dword offset 4 + 1).toNat < 2 ^ 32 := by
    rw [htoNat]
    change 2 * _ < 4294967296
    omega
  refine ⟨2 * (p.bits dword offset 4 + 1), ?_, ?_⟩
  · rw [timeMultiplier, read_u32 hn h, pure_bind, hadd, pure_bind]
    exact (returns_checkedMul _ _).eq hprod
  · rw [BitVec.toNat_mul, Nat.mod_eq_of_lt hprod, htoNat]
    refine ⟨rfl, ?_⟩
    change 2 * _ ≤ 32
    omega

/-- Units that a field of some width chooses from: none is longer than 64 seconds. -/
def Units (units : List Duration) (size : ℕ) : Prop :=
  units.length = 2 ^ size ∧ ∀ d ∈ units, d ≤ Duration.fromSecs 64

theorem unitTime_eq {units : List Duration} {ud uo us td off ts : ℕ} (hn : n ≤ p.data.length)
    (hunits : Units units us) (hu : Placed n ud uo us) (ht : Placed n td off ts) (hts : ts ≤ 5) :
    unitTime p units (.usize ud uo us) (.u32 td off ts) =
        pure (p.unit units ud uo us * p.count td off ts : ℕ) ∧
      p.unit units ud uo us * p.count td off ts ≤ Duration.fromSecs 64 * 32 := by
  have hunit : (p.bits ud uo us).toNat < units.length := hunits.1 ▸ toNat_bits_lt p hu
  have htime : (p.bits td off ts).toNat < 32 :=
    Nat.lt_of_lt_of_le (toNat_bits_lt p ht) (Nat.pow_le_pow_right Nat.two_pos hts)
  have hle : p.unit units ud uo us ≤ Duration.fromSecs 64 := by
    refine hunits.2 _ ?_
    rw [unit, List.getD_eq_getElem?_getD, List.getElem?_eq_getElem hunit, Option.getD_some]
    exact List.getElem_mem hunit
  have hprod : p.unit units ud uo us * p.count td off ts ≤ Duration.fromSecs 64 * 32 :=
    Nat.mul_le_mul hle htime
  obtain ⟨hadd, htoNat⟩ := checkedAdd_one htime
  refine ⟨?_, hprod⟩
  rw [unitTime, read_usize hn hu, pure_bind, (returns_index units _).eq hunit, pure_bind,
    read_u32 hn ht, pure_bind, hadd, pure_bind, Duration.mul_eq, htoNat]
  · rfl
  · rw [htoNat]
    exact Nat.lt_of_le_of_lt hprod (by decide)

theorem timeBound_eq {units : List Duration} {ud uo us td off ts : ℕ} {mult : Word}
    (hn : n ≤ p.data.length) (hunits : Units units us) (hu : Placed n ud uo us)
    (ht : Placed n td off ts) (hts : ts ≤ 5) (hmult : mult.toNat ≤ 32) :
    timeBound p units (.usize ud uo us) (.u32 td off ts) mult =
      pure ⟨p.unit units ud uo us * p.count td off ts,
        p.unit units ud uo us * p.count td off ts * mult.toNat⟩ := by
  obtain ⟨heq, hle⟩ := unitTime_eq hn hunits hu ht hts
  rw [timeBound, heq, pure_bind, Duration.mul_eq, pure_bind]
  exact Nat.lt_of_le_of_lt (Nat.mul_le_mul hle hmult) (by decide)

theorem resumeToSuspend_eq {dword offset : ℕ} (hn : n ≤ p.data.length)
    (h : Placed n dword offset 4) :
    resumeToSuspend p (.u32 dword offset 4) =
      pure (Duration.fromMillis 64 * p.count dword offset 4 : ℕ) := by
  have hlt : (p.bits dword offset 4).toNat < 16 := toNat_bits_lt p h
  have hsum : (1 : Word).toNat + (p.bits dword offset 4).toNat < 2 ^ 32 := by
    change 1 + _ < 4294967296
    omega
  have htoNat : (1 + p.bits dword offset 4).toNat = p.count dword offset 4 := by
    rw [BitVec.toNat_add, Nat.mod_eq_of_lt hsum, Nat.add_comm]
    rfl
  rw [resumeToSuspend, read_u32 hn h, pure_bind, (returns_checkedAdd _ _).eq hsum, pure_bind,
    Duration.mul_eq, htoNat]
  rw [htoNat]
  exact Nat.lt_of_le_of_lt (Nat.mul_le_mul_left _ (Nat.succ_le_succ (Nat.le_of_lt_succ hlt)))
    (by decide)

/-! ### The first nine dwords -/

/-- The size in bytes, when the shift of a power of two stays inside a word. -/
def decodedSize (p : InternalJedecParams) : Word :=
  if p.flag 2 31 then (1 : Word) <<< (p.bits 2 0 31 - 8).toNat else (p.bits 2 0 31 + 1) / 8

/-- A sector size that the parser can represent. -/
def SectorFits (p : InternalJedecParams) (dword offset : ℕ) : Prop :=
  (p.byte dword offset 8).toNat < 32

instance (p : InternalJedecParams) (dword offset : ℕ) : Decidable (SectorFits p dword offset) :=
  inferInstanceAs (Decidable (_ < _))

def decodedSector (p : InternalJedecParams) (dword offset : ℕ) : SectorErase :=
  ⟨if p.byte dword offset 8 = 0 then 0 else (1 : Word) <<< (p.byte dword offset 8).toNat,
    p.byte dword (offset + 8) 8, none⟩

/-- The tables that the parser decodes: it stops on every other one. -/
structure Decodes (p : InternalJedecParams) : Prop where
  length : 9 ≤ p.data.length
  density (h : p.flag 2 31 = true) : 8 ≤ (p.bits 2 0 31).toNat ∧ (p.bits 2 0 31).toNat < 40
  sector1 : SectorFits p 8 0
  sector2 : SectorFits p 8 16
  sector3 : SectorFits p 9 0
  sector4 : SectorFits p 9 16

theorem bits_and_mask (p : InternalJedecParams) :
    p.bits 2 0 31 &&& 0x7fffffff = p.bits 2 0 31 := by
  change (_ &&& (0x7fffffff : Word)) &&& 0x7fffffff = _ &&& (0x7fffffff : Word)
  rw [BitVec.and_assoc, BitVec.and_self]

theorem returns_sizeBytes (p : InternalJedecParams) :
    Returns (2 ≤ p.data.length ∧ (p.flag 2 31 = true →
        8 ≤ (p.bits 2 0 31).toNat ∧ (p.bits 2 0 31).toNat < 40))
      (sizeBytes p) (decodedSize p) := by
  have hflag : Returns (2 ≤ p.data.length) (p.read .densityPow2) (p.flag 2 31) :=
    (JedecField.total_bool (by decide) (by decide)).returns_read
  have hbits : Returns (2 ≤ p.data.length) (p.read .density) (p.bits 2 0 31) :=
    (JedecField.total_u32 (by decide) (by decide)).returns_read
  have hlt : (p.bits 2 0 31).toNat < 2 ^ 31 :=
    toNat_bits_lt p (show Placed 2 2 0 31 by decide)
  have hpow : Returns (8 ≤ (p.bits 2 0 31).toNat ∧ (p.bits 2 0 31).toNat < 40)
      (checkedSub (p.bits 2 0 31 &&& 0x7fffffff) 8 >>= fun shift =>
        (checkedShl 1 shift.toNat : SfdpRun Word))
      ((1 : Word) <<< (p.bits 2 0 31 - 8).toNat) := by
    rw [bits_and_mask]
    refine ((returns_checkedSub _ _).bind fun hle => returns_checkedShl _ _).congr
      (and_congr_right fun hle => ?_)
    rw [BitVec.toNat_sub_of_le hle]
    exact Nat.sub_lt_iff_lt_add hle
  have hplain : Returns ((p.bits 2 0 31).toNat + (1 : Word).toNat < 2 ^ 32)
      (checkedAdd (p.bits 2 0 31) 1 >>= fun sum => (pure (sum / 8) : SfdpRun Word))
      ((p.bits 2 0 31 + 1) / 8) :=
    (returns_checkedAdd _ _).bind_pure _
  refine (hflag.bind fun hlen => Returns.ite (fun _ => hbits.bind fun _ => hpow)
    (fun _ => hbits.bind fun _ => hplain)).congr (and_congr_right fun hlen => ?_)
  cases p.flag 2 31 with
  | true => exact (and_iff_right hlen).trans ⟨fun h _ => h, fun h => h rfl⟩
  | false =>
    refine iff_of_true ⟨hlen, ?_⟩ fun h => absurd h Bool.false_ne_true
    exact Nat.lt_trans (Nat.succ_lt_succ hlt) (by decide)

theorem returns_sectorErase (p : InternalJedecParams) (dword offset : ℕ)
    (hpos : 0 < dword) (hsize : BitField.Fits ⟨offset, 8⟩)
    (hopcode : BitField.Fits ⟨offset + 8, 8⟩) :
    Returns (dword ≤ p.data.length ∧ SectorFits p dword offset)
      (sectorErase p (.u8 dword offset 8) (.u8 dword (offset + 8) 8))
      (decodedSector p dword offset) := by
  have hread {offset : ℕ} (hfits : BitField.Fits ⟨offset, 8⟩) :
      Returns (dword ≤ p.data.length) (p.read (.u8 dword offset 8)) (p.byte dword offset 8) :=
    (JedecField.total_u8 hpos hfits le_rfl).returns_read
  have hpow : Returns (SectorFits p dword offset) (pow2Size (p.byte dword offset 8))
      (decodedSector p dword offset).size := by
    unfold pow2Size decodedSector SectorFits
    by_cases h0 : p.byte dword offset 8 = 0
    · simp only [h0, if_true]
      exact (returns_pure _).congr (iff_of_true trivial (by decide))
    · simp only [h0, if_false]
      exact returns_checkedShl 1 _
  exact ((hread hsize).bind fun _ => hpow.bind fun _ => (hread hopcode).bind_pure _).congr
    (and_congr_right fun hlen => and_iff_left hlen)

def decodedBase (p : InternalJedecParams) : JedecParams where
  blockEraseSize := .fromPrimitive (p.bits 1 0 2)
  writeGranularity := .fromPrimitive (p.bits 1 2 1)
  writeEnRequired := p.flag 1 3
  writeEnOpcode := if p.flag 1 4 then 0x50 else 0x06
  eraseOpcode4kib := p.byte 1 8 8
  supportFastRead112 := p.flag 1 16
  addressModes := .fromPrimitive (p.bits 1 17 2)
  supportDoubleRateClocking := p.flag 1 19
  supportFastRead122 := p.flag 1 20
  supportFastRead144 := p.flag 1 21
  supportFastRead114 := p.flag 1 22
  supportFastRead222 := p.flag 5 0
  supportFastRead444 := p.flag 5 4
  density := decodedSize p
  param112 := .default
  param122 := .default
  param114 := .default
  param144 := .default
  param222 := .default
  param444 := .default
  erase0 := decodedSector p 8 0
  erase1 := decodedSector p 8 16
  erase2 := decodedSector p 9 0
  erase3 := decodedSector p 9 16
  revB := none
  revD := none
  revF := none

theorem returns_base (p : InternalJedecParams) :
    Returns (Decodes p) (base p) (decodedBase p) := by
  have hread {α : Type} {field : JedecField α} {value : Word → α} (ht : field.Total value) :=
    ht.returns_read (p := p)
  have hbool {dword offset : ℕ} (h : Placed 9 dword offset 1) :
      Returns (dword ≤ p.data.length) (p.read (.bool dword offset 1)) (p.flag dword offset) :=
    hread (JedecField.total_bool h.1 h.2.2)
  have hprimitive {α : Type} {fromPrimitive : Word → α} {dword offset size : ℕ}
      (h : Placed 9 dword offset size) : Returns (dword ≤ p.data.length)
      (p.read (.primitive fromPrimitive dword offset size))
      (fromPrimitive (p.bits dword offset size)) :=
    hread (JedecField.total_primitive fromPrimitive h.1 h.2.2)
  have hbyte {dword offset : ℕ} (h : Placed 9 dword offset 8) :
      Returns (dword ≤ p.data.length) (p.read (.u8 dword offset 8)) (p.byte dword offset 8) :=
    hread (JedecField.total_u8 h.1 h.2.2 le_rfl)
  refine Returns.congr (.bind (returns_sizeBytes p) fun _ =>
    .bind (hprimitive (by decide)) fun _ => .bind (hprimitive (by decide)) fun _ =>
    .bind (hbool (by decide)) fun _ => .bind (hbool (by decide)) fun _ =>
    .bind (hbyte (by decide)) fun _ => .bind (hbool (by decide)) fun _ =>
    .bind (hprimitive (by decide)) fun _ => .bind (hbool (by decide)) fun _ =>
    .bind (hbool (by decide)) fun _ => .bind (hbool (by decide)) fun _ =>
    .bind (hbool (by decide)) fun _ => .bind (hbool (by decide)) fun _ =>
    .bind (hbool (by decide)) fun _ =>
    .bind (returns_sectorErase p 8 0 (by decide) (by decide) (by decide)) fun _ =>
    .bind (returns_sectorErase p 8 16 (by decide) (by decide) (by decide)) fun _ =>
    .bind (returns_sectorErase p 9 0 (by decide) (by decide) (by decide)) fun _ =>
    .bind_pure (returns_sectorErase p 9 16 (by decide) (by decide) (by decide)) _) ?_
  constructor
  · rintro ⟨⟨-, hdensity⟩, -, -, -, -, -, -, -, -, -, -, -, -, -, ⟨-, h1⟩, ⟨-, h2⟩, ⟨-, h3⟩,
      hlength, h4⟩
    exact ⟨hlength, hdensity, h1, h2, h3, h4⟩
  · intro h
    have hlength {n : ℕ} (hn : n ≤ 9) : n ≤ p.data.length := hn.trans h.length
    exact ⟨⟨hlength (by decide), h.density⟩, hlength (by decide), hlength (by decide),
      hlength (by decide), hlength (by decide), hlength (by decide), hlength (by decide),
      hlength (by decide), hlength (by decide), hlength (by decide), hlength (by decide),
      hlength (by decide), hlength (by decide), hlength (by decide),
      ⟨hlength (by decide), h.sector1⟩, ⟨hlength (by decide), h.sector2⟩,
      ⟨hlength (by decide), h.sector3⟩, ⟨hlength (by decide), h.sector4⟩⟩

/-! ### The fast reads and the extensions -/

def decodedFastReads (p : InternalJedecParams) (jedec : JedecParams) : JedecParams :=
  { jedec with
    param112 := if jedec.supportFastRead112 then
      ⟨p.byte 4 16 5, p.byte 4 21 3, p.byte 4 22 8⟩ else .default
    param122 := if jedec.supportFastRead122 then
      ⟨p.byte 4 0 5, p.byte 4 0 3, p.byte 4 0 8⟩ else .default
    param144 := if jedec.supportFastRead144 then
      ⟨p.byte 3 0 5, p.byte 3 0 3, p.byte 3 0 8⟩ else .default
    param114 := if jedec.supportFastRead114 then
      ⟨p.byte 3 16 5, p.byte 3 21 3, p.byte 3 24 8⟩ else .default
    param222 := if jedec.supportFastRead222 then
      ⟨p.byte 6 16 5, p.byte 6 21 3, p.byte 6 24 8⟩ else .default
    param444 := if jedec.supportFastRead444 then
      ⟨p.byte 7 16 5, p.byte 7 21 3, p.byte 7 24 8⟩ else .default }

theorem announcedFastRead_eq {support : Bool} {dword w ws m ms o os : ℕ}
    (hn : n ≤ p.data.length) (hw : Placed n dword w ws) (hws : ws ≤ 8)
    (hm : Placed n dword m ms) (hms : ms ≤ 8) (ho : Placed n dword o os) (hos : os ≤ 8) :
    announcedFastRead p support (.u8 dword w ws) (.u8 dword m ms) (.u8 dword o os) =
      pure (if support then ⟨p.byte dword w ws, p.byte dword m ms, p.byte dword o os⟩
        else .default) := by
  rw [announcedFastRead, fastReadParam_eq hn hw hws hm hms ho hos]
  cases support <;> rfl

theorem withFastReads_eq (hn : 9 ≤ p.data.length) (jedec : JedecParams) :
    withFastReads p jedec = pure (decodedFastReads p jedec) := by
  simp (disch := decide) only [withFastReads, announcedFastRead_eq hn, pure_bind]
  rfl

def decodedRevB (p : InternalJedecParams) : JedecParamsRevB where
  pageSize := (1 : Word) <<< (p.bits 11 4 4).toNat
  pageProgramTime := p.bound (p.unit pagePgmUnits 11 13 1 * p.count 11 8 5) 11 0 4
  byteProgramTime := p.bound (p.unit bytePgmUnits 11 18 1 * p.count 11 14 4) 11 0 4
  additionalByteProgramTime := p.bound (p.unit bytePgmUnits 11 23 1 * p.count 11 19 4) 11 0 4
  chipEraseTime := p.bound (p.unit chipEraseUnits 11 29 2 * p.count 11 24 5) 11 0 4
  suspendResumeSupported := !p.flag 12 31
  prohibitedOpsProgramSuspend := p.byte 12 0 4
  prohibitedOpsEraseSuspend := p.byte 12 4 4
  programResumeToSuspend := Duration.fromMillis 64 * p.count 12 9 4
  suspendInProgressProgramLatency := p.unit suspendResumeUnits 12 18 2 * p.count 12 13 5
  eraseResumeToSuspend := Duration.fromMillis 64 * p.count 12 20 4
  suspendInProgressEraseLatency := p.unit suspendResumeUnits 12 29 2 * p.count 12 24 5
  programResumeInstruction := p.byte 13 0 8
  programSuspendInstruction := p.byte 13 8 8
  resumeInstruction := p.byte 13 24 8
  suspendInstruction := p.byte 13 16 8
  deepPowerdownSupported := !p.flag 14 31
  enterDeepPowerdownInstruction := p.byte 14 23 8
  exitDeepPowerdownInstruction := p.byte 14 15 8
  exitDeepPowerdownDelay := p.unit suspendResumeUnits 14 13 2 * p.count 14 8 5
  statusRegisterPolling := p.byte 14 2 6
  holdOrResetDisable := p.flag 15 23
  quadEnableRequirements := p.byte 15 20 3
  mode444Entry := p.byte 15 16 4
  mode444Exit := p.byte 15 10 6
  mode444Supported := p.flag 15 9
  mode444Disable := p.byte 15 0 4
  mode444Enable := p.byte 15 4 5
  enter4bAddressing := p.byte 16 24 8
  exit4bAddressing := (p.bits 16 14 10).setWidth 16
  softResetSupport := p.byte 16 8 6
  statusReg1WriteEnable := p.byte 16 0 6

/-- A sector type, whose time is known if the table is long enough. -/
def SectorErase.withTime (sector : SectorErase) (p : InternalJedecParams) (uo co : ℕ) :
    SectorErase :=
  { sector with
    time := if 16 ≤ p.data.length then
      some (p.bound (p.unit eraseTimeUnits 10 uo 2 * p.count 10 co 5) 10 0 4) else sector.time }

def decodedWithRevB (p : InternalJedecParams) (jedec : JedecParams) : JedecParams :=
  { jedec with
    erase0 := SectorErase.withTime jedec.erase0 p 9 4
    erase1 := SectorErase.withTime jedec.erase1 p 16 11
    erase2 := SectorErase.withTime jedec.erase2 p 23 18
    erase3 := SectorErase.withTime jedec.erase3 p 30 25
    revB := if 16 ≤ p.data.length then some (decodedRevB p) else jedec.revB }

theorem units_eraseTimeUnits : Units eraseTimeUnits 2 := ⟨rfl, by decide⟩

theorem units_chipEraseUnits : Units chipEraseUnits 2 := ⟨rfl, by decide⟩

theorem units_pagePgmUnits : Units pagePgmUnits 1 := ⟨rfl, by decide⟩

theorem units_bytePgmUnits : Units bytePgmUnits 1 := ⟨rfl, by decide⟩

theorem units_suspendResumeUnits : Units suspendResumeUnits 2 := ⟨rfl, by decide⟩

theorem readRevB_eq (hn : 16 ≤ p.data.length) : readRevB p = pure (decodedRevB p) := by
  obtain ⟨mult, hmult, hcount, hle⟩ :=
    timeMultiplier_eq hn (show Placed 16 11 0 4 by decide)
  have hpage : (checkedShl 1 (p.bits 11 4 4).toNat : SfdpRun Word) =
      pure ((1 : Word) <<< (p.bits 11 4 4).toNat) := by
    refine (returns_checkedShl 1 _).eq ?_
    exact Nat.lt_trans (toNat_bits_lt p (show Placed 16 11 4 4 by decide)) (by decide)
  rw [readRevB, hmult, pure_bind]
  simp (disch := first | decide | assumption) only [read_u32 hn, hpage,
    timeBound_eq hn units_pagePgmUnits, timeBound_eq hn units_bytePgmUnits,
    timeBound_eq hn units_chipEraseUnits, read_bool hn, read_u8 hn, read_u16 hn,
    resumeToSuspend_eq hn, (unitTime_eq hn units_suspendResumeUnits _ _ _).1, pure_bind, hcount]
  rfl

theorem withRevB_eq (p : InternalJedecParams) (jedec : JedecParams) :
    withRevB p jedec = pure (decodedWithRevB p jedec) := by
  unfold withRevB decodedWithRevB SectorErase.withTime
  by_cases hn : 16 ≤ p.data.length
  · obtain ⟨mult, hmult, hcount, hle⟩ :=
      timeMultiplier_eq hn (show Placed 16 10 0 4 by decide)
    simp (disch := first | decide | assumption) only [hn, if_true, hmult,
      timeBound_eq hn units_eraseTimeUnits, readRevB_eq hn, pure_bind, hcount]
    rfl
  · simp only [hn, if_false]

def decodedRevD (p : InternalJedecParams) : JedecParamsRevD where
  param118 := ⟨p.byte 17 16 5, p.byte 17 21 3, p.byte 17 24 8⟩
  param188 := ⟨p.byte 17 0 5, p.byte 17 5 3, p.byte 17 8 8⟩
  outputDriverStrength := p.byte 18 18 5
  jedecSpiProtocolReset := p.flag 18 23
  dataStrobeWaveformStr := p.byte 18 24 2
  dataStrobeSupport4s4s4s := p.flag 18 26
  dataStrobeSupport4d4d4d := p.flag 18 27
  octalDtrCommand := p.byte 18 29 2
  octalByteOrder := p.byte 18 31 1
  mode8s8s8sDisable := p.byte 19 0 4
  mode8s8s8sEnable := p.byte 19 4 5
  mode088Supported := p.flag 19 9
  mode088Exit := p.byte 19 10 6
  mode088Enter := p.byte 19 16 4
  octalEnableRequirements := p.byte 19 20 3
  maxSpeed4s4s4sNoStrobe := .fromPrimitive (p.bits 20 0 4)
  maxSpeed4s4s4sStrobe := .fromPrimitive (p.bits 20 4 4)
  maxSpeed4d4d4dNoStrobe := .fromPrimitive (p.bits 20 8 4)
  maxSpeed4d4d4dStrobe := .fromPrimitive (p.bits 20 12 4)
  maxSpeed8s8s8sNoStrobe := .fromPrimitive (p.bits 20 16 4)
  maxSpeed8s8s8sStrobe := .fromPrimitive (p.bits 20 20 4)
  maxSpeed8d8d8dNoStrobe := .fromPrimitive (p.bits 20 24 4)
  maxSpeed8d8d8dStrobe := .fromPrimitive (p.bits 20 28 4)

theorem readRevD_eq (hn : 20 ≤ p.data.length) : readRevD p = pure (decodedRevD p) := by
  simp (disch := decide) only [readRevD, fastReadParam_eq hn, read_u8 hn, read_bool hn,
    read_primitive hn, pure_bind]
  rfl

def decodedRevF (p : InternalJedecParams) : JedecParamsRevF where
  param1s1d1d := if p.flag 21 0 then
    some ⟨p.byte 22 0 5, p.byte 22 5 3, p.byte 22 8 8⟩ else none
  param1s2d2d := if p.flag 21 1 then
    some ⟨p.byte 22 16 5, p.byte 22 21 3, p.byte 22 24 8⟩ else none
  param1s4d4d := if p.flag 21 2 then
    some ⟨p.byte 23 0 5, p.byte 23 5 3, p.byte 23 8 8⟩ else none
  param4s4d4d := if p.flag 21 3 then
    some ⟨p.byte 23 16 5, p.byte 23 21 3, p.byte 23 24 8⟩ else none

theorem optionalFastRead_eq {sd so dword w ws m ms o os : ℕ} (hn : n ≤ p.data.length)
    (hs : Placed n sd so 1) (hw : Placed n dword w ws) (hws : ws ≤ 8)
    (hm : Placed n dword m ms) (hms : ms ≤ 8) (ho : Placed n dword o os) (hos : os ≤ 8) :
    optionalFastRead p (.bool sd so 1) (.u8 dword w ws) (.u8 dword m ms) (.u8 dword o os) =
      pure (if p.flag sd so then
        some ⟨p.byte dword w ws, p.byte dword m ms, p.byte dword o os⟩ else none) := by
  rw [optionalFastRead, read_bool hn hs, pure_bind, fastReadParam_eq hn hw hws hm hms ho hos]
  cases p.flag sd so <;> rfl

theorem readRevF_eq (hn : 23 ≤ p.data.length) : readRevF p = pure (decodedRevF p) := by
  simp (disch := decide) only [readRevF, optionalFastRead_eq hn, pure_bind]
  rfl

/-! ### The whole table -/

/-- What the parser computes from a table. -/
def decoded (p : InternalJedecParams) : JedecParams :=
  { decodedWithRevB p (decodedFastReads p (decodedBase p)) with
    revD := if 20 ≤ p.data.length then some (decodedRevD p) else none
    revF := if 23 ≤ p.data.length then some (decodedRevF p) else none }

theorem withRevD_eq (p : InternalJedecParams) {jedec : JedecParams} (h : jedec.revD = none) :
    withRevD p jedec = pure { jedec with
      revD := if 20 ≤ p.data.length then some (decodedRevD p) else none } := by
  unfold withRevD
  by_cases hn : 20 ≤ p.data.length
  · simp only [hn, if_true, readRevD_eq hn, pure_bind]
  · simp only [hn, if_false, ← h]

theorem withRevF_eq (p : InternalJedecParams) {jedec : JedecParams} (h : jedec.revF = none) :
    withRevF p jedec = pure { jedec with
      revF := if 23 ≤ p.data.length then some (decodedRevF p) else none } := by
  unfold withRevF
  by_cases hn : 23 ≤ p.data.length
  · simp only [hn, if_true, readRevF_eq hn, pure_bind]
  · simp only [hn, if_false, ← h]

/-- The parser decodes the tables of at least nine dwords whose shifts stay inside a word, and
stops on the others. -/
theorem returns_tryFrom (buf : List Byte) :
    Returns (Decodes (.tryFrom buf)) (tryFrom buf) (decoded (.tryFrom buf)) := by
  refine (Returns.bind (returns_base _) fun hd => Returns.of_eq ?_).congr (and_iff_left trivial)
  rw [withFastReads_eq hd.length, pure_bind, withRevB_eq, pure_bind, withRevD_eq _ rfl, pure_bind,
    withRevF_eq _ rfl]
  rfl

end JedecParams

end SecureBoot
