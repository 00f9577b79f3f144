import SecureBoot.Drivers.SpiDevice
import SecureBoot.Host.JedecDecoded

/-! The layout of the basic flash parameter table: for every decoded field the bits that the
standard gives to it, and whether the parser looks at them. The fields of the table that the boot
code serves are decoded as they were encoded, except for the opcode that enables writing. -/

namespace SecureBoot

open Rust InternalJedecParams JedecParams

/-! ### Bits that a field depends on -/

structure BitRange where
  dword : ℕ
  offset : ℕ
  size : ℕ
  deriving DecidableEq

def BitRange.Disjoint (r s : BitRange) : Prop :=
  r.dword ≠ s.dword ∨ r.offset + r.size ≤ s.offset ∨ s.offset + s.size ≤ r.offset

instance : DecidableRel BitRange.Disjoint := fun _ _ => inferInstanceAs (Decidable (_ ∨ _ ∨ _))

def InternalJedecParams.bit (p : InternalJedecParams) (dword i : ℕ) : Bool :=
  (p.data.getD (dword - 1) 0).getLsbD i

/-- Two tables with the same bits in a range. -/
def BitRange.Agree (r : BitRange) (p p' : InternalJedecParams) : Prop :=
  ∀ i < r.size, p.bit r.dword (r.offset + i) = p'.bit r.dword (r.offset + i)

/-- A function of a table that only depends on its length and on the bits of some ranges. -/
def DependsOn {α : Type} (f : InternalJedecParams → α) (ranges : List BitRange) : Prop :=
  ∀ p p', p.data.length = p'.data.length → (∀ r ∈ ranges, r.Agree p p') → f p = f p'

theorem BitField.getLsbD_bits {field : BitField} (h : field.Fits) (word : Word) (i : ℕ) :
    (field.bits word).getLsbD i = (word.getLsbD (field.offset + i) && decide (i < field.size)) := by
  have hmask : ((1 : Word) <<< field.size - 1).getLsbD i = decide (i < field.size) := by
    rw [BitVec.getLsbD, toNat_mask h.2.1, Nat.testBit_two_pow_sub_one]
  rw [bits, BitVec.getLsbD_and, BitVec.getLsbD_ushiftRight, hmask]

variable {α β γ : Type} {f : InternalJedecParams → α} {g : InternalJedecParams → β}
  {l l' : List BitRange}

namespace DependsOn

/-- A field depends on a range that it lies in. -/
theorem within (r : BitRange) (offset size : ℕ) (h : BitField.Fits ⟨offset, size⟩)
    (hle : r.offset ≤ offset ∧ offset + size ≤ r.offset + r.size) :
    DependsOn (fun p => p.bits r.dword offset size) [r] := by
  intro p p' _ hagree
  refine BitVec.eq_of_getLsbD_eq fun i _ => ?_
  refine (BitField.getLsbD_bits h _ i).trans (Eq.trans ?_ (BitField.getLsbD_bits h _ i).symm)
  by_cases hi : i < size
  · have hbit := hagree r (List.mem_singleton_self r) (offset - r.offset + i) (by omega)
    have hindex : r.offset + (offset - r.offset + i) = offset + i := by omega
    rw [hindex] at hbit
    exact congrArg (· && decide (i < size)) hbit
  · rw [decide_eq_false hi, Bool.and_false, Bool.and_false]

theorem map (h : DependsOn f l) (g : α → β) : DependsOn (fun p => g (f p)) l :=
  fun p p' hlen hagree => congrArg g (h p p' hlen hagree)

theorem map₂ (hf : DependsOn f l) (hg : DependsOn g l') (op : α → β → γ) :
    DependsOn (fun p => op (f p) (g p)) (l ++ l') := by
  intro p p' hlen hagree
  rw [List.forall_mem_append] at hagree
  exact congrArg₂ op (hf p p' hlen hagree.1) (hg p p' hlen hagree.2)

/-- A part that only tables from some length on have. -/
theorem ifLength (h : DependsOn f l) (n : ℕ) (a : α) :
    DependsOn (fun p => if n ≤ p.data.length then f p else a) l := by
  intro p p' hlen hagree
  simp only [hlen, h p p' hlen hagree]

theorem bits (dword offset size : ℕ) (h : BitField.Fits ⟨offset, size⟩) :
    DependsOn (fun p => p.bits dword offset size) [⟨dword, offset, size⟩] :=
  within ⟨dword, offset, size⟩ offset size h ⟨le_rfl, le_rfl⟩

theorem byte (dword offset size : ℕ) (h : BitField.Fits ⟨offset, size⟩) :
    DependsOn (fun p => p.byte dword offset size) [⟨dword, offset, size⟩] :=
  (bits dword offset size h).map (BitVec.setWidth 8)

theorem flag (dword offset : ℕ) (h : BitField.Fits ⟨offset, 1⟩) :
    DependsOn (fun p => p.flag dword offset) [⟨dword, offset, 1⟩] :=
  (bits dword offset 1 h).map (· != 0)

theorem count (dword offset size : ℕ) (h : BitField.Fits ⟨offset, size⟩) :
    DependsOn (fun p => p.count dword offset size) [⟨dword, offset, size⟩] :=
  (bits dword offset size h).map fun bits => bits.toNat + 1

theorem unit (units : List Duration) (dword offset size : ℕ) (h : BitField.Fits ⟨offset, size⟩) :
    DependsOn (fun p => p.unit units dword offset size) [⟨dword, offset, size⟩] :=
  (bits dword offset size h).map fun bits => units.getD bits.toNat default

/-- A number of units, each as long as another field says. -/
theorem time (units : List Duration) (dword uo us co cs : ℕ) (hu : BitField.Fits ⟨uo, us⟩)
    (hc : BitField.Fits ⟨co, cs⟩) :
    DependsOn (fun p => p.unit units dword uo us * p.count dword co cs)
      [⟨dword, uo, us⟩, ⟨dword, co, cs⟩] :=
  (unit units dword uo us hu).map₂ (count dword co cs hc) (· * ·)

/-- A time, and the longest one, by a factor in the first bits of the dword. -/
theorem bound (units : List Duration) (dword uo us co cs : ℕ) (hu : BitField.Fits ⟨uo, us⟩)
    (hc : BitField.Fits ⟨co, cs⟩) :
    DependsOn (fun p => p.bound (p.unit units dword uo us * p.count dword co cs) dword 0 4)
      [⟨dword, uo, us⟩, ⟨dword, co, cs⟩, ⟨dword, 0, 4⟩] :=
  (time units dword uo us co cs hu hc).map₂ (count dword 0 4 (by decide))
    fun (typical : Duration) (mult : ℕ) => (⟨typical, typical * (2 * mult)⟩ : TimeBound)

/-- A field of a fast read that a flag announces. -/
theorem announced {param : InternalJedecParams → FastReadParam} {read : FastReadParam → α}
    (dword offset : ℕ) (hflag : BitField.Fits ⟨offset, 1⟩)
    (h : DependsOn (fun p => read (param p)) l) :
    DependsOn (fun p => read (if p.flag dword offset then param p else .default))
      (⟨dword, offset, 1⟩ :: l) := by
  have heq (p : InternalJedecParams) :
      read (if p.flag dword offset then param p else .default) =
        if p.flag dword offset then read (param p) else read .default := by
    cases p.flag dword offset <;> rfl
  intro p p' hlen hagree
  simp only [heq]
  exact (flag dword offset hflag).map₂ h (fun b a => if b then a else read .default) p p' hlen
    hagree

theorem optional {param : InternalJedecParams → FastReadParam} {read : FastReadParam → α}
    (dword offset : ℕ) (hflag : BitField.Fits ⟨offset, 1⟩)
    (h : DependsOn (fun p => read (param p)) l) :
    DependsOn (fun p => (if p.flag dword offset then some (param p) else none).map read)
      (⟨dword, offset, 1⟩ :: l) := by
  have heq (p : InternalJedecParams) :
      (if p.flag dword offset then some (param p) else none).map read =
        if p.flag dword offset then some (read (param p)) else none := by
    cases p.flag dword offset <;> rfl
  intro p p' hlen hagree
  simp only [heq]
  exact (flag dword offset hflag).map₂ (h.map some) (fun b a => if b then a else none) p p' hlen
    hagree

/-- A field of an extension. -/
theorem extension {ext : InternalJedecParams → α} {read : α → β} (n : ℕ)
    (h : DependsOn (fun p => read (ext p)) l) :
    DependsOn (fun p => (if n ≤ p.data.length then some (ext p) else none).map read) l := by
  have heq (p : InternalJedecParams) :
      (if n ≤ p.data.length then some (ext p) else none).map read =
        if n ≤ p.data.length then some (read (ext p)) else none := by
    split <;> rfl
  intro p p' hlen hagree
  simp only [heq]
  exact (h.map some).ifLength n none p p' hlen hagree

end DependsOn

/-! ### The layout -/

/-- A decoded field with the bits that the standard gives to it, none of which the parser misses:
it depends on nothing else. -/
structure PlacedField where
  Value : Type
  get : JedecParams → Value
  ranges : List BitRange
  dependsOn : DependsOn (fun p => get (decoded p)) ranges

namespace PlacedField

def revB (read : JedecParamsRevB → α) (ranges : List BitRange)
    (h : DependsOn (fun p => read (decodedRevB p)) ranges) : PlacedField :=
  ⟨Option α, fun jedec => jedec.revB.map read, ranges, h.extension 16⟩

def revD (read : JedecParamsRevD → α) (ranges : List BitRange)
    (h : DependsOn (fun p => read (decodedRevD p)) ranges) : PlacedField :=
  ⟨Option α, fun jedec => jedec.revD.map read, ranges, h.extension 20⟩

def revF (read : JedecParamsRevF → α) (ranges : List BitRange)
    (h : DependsOn (fun p => read (decodedRevF p)) ranges) : PlacedField :=
  ⟨Option α, fun jedec => jedec.revF.map read, ranges, h.extension 23⟩

end PlacedField

/-- The fields of the first nine dwords, and the erase times. -/
def basicFields : List PlacedField := [
  ⟨_, (·.blockEraseSize), [⟨1, 0, 2⟩], (DependsOn.bits 1 0 2 (by decide)).map BlockEraseSize.fromPrimitive⟩,
  ⟨_, (·.writeGranularity), [⟨1, 2, 1⟩], (DependsOn.bits 1 2 1 (by decide)).map WriteGranularity.fromPrimitive⟩,
  ⟨_, (·.writeEnRequired), [⟨1, 3, 1⟩], .flag 1 3 (by decide)⟩,
  ⟨_, (·.writeEnOpcode), [⟨1, 4, 1⟩],
    (DependsOn.flag 1 4 (by decide)).map (if · then 0x50 else 0x06)⟩,
  ⟨_, (·.eraseOpcode4kib), [⟨1, 8, 8⟩], .byte 1 8 8 (by decide)⟩,
  ⟨_, (·.supportFastRead112), [⟨1, 16, 1⟩], .flag 1 16 (by decide)⟩,
  ⟨_, (·.addressModes), [⟨1, 17, 2⟩], (DependsOn.bits 1 17 2 (by decide)).map
      SupportedAddressModes.fromPrimitive⟩,
  ⟨_, (·.supportDoubleRateClocking), [⟨1, 19, 1⟩], .flag 1 19 (by decide)⟩,
  ⟨_, (·.supportFastRead122), [⟨1, 20, 1⟩], .flag 1 20 (by decide)⟩,
  ⟨_, (·.supportFastRead144), [⟨1, 21, 1⟩], .flag 1 21 (by decide)⟩,
  ⟨_, (·.supportFastRead114), [⟨1, 22, 1⟩], .flag 1 22 (by decide)⟩,
  ⟨_, (·.supportFastRead222), [⟨5, 0, 1⟩], .flag 5 0 (by decide)⟩,
  ⟨_, (·.supportFastRead444), [⟨5, 4, 1⟩], .flag 5 4 (by decide)⟩,
  ⟨_, (·.density), [⟨2, 31, 1⟩, ⟨2, 0, 31⟩],
    (DependsOn.flag 2 31 (by decide)).map₂ (.bits 2 0 31 (by decide))
      fun pow2 (n : Word) => if pow2 then (1 : Word) <<< (n - 8).toNat else (n + 1) / 8⟩,
  ⟨_, (·.erase0.size), [⟨8, 0, 8⟩],
    (DependsOn.byte 8 0 8 (by decide)).map
      fun n : Byte => if n = 0 then 0 else (1 : Word) <<< n.toNat⟩,
  ⟨_, (·.erase0.opcode), [⟨8, 8, 8⟩], .byte 8 8 8 (by decide)⟩,
  ⟨_, (·.erase0.time), [⟨10, 9, 2⟩, ⟨10, 4, 5⟩, ⟨10, 0, 4⟩],
    ((DependsOn.bound eraseTimeUnits 10 9 2 4 5 (by decide) (by decide)).map some).ifLength 16 none⟩,
  ⟨_, (·.erase1.size), [⟨8, 16, 8⟩],
    (DependsOn.byte 8 16 8 (by decide)).map
      fun n : Byte => if n = 0 then 0 else (1 : Word) <<< n.toNat⟩,
  ⟨_, (·.erase1.opcode), [⟨8, 24, 8⟩], .byte 8 24 8 (by decide)⟩,
  ⟨_, (·.erase1.time), [⟨10, 16, 2⟩, ⟨10, 11, 5⟩, ⟨10, 0, 4⟩],
    ((DependsOn.bound eraseTimeUnits 10 16 2 11 5 (by decide) (by decide)).map some).ifLength 16 none⟩,
  ⟨_, (·.erase2.size), [⟨9, 0, 8⟩],
    (DependsOn.byte 9 0 8 (by decide)).map
      fun n : Byte => if n = 0 then 0 else (1 : Word) <<< n.toNat⟩,
  ⟨_, (·.erase2.opcode), [⟨9, 8, 8⟩], .byte 9 8 8 (by decide)⟩,
  ⟨_, (·.erase2.time), [⟨10, 23, 2⟩, ⟨10, 18, 5⟩, ⟨10, 0, 4⟩],
    ((DependsOn.bound eraseTimeUnits 10 23 2 18 5 (by decide) (by decide)).map some).ifLength 16 none⟩,
  ⟨_, (·.erase3.size), [⟨9, 16, 8⟩],
    (DependsOn.byte 9 16 8 (by decide)).map
      fun n : Byte => if n = 0 then 0 else (1 : Word) <<< n.toNat⟩,
  ⟨_, (·.erase3.opcode), [⟨9, 24, 8⟩], .byte 9 24 8 (by decide)⟩,
  ⟨_, (·.erase3.time), [⟨10, 30, 2⟩, ⟨10, 25, 5⟩, ⟨10, 0, 4⟩],
    ((DependsOn.bound eraseTimeUnits 10 30 2 25 5 (by decide) (by decide)).map some).ifLength 16 none⟩]

def fastReadFields : List PlacedField := [
  ⟨_, (·.param144.waitStates), [⟨1, 21, 1⟩, ⟨3, 0, 5⟩],
    (DependsOn.byte 3 0 5 (by decide)).announced 1 21 (by decide)⟩,
  ⟨_, (·.param114.waitStates), [⟨1, 22, 1⟩, ⟨3, 16, 5⟩],
    (DependsOn.byte 3 16 5 (by decide)).announced 1 22 (by decide)⟩,
  ⟨_, (·.param114.modeBits), [⟨1, 22, 1⟩, ⟨3, 21, 3⟩],
    (DependsOn.byte 3 21 3 (by decide)).announced 1 22 (by decide)⟩,
  ⟨_, (·.param114.opcode), [⟨1, 22, 1⟩, ⟨3, 24, 8⟩],
    (DependsOn.byte 3 24 8 (by decide)).announced 1 22 (by decide)⟩,
  ⟨_, (·.param222.waitStates), [⟨5, 0, 1⟩, ⟨6, 16, 5⟩],
    (DependsOn.byte 6 16 5 (by decide)).announced 5 0 (by decide)⟩,
  ⟨_, (·.param222.modeBits), [⟨5, 0, 1⟩, ⟨6, 21, 3⟩],
    (DependsOn.byte 6 21 3 (by decide)).announced 5 0 (by decide)⟩,
  ⟨_, (·.param222.opcode), [⟨5, 0, 1⟩, ⟨6, 24, 8⟩],
    (DependsOn.byte 6 24 8 (by decide)).announced 5 0 (by decide)⟩,
  ⟨_, (·.param444.waitStates), [⟨5, 4, 1⟩, ⟨7, 16, 5⟩],
    (DependsOn.byte 7 16 5 (by decide)).announced 5 4 (by decide)⟩,
  ⟨_, (·.param444.modeBits), [⟨5, 4, 1⟩, ⟨7, 21, 3⟩],
    (DependsOn.byte 7 21 3 (by decide)).announced 5 4 (by decide)⟩,
  ⟨_, (·.param444.opcode), [⟨5, 4, 1⟩, ⟨7, 24, 8⟩],
    (DependsOn.byte 7 24 8 (by decide)).announced 5 4 (by decide)⟩]

def revBFields : List PlacedField := [
  .revB (·.pageSize) [⟨11, 4, 4⟩]
    ((DependsOn.bits 11 4 4 (by decide)).map fun n => (1 : Word) <<< n.toNat),
  .revB (·.pageProgramTime) [⟨11, 13, 1⟩, ⟨11, 8, 5⟩, ⟨11, 0, 4⟩]
    (.bound pagePgmUnits 11 13 1 8 5 (by decide) (by decide)),
  .revB (·.byteProgramTime) [⟨11, 18, 1⟩, ⟨11, 14, 4⟩, ⟨11, 0, 4⟩]
    (.bound bytePgmUnits 11 18 1 14 4 (by decide) (by decide)),
  .revB (·.additionalByteProgramTime) [⟨11, 23, 1⟩, ⟨11, 19, 4⟩, ⟨11, 0, 4⟩]
    (.bound bytePgmUnits 11 23 1 19 4 (by decide) (by decide)),
  .revB (·.chipEraseTime) [⟨11, 29, 2⟩, ⟨11, 24, 5⟩, ⟨11, 0, 4⟩]
    (.bound chipEraseUnits 11 29 2 24 5 (by decide) (by decide)),
  .revB (·.suspendResumeSupported) [⟨12, 31, 1⟩] ((DependsOn.flag 12 31 (by decide)).map not),
  .revB (·.prohibitedOpsProgramSuspend) [⟨12, 0, 4⟩] (.byte 12 0 4 (by decide)),
  .revB (·.prohibitedOpsEraseSuspend) [⟨12, 4, 4⟩] (.byte 12 4 4 (by decide)),
  .revB (·.programResumeToSuspend) [⟨12, 9, 4⟩]
    ((DependsOn.count 12 9 4 (by decide)).map (Duration.fromMillis 64 * ·)),
  .revB (·.suspendInProgressProgramLatency) [⟨12, 18, 2⟩, ⟨12, 13, 5⟩]
    (.time suspendResumeUnits 12 18 2 13 5 (by decide) (by decide)),
  .revB (·.eraseResumeToSuspend) [⟨12, 20, 4⟩]
    ((DependsOn.count 12 20 4 (by decide)).map (Duration.fromMillis 64 * ·)),
  .revB (·.suspendInProgressEraseLatency) [⟨12, 29, 2⟩, ⟨12, 24, 5⟩]
    (.time suspendResumeUnits 12 29 2 24 5 (by decide) (by decide)),
  .revB (·.programResumeInstruction) [⟨13, 0, 8⟩] (.byte 13 0 8 (by decide)),
  .revB (·.programSuspendInstruction) [⟨13, 8, 8⟩] (.byte 13 8 8 (by decide)),
  .revB (·.deepPowerdownSupported) [⟨14, 31, 1⟩] ((DependsOn.flag 14 31 (by decide)).map not),
  .revB (·.enterDeepPowerdownInstruction) [⟨14, 23, 8⟩] (.byte 14 23 8 (by decide)),
  .revB (·.exitDeepPowerdownInstruction) [⟨14, 15, 8⟩] (.byte 14 15 8 (by decide)),
  .revB (·.exitDeepPowerdownDelay) [⟨14, 13, 2⟩, ⟨14, 8, 5⟩]
    (.time suspendResumeUnits 14 13 2 8 5 (by decide) (by decide)),
  .revB (·.statusRegisterPolling) [⟨14, 2, 6⟩] (.byte 14 2 6 (by decide)),
  .revB (·.holdOrResetDisable) [⟨15, 23, 1⟩] (.flag 15 23 (by decide)),
  .revB (·.quadEnableRequirements) [⟨15, 20, 3⟩] (.byte 15 20 3 (by decide)),
  .revB (·.mode444Entry) [⟨15, 16, 4⟩] (.byte 15 16 4 (by decide)),
  .revB (·.mode444Exit) [⟨15, 10, 6⟩] (.byte 15 10 6 (by decide)),
  .revB (·.mode444Supported) [⟨15, 9, 1⟩] (.flag 15 9 (by decide)),
  .revB (·.mode444Disable) [⟨15, 0, 4⟩] (.byte 15 0 4 (by decide)),
  .revB (·.mode444Enable) [⟨15, 4, 5⟩] (.byte 15 4 5 (by decide)),
  .revB (·.enter4bAddressing) [⟨16, 24, 8⟩] (.byte 16 24 8 (by decide)),
  .revB (·.exit4bAddressing) [⟨16, 14, 10⟩]
    ((DependsOn.bits 16 14 10 (by decide)).map (BitVec.setWidth 16)),
  .revB (·.softResetSupport) [⟨16, 8, 6⟩] (.byte 16 8 6 (by decide)),
  .revB (·.statusReg1WriteEnable) [⟨16, 0, 7⟩]
    ((DependsOn.within ⟨16, 0, 7⟩ 0 6 (by decide) (by decide)).map (BitVec.setWidth 8))]

def revDFields : List PlacedField := [
  .revD (·.param188.waitStates) [⟨17, 0, 5⟩] (.byte 17 0 5 (by decide)),
  .revD (·.param188.modeBits) [⟨17, 5, 3⟩] (.byte 17 5 3 (by decide)),
  .revD (·.param188.opcode) [⟨17, 8, 8⟩] (.byte 17 8 8 (by decide)),
  .revD (·.param118.waitStates) [⟨17, 16, 5⟩] (.byte 17 16 5 (by decide)),
  .revD (·.param118.modeBits) [⟨17, 21, 3⟩] (.byte 17 21 3 (by decide)),
  .revD (·.param118.opcode) [⟨17, 24, 8⟩] (.byte 17 24 8 (by decide)),
  .revD (·.outputDriverStrength) [⟨18, 18, 5⟩] (.byte 18 18 5 (by decide)),
  .revD (·.jedecSpiProtocolReset) [⟨18, 23, 1⟩] (.flag 18 23 (by decide)),
  .revD (·.dataStrobeWaveformStr) [⟨18, 24, 2⟩] (.byte 18 24 2 (by decide)),
  .revD (·.dataStrobeSupport4s4s4s) [⟨18, 26, 1⟩] (.flag 18 26 (by decide)),
  .revD (·.dataStrobeSupport4d4d4d) [⟨18, 27, 1⟩] (.flag 18 27 (by decide)),
  .revD (·.octalDtrCommand) [⟨18, 29, 2⟩] (.byte 18 29 2 (by decide)),
  .revD (·.octalByteOrder) [⟨18, 31, 1⟩] (.byte 18 31 1 (by decide)),
  .revD (·.mode8s8s8sDisable) [⟨19, 0, 4⟩] (.byte 19 0 4 (by decide)),
  .revD (·.mode8s8s8sEnable) [⟨19, 4, 5⟩] (.byte 19 4 5 (by decide)),
  .revD (·.mode088Supported) [⟨19, 9, 1⟩] (.flag 19 9 (by decide)),
  .revD (·.mode088Exit) [⟨19, 10, 6⟩] (.byte 19 10 6 (by decide)),
  .revD (·.mode088Enter) [⟨19, 16, 4⟩] (.byte 19 16 4 (by decide)),
  .revD (·.octalEnableRequirements) [⟨19, 20, 3⟩] (.byte 19 20 3 (by decide)),
  .revD (·.maxSpeed4s4s4sNoStrobe) [⟨20, 0, 4⟩]
    ((DependsOn.bits 20 0 4 (by decide)).map MaxSpeed.fromPrimitive),
  .revD (·.maxSpeed4s4s4sStrobe) [⟨20, 4, 4⟩]
    ((DependsOn.bits 20 4 4 (by decide)).map MaxSpeed.fromPrimitive),
  .revD (·.maxSpeed4d4d4dNoStrobe) [⟨20, 8, 4⟩]
    ((DependsOn.bits 20 8 4 (by decide)).map MaxSpeed.fromPrimitive),
  .revD (·.maxSpeed4d4d4dStrobe) [⟨20, 12, 4⟩]
    ((DependsOn.bits 20 12 4 (by decide)).map MaxSpeed.fromPrimitive),
  .revD (·.maxSpeed8s8s8sNoStrobe) [⟨20, 16, 4⟩]
    ((DependsOn.bits 20 16 4 (by decide)).map MaxSpeed.fromPrimitive),
  .revD (·.maxSpeed8s8s8sStrobe) [⟨20, 20, 4⟩]
    ((DependsOn.bits 20 20 4 (by decide)).map MaxSpeed.fromPrimitive),
  .revD (·.maxSpeed8d8d8dNoStrobe) [⟨20, 24, 4⟩]
    ((DependsOn.bits 20 24 4 (by decide)).map MaxSpeed.fromPrimitive),
  .revD (·.maxSpeed8d8d8dStrobe) [⟨20, 28, 4⟩]
    ((DependsOn.bits 20 28 4 (by decide)).map MaxSpeed.fromPrimitive)]

def revFFields : List PlacedField := [
  .revF (·.param1s1d1d.map (·.waitStates)) [⟨21, 0, 1⟩, ⟨22, 0, 5⟩]
    ((DependsOn.byte 22 0 5 (by decide)).optional 21 0 (by decide)),
  .revF (·.param1s1d1d.map (·.modeBits)) [⟨21, 0, 1⟩, ⟨22, 5, 3⟩]
    ((DependsOn.byte 22 5 3 (by decide)).optional 21 0 (by decide)),
  .revF (·.param1s1d1d.map (·.opcode)) [⟨21, 0, 1⟩, ⟨22, 8, 8⟩]
    ((DependsOn.byte 22 8 8 (by decide)).optional 21 0 (by decide)),
  .revF (·.param1s2d2d.map (·.waitStates)) [⟨21, 1, 1⟩, ⟨22, 16, 5⟩]
    ((DependsOn.byte 22 16 5 (by decide)).optional 21 1 (by decide)),
  .revF (·.param1s2d2d.map (·.modeBits)) [⟨21, 1, 1⟩, ⟨22, 21, 3⟩]
    ((DependsOn.byte 22 21 3 (by decide)).optional 21 1 (by decide)),
  .revF (·.param1s2d2d.map (·.opcode)) [⟨21, 1, 1⟩, ⟨22, 24, 8⟩]
    ((DependsOn.byte 22 24 8 (by decide)).optional 21 1 (by decide)),
  .revF (·.param1s4d4d.map (·.waitStates)) [⟨21, 2, 1⟩, ⟨23, 0, 5⟩]
    ((DependsOn.byte 23 0 5 (by decide)).optional 21 2 (by decide)),
  .revF (·.param1s4d4d.map (·.modeBits)) [⟨21, 2, 1⟩, ⟨23, 5, 3⟩]
    ((DependsOn.byte 23 5 3 (by decide)).optional 21 2 (by decide)),
  .revF (·.param1s4d4d.map (·.opcode)) [⟨21, 2, 1⟩, ⟨23, 8, 8⟩]
    ((DependsOn.byte 23 8 8 (by decide)).optional 21 2 (by decide)),
  .revF (·.param4s4d4d.map (·.waitStates)) [⟨21, 3, 1⟩, ⟨23, 16, 5⟩]
    ((DependsOn.byte 23 16 5 (by decide)).optional 21 3 (by decide)),
  .revF (·.param4s4d4d.map (·.modeBits)) [⟨21, 3, 1⟩, ⟨23, 21, 3⟩]
    ((DependsOn.byte 23 21 3 (by decide)).optional 21 3 (by decide)),
  .revF (·.param4s4d4d.map (·.opcode)) [⟨21, 3, 1⟩, ⟨23, 24, 8⟩]
    ((DependsOn.byte 23 24 8 (by decide)).optional 21 3 (by decide))]

/-- Every field that is decoded from its own bits. -/
def placedFields : List PlacedField :=
  basicFields ++ fastReadFields ++ revBFields ++ revDFields ++ revFFields

/-- A decoded field that the parser reads at another place than the standard gives to it, if the
table announces it at all. -/
structure MisplacedField where
  Value : Type
  get : JedecParams → Value
  ranges : List BitRange
  announced : InternalJedecParams → Bool
  read : BitRange
  value : Byte → Value
  absent : Value
  announced_dependsOn : DependsOn announced ranges
  read_pos : 0 < read.dword
  read_le : read.dword ≤ 16
  read_fits : BitField.Fits ⟨read.offset, read.size⟩
  read_elsewhere : read.dword ∉ [1, 2, 8, 9]
  outside : ∀ r ∈ ranges, r.dword ≠ read.dword ∨ read.offset < r.offset ∨
    r.offset + r.size ≤ read.offset
  value_injective : Function.Injective value
  get_eq (p : InternalJedecParams) (h : 16 ≤ p.data.length) : get (decoded p) =
    if announced p then value (p.byte read.dword read.offset read.size) else absent

namespace MisplacedField

/-- A field of a fast read that bit `offset` of the first dword announces. -/
def fastRead (get : FastReadParam → Byte) (param : JedecParams → FastReadParam)
    (paramOf : InternalJedecParams → FastReadParam) (flag : ℕ) (own read : BitRange)
    (h : BitField.Fits ⟨flag, 1⟩)
    (hread : 0 < read.dword ∧ read.dword ≤ 16 ∧ BitField.Fits ⟨read.offset, read.size⟩ ∧
      read.dword ∉ [1, 2, 8, 9])
    (houtside : own.dword ≠ read.dword ∨ read.offset < own.offset ∨
      own.offset + own.size ≤ read.offset)
    (habsent : get .default = 0)
    (hparam : ∀ p, param (decoded p) = if p.flag 1 flag then paramOf p else .default)
    (hget : ∀ p, get (paramOf p) = p.byte read.dword read.offset read.size) :
    MisplacedField where
  Value := Byte
  get := fun jedec => get (param jedec)
  ranges := [⟨1, flag, 1⟩, own]
  announced := fun p => p.flag 1 flag
  read := read
  value := id
  absent := 0
  announced_dependsOn p p' hlen hagree :=
    (DependsOn.flag 1 flag h) p p' hlen fun r hr =>
      hagree r (List.mem_singleton.1 hr ▸ List.mem_cons_self)
  read_pos := hread.1
  read_le := hread.2.1
  read_fits := hread.2.2.1
  read_elsewhere := hread.2.2.2
  outside := by
    intro r hr
    obtain rfl | hr := List.mem_cons.1 hr
    · exact .inl fun h => hread.2.2.2 (h ▸ List.mem_cons_self)
    · obtain rfl := List.mem_singleton.1 hr
      exact houtside
  value_injective := Function.injective_id
  get_eq p _ := by
    rw [hparam]
    cases p.flag 1 flag with
    | true => exact hget p
    | false => exact habsent

/-- A field of the extension of revision B. -/
def revB (get : JedecParamsRevB → Byte) (own read : BitRange)
    (hread : 0 < read.dword ∧ read.dword ≤ 16 ∧ BitField.Fits ⟨read.offset, read.size⟩ ∧
      read.dword ∉ [1, 2, 8, 9])
    (houtside : own.dword ≠ read.dword ∨ read.offset < own.offset ∨
      own.offset + own.size ≤ read.offset)
    (hget : ∀ p, get (decodedRevB p) = p.byte read.dword read.offset read.size) :
    MisplacedField where
  Value := Option Byte
  get := fun jedec => jedec.revB.map get
  ranges := [own]
  announced := fun _ => true
  read := read
  value := some
  absent := none
  announced_dependsOn _ _ _ _ := rfl
  read_pos := hread.1
  read_le := hread.2.1
  read_fits := hread.2.2.1
  read_elsewhere := hread.2.2.2
  outside r hr := List.mem_singleton.1 hr ▸ houtside
  value_injective := Option.some_injective _
  get_eq p h := by
    have hrev : (decoded p).revB = some (decodedRevB p) := if_pos h
    rw [hrev, Option.map_some, hget, if_pos rfl]

end MisplacedField

/-- The opcode of the quad read, for which its first byte is taken. -/
def misplacedOpcode144 : MisplacedField :=
  .fastRead (·.opcode) (·.param144) _ 21 ⟨3, 8, 8⟩ ⟨3, 0, 8⟩ (by decide) (by decide)
    (by decide) rfl (fun _ => rfl) fun _ => rfl

/-- The fields that are read at another place: those of three fast reads, of which two have the
places of each other, and two instructions that change places. -/
def misplacedFields : List MisplacedField := [
  .fastRead (·.modeBits) (·.param144) _ 21 ⟨3, 5, 3⟩ ⟨3, 0, 3⟩ (by decide) (by decide)
    (by decide) rfl (fun _ => rfl) fun _ => rfl,
  misplacedOpcode144,
  .fastRead (·.waitStates) (·.param122) _ 20 ⟨4, 16, 5⟩ ⟨4, 0, 5⟩ (by decide) (by decide)
    (by decide) rfl (fun _ => rfl) fun _ => rfl,
  .fastRead (·.modeBits) (·.param122) _ 20 ⟨4, 21, 3⟩ ⟨4, 0, 3⟩ (by decide) (by decide)
    (by decide) rfl (fun _ => rfl) fun _ => rfl,
  .fastRead (·.opcode) (·.param122) _ 20 ⟨4, 24, 8⟩ ⟨4, 0, 8⟩ (by decide) (by decide)
    (by decide) rfl (fun _ => rfl) fun _ => rfl,
  .fastRead (·.waitStates) (·.param112) _ 16 ⟨4, 0, 5⟩ ⟨4, 16, 5⟩ (by decide) (by decide)
    (by decide) rfl (fun _ => rfl) fun _ => rfl,
  .fastRead (·.modeBits) (·.param112) _ 16 ⟨4, 5, 3⟩ ⟨4, 21, 3⟩ (by decide) (by decide)
    (by decide) rfl (fun _ => rfl) fun _ => rfl,
  .fastRead (·.opcode) (·.param112) _ 16 ⟨4, 8, 8⟩ ⟨4, 22, 8⟩ (by decide) (by decide)
    (by decide) rfl (fun _ => rfl) fun _ => rfl,
  .revB (·.resumeInstruction) ⟨13, 16, 8⟩ ⟨13, 24, 8⟩ (by decide) (by decide) fun _ => rfl,
  .revB (·.suspendInstruction) ⟨13, 24, 8⟩ ⟨13, 16, 8⟩ (by decide) (by decide) fun _ => rfl]

/-- The fields of the standard, dword by dword. -/
def jesd216Layout : List BitRange := [
  ⟨1, 0, 2⟩, ⟨1, 2, 1⟩, ⟨1, 3, 1⟩, ⟨1, 4, 1⟩, ⟨1, 8, 8⟩, ⟨1, 16, 1⟩, ⟨1, 17, 2⟩, ⟨1, 19, 1⟩,
  ⟨1, 20, 1⟩, ⟨1, 21, 1⟩, ⟨1, 22, 1⟩,
  ⟨2, 0, 31⟩, ⟨2, 31, 1⟩,
  ⟨3, 0, 5⟩, ⟨3, 5, 3⟩, ⟨3, 8, 8⟩, ⟨3, 16, 5⟩, ⟨3, 21, 3⟩, ⟨3, 24, 8⟩,
  ⟨4, 0, 5⟩, ⟨4, 5, 3⟩, ⟨4, 8, 8⟩, ⟨4, 16, 5⟩, ⟨4, 21, 3⟩, ⟨4, 24, 8⟩,
  ⟨5, 0, 1⟩, ⟨5, 4, 1⟩,
  ⟨6, 16, 5⟩, ⟨6, 21, 3⟩, ⟨6, 24, 8⟩,
  ⟨7, 16, 5⟩, ⟨7, 21, 3⟩, ⟨7, 24, 8⟩,
  ⟨8, 0, 8⟩, ⟨8, 8, 8⟩, ⟨8, 16, 8⟩, ⟨8, 24, 8⟩,
  ⟨9, 0, 8⟩, ⟨9, 8, 8⟩, ⟨9, 16, 8⟩, ⟨9, 24, 8⟩,
  ⟨10, 0, 4⟩, ⟨10, 4, 5⟩, ⟨10, 9, 2⟩, ⟨10, 11, 5⟩, ⟨10, 16, 2⟩, ⟨10, 18, 5⟩, ⟨10, 23, 2⟩,
  ⟨10, 25, 5⟩, ⟨10, 30, 2⟩,
  ⟨11, 0, 4⟩, ⟨11, 4, 4⟩, ⟨11, 8, 5⟩, ⟨11, 13, 1⟩, ⟨11, 14, 4⟩, ⟨11, 18, 1⟩, ⟨11, 19, 4⟩,
  ⟨11, 23, 1⟩, ⟨11, 24, 5⟩, ⟨11, 29, 2⟩,
  ⟨12, 0, 4⟩, ⟨12, 4, 4⟩, ⟨12, 9, 4⟩, ⟨12, 13, 5⟩, ⟨12, 18, 2⟩, ⟨12, 20, 4⟩, ⟨12, 24, 5⟩,
  ⟨12, 29, 2⟩, ⟨12, 31, 1⟩,
  ⟨13, 0, 8⟩, ⟨13, 8, 8⟩, ⟨13, 16, 8⟩, ⟨13, 24, 8⟩,
  ⟨14, 2, 6⟩, ⟨14, 8, 5⟩, ⟨14, 13, 2⟩, ⟨14, 15, 8⟩, ⟨14, 23, 8⟩, ⟨14, 31, 1⟩,
  ⟨15, 0, 4⟩, ⟨15, 4, 5⟩, ⟨15, 9, 1⟩, ⟨15, 10, 6⟩, ⟨15, 16, 4⟩, ⟨15, 20, 3⟩, ⟨15, 23, 1⟩,
  ⟨16, 0, 7⟩, ⟨16, 8, 6⟩, ⟨16, 14, 10⟩, ⟨16, 24, 8⟩,
  ⟨17, 0, 5⟩, ⟨17, 5, 3⟩, ⟨17, 8, 8⟩, ⟨17, 16, 5⟩, ⟨17, 21, 3⟩, ⟨17, 24, 8⟩,
  ⟨18, 18, 5⟩, ⟨18, 23, 1⟩, ⟨18, 24, 2⟩, ⟨18, 26, 1⟩, ⟨18, 27, 1⟩, ⟨18, 29, 2⟩, ⟨18, 31, 1⟩,
  ⟨19, 0, 4⟩, ⟨19, 4, 5⟩, ⟨19, 9, 1⟩, ⟨19, 10, 6⟩, ⟨19, 16, 4⟩, ⟨19, 20, 3⟩,
  ⟨20, 0, 4⟩, ⟨20, 4, 4⟩, ⟨20, 8, 4⟩, ⟨20, 12, 4⟩, ⟨20, 16, 4⟩, ⟨20, 20, 4⟩, ⟨20, 24, 4⟩,
  ⟨20, 28, 4⟩,
  ⟨21, 0, 1⟩, ⟨21, 1, 1⟩, ⟨21, 2, 1⟩, ⟨21, 3, 1⟩,
  ⟨22, 0, 5⟩, ⟨22, 5, 3⟩, ⟨22, 8, 8⟩, ⟨22, 16, 5⟩, ⟨22, 21, 3⟩, ⟨22, 24, 8⟩,
  ⟨23, 0, 5⟩, ⟨23, 5, 3⟩, ⟨23, 8, 8⟩, ⟨23, 16, 5⟩, ⟨23, 21, 3⟩, ⟨23, 24, 8⟩]

theorem jesd216Layout_pairwise : jesd216Layout.Pairwise BitRange.Disjoint := by
  decide +kernel

/-- The ranges of every decoded field are ranges of the standard. -/
theorem ranges_subset_layout :
    (∀ r ∈ placedFields.flatMap (·.ranges), r ∈ jesd216Layout) ∧
      ∀ r ∈ misplacedFields.flatMap (·.ranges), r ∈ jesd216Layout := by
  decide +kernel

end SecureBoot
