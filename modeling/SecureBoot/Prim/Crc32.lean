import SecureBoot.Base.Crc32
import SecureBoot.Lib.Clocked

/-! `prim_crc32`: a word in each cycle, byte by byte through a table. The register holds the
complement of the check of the bytes since it was last set. -/

namespace SecureBoot

/-! ### The module -/

/-- The table of `crc32_byte_calc`, from the byte `ff` down. -/
def crc32ByteTable : List Word := [
  0x2d02ef8d, 0x5a05df1b, 0xc30c8ea1, 0xb40bbe37, 0x2a6f2b94, 0x5d681b02, 0xc4614ab8, 0xb3667a2e,
  0x23d967bf, 0x54de5729, 0xcdd70693, 0xbad03605, 0x24b4a3a6, 0x53b39330, 0xcabac28a, 0xbdbdf21c,
  0x30b5ffe9, 0x47b2cf7f, 0xdebb9ec5, 0xa9bcae53, 0x37d83bf0, 0x40df0b66, 0xd9d65adc, 0xaed16a4a,
  0x3e6e77db, 0x4969474d, 0xd06016f7, 0xa7672661, 0x3903b3c2, 0x4e048354, 0xd70dd2ee, 0xa00ae278,
  0x166ccf45, 0x616bffd3, 0xf862ae69, 0x8f659eff, 0x11010b5c, 0x66063bca, 0xff0f6a70, 0x88085ae6,
  0x18b74777, 0x6fb077e1, 0xf6b9265b, 0x81be16cd, 0x1fda836e, 0x68ddb3f8, 0xf1d4e242, 0x86d3d2d4,
  0x0bdbdf21, 0x7cdcefb7, 0xe5d5be0d, 0x92d28e9b, 0x0cb61b38, 0x7bb12bae, 0xe2b87a14, 0x95bf4a82,
  0x05005713, 0x72076785, 0xeb0e363f, 0x9c0906a9, 0x026d930a, 0x756aa39c, 0xec63f226, 0x9b64c2b0,
  0x5bdeae1d, 0x2cd99e8b, 0xb5d0cf31, 0xc2d7ffa7, 0x5cb36a04, 0x2bb45a92, 0xb2bd0b28, 0xc5ba3bbe,
  0x5505262f, 0x220216b9, 0xbb0b4703, 0xcc0c7795, 0x5268e236, 0x256fd2a0, 0xbc66831a, 0xcb61b38c,
  0x4669be79, 0x316e8eef, 0xa867df55, 0xdf60efc3, 0x41047a60, 0x36034af6, 0xaf0a1b4c, 0xd80d2bda,
  0x48b2364b, 0x3fb506dd, 0xa6bc5767, 0xd1bb67f1, 0x4fdff252, 0x38d8c2c4, 0xa1d1937e, 0xd6d6a3e8,
  0x60b08ed5, 0x17b7be43, 0x8ebeeff9, 0xf9b9df6f, 0x67dd4acc, 0x10da7a5a, 0x89d32be0, 0xfed41b76,
  0x6e6b06e7, 0x196c3671, 0x806567cb, 0xf762575d, 0x6906c2fe, 0x1e01f268, 0x8708a3d2, 0xf00f9344,
  0x7d079eb1, 0x0a00ae27, 0x9309ff9d, 0xe40ecf0b, 0x7a6a5aa8, 0x0d6d6a3e, 0x94643b84, 0xe3630b12,
  0x73dc1683, 0x04db2615, 0x9dd277af, 0xead54739, 0x74b1d29a, 0x03b6e20c, 0x9abfb3b6, 0xedb88320,
  0xc0ba6cad, 0xb7bd5c3b, 0x2eb40d81, 0x59b33d17, 0xc7d7a8b4, 0xb0d09822, 0x29d9c998, 0x5edef90e,
  0xce61e49f, 0xb966d409, 0x206f85b3, 0x5768b525, 0xc90c2086, 0xbe0b1010, 0x270241aa, 0x5005713c,
  0xdd0d7cc9, 0xaa0a4c5f, 0x33031de5, 0x44042d73, 0xda60b8d0, 0xad678846, 0x346ed9fc, 0x4369e96a,
  0xd3d6f4fb, 0xa4d1c46d, 0x3dd895d7, 0x4adfa541, 0xd4bb30e2, 0xa3bc0074, 0x3ab551ce, 0x4db26158,
  0xfbd44c65, 0x8cd37cf3, 0x15da2d49, 0x62dd1ddf, 0xfcb9887c, 0x8bbeb8ea, 0x12b7e950, 0x65b0d9c6,
  0xf50fc457, 0x8208f4c1, 0x1b01a57b, 0x6c0695ed, 0xf262004e, 0x856530d8, 0x1c6c6162, 0x6b6b51f4,
  0xe6635c01, 0x91646c97, 0x086d3d2d, 0x7f6a0dbb, 0xe10e9818, 0x9609a88e, 0x0f00f934, 0x7807c9a2,
  0xe8b8d433, 0x9fbfe4a5, 0x06b6b51f, 0x71b18589, 0xefd5102a, 0x98d220bc, 0x01db7106, 0x76dc4190,
  0xb6662d3d, 0xc1611dab, 0x58684c11, 0x2f6f7c87, 0xb10be924, 0xc60cd9b2, 0x5f058808, 0x2802b89e,
  0xb8bda50f, 0xcfba9599, 0x56b3c423, 0x21b4f4b5, 0xbfd06116, 0xc8d75180, 0x51de003a, 0x26d930ac,
  0xabd13d59, 0xdcd60dcf, 0x45df5c75, 0x32d86ce3, 0xacbcf940, 0xdbbbc9d6, 0x42b2986c, 0x35b5a8fa,
  0xa50ab56b, 0xd20d85fd, 0x4b04d447, 0x3c03e4d1, 0xa2677172, 0xd56041e4, 0x4c69105e, 0x3b6e20c8,
  0x8d080df5, 0xfa0f3d63, 0x63066cd9, 0x14015c4f, 0x8a65c9ec, 0xfd62f97a, 0x646ba8c0, 0x136c9856,
  0x83d385c7, 0xf4d4b551, 0x6ddde4eb, 0x1adad47d, 0x84be41de, 0xf3b97148, 0x6ab020f2, 0x1db71064,
  0x90bf1d91, 0xe7b82d07, 0x7eb17cbd, 0x09b64c2b, 0x97d2d988, 0xe0d5e91e, 0x79dcb8a4, 0x0edb8832,
  0x9e6495a3, 0xe963a535, 0x706af48f, 0x076dc419, 0x990951ba, 0xee0e612c, 0x77073096, 0x00000000]

def crc32ByteCalc (b : Byte) : Word := crc32ByteTable.getD (255 - b.toNat) 0

/-- The inputs in a cycle. -/
structure PrimCrc32In (BytesPerWord : ℕ) where
  set_crc_i : Bool
  crc_in_i : Word
  data_valid_i : Bool
  data_i : BitVec (BytesPerWord * 8)

namespace PrimCrc32

variable {BytesPerWord : ℕ}

/-- A stage of `g_crc_stages`. -/
def crcStage (data_i : BitVec (BytesPerWord * 8)) (stage : Word) (i : ℕ) : Word :=
  ((0x00 : Byte) ++ stage.extractLsb' 8 24) ^^^
    crc32ByteCalc (stage.extractLsb' 0 8 ^^^ data_i.extractLsb' (i * 8) 8)

/-- `crc_stages[BytesPerWord]`. -/
def crcStages (crc_q : Word) (data_i : BitVec (BytesPerWord * 8)) : Word :=
  (List.range BytesPerWord).foldl (crcStage data_i) crc_q

def reset : Word := 0xFFFFFFFF

/-- The register in the next cycle. -/
def clock (crc_q : Word) (i : PrimCrc32In BytesPerWord) : Word :=
  let crc_en := i.set_crc_i || i.data_valid_i
  let crc_d := if i.set_crc_i then ~~~i.crc_in_i else crcStages crc_q i.data_i
  if crc_en then crc_d else crc_q

def crc_out_o (crc_q : Word) : Word := ~~~crc_q

/-! ### The check of the words -/

/-- The bytes of a word, the least significant one first. -/
def wordBytes (data_i : BitVec (BytesPerWord * 8)) : List Byte :=
  (List.range BytesPerWord).map fun i => data_i.extractLsb' (i * 8) 8

/-- The table holds the bytes shifted out by themselves. -/
theorem crc32ByteCalc_eq (b : Byte) : crc32ByteCalc b = Crc.tableEntry kCrc32Poly b := by
  revert b
  decide +kernel

theorem crcStage_eq (data_i : BitVec (BytesPerWord * 8)) (stage : Word) (i : ℕ) :
    crcStage data_i stage i =
      Crc.addByte kCrc32Poly stage (data_i.extractLsb' (i * 8) 8) := by
  have hlow : stage.extractLsb' 0 8 = stage.setWidth 8 :=
    (BitVec.setWidth_eq_extractLsb' (by decide)).symm
  have hhigh : ((0x00 : Byte) ++ stage.extractLsb' 8 24) = stage >>> 8 :=
    (BitVec.ushiftRight_eq_extractLsb'_of_lt (by decide : 8 < 32)).symm
  rw [Crc.addByte_eq_table, crcStage, crc32ByteCalc_eq, hlow, hhigh]

/-- A word adds its bytes. -/
theorem crcStages_eq (crc_q : Word) (data_i : BitVec (BytesPerWord * 8)) :
    crcStages crc_q data_i = (wordBytes data_i).foldl crc32Add8 crc_q := by
  rw [crcStages, wordBytes, List.foldl_map, crc32Add8_eq]
  congr 1
  funext stage i
  exact crcStage_eq data_i stage i

theorem wordBytes_four (word : BitVec (4 * 8)) :
    wordBytes word = Word.toBytes (word.setWidth 32) := by
  rw [show word.setWidth 32 = word from BitVec.setWidth_eq word]
  rfl

/-! ### Runs -/

variable (inputs : ℕ → PrimCrc32In BytesPerWord)

def crcAt : ℕ → Word := Mealy.stateAt clock reset inputs

/-- The words of the cycles from `m` on, in order. -/
def wordsFrom (m len : ℕ) : List (BitVec (BytesPerWord * 8)) :=
  Mealy.collect (fun k => if (inputs k).data_valid_i then [(inputs k).data_i] else []) m len

/-- The register was reset, or set from zero, when the cycle began. -/
def Fresh (m : ℕ) : Prop :=
  m = 0 ∨ ∃ k, m = k + 1 ∧ (inputs k).set_crc_i = true ∧ (inputs k).crc_in_i = 0

variable {inputs} {m : ℕ}

theorem crcAt_of_fresh (h : Fresh inputs m) : crcAt inputs m = crc32Init := by
  obtain rfl | ⟨k, rfl, hset, hcrc⟩ := h
  · rfl
  · rw [crcAt, Mealy.stateAt_succ, clock, hset, hcrc]
    rfl

/-- One cycle in which the register is not set. -/
theorem clock_eq (crc_q : Word) (i : PrimCrc32In BytesPerWord) (hset : i.set_crc_i = false) :
    clock crc_q i = ((if i.data_valid_i then [i.data_i] else []).flatMap wordBytes).foldl
      crc32Add8 crc_q := by
  cases hvalid : i.data_valid_i with
  | false => simp [clock, hset, hvalid]
  | true => simp [clock, hset, hvalid, crcStages_eq]

/-- The register after the words of some cycles. -/
theorem crcAt_eq (hfresh : Fresh inputs m) {len : ℕ}
    (hset : ∀ k < len, (inputs (m + k)).set_crc_i = false) :
    crcAt inputs (m + len) =
      ((wordsFrom inputs m len).flatMap wordBytes).foldl crc32Add8 crc32Init := by
  induction len with
  | zero => exact crcAt_of_fresh hfresh
  | succ len ih =>
    have hstep := clock_eq (crcAt inputs (m + len)) _ (hset len (Nat.lt_succ_self len))
    rw [ih fun k hk => hset k (Nat.lt_succ_of_lt hk)] at hstep
    rw [wordsFrom, Mealy.collect_succ, List.flatMap_append, List.foldl_append, ← wordsFrom,
      ← hstep, ← ih fun k hk => hset k (Nat.lt_succ_of_lt hk)]
    rfl

/-- The output is the CRC-32 of the bytes of the words since the register was reset or set from
zero, whatever the cycles between them; for words of four bytes it is what the boot code computes
with a call for each word. -/
theorem prim_crc32_agrees (inputs : ℕ → PrimCrc32In BytesPerWord) (m len : ℕ)
    (hfresh : Fresh inputs m) (hset : ∀ k < len, (inputs (m + k)).set_crc_i = false) :
    Crc.IsCheck ieeeGenerator ((wordsFrom inputs m len).flatMap wordBytes)
        (crc_out_o (crcAt inputs (m + len))) ∧
      (BytesPerWord = 4 → crc_out_o (crcAt inputs (m + len)) = crc32Finish
        (((wordsFrom inputs m len).map (·.setWidth 32)).foldl crc32Add32 crc32Init)) := by
  rw [crcAt_eq hfresh hset, crc_out_o]
  constructor
  · rw [crc32Add8_eq, ← modulus_kCrc32Poly]
    exact Crc.isCheck_foldl_addByte kCrc32Poly (by decide) _
  · rintro rfl
    rw [crc32Finish_eq]
    congr 1
    induction wordsFrom inputs m len using List.reverseRecOn with
    | nil => rfl
    | append_singleton words word ih =>
      rw [List.flatMap_append, List.map_append, List.foldl_append, List.foldl_append, ih,
        List.flatMap_singleton, wordBytes_four]
      rfl

/-- The word of the string `abcd` in every cycle. -/
def abcd : ℕ → PrimCrc32In 4 := fun _ => ⟨false, 0, true, 0x64636261⟩

theorem prim_crc32_abcd :
    Crc.IsCheck ieeeGenerator [0x61, 0x62, 0x63, 0x64] (crc_out_o (crcAt abcd 1)) ∧
      crc_out_o (crcAt abcd 1) = crc32Finish (crc32Add32 crc32Init 0x64636261) := by
  have hwords : wordsFrom abcd 0 1 = [0x64636261] := by simp [wordsFrom, abcd]
  have hbytes : wordBytes (0x64636261 : BitVec (4 * 8)) = [0x61, 0x62, 0x63, 0x64] := by decide
  obtain ⟨hcheck, hsoftware⟩ := prim_crc32_agrees abcd 0 1 (.inl rfl) fun _ _ => rfl
  rw [hwords, List.flatMap_singleton, hbytes] at hcheck
  refine ⟨hcheck, (hsoftware rfl).trans ?_⟩
  rw [hwords]
  simp

end PrimCrc32

end SecureBoot
