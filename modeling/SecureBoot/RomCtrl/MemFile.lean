import SecureBoot.Base.Word
import SecureBoot.Lib.Segments

/-! `mem.py`: memory files as chunks of words, and the loader of 32-bit ELF files. What raises an
exception is an error; the ELF parser is the list of segments it reports. -/

namespace SecureBoot

/-- A contiguous list of words starting at `base_addr`. -/
structure MemChunk where
  base_addr : ℕ
  words : List ℕ
  deriving DecidableEq

/-- The address directly above the chunk. -/
def MemChunk.next_addr (c : MemChunk) : ℕ := c.base_addr + c.words.length

structure MemFile where
  width : ℕ
  chunks : List MemChunk
  deriving DecidableEq

/-- The exceptions that the functions raise. -/
inductive MemError
  | ValueError (message : String)
  | AssertionError
  deriving DecidableEq

/-! ### `load_elf32` -/

inductive PType
  | PT_LOAD
  | other
  deriving DecidableEq

/-- A segment as the parser reports it. -/
structure ElfSegment where
  p_type : PType
  p_paddr : ℕ
  p_filesz : ℕ
  data : List Byte

/-- A tuple of the addresses of the first and of the last byte, and the bytes. -/
structure ElfRange where
  lma : ℕ
  top : ℕ
  data : List Byte

namespace MemFile

/-- `'{:#x}'.format(n)`. -/
def hex (n : ℕ) : String := "0x" ++ String.ofList (Nat.toDigits 16 n)

/-- The segments that are loaded. -/
def isLoaded (segment : ElfSegment) : Bool := segment.p_type = .PT_LOAD ∧ segment.p_filesz ≠ 0

/-- The body of the loop over the segments. -/
def elfRange (base_addr : ℕ) (segment : ElfSegment) : Except MemError ElfRange :=
  let seg_lma : ℤ := segment.p_paddr - base_addr
  let seg_top : ℤ := seg_lma + segment.p_filesz - 1
  if ¬ seg_lma ≤ seg_top then .error .AssertionError
  else if seg_lma < 0 then
    .error (.ValueError ("ELF file contains a segment starting at " ++ hex segment.p_paddr ++
      ", so cannot be loaded relative to base address " ++ hex base_addr ++ "."))
  else .ok ⟨seg_lma.toNat, seg_top.toNat, segment.data⟩

/-- `segments.sort(key=lambda t: t[0])`. -/
def sortRanges (segments : List ElfRange) : List ElfRange :=
  segments.mergeSort fun s t => s.lma ≤ t.lma

/-- The check of one segment against the addresses of the one before it. -/
def checkOverlap (base_addr : ℕ) (s : ℕ × ℕ) (seg : ElfRange) : Except MemError (ℕ × ℕ) :=
  let (prev_lma, next_addr) := s
  if seg.lma < next_addr then
    .error (.ValueError ("ELF file contains overlapping segments with address ranges " ++
      hex (base_addr + prev_lma) ++ ".." ++ hex (base_addr + next_addr - 1) ++ " and " ++
      hex (base_addr + seg.lma) ++ ".." ++ hex (base_addr + seg.top) ++ "."))
  else .ok (seg.lma, seg.top + 1)

/-- A segment padded on the left to a word boundary. -/
def padLeft (seg : ElfRange) : ElfRange :=
  ⟨seg.lma / 4, seg.top,
    if seg.lma % 4 ≠ 0 then List.replicate (seg.lma % 4) 0 ++ seg.data else seg.data⟩

/-- The last merged segment with a further one behind it. -/
def bridge (last seg : ElfRange) : Except MemError ElfRange :=
  if last.top < seg.lma then
    if ¬ seg.lma - (last.top + 1) ≤ 6 then .error .AssertionError
    else .ok ⟨last.lma, seg.top,
      last.data ++ List.replicate (seg.lma - (last.top + 1)) 0 ++ seg.data⟩
  else .ok ⟨last.lma, seg.top, last.data ++ seg.data⟩

/-- The body of the loop that merges segments; the first component of a merged segment is the
address of a word. -/
def merge (s : List ElfRange × ℕ) (seg : ElfRange) : Except MemError (List ElfRange × ℕ) := do
  let (merged_segments, next_word) := s
  let lma_word := seg.lma / 4
  if ¬ next_word ≤ lma_word then throw .AssertionError
  let next_word' := 1 + seg.top / 4
  match merged_segments.getLast? with
  | some last =>
    if next_word = lma_word then
      let last ← bridge last seg
      return (merged_segments.dropLast ++ [last], next_word')
    else return (merged_segments ++ [padLeft seg], next_word')
  | none => return ([padLeft seg], next_word')

/-- The body of the loop over the bytes of a merged segment. -/
def putByte (s : List ℕ × ℕ) (p : Byte × ℕ) : List ℕ × ℕ :=
  let (words, word) := s
  let (byte, idx) := p
  let word := word ||| byte.toNat <<< (8 * (idx % 4))
  if idx % 4 = 3 then (words ++ [word], 0) else (words, word)

/-- The bytes of a merged segment, which has some, as words. -/
def toWords (data : List Byte) : List ℕ :=
  let (words, word) := data.zipIdx.foldl putByte ([], 0)
  let idx := data.length - 1
  if idx % 4 ≠ 3 then words ++ [word] else words

/-- `MemFile.load_elf32`. -/
def load_elf32 (elf_file : List ElfSegment) (base_addr : ℕ) : Except MemError MemFile := do
  let segments ← (elf_file.filter isLoaded).mapM (elfRange base_addr)
  let segments := sortRanges segments
  let _ ← segments.foldlM (checkOverlap base_addr) (0, 0)
  let (merged_segments, _) ← segments.foldlM merge ([], 0)
  return ⟨32, merged_segments.map fun m => ⟨m.lma, toWords m.data⟩⟩

/-! ### Reading -/

variable (mem : MemFile)

/-- The word at an address. -/
def wordAt (addr : ℕ) : Option ℕ :=
  mem.chunks.findSome? fun c => if c.base_addr ≤ addr then c.words[addr - c.base_addr]? else none

/-- The byte at an address, in the little-endian order of the bytes of a word. -/
def byteAt (a : ℕ) : Option Byte :=
  (mem.wordAt (a / 4)).map fun word => BitVec.ofNat 8 (word >>> (8 * (a % 4)))

/-- The chunks are in the order of their addresses, with no address in two of them. -/
def Sorted : Prop := mem.chunks.Pairwise fun c d => c.next_addr ≤ d.base_addr

variable {mem}

theorem exists_of_wordAt {addr word : ℕ} (h : mem.wordAt addr = some word) :
    ∃ c ∈ mem.chunks, c.base_addr ≤ addr ∧ c.words[addr - c.base_addr]? = some word := by
  obtain ⟨c, hc, hword⟩ := List.exists_of_findSome?_eq_some h
  split_ifs at hword with hle
  exact ⟨c, hc, hle, hword⟩

/-- Chunks in order have one word for an address. -/
theorem Sorted.wordAt_eq_some (h : mem.Sorted) {c : MemChunk} (hc : c ∈ mem.chunks)
    {addr word : ℕ} (hle : c.base_addr ≤ addr)
    (hword : c.words[addr - c.base_addr]? = some word) : mem.wordAt addr = some word := by
  have hlt : addr < c.next_addr := by
    have := List.getElem?_eq_some_iff.mp hword
    obtain ⟨hlt, -⟩ := this
    unfold MemChunk.next_addr
    omega
  unfold wordAt
  unfold Sorted at h
  generalize mem.chunks = chunks at h hc
  induction chunks with
  | nil => exact absurd hc List.not_mem_nil
  | cons d chunks ih =>
    obtain ⟨hd, hrest⟩ := List.pairwise_cons.mp h
    rcases List.mem_cons.mp hc with rfl | hc
    · rw [List.findSome?_cons, if_pos hle, hword]
    · have hbefore := hd c hc
      have hnone : (if d.base_addr ≤ addr then d.words[addr - d.base_addr]? else none) = none := by
        split_ifs
        · rw [List.getElem?_eq_none_iff]
          unfold MemChunk.next_addr at hbefore
          omega
        · rfl
      rw [List.findSome?_cons, hnone]
      exact ih hrest hc

end MemFile

end SecureBoot
