import Mathlib.Data.Nat.Size
import SecureBoot.Lib.PyStr
import SecureBoot.RomCtrl.MemFile

/-! The VMEM text of a memory file, its reader, and a file flattened into one chunk. A text is the
list of its ASCII characters. -/

namespace SecureBoot

open PyStr

/-! ### Writing -/

namespace MemChunk

variable (c : MemChunk) (width : ℕ)

def addr_chars : ℕ := max 8 ((c.next_addr.size + 3) / 4)

def word_chars : ℕ := (width + 3) / 4

/-- The number of words on a line, which is one where the difference is negative. -/
def nwords_on_line : ℕ := max 1 ((79 - c.addr_chars) / (1 + word_chars width))

/-- The line of the words from `start_idx` on. -/
def vmemLine (start_idx : ℕ) : List Char :=
  let line_addr := c.base_addr + start_idx
  let words := (c.words.drop start_idx).take (c.nwords_on_line width)
  let toks := ('@' :: formatX c.addr_chars line_addr) :: words.map (formatX (word_chars width))
  join toks ++ ['\n']

/-- The values of `start_idx`. -/
def lineStarts : List ℕ :=
  let n := c.nwords_on_line width
  List.range' 0 ((c.words.length + n - 1) / n) n

/-- The lines of `MemChunk.write_vmem`. -/
def vmemLines : List (List Char) := (c.lineStarts width).map (c.vmemLine width)

end MemChunk

namespace MemFile

/-- `MemFile.write_vmem`. -/
def write_vmem (mem : MemFile) : List Char :=
  (mem.chunks.flatMap fun c => c.vmemLines mem.width).flatten

/-! ### Reading -/

/-- The group of `re.match(r'@([0-9a-fA-F]+)$', tok)`; a token has no line break that `$` could
stand before. -/
def addrMatch : List Char → Option (List Char)
  | '@' :: digits =>
    if digits ≠ [] ∧ digits.all fun c => (hexDigit c).isSome then some digits else none
  | _ => none

/-- The body of the loop over the words of a line. -/
def parseWord (width : ℕ) (p : List Char × ℕ) : Except MemError ℕ :=
  let (word_tok, idx) := p
  match int16 word_tok with
  | none => .error (.ValueError ("Word " ++ toString (idx + 1) ++ " of the line is invalid: " ++
      PyStr.repr word_tok ++ " is not a hex number."))
  | some word =>
    if word < 0 ∨ word >>> width ≠ 0 then
      .error (.ValueError ("Word " ++ toString (idx + 1) ++ " of the line is " ++
        PyStr.repr word_tok ++ ", which does not fit in an unsigned " ++ toString width ++
        "-bit number."))
    else .ok word.toNat

/-- `MemFile._parse_line`. -/
def parse_line (width : ℕ) (line : List Char) : Except MemError (ℕ × List ℕ) :=
  match split line with
  | [] => .error .AssertionError
  | tok :: toks =>
    match addrMatch tok with
    | none => .error (.ValueError ("Bad line format: first token is " ++ PyStr.repr tok ++
        ", which is not in the right format for an address."))
    | some digits =>
      match int16 digits with
      | none => .error (.ValueError ("invalid literal for int() with base 16: " ++
          PyStr.repr digits))
      | some addr => do
        let words ← toks.zipIdx.mapM (parseWord width)
        return (addr.toNat, words)

/-- The finished chunks, and the one that lines are glued onto. -/
abbrev LoadState := List MemChunk × Option MemChunk

/-- The part of the loop body behind the parser. -/
def addLine (s : LoadState) (line_addr : ℕ) (line_words : List ℕ) : Except MemError LoadState :=
  let (chunks, next_chunk) := s
  if line_words = [] then .ok s
  else match next_chunk with
    | none => .ok (chunks, some ⟨line_addr, line_words⟩)
    | some next_chunk =>
      let chunk_end := next_chunk.next_addr
      if line_addr < chunk_end then
        .error (.ValueError ("Cannot read data starting at " ++ hex line_addr ++
          ": we're already at " ++ hex chunk_end ++ ", so this would go backwards."))
      else if line_addr = chunk_end then
        .ok (chunks, some ⟨next_chunk.base_addr, next_chunk.words ++ line_words⟩)
      else .ok (chunks ++ [next_chunk], some ⟨line_addr, line_words⟩)

/-- The body of the loop over the lines. -/
def loadLine (width : ℕ) (s : LoadState) (line : List Char) : Except MemError LoadState :=
  if line = [] ∨ isspace line then .ok s
  else do
    let (line_addr, line_words) ← parse_line width line
    addLine s line_addr line_words

/-- `MemFile._load_preproc`. -/
def load_preproc (width : ℕ) (infile : List Char) : Except MemError MemFile := do
  let (chunks, next_chunk) ← (lines infile).foldlM (loadLine width) ([], none)
  return ⟨width, chunks ++ next_chunk.toList⟩

/-! ### Flattening -/

variable (mem : MemFile)

/-- The address directly above the top of the file. -/
def next_addr : ℕ :=
  match mem.chunks.getLast? with
  | none => 0
  | some c => c.next_addr

/-- Padding with zeros. -/
def padWords (acc : MemChunk) (padding_len : ℕ) : MemChunk :=
  if padding_len ≠ 0 then ⟨acc.base_addr, acc.words ++ List.replicate padding_len 0⟩ else acc

/-- The body of the loop over the chunks. -/
def flattenChunk (acc chunk : MemChunk) : Except MemError MemChunk :=
  let acc_end := acc.next_addr
  if ¬ acc_end ≤ chunk.base_addr then .error .AssertionError
  else
    let acc := padWords acc (chunk.base_addr - acc_end)
    if acc.next_addr ≠ chunk.base_addr then .error .AssertionError
    else .ok ⟨acc.base_addr, acc.words ++ chunk.words⟩

/-- `MemFile.flatten`. -/
def flatten (size : ℕ) : Except MemError MemFile := do
  if ¬ mem.next_addr ≤ size then throw .AssertionError
  let acc ← mem.chunks.foldlM flattenChunk ⟨0, []⟩
  let acc_end := acc.next_addr
  if acc_end ≠ mem.next_addr then throw .AssertionError
  let acc := padWords acc (size - acc_end)
  if acc.next_addr ≠ size then throw .AssertionError
  return ⟨mem.width, [acc]⟩

end MemFile

end SecureBoot

/-! A line of a VMEM text is read as the words it was written from, and the lines of a chunk are
glued to the chunk. -/

namespace SecureBoot

open PyStr

namespace MemFile

/-! ### Lines -/

section

variable {width : ℕ}

theorem parseWord_formatX {word : ℕ} (h : word < 2 ^ width) (k idx : ℕ) :
    parseWord width (formatX k word, idx) = .ok word := by
  have hfits : ¬ ((word : ℤ) < 0 ∨ (word : ℤ) >>> width ≠ 0) := by
    rintro (hneg | hshift)
    · omega
    · apply hshift
      change ((word >>> width : ℕ) : ℤ) = 0
      rw [Nat.shiftRight_eq_div_pow, Nat.div_eq_of_lt h]
      rfl
  simp only [parseWord, int16_formatX]
  rw [if_neg hfits]
  rfl

theorem mapM_parseWord {words : List ℕ} (h : ∀ word ∈ words, word < 2 ^ width) (k idx : ℕ) :
    ((words.map (formatX k)).zipIdx idx).mapM (parseWord width) = .ok words := by
  induction words generalizing idx with
  | nil => rfl
  | cons word words ih =>
    obtain ⟨hword, hrest⟩ := List.forall_mem_cons.mp h
    rw [List.map_cons, List.zipIdx_cons, List.mapM_cons, parseWord_formatX hword, ih hrest]
    rfl

theorem addrMatch_formatX (k addr : ℕ) :
    addrMatch ('@' :: formatX k addr) = some (formatX k addr) := by
  have hdigits : ((formatX k addr).all fun c => (hexDigit c).isSome) = true :=
    List.all_eq_true.mpr (isHex_formatX k addr)
  exact if_pos ⟨formatX_ne_nil k addr, hdigits⟩

theorem token_addr (k addr : ℕ) : Token ('@' :: formatX k addr) where
  ne_nil := List.cons_ne_nil _ _
  solid := List.forall_mem_cons.mpr ⟨by decide, (token_formatX k addr).solid⟩

theorem tokens_vmemLine (k k' addr : ℕ) (words : List ℕ) :
    ∀ tok ∈ ('@' :: formatX k addr) :: words.map (formatX k'), Token tok := by
  refine List.forall_mem_cons.mpr ⟨token_addr k addr, fun tok htok => ?_⟩
  obtain ⟨word, -, rfl⟩ := List.mem_map.mp htok
  exact token_formatX k' word

variable (c : MemChunk) (start_idx : ℕ)

theorem line_vmemLine : Line (c.vmemLine width start_idx) := line_join (tokens_vmemLine _ _ _ _)

/-- A line is read as the words it was written from. -/
theorem loadLine_vmemLine (h : ∀ word ∈ c.words, word < 2 ^ width) (s : LoadState) :
    loadLine width s (c.vmemLine width start_idx) = addLine s (c.base_addr + start_idx)
      ((c.words.drop start_idx).take (c.nwords_on_line width)) := by
  have hsplit : split (c.vmemLine width start_idx) = _ :=
    split_join (tokens_vmemLine _ _ _ _) (List.cons_ne_nil _ _)
  have hslice : ∀ word ∈ (c.words.drop start_idx).take (c.nwords_on_line width),
      word < 2 ^ width := by
    intro word hword
    exact h word (List.mem_of_mem_drop (List.mem_of_mem_take hword))
  have hwords := mapM_parseWord hslice (MemChunk.word_chars width) 0
  have hparse : parse_line width (c.vmemLine width start_idx) = .ok (c.base_addr + start_idx,
      (c.words.drop start_idx).take (c.nwords_on_line width)) := by
    simp only [parse_line, hsplit, addrMatch_formatX, int16_formatX, hwords]
    rfl
  have hblank : ¬ (c.vmemLine width start_idx = [] ∨ isspace (c.vmemLine width start_idx)) := by
    rintro (hnil | hspace)
    · rw [hnil, split_nil] at hsplit
      cases hsplit
    · exact Bool.false_ne_true (((token_addr _ _).not_isspace _ _).symm.trans hspace)
  rw [loadLine, if_neg hblank, hparse]
  rfl

/-! ### Gluing the lines of a chunk -/

theorem addLine_nil (s : LoadState) (addr : ℕ) : addLine s addr [] = .ok s := rfl

/-- Two lines of which the second goes on where the first ends are one line. -/
theorem addLine_addLine (s : LoadState) (addr : ℕ) (words words' : List ℕ) :
    (addLine s addr words >>= fun s => addLine s (addr + words.length) words') =
      addLine s addr (words ++ words') := by
  by_cases hwords : words = []
  · rw [hwords, addLine_nil]
    rfl
  by_cases hwords' : words' = []
  · rw [hwords', List.append_nil]
    exact bind_pure _
  have hboth : words ++ words' ≠ [] := fun h => hwords (List.append_eq_nil_iff.mp h).1
  obtain ⟨chunks, next_chunk⟩ := s
  cases next_chunk with
  | none => simp [addLine, hwords, hwords', bind, Except.bind, MemChunk.next_addr]
  | some last =>
    by_cases hlt : addr < last.next_addr
    · simp [addLine, hwords, hlt, bind, Except.bind]
    · by_cases heq : addr = last.next_addr
      · subst heq
        simp [addLine, hwords, hwords', bind, Except.bind, MemChunk.next_addr, Nat.add_assoc]
      · unfold MemChunk.next_addr at hlt heq
        simp [addLine, hwords, hwords', hlt, heq, bind, Except.bind, MemChunk.next_addr]

theorem nwords_pos : 0 < c.nwords_on_line width := Nat.le_max_left _ _

/-- The first lines of a chunk. -/
theorem foldlM_loadLine_take (h : ∀ word ∈ c.words, word < 2 ^ width) (s : LoadState) {n k : ℕ}
    (hn : n = c.nwords_on_line width) (hk : k ≤ (c.words.length + n - 1) / n) :
    ((List.range' 0 k n).map (c.vmemLine width)).foldlM (loadLine width) s =
      addLine s c.base_addr (c.words.take (k * n)) := by
  have hpos : 0 < n := hn ▸ nwords_pos c
  induction k with
  | zero =>
    rw [Nat.zero_mul, List.take_zero, addLine_nil]
    rfl
  | succ k ih =>
    have hle : (k + 1) * n ≤ c.words.length + n - 1 := (Nat.le_div_iff_mul_le hpos).mp hk
    rw [Nat.succ_mul] at hle
    have hlength : (c.words.take (k * n)).length = k * n := by
      rw [List.length_take]
      omega
    have hnext := addLine_addLine s c.base_addr (c.words.take (k * n))
      ((c.words.drop (k * n)).take n)
    rw [hlength, ← List.take_add, ← Nat.succ_mul] at hnext
    rw [List.range'_concat, List.map_append, List.foldlM_append, ih (by omega), ← hnext]
    refine bind_congr fun s => ?_
    rw [List.map_singleton, List.foldlM_cons, loadLine_vmemLine c _ h, ← hn, Nat.zero_add,
      Nat.mul_comm n k]
    exact bind_pure _

/-- All lines of a chunk are glued to the chunk. -/
theorem foldlM_loadLine (h : ∀ word ∈ c.words, word < 2 ^ width) (s : LoadState) :
    (c.vmemLines width).foldlM (loadLine width) s = addLine s c.base_addr c.words := by
  have hpos : 0 < c.nwords_on_line width := nwords_pos c
  have hall := foldlM_loadLine_take c h s rfl (Nat.le_refl _)
  rw [List.take_of_length_le] at hall
  · exact hall
  · have hlt := Nat.lt_div_mul_add (a := c.words.length + c.nwords_on_line width - 1) hpos
    omega

/-- The reader on the text of some chunks. -/
theorem foldlM_loadLine_flatMap {chunks : List MemChunk}
    (h : ∀ c ∈ chunks, ∀ word ∈ c.words, word < 2 ^ width) (s : LoadState) :
    (chunks.flatMap fun c => c.vmemLines width).foldlM (loadLine width) s =
      chunks.foldlM (fun s c => addLine s c.base_addr c.words) s := by
  induction chunks generalizing s with
  | nil => rfl
  | cons c chunks ih =>
    obtain ⟨hc, hrest⟩ := List.forall_mem_cons.mp h
    rw [List.flatMap_cons, List.foldlM_append, foldlM_loadLine c hc, List.foldlM_cons]
    exact bind_congr fun s => ih hrest s

end

end MemFile

end SecureBoot
