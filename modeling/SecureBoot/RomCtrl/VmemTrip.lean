import SecureBoot.Lib.Traverse
import SecureBoot.RomCtrl.Vmem

/-! A file in order, flattened: one chunk of the words at all addresses, with zeros where there is
none. -/

namespace SecureBoot.MemFile

/-! ### The words of some chunks -/

/-- The word of a chunk at an address. -/
def chunkAt (c : MemChunk) (addr : ℕ) : Option ℕ :=
  if c.base_addr ≤ addr then c.words[addr - c.base_addr]? else none

/-- The word of some chunks at an address. -/
def chunksAt (chunks : List MemChunk) (addr : ℕ) : Option ℕ :=
  chunks.findSome? fun c => chunkAt c addr

theorem wordAt_eq (mem : MemFile) (addr : ℕ) : mem.wordAt addr = chunksAt mem.chunks addr := rfl

theorem chunksAt_concat (chunks : List MemChunk) (c : MemChunk) (addr : ℕ) :
    chunksAt (chunks ++ [c]) addr = (chunksAt chunks addr).or (chunkAt c addr) := by
  simp [chunksAt, List.findSome?_append]

theorem chunkAt_nil (base_addr addr : ℕ) : chunkAt ⟨base_addr, []⟩ addr = none := by
  simp [chunkAt]

/-- A chunk in two parts. -/
theorem chunkAt_append (base_addr addr : ℕ) (words words' : List ℕ) :
    chunkAt ⟨base_addr, words ++ words'⟩ addr =
      (chunkAt ⟨base_addr, words⟩ addr).or
        (chunkAt ⟨base_addr + words.length, words'⟩ addr) := by
  simp only [chunkAt]
  by_cases hle : base_addr ≤ addr
  · rw [if_pos hle, if_pos hle]
    by_cases hlt : addr < base_addr + words.length
    · have hin : addr - base_addr < words.length := by omega
      rw [List.getElem?_append_left hin, if_neg (by omega), Option.or_none]
    · have hout : words[addr - base_addr]? = none := List.getElem?_eq_none (by omega)
      rw [List.getElem?_append_right (by omega), hout, Option.none_or, if_pos (by omega),
        Nat.sub_add_eq]
  · rw [if_neg hle, if_neg hle, if_neg (by omega)]
    rfl

/-- The address above the last of some chunks. -/
def endAddr (chunks : List MemChunk) : ℕ :=
  match chunks.getLast? with
  | none => 0
  | some c => c.next_addr

theorem next_addr_eq (mem : MemFile) : mem.next_addr = endAddr mem.chunks := rfl

theorem endAddr_concat (chunks : List MemChunk) (c : MemChunk) :
    endAddr (chunks ++ [c]) = c.next_addr := by
  rw [endAddr, List.getLast?_concat]

variable {chunks : List MemChunk} {c : MemChunk}

/-- Chunks in order, the last one behind the others. -/
theorem endAddr_le_of_sorted {width : ℕ} (h : Sorted ⟨width, chunks ++ [c]⟩) :
    Sorted ⟨width, chunks⟩ ∧ endAddr chunks ≤ c.base_addr ∧
      ∀ d ∈ chunks, d.next_addr ≤ c.base_addr := by
  obtain ⟨hsorted, -, hbefore⟩ := List.pairwise_append.mp h
  have hle : ∀ d ∈ chunks, d.next_addr ≤ c.base_addr :=
    fun d hd => hbefore d hd c (List.mem_singleton_self _)
  refine ⟨hsorted, ?_, hle⟩
  unfold endAddr
  split
  · exact Nat.zero_le _
  next d hd => exact hle d (List.mem_of_getLast? hd)

/-- No chunk of a file ends above its last one. -/
theorem Sorted.next_addr_le {width : ℕ} (h : Sorted ⟨width, chunks⟩) :
    ∀ d ∈ chunks, d.next_addr ≤ endAddr chunks := by
  induction chunks using List.reverseRecOn with
  | nil => exact fun d hd => absurd hd List.not_mem_nil
  | append_singleton chunks c ih =>
    obtain ⟨-, -, hbefore⟩ := endAddr_le_of_sorted h
    rw [endAddr_concat]
    refine List.forall_mem_append.mpr ⟨fun d hd => ?_,
      List.forall_mem_singleton.mpr (Nat.le_refl _)⟩
    exact (hbefore d hd).trans (Nat.le_add_right _ _)

/-! ### Flattening -/

/-- The words at the addresses below `size`, with zeros where there is none. -/
def filled (chunks : List MemChunk) (size : ℕ) : List ℕ :=
  (List.range size).map fun addr => (chunksAt chunks addr).getD 0

theorem length_filled (chunks : List MemChunk) (size : ℕ) :
    (filled chunks size).length = size := by
  rw [filled, List.length_map, List.length_range]

theorem chunkAt_of_next_le {addr : ℕ} (h : c.next_addr ≤ addr) : chunkAt c addr = none := by
  unfold MemChunk.next_addr at h
  rw [chunkAt, if_pos (by omega)]
  exact List.getElem?_eq_none (by omega)

theorem chunksAt_of_next_le {addr : ℕ} (h : ∀ d ∈ chunks, d.next_addr ≤ addr) :
    chunksAt chunks addr = none :=
  List.findSome?_eq_none_iff.mpr fun d hd => chunkAt_of_next_le (h d hd)

/-- Padding adds addresses without a word. -/
theorem filled_pad {size size' : ℕ} (h : ∀ d ∈ chunks, d.next_addr ≤ size) (hle : size ≤ size') :
    filled chunks size ++ List.replicate (size' - size) 0 = filled chunks size' := by
  apply List.ext_getElem?
  intro addr
  rcases Nat.lt_or_ge addr size with hlt | hge
  · rw [List.getElem?_append_left (by rwa [length_filled])]
    simp [filled, hlt, Nat.lt_of_lt_of_le hlt hle]
  · rw [List.getElem?_append_right (by rwa [length_filled]), length_filled]
    by_cases hlt : addr < size'
    · have hnone := chunksAt_of_next_le fun d hd => (h d hd).trans hge
      simp [filled, hlt, hnone, show addr - size < size' - size by omega]
    · simp [filled, hlt]
      omega

/-- The words of a chunk behind the others. -/
theorem filled_concat (h : ∀ d ∈ chunks, d.next_addr ≤ c.base_addr) :
    filled chunks c.base_addr ++ c.words = filled (chunks ++ [c]) c.next_addr := by
  apply List.ext_getElem?
  intro addr
  rcases Nat.lt_or_ge addr c.base_addr with hlt | hge
  · have hbelow : addr < c.next_addr := Nat.lt_of_lt_of_le hlt (Nat.le_add_right _ _)
    have hnone : chunkAt c addr = none := if_neg (Nat.not_le.mpr hlt)
    rw [List.getElem?_append_left (by rwa [length_filled])]
    simp [filled, hlt, hbelow, chunksAt_concat, hnone]
  · have hnone := chunksAt_of_next_le fun d hd => (h d hd).trans hge
    rw [List.getElem?_append_right (by rwa [length_filled]), length_filled]
    by_cases hlt : addr < c.next_addr
    · have hin : addr - c.base_addr < c.words.length := by
        unfold MemChunk.next_addr at hlt
        omega
      simp [filled, hlt, chunksAt_concat, hnone, chunkAt, hge, List.getElem?_eq_getElem hin]
    · have hout : c.words.length ≤ addr - c.base_addr := by
        unfold MemChunk.next_addr at hlt
        omega
      simp [filled, hlt, hout]

theorem padWords_eq (base_addr : ℕ) (words : List ℕ) (n : ℕ) :
    padWords ⟨base_addr, words⟩ n = ⟨base_addr, words ++ List.replicate n 0⟩ := by
  cases n with
  | zero => rw [List.replicate_zero, List.append_nil]; rfl
  | succ n => rfl

theorem next_addr_filled (chunks : List MemChunk) (size : ℕ) :
    (⟨0, filled chunks size⟩ : MemChunk).next_addr = size := by
  rw [MemChunk.next_addr, length_filled, Nat.zero_add]

theorem flattenChunk_eq (hle : endAddr chunks ≤ c.base_addr)
    (h : ∀ d ∈ chunks, d.next_addr ≤ endAddr chunks) :
    flattenChunk ⟨0, filled chunks (endAddr chunks)⟩ c =
      .ok ⟨0, filled (chunks ++ [c]) (endAddr (chunks ++ [c]))⟩ := by
  simp only [flattenChunk, padWords_eq, next_addr_filled, filled_pad h hle]
  rw [if_neg (not_not.mpr hle), if_neg (not_not.mpr rfl),
    filled_concat fun d hd => (h d hd).trans hle, endAddr_concat]

theorem foldlM_flattenChunk {width : ℕ} (h : Sorted ⟨width, chunks⟩) :
    chunks.foldlM flattenChunk ⟨0, []⟩ = .ok ⟨0, filled chunks (endAddr chunks)⟩ := by
  induction chunks using List.reverseRecOn with
  | nil => rfl
  | append_singleton chunks c ih =>
    obtain ⟨hsorted, hend, -⟩ := endAddr_le_of_sorted h
    exact (Traverse.foldlM_concat (ih hsorted) c).trans
      (flattenChunk_eq hend hsorted.next_addr_le)

/-- A file in order is flattened to its words, with zeros where it has none. -/
theorem Sorted.flatten_eq {mem : MemFile} (h : mem.Sorted) {size : ℕ}
    (hsize : mem.next_addr ≤ size) :
    mem.flatten size = .ok ⟨mem.width, [⟨0, filled mem.chunks size⟩]⟩ := by
  obtain ⟨width, chunks⟩ := mem
  rw [next_addr_eq] at hsize
  have hpad : padWords ⟨0, filled chunks (endAddr chunks)⟩ (size - endAddr chunks) =
      ⟨0, filled chunks size⟩ := by
    rw [padWords_eq, filled_pad h.next_addr_le hsize]
  simp [flatten, next_addr_eq, foldlM_flattenChunk h, hsize, next_addr_filled, hpad, bind,
    Except.bind, pure, Except.pure]

end SecureBoot.MemFile

/-! What `write_vmem` writes is read back: the same words at the same addresses, in chunks that do
not touch. -/

namespace SecureBoot.MemFile

open PyStr

/-! ### Gluing chunks -/

/-- The same words in chunks that do not touch. -/
structure Glued (done chunks : List MemChunk) : Prop where
  at_eq : ∀ addr, chunksAt chunks addr = chunksAt done addr
  gaps : chunks.Pairwise fun c d => c.next_addr < d.base_addr
  ne_nil : ∀ c ∈ chunks, c.words ≠ []
  below : endAddr chunks ≤ endAddr done

theorem glued_nil : Glued [] [] where
  at_eq _ := rfl
  gaps := .nil
  ne_nil _ hc := absurd hc List.not_mem_nil
  below := Nat.le_refl _

variable {done chunks : List MemChunk} {c last : MemChunk}

/-- A chunk without words leaves no trace. -/
theorem Glued.skip (h : Glued done chunks) (hc : endAddr done ≤ c.base_addr)
    (hwords : c.words = []) : Glued (done ++ [c]) chunks where
  at_eq addr := by
    obtain ⟨base_addr, words⟩ := c
    obtain rfl : words = [] := hwords
    rw [chunksAt_concat, chunkAt_nil, Option.or_none, h.at_eq]
  gaps := h.gaps
  ne_nil := h.ne_nil
  below := by
    rw [endAddr_concat]
    exact h.below.trans (hc.trans (Nat.le_add_right _ _))

/-- A chunk behind a gap. -/
theorem Glued.push (h : Glued done chunks) (hwords : c.words ≠ [])
    (hgap : ∀ d ∈ chunks, d.next_addr < c.base_addr) : Glued (done ++ [c]) (chunks ++ [c]) where
  at_eq addr := by rw [chunksAt_concat, chunksAt_concat, h.at_eq]
  gaps := by
    refine List.pairwise_append.mpr ⟨h.gaps, List.pairwise_singleton _ _, fun d hd => ?_⟩
    exact List.forall_mem_singleton.mpr (hgap d hd)
  ne_nil := List.forall_mem_append.mpr ⟨h.ne_nil, List.forall_mem_singleton.mpr hwords⟩
  below := by rw [endAddr_concat, endAddr_concat]

/-- A chunk that touches the last one. -/
theorem Glued.glue (h : Glued done (chunks ++ [last])) (hwords : c.words ≠ [])
    (htouch : c.base_addr = last.next_addr) :
    Glued (done ++ [c]) (chunks ++ [⟨last.base_addr, last.words ++ c.words⟩]) where
  at_eq addr := by
    have hparts := chunkAt_append last.base_addr addr last.words c.words
    rw [show last.base_addr + last.words.length = c.base_addr from htouch.symm] at hparts
    rw [chunksAt_concat, hparts, ← Option.or_assoc, ← chunksAt_concat, h.at_eq, chunksAt_concat]
  gaps := by
    have hgaps := h.gaps
    rw [List.pairwise_append] at hgaps ⊢
    simpa using hgaps
  ne_nil := by
    have hne := h.ne_nil
    rw [List.forall_mem_append] at hne ⊢
    exact ⟨hne.1, by simp [hwords]⟩
  below := by
    rw [endAddr_concat, endAddr_concat]
    change last.base_addr + (last.words ++ c.words).length ≤ c.base_addr + c.words.length
    rw [List.length_append, htouch, MemChunk.next_addr, Nat.add_assoc]

/-- The chunks in front of the last one end before it. -/
theorem Glued.lt_of_last (h : Glued done (chunks ++ [last])) {addr : ℕ}
    (hlt : last.next_addr < addr) : ∀ d ∈ chunks ++ [last], d.next_addr < addr := by
  refine List.forall_mem_append.mpr ⟨fun d hd => ?_, List.forall_mem_singleton.mpr hlt⟩
  have hbefore := (List.pairwise_append.mp h.gaps).2.2 d hd last (List.mem_singleton_self _)
  exact hbefore.trans (Nat.lt_of_le_of_lt (Nat.le_add_right _ _) hlt)

/-- The chunks of a state, which has a chunk to glue to if it has any. -/
structure Holds (s : LoadState) (chunks : List MemChunk) : Prop where
  eq : s.1 ++ s.2.toList = chunks
  fresh : s.2 = none → s.1 = []

/-- A chunk behind the others is skipped, glued to the last one, or added. -/
theorem Glued.step {s : LoadState} (h : Glued done chunks) (hs : Holds s chunks)
    (hc : endAddr done ≤ c.base_addr) :
    ∃ s' chunks', addLine s c.base_addr c.words = .ok s' ∧ Holds s' chunks' ∧
      Glued (done ++ [c]) chunks' := by
  by_cases hwords : c.words = []
  · exact ⟨s, chunks, by rw [hwords, addLine_nil], hs, h.skip hc hwords⟩
  obtain ⟨before, next_chunk⟩ := s
  obtain ⟨rfl, hfresh⟩ := hs
  cases next_chunk with
  | none =>
    obtain rfl : before = [] := hfresh rfl
    refine ⟨([], some c), [c], if_neg hwords, ⟨rfl, fun _ => rfl⟩, ?_⟩
    exact h.push hwords fun d hd => absurd hd List.not_mem_nil
  | some last =>
    have h : Glued done (before ++ [last]) := h
    have hlast : last.next_addr ≤ c.base_addr := by
      have hbelow := h.below
      rw [endAddr_concat] at hbelow
      exact hbelow.trans hc
    by_cases htouch : c.base_addr = last.next_addr
    · refine ⟨(before, some ⟨last.base_addr, last.words ++ c.words⟩), _, ?_,
        ⟨rfl, fun h => by cases h⟩, h.glue hwords htouch⟩
      simp [addLine, hwords, htouch]
    · refine ⟨(before ++ [last], some c), _, ?_, ⟨rfl, fun h => by cases h⟩,
        h.push hwords (h.lt_of_last (by omega))⟩
      simp [addLine, hwords, htouch, Nat.not_lt.mpr hlast]

/-- The reader, with each chunk as one line. -/
theorem foldlM_addLine {width : ℕ} (h : Sorted ⟨width, done⟩) :
    ∃ s chunks, done.foldlM (fun s c => addLine s c.base_addr c.words) ([], none) = .ok s ∧
      Holds s chunks ∧ Glued done chunks := by
  induction done using List.reverseRecOn with
  | nil => exact ⟨([], none), [], rfl, ⟨rfl, fun _ => rfl⟩, glued_nil⟩
  | append_singleton done c ih =>
    obtain ⟨hsorted, hend, -⟩ := endAddr_le_of_sorted h
    obtain ⟨s, chunks, hrun, hs, hglued⟩ := ih hsorted
    obtain ⟨s', chunks', hstep, hs', hglued'⟩ := hglued.step hs hend
    exact ⟨s', chunks', (Traverse.foldlM_concat hrun c).trans hstep, hs', hglued'⟩

/-! ### The round trip -/

/-- The words fit the width. -/
def Fits (mem : MemFile) : Prop := ∀ c ∈ mem.chunks, ∀ word ∈ c.words, word < 2 ^ mem.width

/-- No two chunks of the file touch. -/
structure Separate (mem : MemFile) : Prop where
  gaps : mem.chunks.Pairwise fun c d => c.next_addr < d.base_addr
  ne_nil : ∀ c ∈ mem.chunks, c.words ≠ []

/-- The reader on the text of a file. -/
theorem load_preproc_write_vmem {mem : MemFile} (hsorted : mem.Sorted) (hfits : mem.Fits) :
    ∃ chunks, load_preproc mem.width mem.write_vmem = .ok ⟨mem.width, chunks⟩ ∧
      Glued mem.chunks chunks := by
  obtain ⟨s, chunks, hrun, ⟨rfl, -⟩, hglued⟩ := foldlM_addLine hsorted
  refine ⟨_, ?_, hglued⟩
  have hlines : lines mem.write_vmem = mem.chunks.flatMap fun c => c.vmemLines mem.width := by
    apply lines_flatten
    intro line hline
    obtain ⟨c, -, hline⟩ := List.mem_flatMap.mp hline
    obtain ⟨start_idx, -, rfl⟩ := List.mem_map.mp hline
    exact line_vmemLine c start_idx
  rw [load_preproc, hlines, foldlM_loadLine_flatMap hfits, hrun]
  rfl

/-- The text of a file in order is read as a file with the same words at the same addresses, in
chunks that do not touch; flattened to any size it has room in, that file is its words with zeros
between and behind them. -/
theorem vmem_round_trip (mem : MemFile) (hsorted : mem.Sorted) (hfits : mem.Fits) :
    ∃ mem', load_preproc mem.width mem.write_vmem = .ok mem' ∧ mem'.width = mem.width ∧
      (∀ addr, mem'.wordAt addr = mem.wordAt addr) ∧ mem'.Separate ∧
      mem'.next_addr ≤ mem.next_addr ∧
      ∀ size, mem'.next_addr ≤ size → mem'.flatten size =
        .ok ⟨mem.width, [⟨0, (List.range size).map fun addr => (mem.wordAt addr).getD 0⟩]⟩ := by
  obtain ⟨chunks, hload, hglued⟩ := load_preproc_write_vmem hsorted hfits
  refine ⟨_, hload, rfl, hglued.at_eq, ⟨hglued.gaps, hglued.ne_nil⟩, hglued.below, ?_⟩
  intro size hsize
  have hchunks : Sorted ⟨mem.width, chunks⟩ := hglued.gaps.imp Nat.le_of_lt
  rw [hchunks.flatten_eq hsize, filled]
  simp only [hglued.at_eq, wordAt_eq]

/-- Two chunks that touch, and one behind a gap. -/
def threeChunks : MemFile := ⟨39, [⟨5, [0x7fffffffff, 2]⟩, ⟨7, [3]⟩, ⟨10, [0xa]⟩]⟩

theorem vmem_round_trip_threeChunks :
    ∃ mem', load_preproc 39 threeChunks.write_vmem = .ok mem' ∧ mem'.Separate ∧
      mem'.next_addr ≤ 11 ∧ mem'.flatten 12 =
        .ok ⟨39, [⟨0, [0, 0, 0, 0, 0, 0x7fffffffff, 2, 3, 0, 0, 0xa, 0]⟩]⟩ := by
  obtain ⟨mem', hload, -, -, hseparate, hnext, hflatten⟩ := vmem_round_trip threeChunks
    (by simp [Sorted, threeChunks, MemChunk.next_addr]) (by simp [Fits, threeChunks])
  exact ⟨mem', hload, hseparate, hnext, hflatten 12 (hnext.trans (by decide))⟩

end SecureBoot.MemFile
