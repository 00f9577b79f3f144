import SecureBoot.Lib.Digits
import SecureBoot.RomCtrl.MemFile

/-! The loops of `load_elf32` over its segments: what merging them keeps, and when its assertion on
the order of words fails. -/

namespace SecureBoot.MemFile

open Segments

/-! ### Merging -/

/-- The bytes of a segment at their addresses. -/
def rangeSegment (s : ElfRange) : Segment Byte := ⟨s.lma, s.data⟩

/-- The bytes of a merged segment, which starts at a word. -/
def mergedSegment (m : ElfRange) : Segment Byte := ⟨4 * m.lma, m.data⟩

/-- A segment that has as many bytes as addresses, and at least one. -/
structure ValidRange (s : ElfRange) : Prop where
  le : s.lma ≤ s.top
  length : s.data.length = s.top + 1 - s.lma

/-- The same of a merged segment. -/
structure ValidMerged (m : ElfRange) : Prop where
  le : 4 * m.lma ≤ m.top
  length : m.data.length = m.top + 1 - 4 * m.lma

/-- What the loop keeps: `done` are the segments so far. -/
structure Merged (done merged : List ElfRange) (next_word : ℕ) : Prop where
  filled : FilledUp 0 (merged.map mergedSegment) (done.map rangeSegment)
  valid : ∀ m ∈ merged, ValidMerged m
  below : ∀ m ∈ merged, m.top / 4 + 1 ≤ next_word
  apart : merged.Pairwise fun m m' => m.top / 4 + 1 ≤ m'.lma
  last : ∀ m, merged.getLast? = some m → next_word = m.top / 4 + 1

theorem merged_nil : Merged [] [] 0 where
  filled := filledUp_nil 0
  valid _ hm := absurd hm List.not_mem_nil
  below _ hm := absurd hm List.not_mem_nil
  apart := .nil
  last _ hm := by simp at hm

variable {done merged : List ElfRange} {next_word : ℕ} {seg : ElfRange}

/-- The invariant, from what it says of the last merged segment. -/
theorem merged_concat {m : ElfRange}
    (hfilled : FilledUp 0 ((merged ++ [m]).map mergedSegment) (done.map rangeSegment))
    (hvalid : ∀ m' ∈ merged, ValidMerged m') (hm : ValidMerged m)
    (hbefore : ∀ m' ∈ merged, m'.top / 4 + 1 ≤ m.lma)
    (hapart : merged.Pairwise fun m m' => m.top / 4 + 1 ≤ m'.lma) :
    Merged done (merged ++ [m]) (m.top / 4 + 1) where
  filled := hfilled
  valid := List.forall_mem_append.mpr ⟨hvalid, List.forall_mem_singleton.mpr hm⟩
  below := by
    have hle := hm.le
    refine List.forall_mem_append.mpr ⟨fun m' hm' => ?_,
      List.forall_mem_singleton.mpr (Nat.le_refl _)⟩
    have := hbefore m' hm'
    omega
  apart := by
    refine List.pairwise_append.mpr ⟨hapart, List.pairwise_singleton _ _, fun m' hm' => ?_⟩
    exact List.forall_mem_singleton.mpr (hbefore m' hm')
  last m' hm' := by
    rw [List.getLast?_concat, Option.some.injEq] at hm'
    rw [hm']

theorem mergedSegment_padLeft (seg : ElfRange) : mergedSegment (padLeft seg) =
    ⟨(rangeSegment seg).start - seg.lma % 4, (rangeSegment seg).behind 0 (seg.lma % 4)⟩ := by
  have hstart : 4 * (seg.lma / 4) = seg.lma - seg.lma % 4 := by omega
  have hdata : (if seg.lma % 4 ≠ 0 then List.replicate (seg.lma % 4) 0 ++ seg.data else seg.data) =
      (rangeSegment seg).behind 0 (seg.lma % 4) := by
    split_ifs with h
    · rfl
    · have hzero : seg.lma % 4 = 0 := by omega
      rw [Segment.behind, hzero]
      rfl
  rw [mergedSegment, padLeft, hdata, hstart]
  rfl

/-- A segment whose first word is not the next one starts a merged segment. -/
theorem Merged.concat (h : Merged done merged next_word) (hseg : ValidRange seg)
    (hle : ∀ m ∈ merged, m.top / 4 + 1 ≤ seg.lma / 4) :
    Merged (done ++ [seg]) (merged ++ [padLeft seg]) (seg.top / 4 + 1) := by
  have hlma := hseg.le
  have hlength := hseg.length
  refine merged_concat (m := padLeft seg) ?_ h.valid ⟨?_, ?_⟩ hle h.apart
  · rw [List.map_append, List.map_append, List.map_singleton, List.map_singleton,
      mergedSegment_padLeft]
    exact h.filled.concat (Nat.mod_le _ _)
  · change 4 * (seg.lma / 4) ≤ seg.top
    omega
  · have hdata := congrArg Segment.data (mergedSegment_padLeft seg)
    change (padLeft seg).data = _ at hdata
    rw [hdata, Segment.behind, List.length_append, List.length_replicate]
    change seg.lma % 4 + seg.data.length = seg.top + 1 - 4 * (seg.lma / 4)
    omega

/-- A segment whose first word is the next one is put behind the last merged segment. -/
theorem Merged.extend {last : ElfRange} (h : Merged done (merged ++ [last]) next_word)
    (hseg : ValidRange seg) (hword : next_word = seg.lma / 4) :
    ∃ m, bridge last seg = .ok m ∧ Merged (done ++ [seg]) (merged ++ [m]) (seg.top / 4 + 1) := by
  have hlma := hseg.le
  have hlength := hseg.length
  have hnext := h.last last List.getLast?_concat
  obtain ⟨hvalid, hlast⟩ := List.forall_mem_append.mp h.valid
  obtain ⟨hlastLe, hlastLength⟩ := hlast last (List.mem_singleton_self _)
  obtain ⟨hapart, -, hbefore⟩ := List.pairwise_append.mp h.apart
  refine ⟨⟨last.lma, seg.top,
    last.data ++ (rangeSegment seg).behind 0 (seg.lma - (last.top + 1))⟩, ?_, ?_⟩
  · rw [bridge, if_pos (by omega), if_neg (by omega), Segment.behind, List.append_assoc]
    rfl
  refine merged_concat ?_ hvalid ⟨?_, ?_⟩
    (fun m hm => hbefore m hm last (List.mem_singleton_self _)) hapart
  · have hfilled := h.filled
    rw [List.map_append, List.map_singleton] at hfilled
    rw [List.map_append, List.map_append, List.map_singleton, List.map_singleton]
    refine hfilled.extend ?_
    change seg.lma = 4 * last.lma + last.data.length + _
    omega
  · change 4 * last.lma ≤ seg.top
    omega
  · change (last.data ++ _).length = seg.top + 1 - 4 * last.lma
    rw [Segment.behind, List.length_append, List.length_append, List.length_replicate]
    change last.data.length + (_ + seg.data.length) = _
    omega

/-- One segment of the loop: an assertion fails if its first word is already behind. -/
theorem merge_step (h : Merged done merged next_word) (hseg : ValidRange seg) :
    (next_word ≤ seg.lma / 4 → ∃ merged', merge (merged, next_word) seg =
        .ok (merged', seg.top / 4 + 1) ∧ Merged (done ++ [seg]) merged' (seg.top / 4 + 1)) ∧
      (¬ next_word ≤ seg.lma / 4 → merge (merged, next_word) seg = .error .AssertionError) := by
  have hnext : 1 + seg.top / 4 = seg.top / 4 + 1 := Nat.add_comm _ _
  constructor
  · intro hle
    have hnew : ¬ next_word = seg.lma / 4 ∨ merged = [] →
        Merged (done ++ [seg]) (merged ++ [padLeft seg]) (seg.top / 4 + 1) := by
      intro _
      exact h.concat hseg fun m hm => (h.below m hm).trans hle
    cases hlast : merged.getLast? with
    | none =>
      obtain rfl := List.getLast?_eq_none_iff.mp hlast
      refine ⟨_, ?_, hnew (.inr rfl)⟩
      simp [merge, hle, hnext]
      rfl
    | some last =>
      obtain ⟨before, rfl⟩ := List.getLast?_eq_some_iff.mp hlast
      by_cases hword : next_word = seg.lma / 4
      · obtain ⟨m, hm, hmerged⟩ := h.extend hseg hword
        refine ⟨_, ?_, hmerged⟩
        simp [merge, hword, hm, hnext]
      · refine ⟨_, ?_, hnew (.inl hword)⟩
        simp [merge, hle, hword, hnext]
        rfl
  · intro hnot
    simp [merge, hnot]
    rfl

/-- Segments in order, with no word in two of them. -/
def WordsApart (segs : List ElfRange) : Prop :=
  segs.Pairwise fun s t => s.top / 4 + 1 ≤ t.lma / 4

/-- The loop, which ends just when no segment starts in a word that is behind. -/
theorem merge_run (segs : List ElfRange) (h : Merged done merged next_word)
    (hsegs : ∀ s ∈ segs, ValidRange s) :
    ((∀ s ∈ segs, next_word ≤ s.lma / 4) → WordsApart segs → ∃ merged' next_word',
        segs.foldlM merge (merged, next_word) = .ok (merged', next_word') ∧
          Merged (done ++ segs) merged' next_word') ∧
      ∀ r, segs.foldlM merge (merged, next_word) = .ok r →
        (∀ s ∈ segs, next_word ≤ s.lma / 4) ∧ WordsApart segs := by
  induction segs generalizing done merged next_word with
  | nil =>
    constructor
    · intro _ _
      exact ⟨merged, next_word, rfl, by rwa [List.append_nil]⟩
    · intro r _
      exact ⟨fun s hs => absurd hs List.not_mem_nil, .nil⟩
  | cons seg segs ih =>
    obtain ⟨hseg, hrest⟩ := List.forall_mem_cons.mp hsegs
    obtain ⟨hstep, hfail⟩ := merge_step h hseg
    have hlma := hseg.le
    constructor
    · intro hle hapart
      obtain ⟨hfirst, -⟩ := List.forall_mem_cons.mp hle
      obtain ⟨hbehind, hapart⟩ := List.pairwise_cons.mp hapart
      obtain ⟨merged', hok, hmerged⟩ := hstep hfirst
      obtain ⟨merged'', next_word', hrun, hend⟩ := (ih hmerged hrest).1 hbehind hapart
      refine ⟨merged'', next_word', ?_, by rwa [List.append_cons]⟩
      rw [List.foldlM_cons, hok]
      exact hrun
    · intro r hrun
      by_cases hfirst : next_word ≤ seg.lma / 4
      · obtain ⟨merged', hok, hmerged⟩ := hstep hfirst
        rw [List.foldlM_cons, hok] at hrun
        obtain ⟨hbehind, hapart⟩ := (ih hmerged hrest).2 r hrun
        refine ⟨List.forall_mem_cons.mpr ⟨hfirst, fun s hs => ?_⟩,
          List.pairwise_cons.mpr ⟨hbehind, hapart⟩⟩
        have := hbehind s hs
        omega
      · rw [List.foldlM_cons, hfail hfirst] at hrun
        cases hrun

/-! ### The segments in order -/

/-- Segments in order, with no byte in two of them. -/
def BytesApart (segs : List ElfRange) : Prop := segs.Pairwise fun s t => s.top < t.lma

theorem checkOverlap_run (base_addr prev_lma : ℕ) {segs : List ElfRange}
    (hapart : BytesApart segs) {next_addr : ℕ} (hle : ∀ s ∈ segs, next_addr ≤ s.lma) :
    ∃ r, segs.foldlM (checkOverlap base_addr) (prev_lma, next_addr) = .ok r := by
  induction segs generalizing prev_lma next_addr with
  | nil => exact ⟨_, rfl⟩
  | cons seg segs ih =>
    obtain ⟨hbehind, hrest⟩ := List.pairwise_cons.mp hapart
    have hfirst := hle seg List.mem_cons_self
    obtain ⟨r, hrun⟩ := ih seg.lma hrest hbehind
    refine ⟨r, ?_⟩
    rw [List.foldlM_cons, checkOverlap, if_neg (Nat.not_lt.mpr hfirst)]
    exact hrun

/-- The range of a loaded segment. -/
def rangeOf (base_addr : ℕ) (segment : ElfSegment) : ElfRange :=
  ⟨segment.p_paddr - base_addr, segment.p_paddr - base_addr + segment.p_filesz - 1, segment.data⟩

theorem elfRange_eq {base_addr : ℕ} {segment : ElfSegment} (hbase : base_addr ≤ segment.p_paddr)
    (hne : segment.p_filesz ≠ 0) :
    elfRange base_addr segment = .ok (rangeOf base_addr segment) := by
  have hlma : (segment.p_paddr : ℤ) - base_addr = ↑(segment.p_paddr - base_addr) := by omega
  simp only [elfRange]
  rw [if_neg (by omega), if_neg (by omega), hlma, Int.toNat_natCast]
  have htop : ((segment.p_paddr - base_addr : ℕ) + segment.p_filesz - 1 : ℤ).toNat =
      segment.p_paddr - base_addr + segment.p_filesz - 1 := by omega
  rw [htop]
  rfl

theorem mapM_elfRange {base_addr : ℕ} {segments : List ElfSegment}
    (h : ∀ s ∈ segments, base_addr ≤ s.p_paddr ∧ s.p_filesz ≠ 0) :
    segments.mapM (elfRange base_addr) = .ok (segments.map (rangeOf base_addr)) := by
  induction segments with
  | nil => rfl
  | cons s segments ih =>
    obtain ⟨⟨hbase, hne⟩, hrest⟩ := List.forall_mem_cons.mp h
    rw [List.mapM_cons, elfRange_eq hbase hne, ih hrest]
    rfl

end SecureBoot.MemFile

/-! `load_elf32` places the bytes of all segments as long as no two of them have bytes in one word.
Segments that touch a common word boundary are bridged; two that meet inside a word run into the
assertion that their words are in order. -/

namespace SecureBoot.MemFile

open Segments BigUint

/-! ### Bytes to words -/

/-- What the loop has after the bytes so far: the complete words, and the bytes of the next one. -/
theorem foldl_putByte (data : List Byte) :
    ∃ words, data.zipIdx.foldl putByte ([], 0) =
        (words, fromBytesLe (data.drop (4 * (data.length / 4)))) ∧
      words.length = data.length / 4 ∧
      ∀ i < data.length / 4, words[i]? = some (fromBytesLe ((data.drop (4 * i)).take 4)) := by
  induction data using List.reverseRecOn with
  | nil => exact ⟨[], rfl, rfl, fun i hi => absurd hi (Nat.not_lt_zero i)⟩
  | append_singleton data b ih =>
    obtain ⟨words, hloop, hlength, hwords⟩ := ih
    have hrest : (data.drop (4 * (data.length / 4))).length = data.length % 4 := by
      rw [List.length_drop]
      omega
    have hdrop : (data ++ [b]).drop (4 * (data.length / 4)) =
        data.drop (4 * (data.length / 4)) ++ [b] :=
      List.drop_append_of_le_length (by omega)
    have hword : fromBytesLe (data.drop (4 * (data.length / 4))) |||
        b.toNat <<< (8 * (data.length % 4)) =
          fromBytesLe ((data ++ [b]).drop (4 * (data.length / 4))) := by
      rw [hdrop, ← fromBytesLe_or, hrest]
    have hearlier : ∀ i < data.length / 4, words[i]? =
        some (fromBytesLe (((data ++ [b]).drop (4 * i)).take 4)) := by
      intro i hi
      rw [hwords i hi, List.drop_append_of_le_length (by omega),
        List.take_append_of_le_length (by rw [List.length_drop]; omega)]
    rw [List.zipIdx_append, List.foldl_append, hloop, List.length_append, List.length_singleton]
    simp only [List.zipIdx_cons, List.zipIdx_nil, Nat.zero_add, List.foldl_cons, List.foldl_nil,
      putByte, hword]
    by_cases hlast : data.length % 4 = 3
    · have hcount : (data.length + 1) / 4 = data.length / 4 + 1 := by omega
      have hempty : (data ++ [b]).drop (4 * (data.length / 4 + 1)) = [] := by
        apply List.drop_eq_nil_of_le
        rw [List.length_append, List.length_singleton]
        omega
      rw [if_pos hlast, hcount, hempty]
      refine ⟨_, rfl, by rw [List.length_append, hlength]; rfl, fun i hi => ?_⟩
      obtain hi | rfl := Nat.lt_or_eq_of_le (Nat.le_of_lt_succ hi)
      · rw [List.getElem?_append_left (by omega), hearlier i hi]
      · rw [← hlength, List.getElem?_concat_length, hlength, List.take_of_length_le]
        rw [List.length_drop, List.length_append, List.length_singleton]
        omega
    · have hcount : (data.length + 1) / 4 = data.length / 4 := by omega
      rw [if_neg hlast, hcount]
      exact ⟨words, rfl, hlength, hearlier⟩

/-- The words of some bytes, the last one filled up with zeros. -/
theorem toWords_spec {data : List Byte} (hne : data ≠ []) :
    (toWords data).length = (data.length + 3) / 4 ∧
      ∀ i < (data.length + 3) / 4, (toWords data)[i]? =
        some (fromBytesLe ((data.drop (4 * i)).take 4)) := by
  have hpos : 0 < data.length := List.length_pos_iff.mpr hne
  obtain ⟨words, hloop, hlength, hwords⟩ := foldl_putByte data
  simp only [toWords, hloop]
  by_cases hpartial : (data.length - 1) % 4 ≠ 3
  · have hcount : (data.length + 3) / 4 = data.length / 4 + 1 := by omega
    rw [if_pos hpartial, hcount]
    refine ⟨by rw [List.length_append, hlength]; rfl, fun i hi => ?_⟩
    obtain hi | rfl := Nat.lt_or_eq_of_le (Nat.le_of_lt_succ hi)
    · rw [List.getElem?_append_left (by omega), hwords i hi]
    · rw [← hlength, List.getElem?_concat_length, hlength, List.take_of_length_le]
      rw [List.length_drop]
      omega
  · have hcount : (data.length + 3) / 4 = data.length / 4 := by omega
    rw [if_neg hpartial, hcount]
    exact ⟨hlength, hwords⟩

/-! ### The segments in order -/

/-- The loaded segments, at their addresses relative to the base. -/
def placed (elf_file : List ElfSegment) (base_addr : ℕ) : List (Segment Byte) :=
  (elf_file.filter isLoaded).map fun s => ⟨s.p_paddr - base_addr, s.data⟩

/-- Segments that are reported with all their bytes, start at or above the base and do not
overlap. -/
structure Loadable (elf_file : List ElfSegment) (base_addr : ℕ) : Prop where
  length : ∀ s ∈ elf_file.filter isLoaded, s.data.length = s.p_filesz
  base_le : ∀ s ∈ elf_file.filter isLoaded, base_addr ≤ s.p_paddr
  disjoint : (placed elf_file base_addr).Pairwise Segment.Disjoint

variable {elf_file : List ElfSegment} {base_addr : ℕ}

theorem filesz_ne_zero {s : ElfSegment} (hs : s ∈ elf_file.filter isLoaded) :
    s.p_filesz ≠ 0 := by
  have hloaded := (List.mem_filter.mp hs).2
  simp only [isLoaded, decide_eq_true_eq] at hloaded
  exact hloaded.2

/-- The ranges in the order of their addresses. -/
def sortedRanges (elf_file : List ElfSegment) (base_addr : ℕ) : List ElfRange :=
  sortRanges ((elf_file.filter isLoaded).map (rangeOf base_addr))

theorem perm_sortedRanges (elf_file : List ElfSegment) (base_addr : ℕ) :
    (sortedRanges elf_file base_addr).map rangeSegment |>.Perm (placed elf_file base_addr) := by
  have hperm : sortedRanges elf_file base_addr |>.Perm
      ((elf_file.filter isLoaded).map (rangeOf base_addr)) := List.mergeSort_perm _ _
  have hmap := hperm.map rangeSegment
  rwa [List.map_map] at hmap

theorem sortedRanges_sorted (elf_file : List ElfSegment) (base_addr : ℕ) :
    (sortedRanges elf_file base_addr).Pairwise fun s t => s.lma ≤ t.lma := by
  have h : (sortedRanges elf_file base_addr).Pairwise fun s t => decide (s.lma ≤ t.lma) := by
    apply List.pairwise_mergeSort
    · intro a b c
      simpa using Nat.le_trans
    · intro a b
      simpa using Nat.le_total _ _
  exact h.imp fun hle => of_decide_eq_true hle

theorem Loadable.validRange (h : Loadable elf_file base_addr) {s : ElfRange}
    (hs : s ∈ sortedRanges elf_file base_addr) : ValidRange s := by
  obtain ⟨segment, hsegment, rfl⟩ := List.mem_map.mp (List.mem_mergeSort.mp hs)
  have hne := filesz_ne_zero hsegment
  have hlength := h.length segment hsegment
  constructor
  · change segment.p_paddr - base_addr ≤ segment.p_paddr - base_addr + segment.p_filesz - 1
    omega
  · change segment.data.length = segment.p_paddr - base_addr + segment.p_filesz - 1 + 1 -
      (segment.p_paddr - base_addr)
    omega

theorem Loadable.bytesApart (h : Loadable elf_file base_addr) :
    BytesApart (sortedRanges elf_file base_addr) := by
  have hdisjoint := ((perm_sortedRanges elf_file base_addr).pairwise_iff
    fun h => Segment.Disjoint.symm h).mpr h.disjoint
  rw [List.pairwise_map] at hdisjoint
  refine ((sortedRanges_sorted elf_file base_addr).and hdisjoint).imp_of_mem ?_
  intro s t hs ht hst
  obtain ⟨hle, hdisjoint⟩ := hst
  obtain ⟨hs, hslength⟩ := h.validRange hs
  obtain ⟨ht, htlength⟩ := h.validRange ht
  have hend := hdisjoint.le hle (show 0 < t.data.length by omega)
  change s.lma + s.data.length ≤ t.lma at hend
  omega

/-- Sharing no word, said of the ranges in order. -/
theorem Loadable.wordsApart_iff (h : Loadable elf_file base_addr) :
    WordsApart (sortedRanges elf_file base_addr) ↔
      (placed elf_file base_addr).Pairwise fun s t => ¬ s.ShareBlock 4 t := by
  rw [← (perm_sortedRanges elf_file base_addr).pairwise_iff
    fun h h' => h (Segment.ShareBlock.symm h'), List.pairwise_map]
  have hiff : ∀ s ∈ sortedRanges elf_file base_addr, ∀ t ∈ sortedRanges elf_file base_addr,
      s.top < t.lma →
        (s.top / 4 + 1 ≤ t.lma / 4 ↔ ¬ (rangeSegment s).ShareBlock 4 (rangeSegment t)) := by
    intro s hs t ht hlt
    obtain ⟨hs, hslength⟩ := h.validRange hs
    obtain ⟨ht, htlength⟩ := h.validRange ht
    have hend : s.lma + s.data.length - 1 = s.top := by omega
    rw [Segment.not_shareBlock_iff 4 (show s.lma + s.data.length ≤ t.lma by omega)
      (show 0 < s.data.length by omega) (show 0 < t.data.length by omega)]
    change _ ↔ (s.lma + s.data.length - 1) / 4 < t.lma / 4
    rw [hend]
    exact Iff.rfl
  constructor
  · intro hapart
    refine (h.bytesApart.and hapart).imp_of_mem ?_
    intro s t hs ht hst
    exact (hiff s hs t ht hst.1).mp hst.2
  · intro hapart
    refine (h.bytesApart.and hapart).imp_of_mem ?_
    intro s t hs ht hst
    exact (hiff s hs t ht hst.1).mpr hst.2

/-! ### The memory -/

/-- A memory with the bytes of some segments, and zeros in the rest of its words. -/
structure Shows (mem : MemFile) (segs : List (Segment Byte)) : Prop where
  width : mem.width = 32
  fits : ∀ c ∈ mem.chunks, ∀ word ∈ c.words, word < 2 ^ 32
  sorted : mem.Sorted
  covered : ∀ s ∈ segs, ∀ i, s.Covers i → mem.byteAt i = s.data[i - s.start]?
  uncovered : ∀ i, (∀ s ∈ segs, ¬ s.Covers i) → mem.byteAt i = none ∨ mem.byteAt i = some 0

theorem Shows.perm {mem : MemFile} {segs segs' : List (Segment Byte)} (h : mem.Shows segs)
    (hperm : segs.Perm segs') : mem.Shows segs' where
  width := h.width
  fits := h.fits
  sorted := h.sorted
  covered s hs := h.covered s (hperm.mem_iff.mpr hs)
  uncovered i hi := h.uncovered i fun s hs => hi s (hperm.mem_iff.mp hs)

def chunkOf (m : ElfRange) : MemChunk := ⟨m.lma, toWords m.data⟩

theorem ValidMerged.words {m : ElfRange} (h : ValidMerged m) :
    (chunkOf m).next_addr = m.top / 4 + 1 ∧ ∀ i, m.lma ≤ i → i ≤ m.top / 4 →
      (chunkOf m).words[i - m.lma]? =
        some (fromBytesLe ((m.data.drop (4 * (i - m.lma))).take 4)) := by
  obtain ⟨hle, hlength⟩ := h
  have hne : m.data ≠ [] := List.length_pos_iff.mp (by omega)
  obtain ⟨hcount, hwords⟩ := toWords_spec hne
  constructor
  · change m.lma + (toWords m.data).length = _
    omega
  · intro i hi htop
    exact hwords _ (by omega)

/-- What the loop keeps, of the memory that is made of it. -/
theorem Merged.shows (h : Merged done merged next_word) :
    Shows ⟨32, merged.map chunkOf⟩ (done.map rangeSegment) := by
  have hsorted : Sorted ⟨32, merged.map chunkOf⟩ := by
    rw [Sorted, List.pairwise_map]
    refine h.apart.imp_of_mem ?_
    intro m m' hm hm' hapart
    rw [(h.valid m hm).words.1]
    exact hapart
  have hbyte : ∀ m ∈ merged, ∀ i, m.lma ≤ i / 4 → i / 4 ≤ m.top / 4 →
      byteAt ⟨32, merged.map chunkOf⟩ i = some (m.data.getD (i - 4 * m.lma) 0) := by
    intro m hm i hle htop
    have hword := hsorted.wordAt_eq_some (List.mem_map_of_mem hm) hle
      ((h.valid m hm).words.2 (i / 4) hle htop)
    have hidx : 4 * (i / 4 - m.lma) + i % 4 = i - 4 * m.lma := by omega
    rw [byteAt, hword, Option.map_some, byte_fromBytesLe, List.getD_eq_getElem?_getD,
      List.getElem?_take_of_lt (Nat.mod_lt i (by decide)), List.getElem?_drop, hidx,
      List.getD_eq_getElem?_getD]
  refine ⟨rfl, ?_, hsorted, ?_, ?_⟩
  · intro c hc word hword
    obtain ⟨m, hm, rfl⟩ := List.mem_map.mp hc
    obtain ⟨hnext, hwords⟩ := (h.valid m hm).words
    obtain ⟨i, hi, rfl⟩ := List.getElem_of_mem hword
    have hlt : m.lma + i < m.top / 4 + 1 := by
      rw [← hnext]
      exact Nat.add_lt_add_left hi m.lma
    have hvalue := hwords (m.lma + i) (Nat.le_add_right _ _) (by omega)
    rw [Nat.add_sub_cancel_left, List.getElem?_eq_getElem hi, Option.some.injEq] at hvalue
    rw [hvalue]
    have hbound := fromBytesLe_lt ((m.data.drop (4 * i)).take 4)
    have hpow : 256 ^ ((m.data.drop (4 * i)).take 4).length ≤ 256 ^ 4 :=
      Nat.pow_le_pow_right (by decide) (List.length_take_le _ _)
    omega
  · intro s hs i hi
    obtain ⟨b, hb, ⟨hle, hlt⟩, hdata⟩ := h.filled.covered s hs i hi
    obtain ⟨m, hm, rfl⟩ := List.mem_map.mp hb
    obtain ⟨hmle, hmlength⟩ := h.valid m hm
    change 4 * m.lma ≤ i at hle
    change i < 4 * m.lma + m.data.length at hlt
    rw [hbyte m hm i (by omega) (by omega), ← hdata, List.getD_eq_getElem?_getD]
    change some (m.data[i - 4 * m.lma]?.getD 0) = m.data[i - 4 * m.lma]?
    rw [List.getElem?_eq_getElem (by omega), Option.getD_some]
  · intro i hi
    cases hword : wordAt ⟨32, merged.map chunkOf⟩ (i / 4) with
    | none =>
      left
      rw [byteAt, hword, Option.map_none]
    | some word =>
      right
      obtain ⟨c, hc, hle, hget⟩ := exists_of_wordAt hword
      obtain ⟨m, hm, rfl⟩ := List.mem_map.mp hc
      obtain ⟨hin, -⟩ := List.getElem?_eq_some_iff.mp hget
      have hnext := (h.valid m hm).words.1
      change m.lma ≤ i / 4 at hle
      change i / 4 - m.lma < (chunkOf m).words.length at hin
      change m.lma + (chunkOf m).words.length = _ at hnext
      obtain ⟨hmle, hmlength⟩ := h.valid m hm
      rw [hbyte m hm i hle (by omega), List.getD_eq_getElem?_getD]
      by_cases hcovers : i < 4 * m.lma + m.data.length
      · have hfill := h.filled.uncovered _ (List.mem_map_of_mem hm) i
          ⟨show 4 * m.lma ≤ i by omega, hcovers⟩ hi
        change m.data[i - 4 * m.lma]? = some 0 at hfill
        rw [hfill, Option.getD_some]
      · rw [List.getElem?_eq_none (by omega), Option.getD_none]

/-! ### The loader -/

theorem Loadable.load_elf32_eq (h : Loadable elf_file base_addr) :
    load_elf32 elf_file base_addr =
      ((sortedRanges elf_file base_addr).foldlM merge ([], 0)).map
        fun r => ⟨32, r.1.map chunkOf⟩ := by
  have hranges : (elf_file.filter isLoaded).mapM (elfRange base_addr) =
      .ok ((elf_file.filter isLoaded).map (rangeOf base_addr)) :=
    mapM_elfRange fun s hs => ⟨h.base_le s hs, filesz_ne_zero hs⟩
  obtain ⟨r, hr⟩ := checkOverlap_run base_addr 0 h.bytesApart fun s _ => Nat.zero_le s.lma
  have hsorted : sortRanges ((elf_file.filter isLoaded).map (rangeOf base_addr)) =
      sortedRanges elf_file base_addr := rfl
  simp only [load_elf32, hranges, bind, Except.bind]
  rw [hsorted, hr]
  cases (sortedRanges elf_file base_addr).foldlM merge ([], 0) with
  | error e => rfl
  | ok r => rfl

/-- The loader places every byte just when no two segments have bytes in one word; it fails on the
others. -/
theorem load_elf32_places_iff (h : Loadable elf_file base_addr) :
    (∃ mem, load_elf32 elf_file base_addr = .ok mem ∧ mem.Shows (placed elf_file base_addr)) ↔
      (placed elf_file base_addr).Pairwise fun s t => ¬ s.ShareBlock 4 t := by
  obtain ⟨hok, hfail⟩ := merge_run (sortedRanges elf_file base_addr) merged_nil
    fun s hs => h.validRange hs
  rw [h.load_elf32_eq, ← h.wordsApart_iff]
  constructor
  · rintro ⟨mem, hload, -⟩
    cases hrun : (sortedRanges elf_file base_addr).foldlM merge ([], 0) with
    | error e =>
      rw [hrun] at hload
      cases hload
    | ok r => exact (hfail r hrun).2
  · intro hapart
    obtain ⟨merged, next_word, hrun, hmerged⟩ := hok (fun s _ => Nat.zero_le _) hapart
    rw [List.nil_append] at hmerged
    refine ⟨_, by rw [hrun]; rfl, hmerged.shows.perm (perm_sortedRanges elf_file base_addr)⟩

/-- Two segments of two bytes at the given addresses. -/
def pair (p_paddr p_paddr' : ℕ) : List ElfSegment :=
  [⟨.PT_LOAD, p_paddr, 2, [0x13, 0x05]⟩, ⟨.PT_LOAD, p_paddr', 2, [0x73, 0x50]⟩]

theorem loadable_pair {base_addr p_paddr p_paddr' : ℕ} (hbase : base_addr ≤ p_paddr)
    (hbase' : base_addr ≤ p_paddr') (h : p_paddr + 2 ≤ p_paddr' ∨ p_paddr' + 2 ≤ p_paddr) :
    Loadable (pair p_paddr p_paddr') base_addr := by
  have hloaded : (pair p_paddr p_paddr').filter isLoaded = pair p_paddr p_paddr' := by
    simp [pair, isLoaded]
  constructor
  · rw [hloaded]
    simp [pair]
  · rw [hloaded]
    simp [pair, hbase, hbase']
  · rw [placed, hloaded]
    simp only [pair, List.map_cons, List.map_nil, List.pairwise_pair]
    rintro i ⟨hle, hlt⟩ ⟨hle', hlt'⟩
    simp only [List.length_cons, List.length_nil] at hle hlt hle' hlt'
    omega

/-- A segment that ends inside a word, and one that starts inside the next. -/
theorem load_elf32_places_pair :
    ∃ mem, load_elf32 (pair 0x8006 0x8001) 0x8000 = .ok mem ∧
      mem.Shows (placed (pair 0x8006 0x8001) 0x8000) := by
  apply (load_elf32_places_iff (loadable_pair (by decide) (by decide) (by decide))).mpr
  simp only [placed, pair]
  rw [List.filter_eq_self.mpr (by simp [isLoaded])]
  simp only [List.map_cons, List.map_nil, List.pairwise_pair]
  rintro ⟨i, j, ⟨hle, hlt⟩, ⟨hle', hlt'⟩, heq⟩
  simp only [List.length_cons, List.length_nil] at hle hlt hle' hlt'
  omega

/-- Two segments that meet inside a word fail the assertion on the order of words. -/
theorem load_elf32_meeting_fails :
    Loadable (pair 0x8000 0x8002) 0x8000 ∧
      load_elf32 (pair 0x8000 0x8002) 0x8000 = .error .AssertionError := by
  refine ⟨loadable_pair (by decide) (by decide) (by decide), ?_⟩
  simp [load_elf32, pair, isLoaded, elfRange, sortRanges, List.mergeSort, checkOverlap, merge, bind,
    Except.bind, pure, Except.pure]
  rfl

end SecureBoot.MemFile
