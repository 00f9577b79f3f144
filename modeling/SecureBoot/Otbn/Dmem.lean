import SecureBoot.Base.Word

/-! The data memory of the OTBN simulator (`Dmem`): words that are loaded from a string of bytes
and dumped to one. A load that raises an exception leaves the words it has stored so far. -/

namespace SecureBoot

/-- The exceptions that the methods raise. -/
inductive DmemError
  | RuntimeError (message : String)
  | ValueError (message : String)
  | IndexError
  | StructError

structure Dmem where
  /-- A word with invalid integrity bits is `none`. -/
  data : List (Option Word)
  /-- The stores that have not landed yet, by the index of their word. -/
  pending : List (ℕ × Word)

namespace Dmem

/-- The object after a call, also when the call raises an exception. -/
abbrev Result := Except (DmemError × Dmem) Dmem

def init (dmem_size : ℕ) : Except DmemError Dmem :=
  if dmem_size > 1024 * 1024 then
    .error (.RuntimeError ("Implausibly large DMEM size: " ++ toString dmem_size))
  else if dmem_size % 32 ≠ 0 then
    .error (.RuntimeError ("DMEM size (" ++ toString dmem_size ++ ") is not divisible by 32."))
  else .ok ⟨List.replicate (dmem_size / 4) none, []⟩

/-- `struct.iter_unpack('<I', data)`. -/
def iterUnpackI : List Byte → Option (List Word)
  | [] => some []
  | b₀ :: b₁ :: b₂ :: b₃ :: data => (iterUnpackI data).map (Word.ofBytes b₀ b₁ b₂ b₃ :: ·)
  | _ => none

/-- `struct.iter_unpack('<BI', data)`. -/
def iterUnpackBI : List Byte → Option (List (Byte × Word))
  | [] => some []
  | vld :: b₀ :: b₁ :: b₂ :: b₃ :: data =>
    (iterUnpackBI data).map ((vld, Word.ofBytes b₀ b₁ b₂ b₃) :: ·)
  | _ => none

variable (self : Dmem)

/-- `self.data[idx32] = word`. -/
def setItem (idx32 : ℕ) (word : Option Word) : Result :=
  if idx32 < self.data.length then .ok { self with data := self.data.set idx32 word }
  else .error (.IndexError, self)

def tooLong (len_data len_mem : ℕ) : DmemError :=
  .ValueError ("Trying to load " ++ toString len_data ++ " bytes of data, but DMEM is only " ++
    toString len_mem ++ " bytes long.")

/-- The character that both formats are padded with. -/
def padByte : Byte := 0x30

/-- The body of the loop over the entries of five bytes. -/
def storeEntry (e : (Byte × Word) × ℕ) : Result :=
  if e.1.1 ≠ 0 ∧ e.1.1 ≠ 1 then
    .error (.ValueError ("The validity byte for 32-bit word " ++ toString e.2 ++
      " in the input data is " ++ toString e.1.1.toNat ++ ", not 0 or 1."), self)
  else self.setItem e.2 (if e.1.1 ≠ 0 then some e.1.2 else none)

def padEntries (data : List Byte) : List Byte :=
  if data.length % 5 ≠ 0 then data ++ List.replicate (5 - data.length % 5) padByte else data

def load_5byte_le_words (data : List Byte) : Result :=
  if data.length % 5 ≠ 0 then
    .error (.ValueError ("Trying to load " ++ toString data.length ++
      " bytes of data, which is not a multiple of 5."), self)
  else if data.length / 5 > 256 / 32 * self.data.length then
    .error (tooLong (4 * (data.length / 5)) (32 * self.data.length), self)
  else
    match iterUnpackBI (padEntries data) with
    | none => .error (.StructError, self)
    | some entries => entries.zipIdx.foldlM storeEntry self

def padWords (data : List Byte) : List Byte :=
  if data.length % 4 ≠ 0 then data ++ List.replicate (32 - data.length % 32) padByte else data

def load_4byte_le_words (data : List Byte) : Result :=
  if data.length > 32 * self.data.length then
    .error (tooLong data.length (32 * self.data.length), self)
  else
    match iterUnpackI (padWords data) with
    | none => .error (.StructError, self)
    | some words => words.zipIdx.foldlM (fun self u => self.setItem u.2 (some u.1)) self

def load_le_words (data : List Byte) (has_validity : Bool) : Result :=
  if has_validity then self.load_5byte_le_words data else self.load_4byte_le_words data

/-- The words with the pending stores applied. -/
def contents : List (Option Word) :=
  self.data.zipIdx.map fun u => (self.pending.lookup u.2).elim u.1 some

/-- `struct.pack('<BI', ..)` of a word with its validity. -/
def packBI : Option Word → List Byte
  | none => 0 :: Word.toBytes 0
  | some u32 => 1 :: u32.toBytes

def dump_le_words : List Byte := self.contents.flatMap packBI

/-! ### Unpacking -/

theorem iterUnpackI_isSome (data : List Byte) (h : data.length % 4 = 0) :
    ∃ words, iterUnpackI data = some words ∧ wordsToBytes words = data := by
  induction data using iterUnpackI.induct with
  | case1 => exact ⟨[], rfl, rfl⟩
  | case2 b₀ b₁ b₂ b₃ data ih =>
    obtain ⟨words, hwords, hdata⟩ := ih (by simp only [List.length_cons] at h; omega)
    refine ⟨Word.ofBytes b₀ b₁ b₂ b₃ :: words, by rw [iterUnpackI, hwords, Option.map_some], ?_⟩
    rw [wordsToBytes] at hdata ⊢
    rw [List.flatMap_cons, Word.toBytes_ofBytes, hdata]
    rfl
  | case3 data hnil hcons =>
    -- What is left over are one, two or three bytes.
    obtain _ | ⟨b₀, _ | ⟨b₁, _ | ⟨b₂, _ | ⟨b₃, data⟩⟩⟩⟩ := data
    · exact absurd rfl hnil
    · cases h
    · cases h
    · cases h
    · exact absurd rfl (hcons b₀ b₁ b₂ b₃ data)

/-- The validity byte and the word of an entry. -/
def entry : Option Word → Byte × Word
  | none => (0, 0)
  | some u32 => (1, u32)

theorem iterUnpackBI_flatMap (words : List (Option Word)) :
    iterUnpackBI (words.flatMap packBI) = some (words.map entry) := by
  have hcons (u : Option Word) (data : List Byte) :
      iterUnpackBI (packBI u ++ data) = (iterUnpackBI data).map (entry u :: ·) := by
    cases u with
    | none => rfl
    | some u32 =>
      simp only [packBI, Word.toBytes, List.cons_append, List.nil_append, iterUnpackBI,
        Word.ofBytes_extract, entry]
  induction words with
  | nil => rfl
  | cons u words ih => rw [List.flatMap_cons, hcons, ih, Option.map_some, List.map_cons]

theorem length_flatMap_packBI (words : List (Option Word)) :
    (words.flatMap packBI).length = 5 * words.length := by
  induction words with
  | nil => rfl
  | cons u words ih =>
    rw [List.flatMap_cons, List.length_append, ih, List.length_cons]
    cases u <;> simp only [packBI, List.length_cons, Word.length_toBytes] <;> omega

/-! ### Storing words one after another -/

/-- The loop that stores words from an index on. -/
def storeFrom (self : Dmem) (idx32 : ℕ) (words : List (Option Word)) : Result :=
  (words.zipIdx idx32).foldlM (fun self u => self.setItem u.2 u.1) self

theorem storeFrom_cons (idx32 : ℕ) (word : Option Word) (words : List (Option Word)) :
    self.storeFrom idx32 (word :: words) =
      (self.setItem idx32 word).bind fun self => self.storeFrom (idx32 + 1) words := rfl

theorem storeFrom_eq_ok (idx32 : ℕ) (words : List (Option Word))
    (h : idx32 + words.length ≤ self.data.length) :
    self.storeFrom idx32 words =
      .ok { self with
        data := self.data.take idx32 ++ words ++ self.data.drop (idx32 + words.length) } := by
  induction words generalizing self idx32 with
  | nil =>
    simp only [List.append_nil, List.length_nil, Nat.add_zero, List.take_append_drop]
    rfl
  | cons word words ih =>
    rw [List.length_cons] at h
    rw [storeFrom_cons, setItem, if_pos (by omega)]
    change storeFrom _ _ _ = _
    rw [ih _ _ (by rw [List.length_set]; omega)]
    have htake : (self.data.set idx32 word).take (idx32 + 1) = self.data.take idx32 ++ [word] := by
      rw [List.take_succ_eq_append_getElem (by rw [List.length_set]; omega),
        List.getElem_set_self, List.take_set_of_le (Nat.le_refl _)]
    have hdrop : (self.data.set idx32 word).drop (idx32 + 1 + words.length) =
        self.data.drop (idx32 + (word :: words).length) := by
      rw [List.drop_set_of_lt (by omega), List.length_cons]
      congr 1
      omega
    simp only [htake, hdrop, List.append_assoc, List.singleton_append]

theorem storeFrom_eq_error (idx32 : ℕ) (words : List (Option Word))
    (hidx : idx32 ≤ self.data.length) (h : self.data.length < idx32 + words.length) :
    ∃ self', self.storeFrom idx32 words = .error (.IndexError, self') := by
  induction words generalizing self idx32 with
  | nil =>
    rw [List.length_nil] at h
    omega
  | cons word words ih =>
    rw [List.length_cons] at h
    rw [storeFrom_cons, setItem]
    split_ifs with hlt
    · exact ih _ _ (by rw [List.length_set]; omega) (by rw [List.length_set]; omega)
    · exact ⟨self, rfl⟩

theorem foldlM_words (words : List Word) :
    words.zipIdx.foldlM (fun self u => setItem self u.2 (some u.1)) self =
      self.storeFrom 0 (words.map some) := by
  rw [storeFrom, List.zipIdx_map, List.foldlM_map]
  rfl

/-! ### Loading -/

/-- The string with zeros up to a whole number of words. -/
def zeroPad (data : List Byte) : List Byte := data ++ List.replicate (3 - (data.length + 3) % 4) 0

/-- The number of words that a string reaches into. -/
def numWords (data : List Byte) : ℕ := (data.length + 3) / 4

/-- A string in the format without validity bytes replaces the first words of a memory that it
fits into, and is refused by any other. -/
def LoadsWords (data : List Byte) : Prop :=
  if data.length ≤ 4 * self.data.length then
    ∃ words, wordsToBytes words = zeroPad data ∧
      self.load_le_words data false =
        .ok { self with data := words.map some ++ self.data.drop (numWords data) }
  else ∃ message self', self.load_le_words data false = .error (.ValueError message, self')

/-- What is dumped gives the same contents to any memory of the same size, and leaves a memory
in which all stores have landed as it is. -/
def RestoresDump : Prop :=
  (∀ self' : Dmem, self'.data.length = self.data.length →
    self'.load_le_words self.dump_le_words true = .ok { self' with data := self.contents }) ∧
  (self.pending = [] → self.load_le_words self.dump_le_words true = .ok self)

theorem length_contents : self.contents.length = self.data.length := by
  rw [contents, List.length_map, List.length_zipIdx]

theorem contents_of_landed (h : self.pending = []) : self.contents = self.data := by
  simp only [contents, h, List.lookup_nil, Option.elim_none]
  exact List.zipIdx_map_fst 0 self.data

/-- The words that are stored by a string without validity bytes. -/
theorem load_le_words_eq (data : List Byte) (hlen : data.length ≤ 32 * self.data.length) :
    ∃ words, wordsToBytes words = padWords data ∧
      self.load_le_words data false = self.storeFrom 0 (words.map some) := by
  have hmod : (padWords data).length % 4 = 0 := by
    unfold padWords
    split_ifs with h
    · rw [List.length_append, List.length_replicate]
      omega
    · exact not_not.mp h
  obtain ⟨words, hwords, hbytes⟩ := iterUnpackI_isSome _ hmod
  refine ⟨words, hbytes, ?_⟩
  rw [load_le_words, if_neg Bool.false_ne_true, load_4byte_le_words, if_neg (by omega), hwords]
  exact foldlM_words self words

theorem storeEntry_entry (u : Option Word) (idx32 : ℕ) :
    self.storeEntry (entry u, idx32) = self.setItem idx32 u := by
  cases u <;> rfl

theorem load_dump_le_words {self' : Dmem} (hlen : self'.data.length = self.data.length) :
    self'.load_le_words self.dump_le_words true = .ok { self' with data := self.contents } := by
  have hlength : self.dump_le_words.length = 5 * self.data.length := by
    rw [dump_le_words, length_flatMap_packBI, length_contents]
  have hloop : (self.contents.map entry).zipIdx.foldlM storeEntry self' =
      self'.storeFrom 0 self.contents := by
    rw [storeFrom, List.zipIdx_map, List.foldlM_map]
    congr 1
    funext d u
    exact storeEntry_entry d u.1 u.2
  rw [load_le_words, if_pos rfl, load_5byte_le_words, if_neg (by omega), if_neg (by omega),
    padEntries, if_neg (by omega), dump_le_words, iterUnpackBI_flatMap]
  change (self.contents.map entry).zipIdx.foldlM storeEntry self' = _
  rw [hloop, storeFrom_eq_ok _ _ _ (by rw [length_contents]; omega), List.take_zero,
    List.nil_append, length_contents, Nat.zero_add, List.drop_of_length_le (by omega),
    List.append_nil]

theorem restoresDump : self.RestoresDump := by
  refine ⟨fun self' hlen => self.load_dump_le_words hlen, fun h => ?_⟩
  rw [self.load_dump_le_words rfl, self.contents_of_landed h]

theorem wordsToBytes_take (words : List Word) (n : ℕ) :
    wordsToBytes (words.take n) = (wordsToBytes words).take (4 * n) := by
  by_cases hn : n ≤ words.length
  · have hlen : (wordsToBytes (words.take n)).length = 4 * n := by
      rw [length_wordsToBytes, List.length_take, Nat.min_eq_left hn]
    conv_rhs => rw [← List.take_append_drop n words, wordsToBytes_append, ← hlen, List.take_left]
  · rw [List.take_of_length_le (by omega),
      List.take_of_length_le (by rw [length_wordsToBytes]; omega)]

/-- The padding changes the last word of a string that ends inside one. -/
theorem not_loadsWords_of_partial {data : List Byte} (hmod : data.length % 4 ≠ 0)
    (hfit : data.length ≤ 4 * self.data.length) : ¬self.LoadsWords data := by
  intro hloads
  rw [LoadsWords, if_pos hfit] at hloads
  obtain ⟨words, hbytes, hload⟩ := hloads
  obtain ⟨words', hbytes', hload'⟩ := self.load_le_words_eq data (by omega)
  rw [padWords, if_pos hmod] at hbytes'
  have hlen : words.length = numWords data := by
    have h := congrArg List.length hbytes
    rw [length_wordsToBytes, zeroPad, List.length_append, List.length_replicate] at h
    rw [numWords]
    omega
  have hlen' : numWords data ≤ words'.length := by
    have h := congrArg List.length hbytes'
    rw [length_wordsToBytes, List.length_append, List.length_replicate] at h
    rw [numWords]
    omega
  rw [hload'] at hload
  by_cases hle : words'.length ≤ self.data.length
  · rw [storeFrom_eq_ok _ _ _ (by rw [List.length_map]; omega)] at hload
    have hdata := congrArg (List.take (numWords data)) (congrArg Dmem.data (Except.ok.inj hload))
    simp only [List.take_zero, List.nil_append] at hdata
    rw [List.take_append_of_le_length (by rw [List.length_map]; omega),
      List.take_append_of_le_length (by rw [List.length_map]; omega), ← List.map_take,
      ← List.map_take] at hdata
    have hwords := List.map_injective_iff.mpr (Option.some_injective Word) hdata
    rw [List.take_of_length_le (l := words) (by omega)] at hwords
    -- The byte behind the string is a zero in one of the lists and the padding in the other.
    have hbyte := congrArg (fun ws => (wordsToBytes ws)[data.length]?) hwords
    simp only [wordsToBytes_take, hbytes, hbytes', zeroPad] at hbyte
    rw [List.getElem?_take_of_lt (by rw [numWords]; omega), List.getElem?_append_right le_rfl,
      List.getElem?_append_right le_rfl, Nat.sub_self, List.getElem?_replicate,
      List.getElem?_replicate, if_pos (by omega), if_pos (by omega)] at hbyte
    exact absurd (Option.some.inj hbyte) (by decide)
  · obtain ⟨self', herror⟩ :=
      self.storeFrom_eq_error 0 (words'.map some) (Nat.zero_le _) (by rw [List.length_map]; omega)
    rw [herror] at hload
    cases hload

/-- Words beyond the end of the memory are not refused by the check of the length. -/
theorem not_loadsWords_of_long {data : List Byte} (hlong : 4 * self.data.length < data.length)
    (hle : data.length ≤ 32 * self.data.length) : ¬self.LoadsWords data := by
  intro hloads
  rw [LoadsWords, if_neg (by omega)] at hloads
  obtain ⟨message, self', herror⟩ := hloads
  obtain ⟨words, hbytes, hload⟩ := self.load_le_words_eq data hle
  have hlen : self.data.length < words.length := by
    have h := congrArg List.length hbytes
    rw [length_wordsToBytes, padWords] at h
    split_ifs at h with hmod
    · rw [List.length_append] at h
      omega
    · omega
  obtain ⟨self'', hindex⟩ :=
    self.storeFrom_eq_error 0 (words.map some) (Nat.zero_le _) (by rw [List.length_map]; omega)
  rw [hload, hindex] at herror
  cases herror

theorem loadsWords_of_whole {data : List Byte} (hmod : data.length % 4 = 0)
    (hfit : data.length ≤ 4 * self.data.length) : self.LoadsWords data := by
  rw [LoadsWords, if_pos hfit]
  obtain ⟨words, hbytes, hload⟩ := self.load_le_words_eq data (by omega)
  rw [padWords, if_neg (not_not.mpr hmod)] at hbytes
  have hzero : zeroPad data = data := by
    rw [zeroPad, show 3 - (data.length + 3) % 4 = 0 by omega, List.replicate_zero, List.append_nil]
  have hlen : words.length = numWords data := by
    have h := congrArg List.length hbytes
    rw [length_wordsToBytes] at h
    rw [numWords]
    omega
  refine ⟨words, hbytes.trans hzero.symm, ?_⟩
  rw [hload, storeFrom_eq_ok _ _ _ (by rw [List.length_map, hlen, numWords]; omega)]
  rw [List.take_zero, List.nil_append, List.length_map, hlen, Nat.zero_add]

theorem loadsWords_of_huge {data : List Byte} (hlong : 32 * self.data.length < data.length) :
    self.LoadsWords data := by
  rw [LoadsWords, if_neg (by omega), load_le_words, if_neg Bool.false_ne_true,
    load_4byte_le_words, if_pos hlong]
  exact ⟨_, self, rfl⟩

/-- Both parts hold exactly of whole words that fit, and of strings beyond the bound that the
code compares with. -/
theorem dmem_load_iff (data : List Byte) :
    self.LoadsWords data ∧ self.RestoresDump ↔
      data.length % 4 = 0 ∧ data.length ≤ 4 * self.data.length ∨
        32 * self.data.length < data.length := by
  constructor
  · rintro ⟨hloads, -⟩
    by_contra hnot
    rw [not_or, not_and_or, Nat.not_lt] at hnot
    by_cases hfit : data.length ≤ 4 * self.data.length
    · exact self.not_loadsWords_of_partial (hnot.1.resolve_right (not_not.mpr hfit)) hfit hloads
    · exact self.not_loadsWords_of_long (Nat.not_le.mp hfit) hnot.2 hloads
  · intro h
    refine ⟨?_, self.restoresDump⟩
    obtain ⟨hmod, hfit⟩ | hlong := h
    · exact self.loadsWords_of_whole hmod hfit
    · exact self.loadsWords_of_huge hlong

/-- One byte over two words, and a string of one word more than the memory has. -/
theorem dmem_load_fails :
    ∃ self : Dmem, Dmem.init 32 = .ok self ∧ ¬self.LoadsWords [0x11] ∧
      ¬self.LoadsWords (List.replicate 36 0x11) ∧
      self.load_le_words [0x11] false = .ok
        { self with data := some 0x30303011 :: List.replicate 7 (some 0x30303030) } := by
  refine ⟨⟨List.replicate 8 none, []⟩, rfl, ?_, ?_, rfl⟩
  · exact not_loadsWords_of_partial _ (by decide) (by decide)
  · exact not_loadsWords_of_long _ (by decide) (by decide)

end Dmem

end SecureBoot
