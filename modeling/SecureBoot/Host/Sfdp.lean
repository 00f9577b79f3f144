import SecureBoot.Host.JedecDecoded

/-! The SFDP of a flash part: its header, the headers of the parameter tables, and the tables that
they point to. Reading it never fails in another way than with an error, except for the buffers
that say they have too many tables, too long ones, or a first table that cannot be decoded. -/

namespace SecureBoot

open Rust

/-! ### Reading -/

/-- `read_u8`. -/
def readU8 : List Byte → SfdpRun (Byte × List Byte)
  | b :: rest => pure (b, rest)
  | [] => fail .io

/-- `read_u32::<LittleEndian>`. -/
def readU32 : List Byte → SfdpRun (Word × List Byte)
  | b₀ :: b₁ :: b₂ :: b₃ :: rest => pure (Word.ofBytes b₀ b₁ b₂ b₃, rest)
  | _ => fail .io

structure SfdpHeader where
  signature : Word
  minor : Byte
  major : Byte
  nph : Byte
  reserved : Byte

abbrev kSfdpHeaderSignature : Word := 0x50444653

/-- `SfdpHeader::try_from`. -/
def SfdpHeader.tryFrom (buf : List Byte) : SfdpRun SfdpHeader := do
  let (signature, reader) ← readU32 buf
  let (minor, reader) ← readU8 reader
  let (major, reader) ← readU8 reader
  let (nph, reader) ← readU8 reader
  let (reserved, _) ← readU8 reader
  let header : SfdpHeader := ⟨signature, minor, major, nph, reserved⟩
  if header.signature = kSfdpHeaderSignature then pure header
  else fail (.wrongHeaderSignature header.signature)

structure SfdpPhdr where
  id : Byte
  minor : Byte
  major : Byte
  dwords : Byte
  offset : Word

/-- `SfdpPhdr::try_from`. -/
def SfdpPhdr.tryFrom (buf : List Byte) : SfdpRun SfdpPhdr := do
  let (id, reader) ← readU8 buf
  let (minor, reader) ← readU8 reader
  let (major, reader) ← readU8 reader
  let (dwords, reader) ← readU8 reader
  let (offset, _) ← readU32 reader
  pure ⟨id, minor, major, dwords, offset &&& 0x00ffffff⟩

structure UnknownParams where
  data : List Word

/-- `UnknownParams::try_from`. -/
def UnknownParams.tryFrom (buf : List Byte) : UnknownParams := ⟨readU32Into buf⟩

structure Sfdp where
  header : SfdpHeader
  phdr : List SfdpPhdr
  jedec : JedecParams
  params : List UnknownParams

namespace Sfdp

/-- `8 + i * 8`, in eight bits. -/
def phdrStart (i : ℕ) : SfdpRun ℕ := do
  let start ← checkedAdd (8 : Byte) (← checkedMul (BitVec.ofNat 8 i) 8)
  pure start.toNat

/-- `buf.get(start..end).ok_or(SliceRange)`. -/
def getOr (buf : List Byte) (start last : ℕ) : SfdpRun (List Byte) :=
  okOr (getRange buf start last) (.sliceRange start last)

/-- A round of the loop of `length_required`. -/
def extend (buf : List Byte) (len : Word) (i : ℕ) : SfdpRun Word := do
  let start ← phdrStart i
  let phdr ← SfdpPhdr.tryFrom (← slice buf start (start + 8))
  let size ← checkedMul phdr.dwords 4
  let last ← checkedAdd phdr.offset (size.setWidth 32)
  pure (if len ≤ last then last else len)

/-- `Sfdp::length_required`. -/
def lengthRequired (buf : List Byte) : SfdpRun ℕ := do
  if buf.length < 256 then pure 256
  else
    let header ← SfdpHeader.tryFrom (← slice buf 0 8)
    let len ← (List.range (header.nph.toNat + 1)).foldlM (extend buf) 0
    pure len.toNat

/-- A round of the loop of `try_from` over the headers. -/
def readPhdr (buf : List Byte) (i : ℕ) : SfdpRun SfdpPhdr := do
  let start ← phdrStart i
  SfdpPhdr.tryFrom (← getOr buf start (start + 8))

/-- The bytes of the table that a header points to. -/
def tableBytes (buf : List Byte) (ph : SfdpPhdr) : SfdpRun (List Byte) :=
  getOr buf ph.offset.toNat (ph.offset.toNat + ph.dwords.toNat * 4)

/-- The tables of `try_from`, behind the headers. -/
def readTables (buf : List Byte) (header : SfdpHeader) (phdr : List SfdpPhdr) : SfdpRun Sfdp := do
  let jedec ← JedecParams.tryFrom (← tableBytes buf (← index phdr 0))
  let params ← ((phdr.take (header.nph.toNat + 1)).drop 1).mapM fun ph => do
    pure (UnknownParams.tryFrom (← tableBytes buf ph))
  pure ⟨header, phdr, jedec, params⟩

/-- `Sfdp::try_from`. -/
def tryFrom (buf : List Byte) : SfdpRun Sfdp := do
  let header ← SfdpHeader.tryFrom (← getOr buf 0 8)
  let phdr ← (List.range (header.nph.toNat + 1)).mapM (readPhdr buf)
  readTables buf header phdr

end Sfdp

end SecureBoot

/-! The buffers that the SFDP parser stops on. -/

namespace SecureBoot

open Rust

namespace Sfdp

variable {buf : List Byte} {i n : ℕ}

/-! ### The buffer -/

def HasSignature (buf : List Byte) : Prop :=
  8 ≤ buf.length ∧ Word.ofBytes (buf.getD 0 0) (buf.getD 1 0) (buf.getD 2 0) (buf.getD 3 0) =
    kSfdpHeaderSignature

/-- The number of headers behind the first one. -/
def nph (buf : List Byte) : ℕ := (buf.getD 6 0).toNat

def phdrAt (buf : List Byte) (i : ℕ) : SfdpPhdr where
  id := buf.getD (8 + 8 * i) 0
  minor := buf.getD (8 + 8 * i + 1) 0
  major := buf.getD (8 + 8 * i + 2) 0
  dwords := buf.getD (8 + 8 * i + 3) 0
  offset := Word.ofBytes (buf.getD (8 + 8 * i + 4) 0) (buf.getD (8 + 8 * i + 5) 0)
    (buf.getD (8 + 8 * i + 6) 0) (buf.getD (8 + 8 * i + 7) 0) &&& 0x00ffffff

/-- Where the first table ends. -/
def tableEnd (buf : List Byte) : ℕ :=
  (phdrAt buf 0).offset.toNat + (phdrAt buf 0).dwords.toNat * 4

def firstTable (buf : List Byte) : InternalJedecParams :=
  .tryFrom ((buf.drop (phdrAt buf 0).offset.toNat).take ((phdrAt buf 0).dwords.toNat * 4))

/-- A buffer that does not make the parser stop: the number of headers and the lengths of the
tables stay inside a byte, as offsets and as byte counts, and the first table can be decoded. -/
structure Readable (buf : List Byte) : Prop where
  headers (h : 256 ≤ buf.length) : nph buf ≤ 30
  lengths (h : 256 ≤ buf.length) : ∀ i ≤ nph buf, (phdrAt buf i).dwords.toNat < 64
  table (h : 16 + 8 * nph buf ≤ buf.length) (htable : tableEnd buf ≤ buf.length) :
    JedecParams.Decodes (firstTable buf)

/-! ### Headers -/

theorem eq_map_range (l : List Byte) : l = (List.range l.length).map fun k => l.getD k 0 := by
  refine List.ext_getElem (by rw [List.length_map, List.length_range]) fun k hk _ => ?_
  rw [List.getElem_map, List.getElem_range, List.getD_eq_getElem?_getD,
    List.getElem?_eq_getElem hk, Option.getD_some]

/-- The eight bytes of a header. -/
theorem getRange_eight {start : ℕ} (h : start + 8 ≤ buf.length) :
    getRange buf start (start + 8) = some [buf.getD start 0, buf.getD (start + 1) 0,
      buf.getD (start + 2) 0, buf.getD (start + 3) 0, buf.getD (start + 4) 0,
      buf.getD (start + 5) 0, buf.getD (start + 6) 0, buf.getD (start + 7) 0] := by
  rw [getRange_eq (Nat.le_add_right _ _) h, Nat.add_sub_cancel_left]
  have hlength : ((buf.drop start).take 8).length = 8 := by
    rw [List.length_take, List.length_drop]
    omega
  rw [eq_map_range ((buf.drop start).take 8), hlength]
  have hget {k : ℕ} (hk : k < 8) : ((buf.drop start).take 8).getD k 0 = buf.getD (start + k) 0 := by
    rw [List.getD_eq_getElem?_getD, List.getElem?_take_of_lt hk, List.getElem?_drop,
      List.getD_eq_getElem?_getD]
  refine congrArg some (List.map_congr_left (g := fun k => buf.getD (start + k) 0) fun k hk => ?_)
  exact hget (List.mem_range.1 hk)

theorem toNat_ofNat_mul {i : ℕ} (hi : i < 32) : (BitVec.ofNat 8 i * 8 : Byte).toNat = i * 8 := by
  rw [BitVec.toNat_mul, BitVec.toNat_ofNat]
  change i % 256 * 8 % 256 = _
  omega

/-- The offset of a header stays inside a byte for the first 31 of them. -/
theorem returns_phdrStart (hi : i < 256) : Returns (i ≤ 30) (phdrStart i) (8 + 8 * i) := by
  have hmod : (BitVec.ofNat 8 i).toNat = i := Nat.mod_eq_of_lt hi
  constructor
  · intro h
    have hprod : (BitVec.ofNat 8 i).toNat * (8 : Byte).toNat < 2 ^ 8 := by
      rw [hmod]
      change i * 8 < 256
      omega
    have hsum : (8 : Byte).toNat + (BitVec.ofNat 8 i * 8 : Byte).toNat < 2 ^ 8 := by
      rw [toNat_ofNat_mul (by omega)]
      change 8 + i * 8 < 256
      omega
    rw [phdrStart, (returns_checkedMul _ _).eq hprod, pure_bind, (returns_checkedAdd _ _).eq hsum,
      pure_bind, BitVec.toNat_add, Nat.mod_eq_of_lt hsum, toNat_ofNat_mul (by omega), Nat.mul_comm]
    rfl
  · intro h
    by_cases h31 : i = 31
    · subst h31
      exact ⟨.arithmetic, rfl⟩
    · refine panics_bind ((returns_checkedMul _ _).panics ?_) _
      rw [hmod]
      change ¬ i * 8 < 256
      omega

theorem phdr_tryFrom_eq (b₀ b₁ b₂ b₃ b₄ b₅ b₆ b₇ : Byte) :
    SfdpPhdr.tryFrom [b₀, b₁, b₂, b₃, b₄, b₅, b₆, b₇] =
      pure ⟨b₀, b₁, b₂, b₃, Word.ofBytes b₄ b₅ b₆ b₇ &&& 0x00ffffff⟩ := rfl

/-- A round of the loop over the headers: it stops from header 31 on, and fails where the buffer
ends. -/
theorem readPhdr_eq (hi : i ≤ 30) (h : 16 + 8 * i ≤ buf.length) :
    readPhdr buf i = pure (phdrAt buf i) := by
  have hle : 8 + 8 * i + 8 ≤ buf.length := by omega
  rw [readPhdr, (returns_phdrStart (by omega)).eq hi, pure_bind, getOr, getRange_eight hle]
  rfl

theorem readPhdr_eq_fail (hi : i ≤ 30) (h : buf.length < 16 + 8 * i) :
    readPhdr buf i = fail (.sliceRange (8 + 8 * i) (8 + 8 * i + 8)) := by
  have hlt : buf.length < 8 + 8 * i + 8 := by omega
  rw [readPhdr, (returns_phdrStart (by omega)).eq hi, pure_bind, getOr, getRange_eq_none hlt]
  rfl

theorem not_panics_readPhdr (hi : i ≤ 30) : ¬ Panics (readPhdr buf i) := by
  by_cases h : 16 + 8 * i ≤ buf.length
  · rw [readPhdr_eq hi h]
    exact not_panics_pure _
  · rw [readPhdr_eq_fail hi (Nat.lt_of_not_le h)]
    exact not_panics_fail _

theorem readPhdrs_eq (hn : n ≤ 30) (h : 16 + 8 * n ≤ buf.length) :
    (List.range (n + 1)).mapM (readPhdr buf) = pure ((List.range (n + 1)).map (phdrAt buf)) := by
  refine mapM_eq_pure fun i hi => ?_
  have hle : i ≤ n := Nat.le_of_lt_succ (List.mem_range.1 hi)
  exact readPhdr_eq (hle.trans hn) (by omega)

theorem readPhdrs_not_ok (hn : n ≤ 30) (h : buf.length < 16 + 8 * n) (v : List SfdpPhdr) :
    (List.range (n + 1)).mapM (readPhdr buf) ≠ .ok v := by
  intro hv
  obtain ⟨b, hb⟩ := ok_of_mapM_eq_ok hv n (List.mem_range.2 n.lt_succ_self)
  rw [readPhdr_eq_fail hn h] at hb
  cases hb

theorem panics_readPhdr_31 : Panics (readPhdr buf 31) :=
  panics_bind ((returns_phdrStart (by decide)).panics (by decide)) _

theorem le_of_readPhdrs_ok {v : List SfdpPhdr}
    (h : (List.range (n + 1)).mapM (readPhdr buf) = .ok v) :
    n ≤ 30 ∧ 16 + 8 * n ≤ buf.length := by
  have hn : n ≤ 30 := Nat.le_of_not_lt fun hlt => by
    obtain ⟨b, hb⟩ := ok_of_mapM_eq_ok h 31 (List.mem_range.2 (Nat.succ_le_succ hlt))
    exact not_panics_ok b (hb ▸ panics_readPhdr_31)
  exact ⟨hn, Nat.le_of_not_lt fun hlt => readPhdrs_not_ok hn hlt v h⟩

/-- The loop over the headers stops if there are more than 31 of them in the buffer. -/
theorem panics_readPhdrs_iff (hn : n < 256) :
    Panics ((List.range (n + 1)).mapM (readPhdr buf)) ↔ 31 ≤ n ∧ 256 ≤ buf.length := by
  have hfirst {k : ℕ} (hk : k ≤ 31) : ¬ Panics ((List.range k).mapM (readPhdr buf)) :=
    not_panics_mapM fun i hi => not_panics_readPhdr (by have := List.mem_range.1 hi; omega)
  by_cases h : 31 ≤ n
  · obtain ⟨k, rfl⟩ := Nat.exists_eq_add_of_le h
    rw [show 31 + k + 1 = 31 + (k + 1) by omega, List.range_add, panics_mapM_append_iff]
    constructor
    · rintro (hp | ⟨⟨v, hv⟩, -⟩)
      · exact absurd hp (hfirst le_rfl)
      · refine ⟨h, Nat.le_of_not_lt fun hlt => ?_⟩
        exact readPhdrs_not_ok (n := 30) le_rfl (by omega) v hv
    · rintro ⟨-, hlen⟩
      refine .inr ⟨⟨_, readPhdrs_eq (n := 30) le_rfl (by omega)⟩, ?_⟩
      rw [List.range_succ_eq_map, List.map_cons, List.mapM_cons]
      exact panics_bind panics_readPhdr_31 _
  · exact iff_of_false (hfirst (by omega)) fun hp => h hp.1

def headerAt (buf : List Byte) : SfdpHeader where
  signature := kSfdpHeaderSignature
  minor := buf.getD 4 0
  major := buf.getD 5 0
  nph := buf.getD 6 0
  reserved := buf.getD 7 0

theorem header_tryFrom_cases (h : 8 ≤ buf.length) : ∃ bytes, getRange buf 0 8 = some bytes ∧
    ((HasSignature buf ∧ SfdpHeader.tryFrom bytes = pure (headerAt buf)) ∨
      ¬ HasSignature buf ∧ ∃ e, SfdpHeader.tryFrom bytes = fail e) := by
  refine ⟨_, getRange_eight h, ?_⟩
  by_cases hs : Word.ofBytes (buf.getD 0 0) (buf.getD 1 0) (buf.getD 2 0) (buf.getD 3 0) =
      kSfdpHeaderSignature
  · refine .inl ⟨⟨h, hs⟩, ?_⟩
    refine (if_pos hs).trans ?_
    rw [headerAt, ← hs]
  · exact .inr ⟨fun hsig => hs hsig.2, _, if_neg hs⟩

/-! ### `length_required` -/

/-- Where a table ends, as the loop computes it. -/
def tableLast (buf : List Byte) (i : ℕ) : Word :=
  (phdrAt buf i).offset + ((phdrAt buf i).dwords * 4).setWidth 32

theorem offset_le (buf : List Byte) (i : ℕ) : (phdrAt buf i).offset.toNat ≤ 0xffffff := by
  change (_ &&& (0x00ffffff : Word)).toNat ≤ _
  rw [BitVec.toNat_and]
  exact Nat.and_le_right

/-- A round stops from header 31 on, and at a table of 64 dwords or more. -/
theorem returns_extend (h : 256 ≤ buf.length) (hi : i < 256) (len : Word) :
    Returns (i ≤ 30 ∧ (phdrAt buf i).dwords.toNat < 64) (extend buf len i)
      (if len ≤ tableLast buf i then tableLast buf i else len) := by
  have hsum : (phdrAt buf i).offset.toNat +
      (((phdrAt buf i).dwords * 4).setWidth 32 : Word).toNat < 2 ^ 32 := by
    have hoffset := offset_le buf i
    have hsize := ((phdrAt buf i).dwords * 4).isLt
    rw [BitVec.toNat_setWidth]
    omega
  have hsize : Returns ((phdrAt buf i).dwords.toNat < 64)
      (checkedMul (phdrAt buf i).dwords 4 : SfdpRun Byte) ((phdrAt buf i).dwords * 4) := by
    refine (returns_checkedMul _ _).congr ?_
    change _ * 4 < 256 ↔ _
    omega
  refine (returns_phdrStart hi).bind fun hle => ?_
  have hlast : 8 + 8 * i + 8 ≤ buf.length := by omega
  rw [slice, getRange_eight hlast, pure_bind, phdr_tryFrom_eq, pure_bind]
  exact (hsize.bind fun _ => ((returns_checkedAdd _ _).congr (iff_true_intro hsum)).bind_pure
    _).congr (and_iff_left trivial)

/-- `length_required` stops exactly for a header count or a table length that does not fit. -/
theorem panics_lengthRequired_iff : Panics (lengthRequired buf) ↔ 256 ≤ buf.length ∧
    HasSignature buf ∧ ¬ ∀ i ≤ nph buf, i ≤ 30 ∧ (phdrAt buf i).dwords.toNat < 64 := by
  unfold lengthRequired
  by_cases h : buf.length < 256
  · rw [if_pos h]
    exact iff_of_false (not_panics_pure _) fun hp => absurd hp.1 (Nat.not_le.2 h)
  have hlen : 256 ≤ buf.length := Nat.le_of_not_lt h
  rw [if_neg h]
  obtain ⟨bytes, hbytes, ⟨hs, hheader⟩ | ⟨hs, e, hheader⟩⟩ :=
    header_tryFrom_cases (show 8 ≤ buf.length by omega)
  · have hlt {i : ℕ} (hi : i ∈ List.range (nph buf + 1)) : i < 256 :=
      Nat.lt_of_lt_of_le (List.mem_range.1 hi) (buf.getD 6 0).isLt
    have hloop := returns_foldlM (f := extend buf)
      (fun len _ hi => returns_extend hlen (hlt hi) len) 0
    rw [slice, hbytes, pure_bind, hheader, pure_bind]
    refine (hloop.bind_pure _).panics_iff.trans ?_
    simp only [hlen, hs, true_and, List.mem_range, Nat.lt_succ_iff]
  · rw [slice, hbytes, pure_bind, hheader]
    exact iff_of_false (not_panics_fail _) fun hp => hs hp.2.1

/-! ### `try_from` -/

theorem not_panics_tableBytes (buf : List Byte) (ph : SfdpPhdr) : ¬ Panics (tableBytes buf ph) := by
  unfold tableBytes getOr okOr
  split
  · exact not_panics_pure _
  · exact not_panics_fail _

theorem tableBytes_first : tableBytes buf (phdrAt buf 0) =
    if tableEnd buf ≤ buf.length then
      pure ((buf.drop (phdrAt buf 0).offset.toNat).take ((phdrAt buf 0).dwords.toNat * 4))
    else fail (.sliceRange (phdrAt buf 0).offset.toNat (tableEnd buf)) := by
  unfold tableBytes getOr
  by_cases h : tableEnd buf ≤ buf.length
  · rw [if_pos h, getRange_eq (Nat.le_add_right _ _) h, Nat.add_sub_cancel_left]
    rfl
  · rw [if_neg h]
    exact congrArg (okOr · _) (getRange_eq_none (Nat.lt_of_not_le h))

/-- The tables behind the first one are copied, and never stop the parser. -/
theorem not_panics_params (l : List SfdpPhdr) :
    ¬ Panics (l.mapM fun ph => (do
      pure (UnknownParams.tryFrom (← tableBytes buf ph)) : SfdpRun UnknownParams)) :=
  not_panics_mapM fun ph _ =>
    not_panics_bind (not_panics_tableBytes buf ph) fun _ _ => not_panics_pure _

/-- Behind the headers, only the first table can stop the parser. -/
theorem panics_readTables_iff {phdr : List SfdpPhdr} (header : SfdpHeader) :
    Panics (readTables buf header (phdrAt buf 0 :: phdr)) ↔
      tableEnd buf ≤ buf.length ∧ ¬ JedecParams.Decodes (firstTable buf) := by
  have hindex : (index (phdrAt buf 0 :: phdr) 0 : SfdpRun SfdpPhdr) = pure (phdrAt buf 0) := rfl
  rw [readTables, hindex, pure_bind, tableBytes_first]
  by_cases h : tableEnd buf ≤ buf.length
  · rw [if_pos h, pure_bind, panics_bind_iff, (JedecParams.returns_tryFrom _).panics_iff]
    refine (or_iff_left ?_).trans (and_iff_right h).symm
    rintro ⟨jedec, -, hp⟩
    exact not_panics_bind (not_panics_params _) (fun _ _ => not_panics_pure _) hp
  · rw [if_neg h]
    exact iff_of_false (not_panics_fail _) fun hp => h hp.1

/-- `try_from` stops for too many headers, and on a first table that it cannot decode. -/
theorem panics_tryFrom_iff : Panics (tryFrom buf) ↔ HasSignature buf ∧
    (31 ≤ nph buf ∧ 256 ≤ buf.length ∨ nph buf ≤ 30 ∧ 16 + 8 * nph buf ≤ buf.length ∧
      tableEnd buf ≤ buf.length ∧ ¬ JedecParams.Decodes (firstTable buf)) := by
  by_cases h8 : 8 ≤ buf.length
  · obtain ⟨bytes, hbytes, hcases⟩ := header_tryFrom_cases h8
    have hget : getOr buf 0 8 = pure bytes := by
      rw [getOr, hbytes]
      rfl
    rw [tryFrom, hget, pure_bind]
    obtain ⟨hs, hheader⟩ | ⟨hs, e, hheader⟩ := hcases
    · rw [hheader, pure_bind, panics_bind_iff]
      refine (or_congr (panics_readPhdrs_iff (buf.getD 6 0).isLt) ?_).trans (and_iff_right hs).symm
      constructor
      · rintro ⟨phdr, hphdr, hp⟩
        obtain ⟨hn, hlen⟩ := le_of_readPhdrs_ok hphdr
        have heq := Except.ok.inj (hphdr.symm.trans (readPhdrs_eq hn hlen))
        rw [heq, List.range_succ_eq_map, List.map_cons] at hp
        exact ⟨hn, hlen, (panics_readTables_iff _).1 hp⟩
      · rintro ⟨hn, hlen, hp⟩
        refine ⟨_, readPhdrs_eq hn hlen, ?_⟩
        rw [List.range_succ_eq_map, List.map_cons]
        exact (panics_readTables_iff _).2 hp
    · rw [hheader]
      exact iff_of_false (not_panics_fail _) fun hp => hs hp.1
  · have hget : getOr buf 0 8 = fail (.sliceRange 0 8) := by
      rw [getOr, getRange_eq_none (Nat.lt_of_not_le h8)]
      rfl
    rw [tryFrom, hget]
    exact iff_of_false (not_panics_fail _) fun hp => h8 hp.1.1

/-- A buffer with the signature is parsed without a stop exactly if it is readable. -/
theorem sfdp_parsing_total_iff (buf : List Byte) :
    (¬ Panics (lengthRequired buf) ∧ ¬ Panics (tryFrom buf)) ↔
      (HasSignature buf → Readable buf) := by
  rw [panics_lengthRequired_iff, panics_tryFrom_iff]
  constructor
  · rintro ⟨hlength, htry⟩ hs
    have hbelow (h : 256 ≤ buf.length) (i : ℕ) (hi : i ≤ nph buf) :
        i ≤ 30 ∧ (phdrAt buf i).dwords.toNat < 64 :=
      Classical.not_not.1 (fun hall => hlength ⟨h, hs, hall⟩) i hi
    refine ⟨fun h => (hbelow h _ le_rfl).1, fun h i hi => (hbelow h i hi).2, fun h htable => ?_⟩
    by_cases hn : nph buf ≤ 30
    · exact Classical.not_not.1 fun hd => htry ⟨hs, .inr ⟨hn, h, htable, hd⟩⟩
    · exact absurd ⟨hs, .inl ⟨by omega, by omega⟩⟩ htry
  · intro h
    constructor
    · rintro ⟨hlen, hs, hall⟩
      exact hall fun i hi => ⟨hi.trans ((h hs).headers hlen), (h hs).lengths hlen i hi⟩
    · rintro ⟨hs, ⟨hn, hlen⟩ | ⟨-, hlen, htable, hd⟩⟩
      · exact absurd ((h hs).headers hlen) (by omega)
      · exact hd ((h hs).table hlen htable)

/-- A short buffer with one table of no dwords. -/
def emptyTable : List Byte :=
  [0x53, 0x46, 0x44, 0x50, 6, 1, 0, 0xff, 0, 6, 1, 0, 0, 0, 0, 0xff]

/-- The table is read without a look at its length. -/
theorem sfdp_parsing_panics : Panics (tryFrom emptyTable) := ⟨.index, rfl⟩

end Sfdp

end SecureBoot
