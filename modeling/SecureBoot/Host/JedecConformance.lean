import SecureBoot.Host.JedecLayout

/-! Which fields of a table are decoded from the bits that the standard gives to them. A field that
is read elsewhere changes when a bit there is flipped. -/

namespace SecureBoot

open Rust InternalJedecParams JedecParams

/-- A field of a decoded table that stays the same in every table with the same bits in some
ranges. -/
def FollowsLayout {α : Type} (get : JedecParams → α) (ranges : List BitRange) (buf : List Byte)
    (jedec : JedecParams) : Prop :=
  ∀ buf' jedec', JedecParams.tryFrom buf' = .ok jedec' →
    (readU32Into buf').length = (readU32Into buf).length →
    (∀ r ∈ ranges, r.Agree (.tryFrom buf) (.tryFrom buf')) → get jedec' = get jedec

theorem readU32Into_wordsToBytes (ws : List Word) : readU32Into (wordsToBytes ws) = ws := by
  induction ws with
  | nil => rfl
  | cons w ws ih =>
    change Word.ofBytes _ _ _ _ :: readU32Into (wordsToBytes ws) = _
    rw [ih, Word.ofBytes_extract]

/-! ### Flipping a bit -/

/-- The table with one bit changed. -/
def InternalJedecParams.flip (p : InternalJedecParams) (dword i : ℕ) : InternalJedecParams :=
  ⟨p.data.set (dword - 1) (p.data.getD (dword - 1) 0 ^^^ BitVec.twoPow 32 i)⟩

section

variable {p : InternalJedecParams} {dword i d j : ℕ}

theorem length_flip : (p.flip dword i).data.length = p.data.length := List.length_set

theorem getD_flip_self (hpos : 0 < dword) (hlen : dword ≤ p.data.length) :
    (p.flip dword i).data.getD (dword - 1) 0 =
      p.data.getD (dword - 1) 0 ^^^ BitVec.twoPow 32 i := by
  rw [List.getD_eq_getElem?_getD, InternalJedecParams.flip, List.getElem?_set_self (by omega),
    Option.getD_some]

theorem getD_flip_of_ne (hd : d - 1 ≠ dword - 1) :
    (p.flip dword i).data.getD (d - 1) 0 = p.data.getD (d - 1) 0 := by
  rw [List.getD_eq_getElem?_getD, InternalJedecParams.flip, List.getElem?_set_ne (Ne.symm hd),
    List.getD_eq_getElem?_getD]

theorem bits_flip_of_ne (hd : d - 1 ≠ dword - 1) (offset size : ℕ) :
    (p.flip dword i).bits d offset size = p.bits d offset size :=
  congrArg (BitField.bits ⟨offset, size⟩) (getD_flip_of_ne hd)

/-- A range without the bit stays as it was. -/
theorem agree_flip {r : BitRange} (hone : 1 < dword) (hlen : dword ≤ p.data.length)
    (h : r.dword ≠ dword ∨ i < r.offset ∨ r.offset + r.size ≤ i) :
    r.Agree p (p.flip dword i) := by
  intro k hk
  unfold InternalJedecParams.bit
  by_cases hd : r.dword = dword
  · rw [hd, getD_flip_self (by omega) hlen, BitVec.getLsbD_xor, BitVec.getLsbD_twoPow]
    have hne : i ≠ r.offset + k := by omega
    rw [decide_eq_false hne, Bool.and_false, Bool.xor_false]
  · rw [getD_flip_of_ne (by omega)]

/-- A field that begins with the bit changes. -/
theorem byte_flip_ne {offset size : ℕ} (hpos : 0 < dword) (hlen : dword ≤ p.data.length)
    (h : BitField.Fits ⟨offset, size⟩) :
    (p.flip dword offset).byte dword offset size ≠ p.byte dword offset size := by
  have hsize : 0 < size := h.1
  have hle : offset + size ≤ 32 := h.2.2
  have hbit (q : InternalJedecParams) : (q.byte dword offset size).getLsbD 0 =
      (q.data.getD (dword - 1) 0).getLsbD offset := by
    rw [byte, BitVec.getLsbD_setWidth]
    refine (Bool.true_and _).trans ((BitField.getLsbD_bits h _ 0).trans ?_)
    rw [decide_eq_true hsize, Bool.and_true]
    rfl
  intro heq
  have h0 := congrArg (BitVec.getLsbD · 0) heq
  simp only [hbit] at h0
  rw [getD_flip_self hpos hlen, BitVec.getLsbD_xor, BitVec.getLsbD_twoPow,
    decide_eq_true (by omega : offset < 32), decide_eq_true rfl] at h0
  simp at h0

/-- Whether a table can be decoded depends on three dwords only. -/
theorem decodes_flip (h : Decodes p) (hpos : 0 < dword) (hd : dword ∉ [1, 2, 8, 9]) :
    Decodes (p.flip dword i) := by
  have hne {d : ℕ} (hmem : d ∈ [2, 8, 9]) : d - 1 ≠ dword - 1 := by
    have hdne : d ≠ dword := fun h => hd (h ▸ List.mem_cons_of_mem _ hmem)
    have hdpos : 0 < d := by
      simp only [List.mem_cons, List.not_mem_nil, or_false] at hmem
      omega
    omega
  have hbits {d : ℕ} (hmem : d ∈ [2, 8, 9]) (offset size : ℕ) :
      (p.flip dword i).bits d offset size = p.bits d offset size :=
    bits_flip_of_ne (hne hmem) offset size
  have hsector {d offset : ℕ} (hmem : d ∈ [2, 8, 9]) (h : SectorFits p d offset) :
      SectorFits (p.flip dword i) d offset := by
    rw [SectorFits, byte, hbits hmem]
    exact h
  refine ⟨h.length.trans_eq length_flip.symm, fun hflag => ?_, hsector (by decide) h.sector1,
    hsector (by decide) h.sector2, hsector (by decide) h.sector3, hsector (by decide) h.sector4⟩
  rw [flag, hbits (by decide)] at hflag
  rw [hbits (by decide)]
  exact h.density hflag

end

/-! ### Placed and misplaced fields -/

variable {buf : List Byte} {jedec : JedecParams}

theorem tryFrom_eq_ok_iff :
    JedecParams.tryFrom buf = .ok jedec ↔ Decodes (.tryFrom buf) ∧ decoded (.tryFrom buf) = jedec :=
  (returns_tryFrom buf).ok_iff

theorem PlacedField.followsLayout (field : PlacedField)
    (h : JedecParams.tryFrom buf = .ok jedec) :
    FollowsLayout field.get field.ranges buf jedec := by
  intro buf' jedec' h' hlen hagree
  obtain ⟨-, rfl⟩ := tryFrom_eq_ok_iff.1 h
  obtain ⟨-, rfl⟩ := tryFrom_eq_ok_iff.1 h'
  exact (field.dependsOn _ _ hlen.symm hagree).symm

/-- A misplaced field follows the layout of the tables that do not announce it, and of no other. -/
theorem MisplacedField.followsLayout_iff (field : MisplacedField)
    (h : JedecParams.tryFrom buf = .ok jedec) (h16 : 16 ≤ (readU32Into buf).length) :
    FollowsLayout field.get field.ranges buf jedec ↔ field.announced (.tryFrom buf) = false := by
  obtain ⟨hdecodes, rfl⟩ := tryFrom_eq_ok_iff.1 h
  generalize hp : InternalJedecParams.tryFrom buf = p at hdecodes
  have hlen : 16 ≤ p.data.length := hp ▸ h16
  have hdword := field.read_le.trans hlen
  have hone : 1 < field.read.dword := Nat.lt_of_le_of_ne field.read_pos fun h =>
    field.read_elsewhere (h ▸ List.mem_cons_self)
  constructor
  · intro hfollows
    by_contra hannounced
    rw [Bool.not_eq_false] at hannounced
    let q := p.flip field.read.dword field.read.offset
    have hq : InternalJedecParams.tryFrom (wordsToBytes q.data) = q :=
      congrArg InternalJedecParams.mk (readU32Into_wordsToBytes q.data)
    have hagree : ∀ r ∈ field.ranges, r.Agree p q := fun r hr =>
      agree_flip hone hdword (field.outside r hr)
    have hsame := field.announced_dependsOn p q length_flip.symm hagree
    have hget := hfollows (wordsToBytes q.data) (decoded q)
      (tryFrom_eq_ok_iff.2 ⟨hq.symm ▸ decodes_flip hdecodes field.read_pos field.read_elsewhere,
        congrArg decoded hq⟩)
      (by
        rw [readU32Into_wordsToBytes]
        exact length_flip.trans (congrArg (·.data.length) hp).symm)
      (by rwa [hp, hq])
    rw [field.get_eq p hlen, field.get_eq q (hlen.trans_eq length_flip.symm), ← hsame,
      hannounced, if_pos rfl, if_pos rfl] at hget
    exact byte_flip_ne field.read_pos hdword field.read_fits (field.value_injective hget)
  · intro hannounced buf' jedec' h' hlen' hagree
    obtain ⟨-, rfl⟩ := tryFrom_eq_ok_iff.1 h'
    generalize hp' : InternalJedecParams.tryFrom buf' = p' at hagree ⊢
    rw [hp] at hagree
    have heq : p.data.length = p'.data.length := by
      rw [← hp, ← hp']
      exact hlen'.symm
    have hsame := field.announced_dependsOn p p' heq hagree
    rw [field.get_eq p hlen, field.get_eq p' (heq ▸ hlen), ← hsame, hannounced]
    rfl

/-! ### The table of the boot code -/

/-- What the table of the boot code says, apart from the opcode that enables writing: one mebibyte,
one erase type, no fast reads, no suspension. -/
structure EncodedByBootCode (jedec : JedecParams) : Prop where
  density : jedec.density.toNat * 8 = kFlashBitCount
  eraseOpcode4kib : jedec.eraseOpcode4kib.setWidth 32 = kSpiDeviceOpcodeSectorErase
  erase0 : jedec.erase0 = ⟨4096, 0x20, some ⟨.fromMillis 144, .fromMillis 288⟩⟩
  erase1 : jedec.erase1.size = 0 ∧ jedec.erase1.opcode = 0
  erase2 : jedec.erase2.size = 0 ∧ jedec.erase2.opcode = 0
  erase3 : jedec.erase3.size = 0 ∧ jedec.erase3.opcode = 0
  fastReads : ∀ param ∈ [jedec.param112, jedec.param122, jedec.param114, jedec.param144,
    jedec.param222, jedec.param444], param = .default
  suspend : ∃ revB, jedec.revB = some revB ∧ revB.suspendResumeSupported = false ∧
    ∀ opcode ∈ [revB.programResumeInstruction, revB.programSuspendInstruction,
      revB.resumeInstruction, revB.suspendInstruction], opcode = 0

theorem decodes_kSpiDeviceBfpt : Decodes ⟨kSpiDeviceBfpt⟩ where
  length := by decide
  density h := absurd h (by decide)
  sector1 := by decide
  sector2 := by decide
  sector3 := by decide
  sector4 := by decide

theorem encodedByBootCode_decoded : EncodedByBootCode (decoded ⟨kSpiDeviceBfpt⟩) where
  density := by decide
  eraseOpcode4kib := by decide
  erase0 := by decide
  erase1 := by decide
  erase2 := by decide
  erase3 := by decide
  fastReads := by decide
  suspend := ⟨_, rfl, by decide, by decide⟩

theorem tryFrom_wordsToBytes (ws : List Word) :
    InternalJedecParams.tryFrom (wordsToBytes ws) = ⟨ws⟩ :=
  congrArg InternalJedecParams.mk (readU32Into_wordsToBytes ws)

/-- Every field of a table of at least 16 dwords depends only on the bits of the standard, except
for ten that are read elsewhere whenever they are announced. The table of the boot code is decoded
to what it says, except that its opcode for enabling writes is taken for the other one. -/
theorem jedec_fields_follow_layout_iff {buf : List Byte} {jedec : JedecParams}
    (h16 : 16 ≤ (readU32Into buf).length) (h : JedecParams.tryFrom buf = .ok jedec) :
    jesd216Layout.Pairwise BitRange.Disjoint ∧
      (∀ field ∈ placedFields, (∀ r ∈ field.ranges, r ∈ jesd216Layout) ∧
        FollowsLayout field.get field.ranges buf jedec) ∧
      (∀ field ∈ misplacedFields, (∀ r ∈ field.ranges, r ∈ jesd216Layout) ∧
        (FollowsLayout field.get field.ranges buf jedec ↔
          field.announced (.tryFrom buf) = false)) ∧
      (buf = wordsToBytes kSpiDeviceBfpt →
        EncodedByBootCode jedec ∧ jedec.writeEnOpcode = 0x50) := by
  refine ⟨jesd216Layout_pairwise, fun field hf => ⟨fun r hr => ?_, field.followsLayout h⟩,
    fun field hf => ⟨fun r hr => ?_, field.followsLayout_iff h h16⟩, ?_⟩
  · exact ranges_subset_layout.1 r (List.mem_flatMap.2 ⟨field, hf, hr⟩)
  · exact ranges_subset_layout.2 r (List.mem_flatMap.2 ⟨field, hf, hr⟩)
  · rintro rfl
    obtain ⟨-, rfl⟩ := tryFrom_eq_ok_iff.1 h
    rw [tryFrom_wordsToBytes]
    exact ⟨encodedByBootCode_decoded, by decide⟩

/-- The table of a part with every fast read but the quad and dual ones for all phases. -/
def mx66l1g : List Word :=
  [0xfffb20e5, 0x3fffffff, 0x6b08eb44, 0xbb043b08, 0xfffffffe, 0xff00ffff, 0xeb44ffff, 0x520f200c,
    0xff00d810, 0x00c549d6, 0xe304df85, 0x38670344, 0xb030b030, 0x5cd5bdf7, 0xff299e4a, 0x85f950f0]

theorem jedec_fields_follow_layout_boot_code :
    16 ≤ (readU32Into (wordsToBytes kSpiDeviceBfpt)).length ∧
      ∃ jedec, JedecParams.tryFrom (wordsToBytes kSpiDeviceBfpt) = .ok jedec ∧
        EncodedByBootCode jedec ∧ jedec.writeEnOpcode = 0x50 := by
  have h16 : 16 ≤ (readU32Into (wordsToBytes kSpiDeviceBfpt)).length := by
    rw [readU32Into_wordsToBytes]
    decide
  have h : JedecParams.tryFrom (wordsToBytes kSpiDeviceBfpt) = .ok (decoded ⟨kSpiDeviceBfpt⟩) := by
    rw [tryFrom_eq_ok_iff, tryFrom_wordsToBytes]
    exact ⟨decodes_kSpiDeviceBfpt, rfl⟩
  exact ⟨h16, _, h, (jedec_fields_follow_layout_iff h16 h).2.2.2 rfl⟩

/-- The opcode of the quad read is 0xeb, and its wait states and mode bits are taken for it. -/
theorem jedec_misreads_opcode_144 :
    ∃ jedec, JedecParams.tryFrom (wordsToBytes mx66l1g) = .ok jedec ∧
      jedec.param144.opcode = 0x44 ∧
      InternalJedecParams.byte ⟨mx66l1g⟩ 3 8 8 = 0xeb ∧
      ¬ FollowsLayout (·.param144.opcode) [⟨1, 21, 1⟩, ⟨3, 8, 8⟩] (wordsToBytes mx66l1g) jedec := by
  have hdecodes : Decodes ⟨mx66l1g⟩ :=
    ⟨by decide, fun h => absurd h (by decide), by decide, by decide, by decide, by decide⟩
  have h : JedecParams.tryFrom (wordsToBytes mx66l1g) = .ok (decoded ⟨mx66l1g⟩) := by
    rw [tryFrom_eq_ok_iff, tryFrom_wordsToBytes]
    exact ⟨hdecodes, rfl⟩
  have h16 : 16 ≤ (readU32Into (wordsToBytes mx66l1g)).length := by
    rw [readU32Into_wordsToBytes]
    decide
  refine ⟨_, h, by decide, by decide, fun hfollows => ?_⟩
  have hannounced := (misplacedOpcode144.followsLayout_iff h h16).1 hfollows
  rw [tryFrom_wordsToBytes] at hannounced
  exact absurd hannounced (by decide)

end SecureBoot
