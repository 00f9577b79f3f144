import SecureBoot.Host.BootstrapFrame

/-! Frames of the rescue protocol: one section of a payload, which is found by the magic numbers at
the starts of its blocks. -/

namespace SecureBoot

open Rust Chunks

namespace HostBootstrap

namespace Rescue

inductive RescueError
  | imageFormatError
  deriving DecidableEq, Repr

abbrev kDataLen : ℕ := 1024 - 40
abbrev kHeaderAlignment : ℕ := 0x1000

def magicHeader : List Byte := [0xfd, 0xff, 0xff, 0xff]

def cryptolibTell : List Byte := [0x53, 0x53, 0x53, 0x53]

/-- `|c| c[0..4] == MAGIC_HEADER && c[4..8] != CRYPTOLIB_TELL`. -/
def startsSection (c : List Byte) : Run RescueError Bool := do
  let head ← slice c 0 4
  if head = magicHeader then
    let tell ← slice c 4 8
    pure (tell != cryptolibTell)
  else pure false

/-- `|c| c[0..4] == MAGIC_HEADER`. -/
def startsNext (c : List Byte) : Run RescueError Bool := do
  let head ← slice c 0 4
  pure (head == magicHeader)

/-- The second occurrence of the magic number, not followed by the tell of the cryptolib. -/
def findMinAddr (payload : List Byte) : Run RescueError ℕ := do
  let rest ← slice payload kHeaderAlignment payload.length
  match ← positionM startsSection (chunks kHeaderAlignment rest) with
  | some n => pure ((n + 1) * kHeaderAlignment)
  | none => fail .imageFormatError

/-- The third occurrence of the magic number, or the end of the payload. -/
def findMaxAddr (payload : List Byte) (minAddr : ℕ) : Run RescueError ℕ := do
  let rest ← slice payload (minAddr + kHeaderAlignment) payload.length
  match ← positionM startsNext (chunks kHeaderAlignment rest) with
  | some n => pure ((n + 1) * kHeaderAlignment + minAddr)
  | none => pure payload.length

/-- `Frame::from_payload`. -/
def fromPayload (sha256 : List Byte → List Byte) (payload : List Byte) :
    Run RescueError (List Frame) :=
  if magicHeader.isPrefixOf payload then do
    let minAddr ← findMinAddr payload
    let maxAddr ← findMaxAddr payload minAddr
    let part ← slice payload 0 maxAddr
    makeFrames sha256 kDataLen 0 payload (trimmedSize part) minAddr
  else fail .imageFormatError

/-! ### The map of a payload -/

/-- Whether a block starts with the magic number. -/
def isMagic (c : List Byte) : Bool := c.take 4 == magicHeader

/-- Whether a block starts with the magic number, not followed by the tell of the cryptolib. -/
def isSection (c : List Byte) : Bool := isMagic c && (c.drop 4).take 4 != cryptolibTell

/-- The first of the blocks from block `j` on with a property. -/
def IsFirst (q : List Byte → Bool) (payload : List Byte) (j k : ℕ) : Prop :=
  j ≤ k ∧ Has kHeaderAlignment q payload k ∧ ∀ i < k, j ≤ i → ¬ Has kHeaderAlignment q payload i

/-- None of the blocks from block `j` on has a property. -/
def NoneFrom (q : List Byte → Bool) (payload : List Byte) (j : ℕ) : Prop :=
  ∀ k, j ≤ k → ¬ Has kHeaderAlignment q payload k

/-- The section that is sent, RW_A: from the second magic number to the third one, or to the end of
the payload. -/
inductive RwSection (payload : List Byte) : ℕ → ℕ → Prop
  | next {k m : ℕ} (hk : IsFirst isSection payload 1 k) (hm : IsFirst isMagic payload (k + 1) m) :
    RwSection payload (kHeaderAlignment * k) (kHeaderAlignment * m)
  | last {k : ℕ} (hk : IsFirst isSection payload 1 k) (hm : NoneFrom isMagic payload (k + 1)) :
    RwSection payload (kHeaderAlignment * k) payload.length

/-- Whether the last block is too short for a magic number. -/
def Short (payload : List Byte) : Prop :=
  0 < payload.length % kHeaderAlignment ∧ payload.length % kHeaderAlignment < 4

/-! ### The searches -/

variable {payload : List Byte} {j k : ℕ}

theorem returns_startsNext (c : List Byte) :
    Returns (4 ≤ c.length) (startsNext c) (isMagic c) :=
  (returns_slice c (Nat.zero_le 4)).bind_pure (· == magicHeader)

theorem returns_startsSection (c : List Byte) :
    Returns (4 ≤ c.length ∧ (isMagic c = true → 8 ≤ c.length)) (startsSection c) (isSection c) := by
  refine (returns_slice c (Nat.zero_le 4)).bind fun _ => ?_
  change Returns _ (if c.take 4 = magicHeader then _ else _) _
  unfold isSection isMagic
  by_cases hmagic : c.take 4 = magicHeader
  · simp only [hmagic, if_true, beq_self_eq_true, Bool.true_and, forall_const]
    exact (returns_slice c (show 4 ≤ 8 by decide)).bind_pure (· != cryptolibTell)
  · simp only [hmagic, if_false, beq_eq_false_iff_ne.2 hmagic, Bool.false_and]
    exact (returns_pure false).congr (iff_of_true trivial fun h => by cases h)

theorem four_le_of_isMagic {c : List Byte} (h : isMagic c = true) : 4 ≤ c.length := by
  have hlength := congrArg List.length (beq_iff_eq.1 h)
  rw [List.length_take] at hlength
  change min 4 c.length = 4 at hlength
  omega

theorem isMagic_of_isSection {c : List Byte} (h : isSection c = true) : isMagic c = true :=
  (Bool.and_eq_true_iff.1 h).1

/-- A block that is too short for the tell is not followed by it. -/
theorem isSection_of_length_lt {c : List Byte} (h : isMagic c = true) (hlt : c.length < 8) :
    isSection c = true := by
  rw [isSection, h, Bool.true_and, bne_iff_ne]
  intro htell
  have hlength := congrArg List.length htell
  rw [List.length_take, List.length_drop] at hlength
  change min 4 (c.length - 4) = 4 at hlength
  omega

variable {q : List Byte → Bool}

/-- The first short block of a search that meets none of the matches is the last one. -/
theorem tested_four_le_iff (hq : ∀ c, q c = true → 4 ≤ c.length)
    (hj : kHeaderAlignment * j ≤ payload.length) :
    Tested (4 ≤ ·.length) q (chunks kHeaderAlignment (payload.drop (kHeaderAlignment * j))) ↔
      (NoneFrom q payload j → ¬ Short payload) := by
  have hlength (k : ℕ) := length_chunk kHeaderAlignment payload k
  rw [tested_chunks_iff (by decide)]
  simp only [chunk_drop, has_drop, List.length_drop, hlength]
  unfold NoneFrom Short kHeaderAlignment at *
  constructor
  · intro h hnone hshort
    have hlast := h (payload.length / 0x1000 - j) (by omega)
      fun i _ => hnone (j + i) (Nat.le_add_right j i)
    omega
  · intro h k hk hbefore
    by_contra hlt
    refine h (fun m hm hhas => ?_) (by omega)
    obtain ⟨i, rfl⟩ := Nat.exists_eq_add_of_le hm
    have hin := hhas.1
    have hfour := hq _ hhas.2
    rw [hlength] at hfour
    exact hbefore i (by omega) hhas

/-- The search for the start of the section tests nothing that is too short, if it need not. -/
theorem tested_startsSection_iff (hj : kHeaderAlignment * j ≤ payload.length) :
    Tested (fun c => 4 ≤ c.length ∧ (isMagic c = true → 8 ≤ c.length)) isSection
        (chunks kHeaderAlignment (payload.drop (kHeaderAlignment * j))) ↔
      (NoneFrom isSection payload j → ¬ Short payload) ∧
        ∀ k, IsFirst isSection payload j k → kHeaderAlignment * k + 8 ≤ payload.length := by
  rw [← tested_four_le_iff (fun c hc => four_le_of_isMagic (isMagic_of_isSection hc)) hj,
    tested_chunks_iff (by decide), tested_chunks_iff (by decide)]
  simp only [chunk_drop, has_drop]
  have hlength (k : ℕ) := length_chunk kHeaderAlignment payload k
  constructor
  · intro h
    refine ⟨fun k hk hbefore => (h k hk hbefore).1, ?_⟩
    rintro k ⟨hjk, hhas, hfirst⟩
    obtain ⟨i, rfl⟩ := Nat.exists_eq_add_of_le hjk
    have height := (h i ?_ fun m hm => hfirst (j + m) (by omega) (Nat.le_add_right j m)).2
      (isMagic_of_isSection hhas.2)
    · rw [hlength] at height
      unfold kHeaderAlignment at *
      omega
    · exact (has_drop.2 hhas).1
  · rintro ⟨hfour, height⟩ k hk hbefore
    refine ⟨hfour k hk hbefore, fun hmagic => ?_⟩
    by_contra hlt
    have hhas : Has kHeaderAlignment isSection payload (j + k) := by
      refine has_drop.1 ⟨hk, ?_⟩
      rw [chunk_drop]
      exact isSection_of_length_lt hmagic (not_le.1 hlt)
    have hle := height (j + k) ⟨Nat.le_add_right j k, hhas, fun i hi hji hmem => ?_⟩
    · rw [hlength] at hlt
      unfold kHeaderAlignment at *
      omega
    · obtain ⟨m, rfl⟩ := Nat.exists_eq_add_of_le hji
      exact hbefore m (by omega) hmem

theorem findIdx?_eq_some_iff {i : ℕ} :
    (chunks kHeaderAlignment (payload.drop (kHeaderAlignment * j))).findIdx? q = some i ↔
      IsFirst q payload j (j + i) := by
  rw [findIdx?_chunks_eq_some_iff (by decide)]
  simp only [has_drop, IsFirst]
  constructor
  · rintro ⟨hhas, hbefore⟩
    refine ⟨Nat.le_add_right j i, hhas, fun m hm hjm hmem => ?_⟩
    obtain ⟨m, rfl⟩ := Nat.exists_eq_add_of_le hjm
    exact hbefore m (by omega) hmem
  · rintro ⟨-, hhas, hbefore⟩
    exact ⟨hhas, fun m hm => hbefore (j + m) (by omega) (Nat.le_add_right j m)⟩

theorem findIdx?_eq_none_iff :
    (chunks kHeaderAlignment (payload.drop (kHeaderAlignment * j))).findIdx? q = none ↔
      NoneFrom q payload j := by
  rw [findIdx?_chunks_eq_none_iff (by decide)]
  simp only [has_drop, NoneFrom]
  constructor
  · intro h k hk
    obtain ⟨i, rfl⟩ := Nat.exists_eq_add_of_le hk
    exact h i
  · exact fun h i => h (j + i) (Nat.le_add_right j i)

theorem noneFrom_or_isFirst (q : List Byte → Bool) (payload : List Byte) (j : ℕ) :
    NoneFrom q payload j ∨ ∃ k, IsFirst q payload j k := by
  cases h : (chunks kHeaderAlignment (payload.drop (kHeaderAlignment * j))).findIdx? q with
  | none => exact .inl (findIdx?_eq_none_iff.1 h)
  | some i => exact .inr ⟨j + i, findIdx?_eq_some_iff.1 h⟩

theorem IsFirst.eq {m : ℕ} (hk : IsFirst q payload j k) (hm : IsFirst q payload j m) : k = m := by
  rcases Nat.lt_trichotomy k m with hlt | heq | hlt
  · exact absurd hk.2.1 (hm.2.2 k hlt hk.1)
  · exact heq
  · exact absurd hm.2.1 (hk.2.2 m hlt hm.1)

theorem returns_search_section (hj : kHeaderAlignment * j ≤ payload.length) :
    Returns ((NoneFrom isSection payload j → ¬ Short payload) ∧
        ∀ k, IsFirst isSection payload j k → kHeaderAlignment * k + 8 ≤ payload.length)
      (positionM startsSection
        (chunks kHeaderAlignment (payload.drop (kHeaderAlignment * j))))
      ((chunks kHeaderAlignment (payload.drop (kHeaderAlignment * j))).findIdx? isSection) :=
  (returns_positionM returns_startsSection _).congr (tested_startsSection_iff hj)

theorem returns_search_next (hj : kHeaderAlignment * j ≤ payload.length) :
    Returns (NoneFrom isMagic payload j → ¬ Short payload)
      (positionM startsNext (chunks kHeaderAlignment (payload.drop (kHeaderAlignment * j))))
      ((chunks kHeaderAlignment (payload.drop (kHeaderAlignment * j))).findIdx? isMagic) :=
  (returns_positionM returns_startsNext _).congr
    (tested_four_le_iff (fun _ => four_le_of_isMagic) hj)

/-! ### The limits of the section -/

theorem findMinAddr_eq (h : kHeaderAlignment * 1 ≤ payload.length) :
    findMinAddr payload = (do
      match ← positionM startsSection
          (chunks kHeaderAlignment (payload.drop (kHeaderAlignment * 1))) with
      | some n => pure ((n + 1) * kHeaderAlignment)
      | none => fail .imageFormatError) := by
  rw [findMinAddr, (returns_slice_length payload kHeaderAlignment).eq h]
  rfl

theorem findMinAddr_panics_of_lt (h : payload.length < kHeaderAlignment) :
    Panics (findMinAddr payload) :=
  panics_bind ((returns_slice_length payload kHeaderAlignment).panics (not_le.2 h)) _

theorem findMinAddr_panics_of_short (h : kHeaderAlignment * 1 ≤ payload.length)
    (hnone : NoneFrom isSection payload 1) (hshort : Short payload) :
    Panics (findMinAddr payload) := by
  rw [findMinAddr_eq h]
  exact panics_bind ((returns_search_section h).panics fun hc => hc.1 hnone hshort) _

theorem findMinAddr_of_noneFrom (h : kHeaderAlignment * 1 ≤ payload.length)
    (hnone : NoneFrom isSection payload 1) (hshort : ¬ Short payload) :
    findMinAddr payload = fail .imageFormatError := by
  rw [findMinAddr_eq h, (returns_search_section h).eq, findIdx?_eq_none_iff.2 hnone]
  · rfl
  · exact ⟨fun _ => hshort, fun k hk => absurd hk.2.1 (hnone k hk.1)⟩

theorem returns_findMinAddr (h : kHeaderAlignment * 1 ≤ payload.length)
    (hk : IsFirst isSection payload 1 k) :
    Returns (kHeaderAlignment * k + 8 ≤ payload.length) (findMinAddr payload)
      (kHeaderAlignment * k) := by
  obtain ⟨i, rfl⟩ := Nat.exists_eq_add_of_le hk.1
  have hsearch := (returns_search_section h).bind (f := fun
      | some n => pure ((n + 1) * kHeaderAlignment)
      | none => fail .imageFormatError) (d := True) (b := kHeaderAlignment * (1 + i)) fun _ => by
    rw [findIdx?_eq_some_iff.2 hk, Nat.mul_comm, Nat.add_comm]
    exact returns_pure _
  rw [findMinAddr_eq h]
  refine hsearch.congr ?_
  constructor
  · exact fun hc => hc.1.2 _ hk
  · refine fun hle => ⟨⟨fun hnone => absurd hk.2.1 (hnone _ hk.1), fun m hm => ?_⟩, trivial⟩
    rwa [hm.eq hk]

theorem findMaxAddr_panics_of_lt (h : payload.length < kHeaderAlignment * (k + 1)) :
    Panics (findMaxAddr payload (kHeaderAlignment * k)) :=
  panics_bind ((returns_slice_length payload _).panics (not_le.2 h)) _

theorem findMaxAddr_eq (h : kHeaderAlignment * (k + 1) ≤ payload.length) :
    findMaxAddr payload (kHeaderAlignment * k) = (do
      match ← positionM startsNext
          (chunks kHeaderAlignment (payload.drop (kHeaderAlignment * (k + 1)))) with
      | some n => pure ((n + 1) * kHeaderAlignment + kHeaderAlignment * k)
      | none => pure payload.length) := by
  rw [findMaxAddr, ← Nat.mul_succ, (returns_slice_length payload _).eq h]
  rfl

theorem findMaxAddr_next {m : ℕ} (h : kHeaderAlignment * (k + 1) ≤ payload.length)
    (hm : IsFirst isMagic payload (k + 1) m) :
    findMaxAddr payload (kHeaderAlignment * k) = pure (kHeaderAlignment * m) := by
  obtain ⟨i, rfl⟩ := Nat.exists_eq_add_of_le hm.1
  rw [findMaxAddr_eq h, (returns_search_next h).eq fun hnone => absurd hm.2.1 (hnone _ hm.1),
    findIdx?_eq_some_iff.2 hm, pure_bind]
  refine congrArg pure ?_
  rw [Nat.mul_comm, ← Nat.mul_add]
  exact congrArg (kHeaderAlignment * ·) (by omega)

theorem returns_findMaxAddr_last (h : kHeaderAlignment * (k + 1) ≤ payload.length)
    (hnone : NoneFrom isMagic payload (k + 1)) :
    Returns (¬ Short payload) (findMaxAddr payload (kHeaderAlignment * k)) payload.length := by
  have hsearch := (returns_search_next h).bind (f := fun
      | some n => pure ((n + 1) * kHeaderAlignment + kHeaderAlignment * k)
      | none => pure payload.length) (d := True) (b := payload.length) fun _ => by
    rw [findIdx?_eq_none_iff.2 hnone]
    exact returns_pure _
  rw [findMaxAddr_eq h]
  exact hsearch.congr ⟨fun hc => hc.1 hnone, fun hs => ⟨fun _ => hs, trivial⟩⟩

/-! ### The whole function -/

/-- The frames, as they should be: they carry the section, and nothing else. There are none only if
there is an error. -/
def SendsRwSection (sha256 : List Byte → List Byte) (payload : List Byte) : Prop :=
  ¬ Panics (fromPayload sha256 payload) ∧ ∀ frames, fromPayload sha256 payload = .ok frames →
    ∃ minAddr maxAddr, RwSection payload minAddr maxAddr ∧
      FramesOf kDataLen 0 minAddr (payload.take maxAddr) frames

/-- Frames start where their headers can say, and end inside the section or behind the payload. -/
def FitsSection (payload : List Byte) (minAddr maxAddr : ℕ) : Prop :=
  ∀ l, Starts kDataLen payload (trimmedSize (payload.take maxAddr)) minAddr l →
    ∀ a ∈ l, a < 2 ^ 32 ∧ (a + kDataLen ≤ maxAddr ∨ payload.length ≤ maxAddr)

/-- What it takes: a payload with the magic number is at least one block long, the section in it
too, no block that is searched is too short, and the frames fit the section. -/
def Fits (payload : List Byte) : Prop :=
  magicHeader.isPrefixOf payload = true → kHeaderAlignment * 1 ≤ payload.length ∧
    (NoneFrom isSection payload 1 → ¬ Short payload) ∧
    ∀ k, IsFirst isSection payload 1 k → kHeaderAlignment * (k + 1) ≤ payload.length ∧
      (NoneFrom isMagic payload (k + 1) → ¬ Short payload) ∧
      ∀ maxAddr, RwSection payload (kHeaderAlignment * k) maxAddr →
        FitsSection payload (kHeaderAlignment * k) maxAddr

variable (sha256 : List Byte → List Byte)

theorem take_of_isMagic {k : ℕ} (h : Has kHeaderAlignment isMagic payload k) :
    (payload.drop (kHeaderAlignment * k)).take 4 = magicHeader := by
  have hmagic := beq_iff_eq.1 h.2
  rw [chunk, List.take_take] at hmagic
  exact hmagic

/-- The section starts with a word that is not erased. -/
theorem filled_of_isMagic {k : ℕ} (h : Has kHeaderAlignment isMagic payload k) :
    Filled payload (1024 * k) := by
  have hlt := h.1
  unfold kHeaderAlignment at hlt
  refine ⟨by omega, ?_⟩
  rw [chunk, ← Nat.mul_assoc]
  change isFilled ((payload.drop (kHeaderAlignment * k)).take 4) = true
  rw [take_of_isMagic h]
  decide

/-- Another section does not start with an erased byte. -/
theorem getD_ne_of_isMagic {k : ℕ} (h : Has kHeaderAlignment isMagic payload k) :
    payload.getD (kHeaderAlignment * k) 0xff ≠ 0xff := by
  have hmagic := take_of_isMagic h
  have hbyte : ((payload.drop (kHeaderAlignment * k)).take 4).getD 0 0xff = 0xfd := by
    rw [hmagic]
    rfl
  rw [List.getD_eq_getElem?_getD, List.getElem?_take, if_pos (by decide), List.getElem?_drop,
    Nat.add_zero, ← List.getD_eq_getElem?_getD] at hbyte
  rw [hbyte]
  decide

variable {minAddr maxAddr : ℕ}

theorem RwSection.eq (h : RwSection payload minAddr maxAddr) {a b : ℕ}
    (h' : RwSection payload a b) : a = minAddr ∧ b = maxAddr := by
  cases h with
  | next hk hm =>
    cases h' with
    | next hk' hm' =>
      obtain rfl := hk.eq hk'
      exact ⟨rfl, congrArg _ (hm'.eq hm)⟩
    | last hk' hnone =>
      obtain rfl := hk.eq hk'
      exact absurd hm.2.1 (hnone _ hm.1)
  | last hk hnone =>
    cases h' with
    | next hk' hm' =>
      obtain rfl := hk.eq hk'
      exact absurd hm'.2.1 (hnone _ hm'.1)
    | last hk' _ =>
      obtain rfl := hk.eq hk'
      exact ⟨rfl, rfl⟩

theorem has_isMagic_of_isSection {k : ℕ} (h : Has kHeaderAlignment isSection payload k) :
    Has kHeaderAlignment isMagic payload k := ⟨h.1, isMagic_of_isSection h.2⟩

/-- Where a section starts. -/
theorem RwSection.exists_start (h : RwSection payload minAddr maxAddr) :
    ∃ k, IsFirst isSection payload 1 k ∧ minAddr = kHeaderAlignment * k ∧ minAddr < maxAddr := by
  cases h with
  | @next k m hk hm =>
    exact ⟨k, hk, rfl, (Nat.mul_lt_mul_left (by decide)).2 hm.1⟩
  | @last k hk _ => exact ⟨k, hk, rfl, hk.2.1.1⟩

/-- Where it ends. -/
theorem RwSection.end_cases (h : RwSection payload minAddr maxAddr) :
    (4 ∣ maxAddr ∨ payload.length ≤ maxAddr) ∧
      (payload.length ≤ maxAddr ∨ payload.getD maxAddr 0xff ≠ 0xff) ∧
        maxAddr ≤ payload.length := by
  cases h with
  | @next k m _ hm =>
    exact ⟨.inl ((show 4 ∣ kHeaderAlignment by decide).mul_right m),
      .inr (getD_ne_of_isMagic hm.2.1), hm.2.1.1.le⟩
  | last => exact ⟨.inr le_rfl, .inl le_rfl, le_rfl⟩

theorem RwSection.filled_take_iff (h : RwSection payload minAddr maxAddr) (k : ℕ) :
    Filled (payload.take maxAddr) k ↔ Filled payload k ∧ 4 * k < (payload.take maxAddr).length :=
  HostBootstrap.filled_take_iff h.end_cases.1

theorem RwSection.dvd (h : RwSection payload minAddr maxAddr) : 4 ∣ minAddr := by
  obtain ⟨k, -, hmin, -⟩ := h.exists_start
  exact hmin ▸ (show 4 ∣ kHeaderAlignment by decide).mul_right k

theorem RwSection.dataLen_le (h : RwSection payload minAddr maxAddr) : kDataLen ≤ 0 + minAddr := by
  obtain ⟨k, hk, hmin, -⟩ := h.exists_start
  have hpos := hk.1
  unfold kDataLen
  unfold kHeaderAlignment at hmin
  omega

/-- The last word of a section that is not erased. -/
theorem RwSection.exists_last (h : RwSection payload minAddr maxAddr) :
    ∃ last, Filled (payload.take maxAddr) last ∧
      (∀ k, Filled (payload.take maxAddr) k → k ≤ last) ∧ minAddr ≤ 4 * last ∧
        trimmedSize (payload.take maxAddr) = 4 * (last + 1) := by
  obtain ⟨k, hk, hmin, hlt⟩ := h.exists_start
  have hfilled : Filled (payload.take maxAddr) (1024 * k) := by
    refine (h.filled_take_iff _).2 ⟨filled_of_isMagic (has_isMagic_of_isSection hk.2.1), ?_⟩
    rw [List.length_take, Nat.min_eq_left h.end_cases.2.2, ← Nat.mul_assoc]
    exact hmin ▸ hlt
  obtain ⟨last, hlast, hmax, htrimmed⟩ := HostBootstrap.exists_last ⟨_, hfilled⟩
  have hword := hmax _ hfilled
  unfold kHeaderAlignment at hmin
  exact ⟨last, hlast, hmax, by omega, htrimmed⟩

theorem RwSection.exists_starts (h : RwSection payload minAddr maxAddr) :
    ∃ l, Starts kDataLen payload (trimmedSize (payload.take maxAddr)) minAddr l := by
  obtain ⟨last, hlast, -, -, htrimmed⟩ := h.exists_last
  have hpos : 0 < kDataLen := by decide
  rw [htrimmed]
  exact HostBootstrap.exists_starts hpos (by decide) ((h.filled_take_iff last).1 hlast).1 h.dvd

/-- The frames for a section carry it if and only if they fit it. -/
theorem makeFrames_iff_fitsSection (h : RwSection payload minAddr maxAddr) :
    (∃ frames, (makeFrames sha256 kDataLen 0 payload (trimmedSize (payload.take maxAddr)) minAddr :
        Run RescueError (List Frame)) = .ok frames ∧
        FramesOf kDataLen 0 minAddr (payload.take maxAddr) frames) ↔
      FitsSection payload minAddr maxAddr := by
  obtain ⟨last, hlast, hmax, hlelast, htrimmed⟩ := h.exists_last
  have hexists := h.exists_starts
  rw [FitsSection]
  rw [htrimmed] at hexists ⊢
  have hiff {l : List ℕ} (hl : Starts kDataLen payload (4 * (last + 1)) minAddr l) :=
    makeFrames_framesOf_iff sha256 (ε := RescueError) 0 hl (by decide) (by decide) h.dvd h.dataLen_le
      h.filled_take_iff hlast hmax hlelast
  have hwindow {l : List ℕ} (hl : Starts kDataLen payload (4 * (last + 1)) minAddr l) :
      ∀ a ∈ l, window kDataLen payload a = window kDataLen (payload.take maxAddr) a ↔
        a + kDataLen ≤ maxAddr ∨ payload.length ≤ maxAddr := by
    intro a ha
    have hlt := hl.lt ((h.filled_take_iff last).1 hlast).1 (by decide) h.dvd a ha
    have hin := hlast.1
    rw [List.length_take] at hin
    exact window_take_iff (by omega) h.end_cases.2.1
  constructor
  · intro hframes l hl a ha
    obtain ⟨hfits, hin⟩ := (hiff hl).1 hframes
    exact ⟨hfits a ha, (hwindow hl a ha).1 (hin a ha)⟩
  · intro hfits
    obtain ⟨l, hl⟩ := hexists
    refine (hiff hl).2 ⟨fun a ha => (hfits l hl a ha).1, fun a ha => ?_⟩
    exact (hwindow hl a ha).2 (hfits l hl a ha).2

/-- Once the limits of the section are found, everything depends on its frames. -/
theorem sendsRwSection_iff_fitsSection (hmagic : magicHeader.isPrefixOf payload = true)
    (h : RwSection payload minAddr maxAddr) (hmin : findMinAddr payload = pure minAddr)
    (hmax : findMaxAddr payload minAddr = pure maxAddr) :
    SendsRwSection sha256 payload ↔ FitsSection payload minAddr maxAddr := by
  have hpart : (slice payload 0 maxAddr : Run RescueError (List Byte)) =
      pure (payload.take maxAddr) := (returns_slice payload (Nat.zero_le _)).eq h.end_cases.2.2
  have hrun : fromPayload sha256 payload =
      makeFrames sha256 kDataLen 0 payload (trimmedSize (payload.take maxAddr)) minAddr := by
    rw [fromPayload, if_pos hmagic, hmin, pure_bind, hmax, pure_bind, hpart, pure_bind]
  obtain ⟨l, hl⟩ := h.exists_starts
  have hreturns := returns_makeFrames sha256 (ε := RescueError) 0 hl (by decide)
    (by decide) h.dvd
  rw [← makeFrames_iff_fitsSection sha256 h, SendsRwSection, hrun, hreturns.panics_iff, not_not]
  constructor
  · rintro ⟨hcount, hframes⟩
    have hok := hreturns.eq hcount
    obtain ⟨a, b, hab, hcarries⟩ := hframes _ hok
    obtain ⟨rfl, rfl⟩ := h.eq hab
    exact ⟨_, hok, hcarries⟩
  · rintro ⟨frames, hok, hcarries⟩
    refine ⟨(hreturns.ok_iff.1 hok).1, fun frames' hok' => ⟨minAddr, maxAddr, h, ?_⟩⟩
    rw [hok] at hok'
    cases hok'
    exact hcarries

theorem not_sendsRwSection_of_panics (h : Panics (fromPayload sha256 payload)) :
    ¬ SendsRwSection sha256 payload := fun hsends => hsends.1 h

theorem fromPayload_eq_of_isPrefixOf (hmagic : magicHeader.isPrefixOf payload = true) :
    fromPayload sha256 payload = (do
      let minAddr ← findMinAddr payload
      let maxAddr ← findMaxAddr payload minAddr
      let part ← slice payload 0 maxAddr
      makeFrames sha256 kDataLen 0 payload (trimmedSize part) minAddr) := if_pos hmagic

/-- An error that is returned is neither a panic nor wrong frames. -/
theorem sendsRwSection_of_fail (h : fromPayload sha256 payload = fail .imageFormatError) :
    SendsRwSection sha256 payload := by
  rw [SendsRwSection, h]
  exact ⟨not_panics_fail _, fun frames hok => by cases hok⟩

/-- The frames carry the section named by the payload, or there is an error, if and only if the
payload has no section that is too short and its frames fit the section. -/
theorem rescue_frames_send_rw_section_iff (sha256 : List Byte → List Byte) (payload : List Byte) :
    SendsRwSection sha256 payload ↔ Fits payload := by
  by_cases hmagic : magicHeader.isPrefixOf payload = true
  swap
  · exact iff_of_true (sendsRwSection_of_fail sha256 (if_neg hmagic)) fun h => absurd h hmagic
  have hrun := fromPayload_eq_of_isPrefixOf sha256 hmagic
  by_cases hlen : kHeaderAlignment * 1 ≤ payload.length
  swap
  · refine iff_of_false (not_sendsRwSection_of_panics sha256 ?_) fun h => hlen (h hmagic).1
    rw [hrun]
    exact panics_bind (findMinAddr_panics_of_lt (not_le.1 hlen)) _
  rcases noneFrom_or_isFirst isSection payload 1 with hnone | ⟨k, hk⟩
  · -- no section to send
    by_cases hshort : Short payload
    · refine iff_of_false (not_sendsRwSection_of_panics sha256 ?_) fun h =>
        (h hmagic).2.1 hnone hshort
      rw [hrun]
      exact panics_bind (findMinAddr_panics_of_short hlen hnone hshort) _
    · refine iff_of_true (sendsRwSection_of_fail sha256 ?_) fun _ =>
        ⟨hlen, fun _ => hshort, fun k hk => absurd hk.2.1 (hnone k hk.1)⟩
      rw [hrun, findMinAddr_of_noneFrom hlen hnone hshort]
      rfl
  have hminAddr := returns_findMinAddr hlen hk
  by_cases hblock : kHeaderAlignment * (k + 1) ≤ payload.length
  swap
  · -- a section shorter than a block
    refine iff_of_false (not_sendsRwSection_of_panics sha256 ?_) fun h =>
      hblock ((h hmagic).2.2 k hk).1
    rw [hrun]
    by_cases height : kHeaderAlignment * k + 8 ≤ payload.length
    · rw [hminAddr.eq height, pure_bind]
      exact panics_bind (findMaxAddr_panics_of_lt (not_le.1 hblock)) _
    · exact panics_bind (hminAddr.panics height) _
  have hmin := hminAddr.eq (by unfold kHeaderAlignment at *; omega)
  have hfits {maxAddr : ℕ} (h : RwSection payload (kHeaderAlignment * k) maxAddr)
      (hshort : NoneFrom isMagic payload (k + 1) → ¬ Short payload) :
      FitsSection payload (kHeaderAlignment * k) maxAddr ↔ Fits payload := by
    constructor
    · refine fun hsection _ => ⟨hlen, fun hnone => absurd hk.2.1 (hnone k hk.1), fun j hj => ?_⟩
      obtain rfl := hk.eq hj
      refine ⟨hblock, hshort, fun b hb => ?_⟩
      obtain ⟨-, rfl⟩ := h.eq hb
      exact hsection
    · exact fun hall => ((hall hmagic).2.2 k hk).2.2 _ h
  rcases noneFrom_or_isFirst isMagic payload (k + 1) with hnone | ⟨m, hm⟩
  · have hmaxAddr := returns_findMaxAddr_last hblock hnone
    by_cases hshort : Short payload
    · refine iff_of_false (not_sendsRwSection_of_panics sha256 ?_) fun h =>
        ((h hmagic).2.2 k hk).2.1 hnone hshort
      rw [hrun, hmin, pure_bind]
      exact panics_bind (hmaxAddr.panics (not_not.2 hshort)) _
    · have hsection := RwSection.last hk hnone
      rw [sendsRwSection_iff_fitsSection sha256 hmagic hsection hmin (hmaxAddr.eq hshort)]
      exact hfits hsection fun _ => hshort
  · have hsection := RwSection.next hk hm
    rw [sendsRwSection_iff_fitsSection sha256 hmagic hsection hmin (findMaxAddr_next hblock hm)]
    exact hfits hsection fun hnone => absurd hm.2.1 (hnone m hm.1)

/-- A payload of nothing but the magic number. -/
theorem rescue_frames_panic_magic_only :
    (∀ sha256, Panics (fromPayload sha256 magicHeader)) ∧
      ∀ sha256, ¬ SendsRwSection sha256 magicHeader := by
  have hpanics (sha256 : List Byte → List Byte) : Panics (fromPayload sha256 magicHeader) := by
    rw [fromPayload_eq_of_isPrefixOf sha256 (by decide)]
    exact panics_bind (findMinAddr_panics_of_lt (by decide)) _
  exact ⟨hpanics, fun sha256 => not_sendsRwSection_of_panics sha256 (hpanics sha256)⟩

end Rescue

end HostBootstrap

end SecureBoot
