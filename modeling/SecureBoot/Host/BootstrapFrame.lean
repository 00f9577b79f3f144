import SecureBoot.Base.Word
import SecureBoot.Lib.Chunks

/-! Frames of the bootstrap protocols of older chips. A payload is cut into frames of a fixed size;
erased words are skipped, by whole sectors, and only where the chip can follow. Lengths and
positions are of 64 bits and far from overflowing. -/

namespace SecureBoot

open Rust Chunks

namespace HostBootstrap

structure FrameHeader where
  hash : List Byte
  frameNum : Word
  flashOffset : Word
  deriving DecidableEq

structure Frame where
  header : FrameHeader
  data : List Byte
  deriving DecidableEq

abbrev kEof : Word := 0x80000000
abbrev kFlashSectorSize : ℕ := 2048
abbrev kFlashBufferSize : ℕ := 128
abbrev kHashLen : ℕ := 32

/-- `as_bytes`. -/
def Frame.asBytes (frame : Frame) : List Byte :=
  frame.header.hash ++ frame.header.frameNum.toBytes ++ frame.header.flashOffset.toBytes ++
    frame.data

variable (sha256 : List Byte → List Byte)

/-- `Frame::header_hash`. -/
def headerHash (frame : Frame) : List Byte := sha256 (frame.asBytes.drop kHashLen)

/-- `Frame::frame_hash`: zeroes are touched up into ones. -/
def frameHash (frame : Frame) : List Byte :=
  (sha256 frame.asBytes).map fun b => if b = 0 then 1 else b

/-- `|c| c != [0xff; 4]`. -/
def isFilled (c : List Byte) : Bool := c != [0xff, 0xff, 0xff, 0xff]

/-- Where the payload ends without its trailing erased words. -/
def trimmedSize (payload : List Byte) : ℕ :=
  ((rposition isFilled (chunks 4 payload)).getD 0 + 1) * 4

/-- Where a frame goes: erased sectors are skipped from the start, or from an address that is not a
multiple of the chip's buffer. -/
def skipTo (addr nonemptyAddr : ℕ) : ℕ :=
  let skipAddr := nonemptyAddr - nonemptyAddr % kFlashSectorSize
  if skipAddr > addr ∧ (addr = 0 ∨ addr % kFlashBufferSize ≠ 0) then skipAddr else addr

/-- A frame of up to `dataLen` bytes of the payload, before it is hashed. -/
def newFrame {ε : Type} (dataLen base : ℕ) (payload : List Byte) (frameNum : Word) (addr : ℕ) :
    Run ε Frame := do
  let sliceSize := min dataLen (payload.length - addr)
  let part ← slice payload addr (addr + sliceSize)
  pure {
    header := ⟨List.replicate kHashLen 0, frameNum, .ofNat 32 (addr + base)⟩
    data := part ++ List.replicate (dataLen - sliceSize) 0xff }

/-- The rounds of the loop of `Frame::from_payload`, up to a number of them. -/
def frameRounds {ε : Type} (dataLen base : ℕ) (payload : List Byte) (maxAddr : ℕ) :
    ℕ → ℕ → Word → List Frame → Run ε (List Frame)
  | 0, _, _, frames => pure frames
  | n + 1, addr, frameNum, frames =>
    if addr < maxAddr then do
      let rest ← slice payload addr payload.length
      let position ← unwrap ((chunks 4 rest).findIdx? isFilled)
      let addr := skipTo addr (addr + position * 4)
      let frame ← newFrame dataLen base payload frameNum addr
      let next ← checkedAdd frameNum 1
      frameRounds dataLen base payload maxAddr n (addr + dataLen) next (frames ++ [frame])
    else pure frames

/-- The end of `Frame::from_payload`: the last frame is marked, and all of them are hashed. -/
def finishFrames (frames : List Frame) : List Frame :=
  let marked := frames.modify (frames.length - 1) fun f =>
    { f with header.frameNum := f.header.frameNum ||| kEof }
  marked.map fun f => { f with header.hash := headerHash sha256 f }

/-- The frames of a payload from an address on. -/
def makeFrames {ε : Type} (dataLen base : ℕ) (payload : List Byte) (maxAddr first : ℕ) :
    Run ε (List Frame) := do
  let frames ← frameRounds dataLen base payload maxAddr maxAddr first 0 []
  pure (finishFrames sha256 frames)

/-! ### Where frames start -/

section

variable {dataLen base maxAddr addr : ℕ} {payload : List Byte} {l : List ℕ}

/-- A word of the payload that is not erased. The last one may be short. -/
def Filled (payload : List Byte) (k : ℕ) : Prop := Has 4 isFilled payload k

instance (payload : List Byte) (k : ℕ) : Decidable (Filled payload k) :=
  inferInstanceAs (Decidable (Has _ _ _ _))

/-- The addresses of the frames from an address on: the next filled word decides about each. -/
inductive Starts (dataLen : ℕ) (payload : List Byte) (maxAddr : ℕ) : ℕ → List ℕ → Prop
  | done {addr : ℕ} (h : maxAddr ≤ addr) : Starts dataLen payload maxAddr addr []
  | next {addr k : ℕ} {l : List ℕ} (h : addr < maxAddr) (hle : addr ≤ 4 * k)
      (hk : Filled payload k) (hbefore : ∀ j < k, addr ≤ 4 * j → ¬ Filled payload j)
      (hl : Starts dataLen payload maxAddr (skipTo addr (4 * k) + dataLen) l) :
      Starts dataLen payload maxAddr addr (skipTo addr (4 * k) :: l)

theorem le_skipTo (addr a : ℕ) : addr ≤ skipTo addr a := by
  simp only [skipTo]
  split_ifs <;> omega

theorem skipTo_le {a : ℕ} (h : addr ≤ a) : skipTo addr a ≤ a := by
  simp only [skipTo]
  split_ifs <;> omega

theorem dvd_skipTo (a : ℕ) (h : 4 ∣ addr) : 4 ∣ skipTo addr a := by
  simp only [skipTo, kFlashSectorSize]
  split_ifs <;> omega

theorem Starts.le (h : Starts dataLen payload maxAddr addr l) : ∀ a ∈ l, addr ≤ a := by
  induction h with
  | done => simp
  | @next addr k l _ _ _ _ _ ih =>
    have hskip := le_skipTo addr (4 * k)
    simp only [List.forall_mem_cons]
    exact ⟨hskip, fun a ha => by have := ih a ha; omega⟩

/-- Frames do not overlap. -/
theorem Starts.pairwise (h : Starts dataLen payload maxAddr addr l) :
    l.Pairwise (fun a b => a + dataLen ≤ b) := by
  induction h with
  | done => simp
  | next _ _ _ _ hl ih => exact List.pairwise_cons.2 ⟨hl.le, ih⟩

/-- Every filled word is in a frame. -/
theorem Starts.covers (h : Starts dataLen payload maxAddr addr l) (hdata : 4 ∣ dataLen)
    (haddr : 4 ∣ addr) {k : ℕ} (hk : Filled payload k) (hle : addr ≤ 4 * k)
    (hmax : 4 * k < maxAddr) : ∃ a ∈ l, a ≤ 4 * k ∧ 4 * k + 4 ≤ a + dataLen := by
  induction h with
  | done => omega
  | @next addr m l _ hm _ hbefore _ ih =>
    have hskip : 4 ∣ skipTo addr (4 * m) := dvd_skipTo _ haddr
    have hfirst : m ≤ k := not_lt.1 fun hlt => hbefore k hlt hle hk
    have hskiple := skipTo_le hm
    by_cases hin : 4 * k < skipTo addr (4 * m) + dataLen
    · exact ⟨_, List.mem_cons_self, by omega, by omega⟩
    · obtain ⟨a, ha, hcovers⟩ := ih (hskip.add hdata) (not_lt.1 hin)
      exact ⟨a, List.mem_cons_of_mem _ ha, hcovers⟩

/-- There are frames up to the last filled word. -/
theorem exists_starts {last : ℕ} (hpos : 0 < dataLen) (hdata : 4 ∣ dataLen)
    (hlast : Filled payload last) (haddr : 4 ∣ addr) :
    ∃ l, Starts dataLen payload (4 * (last + 1)) addr l := by
  induction hn : 4 * (last + 1) - addr using Nat.strong_induction_on generalizing addr with
  | _ n ih =>
    by_cases hmax : 4 * (last + 1) ≤ addr
    · exact ⟨[], .done hmax⟩
    obtain ⟨j, rfl⟩ := haddr
    have hex : ∃ k, 4 * j ≤ 4 * k ∧ Filled payload k := ⟨last, by omega, hlast⟩
    have hfind := Nat.find_spec hex
    have hbefore : ∀ i < Nat.find hex, 4 * j ≤ 4 * i → ¬ Filled payload i :=
      fun i hi hle hfilled => Nat.find_min hex hi ⟨hle, hfilled⟩
    have hskip := le_skipTo (4 * j) (4 * Nat.find hex)
    have hdvd := dvd_skipTo (4 * Nat.find hex) (Nat.dvd_mul_right 4 j)
    obtain ⟨l, hl⟩ := ih _ (by omega) (hdvd.add hdata) rfl
    exact ⟨_, .next (not_le.1 hmax) hfind.1 hfind.2 hbefore hl⟩

/-- No frame starts behind the last filled word. -/
theorem Starts.lt {last : ℕ} (h : Starts dataLen payload (4 * (last + 1)) addr l)
    (hlast : Filled payload last) (hdata : 4 ∣ dataLen) (haddr : 4 ∣ addr) :
    ∀ a ∈ l, a ≤ 4 * last := by
  induction h with
  | done => simp
  | @next addr m l hlt hm _ hbefore _ ih =>
    have hfirst : m ≤ last := not_lt.1 fun hlt' => hbefore last hlt' (by omega) hlast
    have hskiple := skipTo_le hm
    have hskip : 4 ∣ skipTo addr (4 * m) := dvd_skipTo _ haddr
    exact List.forall_mem_cons.2 ⟨by omega, ih (hskip.add hdata)⟩

/-! ### What the loop returns -/

/-- A slice of the payload, padded with ones. -/
def window (dataLen : ℕ) (payload : List Byte) (addr : ℕ) : List Byte :=
  (List.range dataLen).map fun i => payload.getD (addr + i) 0xff

/-- The frame for an address, before it is hashed. -/
def frameAt (dataLen base : ℕ) (payload : List Byte) (num addr : ℕ) : Frame where
  header := ⟨List.replicate kHashLen 0, .ofNat 32 num, .ofNat 32 (addr + base)⟩
  data := window dataLen payload addr

@[simp] theorem length_window (dataLen : ℕ) (payload : List Byte) (addr : ℕ) :
    (window dataLen payload addr).length = dataLen := by
  simp [window]

theorem window_eq (dataLen : ℕ) (payload : List Byte) (addr : ℕ) :
    (payload.drop addr).take (min dataLen (payload.length - addr)) ++
      List.replicate (dataLen - min dataLen (payload.length - addr)) 0xff =
        window dataLen payload addr := by
  refine List.ext_getElem ?_ fun i hi hi' => ?_
  · simp
  · rw [length_window] at hi'
    simp only [window, List.getElem_map, List.getElem_range]
    by_cases hlt : addr + i < payload.length
    · rw [List.getElem_append_left (by simp; omega), List.getD_eq_getElem _ _ hlt]
      simp
    · rw [List.getElem_append_right (by simp; omega), List.getD_eq_default _ _ (not_lt.1 hlt)]
      simp

theorem newFrame_eq {ε : Type} {num : ℕ} (h : addr ≤ payload.length) :
    (newFrame dataLen base payload (.ofNat 32 num) addr : Run ε Frame) =
      pure (frameAt dataLen base payload num addr) := by
  have hlast : addr + min dataLen (payload.length - addr) ≤ payload.length := by omega
  rw [newFrame, slice, getRange_eq (Nat.le_add_right _ _) hlast, Nat.add_sub_cancel_left]
  simp only [pure_bind, window_eq, frameAt]

theorem findIdx?_filled {j k : ℕ} (hle : j ≤ k) (hk : Filled payload k)
    (hbefore : ∀ i < k, 4 * j ≤ 4 * i → ¬ Filled payload i) :
    (chunks 4 (payload.drop (4 * j))).findIdx? isFilled = some (k - j) := by
  obtain ⟨i, rfl⟩ := Nat.exists_eq_add_of_le hle
  rw [Nat.add_sub_cancel_left, findIdx?_chunks_eq_some_iff (by decide)]
  refine ⟨has_drop.2 hk, fun m hm hhas => ?_⟩
  exact hbefore (j + m) (by omega) (by omega) (has_drop.1 hhas)

/-- The loop makes a frame for each start, unless their numbers overflow. -/
theorem returns_frameRounds {ε : Type} (base : ℕ) (h : Starts dataLen payload maxAddr addr l)
    (hpos : 0 < dataLen) (hdata : 4 ∣ dataLen) (haddr : 4 ∣ addr) {n num : ℕ}
    (hn : maxAddr - addr ≤ n) (hnum : num < 2 ^ 32) (frames : List Frame) :
    Returns (num + l.length < 2 ^ 32)
      (frameRounds dataLen base payload maxAddr n addr (.ofNat 32 num) frames :
        Run ε (List Frame))
      (frames ++ l.mapIdx fun i a => frameAt dataLen base payload (num + i) a) := by
  induction h generalizing n num frames with
  | @done addr hmax =>
    have hdone : (frameRounds dataLen base payload maxAddr n addr (.ofNat 32 num) frames :
        Run ε (List Frame)) = pure frames := by
      cases n with
      | zero => rfl
      | succ n => exact if_neg (not_lt.2 hmax)
    simpa [hdone] using (returns_pure frames).congr (iff_of_true trivial hnum)
  | @next addr k l hlt hle hk hbefore hl ih =>
    obtain ⟨j, rfl⟩ := haddr
    obtain ⟨n, rfl⟩ := Nat.exists_eq_succ_of_ne_zero (show n ≠ 0 by omega)
    have hin : 4 * k < payload.length := hk.1
    have hskip := le_skipTo (4 * j) (4 * k)
    have hskiple := skipTo_le hle
    have hrest : (slice payload (4 * j) payload.length : Run ε (List Byte)) =
        pure (payload.drop (4 * j)) := (returns_slice_length payload (4 * j)).eq (by omega)
    have hnonempty : 4 * j + (k - j) * 4 = 4 * k := by omega
    have hadd : Returns (num + 1 < 2 ^ 32) (checkedAdd (BitVec.ofNat 32 num) 1 : Run ε Word) _ :=
      (returns_checkedAdd _ _).congr (by rw [BitVec.toNat_ofNat, Nat.mod_eq_of_lt hnum]; rfl)
    have hnext : BitVec.ofNat 32 num + 1 = BitVec.ofNat 32 (num + 1) := (BitVec.ofNat_add ..).symm
    rw [frameRounds, if_pos hlt, hrest, pure_bind, findIdx?_filled (by omega) hk hbefore]
    change Returns _ (newFrame dataLen base payload _ (skipTo _ (4 * j + (k - j) * 4)) >>= _) _
    rw [hnonempty, newFrame_eq (by omega), pure_bind]
    have hdvd := (dvd_skipTo (4 * k) (Nat.dvd_mul_right 4 j)).add hdata
    have hvalue : frames ++ [frameAt dataLen base payload num (skipTo (4 * j) (4 * k))] ++
        l.mapIdx (fun i a => frameAt dataLen base payload (num + 1 + i) a) =
        frames ++ (skipTo (4 * j) (4 * k) :: l).mapIdx
          fun i a => frameAt dataLen base payload (num + i) a := by
      simp [List.mapIdx_cons, Nat.add_assoc, Nat.add_comm 1]
    have hround (hsum : num + 1 < 2 ^ 32) := ih hdvd (n := n) (by omega) hsum
      (frames ++ [frameAt dataLen base payload num (skipTo (4 * j) (4 * k))])
    rw [← hnext, hvalue] at hround
    refine (Returns.bind (f := fun next => frameRounds dataLen base payload maxAddr n _ next _)
      hadd hround).congr ?_
    rw [List.length_cons]
    omega

/-- A frame as it is sent: marked if it is the last of `count` frames, and hashed. -/
def sentFrame (dataLen base : ℕ) (payload : List Byte) (count num addr : ℕ) : Frame :=
  let frame := frameAt dataLen base payload num addr
  let frame := { frame with header.frameNum :=
    if num + 1 = count then frame.header.frameNum ||| kEof else frame.header.frameNum }
  { frame with header.hash := headerHash sha256 frame }

theorem length_data_sentFrame (count num a : ℕ) :
    (sentFrame sha256 dataLen base payload count num a).data.length = dataLen :=
  length_window dataLen payload a

theorem finishFrames_eq (l : List ℕ) :
    finishFrames sha256 (l.mapIdx fun i a => frameAt dataLen base payload i a) =
      l.mapIdx fun i a => sentFrame sha256 dataLen base payload l.length i a := by
  refine List.ext_getElem (by simp [finishFrames]) fun i hi hi' => ?_
  simp only [List.length_mapIdx] at hi'
  simp only [finishFrames, List.getElem_map, List.getElem_modify, List.length_mapIdx,
    List.getElem_mapIdx, sentFrame]
  by_cases hlast : i + 1 = l.length
  · rw [if_pos (by omega), if_pos hlast]
  · rw [if_neg (by omega), if_neg hlast]

/-! ### Frames that make up a section -/

/-- The address in flash that a frame names. -/
def Frame.offset (frame : Frame) : ℕ := frame.header.flashOffset.toNat

/-- Whether byte `x` of a payload belongs into a frame. -/
def Frame.Contains (dataLen base : ℕ) (frame : Frame) (x : ℕ) : Prop :=
  frame.offset ≤ x + base ∧ x + base < frame.offset + dataLen

/-- The frames carry a section of a payload from an address on, and nothing else. They do not
overlap, every byte of a word that is not erased is in one of them, and they are numbered from zero
on, with the mark of the end on the last one. -/
structure FramesOf (dataLen base first : ℕ) (part : List Byte) (frames : List Frame) : Prop where
  data : ∀ frame ∈ frames, ∃ a, first ≤ a ∧ a < part.length ∧ frame.offset = a + base ∧
    frame.data = window dataLen part a
  increasing : frames.Pairwise fun f g => f.offset + dataLen ≤ g.offset
  covered : ∀ x < part.length, first ≤ x → Filled part (x / 4) →
    ∃! i : Fin frames.length, frames[i].Contains dataLen base x
  length : frames.length ≤ 2 ^ 31
  numbered : ∀ (i : ℕ) (hi : i < frames.length), frames[i].header.frameNum.toNat =
    i + if i + 1 = frames.length then kEof.toNat else 0

variable {part : List Byte} {first last : ℕ}

/-- Only so many frames fit below an address. -/
theorem length_mul_le {b m : ℕ} (h : l.Pairwise fun a b => a + dataLen ≤ b)
    (hl : ∀ a ∈ l, b ≤ a ∧ a ≤ m) (hb : b ≤ m + dataLen) :
    b + l.length * dataLen ≤ m + dataLen := by
  induction l generalizing b with
  | nil => simpa using hb
  | cons a l ih =>
    obtain ⟨hgap, hpairwise⟩ := List.pairwise_cons.1 h
    obtain ⟨ha, htail⟩ := List.forall_mem_cons.1 hl
    have hrest := ih hpairwise (fun c hc => ⟨hgap c hc, (htail c hc).2⟩) (by omega)
    rw [List.length_cons, Nat.succ_mul]
    omega

theorem sentFrame_offset {count num a : ℕ} (h : a + base < 2 ^ 32) :
    (sentFrame sha256 dataLen base payload count num a).offset = a + base :=
  Nat.mod_eq_of_lt h

theorem sentFrame_frameNum {count num a : ℕ} (h : num < 2 ^ 31) :
    (sentFrame sha256 dataLen base payload count num a).header.frameNum.toNat =
      num + if num + 1 = count then kEof.toNat else 0 := by
  have hnum : (BitVec.ofNat 32 num).toNat = num := Nat.mod_eq_of_lt (by omega)
  have hor : num ||| 2 ^ 31 = num + 2 ^ 31 := by
    have hadd := Nat.two_pow_add_eq_or_of_lt h 1
    rw [Nat.mul_one] at hadd
    rw [Nat.or_comm, ← hadd, Nat.add_comm]
  simp only [sentFrame, frameAt]
  split_ifs with hlast
  · rw [BitVec.toNat_or, hnum]
    exact hor
  · exact hnum

/-- Two frames in order do not contain the same byte. -/
theorem eq_of_contains {frames : List Frame} {x : ℕ}
    (h : frames.Pairwise fun f g => f.offset + dataLen ≤ g.offset) {i j : Fin frames.length}
    (hi : frames[i].Contains dataLen base x) (hj : frames[j].Contains dataLen base x) : i = j := by
  rw [List.pairwise_iff_getElem] at h
  unfold Frame.Contains at hi hj
  rcases Nat.lt_trichotomy i j with hlt | heq | hlt
  · have hgap := h i j i.isLt j.isLt hlt
    simp only [Fin.getElem_fin] at hi hj
    omega
  · exact Fin.ext heq
  · have hgap := h j i j.isLt i.isLt hlt
    simp only [Fin.getElem_fin] at hi hj
    omega

/-- Frames whose addresses fit into their headers carry a section, if they stay inside it. -/
theorem framesOf_of_fits (h : Starts dataLen payload (4 * (last + 1)) first l)
    (hdata : 4 ∣ dataLen) (hpos : 2 ≤ dataLen) (hfirst : 4 ∣ first)
    (hpart : ∀ k, Filled part k ↔ Filled payload k ∧ 4 * k < part.length)
    (hlast : Filled part last) (hmax : ∀ k, Filled part k → k ≤ last)
    (hfits : ∀ a ∈ l, a + base < 2 ^ 32)
    (hin : ∀ a ∈ l, window dataLen payload a = window dataLen part a) :
    FramesOf dataLen base first part
      (l.mapIdx fun i a => sentFrame sha256 dataLen base payload l.length i a) := by
  have hlt := h.lt ((hpart last).1 hlast).1 hdata hfirst
  have hincreasing : (l.mapIdx fun i a =>
      sentFrame sha256 dataLen base payload l.length i a).Pairwise
        fun f g => f.offset + dataLen ≤ g.offset := by
    have hpairwise := h.pairwise
    rw [List.pairwise_iff_getElem] at hpairwise ⊢
    intro i j hi hj hij
    simp only [List.length_mapIdx] at hi hj
    simp only [List.getElem_mapIdx]
    rw [sentFrame_offset _ (hfits _ (List.getElem_mem hi)),
      sentFrame_offset _ (hfits _ (List.getElem_mem hj))]
    have hgap := hpairwise i j hi hj hij
    omega
  have hcount : l.length ≤ 2 ^ 31 := by
    have hfew := length_mul_le h.pairwise (b := 0) (m := 2 ^ 32 - 1)
      (fun a ha => ⟨Nat.zero_le a, by have := hfits a ha; omega⟩) (Nat.zero_le _)
    by_contra hmany
    have hmul := Nat.mul_le_mul_right dataLen (not_le.1 hmany)
    rw [Nat.succ_mul] at hmul
    omega
  refine ⟨?_, hincreasing, ?_, by simpa using hcount, ?_⟩
  · intro frame hframe
    obtain ⟨i, hi, rfl⟩ := List.mem_mapIdx.1 hframe
    have ha := List.getElem_mem hi
    exact ⟨l[i], h.le _ ha, (hlt _ ha).trans_lt hlast.1, sentFrame_offset _ (hfits _ ha),
      hin _ ha⟩
  · intro x hx hfirstx hfilled
    have hword := ((hpart _).1 hfilled).1
    obtain ⟨a, ha, hle, hend⟩ := h.covers hdata hfirst hword (by omega)
      (by have := hmax _ hfilled; omega)
    obtain ⟨i, hi, rfl⟩ := List.getElem_of_mem ha
    have hcontains : (sentFrame sha256 dataLen base payload l.length i l[i]).Contains
        dataLen base x := by
      rw [Frame.Contains, sentFrame_offset _ (hfits _ ha)]
      omega
    refine ⟨⟨i, by simpa using hi⟩, by simpa using hcontains, fun j hj => ?_⟩
    exact eq_of_contains hincreasing hj (by simpa using hcontains)
  · intro i hi
    simp only [List.length_mapIdx] at hi
    simp only [List.getElem_mapIdx, List.length_mapIdx]
    exact sentFrame_frameNum _ (by omega)

/-- Frames that carry a section have addresses that fit into their headers. -/
theorem fits_of_framesOf (h : Starts dataLen payload (4 * (last + 1)) first l)
    (hdata : 4 ∣ dataLen) (hfirst : 4 ∣ first) (hbase : dataLen ≤ base + first)
    (hpart : ∀ k, Filled part k ↔ Filled payload k ∧ 4 * k < part.length)
    (hlast : Filled part last) (hle : first ≤ 4 * last)
    (hframes : FramesOf dataLen base first part
      (l.mapIdx fun i a => sentFrame sha256 dataLen base payload l.length i a)) :
    ∀ a ∈ l, a + base < 2 ^ 32 := by
  intro a ha
  by_contra hge
  have hlt := h.lt ((hpart last).1 hlast).1 hdata hfirst a ha
  -- the last word is in a frame, and the address of a frame is below 2 ^ 32
  obtain ⟨i, ⟨-, hcontains⟩, -⟩ := hframes.covered (4 * last) hlast.1 hle
    (by rwa [Nat.mul_div_cancel_left _ (by decide)])
  have hoffset := Nat.lt_of_lt_of_le hcontains (Nat.add_le_add_right (BitVec.isLt _).le dataLen)
  obtain ⟨j, hj, rfl⟩ := List.getElem_of_mem ha
  obtain ⟨a, hfirsta, -, ha, -⟩ := hframes.data _ (List.mem_mapIdx.2 ⟨j, hj, rfl⟩)
  have hmod : (l[j] + base) % 2 ^ 32 = a + base := ha
  have hwrap := Nat.mod_le (l[j] + base - 2 ^ 32) (2 ^ 32)
  rw [← Nat.mod_eq_sub_mod (not_lt.1 hge), hmod] at hwrap
  omega

/-- And they stay inside the section. -/
theorem windows_of_framesOf (hfits : ∀ a ∈ l, a + base < 2 ^ 32)
    (hframes : FramesOf dataLen base first part
      (l.mapIdx fun i a => sentFrame sha256 dataLen base payload l.length i a)) :
    ∀ a ∈ l, window dataLen payload a = window dataLen part a := by
  intro a ha
  obtain ⟨j, hj, rfl⟩ := List.getElem_of_mem ha
  obtain ⟨a, -, -, hoffset, hdata⟩ := hframes.data _ (List.mem_mapIdx.2 ⟨j, hj, rfl⟩)
  rw [sentFrame_offset _ (hfits _ (List.getElem_mem hj))] at hoffset
  obtain rfl : l[j] = a := Nat.add_right_cancel hoffset
  exact hdata

theorem returns_makeFrames {ε : Type} (base : ℕ) (h : Starts dataLen payload maxAddr first l)
    (hdata : 4 ∣ dataLen) (hpos : 0 < dataLen) (hfirst : 4 ∣ first) :
    Returns (l.length < 2 ^ 32)
      (makeFrames sha256 dataLen base payload maxAddr first : Run ε (List Frame))
      (l.mapIdx fun i a => sentFrame sha256 dataLen base payload l.length i a) := by
  have hrounds := returns_frameRounds (ε := ε) base h hpos hdata hfirst
    (Nat.sub_le maxAddr first) (Nat.two_pow_pos 32) []
  simp only [List.nil_append, Nat.zero_add] at hrounds
  have hfinish := hrounds.bind_pure (finishFrames sha256)
  rwa [finishFrames_eq] at hfinish

/-- The frames of a payload carry a section of it if and only if their addresses fit into their
headers and they stay inside the section. -/
theorem makeFrames_framesOf_iff {ε : Type} (base : ℕ)
    (h : Starts dataLen payload (4 * (last + 1)) first l) (hdata : 4 ∣ dataLen)
    (hpos : 2 ≤ dataLen) (hfirst : 4 ∣ first)
    (hbase : dataLen ≤ base + first)
    (hpart : ∀ k, Filled part k ↔ Filled payload k ∧ 4 * k < part.length)
    (hlast : Filled part last) (hmax : ∀ k, Filled part k → k ≤ last) (hle : first ≤ 4 * last) :
    (∃ frames, (makeFrames sha256 dataLen base payload (4 * (last + 1)) first :
        Run ε (List Frame)) = .ok frames ∧ FramesOf dataLen base first part frames) ↔
      (∀ a ∈ l, a + base < 2 ^ 32) ∧
        ∀ a ∈ l, window dataLen payload a = window dataLen part a := by
  have hreturns := returns_makeFrames sha256 (ε := ε) base h hdata (by omega) hfirst
  constructor
  · rintro ⟨frames, hok, hframes⟩
    obtain ⟨-, rfl⟩ := hreturns.ok_iff.1 hok
    have hfits := fits_of_framesOf sha256 h hdata hfirst hbase hpart hlast hle hframes
    exact ⟨hfits, windows_of_framesOf sha256 hfits hframes⟩
  · rintro ⟨hfits, hin⟩
    have hframes := framesOf_of_fits sha256 h hdata hpos hfirst hpart hlast hmax hfits hin
    have hcount := hframes.length
    rw [List.length_mapIdx] at hcount
    exact ⟨_, hreturns.eq (by omega), hframes⟩

/-- A payload with a filled word ends with the last one. -/
theorem exists_last (h : ∃ k, Filled payload k) : ∃ last, Filled payload last ∧
    (∀ k, Filled payload k → k ≤ last) ∧ trimmedSize payload = 4 * (last + 1) := by
  cases hlast : rposition isFilled (chunks 4 payload) with
  | none =>
    obtain ⟨k, hk⟩ := h
    exact absurd hk ((rposition_chunks_eq_none_iff (by decide)).1 hlast k)
  | some last =>
    obtain ⟨hfilled, hafter⟩ := of_rposition_chunks_eq_some (by decide) hlast
    refine ⟨last, hfilled, fun k hk => not_lt.1 fun hlt => hafter k hlt hk, ?_⟩
    rw [trimmedSize, hlast, Option.getD_some, Nat.mul_comm]

/-! ### Sections -/

/-- The words of a section are words of the payload. -/
theorem filled_take_iff {e k : ℕ} (he : 4 ∣ e ∨ payload.length ≤ e) :
    Filled (payload.take e) k ↔ Filled payload k ∧ 4 * k < (payload.take e).length := by
  rcases he with ⟨m, rfl⟩ | hle
  · have hword (hk : 4 * k < 4 * m) : chunk 4 (payload.take (4 * m)) k = chunk 4 payload k := by
      simp only [chunk, List.drop_take, List.take_take]
      rw [Nat.min_eq_left (by omega)]
    simp only [Filled, Has, List.length_take]
    constructor
    · rintro ⟨hk, hfilled⟩
      rw [hword (by omega)] at hfilled
      exact ⟨⟨by omega, hfilled⟩, hk⟩
    · rintro ⟨⟨-, hfilled⟩, hk⟩
      rw [hword (by omega)]
      exact ⟨hk, hfilled⟩
  · rw [List.take_of_length_le hle]
    exact (and_iff_left_of_imp And.left).symm

/-- A frame stays inside a section that does not end before an erased byte. -/
theorem window_take_iff {a e : ℕ} (ha : a ≤ e)
    (he : payload.length ≤ e ∨ payload.getD e 0xff ≠ 0xff) :
    window dataLen payload a = window dataLen (payload.take e) a ↔
      a + dataLen ≤ e ∨ payload.length ≤ e := by
  have hget (x : ℕ) : (payload.take e).getD x 0xff =
      if x < e then payload.getD x 0xff else 0xff := by
    simp only [List.getD_eq_getElem?_getD, List.getElem?_take]
    split_ifs <;> rfl
  simp only [window, List.map_inj_left, List.mem_range, hget]
  constructor
  · intro hbytes
    by_contra hout
    rw [not_or] at hout
    have hbyte := hbytes (e - a) (by omega)
    rw [Nat.add_sub_cancel' ha, if_neg (Nat.lt_irrefl e)] at hbyte
    exact (he.resolve_left hout.2) hbyte
  · intro hin i hi
    split_ifs with hlt
    · rfl
    · exact List.getD_eq_default _ _ (by omega)

end

end HostBootstrap

end SecureBoot
