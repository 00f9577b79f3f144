import SecureBoot.Base.Word
import SecureBoot.Lib.Rust
import SecureBoot.Lib.Segments

/-! The assembler of images: files are read into a buffer of the declared size, each behind the one
before it or at an offset of its own, and a mirrored image repeats its first half. -/

namespace SecureBoot

open Rust Segments

namespace ImageAssembler

variable {κ : Type}

inductive ImageError
  | incompleteRead (expected actual : ℕ)
  | parse
  deriving DecidableEq, Repr

/-- The errors of `assemble`: those of the file system, and its own. -/
inductive AssembleError (κ : Type)
  | io (e : κ)
  | image (e : ImageError)
  deriving DecidableEq, Repr

inductive ImageChunk
  | concat (path : String)
  | offset (path : String) (offset : ℕ)
  deriving DecidableEq, Repr

end ImageAssembler

open ImageAssembler

structure ImageAssembler where
  size : ℕ
  mirrored : Bool
  chunks : List ImageChunk

namespace ImageAssembler

/-- A file that was opened: the length that its metadata states, and the bytes that one read
stores in a buffer of a length. -/
structure OpenFile where
  len : ℕ
  read : ℕ → List Byte
  length_read_le : ∀ n, (read n).length ≤ n

/-- `File::open`. -/
abbrev FileSystem (κ : Type) := String → Except κ OpenFile

/-- A regular file, of which a read stores as much as the buffer holds. -/
def OpenFile.regular (contents : List Byte) : OpenFile where
  len := contents.length
  read n := contents.take n
  length_read_le n := List.length_take_le n contents

/-! ### The code -/

/-- The capacity of a vector is at most `isize::MAX`. -/
abbrev kIsizeMax : ℕ := 2 ^ 63 - 1

/-- `vec![value; n]`. -/
def vec (value : Byte) (n : ℕ) : Run (AssembleError κ) (List Byte) :=
  if n ≤ kIsizeMax then pure (List.replicate n value) else stop .arithmetic

/-- `v.extend_from_within(..n)`. -/
def extendFromWithin (v : List Byte) (n : ℕ) : Run (AssembleError κ) (List Byte) := do
  let part ← slice v 0 n
  if v.length + n ≤ kIsizeMax then pure (v ++ part) else stop .arithmetic

/-- `read`: the buffer afterwards, and how much of it was read. -/
def read (fs : FileSystem κ) (path : String) (buf : List Byte) :
    Run (AssembleError κ) (List Byte × ℕ) :=
  match fs path with
  | .error e => fail (.io e)
  | .ok file =>
    let bytes := file.read buf.length
    let n := bytes.length
    if file.len = n then pure (bytes ++ buf.drop n, n)
    else fail (.image (.incompleteRead file.len n))

/-- `read(path, &mut image[start..])`. -/
def readAt (fs : FileSystem κ) (image : List Byte) (path : String) (start : ℕ) :
    Run (AssembleError κ) (List Byte × ℕ) := do
  let rest ← slice image start image.length
  let (rest, n) ← read fs path rest
  pure (image.take start ++ rest, n)

/-- A round of the loop, on the image and the position. -/
def addChunk (fs : FileSystem κ) (state : List Byte × ℕ) :
    ImageChunk → Run (AssembleError κ) (List Byte × ℕ)
  | .concat path => do
    let (image, n) ← readAt fs state.1 path state.2
    pure (image, state.2 + n)
  | .offset path offset => do
    let (image, n) ← readAt fs state.1 path offset
    pure (image, offset + n)

/-- The size of the buffer that the chunks are read into. -/
def bufferSize (a : ImageAssembler) : ℕ := if a.mirrored then a.size / 2 else a.size

def assemble (fs : FileSystem κ) (a : ImageAssembler) : Run (AssembleError κ) (List Byte) := do
  let image ← vec 0xff a.bufferSize
  let (image, _) ← a.chunks.foldlM (addChunk fs) (image, 0)
  if a.mirrored then extendFromWithin image a.bufferSize else pure image

/-! ### The image that is asked for -/

def ImageChunk.path (chunk : ImageChunk) : String :=
  match chunk with
  | .concat path => path
  | .offset path _ => path

/-- Where a chunk starts when the one before it ends at `pos`. -/
def ImageChunk.start (pos : ℕ) (chunk : ImageChunk) : ℕ :=
  match chunk with
  | .concat _ => pos
  | .offset _ first => first

/-- A file is read whole into a buffer of length `n`. -/
def Reads (fs : FileSystem κ) (path : String) (n : ℕ) (bytes : List Byte) : Prop :=
  ∃ file, fs path = .ok file ∧ file.read n = bytes ∧ file.len = bytes.length

/-- The chunks behind position `pos` are all read, and fit into a buffer of length `n`, where they
are these segments and end at `last`. -/
inductive Placed (fs : FileSystem κ) (n : ℕ) :
    ℕ → List ImageChunk → List (Segment Byte) → ℕ → Prop
  | nil (pos : ℕ) : Placed fs n pos [] [] pos
  | cons {pos last : ℕ} {chunk : ImageChunk} {chunks : List ImageChunk} {bytes : List Byte}
      {segs : List (Segment Byte)} (fits : chunk.start pos + bytes.length ≤ n)
      (reads : Reads fs chunk.path (n - chunk.start pos) bytes)
      (rest : Placed fs n (chunk.start pos + bytes.length) chunks segs last) :
      Placed fs n pos (chunk :: chunks) (⟨chunk.start pos, bytes⟩ :: segs) last

/-- An image of the declared size, whose bytes are those of the last segment that covers them and
ones elsewhere. -/
structure IsImage (a : ImageAssembler) (segs : List (Segment Byte)) (image : List Byte) : Prop where
  length : image.length = a.size
  laidOver : ∃ half, LaidOver (List.replicate a.bufferSize 0xff) segs half ∧
    image = if a.mirrored then half ++ half else half

/-- The image is built when all chunks are placed, and it is an error when one is not. -/
structure BuildsOrFails (fs : FileSystem κ) (a : ImageAssembler) : Prop where
  builds : ∀ segs last, Placed fs a.bufferSize 0 a.chunks segs last →
    ∃ image, assemble fs a = pure image ∧ IsImage a segs image
  fails : (¬ ∃ segs last, Placed fs a.bufferSize 0 a.chunks segs last) →
    ∃ e, assemble fs a = fail e
  not_panics : ¬ Panics (assemble fs a)

/-- A chunk with an offset behind the end of the buffer comes behind chunks that are placed. -/
def Overshoots (fs : FileSystem κ) (n pos : ℕ) (chunks : List ImageChunk) : Prop :=
  ∃ before path offset after segs last, chunks = before ++ .offset path offset :: after ∧
    Placed fs n pos before segs last ∧ n < offset

/-- The buffer can be allocated, no chunk overshoots it, and an image of chunks that all fit can be
mirrored. -/
structure Buildable (fs : FileSystem κ) (a : ImageAssembler) : Prop where
  alloc : a.bufferSize ≤ kIsizeMax
  reached : ¬ Overshoots fs a.bufferSize 0 a.chunks
  mirror : ∀ segs last, Placed fs a.bufferSize 0 a.chunks segs last → a.mirrored = true →
    a.size % 2 = 0 ∧ a.size ≤ kIsizeMax

/-! ### One chunk -/

variable {fs : FileSystem κ} {n pos start last : ℕ} {path : String} {image bytes : List Byte}
  {chunk : ImageChunk} {chunks : List ImageChunk} {segs : List (Segment Byte)}

theorem addChunk_eq (fs : FileSystem κ) (image : List Byte) (pos : ℕ) (chunk : ImageChunk) :
    addChunk fs (image, pos) chunk =
      readAt fs image chunk.path (chunk.start pos) >>= fun (image, n) =>
        pure (image, chunk.start pos + n) := by
  cases chunk <;> rfl

theorem panics_readAt (h : image.length < start) : Panics (readAt fs image path start) :=
  panics_bind ((returns_slice_length image start).panics (Nat.not_le.2 h)) _

theorem readAt_eq (h : start ≤ image.length) :
    readAt fs image path start =
      read fs path (image.drop start) >>= fun (rest, n) => pure (image.take start ++ rest, n) := by
  rw [readAt, (returns_slice_length image start).eq h, pure_bind]

theorem read_of_reads {buf : List Byte} (h : Reads fs path buf.length bytes) :
    read fs path buf = pure (bytes ++ buf.drop bytes.length, bytes.length) := by
  obtain ⟨file, hfile, rfl, hlen⟩ := h
  simp only [read, hfile, hlen, if_true]

theorem read_of_not_reads {buf : List Byte} (h : ∀ bytes, ¬ Reads fs path buf.length bytes) :
    ∃ e, read fs path buf = fail e := by
  cases hfile : fs path with
  | error e => exact ⟨.io e, by simp only [read, hfile]⟩
  | ok file =>
    have hlen : file.len ≠ (file.read buf.length).length := fun hlen => h _ ⟨file, hfile, rfl, hlen⟩
    exact ⟨_, by simp only [read, hfile, if_neg hlen]; rfl⟩

/-- What is read fits into the rest of the buffer. -/
theorem Reads.length_le (h : Reads fs path n bytes) : bytes.length ≤ n := by
  obtain ⟨file, -, rfl, -⟩ := h
  exact file.length_read_le n

theorem readAt_of_reads (h : start ≤ image.length)
    (hreads : Reads fs path (image.length - start) bytes) :
    readAt fs image path start = pure (overwrite image ⟨start, bytes⟩, bytes.length) := by
  rw [← List.length_drop] at hreads
  rw [readAt_eq h, read_of_reads hreads, pure_bind, List.drop_drop]
  simp only [overwrite, List.append_assoc]

theorem readAt_of_not_reads (h : start ≤ image.length)
    (hreads : ∀ bytes, ¬ Reads fs path (image.length - start) bytes) :
    ∃ e, readAt fs image path start = fail e := by
  rw [← List.length_drop] at hreads
  obtain ⟨e, he⟩ := read_of_not_reads hreads
  exact ⟨e, by rw [readAt_eq h, he]; rfl⟩

theorem addChunk_of_reads (h : chunk.start pos ≤ image.length)
    (hreads : Reads fs chunk.path (image.length - chunk.start pos) bytes) :
    addChunk fs (image, pos) chunk =
      pure (overwrite image ⟨chunk.start pos, bytes⟩, chunk.start pos + bytes.length) := by
  rw [addChunk_eq, readAt_of_reads h hreads]
  rfl

/-! ### The loop -/

theorem Placed.fits (h : Placed fs n pos chunks segs last) : ∀ s ∈ segs, s.Fits n := by
  induction h with
  | nil pos => exact fun s hs => absurd hs List.not_mem_nil
  | cons fits _ _ ih => exact List.forall_mem_cons.2 ⟨fits, ih⟩

/-- The chunks that are placed are laid over the buffer. -/
theorem Placed.foldlM_eq (h : Placed fs n pos chunks segs last) (hn : image.length = n) :
    chunks.foldlM (addChunk fs) (image, pos) = pure (segs.foldl overwrite image, last) := by
  induction h generalizing image with
  | nil pos => rfl
  | @cons pos last chunk chunks bytes segs fits reads rest ih =>
    subst hn
    have hstart : chunk.start pos ≤ image.length := Nat.le_of_add_right_le fits
    have hlength := length_overwrite (s := ⟨chunk.start pos, bytes⟩) fits
    rw [List.foldlM_cons, addChunk_of_reads hstart reads, pure_bind, ih hlength]
    rfl

theorem Placed.panics (h : Placed fs n pos chunks segs last) (hn : image.length = n) {offset : ℕ}
    (hoffset : n < offset) (after : List ImageChunk) :
    Panics ((chunks ++ .offset path offset :: after).foldlM (addChunk fs) (image, pos)) := by
  have hlength : (segs.foldl overwrite image).length < offset := by
    subst hn
    rwa [(laidOver_foldl h.fits).length]
  rw [List.foldlM_append, h.foldlM_eq hn, pure_bind, List.foldlM_cons, addChunk_eq]
  exact panics_bind (panics_bind (panics_readAt hlength) _) _

theorem Overshoots.cons (h : Overshoots fs n (chunk.start pos + bytes.length) chunks)
    (fits : chunk.start pos + bytes.length ≤ n)
    (reads : Reads fs chunk.path (n - chunk.start pos) bytes) :
    Overshoots fs n pos (chunk :: chunks) := by
  obtain ⟨before, path, offset, after, segs, last, rfl, hplaced, hoffset⟩ := h
  exact ⟨chunk :: before, path, offset, after, _, last, rfl, .cons fits reads hplaced, hoffset⟩

/-- A chunk that starts behind the end of the buffer has an offset. -/
theorem overshoots_of_lt (hpos : pos ≤ n) (h : n < chunk.start pos) :
    Overshoots fs n pos (chunk :: chunks) := by
  cases chunk with
  | concat path => exact absurd h (Nat.not_lt.2 hpos)
  | offset path offset => exact ⟨[], path, offset, chunks, [], pos, rfl, .nil pos, h⟩

theorem foldlM_fails (hpos : pos ≤ image.length)
    (hplaced : ¬ ∃ segs last, Placed fs image.length pos chunks segs last)
    (hover : ¬ Overshoots fs image.length pos chunks) :
    ∃ e, chunks.foldlM (addChunk fs) (image, pos) = fail e := by
  induction chunks generalizing image pos with
  | nil => exact absurd ⟨[], pos, .nil pos⟩ hplaced
  | cons chunk chunks ih =>
    have hstart : chunk.start pos ≤ image.length :=
      Nat.not_lt.1 fun h => hover (overshoots_of_lt hpos h)
    by_cases hreads : ∃ bytes, Reads fs chunk.path (image.length - chunk.start pos) bytes
    · obtain ⟨bytes, hreads⟩ := hreads
      have fits : chunk.start pos + bytes.length ≤ image.length := by
        have hle := hreads.length_le
        omega
      have hlength := length_overwrite (s := ⟨chunk.start pos, bytes⟩) fits
      rw [List.foldlM_cons, addChunk_of_reads hstart hreads, pure_bind]
      apply ih
      · rwa [hlength]
      · rintro ⟨segs, last, h⟩
        exact hplaced ⟨_, last, .cons fits hreads (hlength ▸ h)⟩
      · intro h
        rw [hlength] at h
        exact hover (h.cons fits hreads)
    · obtain ⟨e, he⟩ := readAt_of_not_reads hstart (not_exists.1 hreads)
      exact ⟨e, by rw [List.foldlM_cons, addChunk_eq, he]; rfl⟩

/-! ### The whole image -/

variable {a : ImageAssembler}

theorem returns_vec (value : Byte) (n : ℕ) : Returns (n ≤ kIsizeMax)
    (vec value n : Run (AssembleError κ) (List Byte)) (List.replicate n value) :=
  returns_ite_stop _ _ _

theorem returns_extendFromWithin (v : List Byte) : Returns (v.length + v.length ≤ kIsizeMax)
    (extendFromWithin v v.length : Run (AssembleError κ) (List Byte)) (v ++ v) := by
  have hslice := returns_slice (ε := AssembleError κ) v (Nat.zero_le v.length)
  rw [List.drop_zero, Nat.sub_zero, List.take_length] at hslice
  refine (hslice.bind fun _ => returns_ite_stop _ (v ++ v) _).congr ?_
  exact and_iff_right (Nat.le_refl _)

/-- The buffer with the segments laid over it. -/
def half (a : ImageAssembler) (segs : List (Segment Byte)) : List Byte :=
  segs.foldl overwrite (List.replicate a.bufferSize 0xff)

theorem Placed.laidOver (h : Placed fs a.bufferSize 0 chunks segs last) :
    LaidOver (List.replicate a.bufferSize 0xff) segs (a.half segs) := by
  apply laidOver_foldl
  rw [List.length_replicate]
  exact h.fits

theorem Placed.length_half (h : Placed fs a.bufferSize 0 chunks segs last) :
    (a.half segs).length = a.bufferSize := by
  rw [h.laidOver.length, List.length_replicate]

theorem assemble_of_placed (halloc : a.bufferSize ≤ kIsizeMax)
    (h : Placed fs a.bufferSize 0 a.chunks segs last) :
    assemble fs a =
      if a.mirrored then extendFromWithin (a.half segs) (a.half segs).length
      else pure (a.half segs) := by
  rw [assemble, (returns_vec 0xff _).eq halloc, pure_bind, h.foldlM_eq (List.length_replicate ..),
    pure_bind, h.length_half]
  rfl

theorem panics_assemble (halloc : ¬ a.bufferSize ≤ kIsizeMax) : Panics (assemble fs a) :=
  panics_bind ((returns_vec 0xff _).panics halloc) _

theorem panics_of_overshoots (halloc : a.bufferSize ≤ kIsizeMax)
    (h : Overshoots fs a.bufferSize 0 a.chunks) : Panics (assemble fs a) := by
  obtain ⟨before, path, offset, after, segs, last, hchunks, hplaced, hoffset⟩ := h
  rw [assemble, (returns_vec 0xff _).eq halloc, pure_bind, hchunks]
  exact panics_bind (hplaced.panics (List.length_replicate ..) hoffset after) _

theorem assemble_fails (halloc : a.bufferSize ≤ kIsizeMax)
    (hplaced : ¬ ∃ segs last, Placed fs a.bufferSize 0 a.chunks segs last)
    (hover : ¬ Overshoots fs a.bufferSize 0 a.chunks) : ∃ e, assemble fs a = fail e := by
  have hlength : (List.replicate a.bufferSize (0xff : Byte)).length = a.bufferSize :=
    List.length_replicate ..
  rw [← hlength] at hplaced hover
  obtain ⟨e, he⟩ := foldlM_fails (Nat.zero_le _) hplaced hover
  exact ⟨e, by rw [assemble, (returns_vec 0xff _).eq halloc, pure_bind, he]; rfl⟩

/-- A mirrored image repeats its half, and has the declared size when that is even. -/
theorem assemble_mirrored (halloc : a.bufferSize ≤ kIsizeMax)
    (h : Placed fs a.bufferSize 0 a.chunks segs last) (hm : a.mirrored = true) :
    Returns (a.size / 2 + a.size / 2 ≤ kIsizeMax) (assemble fs a)
      (a.half segs ++ a.half segs) := by
  have hlength := h.length_half
  rw [bufferSize, hm, if_pos rfl] at hlength
  rw [assemble_of_placed halloc h, hm, if_pos rfl, ← hlength]
  exact returns_extendFromWithin _

theorem Buildable.builds (h : Buildable fs a)
    (hplaced : Placed fs a.bufferSize 0 a.chunks segs last) :
    ∃ image, assemble fs a = pure image ∧ IsImage a segs image := by
  have hlength := hplaced.length_half
  cases hm : a.mirrored with
  | true =>
    obtain ⟨heven, hmax⟩ := h.mirror segs last hplaced hm
    have hrun := assemble_mirrored h.alloc hplaced hm
    refine ⟨_, hrun.eq (by omega), ⟨?_, _, hplaced.laidOver, by rw [hm]; rfl⟩⟩
    rw [bufferSize, hm, if_pos rfl] at hlength
    rw [List.length_append, hlength]
    omega
  | false =>
    refine ⟨a.half segs, ?_, ⟨?_, _, hplaced.laidOver, by rw [hm]; rfl⟩⟩
    · rw [assemble_of_placed h.alloc hplaced, hm]
      rfl
    · rw [hlength, bufferSize, hm]
      rfl

/-- The right image is built, or it fails with an error, exactly when the buffer can be allocated,
no chunk that is reached overshoots it, and an image to be mirrored has an even size. -/
theorem assemble_builds_or_fails_iff (fs : FileSystem κ) (a : ImageAssembler) :
    BuildsOrFails fs a ↔ Buildable fs a := by
  constructor
  · intro h
    have halloc : a.bufferSize ≤ kIsizeMax := by
      by_contra halloc
      exact h.not_panics (panics_assemble halloc)
    refine ⟨halloc, fun hover => h.not_panics (panics_of_overshoots halloc hover), ?_⟩
    intro segs last hplaced hm
    obtain ⟨image, himage, his⟩ := h.builds segs last hplaced
    obtain ⟨hmax, rfl⟩ := (assemble_mirrored halloc hplaced hm).ok_iff.1 himage
    have hlength := his.length
    rw [List.length_append, hplaced.length_half, bufferSize, hm, if_pos rfl] at hlength
    omega
  · intro h
    have hfails (hplaced : ¬ ∃ segs last, Placed fs a.bufferSize 0 a.chunks segs last) :=
      assemble_fails h.alloc hplaced h.reached
    refine ⟨fun segs last hplaced => h.builds hplaced, hfails, ?_⟩
    by_cases hplaced : ∃ segs last, Placed fs a.bufferSize 0 a.chunks segs last
    · obtain ⟨segs, last, hplaced⟩ := hplaced
      obtain ⟨image, himage, -⟩ := h.builds hplaced
      rw [himage]
      exact not_panics_pure image
    · obtain ⟨e, he⟩ := hfails hplaced
      rw [he]
      exact not_panics_fail e

/-- A file system with one file of five bytes. -/
def helloOnly : FileSystem String := fun path =>
  if path = "hello.txt" then .ok (.regular [0x48, 0x65, 0x6c, 0x6c, 0x6f]) else .error "not found"

/-- At an offset behind the end of an image of sixteen bytes, a file that does not fit stops the
assembler, where at an offset inside it is reported. -/
theorem assemble_panics_behind_end :
    Panics (assemble helloOnly ⟨16, false, [.offset "hello.txt" 17]⟩) ∧
    assemble helloOnly ⟨16, false, [.offset "hello.txt" 16]⟩ =
      fail (.image (.incompleteRead 5 0)) ∧
    ¬ BuildsOrFails helloOnly ⟨16, false, [.offset "hello.txt" 17]⟩ := by
  have hpanics : Panics (assemble helloOnly ⟨16, false, [.offset "hello.txt" 17]⟩) :=
    ⟨.slice, by decide +kernel⟩
  exact ⟨hpanics, by decide +kernel, fun h => h.not_panics hpanics⟩

end ImageAssembler

end SecureBoot
