import SecureBoot.Design.EccMatrix
import SecureBoot.Lib.Layout

/-! `OtpMemMap`, which lays out the partitions of the OTP memory and the items in them. The default
values of the items are left out. -/

namespace SecureBoot.OtpMemMap

open Traverse Layout
open LcStEnc (Number check_int)

def DIGEST_SUFFIX : String := "_DIGEST"
def DIGEST_SIZE : ℤ := 8
def SCRAMBLE_BLOCK_WIDTH : ℕ := 8

/-! ### The configuration -/

/-- A boolean of the configuration file, or the text of one. -/
inductive Flag where
  | bool (x : Bool)
  | str (x : String)

def check_bool : Flag → Except String Bool
  | .bool x => .ok x
  | .str x =>
    if x.toLower ∈ ["true", "false"] then .ok (x.toLower = "true")
    else .error s!"{x} is not a boolean value."

/-- The flag as a condition: every text but the empty one holds. -/
def Flag.truth : Flag → Bool
  | .bool x => x
  | .str x => x ≠ ""

structure ItemInput where
  name : Option String
  size : Option Number
  isdigest : Option Flag
  ismubi : Option Flag

structure PartInput where
  name : Option String
  variant : Option String
  secret : Option Flag
  sw_digest : Option Flag
  hw_digest : Option Flag
  bkout_type : Option Flag
  ecc_fatal : Option Flag
  write_lock : Option String
  read_lock : Option String
  key_sel : Option String
  absorb : Option Flag
  size : Option Number
  items : List ItemInput

structure OtpInput where
  depth : Option Number
  width : Option Number

/-- The memory map configuration; of the scrambling section it has the names of the keys. -/
structure ConfigInput where
  otp : OtpInput
  key_names : List String
  partitions : List PartInput

/-! ### The partitions -/

structure Item where
  name : String
  size : ℤ
  isdigest : Bool
deriving DecidableEq

/-- A partition before it has an offset. -/
structure Part where
  name : String
  sw_digest : Bool
  hw_digest : Bool
  absorb : Bool
  size : ℤ
  items : List Item

/-- `part["sw_digest"] or part["hw_digest"]`. -/
def Part.digest (part : Part) : Bool := part.sw_digest || part.hw_digest

def N_MAX_NIBBLES : ℤ := 4

def is_width_valid (width : ℤ) : Bool := width % 4 = 0 ∧ width / 4 ≤ N_MAX_NIBBLES ∧ 0 < width

def _validate_item (item : ItemInput) : Except String Item := do
  let name := item.name.getD "unknown_name"
  let isdigest ← check_bool (item.isdigest.getD (.str "false"))
  let ismubi ← check_bool (item.ismubi.getD (.str "false"))
  let size ← check_int (item.size.getD (.str "0"))
  if ismubi && !is_width_valid (size * 8) then throw s!"Mubi value {name} has invalid width"
  return { name, size, isdigest }

/-- A number rounded to 53 bits, to an even number in a tie. -/
def roundFloat (n : ℕ) : ℕ :=
  let ulp := 2 ^ (n.size - 53)
  let up := ulp < 2 * (n % ulp) ∨ 2 * (n % ulp) = ulp ∧ n / ulp % 2 = 1
  if up then (n / ulp + 1) * ulp else n / ulp * ulp

/-- From this power of two on there is no floating point number. -/
def FLOAT_EXPONENT : ℕ := 1024

/-- `int(n / SCRAMBLE_BLOCK_WIDTH)`: the quotient is a floating point number. -/
def blocksOf (n : ℤ) : Except String ℤ :=
  let quotient := roundFloat n.natAbs / SCRAMBLE_BLOCK_WIDTH
  if 2 ^ FLOAT_EXPONENT ≤ quotient then throw "integer division result too large for a float"
  else return n.sign * quotient

def _avail_blocks (size : ℤ) : Except String ℤ := blocksOf size

def _calc_size (digest : Bool) (size : ℤ) : Except String ℤ := do
  let size := SCRAMBLE_BLOCK_WIDTH * (← blocksOf (size + SCRAMBLE_BLOCK_WIDTH - 1))
  return if digest then size + DIGEST_SIZE else size

/-- A required entry. -/
def required (key : String) : Option Flag → Except String Flag
  | some x => return x
  | none => throw s!"KeyError: {key}"

/-- The basic checks, of the flags `secret`, `sw_digest` and `hw_digest` as they are converted. -/
def basic_checks (key_names : List String) (part : PartInput) (secret sw_digest hw_digest : Bool) :
    Except String Unit := do
  let variant := part.variant.getD "Unbuffered"
  let write_lock := (part.write_lock.getD "none").toLower
  let read_lock := (part.read_lock.getD "none").toLower
  let key_sel := part.key_sel.getD "NoKey"
  if variant ∉ ["Unbuffered", "Buffered", "LifeCycle"] then
    throw s!"Invalid partition type {variant}"
  if key_sel ∉ "NoKey" :: key_names then throw s!"Invalid key sel {key_sel}"
  if secret ∧ key_sel = "NoKey" then
    throw "A secret partition needs a key select value other than NoKey"
  if write_lock ∉ ["digest", "csr", "none"] then throw "Invalid value for write_lock"
  if read_lock ∉ ["digest", "csr", "none"] then throw "Invalid value for read_lock"
  if sw_digest ∧ hw_digest then
    throw "Partition cannot support both a SW and a HW digest at the same time."
  if variant = "Unbuffered" ∧ !sw_digest then
    throw "Unbuffered partitions without digest are not supported at the moment."
  if !sw_digest ∧ !hw_digest ∧ (write_lock = "digest" ∨ read_lock = "digest") then
    throw "A partition can only be write/read lockable if it has a hw or sw digest."

/-- The given size, or the size that the items need. -/
def part_size (part : PartInput) (digest : Bool) (size : ℤ) : Except String ℤ :=
  match part.size with
  | some given => check_int given
  | none => _calc_size digest size

def _validate_part (key_names : List String) (part : PartInput) : Except String Part := do
  let secret ← check_bool (part.secret.getD (.bool false))
  let sw_digest ← check_bool (part.sw_digest.getD (.bool false))
  let hw_digest ← check_bool (part.hw_digest.getD (.bool false))
  let _ ← check_bool (← required "bkout_type" part.bkout_type)
  let _ ← check_bool (← required "ecc_fatal" part.ecc_fatal)
  basic_checks key_names part secret sw_digest hw_digest
  let items ← part.items.mapM _validate_item
  let size ← part_size part (sw_digest || hw_digest) (items.map Item.size).sum
  if size % SCRAMBLE_BLOCK_WIDTH ≠ 0 then throw "Partition size must be 64bit aligned"
  return {
    name := part.name.getD "unknown_name"
    sw_digest, hw_digest
    absorb := (part.absorb.getD (.bool false)).truth
    size, items }

/-! ### Unused blocks -/

/-- A partition with one more block. -/
def Part.grow (part : Part) : Part := { part with size := part.size + SCRAMBLE_BLOCK_WIDTH }

/-- The positions of the partitions that absorb unused blocks. -/
def sponge_parts (parts : List Part) : List ℕ :=
  (parts.zipIdx.filter fun part => part.1.absorb).map (·.2)

/-- The blocks go round the partitions at the positions. -/
def _dist_blocks (num_blocks : ℤ) (sponge : List ℕ) (parts : List Part) : List Part :=
  if sponge = [] then parts
  else (List.range num_blocks.toNat).foldl
    (fun parts i => parts.modify (sponge.getD (i % sponge.length) 0) Part.grow) parts

def _dist_unused (otp_size allocated : ℤ) (parts : List Part) : Except String (List Part) := do
  let leftover_blocks ← _avail_blocks (otp_size - allocated)
  return _dist_blocks leftover_blocks (sponge_parts parts) parts

/-! ### The layout -/

structure PlacedItem extends Item where
  offset : ℤ
deriving DecidableEq

structure PlacedPart where
  name : String
  digest : Bool
  offset : ℤ
  size : ℤ
  items : List PlacedItem
deriving DecidableEq

def Item.place (item : Item) (offset : ℤ) : PlacedItem := { item with offset }

/-- The running offset, `item_dict`, and the items placed so far. -/
structure ItemState where
  offset : ℤ
  item_dict : List (String × ℕ)
  items : List PlacedItem

/-- Item `k` of a partition. -/
def placeItem (s : ItemState) (item : Item × ℕ) : Except String ItemState :=
  if (s.item_dict.lookup item.1.name).isSome then throw s!"Item name {item.1.name} is not unique"
  else return {
    offset := s.offset + item.1.size
    item_dict := s.item_dict ++ [(item.1.name, item.2)]
    items := s.items ++ [item.1.place s.offset] }

/-- The item for the digest of a partition. -/
def digestItem (name : String) (canonical_offset : ℤ) : PlacedItem :=
  { name := name ++ DIGEST_SUFFIX, size := DIGEST_SIZE, isdigest := true
    offset := canonical_offset }

def addDigest (part : Part) (part_offset : ℤ) (s : ItemState) (digest : PlacedItem) :
    Except String ItemState :=
  if (s.item_dict.lookup digest.name).isSome then
    throw s!"Digest name {digest.name} is not unique"
  else if digest.offset < s.offset then
    throw (s!"Not enough space in partition {part.name} to accommodate a digest. Bytes " ++
      s!"available = {part.size}, bytes allocated to items = {s.offset - part_offset}")
  else return {
    offset := digest.offset + digest.size
    item_dict := s.item_dict ++ [(digest.name, part.items.length)]
    items := s.items ++ [digest] }

/-- A digest takes the last 64 bits of the partition. -/
def placeDigest (part : Part) (part_offset : ℤ) (s : ItemState) : Except String ItemState :=
  if part.digest then
    addDigest part part_offset s (digestItem part.name (part_offset + part.size - DIGEST_SIZE))
  else return s

def check_alignment (part_offset : ℤ) (part : Part) : Except String Unit :=
  if part_offset % SCRAMBLE_BLOCK_WIDTH ≠ 0 then
    throw s!"Partition {part.name} offset must be 64bit aligned"
  else return ()

/-- The check of offsets and size. -/
def check_space (part_offset : ℤ) (part : Part) (offset : ℤ) : Except String Unit :=
  if part_offset + part.size < offset then
    throw (s!"Not enough space in partition {part.name} to accommodate all items. Bytes " ++
      s!"available = {part.size}, bytes allocated to items = {offset - part_offset}")
  else return ()

def placePart (part_offset : ℤ) (part : Part) : Except String (PlacedPart × List (String × ℕ)) := do
  check_alignment part_offset part
  let s ← part.items.zipIdx.foldlM placeItem { offset := part_offset, item_dict := [], items := [] }
  let s ← placeDigest part part_offset s
  check_space part_offset part s.offset
  return ({ name := part.name, digest := part.digest, offset := part_offset, size := part.size,
            items := s.items }, s.item_dict)

/-- The running offset, `part_dict`, and the partitions placed so far. -/
structure Mmap where
  offset : ℤ
  part_dict : List (String × (ℕ × List (String × ℕ)))
  partitions : List PlacedPart
deriving DecidableEq

/-- Partition `j`. -/
def addPart (s : Mmap) (part : Part × ℕ) : Except String Mmap :=
  if (s.part_dict.lookup part.1.name).isSome then
    throw s!"Partition name {part.1.name} is not unique"
  else do
    let (placed, item_dict) ← placePart s.offset part.1
    return {
      offset := placed.offset + placed.size
      part_dict := s.part_dict ++ [(part.1.name, (part.2, item_dict))]
      partitions := s.partitions ++ [placed] }

/-- The size of the memory; its logarithms are left out, but not that they exist. -/
def _validate_otp (otp : OtpInput) : Except String ℤ := do
  let depth ← check_int (otp.depth.getD (.str "1024"))
  let width ← check_int (otp.width.getD (.str "2"))
  if depth ≤ 0 ∨ depth * width ≤ 0 then throw "math domain error"
  else return depth * width

def _validate_mmap (otp_size : ℤ) (config : ConfigInput) : Except String Mmap := do
  let parts ← config.partitions.mapM (_validate_part config.key_names)
  let allocated := (parts.map Part.size).sum
  let parts ← _dist_unused otp_size allocated parts
  let s ← parts.zipIdx.foldlM addPart { offset := 0, part_dict := [], partitions := [] }
  if otp_size < s.offset then
    throw ("OTP is not big enough to store all partitions. " ++
      s!"Bytes available {otp_size}, bytes required {s.offset}")
  else return s

/-- The map of a configuration. -/
def init (config : ConfigInput) : Except String Mmap := do
  let otp_size ← _validate_otp config.otp
  _validate_mmap otp_size config

def get_part (m : Mmap) (part_name : String) : Option PlacedPart := do
  let entry ← m.part_dict.lookup part_name
  m.partitions[entry.1]?

def get_item (m : Mmap) (part_name item_name : String) : Option PlacedItem := do
  let entry ← m.part_dict.lookup part_name
  let idx ← entry.2.lookup item_name
  let part ← m.partitions[entry.1]?
  part.items[idx]?

/-! ### What the validation ensures of a partition -/

/-- A number of the configuration file that is not negative. -/
def NonNeg : Number → Prop
  | .int x => 0 ≤ x
  | .str _ => True

theorem check_int_nonneg {n : Number} (hn : NonNeg n) {x : ℤ} (h : check_int n = .ok x) :
    0 ≤ x := by
  cases n with
  | int y =>
    cases h
    exact hn
  | str s =>
    rw [check_int] at h
    split_ifs at h
    rw [← Except.ok.inj h]
    generalize s.toList = digits
    induction digits using List.reverseRecOn with
    | nil => exact le_rfl
    | append_singleton digits c ih =>
      rw [List.foldl_append, List.foldl_cons, List.foldl_nil]
      omega

/-- The sizes that the configuration gives are not negative. -/
def NonNegative (config : ConfigInput) : Prop :=
  ∀ part ∈ config.partitions, (∀ n ∈ part.size, NonNeg n) ∧
    ∀ item ∈ part.items, ∀ n ∈ item.size, NonNeg n

/-- What the layout needs of a partition. -/
structure PartOk (part : Part) : Prop where
  size : 0 ≤ part.size
  aligned : part.size % SCRAMBLE_BLOCK_WIDTH = 0
  items : ∀ item ∈ part.items, 0 ≤ item.size

theorem validate_item_ok {input : ItemInput} (hn : ∀ n ∈ input.size, NonNeg n) {item : Item}
    (h : _validate_item input = .ok item) : 0 ≤ item.size := by
  obtain ⟨isdigest, -, h⟩ := bind_ok h
  obtain ⟨ismubi, -, h⟩ := bind_ok h
  obtain ⟨size, hsize, h⟩ := bind_ok h
  obtain rfl : size = item.size := by
    split_ifs at h
    · cases h
    · exact congrArg Item.size (Except.ok.inj h)
  refine check_int_nonneg ?_ hsize
  cases hinput : input.size with
  | none => trivial
  | some n => exact hn n hinput

theorem blocksOf_nonneg {n q : ℤ} (hn : 0 ≤ n) (h : blocksOf n = .ok q) : 0 ≤ q := by
  rw [blocksOf] at h
  split_ifs at h
  rw [← Except.ok.inj h]
  exact mul_nonneg (Int.sign_nonneg_iff.mpr hn) (Int.natCast_nonneg _)

theorem calc_size_nonneg {digest : Bool} {size size' : ℤ} (hsize : 0 ≤ size)
    (h : _calc_size digest size = .ok size') : 0 ≤ size' := by
  obtain ⟨q, hq, h⟩ := bind_ok h
  have hnonneg : 0 ≤ q := blocksOf_nonneg (by simp [SCRAMBLE_BLOCK_WIDTH]; omega) hq
  rw [← Except.ok.inj h]
  simp only [SCRAMBLE_BLOCK_WIDTH, DIGEST_SIZE]
  split_ifs <;> omega

theorem validate_items_ok {inputs : List ItemInput}
    (hn : ∀ item ∈ inputs, ∀ n ∈ item.size, NonNeg n) {items : List Item}
    (h : inputs.mapM _validate_item = .ok items) : ∀ item ∈ items, 0 ≤ item.size := by
  intro item hitem
  obtain ⟨input, hinput, hok⟩ := exists_of_mem_mapM h hitem
  exact validate_item_ok (hn input hinput) hok

theorem sum_nonneg {α : Type} {size : α → ℤ} {l : List α} (h : ∀ a ∈ l, 0 ≤ size a) :
    0 ≤ (l.map size).sum := by
  induction l with
  | nil => exact le_rfl
  | cons a l ih =>
    rw [List.forall_mem_cons] at h
    rw [List.map_cons, List.sum_cons]
    exact add_nonneg h.1 (ih h.2)

theorem validate_part_ok {key_names : List String} {input : PartInput} {part : Part}
    (hn : (∀ n ∈ input.size, NonNeg n) ∧ ∀ item ∈ input.items, ∀ n ∈ item.size, NonNeg n)
    (h : _validate_part key_names input = .ok part) : PartOk part := by
  obtain ⟨secret, -, h⟩ := bind_ok h
  obtain ⟨sw_digest, -, h⟩ := bind_ok h
  obtain ⟨hw_digest, -, h⟩ := bind_ok h
  obtain ⟨bkout_type, -, h⟩ := bind_ok h
  obtain ⟨_, -, h⟩ := bind_ok h
  obtain ⟨ecc_fatal, -, h⟩ := bind_ok h
  obtain ⟨_, -, h⟩ := bind_ok h
  obtain ⟨_, -, h⟩ := bind_ok h
  obtain ⟨items, hitems, h⟩ := bind_ok h
  obtain ⟨size, hsize, h⟩ := bind_ok h
  have hitems_ok := validate_items_ok hn.2 hitems
  split_ifs at h with haligned
  · cases h
  cases h
  refine ⟨?_, not_not.mp haligned, hitems_ok⟩
  rw [part_size] at hsize
  cases hgiven : input.size with
  | some n =>
    rw [hgiven] at hsize
    exact check_int_nonneg (hn.1 n hgiven) hsize
  | none =>
    rw [hgiven] at hsize
    exact calc_size_nonneg (sum_nonneg hitems_ok) hsize

theorem validate_parts_ok {key_names : List String} {inputs : List PartInput}
    (hn : ∀ part ∈ inputs, (∀ n ∈ part.size, NonNeg n) ∧
      ∀ item ∈ part.items, ∀ n ∈ item.size, NonNeg n) {parts : List Part}
    (h : inputs.mapM (_validate_part key_names) = .ok parts) : ∀ part ∈ parts, PartOk part := by
  intro part hpart
  obtain ⟨input, hinput, hok⟩ := exists_of_mem_mapM h hpart
  exact validate_part_ok (hn input hinput) hok

/-! ### The blocks that are distributed -/

theorem PartOk.grow {part : Part} (h : PartOk part) : PartOk part.grow where
  size := by
    have := h.size
    simp only [Part.grow, SCRAMBLE_BLOCK_WIDTH]
    omega
  aligned := by
    have := h.aligned
    simp only [Part.grow, SCRAMBLE_BLOCK_WIDTH] at this ⊢
    omega
  items := h.items

theorem forall_modify {α : Type} {P : α → Prop} {f : α → α} (hf : ∀ a, P a → P (f a)) {l : List α}
    (h : ∀ a ∈ l, P a) (i : ℕ) : ∀ a ∈ l.modify i f, P a := by
  induction l generalizing i with
  | nil => simp
  | cons b l ih =>
    rw [List.forall_mem_cons] at h
    cases i with
    | zero => exact List.forall_mem_cons.mpr ⟨hf b h.1, h.2⟩
    | succ i => exact List.forall_mem_cons.mpr ⟨h.1, ih h.2 i⟩

theorem dist_blocks_ok (num_blocks : ℤ) (sponge : List ℕ) {parts : List Part}
    (h : ∀ part ∈ parts, PartOk part) :
    ∀ part ∈ _dist_blocks num_blocks sponge parts, PartOk part := by
  unfold _dist_blocks
  split_ifs
  · exact h
  · induction List.range num_blocks.toNat generalizing parts with
    | nil => exact h
    | cons i l ih => exact ih (forall_modify (fun _ hpart => hpart.grow) h _)

/-! ### The layout of a partition -/

/-- The items lie in the partition one after the other, and a digest takes the last 64 bits. -/
structure PlacedPart.Ok (part : PlacedPart) : Prop where
  offset_aligned : part.offset % SCRAMBLE_BLOCK_WIDTH = 0
  size_aligned : part.size % SCRAMBLE_BLOCK_WIDTH = 0
  items : Laid PlacedItem.offset (fun item => item.size) part.offset (part.offset + part.size)
    part.items
  digest : part.digest = true → part.items.getLast? =
    some (digestItem part.name (part.offset + part.size - DIGEST_SIZE))

/-- Every item of the list is found at its position. -/
def ItemsResolve (item_dict : List (String × ℕ)) (items : List PlacedItem) : Prop :=
  Resolves item_dict (fun item => item.name) (fun k _ v => v = k) items

/-- What the loop over the items keeps. -/
structure ItemState.Ok (part_offset : ℤ) (k : ℕ) (s : ItemState) : Prop where
  laid : Laid PlacedItem.offset (fun item => item.size) part_offset s.offset s.items
  resolves : ItemsResolve s.item_dict s.items
  length : s.items.length = k

theorem placeItem_ok {part_offset : ℤ} {k : ℕ} {s s' : ItemState} {item : Item}
    (hsize : 0 ≤ item.size) (hs : s.Ok part_offset k) (h : placeItem s (item, k) = .ok s') :
    s'.Ok part_offset (k + 1) := by
  unfold placeItem at h
  split_ifs at h with hnew
  cases h
  have hsize' : 0 ≤ (item.place s.offset).size := hsize
  refine ⟨hs.laid.concat (le_refl (item.place s.offset).offset) hsize', ?_, ?_⟩
  · exact hs.resolves.concat (Option.not_isSome_iff_eq_none.mp hnew) hs.length.symm
  · rw [List.length_append, hs.length, List.length_singleton]

theorem addDigest_ok {part : Part} {part_offset : ℤ} {s s' : ItemState} {digest : PlacedItem}
    (hsize : 0 ≤ digest.size) (hs : s.Ok part_offset part.items.length)
    (h : addDigest part part_offset s digest = .ok s') :
    s'.Ok part_offset (part.items.length + 1) ∧ s'.items.getLast? = some digest := by
  unfold addDigest at h
  split_ifs at h with hnew hfits
  cases h
  refine ⟨⟨hs.laid.concat (not_lt.mp hfits) hsize, ?_, ?_⟩, List.getLast?_concat⟩
  · exact hs.resolves.concat (Option.not_isSome_iff_eq_none.mp hnew) hs.length.symm
  · rw [List.length_append, hs.length, List.length_singleton]

theorem placeDigest_ok {part : Part} {part_offset : ℤ} {s s' : ItemState}
    (hs : s.Ok part_offset part.items.length) (h : placeDigest part part_offset s = .ok s') :
    (∃ k, s'.Ok part_offset k) ∧ (part.digest = true → s'.items.getLast? =
      some (digestItem part.name (part_offset + part.size - DIGEST_SIZE))) := by
  unfold placeDigest at h
  split_ifs at h with hdigest
  · obtain ⟨hok, hlast⟩ := addDigest_ok (show (0 : ℤ) ≤ DIGEST_SIZE by decide) hs h
    exact ⟨⟨_, hok⟩, fun _ => hlast⟩
  · cases h
    exact ⟨⟨_, hs⟩, fun h => absurd h hdigest⟩

theorem placePart_ok {part_offset : ℤ} {part : Part} (hpart : PartOk part) {placed : PlacedPart}
    {item_dict : List (String × ℕ)} (h : placePart part_offset part = .ok (placed, item_dict)) :
    placed.Ok ∧ ItemsResolve item_dict placed.items ∧ placed.name = part.name ∧
      placed.offset = part_offset ∧ placed.size = part.size := by
  obtain ⟨_, halign, h⟩ := bind_ok h
  obtain ⟨s, hitems, h⟩ := bind_ok h
  obtain ⟨s', hdigest, h⟩ := bind_ok h
  obtain ⟨_, hspace, h⟩ := bind_ok h
  cases h
  have haligned : part_offset % SCRAMBLE_BLOCK_WIDTH = 0 := by
    by_contra hne
    rw [check_alignment, if_pos hne] at halign
    cases halign
  have hfits : s'.offset ≤ part_offset + part.size := by
    by_contra hlt
    rw [check_space, if_pos (not_le.mp hlt)] at hspace
    cases hspace
  have hs : s.Ok part_offset part.items.length := by
    apply foldlM_zipIdx_invariant ?_ ?_ hitems
    · exact fun k item hitem b b' hb hb' =>
        placeItem_ok (hpart.items item (List.mem_of_getElem? hitem)) hb hb'
    · exact ⟨.nil part_offset, fun k a ha => (by cases ha), rfl⟩
  obtain ⟨⟨k, hok⟩, hlast⟩ := placeDigest_ok hs hdigest
  exact ⟨⟨haligned, hpart.aligned, hok.laid.mono hfits, hlast⟩, hok.resolves, rfl, rfl, rfl⟩

/-! ### The layout of the memory -/

/-- Every partition and every item of it is found at its position. -/
def PartsResolve (part_dict : List (String × (ℕ × List (String × ℕ)))) (parts : List PlacedPart) :
    Prop :=
  Resolves part_dict PlacedPart.name (fun j part v => v.1 = j ∧ ItemsResolve v.2 part.items) parts

/-- What the loop over the partitions keeps. -/
structure Mmap.Ok (j : ℕ) (s : Mmap) : Prop where
  length : s.partitions.length = j
  offset : s.offset = (s.partitions.map PlacedPart.size).sum
  contiguous : ∀ i part, s.partitions[i]? = some part →
    part.offset = ((s.partitions.take i).map PlacedPart.size).sum
  laid : Laid PlacedPart.offset PlacedPart.size 0 s.offset s.partitions
  parts : ∀ part ∈ s.partitions, part.Ok
  resolves : PartsResolve s.part_dict s.partitions

theorem addPart_ok {j : ℕ} {s s' : Mmap} {part : Part} (hpart : PartOk part) (hs : s.Ok j)
    (h : addPart s (part, j) = .ok s') : s'.Ok (j + 1) := by
  unfold addPart at h
  split_ifs at h with hnew
  obtain ⟨⟨placed, item_dict⟩, hplaced, h⟩ := bind_ok h
  cases h
  obtain ⟨hok, hresolves, hname, hoffset, hsize⟩ := placePart_ok hpart hplaced
  have hnew : s.part_dict.lookup placed.name = none := by
    rw [hname]
    exact Option.not_isSome_iff_eq_none.mp hnew
  refine ⟨?_, ?_, ?_, ?_, ?_, ?_⟩
  · rw [List.length_append, hs.length, List.length_singleton]
  · rw [hoffset, hs.offset, List.map_append, List.sum_append, List.map_singleton,
      List.sum_singleton]
  · intro i p hp
    obtain hi | hi := Nat.lt_or_ge i s.partitions.length
    · rw [List.getElem?_append_left hi] at hp
      rw [List.take_append_of_le_length hi.le]
      exact hs.contiguous i p hp
    · rw [List.getElem?_append_right hi] at hp
      obtain ⟨hlt, rfl⟩ := List.getElem?_eq_some_iff.mp hp
      rw [List.length_singleton] at hlt
      obtain rfl : i = s.partitions.length := by omega
      simp [hoffset, hs.offset]
  · exact hs.laid.concat hoffset.ge (hsize ▸ hpart.size)
  · exact fun p hp => (List.mem_append.mp hp).elim (hs.parts p) fun hp =>
      List.mem_singleton.mp hp ▸ hok
  · rw [← hname]
    exact hs.resolves.concat hnew ⟨hs.length.symm, hresolves⟩

/-- The partitions lie without a gap from offset `0` within the memory, each with its items, and
every partition and item is found under its name. -/
structure Mmap.Layout (otp_size : ℤ) (m : Mmap) : Prop where
  contiguous : ∀ i part, m.partitions[i]? = some part →
    part.offset = ((m.partitions.take i).map PlacedPart.size).sum
  laid : Laid PlacedPart.offset PlacedPart.size 0 otp_size m.partitions
  parts : ∀ part ∈ m.partitions, part.Ok
  get_part : ∀ part ∈ m.partitions, get_part m part.name = some part
  get_item : ∀ part ∈ m.partitions, ∀ item ∈ part.items,
    get_item m part.name item.name = some item

theorem Mmap.Ok.layout {j : ℕ} {m : Mmap} (hm : m.Ok j) {otp_size : ℤ}
    (hfits : m.offset ≤ otp_size) : m.Layout otp_size where
  contiguous := hm.contiguous
  laid := hm.laid.mono hfits
  parts := hm.parts
  get_part part hpart := by
    obtain ⟨i, hi⟩ := List.mem_iff_getElem?.mp hpart
    obtain ⟨entry, hentry, rfl, -⟩ := hm.resolves i part hi
    simp [OtpMemMap.get_part, hentry, hi]
  get_item part hpart item hitem := by
    obtain ⟨i, hi⟩ := List.mem_iff_getElem?.mp hpart
    obtain ⟨k, hk⟩ := List.mem_iff_getElem?.mp hitem
    obtain ⟨entry, hentry, rfl, hitems⟩ := hm.resolves i part hi
    obtain ⟨idx, hidx, rfl⟩ := hitems k item hk
    simp [OtpMemMap.get_item, hentry, hidx, hi, hk]

/-- What a map is made of. -/
theorem exists_of_init {config : ConfigInput} {m : Mmap} (h : init config = .ok m) :
    ∃ otp_size parts parts', _validate_otp config.otp = .ok otp_size ∧
      config.partitions.mapM (_validate_part config.key_names) = .ok parts ∧
      _dist_unused otp_size (parts.map Part.size).sum parts = .ok parts' ∧
      parts'.zipIdx.foldlM addPart { offset := 0, part_dict := [], partitions := [] } = .ok m ∧
      m.offset ≤ otp_size := by
  obtain ⟨otp_size, hotp, h⟩ := bind_ok h
  obtain ⟨parts, hparts, h⟩ := bind_ok h
  obtain ⟨parts', hdist, h⟩ := bind_ok h
  obtain ⟨s, hadd, h⟩ := bind_ok h
  split_ifs at h with hfits
  cases h
  exact ⟨otp_size, parts, parts', hotp, hparts, hdist, hadd, not_lt.mp hfits⟩

/-- A partition with an item and a digest that takes all of a memory of 35 bytes but three. -/
def smallConfig : ConfigInput where
  otp := { depth := some (.int 35), width := some (.int 1) }
  key_names := []
  partitions := [
    { name := some "VENDOR_TEST", variant := some "Unbuffered", secret := none,
      sw_digest := some (.bool true), hw_digest := none, bkout_type := some (.bool false),
      ecc_fatal := some (.bool false), write_lock := some "digest", read_lock := some "csr",
      key_sel := none, absorb := some (.bool true), size := none,
      items := [{ name := some "SCRATCH", size := some (.int 3),
                  isdigest := some (.bool false), ismubi := some (.bool false) }] }]

def smallMap : Mmap where
  offset := 32
  part_dict := [("VENDOR_TEST", (0, [("SCRATCH", 0), ("VENDOR_TEST_DIGEST", 1)]))]
  partitions := [
    { name := "VENDOR_TEST", digest := true, offset := 0, size := 32,
      items := [
        { name := "SCRATCH", size := 3, isdigest := false, offset := 0 },
        { name := "VENDOR_TEST_DIGEST", size := 8, isdigest := true, offset := 24 }] }]

theorem init_smallConfig : init smallConfig = .ok smallMap := by
  have h : (init smallConfig).toOption = some smallMap := by decide +kernel
  cases hinit : init smallConfig with
  | error e =>
    rw [hinit] at h
    cases h
  | ok m =>
    rw [hinit] at h
    rw [Option.some.inj h]

theorem nonNegative_smallConfig : NonNegative smallConfig := by
  simp [NonNegative, smallConfig, NonNeg]

/-- Every configuration without negative sizes that is accepted has a well-formed map. -/
theorem otp_map_layout {config : ConfigInput} (hn : NonNegative config) {m : Mmap}
    (h : init config = .ok m) :
    ∃ otp_size, _validate_otp config.otp = .ok otp_size ∧ m.Layout otp_size := by
  obtain ⟨otp_size, parts, parts', hotp, hparts, hdist, hadd, hfits⟩ := exists_of_init h
  have hgrown : ∀ part ∈ parts', PartOk part := by
    obtain ⟨leftover_blocks, -, hdist⟩ := bind_ok hdist
    cases hdist
    exact dist_blocks_ok leftover_blocks _ (validate_parts_ok hn hparts)
  have hm : m.Ok parts'.length := by
    apply foldlM_zipIdx_invariant ?_ ?_ hadd
    · exact fun j part hpart b b' hb hb' =>
        addPart_ok (hgrown part (List.mem_of_getElem? hpart)) hb hb'
    · exact ⟨rfl, rfl, fun i part hp => (by cases hp), .nil 0, by simp,
        fun i part hp => (by cases hp)⟩
  exact ⟨otp_size, hotp, hm.layout hfits⟩

theorem otp_map_layout_smallConfig :
    ∃ otp_size, _validate_otp smallConfig.otp = .ok otp_size ∧ smallMap.Layout otp_size :=
  otp_map_layout nonNegative_smallConfig init_smallConfig

/-! ### The memory that stays unused -/

theorem roundFloat_of_lt {n : ℕ} (hn : n < 2 ^ 53) : roundFloat n = n := by
  have hulp : n.size - 53 = 0 := by
    have := Nat.size_le.mpr hn
    omega
  rw [roundFloat, hulp]
  simp [Nat.mod_one]

theorem blocksOf_of_lt {n : ℤ} (hn : 0 ≤ n) (hlt : n < 2 ^ 53) :
    blocksOf n = .ok (n / SCRAMBLE_BLOCK_WIDTH) := by
  lift n to ℕ using hn
  have hlt' : n < 2 ^ 53 := by exact_mod_cast hlt
  have hquotient : ¬2 ^ FLOAT_EXPONENT ≤ n / SCRAMBLE_BLOCK_WIDTH :=
    not_le.mpr ((Nat.div_le_self _ _).trans_lt (hlt'.trans (Nat.pow_lt_pow_right (by decide)
      (show 53 < FLOAT_EXPONENT by decide))))
  rw [blocksOf, Int.natAbs_natCast, roundFloat_of_lt hlt', if_neg hquotient]
  obtain rfl | hpos := Nat.eq_zero_or_pos n
  · rfl
  · rw [Int.sign_eq_one_of_pos (by exact_mod_cast hpos), one_mul]
    rfl

theorem sum_modify_grow {parts : List Part} {i : ℕ} (hi : i < parts.length) :
    ((parts.modify i Part.grow).map Part.size).sum =
      (parts.map Part.size).sum + SCRAMBLE_BLOCK_WIDTH := by
  induction parts generalizing i with
  | nil => exact absurd hi (Nat.not_lt_zero i)
  | cons part parts ih =>
    cases i with
    | zero =>
      simp only [List.modify_zero_cons, List.map_cons, List.sum_cons, Part.grow]
      omega
    | succ i =>
      simp only [List.modify_succ_cons, List.map_cons, List.sum_cons,
        ih (Nat.lt_of_succ_lt_succ hi)]
      omega

theorem sum_dist_blocks {num_blocks : ℤ} {sponge : List ℕ} (hsponge : sponge ≠ [])
    {parts : List Part} (hlt : ∀ i ∈ sponge, i < parts.length) :
    ((_dist_blocks num_blocks sponge parts).map Part.size).sum =
      (parts.map Part.size).sum + SCRAMBLE_BLOCK_WIDTH * num_blocks.toNat := by
  rw [_dist_blocks, if_neg hsponge]
  suffices h : ∀ n, ((List.range n).foldl (fun parts i =>
      parts.modify (sponge.getD (i % sponge.length) 0) Part.grow) parts).length = parts.length ∧
      (((List.range n).foldl (fun parts i =>
        parts.modify (sponge.getD (i % sponge.length) 0) Part.grow) parts).map Part.size).sum =
        (parts.map Part.size).sum + SCRAMBLE_BLOCK_WIDTH * n from (h _).2
  intro n
  induction n with
  | zero => simp
  | succ n ih =>
    have hmod : n % sponge.length < sponge.length :=
      Nat.mod_lt n (List.length_pos_iff.mpr hsponge)
    have hmem : sponge.getD (n % sponge.length) 0 ∈ sponge := by
      rw [List.getD_eq_getElem _ _ hmod]
      exact List.getElem_mem hmod
    rw [List.range_succ, List.foldl_append, List.foldl_cons, List.foldl_nil]
    refine ⟨by rw [List.length_modify, ih.1], ?_⟩
    rw [sum_modify_grow (by rw [ih.1]; exact hlt _ hmem), ih.2]
    push_cast
    ring

theorem mem_sponge_parts {parts : List Part} {i : ℕ} :
    i ∈ sponge_parts parts ↔ ∃ part, parts[i]? = some part ∧ part.absorb = true := by
  simp only [sponge_parts, List.mem_map, List.mem_filter, Prod.exists, exists_eq_right,
    List.mem_zipIdx_iff_getElem?]

/-- The first partitions are placed, with their sizes. -/
structure Mmap.Sized (parts : List Part) (j : ℕ) (m : Mmap) : Prop where
  sizes : m.partitions.map PlacedPart.size = (parts.take j).map Part.size
  offset : m.offset = (m.partitions.map PlacedPart.size).sum

theorem Mmap.Sized.addPart {parts : List Part} {j : ℕ} {m m' : Mmap} (hm : m.Sized parts j)
    {part : Part} (hpart : parts[j]? = some part) (h : addPart m (part, j) = .ok m') :
    m'.Sized parts (j + 1) := by
  unfold OtpMemMap.addPart at h
  split_ifs at h
  obtain ⟨⟨placed, item_dict⟩, hplaced, h⟩ := bind_ok h
  cases h
  obtain ⟨_, -, hplaced⟩ := bind_ok hplaced
  obtain ⟨_, -, hplaced⟩ := bind_ok hplaced
  obtain ⟨_, -, hplaced⟩ := bind_ok hplaced
  obtain ⟨_, -, hplaced⟩ := bind_ok hplaced
  cases hplaced
  constructor
  · rw [List.map_append, hm.sizes, List.take_add_one, hpart, List.map_append]
    rfl
  · rw [List.map_append, List.sum_append, hm.offset]
    simp

theorem validate_part_absorb {key_names : List String} {input : PartInput} {part : Part}
    (h : _validate_part key_names input = .ok part) :
    part.absorb = (input.absorb.getD (.bool false)).truth := by
  obtain ⟨secret, -, h⟩ := bind_ok h
  obtain ⟨sw_digest, -, h⟩ := bind_ok h
  obtain ⟨hw_digest, -, h⟩ := bind_ok h
  obtain ⟨bkout_type, -, h⟩ := bind_ok h
  obtain ⟨_, -, h⟩ := bind_ok h
  obtain ⟨ecc_fatal, -, h⟩ := bind_ok h
  obtain ⟨_, -, h⟩ := bind_ok h
  obtain ⟨_, -, h⟩ := bind_ok h
  obtain ⟨items, -, h⟩ := bind_ok h
  obtain ⟨size, -, h⟩ := bind_ok h
  split_ifs at h
  · cases h
  cases h
  rfl

/-- Where a partition absorbs unused blocks, less than a block of the memory stays unused. -/
theorem otp_map_fills {config : ConfigInput} (hn : NonNegative config) {m : Mmap}
    (h : init config = .ok m) {otp_size : ℤ} (hotp : _validate_otp config.otp = .ok otp_size)
    (hsize : otp_size < 2 ^ 53)
    (hsponge : ∃ part ∈ config.partitions, (part.absorb.getD (.bool false)).truth = true) :
    (m.partitions.map PlacedPart.size).sum ≤ otp_size ∧
      otp_size < (m.partitions.map PlacedPart.size).sum + SCRAMBLE_BLOCK_WIDTH := by
  obtain ⟨otp_size', parts, parts', hotp', hparts, hdist, hadd, hfits⟩ := exists_of_init h
  obtain rfl : otp_size' = otp_size := Except.ok.inj (hotp'.symm.trans hotp)
  have hallocated : 0 ≤ (parts.map Part.size).sum :=
    sum_nonneg fun part hpart => (validate_parts_ok hn hparts part hpart).size
  have hm : m.Sized parts' parts'.length := by
    apply foldlM_zipIdx_invariant ?_ ?_ hadd
    · exact fun j part hpart b b' hb hb' => hb.addPart hpart hb'
    · exact ⟨rfl, rfl⟩
  obtain ⟨hsizes, hoffset⟩ := hm
  rw [List.take_length] at hsizes
  obtain ⟨input, hinput, habsorb⟩ := hsponge
  obtain ⟨part, hpart, hvalid⟩ := exists_mem_mapM hparts hinput
  have hsponge' : sponge_parts parts ≠ [] := by
    obtain ⟨i, hi⟩ := List.mem_iff_getElem?.mp hpart
    exact List.ne_nil_of_mem
      (mem_sponge_parts.mpr ⟨part, hi, (validate_part_absorb hvalid).trans habsorb⟩)
  obtain ⟨leftover_blocks, hleftover, hdist⟩ := bind_ok hdist
  cases hdist
  have hsum : ((_dist_blocks leftover_blocks (sponge_parts parts) parts).map Part.size).sum =
      (parts.map Part.size).sum + SCRAMBLE_BLOCK_WIDTH * leftover_blocks.toNat := by
    refine sum_dist_blocks hsponge' fun i hi => ?_
    obtain ⟨part, hi, -⟩ := mem_sponge_parts.mp hi
    exact (List.getElem?_eq_some_iff.mp hi).1
  rw [← hsizes, ← hoffset] at hsum
  simp only [SCRAMBLE_BLOCK_WIDTH] at hsum ⊢
  have hle : (parts.map Part.size).sum ≤ otp_size' := by omega
  rw [_avail_blocks, blocksOf_of_lt (by omega) (by omega)] at hleftover
  cases hleftover
  rw [← hoffset]
  simp only [SCRAMBLE_BLOCK_WIDTH] at hsum
  omega

theorem otp_map_fills_smallConfig :
    (smallMap.partitions.map PlacedPart.size).sum ≤ 35 ∧
      35 < (smallMap.partitions.map PlacedPart.size).sum + SCRAMBLE_BLOCK_WIDTH :=
  otp_map_fills nonNegative_smallConfig init_smallConfig rfl (by decide)
    ⟨_, List.mem_singleton_self _, rfl⟩

end SecureBoot.OtpMemMap
