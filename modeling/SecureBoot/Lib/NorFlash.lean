import Mathlib.Data.Nat.Bitwise
import Mathlib.Order.Interval.Finset.Nat

/-! A serial NOR flash: a chip that takes commands of an opcode, an address and data. Erasing sets
the aligned block around the address to ones, programming clears bits inside one page of 256 bytes
and wraps around at its end. Both need the write enable latch, clear it, and keep the chip busy
for some polls of its status. -/

namespace NorFlash

abbrev Octet := BitVec 8

abbrev opProgram : Octet := 0x02
abbrev opWriteDisable : Octet := 0x04
abbrev opReadStatus : Octet := 0x05
abbrev opWriteEnable : Octet := 0x06
abbrev opEnter4b : Octet := 0xb7
abbrev opEraseChip : Octet := 0xc7
abbrev opExit4b : Octet := 0xe9

/-- A chip: its size, the blocks that its erase opcodes erase, as exponents of two, and for how
many polls its operations keep it busy. -/
structure Chip where
  size : ℕ
  eraseExponent : Octet → Option ℕ
  latency : ℕ → ℕ
  page_dvd : 256 ∣ size
  block_dvd : ∀ op n, eraseExponent op = some n → 2 ^ n ∣ size

structure State where
  contents : ℕ → Octet
  fourByte : Bool
  writeEnabled : Bool
  busy : ℕ
  operations : ℕ

/-! ### Operations on the contents -/

def eraseBlock (n a : ℕ) (contents : ℕ → Octet) (x : ℕ) : Octet :=
  if x / 2 ^ n = a / 2 ^ n then 0xff else contents x

/-- The page buffer, which data fills from an offset on, around its end. -/
def load : ℕ → List Octet → (ℕ → Octet) → ℕ → Octet
  | _, [], buffer => buffer
  | offset, b :: data, buffer =>
    load (offset + 1) data (Function.update buffer (offset % 256) b)

def program (a : ℕ) (data : List Octet) (contents : ℕ → Octet) (x : ℕ) : Octet :=
  if x / 256 = a / 256 then
    contents x &&& load a data (fun _ => 0xff) (x % 256)
  else contents x

/-! ### Commands -/

/-- The address behind an opcode, in three or four bytes, and what follows it. -/
def decodeAddress : Bool → List Octet → Option (ℕ × List Octet)
  | false, a₂ :: a₁ :: a₀ :: rest =>
    some (a₂.toNat * 2 ^ 16 + a₁.toNat * 2 ^ 8 + a₀.toNat, rest)
  | true, a₃ :: a₂ :: a₁ :: a₀ :: rest =>
    some (a₃.toNat * 2 ^ 24 + a₂.toNat * 2 ^ 16 + a₁.toNat * 2 ^ 8 + a₀.toNat, rest)
  | _, _ => none

/-- An operation on the contents, from a chip that is ready for it. -/
def State.operate (s : State) (chip : Chip) (f : (ℕ → Octet) → ℕ → Octet) : State :=
  { s with
    contents := f s.contents
    writeEnabled := false
    busy := chip.latency s.operations
    operations := s.operations + 1 }

/-- A write command of a chip that is not busy. -/
def command (chip : Chip) (op : Octet) (args : List Octet) (s : State) : State :=
  if op = opWriteEnable then { s with writeEnabled := true }
  else if op = opWriteDisable then { s with writeEnabled := false }
  else if op = opEnter4b then { s with fourByte := true }
  else if op = opExit4b then { s with fourByte := false }
  else if s.writeEnabled = false then s
  else if op = opEraseChip then s.operate chip fun _ _ => 0xff
  else match decodeAddress s.fourByte args with
    | none => s
    | some (a, data) =>
      if op = opProgram then
        if data = [] then s else s.operate chip (program (a % chip.size) data)
      else match chip.eraseExponent op, data with
        | some n, [] => s.operate chip (eraseBlock n (a % chip.size))
        | _, _ => s

def status (s : State) : Octet :=
  (if s.busy = 0 then 0 else 1) ||| (if s.writeEnabled then 2 else 0)

/-- A transaction: the bytes that are sent, and the number of bytes that are read behind them. A
busy chip answers to polls of its status only. -/
def transact (chip : Chip) (out : List Octet) (n : ℕ) (s : State) : List Octet × State :=
  match out with
  | [] => (List.replicate n 0xff, s)
  | op :: args =>
    if op = opReadStatus then (List.replicate n (status s), { s with busy := s.busy - n })
    else if s.busy ≠ 0 then (List.replicate n 0xff, s)
    else (List.replicate n 0xff, command chip op args s)

/-- The opcodes that no erase command may have. -/
def reserved : List Octet :=
  [opProgram, opWriteDisable, opReadStatus, opWriteEnable, opEnter4b, opEraseChip, opExit4b]

/-! ### What the operations do -/

variable {chip : Chip} {s : State} {op : Octet} {args data : List Octet} {a n x : ℕ}
  {contents : ℕ → Octet}

theorem load_of_ge (h : a % 256 + data.length ≤ 256) (buffer : ℕ → Octet) {i : ℕ}
    (hi : i < a % 256 ∨ a % 256 + data.length ≤ i) : load a data buffer i = buffer i := by
  induction data generalizing a buffer with
  | nil => rfl
  | cons b data ih =>
    rw [List.length_cons] at h hi
    have hne : i ≠ a % 256 := by omega
    by_cases hlast : a % 256 + 1 = 256
    · obtain rfl : data = [] := List.eq_nil_of_length_eq_zero (by omega)
      exact Function.update_of_ne hne _ _
    · have hnext : (a + 1) % 256 = a % 256 + 1 := by omega
      rw [load, ih (by omega) _ (by omega)]
      exact Function.update_of_ne hne _ _

theorem load_apply (h : a % 256 + data.length ≤ 256) (buffer : ℕ → Octet) {k : ℕ}
    (hk : k < data.length) : load a data buffer (a % 256 + k) = data.getD k 0xff := by
  induction data generalizing a buffer k with
  | nil => exact absurd hk (Nat.not_lt_zero k)
  | cons b data ih =>
    rw [List.length_cons] at h hk
    rw [load]
    cases k with
    | zero =>
      by_cases hlast : a % 256 + 1 = 256
      · obtain rfl : data = [] := List.eq_nil_of_length_eq_zero (by omega)
        exact Function.update_self _ _ _
      · rw [load_of_ge (by omega) _ (.inl (by omega))]
        exact Function.update_self _ _ _
    | succ k =>
      have hnext : (a + 1) % 256 = a % 256 + 1 := by omega
      have hget := ih (a := a + 1) (by omega) (Function.update buffer (a % 256) b)
        (show k < data.length by omega)
      rw [hnext] at hget
      rw [← Nat.add_assoc, Nat.add_right_comm, hget]
      rfl

/-- Data is anded to the contents from an address on, wherever pages end. -/
def overlay (a : ℕ) (data : List Octet) (contents : ℕ → Octet) (x : ℕ) : Octet :=
  if a ≤ x ∧ x < a + data.length then contents x &&& data.getD (x - a) 0xff else contents x

theorem and_ones (b : Octet) : b &&& 0xff = b := BitVec.and_allOnes

/-- Inside one page, data is programmed where it is sent to. -/
theorem program_eq_overlay (h : a % 256 + data.length ≤ 256) :
    program a data = overlay a data := by
  funext contents x
  have hmod := Nat.div_add_mod a 256
  unfold program overlay
  by_cases hx : a ≤ x ∧ x < a + data.length
  · obtain ⟨k, rfl⟩ := Nat.exists_eq_add_of_le hx.1
    have hdiv : (a + k) / 256 = a / 256 := by omega
    have hoff : (a + k) % 256 = a % 256 + k := by omega
    rw [if_pos hdiv, if_pos hx, hoff, load_apply h _ (by omega), Nat.add_sub_cancel_left]
  · rw [if_neg hx]
    split_ifs with hpage
    · rw [load_of_ge h _ (by omega), and_ones]
    · rfl

/-- Ones change nothing. -/
theorem overlay_of_erased (h : ∀ b ∈ data, b = 0xff) : overlay a data contents = contents := by
  funext x
  unfold overlay
  split_ifs with hx
  · rw [List.getD_eq_getElem _ _ (by omega), h _ (List.getElem_mem _), and_ones]
  · rfl

theorem overlay_append (a : ℕ) (l₁ l₂ : List Octet) (contents : ℕ → Octet) :
    overlay (a + l₁.length) l₂ (overlay a l₁ contents) = overlay a (l₁ ++ l₂) contents := by
  funext x
  unfold overlay
  rw [List.length_append]
  by_cases hlow : x < a + l₁.length
  · have hhigh : ¬ (a + l₁.length ≤ x ∧ x < a + l₁.length + l₂.length) := by omega
    rw [if_neg hhigh]
    refine if_ctx_congr (by omega) (fun hx => ?_) fun _ => rfl
    rw [List.getD_append _ _ _ _ (by omega)]
  · have hfirst : ¬ (a ≤ x ∧ x < a + l₁.length) := by omega
    rw [if_neg hfirst]
    refine if_ctx_congr (by omega) (fun hx => ?_) fun _ => rfl
    rw [List.getD_append_right _ _ _ _ (by omega), Nat.sub_sub]

theorem overlay_of_ge {x : ℕ} (h : a + data.length ≤ x) :
    overlay a data contents x = contents x :=
  if_neg fun hx => absurd hx.2 (not_lt.2 h)

/-- Whether data from an address on has anything to program in a range of addresses. -/
def HasData (a : ℕ) (data : List Octet) (first last : ℕ) : Prop :=
  ∃ i, data.getD i 0xff ≠ 0xff ∧ first ≤ a + i ∧ a + i < last

theorem lt_of_getD_ne {i : ℕ} (h : data.getD i 0xff ≠ 0xff) : i < data.length :=
  not_le.1 fun hle => h (List.getD_eq_default _ _ hle)

theorem hasData_append {first last : ℕ} (a : ℕ) (l₁ l₂ : List Octet) :
    HasData a (l₁ ++ l₂) first last ↔
      HasData a l₁ first last ∨ HasData (a + l₁.length) l₂ first last := by
  constructor
  · rintro ⟨i, hi, hrange⟩
    by_cases hlt : i < l₁.length
    · rw [List.getD_append _ _ _ _ hlt] at hi
      exact .inl ⟨i, hi, hrange⟩
    · rw [List.getD_append_right _ _ _ _ (not_lt.1 hlt)] at hi
      exact .inr ⟨i - l₁.length, hi, by omega⟩
  · rintro (⟨i, hi, hrange⟩ | ⟨i, hi, hrange⟩)
    · refine ⟨i, ?_, hrange⟩
      rwa [List.getD_append _ _ _ _ (lt_of_getD_ne hi)]
    · refine ⟨l₁.length + i, ?_, by omega⟩
      rwa [List.getD_append_right _ _ _ _ (Nat.le_add_right _ _), Nat.add_sub_cancel_left]

/-- Data inside one page that carries something behind the start of a page is all behind it. -/
theorem HasData.le {first last : ℕ} (h : HasData a data first last)
    (hpage : a % 256 + data.length ≤ 256) (hfirst : 256 ∣ first) : first ≤ a := by
  obtain ⟨i, hi, hle, -⟩ := h
  have hlt := lt_of_getD_ne hi
  omega

theorem hasData_of_not_erased {first last : ℕ} (h : ¬ ∀ b ∈ data, b = 0xff) (hfirst : first ≤ a)
    (hlast : a + data.length ≤ last) : HasData a data first last := by
  push Not at h
  obtain ⟨b, hb, hne⟩ := h
  obtain ⟨i, hi, rfl⟩ := List.getElem_of_mem hb
  exact ⟨i, by rwa [List.getD_eq_getElem _ _ hi], by omega, by omega⟩

theorem transact_writeEnable (h : s.busy = 0) :
    (transact chip [opWriteEnable] 0 s).2 = { s with writeEnabled := true } := by
  rw [transact, if_neg (by decide), if_neg (not_not.2 h)]
  rfl

/-- An erase command of a chip that is ready for it. -/
theorem transact_erase (chip : Chip) (hop : op ∉ reserved) (hbusy : s.busy = 0)
    (hw : s.writeEnabled = true) (ha : decodeAddress s.fourByte args = some (a, [])) :
    (transact chip (op :: args) 0 s).2 = match chip.eraseExponent op with
      | some n => s.operate chip (eraseBlock n (a % chip.size))
      | none => s := by
  simp only [reserved, List.mem_cons, List.not_mem_nil, or_false, not_or] at hop
  obtain ⟨h₁, h₂, h₃, h₄, h₅, h₆, h₇⟩ := hop
  rw [transact, if_neg h₃, if_neg (not_not.2 hbusy)]
  change command chip op args s = _
  rw [command, if_neg h₄, if_neg h₂, if_neg h₅, if_neg h₇, if_neg (by rw [hw]; decide),
    if_neg h₆, ha]
  change (if op = opProgram then _ else _) = _
  rw [if_neg h₁]
  cases chip.eraseExponent op <;> rfl

/-- A page program command of a chip that is ready for it. -/
theorem transact_program (chip : Chip) (hbusy : s.busy = 0) (hw : s.writeEnabled = true)
    (hdata : data ≠ []) (ha : decodeAddress s.fourByte args = some (a, data)) :
    (transact chip (opProgram :: args) 0 s).2 =
      s.operate chip (program (a % chip.size) data) := by
  rw [transact, if_neg (by decide), if_neg (not_not.2 hbusy)]
  change command chip opProgram args s = _
  rw [command, if_neg (by decide), if_neg (by decide), if_neg (by decide), if_neg (by decide),
    if_neg (by rw [hw]; decide), if_neg (by decide), ha]
  exact if_neg hdata

/-! ### Blocks that make up a range -/

/-- The blocks of size `S` around `m` addresses are exactly a range. -/
def Covers (S m : ℕ) (f : ℕ → ℕ) (first length : ℕ) : Prop :=
  ∀ x, (∃ k < m, x / S = f k / S) ↔ first ≤ x ∧ x < first + length

section

variable {S m first length step : ℕ} {f : ℕ → ℕ}

theorem Covers.dvd_first (h : Covers S m f first length) (hpos : 0 < length) : S ∣ first := by
  obtain ⟨k, hk, hfirst⟩ := (h first).2 ⟨le_rfl, Nat.lt_add_of_pos_right hpos⟩
  have hstart : S * (first / S) / S = first / S := by
    rcases Nat.eq_zero_or_pos S with rfl | hS
    · simp only [Nat.div_zero, Nat.mul_zero]
    · exact Nat.mul_div_cancel_left _ hS
  have hle := ((h (S * (first / S))).1 ⟨k, hk, hstart.trans hfirst⟩).1
  exact ⟨first / S, Nat.le_antisymm hle (Nat.mul_div_le first S)⟩

theorem Covers.dvd_last (h : Covers S m f first length) (hpos : 0 < length) (hS : 0 < S) :
    S ∣ first + length := by
  obtain ⟨k, hk, hlast⟩ := (h (first + length - 1)).2 ⟨by omega, by omega⟩
  have hdiv := Nat.div_add_mod (first + length - 1) S
  have hmod := Nat.mod_lt (first + length - 1) hS
  have hend : (S * ((first + length - 1) / S) + (S - 1)) / S = (first + length - 1) / S := by
    rw [Nat.mul_add_div hS, Nat.div_eq_of_lt (Nat.sub_lt hS Nat.one_pos), Nat.add_zero]
  have hlt := ((h _).1 ⟨k, hk, hend.trans hlast⟩).2
  refine ⟨(first + length - 1) / S + 1, ?_⟩
  rw [Nat.mul_succ]
  omega

/-- There are at least as many addresses as blocks. -/
theorem Covers.blocks_le (h : Covers S m f first length) (hS : 0 < S) {b q : ℕ}
    (hfirst : first = S * b) (hlength : length = S * q) : q ≤ m := by
  have hsub : Finset.Ico b (b + q) ⊆ (Finset.range m).image (f · / S) := by
    intro i hi
    rw [Finset.mem_Ico] at hi
    have hmem : first ≤ S * i ∧ S * i < first + length := by
      rw [hfirst, hlength, ← Nat.mul_add]
      exact ⟨Nat.mul_le_mul_left S hi.1, (Nat.mul_lt_mul_left hS).2 hi.2⟩
    obtain ⟨k, hk, hblock⟩ := (h (S * i)).2 hmem
    rw [Nat.mul_div_cancel_left _ hS] at hblock
    exact Finset.mem_image.2 ⟨k, Finset.mem_range.2 hk, hblock.symm⟩
  have hcard := (Finset.card_le_card hsub).trans Finset.card_image_le
  rwa [Nat.card_Ico, Finset.card_range, Nat.add_sub_cancel_left] at hcard

/-- Blocks that make up a range are not smaller than the steps between their addresses. -/
theorem Covers.step_le (h : Covers S m f first length) (hS : 0 < S) (hpos : 0 < length)
    (hlength : length = step * m) : step ≤ S := by
  obtain ⟨b, hb⟩ := h.dvd_first hpos
  obtain ⟨c, hc⟩ := h.dvd_last hpos hS
  have hq : length = S * (c - b) := by
    rw [Nat.mul_sub, ← hc, ← hb, Nat.add_sub_cancel_left]
  have hle := h.blocks_le hS hb hq
  have hm : 0 < m := Nat.pos_of_ne_zero fun h0 => by
    rw [h0, Nat.mul_zero] at hlength
    omega
  refine Nat.le_of_mul_le_mul_right ?_ hm
  rw [← hlength, hq]
  exact Nat.mul_le_mul_left S hle

/-- Blocks around addresses below a power of two end below it, or are the first block. -/
theorem Covers.last_le {n w : ℕ} (h : Covers (2 ^ n) m f first length) (hpos : 0 < length)
    (hf : ∀ k < m, f k < 2 ^ w) : first + length ≤ max (2 ^ w) (2 ^ n) := by
  obtain ⟨k, hk, hlast⟩ := (h (first + length - 1)).2 ⟨by omega, by omega⟩
  have hS : 0 < 2 ^ n := Nat.two_pow_pos n
  have hx : first + length - 1 < max (2 ^ w) (2 ^ n) := by
    rcases Nat.le_total n w with hle | hle
    · have hpow : 2 ^ w = 2 ^ (w - n) * 2 ^ n := by rw [← Nat.pow_add, Nat.sub_add_cancel hle]
      refine lt_max_of_lt_left ?_
      rw [hpow, ← Nat.div_lt_iff_lt_mul hS, hlast, Nat.div_lt_iff_lt_mul hS, ← hpow]
      exact hf k hk
    · have hzero : f k / 2 ^ n = 0 :=
        Nat.div_eq_of_lt ((hf k hk).trans_le (Nat.pow_le_pow_right Nat.two_pos hle))
      exact lt_max_of_lt_right ((Nat.div_eq_zero_iff_lt hS).1 (hlast.trans hzero))
  omega

/-- Addresses in steps no larger than the blocks meet every block of an aligned range. -/
theorem covers_of_dvd (hS : 0 < S) (hstep : 0 < step) (hfirst : S ∣ first) (hlength : S ∣ length)
    (hle : step ≤ S) (hm : length = step * m) (hf : ∀ k < m, f k = first + k * step) :
    Covers S m f first length := by
  obtain ⟨b, rfl⟩ := hfirst
  obtain ⟨q, hq⟩ := hlength
  intro x
  have hx := Nat.div_add_mod x S
  have hxlt := Nat.mod_lt x hS
  constructor
  · rintro ⟨k, hk, hblock⟩
    rw [hf k hk, Nat.mul_add_div hS] at hblock
    have hlt : k * step < S * q := by
      rw [← hq, hm, Nat.mul_comm]
      exact (Nat.mul_lt_mul_left hstep).2 hk
    have hdiv : k * step / S < q := Nat.div_lt_of_lt_mul hlt
    have hb : S * b ≤ S * (x / S) := Nat.mul_le_mul_left S (hblock ▸ Nat.le_add_right _ _)
    have hlast : S * (x / S) + S ≤ S * b + S * q := by
      rw [← Nat.mul_succ, ← Nat.mul_add]
      exact Nat.mul_le_mul_left S (by omega)
    omega
  · rintro ⟨hge, hlt⟩
    have hblock : b ≤ x / S := (Nat.le_div_iff_mul_le hS).2 (by rwa [Nat.mul_comm])
    have hlast : x / S < b + q := Nat.div_lt_of_lt_mul (by rw [Nat.mul_add]; omega)
    obtain ⟨d, hd⟩ := Nat.exists_eq_add_of_le hblock
    -- the first address that is not before the block
    have hceil := Nat.div_add_mod (S * d + (step - 1)) step
    have hceillt := Nat.mod_lt (S * d + (step - 1)) hstep
    generalize (S * d + (step - 1)) / step = k at hceil
    have hlower : S * d ≤ k * step := by
      rw [Nat.mul_comm k]
      omega
    have hupper : k * step < S * d + S := by
      rw [Nat.mul_comm k]
      omega
    have hk : k < m := by
      have hend : S * d + S ≤ S * q := by
        rw [← Nat.mul_succ]
        exact Nat.mul_le_mul_left S (by omega)
      refine Nat.lt_of_mul_lt_mul_right (a := step) (hupper.trans_le ?_)
      rwa [← hq, hm, Nat.mul_comm step] at hend
    refine ⟨k, hk, ?_⟩
    rw [hf k hk, Nat.mul_add_div hS, hd]
    refine congrArg (b + ·) (Nat.div_eq_of_lt_le ?_ ?_).symm
    · rwa [Nat.mul_comm]
    · rw [Nat.succ_mul, Nat.mul_comm d]
      exact hupper

end

end NorFlash
