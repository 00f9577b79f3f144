import SecureBoot.Lib.Traverse
import SecureBoot.Secded.Agreement

/-! The SECDED matrix of the life cycle state generator. A bitstring grows at the front and is read
by Python indexes: its bit `k`, counted from the end, has the index `len - 1 - k`. -/

namespace SecureBoot.LcStEnc

open Traverse

/-! ### The configuration -/

/-- A number of the configuration file, or the text of one. -/
inductive Number where
  | int (x : ℤ)
  | str (x : String)

/-- `x.isdecimal()`, of ASCII digits. -/
def isdecimal (x : String) : Bool := x.toList ≠ [] ∧ x.toList.all Char.isDigit

def check_int : Number → Except String ℤ
  | .int x => .ok x
  | .str x =>
    if isdecimal x then .ok (x.toList.foldl (fun n c => 10 * n + (c.toNat - '0'.toNat : ℕ)) 0)
    else .error s!"{x} is not a decimal number"

/-- `config['secded']` as it is read. -/
structure SecdedInput where
  data_width : Option Number
  ecc_width : Option Number
  ecc_matrix : Option (List (List Number))

/-- `config['secded']` after the validation. -/
structure Secded where
  data_width : ℤ
  ecc_width : ℤ
  ecc_matrix : List (List ℤ)
deriving DecidableEq

/-- One bit position of a row. -/
def checkPosition (total_width : ℤ) (e : Number) : Except String ℤ := do
  let e ← check_int e
  if e < 0 ∨ total_width ≤ e then throw "ECC bit position is out of bounds"
  return e

def _validate_secded (secded : SecdedInput) : Except String Secded := do
  let data_width ← check_int (secded.data_width.getD (.int 0))
  let ecc_width ← check_int (secded.ecc_width.getD (.int 0))
  let ecc_matrix := secded.ecc_matrix.getD [[]]
  let total_width := data_width + ecc_width
  if data_width % 8 ≠ 0 then throw "SECDED data width must be a multiple of 8"
  if ecc_width ≠ ecc_matrix.length then throw "ECC matrix does not have correct number of rows"
  let ecc_matrix ← ecc_matrix.mapM fun l => l.mapM (checkPosition total_width)
  return { data_width, ecc_width, ecc_matrix }

/-! ### The code -/

/-- `s[i]`: a negative index counts from the end. -/
def index (s : List Bool) (i : ℤ) : Except String Bool :=
  let i := if i < 0 then s.length + i else i
  match if 0 ≤ i then s[i.toNat]? else none with
  | some b => .ok b
  | none => .error "string index out of range"

/-- `bit ^= int(codeword[last - k])` for all `k` of a row. -/
def xorFanin (codeword : List Bool) (last : ℤ) (bit : Bool) (fanin : List ℤ) : Except String Bool :=
  fanin.foldlM (fun bit k => do return bit ^^ (← index codeword (last - k))) bit

def syndromeStep (config : Secded) (codeword syndrome : List Bool) (row : List ℤ × ℕ) :
    Except String (List Bool) := do
  let bit ← index codeword (config.ecc_width - 1 - row.2)
  let bit ← xorFanin codeword (config.ecc_width + config.data_width - 1) bit row.1
  if row.2 < syndrome.length then return syndrome.set row.2 bit
  else throw "list assignment index out of range"

def is_valid_codeword (config : Secded) (codeword : List Bool) : Except String Bool := do
  let length := codeword.length
  if (length : ℤ) ≠ config.data_width + config.ecc_width then
    throw s!"Invalid codeword length {length}"
  let syndrome ← config.ecc_matrix.zipIdx.foldlM (syndromeStep config codeword)
    (List.replicate config.ecc_width.toNat false)
  return ¬syndrome.any id

/-- The parity bit of a row is put in front. -/
def eccStep (data_width : ℤ) (codeword : List Bool) (row : List ℤ × ℕ) :
    Except String (List Bool) := do
  return (← xorFanin codeword (data_width + row.2 - 1) false row.1) :: codeword

/-- The codeword after the rows of a matrix. -/
def eccRows (data_width : ℤ) (ecc_matrix : List (List ℤ)) (codeword : List Bool) :
    Except String (List Bool) :=
  ecc_matrix.zipIdx.foldlM (eccStep data_width) codeword

def ecc_encode (config : Secded) (dataword : List Bool) : Except String (List Bool) := do
  let length := dataword.length
  if (length : ℤ) ≠ config.data_width then throw s!"Invalid codeword length {length}"
  eccRows config.data_width config.ecc_matrix dataword

/-! ### What the validation ensures -/

/-- The row counts agree and every position is one of the codeword. -/
structure InBounds (config : Secded) : Prop where
  ecc_width_eq : config.ecc_width = config.ecc_matrix.length
  position : ∀ fanin ∈ config.ecc_matrix, ∀ k ∈ fanin,
    0 ≤ k ∧ k < config.data_width + config.ecc_width

theorem checkPosition_ok {total_width : ℤ} {e : Number} {k : ℤ}
    (h : checkPosition total_width e = .ok k) : 0 ≤ k ∧ k < total_width := by
  obtain ⟨e, -, h⟩ := bind_ok h
  dsimp only at h
  split_ifs at h with hout
  · cases h
  · cases h
    omega

theorem inBounds_of_validate {secded : SecdedInput} {config : Secded}
    (h : _validate_secded secded = .ok config) : InBounds config := by
  obtain ⟨data_width, -, h⟩ := bind_ok h
  obtain ⟨ecc_width, -, h⟩ := bind_ok h
  dsimp only at h
  by_cases hmod : data_width % 8 ≠ 0
  · rw [if_pos hmod] at h
    cases h
  rw [if_neg hmod] at h
  by_cases hrows : ecc_width ≠ (secded.ecc_matrix.getD [[]]).length
  · rw [if_pos hrows] at h
    cases h
  rw [if_neg hrows] at h
  obtain ⟨ecc_matrix, hmatrix, h⟩ := bind_ok h
  cases h
  have hall := forall₂_of_mapM hmatrix
  refine ⟨?_, fun fanin hfanin k hk => ?_⟩
  · rw [← hall.length_eq]
    exact not_not.mp hrows
  · obtain ⟨l, hl⟩ := exists_of_forall₂ hall hfanin
    obtain ⟨e, he⟩ := exists_of_forall₂ (forall₂_of_mapM hl) hk
    exact checkPosition_ok he

/-! ### Bits of a codeword -/

/-- Bit `k` of a bitstring has the index `len - 1 - k`. -/
theorem index_eq {codeword : List Bool} {k : ℤ} (hk : 0 ≤ k) (hlt : k < codeword.length) :
    index codeword (codeword.length - 1 - k) = .ok (digit codeword k.toNat) := by
  have hidx : ((codeword.length : ℤ) - 1 - k).toNat = codeword.length - 1 - k.toNat := by omega
  have hget : codeword[codeword.length - 1 - k.toNat]? = some (digit codeword k.toNat) := by
    rw [digit, List.getD_eq_getElem?_getD, List.getElem?_reverse (by omega),
      List.getElem?_eq_getElem (by omega)]
    rfl
  have hpos : ¬(codeword.length : ℤ) - 1 - k < 0 := by omega
  simp only [index, if_neg hpos, if_pos (not_lt.mp hpos), hidx, hget]

/-- The exclusive or of the bits of a row. -/
def xorBits (c : ℕ → Bool) (fanin : List ℤ) (bit : Bool) : Bool :=
  fanin.foldl (fun bit k => bit ^^ c k.toNat) bit

theorem xorFanin_eq {codeword : List Bool} {fanin : List ℤ}
    (h : ∀ k ∈ fanin, 0 ≤ k ∧ k < codeword.length) (bit : Bool) :
    xorFanin codeword (codeword.length - 1) bit fanin =
      .ok (xorBits (digit codeword) fanin bit) := by
  induction fanin generalizing bit with
  | nil => rfl
  | cons k fanin ih =>
    obtain ⟨⟨hk, hlt⟩, hrest⟩ := List.forall_mem_cons.mp h
    rw [xorFanin, List.foldlM_cons, index_eq hk hlt]
    exact ih hrest _

theorem xorBits_congr {c c' : ℕ → Bool} {fanin : List ℤ} (h : ∀ k ∈ fanin, c k.toNat = c' k.toNat)
    (bit : Bool) : xorBits c fanin bit = xorBits c' fanin bit := by
  induction fanin generalizing bit with
  | nil => rfl
  | cons k fanin ih =>
    obtain ⟨hk, hrest⟩ := List.forall_mem_cons.mp h
    rw [xorBits, List.foldl_cons, hk]
    exact ih hrest _

theorem xorBits_bit (c : ℕ → Bool) (fanin : List ℤ) (bit : Bool) :
    xorBits c fanin bit = (bit ^^ xorBits c fanin false) := by
  induction fanin generalizing bit with
  | nil => exact (Bool.xor_false bit).symm
  | cons k fanin ih =>
    change xorBits c fanin (bit ^^ c k.toNat) = (bit ^^ xorBits c fanin (false ^^ c k.toNat))
    rw [ih, ih (false ^^ _), Bool.false_xor, Bool.xor_assoc]

theorem decide_odd_succ (n : ℕ) : decide ((n + 1) % 2 = 1) = !decide (n % 2 = 1) := by
  rw [← decide_not]
  exact decide_eq_decide.mpr (by omega)

/-- A flipped bit counts as often as the row names it. -/
theorem xorBits_update (c : ℕ → Bool) (p : ℕ) {fanin : List ℤ} (h : ∀ k ∈ fanin, 0 ≤ k)
    (bit : Bool) : xorBits (Function.update c p (!c p)) fanin bit =
      (xorBits c fanin bit ^^ decide (fanin.count (p : ℤ) % 2 = 1)) := by
  induction fanin generalizing bit with
  | nil => exact (Bool.xor_false bit).symm
  | cons k fanin ih =>
    obtain ⟨hk, hrest⟩ := List.forall_mem_cons.mp h
    change xorBits _ fanin (bit ^^ Function.update c p (!c p) k.toNat) =
      (xorBits c fanin (bit ^^ c k.toNat) ^^ _)
    rw [ih hrest, xorBits_bit c fanin (bit ^^ c k.toNat), xorBits_bit c fanin (bit ^^ _)]
    by_cases hp : k = p
    · subst hp
      rw [Int.toNat_natCast, Function.update_self, List.count_cons_self, decide_odd_succ]
      cases c p <;> simp
    · rw [Function.update_of_ne (by omega), List.count_cons_of_ne hp]

/-! ### Encoding -/

/-- Each row `j` names only bits that are in the string when it is computed. -/
def Ordered (data_width : ℤ) (ecc_matrix : List (List ℤ)) : Prop :=
  ∀ row ∈ ecc_matrix.zipIdx, ∀ k ∈ row.1, k < data_width + row.2

/-- The bit `data_width + j` is the exclusive or of row `j`, in a string or in a function. -/
def Parities (data_width : ℕ) (ecc_matrix : List (List ℤ)) (c : ℕ → Bool) : Prop :=
  ∀ row ∈ ecc_matrix.zipIdx, c (data_width + row.2) = xorBits c row.1 false

theorem zipIdx_concat {α : Type} (l : List α) (a : α) :
    (l ++ [a]).zipIdx = l.zipIdx ++ [(a, l.length)] := by
  rw [List.zipIdx_append, List.zipIdx_singleton, Nat.zero_add]

theorem eccRows_eq {dataword : List Bool} {ecc_matrix : List (List ℤ)}
    (hnonneg : ∀ fanin ∈ ecc_matrix, ∀ k ∈ fanin, 0 ≤ k)
    (h : Ordered dataword.length ecc_matrix) :
    ∃ codeword, eccRows dataword.length ecc_matrix dataword = .ok codeword ∧
      codeword.length = dataword.length + ecc_matrix.length ∧
      Parities dataword.length ecc_matrix (digit codeword) := by
  induction ecc_matrix using List.reverseRecOn with
  | nil => exact ⟨dataword, rfl, rfl, by simp [Parities]⟩
  | append_singleton ecc_matrix fanin ih =>
    rw [Ordered, zipIdx_concat, List.forall_mem_append, List.forall_mem_singleton] at h
    rw [List.forall_mem_append, List.forall_mem_singleton] at hnonneg
    obtain ⟨codeword, hrows, hlen, hparities⟩ := ih hnonneg.1 h.1
    have hbounds : ∀ k ∈ fanin, 0 ≤ k ∧ k < codeword.length := fun k hk =>
      ⟨hnonneg.2 k hk, by have := h.2 k hk; omega⟩
    have hlast : (dataword.length : ℤ) + ecc_matrix.length - 1 = codeword.length - 1 := by omega
    refine ⟨xorBits (digit codeword) fanin false :: codeword, ?_, ?_, ?_⟩
    · rw [eccRows, zipIdx_concat, foldlM_concat hrows, eccStep, hlast,
        xorFanin_eq hbounds]
      rfl
    · rw [List.length_cons, hlen, List.length_append]
      rfl
    · have hold : ∀ fanin' : List ℤ, (∀ k ∈ fanin', 0 ≤ k ∧ k < codeword.length) →
          xorBits (digit (xorBits (digit codeword) fanin false :: codeword)) fanin' false =
            xorBits (digit codeword) fanin' false := by
        intro fanin' hfanin'
        refine xorBits_congr (fun k hk => ?_) false
        have hk' := hfanin' k hk
        rw [digit_cons, if_neg (by omega)]
      rw [Parities, zipIdx_concat, List.forall_mem_append, List.forall_mem_singleton]
      constructor
      · intro row hrow
        have hlt : row.2 < ecc_matrix.length := List.snd_lt_of_mem_zipIdx hrow
        rw [hold, digit_cons, if_neg (by omega)]
        · exact hparities row hrow
        · exact fun k hk => ⟨hnonneg.1 row.1 (List.fst_mem_of_mem_zipIdx hrow) k hk,
            by have := h.1 row hrow k hk; omega⟩
      · rw [hold fanin hbounds, digit_cons, if_pos hlen.symm]

/-- Every row adds one bit. -/
theorem length_of_eccRows {data_width : ℤ} {dataword codeword : List Bool}
    {ecc_matrix : List (List ℤ)} (h : eccRows data_width ecc_matrix dataword = .ok codeword) :
    codeword.length = dataword.length + ecc_matrix.length := by
  induction ecc_matrix using List.reverseRecOn generalizing codeword with
  | nil =>
    cases h
    rfl
  | append_singleton ecc_matrix fanin ih =>
    rw [eccRows, zipIdx_concat, List.foldlM_append] at h
    obtain ⟨built, hbuilt, h⟩ := bind_ok h
    rw [List.foldlM_cons] at h
    obtain ⟨_, hstep, h⟩ := bind_ok h
    obtain ⟨bit, -, hcons⟩ := bind_ok hstep
    cases hcons
    cases h
    rw [List.length_cons, ih hbuilt, List.length_append]
    rfl

/-- The rows before another one are also computed. -/
theorem eccRows_take {data_width : ℤ} {dataword codeword : List Bool} {ecc_matrix : List (List ℤ)}
    (h : eccRows data_width ecc_matrix dataword = .ok codeword) (j : ℕ) :
    ∃ built, eccRows data_width (ecc_matrix.take j) dataword = .ok built := by
  rw [eccRows, ← List.take_append_drop j ecc_matrix, List.zipIdx_append, List.foldlM_append] at h
  obtain ⟨built, hbuilt, -⟩ := bind_ok h
  exact ⟨built, hbuilt⟩

/-! ### Checking -/

instance (data_width : ℕ) (ecc_matrix : List (List ℤ)) (c : ℕ → Bool) :
    Decidable (Parities data_width ecc_matrix c) :=
  inferInstanceAs (Decidable (∀ row ∈ ecc_matrix.zipIdx, _))

variable {config : Secded} {N : ℕ} {codeword : List Bool}

theorem syndrome_eq (hwidth : config.data_width = N)
    (hlen : (codeword.length : ℤ) = N + config.ecc_width) {rows : List (List ℤ)}
    (hbounds : ∀ fanin ∈ rows, ∀ k ∈ fanin, 0 ≤ k ∧ k < codeword.length) {M : ℕ}
    (hM : config.ecc_width = M) (hrows : rows.length ≤ M) :
    rows.zipIdx.foldlM (syndromeStep config codeword) (List.replicate M false) =
      .ok ((rows.zipIdx.map fun row =>
        xorBits (digit codeword) row.1 (digit codeword (N + row.2))) ++
          List.replicate (M - rows.length) false) := by
  induction rows using List.reverseRecOn with
  | nil => rfl
  | append_singleton rows fanin ih =>
    rw [List.forall_mem_append, List.forall_mem_singleton] at hbounds
    rw [List.length_append, List.length_singleton] at hrows
    have hbit : config.ecc_width - 1 - rows.length =
        codeword.length - 1 - ((N + rows.length : ℕ) : ℤ) := by push_cast; omega
    have hlast : config.ecc_width + config.data_width - 1 = codeword.length - 1 := by omega
    have hrest : M - rows.length = M - (rows.length + 1) + 1 := by omega
    have hmap : rows.length = (rows.zipIdx.map fun row =>
      xorBits (digit codeword) row.1 (digit codeword (N + row.2))).length := by
        rw [List.length_map, List.length_zipIdx]
    rw [zipIdx_concat, foldlM_concat (ih hbounds.1 (by omega)), syndromeStep, hbit,
      index_eq (by omega) (by omega)]
    change xorFanin _ _ _ fanin >>= _ = _
    rw [hlast, xorFanin_eq hbounds.2, hrest, List.replicate_succ, List.map_append,
      List.length_append, List.length_append, List.length_singleton, Int.toNat_natCast]
    change (if rows.length < _ then Except.ok (List.set _ rows.length _) else _) = _
    rw [← hmap, if_pos (by simp), List.set_append_right _ _ hmap.ge, ← hmap, Nat.sub_self,
      List.set_cons_zero, List.append_assoc]
    rfl

/-- The check of a string of the right length. -/
theorem is_valid_codeword_eq (h : InBounds config) (hwidth : config.data_width = N)
    (hlen : codeword.length = N + config.ecc_matrix.length) :
    is_valid_codeword config codeword =
      .ok (decide (Parities N config.ecc_matrix (digit codeword))) := by
  have hcast : (codeword.length : ℤ) = config.data_width + config.ecc_width := by
    rw [hlen, hwidth, h.ecc_width_eq, Nat.cast_add]
  have hbounds : ∀ fanin ∈ config.ecc_matrix, ∀ k ∈ fanin, 0 ≤ k ∧ k < codeword.length :=
    fun fanin hfanin k hk => hcast ▸ h.position fanin hfanin k hk
  rw [is_valid_codeword]
  dsimp only
  rw [if_neg (not_not.mpr hcast), h.ecc_width_eq, Int.toNat_natCast,
    syndrome_eq hwidth (by omega) hbounds h.ecc_width_eq (Nat.le_refl _)]
  refine congrArg Except.ok (decide_eq_decide.mpr ?_)
  simp only [Nat.sub_self, List.replicate_zero, List.append_nil, List.any_map, List.any_eq_true,
    not_exists, not_and, Parities]
  refine forall₂_congr fun row _ => ?_
  rw [Function.comp_apply, id, xorBits_bit]
  cases digit codeword (N + row.2) <;> cases xorBits (digit codeword) row.1 false <;> decide

/-- The string with bit `k` flipped. -/
def flipBit (codeword : List Bool) (k : ℕ) : List Bool :=
  codeword.set (codeword.length - 1 - k) !digit codeword k

theorem digit_flipBit {k : ℕ} (hk : k < codeword.length) :
    digit (flipBit codeword k) = Function.update (digit codeword) k (!digit codeword k) := by
  have hpos : codeword.length - 1 - (codeword.length - 1 - k) = k := by omega
  funext i
  rw [Function.update_apply, flipBit, digit, List.getD_eq_getElem?_getD]
  by_cases hi : i < codeword.length
  · rw [List.getElem?_reverse (by simpa using hi), List.length_set, List.getElem?_set]
    split_ifs with hidx hik hik
    · rfl
    · omega
    · omega
    · omega
    · omega
    · rw [digit, List.getD_eq_getElem?_getD, List.getElem?_reverse hi]
  · rw [List.getElem?_eq_none (by simpa using hi), if_neg (by omega), digit_of_le (by omega)]
    rfl

/-- A flipped bit stays within the code if each row agrees on it. -/
theorem parities_update_iff {ecc_matrix : List (List ℤ)} {c : ℕ → Bool}
    (hnonneg : ∀ fanin ∈ ecc_matrix, ∀ k ∈ fanin, 0 ≤ k) (h : Parities N ecc_matrix c) (p : ℕ) :
    Parities N ecc_matrix (Function.update c p !c p) ↔
      ∀ row ∈ ecc_matrix.zipIdx, p = N + row.2 ↔ row.1.count (p : ℤ) % 2 = 1 := by
  refine forall₂_congr fun row hrow => ?_
  rw [xorBits_update c p (hnonneg row.1 (List.fst_mem_of_mem_zipIdx hrow)), ← h row hrow]
  by_cases hp : p = N + row.2
  · subst hp
    rw [Function.update_self]
    cases c (N + row.2) <;> simp
  · rw [Function.update_of_ne (Ne.symm hp)]
    rw [iff_false_left hp]
    by_cases hcount : row.1.count (p : ℤ) % 2 = 1
    · rw [decide_eq_true hcount]
      cases c (N + row.2) <;> simp [hcount]
    · rw [decide_eq_false hcount, Bool.xor_false]
      exact iff_of_true rfl hcount

/-! ### Consistency -/

/-- Every row reads bits that the string has when the row is computed. -/
def ReadsComputed (config : Secded) (dataword : List Bool) : Prop :=
  ∀ row ∈ config.ecc_matrix.zipIdx, ∀ codeword,
    eccRows config.data_width (config.ecc_matrix.take row.2) dataword = .ok codeword →
      ∀ k ∈ row.1, k < codeword.length

/-- The codeword is valid, and not with a flipped bit that occurs in the matrix. -/
def Detects (config : Secded) (codeword : List Bool) : Prop :=
  is_valid_codeword config codeword = .ok true ∧
    ∀ fanin ∈ config.ecc_matrix, ∀ k ∈ fanin,
      is_valid_codeword config (flipBit codeword k.toNat) = .ok false

/-- Every data word has a codeword that tells a single error. -/
def Consistent (config : Secded) : Prop :=
  ∀ dataword : List Bool, dataword.length = config.data_width →
    ReadsComputed config dataword ∧
      ∃ codeword, ecc_encode config dataword = .ok codeword ∧ Detects config codeword

/-- A data bit that occurs at all occurs an odd number of times in some row. -/
def OddlyCovered (config : Secded) : Prop :=
  ∀ fanin ∈ config.ecc_matrix, ∀ k ∈ fanin, k < config.data_width →
    ∃ fanin' ∈ config.ecc_matrix, fanin'.count k % 2 = 1

theorem ecc_encode_eq {dataword : List Bool} (hwidth : config.data_width = N)
    (hN : dataword.length = N) :
    ecc_encode config dataword = eccRows N config.ecc_matrix dataword := by
  rw [ecc_encode]
  dsimp only
  rw [if_neg (by omega), hwidth]

/-- Which flipped bits are detected. -/
theorem detects_iff (h : InBounds config) (hwidth : config.data_width = N)
    (hlen : codeword.length = N + config.ecc_matrix.length)
    (hparities : Parities N config.ecc_matrix (digit codeword)) :
    Detects config codeword ↔ ∀ fanin ∈ config.ecc_matrix, ∀ k ∈ fanin,
      ∃ row ∈ config.ecc_matrix.zipIdx, ¬(k.toNat = N + row.2 ↔ row.1.count k % 2 = 1) := by
  rw [Detects, is_valid_codeword_eq h hwidth hlen, decide_eq_true hparities,
    eq_self, true_and]
  refine forall₂_congr fun fanin hfanin => forall₂_congr fun k hk => ?_
  have hpos := h.position fanin hfanin k hk
  have hcast := h.ecc_width_eq
  have hflip : (flipBit codeword k.toNat).length = N + config.ecc_matrix.length := by
    rw [flipBit, List.length_set, hlen]
  rw [is_valid_codeword_eq h hwidth hflip, digit_flipBit (by omega), Except.ok.injEq,
    decide_eq_false_iff_not, parities_update_iff
      (fun fanin hfanin k hk => (h.position fanin hfanin k hk).1) hparities,
    Int.toNat_of_nonneg hpos.1]
  simp only [not_forall, exists_prop]

theorem consistent_of_ordered (h : InBounds config) (hwidth : config.data_width = N)
    (hordered : Ordered N config.ecc_matrix) (hodd : OddlyCovered config) :
    Consistent config := by
  intro dataword hlength
  have hN : dataword.length = N := by omega
  constructor
  · intro row hrow built hbuilt k hk
    have hlt := hordered row hrow k hk
    have hlen := length_of_eccRows hbuilt
    have hj := List.snd_lt_of_mem_zipIdx hrow
    rw [List.length_take] at hlen
    omega
  · subst hN
    obtain ⟨codeword, hcodeword, hlen, hparities⟩ := eccRows_eq
      (fun fanin hfanin k hk => (h.position fanin hfanin k hk).1) hordered
    refine ⟨codeword, (ecc_encode_eq hwidth rfl).trans hcodeword,
      (detects_iff h hwidth hlen hparities).mpr fun fanin hfanin k hk => ?_⟩
    have hpos := h.position fanin hfanin k hk
    by_cases hdata : k < config.data_width
    · obtain ⟨fanin', hfanin', hcount⟩ := hodd fanin hfanin k hk hdata
      obtain ⟨j, hj, rfl⟩ := List.getElem_of_mem hfanin'
      refine ⟨(config.ecc_matrix[j], j), List.mk_mem_zipIdx_iff_getElem?.mpr
        (List.getElem?_eq_getElem hj), fun hiff => ?_⟩
      have heq := hiff.mpr hcount
      omega
    · have hcast := h.ecc_width_eq
      have hj : k.toNat - dataword.length < config.ecc_matrix.length := by omega
      have hmem : (config.ecc_matrix[k.toNat - dataword.length], k.toNat - dataword.length) ∈
          config.ecc_matrix.zipIdx :=
        List.mk_mem_zipIdx_iff_getElem?.mpr (List.getElem?_eq_getElem hj)
      have hnot : k ∉ config.ecc_matrix[k.toNat - dataword.length] := by
        intro hin
        have hlt := hordered _ hmem k hin
        dsimp only at hlt
        omega
      refine ⟨_, hmem, fun hiff => ?_⟩
      have hodd' := hiff.mp (by dsimp only; omega)
      rw [List.count_eq_zero_of_not_mem hnot] at hodd'
      cases hodd'

theorem ordered_of_consistent (hwidth : config.data_width = N)
    (hconsistent : Consistent config) : Ordered N config.ecc_matrix := by
  intro row hrow k hk
  obtain ⟨hreads, codeword, hcodeword, -⟩ := hconsistent (List.replicate N false)
    (by rw [List.length_replicate, hwidth])
  rw [ecc_encode_eq hwidth List.length_replicate, ← hwidth] at hcodeword
  obtain ⟨built, hbuilt⟩ := eccRows_take hcodeword row.2
  have hlt := hreads row hrow built hbuilt k hk
  have hlen := length_of_eccRows hbuilt
  have hj := List.snd_lt_of_mem_zipIdx hrow
  rw [List.length_replicate, List.length_take] at hlen
  omega

theorem oddlyCovered_of_consistent (h : InBounds config) (hwidth : config.data_width = N)
    (hconsistent : Consistent config) : OddlyCovered config := by
  have hordered := ordered_of_consistent hwidth hconsistent
  have hN : (List.replicate N false).length = N := List.length_replicate
  obtain ⟨-, codeword, hcodeword, hdetects⟩ := hconsistent (List.replicate N false)
    (by rw [hN, hwidth])
  obtain ⟨codeword', hcodeword', hlen, hparities⟩ := @eccRows_eq (List.replicate N false) _
    (fun fanin hfanin k hk => (h.position fanin hfanin k hk).1) (hN.symm ▸ hordered)
  rw [hN] at hcodeword' hlen hparities
  rw [ecc_encode_eq hwidth hN, hcodeword'] at hcodeword
  cases hcodeword
  intro fanin hfanin k hk hdata
  have hpos := h.position fanin hfanin k hk
  obtain ⟨row, hrow, hdiffer⟩ := (detects_iff h hwidth hlen hparities).mp hdetects fanin hfanin k hk
  refine ⟨row.1, List.fst_mem_of_mem_zipIdx hrow, ?_⟩
  by_contra hcount
  exact hdiffer ⟨fun heq => by omega, fun hc => absurd hc hcount⟩

/-- An accepted matrix is consistent exactly if each row names earlier bits only and no data bit
cancels in all rows, unless the data width is negative and there is no data word. -/
theorem consistent_iff {secded : SecdedInput} {config : Secded}
    (h : _validate_secded secded = .ok config) :
    Consistent config ↔ config.data_width < 0 ∨
      (Ordered config.data_width config.ecc_matrix ∧ OddlyCovered config) := by
  have hbounds := inBounds_of_validate h
  obtain hneg | hnonneg := lt_or_ge config.data_width 0
  · refine iff_of_true (fun dataword hlength => ?_) (Or.inl hneg)
    omega
  · obtain ⟨N, hwidth⟩ := Int.eq_ofNat_of_zero_le hnonneg
    rw [or_iff_right (not_lt.mpr hnonneg)]
    constructor
    · intro hconsistent
      exact ⟨hwidth ▸ ordered_of_consistent hwidth hconsistent,
        oddlyCovered_of_consistent hbounds hwidth hconsistent⟩
    · rintro ⟨hordered, hodd⟩
      exact consistent_of_ordered hbounds hwidth (hwidth ▸ hordered) hodd

/-- The matrix of the life cycle state encoding. -/
def lc_ctrl_state : Secded where
  data_width := 16
  ecc_width := 6
  ecc_matrix := [
    [0, 1, 3, 4, 6, 8, 10, 11, 13, 15],
    [0, 2, 3, 5, 6, 9, 10, 12, 13],
    [1, 2, 3, 7, 8, 9, 10, 14, 15],
    [4, 5, 6, 7, 8, 9, 10],
    [11, 12, 13, 14, 15],
    [0, 1, 2, 3, 4, 5, 6, 7, 8, 9, 10, 11, 12, 13, 14, 15, 16, 17, 18, 19, 20]]

theorem consistent_lc_ctrl_state : Consistent lc_ctrl_state :=
  (@consistent_iff ⟨some (.int 16), some (.int 6),
    some (lc_ctrl_state.ecc_matrix.map (·.map .int))⟩ lc_ctrl_state rfl).mpr
      (Or.inr (by unfold Ordered OddlyCovered; decide))

/-- A row that names the next parity bit reads a data bit in its place. -/
theorem forward_reference_fails :
    _validate_secded ⟨some (.int 8), some (.int 2), some [[.int 9], []]⟩ =
        .ok ⟨8, 2, [[9], []]⟩ ∧
      (∃ codeword, ecc_encode ⟨8, 2, [[9], []]⟩
          [false, false, false, false, false, false, true, false] = .ok codeword ∧
        is_valid_codeword ⟨8, 2, [[9], []]⟩ codeword = .ok false) ∧
      ¬Consistent ⟨8, 2, [[9], []]⟩ := by
  have hencode : ecc_encode ⟨8, 2, [[9], []]⟩
      [false, false, false, false, false, false, true, false] =
        .ok [false, true, false, false, false, false, false, false, true, false] := rfl
  have hinvalid : is_valid_codeword ⟨8, 2, [[9], []]⟩
      [false, true, false, false, false, false, false, false, true, false] = .ok false := rfl
  refine ⟨rfl, ⟨_, hencode, hinvalid⟩, fun hconsistent => ?_⟩
  obtain ⟨-, codeword, hcodeword, hvalid, -⟩ := hconsistent
    [false, false, false, false, false, false, true, false] rfl
  rw [hencode] at hcodeword
  cases hcodeword
  rw [hinvalid] at hvalid
  cases hvalid

end SecureBoot.LcStEnc
