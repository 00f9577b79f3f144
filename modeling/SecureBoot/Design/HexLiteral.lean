import SecureBoot.Lib.SvLiteral
import SecureBoot.Secded.Agreement

/-! Random netlist constants as SystemVerilog text. The digits of a number are cut into blocks from
the front, where `hex` writes no leading zeros. -/

namespace SecureBoot.HexLiteral

open PyStr SvLiteral

/-! ### The functions -/

/-- `hex(x)`. -/
def hex (x : ℕ) : List Char := '0' :: 'x' :: Nat.toDigits 16 x

/-- The loop that separates 32-bit words. -/
def separate (s_incr : ℕ) (string : List Char) : List Char :=
  (List.range' 1 (s_incr - 1)).reverse.foldl (fun string i =>
    if (s_incr - i) % 8 = 0 then string.take i ++ '_' :: string.drop i else string) string

/-- An item of `s_list`. -/
def block (numbits : ℕ) (string : List Char) : List Char :=
  Nat.toDigits 10 numbits ++ apostrophe :: 'h' :: string

/-- The loop over the blocks; `numbits` is never zero. -/
def blocks (s : List Char) (limit str_idx remain numbits : ℕ) : List (List Char) :=
  if 0 < remain ∧ 0 < numbits then
    let s_incr := numbits / 4
    let string := (s.drop str_idx).take s_incr
    block numbits (separate s_incr string) ::
      blocks s limit (str_idx + s_incr) (remain - numbits) (limit * 4)
  else []
termination_by remain

def blockify (s : List Char) (size limit : ℕ) : List Char :=
  let remain := size % (limit * 4)
  let numbits := if remain ≠ 0 then remain else limit * 4
  [',', '\n', ' ', ' '].intercalate (blocks s limit 2 size numbits)

/-- The draw is `random.getrandbits(width)`. -/
def get_random_data_hex_literal {width : ℕ} (random : BitVec width) : List Char :=
  blockify (hex random.toNat) width 64

/-- The logarithm of zero raises an error. -/
def get_random_perm_hex_literal (shuffle : List ℕ → List ℕ) (numel : ℕ) :
    Except String (List Char) := do
  if numel = 0 then throw "math domain error"
  let width := Nat.clog 2 numel
  let idx := shuffle (List.range numel)
  let literal_str := idx.foldl (fun s k => s ++ formatBin width k) []
  return blockify (hex (intOfBin literal_str)) (width * numel) 64

/-! ### One block -/

theorem hexNumber_separate (n : ℕ) (string : List Char) :
    hexNumber (separate n string) = hexNumber string := by
  have hfold : ∀ (l : List ℕ) (string : List Char), (∀ i ∈ l, 0 < i) →
      hexNumber (l.foldl (fun string i =>
        if (n - i) % 8 = 0 then string.take i ++ '_' :: string.drop i else string) string) =
          hexNumber string := by
    intro l
    induction l with
    | nil => exact fun _ _ => rfl
    | cons i l ih =>
      intro string hpos
      obtain ⟨hi, hl⟩ := List.forall_mem_cons.mp hpos
      rw [List.foldl_cons, ih _ hl]
      split_ifs
      · exact hexNumber_insert hi string
      · rfl
  refine hfold _ string fun i hi => ?_
  rw [List.mem_reverse, List.mem_range'_1] at hi
  omega

theorem mem_separate {n : ℕ} {string : List Char} {c : Char} (h : c ∈ separate n string) :
    c ∈ string ∨ c = '_' := by
  have hfold : ∀ (l : List ℕ) (string : List Char), c ∈ l.foldl (fun string i =>
      if (n - i) % 8 = 0 then string.take i ++ '_' :: string.drop i else string) string →
        c ∈ string ∨ c = '_' := by
    intro l
    induction l with
    | nil => exact fun _ hc => Or.inl hc
    | cons i l ih =>
      intro string hc
      rw [List.foldl_cons] at hc
      obtain hc | hc := ih _ hc
      · split_ifs at hc
        · rw [List.mem_append, List.mem_cons] at hc
          obtain hc | hc | hc := hc
          · exact Or.inl (List.mem_of_mem_take hc)
          · exact Or.inr hc
          · exact Or.inl (List.mem_of_mem_drop hc)
        · exact Or.inl hc
      · exact Or.inr hc
  exact hfold _ string h

theorem solid_block (numbits n : ℕ) {string : List Char} (h : IsHex string) :
    Solid (block numbits (separate n string)) := by
  have hhex : ∀ c, (hexDigit c).isSome → c ≠ ',' ∧ isspaceChar c = false := by
    intro c hc
    obtain ⟨d, hd⟩ := Option.isSome_iff_exists.mp hc
    exact ⟨ne_of_hexDigit hd (by decide), solid_of_hexDigit hd⟩
  intro c hc
  rw [block, List.mem_append, List.mem_cons, List.mem_cons] at hc
  obtain hc | rfl | rfl | hc := hc
  · exact hhex c (hexDigit_of_isDigit (Nat.isDigit_of_mem_toDigits (by decide) (by decide) hc))
  · decide
  · decide
  · obtain hc | rfl := mem_separate hc
    · exact hhex c (h c hc)
    · decide

variable {word : ℕ × ℕ} {n m : ℕ} {string : List Char}

/-- A block puts its digits to the right of the word. -/
theorem concatLiteral_block (hn : 0 < n) (h : IsHex string) (hne : string ≠ [])
    (hlen : string.length ≤ n / 4) :
    concatLiteral word (block n (separate m string)) =
      some (word.1 + n, word.2 * 2 ^ n + valueFrom 0 string) := by
  have hpow : 16 ^ string.length ≤ 2 ^ n := by
    rw [show (16 : ℕ) = 2 ^ 4 from rfl, ← Nat.pow_mul]
    exact Nat.pow_le_pow_right (by decide) (by omega)
  rw [concatLiteral, block, literal_eq hn, hexNumber_separate, hexNumber_eq h hne, Option.map_some,
    Option.map_some, Nat.mod_eq_of_lt (Nat.lt_of_lt_of_le (valueFrom_lt h) hpow)]

/-- A block without digits is no literal. -/
theorem concatLiteral_block_nil (hn : 0 < n) :
    concatLiteral word (block n (separate m [])) = none := by
  rw [concatLiteral, block, literal_eq hn, hexNumber_separate]
  rfl

/-! ### All blocks -/

/-- `n` digits behind the first `p`. -/
def slice (ds : List Char) (p n : ℕ) : List Char := (ds.drop p).take n

/-- The blocks of 256 bits. -/
theorem blocks_eq (ds : List Char) (p k : ℕ) :
    blocks ('0' :: 'x' :: ds) 64 (2 + p) (256 * k) 256 =
      (List.range k).map fun i => block 256 (separate 64 (slice ds (p + 64 * i) 64)) := by
  induction k generalizing p with
  | zero => rw [blocks, if_neg (by decide), List.range_zero, List.map_nil]
  | succ k ih =>
    have hdrop : ('0' :: 'x' :: ds).drop (2 + p) = ds.drop p := by
      rw [Nat.add_comm, List.drop_succ_cons, List.drop_succ_cons]
    have hremain : 256 * (k + 1) - 256 = 256 * k := by omega
    rw [blocks, if_pos (by omega), List.range_succ_eq_map, List.map_cons, List.map_map]
    dsimp only
    rw [hdrop, hremain, Nat.add_assoc, ih (p + 256 / 4)]
    refine congrArg _ (List.map_congr_left fun i _ => ?_)
    have hp : p + 256 / 4 + 64 * i = p + 64 * (i + 1) := by omega
    rw [hp]
    rfl

/-- The first block and the others. -/
theorem blockify_eq (ds : List Char) {b k : ℕ} (hb : 0 < b) (hb' : b ≤ 256) :
    blockify ('0' :: 'x' :: ds) (b + 256 * k) 64 =
      [',', '\n', ' ', ' '].intercalate (block b (separate (b / 4) (slice ds 0 (b / 4))) ::
        (List.range k).map fun i => block 256 (separate 64 (slice ds (b / 4 + 64 * i) 64))) := by
  have hnumbits : (if (b + 256 * k) % (64 * 4) ≠ 0 then (b + 256 * k) % (64 * 4) else 64 * 4) =
      b := by
    split_ifs <;> omega
  have hremain : b + 256 * k - b = 256 * k := by omega
  rw [blockify, hnumbits, blocks, if_pos (by omega)]
  dsimp only
  rw [hremain, blocks_eq]
  rfl

variable {ds : List Char}

theorem isHex_slice (h : IsHex ds) (p n : ℕ) : IsHex (slice ds p n) := fun c hc =>
  h c (List.mem_of_mem_drop (List.mem_of_mem_take hc))

theorem slice_add (ds : List Char) (p n n' : ℕ) :
    slice ds p (n + n') = slice ds p n ++ slice ds (p + n) n' := by
  rw [slice, List.take_add, List.drop_drop]
  rfl

theorem length_slice (ds : List Char) (p n : ℕ) :
    (slice ds p n).length = min n (ds.length - p) := by
  rw [slice, List.length_take, List.length_drop]

/-- Full blocks append their digits. -/
theorem foldlM_full (h : IsHex ds) (w x p : ℕ) {k : ℕ} (hlen : p + 64 * k ≤ ds.length) :
    ((List.range k).map fun i => block 256 (separate 64 (slice ds (p + 64 * i) 64))).foldlM
      concatLiteral (w, x) = some (w + 256 * k, valueFrom x (slice ds p (64 * k))) := by
  induction k with
  | zero => rfl
  | succ k ih =>
    have hfull : (slice ds (p + 64 * k) 64).length = 64 := by
      rw [length_slice]
      omega
    have hne : slice ds (p + 64 * k) 64 ≠ [] := List.ne_nil_of_length_pos (by omega)
    have hwidth : w + 256 * (k + 1) = w + 256 * k + 256 := by omega
    have hpow : 2 ^ 256 = 16 ^ 64 := by decide
    rw [List.range_succ, List.map_append, List.foldlM_append, ih (by omega), List.map_singleton,
      Option.bind_eq_bind, Option.bind_some, List.foldlM_cons,
      concatLiteral_block (by decide) (isHex_slice h _ _) hne hfull.le, hwidth, Nat.mul_succ,
      slice_add, valueFrom_append, valueFrom_eq (valueFrom x _), hfull, hpow,
      Option.bind_eq_bind, Option.bind_some]
    rfl

/-- The last block has no digits if they end before it. -/
theorem foldlM_none (w x p : ℕ) {k : ℕ} (hlen : ds.length ≤ p + 64 * k) :
    ((List.range (k + 1)).map fun i => block 256 (separate 64 (slice ds (p + 64 * i) 64))).foldlM
      concatLiteral (w, x) = none := by
  have hnil : slice ds (p + 64 * k) 64 = [] := by
    rw [slice, List.drop_eq_nil_of_le hlen, List.take_nil]
  rw [List.range_succ, List.map_append, List.foldlM_append, List.map_singleton, hnil,
    Option.bind_eq_bind]
  refine Option.bind_eq_none_iff.mpr fun word _ => ?_
  rw [List.foldlM_cons, concatLiteral_block_nil (by decide)]
  rfl

/-! ### The value -/

/-- The digits of a value are all taken, and all of them are needed if there is more than one
block. A first block of one to three bits has no digit. -/
def Fits (w v : ℕ) : Prop :=
  0 < w ∧ w % 256 ∉ [1, 2, 3] ∧ v < 16 ^ (w / 4) ∧ (w ≤ 256 ∨ 16 ^ (w / 4 - 1) ≤ v)

theorem take_append_slice (ds : List Char) (n m : ℕ) :
    ds.take n ++ slice ds n m = ds.take (n + m) := List.take_add.symm

section

variable {v : ℕ}

/-- The hexadecimal digits of `hex`. -/
theorem isHex_toDigits (v : ℕ) : IsHex (Nat.toDigits 16 v) := by
  rw [← List.map_id (Nat.toDigits 16 v)]
  exact isHex_map_toDigits hexDigit_digitChar v

theorem valueFrom_toDigits (v : ℕ) : valueFrom 0 (Nat.toDigits 16 v) = v := by
  rw [← List.map_id (Nat.toDigits 16 v)]
  exact valueFrom_map_toDigits hexDigit_digitChar v

theorem length_toDigits_le {n : ℕ} (hn : 0 < n) :
    (Nat.toDigits 16 v).length ≤ n ↔ v < 16 ^ n :=
  Nat.length_toDigits_le_iff (by decide) hn

/-- The digits of a number start with one that is not zero. -/
theorem valueFrom_take_pos {n : ℕ} (hn : 0 < n) (hlen : n < (Nat.toDigits 16 v).length) :
    0 < valueFrom 0 ((Nat.toDigits 16 v).take n) := by
  by_contra hzero
  have hsplit := valueFrom_toDigits v
  have hdrop : IsHex ((Nat.toDigits 16 v).drop n) := fun c hc =>
    isHex_toDigits v c (List.mem_of_mem_drop hc)
  have hlt := valueFrom_lt hdrop
  rw [← List.take_append_drop n (Nat.toDigits 16 v), valueFrom_append,
    Nat.eq_zero_of_not_pos hzero] at hsplit
  rw [hsplit, ← length_toDigits_le (by rw [List.length_drop]; omega), List.length_drop] at hlt
  omega

/-- Digits that are moved away from the first ones change the value. -/
theorem valueFrom_split_ne {n m : ℕ} (hn : 0 < n) (hlen : n < (Nat.toDigits 16 v).length)
    (hm : (Nat.toDigits 16 v).length - n ≠ m) :
    valueFrom 0 ((Nat.toDigits 16 v).take n) * 16 ^ m +
      valueFrom 0 ((Nat.toDigits 16 v).drop n) ≠ v := by
  intro heq
  have hpos := valueFrom_take_pos hn hlen
  have hsplit := valueFrom_toDigits v
  rw [← List.take_append_drop n (Nat.toDigits 16 v), valueFrom_append, valueFrom_eq,
    List.length_drop] at hsplit
  have hpow : 16 ^ m = 16 ^ ((Nat.toDigits 16 v).length - n) :=
    Nat.eq_of_mul_eq_mul_left hpos (by omega)
  exact hm (Nat.pow_right_injective (by decide : 2 ≤ 16) hpow).symm

/-- All digits are taken exactly if the value has no more of them. -/
theorem valueFrom_take_eq_iff {n : ℕ} (hn : 0 < n) :
    valueFrom 0 ((Nat.toDigits 16 v).take n) = v ↔ v < 16 ^ n := by
  rw [← length_toDigits_le hn]
  constructor
  · intro heq
    by_contra hlt
    have hpos := valueFrom_take_pos hn (not_le.mp hlt)
    have hsplit := valueFrom_toDigits v
    have hpow : 16 ^ 1 ≤ 16 ^ ((Nat.toDigits 16 v).length - n) :=
      Nat.pow_le_pow_right (by decide) (by omega)
    have hmul := Nat.mul_le_mul_left v hpow
    rw [heq] at hpos
    rw [← List.take_append_drop n (Nat.toDigits 16 v), valueFrom_append, heq, valueFrom_eq,
      List.length_drop] at hsplit
    omega
  · intro hle
    rw [List.take_of_length_le hle, valueFrom_toDigits]

/-- The blocks as a run of literals. -/
theorem concatenation_blockify (v : ℕ) {b k : ℕ} (hb : 0 < b) (hb' : b ≤ 256) :
    concatenation (blockify (hex v) (b + 256 * k) 64) =
      (block b (separate (b / 4) (slice (Nat.toDigits 16 v) 0 (b / 4))) ::
        (List.range k).map fun i =>
          block 256 (separate 64 (slice (Nat.toDigits 16 v) (b / 4 + 64 * i) 64))).foldlM
            concatLiteral (0, 0) := by
  rw [hex, blockify_eq _ hb hb']
  refine concatenation_intercalate (by simp [isspaceChar])
    (solid_block _ _ (isHex_slice (isHex_toDigits v) _ _)) fun s hs => ?_
  obtain ⟨i, -, rfl⟩ := List.mem_map.mp hs
  exact solid_block _ _ (isHex_slice (isHex_toDigits v) _ _)

/-- The blocks behind the first one. -/
theorem foldlM_rest {b n k : ℕ} (hn : 0 < n) :
    ((List.range k).map fun i =>
      block 256 (separate 64 (slice (Nat.toDigits 16 v) (n + 64 * i) 64))).foldlM concatLiteral
        (b, valueFrom 0 ((Nat.toDigits 16 v).take n)) = some (b + 256 * k, v) ↔
      v < 16 ^ (n + 64 * k) ∧ (k = 0 ∨ 16 ^ (n + 64 * k - 1) ≤ v) := by
  have hhex := isHex_toDigits v
  obtain hfull | hshort := le_or_gt (n + 64 * k) (Nat.toDigits 16 v).length
  · have hle : k = 0 ∨ 16 ^ (n + 64 * k - 1) ≤ v := by
      obtain rfl | hk := Nat.eq_zero_or_pos k
      · exact Or.inl rfl
      · right
        rw [← not_lt, ← length_toDigits_le (by omega)]
        omega
    rw [foldlM_full hhex _ _ _ hfull, ← valueFrom_append, take_append_slice, and_iff_left hle,
      Option.some.injEq, Prod.mk.injEq, and_iff_right rfl]
    exact valueFrom_take_eq_iff (by omega)
  · cases k with
    | zero =>
      rw [Nat.mul_zero, Nat.add_zero] at hshort ⊢
      rw [List.range_zero, List.map_nil, List.foldlM_nil, List.take_of_length_le hshort.le,
        valueFrom_toDigits]
      exact iff_of_true rfl ⟨(length_toDigits_le (by omega)).mp hshort.le, Or.inl rfl⟩
    | succ k =>
      have hlarge : ¬16 ^ (n + 64 * (k + 1) - 1) ≤ v := by
        rw [not_le, ← length_toDigits_le (by omega)]
        omega
      refine iff_of_false ?_ fun hfits => hlarge (hfits.2.resolve_left (by omega))
      obtain hnone | hsome := le_or_gt (Nat.toDigits 16 v).length (n + 64 * k)
      · rw [foldlM_none _ _ _ hnone]
        exact Option.some_ne_none _ ∘ Eq.symm
      · -- the digits of the last block are moved away from the others
        have hslice : slice (Nat.toDigits 16 v) (n + 64 * k) 64 =
            (Nat.toDigits 16 v).drop (n + 64 * k) :=
          List.take_of_length_le (by rw [List.length_drop]; omega)
        have hne : (Nat.toDigits 16 v).drop (n + 64 * k) ≠ [] :=
          List.ne_nil_of_length_pos (by rw [List.length_drop]; omega)
        have hlen : ((Nat.toDigits 16 v).drop (n + 64 * k)).length ≤ 256 / 4 := by
          rw [List.length_drop]
          omega
        have hpow : 2 ^ 256 = 16 ^ 64 := by decide
        have hdrop : IsHex ((Nat.toDigits 16 v).drop (n + 64 * k)) := fun c hc =>
          hhex c (List.mem_of_mem_drop hc)
        rw [List.range_succ, List.map_append, List.foldlM_append, foldlM_full hhex _ _ _ hsome.le,
          List.map_singleton, hslice, Option.bind_eq_bind, Option.bind_some, List.foldlM_cons,
          concatLiteral_block (by decide) hdrop hne hlen, Option.bind_eq_bind, Option.bind_some,
          List.foldlM_nil, ← valueFrom_append, take_append_slice, hpow]
        intro heq
        refine valueFrom_split_ne (by omega) hsome (by omega : _ ≠ 64) ?_
        exact congrArg Prod.snd (Option.some.inj heq)

theorem concatenation_blockify_zero (s : List Char) : concatenation (blockify s 0 64) = none := by
  rw [blockify, blocks, if_neg (by decide)]
  rfl

/-- The text denotes the value exactly if its digits fit the blocks. -/
theorem blockify_denotes_iff (w v : ℕ) :
    concatenation (blockify (hex v) w 64) = some (w, v) ↔ Fits w v := by
  obtain rfl | hw := Nat.eq_zero_or_pos w
  · refine iff_of_false ?_ fun hfits => absurd hfits.1 (lt_irrefl 0)
    rw [concatenation_blockify_zero]
    exact Option.some_ne_none _ ∘ Eq.symm
  · obtain ⟨b, k, hb, hb', rfl⟩ : ∃ b k, 0 < b ∧ b ≤ 256 ∧ w = b + 256 * k :=
      ⟨(w - 1) % 256 + 1, (w - 1) / 256, by omega, by omega, by omega⟩
    rw [concatenation_blockify v hb hb', List.foldlM_cons]
    obtain hsmall | hlarge := Nat.lt_or_ge b 4
    · have hzero : b / 4 = 0 := by omega
      have hnil : slice (Nat.toDigits 16 v) 0 0 = [] := rfl
      rw [hzero, hnil, concatLiteral_block_nil hb]
      refine iff_of_false (by exact Option.some_ne_none _ ∘ Eq.symm) fun hfits => ?_
      have hnot := hfits.2.1
      simp only [List.mem_cons, List.not_mem_nil, or_false] at hnot
      omega
    · have hne : (Nat.toDigits 16 v).take (b / 4) ≠ [] := by
        simp [Nat.toDigits_ne_nil]
        omega
      have hlen : ((Nat.toDigits 16 v).take (b / 4)).length ≤ b / 4 := List.length_take_le _ _
      have hhex : IsHex ((Nat.toDigits 16 v).take (b / 4)) := fun c hc =>
        isHex_toDigits v c (List.mem_of_mem_take hc)
      have hdigits : (b + 256 * k) / 4 = b / 4 + 64 * k := by omega
      change (concatLiteral (0, 0)
        (block b (separate (b / 4) ((Nat.toDigits 16 v).take (b / 4)))) >>= _) = _ ↔ _
      rw [concatLiteral_block hb hhex hne hlen, Option.bind_eq_bind, Option.bind_some,
        Nat.zero_add, Nat.zero_mul, Nat.zero_add, foldlM_rest (by omega), Fits, hdigits]
      simp only [List.mem_cons, List.not_mem_nil, or_false]
      constructor
      · rintro ⟨hlt, hk⟩
        exact ⟨by omega, by omega, hlt, hk.imp_left (by omega)⟩
      · rintro ⟨-, -, hlt, hk⟩
        exact ⟨hlt, hk.imp_left (by omega)⟩

end

/-! ### Packed arrays -/

/-- The elements of a packed array of `n` fields, the most significant first. -/
def fields (width : ℕ) : ℕ → ℕ → List ℕ
  | 0, _ => []
  | n + 1, x => fields width n (x / 2 ^ width) ++ [x % 2 ^ width]

/-- The array of a list, its first element in the most significant field. -/
def pack (width : ℕ) (idx : List ℕ) : ℕ := idx.foldl (fun x k => x * 2 ^ width + k) 0

variable {width : ℕ}

theorem pack_concat (idx : List ℕ) (k : ℕ) :
    pack width (idx ++ [k]) = pack width idx * 2 ^ width + k := by
  rw [pack, List.foldl_append]
  rfl

theorem fields_pack {idx : List ℕ} (h : ∀ k ∈ idx, k < 2 ^ width) :
    fields width idx.length (pack width idx) = idx := by
  induction idx using List.reverseRecOn with
  | nil => rfl
  | append_singleton idx k ih =>
    rw [List.forall_mem_append, List.forall_mem_singleton] at h
    have hpos := Nat.two_pow_pos width
    rw [List.length_append, List.length_singleton, fields, pack_concat, Nat.mul_comm,
      Nat.mul_add_div hpos, Nat.div_eq_of_lt h.2, Nat.add_zero, ih h.1, Nat.mul_add_mod,
      Nat.mod_eq_of_lt h.2]

/-- A packed array has no other bits than its fields. -/
theorem fields_inj {n x y : ℕ} (hx : x < 2 ^ (width * n)) (hy : y < 2 ^ (width * n))
    (h : fields width n x = fields width n y) : x = y := by
  induction n generalizing x y with
  | zero =>
    rw [Nat.mul_zero, Nat.pow_zero] at hx hy
    omega
  | succ n ih =>
    obtain ⟨hinit, hlast⟩ := List.append_inj' h rfl
    have hquot : x / 2 ^ width = y / 2 ^ width := by
      refine ih ?_ ?_ hinit <;>
        · rw [Nat.div_lt_iff_lt_mul (Nat.two_pow_pos width), ← Nat.pow_add, ← Nat.mul_succ]
          assumption
    have hmod : x % 2 ^ width = y % 2 ^ width := List.singleton_inj.mp hlast
    rw [← Nat.div_add_mod x (2 ^ width), hquot, hmod, Nat.div_add_mod]

theorem intOfBin_append (s s' : List Bool) :
    intOfBin (s ++ s') = intOfBin s * 2 ^ s'.length + intOfBin s' := by
  induction s' using List.reverseRecOn with
  | nil => simp [intOfBin]
  | append_singleton s' b ih =>
    have hconcat : ∀ (s : List Bool) (b : Bool), intOfBin (s ++ [b]) = 2 * intOfBin s + b.toNat :=
      fun s b => by simp [intOfBin]
    rw [← List.append_assoc, hconcat, hconcat, ih, List.length_append, List.length_singleton,
      Nat.pow_succ]
    ring

theorem intOfBin_formatBin (width k : ℕ) : intOfBin (formatBin width k) = k :=
  Nat.eq_of_testBit_eq fun i => by rw [testBit_intOfBin, getD_formatBin]

/-- The digits of the elements, written one after another, are the array. -/
theorem intOfBin_foldl (hwidth : 1 ≤ width) {idx : List ℕ} (h : ∀ k ∈ idx, k < 2 ^ width) :
    intOfBin (idx.foldl (fun s k => s ++ formatBin width k) []) = pack width idx := by
  induction idx using List.reverseRecOn with
  | nil => rfl
  | append_singleton idx k ih =>
    rw [List.forall_mem_append, List.forall_mem_singleton] at h
    rw [List.foldl_append, List.foldl_cons, List.foldl_nil, intOfBin_append, intOfBin_formatBin,
      length_formatBin hwidth h.2, ih h.1, pack_concat]

theorem pack_lt {idx : List ℕ} (h : ∀ k ∈ idx, k < 2 ^ width) :
    pack width idx < 2 ^ (width * idx.length) := by
  induction idx using List.reverseRecOn with
  | nil => exact Nat.one_pos
  | append_singleton idx k ih =>
    rw [List.forall_mem_append, List.forall_mem_singleton] at h
    rw [pack_concat, List.length_append, List.length_singleton, Nat.mul_succ, Nat.pow_add]
    calc pack width idx * 2 ^ width + k < (pack width idx + 1) * 2 ^ width := by
          rw [Nat.succ_mul]
          exact Nat.add_lt_add_left h.2 _
      _ ≤ 2 ^ (width * idx.length) * 2 ^ width := Nat.mul_le_mul_right _ (ih h.1)

/-- The text denotes the array of a list. -/
def DenotesArray (text : List Char) (width : ℕ) (idx : List ℕ) : Prop :=
  ∃ x, concatenation text = some (width * idx.length, x) ∧ fields width idx.length x = idx

theorem denotesArray_iff {idx : List ℕ} (h : ∀ k ∈ idx, k < 2 ^ width) :
    DenotesArray (blockify (hex (pack width idx)) (width * idx.length) 64) width idx ↔
      Fits (width * idx.length) (pack width idx) := by
  rw [← blockify_denotes_iff]
  constructor
  · rintro ⟨x, htext, hfields⟩
    have hpack : x = pack width idx :=
      fields_inj (concatenation_lt htext) (pack_lt h) (hfields.trans (fields_pack h).symm)
    rwa [hpack] at htext
  · exact fun htext => ⟨_, htext, fields_pack h⟩

theorem get_random_perm_hex_literal_iff {shuffle : List ℕ → List ℕ} {numel : ℕ}
    (h : (shuffle (List.range numel)).Perm (List.range numel)) :
    (∃ text, get_random_perm_hex_literal shuffle numel = .ok text ∧
      DenotesArray text (Nat.clog 2 numel) (shuffle (List.range numel))) ↔
        2 ≤ numel ∧ Fits (Nat.clog 2 numel * numel)
          (pack (Nat.clog 2 numel) (shuffle (List.range numel))) := by
  have hlen : (shuffle (List.range numel)).length = numel := by
    rw [h.length_eq, List.length_range]
  have hlt : ∀ k ∈ shuffle (List.range numel), k < 2 ^ Nat.clog 2 numel := fun k hk =>
    Nat.lt_of_lt_of_le (List.mem_range.mp (h.mem_iff.mp hk)) (Nat.le_pow_clog (by decide) numel)
  obtain hsmall | hlarge := Nat.lt_or_ge numel 2
  · refine iff_of_false ?_ fun hfits => absurd hfits.1 (not_le.mpr hsmall)
    rintro ⟨text, htext, x, hdenotes, -⟩
    obtain rfl | rfl : numel = 0 ∨ numel = 1 := by omega
    · cases htext
    · cases htext
      rw [Nat.mul_one] at hdenotes
      exact Option.some_ne_none _ (hdenotes.symm.trans (concatenation_blockify_zero _))
  · have hwidth : 1 ≤ Nat.clog 2 numel := Nat.clog_pos (by decide) hlarge
    have hmodel : get_random_perm_hex_literal shuffle numel =
        .ok (blockify (hex (pack (Nat.clog 2 numel) (shuffle (List.range numel))))
          (Nat.clog 2 numel * numel) 64) := by
      rw [get_random_perm_hex_literal, if_neg (by omega), ← intOfBin_foldl hwidth hlt]
      rfl
    have hiff := denotesArray_iff hlt
    rw [hlen] at hiff
    rw [hmodel, and_iff_right hlarge, ← hiff]
    simp only [Except.ok.injEq, exists_eq_left']

/-- A data literal denotes the draw, and a permutation literal the shuffled elements, exactly if
the blocks fit the digits. -/
theorem literals_denote_iff (width : ℕ) (random : BitVec width) (shuffle : List ℕ → List ℕ)
    (numel : ℕ) (h : (shuffle (List.range numel)).Perm (List.range numel)) :
    (concatenation (get_random_data_hex_literal random) = some (width, random.toNat) ↔
      Fits width random.toNat) ∧
    ((∃ text, get_random_perm_hex_literal shuffle numel = .ok text ∧
        DenotesArray text (Nat.clog 2 numel) (shuffle (List.range numel))) ↔
      2 ≤ numel ∧ Fits (Nat.clog 2 numel * numel)
        (pack (Nat.clog 2 numel) (shuffle (List.range numel)))) :=
  ⟨blockify_denotes_iff width random.toNat, get_random_perm_hex_literal_iff h⟩

theorem literals_denote_reverse :
    concatenation (get_random_data_hex_literal 0x8#4) = some (4, 8) ∧
    ∃ text, get_random_perm_hex_literal List.reverse 4 = .ok text ∧
      DenotesArray text (Nat.clog 2 4) [3, 2, 1, 0] := by
  have h := literals_denote_iff 4 0x8#4 List.reverse 4 (List.reverse_perm _)
  exact ⟨h.1.mpr ⟨by decide, by decide, by decide, Or.inl (by decide)⟩,
    h.2.mpr ⟨by decide, by decide, by decide, by decide, Or.inl (by decide)⟩⟩

/-- A width that is no multiple of four, and three elements. -/
theorem literals_lose_digits :
    concatenation (get_random_data_hex_literal 0x10#5) = some (5, 1) ∧
      ∃ text, get_random_perm_hex_literal List.reverse 3 = .ok text ∧
        concatenation text = some (6, 2) ∧ ¬(fields 2 3 2).Perm (List.range 3) := by
  have hdata := concatenation_blockify (b := 5) (k := 0) 16 (by decide) (by decide)
  have hperm := concatenation_blockify (b := 6) (k := 0) 36 (by decide) (by decide)
  refine ⟨hdata.trans rfl, _, rfl, hperm.trans rfl, by decide⟩

end SecureBoot.HexLiteral
