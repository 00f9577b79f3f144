import Mathlib.Data.Nat.Digits.Lemmas
import SecureBoot.Design.EccMatrix
import SecureBoot.Design.SparseFsm

/-! `LcStEnc`, which draws a pair of words for each position of the life cycle state and of the
transition counter. The second word of a pair only adds ones to the first one, in the data and in
the parity bits. The tokens and the statistics are left out. -/

namespace SecureBoot.LcStEnc

open Traverse SparseFsmEncode

/-! ### The configuration -/

/-- The keys of `LC_STATE_TYPES`. -/
inductive StateType where
  | lc_state | lc_cnt
deriving DecidableEq

def StateType.name : StateType → String
  | .lc_state => "lc_state"
  | .lc_cnt => "lc_cnt"

/-- The entries that `LC_STATE_TYPES` permits for word `j`. -/
def LC_STATE_TYPES (typ : StateType) (j : ℕ) : List String :=
  match typ with
  | .lc_state => ["0", s!"A{j}", s!"B{j}"]
  | .lc_cnt => ["0", s!"C{j}", s!"D{j}"]

/-- The configuration file; a state has a name and its entries. -/
structure ConfigInput where
  secded : SecdedInput
  min_hw : Option Number
  max_hw : Option Number
  min_hd : Option Number
  states : StateType → List (String × List String)

structure Config where
  secded : Secded
  min_hw : ℤ
  max_hw : ℤ
  min_hd : ℤ
  states : StateType → List (String × List String)

def _validate_constraints (input : ConfigInput) (secded : Secded) : Except String Config := do
  let min_hw ← check_int (input.min_hw.getD (.int 0))
  let max_hw ← check_int (input.max_hw.getD (.int 0))
  let min_hd ← check_int (input.min_hd.getD (.int 0))
  let total_width := secded.data_width + secded.ecc_width
  if total_width ≤ min_hw ∨ total_width < max_hw ∨ max_hw ≤ min_hw then
    throw "Hamming weight constraints are inconsistent."
  if max_hw - min_hw + 1 < min_hd then throw "Hamming distance constraint is inconsistent."
  return { secded, min_hw, max_hw, min_hd, states := input.states }

/-- `config['num_' + typ + '_words']`, which is inferred from the first state. -/
def num_words (config : Config) (typ : StateType) : Except String ℕ :=
  match config.states typ with
  | [] => throw s!"KeyError: num_{typ.name}_words"
  | (_, entries) :: _ => return entries.length

/-- The check of a state's entries. -/
def checkState (typ : StateType) (num : ℕ) (state : String) (entries : List String) :
    Except String Unit := do
  let length := entries.length
  if num ≠ length then throw s!"{typ.name} entry {state} has incorrect length {length}"
  entries.zipIdx.forM fun (entry, j) =>
    if entry ∈ LC_STATE_TYPES typ j then return ()
    else throw s!"Illegal entry \"{entry}\" found in {state} of {typ.name}"

def _validate_state_declarations (config : Config) (typ : StateType) : Except String Unit :=
  match config.states typ with
  | [] => return ()
  | (state, entries) :: states =>
    ((state, entries) :: states).forM fun (state, entries') =>
      checkState typ entries.length state entries'

/-! ### The words -/

def _is_incremental_codeword (word1 word2 : List Bool) : Except String Bool := do
  if word1.length ≠ word2.length then throw "Words are not of equal size"
  return intOfBin word1 &&& intOfBin word2 = intOfBin word1

def scatter_bits : List Bool → List Bool → Except String (List Bool)
  | [], _ => return []
  | true :: mask, bits => do return true :: (← scatter_bits mask bits)
  | false :: mask, b :: bits => do return b :: (← scatter_bits mask bits)
  | false :: _, [] => throw "string index out of range"

/-- The Hamming distance of a candidate to a word is too small. -/
def tooClose (config : Config) (cand w : List Bool) : Except String Bool := do
  return (← get_hd cand w) < config.min_hd

/-- The candidates after the value `k`. -/
def addCandidate (config : Config) (base_ecc : List Bool) (existing_words : List (List Bool))
    (incr_cands : List (List Bool)) (k : ℕ) : Except String (List (List Bool)) := do
  let base_data := base_ecc.drop config.secded.ecc_width.toNat
  let incr_cand ← scatter_bits base_data (formatBin (base_data.count false) k)
  let incr_cand_ecc ← ecc_encode config.secded incr_cand
  if ← _is_incremental_codeword base_ecc incr_cand_ecc then
    if incr_cand_ecc.count true ≤ config.max_hw then
      if ← (existing_words ++ [base_ecc]).anyM (tooClose config incr_cand_ecc) then
        return incr_cands
      return incr_cands ++ [incr_cand_ecc]
  return incr_cands

def _get_incremental_codewords (config : Config) (base_ecc : List Bool)
    (existing_words : List (List Bool)) : Except String (List (List Bool)) := do
  let base_data := base_ecc.drop config.secded.ecc_width.toNat
  (List.range' 1 (2 ^ base_data.count false - 1)).foldlM
    (addCandidate config base_ecc existing_words) []

/-- The random values of a round of the search. -/
structure Draw where
  getrandbits : ℕ
  choice : ℕ

abbrev Pair := List Bool × List Bool

/-- A round of the search. -/
def tryPair (config : Config) (existing_words : List (List Bool)) (draw : Draw) :
    Except String (Option Pair) := do
  let width := config.secded.data_width
  if width < 0 then throw "number of bits must be non-negative"
  let base := formatBin width.toNat (draw.getrandbits % 2 ^ width.toNat)
  let base_cand_ecc ← ecc_encode config.secded base
  let pop_cnt := base_cand_ecc.count true
  if config.min_hw ≤ pop_cnt ∧ pop_cnt ≤ config.max_hw then
    if ← existing_words.anyM (tooClose config base_cand_ecc) then return none
    let incr_cands_ecc ← _get_incremental_codewords config base_cand_ecc existing_words
    return incr_cands_ecc[draw.choice % incr_cands_ecc.length]?.map (base_cand_ecc, ·)
  return none

/-- The pair, and the draws that are left; `none` while the search is not over. -/
def _get_new_state_word_pair (config : Config) (existing_words : List (List Bool)) :
    List Draw → Except String (Option (Pair × List Draw))
  | [] => return none
  | draw :: draws => do
    match ← tryPair config existing_words draw with
    | some pair => return some (pair, draws)
    | none => _get_new_state_word_pair config existing_words draws

/-- The words of a list of pairs, in the order of `existing_words`. -/
def words (pairs : List Pair) : List (List Bool) := pairs.flatMap fun pair => [pair.1, pair.2]

/-- The pairs for `n` positions. -/
def newPairs (config : Config) : ℕ → List Pair → List Draw →
    Except String (Option (List Pair × List Draw))
  | 0, pairs, draws => return some (pairs, draws)
  | n + 1, pairs, draws => do
    match ← _get_new_state_word_pair config (words pairs) draws with
    | some (pair, draws) => newPairs config n (pairs ++ [pair]) draws
    | none => return none

/-- The text of a bitstring. -/
def text (w : List Bool) : String := String.ofList (w.map fun b => if b then '1' else '0')

/-- The checks of word `k` against the words behind it. -/
def checkWord (config : Config) (k : ℕ) (w : List Bool) (rest : List (List Bool)) :
    Except String Unit := do
  if !(← is_valid_codeword config.secded w) then
    throw s!"Codeword {text w} at index {k} is not valid"
  let pop_cnt := w.count true
  if pop_cnt < config.min_hw ∨ config.max_hw < pop_cnt then
    throw s!"Codeword {text w} at index {k} has wrong Hamming weight"
  rest.zipIdx.forM fun (w2, k2) => do
    if (← get_hd w w2) < config.min_hd then
      throw (s!"Hamming distance between codeword {text w} at index {k} " ++
        s!"and codeword {text w2} at index {k + 1 + k2} is too low.")

def _validate_words (config : Config) : ℕ → List (List Bool) → Except String Unit
  | _, [] => return ()
  | k, w :: rest => do
    checkWord config k w rest
    _validate_words config (k + 1) rest

/-- The object: the configuration with `config['genwords']`. -/
structure Generated where
  config : Config
  genwords : StateType → List Pair

def _generate_words (config : Config) (draws : List Draw) : Except String (Option Generated) := do
  let num_lc_state ← num_words config .lc_state
  match ← newPairs config num_lc_state [] draws with
  | none => return none
  | some (lc_state, draws) =>
    let num_lc_cnt ← num_words config .lc_cnt
    match ← newPairs config num_lc_cnt lc_state draws with
    | none => return none
    | some (pairs, _) =>
      _validate_words config 0 (words pairs)
      return some { config, genwords := fun
        | .lc_state => lc_state
        | .lc_cnt => pairs.drop num_lc_state }

/-- `LcStEnc.__init__`; `none` while the search for a pair is not over. -/
def init (input : ConfigInput) (draws : List Draw) : Except String (Option Generated) := do
  let secded ← _validate_secded input.secded
  let config ← _validate_constraints input secded
  _validate_state_declarations config .lc_state
  _validate_state_declarations config .lc_cnt
  _generate_words config draws

namespace Generated

variable (self : Generated) (name : StateType)

/-- The data of an entry's word. -/
def word (j : ℕ) (entry : String) : Except String ℕ := do
  let val_idx := LC_STATE_TYPES name j
  if entry ∉ val_idx then throw s!"KeyError: {entry}"
  match val_idx.idxOf entry with
  | 0 => return 0
  | idx + 1 =>
    match (self.genwords name)[j]? with
    | none => throw "list index out of range"
    | some pair =>
      let word := if idx = 0 then pair.1 else pair.2
      return intOfBin (word.drop self.config.secded.ecc_width.toNat)

def encode (state : String) : Except String ℕ := do
  match (self.config.states name).lookup state with
  | none => throw s!"Unknown state {state} of type {name.name}"
  | some entries =>
    let words ← entries.zipIdx.mapM fun (entry, j) => self.word name j entry
    return words.zipIdx.foldl
      (fun outval (word, k) => outval + word <<< (self.config.secded.data_width.toNat * k)) 0

end Generated

/-! ### Words that only add ones -/

/-- Writing `b` over `a` only sets bits. -/
def OnlySets (a b : List Bool) : Prop :=
  a.length = b.length ∧ ∀ i, digit a i = true → digit b i = true

theorem OnlySets.refl (a : List Bool) : OnlySets a a := ⟨rfl, fun _ h => h⟩

theorem OnlySets.trans {a b c : List Bool} (h : OnlySets a b) (h' : OnlySets b c) : OnlySets a c :=
  ⟨h.1.trans h'.1, fun i hi => h'.2 i (h.2 i hi)⟩

theorem digit_replicate_false (n i : ℕ) : digit (List.replicate n false) i = false := by
  rw [digit, List.reverse_replicate, List.getD_eq_getElem?_getD, List.getElem?_replicate]
  split_ifs <;> rfl

theorem onlySets_zero (a : List Bool) : OnlySets (List.replicate a.length false) a := by
  refine ⟨List.length_replicate, fun i hi => ?_⟩
  rw [digit_replicate_false] at hi
  cases hi

theorem onlySets_of_incremental {a b : List Bool} (h : _is_incremental_codeword a b = .ok true) :
    OnlySets a b := by
  rw [_is_incremental_codeword] at h
  split_ifs at h with hlen
  · cases h
  · refine ⟨not_not.mp hlen, fun i hi => ?_⟩
    have hand : intOfBin a &&& intOfBin b = intOfBin a := of_decide_eq_true (Except.ok.inj h)
    have hbit := congrArg (Nat.testBit · i) hand
    simp only [Nat.testBit_and, testBit_intOfBin] at hbit
    change (digit a i && digit b i) = digit a i at hbit
    rw [hi, Bool.true_and] at hbit
    exact hbit

/-! ### Encoding -/

theorem ecc_encode_ok {secded : Secded} {data w : List Bool} (h : ecc_encode secded data = .ok w) :
    (data.length : ℤ) = secded.data_width ∧
      eccRows secded.data_width secded.ecc_matrix data = .ok w := by
  rw [ecc_encode] at h
  dsimp only at h
  split_ifs at h with hlen
  · cases h
  · exact ⟨not_not.mp hlen, h⟩

/-- A row only puts a bit in front. -/
theorem eccStep_ok {data_width : ℤ} {codeword codeword' : List Bool} {row : List ℤ × ℕ}
    (h : eccStep data_width codeword row = .ok codeword') :
    ∃ bit, xorFanin codeword (data_width + row.2 - 1) false row.1 = .ok bit ∧
      codeword' = bit :: codeword := by
  obtain ⟨bit, hbit, h⟩ := bind_ok h
  cases h
  exact ⟨bit, hbit, rfl⟩

theorem suffix_of_eccRows {data_width : ℤ} {ecc_matrix : List (List ℤ)} {data w : List Bool}
    (h : eccRows data_width ecc_matrix data = .ok w) : data <:+ w := by
  refine foldlM_invariant (I := (data <:+ ·)) ?_ List.suffix_rfl h
  intro codeword row codeword' hsuffix hstep
  obtain ⟨bit, -, rfl⟩ := eccStep_ok hstep
  exact hsuffix.trans (List.suffix_cons bit codeword)

/-- The data of a codeword. -/
theorem drop_of_ecc_encode {secded : Secded} {data w : List Bool}
    (h : ecc_encode secded data = .ok w) : w.drop secded.ecc_matrix.length = data := by
  obtain ⟨-, hrows⟩ := ecc_encode_ok h
  have hlen := length_of_eccRows hrows
  obtain ⟨parities, rfl⟩ := suffix_of_eccRows hrows
  rw [List.length_append] at hlen
  exact List.drop_left' (by omega)

theorem index_zero {s : List Bool} {i : ℤ} {b : Bool} (h : index s i = .ok b) :
    index (List.replicate s.length false) i = .ok false := by
  rw [index] at h ⊢
  simp only [List.length_replicate, List.getElem?_replicate] at h ⊢
  generalize (if i < 0 then (s.length : ℤ) + i else i) = i at h ⊢
  by_cases hi : 0 ≤ i
  · rw [if_pos hi] at h ⊢
    by_cases hlt : i.toNat < s.length
    · rw [if_pos hlt]
    · rw [List.getElem?_eq_none (by omega)] at h
      cases h
  · rw [if_neg hi] at h
    cases h

theorem xorFanin_zero {codeword : List Bool} {last : ℤ} {fanin : List ℤ} {bit bit' : Bool}
    (h : xorFanin codeword last bit fanin = .ok bit') :
    xorFanin (List.replicate codeword.length false) last false fanin = .ok false := by
  induction fanin generalizing bit with
  | nil => rfl
  | cons k fanin ih =>
    rw [xorFanin, List.foldlM_cons] at h ⊢
    obtain ⟨_, hbit, h⟩ := bind_ok h
    obtain ⟨b, hb, -⟩ := bind_ok hbit
    rw [index_zero hb]
    exact ih h

/-- The code is linear: where a codeword exists at all, zero data has zero parities. -/
theorem ecc_encode_zero {secded : Secded} {data w : List Bool}
    (h : ecc_encode secded data = .ok w) :
    ecc_encode secded (List.replicate data.length false) =
      .ok (List.replicate w.length false) := by
  obtain ⟨hlen, hrows⟩ := ecc_encode_ok h
  rw [ecc_encode]
  dsimp only
  rw [List.length_replicate, if_neg (not_not.mpr hlen)]
  clear h hlen
  generalize secded.ecc_matrix = ecc_matrix at hrows ⊢
  induction ecc_matrix using List.reverseRecOn generalizing w with
  | nil =>
    cases hrows
    rfl
  | append_singleton ecc_matrix fanin ih =>
    rw [eccRows, zipIdx_concat, List.foldlM_append] at hrows
    obtain ⟨codeword, hcodeword, hlast⟩ := bind_ok hrows
    rw [List.foldlM_cons] at hlast
    obtain ⟨_, hstep, hnil⟩ := bind_ok hlast
    cases hnil
    obtain ⟨bit, hbit, rfl⟩ := eccStep_ok hstep
    rw [eccRows, zipIdx_concat, foldlM_concat (ih hcodeword), eccStep, xorFanin_zero hbit]
    rfl

/-! ### The search -/

/-- A codeword of the generator. -/
def IsCodeword (config : Config) (w : List Bool) : Prop :=
  ∃ data, ecc_encode config.secded data = .ok w

/-- What the search ensures of a pair. -/
structure PairOk (config : Config) (pair : Pair) : Prop where
  width : 1 ≤ config.secded.data_width
  fst : IsCodeword config pair.1
  snd : IsCodeword config pair.2
  sets : OnlySets pair.1 pair.2

section Search

variable {config : Config} {base_ecc : List Bool} {existing_words : List (List Bool)}

theorem addCandidate_ok {cands cands' : List (List Bool)} {k : ℕ}
    (h : addCandidate config base_ecc existing_words cands k = .ok cands')
    (hcands : ∀ cand ∈ cands, IsCodeword config cand ∧ OnlySets base_ecc cand) :
    ∀ cand ∈ cands', IsCodeword config cand ∧ OnlySets base_ecc cand := by
  obtain ⟨incr_cand, -, h⟩ := bind_ok h
  obtain ⟨incr_cand_ecc, hecc, h⟩ := bind_ok h
  obtain ⟨incremental, hincr, h⟩ := bind_ok h
  cases incremental with
  | false =>
    cases h
    exact hcands
  | true =>
    rw [if_pos rfl] at h
    split_ifs at h
    · obtain ⟨close, -, h⟩ := bind_ok h
      cases close with
      | true =>
        cases h
        exact hcands
      | false =>
        cases h
        rw [List.forall_mem_append, List.forall_mem_singleton]
        exact ⟨hcands, ⟨incr_cand, hecc⟩, onlySets_of_incremental hincr⟩
    · cases h
      exact hcands

theorem get_incremental_codewords_ok {cands : List (List Bool)}
    (h : _get_incremental_codewords config base_ecc existing_words = .ok cands) :
    ∀ cand ∈ cands, IsCodeword config cand ∧ OnlySets base_ecc cand :=
  foldlM_invariant (fun _ _ _ hcands h => addCandidate_ok h hcands) (by simp) h

theorem tryPair_ok {draw : Draw} {pair : Pair}
    (h : tryPair config existing_words draw = .ok (some pair)) : PairOk config pair := by
  rw [tryPair] at h
  dsimp only at h
  split_ifs at h with hneg
  · cases h
  obtain ⟨base_cand_ecc, hbase, h⟩ := bind_ok h
  split_ifs at h
  · obtain ⟨close, -, h⟩ := bind_ok h
    cases close with
    | true => cases h
    | false =>
      obtain ⟨cands, hcands, h⟩ := bind_ok h
      obtain ⟨cand, hcand, rfl⟩ := Option.map_eq_some_iff.mp (Except.ok.inj h)
      obtain ⟨hcode, hsets⟩ :=
        get_incremental_codewords_ok hcands cand (List.mem_of_getElem? hcand)
      have hlen := (ecc_encode_ok hbase).1
      rw [formatBin, List.length_reverse, List.length_map, List.length_range] at hlen
      exact ⟨by omega, ⟨_, hbase⟩, hcode, hsets⟩
  · cases h

theorem get_new_state_word_pair_ok {draws draws' : List Draw} {pair : Pair}
    (h : _get_new_state_word_pair config existing_words draws = .ok (some (pair, draws'))) :
    PairOk config pair := by
  induction draws with
  | nil => cases h
  | cons draw draws ih =>
    obtain ⟨found, hfound, h⟩ := bind_ok h
    cases found with
    | none => exact ih h
    | some pair' =>
      cases h
      exact tryPair_ok hfound

theorem newPairs_ok {n : ℕ} {pairs pairs' : List Pair} {draws draws' : List Draw}
    (h : newPairs config n pairs draws = .ok (some (pairs', draws'))) :
    ∃ new, pairs' = pairs ++ new ∧ new.length = n ∧ ∀ pair ∈ new, PairOk config pair := by
  induction n generalizing pairs draws with
  | zero =>
    cases h
    exact ⟨[], by simp⟩
  | succ n ih =>
    obtain ⟨found, hfound, h⟩ := bind_ok h
    cases found with
    | none => cases h
    | some found =>
      obtain ⟨new, rfl, hlen, hnew⟩ := ih h
      refine ⟨found.1 :: new, by simp, by simp [hlen], ?_⟩
      rw [List.forall_mem_cons]
      exact ⟨get_new_state_word_pair_ok hfound, hnew⟩

end Search

/-! ### The validation -/

theorem get_hd_ok {a b : List Bool} {d : ℕ} (h : get_hd a b = .ok d) : d = distance a b := by
  by_cases hlen : a.length = b.length
  · rw [get_hd_eq hlen] at h
    exact (Except.ok.inj h).symm
  · rw [get_hd, if_pos hlen] at h
    cases h

/-- A valid codeword of a good weight. -/
structure WordOk (config : Config) (w : List Bool) : Prop where
  valid : is_valid_codeword config.secded w = .ok true
  min_hw : config.min_hw ≤ w.count true
  max_hw : w.count true ≤ config.max_hw

section Validation

variable {config : Config}

theorem checkWord_ok {k : ℕ} {w : List Bool} {rest : List (List Bool)}
    (h : checkWord config k w rest = .ok ()) :
    WordOk config w ∧ ∀ w2 ∈ rest, config.min_hd ≤ distance w w2 := by
  obtain ⟨valid, hvalid, h⟩ := bind_ok h
  cases valid with
  | false => cases h
  | true =>
    simp only [Bool.not_true, Bool.false_eq_true, if_false] at h
    split_ifs at h with hweight
    · cases h
    · rw [not_or, not_lt, not_lt] at hweight
      refine ⟨⟨hvalid, hweight.1, hweight.2⟩, fun w2 hw2 => ?_⟩
      obtain ⟨k2, hk2⟩ := List.mem_iff_getElem?.mp hw2
      have hmem := List.mk_mem_zipIdx_iff_getElem?.mpr hk2
      obtain ⟨d, hd, hfar⟩ := bind_ok (forall_of_forM h (w2, k2) hmem)
      split_ifs at hfar with hnear
      rw [← get_hd_ok hd]
      exact not_lt.mp hnear

theorem validate_words_ok {k : ℕ} {ws : List (List Bool)}
    (h : _validate_words config k ws = .ok ()) :
    (∀ w ∈ ws, WordOk config w) ∧ ws.Pairwise fun w w2 => config.min_hd ≤ distance w w2 := by
  induction ws generalizing k with
  | nil => simp
  | cons w rest ih =>
    obtain ⟨⟨⟩, hword, h⟩ := bind_ok h
    obtain ⟨hw, hfar⟩ := checkWord_ok hword
    obtain ⟨hrest, hpairwise⟩ := ih h
    exact ⟨List.forall_mem_cons.mpr ⟨hw, hrest⟩, List.pairwise_cons.mpr ⟨hfar, hpairwise⟩⟩

/-- The entries of a state, as they are permitted for `n` words. -/
structure EntriesOk (typ : StateType) (n : ℕ) (entries : List String) : Prop where
  length : entries.length = n
  legal : ∀ j entry, entries[j]? = some entry → entry ∈ LC_STATE_TYPES typ j

theorem checkState_ok {typ : StateType} {num : ℕ} {state : String} {entries : List String}
    (h : checkState typ num state entries = .ok ()) : EntriesOk typ num entries := by
  rw [checkState] at h
  dsimp only at h
  split_ifs at h with hlen
  · cases h
  · refine ⟨(not_not.mp hlen).symm, fun j entry hentry => ?_⟩
    have hlegal := forall_of_forM h (entry, j) (List.mk_mem_zipIdx_iff_getElem?.mpr hentry)
    dsimp only at hlegal
    split_ifs at hlegal with hmem
    exact hmem

theorem validate_state_declarations_ok {typ : StateType} {num : ℕ}
    (h : _validate_state_declarations config typ = .ok ())
    (hnum : num_words config typ = .ok num) {state : String} {entries : List String}
    (hmem : (state, entries) ∈ config.states typ) : EntriesOk typ num entries := by
  rw [_validate_state_declarations] at h
  rw [num_words] at hnum
  cases hstates : config.states typ with
  | nil =>
    rw [hstates] at hmem
    cases hmem
  | cons first states =>
    rw [hstates] at h hnum hmem
    cases hnum
    exact checkState_ok (forall_of_forM h _ hmem)

end Validation

/-! ### What the constructor ensures -/

/-- All words, in the order in which they are generated. -/
def Generated.words (lc : Generated) : List (List Bool) :=
  LcStEnc.words (lc.genwords .lc_state ++ lc.genwords .lc_cnt)

structure Sound (lc : Generated) : Prop where
  bounds : InBounds lc.config.secded
  entries : ∀ typ state entries, (state, entries) ∈ lc.config.states typ →
    EntriesOk typ (lc.genwords typ).length entries
  pairs : ∀ typ, ∀ pair ∈ lc.genwords typ, PairOk lc.config pair
  words : ∀ w ∈ lc.words, WordOk lc.config w
  distances : lc.words.Pairwise fun w w2 => lc.config.min_hd ≤ distance w w2

theorem secded_of_validate {input : ConfigInput} {secded : Secded} {config : Config}
    (h : _validate_constraints input secded = .ok config) : config.secded = secded := by
  obtain ⟨min_hw, -, h⟩ := bind_ok h
  obtain ⟨max_hw, -, h⟩ := bind_ok h
  obtain ⟨min_hd, -, h⟩ := bind_ok h
  dsimp only at h
  split_ifs at h <;> cases h
  rfl

theorem sound_of_init {input : ConfigInput} {draws : List Draw} {lc : Generated}
    (h : init input draws = .ok (some lc)) : Sound lc := by
  obtain ⟨secded, hsecded, h⟩ := bind_ok h
  obtain ⟨config, hconfig, h⟩ := bind_ok h
  obtain ⟨⟨⟩, hstate, h⟩ := bind_ok h
  obtain ⟨⟨⟩, hcnt, h⟩ := bind_ok h
  obtain ⟨num_lc_state, hnum, h⟩ := bind_ok h
  obtain ⟨found, hfound, h⟩ := bind_ok h
  cases found with
  | none => cases h
  | some found =>
    obtain ⟨lc_state, draws'⟩ := found
    obtain ⟨num_lc_cnt, hnum', h⟩ := bind_ok h
    obtain ⟨found', hfound', h⟩ := bind_ok h
    cases found' with
    | none => cases h
    | some found' =>
      obtain ⟨pairs, draws''⟩ := found'
      obtain ⟨⟨⟩, hwords, h⟩ := bind_ok h
      obtain ⟨new, rfl, hlen, hnew⟩ := newPairs_ok hfound
      obtain ⟨new', rfl, hlen', hnew'⟩ := newPairs_ok hfound'
      rw [List.drop_left' hlen] at h
      cases h
      obtain ⟨hok, hdistances⟩ := validate_words_ok hwords
      refine ⟨?_, ?_, ?_, hok, hdistances⟩
      · rw [secded_of_validate hconfig]
        exact inBounds_of_validate hsecded
      · intro typ state entries hmem
        cases typ with
        | lc_state =>
          dsimp only
          rw [hlen]
          exact validate_state_declarations_ok hstate hnum hmem
        | lc_cnt =>
          dsimp only
          rw [hlen']
          exact validate_state_declarations_ok hcnt hnum' hmem
      · intro typ
        cases typ with
        | lc_state => exact hnew
        | lc_cnt => exact hnew'

/-! ### The codewords of a pair -/

/-- The stage of an entry: zero, the first word of the pair, or the second one. -/
def stage (typ : StateType) (j : ℕ) (entry : String) : ℕ := (LC_STATE_TYPES typ j).idxOf entry

/-- The codeword at a stage. -/
def codewordAt (pair : Pair) : ℕ → List Bool
  | 0 => List.replicate pair.1.length false
  | 1 => pair.1
  | _ + 2 => pair.2

section Codewords

variable {config : Config} {pair : Pair}

theorem PairOk.onlySets (h : PairOk config pair) : ∀ {m n : ℕ}, m ≤ n →
    OnlySets (codewordAt pair m) (codewordAt pair n)
  | 0, 0, _ => OnlySets.refl _
  | 0, 1, _ => onlySets_zero pair.1
  | 0, _ + 2, _ => (onlySets_zero pair.1).trans h.sets
  | 1, 1, _ => OnlySets.refl _
  | 1, _ + 2, _ => h.sets
  | _ + 2, _ + 2, _ => OnlySets.refl _
  | _ + 2, 1, hle => absurd hle (by omega)

theorem PairOk.isCodeword (h : PairOk config pair) : ∀ n, IsCodeword config (codewordAt pair n)
  | 0 => by
    obtain ⟨data, hdata⟩ := h.fst
    exact ⟨_, ecc_encode_zero hdata⟩
  | 1 => h.fst
  | _ + 2 => h.snd

theorem intOfBin_lt (w : List Bool) : intOfBin w < 2 ^ w.length := by
  apply Nat.lt_pow_two_of_testBit
  intro i hi
  rw [testBit_intOfBin, List.getD_eq_default _ _ (by rwa [List.length_reverse])]

theorem formatBin_intOfBin {w : List Bool} (h : 1 ≤ w.length) :
    formatBin w.length (intOfBin w) = w := by
  have hlen := length_formatBin h (intOfBin_lt w)
  apply List.reverse_injective
  apply List.ext_getElem (by rw [List.length_reverse, List.length_reverse, hlen])
  intro i hi hi'
  rw [← List.getD_eq_getElem _ false, ← List.getD_eq_getElem _ false, getD_formatBin,
    testBit_intOfBin]

/-- The number that stands for a codeword's data encodes to the codeword. -/
theorem ecc_encode_data (hbounds : InBounds config.secded) (hwidth : 1 ≤ config.secded.data_width)
    {w : List Bool} (h : IsCodeword config w) :
    intOfBin (w.drop config.secded.ecc_width.toNat) < 2 ^ config.secded.data_width.toNat ∧
      ecc_encode config.secded (formatBin config.secded.data_width.toNat
        (intOfBin (w.drop config.secded.ecc_width.toNat))) = .ok w := by
  obtain ⟨data, hdata⟩ := h
  have hlen := (ecc_encode_ok hdata).1
  rw [hbounds.ecc_width_eq, Int.toNat_natCast, drop_of_ecc_encode hdata, ← hlen,
    Int.toNat_natCast, formatBin_intOfBin (by omega)]
  exact ⟨intOfBin_lt data, hdata⟩

end Codewords

/-! ### Encoding a state -/

namespace Generated

variable (lc : Generated) (typ : StateType) (j : ℕ) (entry : String)

/-- The codeword that an entry stands for. -/
def codeword : List Bool :=
  codewordAt ((lc.genwords typ).getD j ([], [])) (stage typ j entry)

/-- The data of the codeword. -/
def data : ℕ := intOfBin ((lc.codeword typ j entry).drop lc.config.secded.ecc_width.toNat)

end Generated

theorem foldl_shift (w : ℕ) (words : List ℕ) :
    words.zipIdx.foldl (fun outval (word, k) => outval + word <<< (w * k)) 0 =
      Nat.ofDigits (2 ^ w) words := by
  induction words using List.reverseRecOn with
  | nil => rfl
  | append_singleton words word ih =>
    rw [zipIdx_concat, List.foldl_append, ih, Nat.ofDigits_append, Nat.ofDigits_singleton,
      List.foldl_cons, List.foldl_nil, ← Nat.pow_mul, Nat.mul_comm, ← Nat.shiftLeft_eq]

/-- A place of a number in a base. -/
theorem ofDigits_place {b : ℕ} {words : List ℕ} (h : ∀ word ∈ words, word < b) (j : ℕ) :
    Nat.ofDigits b words / b ^ j % b = words.getD j 0 := by
  induction words generalizing j with
  | nil => simp
  | cons word words ih =>
    obtain ⟨hword, hwords⟩ := List.forall_mem_cons.mp h
    rw [Nat.ofDigits_cons]
    cases j with
    | zero => simp [Nat.mod_eq_of_lt hword]
    | succ j =>
      rw [Nat.pow_succ', ← Nat.div_div_eq_div_mul, Nat.add_mul_div_left _ _ (by omega),
        Nat.div_eq_of_lt hword, Nat.zero_add, ih hwords, List.getD_cons_succ]

theorem intOfBin_zero (n : ℕ) : intOfBin (List.replicate n false) = 0 := by
  induction n with
  | zero => rfl
  | succ n ih => exact ih

section Encode

variable {lc : Generated} {typ : StateType} {entries : List String}

theorem word_eq {pair : Pair} {j : ℕ} {entry : String}
    (hpair : (lc.genwords typ)[j]? = some pair) (hlegal : entry ∈ LC_STATE_TYPES typ j) :
    lc.word typ j entry = .ok (lc.data typ j entry) := by
  rw [Generated.word, Generated.data, Generated.codeword, List.getD_eq_getElem?_getD, hpair,
    Option.getD_some]
  dsimp only
  rw [if_neg (not_not.mpr hlegal), ← stage]
  cases stage typ j entry with
  | zero =>
    rw [codewordAt, List.drop_replicate, intOfBin_zero]
    rfl
  | succ idx => cases idx <;> rfl

variable (hsound : Sound lc) (hentries : EntriesOk typ (lc.genwords typ).length entries)

include hsound hentries

/-- Each entry has a pair, and the data of its codeword fits the data width. -/
theorem codeword_ok {j : ℕ} {entry : String} (hentry : entries[j]? = some entry) :
    ∃ pair, (lc.genwords typ)[j]? = some pair ∧ PairOk lc.config pair ∧
      lc.data typ j entry < 2 ^ lc.config.secded.data_width.toNat ∧
      ecc_encode lc.config.secded (formatBin lc.config.secded.data_width.toNat
        (lc.data typ j entry)) = .ok (lc.codeword typ j entry) := by
  have hlt : j < (lc.genwords typ).length := by
    rw [← hentries.length]
    exact (List.getElem?_eq_some_iff.mp hentry).1
  have hpair := List.getElem?_eq_getElem hlt
  have hok := hsound.pairs typ _ (List.mem_of_getElem? hpair)
  refine ⟨_, hpair, hok, ?_⟩
  rw [Generated.data, Generated.codeword, List.getD_eq_getElem?_getD, hpair, Option.getD_some]
  exact ecc_encode_data hsound.bounds hok.width (hok.isCodeword _)

theorem encode_eq {state : String} (hstate : (lc.config.states typ).lookup state = some entries) :
    lc.encode typ state = .ok (Nat.ofDigits (2 ^ lc.config.secded.data_width.toNat)
      (entries.zipIdx.map fun e => lc.data typ e.2 e.1)) := by
  have hword : ∀ e ∈ entries.zipIdx, (fun e : String × ℕ => lc.word typ e.2 e.1) e =
      .ok (lc.data typ e.2 e.1) := by
    intro e he
    have hentry := List.mem_zipIdx_iff_getElem?.mp he
    obtain ⟨pair, hpair, -, -⟩ := codeword_ok hsound hentries hentry
    exact word_eq hpair (hentries.legal _ _ hentry)
  rw [Generated.encode, hstate]
  dsimp only
  rw [mapM_eq_ok hword, ← foldl_shift]
  rfl

/-- The words of the encoded value. -/
theorem encode_places (j : ℕ) :
    Nat.ofDigits (2 ^ lc.config.secded.data_width.toNat)
      (entries.zipIdx.map fun e => lc.data typ e.2 e.1) /
        (2 ^ lc.config.secded.data_width.toNat) ^ j % 2 ^ lc.config.secded.data_width.toNat =
      (entries[j]?.map (lc.data typ j)).getD 0 := by
  rw [ofDigits_place, List.getD_eq_getElem?_getD, List.getElem?_map, List.getElem?_zipIdx,
    Option.map_map, Nat.zero_add]
  · rfl
  · intro word hword
    obtain ⟨e, he, rfl⟩ := List.mem_map.mp hword
    obtain ⟨pair, -, -, hlt, -⟩ :=
      codeword_ok hsound hentries (List.mem_zipIdx_iff_getElem?.mp he)
    exact hlt

end Encode

/-! ### Programming one state over another -/

/-- Every entry of `t` is at the same or a later stage than the one of `s`. -/
def Later (typ : StateType) (s t : List String) : Prop :=
  ∀ j entry entry', s[j]? = some entry → t[j]? = some entry' →
    stage typ j entry ≤ stage typ j entry'

theorem digit_drop (w : List Bool) (n i : ℕ) :
    digit (w.drop n) i = (decide (i < w.length - n) && digit w i) := by
  by_cases hi : i < w.length - n
  · rw [decide_eq_true hi, Bool.true_and, digit, digit, List.getD_eq_getElem?_getD,
      List.getD_eq_getElem?_getD, List.getElem?_reverse (by rwa [List.length_drop]),
      List.getElem?_reverse (by omega), List.getElem?_drop, List.length_drop,
      show n + (w.length - n - 1 - i) = w.length - 1 - i by omega]
  · rw [decide_eq_false hi, Bool.false_and, digit_of_le (by rw [List.length_drop]; omega)]

theorem OnlySets.drop {a b : List Bool} (h : OnlySets a b) (n : ℕ) :
    OnlySets (a.drop n) (b.drop n) := by
  refine ⟨by rw [List.length_drop, List.length_drop, h.1], fun i hi => ?_⟩
  rw [digit_drop, Bool.and_eq_true] at hi ⊢
  exact ⟨h.1 ▸ hi.1, h.2 i hi.2⟩

theorem OnlySets.and_eq {a b : List Bool} (h : OnlySets a b) :
    intOfBin a &&& intOfBin b = intOfBin a := by
  apply Nat.eq_of_testBit_eq
  intro i
  rw [Nat.testBit_and, testBit_intOfBin, testBit_intOfBin]
  have hi := h.2 i
  rw [digit, digit] at hi
  cases hbit : a.reverse.getD i false with
  | false => rfl
  | true => rw [hi hbit, Bool.and_self]

/-- Numbers of which all words are compared. -/
theorem and_eq_of_places {w x y : ℕ} (hw : 1 ≤ w)
    (h : ∀ j, (x / (2 ^ w) ^ j % 2 ^ w) &&& (y / (2 ^ w) ^ j % 2 ^ w) = x / (2 ^ w) ^ j % 2 ^ w) :
    x &&& y = x := by
  apply Nat.eq_of_testBit_eq
  intro i
  have hbit := congrArg (Nat.testBit · (i % w)) (h (i / w))
  simp only [Nat.testBit_and, ← Nat.pow_mul, Nat.testBit_mod_two_pow, Nat.testBit_div_two_pow,
    Nat.mod_lt i hw, decide_true, Bool.true_and, Nat.mod_add_div] at hbit
  rw [Nat.testBit_and, hbit]

theorem mem_of_lookup {states : List (String × List String)} {state : String}
    {entries : List String} (h : states.lookup state = some entries) :
    (state, entries) ∈ states := by
  obtain ⟨l₁, l₂, rfl, -⟩ := List.lookup_eq_some_iff.mp h
  simp

/-- Both words of a pair are codewords that keep the constraints, and the second one only adds
ones. A state over an earlier one only sets bits, of the value and of the parities of each word. -/
theorem lc_encodings_only_set_bits {input : ConfigInput} {draws : List Draw} {lc : Generated}
    (h : init input draws = .ok (some lc)) :
    (∀ typ, (∀ pair ∈ lc.genwords typ, OnlySets pair.1 pair.2) ∧
      ∀ state entries, (state, entries) ∈ lc.config.states typ →
        entries.length = (lc.genwords typ).length) ∧
    (∀ w ∈ lc.words, is_valid_codeword lc.config.secded w = .ok true ∧
      lc.config.min_hw ≤ w.count true ∧ w.count true ≤ lc.config.max_hw) ∧
    (lc.words.Pairwise fun w w' => lc.config.min_hd ≤ distance w w') ∧
    ∀ typ s t entries entries', (lc.config.states typ).lookup s = some entries →
      (lc.config.states typ).lookup t = some entries' → Later typ entries entries' →
      let width := lc.config.secded.data_width.toNat
      ∃ x y, lc.encode typ s = .ok x ∧ lc.encode typ t = .ok y ∧ x &&& y = x ∧
        ∀ j < entries.length, ∃ u v,
          ecc_encode lc.config.secded (formatBin width (x / (2 ^ width) ^ j % 2 ^ width)) = .ok u ∧
          ecc_encode lc.config.secded (formatBin width (y / (2 ^ width) ^ j % 2 ^ width)) = .ok v ∧
          OnlySets u v := by
  have hsound := sound_of_init h
  refine ⟨fun typ => ⟨fun pair hpair => (hsound.pairs typ pair hpair).sets,
    fun state entries hmem => (hsound.entries typ state entries hmem).length⟩,
    fun w hw => ⟨(hsound.words w hw).valid, (hsound.words w hw).min_hw, (hsound.words w hw).max_hw⟩,
    hsound.distances, ?_⟩
  intro typ s t entries entries' hs ht hlater width
  have hentries := hsound.entries typ s entries (mem_of_lookup hs)
  have hentries' := hsound.entries typ t entries' (mem_of_lookup ht)
  have hlen : entries.length = entries'.length := hentries.length.trans hentries'.length.symm
  -- the codewords of a position
  have hsets : ∀ j entry entry', entries[j]? = some entry → entries'[j]? = some entry' →
      OnlySets (lc.codeword typ j entry) (lc.codeword typ j entry') := by
    intro j entry entry' hentry hentry'
    obtain ⟨pair, hpair, hok, -⟩ := codeword_ok hsound hentries hentry
    rw [Generated.codeword, Generated.codeword, List.getD_eq_getElem?_getD, hpair]
    exact hok.onlySets (hlater j entry entry' hentry hentry')
  refine ⟨_, _, encode_eq hsound hentries hs, encode_eq hsound hentries' ht, ?_, ?_⟩
  · obtain hzero | hpos := Nat.eq_zero_or_pos entries.length
    · rw [List.eq_nil_of_length_eq_zero hzero]
      exact Nat.zero_and _
    · obtain ⟨pair, -, hok, -⟩ :=
        codeword_ok hsound hentries (List.getElem?_eq_getElem hpos)
      have hwidth := hok.width
      apply and_eq_of_places (w := width) (by omega)
      intro j
      rw [encode_places hsound hentries, encode_places hsound hentries']
      obtain hj | hj := Nat.lt_or_ge j entries.length
      · have hentry := List.getElem?_eq_getElem hj
        have hentry' := List.getElem?_eq_getElem (hlen ▸ hj)
        rw [hentry, hentry']
        exact ((hsets j _ _ hentry hentry').drop _).and_eq
      · rw [List.getElem?_eq_none hj]
        exact Nat.zero_and _
  · intro j hj
    have hentry := List.getElem?_eq_getElem hj
    have hentry' := List.getElem?_eq_getElem (hlen ▸ hj)
    obtain ⟨pair, -, -, -, hu⟩ := codeword_ok hsound hentries hentry
    obtain ⟨pair', -, -, -, hv⟩ := codeword_ok hsound hentries' hentry'
    rw [encode_places hsound hentries, encode_places hsound hentries', hentry, hentry']
    exact ⟨_, _, hu, hv, hsets j _ _ hentry hentry'⟩

/-- One position each for the state and the counter, and a parity bit that repeats bit 0. -/
def smallConfig : ConfigInput where
  secded := ⟨some (.int 8), some (.int 1), some [[.int 0]]⟩
  min_hw := none
  max_hw := some (.int 9)
  min_hd := some (.int 1)
  states
    | .lc_state => [("RAW", ["0"]), ("TEST", ["A0"]), ("PROD", ["B0"])]
    | .lc_cnt => [("0", ["0"]), ("1", ["C0"]), ("2", ["D0"])]

theorem lc_encodings_only_set_bits_small : ∃ lc,
    init smallConfig [⟨0xfe, 0⟩, ⟨0x7e, 0⟩] = .ok (some lc) ∧
      ∃ x y, lc.encode .lc_state "TEST" = .ok x ∧ lc.encode .lc_state "PROD" = .ok y ∧
        x &&& y = x := by
  obtain ⟨lc, h, hstates⟩ : ∃ lc, init smallConfig [⟨0xfe, 0⟩, ⟨0x7e, 0⟩] = .ok (some lc) ∧
      lc.config.states = smallConfig.states := ⟨_, rfl, rfl⟩
  obtain ⟨-, -, -, hprogram⟩ := lc_encodings_only_set_bits h
  have hlater : Later .lc_state ["A0"] ["B0"] := by
    rintro (_ | j) entry entry' hentry hentry'
    · cases hentry
      cases hentry'
      decide
    · cases hentry
  obtain ⟨x, y, hx, hy, hand, -⟩ := hprogram .lc_state "TEST" "PROD" ["A0"] ["B0"]
    (by rw [hstates]; rfl) (by rw [hstates]; rfl) hlater
  exact ⟨lc, h, x, y, hx, hy, hand⟩

end SecureBoot.LcStEnc
