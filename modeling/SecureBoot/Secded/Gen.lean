import Mathlib.Data.List.Sublists
import SecureBoot.Lib.Parity

/-! The generator of SECDED codes, `secded_gen.py`: the choice of the codes, the
masks of the parity checks, and the encoder and decoder that are printed. What is
printed is given by its meaning: the encoder as a list of assignments, the decoder
as the values of its outputs. -/

namespace SecureBoot

open Bits Parity

/-- `CODE_OPTIONS`. -/
inductive CodeType
  | hsiao
  | invHsiao
  | hamming
  | invHamming
  deriving DecidableEq

namespace CodeType

/-- `codetype in ["inv_hsiao", "inv_hamming"]`. -/
def inverted : CodeType → Bool
  | .hsiao | .hamming => false
  | .invHsiao | .invHamming => true

/-- `codetype in ["hamming", "inv_hamming"]`. -/
def isHamming : CodeType → Bool
  | .hsiao | .invHsiao => false
  | .hamming | .invHamming => true

end CodeType

/-- An entry of the configuration; a `code_type` outside `CODE_OPTIONS` is `none`. -/
structure SecdedCfg where
  k : ℕ
  m : ℕ
  codeType : Option CodeType
  deriving DecidableEq

/-- `min_paritysize`. -/
def minParitysize (k : ℕ) : ℤ :=
  match (List.range' 2 8).find? fun m => k + m + 1 ≤ 2 ^ m with
  | some m => m + 1
  | none => -1

/-- The errors that `verify` counts in one entry. -/
def verifyCfg (cfg : SecdedCfg) : ℕ :=
  (if cfg.k ≤ 1 ∨ 120 < cfg.k then 1 else 0) +
  (if cfg.m ≤ 1 ∨ 20 < cfg.m then 1 else 0) +
  (if (cfg.m : ℤ) < minParitysize cfg.k then 1 else 0) +
  (if cfg.codeType.isNone then 1 else 0)

/-- `verify`: the number of errors in a configuration. -/
def verify (cfgs : List SecdedCfg) : ℕ := (cfgs.map verifyCfg).sum

/-! ### The Hsiao code -/

/-- `itertools.combinations`, in lexicographic order. -/
def combinations {α : Type*} : List α → ℕ → List (List α)
  | _, 0 => [[]]
  | [], _ + 1 => []
  | a :: l, n + 1 => (combinations l n).map (a :: ·) ++ combinations l (n + 1)

/-- `range(3, m + 1, 2)`. -/
def oddSteps (m : ℕ) : List ℕ := List.range' 3 ((m - 1) / 2) 2

/-- `math.ceil(float(a) / b)`. -/
def ceilDiv (a b : ℕ) : ℕ := (a + b - 1) / b

def idealFaninLoop (m : ℕ) : List ℕ → ℕ → ℕ → ℕ
  | [], _, fanin => fanin
  | select :: rest, needed, fanin =>
    let combos := (combinations (List.range m) select).length
    if combos ≤ needed then
      let fanin := fanin + ceilDiv (combos * select) m
      if needed - combos = 0 then fanin else idealFaninLoop m rest (needed - combos) fanin
    else fanin + ceilDiv (needed * select) m

/-- `ideal_fanin`. -/
def idealFanin (k m : ℕ) : ℕ := idealFaninLoop m (oddSteps m) k 0

/-- `calc_fanin`. -/
def calcFanin (width : ℕ) (codes : List (List ℕ)) : List ℕ :=
  codes.flatten.foldl (fun fanins e => fanins.modify e (· + 1)) (List.replicate width 0)

/-- `random.shuffle` from the seed of `gen_code`, call by call. -/
structure Shuffle where
  run : ℕ → List (List ℕ) → List (List ℕ)
  perm : ∀ call l, (run call l).Perm l

/-- The search for a subset within the ideal fan-in, shuffle by shuffle. -/
def hsiaoPick (shuffle : Shuffle) (m requiredRow faninIdeal : ℕ) (fanins : List ℕ) :
    ℕ → ℕ → List (List ℕ) → Option (List (List ℕ))
  | 0, _, _ => none
  | fuel + 1, call, candidate =>
    let candidate := shuffle.run call candidate
    let subset := candidate.take requiredRow
    let subsetFanins := calcFanin m subset
    if ∀ i < m, fanins.getD i 0 + subsetFanins.getD i 0 ≤ faninIdeal then some subset
    else hsiaoPick shuffle m requiredRow faninIdeal fanins fuel (call + 1) candidate

def hsiaoSteps (shuffle : Shuffle) (fuel m faninIdeal : ℕ) :
    List ℕ → ℕ → List (List ℕ) → Option (List (List ℕ))
  | [], _, codes => some codes
  | step :: steps, requiredRow, codes =>
    let candidate := combinations (List.range m) step
    if candidate.length ≤ requiredRow then
      -- more rounds are needed, or this one gives exactly the last rows
      if requiredRow - candidate.length = 0 then some (codes ++ candidate)
      else hsiaoSteps shuffle fuel m faninIdeal steps (requiredRow - candidate.length)
        (codes ++ candidate)
    else
      (hsiaoPick shuffle m requiredRow faninIdeal (calcFanin m codes) fuel 0 candidate).map
        (codes ++ ·)

/-- `_hsiao_code`; `none` when `fuel` shuffles have found no subset. -/
def hsiaoCode (shuffle : Shuffle) (fuel k m : ℕ) : Option (List (List ℕ)) :=
  hsiaoSteps shuffle fuel m (idealFanin k m) (oddSteps m) k []

/-! ### The Hamming code -/

/-- The positions that are no power of two. -/
def hammingDataBits (dataCnt parityCnt : ℕ) : List ℕ :=
  (List.range' 1 (dataCnt + parityCnt - 1)).filter fun b => b &&& (b - 1) ≠ 0

/-- The parity bits that cover position `b`, the last of them covering everything. -/
def hammingTuple (lastParity b : ℕ) : List ℕ :=
  (List.range lastParity).filter (fun p => b.testBit p) ++ [lastParity]

/-- `_hamming_code`. -/
def hammingCode (dataCnt parityCnt : ℕ) : List (List ℕ) :=
  let lastParity := parityCnt - 1
  (hammingDataBits dataCnt parityCnt).map (hammingTuple lastParity) ++
    List.replicate lastParity [lastParity]

/-- `gen_code`. -/
def genCode (shuffle : Shuffle) (fuel : ℕ) : CodeType → ℕ → ℕ → Option (List (List ℕ))
  | .hsiao, k, m | .invHsiao, k, m => hsiaoCode shuffle fuel k m
  | .hamming, k, m | .invHamming, k, m => some (hammingCode k m)

/-! ### The printed encoder and decoder -/

/-- `calc_bitmasks`. -/
def calcBitmasks (k m : ℕ) (codes : List (List ℕ)) (dec : Bool) : List ℕ :=
  let faninMasks := codes.zipIdx.foldl
    (fun masks (c, i) => c.foldl (fun masks j => masks.modify j (· + 2 ^ i)) masks)
    (List.replicate m 0)
  if dec then faninMasks.mapIdx fun j mask => mask + 2 ^ (k + j) else faninMasks

/-- The odd parity bits, which the inverted codes complement. -/
def invMask (m : ℕ) : ℕ := ((List.range m).map fun j => (j % 2) * 2 ^ j).sum

/-- The constant an inverted code adds to its word; `0` for the other codes. -/
def invWord (t : CodeType) (k m : ℕ) : BitVec (k + m) :=
  if t.inverted then BitVec.ofNat (k + m) (invMask m <<< k) else 0

/-- A line of the printed encoder. -/
inductive EncLine
  /-- `data_o[bit] = ^(data_o & n'hmask);` -/
  | parity (bit mask : ℕ)
  /-- `data_o ^= n'hmask;` -/
  | invert (mask : ℕ)

def EncLine.run {n : ℕ} : EncLine → BitVec n → BitVec n
  | .parity bit mask, x => setBit x bit (xorReduce (x &&& BitVec.ofNat n mask))
  | .invert mask, x => x ^^^ BitVec.ofNat n mask

/-- `print_enc`. -/
def printEnc (t : CodeType) (k m : ℕ) (codes : List (List ℕ)) : List EncLine :=
  ((calcBitmasks k m codes false).zipIdx.map fun (mask, j) => .parity (j + k) mask) ++
    if t.inverted then [.invert (invMask m <<< k)] else []

/-- The printed encoder. -/
def secdedEnc (t : CodeType) (k m : ℕ) (codes : List (List ℕ)) (data : BitVec k) :
    BitVec (k + m) :=
  (printEnc t k m codes).foldl (fun x line => line.run x) (data.setWidth (k + m))

/-- `calc_syndrome`. -/
def calcSyndrome (code : List ℕ) : ℕ := (code.map (2 ^ ·)).sum

/-- Row `j` of the check matrix of the printed decoder. -/
def decRow (k m : ℕ) (codes : List (List ℕ)) (j : ℕ) : BitVec (k + m) :=
  BitVec.ofNat (k + m) ((calcBitmasks k m codes true).getD j 0)

/-- The outputs of a decoder. -/
structure SecdedDec (k m : ℕ) where
  data : BitVec k
  syndrome : BitVec m
  err : BitVec 2

/-- `err_o`, of which bit 0 is a single and bit 1 a double error. -/
def decErr (t : CodeType) {m : ℕ} (syndrome : BitVec m) : BitVec 2 :=
  if t.isHamming then
    let last := syndrome.getLsbD (m - 1)
    setBit (setBit 0 0 last) 1 (syndrome.setWidth (m - 1) ≠ 0 && !last)
  else
    let single := xorReduce syndrome
    setBit (setBit 0 0 single) 1 (!single && syndrome ≠ 0)

/-- The decoder that `print_dec` prints. -/
def secdedDec (t : CodeType) (k m : ℕ) (codes : List (List ℕ)) (data_i : BitVec (k + m)) :
    SecdedDec k m :=
  let syndrome : BitVec m := Parity.syndrome (decRow k m codes) (data_i ^^^ invWord t k m)
  { data := ofBits k fun i =>
      (syndrome == BitVec.ofNat m (calcSyndrome (codes.getD i []))) ^^ data_i.getLsbD i
    syndrome
    err := decErr t syndrome }

end SecureBoot
