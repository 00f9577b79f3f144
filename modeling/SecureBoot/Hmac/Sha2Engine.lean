import SecureBoot.Hmac.Sha2PadStandard

/-! The SHA-256 engine, `sha2`: the message words that the padding logic delivers are loaded and
compressed block by block. From the start on a message to the end of its hash, the registers hold
what FIPS 180-4 computes from the words that were taken. -/

namespace SecureBoot

open Fips180

/-! ### The functions of `hmac_pkg` -/

def InitHash : Vector Word 8 :=
  #v[0x6a09e667, 0xbb67ae85, 0x3c6ef372, 0xa54ff53a, 0x510e527f, 0x9b05688c, 0x1f83d9ab, 0x5be0cd19]

def CubicRootPrime : Vector Word 64 :=
  #v[0x428a2f98, 0x71374491, 0xb5c0fbcf, 0xe9b5dba5, 0x3956c25b, 0x59f111f1, 0x923f82a4, 0xab1c5ed5,
    0xd807aa98, 0x12835b01, 0x243185be, 0x550c7dc3, 0x72be5d74, 0x80deb1fe, 0x9bdc06a7, 0xc19bf174,
    0xe49b69c1, 0xefbe4786, 0x0fc19dc6, 0x240ca1cc, 0x2de92c6f, 0x4a7484aa, 0x5cb0a9dc, 0x76f988da,
    0x983e5152, 0xa831c66d, 0xb00327c8, 0xbf597fc7, 0xc6e00bf3, 0xd5a79147, 0x06ca6351, 0x14292967,
    0x27b70a85, 0x2e1b2138, 0x4d2c6dfc, 0x53380d13, 0x650a7354, 0x766a0abb, 0x81c2c92e, 0x92722c85,
    0xa2bfe8a1, 0xa81a664b, 0xc24b8b70, 0xc76c51a3, 0xd192e819, 0xd6990624, 0xf40e3585, 0x106aa070,
    0x19a4c116, 0x1e376c08, 0x2748774c, 0x34b0bcb5, 0x391c0cb3, 0x4ed8aa4a, 0x5b9cca4f, 0x682e6ff3,
    0x748f82ee, 0x78a5636f, 0x84c87814, 0x8cc70208, 0x90befffa, 0xa4506ceb, 0xbef9a3f7, 0xc67178f2]

def rotr (v : Word) (amt : ℕ) : Word := v >>> amt ||| v <<< (32 - amt)

def shiftr (v : Word) (amt : ℕ) : Word := v >>> amt

def compress (w k : Word) (h_i : Vector Word 8) : Vector Word 8 :=
  let sigma_1 := rotr (h_i.get 4) 6 ^^^ rotr (h_i.get 4) 11 ^^^ rotr (h_i.get 4) 25
  let ch := (h_i.get 4 &&& h_i.get 5) ^^^ (~~~h_i.get 4 &&& h_i.get 6)
  let temp1 := h_i.get 7 + sigma_1 + ch + k + w
  let sigma_0 := rotr (h_i.get 0) 2 ^^^ rotr (h_i.get 0) 13 ^^^ rotr (h_i.get 0) 22
  let maj := (h_i.get 0 &&& h_i.get 1) ^^^ (h_i.get 0 &&& h_i.get 2) ^^^ (h_i.get 1 &&& h_i.get 2)
  let temp2 := sigma_0 + maj
  #v[temp1 + temp2, h_i.get 0, h_i.get 1, h_i.get 2, h_i.get 3 + temp1, h_i.get 4, h_i.get 5,
    h_i.get 6]

def calc_w (w_0 w_1 w_9 w_14 : Word) : Word :=
  let sum0 := rotr w_1 7 ^^^ rotr w_1 18 ^^^ shiftr w_1 3
  let sum1 := rotr w_14 17 ^^^ rotr w_14 19 ^^^ shiftr w_14 10
  w_0 + sum0 + w_9 + sum1

/-! ### The registers -/

/-- `fifoctl_state_e`. -/
inductive FifoctlState
  | FifoIdle
  | FifoLoadFromFifo
  | FifoWait
  deriving DecidableEq

/-- `sha_st_t`. -/
inductive ShaSt
  | ShaIdle
  | ShaCompress
  | ShaUpdateDigest
  deriving DecidableEq

structure Sha2In where
  wipe_secret : Bool
  wipe_v : Word
  fifo_rvalid : Bool
  fifo_rdata : ShaFifo
  sha_en : Bool
  hash_start : Bool
  hash_process : Bool
  message_length : BitVec 64

structure Sha2 where
  u_pad : Sha2Pad
  w : Fin 16 → Word
  hash : Vector Word 8
  digest : Vector Word 8
  round : BitVec 6
  w_index : BitVec 4
  hash_done : Bool
  fifo_st_q : FifoctlState
  sha_st_q : ShaSt
  deriving DecidableEq

namespace Sha2

def reset : Sha2 where
  u_pad := ⟨false, .StIdle, 0⟩
  w := fun _ => 0
  hash := .replicate 8 0
  digest := .replicate 8 0
  round := 0
  w_index := 0
  hash_done := false
  fifo_st_q := .FifoIdle
  sha_st_q := .ShaIdle

variable (s : Sha2) (i : Sha2In)

def complete_one_chunk : Bool := s.round == 63

/-- What the padding logic sees, for a given `shaf_rready`. -/
def padInOf (shaf_rready : Bool) : Sha2PadIn where
  fifo_rvalid := i.fifo_rvalid
  fifo_rdata := i.fifo_rdata
  shaf_rready := shaf_rready
  sha_en := i.sha_en
  hash_start := i.hash_start
  hash_process := i.hash_process
  hash_done := s.hash_done
  message_length := i.message_length

/-- `shaf_rvalid` does not depend on `shaf_rready`. -/
def shaf_rvalid : Bool := (s.u_pad.comb (s.padInOf i false)).shaf_rvalid

/-- What the state machine of the FIFO decides. -/
structure FifoComb where
  fifo_st_d : FifoctlState
  update_w_from_fifo : Bool
  hash_done_next : Bool

def fifoComb : FifoComb :=
  match s.fifo_st_q with
  | .FifoIdle => ⟨if i.hash_start then .FifoLoadFromFifo else .FifoIdle, false, false⟩
  | .FifoLoadFromFifo =>
    if !i.sha_en then ⟨.FifoIdle, false, false⟩
    else if !s.shaf_rvalid i then ⟨.FifoLoadFromFifo, false, false⟩
    else if s.w_index == 15 then ⟨.FifoWait, true, false⟩
    else ⟨.FifoLoadFromFifo, true, false⟩
  | .FifoWait =>
    if s.u_pad.msg_feed_complete && s.complete_one_chunk then ⟨.FifoIdle, false, true⟩
    else if s.complete_one_chunk then ⟨.FifoLoadFromFifo, false, false⟩
    else ⟨.FifoWait, false, false⟩

/-- What the SHA control decides. -/
structure ShaComb where
  sha_st_d : ShaSt
  update_digest : Bool
  calculate_next_w : Bool
  init_hash : Bool
  run_hash : Bool

def shaComb : ShaComb :=
  match s.sha_st_q with
  | .ShaIdle =>
    if s.fifo_st_q = .FifoWait then ⟨.ShaCompress, false, false, true, false⟩
    else ⟨.ShaIdle, false, false, false, false⟩
  | .ShaCompress =>
    ⟨if s.complete_one_chunk then .ShaUpdateDigest else .ShaCompress, false,
      decide (s.round < 48), false, true⟩
  | .ShaUpdateDigest =>
    if s.fifo_st_q = .FifoWait then ⟨.ShaCompress, true, false, true, false⟩
    else ⟨.ShaIdle, true, false, false, false⟩

def update_w_from_fifo : Bool := (s.fifoComb i).update_w_from_fifo

def padIn : Sha2PadIn := s.padInOf i (s.update_w_from_fifo i)

def shaf_rdata : Word := s.u_pad.shaf_rdata (s.padIn i)

def idle : Bool := s.fifo_st_q = .FifoIdle && s.sha_st_q = .ShaIdle && !i.hash_start

/-- `{x, w[15:1]}`. -/
def shiftIn (x : Word) (w : Fin 16 → Word) : Fin 16 → Word := Fin.snoc (Fin.tail w) x

/-- A clock edge. -/
def clock : Sha2 where
  u_pad := s.u_pad.clock (s.padIn i)
  w :=
    if i.wipe_secret then fun k => s.w k ^^^ i.wipe_v
    else if !i.sha_en then fun _ => 0
    else if !s.shaComb.run_hash && s.update_w_from_fifo i then shiftIn (s.shaf_rdata i) s.w
    else if s.shaComb.calculate_next_w then
      shiftIn (calc_w (s.w 0) (s.w 1) (s.w 9) (s.w 14)) s.w
    else if s.shaComb.run_hash then shiftIn 0 s.w
    else s.w
  hash :=
    if i.wipe_secret then s.hash.map (· ^^^ i.wipe_v)
    else if s.shaComb.init_hash then s.digest
    else if s.shaComb.run_hash then compress (s.w 0) (CubicRootPrime.get s.round.toFin) s.hash
    else s.hash
  digest :=
    if i.wipe_secret then s.digest.map (· ^^^ i.wipe_v)
    else if i.hash_start then InitHash
    else if !i.sha_en then .replicate 8 0
    else if s.shaComb.update_digest then s.digest.zipWith (· + ·) s.hash
    else s.digest
  round :=
    if !i.sha_en then 0
    else if s.shaComb.run_hash then if s.round == 63 then 0 else s.round + 1
    else s.round
  w_index :=
    if !i.sha_en then 0 else if s.update_w_from_fifo i then s.w_index + 1 else s.w_index
  hash_done := (s.fifoComb i).hash_done_next
  fifo_st_q := (s.fifoComb i).fifo_st_d
  sha_st_q := s.shaComb.sha_st_d

end Sha2

/-! ### The standard's functions -/

theorem rotr_eq (x : Word) {amt : ℕ} (h : amt < 32) : rotr x amt = x.rotateRight amt := by
  rw [rotr, BitVec.rotateRight_def, Nat.mod_eq_of_lt h]

theorem compress_eq (w k : Word) (h : Vector Word 8) : compress w k h = hashRound k w h := by
  simp only [compress, hashRound, ch, maj, bigSigma0, bigSigma1, rotr_eq _ (show 2 < 32 by decide),
    rotr_eq _ (show 6 < 32 by decide), rotr_eq _ (show 11 < 32 by decide),
    rotr_eq _ (show 13 < 32 by decide), rotr_eq _ (show 22 < 32 by decide),
    rotr_eq _ (show 25 < 32 by decide)]

theorem calc_w_eq (w_0 w_1 w_9 w_14 : Word) :
    calc_w w_0 w_1 w_9 w_14 = smallSigma1 w_14 + w_9 + smallSigma0 w_1 + w_0 := by
  rw [calc_w, smallSigma0, smallSigma1, shiftr, shiftr, rotr_eq _ (show 7 < 32 by decide),
    rotr_eq _ (show 17 < 32 by decide), rotr_eq _ (show 18 < 32 by decide),
    rotr_eq _ (show 19 < 32 by decide)]
  ac_rfl

theorem InitHash_eq : InitHash = initialHash := by decide +kernel

theorem CubicRootPrime_toList : CubicRootPrime.toList = rootFractions 3 := by decide +kernel

theorem CubicRootPrime_get (round : BitVec 6) :
    CubicRootPrime.get round.toFin = roundConstant round.toNat := by
  have hlt : round.toNat < CubicRootPrime.toList.length := round.isLt
  rw [roundConstant, ← CubicRootPrime_toList, List.getD_eq_getElem?_getD,
    List.getElem?_eq_getElem hlt]
  rfl

namespace Sha2

/-! ### What the registers hold -/

/-- The states of the engine when it has taken `n` of the `N` words `M`. -/
inductive Phase (M : ℕ → Word) (N n : ℕ) (s : Sha2) : Prop
  | load (hfifo : s.fifo_st_q = .FifoLoadFromFifo) (hsha : s.sha_st_q = .ShaIdle)
      (hdigest : s.digest = hashValue M (n / 16))
      (hw : ∀ k : Fin 16, 16 ≤ k + n % 16 → s.w k = M (n + k - 16))
  | update (hfifo : s.fifo_st_q = .FifoLoadFromFifo) (hsha : s.sha_st_q = .ShaUpdateDigest)
      (hn : n % 16 = 0) (hdigest : s.digest.zipWith (· + ·) s.hash = hashValue M (n / 16))
  | filled (b : ℕ) (hfifo : s.fifo_st_q = .FifoWait) (hsha : s.sha_st_q = .ShaIdle)
      (hn : n = 16 * (b + 1)) (hdigest : s.digest = hashValue M b)
      (hw : ∀ k : Fin 16, s.w k = block M b k)
  | compress (b : ℕ) (hfifo : s.fifo_st_q = .FifoWait) (hsha : s.sha_st_q = .ShaCompress)
      (hn : n = 16 * (b + 1)) (hdigest : s.digest = hashValue M b)
      (hhash : s.hash = rounds (block M b) (hashValue M b) s.round.toNat)
      (hw : ∀ k : Fin 16, s.round.toNat + k < 64 →
        s.w k = schedule (block M b) (s.round.toNat + k))
  | finish (hfifo : s.fifo_st_q = .FifoIdle) (hsha : s.sha_st_q = .ShaUpdateDigest) (hn : n = N)
      (hdigest : s.digest.zipWith (· + ·) s.hash = hashValue M (N / 16))
  | rest (hfifo : s.fifo_st_q = .FifoIdle) (hsha : s.sha_st_q = .ShaIdle) (hn : n = N)
      (hdigest : s.digest = hashValue M (N / 16))

structure Inv (M : ℕ → Word) (N n : ℕ) (s : Sha2) : Prop where
  round : s.sha_st_q ≠ .ShaCompress → s.round = 0
  w_index : s.w_index = BitVec.ofNat 4 n
  hash_done : s.hash_done = true ↔ s.fifo_st_q = .FifoIdle ∧ s.sha_st_q = .ShaUpdateDigest
  phase : Phase M N n s

/-- A cycle in the middle of a message. -/
structure Calm (i : Sha2In) : Prop where
  wipe_secret : i.wipe_secret = false
  sha_en : i.sha_en = true
  hash_start : i.hash_start = false

variable {M : ℕ → Word} {N n : ℕ} {s : Sha2} {i : Sha2In}

theorem forall_shiftIn {P : ℕ → Word → Prop} {x : Word} {w : Fin 16 → Word} (hlast : P 15 x)
    (h : ∀ k : Fin 16, 0 < k.val → P (k.val - 1) (w k)) (k : Fin 16) : P k (shiftIn x w k) := by
  cases k using Fin.lastCases with
  | last =>
    rw [shiftIn, Fin.snoc_last]
    exact hlast
  | cast j =>
    rw [shiftIn, Fin.snoc_castSucc]
    exact h j.succ (Nat.succ_pos _)

theorem ofNat_eq_15 (n : ℕ) : BitVec.ofNat 4 n = 15#4 ↔ n % 16 = 15 := by
  rw [← BitVec.toNat_inj, BitVec.toNat_ofNat]
  exact Iff.rfl

/-- A message word is shifted in. -/
theorem load_word {w : Fin 16 → Word} (hw : ∀ k : Fin 16, 16 ≤ k + n % 16 → w k = M (n + k - 16))
    (k : Fin 16) (hk : 15 ≤ k + n % 16) : shiftIn (M n) w k = M (n + k - 15) := by
  revert hk
  refine forall_shiftIn (P := fun k x => 15 ≤ k + n % 16 → x = M (n + k - 15)) ?_ ?_ k
  · intro _
    exact congrArg M (by omega)
  · intro k hk hle
    rw [hw k (by omega)]
    exact congrArg M (by omega)

/-- A word of the message schedule, or what is never read, is shifted in. -/
theorem schedule_word {W : ℕ → Word} {w : Fin 16 → Word} {r : ℕ} {x : Word}
    (hx : r + 16 < 64 → x = schedule W (r + 16))
    (hw : ∀ k : Fin 16, r + k < 64 → w k = schedule W (r + k)) (k : Fin 16)
    (hk : r + 1 + k < 64) : shiftIn x w k = schedule W (r + 1 + k) := by
  revert hk
  refine forall_shiftIn (P := fun k x => r + 1 + k < 64 → x = schedule W (r + 1 + k)) ?_ ?_ k
  · intro hlt
    exact hx hlt
  · intro k hk hlt
    rw [hw k (by omega)]
    exact congrArg (schedule W) (by omega)

/-! ### One cycle -/

section Calm

variable (hi : Calm i)

include hi

theorem clock_digest : (s.clock i).digest =
    if s.shaComb.update_digest then s.digest.zipWith (· + ·) s.hash else s.digest := by
  simp [clock, hi.wipe_secret, hi.sha_en, hi.hash_start]

theorem clock_hash : (s.clock i).hash =
    if s.shaComb.init_hash then s.digest
    else if s.shaComb.run_hash then hashRound (roundConstant s.round.toNat) (s.w 0) s.hash
    else s.hash := by
  simp only [clock, hi.wipe_secret, Bool.false_eq_true, if_false, compress_eq, CubicRootPrime_get]

theorem clock_round : (s.clock i).round =
    if s.shaComb.run_hash then if s.round == 63 then 0 else s.round + 1 else s.round := by
  simp [clock, hi.sha_en]

theorem round_succ (hsha : s.sha_st_q = .ShaCompress) (hlast : ¬s.round = 63) :
    (s.clock i).round.toNat = s.round.toNat + 1 := by
  have hne : s.round.toNat ≠ 63 := fun h => hlast (BitVec.eq_of_toNat_eq h)
  have hlt : s.round.toNat < 64 := s.round.isLt
  rw [clock_round hi, shaComb, hsha]
  simp only [if_true, beq_iff_eq, if_neg hlast, BitVec.toNat_add]
  exact Nat.mod_eq_of_lt (by simp; omega)

theorem Phase.of_load (hfifo : s.fifo_st_q = .FifoLoadFromFifo)
    (hindex : s.w_index = BitVec.ofNat 4 n) (hst : s.shaComb.sha_st_d = .ShaIdle)
    (hrun : s.shaComb.run_hash = false) (hdigest : (s.clock i).digest = hashValue M (n / 16))
    (hnext : s.shaComb.calculate_next_w = false)
    (hw : ∀ k : Fin 16, 16 ≤ k + n % 16 → s.w k = M (n + k - 16))
    (hdata : s.update_w_from_fifo i = true → s.shaf_rdata i = M n) :
    Phase M N (n + (s.update_w_from_fifo i).toNat) (s.clock i) := by
  have hw' : (s.clock i).w = if s.update_w_from_fifo i then shiftIn (M n) s.w else s.w := by
    cases hupdate : s.update_w_from_fifo i with
    | false => simp [clock, hi.wipe_secret, hi.sha_en, hrun, hupdate, hnext]
    | true => simp [clock, hi.wipe_secret, hi.sha_en, hrun, hupdate, hdata hupdate]
  rw [update_w_from_fifo] at hw' ⊢
  cases hvalid : s.shaf_rvalid i with
  | false =>
    have hcomb : s.fifoComb i = ⟨.FifoLoadFromFifo, false, false⟩ := by
      simp [fifoComb, hfifo, hi.sha_en, hvalid]
    rw [hcomb] at hw' ⊢
    exact .load (congrArg FifoComb.fifo_st_d hcomb) hst hdigest (hw' ▸ hw)
  | true =>
    by_cases hlast : n % 16 = 15
    · have hcomb : s.fifoComb i = ⟨.FifoWait, true, false⟩ := by
        simp [fifoComb, hfifo, hi.sha_en, hvalid, hindex, ofNat_eq_15, hlast]
      rw [hcomb, if_pos rfl] at hw'
      rw [hcomb, Bool.toNat_true]
      refine .filled (n / 16) (congrArg FifoComb.fifo_st_d hcomb) hst (by omega) hdigest ?_
      intro k
      rw [hw', load_word hw k (by omega)]
      exact congrArg M (by omega)
    · have hcomb : s.fifoComb i = ⟨.FifoLoadFromFifo, true, false⟩ := by
        simp [fifoComb, hfifo, hi.sha_en, hvalid, hindex, ofNat_eq_15, hlast]
      rw [hcomb, if_pos rfl] at hw'
      rw [hcomb, Bool.toNat_true]
      refine .load (congrArg FifoComb.fifo_st_d hcomb) hst ?_ ?_
      · rw [hdigest]
        exact congrArg (hashValue M) (by omega)
      · intro k hk
        rw [hw', load_word hw k (by omega)]
        exact congrArg M (by omega)

theorem Phase.of_filled {b : ℕ} (hfifo : s.fifo_st_q = .FifoWait) (hsha : s.sha_st_q = .ShaIdle)
    (hround : s.round = 0) (hn : n = 16 * (b + 1)) (hdigest : s.digest = hashValue M b)
    (hw : ∀ k : Fin 16, s.w k = block M b k) :
    Phase M N (n + (s.update_w_from_fifo i).toNat) (s.clock i) := by
  have hcomb : s.fifoComb i = ⟨.FifoWait, false, false⟩ := by
    simp [fifoComb, hfifo, complete_one_chunk, hround]
  have hsha' : s.shaComb = ⟨.ShaCompress, false, false, true, false⟩ := by
    rw [shaComb, hsha, hfifo]
    rfl
  have hround' : (s.clock i).round = 0 := by
    rw [clock_round hi, hsha']
    exact hround
  have hw' : (s.clock i).w = s.w := by
    simp [clock, hi.wipe_secret, hi.sha_en, hsha', update_w_from_fifo, hcomb]
  rw [update_w_from_fifo, hcomb]
  refine .compress b (congrArg FifoComb.fifo_st_d hcomb) (congrArg ShaComb.sha_st_d hsha') hn
    ?_ ?_ ?_
  · rw [clock_digest hi, hsha']
    exact hdigest
  · rw [clock_hash hi, hsha', hround']
    exact hdigest
  · intro k _
    rw [hw', hround', hw k]
    exact (schedule_of_lt (block M b) (by omega)).symm.trans
      (congrArg (schedule (block M b)) (Nat.zero_add _).symm)

/-- A round of the compression, with the message schedule one word further. -/
theorem compress_clock {b : ℕ} (hsha : s.sha_st_q = .ShaCompress)
    (hhash : s.hash = rounds (block M b) (hashValue M b) s.round.toNat)
    (hw : ∀ k : Fin 16, s.round.toNat + k < 64 →
      s.w k = schedule (block M b) (s.round.toNat + k)) :
    (s.clock i).digest = s.digest ∧
      (s.clock i).hash = rounds (block M b) (hashValue M b) (s.round.toNat + 1) ∧
      ∀ k : Fin 16, s.round.toNat + 1 + k < 64 →
        (s.clock i).w k = schedule (block M b) (s.round.toNat + 1 + k) := by
  have hrun : s.shaComb.run_hash = true := by rw [shaComb, hsha]
  have hinit : s.shaComb.init_hash = false := by rw [shaComb, hsha]
  have hnext : s.shaComb.calculate_next_w = decide (s.round < 48) := by rw [shaComb, hsha]
  have hlt : s.round.toNat < 64 := s.round.isLt
  refine ⟨?_, ?_, fun k hk => ?_⟩
  · rw [clock_digest hi, shaComb, hsha]
    rfl
  · rw [clock_hash hi, hinit, hrun, hhash, hw 0 hlt]
    rfl
  · have hw' : (s.clock i).w =
        shiftIn (if s.round < 48 then calc_w (s.w 0) (s.w 1) (s.w 9) (s.w 14) else 0) s.w := by
      simp only [clock, hi.wipe_secret, hi.sha_en, hrun, hnext, Bool.not_true, Bool.false_and,
        Bool.false_eq_true, if_false, if_true, decide_eq_true_eq]
      split_ifs <;> rfl
    rw [hw']
    refine schedule_word (fun hr => ?_) hw k hk
    have hr' : s.round < 48 := by
      rw [BitVec.lt_def]
      exact Nat.lt_of_add_lt_add_right hr
    rw [if_pos hr', calc_w_eq, hw 0 hlt, hw 1 (by omega), hw 9 (by omega), hw 14 (by omega),
      schedule_add]
    rfl

theorem Phase.of_compress {b : ℕ} (hfifo : s.fifo_st_q = .FifoWait)
    (hsha : s.sha_st_q = .ShaCompress) (hn : n = 16 * (b + 1)) (hdigest : s.digest = hashValue M b)
    (hhash : s.hash = rounds (block M b) (hashValue M b) s.round.toNat)
    (hw : ∀ k : Fin 16, s.round.toNat + k < 64 →
      s.w k = schedule (block M b) (s.round.toNat + k))
    (hfeed : s.u_pad.msg_feed_complete = true → n = N) :
    Phase M N (n + (s.update_w_from_fifo i).toNat) (s.clock i) := by
  obtain ⟨hdigest', hhash', hw'⟩ := compress_clock hi hsha hhash hw
  by_cases hlast : s.round = 63
  · have hcomplete : s.complete_one_chunk = true := by rw [complete_one_chunk, hlast]; rfl
    have hst : (s.clock i).sha_st_q = .ShaUpdateDigest := by
      simp [clock, shaComb, hsha, hcomplete]
    have hvalue : (s.clock i).digest.zipWith (· + ·) (s.clock i).hash = hashValue M (b + 1) := by
      rw [hdigest', hhash', hdigest, hlast]
      rfl
    have hdiv : n / 16 = b + 1 := by omega
    cases hfeed' : s.u_pad.msg_feed_complete with
    | true =>
      have hcomb : s.fifoComb i = ⟨.FifoIdle, false, true⟩ := by
        simp [fifoComb, hfifo, hcomplete, hfeed']
      rw [update_w_from_fifo, hcomb]
      refine .finish (congrArg FifoComb.fifo_st_d hcomb) hst (hfeed hfeed') ?_
      rw [← hfeed hfeed', hdiv]
      exact hvalue
    | false =>
      have hcomb : s.fifoComb i = ⟨.FifoLoadFromFifo, false, false⟩ := by
        simp [fifoComb, hfifo, hcomplete, hfeed']
      rw [update_w_from_fifo, hcomb]
      refine .update (congrArg FifoComb.fifo_st_d hcomb) hst (by simp; omega) ?_
      exact hvalue.trans (congrArg (hashValue M) hdiv.symm)
  · have hcomplete : s.complete_one_chunk = false := by simpa [complete_one_chunk] using hlast
    have hcomb : s.fifoComb i = ⟨.FifoWait, false, false⟩ := by
      simp [fifoComb, hfifo, hcomplete]
    have hround' := round_succ hi hsha hlast
    rw [update_w_from_fifo, hcomb]
    refine .compress b (congrArg FifoComb.fifo_st_d hcomb) ?_ hn (hdigest'.trans hdigest) ?_ ?_
    · simp [clock, shaComb, hsha, hcomplete]
    · rw [hround', hhash']
    · rw [hround']
      exact hw'

theorem Phase.of_rest (hfifo : s.fifo_st_q = .FifoIdle) (hst : s.shaComb.sha_st_d = .ShaIdle)
    (hn : n = N) (hdigest : (s.clock i).digest = hashValue M (N / 16)) :
    Phase M N (n + (s.update_w_from_fifo i).toNat) (s.clock i) := by
  have hcomb : s.fifoComb i = ⟨.FifoIdle, false, false⟩ := by
    simp [fifoComb, hfifo, hi.hash_start]
  rw [update_w_from_fifo, hcomb]
  exact .rest (congrArg FifoComb.fifo_st_d hcomb) hst hn hdigest

theorem Inv.phase_clock (h : Inv M N n s)
    (hdata : s.update_w_from_fifo i = true → s.shaf_rdata i = M n)
    (hfeed : s.u_pad.msg_feed_complete = true → n = N) :
    Phase M N (n + (s.update_w_from_fifo i).toNat) (s.clock i) := by
  cases h.phase with
  | load hfifo hsha hdigest hw =>
    have hsha' : s.shaComb = ⟨.ShaIdle, false, false, false, false⟩ := by
      rw [shaComb, hsha, hfifo]
      rfl
    refine .of_load hi hfifo h.w_index ?_ ?_ ?_ ?_ hw hdata
    · rw [hsha']
    · rw [hsha']
    · rw [clock_digest hi, hsha']
      exact hdigest
    · rw [hsha']
  | update hfifo hsha hn hdigest =>
    have hsha' : s.shaComb = ⟨.ShaIdle, true, false, false, false⟩ := by
      rw [shaComb, hsha, hfifo]
      rfl
    refine .of_load hi hfifo h.w_index ?_ ?_ ?_ ?_ (fun k hk => ?_) hdata
    · rw [hsha']
    · rw [hsha']
    · rw [clock_digest hi, hsha']
      exact hdigest
    · rw [hsha']
    · omega
  | filled b hfifo hsha hn hdigest hw =>
    exact .of_filled hi hfifo hsha (h.round (by simp [hsha])) hn hdigest hw
  | compress b hfifo hsha hn hdigest hhash hw =>
    exact .of_compress hi hfifo hsha hn hdigest hhash hw hfeed
  | finish hfifo hsha hn hdigest =>
    have hsha' : s.shaComb = ⟨.ShaIdle, true, false, false, false⟩ := by
      rw [shaComb, hsha, hfifo]
      rfl
    refine .of_rest hi hfifo ?_ hn ?_
    · rw [hsha']
    · rw [clock_digest hi, hsha']
      exact hdigest
  | rest hfifo hsha hn hdigest =>
    have hsha' : s.shaComb = ⟨.ShaIdle, false, false, false, false⟩ := by
      rw [shaComb, hsha, hfifo]
      rfl
    refine .of_rest hi hfifo ?_ hn ?_
    · rw [hsha']
    · rw [clock_digest hi, hsha']
      exact hdigest

end Calm

theorem hash_done_clock (hi : Calm i) (h : Inv M N n s) :
    (s.clock i).hash_done = true ↔
      (s.clock i).fifo_st_q = .FifoIdle ∧ (s.clock i).sha_st_q = .ShaUpdateDigest := by
  change (s.fifoComb i).hash_done_next = true ↔ (s.fifoComb i).fifo_st_d = .FifoIdle ∧
    s.shaComb.sha_st_d = .ShaUpdateDigest
  rw [fifoComb, shaComb]
  cases h.phase with
  | load hfifo hsha _ _ =>
    rw [hfifo, hsha]
    simp
    split_ifs <;> simp
  | update hfifo hsha _ _ =>
    rw [hfifo, hsha]
    simp
    split_ifs <;> simp
  | filled b hfifo hsha _ _ _ =>
    have hround := h.round (by simp [hsha])
    rw [hfifo, hsha]
    simp [complete_one_chunk, hround]
  | compress b hfifo hsha _ _ _ _ =>
    rw [hfifo, hsha]
    cases s.complete_one_chunk <;> cases s.u_pad.msg_feed_complete <;> simp
  | finish hfifo hsha _ _ =>
    rw [hfifo, hsha]
    simp [hi.hash_start]
  | rest hfifo hsha _ _ =>
    rw [hfifo, hsha]
    simp [hi.hash_start]

theorem Inv.clock (hi : Calm i) (h : Inv M N n s)
    (hdata : s.update_w_from_fifo i = true → s.shaf_rdata i = M n)
    (hfeed : s.u_pad.msg_feed_complete = true → n = N) :
    Inv M N (n + (s.update_w_from_fifo i).toNat) (s.clock i) where
  round hst := by
    rw [clock_round hi]
    change s.shaComb.sha_st_d ≠ .ShaCompress at hst
    revert hst
    rw [shaComb]
    cases hsha : s.sha_st_q with
    | ShaIdle =>
      have hround := h.round (by simp [hsha])
      intro _
      by_cases hfifo : s.fifo_st_q = .FifoWait <;> simp [hfifo, hround]
    | ShaUpdateDigest =>
      have hround := h.round (by simp [hsha])
      intro _
      by_cases hfifo : s.fifo_st_q = .FifoWait <;> simp [hfifo, hround]
    | ShaCompress =>
      intro hst
      cases hcomplete : s.complete_one_chunk with
      | true => exact if_pos hcomplete
      | false => simp [hcomplete] at hst
  w_index := by
    have hindex : (s.clock i).w_index =
        if s.update_w_from_fifo i then s.w_index + 1 else s.w_index := by
      simp [Sha2.clock, hi.sha_en]
    rw [hindex, h.w_index]
    cases s.update_w_from_fifo i with
    | false => rfl
    | true => exact (BitVec.ofNat_add n 1).symm
  hash_done := hash_done_clock hi h
  phase := h.phase_clock hi hdata hfeed

/-! ### Runs -/

section Runs

variable (s) (inp : ℕ → Sha2In) (t : ℕ)

/-- The registers in cycle `t`. -/
def regsAt : Sha2 := Mealy.stateAt Sha2.clock s inp t

def padInputs : Sha2PadIn := (s.regsAt inp t).padIn (inp t)

/-- A run from an idle engine that starts in cycle 0 on a message whose words arrive in the FIFO one
after another, `arrived t` of them up to cycle `t`. -/
structure Hashes (message : List Byte) (entries : List ShaFifo) (arrived : ℕ → ℕ) : Prop where
  carries : Sha2Pad.Carries message entries
  fifo_idle : s.fifo_st_q = .FifoIdle
  sha_idle : s.sha_st_q = .ShaIdle
  pad_idle : s.u_pad.st_q = .StIdle
  round : s.round = 0
  w_index : s.w_index = 0
  start : (inp 0).hash_start = true
  no_start : ∀ t, (inp (t + 1)).hash_start = false
  sha_en : ∀ t, (inp t).sha_en = true
  wipe_secret : ∀ t, (inp t).wipe_secret = false
  arrived_mono : Monotone arrived
  arrived_le : ∀ t, arrived t ≤ entries.length
  rvalid : ∀ t, (inp t).fifo_rvalid =
    decide ((s.u_pad.taken (s.padInputs inp) t).length < arrived t)
  rdata : ∀ t, (inp t).fifo_rvalid = true →
    entries[(s.u_pad.taken (s.padInputs inp) t).length]? = some (inp t).fifo_rdata
  /-- From the request for the length on it is that of the message. -/
  length : ∀ t t', t ≤ t' → Sha2Pad.AsksLength (s.padInputs inp t) →
    (inp t').message_length = BitVec.ofNat 64 (8 * message.length)

end Runs

variable {inp : ℕ → Sha2In} {t : ℕ} {message : List Byte} {entries : List ShaFifo}
  {arrived : ℕ → ℕ}

theorem regsAt_succ (t : ℕ) : s.regsAt inp (t + 1) = (s.regsAt inp t).clock (inp t) := rfl

theorem u_pad_regsAt (t : ℕ) :
    (s.regsAt inp t).u_pad = s.u_pad.regsAt (s.padInputs inp) t := by
  induction t with
  | zero => rfl
  | succ t ih =>
    rw [Sha2Pad.regsAt_succ, ← ih]
    rfl

/-- The word is valid or not, whether it is taken or not. -/
theorem comb_shaf_rvalid (shaf_rready : Bool) :
    (s.u_pad.comb (s.padInOf i shaf_rready)).shaf_rvalid = s.shaf_rvalid i := by
  cases hst : s.u_pad.st_q with
  | StFifoReceive =>
    simp only [shaf_rvalid, Sha2Pad.comb, hst, padInOf, Sha2PadIn.fifo_partial_word,
      Bool.and_eq_true, Bool.not_eq_true', beq_iff_eq]
    split_ifs <;> rfl
  | _ => simp [shaf_rvalid, Sha2Pad.comb, hst]

theorem shaf_rvalid_of_update (h : s.update_w_from_fifo i = true) :
    s.fifo_st_q = .FifoLoadFromFifo ∧ s.shaf_rvalid i = true := by
  rw [update_w_from_fifo, fifoComb] at h
  cases hfifo : s.fifo_st_q with
  | FifoLoadFromFifo =>
    rw [hfifo] at h
    cases hvalid : s.shaf_rvalid i with
    | true => exact ⟨rfl, rfl⟩
    | false =>
      rw [hvalid] at h
      cases hen : i.sha_en <;> simp [hen] at h
  | FifoIdle =>
    rw [hfifo] at h
    exact absurd h Bool.false_ne_true
  | FifoWait =>
    rw [hfifo] at h
    revert h
    simp only
    split_ifs <;> simp

theorem hash_done_next (h : (s.clock i).hash_done = true) :
    s.fifo_st_q = .FifoWait ∧ s.u_pad.msg_feed_complete = true := by
  change (s.fifoComb i).hash_done_next = true at h
  rw [fifoComb] at h
  cases hfifo : s.fifo_st_q with
  | FifoWait =>
    rw [hfifo] at h
    cases hfeed : s.u_pad.msg_feed_complete with
    | true => exact ⟨rfl, rfl⟩
    | false =>
      rw [hfeed] at h
      revert h
      simp only [Bool.false_and, Bool.false_eq_true, if_false]
      split_ifs <;> simp
  | FifoIdle =>
    rw [hfifo] at h
    exact absurd h Bool.false_ne_true
  | FifoLoadFromFifo =>
    rw [hfifo] at h
    revert h
    simp only
    split_ifs <;> simp

theorem pad_idle_of_complete (h : s.u_pad.msg_feed_complete = true) : s.u_pad.st_q = .StIdle := by
  rw [Sha2Pad.msg_feed_complete, Bool.and_eq_true, beq_iff_eq] at h
  exact h.2

section Hashes

variable (h : s.Hashes inp message entries arrived)

include h

theorem Hashes.calm (t : ℕ) : Calm (inp (t + 1)) :=
  ⟨h.wipe_secret _, h.sha_en _, h.no_start t⟩

/-- The padding logic pads the message. -/
theorem Hashes.feeds : Sha2Pad.Feeds s.u_pad (s.padInputs inp) message entries arrived where
  carries := h.carries
  idle := h.pad_idle
  start := ⟨h.sha_en 0, h.start⟩
  no_start := h.no_start
  no_done t hdone := by
    have hdone' : ((s.regsAt inp t).clock (inp t)).hash_done = true := hdone
    obtain ⟨hfifo, hfeed⟩ := hash_done_next hdone'
    have hidle := pad_idle_of_complete hfeed
    rw [← u_pad_regsAt, regsAt_succ]
    change ((s.regsAt inp t).u_pad.comb _).st_d = .StIdle
    rw [Sha2Pad.comb, hidle]
    cases t with
    | zero => exact absurd (h.fifo_idle.symm.trans hfifo) FifoctlState.noConfusion
    | succ t => simp [padIn, padInOf, h.no_start]
  arrived_mono := h.arrived_mono
  arrived_le := h.arrived_le
  rvalid := h.rvalid
  rdata := h.rdata
  ready t hready := by
    rw [← u_pad_regsAt]
    exact (comb_shaf_rvalid _).trans (shaf_rvalid_of_update hready).2
  length := h.length

theorem Hashes.sent (t : ℕ) : (s.u_pad.regsAt (s.padInputs inp) t).sent (s.padInputs inp t) =
    if (s.regsAt inp t).update_w_from_fifo (inp t) then
      [(s.regsAt inp t).shaf_rdata (inp t)] else [] := by
  rw [Sha2Pad.sent, ← u_pad_regsAt]
  cases hupdate : (s.regsAt inp t).update_w_from_fifo (inp t) with
  | false =>
    have hready : (s.padInputs inp t).shaf_rready = false := hupdate
    rw [hready, Bool.and_false]
    rfl
  | true =>
    have hready : (s.padInputs inp t).shaf_rready = true := hupdate
    have hvalid := h.feeds.ready t hready
    rw [← u_pad_regsAt] at hvalid
    rw [hvalid, hready]
    rfl

theorem Hashes.length_handed (t : ℕ) :
    (s.u_pad.handed (s.padInputs inp) (t + 1)).length =
      (s.u_pad.handed (s.padInputs inp) t).length +
        ((s.regsAt inp t).update_w_from_fifo (inp t)).toNat := by
  rw [Sha2Pad.handed_succ, h.sent, List.length_append]
  cases (s.regsAt inp t).update_w_from_fifo (inp t) <;> rfl

theorem Hashes.shaf_rdata (hlen : message.length < 2 ^ 61)
    (hupdate : (s.regsAt inp t).update_w_from_fifo (inp t) = true) :
    (s.regsAt inp t).shaf_rdata (inp t) =
      messageWords message (s.u_pad.handed (s.padInputs inp) t).length := by
  have hprefix := h.feeds.handed_isPrefix hlen (t + 1)
  rw [Sha2Pad.handed_succ, h.sent, hupdate, if_pos rfl] at hprefix
  obtain ⟨rest, hrest⟩ := hprefix
  rw [messageWords, ← hrest]
  simp

theorem Hashes.inv (hlen : message.length < 2 ^ 61) (t : ℕ) :
    Inv (messageWords message) (words (pad message)).length
      (s.u_pad.handed (s.padInputs inp) (t + 1)).length (s.regsAt inp (t + 1)) := by
  induction t with
  | zero =>
    have hcomb : s.fifoComb (inp 0) = ⟨.FifoLoadFromFifo, false, false⟩ := by
      simp [fifoComb, h.fifo_idle, h.start]
    have hsha : s.shaComb = ⟨.ShaIdle, false, false, false, false⟩ := by
      simp [shaComb, h.sha_idle, h.fifo_idle]
    have hfifo' : (s.clock (inp 0)).fifo_st_q = .FifoLoadFromFifo :=
      congrArg FifoComb.fifo_st_d hcomb
    have hlength : (s.u_pad.handed (s.padInputs inp) 1).length = 0 := by
      rw [h.length_handed 0]
      exact congrArg (fun c : FifoComb => 0 + c.update_w_from_fifo.toNat) hcomb
    rw [hlength]
    change Inv _ _ _ (s.clock (inp 0))
    refine ⟨fun _ => ?_, ?_, ?_, .load hfifo' ?_ ?_ ?_⟩
    · simp [Sha2.clock, h.sha_en, hsha, h.round]
    · simp [Sha2.clock, h.sha_en, update_w_from_fifo, hcomb, h.w_index]
    · rw [hfifo']
      simp [Sha2.clock, hcomb]
    · exact congrArg ShaComb.sha_st_d hsha
    · simp only [Sha2.clock, h.wipe_secret, h.start, Bool.false_eq_true, if_false, if_true]
      exact InitHash_eq
    · intro k hk
      omega
  | succ t ih =>
    rw [h.length_handed (t + 1), regsAt_succ (t + 1)]
    refine ih.clock (h.calm t) (fun hupdate => h.shaf_rdata hlen hupdate) fun hfeed => ?_
    have hidle := pad_idle_of_complete hfeed
    rw [u_pad_regsAt] at hidle
    rw [(h.feeds.at_rest hlen (Nat.succ_pos t) hidle).1]

theorem Hashes.inv_of_pos (hlen : message.length < 2 ^ 61) (ht : 0 < t) :
    Inv (messageWords message) (words (pad message)).length
      (s.u_pad.handed (s.padInputs inp) t).length (s.regsAt inp t) := by
  obtain ⟨k, rfl⟩ := Nat.exists_eq_add_of_le' ht
  exact h.inv hlen k

/-- At rest the digest is the hash of the message. -/
theorem Hashes.digest (hlen : message.length < 2 ^ 61) (ht : 0 < t)
    (hidle : (s.regsAt inp t).idle (inp t) = true) :
    (s.regsAt inp t).digest = sha256 message := by
  have hphase := (h.inv_of_pos hlen ht).phase
  rw [idle, Bool.and_eq_true, Bool.and_eq_true, decide_eq_true_iff, decide_eq_true_iff] at hidle
  obtain ⟨⟨hfifo, hsha⟩, -⟩ := hidle
  cases hphase with
  | rest _ _ _ hdigest => exact hdigest
  | load hfifo' => exact absurd (hfifo.symm.trans hfifo') FifoctlState.noConfusion
  | update hfifo' => exact absurd (hfifo.symm.trans hfifo') FifoctlState.noConfusion
  | filled _ hfifo' => exact absurd (hfifo.symm.trans hfifo') FifoctlState.noConfusion
  | compress _ hfifo' => exact absurd (hfifo.symm.trans hfifo') FifoctlState.noConfusion
  | finish _ hsha' => exact absurd (hsha.symm.trans hsha') ShaSt.noConfusion

end Hashes

end Sha2

end SecureBoot
