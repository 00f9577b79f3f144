import SecureBoot.Lib.PresentCipher
import SecureBoot.Lib.Rounds
import SecureBoot.Prim.CipherPkg

/-! What `prim_cipher_pkg` has for PRESENT alone: the permutations of 32 and 64 bits and the key
schedules in both directions. -/

namespace SecureBoot.PrimCipherPkg

open Bits

/-! ### Permutations -/

def PRESENT_PERM32 : List (BitVec 5) :=
  [31, 23, 15, 07, 30, 22, 14, 06, 29, 21, 13, 05, 28, 20, 12, 04,
    27, 19, 11, 03, 26, 18, 10, 02, 25, 17, 09, 01, 24, 16, 08, 00].reverse

def PRESENT_PERM32_INV : List (BitVec 5) :=
  [31, 27, 23, 19, 15, 11, 07, 03, 30, 26, 22, 18, 14, 10, 06, 02,
    29, 25, 21, 17, 13, 09, 05, 01, 28, 24, 20, 16, 12, 08, 04, 00].reverse

def PRESENT_PERM64 : List (BitVec 6) :=
  [63, 47, 31, 15, 62, 46, 30, 14, 61, 45, 29, 13, 60, 44, 28, 12,
    59, 43, 27, 11, 58, 42, 26, 10, 57, 41, 25, 09, 56, 40, 24, 08,
    55, 39, 23, 07, 54, 38, 22, 06, 53, 37, 21, 05, 52, 36, 20, 04,
    51, 35, 19, 03, 50, 34, 18, 02, 49, 33, 17, 01, 48, 32, 16, 00].reverse

def PRESENT_PERM64_INV : List (BitVec 6) :=
  [63, 59, 55, 51, 47, 43, 39, 35, 31, 27, 23, 19, 15, 11, 07, 03,
    62, 58, 54, 50, 46, 42, 38, 34, 30, 26, 22, 18, 14, 10, 06, 02,
    61, 57, 53, 49, 45, 41, 37, 33, 29, 25, 21, 17, 13, 09, 05, 01,
    60, 56, 52, 48, 44, 40, 36, 32, 28, 24, 20, 16, 12, 08, 04, 00].reverse

/-- `state_out[perm[k]] = state_in[k]` for all `k` in order. -/
def permBits {w n : ℕ} (state_in : BitVec w) (perm : List (BitVec n)) : BitVec w :=
  setBits (BitVec.ofNat w 0)
    ((List.range w).map fun k => ((perm.getD k 0).toNat, state_in.getLsbD k))

/-- `perm_32bit`. -/
def perm32bit (state_in : BitVec 32) (perm : List (BitVec 5)) : BitVec 32 := permBits state_in perm

/-- `perm_64bit`. -/
def perm64bit (state_in : BitVec 64) (perm : List (BitVec 6)) : BitVec 64 := permBits state_in perm

section Perm

variable {w n n' : ℕ} {perm : List (BitVec n)} {perm' : List (BitVec n')}

/-- A table that has an inverse assigns every bit once. -/
theorem functional_perm (h : ∀ k < w, (perm'.getD (perm.getD k 0).toNat 0).toNat = k)
    (x : ℕ → Bool) :
    Functional ((List.range w).map fun k => ((perm.getD k 0).toNat, x k)) := by
  intro i b b' hb hb'
  obtain ⟨k, hk, heq⟩ := List.mem_map.mp hb
  obtain ⟨k', hk', heq'⟩ := List.mem_map.mp hb'
  obtain ⟨rfl, rfl⟩ := Prod.mk.inj heq
  obtain ⟨hi, rfl⟩ := Prod.mk.inj heq'
  rw [← h k (List.mem_range.mp hk), ← h k' (List.mem_range.mp hk'), hi]

theorem getLsbD_permBits (h : ∀ k < w, (perm'.getD (perm.getD k 0).toNat 0).toNat = k)
    (x : BitVec w) {k : ℕ} (hk : k < w) (hlt : (perm.getD k 0).toNat < w) :
    (permBits x perm).getLsbD (perm.getD k 0).toNat = x.getLsbD k :=
  getLsbD_setBits_of_mem (functional_perm h x.getLsbD) hlt
    (List.mem_map.mpr ⟨k, List.mem_range.mpr hk, rfl⟩)

theorem permBits_permBits (hlt : ∀ k < w, (perm.getD k 0).toNat < w)
    (h : ∀ k < w, (perm'.getD (perm.getD k 0).toNat 0).toNat = k)
    (h' : ∀ k < w, (perm.getD (perm'.getD k 0).toNat 0).toNat = k) (x : BitVec w) :
    permBits (permBits x perm) perm' = x := by
  apply BitVec.eq_of_getLsbD_eq
  intro j hj
  have hinner := getLsbD_permBits h x hj (hlt j hj)
  have houter := getLsbD_permBits h' (permBits x perm) (hlt j hj) (by rwa [h j hj])
  rw [h j hj] at houter
  rw [houter, hinner]

end Perm

theorem perm32bit_INV (x : BitVec 32) :
    perm32bit (perm32bit x PRESENT_PERM32) PRESENT_PERM32_INV = x :=
  permBits_permBits (by decide) (by decide) (by decide) x

theorem perm64bit_INV (x : BitVec 64) :
    perm64bit (perm64bit x PRESENT_PERM64) PRESENT_PERM64_INV = x :=
  permBits_permBits (by decide) (by decide) (by decide) x

/-! ### Key schedules -/

/-- `present_update_key64`. -/
def presentUpdateKey64 (key_in : BitVec 64) (round_idx : BitVec 5) : BitVec 64 :=
  let key_out : BitVec 64 := key_in.extractLsb' 0 3 ++ key_in.extractLsb' 3 61
  let key_out := setSlice key_out 60 (entry PRESENT_SBOX4 (key_out.extractLsb' 60 4))
  setSlice key_out 15 (key_out.extractLsb' 15 5 ^^^ round_idx)

/-- `present_update_key80`. -/
def presentUpdateKey80 (key_in : BitVec 80) (round_idx : BitVec 5) : BitVec 80 :=
  let key_out : BitVec 80 := key_in.extractLsb' 0 19 ++ key_in.extractLsb' 19 61
  let key_out := setSlice key_out 76 (entry PRESENT_SBOX4 (key_out.extractLsb' 76 4))
  setSlice key_out 15 (key_out.extractLsb' 15 5 ^^^ round_idx)

/-- `present_update_key128`. -/
def presentUpdateKey128 (key_in : BitVec 128) (round_idx : BitVec 5) : BitVec 128 :=
  let key_out : BitVec 128 := key_in.extractLsb' 0 67 ++ key_in.extractLsb' 67 61
  let key_out := setSlice key_out 124 (entry PRESENT_SBOX4 (key_out.extractLsb' 124 4))
  let key_out := setSlice key_out 120 (entry PRESENT_SBOX4 (key_out.extractLsb' 120 4))
  setSlice key_out 62 (key_out.extractLsb' 62 5 ^^^ round_idx)

/-- `present_inv_update_key64`. -/
def presentInvUpdateKey64 (key_in : BitVec 64) (round_idx : BitVec 5) : BitVec 64 :=
  let key_out := setSlice key_in 15 (key_in.extractLsb' 15 5 ^^^ round_idx)
  let key_out := setSlice key_out 60 (entry PRESENT_SBOX4_INV (key_out.extractLsb' 60 4))
  key_out.extractLsb' 0 61 ++ key_out.extractLsb' 61 3

/-- `present_inv_update_key80`. -/
def presentInvUpdateKey80 (key_in : BitVec 80) (round_idx : BitVec 5) : BitVec 80 :=
  let key_out := setSlice key_in 15 (key_in.extractLsb' 15 5 ^^^ round_idx)
  let key_out := setSlice key_out 76 (entry PRESENT_SBOX4_INV (key_out.extractLsb' 76 4))
  key_out.extractLsb' 0 61 ++ key_out.extractLsb' 61 19

/-- `present_inv_update_key128`. -/
def presentInvUpdateKey128 (key_in : BitVec 128) (round_idx : BitVec 5) : BitVec 128 :=
  let key_out := setSlice key_in 62 (key_in.extractLsb' 62 5 ^^^ round_idx)
  let key_out := setSlice key_out 120 (entry PRESENT_SBOX4_INV (key_out.extractLsb' 120 4))
  let key_out := setSlice key_out 124 (entry PRESENT_SBOX4_INV (key_out.extractLsb' 124 4))
  key_out.extractLsb' 0 61 ++ key_out.extractLsb' 61 67

/-- The loop of the functions below: the update with each index up to `round_cnt`. -/
def presentGetDecKey {w : ℕ} (update : BitVec w → BitVec 5 → BitVec w) (key_in : BitVec w)
    (round_cnt : BitVec 5) : BitVec w :=
  (List.range round_cnt.toNat).foldl (fun key_out k => update key_out (BitVec.ofNat 5 (k + 1)))
    key_in

/-- `present_get_dec_key64`. -/
def presentGetDecKey64 : BitVec 64 → BitVec 5 → BitVec 64 := presentGetDecKey presentUpdateKey64

/-- `present_get_dec_key80`. -/
def presentGetDecKey80 : BitVec 80 → BitVec 5 → BitVec 80 := presentGetDecKey presentUpdateKey80

/-- `present_get_dec_key128`. -/
def presentGetDecKey128 : BitVec 128 → BitVec 5 → BitVec 128 := presentGetDecKey presentUpdateKey128

/-! ### The inverse schedules -/

/-- A rotation that exchanges the parts of a word is undone by the one that exchanges them back. -/
theorem getLsbD_exchange_exchange {m n : ℕ} (x : BitVec (m + n)) (j : ℕ) :
    ((x.extractLsb' 0 m ++ x.extractLsb' m n).extractLsb' 0 n ++
      (x.extractLsb' 0 m ++ x.extractLsb' m n).extractLsb' n m).getLsbD j = x.getLsbD j := by
  simp only [BitVec.getLsbD_append, BitVec.getLsbD_extractLsb']
  obtain hlow | hhigh := Nat.lt_or_ge j m
  · simp [hlow]
  · obtain ⟨i, rfl⟩ := Nat.exists_eq_add_of_le hhigh
    obtain hi | hi := Nat.lt_or_ge i n
    · simp [hi]
    · rw [BitVec.getLsbD_of_ge x (m + i) (by omega)]
      simp [Nat.not_lt.mpr hi]

variable {w : ℕ}

theorem setSlice_substitute {sbox4 sbox4' : List (BitVec 4)}
    (h : ∀ v, entry sbox4' (entry sbox4 v) = v) (x : BitVec w) {lsb : ℕ} (hlsb : lsb + 4 ≤ w) :
    setSlice (setSlice x lsb (entry sbox4 (x.extractLsb' lsb 4))) lsb
      (entry sbox4' ((setSlice x lsb (entry sbox4 (x.extractLsb' lsb 4))).extractLsb' lsb 4)) =
        x := by
  have hread (v : BitVec 4) : (setSlice x lsb v).extractLsb' lsb 4 = v := by
    apply BitVec.eq_of_getLsbD_eq
    intro j hj
    rw [BitVec.getLsbD_extractLsb', getLsbD_setSlice _ _ _ (by omega), if_pos (by omega),
      Nat.add_sub_cancel_left, decide_eq_true hj, Bool.true_and]
  rw [hread, h]
  apply BitVec.eq_of_getLsbD_eq
  intro j hj
  rw [getLsbD_setSlice _ _ _ hj, getLsbD_setSlice _ _ _ hj]
  split_ifs with hslice
  · rw [BitVec.getLsbD_extractLsb', Nat.add_sub_cancel' hslice.1, decide_eq_true (by omega),
      Bool.true_and]
  · rfl

theorem setSlice_xor_xor (x : BitVec w) (lsb : ℕ) (c : BitVec 5) :
    setSlice (setSlice x lsb (x.extractLsb' lsb 5 ^^^ c)) lsb
      ((setSlice x lsb (x.extractLsb' lsb 5 ^^^ c)).extractLsb' lsb 5 ^^^ c) = x := by
  rw [PresentCipher.setSlice_extractLsb'_xor, PresentCipher.setSlice_extractLsb'_xor,
    BitVec.xor_assoc, BitVec.xor_self, BitVec.xor_zero]

theorem presentInvUpdateKey64_updateKey64 (key : BitVec 64) (idx : BitVec 5) :
    presentInvUpdateKey64 (presentUpdateKey64 key idx) idx = key := by
  simp only [presentInvUpdateKey64, presentUpdateKey64, setSlice_xor_xor,
    setSlice_substitute entry_PRESENT_SBOX4_INV _ (show 60 + 4 ≤ 64 by decide)]
  exact BitVec.eq_of_getLsbD_eq fun j _ => getLsbD_exchange_exchange (m := 3) (n := 61) key j

theorem presentInvUpdateKey80_updateKey80 (key : BitVec 80) (idx : BitVec 5) :
    presentInvUpdateKey80 (presentUpdateKey80 key idx) idx = key := by
  simp only [presentInvUpdateKey80, presentUpdateKey80, setSlice_xor_xor,
    setSlice_substitute entry_PRESENT_SBOX4_INV _ (show 76 + 4 ≤ 80 by decide)]
  exact BitVec.eq_of_getLsbD_eq fun j _ => getLsbD_exchange_exchange (m := 19) (n := 61) key j

theorem presentInvUpdateKey128_updateKey128 (key : BitVec 128) (idx : BitVec 5) :
    presentInvUpdateKey128 (presentUpdateKey128 key idx) idx = key := by
  simp only [presentInvUpdateKey128, presentUpdateKey128, setSlice_xor_xor,
    setSlice_substitute entry_PRESENT_SBOX4_INV _ (show 120 + 4 ≤ 128 by decide),
    setSlice_substitute entry_PRESENT_SBOX4_INV _ (show 124 + 4 ≤ 128 by decide)]
  exact BitVec.eq_of_getLsbD_eq fun j _ => getLsbD_exchange_exchange (m := 67) (n := 61) key j

end SecureBoot.PrimCipherPkg

/-! `prim_present` with its optional iteration: an instance performs `NumPhysRounds` rounds and
hands its state on to the next cycle, in which the same instance continues. -/

namespace SecureBoot

open Bits PrimCipherPkg Unrolled

/-- The supported widths of the data and the key. -/
inductive PresentWidths
  | data64Key80
  | data64Key128
  | data32Key64

namespace PresentWidths

def DataWidth : PresentWidths → ℕ
  | data64Key80 => 64
  | data64Key128 => 64
  | data32Key64 => 32

def KeyWidth : PresentWidths → ℕ
  | data64Key80 => 80
  | data64Key128 => 128
  | data32Key64 => 64

/-- `perm_*(sbox4_*(state, PRESENT_SBOX4), PRESENT_PERM*)`. -/
def encLayers : (W : PresentWidths) → BitVec W.DataWidth → BitVec W.DataWidth
  | data64Key80, x => perm64bit (sbox464bit x PRESENT_SBOX4) PRESENT_PERM64
  | data64Key128, x => perm64bit (sbox464bit x PRESENT_SBOX4) PRESENT_PERM64
  | data32Key64, x => perm32bit (sbox432bit x PRESENT_SBOX4) PRESENT_PERM32

/-- `sbox4_*(perm_*(state, PRESENT_PERM*_INV), PRESENT_SBOX4_INV)`. -/
def decLayers : (W : PresentWidths) → BitVec W.DataWidth → BitVec W.DataWidth
  | data64Key80, x => sbox464bit (perm64bit x PRESENT_PERM64_INV) PRESENT_SBOX4_INV
  | data64Key128, x => sbox464bit (perm64bit x PRESENT_PERM64_INV) PRESENT_SBOX4_INV
  | data32Key64, x => sbox432bit (perm32bit x PRESENT_PERM32_INV) PRESENT_SBOX4_INV

/-- `present_update_key*`. -/
def updateKey : (W : PresentWidths) → BitVec W.KeyWidth → BitVec 5 → BitVec W.KeyWidth
  | data64Key80 => presentUpdateKey80
  | data64Key128 => presentUpdateKey128
  | data32Key64 => presentUpdateKey64

/-- `present_inv_update_key*`. -/
def invUpdateKey : (W : PresentWidths) → BitVec W.KeyWidth → BitVec 5 → BitVec W.KeyWidth
  | data64Key80 => presentInvUpdateKey80
  | data64Key128 => presentInvUpdateKey128
  | data32Key64 => presentInvUpdateKey64

/-- `present_get_dec_key*`. -/
def getDecKey : (W : PresentWidths) → BitVec W.KeyWidth → BitVec 5 → BitVec W.KeyWidth
  | data64Key80 => presentGetDecKey80
  | data64Key128 => presentGetDecKey128
  | data32Key64 => presentGetDecKey64

end PresentWidths

/-- The inputs of an instance, and its outputs. -/
@[ext]
structure PresentState (W : PresentWidths) where
  data : BitVec W.DataWidth
  key : BitVec W.KeyWidth
  idx : BitVec 5

namespace PresentState

variable {W : PresentWidths} (s : PresentState W)

/-- `round_key[KeyWidth-1 : KeyWidth-DataWidth]`. -/
def roundKey : BitVec W.DataWidth := s.key.extractLsb' (W.KeyWidth - W.DataWidth) W.DataWidth

/-- A round of `gen_enc`. -/
def encRound : PresentState W where
  data := W.encLayers (s.data ^^^ s.roundKey)
  key := W.updateKey s.key s.idx
  idx := s.idx + 1

/-- A round of `gen_dec`. -/
def decRound : PresentState W where
  data := W.decLayers (s.data ^^^ s.roundKey)
  key := W.invUpdateKey s.key s.idx
  idx := s.idx - 1

/-- The addition of the last round key. -/
def addKey : PresentState W := { s with data := s.data ^^^ s.roundKey }

end PresentState

/-- `LastRoundIdx`. -/
def presentLastRoundIdx (NumRounds : ℕ) (Decrypt : Bool) : ℕ :=
  if Decrypt ∨ NumRounds = 31 then 0 else NumRounds + 1

/-- `prim_present`. -/
def primPresent {W : PresentWidths} (NumRounds NumPhysRounds : ℕ) (Decrypt : Bool) :
    PresentState W → PresentState W :=
  inst (if Decrypt then PresentState.decRound else PresentState.encRound)
    (fun s => s.idx.toNat = presentLastRoundIdx NumRounds Decrypt) PresentState.addKey NumPhysRounds

/-! ### Layers and keys undone -/

namespace PresentWidths

variable (W : PresentWidths)

theorem decLayers_encLayers (x : BitVec W.DataWidth) : W.decLayers (W.encLayers x) = x := by
  have h64 (x : BitVec 64) : sbox464bit (perm64bit (perm64bit (sbox464bit x PRESENT_SBOX4)
      PRESENT_PERM64) PRESENT_PERM64_INV) PRESENT_SBOX4_INV = x := by
    rw [perm64bit_INV, sbox464bit_eq_sboxLayer, sbox464bit_eq_sboxLayer,
      sboxLayer_sboxLayer entry_PRESENT_SBOX4_INV]
  have h32 (x : BitVec 32) : sbox432bit (perm32bit (perm32bit (sbox432bit x PRESENT_SBOX4)
      PRESENT_PERM32) PRESENT_PERM32_INV) PRESENT_SBOX4_INV = x := by
    rw [perm32bit_INV, sbox432bit_eq_sboxLayer, sbox432bit_eq_sboxLayer,
      sboxLayer_sboxLayer entry_PRESENT_SBOX4_INV]
  cases W with
  | data64Key80 => exact h64 x
  | data64Key128 => exact h64 x
  | data32Key64 => exact h32 x

theorem invUpdateKey_updateKey (key : BitVec W.KeyWidth) (idx : BitVec 5) :
    W.invUpdateKey (W.updateKey key idx) idx = key := by
  cases W with
  | data64Key80 => exact presentInvUpdateKey80_updateKey80 key idx
  | data64Key128 => exact presentInvUpdateKey128_updateKey128 key idx
  | data32Key64 => exact presentInvUpdateKey64_updateKey64 key idx

theorem getDecKey_eq (key : BitVec W.KeyWidth) (round_cnt : BitVec 5) :
    W.getDecKey key round_cnt = presentGetDecKey W.updateKey key round_cnt := by
  cases W <;> rfl

end PresentWidths

/-! ### Runs of rounds -/

namespace PresentState

variable {W : PresentWidths} (s : PresentState W)

theorem idx_iterate_encRound (n : ℕ) : (encRound^[n] s).idx = s.idx + BitVec.ofNat 5 n := by
  induction n with
  | zero => simp
  | succ n ih =>
    rw [Function.iterate_succ_apply', encRound, ih, BitVec.add_assoc, BitVec.ofNat_add]
    rfl

theorem idx_iterate_decRound (n : ℕ) : (decRound^[n] s).idx = s.idx - BitVec.ofNat 5 n := by
  induction n with
  | zero => simp
  | succ n ih =>
    rw [Function.iterate_succ_apply', decRound, ih, BitVec.sub_sub, BitVec.ofNat_add]
    rfl

/-- What the decryption holds when it has undone the rounds after `s`. -/
def undone : PresentState W := { s.addKey with idx := s.idx - 1 }

theorem decRound_undone_encRound : decRound (undone (encRound s)) = undone s := by
  have hdata : (undone (encRound s)).data ^^^ (undone (encRound s)).roundKey =
      W.encLayers (s.data ^^^ s.roundKey) := by
    change _ ^^^ roundKey (encRound s) ^^^ roundKey (encRound s) = _
    rw [BitVec.xor_assoc, BitVec.xor_self, BitVec.xor_zero]
    rfl
  have hidx : (undone (encRound s)).idx = s.idx := BitVec.add_sub_cancel s.idx 1
  ext1
  · rw [decRound, hdata, W.decLayers_encLayers]
    rfl
  · rw [decRound, hidx]
    exact W.invUpdateKey_updateKey s.key s.idx
  · rw [decRound, hidx]
    rfl

theorem iterate_decRound_undone (n : ℕ) : decRound^[n] (undone (encRound^[n] s)) = undone s := by
  induction n generalizing s with
  | zero => rfl
  | succ n ih =>
    rw [Function.iterate_succ_apply', Function.iterate_succ_apply, ih, decRound_undone_encRound]

theorem addKey_undone_data : (addKey (undone s)).data = s.data := by
  change s.data ^^^ s.roundKey ^^^ s.roundKey = s.data
  rw [BitVec.xor_assoc, BitVec.xor_self, BitVec.xor_zero]

/-- The key after the rounds of the encryption is the one the decryption starts with. -/
theorem key_iterate_encRound (data : BitVec W.DataWidth) (key : BitVec W.KeyWidth) {n : ℕ}
    (hn : n < 32) :
    (encRound^[n] ⟨data, key, 1⟩).key = W.getDecKey key (BitVec.ofNat 5 n) := by
  have hloop (n : ℕ) : (encRound^[n] (⟨data, key, 1⟩ : PresentState W)).key = (List.range n).foldl
      (fun key k => W.updateKey key (BitVec.ofNat 5 (k + 1))) key := by
    induction n with
    | zero => rfl
    | succ n ih =>
      rw [Function.iterate_succ_apply', List.range_succ, List.foldl_append, List.foldl_cons,
        List.foldl_nil, encRound, ih, idx_iterate_encRound, Nat.add_comm n 1, BitVec.ofNat_add]
      rfl
  rw [hloop, W.getDecKey_eq, presentGetDecKey, BitVec.toNat_ofNat, Nat.mod_eq_of_lt hn]

end PresentState

section Instances

variable {W : PresentWidths} {NumRounds NumPhysRounds : ℕ}

/-- The index of an encryption after `n` rounds. -/
theorem toNat_idx_encRound (data : BitVec W.DataWidth) (key : BitVec W.KeyWidth) (n : ℕ) :
    (PresentState.encRound^[n] ⟨data, key, 1⟩).idx.toNat = (n + 1) % 32 := by
  rw [PresentState.idx_iterate_encRound, BitVec.toNat_add, BitVec.toNat_ofNat]
  change (1 + n % 32) % 32 = _
  omega

/-- The index of a decryption after `n` of the rounds. -/
theorem toNat_idx_decRound {s : PresentState W} (hidx : s.idx = BitVec.ofNat 5 NumRounds)
    (hlt : NumRounds < 32) {n : ℕ} (hn : n ≤ NumRounds) :
    (PresentState.decRound^[n] s).idx.toNat = NumRounds - n := by
  rw [PresentState.idx_iterate_decRound, hidx, BitVec.toNat_sub, BitVec.toNat_ofNat,
    BitVec.toNat_ofNat]
  omega

/-- The iterated encryption is the unrolled one. -/
theorem iterate_primPresent_enc (hpos : 0 < NumRounds) (hlt : NumRounds < 32)
    (hdvd : NumPhysRounds ∣ NumRounds) (data : BitVec W.DataWidth) (key : BitVec W.KeyWidth) :
    (primPresent NumRounds NumPhysRounds false)^[NumRounds / NumPhysRounds] ⟨data, key, 1⟩ =
      primPresent NumRounds NumRounds false ⟨data, key, 1⟩ := by
  obtain ⟨m, rfl⟩ := hdvd
  have hp : 0 < NumPhysRounds := Nat.pos_of_mul_pos_right hpos
  have hm : 0 < m := Nat.pos_of_mul_pos_left hpos
  rw [Nat.mul_div_cancel_left m hp]
  refine iterate_inst hm fun k hk hkm => ?_
  have hsum : NumPhysRounds * k < NumPhysRounds * m := Nat.mul_lt_mul_of_pos_left hkm hp
  change ¬ (PresentState.encRound^[NumPhysRounds * k] ⟨data, key, 1⟩).idx.toNat =
    presentLastRoundIdx (NumPhysRounds * m) false
  rw [toNat_idx_encRound, Nat.mod_eq_of_lt (by omega), presentLastRoundIdx]
  simp only [Bool.false_eq_true, false_or]
  split_ifs
  · exact not_false
  · omega

/-- The iterated decryption is the unrolled one. -/
theorem iterate_primPresent_dec (hpos : 0 < NumRounds) (hlt : NumRounds < 32)
    (hdvd : NumPhysRounds ∣ NumRounds) {s : PresentState W}
    (hidx : s.idx = BitVec.ofNat 5 NumRounds) :
    (primPresent NumRounds NumPhysRounds true)^[NumRounds / NumPhysRounds] s =
      primPresent NumRounds NumRounds true s := by
  obtain ⟨m, rfl⟩ := hdvd
  have hp : 0 < NumPhysRounds := Nat.pos_of_mul_pos_right hpos
  have hm : 0 < m := Nat.pos_of_mul_pos_left hpos
  rw [Nat.mul_div_cancel_left m hp]
  refine iterate_inst hm fun k hk hkm => ?_
  have hsum : NumPhysRounds * k < NumPhysRounds * m := Nat.mul_lt_mul_of_pos_left hkm hp
  change ¬ (PresentState.decRound^[NumPhysRounds * k] s).idx.toNat = 0
  rw [toNat_idx_decRound hidx hlt (Nat.le_of_lt hsum)]
  omega

/-- The unrolled encryption adds the last key. -/
theorem primPresent_enc_eq (hlt : NumRounds < 32) (data : BitVec W.DataWidth)
    (key : BitVec W.KeyWidth) : primPresent NumRounds NumRounds false ⟨data, key, 1⟩ =
      (PresentState.encRound^[NumRounds] ⟨data, key, 1⟩).addKey := by
  refine if_pos ?_
  change (PresentState.encRound^[NumRounds] ⟨data, key, 1⟩).idx.toNat = _
  rw [toNat_idx_encRound, presentLastRoundIdx]
  simp only [Bool.false_eq_true, false_or]
  split_ifs <;> omega

/-- The unrolled decryption adds the first key. -/
theorem primPresent_dec_eq (hlt : NumRounds < 32) {s : PresentState W}
    (hidx : s.idx = BitVec.ofNat 5 NumRounds) :
    primPresent NumRounds NumRounds true s = (PresentState.decRound^[NumRounds] s).addKey := by
  refine if_pos ?_
  change (PresentState.decRound^[NumRounds] s).idx.toNat = 0
  rw [toNat_idx_decRound hidx hlt (Nat.le_refl _), Nat.sub_self]

/-- The decryption with the derived key returns the data. -/
theorem primPresent_dec_enc (hlt : NumRounds < 32) (data : BitVec W.DataWidth)
    (key : BitVec W.KeyWidth) : (primPresent NumRounds NumRounds true
      ⟨(primPresent NumRounds NumRounds false ⟨data, key, 1⟩).data,
        W.getDecKey key (BitVec.ofNat 5 NumRounds), BitVec.ofNat 5 NumRounds⟩).data = data := by
  have hstart : (⟨(primPresent NumRounds NumRounds false ⟨data, key, 1⟩).data,
      W.getDecKey key (BitVec.ofNat 5 NumRounds), BitVec.ofNat 5 NumRounds⟩ : PresentState W) =
        (PresentState.encRound^[NumRounds] ⟨data, key, 1⟩).undone := by
    rw [primPresent_enc_eq hlt, ← PresentState.key_iterate_encRound data key hlt]
    ext1
    · rfl
    · rfl
    · change _ = (PresentState.encRound^[NumRounds] ⟨data, key, 1⟩).idx - 1
      rw [PresentState.idx_iterate_encRound, BitVec.add_comm, BitVec.add_sub_cancel]
  rw [primPresent_dec_eq hlt rfl, hstart, PresentState.iterate_decRound_undone,
    PresentState.addKey_undone_data]

end Instances

end SecureBoot
