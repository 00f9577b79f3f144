import Mathlib.Data.Fin.Tuple.Basic
import Mathlib.Data.Nat.Bitwise

/-! Naturally aligned regions of a power-of-two size, encoded in one word: the
address of the region with ones in its low bits, whose number gives the size. A
comparator ignores the ones and the zero above them. -/

namespace Napot

variable {w : ℕ}

/-- The bits a comparator looks at: those above the lowest zero bit. -/
def Compares (code : BitVec w) (i : ℕ) : Prop := ∃ j < i, code.getLsbD j = false

instance (code : BitVec w) (i : ℕ) : Decidable (Compares code i) :=
  inferInstanceAs (Decidable (∃ j < i, code.getLsbD j = false))

/-- A word with `n` trailing ones is compared above bit `n`. -/
theorem compares_iff {code : BitVec w} {n : ℕ} (hones : ∀ j < n, code.getLsbD j = true)
    (hzero : code.getLsbD n = false) (i : ℕ) : Compares code i ↔ n < i := by
  constructor
  · rintro ⟨j, hj, hbit⟩
    have hn : n ≤ j := by
      by_contra hlt
      simp [hones j (by omega)] at hbit
    omega
  · intro hi
    exact ⟨n, hi, hzero⟩

variable {start : BitVec w} {k : ℕ}

theorem getLsbD_of_aligned (hstart : 2 ^ k ∣ start.toNat) {i : ℕ} (hi : i < k) :
    start.getLsbD i = false := by
  obtain ⟨q, hq⟩ := hstart
  rw [← BitVec.testBit_toNat, hq, Nat.testBit_two_pow_mul, decide_eq_false (by omega),
    Bool.false_and]

theorem getLsbD_sub_one {len : BitVec w} (hlen : len.toNat = 2 ^ k) (i : ℕ) :
    (len - 1).getLsbD i = decide (i < k) := by
  have hpos : 1 ≤ 2 ^ k := Nat.one_le_two_pow
  have hw : 1 < 2 ^ w ∨ w = 0 := by
    cases w with
    | zero => exact .inr rfl
    | succ w => exact .inl (Nat.one_lt_two_pow (by omega))
  obtain hw | rfl := hw
  · have hone : (1 : BitVec w).toNat = 1 := Nat.mod_eq_of_lt hw
    have hsub : (len - 1).toNat = 2 ^ k - 1 := by
      rw [BitVec.toNat_sub_of_le (by rw [BitVec.le_def, hlen, hone]; exact hpos), hlen, hone]
    rw [← BitVec.testBit_toNat, hsub, Nat.testBit_two_pow_sub_one]
  · have := len.isLt
    omega

/-- Agreement on the bits above the size of a region is membership in the region. -/
theorem mem_region_iff (hstart : 2 ^ k ∣ start.toNat) (a : BitVec w) :
    (∀ i, k ≤ i → a.getLsbD i = start.getLsbD i) ↔
      start.toNat ≤ a.toNat ∧ a.toNat < start.toNat + 2 ^ k := by
  have hdiv : (∀ i, k ≤ i → a.getLsbD i = start.getLsbD i) ↔
      a.toNat / 2 ^ k = start.toNat / 2 ^ k := by
    constructor
    · intro h
      refine Nat.eq_of_testBit_eq fun i => ?_
      rw [Nat.testBit_div_two_pow, Nat.testBit_div_two_pow]
      exact h (i + k) (Nat.le_add_left k i)
    · intro h i hi
      rw [← BitVec.testBit_toNat, ← BitVec.testBit_toNat, ← Nat.sub_add_cancel hi,
        ← Nat.testBit_div_two_pow, ← Nat.testBit_div_two_pow, h]
  obtain ⟨q, hq⟩ := hstart
  rw [hdiv, hq, Nat.mul_div_cancel_left q (Nat.two_pow_pos k),
    Nat.div_eq_iff (Nat.two_pow_pos k), Nat.mul_comm]
  have := Nat.two_pow_pos k
  omega

/-- The address in the region at `base` at the offset that `a` has in the region at `start`. -/
theorem toNat_rebase {base a : BitVec w} (hbase : 2 ^ k ∣ base.toNat)
    (hstart : 2 ^ k ∣ start.toNat) (hge : start.toNat ≤ a.toNat)
    (hlt : a.toNat < start.toNat + 2 ^ k) {b : BitVec w}
    (hb : ∀ i, b.getLsbD i = (a.getLsbD i && decide (i < k) || base.getLsbD i)) :
    b.toNat = base.toNat + (a.toNat - start.toNat) := by
  obtain ⟨p, hp⟩ := hbase
  obtain ⟨q, hq⟩ := hstart
  have hmod : a.toNat - start.toNat = a.toNat % 2 ^ k := by
    rw [hq] at hge hlt ⊢
    rw [show a.toNat = 2 ^ k * q + (a.toNat - 2 ^ k * q) by omega, Nat.mul_add_mod,
      Nat.mod_eq_of_lt (by omega)]
    omega
  rw [hmod, hp]
  refine Nat.eq_of_testBit_eq fun i => ?_
  rw [Nat.testBit_two_pow_mul_add p (Nat.mod_lt _ (Nat.two_pow_pos k)), BitVec.testBit_toNat,
    hb i]
  by_cases hik : i < k
  · rw [getLsbD_of_aligned (k := k) ⟨p, hp⟩ hik, if_pos hik, Nat.testBit_mod_two_pow,
      BitVec.testBit_toNat]
    simp [hik]
  · have hbit : base.getLsbD i = p.testBit (i - k) := by
      rw [← BitVec.testBit_toNat, hp, Nat.testBit_two_pow_mul, decide_eq_true (by omega),
        Bool.true_and]
    simp [hik, hbit]

end Napot

/-! RISC-V physical memory protection with sixteen entries, four-byte granularity
and machine mode lockdown disabled, as the Ibex core has it. An entry matches an
address by its mode; the first entry that matches decides. The three encodings of
a region into address registers are shown to match exactly the bytes of the region. -/

namespace Pmp

/-- Entries are numbered by `Fin 16`. -/
instance instNeZeroEntries : NeZero 16 := ⟨by decide⟩

/-- The address-matching mode `A`. -/
inductive Mode where
  | off | tor | na4 | napot
  deriving DecidableEq, Repr

def Mode.bits : Mode → BitVec 2
  | .off => 0
  | .tor => 1
  | .na4 => 2
  | .napot => 3

def Mode.ofBits (b : BitVec 2) : Mode :=
  if b = 0 then .off else if b = 1 then .tor else if b = 2 then .na4 else .napot

@[simp] theorem Mode.ofBits_bits (m : Mode) : Mode.ofBits m.bits = m := by
  cases m <;> rfl

/-- A `pmpcfg` field. Without lockdown a writable entry is readable. -/
structure Cfg where
  lock : Bool
  mode : Mode
  exec : Bool
  write : Bool
  read : Bool
  read_of_write : write → read := by decide
  deriving DecidableEq

namespace Cfg

def off : Cfg where
  lock := false
  mode := .off
  exec := false
  write := false
  read := false

/-- The field as it reads back, with the two reserved bits zero. -/
def byte (c : Cfg) : BitVec 8 :=
  BitVec.ofBool c.lock ++ 0#2 ++ c.mode.bits ++ BitVec.ofBool c.exec ++ BitVec.ofBool c.write ++
    BitVec.ofBool c.read

/-- The field that a written byte sets. Write without read is reserved and drops write. -/
def ofByte (b : BitVec 8) : Cfg where
  lock := b.getLsbD 7
  mode := .ofBits (b.extractLsb' 3 2)
  exec := b.getLsbD 2
  write := b.getLsbD 1 && b.getLsbD 0
  read := b.getLsbD 0
  read_of_write h := (Bool.and_eq_true _ _ ▸ h).2

theorem ofByte_byte (c : Cfg) : ofByte c.byte = c := by
  obtain ⟨lock, mode, exec, write, read, h⟩ := c
  revert h
  cases lock <;> cases mode <;> cases exec <;> cases write <;> cases read <;> decide

end Cfg

/-! ### The four fields of a `pmpcfg` register -/

/-- The `j`-th byte of a register. -/
def lane (w : BitVec 32) (j : ℕ) : BitVec 8 := w.extractLsb' (8 * j) 8

theorem getLsbD_lane (w : BitVec 32) (j b : ℕ) (hb : b < 8) :
    (lane w j).getLsbD b = w.getLsbD (8 * j + b) := by
  simp [lane, hb]

theorem ext_lanes {v w : BitVec 32} (h : ∀ j < 4, lane v j = lane w j) : v = w := by
  refine BitVec.eq_of_getLsbD_eq fun i hi => ?_
  have hj := congrArg (·.getLsbD (i % 8)) (h (i / 8) (by omega))
  simp only [getLsbD_lane _ _ _ (Nat.mod_lt i (by decide : 0 < 8)), Nat.div_add_mod] at hj
  exact hj

def pack (b : ℕ → BitVec 8) : BitVec 32 := b 3 ++ b 2 ++ b 1 ++ b 0

theorem lane_pack (b : ℕ → BitVec 8) {j : ℕ} (hj : j < 4) : lane (pack b) j = b j := by
  refine BitVec.eq_of_getLsbD_eq fun i hi => ?_
  rw [getLsbD_lane _ _ _ hi]
  simp only [pack, BitVec.getLsbD_append]
  match j, hj with
  | 0, _ => simp [hi]
  | 1, _ => rw [if_neg (by omega), if_pos (by omega), show 8 * 1 + i - 8 = i by omega]
  | 2, _ =>
    rw [if_neg (by omega), if_neg (by omega), if_pos (by omega), show 8 * 2 + i - 8 - 8 = i by omega]
  | 3, _ =>
    rw [if_neg (by omega), if_neg (by omega), if_neg (by omega),
      show 8 * 3 + i - 8 - 8 - 8 = i by omega]

theorem getLsbD_laneMask (i : ℕ) : (0xff : BitVec 32).getLsbD i = decide (i < 8) := by
  have h := BitVec.getLsbD_ofNat (n := 32) (2 ^ 8 - 1) i
  rw [Nat.testBit_two_pow_sub_one] at h
  refine h.trans ?_
  by_cases hi : i < 8
  · simp [hi, show i < 32 by omega]
  · simp [hi]

/-- Whether a bit of lane `i` is a bit of lane `j`. -/
theorem mem_lane_iff {i j b : ℕ} (hb : b < 8) :
    (8 * j ≤ 8 * i + b ∧ 8 * i + b - 8 * j < 8) ↔ i = j := by
  omega

theorem lane_clear (w : BitVec 32) {i : ℕ} (j : ℕ) (hi : i < 4) :
    lane (w &&& ~~~((0xff : BitVec 32) <<< (8 * j))) i = if i = j then 0 else lane w i := by
  refine BitVec.eq_of_getLsbD_eq fun b hb => ?_
  have hin : 8 * i + b < 32 := by omega
  rw [getLsbD_lane _ _ _ hb, BitVec.getLsbD_and, BitVec.getLsbD_not, BitVec.getLsbD_shiftLeft,
    getLsbD_laneMask]
  by_cases hij : i = j
  · subst hij
    simp [hb]
  · have hout := mt (mem_lane_iff (i := i) (j := j) hb).mp hij
    rw [if_neg hij, getLsbD_lane _ _ _ hb]
    by_cases hle : 8 * i + b < 8 * j
    · simp [hin, hle]
    · simp [hin, show ¬ 8 * i + b - 8 * j < 8 by omega]

theorem lane_or (v w : BitVec 32) (i : ℕ) : lane (v ||| w) i = lane v i ||| lane w i :=
  BitVec.extractLsb'_or

theorem lane_shift (b : BitVec 8) {i : ℕ} (j : ℕ) (hi : i < 4) :
    lane (b.setWidth 32 <<< (8 * j)) i = if i = j then b else 0 := by
  refine BitVec.eq_of_getLsbD_eq fun k hk => ?_
  have hin : 8 * i + k < 32 := by omega
  rw [getLsbD_lane _ _ _ hk, BitVec.getLsbD_shiftLeft, BitVec.getLsbD_setWidth]
  by_cases hij : i = j
  · subst hij
    simp [hin, show k < 32 by omega]
  · have hout := mt (mem_lane_iff (i := i) (j := j) hk).mp hij
    rw [if_neg hij]
    by_cases hle : 8 * i + k < 8 * j
    · simp [hle]
    · rw [BitVec.getLsbD_of_ge b (8 * i + k - 8 * j) (by omega)]
      simp

/-! ### The registers and their write rules -/

structure Csrs where
  cfg : Fin 16 → Cfg
  addr : Fin 16 → BitVec 32
  /-- Rule locking bypass. -/
  rlb : Bool
  /-- Machine mode whitelist policy. -/
  mmwp : Bool

namespace Csrs

def locked (s : Csrs) (i : Fin 16) : Bool := (s.cfg i).lock && !s.rlb

/-- The entries of `pmpcfg` number `k`. -/
def entry (k : Fin 4) (j : ℕ) : Fin 16 := ⟨(4 * k + j) % 16, Nat.mod_lt _ (by decide)⟩

def readCfg (s : Csrs) (k : Fin 4) : BitVec 32 := pack fun j => (s.cfg (entry k j)).byte

def writeCfg (s : Csrs) (k : Fin 4) (w : BitVec 32) : Csrs :=
  { s with cfg := fun i =>
      if i.val / 4 = k ∧ ¬ s.locked i then .ofByte (lane w (i.val % 4)) else s.cfg i }

def writeAddr (s : Csrs) (i : Fin 16) (w : BitVec 32) : Csrs :=
  if s.locked i ∨ i.val + 1 < 16 ∧ s.locked (i + 1) ∧ (s.cfg (i + 1)).mode = .tor then s
  else { s with addr := Function.update s.addr i w }

def readMseccfg (s : Csrs) : BitVec 32 :=
  (if s.rlb then 4 else 0 : BitVec 32) ||| (if s.mmwp then 2 else 0 : BitVec 32)

variable (s : Csrs)

theorem lane_readCfg (k : Fin 4) {j : ℕ} (hj : j < 4) :
    lane (s.readCfg k) j = (s.cfg (entry k j)).byte :=
  lane_pack _ hj

theorem locked_eq_false (hrlb : s.rlb = true) (i : Fin 16) : s.locked i = false := by
  simp [locked, hrlb]

@[simp] theorem rlb_writeAddr (i : Fin 16) (w : BitVec 32) : (s.writeAddr i w).rlb = s.rlb := by
  unfold writeAddr
  split_ifs <;> rfl

@[simp] theorem mmwp_writeAddr (i : Fin 16) (w : BitVec 32) :
    (s.writeAddr i w).mmwp = s.mmwp := by
  unfold writeAddr
  split_ifs <;> rfl

@[simp] theorem cfg_writeAddr (i : Fin 16) (w : BitVec 32) : (s.writeAddr i w).cfg = s.cfg := by
  unfold writeAddr
  split_ifs <;> rfl

/-- With the locks bypassed, every address register can be written. -/
@[simp] theorem addr_writeAddr (hrlb : s.rlb = true) (i : Fin 16) (w : BitVec 32) :
    (s.writeAddr i w).addr = Function.update s.addr i w := by
  simp [writeAddr, s.locked_eq_false hrlb]

@[simp] theorem rlb_writeCfg (k : Fin 4) (w : BitVec 32) : (s.writeCfg k w).rlb = s.rlb := rfl

@[simp] theorem mmwp_writeCfg (k : Fin 4) (w : BitVec 32) : (s.writeCfg k w).mmwp = s.mmwp := rfl

@[simp] theorem addr_writeCfg (k : Fin 4) (w : BitVec 32) : (s.writeCfg k w).addr = s.addr := rfl

/-- With the locks bypassed, a write of all four bytes sets all four entries. -/
@[simp] theorem cfg_writeCfg (hrlb : s.rlb = true) (k : Fin 4) (w : BitVec 32) :
    (s.writeCfg k w).cfg = fun i : Fin 16 =>
      if i.val / 4 = k.val then .ofByte (lane w (i.val % 4)) else s.cfg i := by
  simp [writeCfg, s.locked_eq_false hrlb]

theorem entry_div_mod (i : Fin 16) (k : Fin 4) (hk : i.val / 4 = k) : entry k (i.val % 4) = i := by
  refine Fin.ext ?_
  simp only [entry, ← hk]
  omega

theorem eq_entry_iff (i : Fin 16) (k : Fin 4) {j : ℕ} (hj : j < 4) :
    i = entry k j ↔ i.val / 4 = k ∧ i.val % 4 = j := by
  rw [Fin.ext_iff]
  simp only [entry]
  omega

/-- A write of the register that changes one lane changes one entry. -/
theorem cfg_writeCfg_update (hrlb : s.rlb = true) (k : Fin 4) {j : ℕ} (hj : j < 4)
    {w : BitVec 32} {c : Cfg} (hc : .ofByte (lane w j) = c)
    (hw : ∀ i < 4, i ≠ j → lane w i = lane (s.readCfg k) i) :
    (s.writeCfg k w).cfg = Function.update s.cfg (entry k j) c := by
  rw [s.cfg_writeCfg hrlb]
  funext i
  have hlane := Nat.mod_lt i.val (by decide : 0 < 4)
  by_cases hk : i.val / 4 = k
  · rw [if_pos hk]
    by_cases hij : i.val % 4 = j
    · rw [(eq_entry_iff i k hj).mpr ⟨hk, hij⟩, Function.update_self, ← hc,
        ← (eq_entry_iff i k hj).mpr ⟨hk, hij⟩, hij]
    · rw [Function.update_of_ne (mt (eq_entry_iff i k hj).mp (by tauto)), hw _ hlane hij,
        s.lane_readCfg k hlane, entry_div_mod i k hk, Cfg.ofByte_byte]
  · rw [if_neg hk, Function.update_of_ne (mt (eq_entry_iff i k hj).mp (by tauto))]

/-- `csrrc` with the mask of one byte. -/
theorem cfg_writeCfg_clear (hrlb : s.rlb = true) (k : Fin 4) {j : ℕ} (hj : j < 4) :
    (s.writeCfg k (s.readCfg k &&& ~~~((0xff : BitVec 32) <<< (8 * j)))).cfg =
      Function.update s.cfg (entry k j) .off := by
  refine s.cfg_writeCfg_update hrlb k hj ?_ fun i hi hij => ?_
  · rw [lane_clear _ j hj, if_pos rfl]
    decide
  · rw [lane_clear _ j hi, if_neg hij]

/-- `csrrs` with one byte, over an entry that is off. -/
theorem cfg_writeCfg_set (hrlb : s.rlb = true) (k : Fin 4) {j : ℕ} (hj : j < 4) (b : BitVec 8)
    (hoff : s.cfg (entry k j) = .off) :
    (s.writeCfg k (s.readCfg k ||| b.setWidth 32 <<< (8 * j))).cfg =
      Function.update s.cfg (entry k j) (.ofByte b) := by
  refine s.cfg_writeCfg_update hrlb k hj ?_ fun i hi hij => ?_
  · rw [lane_or, lane_shift b j hj, if_pos rfl, s.lane_readCfg k hj, hoff]
    exact congrArg Cfg.ofByte BitVec.zero_or
  · rw [lane_or, lane_shift b j hi, if_neg hij]
    exact BitVec.or_zero

end Csrs

/-! ### Matching -/

inductive Access where
  | exec | write | read
  deriving DecidableEq, Repr

/-- Whether an entry with mode `mode` and address registers `prev` and `addr`
matches the byte address `a`. -/
def Mode.Matches (mode : Mode) (prev addr a : BitVec 32) : Prop :=
  match mode with
  | .off => False
  | .tor => prev ≤ a >>> 2 ∧ a >>> 2 < addr
  | .na4 => a >>> 2 = addr
  | .napot => ∀ i < 32, Napot.Compares addr i → (a >>> 2).getLsbD i = addr.getLsbD i

instance : (mode : Mode) → (prev addr a : BitVec 32) → Decidable (mode.Matches prev addr a)
  | .off, _, _, _ => inferInstanceAs (Decidable False)
  | .tor, _, _, _ => inferInstanceAs (Decidable (_ ∧ _))
  | .na4, _, addr, a => inferInstanceAs (Decidable (a >>> 2 = addr))
  | .napot, _, _, _ => inferInstanceAs (Decidable (∀ i < 32, _ → _))

/-! ### Encodings of a region -/

theorem toNat_shiftRight_two (a : BitVec 32) : (a >>> 2).toNat = a.toNat / 4 := by
  rw [BitVec.toNat_ushiftRight, Nat.shiftRight_eq_div_pow]

theorem matches_tor {lo hi : BitVec 32} (hlo : 4 ∣ lo.toNat) (hhi : 4 ∣ hi.toNat)
    (a : BitVec 32) :
    Mode.tor.Matches (lo >>> 2) (hi >>> 2) a ↔ lo.toNat ≤ a.toNat ∧ a.toNat < hi.toNat := by
  simp only [Mode.Matches, BitVec.le_def, BitVec.lt_def, toNat_shiftRight_two]
  omega

theorem matches_na4 {start : BitVec 32} (h : 4 ∣ start.toNat) (prev a : BitVec 32) :
    Mode.na4.Matches prev (start >>> 2) a ↔
      start.toNat ≤ a.toNat ∧ a.toNat < start.toNat + 4 := by
  simp only [Mode.Matches, BitVec.toNat_inj.symm, toNat_shiftRight_two]
  omega

/-- The address register of a NAPOT region of `len` bytes. -/
def napotAddr (start len : BitVec 32) : BitVec 32 := (start >>> 2) ||| ((len - 1) >>> 3)

section Napot

variable {start len : BitVec 32} {k : ℕ}

theorem getLsbD_napotAddr (hlen : len.toNat = 2 ^ k) (i : ℕ) :
    (napotAddr start len).getLsbD i = (start.getLsbD (2 + i) || decide (3 + i < k)) := by
  rw [napotAddr, BitVec.getLsbD_or, BitVec.getLsbD_ushiftRight, BitVec.getLsbD_ushiftRight,
    Napot.getLsbD_sub_one hlen]

/-- A NAPOT entry compares exactly the bits above the size of its region. -/
theorem compares_napotAddr (hk : 3 ≤ k) (hlen : len.toNat = 2 ^ k)
    (hstart : 2 ^ k ∣ start.toNat) (i : ℕ) :
    Napot.Compares (napotAddr start len) i ↔ k ≤ i + 2 := by
  rw [Napot.compares_iff (n := k - 3)]
  · omega
  · intro j hj
    rw [getLsbD_napotAddr hlen, decide_eq_true (by omega), Bool.or_true]
  · rw [getLsbD_napotAddr hlen, decide_eq_false (by omega), Bool.or_false]
    exact Napot.getLsbD_of_aligned hstart (by omega)

theorem matches_napot (hk : 3 ≤ k) (hlen : len.toNat = 2 ^ k) (hstart : 2 ^ k ∣ start.toNat)
    (prev a : BitVec 32) :
    Mode.napot.Matches prev (napotAddr start len) a ↔
      start.toNat ≤ a.toNat ∧ a.toNat < start.toNat + len.toNat := by
  rw [hlen, ← Napot.mem_region_iff hstart]
  simp only [Mode.Matches, compares_napotAddr hk hlen hstart, getLsbD_napotAddr hlen,
    BitVec.getLsbD_ushiftRight]
  constructor
  · intro h i hi
    by_cases hlt : i < 32
    · have hbit := h (i - 2) (by omega) (by omega)
      rwa [show 2 + (i - 2) = i by omega, decide_eq_false (by omega), Bool.or_false] at hbit
    · rw [BitVec.getLsbD_of_ge a i (by omega), BitVec.getLsbD_of_ge start i (by omega)]
  · intro h i _ hi
    rw [decide_eq_false (by omega), Bool.or_false]
    exact h (2 + i) (by omega)

end Napot

def Cfg.Grants (c : Cfg) : Access → Bool
  | .exec => c.exec
  | .write => c.write
  | .read => c.read

namespace Csrs

variable (s : Csrs)

/-- The address register below entry `i`. -/
def prevAddr (i : Fin 16) : BitVec 32 := if i = 0 then 0 else s.addr (i - 1)

def Matches (i : Fin 16) (a : BitVec 32) : Prop :=
  (s.cfg i).mode.Matches (s.prevAddr i) (s.addr i) a

instance (i : Fin 16) (a : BitVec 32) : Decidable (s.Matches i a) :=
  inferInstanceAs (Decidable (Mode.Matches _ _ _ a))

/-- Whether machine mode may make the access: the lowest-numbered entry that
matches decides, an entry that is not locked allows everything. -/
def Allowed (access : Access) (a : BitVec 32) : Bool :=
  match Fin.find? fun i => decide (s.Matches i a) with
  | some i => !(s.cfg i).lock || (s.cfg i).Grants access
  | none => !s.mmwp

variable {s}

theorem allowed_of_first {access : Access} {a : BitVec 32} {i : Fin 16} (hi : s.Matches i a)
    (hfirst : ∀ j < i, ¬ s.Matches j a) :
    s.Allowed access a = (!(s.cfg i).lock || (s.cfg i).Grants access) := by
  have hfind : (Fin.find? fun i => decide (s.Matches i a)) = some i := by
    rw [Fin.find?_eq_some_iff]
    exact ⟨decide_eq_true hi, fun j hj => decide_eq_false (hfirst j hj)⟩
  unfold Allowed
  rw [hfind]

/-- Under the whitelist policy an allowed access is granted by the first match. -/
theorem exists_of_allowed {access : Access} {a : BitVec 32} (hmmwp : s.mmwp = true)
    (h : s.Allowed access a = true) :
    ∃ i, s.Matches i a ∧ (∀ j < i, ¬ s.Matches j a) ∧
      ((s.cfg i).lock = true → (s.cfg i).Grants access = true) := by
  unfold Allowed at h
  cases hfind : Fin.find? fun i => decide (s.Matches i a) with
  | none => simp [hfind, hmmwp] at h
  | some i =>
    obtain ⟨hi, hfirst⟩ := Fin.find?_eq_some_iff.mp hfind
    simp only [hfind, Bool.or_eq_true, Bool.not_eq_true'] at h
    exact ⟨i, of_decide_eq_true hi, fun j hj => of_decide_eq_false (hfirst j hj),
      fun hlock => h.resolve_left (by simp [hlock])⟩

end Csrs

end Pmp

/-! The registers of physical memory protection as they read back, on any implementation: what
it keeps of a value written to an unlocked field is its own choice. -/

namespace Pmp

/-- What a field keeps of a write, by its old value and the written one. -/
structure Warl where
  cfg : Fin 16 → BitVec 8 → BitVec 8 → BitVec 8
  addr : Fin 16 → BitVec 32 → BitVec 32 → BitVec 32

structure Regs where
  cfg : Fin 16 → BitVec 8
  addr : Fin 16 → BitVec 32
  /-- Rule locking bypass. -/
  rlb : Bool
  /-- Machine mode whitelist policy. -/
  mmwp : Bool

namespace Regs

variable (warl : Warl) (s : Regs)

/-- The entries that the registers describe. -/
def decode : Csrs where
  cfg i := .ofByte (s.cfg i)
  addr := s.addr
  rlb := s.rlb
  mmwp := s.mmwp

def locked (i : Fin 16) : Bool := (s.cfg i).getLsbD 7 && !s.rlb

theorem reg_lt (i : Fin 16) : i.val / 4 < 4 := Nat.div_lt_of_lt_mul i.isLt

/-- The `pmpcfg` register of an entry. -/
def reg (i : Fin 16) : Fin 4 := ⟨i.val / 4, reg_lt i⟩

def readCfg (k : Fin 4) : BitVec 32 := pack fun j => s.cfg (Csrs.entry k j)

def writeCfg (k : Fin 4) (w : BitVec 32) : Regs :=
  { s with cfg := fun i =>
      if i.val / 4 = k ∧ ¬ s.locked i then warl.cfg i (s.cfg i) (lane w (i.val % 4))
      else s.cfg i }

def writeAddr (i : Fin 16) (w : BitVec 32) : Regs :=
  if s.locked i ∨ i.val + 1 < 16 ∧ s.locked (i + 1) ∧ (s.decode.cfg (i + 1)).mode = .tor then s
  else { s with addr := Function.update s.addr i (warl.addr i (s.addr i) w) }

@[simp] theorem addr_writeCfg (k : Fin 4) (w : BitVec 32) : (s.writeCfg warl k w).addr = s.addr :=
  rfl

@[simp] theorem cfg_writeAddr (i : Fin 16) (w : BitVec 32) :
    (s.writeAddr warl i w).cfg = s.cfg := by
  unfold writeAddr
  split_ifs <;> rfl

theorem addr_writeAddr_of_ne {i j : Fin 16} (hij : j ≠ i) (w : BitVec 32) :
    (s.writeAddr warl i w).addr j = s.addr j := by
  unfold writeAddr
  split_ifs
  · rfl
  · exact Function.update_of_ne hij _ _

theorem cfg_writeCfg_of_ne {k : Fin 4} {i : Fin 16} (hi : i.val / 4 ≠ k) (w : BitVec 32) :
    (s.writeCfg warl k w).cfg i = s.cfg i :=
  if_neg fun h => hi h.1

theorem lane_readCfg (k : Fin 4) {j : ℕ} (hj : j < 4) :
    lane (s.readCfg k) j = s.cfg (Csrs.entry k j) :=
  lane_pack _ hj

/-- The byte of an entry in the register that reads back. -/
theorem lane_readCfg_reg (i : Fin 16) : lane (s.readCfg (reg i)) (i.val % 4) = s.cfg i := by
  rw [s.lane_readCfg _ (Nat.mod_lt _ (by decide)), Csrs.entry_div_mod i (reg i) rfl]

/-- A register that reads back with one lane changed has one entry changed. -/
theorem cfg_of_readCfg {s s' : Regs} {i : Fin 16} {b : BitVec 8}
    (hread : s'.readCfg (reg i) =
      (s.readCfg (reg i) &&& ~~~((0xff : BitVec 32) <<< (8 * (i.val % 4)))) |||
        b.setWidth 32 <<< (8 * (i.val % 4)))
    (hother : ∀ j : Fin 16, j.val / 4 ≠ reg i → s'.cfg j = s.cfg j) :
    s'.cfg = Function.update s.cfg i b := by
  funext j
  by_cases hreg : j.val / 4 = reg i
  · have hj := Nat.mod_lt j.val (by decide : 0 < 4)
    have hsame : reg j = reg i := Fin.ext hreg
    rw [← s'.lane_readCfg_reg j, hsame, hread, lane_or, lane_clear _ _ hj, lane_shift b _ hj]
    by_cases hlane : j.val % 4 = i.val % 4
    · have hji : j = i := by
        rw [← Csrs.entry_div_mod j (reg i) hreg, hlane]
        exact Csrs.entry_div_mod i (reg i) rfl
      rw [if_pos hlane, if_pos hlane, hji, Function.update_self]
      exact BitVec.zero_or
    · have hji : j ≠ i := fun heq => hlane (heq ▸ rfl)
      rw [if_neg hlane, if_neg hlane, Function.update_of_ne hji, ← hsame, s.lane_readCfg_reg j]
      exact BitVec.or_zero
  · have hji : j ≠ i := by
      rintro rfl
      exact hreg rfl
    rw [hother j hreg, Function.update_of_ne hji]

end Regs

/-! ### The implementation of the Ibex core -/

/-- It drops write without read and keeps every address. -/
def Warl.ibex : Warl where
  cfg _ _ b := (Cfg.ofByte b).byte
  addr _ _ w := w

namespace Csrs

variable (s : Csrs)

/-- The registers that describe the entries. -/
def raw : Regs where
  cfg i := (s.cfg i).byte
  addr := s.addr
  rlb := s.rlb
  mmwp := s.mmwp

theorem decode_raw : s.raw.decode = s := by
  rw [Regs.decode, raw]
  simp only [Cfg.ofByte_byte]

theorem locked_raw (i : Fin 16) : s.raw.locked i = s.locked i := by
  have hlock := congrArg Cfg.lock (Cfg.ofByte_byte (s.cfg i))
  rw [Regs.locked, locked]
  exact congrArg (· && !s.rlb) hlock

theorem raw_writeCfg (k : Fin 4) (w : BitVec 32) :
    (s.writeCfg k w).raw = s.raw.writeCfg .ibex k w := by
  simp only [raw, writeCfg, Regs.writeCfg, Regs.mk.injEq, and_true]
  funext i
  rw [← s.locked_raw i]
  exact apply_ite Cfg.byte _ _ _

theorem raw_writeAddr (i : Fin 16) (w : BitVec 32) :
    (s.writeAddr i w).raw = s.raw.writeAddr .ibex i w := by
  simp only [writeAddr, Regs.writeAddr, locked_raw, decode_raw]
  split_ifs <;> rfl

end Csrs

end Pmp
