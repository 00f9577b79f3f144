import SecureBoot.Lib.Clocked
import SecureBoot.RomCtrl.Checker

/-! The runs of the ROM checker. What it does is given by its progress: the word that is
being hashed, the number of expected words that are loaded, or the number of words that are
compared. Every cycle of the registers is a step of the progress. -/

namespace SecureBoot

open Clocked

/-! ### The counter and the comparator -/

theorem beq_ofNat_iff {w a b : ℕ} {x : BitVec w} (hx : x.toNat = a) (hb : b < 2 ^ w) :
    (x == BitVec.ofNat w b) = decide (a = b) := by
  rw [← hx, Bool.eq_iff_iff, beq_iff_eq, decide_eq_true_eq, ← BitVec.toNat_inj, BitVec.toNat_ofNat,
    Nat.mod_eq_of_lt hb]

section Counter

variable {RomDepth RomTopCount : ℕ} {r : CounterRegs RomDepth} {a : ℕ}

/-- The counter is at the address `a`, and was there in the cycle before if `done_q`. -/
structure CounterRegs.At (RomTopCount : ℕ) (r : CounterRegs RomDepth) (a : ℕ) (done_q : Bool) :
    Prop where
  addr_q : r.addr_q.toNat = a
  done_q : r.done_q = done_q
  last_nontop_q : r.last_nontop_q = decide (a + 1 + RomTopCount = RomDepth)
  req_q : r.req_q = true
  vld_q : r.vld_q = true

namespace CounterRegs.At

variable {done_q : Bool} (h : r.At RomTopCount a done_q) (hpos : 0 < RomTopCount)
  (ha : a < RomDepth) (hnontop : RomTopCount + 2 ≤ RomDepth)
include h

theorem done_d (ha : a < RomDepth) : r.done_d = decide (a + 1 = RomDepth) := by
  have hle := le_two_pow_vbits RomDepth
  rw [CounterRegs.done_d, beq_ofNat_iff h.addr_q (by omega), decide_eq_decide]
  omega

theorem toNat_addr_d (ha : a + 1 < RomDepth) : r.addr_d.toNat = a + 1 := by
  have hle := le_two_pow_vbits RomDepth
  rw [addr_d, BitVec.toNat_add, h.addr_q, show (1 : BitVec (vbits RomDepth)) = BitVec.ofNat _ 1 from
    rfl, BitVec.toNat_ofNat, Nat.add_mod_mod, Nat.mod_eq_of_lt (by omega)]

/-- The address that is read is the one of the next cycle. -/
theorem toNat_read_addr_o (data_rdy_i : Bool) (ha : a < RomDepth) :
    (r.read_addr_o data_rdy_i).toNat = if data_rdy_i ∧ a + 1 < RomDepth then a + 1 else a := by
  rw [read_addr_o, go, h.vld_q, h.done_d ha]
  by_cases hend : a + 1 = RomDepth
  · rw [if_neg (by simp [hend]), if_neg (by omega), h.addr_q]
  · cases data_rdy_i
    · rw [if_neg (by simp), if_neg (by simp), h.addr_q]
    · rw [if_pos (by simp [hend]), if_pos ⟨rfl, by omega⟩, h.toNat_addr_d (by omega)]

theorem clock (data_rdy_i : Bool) (ha : a < RomDepth) (hpos : 0 < RomTopCount)
    (hnontop : RomTopCount + 2 ≤ RomDepth) :
    (r.clock RomTopCount data_rdy_i).At RomTopCount
      (if data_rdy_i ∧ a + 1 < RomDepth then a + 1 else a) (decide (a + 1 = RomDepth)) where
  addr_q := h.toNat_read_addr_o data_rdy_i ha
  done_q := h.done_d ha
  last_nontop_q := by
    have hle := le_two_pow_vbits RomDepth
    simp only [CounterRegs.clock, go, h.vld_q, h.done_d ha, last_nontop_d,
      beq_ofNat_iff h.addr_q (show RomDepth - RomTopCount - 2 < _ by omega), h.last_nontop_q]
    by_cases hend : a + 1 = RomDepth
    · rw [if_neg (by simp [hend]), if_neg (by omega)]
    · cases data_rdy_i
      · rw [if_neg (by simp), if_neg (by simp)]
      · rw [if_pos (by simp [hend]), if_pos ⟨rfl, by omega⟩, decide_eq_decide]
        omega
  req_q := rfl
  vld_q := h.req_q

end CounterRegs.At

end Counter

section Compare

variable {NumWords : ℕ} {r : CompareRegs NumWords} {digest exp_digest : BitVec (NumWords * 32)}

/-- Word `k` of a digest. -/
def digestWord (digest : BitVec (NumWords * 32)) (k : ℕ) : BitVec 32 :=
  digest.extractLsb' (32 * k) 32

theorem CompareRegs.clock_reset :
    (CompareRegs.reset : CompareRegs NumWords).clock false digest exp_digest = .reset := by
  have haddr : (CompareRegs.reset : CompareRegs NumWords).addr_incr = false := rfl
  rw [clock, haddr]
  simp only [reset, primCount, primCountReset, cntD_hold, state_d, Bool.false_eq_true, if_false,
    reduceCtorEq]

theorem CompareRegs.alert_reset (NumWords : ℕ) :
    (CompareRegs.reset : CompareRegs NumWords).alert_o false = false := by
  have herr : (primCountReset (0 : BitVec (vbits NumWords))).err_o = false :=
    CountRegs.err_o_eq_false (CountRegs.consistent_reset 0)
  simp only [alert_o, reset, herr]
  simp [primCountReset]

/-- The comparator has compared `j` words. -/
structure CompareRegs.At (r : CompareRegs NumWords) (digest exp_digest : BitVec (NumWords * 32))
    (j : ℕ) : Prop where
  state_q : r.state_q = if j < NumWords then .Checking else .Done
  addr : r.addr.primary.toNat = min j (NumWords - 1)
  consistent : r.addr.Consistent
  matches_q : r.matches_q = decide (∀ k < j, digestWord digest k = digestWord exp_digest k)

namespace CompareRegs.At

variable {j : ℕ}

theorem atLast (h : r.At digest exp_digest j) (hpos : 0 < NumWords) :
    r.atLast = decide (NumWords ≤ j + 1) := by
  have hle := le_two_pow_vbits NumWords
  rw [CompareRegs.atLast, beq_ofNat_iff h.addr (by omega), decide_eq_decide]
  omega

theorem alert_o (h : r.At digest exp_digest j) (hpos : 0 < NumWords) :
    r.alert_o false = false := by
  simp only [CompareRegs.alert_o, CountRegs.err_o_eq_false h.consistent, h.state_q, h.atLast hpos]
  split_ifs with hj
  · simp
  · simp
    omega

theorem done_o (h : r.At digest exp_digest j) : r.done_o = decide (NumWords ≤ j) := by
  rw [CompareRegs.done_o, h.state_q]
  split_ifs with hj
  · rw [decide_eq_false (by omega)]
    rfl
  · rw [decide_eq_true (by omega)]
    rfl

theorem word_eq (h : r.addr.primary.toNat = j) (d : BitVec (NumWords * 32)) :
    r.word d = digestWord d j := by
  rw [word, h]
  rfl

theorem start (hpos : 0 < NumWords) :
    ((CompareRegs.reset : CompareRegs NumWords).clock true digest exp_digest).At
      digest exp_digest 0 where
  state_q := by
    rw [if_pos hpos]
    rfl
  addr := by
    have haddr : (CompareRegs.reset : CompareRegs NumWords).addr_incr = false := rfl
    rw [CompareRegs.clock, haddr]
    simp [CompareRegs.reset, primCount, primCountReset, cntD_hold]
  consistent := CountRegs.Consistent.primCount (CountRegs.consistent_reset 0) 0 _
  matches_q := by simp [CompareRegs.clock, reset]

theorem clock (h : r.At digest exp_digest j) (hj : j < NumWords) :
    (r.clock false digest exp_digest).At digest exp_digest (j + 1) where
  state_q := by
    simp only [CompareRegs.clock, state_d, h.state_q, if_pos hj, h.atLast (by omega),
      decide_eq_true_eq]
    by_cases hlast : NumWords ≤ j + 1
    · rw [if_pos hlast, if_neg (by omega)]
    · rw [if_neg hlast, if_pos (by omega)]
  addr := by
    have hle := le_two_pow_vbits NumWords
    simp only [CompareRegs.clock, primCount, addr_incr, h.state_q, if_pos hj,
      h.atLast (show 0 < NumWords by omega)]
    by_cases hlast : NumWords ≤ j + 1
    · simp only [hlast, decide_true, Bool.not_true, Bool.and_false]
      rw [cntD_hold, h.addr]
      omega
    · simp only [hlast, decide_false, Bool.not_false, beq_self_eq_true, Bool.and_true]
      rw [toNat_cntD_incr, h.addr, BitVec.toNat_ofNat, Nat.mod_eq_of_lt (by omega)]
      omega
  consistent := h.consistent.primCount 0 _
  matches_q := by
    have haddr : r.addr.primary.toNat = j := by
      rw [h.addr]
      omega
    simp only [CompareRegs.clock, h.state_q, if_pos hj, if_true, h.matches_q,
      word_eq haddr]
    rw [Bool.eq_iff_iff, Bool.and_eq_true, decide_eq_true_eq, decide_eq_true_eq, beq_iff_eq]
    constructor
    · rintro ⟨hall, hlast⟩ k hk
      obtain hk | rfl := Nat.lt_succ_iff_lt_or_eq.mp hk
      · exact hall k hk
      · exact hlast
    · intro hall
      exact ⟨fun k hk => hall k (Nat.lt_succ_of_lt hk), hall j (Nat.lt_succ_self j)⟩

end CompareRegs.At

end Compare

/-! ### Progress -/

/-- What the checker is doing: it hashes word `a`, has loaded `m` of the expected words
while KMAC is busy or after it, waits for KMAC, or has spent `j` cycles on the comparison. -/
inductive CheckProgress
  | idle
  | requested
  | low (a : ℕ)
  | high (m : ℕ)
  | kmacAhead (m : ℕ)
  | romAhead
  | checking (j : ℕ)
  | done
  | invalid
  deriving DecidableEq

/-- The word that the checker reads with `m` expected words loaded, from the first one on. -/
def topWord (TopCount m : ℕ) : ℕ := min m (TopCount - 1)

def CheckProgress.next (RomDepth TopCount : ℕ) (p : CheckProgress) (rdy done err : Bool) :
    CheckProgress :=
  match p with
  | .idle => .requested
  | .requested => .low 0
  | .low a =>
    if rdy then if a + 1 + TopCount = RomDepth then .high 0 else .low (a + 1) else .low a
  | .high m =>
    if done && err then .invalid
    else if m < TopCount then if done then .kmacAhead (m + 1) else .high (m + 1)
    else if done then .checking 0 else .romAhead
  | .kmacAhead m =>
    if done then .invalid else if m < TopCount then .kmacAhead (m + 1) else .checking 0
  | .romAhead => if done then if err then .invalid else .checking 0 else .romAhead
  | .checking j =>
    if done then .invalid else if j = TopCount + 1 then .done else .checking (j + 1)
  | .done => if done then .invalid else .done
  | .invalid => .invalid

section Run

variable {RomDepth TopCount DataWidth : ℕ} {rom : ℕ → BitVec DataWidth}
  {s s' : RomCheck RomDepth TopCount DataWidth} {i : RomCheckIn RomDepth TopCount}

/-- The words for KMAC, with the last flag on the last one. -/
def message (RomDepth TopCount : ℕ) (rom : ℕ → BitVec DataWidth) : List (BitVec DataWidth × Bool) :=
  (List.range (RomDepth - TopCount)).map fun a => (rom a, decide (a + 1 + TopCount = RomDepth))

/-- Expected-digest word `k` as the ROM has it. -/
def expWord (RomDepth TopCount : ℕ) (rom : ℕ → BitVec DataWidth) (k : ℕ) : BitVec 32 :=
  (rom (RomDepth - TopCount + k)).setWidth 32

namespace RomCheck

/-- The checker is still reading: the address, and whether the counter is done. -/
structure Reads (rom : ℕ → BitVec DataWidth) (s : RomCheck RomDepth TopCount DataWidth)
    (a : ℕ) (done_q : Bool) : Prop where
  counter : s.u_checker_fsm.u_counter.At TopCount a done_q
  rdata : s.rom_rdata = rom a

/-- The comparator has not been started. -/
structure Waits (s : RomCheck RomDepth TopCount DataWidth) : Prop where
  start_checker_q : s.u_checker_fsm.start_checker_q = false
  u_compare : s.u_checker_fsm.u_compare = .reset

/-- The whole message went to KMAC, and `m` expected words are loaded. -/
structure Hashed (rom : ℕ → BitVec DataWidth) (s : RomCheck RomDepth TopCount DataWidth)
    (m : ℕ) : Prop where
  accepted : s.accepted = message RomDepth TopCount rom
  kmac_rom_vld_q : s.u_checker_fsm.kmac_rom_vld_q = false
  exp_digest_q : ∀ k < m, digestWord s.exp_digest_q k = expWord RomDepth TopCount rom k

/-- KMAC has answered with the digest. -/
def Answered (s : RomCheck RomDepth TopCount DataWidth) : Prop :=
  s.answers = [(s.digest_q, false)]

/-- The registers at each point of the progress. -/
def Abs (rom : ℕ → BitVec DataWidth) (s : RomCheck RomDepth TopCount DataWidth) :
    CheckProgress → Prop
  | .idle => s.u_checker_fsm = .reset ∧ s.accepted = [] ∧ s.answers = []
  | .requested => s.u_checker_fsm = { (.reset : FsmRegs RomDepth TopCount) with
      u_counter := { CounterRegs.reset with req_q := true } } ∧ s.accepted = [] ∧ s.answers = []
  | .low a => s.u_checker_fsm.state_q = .ReadingLow ∧ a + TopCount < RomDepth ∧
      s.Reads rom a false ∧ s.Waits ∧ s.u_checker_fsm.kmac_rom_vld_q = true ∧
      s.accepted = (message RomDepth TopCount rom).take a ∧ s.answers = []
  | .high m => s.u_checker_fsm.state_q = .ReadingHigh ∧ m ≤ TopCount ∧
      s.Reads rom (RomDepth - TopCount + topWord TopCount m) (decide (m = TopCount)) ∧ s.Waits ∧
      s.Hashed rom m ∧ s.answers = []
  | .kmacAhead m => s.u_checker_fsm.state_q = .KmacAhead ∧ m ≤ TopCount ∧
      s.Reads rom (RomDepth - TopCount + topWord TopCount m) (decide (m = TopCount)) ∧ s.Waits ∧
      s.Hashed rom m ∧ s.Answered
  | .romAhead => s.u_checker_fsm.state_q = .RomAhead ∧ s.Reads rom (RomDepth - 1) true ∧ s.Waits ∧
      s.Hashed rom TopCount ∧ s.answers = []
  | .checking j => s.u_checker_fsm.state_q = .Checking ∧ j ≤ TopCount + 1 ∧
      s.u_checker_fsm.u_counter.At TopCount (RomDepth - 1) true ∧ s.Hashed rom TopCount ∧
      s.Answered ∧ s.u_checker_fsm.start_checker_q = decide (j = 0) ∧
      if j = 0 then s.u_checker_fsm.u_compare = .reset
      else s.u_checker_fsm.u_compare.At s.digest_q s.exp_digest_q (j - 1)
  | .done => s.u_checker_fsm.state_q = .Done ∧
      s.u_checker_fsm.u_counter.At TopCount (RomDepth - 1) true ∧ s.Hashed rom TopCount ∧
      s.Answered ∧ s.u_checker_fsm.start_checker_q = false ∧
      s.u_checker_fsm.u_compare.At s.digest_q s.exp_digest_q TopCount
  | .invalid => s.u_checker_fsm.state_q = .Invalid ∧ s.Hashed rom 0 ∧
      s.answers ≠ [] ∧ ∀ d, s.answers ≠ [(d, false)]

/-! ### One cycle -/

theorem in_state_done_eq (r : FsmRegs RomDepth TopCount) :
    r.in_state_done = mubi4_bool_to_mubi (r.state_q == .Done) := by
  unfold FsmRegs.in_state_done
  cases r.state_q <;> decide

theorem test_true_strict_in_state_done (r : FsmRegs RomDepth TopCount) :
    mubi4_test_true_strict r.in_state_done = (r.state_q == .Done) := by
  rw [in_state_done_eq]
  cases r.state_q == .Done <;> decide

theorem test_true_loose_in_state_done (r : FsmRegs RomDepth TopCount) :
    mubi4_test_true_loose r.in_state_done = (r.state_q == .Done) := by
  rw [in_state_done_eq]
  cases r.state_q == .Done <;> decide

/-- The reading side of a cycle. -/
theorem Reads.next {a : ℕ} {d : Bool} (h : s.Reads rom a d) (ha : a < RomDepth)
    (hpos : 0 < TopCount) (hnontop : TopCount + 2 ≤ RomDepth)
    (hstate : s.u_checker_fsm.state_q ≠ .Done) :
    (s.next rom i).Reads rom
      (if s.u_checker_fsm.counter_data_rdy i.kmac ∧ a + 1 < RomDepth then a + 1 else a)
      (decide (a + 1 = RomDepth)) where
  counter := h.counter.clock _ ha hpos hnontop
  rdata := by
    have hsel : mubi4_test_true_strict s.u_checker_fsm.rom_select_bus_o = false := by
      rw [FsmRegs.rom_select_bus_o, test_true_strict_in_state_done]
      simpa using hstate
    simp only [RomCheck.next, rom_req, rom_rom_index, hsel, FsmRegs.rom_req_o, h.counter.req_q,
      FsmRegs.rom_addr_o, Bool.false_eq_true, if_false, if_true]
    rw [h.counter.toNat_read_addr_o _ ha]

theorem Waits.next (h : s.Waits) (hchecking : s.u_checker_fsm.state_d i.kmac ≠ .Checking) :
    (s.next rom i).Waits where
  start_checker_q := by
    simp only [RomCheck.next, FsmRegs.clock, Bool.and_eq_false_iff, beq_eq_false_iff_ne]
    exact .inr hchecking
  u_compare := by
    simp only [RomCheck.next, FsmRegs.clock, h.start_checker_q, h.u_compare,
      CompareRegs.clock_reset]

/-- No alert comes from a state that is neither `Done` nor `Invalid`. -/
theorem alert_o_eq_false (hcompare :
      s.u_checker_fsm.u_compare.alert_o s.u_checker_fsm.start_checker_q = false)
    (hinvalid : s.u_checker_fsm.state_q ≠ .Invalid)
    (hdone : s.u_checker_fsm.state_q = .Done → s.u_checker_fsm.u_counter.done_q = true) :
    s.u_checker_fsm.alert_o = false := by
  have hcounter : s.u_checker_fsm.unexpected_counter_change = false := by
    rw [FsmRegs.unexpected_counter_change, test_true_loose_in_state_done]
    by_cases h : s.u_checker_fsm.state_q = .Done
    · rw [hdone h, Bool.not_true, Bool.and_false]
    · rw [beq_eq_false_iff_ne.mpr h, Bool.false_and]
  rw [FsmRegs.alert_o, hcompare, hcounter, FsmRegs.fsm_alert, beq_eq_false_iff_ne.mpr hinvalid]
  rfl

theorem Waits.alert_o (h : s.Waits) (hinvalid : s.u_checker_fsm.state_q ≠ .Invalid)
    (hdone : s.u_checker_fsm.state_q ≠ .Done) : s.u_checker_fsm.alert_o = false := by
  refine alert_o_eq_false ?_ hinvalid fun heq => absurd heq hdone
  rw [h.start_checker_q, h.u_compare, CompareRegs.alert_reset TopCount]

/-- There is no alert as long as the checker has not become invalid. -/
theorem Abs.alert_o_eq_false {p : CheckProgress} (h : s.Abs rom p) (hpos : 0 < TopCount)
    (hp : p ≠ .invalid) : s.u_checker_fsm.alert_o = false := by
  cases p with
  | idle =>
    have hwaits : s.Waits := ⟨by rw [h.1]; rfl, by rw [h.1]; rfl⟩
    exact hwaits.alert_o (by rw [h.1]; nofun) (by rw [h.1]; nofun)
  | requested =>
    have hwaits : s.Waits := ⟨by rw [h.1]; rfl, by rw [h.1]; rfl⟩
    exact hwaits.alert_o (by rw [h.1]; nofun) (by rw [h.1]; nofun)
  | low a =>
    obtain ⟨hstate, -, -, hwaits, -⟩ := h
    exact hwaits.alert_o (by rw [hstate]; nofun) (by rw [hstate]; nofun)
  | high m =>
    obtain ⟨hstate, -, -, hwaits, -⟩ := h
    exact hwaits.alert_o (by rw [hstate]; nofun) (by rw [hstate]; nofun)
  | kmacAhead m =>
    obtain ⟨hstate, -, -, hwaits, -⟩ := h
    exact hwaits.alert_o (by rw [hstate]; nofun) (by rw [hstate]; nofun)
  | romAhead =>
    obtain ⟨hstate, -, hwaits, -⟩ := h
    exact hwaits.alert_o (by rw [hstate]; nofun) (by rw [hstate]; nofun)
  | checking j =>
    obtain ⟨hstate, -, -, -, -, hstart, hcompare⟩ := h
    refine RomCheck.alert_o_eq_false ?_ (by rw [hstate]; nofun) (by rw [hstate]; nofun)
    cases j with
    | zero =>
      rw [if_pos rfl] at hcompare
      have halert := CompareRegs.alert_reset TopCount
      rw [hstart, hcompare, ← halert]
      simp [CompareRegs.alert_o, CompareRegs.reset]
    | succ j =>
      rw [if_neg (by omega)] at hcompare
      rw [hstart, decide_eq_false (by omega), hcompare.alert_o hpos]
  | done =>
    obtain ⟨hstate, hcounter, -, -, hstart, hcompare⟩ := h
    refine RomCheck.alert_o_eq_false ?_ (by rw [hstate]; nofun) fun _ => hcounter.done_q
    rw [hstart, hcompare.alert_o hpos]
  | invalid => exact absurd rfl hp

theorem Answered.next (h : s.Answered) (hdone : i.kmac.kmac_done_i = false) :
    (s.next rom i).Answered := by
  simpa [Answered, RomCheck.next, hdone] using h

/-- The progress over a list of inputs. -/
def progress (p : CheckProgress) (events : List (RomCheckIn RomDepth TopCount)) : CheckProgress :=
  events.foldl (fun p i => p.next RomDepth TopCount
    i.kmac.kmac_rom_rdy_i i.kmac.kmac_done_i i.kmac.kmac_err_i) p

theorem progress_append (p : CheckProgress) (events late : List (RomCheckIn RomDepth TopCount)) :
    progress p (events ++ late) = progress (progress p events) late :=
  List.foldl_append

end RomCheck

end Run

end SecureBoot
