import SecureBoot.Base.Word
import SecureBoot.Lib.Clocked
import SecureBoot.Lib.Parity

/-! The transmitter and the receiver of the UART, `uart_tx` and `uart_rx`, on the baud clock of
`uart_core` and joined by its system loopback, and what a cycle does at each end to a frame that is
sent. -/

namespace SecureBoot

open Parity

/-- `{tick, baud_div} = {1'b0, baud_div_q} + 5'h1`. -/
def baudSum (baud_div_q : BitVec 4) : BitVec 5 := (0#1 ++ baud_div_q) + 1

/-! ### The transmitter -/

structure UartTxIn where
  tx_enable : Bool
  tick_baud_x16 : Bool
  parity_enable : Bool
  wr : Bool
  wr_parity : Bool
  wr_data : Byte

structure UartTx where
  baud_div_q : BitVec 4
  tick_baud_q : Bool
  bit_cnt_q : BitVec 4
  sreg_q : BitVec 11
  tx_q : Bool
  deriving DecidableEq

namespace UartTx

def reset : UartTx := ⟨0, false, 0, 0x7ff, true⟩

variable (r : UartTx) (i : UartTxIn)

def idle (tx_enable : Bool) : Bool := if tx_enable then r.bit_cnt_q == 0 else true

/-- What is loaded by a write. -/
def frame (parity_enable wr_parity : Bool) (wr_data : Byte) : BitVec 11 :=
  1#1 ++ BitVec.ofBool (if parity_enable then wr_parity else true) ++ wr_data ++ 0#1

def frameBits (parity_enable : Bool) : BitVec 4 := if parity_enable then 11 else 10

/-- `{bit_cnt_d, sreg_d, tx_d}`. -/
def comb : BitVec 4 × BitVec 11 × Bool :=
  if !i.tx_enable then (0, 0x7ff, true)
  else if i.wr then (frameBits i.parity_enable, frame i.parity_enable i.wr_parity i.wr_data, r.tx_q)
  else if r.tick_baud_q && r.bit_cnt_q != 0 then
    (r.bit_cnt_q - 1, 1#1 ++ r.sreg_q.extractLsb' 1 10, r.sreg_q.getLsbD 0)
  else (r.bit_cnt_q, r.sreg_q, r.tx_q)

def clock : UartTx where
  baud_div_q :=
    if i.tick_baud_x16 then (baudSum r.baud_div_q).extractLsb' 0 4 else r.baud_div_q
  tick_baud_q := i.tick_baud_x16 && (baudSum r.baud_div_q).getLsbD 4
  bit_cnt_q := (r.comb i).1
  sreg_q := (r.comb i).2.1
  tx_q := (r.comb i).2.2

end UartTx

/-! ### The receiver -/

structure UartRxIn where
  rx_enable : Bool
  tick_baud_x16 : Bool
  parity_enable : Bool
  rx : Bool

structure UartRx where
  rx_valid_q : Bool
  sreg_q : BitVec 11
  bit_cnt_q : BitVec 4
  baud_div_q : BitVec 4
  tick_baud_q : Bool
  idle_q : Bool
  deriving DecidableEq

namespace UartRx

def reset : UartRx := ⟨false, 0, 0, 0, false, true⟩

variable (r : UartRx) (i : UartRxIn)

def clock : UartRx :=
  let rx_valid_q := r.tick_baud_q && r.bit_cnt_q == 1
  let sum := baudSum r.baud_div_q
  let baud_div_d := if i.tick_baud_x16 then sum.extractLsb' 0 4 else r.baud_div_q
  let tick_baud_d := i.tick_baud_x16 && sum.getLsbD 4
  let frameBits := UartTx.frameBits i.parity_enable
  if !i.rx_enable then ⟨rx_valid_q, 0, 0, 0, false, true⟩
  else if r.idle_q && !i.rx then
    -- The start of a frame: the first sample is due in half a bit time.
    ⟨rx_valid_q, 0, frameBits, 8, false, false⟩
  else if !r.idle_q && r.tick_baud_q then
    if r.bit_cnt_q == frameBits && i.rx then
      ⟨rx_valid_q, r.sreg_q, 0, baud_div_d, tick_baud_d, true⟩
    else
      ⟨rx_valid_q, BitVec.ofBool i.rx ++ r.sreg_q.extractLsb' 1 10, r.bit_cnt_q - 1, baud_div_d,
        tick_baud_d, r.bit_cnt_q == 1⟩
  else ⟨rx_valid_q, r.sreg_q, r.bit_cnt_q, baud_div_d, tick_baud_d, r.idle_q⟩

def rx_data (parity_enable : Bool) : Byte :=
  if parity_enable then r.sreg_q.extractLsb' 1 8 else r.sreg_q.extractLsb' 2 8

def frame_err : Bool := r.rx_valid_q && !r.sreg_q.getLsbD 10

def rx_parity_err (parity_enable parity_odd : Bool) : Bool :=
  parity_enable && r.rx_valid_q &&
    xorReduce (r.sreg_q.extractLsb' 1 9 ++ BitVec.ofBool parity_odd)

end UartRx

/-! ### The core in system loopback -/

/-- The fields of `ctrl` that count, with both directions enabled. -/
structure UartCtrl where
  nco : BitVec 16
  parity_en : Bool
  parity_odd : Bool
  deriving DecidableEq

/-- The outputs of the transmit FIFO. -/
structure UartIn where
  tx_fifo_rvalid : Bool
  tx_fifo_data : Byte

structure Uart where
  nco_sum_q : BitVec 17
  uart_tx : UartTx
  uart_rx : UartRx
  deriving DecidableEq

namespace Uart

def reset : Uart := ⟨0, .reset, .reset⟩

variable (ctrl : UartCtrl) (c : Uart) (i : UartIn)

def tick_baud_x16 : Bool := c.nco_sum_q.getLsbD 16

def tx_fifo_rready : Bool := c.uart_tx.idle true && i.tx_fifo_rvalid

def txIn : UartTxIn where
  tx_enable := true
  tick_baud_x16 := c.tick_baud_x16
  parity_enable := ctrl.parity_en
  wr := c.tx_fifo_rready i
  wr_parity := xorReduce i.tx_fifo_data ^^ ctrl.parity_odd
  wr_data := i.tx_fifo_data

def rxIn : UartRxIn where
  rx_enable := true
  tick_baud_x16 := c.tick_baud_x16
  parity_enable := ctrl.parity_en
  rx := c.uart_tx.tx_q

def frame_err : Bool := c.uart_rx.frame_err

def parity_err : Bool := c.uart_rx.rx_parity_err ctrl.parity_en ctrl.parity_odd

def rx_fifo_wvalid : Bool := c.uart_rx.rx_valid_q && !c.frame_err && !c.parity_err ctrl

def clock : Uart where
  nco_sum_q := (0#1 ++ c.nco_sum_q.extractLsb' 0 16) + (0#1 ++ ctrl.nco)
  uart_tx := c.uart_tx.clock (c.txIn ctrl i)
  uart_rx := c.uart_rx.clock (c.rxIn ctrl)

/-- What the transmitter takes in a cycle. -/
def written : List Byte := if c.tx_fifo_rready i then [i.tx_fifo_data] else []

/-- What the receiver delivers in a cycle. -/
def delivered : List Byte :=
  if c.rx_fifo_wvalid ctrl then [c.uart_rx.rx_data ctrl.parity_en] else []

end Uart

/-! ### The baud counters -/

theorem baudSum_tick (b : BitVec 4) : (baudSum b).getLsbD 4 = decide (b.toNat = 15) := by
  revert b
  decide

theorem baudSum_div (b : BitVec 4) :
    ((baudSum b).extractLsb' 0 4).toNat = (b.toNat + 1) % 16 := by
  revert b
  decide

theorem UartTx.clock_div (r : UartTx) (i : UartTxIn) :
    (r.clock i).baud_div_q.toNat = (r.baud_div_q.toNat + i.tick_baud_x16.toNat) % 16 := by
  rw [UartTx.clock]
  cases i.tick_baud_x16 with
  | false => exact (Nat.mod_eq_of_lt r.baud_div_q.isLt).symm
  | true => exact baudSum_div _

theorem UartTx.clock_tick (r : UartTx) (i : UartTxIn) :
    (r.clock i).tick_baud_q = (i.tick_baud_x16 && decide (r.baud_div_q.toNat = 15)) := by
  rw [UartTx.clock, baudSum_tick]

namespace Uart

variable {ctrl : UartCtrl} {c : Uart} {i : UartIn} {b b' : Byte} {k j d : ℕ}

/-! ### Frames -/

/-- The bits of a frame, from the start bit to the stop bit. -/
def bits (ctrl : UartCtrl) : ℕ := if ctrl.parity_en then 11 else 10

def frame (ctrl : UartCtrl) (b : Byte) (n : ℕ) : Bool :=
  (UartTx.frame ctrl.parity_en (xorReduce b ^^ ctrl.parity_odd) b).getLsbD n

theorem bits_pos : 0 < bits ctrl := by
  rw [bits]
  split_ifs <;> decide

theorem bits_le : bits ctrl ≤ 11 := by
  rw [bits]
  split_ifs <;> decide

theorem le_bits : 10 ≤ bits ctrl := by
  rw [bits]
  split_ifs <;> decide

theorem frameBits_eq : UartTx.frameBits ctrl.parity_en = BitVec.ofNat 4 (bits ctrl) := by
  rw [UartTx.frameBits, bits]
  split_ifs <;> rfl

theorem frame_start : frame ctrl b 0 = false := by
  rw [frame, UartTx.frame, BitVec.getLsbD_append]
  rfl

theorem frame_stop : frame ctrl b (bits ctrl - 1) = true := by
  rw [frame, UartTx.frame, bits]
  split_ifs
  · simp only [BitVec.getLsbD_append]
    rfl
  · simp only [BitVec.getLsbD_append]
    rfl

theorem frame_data {n : ℕ} (hn : n < 8) : frame ctrl b (n + 1) = b.getLsbD n := by
  rw [frame, UartTx.frame, BitVec.getLsbD_append, if_neg (by omega), Nat.add_sub_cancel,
    BitVec.getLsbD_append, if_pos hn]

theorem frame_parity (hparity : ctrl.parity_en = true) :
    frame ctrl b 9 = (xorReduce b ^^ ctrl.parity_odd) := by
  rw [frame, UartTx.frame, hparity]
  simp only [BitVec.getLsbD_append]
  cases xorReduce b ^^ ctrl.parity_odd <;> rfl

/-- Two counts of bits are told apart by the counters. -/
theorem ofNat_inj {m n : ℕ} (hm : m ≤ 11) (hn : n ≤ 11) :
    BitVec.ofNat 4 m = BitVec.ofNat 4 n ↔ m = n := by
  rw [← BitVec.toNat_inj, BitVec.toNat_ofNat, BitVec.toNat_ofNat]
  omega

/-- `k` bits of the frame are still to be sent. -/
structure Sends (ctrl : UartCtrl) (b : Byte) (k : ℕ) (r : UartTx) : Prop where
  bit_cnt : r.bit_cnt_q = BitVec.ofNat 4 k
  le : k ≤ bits ctrl
  sreg : ∀ n < k, r.sreg_q.getLsbD n = frame ctrl b (bits ctrl - k + n)

/-- `j` bits of the frame are still to be sampled. -/
structure Samples (ctrl : UartCtrl) (b : Byte) (j : ℕ) (r : UartRx) : Prop where
  bit_cnt : r.bit_cnt_q = BitVec.ofNat 4 j
  le : j ≤ bits ctrl
  sreg : ∀ n < bits ctrl - j, r.sreg_q.getLsbD (11 - (bits ctrl - j) + n) = frame ctrl b n

/-! ### The transmitter's steps -/

/-- The cycle of the counter at the tick of a bit. -/
def TickAtZero (c : Uart) : Prop := c.uart_tx.tick_baud_q = true → c.uart_tx.baud_div_q.toNat = 0

theorem tx_hold (hwr : c.tx_fifo_rready i = false)
    (hstay : c.uart_tx.tick_baud_q = false ∨ c.uart_tx.bit_cnt_q = 0) :
    (c.clock ctrl i).uart_tx.bit_cnt_q = c.uart_tx.bit_cnt_q ∧
      (c.clock ctrl i).uart_tx.sreg_q = c.uart_tx.sreg_q ∧
      (c.clock ctrl i).uart_tx.tx_q = c.uart_tx.tx_q := by
  have hcomb : c.uart_tx.comb (c.txIn ctrl i) =
      (c.uart_tx.bit_cnt_q, c.uart_tx.sreg_q, c.uart_tx.tx_q) := by
    obtain hstay | hstay := hstay <;> simp [UartTx.comb, txIn, hwr, hstay]
  refine ⟨?_, ?_, ?_⟩ <;> simp [clock, UartTx.clock, hcomb]

theorem tx_load (hwr : c.tx_fifo_rready i = true) :
    Sends ctrl i.tx_fifo_data (bits ctrl) (c.clock ctrl i).uart_tx ∧
      (c.clock ctrl i).uart_tx.tx_q = c.uart_tx.tx_q := by
  have hcomb : c.uart_tx.comb (c.txIn ctrl i) = (UartTx.frameBits ctrl.parity_en,
      UartTx.frame ctrl.parity_en (xorReduce i.tx_fifo_data ^^ ctrl.parity_odd) i.tx_fifo_data,
      c.uart_tx.tx_q) := by
    simp [UartTx.comb, txIn, hwr]
  refine ⟨⟨?_, Nat.le_refl _, fun n _ => ?_⟩, ?_⟩
  · rw [← frameBits_eq]
    simp [clock, UartTx.clock, hcomb]
  · rw [Nat.sub_self, Nat.zero_add, frame]
    simp [clock, UartTx.clock, hcomb]
  · simp [clock, UartTx.clock, hcomb]

theorem Sends.shift (h : Sends ctrl b k c.uart_tx) (hk : 0 < k)
    (htick : c.uart_tx.tick_baud_q = true) (hwr : c.tx_fifo_rready i = false) :
    Sends ctrl b (k - 1) (c.clock ctrl i).uart_tx ∧
      (c.clock ctrl i).uart_tx.tx_q = frame ctrl b (bits ctrl - k) := by
  have hle := h.le
  have hle' : bits ctrl ≤ 11 := bits_le
  have hne : c.uart_tx.bit_cnt_q ≠ 0#4 := by
    rw [h.bit_cnt]
    exact fun heq => Nat.ne_of_gt hk ((ofNat_inj (by omega) (Nat.zero_le _)).1 heq)
  have hcomb : c.uart_tx.comb (c.txIn ctrl i) = (c.uart_tx.bit_cnt_q - 1,
      1#1 ++ c.uart_tx.sreg_q.extractLsb' 1 10, c.uart_tx.sreg_q.getLsbD 0) := by
    simp [UartTx.comb, txIn, hwr, htick, hne]
  refine ⟨⟨?_, (Nat.sub_le k 1).trans hle, fun n hn => ?_⟩, ?_⟩
  · have hcnt : (c.clock ctrl i).uart_tx.bit_cnt_q = c.uart_tx.bit_cnt_q - 1 := by
      simp [clock, UartTx.clock, hcomb]
    rw [hcnt, h.bit_cnt]
    obtain ⟨m, rfl⟩ := Nat.exists_eq_add_of_le' hk
    rw [BitVec.ofNat_add]
    exact BitVec.add_sub_cancel _ _
  · have hsreg : (c.clock ctrl i).uart_tx.sreg_q = 1#1 ++ c.uart_tx.sreg_q.extractLsb' 1 10 := by
      simp [clock, UartTx.clock, hcomb]
    rw [hsreg, BitVec.getLsbD_append, if_pos (by omega), BitVec.getLsbD_extractLsb',
      decide_eq_true (by omega), Bool.true_and, h.sreg (1 + n) (by omega)]
    exact congrArg (frame ctrl b) (by omega)
  · have hline : (c.clock ctrl i).uart_tx.tx_q = c.uart_tx.sreg_q.getLsbD 0 := by
      simp [clock, UartTx.clock, hcomb]
    rw [hline, h.sreg 0 hk]
    rfl

end Uart

/-! ### The receiver's steps -/

namespace Uart

variable {ctrl : UartCtrl} {c : Uart} {i : UartIn} {b b' : Byte} {k j d : ℕ}

/-- The counter of the receiver and its tick behind the edge. -/
def rxBaud (c : Uart) : BitVec 4 × Bool :=
  (if c.tick_baud_x16 then (baudSum c.uart_rx.baud_div_q).extractLsb' 0 4
    else c.uart_rx.baud_div_q,
    c.tick_baud_x16 && (baudSum c.uart_rx.baud_div_q).getLsbD 4)

theorem rxBaud_div :
    c.rxBaud.1.toNat = (c.uart_rx.baud_div_q.toNat + c.tick_baud_x16.toNat) % 16 := by
  rw [rxBaud]
  cases c.tick_baud_x16 with
  | false => exact (Nat.mod_eq_of_lt c.uart_rx.baud_div_q.isLt).symm
  | true => exact baudSum_div _

theorem rxBaud_tick :
    c.rxBaud.2 = (c.tick_baud_x16 && decide (c.uart_rx.baud_div_q.toNat = 15)) := by
  rw [rxBaud, baudSum_tick]

/-- `rx_valid_q` behind the edge. -/
def rxValid (c : Uart) : Bool := c.uart_rx.tick_baud_q && c.uart_rx.bit_cnt_q == 1

theorem rx_start (hidle : c.uart_rx.idle_q = true) (hline : c.uart_tx.tx_q = false) :
    (c.clock ctrl i).uart_rx =
      ⟨c.rxValid, 0, BitVec.ofNat 4 (bits ctrl), 8, false, false⟩ := by
  rw [← frameBits_eq]
  simp [clock, UartRx.clock, rxIn, hidle, hline, rxValid]

theorem rx_rest (hidle : c.uart_rx.idle_q = true) (hline : c.uart_tx.tx_q = true) :
    (c.clock ctrl i).uart_rx = ⟨c.rxValid, c.uart_rx.sreg_q, c.uart_rx.bit_cnt_q, c.rxBaud.1,
      c.rxBaud.2, true⟩ := by
  simp [clock, UartRx.clock, rxIn, hidle, hline, rxValid, rxBaud]

theorem rx_hold (hidle : c.uart_rx.idle_q = false) (htick : c.uart_rx.tick_baud_q = false) :
    (c.clock ctrl i).uart_rx = ⟨false, c.uart_rx.sreg_q, c.uart_rx.bit_cnt_q, c.rxBaud.1,
      c.rxBaud.2, false⟩ := by
  simp [clock, UartRx.clock, rxIn, hidle, htick, rxBaud]
  rfl

/-- A bit is sampled; a start bit that is low is no glitch. -/
theorem rx_sample (hidle : c.uart_rx.idle_q = false) (htick : c.uart_rx.tick_baud_q = true)
    (hline : c.uart_rx.bit_cnt_q = BitVec.ofNat 4 (bits ctrl) → c.uart_tx.tx_q = false) :
    (c.clock ctrl i).uart_rx = ⟨c.rxValid,
      BitVec.ofBool c.uart_tx.tx_q ++ c.uart_rx.sreg_q.extractLsb' 1 10, c.uart_rx.bit_cnt_q - 1,
      c.rxBaud.1, c.rxBaud.2, c.uart_rx.bit_cnt_q == 1⟩ := by
  rw [← frameBits_eq] at hline
  have hglitch : (c.uart_rx.bit_cnt_q == UartTx.frameBits ctrl.parity_en && c.uart_tx.tx_q) =
      false := by
    cases hcnt : c.uart_rx.bit_cnt_q == UartTx.frameBits ctrl.parity_en with
    | false => rfl
    | true => exact hline (eq_of_beq hcnt)
  simp [clock, UartRx.clock, rxIn, hidle, htick, rxValid, rxBaud, hglitch]
  rfl

theorem getLsbD_ofBool_zero (x : Bool) : (BitVec.ofBool x).getLsbD 0 = x := by
  cases x <;> rfl

theorem Samples.sample (h : Samples ctrl b j c.uart_rx) (hj : 0 < j)
    (hidle : c.uart_rx.idle_q = false) (htick : c.uart_rx.tick_baud_q = true)
    (hline : c.uart_tx.tx_q = frame ctrl b (bits ctrl - j)) :
    Samples ctrl b (j - 1) (c.clock ctrl i).uart_rx ∧
      (c.clock ctrl i).uart_rx.rx_valid_q = decide (j = 1) ∧
      (c.clock ctrl i).uart_rx.idle_q = decide (j = 1) ∧
      (c.clock ctrl i).uart_rx.baud_div_q = c.rxBaud.1 ∧
      (c.clock ctrl i).uart_rx.tick_baud_q = c.rxBaud.2 := by
  have hle := h.le
  have hle' : bits ctrl ≤ 11 := bits_le
  have hlast : (c.uart_rx.bit_cnt_q == 1) = decide (j = 1) := by
    rw [h.bit_cnt, Bool.eq_iff_iff, beq_iff_eq, decide_eq_true_iff]
    exact @ofNat_inj j 1 (by omega) (by omega)
  have hstart : c.uart_rx.bit_cnt_q = BitVec.ofNat 4 (bits ctrl) → c.uart_tx.tx_q = false := by
    intro hcnt
    rw [h.bit_cnt, ofNat_inj (by omega) hle'] at hcnt
    rw [hline, hcnt, Nat.sub_self]
    exact frame_start
  rw [rx_sample hidle htick hstart, rxValid, htick, Bool.true_and, hlast]
  refine ⟨⟨?_, (Nat.sub_le j 1).trans hle, fun n hn => ?_⟩, rfl, rfl, rfl, rfl⟩
  · rw [h.bit_cnt]
    obtain ⟨m, rfl⟩ := Nat.exists_eq_add_of_le' hj
    rw [BitVec.ofNat_add]
    exact BitVec.add_sub_cancel _ _
  · rw [BitVec.getLsbD_append]
    obtain hlt | rfl := Nat.lt_or_eq_of_le (show n ≤ bits ctrl - j by omega)
    · rw [if_pos (by omega), BitVec.getLsbD_extractLsb', decide_eq_true (by omega), Bool.true_and,
        ← h.sreg n hlt]
      exact congrArg c.uart_rx.sreg_q.getLsbD (by omega)
    · rw [if_neg (by omega), ← hline, show 11 - (bits ctrl - (j - 1)) + (bits ctrl - j) - 10 = 0 by
        omega]
      exact getLsbD_ofBool_zero _

/-! ### What is delivered -/

theorem parity_frame (data : Byte) (odd : Bool) :
    xorReduce (BitVec.ofBool (xorReduce data ^^ odd) ++ data ++ BitVec.ofBool odd) = false := by
  revert data odd
  decide +kernel

/-- A complete frame in the receiver. -/
theorem Samples.delivered (h : Samples ctrl b 0 c.uart_rx) :
    c.frame_err = false ∧ c.parity_err ctrl = false ∧
      c.delivered ctrl = if c.uart_rx.rx_valid_q then [b] else [] := by
  have hbit (n : ℕ) (hn : n < bits ctrl) :
      c.uart_rx.sreg_q.getLsbD (11 - bits ctrl + n) = frame ctrl b n := h.sreg n hn
  have hle : bits ctrl ≤ 11 := bits_le
  have hframe : c.frame_err = false := by
    have hstop := hbit (bits ctrl - 1) (Nat.sub_lt bits_pos Nat.one_pos)
    rw [show 11 - bits ctrl + (bits ctrl - 1) = 10 by have := @bits_pos ctrl; omega, frame_stop]
      at hstop
    rw [Uart.frame_err, UartRx.frame_err, hstop, Bool.not_true, Bool.and_false]
  have hdata : c.uart_rx.rx_data ctrl.parity_en = b := by
    apply BitVec.eq_of_getLsbD_eq
    intro n hn
    rw [← @frame_data ctrl b n hn, ← hbit (n + 1) (by have := @le_bits ctrl; omega), bits,
      UartRx.rx_data]
    split_ifs with hparity
    · rw [BitVec.getLsbD_extractLsb', decide_eq_true hn, Bool.true_and]
      exact congrArg c.uart_rx.sreg_q.getLsbD (by omega)
    · rw [BitVec.getLsbD_extractLsb', decide_eq_true hn, Bool.true_and]
      exact congrArg c.uart_rx.sreg_q.getLsbD (by omega)
  have hparity : c.parity_err ctrl = false := by
    rw [parity_err, UartRx.rx_parity_err]
    cases hen : ctrl.parity_en with
    | false => rfl
    | true =>
      have hbits : bits ctrl = 11 := if_pos hen
      rw [hbits] at hbit
      have hword : c.uart_rx.sreg_q.extractLsb' 1 9 =
          BitVec.ofBool (xorReduce b ^^ ctrl.parity_odd) ++ b := by
        apply BitVec.eq_of_getLsbD_eq
        intro n hn
        rw [BitVec.getLsbD_extractLsb', decide_eq_true hn, Bool.true_and, Nat.add_comm,
          BitVec.getLsbD_append]
        have hn' := hbit (n + 1) (by omega)
        rw [Nat.sub_self, Nat.zero_add] at hn'
        rw [hn']
        split_ifs with hlt
        · exact frame_data hlt
        · obtain rfl : n = 8 := by omega
          exact (frame_parity hen).trans (getLsbD_ofBool_zero _).symm
      rw [hword, parity_frame, Bool.and_false]
  refine ⟨hframe, hparity, ?_⟩
  rw [Uart.delivered, rx_fifo_wvalid, hframe, hparity, hdata]
  simp

end Uart

end SecureBoot
