import SecureBoot.Uart.Frame

/-! The UART in system loopback. Whatever the baud rate, what is written into the transmitter comes
out of the receiver once and in order, with no frame or parity error. -/

namespace SecureBoot

/-! ### The bytes under way -/

namespace Uart

variable {ctrl : UartCtrl} {c : Uart} {i : UartIn} {b b' : Byte} {k j d : ℕ} {q : List Byte}

/-- The offset `d` of the samples to the ticks of the transmitter, in ticks of the baud clock. -/
structure Offset (c : Uart) (d : ℕ) : Prop where
  ge : 8 ≤ d
  le : d ≤ 10
  div : c.uart_rx.baud_div_q.toNat = (c.uart_tx.baud_div_q.toNat + 16 - d) % 16

/-- The states of both ends, with the bytes that are written and not delivered. -/
inductive Phase (ctrl : UartCtrl) (c : Uart) : List Byte → Prop
  | rest (htx : c.uart_tx.bit_cnt_q = 0) (hline : c.uart_tx.tx_q = true)
      (hidle : c.uart_rx.idle_q = true) (hcnt : c.uart_rx.bit_cnt_q = 0) : Phase ctrl c []
  | loaded (b : Byte) (htx : Sends ctrl b (bits ctrl) c.uart_tx) (hline : c.uart_tx.tx_q = true)
      (hidle : c.uart_rx.idle_q = true) (hcnt : c.uart_rx.bit_cnt_q = 0) : Phase ctrl c [b]
  | started (b : Byte) (htx : Sends ctrl b (bits ctrl - 1) c.uart_tx)
      (hline : c.uart_tx.tx_q = false) (htick : c.uart_tx.tick_baud_q = false)
      (hdiv : c.uart_tx.baud_div_q.toNat ≤ 1) (hidle : c.uart_rx.idle_q = true)
      (hcnt : c.uart_rx.bit_cnt_q = 0) : Phase ctrl c [b]
  | receiving (b : Byte) (k j d : ℕ) (htx : Sends ctrl b k c.uart_tx) (hk : k < bits ctrl)
      (hline : c.uart_tx.tx_q = frame ctrl b (bits ctrl - k - 1))
      (hidle : c.uart_rx.idle_q = false) (hrx : Samples ctrl b j c.uart_rx) (hj : 0 < j)
      (hoff : Offset c d)
      (hrxtick : c.uart_rx.tick_baud_q = true → c.uart_tx.baud_div_q.toNat = d)
      (hsync : bits ctrl - k + c.uart_tx.tick_baud_q.toNat =
        bits ctrl - j + c.uart_rx.tick_baud_q.toNat +
          if c.uart_tx.baud_div_q.toNat < d then 1 else 0) : Phase ctrl c [b]
  | queued (b b' : Byte) (d : ℕ) (htx : Sends ctrl b' (bits ctrl) c.uart_tx)
      (hline : c.uart_tx.tx_q = true) (hidle : c.uart_rx.idle_q = false)
      (hrx : Samples ctrl b 1 c.uart_rx) (hoff : Offset c d)
      (htick : c.uart_tx.tick_baud_q = false)
      (hdue : c.uart_tx.baud_div_q.toNat + (!c.uart_rx.tick_baud_q).toNat ≤ d) :
      Phase ctrl c [b, b']

structure Inv (ctrl : UartCtrl) (c : Uart) (q : List Byte) : Prop where
  tick : TickAtZero c
  phase : Phase ctrl c q
  frame_err : c.frame_err = false
  parity_err : c.parity_err ctrl = false

theorem inv_reset : Inv ctrl reset [] where
  tick h := absurd h Bool.false_ne_true
  phase := .rest rfl rfl rfl rfl
  frame_err := rfl
  parity_err := by
    rw [Uart.parity_err, UartRx.rx_parity_err]
    exact (congrArg (· && _) (Bool.and_false _)).trans (Bool.false_and _)

theorem tx_div : (c.clock ctrl i).uart_tx.baud_div_q.toNat =
    (c.uart_tx.baud_div_q.toNat + c.tick_baud_x16.toNat) % 16 :=
  UartTx.clock_div _ _

theorem tx_tick : (c.clock ctrl i).uart_tx.tick_baud_q =
    (c.tick_baud_x16 && decide (c.uart_tx.baud_div_q.toNat = 15)) :=
  UartTx.clock_tick _ _

theorem tickAtZero_clock : TickAtZero (c.clock ctrl i) := by
  intro h
  rw [tx_tick, Bool.and_eq_true, decide_eq_true_iff] at h
  rw [tx_div, h.1, h.2]
  rfl

/-- Without a valid byte there is no error. -/
theorem silent (h : c.uart_rx.rx_valid_q = false) :
    c.frame_err = false ∧ c.parity_err ctrl = false ∧ c.delivered ctrl = [] := by
  have hframe : c.frame_err = false := by rw [Uart.frame_err, UartRx.frame_err, h, Bool.false_and]
  have hparity : c.parity_err ctrl = false := by
    rw [Uart.parity_err, UartRx.rx_parity_err, h, Bool.and_false, Bool.false_and]
  refine ⟨hframe, hparity, ?_⟩
  rw [Uart.delivered, rx_fifo_wvalid, h]
  rfl

/-- A cycle behind which no byte is delivered. -/
theorem next_silent (hvalid : (c.clock ctrl i).uart_rx.rx_valid_q = false) {q' : List Byte}
    (hphase : Phase ctrl (c.clock ctrl i) q') (hq : q ++ c.written i = q') :
    ∃ q', Inv ctrl (c.clock ctrl i) q' ∧
      q ++ c.written i = (c.clock ctrl i).delivered ctrl ++ q' := by
  obtain ⟨hframe, hparity, hnone⟩ := @silent ctrl _ hvalid
  exact ⟨q', ⟨tickAtZero_clock, hphase, hframe, hparity⟩, by rw [hnone, hq]; rfl⟩

theorem Sends.congr {r r' : UartTx} (h : Sends ctrl b k r) (hcnt : r'.bit_cnt_q = r.bit_cnt_q)
    (hsreg : r'.sreg_q = r.sreg_q) : Sends ctrl b k r' :=
  ⟨hcnt.trans h.bit_cnt, h.le, fun n hn => hsreg ▸ h.sreg n hn⟩

theorem Samples.congr {r r' : UartRx} (h : Samples ctrl b j r) (hcnt : r'.bit_cnt_q = r.bit_cnt_q)
    (hsreg : r'.sreg_q = r.sreg_q) : Samples ctrl b j r' :=
  ⟨hcnt.trans h.bit_cnt, h.le, fun n hn => hsreg ▸ h.sreg n hn⟩

/-- A transmitter with bits to send takes no byte. -/
theorem Sends.busy (h : Sends ctrl b k c.uart_tx) (hk : 0 < k) : c.tx_fifo_rready i = false := by
  have hle := h.le
  have hle' : bits ctrl ≤ 11 := bits_le
  have hne : c.uart_tx.bit_cnt_q ≠ 0#4 := by
    rw [h.bit_cnt]
    exact fun heq => Nat.ne_of_gt hk ((ofNat_inj (by omega) (Nat.zero_le _)).1 heq)
  simp [tx_fifo_rready, UartTx.idle, hne]

theorem written_nil (h : c.tx_fifo_rready i = false) : c.written i = [] := by
  rw [written, h]
  rfl

theorem written_one (h : c.tx_fifo_rready i = true) : c.written i = [i.tx_fifo_data] := by
  rw [written, h]
  rfl

/-! ### One cycle -/

/-- Both counters go on with the baud clock. -/
theorem Offset.clock (h : Offset c d)
    (hdiv : (c.clock ctrl i).uart_rx.baud_div_q = c.rxBaud.1) : Offset (c.clock ctrl i) d := by
  refine ⟨h.ge, h.le, ?_⟩
  have hge := h.ge
  have hle := h.le
  rw [hdiv, rxBaud_div, tx_div, h.div]
  omega

/-- The receiver's tick comes when the transmitter's counter reaches the offset. -/
theorem Offset.tick (h : Offset c d) (htick : c.rxBaud.2 = true) :
    (c.clock ctrl i).uart_tx.baud_div_q.toNat = d ∧ c.uart_tx.baud_div_q.toNat + 1 = d := by
  have hge := h.ge
  have hle := h.le
  have hlt := c.uart_tx.baud_div_q.isLt
  rw [rxBaud_tick, h.div, Bool.and_eq_true, decide_eq_true_iff] at htick
  rw [tx_div, htick.1, Bool.toNat_true]
  omega

theorem rest_clock (htx : c.uart_tx.bit_cnt_q = 0) (hline : c.uart_tx.tx_q = true)
    (hidle : (c.clock ctrl i).uart_rx.idle_q = true)
    (hcnt : (c.clock ctrl i).uart_rx.bit_cnt_q = 0) :
    Phase ctrl (c.clock ctrl i) (c.written i) := by
  cases hwr : c.tx_fifo_rready i with
  | true =>
    obtain ⟨hload, hline'⟩ := @tx_load ctrl c i hwr
    rw [written_one hwr]
    exact .loaded _ hload (hline'.trans hline) hidle hcnt
  | false =>
    obtain ⟨hcnt', -, hline'⟩ := @tx_hold ctrl c i hwr (.inr htx)
    rw [written_nil hwr]
    exact .rest (hcnt'.trans htx) (hline'.trans hline) hidle hcnt

theorem loaded_clock (hzero : TickAtZero c) (htx : Sends ctrl b (bits ctrl) c.uart_tx)
    (hline : c.uart_tx.tx_q = true) (hidle : (c.clock ctrl i).uart_rx.idle_q = true)
    (hcnt : (c.clock ctrl i).uart_rx.bit_cnt_q = 0) : Phase ctrl (c.clock ctrl i) [b] := by
  have hbusy := htx.busy (i := i) bits_pos
  cases htick : c.uart_tx.tick_baud_q with
  | true =>
    obtain ⟨hsends, hline'⟩ := htx.shift bits_pos htick hbusy
    rw [Nat.sub_self, frame_start] at hline'
    have hu := hzero htick
    have ht := Bool.toNat_le c.tick_baud_x16
    refine .started b hsends hline' ?_ ?_ hidle hcnt
    · rw [tx_tick, hu]
      exact Bool.and_false _
    · rw [tx_div, hu]
      omega
  | false =>
    obtain ⟨hcnt', hsreg', hline'⟩ := @tx_hold ctrl c i hbusy (.inl htick)
    exact .loaded b (htx.congr hcnt' hsreg') (hline'.trans hline) hidle hcnt

theorem rxValid_of_cnt (hcnt : c.uart_rx.bit_cnt_q = 0) : c.rxValid = false := by
  rw [rxValid, hcnt]
  exact Bool.and_false _

/-- The receiver sees the start bit, at most two ticks late. -/
theorem started_clock (htx : Sends ctrl b (bits ctrl - 1) c.uart_tx)
    (hline : c.uart_tx.tx_q = false) (htick : c.uart_tx.tick_baud_q = false)
    (hdiv : c.uart_tx.baud_div_q.toNat ≤ 1) (hidle : c.uart_rx.idle_q = true) :
    Phase ctrl (c.clock ctrl i) [b] := by
  have hpos := @le_bits ctrl
  have ht := Bool.toNat_le c.tick_baud_x16
  have hbusy := htx.busy (i := i) (by omega)
  obtain ⟨hcnt', hsreg', hline'⟩ := @tx_hold ctrl c i hbusy (.inl htick)
  have hrx := @rx_start ctrl c i hidle hline
  have hdiv' := @tx_div ctrl c i
  have htick' : (c.clock ctrl i).uart_tx.tick_baud_q = false := by
    rw [tx_tick, decide_eq_false (by omega), Bool.and_false]
  refine .receiving b (bits ctrl - 1) (bits ctrl) ((c.clock ctrl i).uart_tx.baud_div_q.toNat + 8)
    (htx.congr hcnt' hsreg') (by omega) ?_ (congrArg UartRx.idle_q hrx) ⟨?_, Nat.le_refl _, ?_⟩
    (by omega) ⟨by omega, by omega, ?_⟩ ?_ ?_
  · rw [hline', hline, show bits ctrl - (bits ctrl - 1) - 1 = 0 by omega, frame_start]
  · exact congrArg UartRx.bit_cnt_q hrx
  · intro n hn
    omega
  · have hrxdiv : (c.clock ctrl i).uart_rx.baud_div_q.toNat = 8 :=
      congrArg (fun r : UartRx => r.baud_div_q.toNat) hrx
    omega
  · intro h
    exact absurd ((congrArg UartRx.tick_baud_q hrx).symm.trans h) Bool.false_ne_true
  · rw [htick', congrArg UartRx.tick_baud_q hrx, if_pos (by omega), Bool.toNat_false]
    omega

theorem toNat_decide (p : Prop) [Decidable p] : (decide p).toNat = if p then 1 else 0 := by
  split_ifs with hp <;> simp [hp]

/-- The ticks of the two ends keep what the counter `u` of the transmitter tells of them. -/
theorem sync_tick {u sent sampled : ℕ} (t : Bool) (hu : u < 16) (hge : 8 ≤ d) (hle : d ≤ 10)
    (h : sent = sampled + if u < d then 1 else 0) :
    sent + (t && decide (u = 15)).toNat =
      sampled + (t && decide ((u + 16 - d) % 16 = 15)).toNat +
        if (u + t.toNat) % 16 < d then 1 else 0 := by
  cases t with
  | false => simp [Nat.mod_eq_of_lt hu, h]
  | true =>
    rw [Bool.true_and, Bool.true_and, toNat_decide, toNat_decide, Bool.toNat_true, h]
    split_ifs <;> omega

/-- Up to the tick of the receiver the transmitter's counter is below the offset. -/
theorem due_tick {u' : ℕ} {tick : Bool} (hoff : Offset c d)
    (hlt : c.uart_tx.baud_div_q.toNat + 1 ≤ d)
    (hdiv : u' = (c.uart_tx.baud_div_q.toNat + c.tick_baud_x16.toNat) % 16)
    (htick : tick = (c.tick_baud_x16 &&
      decide ((c.uart_tx.baud_div_q.toNat + 16 - d) % 16 = 15))) :
    u' + (!tick).toNat ≤ d := by
  have hge := hoff.ge
  have hle := hoff.le
  rw [hdiv, htick]
  cases c.tick_baud_x16 with
  | false =>
    simp only [Bool.false_and, Bool.not_false, Bool.toNat_true, Bool.toNat_false]
    omega
  | true =>
    rw [Bool.true_and, ← decide_not, toNat_decide, Bool.toNat_true]
    split_ifs <;> omega

/-- Between two samples of the receiver. -/
theorem receiving_hold (hzero : TickAtZero c) (htx : Sends ctrl b k c.uart_tx)
    (hk : k < bits ctrl) (hline : c.uart_tx.tx_q = frame ctrl b (bits ctrl - k - 1))
    (hidle : c.uart_rx.idle_q = false) (hrx : Samples ctrl b j c.uart_rx) (hj : 0 < j)
    (hoff : Offset c d) (hrxtick : c.uart_rx.tick_baud_q = false)
    (hsync : bits ctrl - k + c.uart_tx.tick_baud_q.toNat =
      bits ctrl - j + if c.uart_tx.baud_div_q.toNat < d then 1 else 0) :
    Phase ctrl (c.clock ctrl i) ([b] ++ c.written i) := by
  have hge := hoff.ge
  have hle := hoff.le
  have hlej := hrx.le
  have hrx' := @rx_hold ctrl c i hidle hrxtick
  have hsamples : Samples ctrl b j (c.clock ctrl i).uart_rx := by
    rw [hrx']
    exact hrx.congr rfl rfl
  have hidle' : (c.clock ctrl i).uart_rx.idle_q = false := congrArg UartRx.idle_q hrx'
  have hoff' : Offset (c.clock ctrl i) d := hoff.clock (congrArg UartRx.baud_div_q hrx')
  have hbaud : (c.clock ctrl i).uart_rx.tick_baud_q = c.rxBaud.2 :=
    congrArg UartRx.tick_baud_q hrx'
  have hdiv' := @tx_div ctrl c i
  have htick' := @tx_tick ctrl c i
  have hdue : (c.clock ctrl i).uart_rx.tick_baud_q = true →
      (c.clock ctrl i).uart_tx.baud_div_q.toNat = d ∧ c.uart_tx.baud_div_q.toNat + 1 = d :=
    fun h => hoff.tick (hbaud.symm.trans h)
  have hrxbaud := @rxBaud_tick c
  rw [hoff.div, ← hbaud] at hrxbaud
  cases htick : c.uart_tx.tick_baud_q with
  | true =>
    have hu := hzero htick
    rw [htick, hu, if_pos (by omega), Bool.toNat_true] at hsync
    obtain rfl : k = j := by omega
    have hbusy := htx.busy (i := i) hj
    obtain ⟨hsends, hline'⟩ := htx.shift hj htick hbusy
    have ht := Bool.toNat_le c.tick_baud_x16
    have hrxtick' : (c.clock ctrl i).uart_rx.tick_baud_q = false := by
      by_contra h
      have := hdue (Bool.not_eq_false _ ▸ h)
      omega
    have htxtick' : (c.clock ctrl i).uart_tx.tick_baud_q = false := by
      rw [htick', hu]
      exact Bool.and_false _
    rw [written_nil hbusy, List.append_nil]
    refine .receiving b (k - 1) k d hsends (by omega) ?_ hidle' hsamples hj hoff' ?_ ?_
    · rw [hline']
      exact congrArg (frame ctrl b) (by omega)
    · exact fun h => (hdue h).1
    · rw [hrxtick', htxtick', if_pos (by omega), Bool.toNat_false]
      omega
  | false =>
    rw [htick, Bool.toNat_false, Nat.add_zero] at hsync
    cases hwr : c.tx_fifo_rready i with
    | true =>
      have hk0 : k = 0 := by
        by_contra hne
        exact absurd (hwr.symm.trans (htx.busy (Nat.pos_of_ne_zero hne))) Bool.noConfusion
      subst hk0
      have hlt : c.uart_tx.baud_div_q.toNat < d := by
        by_contra hlt
        rw [if_neg hlt] at hsync
        omega
      rw [if_pos hlt] at hsync
      obtain rfl : j = 1 := by omega
      obtain ⟨hload, hline'⟩ := @tx_load ctrl c i hwr
      rw [written_one hwr]
      refine .queued b _ d hload ?_ hidle' hsamples hoff' ?_ ?_
      · rw [hline', hline]
        exact frame_stop
      · rw [htick', decide_eq_false (by omega), Bool.and_false]
      · exact due_tick hoff hlt hdiv' hrxbaud
    | false =>
      obtain ⟨hcnt', hsreg', hline'⟩ := @tx_hold ctrl c i hwr (.inl htick)
      rw [written_nil hwr, List.append_nil]
      refine .receiving b k j d (htx.congr hcnt' hsreg') hk (hline'.trans hline) hidle' hsamples hj
        hoff' (fun h => (hdue h).1) ?_
      rw [htick', hrxbaud, hdiv']
      exact sync_tick _ c.uart_tx.baud_div_q.isLt hge hle hsync

/-- The last bit of a frame is sampled. -/
theorem next_delivered (hrx : Samples ctrl b 0 (c.clock ctrl i).uart_rx)
    (hvalid : (c.clock ctrl i).uart_rx.rx_valid_q = true) {q q' : List Byte}
    (hphase : Phase ctrl (c.clock ctrl i) q') (hq : q ++ c.written i = b :: q') :
    ∃ q', Inv ctrl (c.clock ctrl i) q' ∧
      q ++ c.written i = (c.clock ctrl i).delivered ctrl ++ q' := by
  obtain ⟨hframe, hparity, hone⟩ := hrx.delivered
  rw [hvalid, if_pos rfl] at hone
  exact ⟨q', ⟨tickAtZero_clock, hphase, hframe, hparity⟩, by rw [hone, hq]; rfl⟩

theorem receiving_sample (hzero : TickAtZero c) (htx : Sends ctrl b k c.uart_tx)
    (hk : k < bits ctrl) (hline : c.uart_tx.tx_q = frame ctrl b (bits ctrl - k - 1))
    (hidle : c.uart_rx.idle_q = false) (hrx : Samples ctrl b j c.uart_rx) (hj : 0 < j)
    (hoff : Offset c d) (hrxtick : c.uart_rx.tick_baud_q = true)
    (hu : c.uart_tx.baud_div_q.toNat = d)
    (hsync : bits ctrl - k + c.uart_tx.tick_baud_q.toNat = bits ctrl - j + 1) :
    ∃ q', Inv ctrl (c.clock ctrl i) q' ∧
      [b] ++ c.written i = (c.clock ctrl i).delivered ctrl ++ q' := by
  have hge := hoff.ge
  have hle := hoff.le
  have hlej := hrx.le
  have htick : c.uart_tx.tick_baud_q = false := by
    by_contra htick
    have := hzero (Bool.not_eq_false _ ▸ htick)
    omega
  rw [htick, Bool.toNat_false, Nat.add_zero] at hsync
  obtain rfl : j = k + 1 := by omega
  rw [show bits ctrl - k - 1 = bits ctrl - (k + 1) by omega] at hline
  obtain ⟨hsamples, hvalid, hidle', hdiv, hrxtick'⟩ :=
    hrx.sample (i := i) hj hidle hrxtick hline
  obtain rfl | hkpos := Nat.eq_zero_or_pos k
  · have hcnt : c.uart_tx.bit_cnt_q = 0 := htx.bit_cnt
    rw [Nat.zero_add] at hline
    exact next_delivered hsamples hvalid
      (rest_clock hcnt (hline.trans frame_stop) hidle' hsamples.bit_cnt) rfl
  · have hbusy := htx.busy (i := i) hkpos
    obtain ⟨hcnt', hsreg', hline'⟩ := @tx_hold ctrl c i hbusy (.inl htick)
    have ht := Bool.toNat_le c.tick_baud_x16
    have hdiv' := @tx_div ctrl c i
    have hnotick : (c.clock ctrl i).uart_rx.tick_baud_q = false := by
      rw [hrxtick', rxBaud_tick, hoff.div, hu, decide_eq_false (by omega), Bool.and_false]
    have hnotick' : (c.clock ctrl i).uart_tx.tick_baud_q = false := by
      rw [tx_tick, hu, decide_eq_false (by omega), Bool.and_false]
    rw [decide_eq_false (by omega)] at hvalid hidle'
    refine next_silent hvalid (.receiving b k k d (htx.congr hcnt' hsreg') hk ?_ hidle' hsamples
      hkpos (hoff.clock hdiv) ?_ ?_) ?_
    · rw [hline', hline]
      rfl
    · intro h
      exact absurd (hnotick.symm.trans h) Bool.false_ne_true
    · rw [hnotick, hnotick', if_neg (by omega)]
      rfl
    · rw [written_nil hbusy]
      rfl

theorem queued_clock (htx : Sends ctrl b' (bits ctrl) c.uart_tx)
    (hline : c.uart_tx.tx_q = true) (hidle : c.uart_rx.idle_q = false)
    (hrx : Samples ctrl b 1 c.uart_rx) (hoff : Offset c d)
    (htick : c.uart_tx.tick_baud_q = false)
    (hdue : c.uart_tx.baud_div_q.toNat + (!c.uart_rx.tick_baud_q).toNat ≤ d) :
    ∃ q', Inv ctrl (c.clock ctrl i) q' ∧
      [b, b'] ++ c.written i = (c.clock ctrl i).delivered ctrl ++ q' := by
  have hge := hoff.ge
  have hle := hoff.le
  have hbusy := htx.busy (i := i) bits_pos
  obtain ⟨hcnt', hsreg', hline'⟩ := @tx_hold ctrl c i hbusy (.inl htick)
  have hsends := htx.congr hcnt' hsreg'
  cases hr : c.uart_rx.tick_baud_q with
  | true =>
    obtain ⟨hsamples, hvalid, hidle', -, -⟩ :=
      hrx.sample (i := i) Nat.one_pos hidle hr (hline.trans frame_stop.symm)
    refine next_delivered hsamples hvalid
      (.loaded b' hsends (hline'.trans hline) hidle' hsamples.bit_cnt) ?_
    rw [written_nil hbusy]
    rfl
  | false =>
    rw [hr] at hdue
    have hrx' := @rx_hold ctrl c i hidle hr
    have hbaud : (c.clock ctrl i).uart_rx.tick_baud_q = c.rxBaud.2 :=
      congrArg UartRx.tick_baud_q hrx'
    have hdiv' := @tx_div ctrl c i
    have hrxbaud := @rxBaud_tick c
    rw [hoff.div, ← hbaud] at hrxbaud
    rw [Bool.not_false, Bool.toNat_true] at hdue
    refine next_silent (congrArg UartRx.rx_valid_q hrx') (.queued b b' d hsends
      (hline'.trans hline) (congrArg UartRx.idle_q hrx')
      (hrx' ▸ hrx.congr rfl rfl)
      (hoff.clock (congrArg UartRx.baud_div_q hrx')) ?_ ?_) ?_
    · rw [tx_tick, decide_eq_false (by omega), Bool.and_false]
    · exact due_tick hoff hdue hdiv' hrxbaud
    · rw [written_nil hbusy]
      rfl

theorem Inv.clock (h : Inv ctrl c q) : ∃ q', Inv ctrl (c.clock ctrl i) q' ∧
    q ++ c.written i = (c.clock ctrl i).delivered ctrl ++ q' := by
  have hzero := h.tick
  cases h.phase with
  | rest htx hline hidle hcnt =>
    have hrx := @rx_rest ctrl c i hidle hline
    refine next_silent ((congrArg UartRx.rx_valid_q hrx).trans (rxValid_of_cnt hcnt))
      (rest_clock htx hline (congrArg UartRx.idle_q hrx) ?_) rfl
    exact (congrArg UartRx.bit_cnt_q hrx).trans hcnt
  | loaded b htx hline hidle hcnt =>
    have hrx := @rx_rest ctrl c i hidle hline
    refine next_silent ((congrArg UartRx.rx_valid_q hrx).trans (rxValid_of_cnt hcnt))
      (loaded_clock hzero htx hline (congrArg UartRx.idle_q hrx) ?_) ?_
    · exact (congrArg UartRx.bit_cnt_q hrx).trans hcnt
    · rw [written_nil (htx.busy bits_pos)]
      rfl
  | started b htx hline htick hdiv hidle hcnt =>
    have hrx := @rx_start ctrl c i hidle hline
    refine next_silent ((congrArg UartRx.rx_valid_q hrx).trans (rxValid_of_cnt hcnt))
      (started_clock htx hline htick hdiv hidle) ?_
    have hpos := @le_bits ctrl
    rw [written_nil (htx.busy (by omega))]
    rfl
  | receiving b k j d htx hk hline hidle hrx hj hoff hrxtick hsync =>
    cases hr : c.uart_rx.tick_baud_q with
    | true =>
      have hu := hrxtick hr
      rw [hr, if_neg (by omega), Bool.toNat_true, Nat.add_zero] at hsync
      exact receiving_sample hzero htx hk hline hidle hrx hj hoff hr hu hsync
    | false =>
      rw [hr, Bool.toNat_false, Nat.add_zero] at hsync
      exact next_silent (congrArg UartRx.rx_valid_q (@rx_hold ctrl c i hidle hr))
        (receiving_hold hzero htx hk hline hidle hrx hj hoff hr hsync) rfl
  | queued b b' d htx hline hidle hrx hoff htick hdue =>
    exact queued_clock htx hline hidle hrx hoff htick hdue

/-! ### Runs -/

variable (ctrl) (inputs : ℕ → UartIn)

def after (n : ℕ) : Uart := Mealy.stateAt (clock ctrl) reset inputs n

/-- What is written in the first cycles, and what is delivered. -/
def allWritten (n : ℕ) : List Byte :=
  Mealy.collect (fun k => (after ctrl inputs k).written (inputs k)) 0 n

def allDelivered (n : ℕ) : List Byte :=
  Mealy.collect (fun k => (after ctrl inputs k).delivered ctrl) 0 n

theorem inv_after (n : ℕ) : ∃ q, Inv ctrl (after ctrl inputs n) q ∧
    allWritten ctrl inputs n = allDelivered ctrl inputs (n + 1) ++ q := by
  induction n with
  | zero =>
    refine ⟨[], inv_reset, ?_⟩
    rw [allDelivered, Mealy.collect_succ, (@silent ctrl (after ctrl inputs 0) rfl).2.2]
    rfl
  | succ n ih =>
    obtain ⟨q, hinv, hledger⟩ := ih
    obtain ⟨q', hinv', hstep⟩ := hinv.clock (i := inputs n)
    refine ⟨q', hinv', ?_⟩
    rw [allWritten, Mealy.collect_succ, Nat.zero_add, ← allWritten, hledger, List.append_assoc,
      hstep, ← List.append_assoc]
    refine congrArg (· ++ q') ?_
    rw [allDelivered, allDelivered, Mealy.collect_succ _ _ (n + 1), Nat.zero_add]
    rfl

end Uart

/-! ### Progress -/

namespace Uart

variable {ctrl : UartCtrl} {c : Uart} {i : UartIn} {b b' : Byte} {k j d n : ℕ} {q : List Byte}

/-- The ticks of the baud clock up to the end of the frame, and the cycles behind them. -/
def rank (c : Uart) : ℕ :=
  if c.uart_rx.idle_q then
    if c.uart_tx.tx_q then
      401 + if c.uart_tx.tick_baud_q then 0 else 1 + 2 * (16 - c.uart_tx.baud_div_q.toNat)
    else 400
  else
    2 * (16 * (c.uart_rx.bit_cnt_q.toNat - c.uart_rx.tick_baud_q.toNat) -
      c.uart_rx.baud_div_q.toNat) + c.uart_rx.tick_baud_q.toNat

/-- A cycle brings the frame closer to its end when the baud clock ticks. -/
def Closer (c c' : Uart) : Prop := c'.rank ≤ c.rank ∧ (c.tick_baud_x16 = true → c'.rank < c.rank)

theorem Samples.toNat (h : Samples ctrl b j c.uart_rx) : c.uart_rx.bit_cnt_q.toNat = j := by
  have hle := h.le
  have hle' : bits ctrl ≤ 11 := bits_le
  rw [h.bit_cnt, BitVec.toNat_ofNat]
  omega

theorem Samples.rank (h : Samples ctrl b j c.uart_rx) (hidle : c.uart_rx.idle_q = false) :
    c.rank = 2 * (16 * (j - c.uart_rx.tick_baud_q.toNat) - c.uart_rx.baud_div_q.toNat) +
      c.uart_rx.tick_baud_q.toNat := by
  rw [Uart.rank, hidle, h.toNat]
  rfl

theorem closer_hold (hrx : Samples ctrl b j c.uart_rx) (hj : 0 < j)
    (hidle : c.uart_rx.idle_q = false) (htick : c.uart_rx.tick_baud_q = false) :
    Closer c (c.clock ctrl i) := by
  have hrx' := @rx_hold ctrl c i hidle htick
  have hsamples : Samples ctrl b j (c.clock ctrl i).uart_rx := by
    rw [hrx']
    exact hrx.congr rfl rfl
  have hdiv : (c.clock ctrl i).uart_rx.baud_div_q = c.rxBaud.1 := congrArg UartRx.baud_div_q hrx'
  have htick' : (c.clock ctrl i).uart_rx.tick_baud_q = c.rxBaud.2 :=
    congrArg UartRx.tick_baud_q hrx'
  have hv := c.uart_rx.baud_div_q.isLt
  rw [Closer, hrx.rank hidle, hsamples.rank (congrArg UartRx.idle_q hrx'), hdiv, htick', htick,
    rxBaud_div, rxBaud_tick]
  cases c.tick_baud_x16 with
  | false =>
    rw [Bool.false_and, Bool.toNat_false]
    exact ⟨by omega, fun h => absurd h Bool.false_ne_true⟩
  | true =>
    rw [Bool.true_and, toNat_decide, Bool.toNat_true, Bool.toNat_false]
    split_ifs <;> omega

theorem closer_sample (hrx : Samples ctrl b j c.uart_rx) (hj : 1 < j)
    (hidle : c.uart_rx.idle_q = false) (htick : c.uart_rx.tick_baud_q = true)
    (hoff : Offset c d) (hu : c.uart_tx.baud_div_q.toNat = d)
    (hline : c.uart_tx.tx_q = frame ctrl b (bits ctrl - j)) : Closer c (c.clock ctrl i) := by
  obtain ⟨hsamples, -, hidle', hdiv, htick'⟩ :=
    hrx.sample (i := i) (by omega) hidle htick hline
  have hv : c.uart_rx.baud_div_q.toNat = 0 := by
    rw [hoff.div, hu]
    have := hoff.ge
    omega
  have hnotick : (c.clock ctrl i).uart_rx.tick_baud_q = false := by
    rw [htick', rxBaud_tick, hv]
    exact Bool.and_false _
  rw [decide_eq_false (by omega)] at hidle'
  have ht := Bool.toNat_le c.tick_baud_x16
  rw [Closer, hrx.rank hidle, hsamples.rank hidle', hdiv, hnotick, htick, rxBaud_div, hv,
    Bool.toNat_false, Bool.toNat_true]
  omega

theorem closer_loaded (htx : Sends ctrl b (bits ctrl) c.uart_tx)
    (hline : c.uart_tx.tx_q = true) (hidle : c.uart_rx.idle_q = true) :
    Closer c (c.clock ctrl i) := by
  have hidle' : (c.clock ctrl i).uart_rx.idle_q = true :=
    congrArg UartRx.idle_q (@rx_rest ctrl c i hidle hline)
  have hbusy := htx.busy (i := i) bits_pos
  have hu := c.uart_tx.baud_div_q.isLt
  rw [Closer, rank, rank, hidle, hidle', hline]
  cases htick : c.uart_tx.tick_baud_q with
  | true =>
    obtain ⟨-, hline'⟩ := htx.shift bits_pos htick hbusy
    rw [Nat.sub_self, frame_start] at hline'
    rw [hline']
    simp
  | false =>
    obtain ⟨-, -, hline'⟩ := @tx_hold ctrl c i hbusy (.inl htick)
    rw [hline', hline, tx_tick, tx_div]
    simp only [if_true, Bool.false_eq_true, if_false]
    cases c.tick_baud_x16 with
    | false =>
      simp only [Bool.false_and, Bool.false_eq_true, if_false, Bool.toNat_false]
      exact ⟨by omega, fun h => h.elim⟩
    | true =>
      simp only [Bool.true_and, decide_eq_true_eq, Bool.toNat_true]
      split_ifs <;> omega

theorem Inv.closer (h : Inv ctrl c q) (hq : q ≠ []) :
    (c.clock ctrl i).delivered ctrl ≠ [] ∨ Closer c (c.clock ctrl i) := by
  have hlast (b : Byte) (hsamples : Samples ctrl b 0 (c.clock ctrl i).uart_rx)
      (hvalid : (c.clock ctrl i).uart_rx.rx_valid_q = true) :
      (c.clock ctrl i).delivered ctrl ≠ [] := by
    obtain ⟨-, -, hone⟩ := hsamples.delivered
    rw [hone, hvalid]
    exact List.cons_ne_nil _ _
  cases h.phase with
  | rest => exact absurd rfl hq
  | loaded b htx hline hidle hcnt => exact .inr (closer_loaded htx hline hidle)
  | started b htx hline htick hdiv hidle hcnt =>
    have hrx := @rx_start ctrl c i hidle hline
    have hle' : bits ctrl ≤ 11 := bits_le
    right
    rw [Closer, rank, rank, hidle, hline, hrx]
    simp only [Bool.false_eq_true, if_false, if_true, Bool.toNat_false, BitVec.toNat_ofNat]
    omega
  | receiving b k j d htx hk hline hidle hrx hj hoff hrxtick hsync =>
    cases hr : c.uart_rx.tick_baud_q with
    | false => exact .inr (closer_hold hrx hj hidle hr)
    | true =>
      have hu := hrxtick hr
      have hlej := hrx.le
      have hge := hoff.ge
      have htick : c.uart_tx.tick_baud_q = false := by
        by_contra htick
        have := h.tick (Bool.not_eq_false _ ▸ htick)
        omega
      rw [hr, htick, if_neg (by omega), Bool.toNat_true, Bool.toNat_false, Nat.add_zero,
        Nat.add_zero] at hsync
      rw [show bits ctrl - k - 1 = bits ctrl - j by omega] at hline
      obtain rfl | hj' := Nat.eq_or_lt_of_le hj
      · obtain ⟨hsamples, hvalid, -⟩ := hrx.sample (i := i) hj hidle hr hline
        exact .inl (hlast b hsamples hvalid)
      · exact .inr (closer_sample hrx hj' hidle hr hoff hu hline)
  | queued b b' d htx hline hidle hrx hoff htick hdue =>
    cases hr : c.uart_rx.tick_baud_q with
    | false => exact .inr (closer_hold hrx Nat.one_pos hidle hr)
    | true =>
      obtain ⟨hsamples, hvalid, -⟩ :=
        hrx.sample (i := i) Nat.one_pos hidle hr (hline.trans frame_stop.symm)
      exact .inl (hlast b hsamples hvalid)

/-- The baud clock ticks again and again: its sum goes up until it overflows. -/
def wait (c : Uart) : ℕ := c.rank * 2 ^ 17 + (2 ^ 17 - 1 - c.nco_sum_q.toNat)

theorem nco_sum_clock (htick : c.tick_baud_x16 = false) :
    (c.clock ctrl i).nco_sum_q.toNat = c.nco_sum_q.toNat + ctrl.nco.toNat := by
  have hlow : c.nco_sum_q.toNat < 2 ^ 16 := by
    by_contra hlow
    have hbit : c.nco_sum_q.toNat / 2 ^ 16 = 1 := by
      have := c.nco_sum_q.isLt
      omega
    rw [tick_baud_x16, BitVec.getLsbD, Nat.testBit_eq_decide_div_mod_eq, hbit] at htick
    exact absurd htick (by decide)
  have hnco := ctrl.nco.isLt
  change ((0#1 ++ c.nco_sum_q.extractLsb' 0 16) + (0#1 ++ ctrl.nco)).toNat = _
  rw [BitVec.toNat_add, BitVec.toNat_append, BitVec.toNat_append, BitVec.extractLsb'_toNat]
  simp
  omega

theorem wait_lt (hnco : ctrl.nco ≠ 0) (h : Closer c (c.clock ctrl i)) :
    (c.clock ctrl i).wait < c.wait := by
  obtain ⟨hle, hlt⟩ := h
  have hsum := c.nco_sum_q.isLt
  rw [wait, wait]
  cases htick : c.tick_baud_x16 with
  | true =>
    have := hlt htick
    omega
  | false =>
    have hsum' := @nco_sum_clock ctrl c i htick
    have hpos : 0 < ctrl.nco.toNat := by
      apply Nat.pos_of_ne_zero
      exact fun h => hnco (BitVec.eq_of_toNat_eq h)
    have hlt' := (c.clock ctrl i).nco_sum_q.isLt
    omega

variable {inputs : ℕ → UartIn}

theorem allWritten_mono {m : ℕ} (hle : n ≤ m) :
    allWritten ctrl inputs n <+: allWritten ctrl inputs m := by
  induction hle with
  | refl => exact List.prefix_rfl
  | @step m hle ih =>
    refine ih.trans ?_
    rw [allWritten, allWritten, Mealy.collect_succ]
    exact List.prefix_append _ _

theorem allDelivered_succ (n : ℕ) : allDelivered ctrl inputs (n + 2) =
    allDelivered ctrl inputs (n + 1) ++ (after ctrl inputs (n + 1)).delivered ctrl := by
  rw [allDelivered, Mealy.collect_succ, Nat.zero_add]
  rfl

/-- Another byte comes out while one is under way. -/
theorem exists_delivered (hnco : ctrl.nco ≠ 0)
    (hmore : (allDelivered ctrl inputs (n + 1)).length < (allWritten ctrl inputs n).length) :
    ∃ m, n ≤ m ∧
      (allDelivered ctrl inputs (n + 1)).length < (allDelivered ctrl inputs (m + 1)).length := by
  obtain ⟨m, -, ⟨hle, hsame⟩, hmore'⟩ := Mealy.exists_of_rank
    (P := fun m => n ≤ m ∧ allDelivered ctrl inputs (m + 1) = allDelivered ctrl inputs (n + 1))
    (Q := fun m => (after ctrl inputs (m + 1)).delivered ctrl ≠ [])
    (fun m => (after ctrl inputs m).wait)
    (fun m hP hnot => by
      obtain ⟨hle, hsame⟩ := hP
      obtain ⟨q, hinv, hledger⟩ := inv_after ctrl inputs m
      have hq : q ≠ [] := by
        rintro rfl
        have hwritten : allWritten ctrl inputs n <+: allWritten ctrl inputs m := allWritten_mono hle
        have hlength := hwritten.length_le
        rw [hledger, List.append_nil, hsame] at hlength
        omega
      have hnone := not_not.1 hnot
      refine ⟨m + 1, Nat.le_succ m, ⟨hle.trans (Nat.le_succ m), ?_⟩, ?_⟩
      · rw [allDelivered_succ, hnone, List.append_nil, hsame]
      · exact wait_lt hnco ((hinv.closer hq).resolve_left hnot)) ⟨Nat.le_refl n, rfl⟩
  refine ⟨m + 1, hle.trans (Nat.le_succ m), ?_⟩
  rw [allDelivered_succ, List.length_append, hsame]
  exact Nat.lt_add_of_pos_right (List.length_pos_iff.2 hmore')

theorem exists_all_delivered (hnco : ctrl.nco ≠ 0) (n : ℕ) :
    ∃ m, n ≤ m ∧ allWritten ctrl inputs n <+: allDelivered ctrl inputs (m + 1) := by
  obtain ⟨m, -, hle, hprefix⟩ := Mealy.exists_of_rank (P := fun m => n ≤ m)
    (Q := fun m => allWritten ctrl inputs n <+: allDelivered ctrl inputs (m + 1))
    (fun m => (allWritten ctrl inputs n).length - (allDelivered ctrl inputs (m + 1)).length)
    (fun m hle hnot => by
      obtain ⟨q, -, hledger⟩ := inv_after ctrl inputs m
      have hwritten : allWritten ctrl inputs n <+: allWritten ctrl inputs m := allWritten_mono hle
      have hdelivered : allDelivered ctrl inputs (m + 1) <+: allWritten ctrl inputs m :=
        ⟨q, hledger.symm⟩
      have hlt : (allDelivered ctrl inputs (m + 1)).length < (allWritten ctrl inputs n).length := by
        by_contra hge
        exact hnot (List.prefix_of_prefix_length_le hwritten hdelivered (Nat.not_lt.1 hge))
      obtain ⟨m', hle', hmore⟩ := exists_delivered hnco (hlt.trans_le hwritten.length_le)
      exact ⟨m', hle', hle.trans hle', by omega⟩) (Nat.le_refl n)
  exact ⟨m, hle, hprefix⟩

end Uart

/-- In system loopback, with any baud rate and parity, every run of the UART delivers what was
written, once and in order, with at most two bytes under way and without an error; and every byte
that is written is delivered when the baud clock runs. -/
theorem uart_loopback (ctrl : UartCtrl) (inputs : ℕ → UartIn) (n : ℕ) :
    ((Uart.after ctrl inputs n).frame_err = false ∧
        (Uart.after ctrl inputs n).parity_err ctrl = false) ∧
      (∃ q, Uart.allWritten ctrl inputs n = Uart.allDelivered ctrl inputs (n + 1) ++ q ∧
        q.length ≤ 2) ∧
      (ctrl.nco ≠ 0 → ∃ m, n ≤ m ∧
        Uart.allWritten ctrl inputs n <+: Uart.allDelivered ctrl inputs (m + 1)) := by
  obtain ⟨q, hinv, hledger⟩ := Uart.inv_after ctrl inputs n
  refine ⟨⟨hinv.frame_err, hinv.parity_err⟩, ⟨q, hledger, ?_⟩, fun hnco =>
    Uart.exists_all_delivered hnco n⟩
  cases hinv.phase <;> simp

/-- The byte `0x55` over and over at the highest rate. -/
theorem uart_loopback_fastest : ∃ m,
    [0x55#8] <+: Uart.allDelivered ⟨0xffff, true, false⟩ (fun _ => ⟨true, 0x55⟩) (m + 1) := by
  obtain ⟨-, -, hall⟩ := uart_loopback ⟨0xffff, true, false⟩ (fun _ => ⟨true, 0x55⟩) 1
  obtain ⟨m, -, hprefix⟩ := hall (by decide)
  exact ⟨m, hprefix⟩

end SecureBoot
