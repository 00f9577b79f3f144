import SecureBoot.Hmac.Sha2PadWords

/-! The padding logic delivers the padded message of any length and comes to rest, unless
somebody stalls it forever. -/

namespace SecureBoot

open Fips180

namespace Sha2Pad

variable {r : Sha2Pad} {inp : ℕ → Sha2PadIn} {message : List Byte} {entries : List ShaFifo}
  {arrived : ℕ → ℕ} {t n : ℕ}

/-! ### What is handed over -/

section Feeds

variable (h : Feeds r inp message entries arrived)

include h

theorem Feeds.sent_le (hi : Inv r inp message entries arrived t n) :
    n ≤ (words (pad message)).length := by
  have hphase := hi.phase
  rw [length_words_pad_eq h.carries]
  cases hst : (r.regsAt inp t).st_q <;> rw [hst] at hphase <;> simp only [Phase] at hphase <;> omega

theorem Feeds.length_handed (hi : Inv r inp message entries arrived t n) :
    (r.handed inp t).length = n := by
  rw [hi.handed_eq, List.length_take, Nat.min_eq_left (h.sent_le hi)]

theorem Feeds.sent_lt (hi : Inv r inp message entries arrived t n)
    (hst : (r.regsAt inp t).st_q ≠ .StIdle) : n < (words (pad message)).length := by
  have hphase := hi.phase
  rw [length_words_pad_eq h.carries]
  cases hst' : (r.regsAt inp t).st_q <;> rw [hst'] at hphase <;> simp only [Phase] at hphase <;>
    first | exact absurd hst' hst | omega

theorem Feeds.handed_isPrefix (hlen : message.length < 2 ^ 61) (t : ℕ) :
    r.handed inp t <+: words (pad message) := by
  cases t with
  | zero => exact List.nil_prefix
  | succ t =>
    obtain ⟨n, hi⟩ := h.inv hlen t
    rw [hi.handed_eq]
    exact List.take_prefix n _

/-- At rest everything is handed over, and the FIFO is drained. -/
theorem Feeds.at_rest (hlen : message.length < 2 ^ 61) (ht : 0 < t)
    (hst : (r.regsAt inp t).st_q = .StIdle) :
    r.handed inp t = words (pad message) ∧ r.taken inp t = entries ∧
      (inp t).fifo_rvalid = false := by
  obtain ⟨k, rfl⟩ := Nat.exists_eq_add_of_le' ht
  obtain ⟨n, hi⟩ := h.inv hlen k
  have hn := hi.phase
  have htaken := hi.taken_eq
  rw [hst] at hn htaken
  have hall : (words (pad message)).length ≤ n := by
    rw [length_words_pad_eq h.carries, show n = _ from hn]
    omega
  have hdrained : r.taken inp (k + 1) = entries := htaken.trans List.take_length
  refine ⟨by rw [hi.handed_eq, List.take_of_length_le hall], hdrained, ?_⟩
  rw [h.rvalid, hdrained, decide_eq_false_iff_not]
  exact Nat.not_lt.mpr (h.arrived_le _)

theorem Feeds.stays_idle (ht : 0 < t) (hst : (r.regsAt inp t).st_q = .StIdle) {t' : ℕ}
    (hle : t ≤ t') : (r.regsAt inp t').st_q = .StIdle := by
  induction hle with
  | refl => exact hst
  | @step k hle ih =>
    rw [regsAt_succ, clock, h.comb_idle (ht.trans_le hle) ih]

/-! ### Progress -/

/-- A state is left without a word only from the receiving state. -/
theorem Feeds.st_q_succ (ht : 0 < t) (hready : (inp t).shaf_rready = false) :
    (r.regsAt inp (t + 1)).st_q = (r.regsAt inp t).st_q ∨
      (r.regsAt inp t).st_q = .StFifoReceive ∧ (r.regsAt inp (t + 1)).st_q = .StPad80 := by
  rw [regsAt_succ, clock]
  cases hst : (r.regsAt inp t).st_q with
  | StIdle => exact .inl (congrArg Comb.st_d (h.comb_idle ht hst))
  | StFifoReceive =>
    simp only [comb, hst]
    split_ifs <;> simp
  | _ => simp [comb, hst, hready]

/-- Nothing takes the request back before the padding is delivered. -/
theorem Feeds.flag_stays (ht : 0 < t) (hst : (r.regsAt inp t).st_q ≠ .StIdle)
    (hflag : (r.regsAt inp t).hash_process_flag = true ∨ (inp t).hash_process = true) :
    (r.regsAt inp (t + 1)).hash_process_flag = true := by
  obtain ⟨k, rfl⟩ := Nat.exists_eq_add_of_le' ht
  have hdone : (inp (k + 1)).hash_done = false := by
    by_contra hdone
    exact hst (h.no_done k (Bool.not_eq_false _ ▸ hdone))
  rw [regsAt_succ, clock]
  simp only [hdone, h.no_start k, Bool.or_self, Bool.false_eq_true, if_false]
  obtain hflag | hprocess := hflag
  · rw [hflag, ite_self]
  · rw [if_pos hprocess]

/-- A request is seen as long as the padding is not delivered. -/
theorem Feeds.flag_after {p : ℕ} (hprocess : (inp p).hash_process = true) (hlt : p < t)
    (hst : (r.regsAt inp t).st_q ≠ .StIdle) :
    (r.regsAt inp t).hash_process_flag = true := by
  induction hlt with
  | refl =>
    rw [regsAt_succ, clock]
    exact if_pos hprocess
  | @step k hlt ih =>
    have hk : 0 < k := Nat.zero_lt_of_lt hlt
    have hbusy : (r.regsAt inp k).st_q ≠ .StIdle := fun hidle =>
      hst (h.stays_idle hk hidle (Nat.le_succ k))
    exact h.flag_stays hk hbusy (.inl (ih hbusy))

/-- The receiving state is left, or a word is taken. -/
theorem Feeds.receive_event (hlen : message.length < 2 ^ 61) (hp : Prompt r inp entries arrived)
    (ht : 0 < t)
    (hstay : ∀ k, t ≤ k → (r.regsAt inp k).st_q = .StFifoReceive ∧
      Inv r inp message entries arrived k n) :
    ∃ k, t ≤ k ∧ (inp k).shaf_rready = true := by
  obtain ⟨a, ha⟩ := hp.arrives
  obtain ⟨p, hprocess⟩ := hp.process
  have hcomb (k : ℕ) (hle : t ≤ k) : ((r.regsAt inp k).comb (inp k)).st_d = .StFifoReceive :=
    (hstay (k + 1) (Nat.le_succ_of_le hle)).1
  -- A cycle in which all words have arrived and the request is seen.
  obtain ⟨k, hk, hak, hpk⟩ : ∃ k, t ≤ k ∧ a ≤ k ∧ p < k :=
    ⟨t + a + p + 1, by omega, by omega, by omega⟩
  obtain ⟨hst, hi⟩ := hstay k hk
  have hflag := h.flag_after hprocess hpk (by rw [hst]; exact Sha2PadSt.noConfusion)
  have harrived : arrived k = entries.length :=
    Nat.le_antisymm (h.arrived_le k) (ha ▸ h.arrived_mono hak)
  have hlength := h.length_taken hi (.inl hst)
  have hrvalid := h.rvalid k
  rw [hlength, harrived] at hrvalid
  have hnext := hcomb k hk
  have hentries := h.length_entries
  have hle : n ≤ fullWords message := by
    have hphase := hi.phase
    rwa [hst] at hphase
  by_cases hlt : n < entries.length
  · have hvalid : (inp k).fifo_rvalid = true := hrvalid.trans (decide_eq_true hlt)
    have hout : ((r.regsAt inp k).comb (inp k)).shaf_rvalid = true := by
      revert hnext
      rw [comb, hst]
      simp only
      split_ifs <;> simp [hvalid]
    obtain ⟨k', hle', hready⟩ := hp.engine k hout
    exact ⟨k', hk.trans hle', hready⟩
  · -- All words were full, and the counter is at the length of the message.
    have hfull : n = message.length / 4 ∧ message.length % 4 = 0 := by
      rw [hentries] at hlt
      rw [fullWords] at hle hlt
      split_ifs at hlt <;> omega
    have hcount : (r.regsAt inp k).tx_count = (inp k).message_length := by
      rw [hi.tx_count_eq, h.length p k hpk.le (.inl hprocess),
        count_eq_length hfull.1.le hlen]
      exact hfull
    exfalso
    revert hnext
    rw [comb, hst]
    simp only [hflag, hcount, beq_self_eq_true, Bool.not_true, Bool.false_eq_true, if_false,
      if_true]
    split_ifs <;> simp

/-- The words left, and the receiving state itself. -/
def rank (r : Sha2Pad) (inp : ℕ → Sha2PadIn) (message : List Byte) (t : ℕ) : ℕ :=
  2 * ((words (pad message)).length - (r.handed inp t).length) +
    if (r.regsAt inp t).st_q = .StFifoReceive then 1 else 0

theorem Feeds.progress (hlen : message.length < 2 ^ 61) (hp : Prompt r inp entries arrived)
    (ht : 0 < t) (hst : (r.regsAt inp t).st_q ≠ .StIdle) :
    ∃ t', t ≤ t' ∧ 0 < t' ∧ rank r inp message t' < rank r inp message t := by
  obtain ⟨k₀, rfl⟩ := Nat.exists_eq_add_of_le' ht
  obtain ⟨n, hi⟩ := h.inv hlen k₀
  -- The state stays, and no word goes out, up to a cycle that takes a word or leaves the state.
  obtain ⟨k, hle, ⟨hk, hik⟩, hevent⟩ := Mealy.exists_event
    (S := fun k => (r.regsAt inp k).st_q = (r.regsAt inp (k₀ + 1)).st_q ∧
      Inv r inp message entries arrived k n)
    (E := fun k => (inp k).shaf_rready = true ∨
      (r.regsAt inp (k + 1)).st_q ≠ (r.regsAt inp k).st_q)
    ⟨rfl, hi⟩
    (fun k hle hs hno => by
      obtain ⟨hready, hsame⟩ := not_or.mp hno
      have hnext := h.step (ht.trans_le hle) hlen hs.2
      rw [Bool.eq_false_iff.mpr hready] at hnext
      exact ⟨(not_not.mp hsame).trans hs.1, hnext⟩)
    (fun hforever => by
      by_cases hrec : (r.regsAt inp (k₀ + 1)).st_q = .StFifoReceive
      · obtain ⟨k, hle, hready⟩ := h.receive_event hlen hp ht fun k hle =>
          ⟨(hforever k hle).1.trans hrec, (hforever k hle).2⟩
        exact ⟨k, hle, .inl hready⟩
      · obtain ⟨k, hle, hready⟩ := hp.engine (k₀ + 1) (by
          rw [comb]
          cases hst' : (r.regsAt inp (k₀ + 1)).st_q <;> simp_all)
        exact ⟨k, hle, .inl hready⟩)
  have hpos : 0 < k := ht.trans_le hle
  have hnext := h.step hpos hlen hik
  refine ⟨k + 1, hle.trans (Nat.le_succ k), Nat.succ_pos k, ?_⟩
  rw [rank, rank, h.length_handed hi, h.length_handed hnext]
  have hbusy := h.sent_lt hi hst
  cases hready : (inp k).shaf_rready with
  | true =>
    rw [Bool.toNat_true]
    split_ifs <;> omega
  | false =>
    rw [hready] at hevent
    obtain hsame | ⟨hfrom, hto⟩ := h.st_q_succ hpos hready
    · exact absurd hsame (hevent.resolve_left Bool.false_ne_true)
    · rw [hto, ← hk, hfrom]
      simp

end Feeds

/-! ### All messages -/

theorem sha2_pad_standard (h : Feeds r inp message entries arrived)
    (hlen : message.length < 2 ^ 61) :
    (∀ t, r.handed inp t <+: words (pad message)) ∧
      (∀ t, 0 < t → (r.regsAt inp t).st_q = .StIdle →
        r.handed inp t = words (pad message) ∧ r.taken inp t = entries ∧
          (inp t).fifo_rvalid = false) ∧
      (Prompt r inp entries arrived → ∃ t, 0 < t ∧ ∀ t', t ≤ t' →
        (r.regsAt inp t').st_q = .StIdle ∧ r.handed inp t' = words (pad message) ∧
          r.taken inp t' = entries) ∧
      (words (pad message)).length % 16 = 0 ∧
      IsLeast {k | (8 * message.length + 1 + k) % 512 = 448}
        (7 + 8 * zeroBytes message.length) := by
  refine ⟨h.handed_isPrefix hlen, fun t => h.at_rest hlen, fun hp => ?_, length_words_pad message,
    zeroBytes_isLeast message.length⟩
  obtain ⟨t, -, ht, hst⟩ := Mealy.exists_of_rank
    (P := fun t => 0 < t) (Q := fun t => (r.regsAt inp t).st_q = .StIdle)
    (rank r inp message) (fun t => h.progress hlen hp) Nat.zero_lt_one
  refine ⟨t, ht, fun t' hle => ?_⟩
  have hidle := h.stays_idle ht hst hle
  obtain ⟨hhanded, htaken, -⟩ := h.at_rest hlen (ht.trans_le hle) hidle
  exact ⟨hidle, hhanded, htaken⟩

/-! ### A message of one byte -/

def oneByteEntry : ShaFifo := ⟨0x61000000, 0b1000⟩

def oneByteIn (t : ℕ) : Sha2PadIn where
  fifo_rvalid := decide (t ≤ 2)
  fifo_rdata := oneByteEntry
  shaf_rready := decide (2 ≤ t ∧ t < 18)
  sha_en := true
  hash_start := decide (t = 0)
  hash_process := decide (t = 0)
  hash_done := false
  message_length := 8

def oneByteReset : Sha2Pad := ⟨false, .StIdle, 0⟩

theorem oneByte_from (k : ℕ) :
    oneByteReset.regsAt oneByteIn (18 + k) = ⟨true, .StIdle, 512⟩ ∧
      oneByteReset.taken oneByteIn (18 + k) = [oneByteEntry] := by
  induction k with
  | zero => exact ⟨by decide +kernel, by decide +kernel⟩
  | succ k ih =>
    rw [← Nat.add_assoc, regsAt_succ, taken_succ, ih.1, ih.2]
    simp [clock, comb, popped, oneByteIn]

theorem oneByte_st_q {t : ℕ} (ht : 18 ≤ t) :
    (oneByteReset.regsAt oneByteIn t).st_q = .StIdle := by
  obtain ⟨k, rfl⟩ := Nat.exists_eq_add_of_le ht
  rw [(oneByte_from k).1]

/-- What holds in the cycles of the run and whenever the state machine is back at rest. -/
theorem oneByte_cases {P : ℕ → Prop} (hrun : ∀ t < 18, P t)
    (hrest : ∀ t, 18 ≤ t → P t) (t : ℕ) : P t := by
  obtain hlt | hle := Nat.lt_or_ge t 18
  · exact hrun t hlt
  · exact hrest t hle

theorem oneByte_feeds :
    Feeds oneByteReset oneByteIn [0x61] [oneByteEntry] fun _ => 1 where
  carries := ⟨rfl, by decide⟩
  idle := rfl
  start := ⟨rfl, rfl⟩
  no_start t := by simp [oneByteIn]
  no_done t hdone := by simp [oneByteIn] at hdone
  arrived_mono := monotone_const
  arrived_le t := by simp
  rvalid := oneByte_cases (by decide +kernel) fun t ht => by
    obtain ⟨k, rfl⟩ := Nat.exists_eq_add_of_le ht
    rw [(oneByte_from k).2]
    simp only [oneByteIn, List.length_singleton, Nat.lt_irrefl, decide_false,
      decide_eq_false_iff_not]
    omega
  rdata := oneByte_cases (by decide +kernel) fun t ht hvalid => by
    simp only [oneByteIn, decide_eq_true_eq] at hvalid
    omega
  ready := oneByte_cases (by decide +kernel) fun t ht hready => by
    simp only [oneByteIn, decide_eq_true_eq] at hready
    omega
  length t t' _ _ := rfl

theorem oneByte_prompt : Prompt oneByteReset oneByteIn [oneByteEntry] fun _ => 1 where
  arrives := ⟨0, rfl⟩
  process := ⟨0, rfl⟩
  engine := oneByte_cases
    (fun t ht _ => ⟨max t 2, Nat.le_max_left t 2, by simp [oneByteIn, ht]⟩)
    fun t ht hvalid => by
      rw [comb, oneByte_st_q ht] at hvalid
      simp at hvalid

theorem sha2_pad_standard_one_byte :
    ∃ t, 0 < t ∧ ∀ t', t ≤ t' → (oneByteReset.regsAt oneByteIn t').st_q = .StIdle ∧
      oneByteReset.handed oneByteIn t' = 0x61800000 :: (List.replicate 14 0 ++ [8]) ∧
      oneByteReset.taken oneByteIn t' = [oneByteEntry] := by
  have hwords : words (pad [0x61]) = 0x61800000 :: (List.replicate 14 0 ++ [8]) := by decide +kernel
  rw [← hwords]
  exact (sha2_pad_standard oneByte_feeds (by decide)).2.2.1 oneByte_prompt

end Sha2Pad

end SecureBoot
