import SecureBoot.Hmac.Sha2Engine

/-! The SHA-256 engine comes to the end of every message: the padding logic and the engine never
wait for each other, and the digest that is left is the hash of the message. -/

namespace SecureBoot

open Fips180

/-! ### A valid word waits -/

namespace Sha2Pad

variable {r : Sha2Pad} {inp : ℕ → Sha2PadIn} {message : List Byte} {entries : List ShaFifo}
  {arrived : ℕ → ℕ} {t n : ℕ}

section Feeds

variable (h : Feeds r inp message entries arrived)

include h

/-- The words that come straight from the FIFO are the full ones. -/
theorem Feeds.receive_valid_iff (hlen : message.length < 2 ^ 61)
    (hi : Inv r inp message entries arrived t n) (hst : (r.regsAt inp t).st_q = .StFifoReceive) :
    ((r.regsAt inp t).comb (inp t)).shaf_rvalid = true ↔
      n < arrived t ∧ n < fullWords message := by
  have hle : n ≤ fullWords message := by
    have hphase := hi.phase
    rwa [hst] at hphase
  have hlength := h.length_taken hi (.inl hst)
  have hrvalid := h.rvalid t
  have hrdata := h.rdata t
  rw [hlength] at hrvalid hrdata
  rw [comb, hst]
  cases hvalid : (inp t).fifo_rvalid with
  | false =>
    rw [hvalid, eq_comm, decide_eq_false_iff_not] at hrvalid
    simp only [Bool.and_false, Bool.false_eq_true, if_false]
    split_ifs <;> simp [hrvalid]
  | true =>
    have hpart : (inp t).fifo_partial_word = decide (n = fullWords message) :=
      partialWord_of_carries h.carries (hrdata hvalid)
    rw [hvalid, eq_comm, decide_eq_true_iff] at hrvalid
    by_cases hfull : n = fullWords message
    · simp [hpart, hfull]
    · have hcount : (r.regsAt inp t).hash_process_flag = true →
          (r.regsAt inp t).tx_count ≠ (inp t).message_length := by
        intro hflag heq
        obtain ⟨t', hlt, hprocess⟩ := hi.flag hflag
        rw [h.length t' t hlt.le (.inl hprocess), hi.tx_count_eq, count_eq_length hle hlen] at heq
        exact hfull heq.1
      have hlt : n < fullWords message := Nat.lt_of_le_of_ne hle hfull
      cases hflag : (r.regsAt inp t).hash_process_flag with
      | false => simp [hpart, hfull, hrvalid, hlt]
      | true => simp [hpart, hfull, hrvalid, hlt, hcount hflag]

theorem Feeds.valid_succ (hlen : message.length < 2 ^ 61) (ht : 0 < t)
    (hi : Inv r inp message entries arrived t n)
    (hvalid : ((r.regsAt inp t).comb (inp t)).shaf_rvalid = true)
    (hready : (inp t).shaf_rready = false) :
    ((r.regsAt inp (t + 1)).comb (inp (t + 1))).shaf_rvalid = true := by
  have hnext := h.step ht hlen hi
  rw [hready, Bool.toNat_false, Nat.add_zero] at hnext
  have hbusy : (r.regsAt inp t).st_q ≠ .StIdle := by
    intro hst
    rw [comb, hst] at hvalid
    exact Bool.false_ne_true hvalid
  have hst' := h.st_q_succ ht hready
  cases hst : (r.regsAt inp (t + 1)).st_q with
  | StIdle =>
    rw [hst] at hst'
    obtain hsame | ⟨-, hto⟩ := hst'
    · exact absurd hsame.symm hbusy
    · exact absurd hto Sha2PadSt.noConfusion
  | StFifoReceive =>
    rw [hst] at hst'
    obtain hsame | ⟨-, hto⟩ := hst'
    · rw [h.receive_valid_iff hlen hi hsame.symm] at hvalid
      rw [h.receive_valid_iff hlen hnext hst]
      exact ⟨hvalid.1.trans_le (h.arrived_mono (Nat.le_succ t)), hvalid.2⟩
    · exact absurd hto Sha2PadSt.noConfusion
  | _ => rw [comb, hst]

end Feeds

end Sha2Pad

/-! ### The compression ends -/

namespace Sha2

variable {M : ℕ → Word} {N n : ℕ} {s : Sha2} {i : Sha2In} {inp : ℕ → Sha2In} {t : ℕ}
  {message : List Byte} {entries : List ShaFifo} {arrived : ℕ → ℕ}

/-- The cycles up to the end of the compression. -/
def wait (s : Sha2) : ℕ :=
  match s.fifo_st_q, s.sha_st_q with
  | .FifoWait, .ShaIdle => 65
  | .FifoWait, .ShaCompress => 64 - s.round.toNat
  | _, _ => 0

theorem Inv.wait_clock (h : Inv M N n s) (hi : Calm i) (hfifo : s.fifo_st_q = .FifoWait) :
    (s.clock i).wait < s.wait ∧ ((s.clock i).fifo_st_q = .FifoWait ∨
      s.u_pad.msg_feed_complete = true ∧ (s.clock i).hash_done = true ∨
      s.u_pad.msg_feed_complete = false ∧ (s.clock i).fifo_st_q = .FifoLoadFromFifo) := by
  have hphase := h.phase
  have hnext : (s.clock i).fifo_st_q = (s.fifoComb i).fifo_st_d := rfl
  cases hphase with
  | filled b _ hsha _ _ _ =>
    have hround := h.round (by simp [hsha])
    have hfifo' : (s.clock i).fifo_st_q = .FifoWait := by
      rw [hnext, fifoComb, hfifo]
      simp [complete_one_chunk, hround]
    have hsha' : (s.clock i).sha_st_q = .ShaCompress := by
      simp [Sha2.clock, shaComb, hsha, hfifo]
    refine ⟨?_, .inl hfifo'⟩
    rw [wait, wait, hfifo', hsha', hfifo, hsha]
    exact Nat.lt_succ_of_le (Nat.sub_le _ _)
  | compress b _ hsha _ _ _ _ =>
    have hlt : s.round.toNat < 64 := s.round.isLt
    by_cases hlast : s.round = 63
    · have hcomplete : s.complete_one_chunk = true := by rw [complete_one_chunk, hlast]; rfl
      have hwait : s.wait = 1 := by
        rw [wait, hfifo, hsha, hlast]
        rfl
      cases hfeed : s.u_pad.msg_feed_complete with
      | true =>
        have hcomb : s.fifoComb i = ⟨.FifoIdle, false, true⟩ := by
          simp [fifoComb, hfifo, hcomplete, hfeed]
        refine ⟨?_, .inr (.inl ⟨rfl, congrArg FifoComb.hash_done_next hcomb⟩)⟩
        rw [hwait, wait, hnext, hcomb]
        exact Nat.zero_lt_one
      | false =>
        have hcomb : s.fifoComb i = ⟨.FifoLoadFromFifo, false, false⟩ := by
          simp [fifoComb, hfifo, hcomplete, hfeed]
        refine ⟨?_, .inr (.inr ⟨rfl, congrArg FifoComb.fifo_st_d hcomb⟩)⟩
        rw [hwait, wait, hnext, hcomb]
        exact Nat.zero_lt_one
    · have hcomplete : s.complete_one_chunk = false := by simpa [complete_one_chunk] using hlast
      have hfifo' : (s.clock i).fifo_st_q = .FifoWait := by
        rw [hnext, fifoComb, hfifo]
        simp [hcomplete]
      have hsha' : (s.clock i).sha_st_q = .ShaCompress := by
        simp [Sha2.clock, shaComb, hsha, hcomplete]
      refine ⟨?_, .inl hfifo'⟩
      rw [wait, wait, hfifo', hsha', hfifo, hsha, round_succ hi hsha hlast]
      simp only
      omega
  | load hfifo' => exact absurd (hfifo.symm.trans hfifo') FifoctlState.noConfusion
  | update hfifo' => exact absurd (hfifo.symm.trans hfifo') FifoctlState.noConfusion
  | finish hfifo' => exact absurd (hfifo.symm.trans hfifo') FifoctlState.noConfusion
  | rest hfifo' => exact absurd (hfifo.symm.trans hfifo') FifoctlState.noConfusion

section Hashes

variable (h : s.Hashes inp message entries arrived) (hlen : message.length < 2 ^ 61)

include h

/-! ### The request to process the message is seen -/

theorem Hashes.busy_of_succ (ht : 0 < t) (hbusy : (s.regsAt inp (t + 1)).fifo_st_q ≠ .FifoIdle) :
    (s.regsAt inp t).fifo_st_q ≠ .FifoIdle := by
  obtain ⟨k, rfl⟩ := Nat.exists_eq_add_of_le' ht
  intro hfifo
  apply hbusy
  rw [regsAt_succ]
  simp [Sha2.clock, fifoComb, hfifo, h.no_start]

include hlen

theorem Hashes.flag {p : ℕ} (hprocess : (inp p).hash_process = true) (hlt : p < t)
    (hbusy : (s.regsAt inp t).fifo_st_q ≠ .FifoIdle) :
    (s.regsAt inp t).u_pad.hash_process_flag = true := by
  induction hlt with
  | refl => exact if_pos hprocess
  | @step k hlt ih =>
    have hk : 0 < k := Nat.zero_lt_of_lt hlt
    have hbusy' := h.busy_of_succ hk hbusy
    have hdone : (s.regsAt inp k).hash_done = false := by
      by_contra hdone
      exact hbusy' ((h.inv_of_pos hlen hk).hash_done.1 (Bool.not_eq_false _ ▸ hdone)).1
    have hstart : (inp k).hash_start = false := h.feeds.hash_start hk
    change (if (inp k).hash_process then true
      else if (s.regsAt inp k).hash_done || (inp k).hash_start then false
      else (s.regsAt inp k).u_pad.hash_process_flag) = true
    rw [hdone, hstart, ih hbusy']
    simp

theorem Hashes.pad_idle_iff (ht : 0 < t) : (s.regsAt inp t).u_pad.st_q = .StIdle ↔
    (s.u_pad.handed (s.padInputs inp) t).length = (words (pad message)).length := by
  rw [u_pad_regsAt]
  constructor
  · intro hidle
    rw [(h.feeds.at_rest hlen ht hidle).1]
  · intro hlength
    by_contra hbusy
    obtain ⟨k, rfl⟩ := Nat.exists_eq_add_of_le' ht
    obtain ⟨n, hi⟩ := h.feeds.inv hlen k
    have hlt := h.feeds.sent_lt hi hbusy
    rw [h.feeds.length_handed hi] at hlength
    exact absurd hlength (Nat.ne_of_lt hlt)

/-- While a word waits, the compression goes on. -/
theorem Hashes.wait_lt (ht : 0 < t)
    (hvalid : ((s.u_pad.regsAt (s.padInputs inp) t).comb (s.padInputs inp t)).shaf_rvalid = true)
    (hready : (s.padInputs inp t).shaf_rready = false) :
    (s.regsAt inp (t + 1)).wait < (s.regsAt inp t).wait := by
  obtain ⟨k, rfl⟩ := Nat.exists_eq_add_of_le' ht
  have hi := h.inv hlen k
  have hbusy : (s.regsAt inp (k + 1)).u_pad.st_q ≠ .StIdle := by
    intro hidle
    rw [← u_pad_regsAt, Sha2Pad.comb, hidle] at hvalid
    exact Bool.false_ne_true hvalid
  have hne := fun hall => hbusy ((h.pad_idle_iff hlen ht).2 hall)
  have hload : (s.regsAt inp (k + 1)).fifo_st_q ≠ .FifoLoadFromFifo := by
    intro hfifo
    rw [← u_pad_regsAt] at hvalid
    have hvalid' := (comb_shaf_rvalid _).symm.trans hvalid
    have hupdate : (s.regsAt inp (k + 1)).update_w_from_fifo (inp (k + 1)) = true := by
      simp only [update_w_from_fifo, fifoComb, hfifo, h.sha_en, hvalid']
      split_ifs <;> simp_all
    exact absurd (hready.symm.trans hupdate) Bool.false_ne_true
  have hwait : (s.regsAt inp (k + 1)).fifo_st_q = .FifoWait := by
    cases hi.phase with
    | load hfifo => exact absurd hfifo hload
    | update hfifo => exact absurd hfifo hload
    | filled _ hfifo => exact hfifo
    | compress _ hfifo => exact hfifo
    | finish _ _ hn => exact absurd hn hne
    | rest _ _ hn => exact absurd hn hne
  exact (hi.wait_clock (h.calm k) hwait).1

theorem Hashes.engine (t : ℕ)
    (hvalid : ((s.u_pad.regsAt (s.padInputs inp) t).comb (s.padInputs inp t)).shaf_rvalid = true) :
    ∃ t', t ≤ t' ∧ (s.padInputs inp t').shaf_rready = true := by
  have ht : 0 < t := by
    apply Nat.pos_of_ne_zero
    rintro rfl
    change (s.u_pad.comb _).shaf_rvalid = true at hvalid
    rw [Sha2Pad.comb, h.pad_idle] at hvalid
    exact Bool.false_ne_true hvalid
  obtain ⟨t', hle, -, hready⟩ := Mealy.exists_of_rank
    (P := fun t => 0 < t ∧
      ((s.u_pad.regsAt (s.padInputs inp) t).comb (s.padInputs inp t)).shaf_rvalid = true)
    (Q := fun t => (s.padInputs inp t).shaf_rready = true) (fun t => (s.regsAt inp t).wait)
    (fun t hP hnot => by
      obtain ⟨ht, hvalid⟩ := hP
      have hready : (s.padInputs inp t).shaf_rready = false := Bool.not_eq_true _ ▸ hnot
      have hlt := h.wait_lt hlen ht hvalid hready
      obtain ⟨k, rfl⟩ := Nat.exists_eq_add_of_le' ht
      obtain ⟨n, hi⟩ := h.feeds.inv hlen k
      have hnext := h.feeds.valid_succ hlen ht hi hvalid hready
      exact ⟨k + 2, Nat.le_succ _, ⟨Nat.succ_pos _, hnext⟩, hlt⟩) ⟨ht, hvalid⟩
  exact ⟨t', hle, hready⟩

end Hashes

end Sha2

end SecureBoot
