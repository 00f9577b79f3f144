import SecureBoot.Hmac.Sha2Pad

/-! Whatever the stalls and whenever the processing is asked for, the padding logic hands the
words of the padded message to the compression engine. -/

namespace SecureBoot

open Fips180

namespace Sha2Pad

/-! ### The words of a message -/

section Carries

variable {message : List Byte} {entries : List ShaFifo}

theorem length_of_carries (h : Carries message entries) :
    entries.length = (message.length + 3) / 4 := by
  induction message, entries using Carries.induct with
  | case5 b₀ b₁ b₂ b₃ message e entries ih =>
    have hlen := ih h.2.2
    simp only [List.length_cons]
    omega
  | case6 => exact absurd h (by simp_all [Carries])
  | _ => simp

/-- The partial word is the last one, and there is one unless the message fills its words. -/
theorem partialWord_of_carries (h : Carries message entries) {k : ℕ} {e : ShaFifo}
    (he : entries[k]? = some e) : e.partialWord = decide (k = message.length / 4) := by
  induction message, entries using Carries.induct generalizing k with
  | case1 => simp at he
  | case5 b₀ b₁ b₂ b₃ message e' entries ih =>
    simp only [List.length_cons]
    cases k with
    | zero =>
      obtain rfl := Option.some.inj he
      rw [h.1, eq_comm, decide_eq_false_iff_not]
      omega
    | succ k =>
      rw [ih h.2.2 (by simpa using he), decide_eq_decide]
      omega
  | case6 => exact absurd h (by simp_all [Carries])
  | _ =>
    cases k with
    | zero =>
      obtain rfl := Option.some.inj he
      rw [h.1]
      simp
    | succ k => simp at he

theorem append_80_00 (x : BitVec 16) : x ++ 0x80#8 ++ 0#8 = x ++ 0x8000#16 := by
  apply BitVec.eq_of_getLsbD_eq
  intro i hi
  have hzero : (0x8000#16).getLsbD i = (0x80#8 ++ 0#8).getLsbD i := rfl
  simp only [BitVec.getLsbD_append, hzero]
  split_ifs <;> first | rfl | omega

theorem append_80_00_00 (x : BitVec 8) : x ++ 0x80#8 ++ 0#8 ++ 0#8 = x ++ 0x800000#24 := by
  revert x
  decide +kernel

/-- The words of a message with the padding behind it. -/
theorem words_of_carries (h : Carries message entries) (z : ℕ) (bytes : List Byte) :
    words (message ++
        0x80#8 :: (List.replicate (3 - message.length % 4 + 4 * z) 0#8 ++ bytes)) =
      (entries.take (message.length / 4)).map ShaFifo.data ++
        pad80 (BitVec.ofNat 2 message.length)
          ((entries[message.length / 4]?).elim 0 ShaFifo.data) ::
          (List.replicate z 0#32 ++ words bytes) := by
  have hzeros (n : ℕ) : List.replicate (n + 4 * z) 0#8 ++ bytes =
      List.replicate n 0#8 ++ (List.replicate (4 * z) 0#8 ++ bytes) := by
    rw [← List.append_assoc, List.replicate_append_replicate]
  induction message, entries using Carries.induct with
  | case1 =>
    simp [hzeros, List.replicate_succ, words, words_zeros, pad80]
  | case2 b₀ e =>
    simp [hzeros, List.replicate_succ, words, words_zeros, pad80, h.2, append_80_00_00]
  | case3 b₀ b₁ e =>
    simp [hzeros, List.replicate_succ, words, words_zeros, pad80, h.2, append_80_00]
  | case4 b₀ b₁ b₂ e =>
    simp [words, words_zeros, pad80, h.2]
  | case5 b₀ b₁ b₂ b₃ message e entries ih =>
    have hih := ih h.2.2
    have hlen : (b₀ :: b₁ :: b₂ :: b₃ :: message).length = message.length + 4 := rfl
    have hsel : BitVec.ofNat 2 (message.length + 4) = BitVec.ofNat 2 message.length := by
      apply BitVec.eq_of_toNat_eq
      simp only [BitVec.toNat_ofNat]
      omega
    rw [hlen, Nat.add_mod_right, Nat.add_div_right _ (by decide), hsel]
    simp only [List.cons_append, words, hih, h.2.1, List.take_succ_cons, List.map_cons,
      List.getElem?_cons_succ]
  | case6 => exact absurd h (by simp_all [Carries])

/-- The number of full words of a message, and of the zero words of its padding. -/
def fullWords (message : List Byte) : ℕ := message.length / 4

def zeroWords (message : List Byte) : ℕ := zeroBytes message.length / 4

/-- The length field starts in word 14 of the last block. -/
theorem fullWords_add_zeroWords (message : List Byte) :
    (fullWords message + zeroWords message) % 16 = 13 ∧ zeroWords message ≤ 15 := by
  simp only [fullWords, zeroWords, zeroBytes]
  omega

theorem words_pad (h : Carries message entries) :
    words (pad message) =
      (entries.take (fullWords message)).map ShaFifo.data ++
        pad80 (BitVec.ofNat 2 message.length)
          ((entries[fullWords message]?).elim 0 ShaFifo.data) ::
          (List.replicate (zeroWords message) 0#32 ++
            [(BitVec.ofNat 64 (8 * message.length)).extractLsb' 32 32,
              (BitVec.ofNat 64 (8 * message.length)).extractLsb' 0 32]) := by
  have hzero : zeroBytes message.length = 3 - message.length % 4 + 4 * zeroWords message := by
    simp only [zeroWords, zeroBytes]
    omega
  rw [pad, hzero, words_of_carries h, words_lengthBytes]
  rfl

theorem length_words_pad_eq (h : Carries message entries) :
    (words (pad message)).length = fullWords message + 3 + zeroWords message := by
  have hlen := length_of_carries h
  rw [words_pad h]
  simp only [List.length_append, List.length_map, List.length_take, List.length_cons,
    List.length_replicate, List.length_nil, fullWords]
  omega

theorem length_full (h : Carries message entries) :
    ((entries.take (fullWords message)).map ShaFifo.data).length = fullWords message := by
  have hlen := length_of_carries h
  rw [List.length_map, List.length_take, fullWords]
  omega

theorem word_full (h : Carries message entries) {k : ℕ} {e : ShaFifo}
    (hk : k < fullWords message) (he : entries[k]? = some e) :
    (words (pad message))[k]? = some e.data := by
  rw [words_pad h, List.getElem?_append_left (by rw [length_full h]; exact hk), List.getElem?_map,
    List.getElem?_take_of_lt hk, he]
  rfl

/-- The words behind the full ones. -/
theorem word_behind (h : Carries message entries) (k : ℕ) :
    (words (pad message))[fullWords message + k]? =
      (pad80 (BitVec.ofNat 2 message.length)
        ((entries[fullWords message]?).elim 0 ShaFifo.data) ::
        (List.replicate (zeroWords message) 0#32 ++
          [(BitVec.ofNat 64 (8 * message.length)).extractLsb' 32 32,
            (BitVec.ofNat 64 (8 * message.length)).extractLsb' 0 32]))[k]? := by
  rw [words_pad h, List.getElem?_append_right (by rw [length_full h]; omega), length_full h,
    Nat.add_sub_cancel_left]

theorem word_zero (h : Carries message entries) {k : ℕ} (hlt : fullWords message < k)
    (hle : k ≤ fullWords message + zeroWords message) :
    (words (pad message))[k]? = some 0 := by
  obtain ⟨j, rfl⟩ := Nat.exists_eq_add_of_lt hlt
  rw [show fullWords message + j + 1 = fullWords message + (j + 1) by omega, word_behind h,
    List.getElem?_cons_succ, List.getElem?_append_left (by rw [List.length_replicate]; omega),
    List.getElem?_replicate, if_pos (by omega)]
  rfl

theorem word_length (h : Carries message entries) {k : ℕ} (hk : k < 2) :
    (words (pad message))[fullWords message + 1 + zeroWords message + k]? =
      some ((BitVec.ofNat 64 (8 * message.length)).extractLsb' (32 * (1 - k)) 32) := by
  rw [show fullWords message + 1 + zeroWords message + k =
      fullWords message + (zeroWords message + k + 1) by omega, word_behind h,
    List.getElem?_cons_succ, List.getElem?_append_right (by rw [List.length_replicate]; omega),
    List.length_replicate, Nat.add_sub_cancel_left]
  obtain rfl | rfl : k = 0 ∨ k = 1 := by omega
  · rfl
  · rfl

end Carries

/-! ### The counter -/

theorem count_succ (h : ℕ) :
    ((BitVec.ofNat 64 (32 * h)).extractLsb' 5 59 + 1) ++
      (BitVec.ofNat 64 (32 * h)).extractLsb' 0 5 =
      BitVec.ofNat 64 (32 * (h + 1)) := by
  apply BitVec.eq_of_toNat_eq
  refine (BitVec.toNat_append _ _).trans ?_
  simp only [BitVec.toNat_add, BitVec.extractLsb'_toNat, BitVec.toNat_ofNat,
    Nat.shiftRight_eq_div_pow, Nat.shiftLeft_eq]
  have hone : (1 : BitVec 59).toNat = 1 := rfl
  rw [show 32 * h % 2 ^ 64 / 2 ^ 0 % 2 ^ 5 = 0 by omega, Nat.or_zero, hone]
  omega

theorem count_eq_1a0 (h : ℕ) :
    ((BitVec.ofNat 64 (32 * h)).extractLsb' 0 9 == 0x1a0#9) = decide (h % 16 = 13) := by
  rw [Bool.eq_iff_iff, beq_iff_eq, decide_eq_true_iff, ← BitVec.toNat_inj]
  simp only [BitVec.extractLsb'_toNat, BitVec.toNat_ofNat, Nat.shiftRight_zero]
  omega

/-- The counter is at the length of the message when all its words were full and are sent. -/
theorem count_eq_length {h n : ℕ} (hle : h ≤ n / 4) (hn : n < 2 ^ 61) :
    BitVec.ofNat 64 (32 * h) = BitVec.ofNat 64 (8 * n) ↔ h = n / 4 ∧ n % 4 = 0 := by
  rw [← BitVec.toNat_inj, BitVec.toNat_ofNat, BitVec.toNat_ofNat]
  omega

theorem length_sel (n : ℕ) :
    (BitVec.ofNat 64 (8 * n)).extractLsb' 3 2 = BitVec.ofNat 2 n := by
  apply BitVec.eq_of_toNat_eq
  simp only [BitVec.extractLsb'_toNat, BitVec.toNat_ofNat, Nat.shiftRight_eq_div_pow]
  omega

/-! ### One cycle -/

variable {r : Sha2Pad} {inp : ℕ → Sha2PadIn} {message : List Byte} {entries : List ShaFifo}
  {arrived : ℕ → ℕ} {t n : ℕ}

/-- The words that are sent before a state is entered. -/
def Phase (message : List Byte) (n : ℕ) : Sha2PadSt → Prop
  | .StFifoReceive => n ≤ fullWords message
  | .StPad80 => n = fullWords message
  | .StPad00 => fullWords message < n ∧ n ≤ fullWords message + zeroWords message
  | .StLenHi => n = fullWords message + 1 + zeroWords message
  | .StLenLo => n = fullWords message + 1 + zeroWords message + 1
  | .StIdle => n = fullWords message + 1 + zeroWords message + 2

/-- The words that are taken from the FIFO before a state is entered. -/
def takenCount (message : List Byte) (entries : List ShaFifo) (n : ℕ) : Sha2PadSt → ℕ
  | .StFifoReceive => n
  | .StPad80 => fullWords message
  | _ => entries.length

/-- What holds in cycle `t` when `n` words are sent. -/
structure Inv (r : Sha2Pad) (inp : ℕ → Sha2PadIn) (message : List Byte) (entries : List ShaFifo)
    (arrived : ℕ → ℕ) (t n : ℕ) : Prop where
  handed_eq : r.handed inp t = (words (pad message)).take n
  tx_count_eq : (r.regsAt inp t).tx_count = BitVec.ofNat 64 (32 * n)
  phase : Phase message n (r.regsAt inp t).st_q
  taken_eq : r.taken inp t = entries.take (takenCount message entries n (r.regsAt inp t).st_q)
  flag : (r.regsAt inp t).hash_process_flag = true → ∃ t' < t, (inp t').hash_process = true
  asked : (r.regsAt inp t).st_q ≠ .StFifoReceive → (r.regsAt inp t).st_q ≠ .StIdle →
    ∃ t' < t, AsksLength (inp t')
  /-- The partial word waits for the word with the byte `0x80`. -/
  waits : (r.regsAt inp t).st_q = .StPad80 → message.length % 4 ≠ 0 → fullWords message < arrived t

theorem Inv.txcnt_eq_1a0 (hi : Inv r inp message entries arrived t n) :
    (r.regsAt inp t).txcnt_eq_1a0 = decide (n % 16 = 13) := by
  rw [Sha2Pad.txcnt_eq_1a0, hi.tx_count_eq, count_eq_1a0]

theorem regsAt_succ (t : ℕ) : r.regsAt inp (t + 1) = (r.regsAt inp t).clock (inp t) := rfl

theorem handed_succ (t : ℕ) :
    r.handed inp (t + 1) = r.handed inp t ++ (r.regsAt inp t).sent (inp t) := by
  rw [handed, Mealy.collect_succ, Nat.zero_add]
  rfl

theorem taken_succ (t : ℕ) :
    r.taken inp (t + 1) = r.taken inp t ++ (r.regsAt inp t).popped (inp t) := by
  rw [taken, Mealy.collect_succ, Nat.zero_add]
  rfl

section Feeds

variable (h : Feeds r inp message entries arrived)

include h

/-- The first cycle. -/
theorem Feeds.first : Inv r inp message entries arrived 1 0 := by
  have hcomb : r.comb (inp 0) = { st_d := .StFifoReceive } := by
    rw [comb, h.idle]
    simp only [h.start.1, h.start.2, Bool.and_self, if_true]
  have hst : (r.regsAt inp 1).st_q = .StFifoReceive := congrArg Comb.st_d hcomb
  refine ⟨?_, ?_, ?_, ?_, ?_, ?_, ?_⟩
  · rw [handed_succ, sent]
    change [] ++ (if (r.comb (inp 0)).shaf_rvalid && (inp 0).shaf_rready then _ else _) = _
    rw [hcomb]
    rfl
  · change (if (inp 0).hash_start then _ else _) = _
    rw [h.start.2]
    rfl
  · rw [hst]
    exact Nat.zero_le _
  · rw [taken_succ, popped, hst]
    change [] ++ (if (inp 0).fifo_rvalid && (r.comb (inp 0)).fifo_rready then _ else _) = _
    rw [hcomb, Bool.and_false]
    rfl
  · intro hflag
    refine ⟨0, Nat.zero_lt_one, ?_⟩
    change (if (inp 0).hash_process then _
      else if _ || (inp 0).hash_start then _ else _) = _ at hflag
    rw [h.start.2, Bool.or_true, if_pos rfl] at hflag
    by_contra hno
    rw [if_neg hno] at hflag
    exact Bool.false_ne_true hflag
  · exact fun hne => absurd hst hne
  · intro heq
    rw [hst] at heq
    exact Sha2PadSt.noConfusion heq

theorem Feeds.hash_start (ht : 0 < t) : (inp t).hash_start = false := by
  obtain ⟨k, rfl⟩ := Nat.exists_eq_add_of_le' ht
  exact h.no_start k

/-- A cycle in which the counter goes with the words. -/
theorem Feeds.next (ht : 0 < t) (hi : Inv r inp message entries arrived t n)
    (hinc : ((r.regsAt inp t).comb (inp t)).inc_txcount = (inp t).shaf_rready)
    (hword : (inp t).shaf_rready = true →
      (words (pad message))[n]? = some ((r.regsAt inp t).shaf_rdata (inp t)))
    (hphase : Phase message (n + (inp t).shaf_rready.toNat) (r.regsAt inp (t + 1)).st_q)
    (htaken : r.taken inp t ++ (r.regsAt inp t).popped (inp t) =
      entries.take (takenCount message entries (n + (inp t).shaf_rready.toNat)
        (r.regsAt inp (t + 1)).st_q))
    (hasked : (r.regsAt inp (t + 1)).st_q ≠ .StFifoReceive →
      (r.regsAt inp (t + 1)).st_q ≠ .StIdle → ∃ t' < t + 1, AsksLength (inp t'))
    (hwaits : (r.regsAt inp (t + 1)).st_q = .StPad80 → message.length % 4 ≠ 0 →
      fullWords message < arrived (t + 1)) :
    Inv r inp message entries arrived (t + 1) (n + (inp t).shaf_rready.toNat) := by
  refine ⟨?_, ?_, hphase, by rw [taken_succ, htaken], ?_, hasked, hwaits⟩
  · rw [handed_succ, sent, hi.handed_eq]
    cases hready : (inp t).shaf_rready with
    | false => rw [Bool.and_false, if_neg Bool.false_ne_true, List.append_nil]; rfl
    | true =>
      rw [h.ready t hready, Bool.and_true, if_pos rfl, Bool.toNat_true, List.take_add_one,
        hword hready]
      rfl
  · rw [regsAt_succ, clock]
    simp only [h.hash_start ht, hinc, hi.tx_count_eq, Bool.false_eq_true, if_false]
    cases (inp t).shaf_rready with
    | false => rfl
    | true => exact count_succ n
  · intro hflag
    by_cases hprocess : (inp t).hash_process = true
    · exact ⟨t, Nat.lt_succ_self t, hprocess⟩
    · rw [regsAt_succ, clock] at hflag
      simp only [hprocess, Bool.false_eq_true, if_false] at hflag
      split_ifs at hflag
      obtain ⟨t', hlt, hprocess'⟩ := hi.flag hflag
      exact ⟨t', Nat.lt_succ_of_lt hlt, hprocess'⟩

theorem Feeds.not_ready
    (hvalid : ((r.regsAt inp t).comb (inp t)).shaf_rvalid = false) :
    (inp t).shaf_rready = false := by
  by_contra hready
  rw [h.ready t (Bool.not_eq_false _ ▸ hready)] at hvalid
  exact Bool.noConfusion hvalid

theorem Feeds.fullWords_le : fullWords message ≤ entries.length := by
  have hlen := length_of_carries h.carries
  rw [fullWords]
  omega

/-- The words of a message that ends inside a word. -/
theorem Feeds.length_entries :
    entries.length = fullWords message + if message.length % 4 = 0 then 0 else 1 := by
  have hlen := length_of_carries h.carries
  rw [fullWords]
  split_ifs <;> omega

theorem Feeds.length_taken (hi : Inv r inp message entries arrived t n)
    (hst : (r.regsAt inp t).st_q = .StFifoReceive ∨ (r.regsAt inp t).st_q = .StPad80) :
    (r.taken inp t).length = n := by
  have hphase := hi.phase
  have hle := h.fullWords_le
  rw [hi.taken_eq, List.length_take]
  obtain hst | hst := hst <;> rw [hst] at hphase ⊢ <;> simp only [Phase, takenCount] at hphase ⊢ <;>
    omega

theorem Feeds.message_length (hi : Inv r inp message entries arrived t n)
    (hst : (r.regsAt inp t).st_q ≠ .StFifoReceive) (hst' : (r.regsAt inp t).st_q ≠ .StIdle) :
    (inp t).message_length = BitVec.ofNat 64 (8 * message.length) := by
  obtain ⟨t', hlt, hasks⟩ := hi.asked hst hst'
  exact h.length t' t hlt.le hasks

/-- The receiving state goes on to the byte `0x80`, with no word sent. -/
theorem Feeds.step_to_pad80 (ht : 0 < t) (hi : Inv r inp message entries arrived t n)
    (hst : (r.regsAt inp t).st_q = .StFifoReceive) (hn : n = fullWords message)
    (hcomb : (r.regsAt inp t).comb (inp t) = { st_d := .StPad80 })
    (hasked : ∃ t' < t + 1, AsksLength (inp t'))
    (hwaits : message.length % 4 ≠ 0 → fullWords message < arrived (t + 1)) :
    Inv r inp message entries arrived (t + 1) (n + (inp t).shaf_rready.toNat) := by
  have hready := h.not_ready (t := t) (by rw [hcomb])
  have hnext : (r.regsAt inp (t + 1)).st_q = .StPad80 := congrArg Comb.st_d hcomb
  refine h.next ht hi ?_ ?_ ?_ ?_ (fun _ _ => hasked) (fun _ => hwaits)
  · rw [hcomb, hready]
  · rw [hready]
    exact fun h => absurd h Bool.false_ne_true
  · rw [hnext, hready]
    exact hn
  · rw [hi.taken_eq, hst, hnext, popped, hcomb, Bool.and_false, if_neg Bool.false_ne_true,
      List.append_nil]
    simp only [takenCount, hn]

theorem Feeds.step_receive (ht : 0 < t) (hlen : message.length < 2 ^ 61)
    (hi : Inv r inp message entries arrived t n)
    (hst : (r.regsAt inp t).st_q = .StFifoReceive) :
    Inv r inp message entries arrived (t + 1) (n + (inp t).shaf_rready.toNat) := by
  have hle : n ≤ fullWords message := by
    have hphase := hi.phase
    rwa [hst] at hphase
  have hlength := h.length_taken hi (.inl hst)
  have hrvalid := h.rvalid t
  have hrdata := h.rdata t
  rw [hlength] at hrvalid hrdata
  by_cases hpart : ((inp t).fifo_partial_word && (inp t).fifo_rvalid) = true
  · obtain ⟨hword, hvalid⟩ := Bool.and_eq_true_iff.mp hpart
    have hlast := partialWord_of_carries h.carries (hrdata hvalid)
    rw [show (inp t).fifo_rdata.partialWord = true from hword, eq_comm, decide_eq_true_iff] at hlast
    refine h.step_to_pad80 ht hi hst hlast ?_ ⟨t, Nat.lt_succ_self t, .inr ⟨hvalid, hword⟩⟩ ?_
    · rw [comb, hst]
      exact if_pos hpart
    · intro _
      rw [hvalid, eq_comm, decide_eq_true_iff] at hrvalid
      exact (hlast ▸ hrvalid).trans_le (h.arrived_mono (Nat.le_succ t))
  by_cases hflag : (r.regsAt inp t).hash_process_flag = true ∧
      (r.regsAt inp t).tx_count = (inp t).message_length
  · obtain ⟨hflag, hcount⟩ := hflag
    obtain ⟨t', hlt, hprocess⟩ := hi.flag hflag
    have hcount' := hcount
    rw [h.length t' t hlt.le (.inl hprocess), hi.tx_count_eq, count_eq_length hle hlen] at hcount'
    refine h.step_to_pad80 ht hi hst hcount'.1 ?_
      ⟨t', Nat.lt_succ_of_lt hlt, .inl hprocess⟩ fun hne => absurd hcount'.2 hne
    rw [comb, hst]
    simp only [hpart, hflag, hcount, beq_self_eq_true, Bool.not_true, Bool.false_eq_true,
      if_false, if_true]
  · have hcomb : (r.regsAt inp t).comb (inp t) =
        { fifo_rready := (inp t).shaf_rready, shaf_rvalid := (inp t).fifo_rvalid,
          inc_txcount := (inp t).shaf_rready, st_d := .StFifoReceive } := by
      rw [comb, hst]
      simp only [hpart, Bool.false_eq_true, if_false]
      cases hf : (r.regsAt inp t).hash_process_flag with
      | false => rfl
      | true =>
        have hne : ¬(r.regsAt inp t).tx_count = (inp t).message_length := fun heq => hflag ⟨hf, heq⟩
        simp only [Bool.not_true, Bool.false_eq_true, if_false, beq_iff_eq, hne]
    have hnext : (r.regsAt inp (t + 1)).st_q = .StFifoReceive := congrArg Comb.st_d hcomb
    -- What is sent is one of the full words.
    have hvalid (hready : (inp t).shaf_rready = true) : (inp t).fifo_rvalid = true := by
      have hvalid := h.ready t hready
      rwa [hcomb] at hvalid
    have hlt (hready : (inp t).shaf_rready = true) : n < fullWords message := by
      have hlast := partialWord_of_carries h.carries (hrdata (hvalid hready))
      rw [hvalid hready, Bool.and_true] at hpart
      rw [show (inp t).fifo_rdata.partialWord = false from Bool.eq_false_iff.mpr hpart, eq_comm,
        decide_eq_false_iff_not] at hlast
      exact Nat.lt_of_le_of_ne hle hlast
    refine h.next ht hi ?_ ?_ ?_ ?_ (fun hne => absurd hnext hne) (fun heq => ?_)
    · rw [hcomb]
    · intro hready
      rw [word_full h.carries (hlt hready) (hrdata (hvalid hready)), shaf_rdata, hcomb]
      rfl
    · rw [hnext]
      cases hready : (inp t).shaf_rready with
      | false => exact hle
      | true => exact hlt hready
    · rw [hnext, hi.taken_eq, hst, popped, hcomb]
      simp only [takenCount]
      cases hready : (inp t).shaf_rready with
      | false => simp
      | true =>
        rw [hvalid hready, Bool.and_true, if_pos rfl, Bool.toNat_true, List.take_add_one,
          hrdata (hvalid hready)]
        rfl
    · rw [hnext] at heq
      exact Sha2PadSt.noConfusion heq

theorem Feeds.step_pad80 (ht : 0 < t) (hi : Inv r inp message entries arrived t n)
    (hst : (r.regsAt inp t).st_q = .StPad80) :
    Inv r inp message entries arrived (t + 1) (n + (inp t).shaf_rready.toNat) := by
  have hn : n = fullWords message := by
    have hphase := hi.phase
    rwa [hst] at hphase
  have hmod := fullWords_add_zeroWords message
  have hml := h.message_length hi (by rw [hst]; exact Sha2PadSt.noConfusion)
    (by rw [hst]; exact Sha2PadSt.noConfusion)
  have hlength := h.length_taken hi (.inr hst)
  have hnext : (r.regsAt inp (t + 1)).st_q =
      if (inp t).shaf_rready && decide (n % 16 = 13) then .StLenHi
      else if (inp t).shaf_rready && !decide (n % 16 = 13) then .StPad00 else .StPad80 := by
    change ((r.regsAt inp t).comb (inp t)).st_d = _
    rw [comb, hst]
    simp only [hi.txcnt_eq_1a0]
  -- The partial word is at the head of the FIFO, if there is one.
  have hhead (hp : message.length % 4 ≠ 0) :
      (inp t).fifo_rvalid = true ∧ entries[n]? = some (inp t).fifo_rdata := by
    have hvalid : (inp t).fifo_rvalid = true := by
      rw [h.rvalid t, hlength, hn]
      exact decide_eq_true (hi.waits hst hp)
    exact ⟨hvalid, hlength ▸ h.rdata t hvalid⟩
  have hsel : (inp t).message_length.extractLsb' 3 2 = BitVec.ofNat 2 message.length := by
    rw [hml, length_sel]
  have hzero : (BitVec.ofNat 2 message.length = 0) ↔ message.length % 4 = 0 := by
    rw [← BitVec.toNat_inj, BitVec.toNat_ofNat]
    exact Iff.rfl
  refine h.next ht hi ?_ ?_ ?_ ?_ (fun _ _ => ?_) (fun _ hp => ?_)
  · rw [comb, hst]
  · intro _
    rw [hn, ← Nat.add_zero (fullWords message), word_behind h.carries, shaf_rdata, comb, hst,
      List.getElem?_cons_zero]
    simp only [shafData, hsel]
    by_cases hp : message.length % 4 = 0
    · rw [hzero.mpr hp]
      rfl
    · rw [← hn, (hhead hp).2]
      rfl
  · rw [hnext]
    cases (inp t).shaf_rready with
    | false => exact hn
    | true =>
      simp only [Bool.true_and, Bool.toNat_true]
      by_cases h13 : n % 16 = 13
      · simp only [h13, decide_true, if_true, Phase]
        omega
      · simp only [h13, decide_false, Bool.false_eq_true, if_false, Bool.not_false, if_true, Phase]
        omega
  · have hlen := h.length_entries
    have htaken : takenCount message entries (n + (inp t).shaf_rready.toNat)
        (r.regsAt inp (t + 1)).st_q =
        if (inp t).shaf_rready then entries.length else fullWords message := by
      rw [hnext]
      cases (inp t).shaf_rready <;> cases decide (n % 16 = 13) <;> rfl
    rw [htaken, hi.taken_eq, hst, popped, comb, hst]
    simp only [takenCount, hsel]
    cases hready : (inp t).shaf_rready with
    | false => simp
    | true =>
      by_cases hp : message.length % 4 = 0
      · rw [if_pos hp] at hlen
        simp [hzero.mpr hp, hlen]
      · rw [if_neg hp] at hlen
        have hne : (BitVec.ofNat 2 message.length != 0) = true := bne_iff_ne.mpr fun heq =>
          hp (hzero.mp heq)
        rw [(hhead hp).1, hne, Bool.and_self, Bool.and_self, if_pos rfl, if_pos rfl, hlen,
          List.take_add_one, ← hn, (hhead hp).2]
        rfl
  · obtain ⟨t', hlt, hasks⟩ := hi.asked (by rw [hst]; exact Sha2PadSt.noConfusion)
      (by rw [hst]; exact Sha2PadSt.noConfusion)
    exact ⟨t', Nat.lt_succ_of_lt hlt, hasks⟩
  · exact (hi.waits hst hp).trans_le (h.arrived_mono (Nat.le_succ t))

/-- The states behind the word with the byte `0x80`, where the FIFO is not read. -/
theorem Feeds.step_behind (ht : 0 < t) (hi : Inv r inp message entries arrived t n)
    (hst : (r.regsAt inp t).st_q = .StPad00 ∨ (r.regsAt inp t).st_q = .StLenHi ∨
      (r.regsAt inp t).st_q = .StLenLo) :
    Inv r inp message entries arrived (t + 1) (n + (inp t).shaf_rready.toNat) := by
  have hphase := hi.phase
  have hmod := fullWords_add_zeroWords message
  have hml := h.message_length hi (by obtain h | h | h := hst <;> rw [h] <;> simp)
    (by obtain h | h | h := hst <;> rw [h] <;> simp)
  have hasked : ∃ t' < t + 1, AsksLength (inp t') := by
    obtain ⟨t', hlt, hasks⟩ := hi.asked (by obtain h | h | h := hst <;> rw [h] <;> simp)
      (by obtain h | h | h := hst <;> rw [h] <;> simp)
    exact ⟨t', Nat.lt_succ_of_lt hlt, hasks⟩
  have htaken : r.taken inp t = entries := by
    rw [hi.taken_eq]
    obtain h | h | h := hst <;> rw [h] <;> exact List.take_length
  have hnext : (r.regsAt inp (t + 1)).st_q = ((r.regsAt inp t).comb (inp t)).st_d := rfl
  have hpopped : (r.regsAt inp t).popped (inp t) = [] := by
    rw [popped, comb]
    obtain h | h | h := hst <;> simp only [h, Bool.and_false, Bool.false_eq_true, if_false]
  have hcount := hi.txcnt_eq_1a0
  refine h.next ht hi ?_ ?_ ?_ ?_ (fun _ _ => hasked) (fun heq _ => ?_)
  · rw [comb]
    obtain h | h | h := hst <;> rw [h]
  · intro _
    rw [shaf_rdata, comb]
    obtain hst | hst | hst := hst <;> rw [hst] at hphase ⊢ <;> simp only [Phase] at hphase <;>
      simp only [shafData, hml]
    · exact word_zero h.carries hphase.1 hphase.2
    · exact hphase ▸ word_length h.carries (k := 0) (by decide)
    · exact hphase ▸ word_length h.carries (k := 1) (by decide)
  · rw [hnext, comb]
    obtain hst | hst | hst := hst <;> rw [hst] at hphase ⊢ <;> simp only [Phase] at hphase <;>
      simp only [hcount] <;> cases (inp t).shaf_rready
    · exact hphase
    · by_cases h13 : n % 16 = 13
      · simp only [h13, decide_true, if_true, Phase, Bool.toNat_true]
        omega
      · simp only [h13, decide_false, if_true, Bool.false_eq_true, if_false, Phase,
          Bool.toNat_true]
        omega
    · exact hphase
    · simp only [if_true, Phase, Bool.toNat_true]
      omega
    · exact hphase
    · simp only [if_true, Phase, Bool.toNat_true]
      omega
  · have hcount : takenCount message entries (n + (inp t).shaf_rready.toNat)
        (r.regsAt inp (t + 1)).st_q = entries.length := by
      rw [hnext, comb]
      obtain hst | hst | hst := hst <;> rw [hst] <;> cases (inp t).shaf_rready <;>
        cases (r.regsAt inp t).txcnt_eq_1a0 <;> rfl
    rw [hcount, htaken, hpopped, List.append_nil, List.take_length]
  · rw [hnext, comb] at heq
    obtain hst | hst | hst := hst <;> rw [hst] at heq <;> revert heq <;>
      cases (inp t).shaf_rready <;> cases (r.regsAt inp t).txcnt_eq_1a0 <;> simp

theorem Feeds.comb_idle (ht : 0 < t) (hst : (r.regsAt inp t).st_q = .StIdle) :
    (r.regsAt inp t).comb (inp t) = { st_d := .StIdle } := by
  rw [comb, hst]
  simp only [h.hash_start ht, Bool.and_false, Bool.false_eq_true, if_false]

theorem Feeds.step_idle (ht : 0 < t) (hi : Inv r inp message entries arrived t n)
    (hst : (r.regsAt inp t).st_q = .StIdle) :
    Inv r inp message entries arrived (t + 1) (n + (inp t).shaf_rready.toNat) := by
  have hcomb := h.comb_idle ht hst
  have hready := h.not_ready (t := t) (by rw [hcomb])
  have hnext : (r.regsAt inp (t + 1)).st_q = .StIdle := congrArg Comb.st_d hcomb
  have hphase := hi.phase
  refine h.next ht hi ?_ ?_ ?_ ?_ (fun _ hne => absurd hnext hne) (fun heq => ?_)
  · rw [hcomb, hready]
  · rw [hready]
    exact fun h => absurd h Bool.false_ne_true
  · rw [hnext, hready]
    rwa [hst] at hphase
  · rw [hi.taken_eq, hst, hnext, popped, hcomb, Bool.and_false, if_neg Bool.false_ne_true,
      List.append_nil]
    rfl
  · rw [hnext] at heq
    exact Sha2PadSt.noConfusion heq

theorem Feeds.step (ht : 0 < t) (hlen : message.length < 2 ^ 61)
    (hi : Inv r inp message entries arrived t n) :
    Inv r inp message entries arrived (t + 1) (n + (inp t).shaf_rready.toNat) := by
  cases hst : (r.regsAt inp t).st_q with
  | StIdle => exact h.step_idle ht hi hst
  | StFifoReceive => exact h.step_receive ht hlen hi hst
  | StPad80 => exact h.step_pad80 ht hi hst
  | StPad00 => exact h.step_behind ht hi (.inl hst)
  | StLenHi => exact h.step_behind ht hi (.inr (.inl hst))
  | StLenLo => exact h.step_behind ht hi (.inr (.inr hst))

theorem Feeds.inv (hlen : message.length < 2 ^ 61) (t : ℕ) :
    ∃ n, Inv r inp message entries arrived (t + 1) n := by
  induction t with
  | zero => exact ⟨0, h.first⟩
  | succ t ih =>
    obtain ⟨n, hi⟩ := ih
    exact ⟨_, h.step (Nat.succ_pos t) hlen hi⟩

end Feeds

end Sha2Pad

end SecureBoot
