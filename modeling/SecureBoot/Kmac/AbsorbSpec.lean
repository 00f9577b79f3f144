import SecureBoot.Kmac.AbsorbStep
import SecureBoot.Lib.Fips

/-! The padding logic absorbs the message as FIPS 202 and SP 800-185 pad it. -/

namespace SecureBoot

open Clocked Fips202

variable {EnMasking : Bool} (c : Sha3PadConfig)

/-! ### The padded message -/

/-- The bits that a function puts after its message. -/
def Sha3Mode.suffix : Sha3Mode → List Bool
  | .Sha3 => [false, true]
  | .Shake => [true, true, true, true]
  | .CShake => [false, false]

/-- The prefix register, which holds `encode_string(N) || encode_string(S)`. -/
def Sha3PadConfig.nsBytes : List (BitVec 8) := (List.range 44).map (byteAt c.ns_data_i)

/-- The bytes of a block. -/
def Sha3PadConfig.rateBytes : ℕ := 8 * c.strength_i.keccakRate

/-- What the function absorbs for a message. -/
def Sha3PadConfig.absorbed (message : List (BitVec 8)) : List Bool :=
  let N := (if c.mode_i = .CShake then bitsOfBytes (bytepad c.nsBytes c.rateBytes) else []) ++
    bitsOfBytes message ++ c.mode_i.suffix
  N ++ pad101 (8 * c.rateBytes) N.length

/-- The bytes that words and a partial word carry. -/
def carried (words : List (BitVec 64)) (part : Option PartialWord) : List (BitVec 8) :=
  words.flatMap (fun w => (List.range 8).map (byteAt w)) ++
    (part.map fun p => (List.range p.n).map (byteAt p.data)).getD []

/-! ### The bits of the words -/

namespace Absorb

theorem bits_endbit (b : Bool) :
    bits (BitVec.ofBool b ++ 0#63) = List.replicate 63 false ++ [b] := by
  cases b <;> decide

/-- The rest of the last block is zero up to its last bit. -/
theorem bits_zeroWords (R n : ℕ) : ∀ k, k + n + 1 = R →
    (zeroWords R k).flatMap bits = List.replicate (64 * n + 63) false ++ [true] := by
  induction n with
  | zero =>
    intro k hk
    rw [zeroWords_of_lt (by omega), show k + 1 = R by omega, zeroWords_self]
    simp only [decide_true, List.flatMap_cons, List.flatMap_nil, List.append_nil]
    exact bits_endbit true
  | succ n ih =>
    intro k hk
    rw [zeroWords_of_lt (by omega), decide_eq_false (by omega), List.flatMap_cons,
      ih (k + 1) (by omega)]
    refine (congrArg (· ++ _) (bits_endbit false)).trans ?_
    rw [← List.replicate_succ' (n := 63), ← List.append_assoc, List.replicate_append_replicate]
    congr 2
    omega

/-- The bits above the message in the first word of the padding. -/
theorem bits_funcpad (e : Bool) : ∀ n < 8,
    (List.range (64 - 8 * n)).map
        (fun j => if j < 63 - 8 * n then (Sha3Pad.funcpad c).getLsbD j else e) =
      c.mode_i.suffix ++ true :: List.replicate (62 - 8 * n - c.mode_i.suffix.length) false ++
        [e] := by
  cases hmode : c.mode_i <;> cases e <;> simp only [Sha3Pad.funcpad, hmode] <;> decide

theorem bits_funcpadMerged (e : Bool) {n : ℕ} (hn : n < 8) (x : BitVec 56) :
    bits (Sha3Pad.funcpadMerged c e n x) =
      (List.range (8 * n)).map x.getLsbD ++ (c.mode_i.suffix ++
        true :: List.replicate (62 - 8 * n - c.mode_i.suffix.length) false ++ [e]) := by
  rw [bits_eq_append _ (show 8 * n + (64 - 8 * n) = 64 by omega), ← bits_funcpad c e n hn]
  congr 1
  · refine List.map_congr_left fun j hj => ?_
    have hlt := List.mem_range.mp hj
    have h64 : j < 64 := by omega
    simp only [Sha3Pad.funcpadMerged, BitVec.getLsbD_setWidth, BitVec.getLsbD_append, hlt, h64,
      decide_true, Bool.true_and, if_true]
  · refine List.map_congr_left fun j hj => ?_
    have hlt := List.mem_range.mp hj
    have h64 : 8 * n + j < 64 := by omega
    have hge : ¬8 * n + j < 8 * n := by omega
    have hsub : 8 * n + j - 8 * n = j := by omega
    simp only [Sha3Pad.funcpadMerged, BitVec.getLsbD_setWidth, BitVec.getLsbD_append, hge, h64,
      decide_true, Bool.true_and, if_false, hsub]
    split_ifs with hj
    · simp [hj]
    · have hzero : j - (63 - 8 * n) = 0 := by omega
      simp [hzero]

theorem suffix_length_le (mode : Sha3Mode) : mode.suffix.length ≤ 4 := by
  cases mode <;> decide

/-- The padding words carry the end of the message, the suffix and `pad10*1`. -/
theorem bits_padWords {R k : ℕ} (tail : PartialWord) (hk : k < R) :
    (padWords c R tail k).flatMap bits =
      (List.range (8 * tail.n)).map tail.data.getLsbD ++ (c.mode_i.suffix ++
        true :: List.replicate (64 * (R - k) - 8 * tail.n - c.mode_i.suffix.length - 2) false ++
          [true]) := by
  have hn := tail.n_lt
  have hsuffix := suffix_length_le c.mode_i
  have hdata : (List.range (8 * tail.n)).map (tail.data.setWidth 56).getLsbD =
      (List.range (8 * tail.n)).map tail.data.getLsbD := by
    refine List.map_congr_left fun j hj => ?_
    have hlt := List.mem_range.mp hj
    rw [BitVec.getLsbD_setWidth, decide_eq_true (by omega), Bool.true_and]
  rw [padWords, List.flatMap_cons, bits_funcpadMerged c _ hn, hdata]
  by_cases hlast : k + 1 = R
  · rw [hlast, zeroWords_self, decide_eq_true rfl, List.flatMap_nil, List.append_nil,
      show 64 * (R - k) - 8 * tail.n - c.mode_i.suffix.length - 2 =
        62 - 8 * tail.n - c.mode_i.suffix.length by omega]
  · rw [decide_eq_false hlast, bits_zeroWords R (R - k - 2) (k + 1) (by omega)]
    simp only [List.append_assoc, List.cons_append]
    rw [List.nil_append, ← List.cons_append (a := false), ← List.replicate_succ,
      ← List.append_assoc (List.replicate _ false), List.replicate_append_replicate]
    congr 5
    omega

theorem flatMap_bits (words : List (BitVec 64)) :
    words.flatMap bits =
      bitsOfBytes (words.flatMap fun w => (List.range 8).map (byteAt w)) := by
  rw [bitsOfBytes, List.flatMap_assoc]
  congr 1
  funext w
  exact (bitsOfBytes_byteAt w 8).symm

/-! ### The prefix -/

/-- The prefix, with the zeros behind it. -/
def prefixBits : BitVec (64 * 32) :=
  (c.ns_data_i ++ c.strength_i.encode_bytepad_len).setWidth (64 * 32)

theorem bits_prefixWords {R : ℕ} :
    (prefixWords c R).flatMap bits = (List.range (64 * R)).map (prefixBits c).getLsbD := by
  rw [map_range_mul, prefixWords, List.flatMap_map]
  congr 1
  funext k
  refine List.map_congr_left fun j hj => ?_
  rw [Sha3Pad.prefix_sliced, BitVec.getLsbD_extractLsb', decide_eq_true (List.mem_range.mp hj),
    Bool.true_and, Nat.mul_comm k 64]
  rfl

theorem getLsbD_prefixBits (j : ℕ) : (prefixBits c).getLsbD j =
    if j < 16 then c.strength_i.encode_bytepad_len.getLsbD j else c.ns_data_i.getLsbD (j - 16) := by
  simp only [prefixBits, BitVec.getLsbD_setWidth, BitVec.getLsbD_append]
  by_cases hlt : j < 64 * 32
  · simp [hlt]
  · rw [decide_eq_false hlt, Bool.false_and, if_neg (by omega),
      BitVec.getLsbD_of_ge _ _ (by omega)]

theorem byteAt_prefixBits_rate :
    byteAt (prefixBits c) 0 = 1 ∧ byteAt (prefixBits c) 1 = BitVec.ofNat 8 c.rateBytes := by
  have h : ∀ k < 2, byteAt (prefixBits c) k = byteAt c.strength_i.encode_bytepad_len k := by
    intro k hk
    apply BitVec.eq_of_getLsbD_eq
    intro j hj
    rw [byteAt, byteAt, BitVec.getLsbD_extractLsb', BitVec.getLsbD_extractLsb',
      getLsbD_prefixBits, if_pos (by omega)]
  rw [h 0 (by decide), h 1 (by decide)]
  rw [Sha3PadConfig.rateBytes]
  cases c.strength_i <;> decide

theorem byteAt_prefixBits (k : ℕ) : byteAt (prefixBits c) (2 + k) = byteAt c.ns_data_i k := by
  apply BitVec.eq_of_getLsbD_eq
  intro j hj
  rw [byteAt, byteAt, BitVec.getLsbD_extractLsb', BitVec.getLsbD_extractLsb', getLsbD_prefixBits,
    if_neg (by omega)]
  congr 2
  omega

theorem byteAt_ns_zero (k : ℕ) (h : 44 ≤ k) : byteAt c.ns_data_i k = 0 := by
  apply BitVec.eq_of_getLsbD_eq
  intro j hj
  rw [byteAt, BitVec.getLsbD_extractLsb', BitVec.getLsbD_of_ge _ _ (by omega), Bool.and_false]
  simp

theorem bytepad_nsBytes :
    bytepad c.nsBytes c.rateBytes = (List.range c.rateBytes).map (byteAt (prefixBits c)) := by
  have hrate : 72 ≤ c.rateBytes ∧ c.rateBytes ≤ 168 := by
    rw [Sha3PadConfig.rateBytes]
    cases c.strength_i <;> decide
  have hlength : ([1, BitVec.ofNat 8 c.rateBytes] ++ c.nsBytes).length = 46 := by
    simp [Sha3PadConfig.nsBytes]
  have hhead : [1, BitVec.ofNat 8 c.rateBytes] = (List.range 2).map (byteAt (prefixBits c)) := by
    rw [← (byteAt_prefixBits_rate c).1, ← (byteAt_prefixBits_rate c).2]
    rfl
  have hns : c.nsBytes = (List.range 44).map fun k => byteAt (prefixBits c) (2 + k) :=
    List.map_congr_left fun k _ => (byteAt_prefixBits c k).symm
  have hzero : List.replicate (c.rateBytes - 46) 0 =
      (List.range (c.rateBytes - 46)).map fun k => byteAt (prefixBits c) (2 + (44 + k)) := by
    refine (List.eq_replicate_iff.mpr ⟨by simp, fun b hb => ?_⟩).symm
    obtain ⟨k, -, rfl⟩ := List.mem_map.mp hb
    rw [byteAt_prefixBits, byteAt_ns_zero c (44 + k) (by omega)]
  have hsplit : c.rateBytes = 2 + (44 + (c.rateBytes - 46)) := by omega
  rw [bytepad, leftEncode_of_lt (by omega) (by omega)]
  simp only [hlength]
  rw [Nat.mod_eq_of_lt (show 46 < c.rateBytes by omega),
    Nat.mod_eq_of_lt (show c.rateBytes - 46 < c.rateBytes by omega), hhead, hns, hzero]
  conv_rhs => rw [hsplit, map_range_add, map_range_add]
  exact List.append_assoc _ _ _

/-! ### Blocks -/

/-- The events of a block: a write to each address, and a run. -/
def blockEvents (block : List (BitVec 64)) : List PadEvent :=
  block.mapIdx PadEvent.write ++ [.run]

theorem emit_block {R : ℕ} (ws : List (BitVec 64)) (block : List (BitVec 64)) : ∀ k,
    block ≠ [] → k + block.length = R →
      emit R k (block ++ ws) =
        block.mapIdx (fun j w => .write (k + j) w) ++ .run :: emit R 0 ws := by
  induction block with
  | nil => intro k h; exact absurd rfl h
  | cons w block ih =>
    intro k _ hk
    rw [List.length_cons] at hk
    rw [List.cons_append, emit_cons, List.mapIdx_cons, Nat.add_zero]
    cases hblock : block with
    | nil =>
      rw [hblock, List.length_nil] at hk
      rw [show k + 1 = R by omega, resume_self]
      rfl
    | cons w' block' =>
      have hlt : k + 1 < R := by
        rw [hblock, List.length_cons] at hk
        omega
      rw [resume_of_lt hlt, ← hblock, ih (k + 1) (by rw [hblock]; exact List.cons_ne_nil _ _)
        (by omega), List.cons_append]
      congr 3
      funext j w
      rw [Nat.add_assoc, Nat.add_comm 1 j]

theorem emit_blocks {R : ℕ} (hR : 0 < R) (blocks : List (List (BitVec 64)))
    (h : ∀ b ∈ blocks, b.length = R) :
    emit R 0 blocks.flatten = blocks.flatMap blockEvents := by
  induction blocks with
  | nil => rfl
  | cons b blocks ih =>
    have hb := h b List.mem_cons_self
    rw [List.flatten_cons, List.flatMap_cons, emit_block _ b 0
      (List.length_pos_iff.mp (by omega)) (by omega), ih fun b hb => h b (List.mem_cons_of_mem _ hb),
      blockEvents, List.append_assoc, List.singleton_append]
    congr 2
    funext j w
    rw [Nat.zero_add]

theorem exists_blocks (R n : ℕ) : ∀ ws : List (BitVec 64), ws.length = R * n →
    ∃ blocks : List (List (BitVec 64)), (∀ b ∈ blocks, b.length = R) ∧ blocks.flatten = ws := by
  induction n with
  | zero => exact fun ws h => ⟨[], by simp, (List.length_eq_zero_iff.mp h).symm⟩
  | succ n ih =>
    intro ws h
    rw [Nat.mul_succ] at h
    obtain ⟨blocks, hblocks, hflat⟩ := ih (ws.drop R) (by rw [List.length_drop, h]; omega)
    refine ⟨ws.take R :: blocks, ?_, by rw [List.flatten_cons, hflat, List.take_append_drop]⟩
    intro b hb
    obtain rfl | hb := List.mem_cons.mp hb
    · rw [List.length_take, h]
      omega
    · exact hblocks b hb

/-! ### The whole message -/

/-- The partial word of a message, where none has no bytes. -/
def tailOf (part : Option PartialWord) : PartialWord := part.getD ⟨0, Nat.succ_pos 7, 0⟩

/-- All the words that are absorbed. -/
def allWords (words : List (BitVec 64)) (part : Option PartialWord) : List (BitVec 64) :=
  (if c.mode_i = .CShake then prefixWords c c.strength_i.keccakRate else []) ++
    messageWords c c.strength_i.keccakRate (tailOf part) 0 words

theorem bitsOfBytes_carried (words : List (BitVec 64)) (part : Option PartialWord) :
    bitsOfBytes (carried words part) = words.flatMap bits ++
      (List.range (8 * (tailOf part).n)).map (tailOf part).data.getLsbD := by
  rw [carried, bitsOfBytes, List.flatMap_append, flatMap_bits, ← bitsOfBytes_byteAt]
  cases part <;> rfl

theorem length_flatMap_bits (words : List (BitVec 64)) :
    (words.flatMap bits).length = 64 * words.length := by
  induction words with
  | nil => rfl
  | cons w words ih =>
    rw [List.flatMap_cons, List.length_append, length_bits, ih, List.length_cons]
    omega

theorem length_prefixWords (R : ℕ) : (prefixWords c R).length = R := by
  rw [prefixWords, List.length_map, List.length_range]

/-- The words are the padded message. -/
theorem bits_allWords (words : List (BitVec 64)) (part : Option PartialWord) :
    (allWords c words part).flatMap bits = c.absorbed (carried words part) := by
  have hR := Sha3Pad.keccakRate_pos c.strength_i
  have hrate : c.rateBytes = 8 * c.strength_i.keccakRate := rfl
  have hsuffix := suffix_length_le c.mode_i
  have hn := (tailOf part).n_lt
  have hk := Nat.mod_lt words.length hR
  have hdiv := Nat.div_add_mod words.length c.strength_i.keccakRate
  generalize hR' : c.strength_i.keccakRate = R at *
  have hprefix : (if c.mode_i = .CShake then prefixWords c R else []).flatMap bits =
      if c.mode_i = .CShake then bitsOfBytes (bytepad c.nsBytes c.rateBytes) else [] := by
    split_ifs
    · rw [bits_prefixWords, bytepad_nsBytes, bitsOfBytes_byteAt, hrate,
        show 64 * R = 8 * (8 * R) by omega]
    · rfl
  rw [allWords, hR', List.flatMap_append, hprefix, messageWords, Nat.zero_add, List.flatMap_append,
    bits_padWords c (tailOf part) hk]
  simp only [Sha3PadConfig.absorbed, bitsOfBytes_carried]
  rw [pad101_eq
    (j := 64 * (R - words.length % R) - 8 * (tailOf part).n - c.mode_i.suffix.length - 2)
    (by omega)]
  · simp only [List.append_assoc, List.cons_append]
  · have hlength : ∃ m, (if c.mode_i = .CShake then
        bitsOfBytes (bytepad c.nsBytes c.rateBytes) else []).length = 64 * (R * m) := by
      rw [← hprefix, length_flatMap_bits]
      split_ifs
      · exact ⟨1, by rw [length_prefixWords, Nat.mul_one]⟩
      · exact ⟨0, rfl⟩
    obtain ⟨m, hm⟩ := hlength
    refine ⟨m + words.length / R + 1, ?_⟩
    simp only [List.length_append, hm, length_flatMap_bits, List.length_map, List.length_range]
    have hexpand : R * (m + words.length / R + 1) = R * m + R * (words.length / R) + R := by ring
    have hassoc : 8 * (8 * R) * (m + words.length / R + 1) =
        64 * (R * (m + words.length / R + 1)) := by ring
    rw [hrate, hassoc, hexpand]
    omega

/-- They fill blocks. -/
theorem length_allWords (words : List (BitVec 64)) (part : Option PartialWord) :
    ∃ n, (allWords c words part).length = c.strength_i.keccakRate * n := by
  have hR := Sha3Pad.keccakRate_pos c.strength_i
  have hk := Nat.mod_lt words.length hR
  have hdiv := Nat.div_add_mod words.length c.strength_i.keccakRate
  generalize hR' : c.strength_i.keccakRate = R at *
  have hmessage : (messageWords c R (tailOf part) 0 words).length =
      R * (words.length / R + 1) := by
    rw [messageWords, Nat.zero_add, List.length_append, padWords, List.length_cons, zeroWords,
      List.length_map, List.length_range', Nat.mul_succ]
    omega
  rw [allWords, hR', List.length_append, hmessage]
  split_ifs
  · exact ⟨1 + (words.length / R + 1), by rw [length_prefixWords]; ring⟩
  · exact ⟨words.length / R + 1, Nat.zero_add _⟩

/-! ### Messages from start to end -/

end Absorb

/-- The logic is ready for a message. -/
structure Sha3Pad.Ready (r : Sha3Pad EnMasking) : Prop where
  st : r.st = .StPadIdle
  sent_message : r.sent_message = 0
  process_latched : r.process_latched = false
  msg_strb : r.msg_strb = 0

/-- The cycle that starts a message. -/
structure Sha3PadIn.Starts (i : Sha3PadIn EnMasking) : Prop where
  start_i : i.start_i = true
  process_i : i.process_i = false
  lc_escalate_en_i : i.lc_escalate_en_i = LcTx.Off

/-- A cycle between messages, where `done_i` may come. -/
structure Sha3PadIn.Rests (i : Sha3PadIn EnMasking) : Prop where
  start_i : i.start_i = false
  process_i : i.process_i = false
  lc_escalate_en_i : i.lc_escalate_en_i = LcTx.Off

namespace Absorb

/-- The logic after the start of a message. -/
def start (r : Sha3Pad EnMasking) (i : Sha3PadIn EnMasking) (words : List (BitVec 64))
    (part : Option PartialWord) : Absorb EnMasking :=
  ⟨r.clock c i, words, part, [], 0, 0⟩

variable {c} {r : Sha3Pad EnMasking} {i : Sha3PadIn EnMasking} {words : List (BitVec 64)}
  {part : Option PartialWord}

theorem start_pad (hready : r.Ready) (hstart : i.Starts) :
    (r.clock c i).st = (if c.mode_i = .CShake then .StPrefix else .StMessage) ∧
      (r.clock c i).sent_message = 0 ∧ (r.clock c i).process_latched = false ∧
      (r.clock c i).msg_strb = 0 := by
  have hctrl : r.ctrl c i = { Sha3Pad.Ctrl.default r with
      st_d := if c.mode_i = .CShake then .StPrefix else .StMessage } := by
    simp only [Sha3Pad.ctrl, hstart.lc_escalate_en_i, bne_self_eq_false, Bool.false_eq_true,
      if_false, Sha3Pad.ctrlState, hready.st, hstart.start_i, if_true]
  have hvalid : r.keccak_valid_o c i = false := by rw [Sha3Pad.keccak_valid_o, hctrl]; rfl
  refine ⟨congrArg (·.st_d) hctrl, ?_, ?_, ?_⟩
  · have hsent := r.sent_message_clock c i (by rw [hready.sent_message]; exact Nat.zero_le _)
    rw [hctrl, hvalid, Bool.false_and, hready.sent_message] at hsent
    exact BitVec.eq_of_toNat_eq hsent
  · simp only [Sha3Pad.clock, hstart.process_i, hready.process_latched, ite_self,
      Bool.false_eq_true, if_false]
  · simp only [Sha3Pad.clock, hctrl, Sha3Pad.Ctrl.default, Bool.false_eq_true, if_false,
      hready.msg_strb]

theorem inv_start (hready : r.Ready) (hstart : i.Starts) :
    (start c r i words part).Inv c (tailOf part) := by
  obtain ⟨hst, hsent, hlatched, hstrb⟩ := start_pad (c := c) hready hstart
  have hbuffered : (start c r i words part).Buffered (tailOf part) := by
    cases part with
    | some p => rfl
    | none =>
      refine ⟨?_, Subsingleton.elim (α := BitVec 0) _ _⟩
      change Sha3Pad.strbBytes (r.clock c i).msg_strb = _
      rw [hstrb]
      rfl
  have hstate : (start c r i words part).StateInv c (tailOf part) ∧
      (start c r i words part).pad.st ≠ .StPadIdle := by
    by_cases hmode : c.mode_i = .CShake
    · rw [if_pos hmode] at hst
      have hst' : (start c r i words part).pad.st = .StPrefix := hst
      simp only [StateInv, hst']
      exact ⟨hbuffered, by decide⟩
    · rw [if_neg hmode] at hst
      have hst' : (start c r i words part).pad.st = .StMessage := hst
      simp only [StateInv, hst']
      exact ⟨hbuffered, by decide⟩
  refine ⟨?_, fun h => ?_, hstate.1, ?_⟩
  · change (r.clock c i).sent_message.toNat ≤ _
    rw [hsent]
    exact Nat.zero_le _
  · exact absurd (hlatched.symm.trans h) Bool.false_ne_true
  · rw [if_neg hstate.2]
    rfl

theorem rest_start (words : List (BitVec 64)) (part : Option PartialWord) (hready : r.Ready)
    (hstart : i.Starts) :
    (start c r i words part).rest c (tailOf part) =
        emit c.strength_i.keccakRate 0 (allWords c words part) ∧
      (start c r i words part).weight ≤ 2 := by
  obtain ⟨hst, hsent, -, -⟩ := start_pad (c := c) hready hstart
  have hpos := Sha3Pad.keccakRate_pos c.strength_i
  have hsent' : (start c r i words part).sent = 0 := by
    change (r.clock c i).sent_message.toNat = 0
    rw [hsent]
    rfl
  have hpart : part.toList.length ≤ 1 := by
    cases part <;> simp
  by_cases hmode : c.mode_i = .CShake
  · rw [if_pos hmode] at hst
    have hst' : (start c r i words part).pad.st = .StPrefix := hst
    simp only [rest, weight, hst', hsent', resume_of_lt hpos, List.drop_zero, allWords, hmode,
      if_true]
    exact ⟨rfl, by change 1 + part.toList.length ≤ 2; omega⟩
  · rw [if_neg hmode] at hst
    have hst' : (start c r i words part).pad.st = .StMessage := hst
    simp only [rest, weight, hst', hsent', resume_of_lt hpos, allWords, hmode, if_false,
      List.nil_append]
    exact ⟨rfl, by change 1 + part.toList.length ≤ 2; omega⟩

end Absorb

namespace Sha3Pad

theorem ready_reset : (reset : Sha3Pad EnMasking).Ready := ⟨rfl, rfl, rfl, rfl⟩

theorem idle_clock {c : Sha3PadConfig} {r : Sha3Pad EnMasking} {i : Sha3PadIn EnMasking}
    (hst : r.st = .StPadIdle) (hsent : r.sent_message = 0) (hstrb : r.msg_strb = 0)
    (hrest : i.Rests) :
    (r.clock c i).st = .StPadIdle ∧ (r.clock c i).sent_message = 0 ∧ (r.clock c i).msg_strb = 0 := by
  have hctrl : r.ctrl c i = Sha3Pad.Ctrl.default r := by
    simp only [ctrl, hrest.lc_escalate_en_i, bne_self_eq_false, Bool.false_eq_true, if_false,
      ctrlState, hst, hrest.start_i]
  have hvalid : r.keccak_valid_o c i = false := by rw [keccak_valid_o, hctrl]; rfl
  refine ⟨?_, ?_, ?_⟩
  · exact (congrArg (·.st_d) hctrl).trans hst
  · have hnext := r.sent_message_clock c i (by rw [hsent]; exact Nat.zero_le _)
    rw [hctrl, hvalid, Bool.false_and, hsent] at hnext
    exact BitVec.eq_of_toNat_eq hnext
  · simp only [clock, hctrl, Ctrl.default, Bool.false_eq_true, if_false, hstrb]

end Sha3Pad

/-- What a run that absorbs a message shows: whole blocks that are the padded message, each
written once and run once, in this order, and one pulse of `absorbed_o` at the end, which
comes when nobody stalls. -/
theorem sha3pad_absorbs (c : Sha3PadConfig) {r : Sha3Pad EnMasking} {i : Sha3PadIn EnMasking}
    {inputs : List (Sha3PadIn EnMasking)} {words : List (BitVec 64)} {part : Option PartialWord}
    {s : Absorb EnMasking} (hready : r.Ready) (hstart : i.Starts)
    (hrun : run (Absorb.step c) (.start c r i words part) inputs = some s) :
    ∃ blocks : List (List (BitVec 64)),
      (∀ block ∈ blocks, block.length = c.strength_i.keccakRate) ∧
      blocks.flatten.flatMap bits = c.absorbed (carried words part) ∧
      s.events <+: blocks.flatMap Absorb.blockEvents ∧
      s.pulses ≤ 1 ∧
      (s.pulses = 1 → s.events = blocks.flatMap Absorb.blockEvents) ∧
      (2 * (blocks.flatMap Absorb.blockEvents).length + 2 < s.prompt → s.pulses = 1) ∧
      (s.pulses = 1 → ∀ i' : Sha3PadIn EnMasking, i'.Rests →
        mubi4_test_true_strict i'.done_i = true → (s.pad.clock c i').Ready) := by
  obtain ⟨n, hn⟩ := Absorb.length_allWords c words part
  obtain ⟨blocks, hblocks, hflat⟩ := Absorb.exists_blocks _ n _ hn
  have hok := Absorb.runOk_run (Absorb.inv_start hready hstart) hrun
  obtain ⟨hrest, hweight⟩ := Absorb.rest_start (c := c) words part hready hstart
  have hevents : blocks.flatMap Absorb.blockEvents = s.events ++ s.rest c (Absorb.tailOf part) := by
    rw [← Absorb.emit_blocks (Sha3Pad.keccakRate_pos _) blocks hblocks, hflat, ← hrest, ← hok.events]
    rfl
  have hidle : s.pulses = 1 → s.pad.st = .StPadIdle := by
    intro hpulse
    have hpulses := hok.inv.pulses
    by_contra hst
    rw [if_neg hst, hpulse] at hpulses
    exact absurd hpulses (by decide)
  refine ⟨blocks, hblocks, ?_, ⟨_, hevents.symm⟩, ?_, fun hpulse => ?_, fun hprompt => ?_,
    fun hpulse i' hrests hdone => ?_⟩
  · rw [hflat, Absorb.bits_allWords]
  · rw [hok.inv.pulses]
    split_ifs <;> decide
  · rw [hevents, Absorb.rest, hidle hpulse, List.append_nil]
  · rw [hok.inv.pulses]
    by_contra hst
    have hne : s.pad.st ≠ .StPadIdle := fun h => hst (if_pos h)
    have htodo := hok.todo hne
    have hlength := congrArg List.length hrest
    rw [← hflat, Absorb.emit_blocks (Sha3Pad.keccakRate_pos _) blocks hblocks] at hlength
    rw [Absorb.todo, Absorb.todo, hlength] at htodo
    have hprompt' : (Absorb.start c r i words part).prompt = 0 := rfl
    omega
  · have hstate := hok.inv.state
    simp only [Absorb.StateInv, hidle hpulse] at hstate
    obtain ⟨-, hsent, hstrb⟩ := hstate
    obtain ⟨hst', hsent', hstrb'⟩ := Sha3Pad.idle_clock (c := c) (hidle hpulse)
      (BitVec.eq_of_toNat_eq hsent) hstrb hrests
    refine ⟨hst', hsent', ?_, hstrb'⟩
    simp only [Sha3Pad.clock, hrests.process_i, hdone, Bool.false_eq_true, if_false, if_true]

/-- cSHAKE at the smallest rate. -/
def cshakeConfig : Sha3PadConfig := ⟨0x0153010001#352, .CShake, .L512⟩

/-- A cycle in which the round logic does not stall. -/
def promptIn (data : BitVec 64) (strb : BitVec 8) (start msg_valid process : Bool) :
    Sha3PadIn true where
  msg_valid_i := msg_valid
  msg_data_i := fun k => if k.val = 0 then 0x1234#64 else data ^^^ 0x1234#64
  msg_strb_i := strb
  keccak_ready_i := true
  keccak_complete_i := true
  start_i := start
  process_i := process
  done_i := MuBi4False
  lc_escalate_en_i := LcTx.Off

/-- Eleven bytes in two shares: the prefix block, a word, a partial word, and the padding. -/
def promptInputs : List (Sha3PadIn true) :=
  List.replicate 11 (promptIn 0xffff#64 0xff#8 false false false) ++
    [promptIn 0x0706050403020100#64 0xff#8 false true false,
      promptIn 0x0a0908#64 0x07#8 false true false, promptIn 0 0 false false true] ++
    List.replicate 10 (promptIn 0 0 false false false)

theorem sha3pad_absorbs_eleven_bytes :
    ∃ (s : Absorb true) (blocks : List (List (BitVec 64))),
      run (Absorb.step cshakeConfig) (.start cshakeConfig .reset (promptIn 0 0 true false false)
        [0x0706050403020100#64] (some ⟨3, by decide, 0x0a0908#64⟩)) promptInputs = some s ∧
      blocks.flatten.flatMap bits =
        cshakeConfig.absorbed [0, 1, 2, 3, 4, 5, 6, 7, 8, 9, 10] ∧
      s.events = blocks.flatMap Absorb.blockEvents := by
  obtain ⟨s, hrun, hpulse⟩ : ∃ s : Absorb true,
      run (Absorb.step cshakeConfig) (.start cshakeConfig .reset (promptIn 0 0 true false false)
        [0x0706050403020100#64] (some ⟨3, by decide, 0x0a0908#64⟩)) promptInputs = some s ∧
      s.pulses = 1 := by
    have hpulse : ((run (Absorb.step cshakeConfig) (.start cshakeConfig .reset
        (promptIn 0 0 true false false) [0x0706050403020100#64]
        (some ⟨3, by decide, 0x0a0908#64⟩)) promptInputs).map (·.pulses)) = some 1 := by
      decide +kernel
    obtain ⟨s, hrun, hs⟩ := Option.map_eq_some_iff.mp hpulse
    exact ⟨s, hrun, hs⟩
  obtain ⟨blocks, -, hbits, -, -, hevents, -⟩ :=
    sha3pad_absorbs cshakeConfig Sha3Pad.ready_reset ⟨rfl, rfl, rfl⟩ hrun
  exact ⟨s, blocks, hrun, hbits, hevents hpulse⟩

end SecureBoot
