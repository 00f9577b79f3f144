import SecureBoot.Tlul.AdapterSram

/-! The check bits of the responses of `tlul_adapter_sram`. They go through a multiplexer of their
own, which agrees with that of the data except where the SRAM flags the word of a read. -/

namespace SecureBoot.Tlul

/-! ### Words in a FIFO -/

namespace SyncQueue

variable {α : Type} {Depth : ℕ} {Pass : Bool} {q : SyncQueue α} {wvalid_i rready_i : Bool}
  {wdata_i zero : α} {P : α → Prop}

/-- What holds of the stored words and of the one that is written holds after the edge. -/
theorem forall_clock (hwords : ∀ w ∈ q.words, P w) (hwdata : wvalid_i = true → P wdata_i) :
    ∀ w ∈ (q.clock Depth Pass wvalid_i wdata_i rready_i).words, P w := by
  intro w hw
  simp only [clock] at hw
  obtain hmem | ⟨hvalid, heq⟩ := BoundedQueue.mem_next hw
  · exact hwords w hmem
  · rw [heq]
    exact hwdata (Bool.and_eq_true_iff.mp hvalid).1

/-- The word that is shown is a stored one, or the one that is written. -/
theorem rdata_of_forall (hwords : ∀ w ∈ q.words, P w) (hwdata : wvalid_i = true → P wdata_i)
    (hvalid : q.rvalid_o Pass wvalid_i = true) : P (q.rdata_o Pass wvalid_i wdata_i zero) := by
  cases hq : q.words with
  | nil =>
    simp only [rvalid_o, hq, Bool.and_eq_true, List.isEmpty_nil, Bool.not_true,
      Bool.false_or] at hvalid
    simpa [rdata_o, hq, hvalid.2] using hwdata hvalid.2.2
  | cons w words =>
    rw [rdata_o, hq]
    exact hwords w (by simp [hq])

end SyncQueue

namespace AdapterSram

variable (p : SramParams)

/-- The check bits of a word belong to its data. -/
def Intact (word : BitVec 39) : Prop :=
  word.extractLsb' 32 7 = get_data_intg (word.extractLsb' 0 32)

instance (word : BitVec 39) : Decidable (Intact word) := inferInstanceAs (Decidable (_ = _))

theorem intact_zeroWord : Intact SecdedInv3932ZeroWord := by
  rw [Intact]
  exact get_data_intg_zero.symm

section Cycle

variable {p} {s : AdapterSram p.WoffsetWidth} {i : SramIn p.WoffsetWidth}

theorem intact_rdata_tlword (hword : ∀ woff, Intact (i.rdata_i woff)) :
    Intact (rdata_tlword p s i) := by
  rw [rdata_tlword]
  split_ifs
  · exact hword _
  · exact intact_zeroWord

theorem error_blanking_integ_eq :
    error_blanking_integ p s i = get_data_intg (error_blanking_data p s i) := by
  rw [error_blanking_integ, error_blanking_data]
  split_ifs <;> rfl

/-- Both kinds of blanking data have the check bits of zero. -/
theorem get_data_intg_blanking :
    get_data_intg (error_blanking_data p s i) = SecdedInv3932ZeroEcc := by
  rw [error_blanking_data]
  split_ifs
  · exact get_data_intg_zero
  · exact get_data_intg_allOnes

theorem d_valid_of_tl_o (h : (tl_o p s i).d_valid = true) : d_valid p s i = true := by
  have hout : (tl_out p s i).d_valid = true := h
  rw [tl_out] at hout
  split_ifs at hout
  · exact (Bool.and_eq_true_iff.mp hout).1
  · exact hout

theorem tl_o_d_data : (tl_o p s i).d_data = d_data p s i := by
  have hout : (tl_o p s i).d_data = (tl_out p s i).d_data := rfl
  rw [hout, tl_out]
  split_ifs <;> rfl

theorem tl_o_data_intg : (tl_o p s i).d_user.data_intg = data_intg p s i := by
  have hout : (tl_o p s i).d_user.data_intg = (tl_out p s i).d_user.data_intg := rfl
  rw [hout, tl_out]
  split_ifs <;> rfl

/-- The answered request is a read that the adapter forwarded, and the SRAM flags its word, with
check bits other than those of the blanking data. -/
def FlaggedRead (p : SramParams) (s : AdapterSram p.WoffsetWidth) (i : SramIn p.WoffsetWidth) :
    Prop :=
  ((reqfifo_rdata p s i).op = .OpRead ∧ (reqfifo_rdata p s i).error = false) ∧
    (rspfifo_rdata p s i).error = true ∧
      (rspfifo_rdata p s i).data_intg ≠ SecdedInv3932ZeroEcc

instance : Decidable (FlaggedRead p s i) := inferInstanceAs (Decidable (_ ∧ _))

/-- The two multiplexers, for a response that is there. -/
theorem data_intg_iff (hvalid : d_valid p s i = true)
    (hrsp : rspfifo_rvalid p s i = true →
      (rspfifo_rdata p s i).data_intg = get_data_intg (rspfifo_rdata p s i).data) :
    data_intg p s i = get_data_intg (d_data p s i) ↔ ¬ FlaggedRead p s i := by
  have hreq : reqfifo_rvalid p s = true := by
    by_contra hreq
    simp [d_valid, hreq] at hvalid
  by_cases hread : (reqfifo_rdata p s i).op = .OpRead
  · cases herror : (reqfifo_rdata p s i).error with
    | true =>
      -- A rejected read, whether or not the SRAM has a word for a later one.
      have hd : d_data p s i = error_blanking_data p s i := by
        simp [d_data, d_error, hreq, hread, herror]
      have hflag : ¬ FlaggedRead p s i := by simp [FlaggedRead, herror]
      rw [hd, iff_true_right hflag, data_intg, error_blanking_integ_eq, get_data_intg_blanking]
      split_ifs with h₁ h₂
      · rfl
      · simp [h₂, herror] at h₁
      · rfl
    | false =>
      have hfifo : rspfifo_rvalid p s i = true := by
        simpa [d_valid, hreq, herror, hread] using hvalid
      have hvld : vld_rd_rsp p s i = true := by simp [vld_rd_rsp, hvalid, hreq, hfifo, hread]
      have hintg : data_intg p s i = (rspfifo_rdata p s i).data_intg := by
        simp [data_intg, hvld, herror]
      cases hflag : (rspfifo_rdata p s i).error with
      | true =>
        have hd : d_data p s i = error_blanking_data p s i := by
          simp [d_data, d_error, hreq, hread, hflag]
        rw [hintg, hd, get_data_intg_blanking]
        simp [FlaggedRead, hread, herror, hflag]
      | false =>
        have hd : d_data p s i = (rspfifo_rdata p s i).data := by
          simp [d_data, d_error, hvld, hreq, hread, herror, hflag]
        have hnot : ¬ FlaggedRead p s i := by simp [FlaggedRead, hflag]
        rw [hintg, hd, iff_true_right hnot]
        exact hrsp hfifo
  · -- A write has blanking data and the check bits of zero.
    have hvld : vld_rd_rsp p s i = false := by simp [vld_rd_rsp, hread]
    have hnot : ¬ FlaggedRead p s i := by simp [FlaggedRead, hread]
    rw [iff_true_right hnot, data_intg, d_data, hvld]
    simp [get_data_intg_blanking]

end Cycle

/-! ### Runs -/

section Run

variable {p} {u_sram_byte : SramByte} {inputs : ℕ → SramIn p.WoffsetWidth}

/-- What every returned word has, the words that wait in the response FIFO have. -/
theorem rspfifo_forall {P : Rsp → Prop}
    (hP : ∀ n s, (inputs n).rvalid_i = true → P (rspfifo_wdata p s (inputs n))) (n : ℕ) :
    ∀ r ∈ (Mealy.stateAt (clock p) (reset p u_sram_byte) inputs n).u_rspfifo.words, P r := by
  induction n with
  | zero =>
    intro r hr
    cases hr
  | succ n ih =>
    apply SyncQueue.forall_clock ih
    intro hvalid
    exact hP n _ (Bool.and_eq_true_iff.mp hvalid).1

/-- The check bits of a response belong to its data unless the SRAM flagged the word of a read. -/
theorem response_intact_iff
    (hwords : ∀ n, (inputs n).rvalid_i = true → ∀ woff, Intact ((inputs n).rdata_i woff)) (n : ℕ) :
    let s := Mealy.stateAt (clock p) (reset p u_sram_byte) inputs n
    let o := tl_o p s (inputs n)
    o.d_valid = true →
      (o.d_user.data_intg = get_data_intg o.d_data ↔ ¬ FlaggedRead p s (inputs n)) := by
  intro s o hvalid
  have hwdata (m : ℕ) (s : AdapterSram p.WoffsetWidth) (hm : (inputs m).rvalid_i = true) :
      (rspfifo_wdata p s (inputs m)).data_intg =
        get_data_intg (rspfifo_wdata p s (inputs m)).data :=
    intact_rdata_tlword (hwords m hm)
  rw [tl_o_data_intg, tl_o_d_data]
  apply data_intg_iff (d_valid_of_tl_o hvalid)
  apply SyncQueue.rdata_of_forall (P := fun r : Rsp => r.data_intg = get_data_intg r.data)
  · exact rspfifo_forall hwdata n
  · exact fun hn => hwdata n s (Bool.and_eq_true_iff.mp hn).1

end Run

/-! ### A read of one word -/

section Word

def wordParams : SramParams where
  SramAw := 12
  WoffsetWidth := 0
  Outstanding := 1
  ByteAccess := true
  ErrOnWrite := false
  ErrOnRead := false
  CmdIntgCheck := false
  EnableRspIntgGen := false

def wordByte : SramByte := .reset ⟨0#3, 0#2, 0#8, 0#32, 0#4, 0#32, ⟨0#5, 0#4, 0#7, 0#7⟩⟩ 0#32

/-- A read of address 0, and an SRAM that returns the word 1 with its check bits. -/
def wordIn (rerror_i : BitVec 2) : SramIn wordParams.WoffsetWidth where
  tl_i :=
    { a_valid := true
      a_opcode := Get
      a_param := 0#3
      a_size := 2#2
      a_source := 0#8
      a_address := 0#32
      a_mask := 0b1111#4
      a_data := 0#32
      a_user := ⟨0#5, MuBi4False, 0#7, 0#7⟩
      d_ready := true }
  en_ifetch_i := MuBi4False
  gnt_i := true
  rdata_i := fun _ => prim_secded_inv_39_32_enc 1#32
  rvalid_i := true
  rerror_i := rerror_i

theorem intact_wordIn (rerror_i : BitVec 2) (woff : BitVec wordParams.WoffsetWidth) :
    Intact ((wordIn rerror_i).rdata_i woff) := by
  have hone : Intact (prim_secded_inv_39_32_enc 1#32) := by decide +kernel
  exact hone

theorem response_intact_word :
    let s := Mealy.stateAt (clock wordParams) (reset wordParams wordByte) (fun _ => wordIn 0#2) 2
    let o := tl_o wordParams s (wordIn 0#2)
    o.d_valid = true ∧ o.d_user.data_intg = get_data_intg o.d_data := by
  intro s o
  have hvalid : o.d_valid = true := by decide +kernel
  have hnot : ¬ FlaggedRead wordParams s (wordIn 0#2) := by decide +kernel
  exact ⟨hvalid, (response_intact_iff (fun _ _ => intact_wordIn 0#2) 2 hvalid).mpr hnot⟩

/-- A flagged word: its data is blanked, its check bits are passed on. -/
theorem flagged_response_mismatch :
    let s := Mealy.stateAt (clock wordParams) (reset wordParams wordByte) (fun _ => wordIn 2#2) 2
    let o := tl_o wordParams s (wordIn 2#2)
    (∀ woff, Intact ((wordIn 2#2).rdata_i woff)) ∧ o.d_valid = true ∧
      o.d_user.data_intg ≠ get_data_intg o.d_data := by
  refine ⟨intact_wordIn 2#2, ?_⟩
  decide +kernel

end Word

end AdapterSram

end SecureBoot.Tlul
