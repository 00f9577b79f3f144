import SecureBoot.Prim.RamScrMemory

/-! Requests that `intg_error_i` flags in `prim_ram_1p_scr`. The flag of a write is kept until the
next write and silences the macro for all requests in between, and a flag keeps an earlier write
from the macro without keeping it in the holding registers. Away from these cycles the flagged
requests leave no trace. -/

namespace SecureBoot

open MaskedMem

namespace RamScr

variable {P : RamScrParams} (key_i : BitVec 128) (nonce_i : BitVec P.NonceWidth)
  {r : RamScr P} {i : RamScrIn P} {spec : BitVec P.AddrWidth → BitVec P.Width}

/-- A cycle in which the registers treat flagged requests apart from the others. -/
structure StepOk (r : RamScr P) (i : RamScrIn P) : Prop where
  /-- No write of an earlier cycle goes to the macro under a flag. -/
  flagged : i.intg_error_i = true → i.read_en = false → r.intg_error_w_q = false →
    (r.write_en_q || r.write_pending_q) = false
  /-- No read follows a flagged write before the next write. -/
  read : i.intg_error_i = false → i.read_en = true → r.intg_error_w_q = false
  /-- No write finds a flagged one in the holding registers. -/
  write : i.intg_error_i = false → i.write_en_d = true → r.intg_error_w_q = true →
    r.write_pending_q = false
  ok : i.intg_error_i = false → InOk i

/-- Every cycle of a run is such a cycle. -/
def RunOk (r : RamScr P) : List (RamScrIn P) → Prop
  | [] => True
  | i :: events => StepOk r i ∧ RunOk (clock key_i nonce_i r i) events

/-- The memory that the macro and the holding registers make up, where a flagged write in these
registers counts for nothing. -/
structure FlagInv (r : RamScr P) (spec : BitVec P.AddrWidth → BitVec P.Width) : Prop where
  clear : r.intg_error_w_q = false → r.Inv key_i nonce_i spec
  flagged : r.intg_error_w_q = true →
    ∀ a, a.toNat < P.Depth → r.content key_i nonce_i a = spec a

/-! ### A cycle -/

theorem mem_clock_of_intg_error_w_q (h : r.intg_error_w_q = true) :
    (clock key_i nonce_i r i).mem = r.mem := by
  simp [clock, macro_req, h]

theorem mem_clock_of_intg_error_i (h : i.intg_error_i = true) :
    (clock key_i nonce_i r i).mem = r.mem := by
  simp [clock, macro_req, h]

theorem content_congr {r' : RamScr P} (h : r'.mem = r.mem) (a : BitVec P.AddrWidth) :
    r'.content key_i nonce_i a = r.content key_i nonce_i a := by
  rw [content, content, h]

/-- A flagged write keeps the memory as it is. -/
theorem flagInv_of_flagged_write (hflag : i.intg_error_i = true) (hwrite : i.write_en_d = true)
    (hcontent : ∀ a, a.toNat < P.Depth → r.content key_i nonce_i a = spec a) :
    (clock key_i nonce_i r i).FlagInv key_i nonce_i spec where
  clear h := by simp [clock, hwrite, hflag] at h
  flagged _ a ha := by
    rw [content_congr key_i nonce_i (mem_clock_of_intg_error_i key_i nonce_i hflag), hcontent a ha]

theorem flagInv_clock_of_clear (hP : P.Valid) (h : r.Inv key_i nonce_i spec) (hi : StepOk r i) :
    (clock key_i nonce_i r i).FlagInv key_i nonce_i
      (if i.write_en_d && !i.intg_error_i then (write i).apply spec else spec) := by
  cases hflag : i.intg_error_i with
  | false =>
    have hclock := inv_clock key_i nonce_i hP h (hi.ok hflag)
    rw [Bool.not_false, Bool.and_true]
    exact ⟨fun _ => hclock, fun he => absurd hclock.intg_error_w_q (by simp [he])⟩
  | true =>
    rw [Bool.not_true, Bool.and_false, if_neg Bool.false_ne_true]
    cases hread : i.read_en with
    | true =>
      have hclock := inv_clock_of_read key_i nonce_i h hread
      exact ⟨fun _ => hclock, fun he => absurd hclock.intg_error_w_q (by simp [he])⟩
    | false =>
      have hcontent := h.content (hi.flagged hflag hread h.intg_error_w_q)
      cases hwrite : i.write_en_d with
      | true =>
        exact flagInv_of_flagged_write key_i nonce_i hflag hwrite fun a ha => (hcontent a ha).symm
      | false =>
        have hclock : (clock key_i nonce_i r i).Inv key_i nonce_i spec := by
          apply inv_clock_of_idle key_i nonce_i hread hwrite h.intg_error_w_q
          intro a ha
          rw [content_congr key_i nonce_i (mem_clock_of_intg_error_i key_i nonce_i hflag),
            hcontent a ha]
        exact ⟨fun _ => hclock, fun he => absurd hclock.intg_error_w_q (by simp [he])⟩

theorem flagInv_clock_of_flagged (he : r.intg_error_w_q = true) (hi : StepOk r i)
    (hcontent : ∀ a, a.toNat < P.Depth → r.content key_i nonce_i a = spec a) :
    (clock key_i nonce_i r i).FlagInv key_i nonce_i
      (if i.write_en_d && !i.intg_error_i then (write i).apply spec else spec) := by
  have hclock : ∀ a, a.toNat < P.Depth →
      (clock key_i nonce_i r i).content key_i nonce_i a = spec a := by
    intro a ha
    rw [content_congr key_i nonce_i (mem_clock_of_intg_error_w_q key_i nonce_i he), hcontent a ha]
  cases hwrite : i.write_en_d with
  | false =>
    have he' : (clock key_i nonce_i r i).intg_error_w_q = true := by simp [clock, hwrite, he]
    rw [Bool.false_and, if_neg Bool.false_ne_true]
    exact ⟨fun h => absurd he' (by simp [h]), fun _ => hclock⟩
  | true =>
    cases hflag : i.intg_error_i with
    | true => exact flagInv_of_flagged_write key_i nonce_i hflag hwrite hcontent
    | false =>
      have hread : i.read_en = false := not_read_of_write hwrite
      have hempty : r.write_scr_pending_d i = false := by
        simp [write_scr_pending_d, rw_collision, hread, hi.write hflag hwrite he]
      have hinv := inv_clock_of_write key_i nonce_i (hi.ok hflag) hwrite hempty hclock
      exact ⟨fun _ => hinv, fun h => absurd hinv.intg_error_w_q (by simp [h])⟩

/-- Flagged requests do not change the memory, the other ones do as they should. -/
theorem flagInv_clock (hP : P.Valid) (h : r.FlagInv key_i nonce_i spec) (hi : StepOk r i) :
    (clock key_i nonce_i r i).FlagInv key_i nonce_i
      (if i.write_en_d && !i.intg_error_i then (write i).apply spec else spec) := by
  cases he : r.intg_error_w_q with
  | false => exact flagInv_clock_of_clear key_i nonce_i hP (h.clear he) hi
  | true => exact flagInv_clock_of_flagged key_i nonce_i he hi (h.flagged he)

/-- A cycle without a request leaves all of the memory in the macro. -/
theorem FlagInv.content_clock (hP : P.Valid) (h : r.FlagInv key_i nonce_i spec) (hi : StepOk r i)
    (hgnt : i.gnt_o = false) {a : BitVec P.AddrWidth} (ha : a.toNat < P.Depth) :
    (clock key_i nonce_i r i).content key_i nonce_i a = spec a := by
  have hread : i.read_en = false := by simp [RamScrIn.read_en, hgnt]
  cases he : r.intg_error_w_q with
  | true =>
    rw [content_congr key_i nonce_i (mem_clock_of_intg_error_w_q key_i nonce_i he),
      h.flagged he a ha]
  | false =>
    cases hflag : i.intg_error_i with
    | false =>
      exact content_clock_of_not_read key_i nonce_i hP (h.clear he) (hi.ok hflag) hread ha
    | true =>
      rw [content_congr key_i nonce_i (mem_clock_of_intg_error_i key_i nonce_i hflag),
        (h.clear he).content (hi.flagged hflag hread he) a ha]

/-! ### Runs -/

theorem flagInv_reset (mem : BitVec P.AddrWidth → BitVec P.Width) (rdata_scr : BitVec P.Width) :
    (reset mem rdata_scr).FlagInv key_i nonce_i ((reset mem rdata_scr).content key_i nonce_i) :=
  ⟨fun _ => inv_reset key_i nonce_i mem rdata_scr, nofun⟩

/-- The requests that no flag accompanies. -/
def unflagged (events : List (RamScrIn P)) : List (RamScrIn P) :=
  events.filter fun i => !i.intg_error_i

theorem flagInv_run (hP : P.Valid) (h : r.FlagInv key_i nonce_i spec) (events : List (RamScrIn P))
    (hok : RunOk key_i nonce_i r events) :
    (events.foldl (clock key_i nonce_i) r).FlagInv key_i nonce_i
      ((writes (unflagged events)).foldl Write.apply spec) := by
  induction events generalizing r spec with
  | nil => exact h
  | cons i events ih =>
    have hrun := ih (flagInv_clock key_i nonce_i hP h hok.1) hok.2
    rw [List.foldl_cons]
    cases hwrite : i.write_en_d <;> cases hflag : i.intg_error_i <;>
      simpa [writes, unflagged, hwrite, hflag] using hrun

/-- The cycle without its flagged request. -/
def dropFlagged (i : RamScrIn P) : RamScrIn P :=
  if i.intg_error_i then { i with req_i := false, write_i := false, intg_error_i := false } else i

theorem writes_map_dropFlagged (events : List (RamScrIn P)) :
    writes (events.map dropFlagged) = writes (unflagged events) := by
  induction events with
  | nil => rfl
  | cons i events ih =>
    rw [writes, writes] at ih
    cases hflag : i.intg_error_i with
    | true =>
      have hdrop : (dropFlagged i).write_en_d = false := by
        simp [dropFlagged, hflag, RamScrIn.write_en_d]
      simp [writes, unflagged, hdrop, hflag, ih]
    | false =>
      have hdrop : dropFlagged i = i := by simp [dropFlagged, hflag]
      cases hwrite : i.write_en_d <;> simp [writes, unflagged, hdrop, hflag, hwrite, ih]

theorem inOk_dropFlagged {events : List (RamScrIn P)} (hok : RunOk key_i nonce_i r events) :
    ∀ i ∈ events.map dropFlagged, InOk i := by
  induction events generalizing r with
  | nil => simp
  | cons i events ih =>
    rw [List.map_cons, List.forall_mem_cons]
    refine ⟨?_, ih hok.2⟩
    cases hflag : i.intg_error_i with
    | true =>
      rw [dropFlagged, hflag]
      exact ⟨rfl, nofun, nofun⟩
    | false =>
      rw [dropFlagged, hflag]
      exact hok.1.ok hflag

end RamScr

open RamScr in
/-- Flagged requests among others. Reads without a flag return what they return in the run without
the flagged requests, which is what the writes without a flag have written; the flagged ones are
not answered, and change nothing. -/
theorem ram_scr_drops_flagged (P : RamScrParams) (hP : P.Valid) (key_i : BitVec 128)
    (nonce_i : BitVec P.NonceWidth) (mem : BitVec P.AddrWidth → BitVec P.Width)
    (rdata_scr : BitVec P.Width) (events : List (RamScrIn P))
    (hok : RunOk key_i nonce_i (reset mem rdata_scr) events) :
    let r₀ : RamScr P := reset mem rdata_scr
    let r := events.foldl (clock key_i nonce_i) r₀
    let r' := (events.map dropFlagged).foldl (clock key_i nonce_i) r₀
    (∀ i i', StepOk r i → i.intg_error_i = false → i.read_en = true →
      (clock key_i nonce_i r i).rvalid_o = true ∧
        rdata_o key_i nonce_i (clock key_i nonce_i r i) i' =
          rdata_o key_i nonce_i (clock key_i nonce_i r' i) i' ∧
        ∀ j, (rdata_o key_i nonce_i (clock key_i nonce_i r i) i').getLsbD j =
          lastBit (r₀.content key_i nonce_i) (writes (unflagged events)) i.addr_i j) ∧
    (∀ i, i.intg_error_i = true ∨ i.read_en = false →
      (clock key_i nonce_i r i).rvalid_o = false) ∧
    ∀ i, StepOk r i → i.gnt_o = false → ∀ a, a.toNat < P.Depth →
      ∀ j, ((clock key_i nonce_i r i).content key_i nonce_i a).getLsbD j =
        lastBit (r₀.content key_i nonce_i) (writes (unflagged events)) a j := by
  intro r₀ r r'
  have h := flagInv_run key_i nonce_i hP (flagInv_reset key_i nonce_i mem rdata_scr) events hok
  have h' := inv_run key_i nonce_i hP (inv_reset key_i nonce_i mem rdata_scr)
    (events.map dropFlagged) (inOk_dropFlagged key_i nonce_i hok)
  rw [writes_map_dropFlagged] at h'
  refine ⟨fun i i' hi hflag hread => ?_, fun i hi => ?_, fun i hi hgnt a ha j => ?_⟩
  · have hinv := h.clear (hi.read hflag hread)
    obtain ⟨hvalid, hdata⟩ := rdata_o_clock key_i nonce_i hinv (hi.ok hflag) hread i'
    have hdata' := (rdata_o_clock key_i nonce_i h' (hi.ok hflag) hread i').2
    refine ⟨hvalid, hdata.trans hdata'.symm, fun j => ?_⟩
    rw [hdata, getLsbD_foldl_apply]
  · obtain hflag | hread := hi
    · simp [rvalid_o, clock, hflag]
    · simp [rvalid_o, clock, hread]
  · rw [h.content_clock key_i nonce_i hP hi hgnt ha, getLsbD_foldl_apply]

/-! ### A flagged write between two others -/

namespace RamScr

/-- A write of a byte at an address. -/
def byteWrite (addr_i : BitVec byteWords.AddrWidth) (wdata_i : BitVec byteWords.Width)
    (intg_error_i : Bool) : RamScrIn byteWords :=
  { (writeRequest wdata_i 0xff : RamScrIn byteWords) with addr_i, intg_error_i }

theorem ram_scr_drops_flagged_byte :
    let r₀ : RamScr byteWords := reset (fun _ => 0) 0
    let events := [byteWrite 0 0x56 true, byteWrite 0 0x12 false]
    ∀ j, (rdata_o 3 7 (clock 3 7 (events.foldl (clock 3 7) r₀) readRequest)
      idleRequest).getLsbD j = lastBit (r₀.content 3 7) (writes [byteWrite 0 0x12 false]) 0 j := by
  intro r₀ events
  have hflagged : StepOk r₀ (byteWrite 0 0x56 true) := ⟨fun _ _ _ => rfl, nofun, nofun, nofun⟩
  have hwrite : StepOk (clock 3 7 r₀ (byteWrite 0 0x56 true)) (byteWrite 0 0x12 false) :=
    ⟨nofun, nofun, fun _ _ _ => rfl, fun _ => inOk_writeRequest 0 0x12⟩
  have hread : StepOk (events.foldl (clock 3 7) r₀) readRequest :=
    ⟨nofun, fun _ _ => rfl, nofun, fun _ => inOk_readRequest⟩
  exact ((ram_scr_drops_flagged byteWords valid_byteWords 3 7 (fun _ => 0) 0 events
    ⟨hflagged, hwrite, trivial⟩).1 readRequest idleRequest hread rfl rfl).2.2

/-- The descrambled initial content is zero at address 0. -/
def byteReset : RamScr byteWords := reset (fun _ => scramble 3 7 0 0) 0

/-- A write, a flagged one at another address right after it, and one that lifts the flag. -/
def flaggedRun : List (RamScrIn byteWords) :=
  [byteWrite 0 0x12 false, byteWrite 1 0x56 true, byteWrite 1 0x34 false, idleRequest]

theorem flagInv_flaggedRun : (flaggedRun.foldl (clock 3 7) byteReset).FlagInv 3 7
    ((write (byteWrite 1 0x34 false)).apply (byteReset.content 3 7)) := by
  let r₁ : RamScr byteWords := clock 3 7 byteReset (byteWrite 0 0x12 false)
  let r₂ : RamScr byteWords := clock 3 7 r₁ (byteWrite 1 0x56 true)
  have hmem₁ : r₁.mem = byteReset.mem := mem_clock_of_not_pending 3 7 rfl
  have hmem₂ : r₂.mem = r₁.mem := mem_clock_of_intg_error_i 3 7 rfl
  have he : r₂.intg_error_w_q = true := rfl
  have h₂ : r₂.FlagInv 3 7 (byteReset.content 3 7) :=
    ⟨fun h => absurd h (by simp [he]), fun _ a _ => content_congr 3 7 (hmem₂.trans hmem₁) a⟩
  have hwrite : StepOk r₂ (byteWrite 1 0x34 false) :=
    ⟨nofun, nofun, fun _ _ _ => rfl, fun _ => inOk_writeRequest 1 0x34⟩
  have hidle : StepOk (clock 3 7 r₂ (byteWrite 1 0x34 false)) idleRequest :=
    ⟨nofun, nofun, nofun, fun _ => ⟨rfl, fun _ => by decide, nofun⟩⟩
  exact flagInv_clock 3 7 valid_byteWords (flagInv_clock 3 7 valid_byteWords h₂ hwrite) hidle

end RamScr

open RamScr in
/-- The flagged write takes the macro from the write that waits for it, which is lost. -/
theorem flagged_write_loses_write :
    (clock 3 7 (flaggedRun.foldl (clock 3 7) byteReset) readRequest).rvalid_o = true ∧
    ∃ j, (rdata_o 3 7 (clock 3 7 (flaggedRun.foldl (clock 3 7) byteReset) readRequest)
        idleRequest).getLsbD j ≠
      lastBit (byteReset.content 3 7) (writes (unflagged flaggedRun)) 0 j := by
  have hinv := flagInv_flaggedRun.clear rfl
  obtain ⟨hvalid, hdata⟩ := rdata_o_clock 3 7 hinv inOk_readRequest rfl idleRequest
  refine ⟨hvalid, exists_getLsbD_ne (getLsbD_foldl_apply _ _ _) ?_⟩
  have hzero : byteReset.content 3 7 0 = 0 := by
    rw [content, byteReset, reset, descramble, scramble, RamScrParams.diffuse_dec_enc (by decide)]
    simp
  have hold : (write (byteWrite 1 0x34 false)).apply (byteReset.content 3 7) 0 = 0 := by
    rw [Write.apply, Function.update_of_ne (by decide), hzero]
  intro heq
  have hbit := getLsbD_foldl_apply (byteReset.content 3 7) (writes (unflagged flaggedRun)) 0 1
  have hset : lastBit (byteReset.content 3 7) (writes (unflagged flaggedRun)) 0 1 = true := rfl
  rw [hset, ← heq, hdata] at hbit
  have hclear : (((write (byteWrite 1 0x34 false)).apply (byteReset.content 3 7)) 0).getLsbD 1 =
      false := by
    rw [hold]
    rfl
  exact Bool.false_ne_true (hclear.symm.trans hbit)

end SecureBoot
