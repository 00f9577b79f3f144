import SecureBoot.LcCtrl.Fsm
import SecureBoot.Prim.Count
import SecureBoot.Prim.Pkg

/-! The padding logic of the SHA-3 core (`sha3pad`), which feeds the prefix, the message and
the padding into the Keccak state word by word, in one share or masked in two. -/

namespace SecureBoot

/-! ### `sha3_pkg` -/

/-- `sha3_mode_e`. -/
inductive Sha3Mode
  | Sha3
  | Shake
  | CShake
  deriving DecidableEq

/-- `keccak_strength_e`. -/
inductive KeccakStrength
  | L128
  | L224
  | L256
  | L384
  | L512
  deriving DecidableEq

namespace KeccakStrength

/-- `KeccakRate`, the words of a block. -/
def keccakRate : KeccakStrength → ℕ
  | .L128 => 21
  | .L224 => 18
  | .L256 => 17
  | .L384 => 13
  | .L512 => 9

/-- The first two bytes of `bytepad()`. -/
def encode_bytepad_len : KeccakStrength → BitVec 16
  | .L128 => 0xa801#16
  | .L224 => 0x9001#16
  | .L256 => 0x8801#16
  | .L384 => 0x6801#16
  | .L512 => 0x4801#16

end KeccakStrength

/-- The number of shares. -/
abbrev share (EnMasking : Bool) : ℕ := if EnMasking then 2 else 1

/-- The shares of a word of `w` bits. -/
abbrev Shares (EnMasking : Bool) (w : ℕ) := Fin (share EnMasking) → BitVec w

namespace Shares

variable {EnMasking : Bool} {w : ℕ}

/-- The word that the shares stand for. -/
def unmask (x : Shares EnMasking w) : BitVec w := (List.ofFn x).foldl (· ^^^ ·) 0

/-- A public word in the last share. -/
def inLast (x : BitVec w) : Shares EnMasking w :=
  fun k => if k.val + 1 = share EnMasking then x else 0

theorem unmask_inLast (x : BitVec w) : (inLast x : Shares EnMasking w).unmask = x := by
  cases EnMasking
  · change 0 ^^^ x = x
    exact BitVec.zero_xor
  · change 0 ^^^ 0 ^^^ x = x
    rw [BitVec.xor_self, BitVec.zero_xor]

theorem unmask_setWidth (x : Shares EnMasking w) (v : ℕ) :
    unmask (fun k => (x k).setWidth v : Shares EnMasking v) = x.unmask.setWidth v := by
  cases EnMasking
  · change BitVec.ofNat v 0 ^^^ (x 0).setWidth v = (BitVec.ofNat w 0 ^^^ x 0).setWidth v
    rw [BitVec.zero_xor, BitVec.zero_xor]
  · change BitVec.ofNat v 0 ^^^ (x 0).setWidth v ^^^ (x 1).setWidth v =
      (BitVec.ofNat w 0 ^^^ x 0 ^^^ x 1).setWidth v
    rw [BitVec.zero_xor, BitVec.zero_xor, BitVec.setWidth_xor]

end Shares

/-! ### `sha3pad` -/

/-- `pad_st_e`. -/
inductive PadSt
  | StPadIdle
  | StPrefix
  | StPrefixWait
  | StMessage
  | StMessageWait
  | StPad
  | StPadRun
  | StPad01
  | StPadFlush
  | StTerminalError
  deriving DecidableEq

/-- `mux_sel_e`. -/
inductive PadMuxSel
  | MuxNone
  | MuxFifo
  | MuxPrefix
  | MuxFuncPad
  | MuxZeroEnd
  deriving DecidableEq

structure Sha3PadIn (EnMasking : Bool) where
  msg_valid_i : Bool
  msg_data_i : Shares EnMasking 64
  msg_strb_i : BitVec 8
  keccak_ready_i : Bool
  keccak_complete_i : Bool
  start_i : Bool
  process_i : Bool
  done_i : Mubi4
  lc_escalate_en_i : LcTx

/-- The configuration that stays the same while a message is absorbed. -/
structure Sha3PadConfig where
  ns_data_i : BitVec (44 * 8)
  mode_i : Sha3Mode
  strength_i : KeccakStrength

structure Sha3Pad (EnMasking : Bool) where
  st : PadSt
  u_sentmsg_count : CountRegs 5
  process_latched : Bool
  absorbed_o : Mubi4
  msg_buf : Shares EnMasking 56
  msg_strb : BitVec 7

namespace Sha3Pad

variable {EnMasking : Bool}

def reset : Sha3Pad EnMasking where
  st := .StPadIdle
  u_sentmsg_count := primCountReset 0
  process_latched := false
  absorbed_o := MuBi4False
  msg_buf := fun _ => 0
  msg_strb := 0

variable (c : Sha3PadConfig) (r : Sha3Pad EnMasking) (i : Sha3PadIn EnMasking)

/-! ### Control -/

def block_addr_limit : BitVec 5 := BitVec.ofNat 5 c.strength_i.keccakRate

def sent_message : BitVec 5 := r.u_sentmsg_count.primary

def sent_blocksize : Bool := r.sent_message == block_addr_limit c

def end_of_block : Bool := r.sent_message + 1 == block_addr_limit c

def msg_partial : Bool := i.msg_strb_i != .allOnes 8

/-- `keccak_addr_o`, and `prefix_index`. -/
def keccak_addr_o : BitVec 5 := if r.sent_message < block_addr_limit c then r.sent_message else 0

/-- The outputs of the state machine. -/
structure Ctrl where
  st_d : PadSt
  keccak_run_o : Bool
  sel_mux : PadMuxSel
  fsm_keccak_valid : Bool
  hold_msg : Bool
  clr_sentmsg : Bool
  en_msgbuf : Bool
  clr_msgbuf : Bool
  absorbed_d : Mubi4
  sparse_fsm_error_o : Bool

def Ctrl.default : Ctrl where
  st_d := r.st
  keccak_run_o := false
  sel_mux := .MuxNone
  fsm_keccak_valid := false
  hold_msg := false
  clr_sentmsg := false
  en_msgbuf := false
  clr_msgbuf := false
  absorbed_d := MuBi4False
  sparse_fsm_error_o := false

/-- The state machine, up to the escalation. -/
def ctrlState : Ctrl :=
  let o := Ctrl.default r
  match r.st with
  | .StPadIdle =>
    if i.start_i then
      { o with st_d := if c.mode_i = .CShake then .StPrefix else .StMessage }
    else o
  | .StPrefix =>
    let o := { o with sel_mux := .MuxPrefix }
    if r.sent_blocksize c then
      { o with st_d := .StPrefixWait, keccak_run_o := true, clr_sentmsg := true }
    else { o with fsm_keccak_valid := true }
  | .StPrefixWait =>
    { o with sel_mux := .MuxPrefix
             st_d := if i.keccak_complete_i then .StMessage else .StPrefixWait }
  | .StMessage =>
    let o := { o with sel_mux := .MuxFifo }
    if i.msg_valid_i && msg_partial i then { o with en_msgbuf := true }
    else if r.sent_blocksize c then
      { o with st_d := .StMessageWait, keccak_run_o := true, clr_sentmsg := true,
               hold_msg := true }
    else if r.process_latched || i.process_i then { o with st_d := .StPad, hold_msg := true }
    else o
  | .StMessageWait =>
    { o with hold_msg := true
             st_d := if i.keccak_complete_i then .StMessage else .StMessageWait }
  | .StPad =>
    let o := { o with sel_mux := .MuxFuncPad, fsm_keccak_valid := true }
    -- The output is valid here, so it is acknowledged when the round logic is ready.
    let keccak_ack := i.keccak_ready_i
    if keccak_ack && r.end_of_block c then
      { o with st_d := .StPadRun, clr_msgbuf := true, clr_sentmsg := true }
    else if keccak_ack then { o with st_d := .StPad01, clr_msgbuf := true }
    else o
  | .StPadRun => { o with st_d := .StPadFlush, keccak_run_o := true, clr_sentmsg := true }
  | .StPad01 =>
    let o := { o with sel_mux := .MuxZeroEnd }
    if r.sent_blocksize c then
      { o with st_d := .StPadFlush, keccak_run_o := true, clr_sentmsg := true }
    else { o with fsm_keccak_valid := true }
  | .StPadFlush =>
    let o := { o with clr_sentmsg := true, clr_msgbuf := true }
    if i.keccak_complete_i then { o with st_d := .StPadIdle, absorbed_d := MuBi4True } else o
  | .StTerminalError => { o with sparse_fsm_error_o := true }

/-- The state machine. -/
def ctrl : Ctrl :=
  let o := r.ctrlState c i
  if i.lc_escalate_en_i != LcTx.Off then { o with st_d := .StTerminalError } else o

/-! ### Datapath -/

/-- `prefix_sliced`, for `prefix = {ns_data_i, encode_bytepad}`. -/
def prefix_sliced (index : ℕ) : BitVec 64 :=
  ((c.ns_data_i ++ c.strength_i.encode_bytepad_len).setWidth (64 * 32)).extractLsb' (index * 64) 64

def funcpad : BitVec 5 :=
  match c.mode_i with
  | .Sha3 => 0b00110#5
  | .Shake => 0b11111#5
  | .CShake => 0b00100#5

def zero_with_endbit : BitVec 64 := BitVec.ofBool (r.end_of_block c) ++ 0#63

/-- The bytes that a strobe of consecutive ones selects. -/
def strbBytes (msg_strb : BitVec 7) : Option ℕ :=
  (List.range 8).find? fun n => msg_strb == BitVec.ofNat 7 (2 ^ n - 1)

/-- `{end_of_block, (63 - 8 * n)'(funcpad), msg_buf[8 * n - 1:0]}`. -/
def funcpadMerged (end_of_block : Bool) (n : ℕ) (msg_buf : BitVec 56) : BitVec 64 :=
  (BitVec.ofBool end_of_block ++ (funcpad c).setWidth (63 - 8 * n) ++
    msg_buf.setWidth (8 * n)).setWidth 64

def funcpad_data : Shares EnMasking 64 := fun k =>
  match strbBytes r.msg_strb with
  | none => 0
  | some n =>
    if k.val + 1 = share EnMasking then funcpadMerged c (r.end_of_block c) n (r.msg_buf k)
    else ((r.msg_buf k).setWidth (8 * n)).setWidth 64

def keccak_data_o : Shares EnMasking 64 :=
  match (r.ctrl c i).sel_mux with
  | .MuxFifo => i.msg_data_i
  | .MuxPrefix => .inLast (prefix_sliced c (r.keccak_addr_o c).toNat)
  | .MuxFuncPad => r.funcpad_data c
  | .MuxZeroEnd => .inLast (r.zero_with_endbit c)
  | .MuxNone => fun _ => 0

def keccak_valid_o : Bool :=
  let o := r.ctrl c i
  match o.sel_mux with
  | .MuxFifo => i.msg_valid_i && !o.hold_msg && !o.en_msgbuf
  | .MuxNone => false
  | _ => o.fsm_keccak_valid

def msg_ready_o : Bool :=
  let o := r.ctrl c i
  match o.sel_mux with
  | .MuxFifo => o.en_msgbuf || (i.keccak_ready_i && !o.hold_msg)
  | _ => false

def msg_count_error_o : Bool := r.u_sentmsg_count.err_o

/-- A clock cycle. -/
def clock : Sha3Pad EnMasking :=
  let o := r.ctrl c i
  { st := o.st_d
    u_sentmsg_count := primCount 0 r.u_sentmsg_count
      { clr_i := o.clr_sentmsg
        set_i := false
        set_cnt_i := 0
        incr_en_i := r.keccak_valid_o c i && i.keccak_ready_i
        decr_en_i := false
        step_i := 1 }
    process_latched :=
      if i.process_i then true
      else if mubi4_test_true_strict i.done_i then false else r.process_latched
    absorbed_o := o.absorbed_d
    msg_buf :=
      if o.en_msgbuf then fun k => (i.msg_data_i k).setWidth 56
      else if o.clr_msgbuf then fun _ => 0 else r.msg_buf
    msg_strb :=
      if o.en_msgbuf then i.msg_strb_i.setWidth 7 else if o.clr_msgbuf then 0 else r.msg_strb }

/-! ### Padding words -/

theorem funcpadMerged_xor (e : Bool) (n : ℕ) (x y : BitVec 56) :
    (x.setWidth (8 * n)).setWidth 64 ^^^ funcpadMerged c e n y = funcpadMerged c e n (x ^^^ y) := by
  apply BitVec.eq_of_getLsbD_eq
  intro k hk
  simp only [funcpadMerged, BitVec.getLsbD_xor, BitVec.getLsbD_setWidth, BitVec.getLsbD_append]
  by_cases hlt : k < 8 * n <;> simp [hlt, hk]

theorem funcpadMerged_congr (e : Bool) (n : ℕ) {x y : BitVec 56}
    (h : x.setWidth (8 * n) = y.setWidth (8 * n)) :
    funcpadMerged c e n x = funcpadMerged c e n y := by
  rw [funcpadMerged, h, funcpadMerged]

/-- The padding goes after the bytes that the shares stand for. -/
theorem unmask_funcpad_data {n : ℕ} (h : strbBytes r.msg_strb = some n) :
    (r.funcpad_data c).unmask = funcpadMerged c (r.end_of_block c) n r.msg_buf.unmask := by
  cases EnMasking
  · have hdata : r.funcpad_data c =
        fun k => funcpadMerged c (r.end_of_block c) n (r.msg_buf k) := by
      funext k
      have hlt : k.val < 1 := k.isLt
      have hk : k.val + 1 = share false := by
        change k.val + 1 = 1
        omega
      simp only [funcpad_data, h, hk, if_true]
    rw [hdata]
    change 0#64 ^^^ funcpadMerged c _ n (r.msg_buf 0) = funcpadMerged c _ n (0#56 ^^^ r.msg_buf 0)
    rw [BitVec.zero_xor, BitVec.zero_xor]
  · have h0 : r.funcpad_data c (0 : Fin 2) =
        ((r.msg_buf (0 : Fin 2)).setWidth (8 * n)).setWidth 64 := by
      simp only [funcpad_data, h]
      rfl
    have h1 : r.funcpad_data c (1 : Fin 2) =
        funcpadMerged c (r.end_of_block c) n (r.msg_buf (1 : Fin 2)) := by
      simp only [funcpad_data, h]
      rfl
    change 0#64 ^^^ r.funcpad_data c (0 : Fin 2) ^^^ r.funcpad_data c (1 : Fin 2) =
      funcpadMerged c _ n (0#56 ^^^ r.msg_buf (0 : Fin 2) ^^^ r.msg_buf (1 : Fin 2))
    rw [BitVec.zero_xor, BitVec.zero_xor, h0, h1, funcpadMerged_xor]

/-! ### Counting -/

theorem keccakRate_pos (s : KeccakStrength) : 0 < s.keccakRate := by cases s <;> decide

theorem keccakRate_le (s : KeccakStrength) : s.keccakRate ≤ 21 := by cases s <;> decide

theorem toNat_block_addr_limit : (block_addr_limit c).toNat = c.strength_i.keccakRate := by
  have h := keccakRate_le c.strength_i
  rw [block_addr_limit, BitVec.toNat_ofNat, Nat.mod_eq_of_lt (by omega)]

theorem sent_blocksize_eq :
    r.sent_blocksize c = decide (r.sent_message.toNat = c.strength_i.keccakRate) := by
  rw [sent_blocksize, ← toNat_block_addr_limit, Bool.eq_iff_iff, beq_iff_eq, decide_eq_true_iff,
    BitVec.toNat_inj]

variable (hle : r.sent_message.toNat ≤ c.strength_i.keccakRate)
include hle

theorem end_of_block_eq :
    r.end_of_block c = decide (r.sent_message.toNat + 1 = c.strength_i.keccakRate) := by
  have h := keccakRate_le c.strength_i
  have hnext : (r.sent_message + 1).toNat = r.sent_message.toNat + 1 := by
    rw [BitVec.toNat_add, show (1 : BitVec 5).toNat = 1 from rfl, Nat.mod_eq_of_lt (by omega)]
  rw [end_of_block, ← toNat_block_addr_limit, Bool.eq_iff_iff, beq_iff_eq, decide_eq_true_iff,
    ← BitVec.toNat_inj, hnext]

omit hle in
theorem keccak_addr_o_eq (hlt : r.sent_message.toNat < c.strength_i.keccakRate) :
    (r.keccak_addr_o c).toNat = r.sent_message.toNat := by
  rw [keccak_addr_o, if_pos (by rw [BitVec.lt_def, toNat_block_addr_limit]; exact hlt)]

theorem sent_message_clock :
    (r.clock c i).sent_message.toNat =
      if (r.ctrl c i).clr_sentmsg then 0
      else if r.keccak_valid_o c i && i.keccak_ready_i then r.sent_message.toNat + 1
      else r.sent_message.toNat := by
  have h := keccakRate_le c.strength_i
  simp only [clock, sent_message, primCount]
  cases hclr : (r.ctrl c i).clr_sentmsg
  · cases hinc : r.keccak_valid_o c i && i.keccak_ready_i
    · rw [cntD_hold]
      rfl
    · rw [toNat_cntD_incr, show (1 : BitVec 5).toNat = 1 from rfl, Nat.min_eq_left]
      · rfl
      · have : r.u_sentmsg_count.primary.toNat ≤ c.strength_i.keccakRate := hle
        omega
  · rfl

end Sha3Pad

end SecureBoot
