import SecureBoot.Kmac.Sha3Pad

/-! The padding logic with its environment: the message that is delivered on the message port,
the writes and runs that the round logic sees, and the ones that are still to come. -/

namespace SecureBoot

open Clocked

variable {EnMasking : Bool}

/-! ### The environment -/

/-- A partial word: its low `n` bytes are selected. -/
structure PartialWord where
  n : ℕ
  n_lt : n < 8
  data : BitVec 64

/-- What the round logic sees. -/
inductive PadEvent
  | write (addr : ℕ) (word : BitVec 64)
  | run
  deriving DecidableEq

/-- The logic while it absorbs a message, with the words that are not delivered yet. -/
structure Absorb (EnMasking : Bool) where
  pad : Sha3Pad EnMasking
  words : List (BitVec 64)
  part : Option PartialWord
  events : List PadEvent
  /-- The pulses of `absorbed_o`. -/
  pulses : ℕ
  /-- The cycles in which nobody stalled. -/
  prompt : ℕ

namespace Absorb

/-- What may be on the message port. -/
def Offers (s : Absorb EnMasking) (i : Sha3PadIn EnMasking) : Prop :=
  match s.words, s.part with
  | w :: _, _ => i.msg_strb_i = .allOnes 8 ∧ i.msg_data_i.unmask = w
  | [], some p => i.msg_strb_i = BitVec.ofNat 8 (2 ^ p.n - 1) ∧ i.msg_data_i.unmask = p.data
  | [], none => False

instance (s : Absorb EnMasking) (i : Sha3PadIn EnMasking) : Decidable (s.Offers i) := by
  unfold Offers
  split <;> infer_instance

/-- The message comes in order, and `process_i` comes when it is delivered. -/
def Allowed (s : Absorb EnMasking) (i : Sha3PadIn EnMasking) : Prop :=
  (i.msg_valid_i = true → s.Offers i) ∧
    (i.process_i = true → s.words = [] ∧ s.part.isNone = true) ∧
    i.start_i = false ∧ mubi4_test_true_strict i.done_i = false ∧ i.lc_escalate_en_i = LcTx.Off
  deriving Decidable

/-- Nobody stalls in this cycle. -/
def Prompt (s : Absorb EnMasking) (i : Sha3PadIn EnMasking) : Prop :=
  i.keccak_ready_i = true ∧ i.keccak_complete_i = true ∧
    if s.words = [] ∧ s.part.isNone = true then s.pad.process_latched = true ∨ i.process_i = true
    else i.msg_valid_i = true
  deriving Decidable

variable (c : Sha3PadConfig)

/-- The events of a cycle. -/
def emitted (r : Sha3Pad EnMasking) (i : Sha3PadIn EnMasking) : List PadEvent :=
  (if r.keccak_valid_o c i && i.keccak_ready_i then
      [.write (r.keccak_addr_o c).toNat (r.keccak_data_o c i).unmask] else []) ++
    if (r.ctrl c i).keccak_run_o then [.run] else []

/-- A clock cycle. -/
def next (s : Absorb EnMasking) (i : Sha3PadIn EnMasking) : Absorb EnMasking :=
  let taken := i.msg_valid_i && s.pad.msg_ready_o c i
  { pad := s.pad.clock c i
    words := if taken then s.words.tail else s.words
    part := if taken && s.words.isEmpty then none else s.part
    events := s.events ++ emitted c s.pad i
    pulses := s.pulses + if (s.pad.clock c i).absorbed_o = MuBi4True then 1 else 0
    prompt := s.prompt + if s.Prompt i then 1 else 0 }

/-- A clock cycle, if the environment may do this. -/
def step (s : Absorb EnMasking) (i : Sha3PadIn EnMasking) : Option (Absorb EnMasking) :=
  if s.Allowed i then some (s.next c i) else none

/-! ### What is to come -/

/-- The events of writing words from address `k` on, with a run after each block of `R`. -/
def emit (R : ℕ) : ℕ → List (BitVec 64) → List PadEvent
  | _, [] => []
  | k, w :: ws => .write k w :: if k + 1 = R then .run :: emit R 0 ws else emit R (k + 1) ws

/-- The events after `k` words of a block, when the run of a full block is still to come. -/
def resume (R k : ℕ) (ws : List (BitVec 64)) : List PadEvent :=
  if k = R then .run :: emit R 0 ws else emit R k ws

theorem emit_cons (R k : ℕ) (w : BitVec 64) (ws : List (BitVec 64)) :
    emit R k (w :: ws) = .write k w :: resume R (k + 1) ws := rfl

theorem resume_of_lt {R k : ℕ} (h : k < R) (ws : List (BitVec 64)) :
    resume R k ws = emit R k ws :=
  if_neg h.ne

theorem resume_self (R : ℕ) (ws : List (BitVec 64)) : resume R R ws = .run :: emit R 0 ws :=
  if_pos rfl

/-- The words that fill a block from address `k` on, with the last bit set. -/
def zeroWords (R k : ℕ) : List (BitVec 64) :=
  (List.range' k (R - k)).map fun j => BitVec.ofBool (decide (j + 1 = R)) ++ 0#63

/-- The words of the padding from address `k` on. -/
def padWords (R : ℕ) (tail : PartialWord) (k : ℕ) : List (BitVec 64) :=
  Sha3Pad.funcpadMerged c (decide (k + 1 = R)) tail.n (tail.data.setWidth 56) :: zeroWords R (k + 1)

/-- The words of the message and its padding from address `k` on. -/
def messageWords (R : ℕ) (tail : PartialWord) (k : ℕ) (words : List (BitVec 64)) :
    List (BitVec 64) :=
  words ++ padWords c R tail ((k + words.length) % R)

def prefixWords (R : ℕ) : List (BitVec 64) := (List.range R).map (Sha3Pad.prefix_sliced c)

theorem zeroWords_of_lt {R k : ℕ} (h : k < R) :
    zeroWords R k = (BitVec.ofBool (decide (k + 1 = R)) ++ 0#63) :: zeroWords R (k + 1) := by
  rw [zeroWords, show R - k = (R - (k + 1)) + 1 by omega, List.range'_succ, List.map_cons]
  rfl

theorem zeroWords_self (R : ℕ) : zeroWords R R = [] := by
  rw [zeroWords, Nat.sub_self]
  rfl

theorem messageWords_cons (R : ℕ) (tail : PartialWord) (k : ℕ) (w : BitVec 64)
    (words : List (BitVec 64)) :
    messageWords c R tail k (w :: words) = w :: messageWords c R tail (k + 1) words := by
  rw [messageWords, messageWords, List.length_cons, List.cons_append,
    show k + (words.length + 1) = k + 1 + words.length by omega]

theorem messageWords_self (R : ℕ) (tail : PartialWord) (words : List (BitVec 64)) :
    messageWords c R tail R words = messageWords c R tail 0 words := by
  rw [messageWords, messageWords, Nat.add_mod_left, Nat.zero_add]

theorem messageWords_nil {R k : ℕ} (h : k < R) (tail : PartialWord) :
    messageWords c R tail k [] = padWords c R tail k := by
  rw [messageWords, List.length_nil, Nat.add_zero, Nat.mod_eq_of_lt h, List.nil_append]

/-- The words that were sent in this block. -/
def sent (s : Absorb EnMasking) : ℕ := s.pad.sent_message.toNat

/-- The events that are still to come. -/
def rest (tail : PartialWord) (s : Absorb EnMasking) : List PadEvent :=
  let R := c.strength_i.keccakRate
  let k := s.sent
  match s.pad.st with
  | .StPadIdle => []
  | .StPrefix => resume R k ((prefixWords c R).drop k ++ messageWords c R tail 0 s.words)
  | .StPrefixWait => emit R 0 (messageWords c R tail 0 s.words)
  | .StMessage => resume R k (messageWords c R tail k s.words)
  | .StMessageWait => emit R 0 (messageWords c R tail 0 s.words)
  | .StPad => emit R k (padWords c R tail k)
  | .StPadRun => [.run]
  | .StPad01 => resume R k (zeroWords R k)
  | .StPadFlush => []
  | .StTerminalError => []

/-- Everything was delivered. -/
def Delivered (s : Absorb EnMasking) : Prop := s.words = [] ∧ s.part = none

/-- The partial word is still to come, or it is buffered. -/
def Buffered (tail : PartialWord) (s : Absorb EnMasking) : Prop :=
  match s.part with
  | some p => p = tail
  | none => Sha3Pad.strbBytes s.pad.msg_strb = some tail.n ∧
      s.pad.msg_buf.unmask.setWidth (8 * tail.n) = tail.data.setWidth (8 * tail.n)

/-- What holds in each state. -/
def StateInv (tail : PartialWord) (s : Absorb EnMasking) : Prop :=
  match s.pad.st with
  | .StPadIdle => s.Delivered ∧ s.sent = 0 ∧ s.pad.msg_strb = 0
  | .StPrefix => s.Buffered tail
  | .StPrefixWait => s.sent = 0 ∧ s.Buffered tail
  | .StMessage => s.Buffered tail
  | .StMessageWait => s.sent = 0 ∧ s.Buffered tail
  | .StPad => s.sent < c.strength_i.keccakRate ∧ s.Delivered ∧ s.Buffered tail
  | .StPadRun => s.Delivered
  | .StPad01 => s.Delivered
  | .StPadFlush => s.Delivered
  | .StTerminalError => False

structure Inv (tail : PartialWord) (s : Absorb EnMasking) : Prop where
  sent_le : s.sent ≤ c.strength_i.keccakRate
  delivered_of_latched : s.pad.process_latched = true → s.Delivered
  state : s.StateInv c tail
  pulses : s.pulses = if s.pad.st = .StPadIdle then 1 else 0

/-- The prompt cycles without an event that are left at most. -/
def weight (s : Absorb EnMasking) : ℕ :=
  match s.pad.st with
  | .StPrefix => 1 + s.part.toList.length
  | .StPrefixWait => 2 + s.part.toList.length
  | .StMessage => 1 + s.part.toList.length
  | .StMessageWait => 2 + s.part.toList.length
  | .StPadFlush => 1
  | _ => 0

/-- The prompt cycles that are left at most. -/
def todo (tail : PartialWord) (s : Absorb EnMasking) : ℕ :=
  2 * (s.rest c tail).length + s.weight

end Absorb

end SecureBoot
