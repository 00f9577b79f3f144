import SecureBoot.Base.Word
import SecureBoot.Lib.Clocked
import SecureBoot.Lib.Fips

/-! The padding logic of the SHA-256 engine (`sha2_pad`) between the message FIFO and the
compression engine, and the environment in which it pads one message. The inputs that wipe
secrets drive nothing here and are left out. -/

namespace SecureBoot

/-- `sha_fifo_t`. -/
structure ShaFifo where
  data : Word
  mask : BitVec 4
  deriving DecidableEq

/-- `pad_st_e`. -/
inductive Sha2PadSt
  | StIdle
  | StFifoReceive
  | StPad80
  | StPad00
  | StLenHi
  | StLenLo
  deriving DecidableEq

/-- `sel_data_e`. -/
inductive Sha2PadSel
  | FifoIn
  | Pad80
  | Pad00
  | LenHi
  | LenLo

structure Sha2PadIn where
  fifo_rvalid : Bool
  fifo_rdata : ShaFifo
  shaf_rready : Bool
  sha_en : Bool
  hash_start : Bool
  hash_process : Bool
  hash_done : Bool
  message_length : BitVec 64

def ShaFifo.partialWord (e : ShaFifo) : Bool := e.mask != .allOnes 4

/-- `fifo_partial`. -/
def Sha2PadIn.fifo_partial_word (i : Sha2PadIn) : Bool := i.fifo_rdata.partialWord

/-- The registers. -/
structure Sha2Pad where
  hash_process_flag : Bool
  st_q : Sha2PadSt
  tx_count : BitVec 64
  deriving DecidableEq

namespace Sha2Pad

variable (r : Sha2Pad) (i : Sha2PadIn)

/-- The word with the byte `0x80`, by the number of message bytes in it. -/
def pad80 (sel : BitVec 2) (data : Word) : Word :=
  match sel.toNat with
  | 0 => 0x80000000
  | 1 => data.extractLsb' 24 8 ++ 0x800000#24
  | 2 => data.extractLsb' 16 16 ++ 0x8000#16
  | 3 => data.extractLsb' 8 24 ++ 0x80#8
  | _ => 0

/-- `shaf_rdata` of a selection. -/
def shafData : Sha2PadSel → Word
  | .FifoIn => i.fifo_rdata.data
  | .Pad80 => pad80 (i.message_length.extractLsb' 3 2) i.fifo_rdata.data
  | .Pad00 => 0
  | .LenHi => i.message_length.extractLsb' 32 32
  | .LenLo => i.message_length.extractLsb' 0 32

def txcnt_eq_1a0 : Bool := r.tx_count.extractLsb' 0 9 == 0x1a0#9

/-- The outputs of the state machine. -/
structure Comb where
  shaf_rvalid : Bool := false
  inc_txcount : Bool := false
  sel_data : Sha2PadSel := .FifoIn
  fifo_rready : Bool := false
  st_d : Sha2PadSt

def comb : Comb :=
  match r.st_q with
  | .StIdle => { st_d := if i.sha_en && i.hash_start then .StFifoReceive else .StIdle }
  | .StFifoReceive =>
    if i.fifo_partial_word && i.fifo_rvalid then { st_d := .StPad80 }
    else if !r.hash_process_flag then
      { fifo_rready := i.shaf_rready, shaf_rvalid := i.fifo_rvalid, inc_txcount := i.shaf_rready,
        st_d := .StFifoReceive }
    else if r.tx_count == i.message_length then { st_d := .StPad80 }
    else
      { fifo_rready := i.shaf_rready, shaf_rvalid := i.fifo_rvalid, inc_txcount := i.shaf_rready,
        st_d := .StFifoReceive }
  | .StPad80 =>
    { sel_data := .Pad80
      shaf_rvalid := true
      fifo_rready := i.shaf_rready && i.message_length.extractLsb' 3 2 != 0
      inc_txcount := i.shaf_rready
      st_d :=
        if i.shaf_rready && r.txcnt_eq_1a0 then .StLenHi
        else if i.shaf_rready && !r.txcnt_eq_1a0 then .StPad00 else .StPad80 }
  | .StPad00 =>
    { sel_data := .Pad00
      shaf_rvalid := true
      inc_txcount := i.shaf_rready
      st_d := if i.shaf_rready then if r.txcnt_eq_1a0 then .StLenHi else .StPad00 else .StPad00 }
  | .StLenHi =>
    { sel_data := .LenHi
      shaf_rvalid := true
      inc_txcount := i.shaf_rready
      st_d := if i.shaf_rready then .StLenLo else .StLenHi }
  | .StLenLo =>
    { sel_data := .LenLo
      shaf_rvalid := true
      inc_txcount := i.shaf_rready
      st_d := if i.shaf_rready then .StIdle else .StLenLo }

def shaf_rdata : Word := shafData i (r.comb i).sel_data

def msg_feed_complete : Bool := r.hash_process_flag && r.st_q == .StIdle

/-- A clock edge. Bits 63 to 5 of the counter are incremented. -/
def clock : Sha2Pad where
  hash_process_flag :=
    if i.hash_process then true
    else if i.hash_done || i.hash_start then false else r.hash_process_flag
  st_q := (r.comb i).st_d
  tx_count :=
    if i.hash_start then 0
    else if (r.comb i).inc_txcount then
      (r.tx_count.extractLsb' 5 59 + 1) ++ r.tx_count.extractLsb' 0 5
    else r.tx_count

/-! ### Runs -/

/-- What the compression engine takes in a cycle. -/
def sent : List Word := if (r.comb i).shaf_rvalid && i.shaf_rready then [r.shaf_rdata i] else []

/-- What is taken from the message FIFO in a cycle. -/
def popped : List ShaFifo :=
  if i.fifo_rvalid && (r.comb i).fifo_rready then [i.fifo_rdata] else []

variable (inp : ℕ → Sha2PadIn) (t : ℕ)

/-- The registers in cycle `t`. -/
def regsAt : Sha2Pad := Mealy.stateAt clock r inp t

/-- The words that the compression engine has taken before cycle `t`. -/
def handed : List Word := Mealy.collect (fun k => (r.regsAt inp k).sent (inp k)) 0 t

/-- The words that have left the message FIFO before cycle `t`. -/
def taken : List ShaFifo := Mealy.collect (fun k => (r.regsAt inp k).popped (inp k)) 0 t

/-! ### The environment -/

/-- The words of a message in the FIFO; only the last one may be partial, with its bytes at
the top. -/
def Carries : List Byte → List ShaFifo → Prop
  | [], [] => True
  | [b₀], [e] => e.partialWord = true ∧ e.data.extractLsb' 24 8 = b₀
  | [b₀, b₁], [e] => e.partialWord = true ∧ e.data.extractLsb' 16 16 = b₀ ++ b₁
  | [b₀, b₁, b₂], [e] => e.partialWord = true ∧ e.data.extractLsb' 8 24 = b₀ ++ b₁ ++ b₂
  | b₀ :: b₁ :: b₂ :: b₃ :: message, e :: entries =>
    e.partialWord = false ∧ e.data = b₀ ++ b₁ ++ b₂ ++ b₃ ∧ Carries message entries
  | _, _ => False

/-- The length of the message is asked for: the processing was requested, or the partial word
is there. -/
def AsksLength (i : Sha2PadIn) : Prop :=
  i.hash_process = true ∨ i.fifo_rvalid = true ∧ i.fifo_partial_word = true

/-- A run that starts in cycle 0 on a message whose words arrive in the FIFO one after another,
`arrived t` of them up to cycle `t`. -/
structure Feeds (message : List Byte) (entries : List ShaFifo) (arrived : ℕ → ℕ) : Prop where
  carries : Carries message entries
  idle : r.st_q = .StIdle
  start : (inp 0).sha_en = true ∧ (inp 0).hash_start = true
  /-- There is no other start, and no end before the padding is delivered. -/
  no_start : ∀ t, (inp (t + 1)).hash_start = false
  no_done : ∀ t, (inp (t + 1)).hash_done = true → (r.regsAt inp (t + 1)).st_q = .StIdle
  arrived_mono : Monotone arrived
  arrived_le : ∀ t, arrived t ≤ entries.length
  rvalid : ∀ t, (inp t).fifo_rvalid = decide ((r.taken inp t).length < arrived t)
  rdata : ∀ t, (inp t).fifo_rvalid = true →
    entries[(r.taken inp t).length]? = some (inp t).fifo_rdata
  /-- The compression engine is ready only with valid. -/
  ready : ∀ t, (inp t).shaf_rready = true → ((r.regsAt inp t).comb (inp t)).shaf_rvalid = true
  /-- From then on the length is that of the message. -/
  length : ∀ t t', t ≤ t' → AsksLength (inp t) →
    (inp t').message_length = BitVec.ofNat 64 (8 * message.length)

/-- Nobody stalls forever. -/
structure Prompt (entries : List ShaFifo) (arrived : ℕ → ℕ) : Prop where
  arrives : ∃ t, arrived t = entries.length
  process : ∃ t, (inp t).hash_process = true
  engine : ∀ t, ((r.regsAt inp t).comb (inp t)).shaf_rvalid = true →
    ∃ t', t ≤ t' ∧ (inp t').shaf_rready = true

end Sha2Pad

end SecureBoot
