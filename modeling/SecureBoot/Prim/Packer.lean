import SecureBoot.Prim.Count
import SecureBoot.Prim.Pkg

/-! The packer `prim_packer`, which repacks words of `InW` bits with contiguous masks into
words of `OutW` bits. The position is a plain register, or a hardened counter with
`EnProtection`. -/

namespace SecureBoot

/-- `Width`, of the storage. -/
abbrev packerWidth (InW OutW : ℕ) : ℕ := InW + OutW

/-- `ConcatW`. -/
abbrev packerConcatW (InW OutW : ℕ) : ℕ := packerWidth InW OutW + InW

/-- `PtrW`. -/
abbrev packerPtrW (InW OutW : ℕ) : ℕ := Nat.clog 2 (packerConcatW InW OutW + 1)

/-- `IdxW`. -/
abbrev packerIdxW (InW : ℕ) : ℕ := vbits InW

/-- `OnesCntW`. -/
abbrev packerOnesCntW (InW : ℕ) : ℕ := Nat.clog 2 (InW + 1)

structure PackerIn (InW : ℕ) where
  valid_i : Bool
  data_i : BitVec InW
  mask_i : BitVec InW
  ready_i : Bool
  flush_i : Bool

@[ext]
structure PackerOut (OutW : ℕ) where
  ready_o : Bool
  valid_o : Bool
  data_o : BitVec OutW
  mask_o : BitVec OutW
  flush_done_o : Bool
  err_o : Bool

/-- The register of the position, in `g_pos_nodup` or in `g_pos_dupcnt`. -/
inductive PackerPos (PtrW : ℕ)
  | nodup (pos_q : BitVec PtrW)
  | dupcnt (u_pos : CountRegs PtrW)

namespace PackerPos

variable {PtrW : ℕ}

def reset (EnProtection : Bool) : PackerPos PtrW :=
  if EnProtection then dupcnt (primCountReset 0) else nodup 0

def pos_q : PackerPos PtrW → BitVec PtrW
  | nodup pos_q => pos_q
  | dupcnt u_pos => u_pos.primary

def err_o : PackerPos PtrW → Bool
  | nodup _ => false
  | dupcnt u_pos => u_pos.err_o

end PackerPos

/-- `flush_st_e`. -/
inductive FlushSt
  | FlushIdle
  | FlushSend
  deriving DecidableEq

@[ext]
structure Packer (InW OutW : ℕ) where
  pos : PackerPos (packerPtrW InW OutW)
  stored_data : BitVec (packerWidth InW OutW)
  stored_mask : BitVec (packerWidth InW OutW)
  flush_st : FlushSt

namespace Packer

variable {InW OutW : ℕ}

def reset (EnProtection : Bool) : Packer InW OutW := ⟨.reset EnProtection, 0, 0, .FlushIdle⟩

/-- The loop that counts the ones of `mask_i`. -/
def inmask_ones (mask_i : BitVec InW) : BitVec (packerOnesCntW InW) :=
  (List.range InW).foldl
    (fun ones i => ones + (BitVec.ofBool (mask_i.getLsbD i)).setWidth (packerOnesCntW InW)) 0

/-- The loop of the leading one detector, downwards. -/
def lod_idx (mask_i : BitVec InW) : BitVec (packerIdxW InW) :=
  (List.range InW).reverse.foldl
    (fun idx i => if mask_i.getLsbD i then BitVec.ofNat _ i else idx) 0

variable (r : Packer InW OutW) (i : PackerIn InW)

def pos_q : BitVec (packerPtrW InW OutW) := r.pos.pos_q

def pos_with_input : BitVec (packerPtrW InW OutW) :=
  r.pos_q + (inmask_ones i.mask_i).setWidth (packerPtrW InW OutW)

/-! ### Flush and outputs -/

def flush_valid : Bool := r.flush_st = .FlushSend ∧ r.pos_q ≠ 0

def flush_done : Bool := r.flush_st = .FlushSend ∧ r.pos_q = 0

def flush_st_next : FlushSt :=
  match r.flush_st with
  | .FlushIdle => if i.flush_i then .FlushSend else .FlushIdle
  | .FlushSend => if r.pos_q = 0 then .FlushIdle else .FlushSend

def valid_o : Bool := if OutW ≤ r.pos_q.toNat then true else r.flush_valid

def ready_o : Bool := r.pos_q.toNat ≤ OutW

def data_o : BitVec OutW := r.stored_data.setWidth OutW

def mask_o : BitVec OutW := r.stored_mask.setWidth OutW

def out : PackerOut OutW :=
  ⟨r.ready_o, r.valid_o, r.data_o, r.mask_o, r.flush_done, r.pos.err_o⟩

def ack_in : Bool := i.valid_i && r.ready_o

def ack_out : Bool := r.valid_o && i.ready_i

/-! ### Position -/

/-- `pos_d` of `g_pos_nodup`. -/
def pos_d : BitVec (packerPtrW InW OutW) :=
  match r.ack_in i, r.ack_out i with
  | false, false => r.pos_q
  | false, true => if r.pos_q.toNat ≤ OutW then 0 else r.pos_q - BitVec.ofNat _ OutW
  | true, false => r.pos_with_input i
  | true, true =>
    if (r.pos_with_input i).toNat ≤ OutW then 0 else r.pos_with_input i - BitVec.ofNat _ OutW

/-- The inputs of the counter of `g_pos_dupcnt`. -/
def u_pos_in : CountIn (packerPtrW InW OutW) :=
  let cnt_incr_en := r.ack_in i && !r.ack_out i
  let cnt_decr_en := !r.ack_in i && r.ack_out i
  let cnt_set_en := r.ack_in i && r.ack_out i
  let cnt_step :=
    if cnt_incr_en then (inmask_ones i.mask_i).setWidth (packerPtrW InW OutW)
    else BitVec.ofNat _ OutW
  let cnt_set :=
    if r.pos_with_input i > BitVec.ofNat _ OutW then r.pos_with_input i - BitVec.ofNat _ OutW
    else 0
  { clr_i := r.flush_done
    set_i := cnt_set_en
    set_cnt_i := cnt_set
    incr_en_i := cnt_incr_en
    decr_en_i := cnt_decr_en
    step_i := cnt_step }

def posNext : PackerPos (packerPtrW InW OutW) :=
  match r.pos with
  | .nodup _ => .nodup (if r.flush_done then 0 else r.pos_d i)
  | .dupcnt u_pos => .dupcnt (primCount 0 u_pos (r.u_pos_in i))

/-! ### Data -/

def shiftr_data : BitVec InW := if i.valid_i then i.data_i >>> (lod_idx i.mask_i).toNat else 0

def shiftr_mask : BitVec InW := if i.valid_i then i.mask_i >>> (lod_idx i.mask_i).toNat else 0

def shiftl_data : BitVec (packerConcatW InW OutW) :=
  (shiftr_data i).setWidth (packerConcatW InW OutW) <<< r.pos_q.toNat

def shiftl_mask : BitVec (packerConcatW InW OutW) :=
  (shiftr_mask i).setWidth (packerConcatW InW OutW) <<< r.pos_q.toNat

def concat_data : BitVec (packerConcatW InW OutW) :=
  (r.stored_data &&& r.stored_mask).setWidth (packerConcatW InW OutW) |||
    (r.shiftl_data i &&& r.shiftl_mask i)

def concat_mask : BitVec (packerConcatW InW OutW) :=
  r.stored_mask.setWidth (packerConcatW InW OutW) ||| r.shiftl_mask i

/-- `stored_data_next` and `stored_mask_next`, from what is stored and what is concatenated. -/
def storedNext (stored : BitVec (packerWidth InW OutW)) (concat : BitVec (packerConcatW InW OutW)) :
    BitVec (packerWidth InW OutW) :=
  match r.ack_in i, r.ack_out i with
  | false, false => stored
  | false, true => (stored.extractLsb' OutW InW).setWidth (packerWidth InW OutW)
  | true, false => concat.setWidth (packerWidth InW OutW)
  | true, true =>
    (concat.extractLsb' OutW (packerConcatW InW OutW - OutW)).setWidth (packerWidth InW OutW)

/-- A clock edge of the packer. -/
def clock : Packer InW OutW where
  pos := r.posNext i
  stored_data := if r.flush_done then 0 else r.storedNext i r.stored_data (r.concat_data i)
  stored_mask := if r.flush_done then 0 else r.storedNext i r.stored_mask (r.concat_mask i)
  flush_st := r.flush_st_next i

end Packer

end SecureBoot
