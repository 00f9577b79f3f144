import Mathlib.Data.Nat.Log
import SecureBoot.Lib.Clocked
import SecureBoot.Lib.Parity

/-! The FIFO across two clocks, `prim_fifo_async`, for a depth that is a power of two.
An event has an edge of the write clock, of the read clock or of both. Where both fall
together, a synchronizer samples each bit of the other side's pointer from before its
change or from after it. -/

namespace SecureBoot

open Bits Parity Gray Clocked

/-! ### Pointers -/

/-- `PTRV_W`. -/
def fifoPtrvW (Depth : ℕ) : ℕ := if Depth = 1 then 1 else Nat.clog 2 Depth

/-- `PTR_WIDTH`. -/
def fifoPtrWidth (Depth : ℕ) : ℕ := if Depth = 1 then 1 else fifoPtrvW Depth + 1

/-- `DepthW`. -/
def fifoDepthW (Depth : ℕ) : ℕ := Nat.clog 2 (Depth + 1)

section Conversion

variable (Depth : ℕ) {w : ℕ}

/-- `dec2gray` of `g_full_gray_conversion`. -/
def dec2gray (decval : BitVec w) : BitVec w :=
  let decvalSub := BitVec.ofNat w Depth - (decval.setWidth (w - 1)).setWidth w - 1#w
  let decvalIn := setBit (if decval.getLsbD (w - 1) then decvalSub else decval) (w - 1) false
  setBit (decvalIn ^^^ (decvalIn >>> 1)) (w - 1) (decval.getLsbD (w - 1))

/-- `gray2dec` of `g_full_gray_conversion`. -/
def gray2dec (grayval : BitVec w) : BitVec w :=
  let decTmp := (List.range (w - 1)).reverse.foldl
    (fun decTmp i => setBit decTmp i (decTmp.getLsbD (i + 1) ^^ grayval.getLsbD i)) 0#w
  let decTmpSub := BitVec.ofNat w Depth - decTmp - 1#w
  if grayval.getLsbD (w - 1) then setBit decTmpSub (w - 1) true else decTmp

/-- `{ptr[PTR_WIDTH-1], ^ptr}` of `g_simple_gray_conversion`. -/
def simpleGray (ptr : BitVec w) : BitVec w :=
  (BitVec.ofBool (ptr.getLsbD (w - 1)) ++ BitVec.ofBool (xorReduce ptr)).setWidth w

/-- The Gray code of a pointer. -/
def fifoGray (ptr : BitVec w) : BitVec w :=
  if Depth > 2 then dec2gray Depth ptr else if Depth = 2 then simpleGray ptr else ptr

/-- The pointer of a Gray code. -/
def fifoSyncCombi (graySync : BitVec w) : BitVec w :=
  if Depth > 2 then gray2dec Depth graySync
  else if Depth = 2 then simpleGray graySync else graySync

/-- `xor_mask`. -/
def fifoXorMask (w : ℕ) : BitVec w := 1#w <<< (w - 1)

/-- The place of a pointer in the storage. -/
def fifoIndex (ptr : BitVec w) : ℕ :=
  if Depth > 1 then (ptr.setWidth (fifoPtrvW Depth)).toNat else 0

/-- `wdepth_o` and `rdepth_o`, from the pointers that the side knows. -/
def fifoDepth (full : Bool) (wptr rptr : BitVec w) : BitVec (fifoDepthW Depth) :=
  let value (ptr : BitVec w) := (ptr.setWidth (fifoPtrvW Depth)).setWidth (fifoDepthW Depth)
  if Depth > 1 then
    if full then BitVec.ofNat _ Depth
    else if wptr.getLsbD (w - 1) = rptr.getLsbD (w - 1) then value wptr - value rptr
    else BitVec.ofNat _ Depth - value rptr + value wptr
  else (BitVec.ofBool full).setWidth _

end Conversion

/-! ### The two clock domains -/

variable {Depth Width : ℕ}

/-- The registers of the write clock. -/
structure FifoWr (Depth Width : ℕ) where
  fifoWptrQ : BitVec (fifoPtrWidth Depth)
  fifoWptrGrayQ : BitVec (fifoPtrWidth Depth)
  syncRptr : Sync (BitVec (fifoPtrWidth Depth))
  fifoRptrSyncQ : BitVec (fifoPtrWidth Depth)
  storage : ℕ → BitVec Width

/-- The registers of the read clock. -/
structure FifoRd (Depth : ℕ) where
  fifoRptrQ : BitVec (fifoPtrWidth Depth)
  fifoRptrGrayQ : BitVec (fifoPtrWidth Depth)
  syncWptr : Sync (BitVec (fifoPtrWidth Depth))

namespace FifoWr

variable (s : FifoWr Depth Width) (wvalid_i : Bool) (wdata_i : BitVec Width)

def fullWclk : Bool := s.fifoWptrQ = s.fifoRptrSyncQ ^^^ fifoXorMask _

def wreadyO : Bool := !s.fullWclk

def fifoIncrWptr : Bool := wvalid_i && s.wreadyO

def fifoWptrD : BitVec (fifoPtrWidth Depth) := s.fifoWptrQ + 1#_

/-- `fifo_rptr_sync_combi`. -/
def fifoRptrSyncCombi : BitVec (fifoPtrWidth Depth) := fifoSyncCombi Depth s.syncRptr.q

def wdepthO : BitVec (fifoDepthW Depth) :=
  fifoDepth Depth s.fullWclk s.fifoWptrQ s.fifoRptrSyncQ

/-- The Gray-coded write pointer after an edge. -/
def wptrGrayNext : BitVec (fifoPtrWidth Depth) :=
  if s.fifoIncrWptr wvalid_i then fifoGray Depth s.fifoWptrD else s.fifoWptrGrayQ

/-- An edge of the write clock, at which the synchronizer samples `rptrGray`. -/
def clock (rptrGray : BitVec (fifoPtrWidth Depth)) : FifoWr Depth Width where
  fifoWptrQ := if s.fifoIncrWptr wvalid_i then s.fifoWptrD else s.fifoWptrQ
  fifoWptrGrayQ := s.wptrGrayNext wvalid_i
  syncRptr := s.syncRptr.clock rptrGray
  fifoRptrSyncQ := s.fifoRptrSyncCombi
  storage :=
    if s.fifoIncrWptr wvalid_i then Function.update s.storage (fifoIndex Depth s.fifoWptrQ) wdata_i
    else s.storage

/-- The word accepted at an edge. -/
def accepts : List (BitVec Width) := if s.fifoIncrWptr wvalid_i then [wdata_i] else []

end FifoWr

namespace FifoRd

variable (s : FifoRd Depth) (rready_i : Bool)

/-- `fifo_wptr_sync_combi`. -/
def fifoWptrSyncCombi : BitVec (fifoPtrWidth Depth) := fifoSyncCombi Depth s.syncWptr.q

def fullRclk : Bool := s.fifoWptrSyncCombi = s.fifoRptrQ ^^^ fifoXorMask _

def emptyRclk : Bool := s.fifoWptrSyncCombi = s.fifoRptrQ

def rvalidO : Bool := !s.emptyRclk

def fifoIncrRptr : Bool := s.rvalidO && rready_i

def fifoRptrD : BitVec (fifoPtrWidth Depth) := s.fifoRptrQ + 1#_

def rdepthO : BitVec (fifoDepthW Depth) :=
  fifoDepth Depth s.fullRclk s.fifoWptrSyncCombi s.fifoRptrQ

/-- The Gray-coded read pointer after an edge. -/
def rptrGrayNext : BitVec (fifoPtrWidth Depth) :=
  if s.fifoIncrRptr rready_i then fifoGray Depth s.fifoRptrD else s.fifoRptrGrayQ

/-- An edge of the read clock, at which the synchronizer samples `wptrGray`. -/
def clock (wptrGray : BitVec (fifoPtrWidth Depth)) : FifoRd Depth where
  fifoRptrQ := if s.fifoIncrRptr rready_i then s.fifoRptrD else s.fifoRptrQ
  fifoRptrGrayQ := s.rptrGrayNext rready_i
  syncWptr := s.syncWptr.clock wptrGray

variable (OutputZeroIfEmpty OutputZeroIfInvalid : Bool) (storage : ℕ → BitVec Width)

/-- `rdata_o`. -/
def rdataO : BitVec Width :=
  let rdataInt := storage (fifoIndex Depth s.fifoRptrQ)
  if OutputZeroIfEmpty then
    if OutputZeroIfInvalid then
      if s.emptyRclk then 0 else if s.rvalidO then rdataInt else 0
    else if s.emptyRclk then 0 else rdataInt
  else if OutputZeroIfInvalid then
    if s.rvalidO then rdataInt else 0
  else rdataInt

/-- The word delivered at an edge. -/
def delivers : List (BitVec Width) :=
  if s.fifoIncrRptr rready_i then [s.rdataO OutputZeroIfEmpty OutputZeroIfInvalid storage] else []

end FifoRd

/-! ### Runs -/

/-- The FIFO with the words accepted and delivered so far, the earliest first. -/
structure FifoState (Depth Width : ℕ) where
  wr : FifoWr Depth Width
  rd : FifoRd Depth
  accepted : List (BitVec Width)
  delivered : List (BitVec Width)

/-- Clock edges that fall together, each with the inputs of its side. A bit of a pointer
that changes is sampled from before the change where `late` is set. -/
structure FifoEvent (Depth Width : ℕ) where
  /-- `wvalid_i` and `wdata_i` at an edge of the write clock. -/
  wr : Option (Bool × BitVec Width)
  /-- `rready_i` at an edge of the read clock. -/
  rd : Option Bool
  lateWptr : BitVec (fifoPtrWidth Depth)
  lateRptr : BitVec (fifoPtrWidth Depth)

namespace FifoState

/-- The state after a common reset, which leaves the storage as it is. -/
def init (storage : ℕ → BitVec Width) : FifoState Depth Width where
  wr := ⟨0, 0, ⟨0, 0⟩, 0, storage⟩
  rd := ⟨0, 0, ⟨0, 0⟩⟩
  accepted := []
  delivered := []

variable (OutputZeroIfEmpty OutputZeroIfInvalid : Bool) (s : FifoState Depth Width)
  (e : FifoEvent Depth Width)

/-- The Gray-coded write pointer as the read clock samples it. -/
def sampledWptr : BitVec (fifoPtrWidth Depth) :=
  match e.wr with
  | none => s.wr.fifoWptrGrayQ
  | some (wvalid_i, _) => sample e.lateWptr s.wr.fifoWptrGrayQ (s.wr.wptrGrayNext wvalid_i)

/-- The Gray-coded read pointer as the write clock samples it. -/
def sampledRptr : BitVec (fifoPtrWidth Depth) :=
  match e.rd with
  | none => s.rd.fifoRptrGrayQ
  | some rready_i => sample e.lateRptr s.rd.fifoRptrGrayQ (s.rd.rptrGrayNext rready_i)

def step : FifoState Depth Width where
  wr := match e.wr with
    | none => s.wr
    | some (wvalid_i, wdata_i) => s.wr.clock wvalid_i wdata_i (s.sampledRptr e)
  rd := match e.rd with
    | none => s.rd
    | some rready_i => s.rd.clock rready_i (s.sampledWptr e)
  accepted := s.accepted ++ match e.wr with
    | none => []
    | some (wvalid_i, wdata_i) => s.wr.accepts wvalid_i wdata_i
  delivered := s.delivered ++ match e.rd with
    | none => []
    | some rready_i => s.rd.delivers rready_i OutputZeroIfEmpty OutputZeroIfInvalid s.wr.storage

/-- A run from reset. -/
def run (storage : ℕ → BitVec Width) (events : List (FifoEvent Depth Width)) :
    FifoState Depth Width :=
  events.foldl (step OutputZeroIfEmpty OutputZeroIfInvalid) (init storage)

end FifoState

end SecureBoot
