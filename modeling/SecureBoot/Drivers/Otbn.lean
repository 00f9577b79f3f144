import SecureBoot.Base.Bus

/-! The two drivers of OTBN, one of the silicon creator code and one of the crypto library: the
access to its memories, the commands that wipe them, and the loading of an application. What the
two have in common has the values that differ as parameters. The words of the CPU's memory are a
function of their address. -/

namespace SecureBoot

open BusM

/-- `TOP_EARLGREY_OTBN_BASE_ADDR`. -/
abbrev kOtbnBase : Word := 0x41130000

abbrev kOtbnIntrState : Word := kOtbnBase

abbrev kOtbnCmd : Word := kOtbnBase + 0x10

abbrev kOtbnStatus : Word := kOtbnBase + 0x18

abbrev kOtbnErrBits : Word := kOtbnBase + 0x1c

abbrev kOtbnImem : Word := kOtbnBase + 0x4000

abbrev kOtbnDmem : Word := kOtbnBase + 0x8000

/-- `OTBN_IMEM_SIZE_BYTES`. -/
abbrev kOtbnIMemSizeBytes : Word := 4096

/-- `OTBN_DMEM_SIZE_BYTES`: a part of the memory is not visible on the bus. -/
abbrev kOtbnDMemSizeBytes : Word := 3072

abbrev kOtbnCmdSecWipeDmem : Word := 0xc3

abbrev kOtbnCmdSecWipeImem : Word := 0x1e

abbrev kOtbnStatusIdle : Word := 0x00

abbrev kOtbnStatusLocked : Word := 0xff

abbrev kOtbnErrBitsNoError : Word := 0

/-! ### The memories -/

def checkOffsetLen (ok bad : Word) (offset_bytes num_words mem_size : Word) : Word :=
  if offset_bytes + num_words * 4 < num_words * 4 ∨ mem_size < offset_bytes + num_words * 4 then
    bad
  else ok

/-- The loop of `otbn_write` with `n` iterations to go, at index `i`. -/
def otbnWriteLoop (dest_addr : Word) (src : Word → Word) (num_words : Word) :
    ℕ → Word → BusM Unit
  | 0, _ => pure ()
  | n + 1, i => do
    write32 (dest_addr + i * 4) (src i)
    let i := i + 1
    let i := if num_words ≤ i then i - num_words else i
    check (i < num_words)
    otbnWriteLoop dest_addr src num_words n i

/-- `otbn_write`, which starts at an index that the random word determines. -/
def otbnWrite (rnd dest_addr : Word) (src : Word → Word) (num_words : Word) : BusM Unit :=
  let i := ((rnd.setWidth 64 * num_words.setWidth 64) >>> 32).setWidth 32
  otbnWriteLoop dest_addr src num_words num_words.toNat i

/-- The loop of `otbn_dmem_read` with `n` iterations to go, at index `i`. -/
def otbnReadLoop (dev : BusDevices) (src_addr : Word) : ℕ → Word → BusM (List Word)
  | 0, _ => return []
  | n + 1, i => do
    let word ← read32 dev (src_addr + i * 4)
    let words ← otbnReadLoop dev src_addr n (i + 1)
    return word :: words

section Memory

variable (ok bad memory mem_size : Word)

def otbnMemWrite (rnd offset_bytes : Word) (src : Word → Word) (num_words : Word) : BusM Word :=
  returnUnless ok (pure (checkOffsetLen ok bad offset_bytes num_words mem_size)) do
    otbnWrite rnd (memory + offset_bytes) src num_words
    return ok

/-- The error and the words read. -/
def otbnMemRead (dev : BusDevices) (offset_bytes num_words : Word) : BusM (Word × List Word) := do
  let error := checkOffsetLen ok bad offset_bytes num_words mem_size
  if error ≠ ok then
    return (error, [])
  let words ← otbnReadLoop dev (memory + offset_bytes) num_words.toNat 0
  return (ok, words)

end Memory

/-- The loop of `otbn_zero_dmem` with `n` words to go. -/
def otbnZeroDmemLoop : ℕ → Word → BusM Unit
  | 0, _ => pure ()
  | n + 1, i => do
    write32 (kOtbnDmem + i) 0
    otbnZeroDmemLoop n (i + 4)

/-! ### The silicon creator driver -/

namespace SiliconCreator

/-- The first fields of `otbn_app_t`, which are pointers. -/
structure OtbnApp where
  imem_start : Word
  imem_end : Word
  dmem_data_start : Word
  dmem_data_end : Word

/-- `otbn_t` without the error bits, which are not used here. -/
structure Otbn where
  app : OtbnApp
  app_is_loaded : Word

def otbnImemWrite (rnd offset_bytes : Word) (src : Word → Word) (num_words : Word) :
    BusM RomError :=
  otbnMemWrite kErrorOk kErrorOtbnBadOffsetLen kOtbnImem kOtbnIMemSizeBytes rnd offset_bytes src
    num_words

def otbnDmemWrite (rnd offset_bytes : Word) (src : Word → Word) (num_words : Word) :
    BusM RomError :=
  otbnMemWrite kErrorOk kErrorOtbnBadOffsetLen kOtbnDmem kOtbnDMemSizeBytes rnd offset_bytes src
    num_words

def otbnDmemRead (dev : BusDevices) (offset_bytes num_words : Word) :
    BusM (RomError × List Word) :=
  otbnMemRead kErrorOk kErrorOtbnBadOffsetLen kOtbnDmem kOtbnDMemSizeBytes dev offset_bytes
    num_words

def otbnZeroDmem : BusM Unit := otbnZeroDmemLoop (kOtbnDMemSizeBytes.toNat / 4) 0

variable (dev : BusDevices)

def otbnBusyWaitForDone : BusM RomError := do
  let res := kErrorOk ^^^ wordMax
  let values ← poll dev kOtbnStatus fun status =>
    status == kOtbnStatusIdle || status == kOtbnStatusLocked
  let res := res ^^^ ~~~values.getLastD 0
  if res = kErrorOk then
    let status ← read32 dev kOtbnStatus
    check (status = kOtbnStatusIdle)
    return res
  return kErrorOtbnUnavailable

/-- `otbn_cmd_run`; every read of the interrupt state that shows the end of the command toggles
bit 31 of the result. -/
def otbnCmdRun (cmd : Word) (error : RomError) : BusM RomError := do
  write32 kOtbnIntrState 1
  write32 kOtbnCmd cmd
  let res := kErrorOk ^^^ 0x80000000
  let regs ← poll dev kOtbnIntrState (· == 1)
  let res := regs.foldl (fun res reg => res ^^^ ((reg &&& (1 : Word)) <<< 31)) res
  write32 kOtbnIntrState 1
  let err_bits ← read32 dev kOtbnErrBits
  let res := res ^^^ err_bits
  let status ← read32 dev kOtbnStatus
  if res = kErrorOk ∧ status = kOtbnStatusIdle then
    let status ← read32 dev kOtbnStatus
    check (status = kOtbnStatusIdle)
    return res
  return error

def otbnImemSecWipe : BusM RomError :=
  otbnCmdRun dev kOtbnCmdSecWipeImem kErrorOtbnSecWipeImemFailed

def otbnDmemSecWipe : BusM RomError :=
  otbnCmdRun dev kOtbnCmdSecWipeDmem kErrorOtbnSecWipeDmemFailed

def checkAppAddressRanges (app : OtbnApp) : Bool :=
  if app.imem_end ≤ app.imem_start then false
  else if app.dmem_data_end < app.dmem_data_start then false
  else true

/-- The difference of two pointers to words. -/
def ptrDiff (p q : Word) : Word := (p - q).sshiftRight 2

/-- `otbn_load_app`, with the random words of the two write loops; on success it gives the
context. -/
def otbnLoadApp (mem : Word → Word) (rnd_imem rnd_dmem : Word) (ctx : Otbn) (app : OtbnApp) :
    BusM (RomError × Otbn) := do
  if !checkAppAddressRanges app then
    return (kErrorOtbnInvalidArgument, ctx)
  let error ← otbnBusyWaitForDone dev
  if error ≠ kErrorOk then
    return (error, ctx)
  let imem_num_words := ptrDiff app.imem_end app.imem_start
  let data_num_words := ptrDiff app.dmem_data_end app.dmem_data_start
  let ctx := { ctx with app_is_loaded := kHardenedBoolFalse }
  let error ← returnUnless kErrorOk (otbnImemSecWipe dev) <|
    returnUnless kErrorOk
      (otbnImemWrite rnd_imem 0 (fun i => mem (app.imem_start + i * 4)) imem_num_words) <|
    returnUnless kErrorOk (otbnDmemSecWipe dev) <|
    if 0 < data_num_words then
      otbnDmemWrite rnd_dmem 0 (fun i => mem (app.dmem_data_start + i * 4)) data_num_words
    else return kErrorOk
  if error ≠ kErrorOk then
    return (error, ctx)
  return (kErrorOk, { app := app, app_is_loaded := kHardenedBoolTrue })

end SiliconCreator

/-! ### The driver of the crypto library -/

/-- `otbn_error_t`. -/
abbrev OtbnError := Word

abbrev kOtbnErrorOk : OtbnError := 0

abbrev kOtbnErrorInvalidArgument : OtbnError := 1

abbrev kOtbnErrorBadOffsetLen : OtbnError := 2

abbrev kOtbnErrorExecutionFailed : OtbnError := 3

abbrev kOtbnErrorUnavailable : OtbnError := 4

namespace Cryptolib

/-- `otbn_app_t`: the fields of the silicon creator code and an address in the data memory. -/
structure OtbnApp extends SiliconCreator.OtbnApp where
  dmem_data_start_addr : Word

def otbnImemWrite (num_words : Word) (src : Word → Word) (dest : Word) : BusM OtbnError :=
  otbnMemWrite kOtbnErrorOk kOtbnErrorBadOffsetLen kOtbnImem kOtbnIMemSizeBytes 0 dest src
    num_words

def otbnDmemWrite (num_words : Word) (src : Word → Word) (dest : Word) : BusM OtbnError :=
  otbnMemWrite kOtbnErrorOk kOtbnErrorBadOffsetLen kOtbnDmem kOtbnDMemSizeBytes 0 dest src
    num_words

def otbnDmemRead (dev : BusDevices) (num_words src : Word) : BusM (OtbnError × List Word) :=
  otbnMemRead kOtbnErrorOk kOtbnErrorBadOffsetLen kOtbnDmem kOtbnDMemSizeBytes dev src num_words

variable (dev : BusDevices)

def otbnAssertIdle : BusM OtbnError := do
  let res := kOtbnErrorOk ^^^ ~~~kOtbnStatusIdle
  let status ← read32 dev kOtbnStatus
  let res := res ^^^ ~~~status
  if res = kOtbnErrorOk then
    let status ← read32 dev kOtbnStatus
    check (status = kOtbnStatusIdle)
    return res
  return kOtbnErrorUnavailable

def otbnBusyWaitForDone : BusM OtbnError := do
  let res := kOtbnErrorOk ^^^ wordMax
  let values ← poll dev kOtbnStatus fun status =>
    status == kOtbnStatusIdle || status == kOtbnStatusLocked
  let res := res ^^^ ~~~values.getLastD 0
  let err_bits ← read32 dev kOtbnErrBits
  if res = kOtbnErrorOk ∧ err_bits = kOtbnErrBitsNoError then
    let err_bits ← read32 dev kOtbnErrBits
    check (err_bits = kOtbnErrBitsNoError)
    let status ← read32 dev kOtbnStatus
    check (status = kOtbnStatusIdle)
    return res
  return kOtbnErrorExecutionFailed

/-- The shape of the two functions that wipe a memory. -/
def otbnSecWipe (cmd : Word) : BusM OtbnError :=
  returnUnless kOtbnErrorOk (otbnAssertIdle dev) do
    write32 kOtbnCmd cmd
    returnUnless kOtbnErrorOk (otbnBusyWaitForDone dev) (return kOtbnErrorOk)

def otbnImemSecWipe : BusM OtbnError := otbnSecWipe dev kOtbnCmdSecWipeImem

def otbnDmemSecWipe : BusM OtbnError := otbnSecWipe dev kOtbnCmdSecWipeDmem

def checkAppAddressRanges (app : OtbnApp) : Word :=
  if app.imem_end ≤ app.imem_start then kHardenedBoolFalse
  else if app.dmem_data_end < app.dmem_data_start then kHardenedBoolFalse
  else kHardenedBoolTrue

/-- `otbn_load_app`. Its condition `!check_app_address_ranges(&app)` takes the hardened boolean
for a C truth value. -/
def otbnLoadApp (mem : Word → Word) (app : OtbnApp) : BusM OtbnError := do
  if checkAppAddressRanges app = 0 then
    return kOtbnErrorInvalidArgument
  returnUnless kOtbnErrorOk (otbnAssertIdle dev) do
    let imem_num_words := SiliconCreator.ptrDiff app.imem_end app.imem_start
    let data_num_words := SiliconCreator.ptrDiff app.dmem_data_end app.dmem_data_start
    returnUnless kOtbnErrorOk (otbnImemSecWipe dev) <|
      returnUnless kOtbnErrorOk (otbnDmemSecWipe dev) <|
      returnUnless kOtbnErrorOk
        (otbnImemWrite imem_num_words (fun i => mem (app.imem_start + i * 4)) 0) <|
      if 0 < data_num_words then
        returnUnless kOtbnErrorOk
          (otbnDmemWrite data_num_words (fun i => mem (app.dmem_data_start + i * 4))
            app.dmem_data_start_addr)
          (return kOtbnErrorOk)
      else return kOtbnErrorOk

end Cryptolib

end SecureBoot

/-! Where the OTBN drivers access the memories of OTBN. The loops visit every index below the
number of words, from any start, and the check of offset and length is made on the length modulo
`2³²`: the accesses stay inside the memory unless there are `2³⁰` words or more and the wrapped
length passes the check. -/

namespace SecureBoot

open BusM

/-- The word accessed lies in the `size` bytes from `memory` on. -/
def InMemory (memory : Word) (size : ℕ) (a : BusAccess) : Prop :=
  (a.addr - memory).toNat + 4 ≤ size

/-- A rejection without any access, or accesses to words of the memory only. -/
def RejectsOrInMemory {α : Type} (bad : α → Prop) (memory : Word) (size : ℕ) (x : BusM α)
    (past : List BusAccess) : Prop :=
  (∃ a, x.run past = .ok a past ∧ bad a) ∨ Adds (InMemory memory size) past (Hoare.final (x.run past))

/-! ### The loops -/

/-- Index `i + k` modulo the number of words. -/
def wrappedIndex (num_words i : Word) (k : ℕ) : Word := .ofNat 32 ((i.toNat + k) % num_words.toNat)

theorem toNat_wrappedIndex {num_words : Word} (hpos : 0 < num_words.toNat) (i : Word) (k : ℕ) :
    (wrappedIndex num_words i k).toNat = (i.toNat + k) % num_words.toNat :=
  Nat.mod_eq_of_lt ((Nat.mod_lt _ hpos).trans num_words.isLt)

/-- One step of the index. -/
theorem toNat_next_index {num_words i : Word} (hi : i.toNat < num_words.toNat) :
    (if num_words ≤ i + 1 then i + 1 - num_words else i + 1).toNat =
      (i.toNat + 1) % num_words.toNat :=
  Word.toNat_wrapped_add hi (show 1 ≤ num_words.toNat by omega)
    (Nat.lt_of_le_of_lt hi num_words.isLt)

theorem run_otbnWriteLoop (dest_addr : Word) (src : Word → Word) {num_words : Word} (n : ℕ)
    {i : Word} (hi : i.toNat < num_words.toNat) (past : List BusAccess) :
    (otbnWriteLoop dest_addr src num_words n i).run past =
      .ok ⟨⟩ (((List.range n).map fun k =>
        let j := wrappedIndex num_words i k
        BusAccess.write32 (dest_addr + j * 4) (src j)).reverse ++ past) := by
  have hpos : 0 < num_words.toNat := by omega
  induction n generalizing i past with
  | zero => rfl
  | succ n ih =>
    have hnext := toNat_next_index hi
    have hlt : (if num_words ≤ i + 1 then i + 1 - num_words else i + 1) < num_words := by
      rw [BitVec.lt_def, hnext]
      exact Nat.mod_lt _ hpos
    rw [otbnWriteLoop, run_bind_ok _ (run_write32 _ _ _),
      run_bind_ok _ ((run_check _ _).trans (if_pos hlt)), ih (by rw [hnext]; exact Nat.mod_lt _ hpos),
      List.range_succ_eq_map, List.map_cons, List.reverse_cons, List.map_map, List.append_assoc]
    have hzero : wrappedIndex num_words i 0 = i := by
      apply BitVec.eq_of_toNat_eq
      rw [toNat_wrappedIndex hpos, Nat.add_zero, Nat.mod_eq_of_lt hi]
    have hshift : ∀ k, wrappedIndex num_words
        (if num_words ≤ i + 1 then i + 1 - num_words else i + 1) k =
        wrappedIndex num_words i (k + 1) := by
      intro k
      rw [wrappedIndex, wrappedIndex, hnext, Nat.mod_add_mod, Nat.add_right_comm, Nat.add_assoc]
    simp only [Function.comp_def, hzero, hshift, Nat.succ_eq_add_one]
    rfl

/-- From any start, a whole round visits every index. -/
theorem exists_wrappedIndex {num_words i j : Word} (hi : i.toNat < num_words.toNat)
    (hj : j.toNat < num_words.toNat) :
    ∃ k < num_words.toNat, wrappedIndex num_words i k = j := by
  have hpos : 0 < num_words.toNat := by omega
  refine ⟨(j.toNat + (num_words.toNat - i.toNat)) % num_words.toNat, Nat.mod_lt _ hpos, ?_⟩
  apply BitVec.eq_of_toNat_eq
  rw [toNat_wrappedIndex hpos, Nat.add_mod_mod,
    show i.toNat + (j.toNat + (num_words.toNat - i.toNat)) = j.toNat + num_words.toNat by omega,
    Nat.add_mod_right, Nat.mod_eq_of_lt hj]

/-- The words read in order, latest first. -/
theorem otbnReadLoop_run (dev : BusDevices) (src_addr : Word) (n : ℕ) (i : Word)
    (past : List BusAccess) :
    ∃ words new, (otbnReadLoop dev src_addr n i).run past = .ok words (new ++ past) ∧
      new.map BusAccess.addr =
        ((List.range n).map fun k => src_addr + (i + .ofNat 32 k) * 4).reverse := by
  induction n generalizing i past with
  | zero => exact ⟨[], [], rfl, rfl⟩
  | succ n ih =>
    let value := dev.answer past (src_addr + i * 4)
    obtain ⟨words, new, hrun, haddrs⟩ := ih (i + 1) (.read32 (src_addr + i * 4) value :: past)
    refine ⟨value :: words, new ++ [.read32 (src_addr + i * 4) value], ?_, ?_⟩
    · rw [otbnReadLoop, run_bind_ok _ (run_read32 _ _ _), run_bind_ok _ hrun, run_pure,
        List.append_assoc]
      rfl
    · have hshift : ∀ k, i + 1 + BitVec.ofNat 32 k = i + BitVec.ofNat 32 (k + 1) := by
        intro k
        rw [BitVec.ofNat_add, BitVec.add_assoc, BitVec.add_comm 1]
        rfl
      rw [List.map_append, haddrs, List.range_succ_eq_map, List.map_cons (l := List.map _ _),
        List.reverse_cons, List.map_map]
      simp only [Function.comp_def, hshift, Nat.succ_eq_add_one]
      rw [BitVec.add_zero]
      rfl

/-! ### The check -/

theorem checkOffsetLen_eq_ok_iff {ok bad : Word} (hne : ok ≠ bad)
    (offset_bytes num_words mem_size : Word) :
    checkOffsetLen ok bad offset_bytes num_words mem_size = ok ↔
      offset_bytes.toNat + 4 * num_words.toNat % 2 ^ 32 ≤ mem_size.toNat := by
  have hoffset := offset_bytes.isLt
  have hsize := mem_size.isLt
  have hlen : (num_words * 4).toNat = 4 * num_words.toNat % 2 ^ 32 := by
    rw [BitVec.toNat_mul, Nat.mul_comm]
    rfl
  have hlt := Nat.mod_lt (4 * num_words.toNat) (Nat.two_pow_pos 32)
  have hsum : (offset_bytes + num_words * 4).toNat =
      (offset_bytes.toNat + 4 * num_words.toNat % 2 ^ 32) % 2 ^ 32 := by
    rw [BitVec.toNat_add, hlen]
  have hcond : (offset_bytes + num_words * 4 < num_words * 4 ∨
      mem_size < offset_bytes + num_words * 4) ↔
      ¬offset_bytes.toNat + 4 * num_words.toNat % 2 ^ 32 ≤ mem_size.toNat := by
    rw [BitVec.lt_def, BitVec.lt_def, hsum, hlen]
    generalize 4 * num_words.toNat % 2 ^ 32 = len at hlt ⊢
    rcases Nat.lt_or_ge (offset_bytes.toNat + len) (2 ^ 32) with hfits | hwraps
    · rw [Nat.mod_eq_of_lt hfits]
      omega
    · omega
  rw [checkOffsetLen]
  split_ifs with h
  · exact iff_of_false hne.symm (hcond.1 h)
  · exact iff_of_true rfl (not_not.1 (mt hcond.2 h))

theorem checkOffsetLen_eq_bad {ok bad offset_bytes num_words mem_size : Word}
    (h : checkOffsetLen ok bad offset_bytes num_words mem_size ≠ ok) :
    checkOffsetLen ok bad offset_bytes num_words mem_size = bad := by
  rw [checkOffsetLen] at h ⊢
  split_ifs at h ⊢ with hcond
  · rfl
  · exact absurd rfl h

/-- A length that passes the check is the true length unless the multiplication wraps. -/
theorem words_inside_iff {offset num_words size : Word} (hsize : size.toNat < 2 ^ 31)
    (hpass : offset.toNat + 4 * num_words.toNat % 2 ^ 32 ≤ size.toNat) :
    (∀ j : Word, j.toNat < num_words.toNat → (offset + j * 4).toNat + 4 ≤ size.toNat) ↔
      num_words.toNat < 2 ^ 30 := by
  constructor
  · intro hall
    by_contra hge
    have hindex : (BitVec.ofNat 32 (size.toNat / 4)).toNat = size.toNat / 4 :=
      Nat.mod_eq_of_lt (by omega)
    have hout := hall (.ofNat 32 (size.toNat / 4)) (by omega)
    rw [BitVec.toNat_add, BitVec.toNat_mul, hindex] at hout
    change (offset.toNat + size.toNat / 4 * 4 % 2 ^ 32) % 2 ^ 32 + 4 ≤ size.toNat at hout
    omega
  · intro hlt j hj
    rw [BitVec.toNat_add, BitVec.toNat_mul]
    change (offset.toNat + j.toNat * 4 % 2 ^ 32) % 2 ^ 32 + 4 ≤ size.toNat
    omega

/-- The addresses of the accesses are those of the words below the number of words. -/
structure Visits (memory offset num_words : Word) (new : List BusAccess) : Prop where
  only : ∀ a ∈ new, ∃ j : Word, j.toNat < num_words.toNat ∧ a.addr = memory + offset + j * 4
  all : ∀ j : Word, j.toNat < num_words.toNat → ∃ a ∈ new, a.addr = memory + offset + j * 4

theorem Visits.inMemory_iff {memory offset num_words : Word} {new : List BusAccess} (size : ℕ)
    (h : Visits memory offset num_words new) :
    (∀ a ∈ new, InMemory memory size a) ↔
      ∀ j : Word, j.toNat < num_words.toNat → (offset + j * 4).toNat + 4 ≤ size := by
  have hsub : ∀ j : Word, memory + offset + j * 4 - memory = offset + j * 4 := by
    intro j
    rw [BitVec.add_assoc, BitVec.add_comm, BitVec.add_sub_cancel]
  constructor
  · intro hall j hj
    obtain ⟨a, ha, haddr⟩ := h.all j hj
    have hin := hall a ha
    rwa [InMemory, haddr, hsub] at hin
  · intro hall a ha
    obtain ⟨j, hj, haddr⟩ := h.only a ha
    rw [InMemory, haddr, hsub]
    exact hall j hj

/-- The condition under which the check keeps the accesses inside the memory. -/
def NoWrappedPass (size : ℕ) (offset num_words : Word) : Prop :=
  num_words.toNat < 2 ^ 30 ∨ size < offset.toNat + 4 * num_words.toNat % 2 ^ 32

/-- What the check decides, and what the loop after it does, for any function of this shape. -/
theorem rejectsOrInMemory_iff {α : Type} {bad : α → Prop} {x : BusM α} {past : List BusAccess}
    {memory offset num_words size : Word} (hsize : size.toNat < 2 ^ 31)
    (hreject : ¬offset.toNat + 4 * num_words.toNat % 2 ^ 32 ≤ size.toNat →
      ∃ a, x.run past = .ok a past ∧ bad a)
    (hpass : offset.toNat + 4 * num_words.toNat % 2 ^ 32 ≤ size.toNat →
      ∃ a new, x.run past = .ok a (new ++ past) ∧ ¬bad a ∧ Visits memory offset num_words new) :
    RejectsOrInMemory bad memory size.toNat x past ↔ NoWrappedPass size.toNat offset num_words := by
  rw [NoWrappedPass]
  by_cases hcheck : offset.toNat + 4 * num_words.toNat % 2 ^ 32 ≤ size.toNat
  · obtain ⟨a, new, hrun, hbad, hvisits⟩ := hpass hcheck
    have hinside := (hvisits.inMemory_iff size.toNat).trans (words_inside_iff hsize hcheck)
    rw [or_iff_left (not_lt.2 hcheck), ← hinside, RejectsOrInMemory, hrun]
    constructor
    · rintro (⟨b, hb, hbbad⟩ | hadds)
      · exact absurd ((EStateM.Result.ok.inj hb).1 ▸ hbbad) hbad
      · exact hadds.new
    · exact fun hnew => .inr ⟨new, rfl, hnew⟩
  · exact iff_of_true (.inl (hreject hcheck)) (.inr (not_le.1 hcheck))

/-! ### The functions -/

section Functions

variable {ok bad : Word} (hne : ok ≠ bad) (memory : Word) {size : Word}
  (hsize : size.toNat < 2 ^ 31) (past : List BusAccess)
include hne hsize

theorem otbnMemWrite_bounds (rnd offset : Word) (src : Word → Word) (num_words : Word) :
    RejectsOrInMemory (· = bad) memory size.toNat
        (otbnMemWrite ok bad memory size rnd offset src num_words) past ↔
      NoWrappedPass size.toNat offset num_words := by
  have hiff := checkOffsetLen_eq_ok_iff hne offset num_words size
  refine rejectsOrInMemory_iff hsize (fun hfail => ?_) fun hcheck => ?_
  · refine ⟨bad, ?_, rfl⟩
    rw [otbnMemWrite, returnUnless, run_bind_ok _ (run_pure _ _), if_neg (mt hiff.1 hfail),
      checkOffsetLen_eq_bad (mt hiff.1 hfail), run_pure]
  · rw [otbnMemWrite, returnUnless, run_bind_ok _ (run_pure _ _), if_pos (hiff.2 hcheck), otbnWrite]
    rcases Nat.eq_zero_or_pos num_words.toNat with hzero | hpos
    · refine ⟨ok, [], ?_, hne, ⟨fun a ha => absurd ha List.not_mem_nil, fun j hj => ?_⟩⟩
      · rw [hzero]
        rfl
      · omega
    · have hstart := Word.toNat_mulHigh rnd num_words
      have hi : (((rnd.setWidth 64 * num_words.setWidth 64) >>> 32).setWidth 32 : Word).toNat <
          num_words.toNat := by
        rw [hstart]
        exact Nat.div_lt_of_lt_mul (Nat.mul_lt_mul_of_pos_right rnd.isLt hpos)
      refine ⟨ok, _, run_bind_ok _ (run_otbnWriteLoop _ _ _ hi _), hne, ⟨?_, ?_⟩⟩
      · intro a ha
        obtain ⟨k, -, rfl⟩ := List.mem_map.1 (List.mem_reverse.1 ha)
        refine ⟨wrappedIndex num_words _ k, ?_, rfl⟩
        rw [toNat_wrappedIndex hpos]
        exact Nat.mod_lt _ hpos
      · intro j hj
        obtain ⟨k, hk, hindex⟩ := exists_wrappedIndex hi hj
        refine ⟨_, List.mem_reverse.2 (List.mem_map.2 ⟨k, List.mem_range.2 hk, rfl⟩), ?_⟩
        rw [hindex]
        rfl

theorem otbnMemRead_bounds (dev : BusDevices) (offset num_words : Word) :
    RejectsOrInMemory (fun a => a.1 = bad) memory size.toNat
        (otbnMemRead ok bad memory size dev offset num_words) past ↔
      NoWrappedPass size.toNat offset num_words := by
  have hiff := checkOffsetLen_eq_ok_iff hne offset num_words size
  refine rejectsOrInMemory_iff hsize (fun hfail => ?_) fun hcheck => ?_
  · refine ⟨(bad, []), ?_, rfl⟩
    rw [otbnMemRead, if_pos (mt hiff.1 hfail), checkOffsetLen_eq_bad (mt hiff.1 hfail)]
    rfl
  · obtain ⟨words, new, hrun, haddrs⟩ :=
      otbnReadLoop_run dev (memory + offset) num_words.toNat 0 past
    have hread : (otbnMemRead ok bad memory size dev offset num_words).run past =
        (otbnReadLoop dev (memory + offset) num_words.toNat 0 >>= fun words =>
          pure (ok, words)).run past := by
      rw [otbnMemRead, if_neg (not_not.2 (hiff.2 hcheck))]
    rw [run_bind_ok _ hrun, run_pure] at hread
    have hzero : ∀ j : Word, memory + offset + (0 + j) * 4 = memory + offset + j * 4 := fun j =>
      congrArg (memory + offset + · * 4) (BitVec.zero_add _)
    refine ⟨(ok, words), new, hread, hne, fun a ha => ?_, fun j hj => ?_⟩
    · have haddr := List.mem_map_of_mem (f := BusAccess.addr) ha
      rw [haddrs] at haddr
      obtain ⟨k, hk, heq⟩ := List.mem_map.1 (List.mem_reverse.1 haddr)
      refine ⟨.ofNat 32 k, ?_, heq.symm.trans (hzero _)⟩
      rw [BitVec.toNat_ofNat, Nat.mod_eq_of_lt ((List.mem_range.1 hk).trans num_words.isLt)]
      exact List.mem_range.1 hk
    · have haddr : memory + offset + j * 4 ∈ new.map BusAccess.addr := by
        rw [haddrs]
        refine List.mem_reverse.2 (List.mem_map.2 ⟨j.toNat, List.mem_range.2 hj, ?_⟩)
        rw [BitVec.ofNat_toNat, BitVec.setWidth_eq, hzero]
      exact List.mem_map.1 haddr

end Functions

/-- The loop of `otbn_zero_dmem` writes the words from `i` on. -/
theorem only_otbnZeroDmemLoop (n : ℕ) (i : Word) (h : i.toNat + 4 * n ≤ kOtbnDMemSizeBytes.toNat) :
    Only (InMemory kOtbnDmem kOtbnDMemSizeBytes.toNat) (otbnZeroDmemLoop n i) := by
  induction n generalizing i with
  | zero => exact .pure _
  | succ n ih =>
    change i.toNat + 4 * (n + 1) ≤ 3072 at h
    refine .bind (only_write32 ?_) fun _ => ih _ ?_
    · rw [InMemory, BusAccess.addr, BitVec.add_comm, BitVec.add_sub_cancel]
      change i.toNat + 4 ≤ 3072
      omega
    · rw [BitVec.toNat_add]
      change (i.toNat + 4) % 2 ^ 32 + 4 * n ≤ 3072
      omega

/-- Each function that reads or writes a memory of OTBN rejects or stays inside the memory just
when the number of words is below `2³⁰` or the wrapped length does not fit; the function without
arguments always stays inside. -/
theorem otbn_access_bounds_iff (dev : BusDevices) (rnd offset num_words : Word) (src : Word → Word)
    (past : List BusAccess) :
    (RejectsOrInMemory (· = kErrorOtbnBadOffsetLen) kOtbnImem kOtbnIMemSizeBytes.toNat
        (SiliconCreator.otbnImemWrite rnd offset src num_words) past ↔
      NoWrappedPass kOtbnIMemSizeBytes.toNat offset num_words) ∧
    (RejectsOrInMemory (· = kErrorOtbnBadOffsetLen) kOtbnDmem kOtbnDMemSizeBytes.toNat
        (SiliconCreator.otbnDmemWrite rnd offset src num_words) past ↔
      NoWrappedPass kOtbnDMemSizeBytes.toNat offset num_words) ∧
    (RejectsOrInMemory (·.1 = kErrorOtbnBadOffsetLen) kOtbnDmem kOtbnDMemSizeBytes.toNat
        (SiliconCreator.otbnDmemRead dev offset num_words) past ↔
      NoWrappedPass kOtbnDMemSizeBytes.toNat offset num_words) ∧
    (RejectsOrInMemory (· = kOtbnErrorBadOffsetLen) kOtbnImem kOtbnIMemSizeBytes.toNat
        (Cryptolib.otbnImemWrite num_words src offset) past ↔
      NoWrappedPass kOtbnIMemSizeBytes.toNat offset num_words) ∧
    (RejectsOrInMemory (· = kOtbnErrorBadOffsetLen) kOtbnDmem kOtbnDMemSizeBytes.toNat
        (Cryptolib.otbnDmemWrite num_words src offset) past ↔
      NoWrappedPass kOtbnDMemSizeBytes.toNat offset num_words) ∧
    (RejectsOrInMemory (·.1 = kOtbnErrorBadOffsetLen) kOtbnDmem kOtbnDMemSizeBytes.toNat
        (Cryptolib.otbnDmemRead dev num_words offset) past ↔
      NoWrappedPass kOtbnDMemSizeBytes.toNat offset num_words) ∧
    Adds (InMemory kOtbnDmem kOtbnDMemSizeBytes.toNat) past
      (Hoare.final (SiliconCreator.otbnZeroDmem.run past)) := by
  have hcreator : kErrorOk ≠ kErrorOtbnBadOffsetLen := by decide
  have hcrypto : kOtbnErrorOk ≠ kOtbnErrorBadOffsetLen := by decide
  exact ⟨otbnMemWrite_bounds hcreator _ (by decide) past rnd offset src num_words,
    otbnMemWrite_bounds hcreator _ (by decide) past rnd offset src num_words,
    otbnMemRead_bounds hcreator _ (by decide) past dev offset num_words,
    otbnMemWrite_bounds hcrypto _ (by decide) past 0 offset src num_words,
    otbnMemWrite_bounds hcrypto _ (by decide) past 0 offset src num_words,
    otbnMemRead_bounds hcrypto _ (by decide) past dev offset num_words,
    (only_otbnZeroDmemLoop _ 0 (by decide)).final past⟩

/-- One word more than `2³⁰` passes as one word. -/
theorem otbn_access_out_of_bounds :
    ¬∀ (rnd offset num_words : Word) (src : Word → Word) (past : List BusAccess),
      RejectsOrInMemory (· = kErrorOtbnBadOffsetLen) kOtbnDmem kOtbnDMemSizeBytes.toNat
        (SiliconCreator.otbnDmemWrite rnd offset src num_words) past := by
  intro hall
  have hpass := (otbnMemWrite_bounds (by decide) _ (by decide) [] 0 0 (fun _ => 0) 0x40000001).1
    (hall 0 0 0x40000001 (fun _ => 0) [])
  exact absurd hpass (by rw [NoWrappedPass]; decide)

end SecureBoot
