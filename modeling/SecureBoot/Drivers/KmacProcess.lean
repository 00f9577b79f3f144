import SecureBoot.Drivers.KmacPrefix

/-! `kmac_process_msg_blocks`: a message goes to the FIFO word by word, then byte by byte; for KMAC
the encoded length of the output follows; the digest is read from the two shares of the state,
with another run of Keccak after each block. -/

namespace SecureBoot

open BusM Fips202

abbrev kKmacCfgAddr : Word := kKmacBaseAddr + 0x14

abbrev kKmacCmdAddr : Word := kKmacBaseAddr + 0x18

abbrev kKmacStatusAddr : Word := kKmacBaseAddr + 0x1c

abbrev kKmacStateAddr : Word := kKmacBaseAddr + 0x400

abbrev kKmacMsgFifoAddr : Word := kKmacBaseAddr + 0x800

/-- `KMAC_STATE_SIZE_BYTES / 2`: the distance of the shares. -/
abbrev kKmacShareOffset : Word := 256

abbrev KMAC_STATUS_SHA3_ABSORB_BIT : ℕ := 1

abbrev KMAC_STATUS_SHA3_SQUEEZE_BIT : ℕ := 2

abbrev KMAC_STATUS_FIFO_FULL_BIT : ℕ := 15

abbrev KMAC_CMD_CMD_FIELD : BitfieldField32 := ⟨0x3f, 0⟩

abbrev KMAC_CMD_CMD_VALUE_START : Word := 29

abbrev KMAC_CMD_CMD_VALUE_PROCESS : Word := 46

abbrev KMAC_CMD_CMD_VALUE_RUN : Word := 49

abbrev KMAC_CMD_CMD_VALUE_DONE : Word := 22

/-! ### The driver -/

/-- `kmac_get_keccak_rate_bytes`; `none` is the error for the arguments. -/
def kmacGetKeccakRateBytes (security_str : Word) : Option ℕ :=
  if security_str = KmacSecurityStr.strength128.value then some 168
  else if security_str = KmacSecurityStr.strength224.value then some 144
  else if security_str = KmacSecurityStr.strength256.value then some 136
  else if security_str = KmacSecurityStr.strength384.value then some 104
  else if security_str = KmacSecurityStr.strength512.value then some 72
  else none

/-- `cmd_reg` with a command, from the reset value. -/
def kmacCmd (value : Word) : Word := bitfieldField32Write 0 KMAC_CMD_CMD_FIELD value

section Driver

variable (dev : BusDevices)

/-- `wait_status_bit`. -/
def kmacWaitStatusBit (bit_position : ℕ) (bit_value : Bool) : BusM KmacError := do
  let regs ← poll dev kKmacStatusAddr fun reg => (waitStatusBit bit_position bit_value [reg]).isSome
  return (waitStatusBit bit_position bit_value regs).getD .internalError

/-- The checks of an error code that return it. -/
def kmacAndThen (x : BusM KmacError) (rest : BusM (KmacError × List Byte)) :
    BusM (KmacError × List Byte) := do
  let err ← x
  if err = .ok then rest else return (err, [])

/-- The word loop with `n` iterations to go, at word `i`. -/
def kmacPushWords (data : List Byte) : ℕ → ℕ → BusM KmacError
  | 0, _ => return .ok
  | n + 1, i => do
    let err ← kmacWaitStatusBit dev KMAC_STATUS_FIFO_FULL_BIT false
    if err = .ok then
      write32 kKmacMsgFifoAddr (.ofBytes (data.getD (4 * i) 0) (data.getD (4 * i + 1) 0)
        (data.getD (4 * i + 2) 0) (data.getD (4 * i + 3) 0))
      kmacPushWords data n (i + 1)
    else return err

/-- The byte loop with `n` iterations to go, at byte `i`. -/
def kmacPushBytes (data : List Byte) : ℕ → ℕ → BusM KmacError
  | 0, _ => return .ok
  | n + 1, i => do
    let err ← kmacWaitStatusBit dev KMAC_STATUS_FIFO_FULL_BIT false
    if err = .ok then
      write8 (kKmacMsgFifoAddr + .ofNat 32 (i % 4)) (data.getD i 0)
      kmacPushBytes data n (i + 1)
    else return err

/-- Bytes one after the other, from byte `i` of the message on. -/
def kmacPushAt : List Byte → ℕ → BusM Unit
  | [], _ => pure ()
  | b :: bytes, i => do
    write8 (kKmacMsgFifoAddr + .ofNat 32 (i % 4)) b
    kmacPushAt bytes (i + 1)

/-- The part for KMAC only. The counter of the last address is the one of the loops before. -/
def kmacPushDigestLen (data_len : ℕ) (digest_len : Word) : BusM KmacError := do
  let digest_len_bits := 8 * digest_len
  if digest_len_bits / 8 ≠ digest_len then
    return .digestLenTooLongError
  let buf := littleEndianEncode digest_len_bits
  kmacPushAt buf.reverse data_len
  write8 (kKmacMsgFifoAddr + .ofNat 32 ((data_len + data_len) % 4)) (.ofNat 8 buf.length)
  return .ok

/-- The block in the state is used up: another run of Keccak. -/
def kmacNextBlock (keccak_rate i : ℕ) : BusM KmacError :=
  if i % keccak_rate = 0 ∧ 0 < i then do
    write32 kKmacCmdAddr (kmacCmd KMAC_CMD_CMD_VALUE_RUN)
    kmacWaitStatusBit dev KMAC_STATUS_SHA3_SQUEEZE_BIT true
  else return .ok

/-- The loop that reads the digest with `n` bytes to go, at byte `i`; then the core is released. -/
def kmacReadDigest (keccak_rate : ℕ) : ℕ → ℕ → BusM (KmacError × List Byte)
  | 0, _ => do
    write32 kKmacCmdAddr (kmacCmd KMAC_CMD_CMD_VALUE_DONE)
    return (.ok, [])
  | n + 1, i => kmacAndThen (kmacNextBlock dev keccak_rate i) do
    let share₀ ← read8 dev (kKmacStateAddr + .ofNat 32 (i % keccak_rate))
    let share₁ ← read8 dev (kKmacStateAddr + kKmacShareOffset + .ofNat 32 (i % keccak_rate))
    let (err, digest) ← kmacReadDigest keccak_rate n (i + 1)
    return (err, (share₀ ^^^ share₁) :: digest)

/-- The error and the bytes of the digest written. The first wait is for the core to be idle; its
result is not used. -/
def kmacProcessMsgBlocks (operation : KmacOperation) (data : List Byte) (digest_len : Word) :
    BusM (KmacError × List Byte) := do
  let _ ← kmacWaitStatusBit dev KMAC_STATUS_SHA3_IDLE_BIT true
  write32 kKmacCmdAddr (kmacCmd KMAC_CMD_CMD_VALUE_START)
  kmacAndThen (kmacWaitStatusBit dev KMAC_STATUS_SHA3_ABSORB_BIT true) <|
    kmacAndThen (kmacPushWords dev data (data.length / 4) 0) <|
    kmacAndThen (kmacPushBytes dev data (data.length - 4 * (data.length / 4))
      (4 * (data.length / 4))) <|
    kmacAndThen (if operation = .KMAC then kmacPushDigestLen data.length digest_len
      else return .ok) do
    write32 kKmacCmdAddr (kmacCmd KMAC_CMD_CMD_VALUE_PROCESS)
    kmacAndThen (kmacWaitStatusBit dev KMAC_STATUS_SHA3_SQUEEZE_BIT true) do
      let cfg_reg ← read32 dev kKmacCfgAddr
      let keccak_str := bitfieldField32Read cfg_reg KMAC_CFG_SHADOWED_KSTRENGTH_FIELD
      match kmacGetKeccakRateBytes keccak_str with
      | none => return (.argsError, [])
      | some keccak_rate => kmacReadDigest dev keccak_rate digest_len.toNat 0

end Driver

/-! ### The interaction -/

/-- Reads of the status only wait. -/
def kmacQuiet : BusAccess → Bool
  | .read32 addr _ => addr == kKmacStatusAddr
  | _ => false

/-- The bytes that a write to the window of the FIFO appends to the message. -/
def fifoBytes : BusAccess → List Byte
  | .write32 addr value => if addr - kKmacMsgFifoAddr < 0x800 then value.toBytes else []
  | .write8 addr value => if addr - kKmacMsgFifoAddr < 0x800 then [value] else []
  | _ => []

/-- The access is a write to the FIFO. -/
def PushesFifo : BusAccess → Prop
  | .write32 addr _ | .write8 addr _ => addr - kKmacMsgFifoAddr < 0x800
  | _ => False

/-- The accesses for byte `i` of the digest: a run if a block has been used up, then the shares. -/
def squeezeByte (keccak_rate : ℕ) (shares : ℕ → Byte × Byte) (i : ℕ) : List BusAccess :=
  (if i % keccak_rate = 0 ∧ 0 < i then
    [.write32 kKmacCmdAddr (kmacCmd KMAC_CMD_CMD_VALUE_RUN)] else []) ++
  [.read8 (kKmacStateAddr + .ofNat 32 (i % keccak_rate)) (shares i).1,
    .read8 (kKmacStateAddr + kKmacShareOffset + .ofNat 32 (i % keccak_rate)) (shares i).2]

/-- The security strength in bits. -/
def KmacSecurityStr.bits : KmacSecurityStr → ℕ
  | .strength128 => 128
  | .strength224 => 224
  | .strength256 => 256
  | .strength384 => 384
  | .strength512 => 512

/-- The rate in bytes: the 1600 bits of the state less the capacity, twice the strength. -/
def KmacSecurityStr.rate (strength : KmacSecurityStr) : ℕ := (1600 - 2 * strength.bits) / 8

/-- The interaction of a sponge that absorbs `message` and is squeezed for `digest`. -/
def SpongeInteraction (message digest : List Byte) (t : List BusAccess) : Prop :=
  ∃ (pushes : List BusAccess) (cfg_reg : Word) (strength : KmacSecurityStr)
      (shares : ℕ → Byte × Byte),
    (∀ a ∈ pushes, PushesFifo a) ∧ pushes.flatMap fifoBytes = message ∧
    bitfieldField32Read cfg_reg KMAC_CFG_SHADOWED_KSTRENGTH_FIELD = strength.value ∧
    digest = (List.range digest.length).map (fun i => (shares i).1 ^^^ (shares i).2) ∧
    t = [.write32 kKmacCmdAddr (kmacCmd KMAC_CMD_CMD_VALUE_START)] ++ pushes ++
      [.write32 kKmacCmdAddr (kmacCmd KMAC_CMD_CMD_VALUE_PROCESS), .read32 kKmacCfgAddr cfg_reg] ++
      (List.range digest.length).flatMap (squeezeByte strength.rate shares) ++
      [.write32 kKmacCmdAddr (kmacCmd KMAC_CMD_CMD_VALUE_DONE)]

theorem kmacGetKeccakRateBytes_eq_some {security_str : Word} {keccak_rate : ℕ}
    (h : kmacGetKeccakRateBytes security_str = some keccak_rate) :
    ∃ strength : KmacSecurityStr, security_str = strength.value ∧ keccak_rate = strength.rate := by
  rw [kmacGetKeccakRateBytes] at h
  split_ifs at h with h₁ h₂ h₃ h₄ h₅
  · exact ⟨.strength128, h₁, (Option.some.inj h).symm⟩
  · exact ⟨.strength224, h₂, (Option.some.inj h).symm⟩
  · exact ⟨.strength256, h₃, (Option.some.inj h).symm⟩
  · exact ⟨.strength384, h₄, (Option.some.inj h).symm⟩
  · exact ⟨.strength512, h₅, (Option.some.inj h).symm⟩

/-! ### What the parts put on the bus -/

section Parts

variable (dev : BusDevices)

theorem emits_kmacAndThen {x : BusM KmacError} {rest : BusM (KmacError × List Byte)}
    {Q : KmacError → List BusAccess → Prop} {R : List Byte → List BusAccess → Prop}
    (hx : Emits kmacQuiet x Q)
    (hrest : ∀ t, Q .ok t → Emits kmacQuiet rest fun r t' => r.1 = .ok → R r.2 (t ++ t')) :
    Emits kmacQuiet (kmacAndThen x rest) fun r t => r.1 = .ok → R r.2 t := by
  refine hx.bind fun err t ht => .ite _ (fun hok => hrest t (hok ▸ ht)) fun hne => .pure ?_
  exact fun hok => absurd hok hne

theorem emits_kmacWaitStatusBit (bit_position : ℕ) (bit_value : Bool) :
    Emits kmacQuiet (kmacWaitStatusBit dev bit_position bit_value) fun _ t => t = [] :=
  (Emits.poll fun _ => beq_self_eq_true kKmacStatusAddr).bind fun _ t ht => .pure (by rw [ht]; rfl)

/-- Writes to the FIFO with these bytes. -/
def Pushes (bytes : List Byte) (t : List BusAccess) : Prop :=
  (∀ a ∈ t, PushesFifo a) ∧ t.flatMap fifoBytes = bytes

theorem Pushes.nil : Pushes [] [] := ⟨fun _ h => absurd h List.not_mem_nil, rfl⟩

theorem Pushes.append {bytes bytes' : List Byte} {t t' : List BusAccess} (h : Pushes bytes t)
    (h' : Pushes bytes' t') : Pushes (bytes ++ bytes') (t ++ t') :=
  ⟨List.forall_mem_append.2 ⟨h.1, h'.1⟩, by rw [List.flatMap_append, h.2, h'.2]⟩

theorem fifo_window {k : ℕ} (hk : k < 4) :
    kKmacMsgFifoAddr + .ofNat 32 k - kKmacMsgFifoAddr < 0x800 := by
  rw [BitVec.add_comm, BitVec.add_sub_cancel, BitVec.lt_def, BitVec.toNat_ofNat,
    Nat.mod_eq_of_lt (by omega)]
  exact hk.trans (by decide)

theorem pushes_write8 (i : ℕ) (b : Byte) :
    Pushes [b] [.write8 (kKmacMsgFifoAddr + .ofNat 32 (i % 4)) b] := by
  have hwindow := fifo_window (Nat.mod_lt i (by decide : 0 < 4))
  refine ⟨List.forall_mem_singleton.2 hwindow, ?_⟩
  rw [List.flatMap_singleton, fifoBytes, if_pos hwindow]

theorem emits_kmacPushWords (data : List Byte) (n i : ℕ) :
    Emits kmacQuiet (kmacPushWords dev data n i) fun err t => err = .ok →
      Pushes ((List.range (4 * n)).map fun k => data.getD (4 * i + k) 0) t := by
  induction n generalizing i with
  | zero => exact .pure fun _ => Pushes.nil
  | succ n ih =>
    refine (emits_kmacWaitStatusBit dev _ _).bind fun err t ht => .ite _ (fun _ => ?_) fun hne =>
      .pure fun hok => absurd hok hne
    refine (Emits.write32 rfl).bind fun _ t' ht' => (ih (i + 1)).mono fun err t'' h hok => ?_
    have hword : Pushes ((List.range 4).map fun k => data.getD (4 * i + k) 0) t' := by
      have hwindow : kKmacMsgFifoAddr - kKmacMsgFifoAddr < 0x800 := by decide
      rw [ht']
      refine ⟨List.forall_mem_singleton.2 hwindow, ?_⟩
      rw [List.flatMap_singleton, fifoBytes, if_pos hwindow, Word.toBytes_ofBytes]
      rfl
    rw [ht, List.nil_append, Nat.mul_succ, Nat.add_comm, map_range_add]
    have hnext := hword.append (h hok)
    simpa only [Nat.mul_succ, Nat.add_assoc, Nat.add_comm 4] using hnext

theorem emits_kmacPushBytes (data : List Byte) (n i : ℕ) :
    Emits kmacQuiet (kmacPushBytes dev data n i) fun err t => err = .ok →
      Pushes ((List.range n).map fun k => data.getD (i + k) 0) t := by
  induction n generalizing i with
  | zero => exact .pure fun _ => Pushes.nil
  | succ n ih =>
    refine (emits_kmacWaitStatusBit dev _ _).bind fun err t ht => .ite _ (fun _ => ?_) fun hne =>
      .pure fun hok => absurd hok hne
    refine (Emits.write8 rfl).bind fun _ t' ht' => (ih (i + 1)).mono fun err t'' h hok => ?_
    have hnext := (pushes_write8 i (data.getD i 0)).append (h hok)
    simp only [Nat.add_assoc] at hnext
    rw [ht, ht', List.nil_append, Nat.add_comm n, map_range_add]
    exact hnext

theorem emits_kmacPushAt (bytes : List Byte) (i : ℕ) :
    Emits kmacQuiet (kmacPushAt bytes i) fun _ t => Pushes bytes t := by
  induction bytes generalizing i with
  | nil => exact .pure Pushes.nil
  | cons b bytes ih =>
    refine (Emits.write8 rfl).bind fun _ t ht => (ih (i + 1)).mono fun _ t' h => ?_
    rw [ht]
    exact (pushes_write8 i b).append h

theorem rightEncode_eq (x : ℕ) :
    rightEncode x = ((byteDigits x).reverse ++ [(byteDigits x).length]).map (BitVec.ofNat 8) := rfl

/-- The guard of the length in bits. -/
theorem digest_len_guard_iff (digest_len : Word) :
    8 * digest_len / 8 = digest_len ↔ digest_len.toNat < 2 ^ 29 := by
  have hlt := digest_len.isLt
  rw [← BitVec.toNat_inj, BitVec.toNat_udiv, BitVec.toNat_mul]
  change 8 * digest_len.toNat % 2 ^ 32 / 8 = digest_len.toNat ↔ _
  omega

theorem emits_kmacPushDigestLen (data_len : ℕ) (digest_len : Word) :
    Emits kmacQuiet (kmacPushDigestLen data_len digest_len) fun err t => err = .ok →
      digest_len.toNat < 2 ^ 29 ∧ Pushes (rightEncode (8 * digest_len.toNat)) t := by
  refine .ite _ (fun _ => .pure fun h => absurd h (by decide)) fun hfits => ?_
  have hlt := (digest_len_guard_iff digest_len).1 (not_not.1 hfits)
  have hbits : (8 * digest_len).toNat = 8 * digest_len.toNat := by
    rw [BitVec.toNat_mul]
    exact Nat.mod_eq_of_lt (by change 8 * digest_len.toNat < 2 ^ 32; omega)
  refine (emits_kmacPushAt _ _).bind fun _ t ht => (Emits.write8 rfl).bind fun _ t' ht' =>
    .pure fun _ => ⟨hlt, ?_⟩
  have hpushes := ht.append (pushes_write8 (data_len + data_len)
    (.ofNat 8 (littleEndianEncode (8 * digest_len)).length))
  rw [List.append_nil, ht', rightEncode_eq, List.map_append]
  rw [littleEndianEncode_eq, hbits, List.length_map] at hpushes ⊢
  rw [← List.map_reverse] at hpushes
  exact hpushes

theorem emits_kmacNextBlock (keccak_rate i : ℕ) :
    Emits kmacQuiet (kmacNextBlock dev keccak_rate i) fun _ t =>
      t = if i % keccak_rate = 0 ∧ 0 < i then
        [.write32 kKmacCmdAddr (kmacCmd KMAC_CMD_CMD_VALUE_RUN)] else [] := by
  refine .ite _ (fun hrun => ?_) fun hno => .pure (if_neg hno).symm
  refine (Emits.write32 rfl).bind fun _ t ht =>
    (emits_kmacWaitStatusBit dev _ _).mono fun _ t' ht' => ?_
  rw [ht, ht', if_pos hrun, List.append_nil]

/-- The digest is read in order, with the shares at the place in the block. -/
theorem emits_kmacReadDigest (keccak_rate n i : ℕ) :
    Emits kmacQuiet (kmacReadDigest dev keccak_rate n i) fun r t => r.1 = .ok →
      ∃ shares : ℕ → Byte × Byte,
        r.2 = (List.range n).map (fun k => (shares (i + k)).1 ^^^ (shares (i + k)).2) ∧
        t = ((List.range n).flatMap fun k => squeezeByte keccak_rate shares (i + k)) ++
          [.write32 kKmacCmdAddr (kmacCmd KMAC_CMD_CMD_VALUE_DONE)] := by
  induction n generalizing i with
  | zero =>
    refine (Emits.write32 rfl).bind fun _ t ht => .pure fun _ => ⟨fun _ => (0, 0), rfl, ?_⟩
    rw [ht]
    rfl
  | succ n ih =>
    refine emits_kmacAndThen (R := fun digest t => ∃ shares : ℕ → Byte × Byte,
      digest = (List.range (n + 1)).map (fun k => (shares (i + k)).1 ^^^ (shares (i + k)).2) ∧
      t = ((List.range (n + 1)).flatMap fun k => squeezeByte keccak_rate shares (i + k)) ++
        [.write32 kKmacCmdAddr (kmacCmd KMAC_CMD_CMD_VALUE_DONE)])
      (emits_kmacNextBlock dev keccak_rate i) fun t ht => ?_
    refine (Emits.read8 fun _ => rfl).bind fun share₀ t₀ ht₀ =>
      (Emits.read8 fun _ => rfl).bind fun share₁ t₁ ht₁ => (ih (i + 1)).bind fun r t₂ h => .pure ?_
    rintro hok
    obtain ⟨shares, hdigest, ht₂⟩ := h hok
    have hnext : ∀ k, Function.update shares i (share₀, share₁) (i + (k + 1)) =
        shares (i + 1 + k) := by
      intro k
      rw [Function.update_of_ne (by omega), Nat.add_assoc, Nat.add_comm 1 k]
    have hbyte : ∀ k, squeezeByte keccak_rate (Function.update shares i (share₀, share₁))
        (i + (k + 1)) = squeezeByte keccak_rate shares (i + 1 + k) := by
      intro k
      rw [squeezeByte, squeezeByte, hnext, Nat.add_assoc i 1 k, Nat.add_comm 1 k]
    refine ⟨Function.update shares i (share₀, share₁), ?_, ?_⟩
    · rw [List.range_succ_eq_map, List.map_cons, List.map_map, hdigest]
      simp only [Function.comp_def, Nat.succ_eq_add_one, hnext, Nat.add_zero,
        Function.update_self]
    · rw [List.range_succ_eq_map, List.flatMap_cons, List.flatMap_map, ht, ht₀, ht₁, ht₂]
      simp only [Nat.succ_eq_add_one, hbyte, Nat.add_zero, List.append_assoc, List.append_nil]
      rw [squeezeByte, Function.update_self]
      simp only [List.append_assoc, List.cons_append, List.nil_append]

/-- The result of a call that returns without an error. -/
def Digested (operation : KmacOperation) (data : List Byte) (digest_len : Word)
    (digest : List Byte) (t : List BusAccess) : Prop :=
  digest.length = digest_len.toNat ∧ (operation = .KMAC → digest_len.toNat < 2 ^ 29) ∧
    SpongeInteraction
      (data ++ if operation = .KMAC then rightEncode (8 * digest_len.toNat) else []) digest t

/-- The words and then the bytes are the whole message. -/
theorem message_eq (data : List Byte) :
    ((List.range (4 * (data.length / 4))).map fun k => data.getD (4 * 0 + k) 0) ++
      ((List.range (data.length - 4 * (data.length / 4))).map fun k =>
        data.getD (4 * (data.length / 4) + k) 0) = data := by
  simp only [Nat.mul_zero, Nat.zero_add]
  rw [← map_range_add (fun k => data.getD k 0),
    show 4 * (data.length / 4) + (data.length - 4 * (data.length / 4)) = data.length by omega,
    map_range_getD data (Nat.le_refl _), Nat.sub_self]
  exact List.append_nil data

/-- A call that returns without an error is the interaction of a sponge. -/
theorem emits_kmacProcessMsgBlocks (operation : KmacOperation) (data : List Byte)
    (digest_len : Word) :
    Emits kmacQuiet (kmacProcessMsgBlocks dev operation data digest_len) fun r t =>
      r.1 = .ok → Digested operation data digest_len r.2 t := by
  have hlen : Emits kmacQuiet (if operation = .KMAC then
      kmacPushDigestLen data.length digest_len else return .ok) fun err t => err = .ok →
        (operation = .KMAC → digest_len.toNat < 2 ^ 29) ∧
        Pushes (if operation = .KMAC then rightEncode (8 * digest_len.toNat) else []) t := by
    refine .ite _ (fun hkmac => ?_) fun hno => .pure fun _ => ⟨fun h => absurd h hno, ?_⟩
    · rw [if_pos hkmac]
      exact (emits_kmacPushDigestLen _ _).mono fun err t h hok => ⟨fun _ => (h hok).1, (h hok).2⟩
    · rw [if_neg hno]
      exact Pushes.nil
  refine (emits_kmacWaitStatusBit dev _ _).bind fun _ t₀ h₀ =>
    (Emits.write32 rfl).bind fun _ t₁ h₁ => ?_
  refine emits_kmacAndThen (R := fun d t => Digested operation data digest_len d (t₀ ++ (t₁ ++ t)))
    (emits_kmacWaitStatusBit dev _ _) fun t₂ h₂ => ?_
  refine emits_kmacAndThen
    (R := fun d t => Digested operation data digest_len d (t₀ ++ (t₁ ++ (t₂ ++ t))))
    (emits_kmacPushWords dev data _ _) fun t₃ h₃ => ?_
  refine emits_kmacAndThen
    (R := fun d t => Digested operation data digest_len d (t₀ ++ (t₁ ++ (t₂ ++ (t₃ ++ t)))))
    (emits_kmacPushBytes dev data _ _) fun t₄ h₄ => ?_
  refine emits_kmacAndThen (R := fun d t =>
    Digested operation data digest_len d (t₀ ++ (t₁ ++ (t₂ ++ (t₃ ++ (t₄ ++ t))))))
    hlen fun t₅ h₅ => ?_
  refine (Emits.write32 rfl).bind fun _ t₆ h₆ => ?_
  refine emits_kmacAndThen (R := fun d t =>
    Digested operation data digest_len d (t₀ ++ (t₁ ++ (t₂ ++ (t₃ ++ (t₄ ++ (t₅ ++ (t₆ ++ t))))))))
    (emits_kmacWaitStatusBit dev _ _) fun t₇ h₇ => ?_
  refine (Emits.read32 fun _ => rfl).bind fun cfg_reg t₈ h₈ => ?_
  cases hrate : kmacGetKeccakRateBytes
    (bitfieldField32Read cfg_reg KMAC_CFG_SHADOWED_KSTRENGTH_FIELD) with
  | none =>
    simp only [hrate]
    exact .pure fun h => absurd h (by decide)
  | some keccak_rate =>
    simp only [hrate]
    refine (emits_kmacReadDigest dev keccak_rate _ 0).mono fun r t₉ h hok => ?_
    obtain ⟨shares, hdigest, h₉⟩ := h hok
    have hlength : r.2.length = digest_len.toNat := by
      rw [hdigest, List.length_map, List.length_range]
    have hpushes := ((h₃ rfl).append (h₄ rfl)).append (h₅ rfl).2
    rw [message_eq] at hpushes
    obtain ⟨strength, hstrength, rfl⟩ := kmacGetKeccakRateBytes_eq_some hrate
    refine ⟨hlength, (h₅ rfl).1, t₃ ++ t₄ ++ t₅, cfg_reg, strength, shares, hpushes.1,
      hpushes.2, hstrength, ?_, ?_⟩
    · rw [hlength, hdigest]
      simp only [Nat.zero_add]
    · rw [hlength, h₀, h₁, h₂, h₆, h₇, h₈, h₉]
      simp only [Nat.zero_add, List.append_assoc, List.nil_append, List.cons_append]

end Parts

/-! ### A device that answers -/

/-- The last command of the past. -/
def lastCommand : List BusAccess → Option Word
  | [] => none
  | .write32 addr value :: past =>
    if addr = kKmacCmdAddr then some value else lastCommand past
  | _ :: past => lastCommand past

/-- The last command lets the core squeeze. -/
def Squeezes (past : List BusAccess) : Prop :=
  lastCommand past = some (kmacCmd KMAC_CMD_CMD_VALUE_PROCESS) ∨
    lastCommand past = some (kmacCmd KMAC_CMD_CMD_VALUE_RUN)

/-- The wait ends without a fault. -/
def WaitEnds (dev : BusDevices) (bit_position : ℕ) (bit_value : Bool) (past : List BusAccess) :
    Prop :=
  ∃ past', (kmacWaitStatusBit dev bit_position bit_value).run past = .ok .ok past'

/-- The core absorbs after the start, squeezes after the end of the message and after a run, and
has no fault; its configuration has one of the five strengths. -/
structure KmacResponds (dev : BusDevices) (past : List BusAccess) : Prop where
  idle : WaitEnds dev KMAC_STATUS_SHA3_IDLE_BIT true past
  absorb : ∀ past, lastCommand past = some (kmacCmd KMAC_CMD_CMD_VALUE_START) →
    WaitEnds dev KMAC_STATUS_SHA3_ABSORB_BIT true past ∧
    WaitEnds dev KMAC_STATUS_FIFO_FULL_BIT false past
  squeeze : ∀ past, Squeezes past → WaitEnds dev KMAC_STATUS_SHA3_SQUEEZE_BIT true past
  strength : ∀ past, (kmacGetKeccakRateBytes
    (bitfieldField32Read (dev.answer past kKmacCfgAddr) KMAC_CFG_SHADOWED_KSTRENGTH_FIELD)).isSome

theorem lastCommand_of_adds {past past' : List BusAccess}
    (h : Adds (fun a => a.addr ≠ kKmacCmdAddr) past past') : lastCommand past' = lastCommand past := by
  obtain ⟨new, rfl, hnew⟩ := h
  induction new with
  | nil => rfl
  | cons a new ih =>
    have hrest := ih fun b hb => hnew b (List.mem_cons_of_mem _ hb)
    cases a with
    | write32 addr value =>
      have ha : addr ≠ kKmacCmdAddr := hnew _ List.mem_cons_self
      rw [List.cons_append, lastCommand, if_neg ha, hrest]
    | read32 | read8 | write8 => exact hrest

section Answers

variable {dev : BusDevices} {past : List BusAccess}

theorem only_kmacWaitStatusBit (bit_position : ℕ) (bit_value : Bool) :
    Only (fun a => a.addr ≠ kKmacCmdAddr) (kmacWaitStatusBit dev bit_position bit_value) :=
  .bind (only_poll fun _ => show kKmacStatusAddr ≠ kKmacCmdAddr by decide) fun _ => .pure _

/-- A wait that ends leaves the last command. -/
theorem WaitEnds.run {bit_position : ℕ} {bit_value : Bool}
    (h : WaitEnds dev bit_position bit_value past) :
    ∃ past', (kmacWaitStatusBit dev bit_position bit_value).run past = .ok .ok past' ∧
      lastCommand past' = lastCommand past := by
  obtain ⟨past', hrun⟩ := h
  refine ⟨past', hrun, ?_⟩
  have hfinal := (@only_kmacWaitStatusBit dev bit_position bit_value).final past
  rw [hrun] at hfinal
  exact lastCommand_of_adds hfinal

/-- From `past` the program returns without an error and without a command. -/
def Continues (x : BusM KmacError) (past : List BusAccess) : Prop :=
  ∃ past', x.run past = .ok .ok past' ∧ lastCommand past' = lastCommand past

theorem run_kmacAndThen {x : BusM KmacError} (rest : BusM (KmacError × List Byte))
    {past' : List BusAccess} (h : x.run past = .ok .ok past') :
    (kmacAndThen x rest).run past = rest.run past' := by
  rw [kmacAndThen, run_bind_ok _ h, if_pos rfl]

theorem continues_kmacPushWords {past₀ : List BusAccess} (hdev : KmacResponds dev past₀)
    (data : List Byte) (n i : ℕ) (past : List BusAccess)
    (h : lastCommand past = some (kmacCmd KMAC_CMD_CMD_VALUE_START)) :
    Continues (kmacPushWords dev data n i) past := by
  induction n generalizing i past with
  | zero => exact ⟨past, rfl, rfl⟩
  | succ n ih =>
    obtain ⟨past₁, hrun, hlast⟩ := (hdev.absorb past h).2.run
    obtain ⟨past₂, hrun', hlast'⟩ := ih (i + 1) (.write32 kKmacMsgFifoAddr _ :: past₁)
      (hlast.trans h)
    refine ⟨past₂, ?_, hlast'.trans hlast⟩
    rw [kmacPushWords, run_bind_ok _ hrun, if_pos rfl, run_bind_ok _ (run_write32 _ _ _)]
    exact hrun'

theorem continues_kmacPushBytes {past₀ : List BusAccess} (hdev : KmacResponds dev past₀)
    (data : List Byte) (n i : ℕ) (past : List BusAccess)
    (h : lastCommand past = some (kmacCmd KMAC_CMD_CMD_VALUE_START)) :
    Continues (kmacPushBytes dev data n i) past := by
  induction n generalizing i past with
  | zero => exact ⟨past, rfl, rfl⟩
  | succ n ih =>
    obtain ⟨past₁, hrun, hlast⟩ := (hdev.absorb past h).2.run
    obtain ⟨past₂, hrun', hlast'⟩ := ih (i + 1)
      (.write8 (kKmacMsgFifoAddr + .ofNat 32 (i % 4)) (data.getD i 0) :: past₁) (hlast.trans h)
    refine ⟨past₂, ?_, hlast'.trans hlast⟩
    rw [kmacPushBytes, run_bind_ok _ hrun, if_pos rfl, run_bind_ok _ (run_write8 _ _ _)]
    exact hrun'

theorem exists_run_kmacPushAt (bytes : List Byte) (i : ℕ) (past : List BusAccess) :
    ∃ past', (kmacPushAt bytes i).run past = .ok ⟨⟩ past' := by
  induction bytes generalizing i past with
  | nil => exact ⟨past, rfl⟩
  | cons b bytes ih =>
    obtain ⟨past', hrun⟩ := ih (i + 1) (.write8 (kKmacMsgFifoAddr + .ofNat 32 (i % 4)) b :: past)
    exact ⟨past', by rw [kmacPushAt, run_bind_ok _ (run_write8 _ _ _), hrun]⟩

theorem exists_run_kmacPushDigestLen (data_len : ℕ) (digest_len : Word) (past : List BusAccess) :
    ∃ past', (kmacPushDigestLen data_len digest_len).run past =
      .ok (if digest_len.toNat < 2 ^ 29 then .ok else .digestLenTooLongError) past' := by
  rw [kmacPushDigestLen]
  by_cases hfits : 8 * digest_len / 8 = digest_len
  · obtain ⟨past', hrun⟩ := exists_run_kmacPushAt (littleEndianEncode (8 * digest_len)).reverse
      data_len past
    rw [if_neg (not_not.2 hfits), if_pos ((digest_len_guard_iff digest_len).1 hfits),
      run_bind_ok _ hrun, run_bind_ok _ (run_write8 _ _ _), run_pure]
    exact ⟨_, rfl⟩
  · refine ⟨past, ?_⟩
    rw [if_pos hfits, if_neg fun h => hfits ((digest_len_guard_iff digest_len).2 h), run_pure]

theorem lastCommand_cmd (value : Word) (past : List BusAccess) :
    lastCommand (.write32 kKmacCmdAddr value :: past) = some value := if_pos rfl

theorem exists_run_kmacNextBlock {past₀ : List BusAccess} (hdev : KmacResponds dev past₀)
    (keccak_rate i : ℕ) (past : List BusAccess) (h : Squeezes past) :
    ∃ past', (kmacNextBlock dev keccak_rate i).run past = .ok .ok past' ∧ Squeezes past' := by
  rw [kmacNextBlock]
  split_ifs
  · obtain ⟨past', hrun, hlast⟩ := (hdev.squeeze _ (.inr (lastCommand_cmd _ past))).run
    refine ⟨past', ?_, .inr (hlast.trans (lastCommand_cmd _ past))⟩
    rw [run_bind_ok _ (run_write32 _ _ _), hrun]
  · exact ⟨past, rfl, h⟩

theorem exists_run_kmacReadDigest {past₀ : List BusAccess} (hdev : KmacResponds dev past₀)
    (keccak_rate n i : ℕ) (past : List BusAccess) (h : Squeezes past) :
    ∃ digest past', (kmacReadDigest dev keccak_rate n i).run past = .ok (.ok, digest) past' := by
  induction n generalizing i past with
  | zero => exact ⟨[], _, rfl⟩
  | succ n ih =>
    obtain ⟨past₁, hrun, h₁⟩ := exists_run_kmacNextBlock hdev keccak_rate i past h
    rw [kmacReadDigest, run_kmacAndThen _ hrun, run_bind_ok _ (run_read8 _ _ _),
      run_bind_ok _ (run_read8 _ _ _)]
    obtain ⟨digest, past₂, hrun'⟩ := ih (i + 1) _ (show Squeezes (.read8 _ _ :: .read8 _ _ :: past₁)
      from h₁)
    exact ⟨_, past₂, (run_bind_ok _ hrun').trans (run_pure _ _)⟩

/-- On a device without a fault the call ends; only the length of the output is refused. -/
theorem exists_run_kmacProcessMsgBlocks (hdev : KmacResponds dev past) (operation : KmacOperation)
    (data : List Byte) (digest_len : Word) :
    ∃ digest past', (kmacProcessMsgBlocks dev operation data digest_len).run past =
      .ok (if operation = .KMAC ∧ 2 ^ 29 ≤ digest_len.toNat then .digestLenTooLongError else .ok,
        digest) past' := by
  obtain ⟨past₁, hidle⟩ := hdev.idle
  rw [kmacProcessMsgBlocks, run_bind_ok _ hidle, run_bind_ok _ (run_write32 _ _ _)]
  have hstart := lastCommand_cmd (kmacCmd KMAC_CMD_CMD_VALUE_START) past₁
  obtain ⟨past₂, habsorb, h₂⟩ := (hdev.absorb _ hstart).1.run
  obtain ⟨past₃, hwords, h₃⟩ :=
    continues_kmacPushWords hdev data (data.length / 4) 0 past₂ (h₂.trans hstart)
  obtain ⟨past₄, hbytes, -⟩ := continues_kmacPushBytes hdev data
    (data.length - 4 * (data.length / 4)) (4 * (data.length / 4)) past₃ (h₃.trans (h₂.trans hstart))
  rw [run_kmacAndThen _ habsorb, run_kmacAndThen _ hwords, run_kmacAndThen _ hbytes]
  obtain ⟨past₅, hlen⟩ := exists_run_kmacPushDigestLen data.length digest_len past₄
  by_cases hlong : operation = .KMAC ∧ 2 ^ 29 ≤ digest_len.toNat
  · rw [if_neg (not_lt.2 hlong.2)] at hlen
    rw [if_pos hlong.1, if_pos hlong, kmacAndThen, run_bind_ok _ hlen, if_neg (by decide)]
    exact ⟨[], past₅, rfl⟩
  have hfits : ∃ past', (if operation = .KMAC then kmacPushDigestLen data.length digest_len
      else return .ok : BusM KmacError).run past₄ = .ok .ok past' := by
    split_ifs with hkmac
    · exact ⟨past₅, hlen.trans (by rw [if_pos (not_le.1 fun h => hlong ⟨hkmac, h⟩)])⟩
    · exact ⟨past₄, rfl⟩
  obtain ⟨past₆, hpushed⟩ := hfits
  have hprocess := lastCommand_cmd (kmacCmd KMAC_CMD_CMD_VALUE_PROCESS) past₆
  obtain ⟨past₇, hsqueeze, h₇⟩ := (hdev.squeeze _ (.inl hprocess)).run
  obtain ⟨keccak_rate, hrate⟩ := Option.isSome_iff_exists.1 (hdev.strength past₇)
  rw [run_kmacAndThen _ hpushed, run_bind_ok _ (run_write32 _ _ _), run_kmacAndThen _ hsqueeze,
    run_bind_ok _ (run_read32 _ _ _), if_neg hlong]
  simp only [hrate]
  exact exists_run_kmacReadDigest hdev keccak_rate _ 0 _ (.inl (h₇.trans hprocess))

end Answers

/-- Every call that returns without an error is the interaction of a sponge for its message and
digest. A device without faults makes every call return, and only an output for KMAC whose length
in bits is no 32-bit number is refused. -/
theorem kmac_process_msg_blocks_spec (dev : BusDevices) (past : List BusAccess)
    (operation : KmacOperation) (data : List Byte) (digest_len : Word) :
    (∀ digest past',
      (kmacProcessMsgBlocks dev operation data digest_len).run past = .ok (.ok, digest) past' →
      ∃ new, past' = new ++ past ∧
        Digested operation data digest_len digest (traffic kmacQuiet new)) ∧
    (KmacResponds dev past →
      ∃ digest past', (kmacProcessMsgBlocks dev operation data digest_len).run past =
        .ok (if operation = .KMAC ∧ 2 ^ 29 ≤ digest_len.toNat then .digestLenTooLongError else .ok,
          digest) past') := by
  refine ⟨fun digest past' hrun => ?_, fun hdev =>
    exists_run_kmacProcessMsgBlocks hdev operation data digest_len⟩
  obtain ⟨new, hpast, hdigested⟩ :=
    emits_kmacProcessMsgBlocks dev operation data digest_len past _ past' hrun
  exact ⟨new, hpast, hdigested rfl⟩

/-- The status that follows a command. -/
def kmacStatus (command : Option Word) : Word :=
  if command = some (kmacCmd KMAC_CMD_CMD_VALUE_START) then 2
  else if command = some (kmacCmd KMAC_CMD_CMD_VALUE_PROCESS) then 4
  else if command = some (kmacCmd KMAC_CMD_CMD_VALUE_RUN) then 4
  else 1

/-- A device with strength 256 and a state of ones under a mask of zeros. -/
def kmacDevice : BusDevices where
  answer past addr :=
    if addr = kKmacStatusAddr then kmacStatus (lastCommand past)
    else if addr = kKmacCfgAddr then 4
    else if addr - kKmacStateAddr < kKmacShareOffset then 0xff
    else 0
  patience := 0

theorem run_poll_of_done {dev : BusDevices} {addr : Word} {done : Word → Bool}
    {past : List BusAccess} (h : done (dev.answer past addr)) :
    (poll dev addr done).run past =
      .ok [dev.answer past addr] (.read32 addr (dev.answer past addr) :: past) := by
  rw [poll]
  cases dev.patience <;>
  · rw [pollFrom, run_bind_ok _ (run_read32 _ _ _), if_pos h, run_pure]

theorem waitEnds_of_answer {dev : BusDevices} {bit_position : ℕ} {bit_value : Bool}
    {past : List BusAccess}
    (h : waitStatusBit bit_position bit_value [dev.answer past kKmacStatusAddr] = some .ok) :
    WaitEnds dev bit_position bit_value past := by
  refine ⟨.read32 kKmacStatusAddr (dev.answer past kKmacStatusAddr) :: past, ?_⟩
  have hdone : (waitStatusBit bit_position bit_value [dev.answer past kKmacStatusAddr]).isSome := by
    rw [h, Option.isSome_some]
  rw [kmacWaitStatusBit, run_bind_ok _ (run_poll_of_done hdone), run_pure, h, Option.getD_some]

theorem kmacResponds_kmacDevice : KmacResponds kmacDevice [] where
  idle := waitEnds_of_answer (by decide)
  absorb past h := by
    have hanswer : kmacDevice.answer past kKmacStatusAddr = 2 := congrArg kmacStatus h
    exact ⟨waitEnds_of_answer (by rw [hanswer]; decide),
      waitEnds_of_answer (by rw [hanswer]; decide)⟩
  squeeze past h := by
    have hanswer : kmacDevice.answer past kKmacStatusAddr = 4 :=
      h.elim (congrArg kmacStatus) (congrArg kmacStatus)
    exact waitEnds_of_answer (by rw [hanswer]; decide)
  strength past := by
    have hanswer : kmacDevice.answer past kKmacCfgAddr = 4 := rfl
    rw [hanswer]
    decide

theorem kmac_process_msg_blocks_of_device :
    ∃ digest past', (kmacProcessMsgBlocks kmacDevice .KMAC [0x61, 0x62, 0x63] 200).run [] =
      .ok (.ok, digest) past' ∧
    ∃ new, past' = new ++ [] ∧
      Digested .KMAC [0x61, 0x62, 0x63] 200 digest (traffic kmacQuiet new) := by
  have hspec := kmac_process_msg_blocks_spec kmacDevice [] .KMAC [0x61, 0x62, 0x63] 200
  obtain ⟨digest, past', hrun⟩ := hspec.2 kmacResponds_kmacDevice
  exact ⟨digest, past', hrun, hspec.1 digest past' hrun⟩

/-- The message is pushed, but no encoding of the length of the output. -/
theorem kmac_process_msg_blocks_too_long :
    ∃ past', (kmacProcessMsgBlocks kmacDevice .KMAC [0x61] 0x20000000).run [] =
        .ok (.digestLenTooLongError, []) past' ∧
      past'.reverse.flatMap fifoBytes = [0x61] ∧
      past'.reverse.flatMap fifoBytes ≠ [0x61] ++ rightEncode (8 * 0x20000000) := by
  refine ⟨_, rfl, rfl, fun h => ?_⟩
  have hempty : rightEncode (8 * 0x20000000) = [] :=
    (List.append_right_eq_self.1 (Eq.trans (by rfl) h).symm)
  rw [rightEncode_eq, List.map_append] at hempty
  exact List.cons_ne_nil _ _ (List.append_eq_nil_iff.1 hempty).2

end SecureBoot
