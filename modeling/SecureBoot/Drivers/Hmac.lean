import SecureBoot.Base.Io

/-! The HMAC block as a SHA-256 engine: a message is started, fed in pieces of any
alignment and length, and hashed. -/

namespace SecureBoot

abbrev kHmacBase : Word := 0x41110000

abbrev kHmacIntrState : Word := kHmacBase + 0x0

abbrev kHmacIntrEnable : Word := kHmacBase + 0x4

abbrev kHmacCfg : Word := kHmacBase + 0x10

abbrev kHmacCmd : Word := kHmacBase + 0x14

abbrev kHmacMsgFifo : Word := kHmacBase + 0x800

def Io.setHmac (io : Io) (message : List Byte) : Io := { io with hmac := message }

variable (hw : Hw)

/-- `hmac_sha256_init`. -/
def hmacSha256Init : Drv Unit := do
  absMmioWrite32 hw kHmacCfg 0
  absMmioWrite32 hw kHmacIntrEnable 0
  absMmioWrite32 hw kHmacIntrState wordMax
  let reg := bitfieldBit32Write 0 3 false
  let reg := bitfieldBit32Write reg 2 false
  let reg := bitfieldBit32Write reg 1 true
  let reg := bitfieldBit32Write reg 0 false
  absMmioWrite32 hw kHmacCfg reg
  absMmioWrite32 hw kHmacCmd (bitfieldBit32Write 0 0 true)
  modify fun io => io.setHmac []

/-- A byte write to the message FIFO. -/
def hmacMsgFifoWrite8 (b : Byte) : Drv Unit := do
  absMmioWrite32 hw kHmacMsgFifo (b.setWidth 32)
  modify fun io => io.setHmac (io.hmac ++ [b])

/-- A word write to the message FIFO adds its bytes in memory order. -/
def hmacMsgFifoWrite32 (w : Word) : Drv Unit := do
  absMmioWrite32 hw kHmacMsgFifo w
  modify fun io => io.setHmac (io.hmac ++ w.toBytes)

/-- The loops over bytes. -/
def hmacUpdateBytes : List Byte → Drv Unit
  | [] => pure ()
  | b :: rest => do
      hmacMsgFifoWrite8 hw b
      hmacUpdateBytes rest

/-- The loop over words, and the bytes left at the end. -/
def hmacUpdateWords : List Byte → Drv Unit
  | b₀ :: b₁ :: b₂ :: b₃ :: rest => do
      hmacMsgFifoWrite32 hw (Word.ofBytes b₀ b₁ b₂ b₃)
      hmacUpdateWords rest
  | rest => hmacUpdateBytes hw rest

/-- `hmac_sha256_update` of the data at `addr`. -/
def hmacSha256Update (addr : Word) (data : List Byte) : Drv Unit := do
  let head := (4 - addr.toNat % 4) % 4
  hmacUpdateBytes hw (data.take head)
  hmacUpdateWords hw (data.drop head)

/-- `hmac_sha256_final`; the digest registers hold the SHA-256 of the message. -/
def hmacSha256Final : Drv HmacDigest := do
  absMmioWrite32 hw kHmacCmd (bitfieldBit32Write 0 1 true)
  let reg ← absMmioPoll32 hw kHmacIntrState fun reg => bitfieldBit32Read reg 0
  absMmioWrite32 hw kHmacIntrState reg
  let io ← get
  pure (hw.sha256 io.hmac)

/-! ### The message -/

section

variable {hw : Hw}

/-- The effect of a piece of a program on the message, whatever it writes to the bus. -/
def Feeds (x : Drv Unit) (data : List Byte) : Prop :=
  ∀ message, Hoare.Triple (fun io => io.hmac = message) x (fun _ io => io.hmac = message ++ data)
    (fun _ _ => False)

/-- A piece after which anything may follow that stops. -/
theorem Feeds.triple {x : Drv Unit} {data : List Byte} (hx : Feeds x data) (message : List Byte)
    {P : Io → Prop} {E : Trap → Io → Prop} (hP : ∀ io, P io → io.hmac = message) :
    Hoare.Triple P x (fun _ io => io.hmac = message ++ data) E :=
  (hx message).conseq hP (fun _ _ h => h) fun _ _ h => h.elim

theorem Feeds.bind {x y : Drv Unit} {data data' : List Byte} (hx : Feeds x data)
    (hy : Feeds y data') : Feeds (x >>= fun _ => y) (data ++ data') := by
  intro message
  rw [← List.append_assoc]
  exact .bind (hx message) fun _ => hy (message ++ data)

theorem feeds_hmacMsgFifoWrite8 (b : Byte) : Feeds (hmacMsgFifoWrite8 hw b) [b] := by
  rintro _ io rfl
  rfl

theorem feeds_hmacMsgFifoWrite32 (b₀ b₁ b₂ b₃ : Byte) :
    Feeds (hmacMsgFifoWrite32 hw (Word.ofBytes b₀ b₁ b₂ b₃)) [b₀, b₁, b₂, b₃] := by
  rintro _ io rfl
  rw [← Word.toBytes_ofBytes b₀ b₁ b₂ b₃]
  rfl

variable (hw) in
theorem feeds_hmacUpdateBytes (data : List Byte) : Feeds (hmacUpdateBytes hw data) data := by
  induction data with
  | nil =>
    rintro _ io rfl
    exact (List.append_nil _).symm
  | cons b rest ih => exact (feeds_hmacMsgFifoWrite8 b).bind ih

variable (hw) in
theorem feeds_hmacUpdateWords (data : List Byte) : Feeds (hmacUpdateWords hw data) data := by
  induction data using hmacUpdateWords.induct with
  | case1 b₀ b₁ b₂ b₃ rest ih => exact (feeds_hmacMsgFifoWrite32 b₀ b₁ b₂ b₃).bind ih
  | case2 rest hshort =>
    rw [hmacUpdateWords]
    · exact feeds_hmacUpdateBytes hw rest
    · exact hshort

variable (hw) in
/-- An update adds its data to the message, whatever its alignment and length. -/
theorem feeds_hmacSha256Update (addr : Word) (data : List Byte) :
    Feeds (hmacSha256Update hw addr data) data := by
  have h := (feeds_hmacUpdateBytes hw (data.take ((4 - addr.toNat % 4) % 4))).bind
    (feeds_hmacUpdateWords hw (data.drop ((4 - addr.toNat % 4) % 4)))
  rwa [List.take_append_drop] at h

theorem triple_hmacSha256Final (message : List Byte) :
    Hoare.Triple (fun io => io.hmac = message) (hmacSha256Final hw)
      (fun digest io => digest = hw.sha256 message ∧ io.hmac = message) (fun _ _ => True) := by
  refine .bind (R := fun _ io => io.hmac = message) (.modify _ fun _ h => h) fun _ => ?_
  refine .bind (R := fun _ io => io.hmac = message) ?_ fun reg => ?_
  · refine .bind (R := fun _ io => io.hmac = message) (.modifyGet _ fun _ h => h) fun value => ?_
    exact .ite _ (fun _ => .pure _ fun _ h => h) fun _ => .throw _ fun _ _ => trivial
  refine .bind (R := fun _ io => io.hmac = message) (.modify _ fun _ h => h) fun _ => ?_
  exact .bind (R := fun s io => s = io ∧ io.hmac = message) (.get fun _ h => ⟨rfl, h⟩) fun io =>
    .pure _ fun _ h => ⟨by rw [h.1, h.2], h.2⟩

end

end SecureBoot
