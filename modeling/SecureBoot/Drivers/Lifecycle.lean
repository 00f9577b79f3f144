import SecureBoot.SecMmio.Table

/-! The read-only identity of the device: life cycle controller and OTP. Every read
is a sec_mmio read, so it is recorded and changes nothing else. -/

namespace SecureBoot

abbrev kLcCtrlBase : Word := 0x40140000

abbrev kLcCtrlLcState : Word := kLcCtrlBase + 0x34

abbrev kLcCtrlDeviceId0 : Word := kLcCtrlBase + 0x44

abbrev kOtpCtrlCoreBase : Word := 0x40130000

abbrev kOtpCtrlSwCfgWindow : Word := kOtpCtrlCoreBase + 0x1000

/-- `LC_CTRL_LC_STATE_STATE_VALUE_*`: a five-bit state repeated six times. -/
def lcStateValue (state : ℕ) : Word := .ofNat 32 (state * 0b00001_00001_00001_00001_00001_00001)

/-- The switch of `lifecycle_state_get`. -/
def lifecycleStateDecode (rawState : Word) : Option LifecycleState :=
  if rawState ∈ [1, 3, 5, 7, 9, 11, 13, 15].map lcStateValue then some .test
  else if rawState = lcStateValue 16 then some .dev
  else if rawState = lcStateValue 17 then some .prod
  else if rawState = lcStateValue 18 then some .prodEnd
  else if rawState = lcStateValue 19 then some .rma
  else none

variable (hw : Hw)

/-- `lifecycle_raw_state_get`. -/
def lifecycleRawStateGet : Drv Word := do
  let value ← secMmioRead32 hw kLcCtrlLcState
  pure (bitfieldField32Read value ⟨0x3fffffff, 0⟩)

/-- `lifecycle_state_get`. -/
def lifecycleStateGet : Drv LifecycleState := do
  let rawState ← lifecycleRawStateGet hw
  match lifecycleStateDecode rawState with
  | some lcState => pure lcState
  | none => hardenedUnreachable

/-- A loop of reads of consecutive registers. -/
def secMmioReadWords (addr : Word) : (n : ℕ) → Drv (Vector Word n)
  | 0 => pure #v[]
  | n + 1 => do
      let words ← secMmioReadWords addr n
      let word ← secMmioRead32 hw (addr + BitVec.ofNat 32 (4 * n))
      pure (words.push word)

/-- `lifecycle_device_id_get`. -/
def lifecycleDeviceIdGet : Drv (Vector Word 8) := secMmioReadWords hw kLcCtrlDeviceId0 8

/-- `otp_read32`. -/
def otpRead32 (address : Word) : Drv Word := secMmioRead32 hw (kOtpCtrlSwCfgWindow + address)

/-! ### Reads leave the device alone -/

/-- The state `io` is `io₀` except for the sec_mmio table. -/
def Io.SameDevice (io₀ io : Io) : Prop := ∃ ctx, io = io₀.setSecMmio ctx

theorem Io.SameDevice.refl (io : Io) : io.SameDevice io := ⟨io.secMmio, rfl⟩

theorem Io.SameDevice.hmac {io₀ io : Io} (h : io₀.SameDevice io) : io.hmac = io₀.hmac := by
  obtain ⟨ctx, rfl⟩ := h
  rfl

section

variable {hw : Hw} (io₀ : Io)

theorem same_secMmioRead32 (addr : Word) :
    Hoare.Triple io₀.SameDevice (secMmioRead32 hw addr)
      (fun value io => value = io₀.read hw addr ∧ io₀.SameDevice io) (fun _ => io₀.SameDevice) := by
  rintro _ ⟨ctx, rfl⟩
  rw [run_secMmioRead32]
  simp only
  split_ifs
  · exact ⟨rfl, _, rfl⟩
  · exact ⟨_, rfl⟩

theorem same_secMmioReadWords (addr : Word) (n : ℕ) :
    Hoare.Triple io₀.SameDevice (secMmioReadWords hw addr n)
      (fun words io => words = .ofFn (fun i : Fin n =>
        io₀.read hw (addr + BitVec.ofNat 32 (4 * i))) ∧ io₀.SameDevice io)
      (fun _ => io₀.SameDevice) := by
  induction n with
  | zero => exact .pure _ fun _ h => ⟨by ext i hi; omega, h⟩
  | succ n ih =>
    refine .bind ih fun words => .of_pre fun hwords => ?_
    refine .bind (same_secMmioRead32 io₀ _) fun word => .of_pre fun hword => ?_
    refine .pure _ fun _ h => ⟨?_, h⟩
    rw [hwords, hword, Vector.ofFn_succ]
    rfl

theorem same_lifecycleStateGet :
    Hoare.Triple io₀.SameDevice (lifecycleStateGet hw)
      (fun lcState io => lifecycleStateDecode
        (bitfieldField32Read (io₀.read hw kLcCtrlLcState) ⟨0x3fffffff, 0⟩) = some lcState ∧
          io₀.SameDevice io)
      (fun _ => io₀.SameDevice) := by
  refine .bind (R := fun raw io => raw = bitfieldField32Read (io₀.read hw kLcCtrlLcState)
    ⟨0x3fffffff, 0⟩ ∧ io₀.SameDevice io) ?_ fun raw => .of_pre fun hraw => ?_
  · refine .bind (same_secMmioRead32 io₀ _) fun value => .of_pre fun hvalue => ?_
    exact .pure _ fun _ h => ⟨by rw [hvalue], h⟩
  · subst hraw
    cases lifecycleStateDecode (bitfieldField32Read (io₀.read hw kLcCtrlLcState)
        ⟨0x3fffffff, 0⟩) with
    | some lcState => exact .pure _ fun _ h => ⟨rfl, h⟩
    | none => exact .throw _ fun _ h => h

theorem same_otpRead32 (address : Word) :
    Hoare.Triple io₀.SameDevice (otpRead32 hw address)
      (fun value io => value = io₀.read hw (kOtpCtrlSwCfgWindow + address) ∧ io₀.SameDevice io)
      (fun _ => io₀.SameDevice) :=
  same_secMmioRead32 io₀ _

end

end SecureBoot
