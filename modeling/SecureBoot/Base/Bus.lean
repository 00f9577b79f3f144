import SecureBoot.Base.Io

/-! Drivers known by what they do on the bus. The state is the list of accesses so far, reads
included; the devices are a function that answers a read from the accesses before it. A loop that
waits for a device gives up, as a hang, after as many reads as the devices are given time for. -/

namespace SecureBoot

/-- One `abs_mmio` access, with the value that it moves. -/
inductive BusAccess where
  | read32 (addr value : Word)
  | read8 (addr : Word) (value : Byte)
  | write32 (addr value : Word)
  | write8 (addr : Word) (value : Byte)
  deriving DecidableEq, Repr

def BusAccess.addr : BusAccess → Word
  | read32 addr _ => addr
  | read8 addr _ => addr
  | write32 addr _ => addr
  | write8 addr _ => addr

structure BusDevices where
  /-- The value of a read at an address after these accesses, latest first; a byte read gives
  its low byte. -/
  answer : List BusAccess → Word → Word
  /-- The number of reads in a loop that waits, less one. -/
  patience : ℕ

/-- The accesses so far, latest first. -/
abbrev BusM := EStateM Trap (List BusAccess)

namespace BusM

variable {α β : Type}

def write32 (addr value : Word) : BusM Unit := modify (.write32 addr value :: ·)

/-- `abs_mmio_write32_shadowed`. -/
def write32Shadowed (addr value : Word) : BusM Unit := do
  write32 addr value
  write32 addr value

def write8 (addr : Word) (value : Byte) : BusM Unit := modify (.write8 addr value :: ·)

def read32 (dev : BusDevices) (addr : Word) : BusM Word :=
  modifyGet fun past => (dev.answer past addr, .read32 addr (dev.answer past addr) :: past)

def read8 (dev : BusDevices) (addr : Word) : BusM Byte :=
  modifyGet fun past =>
    let value := (dev.answer past addr).setWidth 8
    (value, .read8 addr value :: past)

/-- `HARDENED_CHECK`. -/
def check (c : Prop) [Decidable c] : BusM Unit := if c then pure () else throw .hardened

/-- The macros that return the error of `x`, unless it is `ok`. -/
def returnUnless (ok : Word) (x rest : BusM Word) : BusM Word := do
  let error ← x
  if error = ok then rest else pure error

/-- Read `addr` until the value satisfies `done`, at most `n + 1` times, and give all values
read. -/
def pollFrom (dev : BusDevices) (addr : Word) (done : Word → Bool) : ℕ → BusM (List Word)
  | 0 => do
    let value ← read32 dev addr
    if done value then
      return [value]
    throw .hang
  | n + 1 => do
    let value ← read32 dev addr
    if done value then
      return [value]
    let values ← pollFrom dev addr done n
    return value :: values

def poll (dev : BusDevices) (addr : Word) (done : Word → Bool) : BusM (List Word) :=
  pollFrom dev addr done dev.patience

/-! ### Runs -/

variable (past : List BusAccess)

@[simp] theorem run_pure (a : α) : (pure a : BusM α).run past = .ok a past := rfl

@[simp] theorem run_throw (t : Trap) : (throw t : BusM α).run past = .error t past := rfl

@[simp] theorem run_write32 (addr value : Word) :
    (write32 addr value).run past = .ok ⟨⟩ (.write32 addr value :: past) := rfl

@[simp] theorem run_write8 (addr : Word) (value : Byte) :
    (write8 addr value).run past = .ok ⟨⟩ (.write8 addr value :: past) := rfl

@[simp] theorem run_read32 (dev : BusDevices) (addr : Word) :
    (read32 dev addr).run past =
      .ok (dev.answer past addr) (.read32 addr (dev.answer past addr) :: past) := rfl

@[simp] theorem run_read8 (dev : BusDevices) (addr : Word) :
    (read8 dev addr).run past = .ok ((dev.answer past addr).setWidth 8)
      (.read8 addr ((dev.answer past addr).setWidth 8) :: past) := rfl

theorem run_check (c : Prop) [Decidable c] :
    (check c).run past = if c then .ok ⟨⟩ past else .error .hardened past := by
  rw [check]
  split_ifs <;> rfl

theorem run_bind_ok {x : BusM α} {f : α → BusM β} {a : α} {past' : List BusAccess}
    (h : x.run past = .ok a past') : (x >>= f).run past = (f a).run past' := by
  rw [EStateM.run_bind, h]

theorem run_bind_error {x : BusM α} {f : α → BusM β} {t : Trap} {past' : List BusAccess}
    (h : x.run past = .error t past') : (x >>= f).run past = .error t past' := by
  rw [EStateM.run_bind, h]

theorem run_returnUnless_ok {ok : Word} {x : BusM Word} (rest : BusM Word)
    {past' : List BusAccess} (h : x.run past = .ok ok past') :
    (returnUnless ok x rest).run past = rest.run past' := by
  rw [returnUnless, run_bind_ok _ h, if_pos rfl]

theorem run_returnUnless_ne {ok error : Word} {x : BusM Word} (rest : BusM Word)
    {past' : List BusAccess} (h : x.run past = .ok error past') (hne : error ≠ ok) :
    (returnUnless ok x rest).run past = .ok error past' := by
  rw [returnUnless, run_bind_ok _ h, if_neg hne, run_pure]

theorem run_returnUnless_error {ok : Word} {x : BusM Word} (rest : BusM Word) {t : Trap}
    {past' : List BusAccess} (h : x.run past = .error t past') :
    (returnUnless ok x rest).run past = .error t past' := by
  rw [returnUnless, run_bind_error _ h]

end BusM

/-! ### Accesses that a driver adds -/

/-- From `past` to `past'` only accesses in `P` happen. -/
def Adds (P : BusAccess → Prop) (past past' : List BusAccess) : Prop :=
  ∃ new, past' = new ++ past ∧ ∀ a ∈ new, P a

section

variable {P Q : BusAccess → Prop} {α : Type}

instance : IsPreorder (List BusAccess) (Adds P) where
  refl past := ⟨[], rfl, fun a ha => absurd ha List.not_mem_nil⟩
  trans := by
    rintro past _ _ ⟨new, rfl, h⟩ ⟨new', rfl, h'⟩
    exact ⟨new' ++ new, by rw [List.append_assoc], List.forall_mem_append.2 ⟨h', h⟩⟩

theorem Adds.one {a : BusAccess} (h : P a) (past : List BusAccess) : Adds P past (a :: past) :=
  ⟨[a], rfl, List.forall_mem_singleton.2 h⟩

theorem Adds.new {past new : List BusAccess} (h : Adds P past (new ++ past)) : ∀ a ∈ new, P a := by
  obtain ⟨new', heq, hnew⟩ := h
  rwa [List.append_cancel_right heq]

/-- An access in the middle is one of those added. -/
theorem Adds.of_later {R : BusAccess → Prop} {a : BusAccess} {past mid past' : List BusAccess}
    (h : Adds P past past') (hmid : Adds Q past mid) (hlater : Adds R (a :: mid) past') : P a := by
  obtain ⟨before, rfl, -⟩ := hmid
  obtain ⟨after, rfl, -⟩ := hlater
  rw [← List.cons_append, ← List.append_assoc] at h
  exact h.new a (List.mem_append_right _ List.mem_cons_self)

variable (P) in
/-- Whatever happens, the program does only accesses in `P`. -/
abbrev BusM.Only (x : BusM α) : Prop := Hoare.Moves (Adds P) x

/-- What a part of a program has done stays done. -/
theorem Adds.bind {β : Type} {x : BusM α} {f : α → BusM β} {past past' : List BusAccess}
    (hx : Adds P past' (Hoare.final (x.run past))) (hf : ∀ a, BusM.Only P (f a)) :
    Adds P past' (Hoare.final ((x >>= f).run past)) := by
  rw [EStateM.run_bind]
  cases hrun : x.run past with
  | ok a past'' =>
    rw [hrun] at hx
    exact trans_of (Adds P) hx ((hf a).final past'')
  | error t past'' =>
    rw [hrun] at hx
    exact hx

namespace BusM

theorem only_write32 {addr value : Word} (h : P (.write32 addr value)) :
    Only P (write32 addr value) :=
  .modify _ (.one h)

theorem only_read32 {dev : BusDevices} {addr : Word} (h : ∀ value, P (.read32 addr value)) :
    Only P (read32 dev addr) :=
  .modifyGet _ fun past => .one (h _) past

theorem only_check (c : Prop) [Decidable c] : Only P (check c) := .ite _ (.pure _) (.throw _)

theorem only_returnUnless {ok : Word} {x rest : BusM Word} (hx : Only P x) (hrest : Only P rest) :
    Only P (returnUnless ok x rest) :=
  .bind hx fun _ => .ite _ hrest (.pure _)

theorem only_pollFrom {dev : BusDevices} {addr : Word} {done : Word → Bool}
    (h : ∀ value, P (.read32 addr value)) (n : ℕ) : Only P (pollFrom dev addr done n) := by
  induction n with
  | zero => exact .bind (only_read32 h) fun _ => .ite _ (.pure _) (.throw _)
  | succ n ih =>
    exact .bind (only_read32 h) fun _ => .ite _ (.pure _) (.bind ih fun _ => .pure _)

theorem only_poll {dev : BusDevices} {addr : Word} {done : Word → Bool}
    (h : ∀ value, P (.read32 addr value)) : Only P (poll dev addr done) := only_pollFrom h _

end BusM

end

/-! ### Accesses in order, without those that only wait -/

section Traffic

variable {α β : Type} (quiet : BusAccess → Bool)

/-- The accesses that are not quiet, earliest first. -/
def traffic (new : List BusAccess) : List BusAccess := (new.filter fun a => !quiet a).reverse

theorem traffic_append (later earlier : List BusAccess) :
    traffic quiet (later ++ earlier) = traffic quiet earlier ++ traffic quiet later := by
  rw [traffic, List.filter_append, List.reverse_append]
  rfl

/-- When the program returns, its result and its traffic satisfy `Q`. -/
def Emits (x : BusM α) (Q : α → List BusAccess → Prop) : Prop :=
  ∀ past a past', x.run past = .ok a past' → ∃ new, past' = new ++ past ∧ Q a (traffic quiet new)

namespace Emits

variable {quiet} {Q Q' : α → List BusAccess → Prop} {x : BusM α}

theorem mono (h : Emits quiet x Q) (hQ : ∀ a t, Q a t → Q' a t) : Emits quiet x Q' := by
  intro past a past' hrun
  obtain ⟨new, hpast, hnew⟩ := h past a past' hrun
  exact ⟨new, hpast, hQ a _ hnew⟩

theorem pure {a : α} (h : Q a []) : Emits quiet (pure a : BusM α) Q := by
  intro past b past' hrun
  cases hrun
  exact ⟨[], rfl, h⟩

theorem throw (t : Trap) : Emits quiet (throw t : BusM α) Q := by
  intro past b past' hrun
  cases hrun

theorem bind {R : β → List BusAccess → Prop} {f : α → BusM β} (hx : Emits quiet x Q)
    (hf : ∀ a t, Q a t → Emits quiet (f a) fun b t' => R b (t ++ t')) :
    Emits quiet (x >>= f) R := by
  intro past b past'' hrun
  obtain ⟨a, past', hfirst, hsecond⟩ := Hoare.exists_of_run_bind hrun
  obtain ⟨new, rfl, hnew⟩ := hx past a past' hfirst
  obtain ⟨later, rfl, hlater⟩ := hf a _ hnew _ b past'' hsecond
  exact ⟨later ++ new, (List.append_assoc _ _ _).symm, by rwa [traffic_append]⟩

theorem ite (c : Prop) [Decidable c] {y : BusM α} (hx : c → Emits quiet x Q)
    (hy : ¬c → Emits quiet y Q) : Emits quiet (if c then x else y) Q := by
  split_ifs with h
  · exact hx h
  · exact hy h

theorem write32 {addr value : Word} (h : quiet (.write32 addr value) = false) :
    Emits quiet (BusM.write32 addr value) fun _ t => t = [.write32 addr value] := by
  intro past b past' hrun
  cases hrun
  exact ⟨[.write32 addr value], rfl, by simp [traffic, h]⟩

theorem write8 {addr : Word} {value : Byte} (h : quiet (.write8 addr value) = false) :
    Emits quiet (BusM.write8 addr value) fun _ t => t = [.write8 addr value] := by
  intro past b past' hrun
  cases hrun
  exact ⟨[.write8 addr value], rfl, by simp [traffic, h]⟩

theorem read32 {dev : BusDevices} {addr : Word} (h : ∀ value, quiet (.read32 addr value) = false) :
    Emits quiet (BusM.read32 dev addr) fun value t => t = [.read32 addr value] := by
  intro past b past' hrun
  cases hrun
  exact ⟨[.read32 addr _], rfl, by simp [traffic, h]⟩

theorem read8 {dev : BusDevices} {addr : Word} (h : ∀ value, quiet (.read8 addr value) = false) :
    Emits quiet (BusM.read8 dev addr) fun value t => t = [.read8 addr value] := by
  intro past b past' hrun
  cases hrun
  exact ⟨[.read8 addr _], rfl, by simp [traffic, h]⟩

theorem read32_quiet {dev : BusDevices} {addr : Word}
    (h : ∀ value, quiet (.read32 addr value) = true) :
    Emits quiet (BusM.read32 dev addr) fun _ t => t = [] := by
  intro past b past' hrun
  cases hrun
  exact ⟨[.read32 addr _], rfl, by simp [traffic, h]⟩

/-- A loop that waits is silent, if the reads of its register are. -/
theorem poll {dev : BusDevices} {addr : Word} {done : Word → Bool}
    (h : ∀ value, quiet (.read32 addr value) = true) :
    Emits quiet (BusM.poll dev addr done) fun _ t => t = [] := by
  rw [BusM.poll]
  induction dev.patience with
  | zero =>
    refine (read32_quiet h).bind fun value t ht => .ite _ (fun _ => .pure ?_) fun _ => .throw _
    rw [ht, List.append_nil]
  | succ n ih =>
    refine (read32_quiet h).bind fun value t ht => .ite _ (fun _ => .pure ?_) fun _ =>
      ih.bind fun values t' ht' => .pure ?_
    · rw [ht, List.append_nil]
    · rw [ht, ht']
      rfl

end Emits

end Traffic

/-! ### Programs that only write -/

section Does

variable {α β : Type}

/-- Whatever the past, the program returns `a` and its accesses are `t`, earliest first. -/
def Does (x : BusM α) (a : α) (t : List BusAccess) : Prop :=
  ∀ past, x.run past = .ok a (t.reverse ++ past)

namespace Does

theorem pure (a : α) : Does (pure a : BusM α) a [] := fun _ => rfl

theorem write32 (addr value : Word) :
    Does (BusM.write32 addr value) ⟨⟩ [.write32 addr value] := fun _ => rfl

theorem write32Shadowed (addr value : Word) :
    Does (BusM.write32Shadowed addr value) ⟨⟩ [.write32 addr value, .write32 addr value] :=
  fun _ => rfl

theorem bind {x : BusM α} {f : α → BusM β} {a : α} {b : β} {t t' : List BusAccess}
    (hx : Does x a t) (hf : Does (f a) b t') : Does (x >>= f) b (t ++ t') := by
  intro past
  rw [BusM.run_bind_ok _ (hx past), hf, List.reverse_append, List.append_assoc]

/-- The last part of a program does nothing. -/
theorem bind_pure {x : BusM α} {a : α} {t : List BusAccess} (hx : Does x a t) (f : α → β) :
    Does (x >>= fun a => Pure.pure (f a)) (f a) t := by
  have h := hx.bind (f := fun a => (Pure.pure (f a) : BusM β)) (.pure (f a))
  rwa [List.append_nil] at h

end Does

end Does

end SecureBoot
