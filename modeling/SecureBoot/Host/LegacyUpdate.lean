import SecureBoot.Host.BootstrapFrame

/-! Frames of the legacy bootstrap protocol: a whole payload, which goes to the second half of the
flash memory. -/

namespace SecureBoot

open Rust Chunks

namespace HostBootstrap

namespace Legacy

abbrev kDataLen : ℕ := 2048 - 40
abbrev kFlashBaseAddress : ℕ := 65536 * 8

/-- `Frame::from_payload`. -/
def fromPayload (sha256 : List Byte → List Byte) (payload : List Byte) :
    Run Empty (List Frame) :=
  makeFrames sha256 kDataLen kFlashBaseAddress payload (trimmedSize payload) 0

variable (sha256 : List Byte → List Byte) {payload : List Byte}

/-- What it takes to cut a payload into frames: a word that is not erased, and no frame whose
address does not fit into its header. -/
def Fits (payload : List Byte) : Prop :=
  (∃ k, Filled payload k) ∧ ∀ l, Starts kDataLen payload (trimmedSize payload) 0 l →
    ∀ a ∈ l, a + kFlashBaseAddress < 2 ^ 32

/-- A payload of erased words, or of no words, leads to a panic. -/
theorem fromPayload_panics (h : ∀ k, ¬ Filled payload k) : Panics (fromPayload sha256 payload) := by
  have hnone : rposition isFilled (chunks 4 payload) = none :=
    (rposition_chunks_eq_none_iff (by decide)).2 h
  have hfind : (chunks 4 payload).findIdx? isFilled = none :=
    (findIdx?_chunks_eq_none_iff (by decide)).2 h
  have hrest : (slice payload 0 payload.length : Run Empty (List Byte)) = pure payload :=
    (returns_slice_length payload 0).eq (Nat.zero_le _)
  have hrounds (n : ℕ) : Panics
      (frameRounds kDataLen kFlashBaseAddress payload 4 (n + 1) 0 0 [] : Run Empty _) := by
    rw [frameRounds, if_pos (by decide), hrest, pure_bind, hfind]
    exact panics_bind (panics_stop _) _
  rw [fromPayload, trimmedSize, hnone]
  exact panics_bind (hrounds 3) _

/-- The frames of a payload that has some, by where they start. -/
theorem exists_starts_of_ok {frames : List Frame} (h : fromPayload sha256 payload = .ok frames) :
    ∃ l, Starts kDataLen payload (trimmedSize payload) 0 l ∧ frames =
      l.mapIdx fun i a => sentFrame sha256 kDataLen kFlashBaseAddress payload l.length i a := by
  by_cases hfilled : ∃ k, Filled payload k
  · obtain ⟨last, hlast, -, htrimmed⟩ := exists_last hfilled
    have hpos : 0 < kDataLen := by decide
    obtain ⟨l, hl⟩ := exists_starts hpos (by decide) hlast (Nat.dvd_zero 4)
    rw [← htrimmed] at hl
    have hreturns := returns_makeFrames sha256 (ε := Empty) kFlashBaseAddress hl (by decide) hpos
      (Nat.dvd_zero 4)
    exact ⟨l, hl, (hreturns.ok_iff.1 h).2.symm⟩
  · obtain ⟨why, hwhy⟩ := fromPayload_panics sha256 (not_exists.1 hfilled)
    rw [hwhy] at h
    cases h

theorem frames_ne_nil {frames : List Frame} (h : fromPayload sha256 payload = .ok frames) :
    frames ≠ [] := by
  obtain ⟨l, hl, rfl⟩ := exists_starts_of_ok sha256 h
  cases hl with
  | done hle => exact absurd hle (by unfold trimmedSize; omega)
  | next => simp

/-- The frames cover the payload if and only if some word of it is not erased and their addresses
fit. -/
theorem legacy_frames_cover_payload_iff (sha256 : List Byte → List Byte) (payload : List Byte) :
    (∃ frames, fromPayload sha256 payload = .ok frames ∧
      FramesOf kDataLen kFlashBaseAddress 0 payload frames) ↔ Fits payload := by
  by_cases h : ∃ k, Filled payload k
  · obtain ⟨last, hlast, hmax, htrimmed⟩ := exists_last h
    rw [fromPayload, Fits, htrimmed]
    have hiff {l : List ℕ} (hl : Starts kDataLen payload (4 * (last + 1)) 0 l) :=
      makeFrames_framesOf_iff sha256 (ε := Empty) kFlashBaseAddress hl (by decide)
        (by decide) (by decide) (by decide) (fun k => (and_iff_left_of_imp And.left).symm) hlast
        hmax (Nat.zero_le _)
    constructor
    · exact fun hframes => ⟨h, fun l hl => ((hiff hl).1 hframes).1⟩
    · rintro ⟨-, hfits⟩
      have hpos : 0 < kDataLen := by decide
      obtain ⟨l, hl⟩ := exists_starts hpos (by decide) hlast (Nat.dvd_zero 4)
      exact (hiff hl).2 ⟨hfits l hl, fun a _ => rfl⟩
  · refine iff_of_false ?_ fun hfits => h hfits.1
    rintro ⟨frames, hok, -⟩
    obtain ⟨why, hwhy⟩ := fromPayload_panics sha256 (not_exists.1 h)
    rw [hwhy] at hok
    cases hok

theorem not_filled_replicate (n k : ℕ) : ¬ Filled (List.replicate (4 * n) 0xff) k := by
  rintro ⟨hk, hfilled⟩
  rw [List.length_replicate] at hk
  have hword : chunk 4 (List.replicate (4 * n) (0xff : Byte)) k = List.replicate 4 0xff := by
    simp only [chunk, List.drop_replicate, List.take_replicate]
    rw [Nat.min_eq_left (by omega)]
  rw [hword] at hfilled
  exact absurd hfilled (by decide)

/-- Neither an empty payload nor a payload of erased words can be cut into frames. -/
theorem legacy_frames_panic_erased :
    (∀ sha256, Panics (fromPayload sha256 [])) ∧
      ∀ sha256, Panics (fromPayload sha256 (List.replicate 2048 0xff)) :=
  ⟨fun sha256 => fromPayload_panics sha256 (not_filled_replicate 0),
    fun sha256 => fromPayload_panics sha256 (not_filled_replicate 512)⟩

end Legacy

end HostBootstrap

end SecureBoot

/-! The update of the legacy protocol: frames are sent until each one is acknowledged by its hash.
The device may answer with anything. A transport that fails ends the update with its error, and
does not appear; nor do the delays and the reports. -/

namespace SecureBoot

open Rust

namespace HostBootstrap

namespace Legacy

inductive LegacyBootstrapError
  | notReady
  | unknown (value : Byte)
  | noRequest | noMagic | tooBig | tooHigh | noAlign | noRound | badKey | badStart
  | noWipe | noWipe0 | noWipe1 | notEmpty | noWrite | badAdr | overflow
  | repeatedErrors
  deriving DecidableEq, Repr

/-- `LegacyBootstrapError::from`. -/
def LegacyBootstrapError.ofByte (value : Byte) : LegacyBootstrapError :=
  match value.toNat with
  | 0 | 255 => notReady
  | 1 => noRequest
  | 2 => noMagic
  | 3 => tooBig
  | 4 => tooHigh
  | 5 => noAlign
  | 6 => noRound
  | 7 => badKey
  | 8 => badStart
  | 10 => noWipe
  | 11 => noWipe0
  | 12 => noWipe1
  | 13 => notEmpty
  | 14 => noWrite
  | 15 => badAdr
  | 16 => overflow
  | _ => unknown value

/-- What the device answers while a frame is sent to it. -/
structure Response where
  bytes : List Byte
  length_eq : bytes.length = 2048

/-- `response[..Frame::HASH_LEN]`. -/
def Response.hash (response : Response) : List Byte := response.bytes.take kHashLen

/-- `response[0]`. -/
def Response.status (response : Response) : Byte := response.bytes.getD 0 0

abbrev kMaxConsecutiveErrors : ℕ := 100

structure UpdateState where
  firstUnackedIndex : ℕ
  consecutiveErrors : ℕ
  optimistic : Bool
  becomingOptimistic : Bool

def UpdateState.init : UpdateState := ⟨0, 0, false, false⟩

section

variable (sha256 : List Byte → List Byte) (frames : List Frame)

/-- `second_unacked_index`. -/
def secondUnackedIndex (s : UpdateState) : ℕ := min (s.firstUnackedIndex + 1) (frames.length - 1)

/-- `transmit_index`. -/
def transmitIndex (s : UpdateState) : ℕ :=
  if s.optimistic then secondUnackedIndex frames s else s.firstUnackedIndex

/-- The end of a round that acknowledges all frames before an index; the last one ends the loop. -/
def acknowledge (s : UpdateState) (index : ℕ) : Option UpdateState :=
  if index = frames.length then none
  else some {
    firstUnackedIndex := index
    consecutiveErrors := 0
    optimistic := s.optimistic
    becomingOptimistic := if s.optimistic then s.becomingOptimistic else decide (index > 1) }

/-- A round of the loop of `update`, with what the device answers in it: the state of the next one,
or nothing when all frames are acknowledged. -/
def updateRound (s : UpdateState) (response : Response) :
    Run LegacyBootstrapError (Option UpdateState) :=
  if s.consecutiveErrors > kMaxConsecutiveErrors then fail .repeatedErrors
  else if frames.length < 1 then stop .arithmetic
  else do
    let _ ← index frames (transmitIndex frames s)
    if s.becomingOptimistic then
      pure (some { s with optimistic := true, becomingOptimistic := false })
    else if response.hash.all (· == response.status) then
      match LegacyBootstrapError.ofByte response.status with
      | .notReady => pure (some { s with consecutiveErrors := s.consecutiveErrors + 1 })
      | error => fail error
    else
      let first ← index frames s.firstUnackedIndex
      if response.hash = frameHash sha256 first then
        pure (acknowledge frames s (s.firstUnackedIndex + 1))
      else
        let second ← index frames (secondUnackedIndex frames s)
        if response.hash = frameHash sha256 second then
          pure (acknowledge frames s (secondUnackedIndex frames s + 1))
        else
          pure (some { s with
            consecutiveErrors := s.consecutiveErrors + 1
            optimistic := false })

/-- The loop of `update` after so many rounds: its state, or nothing when it has come to its end. -/
def rounds (responses : ℕ → Response) : ℕ → Run LegacyBootstrapError (Option UpdateState)
  | 0 => pure (some .init)
  | n + 1 => do
    match ← rounds responses n with
    | some s => updateRound sha256 frames s (responses n)
    | none => pure none

/-- `update`, up to a number of rounds. -/
def update (payload : List Byte) (responses : ℕ → Response) (n : ℕ) :
    Run LegacyBootstrapError (Option UpdateState) :=
  match fromPayload sha256 payload with
  | .ok frames => rounds sha256 frames responses n
  | .error (.panic why) => stop why

/-! ### One round -/

/-- All that a round can do. -/
inductive Exchange (s : UpdateState) (response : Response) :
    Run LegacyBootstrapError (Option UpdateState) → Prop
  | giveUp (h : kMaxConsecutiveErrors < s.consecutiveErrors) :
    Exchange s response (fail .repeatedErrors)
  | skip (h : s.consecutiveErrors ≤ kMaxConsecutiveErrors) (hb : s.becomingOptimistic = true) :
    Exchange s response (pure (some { s with optimistic := true, becomingOptimistic := false }))
  | retry (h : s.consecutiveErrors ≤ kMaxConsecutiveErrors) (hb : s.becomingOptimistic = false)
      (optimistic : Bool) :
    Exchange s response (pure (some { s with
      consecutiveErrors := s.consecutiveErrors + 1
      optimistic := optimistic }))
  | refuse (e : LegacyBootstrapError) : Exchange s response (fail e)
  | ack (h : s.consecutiveErrors ≤ kMaxConsecutiveErrors) {j : ℕ} (hle : s.firstUnackedIndex ≤ j)
      (hj : j ≤ s.firstUnackedIndex + 1) (hlt : j < frames.length)
      (hhash : response.hash = frameHash sha256 frames[j]) :
    Exchange s response (pure (acknowledge frames s (j + 1)))

end

variable {sha256 : List Byte → List Byte} {frames : List Frame} {s t : UpdateState}
  {response : Response} {responses : ℕ → Response} {n : ℕ}

theorem le_transmitIndex (h : s.firstUnackedIndex < frames.length) :
    s.firstUnackedIndex ≤ transmitIndex frames s := by
  unfold transmitIndex secondUnackedIndex
  split_ifs <;> omega

theorem transmitIndex_lt (h : s.firstUnackedIndex < frames.length) :
    transmitIndex frames s < frames.length := by
  unfold transmitIndex secondUnackedIndex
  split_ifs <;> omega

theorem index_eq {ε α : Type} {l : List α} {i : ℕ} (h : i < l.length) :
    (index l i : Run ε α) = pure l[i] := by
  rw [index, List.getElem?_eq_getElem h]

/-- A round never panics, and does one of these things. -/
theorem exchange_updateRound (sha256 : List Byte → List Byte)
    (h : s.firstUnackedIndex < frames.length) (response : Response) :
    Exchange sha256 frames s response (updateRound sha256 frames s response) := by
  have hsecond : secondUnackedIndex frames s < frames.length := by
    unfold secondUnackedIndex
    omega
  unfold updateRound
  by_cases herrors : s.consecutiveErrors > kMaxConsecutiveErrors
  · rw [if_pos herrors]
    exact .giveUp herrors
  rw [if_neg herrors, if_neg (by omega), index_eq (transmitIndex_lt h), pure_bind]
  by_cases hbecoming : s.becomingOptimistic = true
  · rw [if_pos hbecoming]
    exact .skip (not_lt.1 herrors) hbecoming
  rw [if_neg hbecoming]
  replace hbecoming := Bool.eq_false_iff.2 hbecoming
  by_cases hstatus : response.hash.all (· == response.status) = true
  · rw [if_pos hstatus]
    cases LegacyBootstrapError.ofByte response.status with
    | notReady => exact .retry (not_lt.1 herrors) hbecoming s.optimistic
    | _ => exact .refuse _
  rw [if_neg hstatus, index_eq h, pure_bind]
  by_cases hfirst : response.hash = frameHash sha256 frames[s.firstUnackedIndex]
  · rw [if_pos hfirst]
    exact .ack (not_lt.1 herrors) le_rfl (Nat.le_succ _) h hfirst
  rw [if_neg hfirst, index_eq hsecond, pure_bind]
  by_cases hnext : response.hash = frameHash sha256 frames[secondUnackedIndex frames s]
  · rw [if_pos hnext]
    refine .ack (not_lt.1 herrors) ?_ (Nat.min_le_left _ _) hsecond hnext
    unfold secondUnackedIndex
    omega
  · rw [if_neg hnext]
    exact .retry (not_lt.1 herrors) hbecoming false

/-! ### What holds before a round -/

theorem rounds_succ (h : rounds sha256 frames responses n = .ok (some s)) :
    rounds sha256 frames responses (n + 1) = updateRound sha256 frames s (responses n) := by
  rw [rounds, h]
  rfl

/-- A frame is acknowledged by the hash of it, or of a later one. -/
def Acknowledged (sha256 : List Byte → List Byte) (frames : List Frame) (responses : ℕ → Response)
    (n i : ℕ) : Prop :=
  ∃ m < n, ∃ j, ∃ h : j < frames.length, i ≤ j ∧ (responses m).hash = frameHash sha256 frames[j]

theorem Acknowledged.mono {m i : ℕ} (h : Acknowledged sha256 frames responses m i) (hle : m ≤ n) :
    Acknowledged sha256 frames responses n i := by
  obtain ⟨k, hk, hack⟩ := h
  exact ⟨k, hk.trans_le hle, hack⟩

/-- How many more rounds there can be. -/
def budget (frames : List Frame) (s : UpdateState) : ℕ :=
  (frames.length - s.firstUnackedIndex) * (kMaxConsecutiveErrors + 3) +
    (kMaxConsecutiveErrors + 1 - s.consecutiveErrors) + if s.becomingOptimistic then 1 else 0

/-- What holds before round `n`. -/
structure Inv (sha256 : List Byte → List Byte) (frames : List Frame) (responses : ℕ → Response)
    (n : ℕ) (s : UpdateState) : Prop where
  index_lt : s.firstUnackedIndex < frames.length
  errors_le : s.consecutiveErrors ≤ kMaxConsecutiveErrors + 1
  acknowledged : ∀ i < s.firstUnackedIndex, Acknowledged sha256 frames responses n i
  budget_le : n + budget frames s ≤ budget frames .init

/-- What a round does to a state that the invariant holds of. -/
theorem Inv.round (h : Inv sha256 frames responses n s) :
    (∃ e, updateRound sha256 frames s (responses n) = fail e) ∨
      (updateRound sha256 frames s (responses n) = pure none ∧
        ∀ i < frames.length, Acknowledged sha256 frames responses (n + 1) i) ∨
      ∃ t, updateRound sha256 frames s (responses n) = pure (some t) ∧
        Inv sha256 frames responses (n + 1) t ∧ s.firstUnackedIndex ≤ t.firstUnackedIndex ∧
          t.firstUnackedIndex ≤ transmitIndex frames s + 2 := by
  have htransmit := le_transmitIndex h.index_lt
  have hbudget := h.budget_le
  have hlt := h.index_lt
  have hnear : s.firstUnackedIndex ≤ transmitIndex frames s + 2 :=
    Nat.le_add_right_of_le htransmit
  have hbefore := fun i hi => (h.acknowledged i hi).mono (Nat.le_succ n)
  have hexchange := exchange_updateRound sha256 hlt (responses n)
  generalize updateRound sha256 frames s (responses n) = x at hexchange ⊢
  cases hexchange with
  | giveUp => exact .inl ⟨_, rfl⟩
  | refuse e => exact .inl ⟨e, rfl⟩
  | skip herrors hb =>
    refine .inr (.inr ⟨_, rfl, ⟨hlt, h.errors_le, hbefore, ?_⟩, le_rfl, hnear⟩)
    simp only [budget, hb, if_true, Bool.false_eq_true, if_false] at hbudget ⊢
    omega
  | retry herrors hb =>
    refine .inr (.inr ⟨_, rfl, ⟨hlt, Nat.succ_le_succ herrors, hbefore, ?_⟩, le_rfl, hnear⟩)
    simp only [budget, hb, Bool.false_eq_true, if_false] at hbudget ⊢
    omega
  | @ack herrors j hle hj hltj hhash =>
    have hall : ∀ i < j + 1, Acknowledged sha256 frames responses (n + 1) i :=
      fun i hi => ⟨n, Nat.lt_succ_self n, j, hltj, Nat.le_of_lt_succ hi, hhash⟩
    by_cases hlast : j + 1 = frames.length
    · rw [acknowledge, if_pos hlast]
      exact .inr (.inl ⟨rfl, hlast ▸ hall⟩)
    · rw [acknowledge, if_neg hlast]
      refine .inr (.inr ⟨_, rfl, ⟨Nat.lt_of_le_of_ne hltj hlast, Nat.zero_le _, hall, ?_⟩,
        Nat.le_succ_of_le hle, (Nat.succ_le_succ hj).trans (Nat.add_le_add_right htransmit 2)⟩)
      -- the acknowledged frame pays for the retries that are allowed again
      simp only [budget, kMaxConsecutiveErrors] at hbudget herrors ⊢
      split_ifs at hbudget ⊢ <;> omega

/-! ### All rounds -/

/-- Every run is in a state of the invariant, or has come to its end in one of two ways. -/
theorem rounds_cases (sha256 : List Byte → List Byte) (hne : frames ≠ [])
    (responses : ℕ → Response) (n : ℕ) :
    (∃ e, rounds sha256 frames responses n = fail e) ∨
      (rounds sha256 frames responses n = pure none ∧
        ∀ i < frames.length, Acknowledged sha256 frames responses n i) ∨
      ∃ s, rounds sha256 frames responses n = pure (some s) ∧ Inv sha256 frames responses n s := by
  induction n with
  | zero =>
    refine .inr (.inr ⟨_, rfl, List.length_pos_of_ne_nil hne, Nat.zero_le _, fun i hi => ?_, ?_⟩)
    · exact absurd hi (Nat.not_lt_zero i)
    · rw [Nat.zero_add]
  | succ n ih =>
    rcases ih with ⟨e, he⟩ | ⟨hdone, hall⟩ | ⟨s, hs, hinv⟩
    · refine .inl ⟨e, ?_⟩
      rw [rounds, he]
      rfl
    · refine .inr (.inl ⟨?_, fun i hi => (hall i hi).mono (Nat.le_succ n)⟩)
      rw [rounds, hdone]
      rfl
    · rw [rounds_succ hs]
      rcases hinv.round with hfail | hdone | ⟨t, ht, hnext, -⟩
      · exact .inl hfail
      · exact .inr (.inl hdone)
      · exact .inr (.inr ⟨t, ht, hnext⟩)

theorem inv_of_rounds (hne : frames ≠ [])
    (hs : rounds sha256 frames responses n = .ok (some s)) : Inv sha256 frames responses n s := by
  rcases rounds_cases sha256 hne responses n with ⟨e, he⟩ | ⟨hdone, -⟩ | ⟨t, ht, hinv⟩
  · rw [he] at hs
    cases hs
  · rw [hdone] at hs
    cases hs
  · rw [ht] at hs
    cases hs
    exact hinv

/-- A state comes from one a round before. -/
theorem exists_of_rounds_succ (ht : rounds sha256 frames responses (n + 1) = .ok (some t)) :
    ∃ s, rounds sha256 frames responses n = .ok (some s) ∧
      updateRound sha256 frames s (responses n) = .ok (some t) := by
  rw [rounds] at ht
  obtain ⟨o, ho, hround⟩ := bind_eq_ok.1 ht
  cases o with
  | none => cases hround
  | some s => exact ⟨s, ho, hround⟩

/-- What one round does to the index. -/
theorem index_round (hne : frames ≠ []) (hs : rounds sha256 frames responses n = .ok (some s))
    (ht : rounds sha256 frames responses (n + 1) = .ok (some t)) :
    s.firstUnackedIndex ≤ t.firstUnackedIndex ∧
      t.firstUnackedIndex ≤ transmitIndex frames s + 2 := by
  rw [rounds_succ hs] at ht
  rcases (inv_of_rounds hne hs).round with ⟨e, he⟩ | ⟨hdone, -⟩ | ⟨u, hu, -, hle, hnear⟩
  · rw [he] at ht
    cases ht
  · rw [hdone] at ht
    cases ht
  · rw [hu] at ht
    cases ht
    exact ⟨hle, hnear⟩

/-- The index never decreases. -/
theorem index_mono (hne : frames ≠ []) {m : ℕ} (hle : m ≤ n)
    (hs : rounds sha256 frames responses m = .ok (some s))
    (ht : rounds sha256 frames responses n = .ok (some t)) :
    s.firstUnackedIndex ≤ t.firstUnackedIndex := by
  induction n, hle using Nat.le_induction generalizing t with
  | base =>
    rw [hs] at ht
    cases ht
    exact le_rfl
  | succ n _ ih =>
    obtain ⟨u, hu, -⟩ := exists_of_rounds_succ ht
    exact (ih hu).trans (index_round hne hu ht).1

/-- An update, as it is: the index of the first frame that is not acknowledged never decreases,
never passes the number of frames, and is at most two ahead of the frame that was sent in the last
round. Every frame before it has been acknowledged, all of them have been when the update returns.
It gives up after too many errors in a row, and after a bounded number of rounds it has returned, or
stopped with an error. -/
structure UpdatesInOrder (sha256 : List Byte → List Byte) (payload : List Byte)
    (frames : List Frame) (responses : ℕ → Response) : Prop where
  index_lt : ∀ n s, update sha256 payload responses n = .ok (some s) →
    s.firstUnackedIndex < frames.length
  index_mono : ∀ m n s t, m ≤ n → update sha256 payload responses m = .ok (some s) →
    update sha256 payload responses n = .ok (some t) → s.firstUnackedIndex ≤ t.firstUnackedIndex
  index_near : ∀ n s t, update sha256 payload responses n = .ok (some s) →
    update sha256 payload responses (n + 1) = .ok (some t) →
      t.firstUnackedIndex ≤ transmitIndex frames s + 2
  acknowledged : ∀ n s, update sha256 payload responses n = .ok (some s) →
    ∀ i < s.firstUnackedIndex, Acknowledged sha256 frames responses n i
  done : ∀ n, update sha256 payload responses n = .ok none →
    ∀ i < frames.length, Acknowledged sha256 frames responses n i
  gives_up : ∀ n s, update sha256 payload responses n = .ok (some s) →
    s.consecutiveErrors ≤ kMaxConsecutiveErrors + 1 ∧
      (kMaxConsecutiveErrors < s.consecutiveErrors →
        update sha256 payload responses (n + 1) = .error (.err .repeatedErrors))
  bounded : ∃ n ≤ frames.length * (kMaxConsecutiveErrors + 3) + kMaxConsecutiveErrors + 2,
    update sha256 payload responses n = .ok none ∨
      ∃ e, update sha256 payload responses n = .error (.err e)

/-- Whatever the device answers, an update goes on as it should. -/
theorem legacy_update_acknowledges_in_order {payload : List Byte}
    (h : fromPayload sha256 payload = .ok frames) (responses : ℕ → Response) :
    UpdatesInOrder sha256 payload frames responses := by
  have hne := frames_ne_nil sha256 h
  have hupdate : update sha256 payload responses = rounds sha256 frames responses := by
    funext n
    rw [update, h]
  constructor <;> rw [hupdate]
  case index_lt => exact fun n s hs => (inv_of_rounds hne hs).index_lt
  case index_mono => exact fun m n s t hle hs ht => index_mono hne hle hs ht
  case index_near => exact fun n s t hs ht => (index_round hne hs ht).2
  case acknowledged => exact fun n s hs => (inv_of_rounds hne hs).acknowledged
  case done =>
    intro n hdone
    rcases rounds_cases sha256 hne responses n with ⟨e, he⟩ | ⟨-, hall⟩ | ⟨s, hs, -⟩
    · rw [he] at hdone
      cases hdone
    · exact hall
    · rw [hs] at hdone
      cases hdone
  case gives_up =>
    refine fun n s hs => ⟨(inv_of_rounds hne hs).errors_le, fun herrors => ?_⟩
    rw [rounds_succ hs]
    exact if_pos herrors
  case bounded =>
    refine ⟨_, le_rfl, ?_⟩
    rcases rounds_cases sha256 hne responses
      (frames.length * (kMaxConsecutiveErrors + 3) + kMaxConsecutiveErrors + 2)
      with ⟨e, he⟩ | ⟨hdone, -⟩ | ⟨s, -, hinv⟩
    · exact .inr ⟨e, he⟩
    · exact .inl hdone
    · have hbudget := hinv.budget_le
      simp [budget, UpdateState.init] at hbudget
      omega

/-! ### A payload of zeroes -/

/-- A digest, as its bytes. -/
def digestBytes (d : BitVec 256) : List Byte :=
  (List.range 32).map fun i => d.extractLsb' (8 * (31 - i)) 8

theorem length_digestBytes (d : BitVec 256) : (digestBytes d).length = 32 := by
  simp [digestBytes]

/-- The SHA-256 digests of the headers and of the frames of 4020 zeroes, by their frame numbers. -/
def zeroesDigest (m : List Byte) : List Byte :=
  digestBytes <|
    if m.length = 2016 then
      if m.getD 0 0 = 0 then 0x4e31bfd8b3be32358f2235c0f241f3970de575fc6aca0564aa6bf30adaf33910
      else if m.getD 0 0 = 1 then 0xba0fb077f60bed13be7853b9573268a647807dfff9c0ce75e4bb675814a645bf
      else 0x2b19aa58b6934f951406454a168d94a41fa64d0e9c69bf9b6ea1fcaf91493fa3
    else
      if m.getD 32 0 = 0 then 0x769807d48eeca7dd519c82bd83f06d899ecfa0f28c07562cd0a05246f3a528e3
      else if m.getD 32 0 = 1 then
        0x43abec87b6787da0e71156860cec9807aa983438039e47e094a9acd7110dfcfe
      else 0x64ea008ae41f3b589551347bb1138a666fa8ef511b37cb155ba2eef2316dac65

theorem filled_zeroes_iff (n k : ℕ) : Filled (List.replicate (4 * n) 0) k ↔ k < n := by
  have hword (hk : k < n) : Chunks.chunk 4 (List.replicate (4 * n) (0 : Byte)) k =
      List.replicate 4 0 := by
    simp only [Chunks.chunk, List.drop_replicate, List.take_replicate]
    rw [Nat.min_eq_left (by omega)]
  simp only [Filled, Chunks.Has, List.length_replicate]
  constructor
  · rintro ⟨hk, -⟩
    omega
  · intro hk
    rw [hword hk]
    exact ⟨by omega, by decide⟩

theorem starts_zeroes :
    Starts kDataLen (List.replicate 4020 0) (trimmedSize (List.replicate 4020 0)) 0
      [0, 2008, 4016] := by
  have hfilled (k : ℕ) : Filled (List.replicate 4020 0) k ↔ k < 1005 := filled_zeroes_iff 1005 k
  have htrimmed : trimmedSize (List.replicate 4020 0) = 4020 := by
    obtain ⟨last, hlast, hmax, heq⟩ := exists_last ⟨0, (hfilled 0).2 (by decide)⟩
    have hle := hmax 1004 ((hfilled _).2 (by decide))
    have hlt := (hfilled last).1 hlast
    omega
  have hbefore (k : ℕ) : ∀ j < k, 4 * k ≤ 4 * j → ¬ Filled (List.replicate 4020 0) j := by
    intro j hj hle
    omega
  rw [htrimmed]
  exact .next (k := 0) (by decide) (by decide) ((hfilled 0).2 (by decide)) (hbefore 0) <|
    .next (k := 502) (by decide) (by decide) ((hfilled 502).2 (by decide)) (hbefore 502) <|
    .next (k := 1004) (by decide) (by decide) ((hfilled 1004).2 (by decide)) (hbefore 1004) <|
    .done (by decide)

def zeroesFrame (i a : ℕ) : Frame :=
  sentFrame zeroesDigest kDataLen kFlashBaseAddress (List.replicate 4020 0) 3 i a

theorem fromPayload_zeroes : fromPayload zeroesDigest (List.replicate 4020 0) =
    .ok [zeroesFrame 0 0, zeroesFrame 1 2008, zeroesFrame 2 4016] :=
  (returns_makeFrames zeroesDigest kFlashBaseAddress starts_zeroes (by decide) (by decide)
    (Nat.dvd_zero 4)).eq (by decide)

theorem zeroesDigest_asBytes (i a : ℕ) :
    zeroesDigest (zeroesFrame i a).asBytes = digestBytes (
      if (zeroesFrame i a).header.frameNum.extractLsb' 0 8 = 0 then
        0x769807d48eeca7dd519c82bd83f06d899ecfa0f28c07562cd0a05246f3a528e3
      else if (zeroesFrame i a).header.frameNum.extractLsb' 0 8 = 1 then
        0x43abec87b6787da0e71156860cec9807aa983438039e47e094a9acd7110dfcfe
      else 0x64ea008ae41f3b589551347bb1138a666fa8ef511b37cb155ba2eef2316dac65) := by
  have hhash : (zeroesFrame i a).header.hash.length = 32 := length_digestBytes _
  have hdata : (zeroesFrame i a).data.length = kDataLen := length_data_sentFrame _ _ _ _
  have hlength : (zeroesFrame i a).asBytes.length = 2048 := by
    simp [Frame.asBytes, hhash, hdata, kDataLen]
  have hnum : (zeroesFrame i a).asBytes.getD 32 0 =
      (zeroesFrame i a).header.frameNum.extractLsb' 0 8 := by
    rw [Frame.asBytes, List.append_assoc, List.append_assoc,
      List.getD_append_right _ _ _ _ (by omega), hhash]
    rfl
  rw [zeroesDigest, hlength, if_neg (by decide), hnum]

/-- The hash of the second of three frames is believed in the first round. -/
theorem updateRound_init_of_second (sha256 : List Byte → List Byte) (f₀ f₁ f₂ : Frame)
    (hstatus : ¬ response.hash.all (· == response.status) = true)
    (h₀ : response.hash ≠ frameHash sha256 f₀) (h₁ : response.hash = frameHash sha256 f₁) :
    updateRound sha256 [f₀, f₁, f₂] .init response = pure (some ⟨2, 0, false, true⟩) := by
  have hfirst : (index [f₀, f₁, f₂] 0 : Run LegacyBootstrapError Frame) = pure f₀ := rfl
  have hsecond : (index [f₀, f₁, f₂] (secondUnackedIndex [f₀, f₁, f₂] .init) :
      Run LegacyBootstrapError Frame) = pure f₁ := rfl
  change (if 0 > kMaxConsecutiveErrors then _ else _) = _
  rw [if_neg (by decide), if_neg (by simp)]
  change (index [f₀, f₁, f₂] 0 >>= _) = _
  rw [hfirst, pure_bind, if_neg (by decide), if_neg hstatus]
  change (index [f₀, f₁, f₂] 0 >>= _) = _
  rw [hfirst, pure_bind, if_neg h₀, hsecond, pure_bind, if_pos h₁]
  rfl

theorem legacy_update_zeroes :
    ∃ frames, fromPayload zeroesDigest (List.replicate 4020 0) = .ok frames ∧
      ∀ responses, UpdatesInOrder zeroesDigest (List.replicate 4020 0) frames responses :=
  ⟨_, fromPayload_zeroes, legacy_update_acknowledges_in_order fromPayload_zeroes⟩

/-- The device answers with the hash of the second frame while the first one is sent: both of them
are taken for acknowledged, and the second one is never sent. -/
theorem legacy_update_trusts_hash_of_unsent_frame :
    ∃ frames responses s, fromPayload zeroesDigest (List.replicate 4020 0) = .ok frames ∧
      update zeroesDigest (List.replicate 4020 0) responses 1 = .ok (some s) ∧
        transmitIndex frames .init = 0 ∧ s.firstUnackedIndex = 2 := by
  have hfirst : frameHash zeroesDigest (zeroesFrame 0 0) =
      digestBytes 0x769807d48eeca7dd519c82bd83f06d899ecfa0f28c07562cd0a05246f3a528e3 := by
    rw [frameHash, zeroesDigest_asBytes]
    decide
  have hsecond : frameHash zeroesDigest (zeroesFrame 1 2008) =
      digestBytes 0x43abec87b6787da0e71156860cec9807aa983438039e47e094a9acd7110dfcfe := by
    rw [frameHash, zeroesDigest_asBytes]
    decide
  obtain ⟨digest, hdigest⟩ : ∃ digest, digest =
    digestBytes 0x43abec87b6787da0e71156860cec9807aa983438039e47e094a9acd7110dfcfe := ⟨_, rfl⟩
  have hlength : digest.length = 32 := hdigest ▸ length_digestBytes _
  obtain ⟨response, hresponse⟩ : ∃ response : Response, response.hash = digest :=
    ⟨⟨digest ++ List.replicate 2016 0, by rw [List.length_append, List.length_replicate, hlength]⟩,
      List.take_left' hlength⟩
  have hstatus : ¬ response.hash.all (· == response.status) = true := by
    intro hall
    rw [List.all_eq_true] at hall
    have h43 := beq_iff_eq.1 (hall 0x43 (by rw [hresponse, hdigest]; decide))
    have hab := beq_iff_eq.1 (hall 0xab (by rw [hresponse, hdigest]; decide))
    exact absurd (h43.trans hab.symm) (by decide)
  refine ⟨_, fun _ => response, ⟨2, 0, false, true⟩, fromPayload_zeroes, ?_, rfl, rfl⟩
  have hround := updateRound_init_of_second zeroesDigest (zeroesFrame 0 0) (zeroesFrame 1 2008)
    (zeroesFrame 2 4016) hstatus
    (by rw [hresponse, hdigest, hfirst]; decide) (by rw [hresponse, hdigest, hsecond])
  rw [update, fromPayload_zeroes]
  change rounds _ _ _ 1 = _
  rw [rounds_succ (s := .init) rfl]
  exact hround

end Legacy

end HostBootstrap

end SecureBoot
