import SecureBoot.BootData.ActivePage
import SecureBoot.Drivers.FlashProgram

/-! What the boot data pages hold, whatever is in them, and what a read of an entry returns. -/

namespace SecureBoot

/-- The entry at an index of a page. -/
def pageEntry (info : ℕ → Word) (page : FlashCtrlInfoPage) (index : ℕ) : BootDataWords :=
  .ofFn fun k => info ((infoPageAddr page).toNat / 4 + kBootDataNumWords * index + k)

def BootDataWords.Empty (words : BootDataWords) : Prop := ∀ k, words.get k = kFlashCtrlErasedWord

/-- An entry that is not invalidated and passes the check of its digest. -/
structure BootDataWords.Valid (sha256 : List Byte → HmacDigest) (words : BootDataWords) :
    Prop where
  identifier : words.maskedIdentifier = kBootDataIdentifier
  digest : bootDataCheck sha256 words.entry = kErrorOk

/-- The index of the first empty entry of a page, or of its end, and the index of the last valid
entry before it. -/
structure PageHolds (sha256 : List Byte → HmacDigest) (entries : ℕ → BootDataWords)
    (firstEmpty : ℕ) (last : Option ℕ) : Prop where
  le : firstEmpty ≤ kBootDataEntriesPerPage
  notEmpty : ∀ i < firstEmpty, ¬(entries i).Empty
  empty : firstEmpty < kBootDataEntriesPerPage → (entries firstEmpty).Empty
  lt : ∀ i, last = some i → i < firstEmpty
  valid : ∀ i, last = some i → (entries i).Valid sha256
  newest : ∀ i < firstEmpty, (entries i).Valid sha256 → ∃ j, last = some j ∧ i ≤ j

/-! ### The checks of an entry -/

theorem foldl_and_eq (words : List Word) (res isEmpty : Word) :
    words.foldl (fun acc word => (acc.1 &&& word, acc.2 &&& word)) (res, isEmpty) =
      (words.foldl (· &&& ·) res, words.foldl (· &&& ·) isEmpty) := by
  induction words generalizing res isEmpty with
  | nil => rfl
  | cons word words ih => exact ih _ _

theorem foldl_and_of_forall {words : List Word} (h : ∀ word ∈ words, word = wordMax)
    (init : Word) : words.foldl (· &&& ·) init = init := by
  induction words generalizing init with
  | nil => rfl
  | cons word words ih =>
    rw [List.foldl_cons, h word List.mem_cons_self, ih fun w hw => h w (List.mem_cons_of_mem _ hw)]
    exact BitVec.and_allOnes

theorem eq_of_foldl_and {words : List Word} {init : Word}
    (h : words.foldl (· &&& ·) init = wordMax) : init = wordMax ∧ ∀ word ∈ words, word = wordMax := by
  induction words generalizing init with
  | nil => exact ⟨h, fun _ hmem => absurd hmem List.not_mem_nil⟩
  | cons word words ih =>
    obtain ⟨hand, hrest⟩ := ih h
    have hboth : init = wordMax ∧ word = wordMax := BitVec.and_eq_allOnes_iff.1 hand
    exact ⟨hboth.1, List.forall_mem_cons.2 ⟨hboth.2, hrest⟩⟩

/-- An entry is empty or is not, whatever its words are. -/
theorem bootDataIsEmpty_cases (words : BootDataWords) :
    (words.Empty ∧ bootDataIsEmpty words = kHardenedBoolTrue) ∨
      (¬words.Empty ∧ bootDataIsEmpty words = kHardenedBoolFalse) := by
  have hall : words.Empty ↔ ∀ word ∈ words.toList, word = wordMax := by
    refine ⟨fun h word hword => ?_,
      fun h k => h _ (Vector.mem_toList_iff.2 (Vector.getElem_mem k.isLt))⟩
    obtain ⟨k, hk, rfl⟩ := Vector.getElem_of_mem (Vector.mem_toList_iff.1 hword)
    exact h ⟨k, hk⟩
  rw [bootDataIsEmpty, foldl_and_eq]
  by_cases h : words.Empty
  · refine .inl ⟨h, ?_⟩
    simp only [foldl_and_of_forall (hall.1 h), if_true]
  · exact .inr ⟨h, if_neg fun hfold => h (hall.2 (eq_of_foldl_and hfold).2)⟩

theorem maskedIdentifier_of_empty {words : BootDataWords} (h : words.Empty) :
    words.maskedIdentifier = kFlashCtrlErasedWord := by
  rw [BootDataWords.maskedIdentifier, h, h, h]
  decide

/-! ### Every page holds something -/

theorem exists_pageHolds (sha256 : List Byte → HmacDigest) (entries : ℕ → BootDataWords) :
    ∃ firstEmpty last, PageHolds sha256 entries firstEmpty last := by
  classical
  have hend : ∃ i, i = kBootDataEntriesPerPage ∨ (entries i).Empty :=
    ⟨kBootDataEntriesPerPage, .inl rfl⟩
  have hlast : ∀ n, ∃ last : Option ℕ, (∀ i, last = some i → i < n) ∧
      (∀ i, last = some i → (entries i).Valid sha256) ∧
      ∀ i < n, (entries i).Valid sha256 → ∃ j, last = some j ∧ i ≤ j := by
    intro n
    induction n with
    | zero =>
      exact ⟨none, fun _ h => absurd h (by simp), fun _ h => absurd h (by simp),
        fun i hi => absurd hi i.not_lt_zero⟩
    | succ n ih =>
      obtain ⟨last, hlt, hvalid, hnewest⟩ := ih
      by_cases h : (entries n).Valid sha256
      · refine ⟨some n, fun i hi => ?_, fun i hi => ?_, fun i hi _ => ⟨n, rfl, Nat.le_of_lt_succ hi⟩⟩
        · exact Option.some.inj hi ▸ Nat.lt_succ_self n
        · exact Option.some.inj hi ▸ h
      · refine ⟨last, fun i hi => (hlt i hi).trans (Nat.lt_succ_self n), hvalid, fun i hi hv => ?_⟩
        rcases Nat.lt_succ_iff_lt_or_eq.1 hi with hi | rfl
        · exact hnewest i hi hv
        · exact absurd hv h
  obtain ⟨last, hlt, hvalid, hnewest⟩ := hlast (Nat.find hend)
  refine ⟨Nat.find hend, last, Nat.find_min' hend (.inl rfl), fun i hi hempty => ?_, fun h => ?_,
    hlt, hvalid, hnewest⟩
  · exact Nat.find_min hend hi (.inr hempty)
  · exact (Nat.find_spec hend).resolve_left h.ne

/-! ### A read of the flash -/

theorem toNat_infoPageAddr_add (page : FlashCtrlInfoPage) {offset : ℕ} (h : offset < 2 ^ 20) :
    (infoPageAddr page + .ofNat 32 offset).toNat = (infoPageAddr page).toNat + offset ∧
      (infoPageAddr page).toNat % kFlashBytesPerPage = 0 := by
  have hpage : (infoPageAddr page).toNat < 2 ^ 20 ∧
      (infoPageAddr page).toNat % kFlashBytesPerPage = 0 := by
    cases page <;> decide
  have hoffset : (BitVec.ofNat 32 offset).toNat = offset := Nat.mod_eq_of_lt (by omega)
  rw [BitVec.toNat_add, hoffset]
  exact ⟨Nat.mod_eq_of_lt (by omega), hpage.2⟩

theorem TransactionParams.effect_of_read (p : TransactionParams) (h : p.opType = .read)
    (takes : ℕ → Bool) (fifo : List Word) (mem : ℕ → Word) : p.effect takes fifo mem = mem := by
  funext i
  rw [TransactionParams.effect, h]

/-- The word of an entry at an offset in its page. -/
theorem toNat_entry_word (page : FlashCtrlInfoPage) {index j : ℕ}
    (hindex : index < kBootDataEntriesPerPage) (hj : j < kBootDataNumWords) :
    (infoPageAddr page + .ofNat 32 (index * kBootDataSize + 4 * j)).toNat / 4 =
      (infoPageAddr page).toNat / 4 + kBootDataNumWords * index + j := by
  simp only [kBootDataEntriesPerPage, kBootDataNumWords, kBootDataSize] at hindex hj ⊢
  obtain ⟨haddr, hpage⟩ := toNat_infoPageAddr_add page
    (show index * 64 + 4 * j < 2 ^ 20 by omega)
  rw [haddr]
  simp only [kFlashBytesPerPage] at hpage
  omega

theorem get_pageEntry (info : ℕ → Word) (page : FlashCtrlInfoPage) (index : ℕ)
    (k : Fin kBootDataNumWords) : (pageEntry info page index).get k =
      info ((infoPageAddr page).toNat / 4 + kBootDataNumWords * index + k) :=
  Vector.getElem_ofFn k.isLt

/-- A trap of the hardware, or a `HARDENED_CHECK` that fails because of `E`; the hardware makes none
where it works. -/
def Stops (W E : Prop) (trap : Trap) : Prop := if trap = .hardened then E else ¬W

section Read

variable {hw : Hw} {W E : Prop} (hW : W → hw.FlashWorks)

theorem run_fifoRead (n : ℕ) (io : Io) :
    (fifoRead hw n).run io = .ok (.ofFn fun k : Fin n => io.readFifoWord hw k) io := by
  induction n with
  | zero => rfl
  | succ n ih =>
    change (fifoRead hw n >>= fun words => get >>= fun io =>
      pure (words.push (io.readFifoWord hw n))).run io = _
    rw [EStateM.run_bind, ih, Vector.ofFn_succ]
    rfl

include hW

theorem triple_waitForDone_read {c : ℕ → Word} {R : SecMmioCtx → Prop} (error : RomError) :
    Hoare.Triple (fun io => (∃ p, io.transaction = some p ∧ p.opType = .read) ∧ io.info = c ∧
        R io.secMmio) (waitForDone hw error)
      (fun err io => (err = kErrorOk ∨ ¬W ∧ err = error) ∧ io.info = c ∧ R io.secMmio)
      fun trap _ => Stops W E trap := by
  refine .bind (R := fun status io => (W → bitfieldBit32Read status 1 = false) ∧
    (∃ p, io.transaction = some p ∧ p.opType = .read) ∧ io.info = c ∧ R io.secMmio) ?_
    fun status => .of_pre fun hstatus => .bind (R := fun _ io => io.info = c ∧ R io.secMmio) ?_
      fun _ => .bind (R := fun _ io => io.info = c ∧ R io.secMmio) (.modify _ fun _ h => h)
        fun _ => .ite _ (fun hbit => ?_) fun _ => ?_
  · refine .bind (R := fun status io => (W → bitfieldBit32Read status 0 = true ∧
      bitfieldBit32Read status 1 = false) ∧ (∃ p, io.transaction = some p ∧ p.opType = .read) ∧
      io.info = c ∧ R io.secMmio) (.modifyGet _ fun io h => ⟨fun hw' => ⟨(hW hw').done _,
        (hW hw').noError _⟩, h⟩) fun status => .of_pre fun hstatus => .ite _ (fun _ => ?_)
        fun hdone => ?_
    · exact .pure _ fun _ h => ⟨fun hw' => (hstatus hw').2, h⟩
    · exact .throw _ fun _ _ hw' => hdone (hstatus hw').1
  · refine .bind (R := fun _ io => io.info = c ∧ R io.secMmio) (.modify _ ?_) fun _ => ?_
    · rintro io ⟨⟨p, hp, hread⟩, hinfo, hR⟩
      rw [Io.completeTransaction, hp]
      refine ⟨?_, hR⟩
      by_cases hpart : p.partition = .info0
      · simp only [hpart, if_true, p.effect_of_read hread]
        exact hinfo
      · simp only [hpart, if_false]
        exact hinfo
    · refine .bind (R := fun _ io => io.info = c ∧ R io.secMmio) (.get fun _ h => h) fun io =>
        .ite _ (fun hlost => .throw _ fun _ _ hw' => ?_) fun _ => .pure _ fun _ h => h
      exact Bool.false_ne_true (((hW hw').power _).symm.trans hlost)
  · exact .pure _ fun _ h => ⟨.inr ⟨fun hw' => Bool.false_ne_true ((hstatus hw').symm.trans hbit),
      rfl⟩, h⟩
  · exact .pure _ fun _ h => ⟨.inl rfl, h⟩

theorem triple_flashCtrlInfoRead {c : ℕ → Word} {R : SecMmioCtx → Prop} (page : FlashCtrlInfoPage)
    (offset : Word) (n : ℕ) :
    Hoare.Triple (fun io => io.info = c ∧ R io.secMmio) (flashCtrlInfoRead hw page offset n)
      (fun r io => ((r.1 = kErrorOk ∨ ¬W ∧ r.1 = kErrorFlashCtrlInfoRead) ∧
        r.2 = .ofFn fun k => c ((infoPageAddr page + offset).toNat / 4 + k)) ∧
        io.info = c ∧ R io.secMmio) fun trap _ => Stops W E trap := by
  obtain ⟨p, hp⟩ : ∃ p : TransactionParams, p =
    ⟨infoPageAddr page + offset, .read, .page, .info0, .ofNat 32 n⟩ := ⟨_, rfl⟩
  rw [flashCtrlInfoRead, ← hp]
  refine .bind (R := fun _ io => io.transaction = some p ∧ io.info = c ∧ R io.secMmio) ?_
    fun _ => .bind (R := fun words io => words = .ofFn (fun k : Fin n =>
      c ((infoPageAddr page + offset).toNat / 4 + k)) ∧
      (∃ p, io.transaction = some p ∧ p.opType = .read) ∧ io.info = c ∧ R io.secMmio) ?_
      fun words => .of_pre fun hwords => .bind (triple_waitForDone_read hW _) fun err =>
        .of_pre fun herr => .pure _ fun _ h => ⟨⟨herr, hwords⟩, h⟩
  · exact .bind (R := fun _ io => io.info = c ∧ R io.secMmio) (.modify _ fun _ h => h) fun _ =>
      .bind (R := fun _ io => io.info = c ∧ R io.secMmio) (.modify _ fun _ h => h) fun _ =>
        .modify _ fun _ h => ⟨rfl, h⟩
  · rintro io ⟨htrans, rfl, hR⟩
    rw [run_fifoRead]
    refine ⟨congrArg _ (funext fun k => ?_), ⟨p, htrans, hp ▸ rfl⟩, rfl, hR⟩
    rw [Io.readFifoWord, htrans, hp]

end Read

end SecureBoot
