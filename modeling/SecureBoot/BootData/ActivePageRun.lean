import SecureBoot.BootData.PageContents

/-! The search of the boot data pages from the reads up: what the forward and the backward loop have
found in a page, and what the pages searched so far make the active page. -/

namespace SecureBoot

/-- The registers that the search writes through `sec_mmio`. -/
def kBootDataCfgs : Finset Word := {infoCfgAddr .bootData0, infoCfgAddr .bootData1}

/-- Flash and HMAC finish what they start, and the page configuration holds what is written. -/
structure Hw.BootDataWorks (hw : Hw) : Prop where
  flash : hw.FlashWorks
  hmac : ∀ n, bitfieldBit32Read (hw.sample n kHmacIntrState) 0 = true
  cfg : ∀ page ∈ kPages, hw.Holds (infoCfgAddr page)

/-- The flash holds `contents`, and there is room in the table of `sec_mmio` if it is needed. -/
def ScanState (W : Prop) (contents : ℕ → Word) (io : Io) : Prop :=
  io.info = contents ∧ (W → io.secMmio.HasRoom kBootDataCfgs)

/-- A part of the search. -/
def Scans {α : Type} (W E : Prop) (contents : ℕ → Word) (x : Drv α) (Q : α → Prop) : Prop :=
  Hoare.Triple (ScanState W contents) x (fun a io => Q a ∧ ScanState W contents io)
    fun trap _ => Stops W E trap

/-- A result, or the error of a read that hardware that works does not make. -/
def ReadResult {α : Type} (W : Prop) (Q : α → Prop) : Except RomError α → Prop
  | .ok a => Q a
  | .error error => ¬W ∧ error = kErrorFlashCtrlInfoRead

namespace Scans

variable {α β : Type} {W E : Prop} {contents : ℕ → Word} {x : Drv α} {Q : α → Prop}

theorem mono (h : Scans W E contents x Q) {Q' : α → Prop} (hQ : ∀ a, Q a → Q' a) :
    Scans W E contents x Q' :=
  Hoare.Triple.conseq h (fun _ h => h) (fun a _ h => ⟨hQ a h.1, h.2⟩) fun _ _ h => h

theorem pure {a : α} (h : Q a) : Scans W E contents (pure a : Drv α) Q :=
  Hoare.Triple.pure a fun _ hs => ⟨h, hs⟩

theorem bind {f : α → Drv β} {R : β → Prop} (hx : Scans W E contents x Q)
    (hf : ∀ a, Q a → Scans W E contents (f a) R) : Scans W E contents (x >>= f) R :=
  Hoare.Triple.bind hx fun a => .of_pre fun hQ => hf a hQ

theorem ite (c : Prop) [Decidable c] {y : Drv α} (hx : c → Scans W E contents x Q)
    (hy : ¬c → Scans W E contents y Q) : Scans W E contents (if c then x else y) Q :=
  Hoare.Triple.ite c hx hy

theorem check {c : Prop} [Decidable c] (h : ¬c → E) :
    Scans W E contents (hardenedCheck c .hardened) fun _ => c :=
  .ite c (fun hc => .pure hc) fun hc => Hoare.Triple.throw _ fun _ _ => h hc

end Scans

section

variable {hw : Hw} {W E : Prop} (hW : W → hw.BootDataWorks) {contents : ℕ → Word}

/-! ### The reads -/

include hW

theorem scans_flashCtrlInfoRead (page : FlashCtrlInfoPage) (offset : Word) (n : ℕ) :
    Scans W E contents (flashCtrlInfoRead hw page offset n) fun r =>
      (r.1 = kErrorOk ∨ ¬W ∧ r.1 = kErrorFlashCtrlInfoRead) ∧
        r.2 = .ofFn fun k => contents ((infoPageAddr page + offset).toNat / 4 + k) :=
  triple_flashCtrlInfoRead (R := fun ctx => W → ctx.HasRoom kBootDataCfgs)
    (fun h => (hW h).flash) page offset n

theorem scans_bootDataSniff (page : FlashCtrlInfoPage) {index : ℕ}
    (hindex : index < kBootDataEntriesPerPage) :
    Scans W E contents (bootDataSniff hw page index) fun r =>
      (r.1 = kErrorOk ∧ r.2 = (pageEntry contents page index).maskedIdentifier) ∨
        (¬W ∧ r.1 = kErrorFlashCtrlInfoRead) := by
  have hword := toNat_entry_word page hindex (show 8 < kBootDataNumWords by decide)
  refine (scans_flashCtrlInfoRead hW page _ 3).bind ?_
  rintro ⟨error, buf⟩ ⟨rfl | ⟨hfail, rfl⟩, rfl⟩
  · refine .pure (.inl ⟨rfl, ?_⟩)
    have hget : ∀ k : Fin 3, (Vector.ofFn fun k : Fin 3 => contents ((infoPageAddr page +
        .ofNat 32 (index * kBootDataSize + kIsValidOffset)).toNat / 4 + k)).get k =
        contents ((infoPageAddr page).toNat / 4 + kBootDataNumWords * index + 8 + k) := fun k =>
      (Vector.getElem_ofFn k.isLt).trans (congrArg (fun n => contents (n + k)) hword)
    simp only [if_true, hget]
    rw [BootDataWords.maskedIdentifier, get_pageEntry, get_pageEntry, get_pageEntry]
    rfl
  · exact .pure (.inr ⟨hfail, rfl⟩)

theorem scans_bootDataEntryRead (page : FlashCtrlInfoPage) {index : ℕ}
    (hindex : index < kBootDataEntriesPerPage) :
    Scans W E contents (bootDataEntryRead hw page index) fun r =>
      (r.1 = kErrorOk ∧ r.2 = pageEntry contents page index) ∨
        (¬W ∧ r.1 = kErrorFlashCtrlInfoRead) := by
  have hword := toNat_entry_word page hindex (show 0 < kBootDataNumWords by decide)
  refine (scans_flashCtrlInfoRead hW page _ _).mono ?_
  rintro ⟨error, buf⟩ ⟨rfl | ⟨hfail, rfl⟩, rfl⟩
  · refine .inl ⟨rfl, congrArg Vector.ofFn (funext fun k => congrArg contents ?_)⟩
    exact congrArg (· + k.val) hword
  · exact .inr ⟨hfail, rfl⟩

omit hW

/-! ### The check of a digest -/

theorem bootDataCheck_cases (sha256 : List Byte → HmacDigest) (entry : BootData) :
    bootDataCheck sha256 entry = kErrorOk ∨ bootDataCheck sha256 entry = kErrorBootDataInvalid := by
  rw [bootDataCheck]
  split_ifs with h
  · exact .inl h
  · exact .inr rfl

/-- A step that changes neither the flash nor the table of `sec_mmio`. -/
def Io.SameScan (io io' : Io) : Prop := io'.info = io.info ∧ io'.secMmio = io.secMmio

instance : IsPreorder Io Io.SameScan where
  refl _ := ⟨rfl, rfl⟩
  trans _ _ _ h h' := ⟨h'.1.trans h.1, h'.2.trans h.2⟩

theorem moves_hmacUpdateBytes (data : List Byte) :
    Hoare.Moves Io.SameScan (hmacUpdateBytes hw data) := by
  induction data with
  | nil => exact .pure _
  | cons b rest ih =>
    exact .bind (.bind (.modify _ fun _ => ⟨rfl, rfl⟩) fun _ => .modify _ fun _ => ⟨rfl, rfl⟩)
      fun _ => ih

theorem moves_hmacUpdateWords (data : List Byte) :
    Hoare.Moves Io.SameScan (hmacUpdateWords hw data) := by
  induction data using hmacUpdateWords.induct with
  | case1 b₀ b₁ b₂ b₃ rest ih =>
    exact .bind (.bind (.modify _ fun _ => ⟨rfl, rfl⟩) fun _ => .modify _ fun _ => ⟨rfl, rfl⟩)
      fun _ => ih
  | case2 rest hshort =>
    rw [hmacUpdateWords]
    · exact moves_hmacUpdateBytes rest
    · exact hshort

theorem ScanState.of_sameScan {io io' : Io} (h : ScanState W contents io) (hsame : io.SameScan io') :
    ScanState W contents io' :=
  ⟨hsame.1.trans h.1, fun hw' => hsame.2 ▸ h.2 hw'⟩

theorem triple_hmacSha256Init :
    Hoare.Triple (ScanState W contents) (hmacSha256Init hw)
      (fun _ io => io.hmac = [] ∧ ScanState W contents io) fun trap _ => Stops W E trap := by
  have hwrite : ∀ addr value, Hoare.Triple (ScanState W contents) (absMmioWrite32 hw addr value)
      (fun _ => ScanState W contents) fun trap _ => Stops W E trap :=
    fun addr value => .modify _ fun _ h => h
  exact .bind (hwrite _ _) fun _ => .bind (hwrite _ _) fun _ => .bind (hwrite _ _) fun _ =>
    .bind (hwrite _ _) fun _ => .bind (hwrite _ _) fun _ => .modify _ fun _ h => ⟨rfl, h⟩

theorem triple_hmacSha256Update (addr : Word) (data : List Byte) :
    Hoare.Triple (fun io => io.hmac = [] ∧ ScanState W contents io) (hmacSha256Update hw addr data)
      (fun _ io => io.hmac = data ∧ ScanState W contents io) fun trap _ => Stops W E trap := by
  have hmoves : Hoare.Moves Io.SameScan (hmacSha256Update hw addr data) :=
    .bind (moves_hmacUpdateBytes _) fun _ => moves_hmacUpdateWords _
  exact ((feeds_hmacSha256Update hw addr data []).and
    (hmoves.invariant fun _ _ hsame h => ScanState.of_sameScan h hsame)).conseq (fun _ h => h)
    (fun _ _ h => h) fun _ _ h => h.1.elim

include hW

theorem scans_bootDataCheckAt (addr : Word) (entry : BootData) :
    Scans W E contents (bootDataCheckAt hw addr entry) (· = bootDataCheck hw.sha256 entry) := by
  refine Hoare.Triple.bind triple_hmacSha256Init fun _ =>
    .bind (triple_hmacSha256Update _ _) fun _ => .bind (R := fun digest io =>
      digest = hw.sha256 entry.digestRegion ∧ ScanState W contents io) ?_ fun digest =>
        .of_pre fun hdigest => .pure _ fun _ h => ⟨?_, h⟩
  · refine .bind (R := fun _ io => io.hmac = entry.digestRegion ∧ ScanState W contents io)
      (.modify _ fun _ h => h) fun _ => .bind (R := fun _ io => io.hmac = entry.digestRegion ∧
        ScanState W contents io) ?_ fun _ => .bind (R := fun _ io => io.hmac = entry.digestRegion ∧
        ScanState W contents io) (.modify _ fun _ h => h) fun _ => ?_
    · refine .bind (R := fun value io => (W → bitfieldBit32Read value 0 = true) ∧
        io.hmac = entry.digestRegion ∧ ScanState W contents io)
        (.modifyGet _ fun _ h => ⟨fun hw' => (hW hw').hmac _, h⟩) fun value =>
          .of_pre fun hdone => .ite _ (fun _ => .pure _ fun _ h => h) fun hwait =>
            .throw _ fun _ _ hw' => hwait (hdone hw')
    · exact .bind (R := fun s io => s = io ∧ io.hmac = entry.digestRegion ∧
        ScanState W contents io) (.get fun _ h => ⟨rfl, h⟩) fun s => .pure _ fun io h =>
          ⟨by rw [h.1, h.2.1], h.2.2⟩
  · rw [hdigest]
    rfl

/-! ### The loops over a page -/

/-- The forward search has stopped at the first empty entry, or at the end. -/
structure FirstEmpty.Finds (found : FirstEmpty) (entries : ℕ → BootDataWords) : Prop where
  notEmpty : ∀ k < found.index.val, ¬(entries k).Empty
  empty : found.index.val < kBootDataEntriesPerPage → (entries found.index).Empty
  hasEmptyEntry : found.hasEmptyEntry =
    if found.index.val < kBootDataEntriesPerPage then kHardenedBoolTrue else kHardenedBoolFalse
  sniffed : ∀ k : Fin kBootDataEntriesPerPage, k.val < found.index.val →
    found.sniffResults.get k = (entries k).maskedIdentifier

theorem scans_bootDataFirstEmptyFrom (page : FlashCtrlInfoPage) (n i : ℕ)
    (h : n + i = kBootDataEntriesPerPage) (sniffResults : Vector Word kBootDataEntriesPerPage)
    (hempty : ∀ k < i, ¬(pageEntry contents page k).Empty)
    (hsniff : ∀ k : Fin kBootDataEntriesPerPage, k.val < i →
      sniffResults.get k = (pageEntry contents page k).maskedIdentifier) :
    Scans W E contents (bootDataFirstEmptyFrom hw page n i h sniffResults)
      (ReadResult W (FirstEmpty.Finds · (pageEntry contents page))) := by
  induction n generalizing i sniffResults with
  | zero =>
    have hend : ¬i < kBootDataEntriesPerPage := by omega
    exact .pure ⟨hempty, fun hi => absurd hi hend, (if_neg hend).symm, hsniff⟩
  | succ n ih =>
    have hi : i < kBootDataEntriesPerPage := by omega
    have hnext : ∀ (hn : n + (i + 1) = kBootDataEntriesPerPage) (v : Word),
        v = (pageEntry contents page i).maskedIdentifier → ¬(pageEntry contents page i).Empty →
        Scans W E contents (bootDataFirstEmptyFrom hw page n (i + 1) hn (sniffResults.set i v hi))
          (ReadResult W (FirstEmpty.Finds · (pageEntry contents page))) := by
      intro hn v hv hnot
      refine ih (i + 1) hn _ (fun k hk => ?_) fun k hk => ?_
      · rcases Nat.lt_succ_iff_lt_or_eq.1 hk with hk | rfl
        · exact hempty k hk
        · exact hnot
      · refine (Vector.getElem_set hi k.isLt).trans ?_
        split_ifs with hik
        · rw [hv, hik]
        · exact hsniff k (by omega)
    rw [bootDataFirstEmptyFrom]
    refine (scans_bootDataSniff hW page hi).bind ?_
    rintro ⟨error, masked⟩ (⟨rfl, rfl⟩ | ⟨hfail, rfl⟩)
    · refine .ite _ (fun hbad => absurd rfl hbad) fun _ => .ite _ (fun hmask => ?_) fun hmask => ?_
      · refine (scans_bootDataEntryRead hW page hi).bind ?_
        rintro ⟨error, buf⟩ (⟨rfl, rfl⟩ | ⟨hfail, rfl⟩)
        · refine .ite _ (fun hbad => absurd rfl hbad) fun _ => ?_
          rcases bootDataIsEmpty_cases (pageEntry contents page i) with ⟨he, htrue⟩ | ⟨he, hfalse⟩
          · rw [htrue]
            refine .ite _ (fun _ => .pure ⟨hempty, fun _ => he, (if_pos hi).symm, fun k hk => ?_⟩)
              fun hbad => absurd rfl hbad
            refine (Vector.getElem_set hi k.isLt).trans ?_
            rw [if_neg (Nat.ne_of_gt hk)]
            exact hsniff k hk
          · rw [hfalse]
            exact .ite _ (fun hbad => absurd hbad (by decide)) fun _ =>
              (Scans.check fun hbad => absurd rfl hbad).bind fun _ _ => hnext _ _ rfl he
        · exact .ite _ (fun _ => .pure ⟨hfail, rfl⟩) fun hok => absurd hok (by decide)
      · exact hnext _ _ rfl fun he => hmask (maskedIdentifier_of_empty he)
    · exact .ite _ (fun _ => .pure ⟨hfail, rfl⟩) fun hok => absurd hok (by decide)

/-- The backward search has stopped at the last valid entry before an index, if there is one. -/
def FindsLast (sha256 : List Byte → HmacDigest) (entries : ℕ → BootDataWords) (firstEmpty : ℕ) :
    Option (Word × BootData) → Prop
  | none => ∀ k < firstEmpty, ¬(entries k).Valid sha256
  | some (i, entry) => i.toNat < firstEmpty ∧ (entries i.toNat).Valid sha256 ∧
      entry = (entries i.toNat).entry ∧
      ∀ k < firstEmpty, i.toNat < k → ¬(entries k).Valid sha256

theorem scans_bootDataLastValidFrom (page : FlashCtrlInfoPage) {found : FirstEmpty}
    (hfound : found.Finds (pageEntry contents page)) (buf : Word) (rounds : ℕ)
    (hrounds : rounds ≤ found.index)
    (hlater : ∀ k < found.index.val, rounds ≤ k → ¬(pageEntry contents page k).Valid hw.sha256) :
    Scans W E contents
      (bootDataLastValidFrom hw page found buf rounds (.ofNat 32 rounds - 1))
      (ReadResult W (FindsLast hw.sha256 (pageEntry contents page) found.index)) := by
  induction rounds with
  | zero => exact .pure fun k hk => hlater k hk k.zero_le
  | succ rounds ih =>
    have hin : rounds < kBootDataEntriesPerPage :=
      Nat.lt_of_lt_of_le hrounds (Nat.le_of_lt_succ found.index.isLt)
    have hpred : BitVec.ofNat 32 (rounds + 1) - 1 = .ofNat 32 rounds := by
      rw [BitVec.ofNat_add]
      exact BitVec.add_sub_cancel _ _
    have hi : (BitVec.ofNat 32 (rounds + 1) - 1).toNat = rounds := by
      rw [hpred]
      exact Nat.mod_eq_of_lt (hin.trans (by decide))
    have hnext : ¬(pageEntry contents page rounds).Valid hw.sha256 →
        Scans W E contents (bootDataLastValidFrom hw page found buf rounds
          (.ofNat 32 (rounds + 1) - 1 - 1))
          (ReadResult W (FindsLast hw.sha256 (pageEntry contents page) found.index)) := by
      intro hnot
      rw [hpred]
      refine ih (Nat.le_of_succ_le hrounds) fun k hk hge => ?_
      rcases Nat.eq_or_lt_of_le hge with rfl | hlt
      · exact hnot
      · exact hlater k hk hlt
    have hsniff : ∀ k : Fin kBootDataEntriesPerPage, k.val = rounds →
        found.sniffResults.get k = (pageEntry contents page rounds).maskedIdentifier := by
      rintro k rfl
      exact hfound.sniffed k (by omega)
    rw [bootDataLastValidFrom, dif_pos (by omega), hsniff _ hi, hi]
    refine .ite _ (fun hident => ?_) fun hident => hnext fun hvalid => hident hvalid.identifier
    refine (scans_bootDataEntryRead hW page hin).bind ?_
    rintro ⟨error, words⟩ (⟨rfl, rfl⟩ | ⟨hfail, rfl⟩)
    · refine .ite _ (fun hbad => absurd rfl hbad) fun _ =>
        (scans_bootDataCheckAt hW buf _).bind fun isValid hcheck => .ite _ (fun hok => ?_)
          fun hbad => (Scans.check fun hcase => ?_).bind fun _ _ => hnext fun hvalid => ?_
      · refine .pure ⟨by omega, ?_, ?_, fun k hk hlt => hlater k hk (by omega)⟩
        · rw [hi]
          exact ⟨hident, hcheck ▸ hok⟩
        · rw [hi]
      · exact absurd ((bootDataCheck_cases hw.sha256 _).resolve_left fun h =>
          hbad (hcheck.trans h)) fun h => hcase (hcheck.trans h)
      · exact hbad (hcheck.trans hvalid.digest)
    · exact .ite _ (fun _ => .pure ⟨hfail, rfl⟩) fun hok => absurd hok (by decide)

end

end SecureBoot

/-! The newest of the last valid entries of the boot data pages: what one page adds to the pages
before it, and the whole search. -/

namespace SecureBoot

/-- The index of the first empty entry of a page, or its end, and that of the last valid entry before
it. -/
structure PageSummary where
  firstEmpty : ℕ
  last : Option ℕ

/-- The page info of a page with a last valid entry. -/
def ActivePageInfo.ofPage (page : FlashCtrlInfoPage) (firstEmpty last : ℕ) : ActivePageInfo where
  page := some page
  hasEmptyEntry :=
    if firstEmpty < kBootDataEntriesPerPage then kHardenedBoolTrue else kHardenedBoolFalse
  firstEmptyIndex := firstEmpty
  hasValidEntry := kHardenedBoolTrue
  lastValidIndex := last

section

variable (entryAt : FlashCtrlInfoPage → ℕ → BootData) (summary : FlashCtrlInfoPage → PageSummary)

/-- Among `pages`, the page whose last valid entry has the greatest counter, and the entry; no page
and the old boot data where none has a valid entry. -/
def FindsActive (pages : List FlashCtrlInfoPage) (bootData : BootData)
    (r : ActivePageInfo × BootData) : Prop :=
  ((∀ page ∈ pages, (summary page).last = none) ∧ r = (.initial, bootData)) ∨
    ∃ page ∈ pages, ∃ i, (summary page).last = some i ∧
      r = (.ofPage page (summary page).firstEmpty i, entryAt page i) ∧
      ∀ other ∈ pages, other ≠ page → ∀ j, (summary other).last = some j →
        (entryAt other j).counter < (entryAt page i).counter

/-- Both pages have a last valid entry, and the counters are equal. -/
def Ties : Prop :=
  ∃ page ∈ kPages, ∃ other ∈ kPages, page ≠ other ∧ ∃ i j, (summary page).last = some i ∧
    (summary other).last = some j ∧
    (entryAt page i).counter = (entryAt other j).counter

end

variable {hw : Hw} {W E : Prop} {contents : ℕ → Word}
variable {entryAt : FlashCtrlInfoPage → ℕ → BootData} {summary : FlashCtrlInfoPage → PageSummary}
variable {entries : ℕ → BootDataWords} {sha256 : List Byte → HmacDigest}

/-! ### The searches find what a page holds -/

theorem PageHolds.firstEmpty_eq {firstEmpty : ℕ} {last : Option ℕ}
    (h : PageHolds sha256 entries firstEmpty last) {found : FirstEmpty}
    (hfound : found.Finds entries) : found.index.val = firstEmpty := by
  rcases Nat.lt_trichotomy found.index.val firstEmpty with hlt | heq | hgt
  · exact absurd (hfound.empty (hlt.trans_le h.le)) (h.notEmpty _ hlt)
  · exact heq
  · exact absurd (h.empty (hgt.trans_le (Nat.le_of_lt_succ found.index.isLt)))
      (hfound.notEmpty _ hgt)

theorem PageHolds.last_eq_none {firstEmpty : ℕ} {last : Option ℕ}
    (h : PageHolds sha256 entries firstEmpty last)
    (hnone : FindsLast sha256 entries firstEmpty none) : last = none := by
  cases last with
  | none => rfl
  | some i => exact absurd (h.valid i rfl) (hnone i (h.lt i rfl))

theorem PageHolds.last_eq_some {firstEmpty : ℕ} {last : Option ℕ}
    (h : PageHolds sha256 entries firstEmpty last) {i : Word} {entry : BootData}
    (hsome : FindsLast sha256 entries firstEmpty (some (i, entry))) : last = some i.toNat := by
  obtain ⟨hlt, hvalid, -, hlater⟩ := hsome
  obtain ⟨j, hlast, hle⟩ := h.newest _ hlt hvalid
  rcases Nat.eq_or_lt_of_le hle with heq | hgt
  · rw [hlast, heq]
  · exact absurd (h.valid j hlast) (hlater j (h.lt j hlast) hgt)

/-! ### One page more -/

theorem FindsActive.snoc_none {pages : List FlashCtrlInfoPage} {page : FlashCtrlInfoPage}
    {bootData : BootData} {r : ActivePageInfo × BootData}
    (h : FindsActive entryAt summary pages bootData r) (hnone : (summary page).last = none) :
    FindsActive entryAt summary (pages ++ [page]) bootData r := by
  rcases h with ⟨hall, rfl⟩ | ⟨active, hmem, i, hi, rfl, hnewest⟩
  · refine .inl ⟨fun other hother => ?_, rfl⟩
    rcases List.mem_append.1 hother with hother | hother
    · exact hall other hother
    · exact List.mem_singleton.1 hother ▸ hnone
  · refine .inr ⟨active, List.mem_append_left _ hmem, i, hi, rfl, fun other hother hne j hj => ?_⟩
    rcases List.mem_append.1 hother with hother | hother
    · exact hnewest other hother hne j hj
    · rw [List.mem_singleton.1 hother, hnone] at hj
      exact absurd hj (by simp)

theorem scans_bootDataPageInfoSelect {pages : List FlashCtrlInfoPage} {page : FlashCtrlInfoPage}
    {bootData₀ bootData : BootData} {pageInfo : ActivePageInfo} {found : FirstEmpty} {i : Word}
    (hbefore : FindsActive entryAt summary pages bootData₀ (pageInfo, bootData))
    (hlast : (summary page).last = some i.toNat)
    (hfirst : found.index.val = (summary page).firstEmpty)
    (hempty : found.hasEmptyEntry = if found.index.val < kBootDataEntriesPerPage then
      kHardenedBoolTrue else kHardenedBoolFalse)
    (hties : ∀ other ∈ pages, ∀ j, (summary other).last = some j →
      (entryAt other j).counter =
        (entryAt page i.toNat).counter → E) :
    Scans W E contents (bootDataPageInfoSelect page found i (entryAt page i.toNat)
      pageInfo bootData)
      fun r => r.1 = kErrorOk ∧ FindsActive entryAt summary (pages ++ [page]) bootData₀ r.2 := by
  have hinfo : (⟨some page, found.hasEmptyEntry, found.index, kHardenedBoolTrue, i.toNat⟩ :
      ActivePageInfo) = .ofPage page (summary page).firstEmpty i.toNat := by
    rw [hempty, hfirst, ActivePageInfo.ofPage]
  have hmem : page ∈ pages ++ [page] := List.mem_append_right _ (List.mem_singleton_self _)
  rw [bootDataPageInfoSelect]
  simp only [hinfo]
  rcases hbefore with ⟨hall, hinit⟩ | ⟨active, hactive, k, hk, hr, hnewest⟩
  · obtain ⟨rfl, rfl⟩ := Prod.mk.inj hinit
    refine .ite _ (fun _ => .pure ⟨rfl, .inr ⟨page, hmem, _, hlast, rfl, ?_⟩⟩)
      fun hbad => absurd rfl hbad
    intro other hother hne j hj
    rcases List.mem_append.1 hother with hother | hother
    · rw [hall other hother] at hj
      exact absurd hj (by simp)
    · exact absurd (List.mem_singleton.1 hother) hne
  · obtain ⟨rfl, rfl⟩ := Prod.mk.inj hr
    have hvalid : (ActivePageInfo.ofPage active (summary active).firstEmpty k).hasValidEntry =
      kHardenedBoolTrue := rfl
    have hne : kHardenedBoolTrue ≠ kHardenedBoolFalse := by decide
    rw [hvalid, if_neg hne]
    refine .ite _ (fun hnew => ?_) fun hold => ?_
    · refine .pure ⟨rfl, .inr ⟨page, hmem, _, hlast, rfl, fun other hother hne j hj => ?_⟩⟩
      rcases List.mem_append.1 hother with hother | hother
      · by_cases heq : other = active
        · subst heq
          rw [hk] at hj
          exact Option.some.inj hj ▸ hnew.2
        · exact BitVec.lt_trans (hnewest other hother heq j hj) hnew.2
      · exact absurd (List.mem_singleton.1 hother) hne
    · have htie : ¬(entryAt page i.toNat).counter <
          (entryAt active k).counter → E := fun hge =>
        hties active hactive k hk
          (BitVec.le_antisymm (BitVec.not_lt.1 hge) (BitVec.not_lt.1 fun h => hold ⟨rfl, h⟩))
      refine (Scans.check fun hbad => absurd rfl hbad).bind fun _ _ => (Scans.check htie).bind
        fun _ hlt => .pure ⟨rfl, .inr ⟨active, List.mem_append_left _ hactive, k, hk, rfl, ?_⟩⟩
      intro other hother hne j hj
      rcases List.mem_append.1 hother with hother | hother
      · exact hnewest other hother hne j hj
      · rw [List.mem_singleton.1 hother, hlast] at hj
        rw [List.mem_singleton.1 hother]
        exact Option.some.inj hj ▸ hlt

/-! ### A page, and the pages -/

/-- The entries of the pages. -/
def entryOf (contents : ℕ → Word) (page : FlashCtrlInfoPage) (index : ℕ) : BootData :=
  (pageEntry contents page index).entry

/-- What is in the pages. -/
def PagesHold (sha256 : List Byte → HmacDigest) (contents : ℕ → Word)
    (summary : FlashCtrlInfoPage → PageSummary) : Prop :=
  ∀ page ∈ kPages, PageHolds sha256 (pageEntry contents page) (summary page).firstEmpty
    (summary page).last

/-- The outcome of a search that may end with the error of a read. -/
def FindsOrFails (W : Prop) (entryAt : FlashCtrlInfoPage → ℕ → BootData)
    (summary : FlashCtrlInfoPage → PageSummary) (pages : List FlashCtrlInfoPage)
    (bootData : BootData) (r : RomError × ActivePageInfo × BootData) : Prop :=
  (r.1 = kErrorOk ∧ FindsActive entryAt summary pages bootData r.2) ∨
    (¬W ∧ r.1 = kErrorFlashCtrlInfoRead)

theorem scans_secMmioRead32 {addr : Word} (haddr : addr ∈ kBootDataCfgs) :
    Scans W E contents (secMmioRead32 hw addr) fun _ => True := by
  intro io h
  by_cases hw' : W
  · obtain ⟨ctx, hctx, hrun⟩ := run_secMmioRead32_of_room hw haddr (h.2 hw')
    rw [hrun]
    exact ⟨trivial, h.1, fun _ => hctx⟩
  · rw [run_secMmioRead32]
    simp only
    split_ifs
    · exact ⟨trivial, h.1, fun hw'' => absurd hw'' hw'⟩
    · exact hw'

theorem scans_secMmioWrite32 {addr : Word} (hholds : W → hw.Holds addr)
    (haddr : addr ∈ kBootDataCfgs) (value : Word) :
    Scans W E contents (secMmioWrite32 hw addr value) fun _ => True := by
  intro io h
  by_cases hw' : W
  · obtain ⟨ctx, hctx, hrun⟩ := run_secMmioWrite32_of_room (hholds hw') haddr (h.2 hw') value
    rw [hrun]
    exact ⟨trivial, h.1, fun _ => hctx⟩
  · have hrun : (secMmioWrite32 hw addr value).run io =
        (secMmioRecordWrite hw addr value).run (io.write hw addr value) := rfl
    rw [hrun, run_secMmioRecordWrite]
    simp only
    split_ifs
    · exact ⟨trivial, h.1, fun hw'' => absurd hw'' hw'⟩
    · exact hw'
    · exact hw'

variable (hW : W → hw.BootDataWorks)

include hW

theorem scans_flashCtrlInfoPermsSet {page : FlashCtrlInfoPage} (hpage : page ∈ kPages)
    (perms : FlashCtrlPerms) :
    Scans W E contents (flashCtrlInfoPermsSet hw page perms) fun _ => True := by
  have hcfg : infoCfgAddr page ∈ kBootDataCfgs := by
    rcases List.mem_pair.1 hpage with rfl | rfl <;> decide
  exact (scans_secMmioRead32 hcfg).bind fun _ _ =>
    scans_secMmioWrite32 (fun hw' => (hW hw').cfg page hpage) hcfg _

theorem scans_bootDataPageInfoUpdateImpl (hholds : PagesHold hw.sha256 contents summary)
    {pages : List FlashCtrlInfoPage} {page : FlashCtrlInfoPage} (hpage : page ∈ kPages) (buf : Word)
    (sniffResults : Vector Word kBootDataEntriesPerPage) {bootData₀ bootData : BootData}
    {pageInfo : ActivePageInfo}
    (hbefore : FindsActive (entryOf contents) summary pages bootData₀ (pageInfo, bootData))
    (hties : ∀ other ∈ pages, ∀ i j, (summary page).last = some i → (summary other).last = some j →
      (entryOf contents other j).counter = (entryOf contents page i).counter → E) :
    Scans W E contents (bootDataPageInfoUpdateImpl hw page buf sniffResults pageInfo bootData)
      (FindsOrFails W (entryOf contents) summary (pages ++ [page]) bootData₀) := by
  refine (scans_bootDataFirstEmptyFrom hW page _ 0 rfl sniffResults
    (fun k hk => absurd hk k.not_lt_zero) fun k hk => absurd hk k.val.not_lt_zero).bind ?_
  rintro (error | found) hfound
  · exact .pure (.inr hfound)
  refine (scans_bootDataLastValidFrom hW page hfound buf _ le_rfl
    fun k hk hge => absurd hk (Nat.not_lt.2 hge)).bind ?_
  have hfirst := (hholds page hpage).firstEmpty_eq hfound
  rintro (error | _ | ⟨i, entry⟩) hlast
  · exact .pure (.inr hlast)
  · refine .pure (.inl ⟨rfl, hbefore.snoc_none ((hholds page hpage).last_eq_none ?_)⟩)
    exact hfirst ▸ hlast
  · obtain ⟨-, -, rfl, -⟩ := id hlast
    have hsome := (hholds page hpage).last_eq_some (hfirst ▸ hlast)
    exact (scans_bootDataPageInfoSelect hbefore hsome hfirst hfound.hasEmptyEntry
      fun other hother j hj heq => hties other hother _ j hsome hj heq).mono fun _ h => .inl h

theorem scans_bootDataPageInfoUpdate (hholds : PagesHold hw.sha256 contents summary)
    {pages : List FlashCtrlInfoPage} {page : FlashCtrlInfoPage} (hpage : page ∈ kPages) (buf : Word)
    (sniffResults : Vector Word kBootDataEntriesPerPage) {bootData₀ bootData : BootData}
    {pageInfo : ActivePageInfo}
    (hbefore : FindsActive (entryOf contents) summary pages bootData₀ (pageInfo, bootData))
    (hties : ∀ other ∈ pages, ∀ i j, (summary page).last = some i → (summary other).last = some j →
      (entryOf contents other j).counter = (entryOf contents page i).counter → E) :
    Scans W E contents (bootDataPageInfoUpdate hw page buf sniffResults pageInfo bootData)
      (FindsOrFails W (entryOf contents) summary (pages ++ [page]) bootData₀) := by
  refine (scans_flashCtrlInfoPermsSet hW hpage _).bind fun _ _ =>
    (scans_bootDataPageInfoUpdateImpl hW hholds hpage buf sniffResults hbefore hties).bind
      fun r hr => (scans_flashCtrlInfoPermsSet hW hpage _).bind fun _ _ => ?_
  refine Scans.bind (Q := fun _ => True) (Hoare.Triple.modify _ fun io h => ⟨trivial, h.1, ?_⟩)
    fun _ _ => .pure hr
  intro hw'
  obtain ⟨touched, hist, hsub, hcard, hstep⟩ := h.2 hw'
  exact ⟨touched, hist, hsub, hcard, ⟨⟨hstep.records.inj, hstep.records.entry,
    hstep.records.covers⟩, hstep.within, hstep.writes⟩⟩

theorem scans_bootDataActivePageFindFrom (hholds : PagesHold hw.sha256 contents summary)
    (buf : Word) (sniffResults : Vector Word kBootDataEntriesPerPage) {bootData₀ : BootData}
    {pages rest : List FlashCtrlInfoPage} (hpages : pages ++ rest = kPages)
    {pageInfo : ActivePageInfo} {bootData : BootData}
    (hbefore : FindsActive (entryOf contents) summary pages bootData₀ (pageInfo, bootData)) :
    Scans W (Ties (entryOf contents) summary) contents
      (bootDataActivePageFindFrom hw buf sniffResults rest pageInfo bootData)
      (FindsOrFails W (entryOf contents) summary kPages bootData₀) := by
  induction rest generalizing pages pageInfo bootData with
  | nil =>
    rw [List.append_nil] at hpages
    exact .pure (.inl ⟨rfl, hpages ▸ hbefore⟩)
  | cons page rest ih =>
    have hmem : ∀ other ∈ pages, other ∈ kPages := fun other h =>
      hpages ▸ List.mem_append_left _ h
    have hpage : page ∈ kPages := hpages ▸ List.mem_append_right _ List.mem_cons_self
    have hnodup : kPages.Nodup := by decide
    have hne : ∀ other ∈ pages, page ≠ other := by
      rintro other hother rfl
      rw [← hpages] at hnodup
      exact (List.nodup_append.1 hnodup).2.2 page hother page List.mem_cons_self rfl
    refine (scans_bootDataPageInfoUpdate hW hholds hpage buf sniffResults hbefore
      fun other hother i j hi hj heq => ?_).bind ?_
    · exact ⟨page, hpage, other, hmem other hother, hne other hother, i, j, hi, hj, heq.symm⟩
    · rintro ⟨error, info, data⟩ (⟨rfl, hfinds⟩ | ⟨hfail, rfl⟩)
      · refine .ite _ (fun _ => ih ?_ hfinds) fun hbad => absurd rfl hbad
        rw [List.append_assoc]
        exact hpages
      · exact .ite _ (fun hbad => absurd hbad (by decide)) fun _ => .pure (.inr ⟨hfail, rfl⟩)

end SecureBoot
