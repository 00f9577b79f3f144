import SecureBoot.Drivers.FlashCtrl
import SecureBoot.Drivers.Hmac

/-! Boot data entries and `boot_data_check`, with SHA-256 as a parameter. The check folds the
differences of the digest words and of the identifier with its shares into one word. -/

namespace SecureBoot

/-- `boot_data_t`, with `is_valid` and `padding` as words. -/
structure BootData where
  digest : HmacDigest
  is_valid : Vector Word 2
  identifier : Word
  counter : Word
  min_security_version_rom_ext : Word
  min_security_version_bl0 : Word
  padding : Vector Word 2
  deriving DecidableEq

abbrev kBootDataIdentifier : Word := 0x41444f42

def kCheckShares : Vector Word (kHmacDigestNumWords + 1) :=
  #v[0xe021e1a9, 0xf81e8365, 0xbf8322db, 0xc7a37080, 0x271a933f, 0xdd8ce33f, 0x7585d574,
    0x951777af, 0x381dee3a]

/-- The bytes after the digest. -/
def BootData.digestRegion (bootData : BootData) : List Byte :=
  wordsToBytes (bootData.is_valid.toList ++ [bootData.identifier, bootData.counter,
    bootData.min_security_version_rom_ext, bootData.min_security_version_bl0] ++
    bootData.padding.toList)

variable (sha256 : List Byte → HmacDigest) (bootData : BootData)

/-- `boot_data_digest_compute`. -/
def bootDataDigestCompute : HmacDigest := sha256 bootData.digestRegion

/-- `boot_data_check`. -/
def bootDataCheck : RomError :=
  let actDigest := bootDataDigestCompute sha256 bootData
  let error := (List.finRange kHmacDigestNumWords).foldl
    (fun error i =>
      error ^^^ (bootData.digest.get i ^^^ actDigest.get i ^^^ kCheckShares.get i.castSucc))
    kErrorBootDataInvalid
  let error := error ^^^ (bootData.identifier ^^^ kCheckShares.get (Fin.last kHmacDigestNumWords))
  if error = kErrorOk then error else kErrorBootDataInvalid

/-! ### The differences -/

/-- The exclusive or of words. -/
def xorAll {width : ℕ} (words : List (BitVec width)) : BitVec width := words.foldr (· ^^^ ·) 0

/-- What the entry differs by from a valid one. -/
def BootData.differences : List Word :=
  (bootData.identifier ^^^ kBootDataIdentifier) ::
    (List.finRange kHmacDigestNumWords).map fun i =>
      bootData.digest.get i ^^^ (bootDataDigestCompute sha256 bootData).get i

/-- The differences cancel without all being zero. -/
def BootData.Cancels : Prop :=
  xorAll (bootData.differences sha256) = 0 ∧ ∃ d ∈ bootData.differences sha256, d ≠ 0

/-- The identifier and every word of the digest are right. -/
def BootData.Valid : Prop :=
  bootData.identifier = kBootDataIdentifier ∧
    ∀ i, bootData.digest.get i = (bootDataDigestCompute sha256 bootData).get i

section

variable {width : ℕ}

@[simp] theorem xorAll_nil : xorAll ([] : List (BitVec width)) = 0 := rfl

@[simp] theorem xorAll_cons (w : BitVec width) (words : List (BitVec width)) :
    xorAll (w :: words) = w ^^^ xorAll words :=
  rfl

/-- A fold over shares that mask the terms. -/
theorem foldl_xor_xor {ι : Type*} (f g : ι → BitVec width) (is : List ι) (init : BitVec width) :
    is.foldl (fun acc i => acc ^^^ (f i ^^^ g i)) init =
      init ^^^ xorAll (is.map f) ^^^ xorAll (is.map g) := by
  induction is generalizing init with
  | nil => simp
  | cons i is ih =>
    rw [List.foldl_cons, ih, List.map_cons, List.map_cons, xorAll_cons, xorAll_cons]
    ac_rfl

theorem xorAll_eq_zero_of_forall {words : List (BitVec width)} (h : ∀ w ∈ words, w = 0) :
    xorAll words = 0 := by
  induction words with
  | nil => rfl
  | cons w words ih =>
    rw [xorAll_cons, h w List.mem_cons_self, ih fun v hv => h v (List.mem_cons_of_mem w hv),
      BitVec.xor_self]
    rfl

end

/-! ### The check -/

/-- The shares turn the error into success. -/
theorem xorAll_kCheckShares :
    kErrorBootDataInvalid ^^^
      xorAll ((List.finRange kHmacDigestNumWords).map fun i => kCheckShares.get i.castSucc) ^^^
      kCheckShares.get (Fin.last kHmacDigestNumWords) ^^^ kBootDataIdentifier = kErrorOk := by
  decide

/-- The check accepts the entries whose differences cancel or are zero. -/
theorem bootDataCheck_eq_kErrorOk :
    bootDataCheck sha256 bootData = kErrorOk ↔ xorAll (bootData.differences sha256) = 0 := by
  have herror : ∀ d shares ident last : Word,
      kErrorBootDataInvalid ^^^ d ^^^ shares ^^^ (ident ^^^ last) =
        (kErrorBootDataInvalid ^^^ shares ^^^ last ^^^ kBootDataIdentifier) ^^^
          (ident ^^^ kBootDataIdentifier ^^^ d) := by
    intro d shares ident last
    have hcancel : ident = ident ^^^ kBootDataIdentifier ^^^ kBootDataIdentifier := by
      rw [BitVec.xor_assoc, BitVec.xor_self, BitVec.xor_zero]
    conv_lhs => rw [hcancel]
    ac_rfl
  have hinvalid : kErrorBootDataInvalid ≠ kErrorOk := by decide
  have hok : ∀ x : Word, kErrorOk ^^^ x = kErrorOk ↔ x = 0 := by
    intro x
    refine ⟨fun h => (BitVec.xor_right_inj kErrorOk).mp (h.trans BitVec.xor_zero.symm), ?_⟩
    rintro rfl
    exact BitVec.xor_zero
  rw [bootDataCheck, BootData.differences, xorAll_cons, foldl_xor_xor, herror,
    xorAll_kCheckShares, ← hok]
  split_ifs with h
  · rfl
  · exact ⟨fun h => absurd h hinvalid, fun hx => absurd hx h⟩

theorem valid_iff_differences :
    bootData.Valid sha256 ↔ ∀ d ∈ bootData.differences sha256, d = 0 := by
  simp [BootData.Valid, BootData.differences]

/-- The check accepts exactly the valid entries, except for differences that cancel. -/
theorem boot_data_check_accepts_valid :
    (bootDataCheck sha256 bootData = kErrorOk ↔ bootData.Valid sha256) ↔
      ¬ bootData.Cancels sha256 := by
  rw [bootDataCheck_eq_kErrorOk, valid_iff_differences, BootData.Cancels]
  constructor
  · rintro h ⟨hxor, d, hd, hne⟩
    exact hne (h.mp hxor d hd)
  · intro h
    refine ⟨fun hxor d hd => ?_, xorAll_eq_zero_of_forall⟩
    by_contra hne
    exact h ⟨hxor, d, hd, hne⟩

/-- An entry with two digest words that are wrong by the same bits. -/
def cancellingEntry : BootData where
  digest := #v[1, 1, 0, 0, 0, 0, 0, 0]
  is_valid := #v[wordMax, wordMax]
  identifier := kBootDataIdentifier
  counter := 5
  min_security_version_rom_ext := 0
  min_security_version_bl0 := 0
  padding := #v[0, 0]

theorem boot_data_check_accepts_invalid :
    ¬ ∀ (sha256 : List Byte → HmacDigest) (bootData : BootData),
      bootDataCheck sha256 bootData = kErrorOk ↔ bootData.Valid sha256 := by
  intro h
  have hentry := (h (fun _ => .replicate _ 0) cancellingEntry).mp (by decide)
  exact absurd (hentry.2 0) (by decide)

end SecureBoot

/-! The search of the boot data pages for the newest entry: in each page forward for the first empty
entry, then backward for the last valid one. -/

namespace SecureBoot

/-- `sizeof(boot_data_t)`. -/
abbrev kBootDataSize : ℕ := 64

abbrev kBootDataNumWords : ℕ := 16

abbrev kBootDataEntriesPerPage : ℕ := 32

/-- `offsetof(boot_data_t, is_valid)`. -/
abbrev kIsValidOffset : ℕ := 32

def kPages : List FlashCtrlInfoPage := [.bootData0, .bootData1]

/-- The words of an entry. -/
abbrev BootDataWords := Vector Word kBootDataNumWords

theorem neZero_kBootDataNumWords : NeZero kBootDataNumWords := ⟨by decide⟩

attribute [local instance] neZero_kBootDataNumWords

/-- A `boot_data_t` in the words that are read from flash. -/
def BootDataWords.entry (words : BootDataWords) : BootData where
  digest := .ofFn fun i => words.get (i.castLE (by decide))
  is_valid := #v[words.get 8, words.get 9]
  identifier := words.get 10
  counter := words.get 11
  min_security_version_rom_ext := words.get 12
  min_security_version_bl0 := words.get 13
  padding := #v[words.get 14, words.get 15]

/-- The identifier where the words of `is_valid` have ones. -/
def BootDataWords.maskedIdentifier (words : BootDataWords) : Word :=
  words.get 8 &&& words.get 9 &&& words.get 10

/-- `boot_data_is_empty`. -/
def bootDataIsEmpty (bootData : BootDataWords) : Word :=
  let (res, isEmpty) := bootData.toList.foldl
    (fun acc word => (acc.1 &&& word, acc.2 &&& word)) (kFlashCtrlErasedWord, kHardenedBoolTrue)
  if res = kFlashCtrlErasedWord then isEmpty else kHardenedBoolFalse

/-- `active_page_info_t`; no page stands for the page code 0. -/
structure ActivePageInfo where
  page : Option FlashCtrlInfoPage
  hasEmptyEntry : Word
  firstEmptyIndex : ℕ
  hasValidEntry : Word
  lastValidIndex : ℕ

/-- What the forward search has found: the index of the first empty entry, or the end, and the
masked identifiers that it has read. -/
structure FirstEmpty where
  hasEmptyEntry : Word
  index : Fin (kBootDataEntriesPerPage + 1)
  sniffResults : Vector Word kBootDataEntriesPerPage

theorem FirstEmpty.lt_of_lt_index (found : FirstEmpty) {i : ℕ} (h : i < found.index) :
    i < kBootDataEntriesPerPage :=
  h.trans_le (Nat.le_of_lt_succ found.index.isLt)

variable (hw : Hw)

/-- `boot_data_sniff`. -/
def bootDataSniff (page : FlashCtrlInfoPage) (index : ℕ) : Drv (RomError × Word) := do
  let (error, buf) ←
    flashCtrlInfoRead hw page (.ofNat 32 (index * kBootDataSize + kIsValidOffset)) 3
  pure (error, if error = kErrorOk then buf.get 0 &&& buf.get 1 &&& buf.get 2 else 0)

/-- `boot_data_entry_read`. -/
def bootDataEntryRead (page : FlashCtrlInfoPage) (index : ℕ) : Drv (RomError × BootDataWords) :=
  flashCtrlInfoRead hw page (.ofNat 32 (index * kBootDataSize)) kBootDataNumWords

/-- `boot_data_check` of the entry at an address in RAM, with the digest from the HMAC block. -/
def bootDataCheckAt (addr : Word) (bootData : BootData) : Drv RomError := do
  hmacSha256Init hw
  hmacSha256Update hw (addr + .ofNat 32 kIsValidOffset) bootData.digestRegion
  let actDigest ← hmacSha256Final hw
  pure (bootDataCheck (fun _ => actDigest) bootData)

/-- The forward search of `boot_data_page_info_update_impl` with `n` entries left from `i` on. -/
def bootDataFirstEmptyFrom (page : FlashCtrlInfoPage) :
    (n i : ℕ) → n + i = kBootDataEntriesPerPage → Vector Word kBootDataEntriesPerPage →
      Drv (Except RomError FirstEmpty)
  | 0, i, h, sniffResults => pure (.ok ⟨kHardenedBoolFalse, ⟨i, by omega⟩, sniffResults⟩)
  | n + 1, i, h, sniffResults => do
    let (error, maskedIdentifier) ← bootDataSniff hw page i
    if error ≠ kErrorOk then pure (.error error)
    else
      let sniffResults := sniffResults.set i maskedIdentifier (by omega)
      if maskedIdentifier = kFlashCtrlErasedWord then
        let (error, buf) ← bootDataEntryRead hw page i
        if error ≠ kErrorOk then pure (.error error)
        else
          let hasEmptyEntry := bootDataIsEmpty buf
          if hasEmptyEntry = kHardenedBoolTrue then
            pure (.ok ⟨hasEmptyEntry, ⟨i, by omega⟩, sniffResults⟩)
          else
            hardenedCheck (hasEmptyEntry = kHardenedBoolFalse) .hardened
            bootDataFirstEmptyFrom page n (i + 1) (by omega) sniffResults
      else bootDataFirstEmptyFrom page n (i + 1) (by omega) sniffResults

/-- The backward search with `rounds` entries left, `first_empty_index - j` of the source, from `i`
down. It ends with the index of the last valid entry and the entry, which is at `buf`. -/
def bootDataLastValidFrom (page : FlashCtrlInfoPage) (found : FirstEmpty) (buf : Word) :
    (rounds : ℕ) → (i : Word) → Drv (Except RomError (Option (Word × BootData)))
  | 0, _ => pure (.ok none)
  | rounds + 1, i =>
    if h : i.toNat < found.index then
      if found.sniffResults.get ⟨i.toNat, found.lt_of_lt_index h⟩ = kBootDataIdentifier then do
        let (error, words) ← bootDataEntryRead hw page i.toNat
        if error ≠ kErrorOk then pure (.error error)
        else
          let isValid ← bootDataCheckAt hw buf words.entry
          if isValid = kErrorOk then pure (.ok (some (i, words.entry)))
          else
            hardenedCheck (isValid = kErrorBootDataInvalid) .hardened
            bootDataLastValidFrom page found buf rounds (i - 1)
      else bootDataLastValidFrom page found buf rounds (i - 1)
    else pure (.ok none)

/-- The update of the page info and of the boot data with the last valid entry of a page. -/
def bootDataPageInfoSelect (page : FlashCtrlInfoPage) (found : FirstEmpty) (i : Word)
    (entry : BootData) (pageInfo : ActivePageInfo) (bootData : BootData) :
    Drv (RomError × ActivePageInfo × BootData) :=
  let newest : ActivePageInfo :=
    { page := some page
      hasEmptyEntry := found.hasEmptyEntry
      firstEmptyIndex := found.index
      hasValidEntry := kHardenedBoolTrue
      lastValidIndex := i.toNat }
  if pageInfo.hasValidEntry = kHardenedBoolFalse then pure (kErrorOk, newest, entry)
  else if pageInfo.hasValidEntry = kHardenedBoolTrue ∧ entry.counter > bootData.counter then
    pure (kErrorOk, newest, entry)
  else do
    hardenedCheck (pageInfo.hasValidEntry = kHardenedBoolTrue) .hardened
    hardenedCheck (entry.counter < bootData.counter) .hardened
    pure (kErrorOk, pageInfo, bootData)

/-- `boot_data_page_info_update_impl`; the array of the masked identifiers starts with any
values. -/
def bootDataPageInfoUpdateImpl (page : FlashCtrlInfoPage) (buf : Word)
    (sniffResults : Vector Word kBootDataEntriesPerPage) (pageInfo : ActivePageInfo)
    (bootData : BootData) : Drv (RomError × ActivePageInfo × BootData) := do
  match ← bootDataFirstEmptyFrom hw page kBootDataEntriesPerPage 0 rfl sniffResults with
  | .error error => pure (error, pageInfo, bootData)
  | .ok found =>
    match ← bootDataLastValidFrom hw page found buf found.index (.ofNat 32 found.index - 1) with
    | .error error => pure (error, pageInfo, bootData)
    | .ok none => pure (kErrorOk, pageInfo, bootData)
    | .ok (some (i, entry)) => bootDataPageInfoSelect page found i entry pageInfo bootData

/-- `boot_data_page_info_update`. -/
def bootDataPageInfoUpdate (page : FlashCtrlInfoPage) (buf : Word)
    (sniffResults : Vector Word kBootDataEntriesPerPage) (pageInfo : ActivePageInfo)
    (bootData : BootData) : Drv (RomError × ActivePageInfo × BootData) := do
  flashCtrlInfoPermsSet hw page ⟨kMultiBitBool4True, kMultiBitBool4False, kMultiBitBool4False⟩
  let result ← bootDataPageInfoUpdateImpl hw page buf sniffResults pageInfo bootData
  flashCtrlInfoPermsSet hw page ⟨kMultiBitBool4False, kMultiBitBool4False, kMultiBitBool4False⟩
  secMmioWriteIncrement 2
  pure result

/-- The loop of `boot_data_active_page_find` over the pages that are left. -/
def bootDataActivePageFindFrom (buf : Word) (sniffResults : Vector Word kBootDataEntriesPerPage) :
    List FlashCtrlInfoPage → ActivePageInfo → BootData → Drv (RomError × ActivePageInfo × BootData)
  | [], pageInfo, bootData => pure (kErrorOk, pageInfo, bootData)
  | page :: pages, pageInfo, bootData => do
    let (error, pageInfo, bootData) ←
      bootDataPageInfoUpdate hw page buf sniffResults pageInfo bootData
    if error = kErrorOk then bootDataActivePageFindFrom buf sniffResults pages pageInfo bootData
    else pure (error, pageInfo, bootData)

def ActivePageInfo.initial : ActivePageInfo where
  page := none
  hasEmptyEntry := kHardenedBoolFalse
  firstEmptyIndex := kBootDataEntriesPerPage
  hasValidEntry := kHardenedBoolFalse
  lastValidIndex := kBootDataEntriesPerPage

/-- `boot_data_active_page_find`: `buf` is the address of the buffer for entries, and `bootData` is
what the output holds before. -/
def bootDataActivePageFind (buf : Word) (sniffResults : Vector Word kBootDataEntriesPerPage)
    (bootData : BootData) : Drv (RomError × ActivePageInfo × BootData) :=
  bootDataActivePageFindFrom hw buf sniffResults kPages .initial bootData

end SecureBoot
