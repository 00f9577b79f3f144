import SecureBoot.Drivers.FlashProgram
import SecureBoot.Rom.Bootstrap

/-! `bootstrap_page_program` is the page program command of an SPI flash: the payload, filled up to
a flash word, goes to the page of its address and wraps at the end of the page. -/

namespace SecureBoot

open Trace

/-- An aligned address in the flash. -/
def ProgramAddress (addr : Word) : Prop := addr.toNat % 8 = 0 ∧ addr.toNat < 0x100000

/-- The payload filled up with `0xff` to a multiple of the flash word. -/
def paddedPayload (data : List Byte) : List Byte :=
  data ++ .replicate ((8 - data.length % 8) % 8) 0xff

/-- The start of the page of an address. -/
def pageBase (addr : Word) : Word := addr - .ofNat 32 (addr.toNat % 256)

/-- The page program command: the address of each byte, and the byte. -/
def pageProgram (addr : Word) (data : List Byte) : List (Word × Byte) :=
  data.mapIdx fun k b => (pageBase addr + .ofNat 32 ((addr.toNat % 256 + k) % 256), b)

/-! ### The bytes -/

theorem pageProgram_eq (addr : Word) {data : List Byte} (hlen : data.length ≤ 256) :
    pageProgram addr data = placed addr (data.take (256 - addr.toNat % 256)) ++
      placed (pageBase addr) (data.drop (256 - addr.toNat % 256)) := by
  obtain ⟨off, hoff⟩ : ∃ off, addr.toNat % 256 = off := ⟨_, rfl⟩
  have hlt : off < 256 := hoff ▸ Nat.mod_lt _ (by decide)
  rw [pageProgram, pageBase, hoff]
  nth_rewrite 1 [← List.take_append_drop (256 - off) data]
  rw [List.mapIdx_append]
  refine congrArg₂ (· ++ ·) (List.mapIdx_eq_mapIdx_iff.2 fun k hk => ?_)
    (List.mapIdx_eq_mapIdx_iff.2 fun k hk => ?_)
  · rw [List.length_take] at hk
    rw [Nat.mod_eq_of_lt (by omega), BitVec.ofNat_add, ← BitVec.add_assoc, BitVec.sub_add_cancel]
  · rw [List.length_drop] at hk
    rw [List.length_take_of_le (by omega),
      show off + (k + (256 - off)) = k + 256 by omega, Nat.add_mod_right,
      Nat.mod_eq_of_lt (by omega)]

theorem wordsToBytes_bytesToWords (bytes : List Byte) (h : bytes.length % 4 = 0) :
    wordsToBytes (bytesToWords bytes) = bytes := by
  induction bytes using bytesToWords.induct with
  | case1 b₀ b₁ b₂ b₃ rest ih =>
    have hrest : rest.length % 4 = 0 := by
      simp only [List.length_cons] at h
      omega
    rw [bytesToWords, wordsToBytes, List.flatMap_cons, Word.toBytes_ofBytes]
    exact congrArg ([b₀, b₁, b₂, b₃] ++ ·) (ih hrest)
  | case2 bytes hshort =>
    rcases bytes with _ | ⟨b₀, _ | ⟨b₁, _ | ⟨b₂, _ | ⟨b₃, rest⟩⟩⟩⟩
    · rfl
    · exact absurd h (by simp)
    · exact absurd h (by simp)
    · exact absurd h (by simp)
    · exact (hshort b₀ b₁ b₂ b₃ rest rfl).elim

theorem bootstrapPadding_eq (data : List Byte) : bootstrapPadding data = paddedPayload data := by
  rw [bootstrapPadding, paddedPayload]
  split_ifs with h
  · have hpos : 0 < data.length % 8 := h
    rw [Nat.mod_eq_of_lt (show 8 - data.length % 8 < 8 by omega)]
  · have hzero : data.length % 8 = 0 := Nat.eq_zero_of_not_pos h
    rw [hzero]
    exact (List.append_nil data).symm

theorem pageBase_eq (addr : Word) :
    addr &&& ~~~(.ofNat 32 (kFlashProgPageSize - 1)) = pageBase addr := by
  have hclear : addr &&& ~~~(.ofNat 32 (kFlashProgPageSize - 1)) = (addr >>> 8) <<< 8 := by
    refine BitVec.eq_of_getLsbD_eq fun i hi => ?_
    rw [BitVec.getLsbD_and, BitVec.getLsbD_not, BitVec.getLsbD_ofNat, BitVec.getLsbD_shiftLeft,
      BitVec.getLsbD_ushiftRight, show kFlashProgPageSize - 1 = 2 ^ 8 - 1 from rfl,
      Nat.testBit_two_pow_sub_one]
    by_cases h8 : i < 8
    · simp [h8]
    · simp [h8, hi, Nat.add_sub_cancel' (Nat.le_of_not_lt h8)]
  have hlt := addr.isLt
  have hmod : (BitVec.ofNat 32 (addr.toNat % 256)).toNat = addr.toNat % 256 :=
    Nat.mod_eq_of_lt (by omega)
  apply BitVec.eq_of_toNat_eq
  rw [hclear, pageBase, BitVec.toNat_shiftLeft, BitVec.toNat_ushiftRight, Nat.shiftLeft_eq,
    Nat.shiftRight_eq_div_pow, BitVec.toNat_sub_of_le (by rw [BitVec.le_def, hmod]; omega), hmod]
  omega

/-- The words of a payload in the order of the two writes. -/
theorem placed_words (addr : Word) (haligned : addr.toNat % 8 = 0) {data : List Byte}
    (hlen : data.length ≤ 256) (hwords : data.length % 4 = 0) {n : ℕ}
    (hn : n = if addr.toNat % 256 > 0 then
      min ((256 - addr.toNat % 256) / 4) (bytesToWords data).length else 0) :
    placed addr (wordsToBytes ((bytesToWords data).take n)) ++
      placed (pageBase addr) (wordsToBytes ((bytesToWords data).drop n)) =
      pageProgram addr data := by
  have hbytes := wordsToBytes_bytesToWords data hwords
  have hlength : 4 * (bytesToWords data).length = data.length := by
    rw [← length_wordsToBytes, hbytes]
  have hsplit : wordsToBytes ((bytesToWords data).take n) ++
      wordsToBytes ((bytesToWords data).drop n) = data := by
    rw [← wordsToBytes_append, List.take_append_drop, hbytes]
  have htake : (wordsToBytes ((bytesToWords data).take n)).length =
      4 * min n (bytesToWords data).length := by
    rw [length_wordsToBytes, List.length_take]
  rw [pageProgram_eq addr hlen]
  by_cases hoff : addr.toNat % 256 > 0
  · rw [if_pos hoff] at hn
    have hmin : (wordsToBytes ((bytesToWords data).take n)).length =
        min (256 - addr.toNat % 256) data.length := by omega
    have hfront : data.take (256 - addr.toNat % 256) =
        data.take (wordsToBytes ((bytesToWords data).take n)).length := by
      rw [hmin, ← List.take_eq_take_min]
    have hback : data.drop (256 - addr.toNat % 256) =
        data.drop (wordsToBytes ((bytesToWords data).take n)).length := by
      rw [hmin, ← List.drop_eq_drop_min]
    rw [hfront, hback]
    generalize wordsToBytes ((bytesToWords data).take n) = front at hsplit
    generalize wordsToBytes ((bytesToWords data).drop n) = back at hsplit
    rw [← hsplit, List.take_left, List.drop_left]
  · rw [if_neg hoff] at hn
    have hzero : addr.toNat % 256 = 0 := Nat.eq_zero_of_not_pos hoff
    have hbase : pageBase addr = addr := by
      rw [pageBase, hzero]
      exact BitVec.sub_zero addr
    rw [hn, hbase, hzero, List.take_of_length_le hlen, List.drop_eq_nil_of_le hlen, List.take_zero,
      List.drop_zero, hbytes]
    exact (List.append_nil _).symm

/-! ### The address -/

theorem not_refused_iff {addr : Word} :
    ¬(addr &&& .ofNat 32 (kFlashBytesPerWord - 1) ≠ 0 ∨ addr ≥ kMaxAddress) ↔
      ProgramAddress addr := by
  have hmask : (addr &&& .ofNat 32 (kFlashBytesPerWord - 1)).toNat = addr.toNat % 8 :=
    (BitVec.toNat_and _ _).trans (Nat.and_two_pow_sub_one_eq_mod _ 3)
  rw [not_or, not_not, BitVec.toNat_eq, hmask, ge_iff_le, BitVec.le_def, not_le]
  rfl

theorem toNat_pageBase (addr : Word) : (pageBase addr).toNat = addr.toNat - addr.toNat % 256 := by
  have hlt := addr.isLt
  have hmod : (BitVec.ofNat 32 (addr.toNat % 256)).toNat = addr.toNat % 256 :=
    Nat.mod_eq_of_lt (by omega)
  rw [pageBase, BitVec.toNat_sub_of_le (by rw [BitVec.le_def, hmod]; omega), hmod]

theorem page_of_mem_pageProgram {addr : Word} {data : List Byte} {w : Word × Byte}
    (hw : w ∈ pageProgram addr data) : w.1.toNat / 256 = addr.toNat / 256 := by
  obtain ⟨k, hk, rfl⟩ := List.mem_mapIdx.1 hw
  have hlt := addr.isLt
  have hoff : (BitVec.ofNat 32 ((addr.toNat % 256 + k) % 256)).toNat =
      (addr.toNat % 256 + k) % 256 := Nat.mod_eq_of_lt (by omega)
  rw [BitVec.toNat_add, toNat_pageBase, hoff]
  omega

section Program

variable (hw : Hw) {addr : Word}

theorem pageBase_aligned (addr : Word) : (pageBase addr).toNat % 4 = 0 := by
  rw [toNat_pageBase]
  omega

theorem traces_bootstrapPageWrites (haligned : addr.toNat % 8 = 0) (words : List Word) {n : ℕ}
    (hn : n = if addr.toNat % kFlashProgPageSize > 0 then
      min ((kFlashProgPageSize - addr.toNat % kFlashProgPageSize) / 4) words.length else 0) :
    Traces Io.bus flashKeep (bootstrapPageWrites hw addr words)
      (fun errs t => ∃ ts us, t = (ts ++ us).flatMap FlashTransaction.accesses ∧
        WritesPrefix addr .data (words.take n) ts ∧
        WritesPrefix (pageBase addr) .data (words.drop n) us ∧
        (errs.1 = kErrorOk → ts.flatMap FlashTransaction.words = words.take n) ∧
        (errs.2 = kErrorOk → us.flatMap FlashTransaction.words = words.drop n))
      fun t => ∃ ts us, t = (ts ++ us).flatMap FlashTransaction.accesses ∧
        WritesPrefix addr .data (words.take n) ts ∧
        WritesPrefix (pageBase addr) .data (words.drop n) us := by
  have hfirst : ∀ {E : List (Word × Word) → Prop},
      (∀ ts, WritesPrefix addr .data (words.take n) ts →
        E (ts.flatMap FlashTransaction.accesses)) →
      Traces Io.bus flashKeep
        (if addr.toNat % kFlashProgPageSize > 0 then flashCtrlDataWrite hw addr (words.take n)
          else pure kErrorOk)
        (fun err t => ∃ ts, t = ts.flatMap FlashTransaction.accesses ∧
          WritesPrefix addr .data (words.take n) ts ∧
          (err = kErrorOk → ts.flatMap FlashTransaction.words = words.take n)) E := by
    intro E hE
    refine .ite _ (fun _ => ?_) fun hoff => .pure ⟨[], rfl, .nil, fun _ => ?_⟩
    · refine (traces_flashCtrlDataWrite hw (by omega) _).mono (fun _ _ h => h) ?_
      rintro t ⟨ts, rfl, hts⟩
      exact hE ts hts
    · rw [hn, if_neg hoff]
      rfl
  have hbase : (if addr.toNat % kFlashProgPageSize > 0 then
      addr &&& ~~~(.ofNat 32 (kFlashProgPageSize - 1)) else addr) = pageBase addr := by
    split_ifs with hoff
    · exact pageBase_eq addr
    · rw [pageBase, Nat.eq_zero_of_not_pos hoff]
      exact (BitVec.sub_zero addr).symm
  rw [bootstrapPageWrites]
  simp only [hbase, ← hn]
  refine (hfirst fun ts hts => ⟨ts, [], by rw [List.append_nil], hts, .nil⟩).bind ?_
  rintro err₀ t ⟨ts, rfl, hts, hall⟩
  refine Traces.bind (Q := fun err t => ∃ us, t = us.flatMap FlashTransaction.accesses ∧
    WritesPrefix (pageBase addr) .data (words.drop n) us ∧
    (err = kErrorOk → us.flatMap FlashTransaction.words = words.drop n)) (.ite _ (fun _ => ?_)
      fun hnil => .pure ⟨[], rfl, .nil, fun _ => (not_not.1 hnil).symm⟩) ?_
  · refine (traces_flashCtrlDataWrite hw (pageBase_aligned addr) _).mono (fun _ _ h => h) ?_
    rintro t ⟨us, rfl, hus⟩
    exact ⟨ts, us, List.flatMap_append.symm, hts, hus⟩
  · rintro err₁ t ⟨us, rfl, hus, hall'⟩
    refine .pure ⟨ts, us, ?_, hts, hus, hall, hall'⟩
    rw [List.append_nil, List.flatMap_append]

theorem traces_flashCtrlDataDefaultPermsSet (perms : FlashCtrlPerms)
    {Q : Unit → List (Word × Word) → Prop} {E : List (Word × Word) → Prop} (hQ : Q () [])
    (hE : E []) : Traces Io.bus flashKeep (flashCtrlDataDefaultPermsSet hw perms) Q E :=
  traces_of_frames hw (T := fun _ => True)
    (frames_flashCtrlDataDefaultPermsSet (A := (· = kFlashCtrlDefaultRegion)) rfl _)
    (fun _ ha => ha ▸ by decide) (fun _ => hQ) hE

theorem prefix_wordsToBytes {us vs : List Word} (h : us <+: vs) :
    wordsToBytes us <+: wordsToBytes vs := by
  obtain ⟨rest, rfl⟩ := h
  exact ⟨_, (wordsToBytes_append us rest).symm⟩

theorem length_paddedPayload_mod (data : List Byte) : (paddedPayload data).length % 8 = 0 := by
  rw [paddedPayload, List.length_append, List.length_replicate]
  omega

theorem length_paddedPayload_le {data : List Byte} (hlen : data.length ≤ 256) :
    (paddedPayload data).length ≤ 256 := by
  rw [paddedPayload, List.length_append, List.length_replicate]
  omega

theorem traces_bootstrapPageProgram (haddr : ProgramAddress addr) {data : List Byte}
    (hlen : data.length ≤ 256) :
    Traces Io.bus flashKeep (bootstrapPageProgram hw addr data)
      (fun err t => ∃ ts, t = ts.flatMap FlashTransaction.accesses ∧
        (∀ x ∈ ts, x.Programs ∧ x.InWindow) ∧
        (programmedBytes ts).Sublist (pageProgram addr (paddedPayload data)) ∧
        (err = kErrorOk → programmedBytes ts = pageProgram addr (paddedPayload data)))
      fun t => ∃ ts, t = ts.flatMap FlashTransaction.accesses ∧
        (∀ x ∈ ts, x.Programs ∧ x.InWindow) ∧
        (programmedBytes ts).Sublist (pageProgram addr (paddedPayload data)) := by
  obtain ⟨n, hn⟩ : ∃ n, n = if addr.toNat % kFlashProgPageSize > 0 then
      min ((kFlashProgPageSize - addr.toNat % kFlashProgPageSize) / 4)
        (bytesToWords (paddedPayload data)).length else 0 := ⟨_, rfl⟩
  have hplaced := placed_words addr haddr.1 (length_paddedPayload_le hlen)
    (by have := length_paddedPayload_mod data; omega) hn
  -- what the writes of a run that ends anywhere have programmed
  have hpart : ∀ {ts us : List FlashTransaction},
      WritesPrefix addr .data ((bytesToWords (paddedPayload data)).take n) ts →
      WritesPrefix (pageBase addr) .data ((bytesToWords (paddedPayload data)).drop n) us →
      (∀ x ∈ ts ++ us, x.Programs ∧ x.InWindow) ∧
        (programmedBytes (ts ++ us)).Sublist (pageProgram addr (paddedPayload data)) := by
    intro ts us hts hus
    refine ⟨fun x hx => ?_, ?_⟩
    · rcases List.mem_append.1 hx with hx | hx
      · exact ⟨hts.programs x hx, hts.inWindow x hx⟩
      · exact ⟨hus.programs x hx, hus.inWindow x hx⟩
    · rw [programmedBytes_append, programmedBytes_of_consecutive hts.consecutive,
        programmedBytes_of_consecutive hus.consecutive, ← hplaced]
      exact (prefix_placed _ (prefix_wordsToBytes hts.isPrefix)).sublist.append
        (prefix_placed _ (prefix_wordsToBytes hus.isPrefix)).sublist
  have hnone : ∃ ts : List FlashTransaction, [] = ts.flatMap FlashTransaction.accesses ∧
      (∀ x ∈ ts, x.Programs ∧ x.InWindow) ∧
      (programmedBytes ts).Sublist (pageProgram addr (paddedPayload data)) :=
    ⟨[], rfl, fun x hx => absurd hx List.not_mem_nil, List.nil_sublist _⟩
  rw [bootstrapPageProgram, if_neg (not_refused_iff.2 haddr), bootstrapPadding_eq]
  refine (traces_flashCtrlDataDefaultPermsSet hw _ (Q := fun _ t => t = []) rfl hnone).bind ?_
  rintro _ t rfl
  refine ((traces_bootstrapPageWrites hw haddr.1 _ hn).mono (fun _ _ h => h) ?_).bind ?_
  · rintro t ⟨ts, us, rfl, hts, hus⟩
    exact ⟨ts ++ us, rfl, hpart hts hus⟩
  · rintro ⟨err₀, err₁⟩ t ⟨ts, us, rfl, hts, hus, hall₀, hall₁⟩
    refine (traces_flashCtrlDataDefaultPermsSet hw _ (Q := fun _ t => t = []) rfl
      ⟨ts ++ us, List.append_nil _, hpart hts hus⟩).bind ?_
    rintro _ t rfl
    refine .pure ⟨ts ++ us, by simp only [List.append_nil, List.nil_append], (hpart hts hus).1,
      (hpart hts hus).2, fun hok => ?_⟩
    have hboth : err₀ = kErrorOk ∧ err₁ = kErrorOk := by
      by_cases hfirst : err₀ = kErrorOk
      · rw [if_neg (not_not.2 hfirst)] at hok
        exact ⟨hfirst, hok⟩
      · rw [if_pos hfirst] at hok
        exact absurd hok hfirst
    rw [programmedBytes_append, programmedBytes_of_consecutive hts.consecutive,
      programmedBytes_of_consecutive hus.consecutive, hall₀ hboth.1, hall₁ hboth.2, hplaced]

end Program

/-! ### Hardware without faults -/

section Works

variable {hw : Hw} {addr : Word}

theorem succeeds_flashCtrlDataDefaultPermsSet (hholds : hw.Holds kFlashCtrlDefaultRegion)
    (perms : FlashCtrlPerms) :
    Succeeds (SecMmioCtx.HasRoom {kFlashCtrlDefaultRegion}) (flashCtrlDataDefaultPermsSet hw perms)
      fun _ => True :=
  (succeeds_secMmioRead32 (Finset.mem_singleton_self _)).bind fun _ _ =>
    succeeds_secMmioWrite32 hholds (Finset.mem_singleton_self _) _

theorem succeeds_bootstrapPageProgram (hworks : hw.FlashWorks)
    (hholds : hw.Holds kFlashCtrlDefaultRegion) (haddr : ProgramAddress addr) (data : List Byte) :
    Succeeds (SecMmioCtx.HasRoom {kFlashCtrlDefaultRegion}) (bootstrapPageProgram hw addr data)
      (· = kErrorOk) := by
  rw [bootstrapPageProgram, if_neg (not_refused_iff.2 haddr)]
  refine (succeeds_flashCtrlDataDefaultPermsSet hholds _).bind fun _ _ => ?_
  refine Succeeds.bind (Q := fun errs => errs.1 = kErrorOk ∧ errs.2 = kErrorOk) ?_ fun errs hok =>
    (succeeds_flashCtrlDataDefaultPermsSet hholds _).bind fun _ _ => .pure _ fun _ hP => ⟨?_, hP⟩
  · refine Succeeds.bind (Q := (· = kErrorOk)) (.ite _ (fun _ => ?_) fun _ => ?_) fun _ h₀ =>
      Succeeds.bind (Q := (· = kErrorOk)) (.ite _ (fun _ => ?_) fun _ => ?_) fun _ h₁ =>
        .pure _ fun _ hP => ⟨⟨h₀, h₁⟩, hP⟩
    · exact succeeds_flashCtrlDataWrite hworks _ _
    · exact .pure _ fun _ hP => ⟨rfl, hP⟩
    · exact succeeds_flashCtrlDataWrite hworks _ _
    · exact .pure _ fun _ hP => ⟨rfl, hP⟩
  · rw [if_neg (not_not.2 hok.1)]
    exact hok.2

end Works

/-! ### The page program command -/

theorem FlashTraced.of_grows {io io' : Io} {ts : List FlashTransaction}
    (h : Grows Io.bus flashKeep (ts.flatMap FlashTransaction.accesses) io io') :
    FlashTraced io io' ts := by
  obtain ⟨new, hbus, hkept⟩ := h
  exact ⟨new, hbus, by rw [hkept, flashTransactions_flatMap]⟩

/-- `bootstrap_page_program` on any hardware, in any state: an address that is not that of a flash
word in the flash is refused before any access; at any other address the transactions program
bytes of the page program command only, all of them when it succeeds; without faults it does. The
write loop itself makes consecutive transactions out of its data, none across a window. -/
theorem bootstrap_page_program_spec (hw : Hw) (addr : Word) (data : List Byte)
    (hlen : data.length ≤ 256) (io : Io) :
    (¬ProgramAddress addr →
      (bootstrapPageProgram hw addr data).run io = .ok kErrorBootstrapProgramAddress io) ∧
    (ProgramAddress addr → ∃ ts,
      FlashTraced io (Hoare.final ((bootstrapPageProgram hw addr data).run io)) ts ∧
      (∀ t ∈ ts, t.Programs ∧ t.InWindow) ∧
      (programmedBytes ts).Sublist (pageProgram addr (paddedPayload data)) ∧
      (∀ w ∈ programmedBytes ts, w.1.toNat / 256 = addr.toNat / 256) ∧
      ∀ io', (bootstrapPageProgram hw addr data).run io = .ok kErrorOk io' →
        programmedBytes ts = pageProgram addr (paddedPayload data)) ∧
    (ProgramAddress addr → hw.FlashWorks → hw.Holds kFlashCtrlDefaultRegion →
      io.secMmio.HasRoom {kFlashCtrlDefaultRegion} →
      ∃ io', (bootstrapPageProgram hw addr data).run io = .ok kErrorOk io') ∧
    ∀ (start : Word) (words : List Word), start.toNat % 4 = 0 → ∃ ts,
      FlashTraced io (Hoare.final ((flashCtrlDataWrite hw start words).run io)) ts ∧
      Consecutive start ts ∧ (∀ t ∈ ts, t.Programs ∧ t.InWindow) ∧
      ts.flatMap FlashTransaction.words <+: words ∧
      ∀ io', (flashCtrlDataWrite hw start words).run io = .ok kErrorOk io' →
        ts.flatMap FlashTransaction.words = words := by
  refine ⟨fun haddr => ?_, fun haddr => ?_, fun haddr hworks hholds hroom => ?_,
    fun start words halign => ?_⟩
  · rw [bootstrapPageProgram, if_pos (not_not.1 fun h => haddr (not_refused_iff.1 h))]
    rfl
  · obtain ⟨t, hgrows, hend⟩ := (traces_bootstrapPageProgram hw haddr hlen).exists_grows io
    obtain ⟨ts, rfl, hts, hsub, hall⟩ : ∃ ts, t = ts.flatMap FlashTransaction.accesses ∧
        (∀ x ∈ ts, x.Programs ∧ x.InWindow) ∧
        (programmedBytes ts).Sublist (pageProgram addr (paddedPayload data)) ∧
        ∀ io', (bootstrapPageProgram hw addr data).run io = .ok kErrorOk io' →
          programmedBytes ts = pageProgram addr (paddedPayload data) := by
      rcases hend with ⟨err, io₁, hrun, ts, ht, hts, hsub, hall⟩ |
        ⟨⟨e, io₁, hrun⟩, ts, ht, hts, hsub⟩
      · refine ⟨ts, ht, hts, hsub, fun io' hok => hall ?_⟩
        rw [hrun, EStateM.Result.ok.injEq] at hok
        exact hok.1
      · exact ⟨ts, ht, hts, hsub, fun io' hok => absurd (hrun.symm.trans hok) (by simp)⟩
    exact ⟨ts, .of_grows hgrows, hts, hsub,
      fun w hmem => page_of_mem_pageProgram (hsub.subset hmem), hall⟩
  · have hrun := succeeds_bootstrapPageProgram hworks hholds haddr data io hroom
    cases hres : (bootstrapPageProgram hw addr data).run io with
    | ok err io' =>
      rw [hres] at hrun
      exact ⟨io', by rw [hrun.1]⟩
    | error e io' =>
      rw [hres] at hrun
      exact hrun.elim
  · obtain ⟨t, hgrows, hend⟩ := (traces_flashCtrlDataWrite hw halign words).exists_grows io
    rcases hend with ⟨err, io₁, hrun, ts, rfl, hts, hall⟩ | ⟨⟨e, io₁, hrun⟩, ts, rfl, hts⟩
    · refine ⟨ts, .of_grows hgrows, hts.consecutive,
        fun x hx => ⟨hts.programs x hx, hts.inWindow x hx⟩, hts.isPrefix, fun io' hok => hall ?_⟩
      rw [hrun, EStateM.Result.ok.injEq] at hok
      exact hok.1
    · exact ⟨ts, .of_grows hgrows, hts.consecutive,
        fun x hx => ⟨hts.programs x hx, hts.inWindow x hx⟩, hts.isPrefix,
        fun io' hok => absurd (hrun.symm.trans hok) (by simp)⟩

/-- Hardware on which a flash transaction is done at once. -/
def Hw.instantFlash : Hw := { Hw.plain with sample := fun _ _ => 1 }

theorem bootstrap_page_program_wraps :
    ∃ ts, FlashTraced .powerOn (Hoare.final ((bootstrapPageProgram .instantFlash 0x1f8
        (.replicate 13 0x5a)).run .powerOn)) ts ∧
      programmedBytes ts = pageProgram 0x1f8 (.replicate 13 0x5a ++ .replicate 3 0xff) ∧
      pageProgram 0x1f8 (.replicate 13 0x5a ++ .replicate 3 0xff) =
        placed 0x1f8 (.replicate 8 0x5a) ++
          placed 0x100 (.replicate 5 0x5a ++ .replicate 3 0xff) := by
  obtain ⟨-, hprog, hok, -⟩ := bootstrap_page_program_spec .instantFlash 0x1f8
    (.replicate 13 0x5a) (by decide) .powerOn
  obtain ⟨ts, hts, -, -, -, hall⟩ := hprog ⟨by decide, by decide⟩
  have hroom : Io.powerOn.secMmio.HasRoom {kFlashCtrlDefaultRegion} :=
    .of_empty (by decide) rfl rfl
  obtain ⟨io', hrun⟩ := hok ⟨by decide, by decide⟩
    ⟨fun _ => show bitfieldBit32Read 1 0 = true by decide,
      fun _ => show bitfieldBit32Read 1 1 = false by decide, fun _ => rfl⟩
    ⟨rfl, fun regs value => show Function.update regs kFlashCtrlDefaultRegion value
      kFlashCtrlDefaultRegion = value from Function.update_self ..⟩ hroom
  exact ⟨ts, hts, hall io' hrun, rfl⟩

end SecureBoot
