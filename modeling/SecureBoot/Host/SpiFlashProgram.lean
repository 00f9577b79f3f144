import SecureBoot.Host.SpiFlashErase

/-! Programming a buffer into a serial flash, in chunks that end where pages end. Chunks of ones are
not sent. -/

namespace SecureBoot

open Rust NorFlash InternalJedecParams JedecParams

namespace SpiFlash

variable {chip : Chip} {flash : SpiFlash} {s : NorFlash.State} {address : Word}
  {buffer chunk : List Byte}

theorem all_erased_iff : chunk.all (· == 0xff) = true ↔ ∀ b ∈ chunk, b = 0xff := by
  simp only [List.all_eq_true, beq_iff_eq]

/-- More rounds than bytes are as good as enough. -/
theorem programRounds_of_le (n : ℕ) (address : Word) {remain : List Byte} (h : remain.length ≤ n) :
    programRounds chip flash n address remain =
      programRounds chip flash remain.length address remain := by
  induction n using Nat.strong_induction_on generalizing address remain with
  | _ n ih =>
    by_cases hne : remain = []
    · subst hne
      cases n <;> rfl
    obtain ⟨k, hk⟩ := Nat.exists_eq_succ_of_ne_zero (mt List.length_eq_zero_iff.1 hne)
    rw [hk]
    cases n with
    | zero => omega
    | succ n =>
      rw [programRounds, programRounds, if_neg hne, if_neg hne]
      by_cases hzero : flash.programSize = 0
      · rw [checkedRem, if_neg (not_not.2 hzero)]
        rfl
      have hlt : address % flash.programSize < flash.programSize := by
        rw [BitVec.lt_def, BitVec.toNat_umod]
        exact Nat.mod_lt _ (Nat.pos_of_ne_zero fun h0 => hzero (BitVec.eq_of_toNat_eq h0))
      rw [(returns_checkedRem _ _).eq hzero]
      change (liftRun (checkedSub flash.programSize _) >>= _) =
        (liftRun (checkedSub flash.programSize _) >>= _)
      rw [(returns_checkedSub _ _).eq (BitVec.le_of_lt hlt)]
      change (programChunk chip flash address _ >>= _) = (programChunk chip flash address _ >>= _)
      refine bind_congr fun _ => bind_congr fun next => ?_
      have hdrop : (remain.drop (min (flash.programSize - address % flash.programSize).toNat
          remain.length)).length ≤ k := by
        have hpos : 0 < (flash.programSize - address % flash.programSize).toNat := by
          rw [BitVec.toNat_sub_of_le (BitVec.le_of_lt hlt)]
          exact Nat.sub_pos_of_lt hlt
        rw [List.length_drop]
        omega
      rw [ih n (by omega) next (hdrop.trans (by omega)), ih k (by omega) next hdrop]

/-! ### One chunk -/

theorem sentAddress_mod (mode : AddressMode) (address : Word) :
    sentAddress mode address % 256 = address.toNat % 256 := by
  cases mode with
  | mode3b => exact Nat.mod_mod_of_dvd _ (Nat.pow_dvd_pow 2 (show 8 ≤ 24 by decide))
  | mode4b => rfl

theorem run_programChunk (hd : Describes flash chip) (hs : Ready flash s)
    (hpage : address.toNat % 256 + chunk.length ≤ 256)
    (h : (∀ b ∈ chunk, b = 0xff) ∨ address < flash.size) :
    ∃ t, (programChunk chip flash address chunk).run s = .ok () t ∧ Ready flash t ∧
      t.contents = overlay (sentAddress flash.addressMode address) chunk s.contents := by
  by_cases hones : ∀ b ∈ chunk, b = 0xff
  · refine ⟨s, ?_, hs, (overlay_of_erased hones).symm⟩
    rw [programChunk, if_pos (all_erased_iff.2 hones)]
    rfl
  · replace h := h.resolve_left hones
    have hne : chunk ≠ [] := fun h0 => hones (by rw [h0]; exact fun b hb => absurd hb (by simp))
    have hlt : sentAddress flash.addressMode address < chip.size := by
      rw [← hd.size]
      exact (sentAddress_le _ _).trans_lt h
    have haddr := decodeAddress_addressBytes flash.addressMode address chunk
    rw [← hs.mode] at haddr
    have hready : ({ s with writeEnabled := true } : NorFlash.State).busy = 0 := hs.busy
    have hprogram := transact_program chip hready rfl hne haddr
    rw [Nat.mod_eq_of_lt hlt, program_eq_overlay (by rwa [sentAddress_mod])] at hprogram
    rw [programChunk, if_neg (mt all_erased_iff.1 hones),
      Hoare.run_bind_of_ok (run_opcodeWithAddress _ h),
      Hoare.run_bind_of_ok (run_setWriteEnable hs.busy),
      Hoare.run_bind_of_ok (run_runTransaction_write_write _ _), run_waitForBusyClear]
    refine ⟨_, rfl, ?_⟩
    rw [List.cons_append, hprogram]
    exact ⟨⟨rfl, hs.mode⟩, rfl⟩

theorem run_programChunk_of_ge (chip : Chip) (s : NorFlash.State)
    (hones : ¬ ∀ b ∈ chunk, b = 0xff) (h : ¬ address < flash.size) :
    ∃ e t, (programChunk chip flash address chunk).run s = .error (.err e) t := by
  rw [programChunk, if_neg (mt all_erased_iff.1 hones),
    Hoare.run_bind_of_error (run_opcodeWithAddress_of_ge _ h)]
  exact ⟨_, _, rfl⟩

/-! ### The loop -/

/-- A round of the loop: a chunk that stays inside its page, then the rounds for the bytes that are
left. -/
theorem exists_chunk (hd : Describes flash chip) (n : ℕ) (address : Word) {remain : List Byte}
    (hne : remain ≠ []) :
    ∃ chunk rest, remain = chunk ++ rest ∧ 0 < chunk.length ∧
      address.toNat % 256 + chunk.length ≤ 256 ∧
      ∀ s, (programRounds chip flash (n + 1) address remain).run s =
        (programChunk chip flash address chunk >>= fun _ =>
          liftRun (checkedAdd address (.ofNat 32 chunk.length)) >>= fun next =>
            programRounds chip flash n next rest).run s := by
  have hprogramSize : flash.programSize = 256 := hd.programSize
  have hlt : address.toNat % 256 < 256 := Nat.mod_lt _ (by decide)
  have hle : address % 256 ≤ 256 := hlt.le
  have hsize : ((256 : Word) - address % 256).toNat = 256 - address.toNat % 256 := by
    rw [BitVec.toNat_sub_of_le hle, BitVec.toNat_umod]
    rfl
  have hpos := List.length_pos_of_ne_nil hne
  have hlength := List.length_take_of_le
    (Nat.min_le_right (256 - address.toNat % 256) remain.length)
  refine ⟨remain.take (min (256 - address.toNat % 256) remain.length), remain.drop _,
    (List.take_append_drop _ _).symm, by omega, by omega, fun s => ?_⟩
  rw [programRounds, if_neg hne, hprogramSize,
    Hoare.run_bind_of_ok (run_liftRun_of_returns (returns_checkedRem _ _) (by decide)),
    Hoare.run_bind_of_ok (run_liftRun_of_returns (returns_checkedSub _ _) hle), hsize, hlength]

section

variable {remain : List Byte} {n : ℕ}

/-- The address behind a chunk, unless it overflows. -/
theorem toNat_next {size : ℕ} (h : address.toNat + size < 2 ^ 32) :
    (address + BitVec.ofNat 32 size).toNat = address.toNat + size := by
  rw [BitVec.toNat_add, BitVec.toNat_ofNat, Nat.add_mod_mod, Nat.mod_eq_of_lt h]

theorem returns_next (address : Word) (size : ℕ) (h : size < 2 ^ 32) :
    Returns (address.toNat + size < 2 ^ 32)
      (checkedAdd address (.ofNat 32 size) : Run SpiFlashError Word)
      (address + BitVec.ofNat 32 size) :=
  (returns_checkedAdd _ _).congr (by rw [BitVec.toNat_ofNat, Nat.mod_eq_of_lt h])

/-- A chunk is sent where it belongs if its address can be sent. -/
theorem overlay_sentAddress {contents : ℕ → Byte}
    (hpage : address.toNat % 256 + chunk.length ≤ 256)
    (h : flash.addressMode = .mode4b ∨ ¬ HasData address.toNat chunk (2 ^ 24) (2 ^ 32)) :
    overlay (sentAddress flash.addressMode address) chunk contents =
      overlay address.toNat chunk contents := by
  by_cases hones : ∀ b ∈ chunk, b = 0xff
  · rw [overlay_of_erased hones, overlay_of_erased hones]
  · cases hmode : flash.addressMode with
    | mode4b => rfl
    | mode3b =>
      have hlt : address.toNat < 2 ^ 24 := by
        by_contra hge
        have hmod := address.isLt
        have hdata := hasData_of_not_erased hones (not_lt.1 hge)
          (show address.toNat + chunk.length ≤ 2 ^ 32 by omega)
        exact h.resolve_left (by rw [hmode]; decide) hdata
      rw [sentAddress, truncate, Nat.mod_eq_of_lt hlt]

/-- In three bytes, nothing above them is reached. -/
theorem overlay_sentAddress_of_ge {contents : ℕ → Byte} {x : ℕ}
    (hpage : address.toNat % 256 + chunk.length ≤ 256) (hx : 2 ^ 24 ≤ x) :
    overlay (sentAddress .mode3b address) chunk contents x = contents x := by
  have hmod := sentAddress_mod .mode3b address
  have hlt : sentAddress .mode3b address < 2 ^ 24 := Nat.mod_lt _ (Nat.two_pow_pos 24)
  exact overlay_of_ge (by omega)

/-- A chunk that carries nothing behind the end of the chip is not refused. -/
theorem erased_or_lt (hpage : address.toNat % 256 + chunk.length ≤ 256)
    (h : ¬ HasData address.toNat chunk flash.size.toNat (2 ^ 32)) :
    (∀ b ∈ chunk, b = 0xff) ∨ address < flash.size := by
  refine or_iff_not_imp_left.2 fun hones => BitVec.not_le.1 fun hge => ?_
  have hmod := address.isLt
  exact h (hasData_of_not_erased hones hge (by omega))

/-- The loop, over a buffer that carries nothing behind the end of the chip: it writes the buffer
if the addresses can be sent, and never reaches more than they can say. -/
theorem run_programRounds (hd : Describes flash chip) (hs : Ready flash s)
    (hn : remain.length ≤ n) (hsum : address.toNat + remain.length < 2 ^ 32)
    (hin : ¬ HasData address.toNat remain flash.size.toNat (2 ^ 32)) :
    ∃ t, (programRounds chip flash n address remain).run s = .ok () t ∧ Ready flash t ∧
      (flash.addressMode = .mode4b ∨ ¬ HasData address.toNat remain (2 ^ 24) (2 ^ 32) →
        t.contents = overlay address.toNat remain s.contents) ∧
      (flash.addressMode = .mode3b → ∀ x, 2 ^ 24 ≤ x → t.contents x = s.contents x) := by
  induction n generalizing address remain s with
  | zero =>
    obtain rfl : remain = [] := List.eq_nil_of_length_eq_zero (Nat.le_zero.1 hn)
    exact ⟨s, rfl, hs, fun _ => (overlay_of_erased (by simp)).symm, fun _ _ _ => rfl⟩
  | succ n ih =>
    by_cases hne : remain = []
    · subst hne
      exact ⟨s, rfl, hs, fun _ => (overlay_of_erased (by simp)).symm, fun _ _ _ => rfl⟩
    · obtain ⟨chunk, rest, rfl, hpos, hpage, hrun⟩ := exists_chunk hd n address hne
      rw [List.length_append] at hn hsum
      have hrest : rest.length ≤ n := by omega
      have hnext := toNat_next (show address.toNat + chunk.length < 2 ^ 32 by omega)
      rw [hasData_append, not_or] at hin
      obtain ⟨t, ht, htready, htcontents⟩ :=
        run_programChunk hd hs hpage (erased_or_lt hpage hin.1)
      obtain ⟨u, hu, huready, hall, hbelow⟩ :=
        ih htready hrest (by rw [hnext]; omega) (by rw [hnext]; exact hin.2)
      refine ⟨u, ?_, huready, fun hmode => ?_, fun hmode x hx => ?_⟩
      · have hadd := returns_next address chunk.length (by omega)
        rw [hrun, Hoare.run_bind_of_ok ht,
          Hoare.run_bind_of_ok (run_liftRun_of_returns hadd (by omega)), hu]
      · rw [hasData_append, not_or, ← hnext] at hmode
        rw [hall (hmode.imp_right And.right), htcontents,
          overlay_sentAddress hpage (hmode.imp_right And.left), hnext, overlay_append]
      · rw [hbelow hmode x hx, htcontents, hmode, overlay_sentAddress_of_ge hpage hx]

/-- The loop, over a buffer that carries something behind the end of the chip: it is refused. -/
theorem run_programRounds_of_hasData (hd : Describes flash chip) (hs : Ready flash s)
    (hn : remain.length ≤ n) (h : HasData address.toNat remain flash.size.toNat (2 ^ 32)) :
    ∃ e t, (programRounds chip flash n address remain).run s = .error (.err e) t := by
  induction n generalizing address remain s with
  | zero =>
    obtain rfl : remain = [] := List.eq_nil_of_length_eq_zero (Nat.le_zero.1 hn)
    obtain ⟨i, hi, -⟩ := h
    exact absurd rfl hi
  | succ n ih =>
    have hne : remain ≠ [] := by
      rintro rfl
      obtain ⟨i, hi, -⟩ := h
      exact absurd rfl hi
    obtain ⟨chunk, rest, rfl, hpos, hpage, hrun⟩ := exists_chunk hd n address hne
    rw [List.length_append] at hn
    have hrest : rest.length ≤ n := by omega
    rw [hrun]
    by_cases hin : (∀ b ∈ chunk, b = 0xff) ∨ address < flash.size
    · obtain ⟨t, ht, htready, -⟩ := run_programChunk hd hs hpage hin
      have hafter : HasData (address.toNat + chunk.length) rest flash.size.toNat (2 ^ 32) := by
        refine ((hasData_append _ _ _).1 h).resolve_left fun hchunk => ?_
        have hge := hchunk.le hpage (hd.size ▸ chip.page_dvd)
        obtain ⟨i, hi, -⟩ := hchunk
        obtain hones | hlt := hin
        · refine hi ?_
          rw [List.getD_eq_getElem _ _ (lt_of_getD_ne hi)]
          exact hones _ (List.getElem_mem _)
        · exact absurd hlt (BitVec.not_lt.2 hge)
      have hsum : address.toNat + chunk.length < 2 ^ 32 := by
        obtain ⟨i, -, -, hi⟩ := hafter
        exact Nat.lt_of_le_of_lt (Nat.le_add_right _ i) hi
      rw [Hoare.run_bind_of_ok ht,
        Hoare.run_bind_of_ok (run_liftRun_of_returns (returns_next _ _ (by omega)) hsum)]
      exact ih htready hrest (by rwa [toNat_next hsum])
    · rw [not_or] at hin
      obtain ⟨e, t, ht⟩ := run_programChunk_of_ge chip s hin.1 hin.2
      exact ⟨e, t, Hoare.run_bind_of_error ht⟩

/-- The loop, over a buffer that ends where addresses overflow and that is not refused: the sum
that makes the last address overflows. -/
theorem run_programRounds_of_overflow (hd : Describes flash chip) (hs : Ready flash s)
    (hn : remain.length ≤ n) (hsum : 2 ^ 32 ≤ address.toNat + remain.length)
    (hin : ¬ HasData address.toNat remain flash.size.toNat (2 ^ 32)) :
    ∃ why t, (programRounds chip flash n address remain).run s = .error (.panic why) t := by
  induction n generalizing address remain s with
  | zero =>
    have hlt := address.isLt
    omega
  | succ n ih =>
    have hne : remain ≠ [] := by
      rintro rfl
      exact absurd hsum (not_le.2 address.isLt)
    obtain ⟨chunk, rest, rfl, hpos, hpage, hrun⟩ := exists_chunk hd n address hne
    rw [List.length_append] at hn hsum
    have hrest : rest.length ≤ n := by omega
    rw [hasData_append, not_or] at hin
    obtain ⟨t, ht, htready, -⟩ := run_programChunk hd hs hpage (erased_or_lt hpage hin.1)
    rw [hrun, Hoare.run_bind_of_ok ht]
    by_cases hlt : address.toNat + chunk.length < 2 ^ 32
    · have hnext := toNat_next hlt
      rw [Hoare.run_bind_of_ok (run_liftRun_of_returns (returns_next _ _ (by omega)) hlt)]
      exact ih htready hrest (by rw [hnext]; omega) (by rw [hnext]; exact hin.2)
    · obtain ⟨why, hwhy⟩ := (returns_next address chunk.length (by omega)).panics hlt
      rw [hwhy]
      exact ⟨why, t, rfl⟩

end

/-! ### The whole function -/

/-- Programming a buffer, as it should be: it is anded to the contents, and nothing else changes. A
buffer that does not end inside the chip may lead to an error instead. -/
def ProgramWrites (chip : Chip) (flash : SpiFlash) (address : Word) (buffer : List Byte) : Prop :=
  ∀ s, Ready flash s → Hoare.Outcome
    (fun _ t => t.contents = overlay address.toNat buffer s.contents)
    (fun stop _ => (∃ e, stop = .err e) ∧ chip.size < address.toNat + buffer.length)
    ((program chip flash address buffer).run s)

/-- What it takes: either something behind the end of the chip is refused, or the addresses do not
overflow, and all that is sent goes to addresses that can be sent. -/
def ProgramFits (chip : Chip) (flash : SpiFlash) (address : Word) (buffer : List Byte) : Prop :=
  HasData address.toNat buffer chip.size (2 ^ 32) ∨ address.toNat + buffer.length < 2 ^ 32 ∧
    (flash.addressMode = .mode4b ∨ ¬ HasData address.toNat buffer (2 ^ 24) (2 ^ 32))

/-- A chip that is ready, all of whose bytes are erased. -/
def erased (flash : SpiFlash) : NorFlash.State :=
  ⟨fun _ => 0xff, flash.addressMode = .mode4b, false, 0, 0⟩

theorem ready_erased (flash : SpiFlash) : Ready flash (erased flash) := ⟨rfl, rfl⟩

/-- What is sent to addresses above three bytes is missing there afterwards. -/
theorem overlay_erased_ne {a first last : ℕ} (h : HasData a buffer first last) :
    ∃ x, first ≤ x ∧ overlay a buffer (fun _ => 0xff) x ≠ 0xff := by
  obtain ⟨i, hi, hfirst, -⟩ := h
  refine ⟨a + i, hfirst, ?_⟩
  have hin : a ≤ a + i ∧ a + i < a + buffer.length :=
    ⟨Nat.le_add_right a i, Nat.add_lt_add_left (lt_of_getD_ne hi) a⟩
  rw [overlay, if_pos hin, Nat.add_sub_cancel_left, BitVec.and_comm, and_ones]
  exact hi

/-- Programming writes exactly the buffer if and only if what it carries can be addressed. -/
theorem spi_flash_program_writes_iff (hd : Describes flash chip) (address : Word)
    (buffer : List Byte) :
    ProgramWrites chip flash address buffer ↔ ProgramFits chip flash address buffer := by
  by_cases hdata : HasData address.toNat buffer chip.size (2 ^ 32)
  · refine iff_of_true (fun s hs => ?_) (.inl hdata)
    obtain ⟨e, t, ht⟩ := run_programRounds_of_hasData hd hs le_rfl (hd.size ▸ hdata)
    rw [program, ht]
    obtain ⟨i, hi, hfirst, -⟩ := hdata
    have hlt := lt_of_getD_ne hi
    exact ⟨⟨e, rfl⟩, by omega⟩
  by_cases hsum : address.toNat + buffer.length < 2 ^ 32
  swap
  · refine iff_of_false (fun h => ?_) fun h => hsum (h.resolve_left hdata).1
    obtain ⟨why, t, ht⟩ := run_programRounds_of_overflow hd (ready_erased flash) le_rfl
      (not_lt.1 hsum) (hd.size ▸ hdata)
    have hout := h (erased flash) (ready_erased flash)
    rw [program, ht] at hout
    obtain ⟨e, he⟩ := hout.1
    cases he
  by_cases hmode : flash.addressMode = .mode4b ∨ ¬ HasData address.toNat buffer (2 ^ 24) (2 ^ 32)
  · refine iff_of_true (fun s hs => ?_) (.inr ⟨hsum, hmode⟩)
    obtain ⟨t, ht, -, hcontents, -⟩ :=
      run_programRounds hd hs le_rfl hsum (hd.size ▸ hdata)
    rw [program, ht]
    exact hcontents hmode
  · refine iff_of_false (fun h => ?_) fun h => hmode (h.resolve_left hdata).2
    obtain ⟨t, ht, -, -, hbelow⟩ :=
      run_programRounds hd (ready_erased flash) le_rfl hsum (hd.size ▸ hdata)
    have hout := h (erased flash) (ready_erased flash)
    rw [program, ht] at hout
    rw [not_or, not_not] at hmode
    obtain ⟨x, hx, hne⟩ := overlay_erased_ne hmode.2
    have hmode3b : flash.addressMode = .mode3b := by
      cases hm : flash.addressMode with
      | mode3b => rfl
      | mode4b => exact absurd hm hmode.1
    refine hne ?_
    have hcontents : t.contents = overlay address.toNat buffer (fun _ => 0xff) := hout
    rw [← hcontents, hbelow hmode3b x hx]
    rfl

theorem spi_flash_program_writes_across_pages :
    ∃ chip, Describes .default chip ∧ ProgramWrites chip .default 0xff [0x12, 0x34] := by
  have hd : Describes .default (uniformChip opSectorErase 12 24 (by decide) (by decide)) :=
    ⟨rfl, ⟨12, rfl, rfl⟩, rfl⟩
  refine ⟨_, hd, (spi_flash_program_writes_iff hd 0xff [0x12, 0x34]).2 (.inr ⟨by decide, .inr ?_⟩)⟩
  rintro ⟨i, hi, hfirst, -⟩
  have hlt : i < 2 := lt_of_getD_ne hi
  change 2 ^ 24 ≤ 255 + i at hfirst
  omega

/-- For a part of 128 MiB that supports both kinds of addresses, the tool keeps to three bytes. A
byte for the address 2^24 is programmed somewhere else, without an error. -/
theorem spi_flash_program_misses_high_address :
    ∃ jedec chip, JedecParams.tryFrom (wordsToBytes mx66l1g) = .ok jedec ∧
      ∀ header phdr params, Describes (fromSfdp ⟨header, phdr, jedec, params⟩) chip ∧
        (∀ s, Ready (fromSfdp ⟨header, phdr, jedec, params⟩) s →
          ∃ t, (program chip (fromSfdp ⟨header, phdr, jedec, params⟩) 0x1000000 [0]).run s =
            .ok () t ∧ t.contents 0x1000000 = s.contents 0x1000000) ∧
        ¬ ProgramWrites chip (fromSfdp ⟨header, phdr, jedec, params⟩) 0x1000000 [0] := by
  have h : JedecParams.tryFrom (wordsToBytes mx66l1g) = .ok (decoded ⟨mx66l1g⟩) := by
    rw [tryFrom_eq_ok_iff, tryFrom_wordsToBytes]
    refine ⟨⟨by decide, fun hflag => ?_, by decide, by decide, by decide, by decide⟩, rfl⟩
    exact absurd hflag (by decide)
  refine ⟨_, uniformChip 0x20 12 27 (by decide) (by decide), h, fun header phdr params => ?_⟩
  have hdensity : (decoded ⟨mx66l1g⟩).density = 0x8000000 := by decide
  have hblock : (decoded ⟨mx66l1g⟩).blockEraseSize = .block4KiB := by decide
  have herase : (decoded ⟨mx66l1g⟩).eraseOpcode4kib = 0x20 := by decide
  have hmodes : (decoded ⟨mx66l1g⟩).addressModes = .mode3b4b := by decide
  have hd : Describes (fromSfdp ⟨header, phdr, decoded ⟨mx66l1g⟩, params⟩)
      (uniformChip 0x20 12 27 (by decide) (by decide)) := by
    refine describes_fromSfdp_of_4KiB (congrArg BitVec.toNat hdensity) hblock ?_
    rw [herase]
    rfl
  have hmode : (fromSfdp ⟨header, phdr, decoded ⟨mx66l1g⟩, params⟩).addressMode = .mode3b := by
    rw [fromSfdp, hmodes]
    rfl
  have hin : ¬ HasData (0x1000000 : Word).toNat [0]
      (fromSfdp ⟨header, phdr, decoded ⟨mx66l1g⟩, params⟩).size.toNat (2 ^ 32) := by
    rintro ⟨i, hi, hfirst, -⟩
    have hlt : i < 1 := lt_of_getD_ne hi
    rw [hd.size] at hfirst
    change 2 ^ 27 ≤ 2 ^ 24 + i at hfirst
    omega
  have hrun {s : NorFlash.State}
      (hs : Ready (fromSfdp ⟨header, phdr, decoded ⟨mx66l1g⟩, params⟩) s) :
      ∃ t, (program (uniformChip 0x20 12 27 (by decide) (by decide))
        (fromSfdp ⟨header, phdr, decoded ⟨mx66l1g⟩, params⟩) 0x1000000 [0]).run s = .ok () t ∧
        t.contents 0x1000000 = s.contents 0x1000000 := by
    obtain ⟨t, ht, -, -, hbelow⟩ := run_programRounds hd hs le_rfl (by decide) hin
    exact ⟨t, ht, hbelow hmode _ le_rfl⟩
  refine ⟨hd, fun s hs => hrun hs, fun hwrites => ?_⟩
  obtain ⟨t, ht, hcontents⟩ := hrun (ready_erased _)
  have hout := hwrites _ (ready_erased _)
  rw [ht] at hout
  rw [congrFun hout 0x1000000] at hcontents
  replace hcontents : overlay 0x1000000 [0] (fun _ => 0xff) 0x1000000 = 0xff := hcontents
  exact absurd hcontents (by decide)

end SpiFlash

end SecureBoot
