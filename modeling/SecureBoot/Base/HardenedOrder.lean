import SecureBoot.Base.HardenedMemory

/-! The hardened memory functions under any order. They do their work, and the rounds behind the
end of the buffers work on decoys only, as long as no byte index has its top bit set; an index that
has is taken for one inside of the buffers. -/

namespace SecureBoot

open Ram

section Functions

variable {decoy_addr word_len : Word} {draws : List Word} {ram : Ram}

/-! ### Functions that store -/

/-- What a round that stores does to the memory. -/
theorem store_step (ram : Ram) {dest : Word} (hapart : Apart dest word_len.toNat decoy_addr 8)
    (hlen : word_len.toNat < 2 ^ 29) {idx : Word} (hidx : idx.toNat < 2 ^ 29) {j : ℕ} (hj : j < 8)
    (v : Word) :
    (∀ i < word_len.toNat, Function.update ram (roundWord decoy_addr dest word_len idx j) (some v)
        (wordAt dest i) = if BitVec.ofNat 32 i = idx then some v else ram (wordAt dest i)) ∧
      (∀ x, ¬ InBuffer dest word_len.toNat x → ¬ InBuffer decoy_addr 8 x →
        Function.update ram (roundWord decoy_addr dest word_len idx j) (some v) x = ram x) ∧
      ∀ x, (ram x).isSome → (Function.update ram
        (roundWord decoy_addr dest word_len idx j) (some v) x).isSome := by
  have hsome : ∀ x, (ram x).isSome → (Function.update ram
      (roundWord decoy_addr dest word_len idx j) (some v) x).isSome := by
    intro x hx
    rw [Function.update_apply]
    split_ifs
    · rfl
    · exact hx
  have hofNat : ∀ i < word_len.toNat, (BitVec.ofNat 32 i = idx ↔ i = idx.toNat) := by
    intro i hi
    rw [← BitVec.toNat_inj, BitVec.toNat_ofNat, Nat.mod_eq_of_lt (by omega)]
  rcases Nat.lt_or_ge idx.toNat word_len.toNat with h | h
  · rw [roundWord_of_lt h] at hsome ⊢
    refine ⟨fun i hi => ?_, fun x hx _ => ?_, hsome⟩
    · rw [Function.update_apply]
      exact if_congr ((wordAt_inj (by omega) (by omega)).trans (hofNat i hi).symm) rfl rfl
    · refine Function.update_of_ne (fun heq => hx ?_) _ _
      rw [heq]
      exact inBuffer_wordAt h
  · have hdecoy := inBuffer_roundWord h hidx decoy_addr dest hj
    refine ⟨fun i hi => ?_, fun x _ hx => ?_, hsome⟩
    · have hne : wordAt dest i ≠ roundWord decoy_addr dest word_len idx j := fun heq =>
        hapart _ (inBuffer_wordAt hi) (by rwa [heq])
      rw [Function.update_of_ne hne, if_neg (fun heq => absurd ((hofNat i hi).1 heq) (by omega))]
    · exact Function.update_of_ne (fun heq => hx (by rwa [heq])) _ _

/-- The word of a round is there. -/
theorem isSome_roundWord (ptr : Word) (hptr : ∀ i < word_len.toNat, (ram (wordAt ptr i)).isSome)
    (hdecoys : ∀ j < 8, (ram (wordAt decoy_addr j)).isSome) {idx : Word}
    (hidx : idx.toNat < 2 ^ 29) {j : ℕ} (hj : j < 8) :
    ∃ v, ram (roundWord decoy_addr ptr word_len idx j) = some v := by
  apply Option.isSome_iff_exists.1
  rcases Nat.lt_or_ge idx.toNat word_len.toNat with h | h
  · rw [roundWord_of_lt h]
    exact hptr _ h
  · obtain ⟨j, hj, hword⟩ := inBuffer_roundWord h hidx decoy_addr ptr hj
    rw [hword]
    exact hdecoys j hj

/-- The memory after the rounds `done` of a copy. -/
structure Copied (ram : Ram) (decoy_addr dest src : Word) (n : ℕ) (done : List Word)
    (ram' : Ram) : Prop where
  copied : ∀ i < n, BitVec.ofNat 32 i ∈ done → ram' (wordAt dest i) = ram (wordAt src i)
  frame : ∀ x, ¬ InBuffer dest n x → ¬ InBuffer decoy_addr 8 x → ram' x = ram x
  there : ∀ x, (ram x).isSome → (ram' x).isSome

/-- The buffers of a copy. -/
structure CopyBuffers (ram : Ram) (decoy_addr dest src : Word) (n : ℕ) : Prop where
  hdest : Buffer ram dest n
  hsrc : Buffer ram src n
  hdecoys : Buffer ram decoy_addr 8
  dest_src : Apart dest n src n
  dest_decoys : Apart dest n decoy_addr 8
  src_decoys : Apart src n decoy_addr 8

theorem Copied.round {dest src : Word} (hlen : word_len.toNat < 2 ^ 29)
    (hbuffers : CopyBuffers ram decoy_addr dest src word_len.toNat) {done : List Word} {ram' : Ram}
    (h : Copied ram decoy_addr dest src word_len.toNat done ram') {idx : Word}
    (hidx : idx.toNat < 2 ^ 29) : ∃ ram'',
      (memcpyRound decoy_addr dest src (word_len * 4) idx).run ram' = some ((), ram'') ∧
      Copied ram decoy_addr dest src word_len.toNat (done ++ [idx]) ram'' := by
  have hdecoys : ∀ j < 8, (ram' (wordAt decoy_addr j)).isSome := fun j hj =>
    h.there _ (hbuffers.hdecoys.there j hj)
  have hsource : ∀ i < word_len.toNat, ram' (wordAt src i) = ram (wordAt src i) := fun i hi =>
    h.frame _ (fun hd => hbuffers.dest_src _ hd (inBuffer_wordAt hi))
      (hbuffers.src_decoys _ (inBuffer_wordAt hi))
  have hmod : ∀ n, n % 8 < 8 := fun n => Nat.mod_lt n (by decide)
  obtain ⟨v, hv⟩ := isSome_roundWord src
    (fun i hi => h.there _ (hbuffers.hsrc.there i hi)) hdecoys hidx (hmod idx.toNat)
  obtain ⟨w, hw⟩ := isSome_roundWord dest
    (fun i hi => h.there _ (hbuffers.hdest.there i hi)) hdecoys hidx (hmod (idx.toNat + 4))
  obtain ⟨hstored, hothers, hsome⟩ := store_step ram' hbuffers.dest_decoys hlen hidx
    (hmod (idx.toNat + 4)) v
  refine ⟨_, ?_, fun i hi hmem => ?_, fun x hx hx' => (hothers x hx hx').trans (h.frame x hx hx'),
    fun x hx => hsome x (h.there x hx)⟩
  · rw [run_memcpyRound hbuffers.hdecoys.aligned hlen (by omega) hbuffers.hdest.aligned
      hbuffers.hsrc.aligned, hv, Option.bind_some, hw, Option.map_some]
  · rw [hstored i hi]
    split_ifs with heq
    · have htoNat : idx.toNat = i := by
        rw [← heq, BitVec.toNat_ofNat, Nat.mod_eq_of_lt (by omega)]
      rw [roundWord_of_lt (by omega), htoNat, hsource i hi] at hv
      exact hv.symm
    · refine h.copied i hi ((List.mem_append.1 hmem).resolve_right fun hidx => ?_)
      exact heq (List.mem_singleton.1 hidx)

theorem exists_run_hardenedMemcpy (hlen : word_len.toNat < 2 ^ 29)
    (hdraws : ∀ idx ∈ draws, idx.toNat < 2 ^ 29)
    (hvisit : ∀ i < word_len.toNat, BitVec.ofNat 32 i ∈ draws) {dest src : Word}
    (hbuffers : CopyBuffers ram decoy_addr dest src word_len.toNat) :
    ∃ ram', (hardenedMemcpy decoy_addr dest src word_len draws).run ram = some ((), ram') ∧
      (∀ i < word_len.toNat, ram' (wordAt dest i) = ram (wordAt src i)) ∧
      ∀ x, ¬ InBuffer dest word_len.toNat x → ¬ InBuffer decoy_addr 8 x → ram' x = ram x := by
  have hround : ∀ done, ∀ idx ∈ draws, ∀ (_ : Unit) ram',
      Copied ram decoy_addr dest src word_len.toNat done ram' → ∃ s' ram'',
        (memcpyRound decoy_addr dest src (word_len * 4) idx).run ram' = some (s', ram'') ∧
        Copied ram decoy_addr dest src word_len.toNat (done ++ [idx]) ram'' :=
    fun _ idx hidx _ _ h => ⟨(), h.round hlen hbuffers (hdraws idx hidx)⟩
  obtain ⟨⟨⟩, ram', hrun, h⟩ := exists_run_orderLoop
    (fun done _ => Copied ram decoy_addr dest src word_len.toNat done)
    (fun _ idx _ => memcpyRound decoy_addr dest src (word_len * 4) idx) hround
    ⟨fun _ _ h => absurd h List.not_mem_nil, fun _ _ _ => rfl, fun _ h => h⟩
  exact ⟨ram', hrun, fun i hi => h.copied i hi (hvisit i hi), h.frame⟩

/-- The memory after the rounds `done` of a fill with random words. -/
structure Shredded (ram : Ram) (decoy_addr dest : Word) (n : ℕ) (random : ℕ → Word)
    (done : List Word) (ram' : Ram) : Prop where
  filled : ∀ i < n, BitVec.ofNat 32 i ∈ done → ∃ k, done[k]? = some (BitVec.ofNat 32 i) ∧
    ram' (wordAt dest i) = some (random k)
  frame : ∀ x, ¬ InBuffer dest n x → ¬ InBuffer decoy_addr 8 x → ram' x = ram x
  there : ∀ x, (ram x).isSome → (ram' x).isSome

theorem Shredded.round {dest : Word} {random : ℕ → Word} (hlen : word_len.toNat < 2 ^ 29)
    (hdest : Buffer ram dest word_len.toNat) (hdecoys : Buffer ram decoy_addr 8)
    (hapart : Apart dest word_len.toNat decoy_addr 8) {done : List Word} {ram' : Ram}
    (h : Shredded ram decoy_addr dest word_len.toNat random done ram') {idx : Word}
    (hidx : idx.toNat < 2 ^ 29) : ∃ ram'',
      (memshredRound decoy_addr dest (word_len * 4) (random done.length) idx).run ram' =
        some ((), ram'') ∧
      Shredded ram decoy_addr dest word_len.toNat random (done ++ [idx]) ram'' := by
  have hmod := Nat.mod_lt idx.toNat (by decide : 0 < 8)
  obtain ⟨w, hw⟩ := isSome_roundWord dest (fun i hi => h.there _ (hdest.there i hi))
    (fun j hj => h.there _ (hdecoys.there j hj)) hidx hmod
  obtain ⟨hstored, hothers, hsome⟩ := store_step ram' hapart hlen hidx hmod
    (random done.length)
  refine ⟨_, ?_, fun i hi hmem => ?_, fun x hx hx' => (hothers x hx hx').trans (h.frame x hx hx'),
    fun x hx => hsome x (h.there x hx)⟩
  · rw [run_memshredRound hdecoys.aligned hlen (by omega) hdest.aligned, hw, Option.map_some]
  · rw [hstored i hi]
    split_ifs with heq
    · exact ⟨done.length, by rw [List.getElem?_concat_length, heq], rfl⟩
    · have hmem := (List.mem_append.1 hmem).resolve_right fun hidx =>
        heq (List.mem_singleton.1 hidx)
      obtain ⟨k, hk, hword⟩ := h.filled i hi hmem
      have hlt : k < done.length := (List.getElem?_eq_some_iff.1 hk).1
      exact ⟨k, by rw [List.getElem?_append_left hlt, hk], hword⟩

theorem exists_run_hardenedMemshred (hlen : word_len.toNat < 2 ^ 29)
    (hdraws : ∀ idx ∈ draws, idx.toNat < 2 ^ 29)
    (hvisit : ∀ i < word_len.toNat, BitVec.ofNat 32 i ∈ draws) {dest : Word}
    (hdest : Buffer ram dest word_len.toNat) (hdecoys : Buffer ram decoy_addr 8)
    (hapart : Apart dest word_len.toNat decoy_addr 8) (random : ℕ → Word) :
    ∃ ram', (hardenedMemshred decoy_addr dest word_len random draws).run ram = some ((), ram') ∧
      (∀ i < word_len.toNat, ∃ k, draws[k]? = some (BitVec.ofNat 32 i) ∧
        ram' (wordAt dest i) = some (random k)) ∧
      ∀ x, ¬ InBuffer dest word_len.toNat x → ¬ InBuffer decoy_addr 8 x → ram' x = ram x := by
  have hround : ∀ done, ∀ idx ∈ draws, ∀ (_ : Unit) ram',
      Shredded ram decoy_addr dest word_len.toNat random done ram' → ∃ s' ram'',
        (memshredRound decoy_addr dest (word_len * 4) (random done.length) idx).run ram' =
          some (s', ram'') ∧
        Shredded ram decoy_addr dest word_len.toNat random (done ++ [idx]) ram'' :=
    fun _ idx hidx _ _ h => ⟨(), h.round hlen hdest hdecoys hapart (hdraws idx hidx)⟩
  obtain ⟨⟨⟩, ram', hrun, h⟩ := exists_run_orderLoop
    (fun done _ => Shredded ram decoy_addr dest word_len.toNat random done)
    (fun count idx _ => memshredRound decoy_addr dest (word_len * 4) (random count) idx) hround
    ⟨fun _ _ h => absurd h List.not_mem_nil, fun _ _ _ => rfl, fun _ h => h⟩
  exact ⟨ram', hrun, fun i hi => h.filled i hi (hvisit i hi), h.frame⟩

/-! ### The comparison -/

/-- The fill of the decoys. -/
theorem exists_run_fill (hdecoys : Buffer ram decoy_addr 8) {n : ℕ} (hn : n ≤ 8) :
    ∃ ram', ((List.range n).forM fun i =>
        Ram.write32 memeqDecoy (decoy_addr + .ofNat 32 (4 * i))).run ram = some ((), ram') ∧
      (∀ j < n, ram' (wordAt decoy_addr j) = some memeqDecoy) ∧
      ∀ x, ¬ InBuffer decoy_addr n x → ram' x = ram x := by
  induction n with
  | zero => exact ⟨ram, rfl, fun _ h => absurd h (by omega), fun _ _ => rfl⟩
  | succ n ih =>
    obtain ⟨ram', hrun, hfilled, hframe⟩ := ih (by omega)
    have hoff : (BitVec.ofNat 32 (4 * n)).toNat = 4 * n := by
      rw [BitVec.toNat_ofNat]
      omega
    have hword : ram' (wordAt decoy_addr n) = ram (wordAt decoy_addr n) := by
      refine hframe _ ?_
      rintro ⟨j, hj, heq⟩
      rw [wordAt_inj (by omega) (by omega)] at heq
      omega
    obtain ⟨w, hw⟩ := Option.isSome_iff_exists.1 (hdecoys.there n (by omega))
    refine ⟨Function.update ram' (wordAt decoy_addr n) (some memeqDecoy), ?_, fun j hj => ?_,
      fun x hx => ?_⟩
    · rw [List.range_succ, Traverse.forM_append, StateT.run_bind, hrun]
      change ((Ram.write32 memeqDecoy (decoy_addr + .ofNat 32 (4 * n))) >>= fun _ => pure ()).run
        ram' = _
      rw [bind_pure, Ram.run_write32 (misalignment32Of_add_bytes hdecoys.aligned hoff),
        wordIndex_add_bytes hdecoys.aligned hoff, hword, hw, Option.map_some]
    · rw [Function.update_apply]
      split_ifs with heq
      · rfl
      · refine hfilled j (lt_of_le_of_ne (Nat.lt_succ_iff.1 hj) ?_)
        rintro rfl
        exact heq rfl
    · have hne : x ≠ wordAt decoy_addr n := fun heq => hx ⟨n, Nat.lt_succ_self n, heq⟩
      rw [Function.update_of_ne hne]
      refine hframe x ?_
      rintro ⟨j, hj, heq⟩
      exact hx ⟨j, by omega, heq⟩

/-- The buffers agree at the indices that were drawn. -/
def SameAt (ram : Ram) (lhs rhs : Word) (n : ℕ) (done : List Word) : Prop :=
  ∀ i < n, BitVec.ofNat 32 i ∈ done → ram (wordAt lhs i) = ram (wordAt rhs i)

theorem sameAt_concat {lhs rhs : Word} {n : ℕ} (hn : n < 2 ^ 29) (done : List Word) (idx : Word) :
    SameAt ram lhs rhs n (done ++ [idx]) ↔ SameAt ram lhs rhs n done ∧
      (idx.toNat < n → ram (wordAt lhs idx.toNat) = ram (wordAt rhs idx.toNat)) := by
  constructor
  · refine fun h => ⟨fun i hi hmem => h i hi (List.mem_append_left _ hmem), fun hidx => ?_⟩
    refine h _ hidx (List.mem_append_right _ (List.mem_singleton.2 ?_))
    rw [BitVec.ofNat_toNat, BitVec.setWidth_eq]
  · rintro ⟨hdone, hidx⟩ i hi hmem
    rcases List.mem_append.1 hmem with hmem | hmem
    · exact hdone i hi hmem
    · have htoNat : idx.toNat = i := by
        rw [← List.mem_singleton.1 hmem, BitVec.toNat_ofNat, Nat.mod_eq_of_lt (by omega)]
      rw [← htoNat]
      exact hidx (by omega)

/-- The buffers of a comparison, which may overlap. -/
structure CompareBuffers (ram : Ram) (decoy_addr lhs rhs : Word) (n : ℕ) : Prop where
  hlhs : Buffer ram lhs n
  hrhs : Buffer ram rhs n
  hdecoys : Buffer ram decoy_addr 8
  lhs_decoys : Apart lhs n decoy_addr 8
  rhs_decoys : Apart rhs n decoy_addr 8

/-- The memory with filled decoys, and what the two words tell after the rounds `done`. -/
structure Compared (ram filled : Ram) (lhs rhs : Word) (n : ℕ) (done : List Word)
    (acc : Word × Word) (ram' : Ram) : Prop where
  same : ram' = filled
  zeros : acc.1 = 0#32 ↔ SameAt ram lhs rhs n done
  ones : acc.2 = wordMax ↔ SameAt ram lhs rhs n done

theorem Compared.round {lhs rhs : Word} {filled : Ram} (hlen : word_len.toNat < 2 ^ 29)
    (hbuffers : CompareBuffers ram decoy_addr lhs rhs word_len.toNat)
    (hfilled : ∀ j < 8, filled (wordAt decoy_addr j) = some memeqDecoy)
    (hframe : ∀ x, ¬ InBuffer decoy_addr 8 x → filled x = ram x) {done : List Word}
    {acc : Word × Word} {ram' : Ram}
    (h : Compared ram filled lhs rhs word_len.toNat done acc ram') {idx : Word}
    (hidx : idx.toNat < 2 ^ 29) : ∃ acc',
      (memeqRound decoy_addr lhs rhs (word_len * 4) idx acc).run ram' = some (acc', ram') ∧
      Compared ram filled lhs rhs word_len.toNat (done ++ [idx]) acc' ram' := by
  obtain rfl := h.same
  have hword : ∀ ptr j, Buffer ram ptr word_len.toNat → Apart ptr word_len.toNat decoy_addr 8 →
      j < 8 → ∃ v, ram' (roundWord decoy_addr ptr word_len idx j) = some v ∧
        if idx.toNat < word_len.toNat then ram (wordAt ptr idx.toNat) = some v
        else v = memeqDecoy := by
    intro ptr j hptr hapart hj
    rcases Nat.lt_or_ge idx.toNat word_len.toNat with hlt | hge
    · obtain ⟨v, hv⟩ := Option.isSome_iff_exists.1 (hptr.there _ hlt)
      refine ⟨v, ?_, ?_⟩
      · rw [roundWord_of_lt hlt, hframe _ (hapart _ (inBuffer_wordAt hlt)), hv]
      · rw [if_pos hlt, hv]
    · obtain ⟨k, hk, heq⟩ := inBuffer_roundWord hge hidx decoy_addr ptr hj
      exact ⟨memeqDecoy, by rw [heq, hfilled k hk], by rw [if_neg (by omega)]⟩
  obtain ⟨a, ha, ha'⟩ := hword lhs (idx.toNat % 8) hbuffers.hlhs hbuffers.lhs_decoys
    (Nat.mod_lt _ (by decide))
  obtain ⟨b, hb, hb'⟩ := hword rhs ((idx.toNat + 4) % 8) hbuffers.hrhs hbuffers.rhs_decoys
    (Nat.mod_lt _ (by decide))
  have hab : a = b ↔
      (idx.toNat < word_len.toNat → ram (wordAt lhs idx.toNat) = ram (wordAt rhs idx.toNat)) := by
    split_ifs at ha' hb' with hlt
    · rw [ha', hb', Option.some_inj]
      exact ⟨fun h _ => h, fun h => h hlt⟩
    · exact iff_of_true (ha'.trans hb'.symm) fun h => absurd h hlt
  refine ⟨(acc.1 ||| (a ^^^ b), acc.2 &&& (a ^^^ ~~~b)), ?_, rfl, ?_, ?_⟩
  · rw [run_memeqRound hbuffers.hdecoys.aligned hlen (by omega) hbuffers.hlhs.aligned
      hbuffers.hrhs.aligned, ha, Option.bind_some, hb, Option.map_some]
  · rw [or_xor_eq_zero, h.zeros, hab, sameAt_concat hlen]
  · rw [and_xor_not_eq_max, h.ones, hab, sameAt_concat hlen]

theorem exists_run_hardenedMemeqAt (hlen : word_len.toNat < 2 ^ 29)
    (hdraws : ∀ idx ∈ draws, idx.toNat < 2 ^ 29)
    (hvisit : ∀ i < word_len.toNat, BitVec.ofNat 32 i ∈ draws) {lhs rhs : Word}
    (hbuffers : CompareBuffers ram decoy_addr lhs rhs word_len.toNat) :
    ∃ ram', (hardenedMemeqAt decoy_addr lhs rhs word_len draws).run ram =
        some (if ∀ i < word_len.toNat, ram (wordAt lhs i) = ram (wordAt rhs i)
          then kHardenedBoolTrue else kHardenedBoolFalse, ram') ∧
      ∀ x, ¬ InBuffer decoy_addr 8 x → ram' x = ram x := by
  obtain ⟨filled, hfill, hfilled, hframe⟩ := exists_run_fill hbuffers.hdecoys le_rfl
  have hround : ∀ done, ∀ idx ∈ draws, ∀ acc ram',
      Compared ram filled lhs rhs word_len.toNat done acc ram' → ∃ acc' ram'',
        (memeqRound decoy_addr lhs rhs (word_len * 4) idx acc).run ram' = some (acc', ram'') ∧
        Compared ram filled lhs rhs word_len.toNat (done ++ [idx]) acc' ram'' :=
    fun _ idx hidx _ ram' h =>
      (h.round hlen hbuffers hfilled hframe (hdraws idx hidx)).imp fun _ h => ⟨ram', h⟩
  have hnil : SameAt ram lhs rhs word_len.toNat [] := fun _ _ h => absurd h List.not_mem_nil
  obtain ⟨⟨zeros, ones⟩, ram', hrun, h⟩ := exists_run_orderLoop
    (Compared ram filled lhs rhs word_len.toNat)
    (fun _ idx acc => memeqRound decoy_addr lhs rhs (word_len * 4) idx acc) hround
    (s := (0, wordMax)) ⟨rfl, iff_of_true rfl hnil, iff_of_true rfl hnil⟩
  have hall : SameAt ram lhs rhs word_len.toNat draws ↔
      ∀ i < word_len.toNat, ram (wordAt lhs i) = ram (wordAt rhs i) :=
    ⟨fun h i hi => h i hi (hvisit i hi), fun h i hi _ => h i hi⟩
  have hzeros := h.zeros.trans hall
  have hones := h.ones.trans hall
  refine ⟨ram', ?_, fun x hx => by rw [h.same, hframe x hx]⟩
  rw [hardenedMemeqAt, StateT.run_bind, hfill, Option.bind_eq_bind, Option.bind_some,
    StateT.run_bind, hrun, Option.bind_eq_bind, Option.bind_some]
  simp only at hzeros hones ⊢
  by_cases hsame : ∀ i < word_len.toNat, ram (wordAt lhs i) = ram (wordAt rhs i)
  · rw [if_pos hsame]
    change (if zeros = 0#32 then _ else _ : RamM Word).run ram' = _
    rw [if_pos (hzeros.2 hsame), if_pos (hones.2 hsame)]
    rfl
  · rw [if_neg hsame]
    change (if zeros = 0#32 then _ else _ : RamM Word).run ram' = _
    rw [if_neg (fun h => hsame (hzeros.1 h)), if_pos (fun h => hsame (hones.1 h))]
    rfl

end Functions

/-! ### The order that there is -/

theorem mem_drawsFrom (n : ℕ) (ctx : RandomOrder) (idx : Word) :
    idx ∈ ctx.drawsFrom n ↔ ∃ i, ctx.state ≤ i ∧ i < ctx.state + n ∧ idx = BitVec.ofNat 32 i := by
  induction n generalizing ctx with
  | zero => exact iff_of_false List.not_mem_nil fun ⟨i, hle, hlt, _⟩ => by omega
  | succ n ih =>
    rw [RandomOrder.drawsFrom]
    simp only [randomOrderAdvance]
    rw [List.mem_cons, ih]
    constructor
    · rintro (rfl | ⟨i, hle, hlt, rfl⟩)
      · exact ⟨ctx.state, le_rfl, by omega, rfl⟩
      · simp only at hle hlt
        exact ⟨i, by omega, by omega, rfl⟩
    · rintro ⟨i, hle, hlt, rfl⟩
      rcases Nat.eq_or_lt_of_le hle with rfl | hlt'
      · exact .inl rfl
      · exact .inr ⟨i, hlt', by simp only; omega, rfl⟩

/-- The order goes over twice the length. -/
theorem mem_randomOrderDraws (word_len idx : Word) :
    idx ∈ randomOrderDraws word_len ↔ ∃ i < 2 * word_len.toNat, idx = BitVec.ofNat 32 i := by
  refine (mem_drawsFrom _ _ idx).trans (exists_congr fun i => ?_)
  simp only [randomOrderInit, Nat.zero_le, true_and, Nat.zero_add, Nat.mul_comm]

/-! ### What the functions are for -/

/-- With the order `draws`, an index inside of the buffers selects the buffers and any other one the
decoys; a copy has the words of its source, a fill the random words of its rounds, and a comparison
tells whether the words are the same. No check fails, and nothing else but decoys changes. -/
structure HardenedCorrect (word_len : Word) (draws : List Word) : Prop where
  selects : ∀ idx ∈ draws, ∀ real decoy, selectPointer (idx * 4) (word_len * 4) real decoy =
    if idx.toNat < word_len.toNat then real else decoy
  copies : ∀ (ram : Ram) (decoy_addr dest src : Word),
    CopyBuffers ram decoy_addr dest src word_len.toNat →
    ∃ ram', (hardenedMemcpy decoy_addr dest src word_len draws).run ram = some ((), ram') ∧
      (∀ i < word_len.toNat, ram' (wordAt dest i) = ram (wordAt src i)) ∧
      ∀ x, ¬ InBuffer dest word_len.toNat x → ¬ InBuffer decoy_addr 8 x → ram' x = ram x
  shreds : ∀ (ram : Ram) (decoy_addr dest : Word), Buffer ram dest word_len.toNat →
    Buffer ram decoy_addr 8 → Apart dest word_len.toNat decoy_addr 8 → ∀ random : ℕ → Word,
    ∃ ram', (hardenedMemshred decoy_addr dest word_len random draws).run ram = some ((), ram') ∧
      (∀ i < word_len.toNat, ∃ k, draws[k]? = some (BitVec.ofNat 32 i) ∧
        ram' (wordAt dest i) = some (random k)) ∧
      ∀ x, ¬ InBuffer dest word_len.toNat x → ¬ InBuffer decoy_addr 8 x → ram' x = ram x
  compares : ∀ (ram : Ram) (decoy_addr lhs rhs : Word),
    CompareBuffers ram decoy_addr lhs rhs word_len.toNat →
    ∃ ram', (hardenedMemeqAt decoy_addr lhs rhs word_len draws).run ram =
        some (if ∀ i < word_len.toNat, ram (wordAt lhs i) = ram (wordAt rhs i)
          then kHardenedBoolTrue else kHardenedBoolFalse, ram') ∧
      ∀ x, ¬ InBuffer decoy_addr 8 x → ram' x = ram x

theorem hardenedCorrect_iff {word_len : Word} (hlen : word_len.toNat < 2 ^ 29) {draws : List Word}
    (hvisit : ∀ i < word_len.toNat, BitVec.ofNat 32 i ∈ draws)
    (hbound : ∀ idx ∈ draws, idx.toNat < 2 ^ 30) :
    HardenedCorrect word_len draws ↔ ∀ idx ∈ draws, idx.toNat < 2 ^ 29 := by
  constructor
  · intro h idx hidx
    by_contra hge
    have hselect := h.selects idx hidx 1 0
    rw [selectPointer_eq (hbound idx hidx) hlen, if_pos (.inr (by omega)),
      if_neg (by omega)] at hselect
    exact absurd hselect (by decide)
  · intro hdraws
    refine ⟨fun idx hidx real decoy => ?_,
      fun _ _ _ _ hbuffers => exists_run_hardenedMemcpy hlen hdraws hvisit hbuffers,
      fun _ _ _ hdest hdecoys hapart =>
        exists_run_hardenedMemshred hlen hdraws hvisit hdest hdecoys hapart,
      fun _ _ _ _ hbuffers => exists_run_hardenedMemeqAt hlen hdraws hvisit hbuffers⟩
    have hlt := hdraws idx hidx
    rw [selectPointer_eq (by omega) hlen]
    exact if_congr (or_iff_left (by omega)) rfl rfl

theorem hardenedCorrect_randomOrderDraws_iff {word_len : Word} (hlen : word_len.toNat < 2 ^ 29) :
    HardenedCorrect word_len (randomOrderDraws word_len) ↔ word_len.toNat ≤ 2 ^ 28 := by
  have htoNat : ∀ i < 2 * word_len.toNat, (BitVec.ofNat 32 i).toNat = i := fun i hi => by
    rw [BitVec.toNat_ofNat, Nat.mod_eq_of_lt (by omega)]
  refine (hardenedCorrect_iff hlen ?_ ?_).trans ?_
  · exact fun i hi => (mem_randomOrderDraws _ _).2 ⟨i, by omega, rfl⟩
  · intro idx hidx
    obtain ⟨i, hi, rfl⟩ := (mem_randomOrderDraws _ _).1 hidx
    rw [htoNat i hi]
    omega
  · constructor
    · intro h
      by_contra hgt
      have hlt := h _ ((mem_randomOrderDraws _ _).2 ⟨2 ^ 29, by omega, rfl⟩)
      exact absurd hlt (by decide)
    · intro hle idx hidx
      obtain ⟨i, hi, rfl⟩ := (mem_randomOrderDraws _ _).1 hidx
      rw [htoNat i hi]
      omega

/-- For every length below `2 ^ 29` and every order that visits the buffers and whose byte indices
do not wrap around, the functions do what they are for exactly when no byte index has its top bit
set; for the order that there is, exactly up to `2 ^ 28` words. -/
theorem hardened_memory_correct_iff {word_len : Word} (hlen : word_len.toNat < 2 ^ 29) :
    (∀ draws : List Word, (∀ i < word_len.toNat, BitVec.ofNat 32 i ∈ draws) →
      (∀ idx ∈ draws, idx.toNat < 2 ^ 30) →
      (HardenedCorrect word_len draws ↔ ∀ idx ∈ draws, idx.toNat < 2 ^ 29)) ∧
    (HardenedCorrect word_len (randomOrderDraws word_len) ↔ word_len.toNat ≤ 2 ^ 28) :=
  ⟨fun _ => hardenedCorrect_iff hlen, hardenedCorrect_randomOrderDraws_iff hlen⟩

theorem hardened_memory_correct_at : HardenedCorrect 8 (randomOrderDraws 8) :=
  (hardened_memory_correct_iff (by decide : (8 : Word).toNat < 2 ^ 29)).2.2 (by decide)

/-- The words of a buffer. -/
def bufferWords (ram : Ram) (ptr : Word) (n : ℕ) : List Word :=
  (List.range n).map fun i => (ram (wordAt ptr i)).getD 0

theorem bufferWords_eq_iff {ram : Ram} {lhs rhs : Word} {n : ℕ} (hlhs : Buffer ram lhs n)
    (hrhs : Buffer ram rhs n) : bufferWords ram lhs n = bufferWords ram rhs n ↔
      ∀ i < n, ram (wordAt lhs i) = ram (wordAt rhs i) := by
  rw [bufferWords, bufferWords, List.map_inj_left]
  refine forall_congr' fun i => ?_
  rw [List.mem_range]
  refine forall_congr' fun hi => ?_
  obtain ⟨a, ha⟩ := Option.isSome_iff_exists.1 (hlhs.there i hi)
  obtain ⟨b, hb⟩ := Option.isSome_iff_exists.1 (hrhs.there i hi)
  rw [ha, hb, Option.getD_some, Option.getD_some, Option.some_inj]

/-- The comparison with pointers is the one of the lists of words. -/
theorem hardenedMemeqAt_eq_hardenedMemeq {ram : Ram} {decoy_addr lhs rhs word_len : Word}
    (hlen : word_len.toNat ≤ 2 ^ 28)
    (hbuffers : CompareBuffers ram decoy_addr lhs rhs word_len.toNat) :
    ((hardenedMemeqAt decoy_addr lhs rhs word_len (randomOrderDraws word_len)).run ram).map
        Prod.fst =
      hardenedMemeq (bufferWords ram lhs word_len.toNat) (bufferWords ram rhs word_len.toNat) := by
  have hlt : word_len.toNat < 2 ^ 29 := by omega
  have hcorrect := (hardenedCorrect_randomOrderDraws_iff hlt).2 hlen
  obtain ⟨ram', hrun, -⟩ := hcorrect.compares ram decoy_addr lhs rhs hbuffers
  have hlength : (bufferWords ram rhs word_len.toNat).length =
      (bufferWords ram lhs word_len.toNat).length := by
    rw [bufferWords, bufferWords, List.length_map, List.length_map]
  rw [hrun, hardenedMemeq_eq hlength, Option.map_some]
  exact congrArg some (if_congr (bufferWords_eq_iff hbuffers.hlhs hbuffers.hrhs).symm rfl rfl)

/-- The memory of a buffer of `2 ^ 28 + 1` words and of decoys. -/
def bufferAndDecoys : Ram := fun x =>
  if 0x4000 ≤ x.toNat ∧ x.toNat < 0x10004001 ∨ 0x3fffc000 ≤ x.toNat ∧ x.toNat < 0x3fffc008
  then some 0 else none

/-- One word more, and a fill stores to a word outside of its buffers. -/
theorem hardenedMemshred_leaves_buffer :
    Buffer bufferAndDecoys 0x10000 0x10000001 ∧ Buffer bufferAndDecoys 0xffff0000 8 ∧
      Apart 0x10000 0x10000001 0xffff0000 8 ∧
      (hardenedMemshred 0xffff0000 0x10000 0x10000001 (fun _ => hardenedMemshredRandomWord)
        (randomOrderDraws 0x10000001)).run bufferAndDecoys = none := by
  have hbuffer : ∀ i ≤ 2 ^ 29, (wordAt 0x10000 i).toNat = 0x4000 + i := fun i hi =>
    toNat_wordAt (by change 0x4000 + i < 2 ^ 30; omega)
  have hdecoys : ∀ j < 8, (wordAt 0xffff0000 j).toNat = 0x3fffc000 + j := fun j hj =>
    toNat_wordAt (by change 0x3fffc000 + j < 2 ^ 30; omega)
  refine ⟨⟨by decide, fun i hi => ?_⟩, ⟨by decide, fun j hj => ?_⟩, ?_, ?_⟩
  · rw [bufferAndDecoys, hbuffer i (by omega), if_pos (by omega)]
    rfl
  · rw [bufferAndDecoys, hdecoys j hj, if_pos (by omega)]
    rfl
  · rintro x ⟨i, hi, rfl⟩ ⟨j, hj, heq⟩
    have htoNat := congrArg BitVec.toNat heq
    rw [hbuffer i (by omega), hdecoys j hj] at htoNat
    omega
  · have hmem : (0x20000000 : Word) ∈ randomOrderDraws 0x10000001 :=
      (mem_randomOrderDraws _ _).2 ⟨2 ^ 29, by decide, rfl⟩
    have hfail : ∀ ram : Ram, (∀ x, (ram x).isSome = (bufferAndDecoys x).isSome) → ∀ value,
        (memshredRound 0xffff0000 0x10000 (0x10000001 * 4) value 0x20000000).run ram = none := by
      intro ram hram value
      rw [run_memshredRound (by decide) (by decide) (by decide) (by decide), roundWord,
        if_pos (.inr (by decide))]
      have hnone : (bufferAndDecoys (wordAt 0x10000 (2 ^ 29))).isSome = false := by
        rw [bufferAndDecoys, hbuffer _ le_rfl, if_neg (by omega)]
        rfl
      have hword := (hram _).trans hnone
      rw [Option.isSome_eq_false_iff, Option.isNone_iff_eq_none] at hword
      exact congrArg _ hword
    have hloop := Traverse.run_foldlM_eq_none (s := bufferAndDecoys) (b := (0, ()))
      (f := fun (r : ℕ × Unit) idx => do
        return (r.1 + 1, ← memshredRound 0xffff0000 0x10000 (0x10000001 * 4)
          hardenedMemshredRandomWord idx))
      (fun ram : Ram => ∀ x, (ram x).isSome = (bufferAndDecoys x).isSome)
      (fun r idx ram r' ram' hI hrun x => ?_) hmem (fun r ram hI => ?_) fun _ => rfl
    · rw [hardenedMemshred, orderLoop, StateT.run_bind, hloop]
      rfl
    · rw [StateT.run_bind] at hrun
      obtain ⟨⟨⟨⟩, ram₁⟩, hround, heq⟩ := Option.bind_eq_some_iff.1 hrun
      obtain ⟨-, rfl⟩ := Prod.mk.inj (Option.some.inj heq)
      exact (isSome_of_run_write32 hround x).trans (hI x)
    · rw [StateT.run_bind, hfail ram hI]
      rfl

end SecureBoot
