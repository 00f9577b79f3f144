import Mathlib.Data.List.Forall2
import Mathlib.Data.List.Induction

/-! Loops over a list in any lawful monad, with and without an early exit, cut into blocks: a loop
whose round handles a block at once is the loop over the elements of the blocks. -/

namespace Traverse

variable {m : Type → Type} [Monad m] [LawfulMonad m] {α β γ : Type}

theorem findSomeM?_append (f : α → m (Option β)) (l l' : List α) :
    (l ++ l').findSomeM? f = l.findSomeM? f >>= fun
      | some b => pure (some b)
      | none => l'.findSomeM? f := by
  induction l with
  | nil => rw [List.nil_append, List.findSomeM?_nil, pure_bind]
  | cons a l ih =>
    rw [List.cons_append, List.findSomeM?_cons, List.findSomeM?_cons, bind_assoc]
    refine bind_congr fun b => ?_
    cases b with
    | some b => rw [pure_bind]
    | none => exact ih

theorem findSomeM?_flatMap (f : β → m (Option γ)) (g : α → List β) (l : List α) :
    (l.flatMap g).findSomeM? f = l.findSomeM? fun a => (g a).findSomeM? f := by
  induction l with
  | nil => rfl
  | cons a l ih =>
    rw [List.flatMap_cons, findSomeM?_append, List.findSomeM?_cons, ih]
    exact bind_congr fun b => by cases b <;> rfl

/-- A function of what a loop finds. -/
theorem findSomeM?_map (f : α → m (Option β)) (g : β → γ) (l : List α) :
    (l.findSomeM? fun a => Option.map g <$> f a) = Option.map g <$> l.findSomeM? f := by
  induction l with
  | nil => rw [List.findSomeM?_nil, List.findSomeM?_nil, map_pure, Option.map_none]
  | cons a l ih =>
    rw [List.findSomeM?_cons, List.findSomeM?_cons, bind_map_left, map_bind]
    refine bind_congr fun b => ?_
    cases b with
    | some b => exact (map_pure (f := m) (Option.map g) (some b)).symm
    | none => exact ih

omit [LawfulMonad m] in
theorem findSomeM?_congr {f g : α → m (Option β)} {l : List α} (h : ∀ a ∈ l, f a = g a) :
    l.findSomeM? f = l.findSomeM? g := by
  induction l with
  | nil => rfl
  | cons a l ih =>
    obtain ⟨ha, hl⟩ := List.forall_mem_cons.1 h
    rw [List.findSomeM?_cons, List.findSomeM?_cons, ha, ih hl]

omit [LawfulMonad m] in
theorem forM_cons (f : α → m PUnit) (a : α) (l : List α) :
    (a :: l).forM f = f a >>= fun _ => l.forM f := rfl

theorem forM_append (f : α → m PUnit) (l l' : List α) :
    (l ++ l').forM f = l.forM f >>= fun _ => l'.forM f := List.forM_append

theorem forM_flatMap (f : β → m PUnit) (g : α → List β) (l : List α) :
    (l.flatMap g).forM f = l.forM fun a => (g a).forM f := by
  induction l with
  | nil => rfl
  | cons a l ih =>
    rw [List.flatMap_cons, forM_append, ih]
    rfl

omit [LawfulMonad m] in
theorem forM_congr {f g : α → m PUnit} {l : List α} (h : ∀ a ∈ l, f a = g a) :
    l.forM f = l.forM g := by
  induction l with
  | nil => rfl
  | cons a l ih =>
    obtain ⟨ha, hl⟩ := List.forall_mem_cons.1 h
    exact (congrArg (· >>= fun _ => l.forM f) ha).trans (bind_congr fun _ => ih hl)

/-- A loop over one more element. -/
theorem foldlM_concat {f : β → α → m β} {l : List α} {b b' : β} (h : l.foldlM f b = pure b')
    (a : α) : (l ++ [a]).foldlM f b = f b' a := by
  rw [List.foldlM_append, h, pure_bind, List.foldlM_cons]
  exact bind_pure _

/-! ### Ranges in blocks -/

/-- A range is its blocks of `k` one after another. -/
theorem range'_flatMap (i n k : ℕ) :
    (List.range' i n k).flatMap (List.range' · k) = List.range' i (k * n) := by
  induction n generalizing i with
  | zero => rfl
  | succ n ih =>
    rw [List.range'_succ, List.flatMap_cons, ih, List.range'_append_1, Nat.mul_succ,
      Nat.add_comm k]

/-- A range with a part in blocks and what is in front of it and behind it. -/
theorem range_eq_blocks {b k n len : ℕ} (h : b + k * n ≤ len) :
    List.range len = List.range' 0 b ++ ((List.range' b n k).flatMap (List.range' · k) ++
      List.range' (b + k * n) (len - (b + k * n))) := by
  have hrest := @List.range'_append_1 0 b (k * n + (len - (b + k * n)))
  rw [Nat.zero_add] at hrest
  rw [range'_flatMap, List.range'_append_1, hrest, List.range_eq_range',
    show b + (k * n + (len - (b + k * n))) = len by omega]

/-! ### Loops that may fail -/

section Partial

variable {σ : Type} {f : β → α → StateT σ Option β}

/-- A loop succeeds when each of its rounds does from what the rounds before it leave behind. -/
theorem exists_run_foldlM (I : List α → β → σ → Prop) {l : List α}
    (h : ∀ done, ∀ a ∈ l, ∀ b s, I done b s →
      ∃ b' s', (f b a).run s = some (b', s') ∧ I (done ++ [a]) b' s')
    (done : List α) (b : β) {s : σ} (hI : I done b s) :
    ∃ b' s', (l.foldlM f b).run s = some (b', s') ∧ I (done ++ l) b' s' := by
  induction l generalizing done b s with
  | nil => exact ⟨b, s, rfl, by rwa [List.append_nil]⟩
  | cons a l ih =>
    obtain ⟨b₁, s₁, hrun, hI₁⟩ := h done a List.mem_cons_self b s hI
    obtain ⟨b₂, s₂, hrun₂, hI₂⟩ :=
      ih (fun done a ha => h done a (List.mem_cons_of_mem _ ha)) (done ++ [a]) b₁ hI₁
    refine ⟨b₂, s₂, ?_, ?_⟩
    · rw [List.foldlM_cons, StateT.run_bind, hrun]
      exact hrun₂
    · rwa [List.append_assoc] at hI₂

/-- A loop fails when a round fails from any state that the rounds can leave behind. -/
theorem run_foldlM_eq_none (I : σ → Prop) {l : List α}
    (hstep : ∀ b a s b' s', I s → (f b a).run s = some (b', s') → I s') {a : α} (ha : a ∈ l)
    (hfail : ∀ b s, I s → (f b a).run s = none) {b : β} {s : σ} (hI : I s) :
    (l.foldlM f b).run s = none := by
  induction l generalizing b s with
  | nil => exact absurd ha List.not_mem_nil
  | cons a' l ih =>
    rw [List.foldlM_cons, StateT.run_bind]
    rcases List.mem_cons.1 ha with rfl | ha
    · rw [hfail b s hI]
      rfl
    · cases hrun : (f b a').run s with
      | none => rfl
      | some r => exact ih ha (hstep b a' s r.1 r.2 hI hrun)

end Partial

section Errors

/-! ### Runs without an error -/

variable {ε : Type}

theorem bind_ok {x : Except ε α} {f : α → Except ε β} {b : β}
    (h : x >>= f = .ok b) : ∃ a, x = .ok a ∧ f a = .ok b := by
  cases x with
  | error e => cases h
  | ok a => exact ⟨a, rfl, h⟩

/-- A loop keeps what each of its rounds keeps. -/
theorem foldlM_invariant {f : β → α → Except ε β} {I : β → Prop}
    (hstep : ∀ b a b', I b → f b a = .ok b' → I b') {l : List α} {b b' : β} (hb : I b)
    (h : l.foldlM f b = .ok b') : I b' := by
  induction l generalizing b with
  | nil =>
    cases h
    exact hb
  | cons a l ih =>
    rw [List.foldlM_cons] at h
    obtain ⟨b₁, hb₁, h⟩ := bind_ok h
    exact ih (hstep b a b₁ hb hb₁) h

/-- A loop over the elements with their positions. -/
theorem foldlM_zipIdx_invariant {f : β → α × ℕ → Except ε β} {I : ℕ → β → Prop} {l : List α}
    (hstep : ∀ i a, l[i]? = some a → ∀ b b', I i b → f b (a, i) = .ok b' → I (i + 1) b') {b b' : β}
    (hb : I 0 b) (h : l.zipIdx.foldlM f b = .ok b') : I l.length b' := by
  induction l using List.reverseRecOn generalizing b' with
  | nil =>
    cases h
    exact hb
  | append_singleton l a ih =>
    rw [List.zipIdx_append, List.foldlM_append] at h
    obtain ⟨b₁, hb₁, h⟩ := bind_ok h
    rw [List.zipIdx_singleton, Nat.zero_add, List.foldlM_cons] at h
    obtain ⟨b₂, hb₂, h⟩ := bind_ok h
    cases h
    rw [List.length_append, List.length_singleton]
    refine hstep _ a List.getElem?_concat_length b₁ _ (ih (fun i a ha => hstep i a ?_) hb₁) hb₂
    rw [List.getElem?_append_left (List.getElem?_eq_some_iff.mp ha).1, ha]

theorem forall_of_forM {f : α → Except ε Unit} {l : List α} (h : l.forM f = .ok ()) :
    ∀ a ∈ l, f a = .ok () := by
  induction l with
  | nil => simp
  | cons a l ih =>
    rw [forM_cons] at h
    obtain ⟨⟨⟩, ha, h⟩ := bind_ok h
    exact List.forall_mem_cons.mpr ⟨ha, ih h⟩

theorem mapM_eq_ok {f : α → Except ε β} {g : α → β} {l : List α} (h : ∀ a ∈ l, f a = .ok (g a)) :
    l.mapM f = .ok (l.map g) := by
  induction l with
  | nil => rfl
  | cons a l ih =>
    obtain ⟨ha, hl⟩ := List.forall_mem_cons.mp h
    rw [List.mapM_cons, ha, ih hl]
    rfl

theorem forall₂_of_mapM {f : α → Except ε β} {l : List α} {l' : List β}
    (h : l.mapM f = .ok l') : List.Forall₂ (fun a b => f a = .ok b) l l' := by
  induction l generalizing l' with
  | nil =>
    rw [List.mapM_nil] at h
    cases h
    exact List.Forall₂.nil
  | cons a l ih =>
    rw [List.mapM_cons] at h
    obtain ⟨b, hb, h⟩ := bind_ok h
    obtain ⟨bs, hbs, h⟩ := bind_ok h
    cases h
    exact List.Forall₂.cons hb (ih hbs)

/-- Each result comes from an element. -/
theorem exists_of_mem_mapM {f : α → Except ε β} {l : List α} {l' : List β} (h : l.mapM f = .ok l')
    {b : β} (hb : b ∈ l') : ∃ a ∈ l, f a = .ok b := by
  have hall := forall₂_of_mapM h
  clear h
  induction hall with
  | nil => cases hb
  | cons hab _ ih =>
    cases hb with
    | head => exact ⟨_, List.mem_cons_self, hab⟩
    | tail _ hb => exact (ih hb).imp fun a ha => ⟨List.mem_cons_of_mem _ ha.1, ha.2⟩

/-- Each element has a result. -/
theorem exists_mem_mapM {f : α → Except ε β} {l : List α} {l' : List β} (h : l.mapM f = .ok l')
    {a : α} (ha : a ∈ l) : ∃ b ∈ l', f a = .ok b := by
  have hall := forall₂_of_mapM h
  clear h
  induction hall with
  | nil => cases ha
  | cons hab _ ih =>
    cases ha with
    | head => exact ⟨_, List.mem_cons_self, hab⟩
    | tail _ ha => exact (ih ha).imp fun b hb => ⟨List.mem_cons_of_mem _ hb.1, hb.2⟩

theorem exists_of_forall₂ {R : α → β → Prop} {l : List α} {l' : List β}
    (h : List.Forall₂ R l l') {b : β} (hb : b ∈ l') : ∃ a, R a b := by
  induction h with
  | nil => cases hb
  | cons hab _ ih =>
    cases hb with
    | head => exact ⟨_, hab⟩
    | tail _ hb => exact ih hb

end Errors

end Traverse
