import SecureBoot.Prim.SyncReqAck

/-! The NRZ protocol transfers each request once. Every flop of the module carries the
parity of a count of handshakes, and along the loop from the source over the
destination and back the counts only fall, by one in all. -/

namespace SecureBoot

open Clocked

/-- A line that carries the parity of a count. -/
def Carries (line : Bool) (count : ℕ) : Prop := line = true ↔ count % 2 = 1

/-- The source after `n` handshakes, with `p` requests pending; its synchronizer has
sampled the counts `b₁` and, before, `b₂`. -/
structure NrzSrcAt (s : NrzSrc) (n p b₁ b₂ : ℕ) : Prop where
  fsm : s.fsm = .ODD ↔ n % 2 = 1
  srcReqQ : Carries s.srcReqQ (n + p)
  intq : Carries s.ackSync.intq b₁
  q : Carries s.ackSync.q b₂

/-- The destination after `n` handshakes; its synchronizer has sampled the counts `a₁`
and, before, `a₂`. -/
structure NrzDstAt (d : NrzDst) (n a₁ a₂ : ℕ) : Prop where
  fsm : d.fsm = .ODD ↔ n % 2 = 1
  dstAckQ : Carries d.dstAckQ n
  intq : Carries d.reqSync.intq a₁
  q : Carries d.reqSync.q a₂

section Clock

variable {s : NrzSrc} {d : NrzDst} {n p a₁ a₂ b₁ b₂ x : ℕ} {sample : Bool}

theorem NrzSrcAt.srcAckO (h : NrzSrcAt s n p b₁ b₂) (hle : n ≤ b₂) (hge : b₂ ≤ n + 1) :
    s.srcAckO = true ↔ b₂ = n + 1 := by
  have hq := h.q
  have hfsm := h.fsm
  unfold Carries at hq
  unfold NrzSrc.srcAckO
  cases hf : s.fsm with
  | EVEN =>
    rw [hf] at hfsm
    simp only [reduceCtorEq, false_iff] at hfsm
    simp only [hq]
    omega
  | ODD =>
    rw [hf] at hfsm
    simp only [true_iff] at hfsm
    rw [Bool.not_eq_true', ← Bool.not_eq_true, hq]
    omega

theorem NrzDstAt.dstReqO (h : NrzDstAt d n a₁ a₂) (hle : n ≤ a₂) (hge : a₂ ≤ n + 1) :
    d.dstReqO = true ↔ a₂ = n + 1 := by
  have hq := h.q
  have hfsm := h.fsm
  unfold Carries at hq
  unfold NrzDst.dstReqO
  cases hf : d.fsm with
  | EVEN =>
    rw [hf] at hfsm
    simp only [reduceCtorEq, false_iff] at hfsm
    simp only [hq]
    omega
  | ODD =>
    rw [hf] at hfsm
    simp only [true_iff] at hfsm
    rw [Bool.not_eq_true', ← Bool.not_eq_true, hq]
    omega

/-- A source edge without a handshake: the request becomes pending when it is made. -/
theorem NrzSrcAt.clock_idle (h : NrzSrcAt s n p b₁ b₂) {src_req_i : Bool}
    (hidle : (src_req_i && s.srcAckO) = false) (hx : Carries sample x) :
    NrzSrcAt (s.clock src_req_i sample) n src_req_i.toNat x b₁ := by
  have hfsm := h.fsm
  unfold NrzSrc.clock
  rw [hidle]
  cases hf : s.fsm with
  | EVEN =>
    rw [hf] at hfsm
    simp only [reduceCtorEq, false_iff] at hfsm
    refine ⟨by simp; omega, ?_, hx, h.intq⟩
    unfold Carries
    cases src_req_i <;> simp <;> omega
  | ODD =>
    rw [hf] at hfsm
    simp only [true_iff] at hfsm
    refine ⟨by simp; omega, ?_, hx, h.intq⟩
    unfold Carries
    cases src_req_i <;> simp <;> omega

/-- A source edge with a handshake. -/
theorem NrzSrcAt.clock_ack (h : NrzSrcAt s n p b₁ b₂) {src_req_i : Bool}
    (hack : (src_req_i && s.srcAckO) = true) (hx : Carries sample x) :
    NrzSrcAt (s.clock src_req_i sample) (n + 1) 0 x b₁ := by
  have hfsm := h.fsm
  have hreq : src_req_i = true := (Bool.and_eq_true_iff.mp hack).1
  unfold NrzSrc.clock
  rw [hack, hreq]
  cases hf : s.fsm with
  | EVEN =>
    rw [hf] at hfsm
    simp only [reduceCtorEq, false_iff] at hfsm
    refine ⟨by simp; omega, ?_, hx, h.intq⟩
    unfold Carries
    simp
    omega
  | ODD =>
    rw [hf] at hfsm
    simp only [true_iff] at hfsm
    refine ⟨by simp; omega, ?_, hx, h.intq⟩
    unfold Carries
    simp
    omega

/-- A destination edge; it acknowledges only when it has a request. -/
theorem NrzDstAt.clock (h : NrzDstAt d n a₁ a₂) {dst_ack_i : Bool}
    (hack : dst_ack_i = true → d.dstReqO = true) (hx : Carries sample x) :
    NrzDstAt (d.clock dst_ack_i sample) (n + dst_ack_i.toNat) x a₁ := by
  have hfsm := h.fsm
  have hhs : (d.dstReqO && dst_ack_i) = dst_ack_i := by
    cases hd : dst_ack_i with
    | false => exact Bool.and_false _
    | true => rw [hack hd, Bool.and_true]
  unfold NrzDst.clock
  rw [hhs]
  cases hf : d.fsm with
  | EVEN =>
    rw [hf] at hfsm
    simp only [reduceCtorEq, false_iff] at hfsm
    refine ⟨?_, ?_, hx, h.intq⟩
    · cases dst_ack_i <;> simp <;> omega
    · unfold Carries
      cases dst_ack_i <;> simp <;> omega
  | ODD =>
    rw [hf] at hfsm
    simp only [true_iff] at hfsm
    refine ⟨?_, ?_, hx, h.intq⟩
    · cases dst_ack_i <;> simp <;> omega
    · unfold Carries
      cases dst_ack_i <;> simp <;> omega

end Clock

/-! ### The loop of counts -/

/-- The counts along the loop: from the requests made, through the synchronizer and the
handshakes of the destination, back to the handshakes of the source. -/
structure NrzCounts (nS p nD a₁ a₂ b₁ b₂ : ℕ) : Prop where
  nS_le : nS ≤ b₂
  b₂_le : b₂ ≤ b₁
  b₁_le : b₁ ≤ nD
  nD_le : nD ≤ a₂
  a₂_le : a₂ ≤ a₁
  a₁_le : a₁ ≤ nS + p
  p_le : p ≤ 1

/-- The invariant of the NRZ protocol. -/
structure NrzInv (s : ReqAckState NrzSrc NrzDst) : Prop where
  counts : ∃ a₁ a₂ b₁ b₂,
    NrzSrcAt s.src (s.log.count .src) s.pending.toNat b₁ b₂ ∧
    NrzDstAt s.dst (s.log.count .dst) a₁ a₂ ∧
    NrzCounts (s.log.count .src) s.pending.toNat (s.log.count .dst) a₁ a₂ b₁ b₂
  log : ReqAckLog s.pending s.log
  /-- A destination handshake that the source has not seen is for the pending request. -/
  served : s.pending = true → s.log.count .dst = s.log.count .src + 1 → .dst ∈ sinceRaise s.log

/-- What a source edge makes of the source, its counts and the log. -/
theorem nrz_src_edge {s : ReqAckState NrzSrc NrzDst} (hlog : ReqAckLog s.pending s.log)
    (hserved : s.pending = true → s.log.count .dst = s.log.count .src + 1 →
      .dst ∈ sinceRaise s.log) {a₁ a₂ b₁ b₂ x : ℕ}
    (hs : NrzSrcAt s.src (s.log.count .src) s.pending.toNat b₁ b₂)
    (hc : NrzCounts (s.log.count .src) s.pending.toNat (s.log.count .dst) a₁ a₂ b₁ b₂)
    {src_req_i sample : Bool} (hholds : ReqAckProtocol.srcHolds s src_req_i = true)
    (hx : Carries sample x) :
    let pending := src_req_i && !s.src.srcAckO
    let log := nrzProtocol.srcMarks s src_req_i ++ s.log
    NrzSrcAt (s.src.clock src_req_i sample) (log.count .src) pending.toNat x b₁ ∧
    log.count .src ≤ b₁ ∧
    s.log.count .src + s.pending.toNat ≤ log.count .src + pending.toNat ∧
    log.count .src + pending.toNat ≤ s.log.count .src + 1 ∧
    log.count .dst = s.log.count .dst ∧
    ReqAckLog pending log ∧
    (pending = true → log.count .dst = log.count .src + 1 → .dst ∈ sinceRaise log) := by
  obtain ⟨h₁, h₂, h₃, h₄, h₅, h₆, h₇⟩ := hc
  have hack := hs.srcAckO h₁ (by omega)
  -- an acknowledge is only ever shown for a pending request
  have hpending : s.src.srcAckO = true → s.pending = true := by
    intro h
    have hb := hack.mp h
    cases hp : s.pending with
    | true => rfl
    | false =>
      rw [hp, Bool.toNat_false] at h₆
      omega
  have hlog' := nrzProtocol.reqAckLog_src hlog src_req_i fun h => by
    have hb := hack.mp h
    have hp := hpending h
    rw [hp, Bool.toNat_true] at h₆
    exact ⟨hp, hserved hp (by omega)⟩
  cases hhs : src_req_i && s.src.srcAckO with
  | true =>
    obtain ⟨rfl, hshown⟩ := Bool.and_eq_true_iff.mp hhs
    have hp := hpending hshown
    have hb := hack.mp hshown
    have hmarks : nrzProtocol.srcMarks s true = [.src] := by
      unfold ReqAckProtocol.srcMarks
      rw [show nrzProtocol.srcAckO s.src = true from hshown, hp]
      rfl
    have hclock := hs.clock_ack hhs hx
    rw [show nrzProtocol.srcAckO s.src = true from hshown, hmarks] at hlog'
    simp only [hmarks, hshown, List.cons_append, List.nil_append, List.count_cons_self,
      Bool.not_true, Bool.and_false, Bool.toNat_false, ne_eq, reduceCtorEq, not_false_eq_true,
      List.count_cons_of_ne]
    rw [hp, Bool.toNat_true]
    exact ⟨hclock, by omega, by omega, by omega, trivial, hlog', nofun⟩
  | false =>
    have hpend : (src_req_i && !s.src.srcAckO) = src_req_i := by
      cases src_req_i with
      | false => rfl
      | true =>
        rw [Bool.true_and] at hhs
        rw [hhs]
        rfl
    have hmarks : nrzProtocol.srcMarks s src_req_i =
        if src_req_i && !s.pending then [.raise] else [] := by
      unfold ReqAckProtocol.srcMarks
      rw [show (src_req_i && nrzProtocol.srcAckO s.src) = false from hhs]
      rfl
    have hcount : ∀ mark, mark ≠ ReqAckMark.raise →
        (nrzProtocol.srcMarks s src_req_i ++ s.log).count mark = s.log.count mark := by
      intro mark hne
      rw [hmarks]
      split_ifs
      · rw [List.singleton_append, List.count_cons_of_ne hne.symm]
      · rfl
    have hclock := hs.clock_idle hhs hx
    rw [show nrzProtocol.srcAckO s.src = s.src.srcAckO from rfl, hpend] at hlog'
    simp only [hpend, hcount .src (by decide), hcount .dst (by decide)]
    refine ⟨hclock, by omega, ?_, ?_, trivial, hlog', ?_⟩
    · unfold ReqAckProtocol.srcHolds at hholds
      cases hp : s.pending with
      | false => simp
      | true =>
        rw [hp, Bool.not_true, Bool.false_or] at hholds
        exact Nat.le_of_eq (by rw [hholds])
    · have := src_req_i.toNat_le
      omega
    · intro _ hnD
      have hp : s.pending = true := by
        cases hp : s.pending with
        | true => rfl
        | false =>
          rw [hp, Bool.toNat_false] at h₆
          omega
      rw [hmarks, hp]
      simpa using hserved hp hnD

/-- What a destination edge makes of the destination, its count and the log. -/
theorem nrz_dst_edge {s : ReqAckState NrzSrc NrzDst} {a₁ a₂ y : ℕ}
    (hd : NrzDstAt s.dst (s.log.count .dst) a₁ a₂)
    (hle : s.log.count .dst ≤ a₂) (hge : a₂ ≤ s.log.count .dst + 1)
    {dst_ack_i sample : Bool} (hanswers : nrzProtocol.dstAnswers s dst_ack_i = true)
    (hy : Carries sample y) (log : List ReqAckMark)
    (hcount : log.count .dst = s.log.count .dst) :
    let log' := nrzProtocol.dstMarks s dst_ack_i ++ log
    NrzDstAt (s.dst.clock dst_ack_i sample) (log'.count .dst) y a₁ ∧
    log.count .dst ≤ log'.count .dst ∧
    (log'.count .dst = log.count .dst ∧ log' = log ∨
      log'.count .dst = a₂ ∧ a₂ = log.count .dst + 1 ∧ .dst ∈ sinceRaise log') ∧
    log'.count .src = log.count .src := by
  have hreqO := hd.dstReqO hle hge
  unfold ReqAckProtocol.dstAnswers at hanswers
  have hack : dst_ack_i = true → s.dst.dstReqO = true := by
    rintro rfl
    exact hanswers
  have hclock := hd.clock hack hy
  have hmarks : nrzProtocol.dstMarks s dst_ack_i = if dst_ack_i then [.dst] else [] := by
    unfold ReqAckProtocol.dstMarks
    cases h : dst_ack_i with
    | false => rfl
    | true =>
      rw [show nrzProtocol.dstReqO s.dst = true from hack h]
      rfl
  rw [← hcount] at hclock hreqO
  cases h : dst_ack_i with
  | false =>
    rw [h] at hclock hmarks
    rw [hmarks]
    exact ⟨hclock, Nat.le_refl _, .inl ⟨rfl, rfl⟩, rfl⟩
  | true =>
    rw [h] at hclock hmarks
    rw [hmarks]
    have ha := hreqO.mp (hack h)
    simp only [if_true, List.singleton_append, List.count_cons_self, ne_eq, reduceCtorEq,
      not_false_eq_true, List.count_cons_of_ne, sinceRaise_dst, List.mem_cons, true_or, and_true]
    exact ⟨hclock, by omega, .inr ⟨by omega, ha⟩⟩

/-! ### Steps and runs -/

section Step

variable {s s' : ReqAckState NrzSrc NrzDst} (h : NrzInv s)

include h

variable (src_req_i dst_ack_i newReq newAck : Bool)

/-- The acknowledge line carries the destination handshakes before the event, or after. -/
theorem nrz_ackSample
    (hanswers : nrzProtocol.dstAnswers s dst_ack_i = true) :
    ∃ x, Carries (nrzProtocol.ackSample s (.both src_req_i dst_ack_i newReq newAck)) x ∧
      s.log.count .dst ≤ x ∧
      x ≤ (nrzProtocol.dstMarks s dst_ack_i ++ s.log).count .dst := by
  obtain ⟨a₁, a₂, b₁, b₂, hs, hd, h₁, h₂, h₃, h₄, h₅, h₆, h₇⟩ := h.counts
  obtain ⟨hclock, hle, _⟩ := nrz_dst_edge hd h₄ (by omega) hanswers hs.srcReqQ s.log rfl
  cases newAck with
  | false => exact ⟨_, hd.dstAckQ, Nat.le_refl _, hle⟩
  | true => exact ⟨_, hclock.dstAckQ, hle, Nat.le_refl _⟩

/-- The request line carries the requests before the event, or after. -/
theorem nrz_reqSample
    (hholds : ReqAckProtocol.srcHolds s src_req_i = true) :
    ∃ y, Carries (nrzProtocol.reqSample s (.both src_req_i dst_ack_i newReq newAck)) y ∧
      s.log.count .src + s.pending.toNat ≤ y ∧
      y ≤ (nrzProtocol.srcMarks s src_req_i ++ s.log).count .src +
        (src_req_i && !s.src.srcAckO).toNat := by
  obtain ⟨a₁, a₂, b₁, b₂, hs, hd, hc⟩ := h.counts
  obtain ⟨hclock, _, hle, _⟩ := nrz_src_edge h.log h.served hs hc hholds hd.dstAckQ
  cases newReq with
  | false => exact ⟨_, hs.srcReqQ, Nat.le_refl _, hle⟩
  | true => exact ⟨_, hclock.srcReqQ, hle, Nat.le_refl _⟩

theorem nrzInv_src {src_req_i : Bool}
    (hstep : nrzProtocol.step s (.src src_req_i) = some s') : NrzInv s' := by
  obtain ⟨a₁, a₂, b₁, b₂, hs, hd, hc⟩ := h.counts
  simp only [ReqAckProtocol.step] at hstep
  split_ifs at hstep with hholds
  obtain rfl := Option.some.inj hstep
  obtain ⟨hclock, hb₁, hle, hone, hdst, hlog, hserved⟩ :=
    nrz_src_edge h.log h.served hs hc hholds hd.dstAckQ
  obtain ⟨h₁, h₂, h₃, h₄, h₅, h₆, h₇⟩ := hc
  have hcounts : NrzCounts ((nrzProtocol.srcMarks s src_req_i ++ s.log).count .src)
      (src_req_i && !s.src.srcAckO).toNat
      ((nrzProtocol.srcMarks s src_req_i ++ s.log).count .dst) a₁ a₂ (s.log.count .dst) b₁ :=
    ⟨hb₁, h₃, by omega, by omega, h₅, by omega, Bool.toNat_le _⟩
  exact ⟨⟨a₁, a₂, _, b₁, hclock, hdst.symm ▸ hd, hcounts⟩, hlog, hserved⟩

theorem nrzInv_dst {dst_ack_i : Bool}
    (hstep : nrzProtocol.step s (.dst dst_ack_i) = some s') : NrzInv s' := by
  obtain ⟨a₁, a₂, b₁, b₂, hs, hd, h₁, h₂, h₃, h₄, h₅, h₆, h₇⟩ := h.counts
  simp only [ReqAckProtocol.step] at hstep
  split_ifs at hstep with hanswers
  obtain rfl := Option.some.inj hstep
  obtain ⟨hclock, hle, hmarks, hsrc⟩ :=
    nrz_dst_edge hd h₄ (by omega) hanswers hs.srcReqQ s.log rfl
  have hcounts : NrzCounts ((nrzProtocol.dstMarks s dst_ack_i ++ s.log).count .src)
      s.pending.toNat ((nrzProtocol.dstMarks s dst_ack_i ++ s.log).count .dst)
      (s.log.count .src + s.pending.toNat) a₁ b₁ b₂ :=
    ⟨by omega, h₂, by omega, by omega, by omega, by omega, h₇⟩
  refine ⟨⟨_, a₁, b₁, b₂, hsrc.symm ▸ hs, hclock, hcounts⟩,
    nrzProtocol.reqAckLog_dst h.log dst_ack_i, ?_⟩
  intro hpending hcount
  obtain ⟨_, hsame⟩ | ⟨_, _, hmem⟩ := hmarks
  · simp only [hsame] at hcount ⊢
    exact h.served hpending hcount
  · exact hmem

theorem nrzInv_both {src_req_i dst_ack_i newReq newAck : Bool}
    (hstep : nrzProtocol.step s (.both src_req_i dst_ack_i newReq newAck) = some s') :
    NrzInv s' := by
  obtain ⟨a₁, a₂, b₁, b₂, hs, hd, hc⟩ := h.counts
  simp only [ReqAckProtocol.step] at hstep
  split_ifs at hstep with hrules
  obtain rfl := Option.some.inj hstep
  obtain ⟨hholds, hanswers⟩ := Bool.and_eq_true_iff.mp hrules
  obtain ⟨x, hx, hxge, hxle⟩ := nrz_ackSample h src_req_i dst_ack_i newReq newAck hanswers
  obtain ⟨y, hy, hyge, hyle⟩ := nrz_reqSample h src_req_i dst_ack_i newReq newAck hholds
  obtain ⟨hsrc, hb₁, hle, hone, hdst, hlog, hserved⟩ := nrz_src_edge h.log h.served hs hc hholds hx
  obtain ⟨h₁, h₂, h₃, h₄, h₅, h₆, h₇⟩ := hc
  obtain ⟨hclock, hdle, hmarks, hcsrc⟩ := nrz_dst_edge hd h₄ (by omega) hanswers hy
    (nrzProtocol.srcMarks s src_req_i ++ s.log) hdst
  rw [List.count_append] at hxle
  have hcdst : List.count .dst
      (nrzProtocol.dstMarks s dst_ack_i ++ (nrzProtocol.srcMarks s src_req_i ++ s.log)) = _ :=
    List.count_append
  have hcounts : NrzCounts
      ((nrzProtocol.dstMarks s dst_ack_i ++ (nrzProtocol.srcMarks s src_req_i ++ s.log)).count .src)
      (src_req_i && !s.src.srcAckO).toNat
      ((nrzProtocol.dstMarks s dst_ack_i ++ (nrzProtocol.srcMarks s src_req_i ++ s.log)).count .dst)
      y a₁ x b₁ := ⟨by omega, by omega, by omega, by omega, by omega, by omega, Bool.toNat_le _⟩
  refine ⟨⟨y, a₁, x, b₁, hcsrc.symm ▸ hsrc, hclock, hcounts⟩,
    nrzProtocol.reqAckLog_dst hlog dst_ack_i, ?_⟩
  intro hpending hcount
  obtain ⟨_, hsame⟩ | ⟨_, _, hmem⟩ := hmarks
  · simp only [hsame] at hcount ⊢
    exact hserved hpending hcount
  · exact hmem

end Step

theorem nrzInv_init : NrzInv nrzProtocol.init where
  counts := by
    refine ⟨0, 0, 0, 0, ⟨?_, ?_, ?_, ?_⟩, ⟨?_, ?_, ?_, ?_⟩, ⟨?_, ?_, ?_, ?_, ?_, ?_, ?_⟩⟩
    all_goals simp [nrzProtocol, ReqAckProtocol.init, Carries]
  log := ⟨nofun, trivial⟩
  served := nofun

/-- The events without a reset. -/
def ReqAckEvent.isEdge : ReqAckEvent → Bool
  | .src _ | .dst _ | .both _ _ _ _ => true
  | .rstSrc | .rstDst => false

theorem nrzInv_step (s : ReqAckState NrzSrc NrzDst) (e : ReqAckEvent)
    (s' : ReqAckState NrzSrc NrzDst) (hedge : e.isEdge = true)
    (hstep : nrzProtocol.step s e = some s') (h : NrzInv s) : NrzInv s' := by
  cases e with
  | src src_req_i => exact nrzInv_src h hstep
  | dst dst_ack_i => exact nrzInv_dst h hstep
  | both src_req_i dst_ack_i newReq newAck => exact nrzInv_both h hstep
  | rstSrc => exact absurd hedge Bool.false_ne_true
  | rstDst => exact absurd hedge Bool.false_ne_true

/-- From a common reset on, over any order of the clock edges: as many source handshakes
as destination handshakes, or one less; each source handshake served by a destination
handshake for the same request; and a request visible at the destination is one that
the source has made and no handshake has served. -/
theorem nrz_transfers_once (events : List ReqAckEvent) (hedges : ∀ e ∈ events, e.isEdge = true)
    (s : ReqAckState NrzSrc NrzDst) (hrun : run nrzProtocol.step nrzProtocol.init events = some s) :
    (s.log.count .src = s.log.count .dst ∨ s.log.count .src + 1 = s.log.count .dst) ∧
      Justified s.log ∧
      (nrzProtocol.dstReqO s.dst = true →
        s.pending = true ∧ s.log.count .src = s.log.count .dst) := by
  have hinv : NrzInv s := invariant nrzInv_step hedges hrun nrzInv_init
  obtain ⟨a₁, a₂, b₁, b₂, hs, hd, h₁, h₂, h₃, h₄, h₅, h₆, h₇⟩ := hinv.counts
  refine ⟨by omega, hinv.log.justified, fun hreq => ?_⟩
  have ha := (hd.dstReqO h₄ (by omega)).mp hreq
  cases hp : s.pending with
  | true =>
    rw [hp, Bool.toNat_true] at h₆
    exact ⟨rfl, by omega⟩
  | false =>
    rw [hp, Bool.toNat_false] at h₆
    omega

/-- Two requests, the second sampled by the destination one edge late. -/
theorem nrz_transfers_once_twice : ∃ s : ReqAckState NrzSrc NrzDst,
    run nrzProtocol.step nrzProtocol.init
      [.src true, .dst false, .dst false, .dst true, .src true, .src true, .src true,
        .both true false false true, .dst false, .dst false, .both true true true true] = some s ∧
      s.log = [.dst, .raise, .src, .dst, .raise] ∧ Justified s.log := by
  obtain ⟨s, hs⟩ : ∃ s, run nrzProtocol.step nrzProtocol.init
      [.src true, .dst false, .dst false, .dst true, .src true, .src true, .src true,
        .both true false false true, .dst false, .dst false, .both true true true true] =
        some s := Option.isSome_iff_exists.mp (by decide)
  have hlog : s.log = [.dst, .raise, .src, .dst, .raise] := by
    have hmap : (run nrzProtocol.step nrzProtocol.init
      [.src true, .dst false, .dst false, .dst true, .src true, .src true, .src true,
        .both true false false true, .dst false, .dst false, .both true true true true]).map
          ReqAckState.log = some [.dst, .raise, .src, .dst, .raise] := by decide
    rw [hs] at hmap
    exact Option.some.inj hmap
  exact ⟨s, hs, hlog, (nrz_transfers_once _ (by simp [ReqAckEvent.isEdge]) s hs).2.1⟩

end SecureBoot
