import Chino.Io.Places

/-!
# The I/O manager keeps its requests

`Acts.inv` assembles the step lemmas: an action keeps `Inv`.  In the other direction, `Inv.acts`
says that under `Inv` every possible event is an `Acts`; the point is that a request which is about
to be put on a list is on none yet.  `inv_of_reachable` concludes `Inv` for all reachable states,
and `invariant_acts` is the invariant rule that the results about runs use.

## How invariants are proved from here

The program of `Chino.Io.Manager` is unfolded in this module and nowhere else.  What follows in
other modules uses `Acts` through `invariant_acts`: to show that a property holds in every reachable
state, show it for the first one and, for each kind of step, from a state that satisfies `Inv` to
the next one.  A condition on steps can be added, and then the property holds in the runs whose
steps all meet it.

The circle is closed by induction on the run: `Inv` in a state gives that its next event is an
`Acts`, and an `Acts` keeps `Inv`.  That is why the two halves stand in one module.
-/

set_option autoImplicit false

namespace Chino

open Function (update)
open IoManager (resume)

theorem Phase.unwinds_of_irp? {p : Phase} (h : p.irp? = none) : p.unwinds = none := by
  cases p <;> first | rfl | cases h

namespace IoManager

variable {s s' : IoManager} {L L' : IoQueues} {x : Caller} {c c' : Option Call} {i j : IrpId}
  {device : FileId → DeviceId} {a : IoAction} {w w' : Option IrpId} {p p' : Phase}
  {as : List Activation}

/-! ## The worker -/

theorem phaseOk_of_irp? (h : p.irp? = none) : s.PhaseOk p := by
  cases p <;> trivial

/-- What is known of an activation is about its request. -/
theorem PhaseOk.congr (h : s.PhaseOk p) (hq : ∀ i, s.queued i = true → s'.queued i = true)
    (hc : ∀ i, s.queued i = true → (s'.irp i).currentFrame = (s.irp i).currentFrame)
    (ho : s'.outcome = s.outcome) : s'.PhaseOk p := by
  cases p with
  | processing d i last hand call =>
    refine ⟨hq i h.1, ?_⟩
    have := h.2
    cases hand <;> simpa [HandOk, hc i h.1, ho] using this
  | completing d i last result stage inside =>
    refine ⟨hq i h.1, ?_⟩
    rw [hc i h.1, ho]
    exact h.2
  | checking d i last hand =>
    refine ⟨hq i h.1, h.2.1, ?_⟩
    have := h.2.2
    cases hand <;> simpa [HandOk, hc i h.1, ho] using this
  | dropping d i => exact ⟨hq i h.1, by rw [hc i h.1, h.2]⟩
  | parking d i => exact hq i h
  | _ => trivial

/-- A step that does not concern the worker. -/
theorem Working.congr (h : s.Working) (hs : s'.stack = s.stack)
    (hq : ∀ i, s.queued i = true → s'.queued i = true)
    (hc : ∀ i, s.queued i = true ∨ s.outcome i ≠ none →
      (s'.irp i).currentFrame = (s.irp i).currentFrame)
    (ho : s'.outcome = s.outcome) : s'.Working where
  phase a ha := (h.phase a (hs ▸ ha)).congr hq (fun i hi ↦ hc i (Or.inl hi)) ho
  below := hs ▸ h.below
  unwinding i hi hcur := by
    rw [ho] at hi
    rw [hc i (Or.inr hi)] at hcur
    rw [hs]
    exact h.unwinding i hi hcur

theorem Working.setCall (h : s.Working) (hx : s.InCall x c) : (s.setCall x c').Working := by
  cases x with
  | thread t => exact h.congr rfl (fun _ ↦ id) (fun _ _ ↦ rfl) rfl
  | worker =>
    obtain ⟨w, d, i, last, hand, as, hs⟩ := hx
    rw [setCall_worker hs]
    refine ⟨fun a ha ↦ ?_, fun a ha ↦ h.below a (by rw [hs]; exact ha), fun j hj hc ↦ ?_⟩
    · rcases List.mem_cons.mp ha with rfl | ha
      · exact h.queued_top hs
      · exact h.phase a (by rw [hs]; exact List.mem_cons_of_mem _ ha)
    · have := h.unwinding j hj hc
      rw [hs] at this
      cases this

/-- A step of the innermost activation. -/
theorem Working.top (h : s.Working) (hs : s.stack = ⟨w, p⟩ :: as) (hs' : s'.stack = ⟨w', p'⟩ :: as)
    (hlow : ∀ a ∈ s.stack.tail, s'.PhaseOk a.phase) (hp : s'.PhaseOk p')
    (hu : ∀ i, s'.outcome i ≠ none → (s'.irp i).currentFrame ≠ none → p'.unwinds = some i) :
    s'.Working where
  phase a ha := by
    rw [hs'] at ha
    rcases List.mem_cons.mp ha with rfl | ha
    · exact hp
    · exact hlow a (by rw [hs]; exact ha)
  below a ha := h.below a (by rw [hs] ; rw [hs'] at ha; exact ha)
  unwinding i hi hc := by
    rw [hs']
    exact hu i hi hc

/-- While nothing is unwound, a request whose status is set has no frame. -/
theorem Working.settled (h : s.Working) (hs : s.stack = ⟨w, p⟩ :: as) (hp : p.unwinds = none)
    (ho : s.outcome i ≠ none) : (s.irp i).currentFrame = none := by
  by_contra hc
  have := h.unwinding i ho hc
  rw [hs] at this
  exact absurd (hp.symm.trans this) (by simp)

/-- A request that the innermost activation works on is held at no other level. -/
theorem Placed.held_below (h : s.Placed L) (hs : s.stack = ⟨w, p⟩ :: as) (hp : p.held = some i)
    {n : ℕ} (hn : n < as.length) (hi : s.At L i (.level n)) : False := by
  have := h.unique i _ _ hi ((at_level hs).mpr hp)
  cases this
  exact lt_irrefl _ hn

/-- **The activations below the innermost one are not affected.** -/
theorem Acts.phase_below (ha : s.Acts device L a s' L') (h : s.Inv L) {b : Activation}
    (hb : b ∈ s.stack.tail) : s'.PhaseOk b.phase := by
  obtain ⟨d, i, last, hand, c, hbp⟩ := h.working.below b hb
  have hok := h.working.phase b (List.mem_of_mem_tail hb)
  rw [hbp] at hok ⊢
  refine ⟨ha.queued_mono hok.1, ?_⟩
  have hborn : i ≠ s.allocated := by
    rintro rfl
    have := hok.1
    rw [(h.issued.unborn _ le_rfl).1] at this
    cases this
  -- a request which is still in the hands of `process_io` is not the one of the innermost
  -- activation
  have hne : hand ≠ .gone → ∀ {w p as}, s.stack = ⟨w, p⟩ :: as → p.held = some i → False := by
    intro hh w p as hs hp
    obtain ⟨n, hn, hl⟩ := exists_level (show b ∈ as by simpa [hs] using hb)
    refine h.placed.held_below hs hp hn ?_
    simp [At, hs, level_cons, hn.ne, hl, hbp, Phase.held, hh]
  have hcur : hand ≠ .gone → (s'.irp i).currentFrame = (s.irp i).currentFrame := fun hh ↦ by
    cases ha.frames i with
    | kept _ hc => exact hc
    | constructed hj => exact absurd hj hborn
    | moved hs => exact (hne hh hs rfl).elim
    | destroyed hs => exact (hne hh hs rfl).elim
  cases hand with
  | fresh => exact (hcur (by simp)).trans hok.2
  | moved => exact (hcur (by simp)).trans hok.2
  | gone =>
    intro k hk
    cases ha.frames i with
    | kept _ hc => exact (hok.2 k (hc ▸ hk)).imp_right ha.outcome_mono
    | constructed hj => exact absurd hj hborn
    | moved hs hr =>
      obtain ⟨k', hk', -, hr'⟩ := IoRequest.moveNextFrame_eq_some.mp hr
      rw [hr'] at hk
      cases hk
      exact (hok.2 k' hk').imp Nat.lt_succ_of_lt ha.outcome_mono
    | destroyed hs =>
      have := (h.working.queued_top hs).2.2
      exact Or.inr (ha.outcome_mono fun ho ↦ by simpa using this.mpr ho)

/-- **A step keeps the worker in order.** -/
theorem Acts.working (ha : s.Acts device L a s' L') (h : s.Inv L) : s'.Working := by
  have hw := h.working
  have hlow : ∀ b ∈ s.stack.tail, s'.PhaseOk b.phase := fun b hb ↦ ha.phase_below h hb
  cases ha with
  | @dispatch x f kind block hx =>
    have hw' : Working { s with signal := update s.signal f false } :=
      hw.congr rfl (fun _ ↦ id) (fun _ _ ↦ rfl) rfl
    exact hw'.setCall hx
  | call hx => exact hw.setCall hx
  | @allocate x f kind block hx =>
    refine Working.setCall (hw.congr rfl (fun _ ↦ id) (fun i hi ↦ ?_) rfl) hx
    have hne : i ≠ s.allocated := by
      rintro rfl
      obtain ⟨hq, ho⟩ := h.issued.unborn _ le_rfl
      rcases hi with hi | hi
      · rw [hq] at hi; cases hi
      · exact hi ho
    simp [hne]
  | @enqueue x i frame c h' work avail hx hf hc =>
    refine Working.setCall (hw.congr rfl (fun j hj ↦ ?_) (fun j _ ↦ ?_) rfl) hx
    · by_cases hji : j = i <;> simp [hji, hj]
    · exact addRef_currentFrame j
  | @await i hx hc =>
    obtain ⟨w, d, j, last, hand, as, hs⟩ := hx
    refine ⟨fun b hb ↦ ?_, fun b hb ↦ ?_, fun j ho hc ↦ absurd (hw.settled hs rfl ho) hc⟩
    · rcases List.mem_cons.mp hb with rfl | hb
      · trivial
      · exact hw.phase b hb
    · simp only [hs, List.tail_cons, List.mem_cons] at hb
      rcases hb with rfl | hb
      · exact ⟨d, j, last, hand, _, rfl⟩
      · exact hw.below b (by rw [hs]; exact hb)
  | @drop x i r hx =>
    exact Working.setCall (hw.congr rfl (fun _ ↦ id) (fun j _ ↦ decRef_currentFrame j) rfl) hx
  | turn hs hp hp' =>
    exact hw.top hs rfl hlow (phaseOk_of_irp? hp') fun i ho hc ↦
      absurd (hw.settled hs (Phase.unwinds_of_irp? hp) ho) hc
  | @pop w as d i is k h' hs hL hk =>
    have hq := h.placed.outstanding (i := i) (p := .list (.irps d)) (by simp [At, hL])
    exact hw.top hs rfl hlow ⟨hq.1, hk⟩ fun i ho hc ↦ absurd (hw.settled hs rfl ho) hc
  | access => exact hw
  | @start w as d i last a result inside hs =>
    have hq := (hw.queued_top hs).1
    have hc : (s.irp i).currentFrame = some last := (hw.queued_top hs).2
    have ho : s.outcome i = none := by
      by_contra ho
      rw [hw.settled hs rfl ho] at hc
      cases hc
    exact hw.top hs rfl hlow ⟨hq, by simp [hc], by simp [ho]⟩ fun i ho hc ↦
      absurd (hw.settled hs rfl ho) hc
  | @move w as d i last kind f r hs hr =>
    have hq := (hw.queued_top hs).1
    have hc : (s.irp i).currentFrame = some last := (hw.queued_top hs).2
    obtain ⟨k, hk, -, rfl⟩ := IoRequest.moveNextFrame_eq_some.mp hr
    cases hc.symm.trans hk
    refine hw.top hs rfl hlow ⟨hq, by simp [HandOk, setIrp]⟩ fun j ho hcj ↦ ?_
    have hj := hw.settled hs rfl ho
    by_cases hji : j = i
    · subst hji
      rw [hc] at hj
      cases hj
    · exact absurd hj (by simpa [setIrp, hji] using hcj)
  | @handOver w as d i last k frame h' work avail hs hk hk0 hf =>
    have hc : (s.irp i).currentFrame = some (last + 1) := (hw.queued_top hs).2
    refine hw.top hs rfl hlow ⟨by simp, fun k hk ↦ Or.inl ?_⟩ fun i ho hc ↦
      absurd (hw.settled hs rfl ho) hc
    cases hc.symm.trans hk
    exact Nat.lt_succ_self _
  | @finish w as d i last hand hs hh =>
    obtain ⟨hq, hok⟩ := hw.queued_top hs
    exact hw.top hs rfl hlow ⟨hq, hh, hok⟩ fun i ho hc ↦ absurd (hw.settled hs rfl ho) hc
  | @code w as d i last result inside hs =>
    obtain ⟨hq, hc, ho⟩ := hw.queued_top hs
    refine hw.top hs rfl hlow ⟨hq, ?_, by simpa [setIrp] using ho⟩ fun j ho hcj ↦ ?_
    · simpa [setIrp, IoRequest.finishCode] using hc
    · refine absurd (hw.settled hs rfl ho) ?_
      rw [← setIrp_currentFrame (i := i) (r := (s.irp i).finishCode result) rfl]
      exact hcj
  | @bytes w as d i last result inside hs =>
    obtain ⟨hq, hc, -⟩ := hw.queued_top hs
    refine hw.top hs rfl hlow ⟨hq, ?_, by simp⟩ fun j ho hcj ↦ ?_
    · simpa [setIrp] using hc
    · by_cases hji : j = i
      · rw [hji]; rfl
      · refine absurd (hw.settled hs rfl (by simpa [hji] using ho)) ?_
        rw [← setIrp_currentFrame (i := i) (r := (s.irp i).finishBytes result) (by simp)]
        exact hcj
  | @notify w as d i last k result inside frame hs hk hf =>
    obtain ⟨hq, hc, ho⟩ := hw.queued_top hs
    refine hw.top hs rfl hlow ⟨hq, by simp [hk], by simpa using ho⟩ fun j ho hcj ↦ ?_
    simpa [hs, Phase.unwinds] using hw.unwinding j ho hcj
  | @destroy w as d i last k result inside hs hk =>
    obtain ⟨hq, -, ho⟩ := hw.queued_top hs
    refine hw.top hs rfl hlow ⟨hq, ?_, ?_⟩ fun j hoj hcj ↦ ?_
    · by_cases hk0 : k = 0 <;> simp [setIrp, IoRequest.destroyFrame_eq hk, hk0]
    · by_cases hk0 : k = 0 <;> simpa [setIrp, hk0] using ho
    · by_cases hji : j = i
      · subst hji
        by_cases hk0 : k = 0
        · simp [setIrp, IoRequest.destroyFrame_eq hk, hk0] at hcj
        · simp [hk0, Phase.unwinds]
      · have := hw.unwinding j hoj (by simpa [setIrp, hji] using hcj)
        rw [hs] at this
        cases this
        exact absurd rfl hji
  | @deliver w as d i last result inside hs =>
    obtain ⟨hq, hc, -⟩ := hw.queued_top hs
    have hok : s.HandOk i last .gone := fun k hk ↦ by
      rw [hc.mpr rfl] at hk
      cases hk
    refine hw.top hs rfl hlow ?_ fun i ho hc ↦ absurd (hw.settled hs rfl ho) hc
    cases inside with
    | true => exact ⟨hq, hok⟩
    | false => exact ⟨hq, by simp, hok⟩
  | @check w as d i last hand p hs hp =>
    have hq := (hw.queued_top hs).1
    refine hw.top hs rfl hlow ?_ fun i ho hc ↦ absurd (hw.settled hs rfl ho) hc
    rcases hp with ⟨hc, rfl⟩ | ⟨-, rfl⟩ | ⟨-, rfl⟩
    · exact ⟨hq, hc⟩
    · trivial
    · exact hq
  | @release w as d i hs =>
    have hu : ∀ j, s.outcome j ≠ none → ((s.decRef i).irp j).currentFrame ≠ none → False :=
      fun j ho hc ↦ hc (by rw [decRef_currentFrame, hw.settled hs rfl ho])
    by_cases hwi : w = some i
    · have hlow' := hlow
      simp only [hs, List.tail_cons] at hlow'
      refine ⟨fun b hb ↦ ?_, fun b hb ↦ hw.below b ?_, fun i ho hc ↦ (hu i ho hc).elim⟩
      · simp only [hwi, if_pos] at hb
        rcases resume_cases as with he | ⟨w', d', j, last, hand, j', bs, rfl, he⟩ <;> rw [he] at hb
        · exact hlow' b hb
        · rcases List.mem_cons.mp hb with rfl | hb
          · have hj := hlow' ⟨w', .processing d' j last hand (some (.queued j'))⟩ List.mem_cons_self
            exact hj
          · exact hlow' b (List.mem_cons_of_mem _ hb)
      · simp only [hwi, if_pos] at hb
        rw [hs]
        rcases resume_cases as with he | ⟨w', d', j, last, hand, j', bs, rfl, he⟩ <;> rw [he] at hb
        · exact List.mem_of_mem_tail hb
        · exact List.mem_cons_of_mem _ hb
    · exact hw.top hs (if_neg hwi) hlow trivial fun i ho hc ↦ (hu i ho hc).elim
  | park hs =>
    exact hw.top hs rfl hlow trivial fun i ho hc ↦ absurd (hw.settled hs rfl ho) hc
  | irq => exact hw.congr rfl (fun _ ↦ id) (fun _ _ ↦ rfl) rfl
  | requeue => exact hw.congr rfl (fun _ ↦ id) (fun _ _ ↦ rfl) rfl

/-! ## From the program to its steps -/

/-- A request on no list can be queued. -/
theorem queueIo_eq (hr : s.lists.Represents L) {d : DeviceId} (hi : ∀ l, i ∉ L l)
    (h : s.queueIo d i = some s') : ∃ h' work avail, s' = s.pushed h' work avail ∧
      h'.Represents (update L (.irps d) (L (.irps d) ++ [i])) ∧ s.Registers d work avail := by
  obtain ⟨h', he, hr'⟩ := hr.pushBack_spec (l := .irps d) hi
  simp only [queueIo, he, Option.bind_eq_bind, Option.bind_some, registerDevice] at h
  split at h
  · cases h
    exact ⟨h', _, _, rfl, hr', .linked ‹_›⟩
  · obtain ⟨work, hp, hs'⟩ := Option.bind_eq_some_iff.mp h
    cases hs'
    exact ⟨h', work, true, rfl, hr', .pushed (Bool.not_eq_true _ ▸ ‹_›) hp⟩

/-- A request without a place is on no list. -/
theorem Placed.not_mem (h : s.Placed L) (hq : s.queued i = false) (l : IoListId) : i ∉ L l :=
  fun hi ↦ by
    have := (h.outstanding (p := .list l) hi).1
    rw [hq] at this
    cases this

/-- A request that is somewhere else is on no list. -/
theorem Placed.not_mem_of_at (h : s.Placed L) {q : Place} (hq : s.At L i q) (hl : ∀ l, q ≠ .list l)
    (l : IoListId) : i ∉ L l := fun hi ↦
  hl l (h.unique i q (.list l) hq hi)

theorem inCall_of_canCall (h : s.canCall x = true) : s.InCall x none := by
  cases x with
  | thread t => simpa [canCall, InCall] using h
  | worker =>
    simp only [canCall] at h
    split at h
    · exact ⟨_, _, _, _, _, _, ‹_›⟩
    · cases h

theorem inCall_of_callOf {c : Call} (h : s.callOf x = some c) : s.InCall x (some c) := by
  cases x with
  | thread t => exact h
  | worker =>
    simp only [callOf] at h
    split at h
    · subst h
      exact ⟨_, _, _, _, _, _, ‹_›⟩
    · cases h

/-- What a call can do next. -/
theorem Inv.acts_call (h : s.Inv L) {c : Call} (hx : s.InCall x (some c))
    (hn : s.advanceCall device x c = some s') :
    ∃ L', s.Acts device L (.advance x) s' L' ∧ s'.lists.Represents L' := by
  have hr := h.placed.rep
  have hmove : ∀ {c'}, s.CallMoves x (.advance x) (some c) c' → s' = s.setCall x c' →
      ∃ L', s.Acts device L (.advance x) s' L' ∧ s'.lists.Represents L' := fun hm he ↦
    ⟨L, he ▸ .call hx hm, by rw [he, setCall_lists]; exact hr⟩
  cases c with
  | fast => cases hn
  | slow f kind block =>
    cases hn
    exact ⟨L, .allocate hx, by rw [setCall_lists]; exact hr⟩
  | allocated i =>
    simp only [advanceCall, Option.bind_eq_bind, Option.bind_eq_some_iff, Option.some.injEq] at hn
    obtain ⟨k, -, frame, -, hs'⟩ := hn
    exact hmove .fill hs'.symm
  | filled i =>
    obtain ⟨hq, hc⟩ := h.issued.early _ _ i hx.callAt rfl rfl
    simp only [advanceCall, queueIrp, hc, Option.bind_eq_bind, Option.bind_some, if_pos,
      Option.bind_eq_some_iff, Option.some.injEq] at hn
    obtain ⟨s₁, ⟨frame, hf, s₂, hs₂, rfl⟩, rfl⟩ := hn
    obtain ⟨h', work, avail, rfl, hr', hreg⟩ :=
      queueIo_eq (s := s.addRef i) hr (h.placed.not_mem hq) hs₂
    have hf' : (s.irp i).frames 0 = some frame := by simpa [addRef, setIrp] using hf
    refine ⟨_, .enqueue hx hf' ?_ ?_, by simpa [pushed] using hr'⟩
    · simp [pushed, addRef, setIrp]
    · cases hreg with
      | linked h => exact .linked h
      | pushed h hp => exact .pushed h hp
  | queued i =>
    cases x with
    | thread t =>
      simp only [advanceCall, Option.bind_eq_bind, Option.bind_eq_some_iff, Option.some.injEq] at hn
      obtain ⟨frame, hf, hs'⟩ := hn
      exact hmove (.watch rfl hf) hs'.symm
    | worker =>
      simp only [advanceCall] at hn
      split at hn
      · exact hmove (.awaited rfl ‹_›) (Option.some.inj hn).symm
      · cases hn
        exact ⟨L, .await hx (Bool.not_eq_true _ ▸ ‹_›), hr⟩
  | waiting i f =>
    simp only [advanceCall] at hn
    split at hn
    · exact hmove (.wake ‹_›) (Option.some.inj hn).symm
    · cases hn
  | reading i =>
    simp only [advanceCall, Option.some.injEq] at hn
    by_cases hc : (s.irp i).status.code = .success
    · exact hmove (.success hc) (by rw [← hn, if_pos hc])
    · exact hmove (.error hc) (by rw [← hn, if_neg hc])
  | readingBytes i => exact hmove .bytes (Option.some.inj hn).symm
  | returning i r =>
    cases hn
    exact ⟨L, .drop hx, by rw [setCall_lists]; exact hr⟩

/-- What `complete` does next. -/
theorem acts_complete {d : DeviceId} {last : ℕ} {result : Completion}
    {stage : CompleteStage} {inside : Bool}
    (hs : s.stack = ⟨w, .completing d i last result stage inside⟩ :: as)
    (hn : s.advanceComplete w as d i last result inside stage = some s') :
    s.Acts device L (.advance .worker) s' L ∧ s'.lists = s.lists := by
  cases stage with
  | code => cases hn; exact ⟨.code hs, rfl⟩
  | bytes => cases hn; exact ⟨.bytes hs, rfl⟩
  | notify =>
    simp only [advanceComplete, Option.bind_eq_bind, Option.bind_eq_some_iff,
      Option.some.injEq] at hn
    obtain ⟨k, hk, frame, hf, rfl⟩ := hn
    exact ⟨.notify hs hk hf, rfl⟩
  | destroy =>
    simp only [advanceComplete, Option.bind_eq_bind, Option.bind_eq_some_iff] at hn
    obtain ⟨k, hk, hn⟩ := hn
    have : s.Acts device L _ _ L := .destroy hs hk
    split at hn
    · cases hn
      simp only [if_pos ‹k = 0›] at this
      exact ⟨this, rfl⟩
    · obtain ⟨frame, -, hs'⟩ := Option.bind_eq_some_iff.mp hn
      cases hs'
      simp only [if_neg ‹¬ k = 0›] at this
      exact ⟨this, rfl⟩
  | deliver => cases hn; exact ⟨.deliver hs, rfl⟩

/-- What the worker can do next. -/
theorem Inv.acts_worker (h : s.Inv L) (hn : s.advanceWorker device = some s') :
    ∃ L', s.Acts device L (.advance .worker) s' L' ∧ s'.lists.Represents L' := by
  have hr := h.placed.rep
  cases hs : s.stack with
  | nil => simp [advanceWorker, hs] at hn
  | cons b as =>
    obtain ⟨w, p⟩ := b
    rw [advanceWorker, hs] at hn
    cases p with
    | picking =>
      simp only at hn
      split at hn
      · obtain ⟨work, hrem, hs'⟩ := Option.bind_eq_some_iff.mp hn
        cases hs'
        exact ⟨L, .turn hs rfl rfl (.pick ‹_› hrem), hr⟩
      · cases hn
        exact ⟨L, .turn hs rfl rfl (.sleep ‹_›), hr⟩
    | sleeping =>
      simp only at hn
      split at hn
      · cases hn
        exact ⟨L, .turn hs rfl rfl (.wake ‹_›), hr⟩
      · cases hn
    | popping d =>
      simp only at hn
      cases hL : L (.irps d) with
      | nil =>
        rw [Device.takeIrp_nil hr hL] at hn
        cases hn
        exact ⟨L, .turn hs rfl rfl (.drained hL), hr⟩
      | cons i is =>
        obtain ⟨h', he, hr'⟩ := Device.takeIrp_cons hr hL
        simp only [he, Option.bind_eq_bind, Option.bind_some, Option.bind_eq_some_iff,
          Option.some.injEq] at hn
        obtain ⟨k, hk, rfl⟩ := hn
        exact ⟨_, .pop hs hL hk, hr'⟩
    | processing d i last hand call =>
      obtain ⟨c, rfl, hn⟩ := Option.bind_eq_some_iff.mp hn
      exact h.acts_call (x := .worker) ⟨w, d, i, last, hand, as, hs⟩ hn
    | completing d i last result stage inside =>
      obtain ⟨ha, hl⟩ := (acts_complete hs hn : s.Acts device L _ s' L ∧ s'.lists = s.lists)
      exact ⟨L, ha, hl ▸ hr⟩
    | checking d i last hand =>
      simp only at hn
      cases hc : (s.irp i).currentFrame with
      | none =>
        rw [hc] at hn
        cases hn
        exact ⟨L, .check hs (Or.inl ⟨hc, rfl⟩), hr⟩
      | some k =>
        rw [hc] at hn
        simp only at hn
        split at hn
        · cases hn
          exact ⟨L, .check hs (Or.inr (Or.inl ⟨⟨k, hc, ‹_›⟩, rfl⟩)), hr⟩
        · cases hn
          have hk : k = last := not_not.mp ‹_›
          exact ⟨L, .check hs (Or.inr (Or.inr ⟨hk ▸ hc, rfl⟩)), hr⟩
    | dropping d i =>
      cases hn
      exact ⟨L, .release hs, hr⟩
    | parking d i =>
      have hfree := h.placed.not_mem_of_at (q := .level as.length) ((at_level hs).mpr rfl) (by simp)
      obtain ⟨h', he, hr'⟩ := hr.pushBack_spec (l := .pending d) hfree
      simp only [he, Option.bind_eq_bind, Option.bind_some, Option.some.injEq] at hn
      subst hn
      exact ⟨_, .park hs, hr'⟩

/-- **Every possible event is one of the listed ones.** -/
theorem Inv.acts (h : s.Inv L) (hn : s.next device a = some s') :
    ∃ L', s.Acts device L a s' L' ∧ s'.lists.Represents L' := by
  have hr := h.placed.rep
  have hmove : ∀ {x a c c'}, s.InCall x c → s.CallMoves x a c c' → s' = s.setCall x c' →
      ∃ L', s.Acts device L a s' L' ∧ s'.lists.Represents L' := fun hx hm he ↦
    ⟨L, he ▸ .call hx hm, by rw [he, setCall_lists]; exact hr⟩
  cases a with
  | dispatch x f kind block =>
    simp only [next] at hn
    split at hn
    · cases hn
      exact ⟨L, .dispatch (inCall_of_canCall ‹_›), by rw [setCall_lists]; exact hr⟩
    · cases hn
  | fast x r =>
    simp only [next] at hn
    split at hn
    · have hx := inCall_of_callOf ‹_›
      cases hn
      by_cases hs : r = .err .slowIo
      · subst hs
        exact hmove hx .slow rfl
      · exact hmove hx (.answered hs) (by rw [if_neg hs])
    · cases hn
  | exhausted x =>
    simp only [next] at hn
    split at hn
    · cases hn
      exact hmove (inCall_of_callOf ‹_›) .exhausted rfl
    · cases hn
  | advance x =>
    cases x with
    | thread t =>
      obtain ⟨c, hx, hn⟩ := Option.bind_eq_some_iff.mp hn
      exact h.acts_call (x := .thread t) hx hn
    | worker => exact h.acts_worker hn
  | access =>
    simp only [next] at hn
    split at hn
    · split at hn
      · cases hn
      · obtain ⟨_, -, rfl⟩ := Option.map_eq_some_iff.mp hn
        exact ⟨L, .access ‹_› ‹_›, hr⟩
    · cases hn
  | complete result =>
    simp only [next] at hn
    split at hn
    · split at hn
      · cases hn
      · cases hn
        exact ⟨L, .start ‹_› ‹_› (Or.inl rfl), hr⟩
    · cases hn
  | move kind f =>
    simp only [next] at hn
    split at hn
    · obtain ⟨r, hm, hs'⟩ := Option.bind_eq_some_iff.mp hn
      cases hs'
      exact ⟨L, .move ‹_› hm, hr⟩
    · cases hn
  | queue =>
    simp only [next] at hn
    split at hn
    · rename_i w d i last as hs
      have hc : (s.irp i).currentFrame = some (last + 1) := (h.working.queued_top hs).2
      have hfree := h.placed.not_mem_of_at (q := .level as.length) ((at_level hs).mpr rfl) (by simp)
      simp only [queueIrp, hc, Option.bind_eq_bind, Option.bind_some, Nat.succ_ne_zero, if_false,
        Option.bind_eq_some_iff, Option.some.injEq] at hn
      obtain ⟨s₁, ⟨frame, hf, s₂, hs₂, rfl⟩, rfl⟩ := hn
      obtain ⟨h', work, avail, rfl, hr', hreg⟩ := queueIo_eq hr hfree hs₂
      exact ⟨_, .handOver hs hc (Nat.succ_ne_zero _) hf hreg, hr'⟩
    · cases hn
  | finish =>
    simp only [next] at hn
    split at hn
    · split at hn
      · cases hn
      · cases hn
        exact ⟨L, .finish ‹_› ‹_›, hr⟩
    · cases hn
  | fail e =>
    simp only [next] at hn
    split at hn
    · split at hn
      · cases hn
      · cases hn
        rename_i he
        refine ⟨L, .start ‹_› ?_ (Or.inr ⟨e, rfl⟩), hr⟩
        exact fun hc ↦ he (Or.inr hc)
    · cases hn
  | irq n d pred =>
    simp only [next] at hn
    cases hf : (L (.pending d)).find? fun i ↦ pred (s.irp i) with
    | none =>
      rw [Device.takePending_none hr hf] at hn
      split at hn <;> cases hn
    | some i =>
      obtain ⟨h', he, hr'⟩ := Device.takePending_some hr hf
      rw [he] at hn
      split at hn
      · cases hn
      · cases hn
        exact ⟨_, .irq ‹_› (List.mem_of_find?_eq_some hf), hr'⟩
  | requeue n =>
    obtain ⟨⟨d, i⟩, hq, hn⟩ := Option.bind_eq_some_iff.mp hn
    have hfree := h.placed.not_mem_of_at (i := i) (q := .handler n) (by simp [At, hq]) (by simp)
    obtain ⟨h', work, avail, rfl, hr', hreg⟩ :=
      queueIo_eq (s := { s with requeue := update s.requeue n none }) hr hfree hn
    refine ⟨_, .requeue hq ?_, hr'⟩
    cases hreg with
    | linked h => exact .linked h
    | pushed h hp => exact .pushed h hp

/-! ## Every run -/

theorem inv_init : init.Inv fun _ ↦ [] where
  stacked _ := IoRequest.stacked_unallocated
  issued := by
    have hnone : ∀ p c, init.callAt p = some c → False := by
      rintro (t | n) c hc
      · cases hc
      · cases n <;> cases hc
    exact ⟨fun p c _ hc ↦ (hnone p c hc).elim, fun p c _ hc ↦ (hnone p c hc).elim,
      fun p c _ hc ↦ (hnone p c hc).elim, fun p _ c _ _ hc ↦ (hnone p c hc).elim,
      fun _ _ ↦ ⟨rfl, rfl⟩⟩
  placed := by
    have hnone : ∀ i p, ¬ init.At (fun _ ↦ []) i p := by
      rintro i (l | n | n) hp
      · cases hp
      · cases n <;> cases hp
      · cases hp
    exact ⟨Heap.represents_init, fun i p _ hp ↦ (hnone i p hp).elim, fun i ↦
      iff_of_false (fun h ↦ Bool.false_ne_true h.1) fun ⟨p, hp⟩ ↦ hnone i p hp⟩
  working := by
    refine ⟨fun b hb ↦ ?_, fun b hb ↦ ?_, fun i hi ↦ absurd rfl hi⟩
    · cases List.mem_singleton.mp hb
      trivial
    · cases hb

theorem Acts.inv (ha : s.Acts device L a s' L') (h : s.Inv L) (hr : s'.lists.Represents L') :
    s'.Inv L' where
  stacked := ha.stacked h.stacked
  issued := ha.issued h.issued h.working.topQueued
  placed := (ha.place h).placed h.placed hr
  working := ha.working h

/-- **The invariant rule of the I/O manager.**  A property needs to be checked for the listed steps
only, and between states in order. -/
theorem invariant_acts {cond : IoManager → IoAction → Prop} {I : IoManager → Prop} (hinit : I init)
    (hstep : ∀ s L a s' L', s.Inv L → I s → cond s a → s.Acts device L a s' L' → s'.Inv L' → I s')
    {s : IoManager} (h : (machine device).ReachableWhile cond s) : I s ∧ ∃ L, s.Inv L := by
  refine h.invariant (I := fun s ↦ I s ∧ ∃ L, s.Inv L) ⟨hinit, _, inv_init⟩ ?_
  rintro s a s' - ⟨hI, L, hL⟩ hc hn
  obtain ⟨L', ha, hr⟩ := hL.acts hn
  have hL' := ha.inv hL hr
  exact ⟨hstep s L a s' L' hL hI hc ha hL', L', hL'⟩

end IoManager

end Chino
