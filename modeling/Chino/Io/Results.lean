import Chino.Io.Reach

/-!
# Whose result a synchronous call gets

A thread waits for the event of a file, which every call on that file resets and every completion on
it sets.  So a completion also wakes the callers whose own requests are not completed, and these
return the status they find, which is `io_pending`: `result_of_another`.

`result_of_own` is what is left.  In a run in which no completion sets the event while another
thread waits for a request of its own on that file, a synchronous call on the slow path returns what
its own request was completed with.

## The condition

`Undisturbed` looks at two kinds of steps, and at the state before them.

* A completion that is about to set the event of a file finds no thread that waits, or is about to
  wait, for another request on that file.
* A call that allocates its request finds the event as it has reset it, not set again.

The second one is needed because the reset comes before the fast function: a completion may come in
between, and the call would not wait at all.

## The proof

`Written` says of each request that its status is what it was completed with, and `io_pending`
before.  `Heard` says that as long as nobody was disturbed, an event is set only if the call that
waits for it is the one whose request was completed.  Both are kept by each kind of step
(`Acts.written`, `Acts.heard`), and together they say what a call finds after its wait.

`result_of_another` is the shortest run in which it is otherwise: two threads, one file, and the
completion of one request wakes the thread of the other one.
-/

set_option autoImplicit false

namespace Chino

open Function (update)

/-- What `wait` makes of the status after `complete`. -/
def Completion.value (r : Completion) : IoResult :=
  if r.code = .success then .ok r.bytes else .err r.code

/-- The request of a call that has not been told yet. -/
def Call.pending? : Call → Option IrpId
  | allocated i | filled i | queued i | waiting i _ => some i
  | _ => none

/-- The file of a synchronous call that is about to allocate its request. -/
def Call.begins? : Call → Option FileId
  | slow f _ none => some f
  | _ => none

theorem Call.irp?_of_pending? {c : Call} {i : IrpId} (h : c.pending? = some i) :
    c.irp? = some i := by
  cases c <;> first | exact h | cases h

namespace IoManager

variable {s s' : IoManager} {L L' : IoQueues} {i j : IrpId} {device : FileId → DeviceId}
  {a : IoAction} {t : ThreadId}

/-! ## The condition -/

/-- The file whose event the worker is about to set. -/
def notifies (s : IoManager) : Option FileId :=
  match s.stack with
  | ⟨_, .completing _ i _ _ .notify _⟩ :: _ => do
    let k ← (s.irp i).currentFrame
    let frame ← (s.irp i).frames k
    some frame.file
  | _ => none

/-- The request is one that a thread issued on `f` and waits for, now or soon. -/
def Awaited (s : IoManager) (f : FileId) (j : IrpId) : Prop :=
  (s.irp j).asyncIoBlock = none ∧ ((s.irp j).frames 0).map IoFrame.file = some f ∧
    ∀ b ∈ s.stack, b.phase.call?.bind Call.irp? ≠ some j

instance (f : FileId) (j : IrpId) : Decidable (s.Awaited f j) :=
  inferInstanceAs (Decidable (_ ∧ _ ∧ _))

/-- The event of a file is not set while another thread waits for a request of its own, and not
between the reset and the allocation either. -/
def Undisturbed (s : IoManager) : IoAction → Prop
  | .advance .worker =>
    ∀ f ∈ s.notifies, ∀ j < s.allocated, s.Awaited f j → s.outcome j ≠ none
  | .advance (.thread t) => ∀ f ∈ (s.call t).bind Call.begins?, s.signal f = false
  | _ => True

instance : (a : IoAction) → Decidable (s.Undisturbed a)
  | .advance .worker => inferInstanceAs
    (Decidable (∀ f ∈ s.notifies, ∀ j < s.allocated, s.Awaited f j → s.outcome j ≠ none))
  | .advance (.thread t) => inferInstanceAs
    (Decidable (∀ f ∈ (s.call t).bind Call.begins?, s.signal f = false))
  | .dispatch .. | .fast .. | .exhausted _ | .access | .complete _ | .move .. | .queue | .finish
  | .fail _ | .irq .. | .requeue _ => isTrue trivial

/-! ## The status of a completed request -/

/-- The status is what the request was completed with. -/
structure Written (s : IoManager) : Prop where
  blank : ∀ j, s.outcome j = none → (s.irp j).status.bytesTransferred = 0
  coded : ∀ w d i last r inside as, s.stack = ⟨w, .completing d i last r .bytes inside⟩ :: as →
    (s.irp i).status.code = r.code
  result : ∀ w d i last r stage inside as,
    s.stack = ⟨w, .completing d i last r stage inside⟩ :: as → r.code ≠ .ioPending
  done : ∀ j r, s.outcome j = some r →
    (s.irp j).status = ⟨r.code, r.bytes⟩ ∧ r.code ≠ .ioPending
  finished : ∀ j, s.queued j = true → (s.irp j).currentFrame = none → s.outcome j ≠ none

theorem written_init : init.Written where
  blank _ _ := rfl
  coded _ _ _ _ _ _ _ h := by cases h
  result _ _ _ _ _ _ _ _ h := by cases h
  done _ _ h := by cases h
  finished _ h := by cases h

/-- A completion is not in a call. -/
theorem InCall.stack_of_completing {s₁ : IoManager} {x : Caller} {c c' : Option Call}
    (hx : s.InCall x c) {w : Option IrpId} {d : DeviceId} {last : ℕ} {r : Completion}
    {stage : CompleteStage} {inside : Bool} {as : List Activation}
    (hs : (s₁.setCall x c').stack = ⟨w, .completing d i last r stage inside⟩ :: as)
    (h₁ : s₁.stack = s.stack) :
    s.stack = ⟨w, .completing d i last r stage inside⟩ :: as := by
  cases x with
  | thread t => exact h₁ ▸ hs
  | worker =>
    obtain ⟨_, _, _, _, _, _, hs₀⟩ := hx
    rw [setCall_worker (h₁.trans hs₀)] at hs
    cases hs

/-- Where a completion comes from: from its own last statement, or it has just begun. -/
theorem Acts.completing_from (ha : s.Acts device L a s' L') (hw : s.Working) {w : Option IrpId}
    {d : DeviceId} {last : ℕ} {r : Completion} {stage : CompleteStage} {inside : Bool}
    {as : List Activation} (hs' : s'.stack = ⟨w, .completing d i last r stage inside⟩ :: as) :
    (r.code ≠ .ioPending ∧ stage = .code) ∨
      ∃ stage₀, s.stack = ⟨w, .completing d i last r stage₀ inside⟩ :: as ∧
        (stage = .bytes → stage₀ = .bytes ∨
          stage₀ = .code ∧ s'.irp i = (s.irp i).finishCode r) := by
  cases ha with
  | dispatch hx | call hx | allocate hx | enqueue hx | drop hx =>
    exact Or.inr ⟨stage, hx.stack_of_completing hs' rfl, Or.inl⟩
  | access | irq | requeue => exact Or.inr ⟨stage, hs', Or.inl⟩
  | turn hs hp hp' =>
    cases hs'
    cases hp'
  | start hs hr =>
    cases hs'
    exact Or.inl ⟨hr, rfl⟩
  | check hs hp => rcases hp with ⟨-, rfl⟩ | ⟨-, rfl⟩ | ⟨-, rfl⟩ <;> cases hs'
  | @release v bs e k hs =>
    simp only at hs'
    split at hs'
    · have hbelow := hw.below
      rw [hs] at hbelow
      rcases resume_cases bs with he | ⟨_, _, _, _, _, _, _, rfl, he⟩ <;> rw [he] at hs'
      · obtain ⟨_, _, _, _, _, hb⟩ :=
          hbelow ⟨w, .completing d i last r stage inside⟩ (by simp [hs'])
        cases hb
      · cases hs'
    · cases hs'
  | @deliver _ _ _ _ _ _ inside => cases inside <;> cases hs'
  | @destroy _ _ _ _ _ k _ _ hs =>
    refine Or.inr ⟨.destroy, ?_⟩
    by_cases hk : k = 0 <;>
      (simp only [hk, if_true, if_false] at hs'; cases hs'; exact ⟨hs, fun h ↦ by cases h⟩)
  | code hs =>
    cases hs'
    exact Or.inr ⟨.code, hs, fun _ ↦ Or.inr ⟨rfl, by simp [setIrp]⟩⟩
  | bytes hs =>
    cases hs'
    exact Or.inr ⟨.bytes, hs, fun h ↦ by cases h⟩
  | notify hs =>
    cases hs'
    exact Or.inr ⟨.notify, hs, fun h ↦ by cases h⟩
  | _ => cases hs'

/-- A request is queued by the call that allocated it, or was queued before. -/
theorem Acts.queued_from (ha : s.Acts device L a s' L') (h : s.Inv L) (hj : s'.queued j = true) :
    s.queued j = true ∨ (s.irp j).currentFrame = some 0 := by
  rcases ha.queued with hq | ⟨i, p, c, hc, -, -, hq⟩ | ⟨w, d, i, last, as, hs, hq⟩
  · exact Or.inl (hq ▸ hj)
  · by_cases hji : j = i
    · subst hji
      exact Or.inr (h.issued.early p _ j hc rfl rfl).2
    · exact Or.inl (by simpa [hq, hji] using hj)
  · by_cases hji : j = i
    · subst hji
      exact Or.inl (h.working.queued_top hs).1
    · exact Or.inl (by simpa [hq, hji] using hj)

/-- **A step keeps the status what it should be.** -/
theorem Acts.written (ha : s.Acts device L a s' L') (h : s.Inv L) (hw : s.Written) :
    s'.Written where
  blank j hj := by
    cases ha.irp j with
    | kept hr ho => rw [hr]; exact hw.blank j (ho ▸ hj)
    | counted hr ho => rw [hr]; exact hw.blank j (ho ▸ hj)
    | constructed _ hr => rw [hr]; rfl
    | moved _ hr ho =>
      obtain ⟨_, -, -, hr⟩ := IoRequest.moveNextFrame_eq_some.mp hr
      rw [hr]
      exact hw.blank j (ho ▸ hj)
    | code _ hr ho => rw [hr]; exact hw.blank j (ho ▸ hj)
    | bytes _ _ ho => rw [ho] at hj; cases hj
    | destroyed _ _ hk hr ho =>
      rw [hr, IoRequest.destroyFrame_eq hk]
      exact hw.blank j (ho ▸ hj)
  coded w d i last r inside as hs' := by
    rcases ha.completing_from h.working hs' with ⟨-, hst⟩ | ⟨stage, hs, hst⟩
    · cases hst
    rcases hst rfl with rfl | ⟨rfl, hr⟩
    · have hcode := hw.coded w d i last r inside as hs
      cases ha.irp i with
      | kept hr => rw [hr, hcode]
      | counted hr => rw [hr]; exact hcode
      | constructed hj =>
        have := (h.working.queued_top hs).1
        rw [hj, (h.issued.unborn _ le_rfl).1] at this
        cases this
      | moved hs₁ | code hs₁ | destroyed hs₁ => rw [hs] at hs₁; cases hs₁
      | bytes hs₁ _ ho =>
        have := ((ha.working h).queued_top hs').2.2
        simp [ho] at this
    · rw [hr]; rfl
  result w d i last r stage inside as hs' := by
    rcases ha.completing_from h.working hs' with ⟨hr, -⟩ | ⟨stage₀, hs, -⟩
    · exact hr
    · exact hw.result _ _ _ _ _ _ _ _ hs
  done j r hj := by
    have hold : s.outcome j = some r →
      (s.irp j).status = ⟨r.code, r.bytes⟩ ∧ r.code ≠ .ioPending := hw.done j r
    cases ha.irp j with
    | kept hr ho => rw [hr]; exact hold (ho ▸ hj)
    | counted hr ho => rw [hr]; exact hold (ho ▸ hj)
    | constructed hi _ ho =>
      rw [ho, hi, (h.issued.unborn _ le_rfl).2] at hj
      cases hj
    | moved _ hr ho =>
      obtain ⟨_, -, -, hr⟩ := IoRequest.moveNextFrame_eq_some.mp hr
      rw [hr]
      exact hold (ho ▸ hj)
    | code hs _ ho =>
      have := (h.working.queued_top hs).2.2
      rw [ho, this.mp (Or.inl rfl)] at hj
      cases hj
    | @bytes w as d last r' inside hs hr ho =>
      cases ho.symm.trans hj
      have hcode := hw.coded _ _ _ _ _ _ _ hs
      have hbytes := hw.blank j ((h.working.queued_top hs).2.2.mp (Or.inr rfl))
      refine ⟨?_, hw.result _ _ _ _ _ _ _ _ hs⟩
      rw [hr]
      cases hst : (s.irp j).status with
      | mk code bytes =>
        rw [hst] at hcode hbytes
        simp only at hcode hbytes
        subst hcode hbytes
        cases r with
        | ok b => cases b <;> simp [IoRequest.finishBytes, Completion.bytes, hst]
        | err e => simp [IoRequest.finishBytes, Completion.bytes, hst]
    | destroyed _ _ hk hr ho =>
      rw [hr, IoRequest.destroyFrame_eq hk]
      exact hold (ho ▸ hj)
  finished j hj hc := by
    cases ha.frames j with
    | kept _ hc' =>
      rw [hc'] at hc
      rcases ha.queued_from h hj with hq | h0
      · exact ha.outcome_mono (hw.finished j hq hc)
      · rw [hc] at h0; cases h0
    | constructed _ hr => rw [hr] at hc; cases hc
    | moved _ hr =>
      obtain ⟨_, -, -, hr⟩ := IoRequest.moveNextFrame_eq_some.mp hr
      rw [hr] at hc
      cases hc
    | destroyed hs =>
      refine ha.outcome_mono fun ho ↦ ?_
      simpa using (h.working.queued_top hs).2.2.mpr ho

/-! ## The calls of the threads -/

/-- What a call knows. -/
def CallOk (s : IoManager) : Call → Prop
  | .queued i => (s.irp i).asyncIoBlock = none
  | .waiting i f => (s.irp i).asyncIoBlock = none ∧
    ∀ frame, (s.irp i).frames 0 = some frame → frame.file = f
  | .reading i => ∃ r, s.outcome i = some r
  | .readingBytes i => ∃ r, s.outcome i = some r ∧ r.code = .success
  | .returning i v => (s.irp i).asyncIoBlock = none → ∃ r, s.outcome i = some r ∧ v = r.value
  | _ => True

/-- As long as no thread is disturbed, each one waits until its request is completed. -/
structure Heard (s : IoManager) : Prop where
  call : ∀ t c, s.call t = some c → s.CallOk c
  quiet : ∀ t c j frame, s.call t = some c → c.pending? = some j →
    (s.irp j).asyncIoBlock = none → s.outcome j = none → (s.irp j).frames 0 = some frame →
      s.signal frame.file = false

theorem heard_init : init.Heard where
  call _ _ h := by cases h
  quiet _ _ _ _ h := by cases h

/-- What does not change about a request once it is allocated. -/
theorem Acts.keeps (ha : s.Acts device L a s' L') (h : s.Inv L) (hj : j < s.allocated) :
    (s'.irp j).asyncIoBlock = (s.irp j).asyncIoBlock ∧
      (∀ frame, (s'.irp j).frames 0 = some frame → (s.irp j).frames 0 = some frame) ∧
      ∀ r, s.outcome j = some r → s'.outcome j = some r := by
  have hblock : (s'.irp j).asyncIoBlock = (s.irp j).asyncIoBlock := by
    rcases ha.block_irp j with hb | ⟨x, f, kind, block, hi, -⟩
    · exact hb
    · exact absurd hj (hi ▸ lt_irrefl _)
  refine ⟨hblock, ?_⟩
  cases ha.irp j with
  | kept hr ho => rw [hr, ho]; exact ⟨fun _ ↦ id, fun _ ↦ id⟩
  | counted hr ho => rw [hr, ho]; exact ⟨fun _ ↦ id, fun _ ↦ id⟩
  | constructed hi => exact absurd hj (hi ▸ lt_irrefl _)
  | moved _ hr ho =>
    obtain ⟨_, -, -, hr⟩ := IoRequest.moveNextFrame_eq_some.mp hr
    rw [hr, ho]
    exact ⟨fun _ hf ↦ by simpa using hf, fun _ ↦ id⟩
  | code _ hr ho => rw [hr, ho]; exact ⟨fun _ ↦ id, fun _ ↦ id⟩
  | bytes hs hr ho =>
    refine ⟨fun frame hf ↦ by simpa [hr] using hf, fun r' hr' ↦ ?_⟩
    rw [(h.working.queued_top hs).2.2.mp (Or.inr rfl)] at hr'
    cases hr'
  | @destroyed _ _ _ _ k _ _ _ _ hk hr ho =>
    rw [hr, ho, IoRequest.destroyFrame_eq hk]
    refine ⟨fun frame hf ↦ ?_, fun _ ↦ id⟩
    by_cases hk0 : k = 0
    · subst hk0
      simp at hf
    · simpa [Ne.symm hk0] using hf

/-- What a call knows stays true. -/
theorem Acts.callOk (ha : s.Acts device L a s' L') (h : s.Inv L) {c : Call}
    (hlt : ∀ i, c.irp? = some i → i < s.allocated) (hc : s.CallOk c) : s'.CallOk c := by
  cases c with
  | queued i => exact (ha.keeps h (hlt i rfl)).1.trans hc
  | waiting i f =>
    obtain ⟨hb, hf, -⟩ := ha.keeps h (hlt i rfl)
    exact ⟨hb.trans hc.1, fun frame hframe ↦ hc.2 frame (hf frame hframe)⟩
  | reading i =>
    obtain ⟨r, hr⟩ := hc
    exact ⟨r, (ha.keeps h (hlt i rfl)).2.2 r hr⟩
  | readingBytes i =>
    obtain ⟨r, hr, hcode⟩ := hc
    exact ⟨r, (ha.keeps h (hlt i rfl)).2.2 r hr, hcode⟩
  | returning i v =>
    obtain ⟨hb, -, ho⟩ := ha.keeps h (hlt i rfl)
    intro hb'
    obtain ⟨r, hr, hv⟩ := hc (hb ▸ hb')
    exact ⟨r, ho r hr, hv⟩
  | _ => trivial

/-- A wait that succeeds is for a completed request. -/
theorem Heard.outcome (hh : s.Heard) (h : s.Inv L) (hw : s.Written) {f : FileId}
    (hc : s.call t = some (.waiting i f)) (hf : s.signal f = true) : ∃ r, s.outcome i = some r := by
  refine Option.ne_none_iff_exists'.mp fun ho ↦ ?_
  obtain ⟨hb, hfile⟩ := hh.call t _ hc
  have hcur : (s.irp i).currentFrame ≠ none := fun hcur ↦
    hw.finished i (h.issued.late (.thread t) _ i hc rfl rfl) hcur ho
  obtain ⟨k, hk⟩ := Option.ne_none_iff_exists'.mp hcur
  obtain ⟨frame, hframe⟩ := (h.stacked i).exists_frame hk (Nat.zero_le k)
  have := hh.quiet t _ i frame hc rfl hb ho hframe
  rw [hfile frame hframe, hf] at this
  cases this

theorem index_eq_thread {x : Caller} (h : s.index x = .thread t) : x = .thread t := by
  cases x <;> cases h
  rfl

/-- What a call knows after its own step. -/
theorem CallEffect.callOk {p : CallIndex} {c c' : Option Call} (he : s.CallEffect a s' p c c')
    (hp : p = .thread t) (hc : s.callAt p = c) (ha : s.Acts device L a s' L') (h : s.Inv L)
    (hw : s.Written) (hh : s.Heard) {c₁ : Call} (hc' : c' = some c₁) : s'.CallOk c₁ := by
  have hct : s.callAt (.thread t) = c := hp ▸ hc
  clear hc
  have hkeep : ∀ {c i}, s.callAt (.thread t) = some c → c.irp? = some i → _ := fun hc hi ↦
    ha.keeps h (h.issued.lt _ _ _ hc hi)
  cases he with
  | dispatch | allocate => cases hc'; trivial
  | @moves x _ _ _ _ hm =>
    cases hm with
    | slow | fill => cases hc'; trivial
    | answered | exhausted => cases hc'
    | @watch _ i frame hx hf =>
      cases hc'
      obtain ⟨hb, hframe, -⟩ := hkeep hct rfl
      refine ⟨hb.trans (hh.call t _ hct), fun frame' hf' ↦ ?_⟩
      cases hf.symm.trans (hframe frame' hf')
      rfl
    | awaited hx =>
      cases hx
      cases hp
    | wake hf =>
      cases hc'
      obtain ⟨r, hr⟩ := hh.outcome h hw hct hf
      exact ⟨r, (hkeep hct rfl).2.2 r hr⟩
    | success hcode =>
      cases hc'
      obtain ⟨r, hr⟩ := hh.call t _ hct
      refine ⟨r, (hkeep hct rfl).2.2 r hr, ?_⟩
      rw [(hw.done _ r hr).1] at hcode
      exact hcode
    | error hcode =>
      cases hc'
      obtain ⟨r, hr⟩ := hh.call t _ hct
      refine fun _ ↦ ⟨r, (hkeep hct rfl).2.2 r hr, ?_⟩
      rw [(hw.done _ r hr).1] at hcode ⊢
      exact (if_neg hcode).symm
    | bytes =>
      cases hc'
      obtain ⟨r, hr, hcode⟩ := hh.call t _ hct
      refine fun _ ↦ ⟨r, (hkeep hct rfl).2.2 r hr, ?_⟩
      rw [(hw.done _ r hr).1]
      exact (if_pos hcode).symm
  | @enqueue _ i _ _ hc₁ =>
    cases hc'
    have hb := (hkeep hct rfl).1
    cases hasync : (s.irp i).asyncIoBlock with
    | none =>
      rw [hasync] at hc₁ hb
      exact hc₁ ▸ hb
    | some b =>
      rw [hasync] at hc₁ hb
      rw [hc₁]
      exact fun hb' ↦ absurd (hb.symm.trans hb') (by simp)
  | drop => cases hc'
  | resume => cases hp

/-- What a step does to the events. -/
theorem Acts.signal (ha : s.Acts device L a s' L') : s'.signal = s.signal ∨
    (∃ f, s'.signal = update s.signal f false) ∨
    a = .advance .worker ∧ ∃ f, s.notifies = some f ∧ s'.signal = update s.signal f true := by
  cases ha with
  | @dispatch x f => exact Or.inr (Or.inl ⟨f, by simp⟩)
  | @notify w as d i last k result inside frame hs hk hf =>
    exact Or.inr (Or.inr ⟨rfl, frame.file, by simp [notifies, hs, hk, hf], rfl⟩)
  | call | allocate | enqueue => exact Or.inl (by simp [pushed, addRef, setIrp])
  | drop => exact Or.inl (by simp [decRef, setIrp])
  | _ => exact Or.inl rfl

/-- Where a call comes from that has not been told yet. -/
theorem Acts.pending (ha : s.Acts device L a s' L') {c' : Call} (hc : s'.call t = some c')
    (hp : c'.pending? = some j) :
    (∃ c, s.call t = some c ∧ c.pending? = some j) ∨
      a = .advance (.thread t) ∧ ∃ f kind block, s.call t = some (.slow f kind block) ∧
        s'.irp j = .construct block kind f := by
  rcases ha.callAt with h | ⟨p, c₁, he, h⟩
  · exact Or.inl ⟨c', (congrFun h (.thread t)).symm.trans hc, hp⟩
  · have hct : s'.callAt (.thread t) = some c' := hc
    by_cases hpt : p = .thread t
    · rw [h, hpt, Function.update_self] at hct
      generalize hold : s.callAt p = c at he
      have hold' : s.call t = c := by
        rw [hpt] at hold
        exact hold
      cases he with
      | dispatch | drop => cases hct; try cases hp
      | moves hm =>
        cases hm <;> cases hct <;> cases hp <;> exact Or.inl ⟨_, hold', rfl⟩
      | @allocate x f kind block _ hi hirp =>
        cases hct
        cases hp
        cases index_eq_thread hpt
        exact Or.inr ⟨rfl, f, kind, block, hold', by rw [hirp, Function.update_self]⟩
      | enqueue hc₁ =>
        cases hct
        refine Or.inl ⟨_, hold', ?_⟩
        split at hc₁ <;> subst hc₁
        · cases hp
        · exact hp
      | resume => cases hpt
    · rw [h, Function.update_of_ne (Ne.symm hpt)] at hct
      exact Or.inl ⟨c', hct, hp⟩

/-- **A step keeps the threads waiting for their own requests.** -/
theorem Acts.heard (ha : s.Acts device L a s' L') (h : s.Inv L) (hw : s.Written) (hh : s.Heard)
    (hu : s.Undisturbed a) : s'.Heard where
  call t c hc := by
    have hkeep : s.call t = some c → s'.CallOk c := fun hc ↦
      ha.callOk h (fun i hi ↦ h.issued.lt (.thread t) c i hc hi) (hh.call t c hc)
    have hct : s'.callAt (.thread t) = some c := hc
    rcases ha.callAt with he | ⟨p, c', he, h'⟩
    · rw [he] at hct
      exact hkeep hct
    · by_cases hpt : p = .thread t
      · rw [h', hpt, Function.update_self] at hct
        exact he.callOk hpt rfl ha h hw hh hct
      · rw [h', Function.update_of_ne (Ne.symm hpt)] at hct
        exact hkeep hct
  quiet t c' j frame hc' hp hb ho hf := by
    have hsig : s.signal frame.file = false := by
      rcases ha.pending hc' hp with ⟨c, hc, hp₀⟩ | ⟨rfl, f, kind, block, hc, hirp⟩
      · obtain ⟨hb₀, hf₀, ho₀⟩ :=
          ha.keeps h (h.issued.lt (.thread t) c j hc (Call.irp?_of_pending? hp₀))
        have ho₁ : s.outcome j = none := by
          by_contra hne
          exact ha.outcome_mono hne ho
        exact hh.quiet t c j frame hc hp₀ (hb₀ ▸ hb) ho₁ (hf₀ frame hf)
      · rw [hirp] at hb hf
        cases hf
        have hb' : block = none := hb
        exact hu f (by simp [hc, hb', Call.begins?])
    rcases ha.signal with hs | ⟨f, hs⟩ | ⟨rfl, f, hn, hs⟩ <;> rw [hs]
    · exact hsig
    · by_cases hff : frame.file = f <;> simp [hff, hsig]
    · have hff : frame.file ≠ f := by
        rintro rfl
        rcases ha.pending hc' hp with ⟨c, hc, hp₀⟩ | ⟨ha', -⟩
        · have hi := Call.irp?_of_pending? hp₀
          have hlt := h.issued.lt (.thread t) c j hc hi
          obtain ⟨hb₀, hf₀, ho₀⟩ := ha.keeps h hlt
          refine hu _ hn j hlt ⟨hb₀ ▸ hb, by simp [hf₀ frame hf], fun b hbs hbc ↦ ?_⟩ ?_
          · -- no call of a driver has the request of a thread
            obtain ⟨n, -, hl⟩ := exists_level hbs
            obtain ⟨c₁, hc₁, hi₁⟩ := Option.bind_eq_some_iff.mp hbc
            have := h.issued.unique (.thread t) (.level n) c c₁ j hc
              (by simp [IoManager.callAt, hl, hc₁]) hi hi₁
            cases this
          · by_contra hne
            exact ha.outcome_mono hne ho
        · cases ha'
      simp [hff, hsig]

/-! ## Every run -/

/-- **Each synchronous call gets its own result**, unless it is woken for that of another. -/
theorem result_of_own (h : (machine device).ReachableWhile Undisturbed s) {v : IoResult}
    (hc : s.call t = some (.returning i v)) (hb : (s.irp i).asyncIoBlock = none) :
    ∃ r, s.outcome i = some r ∧ v = r.value ∧ v ≠ .err .ioPending := by
  have hinv := (invariant_acts (I := fun s ↦ s.Written ∧ s.Heard) ⟨written_init, heard_init⟩
    (fun s L a s' L' hL hI hu ha _ ↦ ⟨ha.written hL hI.1, ha.heard hL hI.1 hI.2 hu⟩) h).1
  obtain ⟨r, hr, rfl⟩ := hinv.2.call t _ hc hb
  refine ⟨r, hr, rfl, ?_⟩
  unfold Completion.value
  split
  · simp
  · simpa using (hinv.1.done i r hr).2

/-- A call on the slow path, up to its wait. -/
def slowCall (x : Caller) (f : FileId) (block : Option BlockId) : List IoAction :=
  [.dispatch x f ⟨.generic, 1⟩ block, .fast x (.err .slowIo), .advance x, .advance x, .advance x]

/-- The worker takes a request from its list and leaves it pending. -/
def leavePending : List IoAction :=
  [.advance .worker, .advance .worker, .finish, .advance .worker, .advance .worker]

/-- The worker takes a request from its list and completes it, up to the notification. -/
def completeWith (r : Completion) : List IoAction :=
  [.advance .worker, .advance .worker, .complete r, .advance .worker, .advance .worker,
    .advance .worker]

/-- One thread, whose request is completed with 5 bytes. -/
def alone : List IoAction :=
  slowCall (.thread 1) 0 none ++ completeWith (.ok (some 5)) ++
    (List.replicate 4 (.advance (.thread 1)) : List IoAction)

theorem result_of_own_alone :
    ∃ r, ((machine id).afterWhile Undisturbed alone).outcome 0 = some r ∧ .ok 5 = r.value ∧
      IoResult.ok 5 ≠ .err .ioPending :=
  result_of_own (t := 1) (Machine.reachableWhile_afterWhile (M := machine id) alone)
    (by decide +kernel)
    (by decide +kernel)

/-- The driver leaves the request of thread 1 pending, and completes the one of thread 2. -/
def crossed : List IoAction :=
  slowCall (.thread 1) 0 none ++ leavePending ++
  ([.advance .worker, .advance (.thread 1)] : List IoAction) ++
    slowCall (.thread 2) 0 none ++ completeWith (.ok (some 5)) ++
      (List.replicate 2 (.advance (.thread 1)) : List IoAction)

/-- Thread 1 returns `io_pending`, and its request is still pending. -/
theorem result_of_another : ∃ s, (machine id).Reachable s ∧
    s.call 1 = some (.returning 0 (.err .ioPending)) ∧ (s.irp 0).asyncIoBlock = none ∧
      s.outcome 0 = none ∧ (s.irp 0).isCompleted = false :=
  ⟨(machine id).after crossed, Machine.reachable_after crossed, by decide +kernel⟩

end IoManager

end Chino
