import Chino.Io.Touches
import Chino.Library.Counter

/-!
# The references of a request

A request is freed when two references are gone, the one of the call that allocated it and the one
that `queue` took.  The worker drops the second once it finds the request completed after a
`process_io`.  `Accounted` says that the two are counted right, that the second one is dropped once,
and that the request is in one place until then.

It needs that a request is completed by the `process_io` that has it.  If a `process_io` hands its
request on and then waits for a request of its own, the worker may complete the first one meanwhile,
in an activation above; then both drop the reference: `dropped_twice`.

## How the counts are followed

* **The reference of the call.**  `Owned` says that some call has the request.  By `Issued` it is
  one call at most, so the reference of the call is a truth value, and `Acts.counts` says how a step
  changes it together with `refCount`: a request is allocated with one reference, `queue` adds one,
  and a return of the call drops one.
* **The reference of the queue.**  It is there from `queue` to the moment at which the worker finds
  the request completed.  `workers` is the number of activations that have the request in hand;
  under `CompletesOwn` it is one at most when a request is completed, so one activation finds it
  completed, and `Dropped` says that it drops the reference then and never again.
* **The count.**  `Counted` adds the two.  `ref_count_` is a word of 32 bits, and two references do
  not wrap it around; `Chino.Library.Counter` has the steps of such a word.

`accounted` is stated for runs whose steps all meet `CompletesOwn`.  The condition looks at the
state before the step only: which activation is at work, and which request it is about to complete.
In the other runs a request may be freed while a call still has it.  Requests are numbered here, and
a number is not used again, so what happens then to the slot of the pool is not followed: an early
release is seen in the counts and in `releases`.
-/

set_option autoImplicit false

namespace Chino

open Function (update)
open IoManager (resume)

namespace IoManager

variable {s s' : IoManager} {L L' : IoQueues} {i j : IrpId} {device : FileId → DeviceId}
  {a : IoAction} {x : Caller} {c c' : Option Call}

/-- A request is completed only by the activation that has it. -/
def CompletesOwn (s : IoManager) : IoAction → Prop
  | .advance .worker => ∀ i ∈ s.finishing, ∀ b ∈ s.stack.tail, b.phase.irp? ≠ some i
  | _ => True

instance : (a : IoAction) → Decidable (s.CompletesOwn a)
  | .advance .worker => inferInstanceAs
    (Decidable (∀ i ∈ s.finishing, ∀ b ∈ s.stack.tail, b.phase.irp? ≠ some i))
  | .advance (.thread _) | .dispatch .. | .fast .. | .exhausted _ | .access | .complete _
  | .move .. | .queue | .finish | .fail _ | .irq .. | .requeue _ => isTrue trivial

/-! ## The reference of the call -/

/-- A call has the request. -/
def Owned (s : IoManager) (j : IrpId) : Prop := ∃ p, (s.callAt p).bind Call.irp? = some j

theorem owned_congr (h : ∀ p, (s'.callAt p).bind Call.irp? = (s.callAt p).bind Call.irp?)
    (j : IrpId) : s'.Owned j ↔ s.Owned j := by
  simp [Owned, h]

/-- A call goes on, and may have another request then. -/
theorem InCall.owned_setCall {s₁ : IoManager} (hx : s.InCall x c) (h₁ : s₁.call = s.call)
    (h₂ : s₁.stack = s.stack) (j : IrpId) : (s₁.setCall x c').Owned j ↔
      c'.bind Call.irp? = some j ∨ ∃ p, p ≠ s.index x ∧ (s.callAt p).bind Call.irp? = some j := by
  rw [Owned, hx.callAt_setCall_of h₁ h₂]
  constructor
  · rintro ⟨p, hp⟩
    by_cases hpx : p = s.index x
    · rw [hpx, Function.update_self] at hp
      exact Or.inl hp
    · rw [Function.update_of_ne hpx] at hp
      exact Or.inr ⟨p, hpx, hp⟩
  · rintro (hc | ⟨p, hpx, hp⟩)
    · exact ⟨s.index x, by rw [Function.update_self, hc]⟩
    · exact ⟨p, by rw [Function.update_of_ne hpx, hp]⟩

theorem InCall.owned (hx : s.InCall x c) (j : IrpId) : s.Owned j ↔
    c.bind Call.irp? = some j ∨ ∃ p, p ≠ s.index x ∧ (s.callAt p).bind Call.irp? = some j := by
  constructor
  · rintro ⟨p, hp⟩
    by_cases hpx : p = s.index x
    · rw [hpx, hx.callAt] at hp
      exact Or.inl hp
    · exact Or.inr ⟨p, hpx, hp⟩
  · rintro (hc | ⟨p, -, hp⟩)
    · exact ⟨s.index x, by rw [hx.callAt, hc]⟩
    · exact ⟨p, hp⟩

theorem CallMoves.owner (hm : s.CallMoves x a c c') : c'.bind Call.irp? = c.bind Call.irp? := by
  cases hm <;> rfl

theorem owned_top {w w' : Option IrpId} {p p' : Phase} {as : List Activation}
    (hs : s.stack = ⟨w, p⟩ :: as) (hs' : s'.stack = ⟨w', p'⟩ :: as) (hp : p.call? = p'.call?)
    (hc : s'.call = s.call) (j : IrpId) : s'.Owned j ↔ s.Owned j := by
  rw [Owned, Owned, callAt_of_top hs hs' hp hc]

/-! ## What a step does to the counts -/

/-- How a step changes the references of the request `j`. -/
inductive CountEffect (s s' : IoManager) (j : IrpId) : Prop
  | kept (hr : (s'.irp j).refCount = (s.irp j).refCount) (ho : s'.Owned j ↔ s.Owned j)
      (hq : s'.queued j = s.queued j) (hd : s'.drops j = s.drops j)
      (hl : s'.releases j = s.releases j) (hb : j < s'.allocated → j < s.allocated)
  | allocated (hj : j = s.allocated) (hr : (s'.irp j).refCount = 1) (ho : s'.Owned j)
      (hq : s'.queued j = s.queued j) (hd : s'.drops j = s.drops j)
      (hl : s'.releases j = s.releases j)
  | queued (hr : (s'.irp j).refCount = (s.irp j).refCount + 1) (ho : s.Owned j) (ho' : s'.Owned j)
      (hq : s.queued j = false) (hq' : s'.queued j = true) (hd : s'.drops j = s.drops j)
      (hl : s'.releases j = s.releases j)
  | returned (hr : (s'.irp j).refCount = (s.irp j).refCount - 1) (ho : s.Owned j)
      (ho' : ¬ s'.Owned j) (hq : s'.queued j = s.queued j) (hd : s'.drops j = s.drops j)
      (hl : s'.releases j = if (s.irp j).refCount = 1 then s.releases j + 1 else s.releases j)
  | dropped {w : Option IrpId} {d : DeviceId} {as : List Activation}
      (hs : s.stack = ⟨w, .dropping d j⟩ :: as)
      (hr : (s'.irp j).refCount = (s.irp j).refCount - 1) (ho : s'.Owned j ↔ s.Owned j)
      (hq : s'.queued j = s.queued j) (hd : s'.drops j = s.drops j + 1)
      (hl : s'.releases j = if (s.irp j).refCount = 1 then s.releases j + 1 else s.releases j)

theorem decRef_releases (j : IrpId) : (s.decRef i).releases j =
    if j = i ∧ (s.irp i).refCount = 1 then s.releases j + 1 else s.releases j := by
  by_cases hc : (s.irp i).refCount = 1
  · by_cases hj : j = i
    · subst hj; simp [decRef, hc]
    · simp [decRef, hc, hj]
  · simp [decRef, hc, setIrp]

/-- A return to the level below does not change whose request is whose. -/
theorem level_resume_owner (as : List Activation) (n : ℕ) :
    ((level (resume as) n).bind fun b ↦ b.phase.call?).bind Call.irp? =
      ((level as n).bind fun b ↦ b.phase.call?).bind Call.irp? := by
  rcases resume_cases as with h | ⟨w, d, i, last, hand, j, bs, rfl, h⟩
  · rw [h]
  · rw [h, level_cons, level_cons]
    by_cases hn : n = bs.length
    · subst hn
      simp [Phase.call?, Call.irp?]
    · simp [hn]

/-- The request of a call belongs to no other call. -/
theorem Issued.not_elsewhere (h : s.Issued) {c₀ : Call} (hx : s.InCall x (some c₀))
    (hc : c₀.irp? = some j) :
    ¬ ∃ p, p ≠ s.index x ∧ (s.callAt p).bind Call.irp? = some j := by
  rintro ⟨p, hp, hpc⟩
  obtain ⟨c₁, h₁, h₂⟩ := Option.bind_eq_some_iff.mp hpc
  exact hp (h.unique p _ c₁ c₀ j h₁ hx.callAt h₂ hc)

/-- **What a step does to the references.** -/
theorem Acts.counts (ha : s.Acts device L a s' L') (h : s.Inv L) (j : IrpId) :
    s.CountEffect s' j := by
  have htop : ∀ {s₁ : IoManager} {w w' : Option IrpId} {p p' : Phase} {as : List Activation},
      s.stack = ⟨w, p⟩ :: as → s₁.stack = ⟨w', p'⟩ :: as → p.call? = p'.call? → s₁.call = s.call →
      (s₁.irp j).refCount = (s.irp j).refCount → s₁.queued j = s.queued j →
      s₁.drops = s.drops → s₁.releases = s.releases → s₁.allocated = s.allocated →
      s.CountEffect s₁ j :=
    fun hs hs' hp hc hr hq hd hl hb ↦
      .kept hr (owned_top hs hs' hp hc j) hq (congrFun hd j) (congrFun hl j) (by rw [hb]; exact id)
  cases ha with
  | @dispatch x f kind block hx =>
    refine .kept (by simp) ?_ (by simp) (by simp) (by simp) (by simp)
    rw [hx.owned_setCall (by rfl) (by rfl), hx.owned]
    exact Iff.rfl
  | call hx hm =>
    refine .kept (by simp) ?_ (by simp) (by simp) (by simp) (by simp)
    rw [hx.owned_setCall (by rfl) (by rfl), hx.owned, hm.owner]
  | @allocate x f kind block hx =>
    by_cases hj : j = s.allocated
    · refine .allocated hj ?_ ?_ (by simp) (by simp) (by simp)
      · subst hj
        simp [IoRequest.construct]
      · rw [hx.owned_setCall (by rfl) (by rfl)]
        exact Or.inl (by simp [Call.irp?, hj])
    · refine .kept (by simp [hj]) ?_ (by simp) (by simp) (by simp) fun hb ↦
        Nat.lt_of_le_of_ne (Nat.lt_succ_iff.mp (by simpa using hb)) hj
      rw [hx.owned_setCall (by rfl) (by rfl), hx.owned]
      simp [Call.irp?, Ne.symm hj]
  | @enqueue x i frame c h' work avail hx hf hc =>
    have hci : c.irp? = some i := by
      rw [hc]
      split <;> rfl
    have ho : ∀ s₁ : IoManager, s₁.call = s.call → s₁.stack = s.stack →
        ((s₁.setCall x (some c)).Owned j ↔ s.Owned j) := fun s₁ h₁ h₂ ↦ by
      rw [hx.owned_setCall h₁ h₂, hx.owned, Option.bind_some, hci]
      rfl
    by_cases hj : j = i
    · subst hj
      have hown : s.Owned j := (hx.owned j).mpr (Or.inl rfl)
      refine .queued (by simp [pushed, addRef, setIrp]) hown ?_
        (h.issued.early _ _ j hx.callAt rfl rfl).1 (by simp) (by simp [pushed, addRef, setIrp])
        (by simp [pushed, addRef, setIrp])
      rw [ho _ (by rfl) (by rfl)]
      exact hown
    · exact .kept (by simp [pushed, addRef, setIrp, hj]) (ho _ rfl rfl) (by simp [hj])
        (by simp [pushed, addRef, setIrp]) (by simp [pushed, addRef, setIrp])
        (by simp [pushed, addRef, setIrp])
  | @await i hx hc =>
    refine .kept rfl (owned_congr (fun p ↦ ?_) j) rfl rfl rfl id
    cases p with
    | thread t => rfl
    | level n =>
      by_cases hn : n = s.stack.length
      · subst hn
        simp [IoManager.callAt, level_cons, Phase.call?, level_of_le]
      · simp [IoManager.callAt, level_cons, hn]
  | @drop x i r hx =>
    by_cases hj : j = i
    · subst hj
      refine .returned (by simp [decRef, setIrp]) ?_ ?_ (by simp [decRef, setIrp])
        (by simp [decRef, setIrp]) (by simp [decRef_releases])
      · rw [hx.owned]
        exact Or.inl rfl
      · rw [hx.owned_setCall (by rfl) (by rfl)]
        rintro (hc | he)
        · cases hc
        · exact h.issued.not_elsewhere hx rfl he
    · refine .kept (by simp [decRef, setIrp, hj]) ?_ (by simp [decRef, setIrp])
        (by simp [decRef, setIrp]) (by simp [decRef_releases, hj]) (by simp [decRef, setIrp])
      rw [hx.owned_setCall (by rfl) (by rfl), hx.owned]
      simp [Call.irp?, Ne.symm hj]
  | turn hs hp hp' =>
    exact htop hs rfl (by
      rw [Phase.call?_of_irp? hp, Phase.call?_of_irp? hp']) rfl rfl rfl rfl rfl rfl
  | pop hs | start hs | notify hs | finish hs | park hs =>
    exact htop hs rfl rfl rfl rfl rfl rfl rfl rfl
  | access => exact .kept rfl Iff.rfl rfl rfl rfl id
  | @move w as d i last kind f r hs hr =>
    refine htop hs rfl rfl rfl ?_ rfl rfl rfl rfl
    by_cases hj : j = i
    · subst hj
      obtain ⟨_, -, -, rfl⟩ := IoRequest.moveNextFrame_eq_some.mp hr
      simp [setIrp]
    · simp [setIrp, hj]
  | @handOver w as d i last k frame h' work avail hs hk hk0 hf =>
    refine htop hs rfl rfl rfl rfl ?_ rfl rfl rfl
    by_cases hj : j = i
    · subst hj
      simp [(h.working.queued_top hs).1]
    · simp [hj]
  | @code w as d i last result inside hs =>
    refine htop hs rfl rfl rfl ?_ rfl rfl rfl rfl
    by_cases hj : j = i
    · subst hj
      simp [setIrp, IoRequest.finishCode]
    · simp [setIrp, hj]
  | @bytes w as d i last result inside hs =>
    refine htop hs rfl rfl rfl ?_ rfl rfl rfl rfl
    by_cases hj : j = i
    · subst hj
      simp only [setIrp, Function.update_self]
      cases result with
      | ok b => cases b <;> rfl
      | err e => rfl
    · simp [setIrp, hj]
  | @destroy w as d i last k result inside hs hk =>
    refine htop hs rfl rfl rfl ?_ rfl rfl rfl rfl
    by_cases hj : j = i
    · subst hj
      simp [setIrp, IoRequest.destroyFrame_eq hk]
    · simp [setIrp, hj]
  | @deliver w as d i last result inside hs =>
    exact htop hs rfl (by split <;> rfl) rfl rfl rfl rfl rfl rfl
  | @check w as d i last hand p hs hp =>
    refine htop hs rfl ?_ rfl rfl rfl rfl rfl rfl
    rcases hp with ⟨-, rfl⟩ | ⟨-, rfl⟩ | ⟨-, rfl⟩ <;> rfl
  | @release w as d i hs =>
    have ho : ∀ s₁ : IoManager, s₁.call = s.call →
        s₁.stack = (if w = some i then resume as else ⟨w, .popping d⟩ :: as) →
          (s₁.Owned j ↔ s.Owned j) := fun s₁ hc hs₁ ↦ by
      by_cases hw : w = some i
      · refine owned_congr (fun p ↦ ?_) j
        cases p with
        | thread t => rw [IoManager.callAt, IoManager.callAt, hc]
        | level n =>
          rw [IoManager.callAt, IoManager.callAt, hs₁, if_pos hw, hs, level_resume_owner,
            level_cons]
          by_cases hn : n = as.length
          · subst hn
            simp [level_of_le, Phase.call?]
          · simp [hn]
      · exact owned_top hs (hs₁.trans (if_neg hw)) rfl hc j
    by_cases hj : j = i
    · subst hj
      exact .dropped hs (by simp [decRef, setIrp]) (ho _ rfl rfl) rfl (by simp)
        (by simp [decRef_releases])
    · exact .kept (by simp [decRef, setIrp, hj]) (ho _ rfl rfl) rfl (by simp [hj])
        (by simp [decRef_releases, hj]) id
  | irq => exact .kept rfl Iff.rfl rfl rfl rfl id
  | requeue => exact .kept rfl Iff.rfl rfl rfl rfl id

/-! ## The reference of the queue -/

/-- How many activations work on the request. -/
def workers (s : IoManager) (j : IrpId) : ℕ :=
  s.stack.countP fun b ↦ decide (b.phase.irp? = some j)

theorem workers_cons {w : Option IrpId} {p : Phase} {as : List Activation}
    (hs : s.stack = ⟨w, p⟩ :: as) : s.workers j =
      as.countP (fun b ↦ decide (b.phase.irp? = some j)) + if p.irp? = some j then 1 else 0 := by
  rw [workers, hs, List.countP_cons]
  simp

theorem InCall.workers_setCall {s₁ : IoManager} (hx : s.InCall x c) (h₂ : s₁.stack = s.stack)
    (j : IrpId) : (s₁.setCall x c').workers j = s.workers j := by
  cases x with
  | thread t => simp [workers, setCall, h₂]
  | worker =>
    obtain ⟨w, d, i, last, hand, as, hs⟩ := hx
    rw [setCall_worker (h₂.trans hs), workers_cons rfl, workers_cons hs]
    rfl

theorem countP_resume (as : List Activation) (j : IrpId) :
    (resume as).countP (fun b ↦ decide (b.phase.irp? = some j)) =
      as.countP fun b ↦ decide (b.phase.irp? = some j) := by
  rcases resume_cases as with h | ⟨w, d, i, last, hand, k, bs, rfl, h⟩
  · rw [h]
  · rw [h, List.countP_cons, List.countP_cons]
    rfl

/-- How a step changes the number of the activations that work on the request `j`. -/
inductive WorkEffect (s s' : IoManager) (j : IrpId) : Prop
  | kept (hw : s'.workers j = s.workers j) (hd : s'.drops j = s.drops j)
  | outstanding (hc : (s.irp j).currentFrame ≠ none) (hc' : (s'.irp j).currentFrame ≠ none)
      (hd : s'.drops j = s.drops j)
  | dropped (hq : s.queued j = true) (hc : (s.irp j).currentFrame = none)
      (hw : s'.workers j + 1 = s.workers j) (hd : s'.drops j = s.drops j + 1)

theorem Acts.work (ha : s.Acts device L a s' L') (h : s.Inv L) (j : IrpId) :
    s.WorkEffect s' j := by
  have htop : ∀ {s₁ : IoManager} {w w' : Option IrpId} {p p' : Phase} {as : List Activation},
      s.stack = ⟨w, p⟩ :: as → s₁.stack = ⟨w', p'⟩ :: as → p'.irp? = p.irp? →
      s₁.drops = s.drops → s.WorkEffect s₁ j := fun hs hs' hp hd ↦
    .kept (by rw [workers_cons hs, workers_cons hs', hp]) (congrFun hd j)
  -- the innermost activation takes up or leaves a request that is not completed
  have hout : ∀ {s₁ : IoManager} {w w' : Option IrpId} {p p' : Phase} {as : List Activation}
      {i : IrpId}, s.stack = ⟨w, p⟩ :: as → s₁.stack = ⟨w', p'⟩ :: as →
      (s.irp i).currentFrame ≠ none → (∀ k, k ≠ i → (p'.irp? = some k ↔ p.irp? = some k)) →
      s₁.irp = s.irp → s₁.drops = s.drops → s.WorkEffect s₁ j := by
    intro s₁ w w' p p' as i hs hs' hc hp hirp hd
    by_cases hj : j = i
    · subst hj
      exact .outstanding hc (hirp ▸ hc) (congrFun hd j)
    · refine .kept ?_ (congrFun hd j)
      rw [workers_cons hs, workers_cons hs']
      simp [hp j hj]
  cases ha with
  | dispatch hx | call hx | allocate hx =>
    exact .kept (hx.workers_setCall (by rfl) j) (by simp)
  | enqueue hx => exact .kept (hx.workers_setCall (by rfl) j) (by simp [pushed, addRef, setIrp])
  | drop hx => exact .kept (hx.workers_setCall (by rfl) j) (by simp [decRef, setIrp])
  | await hx => exact .kept (by simp [workers, Phase.irp?]) rfl
  | turn hs hp hp' => exact htop hs rfl (by rw [hp, hp']) rfl
  | pop hs hL hk =>
    exact hout hs rfl (Option.ne_none_iff_exists'.mpr ⟨_, hk⟩)
      (fun k hk ↦ by simp [Phase.irp?, Ne.symm hk]) rfl rfl
  | access => exact .kept rfl rfl
  | start hs | move hs | handOver hs | finish hs => exact htop hs rfl rfl rfl
  | code hs | bytes hs | notify hs | destroy hs => exact htop hs rfl rfl rfl
  | deliver hs => exact htop hs rfl (by split <;> rfl) rfl
  | check hs hp =>
    rcases hp with ⟨-, rfl⟩ | ⟨⟨k, hk, -⟩, rfl⟩ | ⟨-, rfl⟩
    · exact htop hs rfl rfl rfl
    · exact hout hs rfl (Option.ne_none_iff_exists'.mpr ⟨_, hk⟩)
        (fun k hk ↦ by simp [Phase.irp?, Ne.symm hk]) rfl rfl
    · exact htop hs rfl rfl rfl
  | @release w as d i hs =>
    have hcount : ∀ s₁ : IoManager,
        s₁.stack = (if w = some i then resume as else ⟨w, .popping d⟩ :: as) →
          s₁.workers j = as.countP fun b ↦ decide (b.phase.irp? = some j) := fun s₁ hs₁ ↦ by
      by_cases hw : w = some i
      · rw [workers, hs₁, if_pos hw, countP_resume]
      · rw [workers_cons (hs₁.trans (if_neg hw))]
        simp [Phase.irp?]
    have hj := workers_cons (j := j) hs
    obtain ⟨hq, hc⟩ := h.working.queued_top hs
    by_cases hji : j = i
    · subst hji
      exact .dropped hq hc (by rw [hcount _ rfl, hj]; simp [Phase.irp?]) (by simp)
    · exact .kept (by rw [hcount _ rfl, hj]; simp [Phase.irp?, Ne.symm hji]) (by simp [hji])
  | @park w as d i h' hs =>
    have hc := (h.placed.outstanding ((at_level hs).mpr rfl)).2
    exact hout hs rfl hc (fun k hk ↦ by simp [Phase.irp?, Ne.symm hk]) rfl rfl
  | irq => exact .kept rfl rfl
  | requeue => exact .kept rfl rfl

/-- The reference of the queue is dropped once, by one activation, after the completion. -/
structure Dropped (s : IoManager) : Prop where
  pending : ∀ j, s.queued j = false ∨ (s.irp j).currentFrame ≠ none → s.drops j = 0
  completed : ∀ j, s.queued j = true → (s.irp j).currentFrame = none → s.workers j + s.drops j = 1

theorem Acts.dropped (ha : s.Acts device L a s' L') (h : s.Inv L) (hd : s.Dropped)
    (hc : s.CompletesOwn a) : s'.Dropped where
  pending j hj := by
    have hold : s.queued j = false ∨ (s.irp j).currentFrame ≠ none := by
      rcases hj with hj | hj
      · refine Or.inl ?_
        by_contra hq
        rw [ha.queued_mono (by simpa using hq)] at hj
        cases hj
      · cases ha.frames j with
        | kept _ hcur => exact Or.inr (hcur ▸ hj)
        | constructed hi => exact Or.inl (hi ▸ (h.issued.unborn _ le_rfl).1)
        | moved _ hr =>
          obtain ⟨k, hk, -⟩ := IoRequest.moveNextFrame_eq_some.mp hr
          exact Or.inr (by simp [hk])
        | destroyed _ _ hk => exact Or.inr (by simp [hk])
    cases ha.work h j with
    | kept _ hd' => rw [hd', hd.pending j hold]
    | outstanding _ _ hd' => rw [hd', hd.pending j hold]
    | dropped hq hcur =>
      rcases hold with hq' | hcur'
      · rw [hq] at hq'; cases hq'
      · exact absurd hcur hcur'
  completed j hq' hcur' := by
    by_cases hcur : (s.irp j).currentFrame = none
    · have hq : s.queued j = true := by
        rcases ha.queued_from h hq' with hq | h0
        · exact hq
        · rw [hcur] at h0; cases h0
      have hsum := hd.completed j hq hcur
      cases ha.work h j with
      | kept hw hd' => rw [hw, hd', hsum]
      | outstanding hc₁ => exact absurd hcur hc₁
      | dropped _ _ hw hd' => omega
    · -- the last frame is destroyed in this step
      cases ha.frames j with
      | kept _ hc' => exact absurd (hc' ▸ hcur') hcur
      | constructed _ hr => rw [hr] at hcur'; cases hcur'
      | moved _ hr =>
        obtain ⟨_, -, -, hr⟩ := IoRequest.moveNextFrame_eq_some.mp hr
        rw [hr] at hcur'
        cases hcur'
      | @destroyed w as d last k r inside hs hs' hk hr he =>
        subst he
        have hk0 : k = 0 := by
          by_contra hk0
          simp [hr, IoRequest.destroyFrame_eq hk, hk0] at hcur'
        subst hk0
        have hlow : as.countP (fun b ↦ decide (b.phase.irp? = some j)) = 0 := by
          refine List.countP_eq_zero.mpr fun b hb ↦ ?_
          have := hc j (by simp [finishing, hs, hk]) b (by simpa [hs] using hb)
          simpa using this
        have hdrop : s'.drops j = s.drops j := by
          cases ha.work h j with
          | kept _ hd' => exact hd'
          | outstanding _ _ hd' => exact hd'
          | dropped _ hc₁ => exact absurd hc₁ hcur
        rw [workers_cons hs', hlow, hdrop, hd.pending j (Or.inr hcur)]
        simp [Phase.irp?]

/-! ## The reference count -/

open Classical in
/-- The reference of the call. -/
noncomputable def callRefs (s : IoManager) (j : IrpId) : ℕ := if s.Owned j then 1 else 0

/-- The reference of the queue. -/
def queueRefs (s : IoManager) (j : IrpId) : ℕ := if s.queued j = true ∧ s.drops j = 0 then 1 else 0

/-- The references of a request. -/
noncomputable def refs (s : IoManager) (j : IrpId) : ℕ := s.callRefs j + s.queueRefs j

theorem callRefs_of_owned (h : s.Owned j) : s.callRefs j = 1 := if_pos h

theorem callRefs_of_not_owned (h : ¬ s.Owned j) : s.callRefs j = 0 := if_neg h

theorem callRefs_congr (h : s'.Owned j ↔ s.Owned j) : s'.callRefs j = s.callRefs j := by
  by_cases ho : s.Owned j
  · rw [callRefs_of_owned ho, callRefs_of_owned (h.mpr ho)]
  · rw [callRefs_of_not_owned ho, callRefs_of_not_owned fun ho' ↦ ho (h.mp ho')]

/-- The references are counted, and a request is freed when it has none. -/
structure Counted (s : IoManager) : Prop where
  count : ∀ j, (s.irp j).refCount.toNat = s.refs j
  released : ∀ j, s.releases j = if j < s.allocated ∧ s.refs j = 0 then 1 else 0

theorem counted_init : init.Counted where
  count j := by
    have hn : ¬ init.Owned j := by
      rintro ⟨t | n, hp⟩
      · cases hp
      · cases n <;> cases hp
    rw [refs, callRefs_of_not_owned hn]
    rfl
  released j := by simp [init]

/-- A reference is dropped. -/
theorem Counted.decRef (hn : s.Counted) (hj : j < s.allocated) (he : s.refs j = s'.refs j + 1)
    (hr : (s'.irp j).refCount = (s.irp j).refCount - 1)
    (hl : s'.releases j = if (s.irp j).refCount = 1 then s.releases j + 1 else s.releases j)
    (hb : s.allocated ≤ s'.allocated) : (s'.irp j).refCount.toNat = s'.refs j ∧
      s'.releases j = if j < s'.allocated ∧ s'.refs j = 0 then 1 else 0 := by
  have hc := (hn.count j).trans he
  have h1 := Counter.eq_one_iff hc
  have h0 : s.releases j = 0 := by
    rw [hn.released j, if_neg]
    simp [he]
  refine ⟨by rw [hr, Counter.toNat_sub_one hc], ?_⟩
  rw [hl, h0]
  simp only [h1, hj.trans_le hb, true_and]

theorem Acts.counted (ha : s.Acts device L a s' L') (h : s.Inv L) (hd : s.Dropped)
    (hn : s.Counted) : s'.Counted := by
  have hcr : ∀ j, (s'.irp j).refCount.toNat = s'.refs j ∧
      s'.releases j = if j < s'.allocated ∧ s'.refs j = 0 then 1 else 0 := fun j ↦ by
    have hc := hn.count j
    have hr := hn.released j
    cases ha.counts h j with
    | kept hr' ho hq hd' hl hb =>
      have he : s'.refs j = s.refs j := by
        rw [refs, refs, callRefs_congr ho, queueRefs, queueRefs, hq, hd']
      have hle : j < s'.allocated ↔ j < s.allocated := ⟨hb, fun hj ↦ hj.trans_le ha.allocated_le⟩
      rw [hr', he, hl]
      simp only [hle]
      exact ⟨hc, hr⟩
    | allocated hj hr' ho hq hd' hl =>
      have hq₀ := (h.issued.unborn j (hj ▸ le_rfl)).1
      have he : s'.refs j = 1 := by
        rw [refs, callRefs_of_owned ho, queueRefs, hq, hq₀]
        rfl
      rw [hr', he, hl, hr, hj]
      simp
    | queued hr' ho ho' hq hq' hd' hl =>
      have hd₀ := hd.pending j (Or.inl hq)
      have he₀ : s.queueRefs j = 0 := by simp [queueRefs, hq]
      have he : s'.queueRefs j = 1 := by simp [queueRefs, hq', hd', hd₀]
      rw [refs, he₀, callRefs_of_owned ho] at hc hr
      rw [hr', refs, he, callRefs_of_owned ho', hl, hr, Counter.toNat_add_one hc (by decide)]
      simp
    | returned hr' ho ho' hq hd' hl =>
      obtain ⟨p, hp⟩ := ho
      obtain ⟨c, hpc, hci⟩ := Option.bind_eq_some_iff.mp hp
      refine hn.decRef (h.issued.lt p c j hpc hci) ?_ hr' hl ha.allocated_le
      rw [refs, refs, callRefs_of_owned ⟨p, hp⟩, callRefs_of_not_owned ho', queueRefs, queueRefs,
        hq, hd']
      omega
    | dropped hs hr' ho hq hd' hl =>
      obtain ⟨hqt, hcur⟩ := h.working.queued_top hs
      have hsum := hd.completed j hqt hcur
      rw [workers_cons hs] at hsum
      have hd₀ : s.drops j = 0 := by
        simp only [Phase.irp?, if_true] at hsum
        omega
      have hlt : j < s.allocated := by
        by_contra hle
        rw [(h.issued.unborn j (Nat.le_of_not_lt hle)).1] at hqt
        cases hqt
      refine hn.decRef hlt ?_ hr' hl ha.allocated_le
      have he₀ : s.queueRefs j = 1 := by simp [queueRefs, hqt, hd₀]
      have he : s'.queueRefs j = 0 := by simp [queueRefs, hd']
      rw [refs, refs, callRefs_congr ho, he₀, he]
  exact ⟨fun j ↦ (hcr j).1, fun j ↦ (hcr j).2⟩

/-! ## Every run -/

/-- What is true of a request at any time. -/
structure Accounted (s : IoManager) (i : IrpId) : Prop where
  /-- Until it is completed it is in one place, once. -/
  place : s.queued i = true → (s.irp i).isCompleted = false →
    ∃! p, s.At s.lists.toList i p
  nodup : ∀ l, (s.lists.toList l).Nodup
  /-- Meanwhile the reference of the queue is counted. -/
  pending : s.queued i = true → (s.irp i).isCompleted = false → s.drops i = 0
  /-- Afterwards it has been dropped once, or one activation is still to drop it. -/
  completed : s.queued i = true → (s.irp i).isCompleted = true → s.workers i + s.drops i = 1
  count : (s.irp i).refCount.toNat = s.callRefs i + s.queueRefs i
  /-- It was freed once, if there is no reference left, and else not yet. -/
  released : s.releases i =
    if i < s.allocated ∧ s.callRefs i = 0 ∧ s.queueRefs i = 0 then 1 else 0
  linked : (∃ l, i ∈ s.lists.toList l) → s.releases i = 0
  held : 0 < s.workers i → s.releases i = 0

/-- **Requests are neither lost, nor duplicated, nor freed early**, if each is completed by the
activation that has it. -/
theorem accounted (h : (machine device).ReachableWhile CompletesOwn s) (i : IrpId) :
    s.Accounted i := by
  have hinit : init.Dropped := ⟨fun _ _ ↦ rfl, fun _ h ↦ by cases h⟩
  obtain ⟨⟨hd, hn⟩, L, hL⟩ := invariant_acts (I := fun s ↦ s.Dropped ∧ s.Counted)
    ⟨hinit, counted_init⟩
    (fun s L a s' L' hL hI hc ha _ ↦ ⟨ha.dropped hL hI.1 hc, ha.counted hL hI.1 hI.2⟩) h
  have hto : s.lists.toList = L := hL.placed.rep.toList_eq
  have hfree : s.queueRefs i = 1 → s.releases i = 0 := fun hq ↦ by
    rw [hn.released, refs, hq]
    simp
  have hout : s.Outstanding i → s.releases i = 0 := fun ho ↦
    hfree (by simp [queueRefs, ho.1, hd.pending i (Or.inr ho.2)])
  have hcur : (s.irp i).isCompleted = false ↔ (s.irp i).currentFrame ≠ none := by
    simp [IoRequest.isCompleted, Option.isSome_iff_ne_none]
  refine ⟨fun hq hc ↦ ?_, fun l ↦ ?_, fun hq hc ↦ hd.pending i (Or.inr (hcur.mp hc)),
    fun hq hc ↦ hd.completed i hq (by simpa [IoRequest.isCompleted] using hc), hn.count i, ?_,
    fun ⟨l, hl⟩ ↦ ?_, fun hw ↦ ?_⟩
  · obtain ⟨p, hp⟩ := (hL.placed.queued_iff i).mp ⟨hq, hcur.mp hc⟩
    rw [hto]
    exact ⟨p, hp, fun q hp' ↦ hL.placed.unique i q p hp' hp⟩
  · rw [hto]
    exact hL.placed.rep.nodup l
  · rw [hn.released, refs]
    simp only [Nat.add_eq_zero_iff]
  · rw [hto] at hl
    exact hout (hL.placed.outstanding (p := .list l) hl)
  · obtain ⟨b, hb, hbi⟩ := List.countP_pos_iff.mp hw
    have hq := (hL.working.phase b hb).queued (by simpa using hbi)
    by_cases hc : (s.irp i).currentFrame = none
    · have hsum := hd.completed i hq hc
      have hd₀ : s.drops i = 0 := by omega
      exact hfree (by simp [queueRefs, hq, hd₀])
    · exact hout ⟨hq, hc⟩

/-- The worker goes on by itself. -/
def work (n : ℕ) : List IoAction := List.replicate n (.advance .worker)

/-- A request that is completed and dropped. -/
def served : List IoAction :=
  slowCall (.thread 1) 0 none ++ completeWith (.ok (some 5)) ++ work 2 ++
    ([.finish] : List IoAction) ++ work 2

theorem accounted_served : ((machine id).afterWhile CompletesOwn served).Accounted 0 :=
  accounted (Machine.reachableWhile_afterWhile (M := machine id) served) 0

/-- A driver hands its request on and then does synchronous I/O. -/
def handOnAndWait : List IoAction :=
  slowCall (.thread 1) 0 none ++ work 2 ++ ([.move ⟨.generic, 1⟩ 1, .queue] : List IoAction) ++
    slowCall .worker 2 none

/-- The request is completed while that driver waits, and the reference is dropped both above and
below: the request is freed while its thread still has it. -/
theorem dropped_twice : ∃ s, (machine id).Reachable s ∧
    s.drops 0 = 2 ∧ s.releases 0 = 1 ∧ s.call 1 = some (.queued 0) :=
  ⟨(machine id).after (handOnAndWait ++ work 1 ++ completeWith (.ok (some 5)) ++ work 4 ++
    ([.finish] : List IoAction) ++ work 3 ++ completeWith (.ok none) ++ work 2 ++
      ([.finish] : List IoAction) ++ work 5 ++ ([.finish] : List IoAction) ++ work 2),
    Machine.reachable_after _, by decide +kernel⟩

end IoManager

end Chino
