import Chino.Io.Calls

/-!
# Where a request is

A request that was queued and is not completed is in exactly one place: on a list of a device, in
the hands of an activation of the worker, or in those of a `requeue_pending_io`.  `Placed` is this
invariant.  It goes together with `Working`, which says how far the frames of the requests are that
the worker has its hands on, and `reachable_inv` concludes both for every run.

## The places

A `Place` is a list of a device, a level of the stack, or a `requeue_pending_io` that has taken the
request off `pending_irps_` and not queued it yet.  `At` reads off the state and the sequences of
the lists whether a request is there.  `Placed` says: a request is at some place just if it is
`Outstanding`, that is queued and not completed, and then at one.

A step changes the place of one request at most (`PlaceEffect`).  The lemmas come in the shapes that
these changes have: a request goes from nowhere to a list (`at_go`), from one list to another or to
an activation (`at_move`, `Placed.take`, `Placed.put`), or ceases to be anywhere (`Placed.discard`).

`Working` is about the other half of a driver's freedom.  While `process_io` runs, the request may
move to a next frame and be queued to another device, which gives it back to the worker; `HandOk`
says how far its frames are in each case, so that `complete` finds the frame that it ends.
-/

set_option autoImplicit false

namespace Chino

open Function (update)
open IoManager (resume)

/-- The request whose frames an activation is about to destroy. -/
def Phase.unwinds : Phase → Option IrpId
  | completing _ i _ _ .notify _ | completing _ i _ _ .destroy _ => some i
  | _ => none

namespace IoManager

variable {s s' : IoManager} {L L' : IoQueues} {x : Caller} {c c' : Option Call} {i j : IrpId}
  {device : FileId → DeviceId} {a : IoAction}

/-! ## The invariant -/

/-- A place of a request. -/
inductive Place where
  /-- A list of a device. -/
  | list (l : IoListId)
  /-- The hands of an activation of the worker. -/
  | level (n : ℕ)
  /-- A `requeue_pending_io` in progress. -/
  | handler (n : ℕ)
deriving DecidableEq

/-- The request is at the place, if the lists spell out `L`. -/
def At (s : IoManager) (L : IoQueues) (i : IrpId) : Place → Prop
  | .list l => i ∈ L l
  | .level n => ((Chino.level s.stack n).bind fun a ↦ a.phase.held) = some i
  | .handler n => (s.requeue n).map Prod.snd = some i

/-- The requests that were queued and are not completed are the ones that have a place, and they
have one. -/
structure Placed (s : IoManager) (L : IoQueues) : Prop where
  rep : s.lists.Represents L
  unique : ∀ i p q, s.At L i p → s.At L i q → p = q
  queued_iff : ∀ i, s.queued i = true ∧ (s.irp i).currentFrame ≠ none ↔ ∃ p, s.At L i p

/-- How far the frames are when `process_io` was called with frame `last`. -/
def HandOk (s : IoManager) (i : IrpId) (last : ℕ) : Hand → Prop
  | .fresh => (s.irp i).currentFrame = some last
  | .moved => (s.irp i).currentFrame = some (last + 1)
  | .gone => ∀ k, (s.irp i).currentFrame = some k → last < k ∨ s.outcome i ≠ none

/-- How far the request of an activation is. -/
def PhaseOk (s : IoManager) : Phase → Prop
  | .processing _ i last hand _ => s.queued i = true ∧ s.HandOk i last hand
  | .completing _ i _ _ stage _ => s.queued i = true ∧
    ((s.irp i).currentFrame = none ↔ stage = .deliver) ∧
    (stage = .code ∨ stage = .bytes ↔ s.outcome i = none)
  | .checking _ i last hand => s.queued i = true ∧ hand ≠ .moved ∧ s.HandOk i last hand
  | .dropping _ i => s.queued i = true ∧ (s.irp i).currentFrame = none
  | .parking _ i => s.queued i = true
  | _ => True

/-- The worker knows what it is doing. -/
structure Working (s : IoManager) : Prop where
  phase : ∀ a ∈ s.stack, s.PhaseOk a.phase
  /-- Only the innermost activation is not in a call. -/
  below : ∀ a ∈ s.stack.tail, ∃ d i last hand c, a.phase = .processing d i last hand (some c)
  /-- A request whose status is set loses all its frames at once. -/
  unwinding : ∀ i, s.outcome i ≠ none → (s.irp i).currentFrame ≠ none →
    (s.stack.head?.bind fun a ↦ a.phase.unwinds) = some i

/-- What holds between any two steps. -/
structure Inv (s : IoManager) (L : IoQueues) : Prop where
  stacked : ∀ i, (s.irp i).Stacked
  issued : s.Issued
  placed : s.Placed L
  working : s.Working

/-- What is known of the innermost activation. -/
theorem Working.queued_top (hw : s.Working) {w : Option IrpId} {p : Phase} {as : List Activation}
    (hs : s.stack = ⟨w, p⟩ :: as) : s.PhaseOk p :=
  hw.phase ⟨w, p⟩ (by rw [hs]; exact List.mem_cons_self)

/-- An activation works on requests that were queued. -/
theorem PhaseOk.queued {p : Phase} (h : s.PhaseOk p) (hp : p.irp? = some i) :
    s.queued i = true := by
  cases p with
  | processing | completing | checking | dropping => cases hp; exact h.1
  | parking => cases hp; exact h
  | _ => cases hp

theorem Working.topQueued (hw : s.Working) : s.TopQueued := fun _ _ _ _ hs hp ↦
  (hw.queued_top hs).queued hp

/-! ## The invariant of the places -/

/-- The request was queued and is not completed. -/
def Outstanding (s : IoManager) (i : IrpId) : Prop :=
  s.queued i = true ∧ (s.irp i).currentFrame ≠ none

/-- **What a step does to the places of the requests.** -/
inductive PlaceEffect (s : IoManager) (L : IoQueues) (s' : IoManager) (L' : IoQueues) : Prop
  | same (h : ∀ j q, s'.At L' j q ↔ s.At L j q)
      (ho : ∀ j, s'.Outstanding j ↔ s.Outstanding j)
  | go (i : IrpId) (p : Place) (h : ∀ j q, s'.At L' j q ↔ j = i ∧ q = p ∨ j ≠ i ∧ s.At L j q)
      (hi : s'.Outstanding i) (ho : ∀ j, j ≠ i → (s'.Outstanding j ↔ s.Outstanding j))
  | leave (i : IrpId) (h : ∀ j q, s'.At L' j q ↔ j ≠ i ∧ s.At L j q) (hi : ¬ s'.Outstanding i)
      (ho : ∀ j, j ≠ i → (s'.Outstanding j ↔ s.Outstanding j))

theorem PlaceEffect.placed (he : s.PlaceEffect L s' L') (h : s.Placed L)
    (hr : s'.lists.Represents L') : s'.Placed L' := by
  cases he with
  | same hat ho =>
    refine ⟨hr, fun i p q hp hq ↦ h.unique i p q ((hat i p).mp hp) ((hat i q).mp hq), fun i ↦ ?_⟩
    simp only [hat]
    exact (ho i).trans (h.queued_iff i)
  | go i r hat hi ho =>
    refine ⟨hr, fun j p q hp hq ↦ ?_, fun j ↦ ?_⟩
    · rcases (hat j p).mp hp with ⟨rfl, rfl⟩ | ⟨hj, hp⟩ <;>
        rcases (hat j q).mp hq with ⟨hj', hq'⟩ | ⟨hj', hq⟩
      · exact hq'.symm
      · exact absurd rfl hj'
      · exact absurd hj' hj
      · exact h.unique j p q hp hq
    · by_cases hj : j = i
      · subst hj
        exact iff_of_true hi ⟨r, (hat j r).mpr (Or.inl ⟨rfl, rfl⟩)⟩
      · simp only [hat, hj, false_and, false_or, ne_eq, not_false_eq_true, true_and]
        exact (ho j hj).trans (h.queued_iff j)
  | leave i hat hi ho =>
    refine ⟨hr, fun j p q hp hq ↦ h.unique j p q ((hat j p).mp hp).2 ((hat j q).mp hq).2,
      fun j ↦ ?_⟩
    by_cases hj : j = i
    · subst hj
      exact iff_of_false hi fun ⟨p, hp⟩ ↦ ((hat j p).mp hp).1 rfl
    · simp only [hat, ne_eq, hj, not_false_eq_true, true_and]
      exact (ho j hj).trans (h.queued_iff j)

theorem outstanding_congr (hq : s'.queued = s.queued)
    (hc : ∀ j, (s'.irp j).currentFrame = (s.irp j).currentFrame) (j : IrpId) :
    s'.Outstanding j ↔ s.Outstanding j := by
  rw [Outstanding, Outstanding, hq, hc]

/-- Writing a request without moving its frame pointer. -/
theorem setIrp_currentFrame {r : IoRequest} (hr : r.currentFrame = (s.irp i).currentFrame)
    (j : IrpId) : ((s.setIrp i r).irp j).currentFrame = (s.irp j).currentFrame := by
  by_cases hj : j = i
  · subst hj; simpa [setIrp] using hr
  · simp [setIrp, hj]

theorem addRef_currentFrame (j : IrpId) :
    ((s.addRef i).irp j).currentFrame = (s.irp j).currentFrame :=
  setIrp_currentFrame (i := i) (r := { s.irp i with refCount := (s.irp i).refCount + 1 }) rfl j

theorem decRef_currentFrame (j : IrpId) :
    ((s.decRef i).irp j).currentFrame = (s.irp j).currentFrame :=
  setIrp_currentFrame (i := i) (r := { s.irp i with refCount := (s.irp i).refCount - 1 }) rfl j

/-- The places after a step of the innermost activation. -/
theorem at_top {w w' : Option IrpId} {p p' : Phase} {as : List Activation}
    (hs : s.stack = ⟨w, p⟩ :: as) (hs' : s'.stack = ⟨w', p'⟩ :: as) (hreq : s'.requeue = s.requeue)
    (q : Place) : s'.At L' j q ↔ match q with
      | .list l => j ∈ L' l
      | .level n => if n = as.length then p'.held = some j else s.At L j (.level n)
      | .handler n => s.At L j (.handler n) := by
  cases q with
  | list l => exact Iff.rfl
  | level n => by_cases hn : n = as.length <;> simp [At, hs, hs', level_cons, hn]
  | handler n => simp [At, hreq]

theorem at_top_same {w w' : Option IrpId} {p p' : Phase} {as : List Activation}
    (hs : s.stack = ⟨w, p⟩ :: as) (hs' : s'.stack = ⟨w', p'⟩ :: as) (hreq : s'.requeue = s.requeue)
    (hh : p'.held = p.held) (q : Place) : s'.At L j q ↔ s.At L j q := by
  rw [at_top (L := L) hs hs' hreq]
  cases q with
  | list l => exact Iff.rfl
  | level n =>
    by_cases hn : n = as.length
    · simp [hn, hh, At, hs, level_cons]
    · simp [hn]
  | handler n => exact Iff.rfl

/-- What the innermost activation holds. -/
theorem at_level {w : Option IrpId} {p : Phase} {as : List Activation}
    (hs : s.stack = ⟨w, p⟩ :: as) : s.At L j (.level as.length) ↔ p.held = some j := by
  simp [At, hs, level_cons]

/-- `setCall` does not move a request. -/
theorem InCall.at_setCall (h : s.InCall x c) (q : Place) :
    (s.setCall x c').At L j q ↔ s.At L j q := by
  cases x with
  | thread t => cases q <;> simp [At, setCall]
  | worker =>
    obtain ⟨w, d, i, last, hand, as, hs⟩ := h
    have hs' : (s.setCall .worker c').stack = ⟨w, .processing d i last hand c'⟩ :: as := by
      rw [setCall_worker hs]
    exact at_top_same hs hs' (setCall_requeue ..) rfl q

/-- A request that is at no place goes to one. -/
theorem at_go {p : Place} (hfree : ∀ q, ¬ s.At L i q)
    (h : ∀ j q, s'.At L' j q ↔ s.At L j q ∨ j = i ∧ q = p) (j : IrpId) (q : Place) :
    s'.At L' j q ↔ j = i ∧ q = p ∨ j ≠ i ∧ s.At L j q := by
  rw [h]
  by_cases hj : j = i
  · subst hj
    simp [hfree q]
  · simp [hj]

/-- A request goes from one place to another. -/
theorem at_move {p p' : Place} (hu : ∀ q, s.At L i q → q = p)
    (h : ∀ j q, s'.At L' j q ↔ s.At L j q ∧ ¬ (j = i ∧ q = p) ∨ j = i ∧ q = p') (j : IrpId)
    (q : Place) : s'.At L' j q ↔ j = i ∧ q = p' ∨ j ≠ i ∧ s.At L j q := by
  rw [h]
  by_cases hj : j = i
  · subst hj
    have := hu q
    simp only [true_and, ne_eq, not_true_eq_false, false_and, or_false]
    tauto
  · simp [hj]

/-- A request is put at the end of a list. -/
theorem mem_push {l l' : IoListId} :
    j ∈ update L l (L l ++ [i]) l' ↔ j ∈ L l' ∨ j = i ∧ l' = l := by
  by_cases hl : l' = l
  · subst hl; simp
  · simp [hl]

/-- A request is taken off a list. -/
theorem mem_pull {l l' : IoListId} (hn : (L l).Nodup) :
    j ∈ update L l ((L l).erase i) l' ↔ j ∈ L l' ∧ ¬ (j = i ∧ l' = l) := by
  by_cases hl : l' = l
  · subst hl; simp [hn.mem_erase_iff, and_comm]
  · simp [hl]

theorem Placed.outstanding (h : s.Placed L) {p : Place} (hp : s.At L i p) : s.Outstanding i :=
  (h.queued_iff i).mpr ⟨p, hp⟩

/-- A request goes from `p` to `p'`. -/
theorem Placed.moves (h : s.Placed L) {p r : Place} (hp : s.At L i p)
    (hq : s'.queued = s.queued)
    (hc : ∀ j, (s'.irp j).currentFrame = (s.irp j).currentFrame)
    (hat : ∀ j q, s'.At L' j q ↔ s.At L j q ∧ ¬ (j = i ∧ q = p) ∨ j = i ∧ q = r) :
    s.PlaceEffect L s' L' :=
  .go i r (at_move (fun q hq ↦ h.unique i q p hq hp) hat)
    ((outstanding_congr hq hc i).mpr (h.outstanding hp)) fun j _ ↦ outstanding_congr hq hc j

section Top

variable {w w' : Option IrpId} {p p' : Phase} {as : List Activation} {l : IoListId}

/-- The innermost activation goes on with what it holds. -/
theorem PlaceEffect.keep (hs : s.stack = ⟨w, p⟩ :: as) (hs' : s'.stack = ⟨w', p'⟩ :: as)
    (hreq : s'.requeue = s.requeue) (hh : p'.held = p.held)
    (ho : ∀ j, s'.Outstanding j ↔ s.Outstanding j) : s.PlaceEffect L s' L :=
  .same (fun _ q ↦ at_top_same hs hs' hreq hh q) ho

/-- The innermost activation takes a request off a list. -/
theorem Placed.take (h : s.Placed L) (hs : s.stack = ⟨w, p⟩ :: as)
    (hs' : s'.stack = ⟨w', p'⟩ :: as) (hreq : s'.requeue = s.requeue) (hp : p.held = none)
    (hp' : p'.held = some i) (hi : i ∈ L l) (hq : s'.queued = s.queued)
    (hc : ∀ j, (s'.irp j).currentFrame = (s.irp j).currentFrame) :
    s.PlaceEffect L s' (update L l ((L l).erase i)) := by
  refine h.moves (p := .list l) (r := .level as.length) hi hq hc fun j q ↦ ?_
  rw [at_top (L := L) hs hs' hreq]
  cases q with
  | list l' => simp [At, mem_pull (h.rep.nodup l)]
  | level n =>
    by_cases hn : n = as.length
    · simp [hn, at_level hs, hp, hp', eq_comm]
    · simp [hn]
  | handler n => simp

/-- The innermost activation puts its request on a list. -/
theorem Placed.put (h : s.Placed L) (hs : s.stack = ⟨w, p⟩ :: as)
    (hs' : s'.stack = ⟨w', p'⟩ :: as) (hreq : s'.requeue = s.requeue) (hp : p.held = some i)
    (hp' : p'.held = none) (hq : s'.queued = s.queued)
    (hc : ∀ j, (s'.irp j).currentFrame = (s.irp j).currentFrame) :
    s.PlaceEffect L s' (update L l (L l ++ [i])) := by
  refine h.moves (r := .list l) ((at_level hs).mpr hp) hq hc fun j q ↦ ?_
  rw [at_top (L := L) hs hs' hreq]
  cases q with
  | list l' => simp [At, mem_push]
  | level n =>
    by_cases hn : n = as.length
    · simp [hn, at_level hs, hp, hp', eq_comm]
    · simp [hn]
  | handler n => simp

/-- The innermost activation is done with its request. -/
theorem Placed.discard (h : s.Placed L) (hs : s.stack = ⟨w, p⟩ :: as)
    (hs' : s'.stack = ⟨w', p'⟩ :: as) (hreq : s'.requeue = s.requeue) (hp : p.held = some i)
    (hp' : p'.held = none) (hi : ¬ s'.Outstanding i)
    (ho : ∀ j, j ≠ i → (s'.Outstanding j ↔ s.Outstanding j)) : s.PlaceEffect L s' L := by
  refine .leave i (fun j q ↦ ?_) hi ho
  have hu : s.At L i q → q = .level as.length := fun hq ↦
    h.unique i q _ hq ((at_level hs).mpr hp)
  rw [at_top (L := L) hs hs' hreq]
  by_cases hj : j = i
  · subst hj
    cases q with
    | list l => simpa [At] using fun hq ↦ absurd (hu hq) (by simp)
    | level n =>
      by_cases hn : n = as.length
      · simp [hn, hp']
      · simpa [hn] using fun hq ↦ absurd (hu hq) (by simp [hn])
    | handler n => simpa using fun hq ↦ absurd (hu hq) (by simp)
  · cases q with
    | level n =>
      by_cases hn : n = as.length
      · simp [hn, hj, hp', at_level hs, hp, Ne.symm hj]
      · simp [hn, hj]
    | _ => simp [hj, At]

end Top

/-- A request that `process_io` has not handed on, or has, when it has returned. -/
theorem Working.checked (hw : s.Working) {w : Option IrpId} {d : DeviceId} {last : ℕ} {hand : Hand}
    {as : List Activation} (hs : s.stack = ⟨w, .checking d i last hand⟩ :: as) :
    hand = .fresh ∧ (s.irp i).currentFrame = some last ∨
      hand = .gone ∧ (s.irp i).currentFrame ≠ some last := by
  obtain ⟨-, hm, hok⟩ := hw.queued_top hs
  cases hand with
  | fresh => exact Or.inl ⟨rfl, hok⟩
  | moved => exact absurd rfl hm
  | gone =>
    refine Or.inr ⟨rfl, fun hc ↦ ?_⟩
    rcases hok last hc with hlt | ho
    · exact lt_irrefl _ hlt
    · have := hw.unwinding i ho (by simp [hc])
      rw [hs] at this
      cases this

/-- **What a step does to the places.** -/
theorem Acts.place (ha : s.Acts device L a s' L') (h : s.Inv L) : s.PlaceEffect L s' L' := by
  have hsame : ∀ {s₁ : IoManager} {w w' : Option IrpId} {p p' : Phase} {as : List Activation},
      s.stack = ⟨w, p⟩ :: as → s₁.stack = ⟨w', p'⟩ :: as → s₁.requeue = s.requeue →
      p'.held = p.held → s₁.queued = s.queued →
      (∀ j, (s₁.irp j).currentFrame = (s.irp j).currentFrame) → s.PlaceEffect L s₁ L :=
    fun hs hs' hreq hh hq hc ↦
      .same (fun j q ↦ at_top_same hs hs' hreq hh q) (outstanding_congr hq hc)
  cases ha with
  | @dispatch x f kind block hx =>
    refine .same (fun j q ↦ ?_) (outstanding_congr (by simp) (by simp))
    exact InCall.at_setCall (s := { s with signal := update s.signal f false }) hx q
  | call hx hm =>
    exact .same (fun j q ↦ hx.at_setCall q) (outstanding_congr (by simp) (by simp))
  | @allocate x f kind block hx =>
    refine .same (fun j q ↦ InCall.at_setCall (s := { s with
        irp := update s.irp s.allocated (.construct block kind f)
        allocated := s.allocated + 1 }) hx q)
      fun j ↦ ?_
    by_cases hj : j = s.allocated
    · subst hj
      simp [Outstanding, (h.issued.unborn _ le_rfl).1]
    · simp [Outstanding, hj]
  | @enqueue x i frame c h' work avail hx hf hc =>
    obtain ⟨hq, hcur⟩ := h.issued.early _ _ i hx.callAt rfl rfl
    have hfree : ∀ q, ¬ s.At L i q := fun q hp ↦ by
      have := (h.placed.outstanding hp).1
      rw [hq] at this
      cases this
    refine .go i (.list (.irps (device frame.file))) (at_go hfree fun j q ↦ ?_) ?_ fun j hj ↦ ?_
    · rw [InCall.at_setCall (s := { (s.addRef i).pushed h' work avail with queued := _ }) hx]
      cases q with
      | list l => simp [At, mem_push]
      | level n => simp [At, pushed, addRef, setIrp]
      | handler n => simp [At, pushed, addRef, setIrp]
    · simp [Outstanding, pushed, addRef, setIrp, hcur]
    · simp [Outstanding, pushed, addRef, setIrp, hj]
  | @await i hx hc =>
    refine .same (fun j q ↦ ?_) fun _ ↦ Iff.rfl
    cases q with
    | level n =>
      by_cases hn : n = s.stack.length
      · subst hn
        simp [At, level_cons, level_of_le, Phase.held]
      · simp [At, level_cons, hn]
    | _ => exact Iff.rfl
  | @drop x i r hx =>
    refine .same (fun j q ↦ InCall.at_setCall (s := s.decRef i) hx q)
      (outstanding_congr (by simp [decRef, setIrp]) fun j ↦ ?_)
    rw [setCall_irp, decRef_currentFrame]
  | turn hs hp hp' =>
    exact hsame hs rfl rfl (by rw [Phase.held_of_irp? hp, Phase.held_of_irp? hp']) rfl fun _ ↦ rfl
  | @pop w as d i is k h' hs hL hk =>
    have : s.PlaceEffect L { s with lists := h', stack := ⟨w, .processing d i k .fresh none⟩ :: as }
        (update L (.irps d) ((L (.irps d)).erase i)) :=
      h.placed.take hs rfl rfl rfl rfl (by simp [hL]) rfl fun _ ↦ rfl
    simpa [hL] using this
  | access => exact .same (fun _ _ ↦ Iff.rfl) fun _ ↦ Iff.rfl
  | start hs => exact hsame hs rfl rfl rfl rfl fun _ ↦ rfl
  | @move w as d i last kind f r hs hr =>
    refine .keep hs rfl rfl rfl fun j ↦ ?_
    by_cases hj : j = i
    · subst hj
      obtain ⟨k, hk, -, rfl⟩ := IoRequest.moveNextFrame_eq_some.mp hr
      simp [Outstanding, setIrp, hk]
    · simp [Outstanding, setIrp, hj]
  | @handOver w as d i last k frame h' work avail hs hk hk0 hf =>
    have hq := (h.placed.outstanding ((at_level hs).mpr rfl)).1
    exact h.placed.put hs rfl rfl rfl rfl (by simp [← hq]) fun _ ↦ rfl
  | finish hs => exact hsame hs rfl rfl rfl rfl fun _ ↦ rfl
  | code hs => exact hsame hs rfl rfl rfl rfl (setIrp_currentFrame rfl)
  | bytes hs => exact hsame hs rfl rfl rfl rfl (setIrp_currentFrame (by simp))
  | notify hs => exact hsame hs rfl rfl rfl rfl fun _ ↦ rfl
  | @destroy w as d i last k result inside hs hk =>
    by_cases hk0 : k = 0
    · subst hk0
      refine h.placed.discard (i := i) hs rfl rfl rfl rfl ?_ fun j hj ↦ ?_
      · simp [Outstanding, setIrp, IoRequest.destroyFrame_eq hk]
      · simp [Outstanding, setIrp, hj]
    · refine .keep hs rfl rfl (by simp [hk0, Phase.held]) fun j ↦ ?_
      by_cases hj : j = i
      · subst hj
        simp [Outstanding, setIrp, IoRequest.destroyFrame_eq hk, hk, hk0]
      · simp [Outstanding, setIrp, hj]
  | deliver hs => exact hsame hs rfl rfl (by split <;> rfl) rfl fun _ ↦ rfl
  | @check w as d i last hand p hs hp =>
    refine hsame hs rfl rfl ?_ rfl fun _ ↦ rfl
    rcases h.working.checked hs with ⟨rfl, hc⟩ | ⟨rfl, hc⟩
    · rcases hp with ⟨hn, -⟩ | ⟨⟨k, hk, hne⟩, -⟩ | ⟨-, rfl⟩
      · rw [hc] at hn; cases hn
      · rw [hc] at hk; cases hk; exact absurd rfl hne
      · rfl
    · rcases hp with ⟨-, rfl⟩ | ⟨-, rfl⟩ | ⟨hc', -⟩
      · rfl
      · rfl
      · exact absurd hc' hc
  | @release w as d i hs =>
    have ho : ∀ j, (s.decRef i).Outstanding j ↔ s.Outstanding j :=
      outstanding_congr (by rfl) decRef_currentFrame
    by_cases hw : w = some i
    · refine .same (fun j q ↦ ?_) ho
      cases q with
      | level n =>
        simp only [At, hw, if_pos]
        rw [level_resume_held, hs, level_cons]
        by_cases hn : n = as.length
        · subst hn
          simp [level_of_le, Phase.held]
        · simp [hn]
      | _ => exact Iff.rfl
    · exact .keep hs (if_neg hw) rfl rfl ho
  | @park w as d i h' hs =>
    exact h.placed.put hs rfl rfl rfl rfl rfl fun _ ↦ rfl
  | @irq n d pred i h' hn hi =>
    refine h.placed.moves (p := .list (.pending d)) (r := .handler n) hi rfl (fun _ ↦ rfl)
      fun j q ↦ ?_
    cases q with
    | list l => simp [At, mem_pull (h.placed.rep.nodup _)]
    | level m => simp [At]
    | handler m =>
      by_cases hm : m = n
      · subst hm
        simp [At, hn, eq_comm]
      · simp [At, hm]
  | @requeue n d i h' work avail hn =>
    have hp : s.At L i (.handler n) := by simp [At, hn]
    refine h.placed.moves (r := .list (.irps d)) hp rfl (fun _ ↦ rfl) fun j q ↦ ?_
    cases q with
    | list l => simp [At, mem_push]
    | level m => simp [At, pushed]
    | handler m =>
      by_cases hm : m = n
      · subst hm
        simp [At, hn, eq_comm]
      · simp [At, hm]

end IoManager

end Chino
