import Chino.Io.Steps

/-!
# Whose call a request belongs to

A request belongs to the call of `dispatch_io_fast_slow` that allocated it, and is queued by it
once: `Issued`.

The activations of the worker are numbered from the outermost one, so that a level keeps its number
while others come and go above it.  With this the calls are a function (`callAt`), which a step
changes at one argument at most (`Acts.callAt`).

## Why calls are numbered

A thread is in one call of `dispatch_io_fast_slow` at a time, so a thread is a name for its call.
The worker is not: a driver that does synchronous I/O makes a call while another one of the worker
goes on further out.  A `CallIndex` is therefore a thread, or a level in the stack of activations.
Counting from the outermost activation, what is pushed and popped is always the last level, and
`callAt` changes at one index only.

Three kinds of effects are read off `Acts` here, once for all invariants that speak of calls and
requests:

* `CallEffect`, how a step changes the call at an index (`Acts.callAt`);
* `IrpEffect`, how it changes a request and what is recorded of its result (`Acts.irp`);
* `FrameEffect`, how it changes the frames of a request.

`CallEffect.origin` and `Acts.origin` look at a call backwards: it was there before, at the same
index, or has just allocated its request.  `Issued` follows: the request of a call is below
`allocated`, no other call has it, and it was queued just if the call is past `queue`.
-/

set_option autoImplicit false

namespace Chino

open Function (update)

open IoManager (resume)

/-! ## Levels -/

/-- The activations by their depth. -/
def level (as : List Activation) (n : ℕ) : Option Activation := as.reverse[n]?

theorem level_of_le {as : List Activation} {n : ℕ} (h : as.length ≤ n) : level as n = none := by
  rw [level, List.getElem?_eq_none]
  simpa using h

theorem level_cons (a : Activation) (as : List Activation) :
    level (a :: as) = update (level as) as.length (some a) := by
  funext n
  rw [level, List.reverse_cons]
  rcases Nat.lt_trichotomy n as.length with h | h | h
  · rw [List.getElem?_append_left (by simpa using h), Function.update_of_ne (by omega)]
    rfl
  · subst h
    rw [Function.update_self, List.getElem?_append_right (by simp)]
    simp
  · rw [Function.update_of_ne (by omega), level_of_le (by omega), List.getElem?_eq_none]
    simp only [List.length_append, List.length_reverse, List.length_singleton]
    omega

theorem exists_level {a : Activation} {as : List Activation} (h : a ∈ as) :
    ∃ n, n < as.length ∧ level as n = some a := by
  obtain ⟨n, hn, he⟩ := List.getElem_of_mem (List.mem_reverse.mpr h)
  exact ⟨n, by simpa using hn, by rw [level, List.getElem?_eq_getElem hn, he]⟩

/-- A return to the level below does not change whose request is whose. -/
theorem resume_cases (as : List Activation) : resume as = as ∨
    ∃ w d i last hand j bs, as = ⟨w, .processing d i last hand (some (.queued j))⟩ :: bs ∧
      resume as = ⟨w, .processing d i last hand (some (.reading j))⟩ :: bs := by
  unfold resume
  split
  · exact Or.inr ⟨_, _, _, _, _, _, _, rfl, rfl⟩
  · exact Or.inl rfl

theorem level_resume_held (as : List Activation) (n : ℕ) :
    ((level (resume as) n).bind fun a ↦ a.phase.held) = (level as n).bind fun a ↦ a.phase.held := by
  rcases resume_cases as with h | ⟨w, d, i, last, hand, j, bs, rfl, h⟩
  · rw [h]
  · rw [h, level_cons, level_cons]
    by_cases hn : n = bs.length
    · subst hn; simp [Phase.held]
    · simp [hn]

namespace IoManager

/-! ## Calls -/

/-- The callers, with the activations by their depth. -/
inductive CallIndex where
  | thread (t : ThreadId)
  | level (n : ℕ)
deriving DecidableEq

/-- The call at an index. -/
def callAt (s : IoManager) : CallIndex → Option Call
  | .thread t => s.call t
  | .level n => (Chino.level s.stack n).bind fun a ↦ a.phase.call?

/-- The index of a caller. -/
def index (s : IoManager) : Caller → CallIndex
  | .thread t => .thread t
  | .worker => .level (s.stack.length - 1)

variable {s s' : IoManager} {L L' : IoQueues} {x : Caller} {c c' : Option Call} {i j : IrpId}

theorem InCall.callAt (h : s.InCall x c) : s.callAt (s.index x) = c := by
  cases x with
  | thread t => exact h
  | worker =>
    obtain ⟨w, d, i, last, hand, as, hs⟩ := h
    simp [IoManager.callAt, index, hs, level_cons, Phase.call?]

/-- `setCall` on the worker. -/
theorem setCall_worker {w : Option IrpId} {d : DeviceId} {last : ℕ} {hand : Hand}
    {as : List Activation} (hs : s.stack = ⟨w, .processing d i last hand c⟩ :: as) :
    s.setCall .worker c' = { s with stack := ⟨w, .processing d i last hand c'⟩ :: as } := by
  simp [setCall, hs]

/-- `setCall` changes the call of its caller. -/
theorem InCall.callAt_setCall (h : s.InCall x c) :
    (s.setCall x c').callAt = update s.callAt (s.index x) c' := by
  funext p
  cases x with
  | thread t =>
    cases p with
    | thread u => by_cases hut : u = t <;> simp [setCall, IoManager.callAt, index, hut]
    | level n => simp [setCall, IoManager.callAt, index]
  | worker =>
    obtain ⟨w, d, i, last, hand, as, hs⟩ := h
    rw [setCall_worker hs]
    cases p with
    | thread u => simp [IoManager.callAt, index]
    | level n =>
      by_cases hn : n = as.length <;> simp [IoManager.callAt, index, hs, level_cons, hn,
        Phase.call?]

theorem InCall.congr {s₁ : IoManager} (hx : s.InCall x c) (h₁ : s₁.call = s.call)
    (h₂ : s₁.stack = s.stack) : s₁.InCall x c := by
  cases x with
  | thread t => exact (congrFun h₁ t).trans hx
  | worker =>
    obtain ⟨w, d, i, last, hand, as, hs⟩ := hx
    exact ⟨w, d, i, last, hand, as, h₂.trans hs⟩

theorem callAt_congr {s₁ : IoManager} (h₁ : s₁.call = s.call) (h₂ : s₁.stack = s.stack) :
    s₁.callAt = s.callAt := by
  funext p
  cases p <;> simp [callAt, h₁, h₂]

theorem InCall.callAt_setCall_of {s₁ : IoManager} (hx : s.InCall x c) (h₁ : s₁.call = s.call)
    (h₂ : s₁.stack = s.stack) : (s₁.setCall x c').callAt = update s.callAt (s.index x) c' := by
  have hi : s₁.index x = s.index x := by cases x <;> simp [index, h₂]
  rw [(hx.congr h₁ h₂).callAt_setCall, callAt_congr h₁ h₂, hi]

/-! ## What a step does to the calls -/

/-- How a step changes the call at an index: to `c'`, from `c`. -/
inductive CallEffect (s : IoManager) :
    IoAction → IoManager → CallIndex → Option Call → Option Call → Prop
  | dispatch {x : Caller} {f : FileId} {kind : IoFrameKind} {block : Option BlockId}
      {s' : IoManager} (hf : s'.signal = update s.signal f false) :
      CallEffect s (.dispatch x f kind block) s' (s.index x) none (some (.fast f kind block))
  | moves {x : Caller} {a : IoAction} {s' : IoManager} {c c' : Option Call}
      (hm : s.CallMoves x a c c') : CallEffect s a s' (s.index x) c c'
  | allocate {x : Caller} {f : FileId} {kind : IoFrameKind} {block : Option BlockId}
      {s' : IoManager} (hi : s'.allocated = s.allocated + 1)
      (hirp : s'.irp = update s.irp s.allocated (.construct block kind f)) :
      CallEffect s (.advance x) s' (s.index x) (some (.slow f kind block))
        (some (.allocated s.allocated))
  | enqueue {x : Caller} {i : IrpId} {c : Call} {s' : IoManager}
      (hc : c = if (s.irp i).asyncIoBlock.isSome then .returning i (.err .ioPending) else .queued i)
      (hq : s'.queued = update s.queued i true) :
      CallEffect s (.advance x) s' (s.index x) (some (.filled i)) (some c)
  | drop {x : Caller} {i : IrpId} {r : IoResult} {s' : IoManager} :
      CallEffect s (.advance x) s' (s.index x) (some (.returning i r)) none
  | resume {n : ℕ} {a : IoAction} {i : IrpId} {s' : IoManager} :
      CallEffect s a s' (.level n) (some (.queued i)) (some (.reading i))

variable {device : FileId → DeviceId} {a : IoAction}

/-- Only the call of the innermost activation matters for a change of its phase. -/
theorem callAt_of_top {w w' : Option IrpId} {p p' : Phase} {as : List Activation}
    (hs : s.stack = ⟨w, p⟩ :: as) (hs' : s'.stack = ⟨w', p'⟩ :: as) (hp : p.call? = p'.call?)
    (hc : s'.call = s.call) : s'.callAt = s.callAt := by
  funext q
  cases q with
  | thread t => exact congrFun hc t
  | level n => by_cases hn : n = as.length <;> simp [callAt, hs, hs', level_cons, hn, hp]

/-- **What a step does to the calls**: it changes one of them at most. -/
theorem Acts.callAt (ha : s.Acts device L a s' L') : s'.callAt = s.callAt ∨
    ∃ p c', CallEffect s a s' p (s.callAt p) c' ∧ s'.callAt = update s.callAt p c' := by
  have htop : ∀ {w : Option IrpId} {p p' : Phase} {as : List Activation},
      s.stack = ⟨w, p⟩ :: as → s'.stack = ⟨w, p'⟩ :: as → p.call? = p'.call? → s'.call = s.call →
      s'.callAt = s.callAt := fun hs hs' hp hc ↦ callAt_of_top hs hs' hp hc
  cases ha with
  | @dispatch x f kind block hx =>
    have hx' : InCall { s with signal := update s.signal f false } x none := hx
    exact Or.inr ⟨s.index x, _, by rw [hx.callAt]; exact .dispatch (by simp), hx'.callAt_setCall⟩
  | @call x a c c' hx hm =>
    exact Or.inr ⟨s.index x, c', by rw [hx.callAt]; exact .moves hm, hx.callAt_setCall⟩
  | @allocate x f kind block hx =>
    refine Or.inr ⟨s.index x, _, ?_,
      InCall.callAt_setCall (s := { s with irp := _, allocated := _ }) hx⟩
    rw [hx.callAt]; exact .allocate (by simp) (by simp)
  | @enqueue x i frame c h' work avail hx hf hc =>
    refine Or.inr ⟨s.index x, _, ?_, InCall.callAt_setCall hx⟩
    rw [hx.callAt]
    exact .enqueue hc (by simp)
  | @await i hx hc =>
    refine Or.inl ?_
    funext q
    cases q with
    | thread t => rfl
    | level n =>
      by_cases hn : n = s.stack.length
      · subst hn
        simp [IoManager.callAt, level_cons, Phase.call?, level_of_le]
      · simp [IoManager.callAt, level_cons, hn]
  | @drop x i r hx =>
    refine Or.inr ⟨s.index x, _, ?_, InCall.callAt_setCall (s := s.decRef i) hx⟩
    rw [hx.callAt]
    exact .drop
  | turn hs hp hp' => exact Or.inl (htop hs rfl
        (by rw [Phase.call?_of_irp? hp, Phase.call?_of_irp? hp']) rfl)
  | pop hs => exact Or.inl (htop hs rfl rfl rfl)
  | access => exact Or.inl rfl
  | start hs => exact Or.inl (htop hs rfl rfl rfl)
  | move hs => exact Or.inl (htop hs rfl rfl rfl)
  | handOver hs => exact Or.inl (htop hs rfl rfl rfl)
  | finish hs => exact Or.inl (htop hs rfl rfl rfl)
  | code hs => exact Or.inl (htop hs rfl rfl rfl)
  | bytes hs => exact Or.inl (htop hs rfl rfl rfl)
  | notify hs => exact Or.inl (htop hs rfl rfl rfl)
  | destroy hs => exact Or.inl (htop hs rfl rfl rfl)
  | deliver hs => exact Or.inl (htop hs rfl (by split <;> rfl) rfl)
  | check hs hp =>
    refine Or.inl (htop hs rfl ?_ rfl)
    rcases hp with ⟨-, rfl⟩ | ⟨-, rfl⟩ | ⟨-, rfl⟩ <;> rfl
  | @release w as d i hs =>
    by_cases hw : w = some i
    · subst hw
      -- the level is left, and the one below goes on
      rcases resume_cases as with h | ⟨w, d', i', last, hand, j, bs, rfl, h⟩
      · refine Or.inl ?_
        funext q
        cases q with
        | thread t => rfl
        | level n =>
          by_cases hn : n = as.length
          · subst hn
            simp [IoManager.callAt, hs, h, level_cons, Phase.call?, level_of_le]
          · simp [IoManager.callAt, hs, h, level_cons, hn]
      · refine Or.inr ⟨.level bs.length, some (.reading j), ?_, ?_⟩
        · have hj : s.callAt (.level bs.length) = some (.queued j) := by
            simp [IoManager.callAt, hs, level_cons, Phase.call?]
          rw [hj]
          exact .resume
        · funext q
          cases q with
          | thread t => rfl
          | level n =>
            by_cases hn : n = bs.length
            · subst hn
              simp [IoManager.callAt, h, level_cons, Phase.call?]
            · by_cases hn' : n = bs.length + 1
              · subst hn'
                simp [IoManager.callAt, hs, h, level_cons, Phase.call?, level_of_le]
              · simp [IoManager.callAt, hs, h, level_cons, hn, hn']
    · exact Or.inl (htop hs (if_neg hw) rfl rfl)
  | park hs => exact Or.inl (htop hs rfl rfl rfl)
  | irq => exact Or.inl rfl
  | requeue => exact Or.inl rfl

/-! ## What a step does to a request -/

/-- How a step changes the request `j`, and what is recorded of its result. -/
inductive IrpEffect (s : IoManager) (a : IoAction) (s' : IoManager) (j : IrpId) : Prop
  | kept (hr : s'.irp j = s.irp j) (ho : s'.outcome j = s.outcome j)
  | counted {n : UInt32} (hr : s'.irp j = { s.irp j with refCount := n })
      (ho : s'.outcome j = s.outcome j)
  | constructed {x : Caller} {block : Option BlockId} {kind : IoFrameKind} {f : FileId}
      (hj : j = s.allocated) (hr : s'.irp j = .construct block kind f)
      (ho : s'.outcome j = s.outcome j) (ha : a = .advance x)
      (hx : s.InCall x (some (.slow f kind block)))
      (hx' : s'.callAt (s.index x) = some (.allocated s.allocated))
  | moved {w : Option IrpId} {as : List Activation} {d : DeviceId} {last : ℕ} {kind : IoFrameKind}
      {f : FileId} (hs : s.stack = ⟨w, .processing d j last .fresh none⟩ :: as)
      (hr : (s.irp j).moveNextFrame kind f = some (s'.irp j)) (ho : s'.outcome j = s.outcome j)
  | code {w : Option IrpId} {as : List Activation} {d : DeviceId} {last : ℕ} {result : Completion}
      {inside : Bool} (hs : s.stack = ⟨w, .completing d j last result .code inside⟩ :: as)
      (hr : s'.irp j = (s.irp j).finishCode result) (ho : s'.outcome j = s.outcome j)
  | bytes {w : Option IrpId} {as : List Activation} {d : DeviceId} {last : ℕ} {result : Completion}
      {inside : Bool} (hs : s.stack = ⟨w, .completing d j last result .bytes inside⟩ :: as)
      (hr : s'.irp j = (s.irp j).finishBytes result) (ho : s'.outcome j = some result)
  | destroyed {w : Option IrpId} {as : List Activation} {d : DeviceId} {last k : ℕ}
      {result : Completion} {inside : Bool}
      (hs : s.stack = ⟨w, .completing d j last result .destroy inside⟩ :: as)
      (hs' : s'.stack =
        ⟨w, .completing d j last result (if k = 0 then .deliver else .notify) inside⟩ :: as)
      (hk : (s.irp j).currentFrame = some k) (hr : s'.irp j = (s.irp j).destroyFrame)
      (ho : s'.outcome j = s.outcome j) (ha : a = .advance .worker)

/-- **What a step does to a request.** -/
theorem Acts.irp (ha : s.Acts device L a s' L') (j : IrpId) : s.IrpEffect a s' j := by
  cases ha with
  | dispatch | call => exact .kept (by simp) (by simp)
  | @allocate x f kind block hx =>
    by_cases hj : j = s.allocated
    · subst hj
      refine .constructed (f := f) rfl (by simp) (by simp) rfl hx ?_
      rw [hx.callAt_setCall_of (by rfl) (by rfl), Function.update_self]
    · exact .kept (by simp [hj]) (by simp)
  | @enqueue x i =>
    by_cases hj : j = i
    · subst hj
      exact .counted (n := (s.irp j).refCount + 1) (by simp [pushed, addRef, setIrp])
        (by simp [pushed, addRef, setIrp])
    · exact .kept (by simp [pushed, addRef, setIrp, hj]) (by simp [pushed, addRef, setIrp])
  | @drop x i =>
    by_cases hj : j = i
    · subst hj
      exact .counted (n := (s.irp j).refCount - 1) (by simp [decRef, setIrp])
        (by simp [decRef, setIrp])
    · exact .kept (by simp [decRef, setIrp, hj]) (by simp [decRef, setIrp])
  | @move w as d i last kind f r hs hr =>
    by_cases hj : j = i
    · subst hj
      exact .moved (f := f) hs (by simpa [setIrp] using hr) rfl
    · exact .kept (by simp [setIrp, hj]) rfl
  | @code w as d i last result inside hs =>
    by_cases hj : j = i
    · subst hj
      exact .code hs (by simp [setIrp]) rfl
    · exact .kept (by simp [setIrp, hj]) rfl
  | @bytes w as d i last result inside hs =>
    by_cases hj : j = i
    · subst hj
      exact .bytes hs (by simp [setIrp]) (by simp)
    · exact .kept (by simp [setIrp, hj]) (by simp [hj])
  | @destroy w as d i last k result inside hs hk =>
    by_cases hj : j = i
    · subst hj
      exact .destroyed hs rfl hk (by simp [setIrp]) rfl rfl
    · exact .kept (by simp [setIrp, hj]) rfl
  | @release w as d i hs =>
    by_cases hj : j = i
    · subst hj
      exact .counted (n := (s.irp j).refCount - 1) (by simp [decRef, setIrp]) rfl
    · exact .kept (by simp [decRef, setIrp, hj]) rfl
  | _ => exact .kept rfl rfl

/-- How a step changes the frames of the request `j`. -/
inductive FrameEffect (s : IoManager) (a : IoAction) (s' : IoManager) (j : IrpId) : Prop
  | kept (hf : (s'.irp j).frames = (s.irp j).frames)
      (hc : (s'.irp j).currentFrame = (s.irp j).currentFrame)
  | constructed {block : Option BlockId} {kind : IoFrameKind} {f : FileId} (hj : j = s.allocated)
      (hr : s'.irp j = .construct block kind f)
  | moved {w : Option IrpId} {as : List Activation} {d : DeviceId} {last : ℕ} {kind : IoFrameKind}
      {f : FileId} (hs : s.stack = ⟨w, .processing d j last .fresh none⟩ :: as)
      (hr : (s.irp j).moveNextFrame kind f = some (s'.irp j))
  | destroyed {w : Option IrpId} {as : List Activation} {d : DeviceId} {last k : ℕ}
      {result : Completion} {inside : Bool}
      (hs : s.stack = ⟨w, .completing d j last result .destroy inside⟩ :: as)
      (hs' : s'.stack =
        ⟨w, .completing d j last result (if k = 0 then .deliver else .notify) inside⟩ :: as)
      (hk : (s.irp j).currentFrame = some k) (hr : s'.irp j = (s.irp j).destroyFrame)
      (ha : a = .advance .worker)

theorem Acts.frames (ha : s.Acts device L a s' L') (j : IrpId) : s.FrameEffect a s' j := by
  cases ha.irp j with
  | kept hr => exact .kept (by rw [hr]) (by rw [hr])
  | counted hr => exact .kept (by rw [hr]) (by rw [hr])
  | constructed hj hr => exact .constructed hj hr
  | moved hs hr => exact .moved hs hr
  | code _ hr => exact .kept (by rw [hr]; rfl) (by rw [hr]; rfl)
  | bytes _ hr => exact .kept (by rw [hr]; simp) (by rw [hr]; simp)
  | destroyed hs hs' hk hr _ ha => exact .destroyed hs hs' hk hr ha

theorem Acts.queued (ha : s.Acts device L a s' L') : s'.queued = s.queued ∨
    (∃ i p c, s.callAt p = some (.filled i) ∧ s'.callAt = update s.callAt p (some c) ∧
      c.early = false ∧ s'.queued = update s.queued i true) ∨
    ∃ w d i last as, s.stack = ⟨w, .processing d i last .moved none⟩ :: as ∧
      s'.queued = update s.queued i true := by
  cases ha with
  | @enqueue x i frame c h' work avail hx hf hc =>
    refine Or.inr (Or.inl ⟨i, s.index x, c, hx.callAt, InCall.callAt_setCall hx, ?_, by simp⟩)
    rw [hc]
    split <;> rfl
  | handOver hs => exact Or.inr (Or.inr ⟨_, _, _, _, _, hs, rfl⟩)
  | dispatch | call | allocate => exact Or.inl (by simp)
  | drop => exact Or.inl (by simp [decRef, setIrp])
  | _ => exact Or.inl rfl

theorem Acts.outcome (ha : s.Acts device L a s' L') : s'.outcome = s.outcome ∨
    ∃ w d i last result inside as,
      s.stack = ⟨w, .completing d i last result .bytes inside⟩ :: as ∧
      s'.stack = ⟨w, .completing d i last result .notify inside⟩ :: as ∧
      s'.outcome = update s.outcome i (some result) := by
  cases ha with
  | bytes hs => exact Or.inr ⟨_, _, _, _, _, _, _, hs, rfl, rfl⟩
  | dispatch | call | allocate | enqueue => exact Or.inl (by simp [pushed, addRef, setIrp])
  | drop => exact Or.inl (by simp [decRef, setIrp])
  | _ => exact Or.inl rfl

theorem Acts.queued_mono (ha : s.Acts device L a s' L') (hi : s.queued i = true) :
    s'.queued i = true := by
  rcases ha.queued with hq | ⟨j, p, c, -, -, -, hq⟩ | ⟨w, d, j, last, as, -, hq⟩ <;> rw [hq]
  · exact hi
  · by_cases hij : i = j <;> simp [hij, hi]
  · by_cases hij : i = j <;> simp [hij, hi]

theorem Acts.outcome_mono (ha : s.Acts device L a s' L') (hi : s.outcome i ≠ none) :
    s'.outcome i ≠ none := by
  rcases ha.outcome with ho | ⟨w, d, j, last, result, inside, as, -, -, ho⟩ <;> rw [ho]
  · exact hi
  · by_cases hij : i = j <;> simp [hij, hi]

theorem Acts.allocated_le (ha : s.Acts device L a s' L') : s.allocated ≤ s'.allocated := by
  cases ha with
  | dispatch | call | allocate | enqueue => simp [pushed, addRef, setIrp]
  | drop => simp [decRef, setIrp]
  | _ => exact le_rfl

/-- A request has a block because it had it before, or because it has just been allocated. -/
theorem Acts.block_irp (ha : s.Acts device L a s' L') (i : IrpId) :
    (s'.irp i).asyncIoBlock = (s.irp i).asyncIoBlock ∨
      ∃ x f kind block, i = s.allocated ∧ (s'.irp i).asyncIoBlock = block ∧ a = .advance x ∧
        s.InCall x (some (.slow f kind block)) ∧
          s'.callAt (s.index x) = some (.allocated s.allocated) := by
  cases ha.irp i with
  | kept hr => exact Or.inl (by rw [hr])
  | counted hr => exact Or.inl (by rw [hr])
  | constructed hj hr _ ha hx hx' => exact Or.inr ⟨_, _, _, _, hj, by rw [hr]; rfl, ha, hx, hx'⟩
  | moved _ hr =>
    obtain ⟨_, -, -, hr⟩ := IoRequest.moveNextFrame_eq_some.mp hr
    exact Or.inl (by rw [hr])
  | code _ hr => exact Or.inl (by rw [hr]; rfl)
  | bytes _ hr => exact Or.inl (by rw [hr, IoRequest.finishBytes_asyncIoBlock])
  | destroyed _ _ hk hr => exact Or.inl (by rw [hr, IoRequest.destroyFrame_eq hk])

/-! ## The invariant of the frames -/

theorem Acts.stacked (ha : s.Acts device L a s' L') (h : ∀ i, (s.irp i).Stacked) (i : IrpId) :
    (s'.irp i).Stacked := by
  cases ha.frames i with
  | kept hf hc => intro k; rw [hf, hc]; exact h i k
  | constructed hj hr => rw [hr]; exact IoRequest.stacked_construct _ _ _
  | moved hs hr => exact (h i).moveNextFrame hr
  | destroyed hs hs' hk hr => rw [hr]; exact (h i).destroyFrame

/-! ## The invariant of the calls -/

theorem CallMoves.origin (hm : s.CallMoves x a c c') {c₁ : Call} (hc : c' = some c₁)
    (hi : c₁.irp? = some i) : ∃ c₀, c = some c₀ ∧ c₀.irp? = some i ∧ c₀.early = c₁.early := by
  cases hm <;> cases hc <;> exact ⟨_, rfl, hi, rfl⟩

/-- Where the request of a call comes from. -/
theorem CallEffect.origin {p : CallIndex} (he : s.CallEffect a s' p c c') {c₁ : Call}
    (hc : c' = some c₁)
    (hi : c₁.irp? = some i) :
    (∃ c₀, c = some c₀ ∧ c₀.irp? = some i ∧ (c₁.early = true → c₀.early = true) ∧
      (c₁.early = false → c₀.early = true → s'.queued i = true)) ∨
    i = s.allocated ∧ s'.allocated = s.allocated + 1 ∧ c₁.early = true ∧
      (s'.irp i).currentFrame = some 0 := by
  cases he with
  | dispatch => cases hc; cases hi
  | moves hm =>
    obtain ⟨c₀, h0, h1, h2⟩ := hm.origin hc hi
    refine Or.inl ⟨c₀, h0, h1, fun h ↦ h2.trans h, fun h h' ↦ ?_⟩
    rw [h2, h] at h'
    cases h'
  | allocate ha hirp =>
    cases hc
    cases hi
    refine Or.inr ⟨rfl, ha, rfl, ?_⟩
    rw [hirp, Function.update_self]
    rfl
  | @enqueue x j c₀ _ hc₀ hq =>
    cases hc
    have hij : j = i := by
      split at hc₀ <;> (subst hc₀; cases hi; rfl)
    subst hij
    exact Or.inl ⟨_, rfl, rfl, fun _ ↦ rfl, fun _ _ ↦ by rw [hq, Function.update_self]⟩
  | drop => cases hc
  | resume =>
    cases hc
    exact Or.inl ⟨_, rfl, hi, fun h ↦ (by cases h), fun _ h ↦ (by cases h)⟩

/-- A call after a step comes from one before it, at the same index, or has just allocated its
request. -/
theorem Acts.origin (ha : s.Acts device L a s' L') {p : CallIndex} {c₁ : Call}
    (hc : s'.callAt p = some c₁) (hi : c₁.irp? = some i) :
    (∃ c₀, s.callAt p = some c₀ ∧ c₀.irp? = some i ∧ (c₁.early = true → c₀.early = true) ∧
      (c₁.early = false → c₀.early = true → s'.queued i = true)) ∨
    (i = s.allocated ∧ s'.allocated = s.allocated + 1 ∧ c₁.early = true ∧
      (s'.irp i).currentFrame = some 0) ∧ ∀ q, q ≠ p → s'.callAt q = s.callAt q := by
  have hsame (h : s'.callAt p = s.callAt p) : ∃ c₀, s.callAt p = some c₀ ∧ c₀.irp? = some i ∧
      (c₁.early = true → c₀.early = true) ∧
      (c₁.early = false → c₀.early = true → s'.queued i = true) :=
    ⟨c₁, h ▸ hc, hi, id, fun h h' ↦ by rw [h] at h'; cases h'⟩
  rcases ha.callAt with h | ⟨q, c', he, h⟩
  · exact Or.inl (hsame (congrFun h p))
  · by_cases hpq : p = q
    · subst hpq
      rw [h, Function.update_self] at hc
      exact (he.origin hc hi).imp_right fun hnew ↦
        ⟨hnew, fun q hq ↦ by rw [h, Function.update_of_ne hq]⟩
    · exact Or.inl (hsame (by rw [h, Function.update_of_ne hpq]))

/-- A request belongs to the call that allocated it, and is queued by it once. -/
structure Issued (s : IoManager) : Prop where
  lt : ∀ p c i, s.callAt p = some c → c.irp? = some i → i < s.allocated
  early : ∀ p c i, s.callAt p = some c → c.irp? = some i → c.early = true →
    s.queued i = false ∧ (s.irp i).currentFrame = some 0
  late : ∀ p c i, s.callAt p = some c → c.irp? = some i → c.early = false → s.queued i = true
  unique : ∀ p q c c' i, s.callAt p = some c → s.callAt q = some c' → c.irp? = some i →
    c'.irp? = some i → p = q
  unborn : ∀ i, s.allocated ≤ i → s.queued i = false ∧ s.outcome i = none

/-- The innermost activation works on a request that was queued. -/
def TopQueued (s : IoManager) : Prop :=
  ∀ w p as i, s.stack = ⟨w, p⟩ :: as → p.irp? = some i → s.queued i = true

/-- **A step keeps the requests with their calls.** -/
theorem Acts.issued (ha : s.Acts device L a s' L') (h : s.Issued)
    (hw : s.TopQueued) : s'.Issued := by
  have hle := ha.allocated_le
  have hborn : ∀ i, s.queued i = true → i < s.allocated := fun i hi ↦ by
    by_contra hn
    rw [(h.unborn i (Nat.le_of_not_lt hn)).1] at hi
    cases hi
  -- a request that was not queued before, and still belongs to an early call, is not queued now
  have hearly : ∀ p c₁ i, s'.callAt p = some c₁ → c₁.irp? = some i → c₁.early = true →
      s.queued i = false → s'.queued i = false := by
    intro p c₁ i hc hi he hq
    rcases ha.queued with hq' | ⟨j, q, c, hcq, hcq', hlate, hq'⟩ | ⟨w, d, j, last, as, hs, hq'⟩
    · rw [hq', hq]
    · by_cases hij : i = j
      · subst hij
        have hpq : p ≠ q := by
          rintro rfl
          rw [hcq', Function.update_self] at hc
          cases hc
          rw [hlate] at he
          cases he
        rw [hcq', Function.update_of_ne hpq] at hc
        exact absurd (h.unique p q c₁ _ i hc hcq hi rfl) hpq
      · rw [hq', Function.update_of_ne hij, hq]
    · have hij : i ≠ j := by
        rintro rfl
        rw [hw _ _ _ _ hs rfl] at hq
        cases hq
      rw [hq', Function.update_of_ne hij, hq]
  refine ⟨fun p c i hc hi ↦ ?_, fun p c i hc hi he ↦ ?_, fun p c i hc hi he ↦ ?_,
    fun p q c c' i hc hc' hi hi' ↦ ?_, fun i hi ↦ ?_⟩
  · rcases ha.origin hc hi with ⟨c₀, h0, h1, -⟩ | ⟨⟨rfl, h1, -⟩, -⟩
    · exact (h.lt p c₀ i h0 h1).trans_le hle
    · rw [h1]
      exact Nat.lt_succ_self _
  · rcases ha.origin hc hi with ⟨c₀, h0, h1, h2, -⟩ | ⟨⟨rfl, -, -, h1⟩, -⟩
    · obtain ⟨hq, hcur⟩ := h.early p c₀ i h0 h1 (h2 he)
      refine ⟨hearly p c i hc hi he hq, ?_⟩
      cases ha.frames i with
      | kept _ hc => rw [hc, hcur]
      | constructed hj => exact absurd (h.lt p c₀ i h0 h1) (hj ▸ lt_irrefl _)
      | moved hs =>
        rw [hw _ _ _ _ hs rfl] at hq
        cases hq
      | destroyed hs =>
        rw [hw _ _ _ _ hs rfl] at hq
        cases hq
    · exact ⟨hearly p c _ hc hi he (h.unborn _ le_rfl).1, h1⟩
  · rcases ha.origin hc hi with ⟨c₀, h0, h1, -, h3⟩ | ⟨⟨-, -, h1, -⟩, -⟩
    · cases he₀ : c₀.early with
      | true => exact h3 he he₀
      | false => exact ha.queued_mono (h.late p c₀ i h0 h1 he₀)
    · rw [he] at h1; cases h1
  · -- the request of a call elsewhere is not the one that was just allocated
    have hnew : ∀ {p q c' j}, s'.callAt q = some c' → c'.irp? = some j → j = s.allocated →
        (∀ q, q ≠ p → s'.callAt q = s.callAt q) → p = q := by
      intro p q c' j hq hj hj' hsame
      by_contra hpq
      rw [hsame q (Ne.symm hpq)] at hq
      exact absurd (h.lt q c' j hq hj) (hj' ▸ lt_irrefl _)
    rcases ha.origin hc hi with ⟨c₀, h0, h1, -⟩ | ⟨⟨h1, -⟩, hsame⟩
    · rcases ha.origin hc' hi' with ⟨c₀', h0', h1', -⟩ | ⟨⟨h1', -⟩, hsame⟩
      · exact h.unique p q c₀ c₀' i h0 h0' h1 h1'
      · exact (hnew hc hi h1' hsame).symm
    · exact hnew hc' hi' h1 hsame
  · have hi' : s.allocated ≤ i := hle.trans hi
    obtain ⟨hq, ho⟩ := h.unborn i hi'
    constructor
    · rcases ha.queued with hq' | ⟨j, q, c, hcq, -, -, hq'⟩ | ⟨w, d, j, last, as, hs, hq'⟩
      · rw [hq', hq]
      · have hij : i ≠ j := by
          rintro rfl
          exact absurd (h.lt q _ i hcq rfl) (not_lt_of_ge hi')
        rw [hq', Function.update_of_ne hij, hq]
      · have hij : i ≠ j := by
          rintro rfl
          rw [hw _ _ _ _ hs rfl] at hq
          cases hq
        rw [hq', Function.update_of_ne hij, hq]
    · rcases ha.outcome with ho' | ⟨w, d, j, last, result, inside, as, hs, -, ho'⟩
      · rw [ho', ho]
      · have hij : i ≠ j := by
          rintro rfl
          rw [hw _ _ _ _ hs rfl] at hq
          cases hq
        rw [ho', Function.update_of_ne hij, ho]

end IoManager

end Chino
