import Chino.Io.Request
import Chino.Library.Run
import Chino.Sched.Scheduler

/-!
# The event of the completed blocks

A process has a list of completed blocks, a lock for it, and an event that is meant to say that the
list is not empty.  `Chino.Io.Iocp` takes what a thread does with them as a whole; here every access
is a step of its own and any number of threads are in `queue_completed_io` and in
`dequeue_completed_io` at a time.

`queue_completed_io` sets the event while it has the lock.  `dequeue_completed_io` waits for the
event before it takes the lock, and resets it nowhere.  So from the first block on the event stays
set: it agrees with the list in the states that `tellsTruth` describes, and a thread that finds the
list empty is let through again and again (`tellsNoTruth`).

A wait is a read of the signal that finds it set.

## The condition

`TellsTruth` compares the event with the list in one state.  It is asked of states in which no
thread is in a locked section (`Quiet`): within one the two differ for a moment in any program.

* `tellsTruth` has two parts.  In a run whose steps all leave a block on the list (`LeavesOne`) the
  event tells the truth in every quiet state.  And for a single state it is exact: the event is
  right just if there is a block, or none was ever pushed.
* `Inv.emptied` is the reason why: the thread that takes the last block leaves the signal behind,
  and nothing ever resets it.

So a waiter that returns from the event has to look at the list again, as `dequeue_completed_io`
does in a loop; what it costs is that it does not sleep any more.
-/

set_option autoImplicit false

namespace Chino

open Function (update)

/-- Where a thread is in `queue_completed_io` or in `dequeue_completed_io`. -/
inductive ReadyCall where
  /-- About to take the lock and to push the block. -/
  | queueing (b : BlockId)
  | pushing (b : BlockId)
  /-- About to ask whether the list is empty. -/
  | pushed
  /-- In `notify_all`, about to set the signal. -/
  | notifying
  /-- About to release the lock and to return. -/
  | queued
  /-- In `ready_io_blocks_avail_.wait()`. -/
  | waiting
  /-- About to take the lock and to look for a block. -/
  | locking
  | looking
  | removing (b : BlockId)
  /-- About to release the lock, and to return if it has a block. -/
  | leaving (b : Option BlockId)
deriving DecidableEq

/-- The thread has the lock. -/
def ReadyCall.locked : ReadyCall → Bool
  | queueing _ | waiting | locking => false
  | pushing _ | pushed | notifying | queued | looking | removing _ | leaving _ => true

/-- It has pushed a block and not set the signal yet. -/
def ReadyCall.late : ReadyCall → Bool
  | pushed | notifying => true
  | queueing _ | pushing _ | queued | waiting | locking | looking | removing _ | leaving _ => false

/-- The blocks of a `process`. -/
structure ReadyBlocks where
  readyIoBlocks : List BlockId
  /-- Who has `ready_io_blocks_lock_`. -/
  readyIoBlocksLock : Option ThreadId
  readyIoBlocksAvail : Bool
  call : ThreadId → Option ReadyCall
  /-- How many blocks were pushed so far, which is not in the code. -/
  pushes : ℕ

/-- What the threads at the port do. -/
inductive BlockEvent where
  | queueCompletedIo (t : ThreadId) (b : BlockId)
  | dequeueCompletedIo (t : ThreadId)
  /-- The next step of the call that the thread is in. -/
  | step (t : ThreadId)

namespace ReadyBlocks

/-- No block is ready, and nobody is at the port. -/
def init : ReadyBlocks where
  readyIoBlocks := []
  readyIoBlocksLock := none
  readyIoBlocksAvail := false
  call _ := none
  pushes := 0

/-- A call moves on. -/
def setCall (s : ReadyBlocks) (t : ThreadId) (c : Option ReadyCall) : ReadyBlocks :=
  { s with call := update s.call t c }

/-- `lock` succeeds. -/
def acquire (s : ReadyBlocks) (t : ThreadId) : Option ReadyBlocks :=
  if s.readyIoBlocksLock = none then some { s with readyIoBlocksLock := some t } else none

/-- The next step of a call. -/
def advance (s : ReadyBlocks) (t : ThreadId) : ReadyCall → Option ReadyBlocks
  | .queueing b => do
    let s ← s.acquire t
    some (s.setCall t (some (.pushing b)))
  | .pushing b => some ({ s with
      readyIoBlocks := s.readyIoBlocks ++ [b]
      pushes := s.pushes + 1 }.setCall t (some .pushed))
  | .pushed => some (s.setCall t (some (if s.readyIoBlocks = [] then .queued else .notifying)))
  | .notifying => some ({ s with readyIoBlocksAvail := true }.setCall t (some .queued))
  | .queued => some ({ s with readyIoBlocksLock := none }.setCall t none)
  | .waiting => if s.readyIoBlocksAvail then some (s.setCall t (some .locking)) else none
  | .locking => do
    let s ← s.acquire t
    some (s.setCall t (some .looking))
  | .looking => some (s.setCall t (some
      (match s.readyIoBlocks.head? with
        | some b => .removing b
        | none => .leaving none)))
  | .removing b => some ({ s with
      readyIoBlocks := s.readyIoBlocks.erase b }.setCall t (some (.leaving (some b))))
  | .leaving b => some ({ s with
      readyIoBlocksLock := none }.setCall t (if b.isSome then none else some .waiting))

/-- The next state, or none where the event does not apply. -/
def next (s : ReadyBlocks) : BlockEvent → Option ReadyBlocks
  | .queueCompletedIo t b =>
    if s.call t = none then some (s.setCall t (some (.queueing b))) else none
  | .dequeueCompletedIo t =>
    if s.call t = none then some (s.setCall t (some .waiting)) else none
  | .step t => do
    let c ← s.call t
    s.advance t c

/-- Runs of any number of threads. -/
def machine : Machine ReadyBlocks BlockEvent where
  init := init
  next := next

/-! ## The invariant -/

/-- No thread is in a locked section, and so none is before its notify either. -/
def Quiet (s : ReadyBlocks) : Prop := ∀ t, ∀ c ∈ s.call t, c.locked = false

/-- The event is signalled if and only if there is a block. -/
def TellsTruth (s : ReadyBlocks) : Prop := s.readyIoBlocksAvail = true ↔ s.readyIoBlocks ≠ []

/-- The last block is not taken off the list. -/
def LeavesOne (s : ReadyBlocks) : BlockEvent → Prop
  | .step t => ∀ b, s.call t = some (.removing b) → s.readyIoBlocks.erase b ≠ []
  | _ => True

/-- Where the thread is that has the lock. -/
def inside (s : ReadyBlocks) : Option ReadyCall := s.readyIoBlocksLock.bind s.call

/-- The lock excludes, and the signal is not forgotten. -/
structure Inv (s : ReadyBlocks) : Prop where
  /-- The threads in a locked section are the one that has the lock. -/
  holder : ∀ t, (∃ c, s.call t = some c ∧ c.locked = true) ↔ s.readyIoBlocksLock = some t
  /-- A thread that is about to set the signal has seen to it that there is a block. -/
  late : ∀ c ∈ s.inside, c.late = true → s.readyIoBlocks ≠ []
  /-- From the first block on the signal is set, or about to be. -/
  signalled : s.pushes ≠ 0 → s.readyIoBlocksAvail = true ∨ ∃ c ∈ s.inside, c.late = true
  /-- A thread that is about to remove a block has found it at the head. -/
  front : ∀ b, s.inside = some (.removing b) → s.readyIoBlocks.head? = some b
  /-- Nothing is signalled and nothing is there before. -/
  untouched : s.pushes = 0 → s.readyIoBlocksAvail = false ∧ s.readyIoBlocks = []

variable {s s' : ReadyBlocks} {t u : ThreadId} {b : BlockId} {c c' : ReadyCall}
  {c? : Option ReadyCall} {e : BlockEvent}

theorem inv_init : init.Inv where
  holder t := by simp [init]
  late c h := by cases h
  signalled h := absurd rfl h
  front b h := by cases h
  untouched _ := ⟨rfl, rfl⟩

theorem inside_eq (hl : s.readyIoBlocksLock = some t) : s.inside = s.call t := by
  simp [inside, hl]

/-- A step of a thread that does not have the lock, and does not get it. -/
theorem Inv.outside (h : s.Inv) (ht : ∀ c ∈ s.call t, c.locked = false)
    (hc? : ∀ c ∈ c?, c.locked = false) : (s.setCall t c?).Inv := by
  have hnot : s.readyIoBlocksLock ≠ some t := fun hl ↦ by
    obtain ⟨c, hc, hlocked⟩ := (h.holder t).mpr hl
    simp [ht c hc] at hlocked
  have hin : (s.setCall t c?).inside = s.inside := by
    cases hl : s.readyIoBlocksLock with
    | none => simp [inside, setCall, hl]
    | some u =>
      have hu : u ≠ t := fun hu ↦ hnot (hu ▸ hl)
      simp [inside, setCall, hl, hu]
  refine ⟨fun v ↦ ?_, ?_, ?_, ?_, h.untouched⟩
  · by_cases hv : v = t
    · subst hv
      simp only [setCall, Function.update_self]
      exact iff_of_false (fun ⟨c, hc, hlocked⟩ ↦ by simp [hc? c hc] at hlocked) hnot
    · simpa [setCall, hv] using h.holder v
  · rw [hin]; exact h.late
  · rw [hin]; exact h.signalled
  · rw [hin]; exact h.front

/-- A step that takes the lock. -/
theorem Inv.acquires (h : s.Inv) (ha : s.acquire t = some s') (hc : c.locked = true)
    (hl : c.late = false) (hr : ∀ b, c ≠ .removing b) : (s'.setCall t (some c)).Inv := by
  unfold acquire at ha
  split at ha
  · rename_i hnone
    cases ha
    have hin : ({ s with readyIoBlocksLock := some t }.setCall t (some c)).inside = some c := by
      simp [inside, setCall]
    refine ⟨fun v ↦ ?_, ?_, fun hp ↦ ?_, ?_, h.untouched⟩
    · by_cases hv : v = t
      · subst hv
        simp [setCall, hc]
      · simpa [setCall, hv, Ne.symm hv, hnone] using h.holder v
    · rw [hin]
      rintro d hd hdl
      cases hd
      simp [hl] at hdl
    · exact Or.inl ((h.signalled hp).resolve_right (by simp [inside, hnone]))
    · rw [hin]
      exact fun b hb ↦ absurd (Option.some.inj hb) (hr b)
  · cases ha

/-- A step in the locked section. -/
theorem Inv.within (h : s.Inv) (ht : s.call t = some c) (hc : c.locked = true)
    (hcall : s'.call = update s.call t (some c')) (hc' : c'.locked = true)
    (hlock : s'.readyIoBlocksLock = s.readyIoBlocksLock)
    (hlate : c'.late = true → s'.readyIoBlocks ≠ [])
    (hsig : s'.pushes ≠ 0 → s'.readyIoBlocksAvail = true ∨ c'.late = true)
    (hfront : ∀ b, c' = .removing b → s'.readyIoBlocks.head? = some b)
    (hun : s'.pushes = 0 → s'.readyIoBlocksAvail = false ∧ s'.readyIoBlocks = []) : s'.Inv := by
  have hl := (h.holder t).mp ⟨c, ht, hc⟩
  have hin : s'.inside = some c' := by rw [inside_eq (hlock.trans hl), hcall, Function.update_self]
  refine ⟨fun v ↦ ?_, ?_, ?_, ?_, hun⟩
  · rw [hcall, hlock]
    by_cases hv : v = t
    · subst hv
      simp [hc', hl]
    · simpa [hv] using h.holder v
  · rw [hin]
    rintro d hd hdl
    cases hd
    exact hlate hdl
  · rw [hin]
    exact fun hp ↦ (hsig hp).imp_right fun hl ↦ ⟨c', rfl, hl⟩
  · rw [hin]
    exact fun b hb ↦ hfront b (Option.some.inj hb)

/-- A thread in the locked section that is not late finds the signal set. -/
theorem Inv.signalled_of (h : s.Inv) (ht : s.call t = some c) (hc : c.locked = true)
    (hl : c.late = false) (hp : s.pushes ≠ 0) : s.readyIoBlocksAvail = true := by
  refine (h.signalled hp).resolve_right ?_
  rintro ⟨d, hd, hdl⟩
  rw [inside_eq ((h.holder t).mp ⟨c, ht, hc⟩), ht] at hd
  cases hd
  simp [hl] at hdl

/-- A step that releases the lock. -/
theorem Inv.releases (h : s.Inv) (ht : s.call t = some c) (hc : c.locked = true)
    (hl : c.late = false) (hc? : ∀ c ∈ c?, c.locked = false) :
    ({ s with readyIoBlocksLock := none }.setCall t c?).Inv := by
  have hlock := (h.holder t).mp ⟨c, ht, hc⟩
  refine ⟨fun v ↦ iff_of_false ?_ (by simp [setCall]), ?_, fun hp ↦ ?_, ?_, h.untouched⟩
  · rintro ⟨d, hd, hdl⟩
    by_cases hv : v = t
    · subst hv
      simp only [setCall, Function.update_self] at hd
      simp [hc? d hd] at hdl
    · simp only [setCall, Function.update_of_ne hv] at hd
      have := (h.holder v).mp ⟨d, hd, hdl⟩
      rw [hlock] at this
      exact hv (Option.some.inj this).symm
  · simp [inside, setCall]
  · exact Or.inl (h.signalled_of ht hc hl hp)
  · simp [inside, setCall]

/-- **A step keeps the invariant.** -/
theorem Inv.advance (h : s.Inv) (ht : s.call t = some c) (hn : s.advance t c = some s') :
    s'.Inv := by
  cases c with
  | queueing b =>
    obtain ⟨s₁, ha, hn⟩ := Option.bind_eq_some_iff.mp hn
    cases hn
    exact h.acquires ha rfl rfl (by simp)
  | pushing b =>
    cases hn
    exact h.within ht rfl rfl rfl rfl (fun _ ↦ by simp [setCall]) (fun _ ↦ Or.inr rfl) (by simp)
      (fun hp ↦ absurd hp (Nat.succ_ne_zero _))
  | pushed =>
    cases hn
    have hne : s.readyIoBlocks ≠ [] :=
      h.late .pushed (by rw [inside_eq ((h.holder t).mp ⟨_, ht, rfl⟩), ht]; rfl) rfl
    rw [if_neg hne]
    exact h.within ht rfl rfl rfl rfl (fun _ ↦ hne) (fun _ ↦ Or.inr rfl) (by simp) h.untouched
  | notifying =>
    cases hn
    have hne : s.readyIoBlocks ≠ [] :=
      h.late .notifying (by rw [inside_eq ((h.holder t).mp ⟨_, ht, rfl⟩), ht]; rfl) rfl
    exact h.within ht rfl rfl rfl rfl (fun hl ↦ by cases hl) (fun _ ↦ Or.inl rfl) (by simp)
      (fun hp ↦ absurd (h.untouched hp).2 hne)
  | queued =>
    cases hn
    exact h.releases ht rfl rfl (by simp)
  | waiting =>
    simp only [ReadyBlocks.advance] at hn
    split at hn
    · cases hn
      exact h.outside (by simp [ht, ReadyCall.locked]) (by simp [ReadyCall.locked])
    · cases hn
  | locking =>
    obtain ⟨s₁, ha, hn⟩ := Option.bind_eq_some_iff.mp hn
    cases hn
    exact h.acquires ha rfl rfl (by simp)
  | looking =>
    cases hn
    cases hb : s.readyIoBlocks.head? with
    | none =>
      exact h.within ht rfl rfl rfl rfl (fun hl ↦ by cases hl)
        (fun hp ↦ Or.inl (h.signalled_of ht rfl rfl hp)) (by simp) h.untouched
    | some b =>
      exact h.within ht rfl rfl rfl rfl (fun hl ↦ by cases hl)
        (fun hp ↦ Or.inl (h.signalled_of ht rfl rfl hp)) (fun d hd ↦ by cases hd; exact hb)
        h.untouched
  | removing b =>
    cases hn
    exact h.within ht rfl rfl rfl rfl (fun hl ↦ by cases hl)
      (fun hp ↦ Or.inl (h.signalled_of ht rfl rfl hp)) (by simp)
      (fun hp ↦ ⟨(h.untouched hp).1, by simp [setCall, (h.untouched hp).2]⟩)
  | leaving b =>
    cases hn
    refine h.releases ht rfl rfl fun c hc ↦ ?_
    cases b <;> cases hc
    rfl

theorem Inv.next (h : s.Inv) (hn : s.next e = some s') : s'.Inv := by
  cases e with
  | queueCompletedIo t b =>
    simp only [ReadyBlocks.next] at hn
    split at hn
    · rename_i ht
      cases hn
      exact h.outside (by simp [ht]) (by simp [ReadyCall.locked])
    · cases hn
  | dequeueCompletedIo t =>
    simp only [ReadyBlocks.next] at hn
    split at hn
    · rename_i ht
      cases hn
      exact h.outside (by simp [ht]) (by simp [ReadyCall.locked])
    · cases hn
  | step t =>
    obtain ⟨c, ht, hn⟩ := Option.bind_eq_some_iff.mp hn
    exact h.advance ht hn

theorem reachable_inv (h : machine.Reachable s) : s.Inv :=
  h.invariant inv_init fun _ _ _ _ hI hn ↦ hI.next hn

/-! ## When the event tells the truth -/

/-- While nobody has the lock, the signal is set if a block was ever pushed. -/
theorem Inv.avail_iff (h : s.Inv) (hq : s.Quiet) : s.readyIoBlocksAvail = true ↔ s.pushes ≠ 0 := by
  constructor
  · intro ha hp
    rw [(h.untouched hp).1] at ha
    cases ha
  · intro hp
    refine (h.signalled hp).resolve_right ?_
    rintro ⟨c, hc, hl⟩
    obtain ⟨t, hlock, ht⟩ := Option.bind_eq_some_iff.mp hc
    obtain ⟨d, hd, hdl⟩ := (h.holder t).mpr hlock
    simp [hq t d hd] at hdl

theorem tellsTruth_iff_of_quiet (h : s.Inv) (hq : s.Quiet) :
    s.TellsTruth ↔ s.readyIoBlocks ≠ [] ∨ s.pushes = 0 := by
  rw [TellsTruth, h.avail_iff hq]
  constructor
  · intro hiff
    by_cases hp : s.pushes = 0
    · exact Or.inr hp
    · exact Or.inl (hiff.mp hp)
  · rintro (hne | hp)
    · exact iff_of_true (fun hp ↦ hne (h.untouched hp).2) hne
    · exact iff_of_false (fun hne ↦ hne hp) (fun hne ↦ hne (h.untouched hp).2)

/-! ## Every run -/

/-- A step that leaves a block behind does not empty the list. -/
theorem advance_blocks (hI : s.pushes ≠ 0 → s.readyIoBlocks ≠ []) (ht : s.call t = some c)
    (hc : s.LeavesOne (.step t)) (hn : s.advance t c = some s') (hp : s'.pushes ≠ 0) :
    s'.readyIoBlocks ≠ [] := by
  cases c with
  | queueing | locking =>
    obtain ⟨s₁, ha, hn⟩ := Option.bind_eq_some_iff.mp hn
    cases hn
    unfold acquire at ha
    split at ha
    · cases ha
      exact hI hp
    · cases ha
  | pushing b =>
    cases hn
    simp [setCall]
  | waiting =>
    simp only [ReadyBlocks.advance] at hn
    split at hn
    · cases hn
      exact hI hp
    · cases hn
  | removing b =>
    cases hn
    exact hc b ht
  | pushed | notifying | queued | looking | leaving =>
    cases hn
    exact hI hp

theorem next_blocks (hI : s.pushes ≠ 0 → s.readyIoBlocks ≠ []) (hc : s.LeavesOne e)
    (hn : s.next e = some s') (hp : s'.pushes ≠ 0) : s'.readyIoBlocks ≠ [] := by
  cases e with
  | queueCompletedIo t b | dequeueCompletedIo t =>
    simp only [ReadyBlocks.next] at hn
    split at hn
    · cases hn
      exact hI hp
    · cases hn
  | step t =>
    obtain ⟨c, ht, hn⟩ := Option.bind_eq_some_iff.mp hn
    exact advance_blocks hI ht hc hn hp

/-- The thread that takes the last block leaves the signal behind. -/
theorem Inv.emptied (h : s.Inv) (hc : ¬ s.LeavesOne (.step t)) :
    ∃ s₁ s₂, machine.next s (.step t) = some s₁ ∧ machine.next s₁ (.step t) = some s₂ ∧ s₂.Quiet ∧
      ¬ s₂.TellsTruth := by
  simp only [LeavesOne, not_forall, ne_eq, not_not] at hc
  obtain ⟨b, ht, hb⟩ := hc
  have hlock := (h.holder t).mp ⟨_, ht, rfl⟩
  have hfront := h.front b (by rw [inside_eq hlock, ht])
  have hp : s.pushes ≠ 0 := fun hp ↦ by simp [(h.untouched hp).2] at hfront
  refine ⟨{ s with readyIoBlocks := s.readyIoBlocks.erase b }.setCall t (some (.leaving (some b))),
    { s with readyIoBlocks := s.readyIoBlocks.erase b, readyIoBlocksLock := none }.setCall t none,
    by simp [machine, ReadyBlocks.next, ht, ReadyBlocks.advance],
    by simp [machine, ReadyBlocks.next, setCall, ReadyBlocks.advance], ?_, ?_⟩
  · rintro v c hv
    by_contra hl
    by_cases hvt : v = t
    · simp [setCall, hvt] at hv
    · have := (h.holder v).mp ⟨c, by simpa [setCall, hvt] using hv, by simpa using hl⟩
      rw [hlock] at this
      exact hvt (Option.some.inj this).symm
  · simp [TellsTruth, setCall, hb, h.signalled_of ht rfl rfl hp]

/-- **When the event tells the truth.**  It does in every run that leaves a block on the list; in
any run it does in just the states with a block on the list and before the first one; and whoever
takes the last block makes it lie. -/
theorem tellsTruth (s : ReadyBlocks) :
    (machine.ReachableWhile LeavesOne s → s.Quiet → s.TellsTruth) ∧
    (machine.Reachable s → s.Quiet → (s.TellsTruth ↔ s.readyIoBlocks ≠ [] ∨ s.pushes = 0)) ∧
    ∀ t, machine.Reachable s → ¬ s.LeavesOne (.step t) →
      ∃ s₁ s₂, machine.next s (.step t) = some s₁ ∧ machine.next s₁ (.step t) = some s₂ ∧ s₂.Quiet ∧
        ¬ s₂.TellsTruth := by
  refine ⟨fun h hq ↦ ?_, fun h hq ↦ tellsTruth_iff_of_quiet (reachable_inv h) hq,
    fun t h hc ↦ (reachable_inv h).emptied hc⟩
  rw [tellsTruth_iff_of_quiet (reachable_inv h.reachable) hq]
  have hI : s.pushes ≠ 0 → s.readyIoBlocks ≠ [] :=
    h.invariant (fun hp ↦ absurd rfl hp) fun _ _ _ _ hI hc hn ↦ next_blocks hI hc hn
  by_cases hp : s.pushes = 0
  · exact Or.inr hp
  · exact Or.inl (hI hp)

/-- Thread 1 queues a block, and thread 2 has found it. -/
def queuedOnce : List BlockEvent :=
  ([.queueCompletedIo 1 7] : List BlockEvent) ++ (List.replicate 5 (.step 1) : List BlockEvent) ++
    ([.dequeueCompletedIo 2] : List BlockEvent) ++ (List.replicate 3 (.step 2) : List BlockEvent)

/-- Once thread 2 has the block nobody is in a locked section and the list is empty, and the event
is set. -/
theorem tellsNoTruth : ∃ s, machine.Reachable s ∧ s.Quiet ∧ ¬ s.TellsTruth := by
  have h : machine.Reachable (machine.after queuedOnce) := Machine.reachable_after queuedOnce
  have hc : ¬ (machine.after queuedOnce).LeavesOne (.step 2) := fun hc ↦
    hc 7 (by decide +kernel) (by decide +kernel)
  obtain ⟨s₁, s₂, h₁, h₂, hq, hl⟩ := (reachable_inv h).emptied hc
  exact ⟨s₂, (h.step h₁).step h₂, hq, hl⟩

end ReadyBlocks

end Chino
