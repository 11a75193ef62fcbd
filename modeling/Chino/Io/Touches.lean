import Chino.Io.Results

/-!
# Which frames are read when

A frame lives from `construct_at` to `destroy_at`.  `touches s a` are the frames whose `params()` or
`file()` the action `a` reads in the state `s`; they are listed whether they are alive or not.

After `queue` a thread reads `frames_[0].file()` to find the event it is to wait for.  Nothing keeps
the worker from destroying frame 0 before (`dead_touch`).  Where it never does, every frame is alive
when it is read: `touches_live`.

## The proof

Three kinds of reads have to find their frame: those of a call that looks up its event, those of the
worker in `process_io` and in `complete`, and those of `requeue_pending_io`.  For the last two
`Chino.Io.Places` knows how far the frames are, in every run (`workerTouches_live`).

For the first one `Seen` is the invariant: a thread that has queued its request and has yet to read
`frames_[0]` finds it alive.  The one step that could break it is the end of `complete` for the last
frame, and `LooksFirst` asks that no thread has yet to look then.  The condition is about that step
alone; all other reads are shown to be good without one.
-/

set_option autoImplicit false

namespace Chino

open Function (update)

namespace IoManager

variable {s s' : IoManager} {L L' : IoQueues} {i j : IrpId} {device : FileId → DeviceId}
  {a : IoAction} {t : ThreadId} {k? : Option ℕ}

/-- What the worker reads on its own. -/
def workerTouches (s : IoManager) : List (IrpId × Option ℕ) :=
  match s.stack with
  | ⟨_, .completing _ i _ _ .notify _⟩ :: _ => [(i, (s.irp i).currentFrame)]
  | ⟨_, .completing _ i _ _ .destroy _⟩ :: _ =>
    -- the device of the frame below is asked for once this one is destroyed
    match (s.irp i).currentFrame with
    | some (k + 1) => [(i, some k)]
    | _ => []
  | _ => []

/-- The frames that an action reads; `none` is where the frame pointer is null. -/
def touches (s : IoManager) : IoAction → List (IrpId × Option ℕ)
  | .advance x =>
    match s.callOf x with
    | some (.allocated i) | some (.filled i) => [(i, (s.irp i).currentFrame)]
    | some (.queued i) => if x = .worker then [] else [(i, some 0)]
    | some _ => []
    | none => if x = .worker then s.workerTouches else []
  | .access =>
    match s.stack with
    | ⟨_, .processing _ i last hand none⟩ :: _ =>
      if hand = .gone then [] else [(i, some last), (i, (s.irp i).currentFrame)]
    | _ => []
  | .move .. =>
    match s.stack with
    | ⟨_, .processing _ i last .fresh none⟩ :: _ => [(i, some last)]
    | _ => []
  | .queue =>
    match s.stack with
    | ⟨_, .processing _ i _ .moved none⟩ :: _ => [(i, (s.irp i).currentFrame)]
    | _ => []
  | _ => []

/-- The frame is alive. -/
def Live (s : IoManager) (i : IrpId) (k? : Option ℕ) : Prop :=
  ∃ k, k? = some k ∧ ((s.irp i).frames k).isSome = true

/-- The request whose last frame the worker is about to destroy. -/
def finishing (s : IoManager) : Option IrpId :=
  match s.stack with
  | ⟨_, .completing _ i _ _ .destroy _⟩ :: _ =>
    if (s.irp i).currentFrame = some 0 then some i else none
  | _ => none

/-- The last frame of a request is destroyed only when no thread has yet to look it up. -/
def LooksFirst (s : IoManager) : IoAction → Prop
  | .advance .worker => ∀ i ∈ s.finishing, ∀ t, s.call t ≠ some (.queued i)
  | _ => True

/-! ## The invariant -/

/-- A thread that is to read `frames_[0]` finds it. -/
def Seen (s : IoManager) : Prop :=
  ∀ t i, s.call t = some (.queued i) → (s.irp i).currentFrame ≠ none

/-- Where a call comes from that has queued its request and not looked at it again. -/
theorem Acts.queued_call (ha : s.Acts device L a s' L') (hc : s'.call t = some (.queued i)) :
    s.call t = some (.queued i) ∨ s.call t = some (.filled i) := by
  rcases ha.callAt with h | ⟨p, c', he, h⟩
  · exact Or.inl ((congrFun h (.thread t)).symm.trans hc)
  · have hct : s'.callAt (.thread t) = some (.queued i) := hc
    by_cases hpt : p = .thread t
    · rw [h, hpt, Function.update_self] at hct
      generalize hold : s.callAt p = c at he
      rw [hpt] at hold
      cases he with
      | dispatch | drop | allocate | resume => cases hct
      | moves hm => cases hm <;> cases hct
      | enqueue hc₁ =>
        cases hct
        split at hc₁ <;> cases hc₁
        exact Or.inr hold
    · rw [h, Function.update_of_ne (Ne.symm hpt)] at hct
      exact Or.inl hct

theorem Acts.seen (ha : s.Acts device L a s' L') (h : s.Inv L) (hs : s.Seen)
    (hl : s.LooksFirst a) : s'.Seen := by
  intro t i hc
  have hcur : (s.irp i).currentFrame ≠ none := by
    rcases ha.queued_call hc with hq | hf
    · exact hs t i hq
    · rw [(h.issued.early (.thread t) _ i hf rfl rfl).2]
      exact Option.some_ne_none 0
  cases ha.frames i with
  | kept _ hc' => rwa [hc']
  | constructed _ hr => rw [hr]; exact Option.some_ne_none 0
  | moved _ hr =>
    obtain ⟨k, -, -, hr⟩ := IoRequest.moveNextFrame_eq_some.mp hr
    rw [hr]
    exact Option.some_ne_none _
  | @destroyed w as d last k result inside hstack hstack' hk hr he =>
    rw [hr, IoRequest.destroyFrame_eq hk]
    subst he
    by_cases hk0 : k = 0
    · subst hk0
      have hf : s.finishing = some i := by simp [finishing, hstack, hk]
      rcases ha.queued_call hc with hq | hq
      · exact absurd hq (hl i hf t)
      · have := (h.working.queued_top hstack).1
        rw [(h.issued.early (.thread t) _ i hq rfl rfl).1] at this
        cases this
    · simp [hk0]

/-- What the worker reads while it completes a request is alive. -/
theorem workerTouches_live (h : s.Inv L) (ht : (i, k?) ∈ s.workerTouches) : s.Live i k? := by
  unfold workerTouches at ht
  split at ht
  · rename_i w d i last r inside as hs
    cases List.mem_singleton.mp ht
    have hc : (s.irp i).currentFrame ≠ none := fun hc ↦ by
      simpa using (h.working.queued_top hs).2.1.mp hc
    obtain ⟨c, hc⟩ := Option.ne_none_iff_exists'.mp hc
    exact ⟨c, hc, (h.stacked i c).mpr ⟨c, hc, le_rfl⟩⟩
  · split at ht
    · rename_i k hk
      cases List.mem_singleton.mp ht
      exact ⟨k, rfl, (h.stacked _ k).mpr ⟨k + 1, hk, Nat.le_succ k⟩⟩
    · cases ht
  · cases ht

theorem touches_live_of_seen (h : s.Inv L) (hs : s.Seen) (ht : (i, k?) ∈ s.touches a) :
    s.Live i k? := by
  have hlive : ∀ {i k c}, (s.irp i).currentFrame = some c → k ≤ c → s.Live i (some k) :=
    fun hc hk ↦ ⟨_, rfl, (h.stacked _ _).mpr ⟨_, hc, hk⟩⟩
  have hcur : ∀ {i}, (s.irp i).currentFrame ≠ none → s.Live i (s.irp i).currentFrame := by
    intro i hc
    obtain ⟨c, hc⟩ := Option.ne_none_iff_exists'.mp hc
    rw [hc]
    exact hlive hc le_rfl
  cases a with
  | advance x =>
    simp only [touches] at ht
    split at ht
    · have hc := (h.issued.early _ _ _ (inCall_of_callOf ‹_›).callAt rfl rfl).2
      cases List.mem_singleton.mp ht
      exact hcur (by simp [hc])
    · have hc := (h.issued.early _ _ _ (inCall_of_callOf ‹_›).callAt rfl rfl).2
      cases List.mem_singleton.mp ht
      exact hcur (by simp [hc])
    · split at ht
      · cases ht
      · rename_i hx hw
        cases List.mem_singleton.mp ht
        cases x with
        | thread t =>
          obtain ⟨c, hc⟩ := Option.ne_none_iff_exists'.mp (hs t i hx)
          exact hlive hc (Nat.zero_le c)
        | worker => exact absurd rfl hw
    · cases ht
    · split at ht
      · exact workerTouches_live h ht
      · cases ht
  | access =>
    simp only [touches] at ht
    split at ht
    · rename_i w d i last hand as hs
      obtain ⟨-, hok⟩ := h.working.queued_top hs
      split at ht
      · cases ht
      · cases hand with
        | fresh =>
          have hc : (s.irp i).currentFrame = some last := hok
          rcases List.mem_pair.mp ht with ht | ht <;> cases ht
          · exact hlive hc le_rfl
          · exact hcur (by simp [hc])
        | moved =>
          have hc : (s.irp i).currentFrame = some (last + 1) := hok
          rcases List.mem_pair.mp ht with ht | ht <;> cases ht
          · exact hlive hc (Nat.le_succ last)
          · exact hcur (by simp [hc])
        | gone => exact absurd rfl ‹¬ _›
    · cases ht
  | move kind f =>
    simp only [touches] at ht
    split at ht
    · rename_i w d i last as hs
      cases List.mem_singleton.mp ht
      exact hlive (h.working.queued_top hs).2 le_rfl
    · cases ht
  | queue =>
    simp only [touches] at ht
    split at ht
    · rename_i w d i last as hs
      cases List.mem_singleton.mp ht
      have hc : (s.irp i).currentFrame = some (last + 1) := (h.working.queued_top hs).2
      exact hcur (by simp [hc])
    · cases ht
  | _ => cases ht

/-! ## Every run -/

/-- **No frame is read that is not alive**, if the worker lets the threads look first. -/
theorem touches_live (h : (machine device).ReachableWhile LooksFirst s)
    (ht : (i, k?) ∈ s.touches a) : s.Live i k? := by
  obtain ⟨hs, L, hL⟩ := invariant_acts (I := Seen) (fun t i h ↦ by cases h)
    (fun s L a s' L' hL hI hc ha _ ↦ ha.seen hL hI hc) h
  exact touches_live_of_seen hL hs ht

theorem looksFirst_of_finishing (h : s.finishing = none) : s.LooksFirst a := by
  unfold LooksFirst
  split
  · simp [h]
  · trivial

theorem touches_live_issued :
    ((machine id).afterWhile (fun s _ ↦ s.finishing = none) (slowCall (.thread 1) 0 none)).Live 0
      (some 0) :=
  touches_live (a := .advance (.thread 1))
    ((Machine.reachableWhile_afterWhile (M := machine id) _).mono
      fun _ _ ↦ looksFirst_of_finishing) (by decide +kernel)

/-- The worker completes the request before the thread gets to its wait: the thread is about to read
the frame 0 that was destroyed, and its file pointer is null. -/
theorem dead_touch : ∃ s, (machine id).Reachable s ∧
    (0, some 0) ∈ s.touches (.advance (.thread 1)) ∧ ((s.irp 0).frames 0) = none ∧
      (next id s (.advance (.thread 1))).isNone = true :=
  ⟨(machine id).after (slowCall (.thread 1) 0 none ++ completeWith (.ok (some 5)) ++
    ([.advance .worker] : List IoAction)), Machine.reachable_after _, by decide +kernel⟩

end IoManager

end Chino
