import Chino.Sched.Priority

/-!
# A thread exits

`thread_main_thunk` detaches the current thread and yields, and interrupts may come in between.
The thread stays the current one until the first `switch_task` that is not locked, although it is
on no list any more: its status is whatever it was, usually still `running`, and
`max_ready_priority_` has been reset to `idle` if it was the thread's own priority.

So `select_next_thread` takes the branch of a running thread, looks for the successor of a node
whose pointers are null, and falls back on the front of the list the thread was on.  If that list
has become empty, there is nobody: the assertion fails although the idle thread is ready.  A thread
that exits after it has blocked itself under the scheduler lock takes the other branch, which sees
nobody above the reset bound.

`HandsOver` is the condition under which neither happens, and `exit_hands_over_iff` says that it is
the exact one, in every run in which the earlier exits met it.

## The condition

`Exits` are the states in which `switch_task` looks for the successor of a thread that was detached;
the thread itself is still `current_thread_`.  `HandsOver` asks, of such a state:

* if the thread is `running`, that another one is ready at its priority or that the bound is high
  enough for the search to be started and to find somebody;
* if it is not, that nobody ready is above the bound.

`SafeExit` is what the switch leaves behind in that case: the next thread is attached, it has the
highest priority of all that are ready, and the bound covers them.  `exit_invariant` carries
`Chino.Sched.Priority` along a run with exits under this rule, so the state after one exit is as
good a state for the next one.

The failing case is traced in `exit_of_only_normal`: the only normal thread exits, and a null
pointer is selected although the idle thread is ready.
-/

set_option autoImplicit false

namespace Chino

open Scheduler

namespace Cpu

/-! ## The condition -/

/-- At `d`, `switch_task` looks for a successor of the thread `t`, which has been detached. -/
def Exits (d : Cpu) (t : ThreadId) : Prop :=
  d.sched.lockDepth = 0 ∧ d.sched.current = some t ∧ (d.pc t = .exiting ∨ d.pc t = .exited)

instance (d : Cpu) (t : ThreadId) : Decidable (d.Exits t) := by unfold Exits; infer_instance

/-- When the exiting thread `t` leaves the CPU to the right thread.  If it is running, there has to
be another thread ready at its priority, or the bound has to be above it; if it is not, the bound
has to cover the threads that are ready. -/
def HandsOver (s : Scheduler) (t : ThreadId) : Prop :=
  if (s.thread t).status = .running then
    s.lists.toList (.ready (s.thread t).priority) ≠ [] ∨
      (s.thread t).priority.toNat < s.maxReadyPriority.toNat
  else ∀ q, s.lists.toList (.ready q) ≠ [] → q.toNat ≤ s.maxReadyPriority.toNat

instance (s : Scheduler) (t : ThreadId) : Decidable (HandsOver s t) := by
  unfold HandsOver; infer_instance

/-- The rule of a run in which every exit meets the condition. -/
def ExitRule (c : Cpu) (e : Event) : Prop :=
  ∀ d ∈ c.beforeSwitch e, ∀ t ∈ d.sched.current, d.Exits t → HandsOver d.sched t

instance (c : Cpu) (e : Event) : Decidable (ExitRule c e) := by unfold ExitRule; infer_instance

variable {mem : Addr → UInt32} {c d c' : Cpu} {L : Queues} {e : Event} {t : ThreadId}

/-- Only an exiting thread can hide a ready one from the bound. -/
theorem exits_of_overtopped (h : d.Inv L) (hp : d.sched.Peak L) (hlock : d.sched.lockDepth = 0)
    (ho : Overtopped d.sched) :
    ∃ t, d.Exits t ∧ (d.sched.thread t).status ≠ .running ∧ ¬ HandsOver d.sched t := by
  obtain ⟨t, hc, hst, q, hq, hlt⟩ := ho
  refine ⟨t, ⟨hlock, hc, ?_⟩, hst, ?_⟩
  · by_contra hno
    obtain ⟨h1, h2⟩ := not_or.mp hno
    rw [h.linked.rep.toList_eq] at hq
    have := hp.bound_attached hc (h.current t hc h1 h2) hq
    omega
  · rw [HandsOver, if_neg hst]
    intro hall
    have := hall q hq
    omega

/-- What the runs under the rule keep. -/
theorem exit_invariant (h : (machine mem).ReachableWhile ExitRule c) :
    ∃ L, c.Inv L ∧ c.sched.Peak L := by
  refine Machine.ReachableWhile.invariant (I := fun c ↦ ∃ L, c.Inv L ∧ c.sched.Peak L)
    ⟨_, inv_init, peak_init⟩ ?_ h
  rintro c e c' - ⟨L, hI, hP⟩ hrule hn
  obtain ⟨d, b, L', ha, hd, hI', ⟨rfl, rfl⟩ | ⟨rfl, hbefore, hsw⟩⟩ := hI.next_cases hn
  · exact ⟨L', hI', ha.peak hI hP⟩
  · refine ⟨L', hI', peak_switchTask hd (ha.peak hI hP) (fun hlock ho ↦ ?_) hsw⟩
    obtain ⟨t, hx, -, hno⟩ := exits_of_overtopped hd (ha.peak hI hP) hlock ho
    exact hno (hrule d hbefore t hx.2.1 hx)

/-! ## The hand-over -/

/-- What a thread leaves behind that exits safely: the next thread is attached and the highest of
those that are ready, and the bound covers them all again. -/
def SafeExit (d : Cpu) : Prop :=
  ∃ n c', d.sched.selectNextThread = .ok n ∧ (d.sched.thread n).attached = true ∧
    n ∈ d.sched.lists.toList (.ready (d.sched.thread n).priority) ∧
    (∀ u p, u ∈ d.sched.lists.toList (.ready p) →
      (d.sched.thread u).priority.toNat ≤ (d.sched.thread n).priority.toNat) ∧
    d.switchTask = .ok c' ∧ c'.sched.current = some n ∧
    ∀ u p, u ∈ c'.sched.lists.toList (.ready p) →
      (c'.sched.thread u).priority.toNat ≤ c'.sched.maxReadyPriority.toNat

/-- A search selects nobody above the bound. -/
theorem selected_le_bound {s : Scheduler} {n : ThreadId} (hl : s.Linked L)
    (hc : s.current = some t) (hst : (s.thread t).status ≠ .running)
    (hsel : s.selectNextThread = .ok n) :
    (s.thread n).priority.toNat ≤ s.maxReadyPriority.toNat := by
  rw [selectNextThread_search hc (Or.inr hst)] at hsel
  rcases searchReady_cases hl.rep (searchBound (s.thread t)) _ s.maxReadyPriority rfl with
    ⟨p, -, hle, -, -, hres⟩ | ⟨-, hres⟩
  · rw [hres] at hsel
    rwa [hl.priority_eq (mem_of_chosen hsel)]
  · rw [hres] at hsel
    split at hsel <;> cases hsel

/-- **Thread exit hands over the CPU safely exactly under the condition.**  In a run whose earlier
exits met it, and while an idle thread is ready. -/
theorem exit_hands_over_iff (h : (machine mem).ReachableWhile ExitRule c) (he : c.enabled e = true)
    (hd : c.beforeSwitch e = some d) (hx : d.Exits t)
    (hidle : ∃ i ∈ d.sched.lists.toList (.ready .idle), (d.sched.thread i).status = .ready) :
    SafeExit d ↔ HandsOver d.sched t := by
  obtain ⟨L, hI, hP⟩ := exit_invariant h
  obtain ⟨d', b, L', hact', ha, hr⟩ := hI.act_acts he
  cases (beforeSwitch_eq_some.mp hd).symm.trans hact'
  have hI' := ha.inv hI hr
  have hP' := ha.peak hI hP
  obtain ⟨hlock, hc, -⟩ := hx
  have hlists := hI'.linked.rep.toList_eq
  obtain ⟨i, hi, -⟩ := hidle
  rw [hlists] at hi
  have hidle : L' (.ready .idle) ≠ [] := List.ne_nil_of_mem hi
  constructor
  · rintro ⟨n, c', hsel, -, hn, hhigh, -⟩
    rw [hlists] at hn hhigh
    rw [HandsOver, hlists]
    split
    · rename_i hrun
      by_contra hno
      obtain ⟨hnil, hlt⟩ := not_or.mp hno
      exact absurd (hI'.linked.roundRobin_mem hc hrun (by omega) hsel) (by simp [not_not.mp hnil])
    · rename_i hst
      intro q hq
      obtain ⟨u, hu⟩ := List.exists_mem_of_ne_nil _ hq
      have h1 := hhigh u q hu
      rw [hI'.linked.priority_eq hu] at h1
      exact h1.trans (selected_le_bound hI'.linked hc hst hsel)
  · intro hover
    have hrun : (d.sched.thread t).status = .running →
        d.sched.maxReadyPriority.toNat ≤ (d.sched.thread t).priority.toNat →
        L' (.ready (d.sched.thread t).priority) ≠ [] := fun hrun hle ↦ by
      rw [HandsOver, if_pos hrun, hlists] at hover
      exact hover.resolve_right (by omega)
    have hst : (d.sched.thread t).status ≠ .running → ∀ q, L' (.ready q) ≠ [] →
        q.toNat ≤ d.sched.maxReadyPriority.toNat := fun hst ↦ by
      rwa [HandsOver, if_neg hst, hlists] at hover
    obtain ⟨n, hsel⟩ := exists_selected hI'.linked hP' hc hrun
      (fun _ ↦ ⟨.idle, hidle, Nat.zero_le _⟩)
    obtain ⟨hn, hhigh⟩ := selected_highest hI'.linked hP' hc hst hsel
    obtain ⟨s', hsw, hc', hl', hsame, hmax⟩ := switchTask_selected hlock hc hsel
    have hle : ∀ u p, u ∈ L' (.ready p) →
        (d.sched.thread u).priority.toNat ≤ (d.sched.thread n).priority.toNat := fun u p hu ↦ by
      rw [hI'.linked.priority_eq hu]
      exact hhigh p (List.ne_nil_of_mem hu)
    refine ⟨n, { d with sched := s' }, hsel, hI'.linked.attached hn, hlists ▸ hn, hlists ▸ hle,
      by rw [Cpu.switchTask, hsw]; rfl, hc', fun u p hu ↦ ?_⟩
    rw [hl', hlists] at hu
    rw [(hsame u).1]
    rcases hmax with ⟨rfl, rfl⟩ | hmax
    · exact (hle u p hu).trans (hP'.le t hc (hI'.linked.attached hn))
    · rw [hmax]; exact hle u p hu

/-- A normal thread exits while another normal thread is ready. -/
theorem exit_hands_over_iff_two_normal :
    let c := (machine zeroed).afterWhile ExitRule
      [.attach 0 .idle, .attach 2 .highest, .startSchedule 2,
      .attach 1 .normal, .attach 3 .normal, .block 100 0 none, .blockSection, .yield, .detach]
    let d := (c.beforeSwitch .yield).get (by decide)
    c.sched.current = some 1 ∧ SafeExit d :=
  ⟨by decide, (exit_hands_over_iff (t := 1) (Machine.reachableWhile_afterWhile _) (by decide)
    (Option.some_get _).symm (by decide) (by decide)).mpr (by decide)⟩

/-- The only normal thread exits while the thread with the highest priority waits. -/
theorem exit_of_only_normal :
    let c := (machine zeroed).after [.attach 0 .idle, .attach 2 .highest, .startSchedule 2,
      .attach 1 .normal, .block 100 0 none, .blockSection, .yield, .detach]
    let d := (c.beforeSwitch .yield).get (by decide)
    (machine zeroed).Reachable c ∧ c.enabled .yield = true ∧ c.beforeSwitch .yield = some d ∧
    d.Exits 1 ∧
      (∃ i ∈ d.sched.lists.toList (.ready .idle), (d.sched.thread i).status = .ready) ∧
      d.sched.selectNextThread = .error .nullThread ∧ ¬ SafeExit d := by
  intro c d
  have hsel : d.sched.selectNextThread = .error .nullThread := by decide
  refine ⟨(machine zeroed).reachable_after _, by decide, (Option.some_get _).symm, by decide,
    by decide, hsel,
    ?_⟩
  rintro ⟨n, c', hn, -⟩
  rw [hsel] at hn
  cases hn

end Cpu

end Chino
