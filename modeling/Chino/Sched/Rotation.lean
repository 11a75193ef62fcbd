import Chino.Library.Rotation
import Chino.Sched.Partition

/-!
# Turns of one priority

`select_next_thread` goes round the list of the current thread.  But if the current thread is not
running, or a thread of a higher priority is ready, then it searches the lists from their fronts,
and the place it had in the list of a lower priority is lost: once the higher threads wait again,
that list is started over, and whoever stands in front of it has another turn.

A thread that waits for its turn is passed twice by another one only through such a `Restarts`, and
only by threads that stand in front of it then.  `no_second_turn` is this, for every run, and
`second_turn_after_preemption` is a run in which it happens.

## The proof

`Chino.Library.Rotation` has the list and the pointer that goes round it.  A thread `y` waits;
another one `x` of the same list has had a turn.  `InTurn` says that from now on the pointer comes
by `y` before it comes by `x` again.  Threads that join the list go to its end, which keeps this;
threads that leave keep it too.  A switch that rotates moves the pointer to the next element.

What breaks it is a search from the front.  `Restarts` is the condition under which that happens to
a list, and the theorem allows `x` its second turn just then, and only if it stands in front of `y`.

`second_turn_after_preemption` shows that this is not a rare case: one preemption by a thread of a
higher priority is enough.
-/

set_option autoImplicit false

namespace Chino

open Function (update)
open Scheduler

namespace Scheduler

variable {s : Scheduler} {L : Queues} {cnt next : ThreadId} {p : ThreadPriority}

/-- `select_next_thread` takes its branch for a current thread that shares the CPU with its equals,
and the thread is in their list. -/
def Rotates (s : Scheduler) : Prop :=
  ∃ t, s.current = some t ∧ (s.thread t).attached = true ∧ (s.thread t).status = .running ∧
    s.maxReadyPriority.toNat ≤ (s.thread t).priority.toNat

/-- Where it does not rotate, a list is started at its front. -/
theorem Linked.head_of_not_rotates (h : Linked s L) (hc : s.current = some cnt)
    (hsel : s.selectNextThread = .ok next) (hn : ¬s.Rotates) (hm : next ∈ L (.ready p)) :
    ∃ ys, L (.ready p) = next :: ys := by
  have hfront :
      ∀ {q}, chosen (L (.ready q)).head? = .ok next → ∃ ys, L (.ready p) = next :: ys := by
    intro q hq
    obtain rfl : q = p := ListId.ready.inj (h.rep.disjoint _ _ next (mem_of_chosen hq) hm)
    cases hL : L (.ready q) with
    | nil => rw [hL] at hq; cases hq
    | cons y ys => rw [hL] at hq; cases hq; exact ⟨ys, rfl⟩
  by_cases hb : s.maxReadyPriority.toNat > (s.thread cnt).priority.toNat ∨
      (s.thread cnt).status ≠ .running
  · rw [selectNextThread_search hc hb] at hsel
    rcases searchReady_cases h.rep (searchBound (s.thread cnt)) _ s.maxReadyPriority rfl with
      ⟨q, -, -, -, -, hq⟩ | ⟨-, hq⟩
    · rw [hq] at hsel
      exact hfront hsel
    · rw [hq] at hsel
      split at hsel <;> cases hsel
  · have hrun : (s.thread cnt).status = .running := by tauto
    have hmax : s.maxReadyPriority.toNat ≤ (s.thread cnt).priority.toNat := by
      by_contra hlt
      exact hb (Or.inl (by omega))
    -- only a thread that has left its list is running and does not rotate
    cases hatt : (s.thread cnt).attached with
    | true => exact absurd ⟨cnt, hc, hatt, hrun, hmax⟩ hn
    | false =>
      rw [selectNextThread_orphan h.rep hc hrun hmax (h.free hatt)] at hsel
      exact hfront hsel

/-- Where it rotates, the selected thread is the next one of the list. -/
theorem Linked.next_of_rotates (h : Linked s L) (hc : s.current = some cnt)
    (hsel : s.selectNextThread = .ok next) (hr : s.Rotates) (hm : next ∈ L (.ready p)) :
    cnt ∈ L (.ready p) ∧ (s.thread cnt).status = .running ∧
      ∀ xs ys, L (.ready p) = xs ++ cnt :: ys → (ys ++ (xs ++ [cnt])).head? = some next := by
  obtain ⟨t, ht, hatt, hrun, hmax⟩ := hr
  cases hc.symm.trans ht
  have hnext := h.roundRobin_mem hc hrun hmax hsel
  obtain rfl : (s.thread cnt).priority = p :=
    ListId.ready.inj (h.rep.disjoint _ _ next hnext hm)
  obtain ⟨l, hl, hmem⟩ := h.exists_mem hatt
  obtain rfl : l = .ready (s.thread cnt).priority := by simpa [listOf, hrun] using hl.symm
  refine ⟨hmem, hrun, fun xs ys hL ↦ ?_⟩
  rw [selectNextThread_roundRobin h.rep hc hrun hmax hL] at hsel
  rw [List.head?_eq_some_head (by simp), Except.ok.inj hsel]

end Scheduler

namespace Cpu

variable {mem : Addr → UInt32} {c c₁ c₂ c₃ c' d : Cpu} {L L' : Queues} {e : Event} {b : Bool}
  {t x y : ThreadId} {p : ThreadPriority}

/-- The thread is ready at the priority, and not current. -/
def Waiting (c : Cpu) (y : ThreadId) (p : ThreadPriority) : Prop :=
  y ∈ c.sched.lists.toList (.ready p) ∧ c.sched.current ≠ some y

instance : Decidable (c.Waiting y p) := inferInstanceAs (Decidable (_ ∧ _))

/-- `switch_task` takes the thread at the front of the list of the priority, wherever in that list
the last turn was. -/
def Restarts (d : Cpu) (p : ThreadPriority) : Prop :=
  d.sched.lockDepth = 0 ∧ ¬d.sched.Rotates ∧
    ∃ t ∈ d.sched.lists.toList (.ready p), d.sched.selectNextThread = .ok t

/-- `y` waits, and if the step starts the list at its front then `x` is not in front of `y`. -/
def KeepsTurns (x y : ThreadId) (p : ThreadPriority) (c : Cpu) (e : Event) : Prop :=
  c.Waiting y p ∧ ∀ d, c.beforeSwitch e = some d → d.Restarts p →
    ¬[x, y].Sublist (d.sched.lists.toList (.ready p))

/-! ## What an action does to the order of turns -/

/-- A thread that is running in a list after an action was so before it, and the list has at most
grown at its end. -/
theorem Acts.rotation (ha : c.Acts L e d b L') (h : c.Inv L) (hs : c.sched.started = true)
    (hc : d.sched.current = some t) (hrun : (d.sched.thread t).status = .running)
    (ht : t ∈ L' (.ready p)) :
    c.sched.current = some t ∧ (c.sched.thread t).status = .running ∧ t ∈ L (.ready p) ∧
      ∃ zs, L' (.ready p) = L (.ready p) ++ zs := by
  -- the list of an action that leaves it as it is
  have hsame : t ∈ L (.ready p) → L' (.ready p) = L (.ready p) →
      t ∈ L (.ready p) ∧ ∃ zs, L' (.ready p) = L (.ready p) ++ zs :=
    fun hm hL ↦ ⟨hm, [], by rw [hL, List.append_nil]⟩
  cases ha with
  | @attach u q h' hu hcur =>
    have htu : t ≠ u := by rintro rfl; exact hcur hc
    simp only [Scheduler.attached, construct, modifyThread, Function.update_of_ne htu] at hrun
    refine ⟨hc, hrun, ?_⟩
    by_cases hq : p = q
    · subst hq
      rw [Function.update_self] at ht ⊢
      exact ⟨by simpa [htu] using ht, [u], rfl⟩
    · have hpq : ListId.ready p ≠ .ready q := by simpa using hq
      rw [Function.update_of_ne hpq] at ht
      exact hsame ht (Function.update_of_ne hpq _ _)
  | startSchedule hno => exact absurd hs (by simp [hno])
  | detach hcur hpc hm =>
    cases hc.symm.trans hcur
    exact absurd ht (not_mem_without h.linked.rep hm _)
  | blockUntimed hcur =>
    cases hc.symm.trans hcur
    simp [Scheduler.blocked] at hrun
  | blockTimed hcur =>
    cases hc.symm.trans hcur
    simp [asleep_waiting_thread, sleepThread] at hrun
  | delay hcur =>
    cases hc.symm.trans hcur
    simp [Scheduler.asleep, sleepThread] at hrun
  | @unblock a all =>
    rw [unblocked_thread] at hrun
    by_cases hm : t ∈ c.sched.notified a all (L .blocked)
    · simp [hm] at hrun
    · rw [if_neg hm] at hrun
      have ht' : t ∈ L (.ready p) := by simpa [wakeQueues, hm] using ht
      exact ⟨hc, hrun, ht', _, rfl⟩
  | tick =>
    rw [woken_thread] at hrun
    by_cases hm : t ∈ c.sched.due (L .delayed)
    · simp [hm] at hrun
    · rw [if_neg hm] at hrun
      have ht' : t ∈ L (.ready p) := by simpa [wakeQueues, hm] using ht
      exact ⟨hc, hrun, ht', _, rfl⟩
  | blockCheck =>
    rw [blockCheck_sched] at hc hrun
    exact ⟨hc, hrun, hsame ht rfl⟩
  | _ => exact ⟨hc, hrun, hsame ht rfl⟩

/-- A thread that waits for its turn stays in its list. -/
theorem Acts.ready_stays (ha : c.Acts L e d b L') (h : c.Inv L) (hc : c.sched.current ≠ some y)
    (hy : y ∈ L (.ready p)) : y ∈ L' (.ready p) := by
  have hstay : ∀ {u l}, c.sched.current = some u → u ∈ L l → y ∈ without L l u (.ready p) :=
    fun hu hm ↦ (mem_without h.linked.rep hm).mpr ⟨by rintro rfl; exact hc hu, hy⟩
  cases ha with
  | @attach u q =>
    by_cases hq : p = q
    · subst hq
      rw [Function.update_self]
      exact List.mem_append_left _ hy
    · rwa [Function.update_of_ne (by simpa using hq)]
  | detach hu _ hm => exact hstay hu hm
  | blockUntimed hu _ _ _ hm =>
    rw [Function.update_of_ne (by simp)]
    exact hstay hu hm
  | blockTimed hu _ _ _ hm | delay hu _ hm =>
    rw [sleepQueues, Function.update_of_ne (by simp)]
    exact hstay hu hm
  | unblock | tick => exact List.mem_append_left _ hy
  | _ => exact hy

/-- Only the start of the scheduler makes a thread current in an action. -/
theorem Acts.current_eq (ha : c.Acts L e d b L') (hs : c.sched.started = true) :
    d.sched.current = c.sched.current ∧ d.sched.started = true := by
  cases ha with
  | startSchedule hno => exact absurd hs (by simp [hno])
  | blockCheck => rw [blockCheck_sched]; exact ⟨rfl, hs⟩
  | _ => exact ⟨rfl, hs⟩

/-! ## The invariant -/

/-- Among the threads of the list, the turn of `y` comes before that of `x`.  This says something
only while a thread of the list is running; otherwise the list is started over. -/
def InTurn (c : Cpu) (L : Queues) (x y : ThreadId) (p : ThreadPriority) : Prop :=
  ∀ t, c.sched.current = some t → (c.sched.thread t).status = .running → t ∈ L (.ready p) →
    t ≠ y → Ahead (L (.ready p)) x y t

theorem Acts.inTurn (ha : c.Acts L e d b L') (h : c.Inv L) (hs : c.sched.started = true)
    (hi : c.InTurn L x y p) : d.InTurn L' x y p := by
  intro t hc hrun ht hty
  obtain ⟨hc', hrun', ht', zs, hL⟩ := ha.rotation h hs hc hrun ht
  exact hL ▸ (hi t hc' hrun' ht' hty).append zs

/-- **A switch gives no turn to `x` while `y` waits.** -/
theorem inTurn_switchTask (h : d.Inv L) (hi : d.InTurn L x y p) (hy : y ∈ L (.ready p))
    (hcy : d.sched.current ≠ some y) (hre : d.Restarts p → ¬[x, y].Sublist (L (.ready p)))
    (hs : d.switchTask = .ok c') : c'.sched.started = d.sched.started ∧ c'.InTurn L x y p ∧
      (c'.sched.current = some x → (c'.sched.thread x).priority = p → x ≠ y →
        d.sched.current = some x) := by
  obtain ⟨s, hsw, rfl⟩ := switchTask_eq_ok hs
  rcases switchTask_cases hsw with rfl | ⟨cnt, next, hlock, hc, hne, hsel, rfl⟩
  · exact ⟨rfl, hi, fun hx _ _ ↦ hx⟩
  have key : next ∈ L (.ready p) → next ≠ y → next ≠ x ∧ Ahead (L (.ready p)) x y next := by
    intro hm hny
    by_cases hr : d.sched.Rotates
    · obtain ⟨hcm, hrun, hnext⟩ := h.linked.next_of_rotates hc hsel hr hm
      have hcnty : cnt ≠ y := by rintro rfl; exact hcy hc
      exact (hi cnt hc hrun hcm hcnty).next (h.linked.rep.nodup _) hcm hy hcnty hny hnext
    · obtain ⟨ys, hL⟩ := h.linked.head_of_not_rotates hc hsel hr hm
      refine ahead_head hL hy hny (hre ⟨hlock, hr, next, ?_, hsel⟩)
      rwa [h.linked.rep.toList_eq]
  refine ⟨rfl, fun t ht _ hm hty ↦ ?_, fun hx hp hxy ↦ ?_⟩
  · cases ht
    exact (key hm hty).2
  · cases hx
    dsimp only at hp
    rw [switched_thread, if_pos rfl] at hp
    obtain ⟨q, hq⟩ := h.linked.selectNextThread_mem hc hsel
    obtain rfl : q = p := (h.linked.priority_eq hq).symm.trans hp
    exact absurd rfl (key hq hxy).1

/-- One step of a run in which `y` waits. -/
theorem Inv.inTurn_next (h : c.Inv L) (hs : c.sched.started = true) (hi : c.InTurn L x y p)
    (hk : KeepsTurns x y p c e) (hn : c.next e = some c') :
    ∃ L', c'.Inv L' ∧ c'.sched.started = true ∧ c'.InTurn L' x y p ∧
      (c'.sched.current = some x → (c'.sched.thread x).priority = p → x ≠ y →
        c.sched.current = some x) := by
  obtain ⟨⟨hy, hcy⟩, hre⟩ := hk
  rw [h.linked.rep.toList_eq] at hy
  obtain ⟨d, b, L', ha, hId, hI', hcase⟩ := h.next_cases hn
  obtain ⟨hcur, hst⟩ := ha.current_eq hs
  have hid := ha.inTurn h hs hi
  refine ⟨L', hI', ?_⟩
  rcases hcase with ⟨-, rfl⟩ | ⟨-, hbs, hsw⟩
  · exact ⟨hst, hid, fun hx _ _ ↦ hcur ▸ hx⟩
  · have hre' := hre d hbs
    rw [hId.linked.rep.toList_eq] at hre'
    obtain ⟨hst', hi', hno⟩ :=
      inTurn_switchTask hId hid (ha.ready_stays h hcy hy) (hcur ▸ hcy) hre' hsw
    exact ⟨hst'.trans hst, hi', fun hx hp hxy ↦ hcur ▸ hno hx hp hxy⟩

/-- **No second turn.**  Once `x` is current, a run in which `y` waits at priority `p`, and in which
`x` is not in front of `y` whenever the list is started over, does not make `x` current again at
this priority. -/
theorem no_second_turn (h : (machine mem).Reachable c₁) (hx : c₁.sched.current = some x)
    (hrun : (machine mem).LeadsWhile (KeepsTurns x y p) c₁ c₂) (hleft : c₂.sched.current ≠ some x)
    (hk : KeepsTurns x y p c₂ e) (hn : c₂.next e = some c₃)
    (hp : (c₃.sched.thread x).priority = p) : c₃.sched.current ≠ some x := by
  obtain ⟨L₁, hI₁⟩ := inv_of_reachable h
  have hstart : ∃ L, c₁.Inv L ∧ c₁.sched.started = true ∧ c₁.InTurn L x y p := by
    refine ⟨L₁, hI₁, by rw [hI₁.started, hx]; rfl, fun t ht _ _ _ ↦ ?_⟩
    cases hx.symm.trans ht
    exact .here
  have hkeep : ∃ L, c₂.Inv L ∧ c₂.sched.started = true ∧ c₂.InTurn L x y p := by
    refine hrun.invariant (I := fun c ↦ ∃ L, c.Inv L ∧ c.sched.started = true ∧ c.InTurn L x y p)
      hstart ?_
    rintro u e v ⟨L, hI, hs, hi⟩ hk hn
    obtain ⟨L', hI', hs', hi', -⟩ := hI.inTurn_next hs hi hk hn
    exact ⟨L', hI', hs', hi'⟩
  obtain ⟨L, hI, hs, hi⟩ := hkeep
  obtain ⟨L', -, -, -, hno⟩ := hI.inTurn_next hs hi hk hn
  have hxy : x ≠ y := by
    rintro rfl
    rcases hrun.cases_head with rfl | ⟨u, ⟨e', hk', -⟩, -⟩
    · exact hleft hx
    · exact hk'.1.2 hx
  exact fun hx₃ ↦ hleft (hno hx₃ hp hxy)

/-- Four threads of one priority: the first one has left the CPU to the second one, and the step
after that gives it to the third one, while the fourth one waits. -/
theorem no_second_turn_yields :
    let c₁ := (machine zeroed).after [.attach 0 .idle, .attach 1 .normal, .attach 2 .normal,
      .attach 3 .normal, .attach 4 .normal, .startSchedule 1]
    let c₂ := (c₁.next .yield).get (by decide)
    let c₃ := (c₂.next .yield).get (by decide)
    c₂.sched.current = some 2 ∧ c₃.sched.current = some 3 ∧ c₃.sched.current ≠ some 1 := by
  have hkeeps : ∀ (c : Cpu) (t : ThreadId), c.sched.current = some t →
      (c.sched.thread t).attached = true → (c.sched.thread t).status = .running →
      c.sched.maxReadyPriority.toNat ≤ (c.sched.thread t).priority.toNat → c.Waiting 4 .normal →
      KeepsTurns 1 4 .normal c .yield := by
    intro c t hc hatt hrun hmax hw
    refine ⟨hw, fun d hd hre ↦ absurd ?_ hre.2.1⟩
    have hact := beforeSwitch_eq_some.mp hd
    simp only [act, currentThread, hc, bind, Except.bind] at hact
    cases hact
    exact ⟨t, hc, hatt, hrun, hmax⟩
  intro c₁ c₂ c₃
  have h₁ : (machine zeroed).Reachable c₁ := (machine zeroed).reachable_after _
  have hn₁ : c₁.next .yield = some c₂ := (Option.some_get _).symm
  have hn₂ : c₂.next .yield = some c₃ := (Option.some_get _).symm
  have hk₁ : KeepsTurns 1 4 .normal c₁ .yield :=
    hkeeps c₁ 1 (by decide) (by decide) (by decide) (by decide) (by decide)
  have hk₂ : KeepsTurns 1 4 .normal c₂ .yield :=
    hkeeps c₂ 2 (by decide) (by decide) (by decide) (by decide) (by decide)
  exact ⟨by decide, by decide, no_second_turn h₁ (by decide) (.single ⟨.yield, hk₁, hn₁⟩)
    (by decide) hk₂ hn₂ (by decide)⟩

/-- A thread of a higher priority wakes up and goes to sleep again.  The list below it is started
over each time, so its first thread has a second turn while the second one still waits. -/
theorem second_turn_after_preemption :
    let c₁ := (machine zeroed).after [.attach 0 .idle, .attach 1 .normal, .attach 2 .normal,
      .attach 3 .high, .startSchedule 3, .delay 5]
    let c₂ := ((machine zeroed).runWhile (fun c _ ↦ c.Waiting 2 .normal) c₁ [.clock 5, .tick]).get
      (by decide +kernel)
    let c₃ := (c₂.next (.delay 5)).get (by decide +kernel)
    (machine zeroed).Reachable c₁ ∧ c₁.sched.current = some 1 ∧
      (machine zeroed).LeadsWhile (fun c _ ↦ c.Waiting 2 .normal) c₁ c₂ ∧
      c₂.sched.current = some 3 ∧ c₂.Waiting 2 .normal ∧ c₂.next (.delay 5) = some c₃ ∧
      c₃.Waiting 2 .normal ∧ (c₃.sched.thread 1).priority = .normal ∧
      c₃.sched.current = some 1 := by
  intro c₁ c₂ c₃
  have hrun : (machine zeroed).runWhile (fun c _ ↦ c.Waiting 2 .normal) c₁ [.clock 5, .tick]
      = some c₂ := (Option.some_get _).symm
  have hn : c₂.next (.delay 5) = some c₃ := (Option.some_get _).symm
  have h₁ : (machine zeroed).Reachable c₁ := (machine zeroed).reachable_after _
  exact ⟨h₁, by decide +kernel, Machine.leadsWhile_runWhile hrun, by decide +kernel,
    by decide +kernel, hn, by decide +kernel, by decide +kernel, by decide +kernel⟩

end Cpu

end Chino
