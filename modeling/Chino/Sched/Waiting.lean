import Chino.Library.Count
import Chino.Sched.Rotation

/-!
# How long a ready thread waits

While a thread waits for its turn, others of its priority take theirs.  Those between the current
thread and the waiting one come first, and a thread that becomes ready meanwhile may be one of them.
Where the list is started over at its front, all that stand in front of the waiting thread come
first.  `bounded_waiting` adds this up over any run: there are no other turns, and nobody gets in
front of the waiting thread.

## The measure

`toGo` is the number of turns of others until `y` has its own, if nothing comes between: the
elements of the list from the current thread on to `y`.  `inFront` is the number of elements in
front of `y`.

* A switch that rotates takes the next element, so `toGo` goes down by one for each turn
  (`toGo_switchTask`).
* A thread that joins the list goes to its end, which may be on the way: `toGo` goes up by one.
* A switch that starts the list over sets `toGo` to `inFront`.  This happens after a preemption by
  another priority, and also when the current thread of this priority blocks, sleeps or exits, since
  none of these leaves a thread from which to go on.
* Nobody gets in front of `y`, so `inFront` never goes up (`Acts.inFront_le`).

`WaitsReady` is the run with its three counters: the turns of others, the arrivals and the fresh
starts.  The theorem adds the four lines up.
-/

set_option autoImplicit false

namespace Chino

open Function (update)
open Scheduler

namespace Cpu

variable {mem : Addr → UInt32} {c c' d b : Cpu} {L L' : Queues} {e : Event} {switches : Bool}
  {t y : ThreadId} {p : ThreadPriority} {turns arrivals restarts : ℕ}

/-! ## Turns -/

/-- The threads that are ready at the priority. -/
def readyAt (c : Cpu) (p : ThreadPriority) : List ThreadId := c.sched.lists.toList (.ready p)

/-- The threads in front of `y` in its list. -/
def inFront (c : Cpu) (y : ThreadId) (p : ThreadPriority) : ℕ := (c.readyAt p).idxOf y

/-- The current thread goes round this list, and `y` is another one of it. -/
def Round (c : Cpu) (t y : ThreadId) (p : ThreadPriority) : Prop :=
  c.sched.current = some t ∧ (c.sched.thread t).status = .running ∧ t ∈ c.readyAt p ∧ t ≠ y

instance : Decidable (c.Round t y p) := inferInstanceAs (Decidable (_ ∧ _ ∧ _ ∧ _))

/-- The turns of others until `y` has its own, if nothing comes between. -/
def toGo (c : Cpu) (y : ThreadId) (p : ThreadPriority) : ℕ :=
  match c.sched.current with
  | some t => if c.Round t y p then between (c.readyAt p) t y else 0
  | none => 0

/-- The step ends with a `switch_task` that takes a thread of this list, which is not `y`. -/
def GivesTurn (c : Cpu) (y : ThreadId) (p : ThreadPriority) (e : Event) : Prop :=
  ∃ b t, c.beforeSwitch e = some b ∧ b.sched.lockDepth = 0 ∧ b.sched.selectNextThread = .ok t ∧
    t ∈ b.readyAt p ∧ t ≠ y

/-- The step starts the list over. -/
def StartsOver (c : Cpu) (p : ThreadPriority) (e : Event) : Prop :=
  ∃ b, c.beforeSwitch e = some b ∧ b.Restarts p

/-- A run in which `y` waits: the turns that other threads of its priority got, the threads that
became ready at this priority, and how often the list was started over. -/
inductive WaitsReady (y : ThreadId) (p : ThreadPriority) (c : Cpu) : Cpu → ℕ → ℕ → ℕ → Prop
  | start : WaitsReady y p c c 0 0 0
  | step {d d' : Cpu} {e : Event} {turns arrivals restarts : ℕ}
      (hw : WaitsReady y p c d turns arrivals restarts) (hy : d.Waiting y p)
      (hn : d.next e = some d') :
      WaitsReady y p c d' (turns + tally (d.GivesTurn y p e))
        (arrivals + ((d'.readyAt p).length - (d.readyAt p).length))
        (restarts + tally (d.StartsOver p e))

/-! ## What a step does to the list -/

theorem Inv.readyAt_eq (h : c.Inv L) (p : ThreadPriority) : c.readyAt p = L (.ready p) :=
  congrFun h.linked.rep.toList_eq _

theorem toGo_of_round (h : c.Round t y p) : c.toGo y p = between (c.readyAt p) t y := by
  rw [toGo, h.1]
  exact if_pos h

theorem toGo_of_not (h : ∀ t, ¬c.Round t y p) : c.toGo y p = 0 := by
  unfold toGo
  split
  · exact if_neg (h _)
  · rfl

/-- The current thread leaves the list, or others join it. -/
theorem Acts.changes (ha : c.Acts L e d switches L') (p : ThreadPriority) :
    (∃ zs, L' (.ready p) = L (.ready p) ++ zs) ∨
      ∃ t, c.sched.current = some t ∧ L' (.ready p) = (L (.ready p)).erase t := by
  have hleave : ∀ {t} (l), c.sched.current = some t →
      (∃ zs, without L l t (.ready p) = L (.ready p) ++ zs) ∨
        ∃ u, c.sched.current = some u ∧ without L l t (.ready p) = (L (.ready p)).erase u := by
    intro t l ht
    by_cases hl : l = .ready p
    · subst hl
      exact Or.inr ⟨t, ht, Function.update_self ..⟩
    · exact Or.inl ⟨[], by rw [without, Function.update_of_ne (Ne.symm hl), List.append_nil]⟩
  have hsame : ∃ zs, L (.ready p) = L (.ready p) ++ zs := ⟨[], (List.append_nil _).symm⟩
  cases ha with
  | @attach u q =>
    by_cases hq : p = q
    · subst hq
      exact Or.inl ⟨[u], Function.update_self ..⟩
    · rw [Function.update_of_ne (by simpa using hq)]
      exact Or.inl hsame
  | detach hc => exact hleave _ hc
  | blockUntimed hc =>
    rw [Function.update_of_ne (by simp)]
    exact hleave _ hc
  | blockTimed hc | delay hc =>
    rw [sleepQueues, Function.update_of_ne (by simp)]
    exact hleave _ hc
  | unblock | tick => exact Or.inl ⟨_, rfl⟩
  | _ => exact Or.inl hsame

/-- Nobody gets in front of a thread that waits. -/
theorem Acts.inFront_le (ha : c.Acts L e d switches L') (hy : y ∈ L (.ready p))
    (hcy : c.sched.current ≠ some y) : (L' (.ready p)).idxOf y ≤ (L (.ready p)).idxOf y := by
  rcases ha.changes p with ⟨zs, hz⟩ | ⟨t, ht, herase⟩
  · rw [hz, List.idxOf_append_of_mem hy]
  · rw [herase]
    refine idxOf_erase_le ?_
    rintro rfl
    exact hcy ht

/-- An action brings the turn of `y` no further away than by the threads that join the list. -/
theorem Acts.toGo_le (ha : c.Acts L e d switches L') (h : c.Inv L) (hd : d.Inv L')
    (hs : c.sched.started = true) (hy : y ∈ L (.ready p)) :
    d.toGo y p ≤ c.toGo y p + ((d.readyAt p).length - (c.readyAt p).length) := by
  by_cases hr : ∃ t, d.Round t y p
  · obtain ⟨t, hr⟩ := hr
    obtain ⟨hc, hrun, hm, hne⟩ := id hr
    rw [hd.readyAt_eq] at hm
    obtain ⟨hc', hrun', hm', zs, hL⟩ := ha.rotation h hs hc hrun hm
    have hr' : c.Round t y p := ⟨hc', hrun', by rwa [h.readyAt_eq], hne⟩
    rw [toGo_of_round hr, toGo_of_round hr', hd.readyAt_eq, h.readyAt_eq, hL, List.length_append,
      Nat.add_sub_cancel_left]
    exact between_append (hL ▸ hd.linked.rep.nodup _) hm' hy
  · rw [toGo_of_not (by simpa using hr)]
    exact Nat.zero_le _

/-- A switch that is not locked goes to the selected thread. -/
theorem selected_of_switchTask {s s' : Scheduler} (hlock : s.lockDepth = 0)
    (hs : s.switchTask = .ok s') : ∃ cnt next, s.current = some cnt ∧
      s.selectNextThread = .ok next ∧ s'.current = some next ∧ s'.lists = s.lists := by
  rw [Scheduler.switchTask, if_pos hlock] at hs
  cases hc : s.current with
  | none => simp [currentThread, hc, bind, Except.bind] at hs
  | some cnt =>
    cases hsel : s.selectNextThread with
    | error f => simp [currentThread, hc, hsel, bind, Except.bind] at hs
    | ok next =>
      refine ⟨cnt, next, rfl, rfl, ?_⟩
      simp only [currentThread, hc, hsel, bind, Except.bind] at hs
      split at hs
      · rename_i hne
        simp only [setCurrentThread, currentThread, hc, bind, Except.bind] at hs
        rw [if_pos (Ne.symm hne)] at hs
        cases hs
        refine ⟨rfl, ?_⟩
        dsimp only [modifyThread]
        split <;> rfl
      · rename_i hne
        cases hs
        exact ⟨by rw [hc, not_not.mp hne], rfl⟩

/-- The turns of others until `y` has its own, once `next` is current. -/
theorem toGo_le_between {s : Scheduler} {next : ThreadId} (hcur : s.current = some next)
    (hlists : s.lists = d.sched.lists) : ({ d with sched := s } : Cpu).toGo y p ≤
      if next ∈ d.readyAt p ∧ next ≠ y then between (d.readyAt p) next y else 0 := by
  have he : ({ d with sched := s } : Cpu).readyAt p = d.readyAt p := by
    rw [readyAt, readyAt, hlists]
  by_cases hr : ∃ t, ({ d with sched := s } : Cpu).Round t y p
  · obtain ⟨t, hr⟩ := hr
    rw [toGo_of_round hr, he]
    obtain ⟨ht, -, hm, hne⟩ := hr
    cases hcur.symm.trans ht
    rw [if_pos ⟨he ▸ hm, hne⟩]
  · rw [toGo_of_not (by simpa using hr)]
    exact Nat.zero_le _

/-- A switch hands the CPU to a thread of this list other than `y`. -/
def TakesOther (d : Cpu) (y : ThreadId) (p : ThreadPriority) : Prop :=
  ∃ t, d.sched.lockDepth = 0 ∧ d.sched.selectNextThread = .ok t ∧ t ∈ d.readyAt p ∧ t ≠ y

/-- **A switch gives one turn at most.**  It brings the turn of `y` nearer by one then, or it starts
the list over. -/
theorem toGo_switchTask (h : d.Inv L) (hy : y ∈ L (.ready p)) (hcy : d.sched.current ≠ some y)
    (hs : d.switchTask = .ok c') :
    tally (d.TakesOther y p) + c'.toGo y p ≤ d.toGo y p + tally (d.Restarts p) * d.inFront y p ∧
      c'.readyAt p = d.readyAt p := by
  obtain ⟨s, hsw, rfl⟩ := switchTask_eq_ok hs
  have hread := h.readyAt_eq p
  by_cases hlock : d.sched.lockDepth = 0
  swap
  · obtain rfl : s = d.sched := by
      rcases switchTask_cases hsw with rfl | ⟨cnt, next, hl, -⟩
      · rfl
      · exact absurd hl hlock
    rw [tally_of_not fun ⟨_, hl, _⟩ ↦ hlock hl]
    exact ⟨by simp, rfl⟩
  obtain ⟨cnt, next, hc, hsel, hcur, hlists⟩ := selected_of_switchTask hlock hsw
  refine ⟨?_, by rw [readyAt, readyAt, hlists]⟩
  have hafter := toGo_le_between (d := d) (y := y) (p := p) hcur hlists
  by_cases hm : next ∈ d.readyAt p ∧ next ≠ y
  swap
  · rw [if_neg hm] at hafter
    have hno : ¬d.TakesOther y p := by
      rintro ⟨t, -, ht, htm⟩
      cases hsel.symm.trans ht
      exact hm htm
    rw [tally_of_not hno]
    omega
  rw [if_pos hm] at hafter
  rw [tally_of ⟨next, hlock, hsel, hm⟩]
  obtain ⟨hm, hny⟩ := hm
  rw [hread] at hm hafter
  by_cases hr : d.sched.Rotates
  · obtain ⟨hcm, hrun, hnext⟩ := h.linked.next_of_rotates hc hsel hr hm
    have hcnty : cnt ≠ y := by rintro rfl; exact hcy hc
    have hround : d.Round cnt y p := ⟨hc, hrun, by rwa [hread], hcnty⟩
    have hstep := between_next (h.linked.rep.nodup _) hcm hy hcnty hny hnext
    rw [toGo_of_round hround, hread]
    omega
  · obtain ⟨ys, hL⟩ := h.linked.head_of_not_rotates hc hsel hr hm
    have hre : d.Restarts p := by
      refine ⟨hlock, hr, next, ?_, hsel⟩
      show next ∈ d.readyAt p
      rwa [hread]
    have hhead := between_head (hL ▸ h.linked.rep.nodup _) hny
    rw [tally_of hre, Nat.one_mul, inFront, hread]
    rw [hL] at hafter ⊢
    omega

/-! ## The run -/

/-- What an action does to the waiting of `y`. -/
theorem Acts.waitsReady (ha : c.Acts L e d switches L') (h : c.Inv L) (hd : d.Inv L')
    (hs : c.sched.started = true) (hy : c.Waiting y p) :
    y ∈ L' (.ready p) ∧ d.sched.current ≠ some y ∧ d.inFront y p ≤ c.inFront y p ∧
      d.toGo y p ≤ c.toGo y p + ((d.readyAt p).length - (c.readyAt p).length) := by
  obtain ⟨hy, hcy⟩ := hy
  rw [← readyAt, h.readyAt_eq] at hy
  refine ⟨ha.ready_stays h hcy hy, (ha.current_eq hs).1 ▸ hcy, ?_, ha.toGo_le h hd hs hy⟩
  rw [inFront, inFront, hd.readyAt_eq, h.readyAt_eq]
  exact ha.inFront_le hy hcy

/-- One step of a run in which `y` waits. -/
theorem Inv.waitsReady_next (h : c.Inv L) (hs : c.sched.started = true) (hy : c.Waiting y p)
    (hn : c.next e = some c') :
    (∃ L', c'.Inv L') ∧ c'.sched.started = true ∧ c'.inFront y p ≤ c.inFront y p ∧
      tally (c.GivesTurn y p e) + c'.toGo y p ≤ c.toGo y p +
        ((c'.readyAt p).length - (c.readyAt p).length) +
          tally (c.StartsOver p e) * c.inFront y p := by
  cases hb : c.beforeSwitch e with
  | none =>
    obtain ⟨d, b, L', ha, -, hI', ⟨-, rfl⟩ | ⟨-, hbs, -⟩⟩ := h.next_cases hn
    · obtain ⟨-, -, hfront, htogo⟩ := ha.waitsReady h hI' hs hy
      refine ⟨⟨L', hI'⟩, (ha.current_eq hs).2, hfront, ?_⟩
      rw [tally_of_not (by rintro ⟨_, _, hd, -⟩; rw [hb] at hd; cases hd),
        tally_of_not (by rintro ⟨_, hd, -⟩; rw [hb] at hd; cases hd)]
      omega
    · rw [hb] at hbs
      cases hbs
  | some d =>
    obtain ⟨L', ha, hId, hI', hsw⟩ := h.next_switch hb hn
    obtain ⟨hy', hcy', hfront, htogo⟩ := ha.waitsReady h hId hs hy
    obtain ⟨hturn, hlist⟩ := toGo_switchTask hId hy' hcy' hsw
    have hst : c'.sched.started = true := by
      obtain ⟨s, hs', rfl⟩ := switchTask_eq_ok hsw
      rcases switchTask_cases hs' with rfl | ⟨_, _, -, -, -, -, rfl⟩
      all_goals exact (ha.current_eq hs).2
    refine ⟨⟨L', hI'⟩, hst, ?_, ?_⟩
    · rw [inFront, hlist]
      exact hfront
    · have hgives : c.GivesTurn y p e ↔ d.TakesOther y p := by
        simp [GivesTurn, TakesOther, hb]
      have hover : c.StartsOver p e ↔ d.Restarts p := by simp [StartsOver, hb]
      rw [tally_congr hgives, tally_congr hover, hlist]
      have hle := Nat.mul_le_mul_left (tally (d.Restarts p)) hfront
      omega

/-- **How long a ready thread waits.**  In every run in which `y` waits at priority `p`, other
threads of this priority get at most as many turns as there were on the way from the current thread
to `y`, one more for each thread that becomes ready at this priority meanwhile, and each time the
list is started over, as many as stood in front of `y`.  Nobody gets in front of it. -/
theorem bounded_waiting (h : (machine mem).Reachable c) (hs : c.sched.started = true)
    (hw : WaitsReady y p c d turns arrivals restarts) :
    turns + d.toGo y p ≤ c.toGo y p + arrivals + restarts * c.inFront y p ∧
      d.inFront y p ≤ c.inFront y p := by
  obtain ⟨L, hI⟩ := inv_of_reachable h
  suffices key : (∃ L, d.Inv L) ∧ d.sched.started = true ∧ d.inFront y p ≤ c.inFront y p ∧
      turns + d.toGo y p ≤ c.toGo y p + arrivals + restarts * c.inFront y p from ⟨key.2.2.2, key.2.2.1⟩
  induction hw with
  | start => exact ⟨⟨L, hI⟩, hs, le_rfl, by simp⟩
  | @step b b' e turns arrivals restarts _ hy hn ih =>
    obtain ⟨⟨L', hI'⟩, hs', hfront, hsum⟩ := ih
    obtain ⟨hI'', hs'', hfront', hsum'⟩ := hI'.waitsReady_next hs' hy hn
    refine ⟨hI'', hs'', hfront'.trans hfront, ?_⟩
    have hle := Nat.mul_le_mul_left (tally (b.StartsOver p e)) hfront
    rw [Nat.add_mul]
    omega

/-- Three threads of one priority: the third one waits while the second one has its turn. -/
theorem bounded_waiting_yields :
    let c := (machine zeroed).after [.attach 0 .idle, .attach 1 .normal, .attach 2 .normal,
      .attach 3 .normal, .startSchedule 1]
    let d := (c.next .yield).get (by decide)
    c.toGo 3 .normal = 1 ∧ d.toGo 3 .normal = 0 ∧
      1 + d.toGo 3 .normal ≤ c.toGo 3 .normal + 0 + 0 * c.inFront 3 .normal := by
  intro c d
  have hn : c.next .yield = some d := (Option.some_get _).symm
  let b := (c.beforeSwitch .yield).get (by decide)
  have hb : c.beforeSwitch .yield = some b := (Option.some_get _).symm
  have hgives : c.GivesTurn 3 .normal .yield :=
    ⟨b, 2, hb, by decide, by decide, by decide, by decide⟩
  have hno : ¬c.StartsOver .normal .yield := by
    rintro ⟨b', hb', -, hrot, -⟩
    cases hb.symm.trans hb'
    exact hrot ⟨1, by decide, by decide, by decide, by decide⟩
  have hw := WaitsReady.start.step (c := c) (y := 3) (p := .normal) (by decide) hn
  rw [tally_of hgives, tally_of_not hno] at hw
  exact ⟨by decide, by decide,
    (bounded_waiting ((machine zeroed).reachable_after _) (by decide) hw).1⟩

end Cpu

end Chino
