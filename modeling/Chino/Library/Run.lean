import Mathlib.Data.List.Basic
import Mathlib.Logic.Relation

/-!
# Machines and their runs

A `Machine` is a start state and a partial step function: an event is either impossible in a state
or leads to exactly one next state, so whatever a real system leaves open — who runs next, what a
device answers — is part of the event.  A run is a list of events.

`ReachableWhile c` are the states of the runs all of whose steps meet the condition `c`, a relation
between the state before the step and the event; `Reachable` drops the condition.  The induction
rule `ReachableWhile.invariant` turns a step lemma into a statement about every run, and
`afterWhile` evaluates a concrete list of events to a state that such a run reaches.

## Conditions on runs

A result about a program often holds for the runs that stay clear of something.  The condition is
then a relation `c` between a state and an event, and not a property of the run as a whole, so it is
checked step by step and an invariant may use it at each step.  `ReachableWhile.mono` weakens a
condition, and `Reachable` is the case in which it is always true.

`LeadsWhile` is the same from any state on, for results about what comes after some event.

`afterWhile` is how a run is given by its events: the state can be computed, and
`reachableWhile_afterWhile` says that it is one that a run reaches.
-/

set_option autoImplicit false

namespace Chino

/-- A start state and a partial step function. -/
structure Machine (σ ε : Type) where
  init : σ
  next : σ → ε → Option σ

namespace Machine

variable {σ ε : Type} (M : Machine σ ε)

/-- The states of the runs whose steps all meet `c`. -/
inductive ReachableWhile (c : σ → ε → Prop) : σ → Prop
  | init : ReachableWhile c M.init
  | step {s s' : σ} {e : ε} (hs : ReachableWhile c s) (hc : c s e) (hn : M.next s e = some s') :
      ReachableWhile c s'

/-- The states of all runs. -/
def Reachable (s : σ) : Prop := M.ReachableWhile (fun _ _ ↦ True) s

variable {M} {c c' : σ → ε → Prop}

/-- **The invariant rule.**  What holds at the start and is kept by every step of a reachable state
that meets the condition holds in every state such runs reach. -/
theorem ReachableWhile.invariant {I : σ → Prop} (hinit : I M.init)
    (hstep : ∀ s e s', M.ReachableWhile c s → I s → c s e → M.next s e = some s' → I s')
    {s : σ} (h : M.ReachableWhile c s) : I s := by
  induction h with
  | init => exact hinit
  | step hs hc hn ih => exact hstep _ _ _ hs ih hc hn

theorem ReachableWhile.mono (hcc : ∀ s e, c s e → c' s e) {s : σ} (h : M.ReachableWhile c s) :
    M.ReachableWhile c' s :=
  h.invariant .init fun _ _ _ _ ih hc hn ↦ .step ih (hcc _ _ hc) hn

theorem ReachableWhile.reachable {s : σ} (h : M.ReachableWhile c s) : M.Reachable s :=
  h.mono fun _ _ _ ↦ trivial

theorem Reachable.init : M.Reachable M.init := ReachableWhile.init

theorem Reachable.step {s t : σ} {e : ε} (hs : M.Reachable s) (hn : M.next s e = some t) :
    M.Reachable t :=
  ReachableWhile.step hs trivial hn

theorem Reachable.invariant {I : σ → Prop} (hinit : I M.init)
    (hstep : ∀ s e s', M.Reachable s → I s → M.next s e = some s' → I s')
    {s : σ} (h : M.Reachable s) : I s :=
  ReachableWhile.invariant hinit (fun s e s' hs hI _ hn ↦ hstep s e s' hs hI hn) h

/-! ## Runs between two states -/

/-- A step that meets the condition. -/
def StepWhile (M : Machine σ ε) (c : σ → ε → Prop) (s s' : σ) : Prop :=
  ∃ e, c s e ∧ M.next s e = some s'

/-- The second state is reached from the first one by steps that all meet `c`. -/
def LeadsWhile (M : Machine σ ε) (c : σ → ε → Prop) : σ → σ → Prop :=
  Relation.ReflTransGen (M.StepWhile c)

/-- What the first state has and steps that meet the condition keep, all states of a run have. -/
theorem LeadsWhile.invariant {I : σ → Prop} {s t : σ} (h : M.LeadsWhile c s t) (hs : I s)
    (hstep : ∀ u e v, I u → c u e → M.next u e = some v → I v) : I t := by
  induction h with
  | refl => exact hs
  | tail _ hn ih =>
    obtain ⟨e, hc, hn⟩ := hn
    exact hstep _ e _ ih hc hn

/-! ## Runs as lists of events -/

/-- The state a list of events leads to, if every one of them is possible in its turn and meets
`c`. -/
def runWhile (M : Machine σ ε) (c : σ → ε → Prop) [∀ s e, Decidable (c s e)] :
    σ → List ε → Option σ
  | s, [] => some s
  | s, e :: es => if c s e then (M.next s e).bind fun s' ↦ M.runWhile c s' es else none

theorem ReachableWhile.runWhile [∀ s e, Decidable (c s e)] {s t : σ} {es : List ε}
    (hs : M.ReachableWhile c s) (h : M.runWhile c s es = some t) : M.ReachableWhile c t := by
  induction es generalizing s with
  | nil => cases h; exact hs
  | cons e es ih =>
    rw [Machine.runWhile] at h
    split at h
    · rename_i hc
      obtain ⟨s', hn, ht⟩ := Option.bind_eq_some_iff.mp h
      exact ih (hs.step hc hn) ht
    · cases h

theorem leadsWhile_runWhile [∀ s e, Decidable (c s e)] {s t : σ} {es : List ε}
    (h : M.runWhile c s es = some t) : M.LeadsWhile c s t := by
  induction es generalizing s with
  | nil => cases h; exact .refl
  | cons e es ih =>
    rw [Machine.runWhile] at h
    split at h
    · rename_i hc
      obtain ⟨s', hn, ht⟩ := Option.bind_eq_some_iff.mp h
      exact .head ⟨e, hc, hn⟩ (ih ht)
    · cases h

/-- Where a list of events leads from the start, or the start if it leads nowhere. -/
def afterWhile (M : Machine σ ε) (c : σ → ε → Prop) [∀ s e, Decidable (c s e)] (es : List ε) : σ :=
  (M.runWhile c M.init es).getD M.init

theorem reachableWhile_afterWhile [∀ s e, Decidable (c s e)] (es : List ε) :
    M.ReachableWhile c (M.afterWhile c es) := by
  cases h : M.runWhile c M.init es with
  | none => rw [afterWhile, h]; exact .init
  | some s => rw [afterWhile, h]; exact ReachableWhile.init.runWhile h

/-- `afterWhile` without a condition. -/
def after (M : Machine σ ε) (es : List ε) : σ := M.afterWhile (fun _ _ ↦ True) es

theorem reachable_after (es : List ε) : M.Reachable (M.after es) := reachableWhile_afterWhile es

end Machine

end Chino
