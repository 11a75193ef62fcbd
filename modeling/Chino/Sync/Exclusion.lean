import Chino.Sync.Primitives
import Mathlib.Data.Multiset.AddSub
import Mathlib.Data.Set.Card

/-!
# Who holds what

`recorded` runs the primitives of `Sync.Primitives` and keeps, for each object, the calls of `lock`,
`take` and `wait` that have returned `ok`, and the calls of `unlock`, `give` and `notify_one`.

Between its successful try and its return a thread is in the destructor of the `waiters_guard`, so
it is one of `returning`.  `Account` counts all of them: every successful try is paid for by the
argument of the constructor or by a release.  For a semaphore nothing is lost either, so the count
is exact, modulo 2^32.

A mutex has one permit.  Where only its holders unlock it, `mutual_exclusion` follows from the
count.

## The account

For each object there are three numbers in a state of the recorded run: what has been taken, what
has been given back, and what the word says.  `Deal` lists what a step can do to them.  Most steps
do nothing (`deal_none`); an access of a try that succeeds changes the word, and the call becomes
one of `returning`; the return of the call moves it from there to the records; a release changes the
word and the records at once.

`Account` is the equation between the three.  For a semaphore it is exact as long as its count has
not wrapped around; for a mutex and an event it is an inequality, since a second `unlock` or
`notify_one` before anybody has tried is lost.

`HolderUnlocks` is the usual discipline, and a condition on steps: whoever calls `unlock` has the
mutex.  The order in which waiters get it is open: a thread that tries at the right moment may get
in front of one that was notified, and a wait may time out.
-/

set_option autoImplicit false

namespace Chino

open Function (update)

namespace Cpu

variable {c c' d : Cpu} {e : Event} {b : Bool}

/-- An action other than `store` leaves the memory as it is. -/
theorem act_mem (hd : c.act e = .ok (d, b)) (he : ∀ a v, e ≠ .store a v) : d.mem = c.mem := by
  cases e with
  | store a v => exact absurd rfl (he a v)
  | startSchedule | lock | unlock | irqYield | clock => cases hd; rfl
  | attach =>
    simp only [act, bind, Except.bind] at hd
    split at hd <;> cases hd
    rfl
  | unblock | tick =>
    simp only [act, bind, Except.bind] at hd
    split at hd <;> cases hd
    rfl
  | block | yield =>
    simp only [act, bind, Except.bind] at hd
    split at hd <;> cases hd
    rfl
  | detach | delay =>
    simp only [act, bind, Except.bind] at hd
    split at hd
    · cases hd
    · split at hd <;> cases hd
      rfl
  | blockCheck =>
    simp only [act, bind, Except.bind] at hd
    split at hd
    · cases hd
    · split at hd <;> cases hd
      · exact blockCheck_mem ..
      · rfl
  | blockSection =>
    simp only [act, bind, Except.bind, blockSection] at hd
    split at hd
    · cases hd
    · split at hd
      · split at hd
        · cases hd
        · rename_i hs
          split at hs
          · split at hs <;> cases hs
            cases hd; rfl
          · cases hs; cases hd; rfl
      · cases hd; rfl

theorem next_mem (hn : c.next e = some c') (he : ∀ a v, e ≠ .store a v) : c'.mem = c.mem := by
  rcases step_eq_ok (next_eq_some.mp hn).2 with hact | ⟨d, hact, hsw⟩
  · exact act_mem hact he
  · have hmem := act_mem hact he
    simp only [switchTask, bind, Except.bind] at hsw
    split at hsw <;> cases hsw
    exact hmem

end Cpu

namespace System

variable (objects : ObjectId → Object)

/-! ## What has been called -/

/-- The `lock`, `take` or `wait` that returns `ok` in this step. -/
def acquires? (s : System) (a : Action) : Option (ThreadId × ObjectId) :=
  match a, s.cpu.sched.current with
  | .advance, some t =>
    match s.spot t with
    | .trying o _ .outside a =>
      if ((objects o).attempt a (s.cpu.mem (word o))).2 = .returned true then some (t, o) else none
    | .leaving o .ok => some (t, o)
    | _ => none
  | _, _ => none

/-- The `unlock`, `give` or `notify_one` that is called in this step. -/
def releases? (s : System) (a : Action) : Option (ThreadId × ObjectId) :=
  match a, s.cpu.sched.current with
  | .release o, some t => some (t, o)
  | _, _ => none

/-- The threads that have `o`, and are about to return from the call that got it. -/
def returning (s : System) (o : ObjectId) : Set ThreadId := {t | s.spot t = .leaving o .ok}

end System

/-- A state with what has been called so far. -/
structure Recorded where
  sys : System
  /-- The threads whose `lock`, `take` or `wait` of an object has returned `ok`, once for each
  call. -/
  acquired : ObjectId → Multiset ThreadId
  /-- The threads that have called `unlock`, `give` or `notify_one`, once for each call. -/
  released : ObjectId → Multiset ThreadId

/-- One more call. -/
def addCall (calls : ObjectId → Multiset ThreadId) :
    Option (ThreadId × ObjectId) → ObjectId → Multiset ThreadId
  | some (t, o) => update calls o (t ::ₘ calls o)
  | none => calls

namespace Recorded

open Chino.System

variable (objects : ObjectId → Object)

/-- A step of the system, with what it adds to the records. -/
def next (r : Recorded) (a : Action) : Option Recorded :=
  (System.next objects r.sys a).map fun s ↦
    ⟨s, addCall r.acquired (r.sys.acquires? objects a), addCall r.released (r.sys.releases? a)⟩

/-- Runs with their records. -/
def machine : Machine Recorded Action where
  init := ⟨init objects, fun _ ↦ 0, fun _ ↦ 0⟩
  next := next objects

/-- The threads that have an object: the calls that got it, without those that gave it back. -/
def held (r : Recorded) (o : ObjectId) : Multiset ThreadId := r.acquired o - r.released o

/-! ## What a step does to an object -/

/-- What a step can do to an object, one constructor for each kind of step. -/
inductive Deal (o : ObjectId) (r r' : Recorded) : Prop
  | none (hword : r'.sys.cpu.mem (word o) = r.sys.cpu.mem (word o))
      (hret : r'.sys.returning o = r.sys.returning o) (hacq : r'.acquired o = r.acquired o)
      (hrel : r'.released o = r.released o)
  /-- The first try, outside the `waiters_guard`, succeeds. -/
  | acquire {t : ThreadId} {a : Attempt}
      (hword : (objects o).attempt a (r.sys.cpu.mem (word o)) =
        (r'.sys.cpu.mem (word o), .returned true))
      (hret : r'.sys.returning o = r.sys.returning o) (hacq : r'.acquired o = t ::ₘ r.acquired o)
      (hrel : r'.released o = r.released o)
  /-- A try inside the `waiters_guard` succeeds. -/
  | take {t : ThreadId} {a : Attempt}
      (hword : (objects o).attempt a (r.sys.cpu.mem (word o)) =
        (r'.sys.cpu.mem (word o), .returned true))
      (hnot : t ∉ r.sys.returning o) (hret : r'.sys.returning o = insert t (r.sys.returning o))
      (hacq : r'.acquired o = r.acquired o) (hrel : r'.released o = r.released o)
  /-- The `waiters_guard` is destroyed after a successful try. -/
  | leave {t : ThreadId} (hword : r'.sys.cpu.mem (word o) = r.sys.cpu.mem (word o))
      (ht : t ∈ r.sys.returning o) (hret : r'.sys.returning o = r.sys.returning o \ {t})
      (hacq : r'.acquired o = t ::ₘ r.acquired o) (hrel : r'.released o = r.released o)
  | release {t : ThreadId}
      (hword : r'.sys.cpu.mem (word o) = (objects o).release (r.sys.cpu.mem (word o)))
      (hret : r'.sys.returning o = r.sys.returning o) (hacq : r'.acquired o = r.acquired o)
      (hrel : r'.released o = t ::ₘ r.released o)

variable {objects} {r r' : Recorded} {a : Action} {o : ObjectId} {t : ThreadId}

/-- Only the spot of the thread that moves decides whether it is returning. -/
theorem returning_update {s s' : System} {spot : Spot} (h : s'.spot = update s.spot t spot) :
    s'.returning o = if spot = .leaving o .ok then insert t (s.returning o)
      else s.returning o \ {t} := by
  ext u
  by_cases hu : u = t
  · subst hu
    split <;> simp_all [returning]
  · split <;> simp [returning, h, hu]

/-- A wait does not end with `ok`: the thread tries again. -/
theorem afterWait_ne_leaving {o' : ObjectId} {timeout : Option Nanoseconds} {woken : Bool} {pc : Pc}
    {result : WaitResult} : Spot.afterWait o' timeout woken pc result ≠ .leaving o .ok := by
  unfold Spot.afterWait
  split
  · split <;> simp
  · simp

/-- Who is free is not about to return. -/
theorem not_returning_of_isFree {s : System} (hfree : s.isFree = true)
    (hc : s.cpu.sched.current = some t) : s.spot t ≠ .leaving o .ok := by
  simp only [isFree, hc, Option.any_some, Bool.and_eq_true] at hfree
  intro hspot
  simp [hspot, Spot.isIdle] at hfree

/-- Who goes on in a primitive is in one. -/
theorem isIdle_of_advance {s s' : System} (hn : System.next objects s .advance = some s')
    (hc : s.cpu.sched.current = some t) : (s.spot t).isIdle = false := by
  obtain ⟨u, hu, hn⟩ := Option.bind_eq_some_iff.mp hn
  cases hc.symm.trans hu
  obtain ⟨p, hp, -⟩ := Option.bind_eq_some_iff.mp hn
  cases hspot : s.spot t with
  | idle => simp [plan, hspot] at hp
  | _ => rfl

/-- A step that neither returns from a call nor makes one, and by which the thread that moves does
not come to return. -/
theorem deal_none (hword : r'.sys.cpu.mem (word o) = r.sys.cpu.mem (word o)) {spot : Spot}
    (hspot : r'.sys.spot = update r.sys.spot t spot) (hold : r.sys.spot t ≠ .leaving o .ok)
    (hnew : spot ≠ .leaving o .ok) (hacq : r'.acquired o = r.acquired o)
    (hrel : r'.released o = r.released o) : Deal objects o r r' := by
  refine .none hword ?_ hacq hrel
  rw [returning_update hspot, if_neg hnew]
  exact Set.sdiff_singleton_eq_self hold

/-- The accesses of a try. -/
theorem deal_attempt {o' : ObjectId} {timeout : Option Nanoseconds} {stage : Stage} {at' : Attempt}
    {w : UInt32} {out : Outcome} (hspot : r.sys.spot t = .trying o' timeout stage at')
    (hout : (objects o').attempt at' (r.sys.cpu.mem (word o')) = (w, out))
    (hmem : r'.sys.cpu = r.sys.cpu.setMem (word o') w)
    (hspot' : r'.sys.spot = update r.sys.spot t (.afterAttempt o' timeout stage out))
    (hacq : r'.acquired = addCall r.acquired
      (if stage = .outside ∧ out = .returned true then some (t, o') else none))
    (hrel : r'.released = r.released) : Deal objects o r r' := by
  have hold : r.sys.spot t ≠ .leaving o .ok := by simp [hspot]
  by_cases ho : o = o'
  · subst ho
    have hword : r'.sys.cpu.mem (word o) = w := by rw [hmem, Cpu.setMem_mem_self]
    cases out with
    | again a =>
      refine deal_none (hword.trans (Object.word_of_again hout)) hspot' hold ?_ ?_ (by rw [hrel])
      · simp [Spot.afterAttempt]
      · simp [hacq, addCall]
    | returned success =>
      cases success with
      | false =>
        refine deal_none (hword.trans (Object.free_of_failure hout).1) hspot' hold ?_ ?_
          (by rw [hrel])
        · cases stage <;> simp [Spot.afterAttempt]
        · simp [hacq, addCall]
      | true =>
        rw [← hword] at hout
        cases stage with
        | outside =>
          refine .acquire (t := t) hout ?_ ?_ (by rw [hrel])
          · rw [returning_update hspot', if_neg (by simp [Spot.afterAttempt])]
            exact Set.sdiff_singleton_eq_self hold
          · simp [hacq, addCall]
        | inside woken =>
          refine .take (t := t) hout hold ?_ ?_ (by rw [hrel])
          · rw [returning_update hspot']
            exact if_pos rfl
          · simp [hacq, addCall]
  · refine deal_none ?_ hspot' hold ?_ ?_ (by rw [hrel])
    · rw [hmem]
      exact Cpu.setMem_mem_of_ne _ _ (by simpa using ho)
    · rcases out with a | _ | _ <;> cases stage <;> simp [Spot.afterAttempt, Ne.symm ho]
    · rw [hacq]
      split
      · exact Function.update_of_ne ho _ _
      · rfl

/-- **A step deals with an object in one of these ways.** -/
theorem next_deal (hn : next objects r a = some r') (o : ObjectId) : Deal objects o r r' := by
  obtain ⟨s', hs, rfl⟩ := Option.map_eq_some_iff.mp hn
  cases a with
  | cpu e =>
    rcases next_cases hs with ⟨e', he, hb, hcpu, hspot⟩ | ⟨t, spot, -, hne, -⟩
    · cases he
      refine .none (congrFun (Cpu.next_mem hcpu fun a v h ↦ ?_) _) ?_ rfl rfl
      · subst h
        cases hb
      · show {t | s'.spot t = _} = _
        rw [hspot]
        rfl
    · exact absurd rfl (hne e)
  | acquire o' timeout =>
    obtain ⟨t, hc, hs⟩ := Option.bind_eq_some_iff.mp hs
    obtain ⟨hfree, hs⟩ := Option.ite_none_right_eq_some.mp hs
    cases hs
    exact deal_none rfl rfl (not_returning_of_isFree hfree hc) (by simp) rfl rfl
  | release o' =>
    obtain ⟨t, hc, hs⟩ := Option.bind_eq_some_iff.mp hs
    obtain ⟨c, hnext, hs⟩ := Option.bind_eq_some_iff.mp hs
    obtain ⟨hfree, hs⟩ := Option.ite_none_right_eq_some.mp hs
    cases hs
    rw [Cpu.next_store] at hnext
    cases hnext
    have hrel : r.sys.releases? (.release o') = some (t, o') := by simp [releases?, hc]
    have hspot := not_returning_of_isFree (o := o) hfree hc
    by_cases ho : o = o'
    · subst ho
      refine .release (t := t) (Cpu.setMem_mem_self _ _ _) ?_ rfl ?_
      · rw [returning_update rfl, if_neg (by simp)]
        exact Set.sdiff_singleton_eq_self hspot
      · simp [hrel, addCall]
    · refine deal_none ?_ rfl hspot (by simp) rfl ?_
      · exact Cpu.setMem_mem_of_ne _ _ (by simpa using ho)
      · simp [hrel, addCall, ho]
  | advance =>
    have hrel : r.sys.releases? .advance = none := by simp [releases?]
    rcases next_cases hs with ⟨e, he, -⟩ | ⟨t, spot, hc, -, hspot', hmove⟩
    · cases he
    have hbusy := isIdle_of_advance hs hc
    obtain ⟨c, spots⟩ := s'
    dsimp only at hspot' hmove
    subst hspot'
    -- a step that neither makes a successful try nor ends one
    have hquiet : (∀ o', r.sys.spot t ≠ .leaving o' .ok) →
        (∀ o' timeout a, r.sys.spot t ≠ .trying o' timeout .outside a) →
        spot ≠ .leaving o .ok → c.mem (word o) = r.sys.cpu.mem (word o) →
        Deal objects o r ⟨⟨c, update r.sys.spot t spot⟩,
          addCall r.acquired (r.sys.acquires? objects .advance),
          addCall r.released (r.sys.releases? .advance)⟩ := by
      intro hleave htry hnew hmem
      refine deal_none hmem rfl (hleave o) hnew ?_ (by simp [hrel, addCall])
      have hnone : r.sys.acquires? objects .advance = none := by
        cases hspot : r.sys.spot t with
        | trying o' timeout stage a => cases stage <;> simp_all [acquires?]
        | leaving o' result => cases result <;> simp_all [acquires?]
        | _ => simp [acquires?, hc, hspot]
      simp [hnone, addCall]
    cases hmove with
    | acquire hidle => rw [hidle] at hbusy; cases hbusy
    | release hidle => rw [hidle] at hbusy; cases hbusy
    | attempt hspot hout =>
      refine deal_attempt hspot hout rfl rfl ?_ (by simp [hrel, addCall])
      rename_i stage _ _ _
      cases stage <;> simp [acquires?, hc, hspot, hout]
    | enter hspot =>
      refine hquiet (by simp [hspot]) (by simp [hspot]) (by simp) ?_
      exact Cpu.setMem_mem_of_ne _ _ (word_ne_waiters _ _)
    | load hspot =>
      refine hquiet (by simp [hspot]) (by simp [hspot]) ?_ rfl
      split <;> simp
    | call hspot hcpu =>
      exact hquiet (by simp [hspot]) (by simp [hspot]) (by simp)
        (congrFun (Cpu.next_mem hcpu (by simp)) _)
    | yield hspot _ hcpu =>
      exact hquiet (by simp [hspot]) (by simp [hspot]) (by simp)
        (congrFun (Cpu.next_mem hcpu (by simp)) _)
    | notify hspot hcpu =>
      exact hquiet (by simp [hspot]) (by simp [hspot]) (by simp)
        (congrFun (Cpu.next_mem hcpu (by simp)) _)
    | blockSection hspot _ hcpu =>
      exact hquiet (by simp [hspot]) (by simp [hspot]) afterWait_ne_leaving
        (congrFun (Cpu.next_mem hcpu (by simp)) _)
    | blockCheck hspot _ hcpu =>
      exact hquiet (by simp [hspot]) (by simp [hspot]) afterWait_ne_leaving
        (congrFun (Cpu.next_mem hcpu (by simp)) _)
    | read hspot =>
      refine hquiet (by simp [hspot]) (by simp [hspot]) ?_ rfl
      split <;> simp
    | @leave o' result hspot =>
      have hmem : (r.sys.cpu.setMem (waiters o') (r.sys.cpu.mem (waiters o') - 1)).mem (word o) =
          r.sys.cpu.mem (word o) := Cpu.setMem_mem_of_ne _ _ (word_ne_waiters _ _)
      cases result with
      | timeout =>
        exact hquiet (by simp [hspot]) (by simp [hspot]) (by simp) hmem
      | ok =>
        have hacq : r.sys.acquires? objects .advance = some (t, o') := by
          simp [acquires?, hc, hspot]
        by_cases ho : o = o'
        · subst ho
          refine .leave (t := t) hmem hspot ?_ ?_ (by simp [hrel, addCall])
          · rw [returning_update rfl, if_neg (by simp)]
          · simp [hacq, addCall]
        · refine deal_none hmem rfl (by simpa [hspot] using Ne.symm ho) (by simp) ?_
            (by simp [hrel, addCall])
          simp [hacq, addCall, ho]

/-! ## The account -/

/-- What has been called of an object, and what is left of it. -/
structure Account (objects : ObjectId → Object) (o : ObjectId) (r : Recorded) : Prop where
  finite : (r.sys.returning o).Finite
  /-- Every successful try is paid for. -/
  paid : (r.acquired o).card + (r.sys.returning o).ncard + (objects o).free (r.sys.cpu.mem (word o))
    ≤ (objects o).free (objects o).initial + (r.released o).card
  /-- A semaphore counts exactly. -/
  exact : ∀ res, objects o = .semaphore res →
    r.sys.cpu.mem (word o) + UInt32.ofNat ((r.acquired o).card + (r.sys.returning o).ncard) =
      res + UInt32.ofNat (r.released o).card

/-- A successful try of a semaphore takes one. -/
theorem word_of_tryTake {w w' : UInt32} {at' : Attempt}
    (h : tryTake at' w = (w', .returned true)) : w = w' + 1 := by
  have hloop : ∀ v, tryTakeLoop v ≠ .returned true := fun v ↦ by
    unfold tryTakeLoop; split <;> simp
  cases at' with
  | first => exact absurd (Prod.mk.inj h).2 (hloop w)
  | exchange e =>
    simp only [tryTake] at h
    split at h
    · obtain ⟨rfl, -⟩ := Prod.mk.inj h
      exact (UInt32.sub_add_cancel w 1).symm
    · exact absurd (Prod.mk.inj h).2 (hloop w)

theorem returning_init (o : ObjectId) : (init objects).returning o = ∅ := by
  ext t
  simp [returning, init]

theorem word_init (o : ObjectId) : (init objects).cpu.mem (word o) = (objects o).initial := by
  simp [init, Cpu.init, memory, word]

theorem account_init (o : ObjectId) : Account objects o (machine objects).init := by
  have hempty : (init objects).returning o = ∅ := returning_init o
  have hword : (init objects).cpu.mem (word o) = (objects o).initial := word_init o
  refine ⟨?_, ?_, fun res hres ↦ ?_⟩
  · simp only [machine, hempty, Set.finite_empty]
  · simp only [machine, hempty, hword, Multiset.card_zero, Set.ncard_empty]
    omega
  · simp only [machine, hempty, hword, Multiset.card_zero, Set.ncard_empty, hres]
    rfl

/-- **A step keeps the account.** -/
theorem Account.next (h : r.Account objects o) (hd : r.Deal objects o r') :
    r'.Account objects o := by
  obtain ⟨hfin, hpaid, hexact⟩ := h
  -- what a successful try takes
  have htook : ∀ {at' : Attempt}, (objects o).attempt at' (r.sys.cpu.mem (word o)) =
      (r'.sys.cpu.mem (word o), .returned true) → ∀ res, objects o = .semaphore res →
      r.sys.cpu.mem (word o) = r'.sys.cpu.mem (word o) + 1 := by
    intro at' hword res hres
    rw [hres] at hword
    exact word_of_tryTake hword
  cases hd with
  | none hword hret hacq hrel =>
    exact ⟨hret ▸ hfin, by rwa [hword, hret, hacq, hrel],
      fun res hres ↦ by rw [hword, hret, hacq, hrel]; exact hexact res hres⟩
  | acquire hword hret hacq hrel =>
    refine ⟨hret ▸ hfin, ?_, fun res hres ↦ ?_⟩
    · have hfree := Object.free_of_success hword
      rw [hret, hacq, hrel, Multiset.card_cons]
      omega
    · have hsum := hexact res hres
      rw [htook hword res hres] at hsum
      rw [hret, hacq, hrel, Multiset.card_cons, ← hsum, Nat.add_right_comm, UInt32.ofNat_add]
      rw [add_assoc, add_comm 1]
      rfl
  | take hword hnot hret hacq hrel =>
    have hcard : (r'.sys.returning o).ncard = (r.sys.returning o).ncard + 1 := by
      rw [hret, Set.ncard_insert_of_notMem hnot hfin]
    refine ⟨hret ▸ hfin.insert _, ?_, fun res hres ↦ ?_⟩
    · have hfree := Object.free_of_success hword
      rw [hcard, hacq, hrel]
      omega
    · have hsum := hexact res hres
      rw [htook hword res hres] at hsum
      rw [hcard, hacq, hrel, ← hsum, ← Nat.add_assoc, UInt32.ofNat_add]
      rw [add_assoc, add_comm 1]
      rfl
  | @leave t hword ht hret hacq hrel =>
    have hcard : (r'.sys.returning o).ncard + 1 = (r.sys.returning o).ncard := by
      rw [hret, Set.ncard_sdiff_singleton_add_one ht hfin]
    have hsame : (r'.acquired o).card + (r'.sys.returning o).ncard =
        (r.acquired o).card + (r.sys.returning o).ncard := by
      rw [hacq, Multiset.card_cons]
      omega
    refine ⟨hret ▸ hfin.subset Set.sdiff_subset, ?_, fun res hres ↦ ?_⟩
    · rw [hsame, hword, hrel]
      exact hpaid
    · rw [hsame, hword, hrel]
      exact hexact res hres
  | release hword hret hacq hrel =>
    refine ⟨hret ▸ hfin, ?_, fun res hres ↦ ?_⟩
    · have hfree := (objects o).free_release_le (r.sys.cpu.mem (word o))
      rw [hword, hret, hacq, hrel, Multiset.card_cons]
      omega
    · have hsum := hexact res hres
      have hgive : (objects o).release (r.sys.cpu.mem (word o)) = r.sys.cpu.mem (word o) + 1 := by
        rw [hres]
        rfl
      rw [hword, hgive, hret, hacq, hrel, Multiset.card_cons, UInt32.ofNat_add _ 1, ← add_assoc,
        ← hsum, add_right_comm]
      rfl

theorem account_of_reachableWhile {cond : Recorded → Action → Prop}
    (h : (machine objects).ReachableWhile cond r) (o : ObjectId) : r.Account objects o :=
  h.invariant (account_init o) fun _ _ _ _ hs _ hn ↦ hs.next (next_deal hn o)

/-- **Permits are neither made nor lost.**  In every run the successful calls are paid for; those of
a semaphore that has not wrapped around are all that it has given away. -/
theorem permits_accounted (h : (machine objects).Reachable r) (o : ObjectId) :
    (r.acquired o).card + (r.sys.returning o).ncard + (objects o).free (r.sys.cpu.mem (word o)) ≤
        (objects o).free (objects o).initial + (r.released o).card ∧
      ∀ res, objects o = .semaphore res → res.toNat + (r.released o).card < 2 ^ 32 →
        (r.acquired o).card + (r.sys.returning o).ncard + (r.sys.cpu.mem (word o)).toNat =
          res.toNat + (r.released o).card := by
  obtain ⟨-, hpaid, hexact⟩ := account_of_reachableWhile h o
  refine ⟨hpaid, fun res hres hlt ↦ ?_⟩
  simp only [hres, Object.free, Object.initial] at hpaid
  have hmod := congrArg UInt32.toNat (hexact res hres)
  simp only [UInt32.toNat_add, UInt32.toNat_ofNat'] at hmod
  omega

/-- Two threads take the two permits of a semaphore, and the first one gives its back. -/
theorem permits_accounted_two :
    let objects : ObjectId → Object := fun _ ↦ .semaphore 2
    let r := (machine objects).after [.cpu (.attach 1 .idle), .cpu (.startSchedule 1),
      .acquire 0 none,
      .advance, .advance, .cpu (.attach 2 .high), .acquire 0 none, .advance, .advance, .release 0]
    r.acquired 0 = {1, 2} ∧ r.released 0 = {2} ∧
      (r.acquired 0).card + (r.sys.returning 0).ncard + (r.sys.cpu.mem (word 0)).toNat = 2 + 1 := by
  intro objects r
  have hr : (machine objects).Reachable r := (machine objects).reachable_after _
  have hrel : r.released 0 = {2} := by decide
  have hacc := (permits_accounted hr 0).2 2 rfl (by rw [hrel]; decide)
  rw [hrel] at hacc
  exact ⟨by decide, hrel, hacc⟩

/-! ## Mutual exclusion -/

/-- `unlock` is called by a thread that has the mutex. -/
def HolderUnlocks (o : ObjectId) (r : Recorded) (a : Action) : Prop :=
  ∀ p ∈ r.sys.releases? a, p.2 = o → p.1 ∈ r.held o

instance (o : ObjectId) (r : Recorded) (a : Action) : Decidable (HolderUnlocks o r a) := by
  unfold HolderUnlocks; infer_instance

/-- What is known of a mutex that only its holders unlock. -/
structure Owned (objects : ObjectId → Object) (o : ObjectId) (r : Recorded) : Prop where
  le : r.released o ≤ r.acquired o
  finite : (r.sys.returning o).Finite
  one : (r.acquired o).card + (r.sys.returning o).ncard +
    (objects o).free (r.sys.cpu.mem (word o)) =
    1 + (r.released o).card

/-- Who unlocks the mutex has it. -/
theorem HolderUnlocks.mem_held (hu : HolderUnlocks o r a) (hn : next objects r a = some r')
    (hrel : r'.released o = t ::ₘ r.released o) : t ∈ r.held o := by
  obtain ⟨s', -, rfl⟩ := Option.map_eq_some_iff.mp hn
  have hne : r.released o ≠ t ::ₘ r.released o := fun h ↦ by
    have hcard := congrArg Multiset.card h
    rw [Multiset.card_cons] at hcard
    omega
  cases hcall : r.sys.releases? a with
  | none =>
    simp only [hcall, addCall] at hrel
    exact absurd hrel hne
  | some p =>
    obtain ⟨u, o'⟩ := p
    by_cases ho : o = o'
    · subst ho
      obtain rfl : u = t := by simpa [hcall, addCall] using hrel
      exact hu _ hcall rfl
    · simp only [hcall, addCall, Function.update_of_ne ho] at hrel
      exact absurd hrel hne

/-- **A step keeps the mutex owned once.** -/
theorem Owned.next (h : r.Owned objects o) (ho : objects o = .mutex)
    (hn : next objects r a = some r') (hu : HolderUnlocks o r a) : r'.Owned objects o := by
  obtain ⟨hle, hfin, hone⟩ := h
  have hd := next_deal hn o
  cases hd with
  | none hword hret hacq hrel =>
    exact ⟨by rwa [hacq, hrel], hret ▸ hfin, by rwa [hword, hret, hacq, hrel]⟩
  | @acquire t _ hword hret hacq hrel =>
    have hfree := Object.free_of_success hword
    refine ⟨?_, hret ▸ hfin, ?_⟩
    · rw [hacq, hrel]
      exact hle.trans (Multiset.le_cons_self _ t)
    · rw [hret, hacq, hrel, Multiset.card_cons]
      omega
  | take hword hnot hret hacq hrel =>
    have hfree := Object.free_of_success hword
    refine ⟨by rwa [hacq, hrel], hret ▸ hfin.insert _, ?_⟩
    rw [hret, Set.ncard_insert_of_notMem hnot hfin, hacq, hrel]
    omega
  | @leave t hword ht hret hacq hrel =>
    have hcard : (r'.sys.returning o).ncard + 1 = (r.sys.returning o).ncard := by
      rw [hret, Set.ncard_sdiff_singleton_add_one ht hfin]
    refine ⟨?_, hret ▸ hfin.subset Set.sdiff_subset, ?_⟩
    · rw [hacq, hrel]
      exact hle.trans (Multiset.le_cons_self _ t)
    · rw [hacq, hword, hrel, Multiset.card_cons]
      omega
  | @release t hword hret hacq hrel =>
    have hheld := hu.mem_held hn hrel
    -- the mutex is taken, so the release makes one permit more
    have hpos : 0 < (r.held o).card := Multiset.card_pos_iff_exists_mem.mpr ⟨t, hheld⟩
    have hcard : (r.held o).card = (r.acquired o).card - (r.released o).card :=
      Multiset.card_sub hle
    have hfree : (objects o).free ((objects o).release (r.sys.cpu.mem (word o))) = 1 := by
      rw [ho]
      rfl
    refine ⟨?_, hret ▸ hfin, ?_⟩
    · rw [hacq, hrel, ← Multiset.singleton_add]
      exact (le_tsub_iff_right hle).mp (Multiset.singleton_le.mpr hheld)
    · rw [hword, hfree, hret, hacq, hrel, Multiset.card_cons]
      omega

/-- **Mutual exclusion.**  In a run in which only holders unlock the mutex, its word is nonzero
exactly if one thread has it or is about to return with it, and there is never a second one. -/
theorem mutual_exclusion (ho : objects o = .mutex)
    (h : (machine objects).ReachableWhile (HolderUnlocks o) r) :
    (r.held o).card + (r.sys.returning o).ncard =
      if r.sys.cpu.mem (word o) = 0 then 0 else 1 := by
  have hinit : Owned objects o (machine objects).init := by
    refine ⟨le_rfl, (account_init o).finite, ?_⟩
    simp only [machine, returning_init, word_init, Multiset.card_zero, Set.ncard_empty, ho]
    rfl
  obtain ⟨hle, -, hone⟩ := h.invariant hinit fun _ _ _ _ hs hu hn ↦ hs.next ho hn hu
  rw [held, Multiset.card_sub hle]
  have hcard := Multiset.card_le_card hle
  rw [ho] at hone
  simp only [Object.free] at hone
  split at hone
  · rw [if_pos ‹_›]
    omega
  · rw [if_neg ‹_›]
    omega

/-- The idle thread has locked a mutex, and another thread waits for it. -/
theorem mutual_exclusion_contended :
    let objects : ObjectId → Object := fun _ ↦ .mutex
    let r := (machine objects).afterWhile (HolderUnlocks 0) [.cpu (.attach 1 .idle),
      .cpu (.startSchedule 1), .acquire 0 none, .advance, .cpu (.attach 2 .high), .acquire 0 none,
      .advance, .advance, .advance, .advance, .advance, .advance, .advance]
    r.held 0 = {1} ∧ r.sys.spot 2 = .waiting 0 none ∧
    (r.held 0).card + (r.sys.returning 0).ncard = 1 := by
  intro objects r
  have hr : (machine objects).ReachableWhile (HolderUnlocks 0) r :=
    Machine.reachableWhile_afterWhile _
  have hone := mutual_exclusion rfl hr
  rw [if_neg (by decide)] at hone
  exact ⟨by decide, by decide, hone⟩

end Recorded

end Chino
