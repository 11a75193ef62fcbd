import Chino.Drivers.HostSerial
import Mathlib.Algebra.Group.Nat.Defs

/-!
# Reading the console of the host

`host_console_device::fast_read` takes input records one by one, until its buffer is full or none is
left, and keeps the characters of keys that go down.  One step is one call of the host, for which
the code waits and which may fail; between two of them, more records may arrive.

`typed` says what a reader is to see.  The fields `consumed` and `calls` are not in the code.  They
record which records were taken, and for each call that has returned its result and what was in its
buffer.

A call of the host that fails ends `fast_read` with an error, and what the buffer already holds was
taken from the console but is reported by nobody.  `lossless_iff` says that the stream is lossless
in exactly the runs in which no call of the host fails, and `nothing_lost` that a failure loses
nothing as long as the buffer is empty.

## The loops

`fast_read` has two loops and looks at its buffer in both: the outer one asks how many records there
are, the inner one takes so many of them.  A full buffer ends both.  `Loops` says how a step of a
call ends without an answer of the host, so that the cases are not repeated for each property of a
call.

* `Accounted` follows one call: what it has stored is what it has taken of the keys that went down,
  in order, and a call that succeeds reports all of it.
* `Sound` follows the console: what was typed and taken is what the calls have stored, in their
  order.
* `Sound.ends` is the termination: each answer of the host brings the call further, so once no more
  records arrive it ends, whatever the host answers.

`Lossless` is the property of the whole: what the successful calls have reported, one after the
other, is what was typed and taken; and a call with nothing to report says `slow_io`.
`lossless_iff` is an equivalence for every run, in terms of the events of the run, and covers
buffers of any size but zero.
-/

set_option autoImplicit false

namespace Chino

/-! ## Records -/

/-- What `fast_read` looks at in an `INPUT_RECORD`. -/
structure InputRecord where
  eventType : UInt16
  /-- `bKeyDown` is not zero. -/
  keyDown : Bool
  asciiChar : UInt8
deriving DecidableEq

/-- `KEY_EVENT` -/
def keyEvent : UInt16 := 1

/-- What `fast_read` stores for a record. -/
def InputRecord.char? (r : InputRecord) : Option UInt8 :=
  if r.eventType ≠ keyEvent ∨ ¬ r.keyDown then none
  else if r.asciiChar ≠ 0 then some (if r.asciiChar = 0x7f then 8 else r.asciiChar)
  else none

/-- The characters of the keys that went down, with the backspace for the delete character. -/
def typed (records : List InputRecord) : List UInt8 :=
  let down := records.filter fun r ↦ r.eventType = keyEvent ∧ r.keyDown
  ((down.map InputRecord.asciiChar).filter (· ≠ 0)).map fun c ↦ if c = 0x7f then 8 else c

theorem typed_append (rs rs' : List InputRecord) : typed (rs ++ rs') = typed rs ++ typed rs' := by
  simp only [typed, List.filter_append, List.map_append]

theorem typed_singleton (r : InputRecord) : typed [r] = r.char?.toList := by
  by_cases hk : r.eventType = keyEvent ∧ r.keyDown = true
  · by_cases hc : r.asciiChar = 0 <;> simp [typed, InputRecord.char?, hk, hc]
  · have hk' : r.eventType ≠ keyEvent ∨ ¬ r.keyDown = true := not_and_or.mp hk
    rw [InputRecord.char?, if_pos hk']
    simp [typed, hk]

/-! ## Calls -/

/-- The code of a call of the host that has failed, which is never `ERROR_SUCCESS`. -/
abbrev Win32Error := { win32 : UInt32 // win32 ≠ 0 }

theorem Win32Error.toErrorCode (e : Win32Error) : win32ToErrorCode e = .fail := if_neg e.2

/-- A call of `fast_read` that has returned. -/
structure FastReadCall where
  result : IoResult
  /-- What it has stored in its buffer. -/
  stored : List UInt8
deriving DecidableEq

namespace FastReadCall

/-- The bytes that the caller learns of. -/
def reported (c : FastReadCall) : List UInt8 :=
  match c.result with
  | .ok bytes => c.stored.take bytes
  | .err _ => []

/-- The call reports what it has stored, or that there was nothing. -/
def Kept (c : FastReadCall) : Prop :=
  match c.result with
  | .ok bytes => bytes = c.stored.length ∧ c.stored ≠ []
  | .err e => e = .slowIo ∧ c.stored = []

theorem Kept.reported_eq {c : FastReadCall} (h : c.Kept) : c.reported = c.stored := by
  obtain ⟨r, stored⟩ := c
  cases r with
  | ok bytes =>
    obtain rfl : bytes = stored.length := h.1
    exact List.take_length
  | err e => exact h.2.symm

theorem Kept.slowIo_iff {c : FastReadCall} (h : c.Kept) :
    c.result = .err .slowIo ↔ c.stored = [] := by
  obtain ⟨r, stored⟩ := c
  cases r with
  | ok bytes => simpa using h.2
  | err e =>
    obtain ⟨rfl, hs⟩ := h
    simpa using hs

/-- A call that reports what it has stored, and `slow_io` if that was nothing, is kept. -/
theorem kept_iff {c : FastReadCall}
    (hok : ∀ bytes, c.result = .ok bytes → bytes = c.stored.length ∧ c.stored ≠ []) :
    c.Kept ↔ c.reported = c.stored ∧ (c.result = .err .slowIo ↔ c.stored = []) := by
  refine ⟨fun h ↦ ⟨h.reported_eq, h.slowIo_iff⟩, fun ⟨hr, hs⟩ ↦ ?_⟩
  obtain ⟨v, stored⟩ := c
  cases v with
  | ok bytes => exact hok bytes rfl
  | err e =>
    obtain rfl : [] = stored := hr
    cases hs.mpr rfl
    exact ⟨rfl, rfl⟩

theorem length_reported_le (c : FastReadCall) : c.reported.length ≤ c.stored.length := by
  rw [reported]
  split
  · exact List.length_take_le' ..
  · exact Nat.zero_le _

theorem length_flatMap_reported_le (cs : List FastReadCall) :
    (cs.flatMap reported).length ≤ (cs.flatMap stored).length := by
  induction cs with
  | nil => exact Nat.le_refl _
  | cons c cs ih =>
    rw [List.flatMap_cons, List.flatMap_cons, List.length_append, List.length_append]
    exact Nat.add_le_add c.length_reported_le ih

/-- Nothing is lost exactly if every call reports what it has stored. -/
theorem flatMap_reported_eq_iff {cs : List FastReadCall} :
    cs.flatMap reported = cs.flatMap stored ↔ ∀ c ∈ cs, c.reported = c.stored := by
  induction cs with
  | nil => exact iff_of_true rfl fun _ hc ↦ absurd hc List.not_mem_nil
  | cons c cs ih =>
    rw [List.flatMap_cons, List.flatMap_cons, List.forall_mem_cons, ← ih]
    constructor
    · intro h
      have hlen := congrArg List.length h
      rw [List.length_append, List.length_append] at hlen
      have h₁ := c.length_reported_le
      have h₂ := length_flatMap_reported_le cs
      exact List.append_inj h (by omega)
    · rintro ⟨h₁, h₂⟩
      rw [h₁, h₂]

end FastReadCall

/-- Where a call of `fast_read` is. -/
inductive FastReadStage where
  /-- There is none. -/
  | idle
  /-- About to call `GetNumberOfConsoleInputEvents`. -/
  | counting
  /-- About to call `ReadConsoleInputA`. -/
  | reading (unreadEvents : ℕ)
deriving DecidableEq

/-- The console, and the calls of `fast_read` on it. -/
structure ConsoleInput where
  /-- The records in the console. -/
  pending : List InputRecord
  stage : FastReadStage
  /-- The size of what is left of the buffer. -/
  room : ℕ
  /-- What the call in progress has stored; `bytes_read` is its length. -/
  stored : List UInt8
  consumed : List InputRecord
  calls : List FastReadCall

/-- What the user, a reader and the host do. -/
inductive ConsoleInputEvent where
  | arrive (r : InputRecord)
  /-- `fast_read` is called. -/
  | call (size : ℕ)
  /-- The host returns, with a code if its call has failed. -/
  | host (error : Option Win32Error)
deriving DecidableEq

/-- A call of the host fails. -/
def ConsoleInputEvent.Fails : ConsoleInputEvent → Prop
  | .host (some _) => True
  | _ => False

namespace ConsoleInput

/-- An empty console, and nobody reads. -/
def init : ConsoleInput where
  pending := []
  stage := .idle
  room := 0
  stored := []
  consumed := []
  calls := []

/-- `return` -/
def returns (s : ConsoleInput) (r : IoResult) : ConsoleInput :=
  { s with stage := .idle, stored := [], calls := s.calls ++ [⟨r, s.stored⟩] }

/-- `return bytes_read ? ok(bytes_read) : err(error_code::slow_io)` -/
def finish (s : ConsoleInput) : ConsoleInput :=
  s.returns (if s.stored.length ≠ 0 then .ok s.stored.length else .err .slowIo)

/-- `while (!buffer.empty())` -/
def outer (s : ConsoleInput) : ConsoleInput :=
  if s.room = 0 then s.finish else { s with stage := .counting }

/-- `while (unread_events--)` -/
def inner (s : ConsoleInput) : ℕ → ConsoleInput
  | 0 => s.outer
  | unreadEvents + 1 => { s with stage := .reading unreadEvents }

/-- A character goes into the buffer. -/
def store (s : ConsoleInput) (c : UInt8) : ConsoleInput :=
  { s with stored := s.stored ++ [c], room := s.room - 1 }

/-- What is done with a record. -/
def take (s : ConsoleInput) (r : InputRecord) (unreadEvents : ℕ) : ConsoleInput :=
  match r.char? with
  | none => s.inner unreadEvents
  | some c => if (s.store c).room = 0 then (s.store c).outer else (s.store c).inner unreadEvents

/-- The next state, or none where the event does not apply. -/
def next (s : ConsoleInput) : ConsoleInputEvent → Option ConsoleInput
  | .arrive r => some { s with pending := s.pending ++ [r] }
  | .call size =>
    if s.stage = .idle then
      some (if size = 0 then s.returns (.err .insufficientBuffer)
        else { s with room := size }.outer)
    else none
  | .host error =>
    match s.stage, error with
    | .idle, _ => none
    | .counting, some e | .reading _, some e => some (s.returns (.err (win32ToErrorCode e)))
    | .counting, none =>
      -- `unread_events` is a `DWORD`
      let unreadEvents := s.pending.length % 2 ^ 32
      some (if unreadEvents = 0 then s.finish else s.inner unreadEvents)
    | .reading unreadEvents, none =>
      match s.pending with
      | [] => none
      | r :: rs =>
        some ({ s with pending := rs, consumed := s.consumed ++ [r] }.take r unreadEvents)

/-- Runs of calls, arrivals and answers of the host. -/
def machine : Machine ConsoleInput ConsoleInputEvent where
  init := init
  next := next

/-- What the successful calls have reported. -/
def reported (s : ConsoleInput) : List UInt8 := s.calls.flatMap FastReadCall.reported

/-- What all calls have stored. -/
def allStored (s : ConsoleInput) : List UInt8 := s.calls.flatMap FastReadCall.stored

variable {s s' t : ConsoleInput} {e : ConsoleInputEvent} {r : InputRecord} {k : ℕ}

/-! ## What a step does -/

/-- Both loops end, the outer one goes on, or the inner one does. -/
inductive Loops (s : ConsoleInput) (k : ℕ) : ConsoleInput → Prop
  | finish : Loops s k s.finish
  | outer : Loops s k { s with stage := .counting }
  | inner {n : ℕ} (hk : k = n + 1) : Loops s k { s with stage := .reading n }

theorem loops_outer (s : ConsoleInput) (k : ℕ) : s.Loops k s.outer := by
  rw [ConsoleInput.outer]
  split
  · exact .finish
  · exact .outer

theorem loops_inner (s : ConsoleInput) (k : ℕ) : s.Loops k (s.inner k) := by
  cases k with
  | zero => exact s.loops_outer 0
  | succ n => exact .inner rfl

/-- The character of a record goes to the buffer, if it has one. -/
def keep (s : ConsoleInput) (r : InputRecord) : ConsoleInput := r.char?.elim s s.store

theorem loops_take (s : ConsoleInput) (r : InputRecord) (k : ℕ) :
    (s.keep r).Loops k (s.take r k) := by
  rw [take, keep]
  cases r.char? with
  | none => exact s.loops_inner k
  | some c =>
    simp only [Option.elim_some]
    split
    · exact (s.store c).loops_outer k
    · exact (s.store c).loops_inner k

theorem keep_stored (s : ConsoleInput) (r : InputRecord) :
    (s.keep r).stored = s.stored ++ r.char?.toList := by
  rw [keep]
  cases r.char? <;> simp [store]

@[simp] theorem keep_pending (s : ConsoleInput) (r : InputRecord) :
    (s.keep r).pending = s.pending := by
  rw [keep]; cases r.char? <;> rfl

@[simp] theorem keep_consumed (s : ConsoleInput) (r : InputRecord) :
    (s.keep r).consumed = s.consumed := by
  rw [keep]; cases r.char? <;> rfl

@[simp] theorem keep_calls (s : ConsoleInput) (r : InputRecord) : (s.keep r).calls = s.calls := by
  rw [keep]; cases r.char? <;> rfl

/-- The steps. -/
inductive Step (s : ConsoleInput) : ConsoleInputEvent → ConsoleInput → Prop
  | arrive (r : InputRecord) : Step s (.arrive r) { s with pending := s.pending ++ [r] }
  | refuse (hi : s.stage = .idle) : Step s (.call 0) (s.returns (.err .insufficientBuffer))
  | enter (hi : s.stage = .idle) (n : ℕ) :
      Step s (.call (n + 1)) { s with room := n + 1, stage := .counting }
  | fail (hi : s.stage ≠ .idle) (e : Win32Error) : Step s (.host (some e)) (s.returns (.err .fail))
  | nothing (hc : s.stage = .counting) (hp : s.pending.length % 2 ^ 32 = 0) :
      Step s (.host none) s.finish
  | count (hc : s.stage = .counting) {n : ℕ} (hp : s.pending.length % 2 ^ 32 = n + 1) :
      Step s (.host none) { s with stage := .reading n }
  | read {k : ℕ} (hc : s.stage = .reading k) {r : InputRecord} {rs : List InputRecord}
      (hp : s.pending = r :: rs) {s' : ConsoleInput}
      (hs : Loops (keep { s with pending := rs, consumed := s.consumed ++ [r] } r) k s') :
      Step s (.host none) s'

theorem step_of_next (h : s.next e = some s') : s.Step e s' := by
  cases e with
  | arrive r => cases h; exact .arrive r
  | call size =>
    obtain ⟨hi, h⟩ := Option.ite_none_right_eq_some.mp h
    cases size with
    | zero =>
      cases h
      exact .refuse hi
    | succ n =>
      cases h
      exact .enter hi n
  | host error =>
    rcases hc : s.stage with _ | _ | k
    · simp [next, hc] at h
    · cases error with
      | some e =>
        simp only [next, hc, e.toErrorCode, Option.some.injEq] at h
        subst h
        exact .fail (fun hi ↦ by cases hc.symm.trans hi) e
      | none =>
        simp only [next, hc, Option.some.injEq] at h
        split at h
        · rename_i hp
          subst h
          exact .nothing hc hp
        · rename_i hp
          obtain ⟨n, hn⟩ := Nat.exists_eq_succ_of_ne_zero hp
          rw [hn] at h
          subst h
          exact .count hc hn
    · cases error with
      | some e =>
        simp only [next, hc, e.toErrorCode, Option.some.injEq] at h
        subst h
        exact .fail (fun hi ↦ by cases hc.symm.trans hi) e
      | none =>
        simp only [next, hc] at h
        split at h
        · cases h
        · rename_i r rs hp
          cases h
          rw [← hc]
          exact .read hc hp (loops_take ..)

/-! ## Accounting -/

/-- Every character that was taken was stored, and a call that succeeds reports what it has
stored. -/
structure Accounted (s : ConsoleInput) : Prop where
  stored : typed s.consumed = s.allStored ++ s.stored
  ok : ∀ c ∈ s.calls, ∀ bytes, c.result = .ok bytes → bytes = c.stored.length ∧ c.stored ≠ []

/-- What holds between two steps. -/
structure Sound (s : ConsoleInput) : Prop extends Accounted s where
  empty : s.stage = .idle → s.stored = []
  /-- There are as many records as the code is going to read. -/
  enough : ∀ k, s.stage = .reading k → k < s.pending.length

theorem sound_init : init.Sound where
  stored := rfl
  ok _ hc := absurd hc List.not_mem_nil
  empty _ := rfl
  enough _ hk := by cases hk

theorem Accounted.returns (h : s.Accounted) {v : IoResult}
    (hv : ∀ bytes, v = .ok bytes → bytes = s.stored.length ∧ s.stored ≠ []) :
    (s.returns v).Sound where
  stored := by simpa [ConsoleInput.returns, allStored] using h.stored
  ok c hc bytes hb := by
    rcases List.mem_append.mp hc with hc | hc
    · exact h.ok c hc bytes hb
    · obtain rfl := List.mem_singleton.mp hc
      exact hv bytes hb
  empty _ := rfl
  enough _ hk := by cases hk

/-- What a call returns that no call of the host has ended. -/
theorem finish_kept (s : ConsoleInput) : ∃ v, s.finish = s.returns v ∧
    FastReadCall.Kept ⟨v, s.stored⟩ := by
  by_cases hs : s.stored = []
  · exact ⟨.err .slowIo, by simp [finish, hs], rfl, hs⟩
  · exact ⟨.ok s.stored.length, by simp [finish, hs], rfl, hs⟩

theorem Accounted.finish (h : s.Accounted) : s.finish.Sound := by
  obtain ⟨v, hf, hk⟩ := s.finish_kept
  rw [hf]
  refine h.returns ?_
  rintro bytes rfl
  exact hk

theorem Accounted.loops (h : s.Accounted) (hk : k ≤ s.pending.length) (hl : s.Loops k s') :
    s'.Sound := by
  cases hl with
  | finish => exact h.finish
  | outer => exact ⟨⟨h.stored, h.ok⟩, (fun hi ↦ by cases hi), fun _ hs ↦ by cases hs⟩
  | @inner n hn =>
    refine ⟨⟨h.stored, h.ok⟩, (fun hi ↦ by cases hi), fun m hm ↦ ?_⟩
    obtain rfl : n = m := FastReadStage.reading.inj hm
    rw [hn] at hk
    exact hk

theorem Accounted.keep {rs : List InputRecord} (h : s.Accounted) :
    (ConsoleInput.keep { s with pending := rs, consumed := s.consumed ++ [r] } r).Accounted where
  stored := by
    rw [keep_stored, keep_consumed, typed_append, typed_singleton, h.stored, allStored, allStored,
      keep_calls, List.append_assoc]
  ok := by
    rw [keep_calls]
    exact h.ok

theorem Sound.next (h : s.Sound) (hn : s.next e = some s') : s'.Sound := by
  cases step_of_next hn with
  | arrive r =>
    refine ⟨⟨h.stored, h.ok⟩, h.empty, fun k hk ↦ ?_⟩
    have := h.enough k hk
    simp only [List.length_append]
    omega
  | refuse => exact h.toAccounted.returns fun _ hv ↦ by cases hv
  | enter => exact ⟨⟨h.stored, h.ok⟩, (fun hi ↦ by cases hi), fun _ hs ↦ by cases hs⟩
  | fail => exact h.toAccounted.returns fun _ hv ↦ by cases hv
  | nothing => exact h.toAccounted.finish
  | @count hc n hp =>
    have hle : n + 1 ≤ s.pending.length := hp ▸ Nat.mod_le ..
    exact h.toAccounted.loops hle (.inner rfl)
  | @read k hc r rs hp _ hl =>
    refine h.toAccounted.keep.loops ?_ hl
    have := h.enough k hc
    rw [hp, List.length_cons] at this
    rw [keep_pending]
    exact Nat.le_of_lt_succ this

theorem sound_of_reachable (h : machine.Reachable s) : s.Sound :=
  h.invariant sound_init fun _ _ _ _ ih hn ↦ ih.next hn

/-! ## What is kept and what is lost -/

section Calls

variable {P : FastReadCall → Prop}

theorem returns_calls (s : ConsoleInput) (v : IoResult) :
    (∀ c ∈ (s.returns v).calls, P c) ↔ (∀ c ∈ s.calls, P c) ∧ P ⟨v, s.stored⟩ := by
  simp only [returns, List.forall_mem_append, List.forall_mem_singleton]

/-- What all kept calls have, a call has that no failure has ended. -/
theorem finish_calls (hP : ∀ c : FastReadCall, c.Kept → P c) (s : ConsoleInput) :
    (∀ c ∈ s.finish.calls, P c) ↔ ∀ c ∈ s.calls, P c := by
  obtain ⟨v, hf, hk⟩ := s.finish_kept
  rw [hf, returns_calls, and_iff_left (hP _ hk)]

theorem Loops.calls (hP : ∀ c : FastReadCall, c.Kept → P c) (hl : s.Loops k s') :
    (∀ c ∈ s'.calls, P c) ↔ ∀ c ∈ s.calls, P c := by
  cases hl with
  | finish => exact finish_calls hP s
  | outer | inner => exact Iff.rfl

end Calls

/-- **A step.**  The call that returns in it is kept, unless the host has failed. -/
theorem kept_next (hn : s.next e = some s') (h0 : e ≠ .call 0) :
    (∀ c ∈ s'.calls, c.Kept) ↔ (∀ c ∈ s.calls, c.Kept) ∧ ¬ e.Fails := by
  cases step_of_next hn with
  | arrive | enter | count => exact (and_iff_left id).symm
  | refuse => exact absurd rfl h0
  | fail =>
    rw [returns_calls]
    -- an error of the host is never `slow_io`
    exact and_congr_right fun _ ↦ iff_of_false (fun hk ↦ by cases hk.1) (not_not_intro trivial)
  | nothing =>
    rw [finish_calls fun _ hk ↦ hk]
    exact (and_iff_left id).symm
  | read _ _ hl =>
    rw [hl.calls fun _ hk ↦ hk, keep_calls]
    exact (and_iff_left id).symm

/-- **A run.** -/
theorem kept_run {es : List ConsoleInputEvent} (h0 : .call 0 ∉ es)
    (hr : machine.runWhile (fun _ _ ↦ True) s es = some t) :
    (∀ c ∈ t.calls, c.Kept) ↔ (∀ c ∈ s.calls, c.Kept) ∧ ∀ e ∈ es, ¬ e.Fails := by
  induction es generalizing s with
  | nil =>
    cases hr
    exact (and_iff_left fun _ he ↦ absurd he List.not_mem_nil).symm
  | cons e es ih =>
    rw [List.mem_cons, not_or] at h0
    obtain ⟨s', hn, hr⟩ := Option.bind_eq_some_iff.mp hr
    rw [ih h0.2 hr, kept_next hn (Ne.symm h0.1), List.forall_mem_cons, and_assoc]

/-! ## How a call ends -/

/-- How many calls of the host it may take. -/
def bound (s : ConsoleInput) : ℕ :=
  match s.stage with
  | .idle => 0
  | .counting => 2 * s.pending.length + 1
  | .reading _ => 2 * s.pending.length

theorem Loops.bound_le (hl : s.Loops k s') : s'.bound ≤ 2 * s.pending.length + 1 := by
  cases hl with
  | finish => exact Nat.zero_le _
  | outer => exact Nat.le_refl _
  | inner => exact Nat.le_succ _

theorem Sound.bound_pos (h : s.Sound) (hs : s.stage ≠ .idle) : 0 < s.bound := by
  rcases hc : s.stage with _ | _ | k
  · exact absurd hc hs
  · simp [bound, hc]
  · have := h.enough k hc
    simp only [bound, hc]
    omega

/-- **A step.**  Every answer of the host gets the call further. -/
theorem Sound.bound_lt (h : s.Sound) {error : Option Win32Error}
    (hn : s.next (.host error) = some s') : s'.bound < s.bound := by
  cases step_of_next hn with
  | fail hs => exact h.bound_pos hs
  | nothing hc => exact h.bound_pos fun hi ↦ by cases hc.symm.trans hi
  | count hc =>
    have hb : s.bound = 2 * s.pending.length + 1 := by simp only [bound, hc]
    rw [hb]
    exact Nat.lt_succ_self _
  | @read k hc r rs hp _ hl =>
    have hb : s.bound = 2 * s.pending.length := by simp only [bound, hc]
    have hle : s'.bound ≤ 2 * rs.length + 1 := by simpa using hl.bound_le
    rw [hb, hp, List.length_cons]
    omega

/-- No call of the host keeps `fast_read` waiting. -/
theorem Sound.next_isSome (h : s.Sound) (hs : s.stage ≠ .idle) (error : Option Win32Error) :
    (s.next (.host error)).isSome = true := by
  rcases hc : s.stage with _ | _ | k
  · exact absurd hc hs
  · cases error <;> simp only [ConsoleInput.next, hc, Option.isSome_some]
  · cases error with
    | some e => simp only [ConsoleInput.next, hc, Option.isSome_some]
    | none =>
      obtain ⟨r, rs, hp⟩ := List.exists_cons_of_length_pos (Nat.zero_lt_of_lt (h.enough k hc))
      simp only [ConsoleInput.next, hc, hp, Option.isSome_some]

/-- **A run.**  Once no more records arrive, a call ends, whatever the host answers. -/
theorem Sound.ends (h : s.Sound) (answers : List (Option Win32Error))
    (hl : s.bound ≤ answers.length) :
    ∃ n t, machine.runWhile (fun _ _ ↦ True) s ((answers.take n).map .host) = some t ∧
      t.stage = .idle := by
  induction answers generalizing s with
  | nil =>
    by_cases hs : s.stage = .idle
    · exact ⟨0, s, rfl, hs⟩
    · exact absurd (h.bound_pos hs) (Nat.not_lt.mpr hl)
  | cons error answers ih =>
    by_cases hs : s.stage = .idle
    · exact ⟨0, s, rfl, hs⟩
    · obtain ⟨s', hn⟩ := Option.isSome_iff_exists.mp (h.next_isSome hs error)
      have hlt := h.bound_lt hn
      rw [List.length_cons] at hl
      obtain ⟨n, t, hr, ht⟩ := ih (h.next hn) (by omega)
      refine ⟨n + 1, t, ?_, ht⟩
      rw [List.take_succ_cons, List.map_cons, Machine.runWhile, if_pos trivial]
      exact Option.bind_eq_some_iff.mpr ⟨s', hn, hr⟩

/-! ## The stream -/

/-- The console is a lossless stream. -/
structure Lossless (s : ConsoleInput) : Prop where
  /-- What the successful calls have reported is a prefix of what was typed. -/
  isPrefix : s.reported <+: typed (s.consumed ++ s.pending)
  /-- What was taken is reported, or in the buffer of the call in progress. -/
  kept : typed s.consumed = s.reported ++ s.stored
  slowIo : ∀ c ∈ s.calls, c.result = .err .slowIo ↔ c.stored = []
  /-- Once no more records arrive, the call in progress ends. -/
  ends : ∀ answers : List (Option Win32Error), s.bound ≤ answers.length →
    ∃ n t, machine.runWhile (fun _ _ ↦ True) s ((answers.take n).map .host) = some t ∧
      t.stage = .idle

theorem Sound.lossless_iff_kept (h : s.Sound) : s.Lossless ↔ ∀ c ∈ s.calls, c.Kept := by
  have hall : (∀ c ∈ s.calls, c.Kept) ↔ s.reported = s.allStored ∧
      ∀ c ∈ s.calls, c.result = .err .slowIo ↔ c.stored = [] := by
    rw [reported, allStored, FastReadCall.flatMap_reported_eq_iff, ← forall₂_and]
    exact forall₂_congr fun c hc ↦ FastReadCall.kept_iff (h.ok c hc)
  rw [hall]
  constructor
  · intro hl
    refine ⟨?_, hl.slowIo⟩
    exact List.append_cancel_right (hl.kept.symm.trans h.stored)
  · rintro ⟨hr, hs⟩
    have hk : typed s.consumed = s.reported ++ s.stored := hr ▸ h.stored
    refine ⟨?_, hk, hs, h.ends⟩
    rw [typed_append, hk, List.append_assoc]
    exact List.prefix_append ..

/-- **The stream is lossless exactly as long as the host does not fail.**  The calls have buffers
that are not empty. -/
theorem lossless_iff (es : List ConsoleInputEvent) (h0 : .call 0 ∉ es)
    (hr : machine.runWhile (fun _ _ ↦ True) init es = some s) :
    s.Lossless ↔ ∀ e ∈ es, ¬ e.Fails := by
  have h : s.Sound := sound_of_reachable (Machine.ReachableWhile.init.runWhile hr)
  rw [h.lossless_iff_kept, kept_run h0 hr]
  exact and_iff_right fun _ hc ↦ absurd hc List.not_mem_nil

/-- The key `a` goes down. -/
def pressA : ConsoleInputEvent := .arrive ⟨keyEvent, true, 97⟩

/-- A call with a buffer of eight bytes reads it. -/
theorem lossless_iff_press : ∃ s, machine.runWhile (fun _ _ ↦ True) init
    [pressA, .call 8, .host none, .host none, .host none] = some s ∧ s.Lossless ∧
      s.reported = [97] :=
  ⟨_, rfl, (lossless_iff [pressA, .call 8, .host none, .host none, .host none] (by decide) rfl).mpr
    (by simp [ConsoleInputEvent.Fails, pressA]), rfl⟩

/-- The host fails when the call has taken the character and looks for more.  The call returns with
an error, and the console is empty. -/
theorem not_lossless : ∃ s, machine.runWhile (fun _ _ ↦ True) init
    [pressA, .call 8, .host none, .host none, .host (some ⟨6, by decide⟩)] = some s ∧
      s.calls = [⟨.err .fail, [97]⟩] ∧ s.pending = [] ∧ s.reported = [] ∧ ¬ s.Lossless :=
  ⟨⟨[], .idle, 7, [], [⟨keyEvent, true, 97⟩], [⟨.err .fail, [97]⟩]⟩, rfl, rfl, rfl, rfl,
    fun h ↦ absurd h.kept (by decide)⟩

/-- **A failure loses nothing but what is in the buffer.**  If the host only fails while the buffer
of the call is empty, every character that was taken is reported, or in the buffer of the call in
progress. -/
theorem nothing_lost (h : machine.ReachableWhile (fun s e ↦ e.Fails → s.stored = []) s) :
    typed s.consumed = s.reported ++ s.stored := by
  have hr : ∀ c ∈ s.calls, c.reported = c.stored := by
    refine h.invariant (I := fun s ↦ ∀ c ∈ s.calls, c.reported = c.stored)
      (fun _ hc ↦ absurd hc List.not_mem_nil) fun s e s' hs ih he hn ↦ ?_
    have hkept (c : FastReadCall) : c.Kept → c.reported = c.stored := FastReadCall.Kept.reported_eq
    cases step_of_next hn with
    | arrive | enter | count => exact ih
    | refuse hi =>
      have hempty : s.stored = [] := (sound_of_reachable hs.reachable).empty hi
      exact (s.returns_calls _).mpr ⟨ih, hempty.symm⟩
    | fail => exact (s.returns_calls _).mpr ⟨ih, (he trivial).symm⟩
    | nothing => exact (finish_calls hkept s).mpr ih
    | read _ _ hl =>
      rw [hl.calls hkept, keep_calls]
      exact ih
  rw [(sound_of_reachable h.reachable).stored, allStored, reported,
    FastReadCall.flatMap_reported_eq_iff.mpr hr]

end ConsoleInput

end Chino
