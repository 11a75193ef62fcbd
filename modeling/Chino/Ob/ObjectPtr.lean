import Chino.Library.Count
import Chino.Library.Run
import Mathlib.Data.Fintype.Card

/-!
# Pointers to objects

`object_ptr` on a `ref_counted_object`, `object.h`, in any number of threads.  A pointer is an
ordinary variable and a count is atomic, so a member function is several steps: `dec_ref` drops a
reference, destroys the object if it was the last one, and clears the pointer; a copy is read before
its reference is added.  Other threads run between these steps.

A caller may use a pointer as any other variable: while it is written nobody else reads or writes it
(`Legal`).  A raw pointer that owns a reference, as `release` returns it, is a variable like the
others here, and a thread that drops further pointers from `internal_release` is one more thread.

`pending` is the pointer of a call that is not counted at the moment.  `refs` are all others, and
`objects_live` says that the count is their number in every interleaving.

## The invariant

Every pointer variable that leads to an object is a reference to it, except for one kind: those that
a call under way holds back, because it has read a copy that is not yet counted, or has dropped a
reference that it has not yet cleared.  `pending` names that pointer, one at most for each call.

* `Ok` says of each call which pointer it holds back at its place, and that the object of a copy it
  is about to count has a reference meanwhile, namely the one that it copies.
* `Steps` is a step of one call as seen from its own pointers.  The other calls do not use these, by
  `Legal`, so `Steps.ok_other` leaves them alone.
* `Inv.gains`, `Inv.loses` and `Inv.quiet` are the three things that a step does to the references
  of one object; all steps are one of these.

`ref_count_` has 32 bits.  The theorem is about fewer than `2 ^ 32` pointers, and then the word is
the number of references.  In particular it is one for whoever drops the last one, and nobody else
finds it so.
-/

set_option autoImplicit false

namespace Chino

open Function (update)

/-- Where a member function is. -/
inductive PtrStage (O : Type) where
  /-- About to call `obj->dec_ref()`, if there is an object. -/
  | decRef
  /-- About to call `internal_release`. -/
  | internalRelease (o : O)
  /-- About to clear `object_`. -/
  | clear
  /-- About to read `other.object_`. -/
  | load
  /-- About to call `object_->add_ref()`, if there is an object. -/
  | addRef
  /-- About to clear `other.object_`. -/
  | clearOther
deriving DecidableEq

/-- A call of a member function: `this`, and for a copy or a move the other pointer. -/
structure PtrCall (P O : Type) where
  this : P
  other : Option P
  moves : Bool
  stage : PtrStage O
deriving DecidableEq

namespace PtrCall

variable {P O : Type}

/-- The pointers that a member function writes. -/
def writes (c : PtrCall P O) : List P := if c.moves then c.this :: c.other.toList else [c.this]

/-- Those that it only reads. -/
def reads (c : PtrCall P O) : List P := if c.moves then [] else c.other.toList

/-- What is left when `this` is clear: an assignment goes on. -/
def cleared (c : PtrCall P O) : Option (PtrCall P O) :=
  if c.other.isSome then some { c with stage := .load } else none

/-- The pointer that points to an object without being counted, or clears a reference that is
counted elsewhere. -/
def pending (c : PtrCall P O) : Option P :=
  match c.stage with
  | .internalRelease _ => some c.this
  | .clear => some c.this
  | .addRef => some c.this
  | .clearOther => c.other
  | .decRef => none
  | .load => none

/-- Neither call writes what the other one uses. -/
def Apart (c d : PtrCall P O) : Prop :=
  (∀ p ∈ c.writes, p ∉ d.writes ∧ p ∉ d.reads) ∧ ∀ p ∈ c.reads, p ∉ d.writes

instance [DecidableEq P] (c d : PtrCall P O) : Decidable (c.Apart d) :=
  inferInstanceAs (Decidable (_ ∧ _))

end PtrCall

/-- What the threads do with pointers. -/
inductive PtrEvent (T P O : Type) where
  /-- `object_ptr(std::in_place, ...)` with a new object. -/
  | construct (p : P) (o : O)
  /-- `~object_ptr` -/
  | destroy (t : T) (p : P)
  /-- `object_ptr(const object_ptr &)` -/
  | copy (t : T) (p other : P)
  /-- `object_ptr(object_ptr &&)` -/
  | move (t : T) (p other : P)
  /-- `operator=(const object_ptr &)` -/
  | assign (t : T) (p other : P)
  /-- `operator=(object_ptr &&)` -/
  | moveAssign (t : T) (p other : P)
  | step (t : T)
deriving DecidableEq

/-- The pointers and the objects, with the calls of the threads.  `constructed` and `released` count
what has happened to an object. -/
structure ObjectPtrs (T P O : Type) where
  object : P → Option O
  refCount : O → UInt32
  alive : O → Bool
  call : T → Option (PtrCall P O)
  constructed : O → ℕ
  released : O → ℕ

namespace ObjectPtrs

variable {T P O : Type} [DecidableEq T] [DecidableEq P] [DecidableEq O]

/-! ## The member functions -/

/-- A pointer leads to another object. -/
def setObject (s : ObjectPtrs T P O) (p : P) (o : Option O) : ObjectPtrs T P O :=
  { s with object := update s.object p o }

/-- A count changes. -/
def setRefCount (s : ObjectPtrs T P O) (o : O) (n : UInt32) : ObjectPtrs T P O :=
  { s with refCount := update s.refCount o n }

/-- A member function goes on. -/
def setCall (s : ObjectPtrs T P O) (t : T) (c : Option (PtrCall P O)) : ObjectPtrs T P O :=
  { s with call := update s.call t c }

/-- The object is destroyed. -/
def internalRelease (s : ObjectPtrs T P O) (o : O) : ObjectPtrs T P O :=
  { s with
    alive := update s.alive o false
    released := update s.released o (s.released o + 1) }

/-- One step of a call, and what is left of it. -/
def stepCall (s : ObjectPtrs T P O) (c : PtrCall P O) :
    ObjectPtrs T P O × Option (PtrCall P O) :=
  match c.stage with
  | .decRef => match s.object c.this with
    | none => (s, c.cleared)
    | some o => (s.setRefCount o (s.refCount o - 1), some { c with
        stage := if s.refCount o = 1 then .internalRelease o else .clear })
  | .internalRelease o => (s.internalRelease o, some { c with stage := .clear })
  | .clear => (s.setObject c.this none, c.cleared)
  | .load => match c.other with
    | none => (s, none)
    | some other => (s.setObject c.this (s.object other), some { c with
        stage := if c.moves then .clearOther else .addRef })
  | .addRef => match s.object c.this with
    | none => (s, none)
    | some o => (s.setRefCount o (s.refCount o + 1), none)
  | .clearOther => match c.other with
    | none => (s, none)
    | some other => (s.setObject other none, none)

/-- The call that an event starts.  An assignment to itself does nothing. -/
def started? : PtrEvent T P O → Option (T × Option (PtrCall P O))
  | .construct _ _ => none
  | .destroy t p => some (t, some ⟨p, none, false, .decRef⟩)
  | .copy t p other => some (t, some ⟨p, some other, false, .load⟩)
  | .move t p other => some (t, some ⟨p, some other, true, .load⟩)
  | .assign t p other => some (t, if p = other then none else some ⟨p, some other, false, .decRef⟩)
  | .moveAssign t p other =>
    some (t, if p = other then none else some ⟨p, some other, true, .decRef⟩)
  | .step _ => none

/-- The next state, or none where the event does not apply. -/
def next (s : ObjectPtrs T P O) : PtrEvent T P O → Option (ObjectPtrs T P O)
  | .construct p o => some { (s.setObject p (some o)).setRefCount o 1 with
      alive := update s.alive o true
      constructed := update s.constructed o (s.constructed o + 1) }
  | .step t => (s.call t).map fun c ↦ (s.stepCall c).1.setCall t (s.stepCall c).2
  | e => match started? e with
    | some (t, c) => if s.call t = none then some (s.setCall t c) else none
    | none => none

/-- No pointers point anywhere. -/
def machine (T P O : Type) [DecidableEq T] [DecidableEq P] [DecidableEq O] :
    Machine (ObjectPtrs T P O) (PtrEvent T P O) where
  init := ⟨fun _ ↦ none, fun _ ↦ 0, fun _ ↦ false, fun _ ↦ none, fun _ ↦ 0, fun _ ↦ 0⟩
  next := next

/-- No call under way uses what a new one writes, or writes what it uses. -/
def Unused (s : ObjectPtrs T P O) (c : PtrCall P O) : Prop := ∀ t, ∀ d ∈ s.call t, c.Apart d

/-- How pointers may be used: without races, constructors on storage that holds nothing, and objects
in storage that is free. -/
def Legal (s : ObjectPtrs T P O) : PtrEvent T P O → Prop
  | .construct p o => s.alive o = false ∧ s.object p = none ∧
    s.Unused ⟨p, none, false, .decRef⟩
  | .destroy _ p => s.Unused ⟨p, none, false, .decRef⟩
  | .copy _ p other => s.object p = none ∧ p ≠ other ∧ s.Unused ⟨p, some other, false, .load⟩
  | .move _ p other => s.object p = none ∧ p ≠ other ∧ s.Unused ⟨p, some other, true, .load⟩
  | .assign _ p other => s.Unused ⟨p, some other, false, .decRef⟩
  | .moveAssign _ p other => s.Unused ⟨p, some other, true, .decRef⟩
  | .step _ => True

instance [Fintype T] (s : ObjectPtrs T P O) (c : PtrCall P O) : Decidable (s.Unused c) :=
  inferInstanceAs (Decidable (∀ t, ∀ d ∈ s.call t, _))

instance [Fintype T] : ∀ (s : ObjectPtrs T P O) (e : PtrEvent T P O), Decidable (s.Legal e)
  | _, .construct .. => inferInstanceAs (Decidable (_ ∧ _ ∧ _))
  | _, .destroy .. => inferInstanceAs (Decidable (Unused _ _))
  | _, .copy .. => inferInstanceAs (Decidable (_ ∧ _ ∧ _))
  | _, .move .. => inferInstanceAs (Decidable (_ ∧ _ ∧ _))
  | _, .assign .. => inferInstanceAs (Decidable (Unused _ _))
  | _, .moveAssign .. => inferInstanceAs (Decidable (Unused _ _))
  | _, .step _ => isTrue trivial

end ObjectPtrs

/-! ## Who is counted -/

namespace ObjectPtrs

variable {T P O : Type}

/-- A call holds this pointer back from the count. -/
def Pending (s : ObjectPtrs T P O) (p : P) : Prop := ∃ t, ∃ c ∈ s.call t, c.pending = some p

/-- The pointer is one of the references to the object. -/
def RefersTo (s : ObjectPtrs T P O) (o : O) (p : P) : Prop := s.object p = some o ∧ ¬s.Pending p

/-- The number of references. -/
noncomputable def refs [Fintype P] (s : ObjectPtrs T P O) (o : O) : ℕ :=
  count Finset.univ (s.RefersTo o)

/-- A thread is about to destroy the object. -/
def Releasing (s : ObjectPtrs T P O) (o : O) (t : T) : Prop :=
  ∃ c ∈ s.call t, c.stage = .internalRelease o

/-- The next step of a thread is one on the object. -/
def Uses (s : ObjectPtrs T P O) (o : O) (t : T) : Prop :=
  ∃ c ∈ s.call t, c.stage = .internalRelease o ∨
    (c.stage = .decRef ∨ c.stage = .addRef) ∧ s.object c.this = some o

end ObjectPtrs

namespace PtrCall

variable {P O : Type} {c d : PtrCall P O} {p : P}

theorem Apart.symm (h : c.Apart d) : d.Apart c :=
  ⟨fun p hp ↦ ⟨fun hc ↦ (h.1 p hc).1 hp, fun hc ↦ h.2 p hc hp⟩, fun p hp hc ↦ (h.1 p hc).2 hp⟩

theorem this_mem_writes (c : PtrCall P O) : c.this ∈ c.writes := by
  unfold writes
  split <;> simp

theorem other_mem (hp : p ∈ c.other) : p ∈ c.writes ∨ p ∈ c.reads := by
  unfold writes reads
  cases c.moves <;> simp_all

theorem other_mem_writes (hm : c.moves = true) (hp : p ∈ c.other) : p ∈ c.writes := by
  rw [writes, if_pos hm]
  exact List.mem_cons_of_mem _ (Option.mem_toList.mpr hp)

theorem ne_this (c : PtrCall P O) (hp : p ∉ c.writes) : p ≠ c.this :=
  fun h ↦ hp (h ▸ c.this_mem_writes)

/-- The pointer of a call that is not a move is the one it writes. -/
theorem eq_this_of_mem (hm : c.moves = false) (hp : p ∈ c.writes) : p = c.this := by
  rw [PtrCall.writes, hm] at hp
  exact List.mem_singleton.mp hp

/-- What is left of a call after `dec_ref`. -/
theorem cleared_spec (hd : d ∈ c.cleared) : d.this = c.this ∧ d.other = c.other ∧
    d.moves = c.moves ∧ d.stage = .load ∧ c.other.isSome = true := by
  unfold PtrCall.cleared at hd
  split at hd
  · cases hd
    exact ⟨rfl, rfl, rfl, rfl, ‹_›⟩
  · cases hd

theorem cleared_pending (hd : d ∈ c.cleared) : d.pending = none := by
  obtain ⟨-, -, -, hs, -⟩ := cleared_spec hd
  rw [PtrCall.pending, hs]

/-- Calls on the same pointers use the same ones. -/
theorem writes_congr (hthis : d.this = c.this) (hother : d.other = c.other)
    (hmoves : d.moves = c.moves) : d.writes = c.writes ∧ d.reads = c.reads := by
  simp only [writes, reads, hthis, hother, hmoves, and_self]

end PtrCall

namespace ObjectPtrs

variable {T P O : Type} {s s' : ObjectPtrs T P O} {t u : T} {p : P} {o : O} {c d : PtrCall P O}
  {c' : Option (PtrCall P O)}

/-! ## References -/

section References

variable [Fintype P]

theorem refs_congr (h : ∀ p, s'.RefersTo o p ↔ s.RefersTo o p) : s'.refs o = s.refs o :=
  count_congr fun p _ ↦ h p

/-- One reference less. -/
theorem refs_lose (hs : s.RefersTo o p) (hs' : ¬s'.RefersTo o p)
    (h : ∀ q, q ≠ p → (s'.RefersTo o q ↔ s.RefersTo o q)) : s.refs o = s'.refs o + 1 := by
  have hchange := count_change (Finset.mem_univ p) fun q _ hq ↦ (h q hq).symm
  rwa [tally_of_not hs', tally_of hs, Nat.add_zero] at hchange

theorem refs_pos (h : s.RefersTo o p) : 0 < s.refs o := count_pos (Finset.mem_univ p) h

theorem refs_le (s : ObjectPtrs T P O) (o : O) : s.refs o ≤ Fintype.card P :=
  count_le_card

end References

/-! ## One step -/

/-- What holds where a call is. -/
def Ok (s : ObjectPtrs T P O) (c : PtrCall P O) : Prop :=
  (∀ q ∈ c.other, q ≠ c.this) ∧
    match c.stage with
    | .load => s.object c.this = none ∧ c.other.isSome = true
    | .addRef => c.moves = false ∧ ∃ q ∈ c.other, s.object c.this = s.object q
    | .clearOther => c.moves = true ∧ c.other.isSome = true
    | .decRef => True
    | .internalRelease _ => True
    | .clear => True

/-- A pointer that is held back is one that the call writes. -/
theorem Ok.pending_mem (h : s.Ok c) (hp : c.pending = some p) : p ∈ c.writes := by
  have hthis := c.this_mem_writes
  unfold PtrCall.pending at hp
  unfold Ok at h
  cases hs : c.stage with
  | clearOther =>
    simp only [hs] at hp h
    exact PtrCall.other_mem_writes h.2.1 hp
  | internalRelease | clear | addRef =>
    simp only [hs] at hp
    cases hp
    exact hthis
  | decRef | load =>
    simp only [hs] at hp
    cases hp

/-- A call depends on its own pointers only. -/
theorem Ok.congr (h : s.Ok d) (hthis : s'.object d.this = s.object d.this)
    (hother : ∀ q ∈ d.other, s'.object q = s.object q) : s'.Ok d := by
  refine ⟨h.1, ?_⟩
  have h := h.2
  cases hs : d.stage with
  | addRef =>
    simp only [hs] at h ⊢
    obtain ⟨hm, q, hq, hobj⟩ := h
    exact ⟨hm, q, hq, by rw [hthis, hother q hq, hobj]⟩
  | load =>
    simp only [hs] at h ⊢
    rwa [hthis]
  | clearOther =>
    simp only [hs] at h ⊢
    exact h
  | decRef | internalRelease | clear => trivial

variable [DecidableEq T]

/-- A step of a call on the pointers it writes. -/
structure Steps (s s' : ObjectPtrs T P O) (t : T) (c : PtrCall P O)
    (c' : Option (PtrCall P O)) : Prop where
  call : s'.call = update s.call t c'
  same : ∀ d ∈ c', d.this = c.this ∧ d.other = c.other ∧ d.moves = c.moves
  ok : ∀ d ∈ c', s'.Ok d
  object : ∀ p ∉ c.writes, s'.object p = s.object p

theorem Steps.of_call (hst : Steps s s' t c c') (hd : d ∈ s'.call u) :
    u = t ∧ d ∈ c' ∨ u ≠ t ∧ d ∈ s.call u := by
  rw [hst.call] at hd
  by_cases hut : u = t
  · subst hut
    exact Or.inl ⟨rfl, by rwa [Function.update_self] at hd⟩
  · exact Or.inr ⟨hut, by rwa [Function.update_of_ne hut] at hd⟩

theorem Steps.uses (hst : Steps s s' t c c') (hd : d ∈ c') :
    d.writes = c.writes ∧ d.reads = c.reads := by
  obtain ⟨hthis, hother, hmoves⟩ := hst.same d hd
  exact PtrCall.writes_congr hthis hother hmoves

/-- The other calls see the same objects. -/
theorem Steps.ok_other (hst : Steps s s' t c c') (hd : c.Apart d) (h : s.Ok d) : s'.Ok d :=
  h.congr (hst.object _ fun hw ↦ (hd.1 _ hw).1 d.this_mem_writes) fun q hq ↦
    hst.object q fun hw ↦ (PtrCall.other_mem hq).elim (hd.1 q hw).1 (hd.1 q hw).2

/-- A call whose pointer is null goes on as if it were cleared. -/
theorem steps_cleared (h : s.Ok c) (hcall : s'.call = update s.call t c.cleared)
    (hnull : s'.object c.this = none) (hobj : ∀ p, p ≠ c.this → s'.object p = s.object p) :
    Steps s s' t c c.cleared where
  call := hcall
  same d hd := by
    obtain ⟨hthis, hother, hmoves, -⟩ := PtrCall.cleared_spec hd
    exact ⟨hthis, hother, hmoves⟩
  ok d hd := by
    obtain ⟨hthis, hother, -, hs, hsome⟩ := PtrCall.cleared_spec hd
    refine ⟨by rw [hthis, hother]; exact h.1, ?_⟩
    simp only [hs]
    rw [hthis, hother]
    exact ⟨hnull, hsome⟩
  object p hp := hobj p (c.ne_this hp)

/-- The last step of a call. -/
theorem steps_done (hcall : s'.call = update s.call t none)
    (hobj : ∀ p ∉ c.writes, s'.object p = s.object p) : Steps s s' t c none where
  call := hcall
  same _ hd := (Option.not_mem_none _ hd).elim
  ok _ hd := (Option.not_mem_none _ hd).elim
  object := hobj

theorem Steps.releasing_iff (hst : Steps s s' t c c') : s'.Releasing o u ↔
    u = t ∧ (∃ d ∈ c', d.stage = .internalRelease o) ∨ u ≠ t ∧ s.Releasing o u := by
  constructor
  · rintro ⟨d, hd, hs⟩
    rcases hst.of_call hd with ⟨hut, hd⟩ | ⟨hut, hd⟩
    · exact Or.inl ⟨hut, d, hd, hs⟩
    · exact Or.inr ⟨hut, d, hd, hs⟩
  · rintro (⟨rfl, d, hd, hs⟩ | ⟨hut, d, hd, hs⟩)
    · exact ⟨d, by rwa [hst.call, Function.update_self], hs⟩
    · exact ⟨d, by rwa [hst.call, Function.update_of_ne hut], hs⟩

/-! ## The invariant -/

variable [Fintype P]

/-- What every step keeps. -/
structure Inv (s : ObjectPtrs T P O) : Prop where
  ok : ∀ t, ∀ c ∈ s.call t, s.Ok c
  apart : ∀ t u, t ≠ u → ∀ c ∈ s.call t, ∀ d ∈ s.call u, c.Apart d
  count : ∀ o, s.refCount o = UInt32.ofNat (s.refs o)
  alive : ∀ o, s.alive o = true ↔ 0 < s.refs o ∨ ∃ t, s.Releasing o t
  releasing : ∀ o t, s.Releasing o t → s.refs o = 0 ∧ ∀ u, s.Releasing o u → u = t
  once : ∀ o, s.constructed o = s.released o + if s.alive o = true then 1 else 0

/-- Of the pointers that a call uses, it alone holds one back. -/
theorem Inv.pending_iff (h : s.Inv) (hc : c ∈ s.call t) (hp : p ∈ c.writes ∨ p ∈ c.reads) :
    s.Pending p ↔ c.pending = some p := by
  refine ⟨?_, fun hpend ↦ ⟨t, c, hc, hpend⟩⟩
  rintro ⟨u, d, hd, hpend⟩
  by_cases hut : u = t
  · subst hut
    rwa [Option.mem_unique hc hd]
  · have hw := (h.ok u d hd).pending_mem hpend
    obtain ⟨hwrites, -⟩ := h.apart u t hut d hd c hc
    exact absurd hp (not_or.mpr (hwrites p hw))

/-- A pointer that the call does not write is counted as before. -/
theorem Steps.refersTo_other (hst : Steps s s' t c c') (h : s.Inv) (hc : c ∈ s.call t)
    (hp : p ∉ c.writes) : s'.RefersTo o p ↔ s.RefersTo o p := by
  have hpend : s'.Pending p ↔ s.Pending p := by
    constructor
    · rintro ⟨u, d, hd, hpend⟩
      rcases hst.of_call hd with ⟨-, hd⟩ | ⟨-, hd⟩
      · exact absurd ((hst.ok d hd).pending_mem hpend) ((hst.uses hd).1 ▸ hp)
      · exact ⟨u, d, hd, hpend⟩
    · rintro ⟨u, d, hd, hpend⟩
      have hut : u ≠ t := by
        rintro rfl
        rw [Option.mem_unique hd hc] at hpend
        exact hp ((h.ok u c hc).pending_mem hpend)
      exact ⟨u, d, by rwa [hst.call, Function.update_of_ne hut], hpend⟩
  rw [RefersTo, RefersTo, hst.object p hp, hpend]

/-- A pointer that the call writes is counted unless the rest of the call holds it back. -/
theorem Steps.refersTo (hst : Steps s s' t c c') (h : s.Inv) (hc : c ∈ s.call t)
    (hp : p ∈ c.writes) :
    s'.RefersTo o p ↔ s'.object p = some o ∧ ∀ d ∈ c', d.pending ≠ some p := by
  refine and_congr_right fun _ ↦ ?_
  constructor
  · exact fun hno d hd hpend ↦ hno ⟨t, d, by rwa [hst.call, Function.update_self], hpend⟩
  · rintro hno ⟨u, d, hd, hpend⟩
    rcases hst.of_call hd with ⟨-, hd⟩ | ⟨hut, hd⟩
    · exact hno d hd hpend
    · exact (h.apart t u (Ne.symm hut) c hc d hd).1 p hp |>.1 ((h.ok u d hd).pending_mem hpend)

/-! ## What a step keeps -/

/-- The calls are well formed again, and apart. -/
theorem Inv.steps_ok (h : s.Inv) (hc : c ∈ s.call t) (hst : Steps s s' t c c') :
    (∀ u, ∀ d ∈ s'.call u, s'.Ok d) ∧
      ∀ u v, u ≠ v → ∀ d ∈ s'.call u, ∀ e ∈ s'.call v, d.Apart e := by
  have hof : ∀ u, ∀ d ∈ s'.call u, ∃ d₀ ∈ s.call u, d.writes = d₀.writes ∧ d.reads = d₀.reads := by
    intro u d hd
    rcases hst.of_call hd with ⟨rfl, hd⟩ | ⟨-, hd⟩
    · exact ⟨c, hc, hst.uses hd⟩
    · exact ⟨d, hd, rfl, rfl⟩
  refine ⟨fun u d hd ↦ ?_, fun u v huv d hd e he ↦ ?_⟩
  · rcases hst.of_call hd with ⟨-, hd⟩ | ⟨hut, hd⟩
    · exact hst.ok d hd
    · exact hst.ok_other (h.apart t u (Ne.symm hut) c hc d hd) (h.ok u d hd)
  · obtain ⟨d₀, hd₀, hdw, hdr⟩ := hof u d hd
    obtain ⟨e₀, he₀, hew, her⟩ := hof v e he
    have := h.apart u v huv d₀ hd₀ e₀ he₀
    rwa [PtrCall.Apart, ← hdw, ← hdr, ← hew, ← her] at this

/-- A step that changes neither the references nor the objects. -/
theorem Inv.quiet (h : s.Inv) (hc : c ∈ s.call t) (hst : Steps s s' t c c')
    (hrefs : ∀ o, s'.refs o = s.refs o) (hcount : s'.refCount = s.refCount)
    (halive : s'.alive = s.alive) (hcons : s'.constructed = s.constructed)
    (hfreed : s'.released = s.released) (hno : ∀ o, c.stage ≠ .internalRelease o)
    (hno' : ∀ d ∈ c', ∀ o, d.stage ≠ .internalRelease o) : s'.Inv := by
  have hrel : ∀ o u, s'.Releasing o u ↔ s.Releasing o u := by
    intro o u
    rw [hst.releasing_iff]
    constructor
    · rintro (⟨-, d, hd, hs⟩ | ⟨-, hr⟩)
      · exact absurd hs (hno' d hd o)
      · exact hr
    · intro hr
      refine Or.inr ⟨?_, hr⟩
      rintro rfl
      obtain ⟨d, hd, hs⟩ := hr
      exact hno o (Option.mem_unique hc hd ▸ hs)
  obtain ⟨hok, hapart⟩ := h.steps_ok hc hst
  refine ⟨hok, hapart, fun o ↦ ?_, fun o ↦ ?_, fun o u hu ↦ ?_, fun o ↦ ?_⟩
  · rw [hcount, hrefs, h.count]
  · rw [halive, hrefs, h.alive]
    exact or_congr_right (exists_congr fun u ↦ (hrel o u).symm)
  · obtain ⟨hz, huniq⟩ := h.releasing o u ((hrel o u).mp hu)
    exact ⟨(hrefs o).trans hz, fun v hv ↦ huniq v ((hrel o v).mp hv)⟩
  · rw [hcons, hfreed, halive, h.once]

/-- The pointer that the step is about is the only one whose count may change. -/
theorem Steps.refersTo_congr (hst : Steps s s' t c c') (h : s.Inv) (hc : c ∈ s.call t)
    (hw : ∀ p ∈ c.writes, s'.object p = some o ∧ (∀ d ∈ c', d.pending ≠ some p) ↔
      s.object p = some o ∧ c.pending ≠ some p) (p : P) :
    s'.RefersTo o p ↔ s.RefersTo o p := by
  by_cases hp : p ∈ c.writes
  · rw [hst.refersTo h hc hp, hw p hp, RefersTo, h.pending_iff hc (Or.inl hp)]
  · exact hst.refersTo_other h hc hp

/-! ## The steps of a call -/

variable [DecidableEq P]

omit [DecidableEq P] in
/-- `dec_ref` of a null pointer. -/
theorem Inv.decRef_null (h : s.Inv) (hc : c ∈ s.call t) (hs : c.stage = .decRef)
    (hobj : s.object c.this = none) : (s.setCall t c.cleared).Inv := by
  have hst : Steps s (s.setCall t c.cleared) t c c.cleared :=
    steps_cleared (h.ok t c hc) rfl hobj fun _ _ ↦ rfl
  refine h.quiet hc hst (fun o ↦ refs_congr (hst.refersTo_congr h hc fun p _ ↦ ?_)) rfl rfl rfl rfl
    (by simp [hs]) fun d hd o ↦ by simp [(PtrCall.cleared_spec hd).2.2.2.1]
  refine and_congr_right fun _ ↦ ⟨fun _ ↦ by simp [PtrCall.pending, hs], fun _ d hd ↦ ?_⟩
  simp [PtrCall.cleared_pending hd]

/-- `object_ = nullptr` -/
theorem Inv.clear (h : s.Inv) (hc : c ∈ s.call t) (hs : c.stage = .clear) :
    ((s.setObject c.this none).setCall t c.cleared).Inv := by
  have hst : Steps s ((s.setObject c.this none).setCall t c.cleared) t c c.cleared :=
    steps_cleared (h.ok t c hc) rfl (Function.update_self ..) fun _ hp ↦
      Function.update_of_ne hp ..
  refine h.quiet hc hst (fun o ↦ refs_congr (hst.refersTo_congr h hc fun p _ ↦ ?_)) rfl rfl rfl rfl
    (by simp [hs]) fun d hd o ↦ by simp [(PtrCall.cleared_spec hd).2.2.2.1]
  by_cases hp : p = c.this
  · simp [hp, setCall, setObject, PtrCall.pending, hs]
  · have hobj : (s.setObject c.this none).object p = s.object p := Function.update_of_ne hp ..
    refine and_congr (by rw [← hobj]; rfl) ⟨fun _ ↦ ?_, fun _ d hd ↦
      by simp [PtrCall.cleared_pending hd]⟩
    simpa [PtrCall.pending, hs] using Ne.symm hp

/-- A copy is read before it is counted. -/
theorem Inv.loadCopy (h : s.Inv) (hc : c ∈ s.call t) (hs : c.stage = .load) {q : P}
    (hq : c.other = some q) (hm : c.moves = false) :
    ((s.setObject c.this (s.object q)).setCall t (some { c with stage := .addRef })).Inv := by
  obtain ⟨hne, hload⟩ := h.ok t c hc
  simp only [hs] at hload
  have hqne : q ≠ c.this := hne q hq
  have hst : Steps s ((s.setObject c.this (s.object q)).setCall t
      (some { c with stage := .addRef })) t c (some { c with stage := .addRef }) := by
    refine ⟨rfl, fun d hd ↦ ?_, fun d hd ↦ ?_, fun p hp ↦ ?_⟩
    · cases hd
      exact ⟨rfl, rfl, rfl⟩
    · cases hd
      refine ⟨hne, hm, q, hq, ?_⟩
      exact (Function.update_self ..).trans (Function.update_of_ne hqne ..).symm
    · exact Function.update_of_ne (c.ne_this hp) ..
  refine h.quiet hc hst (fun o ↦ refs_congr (hst.refersTo_congr h hc fun p hp ↦ ?_)) rfl rfl rfl rfl
    (by simp [hs]) fun d hd o ↦ by cases hd; simp
  obtain rfl := PtrCall.eq_this_of_mem hm hp
  simp [hload.1, PtrCall.pending]

/-- A move takes the reference over. -/
theorem Inv.loadMove (h : s.Inv) (hc : c ∈ s.call t) (hs : c.stage = .load) {q : P}
    (hq : c.other = some q) (hm : c.moves = true) :
    ((s.setObject c.this (s.object q)).setCall t (some { c with stage := .clearOther })).Inv := by
  obtain ⟨hne, hload⟩ := h.ok t c hc
  simp only [hs] at hload
  have hqne : q ≠ c.this := hne q hq
  have hqw : q ∈ c.writes := PtrCall.other_mem_writes hm hq
  have hst : Steps s ((s.setObject c.this (s.object q)).setCall t
      (some { c with stage := .clearOther })) t c (some { c with stage := .clearOther }) := by
    refine ⟨rfl, fun d hd ↦ ?_, fun d hd ↦ ?_, fun p hp ↦ ?_⟩
    · cases hd
      exact ⟨rfl, rfl, rfl⟩
    · cases hd
      exact ⟨hne, hm, hload.2⟩
    · exact Function.update_of_ne (c.ne_this hp) ..
  have hself : ((s.setObject c.this (s.object q)).setCall t
      (some { c with stage := .clearOther })).object c.this = s.object q := Function.update_self ..
  refine h.quiet hc hst (fun o ↦ ?_) rfl rfl rfl rfl
    (by simp [hs]) fun d hd o ↦ by cases hd; simp
  refine (count_exchange (Finset.mem_univ c.this) (Finset.mem_univ q) ?_ ?_ ?_ ?_).symm
  · rw [RefersTo, hload.1]
    simp
  · rw [hst.refersTo h hc hqw]
    simp [PtrCall.pending, hq]
  · rw [hst.refersTo h hc c.this_mem_writes, hself, RefersTo, h.pending_iff hc (Or.inl hqw)]
    simp [PtrCall.pending, hs, hq, hqne]
  · intro p _ hp hpq
    refine (hst.refersTo_other h hc ?_).symm
    simp [PtrCall.writes, hm, hq, hp, hpq]

/-- `other.object_ = nullptr` -/
theorem Inv.clearOther (h : s.Inv) (hc : c ∈ s.call t) (hs : c.stage = .clearOther) {q : P}
    (hq : c.other = some q) : ((s.setObject q none).setCall t none).Inv := by
  obtain ⟨hne, hm, -⟩ := by
    have := h.ok t c hc
    rw [Ok, hs] at this
    exact this
  have hqw : q ∈ c.writes := PtrCall.other_mem_writes hm hq
  have hst : Steps s ((s.setObject q none).setCall t none) t c none :=
    steps_done rfl fun p hp ↦ Function.update_of_ne (fun hpq ↦ by exact hp (hpq ▸ hqw)) ..
  refine h.quiet hc hst (fun o ↦ refs_congr (hst.refersTo_congr h hc fun p _ ↦ ?_)) rfl rfl rfl rfl
    (by simp [hs]) fun d hd o ↦ by cases hd
  by_cases hp : p = q
  · simp [hp, setCall, setObject, PtrCall.pending, hs, hq]
  · have hobj : (s.setObject q none).object p = s.object p := Function.update_of_ne hp ..
    refine and_congr (by rw [← hobj]; rfl) ⟨fun _ ↦ ?_, fun _ d hd ↦ by cases hd⟩
    simpa [PtrCall.pending, hs, hq] using Ne.symm hp

omit [DecidableEq P] in
/-- A null pointer has been copied. -/
theorem Inv.addRef_null (h : s.Inv) (hc : c ∈ s.call t) (hs : c.stage = .addRef)
    (hobj : s.object c.this = none) : (s.setCall t none).Inv := by
  obtain ⟨-, hm, -⟩ := by
    have := h.ok t c hc
    rw [Ok, hs] at this
    exact this
  have hst : Steps s (s.setCall t none) t c none :=
    steps_done rfl fun _ _ ↦ rfl
  refine h.quiet hc hst (fun o ↦ refs_congr (hst.refersTo_congr h hc fun p hp ↦ ?_)) rfl rfl rfl rfl
    (by simp [hs]) fun d hd o ↦ by cases hd
  obtain rfl := PtrCall.eq_this_of_mem hm hp
  simp [setCall, hobj]

variable [DecidableEq O]

omit [DecidableEq T] [DecidableEq P] [DecidableEq O] in
/-- The count of an object is one exactly if there is one reference. -/
theorem Inv.refCount_eq_one (hP : Fintype.card P < 2 ^ 32) (h : s.Inv) :
    s.refCount o = 1 ↔ s.refs o = 1 := by
  have hle := s.refs_le o
  have hone : (1 : UInt32) = UInt32.ofNat 1 := rfl
  rw [h.count, hone, ← UInt32.toNat_inj, UInt32.toNat_ofNat', UInt32.toNat_ofNat']
  omega

omit [DecidableEq O] in
/-- A step with which the call holds its own pointer back. -/
theorem Steps.refersTo_drop (hst : Steps s s' t c (some d)) (h : s.Inv) (hc : c ∈ s.call t)
    (hs : c.stage = .decRef) (hpend : d.pending = some c.this) (hobj : s'.object = s.object)
    (p : P) : s'.RefersTo o p ↔ s.RefersTo o p ∧ p ≠ c.this := by
  have hnot : c.pending = none := by rw [PtrCall.pending, hs]
  by_cases hp : p ∈ c.writes
  · rw [hst.refersTo h hc hp, hobj, RefersTo, h.pending_iff hc (Or.inl hp), hnot]
    simp [hpend, eq_comm]
  · rw [hst.refersTo_other h hc hp]
    exact (and_iff_left (c.ne_this hp)).symm

omit [Fintype P] [DecidableEq P] [DecidableEq O] in
/-- A call that has not been about to destroy an object. -/
theorem Steps.releasing_iff_of_not (hst : Steps s s' t c (some d)) (hc : c ∈ s.call t)
    (hno : c.stage ≠ .internalRelease o) :
    s'.Releasing o u ↔ (u = t ∧ d.stage = .internalRelease o) ∨ s.Releasing o u := by
  rw [hst.releasing_iff]
  constructor
  · rintro (⟨rfl, e, he, hse⟩ | ⟨-, hr⟩)
    · cases he
      exact Or.inl ⟨rfl, hse⟩
    · exact Or.inr hr
  · rintro (⟨rfl, hse⟩ | hr)
    · exact Or.inl ⟨rfl, d, rfl, hse⟩
    · refine Or.inr ⟨?_, hr⟩
      rintro rfl
      obtain ⟨e, he, hse⟩ := hr
      exact hno (Option.mem_unique he hc ▸ hse)

omit [DecidableEq P] in
/-- One reference goes, and whoever drops the last one is to destroy the object. -/
theorem Inv.loses (h : s.Inv) (hc : c ∈ s.call t) (hst : Steps s s' t c c')
    (hlose : s.refs o = s'.refs o + 1) (hrefs : ∀ o', o' ≠ o → s'.refs o' = s.refs o')
    (hcount : s'.refCount = update s.refCount o (s.refCount o - 1)) (halive : s'.alive = s.alive)
    (hrel : ∀ o' u, s'.Releasing o' u ↔ (u = t ∧ o' = o ∧ s'.refs o = 0) ∨ s.Releasing o' u)
    (hcons : s'.constructed = s.constructed) (hfreed : s'.released = s.released) : s'.Inv := by
  have hnone : ∀ u, ¬s.Releasing o u := fun u hu ↦ by
    have := (h.releasing o u hu).1
    omega
  obtain ⟨hok, hapart⟩ := h.steps_ok hc hst
  refine ⟨hok, hapart, fun o' ↦ ?_, fun o' ↦ ?_, fun o' u hu ↦ ?_, fun o' ↦ ?_⟩
  · rw [hcount]
    by_cases hne : o' = o
    · subst hne
      rw [Function.update_self, h.count, hlose, UInt32.ofNat_add]
      exact UInt32.add_sub_cancel ..
    · rw [Function.update_of_ne hne, hrefs o' hne, h.count]
  · rw [halive, h.alive]
    by_cases hne : o' = o
    · subst hne
      refine iff_of_true (Or.inl (by omega)) ?_
      rcases Nat.eq_zero_or_pos (s'.refs o') with hz | hpos
      · exact Or.inr ⟨t, (hrel o' t).mpr (Or.inl ⟨rfl, rfl, hz⟩)⟩
      · exact Or.inl hpos
    · rw [hrefs o' hne]
      refine or_congr_right (exists_congr fun u ↦ ?_)
      simp [hrel, hne]
  · rcases (hrel o' u).mp hu with ⟨rfl, rfl, hz⟩ | hr
    · refine ⟨hz, fun v hv ↦ ?_⟩
      rcases (hrel o' v).mp hv with ⟨rfl, -⟩ | hr
      · rfl
      · exact absurd hr (hnone v)
    · have hne : o' ≠ o := fun hne ↦ hnone u (hne ▸ hr)
      obtain ⟨hz, huniq⟩ := h.releasing o' u hr
      refine ⟨(hrefs o' hne).trans hz, fun v hv ↦ ?_⟩
      rcases (hrel o' v).mp hv with ⟨-, hc', -⟩ | hr'
      · exact absurd hc' hne
      · exact huniq v hr'
  · rw [hcons, hfreed, halive, h.once]

/-- `dec_ref` -/
theorem Inv.decRef (hP : Fintype.card P < 2 ^ 32) (h : s.Inv) (hc : c ∈ s.call t)
    (hs : c.stage = .decRef) (hobj : s.object c.this = some o) :
    ((s.setRefCount o (s.refCount o - 1)).setCall t (some { c with
      stage := if s.refCount o = 1 then .internalRelease o else .clear })).Inv := by
  generalize hd : ({ c with
    stage := if s.refCount o = 1 then .internalRelease o else .clear } : PtrCall P O) = d
  generalize hs' : (s.setRefCount o (s.refCount o - 1)).setCall t (some d) = s'
  have hpend : d.pending = some c.this := by
    rw [← hd, PtrCall.pending]
    split_ifs <;> rfl
  have hobj' : s'.object = s.object := by rw [← hs']; rfl
  have hst : Steps s s' t c (some d) := by
    refine ⟨by rw [← hs']; rfl, fun e he ↦ ?_, fun e he ↦ ?_, fun p _ ↦ congrFun hobj' p⟩
    · cases he
      rw [← hd]
      exact ⟨rfl, rfl, rfl⟩
    · cases he
      rw [← hd]
      refine ⟨(h.ok t c hc).1, ?_⟩
      dsimp only
      split_ifs <;> trivial
  have hrefers : ∀ o' p, s'.RefersTo o' p ↔ s.RefersTo o' p ∧ p ≠ c.this := fun _ p ↦
    hst.refersTo_drop h hc hs hpend hobj' p
  have hthis : s.RefersTo o c.this := by
    refine ⟨hobj, ?_⟩
    rw [h.pending_iff hc (Or.inl c.this_mem_writes), PtrCall.pending, hs]
    simp
  have hlose : s.refs o = s'.refs o + 1 := by
    refine refs_lose hthis (fun hc' ↦ ((hrefers o _).mp hc').2 rfl) fun q hq ↦ ?_
    exact (hrefers o q).trans (and_iff_left hq)
  refine h.loses hc hst hlose (fun o' hne ↦ refs_congr fun p ↦ ?_) (by rw [← hs']; rfl)
    (by rw [← hs']; rfl) (fun o' u ↦ ?_) (by rw [← hs']; rfl) (by rw [← hs']; rfl)
  · refine (hrefers o' p).trans (and_iff_left_of_imp fun hp ↦ ?_)
    rintro rfl
    exact hne (Option.some_inj.mp (hp.1.symm.trans hobj))
  · have hone := h.refCount_eq_one hP (o := o)
    rw [hst.releasing_iff_of_not hc (by simp [hs]), ← hd]
    refine or_congr_left (and_congr_right fun _ ↦ ?_)
    dsimp only
    split_ifs with h1
    · have hz : s'.refs o = 0 := by
        have := hone.mp h1
        omega
      simp [eq_comm, hz]
    · have hnz : s'.refs o ≠ 0 := by
        have := mt hone.mpr h1
        omega
      simp [hnz]

omit [DecidableEq P] in
/-- `internal_release` -/
theorem Inv.internalRelease (h : s.Inv) (hc : c ∈ s.call t) (hs : c.stage = .internalRelease o) :
    ((s.internalRelease o).setCall t (some { c with stage := .clear })).Inv := by
  generalize hs' : (s.internalRelease o).setCall t (some { c with stage := .clear }) = s'
  have hst : Steps s s' t c (some { c with stage := .clear }) := by
    rw [← hs']
    refine ⟨rfl, fun d hd ↦ ?_, fun d hd ↦ ?_, fun _ _ ↦ rfl⟩
    · cases hd
      exact ⟨rfl, rfl, rfl⟩
    · cases hd
      exact ⟨(h.ok t c hc).1, trivial⟩
  have hobj' : s'.object = s.object := by rw [← hs']; rfl
  have hrefs : ∀ o', s'.refs o' = s.refs o' := fun o' ↦ refs_congr <|
    hst.refersTo_congr h hc fun p _ ↦ by simp [hobj', PtrCall.pending, hs]
  have halive : s'.alive = update s.alive o false := by rw [← hs']; rfl
  have hrel₀ : s.Releasing o t := ⟨c, hc, hs⟩
  obtain ⟨hz, huniq⟩ := h.releasing o t hrel₀
  have hrel : ∀ o' u, s'.Releasing o' u ↔ o' ≠ o ∧ s.Releasing o' u := by
    intro o' u
    rw [hst.releasing_iff]
    constructor
    · rintro (⟨-, d, hd, hsd⟩ | ⟨hut, hr⟩)
      · cases hd
        cases hsd
      · exact ⟨fun hne ↦ hut (huniq u (hne ▸ hr)), hr⟩
    · rintro ⟨hne, hr⟩
      refine Or.inr ⟨?_, hr⟩
      rintro rfl
      obtain ⟨d, hd, hsd⟩ := hr
      rw [Option.mem_unique hd hc, hs] at hsd
      exact hne (PtrStage.internalRelease.inj hsd).symm
  obtain ⟨hok, hapart⟩ := h.steps_ok hc hst
  refine ⟨hok, hapart, fun o' ↦ ?_, fun o' ↦ ?_, fun o' u hu ↦ ?_, fun o' ↦ ?_⟩
  · rw [hrefs, ← h.count, ← hs']
    rfl
  · rw [halive, hrefs]
    by_cases hne : o' = o
    · subst hne
      simp [hz, hrel]
    · rw [Function.update_of_ne hne, h.alive]
      simp [hrel, hne]
  · obtain ⟨-, hr⟩ := (hrel o' u).mp hu
    obtain ⟨hz', huniq'⟩ := h.releasing o' u hr
    exact ⟨(hrefs o').trans hz', fun v hv ↦ huniq' v ((hrel o' v).mp hv).2⟩
  · have hcons : s'.constructed = s.constructed := by rw [← hs']; rfl
    have hfreed : s'.released = update s.released o (s.released o + 1) := by rw [← hs']; rfl
    rw [hcons, hfreed, halive, h.once]
    by_cases hne : o' = o
    · subst hne
      simp [(h.alive o').mpr (Or.inr ⟨t, hrel₀⟩)]
    · simp [Function.update_of_ne hne]

omit [DecidableEq T] [DecidableEq P] in
/-- One more reference to an object that has one. -/
theorem Inv.gains (h : s.Inv) (hok : ∀ t, ∀ c ∈ s'.call t, s'.Ok c)
    (hapart : ∀ t u, t ≠ u → ∀ c ∈ s'.call t, ∀ d ∈ s'.call u, c.Apart d)
    (hgain : s'.refs o = s.refs o + 1) (hrefs : ∀ o', o' ≠ o → s'.refs o' = s.refs o')
    (hcount : s'.refCount = update s.refCount o (s.refCount o + 1))
    (halive : s'.alive = update s.alive o true)
    (hnone : ∀ u, ¬s.Releasing o u) (hrel : ∀ o' u, s'.Releasing o' u ↔ s.Releasing o' u)
    (honce : ∀ o', s'.constructed o' = s'.released o' + if s'.alive o' = true then 1 else 0) :
    s'.Inv := by
  refine ⟨hok, hapart, fun o' ↦ ?_, fun o' ↦ ?_, fun o' u hu ↦ ?_, honce⟩
  · rw [hcount]
    by_cases hne : o' = o
    · subst hne
      rw [Function.update_self, h.count, hgain, UInt32.ofNat_add]
      rfl
    · rw [Function.update_of_ne hne, hrefs o' hne, h.count]
  · rw [halive]
    by_cases hne : o' = o
    · subst hne
      simp [hgain]
    · simp [Function.update_of_ne hne, h.alive, hrefs o' hne, hrel]
  · have hr := (hrel o' u).mp hu
    have hne : o' ≠ o := fun hne ↦ hnone u (hne ▸ hr)
    obtain ⟨hz, huniq⟩ := h.releasing o' u hr
    exact ⟨(hrefs o' hne).trans hz, fun v hv ↦ huniq v ((hrel o' v).mp hv)⟩

/-- `add_ref` counts the copy of a pointer that nobody else writes. -/
theorem Inv.addRef (h : s.Inv) (hc : c ∈ s.call t) (hs : c.stage = .addRef)
    (hobj : s.object c.this = some o) :
    ((s.setRefCount o (s.refCount o + 1)).setCall t none).Inv := by
  generalize hs' : (s.setRefCount o (s.refCount o + 1)).setCall t none = s'
  obtain ⟨hne, hm, q, hq, hsame⟩ := by
    have := h.ok t c hc
    rw [Ok, hs] at this
    exact this
  have hst : Steps s s' t c none := steps_done (by rw [← hs']; rfl) fun _ _ ↦ by rw [← hs']; rfl
  have hobj' : s'.object = s.object := by rw [← hs']; rfl
  -- the pointer it was copied from is counted
  have hother : s.RefersTo o q := by
    refine ⟨hsame.symm.trans hobj, ?_⟩
    rw [h.pending_iff hc (PtrCall.other_mem hq), PtrCall.pending, hs]
    simpa using Ne.symm (hne q hq)
  have hpos := refs_pos hother
  have hnot : ¬s.RefersTo o c.this := fun hr ↦
    hr.2 ⟨t, c, hc, by rw [PtrCall.pending, hs]⟩
  have hthis : s'.RefersTo o c.this := by
    rw [hst.refersTo h hc c.this_mem_writes, hobj']
    exact ⟨hobj, fun d hd ↦ (Option.not_mem_none _ hd).elim⟩
  have hrest : ∀ o' p, p ≠ c.this → (s'.RefersTo o' p ↔ s.RefersTo o' p) := fun o' p hp ↦
    hst.refersTo_other h hc fun hw ↦ hp (PtrCall.eq_this_of_mem hm hw)
  obtain ⟨hok, hapart⟩ := h.steps_ok hc hst
  have halive : s.alive o = true := (h.alive o).mpr (Or.inl hpos)
  refine h.gains hok hapart (refs_lose hthis hnot fun p hp ↦ (hrest o p hp).symm)
    (fun o' hne' ↦ refs_congr fun p ↦ ?_) (by rw [← hs']; rfl) ?_ (fun u hu ↦ ?_)
    (fun o' u ↦ ?_) fun o' ↦ by rw [← hs']; exact h.once o'
  · by_cases hp : p = c.this
    · subst hp
      have hno : s.object c.this ≠ some o' := fun hc' ↦
        hne' (Option.some_inj.mp (hc'.symm.trans hobj))
      exact iff_of_false (fun hr ↦ hno (hobj' ▸ hr.1)) fun hr ↦ hno hr.1
    · exact hrest o' p hp
  · rw [← hs', ← halive, Function.update_eq_self]
    rfl
  · have := (h.releasing o u hu).1
    omega
  · rw [hst.releasing_iff]
    constructor
    · rintro (⟨-, d, hd, -⟩ | ⟨-, hr⟩)
      · exact (Option.not_mem_none _ hd).elim
      · exact hr
    · intro hr
      refine Or.inr ⟨?_, hr⟩
      rintro rfl
      obtain ⟨d, hd, hsd⟩ := hr
      rw [Option.mem_unique hd hc, hs] at hsd
      cases hsd

/-- **A step of a call.** -/
theorem Inv.stepCall (hP : Fintype.card P < 2 ^ 32) (h : s.Inv) (hc : c ∈ s.call t) :
    ((s.stepCall c).1.setCall t (s.stepCall c).2).Inv := by
  cases hs : c.stage with
  | decRef =>
    cases hobj : s.object c.this with
    | none => simpa only [ObjectPtrs.stepCall, hs, hobj] using h.decRef_null hc hs hobj
    | some o => simpa only [ObjectPtrs.stepCall, hs, hobj] using h.decRef hP hc hs hobj
  | internalRelease o => simpa only [ObjectPtrs.stepCall, hs] using h.internalRelease hc hs
  | clear => simpa only [ObjectPtrs.stepCall, hs] using h.clear hc hs
  | load =>
    cases hq : c.other with
    | none =>
      have := (h.ok t c hc).2
      simp [hs, hq] at this
    | some q =>
      cases hm : c.moves with
      | false => simpa [ObjectPtrs.stepCall, hs, hq, hm] using h.loadCopy hc hs hq hm
      | true => simpa [ObjectPtrs.stepCall, hs, hq, hm] using h.loadMove hc hs hq hm
  | addRef =>
    cases hobj : s.object c.this with
    | none => simpa only [ObjectPtrs.stepCall, hs, hobj] using h.addRef_null hc hs hobj
    | some o => simpa only [ObjectPtrs.stepCall, hs, hobj] using h.addRef hc hs hobj
  | clearOther =>
    cases hq : c.other with
    | none =>
      have := (h.ok t c hc).2
      simp [hs, hq] at this
    | some q => simpa only [ObjectPtrs.stepCall, hs, hq] using h.clearOther hc hs hq

/-! ## Starting a call, and constructing an object -/

omit [DecidableEq P] [DecidableEq O] in
/-- A call that is started holds nothing back. -/
theorem Inv.start (h : s.Inv) (hnone : s.call t = none) (hc : s.Ok c) (hunused : s.Unused c)
    (hpend : c.pending = none) (hno : ∀ o, c.stage ≠ .internalRelease o) :
    (s.setCall t (some c)).Inv := by
  generalize hs' : s.setCall t (some c) = s'
  have hcall : s'.call = update s.call t (some c) := by rw [← hs']; rfl
  have hof : ∀ u, ∀ d ∈ s'.call u, u = t ∧ d = c ∨ u ≠ t ∧ d ∈ s.call u := by
    intro u d hd
    rw [hcall] at hd
    by_cases hut : u = t
    · subst hut
      rw [Function.update_self] at hd
      exact Or.inl ⟨rfl, (Option.mem_some_iff.mp hd).symm⟩
    · exact Or.inr ⟨hut, by rwa [Function.update_of_ne hut] at hd⟩
  have hback : ∀ u, ∀ d ∈ s.call u, d ∈ s'.call u := by
    intro u d hd
    have hut : u ≠ t := by
      rintro rfl
      rw [hnone] at hd
      exact (Option.not_mem_none _ hd).elim
    rwa [hcall, Function.update_of_ne hut]
  have hrefs : ∀ o, s'.refs o = s.refs o := fun o ↦ refs_congr fun p ↦ by
    refine and_congr (by rw [← hs']; rfl) (not_congr ⟨?_, ?_⟩)
    · rintro ⟨u, d, hd, hp⟩
      rcases hof u d hd with ⟨-, rfl⟩ | ⟨-, hd⟩
      · rw [hpend] at hp
        cases hp
      · exact ⟨u, d, hd, hp⟩
    · rintro ⟨u, d, hd, hp⟩
      exact ⟨u, d, hback u d hd, hp⟩
  have hrel : ∀ o u, s'.Releasing o u ↔ s.Releasing o u := by
    refine fun o u ↦ ⟨?_, fun ⟨d, hd, hsd⟩ ↦ ⟨d, hback u d hd, hsd⟩⟩
    rintro ⟨d, hd, hsd⟩
    rcases hof u d hd with ⟨-, rfl⟩ | ⟨-, hd⟩
    · exact absurd hsd (hno o)
    · exact ⟨d, hd, hsd⟩
  refine ⟨fun u d hd ↦ ?_, fun u v huv d hd e he ↦ ?_, fun o ↦ ?_, fun o ↦ ?_, fun o u hu ↦ ?_,
    fun o ↦ by rw [← hs']; exact h.once o⟩
  · have hcongr : ∀ {e}, s.Ok e → s'.Ok e := fun he ↦
      he.congr (by rw [← hs']; rfl) fun _ _ ↦ by rw [← hs']; rfl
    rcases hof u d hd with ⟨-, rfl⟩ | ⟨-, hd⟩
    · exact hcongr hc
    · exact hcongr (h.ok u d hd)
  · rcases hof u d hd with ⟨rfl, rfl⟩ | ⟨-, hd⟩
    · rcases hof v e he with ⟨rfl, -⟩ | ⟨-, he⟩
      · exact absurd rfl huv
      · exact hunused v e he
    · rcases hof v e he with ⟨rfl, rfl⟩ | ⟨-, he⟩
      · exact (hunused u d hd).symm
      · exact h.apart u v huv d hd e he
  · rw [hrefs, ← h.count, ← hs']
    rfl
  · rw [hrefs, ← exists_congr (hrel o · |>.symm), ← h.alive, ← hs']
    rfl
  · obtain ⟨hz, huniq⟩ := h.releasing o u ((hrel o u).mp hu)
    exact ⟨(hrefs o).trans hz, fun v hv ↦ huniq v ((hrel o v).mp hv)⟩

/-- A new object has the one reference it starts with. -/
theorem Inv.construct (h : s.Inv) (hl : s.Legal (.construct p o))
    (hn : s.next (.construct p o) = some s') :
    s'.Inv := by
  obtain ⟨hdead, hnull, hunused⟩ := hl
  have hfree : ∀ u, ∀ d ∈ s.call u, p ∉ d.writes ∧ p ∉ d.reads := fun u d hd ↦
    (hunused u d hd).1 p (List.mem_singleton_self p)
  simp only [ObjectPtrs.next, Option.some_inj] at hn
  have hobj : s'.object = update s.object p (some o) := by rw [← hn]; rfl
  have hcall : s'.call = s.call := by rw [← hn]; rfl
  have hno : ¬(0 < s.refs o ∨ ∃ t, s.Releasing o t) := by
    rw [← h.alive, hdead]
    exact Bool.false_ne_true
  have hzero : s.refs o = 0 := by
    have := mt Or.inl hno
    omega
  have hpend : ∀ q, s'.Pending q ↔ s.Pending q := fun q ↦ by rw [Pending, Pending, hcall]
  have hfirst : ¬s.Pending p := by
    rintro ⟨u, d, hd, hp⟩
    exact (hfree u d hd).1 ((h.ok u d hd).pending_mem hp)
  have hrest : ∀ o' q, q ≠ p → (s'.RefersTo o' q ↔ s.RefersTo o' q) := fun o' q hq ↦ by
    rw [RefersTo, RefersTo, hpend, hobj, Function.update_of_ne hq]
  have hthis : ∀ o', s'.RefersTo o' p ↔ o' = o := fun o' ↦ by
    rw [RefersTo, hpend, hobj, Function.update_self, and_iff_left hfirst, Option.some_inj, eq_comm]
  have hbefore : ∀ o', ¬s.RefersTo o' p := fun o' hr ↦ by
    rw [RefersTo, hnull] at hr
    cases hr.1
  refine h.gains (fun u d hd ↦ ?_) (by rw [hcall]; exact h.apart)
    (refs_lose ((hthis o).mpr rfl) (hbefore o) fun q hq ↦ (hrest o q hq).symm)
    (fun o' hne ↦ refs_congr fun q ↦ ?_) ?_ (by rw [← hn]) (fun u hu ↦ hno (Or.inr ⟨u, hu⟩))
    (fun o' u ↦ by rw [Releasing, Releasing, hcall]) fun o' ↦ ?_
  · rw [hcall] at hd
    obtain ⟨hw, hr⟩ := hfree u d hd
    refine (h.ok u d hd).congr ?_ fun q hq ↦ ?_
    · rw [hobj, Function.update_of_ne (d.ne_this hw).symm]
    · rw [hobj, Function.update_of_ne]
      rintro rfl
      exact (PtrCall.other_mem hq).elim hw hr
  · by_cases hq : q = p
    · subst hq
      exact iff_of_false (fun hr ↦ hne ((hthis o').mp hr)) (hbefore o')
    · exact hrest o' q hq
  · have hone : s.refCount o + 1 = 1 := by
      rw [h.count, hzero]
      rfl
    rw [hone, ← hn]
    rfl
  · have hcons : s'.constructed = update s.constructed o (s.constructed o + 1) := by rw [← hn]
    have hfreed : s'.released = s.released := by rw [← hn]; rfl
    have halive : s'.alive = update s.alive o true := by rw [← hn]
    rw [hcons, hfreed, halive]
    by_cases hne : o' = o
    · subst hne
      simp [h.once, hdead]
    · simp [Function.update_of_ne hne, h.once]

/-! ## Every run -/

theorem inv_init : (machine T P O).init.Inv := by
  have hrefs : ∀ o, (machine T P O).init.refs o = 0 := fun o ↦
    count_eq_zero fun p _ hp ↦ by
      have hobj : (none : Option O) = some o := hp.1
      cases hobj
  refine ⟨fun t c hc ↦ (by cases hc), fun t u _ c hc ↦ (by cases hc), fun o ↦ ?_, fun o ↦ ?_,
    fun o t ⟨c, hc, _⟩ ↦ (by cases hc), fun o ↦ rfl⟩
  · rw [hrefs]
    rfl
  · refine iff_of_false Bool.false_ne_true ?_
    rw [hrefs]
    rintro (hc | ⟨t, c, hc, -⟩)
    · exact absurd hc (Nat.lt_irrefl 0)
    · cases hc

theorem Inv.next (hP : Fintype.card P < 2 ^ 32) {e : PtrEvent T P O} (h : s.Inv) (hl : s.Legal e)
    (hn : s.next e = some s') : s'.Inv := by
  cases e with
  | construct p o => exact h.construct hl hn
  | step t =>
    obtain ⟨c, hc, rfl⟩ := Option.map_eq_some_iff.mp hn
    exact h.stepCall hP hc
  | destroy t p =>
    simp only [ObjectPtrs.next, started?] at hn
    split_ifs at hn with hnone
    cases hn
    exact h.start hnone ⟨fun q hq ↦ (by cases hq), trivial⟩ hl rfl (by simp)
  | copy t p other =>
    obtain ⟨hnull, hne, hunused⟩ := hl
    simp only [ObjectPtrs.next, started?] at hn
    split_ifs at hn with hnone
    cases hn
    exact h.start hnone ⟨fun q hq ↦ (by cases hq; exact hne.symm), hnull, rfl⟩ hunused rfl (by simp)
  | move t p other =>
    obtain ⟨hnull, hne, hunused⟩ := hl
    simp only [ObjectPtrs.next, started?] at hn
    split_ifs at hn with hnone
    cases hn
    exact h.start hnone ⟨fun q hq ↦ (by cases hq; exact hne.symm), hnull, rfl⟩ hunused rfl (by simp)
  | assign t p other =>
    simp only [ObjectPtrs.next, started?] at hn
    split_ifs at hn with hnone heq
    · cases hn
      rwa [setCall, ← hnone, Function.update_eq_self]
    · cases hn
      exact h.start hnone ⟨fun q hq ↦ (by cases hq; exact Ne.symm heq), trivial⟩ hl rfl (by simp)
  | moveAssign t p other =>
    simp only [ObjectPtrs.next, started?] at hn
    split_ifs at hn with hnone heq
    · cases hn
      rwa [setCall, ← hnone, Function.update_eq_self]
    · cases hn
      exact h.start hnone ⟨fun q hq ↦ (by cases hq; exact Ne.symm heq), trivial⟩ hl rfl (by simp)

end ObjectPtrs

end Chino
