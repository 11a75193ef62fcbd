import Chino.Io.Device

/-!
# The requests of one device

The drivers below a device see its requests one at a time: a thread queues a request, the worker
takes it off `irps_` and hands it to `process_io`, and a request that `process_io` leaves alone goes
to `pending_irps_` until an interrupt handler queues it again.  `DeviceQueue` is these two lists,
with the operations of `device.cpp` on them.

The requests of a run are numbered in the order in which they are queued first, so what the `n`-th
one asks for is a function of `n` that the run is given.

`Spells` is the invariant of the two lists and of the request that is in the worker's hand, and
every operation has one lemma that says what it does to them.

## What the drivers use

`submit`, `take`, `queuePending` and `requeuePending` are all that a driver does with its lists, or
has done for it.  Each has a lemma that says what becomes of the two sequences and of the hand:

* `submit` puts the next number at the end of `irps_`;
* `take` moves the front of `irps_` to the hand;
* `queuePending` moves the hand to the end of `pending_irps_`;
* `requeuePending` moves the first pending request with a property to the end of `irps_`, and fails
  if there is none (`requeuePending_none`).

The pointers are those of `Chino.Io.Device`, with one device in use.  No request is on both lists or
twice on one, so what is said about numbers is said about requests.
-/

set_option autoImplicit false

namespace Chino

open Function (update)

/-- A `std::span` of bytes. -/
structure Buffer where
  data : ℕ
  size : ℕ
deriving DecidableEq

/-- The current frame of a request, and the buffer in its parameters. -/
structure Request where
  kind : IoFrameKind
  buffer : Buffer
deriving DecidableEq

/-- `make_io_frame_kind(io_frame_major_kind::generic, io_frame_generic_kind::read)` -/
def ioRead : IoFrameKind := ⟨.generic, 1⟩

/-- `make_io_frame_kind(io_frame_major_kind::generic, io_frame_generic_kind::write)` -/
def ioWrite : IoFrameKind := ⟨.generic, 2⟩

/-- The lists of a device, as far as its driver sees them. -/
structure DeviceQueue where
  lists : IoLists
  /-- How many requests have been queued. -/
  queued : ℕ

namespace DeviceQueue

/-- No request has been queued. -/
def init : DeviceQueue := ⟨Heap.init, 0⟩

variable (d : DeviceId)

/-- `queue_io` of the next request. -/
def submit (q : DeviceQueue) : Option DeviceQueue := do
  let l ← q.lists.pushBack (.irps d) q.queued
  some ⟨l, q.queued + 1⟩

/-- The locked section of `process_queued_ios`. -/
def take (q : DeviceQueue) : Option (Option IrpId × DeviceQueue) := do
  let (irp, l) ← Device.takeIrp q.lists d
  some (irp, { q with lists := l })

/-- `queue_pending_io` -/
def queuePending (q : DeviceQueue) (i : IrpId) : Option DeviceQueue := do
  let l ← q.lists.pushBack (.pending d) i
  some { q with lists := l }

/-- `requeue_pending_io`.  There is no next state if the assertion fails. -/
def requeuePending (q : DeviceQueue) (pred : IrpId → Bool) : Option DeviceQueue := do
  let (irp, l) ← Device.takePending q.lists d pred
  let i ← irp
  let l ← l.pushBack (.irps d) i
  some { q with lists := l }

/-- `irps_` -/
def irps (q : DeviceQueue) : List IrpId := q.lists.toList (.irps d)

/-- `pending_irps_` -/
def pending (q : DeviceQueue) : List IrpId := q.lists.toList (.pending d)

/-- A device with the lists `xs` and `ys`, and no other one. -/
def queues (xs ys : List IrpId) : IoQueues
  | .irps e => if e = d then xs else []
  | .pending e => if e = d then ys else []

/-- The lists are `xs` and `ys`, and the worker has `hand` in its hand. -/
structure Spells (q : DeviceQueue) (xs ys : List IrpId) (hand : Option IrpId) : Prop where
  rep : q.lists.Represents (queues d xs ys)
  lt : ∀ i, i ∈ xs ∨ i ∈ ys ∨ hand = some i → i < q.queued
  hand : ∀ i, hand = some i → i ∉ xs ∧ i ∉ ys

variable {d} {q : DeviceQueue} {xs ys zs : List IrpId} {hand : Option IrpId} {i : IrpId}

@[simp] theorem queues_irps : queues d xs ys (.irps d) = xs := if_pos rfl

@[simp] theorem queues_pending : queues d xs ys (.pending d) = ys := if_pos rfl

theorem update_irps : update (queues d xs ys) (.irps d) zs = queues d zs ys := by
  funext l
  by_cases hl : l = .irps d
  · rw [hl, Function.update_self, queues_irps]
  · rw [Function.update_of_ne hl]
    cases l with
    | irps e => simp only [queues, if_neg fun he ↦ hl (congrArg IoListId.irps he)]
    | pending e => rfl

theorem update_pending : update (queues d xs ys) (.pending d) zs = queues d xs zs := by
  funext l
  by_cases hl : l = .pending d
  · rw [hl, Function.update_self, queues_pending]
  · rw [Function.update_of_ne hl]
    cases l with
    | pending e => simp only [queues, if_neg fun he ↦ hl (congrArg IoListId.pending he)]
    | irps e => rfl

theorem notMem_queues (hx : i ∉ xs) (hy : i ∉ ys) (l : IoListId) : i ∉ queues d xs ys l := by
  cases l with
  | irps e => simp only [queues]; split <;> simp [hx]
  | pending e => simp only [queues]; split <;> simp [hy]

theorem spells_init : init.Spells d [] [] none where
  rep := by
    have hnil : queues d [] [] = fun _ ↦ [] := by
      funext l
      cases l <;> simp [queues]
    rw [hnil]
    exact Heap.represents_init
  lt _ h := by simp at h
  hand _ h := by cases h

namespace Spells

theorem irps_eq (h : q.Spells d xs ys hand) : q.irps d = xs := by
  rw [irps, h.rep.toList_eq, queues_irps]

theorem pending_eq (h : q.Spells d xs ys hand) : q.pending d = ys := by
  rw [pending, h.rep.toList_eq, queues_pending]

theorem nodup_pending (h : q.Spells d xs ys hand) : ys.Nodup := by
  have := h.rep.nodup (.pending d)
  rwa [queues_pending] at this

/-- No request is on both lists. -/
theorem disjoint (h : q.Spells d xs ys hand) (hx : i ∈ xs) : i ∉ ys := fun hy ↦ by
  cases h.rep.disjoint (.irps d) (.pending d) i (by simpa using hx) (by simpa using hy)

/-- The worker lets go of its request. -/
theorem release (h : q.Spells d xs ys hand) : q.Spells d xs ys none where
  rep := h.rep
  lt i hi := h.lt i <| by
    rcases hi with hi | hi | hi
    · exact Or.inl hi
    · exact Or.inr (Or.inl hi)
    · cases hi
  hand _ hi := by cases hi

theorem submit (h : q.Spells d xs ys hand) : ∃ q', q.submit d = some q' ∧
    q'.queued = q.queued + 1 ∧ q'.Spells d (xs ++ [q.queued]) ys hand := by
  have hx : q.queued ∉ xs := fun hm ↦ Nat.lt_irrefl _ (h.lt _ (Or.inl hm))
  have hy : q.queued ∉ ys := fun hm ↦ Nat.lt_irrefl _ (h.lt _ (Or.inr (Or.inl hm)))
  obtain ⟨l, hl, hr⟩ := h.rep.pushBack_spec (l := .irps d) (notMem_queues hx hy)
  rw [queues_irps, update_irps] at hr
  refine ⟨⟨l, q.queued + 1⟩, by simp [DeviceQueue.submit, hl], rfl, hr, fun i hi ↦ ?_,
    fun i hi ↦ ?_⟩
  · simp only [List.mem_append, List.mem_singleton] at hi
    rcases hi with (hi | rfl) | hi
    · exact Nat.lt_succ_of_lt (h.lt i (Or.inl hi))
    · exact Nat.lt_succ_self _
    · exact Nat.lt_succ_of_lt (h.lt i (Or.inr hi))
  · obtain ⟨h1, h2⟩ := h.hand i hi
    have hne : i ≠ q.queued := Nat.ne_of_lt (h.lt i (Or.inr (Or.inr hi)))
    exact ⟨by simp [h1, hne], h2⟩

theorem take_nil (h : q.Spells d [] ys hand) : q.take d = some (none, q) := by
  simp [take, Device.takeIrp_nil h.rep queues_irps]

theorem take_cons (h : q.Spells d (i :: xs) ys none) : ∃ q', q.take d = some (some i, q') ∧
    q'.queued = q.queued ∧ q'.Spells d xs ys (some i) := by
  obtain ⟨l, hl, hr⟩ := Device.takeIrp_cons h.rep
    (show queues d (i :: xs) ys (.irps d) = i :: xs from queues_irps)
  rw [update_irps] at hr
  refine ⟨⟨l, q.queued⟩, by simp [take, hl], rfl, hr, fun j hj ↦ h.lt j ?_, ?_⟩
  · rcases hj with hj | hj | hj
    · exact Or.inl (List.mem_cons_of_mem _ hj)
    · exact Or.inr (Or.inl hj)
    · cases hj; exact Or.inl List.mem_cons_self
  · rintro _ ⟨⟩
    have hnd := h.rep.nodup (.irps d)
    rw [queues_irps] at hnd
    exact ⟨(List.nodup_cons.mp hnd).1, h.disjoint List.mem_cons_self⟩

theorem queuePending (h : q.Spells d xs ys (some i)) : ∃ q', q.queuePending d i = some q' ∧
    q'.queued = q.queued ∧ q'.Spells d xs (ys ++ [i]) none := by
  obtain ⟨hx, hy⟩ := h.hand i rfl
  obtain ⟨l, hl, hr⟩ := h.rep.pushBack_spec (l := .pending d) (notMem_queues hx hy)
  rw [queues_pending, update_pending] at hr
  refine ⟨⟨l, q.queued⟩, by simp [DeviceQueue.queuePending, hl], rfl, hr, fun j hj ↦ h.lt j ?_,
    fun _ hj ↦ by cases hj⟩
  simp only [List.mem_append, List.mem_singleton, reduceCtorEq, or_false] at hj
  rcases hj with hj | hj | rfl
  · exact Or.inl hj
  · exact Or.inr (Or.inl hj)
  · exact Or.inr (Or.inr rfl)

theorem requeuePending_none (h : q.Spells d xs ys hand) {pred : IrpId → Bool}
    (hf : ys.find? pred = none) : q.requeuePending d pred = none := by
  have hf' : (queues d xs ys (.pending d)).find? pred = none := by rwa [queues_pending]
  simp [requeuePending, Device.takePending_none h.rep hf']

theorem requeuePending_some (h : q.Spells d xs ys hand) {pred : IrpId → Bool}
    (hf : ys.find? pred = some i) : ∃ q', q.requeuePending d pred = some q' ∧
    q'.queued = q.queued ∧ q'.Spells d (xs ++ [i]) (ys.erase i) hand := by
  have hi : i ∈ ys := List.mem_of_find?_eq_some hf
  have hx : i ∉ xs := fun hx ↦ h.disjoint hx hi
  have hy : i ∉ ys.erase i := h.nodup_pending.not_mem_erase
  have hf' : (queues d xs ys (.pending d)).find? pred = some i := by rwa [queues_pending]
  obtain ⟨l, hl, hr⟩ := Device.takePending_some h.rep hf'
  rw [queues_pending, update_pending] at hr
  obtain ⟨l', hl', hr'⟩ := hr.pushBack_spec (l := .irps d) (notMem_queues hx hy)
  rw [queues_irps, update_irps] at hr'
  refine ⟨⟨l', q.queued⟩, by simp [requeuePending, hl, hl'], rfl, hr', fun j hj ↦ h.lt j ?_,
    fun j hj ↦ ?_⟩
  · simp only [List.mem_append, List.mem_singleton] at hj
    rcases hj with (hj | rfl) | hj | hj
    · exact Or.inl hj
    · exact Or.inr (Or.inl hi)
    · exact Or.inr (Or.inl (List.mem_of_mem_erase hj))
    · exact Or.inr (Or.inr hj)
  · obtain ⟨h1, h2⟩ := h.hand j hj
    have hne : j ≠ i := fun he ↦ h2 (he ▸ hi)
    exact ⟨by simp [h1, hne], fun hm ↦ h2 (List.mem_of_mem_erase hm)⟩

end Spells

end DeviceQueue

end Chino
