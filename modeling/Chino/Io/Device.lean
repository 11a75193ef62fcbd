import Chino.IntrusiveList
import Chino.Io.Request

/-!
# The request lists of a device

A `device` has two lists of requests, `irps_` for those that wait to be processed and
`pending_irps_` for those that were begun.  A request has one `request_list_node`, so the lists of
all devices form one heap.

The sections of `device.cpp` that hold `irps_lock_` and do more than a `push_back` are here:
`takeIrp` from `process_queued_ios` and `takePending` from `requeue_pending_io`.

A search for a pending request goes along the links of the list and takes at most as many steps as
there are requests; `findPending_eq` says that it finds the first one with the predicate, as the
range `for` of the source does.  The lists themselves, and what a removal does to them, come from
`Chino.IntrusiveList`.

`IoQueues` is what the two lists of each device spell out.  The results about the I/O manager speak
of these sequences; that the pointers represent them is the invariant of `Chino.Io.Places`.
-/

set_option autoImplicit false

namespace Chino

open Function (update)

/-- A list of a device. -/
inductive IoListId where
  | irps (d : DeviceId)
  | pending (d : DeviceId)
deriving DecidableEq

/-- The two lists of every device. -/
abbrev IoLists := Heap IoListId IrpId

/-- What the lists spell out. -/
abbrev IoQueues := IoListId → List IrpId

namespace Device

/-- The locked section of `device::process_queued_ios`: the front of `irps_`, if there is one, is
taken off. -/
def takeIrp (h : IoLists) (d : DeviceId) : Option (Option IrpId × IoLists) :=
  match h.front (.irps d) with
  | some i => (h.remove (.irps d) i).map fun h' ↦ (some i, h')
  | none => some (none, h)

/-- The search of `requeue_pending_io` from a request on, for at most `n` requests. -/
def findPending (h : IoLists) (d : DeviceId) (pred : IrpId → Bool) : ℕ → Option IrpId → Option IrpId
  | 0, _ => none
  | _, none => none
  | n + 1, some i => if pred i then some i else findPending h d pred n (h.nextOf (.pending d) i)

/-- The locked section of `requeue_pending_io`: the first request with `pred` is taken off
`pending_irps_`. -/
def takePending (h : IoLists) (d : DeviceId) (pred : IrpId → Bool) :
    Option (Option IrpId × IoLists) :=
  match findPending h d pred (h.size (.pending d)) (h.front (.pending d)) with
  | some i => (h.remove (.pending d) i).map fun h' ↦ (some i, h')
  | none => some (none, h)

variable {h : IoLists} {L : IoQueues} {d : DeviceId} {pred : IrpId → Bool}

theorem takeIrp_nil (hr : h.Represents L) (hL : L (.irps d) = []) :
    takeIrp h d = some (none, h) := by
  simp [takeIrp, hr.front_eq, hL]

theorem takeIrp_cons (hr : h.Represents L) {i : IrpId} {is : List IrpId}
    (hL : L (.irps d) = i :: is) :
    ∃ h', takeIrp h d = some (some i, h') ∧ h'.Represents (update L (.irps d) is) := by
  obtain ⟨h', he, hr'⟩ := hr.remove_spec (l := .irps d) (a := i) (by simp [hL])
  refine ⟨h', by simp [takeIrp, hr.front_eq, hL, he], ?_⟩
  simpa [hL] using hr'

/-- The search finds the first one. -/
theorem findPending_eq (hr : h.Represents L) {xs ys : List IrpId}
    (hL : L (.pending d) = xs ++ ys) : findPending h d pred ys.length ys.head? = ys.find? pred := by
  induction ys generalizing xs with
  | nil => rfl
  | cons i ys ih =>
    have hL' : L (.pending d) = (xs ++ [i]) ++ ys := by simp [hL]
    cases hp : pred i with
    | true => simp [findPending, hp]
    | false => simp [findPending, hp, hr.nextOf_eq hL, ih hL']

theorem takePending_none (hr : h.Represents L) (hL : (L (.pending d)).find? pred = none) :
    takePending h d pred = some (none, h) := by
  rw [takePending, hr.front_eq, hr.size, findPending_eq hr (List.nil_append _).symm, hL]

theorem takePending_some (hr : h.Represents L) {i : IrpId}
    (hL : (L (.pending d)).find? pred = some i) :
    ∃ h', takePending h d pred = some (some i, h') ∧
      h'.Represents (update L (.pending d) ((L (.pending d)).erase i)) := by
  obtain ⟨h', he, hr'⟩ := hr.remove_spec (List.mem_of_find?_eq_some hL)
  refine ⟨h', ?_, hr'⟩
  rw [takePending, hr.front_eq, hr.size, findPending_eq hr (List.nil_append _).symm, hL]
  simp [he]

end Device

end Chino
