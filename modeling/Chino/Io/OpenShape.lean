import Chino.Io.OpenCall

/-!
# What a call to open holds

At every point of the call it is known how many pointers to the file there are, whether the file has
its device, how many references the request has and whether the frame is alive (`Account`).  `Has`
says that the pools and the counts on the devices are what they were at the start, except for that.
Each operation changes the account by a little, which is one lemma; a step is a composition of them,
and the account that comes out is the one of the place where the call is then.

## Accounts

An `Account` has a number for each thing the call and the worker may hold at some point: pointers to
the file, references of the request, the result of `find_device`, the handle.  `account` computes it
from the places of the two.  Then

* `Has` is the invariant in terms of the account: the pool of files has one more entry than at the
  start if there is a pointer, with just that many references, and so on;
* an operation is a lemma about `Has` with one account before and another one after: `Has.attach`,
  `Has.dropFile`, `Has.dropIrp`, …;
* `Facts` is what is known besides at a place, such as that the open has succeeded.

So no step of the call is ever compared with the pools as such, and when a step of the source
changes, its account does, and the lemma about its operation is used elsewhere.
-/

set_option autoImplicit false

namespace Chino

open Function (update)

/-! ## Accounts -/

/-- What the call and the worker hold at some point. -/
structure Account where
  /-- Pointers to the file. -/
  files : ℕ
  /-- The file has its device. -/
  attached : Bool
  /-- References to the request. -/
  requests : ℕ
  /-- The frame is alive. -/
  framed : Bool
  /-- The status of the request. -/
  code : ErrorCode
  /-- The result of `find_device` is alive. -/
  found : Bool
  /-- The file has a handle. -/
  inserted : Bool

/-- The status is final. -/
def OpenWork.Reported (work : OpenWork) : Prop := work ≠ .queued ∧ work ≠ .finished

/-- The worker has not destroyed the frame yet. -/
def OpenWork.framed : OpenWork → Bool
  | queued | finished | notified => true
  | idle | destroyed => false

namespace OpenPc

/-- The pointers to the file among the locals. -/
def pointers : OpenPc → ℕ
  | start | found | undoing _ | returned _ => 0
  | copied => 2
  | _ => 1

/-- There is a request that the call has a pointer to. -/
def holdsIrp : OpenPc → Bool
  | requested | queued | waiting | reading | returning _ => true
  | _ => false

/-- The file has its device although it is not open yet. -/
def attaching : OpenPc → Bool
  | prepared | slow | requested | queued | waiting | reading | returning _ | failed _ => true
  | _ => false

/-- The result of `find_device` is alive. -/
def holdsFound : OpenPc → Bool
  | start | created | inserting | leaving _ | returned _ => false
  | _ => true

/-- The handle has been allocated. -/
def inserted : OpenPc → Bool
  | leaving (.ok _) | returned (.ok _) => true
  | _ => false

/-- What is known at a place: how far the worker may be, whether the open has succeeded, and whether
the driver may have recorded something. -/
def Facts (work : OpenWork) (signal open? : Bool) (recorded : List Resource) (code : ErrorCode) :
    OpenPc → Prop
  | start | found | allocated | prepared => work = .idle ∧ open? = false ∧ recorded = []
  | slow | requested => work = .idle ∧ signal = false ∧ open? = false ∧ recorded = []
  | queued | waiting =>
    (signal = true → work.Reported) ∧ open? = false ∧
      (recorded = [] ∨ work ≠ .queued ∧ code = .success)
  | reading => work.Reported ∧ open? = false ∧ (recorded = [] ∨ code = .success)
  | returning c => work.Reported ∧ open? = false ∧ (recorded = [] ∨ c = .success)
  | failed _ | dropping _ | undoing _ => work.Reported ∧ open? = false ∧ recorded = []
  | opened | copied | settling | created | inserting => work.Reported ∧ open? = true
  | leaving r => work.Reported ∧ open? = true ∧ ∀ fd, r = .ok fd → 0 ≤ fd
  | returned r =>
    work.Reported ∧ (recorded = [] ∨ open? = true) ∧ ∀ fd, r = .ok fd → 0 ≤ fd

end OpenPc

/-- The account at some place. -/
def account (pc : OpenPc) (work : OpenWork) (opened holdsDevice : Bool) (code : ErrorCode) :
    Account where
  files := work.framed.toNat + (pc = .requested : Bool).toNat + pc.inserted.toNat + pc.pointers
  attached := pc.attaching || opened
  requests := (work ≠ .idle : Bool).toNat + pc.holdsIrp.toNat
  framed := work.framed || pc = .requested
  code := code
  found := holdsDevice && pc.holdsFound
  inserted := pc.inserted

/-- The request of an open. -/
def openRequest (references : ℕ) (framed : Bool) (code : ErrorCode) (file : FileId) :
    IoRequest where
  asyncIoBlock := none
  status := ⟨code, 0⟩
  frames k := if k = 0 ∧ framed then some ⟨ioOpen, file⟩ else none
  currentFrame := if framed then some 0 else none
  refCount := UInt32.ofNat references

theorem openRequest_construct (file : FileId) :
    IoRequest.construct none ioOpen file = openRequest 1 true .ioPending file := by
  simp [IoRequest.construct, openRequest]

theorem openRequest_finishCode (n : ℕ) (b : Bool) (code : ErrorCode) (file : FileId)
    (answer : OpenAnswer) : (openRequest n b code file).finishCode answer.completion =
      openRequest n b answer.code file := by
  cases answer <;> rfl

theorem openRequest_destroyFrame (n : ℕ) (code : ErrorCode) (file : FileId) :
    (openRequest n true code file).destroyFrame = openRequest n false code file := by
  simp only [IoRequest.destroyFrame, openRequest, if_true, and_true, Bool.false_eq_true, and_false,
    if_false]
  congr 1
  funext k
  by_cases hk : k = 0
  · rw [hk, Function.update_self]
  · rw [Function.update_of_ne hk, if_neg hk]

namespace OpenCall

/-- The pools and the counts are those of the start, and what the account says. -/
structure Has (driver : DeviceId → OpenDriver) (k : Kernel) (s : OpenCall) (a : Account) :
    Prop where
  files : k.files.Differs s.files (if a.files = 0 then none else
    some (s.file, ⟨a.files, if a.attached then some s.device else none, s.recorded.getLast?⟩))
  irps : k.irps.Differs s.irps (if a.requests = 0 then none else
    some (s.irp, openRequest a.requests a.framed a.code s.file))
  deviceRefs : s.deviceRefs = update k.deviceRefs s.device (k.deviceRefs s.device +
    (a.found.toNat + (a.attached && a.files ≠ 0).toNat : ℕ))
  handles : ∃ own, k.handles.Differs s.handles own ∧ own.isSome = a.inserted
  released : s.released =
    if a.attached && a.files = 0 then (driver s.device).close s.recorded.getLast? else []

variable {k : Kernel} {s s' : OpenCall} {a b : Account} {driver : DeviceId → OpenDriver}
  {request : OpenRequest} {n : ℕ}

/-! ## Operations -/

theorem Has.file (h : s.Has driver k a) (ha : a.files = n + 1) : s.files.entry s.file =
    some ⟨n + 1, if a.attached then some s.device else none, s.recorded.getLast?⟩ := by
  have hf := h.files
  rw [ha, if_neg n.succ_ne_zero] at hf
  exact hf.entry

theorem Has.irp (h : s.Has driver k a) (ha : a.requests = n + 1) :
    s.irps.entry s.irp = some (openRequest (n + 1) a.framed a.code s.file) := by
  have hi := h.irps
  rw [ha, if_neg n.succ_ne_zero] at hi
  exact hi.entry

/-- The frame is for the file of the call. -/
theorem Has.frame (h : s.Has driver k a) (ha : a.requests = n + 1) {f : IoFrame}
    (hf : s.frame = some f) : f.file = s.file ∧ a.framed = true := by
  rw [OpenCall.frame, h.irp ha] at hf
  cases hb : a.framed with
  | false => simp [openRequest, hb] at hf
  | true =>
    simp only [openRequest, hb, if_true, and_true, Option.bind_eq_bind, Option.bind_some,
      Option.some.injEq] at hf
    exact ⟨by rw [← hf], rfl⟩

/-- Where the call is does not matter. -/
theorem Has.move (h : s.Has driver k a) (pc : OpenPc) (work : OpenWork) (signal opened : Bool) :
    Has driver k { s with pc := pc, work := work, signal := signal, opened := opened } a :=
  ⟨h.files, h.irps, h.deviceRefs, h.handles, h.released⟩

/-- Before there is a file, which device it will be for does not matter. -/
theorem Has.setDevice (h : s.Has driver k a) (ha : a.files = 0) (hq : a.requests = 0)
    (hb : a.attached = false) (hf : a.found = false) (d : DeviceId) (path : Text) :
    Has driver k { s with device := d, path := path } a where
  files := by simpa [ha] using h.files
  irps := by simpa [hq] using h.irps
  deviceRefs := by simpa [hb, hf] using h.deviceRefs
  handles := h.handles
  released := by simpa [hb] using h.released

theorem Has.takeFile (h : s.Has driver k a) (ha : a.files = 0) (hb : a.attached = false)
    (hr : s.recorded = []) (hq : a.requests = 0) {i : FileId} {files : Slots FileObject}
    (ht : s.files.take .construct = some (i, files)) :
    Has driver k { s with files := files, file := i } { a with files := 1 } where
  files := by
    have hf := h.files
    rw [ha, if_pos rfl] at hf
    simp only [hb, hr]
    exact hf.take ht
  irps := by simpa [hq] using h.irps
  deviceRefs := by
    have hd := h.deviceRefs
    rw [hb] at hd
    simpa [hb] using hd
  handles := h.handles
  released := by
    have hl := h.released
    rw [hb] at hl
    simpa [hb] using hl

theorem Has.addFileRef (h : s.Has driver k a) (ha : a.files = n + 1) :
    s.addFileRef.Has driver k { a with files := n + 2 } where
  files := by
    have hf := h.files
    rw [ha, if_neg n.succ_ne_zero] at hf
    exact hf.modify _
  irps := h.irps
  deviceRefs := by
    have hd := h.deviceRefs
    rw [ha] at hd
    exact hd
  handles := h.handles
  released := by
    have hl := h.released
    rw [ha] at hl
    exact hl

/-- `prepare_to_open` -/
theorem Has.attach (h : s.Has driver k a) (ha : a.files = n + 1) (hb : a.attached = false) :
    ((s.setFile s.file fun f ↦ { f with device := some s.device }).addDeviceRef s.device 1).Has
      driver k { a with attached := true } where
  files := by
    have hf := h.files
    rw [ha, if_neg n.succ_ne_zero] at hf
    rw [ha, if_neg n.succ_ne_zero]
    exact hf.modify _
  irps := h.irps
  deviceRefs := by
    have hd := h.deviceRefs
    simp only [hb, Bool.false_and, Bool.toNat_false, Nat.add_zero] at hd
    show update s.deviceRefs s.device (s.deviceRefs s.device + 1) = _
    rw [hd, Function.update_idem, Function.update_self]
    simp [ha, setFile, addDeviceRef, add_assoc]
  handles := h.handles
  released := by
    have hl := h.released
    rw [ha] at hl ⊢
    simpa [hb, setFile, addDeviceRef] using hl

/-- `failed_to_open` -/
theorem Has.detach (h : s.Has driver k a) (ha : a.files = n + 1) (hb : a.attached = true) :
    ((s.addDeviceRef s.device (-1)).setFile s.file fun f ↦ { f with device := none }).Has
      driver k { a with attached := false } where
  files := by
    have hf := h.files
    rw [ha, if_neg n.succ_ne_zero] at hf
    rw [ha, if_neg n.succ_ne_zero]
    exact hf.modify _
  irps := h.irps
  deviceRefs := by
    have hd := h.deviceRefs
    show update s.deviceRefs s.device (s.deviceRefs s.device + -1) = _
    rw [hd, Function.update_idem, Function.update_self]
    simp [ha, hb, setFile, addDeviceRef, add_assoc]
  handles := h.handles
  released := by
    have hl := h.released
    rw [ha, hb] at hl
    simpa [setFile, addDeviceRef] using hl

/-- The result of `find_device` comes or goes. -/
theorem Has.setFound (h : s.Has driver k a) (b : Bool) :
    (s.addDeviceRef s.device (b.toNat - a.found.toNat)).Has driver k { a with found := b } where
  files := h.files
  irps := h.irps
  deviceRefs := by
    have hd := h.deviceRefs
    show update s.deviceRefs s.device (s.deviceRefs s.device + _) = _
    rw [hd, Function.update_idem, Function.update_self]
    refine congrArg (update k.deviceRefs s.device) ?_
    push_cast
    show _ = k.deviceRefs s.device + _
    omega
  handles := h.handles
  released := h.released

/-- The driver records something in the file. -/
theorem Has.record (h : s.Has driver k a) (ha : a.files = n + 1) (r : Option Resource) :
    (s.record s.file r).Has driver k a := by
  cases r with
  | none => exact h
  | some r =>
    refine ⟨?_, h.irps, h.deviceRefs, h.handles, ?_⟩
    · have hf := h.files
      rw [ha, if_neg n.succ_ne_zero] at hf
      have hm := hf.modify fun f ↦ { f with data := some r }
      rw [ha, if_neg n.succ_ne_zero]
      dsimp only [OpenCall.record, setFile]
      rw [List.getLast?_concat]
      exact hm
    · have hl := h.released
      rw [ha] at hl ⊢
      simpa [OpenCall.record, setFile] using hl

theorem Has.takeIrp (h : s.Has driver k a) (ha : a.requests = 0) {i : IrpId}
    {irps : Slots IoRequest}
    (ht : s.irps.take (.construct none ioOpen s.file) = some (i, irps)) :
    Has driver k { s with irps := irps, irp := i }
      { a with requests := 1, framed := true, code := .ioPending } where
  files := h.files
  irps := by
    have hi := h.irps
    rw [ha, if_pos rfl] at hi
    rw [openRequest_construct] at ht
    exact hi.take ht
  deviceRefs := h.deviceRefs
  handles := h.handles
  released := h.released

/-- The request is changed. -/
theorem Has.setIrp (h : s.Has driver k a) (ha : a.requests = n + 1) {f : IoRequest → IoRequest}
    {m : ℕ} {b : Bool} {e : ErrorCode} (hf : f (openRequest (n + 1) a.framed a.code s.file) =
      openRequest (m + 1) b e s.file) :
    (s.setIrp f).Has driver k { a with requests := m + 1, framed := b, code := e } where
  files := h.files
  irps := by
    have hi := h.irps
    rw [ha, if_neg n.succ_ne_zero] at hi
    have hm := hi.modify f
    rw [hf] at hm
    exact hm
  deviceRefs := h.deviceRefs
  handles := h.handles
  released := h.released

theorem Has.takeHandle (h : s.Has driver k a) (ha : a.inserted = false) {i : ℕ}
    {handles : Slots FileId} (ht : s.handles.take s.file = some (i, handles)) :
    Has driver k { s with handles := handles } { a with inserted := true } where
  files := h.files
  irps := h.irps
  deviceRefs := h.deviceRefs
  handles := by
    obtain ⟨own, hd, hown⟩ := h.handles
    rw [ha, Option.isSome_eq_false_iff, Option.isNone_iff_eq_none] at hown
    subst hown
    exact ⟨_, hd.take ht, rfl⟩
  released := h.released

/-- A pointer to the file is dropped, and with the last one the file is closed and given back. -/
theorem Has.dropFile (h : s.Has driver k a) (ha : a.files = n + 1)
    (hd : s.dropFile driver s.file = some s') :
    s'.Has driver k { a with files := n } ∧
      s' = { s with files := s'.files, deviceRefs := s'.deviceRefs, released := s'.released } := by
  have hf := h.files
  have hr := h.deviceRefs
  have hl := h.released
  rw [ha, if_neg n.succ_ne_zero] at hf
  rw [ha] at hl hr
  simp only [Nat.add_one_ne_zero, decide_false, Bool.and_false, Bool.false_eq_true, if_false] at hl
  rw [OpenCall.dropFile, h.file ha, Option.bind_eq_bind, Option.bind_some] at hd
  cases n with
  | succ n =>
    rw [if_neg (by simp), Option.some.injEq] at hd
    subst hd
    exact ⟨⟨hf.modify _, h.irps, hr, h.handles, by simpa [setFile] using hl⟩, rfl⟩
  | zero =>
    rw [if_pos rfl, Option.some.injEq] at hd
    subst hd
    cases hb : a.attached with
    | false =>
      rw [hb] at hr
      simp only [destroyFile, Bool.false_eq_true, if_false]
      exact ⟨⟨hf.put, h.irps, hr, h.handles, hl⟩, trivial⟩
    | true =>
      rw [hb] at hr
      simp only [destroyFile, if_true]
      refine ⟨⟨hf.put, h.irps, ?_, h.handles, by simp [addDeviceRef, hl]⟩, rfl⟩
      show update s.deviceRefs s.device (s.deviceRefs s.device + -1) = _
      rw [hr, Function.update_idem, Function.update_self]
      refine congrArg (update k.deviceRefs s.device) ?_
      show _ = k.deviceRefs s.device + _
      simp only [Bool.true_and, ne_eq, Nat.succ_ne_zero, not_false_eq_true, decide_true,
        Bool.toNat_true, not_true_eq_false, decide_false, Bool.toNat_false]
      omega

/-- A reference to the request is dropped, and with the last one it is given back. -/
theorem Has.dropIrp (h : s.Has driver k a) (ha : a.requests = n + 1) (hle : n ≤ 1)
    (hd : s.dropIrp = some s') :
    s'.Has driver k { a with requests := n } ∧ s' = { s with irps := s'.irps } := by
  have hi := h.irps
  rw [ha, if_neg n.succ_ne_zero] at hi
  rw [OpenCall.dropIrp, h.irp ha, Option.bind_eq_bind, Option.bind_some] at hd
  cases n with
  | succ n =>
    obtain rfl : n = 0 := by omega
    rw [if_neg (by simp [openRequest]), Option.some.injEq] at hd
    subst hd
    refine ⟨h.setIrp ha ?_, rfl⟩
    simp [openRequest]
  | zero =>
    rw [if_pos (by simp [openRequest]), Option.some.injEq] at hd
    subst hd
    exact ⟨⟨h.files, hi.put, h.deviceRefs, h.handles, h.released⟩, rfl⟩

/-! ## The invariant -/

/-- What holds at every point of a call; `code` is the status of the request. -/
structure Inv (driver : DeviceId → OpenDriver) (request : OpenRequest) (k : Kernel) (s : OpenCall)
    (code : ErrorCode) : Prop where
  has : s.Has driver k (account s.pc s.work s.opened request.holdsDevice code)
  facts : s.pc.Facts s.work s.signal s.opened s.recorded code

theorem inv_start (k : Kernel) : (start k).Inv driver request k .ioPending where
  has := ⟨rfl, rfl, by simp [start, account, OpenPc.holdsFound, OpenPc.attaching],
    ⟨none, rfl, rfl⟩, rfl⟩
  facts := ⟨rfl, rfl, rfl⟩

end OpenCall

end Chino
