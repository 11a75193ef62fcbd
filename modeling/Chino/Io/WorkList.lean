import Chino.Io.Accounting

/-!
# Devices with queued requests

The worker learns from the work list which devices have requests.  A device leaves that list before
its requests are taken off, and is registered again only by the next `queue_io`; so a drain has to
go on until the queue is empty.  `process_queued_ios` for an awaited request does not: it returns as
soon as that request is done, and what is queued behind it is forgotten (`forgotten`).

`served_of_queued` is what is left: if such a return finds the queue empty, or the device in the
hands of somebody else, then a device with queued requests is on the work list or being drained.  A
`queue_io` is one action here, since it runs with interrupts disabled.

## The proof

`Served` is the property itself: a device with queued requests is on the work list, or `Draining`.
`DrainEffect` says how a step changes what is queued on one device and who drains it.  There are few
kinds:

* `queue_io` puts a request on the device and registers it;
* the worker takes the device off the work list and drains it from then on;
* the drain takes a request off, or ends because there is none;
* the drain returns for the awaited request.

Only the last one may leave requests to nobody.  `ReturnsDry` is the condition on it, about the
state before the step: the queue of the device is empty, or the device is on the work list again, or
an activation further out drains it as well.

In `forgotten` the driver of one device waits for a request on another one, on which a thread has
put a second request: the drain returns for the first and the second stays.
-/

set_option autoImplicit false

namespace Chino

open Function (update)
open IoManager (resume)

/-- The device an activation drains. -/
def Phase.device? : Phase → Option DeviceId
  | picking | sleeping => none
  | popping d | processing d _ _ _ _ | completing d _ _ _ _ _ | checking d _ _ _ | dropping d _
  | parking d _ => some d

namespace IoManager

variable {s s' : IoManager} {L L' : IoQueues} {device : FileId → DeviceId}
  {a : IoAction} {x : Caller} {c c' : Option Call} {d : DeviceId}

/-- An activation drains the device. -/
def Draining (s : IoManager) (d : DeviceId) : Prop := ∃ b ∈ s.stack, b.phase.device? = some d

instance : Decidable (s.Draining d) := inferInstanceAs (Decidable (∃ b ∈ s.stack, _))

/-- The device that a return for the awaited request leaves. -/
def leaves (s : IoManager) : Option DeviceId :=
  match s.stack with
  | ⟨w, .dropping d i⟩ :: _ => if w = some i then some d else none
  | _ => none

/-- A drain returns early only if it was done, or if the device is not left to itself. -/
def ReturnsDry (s : IoManager) : IoAction → Prop
  | .advance .worker => ∀ d ∈ s.leaves, s.lists.isEmpty (.irps d) = true ∨
    s.workList.inList d = true ∨ ∃ b ∈ s.stack.tail, b.phase.device? = some d
  | _ => True

instance : (a : IoAction) → Decidable (s.ReturnsDry a)
  | .advance .worker => inferInstanceAs
    (Decidable (∀ d ∈ s.leaves, s.lists.isEmpty (.irps d) = true ∨
      s.workList.inList d = true ∨ ∃ b ∈ s.stack.tail, b.phase.device? = some d))
  | .advance (.thread _) | .dispatch .. | .fast .. | .exhausted _ | .access | .complete _
  | .move .. | .queue | .finish | .fail _ | .irq .. | .requeue _ => isTrue trivial

/-- No device is forgotten. -/
structure Served (s : IoManager) (L : IoQueues) : Prop where
  rep : ∃ W, s.workList.Represents W
  served : ∀ d, L (.irps d) ≠ [] → s.workList.inList d = true ∨ s.Draining d

/-! ## What a step does to the drains -/

theorem draining_cons {w : Option IrpId} {p : Phase} {as : List Activation}
    (hs : s.stack = ⟨w, p⟩ :: as) :
    s.Draining d ↔ p.device? = some d ∨ ∃ b ∈ as, b.phase.device? = some d := by
  simp [Draining, hs]

theorem InCall.draining_setCall {s₁ : IoManager} (hx : s.InCall x c) (h₂ : s₁.stack = s.stack) :
    (s₁.setCall x c').Draining d ↔ s.Draining d := by
  cases x with
  | thread t => simp [Draining, setCall, h₂]
  | worker =>
    obtain ⟨w, e, i, last, hand, as, hs⟩ := hx
    rw [setCall_worker (h₂.trans hs), draining_cons rfl, draining_cons hs]
    exact Iff.rfl

theorem draining_resume (as : List Activation) :
    (∃ b ∈ resume as, b.phase.device? = some d) ↔ ∃ b ∈ as, b.phase.device? = some d := by
  rcases resume_cases as with h | ⟨w, e, i, last, hand, j, bs, rfl, h⟩
  · rw [h]
  · rw [h]
    simp [Phase.device?]

/-- How a step changes what is queued on the device `d`, and who knows. -/
inductive DrainEffect (s : IoManager) (L : IoQueues) (a : IoAction) (s' : IoManager) (L' : IoQueues)
    (d : DeviceId) : Prop
  | kept (hL : L' (.irps d) ≠ [] → L (.irps d) ≠ []) (hw : s'.workList = s.workList)
      (hd : s.Draining d → s'.Draining d)
  | registered {e : DeviceId} {avail : Bool} (hr : s.Registers e s'.workList avail)
      (hL : d ≠ e → L' (.irps d) = L (.irps d)) (hd : s.Draining d → s'.Draining d)
  | picked {e : DeviceId} (hL : L' = L) (hf : s.workList.front () = some e)
      (hr : s.workList.remove () e = some s'.workList) (hd : s.Draining d → s'.Draining d)
      (he : s'.Draining e)
  | dry (hL : L' (.irps d) = []) (hw : s'.workList = s.workList)
  | left (ha : a = .advance .worker) (hl : s.leaves = some d) (hL : L' = L)
      (hw : s'.workList = s.workList)
      (hd : (∃ b ∈ s.stack.tail, b.phase.device? = some d) → s'.Draining d)

theorem Acts.drain (ha : s.Acts device L a s' L') (d : DeviceId) :
    s.DrainEffect L a s' L' d := by
  have htop : ∀ {s₁ : IoManager} {L₁ : IoQueues} {w w' : Option IrpId} {p p' : Phase}
      {as : List Activation}, s.stack = ⟨w, p⟩ :: as → s₁.stack = ⟨w', p'⟩ :: as →
      p'.device? = p.device? → s₁.workList = s.workList →
      (L₁ (.irps d) ≠ [] → L (.irps d) ≠ []) → s.DrainEffect L a s₁ L₁ d :=
    fun hs hs' hp hw hL ↦
      .kept hL hw fun hd ↦ by
        rw [draining_cons hs', hp]
        exact (draining_cons hs).mp hd
  cases ha with
  | dispatch hx | call hx | allocate hx =>
    exact .kept id (by unfold setCall; split <;> rfl) (hx.draining_setCall (by rfl)).mpr
  | drop hx => exact .kept id (by unfold setCall; split <;> rfl) (hx.draining_setCall (by rfl)).mpr
  | @enqueue x i frame c h' work avail hx hf hc hr =>
    have hw : (setCall { (s.addRef i).pushed h' work avail with queued := update s.queued i true } x
        (some c)).workList = work := by
      unfold setCall; split <;> rfl
    exact .registered (hw ▸ hr) (fun hd ↦ by simp [hd]) (hx.draining_setCall (by rfl)).mpr
  | await hx => exact .kept id rfl fun ⟨b, hb, hbd⟩ ↦ ⟨b, List.mem_cons_of_mem _ hb, hbd⟩
  | turn hs hp hp' ht =>
    cases ht with
    | pick hf hr =>
      refine .picked rfl hf hr (fun hd ↦ ?_) ((draining_cons rfl).mpr (Or.inl rfl))
      rw [draining_cons hs] at hd
      rw [draining_cons rfl]
      exact Or.inr (hd.resolve_left (by simp [Phase.device?]))
    | sleep | wake => exact htop hs rfl rfl rfl id
    | @drained e hL =>
      by_cases hde : d = e
      · exact .dry (hde ▸ hL) rfl
      · refine .kept id rfl fun hd ↦ ?_
        rw [draining_cons hs] at hd
        rw [draining_cons rfl]
        exact Or.inr (hd.resolve_left (by simp [Phase.device?, Ne.symm hde]))
  | @pop w as e i is k h' hs hL hk =>
    refine htop hs rfl rfl rfl fun hne ↦ ?_
    by_cases hde : d = e
    · simp [hde, hL]
    · simpa [hde] using hne
  | access => exact .kept id rfl id
  | start hs | move hs | finish hs => exact htop hs rfl rfl rfl id
  | handOver hs hk hk0 hf hr =>
    refine .registered hr (fun hd ↦ by simp [hd]) fun hd ↦ ?_
    rw [draining_cons rfl]
    exact (draining_cons hs).mp hd
  | code hs | bytes hs | notify hs | destroy hs => exact htop hs rfl rfl rfl id
  | deliver hs => exact htop hs rfl (by split <;> rfl) rfl id
  | check hs hp =>
    refine htop hs rfl ?_ rfl id
    rcases hp with ⟨-, rfl⟩ | ⟨-, rfl⟩ | ⟨-, rfl⟩ <;> rfl
  | @release w as e i hs =>
    by_cases hw : w = some i
    · have hdr : ∀ s₁ : IoManager, s₁.stack = resume as →
          (s₁.Draining d ↔ ∃ b ∈ as, b.phase.device? = some d) := fun s₁ h₁ ↦ by
        rw [Draining, h₁, draining_resume]
      by_cases hde : d = e
      · refine .left rfl (by simp [leaves, hs, hw, hde]) rfl rfl fun hb ↦ ?_
        rw [hs] at hb
        exact (hdr _ (if_pos hw)).mpr hb
      · refine .kept id rfl fun hd ↦ (hdr _ (if_pos hw)).mpr ?_
        exact ((draining_cons hs).mp hd).resolve_left (by simp [Phase.device?, Ne.symm hde])
    · exact htop hs (if_neg hw) rfl rfl id
  | park hs => exact htop hs rfl rfl rfl (by simp)
  | irq => exact .kept (by simp) rfl id
  | requeue hn hr => exact .registered hr (fun hd ↦ by simp [hd]) id

/-! ## The invariant -/

/-- A device that is registered is on the work list. -/
theorem Registers.rep {e : DeviceId} {work : Heap Unit DeviceId} {avail : Bool}
    (hr : s.Registers e work avail) {W : Unit → List DeviceId} (hW : s.workList.Represents W) :
    (∃ W, work.Represents W) ∧ work.inList e = true ∧
      ∀ d, s.workList.inList d = true → work.inList d = true := by
  cases hr with
  | linked h => exact ⟨⟨W, hW⟩, h, fun _ ↦ id⟩
  | @pushed _ h hp =>
    have hfree : ∀ u, e ∉ W u := fun u he ↦ by
      rw [(hW.inList_iff e).mpr ⟨u, he⟩] at h
      cases h
    obtain ⟨h', he, hr'⟩ := hW.pushBack_spec (l := ()) hfree
    cases he.symm.trans hp
    refine ⟨⟨_, hr'⟩, (hr'.inList_iff e).mpr ⟨(), by simp⟩, fun d hd ↦ ?_⟩
    obtain ⟨u, hu⟩ := (hW.inList_iff d).mp hd
    exact (hr'.inList_iff d).mpr ⟨(), by simp [hu]⟩

/-- The worker takes a device off the work list. -/
theorem picked_rep {e : DeviceId} {work : Heap Unit DeviceId} {W : Unit → List DeviceId}
    (hW : s.workList.Represents W) (hf : s.workList.front () = some e)
    (hr : s.workList.remove () e = some work) : (∃ W, work.Represents W) ∧
      ∀ d, d ≠ e → s.workList.inList d = true → work.inList d = true := by
  have he : e ∈ W () := by
    rw [hW.front_eq] at hf
    exact List.mem_of_head? hf
  obtain ⟨h', hw, hr'⟩ := hW.remove_spec he
  cases hw.symm.trans hr
  refine ⟨⟨_, hr'⟩, fun d hd hin ↦ ?_⟩
  obtain ⟨u, hu⟩ := (hW.inList_iff d).mp hin
  exact (hr'.inList_iff d).mpr ⟨(), by simpa using (List.mem_erase_of_ne hd).mpr hu⟩

/-- **A step forgets no device.** -/
theorem Acts.served (ha : s.Acts device L a s' L') (h : s.Inv L) (hs : s.Served L)
    (hc : s.ReturnsDry a) : s'.Served L' where
  rep := by
    obtain ⟨W, hW⟩ := hs.rep
    cases ha.drain 0 with
    | kept _ hw => exact ⟨W, hw ▸ hW⟩
    | registered hr => exact (hr.rep hW).1
    | picked _ hf hr => exact (picked_rep hW hf hr).1
    | dry _ hw => exact ⟨W, hw ▸ hW⟩
    | left _ _ _ hw => exact ⟨W, hw ▸ hW⟩
  served d hd := by
    obtain ⟨W, hW⟩ := hs.rep
    cases ha.drain d with
    | kept hL hw hdr => exact (hs.served d (hL hd)).imp (hw ▸ ·) hdr
    | @registered e _ hr hL hdr =>
      obtain ⟨-, he, hmono⟩ := hr.rep hW
      by_cases hde : d = e
      · exact Or.inl (hde ▸ he)
      · exact (hs.served d (hL hde ▸ hd)).imp (hmono d) hdr
    | @picked e hL hf hr hdr he =>
      by_cases hde : d = e
      · exact Or.inr (hde ▸ he)
      · exact (hs.served d (hL ▸ hd)).imp ((picked_rep hW hf hr).2 d hde) hdr
    | dry hL => exact absurd hL hd
    | left ha hl hL hw hdr =>
      subst ha
      rcases hc d hl with hemp | hin | hb
      · exact absurd ((h.placed.rep.isEmpty_iff _).mp hemp) (hL ▸ hd)
      · exact Or.inl (hw ▸ hin)
      · exact Or.inr (hdr hb)

/-! ## Every run -/

/-- **No queued device is forgotten**, if the worker leaves no queue behind when it returns. -/
theorem served_of_queued (h : (machine device).ReachableWhile ReturnsDry s)
    (hd : s.lists.toList (.irps d) ≠ []) : s.workList.inList d = true ∨ s.Draining d := by
  have hinv := h.invariant (I := fun s ↦ ∃ L, s.Inv L ∧ s.Served L)
    ⟨_, inv_init, ⟨_, Heap.represents_init⟩, fun d hd ↦ absurd rfl hd⟩
    (fun s a s' _ ⟨L, hL, hs⟩ hc hn ↦ by
      obtain ⟨L', ha, hr⟩ := hL.acts hn
      exact ⟨L', ha.inv hL hr, ha.served hL hs hc⟩)
  obtain ⟨L, hL, hs⟩ := hinv
  rw [hL.placed.rep.toList_eq] at hd
  exact hs.served d hd

theorem served_of_queued_issued :
    ((machine id).afterWhile ReturnsDry (slowCall (.thread 1) 0 none)).workList.inList 0 = true ∨
      ((machine id).afterWhile ReturnsDry (slowCall (.thread 1) 0 none)).Draining 0 :=
  served_of_queued (Machine.reachableWhile_afterWhile (M := machine id) _) (by decide +kernel)

/-- The driver of device 0 waits for a request on device 2, where a thread has queued another
one. -/
def waitBehind : List IoAction :=
  slowCall (.thread 1) 0 none ++ work 2 ++ slowCall .worker 2 none ++ slowCall (.thread 2) 2 none ++
    work 1 ++ completeWith (.ok (some 5)) ++ work 2 ++ ([.finish] : List IoAction) ++ work 2

/-- The drain returns once the awaited request is done, and nobody knows of the other one. -/
theorem forgotten : ∃ s, (machine id).Reachable s ∧
    s.lists.toList (.irps 2) = [2] ∧ s.workList.inList 2 = false ∧ ¬ s.Draining 2 :=
  ⟨(machine id).after waitBehind, Machine.reachable_after _, by decide +kernel⟩

end IoManager

end Chino
