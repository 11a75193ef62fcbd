import Chino.Io.OpenShape

/-!
# The steps of a call to open

Every step keeps `Inv`: the account that an operation leaves is the account of the next place.  The
steps come in the order of the code, first those of `open_file` until the driver is asked, then the
slow path, then the ways back, and last the worker.

The steps of the worker interleave with all of this.  They change the request, the frame and what
the driver has recorded, and nothing the call looks at before the event is set, so they are checked
against the facts of every place (`facts_report`) and not against every step.

What comes back at the end of the call is `Inv.return`: the open is over, the account has nothing
but what the result and the worker hold, and `Chino.Io.OpenFailure` reads off it what is left.
-/

set_option autoImplicit false

namespace Chino

open Function (update)

namespace OpenCall

variable {k : Kernel} {s s' : OpenCall} {driver : DeviceId → OpenDriver} {request : OpenRequest}
  {code : ErrorCode}

theorem Has.to {a b : Account} (h : s.Has driver k a) (hab : a = b) : s.Has driver k b := hab ▸ h

/-- What the invariant says at a known place. -/
theorem Inv.at {pc : OpenPc} (h : s.Inv driver request k code) (hpc : s.pc = pc) :
    s.Has driver k (account pc s.work s.opened request.holdsDevice code) ∧
      pc.Facts s.work s.signal s.opened s.recorded code :=
  ⟨hpc ▸ h.has, hpc ▸ h.facts⟩

theorem Inv.of (pc : OpenPc) (work : OpenWork) (b : Bool)
    (h : s.Has driver k (account pc work b request.holdsDevice code)) (hpc : s.pc = pc)
    (hwork : s.work = work) (hopened : s.opened = b)
    (hf : pc.Facts work s.signal b s.recorded code) : s.Inv driver request k code := by
  subst hpc hwork hopened
  exact ⟨h, hf⟩

theorem reported_idle : OpenWork.idle.Reported := by simp [OpenWork.Reported]

theorem reported_notified : OpenWork.notified.Reported :=
  by simp [OpenWork.Reported]

theorem reported_destroyed : OpenWork.destroyed.Reported :=
  by simp [OpenWork.Reported]

/-! ## Up to the answer of the driver -/

theorem Inv.findDevice (h : s.Inv driver request k code) (hpc : s.pc = .start)
    (hn : s.advance driver request = some s') : s'.Inv driver request k code := by
  obtain ⟨hhas, hwork, hopened, hrec⟩ := h.at hpc
  rw [hwork, hopened] at hhas
  simp only [OpenCall.advance, hpc] at hn
  cases hf : request.found with
  | error e =>
    rw [hf] at hn
    cases hn
    exact .of (.returned (.error e)) .idle false ((hhas.move _ s.work s.signal s.opened).to rfl) rfl
      hwork hopened ⟨reported_idle, Or.inl hrec, fun _ h ↦ by cases h⟩
  | ok p =>
    obtain ⟨d, path⟩ := p
    rw [hf] at hn
    cases hn
    have hdev := hhas.setDevice rfl rfl rfl (by simp [account, OpenPc.holdsFound]) d path
    cases request with
    | openFile found =>
      exact .of .found .idle false
        (((hdev.setFound true).move _ s.work s.signal s.opened).to rfl) rfl hwork hopened
        ⟨rfl, rfl, hrec⟩
    | socket device domain type protocol =>
      exact .of .found .idle false ((hdev.move _ s.work s.signal s.opened).to rfl) rfl hwork hopened
        ⟨rfl, rfl, hrec⟩

theorem Inv.allocateFile (h : s.Inv driver request k code) (hpc : s.pc = .found)
    (hn : s.advance driver request = some s') : s'.Inv driver request k code := by
  obtain ⟨hhas, hwork, hopened, hrec⟩ := h.at hpc
  rw [hwork, hopened] at hhas
  simp only [OpenCall.advance, hpc] at hn
  split at hn
  · cases hn
    exact .of (.undoing .outOfMemory) .idle false
      ((hhas.move _ s.work s.signal s.opened).to rfl) rfl
      hwork hopened ⟨reported_idle, rfl, hrec⟩
  · rename_i i files ht
    cases hn
    have hfile := hhas.takeFile rfl rfl hrec rfl ht
    exact .of .allocated .idle false
      ((hfile.move _ s.work s.signal s.opened).to rfl) rfl hwork hopened
      ⟨rfl, rfl, hrec⟩

theorem Inv.prepareToOpen (h : s.Inv driver request k code) (hpc : s.pc = .allocated)
    (hn : s.advance driver request = some s') : s'.Inv driver request k code := by
  obtain ⟨hhas, hwork, hopened, hrec⟩ := h.at hpc
  rw [hwork, hopened] at hhas
  simp only [OpenCall.advance, hpc, hhas.file rfl, Option.bind_eq_bind, Option.bind_some] at hn
  cases hn
  exact .of .prepared .idle false
    (((hhas.attach rfl rfl).move _ s.work s.signal s.opened).to rfl) rfl
    hwork hopened ⟨rfl, rfl, hrec⟩

theorem Inv.fastOpen (h : s.Inv driver request k code) (hpc : s.pc = .prepared)
    (hn : s.advance driver request = some s') : s'.Inv driver request k code := by
  obtain ⟨hhas, hwork, hopened, hrec⟩ := h.at hpc
  rw [hwork, hopened] at hhas
  simp only [OpenCall.advance, hpc] at hn
  split at hn
  · cases hn
    exact .of .slow .idle false ((hhas.move _ s.work false s.opened).to rfl) rfl hwork hopened
      ⟨rfl, rfl, rfl, hrec⟩
  · split at hn
    · cases hn
      generalize ((driver s.device).fastOpen s.path request.disposition).resource? = r
      have hdata := (hhas.move .prepared s.work false s.opened).record rfl r
      cases r with
      | none =>
        exact .of .opened .idle true ((hdata.move _ s.work false true).to rfl) rfl hwork rfl
          ⟨reported_idle, rfl⟩
      | some r =>
        exact .of .opened .idle true ((hdata.move _ s.work false true).to rfl) rfl hwork rfl
          ⟨reported_idle, rfl⟩
    · cases hn
      exact .of (.failed _) .idle false
        ((hhas.move _ s.work false s.opened).to rfl) rfl hwork hopened
        ⟨reported_idle, rfl, hrec⟩

/-! ## The slow path -/

theorem Inv.allocateIrp (h : s.Inv driver request k code) (hpc : s.pc = .slow)
    (hn : s.advance driver request = some s') : ∃ code', s'.Inv driver request k code' := by
  obtain ⟨hhas, hwork, hsignal, hopened, hrec⟩ := h.at hpc
  rw [hwork, hopened] at hhas
  simp only [OpenCall.advance, hpc] at hn
  split at hn
  · cases hn
    exact ⟨code, .of (.failed .outOfMemory) .idle false
      ((hhas.move _ s.work s.signal s.opened).to rfl) rfl hwork hopened ⟨reported_idle, rfl, hrec⟩⟩
  · rename_i i irps ht
    cases hn
    have hirp := (hhas.addFileRef rfl).takeIrp rfl ht
    exact ⟨.ioPending, .of .requested .idle false
      ((hirp.move _ s.work s.signal s.opened).to rfl) rfl
      hwork hopened ⟨rfl, hsignal, rfl, hrec⟩⟩

theorem Inv.queue (h : s.Inv driver request k code) (hpc : s.pc = .requested)
    (hn : s.advance driver request = some s') : s'.Inv driver request k code := by
  obtain ⟨hhas, hwork, hsignal, hopened, hrec⟩ := h.at hpc
  rw [hwork, hopened] at hhas
  simp only [OpenCall.advance, hpc] at hn
  obtain ⟨frame, -, hn⟩ := Option.bind_eq_some_iff.mp hn
  cases hn
  have hirp := hhas.setIrp (f := fun r ↦
    if r.currentFrame = some 0 then { r with refCount := r.refCount + 1 } else r) (m := 1)
    (b := true) (e := code) rfl rfl
  refine .of .queued .queued false ((hirp.move _ .queued s.signal s.opened).to rfl) rfl rfl hopened
    ⟨fun h ↦ ?_, rfl, Or.inl hrec⟩
  rw [show s.signal = true from h] at hsignal
  cases hsignal

theorem Inv.wait (h : s.Inv driver request k code) (hpc : s.pc = .queued)
    (hn : s.advance driver request = some s') : s'.Inv driver request k code := by
  obtain ⟨hhas, hsignal, hopened, hrec⟩ := h.at hpc
  rw [hopened] at hhas
  simp only [OpenCall.advance, hpc] at hn
  obtain ⟨r, -, hn⟩ := Option.bind_eq_some_iff.mp hn
  obtain ⟨frame, -, hn⟩ := Option.bind_eq_some_iff.mp hn
  cases hn
  exact .of .waiting s.work false ((hhas.move _ s.work s.signal s.opened).to rfl) rfl rfl hopened
    ⟨hsignal, rfl, hrec⟩

theorem Inv.wake (h : s.Inv driver request k code) (hpc : s.pc = .waiting)
    (hn : s.advance driver request = some s') : s'.Inv driver request k code := by
  obtain ⟨hhas, hsignal, hopened, hrec⟩ := h.at hpc
  rw [hopened] at hhas
  simp only [OpenCall.advance, hpc] at hn
  split at hn
  · rename_i hs
    cases hn
    exact .of .reading s.work false ((hhas.move _ s.work s.signal s.opened).to rfl) rfl rfl hopened
      ⟨hsignal hs, rfl, hrec.imp_right And.right⟩
  · cases hn

theorem Inv.read (h : s.Inv driver request k code) (hpc : s.pc = .reading)
    (hn : s.advance driver request = some s') : s'.Inv driver request k code := by
  obtain ⟨hhas, hreported, hopened, hrec⟩ := h.at hpc
  rw [hopened] at hhas
  simp only [OpenCall.advance, hpc] at hn
  rw [hhas.irp rfl] at hn
  cases hn
  exact .of (.returning code) s.work false
    ((hhas.move _ s.work s.signal s.opened).to rfl) rfl rfl hopened
    ⟨hreported, rfl, hrec⟩

/-- The open is over, for better or worse. -/
theorem Inv.return {c : ErrorCode} (h : s.Inv driver request k code) (hpc : s.pc = .returning c)
    (hn : s.advance driver request = some s') : s'.Inv driver request k code := by
  obtain ⟨hhas, hreported, hopened, hrec⟩ := h.at hpc
  rw [hopened] at hhas
  simp only [OpenCall.advance, hpc] at hn
  obtain ⟨t, ht, hn⟩ := Option.bind_eq_some_iff.mp hn
  obtain ⟨hirp, heq⟩ := hhas.dropIrp rfl (Bool.toNat_le _) ht
  rw [heq] at hirp hn
  split at hn
  · cases hn
    exact .of .opened s.work true ((hirp.move _ s.work s.signal true).to rfl) rfl rfl rfl
      ⟨hreported, rfl⟩
  · rename_i hc
    cases hn
    exact .of (.failed c) s.work false ((hirp.move _ s.work s.signal s.opened).to rfl) rfl rfl
      hopened ⟨hreported, rfl, hrec.resolve_right hc⟩

/-! ## After a failed open -/

theorem Inv.failedToOpen {e : ErrorCode} (h : s.Inv driver request k code)
    (hpc : s.pc = .failed e) (hn : s.advance driver request = some s') :
    s'.Inv driver request k code := by
  obtain ⟨hhas, hreported, hopened, hrec⟩ := h.at hpc
  rw [hopened] at hhas
  simp only [OpenCall.advance, hpc, hhas.file rfl, Option.bind_eq_bind, Option.bind_some] at hn
  cases hn
  exact .of (.dropping e) s.work false
    (((hhas.detach rfl rfl).move _ s.work s.signal s.opened).to rfl) rfl rfl hopened
    ⟨hreported, rfl, hrec⟩

theorem Inv.dropFailed {e : ErrorCode} (h : s.Inv driver request k code)
    (hpc : s.pc = .dropping e) (hn : s.advance driver request = some s') :
    s'.Inv driver request k code := by
  obtain ⟨hhas, hreported, hopened, hrec⟩ := h.at hpc
  rw [hopened] at hhas
  simp only [OpenCall.advance, hpc] at hn
  obtain ⟨t, ht, hn⟩ := Option.bind_eq_some_iff.mp hn
  obtain ⟨hfile, heq⟩ := hhas.dropFile rfl ht
  rw [heq] at hfile hn
  cases hn
  exact .of (.undoing e) s.work false ((hfile.move _ s.work s.signal s.opened).to rfl) rfl rfl
    hopened ⟨hreported, rfl, hrec⟩

theorem Inv.undo {e : ErrorCode} (h : s.Inv driver request k code) (hpc : s.pc = .undoing e)
    (hn : s.advance driver request = some s') : s'.Inv driver request k code := by
  obtain ⟨hhas, hreported, hopened, hrec⟩ := h.at hpc
  rw [hopened] at hhas
  simp only [OpenCall.advance, hpc] at hn
  cases hn
  have hfacts : (OpenPc.returned (.error e)).Facts s.work s.signal false s.recorded code :=
    ⟨hreported, Or.inl hrec, fun _ h ↦ by cases h⟩
  cases request with
  | openFile found =>
    exact .of (.returned (.error e)) s.work false
      (((hhas.setFound false).move _ s.work s.signal s.opened).to rfl) rfl rfl hopened hfacts
  | socket device domain type protocol =>
    exact .of (.returned (.error e)) s.work false
      ((hhas.move _ s.work s.signal s.opened).to rfl) rfl rfl hopened hfacts

/-! ## After a successful open -/

theorem Inv.copy (h : s.Inv driver request k code) (hpc : s.pc = .opened)
    (hn : s.advance driver request = some s') : s'.Inv driver request k code := by
  obtain ⟨hhas, hreported, hopened⟩ := h.at hpc
  rw [hopened] at hhas
  simp only [OpenCall.advance, hpc] at hn
  cases hn
  exact .of .copied s.work true
    (((hhas.addFileRef rfl).move _ s.work s.signal s.opened).to rfl) rfl rfl hopened
    ⟨hreported, rfl⟩

theorem Inv.dropCopied (h : s.Inv driver request k code) (hpc : s.pc = .copied)
    (hn : s.advance driver request = some s') : s'.Inv driver request k code := by
  obtain ⟨hhas, hreported, hopened⟩ := h.at hpc
  rw [hopened] at hhas
  simp only [OpenCall.advance, hpc] at hn
  obtain ⟨t, ht, hn⟩ := Option.bind_eq_some_iff.mp hn
  obtain ⟨hfile, heq⟩ := hhas.dropFile rfl ht
  rw [heq] at hfile hn
  cases hn
  exact .of .settling s.work true ((hfile.move _ s.work s.signal s.opened).to rfl) rfl rfl
    hopened ⟨hreported, rfl⟩

theorem Inv.settle (h : s.Inv driver request k code) (hpc : s.pc = .settling)
    (hn : s.advance driver request = some s') : s'.Inv driver request k code := by
  obtain ⟨hhas, hreported, hopened⟩ := h.at hpc
  rw [hopened] at hhas
  simp only [OpenCall.advance, hpc] at hn
  cases hn
  cases request with
  | openFile found =>
    exact .of .inserting s.work true
      (((hhas.setFound false).move _ s.work s.signal s.opened).to rfl) rfl rfl hopened
      ⟨hreported, rfl⟩
  | socket device domain type protocol =>
    exact .of .created s.work true ((hhas.move _ s.work s.signal s.opened).to rfl) rfl rfl hopened
      ⟨hreported, rfl⟩

theorem Inv.socket (h : s.Inv driver request k code) (hpc : s.pc = .created)
    (hn : s.advance driver request = some s') : s'.Inv driver request k code := by
  obtain ⟨hhas, hreported, hopened⟩ := h.at hpc
  rw [hopened] at hhas
  simp only [OpenCall.advance, hpc] at hn
  cases request with
  | openFile found => cases hn
  | socket device domain type protocol =>
    obtain ⟨socket, -, hn⟩ := Option.bind_eq_some_iff.mp hn
    split at hn
    · cases hn
      generalize (socket domain type protocol).resource? = r
      have hdata := hhas.record rfl r
      cases r with
      | none =>
        exact .of .inserting s.work true ((hdata.move _ s.work s.signal s.opened).to rfl) rfl rfl
          hopened ⟨hreported, rfl⟩
      | some r =>
        exact .of .inserting s.work true ((hdata.move _ s.work s.signal s.opened).to rfl) rfl rfl
          hopened ⟨hreported, rfl⟩
    · cases hn
      exact .of (.leaving (.error _)) s.work true
        ((hhas.move _ s.work s.signal s.opened).to rfl) rfl
        rfl hopened ⟨hreported, rfl, fun _ h ↦ by cases h⟩

theorem Inv.allocHandle (h : s.Inv driver request k code) (hpc : s.pc = .inserting)
    (hn : s.advance driver request = some s') : s'.Inv driver request k code := by
  obtain ⟨hhas, hreported, hopened⟩ := h.at hpc
  rw [hopened] at hhas
  simp only [OpenCall.advance, hpc] at hn
  split at hn
  · cases hn
    exact .of (.leaving (.error .outOfMemory)) s.work true
      ((hhas.move _ s.work s.signal s.opened).to rfl) rfl rfl hopened
      ⟨hreported, rfl, fun _ h ↦ by cases h⟩
  · rename_i i handles ht
    cases hn
    have hfile := (hhas.addFileRef rfl).takeHandle rfl ht
    refine .of (.leaving (.ok (i + fdBase))) s.work true
      ((hfile.move _ s.work s.signal s.opened).to rfl) rfl rfl hopened ⟨hreported, rfl, ?_⟩
    rintro fd ⟨⟩
    rw [fdBase]
    omega

theorem Inv.leave {r : Except ErrorCode ℤ} (h : s.Inv driver request k code)
    (hpc : s.pc = .leaving r) (hn : s.advance driver request = some s') :
    s'.Inv driver request k code := by
  obtain ⟨hhas, hreported, hopened, hfd⟩ := h.at hpc
  rw [hopened] at hhas
  simp only [OpenCall.advance, hpc] at hn
  obtain ⟨t, ht, hn⟩ := Option.bind_eq_some_iff.mp hn
  obtain ⟨hfile, heq⟩ := hhas.dropFile rfl ht
  rw [heq] at hfile hn
  cases hn
  refine .of (.returned r) s.work true ((hfile.move _ s.work s.signal s.opened).to ?_) rfl rfl
    hopened ⟨hreported, Or.inr rfl, hfd⟩
  cases r <;> rfl

/-! ## Every step of the call -/

theorem Inv.advance (h : s.Inv driver request k code)
    (hn : s.advance driver request = some s') : ∃ code', s'.Inv driver request k code' := by
  cases hpc : s.pc with
  | start => exact ⟨_, h.findDevice hpc hn⟩
  | found => exact ⟨_, h.allocateFile hpc hn⟩
  | allocated => exact ⟨_, h.prepareToOpen hpc hn⟩
  | prepared => exact ⟨_, h.fastOpen hpc hn⟩
  | slow => exact h.allocateIrp hpc hn
  | requested => exact ⟨_, h.queue hpc hn⟩
  | queued => exact ⟨_, h.wait hpc hn⟩
  | waiting => exact ⟨_, h.wake hpc hn⟩
  | reading => exact ⟨_, h.read hpc hn⟩
  | returning c => exact ⟨_, h.return hpc hn⟩
  | failed e => exact ⟨_, h.failedToOpen hpc hn⟩
  | dropping e => exact ⟨_, h.dropFailed hpc hn⟩
  | undoing e => exact ⟨_, h.undo hpc hn⟩
  | opened => exact ⟨_, h.copy hpc hn⟩
  | copied => exact ⟨_, h.dropCopied hpc hn⟩
  | settling => exact ⟨_, h.settle hpc hn⟩
  | created => exact ⟨_, h.socket hpc hn⟩
  | inserting => exact ⟨_, h.allocHandle hpc hn⟩
  | leaving r => exact ⟨_, h.leave hpc hn⟩
  | returned r =>
    simp only [OpenCall.advance, hpc] at hn
    cases hn

/-! ## The worker -/

/-- Once the status is final, the steps of the worker make no difference to what is known. -/
theorem facts_report {pc : OpenPc} {work work' : OpenWork} {signal b : Bool}
    {recorded : List Resource} (h : pc.Facts work signal b recorded code) (hwork : work ≠ .idle)
    (hwork' : work'.Reported) (signal' : Bool) :
    pc.Facts work' signal' b recorded code := by
  cases pc with
  | start | found | allocated | prepared => exact absurd h.1 hwork
  | slow | requested => exact absurd h.1 hwork
  | queued | waiting =>
    exact ⟨fun _ ↦ hwork', h.2.1, h.2.2.imp_right fun hc ↦ ⟨hwork'.1, hc.2⟩⟩
  | _ => exact ⟨hwork', h.2⟩

/-- The frame is there, so the call is not about to queue the request. -/
theorem Inv.ne_requested (h : s.Inv driver request k code) (hwork : s.work ≠ .idle) :
    s.pc ≠ .requested := fun hpc ↦ hwork (h.at hpc).2.1

/-- The request is being opened only while the call waits. -/
theorem Inv.pc_of_queued (h : s.Inv driver request k code) (hwork : s.work = .queued) :
    (s.pc = .queued ∨ s.pc = .waiting) ∧ s.signal = false ∧ s.opened = false ∧ s.recorded = [] := by
  have hf := h.facts
  rw [hwork] at hf
  cases hpc : s.pc with
  | queued | waiting =>
    rw [hpc] at hf
    refine ⟨by simp, ?_, hf.2.1, hf.2.2.resolve_right fun hc ↦ hc.1 rfl⟩
    exact Bool.eq_false_iff.mpr fun hs ↦ (hf.1 hs).1 rfl
  | start | found | allocated | prepared | slow | requested => rw [hpc] at hf; cases hf.1
  | _ => rw [hpc] at hf; exact absurd rfl hf.1.1

theorem Inv.advanceWork (h : s.Inv driver request k code)
    (hn : s.advanceWork driver request = some s') : ∃ code', s'.Inv driver request k code' := by
  have hhas := h.has
  have hfacts := h.facts
  cases hwork : s.work with
  | idle =>
    simp only [OpenCall.advanceWork, hwork] at hn
    cases hn
  | queued =>
    obtain ⟨hpc, hsignal, hopened, hrec⟩ := h.pc_of_queued hwork
    simp only [OpenCall.advanceWork, hwork] at hn
    obtain ⟨frame, hframe, hn⟩ := Option.bind_eq_some_iff.mp hn
    rw [hwork, hopened] at hhas
    have hreq : (account s.pc .queued false request.holdsDevice code).requests =
        s.pc.holdsIrp.toNat + 1 := Nat.add_comm ..
    rw [(hhas.frame hreq hframe).1] at hn
    split at hn
    · cases hn
    · cases hn
      generalize ha : (driver s.device).slowOpen s.path request.disposition = answer
      have hfiles : (account s.pc .queued false request.holdsDevice code).files = 1 + 1 := by
        rcases hpc with hpc | hpc <;> rw [hpc] <;> rfl
      have hdata := (hhas.record hfiles answer.resource?).setIrp
        (f := fun r ↦ r.finishCode answer.completion) (b := true) (e := answer.code)
        (m := s.pc.holdsIrp.toNat) hreq (openRequest_finishCode ..)
      have hto : ∀ c, { account s.pc .queued false request.holdsDevice code with
          requests := s.pc.holdsIrp.toNat + 1, framed := true, code := c } =
            account s.pc .finished false request.holdsDevice c := fun c ↦ by
        simp [account, OpenWork.framed, add_comm]
      have hfacts : ∀ recorded : List Resource, (recorded = [] ∨ answer.code = .success) →
          s.pc.Facts .finished s.signal false recorded answer.code := fun recorded hc ↦ by
        rcases hpc with hpc | hpc <;> rw [hpc] <;>
          exact ⟨fun hs ↦ absurd hs (by simp [hsignal]), rfl,
            hc.imp_right fun hc ↦ ⟨by simp, hc⟩⟩
      refine ⟨answer.code, ?_⟩
      cases answer with
      | err e =>
        exact .of s.pc .finished false
          ((hdata.move _ .finished s.signal s.opened).to (hto _)) rfl rfl
          hopened (hfacts _ (Or.inl hrec))
      | ok r =>
        cases r with
        | none =>
          exact .of s.pc .finished false ((hdata.move _ .finished s.signal s.opened).to (hto _)) rfl
            rfl hopened (hfacts _ (Or.inr rfl))
        | some r =>
          exact .of s.pc .finished false ((hdata.move _ .finished s.signal s.opened).to (hto _)) rfl
            rfl hopened (hfacts _ (Or.inr rfl))
  | finished =>
    simp only [OpenCall.advanceWork, hwork] at hn
    obtain ⟨frame, -, hn⟩ := Option.bind_eq_some_iff.mp hn
    cases hn
    rw [hwork] at hhas
    exact ⟨code, .of s.pc .notified s.opened
      ((hhas.move s.pc .notified true s.opened).to rfl) rfl rfl
      rfl (facts_report hfacts (by simp [hwork]) reported_notified true)⟩
  | notified =>
    simp only [OpenCall.advanceWork, hwork] at hn
    obtain ⟨frame, hframe, hn⟩ := Option.bind_eq_some_iff.mp hn
    obtain ⟨t, ht, hn⟩ := Option.bind_eq_some_iff.mp hn
    cases hn
    rw [hwork] at hhas
    have hne := h.ne_requested (by simp [hwork])
    have hreq : (account s.pc .notified s.opened request.holdsDevice code).requests =
        s.pc.holdsIrp.toNat + 1 := Nat.add_comm ..
    have hirp := hhas.setIrp (f := IoRequest.destroyFrame) (m := s.pc.holdsIrp.toNat) (b := false)
      (e := code) hreq (openRequest_destroyFrame ..)
    rw [(hhas.frame hreq hframe).1] at ht
    obtain ⟨hfile, heq⟩ := hirp.dropFile (n := s.pc.inserted.toNat + s.pc.pointers)
      (by simp [account, hne, OpenWork.framed]; omega) ht
    rw [heq] at hfile ⊢
    refine ⟨code, .of s.pc .destroyed s.opened
      ((hfile.move s.pc .destroyed s.signal s.opened).to ?_) rfl rfl rfl
      (facts_report hfacts (by simp [hwork]) reported_destroyed _)⟩
    simp [account, hne, OpenWork.framed, add_comm]
  | destroyed =>
    simp only [OpenCall.advanceWork, hwork] at hn
    obtain ⟨t, ht, hn⟩ := Option.bind_eq_some_iff.mp hn
    rw [hwork] at hhas
    obtain ⟨hirp, heq⟩ := hhas.dropIrp (n := s.pc.holdsIrp.toNat) (by simp [account]; omega)
      (Bool.toNat_le _) ht
    rw [heq] at hirp hn
    cases hn
    refine ⟨code, .of s.pc .idle s.opened
      ((hirp.move s.pc .idle s.signal s.opened).to ?_) rfl rfl rfl
      (facts_report hfacts (by simp [hwork]) reported_idle _)⟩
    simp [account, OpenWork.framed]

end OpenCall

end Chino
