import Chino.Drivers.HostSerial

/-!
# One operation at a time in each direction

The record of a direction serves one request at a time.  If the worker meets a new request only
while no other request of its direction has an operation (`OneAtATime`), then the record is always
that of one request, and every request is completed with the result of its own operation
(`own_completions`).  Without that condition the second of two reads takes over the record of the
first one while its operation runs (`second_read_takes_over`).

What one direction sees of the driver is a `LaneView`.  A step concerns one direction, and the other
one sees nothing of it, so the invariant `InLane` is about a view, and every step of a direction is
one lemma about views.

## The proof

A `Lane` says what the record is used for: for nothing, or for one request, whose `Progress` goes
from the start of its operation to its completion.  `Lane.irp?` is that request.  `Fits` compares
the lane with the fields of the record, the flights, and the interrupts that are on their way.

`InLane` is the invariant of a direction: the record fits some lane, the request of the lane is
where its progress says, and no other request of the direction has been begun.  Each kind of step
has a lemma about it (`InLane.submit`, `InLane.take`, `InLane.test`, `InLane.issuing`, …), over
views and without the other direction.

* `OneAtATime` is a condition on one step only: the worker looks at a new request while no other
  request of its direction is between the start of its operation and its completion.
* `OwnCompletions` has the three conclusions: a request is completed with the result of its own
  operation, into its own buffer, and no record is reset while its operation runs.
-/

set_option autoImplicit false

namespace Chino

open Function (update)

/-- How far the operation of a request is. -/
inductive Progress where
  | running
  /-- The error is stored. -/
  | stored (win32 bytes : UInt32)
  /-- So is the number of bytes. -/
  | sending (win32 bytes : UInt32)
  /-- The interrupt was sent. -/
  | raised (win32 bytes : UInt32)
  /-- The request was queued again. -/
  | back (win32 bytes : UInt32)

namespace Progress

/-- The stage of the overlapped call, while it is in flight. -/
def flightStage? : Progress → Option FlightStage
  | running => some .running
  | stored _ bytes => some (.stored bytes)
  | sending _ _ => some .sending
  | raised .. | back .. => none

/-- The interrupts that were sent for it and not handled yet. -/
def irqs : Progress → ℕ
  | raised .. => 1
  | _ => 0

/-- What the overlapped structure says. -/
def error : Progress → ErrorCode
  | running => .ioPending
  | stored win32 _ | sending win32 _ | raised win32 _ | back win32 _ => win32ToErrorCode win32

/-- What the record says once the number of bytes is stored. -/
def bytes? : Progress → Option UInt32
  | running | stored .. => none
  | sending _ bytes | raised _ bytes | back _ bytes => some bytes

/-- What the operation has come to. -/
def result? : Progress → Option Completion
  | running => none
  | stored win32 bytes | sending win32 bytes | raised win32 bytes | back win32 bytes =>
    some (completionOf win32 bytes)

/-- The interrupt has queued the request again. -/
def isBack : Progress → Bool
  | back .. => true
  | _ => false

end Progress

/-- What the record of a direction is used for. -/
inductive Lane where
  | free
  | busy (i : IrpId) (p : Progress)
  /-- The request is completed, and the record is to be reset. -/
  | clearing (i : IrpId)

/-- The request whose operation the record belongs to. -/
def Lane.irp? : Lane → Option IrpId
  | busy i _ => some i
  | _ => none

/-- What a direction sees of the driver. -/
@[ext] structure LaneView where
  stage : SerialStage
  irps : List IrpId
  pending : List IrpId
  flights : List Flight
  irqs : ℕ
  error : ErrorCode
  bytes : UInt32
  started : IrpId → List Buffer
  finished : IrpId → Option Completion

namespace LaneView

variable {frame : IrpId → Request} {k : Direction} {v : LaneView} {lane : Lane} {i : IrpId}
  {p : Progress}

/-- The worker has no request of the direction in its hand, or another one it has not looked at. -/
def Apart (stage : SerialStage) (i : IrpId) : Prop :=
  stage = .idle ∨ ∃ j, stage = .entered j ∧ j ≠ i

/-- Where the request is whose operation the record belongs to. -/
def Place (v : LaneView) (i : IrpId) (p : Progress) : Prop :=
  if p.isBack then v.pending = [] ∧
    (i ∈ v.irps ∧ Apart v.stage i ∨ v.stage = .entered i ∨ v.stage = .finishing i)
  else v.pending = [i] ∧ Apart v.stage i ∨ v.pending = [] ∧ v.stage = .queueing i

/-- The record is used as the lane says. -/
def Fits (frame : IrpId → Request) (k : Direction) (v : LaneView) : Lane → Prop
  | .free => v.flights = [] ∧ v.irqs = 0 ∧ v.error = .ioPending ∧ v.pending = [] ∧
    (v.stage = .idle ∨ ∃ j, v.stage = .entered j ∨ v.stage = .resetting j ∨ v.stage = .issuing j)
  | .busy i p =>
    v.flights = (p.flightStage?.map fun st ↦ ⟨i, k, (frame i).buffer, st⟩).toList ∧
      v.irqs = p.irqs ∧ v.error = p.error ∧ (∀ n ∈ p.bytes?, v.bytes = n) ∧
      v.started i = [(frame i).buffer] ∧ (∀ c ∈ p.result?, v.finished i = some c) ∧ v.Place i p
  | .clearing i => v.flights = [] ∧ v.irqs = 0 ∧ v.pending = [] ∧ v.stage = .clearing i

/-- The invariant of a direction: the record is used by at most one request, and the others have
not been begun. -/
structure InLane (frame : IrpId → Request) (k : Direction) (v : LaneView) (lane : Lane) : Prop where
  fits : v.Fits frame k lane
  fresh : ∀ j, j ∈ v.irps ∨ v.stage.hand? = some j → lane.irp? ≠ some j → v.started j = []

/-! ## Steps of one direction -/

theorem InLane.submit (h : v.InLane frame k lane) (hi : v.started i = []) :
    ({ v with irps := v.irps ++ [i] } : LaneView).InLane frame k lane where
  fits := by
    cases lane with
    | free => exact h.fits
    | clearing => exact h.fits
    | busy j p =>
      obtain ⟨h1, h2, h3, h4, h5, h6, h7⟩ := h.fits
      refine ⟨h1, h2, h3, h4, h5, h6, ?_⟩
      unfold Place at h7 ⊢
      cases hb : p.isBack with
      | false => simpa [hb] using h7
      | true =>
        simp only [hb, if_true] at h7 ⊢
        exact ⟨h7.1, h7.2.imp (fun h ↦ ⟨List.mem_append_left _ h.1, h.2⟩) id⟩
  fresh j hj hne := by
    simp only [List.mem_append, List.mem_singleton] at hj
    rcases hj with (hj | rfl) | hj
    · exact h.fresh j (Or.inl hj) hne
    · exact hi
    · exact h.fresh j (Or.inr hj) hne

theorem InLane.take (h : v.InLane frame k lane) {is : List IrpId} (hirps : v.irps = i :: is)
    (hs : v.stage = .idle) (hp : i ∉ v.pending) (hnd : i ∉ is) :
    ({ v with irps := is, stage := .entered i } : LaneView).InLane frame k lane where
  fits := by
    cases lane with
    | free =>
      obtain ⟨h1, h2, h3, h4, -⟩ := h.fits
      exact ⟨h1, h2, h3, h4, Or.inr ⟨i, Or.inl rfl⟩⟩
    | clearing j =>
      obtain ⟨-, -, -, h4⟩ := h.fits
      rw [hs] at h4
      cases h4
    | busy j p =>
      obtain ⟨h1, h2, h3, h4, h5, h6, h7⟩ := h.fits
      refine ⟨h1, h2, h3, h4, h5, h6, ?_⟩
      unfold Place at h7 ⊢
      cases hb : p.isBack with
      | false =>
        simp only [hb, Bool.false_eq_true, if_false, hs, reduceCtorEq, and_false, or_false] at h7 ⊢
        refine ⟨h7.1, Or.inr ⟨i, rfl, ?_⟩⟩
        rintro rfl
        exact hp (by simp [h7.1])
      | true =>
        simp only [hb, if_true, hs, reduceCtorEq, or_false, hirps] at h7 ⊢
        refine ⟨h7.1, ?_⟩
        rcases List.mem_cons.mp h7.2.1 with rfl | hj
        · exact Or.inr rfl
        · refine Or.inl ⟨hj, Or.inr ⟨i, rfl, ?_⟩⟩
          rintro rfl
          exact hnd hj
  fresh j hj hne := by
    refine h.fresh j (Or.inl ?_) hne
    rw [hirps]
    rcases hj with hj | hj
    · exact List.mem_cons_of_mem _ hj
    · cases hj; exact List.mem_cons_self

/-- The worker looks at the error.  It finds `io_pending` exactly if the request is a new one, and
then nobody else has an operation. -/
theorem InLane.test (h : v.InLane frame k lane) (hs : v.stage = .entered i)
    (hc : v.started i = [] → ∀ j ∈ v.irps ++ v.pending, v.started j = []) :
    ({ v with stage := if v.error = .ioPending then .resetting i else .finishing i } :
      LaneView).InLane frame k lane where
  fits := by
    cases lane with
    | free =>
      obtain ⟨h1, h2, h3, h4, -⟩ := h.fits
      rw [if_pos h3]
      exact ⟨h1, h2, h3, h4, Or.inr ⟨i, Or.inr (Or.inl rfl)⟩⟩
    | clearing j =>
      obtain ⟨-, -, -, h4⟩ := h.fits
      rw [hs] at h4
      cases h4
    | busy j p =>
      obtain ⟨h1, h2, h3, h4, h5, h6, h7⟩ := h.fits
      have hbegun : v.started j ≠ [] := by rw [h5]; simp
      by_cases hij : i = j
      · subst hij
        unfold Place at h7
        cases p with
        | back win32 bytes =>
          have herr : v.error ≠ .ioPending := by
            rw [h3]
            exact win32ToErrorCode_ne win32
          rw [if_neg herr]
          refine ⟨h1, h2, h3, h4, h5, h6, ?_⟩
          simp only [Progress.isBack, if_true] at h7
          exact ⟨h7.1, Or.inr (Or.inr rfl)⟩
        | _ =>
          -- its operation runs, so it is pending and not in the worker's hand
          simp only [Progress.isBack, Bool.false_eq_true, if_false, Apart, hs, reduceCtorEq,
            SerialStage.entered.injEq, exists_eq_left', ne_eq, not_true_eq_false, or_self,
            and_false,
            false_or] at h7
      · have hnew : v.started i = [] := h.fresh i (Or.inr (by rw [hs]; rfl)) (by
          simpa [Lane.irp?] using Ne.symm hij)
        refine absurd (hc hnew j ?_) hbegun
        unfold Place at h7
        rw [List.mem_append]
        split at h7
        · rcases h7.2 with ⟨hm, -⟩ | hst | hst
          · exact Or.inl hm
          · rw [hs] at hst; cases hst; exact absurd rfl hij
          · rw [hs] at hst; cases hst
        · rcases h7 with ⟨hm, -⟩ | ⟨-, hst⟩
          · exact Or.inr (by simp [hm])
          · rw [hs] at hst; cases hst
  fresh j hj hne := by
    refine h.fresh j (hj.imp id fun hj ↦ ?_) hne
    rw [hs]
    dsimp only at hj
    split at hj <;> exact hj

theorem InLane.reset (h : v.InLane frame k lane) (hs : v.stage = .resetting i) :
    ({ v with stage := .issuing i } : LaneView).InLane frame k .free ∧ lane = .free := by
  cases lane with
  | free =>
    obtain ⟨h1, h2, h3, h4, -⟩ := h.fits
    refine ⟨⟨⟨h1, h2, h3, h4, Or.inr ⟨i, Or.inr (Or.inr rfl)⟩⟩, fun j hj hne ↦ ?_⟩, rfl⟩
    exact h.fresh j (by rw [hs]; exact hj) hne
  | clearing j =>
    obtain ⟨-, -, -, h4⟩ := h.fits
    rw [hs] at h4
    cases h4
  | busy j p =>
    obtain ⟨-, -, -, -, -, -, h7⟩ := h.fits
    simp [Place, Apart, hs] at h7

/-- A request is about to be begun only while the record is free, and it has no operation. -/
theorem InLane.issuing (h : v.InLane frame k lane) (hs : v.stage = .issuing i) :
    lane = .free ∧ v.started i = [] := by
  cases lane with
  | free => exact ⟨rfl, h.fresh i (Or.inr (by rw [hs]; rfl)) (by simp [Lane.irp?])⟩
  | clearing j =>
    obtain ⟨-, -, -, h4⟩ := h.fits
    rw [hs] at h4
    cases h4
  | busy j p =>
    obtain ⟨-, -, -, -, -, -, h7⟩ := h.fits
    simp [Place, Apart, hs] at h7

theorem InLane.start (h : v.InLane frame k lane) (hs : v.stage = .issuing i) :
    ({ v with
      stage := .queueing i
      flights := ⟨i, k, (frame i).buffer, .running⟩ :: v.flights
      started := update v.started i (v.started i ++ [(frame i).buffer]) } : LaneView).InLane frame k
      (.busy i .running) := by
  obtain ⟨rfl, hnew⟩ := h.issuing hs
  obtain ⟨h1, h2, h3, h4, -⟩ := h.fits
  refine ⟨⟨?_, h2, h3, by simp [Progress.bytes?], ?_, by simp [Progress.result?], Or.inr ⟨h4, rfl⟩⟩,
    fun j hj hne ↦ ?_⟩
  · simp [h1, Progress.flightStage?]
  · simp [hnew]
  · have hji : j ≠ i := fun he ↦ hne (by rw [he]; rfl)
    dsimp only
    rw [Function.update_of_ne hji]
    refine h.fresh j (hj.imp id fun hj ↦ ?_) (by simp [Lane.irp?])
    rw [hs]
    exact hj

theorem InLane.startFails (h : v.InLane frame k lane) (hs : v.stage = .issuing i)
    (hi : i ∉ v.irps) (c : Completion) :
    ({ v with
      stage := .idle
      started := update v.started i (v.started i ++ [(frame i).buffer])
      finished := update v.finished i (some c) } : LaneView).InLane frame k .free := by
  obtain ⟨rfl, hnew⟩ := h.issuing hs
  obtain ⟨h1, h2, h3, h4, -⟩ := h.fits
  refine ⟨⟨h1, h2, h3, h4, Or.inl rfl⟩, fun j hj hne ↦ ?_⟩
  have hj' : j ∈ v.irps := hj.resolve_right (by simp [SerialStage.hand?])
  have hji : j ≠ i := fun he ↦ hi (he ▸ hj')
  dsimp only
  rw [Function.update_of_ne hji]
  exact h.fresh j (Or.inl hj') hne

/-- The operation in flight is that of the record. -/
theorem InLane.flight (h : v.InLane frame k lane) {f : Flight} (hf : f ∈ v.flights) :
    ∃ p st, lane = .busy f.irp p ∧ p.flightStage? = some st ∧
      f = ⟨f.irp, k, (frame f.irp).buffer, st⟩ ∧ v.flights = [f] := by
  cases lane with
  | free => rw [h.fits.1] at hf; cases hf
  | clearing j => rw [h.fits.1] at hf; cases hf
  | busy j p =>
    have h1 := h.fits.1
    cases hst : p.flightStage? with
    | none => simp [h1, hst] at hf
    | some st =>
      simp only [h1, hst, Option.map_some, Option.toList_some, List.mem_singleton] at hf
      subst hf
      exact ⟨p, st, rfl, hst, rfl, by rw [h1, hst]; rfl⟩

theorem InLane.finish (h : v.InLane frame k lane) {f : Flight} (hf : f ∈ v.flights)
    (hst : f.stage = .running) (win32 bytes : UInt32) :
    ({ v with
      error := win32ToErrorCode win32
      flights := { f with stage := .stored bytes } :: v.flights.erase f
      finished := update v.finished f.irp (some (completionOf win32 bytes)) } : LaneView).InLane
      frame k (.busy f.irp (.stored win32 bytes)) := by
  obtain ⟨p, st, rfl, hp, hfe, hfl⟩ := h.flight hf
  obtain ⟨-, h2, -, -, h5, -, h7⟩ := h.fits
  cases (congrArg Flight.stage hfe).symm.trans hst
  obtain rfl : p = .running := by
    cases p <;> simp [Progress.flightStage?] at hp ⊢
  refine ⟨⟨?_, h2, rfl, by simp [Progress.bytes?], h5, ?_, h7⟩, h.fresh⟩
  · dsimp only
    rw [hfl, List.erase_cons_head, hfe]
    rfl
  · simp [Progress.result?]

theorem InLane.store (h : v.InLane frame k lane) {f : Flight} (hf : f ∈ v.flights) {bytes : UInt32}
    (hst : f.stage = .stored bytes) :
    ∃ win32, ({ v with
      bytes := bytes
      flights := { f with stage := .sending } :: v.flights.erase f } : LaneView).InLane
      frame k (.busy f.irp (.sending win32 bytes)) := by
  obtain ⟨p, st, rfl, hp, hfe, hfl⟩ := h.flight hf
  obtain ⟨-, h2, h3, -, h5, h6, h7⟩ := h.fits
  cases (congrArg Flight.stage hfe).symm.trans hst
  obtain ⟨win32, rfl⟩ : ∃ win32, p = .stored win32 bytes := by
    cases p <;> simp [Progress.flightStage?] at hp ⊢
    exact hp
  refine ⟨win32, ⟨?_, h2, h3, by simp [Progress.bytes?], h5, h6, h7⟩, h.fresh⟩
  dsimp only
  rw [hfl, List.erase_cons_head, hfe]
  rfl

theorem InLane.send (h : v.InLane frame k lane) {f : Flight} (hf : f ∈ v.flights)
    (hst : f.stage = .sending) :
    ∃ win32 bytes, ({ v with irqs := v.irqs + 1, flights := v.flights.erase f } : LaneView).InLane
      frame k (.busy f.irp (.raised win32 bytes)) := by
  obtain ⟨p, st, rfl, hp, hfe, hfl⟩ := h.flight hf
  obtain ⟨-, h2, h3, h4, h5, h6, h7⟩ := h.fits
  cases (congrArg Flight.stage hfe).symm.trans hst
  obtain ⟨win32, bytes, rfl⟩ : ∃ win32 bytes, p = .sending win32 bytes := by
    cases p <;> simp [Progress.flightStage?] at hp ⊢
  refine ⟨win32, bytes, ⟨?_, by rw [h2]; rfl, h3, h4, h5, h6, h7⟩, h.fresh⟩
  dsimp only
  rw [hfl, List.erase_cons_head]
  rfl

theorem InLane.requeue (h : v.InLane frame k lane) (hirq : v.irqs ≠ 0)
    (hi : v.pending.head? = some i) :
    ∃ win32 bytes, ({ v with
      irps := v.irps ++ [i]
      pending := v.pending.erase i
      irqs := v.irqs - 1 } : LaneView).InLane frame k (.busy i (.back win32 bytes)) := by
  cases lane with
  | free => exact absurd h.fits.2.1 hirq
  | clearing j => exact absurd h.fits.2.1 hirq
  | busy j p =>
    obtain ⟨h1, h2, h3, h4, h5, h6, h7⟩ := h.fits
    rw [h2] at hirq
    cases p with
    | raised win32 bytes =>
      simp only [Place, Progress.isBack, Bool.false_eq_true, if_false] at h7
      rcases h7 with ⟨hpend, hap⟩ | ⟨hpend, -⟩
      swap
      · rw [hpend] at hi; cases hi
      obtain rfl : j = i := by rw [hpend] at hi; simpa using hi
      refine ⟨win32, bytes, ⟨h1, by rw [h2]; rfl, h3, h4, h5, h6, ?_⟩, fun l hl hne ↦ ?_⟩
      · simp only [Place, Progress.isBack, if_true]
        exact ⟨by simp [hpend], Or.inl ⟨by simp, hap⟩⟩
      · have hli : l ≠ j := fun he ↦ hne (by rw [he]; rfl)
        refine h.fresh l (hl.imp (fun hl ↦ ?_) id) hne
        simpa [hli] using hl
    | _ => exact absurd rfl hirq

theorem InLane.complete (h : v.InLane frame k lane) (hs : v.stage = .finishing i)
    (hi : i ∉ v.irps) :
    ({ v with stage := .clearing i } : LaneView).InLane frame k (.clearing i) ∧
      v.started i = [(frame i).buffer] ∧ v.finished i = some (if v.error = .success
        then .ok (some v.bytes.toNat) else .err v.error) := by
  cases lane with
  | free =>
    obtain ⟨-, -, -, -, h5⟩ := h.fits
    simp [hs] at h5
  | clearing j =>
    obtain ⟨-, -, -, h4⟩ := h.fits
    rw [hs] at h4
    cases h4
  | busy j p =>
    obtain ⟨h1, h2, h3, h4, h5, h6, h7⟩ := h.fits
    cases p with
    | back win32 bytes =>
      simp only [Place, Progress.isBack, if_true, Apart, hs, reduceCtorEq, false_and, exists_false,
        or_self, and_false, false_or, SerialStage.finishing.injEq] at h7
      obtain ⟨hpend, rfl⟩ := h7
      refine ⟨⟨⟨h1, h2, hpend, rfl⟩, fun l hl _ ↦ ?_⟩, h5, ?_⟩
      · have hl' : l ∈ v.irps := hl.resolve_right (by simp [SerialStage.hand?])
        exact h.fresh l (Or.inl hl') fun he ↦ hi (by cases he; exact hl')
      · rw [h6 _ rfl, h3, h4 bytes rfl]
        rfl
    | _ => simp [Place, Progress.isBack, Apart, hs] at h7

theorem InLane.clear (h : v.InLane frame k lane) (hs : v.stage = .clearing i) :
    ({ v with error := .ioPending, stage := .idle } : LaneView).InLane frame k .free := by
  cases lane with
  | free =>
    obtain ⟨-, -, -, -, h5⟩ := h.fits
    simp [hs] at h5
  | busy j p =>
    obtain ⟨-, -, -, -, -, -, h7⟩ := h.fits
    simp [Place, Apart, hs] at h7
  | clearing j =>
    obtain ⟨h1, h2, h3, -⟩ := h.fits
    refine ⟨⟨h1, h2, rfl, h3, Or.inl rfl⟩, fun l hl hne ↦ h.fresh l (hl.imp id fun hl ↦ ?_) hne⟩
    cases hl

theorem InLane.park (h : v.InLane frame k lane) (hs : v.stage = .queueing i) :
    ({ v with pending := v.pending ++ [i], stage := .idle } : LaneView).InLane frame k lane := by
  cases lane with
  | free =>
    obtain ⟨-, -, -, -, h5⟩ := h.fits
    simp [hs] at h5
  | clearing j =>
    obtain ⟨-, -, -, h4⟩ := h.fits
    rw [hs] at h4
    cases h4
  | busy j p =>
    obtain ⟨h1, h2, h3, h4, h5, h6, h7⟩ := h.fits
    have hp : p.isBack = false := by
      cases hb : p.isBack with
      | false => rfl
      | true => simp [Place, hb, Apart, hs] at h7
    simp only [Place, hp, Bool.false_eq_true, if_false, Apart, hs, reduceCtorEq, false_and,
      exists_false, or_self, and_false, false_or, SerialStage.queueing.injEq] at h7
    obtain ⟨hpend, rfl⟩ := h7
    refine ⟨⟨h1, h2, h3, h4, h5, h6, ?_⟩, fun l hl hne ↦ h.fresh l (hl.imp id fun hl ↦ ?_) hne⟩
    · simp only [Place, hp, Bool.false_eq_true, if_false]
      exact Or.inl ⟨by simp [hpend], Or.inl rfl⟩
    · cases hl

end LaneView

namespace HostSerial

open LaneView

variable {d : DeviceId} {frame : IrpId → Request} {s s' : HostSerial} {e : SerialEvent}
  {xs ys : List IrpId} {k : Direction} {i : IrpId}

/-! ## The views of a state -/

/-- What the direction sees of a function of the requests. -/
def only {α : Type} (frame : IrpId → Request) (k : Direction) (a : α) (f : IrpId → α) (i : IrpId) :
    α := if asks frame k i then f i else a

/-- What one lane sees of the device. -/
def view (frame : IrpId → Request) (k : Direction) (s : HostSerial) (xs ys : List IrpId) :
    LaneView where
  stage := if s.stage.subject?.any (asks frame k) then s.stage else .idle
  irps := xs.filter (asks frame k)
  pending := ys.filter (asks frame k)
  flights := s.flights.filter fun f ↦ f.direction = k
  irqs := s.irqs k
  error := s.error k
  bytes := s.bytes k
  started := only frame k [] s.started
  finished := only frame k none s.finished

theorem only_of_asks {α : Type} {a : α} {f : IrpId → α} (h : asks frame k i = true) :
    only frame k a f i = f i := if_pos h

theorem only_update {α : Type} {a b : α} {f : IrpId → α} (h : asks frame k i = true) :
    only frame k a (update f i b) = update (only frame k a f) i b := by
  funext j
  by_cases hj : j = i
  · subst hj; simp [only, h]
  · simp [only, hj]

theorem only_update_of_not {α : Type} {a b : α} {f : IrpId → α} (h : asks frame k i = false) :
    only frame k a (update f i b) = only frame k a f := by
  funext j
  by_cases hj : j = i
  · subst hj; simp [only, h]
  · simp [only, hj]

/-- A request asks for one direction. -/
theorem asks_unique {k' : Direction} (h : asks frame k i = true) (h' : asks frame k' i = true) :
    k = k' := by
  simp only [asks, decide_eq_true_eq] at h h'
  exact Direction.kind_inj.mp (h.symm.trans h')

theorem stage_of_view {st : SerialStage} (h : (s.view frame k xs ys).stage = st)
    (hne : st ≠ .idle) :
    s.stage = st := by
  simp only [view] at h
  split at h
  · exact h
  · exact absurd h.symm hne

theorem view_stage (h : ∀ i ∈ s.stage.subject?, asks frame k i = true) :
    (s.view frame k xs ys).stage = s.stage := by
  simp only [view]
  cases hs : s.stage <;> simp_all [SerialStage.subject?]

/-! ## The condition and the invariant -/

/-- The worker meets a new request only while no other request of its direction waits for its
operation, or for the worker to complete it. -/
def OneAtATime (d : DeviceId) (frame : IrpId → Request) (s : HostSerial) : SerialEvent → Prop
  | .work =>
    match s.stage with
    | .entered i => s.started i = [] → ∀ j ∈ s.queue.irps d ++ s.queue.pending d,
      (frame j).kind = (frame i).kind → s.started j = []
    | _ => True
  | _ => True

/-- Every request gets its own completion, and no record is reset while its operation runs. -/
structure OwnCompletions (frame : IrpId → Request) (s : HostSerial) : Prop where
  /-- A request starts at most one operation, over its own buffer. -/
  once : ∀ i, s.started i = [] ∨ s.started i = [(frame i).buffer]
  /-- A read or write that is completed has started one, and is completed with what it came to. -/
  own : ∀ i (k : Direction) c, (frame i).kind = k.kind → s.completed i = some c →
    s.started i = [(frame i).buffer] ∧ s.finished i = some c
  /-- No operation runs on an `OVERLAPPED` that is about to be reset. -/
  reset : ∀ i (k : Direction), (frame i).kind = k.kind → s.stage = .resetting i →
    ∀ f ∈ s.flights, f.direction = k → f.stage ≠ .running

/-- Every lane is in order, and no request is completed before its time. -/
structure Orderly (d : DeviceId) (frame : IrpId → Request) (s : HostSerial) (xs ys : List IrpId) :
    Prop where
  lists : s.queue.Spells d xs ys s.stage.hand?
  lanes : ∀ k, ∃ lane, (s.view frame k xs ys).InLane frame k lane
  live : ∀ i, i ∈ xs ∨ i ∈ ys ∨ s.stage.hand? = some i ∨ s.queue.queued ≤ i → s.completed i = none
  unborn : ∀ i, s.queue.queued ≤ i → s.started i = []
  once : ∀ i, s.started i = [] ∨ s.started i = [(frame i).buffer]
  own : ∀ i k c, asks frame k i = true → s.completed i = some c →
    s.started i = [(frame i).buffer] ∧ s.finished i = some c

/-- A step that a direction does not see. -/
theorem Orderly.unseen (h : s.Orderly d frame xs ys) {xs' ys' : List IrpId}
    (hv : s'.view frame k xs' ys' = s.view frame k xs ys) :
    ∃ lane, (s'.view frame k xs' ys').InLane frame k lane := by
  rw [hv]
  exact h.lanes k

theorem Orderly.submit (h : s.Orderly d frame xs ys) {q : DeviceQueue}
    (hq : s.queue.submit d = some q) :
    ({ s with queue := q } : HostSerial).Orderly d frame (xs ++ [s.queue.queued]) ys := by
  obtain ⟨q', hq', hn, hlists⟩ := h.lists.submit
  cases hq.symm.trans hq'
  refine ⟨hlists, fun k ↦ ?_, fun i hi ↦ h.live i ?_, fun i hi ↦ h.unborn i ?_, h.once, h.own⟩
  · obtain ⟨lane, hlane⟩ := h.lanes k
    cases hk : asks frame k s.queue.queued with
    | true =>
      refine ⟨lane, ?_⟩
      have hnew := hlane.submit (i := s.queue.queued)
        ((only_of_asks hk).trans (h.unborn _ (Nat.le_refl _)))
      simpa [view, List.filter_append, hk] using hnew
    | false => exact h.unseen (by simp [view, List.filter_append, hk])
  · simp only [hn, List.mem_append, List.mem_singleton] at hi
    rcases hi with (hi | rfl) | hi | hi | hi
    · exact Or.inl hi
    · exact Or.inr (Or.inr (Or.inr (Nat.le_refl _)))
    · exact Or.inr (Or.inl hi)
    · exact Or.inr (Or.inr (Or.inl hi))
    · exact Or.inr (Or.inr (Or.inr (by omega)))
  · simp only [hn] at hi
    omega

theorem Orderly.take (h : s.Orderly d frame xs ys) (hs : s.stage = .idle) {irp : Option IrpId}
    {q : DeviceQueue} (hq : s.queue.take d = some (irp, q)) :
    ∃ xs, ({ s with queue := q, stage := irp.elim .idle .entered } : HostSerial).Orderly d frame
      xs ys := by
  have hlists := h.lists
  simp only [hs, SerialStage.hand?] at hlists
  cases xs with
  | nil =>
    cases hq.symm.trans hlists.take_nil
    have heq : ({ s with queue := s.queue, stage := (none : Option IrpId).elim .idle .entered } :
        HostSerial) = s := by rw [Option.elim_none, ← hs]
    exact ⟨[], heq ▸ h⟩
  | cons i xs =>
    obtain ⟨q', hq', hn, hlists'⟩ := hlists.take_cons
    cases hq.symm.trans hq'
    have hnd := hlists.rep.nodup (.irps d)
    rw [DeviceQueue.queues_irps] at hnd
    have hout : i ∉ xs := (List.nodup_cons.mp hnd).1
    have hpend : i ∉ ys := hlists.disjoint List.mem_cons_self
    refine ⟨xs, hlists', fun k ↦ ?_, fun j hj ↦ h.live j ?_, fun j hj ↦ h.unborn j ?_, h.once,
      h.own⟩
    · obtain ⟨lane, hlane⟩ := h.lanes k
      cases hk : asks frame k i with
      | true =>
        refine ⟨lane, ?_⟩
        have hnew := hlane.take
          (show (s.view frame k (i :: xs) ys).irps = i :: xs.filter (asks frame k) by
            simp [view, hk])
          (by simp [view, hs, SerialStage.subject?]) (by simp [view, hpend]) (by simp [hout])
        simpa [view, hk, SerialStage.subject?] using hnew
      | false => exact h.unseen (by simp [view, hk, hs, SerialStage.subject?])
    · simp only [hn, Option.elim_some, SerialStage.hand?] at hj
      rcases hj with hj | hj | hj | hj
      · exact Or.inl (List.mem_cons_of_mem _ hj)
      · exact Or.inr (Or.inl hj)
      · cases hj; exact Or.inl List.mem_cons_self
      · exact Or.inr (Or.inr (Or.inr hj))
    · simp only [hn] at hj
      exact hj

/-- The direction that a step of `process_io` works for, and what it sees of the stage. -/
theorem asks_of_ofKind? (h : Direction.ofKind? (frame i).kind = some k) :
    asks frame k i = true := by
  simp [asks, Direction.ofKind?_eq_some.mp h]

theorem asks_of_ne {k' : Direction} (h : asks frame k i = true) (hne : k' ≠ k) :
    asks frame k' i = false := by
  by_contra ht
  exact hne (asks_unique (by simpa using ht) h)

/-- A step of the worker for one direction. -/
theorem Orderly.lane_step (h : s.Orderly d frame xs ys) (k : Direction) {xs' ys' : List IrpId}
    (hk : ∀ lane, (s.view frame k xs ys).InLane frame k lane →
      ∃ lane, (s'.view frame k xs' ys').InLane frame k lane)
    (hother : ∀ k', k' ≠ k → s'.view frame k' xs' ys' = s.view frame k' xs ys) (k' : Direction) :
    ∃ lane, (s'.view frame k' xs' ys').InLane frame k' lane := by
  by_cases hkk : k' = k
  · subst hkk
    obtain ⟨lane, hlane⟩ := h.lanes k'
    exact hk lane hlane
  · exact h.unseen (hother k' hkk)

theorem Orderly.work (h : s.Orderly d frame xs ys) (hc : s.OneAtATime d frame .work)
    (hn : s.work d frame = some s') : ∃ ys', s'.Orderly d frame xs ys' := by
  have hlists := h.lists
  rw [HostSerial.work] at hn
  cases hs : s.stage with
  | idle | issuing i => simp [hs] at hn
  | entered i =>
    simp only [hs] at hn
    obtain ⟨k, hk, hs'⟩ := Option.bind_eq_some_iff.mp hn
    cases hs'
    have hki := asks_of_ofKind? hk
    simp only [OneAtATime, hs, hlists.irps_eq, hlists.pending_eq] at hc
    simp only [hs, SerialStage.hand?] at hlists
    have hstage : (s.view frame k xs ys).stage = .entered i := by
      rw [view_stage (by rw [hs]; simpa [SerialStage.subject?] using hki), hs]
    have htest : ∀ lane, (s.view frame k xs ys).InLane frame k lane → ({ s.view frame k xs ys with
        stage := if s.error k = .ioPending then .resetting i else .finishing i } :
          LaneView).InLane frame k lane := by
      refine fun lane hlane ↦ hlane.test hstage fun hnew j hj ↦ ?_
      simp only [view, only_of_asks hki] at hnew
      simp only [view, List.mem_append, List.mem_filter] at hj
      have hkj : asks frame k j = true := hj.elim And.right And.right
      refine (only_of_asks hkj).trans (hc hnew j ?_ ?_)
      · exact List.mem_append.mpr (hj.imp And.left And.left)
      · simp only [asks, decide_eq_true_eq] at hki hkj
        rw [hki, hkj]
    have hst : (if s.error k = .ioPending then SerialStage.resetting i else .finishing i).hand?
        = some i ∧ (if s.error k = .ioPending then SerialStage.resetting i
          else .finishing i).subject? = some i := by
      split <;> exact ⟨rfl, rfl⟩
    generalize (if s.error k = .ioPending then SerialStage.resetting i else .finishing i) = st at *
    obtain ⟨hhand, hsub⟩ := hst
    refine ⟨ys, ⟨hhand ▸ hlists, h.lane_step k (fun lane hlane ↦ ⟨lane, ?_⟩)
      (fun k' hk' ↦ ?_), fun j hj ↦ h.live j ?_, h.unborn, h.once, h.own⟩⟩
    · simpa [view, hsub, hki] using htest lane hlane
    · have hnk := asks_of_ne hki hk'
      have hold : s.stage.subject? = some i := by rw [hs]; rfl
      simp [view, hsub, hnk, hold]
    · have hold : s.stage.hand? = some i := by rw [hs]; rfl
      rw [hold]
      rwa [hhand] at hj
  | resetting i =>
    simp only [hs] at hn
    cases hn
    simp only [hs, SerialStage.hand?] at hlists
    refine ⟨ys, ⟨hlists, fun k ↦ ?_,
      fun j hj ↦ h.live j (by simpa [hs, SerialStage.hand?] using hj),
      h.unborn, h.once, h.own⟩⟩
    obtain ⟨lane, hlane⟩ := h.lanes k
    cases hk : asks frame k i with
    | true =>
      have hstage : (s.view frame k xs ys).stage = .resetting i := by
        rw [view_stage (by rw [hs]; simpa [SerialStage.subject?] using hk), hs]
      have hnew := (hlane.reset hstage).1
      exact ⟨.free, by simpa [view, SerialStage.subject?, hk] using hnew⟩
    | false => exact h.unseen (by simp [view, hs, SerialStage.subject?, hk])
  | finishing i =>
    simp only [hs] at hn
    obtain ⟨k, hk, hs'⟩ := Option.bind_eq_some_iff.mp hn
    cases hs'
    have hki := asks_of_ofKind? hk
    simp only [hs, SerialStage.hand?] at hlists
    obtain ⟨hix, hiy⟩ := hlists.hand i rfl
    obtain ⟨lane, hlane⟩ := h.lanes k
    have hstage : (s.view frame k xs ys).stage = .finishing i := by
      rw [view_stage (by rw [hs]; simpa [SerialStage.subject?] using hki), hs]
    have hirps : i ∉ (s.view frame k xs ys).irps := by simp [view, hix]
    obtain ⟨-, hstart, hfin⟩ := hlane.complete hstage hirps
    simp only [view, only_of_asks hki] at hstart hfin
    refine ⟨ys, ⟨hlists.release, h.lane_step k (fun lane hlane ↦ ⟨.clearing i, ?_⟩)
      (fun k' hk' ↦ ?_), fun j hj ↦ ?_, h.unborn, h.once, fun j k' c hkj hj ↦ ?_⟩⟩
    · simpa [view, SerialStage.subject?, hki] using (hlane.complete hstage hirps).1
    · simp [view, hs, SerialStage.subject?, asks_of_ne hki hk']
    · have hji : j ≠ i := by
        rintro rfl
        rcases hj with hj | hj | hj | hj
        · exact hix hj
        · exact hiy hj
        · cases hj
        · exact absurd (hlists.lt j (Or.inr (Or.inr rfl))) (Nat.not_lt.mpr hj)
      dsimp only
      rw [Function.update_of_ne hji]
      refine h.live j (hj.imp id (Or.imp id (Or.imp (fun hj ↦ ?_) id)))
      cases hj
    · dsimp only at hj
      by_cases hji : j = i
      · subst hji
        rw [Function.update_self] at hj
        exact ⟨hstart, hfin.trans hj⟩
      · rw [Function.update_of_ne hji] at hj
        exact h.own j k' c hkj hj
  | clearing i =>
    simp only [hs] at hn
    obtain ⟨k, hk, hs'⟩ := Option.bind_eq_some_iff.mp hn
    cases hs'
    have hki := asks_of_ofKind? hk
    simp only [hs, SerialStage.hand?] at hlists
    refine ⟨ys, ⟨hlists, h.lane_step k (fun lane hlane ↦ ⟨.free, ?_⟩) (fun k' hk' ↦ ?_),
      fun j hj ↦ h.live j (by simpa [hs, SerialStage.hand?] using hj), h.unborn, h.once, h.own⟩⟩
    · have hstage : (s.view frame k xs ys).stage = .clearing i := by
        rw [view_stage (by rw [hs]; simpa [SerialStage.subject?] using hki), hs]
      simpa [view, SerialStage.subject?] using hlane.clear hstage
    · simp [view, hs, SerialStage.subject?, asks_of_ne hki hk', hk']
  | queueing i =>
    simp only [hs] at hn
    obtain ⟨q, hq, hs'⟩ := Option.bind_eq_some_iff.mp hn
    cases hs'
    simp only [hs, SerialStage.hand?] at hlists
    obtain ⟨q', hq', hqn, hlists'⟩ := hlists.queuePending
    cases hq.symm.trans hq'
    refine ⟨ys ++ [i], ⟨hlists', fun k ↦ ?_, fun j hj ↦ h.live j ?_, fun j hj ↦ h.unborn j ?_,
      h.once,
      h.own⟩⟩
    · obtain ⟨lane, hlane⟩ := h.lanes k
      cases hk : asks frame k i with
      | true =>
        have hstage : (s.view frame k xs ys).stage = .queueing i := by
          rw [view_stage (by rw [hs]; simpa [SerialStage.subject?] using hk), hs]
        have hnew := hlane.park hstage
        exact ⟨lane, by simpa [view, SerialStage.subject?, hk, List.filter_append] using hnew⟩
      | false => exact h.unseen (by simp [view, hs, SerialStage.subject?, hk, List.filter_append])
    · simp only [hqn, List.mem_append, List.mem_singleton, SerialStage.hand?, hs] at hj ⊢
      rcases hj with hj | (hj | rfl) | hj | hj
      · exact Or.inl hj
      · exact Or.inr (Or.inl hj)
      · exact Or.inr (Or.inr (Or.inl rfl))
      · cases hj
      · exact Or.inr (Or.inr (Or.inr hj))
    · rwa [← hqn]

/-- A request that the worker completes leaves its hand. -/
theorem Orderly.release (h : s.Orderly d frame xs ys) (hs : s.stage.hand? = some i) {c : Completion}
    {j : IrpId} (hj : j ∈ xs ∨ j ∈ ys ∨ s.queue.queued ≤ j) :
    update s.completed i (some c) j = none := by
  have hlists := h.lists
  rw [hs] at hlists
  have hji : j ≠ i := by
    rintro rfl
    rcases hj with hj | hj | hj
    · exact (hlists.hand j rfl).1 hj
    · exact (hlists.hand j rfl).2 hj
    · exact absurd (hlists.lt j (Or.inr (Or.inr rfl))) (Nat.not_lt.mpr hj)
  rw [Function.update_of_ne hji]
  exact h.live j (hj.imp id (Or.imp id Or.inr))

theorem Orderly.issue (h : s.Orderly d frame xs ys) {win32 : Option UInt32}
    (hn : s.issue frame win32 = some s') : s'.Orderly d frame xs ys := by
  have hlists := h.lists
  rw [HostSerial.issue] at hn
  cases hs : s.stage with
  | issuing i =>
    have hhand : s.stage.hand? = some i := by rw [hs]; rfl
    simp only [hs] at hn
    obtain ⟨k, hk, hs'⟩ := Option.bind_eq_some_iff.mp hn
    have hki := asks_of_ofKind? hk
    have hstage : (s.view frame k xs ys).stage = .issuing i := by
      rw [view_stage (by rw [hs]; simpa [SerialStage.subject?] using hki), hs]
    obtain ⟨lane, hlane⟩ := h.lanes k
    have hnew : s.started i = [] := (only_of_asks hki).symm.trans (hlane.issuing hstage).2
    have hcompl : s.completed i = none := h.live i (Or.inr (Or.inr (Or.inl hhand)))
    rw [hhand] at hlists
    have hborn : i < s.queue.queued := hlists.lt i (Or.inr (Or.inr rfl))
    have honce : ∀ j, update s.started i (s.started i ++ [(frame i).buffer]) j = [] ∨
        update s.started i (s.started i ++ [(frame i).buffer]) j = [(frame j).buffer] := by
      intro j
      by_cases hji : j = i
      · subst hji; exact Or.inr (by simp [hnew])
      · rw [Function.update_of_ne hji]; exact h.once j
    have hunborn : ∀ j, s.queue.queued ≤ j →
        update s.started i (s.started i ++ [(frame i).buffer]) j = [] := by
      intro j hj
      have hji : j ≠ i := by
        rintro rfl
        exact absurd hborn (Nat.not_lt.mpr hj)
      rw [Function.update_of_ne hji]
      exact h.unborn j hj
    cases win32 with
    | none =>
      cases hs'
      refine ⟨hlists, h.lane_step k (fun lane hlane ↦ ⟨.busy i .running, ?_⟩)
        (fun k' hk' ↦ ?_), fun j hj ↦ h.live j (by rw [hhand]; exact hj), hunborn, honce,
        fun j k' c hkj hj ↦ ?_⟩
      · have hstart := hlane.start hstage
        simpa [view, SerialStage.subject?, hki, only_update hki, only_of_asks hki] using hstart
      · have hnk := asks_of_ne hki hk'
        simp [view, hs, SerialStage.subject?, hnk, only_update_of_not hnk, hk'.symm]
      · have hji : j ≠ i := by
          rintro rfl
          rw [show s.completed j = some c from hj] at hcompl
          cases hcompl
        dsimp only
        rw [Function.update_of_ne hji]
        exact h.own j k' c hkj hj
    | some win32 =>
      simp only at hs'
      split at hs'
      · cases hs'
      cases hs'
      refine ⟨hlists.release, h.lane_step k (fun lane hlane ↦ ⟨.free, ?_⟩)
        (fun k' hk' ↦ ?_), fun j hj ↦ ?_, hunborn, honce, fun j k' c hkj hj ↦ ?_⟩
      · have hirps : i ∉ (s.view frame k xs ys).irps := by simp [view, (hlists.hand i rfl).1]
        have hfail := hlane.startFails hstage hirps (.err (win32ToErrorCode win32))
        simpa [view, SerialStage.subject?, only_update hki, only_of_asks hki] using hfail
      · have hnk := asks_of_ne hki hk'
        simp [view, hs, SerialStage.subject?, hnk, only_update_of_not hnk]
      · refine h.release hhand (hj.imp id (Or.imp id fun hj ↦ hj.resolve_left ?_))
        simp [SerialStage.hand?]
      · dsimp only at hj ⊢
        by_cases hji : j = i
        · subst hji
          simp only [Function.update_self] at hj ⊢
          exact ⟨by simp [hnew], hj⟩
        · simp only [Function.update_of_ne hji] at hj ⊢
          exact h.own j k' c hkj hj
  | _ => simp [hs] at hn

theorem Orderly.other (h : s.Orderly d frame xs ys) (hs : s.stage = .entered i)
    (hk : Direction.ofKind? (frame i).kind = none) (c : Completion) :
    ({ s with completed := update s.completed i (some c), stage := .idle } : HostSerial).Orderly d
      frame xs ys := by
  have hhand : s.stage.hand? = some i := by rw [hs]; rfl
  have hnk : ∀ k, asks frame k i = false := by
    intro k
    by_contra ht
    have : (frame i).kind = k.kind := by simpa [asks] using ht
    rw [Direction.ofKind?_eq_some.mpr this] at hk
    cases hk
  have hlists := h.lists
  rw [hhand] at hlists
  refine ⟨hlists.release, fun k ↦ h.unseen ?_, fun j hj ↦ ?_, h.unborn, h.once,
    fun j k c hkj hj ↦ ?_⟩
  · simp [view, hs, SerialStage.subject?, hnk]
  · refine h.release hhand (hj.imp id (Or.imp id fun hj ↦ hj.resolve_left ?_))
    simp [SerialStage.hand?]
  · have hji : j ≠ i := by
      rintro rfl
      rw [hnk] at hkj
      cases hkj
    dsimp only at hj
    rw [Function.update_of_ne hji] at hj
    exact h.own j k c hkj hj

/-! ## Steps of the host and interrupts -/

/-- An operation in flight belongs to a request of its direction that is not completed. -/
theorem Orderly.flight (h : s.Orderly d frame xs ys) {f : Flight} (hf : f ∈ s.flights) :
    asks frame f.direction f.irp = true ∧ s.completed f.irp = none ∧
      f ∈ (s.view frame f.direction xs ys).flights := by
  have hmem : f ∈ (s.view frame f.direction xs ys).flights := by simp [view, hf]
  obtain ⟨lane, hlane⟩ := h.lanes f.direction
  obtain ⟨p, st, rfl, hp, -, -⟩ := hlane.flight hmem
  obtain ⟨-, -, -, -, h5, -, h7⟩ := hlane.fits
  have hasks : asks frame f.direction f.irp = true := by
    by_contra hno
    simp only [view, only, if_neg hno] at h5
    cases h5
  refine ⟨hasks, h.live f.irp ?_, hmem⟩
  have hback : p.isBack = false := by cases p <;> simp_all [Progress.flightStage?, Progress.isBack]
  simp only [Place, hback, Bool.false_eq_true, if_false] at h7
  rcases h7 with ⟨hpend, -⟩ | ⟨-, hst⟩
  · refine Or.inr (Or.inl ?_)
    have : f.irp ∈ ys.filter (asks frame f.direction) := by
      rw [show ys.filter (asks frame f.direction) = [f.irp] from hpend]
      exact List.mem_singleton_self _
    exact (List.mem_filter.mp this).1
  · have := stage_of_view hst (by simp)
    exact Or.inr (Or.inr (Or.inl (by rw [this]; rfl)))

theorem filter_flights {f g : Flight} (fs : List Flight) (hg : g.direction = f.direction)
    (k : Direction) : (g :: fs.erase f).filter (fun f ↦ f.direction = k) =
      if f.direction = k then g :: (fs.filter fun f ↦ f.direction = k).erase f
      else fs.filter fun f ↦ f.direction = k := by
  rw [List.filter_cons, ← List.erase_filter]
  by_cases hk : f.direction = k
  · simp [hg, hk]
  · simp [hg, hk, List.erase_of_not_mem]

theorem Orderly.finish (h : s.Orderly d frame xs ys) {f : Flight} (hf : f ∈ s.flights)
    (hst : f.stage = .running) (win32 bytes : UInt32) :
    ({ s with
      error := update s.error f.direction (win32ToErrorCode win32)
      flights := { f with stage := .stored bytes } :: s.flights.erase f
      finished := update s.finished f.irp (some (completionOf win32 bytes)) } : HostSerial).Orderly
      d frame xs ys := by
  obtain ⟨hasks, hcompl, hmem⟩ := h.flight hf
  refine ⟨h.lists, h.lane_step f.direction
    (fun lane hlane ↦ ⟨.busy f.irp (.stored win32 bytes), ?_⟩) (fun k' hk' ↦ ?_), h.live, h.unborn,
    h.once, fun j k c hkj hj ↦ ?_⟩
  · have hnew := hlane.finish hmem hst win32 bytes
    convert hnew using 1
    simp only [view, filter_flights, if_true, Function.update_self, only_update hasks]
  · have hnk := asks_of_ne hasks hk'
    simp only [view, filter_flights, if_neg hk'.symm, Function.update_of_ne hk',
      only_update_of_not hnk]
  · have hji : j ≠ f.irp := by
      rintro rfl
      rw [show s.completed f.irp = some c from hj] at hcompl
      cases hcompl
    dsimp only
    rw [Function.update_of_ne hji]
    exact h.own j k c hkj hj

theorem Orderly.callback (h : s.Orderly d frame xs ys) {f : Flight}
    (hn : s.callback f = some s') : s'.Orderly d frame xs ys := by
  rw [HostSerial.callback] at hn
  split at hn
  swap
  · cases hn
  rename_i hf
  obtain ⟨hasks, -, hmem⟩ := h.flight hf
  cases hst : f.stage with
  | running => simp [hst] at hn
  | stored bytes =>
    simp only [hst] at hn
    cases hn
    refine ⟨h.lists, h.lane_step f.direction (fun lane hlane ↦ ?_) (fun k' hk' ↦ ?_), h.live,
      h.unborn, h.once, h.own⟩
    · obtain ⟨win32, hnew⟩ := hlane.store hmem hst
      refine ⟨.busy f.irp (.sending win32 bytes), ?_⟩
      convert hnew using 1
      simp only [view, filter_flights, if_true, Function.update_self]
    · simp only [view, filter_flights, if_neg hk'.symm, Function.update_of_ne hk']
  | sending =>
    simp only [hst] at hn
    cases hn
    refine ⟨h.lists, h.lane_step f.direction (fun lane hlane ↦ ?_) (fun k' hk' ↦ ?_), h.live,
      h.unborn, h.once, h.own⟩
    · obtain ⟨win32, bytes, hnew⟩ := hlane.send hmem hst
      refine ⟨.busy f.irp (.raised win32 bytes), ?_⟩
      convert hnew using 1
      simp only [view, ← List.erase_filter, Function.update_self]
    · have herase : (s.flights.erase f).filter (fun f ↦ f.direction = k')
          = s.flights.filter fun f ↦ f.direction = k' := by
        rw [← List.erase_filter, List.erase_of_not_mem (by simp [hk'.symm])]
      simp only [view, herase, Function.update_of_ne hk']

theorem Orderly.irq (h : s.Orderly d frame xs ys) {q : DeviceQueue} (hirq : s.irqs k ≠ 0)
    (hq : s.queue.requeuePending d (fun i ↦ (frame i).kind = k.kind) = some q) :
    ∃ xs ys, ({ s with queue := q, irqs := update s.irqs k (s.irqs k - 1) } : HostSerial).Orderly d
      frame xs ys := by
  cases hf : ys.find? (fun i ↦ (frame i).kind = k.kind) with
  | none => rw [h.lists.requeuePending_none hf] at hq; cases hq
  | some i =>
    obtain ⟨q', hq', hqn, hlists⟩ := h.lists.requeuePending_some hf
    cases hq.symm.trans hq'
    have hki : asks frame k i = true := List.find?_some hf
    have hi : i ∈ ys := List.mem_of_find?_eq_some hf
    refine ⟨_, _, hlists, h.lane_step k (fun lane hlane ↦ ?_) (fun k' hk' ↦ ?_), fun j hj ↦ ?_,
      fun j hj ↦ h.unborn j (hqn ▸ hj), h.once, h.own⟩
    · obtain ⟨win32, bytes, hnew⟩ := hlane.requeue hirq (i := i) (by
        simp only [view, List.head?_filter]
        exact hf)
      refine ⟨.busy i (.back win32 bytes), ?_⟩
      convert hnew using 1
      simp only [view, List.filter_append, List.filter_cons, hki, if_true, List.filter_nil,
        ← List.erase_filter, Function.update_self]
    · have hnk := asks_of_ne hki hk'
      have herase : (ys.erase i).filter (asks frame k') = ys.filter (asks frame k') := by
        rw [← List.erase_filter, List.erase_of_not_mem (by simp [hnk])]
      simp [view, List.filter_append, hnk, herase, hk']
    · refine h.live j ?_
      simp only [List.mem_append, List.mem_singleton, hqn] at hj
      rcases hj with (hj | rfl) | hj | hj
      · exact Or.inl hj
      · exact Or.inr (Or.inl hi)
      · exact Or.inr (Or.inl (List.mem_of_mem_erase hj))
      · exact Or.inr (Or.inr hj)

theorem Orderly.next (h : s.Orderly d frame xs ys) (hc : s.OneAtATime d frame e)
    (hn : s.next d frame e = some s') : ∃ xs ys, s'.Orderly d frame xs ys := by
  cases e with
  | submit =>
    obtain ⟨q, hq, hs⟩ := Option.bind_eq_some_iff.mp hn
    cases hs
    exact ⟨_, _, h.submit hq⟩
  | take =>
    simp only [HostSerial.next] at hn
    split at hn
    · rename_i hs
      obtain ⟨⟨irp, q⟩, hq, hs'⟩ := Option.bind_eq_some_iff.mp hn
      cases hs'
      obtain ⟨xs', h'⟩ := h.take hs hq
      exact ⟨_, _, h'⟩
    · cases hn
  | work =>
    obtain ⟨ys', h'⟩ := h.work hc hn
    exact ⟨_, _, h'⟩
  | issue win32 => exact ⟨_, _, h.issue hn⟩
  | other result =>
    simp only [HostSerial.next] at hn
    cases hs : s.stage with
    | entered i =>
      simp only [hs] at hn
      split at hn
      · rename_i hk
        cases hn
        exact ⟨_, _, h.other hs hk.1 result⟩
      · cases hn
    | _ => simp [hs] at hn
  | finish f win32 bytes =>
    simp only [HostSerial.next] at hn
    split at hn
    · rename_i hf
      cases hn
      exact ⟨_, _, h.finish hf.1 hf.2 win32 bytes⟩
    · cases hn
  | callback f => exact ⟨_, _, h.callback hn⟩
  | irq k =>
    simp only [HostSerial.next] at hn
    split at hn
    · cases hn
    · rename_i hirq
      obtain ⟨q, hq, hs⟩ := Option.bind_eq_some_iff.mp hn
      cases hs
      exact h.irq hirq hq

theorem orderly_init : init.Orderly d frame [] [] where
  lists := DeviceQueue.spells_init
  lanes k := by
    refine ⟨.free, ⟨rfl, rfl, rfl, rfl, Or.inl rfl⟩, fun j hj ↦ ?_⟩
    rcases hj with hj | hj <;> cases hj
  live _ _ := rfl
  unborn _ _ := rfl
  once _ := Or.inl rfl
  own _ _ _ _ hc := by cases hc

theorem Orderly.ownCompletions (h : s.Orderly d frame xs ys) : s.OwnCompletions frame where
  once := h.once
  own i k c hk hc := h.own i k c (by simpa [asks] using hk) hc
  reset i k hk hs f hf hfk := by
    have hki : asks frame k i = true := by simpa [asks] using hk
    have hstage : (s.view frame k xs ys).stage = .resetting i := by
      rw [view_stage (by rw [hs]; simpa [SerialStage.subject?] using hki), hs]
    obtain ⟨lane, hlane⟩ := h.lanes k
    obtain rfl := (hlane.reset hstage).2
    have hnone : s.flights.filter (fun f ↦ f.direction = k) = [] := hlane.fits.1
    exact absurd hfk (by simpa using List.filter_eq_nil_iff.mp hnone f hf)

/-! ## Every run -/

instance (s : HostSerial) (e : SerialEvent) : Decidable (s.OneAtATime d frame e) := by
  unfold OneAtATime
  split
  · split <;> infer_instance
  · infer_instance

/-- **Every request gets its own completion**, if each direction begins one request at a time. -/
theorem own_completions (h : (machine d frame).ReachableWhile (OneAtATime d frame) s) :
    s.OwnCompletions frame := by
  obtain ⟨xs, ys, hs⟩ := h.invariant (I := fun s ↦ ∃ xs ys, s.Orderly d frame xs ys)
    ⟨_, _, orderly_init⟩ fun _ _ _ _ ⟨_, _, hs⟩ hc hn ↦ hs.next hc hn
  exact hs.ownCompletions

/-- Reads and writes take turns, and every request has a buffer of its own. -/
def alternating (i : IrpId) : Request := ⟨if i % 2 = 0 then ioRead else ioWrite, ⟨i, 8⟩⟩

/-- Only reads. -/
def reads (i : IrpId) : Request := ⟨ioRead, ⟨i, 8⟩⟩

/-- The worker begins the request it takes. -/
def begin : List SerialEvent := [.take, .work, .work, .issue none, .work]

/-- The host finishes an operation with `bytes`, and the interrupt is handled. -/
def answer (i : IrpId) (k : Direction) (buffer : Buffer) (bytes : UInt32) : List SerialEvent :=
  [.finish ⟨i, k, buffer, .running⟩ 0 bytes, .callback ⟨i, k, buffer, .stored bytes⟩,
    .callback ⟨i, k, buffer, .sending⟩, .irq k]

/-- A read and a write are under way, and the read is completed. -/
theorem own_completions_alternating :
    let s := (machine 0 alternating).afterWhile (OneAtATime 0 alternating)
      (([.submit, .submit] : List SerialEvent) ++ begin ++ begin ++ answer 0 .rx ⟨0, 8⟩ 5 ++
        ([.take, .work, .work, .work] : List SerialEvent))
    s.completed 0 = some (.ok (some 5)) ∧ s.OwnCompletions alternating :=
  ⟨by decide +kernel, own_completions (Machine.reachableWhile_afterWhile _)⟩

/-- The second of two reads takes over the record of the first one.  The first one is completed with
what the operation of the second one came to, while its own operation still runs. -/
theorem second_read_takes_over : ∃ s, (machine 0 reads).Reachable s ∧
    s.completed 0 = some (.ok (some 7)) ∧ s.finished 0 = none ∧
    ⟨0, .rx, ⟨0, 8⟩, .running⟩ ∈ s.flights ∧ ¬ s.OwnCompletions reads := by
  let s := (machine 0 reads).after (([.submit, .submit] : List SerialEvent) ++ begin ++ begin ++
    answer 1 .rx ⟨1, 8⟩ 7 ++ ([.take, .work, .work] : List SerialEvent))
  have hcompl : s.completed 0 = some (.ok (some 7)) := by decide +kernel
  have hfin : s.finished 0 = none := by decide +kernel
  refine ⟨s, Machine.reachable_after _, hcompl, hfin, by decide +kernel, fun hown ↦ ?_⟩
  have := (hown.own 0 .rx _ rfl hcompl).2
  rw [hfin] at this
  cases this

end HostSerial

end Chino
