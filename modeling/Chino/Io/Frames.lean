import Chino.Io.Files
import Chino.Io.Reach
import Chino.Library.Count
import Mathlib.Data.Finset.Prod

/-!
# The frames that name a file

A step of the I/O manager constructs one frame at most, or destroys one; `IoManager.taken` and
`IoManager.given` are their files.  So the number of live frames that name a file is counted along
(`Acts.frameRefs`).

A frame is storage of a request, and is alive between `construct_at` and `destroy_at`.  Its
`object_ptr` is a reference as long as it is.  The number of live frames with one file is a sum over
requests and their stack places, of which only finitely many are alive (`FramesIn`), so a step that
writes one frame changes it by one at most: `frameRefs_write`.  `Acts.framesEffect` goes through the
steps once and says which frame each of them writes; the counts in `Chino.Io.FileRefs` rest on this
alone.
-/

set_option autoImplicit false

namespace Chino

open Function (update)
open Finset (range)

/-- The file that the frame names, if it is alive. -/
def IoRequest.fileAt (r : IoRequest) (k : ℕ) : Option FileId := (r.frames k).map IoFrame.file

namespace IoManager

variable {s s' : IoManager} {L L' : IoQueues} {device : FileId → DeviceId} {a : IoAction}
  {x : Caller}
  {c c' : Option Call} {w : Option IrpId} {p : Phase} {as : List Activation} {i : IrpId} {k : ℕ}

/-! ## Frames -/

/-- The live frames are those of requests that were allocated. -/
def FramesIn (s : IoManager) : Prop :=
  ∀ i k, (s.irp i).frames k ≠ none → i < s.allocated ∧ k < frameCount

/-- The number of live frames that name the file. -/
noncomputable def frameRefs (s : IoManager) (f : FileId) : ℕ :=
  count (range s.allocated ×ˢ range frameCount) fun x ↦ (s.irp x.1).fileAt x.2 = some f

/-- What a step does to the frames. -/
inductive FramesEffect (s : IoManager) (a : IoAction) (s' : IoManager) : Prop
  | kept (hf : ∀ j, (s'.irp j).frames = (s.irp j).frames) (hn : s'.allocated = s.allocated)
      (ht : s.taken a = none) (hg : s.given a = none)
  | constructed {x : Caller} {block : Option BlockId} {kind : IoFrameKind} {f : FileId}
      (hx : s.InCall x (some (.slow f kind block)))
      (hr : s'.irp = update s.irp s.allocated (.construct block kind f))
      (hn : s'.allocated = s.allocated + 1) (ht : s.taken a = some f) (hg : s.given a = none)
  | moved {w : Option IrpId} {as : List Activation} {d : DeviceId} {i : IrpId} {last : ℕ}
      {kind : IoFrameKind} {f : FileId} {r : IoRequest} (ha : a = .move kind f)
      (hs : s.stack = ⟨w, .processing d i last .fresh none⟩ :: as)
      (hm : (s.irp i).moveNextFrame kind f = some r) (hr : s'.irp = update s.irp i r)
      (hn : s'.allocated = s.allocated) (ht : s.taken a = some f) (hg : s.given a = none)
  | destroyed {i : IrpId} {k : ℕ} (hk : (s.irp i).currentFrame = some k)
      (hr : s'.irp = update s.irp i (s.irp i).destroyFrame) (hn : s'.allocated = s.allocated)
      (ht : s.taken a = none) (hg : s.given a = (s.irp i).fileAt k)

theorem InCall.callOf (hx : s.InCall x c) : s.callOf x = c := by
  cases x with
  | thread t => exact hx
  | worker =>
    obtain ⟨w, d, i, last, hand, as, hs⟩ := hx
    simp [IoManager.callOf, hs]

theorem callOf_worker (hs : s.stack = ⟨w, p⟩ :: as) : s.callOf .worker = p.call? := by
  cases p <;> simp [callOf, hs, Phase.call?]

theorem InCall.given_eq_none (hx : s.InCall x c) : s.given (.advance x) = none := by
  cases x with
  | thread t => rfl
  | worker =>
    obtain ⟨w, d, i, last, hand, as, hs⟩ := hx
    simp [given, hs]

theorem taken_of_top (hs : s.stack = ⟨w, p⟩ :: as) (hp : p.call? = none) :
    s.taken (.advance .worker) = none := by
  simp [taken, callOf_worker hs, hp]

theorem setIrp_frames {r : IoRequest} (hr : r.frames = (s.irp i).frames) (j : IrpId) :
    ((s.setIrp i r).irp j).frames = (s.irp j).frames := by
  by_cases hj : j = i
  · subst hj
    simp [setIrp, hr]
  · simp [setIrp, hj]

theorem CallMoves.taken_given (hm : s.CallMoves x a c c') (hx : s.InCall x c) :
    s.taken a = none ∧ s.given a = none := by
  have hg := hx.given_eq_none
  have hc := hx.callOf
  cases hm with
  | slow | answered | exhausted => exact ⟨rfl, rfl⟩
  | fill | watch | awaited | wake | success | error | bytes => exact ⟨by simp [taken, hc], hg⟩

/-- **What a step does to the frames**: it constructs or destroys one at most. -/
theorem Acts.framesEffect (ha : s.Acts device L a s' L') : s.FramesEffect a s' := by
  cases ha with
  | dispatch hx => exact .kept (by simp) (by simp) rfl rfl
  | call hx hm =>
    obtain ⟨ht, hg⟩ := hm.taken_given hx
    exact .kept (by simp) (by simp) ht hg
  | allocate hx =>
    exact .constructed hx (by simp) (by simp) (by simp [taken, hx.callOf]) hx.given_eq_none
  | @enqueue x i frame c h' work avail hx =>
    refine .kept (fun j ↦ ?_) (by simp [pushed, addRef, setIrp]) (by simp [taken, hx.callOf])
      hx.given_eq_none
    rw [setCall_irp]
    exact setIrp_frames (r := { s.irp i with refCount := (s.irp i).refCount + 1 }) rfl j
  | await hx => exact .kept (fun j ↦ rfl) rfl (by simp [taken, hx.callOf]) hx.given_eq_none
  | @drop x i r hx =>
    refine .kept (fun j ↦ ?_) (by simp [decRef, setIrp]) 
      (by simp [taken, hx.callOf]) hx.given_eq_none
    rw [setCall_irp]
    exact setIrp_frames (r := { s.irp i with refCount := (s.irp i).refCount - 1 }) rfl j
  | @turn w as p p' work avail hs hp =>
    refine .kept (fun j ↦ rfl) rfl (taken_of_top hs (Phase.call?_of_irp? hp)) ?_
    cases p with
    | picking | sleeping | popping => simp [given, hs]
    | processing | completing | checking | dropping | parking => cases hp
  | pop hs => exact .kept (fun j ↦ rfl) rfl (taken_of_top hs rfl) (by simp [given, hs])
  | access | handOver | finish | irq | requeue => exact .kept (fun j ↦ rfl) rfl rfl rfl
  | start hs hr ha =>
    obtain rfl | ⟨e, rfl⟩ := ha <;> exact .kept (fun j ↦ rfl) rfl rfl rfl
  | move hs hr => exact .moved rfl hs hr rfl rfl rfl rfl
  | code hs => exact .kept (setIrp_frames rfl) rfl (taken_of_top hs rfl) (by simp [given, hs])
  | bytes hs =>
    exact .kept (setIrp_frames (IoRequest.finishBytes_frames _ _)) rfl (taken_of_top hs rfl)
      (by simp [given, hs])
  | notify hs => exact .kept (fun j ↦ rfl) rfl (taken_of_top hs rfl) (by simp [given, hs])
  | @destroy w as d i last k result inside hs hk =>
    refine .destroyed hk rfl rfl (taken_of_top hs rfl) ?_
    cases hf : (s.irp i).frames k <;> simp [given, hs, hk, IoRequest.fileAt, hf]
  | deliver hs => exact .kept (fun j ↦ rfl) rfl (taken_of_top hs rfl) (by simp [given, hs])
  | check hs => exact .kept (fun j ↦ rfl) rfl (taken_of_top hs rfl) (by simp [given, hs])
  | release hs => exact .kept (setIrp_frames rfl) rfl (taken_of_top hs rfl) (by simp [given, hs])
  | park hs => exact .kept (fun j ↦ rfl) rfl (taken_of_top hs rfl) (by simp [given, hs])

/-! ## Counting the frames -/

theorem framesIn_init : init.FramesIn := fun _ _ h ↦ absurd rfl h

theorem FramesIn.fileAt_eq_none (h : s.FramesIn) (hi : ¬ (i < s.allocated ∧ k < frameCount)) :
    (s.irp i).fileAt k = none := by
  have hnone : (s.irp i).frames k = none := by
    by_contra hne
    exact hi (h i k hne)
  rw [IoRequest.fileAt, hnone]
  rfl

theorem FramesIn.of_current (h : s.FramesIn) (hs : (s.irp i).Stacked)
    (hk : (s.irp i).currentFrame = some k) : i < s.allocated ∧ k < frameCount := by
  obtain ⟨frame, hf⟩ := hs.exists_frame hk le_rfl
  exact h i k (by rw [hf]; exact Option.some_ne_none _)

section Write

variable {r : IoRequest} (hr : s'.irp = update s.irp i r) (hn : s'.allocated = s.allocated)
  (hi : i < s.allocated) (hk : k < frameCount) (hf : ∀ l ≠ k, r.frames l = (s.irp i).frames l)

include hr hn hi hk hf

/-- One frame changes. -/
theorem frameRefs_write (f : FileId) : s'.frameRefs f + tally ((s.irp i).fileAt k = some f) =
    s.frameRefs f + tally (r.fileAt k = some f) := by
  have hchange := count_change (T := range s.allocated ×ˢ range frameCount) (t := (i, k))
    (P := fun x ↦ (s'.irp x.1).fileAt x.2 = some f) (Q := fun x ↦ (s.irp x.1).fileAt x.2 = some f)
    (Finset.mem_product.mpr ⟨Finset.mem_range.mpr hi, Finset.mem_range.mpr hk⟩) fun x _ hne ↦ by
      obtain ⟨j, l⟩ := x
      by_cases hj : j = i
      · subst hj
        have hl : l ≠ k := fun hl ↦ hne (by rw [hl])
        rw [hr, Function.update_self, IoRequest.fileAt, IoRequest.fileAt, hf l hl]
      · rw [hr, Function.update_of_ne hj]
  rw [frameRefs, frameRefs, hn]
  simp only [hr, Function.update_self] at hchange ⊢
  exact hchange

theorem FramesIn.write (h : s.FramesIn) : s'.FramesIn := by
  intro j l hl
  rw [hn]
  rw [hr] at hl
  by_cases hj : j = i
  · subst hj
    by_cases hlk : l = k
    · exact ⟨hi, hlk ▸ hk⟩
    · rw [Function.update_self, hf l hlk] at hl
      exact h j l hl
  · rw [Function.update_of_ne hj] at hl
    exact h j l hl

end Write

/-- A request is allocated, with a frame. -/
theorem frameRefs_construct {f : FileId} {block : Option BlockId} {kind : IoFrameKind}
    (h : s.FramesIn)
    (hr : s'.irp = update s.irp s.allocated (.construct block kind f))
    (hn : s'.allocated = s.allocated + 1) (g : FileId) :
    s'.frameRefs g = s.frameRefs g + tally (some f = some g) := by
  have hnone : ∀ k, (s.irp s.allocated).fileAt k = none := fun k ↦
    h.fileAt_eq_none fun hin ↦ lt_irrefl _ hin.1
  -- the new request had no frames before
  have hold : count (range (s.allocated + 1) ×ˢ range frameCount)
      (fun x ↦ (s.irp x.1).fileAt x.2 = some g) = s.frameRefs g := by
    refine congrArg Finset.card (Finset.ext fun x ↦ ?_)
    simp only [Finset.mem_filter, Finset.mem_product, Finset.mem_range]
    refine ⟨fun hx ↦ ⟨⟨?_, hx.1.2⟩, hx.2⟩, fun hx ↦ ⟨⟨Nat.lt_succ_of_lt hx.1.1, hx.1.2⟩, hx.2⟩⟩
    by_contra hlt
    rw [h.fileAt_eq_none fun hin ↦ hlt hin.1] at hx
    cases hx.2
  have hnew : (s'.irp s.allocated).fileAt 0 = some f := by
    rw [hr, Function.update_self]
    rfl
  have hchange := count_change (T := range (s.allocated + 1) ×ˢ range frameCount)
    (t := (s.allocated, 0)) (P := fun x ↦ (s'.irp x.1).fileAt x.2 = some g)
    (Q := fun x ↦ (s.irp x.1).fileAt x.2 = some g) (by simp [frameCount]) fun x _ hne ↦ by
      obtain ⟨j, l⟩ := x
      by_cases hj : j = s.allocated
      · subst hj
        have hl : l ≠ 0 := fun hl ↦ hne (by rw [hl])
        simp only [hnone]
        simp [hr, IoRequest.fileAt, IoRequest.construct, hl]
      · rw [hr, Function.update_of_ne hj]
  rw [hold, hnone, hnew, tally_of_not (by simp)] at hchange
  rw [frameRefs, hn]
  exact hchange

/-- **The frames that name a file** are as many more as a step constructs, and as many less as it
destroys. -/
theorem Acts.frameRefs (ha : s.Acts device L a s' L') (hL : s.Inv L) (h : s.FramesIn) (f : FileId) :
    s'.frameRefs f + tally (s.given a = some f) = s.frameRefs f + tally (s.taken a = some f) := by
  cases ha.framesEffect with
  | kept hf hn ht hg =>
    rw [ht, hg, IoManager.frameRefs, IoManager.frameRefs, hn]
    simp only [IoRequest.fileAt, hf]
  | constructed hx hr hn ht hg =>
    have hnone : tally (none = some f) = 0 := tally_of_not (Option.some_ne_none f).symm
    rw [ht, hg, frameRefs_construct h hr hn, hnone, Nat.add_zero]
  | @moved w as d i last kind g r _ _ hm hr hn ht hg =>
    obtain ⟨k, hk, hlt, rfl⟩ := IoRequest.moveNextFrame_eq_some.mp hm
    obtain ⟨hi, hk₀⟩ := h.of_current (hL.stacked i) hk
    have hdead : (s.irp i).frames (k + 1) = none := by
      have := (hL.stacked i (k + 1)).not.mpr (by simp [hk])
      simpa using this
    have hchange := frameRefs_write hr hn hi (show k + 1 < frameCount by omega)
      (fun l hl ↦ Function.update_of_ne hl _ _) f
    simp only [IoRequest.fileAt, hdead, Function.update_self] at hchange
    rw [ht, hg]
    exact hchange
  | @destroyed i k hk hr hn ht hg =>
    obtain ⟨hi, hk₀⟩ := h.of_current (hL.stacked i) hk
    rw [IoRequest.destroyFrame_eq hk] at hr
    have hchange := frameRefs_write hr hn hi hk₀ (fun l hl ↦ Function.update_of_ne hl _ _) f
    have hnew : IoRequest.fileAt { s.irp i with
        frames := update (s.irp i).frames k none
        currentFrame := if k = 0 then none else some (k - 1) } k = none := by
      simp [IoRequest.fileAt]
    rw [hnew] at hchange
    rw [ht, hg]
    exact hchange

theorem Acts.framesIn (ha : s.Acts device L a s' L') (hL : s.Inv L) (h : s.FramesIn) :
    s'.FramesIn := by
  cases ha.framesEffect with
  | kept hf hn =>
    intro j l hl
    rw [hf] at hl
    exact hn ▸ h j l hl
  | constructed hx hr hn =>
    intro j l hl
    rw [hn]
    rw [hr] at hl
    by_cases hj : j = s.allocated
    · refine ⟨Nat.lt_succ_of_le (Nat.le_of_eq hj), ?_⟩
      by_contra hlt
      have hl₀ : l ≠ 0 := fun hl₀ ↦ hlt (by simp [hl₀, frameCount])
      rw [hj, Function.update_self] at hl
      exact hl (by simp [IoRequest.construct, hl₀])
    · rw [Function.update_of_ne hj] at hl
      obtain ⟨hlt, hk⟩ := h j l hl
      exact ⟨Nat.lt_succ_of_lt hlt, hk⟩
  | @moved w as d i last kind g r _ _ hm hr hn =>
    obtain ⟨k, hk, hlt, rfl⟩ := IoRequest.moveNextFrame_eq_some.mp hm
    obtain ⟨hi, hk₀⟩ := h.of_current (hL.stacked i) hk
    exact h.write hr hn hi (show k + 1 < frameCount by omega) fun l hl ↦
      Function.update_of_ne hl _ _
  | @destroyed i k hk hr hn =>
    obtain ⟨hi, hk₀⟩ := h.of_current (hL.stacked i) hk
    rw [IoRequest.destroyFrame_eq hk] at hr
    exact h.write hr hn hi hk₀ fun l hl ↦ Function.update_of_ne hl _ _

end IoManager

end Chino
