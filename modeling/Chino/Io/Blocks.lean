import Chino.Io.WorkList

/-!
# Whose completion block is queued when

An asynchronous call hands its block over to the request, and the request queues it when it is
completed.  So a block has one holder, a call or a request, and `ready`, the list of the blocks that
were queued, has the blocks of the completed requests, each of them once.

The blocks are numbered by the calls that bring them.

## The holders

A `Holder` is a call, by its index in `Chino.Io.Calls`, or a request.  `Holds` reads off the state
whether it has a block.  There are five things that can happen to a block in a step:

* a call brings it, with the next number;
* the call hands it over to the request that it allocates;
* the call returns without a request, and the block is gone;
* the request is completed, and its block is about to be queued (`delivering`);
* the block is queued, with the status of its request (`queues`).

`Acts.holds_from` and `Acts.holds_unique` say that nothing else happens and that no block is copied
on the way.  `Blocks` is the invariant that comes of it: a block has one holder at most, `ready` has
no block twice, and each block in it is that of a completed request.  Which process it is queued to,
and who takes it from there, is the business of `Chino.Io.Ports`.
-/

set_option autoImplicit false

namespace Chino

open Function (update)
open IoManager (resume)

/-- The block that a call has not given to a request yet. -/
def Call.block? : Call → Option BlockId
  | fast _ _ block | slow _ _ block => block
  | _ => none

namespace IoManager

variable {s s' : IoManager} {L L' : IoQueues} {i j : IrpId} {device : FileId → DeviceId}
  {a : IoAction} {b : BlockId} {n : ℕ}

/-- Who may have a block. -/
inductive Holder where
  | call (p : CallIndex)
  | irp (i : IrpId)
deriving DecidableEq

/-- The block is with the holder. -/
def Holds (s : IoManager) (b : BlockId) : Holder → Prop
  | .call p => (s.callAt p).bind Call.block? = some b
  | .irp i => (s.irp i).asyncIoBlock = some b

/-- The completed request whose block the worker is about to queue. -/
def delivering (s : IoManager) : Option IrpId :=
  match s.stack with
  | ⟨_, .completing _ i _ _ .deliver _⟩ :: _ => some i
  | _ => none

/-- The block whose request is completed by the action. -/
def completes (s : IoManager) : IoAction → Option BlockId
  | .advance .worker => s.finishing.bind fun i ↦ (s.irp i).asyncIoBlock
  | _ => none

/-- The block that is queued by the action, and its status. -/
def queues (s : IoManager) : IoAction → Option (BlockId × IoStatus)
  | .advance .worker => s.delivering.bind fun i ↦
    (s.irp i).asyncIoBlock.map fun b ↦ (b, (s.irp i).status)
  | _ => none

/-- The blocks that have been brought so far are `n`, and each of them is in one place. -/
structure Blocks (s : IoManager) (n : ℕ) : Prop where
  lt : ∀ b h, s.Holds b h → b < n
  unique : ∀ b h h', s.Holds b h → s.Holds b h' → h = h'
  unborn : ∀ i, s.allocated ≤ i → (s.irp i).asyncIoBlock = none
  ready : ∀ b st, (b, st) ∈ s.ready → ∃ i r, (s.irp i).asyncIoBlock = some b ∧
    s.queued i = true ∧ (s.irp i).currentFrame = none ∧ s.outcome i = some r ∧
      st = ⟨r.code, r.bytes⟩
  queued : ∀ i b, (s.irp i).asyncIoBlock = some b → s.queued i = true →
    (s.irp i).currentFrame = none → (b ∈ s.ready.map Prod.fst ↔ s.delivering ≠ some i)
  nodup : (s.ready.map Prod.fst).Nodup

/-! ## What a step does to the holders -/

/-- A call has a block because it had it before, or because it has just brought it. -/
theorem Acts.block_call (ha : s.Acts device L a s' L') {p : CallIndex}
    (hp : s'.Holds b (.call p)) : s.Holds b (.call p) ∨
      ∃ x f kind, a = .dispatch x f kind (some b) ∧ p = s.index x := by
  have hp' : (s'.callAt p).bind Call.block? = some b := hp
  rcases ha.callAt with h | ⟨q, c', he, h⟩
  · exact Or.inl (by rw [h] at hp'; exact hp')
  · by_cases hpq : p = q
    · rw [h, hpq, Function.update_self] at hp'
      generalize hc : s.callAt q = c at he
      cases he with
      | @dispatch x f kind block => cases hp'; exact Or.inr ⟨x, f, kind, rfl, hpq⟩
      | moves hm => cases hm <;> first | exact Or.inl (by rw [Holds, hpq, hc]; exact hp') | cases hp'
      | allocate | drop | resume => cases hp'
      | enqueue hc₁ => split at hc₁ <;> subst hc₁ <;> cases hp'
    · rw [h, Function.update_of_ne hpq] at hp'
      exact Or.inl hp'

/-- Where a block comes from that a holder has. -/
theorem Acts.holds_from (ha : s.Acts device L a s' L') {h : Holder} (hh : s'.Holds b h) :
    s.Holds b h ∨
      (∃ x, h = .irp s.allocated ∧ s.Holds b (.call (s.index x)) ∧
        ¬ s'.Holds b (.call (s.index x)) ∧ a = .advance x) ∨
      ∃ x f kind, a = .dispatch x f kind (some b) ∧ h = .call (s.index x) := by
  cases h with
  | call p =>
    rcases ha.block_call hh with h | ⟨x, f, kind, rfl, rfl⟩
    · exact Or.inl h
    · exact Or.inr (Or.inr ⟨x, f, kind, rfl, rfl⟩)
  | irp i =>
    rcases ha.block_irp i with h | ⟨x, f, kind, block, rfl, hb, ha, hx, hx'⟩
    · exact Or.inl (h.symm.trans hh)
    · refine Or.inr (Or.inl ⟨x, rfl, ?_, ?_, ha⟩)
      · rw [Holds, hx.callAt]
        exact hb.symm.trans hh
      · rw [Holds, hx']
        simp [Call.block?]

/-- What a step does to the queued blocks. -/
inductive ReadyEffect (s : IoManager) (a : IoAction) (s' : IoManager) : Prop
  | kept (hr : s'.ready = s.ready) (hd : s'.delivering = s.delivering) (hq : s.queues a = none)
      (hf : s.completes a = none)
  | begun {i : IrpId} (hr : s'.ready = s.ready) (hd : s.delivering = none)
      (hd' : s'.delivering = some i) (hc : (s.irp i).currentFrame ≠ none) (hq : s.queues a = none)
      (hf : s.completes a = (s.irp i).asyncIoBlock)
  | done {i : IrpId} (hd : s.delivering = some i) (hd' : s'.delivering = none)
      (hr : s'.ready =
        s.ready ++ ((s.irp i).asyncIoBlock.map fun b ↦ (b, (s.irp i).status)).toList)
      (hq : s.queues a = (s.irp i).asyncIoBlock.map fun b ↦ (b, (s.irp i).status))
      (hf : s.completes a = none)

theorem InCall.delivering_setCall {s₁ : IoManager} {x : Caller} {c c' : Option Call}
    (hx : s.InCall x c) (h₂ : s₁.stack = s.stack) :
    (s₁.setCall x c').delivering = s.delivering := by
  cases x with
  | thread t => simp [delivering, setCall, h₂]
  | worker =>
    obtain ⟨w, d, i, last, hand, as, hs⟩ := hx
    rw [setCall_worker (h₂.trans hs)]
    simp [delivering, hs]

/-- A step of a call neither completes a request nor queues a block. -/
theorem InCall.idle {x : Caller} {c : Option Call} (hx : s.InCall x c) :
    s.queues (.advance x) = none ∧ s.completes (.advance x) = none := by
  cases x with
  | thread t => exact ⟨rfl, rfl⟩
  | worker =>
    obtain ⟨w, d, i, last, hand, as, hs⟩ := hx
    simp [queues, completes, delivering, finishing, hs]

theorem Acts.ready (ha : s.Acts device L a s' L') (hw : s.Working) : s.ReadyEffect a s' := by
  cases ha with
  | dispatch hx =>
    exact .kept (by unfold setCall; split <;> rfl) (hx.delivering_setCall (by rfl)) rfl rfl
  | @call x a c c' hx hm =>
    have hidle : s.queues a = none ∧ s.completes a = none := by
      cases hm <;> first | exact ⟨rfl, rfl⟩ | exact hx.idle
    exact .kept (by unfold setCall; split <;> rfl) (hx.delivering_setCall (by rfl)) hidle.1 hidle.2
  | allocate hx | enqueue hx | drop hx =>
    exact .kept (by unfold setCall; split <;> rfl) (hx.delivering_setCall (by rfl)) hx.idle.1
      hx.idle.2
  | await hx =>
    obtain ⟨hq, hf⟩ := hx.idle
    obtain ⟨w, d, i, last, hand, as, hs⟩ := hx
    exact .kept rfl (by simp [delivering, hs]) hq hf
  | turn hs hp hp' ht =>
    cases ht <;> exact .kept rfl (by simp [delivering, hs]) (by simp [queues, delivering, hs])
      (by simp [completes, finishing, hs])
  | @start w as d i last a r inside hs hr ha =>
    refine .kept rfl (by simp [delivering, hs]) ?_ ?_ <;>
      rcases ha with rfl | ⟨e, rfl⟩ <;> rfl
  | access | irq | requeue => exact .kept rfl rfl rfl rfl
  | deliver hs =>
    refine .done (by simp [delivering, hs]) ?_ rfl (by simp [queues, delivering, hs])
      (by simp [completes, finishing, hs])
    simp only [delivering]
    split
    · rename_i h
      split at h <;> cases h
    · rfl
  | @destroy w as d i last k result inside hs hk =>
    by_cases hk0 : k = 0
    · subst hk0
      exact .begun (i := i) rfl (by simp [delivering, hs]) (by simp [delivering]) (by simp [hk])
        (by simp [queues, delivering, hs]) (by simp [completes, finishing, hs, hk])
    · exact .kept rfl (by simp [delivering, hs, hk0]) (by simp [queues, delivering, hs])
        (by simp [completes, finishing, hs, hk, hk0])
  | check hs hp =>
    refine .kept rfl ?_ (by simp [queues, delivering, hs]) (by simp [completes, finishing, hs])
    rcases hp with ⟨-, rfl⟩ | ⟨-, rfl⟩ | ⟨-, rfl⟩ <;> simp [delivering, hs]
  | @release w as d i hs =>
    refine .kept rfl ?_ (by simp [queues, delivering, hs]) (by simp [completes, finishing, hs])
    by_cases hwi : w = some i
    · have hbelow := hw.below
      rw [hs] at hbelow
      rcases resume_cases as with he | ⟨_, _, _, _, _, _, _, rfl, he⟩
      · cases as with
        | nil => simp [delivering, hs, hwi, he]
        | cons b bs =>
          obtain ⟨v, q⟩ := b
          obtain ⟨_, _, _, _, _, hb⟩ := hbelow ⟨v, q⟩ (by simp)
          cases hb
          simp [delivering, hs, hwi, he]
      · simp [delivering, hs, hwi, he]
    · simp [delivering, hs, hwi]
  | pop hs | code hs | bytes hs | notify hs | park hs =>
    exact .kept rfl (by simp [delivering, hs]) (by simp [queues, delivering, hs])
      (by simp [completes, finishing, hs])
  | move hs | handOver hs | finish hs => exact .kept rfl (by simp [delivering, hs]) rfl rfl

/-! ## The invariant -/

/-- A completed request stays completed. -/
theorem Acts.stays_completed (ha : s.Acts device L a s' L') (hi : i < s.allocated)
    (hc : (s.irp i).currentFrame = none) : (s'.irp i).currentFrame = none := by
  cases ha.frames i with
  | kept _ hc' => rw [hc', hc]
  | constructed hj => exact absurd hi (hj ▸ lt_irrefl _)
  | moved _ hr =>
    obtain ⟨k, hk, -⟩ := IoRequest.moveNextFrame_eq_some.mp hr
    rw [hc] at hk
    cases hk
  | destroyed _ _ hk => rw [hc] at hk; cases hk

theorem Inv.lt_of_queued (h : s.Inv L) (hq : s.queued i = true) : i < s.allocated := by
  by_contra hi
  rw [(h.issued.unborn i (Nat.le_of_not_lt hi)).1] at hq
  cases hq

/-- The request whose block is about to be queued is completed. -/
theorem Inv.of_delivering (h : s.Inv L) (hd : s.delivering = some i) :
    s.queued i = true ∧ (s.irp i).currentFrame = none ∧ s.outcome i ≠ none := by
  unfold delivering at hd
  split at hd
  · cases hd
    rename_i hs
    obtain ⟨hq, hc, ho⟩ := h.working.queued_top hs
    exact ⟨hq, hc.mpr rfl, fun hn ↦ by simpa using ho.mpr hn⟩
  · cases hd

/-- A block goes from one holder to the next. -/
theorem Acts.holds_unique (ha : s.Acts device L a s' L') (hb : s.Blocks n)
    (hnew : ∀ x f kind b, a = .dispatch x f kind (some b) → n ≤ b) {h₁ h₂ : Holder}
    (hh₁ : s'.Holds b h₁) (hh₂ : s'.Holds b h₂) : h₁ = h₂ := by
  have hno : ∀ {x f kind} {h : Holder}, a = .dispatch x f kind (some b) → ¬ s.Holds b h :=
    fun ha hh ↦ absurd (hnew _ _ _ _ ha) (not_le_of_gt (hb.lt _ _ hh))
  -- a block that is with a call now has not gone from it to a request
  have hgone : ∀ {x h}, s.Holds b (.call (s.index x)) → ¬ s'.Holds b (.call (s.index x)) →
      s.Holds b h → s'.Holds b h → False := fun hc hc' hh hh' ↦
    hc' (hb.unique b _ _ hh hc ▸ hh')
  rcases ha.holds_from hh₁ with h | ⟨x, rfl, h, h', -⟩ | ⟨x, f, kind, he, rfl⟩ <;>
    rcases ha.holds_from hh₂ with k | ⟨y, rfl, k, k', -⟩ | ⟨y, g, kind', he', rfl⟩
  · exact hb.unique b _ _ h k
  · exact (hgone k k' h hh₁).elim
  · exact (hno he' h).elim
  · exact (hgone h h' k hh₂).elim
  · rfl
  · exact (hno he' h).elim
  · exact (hno he k).elim
  · exact (hno he k).elim
  · cases he.symm.trans he'
    rfl

/-- **A step keeps the blocks in their places.** -/
theorem Acts.blocks (ha : s.Acts device L a s' L') (h : s.Inv L) (hw : s.Written) {n' : ℕ}
    (hb : s.Blocks n) (hn : n ≤ n')
    (hnew : ∀ x f kind b, a = .dispatch x f kind (some b) → n ≤ b ∧ b < n') : s'.Blocks n' := by
  have hiss := ha.issued h.issued h.working.topQueued
  -- the entries of the list stay true
  have hold : ∀ b st, (b, st) ∈ s.ready → ∃ i r, (s'.irp i).asyncIoBlock = some b ∧
      s'.queued i = true ∧ (s'.irp i).currentFrame = none ∧ s'.outcome i = some r ∧
        st = ⟨r.code, r.bytes⟩ := fun b st hm ↦ by
    obtain ⟨i, r, hi, hq, hc, ho, hst⟩ := hb.ready b st hm
    have hlt := h.lt_of_queued hq
    obtain ⟨hi', -, ho'⟩ := ha.keeps h hlt
    exact ⟨i, r, hi'.trans hi, ha.queued_mono hq, ha.stays_completed hlt hc, ho' r ho, hst⟩
  have hfresh : ∀ {i b}, s.delivering = some i → (s.irp i).asyncIoBlock = some b →
      b ∉ s.ready.map Prod.fst := fun hd hi hm ↦ by
    obtain ⟨hq, hc, -⟩ := h.of_delivering hd
    exact (hb.queued _ _ hi hq hc).mp hm hd
  refine ⟨fun b h₁ hh ↦ ?_, fun b h₁ h₂ hh₁ hh₂ ↦ ?_, fun i hi ↦ ?_, fun b st hm ↦ ?_,
    fun i b hi hq hc ↦ ?_, ?_⟩
  · rcases ha.holds_from hh with hh | ⟨x, -, hh, -⟩ | ⟨x, f, kind, rfl, -⟩
    · exact (hb.lt b _ hh).trans_le hn
    · exact (hb.lt b _ hh).trans_le hn
    · exact (hnew x f kind b rfl).2
  · exact ha.holds_unique hb (fun x f kind b he ↦ (hnew x f kind b he).1) hh₁ hh₂
  · rcases ha.block_irp i with he | ⟨x, f, kind, block, rfl, -, -, -, hx'⟩
    · rw [he, hb.unborn i (ha.allocated_le.trans hi)]
    · exact absurd (hiss.lt _ _ _ hx' rfl) (not_lt_of_ge hi)
  · cases ha.ready h.working with
    | kept hr => exact hold b st (hr ▸ hm)
    | begun hr => exact hold b st (hr ▸ hm)
    | @done i hd hd' hr =>
      rw [hr, List.mem_append] at hm
      rcases hm with hm | hm
      · exact hold b st hm
      · obtain ⟨hq, hc, ho⟩ := h.of_delivering hd
        obtain ⟨r, ho⟩ := Option.ne_none_iff_exists'.mp ho
        have hlt := h.lt_of_queued hq
        obtain ⟨hi', -, ho'⟩ := ha.keeps h hlt
        obtain ⟨b', hb', he⟩ := Option.mem_map.mp (Option.mem_toList.mp hm)
        cases he
        exact ⟨i, r, hi'.trans hb', ha.queued_mono hq, ha.stays_completed hlt hc, ho' r ho,
          (hw.done i r ho).1⟩
  · have hcur : (s'.irp i).currentFrame ≠ some 0 := by rw [hc]; simp
    have hi₀ : (s.irp i).asyncIoBlock = some b := by
      rcases ha.block_irp i with he | ⟨x, f, kind, block, rfl, -, -, -, hx'⟩
      · exact he.symm.trans hi
      · exact absurd (hiss.early _ _ _ hx' rfl rfl).2 hcur
    by_cases hc₀ : (s.irp i).currentFrame = none
    · have hq₀ : s.queued i = true := by
        rcases ha.queued_from h hq with hq₀ | h0
        · exact hq₀
        · rw [hc₀] at h0; cases h0
      have hiff := hb.queued i b hi₀ hq₀ hc₀
      cases ha.ready h.working with
      | kept hr hd => rw [hr, hd, hiff]
      | @begun j hr hd hd' hcj =>
        rw [hr, hiff, hd, hd']
        simp only [ne_eq, reduceCtorEq, not_false_eq_true, Option.some.injEq, true_iff]
        rintro rfl
        exact hcj hc₀
      | @done j hd hd' hr =>
        rw [hr, hd', List.map_append, List.mem_append]
        refine iff_of_true ?_ (by simp)
        by_cases hij : j = i
        · subst hij
          exact Or.inr (by simp [hi₀])
        · exact Or.inl (hiff.mpr (by simpa [hd] using hij))
    · -- the last frame is destroyed in this step
      have hnot : b ∉ s.ready.map Prod.fst := fun hm ↦ by
        obtain ⟨⟨b', st⟩, hm', rfl⟩ := List.mem_map.mp hm
        obtain ⟨j, r, hj, -, hcj, -⟩ := hb.ready _ st hm'
        cases hb.unique _ (.irp j) (.irp i) hj hi₀
        exact hc₀ hcj
      have hdel : s'.delivering = some i := by
        cases ha.frames i with
        | kept _ hc' => exact absurd (hc' ▸ hc) hc₀
        | constructed _ hr => rw [hr] at hc; cases hc
        | moved _ hr =>
          obtain ⟨_, -, -, hr⟩ := IoRequest.moveNextFrame_eq_some.mp hr
          rw [hr] at hc
          cases hc
        | @destroyed _ _ _ _ k _ _ _ hs' hk hr =>
          have hk0 : k = 0 := by
            by_contra hk0
            simp [hr, IoRequest.destroyFrame_eq hk, hk0] at hc
          subst hk0
          simp [delivering, hs']
      refine iff_of_false (fun hm ↦ ?_) (by simp [hdel])
      cases ha.ready h.working with
      | kept hr => exact hnot (hr ▸ hm)
      | begun hr => exact hnot (hr ▸ hm)
      | done _ hd' => rw [hdel] at hd'; cases hd'
  · cases ha.ready h.working with
    | kept hr => exact hr ▸ hb.nodup
    | begun hr => exact hr ▸ hb.nodup
    | @done i hd hd' hr =>
      rw [hr, List.map_append]
      cases hbl : (s.irp i).asyncIoBlock with
      | none => simpa using hb.nodup
      | some b =>
        have := hfresh hd hbl
        refine List.nodup_append.mpr ⟨hb.nodup, by simp, fun c hc d hd ↦ ?_⟩
        rintro rfl
        simp only [Option.map_some, Option.toList_some, List.map_cons, List.map_nil,
          List.mem_singleton] at hd
        exact this (hd ▸ hc)

end IoManager

end Chino
