import Chino.Io.Iocp

/-!
# Asynchronous reads complete once

What was queued to a process is what its threads have taken from its list and what is still there,
in this order; `Ports` says so for every process.  `Pool` follows the blocks: a block that is
allocated is with a call, with a request, or was taken and is about to be freed.

Both rely on `Chino.Io.Blocks` for the way from the call to the list, and on one condition: a call
does not run out of requests once it has a block, because it would keep the block then
(`leaked_block`).

## What a step can do

The machine of `Chino.Io.Iocp` takes every step of the I/O manager and adds its own.  `IoEffect`
lists what a step of the first kind does to the lists and the pool, and `Effect` all kinds:

* a block is allocated, with its process;
* a completed block is queued to that process, with its result;
* a thread takes the block in front of the list of its process;
* a thread returns it, and frees it.

`Ports` is checked for these alone.  It says that for each process `taken ++ list` is what was
queued to it, in the order of the completions, so the list is a queue and no block is delivered
twice.
-/

set_option autoImplicit false

namespace Chino

open Function (update)

/-- The block that a thread has taken off its list. -/
def Consumer.block? : Consumer → Option BlockId
  | freeing b | returning b => some b
  | _ => none

/-! ## Calls with a block -/

namespace IoManager

variable {s s' : IoManager} {L L' : IoQueues} {i : IrpId} {device : FileId → DeviceId}
  {a : IoAction} {b : BlockId} {n : ℕ} {t : ThreadId} {r : IoResult}

/-- A thread does not wait for a request with a block. -/
def AsyncCalls (s : IoManager) : Prop :=
  ∀ t c i, s.call t = some c → c.irp? = some i → (s.irp i).asyncIoBlock ≠ none →
    c.early = true ∨ c = .returning i (.err .ioPending)

theorem Acts.asyncCalls (ha : s.Acts device L a s' L') (h : s.Inv L) (hc : s.AsyncCalls) :
    s'.AsyncCalls := by
  intro t c' i hct hi hb
  have hct' : s'.callAt (.thread t) = some c' := hct
  have hold : ∀ {c}, s.call t = some c → c.irp? = some i →
      c.early = true ∨ c = .returning i (.err .ioPending) := fun hct hi ↦ by
    obtain ⟨hb', -⟩ := ha.keeps h (h.issued.lt (.thread t) _ i hct hi)
    exact hc t _ i hct hi (hb' ▸ hb)
  rcases ha.callAt with he | ⟨p, c₁, he, h'⟩
  · rw [he] at hct'
    exact hold hct' hi
  · by_cases hpt : p = .thread t
    · rw [h', hpt, Function.update_self] at hct'
      generalize hc₀ : s.callAt p = c₀ at he
      rw [hpt] at hc₀
      cases he with
      | dispatch => cases hct'; cases hi
      | moves hm =>
        obtain ⟨c, rfl, hi', hearly⟩ := hm.origin hct' hi
        refine (hold hc₀ hi').imp (fun h ↦ hearly ▸ h) fun hr ↦ ?_
        subst hr
        cases hm
      | allocate => cases hct'; exact Or.inl rfl
      | @enqueue x j c _ hc₁ =>
        cases hct'
        have hij : i = j := by
          split at hc₁ <;> (subst hc₁; cases hi; rfl)
        subst hij
        obtain ⟨hb', -⟩ := ha.keeps h (h.issued.lt (.thread t) _ i hc₀ rfl)
        rw [hb'] at hb
        rw [if_pos (by simpa [Option.isSome_iff_ne_none] using hb)] at hc₁
        exact Or.inr hc₁
      | drop => cases hct'
      | resume => cases hpt
    · rw [h', Function.update_of_ne (Ne.symm hpt)] at hct'
      exact hold hct' hi

/-- A call that has a block and is about to allocate its request. -/
theorem Acts.slow (ha : s.Acts device L a s' L') {f : FileId} {kind : IoFrameKind}
    (hc : s.call t = some (.slow f kind (some b))) :
    s'.call t = some (.slow f kind (some b)) ∨ (∃ i, (s'.irp i).asyncIoBlock = some b) ∨
      a = .exhausted (.thread t) := by
  have hc' : s.callAt (.thread t) = some (.slow f kind (some b)) := hc
  rcases ha.callAt with he | ⟨p, c₁, he, h'⟩
  · exact Or.inl ((congrFun he (.thread t)).trans hc')
  · by_cases hpt : p = .thread t
    · rw [← hpt] at hc'
      rw [hc'] at he
      generalize hc₀ : some (Call.slow f kind (some b)) = c₀ at he
      cases he with
      | moves hm =>
        subst hc₀
        cases hm
        exact Or.inr (Or.inr (by rw [index_eq_thread hpt]))
      | @allocate x f kind block _ _ hirp =>
        cases hc₀
        exact Or.inr (Or.inl ⟨s.allocated, by rw [hirp, Function.update_self]; rfl⟩)
      | _ => cases hc₀
    · refine Or.inl ?_
      have := congrFun h' (.thread t)
      rw [Function.update_of_ne (Ne.symm hpt)] at this
      exact this.trans hc'

/-- A call that returns has a queued request, or its block is with nobody afterwards. -/
theorem Acts.answers (ha : s.Acts device L a s' L') (h : s.Inv L) (hb : s.Blocks n)
    (hc : s.AsyncCalls) (hn : s.next device a = some s') (hans : s.answers a = some (b, r)) :
    b < n ∧ ((r = .err .ioPending ∧ ∃ i, s'.Holds b (.irp i) ∧ s'.queued i = true) ∨
      (r = .err .outOfMemory ∨ ∃ t, a = .fast (.thread t) r ∧
        (s.call t).bind Call.block? = some b) ∧
        ∀ h, ¬ s'.Holds b h) := by
  -- nobody has the block of a call that is over
  have hgone : ∀ {t}, s.Holds b (.call (.thread t)) → s'.call t = none →
      (∀ x, a ≠ .advance x) → (∀ x f kind block, a ≠ .dispatch x f kind block) →
      ∀ h, ¬ s'.Holds b h := by
    intro t ht ht' hadv hdisp h hh
    rcases ha.holds_from hh with hh₀ | ⟨x, -, -, -, rfl⟩ | ⟨x, f, kind, rfl, -⟩
    · cases hb.unique b _ _ hh₀ ht
      have : (s'.call t).bind Call.block? = some b := hh
      rw [ht'] at this
      cases this
    · exact hadv x rfl
    · exact hdisp x f kind _ rfl
  unfold IoManager.answers at hans
  split at hans
  · rename_i t r'
    split at hans
    · rename_i f kind b' hct
      split at hans
      · cases hans
      · rename_i hr
        cases hans
        have hbt : s.Holds b (.call (.thread t)) := by
          show (s.call t).bind Call.block? = some b
          rw [hct]
          rfl
        refine ⟨hb.lt b _ hbt, Or.inr ⟨Or.inr ⟨t, rfl, hbt⟩, hgone hbt ?_ (by simp) (by simp)⟩⟩
        simp only [next, callOf, hct, hr, if_false, Option.some.injEq] at hn
        simp [← hn, setCall]
    · cases hans
  · rename_i t
    split at hans
    · rename_i f kind b' hct
      cases hans
      have hbt : s.Holds b (.call (.thread t)) := by
        show (s.call t).bind Call.block? = some b
        rw [hct]
        rfl
      refine ⟨hb.lt b _ hbt, Or.inr ⟨Or.inl rfl, hgone hbt ?_ (by simp) (by simp)⟩⟩
      simp only [next, callOf, hct, Option.some.injEq] at hn
      simp [← hn, setCall]
    · cases hans
  · rename_i t
    split at hans
    · rename_i i r' hct
      obtain ⟨b', hi, he⟩ := Option.map_eq_some_iff.mp hans
      cases he
      have hca : s.callAt (.thread t) = some (.returning i r) := hct
      have hr : r = .err .ioPending := by
        rcases hc t _ i hct rfl (by simp [hi]) with he | he
        · cases he
        · cases he
          rfl
      have hlt := h.issued.lt _ _ i hca rfl
      exact ⟨hb.lt b (.irp i) hi, Or.inl ⟨hr, i, (ha.keeps h hlt).1.trans hi,
        ha.queued_mono (h.issued.late _ _ i hca rfl rfl)⟩⟩
    · cases hans
  · cases hans

end IoManager

namespace Iocp

variable {s s' : Iocp} {L L' : IoQueues} {Q : ProcessId → List BlockId}
  {device : FileId → DeviceId} {processOf : ThreadId → ProcessId} {a : IocpAction} {e : IoAction}
  {b : BlockId} {t t' : ThreadId} {p q : ProcessId}

/-! ## What a step can do -/

/-- A call with a block finds a request, and the fast function does not answer it with
`io_pending`. -/
def NoLeak (s : Iocp) : IocpAction → Prop
  | .io (.exhausted (.thread t)) | .io (.fast (.thread t) (.err .ioPending)) =>
    (s.io.call t).bind Call.block? = none
  | _ => True

instance : (a : IocpAction) → Decidable (s.NoLeak a)
  | .io (.exhausted (.thread t)) | .io (.fast (.thread t) (.err .ioPending)) =>
    inferInstanceAs (Decidable ((s.io.call t).bind Call.block? = none))
  | a => by unfold NoLeak; split <;> infer_instance

/-- What a step of the I/O manager does to the rest. -/
structure IoEffect (s : Iocp) (e : IoAction) (s' : Iocp) : Prop where
  live : s'.live = s.live
  process : s'.process = s.process
  consumer : s'.consumer = s.consumer
  dequeued : s'.dequeued = s.dequeued
  delivered : s'.delivered = s.delivered
  frees : s'.frees = s.frees
  calls : s.calls ≤ s'.calls
  issuer : ∀ b < s.calls, s'.issuer b = s.issuer b
  brings : ∀ x f kind b, e = .dispatch x f kind (some b) →
    b = s.calls ∧ b < s'.calls ∧ x = .thread (s'.issuer b)
  completions : s'.completions = s.completions ++ (s.io.completes e).toList
  returned : ∀ b r, s'.returned b = some r → s.returned b = some r ∨ s.io.answers e = some (b, r)
  result : ∀ b, s'.result b = s.result b ∨ (∃ st, s.io.queues e = some (b, st)) ∨
    ∃ bytes, s.io.answers e = some (b, .ok bytes)
  avail : ∀ p, s.readyIoBlocksAvail p = true → s'.readyIoBlocksAvail p = true
  queues : match s.io.queues e with
    | some (b, st) => s.readyIoBlocks.pushBack (s.process b) b = some s'.readyIoBlocks ∧
        s'.result b = ⟨st.code, st.bytesTransferred⟩ ∧
          s'.readyIoBlocksAvail (s.process b) = true
    | none => s'.readyIoBlocks = s.readyIoBlocks

theorem ioEffect_of_nextIo (hn : s.nextIo device e = some s')
    (hd : ∀ x f kind b, e ≠ .dispatch x f kind (some b)) :
    s.io.next device e = some s'.io ∧ s.IoEffect e s' := by
  obtain ⟨io, hio, hn⟩ := Option.bind_eq_some_iff.mp hn
  -- what the answer changes
  have hans : ∀ s₁ : Iocp, ∃ returned result, s₁.answer (s.io.answers e) =
      { s₁ with returned := returned, result := result } ∧
      (∀ b r, returned b = some r → s₁.returned b = some r ∨ s.io.answers e = some (b, r)) ∧
      ∀ b, result b = s₁.result b ∨ ∃ bytes, s.io.answers e = some (b, .ok bytes) := by
    intro s₁
    have hret : ∀ {b' r'}, s.io.answers e = some (b', r') → ∀ b r,
        update s₁.returned b' (some r') b = some r →
          s₁.returned b = some r ∨ s.io.answers e = some (b, r) := fun {b' r'} hans b r hb ↦ by
      by_cases hbb : b = b'
      · subst hbb
        rw [Function.update_self] at hb
        cases hb
        exact Or.inr hans
      · exact Or.inl (by simpa [hbb] using hb)
    match hans : s.io.answers e with
    | none => exact ⟨_, _, rfl, fun _ _ ↦ Or.inl, fun _ ↦ Or.inl rfl⟩
    | some (b, .err r) => exact ⟨_, _, rfl, hans ▸ hret hans, fun _ ↦ Or.inl rfl⟩
    | some (b, .ok bytes) =>
      refine ⟨_, _, rfl, hans ▸ hret hans, fun b' ↦ ?_⟩
      by_cases hb : b' = b
      · exact Or.inr ⟨bytes, by rw [hb]⟩
      · exact Or.inl (by simp [hb])
  obtain ⟨returned, result, he, hret, hres⟩ :=
    hans { s with io := io, completions := s.completions ++ (s.io.completes e).toList }
  have hnew : ∀ x f kind b, e = .dispatch x f kind (some b) →
      b = s.calls ∧ b < s.calls ∧ x = .thread (s.issuer b) := fun _ _ _ _ he ↦ (hd _ _ _ _ he).elim
  simp only [he] at hn
  match hq : s.io.queues e with
  | none =>
    rw [hq] at hn
    cases hn
    exact ⟨hio, rfl, rfl, rfl, rfl, rfl, rfl, le_rfl, fun _ _ ↦ rfl, hnew, rfl, hret,
      fun b ↦ (hres b).imp_right Or.inr, fun _ ↦ id, by rw [hq]⟩
  | some (b, st) =>
    rw [hq] at hn
    obtain ⟨l, hl, hn⟩ := Option.bind_eq_some_iff.mp hn
    cases hn
    refine ⟨hio, rfl, rfl, rfl, rfl, rfl, rfl, le_rfl, fun _ _ ↦ rfl, hnew, rfl, hret,
      fun b' ↦ ?_, fun p hp ↦ ?_, by rw [hq]; exact ⟨hl, by simp, by simp⟩⟩
    · by_cases hb : b' = b
      · exact Or.inr (Or.inl ⟨st, by rw [hq, hb]⟩)
      · exact (by simpa [hb] using hres b' : _ ∨ _).imp_right Or.inr
    · by_cases hpb : p = s.process b <;> simp [hpb, hp]

/-- The block that a thread has taken and not returned yet. -/
def Has (s : Iocp) (t : ThreadId) (b : BlockId) : Prop :=
  (s.consumer t).bind Consumer.block? = some b

/-- **What an action can do.** -/
inductive Effect (device : FileId → DeviceId) (processOf : ThreadId → ProcessId) (s : Iocp)
    (a : IocpAction) : Iocp → Prop
  | io {e : IoAction} {s' : Iocp} (hn : s.io.next device e = some s'.io) (he : s.IoEffect e s')
      (hlive : ∀ t f kind b, e = .advance (.thread t) →
        s.io.call t = some (.slow f kind (some b)) → s.live b = true)
      (hexh : s.NoLeak a → ∀ t b, e = .exhausted (.thread t) →
        (s.io.call t).bind Call.block? = some b → s.live b = false)
      (hfast : s.NoLeak a → ∀ t, e = .fast (.thread t) (.err .ioPending) →
        (s.io.call t).bind Call.block? = none) : Effect device processOf s a s'
  | allocate {t : ThreadId} {f : FileId} {kind : IoFrameKind} {b : BlockId}
      (hc : s.io.call t = some (.slow f kind (some b))) (hl : s.live b = false) :
      Effect device processOf s a { s with
        live := update s.live b true
        process := update s.process b (processOf t) }
  | look {t : ThreadId} {c : Consumer} (hc : (s.consumer t).bind Consumer.block? = none)
      (hc' : c.block? = none) :
      Effect device processOf s a { s with consumer := update s.consumer t (some c) }
  | take {t : ThreadId} {b : BlockId} {l : Heap ProcessId BlockId}
      (hc : s.consumer t = some .looking) (hf : s.readyIoBlocks.front (processOf t) = some b)
      (hr : s.readyIoBlocks.remove (processOf t) b = some l) : Effect device processOf s a { s with
        readyIoBlocks := l
        dequeued := update s.dequeued (processOf t) (s.dequeued (processOf t) ++ [b])
        consumer := update s.consumer t (some (.freeing b)) }
  | free {t : ThreadId} {b : BlockId} (hc : s.consumer t = some (.freeing b)) :
      Effect device processOf s a { s with
        live := update s.live b false
        frees := update s.frees b (s.frees b + 1)
        consumer := update s.consumer t (some (.returning b)) }
  | deliver {t : ThreadId} {b : BlockId} (hc : s.consumer t = some (.returning b)) :
      Effect device processOf s a { s with
        delivered := s.delivered ++ [(t, b)]
        consumer := update s.consumer t none }

theorem effect_of_next (hn : s.next device processOf a = some s') :
    s.Effect device processOf a s' := by
  cases a with
  | readAsync t f kind =>
    simp only [next] at hn
    split at hn
    · obtain ⟨io, hio, hn⟩ := Option.bind_eq_some_iff.mp hn
      cases hn
      refine .io hio ⟨rfl, rfl, rfl, rfl, rfl, rfl, Nat.le_succ _, fun b hb ↦ ?_, ?_, ?_,
        fun _ _ ↦ Or.inl, fun _ ↦ Or.inl rfl, fun _ ↦ id, rfl⟩ (by simp) (by simp) (by simp)
      · simp [Nat.ne_of_lt hb]
      · rintro x f kind b he
        cases he
        simp
      · simp [IoManager.completes]
    · cases hn
  | allocate t =>
    simp only [next] at hn
    split at hn
    · rename_i f kind b hc
      split at hn
      · cases hn
      · rename_i hb
        cases hn
        exact .allocate hc (by simpa using hb)
    · cases hn
  | exhausted t =>
    simp only [next] at hn
    split at hn
    · rename_i f kind b hc
      split at hn
      · cases hn
      · rename_i hb
        obtain ⟨hio, he⟩ := ioEffect_of_nextIo hn (by simp)
        refine .io hio he (by simp) (fun _ u b' hu hb' ↦ ?_) (by simp)
        cases hu
        rw [hc] at hb'
        cases hb'
        simpa using hb
    · cases hn
  | io e =>
    simp only [next] at hn
    split at hn
    · rename_i hp
      obtain ⟨hio, he⟩ := ioEffect_of_nextIo hn fun x f kind b he ↦ by
        subst he
        simp [permits] at hp
      refine .io hio he (fun t f kind b ht hc ↦ ?_) (fun hl t b ht hb ↦ ?_)
        fun hl t ht ↦ ?_
      · subst ht
        simpa [permits, hc] using hp
      · subst ht
        rw [show (s.io.call t).bind Call.block? = none from hl] at hb
        cases hb
      · subst ht
        exact hl
    · cases hn
  | waitQueuedIo t =>
    simp only [next] at hn
    split at hn
    · rename_i hc
      cases hn
      exact .look (by simp [hc.1]) rfl
    · cases hn
  | consume t =>
    obtain ⟨c, hc, hn⟩ := Option.bind_eq_some_iff.mp hn
    cases c with
    | waiting =>
      simp only [nextConsumer] at hn
      split at hn
      · cases hn
        exact .look (by simp [hc, Consumer.block?]) rfl
      · cases hn
    | looking =>
      simp only [nextConsumer] at hn
      split at hn
      · obtain ⟨l, hl, hn⟩ := Option.bind_eq_some_iff.mp hn
        cases hn
        exact .take hc ‹_› hl
      · cases hn
        exact .look (by simp [hc, Consumer.block?]) rfl
    | freeing b =>
      cases hn
      exact .free hc
    | returning b =>
      cases hn
      exact .deliver hc

/-! ## The lists -/

/-- The I/O manager is in order, and its blocks are those of the calls so far. -/
structure Issues (s : Iocp) (L : IoQueues) : Prop where
  inv : s.io.Inv L
  written : s.io.Written
  blocks : s.io.Blocks s.calls
  async : s.io.AsyncCalls

/-- The lists have what was queued and not taken yet. -/
structure Ports (s : Iocp) (Q : ProcessId → List BlockId) : Prop where
  rep : s.readyIoBlocks.Represents Q
  order : ∀ p, (s.io.ready.map Prod.fst).filter (s.process · = p) = s.dequeued p ++ Q p
  result : ∀ b st, (b, st) ∈ s.io.ready → s.result b = ⟨st.code, st.bytesTransferred⟩
  avail : ∀ p, Q p ≠ [] → s.readyIoBlocksAvail p = true
  completions : s.completions = s.io.ready.map Prod.fst ++
    (s.io.delivering.bind fun i ↦ (s.io.irp i).asyncIoBlock).toList

theorem IoEffect.issues (he : s.IoEffect e s') (hi : s.Issues L)
    (ha : s.io.Acts device L e s'.io L') (hL : s'.io.Inv L') : s'.Issues L' where
  inv := hL
  written := ha.written hi.inv hi.written
  blocks := ha.blocks hi.inv hi.written hi.blocks he.calls fun x f kind b hd ↦ by
    obtain ⟨rfl, hb, -⟩ := he.brings x f kind b hd
    exact ⟨le_rfl, hb⟩
  async := ha.asyncCalls hi.inv hi.async

/-- A queued block is with its request. -/
theorem Issues.of_ready (hi : s.Issues L) {st : IoStatus} (hb : (b, st) ∈ s.io.ready) :
    ∃ i, s.io.Holds b (.irp i) := by
  obtain ⟨i, -, hi, -⟩ := hi.blocks.ready b st hb
  exact ⟨i, hi⟩

theorem Ports.mem_ready (hp : s.Ports Q) (hb : b ∈ s.dequeued p ++ Q p) :
    (∃ st, (b, st) ∈ s.io.ready) ∧ s.process b = p := by
  rw [← hp.order p, List.mem_filter] at hb
  obtain ⟨⟨b', st⟩, hm, rfl⟩ := List.mem_map.mp hb.1
  exact ⟨⟨st, hm⟩, by simpa using hb.2⟩

/-- **A step of the I/O manager keeps the lists.** -/
theorem IoEffect.ports (he : s.IoEffect e s') (hi : s.Issues L)
    (ha : s.io.Acts device L e s'.io L') (hL : s'.io.Inv L')
    (hn : s.io.next device e = some s'.io) (hp : s.Ports Q) : ∃ Q', s'.Ports Q' := by
  -- the results of the queued blocks stay
  have hres : ∀ b st, (b, st) ∈ s.io.ready → (∀ st, s.io.queues e ≠ some (b, st)) →
      s'.result b = ⟨st.code, st.bytesTransferred⟩ := fun b st hb hq ↦ by
    rcases he.result b with hr | ⟨st, hr⟩ | ⟨bytes, hr⟩
    · rw [hr, hp.result b st hb]
    · exact absurd hr (hq st)
    · obtain ⟨-, ⟨hr, -⟩ | ⟨-, hno⟩⟩ := ha.answers hi.inv hi.blocks hi.async hn hr
      · cases hr
      · obtain ⟨i, -, hib, hqi, -⟩ := hi.blocks.ready b st hb
        exact absurd ((ha.keeps hi.inv (hi.inv.lt_of_queued hqi)).1.trans hib) (hno (.irp i))
  have hblock : ∀ {i}, s'.io.queued i = true →
      (s'.io.irp i).asyncIoBlock = (s.io.irp i).asyncIoBlock := fun {i} hqi ↦ by
    rcases ha.block_irp i with h | ⟨x, f, kind, block, rfl, -, -, -, hx⟩
    · exact h
    · rw [(hL.issued.early _ _ _ hx rfl rfl).1] at hqi
      cases hqi
  -- where no block is queued, only the completions are left to show
  have hsame (hr : s'.io.ready = s.io.ready) (hq : s.io.queues e = none)
      (hc : s'.completions = s'.io.ready.map Prod.fst ++
        (s'.io.delivering.bind fun i ↦ (s'.io.irp i).asyncIoBlock).toList) : s'.Ports Q := by
    have hl := he.queues
    rw [hq] at hl
    refine ⟨by rw [hl]; exact hp.rep, ?_, fun b st hb ↦ ?_,
      fun p hQ ↦ he.avail p (hp.avail p hQ), hc⟩
    · rw [hr, he.process, he.dequeued]
      exact hp.order
    · rw [hr] at hb
      exact hres b st hb (by simp [hq])
  cases ha.ready hi.inv.working with
  | kept hr hd hq hf =>
    refine ⟨Q, hsame hr hq ?_⟩
    rw [he.completions, hf, hp.completions, hr, hd]
    cases hdel : s.io.delivering with
    | none => simp
    | some i =>
      rw [Option.bind_some, Option.bind_some, hblock (hL.of_delivering (hd.trans hdel)).1]
      simp
  | @begun i hr hd hd' hc hq hf =>
    refine ⟨Q, hsame hr hq ?_⟩
    rw [he.completions, hf, hp.completions, hr, hd, hd', Option.bind_some,
      hblock (hL.of_delivering hd').1]
    simp
  | @done i hd hd' hr hq hf =>
    have hl := he.queues
    cases hb : (s.io.irp i).asyncIoBlock with
    | none =>
      rw [hb] at hr hq
      simp only [Option.map_none, Option.toList_none, List.append_nil] at hr hq
      refine ⟨Q, hsame hr hq ?_⟩
      rw [he.completions, hf, hp.completions, hr, hd, hd', Option.bind_some, hb]
      simp
    | some b =>
      rw [hq, hb] at hl
      rw [hb] at hr hq
      simp only [Option.map_some, Option.toList_some] at hr hq hl
      have hfresh : b ∉ s.io.ready.map Prod.fst := fun hm ↦ by
        obtain ⟨hqi, hci, -⟩ := hi.inv.of_delivering hd
        exact (hi.blocks.queued i b hb hqi hci).mp hm hd
      have hno : ∀ p, b ∉ Q p := fun p hm ↦ by
        obtain ⟨⟨st, hm⟩, -⟩ := hp.mem_ready (p := p) (List.mem_append_right _ hm)
        exact hfresh (List.mem_map.mpr ⟨_, hm, rfl⟩)
      obtain ⟨l, hl', hrep⟩ := hp.rep.pushBack_spec (l := s.process b) hno
      cases hl'.symm.trans hl.1
      refine ⟨_, hrep, fun p ↦ ?_, fun b' st' hb' ↦ ?_, fun p hQ ↦ ?_, ?_⟩
      · rw [hr, he.process, he.dequeued, List.map_append, List.filter_append, hp.order]
        by_cases hpb : p = s.process b
        · subst hpb
          simp
        · simp [hpb, Ne.symm hpb]
      · rw [hr, List.mem_append] at hb'
        rcases hb' with hb' | hb'
        · refine hres b' st' hb' fun st h ↦ hfresh ?_
          cases hq.symm.trans h
          exact List.mem_map.mpr ⟨_, hb', rfl⟩
        · cases List.mem_singleton.mp hb'
          exact hl.2.1
      · by_cases hpb : p = s.process b
        · exact hpb ▸ hl.2.2
        · exact he.avail p (hp.avail p (by simpa [hpb] using hQ))
      · rw [he.completions, hf, hp.completions, hr, hd, hd', Option.bind_some, hb]
        simp

/-- The block in front of a list was not taken before. -/
theorem Ports.not_dequeued (hp : s.Ports Q) (hi : s.Issues L) (hb : b ∈ Q p) :
    b ∉ s.dequeued q := fun hd ↦ by
  have hnd := hi.blocks.nodup.filter (s.process · = p)
  rw [hp.order p] at hnd
  have hpq : p = q := by
    rw [← (hp.mem_ready (List.mem_append_right (s.dequeued p) hb)).2,
      (hp.mem_ready (List.mem_append_left (Q q) hd)).2]
  subst hpq
  exact (List.nodup_append.mp hnd).2.2 b hd b hb rfl

/-- A thread takes the block in front of its list. -/
theorem Ports.take (hp : s.Ports Q) {l : Heap ProcessId BlockId}
    (hf : s.readyIoBlocks.front p = some b) (hr : s.readyIoBlocks.remove p b = some l) :
    ∃ bs, Q p = b :: bs ∧ { s with
      readyIoBlocks := l
      dequeued := update s.dequeued p (s.dequeued p ++ [b]) }.Ports (update Q p bs) := by
  rw [hp.rep.front_eq] at hf
  obtain ⟨bs, hQ⟩ : ∃ bs, Q p = b :: bs := by
    cases hQ : Q p with
    | nil => rw [hQ] at hf; cases hf
    | cons c bs => rw [hQ] at hf; cases hf; exact ⟨bs, rfl⟩
  obtain ⟨l', hl', hrep⟩ := hp.rep.remove_spec (l := p) (a := b) (by simp [hQ])
  cases hl'.symm.trans hr
  refine ⟨bs, hQ, ⟨by simpa [hQ] using hrep, fun q ↦ ?_, hp.result, fun q hq ↦ ?_,
    hp.completions⟩⟩
  · by_cases hqp : q = p
    · subst hqp
      have := hp.order q
      simpa [hQ] using this
    · simpa [hqp] using hp.order q
  · by_cases hqp : q = p
    · exact hp.avail q (by simp [hqp, hQ])
    · exact hp.avail q (by simpa [hqp] using hq)

/-- The process of a block that is not queued yet may still change. -/
theorem Ports.allocate (hp : s.Ports Q) (hb : ∀ st, (b, st) ∉ s.io.ready) {live : BlockId → Bool} :
    { s with live := live, process := update s.process b p }.Ports Q where
  rep := hp.rep
  order q := by
    rw [← hp.order q]
    refine List.filter_congr fun b' hb' ↦ ?_
    obtain ⟨⟨b', st⟩, hm, rfl⟩ := List.mem_map.mp hb'
    have : b' ≠ b := by
      rintro rfl
      exact hb st hm
    simp [this]
  result := hp.result
  avail := hp.avail
  completions := hp.completions

end Iocp

end Chino
