import Chino.Io.Ports

/-!
# Asynchronous reads complete once

`Consumers` follows a block from the list to the thread that `io_wait_queued_io` returns it to, and
`Pool` follows its slot in the pool.  `completes_once` puts them together with `Ports`: if no block
leaks, a call that returned `io_pending` is delivered once, in the order of the completions of its
process and with its result, and any other call is not delivered.

A block leaks when `dispatch_io_fast_slow` finds no request for it: `leaked_block`.

## How the pieces fit

* **From the call to the list** a block goes as `Chino.Io.Blocks` says; `Chino.Io.Ports` adds which
  process has the list, and that the lists are queues.
* **From the list to the thread.**  `Consumers` says that a block that was taken is in the hands of
  one thread, or was returned by `io_wait_queued_io` to one.
* **The slot.**  `Pool` says who keeps a block allocated: the call, then the request, then the
  thread that took it, which frees it.  So it is freed once, and not before it was taken.
* **Calls that fail.**  `Answered` says that nobody has the block of a call that returned an error
  or a result at once, and `Accepted` that a call with `io_pending` has a queued request.

`Sound` is what holds in all runs.  `CompletesOnce` is what the threads may expect; it is proved for
the runs in which `NoLeak` holds at every step.  The condition is about the state before the step: a
call that has its block finds a request, and no fast function answers an asynchronous call with
`io_pending`.

Requests are numbered, as in `Chino.Io.Manager`.  Where a request is freed too early, which
`Chino.Io.Accounting` is about, its slot of the pool is not used again here.

`lost_forever` goes on from a leak: whatever happens later, in any run, the block is not freed any
more.
-/

set_option autoImplicit false

namespace Chino

open Function (update)

namespace Iocp

variable {s s' : Iocp} {L L' : IoQueues} {Q : ProcessId → List BlockId}
  {device : FileId → DeviceId} {processOf : ThreadId → ProcessId} {a : IocpAction} {e : IoAction}
  {b : BlockId} {t t' : ThreadId} {p : ProcessId}

/-! ## Consumers -/

/-- A block that was taken is with one thread, or was returned to one. -/
structure Consumers (processOf : ThreadId → ProcessId) (s : Iocp) : Prop where
  taken : ∀ t b, s.Has t b → b ∈ s.dequeued (processOf t)
  unique : ∀ t t' b, s.Has t b → s.Has t' b → t = t'
  delivered : ∀ t b, (t, b) ∈ s.delivered → b ∈ s.dequeued (processOf t) ∧ ∀ t', ¬ s.Has t' b
  nodup : (s.delivered.map Prod.snd).Nodup
  every : ∀ p b, b ∈ s.dequeued p → (∃ t, s.Has t b) ∨ b ∈ s.delivered.map Prod.snd

/-- What a thread has after its own step. -/
theorem has_update {c : Option Consumer} (hc : s'.consumer = update s.consumer t c) :
    s'.Has t' b ↔ if t' = t then c.bind Consumer.block? = some b else s.Has t' b := by
  unfold Has
  rw [hc]
  by_cases ht : t' = t <;> simp [ht]

theorem Consumers.congr (h : s.Consumers processOf) (hc : ∀ t b, s'.Has t b ↔ s.Has t b)
    (hd : s'.dequeued = s.dequeued) (hd' : s'.delivered = s.delivered) :
    s'.Consumers processOf where
  taken t b hb := hd ▸ h.taken t b ((hc t b).mp hb)
  unique t t' b hb hb' := h.unique t t' b ((hc t b).mp hb) ((hc t' b).mp hb')
  delivered t b hb := by
    obtain ⟨hm, hno⟩ := h.delivered t b (hd' ▸ hb)
    exact ⟨hd ▸ hm, fun t' hb ↦ hno t' ((hc t' b).mp hb)⟩
  nodup := hd' ▸ h.nodup
  every p b hb := by
    rw [hd'] 
    exact (h.every p b (hd ▸ hb)).imp_left fun ⟨t, ht⟩ ↦ ⟨t, (hc t b).mpr ht⟩

/-- **A step keeps the taken blocks with one thread each.** -/
theorem Effect.consumers (he : s.Effect device processOf a s') (hi : s.Issues L) (hp : s.Ports Q)
    (h : s.Consumers processOf) : s'.Consumers processOf := by
  cases he with
  | io hn he =>
    exact h.congr (fun t b ↦ by rw [Has, Has, he.consumer]) he.dequeued he.delivered
  | allocate => exact h.congr (fun _ _ ↦ Iff.rfl) rfl rfl
  | @look t c hc hc' =>
    refine h.congr (fun t' b ↦ ?_) rfl rfl
    rw [has_update rfl]
    split
    · subst t'
      simp [Has, hc, hc']
    · rfl
  | @take t b l hc hf hr =>
    obtain ⟨bs, hQ, -⟩ := hp.take hf hr
    have hnew : ∀ p, b ∉ s.dequeued p := fun p ↦
      hp.not_dequeued hi (p := processOf t) (by simp [hQ])
    have hnone : ∀ t', ¬ s.Has t' b := fun t' hb ↦ hnew _ (h.taken t' b hb)
    have hmem : ∀ {p b'}, b' ∈ update s.dequeued (processOf t) (s.dequeued (processOf t) ++ [b]) p ↔
        b' ∈ s.dequeued p ∨ p = processOf t ∧ b' = b := fun {p b'} ↦ by
      by_cases hp : p = processOf t
      · subst hp; simp
      · simp [hp]
    have hhas : ∀ t' b', { s with
        readyIoBlocks := l
        dequeued := update s.dequeued (processOf t) (s.dequeued (processOf t) ++ [b])
        consumer := update s.consumer t (some (.freeing b)) }.Has t' b' ↔
        t' = t ∧ b' = b ∨ s.Has t' b' := fun t' b' ↦ by
      rw [has_update rfl]
      split
      · subst t'
        simp [Has, hc, Consumer.block?, eq_comm]
      · simp [*]
    refine ⟨fun t' b' hb ↦ ?_, fun t' u b' hb hb' ↦ ?_, fun t' b' hb ↦ ?_, h.nodup,
      fun p b' hb ↦ ?_⟩
    · refine hmem.mpr ?_
      rcases (hhas t' b').mp hb with ⟨rfl, rfl⟩ | hb
      · exact Or.inr ⟨rfl, rfl⟩
      · exact Or.inl (h.taken t' b' hb)
    · rcases (hhas t' b').mp hb with ⟨rfl, rfl⟩ | h₁ <;>
        rcases (hhas u _).mp hb' with ⟨rfl, hbb⟩ | h₂
      · rfl
      · exact absurd h₂ (hnone u)
      · exact absurd (hbb ▸ h₁) (hnone t')
      · exact h.unique t' u b' h₁ h₂
    · obtain ⟨hm, hno⟩ := h.delivered t' b' hb
      refine ⟨hmem.mpr (Or.inl hm), fun u hu ↦ ?_⟩
      rcases (hhas u b').mp hu with ⟨-, rfl⟩ | hu
      · exact hnew _ hm
      · exact hno u hu
    · rcases hmem.mp hb with hb | ⟨rfl, rfl⟩
      · rcases h.every p b' hb with ⟨u, hu⟩ | hb
        · exact Or.inl ⟨u, (hhas u b').mpr (Or.inr hu)⟩
        · exact Or.inr hb
      · exact Or.inl ⟨t, (hhas t b').mpr (Or.inl ⟨rfl, rfl⟩)⟩
  | @free t b hc =>
    refine h.congr (fun t' b' ↦ ?_) rfl rfl
    rw [has_update rfl]
    split
    · subst t'
      simp [Has, hc, Consumer.block?]
    · rfl
  | @deliver t b hc =>
    have hb : s.Has t b := by simp [Has, hc, Consumer.block?]
    have hhas : ∀ t' b', { s with
        delivered := s.delivered ++ [(t, b)]
        consumer := update s.consumer t none }.Has t' b' ↔ t' ≠ t ∧ s.Has t' b' := fun t' b' ↦ by
      rw [has_update rfl]
      split <;> simp [*]
    refine ⟨fun t' b' hb' ↦ h.taken t' b' ((hhas t' b').mp hb').2, fun t' u b' hb hb' ↦
      h.unique t' u b' ((hhas t' b').mp hb).2 ((hhas u b').mp hb').2, fun t' b' hb' ↦ ?_, ?_,
      fun p b' hb' ↦ ?_⟩
    · rcases List.mem_append.mp hb' with hb' | hb'
      · obtain ⟨hm, hno⟩ := h.delivered t' b' hb'
        exact ⟨hm, fun u hu ↦ hno u ((hhas u b').mp hu).2⟩
      · cases List.mem_singleton.mp hb'
        refine ⟨h.taken t b hb, fun u hu ↦ ?_⟩
        obtain ⟨hne, hu⟩ := (hhas u b).mp hu
        exact hne (h.unique u t b hu hb)
    · rw [List.map_append]
      refine List.nodup_append.mpr ⟨h.nodup, by simp, fun c hc d hd ↦ ?_⟩
      rintro rfl
      obtain ⟨⟨t', b'⟩, hm, rfl⟩ := List.mem_map.mp hc
      simp only [List.map_cons, List.map_nil, List.mem_singleton] at hd
      exact (h.delivered t' b' hm).2 t (hd ▸ hb)
    · rw [List.map_append, List.mem_append]
      rcases h.every p b' hb' with ⟨u, hu⟩ | hm
      · by_cases hut : u = t
        · subst hut
          cases Option.some.inj (hu.symm.trans hb)
          exact Or.inr (Or.inr (by simp))
        · exact Or.inl ⟨u, (hhas u b').mpr ⟨hut, hu⟩⟩
      · exact Or.inr (Or.inl hm)

/-! ## The pool -/

/-- A block that is allocated is with its call or with its request, and is freed by the thread that
has taken it. -/
structure Pool (processOf : ThreadId → ProcessId) (s : Iocp) : Prop where
  mine : ∀ p b, s.io.Holds b (.call p) → p = .thread (s.issuer b)
  place : ∀ b, s.live b = true → (∃ t f kind, s.io.call t = some (.slow f kind (some b))) ∨
    ∃ i, s.io.Holds b (.irp i)
  request : ∀ b i, s.io.Holds b (.irp i) →
    (if s.live b then s.frees b = 0 else s.frees b = 1 ∧ b ∈ s.dequeued (s.process b)) ∧
      ((∃ t, s.consumer t = some (.freeing b)) ↔ s.live b = true ∧ b ∈ s.dequeued (s.process b))
  freed : ∀ b, s.frees b ≠ 0 → ∃ i, s.io.Holds b (.irp i)
  process : ∀ b, s.live b = true ∨ (∃ i, s.io.Holds b (.irp i)) →
    s.process b = processOf (s.issuer b)

/-- A block that is with its call is not queued. -/
theorem Issues.not_ready (hi : s.Issues L) {x : IoManager.CallIndex} (hx : s.io.Holds b (.call x))
    {st : IoStatus} : (b, st) ∉ s.io.ready := fun hm ↦ by
  obtain ⟨i, hb⟩ := hi.of_ready hm
  cases hi.blocks.unique b _ _ hb hx

/-- **A step of the I/O manager keeps the pool in order.** -/
theorem IoEffect.pool (he : s.IoEffect e s') (hi : s.Issues L)
    (ha : s.io.Acts device L e s'.io L') (hp : s.Ports Q) (hc : s.Consumers processOf)
    (hlive : ∀ t f kind b, e = .advance (.thread t) →
      s.io.call t = some (.slow f kind (some b)) → s.live b = true)
    (hexh : ∀ t b, e = .exhausted (.thread t) → (s.io.call t).bind Call.block? = some b →
      s.live b = false)
    (h : s.Pool processOf) : s'.Pool processOf := by
  have hkeep : ∀ {b i}, s.io.Holds b (.irp i) → s'.io.Holds b (.irp i) := fun {b i} hb ↦ by
    have hlt : i < s.io.allocated := by
      by_contra hge
      have := hi.blocks.unborn i (Nat.le_of_not_lt hge)
      rw [show (s.io.irp i).asyncIoBlock = some b from hb] at this
      cases this
    exact (ha.keeps hi.inv hlt).1.trans hb
  -- a request has its block from before, or from a call whose block is allocated
  have hfrom : ∀ {b i}, s'.io.Holds b (.irp i) → s.io.Holds b (.irp i) ∨
      s.live b = true ∧ ∃ x, s.io.Holds b (.call x) := fun {b i} hb ↦ by
    rcases ha.block_irp i with hs | ⟨x, f, kind, block, rfl, hs, rfl, hx, -⟩
    · exact Or.inl (hs.symm.trans hb)
    · cases hs.symm.trans hb
      have hx' : s.io.Holds b (.call (s.io.index x)) := by
        show (s.io.callAt _).bind Call.block? = _
        rw [hx.callAt]
        rfl
      obtain rfl := IoManager.index_eq_thread (h.mine _ b hx')
      exact Or.inr ⟨hlive _ f kind b rfl hx, _, hx'⟩
  have hlt : ∀ {b}, s.live b = true ∨ (∃ i, s'.io.Holds b (.irp i)) → b < s.calls := fun {b} hb ↦ by
    rcases hb with hb | ⟨i, hb⟩
    · rcases h.place b hb with ⟨t, f, kind, hct⟩ | ⟨i, hb⟩
      · exact hi.blocks.lt b (.call (.thread t)) (by
          show (s.io.call t).bind Call.block? = _
          rw [hct]
          rfl)
      · exact hi.blocks.lt b _ hb
    · rcases hfrom hb with hb | ⟨-, x, hb⟩ <;> exact hi.blocks.lt b _ hb
  refine ⟨fun p b hb ↦ ?_, fun b hb ↦ ?_, fun b i hb ↦ ?_, fun b hb ↦ ?_, fun b hb ↦ ?_⟩
  · rcases ha.block_call hb with hb | ⟨x, f, kind, rfl, rfl⟩
    · rw [he.issuer b (hi.blocks.lt b _ hb)]
      exact h.mine p b hb
    · obtain ⟨-, -, rfl⟩ := he.brings x f kind b rfl
      rfl
  · rw [he.live] at hb
    rcases h.place b hb with ⟨t, f, kind, hct⟩ | ⟨i, hb⟩
    · rcases ha.slow hct with hct' | ⟨i, hb⟩ | rfl
      · exact Or.inl ⟨t, f, kind, hct'⟩
      · exact Or.inr ⟨i, hb⟩
      · rw [hexh t b rfl (by rw [hct]; rfl)] at hb
        cases hb
    · exact Or.inr ⟨i, hkeep hb⟩
  · rw [he.live, he.frees, he.process, he.dequeued, he.consumer]
    rcases hfrom hb with hb | ⟨hl, x, hx⟩
    · exact h.request b i hb
    · have hno : ∀ p, b ∉ s.dequeued p := fun p hd ↦ by
        obtain ⟨⟨st, hm⟩, -⟩ := hp.mem_ready (p := p) (List.mem_append_left _ hd)
        exact hi.not_ready hx hm
      have hfree : ¬ ∃ t, s.consumer t = some (.freeing b) := by
        rintro ⟨t, ht⟩
        exact hno _ (hc.taken t b (by simp [Has, ht, Consumer.block?]))
      refine ⟨?_, iff_of_false hfree fun hd ↦ hno _ hd.2⟩
      rw [if_pos hl]
      by_contra hf
      obtain ⟨j, hj⟩ := h.freed b hf
      cases hi.blocks.unique b _ _ hj hx
  · rw [he.frees] at hb
    obtain ⟨i, hb⟩ := h.freed b hb
    exact ⟨i, hkeep hb⟩
  · rw [he.live] at hb
    rw [he.process, he.issuer b (hlt hb)]
    refine h.process b ?_
    rcases hb with hb | ⟨i, hb⟩
    · exact Or.inl hb
    · rcases hfrom hb with hb | ⟨hl, -⟩
      · exact Or.inr ⟨i, hb⟩
      · exact Or.inl hl

/-- Who is about to free a block after the step of a thread. -/
theorem freeing_update {c : Option Consumer} (hc : s'.consumer = update s.consumer t c) :
    (∃ u, s'.consumer u = some (.freeing b)) ↔
      c = some (.freeing b) ∨ ∃ u, u ≠ t ∧ s.consumer u = some (.freeing b) := by
  rw [hc]
  constructor
  · rintro ⟨u, hu⟩
    by_cases hut : u = t
    · exact Or.inl (by simpa [hut] using hu)
    · exact Or.inr ⟨u, hut, by simpa [hut] using hu⟩
  · rintro (rfl | ⟨u, hut, hu⟩)
    · exact ⟨t, by simp⟩
    · exact ⟨u, by simpa [hut] using hu⟩

/-- A thread goes on without freeing a block. -/
theorem freeing_skip {c c' : Option Consumer} (hc : s.consumer t = c)
    (hc' : s'.consumer = update s.consumer t c') (hn : c ≠ some (.freeing b))
    (hn' : c' ≠ some (.freeing b)) :
    (∃ u, s'.consumer u = some (.freeing b)) ↔ ∃ u, s.consumer u = some (.freeing b) := by
  rw [freeing_update hc', or_iff_right hn']
  refine exists_congr fun u ↦ and_iff_right_of_imp fun hu ↦ ?_
  rintro rfl
  exact hn (hc.symm.trans hu)

/-- **A step keeps the pool in order.** -/
theorem Effect.pool (he : s.Effect device processOf a s') (hi : s.Issues L) (hp : s.Ports Q)
    (hc : s.Consumers processOf) (hl : s.NoLeak a) (h : s.Pool processOf) :
    s'.Pool processOf := by
  cases he with
  | io hn he hlive hexh =>
    obtain ⟨L', ha, -⟩ := hi.inv.acts hn
    exact he.pool hi ha hp hc hlive (hexh hl) h
  | @allocate t f kind b hct hl =>
    have hbt : s.io.Holds b (.call (.thread t)) := by
      show (s.io.call t).bind Call.block? = _
      rw [hct]
      rfl
    have hne : ∀ {b' i}, s.io.Holds b' (.irp i) → b' ≠ b := by
      rintro b' i hb rfl
      cases hi.blocks.unique _ _ _ hb hbt
    refine ⟨h.mine, fun b' hb ↦ ?_, fun b' i hb ↦ ?_, h.freed, fun b' hb ↦ ?_⟩
    · by_cases hbb : b' = b
      · subst hbb
        exact Or.inl ⟨t, f, kind, hct⟩
      · exact h.place b' (by simpa [hbb] using hb)
    · simpa [hne hb] using h.request b' i hb
    · by_cases hbb : b' = b
      · subst hbb
        cases h.mine _ _ hbt
        simp
      · simpa [hbb] using h.process b' (by simpa [hbb] using hb)
  | @look t c hct hct' =>
    refine ⟨h.mine, h.place, fun b i hb ↦ ?_, h.freed, h.process⟩
    obtain ⟨h₁, h₂⟩ := h.request b i hb
    refine ⟨h₁, (freeing_skip rfl rfl ?_ ?_).trans h₂⟩
    · intro he
      rw [he] at hct
      cases hct
    · intro he
      cases he
      cases hct'
  | @take t b l hct hf hr =>
    obtain ⟨bs, hQ, -⟩ := hp.take hf hr
    have hmem : b ∈ Q (processOf t) := by simp [hQ]
    have hnew : ∀ p, b ∉ s.dequeued p := fun p ↦ hp.not_dequeued hi hmem
    have hproc := (hp.mem_ready (List.mem_append_right (s.dequeued (processOf t)) hmem)).2
    refine ⟨h.mine, h.place, fun b' i hb ↦ ?_, h.freed, h.process⟩
    obtain ⟨h₁, h₂⟩ := h.request b' i hb
    by_cases hbb : b' = b
    · subst hbb
      have hl : s.live b' = true := by
        by_contra hl
        rw [if_neg hl] at h₁
        exact hnew _ h₁.2
      rw [if_pos hl] at h₁
      refine ⟨by simpa [hl] using h₁, iff_of_true ⟨t, by simp⟩ ⟨hl, ?_⟩⟩
      simp [hproc]
    · have hsame : b' ∈ update s.dequeued (processOf t) (s.dequeued (processOf t) ++ [b])
          (s.process b') ↔ b' ∈ s.dequeued (s.process b') := by
        by_cases hpt : s.process b' = processOf t
        · simp [hpt, hbb]
        · simp [hpt]
      refine ⟨by simpa only [hsame] using h₁, ?_⟩
      rw [freeing_skip hct rfl (by simp) (by simpa using Ne.symm hbb)]
      simpa only [hsame] using h₂
  | @free t b hct =>
    have hhas : s.Has t b := by simp [Has, hct, Consumer.block?]
    have hmem := hc.taken t b hhas
    obtain ⟨⟨st, hm⟩, hproc⟩ := hp.mem_ready (List.mem_append_left (Q _) hmem)
    obtain ⟨i, hib⟩ := hi.of_ready hm
    obtain ⟨h₁, h₂⟩ := h.request b i hib
    have hl := (h₂.mp ⟨t, hct⟩).1
    rw [if_pos hl] at h₁
    refine ⟨h.mine, fun b' hb ↦ ?_, fun b' j hb ↦ ?_, fun b' hb ↦ ?_, fun b' hb ↦ ?_⟩
    · by_cases hbb : b' = b
      · simp [hbb] at hb
      · exact h.place b' (by simpa [hbb] using hb)
    · by_cases hbb : b' = b
      · subst hbb
        refine ⟨by simpa [h₁, hproc] using hmem, iff_of_false ?_ (by simp)⟩
        rw [freeing_update rfl]
        rintro (he | ⟨u, hut, hu⟩)
        · cases he
        · exact hut (hc.unique u t b' (by simp [Has, hu, Consumer.block?]) hhas)
      · obtain ⟨h₃, h₄⟩ := h.request b' j hb
        refine ⟨by simpa [hbb] using h₃, ?_⟩
        rw [freeing_skip hct rfl (by simpa using Ne.symm hbb) (by simp)]
        simpa [hbb] using h₄
    · by_cases hbb : b' = b
      · exact ⟨i, hbb ▸ hib⟩
      · exact h.freed b' (by simpa [hbb] using hb)
    · by_cases hbb : b' = b
      · exact h.process b' (Or.inr ⟨i, hbb ▸ hib⟩)
      · exact h.process b' (by simpa [hbb] using hb)
  | @deliver t b hct =>
    refine ⟨h.mine, h.place, fun b' i hb ↦ ?_, h.freed, h.process⟩
    obtain ⟨h₁, h₂⟩ := h.request b' i hb
    exact ⟨h₁, (freeing_skip hct rfl (by simp) (by simp)).trans h₂⟩

/-! ## What the calls return -/

/-- Nobody has the block of a call that has returned something else than `io_pending`. -/
def Answered (s : Iocp) : Prop :=
  ∀ b r, s.returned b = some r → b < s.calls ∧ (r ≠ .err .ioPending → ∀ h, ¬ s.io.Holds b h)

/-- A call that returned `io_pending` has a queued request. -/
def Accepted (s : Iocp) : Prop :=
  ∀ b, s.returned b = some (.err .ioPending) → ∃ i, s.io.Holds b (.irp i) ∧ s.io.queued i = true

/-- Nobody gets the block of an earlier call. -/
theorem IoEffect.nobody (he : s.IoEffect e s') (ha : s.io.Acts device L e s'.io L')
    (hlt : b < s.calls) (hno : ∀ h, ¬ s.io.Holds b h) (h : IoManager.Holder) :
    ¬ s'.io.Holds b h := by
  intro hh
  rcases ha.holds_from hh with hh | ⟨y, -, hh, -⟩ | ⟨y, f, kind, he', -⟩
  · exact hno _ hh
  · exact hno _ hh
  · exact absurd hlt (by rw [(he.brings y f kind b he').1]; exact lt_irrefl _)

theorem Effect.answered (he : s.Effect device processOf a s') (hi : s.Issues L) (h : s.Answered) :
    s'.Answered := by
  cases he with
  | @io e s' hn he =>
    obtain ⟨L', ha, -⟩ := hi.inv.acts hn
    intro b r hr
    rcases he.returned b r hr with hr | hr
    · obtain ⟨hlt, hno⟩ := h b r hr
      exact ⟨hlt.trans_le he.calls, fun hne ↦ he.nobody ha hlt (hno hne)⟩
    · obtain ⟨hlt, h⟩ := ha.answers hi.inv hi.blocks hi.async hn hr
      exact ⟨hlt.trans_le he.calls, fun hne ↦ (h.resolve_left fun h ↦ hne h.1).2⟩
  | _ => exact h

theorem Effect.accepted (he : s.Effect device processOf a s') (hi : s.Issues L) (hl : s.NoLeak a)
    (h : s.Accepted) : s'.Accepted := by
  cases he with
  | @io e s' hn he hlive hexh hfast =>
    obtain ⟨L', ha, -⟩ := hi.inv.acts hn
    intro b hr
    rcases he.returned b _ hr with hr | hr
    · obtain ⟨i, hb, hq⟩ := h b hr
      exact ⟨i, (ha.keeps hi.inv (hi.inv.lt_of_queued hq)).1.trans hb, ha.queued_mono hq⟩
    · obtain ⟨-, ⟨-, h⟩ | ⟨hr | ⟨t, rfl, hb⟩, -⟩⟩ := ha.answers hi.inv hi.blocks hi.async hn hr
      · exact h
      · cases hr
      · rw [hfast hl t rfl] at hb
        cases hb
  | _ => exact h

/-! ## Every run -/

/-- What holds whether or not a block leaks. -/
structure Sound (processOf : ThreadId → ProcessId) (s : Iocp) (L : IoQueues)
    (Q : ProcessId → List BlockId) : Prop where
  issues : s.Issues L
  ports : s.Ports Q
  consumers : s.Consumers processOf
  answered : s.Answered

theorem Effect.sound (he : s.Effect device processOf a s') (h : s.Sound processOf L Q) :
    ∃ L' Q', s'.Sound processOf L' Q' := by
  have hc := he.consumers h.issues h.ports h.consumers
  have ha := he.answered h.issues h.answered
  have hi : ∀ {s₁ : Iocp}, s₁.io = s.io → s₁.calls = s.calls → s₁.Issues L := fun h₁ h₂ ↦
    ⟨h₁ ▸ h.issues.inv, h₁ ▸ h.issues.written, h₁ ▸ h₂ ▸ h.issues.blocks, h₁ ▸ h.issues.async⟩
  cases he with
  | io hn he =>
    obtain ⟨L', hacts, hr⟩ := h.issues.inv.acts hn
    have hL := hacts.inv h.issues.inv hr
    obtain ⟨Q', hQ⟩ := he.ports h.issues hacts hL hn h.ports
    exact ⟨L', Q', he.issues h.issues hacts hL, hQ, hc, ha⟩
  | @allocate t f kind b hct =>
    refine ⟨L, Q, hi rfl rfl, h.ports.allocate fun st ↦ h.issues.not_ready (x := .thread t) ?_,
      hc, ha⟩
    show (s.io.call t).bind Call.block? = _
    rw [hct]
    rfl
  | take hct hf hr =>
    obtain ⟨bs, -, hQ⟩ := h.ports.take hf hr
    exact ⟨L, _, hi rfl rfl, ⟨hQ.rep, hQ.order, hQ.result, hQ.avail, hQ.completions⟩, hc,
      ha⟩
  | look | free | deliver =>
    exact ⟨L, Q, hi rfl rfl, ⟨h.ports.rep, h.ports.order, h.ports.result, h.ports.avail,
      h.ports.completions⟩, hc, ha⟩

theorem not_holds_init {h : IoManager.Holder} : ¬ IoManager.init.Holds b h := by
  rcases h with (t | n) | i <;> intro hb
  · cases hb
  · cases n <;> cases hb
  · cases hb

theorem sound_init : init.Sound processOf (fun _ ↦ []) fun _ ↦ [] where
  issues := by
    have hno : ∀ b h, ¬ init.io.Holds b h := fun _ _ ↦ not_holds_init
    refine ⟨IoManager.inv_init, IoManager.written_init, ⟨fun b h hb ↦ (hno b h hb).elim,
      fun b h _ hb ↦ (hno b h hb).elim, fun _ _ ↦ rfl, fun _ _ hb ↦ (List.not_mem_nil hb).elim,
      fun i b hb ↦ (hno b (.irp i) hb).elim, List.nodup_nil⟩, fun t c i hc ↦ ?_⟩
    cases hc
  ports := ⟨Heap.represents_init, fun _ ↦ rfl, fun _ _ hb ↦ (List.not_mem_nil hb).elim,
    fun _ h ↦ (h rfl).elim, rfl⟩
  consumers := by
    have hno : ∀ t b, ¬ init.Has t b := fun t b hb ↦ by cases hb
    exact ⟨fun t b hb ↦ (hno t b hb).elim, fun t _ b hb ↦ (hno t b hb).elim,
      fun _ _ hb ↦ (List.not_mem_nil hb).elim, List.nodup_nil,
      fun _ _ hb ↦ (List.not_mem_nil hb).elim⟩
  answered b r hr := by cases hr

theorem pool_init : init.Pool processOf where
  mine _ _ hb := (not_holds_init hb).elim
  place _ hb := by cases hb
  request _ i hb := (not_holds_init (h := .irp i) hb).elim
  freed _ hb := (hb rfl).elim
  process b hb := hb.elim (fun h ↦ by cases h) fun ⟨i, hb⟩ ↦ (not_holds_init (h := .irp i) hb).elim

theorem sound_of_reachable (h : (machine device processOf).Reachable s) :
    ∃ L Q, s.Sound processOf L Q :=
  h.invariant (I := fun s ↦ ∃ L Q, s.Sound processOf L Q) ⟨_, _, sound_init⟩
    fun _ _ _ _ ⟨_, _, h⟩ hn ↦ (effect_of_next hn).sound h

theorem sound_of_reachableWhile (h : (machine device processOf).ReachableWhile NoLeak s) :
    (∃ L Q, s.Sound processOf L Q) ∧ s.Pool processOf ∧ s.Accepted := by
  refine h.invariant (I := fun s ↦ (∃ L Q, s.Sound processOf L Q) ∧ s.Pool processOf ∧ s.Accepted)
    ⟨⟨_, _, sound_init⟩, pool_init, fun b h ↦ by cases h⟩ ?_
  rintro s a s' - ⟨⟨L, Q, h⟩, hp, ha⟩ hl hn
  have he := effect_of_next hn
  exact ⟨he.sound h, he.pool h.issues h.ports h.consumers hl hp, he.accepted h.issues hl ha⟩

/-- The block whose request is completed, if it is not queued yet. -/
def queueing (s : Iocp) : List BlockId :=
  (s.io.delivering.bind fun i ↦ (s.io.irp i).asyncIoBlock).toList

/-- What the threads may expect of `read_file_async` and `wait_queued_io`. -/
structure CompletesOnce (processOf : ThreadId → ProcessId) (s : Iocp) : Prop where
  /-- A call that returned `io_pending` has a request, which is in `completions` if it is
  completed. -/
  pending : ∀ b, s.returned b = some (.err .ioPending) → ∃ i, s.io.Holds b (.irp i) ∧
    s.io.queued i = true ∧ (b ∈ s.completions ↔ (s.io.irp i).currentFrame = none)
  /-- Any other call has nothing that could be delivered or would have to be freed. -/
  other : ∀ b r, s.returned b = some r → r ≠ .err .ioPending →
    b ∉ s.completions ∧ (∀ t, (t, b) ∉ s.delivered) ∧ s.live b = false ∧ s.frees b = 0
  nodup : s.completions.Nodup
  /-- A process gets its blocks in the order of the completions. -/
  order : ∀ p, s.completions.filter (s.process · = p) =
    s.dequeued p ++ s.readyIoBlocks.toList p ++ s.queueing.filter (s.process · = p)
  /-- Nobody waits for a list that has blocks. -/
  avail : ∀ p, s.readyIoBlocks.toList p ≠ [] → s.readyIoBlocksAvail p = true
  process : ∀ b ∈ s.completions, s.process b = processOf (s.issuer b)
  /-- A block that was taken is with one thread of the process, or was returned to one, once. -/
  once : ∀ p, ∀ b ∈ s.dequeued p,
    (∃ t, s.Has t b ∧ processOf t = p ∧ ∀ t', s.Has t' b → t' = t) ∧ b ∉ s.delivered.map Prod.snd ∨
      (∀ t, ¬ s.Has t b) ∧ (s.delivered.map Prod.snd).count b = 1
  delivered : ∀ t b, (t, b) ∈ s.delivered → b ∈ s.dequeued (processOf t) ∧
    processOf t = processOf (s.issuer b)
  result : ∀ p, ∀ b ∈ s.dequeued p, ∃ i r, s.io.Holds b (.irp i) ∧ s.io.outcome i = some r ∧
    s.result b = ⟨r.code, r.bytes⟩
  /-- A block is freed once, and after it was taken. -/
  frees_le : ∀ b, s.frees b ≤ 1
  freed : ∀ b, s.frees b = 1 ↔
    b ∈ s.dequeued (s.process b) ∧ ∀ t, s.consumer t ≠ some (.freeing b)

theorem Ports.mem_completions (hp : s.Ports Q) (hi : s.Issues L) {i : IrpId}
    (hb : s.io.Holds b (.irp i)) (hq : s.io.queued i = true) :
    b ∈ s.completions ↔ (s.io.irp i).currentFrame = none := by
  rw [hp.completions, List.mem_append, Option.mem_toList]
  constructor
  · rintro (hm | hm)
    · obtain ⟨⟨b, st⟩, hr, rfl⟩ := List.mem_map.mp hm
      obtain ⟨j, r, hj, -, hc, -⟩ := hi.blocks.ready b st hr
      cases hi.blocks.unique b (.irp j) _ hj hb
      exact hc
    · obtain ⟨j, hd, hj⟩ := Option.bind_eq_some_iff.mp hm
      cases hi.blocks.unique b (.irp j) _ hj hb
      exact (hi.inv.of_delivering hd).2.1
  · intro hc
    by_cases hd : s.io.delivering = some i
    · exact Or.inr (by rw [hd]; exact hb)
    · exact Or.inl ((hi.blocks.queued i b hb hq hc).mpr hd)

/-- A completed block is with its request. -/
theorem Ports.holds_of_completed (hp : s.Ports Q) (hi : s.Issues L) (hb : b ∈ s.completions) :
    ∃ i, s.io.Holds b (.irp i) := by
  rw [hp.completions, List.mem_append, Option.mem_toList] at hb
  rcases hb with hm | hm
  · obtain ⟨⟨b, st⟩, hr, rfl⟩ := List.mem_map.mp hm
    exact hi.of_ready hr
  · obtain ⟨i, -, hi⟩ := Option.bind_eq_some_iff.mp hm
    exact ⟨i, hi⟩

/-- **Asynchronous reads complete once**, if no block leaks. -/
theorem completes_once (h : (machine device processOf).ReachableWhile NoLeak s) :
    s.CompletesOnce processOf := by
  obtain ⟨⟨L, Q, hi, hp, hc, hans⟩, hpool, hacc⟩ := sound_of_reachableWhile h
  have hdeq : ∀ {p b}, b ∈ s.dequeued p → (∃ st, (b, st) ∈ s.io.ready) ∧ s.process b = p :=
    fun hb ↦ hp.mem_ready (List.mem_append_left _ hb)
  refine ⟨fun b hr ↦ ?_, fun b r hr hne ↦ ?_, ?_, fun p ↦ ?_, fun p hne ↦ ?_, fun b hb ↦ ?_,
    fun p b hb ↦ ?_, fun t b hb ↦ ?_, fun p b hb ↦ ?_, fun b ↦ ?_, fun b ↦ ?_⟩
  · obtain ⟨i, hb, hq⟩ := hacc b hr
    exact ⟨i, hb, hq, hp.mem_completions hi hb hq⟩
  · have hno := (hans b r hr).2 hne
    have hfrees : s.frees b = 0 := by
      by_contra hf
      obtain ⟨i, hb⟩ := hpool.freed b hf
      exact hno _ hb
    refine ⟨fun hb ↦ ?_, fun t hb ↦ ?_, ?_, hfrees⟩
    · obtain ⟨i, hb⟩ := hp.holds_of_completed hi hb
      exact hno _ hb
    · obtain ⟨⟨st, hm⟩, -⟩ := hdeq (hc.delivered t b hb).1
      obtain ⟨i, hb⟩ := hi.of_ready hm
      exact hno _ hb
    · by_contra hl
      rcases hpool.place b (by simpa using hl) with ⟨t, f, kind, hct⟩ | ⟨i, hb⟩
      · refine hno (.call (.thread t)) ?_
        show (s.io.call t).bind Call.block? = _
        rw [hct]
        rfl
      · exact hno _ hb
  · rw [hp.completions]
    refine List.nodup_append.mpr ⟨hi.blocks.nodup, ?_, fun b hb c hc ↦ ?_⟩
    · cases s.io.delivering.bind fun i ↦ (s.io.irp i).asyncIoBlock <;> simp
    · rintro rfl
      obtain ⟨i, hd, hib⟩ := Option.bind_eq_some_iff.mp (Option.mem_toList.mp hc)
      obtain ⟨hq, hcur, -⟩ := hi.inv.of_delivering hd
      exact (hi.blocks.queued i b hib hq hcur).mp hb hd
  · rw [hp.completions, List.filter_append, hp.order, hp.rep.toList_eq, queueing]
  · rw [hp.rep.toList_eq] at hne
    exact hp.avail p hne
  · exact hpool.process b (Or.inr (hp.holds_of_completed hi hb))
  · rcases hc.every p b hb with ⟨t, ht⟩ | hm
    · refine Or.inl ⟨⟨t, ht, ?_, fun t' ht' ↦ hc.unique t' t b ht' ht⟩, fun hm ↦ ?_⟩
      · exact (hdeq (hc.taken t b ht)).2.symm.trans (hdeq hb).2
      · obtain ⟨⟨t', b'⟩, hm', rfl⟩ := List.mem_map.mp hm
        exact (hc.delivered t' b' hm').2 t ht
    · obtain ⟨⟨t', b'⟩, hm', rfl⟩ := List.mem_map.mp hm
      exact Or.inr ⟨(hc.delivered t' b' hm').2, List.count_eq_one_of_mem hc.nodup hm⟩
  · obtain ⟨hm, -⟩ := hc.delivered t b hb
    obtain ⟨⟨st, hr⟩, hproc⟩ := hdeq hm
    exact ⟨hm, hproc.symm.trans (hpool.process b (Or.inr (hi.of_ready hr)))⟩
  · obtain ⟨⟨st, hr⟩, -⟩ := hdeq hb
    obtain ⟨i, r, hib, -, -, ho, rfl⟩ := hi.blocks.ready b st hr
    exact ⟨i, r, hib, ho, hp.result b _ hr⟩
  · by_contra hf
    obtain ⟨i, hb⟩ := hpool.freed b (by omega)
    have := (hpool.request b i hb).1
    split at this <;> omega
  · constructor
    · intro hf
      obtain ⟨i, hb⟩ := hpool.freed b (by omega)
      obtain ⟨h₁, h₂⟩ := hpool.request b i hb
      by_cases hl : s.live b = true
      · rw [if_pos hl] at h₁
        omega
      · rw [if_neg hl] at h₁
        exact ⟨h₁.2, fun t ht ↦ hl (h₂.mp ⟨t, ht⟩).1⟩
    · rintro ⟨hm, hno⟩
      obtain ⟨⟨st, hr⟩, -⟩ := hdeq hm
      obtain ⟨i, hb⟩ := hi.of_ready hr
      obtain ⟨h₁, h₂⟩ := hpool.request b i hb
      by_cases hl : s.live b = true
      · obtain ⟨t, ht⟩ := h₂.mpr ⟨hl, hm⟩
        exact (hno t ht).elim
      · rw [if_neg hl] at h₁
        exact h₁.1

/-! ## A block that leaks -/

/-- A block that nobody has, and that is not queued. -/
def Lost (b : BlockId) (s : Iocp) : Prop :=
  b < s.calls ∧ (∀ h, ¬ s.io.Holds b h) ∧ (∀ t, ¬ s.Has t b) ∧ s.frees b = 0

theorem Effect.lost (he : s.Effect device processOf a s') (h : s.Sound processOf L Q)
    (hb : s.Lost b) : s'.Lost b := by
  obtain ⟨hlt, hno, hhas, hfrees⟩ := hb
  cases he with
  | io hn he =>
    obtain ⟨L', ha, -⟩ := h.issues.inv.acts hn
    refine ⟨hlt.trans_le he.calls, he.nobody ha hlt hno, fun t ht ↦ ?_, he.frees ▸ hfrees⟩
    rw [Has, he.consumer] at ht
    exact hhas t ht
  | allocate => exact ⟨hlt, hno, hhas, hfrees⟩
  | @look t c hc hc' =>
    refine ⟨hlt, hno, fun t' ht ↦ ?_, hfrees⟩
    rw [has_update rfl] at ht
    split at ht
    · simp [hc'] at ht
    · exact hhas t' ht
  | @take t b' l hc hf hr =>
    refine ⟨hlt, hno, fun t' ht ↦ ?_, hfrees⟩
    rw [has_update rfl] at ht
    split at ht
    · cases ht
      obtain ⟨bs, hQ, -⟩ := h.ports.take hf hr
      obtain ⟨⟨st, hm⟩, -⟩ := h.ports.mem_ready (p := processOf t) (b := b)
        (List.mem_append_right _ (by simp [hQ]))
      obtain ⟨i, hi⟩ := h.issues.of_ready hm
      exact hno _ hi
    · exact hhas t' ht
  | @free t b' hc =>
    have hbb : b ≠ b' := by
      rintro rfl
      exact hhas t (by simp [Has, hc, Consumer.block?])
    refine ⟨hlt, hno, fun t' ht ↦ ?_, by simpa [hbb] using hfrees⟩
    rw [has_update rfl] at ht
    split at ht
    · cases ht
      exact hbb rfl
    · exact hhas t' ht
  | @deliver t b' hc =>
    refine ⟨hlt, hno, fun t' ht ↦ ?_, hfrees⟩
    rw [has_update rfl] at ht
    split at ht
    · cases ht
    · exact hhas t' ht

/-- The machine, from another state on. -/
def machineFrom (device : FileId → DeviceId) (processOf : ThreadId → ProcessId) (s : Iocp) :
    Machine Iocp IocpAction :=
  { machine device processOf with init := s }

/-- A lost block is never freed. -/
theorem lost_forever (h : (machine device processOf).Reachable s) (hb : s.Lost b)
    (h' : (machineFrom device processOf s).Reachable s') : s'.Lost b :=
  (h'.invariant (I := fun s ↦ (∃ L Q, s.Sound processOf L Q) ∧ s.Lost b)
    ⟨sound_of_reachable h, hb⟩ fun _ _ _ _ ⟨⟨_, _, hs⟩, hb⟩ hn ↦
      ⟨(effect_of_next hn).sound hs, (effect_of_next hn).lost hs hb⟩).2

/-- The block of a call that has returned something else than `io_pending` is lost, if it was not
freed by then. -/
theorem Sound.lost (h : s.Sound processOf L Q) {r : IoResult} (hr : s.returned b = some r)
    (hne : r ≠ .err .ioPending) (hf : s.frees b = 0) : s.Lost b := by
  obtain ⟨hlt, hno⟩ := h.answered b r hr
  refine ⟨hlt, hno hne, fun t ht ↦ ?_, hf⟩
  obtain ⟨⟨st, hm⟩, -⟩ := h.ports.mem_ready (List.mem_append_left _ (h.consumers.taken t b ht))
  obtain ⟨i, hi⟩ := h.issues.of_ready hm
  exact hno hne _ hi

/-- A call up to its block. -/
def readUpToBlock : List IocpAction :=
  [.readAsync 1 0 ⟨.generic, 1⟩, .io (.fast (.thread 1) (.err .slowIo)), .allocate 1]

/-- Thread 1 reads, and thread 2 gets the result. -/
def readAndWait : List IocpAction :=
  readUpToBlock ++ (List.replicate 4 (.io (.advance (.thread 1))) : List IocpAction) ++
    (IoManager.completeWith (.ok (some 5))).map .io ++ (IoManager.work 2).map .io ++
      (.waitQueuedIo 2 :: List.replicate 4 (.consume 2) : List IocpAction)

theorem completes_once_read :
    ((machine id fun _ ↦ 0).afterWhile NoLeak readAndWait).delivered = [(2, 0)] ∧
    ((machine id fun _ ↦ 0).afterWhile NoLeak readAndWait).CompletesOnce fun _ ↦ 0 :=
  ⟨by decide +kernel,
    completes_once (Machine.reachableWhile_afterWhile (M := machine id fun _ ↦ 0) readAndWait)⟩

/-- There is a block for the call but no request. -/
def leak : List IocpAction := readUpToBlock ++ ([.io (.exhausted (.thread 1))] : List IocpAction)

/-- The call returns `out_of_memory`, and its block is allocated and is never freed. -/
theorem leaked_block : ∃ s, (machine id fun _ ↦ 0).Reachable s ∧
    s.returned 0 = some (.err .outOfMemory) ∧ s.live 0 = true ∧
      ∀ s', (machineFrom id (fun _ ↦ 0) s).Reachable s' → s'.frees 0 = 0 := by
  have hr : (machine id fun _ ↦ 0).Reachable ((machine id fun _ ↦ 0).after leak) :=
    Machine.reachable_after leak
  have hret : ((machine id fun _ ↦ 0).after leak).returned 0 = some (.err .outOfMemory) := by
    decide +kernel
  obtain ⟨L, Q, h⟩ := sound_of_reachable hr
  have hlost := h.lost hret (by simp) (by decide +kernel)
  exact ⟨_, hr, hret, by decide +kernel, fun s' h' ↦ (lost_forever hr hlost h').2.2.2⟩

end Iocp

end Chino
