import Chino.Io.Services

/-!
# Descriptors stand for open files

What the services are for, apart from how they do it: a descriptor stands for an open file, from the
`open` or `socket` that returns it to the `close` that gives it back, and a call on it is a request
to the device of that file.  `Descriptors.Step` is one call.  There are no pools and no reference
counts here, and a file is there just while a descriptor stands for it.

`descriptors_refine` says that the services do this in every session: there is always a next state,
the calls return what they may return here, the devices are asked the same questions, and in the end
the handle table and `file_table_` hold what belongs to the open descriptors and nothing else.

## The table

A state of the table has the open files by their descriptors, the state of the devices, and `errno`.

* `create` is what `open` and `socket` have in common: the device is asked, and if the descriptor
  cannot be given it is told that the file is closed.
* `Uses` says that a slot belongs to an open file.  The table may give a new file any slot that is
  not in use, and any descriptor that stands for nothing; the theorem about the services says that
  they pick one of these, not which one.
* `fails` and `gives` are how a call ends: with a result, and with what it does to `errno`.  A call
  that succeeds leaves `errno` alone.
* `Runs` is a session, as the list of its calls with what they returned.

`FilesOf` ties a pool to the table: the slots in use are those of the open files, each with one
reference, and one more while a call has a file in hand.  Its lemmas are the operations on the pool
in terms of the table, and nothing else about the pool is used later.
-/

set_option autoImplicit false

namespace Chino

open Function (update)
open ObjectSegment (elementsCount)

/-! ## The abstract table -/

/-- An open file: its slot, its device, and what it holds for the device. -/
structure OpenFile where
  file : FileId
  device : DeviceId
  data : Option Resource

/-- The open files by their descriptors. -/
structure Descriptors (W : Type) where
  openFile : ℤ → Option OpenFile
  stdio : FileObject
  world : W
  errno : Errno

namespace Devices

variable {W : Type} (D : Devices W)

/-- What `open` or `socket` asks which device for. -/
def target (w : W) :
    ServiceCall → Option (Except ErrorCode (DeviceId × DeviceRequest × Option DeviceRequest))
  | .open path => some ((D.find w path).map fun (d, rest) ↦ (d, .open rest .openExisting, none))
  | .socket domain type protocol =>
    match D.defaultSocket with
    | none => some (.error .noSuchDevice)
    | some d => some (.ok (d, .open [] .createNew, some (.socket domain type protocol)))
  | _ => none

/-- The device of a new file is asked, and for a socket asked again; if it then fails, the file is
closed. -/
def create (w : W) (d : DeviceId) (f : FileId) (r : DeviceRequest) (r? : Option DeviceRequest) :
    Except ErrorCode (Option Resource) × W :=
  match D.serve w d (.pooled f) none r with
  | (.error e, _, w) => (.error e, w)
  | (.ok _, data, w) =>
    match r? with
    | none => (.ok data, w)
    | some r =>
      match D.serve w d (.pooled f) data r with
      | (.error e, data, w) => (.error e, (D.serve w d (.pooled f) data .close).2.2)
      | (.ok _, data, w) => (.ok data, w)

end Devices

namespace Descriptors

variable {W : Type} (D : Devices W) (user : Bool) (capacity : ℕ)

/-- A call fails. -/
def fails (p : Descriptors W) (e : ErrorCode) : Descriptors W := { p with errno := toErrno e }

/-- What a call returns and the new `errno`. -/
def gives (p : Descriptors W) (r : Except ErrorCode ℤ) : Descriptors W :=
  match r with
  | .ok _ => p
  | .error e => p.fails e

/-- The file is open. -/
def Uses (p : Descriptors W) (f : FileId) : Prop := ∃ fd x, p.openFile fd = some x ∧ x.file = f

/-- A call, what it returns, and what it changes. -/
inductive Step (p : Descriptors W) : ServiceCall → ℤ → Descriptors W → Prop
  /-- There is no such device. -/
  | unknown {c : ServiceCall} {e : ErrorCode} (ht : D.target p.world c = some (.error e)) :
      Step p c (-1) (p.fails e)
  /-- As many files as there may be are open. -/
  | noFile {c : ServiceCall} {t : DeviceId × DeviceRequest × Option DeviceRequest}
      (ht : D.target p.world c = some (.ok t)) (hall : ∀ f < capacity, p.Uses f) :
      Step p c (-1) (p.fails .outOfMemory)
  /-- The device refuses. -/
  | refused {c : ServiceCall} {d : DeviceId} {r : DeviceRequest} {r? : Option DeviceRequest}
      {f : FileId} {e : ErrorCode} {w : W}
      (ht : D.target p.world c = some (.ok (d, r, r?))) (hf : ¬p.Uses f) (hcap : f < capacity)
      (hc : D.create p.world d f r r? = (.error e, w)) :
      Step p c (-1) ({ p with world := w }.fails e)
  /-- All descriptors are in use, and the new file is closed. -/
  | noDescriptor {c : ServiceCall} {d : DeviceId} {r : DeviceRequest} {r? : Option DeviceRequest}
      {f : FileId} {data : Option Resource} {w : W}
      (ht : D.target p.world c = some (.ok (d, r, r?))) (hf : ¬p.Uses f) (hcap : f < capacity)
      (hc : D.create p.world d f r r? = (.ok data, w))
      (hall : ∀ i < elementsCount, p.openFile (i + fdBase) ≠ none) :
      Step p c (-1)
        ({ p with world := (D.serve w d (.pooled f) data .close).2.2 }.fails .outOfMemory)
  | opened {c : ServiceCall} {d : DeviceId} {r : DeviceRequest} {r? : Option DeviceRequest}
      {f : FileId} {data : Option Resource} {w : W} {fd : ℤ}
      (ht : D.target p.world c = some (.ok (d, r, r?))) (hf : ¬p.Uses f) (hcap : f < capacity)
      (hc : D.create p.world d f r r? = (.ok data, w)) (hfd : fdBase ≤ fd)
      (hfree : p.openFile fd = none) :
      Step p c fd { p with openFile := update p.openFile fd (some ⟨f, d, data⟩), world := w }
  | closed {fd : ℤ} {x : OpenFile} (hx : p.openFile fd = some x) :
      Step p (.close fd) 0 { p with
        openFile := update p.openFile fd none
        world := (D.serve p.world x.device (.pooled x.file) x.data .close).2.2 }
  | closeUnknown {fd : ℤ} {e : ErrorCode} (hx : p.openFile fd = none)
      (he : e = .invalidArgument ∨ e = .notFound) : Step p (.close fd) (-1) (p.fails e)
  /-- A standard stream. -/
  | refusedStandard {fd : ℤ} {r : FileRequest} {e : ErrorCode}
      (hs : Services.standard user fd r = some (.refuse e)) : Step p (.file fd r) (-1) (p.fails e)
  | printed {fd : ℤ} {r : FileRequest} {buffer size : ℕ}
      (hs : Services.standard user fd r = some (.print buffer size)) :
      Step p (.file fd r) (r.value size) { p with world := D.print p.world buffer }
  | stdio {fd : ℤ} {r : FileRequest} {d : DeviceId} {answer : Except ErrorCode ℕ}
      {data : Option Resource} {w : W} (hs : Services.standard user fd r = some .stdio)
      (hd : p.stdio.device = some d)
      (ha : D.serve p.world d .stdio p.stdio.data (.file r) = (answer, data, w)) :
      Step p (.file fd r) (wrapPosix (answer.map r.value))
        ({ p with stdio := { p.stdio with data := data }, world := w }.gives (answer.map r.value))
  | unknownFile {fd : ℤ} {r : FileRequest} {e : ErrorCode}
      (hs : Services.standard user fd r = none) (hx : p.openFile fd = none)
      (he : e = .invalidArgument ∨ e = .notFound) : Step p (.file fd r) (-1) (p.fails e)
  | notSocket {fd : ℤ} {r : FileRequest} {x : OpenFile} (hs : Services.standard user fd r = none)
      (hx : p.openFile fd = some x) (hr : r.needsSocket = true) (hd : D.isSocket x.device = false) :
      Step p (.file fd r) (-1) (p.fails .badCast)
  | served {fd : ℤ} {r : FileRequest} {x : OpenFile} {answer : Except ErrorCode ℕ}
      {data : Option Resource} {w : W} (hs : Services.standard user fd r = none)
      (hx : p.openFile fd = some x) (hr : r.needsSocket = true → D.isSocket x.device = true)
      (ha : D.serve p.world x.device (.pooled x.file) x.data (.file r) = (answer, data, w)) :
      Step p (.file fd r) (wrapPosix (answer.map r.value))
        ({ p with
          openFile := update p.openFile fd (some { x with data := data })
          world := w }.gives (answer.map r.value))

/-- No file is open. -/
def boot (stdio : FileObject) (w : W) : Descriptors W where
  openFile _ := none
  stdio := stdio
  world := w
  errno := .none

end Descriptors

/-! ## The files of the pool -/

/-- The files in the pool are those that descriptors stand for, with one reference, and one that a
call has in hand. -/
structure FilesOf (files : Slots FileObject) (capacity : ℕ) (o : ℤ → Option OpenFile)
    (hand : Option (FileId × FileObject)) : Prop where
  within : files.Within capacity
  entry : ∀ fd x, o fd = some x → files.entry x.file = some ⟨1, some x.device, x.data⟩
  held : ∀ f x, hand = some (f, x) → files.entry f = some x
  unused : ∀ f x, hand = some (f, x) → ∀ fd y, o fd = some y → y.file ≠ f
  only : ∀ f x, files.entry f = some x →
    (∃ fd y, o fd = some y ∧ y.file = f) ∨ ∃ x, hand = some (f, x)
  distinct : ∀ fd fd' x x', o fd = some x → o fd' = some x' → x.file = x'.file → fd = fd'

namespace FilesOf

variable {files files' : Slots FileObject} {capacity : ℕ} {o : ℤ → Option OpenFile}
  {hand : Option (FileId × FileObject)} {f : FileId} {x y : FileObject} {fd : ℤ}

theorem take (h : FilesOf files capacity o none) (ht : files.take x = some (f, files')) :
    FilesOf files' capacity o (some (f, x)) := by
  obtain ⟨hnone, he⟩ := Slots.entry_take ht
  have hne : ∀ fd y, o fd = some y → y.file ≠ f := by
    rintro fd y hy rfl
    rw [h.entry fd y hy] at hnone
    cases hnone
  refine ⟨h.within.take ht, fun fd y hy ↦ ?_, ?_, ?_, fun g z hg ↦ ?_, h.distinct⟩
  · rw [he, Function.update_of_ne (hne fd y hy)]
    exact h.entry fd y hy
  · rintro _ _ ⟨⟩
    rw [he, Function.update_self]
  · rintro _ _ ⟨⟩
    exact hne
  · by_cases hgf : g = f
    · exact Or.inr ⟨x, by rw [hgf]⟩
    · rw [he, Function.update_of_ne hgf] at hg
      exact (h.only g z hg).imp_right fun ⟨_, h⟩ ↦ by cases h

/-- The file in hand is changed. -/
theorem modify (h : FilesOf files capacity o (some (f, x))) (g : FileObject → FileObject) :
    FilesOf (files.modify f g) capacity o (some (f, g x)) := by
  refine ⟨h.within.modify f g, fun fd y hy ↦ ?_, ?_, ?_, fun k z hk ↦ ?_, h.distinct⟩
  · rw [Slots.entry_modify_of_ne (h.unused f x rfl fd y hy)]
    exact h.entry fd y hy
  · rintro _ _ ⟨⟩
    exact Slots.entry_modify (h.held f x rfl)
  · rintro _ _ ⟨⟩
    exact h.unused f x rfl
  · by_cases hkf : k = f
    · exact Or.inr ⟨g x, by rw [hkf]⟩
    · rw [Slots.entry_modify_of_ne hkf] at hk
      refine (h.only k z hk).imp_right fun ⟨_, h⟩ ↦ ?_
      cases h
      exact absurd rfl hkf

/-- The file in hand is freed. -/
theorem put (h : FilesOf files capacity o (some (f, x))) :
    FilesOf (files.put f) capacity o none := by
  have hf := h.held f x rfl
  refine ⟨h.within.put hf, fun fd y hy ↦ ?_, ?_, ?_, fun k z hk ↦ ?_, h.distinct⟩
  · rw [Slots.entry_put hf, Function.update_of_ne (h.unused f x rfl fd y hy)]
    exact h.entry fd y hy
  · rintro _ _ ⟨⟩
  · rintro _ _ ⟨⟩
  · rw [Slots.entry_put hf] at hk
    by_cases hkf : k = f
    · subst hkf
      rw [Function.update_self] at hk
      cases hk
    · rw [Function.update_of_ne hkf] at hk
      refine (h.only k z hk).imp_right fun ⟨_, h⟩ ↦ ?_
      cases h
      exact absurd rfl hkf

/-- A descriptor stands for the file in hand. -/
theorem insert {d : DeviceId} {data : Option Resource}
    (h : FilesOf files capacity o (some (f, ⟨1, some d, data⟩))) (hfd : o fd = none) :
    FilesOf files capacity (update o fd (some ⟨f, d, data⟩)) none := by
  have hold : ∀ k, o k ≠ none → k ≠ fd := by
    rintro k hk rfl
    exact hk hfd
  refine ⟨h.within, fun k y hy ↦ ?_, ?_, ?_, fun k z hk ↦ ?_, fun k k' y y' hy hy' he ↦ ?_⟩
  · by_cases hk : k = fd
    · subst hk
      rw [Function.update_self] at hy
      cases hy
      exact h.held f _ rfl
    · rw [Function.update_of_ne hk] at hy
      exact h.entry k y hy
  · rintro _ _ ⟨⟩
  · rintro _ _ ⟨⟩
  · rcases h.only k z hk with ⟨fd', y, hy, hyf⟩ | ⟨_, he⟩
    · refine Or.inl ⟨fd', y, ?_, hyf⟩
      rwa [Function.update_of_ne (hold fd' (by rw [hy]; exact Option.some_ne_none _))]
    · cases he
      exact Or.inl ⟨fd, _, Function.update_self .., rfl⟩
  · by_cases hk : k = fd
    · by_cases hk' : k' = fd
      · rw [hk, hk']
      · subst hk
        rw [Function.update_self] at hy
        rw [Function.update_of_ne hk'] at hy'
        cases hy
        exact absurd he.symm (h.unused f _ rfl k' y' hy')
    · rw [Function.update_of_ne hk] at hy
      by_cases hk' : k' = fd
      · subst hk'
        rw [Function.update_self] at hy'
        cases hy'
        exact absurd he (h.unused f _ rfl k y hy)
      · rw [Function.update_of_ne hk'] at hy'
        exact h.distinct k k' y y' hy hy' he

/-- A descriptor stands for nothing any more. -/
theorem erase {z : OpenFile} (h : FilesOf files capacity o none) (hfd : o fd = some z) :
    FilesOf files capacity (update o fd none) (some (z.file, ⟨1, some z.device, z.data⟩)) := by
  have hold : ∀ k y, update o fd none k = some y → k ≠ fd ∧ o k = some y := by
    intro k y hy
    by_cases hk : k = fd
    · subst hk
      rw [Function.update_self] at hy
      cases hy
    · rw [Function.update_of_ne hk] at hy
      exact ⟨hk, hy⟩
  refine ⟨h.within, fun k y hy ↦ h.entry k y (hold k y hy).2, ?_, ?_, fun k x hk ↦ ?_,
    fun k k' y y' hy hy' he ↦ h.distinct k k' y y' (hold k y hy).2 (hold k' y' hy').2 he⟩
  · rintro _ _ ⟨⟩
    exact h.entry fd z hfd
  · rintro _ _ ⟨⟩ k y hy he
    exact (hold k y hy).1 (h.distinct k fd y z (hold k y hy).2 hfd he)
  · obtain ⟨k', y, hy, hyf⟩ := (h.only k x hk).resolve_right fun ⟨_, he⟩ ↦ by cases he
    by_cases hk' : k' = fd
    · subst hk'
      cases hfd.symm.trans hy
      exact Or.inr ⟨_, by rw [hyf]⟩
    · refine Or.inl ⟨k', y, ?_, hyf⟩
      rwa [Function.update_of_ne hk']

/-- An open file gets new data. -/
theorem setData {z : OpenFile} (h : FilesOf files capacity o none) (hfd : o fd = some z)
    (data : Option Resource) :
    FilesOf (files.modify z.file fun x ↦ { x with data := data }) capacity
      (update o fd (some { z with data := data })) none := by
  have h₁ := (h.erase hfd).modify fun x ↦ { x with data := data }
  have hnone : update o fd none fd = none := Function.update_self ..
  have h₂ := h₁.insert hnone
  rwa [Function.update_idem] at h₂

/-- A slot that is not in the pool has no descriptor. -/
theorem not_uses {W : Type} {p : Descriptors W} (h : FilesOf files capacity p.openFile none)
    (hf : files.entry f = none) : ¬p.Uses f := by
  rintro ⟨fd, y, hy, rfl⟩
  rw [h.entry fd y hy] at hf
  cases hf

/-- A file is refused only if all are open. -/
theorem uses_of_full {W : Type} {p : Descriptors W} (h : FilesOf files capacity p.openFile none)
    (ht : files.take x = none) (hf : f < capacity) : p.Uses f := by
  obtain ⟨y, hy⟩ := Option.isSome_iff_exists.mp (h.within.full ht hf)
  exact (h.only f y hy).resolve_right fun ⟨_, he⟩ ↦ by cases he

theorem lt_of_take (h : FilesOf files capacity o none) (ht : files.take x = some (f, files')) :
    f < capacity := by
  refine (h.within f).mpr (Or.inl ?_)
  unfold Slots.take at ht
  split at ht
  · cases ht
  · rename_i hfree
    cases ht
    rw [hfree]
    exact List.mem_cons_self

end FilesOf

end Chino
