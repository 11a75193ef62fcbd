import Chino.Io.Descriptors

/-!
# The services keep to their descriptors

Between two calls every file of the pool has one reference, that of its handle entry, and `Shows`
relates the state to an abstract table.  A call that opens a file has it in hand until a descriptor
stands for it; a call on a descriptor takes a second reference and drops it again.

## The proof

`Shows` is the relation between a state of the services and the abstract table: the handle table is
`handleMap` of the open files, by `Chino.Ob.HandleTable`, and the pool holds exactly their slots, by
`FilesOf`.  Each piece of a service call has one lemma about it.

* `openFile_spec` and `allocHandle_spec`: where an `open` ends, and with which of its two resources.
  A file whose handle cannot be allocated is closed again, and the lemma says so for the device as
  well.
* `referenceFile_spec`: a call on a descriptor finds the file, or one of the two errors of the
  table.
* `Shows.perform` puts them together for all calls, and `exists_descriptors` is the induction over
  the session.

Since the abstract table is deterministic apart from the numbers that it picks for files and
descriptors, the theorem fixes what a program can see: results, `errno` and the requests that reach
the devices.

`others_untouched` is the frame property.  `about` is the descriptor that a call is about, and what
any other descriptor leads to keeps its device, its reference and its data, whether the call
succeeds or not.

Both are about a system whose standard device is there (`stdio.device = some d`), since a call on
one of the three standard descriptors goes to it without a look at the handle table.
-/

set_option autoImplicit false

namespace Chino

open Function (update)
open ObjectSegment (elementsCount)

namespace Services

variable {W : Type} {D : Devices W} {user : Bool} {capacity : ℕ} {s s' : Services W}
  {p p' : Descriptors W} {f : FileId} {x : FileObject} {d : DeviceId} {data : Option Resource}
  {r : DeviceRequest} {answer : Except ErrorCode ℕ} {w : W} {fd : ℤ} {o : ℤ → Option OpenFile}
  {m : HandleMap} {free : List ℕ}

/-! ## One file -/

theorem request_pooled (h : s.files.entry f = some x) (hd : x.device = some d)
    (ha : D.serve s.world d (.pooled f) x.data r = (answer, data, w)) :
    s.request D (.pooled f) r =
      some (answer,
        { s with files := s.files.modify f fun x ↦ { x with data := data }, world := w }) := by
  simp only [request, file?, h, Option.bind_eq_bind, Option.bind_some, hd, ha]
  rfl

theorem request_stdio (hd : s.stdio.device = some d)
    (ha : D.serve s.world d .stdio s.stdio.data r = (answer, data, w)) :
    s.request D .stdio r =
      some (answer, { s with stdio := { s.stdio with data := data }, world := w }) := by
  simp only [request, file?, Option.bind_eq_bind, Option.bind_some, hd, ha]
  rw [← hd]
  rfl

/-- A pointer is copied, and one of the two is dropped. -/
theorem dropRef_addRef (h : s.files.entry f = some x) (hx : 0 < x.refCount) :
    (s.addRef f).dropRef D f = some s := by
  have h₁ : (s.addRef f).files.entry f = some { x with refCount := x.refCount + 1 } :=
    Slots.entry_modify h
  have hne : x.refCount + 1 ≠ 1 := by omega
  simp only [dropRef, h₁, Option.bind_eq_bind, Option.bind_some, hne, if_false]
  have hfiles :
      (s.addRef f).files.modify f (fun x ↦ { x with refCount := x.refCount - 1 }) = s.files := by
    rw [addRef, Slots.modify_modify]
    exact Slots.modify_self h rfl
  rw [hfiles]
  rfl

/-- The last pointer to an open file is dropped. -/
theorem dropRef_open (h : s.files.entry f = some ⟨1, some d, data⟩) : s.dropRef D f =
    some { s with
      files := s.files.put f
      world := (D.serve s.world d (.pooled f) data .close).2.2 } := by
  simp only [dropRef, h, Option.bind_eq_bind, Option.bind_some, if_true, Option.isSome_some]
  rw [request_pooled h rfl rfl]
  simp only [Option.map_some, Option.bind_some, Slots.put_modify h]

/-- The last pointer to a file that has no device is dropped. -/
theorem dropRef_failed (h : s.files.entry f = some ⟨1, none, data⟩) :
    s.dropRef D f = some { s with files := s.files.put f } := by
  simp only [dropRef, h, Option.bind_eq_bind, Option.bind_some, if_true, Option.isSome_none,
    Bool.false_eq_true, if_false]

/-! ## Opening -/

/-- The file of a successful open is in hand, and that of a failed one is freed. -/
theorem openFile_spec {path : Text} {disposition : CreateDisposition} {files : Slots FileObject}
    (h : FilesOf s.files capacity o none) (ht : s.files.take .construct = some (f, files))
    (ha : D.serve s.world d (.pooled f) none (.open path disposition) = (answer, data, w)) :
    ∃ files', s.openFile D d path disposition =
        some (answer.map fun _ ↦ f, { s with files := files', world := w }) ∧
      FilesOf files' capacity o
        (match answer with | .error _ => none | .ok _ => some (f, ⟨1, some d, data⟩)) := by
  have h₁ := (h.take ht).modify fun x ↦ { x with device := some d }
  have h₂ := h₁.modify fun x ↦ { x with data := data }
  have hreq :=
    request_pooled (D := D) (s := ({ s with files := files } : Services W).setDevice f (some d))
    (h₁.held f _ rfl) rfl ha
  cases answer with
  | error e =>
    have h₃ := h₂.modify fun x ↦ { x with device := none }
    refine ⟨_, ?_, h₃.put⟩
    simp only [openFile, ht]
    rw [hreq]
    simp only [Option.bind_eq_bind, Option.bind_some]
    rw [dropRef_failed (h₃.held f _ rfl)]
    rfl
  | ok n =>
    refine ⟨_, ?_, h₂⟩
    simp only [openFile, ht]
    rw [hreq]
    simp only [Option.bind_eq_bind, Option.bind_some]
    rw [dropRef_addRef (h₂.held f _ rfl) Nat.one_pos]
    rfl

/-- The handle map of the open files. -/
def handleMap (o : ℤ → Option OpenFile) : HandleMap := fun fd ↦
  (o fd).map fun x ↦ ((fileAddress x.file).val, genericAll)

theorem handleMap_eq_none : handleMap o fd = none ↔ o fd = none := Option.map_eq_none_iff

theorem handleMap_update {y : Option OpenFile} : handleMap (update o fd y) =
    update (handleMap o) fd (y.map fun x ↦ ((fileAddress x.file).val, genericAll)) := by
  funext k
  by_cases hk : k = fd
  · subst hk
    simp [handleMap]
  · simp [handleMap, hk]

/-- A descriptor stands for the file in hand, or there is none left and the file is closed. -/
theorem allocHandle_spec (h : FilesOf s.files capacity o (some (f, ⟨1, some d, data⟩)))
    (ht : s.table.Ok (handleMap o) free) :
    (∃ fd table free', s.allocHandle D f = some (.ok fd, { s with table := table }) ∧ fdBase ≤ fd ∧
      o fd = none ∧ table.Ok (handleMap (update o fd (some ⟨f, d, data⟩))) free') ∨
    (∀ i < elementsCount, o (i + fdBase) ≠ none) ∧ s.allocHandle D f = some (.error .outOfMemory,
      { s with
        files := s.files.put f
        world := (D.serve s.world d (.pooled f) data .close).2.2 }) := by
  have hf := h.held f _ rfl
  cases free with
  | nil =>
    obtain ⟨ha, hall⟩ := ht.allocate_nil (fileAddress f) genericAll
    refine Or.inr ⟨fun i hi ho ↦ hall i hi (handleMap_eq_none.mpr ho), ?_⟩
    simp only [allocHandle, ha, Option.bind_eq_bind, Option.bind_some]
    rw [dropRef_open hf]
    rfl
  | cons i free =>
    obtain ⟨-, hnone, table, ha, hok, -⟩ := ht.allocate_cons (fileAddress f) genericAll
    refine Or.inl ⟨i + fdBase, table, free, ?_, by omega, handleMap_eq_none.mp hnone, ?_⟩
    · simp only [allocHandle, ha, Option.bind_eq_bind, Option.bind_some]
      rw [dropRef_addRef (s := { s with table := table }) hf Nat.one_pos]
      rfl
    · rw [handleMap_update]
      exact hok

/-! ## The relation -/

/-- The state shows the abstract table. -/
structure Shows (capacity : ℕ) (s : Services W) (p : Descriptors W) : Prop where
  table : ∃ free, s.table.Ok (handleMap p.openFile) free
  files : FilesOf s.files capacity p.openFile none
  stdio : s.stdio = p.stdio
  world : s.world = p.world
  errno : s.errno = p.errno

theorem Shows.fails (h : s.Shows capacity p) (e : ErrorCode) :
    (s.setErrno (.error e)).Shows capacity (p.fails e) := ⟨h.table, h.files, h.stdio, h.world, rfl⟩

theorem Shows.gives (h : s.Shows capacity p) (v : Except ErrorCode ℤ) :
    (s.setErrno v).Shows capacity (p.gives v) := by
  cases v with
  | ok v => exact h
  | error e => exact h.fails e

/-! ## The calls -/

/-- A call has an answer, which the abstract table allows. -/
def Does (D : Devices W) (user : Bool) (capacity : ℕ) (p : Descriptors W) (c : ServiceCall)
    (a : Option (Answer W ℤ)) : Prop :=
  ∃ v s p', a = some (v, s) ∧ Descriptors.Step D user capacity p c (wrapPosix v) (p'.gives v) ∧
    s.Shows capacity p' ∧ p'.stdio.device = p.stdio.device

/-- The devices have accepted a new file. -/
theorem does_allocHandle {c : ServiceCall} {r? : Option DeviceRequest} {files : Slots FileObject}
    (h : s.Shows capacity p) (ht : D.target p.world c = some (.ok (d, r, r?))) (hf : ¬p.Uses f)
    (hcap : f < capacity) (hc : D.create p.world d f r r? = (.ok data, w))
    (hfiles : FilesOf files capacity p.openFile (some (f, ⟨1, some d, data⟩))) :
    Does D user capacity p c
      (({ s with files := files, world := w } : Services W).allocHandle D f) := by
  obtain ⟨free, htable⟩ := h.table
  rcases allocHandle_spec (D := D) (s := { s with files := files, world := w }) hfiles htable with
    ⟨fd, table, free', ha, hfd, hnone, hok⟩ | ⟨hall, ha⟩
  · exact ⟨_, _, { p with openFile := update p.openFile fd (some ⟨f, d, data⟩), world := w }, ha,
      .opened ht hf hcap hc hfd hnone,
      ⟨⟨free', hok⟩, hfiles.insert hnone, h.stdio, rfl, h.errno⟩, rfl⟩
  · exact ⟨_, _, { p with world := (D.serve w d (.pooled f) data .close).2.2 }, ha,
      .noDescriptor ht hf hcap hc hall, ⟨⟨free, htable⟩, hfiles.put, h.stdio, rfl, h.errno⟩, rfl⟩

theorem does_open (h : s.Shows capacity p) (path : Text) :
    Does D user capacity p (.open path) (s.openCall D path) := by
  rw [openCall, h.world]
  cases hfind : D.find p.world path with
  | error e => exact ⟨_, _, p, rfl, .unknown (by rw [Devices.target, hfind]; rfl), h, rfl⟩
  | ok found =>
    obtain ⟨d, rest⟩ := found
    have ht : D.target p.world (.open path) = some (.ok (d, .open rest .openExisting, none)) := by
      rw [Devices.target, hfind]
      rfl
    cases htake : s.files.take .construct with
    | none =>
      refine ⟨.error .outOfMemory, s, p, ?_, .noFile ht fun f hf ↦ h.files.uses_of_full htake hf,
        h, rfl⟩
      simp only [openFile, htake]
      rfl
    | some taken =>
      obtain ⟨f, files⟩ := taken
      have hf := h.files.not_uses (Slots.entry_take htake).1
      have hcap := h.files.lt_of_take htake
      rcases ha : D.serve s.world d (.pooled f) none (.open rest .openExisting) with ⟨answer, data,
        w⟩
      obtain ⟨files', hopen, hfiles⟩ := openFile_spec h.files htake ha
      rw [h.world] at ha
      simp only [hopen, Option.bind_eq_bind, Option.bind_some]
      cases answer with
      | error e =>
        exact ⟨_, _, { p with world := w }, rfl,
          .refused ht hf hcap (by rw [Devices.create, ha]),
          ⟨h.table, hfiles, h.stdio, rfl, h.errno⟩, rfl⟩
      | ok n => exact does_allocHandle h ht hf hcap (by rw [Devices.create, ha]) hfiles

theorem does_socket (h : s.Shows capacity p) (domain type protocol : ℤ) :
    Does D user capacity p (.socket domain type protocol) (s.socketCall D domain type protocol) := by
  rw [socketCall]
  cases hd : D.defaultSocket with
  | none => exact ⟨_, _, p, rfl, .unknown (by rw [Devices.target, hd]), h, rfl⟩
  | some d =>
    have ht : D.target p.world (.socket domain type protocol) =
        some (.ok (d, .open [] .createNew, some (.socket domain type protocol))) := by
      rw [Devices.target, hd]
    cases htake : s.files.take .construct with
    | none =>
      refine ⟨.error .outOfMemory, s, p, ?_, .noFile ht fun f hf ↦ h.files.uses_of_full htake hf,
        h, rfl⟩
      simp only [openFile, htake]
      rfl
    | some taken =>
      obtain ⟨f, files⟩ := taken
      have hf := h.files.not_uses (Slots.entry_take htake).1
      have hcap := h.files.lt_of_take htake
      rcases ha : D.serve s.world d (.pooled f) none (.open [] .createNew) with ⟨answer, data, w⟩
      obtain ⟨files', hopen, hfiles⟩ := openFile_spec h.files htake ha
      rw [h.world] at ha
      simp only [hopen, Option.bind_eq_bind, Option.bind_some]
      cases answer with
      | error e =>
        exact ⟨_, _, { p with world := w }, rfl,
          .refused ht hf hcap (by rw [Devices.create, ha]),
          ⟨h.table, hfiles, h.stdio, rfl, h.errno⟩, rfl⟩
      | ok n =>
        rcases ha' : D.serve w d (.pooled f) data (.socket domain type protocol) with ⟨answer,
          data', w'⟩
        have hreq := request_pooled (D := D) (s := { s with files := files', world := w })
          (hfiles.held f _ rfl) rfl ha'
        have hfiles' := hfiles.modify fun x ↦ { x with data := data' }
        simp only [Except.map, hreq, Option.bind_some]
        cases answer with
        | error e =>
          simp only
          rw [dropRef_open (hfiles'.held f _ rfl)]
          exact ⟨_, _, { p with world := (D.serve w' d (.pooled f) data' .close).2.2 }, rfl,
            .refused ht hf hcap (by rw [Devices.create, ha]; simp only [ha']),
            ⟨h.table, hfiles'.put, h.stdio, rfl, h.errno⟩, rfl⟩
        | ok n =>
          exact does_allocHandle h ht hf hcap (by rw [Devices.create, ha]; simp only [ha']) hfiles'

/-- The errors of a descriptor that stands for nothing. -/
theorem entryAt_error {t : HandleTable} {e : ErrorCode} (h : t.entryAt fd = .error e) :
    e = .invalidArgument ∨ e = .notFound := by
  simp only [HandleTable.entryAt, ObjectSegment.atWithSegment, ObjectSegment.entryAt] at h
  split at h
  · exact Or.inl (Except.error.inj h).symm
  · split at h
    · exact Or.inr (Except.error.inj h).symm
    · split at h
      · exact Or.inl (Except.error.inj h).symm
      · cases h

theorem free_error {t t' : HandleTable} {e : ErrorCode} (h : t.free fd = some (.error e, t')) :
    t.entryAt fd = .error e := by
  rw [HandleTable.free] at h
  rw [HandleTable.entryAt]
  split at h
  · rename_i hlt
    cases h
    exact if_pos hlt
  · rename_i hlt
    rw [if_neg hlt]
    split at h
    · rename_i he
      cases h
      exact he
    · obtain ⟨_, -, h⟩ := Option.bind_eq_some_iff.mp h
      obtain ⟨_, -, h⟩ := Option.bind_eq_some_iff.mp h
      obtain ⟨_, -, h⟩ := Option.bind_eq_some_iff.mp h
      cases h

theorem does_close (h : s.Shows capacity p) (fd : ℤ) :
    Does D user capacity p (.close fd) (s.closeCall D fd) := by
  obtain ⟨free, htable⟩ := h.table
  cases hx : p.openFile fd with
  | none =>
    obtain ⟨e, he⟩ := htable.free_none (handleMap_eq_none.mpr hx)
    refine ⟨.error e, s, p, ?_, .closeUnknown hx (entryAt_error (free_error he)), h, rfl⟩
    simp only [closeCall, he, Option.bind_eq_bind, Option.bind_some]
  | some x =>
    have hmap : handleMap p.openFile fd = some ((fileAddress x.file).val, genericAll) := by
      rw [handleMap, hx]
      rfl
    obtain ⟨table, free', hfree, hok, -, hdrop⟩ := htable.free_some hmap
    refine ⟨.ok 0, { s with
        table := table
        files := s.files.put x.file
        world := (D.serve p.world x.device (.pooled x.file) x.data .close).2.2 }, _, ?_, .closed hx,
      ⟨⟨free', ?_⟩, (h.files.erase hx).put, h.stdio, rfl, h.errno⟩, rfl⟩
    · simp only [closeCall, hfree, Option.bind_eq_bind, Option.bind_some, hdrop,
        List.getLast?_append, List.getLast?_singleton, Option.some_or, fileAt_fileAddress]
      rw [dropRef_open (s := { s with table := table }) (h.files.entry fd x hx), ← h.world]
      rfl
    · rw [handleMap_update]
      exact hok

/-- A call on an open file holds a second pointer to it. -/
theorem referenceFile_spec (h : s.Shows capacity p) (fd : ℤ) :
    match p.openFile fd with
    | some x => s.referenceFile fd = some (.ok x.file, s.addRef x.file)
    | none => ∃ e, s.referenceFile fd = some (.error e, s) ∧
        (e = .invalidArgument ∨ e = .notFound) := by
  obtain ⟨free, htable⟩ := h.table
  have hshows := htable.shows fd
  cases hx : p.openFile fd with
  | none =>
    rw [handleMap_eq_none.mpr hx] at hshows
    obtain ⟨e, he⟩ := hshows
    exact ⟨e, by rw [referenceFile, he], entryAt_error he⟩
  | some x =>
    rw [handleMap, hx] at hshows
    obtain ⟨entry, he, hread⟩ := hshows
    rw [referenceFile, he]
    simp only [hread, Option.bind_eq_bind, Option.bind_some, fileAt_fileAddress]

theorem does_file (h : s.Shows capacity p) (fd : ℤ) (r : FileRequest)
    (hs : standard user fd r = none) : Does D user capacity p (.file fd r) (s.fileCall D fd r) := by
  have href := referenceFile_spec h fd
  cases hx : p.openFile fd with
  | none =>
    rw [hx] at href
    obtain ⟨e, he, hcode⟩ := href
    refine ⟨.error e, s, p, ?_, .unknownFile hs hx hcode, h, rfl⟩
    simp only [fileCall, he, Option.bind_eq_bind, Option.bind_some]
  | some x =>
    rw [hx] at href
    have hentry := h.files.entry fd x hx
    have hentry₂ : (s.addRef x.file).files.entry x.file = some ⟨2, some x.device, x.data⟩ :=
      Slots.entry_modify hentry
    simp only [fileCall, href, Option.bind_eq_bind, Option.bind_some, hentry₂]
    by_cases hsock : r.needsSocket = true ∧ ¬D.isSocket x.device = true
    · rw [if_pos hsock, dropRef_addRef hentry Nat.one_pos]
      exact ⟨.error .badCast, s, p, rfl, .notSocket hs hx hsock.1 (by simpa using hsock.2), h, rfl⟩
    · rw [if_neg hsock]
      rcases ha : D.serve s.world x.device (.pooled x.file) x.data (.file r) with ⟨answer, data, w⟩
      have hreq := request_pooled (D := D) (s := s.addRef x.file) hentry₂ rfl ha
      rw [hreq]
      simp only [Option.bind_some]
      -- the second pointer is dropped with the new data in the file
      have hdrop : dropRef D { s.addRef x.file with
          files := (s.addRef x.file).files.modify x.file fun y ↦ { y with data := data }
          world := w } x.file =
          some { s with
            files := s.files.modify x.file fun y ↦ { y with data := data }
            world := w } := by
        have hcomm : (s.addRef x.file).files.modify x.file (fun y ↦ { y with data := data }) =
            (s.files.modify x.file fun y ↦ { y with data := data }).modify x.file
              fun y ↦ { y with refCount := y.refCount + 1 } := by
          rw [addRef, Slots.modify_modify, Slots.modify_modify]
          rfl
        rw [hcomm]
        exact dropRef_addRef (s := { s with
          files := s.files.modify x.file fun y ↦ { y with data := data }
          world := w }) (Slots.entry_modify hentry) Nat.one_pos
      rw [hdrop]
      rw [h.world] at ha
      refine ⟨answer.map r.value, _, _, rfl, .served hs hx (fun hr ↦ ?_) ha,
        ⟨?_, h.files.setData hx data, h.stdio, rfl, h.errno⟩, rfl⟩
      · by_contra hno
        exact hsock ⟨hr, hno⟩
      · obtain ⟨free, htable⟩ := h.table
        refine ⟨free, ?_⟩
        have hsame : handleMap (update p.openFile fd (some { x with data := data })) =
            handleMap p.openFile := by
          rw [handleMap_update]
          refine Function.update_eq_self_iff.mpr ?_
          rw [handleMap, hx]
          rfl
        rw [hsame]
        exact htable

theorem does_descriptor (h : s.Shows capacity p) (hd : p.stdio.device = some d) (fd : ℤ)
    (r : FileRequest) : Does D user capacity p (.file fd r) (s.descriptorCall D user fd r) := by
  rw [descriptorCall]
  cases hs : standard user fd r with
  | none => exact does_file h fd r hs
  | some standard =>
    cases standard with
    | refuse e => exact ⟨.error e, s, p, rfl, .refusedStandard hs, h, rfl⟩
    | print buffer size =>
      rw [h.world]
      exact ⟨.ok (r.value size), { s with world := D.print p.world buffer },
        { p with world := D.print p.world buffer }, rfl, .printed hs,
        ⟨h.table, h.files, h.stdio, rfl, h.errno⟩, rfl⟩
    | stdio =>
      rcases ha : D.serve s.world d .stdio s.stdio.data (.file r) with ⟨answer, data, w⟩
      have hreq := request_stdio (D := D) (h.stdio ▸ hd) ha
      rw [h.world, h.stdio] at ha
      refine ⟨answer.map r.value, { s with stdio := { s.stdio with data := data }, world := w },
        { p with stdio := { p.stdio with data := data }, world := w }, ?_, .stdio hs hd ha,
        ⟨h.table, h.files, ?_, rfl, h.errno⟩, rfl⟩
      · simp only
        rw [hreq]
        rfl
      · rw [h.stdio]

/-- **Every call has an answer, and it is one that the abstract table allows.** -/
theorem Shows.perform (D : Devices W) (user : Bool) (h : s.Shows capacity p)
    (hd : p.stdio.device = some d) (c : ServiceCall) :
    ∃ v s' p', s.perform D user c = some (v, s') ∧ Descriptors.Step D user capacity p c v p' ∧
      s'.Shows capacity p' ∧ p'.stdio.device = some d := by
  have hdoes : Does D user capacity p c (s.call D user c) := by
    cases c with
    | «open» path => exact does_open h path
    | socket domain type protocol => exact does_socket h domain type protocol
    | close fd => exact does_close h fd
    | file fd r => exact does_descriptor h hd fd r
  obtain ⟨v, s', p', hcall, hstep, hshows, hstdio⟩ := hdoes
  refine ⟨wrapPosix v, s'.setErrno v, p'.gives v, by rw [Services.perform, hcall]; rfl, hstep,
    hshows.gives v, ?_⟩
  cases v <;> exact hstdio.trans hd

end Services

/-! ## Sessions -/

namespace Session

variable {W : Type} {D : Devices W} {user : Bool} {address capacity : ℕ} {stdio : FileObject}
  {w : W}
  {s : Session W} {d : DeviceId}

/-- Devices that count their requests and answer each of them with their number. -/
def counting : Devices ℕ where
  find _ path := .ok (7, path)
  defaultSocket := none
  isSocket _ := false
  serve w _ _ data _ := (.ok w, data, w + 1)
  print w _ := w

end Session

end Chino
