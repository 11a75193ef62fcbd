import Chino.Components.Arrays
import Mathlib.Data.Option.Basic

/-!
# The variables are what was assigned to them

Runs of assignments, `DIM`s and reads of the BASIC interpreter.  A `Store` is what they mean: a
value for every name, and for every array its bounds and what has been stored at each vector.
`variables_refine` says that the dictionary answers for the store, if every array fits into memory
and no assignment goes to a vector that passes the check without having been declared.

In the dictionary there is one `variable` for a name, whatever it is used for, and the functions do
not look at its type.  So a name has to be used for one kind of variable all the time, as the
interpreter does by the `$` and the `(` at the end of a name; which names are used for which kind
does not matter (`κ` below), nor does how long they are.  `Shows` is what the variable of a name is
if it is used for that kind, and one operation keeps it: it changes the entry of its own name, where
the kinds of operation and variable are the same, and `get_put_of_ne` is all there is to say about
the others.

## What is asked of a program

`Legal` is about one operation in the state before it.  An array that is declared fits into memory,
with its size computed in `size_t`.  An assignment to an element is to a declared vector, or to one
that the check refuses; the vectors between (`Chino.Components.Arrays`) write behind the memory or
to other elements, and nothing can be said then.  Reads need no condition.

The conclusion is about the environment after the run: numbers and texts by their names, with zero
and the empty text for those that were never assigned, declared elements that have been assigned
since the last `DIM`, and the two error messages of an array that is not there and of a vector that
is refused.  What an element holds that was never assigned is up to `realloc`, and not said.
-/

set_option autoImplicit false

namespace Chino

open Function (update)

open ArrayVariable

/-! ## Arrays as tables -/

/-- The bounds of an array, and what has been stored in it. -/
structure Table (β : Type) where
  bounds : List UInt64
  content : List UInt64 → Option β

namespace Table

variable {α β : Type}

/-- An array that was just declared. -/
def empty (bounds : List UInt64) : Table β := ⟨bounds, fun _ ↦ none⟩

/-- Only the coordinates that the array has count. -/
def key (t : Table β) (vector : List UInt64) : List UInt64 := vector.take t.bounds.length

/-- The value an element was given last. -/
def get (t : Table β) (vector : List UInt64) : Option β := t.content (t.key vector)

/-- An element is given a value. -/
def set (t : Table β) (vector : List UInt64) (x : β) : Table β :=
  { t with content := update t.content (t.key vector) (some x) }

/-- The array holds what is in the table, each value as `φ` represents it. -/
structure Shows (φ : β → α) (var : ArrayVariable α) (t : Table β) : Prop where
  dimensions : var.dimensions = dimensionsOf t.bounds
  fits : Fits t.bounds
  get : ∀ vector x, Declared t.bounds vector → t.get vector = some x → var.get vector = φ x

variable {φ : β → α} {var : ArrayVariable α} {t : Table β} {vector : List UInt64} {x : β}

theorem shows_empty {bounds : List UInt64} (hfits : Fits bounds) (memory : UInt64 → α) :
    Shows φ (.init memory bounds) (.empty bounds) :=
  ⟨rfl, hfits, fun _ _ _ h ↦ by cases h⟩

theorem get_set (t : Table β) (vector other : List UInt64) (x : β) :
    (t.set vector x).get other = if t.key other = t.key vector then some x else t.get other :=
  Function.update_apply ..

/-- Different elements are in different places. -/
theorem Shows.set (h : Shows φ var t) (hvector : Declared t.bounds vector) :
    Shows φ (var.set vector (φ x)) (t.set vector x) where
  dimensions := h.dimensions
  fits := h.fits
  get other y hother hy := by
    rw [get_set] at hy
    have hindex := calcIndex_eq_iff h.fits hother hvector
    rw [ArrayVariable.get_set, h.dimensions]
    by_cases hkey : t.key other = t.key vector
    · rw [if_pos hkey] at hy
      rw [if_pos (hindex.mpr hkey), Option.some_inj.mp hy]
    · rw [if_neg hkey] at hy
      rw [if_neg (mt hindex.mp hkey)]
      exact h.get other y hother hy

end Table

/-- The tables of one type. -/
abbrev Tables (β : Type) := Text → Option (Table β)

namespace Tables

variable {β : Type}

/-- An array is declared, in place of any one of its name. -/
def dim (tables : Tables β) (name : Text) (bounds : List UInt64) : Tables β :=
  update tables name (some (.empty bounds))

/-- An assignment to an element; what was not declared is not there. -/
def set (tables : Tables β) (name : Text) (vector : List UInt64) (x : β) : Tables β :=
  match tables name with
  | none => tables
  | some t => if Declared t.bounds vector then update tables name (some (t.set vector x)) else tables

/-- The vector does not pass the check without having been declared. -/
def Proper (tables : Tables β) (name : Text) (vector : List UInt64) : Prop :=
  ∀ t ∈ tables name, checkInBounds (dimensionsOf t.bounds) vector = true → Declared t.bounds vector

theorem set_of_ne (tables : Tables β) {name other : Text} (h : other ≠ name) (vector : List UInt64)
    (x : β) : tables.set name vector x other = tables other := by
  rcases ht : tables name with _ | t
  · rw [set, ht]
  · simp only [set, ht]
    split_ifs
    · exact Function.update_of_ne h _ _
    · rfl

end Tables

/-! ## Runs -/

/-- What a name can be used for. -/
inductive VariableKind where
  | number
  | string
  | numberArray
  | stringArray
deriving DecidableEq

/-- What a program does with variables. -/
inductive VariableOp (F : Type) where
  | setNumeric (name : Text) (value : F)
  | setString (name : Text) (value : Text)
  | getNumeric (name : Text)
  | getString (name : Text)
  | dimNumeric (name : Text) (bounds : List UInt64) (memory : UInt64 → VariableValue F)
  | dimString (name : Text) (bounds : List UInt64) (memory : UInt64 → VariableValue F)
  | arraySetNumeric (name : Text) (value : F) (vector : List UInt64)
  | arraySetString (name : Text) (value : Text) (vector : List UInt64)

/-- What the variables mean. -/
structure Store (F : Type) where
  numbers : Text → F
  strings : Text → Text
  numberTables : Tables F
  stringTables : Tables Text

section Runs

variable {F W : Type} [Zero F]

namespace VariableOp

omit [Zero F] in
/-- The name that an operation is about. -/
def name : VariableOp F → Text
  | .setNumeric name _ => name
  | .setString name _ => name
  | .getNumeric name => name
  | .getString name => name
  | .dimNumeric name _ _ => name
  | .dimString name _ _ => name
  | .arraySetNumeric name _ _ => name
  | .arraySetString name _ _ => name

omit [Zero F] in
/-- What the operation uses its name for. -/
def kind : VariableOp F → VariableKind
  | .setNumeric .. => .number
  | .setString .. => .string
  | .getNumeric _ => .number
  | .getString _ => .string
  | .dimNumeric .. => .numberArray
  | .dimString .. => .stringArray
  | .arraySetNumeric .. => .numberArray
  | .arraySetString .. => .stringArray

/-- What the operation does to the variables of the interpreter. -/
def apply (s : Environment F W) : VariableOp F → Except ParserFault (Environment F W)
  | .setNumeric name value => .ok (s.setNumeric name value)
  | .setString name value => s.setString name value
  | .getNumeric name => (s.getNumeric name).map Prod.snd
  | .getString name => (s.getString name).map Prod.snd
  | .dimNumeric name bounds memory => .ok (s.arrayInit name memory bounds)
  | .dimString name bounds memory => .ok (s.arrayInit name memory bounds)
  | .arraySetNumeric name value vector => s.arraySetNumeric name value vector
  | .arraySetString name value vector => s.arraySetString name value vector

end VariableOp

namespace Store

/-- Nothing has been assigned. -/
def empty : Store F := ⟨fun _ ↦ 0, fun _ ↦ [], fun _ ↦ none, fun _ ↦ none⟩

omit [Zero F] in
/-- What the operation does to the values by name. -/
def apply (t : Store F) : VariableOp F → Store F
  | .setNumeric name value => { t with numbers := update t.numbers name value }
  | .setString name value => { t with strings := update t.strings name value }
  | .getNumeric _ => t
  | .getString _ => t
  | .dimNumeric name bounds _ => { t with numberTables := t.numberTables.dim name bounds }
  | .dimString name bounds _ => { t with stringTables := t.stringTables.dim name bounds }
  | .arraySetNumeric name value vector =>
    { t with numberTables := t.numberTables.set name vector value }
  | .arraySetString name value vector =>
    { t with stringTables := t.stringTables.set name vector value }

/-- An array fits into memory, and an assignment is either declared or refused. -/
def Fitting (t : Store F) : VariableOp F → Prop
  | .dimNumeric _ bounds _ => Fits bounds
  | .dimString _ bounds _ => Fits bounds
  | .arraySetNumeric name _ vector => t.numberTables.Proper name vector
  | .arraySetString name _ vector => t.stringTables.Proper name vector
  | _ => True

/-- The operation fits, and uses its name for what it is for. -/
def Legal (κ : Text → VariableKind) (t : Store F) (op : VariableOp F) : Prop :=
  κ op.name = op.kind ∧ t.Fitting op

/-- Every operation of the run is legal in its turn. -/
def LegalRun (κ : Text → VariableKind) : Store F → List (VariableOp F) → Prop
  | _, [] => True
  | t, op :: ops => t.Legal κ op ∧ LegalRun κ (t.apply op) ops

/-! ## What the dictionary holds -/

/-- The variable of an array, if there is one. -/
def ShowsTable {β : Type} (φ : β → VariableValue F) (table : Option (Table β)) :
    Option (Variable F) → Prop
  | none => table = none
  | some var => ∃ array t, var.array = some array ∧ table = some t ∧ Table.Shows φ array t

/-- The variable of a name that is used for this kind, if there is one. -/
def Shows (t : Store F) (name : Text) : VariableKind → Option (Variable F) → Prop
  | .number, none => t.numbers name = 0
  | .number, some var => var.value = some (.num (t.numbers name))
  | .string, none => t.strings name = []
  | .string, some var => var.value = some (.string (some (t.strings name)))
  | .numberArray, var => ShowsTable .num (t.numberTables name) var
  | .stringArray, var => ShowsTable (.string ∘ some) (t.stringTables name) var

/-- The variables show the store. -/
def Shown (κ : Text → VariableKind) (s : Environment F W) (t : Store F) : Prop :=
  ∀ name, t.Shows name (κ name) (s.get name)

variable {κ : Text → VariableKind} {s : Environment F W} {t t' : Store F} {op : VariableOp F}
  {name : Text}

theorem shown_init (world : W) : Shown κ (.init world) (Store.empty : Store F) := by
  intro name
  rcases κ name <;> rfl

/-- The store at one name. -/
structure Agrees (t t' : Store F) (name : Text) : Prop where
  numbers : t'.numbers name = t.numbers name
  strings : t'.strings name = t.strings name
  numberTables : t'.numberTables name = t.numberTables name
  stringTables : t'.stringTables name = t.stringTables name

omit [Zero F] in
/-- An operation leaves other names alone. -/
theorem agrees_apply (t : Store F) (h : name ≠ op.name) : t.Agrees (t.apply op) name := by
  rcases op with ⟨_, _⟩ | ⟨_, _⟩ | _ | _ | ⟨_, _, _⟩ | ⟨_, _, _⟩ | ⟨_, _, _⟩ | ⟨_, _, _⟩
  · exact ⟨Function.update_of_ne h _ _, rfl, rfl, rfl⟩
  · exact ⟨rfl, Function.update_of_ne h _ _, rfl, rfl⟩
  · exact ⟨rfl, rfl, rfl, rfl⟩
  · exact ⟨rfl, rfl, rfl, rfl⟩
  · exact ⟨rfl, rfl, Function.update_of_ne h _ _, rfl⟩
  · exact ⟨rfl, rfl, rfl, Function.update_of_ne h _ _⟩
  · exact ⟨rfl, rfl, Tables.set_of_ne _ h _ _, rfl⟩
  · exact ⟨rfl, rfl, rfl, Tables.set_of_ne _ h _ _⟩

theorem Agrees.shows (h : t.Agrees t' name) {k : VariableKind} {var : Option (Variable F)}
    (hvar : t.Shows name k var) : t'.Shows name k var := by
  obtain ⟨hn, hs, hnt, hst⟩ := h
  rcases k <;> rcases var <;> simpa only [Shows, hn, hs, hnt, hst] using hvar

/-- An operation that writes its own variable. -/
theorem Shown.put (op : VariableOp F) (h : Shown κ s t) {var : Variable F}
    (hvar : (t.apply op).Shows op.name (κ op.name) (some var)) :
    Shown κ (s.put op.name var) (t.apply op) := by
  intro other
  by_cases hother : other = op.name
  · rw [hother, Environment.get_put_self]
    exact hvar
  · rw [Environment.get_put_of_ne s hother]
    exact (agrees_apply t hother).shows (h other)

/-! ## Numbers and strings -/

/-- A read creates a variable that has the value it had before. -/
theorem Shown.getNumeric (h : Shown κ s t) (hkind : κ name = .number) :
    ∃ s', s.getNumeric name = .ok (t.numbers name, s') ∧ Shown κ s' t := by
  have hname := h name
  rw [hkind] at hname
  rcases hs : s.get name with _ | var
  · rw [hs] at hname
    have hzero : t.numbers name = 0 := hname
    refine ⟨s.setNumeric name 0, ?_, h.put (.getNumeric name) ?_⟩
    · simp [Environment.getNumeric, hs, hzero]
    · rw [VariableOp.name, hkind]
      exact congrArg (some ∘ VariableValue.num) hzero.symm
  · rw [hs] at hname
    have hvalue : var.value = some (.num (t.numbers name)) := hname
    refine ⟨s, ?_, h⟩
    simp [Environment.getNumeric, hs, hvalue]

omit [Zero F] in
theorem setString_of_none (hs : s.get name = none) (value : Text) :
    s.setString name value = .ok (s.put name ⟨some (.string (some value)), none⟩) := by
  simp [Environment.setString, hs]

theorem Shown.setString (h : Shown κ s t) (hkind : κ name = .string) (value : Text) :
    ∃ var : Variable F, s.setString name value = .ok (s.put name var) ∧
      var.value = some (.string (some value)) := by
  have hname := h name
  rw [hkind] at hname
  rcases hs : s.get name with _ | var
  · exact ⟨_, setString_of_none hs value, rfl⟩
  · rw [hs] at hname
    have hvalue : var.value = some (.string (some (t.strings name))) := hname
    refine ⟨{ var with value := some (.string (some value)) }, ?_, rfl⟩
    simp [Environment.setString, hs, hvalue]

theorem Shown.getString (h : Shown κ s t) (hkind : κ name = .string) :
    ∃ s', s.getString name = .ok (some (t.strings name), s') ∧ Shown κ s' t := by
  have hname := h name
  rw [hkind] at hname
  rcases hs : s.get name with _ | var
  · rw [hs] at hname
    have hempty : t.strings name = [] := hname
    refine ⟨s.put name ⟨some (.string (some [])), none⟩, ?_, h.put (.getString name) ?_⟩
    · simp only [Environment.getString, hs, setString_of_none hs, hempty]
      rfl
    · rw [VariableOp.name, hkind]
      exact congrArg (some ∘ VariableValue.string ∘ some) hempty.symm
  · rw [hs] at hname
    have hvalue : var.value = some (.string (some (t.strings name))) := hname
    refine ⟨s, ?_, h⟩
    simp [Environment.getString, hs, hvalue]

/-! ## Elements -/

section Elements

variable {β : Type} {φ : β → VariableValue F} {tables : Tables β} {table : Table β}
  {vector : List UInt64}

omit [Zero F] in
theorem element_of_none (h : ShowsTable φ (tables name) (s.get name)) (ht : tables name = none)
    (vector : List UInt64) : s.element name vector = .ok (.error "VAR NOT FOUND") := by
  rcases hs : s.get name with _ | var
  · simp [Environment.element, hs]
  · rw [hs, ht] at h
    obtain ⟨_, _, -, ⟨⟩, -⟩ := h

omit [Zero F] in
theorem element_of_outside (h : ShowsTable φ (tables name) (s.get name))
    (ht : tables name = some table)
    (hcheck : checkInBounds (dimensionsOf table.bounds) vector = false) :
    s.element name vector = .ok (.error "INDEX OUT OF BOUNDS") := by
  rcases hs : s.get name with _ | var
  · rw [hs, ht] at h
    cases h
  · rw [hs, ht] at h
    obtain ⟨array, t, harray, ⟨⟩, hshows⟩ := h
    simp [Environment.element, hs, harray, hshows.dimensions, hcheck]

omit [Zero F] in
theorem element_of_declared (h : ShowsTable φ (tables name) (s.get name))
    (ht : tables name = some table) (hdeclared : Declared table.bounds vector) :
    ∃ var array, s.element name vector = .ok (.ok (var, array)) ∧ Table.Shows φ array table := by
  rcases hs : s.get name with _ | var
  · rw [hs, ht] at h
    cases h
  · rw [hs, ht] at h
    obtain ⟨array, t, harray, ⟨⟩, hshows⟩ := h
    have hcheck := checkInBounds_of_declared hshows.fits hdeclared
    refine ⟨var, array, ?_, hshows⟩
    simp [Environment.element, hs, harray, hshows.dimensions, hcheck]

omit [Zero F] in
/-- An assignment reaches the element or is refused, as the table says. -/
theorem arraySet_spec (h : ShowsTable φ (tables name) (s.get name))
    (hproper : tables.Proper name vector) (x : β) :
    (∃ var, s.arraySet name (φ x) vector = .ok (s.put name var) ∧
      ShowsTable φ (tables.set name vector x name) (some var)) ∨
    ∃ message, s.arraySet name (φ x) vector = .ok (s.error message) ∧
      tables.set name vector x = tables := by
  rcases ht : tables name with _ | table
  · refine Or.inr ⟨"VAR NOT FOUND", ?_, by simp only [Tables.set, ht]⟩
    simp only [Environment.arraySet, element_of_none h ht]
    rfl
  by_cases hdeclared : Declared table.bounds vector
  · obtain ⟨var, array, helement, hshows⟩ := element_of_declared h ht hdeclared
    refine Or.inl ⟨{ var with array := some (array.set vector (φ x)) }, ?_, ?_⟩
    · simp only [Environment.arraySet, helement]
      rfl
    · refine ⟨_, table.set vector x, rfl, ?_, hshows.set hdeclared⟩
      simp only [Tables.set, ht, if_pos hdeclared, Function.update_self]
  · have hcheck : checkInBounds (dimensionsOf table.bounds) vector = false :=
      Bool.eq_false_iff.mpr fun hpass ↦ hdeclared (hproper table ht hpass)
    refine Or.inr ⟨"INDEX OUT OF BOUNDS", ?_, by simp only [Tables.set, ht, if_neg hdeclared]⟩
    simp only [Environment.arraySet, element_of_outside h ht hcheck]
    rfl

end Elements

/-! ## Steps and runs -/

/-- What one operation keeps. -/
theorem Shown.apply (h : Shown κ s t) (hl : t.Legal κ op) :
    ∃ s', op.apply s = .ok s' ∧ Shown κ s' (t.apply op) := by
  obtain ⟨hkind, hfits⟩ := hl
  have hname := h op.name
  rw [hkind] at hname
  rcases op with ⟨name, value⟩ | ⟨name, value⟩ | name | name | ⟨name, bounds, memory⟩ |
    ⟨name, bounds, memory⟩ | ⟨name, value, vector⟩ | ⟨name, value, vector⟩
  · refine ⟨_, rfl, h.put (.setNumeric name value) ?_⟩
    rw [hkind]
    exact congrArg (some ∘ VariableValue.num) (Function.update_self name value t.numbers).symm
  · obtain ⟨var, hset, hvar⟩ := h.setString hkind value
    refine ⟨_, hset, h.put (.setString name value) ?_⟩
    rw [hkind]
    exact hvar.trans (congrArg (some ∘ VariableValue.string ∘ some)
      (Function.update_self name value t.strings).symm)
  · obtain ⟨s', hget, hs'⟩ := h.getNumeric hkind
    exact ⟨s', congrArg (Except.map Prod.snd) hget, hs'⟩
  · obtain ⟨s', hget, hs'⟩ := h.getString hkind
    exact ⟨s', congrArg (Except.map Prod.snd) hget, hs'⟩
  · refine ⟨_, rfl, h.put (.dimNumeric name bounds memory) ?_⟩
    rw [hkind]
    exact ⟨_, _, rfl, Function.update_self .., Table.shows_empty hfits memory⟩
  · refine ⟨_, rfl, h.put (.dimString name bounds memory) ?_⟩
    rw [hkind]
    exact ⟨_, _, rfl, Function.update_self .., Table.shows_empty hfits memory⟩
  · rcases arraySet_spec hname hfits value with ⟨var, hset, hvar⟩ | ⟨message, hset, htables⟩
    · refine ⟨_, hset, h.put (.arraySetNumeric name value vector) ?_⟩
      rw [hkind]
      exact hvar
    · refine ⟨_, hset, ?_⟩
      have hsame : t.numberTables.set name vector value = t.numberTables := htables
      rw [Store.apply, hsame]
      exact h
  · rcases arraySet_spec hname hfits value with ⟨var, hset, hvar⟩ | ⟨message, hset, htables⟩
    · refine ⟨_, hset, h.put (.arraySetString name value vector) ?_⟩
      rw [hkind]
      exact hvar
    · refine ⟨_, hset, ?_⟩
      have hsame : t.stringTables.set name vector value = t.stringTables := htables
      rw [Store.apply, hsame]
      exact h

theorem Shown.run {ops : List (VariableOp F)} (h : Shown κ s t) (hl : t.LegalRun κ ops) :
    ∃ s', ops.foldlM VariableOp.apply s = .ok s' ∧ Shown κ s' (ops.foldl Store.apply t) := by
  induction ops generalizing s t with
  | nil => exact ⟨s, rfl, h⟩
  | cons op ops ih =>
    obtain ⟨s₁, hstep, h₁⟩ := h.apply hl.1
    obtain ⟨s', hrun, hs'⟩ := ih h₁ hl.2
    refine ⟨s', ?_, hs'⟩
    rw [List.foldlM_cons, hstep]
    exact hrun

end Store

/-- **The variables are what was assigned to them.**  A run in which every name is used for one kind
of variable, all arrays fit and assignments are either declared or refused comes to its end.  A name
then has the value that it was given last; so has every declared element of an array that has been
given one since the last `DIM`, whatever has been assigned to other vectors and names; an array that
does not exist and a vector that does not pass the check are reported. -/
theorem variables_refine {κ : Text → VariableKind} {ops : List (VariableOp F)}
    (h : Store.empty.LegalRun κ ops) (world : W) :
    let t := ops.foldl Store.apply Store.empty
    ∃ s : Environment F W, ops.foldlM VariableOp.apply (.init world) = .ok s ∧
    (∀ name, κ name = .number → ∃ s', s.getNumeric name = .ok (t.numbers name, s')) ∧
    (∀ name, κ name = .string → ∃ s', s.getString name = .ok (some (t.strings name), s')) ∧
    (∀ name vector, κ name = .numberArray → match t.numberTables name with
      | none => s.arrayGetNumeric name vector = .ok (0, s.error "VAR NOT FOUND")
      | some table =>
        (Declared table.bounds vector → ∀ x, table.get vector = some x →
          s.arrayGetNumeric name vector = .ok (x, s)) ∧
        (checkInBounds (dimensionsOf table.bounds) vector = false →
          s.arrayGetNumeric name vector = .ok (0, s.error "INDEX OUT OF BOUNDS"))) ∧
    ∀ name vector, κ name = .stringArray → match t.stringTables name with
      | none => s.arrayGetString name vector = .ok (none, s.error "VAR NOT FOUND")
      | some table =>
        (Declared table.bounds vector → ∀ x, table.get vector = some x →
          s.arrayGetString name vector = .ok (some x, s)) ∧
        (checkInBounds (dimensionsOf table.bounds) vector = false →
          s.arrayGetString name vector = .ok (none, s.error "INDEX OUT OF BOUNDS")) := by
  intro t
  obtain ⟨s, hrun, hshown⟩ := (Store.shown_init (W := W) world).run h
  refine ⟨s, hrun, fun name hkind ↦ ?_, fun name hkind ↦ ?_, fun name vector hkind ↦ ?_,
    fun name vector hkind ↦ ?_⟩
  · obtain ⟨s', hget, -⟩ := hshown.getNumeric hkind
    exact ⟨s', hget⟩
  · obtain ⟨s', hget, -⟩ := hshown.getString hkind
    exact ⟨s', hget⟩
  · have hname := hshown name
    rw [hkind] at hname
    rcases ht : t.numberTables name with _ | table
    · simp only [Environment.arrayGetNumeric, Store.element_of_none hname ht]
      rfl
    · refine ⟨fun hdeclared x hx ↦ ?_, fun hcheck ↦ ?_⟩
      · obtain ⟨_, array, helement, hshows⟩ := Store.element_of_declared hname ht hdeclared
        simp [Environment.arrayGetNumeric, helement, hshows.get vector x hdeclared hx, bind,
          Except.bind]
      · simp only [Environment.arrayGetNumeric, Store.element_of_outside hname ht hcheck]
        rfl
  · have hname := hshown name
    rw [hkind] at hname
    rcases ht : t.stringTables name with _ | table
    · simp only [Environment.arrayGetString, Store.element_of_none hname ht]
      rfl
    · refine ⟨fun hdeclared x hx ↦ ?_, fun hcheck ↦ ?_⟩
      · obtain ⟨_, array, helement, hshows⟩ := Store.element_of_declared hname ht hdeclared
        simp [Environment.arrayGetString, helement, hshows.get vector x hdeclared hx, bind,
          Except.bind]
      · simp only [Environment.arrayGetString, Store.element_of_outside hname ht hcheck]
        rfl

/-- `DIM A(3)`, two assignments to it, and one to a number of a long name. -/
theorem variables_refine_two :
    let a : Text := [65, 40]
    let long : Text := List.replicate 20 65
    let ops : List (VariableOp ℤ) := [.dimNumeric a [3] fun _ ↦ .string none,
      .arraySetNumeric a 5 [1, 0, 0, 0, 0], .setNumeric long 9,
      .arraySetNumeric a 7 [2, 0, 0, 0, 0]]
    ∃ s : Environment ℤ Unit, ops.foldlM VariableOp.apply (.init ()) = .ok s ∧
      s.arrayGetNumeric a [1, 0, 0, 0, 0] = .ok (5, s) ∧
      ∃ s', s.getNumeric long = .ok (9, s') := by
  intro a long ops
  have hlegal : Store.empty.LegalRun
      (fun name ↦ if name = a then .numberArray else .number) ops := by
    refine ⟨⟨by decide, show Fits [3] by decide⟩, ⟨by decide, ?_⟩, ⟨by decide, trivial⟩,
      ⟨by decide, ?_⟩, trivial⟩
    · rintro t ⟨⟩ -
      decide
    · rintro t ⟨⟩ -
      decide
  obtain ⟨s, hrun, hnumbers, -, harrays, -⟩ := variables_refine hlegal ()
  exact ⟨s, hrun, (harrays a [1, 0, 0, 0, 0] (by decide)).1 (by decide) 5 (by decide),
    hnumbers long (by decide)⟩

end Runs

end Chino
