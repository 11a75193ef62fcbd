import Chino.Library.HashTable
import Chino.Ob.Path

/-!
# The variables of the BASIC interpreter

`components/basic/src/variables.c` and `dictionary.c`.  All variables are in one dictionary under
their names: a hash table of chains with a `variable` for each name.  The union `variable_value` is
what was stored in it last, and whoever reads it as the other one gets a `ParserFault`, as does
whoever reads it before anything was stored.  That this does not happen is a matter of the names:
the tokenizer takes a name for a string if it ends with a `$`, and the parser puts a `(` behind the
name of an array.

An array of up to five dimensions is one block of memory.  `DIM` adds one to every bound, so that
the elements are those with indices from zero up to the bound.  What `realloc` leaves in the memory,
and what is behind it, is whatever `array` says.

There is always enough memory for a variable, a name or a text.  The type of a variable and
`is_array` are left out: only the functions that print or free all variables read them.

## The dictionary

`hash` is the function of the source, in `unsigned int`, and `Chino.Library.HashTable` the table:
`dictionary_get` walks the chain of the hash, `dictionary_put` writes into the entry that it finds
or puts one in front.  `get_put` is all that the other modules use: at any name, of any length, the
dictionary holds what was put there last.  Nothing is ever taken out.

The functions of `variables.c` get a `variable` by its name and write it back.  A C function that
changes the variable in place is here a `put` of the changed one.
-/

set_option autoImplicit false

namespace Chino

/-- Where C does not say what happens, and where the fuel of the parser ends. -/
inductive ParserFault where
  /-- The fuel was not enough. -/
  | fuel
  /-- A string function got a null pointer. -/
  | nullString
  /-- A write behind `vector`. -/
  | vector
  /-- A write behind `var_name`. -/
  | name
  /-- A value that nobody has stored, or that was stored as the other kind. -/
  | unspecified
deriving DecidableEq

/-! ## The dictionary -/

namespace Dictionary

/-- `HASHSIZE`: nobody defines `ARCH` or `ARCH_XMEGA`, so the preprocessor takes both for zero. -/
abbrev hashSize : ℕ := 101

/-- `hash`, in `unsigned int`; the characters of a name are the same as signed ones. -/
def hash (name : Text) : Fin hashSize :=
  let hashval := name.foldl (fun hashval (c : Byte) ↦ c.val.toUInt32 + 31 * hashval) 0
  Fin.ofNat hashSize hashval.toNat

end Dictionary

/-- `dictionary` -/
abbrev Dictionary (V : Type) := HashTable Dictionary.hashSize Text V

namespace Dictionary

variable {V : Type}

/-- `dictionary_get` -/
def get (d : Dictionary V) (name : Text) : Option V := HashTable.get hash d name

/-- `dictionary_put` -/
def put (d : Dictionary V) (name : Text) (value : V) : Dictionary V :=
  HashTable.put hash d name value

theorem get_empty (name : Text) : get (HashTable.empty : Dictionary V) name = none := rfl

/-- **The dictionary is a map** from names to variables. -/
theorem get_put (d : Dictionary V) (name : Text) (value : V) :
    get (put d name value) = Function.update (get d) name (some value) :=
  HashTable.get_put hash d name value

@[simp] theorem get_put_self (d : Dictionary V) (name : Text) (value : V) :
    get (put d name value) name = some value := HashTable.get_put_self hash d name value

theorem get_put_of_ne (d : Dictionary V) {name other : Text} (h : other ≠ name) (value : V) :
    get (put d name value) other = get d other := HashTable.get_put_of_ne hash d h value

end Dictionary

/-- `variable_value`, as what was stored last; a string is a pointer. -/
inductive VariableValue (F : Type) where
  | num (x : F)
  | string (text : Option Text)
deriving DecidableEq

/-- `size_t dimensions[5]` up to `nr_dimensions`, and the memory at `array->ptr`. -/
structure ArrayVariable (α : Type) where
  dimensions : List UInt64
  array : UInt64 → α

/-! ## The elements of an array -/

namespace ArrayVariable

variable {α : Type}

/-- `calc_size` -/
def calcSize (dimensions : List UInt64) : UInt64 := dimensions.foldl (· * ·) 1

/-- `check_in_bounds` -/
def checkInBounds : List UInt64 → List UInt64 → Bool
  | d :: dimensions, v :: vector => if v > d then false else checkInBounds dimensions vector
  | _, _ => true

/-- The loop of `calc_index`. -/
def calcIndexFrom (index : UInt64) : List UInt64 → List UInt64 → UInt64
  | _ :: dimensions, v :: vector =>
    calcIndexFrom (index + dimensions.foldl (· * ·) v) dimensions vector
  | _, _ => index

/-- `calc_index` -/
def calcIndex (dimensions vector : List UInt64) : UInt64 := calcIndexFrom 0 dimensions vector

/-- The loop of `calc_vector`. -/
def calcVectorFrom (product index : UInt64) : List UInt64 → List UInt64
  | _ :: d :: dimensions =>
    index / product :: calcVectorFrom (product / d) (index % product) (d :: dimensions)
  | [_] => [index / product]
  | [] => []

/-- `calc_vector` -/
def calcVector (dimensions : List UInt64) (index : UInt64) : List UInt64 :=
  calcVectorFrom (calcSize dimensions.tail) index dimensions

/-- `variable_array_init`: `memory` is what `realloc` returns for `calc_size` elements. -/
def init (memory : UInt64 → α) (vector : List UInt64) : ArrayVariable α :=
  ⟨vector.map (· + 1), memory⟩

/-- `array_get` -/
def get (var : ArrayVariable α) (vector : List UInt64) : α :=
  var.array (calcIndex var.dimensions vector)

/-- `array_set` -/
def set (var : ArrayVariable α) (vector : List UInt64) (value : α) : ArrayVariable α :=
  { var with array := Function.update var.array (calcIndex var.dimensions vector) value }

end ArrayVariable

/-! ## Variables -/

/-- `variable`: the value, if one has been stored, and the array, if there is one. -/
structure Variable (F : Type) where
  value : Option (VariableValue F)
  array : Option (ArrayVariable (VariableValue F))

/-- `_dictionary`, `last_error`, and what else functions of the interpreter use and change. -/
structure Environment (F W : Type) where
  dictionary : Dictionary (Variable F)
  lastError : Option String
  world : W

namespace Environment

variable {F W : Type}

/-- `variables_init` -/
def init (world : W) : Environment F W := ⟨HashTable.empty, none, world⟩

/-- `error`, which leaves its message. -/
def error (s : Environment F W) (message : String) : Environment F W :=
  { s with lastError := some message }

/-- The variable of this name. -/
def get (s : Environment F W) (name : Text) : Option (Variable F) :=
  Dictionary.get s.dictionary name

/-- `dictionary_put`, on the dictionary of the interpreter. -/
def put (s : Environment F W) (name : Text) (var : Variable F) : Environment F W :=
  { s with dictionary := Dictionary.put s.dictionary name var }

@[simp] theorem get_put_self (s : Environment F W) (name : Text) (var : Variable F) :
    (s.put name var).get name = some var := Dictionary.get_put_self ..

theorem get_put_of_ne (s : Environment F W) {name other : Text} (h : other ≠ name)
    (var : Variable F) : (s.put name var).get other = s.get other := Dictionary.get_put_of_ne _ h _

@[simp] theorem get_error (s : Environment F W) (message : String) (name : Text) :
    (s.error message).get name = s.get name := rfl

/-- `variable_set_numeric` -/
def setNumeric (s : Environment F W) (name : Text) (value : F) : Environment F W :=
  let var := (s.get name).getD ⟨none, none⟩
  s.put name { var with value := some (.num value) }

/-- `variable_set_string`; the string that was there is freed. -/
def setString (s : Environment F W) (name : Text) (value : Text) :
    Except ParserFault (Environment F W) :=
  match s.get name with
  | none => .ok (s.put name ⟨some (.string (some value)), none⟩)
  | some var => match var.value with
    | some (.string _) => .ok (s.put name { var with value := some (.string (some value)) })
    | _ => .error .unspecified

/-- `variable_get_numeric`: there is a variable afterwards. -/
def getNumeric [Zero F] (s : Environment F W) (name : Text) :
    Except ParserFault (F × Environment F W) :=
  match s.get name with
  | none => .ok (0, s.setNumeric name 0)
  | some var => match var.value with
    | some (.num x) => .ok (x, s)
    | _ => .error .unspecified

/-- `variable_get_string` -/
def getString (s : Environment F W) (name : Text) :
    Except ParserFault (Option Text × Environment F W) :=
  match s.get name with
  | none => do
    let s ← s.setString name []
    .ok (some [], s)
  | some var => match var.value with
    | some (.string text) => .ok (text, s)
    | _ => .error .unspecified

/-- What the functions for the elements of arrays do first: the variable and its array, or the
message of the error. -/
def element (s : Environment F W) (name : Text) (vector : List UInt64) :
    Except ParserFault (Except String (Variable F × ArrayVariable (VariableValue F))) :=
  match s.get name with
  | none => .ok (.error "VAR NOT FOUND")
  | some var => match var.array with
    | none => .error .unspecified
    | some array =>
      if ArrayVariable.checkInBounds array.dimensions vector then .ok (.ok (var, array))
      else .ok (.error "INDEX OUT OF BOUNDS")

/-- `variable_array_get_numeric` -/
def arrayGetNumeric [Zero F] (s : Environment F W) (name : Text) (vector : List UInt64) :
    Except ParserFault (F × Environment F W) := do
  match ← s.element name vector with
  | .error message => .ok (0, s.error message)
  | .ok (_, array) => match array.get vector with
    | .num x => .ok (x, s)
    | .string _ => .error .unspecified

/-- `variable_array_get_string` -/
def arrayGetString (s : Environment F W) (name : Text) (vector : List UInt64) :
    Except ParserFault (Option Text × Environment F W) := do
  match ← s.element name vector with
  | .error message => .ok (none, s.error message)
  | .ok (_, array) => match array.get vector with
    | .string text => .ok (text, s)
    | .num _ => .error .unspecified

/-- `variable_array_set_numeric` and `variable_array_set_string`: the array is changed in place. -/
def arraySet (s : Environment F W) (name : Text) (value : VariableValue F) (vector : List UInt64) :
    Except ParserFault (Environment F W) := do
  match ← s.element name vector with
  | .error message => .ok (s.error message)
  | .ok (var, array) => .ok (s.put name { var with array := some (array.set vector value) })

/-- `variable_array_set_numeric` -/
def arraySetNumeric (s : Environment F W) (name : Text) (value : F) (vector : List UInt64) :
    Except ParserFault (Environment F W) := s.arraySet name (.num value) vector

/-- `variable_array_set_string`, with a copy of the string. -/
def arraySetString (s : Environment F W) (name : Text) (value : Text) (vector : List UInt64) :
    Except ParserFault (Environment F W) := s.arraySet name (.string (some value)) vector

/-- `variable_array_init`, for both types: a new variable, whatever was there. -/
def arrayInit (s : Environment F W) (name : Text) (memory : UInt64 → VariableValue F)
    (vector : List UInt64) : Environment F W :=
  s.put name ⟨none, some (.init memory vector)⟩

end Environment

end Chino
