import Chino.Components.Variables
import Mathlib.Algebra.Group.Defs
import Mathlib.Data.Int.Notation
import Mathlib.Tactic.TypeStar

/-!
# The expressions of the BASIC interpreter

The part of `components/basic/src/parser.c` that evaluates an expression while it reads it, with one
token of lookahead and a function for each level of the grammar.

The tokens are what the tokenizer returns, each with its number, text or name.  `float` is a
parameter, and so are the functions that are registered for the names of `ABS` to `STR$`.

A call of one of these functions costs one unit of fuel.

## Rendering C

* **Errors.**  `error` stores a message, and the parser goes on; the last message is what the user
  sees.  These are results.  A `ParserFault` is something that C gives no meaning to: a null string
  that is used, a union read as what it does not hold, a sixth index, a name that has no room for
  its parenthesis.
* **The lookahead.**  `sym` is the token in front, and a parser that was asked for more tokens than
  there are gets `T_EOF` again.
* **Recursion.**  The functions of the grammar call each other in a circle, through parentheses,
  indices and arguments, so they have fuel.  Every call takes one unit; running out is a fault of
  its own, and `Chino.Components.Evaluation` shows that there is always enough.
* **Numbers.**  `float` and the conversions to and from it are a class, `Arithmetic`, with no laws.
-/

set_option autoImplicit false

namespace Chino

/-- What the interpreter does with `float`. -/
class Arithmetic (F : Type) extends Zero F, Add F, Sub F, Mul F, Div F where
  ofInt : ℤ → F
  /-- `(int)` -/
  toInt : F → BitVec 32
  /-- The conversion to `size_t`. -/
  toSize : F → UInt64
  lt : F → F → Bool
  le : F → F → Bool
  eq : F → F → Bool

/-! ## Tokens -/

/-- A name and its terminator fit into `tokenizer_variable_length` bytes. -/
structure VariableName where
  text : Text
  fits : text.length + 1 ≤ 8
deriving DecidableEq

/-- The name of an array: the parenthesis is written behind the name in `var_name`, which has no
more bytes. -/
def VariableName.arrayName (name : VariableName) : Except ParserFault Text :=
  if name.text.length + 2 ≤ 8 then .ok (name.text ++ [40]) else .error .name

/-- The tokens that are nothing else: those of `token_type`, of the operators, and the keywords. -/
inductive Symbol where
  | error
  | eof
  | plus
  | minus
  | multiply
  | divide
  | leftBanana
  | rightBanana
  | colon
  | semicolon
  | equals
  | less
  | greater
  | comma
  | opOr
  | opAnd
  | keyword (k : ℕ)
deriving DecidableEq

/-- What kind of lexeme it is, which is what `accept` and `expect` look at. -/
inductive Token where
  | number
  | string
  | variableString
  | variableNumber
  | symbol (t : Symbol)
deriving DecidableEq

/-- A token with `tokenizer_actual_number`, `tokenizer_actual_string` or
`tokenizer_actual_variable`. -/
inductive Lexeme (F : Type) where
  | number (x : F)
  | string (text : Text)
  | variableString (name : VariableName)
  | variableNumber (name : VariableName)
  | symbol (t : Symbol)
deriving DecidableEq

/-- The token of a lexeme, without what the tokenizer has stored beside it. -/
def Lexeme.token {F : Type} : Lexeme F → Token
  | .number _ => .number
  | .string _ => .string
  | .variableString _ => .variableString
  | .variableNumber _ => .variableNumber
  | .symbol t => .symbol t

/-- `relop` without `OP_NOP` -/
inductive Relop where
  | lt
  | le
  | eq
  | ge
  | gt
  | ne
deriving DecidableEq

/-! ## Functions -/

/-- `kind` -/
inductive Kind where
  | numeric
  | string
deriving DecidableEq

/-- `basic_function_type` -/
inductive FunctionType where
  | keyword
  | op
  | numeric
  | string
  | print
deriving DecidableEq

/-- `value`; a string is a pointer. -/
inductive Value (F : Type) where
  | number (x : F)
  | string (text : Option Text)
deriving DecidableEq

/-- `basic_type`; `value` is what was stored last, if anything. -/
structure BasicType (F : Type) where
  kind : Kind
  empty : Bool
  value : Option (Value F)
deriving DecidableEq

/-- `basic_function`; `kinds` are those of its arguments. -/
structure BasicFunction (F W : Type) where
  token : ℕ
  type : FunctionType
  kinds : List Kind
  function : List (BasicType F) → W → Value F × W

/-- `find_basic_function_by_type` -/
def findFunction {F W : Type} (functions : List (BasicFunction F W)) (sym : Token)
    (type : FunctionType) : Option (BasicFunction F W) :=
  functions.find? fun f ↦ f.type = type ∧ .symbol (.keyword f.token) = sym

/-! ## The lookahead -/

/-- The token `sym` and those that follow it, and the variables. -/
structure Parser (F W : Type) where
  lexemes : List (Lexeme F)
  env : Environment F W

namespace Parser

variable {F W : Type}

/-- `sym`, the lexeme in front of the parser. -/
def sym (s : Parser F W) : Lexeme F := s.lexemes.headD (.symbol .eof)

/-- `get_sym`; behind the last token there is always one more `T_EOF`. -/
def getSym (s : Parser F W) : Parser F W := { s with lexemes := s.lexemes.tail }

/-- `error`, which leaves its message and goes on. -/
def error (s : Parser F W) (message : String) : Parser F W := { s with env := s.env.error message }

/-- `accept`, where the result is not used. -/
def accept (s : Parser F W) (t : Token) : Parser F W := if t = s.sym.token then s.getSym else s

/-- `expect` -/
def expect (s : Parser F W) (t : Token) : Parser F W :=
  if t = s.sym.token then s.getSym else s.error "UNEXPECTED SYMBOL"

/-- `get_relop` -/
def getRelop (s : Parser F W) : Option Relop × Parser F W :=
  if s.sym.token = .symbol .less then
    let s := s.getSym
    if s.sym.token = .symbol .equals then (some .le, s.getSym)
    else if s.sym.token = .symbol .greater then (some .ne, s.getSym)
    else (some .lt, s)
  else if s.sym.token = .symbol .equals then (some .eq, s.getSym)
  else if s.sym.token = .symbol .greater then
    let s := s.getSym
    if s.sym.token = .symbol .equals then (some .ge, s.getSym) else (some .gt, s)
  else (none, s)

end Parser

/-! ## Operators -/

namespace Parser

variable {F : Type} [Arithmetic F]

open Arithmetic

/-- `(float)` of a `bool`. -/
def ofBool (b : Bool) : F := if b then ofInt 1 else ofInt 0

/-- `_or` -/
def bitOr (a b : F) : F := ofInt (toInt a ||| toInt b).toInt

/-- `_and` -/
def bitAnd (a b : F) : F := ofInt (toInt a &&& toInt b).toInt

/-- The comparison that `numeric_condition` ends with. -/
def numericCondition (left right : F) : Relop → Bool
  | .lt => lt left right
  | .le => le left right
  | .eq => eq left right
  | .ge => le right left
  | .gt => lt right left
  | .ne => !eq left right

/-- `strcmp`, of which only the sign matters. -/
def strcmp (left right : Text) : ℤ := if left < right then -1 else if left = right then 0 else 1

/-- The comparison that `string_condition` ends with. -/
def stringCondition (left right : Text) : Relop → Bool
  | .lt => strcmp left right < 0
  | .le => strcmp left right ≤ 0
  | .eq => strcmp left right = 0
  | .ge => strcmp left right ≥ 0
  | .gt => strcmp left right > 0
  | .ne => strcmp left right ≠ 0

/-- The operators between the factors of a term. -/
def termOperator : Token → Option (F → F → F)
  | .symbol .multiply => some (· * ·)
  | .symbol .divide => some (· / ·)
  | .symbol .opAnd => some bitAnd
  | _ => none

/-- The operators between the terms of an expression. -/
def expressionOperator : Token → Option (F → F → F)
  | .symbol .plus => some (· + ·)
  | .symbol .minus => some (· - ·)
  | .symbol .opOr => some bitOr
  | _ => none

end Parser

/-! ## The grammar -/

namespace Parser

variable {F W : Type} [Arithmetic F]

open Arithmetic

/-- The five entries of a `vector` of which `get_vector` has filled the first ones. -/
def filled (vector : List UInt64) : List UInt64 := vector ++ List.replicate (5 - vector.length) 0

/-- The parameters behind the last one given: the loop that was left early marks that one, too. -/
def leftOut (v : BasicType F) (kinds : List Kind) : List (BasicType F) :=
  { v with kind := .numeric, empty := true } :: kinds.map fun _ ↦ ⟨.numeric, true, none⟩

variable (functions : List (BasicFunction F W))

mutual

/-- `numeric_expression` -/
def numericExpression : ℕ → Parser F W → Except ParserFault (F × Parser F W)
  | 0, _ => .error .fuel
  | n + 1, s => do
    let minus : Bool := s.sym.token = .symbol .minus
    let (t1, s) ← term n (if s.sym.token = .symbol .plus ∨ minus then s.getSym else s)
    expressionLoop n (if minus then ofInt (-1) * t1 else t1) s

/-- The loop of `numeric_expression`. -/
def expressionLoop : ℕ → F → Parser F W → Except ParserFault (F × Parser F W)
  | 0, _, _ => .error .fuel
  | n + 1, t1, s => match expressionOperator s.sym.token with
    | none => .ok (t1, s)
    | some operator => do
      let (t2, s) ← term n s.getSym
      expressionLoop n (operator t1 t2) s

/-- `term` -/
def term : ℕ → Parser F W → Except ParserFault (F × Parser F W)
  | 0, _ => .error .fuel
  | n + 1, s => do
    let (f1, s) ← factor n s
    termLoop n f1 s

/-- The loop of `term`. -/
def termLoop : ℕ → F → Parser F W → Except ParserFault (F × Parser F W)
  | 0, _, _ => .error .fuel
  | n + 1, f1, s => match termOperator s.sym.token with
    | none => .ok (f1, s)
    | some operator => do
      let (f2, s) ← factor n s.getSym
      termLoop n (operator f1 f2) s

/-- `factor` -/
def factor : ℕ → Parser F W → Except ParserFault (F × Parser F W)
  | 0, _ => .error .fuel
  | n + 1, s =>
    if s.sym.token = .string ∨ s.sym.token = .variableString then do
      let (s1, s) ← stringTerm n s
      match s.getRelop with
      | (none, s) => .ok (0, s.error "EXPECTED RELOP")
      | (some op, s) => do
        let (s2, s) ← stringTerm n s
        match s1, s2 with
        | some s1, some s2 => .ok (ofBool (stringCondition s1 s2 op), s)
        | _, _ => .error .nullString
    else numericFactor n s

/-- `numeric_factor` -/
def numericFactor : ℕ → Parser F W → Except ParserFault (F × Parser F W)
  | 0, _ => .error .fuel
  | n + 1, s => do
    let (number, s) ← operand n s
    match s.getRelop with
    | (none, s) => .ok (number, s)
    | (some op, s) => do
      let (rightNumber, s) ← factor n s
      .ok (ofBool (numericCondition number rightNumber op), s)

/-- `numeric_factor` up to `get_relop` -/
def operand : ℕ → Parser F W → Except ParserFault (F × Parser F W)
  | 0, _ => .error .fuel
  | n + 1, s => match findFunction functions s.sym.token .numeric with
    | some bf => do
      match ← basicDispatchFunction n bf s with
      | (.number x, s) => .ok (x, s)
      -- `EXPECTED NUMERIC FACTOR`, and the pointer is taken for a number
      | (.string _, _) => .error .unspecified
    | none => match s.sym with
      | .number x => .ok (x, s.getSym)
      | .variableNumber name =>
        if s.getSym.sym.token = .symbol .leftBanana then do
          let arrayName ← name.arrayName
          let (vector, s) ← getVector n [] s.getSym.getSym
          let (number, env) ← s.env.arrayGetNumeric arrayName (filled vector)
          .ok (number, expect { s with env } (.symbol .rightBanana))
        else do
          let (number, env) ← s.env.getNumeric name.text
          .ok (number, accept { s.getSym with env } .variableNumber)
      | .symbol .leftBanana => do
        let (number, s) ← numericExpression n s.getSym
        .ok (number, s.expect (.symbol .rightBanana))
      | _ => .ok (0, (s.error "FACTOR SYNTAX ERROR").getSym)

/-- The loop of `get_vector` -/
def getVector : ℕ → List UInt64 → Parser F W → Except ParserFault (List UInt64 × Parser F W)
  | 0, _, _ => .error .fuel
  | n + 1, vector, s =>
    if s.sym.token = .symbol .rightBanana then .ok (vector, s)
    else do
      let (x, s) ← numericExpression n s
      -- `vector[dimensions] = n` comes before the check
      if vector.length = 5 then .error .vector
      else getVector n (vector ++ [toSize x]) (s.accept (.symbol .comma))

/-- `basic_dispatch_function` for the functions that are no keywords -/
def basicDispatchFunction : ℕ → BasicFunction F W → Parser F W →
    Except ParserFault (Value F × Parser F W)
  | 0, _, _ => .error .fuel
  | n + 1, bf, s => do
    let (v, s) ← arguments n bf.kinds (s.getSym.expect (.symbol .leftBanana))
    let s := s.expect (.symbol .rightBanana)
    let (rv, world) := bf.function v s.env.world
    .ok (rv, { s with env := { s.env with world } })

/-- The loop over the arguments -/
def arguments : ℕ → List Kind → Parser F W → Except ParserFault (List (BasicType F) × Parser F W)
  | 0, _, _ => .error .fuel
  | _ + 1, [], s => .ok ([], s)
  | n + 1, k :: kinds, s =>
    -- the parameters stay as they are, and are then freed if they look like strings
    if s.sym.token = .symbol .rightBanana then .error .unspecified
    else do
      let (v, s) ← getParameter n k s
      if kinds = [] then .ok ([v], s)
      else if s.sym.token = .symbol .comma then do
        let (vs, s) ← arguments n kinds s.getSym
        .ok (v :: vs, s)
      else .ok (leftOut v kinds, s)

/-- `get_parameter` -/
def getParameter : ℕ → Kind → Parser F W → Except ParserFault (BasicType F × Parser F W)
  | 0, _, _ => .error .fuel
  | n + 1, .string, s => do
    let (text, s) ← stringExpression n s
    .ok (⟨.string, false, some (.string text)⟩, s)
  | n + 1, .numeric, s => do
    let (x, s) ← numericExpression n s
    .ok (⟨.numeric, false, some (.number x)⟩, s)

/-- `string_term` -/
def stringTerm : ℕ → Parser F W → Except ParserFault (Option Text × Parser F W)
  | 0, _ => .error .fuel
  | n + 1, s => match s.sym with
    | .string text => .ok (some text, s.getSym)
    | .variableString name =>
      if s.getSym.sym.token = .symbol .leftBanana then do
        let arrayName ← name.arrayName
        let (vector, s) ← getVector n [] s.getSym.getSym
        match ← s.env.arrayGetString arrayName (filled vector) with
        | (none, _) => .error .nullString
        | (some text, env) => .ok (some text, expect { s with env } (.symbol .rightBanana))
      else do
        match ← s.env.getString name.text with
        | (none, _) => .error .nullString
        | (some text, env) => .ok (some text, accept { s.getSym with env } .variableString)
    | l => match findFunction functions l.token .string with
      | none => .ok (none, s)
      | some bf => do
        match ← basicDispatchFunction n bf s with
        | (.string (some text), s) => .ok (some text, s)
        | (.string none, _) => .error .nullString
        -- `EXPECTED STRING TERM`, and the number is taken for a pointer
        | (.number _, _) => .error .unspecified

/-- `string_expression` -/
def stringExpression : ℕ → Parser F W → Except ParserFault (Option Text × Parser F W)
  | 0, _ => .error .fuel
  | n + 1, s => do
    let (s1, s) ← stringTerm n s
    stringLoop n s1 s

/-- The loop of `string_expression`.  A null pointer ends it, as it is dereferenced. -/
def stringLoop : ℕ → Option Text → Parser F W → Except ParserFault (Option Text × Parser F W)
  | 0, _, _ => .error .fuel
  | n + 1, s1, s =>
    if s.sym.token = .symbol .plus then do
      let (s2, s) ← stringTerm n s.getSym
      match s1, s2 with
      | some s1, some s2 => stringLoop n (some (s1 ++ s2)) s
      | _, _ => .error .nullString
    else .ok (s1, s)

end

/-- `evaluate` -/
def evaluate (n : ℕ) (lexemes : List (Lexeme F)) (env : Environment F W) :
    Except ParserFault (F × Environment F W) := do
  let (result, s) ← numericExpression functions n ⟨lexemes, { env with lastError := none }⟩
  .ok (result, (s.expect (.symbol .eof)).env)

end Parser

end Chino
