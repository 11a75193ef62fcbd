import Chino.Components.Parser

/-!
# What an expression means

Trees of expressions, their values, and the tokens that stand for them.  An operator applies to the
values of its operands, which are evaluated from left to right; reading a variable that is not there
creates it.  In the tokens, an operand that binds less than its place asks for is in parentheses:
comparisons bind most, and to the right; then come products and `AND`; then sums, `OR` and a sign in
front.

## What a tree may be

`WellFormed` says which trees the parser can be asked about.

* A call is of a registered function of the right kind, and its arguments fit the parameters.  They
  may be fewer; what the function gets for those that are missing is `completed`.
* An element has at most five indices.
* A comparison of strings has a literal, a variable or an element on its left (`Leads`), by which
  the parser knows that strings are compared, and a `string_term` on its right (`IsTerm`).

Names are those that the tokenizer can return (`VariableName`).  Evaluation may still fail: an array
name of seven characters leaves no room for its parenthesis, and a variable may hold no text.

The arithmetic of `float` is a parameter, with no laws.
-/

set_option autoImplicit false

namespace Chino

/-- The operators between terms, and those between factors. -/
inductive SumOp where
  | plus
  | minus
  | or
deriving DecidableEq

/-- The operators that bind closer. -/
inductive ProductOp where
  | multiply
  | divide
  | and
deriving DecidableEq

/-! ## Trees -/

mutual

/-- Expressions with a number as their value. -/
inductive NumberExpr (F : Type) where
  | literal (x : F)
  | variable (name : VariableName)
  | element (name : VariableName) (indices : IndexList F)
  | call (f : ℕ) (args : ArgumentList F)
  | sign (minus : Bool) (e : NumberExpr F)
  | sum (op : SumOp) (l r : NumberExpr F)
  | product (op : ProductOp) (l r : NumberExpr F)
  | relation (op : Relop) (l r : NumberExpr F)
  | comparison (op : Relop) (l r : StringExpr F)

/-- Expressions with a text as their value. -/
inductive StringExpr (F : Type) where
  | literal (text : Text)
  | variable (name : VariableName)
  | element (name : VariableName) (indices : IndexList F)
  | call (f : ℕ) (args : ArgumentList F)
  | concat (l r : StringExpr F)

/-- The indices of an array element. -/
inductive IndexList (F : Type) where
  | nil
  | cons (e : NumberExpr F) (indices : IndexList F)

/-- The arguments of a call. -/
inductive ArgumentList (F : Type) where
  | nil
  | cons (a : Argument F) (args : ArgumentList F)

/-- One of them, of either kind. -/
inductive Argument (F : Type) where
  | number (e : NumberExpr F)
  | string (e : StringExpr F)

end

namespace NumberExpr

variable {F : Type}

/-- How much an expression binds. -/
def rank : NumberExpr F → ℕ
  | .literal _ => 3
  | .variable _ => 3
  | .element .. => 3
  | .call .. => 3
  | .relation .. => 2
  | .comparison .. => 2
  | .product .. => 1
  | .sum .. => 0
  | .sign .. => 0

end NumberExpr

/-! ## Tokens -/

/-- How the operator is written. -/
def SumOp.symbol : SumOp → Symbol
  | .plus => .plus
  | .minus => .minus
  | .or => .opOr

/-- How the operator is written. -/
def ProductOp.symbol : ProductOp → Symbol
  | .multiply => .multiply
  | .divide => .divide
  | .and => .opAnd

/-- How the relation is written, in one lexeme or two. -/
def Relop.symbols : Relop → List Symbol
  | .lt => [.less]
  | .le => [.less, .equals]
  | .eq => [.equals]
  | .ge => [.greater, .equals]
  | .gt => [.greater]
  | .ne => [.less, .greater]

section Tokens

variable {F : Type}

/-- Parentheses, where they are needed. -/
def Parser.group (needed : Bool) (lexemes : List (Lexeme F)) : List (Lexeme F) :=
  if needed then .symbol .leftBanana :: (lexemes ++ [.symbol .rightBanana]) else lexemes

open Chino.Parser

mutual

/-- The tokens of an expression. -/
def NumberExpr.lexemes : NumberExpr F → List (Lexeme F)
  | .literal x => [.number x]
  | .variable name => [.variableNumber name]
  | .element name indices =>
    .variableNumber name :: .symbol .leftBanana :: (indices.lexemes ++ [.symbol .rightBanana])
  | .call f args =>
    .symbol (.keyword f) :: .symbol .leftBanana :: (args.lexemes ++ [.symbol .rightBanana])
  | .sign minus e => .symbol (if minus then .minus else .plus) :: group (e.rank < 1) e.lexemes
  | .sum op l r => l.lexemes ++ .symbol op.symbol :: group (r.rank < 1) r.lexemes
  | .product op l r =>
    group (l.rank < 1) l.lexemes ++ .symbol op.symbol :: group (r.rank < 2) r.lexemes
  | .relation op l r =>
    group (l.rank < 3) l.lexemes ++ (op.symbols.map .symbol ++ group (r.rank < 2) r.lexemes)
  | .comparison op l r => l.lexemes ++ (op.symbols.map .symbol ++ r.lexemes)

/-- The lexemes of a string expression, which has no parentheses of its own. -/
def StringExpr.lexemes : StringExpr F → List (Lexeme F)
  | .literal text => [.string text]
  | .variable name => [.variableString name]
  | .element name indices =>
    .variableString name :: .symbol .leftBanana :: (indices.lexemes ++ [.symbol .rightBanana])
  | .call f args =>
    .symbol (.keyword f) :: .symbol .leftBanana :: (args.lexemes ++ [.symbol .rightBanana])
  | .concat l r => l.lexemes ++ .symbol .plus :: r.lexemes

/-- The indices with commas between them. -/
def IndexList.lexemes : IndexList F → List (Lexeme F)
  | .nil => []
  | .cons e .nil => e.lexemes
  | .cons e indices => e.lexemes ++ .symbol .comma :: indices.lexemes

/-- The arguments with commas between them. -/
def ArgumentList.lexemes : ArgumentList F → List (Lexeme F)
  | .nil => []
  | .cons a .nil => a.lexemes
  | .cons a args => a.lexemes ++ .symbol .comma :: args.lexemes

/-- The lexemes of an argument are those of its expression. -/
def Argument.lexemes : Argument F → List (Lexeme F)
  | .number e => e.lexemes
  | .string e => e.lexemes

end

end Tokens

/-! ## Values -/

section Values

variable {F W : Type} [Arithmetic F]

open Arithmetic Chino.Parser

/-- What the operator computes. -/
def SumOp.apply : SumOp → F → F → F
  | .plus => (· + ·)
  | .minus => (· - ·)
  | .or => bitOr

/-- What the operator computes. -/
def ProductOp.apply : ProductOp → F → F → F
  | .multiply => (· * ·)
  | .divide => (· / ·)
  | .and => bitAnd

/-- What a function gets: `leftOut` of the last argument, if there are fewer of them than it has. -/
def Parser.completed : List Kind → List (BasicType F) → List (BasicType F)
  | _ :: k :: kinds, [v] => leftOut v (k :: kinds)
  | _ :: kinds, v :: vs => v :: completed kinds vs
  | _, vs => vs

variable (functions : List (BasicFunction F W))

/-- The value of a call. -/
def Parser.applied (f : ℕ) (type : FunctionType) (vs : List (BasicType F)) (env : Environment F W) :
    Except ParserFault (Value F × Environment F W) :=
  match findFunction functions (.symbol (.keyword f)) type with
  | none => .error .unspecified
  | some bf =>
    let (rv, world) := bf.function (completed bf.kinds vs) env.world
    .ok (rv, { env with world })

mutual

/-- The value of an expression, from left to right, with the variables as they are left. -/
def NumberExpr.value : NumberExpr F → Environment F W → Except ParserFault (F × Environment F W)
  | .literal x, env => .ok (x, env)
  | .variable name, env => env.getNumeric name.text
  | .element name indices, env => do
    let arrayName ← name.arrayName
    let (vector, env) ← indices.values env
    env.arrayGetNumeric arrayName (filled vector)
  | .call f args, env => do
    let (vs, env) ← args.values env
    match ← applied functions f .numeric vs env with
    | (.number x, env) => .ok (x, env)
    | (.string _, _) => .error .unspecified
  | .sign minus e, env => do
    let (x, env) ← e.value env
    .ok (if minus then ofInt (-1) * x else x, env)
  | .sum op l r, env => do
    let (x, env) ← l.value env
    let (y, env) ← r.value env
    .ok (op.apply x y, env)
  | .product op l r, env => do
    let (x, env) ← l.value env
    let (y, env) ← r.value env
    .ok (op.apply x y, env)
  | .relation op l r, env => do
    let (x, env) ← l.value env
    let (y, env) ← r.value env
    .ok (ofBool (numericCondition x y op), env)
  | .comparison op l r, env => do
    let (x, env) ← l.value env
    let (y, env) ← r.value env
    .ok (ofBool (stringCondition x y op), env)

/-- The text of an expression.  A variable that holds no text is a null pointer. -/
def StringExpr.value : StringExpr F → Environment F W → Except ParserFault (Text × Environment F W)
  | .literal text, env => .ok (text, env)
  | .variable name, env => do
    match ← env.getString name.text with
    | (none, _) => .error .nullString
    | (some text, env) => .ok (text, env)
  | .element name indices, env => do
    let arrayName ← name.arrayName
    let (vector, env) ← indices.values env
    match ← env.arrayGetString arrayName (filled vector) with
    | (none, _) => .error .nullString
    | (some text, env) => .ok (text, env)
  | .call f args, env => do
    let (vs, env) ← args.values env
    match ← applied functions f .string vs env with
    | (.string (some text), env) => .ok (text, env)
    | (.string none, _) => .error .nullString
    | (.number _, _) => .error .unspecified
  | .concat l r, env => do
    let (x, env) ← l.value env
    let (y, env) ← r.value env
    .ok (x ++ y, env)

/-- The indices, each converted to `size_t`. -/
def IndexList.values : IndexList F → Environment F W →
    Except ParserFault (List UInt64 × Environment F W)
  | .nil, env => .ok ([], env)
  | .cons e indices, env => do
    let (x, env) ← e.value env
    let (xs, env) ← indices.values env
    .ok (toSize x :: xs, env)

/-- The arguments as the function gets them. -/
def ArgumentList.values : ArgumentList F → Environment F W →
    Except ParserFault (List (BasicType F) × Environment F W)
  | .nil, env => .ok ([], env)
  | .cons a args, env => do
    let (v, env) ← a.value env
    let (vs, env) ← args.values env
    .ok (v :: vs, env)

/-- An argument as the function gets it. -/
def Argument.value : Argument F → Environment F W →
    Except ParserFault (BasicType F × Environment F W)
  | .number e, env => do
    let (x, env) ← e.value env
    .ok (⟨.numeric, false, some (.number x)⟩, env)
  | .string e, env => do
    let (text, env) ← e.value env
    .ok (⟨.string, false, some (.string (some text))⟩, env)

end

/-! ## Which trees there are -/

/-- The kind of the parameter that the argument is for. -/
def Argument.kind : Argument F → Kind
  | .number _ => .numeric
  | .string _ => .string

/-- The arguments are of the kinds of the first parameters. -/
def ArgumentList.Fit : ArgumentList F → List Kind → Prop
  | .nil, kinds => kinds = []
  | .cons a .nil, kinds => kinds.head? = some a.kind
  | .cons a args, kinds => kinds.head? = some a.kind ∧ args.Fit kinds.tail

/-- The number of indices. -/
def IndexList.length : IndexList F → ℕ
  | .nil => 0
  | .cons _ indices => indices.length + 1

/-- A `string_term` -/
def StringExpr.IsTerm : StringExpr F → Prop
  | .concat .. => False
  | _ => True

/-- A `string_term` by which `factor` knows that a comparison of strings follows. -/
def StringExpr.Leads : StringExpr F → Prop
  | .concat .. => False
  | .call .. => False
  | _ => True

/-- There is such a function, and the arguments fit its parameters. -/
def Parser.Callable (f : ℕ) (type : FunctionType) (args : ArgumentList F) : Prop :=
  ∃ bf, findFunction functions (.symbol (.keyword f)) type = some bf ∧ args.Fit bf.kinds

mutual

/-- The calls in it fit, no element has more than five indices, and the sides of a comparison of
strings are of the kinds that are read there. -/
def NumberExpr.WellFormed : NumberExpr F → Prop
  | .literal _ => True
  | .variable _ => True
  | .element _ indices => indices.length ≤ 5 ∧ indices.WellFormed
  | .call f args => Callable functions f .numeric args ∧ args.WellFormed
  | .sign _ e => e.WellFormed
  | .sum _ l r => l.WellFormed ∧ r.WellFormed
  | .product _ l r => l.WellFormed ∧ r.WellFormed
  | .relation _ l r => l.WellFormed ∧ r.WellFormed
  | .comparison _ l r => l.Leads ∧ r.IsTerm ∧ l.WellFormed ∧ r.WellFormed

/-- The calls in it fit, and no element has more than five indices. -/
def StringExpr.WellFormed : StringExpr F → Prop
  | .literal _ => True
  | .variable _ => True
  | .element _ indices => indices.length ≤ 5 ∧ indices.WellFormed
  | .call f args => Callable functions f .string args ∧ args.WellFormed
  | .concat l r => l.WellFormed ∧ r.WellFormed

/-- All of the indices are well formed. -/
def IndexList.WellFormed : IndexList F → Prop
  | .nil => True
  | .cons e indices => e.WellFormed ∧ indices.WellFormed

/-- All of the arguments are well formed. -/
def ArgumentList.WellFormed : ArgumentList F → Prop
  | .nil => True
  | .cons a args => a.WellFormed ∧ args.WellFormed

/-- The expression of the argument is well formed. -/
def Argument.WellFormed : Argument F → Prop
  | .number e => e.WellFormed
  | .string e => e.WellFormed

end

end Values

end Chino
