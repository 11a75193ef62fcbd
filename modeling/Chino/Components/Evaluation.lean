import Chino.Components.Expressions
import Chino.Library.Fuel
import Mathlib.Data.List.Basic

/-!
# Reading an expression gives its value

The functions of the parser follow the grammar; a tree is turned into tokens with as few parentheses
as its operators allow.  `expression_read` says that the parser computes the value of the tree from
these tokens: that it binds and associates operators as the trees say, evaluates operands in their
order and stops where the tree ends.

For an expression or a term the loop over the operators is what comes next, and a tree on the left
of an operator is only a part of what that loop has read.  So what is said of a tree at these two
levels (`ReadsExpression`, `ReadsTerm`) is that reading it leads to wherever the loop leads from its
value.

## How the levels fit

The parser has four functions for numbers, from `numeric_expression` down to `numeric_factor`, and
two for strings, and each of them ends where the next token is not one of its own.  `Token.level`
says how much a token binds to an operand in front of it, so "where the tree ends" is a condition on
the next token for each level.

* `Reads…` are the specifications, one for each level: what the function does in front of such a
  token, in terms of what evaluating the tree does.  Errors that the parser stores and goes on from
  are in the environment, faults end both sides alike.
* The proof is a mutual induction over the trees, with one lemma for each constructor.  A tree that
  needs parentheses at its place is read by going up to `numeric_expression` again
  (`ReadsExpression.operand`).
* The amount of fuel does not matter, as long as it is enough: all statements are in terms of what
  the functions settle on (`Chino.Library.Fuel`).

`expression_read` is about well-formed trees (`NumberExpr.WellFormed`).  These are the trees whose
tokens the grammar can tell apart; in particular a comparison of strings is known by its first
token, so a call of a string function cannot stand there.
-/

set_option autoImplicit false

namespace Chino

/-! ## What can follow -/

/-- How much the token binds to an operand in front of it; names and parentheses bind to a name. -/
def Token.level : Token → ℕ
  | .variableNumber => 4
  | .variableString => 4
  | .symbol .leftBanana => 4
  | .symbol .equals => 3
  | .symbol .less => 3
  | .symbol .greater => 3
  | .symbol .multiply => 2
  | .symbol .divide => 2
  | .symbol .opAnd => 2
  | .symbol .plus => 1
  | .symbol .minus => 1
  | .symbol .opOr => 1
  | _ => 0

/-- The token can be the first one of a factor. -/
def Token.Starts : Token → Prop
  | .symbol .leftBanana => True
  | .symbol (.keyword _) => True
  | .symbol _ => False
  | _ => True

theorem Token.Starts.ne {t : Token} (h : t.Starts) {u : Symbol} (hu : ¬(Token.symbol u).Starts) :
    t ≠ .symbol u := fun htu ↦ hu (htu ▸ h)

namespace Parser

variable {F W : Type}

/-- The token in front of the parser, which is the end of the line where no lexeme is left. -/
def nextToken (ls : List (Lexeme F)) : Token := (ls.headD (.symbol .eof)).token

theorem sym_token (ls : List (Lexeme F)) (env : Environment F W) :
    (⟨ls, env⟩ : Parser F W).sym.token = nextToken ls := rfl

@[simp] theorem nextToken_cons (l : Lexeme F) (ls : List (Lexeme F)) :
    nextToken (l :: ls) = l.token := rfl

@[simp] theorem token_symbol (t : Symbol) : (Lexeme.symbol t : Lexeme F).token = .symbol t := rfl

@[simp] theorem getSym_cons (l : Lexeme F) (ls : List (Lexeme F)) (env : Environment F W) :
    (⟨l :: ls, env⟩ : Parser F W).getSym = ⟨ls, env⟩ := rfl

theorem accept_of_ne {ls : List (Lexeme F)} {env : Environment F W} {t : Token}
    (h : t ≠ nextToken ls) : (⟨ls, env⟩ : Parser F W).accept t = ⟨ls, env⟩ := if_neg h

theorem expect_cons {t : Symbol} {ls : List (Lexeme F)} {env : Environment F W} :
    (⟨.symbol t :: ls, env⟩ : Parser F W).expect (.symbol t) = ⟨ls, env⟩ := if_pos rfl

/-- No comparison follows. -/
theorem getRelop_none {ls : List (Lexeme F)} {env : Environment F W}
    (h : (nextToken ls).level ≤ 2) : (⟨ls, env⟩ : Parser F W).getRelop = (none, ⟨ls, env⟩) := by
  have hne : ∀ t, 2 < (Token.symbol t).level → nextToken ls ≠ .symbol t := fun t ht hl ↦ by
    rw [hl] at h
    omega
  rw [getRelop, sym_token, if_neg (hne _ (by decide)), if_neg (hne _ (by decide)),
    if_neg (hne _ (by decide))]

theorem getRelop_symbols {op : Relop} {ls : List (Lexeme F)} {env : Environment F W}
    (h : (nextToken ls).Starts) :
    (⟨op.symbols.map .symbol ++ ls, env⟩ : Parser F W).getRelop = (some op, ⟨ls, env⟩) := by
  have heq : nextToken ls ≠ .symbol .equals := h.ne (fun h ↦ h)
  have hgt : nextToken ls ≠ .symbol .greater := h.ne (fun h ↦ h)
  rcases op <;> simp [getRelop, Relop.symbols, sym_token, heq, hgt]

theorem level_symbols (op : Relop) (ls : List (Lexeme F)) :
    (nextToken (op.symbols.map .symbol ++ ls)).level ≤ 3 := by
  rcases op <;> exact Nat.le_refl 3

theorem ok_bind {ε α β : Type} (a : α) (f : α → Except ε β) : (Except.ok a >>= f) = f a := rfl

/-! ## Levels of the grammar -/

variable [Arithmetic F] (functions : List (BasicFunction F W))

/-- The tokens are an operand, `numeric_factor` up to `get_relop`, with this value. -/
def ReadsOperand (ls : List (Lexeme F))
    (v : Environment F W → Except ParserFault (F × Environment F W)) : Prop :=
  ∀ env rest, (nextToken rest).level ≤ 3 →
    Settles (fun n ↦ operand functions n ⟨ls ++ rest, env⟩)
      (v env >>= fun p ↦ .ok (p.1, ⟨rest, p.2⟩))

/-- `factor` reads the lexemes in front of anything that no operator of its level takes up, and does
what `v` says. -/
def ReadsFactor (ls : List (Lexeme F))
    (v : Environment F W → Except ParserFault (F × Environment F W)) : Prop :=
  ∀ env rest, (nextToken rest).level ≤ 2 →
    Settles (fun n ↦ factor functions n ⟨ls ++ rest, env⟩)
      (v env >>= fun p ↦ .ok (p.1, ⟨rest, p.2⟩))

/-- The tokens are the first factors of a term. -/
def ReadsTerm (ls : List (Lexeme F))
    (v : Environment F W → Except ParserFault (F × Environment F W)) : Prop :=
  ∀ env rest (k : F × Environment F W → Except ParserFault (F × Parser F W)),
    (nextToken rest).level ≤ 2 →
    (∀ p, Settles (fun n ↦ termLoop functions n p.1 ⟨rest, p.2⟩) (k p)) →
    Settles (fun n ↦ term functions n ⟨ls ++ rest, env⟩) (v env >>= k)

/-- The tokens are the first terms of an expression. -/
def ReadsExpression (ls : List (Lexeme F))
    (v : Environment F W → Except ParserFault (F × Environment F W)) : Prop :=
  ∀ env rest (k : F × Environment F W → Except ParserFault (F × Parser F W)),
    (nextToken rest).level ≤ 1 →
    (∀ p, Settles (fun n ↦ expressionLoop functions n p.1 ⟨rest, p.2⟩) (k p)) →
    Settles (fun n ↦ numericExpression functions n ⟨ls ++ rest, env⟩) (v env >>= k)

variable {functions} {ls rs rest : List (Lexeme F)} {env : Environment F W}
  {v w : Environment F W → Except ParserFault (F × Environment F W)}

theorem termOperator_eq_none {t : Token} (h : t.level ≤ 1) :
    (termOperator t : Option (F → F → F)) = none := by
  unfold termOperator
  split <;> first | rfl | simp [Token.level] at h

theorem expressionOperator_eq_none {t : Token} (h : t.level = 0) :
    (expressionOperator t : Option (F → F → F)) = none := by
  unfold expressionOperator
  split <;> first | rfl | simp [Token.level] at h

/-- A term ends where no further factor follows. -/
theorem termLoop_settles (h : (nextToken rest).level ≤ 1) (p : F × Environment F W) :
    Settles (fun n ↦ termLoop functions n p.1 ⟨rest, p.2⟩) (.ok (p.1, ⟨rest, p.2⟩)) := by
  refine .of_succ (fun n ↦ ?_) (.const _)
  rw [termLoop, sym_token, termOperator_eq_none h]

theorem expressionLoop_settles (h : (nextToken rest).level = 0) (p : F × Environment F W) :
    Settles (fun n ↦ expressionLoop functions n p.1 ⟨rest, p.2⟩) (.ok (p.1, ⟨rest, p.2⟩)) := by
  refine .of_succ (fun n ↦ ?_) (.const _)
  rw [expressionLoop, sym_token, expressionOperator_eq_none h]

/-- A whole term. -/
theorem ReadsTerm.whole (h : ReadsTerm functions ls v) (hrest : (nextToken rest).level ≤ 1) :
    Settles (fun n ↦ term functions n ⟨ls ++ rest, env⟩)
      (v env >>= fun p ↦ .ok (p.1, ⟨rest, p.2⟩)) :=
  h env rest _ (hrest.trans (by decide)) (termLoop_settles hrest)

/-- A whole expression. -/
theorem ReadsExpression.whole (h : ReadsExpression functions ls v)
    (hrest : (nextToken rest).level = 0) :
    Settles (fun n ↦ numericExpression functions n ⟨ls ++ rest, env⟩)
      (v env >>= fun p ↦ .ok (p.1, ⟨rest, p.2⟩)) :=
  h env rest _ (by omega) (expressionLoop_settles hrest)

/-! ## From one level to the next -/

section Steps

variable (n : ℕ) (s : Parser F W)

theorem numericExpression_succ : numericExpression functions (n + 1) s =
    term functions n (if s.sym.token = .symbol .plus ∨ s.sym.token = .symbol .minus
      then s.getSym else s) >>= fun p ↦ expressionLoop functions n
        (if s.sym.token = .symbol .minus then Arithmetic.ofInt (-1) * p.1 else p.1) p.2 := by
  rw [numericExpression]
  simp

theorem expressionLoop_succ {operator : F → F → F} (t1 : F)
    (h : expressionOperator s.sym.token = some operator) :
    expressionLoop functions (n + 1) t1 s = term functions n s.getSym >>= fun p ↦
      expressionLoop functions n (operator t1 p.1) p.2 := by
  rw [expressionLoop, h]

theorem term_succ : term functions (n + 1) s =
    factor functions n s >>= fun p ↦ termLoop functions n p.1 p.2 := by
  rw [term]

theorem termLoop_succ {operator : F → F → F} (f1 : F)
    (h : termOperator s.sym.token = some operator) :
    termLoop functions (n + 1) f1 s = factor functions n s.getSym >>= fun p ↦
      termLoop functions n (operator f1 p.1) p.2 := by
  rw [termLoop, h]

/-- `factor` looks for strings before it reads an operand. -/
theorem factor_succ (hs : s.sym.token ≠ .string ∧ s.sym.token ≠ .variableString) :
    factor functions (n + 1) s = numericFactor functions n s := by
  rw [factor, if_neg (not_or.mpr hs)]

/-- What `numeric_factor` does behind the operand. -/
def comparedWith (functions : List (BasicFunction F W)) (n : ℕ) (p : F × Parser F W) :
    Except ParserFault (F × Parser F W) :=
  match p.2.getRelop with
  | (none, s) => .ok (p.1, s)
  | (some op, s) => do
    let (rightNumber, s) ← factor functions n s
    .ok (ofBool (numericCondition p.1 rightNumber op), s)

theorem numericFactor_succ : numericFactor functions (n + 1) s =
    operand functions n s >>= comparedWith functions n := by
  rw [numericFactor]
  rfl

theorem operand_banana (ls : List (Lexeme F)) (env : Environment F W) :
    operand functions (n + 1) ⟨.symbol .leftBanana :: ls, env⟩ =
      numericExpression functions n ⟨ls, env⟩ >>= fun p ↦
        .ok (p.1, p.2.expect (.symbol .rightBanana)) := by
  rw [operand]
  have hnone : findFunction functions (.symbol .leftBanana) .numeric = none := by
    rw [findFunction, List.find?_eq_none]
    simp
  rw [sym_token, nextToken_cons, token_symbol, hnone]
  rfl

end Steps

theorem ReadsOperand.factor (h : ReadsOperand functions ls v)
    (hs : ∀ rest, nextToken (ls ++ rest) ≠ .string ∧ nextToken (ls ++ rest) ≠ .variableString) :
    ReadsFactor functions ls v := by
  intro env rest hrest
  refine .of_succ (fun n ↦ factor_succ n _ (hs rest)) (.of_succ (fun n ↦ numericFactor_succ n _)
    ((h env rest (hrest.trans (by decide))).bind fun p ↦ (Settles.const _).congr fun n ↦ ?_))
  rw [comparedWith, getRelop_none hrest]

theorem ReadsFactor.term (h : ReadsFactor functions ls v) : ReadsTerm functions ls v :=
  fun env rest _ hrest hk ↦ .of_succ (fun n ↦ term_succ n _) ((h env rest hrest).bind hk)

theorem ReadsTerm.expression (h : ReadsTerm functions ls v)
    (hs : ∀ rest, (nextToken (ls ++ rest)).Starts) : ReadsExpression functions ls v := by
  intro env rest k hrest hk
  have hplus : nextToken (ls ++ rest) ≠ .symbol .plus := (hs rest).ne (fun h ↦ h)
  have hminus : nextToken (ls ++ rest) ≠ .symbol .minus := (hs rest).ne (fun h ↦ h)
  refine .of_succ (fun n ↦ numericExpression_succ n _) ?_
  rw [sym_token, if_neg (not_or.mpr ⟨hplus, hminus⟩)]
  simp only [if_neg hminus]
  exact (h.whole hrest).bind hk

/-- An expression in parentheses. -/
theorem ReadsExpression.operand (h : ReadsExpression functions ls v) :
    ReadsOperand functions (group true ls) v := by
  intro env rest _
  rw [group, if_pos rfl, List.cons_append, List.append_assoc]
  exact .of_succ (fun n ↦ operand_banana n _ _) ((h.whole rfl).bind fun p ↦ .const _)

/-! ## Operators -/

theorem ReadsExpression.sum (hl : ReadsExpression functions ls v) (hr : ReadsTerm functions rs w)
    (op : SumOp) : ReadsExpression functions (ls ++ .symbol op.symbol :: rs) fun env ↦
      v env >>= fun p ↦ w p.2 >>= fun q ↦ .ok (op.apply p.1 q.1, q.2) := by
  intro env rest k hrest hk
  have hop : expressionOperator (.symbol op.symbol) = some (op.apply : F → F → F) := by
    rcases op <;> rfl
  have hlevel : (nextToken (.symbol op.symbol :: (rs ++ rest) : List (Lexeme F))).level ≤ 1 := by
    rcases op <;> exact Nat.le_refl 1
  have h := hl env (.symbol op.symbol :: (rs ++ rest))
    (fun p ↦ w p.2 >>= fun q ↦ k (op.apply p.1 q.1, q.2)) hlevel fun p ↦
      .of_succ (fun n ↦ expressionLoop_succ n _ _ hop) ((hr.whole hrest).bind fun q ↦
        hk (op.apply p.1 q.1, q.2))
  rw [List.append_assoc, List.cons_append]
  simp only [bind_assoc, ok_bind]
  exact h

theorem ReadsTerm.product (hl : ReadsTerm functions ls v) (hr : ReadsFactor functions rs w)
    (op : ProductOp) : ReadsTerm functions (ls ++ .symbol op.symbol :: rs) fun env ↦
      v env >>= fun p ↦ w p.2 >>= fun q ↦ .ok (op.apply p.1 q.1, q.2) := by
  intro env rest k hrest hk
  have hop : termOperator (.symbol op.symbol) = some (op.apply : F → F → F) := by
    rcases op <;> rfl
  have hlevel : (nextToken (.symbol op.symbol :: (rs ++ rest) : List (Lexeme F))).level ≤ 2 := by
    rcases op <;> exact Nat.le_refl 2
  have h := hl env (.symbol op.symbol :: (rs ++ rest))
    (fun p ↦ w p.2 >>= fun q ↦ k (op.apply p.1 q.1, q.2)) hlevel fun p ↦
      .of_succ (fun n ↦ termLoop_succ n _ _ hop) ((hr _ _ hrest).bind fun q ↦
        hk (op.apply p.1 q.1, q.2))
  rw [List.append_assoc, List.cons_append]
  simp only [bind_assoc, ok_bind]
  exact h

theorem ReadsTerm.sign (h : ReadsTerm functions ls v) (minus : Bool) :
    ReadsExpression functions (.symbol (if minus then .minus else .plus) :: ls) fun env ↦
      v env >>= fun p ↦ .ok (if minus then Arithmetic.ofInt (-1) * p.1 else p.1, p.2) := by
  intro env rest k hrest hk
  rw [bind_assoc]
  refine .of_succ (fun n ↦ numericExpression_succ n _) ?_
  rcases minus
  · exact (h.whole hrest).bind fun p ↦ hk (p.1, p.2)
  · exact (h.whole hrest).bind fun p ↦ hk (Arithmetic.ofInt (-1) * p.1, p.2)

theorem ReadsOperand.relation (hl : ReadsOperand functions ls v) (hr : ReadsFactor functions rs w)
    (hs : ∀ rest, nextToken (ls ++ rest) ≠ .string ∧ nextToken (ls ++ rest) ≠ .variableString)
    (hrs : ∀ rest, (nextToken (rs ++ rest)).Starts) (op : Relop) :
    ReadsFactor functions (ls ++ (op.symbols.map .symbol ++ rs)) fun env ↦
      v env >>= fun p ↦ w p.2 >>= fun q ↦ .ok (ofBool (numericCondition p.1 q.1 op), q.2) := by
  intro env rest hrest
  have hlevel := level_symbols op (rs ++ rest)
  rw [List.append_assoc, List.append_assoc]
  refine .of_succ (fun n ↦ factor_succ n _ (hs _)) (.of_succ (fun n ↦ numericFactor_succ n _) ?_)
  simp only [bind_assoc]
  refine (hl env _ hlevel).bind fun p ↦ ?_
  simp only [comparedWith, getRelop_symbols (hrs rest)]
  exact (hr p.2 rest hrest).bind fun q ↦ .const _

/-! ## Strings -/

variable (functions) in
/-- The tokens are a `string_term`. -/
def ReadsStringTerm (ls : List (Lexeme F))
    (v : Environment F W → Except ParserFault (Text × Environment F W)) : Prop :=
  ∀ env rest, (nextToken rest).level ≤ 3 →
    Settles (fun n ↦ stringTerm functions n ⟨ls ++ rest, env⟩)
      (v env >>= fun p ↦ .ok (some p.1, ⟨rest, p.2⟩))

variable (functions) in
/-- The tokens are the first terms of a string. -/
def ReadsString (ls : List (Lexeme F))
    (v : Environment F W → Except ParserFault (Text × Environment F W)) : Prop :=
  ∀ env rest (k : Text × Environment F W → Except ParserFault (Option Text × Parser F W)),
    (nextToken rest).level ≤ 3 →
    (∀ p, Settles (fun n ↦ stringLoop functions n (some p.1) ⟨rest, p.2⟩) (k p)) →
    Settles (fun n ↦ stringExpression functions n ⟨ls ++ rest, env⟩) (v env >>= k)

variable (functions) in
/-- The tokens are further terms of a string. -/
def ReadsMore (ls : List (Lexeme F))
    (v : Environment F W → Except ParserFault (Text × Environment F W)) : Prop :=
  ∀ env rest text (k : Text × Environment F W → Except ParserFault (Option Text × Parser F W)),
    (nextToken rest).level ≤ 3 →
    (∀ p, Settles (fun n ↦ stringLoop functions n (some p.1) ⟨rest, p.2⟩) (k p)) →
    Settles (fun n ↦ stringLoop functions n (some text) ⟨.symbol .plus :: (ls ++ rest), env⟩)
      (v env >>= fun p ↦ k (text ++ p.1, p.2))

section Strings

variable {sv sw : Environment F W → Except ParserFault (Text × Environment F W)}

theorem stringExpression_succ (n : ℕ) (s : Parser F W) : stringExpression functions (n + 1) s =
    stringTerm functions n s >>= fun p ↦ stringLoop functions n p.1 p.2 := by
  rw [stringExpression]

/-- What `string_expression` does with the next term. -/
def appendedTo (functions : List (BasicFunction F W)) (n : ℕ) (s1 : Option Text)
    (p : Option Text × Parser F W) : Except ParserFault (Option Text × Parser F W) :=
  match s1, p.1 with
  | some s1, some s2 => stringLoop functions n (some (s1 ++ s2)) p.2
  | _, _ => .error .nullString

theorem stringLoop_plus (n : ℕ) (s1 : Option Text) (ls : List (Lexeme F)) (env : Environment F W) :
    stringLoop functions (n + 1) s1 ⟨.symbol .plus :: ls, env⟩ =
      stringTerm functions n ⟨ls, env⟩ >>= appendedTo functions n s1 := by
  rw [stringLoop]
  rfl

theorem stringLoop_settles (h : nextToken rest ≠ .symbol .plus) (p : Text × Environment F W) :
    Settles (fun n ↦ stringLoop functions n (some p.1) ⟨rest, p.2⟩)
      (.ok (some p.1, ⟨rest, p.2⟩)) := by
  refine .of_succ (fun n ↦ ?_) (.const _)
  rw [stringLoop, sym_token, if_neg h]

/-- A whole string. -/
theorem ReadsString.whole (h : ReadsString functions ls sv) (hlevel : (nextToken rest).level ≤ 3)
    (hplus : nextToken rest ≠ .symbol .plus) :
    Settles (fun n ↦ stringExpression functions n ⟨ls ++ rest, env⟩)
      (sv env >>= fun p ↦ .ok (some p.1, ⟨rest, p.2⟩)) :=
  h env rest _ hlevel (stringLoop_settles hplus)

theorem ReadsStringTerm.string (h : ReadsStringTerm functions ls sv) :
    ReadsString functions ls sv := fun env rest _ hrest hk ↦
  .of_succ (fun n ↦ stringExpression_succ n _) ((h env rest hrest).bind hk)

theorem ReadsStringTerm.more (h : ReadsStringTerm functions ls sv) :
    ReadsMore functions ls sv := fun env rest text _ hrest hk ↦
  .of_succ (fun n ↦ stringLoop_plus n _ _ _) ((h env rest hrest).bind fun p ↦
    hk (text ++ p.1, p.2))

theorem ReadsString.concat (hl : ReadsString functions ls sv) (hr : ReadsMore functions rs sw) :
    ReadsString functions (ls ++ .symbol .plus :: rs) fun env ↦
      sv env >>= fun p ↦ sw p.2 >>= fun q ↦ .ok (p.1 ++ q.1, q.2) := by
  intro env rest k hrest hk
  have h := hl env (.symbol .plus :: (rs ++ rest)) _ (Nat.le_add_right 1 2) fun p ↦
    hr p.2 rest p.1 k hrest hk
  rw [List.append_assoc, List.cons_append]
  simp only [bind_assoc, ok_bind]
  exact h

theorem ReadsMore.concat (hl : ReadsMore functions ls sv) (hr : ReadsMore functions rs sw) :
    ReadsMore functions (ls ++ .symbol .plus :: rs) fun env ↦
      sv env >>= fun p ↦ sw p.2 >>= fun q ↦ .ok (p.1 ++ q.1, q.2) := by
  intro env rest text k hrest hk
  have h := hl env (.symbol .plus :: (rs ++ rest)) text _ (Nat.le_add_right 1 2) fun p ↦
    hr p.2 rest p.1 k hrest hk
  rw [List.append_assoc, List.cons_append]
  simp only [bind_assoc, List.append_assoc] at h ⊢
  exact h

/-- What `factor` does behind a string. -/
def stringComparedWith (functions : List (BasicFunction F W)) (n : ℕ)
    (p : Option Text × Parser F W) : Except ParserFault (F × Parser F W) :=
  match p.2.getRelop with
  | (none, s) => .ok (0, s.error "EXPECTED RELOP")
  | (some op, s) => do
    let (s2, s) ← stringTerm functions n s
    match p.1, s2 with
    | some s1, some s2 => .ok (ofBool (stringCondition s1 s2 op), s)
    | _, _ => .error .nullString

theorem factor_string (n : ℕ) (s : Parser F W)
    (hs : s.sym.token = .string ∨ s.sym.token = .variableString) :
    factor functions (n + 1) s = stringTerm functions n s >>= stringComparedWith functions n := by
  rw [factor, if_pos hs]
  rfl

theorem ReadsStringTerm.comparison (hl : ReadsStringTerm functions ls sv)
    (hr : ReadsStringTerm functions rs sw)
    (hs : ∀ rest, nextToken (ls ++ rest) = .string ∨ nextToken (ls ++ rest) = .variableString)
    (hrs : ∀ rest, (nextToken (rs ++ rest)).Starts) (op : Relop) :
    ReadsFactor functions (ls ++ (op.symbols.map .symbol ++ rs)) fun env ↦
      sv env >>= fun p ↦ sw p.2 >>= fun q ↦ .ok (ofBool (stringCondition p.1 q.1 op), q.2) := by
  intro env rest hrest
  have hlevel := level_symbols op (rs ++ rest)
  rw [List.append_assoc, List.append_assoc]
  refine .of_succ (fun n ↦ factor_string n _ (hs _)) ?_
  simp only [bind_assoc]
  refine (hl env _ hlevel).bind fun p ↦ ?_
  simp only [stringComparedWith, getRelop_symbols (hrs rest)]
  exact (hr p.2 rest (hrest.trans (by decide))).bind fun q ↦ .const _

end Strings

/-! ## Indices -/

variable (functions) in
/-- The tokens up to the parenthesis are so many indices. -/
def ReadsIndices (m : ℕ) (ls : List (Lexeme F))
    (v : Environment F W → Except ParserFault (List UInt64 × Environment F W)) : Prop :=
  ∀ env rest vector, vector.length + m ≤ 5 →
    Settles (fun n ↦ getVector functions n vector ⟨ls ++ .symbol .rightBanana :: rest, env⟩)
      (v env >>= fun p ↦ .ok (vector ++ p.1, ⟨.symbol .rightBanana :: rest, p.2⟩))

theorem getVector_banana (n : ℕ) (vector : List UInt64) (ls : List (Lexeme F))
    (env : Environment F W) :
    getVector functions (n + 1) vector ⟨.symbol .rightBanana :: ls, env⟩ =
      .ok (vector, ⟨.symbol .rightBanana :: ls, env⟩) := by
  rw [getVector]
  rfl

theorem getVector_succ (n : ℕ) {vector : List UInt64} (hlength : vector.length ≠ 5)
    {s : Parser F W} (h : s.sym.token ≠ .symbol .rightBanana) :
    getVector functions (n + 1) vector s = numericExpression functions n s >>= fun p ↦
      getVector functions n (vector ++ [Arithmetic.toSize p.1])
        (p.2.accept (.symbol .comma)) := by
  rw [getVector, if_neg h]
  simp only [if_neg hlength]

theorem readsIndices_nil :
    ReadsIndices functions 0 ([] : List (Lexeme F)) fun env : Environment F W ↦ .ok ([], env) := by
  intro env rest vector _
  refine .of_succ (fun n ↦ getVector_banana n _ _ _) ((Settles.const _).congr fun _ ↦ ?_)
  rw [ok_bind, List.append_nil]

theorem ReadsExpression.lastIndex (h : ReadsExpression functions ls v)
    (hs : ∀ rest, nextToken (ls ++ rest) ≠ .symbol .rightBanana) :
    ReadsIndices functions 1 ls fun env ↦
      v env >>= fun p ↦ .ok ([Arithmetic.toSize p.1], p.2) := by
  intro env rest vector hlength
  refine .of_succ (fun n ↦ getVector_succ n (by omega) (hs _)) ?_
  simp only [bind_assoc]
  exact (h.whole rfl).bind fun p ↦ .of_succ (fun n ↦ getVector_banana n _ _ _) (.const _)

theorem ReadsExpression.index {m : ℕ} {w : Environment F W → Except ParserFault (List UInt64 × _)}
    (h : ReadsExpression functions ls v)
    (hs : ∀ rest, nextToken (ls ++ rest) ≠ .symbol .rightBanana)
    (hr : ReadsIndices functions m rs w) :
    ReadsIndices functions (m + 1) (ls ++ .symbol .comma :: rs) fun env ↦
      v env >>= fun p ↦ w p.2 >>= fun q ↦ .ok (Arithmetic.toSize p.1 :: q.1, q.2) := by
  intro env rest vector hlength
  rw [List.append_assoc, List.cons_append]
  refine .of_succ (fun n ↦ getVector_succ n (by omega) (hs _)) ?_
  simp only [bind_assoc]
  refine (h.whole rfl).bind fun p ↦ ?_
  have hrest := hr p.2 rest (vector ++ [Arithmetic.toSize p.1]) (by simp; omega)
  simp only [List.append_assoc, List.singleton_append] at hrest
  exact hrest

/-! ## Arguments -/

variable (functions) in
/-- `get_parameter` reads the lexemes in front of the end of the parameter, and does what `v` says.
-/
def ReadsParameter (k : Kind) (ls : List (Lexeme F))
    (v : Environment F W → Except ParserFault (BasicType F × Environment F W)) : Prop :=
  ∀ env rest, (nextToken rest).level = 0 →
    Settles (fun n ↦ getParameter functions n k ⟨ls ++ rest, env⟩)
      (v env >>= fun p ↦ .ok (p.1, ⟨rest, p.2⟩))

variable (functions) in
/-- The tokens up to the parenthesis are arguments for these parameters. -/
def ReadsArguments (kinds : List Kind) (ls : List (Lexeme F))
    (v : Environment F W → Except ParserFault (List (BasicType F) × Environment F W)) : Prop :=
  ∀ env rest,
    Settles (fun n ↦ arguments functions n kinds ⟨ls ++ .symbol .rightBanana :: rest, env⟩)
      (v env >>= fun p ↦ .ok (completed kinds p.1, ⟨.symbol .rightBanana :: rest, p.2⟩))

theorem ReadsExpression.parameter (h : ReadsExpression functions ls v) :
    ReadsParameter functions .numeric ls fun env ↦
      v env >>= fun p ↦ .ok (⟨.numeric, false, some (.number p.1)⟩, p.2) := by
  intro env rest hrest
  refine .of_succ (g := fun n ↦ numericExpression functions n ⟨ls ++ rest, env⟩ >>= fun p ↦
    .ok (⟨.numeric, false, some (.number p.1)⟩, p.2)) (fun n ↦ ?_) ?_
  · rw [getParameter]
  · simp only [bind_assoc]
    exact (h.whole hrest).bind fun p ↦ .const _

theorem ReadsString.parameter {v : Environment F W → Except ParserFault (Text × Environment F W)}
    (h : ReadsString functions ls v) :
    ReadsParameter functions .string ls fun env ↦
      v env >>= fun p ↦ .ok (⟨.string, false, some (.string (some p.1))⟩, p.2) := by
  intro env rest hrest
  have hplus : nextToken rest ≠ .symbol .plus := fun hplus ↦ by
    rw [hplus] at hrest
    exact absurd hrest (by decide)
  refine .of_succ (g := fun n ↦ stringExpression functions n ⟨ls ++ rest, env⟩ >>= fun p ↦
    .ok (⟨.string, false, some (.string p.1)⟩, p.2)) (fun n ↦ ?_) ?_
  · rw [getParameter]
  · simp only [bind_assoc]
    exact (h.whole (by omega) hplus).bind fun p ↦ .const _

theorem readsArguments_nil : ReadsArguments functions [] ([] : List (Lexeme F))
    fun env : Environment F W ↦ .ok ([], env) := by
  intro env rest
  refine .of_succ (fun n ↦ ?_) (.const _)
  rw [arguments]
  rfl

section Arguments

variable {k : Kind} {kinds : List Kind}
  {u : Environment F W → Except ParserFault (BasicType F × Environment F W)}
  {us : Environment F W → Except ParserFault (List (BasicType F) × Environment F W)}

/-- What the loop over the arguments does behind one of them. -/
def argumentsFrom (functions : List (BasicFunction F W)) (n : ℕ) (kinds : List Kind)
    (p : BasicType F × Parser F W) : Except ParserFault (List (BasicType F) × Parser F W) :=
  if kinds = [] then .ok ([p.1], p.2)
  else if p.2.sym.token = .symbol .comma then do
    let (vs, s) ← arguments functions n kinds p.2.getSym
    .ok (p.1 :: vs, s)
  else .ok (leftOut p.1 kinds, p.2)

theorem arguments_succ (n : ℕ) {s : Parser F W} (h : s.sym.token ≠ .symbol .rightBanana) :
    arguments functions (n + 1) (k :: kinds) s =
      getParameter functions n k s >>= argumentsFrom functions n kinds := by
  rw [arguments, if_neg h]
  rfl

theorem ReadsParameter.last (h : ReadsParameter functions k ls u)
    (hs : ∀ rest, nextToken (ls ++ rest) ≠ .symbol .rightBanana) :
    ReadsArguments functions (k :: kinds) ls fun env ↦
      u env >>= fun p ↦ .ok ([p.1], p.2) := by
  intro env rest
  refine .of_succ (fun n ↦ arguments_succ n (hs _)) ?_
  simp only [bind_assoc]
  refine (h env _ rfl).bind fun p ↦ (Settles.const _).congr fun n ↦ ?_
  rcases kinds <;> rfl

theorem argumentsFrom_comma (hkinds : kinds ≠ []) (n : ℕ) (v : BasicType F)
    (ls : List (Lexeme F)) (env : Environment F W) :
    argumentsFrom functions n kinds (v, ⟨.symbol .comma :: ls, env⟩) =
      arguments functions n kinds ⟨ls, env⟩ >>= fun p ↦ .ok (v :: p.1, p.2) := by
  rw [argumentsFrom, if_neg hkinds]
  rfl

omit [Arithmetic F] in
theorem completed_cons (v w : BasicType F) (vs : List (BasicType F)) :
    completed (k :: kinds) (v :: w :: vs) = v :: completed kinds (w :: vs) := by
  rcases kinds <;> rfl

theorem ReadsParameter.more (h : ReadsParameter functions k ls u)
    (hs : ∀ rest, nextToken (ls ++ rest) ≠ .symbol .rightBanana) (hkinds : kinds ≠ [])
    {u' : Environment F W → Except ParserFault (BasicType F × Environment F W)}
    (hr : ReadsArguments functions kinds rs fun env ↦
      u' env >>= fun p ↦ us p.2 >>= fun q ↦ .ok (p.1 :: q.1, q.2)) :
    ReadsArguments functions (k :: kinds) (ls ++ .symbol .comma :: rs) fun env ↦
      u env >>= fun p ↦ (u' p.2 >>= fun p ↦ us p.2 >>= fun q ↦ .ok (p.1 :: q.1, q.2)) >>=
        fun q ↦ .ok (p.1 :: q.1, q.2) := by
  intro env rest
  rw [List.append_assoc, List.cons_append]
  refine .of_succ (fun n ↦ arguments_succ n (hs _)) ?_
  simp only [bind_assoc, ok_bind, completed_cons]
  refine (h env _ rfl).bind fun p ↦ .congr ?_ fun n ↦ argumentsFrom_comma hkinds n _ _ _
  have hrest := (hr p.2 rest).bind (g := fun _ q ↦ .ok (p.1 :: q.1, q.2)) fun q ↦ .const _
  simp only [bind_assoc, ok_bind] at hrest
  exact hrest

end Arguments

/-! ## Operands and terms of strings -/

omit [Arithmetic F] in
theorem findFunction_eq_none {t : Token} {type : FunctionType}
    (h : ∀ k, t ≠ .symbol (.keyword k)) : findFunction functions t type = none := by
  rw [findFunction, List.find?_eq_none]
  intro f _
  simp [Ne.symm (h f.token)]

theorem readsOperand_number (x : F) :
    ReadsOperand functions [.number x] fun env ↦ .ok (x, env) := by
  intro env rest _
  refine .of_succ (fun n ↦ ?_) (.const _)
  rw [operand, sym_token, findFunction_eq_none (by simp [Lexeme.token])]
  rfl

omit [Arithmetic F] in
/-- What follows is neither an index nor another variable. -/
theorem ends_of_level (h : (nextToken rest).level ≤ 3) : nextToken rest ≠ .symbol .leftBanana ∧
    .variableNumber ≠ nextToken rest ∧ .variableString ≠ nextToken rest := by
  refine ⟨fun ht ↦ ?_, fun ht ↦ ?_, fun ht ↦ ?_⟩
  · exact absurd (ht ▸ h) (by decide)
  · exact absurd (ht.symm ▸ h) (by decide)
  · exact absurd (ht.symm ▸ h) (by decide)

theorem operand_variable (n : ℕ) (name : VariableName) {ls : List (Lexeme F)}
    (env : Environment F W) (h : nextToken ls ≠ .symbol .leftBanana) :
    operand functions (n + 1) ⟨.variableNumber name :: ls, env⟩ =
      env.getNumeric name.text >>= fun p ↦ .ok (p.1, accept ⟨ls, p.2⟩ .variableNumber) := by
  rw [operand, sym_token, findFunction_eq_none (by simp [Lexeme.token])]
  exact if_neg h

theorem readsOperand_variable (name : VariableName) :
    ReadsOperand functions [.variableNumber name] fun env ↦ env.getNumeric name.text := by
  intro env rest hrest
  obtain ⟨hbanana, hvariable, -⟩ := ends_of_level hrest
  rw [List.singleton_append]
  refine .of_succ (fun n ↦ operand_variable n _ _ hbanana) (.bind_const fun p ↦ ?_)
  rw [accept_of_ne hvariable]
  exact .const _

theorem operand_element (n : ℕ) (name : VariableName) (ls : List (Lexeme F))
    (env : Environment F W) :
    operand functions (n + 1) ⟨.variableNumber name :: .symbol .leftBanana :: ls, env⟩ =
      name.arrayName >>= fun arrayName ↦ getVector functions n [] ⟨ls, env⟩ >>= fun p ↦
        p.2.env.arrayGetNumeric arrayName (filled p.1) >>= fun q ↦
          .ok (q.1, expect { p.2 with env := q.2 } (.symbol .rightBanana)) := by
  rw [operand, sym_token, findFunction_eq_none (by simp [Lexeme.token])]
  rfl

theorem ReadsIndices.operand {m : ℕ} {v : Environment F W → Except ParserFault (List UInt64 × _)}
    (h : ReadsIndices functions m ls v) (hm : m ≤ 5) (name : VariableName) :
    ReadsOperand functions
      (.variableNumber name :: .symbol .leftBanana :: (ls ++ [.symbol .rightBanana])) fun env ↦
        name.arrayName >>= fun arrayName ↦
          v env >>= fun p ↦ p.2.arrayGetNumeric arrayName (filled p.1) := by
  intro env rest _
  simp only [List.cons_append, List.append_assoc, bind_assoc, List.nil_append]
  exact .of_succ (fun n ↦ operand_element n _ _ _) (.bind_const fun arrayName ↦
    (h env rest [] (by simpa using hm)).bind fun p ↦ .const _)

theorem basicDispatchFunction_succ (n : ℕ) (bf : BasicFunction F W) (s : Parser F W) :
    basicDispatchFunction functions (n + 1) bf s =
      arguments functions n bf.kinds (s.getSym.expect (.symbol .leftBanana)) >>= fun p ↦
        let s := p.2.expect (.symbol .rightBanana)
        .ok ((bf.function p.1 s.env.world).1,
          { s with env := { s.env with world := (bf.function p.1 s.env.world).2 } }) := by
  rw [basicDispatchFunction]

/-- A call, as far as the function is called. -/
theorem ReadsArguments.dispatch {bf : BasicFunction F W} {f : ℕ}
    {v : Environment F W → Except ParserFault (List (BasicType F) × _)} {type : FunctionType}
    (h : ReadsArguments functions bf.kinds ls v)
    (hbf : findFunction functions (.symbol (.keyword f)) type = some bf) :
    Settles (fun n ↦ basicDispatchFunction functions n bf ⟨.symbol (.keyword f) ::
        .symbol .leftBanana :: (ls ++ .symbol .rightBanana :: rest), env⟩)
      ((v env >>= fun p ↦ applied functions f type p.1 p.2) >>= fun p ↦
        .ok (p.1, ⟨rest, p.2⟩)) := by
  refine .of_succ (fun n ↦ basicDispatchFunction_succ n _ _) ?_
  simp only [bind_assoc, applied, hbf]
  exact (h env rest).bind fun p ↦ .const _

/-- What becomes of the result of a numeric function. -/
def numberOf : Value F × Parser F W → Except ParserFault (F × Parser F W)
  | (.number x, s) => .ok (x, s)
  | (.string _, _) => .error .unspecified

/-- The result of a numeric function. -/
def numberValue : Value F × Environment F W → Except ParserFault (F × Environment F W)
  | (.number x, env) => .ok (x, env)
  | (.string _, _) => .error .unspecified

theorem operand_call {n f : ℕ} {bf : BasicFunction F W} {ls : List (Lexeme F)}
    {env : Environment F W}
    (hbf : findFunction functions (.symbol (.keyword f)) .numeric = some bf) :
    operand functions (n + 1) ⟨.symbol (.keyword f) :: ls, env⟩ =
      basicDispatchFunction functions n bf ⟨.symbol (.keyword f) :: ls, env⟩ >>= numberOf := by
  rw [operand, sym_token, nextToken_cons, token_symbol, hbf]
  rfl

theorem ReadsArguments.operand {bf : BasicFunction F W} {f : ℕ}
    {v : Environment F W → Except ParserFault (List (BasicType F) × _)}
    (h : ReadsArguments functions bf.kinds ls v)
    (hbf : findFunction functions (.symbol (.keyword f)) .numeric = some bf) :
    ReadsOperand functions
      (.symbol (.keyword f) :: .symbol .leftBanana :: (ls ++ [.symbol .rightBanana])) fun env ↦
        v env >>= fun p ↦ applied functions f .numeric p.1 p.2 >>= numberValue := by
  intro env rest _
  simp only [List.cons_append, List.append_assoc, List.nil_append]
  rw [← bind_assoc, bind_assoc]
  refine .of_succ (fun n ↦ operand_call hbf)
    ((h.dispatch hbf).bind fun p ↦ (Settles.const _).congr fun n ↦ ?_)
  rcases p with ⟨_ | _, _⟩ <;> rfl

theorem readsStringTerm_literal (text : Text) :
    ReadsStringTerm functions [.string text] fun env ↦ .ok (text, env) := by
  intro env rest _
  refine .of_succ (fun n ↦ ?_) (.const _)
  rw [stringTerm]
  rfl

/-- What `string_term` does with the string of a variable. -/
def variableOf (ls : List (Lexeme F)) :
    Option Text × Environment F W → Except ParserFault (Option Text × Parser F W)
  | (none, _) => .error .nullString
  | (some text, env) => .ok (some text, accept ⟨ls, env⟩ .variableString)

/-- The string of a variable or an array. -/
def textValue : Option Text × Environment F W → Except ParserFault (Text × Environment F W)
  | (none, _) => .error .nullString
  | (some text, env) => .ok (text, env)

theorem stringTerm_variable (n : ℕ) (name : VariableName) {ls : List (Lexeme F)}
    (env : Environment F W) (h : nextToken ls ≠ .symbol .leftBanana) :
    stringTerm functions (n + 1) ⟨.variableString name :: ls, env⟩ =
      env.getString name.text >>= variableOf ls := by
  rw [stringTerm]
  exact if_neg h

theorem readsStringTerm_variable (name : VariableName) :
    ReadsStringTerm functions [.variableString name] fun env ↦
      env.getString name.text >>= textValue := by
  intro env rest hrest
  obtain ⟨hbanana, -, hvariable⟩ := ends_of_level hrest
  rw [List.singleton_append, bind_assoc]
  refine .of_succ (fun n ↦ stringTerm_variable n _ _ hbanana) (.bind_const fun p ↦ ?_)
  rcases p with ⟨_ | text, env⟩
  · exact .const _
  · rw [variableOf, accept_of_ne hvariable]
    exact .const _

/-- What `string_term` does with the string of an array. -/
def elementOf (s : Parser F W) :
    Option Text × Environment F W → Except ParserFault (Option Text × Parser F W)
  | (none, _) => .error .nullString
  | (some text, env) => .ok (some text, expect { s with env } (.symbol .rightBanana))

theorem stringTerm_element (n : ℕ) (name : VariableName) (ls : List (Lexeme F))
    (env : Environment F W) :
    stringTerm functions (n + 1) ⟨.variableString name :: .symbol .leftBanana :: ls, env⟩ =
      name.arrayName >>= fun arrayName ↦ getVector functions n [] ⟨ls, env⟩ >>= fun p ↦
        p.2.env.arrayGetString arrayName (filled p.1) >>= elementOf p.2 := by
  rw [stringTerm]
  exact if_pos rfl

theorem ReadsIndices.stringTerm {m : ℕ} {v : Environment F W → Except ParserFault (List UInt64 × _)}
    (h : ReadsIndices functions m ls v) (hm : m ≤ 5) (name : VariableName) :
    ReadsStringTerm functions
      (.variableString name :: .symbol .leftBanana :: (ls ++ [.symbol .rightBanana])) fun env ↦
        name.arrayName >>= fun arrayName ↦
          v env >>= fun p ↦ p.2.arrayGetString arrayName (filled p.1) >>= textValue := by
  intro env rest _
  simp only [List.cons_append, List.append_assoc, bind_assoc, List.nil_append]
  refine .of_succ (fun n ↦ stringTerm_element n _ _ _) (.bind_const fun arrayName ↦
    (h env rest [] (by simpa using hm)).bind fun p ↦ .bind_const fun q ↦
      (Settles.const _).congr fun n ↦ ?_)
  rcases q with ⟨_ | text, env⟩
  · rfl
  · rw [elementOf, expect_cons]
    rfl

/-- What becomes of the result of a string function. -/
def stringOf : Value F × Parser F W → Except ParserFault (Option Text × Parser F W)
  | (.string (some text), s) => .ok (some text, s)
  | (.string none, _) => .error .nullString
  | (.number _, _) => .error .unspecified

/-- The result of a string function. -/
def stringValue : Value F × Environment F W → Except ParserFault (Text × Environment F W)
  | (.string (some text), env) => .ok (text, env)
  | (.string none, _) => .error .nullString
  | (.number _, _) => .error .unspecified

theorem stringTerm_call {n f : ℕ} {bf : BasicFunction F W} {ls : List (Lexeme F)}
    {env : Environment F W}
    (hbf : findFunction functions (.symbol (.keyword f)) .string = some bf) :
    Parser.stringTerm functions (n + 1) ⟨.symbol (.keyword f) :: ls, env⟩ =
      basicDispatchFunction functions n bf ⟨.symbol (.keyword f) :: ls, env⟩ >>= stringOf := by
  rw [Parser.stringTerm]
  simp only [sym, List.headD_cons, token_symbol, hbf]
  rfl

theorem ReadsArguments.stringTerm {bf : BasicFunction F W} {f : ℕ}
    {v : Environment F W → Except ParserFault (List (BasicType F) × _)}
    (h : ReadsArguments functions bf.kinds ls v)
    (hbf : findFunction functions (.symbol (.keyword f)) .string = some bf) :
    ReadsStringTerm functions
      (.symbol (.keyword f) :: .symbol .leftBanana :: (ls ++ [.symbol .rightBanana])) fun env ↦
        v env >>= fun p ↦ applied functions f .string p.1 p.2 >>= stringValue := by
  intro env rest _
  simp only [List.cons_append, List.append_assoc, List.nil_append]
  rw [← bind_assoc, bind_assoc]
  refine .of_succ (fun n ↦ stringTerm_call hbf)
    ((h.dispatch hbf).bind fun p ↦ (Settles.const _).congr fun n ↦ ?_)
  rcases p with ⟨_ | _ | _, _⟩ <;> rfl

end Parser

/-! ## Trees -/

open Chino.Parser

variable {F W : Type} {rest : List (Lexeme F)}

theorem nextToken_group (needed : Bool) (ls : List (Lexeme F)) :
    nextToken (group needed ls ++ rest) =
      if needed then .symbol .leftBanana else nextToken (ls ++ rest) := by
  rcases needed <;> rfl

theorem StringExpr.starts : ∀ (e : StringExpr F) (rest : List (Lexeme F)),
    (nextToken (e.lexemes ++ rest)).Starts
  | .literal _, _ => trivial
  | .variable _, _ => trivial
  | .element .., _ => trivial
  | .call .., _ => trivial
  | .concat l r, rest => by
    rw [StringExpr.lexemes, List.append_assoc]
    exact l.starts _

theorem StringExpr.Leads.nextToken {e : StringExpr F} (h : e.Leads) (rest : List (Lexeme F)) :
    nextToken (e.lexemes ++ rest) = .string ∨ nextToken (e.lexemes ++ rest) = .variableString := by
  rcases e with _ | _ | _ | _ | _
  · exact Or.inl rfl
  · exact Or.inr rfl
  · exact Or.inr rfl
  · exact h.elim
  · exact h.elim

/-- An expression that binds as much as a term begins as a factor does, and none with a closing
parenthesis. -/
theorem NumberExpr.starts : ∀ (e : NumberExpr F) (rest : List (Lexeme F)),
    (0 < e.rank → (nextToken (e.lexemes ++ rest)).Starts) ∧
      nextToken (e.lexemes ++ rest) ≠ .symbol .rightBanana
  | .literal _, _ => ⟨fun _ ↦ trivial, nofun⟩
  | .variable _, _ => ⟨fun _ ↦ trivial, nofun⟩
  | .element .., _ => ⟨fun _ ↦ trivial, nofun⟩
  | .call .., _ => ⟨fun _ ↦ trivial, nofun⟩
  | .sign minus e, _ => by
    refine ⟨fun h ↦ absurd h (Nat.lt_irrefl 0), ?_⟩
    rcases minus <;> exact nofun
  | .sum op l r, rest => by
    refine ⟨fun h ↦ absurd h (Nat.lt_irrefl 0), ?_⟩
    rw [NumberExpr.lexemes, List.append_assoc]
    exact (l.starts _).2
  | .product op l r, rest => by
    have hs : (nextToken ((NumberExpr.product op l r).lexemes ++ rest)).Starts := by
      rw [NumberExpr.lexemes, List.append_assoc, nextToken_group]
      split
      · trivial
      · exact (l.starts _).1 (by simp_all; omega)
    exact ⟨fun _ ↦ hs, hs.ne (fun h ↦ h)⟩
  | .relation op l r, rest => by
    have hs : (nextToken ((NumberExpr.relation op l r).lexemes ++ rest)).Starts := by
      rw [NumberExpr.lexemes, List.append_assoc, nextToken_group]
      split
      · trivial
      · exact (l.starts _).1 (by simp_all; omega)
    exact ⟨fun _ ↦ hs, hs.ne (fun h ↦ h)⟩
  | .comparison op l r, rest => by
    have hs : (nextToken ((NumberExpr.comparison op l r).lexemes ++ rest)).Starts := by
      rw [NumberExpr.lexemes, List.append_assoc]
      exact l.starts _
    exact ⟨fun _ ↦ hs, hs.ne (fun h ↦ h)⟩

theorem NumberExpr.starts_group (e : NumberExpr F) {m : ℕ} (hm : 0 < m) (rest : List (Lexeme F)) :
    (nextToken (group (e.rank < m) e.lexemes ++ rest)).Starts := by
  rw [nextToken_group]
  split
  · trivial
  · exact (e.starts rest).1 (by simp_all; omega)

/-- An operand does not begin with a string. -/
theorem NumberExpr.nextToken_operand (e : NumberExpr F) (rest : List (Lexeme F)) :
    nextToken (group (e.rank < 3) e.lexemes ++ rest) ≠ .string ∧
      nextToken (group (e.rank < 3) e.lexemes ++ rest) ≠ .variableString := by
  rcases e with _ | _ | _ | _ | _ | _ | _ | _ | _ <;> exact ⟨nofun, nofun⟩

theorem Argument.starts : ∀ (a : Argument F) (rest : List (Lexeme F)),
    nextToken (a.lexemes ++ rest) ≠ .symbol .rightBanana
  | .number e, rest => (e.starts rest).2
  | .string e, rest => (e.starts rest).ne fun h ↦ h

theorem ArgumentList.Fit.ne_nil {a : Argument F} {args : ArgumentList F} {kinds : List Kind}
    (h : (ArgumentList.cons a args).Fit kinds) : kinds ≠ [] := by
  rintro rfl
  have hnone : (none : Option Kind) = some a.kind := by
    rcases args with _ | _
    · exact h
    · exact h.1
  cases hnone

variable [Arithmetic F] {functions : List (BasicFunction F W)}

/-- What the parser makes of an expression at each level. -/
structure Reads (functions : List (BasicFunction F W)) (e : NumberExpr F) : Prop where
  operand : ReadsOperand functions (group (e.rank < 3) e.lexemes) (e.value functions)
  factor : ReadsFactor functions (group (e.rank < 2) e.lexemes) (e.value functions)
  term : ReadsTerm functions (group (e.rank < 1) e.lexemes) (e.value functions)
  expression : ReadsExpression functions e.lexemes (e.value functions)

namespace Reads

variable {e l r : NumberExpr F}

theorem of_operand (hrank : e.rank = 3)
    (h : ReadsOperand functions e.lexemes (e.value functions)) : Reads functions e := by
  have hfactor := h.factor fun rest ↦ by
    have := e.nextToken_operand rest
    rwa [hrank] at this
  refine ⟨?_, ?_, ?_, hfactor.term.expression fun rest ↦ (e.starts rest).1 (by omega)⟩
  · rwa [hrank]
  · rwa [hrank]
  · rw [hrank]
    exact hfactor.term

theorem of_factor (hrank : e.rank = 2)
    (h : ReadsFactor functions e.lexemes (e.value functions)) : Reads functions e := by
  have hexpression := h.term.expression fun rest ↦ (e.starts rest).1 (by omega)
  refine ⟨?_, ?_, ?_, hexpression⟩
  · rw [hrank]
    exact hexpression.operand
  · rwa [hrank]
  · rw [hrank]
    exact h.term

theorem of_term (hrank : e.rank = 1)
    (h : ReadsTerm functions e.lexemes (e.value functions)) : Reads functions e := by
  have hexpression := h.expression fun rest ↦ (e.starts rest).1 (by omega)
  refine ⟨?_, ?_, ?_, hexpression⟩ <;> rw [hrank]
  · exact hexpression.operand
  · exact hexpression.operand.factor fun rest ↦ ⟨nofun, nofun⟩
  · exact h

theorem of_expression (hrank : e.rank = 0)
    (h : ReadsExpression functions e.lexemes (e.value functions)) : Reads functions e := by
  have hfactor := h.operand.factor fun rest ↦ ⟨nofun, nofun⟩
  refine ⟨?_, ?_, ?_, h⟩ <;> rw [hrank]
  · exact h.operand
  · exact hfactor
  · exact hfactor.term

theorem sign (h : Reads functions e) (minus : Bool) : Reads functions (.sign minus e) :=
  of_expression rfl (h.term.sign minus)

theorem sum (hl : Reads functions l) (hr : Reads functions r) (op : SumOp) :
    Reads functions (.sum op l r) := of_expression rfl (hl.expression.sum hr.term op)

theorem product (hl : Reads functions l) (hr : Reads functions r) (op : ProductOp) :
    Reads functions (.product op l r) := of_term rfl (hl.term.product hr.factor op)

theorem relation (hl : Reads functions l) (hr : Reads functions r) (op : Relop) :
    Reads functions (.relation op l r) :=
  of_factor rfl (hl.operand.relation hr.factor l.nextToken_operand
    (r.starts_group (by decide)) op)

end Reads

/-- What the parser makes of a string. -/
structure ReadsText (functions : List (BasicFunction F W)) (e : StringExpr F) : Prop where
  term : e.IsTerm → ReadsStringTerm functions e.lexemes (e.value functions)
  string : ReadsString functions e.lexemes (e.value functions)
  more : ReadsMore functions e.lexemes (e.value functions)

namespace ReadsText

variable {e l r : StringExpr F}

theorem of_term (h : ReadsStringTerm functions e.lexemes (e.value functions)) :
    ReadsText functions e := ⟨fun _ ↦ h, h.string, h.more⟩

theorem concat (hl : ReadsText functions l) (hr : ReadsText functions r) :
    ReadsText functions (.concat l r) :=
  ⟨fun h ↦ h.elim, hl.string.concat hr.more, hl.more.concat hr.more⟩

theorem comparison (hl : ReadsText functions l) (hr : ReadsText functions r) (hleads : l.Leads)
    (hterm : r.IsTerm) (op : Relop) : Reads functions (.comparison op l r) := by
  have hlterm : l.IsTerm := by
    rcases l with _ | _ | _ | _ | _
    · trivial
    · trivial
    · trivial
    · trivial
    · exact hleads.elim
  exact .of_factor rfl ((hl.term hlterm).comparison (hr.term hterm) hleads.nextToken r.starts op)

end ReadsText

mutual

theorem NumberExpr.reads : ∀ e : NumberExpr F, e.WellFormed functions → Reads functions e
  | .literal x, _ => .of_operand rfl (readsOperand_number x)
  | .variable name, _ => .of_operand rfl (readsOperand_variable name)
  | .element name indices, h => .of_operand rfl ((indices.reads h.2).operand h.1 name)
  | .call _ args, ⟨⟨bf, hbf, hfit⟩, h⟩ =>
    .of_operand rfl ((args.reads h bf.kinds hfit).operand hbf)
  | .sign minus e, h => (e.reads h).sign minus
  | .sum op l r, h => (l.reads h.1).sum (r.reads h.2) op
  | .product op l r, h => (l.reads h.1).product (r.reads h.2) op
  | .relation op l r, h => (l.reads h.1).relation (r.reads h.2) op
  | .comparison op l r, ⟨hleads, hterm, hl, hr⟩ =>
    (l.reads hl).comparison (r.reads hr) hleads hterm op

theorem StringExpr.reads : ∀ e : StringExpr F, e.WellFormed functions → ReadsText functions e
  | .literal text, _ => .of_term (readsStringTerm_literal text)
  | .variable name, _ => .of_term (readsStringTerm_variable name)
  | .element name indices, h => .of_term ((indices.reads h.2).stringTerm h.1 name)
  | .call _ args, ⟨⟨bf, hbf, hfit⟩, h⟩ =>
    .of_term ((args.reads h bf.kinds hfit).stringTerm hbf)
  | .concat l r, h => (l.reads h.1).concat (r.reads h.2)

theorem IndexList.reads : ∀ indices : IndexList F, indices.WellFormed functions →
    ReadsIndices functions indices.length indices.lexemes (indices.values functions)
  | .nil, _ => readsIndices_nil
  | .cons e .nil, h => (e.reads h.1).expression.lastIndex fun rest ↦ (e.starts rest).2
  | .cons e (.cons e' indices), h =>
    (e.reads h.1).expression.index (fun rest ↦ (e.starts rest).2)
      (IndexList.reads (.cons e' indices) h.2)

theorem ArgumentList.reads : ∀ args : ArgumentList F, args.WellFormed functions → ∀ kinds,
    args.Fit kinds → ReadsArguments functions kinds args.lexemes (args.values functions)
  | .nil, _, [], _ => readsArguments_nil
  | .cons a .nil, h, _ :: _, hfit => (a.reads h.1 _ (Option.some_inj.mp hfit)).last a.starts
  | .cons a (.cons a' args), h, _ :: kinds, hfit =>
    (a.reads h.1 _ (Option.some_inj.mp hfit.1)).more a.starts hfit.2.ne_nil
      (ArgumentList.reads (.cons a' args) h.2 kinds hfit.2)

theorem Argument.reads : ∀ a : Argument F, a.WellFormed functions → ∀ k, k = a.kind →
    ReadsParameter functions k a.lexemes (a.value functions)
  | .number e, h, _, rfl => (e.reads h).expression.parameter
  | .string e, h, _, rfl => (e.reads h).string.parameter

end

/-- **The parser computes what an expression means.**  With enough fuel, reading the tokens of a
tree gives the value of the tree and leaves the variables as evaluating the tree does, in front of
whatever does not go on with the expression; so does `evaluate`, which reports no errors but those
of the evaluation.  Where evaluating the tree fails, reading it does. -/
theorem expression_read (e : NumberExpr F) (h : e.WellFormed functions) :
    (∀ (env : Environment F W) (rest : List (Lexeme F)), (nextToken rest).level = 0 →
      Settles (fun n ↦ numericExpression functions n ⟨e.lexemes ++ rest, env⟩)
        (e.value functions env >>= fun p ↦ .ok (p.1, ⟨rest, p.2⟩))) ∧
    ∀ env : Environment F W, Settles (fun n ↦ evaluate functions n e.lexemes env)
      (e.value functions { env with lastError := none }) := by
  have hwhole : ∀ (env : Environment F W) (rest : List (Lexeme F)), (nextToken rest).level = 0 →
      Settles (fun n ↦ numericExpression functions n ⟨e.lexemes ++ rest, env⟩)
        (e.value functions env >>= fun p ↦ .ok (p.1, ⟨rest, p.2⟩)) :=
    fun _ _ hrest ↦ (e.reads h).expression.whole hrest
  refine ⟨hwhole, fun env ↦ ?_⟩
  have hall := hwhole { env with lastError := none } [] rfl
  rw [List.append_nil] at hall
  have hread := hall.bind (g := fun _ p ↦ .ok (p.1, (p.2.expect (.symbol .eof)).env)) fun p ↦
    .const (Except.ok p)
  have hpure : (e.value functions { env with lastError := none } >>= fun p ↦ Except.ok p) =
    e.value functions { env with lastError := none } := bind_pure _
  rwa [hpure] at hread

/-- Whole numbers in the place of `float`. -/
@[reducible] def wholeNumbers : Arithmetic ℤ where
  zero := .ofNat 0
  ofInt x := x
  toInt x := BitVec.ofInt 32 x
  toSize x := UInt64.ofNat x.toNat
  lt a b := a < b
  le a b := a ≤ b
  eq a b := a = b

/-- `-A+2*3` with five for `A`. -/
theorem expression_read_sum :
    letI := wholeNumbers
    let a : VariableName := ⟨[65], by decide⟩
    let env : Environment ℤ Unit := (Environment.init ()).setNumeric a.text 5
    Settles (fun n ↦ evaluate [] n [.symbol .minus, .variableNumber a, .symbol .plus, .number 2,
      .symbol .multiply, .number 3] env) (.ok (1, env)) := by
  let _ := wholeNumbers
  intro a env
  have hget : env.getNumeric a.text = .ok (5, env) := by
    simp [env, Environment.getNumeric, Environment.setNumeric]
  have hfits : NumberExpr.WellFormed ([] : List (BasicFunction ℤ Unit))
      (.sum .plus (.sign true (.variable a)) (.product .multiply (.literal 2) (.literal 3))) :=
    ⟨trivial, trivial, trivial⟩
  have hread := (expression_read _ hfits).2 env
  have hvalue : NumberExpr.value [] (.sum .plus (.sign true (.variable a))
      (.product .multiply (.literal 2) (.literal 3))) { env with lastError := none } =
        .ok (1, env) := by
    change NumberExpr.value [] _ env = _
    simp only [NumberExpr.value, hget]
    rfl
  rwa [hvalue] at hread

end Chino
