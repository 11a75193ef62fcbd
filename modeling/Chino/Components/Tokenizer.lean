import Chino.Components.Parser
import Mathlib.Data.List.Infix
import Mathlib.Data.List.TakeWhile

/-!
# The tokens of a line

`components/basic/src/tokenizer.c`.  The tokenizer looks for a number, then for a string, then for
the first registered name that the text begins with, and then for the name of a variable; blanks in
front of a token are skipped.  Registered names are found inside of longer words: `TOTAL` is `TO`
and a variable.

`Written` says how a list of tokens can be written, with blanks between them or without where that
is clear.  `getTokens_eq_iff`: the tokenizer returns these tokens and then `T_EOF` for the texts
that are written so, and for no others; behind a blank at the end of a text it finds an error.

A text has no terminator here, and `sscanf` is a parameter.

## Buffers

A name is copied to a buffer of eight bytes and a string to one of 64, with their terminators, and
neither length is checked.  A longer one is written behind the buffer, and there is no result then:
names have at most 7 characters, strings at most 63.

## The proof

`Spells` has a constructor for each kind of token, with what must not follow for the token to end
there: a digit or a dot behind a number, a name character behind a name.  Registered names need no
such condition, as none of them begins another one (`registered_apart`).  In one direction each
constructor is a run of the code; in the other the code's four attempts are taken one after the
other, and the one that succeeds gives the constructor.

The names are registered by `tokenizer_setup` and `basic_init`, in this order; `registered` is the
list.
-/

set_option autoImplicit false

namespace Chino

namespace Tokenizer

/-- The characters of a string literal of the source. -/
def bytes (s : String) : Text := s.toList.map fun c ↦ Fin.ofNat 256 c.toNat

/-- `isspace` -/
def isSpace (c : Byte) : Bool := c = 32 || 9 ≤ c && c ≤ 13

/-- `isdigit` -/
def isDigit (c : Byte) : Bool := 48 ≤ c && c ≤ 57

/-- A digit or a dot. -/
def isNumberChar (c : Byte) : Bool := isDigit c || c = 46

/-- `isvarchar` -/
def isVarChar (c : Byte) : Bool := 65 ≤ c && c ≤ 90 || c = 36 || isDigit c

/-- The character that strings stand between. -/
def quote : Byte := 34

/-- The character that the name of a string variable ends with. -/
def dollar : Byte := 36

/-- The names of the tokens in the order in which `tokenizer_setup` and `basic_init` register
them. -/
def registered : List (Text × Symbol) :=
  [("+", .plus), ("-", .minus), ("*", .multiply), ("/", .divide), ("(", .leftBanana),
    (")", .rightBanana), (":", .colon), (";", .semicolon), ("=", .equals), ("<", .less),
    (">", .greater), (",", .comma)].map (Prod.map bytes id) ++
  ["LIST", "CLEAR", "NEW", "GOTO", "ON", "GOSUB", "RETURN", "RUN", "IF", "THEN", "FOR", "TO",
    "STEP", "NEXT", "END", "STOP", "REM", "DIM", "DATA", "READ", "RESTORE", "LOAD", "SAVE",
    "DELETE", "DIR", "LET", "INPUT", "GET"].zipIdx.map (Prod.map bytes .keyword) ++
  [(bytes "OR", .opOr), (bytes "AND", .opAnd)] ++
  (["PRINT", "?", "SPC", "TAB", "CLS", "ABS", "SIN", "COS", "RND", "INT", "TAN", "SQR", "SGN",
    "LOG", "EXP", "POW", "ATN", "NOT", "LEN", "CHR$", "MID$", "LEFT$", "RIGHT$", "ASC", "VAL",
    "STR$", "SLEEP", "DUMP"].zipIdx 30).map (Prod.map bytes .keyword)

/-- `_find_registered` -/
def findRegistered (p : Text) : Option (Symbol × Text) :=
  (registered.find? fun e ↦ e.1.isPrefixOf p).map fun e ↦ (e.2, p.drop e.1.length)

section

variable {F : Type} (scan : Text → Option F)

/-- `tokenizer_get_next_token` behind the blanks: the token and the text behind it, or `none` where
it writes behind a buffer (with a name, where an array of that name does) or there is no number. -/
def readToken (p : Text) : Option (Lexeme F × Text) :=
  if isNumberChar (p.headD 0) then
    (scan (p.takeWhile isNumberChar)).map fun x ↦ (.number x, p.dropWhile isNumberChar)
  else if p.headD 0 = quote then
    let text := p.tail.takeWhile (· ≠ quote)
    if text.length > 80 then some (.symbol .error, p.tail)
    else if text.length > 63 then none
    else some (.string text, (p.tail.dropWhile (· ≠ quote)).tail)
  else match findRegistered p with
    | some (t, rest) => some (.symbol t, rest)
    | none =>
      let name := p.takeWhile isVarChar
      if name.length > 8 ∨ name = [] then some (.symbol .error, p)
      else if h : name.length + 1 ≤ 8 then
        some (if name.getLast? = some dollar then .variableString ⟨name, h⟩
          else .variableNumber ⟨name, h⟩, p.dropWhile isVarChar)
      else none

/-- `tokenizer_get_next_token` -/
def getNextToken (p : Text) : Option (Lexeme F × Text) :=
  if p = [] then some (.symbol .eof, p) else readToken scan (p.dropWhile isSpace)

/-- The tokens that so many calls return. -/
def getTokens : ℕ → Text → Option (List (Lexeme F))
  | 0, _ => some []
  | n + 1, p => do
    let (l, rest) ← getNextToken scan p
    let ls ← getTokens n rest
    some (l :: ls)

/-! ## Texts of tokens -/

/-- A name that the tokenizer takes for one. -/
structure IsName (text : Text) : Prop where
  ne_nil : text ≠ []
  chars : ∀ c ∈ text, isVarChar c = true
  head : isDigit (text.headD 0) = false
  unregistered : ∀ e ∈ registered, ¬e.1 <+: text

/-- The text is one for the token, in front of `rest`. -/
inductive Spells : Lexeme F → Text → Text → Prop where
  | number {x : F} {text rest : Text} (hne : text ≠ [])
      (hchars : ∀ c ∈ text, isNumberChar c = true) (hscan : scan text = some x)
      (hrest : isNumberChar (rest.headD 0) = false) : Spells (.number x) text rest
  | string {text rest : Text} (hlength : text.length ≤ 63) (hquote : quote ∉ text) :
      Spells (.string text) (quote :: (text ++ [quote])) rest
  /-- The quote is missing at the end of the line. -/
  | openString {text : Text} (hlength : text.length ≤ 63) (hquote : quote ∉ text) :
      Spells (.string text) (quote :: text) []
  | symbol {t : Symbol} {text rest : Text} (h : (text, t) ∈ registered) :
      Spells (.symbol t) text rest
  | variableNumber {name : VariableName} {rest : Text} (h : IsName name.text)
      (hlast : name.text.getLast? ≠ some dollar) (hrest : isVarChar (rest.headD 0) = false) :
      Spells (.variableNumber name) name.text rest
  | variableString {name : VariableName} {rest : Text} (h : IsName name.text)
      (hlast : name.text.getLast? = some dollar) (hrest : isVarChar (rest.headD 0) = false) :
      Spells (.variableString name) name.text rest

/-- The text consists of these tokens, with blanks in front of them. -/
inductive Written : List (Lexeme F) → Text → Prop where
  | nil : Written [] []
  | cons {l : Lexeme F} {ls : List (Lexeme F)} {blanks text rest : Text}
      (hblanks : ∀ c ∈ blanks, isSpace c = true) (h : Spells scan l text rest)
      (hrest : Written ls rest) : Written (l :: ls) (blanks ++ (text ++ rest))

/-! ## Words and registered names -/

variable {scan} {l : Lexeme F} {ls : List (Lexeme F)} {p : Byte → Bool}
  {blanks text word rest : Text}

theorem takeWhile_word (hword : ∀ c ∈ word, p c = true) (hrest : p (rest.headD 0) = false) :
    (word ++ rest).takeWhile p = word ∧ (word ++ rest).dropWhile p = rest := by
  rw [List.takeWhile_append_of_pos hword, List.dropWhile_append_of_pos hword]
  rcases rest with _ | ⟨c, rest⟩
  · simp
  · have hc : p c = false := hrest
    simp [hc]

/-- A word ends in front of something else. -/
theorem headD_dropWhile (hzero : p 0 = false) (text : Text) :
    p ((text.dropWhile p).headD 0) = false := by
  induction text with
  | nil => exact hzero
  | cons c text ih =>
    rcases hc : p c with _ | _
    · rwa [List.dropWhile_cons_of_neg (ne_true_of_eq_false hc)]
    · rwa [List.dropWhile_cons_of_pos hc]

theorem takeWhile_ne_nil (h : p (text.headD 0) = true) (hzero : p 0 = false) :
    text.takeWhile p ≠ [] := by
  rcases text with _ | ⟨c, text⟩
  · rw [List.headD_nil, hzero] at h
    cases h
  · rw [List.takeWhile_cons_of_pos (a := c) h]
    exact List.cons_ne_nil c _

theorem headD_append (hne : text ≠ []) : (text ++ rest).headD 0 = text.headD 0 := by
  obtain ⟨c, text, rfl⟩ := List.exists_cons_of_ne_nil hne
  rfl

theorem headD_mem (hne : text ≠ []) : text.headD 0 ∈ text := by
  obtain ⟨c, text, rfl⟩ := List.exists_cons_of_ne_nil hne
  exact List.mem_cons_self

/-- The registered names are no prefixes of one another. -/
theorem registered_apart : ∀ e ∈ registered, ∀ f ∈ registered, e.1 <+: f.1 → e = f := by
  decide +kernel

theorem registered_chars : ∀ e ∈ registered,
    e.1.length = 1 ∨ ∀ c ∈ e.1, isVarChar c = true := by
  -- `List.all` is decided in a fraction of the time
  have hall : ∀ e ∈ registered, e.1.length = 1 ∨ e.1.all isVarChar = true := by
    decide +kernel
  exact fun e he ↦ (hall e he).imp_right List.all_eq_true.mp

theorem registered_head : ∀ e ∈ registered, e.1 ≠ [] ∧ isNumberChar (e.1.headD 0) = false ∧
    e.1.headD 0 ≠ quote ∧ isSpace (e.1.headD 0) = false := by
  decide +kernel

theorem registered_symbol : ∀ e ∈ registered, e.2 ≠ .error ∧ e.2 ≠ .eof := by
  decide +kernel

theorem findRegistered_eq_none :
    findRegistered text = none ↔ ∀ e ∈ registered, ¬e.1 <+: text := by
  simp [findRegistered]

theorem mem_of_findRegistered {t : Symbol} (h : findRegistered text = some (t, rest)) :
    ∃ name, (name, t) ∈ registered ∧ text = name ++ rest := by
  obtain ⟨e, hfind, he⟩ := Option.map_eq_some_iff.mp h
  have hfound := List.find?_some hfind
  obtain ⟨tail, htail⟩ := List.isPrefixOf_iff_prefix.mp hfound
  rw [← htail, List.drop_left] at he
  cases he
  exact ⟨e.1, List.mem_of_find?_eq_some hfind, htail.symm⟩

theorem findRegistered_symbol {t : Symbol} (h : (text, t) ∈ registered) (rest : Text) :
    findRegistered (text ++ rest) = some (t, rest) := by
  have htext := List.prefix_append text rest
  rcases hfind : findRegistered (text ++ rest) with _ | ⟨u, tail⟩
  · exact absurd htext (findRegistered_eq_none.mp hfind _ h)
  · obtain ⟨name, hname, heq⟩ := mem_of_findRegistered hfind
    have hsame : (name, u) = (text, t) := by
      rcases List.prefix_or_prefix_of_prefix (heq ▸ List.prefix_append name tail) htext
        with hpre | hpre
      · exact registered_apart _ hname _ h hpre
      · exact (registered_apart _ h _ hname hpre).symm
    cases hsame
    rw [List.append_cancel_left heq]

/-- A registered name in front would be a prefix of the name or longer than it, and then go on with
what follows the name. -/
theorem findRegistered_name (h : IsName text) (hrest : isVarChar (rest.headD 0) = false) :
    findRegistered (text ++ rest) = none := by
  refine findRegistered_eq_none.mpr fun e he hpre ↦ ?_
  rcases List.prefix_or_prefix_of_prefix hpre (List.prefix_append text rest) with hin | hout
  · exact h.unregistered e he hin
  · obtain ⟨more, hmore⟩ := hout
    rcases more with _ | ⟨c, more⟩
    · exact h.unregistered e he (by rw [← hmore, List.append_nil])
    · rw [← hmore, List.prefix_append_right_inj] at hpre
      obtain ⟨tail, rfl⟩ := hpre
      have hlength : e.1.length ≠ 1 := by
        have := List.length_pos_iff.mpr h.ne_nil
        rw [← hmore, List.length_append, List.length_cons]
        omega
      have hc := ((registered_chars e he).resolve_left hlength) c (by rw [← hmore]; simp)
      rw [List.cons_append, List.headD_cons, hc] at hrest
      cases hrest

/-! ## Reading what was written -/

theorem readToken_number {x : F} (hne : text ≠ [])
    (hchars : ∀ c ∈ text, isNumberChar c = true) (hscan : scan text = some x)
    (hrest : isNumberChar (rest.headD 0) = false) :
    readToken scan (text ++ rest) = some (.number x, rest) := by
  obtain ⟨htake, hdrop⟩ := takeWhile_word hchars hrest
  rw [readToken, headD_append hne, if_pos (hchars _ (headD_mem hne)), htake, hdrop, hscan,
    Option.map_some]

theorem readToken_string (hlength : text.length ≤ 63) (hquote : quote ∉ text)
    (hrest : decide (rest.headD quote ≠ quote) = false) :
    readToken scan (quote :: (text ++ rest)) = some (.string text, rest.tail) := by
  have hword : ∀ c ∈ text, decide (c ≠ quote) = true := fun c hc ↦
    decide_eq_true fun hcq ↦ hquote (hcq ▸ hc)
  have htake : (text ++ rest).takeWhile (· ≠ quote) = text ∧
      (text ++ rest).dropWhile (· ≠ quote) = rest := by
    rw [List.takeWhile_append_of_pos hword, List.dropWhile_append_of_pos hword]
    rcases rest with _ | ⟨c, rest⟩
    · simp
    · have hc : c = quote := by simpa using hrest
      simp [hc]
  rw [readToken, List.headD_cons, if_neg (by decide), if_pos rfl, List.tail_cons, htake.1, htake.2]
  simp only
  rw [if_neg (by omega), if_neg (by omega)]

theorem readToken_symbol {t : Symbol} (h : (text, t) ∈ registered) (rest : Text) :
    readToken scan (text ++ rest) = some (.symbol t, rest) := by
  obtain ⟨hne, hnumber, hquote, -⟩ :
      text ≠ [] ∧ isNumberChar (text.headD 0) = false ∧ text.headD 0 ≠ quote ∧ _ :=
    registered_head _ h
  rw [readToken, headD_append hne, if_neg (ne_true_of_eq_false hnumber), if_neg hquote,
    findRegistered_symbol h]

theorem readToken_name {name : VariableName} (h : IsName name.text)
    (hrest : isVarChar (rest.headD 0) = false) :
    readToken scan (name.text ++ rest) =
      some (if name.text.getLast? = some dollar then .variableString name
        else .variableNumber name, rest) := by
  obtain ⟨htake, hdrop⟩ := takeWhile_word h.chars hrest
  have hvar := h.chars _ (headD_mem h.ne_nil)
  have hnumber : isNumberChar (name.text.headD 0) ≠ true := by
    rw [isNumberChar, h.head, Bool.false_or]
    intro hdot
    rw [of_decide_eq_true hdot] at hvar
    exact absurd hvar (by decide)
  have hquote : name.text.headD 0 ≠ quote := by
    intro hq
    rw [hq] at hvar
    exact absurd hvar (by decide)
  have hfits := name.fits
  rw [readToken, headD_append h.ne_nil, if_neg hnumber, if_neg hquote,
    findRegistered_name h hrest, htake, hdrop]
  simp only
  rw [if_neg (by simp [h.ne_nil]; omega), dif_pos hfits]

theorem isSpace_of_isNumberChar : ∀ c, isNumberChar c = true → isSpace c = false := by
  decide +kernel

theorem isSpace_of_isVarChar : ∀ c, isVarChar c = true → isSpace c = false := by
  decide +kernel

/-- A token is not empty and does not begin with a blank. -/
theorem Spells.head (h : Spells scan l text rest) :
    text ≠ [] ∧ isSpace (text.headD 0) = false := by
  rcases h with ⟨hne, hchars, -⟩ | ⟨-, -⟩ | ⟨-, -⟩ | h | ⟨h, -, -⟩ | ⟨h, -, -⟩
  · exact ⟨hne, isSpace_of_isNumberChar _ (hchars _ (headD_mem hne))⟩
  · exact ⟨nofun, rfl⟩
  · exact ⟨nofun, rfl⟩
  · exact ⟨(registered_head _ h).1, (registered_head _ h).2.2.2⟩
  · exact ⟨h.ne_nil, isSpace_of_isVarChar _ (h.chars _ (headD_mem h.ne_nil))⟩
  · exact ⟨h.ne_nil, isSpace_of_isVarChar _ (h.chars _ (headD_mem h.ne_nil))⟩

/-- Neither an error nor the end. -/
def IsProper (l : Lexeme F) : Prop := l ≠ .symbol .error ∧ l ≠ .symbol .eof

theorem Spells.isProper (h : Spells scan l text rest) : IsProper l := by
  rcases h with - | - | - | h | - | -
  case symbol =>
    obtain ⟨herror, heof⟩ := registered_symbol _ h
    exact ⟨fun ht ↦ herror (by injection ht), fun ht ↦ heof (by injection ht)⟩
  all_goals exact ⟨nofun, nofun⟩

theorem Spells.readToken (h : Spells scan l text rest) :
    readToken scan (text ++ rest) = some (l, rest) := by
  rcases h with ⟨hne, hchars, hscan, hrest⟩ | ⟨hlength, hquote⟩ | ⟨hlength, hquote⟩ | h |
    ⟨h, hlast, hrest⟩ | ⟨h, hlast, hrest⟩
  · exact readToken_number hne hchars hscan hrest
  · rw [List.cons_append, List.append_assoc]
    exact readToken_string hlength hquote (by simp)
  · exact readToken_string hlength hquote (by simp)
  · exact readToken_symbol h rest
  · rw [readToken_name h hrest, if_neg hlast]
  · rw [readToken_name h hrest, if_pos hlast]

theorem Spells.getNextToken (h : Spells scan l text rest)
    (hblanks : ∀ c ∈ blanks, isSpace c = true) :
    getNextToken scan (blanks ++ (text ++ rest)) = some (l, rest) := by
  obtain ⟨hne, hspace⟩ := h.head
  have hdrop : (blanks ++ (text ++ rest)).dropWhile isSpace = text ++ rest :=
    (takeWhile_word hblanks (by rwa [headD_append hne])).2
  rw [Tokenizer.getNextToken, if_neg (by simp [hne]), hdrop, h.readToken]

/-! ## Only that is read -/

theorem Spells.of_quote (hlength : (text.takeWhile (· ≠ quote)).length ≤ 63) :
    ∃ word, quote :: text = word ++ (text.dropWhile (· ≠ quote)).tail ∧
      Spells scan (.string (text.takeWhile (· ≠ quote))) word (text.dropWhile (· ≠ quote)).tail := by
  have hquote : quote ∉ text.takeWhile (· ≠ quote) := by
    intro hmem
    simpa using List.mem_takeWhile_imp hmem
  have hsplit := List.takeWhile_append_dropWhile (p := (· ≠ quote)) (l := text)
  have hhead := List.head?_dropWhile_not (· ≠ quote) text
  rcases hdrop : text.dropWhile (· ≠ quote) with _ | ⟨c, rest⟩
  · rw [hdrop, List.append_nil] at hsplit
    refine ⟨quote :: text.takeWhile (· ≠ quote), ?_, .openString hlength hquote⟩
    rw [hsplit, List.tail_nil, List.append_nil]
  · rw [hdrop] at hsplit hhead
    have hc : c = quote := by simpa using hhead
    refine ⟨quote :: (text.takeWhile (· ≠ quote) ++ [quote]), ?_, .string hlength hquote⟩
    rw [hc] at hsplit
    rw [List.tail_cons, List.cons_append, List.append_assoc, List.singleton_append, hsplit]

/-- Where no name is registered, the longest word is a name. -/
theorem IsName.of_takeWhile (hfind : findRegistered text = none)
    (hnumber : isNumberChar (text.headD 0) ≠ true) (hne : text.takeWhile isVarChar ≠ []) :
    IsName (text.takeWhile isVarChar) where
  ne_nil := hne
  chars _ hc := List.mem_takeWhile_imp hc
  head := by
    have hsplit := List.takeWhile_append_dropWhile (p := isVarChar) (l := text)
    rw [← hsplit, headD_append hne, isNumberChar, ne_eq, Bool.not_eq_true, Bool.or_eq_false_iff]
      at hnumber
    exact hnumber.1
  unregistered e he hpre :=
    findRegistered_eq_none.mp hfind e he (hpre.trans (List.takeWhile_prefix isVarChar))

theorem Spells.of_name (name : VariableName) (h : IsName name.text)
    (hrest : isVarChar (rest.headD 0) = false) :
    Spells scan (if name.text.getLast? = some dollar then .variableString name
      else .variableNumber name) name.text rest := by
  by_cases hlast : name.text.getLast? = some dollar
  · rw [if_pos hlast]
    exact .variableString h hlast hrest
  · rw [if_neg hlast]
    exact .variableNumber h hlast hrest

theorem Spells.of_readToken (h : Tokenizer.readToken scan text = some (l, rest))
    (hl : l ≠ .symbol .error) : ∃ word, text = word ++ rest ∧ Spells scan l word rest := by
  rw [Tokenizer.readToken] at h
  by_cases hnumber : isNumberChar (text.headD 0) = true
  · rw [if_pos hnumber] at h
    obtain ⟨x, hscan, hx⟩ := Option.map_eq_some_iff.mp h
    cases hx
    exact ⟨text.takeWhile isNumberChar, List.takeWhile_append_dropWhile.symm,
      .number (takeWhile_ne_nil hnumber rfl) (fun c hc ↦ List.mem_takeWhile_imp hc) hscan
        (headD_dropWhile rfl text)⟩
  rw [if_neg hnumber] at h
  by_cases hquote : text.headD 0 = quote
  · rw [if_pos hquote] at h
    rcases text with _ | ⟨c, text⟩
    · exact absurd hquote (by decide)
    obtain rfl : c = quote := hquote
    dsimp only [List.tail_cons] at h
    split_ifs at h with herror hlength
    · cases h
      exact absurd rfl hl
    · cases h
      exact Spells.of_quote (Nat.le_of_not_lt hlength)
  rw [if_neg hquote] at h
  rcases hfind : findRegistered text with _ | ⟨t, tail⟩
  · rw [hfind] at h
    dsimp only at h
    by_cases herror : (text.takeWhile isVarChar).length > 8 ∨ text.takeWhile isVarChar = []
    · rw [if_pos herror] at h
      cases h
      exact absurd rfl hl
    rw [if_neg herror] at h
    by_cases hfits : (text.takeWhile isVarChar).length + 1 ≤ 8
    · rw [dif_pos hfits] at h
      cases h
      obtain ⟨-, hne⟩ := not_or.mp herror
      exact ⟨text.takeWhile isVarChar, List.takeWhile_append_dropWhile.symm,
        .of_name ⟨_, hfits⟩ (.of_takeWhile hfind hnumber hne) (headD_dropWhile rfl text)⟩
    · rw [dif_neg hfits] at h
      cases h
  · rw [hfind] at h
    cases h
    obtain ⟨name, hname, htext⟩ := mem_of_findRegistered hfind
    exact ⟨name, htext, .symbol hname⟩

/-! ## The tokens of a line -/

theorem Spells.of_getNextToken (hne : text ≠ [])
    (h : Tokenizer.getNextToken scan text = some (l, rest))
    (hl : l ≠ .symbol .error) : ∃ blanks word, text = blanks ++ (word ++ rest) ∧
      (∀ c ∈ blanks, isSpace c = true) ∧ Spells scan l word rest := by
  rw [Tokenizer.getNextToken, if_neg hne] at h
  obtain ⟨word, hword, hspells⟩ := Spells.of_readToken h hl
  refine ⟨text.takeWhile isSpace, word, ?_, fun c hc ↦ List.mem_takeWhile_imp hc, hspells⟩
  rw [← hword, List.takeWhile_append_dropWhile]

theorem getTokens_succ (n : ℕ) (text : Text) : getTokens scan (n + 1) text =
    (getNextToken scan text).bind fun p ↦ (getTokens scan n p.2).map (p.1 :: ·) := by
  rw [getTokens]
  rcases getNextToken scan text with _ | ⟨l, rest⟩
  · rfl
  · rcases h : getTokens scan n rest with _ | ls <;> simp [h]

theorem Written.getTokens (h : Written scan ls text) :
    getTokens scan (ls.length + 1) text = some (ls ++ [.symbol .eof]) := by
  induction h with
  | nil => rfl
  | cons hblanks h _ ih =>
    rw [List.length_cons, getTokens_succ, h.getNextToken hblanks, Option.bind_some, ih,
      Option.map_some, List.cons_append]

theorem Written.isProper (h : Written scan ls text) : ∀ l ∈ ls, IsProper l := by
  induction h with
  | nil => exact nofun
  | cons _ h _ ih =>
    rw [List.forall_mem_cons]
    exact ⟨h.isProper, ih⟩

theorem Written.of_getTokens (hls : ∀ l ∈ ls, IsProper l)
    (h : Tokenizer.getTokens scan (ls.length + 1) text = some (ls ++ [.symbol .eof])) :
    Written scan ls text := by
  induction ls generalizing text with
  | nil =>
    rw [List.length_nil, getTokens_succ] at h
    obtain ⟨⟨l, rest⟩, hnext, hmore⟩ := Option.bind_eq_some_iff.mp h
    cases hmore
    by_cases hne : text = []
    · rw [hne]
      exact .nil
    · obtain ⟨_, _, -, -, hspells⟩ := Spells.of_getNextToken hne hnext nofun
      exact absurd rfl hspells.isProper.2
  | cons l ls ih =>
    obtain ⟨hl, hmore⟩ := List.forall_mem_cons.mp hls
    rw [List.length_cons, getTokens_succ] at h
    obtain ⟨⟨l', rest⟩, hnext, htokens⟩ := Option.bind_eq_some_iff.mp h
    obtain ⟨ls', hrest, hcons⟩ := Option.map_eq_some_iff.mp htokens
    cases hcons
    have hne : text ≠ [] := by
      rintro rfl
      cases hnext
      exact hl.2 rfl
    obtain ⟨blanks, word, rfl, hblanks, hspells⟩ := Spells.of_getNextToken hne hnext hl.1
    exact .cons hblanks hspells (ih hmore hrest)

/-- **The tokenizer reads what the line says.**  It returns these tokens, without an error, and then
`T_EOF`, exactly where the line is written with them. -/
theorem getTokens_eq_iff (ls : List (Lexeme F)) (text : Text) :
    (getTokens scan (ls.length + 1) text = some (ls ++ [.symbol .eof]) ∧ ∀ l ∈ ls, IsProper l) ↔
      Written scan ls text :=
  ⟨fun h ↦ .of_getTokens h.2 h.1, fun h ↦ ⟨h.getTokens, h.isProper⟩⟩

end

end Tokenizer

end Chino
