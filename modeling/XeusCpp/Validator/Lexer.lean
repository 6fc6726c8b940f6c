/-
# XeusCpp.Validator.Lexer — the lexer of the input validator (`src/xinput_validator.cpp`).

`xlexer` is a raw `const char*` moved over the characters of a `std::string` and its terminating
NUL. The cursor is an offset into the text, and reading through it is partial: `readAt` is defined
on the characters and on the terminator behind them, and on nothing else. Each routine returns its
token and the cursor it leaves, `none` when it reads outside the text; so a result of the form
`some _` says that every character the routine looked at lies in `[0, code.length]`.

The routines that move the cursor over a run of characters (blanks, a raw word, the rest of a line,
digits, an identifier) differ in the characters of the run only: they are `readWhile` at their own
class.
-/
import XeusCpp.Text.Bytes

namespace XeusCpp.Validator

open XeusCpp.Text

/-! ## Tokens -/

/-- `token_kind`; the order of the enumerators matters, see `Token.closesBrace`. -/
inductive TokenKind where
  | lSquare | rSquare | lParen | rParen | lBrace | rBrace
  | stringlit | charlit | comma | dot | exclMark | questMark | slash | backslash
  | less | greater | ampersand | hash | ident | rawIdent
  | comment | lComment | rComment | space | constant | at | asterik | semicolon
  | eof | unknown
  deriving DecidableEq, Repr, Inhabited

/-- `as_int`: the position of the enumerator. -/
def asInt (k : TokenKind) : Nat := k.ctorIdx

/-- `token`. The buffer pointer is an offset into the text the token was lexed from; the default
token's null pointer, with length 0, is offset 0. -/
structure Token where
  kind : TokenKind := .unknown
  buffer : Nat := 0
  length : Nat := 0
  deriving DecidableEq, Repr

/-- `token::identifier`: the characters `[buffer, buffer + length)`. -/
def Token.identifier (t : Token) (code : Str) : Str := (code.drop t.buffer).take t.length

/-- `token::closes_brace`: a closing bracket closes `k` when `k` is the enumerator just before it. -/
def Token.closesBrace (t : Token) (k : TokenKind) : Bool :=
  (t.kind == .rSquare || t.kind == .rParen || t.kind == .rBrace) && asInt t.kind == asInt k + 1

/-! ## Character classes -/

def isAlpha (c : Byte) : Bool := isalpha c

def isDigit (c : Byte) : Bool := isdigit c

def isPunctuator (c : Byte) : Bool :=
  c ∈ lit "[](){}\\,.!?<>&#@;"

def isQuotedString (c : Byte) : Bool := c == '"' || c == '\''

def isWhitespace (c : Byte) : Bool := c == ' ' || c == '\t'

/-- The characters of an identifier after its first. -/
def isIdentChar (c : Byte) : Bool := isAlpha c || isDigit c || c == '_'

/-- The characters `lex_any_string` moves over: all but blanks and the terminator. -/
def isRawChar (c : Byte) : Bool := c != ' ' && c != '\t' && c != 0

/-- The characters `read_to_end_of_line` moves over. -/
def isLineChar (c : Byte) : Bool := c != '\r' && c != '\n' && c != 0

/-! ## Reading -/

/-- `p[0]` for a cursor at offset `p`: the characters of the text, then its terminating NUL. -/
def readAt (code : Str) (p : Nat) : Option Byte := (code ++ [0])[p]?

theorem readAt_of_lt {code : Str} {p : Nat} (h : p < code.length) : readAt code p = some code[p] := by
  rw [readAt, List.getElem?_append_left h, List.getElem?_eq_getElem h]

@[simp] theorem readAt_length (code : Str) : readAt code code.length = some 0 := by
  simp [readAt]

/-- What is read lies in the text or is its terminator. -/
theorem le_of_readAt {code : Str} {p : Nat} {c : Byte} (h : readAt code p = some c) :
    p ≤ code.length := by
  have := (List.getElem?_eq_some_iff.mp h).1
  simp only [List.length_append, List.length_singleton] at this
  omega

/-- Moves the cursor over the longest run of characters in `P`. -/
def readWhile (P : Byte → Bool) (code : Str) (p : Nat) : Option Nat :=
  match _h : readAt code p with
  | none => none
  | some c => if P c then readWhile P code (p + 1) else some p
termination_by code.length + 1 - p
decreasing_by have := le_of_readAt _h; omega

/-! ## The routines of `xlexer` -/

/-- `xlexer::skip_whitespace`: the number of blanks skipped, and the cursor behind them. -/
def skipWhitespace (code : Str) (p : Nat) : Option (Nat × Nat) := do
  let q ← readWhile (fun c => isWhitespace c && c != 0) code p
  return (q - p, q)

/-- The loop of `lex_quoted_string`, for the quote `q`: it ends behind the first `q` that is not
escaped. It does not look for the terminator. -/
def quotedLoop (code : Str) (q : Byte) (p : Nat) : Option Nat :=
  match _h : readAt code p with
  | none => none
  | some c =>
    if c = '\\' then quotedLoop code q (p + 2)
    else if c = q then some (p + 1)
    else quotedLoop code q (p + 1)
termination_by code.length + 1 - p
decreasing_by all_goals have := le_of_readAt _h; omega

/-- `xlexer::lex_quoted_string`. -/
def lexQuotedString (code : Str) (p : Nat) : Option (Token × Nat) := do
  let c ← readAt code p
  let e ← quotedLoop code c (p + 1)
  return (⟨if c = '"' then .stringlit else .charlit, p, e - p⟩, e)

/-- The `switch` of `lex_punctuator`. -/
def punctuatorKind (c : Byte) : TokenKind :=
  if c = '[' then .lSquare else if c = ']' then .rSquare
  else if c = '(' then .lParen else if c = ')' then .rParen
  else if c = '{' then .lBrace else if c = '}' then .rBrace
  else if c = ',' then .comma else if c = '.' then .dot
  else if c = '!' then .exclMark else if c = '?' then .questMark
  else if c = '/' then .slash else if c = '\\' then .backslash
  else if c = '<' then .less else if c = '>' then .greater
  else if c = '@' then .at else if c = '&' then .ampersand
  else if c = '#' then .hash else if c = '*' then .asterik
  else if c = ';' then .semicolon else .unknown

/-- `xlexer::lex_punctuator`. -/
def lexPunctuator (code : Str) (p : Nat) : Option (Token × Nat) := do
  let c ← readAt code p
  return (⟨punctuatorKind c, p, 1⟩, p + 1)

/-- `xlexer::lex_left_comment`. -/
def lexLeftComment (code : Str) (p : Nat) : Option (Token × Nat) := do
  let d ← readAt code (p + 1)
  return (⟨if d = '/' then .comment else .lComment, p, 2⟩, p + 1 + 1)

/-- `xlexer::lex_right_comment`: the token has length 2, the cursor moves by one. -/
def lexRightComment (_code : Str) (p : Nat) : Option (Token × Nat) :=
  some (⟨.rComment, p, 2⟩, p + 1)

/-- `xlexer::lex_constant`. -/
def lexConstant (code : Str) (p : Nat) : Option (Token × Nat) := do
  let e ← readWhile isDigit code p
  return (⟨.constant, p, e - p⟩, e)

/-- `xlexer::lex_identifier`. -/
def lexIdentifier (code : Str) (p : Nat) : Option (Token × Nat) := do
  let e ← readWhile isIdentChar code p
  return (⟨.ident, p, e - p⟩, e)

/-- `xlexer::lex_whitespace`. -/
def lexWhitespace (code : Str) (p : Nat) : Option (Token × Nat) := do
  let (_, e) ← skipWhitespace code p
  return (⟨.space, p, e - p⟩, e)

/-- `xlexer::lex`. -/
def lex (code : Str) (p : Nat) : Option (Token × Nat) := do
  let c ← readAt code p
  if isQuotedString c then lexQuotedString code p
  else if isPunctuator c then lexPunctuator code p
  else if c = '/' then
    let d ← readAt code (p + 1)
    if d = '/' || d = '*' then lexLeftComment code p else lexPunctuator code p
  else if c = '*' then
    let d ← readAt code (p + 1)
    if d = '/' then lexRightComment code p else lexPunctuator code p
  else if isDigit c then lexConstant code p
  else if isAlpha c || c == '_' then lexIdentifier code p
  else if isWhitespace c then lexWhitespace code p
  else if c = 0 then some (⟨.eof, p, 1⟩, p + 1)
  else some (⟨.unknown, p, 0⟩, p + 1)

/-- `xlexer::lex_any_string`: the word of a preprocessor directive. -/
def lexAnyString (code : Str) (p : Nat) : Option (Token × Nat) := do
  let c ← readAt code p
  if c = 0 then some (⟨.eof, p, 0⟩, p)
  else
    let e ← readWhile isRawChar code p
    return (⟨.rawIdent, p, e - p⟩, e)

/-- `xlexer::read_to_end_of_line`. -/
def readToEndOfLine (code : Str) (p : Nat) : Option (Token × Nat) := do
  let e ← readWhile isLineChar code p
  return (⟨.unknown, p, e - p⟩, e)

/-! ## Runs end at the terminator -/

/-- A class without NUL is left at the first character outside it: `readWhile` reads no further
than the terminator. -/
theorem readWhile_eq {P : Byte → Bool} (hP : P 0 = false) {code : Str} {p : Nat}
    (hp : p ≤ code.length) :
    readWhile P code p = some (p + ((code.drop p).takeWhile P).length) := by
  induction hn : code.length - p generalizing p with
  | zero =>
      -- at the end the terminator is read, which is in no such class
      have hpl : p = code.length := by omega
      subst hpl
      rw [readWhile]
      split
      · rename_i h; simp at h
      · rename_i c h
        rw [readAt_length, Option.some.injEq] at h
        simp [← h, hP]
  | succ n ih =>
      have hlt : p < code.length := by omega
      rw [readWhile]
      split
      · rename_i h; rw [readAt_of_lt hlt] at h; exact absurd h (by simp)
      · rename_i c h
        rw [readAt_of_lt hlt, Option.some.injEq] at h
        rw [List.drop_eq_getElem_cons hlt, h]
        by_cases hc : P c = true
        · rw [if_pos hc, ih (by omega) (by omega), List.takeWhile_cons_of_pos hc,
            List.length_cons]
          congr 1; omega
        · rw [if_neg hc, List.takeWhile_cons_of_neg hc]
          simp

/-- The cursor behind a run stands on the text behind it. -/
theorem drop_add_takeWhile (P : Byte → Bool) (code : Str) (p : Nat) :
    code.drop (p + ((code.drop p).takeWhile P).length) = (code.drop p).dropWhile P := by
  rw [← List.drop_drop, drop_takeWhile_length]

end XeusCpp.Validator
