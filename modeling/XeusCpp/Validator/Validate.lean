/-
# XeusCpp.Validator.Validate — `xinput_validator::validate` (`src/xinput_validator.cpp`).

The validator drives the lexer over the text and keeps the stack of the constructs still open:
`[`, `(`, `{`, `/*`, a `#if` group (marker `hash`) and a pending template (marker `less`).
`m_parent_stack` is a list whose head is `back()`, and its entries are the enumerators themselves:
the deque holds `as_int` of them only.

`validate` is transcribed as it runs: the pre-scan for `template`, the loop with its `tok` and
`last_not_space_tok`, the final status. A `none` is an access the C++ code may not make, a read
outside the text or a `pop_back` on an empty deque.

The size of the indent is a `std::size_t`. `validateSized` computes it as one; `validate` computes it
as a number, and is the same call wherever that number is the length of a string
(`validateSized_eq_validate`).
-/
import XeusCpp.Validator.Lexeme

namespace XeusCpp.Validator

open XeusCpp.Text

/-- `validation_result`. -/
inductive ValidationResult where
  | incomplete | complete | mismatch
  deriving DecidableEq, Repr

/-- `to_string(validation_result)`. -/
def ValidationResult.toStr : ValidationResult → Str
  | .incomplete => lit "incomplete"
  | .complete => lit "complete"
  | .mismatch => lit "mismatch"

/-- `m_parent_stack`, `back()` first. -/
abbrev Stack := List TokenKind

/-- `pop_back`: not defined on an empty deque. -/
def popBack : Stack → Option Stack
  | [] => none
  | _ :: st => some st

/-- `xinput_validator::in_block_comment`. -/
def inBlockComment (st : Stack) : Bool := st.head? == some .lComment

/-- `xinput_validator::in_template`. -/
def inTemplate (st : Stack) : Bool := st.length == 1 && st.head? == some .less

/-- The state of `xinput_validator`. -/
structure XInputValidator where
  parentStack : Stack := []
  indent : Str := []
  deriving DecidableEq, Repr

/-- The locals of the loop of `validate`, with the cursor of `luthor` and the stack. -/
structure LoopState where
  currPos : Nat
  stack : Stack
  tok : Token := {}
  lastNotSpaceTok : Token := {}
  res : ValidationResult := .complete
  deriving DecidableEq, Repr

/-- The first lines of `validate`: with nothing open, a text that starts with the identifier
`template` opens a template. -/
def pushTemplate (st : Stack) (input : Str) : Option Stack :=
  if st.isEmpty then do
    let (_, p) ← skipWhitespace input 0
    let (tok, _) ← lex input p
    return if tok.kind = .ident ∧ tok.identifier input = lit "template" then .less :: st else st
  else some st

/-- `case r_square: case r_paren: case r_brace:`. -/
def caseClosing (s : LoopState) : Option LoopState :=
  let tos := s.stack.head?.getD .unknown
  if !s.tok.closesBrace tos then some { s with res := .mismatch }
  else do
    let st ← popBack s.stack
    -- '}' also pops the marker of the template it ends
    let st ← if s.tok.kind = .rBrace ∧ inTemplate st then popBack st else some st
    return { s with stack := st }

/-- The directive words that open a conditional group. -/
def opensGroup (pptk : Str) : Bool := pptk.take 2 == lit "if"

/-- The directive words that close one. -/
def closesGroup (pptk : Str) : Bool :=
  pptk.take 5 == lit "endif" && (pptk.length == 5 || pptk[5]? == some (('/' : Char) : Byte) || pptk[5]?.any isspace)

/-- `case token_kind::hash:`. -/
def caseHash (input : Str) (s : LoopState) : Option LoopState := do
  let (_, p) ← skipWhitespace input s.currPos
  let (tok, q) ← lexAnyString input p
  let s := { s with tok := tok, currPos := q }
  if tok.kind = .eof then return s
  let pptk := tok.identifier input
  if opensGroup pptk then return { s with stack := .hash :: s.stack }
  else if closesGroup pptk then
    if s.stack.isEmpty ∨ s.stack.head? ≠ some .hash then return { s with res := .mismatch }
    else return { s with stack := ← popBack s.stack }
  else return s

/-- The `switch` of the loop. -/
def switchTok (input : Str) (s : LoopState) : Option LoopState :=
  match s.tok.kind with
  | .comment => do
      let (tok, q) ← readToEndOfLine input s.currPos
      return { s with tok := tok, currPos := q }
  | .rComment =>
      if inBlockComment s.stack then do
        let st ← popBack s.stack
        return { s with stack := st }
      else some { s with res := .mismatch }
  | .lSquare | .lParen | .lBrace | .lComment => some { s with stack := s.tok.kind :: s.stack }
  | .rSquare | .rParen | .rBrace => caseClosing s
  | .semicolon =>
      if inTemplate s.stack then do
        let st ← popBack s.stack
        return { s with stack := st }
      else some s
  | .hash => caseHash input s
  | _ => some s

/-- One pass through the body of the loop. -/
def loopBody (input : Str) (s : LoopState) : Option LoopState := do
  let last := if s.tok.kind ≠ .space then s.tok else s.lastNotSpaceTok
  let (tok, q) ← lex input s.currPos
  let s := { s with tok := tok, currPos := q, lastNotSpaceTok := last }
  if inBlockComment s.stack ∧ tok.kind ≠ .rComment then return s
  switchTok input s

/-! ## The cursor moves on

`lex` moves the cursor by at least one character, and the other routines never move it back; so the
loop stops. -/

theorem le_of_readWhile {P : Byte → Bool} {code : Str} {p q : Nat}
    (h : readWhile P code p = some q) : p ≤ q := by
  fun_induction readWhile P code p with
  | case1 => exact absurd h (by simp)
  | case2 p c _ _ ih => have := ih h; omega
  | case3 => exact Nat.le_of_eq (Option.some.inj h)

theorem le_of_skipWhitespace {code : Str} {p n q : Nat} (h : skipWhitespace code p = some (n, q)) :
    p ≤ q := by
  simp only [skipWhitespace, Option.bind_eq_bind, Option.bind_eq_some_iff] at h
  obtain ⟨e, he, heq⟩ := h
  obtain ⟨-, rfl⟩ := Prod.mk.inj (Option.some.inj heq)
  exact le_of_readWhile he

theorem le_of_lexAnyString {code : Str} {p q : Nat} {tok : Token}
    (h : lexAnyString code p = some (tok, q)) : p ≤ q := by
  simp only [lexAnyString, Option.bind_eq_bind, Option.bind_eq_some_iff] at h
  obtain ⟨c, -, h⟩ := h
  split at h
  · exact Nat.le_of_eq (Prod.mk.inj (Option.some.inj h)).2
  · obtain ⟨e, he, heq⟩ := Option.bind_eq_some_iff.mp h
    obtain ⟨-, rfl⟩ := Prod.mk.inj (Option.some.inj heq)
    exact le_of_readWhile he

theorem le_of_readToEndOfLine {code : Str} {p q : Nat} {tok : Token}
    (h : readToEndOfLine code p = some (tok, q)) : p ≤ q := by
  simp only [readToEndOfLine, Option.bind_eq_bind, Option.bind_eq_some_iff] at h
  obtain ⟨e, he, heq⟩ := h
  obtain ⟨-, rfl⟩ := Prod.mk.inj (Option.some.inj heq)
  exact le_of_readWhile he

theorem le_of_caseHash {input : Str} {s s' : LoopState} (h : caseHash input s = some s') :
    s.currPos ≤ s'.currPos := by
  simp only [caseHash, Option.bind_eq_bind, Option.bind_eq_some_iff] at h
  obtain ⟨⟨n, p⟩, hp, ⟨tok, q⟩, hq, h⟩ := h
  have h1 := le_of_skipWhitespace hp
  have h2 := le_of_lexAnyString hq
  have h3 : s'.currPos = q := by
    simp only [Option.pure_def] at h
    split_ifs at h
    all_goals (try obtain rfl := Option.some.inj h)
    all_goals (try rfl)
    obtain ⟨st, -, heq⟩ := Option.bind_eq_some_iff.mp h
    obtain rfl := Option.some.inj heq
    rfl
  omega

theorem currPos_of_caseClosing {s s' : LoopState} (h : caseClosing s = some s') :
    s'.currPos = s.currPos := by
  simp only [caseClosing, Option.bind_eq_bind] at h
  split at h
  · rw [← Option.some.inj h]
  · obtain ⟨st, -, h⟩ := Option.bind_eq_some_iff.mp h
    split at h
    all_goals
      obtain ⟨st', -, heq⟩ := Option.bind_eq_some_iff.mp h
      rw [← Option.some.inj heq]

theorem le_of_switchTok {input : Str} {s s' : LoopState} (h : switchTok input s = some s') :
    s.currPos ≤ s'.currPos := by
  unfold switchTok at h
  split at h
  case h_1 =>
    simp only [Option.bind_eq_bind, Option.bind_eq_some_iff] at h
    obtain ⟨⟨tok, q⟩, hq, heq⟩ := h
    rw [← Option.some.inj heq]
    exact le_of_readToEndOfLine hq
  case h_7 | h_8 | h_9 => exact Nat.le_of_eq (currPos_of_caseClosing h).symm
  case h_11 => exact le_of_caseHash h
  case h_2 | h_10 =>
    split_ifs at h
    · obtain ⟨st, -, heq⟩ := Option.bind_eq_some_iff.mp h
      rw [← Option.some.inj heq]
    · rw [← Option.some.inj h]
  all_goals rw [← Option.some.inj h]

theorem lt_of_loopBody {input : Str} {s s' : LoopState} (h : loopBody input s = some s') :
    s.currPos ≤ input.length ∧ s.currPos < s'.currPos := by
  simp only [loopBody, Option.bind_eq_bind, Option.bind_eq_some_iff] at h
  obtain ⟨⟨tok, q⟩, hlex, h⟩ := h
  obtain ⟨hp, hlt⟩ := lt_of_lex hlex
  refine ⟨hp, ?_⟩
  simp only [Option.pure_def] at h
  split at h
  · rw [← Option.some.inj h]
    exact hlt
  · exact Nat.lt_of_lt_of_le hlt (le_of_switchTok h)

/-! ## `validate` -/

/-- The `do … while` loop. -/
def loop (input : Str) (s : LoopState) : Option LoopState :=
  match _h : loopBody input s with
  | none => none
  | some s' => if s'.tok.kind ≠ .eof ∧ s'.res ≠ .mismatch then loop input s' else some s'
termination_by input.length + 1 - s.currPos
decreasing_by have := lt_of_loopBody _h; omega

/-- `validate` up to the indent: the status, the stack, and `nb_init_spaces`. -/
def XInputValidator.scanInput (v : XInputValidator) (input : Str) :
    Option (ValidationResult × Stack × Nat) := do
  let st ← pushTemplate v.parentStack input
  let (nbInitSpaces, p) ← skipWhitespace input 0
  let s ← loop input { currPos := p, stack := st }
  let lastKind := s.lastNotSpaceTok.kind
  let cont := lastKind = .backslash ∨ lastKind = .comma
  let res := if cont ∨ (!s.stack.isEmpty ∧ s.res ≠ .mismatch) then .incomplete else s.res
  return (res, s.stack, nbInitSpaces)

/-- `xinput_validator::validate`, with the size of the indent computed exactly. -/
def XInputValidator.validate (v : XInputValidator) (input : Str) (nbCharIndent : Nat) :
    Option (ValidationResult × XInputValidator) := do
  let (res, st, nbInitSpaces) ← v.scanInput input
  let indentSize := nbInitSpaces + st.length * nbCharIndent
  let indent := if indentSize ≠ 0 then List.replicate indentSize ((' ' : Char) : Byte) else v.indent
  return (res, { parentStack := st, indent := indent })

/-- `std::size_t` and the strings of a platform. -/
structure SizeT where
  /-- The bits of `std::size_t`. -/
  width : Nat
  /-- The longest string that `std::string(n, ' ')` builds; for a longer one it throws. -/
  maxSize : Nat
  maxSize_lt : maxSize < 2 ^ width

/-- `std::length_error` -/
inductive LengthError where
  | tooLong
  deriving DecidableEq, Repr

/-- `xinput_validator::validate` as it computes: the size of the indent wraps, and the constructor of
the string may throw, behind the writes to `m_parent_stack` and in front of the one to `m_indent`. -/
def XInputValidator.validateSized (z : SizeT) (v : XInputValidator) (input : Str)
    (nbCharIndent : BitVec z.width) :
    Option (Except LengthError ValidationResult × XInputValidator) := do
  let (res, st, nbInitSpaces) ← v.scanInput input
  let indentSize := BitVec.ofNat z.width nbInitSpaces + BitVec.ofNat z.width st.length * nbCharIndent
  if indentSize = 0 then return (.ok res, { parentStack := st, indent := v.indent })
  else if z.maxSize < indentSize.toNat then
    return (.error .tooLong, { parentStack := st, indent := v.indent })
  else
    return (.ok res,
      { parentStack := st, indent := List.replicate indentSize.toNat ((' ' : Char) : Byte) })

/-- `xinput_validator::get_expected_indent`. -/
def XInputValidator.getExpectedIndent (v : XInputValidator) : Str := v.indent

end XeusCpp.Validator
