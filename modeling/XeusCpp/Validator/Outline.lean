/-
# XeusCpp.Validator.Outline — source texts and their brackets.

A source text is a list of pieces: characters of code, literals, line and block comments, directives.
A piece carries what the lexer asks of it, so that a literal is closed and a comment hides nothing;
and each is read apart from the one behind it.

For the validator such a text is a word over the brackets of its code and of its directives. Besides
their closing it waits for more behind a `,` or a `\` at the end, and behind `template` at the start
for a `;` outside the brackets or a `}` that closes the outermost. `BracketValidator` is the validator
of these words. `read_ended` and `read_mismatch` state its answers by the word alone.
-/
import XeusCpp.Validator.Frame

namespace XeusCpp.Validator

open XeusCpp.Text XeusCpp.Logic

/-! ## Pieces -/

/-- The characters that start no literal and no directive, and do not end the text. -/
def isCode (c : Byte) : Bool := !isQuotedString c && c != '#' && c != 0

/-- A piece of a source text. -/
inductive Piece where
  | code (c : Byte) (h : isCode c = true)
  | literal (q : Byte) (w : Str) (hq : isQuotedString q = true) (hw : QuotedBody q w)
  | lineComment (c : Str) (hline : OneLine c) (hnul : 0 ∉ c)
  | blockComment (c : Str) (hend : ¬ lit "*/" <:+: c) (hread : bodyTail c = [])
  /-- A `#`, blanks and a word of letters. -/
  | directive (blanks w : Str) (hblanks : ∀ c ∈ blanks, isWhitespace c = true) (hne : w ≠ [])
      (hw : ∀ c ∈ w, isAlpha c = true)

namespace Piece

def render : Piece → Str
  | code c _ => [c]
  | literal q w _ _ => q :: (w ++ [q])
  | lineComment c _ _ => lit "//" ++ c
  | blockComment c _ _ => lit "/*" ++ (c ++ lit "*/")
  | directive blanks w _ _ _ => (('#' : Char) : Byte) :: (blanks ++ w)

/-- The brackets of a piece. -/
def symbols : Piece → List (Sym BracketKind)
  | code c _ => bracketOfChar c
  | directive _ w _ _ _ => bracketOfWord w
  | _ => []

theorem symbols_length (p : Piece) : p.symbols.length ≤ 1 := by
  have hchar (c : Byte) : (bracketOfChar c).length ≤ 1 := by
    unfold bracketOfChar
    split_ifs <;> simp
  have hword (w : Str) : (bracketOfWord w).length ≤ 1 := by
    unfold bracketOfWord
    split_ifs <;> simp
  cases p with
  | code c _ => exact hchar c
  | directive _ w _ _ _ => exact hword w
  | literal _ _ _ _ | lineComment _ _ _ | blockComment _ _ _ => exact Nat.zero_le _

/-- A piece that ends a template, where no bracket is open behind it. -/
def isEnd : Piece → Bool
  | code c _ => c == ';' || c == '}'
  | _ => false

/-- Whether more is asked for behind a piece. -/
def asks (b : Bool) : Piece → Bool
  | code c _ => if isWhitespace c then b else c == ',' || c == '\\'
  | _ => false

/-- The text behind a piece leaves it as it is: it makes no comment sign with its end, starts a new line
behind a line comment, and with a blank behind a directive. -/
def Parts : Piece → Str → Prop
  | code c _, t => (c = '/' → t.headD 0 ≠ '/' ∧ t.headD 0 ≠ '*') ∧ (c = '*' → t.headD 0 ≠ '/')
  | literal _ _ _ _, _ => True
  | lineComment _ _ _, t => isLineChar (t.headD 0) = false
  | blockComment _ _ _, t => t.headD 0 ≠ '/' ∧ t.headD 0 ≠ '*'
  | directive _ _ _ _ _, t => t = [] ∨ isWhitespace (t.headD 0) = true

end Piece

def render (ps : List Piece) : Str := ps.flatMap Piece.render

/-- Every piece parts from the text behind it. -/
def Separated : List Piece → Prop
  | [] => True
  | p :: ps => p.Parts (render ps) ∧ Separated ps

instance (p : Piece) (t : Str) : Decidable (p.Parts t) :=
  match p with
  | .code c _ => inferInstanceAs (Decidable
      ((c = '/' → t.headD 0 ≠ '/' ∧ t.headD 0 ≠ '*') ∧ (c = '*' → t.headD 0 ≠ '/')))
  | .literal _ _ _ _ => .isTrue trivial
  | .lineComment _ _ _ => inferInstanceAs (Decidable (isLineChar (t.headD 0) = false))
  | .blockComment _ _ _ => inferInstanceAs (Decidable (t.headD 0 ≠ '/' ∧ t.headD 0 ≠ '*'))
  | .directive _ _ _ _ _ => inferInstanceAs (Decidable (t = [] ∨ isWhitespace (t.headD 0) = true))

instance decidableSeparated : (ps : List Piece) → Decidable (Separated ps)
  | [] => .isTrue trivial
  | p :: ps =>
      have := decidableSeparated ps
      inferInstanceAs (Decidable (p.Parts (render ps) ∧ Separated ps))

/-- A source text. -/
structure SourceText where
  pieces : List Piece
  separated : Separated pieces

/-! ## The validator of brackets -/

namespace OpenBrackets

/-- A text starts: with nothing open it may start a template. -/
def enter (o : OpenBrackets) (ps : List Piece) : OpenBrackets :=
  if o = {} ∧ beginsTemplate (render ps) = true then { template := true } else o

/-- A piece is read; `none` when a bracket of it does not fit. -/
def take (o : OpenBrackets) (p : Piece) : Option OpenBrackets :=
  match reduce o.brackets p.symbols with
  | .ended ks => some ⟨ks, o.template && !(p.isEnd && ks.isEmpty)⟩
  | .mismatch _ => none

end OpenBrackets

namespace BracketValidator

/-- A text read from the open brackets `o`. -/
def read (o : OpenBrackets) (asked : Bool) : List Piece → ValidationResult × OpenBrackets
  | [] => (if asked = true ∨ o ≠ {} then .incomplete else .complete, o)
  | p :: ps =>
      match o.take p with
      | some o' => read o' (p.asks asked) ps
      | none => (if asked then .incomplete else .mismatch, o)

/-- The validator of brackets on one call. -/
def validate (o : OpenBrackets) (ps : List Piece) : ValidationResult × OpenBrackets :=
  read (o.enter ps) false ps

/-- The bracket word of a text. -/
def word (ps : List Piece) : List (Sym BracketKind) := ps.flatMap Piece.symbols

/-- Whether a text asks for more at its end. -/
def asked (b : Bool) (ps : List Piece) : Bool := ps.foldl (fun b p => p.asks b) b

/-- The text has a piece that ends a template, with the brackets up to it balanced. -/
def HasEnd (ps : List Piece) : Prop :=
  ∃ front p rest, ps = front ++ p :: rest ∧ p.isEnd = true ∧ Balanced (word (front ++ [p]))

/-- So it has, read from the open brackets `ks`. -/
def HasEndFrom (ks : List BracketKind) (ps : List Piece) : Prop :=
  ∃ front p rest, ps = front ++ p :: rest ∧ p.isEnd = true ∧
    reduce ks (word (front ++ [p])) = .ended []

theorem hasEndFrom_nil_iff (ps : List Piece) : HasEndFrom [] ps ↔ HasEnd ps := by
  unfold HasEndFrom HasEnd
  simp only [reduce_eq_ended_iff, leaves_nil_iff]

theorem word_cons (p : Piece) (ps : List Piece) : word (p :: ps) = p.symbols ++ word ps :=
  List.flatMap_cons

theorem not_hasEndFrom_empty (ks : List BracketKind) : ¬ HasEndFrom ks [] := by
  rintro ⟨front, p, rest, h, -⟩
  exact absurd h (by simp)

/-- The first piece is the end, or it stands in the rest. -/
theorem hasEndFrom_cons {ks js : List BracketKind} {p : Piece}
    (h : reduce ks p.symbols = .ended js) (ps : List Piece) :
    HasEndFrom ks (p :: ps) ↔ (p.isEnd = true ∧ js = []) ∨ HasEndFrom js ps := by
  have hstep (front : List Piece) (q : Piece) :
      reduce ks (word (p :: front ++ [q])) = reduce js (word (front ++ [q])) := by
    rw [List.cons_append, word_cons, reduce_append, h]
  have hfirst : reduce ks (word ([] ++ [p])) = .ended js := by
    rw [List.nil_append, word_cons, reduce_append, h]
    rfl
  constructor
  · rintro ⟨front, q, rest, heq, hq, hred⟩
    cases front with
    | nil =>
        obtain ⟨rfl, -⟩ := List.cons.inj heq
        rw [hfirst] at hred
        exact .inl ⟨hq, Reduced.ended.inj hred⟩
    | cons f front =>
        obtain ⟨rfl, rfl⟩ := List.cons.inj heq
        exact .inr ⟨front, q, rest, rfl, hq, (hstep front q).symm.trans hred⟩
  · rintro (⟨hp, rfl⟩ | ⟨front, q, rest, rfl, hq, hred⟩)
    · exact ⟨[], p, ps, rfl, hp, hfirst⟩
    · exact ⟨p :: front, q, rest, rfl, hq, (hstep front q).trans hred⟩

/-- What is read off a text whose brackets fit. -/
theorem read_ended {o : OpenBrackets} {js : List BracketKind} {ps : List Piece} (b : Bool)
    (h : reduce o.brackets (word ps) = .ended js) :
    ∃ t, read o b ps = (if asked b ps = true ∨ (⟨js, t⟩ : OpenBrackets) ≠ {} then .incomplete
        else .complete, ⟨js, t⟩) ∧
      (t = true ↔ o.template = true ∧ ¬ HasEndFrom o.brackets ps) := by
  induction ps generalizing o b with
  | nil =>
      cases h
      exact ⟨o.template, rfl, (and_iff_left (not_hasEndFrom_empty _)).symm⟩
  | cons p ps ih =>
      rw [word_cons, reduce_append] at h
      cases hred : reduce o.brackets p.symbols with
      | mismatch ks =>
          rw [hred] at h
          cases h
      | ended ks =>
          rw [hred] at h
          obtain ⟨t, hread, ht⟩ := ih (o := ⟨ks, o.template && !(p.isEnd && ks.isEmpty)⟩) (p.asks b) h
          refine ⟨t, ?_, ?_⟩
          · rw [read, OpenBrackets.take, hred]
            exact hread
          · rw [ht, hasEndFrom_cons hred]
            simp only [Bool.and_eq_true, Bool.not_eq_true', List.isEmpty_iff, ← Bool.not_eq_true]
            tauto

/-- What is read off one with a bracket that does not fit. -/
theorem read_mismatch {o : OpenBrackets} {js : List BracketKind} {ps : List Piece} (b : Bool)
    (h : reduce o.brackets (word ps) = .mismatch js) :
    ∃ b' t, read o b ps = (if b' = true then .incomplete else .mismatch, ⟨js, t⟩) := by
  induction ps generalizing o b with
  | nil => cases h
  | cons p ps ih =>
      rw [word_cons, reduce_append] at h
      rw [read, OpenBrackets.take]
      cases hred : reduce o.brackets p.symbols with
      | ended ks =>
          rw [hred] at h
          exact ih (p.asks b) h
      | mismatch ks =>
          rw [hred] at h
          cases h
          have hlen := p.symbols_length
          obtain rfl := eq_of_reduce_mismatch hlen hred
          exact ⟨b, o.template, rfl⟩

/-- The text starts a template and does not end it. -/
def WaitsForEnd (ps : List Piece) : Prop := beginsTemplate (render ps) = true ∧ ¬ HasEnd ps

theorem enter_brackets (ps : List Piece) : (OpenBrackets.enter {} ps).brackets = [] := by
  unfold OpenBrackets.enter
  split_ifs <;> rfl

theorem enter_template (ps : List Piece) :
    (OpenBrackets.enter {} ps).template = true ↔ beginsTemplate (render ps) = true := by
  unfold OpenBrackets.enter
  split_ifs with h <;> simpa using h

/-- A first text whose brackets fit. -/
theorem validate_ended {js : List BracketKind} {ps : List Piece}
    (h : reduce [] (word ps) = .ended js) :
    ∃ t, validate {} ps = (if asked false ps = true ∨ (⟨js, t⟩ : OpenBrackets) ≠ {} then .incomplete
        else .complete, ⟨js, t⟩) ∧ (t = true ↔ WaitsForEnd ps) := by
  rw [← enter_brackets ps] at h
  obtain ⟨t, hread, ht⟩ := read_ended false h
  rw [enter_template, enter_brackets, hasEndFrom_nil_iff] at ht
  exact ⟨t, hread, ht⟩

/-- When it is complete. -/
theorem answer_complete_iff {b t : Bool} {js : List BracketKind} :
    (if b = true ∨ (⟨js, t⟩ : OpenBrackets) ≠ {} then ValidationResult.incomplete else .complete) =
      .complete ↔ js = [] ∧ b = false ∧ t = false := by
  split_ifs with h
  · refine iff_of_false (by simp) ?_
    rintro ⟨rfl, rfl, rfl⟩
    simp at h
  · obtain ⟨hasked, hempty⟩ := not_or.mp h
    obtain ⟨rfl, rfl⟩ : js = [] ∧ t = false := by simpa using hempty
    exact iff_of_true rfl ⟨rfl, by simpa using hasked, rfl⟩

theorem validate_mismatch {js : List BracketKind} {ps : List Piece}
    (h : reduce [] (word ps) = .mismatch js) : (validate {} ps).1 ≠ .complete := by
  rw [← enter_brackets ps] at h
  obtain ⟨b, t, hread⟩ := read_mismatch false h
  rw [validate, hread]
  cases b <;> simp

end BracketValidator

end XeusCpp.Validator
