/-
# XeusCpp.Validator.ReadBounds — which texts the validator reads within their bounds.

The cursor of the lexer is tested against the terminator in every routine but one:
`lex_quoted_string` runs until it finds its closing quote. So a call of `validate` stays inside its
text exactly when every literal the scan opens is closed (`isSome_validate`). The scan opens a
literal at every quote it meets as the start of a token, in a block comment and behind a directive
word as well.

A sequence of calls on one validator stays inside its texts exactly when each call does, in the state
the calls before it leave (`validate_reads_inside_iff`).
-/
import XeusCpp.Validator.Scan

namespace XeusCpp.Validator

open XeusCpp.Text XeusCpp.Logic

/-- Every literal that the scan from `c` opens is closed by the text ahead of it. -/
def Config.LiteralsClosed (c : Config) : Prop :=
  ∀ c', scanner.Reaches c c' → ∀ q w, c'.text = q :: w → isQuotedString q = true → Closes q w

/-- Every literal opened in the scan of `input` is closed. -/
def LiteralsClosed (v : XInputValidator) (input : Str) : Prop := (v.start input).LiteralsClosed

/-- The scan has one way to get stuck: it stands at a quote and no quote closes it. -/
theorem scanMove_eq_stuck_iff {c : Config} : scanMove c = .stuck ↔
    ∃ q w, c.text = q :: w ∧ isQuotedString q = true ∧ ¬ Closes q w := by
  rw [← lexHead_eq_none_iff]
  constructor
  · intro h
    cases hn : nextItem (inBlockComment c.stack) c.text with
    | none => exact Option.map_eq_none_iff.mp hn
    | some p =>
        obtain ⟨it, r⟩ := p
        rw [scanMove_of_item hn] at h
        exact absurd h takeItem_ne_stuck
  · intro h
    exact scanMove_of_none (by simp [nextItem, h])

theorem Config.literalsClosed_iff {c : Config} : c.LiteralsClosed ↔ (scanner.run c).isSome := by
  rw [Machine.run_isSome_iff]
  constructor
  · intro h c' hc' hm
    obtain ⟨q, w, ht, hq, hcl⟩ := scanMove_eq_stuck_iff.mp hm
    exact hcl (h c' hc' q w ht hq)
  · intro h c' hc' q w ht hq
    by_contra hcl
    exact h c' hc' (scanMove_eq_stuck_iff.mpr ⟨q, w, ht, hq, hcl⟩)

/-- A call of `validate` reads inside its text exactly when the literals of the text are closed. -/
theorem isSome_validate (v : XInputValidator) (input : Str) (n : Nat) :
    (v.validate input n).isSome ↔ LiteralsClosed v input := by
  rw [validate_eq, Option.isSome_map, LiteralsClosed, Config.literalsClosed_iff]

/-! ## Sequences of calls -/

/-- Calls of `validate` on one validator, one after the other. -/
def XInputValidator.validateAll (v : XInputValidator) : List (Str × Nat) → Option XInputValidator
  | [] => some v
  | (input, n) :: calls => do
      let (_, v') ← v.validate input n
      v'.validateAll calls

/-- The literals of each text are closed, in the scan from the state the earlier calls leave. -/
def AllLiteralsClosed (v : XInputValidator) : List (Str × Nat) → Prop
  | [] => True
  | (input, n) :: calls => LiteralsClosed v input ∧
      ∀ res v', v.validate input n = some (res, v') → AllLiteralsClosed v' calls

/-- **Reads stay inside the text** exactly when no literal is left open: of one call, in any state,
and of all the calls of a sequence. -/
theorem validate_reads_inside_iff (v : XInputValidator) :
    (∀ input n, (v.validate input n).isSome ↔ LiteralsClosed v input) ∧
      ∀ calls, (v.validateAll calls).isSome ↔ AllLiteralsClosed v calls := by
  refine ⟨isSome_validate v, fun calls => ?_⟩
  induction calls generalizing v with
  | nil => simp [XInputValidator.validateAll, AllLiteralsClosed]
  | cons call calls ih =>
      obtain ⟨input, n⟩ := call
      rw [AllLiteralsClosed, ← isSome_validate v input n, XInputValidator.validateAll]
      cases h : v.validate input n with
      | none => simp
      | some p =>
          obtain ⟨res, v'⟩ := p
          simp only [Option.bind_eq_bind, Option.bind_some, ih v']
          simp

/-- The literal scanner runs past the terminator: an apostrophe in a comment is enough. -/
theorem validate_apostrophe_in_comment :
    0 ∉ lit "/* don't */" ∧ ({} : XInputValidator).validate (lit "/* don't */") 4 = none := by
  decide +kernel

end XeusCpp.Validator
