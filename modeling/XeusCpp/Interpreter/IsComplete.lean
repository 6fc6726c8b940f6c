/-
# XeusCpp.Interpreter.IsComplete — `interpreter::is_complete_request_impl` (`src/xinterpreter.cpp`).

A frontend asks whether a cell may be executed and how far to indent the next line. Each request has a
validator of its own. **`is_complete_source`** states the reply to a source text by its brackets.
-/
import XeusCpp.Validator.Source

namespace XeusCpp.Interpreter

open XeusCpp.Text XeusCpp.Logic XeusCpp.Validator XeusCpp.Validator.BracketValidator

/-- `create_is_complete_reply`. -/
structure IsCompleteReply where
  status : Str
  indent : Str
  deriving DecidableEq, Repr

/-- `interpreter::is_complete_request_impl`; `none` where the validator reads outside the text. -/
def isCompleteRequest (code : Str) : Option IsCompleteReply := do
  let (res, v) ← ({} : XInputValidator).validate code 4
  return ⟨res.toStr, v.getExpectedIndent⟩

theorem toStr_injective : Function.Injective ValidationResult.toStr := by
  intro a b h
  cases a <;> cases b <;> first | rfl | exact absurd h (by decide)

/-- The indentation by `d` levels, behind the blanks the text starts with. -/
def indentBy (code : Str) (d : Nat) : Str :=
  List.replicate (leadingBlanks code + d * 4) ((' ' : Char) : Byte)

/-- The reply to a source text. -/
theorem isCompleteRequest_render (text : SourceText) :
    isCompleteRequest (render text.pieces) = some
      ⟨(BracketValidator.validate {} text.pieces).1.toStr,
        indentBy (render text.pieces) (BracketValidator.validate {} text.pieces).2.stack.length⟩ := by
  have hempty : ({} : XInputValidator).parentStack = ({} : OpenBrackets).stack := rfl
  obtain ⟨r, hcall, hstatus, hstack⟩ := validate_render hempty text.separated 4
  have hindent : (r.after {} (render text.pieces) 4).indent =
      indentBy (render text.pieces) r.stack.length := by
    show (if leadingBlanks _ + r.stack.length * 4 ≠ 0 then _ else []) = _
    split_ifs with h
    · rfl
    · rw [indentBy, not_not.mp h, List.replicate_zero]
  rw [isCompleteRequest, hcall]
  show some (⟨r.status.toStr, (r.after {} (render text.pieces) 4).indent⟩ : IsCompleteReply) = _
  rw [hindent, hstatus, hstack]

/-- **What a frontend is told of a source text**: it is complete exactly when its brackets are
balanced, nothing more is asked for and a template it starts is ended. A text whose brackets fit is
incomplete otherwise, and the next line is indented by one level for each open one. Behind a bracket
that does not fit it is never complete. -/
theorem is_complete_source (text : SourceText) :
    ∃ reply, isCompleteRequest (render text.pieces) = some reply ∧
      (reply.status = lit "complete" ↔ Balanced (word text.pieces) ∧
        asked false text.pieces = false ∧ ¬ WaitsForEnd text.pieces) ∧
      (∀ ks, Leaves (word text.pieces) ks →
        (reply.status = lit "complete" ∨ reply.status = lit "incomplete") ∧
        (WaitsForEnd text.pieces → reply.indent = indentBy (render text.pieces) (ks.length + 1)) ∧
        (¬ WaitsForEnd text.pieces → reply.indent = indentBy (render text.pieces) ks.length)) ∧
      ∀ ks, Mismatches (word text.pieces) ks → reply.status ≠ lit "complete" := by
  have hcomplete (res : ValidationResult) : res.toStr = lit "complete" ↔ res = .complete :=
    toStr_injective.eq_iff (b := .complete)
  have hincomplete (res : ValidationResult) : res.toStr = lit "incomplete" ↔ res = .incomplete :=
    toStr_injective.eq_iff (b := .incomplete)
  refine ⟨_, isCompleteRequest_render text, ?_⟩
  simp only [ne_eq, hcomplete, hincomplete, ← leaves_nil_iff, ← reduce_eq_ended_iff,
    ← reduce_eq_mismatch_iff]
  cases hred : reduce [] (word text.pieces) with
  | ended js =>
      obtain ⟨t, hread, ht⟩ := validate_ended hred
      rw [hread]
      refine ⟨?_, ?_, ?_⟩
      · rw [← ht, Bool.not_eq_true, Reduced.ended.injEq]
        exact answer_complete_iff
      · rintro ks hks
        obtain rfl := Reduced.ended.inj hks
        refine ⟨?_, ?_, ?_⟩
        · by_cases h : asked false text.pieces = true ∨ (⟨js, t⟩ : OpenBrackets) ≠ {}
          · exact .inr (if_pos h)
          · exact .inl (if_neg h)
        · intro hwaits
          rw [ht.mpr hwaits]
          simp [OpenBrackets.stack, markers]
        · intro hno
          rw [← ht, Bool.not_eq_true] at hno
          rw [hno]
          simp [OpenBrackets.stack, markers]
      · intro ks hks
        cases hks
  | mismatch js =>
      have hno := validate_mismatch hred
      refine ⟨iff_of_false hno (by simp), ?_, fun ks _ => hno⟩
      intro ks hks
      cases hks

/-- `f("(") //)`, an argument and a comment that hold a bracket. -/
def sourceOfCall : SourceText where
  pieces := [.code 'f' rfl, .code '(' rfl,
    .literal '"' (lit "(") rfl (.plain (by decide) (by decide) .nil), .code ')' rfl, .code ' ' rfl,
    .lineComment (lit ")") (List.forall_mem_singleton.mpr (by decide)) (by decide)]
  separated := by decide

example : isCompleteRequest (render sourceOfCall.pieces) = some ⟨lit "complete", []⟩ := by
  rw [isCompleteRequest_render]
  rfl

end XeusCpp.Interpreter
