/-
# XeusCpp.Validator.Calls — what a call leaves to the next one.

A validator keeps two things between calls: the stack and the expected indent. A call that met a
mismatch has said its last word about its text, and more lines behind it change neither the status nor
what is kept (`mismatch_final`).
-/
import XeusCpp.Validator.Completable

namespace XeusCpp.Validator

open XeusCpp.Text XeusCpp.Logic

/-! ## A mismatch is final -/

theorem rejected_of_mismatch {r : Verdict} (h : r.status = .mismatch) : r.rejected = true := by
  unfold Verdict.status at h
  split at h
  · exact absurd h (by decide)
  · by_contra hrej
    rw [if_neg hrej] at h
    exact absurd h (by decide)

/-- The blanks in front of a line do not depend on the lines behind it. -/
theorem leadingBlanks_append_newline (s t : Str) :
    leadingBlanks (s ++ (('\n' : Char) : Byte) :: t) = leadingBlanks s := by
  have hstop : ((('\n' : Char) : Byte) :: t).takeWhile isWhitespace = [] :=
    List.takeWhile_cons_of_neg (by decide)
  unfold leadingBlanks
  rw [List.takeWhile_append, hstop, List.append_nil]
  split
  · rename_i h
    exact h.symm
  · rfl

/-- **A mismatch is final**: more lines do not change it, nor what the call leaves. -/
theorem mismatch_final (v v' : XInputValidator) (s t : Str) (n : Nat)
    (h : v.validate s n = some (.mismatch, v')) :
    v.validate (s ++ (('\n' : Char) : Byte) :: t) n = some (.mismatch, v') := by
  rw [validate_eq] at h ⊢
  rcases Option.map_eq_some_iff.mp h with ⟨r, hrun, heq⟩
  rcases Prod.mk.inj heq with ⟨hstatus, hafter⟩
  rcases end_of_run hrun with ⟨e, it, rest, he, hn, hst, hl, ⟨-, hrej⟩ | ⟨hit, hr, hrej⟩⟩
  · rw [rejected_of_mismatch hstatus] at hrej
    exact absurd hrej (by decide)
  -- the same item is rejected in the longer text
  have hne : e.text ≠ [] := by
    intro h0
    rw [h0] at hn
    exact hit (Prod.mk.inj (Option.some.inj hn)).1.symm
  have hgo := (run_append_of_interrupt (u := (('\n' : Char) : Byte) :: t) he hne hn (.inr rfl)).1 hit hr
  have hr' : r = ⟨e.stack, e.last, true⟩ := by
    rw [← hst, ← hl, ← hrej]
  have hsame : r.after v (s ++ (('\n' : Char) : Byte) :: t) n = r.after v s n := by
    unfold Verdict.after
    rw [leadingBlanks_append_newline]
  rw [start_append_of_break v s (.inr rfl) (beginsTemplate_newline t), hgo, ← hr', Option.map_some,
    hstatus, hsame, hafter]

theorem mismatch_final_paren :
    ({} : XInputValidator).validate (lit "  (]" ++ (('\n' : Char) : Byte) :: lit ") \"") 4 =
      some (.mismatch, ⟨[.lParen], lit "      "⟩) :=
  mismatch_final {} ⟨[.lParen], lit "      "⟩ (lit "  (]") (lit ") \"") 4 (by decide +kernel)

/-! ## Sequences of calls -/

/-- A string of `k` blanks. -/
def spaces (k : Nat) : Str := List.replicate k ((' ' : Char) : Byte)

/-- `P` holds of every call of the sequence, in the state the calls before it leave. -/
def AllCalls (P : XInputValidator → Str → Nat → Prop) : XInputValidator → List (Str × Nat) → Prop
  | _, [] => True
  | v, (input, n) :: calls => P v input n ∧
      ∀ res v', v.validate input n = some (res, v') → AllCalls P v' calls

end XeusCpp.Validator
