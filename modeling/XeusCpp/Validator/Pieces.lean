/-
# XeusCpp.Validator.Pieces — a text that is fed in two pieces.

A validator keeps its stack between calls, so that a text can be given to it line by line. Nothing
else is kept: where the first piece is read to its end, the second starts as behind a line break.

**`pieces_eq_whole`**: under the conditions that make the line break separate the pieces, two calls
come to what one call on the whole text comes to.
-/
import XeusCpp.Validator.Directive
import XeusCpp.Validator.ReadBounds

namespace XeusCpp.Validator

open XeusCpp.Text XeusCpp.Logic

/-! ## Clean pieces -/

/-- Behind a `#` stand optional blanks, the word of the directive and a blank. -/
def WordAndBlank (t : Str) : Prop :=
  ∃ blanks word x rest, t = blanks ++ (word ++ x :: rest) ∧ (∀ c ∈ blanks, isWhitespace c = true) ∧
    word ≠ [] ∧ (∀ c ∈ word, isRawChar c = true) ∧ isWhitespace x = true

/-- The scan of `A` takes every item it meets, and the word of every directive ends inside `A`. -/
structure CleanScan (v : XInputValidator) (A : Str) : Prop where
  noNul : (0 : Byte) ∉ A
  literals : LiteralsClosed v A
  noMismatch : ∀ {e it r}, scanner.Reaches (v.start A) e →
    nextItem (inBlockComment e.stack) e.text = some (it, r) → it ≠ .stop → react e.stack it ≠ none
  directives : ∀ {e t}, scanner.Reaches (v.start A) e → inBlockComment e.stack = false →
    e.text = (('#' : Char) : Byte) :: t → WordAndBlank t

/-- The status and the stack behind a call on `s₁` and one on `s₂`. -/
def XInputValidator.outcomeInPieces (v : XInputValidator) (s₁ s₂ : Str) (n : Nat) :
    Option (ValidationResult × Stack) :=
  (v.validate s₁ n).bind fun r => r.2.outcome s₂ n

/-! ## The word of a directive -/

theorem WordAndBlank.dropWhile {t : Str} (h : WordAndBlank t) :
    t.dropWhile isWhitespace ≠ [] ∧ (t.dropWhile isWhitespace).dropWhile isRawChar ≠ [] := by
  obtain ⟨blanks, word, x, rest, rfl, hblanks, hne, hword, hx⟩ := h
  have hhead : ∀ c ∈ (word ++ x :: rest).head?, isWhitespace c = false := by
    obtain ⟨d, w, rfl⟩ := List.exists_cons_of_ne_nil hne
    intro c hc
    obtain rfl : d = c := by simpa using hc
    by_contra hblank
    have hraw := hword d (by simp)
    rw [not_raw_of_blank d (by simpa using hblank)] at hraw
    cases hraw
  have hdrop : (blanks ++ (word ++ x :: rest)).dropWhile isWhitespace = word ++ x :: rest := by
    rw [dropWhile_append_of_delim hhead, List.dropWhile_eq_nil_iff.mpr hblanks, List.nil_append]
  have hend : (word ++ x :: rest).dropWhile isRawChar = x :: rest := by
    rw [dropWhile_append_of_delim (by simpa using not_raw_of_blank x hx),
      List.dropWhile_eq_nil_iff.mpr hword, List.nil_append]
  rw [hdrop, hend]
  exact ⟨by simp, by simp⟩

section

variable {v v' : XInputValidator} {A : Str} {n : Nat} {res : ValidationResult}

/-- The text behind a `#` that is read outside a comment. -/
theorem CleanScan.directive_at (h : CleanScan v A) {b : Config} {l : Lexeme}
    (hb : scanner.Reaches (v.start A) b) (hc : inBlockComment b.stack = false)
    (hl : lexHead b.text = some l) (hk : l.kind = .hash) : WordAndBlank (b.text.drop l.advance) := by
  obtain ⟨t, ht, hadv⟩ := eq_hash_of_kind hl hk
  rw [ht, hadv]
  exact h.directives hb hc ht

theorem CleanScan.not_endsInDirective (h : CleanScan v A) : ¬EndsInDirective v A := by
  rintro ⟨b, it, hlast, hit⟩
  obtain ⟨l, hl, hitem⟩ := Option.map_eq_some_iff.mp hlast.item
  rcases hit with ⟨w, rfl, -⟩ | ⟨rfl, h0⟩
  · -- the word would end the text
    obtain ⟨hc, hk, -, -, hend⟩ := directive_of_itemOf hitem
    exact (h.directive_at hlast.reaches hc hl hk).dropWhile.2 hend.symm
  · -- nothing but blanks would stand behind the `#`
    obtain ⟨hc, l', hl', hk, hend, -⟩ := hash_of_stop hlast.ne_nil h0 hlast.item
    exact (h.directive_at hlast.reaches hc hl' hk).dropWhile.1 hend

theorem CleanScan.not_interrupted (h : CleanScan v A) : ¬Interrupted v A := by
  rintro ⟨e, it, r, he, hn, ⟨hit, hr⟩ | ⟨-, h0⟩⟩
  · exact h.noMismatch he hn hit hr
  · exact h.noNul ((text_suffix_of_reaches he).subset h0)

/-- Behind a line break a text is scanned as on its own, where it does not open a template. -/
theorem outcome_newline_eq (v : XInputValidator) {B : Str} (n : Nat)
    (h : v.parentStack ≠ [] ∨ beginsTemplate B = false) :
    v.outcome ((('\n' : Char) : Byte) :: B) n = v.outcome B n := by
  have hstart : startStack v.parentStack B = v.parentStack := by
    apply if_neg
    rintro ⟨hnil, htemplate⟩
    rcases h with h | h
    · exact h hnil
    · rw [h] at htemplate
      cases htemplate
  rw [outcome_newline, outcome_eq, XInputValidator.start, hstart]

/-- **Two pieces are validated as the whole**: when the first is scanned cleanly, and the second does
not open a template where nothing is open, two calls leave the status and the stack of one call on
the pieces with a line break between them. -/
theorem pieces_eq_whole (v : XInputValidator) (s₁ s₂ : Str) (n : Nat) (h : CleanScan v s₁)
    (ht : ∀ res v', v.validate s₁ n = some (res, v') →
      v'.parentStack ≠ [] ∨ beginsTemplate s₂ = false) :
    v.outcomeInPieces s₁ s₂ n = v.outcome (s₁ ++ (('\n' : Char) : Byte) :: s₂) n := by
  obtain ⟨⟨res, v'⟩, hv⟩ := Option.isSome_iff_exists.mp ((isSome_validate v s₁ n).mpr h.literals)
  have hnext := (newline_of_not_directive hv h.not_endsInDirective).2 h.not_interrupted s₂ n
  rw [hnext, outcome_newline_eq v' n (ht res v' hv), XInputValidator.outcomeInPieces, hv]
  rfl

end

/-- A scan that ends with a verdict and without a mismatch took every item. -/
theorem noMismatch_of_run {c : Config} {r : Verdict} (h : scanner.run c = some r)
    (hr : r.rejected = false) {e : Config} {it : Item} {t : Str} (he : scanner.Reaches c e)
    (hn : nextItem (inBlockComment e.stack) e.text = some (it, t)) (hit : it ≠ .stop) :
    react e.stack it ≠ none := by
  intro hreject
  rw [Machine.run_eq_of_reaches he, run_of_reject hn hit hreject] at h
  cases h
  cases hr

theorem cleanScan_ifdef : CleanScan {} (lit "f() \x7b\n#ifdef X") where
  noNul := by decide
  literals := (isSome_validate {} (lit "f() \x7b\n#ifdef X") 4).mp (by decide +kernel)
  noMismatch := noMismatch_of_run (r := ⟨[.hash, .lBrace], .ident, false⟩) (by decide +kernel) rfl
  directives := by
    intro e t he _ ht
    have htails : ∀ u ∈ (lit "f() \x7b\n#ifdef X").tails, u.head? = some (('#' : Char) : Byte) →
        u = lit "#ifdef X" := by decide
    have hmem : e.text ∈ (lit "f() \x7b\n#ifdef X").tails :=
      (List.mem_tails _ _).mpr (text_suffix_of_reaches he)
    have hu := htails e.text hmem (by rw [ht]; rfl)
    rw [ht] at hu
    obtain rfl := (List.cons.inj hu).2
    exact ⟨[], lit "ifdef", ' ', lit "X", rfl, by simp, by decide, by decide +kernel, by decide⟩

/-- A group that is opened in one piece and closed in the next. -/
theorem pieces_of_group :
    ({} : XInputValidator).outcomeInPieces (lit "f() \x7b\n#ifdef X") (lit "#endif \n\x7d") 4 =
      ({} : XInputValidator).outcome
        (lit "f() \x7b\n#ifdef X" ++ (('\n' : Char) : Byte) :: lit "#endif \n\x7d") 4 :=
  pieces_eq_whole {} (lit "f() \x7b\n#ifdef X") (lit "#endif \n\x7d") 4 cleanScan_ifdef
    fun _ _ _ => .inr (by decide)

end XeusCpp.Validator
