/-
# XeusCpp.Validator.Literal — string and character literals are opaque.

`lex_quoted_string` moves over the body of a literal without looking at anything but the backslash
and the quote. So behind a text that ends in code, a literal is one token, whatever its body looks
like, and the scan of what follows does not depend on it (`literal_opaque`).

`EndsClean` is the condition on the text in front, and `EndsClean.run_append` what follows from it for
every text put behind.
-/
import XeusCpp.Validator.Comment

namespace XeusCpp.Validator

open XeusCpp.Text XeusCpp.Logic

/-! ## Texts that end in code -/

/-- The scan of `A` ends with the verdict `r`, outside literals and comments. -/
structure EndsInCode (v : XInputValidator) (A : Str) (r : Verdict) : Prop where
  run : scanner.run (v.start A) = some r
  comment : inBlockComment r.stack = false
  line : ¬ EndsInLineComment v A

/-- It meets no mismatch either, and the text does not end in the word of a directive. -/
structure EndsClean (v : XInputValidator) (A : Str) (r : Verdict) : Prop extends EndsInCode v A r where
  accepted : r.rejected = false
  directive : ¬ EndsInDirective v A

theorem EndsOutside.endsClean {v : XInputValidator} {A : Str} {r : Verdict}
    (h : EndsOutside v A r.stack) (hrun : scanner.run (v.start A) = some r)
    (hr : r.rejected = false) : EndsClean v A r where
  run := hrun
  comment := h.comment
  line := h.line
  accepted := hr
  directive := h.directive

/-- The scan comes to a NUL of the text, and its verdict is `r`. -/
def StopsAtNul (v : XInputValidator) (A : Str) (r : Verdict) : Prop :=
  ∃ e t, scanner.Reaches (v.start A) e ∧ 0 ∈ e.text ∧
    nextItem (inBlockComment e.stack) e.text = some (.stop, t) ∧ r = ⟨e.stack, e.last, false⟩

section

variable {v : XInputValidator} {A : Str} {r : Verdict}

theorem EndsClean.reaches (h : EndsClean v A r) :
    scanner.Reaches (v.start A) ⟨r.stack, r.last, []⟩ ∨ StopsAtNul v A r := by
  rcases end_of_run h.run with ⟨e, it, t, he, hn, hst, hl, ⟨rfl, hrej⟩ | ⟨-, -, hrej⟩⟩
  · have hr : r = ⟨e.stack, e.last, false⟩ := by
      rw [← hst, ← hl, ← hrej]
    by_cases hnil : e.text = []
    · left
      rw [hst, hl, ← hnil]
      exact he
    · right
      refine ⟨e, t, he, ?_, hn, hr⟩
      -- else a bare `#` ends the text
      by_contra h0
      rcases nextItem_seam_stop hnil h0 hn with ⟨-, rfl, -⟩
      exact h.directive ⟨e, .stop, ⟨he, hnil, hn⟩, .inr ⟨rfl, h0⟩⟩
  · rw [h.accepted] at hrej
    exact absurd hrej (by simp)

/-- A scan that came to a NUL comes to it in every longer text. -/
theorem StopsAtNul.run_append (h : StopsAtNul v A r) (u : Str) :
    scanner.run (v.start (A ++ u)) = some r := by
  rcases h with ⟨e, t, he, h0, hn, rfl⟩
  have hA : 0 ∈ A := (text_suffix_of_reaches he).subset h0
  have hblank : 0 ∈ A.dropWhile isWhitespace := mem_dropWhile_of_mem hA rfl
  rw [start_append_of_ne v (List.ne_nil_of_mem (mem_dropWhile_of_mem hblank rfl)),
    Machine.run_eq_of_reaches (reaches_append he (List.ne_nil_of_mem h0) u)]
  rcases nextItem_append_nul h0 hn u with ⟨t', hn'⟩
  exact run_of_stop hn'

/-- Behind a text that ends in code the scan goes on as from there, unless a NUL ended it. -/
theorem EndsClean.run_append (h : EndsClean v A r) :
    (∀ u : Str, (∀ d ∈ u.head?, isIdentChar d = false) → beginsTemplate u = false →
      (u.headD 0 ≠ '/' ∧ u.headD 0 ≠ '*') →
        scanner.run (v.start (A ++ u)) = scanner.run ⟨r.stack, r.last, u⟩) ∨
      ∀ u : Str, scanner.run (v.start (A ++ u)) = some r := by
  rcases h.reaches with hr | hnul
  · exact .inl fun u hu hb hsign => run_append_of_reaches hr h.line h.directive hu hb
      fun b _ _ => noSign_of_head b.text hsign
  · exact .inr hnul.run_append

/-! ## Literals -/

/-- The kind of a literal, by its quote. -/
def literalKind (q : Byte) : TokenKind := if q = '"' then .stringlit else .charlit

theorem literalKind_inert (q : Byte) : (literalKind q).isInert = true := by
  unfold literalKind
  split <;> rfl

/-- A literal is one token, whatever its body. -/
theorem nextItem_literal (b : Bool) {q : Byte} {w : Str} (hq : isQuotedString q = true)
    (hw : QuotedBody q w) (B : Str) :
    nextItem b (q :: (w ++ q :: B)) = some (.token (literalKind q), B) := by
  have hcls := (charClass_quote_iff q).mpr hq
  have hlen := quotedLen_body (ne_backslash_of_quote hq) hw B
  have hdrop : (q :: (w ++ q :: B)).drop (w.length + 1 + 1) = B := by
    rw [List.drop_succ_cons, ← List.drop_drop, List.drop_left]
    rfl
  simp only [nextItem, lexHead, hcls, hlen, Option.map_some]
  rw [hdrop]
  unfold literalKind
  split <;> rfl

theorem run_literal (st : Stack) (l : TokenKind) {q : Byte} {w : Str} (hq : isQuotedString q = true)
    (hw : QuotedBody q w) (B : Str) :
    scanner.run ⟨st, l, q :: (w ++ q :: B)⟩ = scanner.run ⟨st, literalKind q, B⟩ := by
  have hlast : lastAfter l (literalKind q) = literalKind q := by
    unfold lastAfter literalKind
    split <;> rfl
  rw [run_inert l (nextItem_literal _ hq hw B) (literalKind_inert q), hlast]

/-- A quote ends the token in front of it. -/
theorem quote_separates {q : Byte} (hq : isQuotedString q = true) :
    isIdentChar q = false ∧ isWhitespace q = false ∧ q ≠ '/' ∧ q ≠ '*' := by
  have hcls := (charClass_quote_iff q).mpr hq
  refine ⟨?_, ?_, ?_, ?_⟩
  · rw [← Bool.not_eq_true, isIdentChar_iff, hcls]
    simp
  · rw [← Bool.not_eq_true, ← charClass_blank_iff, hcls]
    simp
  · rw [ne_eq, ← charClass_slash_iff, hcls]
    simp
  · rw [ne_eq, ← charClass_star_iff, hcls]
    simp

/-- **Literals are opaque**: behind a text that ends in code, a literal with any body is scanned as
the empty literal is. -/
theorem literal_opaque (v : XInputValidator) (A B w : Str) (q : Byte) (n : Nat)
    (hA : ∃ r, EndsClean v A r) (hq : isQuotedString q = true) (hw : QuotedBody q w) :
    v.outcome (A ++ q :: (w ++ q :: B)) n = v.outcome (A ++ q :: q :: B) n := by
  rcases hA with ⟨r, hA⟩
  rw [outcome_eq, outcome_eq]
  rcases quote_separates hq with ⟨hident, hblank, hsign⟩
  have hhead (t : Str) : ∀ d ∈ (q :: t).head?, isIdentChar d = false ∧ isWhitespace d = false := by
    intro d hd
    obtain rfl : q = d := Option.some.inj hd
    exact ⟨hident, hblank⟩
  have hu (t : Str) : ∀ d ∈ (q :: t).head?, isIdentChar d = false := fun d hd => (hhead t d hd).1
  have hb (t : Str) : beginsTemplate (q :: t) = false := beginsTemplate_of_head (hhead t)
  rcases hA.run_append with hgo | hnul
  · have hempty := run_literal r.stack r.last hq (.nil : QuotedBody q []) B
    rw [hgo _ (hu _) (hb _) hsign, hgo _ (hu _) (hb _) hsign, run_literal _ _ hq hw B, ← hempty]
    rfl
  · rw [hnul, hnul]

end

/-- A step over a token that leaves the stack. -/
theorem reaches_inert {st : Stack} {l : TokenKind} {t r : Str} (k : TokenKind)
    (hn : nextItem (inBlockComment st) t = some (.token k, r)) (hk : k.isInert = true) :
    scanner.Reaches ⟨st, l, t⟩ ⟨st, lastAfter l k, r⟩ :=
  reaches_of_item (c := ⟨st, l, t⟩) hn (Item.token_ne_stop k) (react_of_inert st hk)

theorem endsClean_call : EndsClean {} (lit "f(") ⟨[.lParen], .lParen, false⟩ :=
  have hlast : LastRead (({} : XInputValidator).start (lit "f(")) ⟨[], .ident, lit "("⟩
      (.token .lParen) :=
    ⟨reaches_inert .ident (by decide) rfl, by decide, by decide⟩
  EndsOutside.endsClean (r := ⟨[.lParen], .lParen, false⟩)
    (endsOutside_of_token hlast (by decide) (by decide) (by decide)) (by decide +kernel) rfl

/-- A body that looks like a comment and an open bracket. -/
theorem literal_opaque_in_call :
    ({} : XInputValidator).outcome (lit "f(" ++ (('"' : Char) : Byte) ::
        (lit "\\\" /* // #if (" ++ (('"' : Char) : Byte) :: lit ")")) 4 =
      ({} : XInputValidator).outcome
        (lit "f(" ++ (('"' : Char) : Byte) :: (('"' : Char) : Byte) :: lit ")") 4 :=
  literal_opaque {} (lit "f(") (lit ")") (lit "\\\" /* // #if (") '"' 4 ⟨_, endsClean_call⟩
    (by decide) (.escape _ (by repeat' first | exact .nil | refine .plain (by decide) (by decide) ?_))

end XeusCpp.Validator
