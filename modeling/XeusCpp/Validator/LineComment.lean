/-
# XeusCpp.Validator.LineComment — line comments and line breaks as layout.

Outside block comments `//` takes the rest of its line, and what is left is scanned as if the comment
had not been there: a line break behind code and a comment in front of it both leave `unknown` as the
last token (`run_append_line_comment`). What the `//` must not meet is a `*`, which makes `*/` of it,
and a NUL in the comment, which ends the text (`line_comment_invisible_iff`).
-/
import XeusCpp.Validator.Literal
import XeusCpp.Validator.Template

namespace XeusCpp.Validator

open XeusCpp.Text XeusCpp.Logic

/-! ## The rest of a line -/

/-- The text of a line comment. -/
def OneLine (c : Str) : Prop := ∀ d ∈ c, d ≠ '\n' ∧ d ≠ '\r'

theorem isLineChar_of_ne {d : Byte} (h : d ≠ '\n' ∧ d ≠ '\r') (h0 : d ≠ 0) : isLineChar d = true := by
  simp only [isLineChar, Bool.and_eq_true, bne_iff_ne]
  exact ⟨⟨h.2, h.1⟩, h0⟩

theorem dropWhile_line_break {c : Str} (hc : OneLine c) (h0 : 0 ∉ c) {u : Str}
    (hu : ∀ d ∈ u.head?, isLineChar d = false) : (c ++ u).dropWhile isLineChar = u := by
  have hall : c.dropWhile isLineChar = [] := by
    rw [List.dropWhile_eq_nil_iff]
    intro d hd
    exact isLineChar_of_ne (hc d hd) fun h => h0 (h ▸ hd)
  rw [dropWhile_append_of_nil hall]
  exact dropWhile_of_head hu

/-- A NUL stops the comment. -/
theorem dropWhile_line_nul {c : Str} (hc : OneLine c) (h0 : 0 ∈ c) (u : Str) :
    ∃ t, (c ++ u).dropWhile isLineChar = 0 :: t := by
  have hne : c.dropWhile isLineChar ≠ [] := List.ne_nil_of_mem (mem_dropWhile_of_mem h0 rfl)
  rw [dropWhile_append_of_ne hne]
  cases hd : c.dropWhile isLineChar with
  | nil => exact absurd hd hne
  | cons d t =>
      have hmem : d ∈ c := (List.dropWhile_suffix isLineChar).subset (hd ▸ List.mem_cons_self)
      have hstop : isLineChar d = false := by
        have := List.head_dropWhile_not isLineChar hne
        simpa [hd] using this
      refine ⟨t ++ u, ?_⟩
      by_contra h
      have hd0 : d ≠ 0 := by
        rintro rfl
        exact h rfl
      rw [isLineChar_of_ne (hc d hmem) hd0] at hstop
      exact Bool.noConfusion hstop

theorem run_line_comment {st : Stack} (hb : inBlockComment st = false) (l : TokenKind) (x : Str) :
    scanner.run ⟨st, l, lit "//" ++ x⟩ = scanner.run ⟨st, .unknown, x.dropWhile isLineChar⟩ := by
  have hn : nextItem (inBlockComment st) (lit "//" ++ x) =
      some (.token .unknown, x.dropWhile isLineChar) := hb ▸ rfl
  exact run_inert l hn rfl

/-! ## A line comment behind an arbitrary text -/

/-- The last token of the text is a `*`. -/
def EndsInStar (v : XInputValidator) (A : Str) : Prop :=
  ∃ b it, LastRead (v.start A) b it ∧ b.text = lit "*"

/-- Behind `A` a comment is as good as none. -/
def InvisibleComment (v : XInputValidator) (A c : Str) : Prop :=
  ∀ B n, v.outcome (A ++ (lit "//" ++ (c ++ (('\n' : Char) : Byte) :: B))) n =
    v.outcome (A ++ (('\n' : Char) : Byte) :: B) n

section

variable {v : XInputValidator} {A : Str} {r : Verdict}

/-- **The comment is read as one**, behind a `/` as well. -/
theorem run_append_line_comment (h : EndsClean v A r)
    (hr : scanner.Reaches (v.start A) ⟨r.stack, r.last, []⟩) (hstar : ¬ EndsInStar v A) (x : Str) :
    scanner.run (v.start (A ++ (lit "//" ++ x))) =
      scanner.run ⟨r.stack, .unknown, x.dropWhile isLineChar⟩ := by
  by_cases hslash : ∃ b it, LastRead (v.start A) b it ∧ b.text = lit "/"
  · rcases hslash with ⟨b, it, hlast, htext⟩
    have hrun : scanner.run (v.start (A ++ (lit "//" ++ x))) =
        scanner.run ⟨r.stack, b.last, b.text ++ (lit "//" ++ x)⟩ :=
      run_append_sign hr hlast (.inl htext) _
    -- the last `/` and the first of `//` are the sign
    have hn : nextItem (inBlockComment r.stack) (b.text ++ (lit "//" ++ x)) =
        some (.token .unknown, x.dropWhile isLineChar) := by
      rw [h.comment, htext, ← List.dropWhile_cons_of_pos (show isLineChar '/' = true by decide)]
      rfl
    rw [hrun]
    exact run_inert b.last hn rfl
  · have hgo := run_append_of_reaches hr h.line h.directive (u := lit "//" ++ x)
      (fun d hd => (head_slash _ d hd).1) (beginsTemplate_of_head (head_slash _))
      (fun b it hlast => ⟨fun h0 => absurd ⟨b, it, hlast, h0⟩ hslash,
        fun h0 => absurd ⟨b, it, hlast, h0⟩ hstar⟩)
    rw [hgo, run_line_comment h.comment]

/-- A line break is read from where the text ends. -/
theorem run_append_break (h : EndsClean v A r)
    (hr : scanner.Reaches (v.start A) ⟨r.stack, r.last, []⟩) (B : Str) :
    scanner.run (v.start (A ++ (('\n' : Char) : Byte) :: B)) =
      scanner.run ⟨r.stack, .unknown, B⟩ := by
  have hgo := (run_append_newline hr rfl h.directive B).1
  rw [start_append_of_break v A (.inr rfl) (beginsTemplate_newline B), hgo, run_newline]

/-- A bracket behind the line break is seen. -/
theorem run_break_lParen (h : EndsClean v A r)
    (hr : scanner.Reaches (v.start A) ⟨r.stack, r.last, []⟩) :
    scanner.run (v.start (A ++ (('\n' : Char) : Byte) :: [(('(' : Char) : Byte)])) =
      some ⟨.lParen :: r.stack, .lParen, false⟩ := by
  rw [run_append_break h hr, run_lParen h.comment]

/-- Behind a `*` the `//` is the end of a block comment that is not open. -/
theorem not_invisible_of_star (h : EndsClean v A r)
    (hr : scanner.Reaches (v.start A) ⟨r.stack, r.last, []⟩) (hstar : EndsInStar v A) (c : Str) :
    ¬ InvisibleComment v A c := by
  rcases hstar with ⟨b, it, hlast, htext⟩
  intro hinv
  set x := c ++ (('\n' : Char) : Byte) :: [(('(' : Char) : Byte)] with hx
  have hn : nextItem (inBlockComment r.stack) (b.text ++ (lit "//" ++ x)) =
      some (.token .rComment, lit "//" ++ x) := by
    rw [h.comment, htext]
    rfl
  have hrej : react r.stack (.token .rComment) = none := by
    rw [react_out h.comment]
    rfl
  have hrun : scanner.run (v.start (A ++ (lit "//" ++ x))) = some ⟨r.stack, b.last, true⟩ :=
    (run_append_sign hr hlast (.inr htext) _).trans
      (run_of_reject (c := ⟨r.stack, b.last, _⟩) hn (Item.token_ne_stop _) hrej)
  have heq := hinv [(('(' : Char) : Byte)] 0
  rw [outcome_eq, outcome_eq, hrun, run_break_lParen h hr] at heq
  exact List.cons_ne_self _ _ (Prod.mk.inj (Option.some.inj heq)).2.symm

theorem invisible_iff_of_not_star (h : EndsClean v A r)
    (hr : scanner.Reaches (v.start A) ⟨r.stack, r.last, []⟩) (hstar : ¬ EndsInStar v A) {c : Str}
    (hc : OneLine c) : InvisibleComment v A c ↔ 0 ∉ c := by
  constructor
  · intro hinv h0
    -- the scan stops at the NUL and does not see what the next line opens
    have heq := hinv [(('(' : Char) : Byte)] 0
    rcases dropWhile_line_nul hc h0 ((('\n' : Char) : Byte) :: [(('(' : Char) : Byte)]) with ⟨t, ht⟩
    have hn : nextItem (inBlockComment r.stack) (0 :: t) = some (.stop, t) := by
      rw [h.comment]
      rfl
    rw [outcome_eq, outcome_eq, run_append_line_comment h hr hstar, ht, run_of_stop hn,
      run_break_lParen h hr] at heq
    exact List.cons_ne_self _ _ (Prod.mk.inj (Option.some.inj heq)).2.symm
  · intro h0 B n
    have hbreak : ∀ d ∈ ((('\n' : Char) : Byte) :: B).head?, isLineChar d = false := by
      intro d hd
      obtain rfl : _ = d := Option.some.inj hd
      decide
    rw [outcome_eq, outcome_eq, run_append_line_comment h hr hstar, dropWhile_line_break hc h0 hbreak,
      run_newline, run_append_break h hr]

end

/-- **A line comment is invisible exactly when** no `*` stands right in front of it and no NUL in it,
or the scan does not come to it. -/
theorem line_comment_invisible_iff (v : XInputValidator) (A c : Str) (r : Verdict)
    (hA : EndsClean v A r) (hc : OneLine c) :
    InvisibleComment v A c ↔ StopsAtNul v A r ∨ (¬ EndsInStar v A ∧ 0 ∉ c) := by
  by_cases hnul : StopsAtNul v A r
  · refine iff_of_true (fun B n => ?_) (.inl hnul)
    rw [outcome_eq, outcome_eq, hnul.run_append, hnul.run_append]
  · have hr := hA.reaches.resolve_right hnul
    rw [or_iff_right hnul]
    by_cases hstar : EndsInStar v A
    · exact iff_of_false (not_invisible_of_star hA hr hstar c) fun h => h.1 hstar
    · rw [invisible_iff_of_not_star hA hr hstar hc, and_iff_right hstar]

theorem line_comment_invisible_in_call :
    InvisibleComment {} (lit "f(") (lit " it's") ↔
      StopsAtNul {} (lit "f(") ⟨[.lParen], .lParen, false⟩ ∨
        (¬ EndsInStar {} (lit "f(") ∧ 0 ∉ lit " it's") :=
  line_comment_invisible_iff {} (lit "f(") (lit " it's") _ endsClean_call
    (show ∀ d ∈ lit " it's", d ≠ '\n' ∧ d ≠ '\r' by decide +kernel)

theorem endsClean_pointer : EndsClean {} (lit "int *") ⟨[], .asterik, false⟩ :=
  have hident : scanner.Reaches (({} : XInputValidator).start (lit "int *")) ⟨[], .ident, lit " *"⟩ :=
    reaches_inert .ident (by decide) rfl
  have hblank : scanner.Reaches ⟨[], .ident, lit " *"⟩ ⟨[], .ident, lit "*"⟩ :=
    reaches_inert .space (by decide) rfl
  EndsOutside.endsClean (r := ⟨[], .asterik, false⟩)
    (endsOutside_of_token (k := .asterik) ⟨hident.trans hblank, by decide, by decide⟩
      (by decide) (by decide) (by decide)) (by decide +kernel) rfl

/-- A comment right behind a `*` is a mismatch. -/
theorem comment_behind_star :
    EndsClean {} (lit "int *") ⟨[], .asterik, false⟩ ∧ OneLine (lit " c") ∧
      ({} : XInputValidator).outcome (lit "int *" ++ (lit "//" ++ (lit " c" ++
        (('\n' : Char) : Byte) :: lit "p;"))) 4 = some (.mismatch, []) ∧
      ({} : XInputValidator).outcome (lit "int *" ++ (('\n' : Char) : Byte) :: lit "p;") 4 =
        some (.complete, []) :=
  ⟨endsClean_pointer, show ∀ d ∈ lit " c", d ≠ '\n' ∧ d ≠ '\r' by decide +kernel, by decide +kernel,
    by decide +kernel⟩

end XeusCpp.Validator
