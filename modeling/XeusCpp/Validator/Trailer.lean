/-
# XeusCpp.Validator.Trailer — layout behind code that waits for more.

A line break and a line comment leave the token `unknown`, which `validate` records like any other. So
a `,` in front of them is not the last token any more, and code that waits for more is reported as
complete, unless something is open. Where that is a block comment, the layout is the inside of it, and
may end it. **`trailer_incomplete_iff`** is the exact statement.
-/
import XeusCpp.Validator.LineComment

namespace XeusCpp.Validator

open XeusCpp.Text XeusCpp.Logic

/-- Layout: blanks, line breaks, and line comments that end with a line or with the text. -/
inductive Trailer : Str → Prop
  | nil : Trailer []
  | blank {c : Byte} {t : Str} : isWhitespace c = true → Trailer t → Trailer (c :: t)
  | line {t : Str} : Trailer t → Trailer ((('\n' : Char) : Byte) :: t)
  | comment {c t : Str} : OneLine c → (∀ d ∈ t.head?, d = '\n') → Trailer t →
      Trailer (lit "//" ++ (c ++ t))

/-- The last token behind layout: a line break and a comment leave `unknown`. -/
def lastBehind (l : TokenKind) (t : Str) : TokenKind := if t.all isWhitespace then l else .unknown

theorem lastBehind_unknown (t : Str) : lastBehind .unknown t = .unknown := ite_self _

theorem Trailer.head {t : Str} (h : Trailer t) :
    ∀ d ∈ t.head?, isWhitespace d = true ∨ d = '\n' ∨ d = '/' := by
  intro d hd
  cases h with
  | nil => exact absurd hd (by simp)
  | blank hc _ =>
      obtain rfl := Option.some.inj hd
      exact .inl hc
  | line _ => exact .inr (.inl (Option.some.inj hd).symm)
  | comment _ _ _ => exact .inr (.inr (Option.some.inj hd).symm)

/-- **The run over layout**, outside block comments: the stack stays, and the last token stays over
blanks only. -/
theorem run_trailer {st : Stack} {t : Str} (hb : inBlockComment st = false) (h : Trailer t)
    (l : TokenKind) :
    scanner.run ⟨st, l, t⟩ = some ⟨st, lastBehind l t, false⟩ := by
  induction h generalizing l with
  | nil => exact run_nil st l
  | @blank c t hc _ ih =>
      have hlast : lastBehind l (c :: t) = lastBehind l t := by
        rw [lastBehind, List.all_cons, hc, Bool.true_and]
        rfl
      rw [run_dropBlanks, List.dropWhile_cons_of_pos hc, ← run_dropBlanks, ih, hlast]
  | line _ ih =>
      rw [run_newline, ih, lastBehind_unknown]
      rfl
  | @comment c t hc hhead _ ih =>
      rw [run_line_comment hb]
      by_cases h0 : 0 ∈ c
      · -- the text ends at the NUL
        rcases dropWhile_line_nul hc h0 t with ⟨u, hu⟩
        have hn : nextItem (inBlockComment st) (0 :: u) = some (.stop, u) := hb ▸ rfl
        rw [hu, run_of_stop hn]
        rfl
      · have hbreak : ∀ d ∈ t.head?, isLineChar d = false := by
          intro d hd
          rw [hhead d hd]
          decide
        rw [dropWhile_line_break hc h0 hbreak, ih, lastBehind_unknown]
        rfl

section

variable {s t : Str} {st : Stack}

theorem Trailer.head_not_ident (h : Trailer t) : ∀ d ∈ t.head?, isIdentChar d = false := by
  intro d hd
  rcases h.head d hd with hblank | rfl | rfl
  · exact not_ident_of_blank hblank
  · decide
  · decide

theorem Trailer.not_template (h : Trailer t) : beginsTemplate t = false := by
  induction h with
  | nil => decide
  | blank hc _ ih => rwa [beginsTemplate_eq, List.dropWhile_cons_of_pos hc, ← beginsTemplate_eq]
  | line _ _ => exact beginsTemplate_newline _
  | comment _ _ _ _ => exact beginsTemplate_of_head (head_slash _)

/-- The last item of a text that ends with a `,` is the `,`, or the blanks behind it. -/
theorem last_comma (hs : scanner.Reaches (({} : XInputValidator).start s) ⟨st, .comma, []⟩)
    {b : Config} {it : Item} (hlast : LastRead (({} : XInputValidator).start s) b it) :
    it = .token .comma ∨ it = .token .space := by
  have hne : (({} : XInputValidator).start s).text ≠ [] := by
    intro h0
    have hsuf := text_suffix_of_reaches hlast.reaches
    rw [h0] at hsuf
    exact hlast.ne_nil (List.suffix_nil.mp hsuf)
  rcases lastRead_of_reaches hs rfl hne with ⟨b', it', hlast', -, -, hl⟩
  rcases hlast.unique hlast' with ⟨rfl, rfl⟩
  have hl' : TokenKind.comma = if it.kind = .space then b.last else it.kind := hl
  cases it with
  | stop => exact absurd (show TokenKind.comma = .eof from hl') (by decide)
  | directive w => exact absurd (show TokenKind.comma = .rawIdent from hl') (by decide)
  | token k =>
      by_cases hk : k = .space
      · exact .inr (congrArg Item.token hk)
      · rw [Item.kind, if_neg hk] at hl'
        exact .inl (congrArg Item.token hl'.symm)

/-- The scan of such a text goes on with the layout behind it. -/
theorem run_append_trailer (hs : scanner.Reaches (({} : XInputValidator).start s) ⟨st, .comma, []⟩)
    (ht : Trailer t) :
    scanner.run (({} : XInputValidator).start (s ++ t)) = scanner.run ⟨st, .comma, t⟩ := by
  refine run_append_of_reaches hs ?_ ?_ ht.head_not_ident ht.not_template ?_
  · rintro ⟨b, it, hlast, hb, u, hu⟩
    have hn : nextItem (inBlockComment b.stack) b.text =
        some (.token .unknown, u.dropWhile isLineChar) := by
      rw [hb, ← hu]
      rfl
    have hit := (Prod.mk.inj (Option.some.inj (hlast.item.symm.trans hn))).1
    rcases last_comma hs hlast with rfl | rfl
    · exact absurd hit (by decide)
    · exact absurd hit (by decide)
  · rintro ⟨b, it, hlast, ⟨w, hw, -⟩ | ⟨hw, -⟩⟩
    all_goals
      rcases last_comma hs hlast with rfl | rfl
      · exact absurd hw (by simp)
      · exact absurd hw (by simp)
  · intro b it hlast
    constructor
    all_goals
      intro htext
      have hitem := hlast.item
      rw [htext] at hitem
      rcases last_comma hs hlast with rfl | rfl <;> cases hb : inBlockComment b.stack <;>
      · rw [hb] at hitem
        exact absurd (Prod.mk.inj (Option.some.inj hitem)).1 (by decide)

end

/-- Outside block comments a text with layout is unfinished by its last token, or by what is open. -/
theorem run_trailer_incomplete_iff {st : Stack} {t : Str} (hb : inBlockComment st = false)
    (ht : Trailer t) :
    (scanner.run ⟨st, .comma, t⟩).map Verdict.status = some .incomplete ↔
      (∀ c ∈ t, isWhitespace c = true) ∨ st ≠ [] := by
  rw [run_trailer hb ht, Option.map_some, Option.some.injEq, status_eq_incomplete_iff]
  refine or_congr ?_ (and_iff_left rfl)
  show isContinuation (lastBehind .comma t) = true ↔ _
  rw [← List.all_eq_true, lastBehind]
  by_cases h : t.all isWhitespace = true
  · rw [if_pos h]
    exact iff_of_true rfl h
  · rw [if_neg h]
    exact iff_of_false (by decide) h

/-- **Layout behind a `,` keeps the code unfinished exactly when** it is blanks only, or something is
open in front of it, which is no block comment or one that the layout, read as its inside, leaves
unfinished. -/
theorem trailer_incomplete_iff (s t : Str) (st : Stack) (n : Nat)
    (hs : scanner.Reaches (({} : XInputValidator).start s) ⟨st, .comma, []⟩) (ht : Trailer t) :
    ∃ o : Opened, st = o.stack ∧ ({} : XInputValidator).status s n = some .incomplete ∧
      (({} : XInputValidator).status (s ++ t) n = some .incomplete ↔
        (∀ c ∈ t, isWhitespace c = true) ∨
          (o ≠ {} ∧ (o.comment = true → UnfinishedFrom o true t))) := by
  obtain ⟨o, hst⟩ : ∃ o : Opened, st = o.stack := by
    have hstart : ({} : XInputValidator).parentStack = ({} : Opened).stack := rfl
    rw [start_opened hstart] at hs
    obtain ⟨o, -, -, -, hst, -⟩ := reading_of_reaches hs
    exact ⟨o, hst⟩
  have hstatus : ({} : XInputValidator).status s n = some .incomplete := by
    rw [status_eq, Machine.run_eq_of_reaches hs, run_nil]
    rfl
  refine ⟨o, hst, hstatus, ?_⟩
  subst hst
  have hnil := opened_stack_eq_nil_iff o
  rw [status_eq, run_append_trailer hs ht]
  cases hb : o.comment with
  | false =>
      have hout : inBlockComment o.stack = false := by rw [inBlockComment_opened, hb]
      rw [run_trailer_incomplete_iff hout ht, ne_eq, hnil]
      simp
  | true =>
      have hopen : o ≠ {} := by
        rintro rfl
        cases hb
      have hin : inBlockComment o.stack = true := by rw [inBlockComment_opened, hb]
      -- blanks leave the comment open
      have hblank (h : ∀ c ∈ t, isWhitespace c = true) :
          (scanner.run ⟨o.stack, .comma, t⟩).map Verdict.status = some .incomplete := by
        rw [run_dropBlanks, List.dropWhile_eq_nil_iff.mpr h, run_nil]
        rfl
      have hunfinished : (scanner.run ⟨o.stack, .comma, t⟩).map Verdict.status = some .incomplete ↔
          UnfinishedFrom o true t := incomplete_iff_unfinished o .comma t
      constructor
      · exact fun h => .inr ⟨hopen, fun _ => hunfinished.mp h⟩
      · rintro (h | ⟨-, h⟩)
        · exact hblank h
        · exact hunfinished.mpr (h rfl)

theorem reaches_parameter :
    scanner.Reaches (({} : XInputValidator).start (lit "a,")) ⟨[], .comma, []⟩ :=
  Machine.Reaches.trans (t := ⟨[], .ident, lit ","⟩) (reaches_inert .ident (by decide) rfl)
    (reaches_inert .comma (by decide) rfl)

theorem trailer_behind_parameter :
    ∃ o : Opened, [] = o.stack ∧ ({} : XInputValidator).status (lit "a,") 4 = some .incomplete ∧
      (({} : XInputValidator).status (lit "a," ++ lit " \t") 4 = some .incomplete ↔
        (∀ c ∈ lit " \t", isWhitespace c = true) ∨
          (o ≠ {} ∧ (o.comment = true → UnfinishedFrom o true (lit " \t")))) :=
  trailer_incomplete_iff (lit "a,") (lit " \t") [] 4 reaches_parameter
    (.blank (by decide) (.blank (by decide) .nil))

/-- A line break makes unfinished code complete, and so does a line comment that ends the block comment
the `,` stands in. -/
theorem break_behind_parameter :
    scanner.Reaches (({} : XInputValidator).start (lit "a,")) ⟨[], .comma, []⟩ ∧
      Trailer (lit "\n") ∧ ({} : XInputValidator).status (lit "a,") 4 = some .incomplete ∧
      ({} : XInputValidator).status (lit "a," ++ lit "\n") 4 = some .complete ∧
      Trailer (lit "// */") ∧ ({} : XInputValidator).status (lit "/* a,") 4 = some .incomplete ∧
      ({} : XInputValidator).status (lit "/* a," ++ lit "// */") 4 = some .complete := by
  have hline : OneLine (lit " */") := show ∀ d ∈ lit " */", d ≠ '\n' ∧ d ≠ '\r' by decide +kernel
  have hcomment : Trailer (lit "// */") := .comment (t := []) hline nofun .nil
  exact ⟨reaches_parameter, .line .nil, by decide +kernel, by decide +kernel, hcomment,
    by decide +kernel, by decide +kernel⟩

end XeusCpp.Validator
