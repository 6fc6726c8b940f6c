/-
# XeusCpp.Validator.Template — a template behind other code.

The word `template` opens a template where the pre-scan finds it, at the start of a text. Behind
anything else it is an identifier, so a template whose body is still missing is reported only when
something else is open as well.

`Unfinished` says, for an arbitrary text and without the validator, that something else is: the
items of the text are a word of brackets that leaves some open, or a comment, or a continued line.
`status_incomplete_iff` states that this is what the scan from an empty stack reports, and
`template_behind_iff` what follows for a text behind complete code.
-/
import XeusCpp.Validator.Opened

namespace XeusCpp.Validator

open XeusCpp.Text XeusCpp.Logic

/-! ## Unfinished texts -/

/-- `Reading t b c w s`: the items of `t` in front of `s` are the brackets `w`; behind them a comment
is open if `b`, and the last token asks for more if `c`. -/
abbrev Reading (t : Str) : Bool → Bool → List (Sym BracketKind) → Str → Prop :=
  ReadingFrom false false t

/-- The text ends with a bracket or a comment open or with a continued line, or it breaks off at a
stray item right behind a continuation. -/
def Unfinished (t : Str) : Prop :=
  ∃ b c w s it r ks, Reading t b c w s ∧ nextItem b s = some (it, r) ∧ Leaves w ks ∧
    ((it = .stop ∧ (ks ≠ [] ∨ b = true ∨ c = true)) ∨ (c = true ∧ b = false ∧ Stray ks it))

/-- With nothing open in front of it, a text is unfinished by its brackets, its comments and its last
token. -/
theorem unfinishedFrom_iff (t : Str) : UnfinishedFrom {} false t ↔ Unfinished t := by
  have hopen {ks : List BracketKind} {b : Bool} :
      (⟨⟨ks, false⟩, b⟩ : Opened) ≠ {} ↔ ks ≠ [] ∨ b = true := by
    rw [← Bool.not_eq_false b]
    simp [-not_and, not_and_or]
  constructor
  · rintro ⟨⟨⟨ks, template⟩, b⟩, c, stray, ⟨⟨w, s, it, r, hread, hred, hn, hlast⟩, htemplate⟩, hrest⟩
    obtain rfl : template = false := by
      rw [← Bool.not_eq_true]
      exact fun h => absurd (htemplate.mp h).1 Bool.false_ne_true
    refine ⟨b, c, w, s, it, r, ks, hread, hn, reduce_eq_ended_iff.mp hred, ?_⟩
    rw [hopen] at hrest
    cases stray with
    | false =>
        refine .inl ⟨hlast, ?_⟩
        tauto
    | true =>
        have hc : c = true := hrest.resolve_right fun h => absurd h.2 (by decide)
        exact .inr ⟨hc, hlast.1, hlast.2⟩
  · rintro ⟨b, c, w, s, it, r, ks, hread, hn, hleaves, hend⟩
    have hred : reduce [] w = .ended ks := reduce_eq_ended_iff.mpr hleaves
    have htemplate : (false : Bool) = true ↔ (false : Bool) = true ∧ ¬ TemplateEnds {} false t := by
      simp
    rcases hend with ⟨hstop, hrest⟩ | ⟨hc, hb, hstray⟩
    · refine ⟨⟨⟨ks, false⟩, b⟩, c, false, ⟨⟨w, s, it, r, hread, hred, hn, hstop⟩, htemplate⟩, ?_⟩
      rw [hopen]
      tauto
    · exact ⟨⟨⟨ks, false⟩, b⟩, c, true,
        ⟨⟨w, s, it, r, hread, hred, hn, hb, hstray⟩, htemplate⟩, .inl hc⟩

/-- **A text is incomplete exactly when it is unfinished**, from an empty stack and with no
template. -/
theorem status_incomplete_iff {t : Str} {l : TokenKind} (hl : isContinuation l = false) :
    (scanner.run ⟨[], l, t⟩).map Verdict.status = some .incomplete ↔ Unfinished t := by
  have h := incomplete_iff_unfinished {} l t
  rw [hl] at h
  exact h.trans (unfinishedFrom_iff t)

/-! ## The end of a complete text -/

/-- What is left of a line ends as the line does. -/
theorem suffix_of_line {s u : Str} (h : s <:+ u ++ [(('\n' : Char) : Byte)]) (hne : s ≠ []) :
    ∃ t, s = t ++ [(('\n' : Char) : Byte)] := by
  rcases List.suffix_concat_iff.mp h with hnil | ⟨t, ht, -⟩
  · exact absurd hnil hne
  · exact ⟨t, by simpa using ht⟩

theorem not_closes_newline {q : Byte} (hq : isQuotedString q = true) {w : Str} (h : ¬Closes q w) :
    ¬Closes q (w ++ [(('\n' : Char) : Byte)]) := by
  rintro ⟨w', t, ht, hw'⟩
  apply h
  rcases List.eq_nil_or_concat t with rfl | ⟨t, d, rfl⟩
  · -- the line break would be the closing quote
    have hne : q ≠ '\n' := by
      rintro rfl
      cases hq
    exact absurd (List.append_inj_right' ht rfl) (by simpa using hne.symm)
  · have hsplit : w ++ [(('\n' : Char) : Byte)] = (w' ++ q :: t) ++ [d] := by simpa using ht
    exact ⟨w', t, List.append_inj_left' hsplit rfl, hw'⟩

/-- A `#` and blanks do not end a line. -/
theorem stop_of_newline {b : Bool} {s r : Str}
    (h : nextItem b (s ++ [(('\n' : Char) : Byte)]) = some (.stop, r)) :
    0 ∈ s ++ [(('\n' : Char) : Byte)] := by
  by_contra h0
  obtain ⟨-, l, hl, hk, hend, -⟩ := hash_of_stop (by simp) h0 h
  obtain ⟨t, ht, hadv⟩ := eq_hash_of_kind hl hk
  rw [ht, hadv] at hend
  have hmem : (('\n' : Char) : Byte) ∈ (('#' : Char) : Byte) :: t := by
    rw [← ht]
    simp
  rcases List.mem_cons.mp hmem with he | hmem
  · exact absurd he (by decide)
  · exact absurd (List.dropWhile_eq_nil_iff.mp hend _ hmem) (by decide)

/-- A token at the end of a line is the line break itself. -/
theorem eq_nil_of_token_newline {b : Bool} {s : Str} {k : TokenKind}
    (h : nextItem b (s ++ [(('\n' : Char) : Byte)]) = some (.token k, [])) : s = [] := by
  by_contra hs
  cases hn : nextItem b s with
  | none =>
      obtain ⟨q, w, rfl, hq, hcl⟩ := lexHead_eq_none_iff.mp (Option.map_eq_none_iff.mp hn)
      have hnone : lexHead (q :: w ++ [(('\n' : Char) : Byte)]) = none :=
        lexHead_eq_none_iff.mpr ⟨q, _, rfl, hq, not_closes_newline hq hcl⟩
      rw [nextItem, hnone] at h
      cases h
  | some p =>
      obtain ⟨it, r⟩ := p
      -- a token that ends `s` leaves the line break, and so does one in front of its end
      by_cases hr : r = []
      · subst hr
        cases it with
        | stop =>
            by_cases h0 : (0 : Byte) ∈ s
            · obtain ⟨r', hr'⟩ := nextItem_append_nul h0 hn [(('\n' : Char) : Byte)]
              cases h.symm.trans hr'
            · have hw := (nextItem_seam_stop hs h0 hn).2.2 [(('\n' : Char) : Byte)]
              rw [List.dropWhile_cons_of_neg (by decide), wordItem_cons (by decide)] at hw
              cases h.symm.trans hw
        | token k' =>
            obtain ⟨P, hmem, -, hP⟩ := nextItem_seam_token hs hn
            have hgo := hP [(('\n' : Char) : Byte)] (noSign_of_break s (.inr rfl))
            rw [List.dropWhile_cons_of_neg (by simp [tailClasses_newline hmem])] at hgo
            cases h.symm.trans hgo
        | directive w =>
            have hgo := (nextItem_seam_directive hn).2 [(('\n' : Char) : Byte)]
            cases h.symm.trans hgo
      · have hgo := nextItem_append_of_ne hn hr [(('\n' : Char) : Byte)]
        have hnil := (Prod.mk.inj (Option.some.inj (h.symm.trans hgo))).2
        exact absurd hnil (by simp)

/-- A directive word at the end of a line takes the line break with it. -/
theorem word_ends_in_newline {b : Bool} {s w : Str}
    (h : nextItem b (s ++ [(('\n' : Char) : Byte)]) = some (.directive w, [])) :
    ∃ w', w = w' ++ [(('\n' : Char) : Byte)] := by
  obtain ⟨l, hl, hit⟩ := Option.map_eq_some_iff.mp h
  obtain ⟨-, -, h0, hw, hend⟩ := directive_of_itemOf hit
  have hall : w = ((s ++ [(('\n' : Char) : Byte)]).drop l.advance).dropWhile isWhitespace := by
    have hword := List.takeWhile_append_dropWhile (p := isRawChar)
      (l := ((s ++ [(('\n' : Char) : Byte)]).drop l.advance).dropWhile isWhitespace)
    rw [← hend, List.append_nil] at hword
    exact hw.trans hword
  have hsuf : w <:+ s ++ [(('\n' : Char) : Byte)] := by
    rw [hall]
    exact (List.dropWhile_suffix _).trans (List.drop_suffix _ _)
  apply suffix_of_line hsuf
  intro hnil
  rw [← hall, hnil] at h0
  exact absurd rfl h0

/-- More letters behind a line break do not make a word another directive. -/
theorem reactOut_directive_newline (st : Stack) (w x : Str) :
    reactOut st (.directive (w ++ [(('\n' : Char) : Byte)] ++ x)) =
      reactOut st (.directive (w ++ [(('\n' : Char) : Byte)])) := by
  have hcons : w ++ [(('\n' : Char) : Byte)] ++ x = w ++ (('\n' : Char) : Byte) :: x := by simp
  rw [hcons]
  simp only [reactOut, opensGroup_newline, closesGroup_newline]

/-! ## Behind complete code -/

/-- The scan of `P` stops at a NUL. -/
def EndsAtNul (P : Str) : Prop :=
  ∃ e r, scanner.Reaches (({} : XInputValidator).start P) e ∧
    nextItem (inBlockComment e.stack) e.text = some (.stop, r) ∧ 0 ∈ e.text

/-- What decides whether `P ++ T` is incomplete, for a complete `P`: the scan comes to the end of `P`,
and the text it finds there is unfinished. That is `T`, without the letters up to its first blank
where `P` ends in the word of a directive. -/
structure DetectedBehind (P T : Str) : Prop where
  reads : ¬EndsAtNul P
  word : EndsInDirective {} P → Unfinished (T.dropWhile isRawChar)
  line : ¬EndsInDirective {} P → Unfinished T

theorem complete_status {r : Verdict} (h : r.status = .complete) :
    r.rejected = false ∧ r.stack = [] := by
  unfold Verdict.status at h
  split_ifs at h with hcont hrej
  have hno : r.rejected = false := by simpa using hrej
  refine ⟨hno, ?_⟩
  by_contra hne
  exact hcont (.inr (.inr ⟨hne, hno⟩))

section Behind

variable {Q T : Str} {r : Verdict}

/-- A scan that took every item comes to the end of its text, or to a NUL. -/
theorem reaches_end (hrun : scanner.run (({} : XInputValidator).start
    (Q ++ [(('\n' : Char) : Byte)])) = some r) (hrej : r.rejected = false)
    (hnul : ¬EndsAtNul (Q ++ [(('\n' : Char) : Byte)])) :
    ∃ e, scanner.Reaches (({} : XInputValidator).start (Q ++ [(('\n' : Char) : Byte)])) e ∧
      e.text = [] ∧ e.stack = r.stack := by
  obtain ⟨e, it, rest, he, hn, hstack, -, hend⟩ := end_of_run hrun
  rcases hend with ⟨rfl, -⟩ | ⟨-, -, hrej'⟩
  · refine ⟨e, he, ?_, hstack.symm⟩
    by_contra hne
    -- the text at `e` ends in the line break, so only a NUL can end the scan in front of it
    obtain ⟨u, hu⟩ := suffix_of_line (text_suffix_of_reaches he) hne
    refine hnul ⟨e, rest, he, hn, ?_⟩
    rw [hu] at hn ⊢
    exact stop_of_newline hn
  · rw [hrej] at hrej'
    cases hrej'

theorem start_newline_append (v : XInputValidator) (Q T : Str) :
    v.start (Q ++ [(('\n' : Char) : Byte)] ++ T) =
      (v.start (Q ++ [(('\n' : Char) : Byte)])).append T := by
  apply start_append_of_ne
  have hmem : (('\n' : Char) : Byte) ∈ Q ++ [(('\n' : Char) : Byte)] := by simp
  exact List.ne_nil_of_mem
    (mem_dropWhile_of_mem (mem_dropWhile_of_mem hmem (by decide)) (by decide))

/-- A NUL ends the scan of the longer text as well. -/
theorem run_behind_nul (hrun : scanner.run (({} : XInputValidator).start
    (Q ++ [(('\n' : Char) : Byte)])) = some r)
    (hnul : EndsAtNul (Q ++ [(('\n' : Char) : Byte)])) (T : Str) :
    scanner.run (({} : XInputValidator).start (Q ++ [(('\n' : Char) : Byte)] ++ T)) = some r := by
  obtain ⟨e, rest, he, hn, h0⟩ := hnul
  have hr : scanner.run e = some r := by
    rw [← Machine.run_eq_of_reaches he, hrun]
  obtain ⟨r', hn'⟩ := nextItem_append_nul h0 hn T
  rw [start_newline_append,
    Machine.run_eq_of_reaches (reaches_append he (List.ne_nil_of_mem h0) T),
    run_of_stop (c := e.append T) hn', ← hr, run_of_stop hn]
  rfl

/-- A directive that ends `P` takes the letters of `T` up to the first blank. -/
theorem run_behind_directive (hrun : scanner.run (({} : XInputValidator).start
    (Q ++ [(('\n' : Char) : Byte)])) = some r)
    (hdir : EndsInDirective {} (Q ++ [(('\n' : Char) : Byte)])) (T : Str) :
    scanner.run (({} : XInputValidator).start (Q ++ [(('\n' : Char) : Byte)] ++ T)) =
      scanner.run ⟨r.stack, .rawIdent, T.dropWhile isRawChar⟩ := by
  obtain ⟨b, it, hlast, hit⟩ := hdir
  obtain ⟨u, hu⟩ := suffix_of_line (text_suffix_of_reaches hlast.reaches) hlast.ne_nil
  have hitem := hlast.item
  rw [hu] at hitem
  rcases hit with ⟨w, rfl, hr⟩ | ⟨rfl, h0⟩
  · obtain ⟨st, hst⟩ := Option.ne_none_iff_exists'.mp hr
    obtain ⟨w', rfl⟩ := word_ends_in_newline hitem
    obtain ⟨hb, hw⟩ := nextItem_seam_directive hlast.item
    have hend := run_of_item hlast.item (Item.directive_ne_stop _) hst
    rw [← Machine.run_eq_of_reaches hlast.reaches, hrun, run_nil] at hend
    -- the word is the last item of `P`, so its stack is the one of `P`
    have hstack : r.stack = st := congrArg Verdict.stack (Option.some.inj hend)
    have hst' : react b.stack (.directive (w' ++ [(('\n' : Char) : Byte)] ++
        T.takeWhile isRawChar)) = some st := by
      rw [react_out hb] at hst ⊢
      rw [reactOut_directive_newline, hst]
    rw [start_newline_append, hlast.run_append T,
      run_of_item (c := b.append T) (hw T) (Item.directive_ne_stop _) hst', hstack]
    rfl
  · rw [hu] at h0
    exact absurd (stop_of_newline hitem) h0

/-- Behind any other end of a line `T` is scanned as it stands. -/
theorem run_behind_line (hrun : scanner.run (({} : XInputValidator).start
    (Q ++ [(('\n' : Char) : Byte)])) = some r) (hrej : r.rejected = false)
    (hnul : ¬EndsAtNul (Q ++ [(('\n' : Char) : Byte)]))
    (hdir : ¬EndsInDirective {} (Q ++ [(('\n' : Char) : Byte)])) (T : Str) :
    scanner.run (({} : XInputValidator).start (Q ++ [(('\n' : Char) : Byte)] ++ T)) =
      scanner.run ⟨r.stack, .unknown, T⟩ := by
  obtain ⟨e, he, hnil, hstack⟩ := reaches_end hrun hrej hnul
  obtain ⟨b, it, hlast, hit, hr, -⟩ := lastRead_of_reaches he hnil (by simp [XInputValidator.start])
  cases it with
  | stop => exact absurd rfl hit
  | directive w => exact absurd ⟨b, _, hlast, .inl ⟨w, rfl, by simp [hr]⟩⟩ hdir
  | token k =>
      have htext : b.text = [(('\n' : Char) : Byte)] := by
        have hitem := hlast.item
        obtain ⟨u, hu⟩ := suffix_of_line (text_suffix_of_reaches hlast.reaches) hlast.ne_nil
        rw [hu] at hitem
        rw [hu, eq_nil_of_token_newline hitem, List.nil_append]
      -- the line break leaves the stack alone
      have hsame : b.stack = r.stack := by
        have hk : Item.token k = .token .unknown := by
          have hitem := hlast.item
          rw [htext, nextItem_newline] at hitem
          exact (Prod.mk.inj (Option.some.inj hitem)).1.symm
        rw [hk, react_of_inert b.stack rfl] at hr
        rw [← hstack]
        exact Option.some.inj hr
      have happend : b.append T = ⟨r.stack, b.last, (('\n' : Char) : Byte) :: T⟩ := by
        rw [Config.append, htext, hsame]
        rfl
      rw [start_newline_append,
        hlast.run_append T, happend, run_newline]

theorem detected_iff {n : Nat}
    (hP : ({} : XInputValidator).status (Q ++ [(('\n' : Char) : Byte)]) n = some .complete) (T : Str) :
    ({} : XInputValidator).status (Q ++ [(('\n' : Char) : Byte)] ++ T) n = some .incomplete ↔
      DetectedBehind (Q ++ [(('\n' : Char) : Byte)]) T := by
  rw [status_eq] at hP ⊢
  obtain ⟨r, hrun, hstatus⟩ := Option.map_eq_some_iff.mp hP
  obtain ⟨hrej, hstack⟩ := complete_status hstatus
  by_cases hnul : EndsAtNul (Q ++ [(('\n' : Char) : Byte)])
  · rw [run_behind_nul hrun hnul, Option.map_some, hstatus]
    exact iff_of_false (by decide) fun h => h.reads hnul
  by_cases hdir : EndsInDirective {} (Q ++ [(('\n' : Char) : Byte)])
  · rw [run_behind_directive hrun hdir, hstack, status_incomplete_iff rfl]
    exact ⟨fun h => ⟨hnul, fun _ => h, fun hno => absurd hdir hno⟩, fun h => h.word hdir⟩
  · rw [run_behind_line hrun hrej hnul hdir, hstack, status_incomplete_iff rfl]
    exact ⟨fun h => ⟨hnul, fun hyes => absurd hyes hdir, fun _ => h⟩, fun h => h.line hdir⟩

end Behind

/-- **Behind complete lines a text is judged without its template**: it is reported incomplete
exactly when something else in it is unfinished, a bracket, a comment, a conditional group or a
continued line, whether it begins with `template` or not. -/
theorem template_behind_iff (P T : Str) (n : Nat) (hend : P.getLast? = some (('\n' : Char) : Byte))
    (hP : ({} : XInputValidator).status P n = some .complete) :
    ({} : XInputValidator).status (P ++ T) n = some .incomplete ↔ DetectedBehind P T := by
  obtain ⟨Q, rfl⟩ := List.getLast?_eq_some_iff.mp hend
  exact detected_iff hP T

theorem unfinished_template_paren : Unfinished (lit "template(") := by
  have hword : nextItem false (lit "template(") = some (.token .ident, lit "(") := by decide +kernel
  have hparen : nextItem false (lit "(") = some (.token .lParen, []) := by decide +kernel
  have hread : Reading (lit "template(") false false [.opn .paren] [] :=
    .item (.item .start hword (by decide) (by simp)) hparen (by decide) (by simp)
  have hleaves : Leaves [Sym.opn BracketKind.paren] [.paren] := reduce_eq_ended_iff.mp rfl
  exact ⟨false, false, [.opn .paren], [], .stop, [], [.paren], hread, rfl, hleaves,
    .inl ⟨rfl, .inl (by decide)⟩⟩

/-- The scan of a blank line. -/
theorem detectedBehind_blank_line : DetectedBehind (lit "\n") (lit "template(") where
  reads := by
    rintro ⟨e, r, he, -, h0⟩
    have hmem : (0 : Byte) ∈ lit "\n" := (text_suffix_of_reaches he).subset h0
    exact absurd hmem (by decide)
  word := by
    rintro ⟨b, it, hlast, hit⟩
    have hline : LastRead (({} : XInputValidator).start (lit "\n"))
        (({} : XInputValidator).start (lit "\n")) (.token .unknown) :=
      ⟨.refl _, by decide, by decide⟩
    obtain ⟨-, rfl⟩ := hlast.unique hline
    rcases hit with ⟨w, hw, -⟩ | ⟨hw, -⟩
    · cases hw
    · cases hw
  line := fun _ => unfinished_template_paren

/-- The open bracket is found behind a blank line. -/
theorem template_behind_blank_line :
    ({} : XInputValidator).status (lit "\n" ++ lit "template(") 4 = some .incomplete :=
  (template_behind_iff (lit "\n") (lit "template(") 4 rfl (by decide +kernel)).mpr
    detectedBehind_blank_line

/-- Behind a declaration a template without its body is reported complete. -/
theorem template_behind_declaration :
    let P := lit "int x;\n"
    let T := lit "template <class T>\n"
    P.getLast? = some (('\n' : Char) : Byte) ∧
      ({} : XInputValidator).status P 4 = some .complete ∧ beginsTemplate T = true ∧
      ({} : XInputValidator).status T 4 = some .incomplete ∧
      ({} : XInputValidator).status (P ++ T) 4 ≠ some .incomplete := by
  decide +kernel

end XeusCpp.Validator
