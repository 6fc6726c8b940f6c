/-
# XeusCpp.Validator.Completable — when an incomplete input can be completed.

The stack of a validator that started empty has a fixed form (`Shape`): open groups, with at most a
pending template below them and at most an open comment above. So there is a text that closes all of
it (`closers`), and a scan that took every item of its text can be continued to a complete one
(`complete_of_accepted`).

The last rule of `validate` reports `incomplete` whenever the last token is a `,` or a backslash, also
when the loop ended at an item that was rejected; no text behind such an item is ever read. The one
exception is a stray `#endif` at the very end, which more letters turn into another directive.
`completable_iff` is the exact statement.
-/
import XeusCpp.Validator.Comment
import XeusCpp.Validator.ReadBounds

namespace XeusCpp.Validator

open XeusCpp.Text XeusCpp.Logic

/-! ## The form of the stack -/

/-- The markers of a bracket and of a `#if` group. -/
def TokenKind.isGroup (k : TokenKind) : Prop :=
  k = .lSquare ∨ k = .lParen ∨ k = .lBrace ∨ k = .hash

/-- Open groups, and a pending template at the bottom only. -/
inductive Groups : Stack → Prop
  | nil : Groups []
  | template : Groups [.less]
  | group {k : TokenKind} {st : Stack} : k.isGroup → Groups st → Groups (k :: st)

/-- Open groups, with an open comment on top at most. -/
inductive Shape : Stack → Prop
  | groups {st : Stack} : Groups st → Shape st
  | comment {st : Stack} : Groups st → Shape (.lComment :: st)

theorem Groups.tail {st : Stack} (h : Groups st) : Groups st.tail := by
  cases h with
  | nil => exact .nil
  | template => exact .nil
  | group _ h => exact h

theorem Shape.groups_of_not_comment {st : Stack} (h : Shape st) (hb : inBlockComment st = false) :
    Groups st := by
  cases h with
  | groups h => exact h
  | comment _ => exact Bool.noConfusion hb

theorem Groups.closeBracket {st st' : Stack} {k : TokenKind} (h : Groups st)
    (hr : closeBracket k st = some st') : Groups st' := by
  cases st with
  | nil => exact absurd hr (by simp [Validator.closeBracket])
  | cons top st =>
      rw [Validator.closeBracket] at hr
      split at hr
      · rw [← Option.some.inj hr]
        split
        · exact h.tail.tail
        · exact h.tail
      · exact absurd hr (by simp)

/-- **The step lemma**: an item the stack takes keeps its form. -/
theorem Shape.react {st st' : Stack} {it : Item} (h : Shape st) (hr : react st it = some st') :
    Shape st' := by
  cases hb : inBlockComment st with
  | true =>
      rw [react_in hb] at hr
      rw [← Option.some.inj hr]
      split
      · cases h with
        | groups h => exact .groups h.tail
        | comment h => exact .groups h
      · exact h
  | false =>
      have hg := h.groups_of_not_comment hb
      rw [react_out hb] at hr
      unfold reactOut at hr
      split at hr
      case h_1 => exact absurd hr (by simp)
      -- an opening token pushes its marker on the groups
      case h_2 =>
        rw [← Option.some.inj hr]
        exact .groups (.group (.inl rfl) hg)
      case h_3 =>
        rw [← Option.some.inj hr]
        exact .groups (.group (.inr (.inl rfl)) hg)
      case h_4 =>
        rw [← Option.some.inj hr]
        exact .groups (.group (.inr (.inr (.inl rfl))) hg)
      case h_5 =>
        rw [← Option.some.inj hr]
        exact .comment hg
      case h_6 | h_7 | h_8 => exact .groups (hg.closeBracket hr)
      case h_9 =>
        rw [← Option.some.inj hr]
        split
        · exact .groups hg.tail
        · exact h
      -- a directive pushes, pops or leaves the stack
      case h_10 =>
        split_ifs at hr
        · rw [← Option.some.inj hr]
          exact .groups (.group (.inr (.inr (.inr rfl))) hg)
        · rw [← Option.some.inj hr]
          exact .groups hg.tail
        · rw [← Option.some.inj hr]
          exact h
      case h_11 =>
        rw [← Option.some.inj hr]
        exact h

/-- **The run lemma**: the form of the stack holds all along a scan. -/
theorem Shape.reaches {c c' : Config} (h : scanner.Reaches c c') (hc : Shape c.stack) :
    Shape c'.stack := by
  refine h.preserves (I := fun a => Shape a.stack) (fun ha hab => ?_) hc
  rcases scanMove_eq_next_iff.mp hab with ⟨it, -, -, hr, -⟩
  exact ha.react hr

theorem shape_start (s : Str) : Shape (({} : XInputValidator).start s).stack := by
  show Shape (startStack [] s)
  unfold startStack
  split
  · exact .groups .template
  · exact .groups .nil

/-! ## Closing what is open -/

/-- The text that closes one marker; a pending template waits for the end of its declaration. -/
def closer : TokenKind → Str
  | .lSquare => lit "]"
  | .lParen => lit ")"
  | .lBrace => lit "\x7d"
  | .lComment => lit "*/ "
  | .hash => lit "#endif "
  | _ => []

/-- The text that closes a stack. -/
def closers (st : Stack) : Str := st.flatMap closer

theorem eq_of_inTemplate {st : Stack} (h : inTemplate st = true) : st = [.less] := by
  rcases st with _ | ⟨k, _ | ⟨k', st⟩⟩
  · exact absurd h (by decide)
  · simpa [inTemplate] using h
  · exact absurd h (by simp [inTemplate])

theorem run_token {st st' : Stack} {t r : Str} {k : TokenKind} (last : TokenKind)
    (hb : inBlockComment st = false) (hn : nextItem false t = some (.token k, r))
    (hr : reactOut st (.token k) = some st') :
    scanner.run ⟨st, last, t⟩ = scanner.run ⟨st', lastAfter last k, r⟩ := by
  rw [← react_out hb] at hr
  exact run_of_item (c := ⟨st, last, t⟩) (hb ▸ hn) (Item.token_ne_stop k) hr

/-- A directive at the head of a text, with a blank behind its word. -/
theorem run_endif {st : Stack} (last : TokenKind) (u : Str) :
    scanner.run ⟨.hash :: st, last, lit "#endif " ++ u⟩ = scanner.run ⟨st, .rawIdent, u⟩ := by
  have hn : nextItem (inBlockComment (.hash :: st)) (lit "#endif " ++ u) =
      some (.directive (lit "endif"), ((' ' : Char) : Byte) :: u) := rfl
  have hr : react (.hash :: st) (.directive (lit "endif")) = some st := rfl
  rw [run_of_item (c := ⟨_, last, _⟩) hn (Item.directive_ne_stop _) hr, run_dropBlanks,
    List.dropWhile_cons_of_pos (by decide), ← run_dropBlanks]
  rfl

theorem run_closers {st : Stack} (h : Groups st) (last : TokenKind) :
    scanner.run ⟨st, last, closers st ++ lit ";"⟩ = some ⟨[], .semicolon, false⟩ := by
  have hnil (last : TokenKind) : scanner.run ⟨[], last, lit ";"⟩ = some ⟨[], .semicolon, false⟩ :=
    (run_token last rfl rfl rfl).trans (run_nil _ _)
  induction h generalizing last with
  | nil => exact hnil last
  | template => exact (run_token last rfl rfl rfl).trans (run_nil _ _)
  | @group k st hk hst ih =>
      rcases hk with rfl | rfl | rfl | rfl
      · exact (run_token (r := closers st ++ lit ";") last rfl rfl rfl).trans (ih _)
      · exact (run_token (r := closers st ++ lit ";") last rfl rfl rfl).trans (ih _)
      · -- the brace may end a template as well
        by_cases ht : inTemplate st = true
        · obtain rfl := eq_of_inTemplate ht
          exact (run_token (r := lit ";") last rfl rfl rfl).trans (hnil _)
        · have hr : reactOut (.lBrace :: st) (.token .rBrace) = some st := by
            show closeBracket .rBrace (.lBrace :: st) = _
            rw [closeBracket, if_pos (by decide), if_neg (by simp [ht])]
          exact (run_token (r := closers st ++ lit ";") last rfl rfl hr).trans (ih _)
      · have : closers (.hash :: st) ++ lit ";" = lit "#endif " ++ (closers st ++ lit ";") := by
          simp [closers, closer]
        rw [this, run_endif]
        exact ih _

/-! ## Separating what follows -/

/-- A word and a line break, behind and in front of blanks: they end every token and every line, and
give a bare `#` its word. -/
def separator : Str := lit " x \n"

theorem separator_append (u : Str) :
    separator ++ u = ((' ' : Char) : Byte) :: (lit "x \n" ++ u) := rfl

theorem run_blank_newline (st : Stack) (last : TokenKind) (u : Str) :
    scanner.run ⟨st, last, lit " \n" ++ u⟩ = scanner.run ⟨st, .unknown, u⟩ := by
  have hblank : (lit " \n" ++ u).dropWhile isWhitespace = (('\n' : Char) : Byte) :: u := by
    show (((' ' : Char) : Byte) :: (('\n' : Char) : Byte) :: u).dropWhile isWhitespace = _
    rw [List.dropWhile_cons_of_pos (by decide), List.dropWhile_cons_of_neg (by decide)]
  rw [run_dropBlanks, hblank, run_newline]

/-- In any state the separator is read to its end, from its second character. -/
theorem run_separator_word (st : Stack) (last : TokenKind) (u : Str) :
    scanner.run ⟨st, last, lit "x \n" ++ u⟩ = scanner.run ⟨st, .unknown, u⟩ := by
  have hn : nextItem (inBlockComment st) (lit "x \n" ++ u) =
      some (.token .ident, lit " \n" ++ u) := nextItem_word _ (by decide) _
  rw [run_inert last hn rfl, run_blank_newline]

/-- In any state the separator is read to its end. -/
theorem run_separator (st : Stack) (last : TokenKind) (u : Str) :
    scanner.run ⟨st, last, separator ++ u⟩ = scanner.run ⟨st, .unknown, u⟩ := by
  have hblank : (separator ++ u).dropWhile isWhitespace = lit "x \n" ++ u := by
    rw [separator_append, List.dropWhile_cons_of_pos (by decide)]
    exact List.dropWhile_cons_of_neg (by decide)
  rw [run_dropBlanks, hblank, run_separator_word]

theorem start_append_separator (v : XInputValidator) (s u : Str) :
    v.start (s ++ (separator ++ u)) = (v.start s).append (separator ++ u) := by
  refine start_append_of_break v s (.inl rfl) ?_
  have hblank : (separator ++ u).dropWhile isWhitespace =
      (('x' : Char) : Byte) :: ((' ' : Char) : Byte) :: (('\n' : Char) : Byte) :: u := by
    rw [separator_append, List.dropWhile_cons_of_pos (by decide)]
    exact List.dropWhile_cons_of_neg (by decide)
  rw [beginsTemplate_eq, hblank, List.takeWhile_cons_of_pos (by decide),
    List.takeWhile_cons_of_neg (by decide)]
  decide

/-- A bare `#` takes the `x` of the separator for its word. -/
theorem run_stop_separator {e : Config} {rest : Str} (hne : e.text ≠ []) (h0 : 0 ∉ e.text)
    (hn : nextItem (inBlockComment e.stack) e.text = some (.stop, rest)) (u : Str) :
    scanner.run (e.append (separator ++ u)) = scanner.run ⟨e.stack, .unknown, u⟩ := by
  obtain ⟨hb, -, hw⟩ := nextItem_seam_stop hne h0 hn
  have hn' := hw (separator ++ u)
  have hword : wordItem ((separator ++ u).dropWhile isWhitespace) =
      (.directive (lit "x"), lit " \n" ++ u) := rfl
  rw [hword] at hn'
  have hreact : react e.stack (.directive (lit "x")) = some e.stack := by
    rw [react_out hb]
    rfl
  rw [run_of_item (c := e.append _) hn' (Item.directive_ne_stop _) hreact, run_blank_newline]

/-- A directive word ends at the separator. -/
theorem run_directive_separator {b : Config} {st : Stack} {w : Str}
    (hitem : nextItem (inBlockComment b.stack) b.text = some (.directive w, []))
    (hreact : react b.stack (.directive w) = some st) (u : Str) :
    scanner.run (b.append (separator ++ u)) = scanner.run ⟨st, .unknown, u⟩ := by
  obtain ⟨-, hw⟩ := nextItem_seam_directive hitem
  have hn := hw (separator ++ u)
  rw [separator_append, List.takeWhile_cons_of_neg (by decide), List.append_nil,
    List.dropWhile_cons_of_neg (by decide)] at hn
  exact (run_of_item (c := b.append _) hn (Item.directive_ne_stop _) hreact).trans
    (run_separator _ _ u)

/-- A token takes of the separator nothing, its blanks, or, in a line comment, all but the line
break. -/
theorem run_token_separator {b : Config} {st : Stack} {k : TokenKind} (hb : b.text ≠ [])
    (hitem : nextItem (inBlockComment b.stack) b.text = some (.token k, []))
    (hreact : react b.stack (.token k) = some st) (u : Str) :
    scanner.run (b.append (separator ++ u)) = scanner.run ⟨st, .unknown, u⟩ := by
  obtain ⟨P, hPmem, -, hP⟩ := nextItem_seam_token hb hitem
  have hn := hP (separator ++ u) (noSign_of_break _ (.inl rfl))
  refine (run_of_item (c := b.append _) hn (Item.token_ne_stop k) hreact).trans ?_
  have hkeep {P : Byte → Bool} (hp : P ' ' = false) :
      (separator ++ u).dropWhile P = separator ++ u := by
    rw [separator_append]
    exact List.dropWhile_cons_of_neg (by simp [hp])
  simp only [tailClasses, List.mem_cons, List.not_mem_nil, or_false] at hPmem
  rcases hPmem with rfl | rfl | rfl | rfl | rfl
  · rw [hkeep rfl]
    exact run_separator _ _ u
  · rw [hkeep (by decide)]
    exact run_separator _ _ u
  · rw [hkeep (by decide)]
    exact run_separator _ _ u
  · exact run_separator_word _ _ u
  · exact run_newline _ _ u

/-- Behind a text whose scan ends at its end, the separator leaves the stack of the text. -/
theorem run_append_separator {c : Config} {r : Verdict} (h0 : 0 ∉ c.text)
    (h : scanner.run c = some r) (hr : r.rejected = false) (u : Str) :
    scanner.run (c.append (separator ++ u)) = scanner.run ⟨r.stack, .unknown, u⟩ := by
  obtain ⟨e, it, rest, hce, hn, hstack, -, hend⟩ := end_of_run h
  rcases hend with ⟨rfl, -⟩ | ⟨-, -, hrej⟩
  swap
  · rw [hr] at hrej
    exact absurd hrej (by decide)
  rw [hstack]
  by_cases hnil : e.text = []
  swap
  · have he0 : 0 ∉ e.text := fun hm => h0 ((text_suffix_of_reaches hce).subset hm)
    rw [Machine.run_eq_of_reaches (reaches_append hce hnil _)]
    exact run_stop_separator hnil he0 hn u
  by_cases hc : c.text = []
  · rw [eq_of_reaches_nil hce hc, Config.append, hc]
    exact run_separator _ _ u
  obtain ⟨b, it, hlast, hit, hreact, -⟩ := lastRead_of_reaches hce hnil hc
  rw [hlast.run_append _]
  cases it with
  | stop => exact absurd rfl hit
  | directive w => exact run_directive_separator hlast.item hreact u
  | token k => exact run_token_separator hlast.ne_nil hlast.item hreact u

/-- Whatever is open is closed by its closers and a semicolon. -/
theorem Shape.run_closers {st : Stack} (h : Shape st) (last : TokenKind) :
    scanner.run ⟨st, last, closers st ++ lit ";"⟩ = some ⟨[], .semicolon, false⟩ := by
  cases h with
  | groups h => exact Validator.run_closers h last
  | @comment st h =>
      have : closers (.lComment :: st) ++ lit ";" = lit "*/ " ++ (closers st ++ lit ";") := by
        simp [closers, closer]
      rw [this, run_rComment_blank rfl, ← run_dropBlanks]
      exact Validator.run_closers h _

/-- **What was not rejected can be completed.** -/
theorem complete_of_accepted {s : Str} {r : Verdict} (h0 : 0 ∉ s)
    (h : scanner.run (({} : XInputValidator).start s) = some r) (hr : r.rejected = false) :
    scanner.run (({} : XInputValidator).start (s ++ (separator ++ (closers r.stack ++ lit ";")))) =
      some ⟨[], .semicolon, false⟩ := by
  have hshape : Shape r.stack := by
    rcases end_of_run h with ⟨e, -, -, hce, -, hstack, -, -⟩
    exact hstack ▸ Shape.reaches hce (shape_start s)
  rw [start_append_separator, run_append_separator h0 h hr]
  exact hshape.run_closers _

/-! ## Behind a rejected item -/

section

variable {c e : Config} {it : Item} {r : Str}

/-- A rejected item starts with a sign: no blank and no character of an identifier. -/
theorem head_of_reject (hn : nextItem (inBlockComment e.stack) e.text = some (it, r))
    (hr : react e.stack it = none) :
    ∃ d ∈ e.text, isWhitespace d = false ∧ isIdentChar d = false := by
  -- blanks, words and numbers are never rejected
  have hinert {k : TokenKind} (hit : it = .token k) (hk : k.isInert = true) : False := by
    rw [hit, react_of_inert _ hk] at hr
    exact absurd hr (by simp)
  cases ht : e.text with
  | nil =>
      rw [ht] at hn
      obtain rfl : Item.stop = it := (Prod.mk.inj (Option.some.inj hn)).1
      rw [react_stop] at hr
      exact absurd hr (by simp)
  | cons d t =>
      rw [ht] at hn
      refine ⟨d, List.mem_cons_self, ?_, ?_⟩
      · rw [← Bool.not_eq_true]
        intro hd
        rw [nextItem_blank _ hd] at hn
        exact hinert (Prod.mk.inj (Option.some.inj hn)).1.symm rfl
      · rw [← Bool.not_eq_true, isIdentChar_iff]
        rintro (hd | hd)
        · rw [nextItem_word _ hd] at hn
          exact hinert (Prod.mk.inj (Option.some.inj hn)).1.symm rfl
        · rw [nextItem_digit _ ((charClass_digit_iff d).mp hd)] at hn
          exact hinert (Prod.mk.inj (Option.some.inj hn)).1.symm rfl

theorem start_append_of_reject {v : XInputValidator} {s : Str} (he : scanner.Reaches (v.start s) e)
    (hn : nextItem (inBlockComment e.stack) e.text = some (it, r)) (hr : react e.stack it = none)
    (u : Str) : v.start (s ++ u) = (v.start s).append u := by
  rcases head_of_reject hn hr with ⟨d, hd, hblank, hident⟩
  have hds : d ∈ s := (text_suffix_of_reaches he).subset hd
  exact start_append_of_ne v
    (List.ne_nil_of_mem (mem_dropWhile_of_mem (mem_dropWhile_of_mem hds hblank) hident)) u

theorem closesGroup_append {w : Str} (h : closesGroup w = true) (hw : w ≠ lit "endif") (x : Str) :
    closesGroup (w ++ x) = true ∧ opensGroup (w ++ x) = opensGroup w := by
  unfold closesGroup at h ⊢
  have htake : w.take 5 = lit "endif" := by
    have := (Bool.and_eq_true_iff.mp h).1
    simpa using this
  -- the word is longer than `endif`, so its first six characters are its own
  rcases w with _ | ⟨a, _ | ⟨b, _ | ⟨c, _ | ⟨d, _ | ⟨e, _ | ⟨f, w⟩⟩⟩⟩⟩⟩
  case cons.cons.cons.cons.cons.cons =>
    refine ⟨?_, rfl⟩
    simpa using h
  all_goals exact absurd htake hw

/-- An item that is rejected is rejected in every longer text, but for a last `#endif`. -/
theorem run_append_of_reject (hce : scanner.Reaches c e)
    (hn : nextItem (inBlockComment e.stack) e.text = some (it, r)) (hr : react e.stack it = none)
    (hend : ¬ (it = .directive (lit "endif") ∧ r = [])) (u : Str) :
    scanner.run (c.append u) = some ⟨e.stack, e.last, true⟩ := by
  refine run_append_of_rejected hce hn hr ?_ ?_
  · -- `/` and `*` are inert, so the rejected token is neither
    have hinert (htext : e.text = lit "/" ∨ e.text = lit "*") : False := by
      obtain ⟨k, hk, hinert⟩ := inert_of_sign htext hn
      rw [hk, react_of_inert _ hinert] at hr
      exact absurd hr (by simp)
    exact ⟨fun h0 => (hinert (.inl h0)).elim, fun h0 => (hinert (.inr h0)).elim⟩
  · rintro w rfl rfl
    rcases nextItem_seam_directive hn with ⟨hb, -⟩
    have hwne : w ≠ lit "endif" := fun h => hend ⟨h ▸ rfl, rfl⟩
    rw [react_out hb] at hr ⊢
    simp only [reactOut] at hr ⊢
    split_ifs at hr with ho hcl hh
    have happ := closesGroup_append hcl hwne (u.takeWhile isRawChar)
    rw [happ.2, if_neg ho, if_pos happ.1, if_neg hh]

end

/-! ## Incomplete and completable -/

/-- The status of a call. -/
def XInputValidator.status (v : XInputValidator) (input : Str) (n : Nat) :
    Option ValidationResult := (v.outcome input n).map Prod.fst

theorem status_eq (v : XInputValidator) (input : Str) (n : Nat) :
    v.status input n = (scanner.run (v.start input)).map (·.status) := by
  rw [XInputValidator.status, outcome_eq, Option.map_map]
  rfl

/-- If a fresh validator finds `s` incomplete, it finds some longer text complete. -/
def Completable (s : Str) : Prop :=
  ∀ n, ({} : XInputValidator).status s n = some .incomplete →
    ∃ t, ({} : XInputValidator).status (s ++ t) n = some .complete

/-- The scan of `s` rejects an item right behind a `,` or a backslash; a last `#endif`, which more
letters make another directive, does not count. -/
def RejectedAfterContinuation (s : Str) : Prop :=
  ∃ e it r, scanner.Reaches (({} : XInputValidator).start s) e ∧
    nextItem (inBlockComment e.stack) e.text = some (it, r) ∧ react e.stack it = none ∧
    (e.last = .backslash ∨ e.last = .comma) ∧ ¬ (it = .directive (lit "endif") ∧ r = [])

/-- A stray `#endif` at the end of the text becomes another directive with one more letter. -/
theorem complete_of_endif {s : Str} {e : Config}
    (he : scanner.Reaches (({} : XInputValidator).start s) e)
    (hn : nextItem (inBlockComment e.stack) e.text = some (.directive (lit "endif"), []))
    (hr : react e.stack (.directive (lit "endif")) = none) :
    scanner.run (({} : XInputValidator).start (s ++ (lit "x \n" ++ (closers e.stack ++ lit ";")))) =
      some ⟨[], .semicolon, false⟩ := by
  have hne : e.text ≠ [] := by
    rcases head_of_reject hn hr with ⟨d, hd, -⟩
    exact List.ne_nil_of_mem hd
  rcases nextItem_seam_directive hn with ⟨hb, hw⟩
  have hn' := hw (lit "x \n" ++ (closers e.stack ++ lit ";"))
  have hword : nextItem (inBlockComment e.stack)
      (e.text ++ (lit "x \n" ++ (closers e.stack ++ lit ";"))) =
        some (.directive (lit "endifx"), lit " \n" ++ (closers e.stack ++ lit ";")) := hn'
  have hreact : react e.stack (.directive (lit "endifx")) = some e.stack := by
    rw [react_out hb]
    rfl
  rw [start_append_of_reject he hn hr, Machine.run_eq_of_reaches (reaches_append he hne _),
    run_of_item (c := e.append _) hword (Item.directive_ne_stop _) hreact, run_blank_newline]
  exact (Shape.reaches he (shape_start s)).run_closers _

/-- No text behind an item that was rejected behind a continuation is ever read. -/
theorem not_completable_of_rejected {s : Str} (h : RejectedAfterContinuation s) :
    ¬ Completable s := by
  rcases h with ⟨e, it, r, he, hn, hr, hlast, hend⟩
  intro hcomp
  have hit : it ≠ .stop := by
    rintro rfl
    rw [react_stop] at hr
    exact absurd hr (by simp)
  have hst (b : Stack) : Verdict.status ⟨b, e.last, true⟩ = .incomplete := by
    rcases hlast with h | h <;> simp [Verdict.status, h]
  have hs : ({} : XInputValidator).status s 0 = some .incomplete := by
    rw [status_eq, Machine.run_eq_of_reaches he, run_of_reject hn hit hr, Option.map_some, hst]
  rcases hcomp 0 hs with ⟨t, ht⟩
  rw [status_eq, start_append_of_reject he hn hr, run_append_of_reject he hn hr hend,
    Option.map_some, hst] at ht
  exact absurd ht (by decide)

theorem completable_of_not_rejected {s : Str} (h0 : 0 ∉ s) (hcl : LiteralsClosed {} s)
    (hno : ¬ RejectedAfterContinuation s) : Completable s := by
  intro n hs
  rcases Option.isSome_iff_exists.mp (Config.literalsClosed_iff.mp hcl) with ⟨r, hrun⟩
  cases hr : r.rejected with
  | false =>
      refine ⟨separator ++ (closers r.stack ++ lit ";"), ?_⟩
      rw [status_eq, complete_of_accepted h0 hrun hr]
      rfl
  | true =>
      rcases end_of_run hrun with ⟨e, it, rest, he, hn, hstack, hlast, ⟨-, hacc⟩ | ⟨-, hreact, -⟩⟩
      · rw [hr] at hacc
        exact absurd hacc (by decide)
      -- the status is the one of a rejected text, so a continuation stands in front
      have hcont : e.last = .backslash ∨ e.last = .comma := by
        rw [status_eq, hrun, Option.map_some, Verdict.status, hr, hlast] at hs
        by_contra hc
        rw [not_or] at hc
        simp [hc.1, hc.2] at hs
      by_cases hend : it = .directive (lit "endif") ∧ rest = []
      · rcases hend with ⟨rfl, rfl⟩
        refine ⟨lit "x \n" ++ (closers e.stack ++ lit ";"), ?_⟩
        rw [status_eq, complete_of_endif he hn hreact]
        rfl
      · exact absurd ⟨e, it, rest, he, hn, hreact, hcont, hend⟩ hno

/-- **Incomplete means completable exactly when nothing was rejected behind a continuation.** -/
theorem completable_iff (s : Str) (h0 : 0 ∉ s) (hcl : LiteralsClosed {} s) :
    Completable s ↔ ¬ RejectedAfterContinuation s :=
  ⟨fun hcomp hrej => not_completable_of_rejected hrej hcomp, completable_of_not_rejected h0 hcl⟩

theorem completable_open_brace :
    Completable (lit "if (x) \x7b") ↔ ¬ RejectedAfterContinuation (lit "if (x) \x7b") :=
  completable_iff (lit "if (x) \x7b") (by decide)
    ((isSome_validate {} (lit "if (x) \x7b") 4).mp (by decide +kernel))

/-- `,)` is reported incomplete, and nothing completes it. -/
theorem not_completable_comma_paren :
    0 ∉ lit ",)" ∧ ({} : XInputValidator).status (lit ",)") 4 = some .incomplete ∧
      ¬ Completable (lit ",)") := by
  refine ⟨by decide, by decide +kernel, not_completable_of_rejected ?_⟩
  refine ⟨⟨[], .comma, lit ")"⟩, .token .rParen, [], .single (by decide), by decide, by decide,
    .inr rfl, by simp⟩

end XeusCpp.Validator
