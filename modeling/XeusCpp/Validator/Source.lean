/-
# XeusCpp.Validator.Source — the validator on whole source texts.

The scan of a source text reads its pieces one after the other and does to the stack what
`OpenBrackets.take` does to the open brackets (`takes_piece`, `shows_render`). **`source_refines`**: over
every session of calls with source texts `validate` answers as `BracketValidator` does;
`validate_render` says so of one call.
-/
import XeusCpp.Logic.Session
import XeusCpp.Validator.Outline

namespace XeusCpp.Validator

open XeusCpp.Text XeusCpp.Logic

/-! ## One piece -/

theorem dropWhile_dropWhile_of_imp {α : Type} {p q : α → Bool} (h : ∀ x, p x = true → q x = true)
    (xs : List α) : (xs.dropWhile p).dropWhile q = xs.dropWhile q := by
  induction xs with
  | nil => rfl
  | cons x xs ih =>
      by_cases hx : p x = true
      · rw [List.dropWhile_cons_of_pos hx, ih, List.dropWhile_cons_of_pos (h x hx)]
      · rw [List.dropWhile_cons_of_neg hx]

/-- What a call shows of the run. -/
abbrev shows (c : Config) : Option (ValidationResult × Stack) := (scanner.run c).map Verdict.shown

section

variable {st : Stack} {l : TokenKind} {t : Str}

/-- The rest of a word may be read as a word of its own. -/
theorem shows_dropIdent (hl : isContinuation l = false) :
    shows ⟨st, l, t.dropWhile isIdentChar⟩ = shows ⟨st, l, t⟩ := by
  induction hn : t.length using Nat.strongRecOn generalizing t with
  | ind n ih =>
    cases t with
    | nil => rfl
    | cons c t =>
        by_cases hc : isIdentChar c = true
        · have hlast (k : TokenKind) (hk : isContinuation k = false) :
              isContinuation l = isContinuation k := hl.trans hk.symm
          rcases (isIdentChar_iff c).mp hc with hcls | hcls
          · rw [shows, shows, run_inert l (nextItem_word _ hcls t) rfl]
            exact run_shown (hlast _ rfl) _
          · -- a number in front of a word is a token of its own
            have hd := (charClass_digit_iff c).mp hcls
            have hlt : ((c :: t).dropWhile isDigit).length < n := by
              rw [← hn, List.dropWhile_cons_of_pos hd]
              exact Nat.lt_succ_of_le (List.dropWhile_suffix _).length_le
            have hstep := ih _ hlt (t := (c :: t).dropWhile isDigit) rfl
            rw [dropWhile_dropWhile_of_imp fun d hd =>
              (isIdentChar_iff d).mpr (.inr ((charClass_digit_iff d).mpr hd))] at hstep
            rw [hstep, shows, shows, run_inert l (nextItem_digit _ hd t) rfl]
            exact run_shown (hlast _ rfl) _
        · rw [List.dropWhile_cons_of_neg hc]

/-- So may the rest behind each of its characters. -/
theorem shows_identChar {c : Byte} (hc : isIdentChar c = true) :
    shows ⟨st, l, c :: t⟩ = shows ⟨st, .unknown, t⟩ := by
  rcases (isIdentChar_iff c).mp hc with hcls | hcls
  · have hlast : isContinuation .ident = isContinuation .unknown := rfl
    rw [shows, run_inert l (nextItem_word _ hcls t) rfl, List.dropWhile_cons_of_pos hc]
    exact (shows_dropIdent rfl).trans (run_shown hlast t)
  · have hlast : isContinuation .constant = isContinuation .unknown := rfl
    have hd := (charClass_digit_iff c).mp hcls
    rw [shows, run_inert l (nextItem_digit _ hd t) rfl]
    have hdrop : shows ⟨st, .constant, ((c :: t).dropWhile isDigit).dropWhile isIdentChar⟩ = _ :=
      shows_dropIdent rfl
    rw [dropWhile_dropWhile_of_imp fun d hd =>
      (isIdentChar_iff d).mpr (.inr ((charClass_digit_iff d).mpr hd)),
      List.dropWhile_cons_of_pos hc] at hdrop
    exact hdrop.symm.trans ((shows_dropIdent rfl).trans (run_shown hlast t))

end

/-- What a piece does to the open brackets, with the text `t` behind it: it is read, and the scan goes
on with `t`; or its bracket does not fit and ends the scan. -/
def Takes (o : OpenBrackets) (l : TokenKind) (p : Piece) (t : Str) : Prop :=
  match o.take p with
  | some o' => ∃ l', isContinuation l' = p.asks (isContinuation l) ∧
      shows ⟨o.stack, l, p.render ++ t⟩ = shows ⟨o'.stack, l', t⟩
  | none => scanner.run ⟨o.stack, l, p.render ++ t⟩ = some ⟨o.stack, l, true⟩

section

variable (o : OpenBrackets) (l : TokenKind) {t : Str}

/-- A piece without brackets that ends no template. -/
theorem takes_of_inert {p : Piece} (l' : TokenKind) (hp : p.symbols = []) (hend : p.isEnd = false)
    (hl : isContinuation l' = p.asks (isContinuation l))
    (h : shows ⟨o.stack, l, p.render ++ t⟩ = shows ⟨o.stack, l', t⟩) : Takes o l p t := by
  have htake : o.take p = some o := by
    rw [OpenBrackets.take, hp, reduce_nil, hend]
    simp
  unfold Takes
  rw [htake]
  exact ⟨l', hl, h⟩

/-- A piece that is one item. -/
theorem takes_of_item {p : Piece} {it : Item}
    (hn : nextItem false (p.render ++ t) = some (it, t)) (hit : it ≠ .stop)
    (hr : reactOut (markers o.brackets) it = markersAfter o.brackets p.symbols)
    (hend : p.isEnd = true ↔ it = .token .semicolon ∨ it = .token .rBrace)
    (hlast : isContinuation (lastAfter l it.kind) = p.asks (isContinuation l)) :
    Takes o l p t := by
  have hreact : react o.stack it = (o.take p).map OpenBrackets.stack :=
    (react_out (inBlockComment_openBrackets o) it).trans (reactOut_stack hr hend)
  rw [← inBlockComment_openBrackets o] at hn
  unfold Takes
  cases htake : o.take p with
  | some o' =>
      rw [htake] at hreact
      refine ⟨_, hlast, ?_⟩
      rw [shows, run_of_item (c := ⟨o.stack, l, _⟩) hn hit hreact]
  | none =>
      rw [htake] at hreact
      exact run_of_reject (c := ⟨o.stack, l, _⟩) hn hit hreact

/-- A token that leaves every stack ends no template. -/
theorem not_end_of_inert {k : TokenKind} (hk : k.isInert = true) :
    ¬ (Item.token k = .token .semicolon ∨ Item.token k = .token .rBrace) := by
  rintro (h | h) <;> obtain rfl := Item.token.inj h <;> cases hk

theorem takes_literal {q : Byte} {w : Str} (hq : isQuotedString q = true) (hw : QuotedBody q w) :
    Takes o l (.literal q w hq hw) t := by
  have hn := nextItem_literal false hq hw t
  have htext : (Piece.literal q w hq hw).render ++ t = q :: (w ++ q :: t) := by
    simp [Piece.render]
  rw [← htext] at hn
  refine takes_of_item o l hn (Item.token_ne_stop _)
    (reactOut_of_inert (literalKind_inert q) (markers_not_comment _)) ?_ ?_
  · exact iff_of_false Bool.false_ne_true (not_end_of_inert (literalKind_inert q))
  · show isContinuation (lastAfter l (literalKind q)) = false
    unfold literalKind
    split <;> rfl

theorem takes_lineComment {c : Str} (hline : OneLine c) (hnul : 0 ∉ c)
    (ht : isLineChar (t.headD 0) = false) : Takes o l (.lineComment c hline hnul) t := by
  have hhead : ∀ d ∈ t.head?, isLineChar d = false := by
    intro d hd
    rw [List.headD_eq_head?_getD, Option.mem_def.mp hd] at ht
    exact ht
  refine takes_of_inert o l .unknown rfl rfl rfl ?_
  rw [shows, Piece.render, List.append_assoc, run_line_comment (inBlockComment_openBrackets o),
    dropWhile_line_break hline hnul hhead]

theorem takes_blockComment {c : Str} (hend : ¬ lit "*/" <:+: c) (hread : bodyTail c = [])
    (ht : t.headD 0 ≠ '/' ∧ t.headD 0 ≠ '*') : Takes o l (.blockComment c hend hread) t := by
  refine takes_of_inert o l .slash rfl rfl rfl ?_
  have hb : inBlockComment (.lComment :: o.stack) = true := rfl
  have hopen : scanner.run ⟨o.stack, l, lit "/*" ++ (c ++ (lit "*/" ++ t))⟩ =
      scanner.run ⟨.lComment :: o.stack, .lComment, c ++ (lit "*/" ++ t)⟩ := by
    have hn : nextItem (inBlockComment (o.stack)) (lit "/*" ++ (c ++ (lit "*/" ++ t))) =
        some (.token .lComment, c ++ (lit "*/" ++ t)) := inBlockComment_openBrackets o ▸ rfl
    have hr : react (o.stack) (.token .lComment) = some (.lComment :: o.stack) := by
      rw [react_out (inBlockComment_openBrackets o)]
      rfl
    exact run_of_item (c := ⟨o.stack, l, _⟩) hn (Item.token_ne_stop _) hr
  -- the body is read without rest, up to the end of the comment
  have hbody : scanner.run ⟨.lComment :: o.stack, .lComment, c ++ (lit "*/" ++ t)⟩ =
      scanner.run ⟨o.stack, .slash, t⟩ := by
    refine run_body (Q := (· = scanner.run ⟨o.stack, .slash, t⟩)) hb (.inr rfl) hend
      (fun l' => ?_) .lComment
    rw [hread]
    exact (run_rComment hb t).trans (run_slash _ _ ht)
  have htext : (Piece.blockComment c hend hread).render ++ t =
      lit "/*" ++ (c ++ (lit "*/" ++ t)) := by
    simp [Piece.render]
  rw [shows, htext, hopen, hbody]

/-- A `#` is read with its word. -/
theorem nextItem_hash {blanks w : Str} (hblanks : ∀ c ∈ blanks, isWhitespace c = true)
    (hne : w ≠ []) (hw : ∀ c ∈ w, isAlpha c = true) (ht : ∀ d ∈ t.head?, isWhitespace d = true) :
    nextItem false ((('#' : Char) : Byte) :: (blanks ++ (w ++ t))) = some (.directive w, t) := by
  have hraw : ∀ c ∈ w, isRawChar c = true := fun c hc => (isAlpha_raw c (hw c hc)).1
  have hstop : ∀ d ∈ t.head?, isRawChar d = false := fun d hd => (blank_ends_word d (ht d hd)).1
  obtain ⟨c, w, rfl⟩ := List.exists_cons_of_ne_nil hne
  have hc : isWhitespace c = false := by
    rw [← Bool.not_eq_true]
    intro hblank
    have := (blank_ends_word c hblank).1
    rw [hraw c List.mem_cons_self] at this
    exact Bool.noConfusion this
  have hword : (blanks ++ (c :: w ++ t)).dropWhile isWhitespace = c :: w ++ t := by
    rw [List.dropWhile_append_of_pos hblanks]
    exact List.dropWhile_cons_of_neg (by simp [hc])
  show some (wordItem ((blanks ++ (c :: w ++ t)).dropWhile isWhitespace)) = _
  rw [hword, List.cons_append, wordItem_cons (isAlpha_raw c (hw c List.mem_cons_self)).2.1,
    ← List.cons_append, List.takeWhile_append_of_pos hraw, List.dropWhile_append_of_pos hraw,
    takeWhile_of_head hstop, dropWhile_of_head hstop, List.append_nil]

theorem takes_directive {blanks w : Str} (hblanks : ∀ c ∈ blanks, isWhitespace c = true)
    (hne : w ≠ []) (hw : ∀ c ∈ w, isAlpha c = true) (ht : t = [] ∨ isWhitespace (t.headD 0) = true) :
    Takes o l (.directive blanks w hblanks hne hw) t := by
  have hhead : ∀ d ∈ t.head?, isWhitespace d = true := by
    intro d hd
    obtain rfl | ht := ht
    · cases hd
    · rw [List.headD_eq_head?_getD, Option.mem_def.mp hd] at ht
      exact ht
  have hn := nextItem_hash hblanks hne hw hhead
  have htext : (Piece.directive blanks w hblanks hne hw).render ++ t =
      (('#' : Char) : Byte) :: (blanks ++ (w ++ t)) := by
    simp [Piece.render]
  rw [← htext] at hn
  refine takes_of_item o l hn (Item.directive_ne_stop w) (reactOut_directive_letters o.brackets hw)
    ?_ rfl
  exact iff_of_false Bool.false_ne_true (by simp)

/-- Outside blanks and punctuators nothing asks for more. -/
theorem asks_eq_false {c : Byte} (h : isCode c = true) (hblank : charClass c ≠ .blank)
    (hpunct : charClass c ≠ .punct) (b : Bool) : (Piece.code c h).asks b = false := by
  have hcomma : c ≠ ',' := by
    rintro rfl
    exact hpunct rfl
  have hslash : c ≠ '\\' := by
    rintro rfl
    exact hpunct rfl
  have hw : ¬ isWhitespace c = true := fun hw => hblank ((charClass_blank_iff c).mpr hw)
  simp [Piece.asks, hw, hcomma, hslash]

/-- The punctuators that ask for more are the excluded ones; two end a template. -/
theorem punctuator_asks : ∀ c, charClass c = .punct →
    isContinuation (punctuatorKind c) = (c == ',' || c == '\\') ∧ punctuatorKind c ≠ .space ∧
      (isExcluded c = true → c = ',' ∨ c = '\\') ∧
      (punctuatorKind c = .semicolon ∨ punctuatorKind c = .rBrace ↔ c = ';' ∨ c = '}') := by
  decide +kernel

/-- The characters that end a template. -/
theorem isEnd_iff {c : Byte} (h : isCode c = true) :
    (Piece.code c h).isEnd = true ↔ c = ';' ∨ c = '}' := by
  simp [Piece.isEnd]

theorem isEnd_of_class {c : Byte} (h : isCode c = true) (hcls : charClass c ≠ .punct) :
    (Piece.code c h).isEnd = false := by
  rw [← Bool.not_eq_true, isEnd_iff]
  rintro (rfl | rfl) <;> exact hcls rfl

/-- A character that is an item of its own. -/
theorem takes_char {c : Byte} (h : isCode c = true) {k : TokenKind}
    (hn : nextItem false (c :: t) = some (.token k, t)) (hk : k.isInert = true) (hspace : k ≠ .space)
    (hsym : bracketOfChar c = []) (hend : (Piece.code c h).isEnd = false)
    (hasks : isContinuation k = (Piece.code c h).asks (isContinuation l)) :
    Takes o l (.code c h) t := by
  have hlast : lastAfter l k = k := if_neg hspace
  refine takes_of_item o l hn (Item.token_ne_stop k) ?_ ?_ ?_
  · rw [reactOut_of_inert hk (markers_not_comment _), Piece.symbols, hsym]
    rfl
  · exact iff_of_false (by simp [hend]) (not_end_of_inert hk)
  · rw [Item.kind, hlast, hasks]

/-- A character of a word, or of a number. -/
theorem takes_word {c : Byte} (h : isCode c = true) (hc : isIdentChar c = true) :
    Takes o l (.code c h) t := by
  have hcls : charClass c = .word ∨ charClass c = .digit := (isIdentChar_iff c).mp hc
  have hpunct : charClass c ≠ .punct := by rcases hcls with hcls | hcls <;> simp [hcls]
  have hblank : charClass c ≠ .blank := by rcases hcls with hcls | hcls <;> simp [hcls]
  exact takes_of_inert o l .unknown (inert_of_isIdentChar c hc).2 (isEnd_of_class h hpunct)
    (asks_eq_false h hblank hpunct _).symm (shows_identChar hc)

/-- A blank. -/
theorem takes_blank {c : Byte} (h : isCode c = true) (hw : isWhitespace c = true) :
    Takes o l (.code c h) t := by
  have hcls : charClass c = .blank := (charClass_blank_iff c).mpr hw
  refine takes_of_inert o l l (inert_of_isWhitespace c hw).2 (isEnd_of_class h (by simp [hcls])) ?_ ?_
  · simp [Piece.asks, hw]
  · show shows ⟨o.stack, l, c :: t⟩ = _
    rw [shows, run_dropBlanks, List.dropWhile_cons_of_pos hw, ← run_dropBlanks]

/-- A sign that is neither a blank nor a punctuator. -/
theorem takes_sign {c : Byte} (h : isCode c = true) {k : TokenKind} (hpunct : charClass c ≠ .punct)
    (hblank : charClass c ≠ .blank) (hn : nextItem false (c :: t) = some (.token k, t))
    (hk : k.isInert = true) (hspace : k ≠ .space) (hcont : isContinuation k = false) :
    Takes o l (.code c h) t :=
  takes_char o l h hn hk hspace (inert_of_class c hpunct).2.1 (isEnd_of_class h hpunct)
    (hcont.trans (asks_eq_false h hblank hpunct _).symm)

/-- A punctuator. -/
theorem takes_punctuator {c : Byte} (h : isCode c = true) (hcls : charClass c = .punct) :
    Takes o l (.code c h) t := by
  have hhash : c ≠ '#' := by
    rintro rfl
    exact absurd h (by decide)
  have hn : nextItem false (c :: t) = some (.token (punctuatorKind c), t) := by
    have hspec := punctuatorKind_spec c
    have hlex : lexHead (c :: t) = some ⟨punctuatorKind c, 1, 1⟩ := by
      simp only [lexHead, hcls]
    rw [nextItem, hlex, Option.map_some]
    exact congrArg some
      (itemOf_plain hspec.1 hspec.2.2.1 (fun hk => hhash (hspec.2.2.2.2 hk)) t)
  obtain ⟨hkind, hspace, hex, hends⟩ := punctuator_asks c hcls
  have hw : ¬ isWhitespace c = true := by
    rw [← charClass_blank_iff, hcls]
    decide
  have hasks : isContinuation (punctuatorKind c) = (Piece.code c h).asks (isContinuation l) := by
    rw [hkind, Piece.asks, if_neg hw]
  by_cases hcont : c = ',' ∨ c = '\\'
  · refine takes_char o l h hn ?_ hspace ?_ ?_ hasks <;> rcases hcont with rfl | rfl <;> rfl
  · have hexcluded : isExcluded c = false := by
      rw [← Bool.not_eq_true]
      exact fun hyes => hcont (hex hyes)
    refine takes_of_item o l hn (Item.token_ne_stop _)
      (reactOut_punctuator o.brackets hcls hexcluded hhash) ?_ ?_
    · rw [isEnd_iff, Item.token.injEq, Item.token.injEq]
      exact hends.symm
    · rw [Item.kind, lastAfter, if_neg hspace, hasks]

/-- A character of code. -/
theorem takes_code {c : Byte} (h : isCode c = true) (ht : (Piece.code c h).Parts t) :
    Takes o l (.code c h) t := by
  have hquote : ¬ isQuotedString c = true := fun hq => by simp [isCode, hq] at h
  have hnul : c ≠ 0 := by
    rintro rfl
    exact absurd h (by decide)
  cases hcls : charClass c
  case quote => exact absurd ((charClass_quote_iff c).mp hcls) hquote
  case nul => exact absurd ((charClass_nul_iff c).mp hcls) hnul
  case blank => exact takes_blank o l h ((charClass_blank_iff c).mp hcls)
  case digit => exact takes_word o l h ((isIdentChar_iff c).mpr (.inr hcls))
  case word => exact takes_word o l h ((isIdentChar_iff c).mpr (.inl hcls))
  case punct => exact takes_punctuator o l h hcls
  case slash =>
    have hparts := ht.1 ((charClass_slash_iff c).mp hcls)
    refine takes_sign o l h (k := .slash) (by simp [hcls]) (by simp [hcls]) ?_ rfl (by decide) rfl
    simp only [nextItem, lexHead, hcls, slashLexeme, if_neg hparts.1, if_neg hparts.2,
      Option.map_some]
    rfl
  case star =>
    have hparts := ht.2 ((charClass_star_iff c).mp hcls)
    refine takes_sign o l h (k := .asterik) (by simp [hcls]) (by simp [hcls]) ?_ rfl (by decide) rfl
    simp only [nextItem, lexHead, hcls, starLexeme, if_neg hparts, Option.map_some]
    rfl
  case other =>
    refine takes_sign o l h (k := .unknown) (by simp [hcls]) (by simp [hcls]) ?_ rfl (by decide) rfl
    simp only [nextItem, lexHead, hcls, Option.map_some]
    rfl

/-- **The step lemma**: one case per piece. -/
theorem takes_piece (p : Piece) (ht : p.Parts t) : Takes o l p t := by
  cases p with
  | code c h => exact takes_code o l h ht
  | literal q w hq hw => exact takes_literal o l hq hw
  | lineComment c hline hnul => exact takes_lineComment o l hline hnul ht
  | blockComment c hend hread => exact takes_blockComment o l hend hread ht
  | directive blanks w hblanks hne hw => exact takes_directive o l hblanks hne hw ht

end

/-! ## Whole texts -/

theorem status_of_last (st : Stack) (l : TokenKind) (rejected : Bool) :
    (⟨st, l, rejected⟩ : Verdict).status =
      if isContinuation l ∨ (st ≠ [] ∧ rejected = false) then .incomplete
      else if rejected then .mismatch else .complete := by
  have hcont : isContinuation l = true ↔ l = .backslash ∨ l = .comma := by
    rw [isContinuation, Bool.or_eq_true, decide_eq_true_eq, decide_eq_true_eq]
  rw [Verdict.status]
  simp only [hcont, or_assoc]

theorem stack_eq_nil_iff (o : OpenBrackets) : o.stack = [] ↔ o = {} := by
  obtain ⟨ks, template⟩ := o
  cases template <;> simp [OpenBrackets.stack, markers]

/-- **The run lemma**: the scan of a source text reads its brackets. -/
theorem shows_render {ps : List Piece} (h : Separated ps) (o : OpenBrackets) (l : TokenKind) :
    shows ⟨o.stack, l, render ps⟩ =
      some (Prod.map id OpenBrackets.stack (BracketValidator.read o (isContinuation l) ps)) := by
  induction ps generalizing o l with
  | nil =>
      show (scanner.run ⟨o.stack, l, []⟩).map Verdict.shown = _
      rw [run_nil, Option.map_some, Verdict.shown, status_of_last]
      simp [BracketValidator.read, stack_eq_nil_iff]
  | cons p ps ih =>
      have htakes := takes_piece o l p h.1
      have htext : render (p :: ps) = p.render ++ render ps := List.flatMap_cons
      unfold Takes at htakes
      rw [htext, BracketValidator.read]
      cases htake : o.take p with
      | some o' =>
          rw [htake] at htakes
          obtain ⟨l', hl, hshows⟩ := htakes
          rw [hshows, ih h.2, hl]
      | none =>
          rw [htake] at htakes
          rw [shows, htakes, Option.map_some, Verdict.shown, status_of_last]
          simp

theorem start_stack {v : XInputValidator} {o : OpenBrackets} (hv : v.parentStack = o.stack)
    (ps : List Piece) : v.start (render ps) = ⟨(o.enter ps).stack, .unknown, render ps⟩ := by
  rw [XInputValidator.start, startStack, OpenBrackets.enter, hv]
  simp only [stack_eq_nil_iff]
  split_ifs <;> rfl

/-- One call, with the open brackets on the stack before it. -/
theorem validate_render {v : XInputValidator} {o : OpenBrackets} (hv : v.parentStack = o.stack)
    {ps : List Piece} (h : Separated ps) (n : Nat) :
    ∃ r : Verdict, v.validate (render ps) n = some (r.status, r.after v (render ps) n) ∧
      r.status = (BracketValidator.validate o ps).1 ∧
      r.stack = (BracketValidator.validate o ps).2.stack := by
  have hshows := shows_render h (o.enter ps) .unknown
  obtain ⟨r, hrun, hr⟩ := Option.map_eq_some_iff.mp hshows
  rw [← start_stack hv ps] at hrun
  refine ⟨r, ?_, congrArg Prod.fst hr, congrArg Prod.snd hr⟩
  rw [validate_eq, hrun]
  rfl

/-! ## Sessions -/

/-- A call with a source text. -/
structure SourceCall extends SourceText where
  nbCharIndent : Nat

/-- The validator, call after call. -/
def sourceService : Service XInputValidator SourceCall ValidationResult := fun v c =>
  (v.validate (render c.pieces) c.nbCharIndent).map fun r => (r.2, r.1)

/-- The validator of brackets, call after call. -/
def bracketService : Service OpenBrackets SourceCall ValidationResult := fun o c =>
  let r := BracketValidator.validate o c.pieces
  some (r.2, r.1)

/-- The open brackets are on the stack. -/
def Holds (v : XInputValidator) (o : OpenBrackets) : Prop := v.parentStack = o.stack

theorem source_call_refines : Refines sourceService bracketService Holds Eq := by
  intro v o hv c
  obtain ⟨r, hcall, hstatus, hstack⟩ := validate_render hv c.separated c.nbCharIndent
  rw [sourceService, hcall]
  exact .some ⟨hstack, hstatus⟩

/-- **The validator is a validator of brackets**: over every session of calls with source texts, each
from where the one before it ended, it answers as `BracketValidator` does on the brackets of the
code, and keeps the open ones. -/
theorem source_refines (calls : List SourceCall) :
    ∃ v o log, sourceService.session {} calls = some (v, log) ∧
      bracketService.session {} calls = some (o, log) ∧ v.parentStack = o.stack := by
  have hstart : Holds {} {} := rfl
  obtain ⟨o, log, hbrackets⟩ :=
    Service.exists_session (S := bracketService) (fun _ _ => rfl) {} calls
  obtain ⟨⟨v, log'⟩, hsession, hv, hlogs⟩ :=
    exists_of_rel_right (Refines.session source_call_refines hstart calls) hbrackets
  obtain rfl := hlogs.eq
  exact ⟨v, o, _, hsession, hbrackets, hv⟩

end XeusCpp.Validator
