/-
# XeusCpp.Validator.Cursor — the cursor of the lexer and the tokens it returns.

`lex_right_comment` moves the cursor by one character for a token of two; every other token is as
long as the way of the cursor. So the `/` of a `*/` is lexed again, with the character behind it: it
starts a line comment in front of a `/`, a new block comment in front of a `*`, and is a token of its
own in front of anything else.
-/
import XeusCpp.Validator.Seam

namespace XeusCpp.Validator

open XeusCpp.Text XeusCpp.Logic

/-! ## The cursor and the length of a token -/

theorem rComment_prefix_iff (c : Byte) (t : Str) :
    lit "*/" <+: c :: t ↔ c = '*' ∧ t.headD 0 = '/' := by
  constructor
  · rintro ⟨t', h⟩
    rcases List.cons.inj h with ⟨rfl, rfl⟩
    exact ⟨rfl, rfl⟩
  · rintro ⟨rfl, h⟩
    cases t with
    | nil => exact absurd h (by decide)
    | cons d t =>
        obtain rfl : d = '/' := h
        exact ⟨t, rfl⟩

/-- A token is as long as the way of the cursor, but for `*/`; a character of no token has length
0. -/
theorem lexHead_length {t : Str} {l : Lexeme} (h : lexHead t = some l) :
    (l.kind ≠ .unknown → (l.advance = l.length ↔ ¬ lit "*/" <+: t)) ∧
      (l.length ≤ l.advance ↔ ¬ lit "*/" <+: t) := by
  cases t with
  | nil =>
      rw [← Option.some.inj h]
      have : ¬ lit "*/" <+: ([] : Str) := by decide
      simp [this]
  | cons c t =>
      rw [rComment_prefix_iff]
      cases hcls : charClass c
      case star =>
        rw [(charClass_star_iff c).mp hcls]
        simp only [lexHead, hcls] at h
        rw [← Option.some.inj h]
        unfold starLexeme
        generalize t.headD 0 = d
        split_ifs with hd <;> simp [hd]
      all_goals
        have hne : c ≠ '*' := by
          intro hc
          rw [← charClass_star_iff, hcls] at hc
          exact absurd hc (by decide)
        simp only [lexHead, hcls] at h
        simp only [hne, false_and, not_false_eq_true, iff_true]
      case quote =>
        rcases Option.map_eq_some_iff.mp h with ⟨n, -, rfl⟩
        simp
      case slash =>
        rw [← Option.some.inj h]
        unfold slashLexeme
        split_ifs <;> simp
      all_goals
        rw [← Option.some.inj h]
        simp [Lexeme.run]

section

variable {code : Str} {p q : Nat} {tok : Token}

theorem lexHead_of_lex (h : lex code p = some (tok, q)) :
    ∃ l, lexHead (code.drop p) = some l ∧ tok = ⟨l.kind, p, l.length⟩ ∧ q = p + l.advance := by
  have hp := (lt_of_lex h).1
  rw [lex_eq hp] at h
  rcases Option.map_eq_some_iff.mp h with ⟨l, hl, hat⟩
  rcases Prod.mk.inj hat with ⟨rfl, rfl⟩
  exact ⟨l, hl, rfl, rfl⟩

theorem lex_cursor_iff (h : lex code p = some (tok, q)) (hk : tok.kind ≠ .unknown) :
    q = tok.buffer + tok.length ↔ ¬ lit "*/" <+: code.drop p := by
  rcases lexHead_of_lex h with ⟨l, hl, rfl, rfl⟩
  rw [Nat.add_left_cancel_iff]
  exact (lexHead_length hl).1 hk

theorem lex_end_le_iff (h : lex code p = some (tok, q)) :
    tok.buffer + tok.length ≤ q ↔ ¬ lit "*/" <+: code.drop p := by
  rcases lexHead_of_lex h with ⟨l, hl, rfl, rfl⟩
  rw [Nat.add_le_add_iff_left]
  exact (lexHead_length hl).2

variable (code) in
/-- Tokens lexed one after the other, from the cursor `p`. -/
inductive LexedFrom : Nat → List Token → Prop
  | nil (p : Nat) : LexedFrom p []
  | cons {p q : Nat} {tok : Token} {toks : List Token} :
      lex code p = some (tok, q) → LexedFrom q toks → LexedFrom p (tok :: toks)

/-- No token reaches into a later one. -/
def NonOverlapping (toks : List Token) : Prop :=
  toks.Pairwise fun a b => a.buffer + a.length ≤ b.buffer

theorem LexedFrom.le_buffer {toks : List Token} (h : LexedFrom code p toks) :
    ∀ b ∈ toks, p ≤ b.buffer := by
  induction h with
  | nil p => simp
  | cons hlex _ ih =>
      rcases lexHead_of_lex hlex with ⟨l, -, rfl, rfl⟩
      intro b hb
      rcases List.mem_cons.mp hb with rfl | hb
      · exact Nat.le_refl _
      · exact Nat.le_trans (Nat.le_add_right _ _) (ih b hb)

/-- Consecutive tokens overlap where one that is not the last starts at a `*/`. -/
theorem LexedFrom.nonOverlapping_iff {toks : List Token} (h : LexedFrom code p toks) :
    NonOverlapping toks ↔ ∀ a ∈ toks.dropLast, ¬ lit "*/" <+: code.drop a.buffer := by
  induction h with
  | nil p => simp [NonOverlapping]
  | @cons p q tok toks hlex hrest ih =>
      cases hrest with
      | nil => simp [NonOverlapping]
      | @cons _ _ tok' toks' hlex' hrest' =>
          have hbuf : tok.buffer = p := by
            rcases lexHead_of_lex hlex with ⟨l, -, rfl, -⟩
            rfl
          have hbuf' : tok'.buffer = q := by
            rcases lexHead_of_lex hlex' with ⟨l, -, rfl, -⟩
            rfl
          have hge := (LexedFrom.cons hlex' hrest').le_buffer
          -- the last token is not compared with anything behind it
          have hlast : (∀ a ∈ (tok :: tok' :: toks').dropLast, ¬ lit "*/" <+: code.drop a.buffer) ↔
              ¬ lit "*/" <+: code.drop tok.buffer ∧
                ∀ a ∈ (tok' :: toks').dropLast, ¬ lit "*/" <+: code.drop a.buffer :=
            List.forall_mem_cons
          rw [NonOverlapping, List.pairwise_cons, hlast]
          refine and_congr ?_ ih
          rw [hbuf, ← lex_end_le_iff hlex, hbuf]
          constructor
          · intro hall
            have := hall tok' List.mem_cons_self
            omega
          · intro hle b hb
            have := hge b hb
            omega

end

/-! ## Behind the end of a comment -/

section

variable {st : Stack} {l : TokenKind}

theorem nextItem_rComment (b : Bool) (B : Str) :
    nextItem b (lit "*/" ++ B) = some (.token .rComment, (('/' : Char) : Byte) :: B) := rfl

/-- A `*/` ends the comment, and its `/` is left to be read. -/
theorem run_rComment (hb : inBlockComment st = true) (B : Str) : scanner.run ⟨st, l, lit "*/" ++ B⟩ =
    scanner.run ⟨st.tail, .rComment, (('/' : Char) : Byte) :: B⟩ := by
  have hr : react st (.token .rComment) = some st.tail := by
    rw [react_in hb, if_pos rfl]
  exact run_of_item (c := ⟨st, l, _⟩) (nextItem_rComment _ B) (Item.token_ne_stop _) hr

theorem run_slash (st : Stack) (l : TokenKind) {B : Str} (h : B.headD 0 ≠ '/' ∧ B.headD 0 ≠ '*') :
    scanner.run ⟨st, l, (('/' : Char) : Byte) :: B⟩ = scanner.run ⟨st, .slash, B⟩ := by
  have hcls : charClass '/' = .slash := by decide
  have hn : nextItem (inBlockComment st) ((('/' : Char) : Byte) :: B) = some (.token .slash, B) := by
    simp only [nextItem, lexHead, hcls, slashLexeme, if_neg h.1, if_neg h.2, Option.map_some]
    rfl
  exact run_inert l hn rfl

/-- In front of a blank the `/` of a `*/` is a token of its own. -/
theorem run_rComment_blank (hb : inBlockComment st = true) (B : Str) :
    scanner.run ⟨st, l, lit "*/ " ++ B⟩ =
      scanner.run ⟨st.tail, .slash, B.dropWhile isWhitespace⟩ := by
  have : lit "*/ " ++ B = lit "*/" ++ ((' ' : Char) : Byte) :: B := rfl
  have hne : ((' ' : Char) : Byte) ≠ '/' ∧ ((' ' : Char) : Byte) ≠ '*' := by decide
  rw [this, run_rComment hb, run_slash (B := ((' ' : Char) : Byte) :: B) _ _ hne,
    run_dropBlanks,
    List.dropWhile_cons_of_pos (by decide)]

theorem tail_ne_self (hb : inBlockComment st = true) : st.tail ≠ st := by
  cases st with
  | nil => exact absurd hb (by decide)
  | cons k st => exact (List.cons_ne_self k st).symm

theorem run_last_slash (st : Stack) (l : TokenKind) :
    scanner.run ⟨st, l, [(('/' : Char) : Byte)]⟩ = some ⟨st, .slash, false⟩ := by
  rw [run_slash _ _ (by decide), run_nil]

/-- The comment is open to the end: a `/*` took the `*` of its end. -/
theorem run_hidden_end (hb : inBlockComment st = true) (l : TokenKind) :
    scanner.run ⟨st, l, lit "/*/"⟩ = some ⟨st, .slash, false⟩ := by
  have hn : nextItem true (lit "/*/") = some (.token .lComment, lit "/") := rfl
  rw [run_in_comment l hb hn (by decide)]
  exact run_last_slash st _

/-- The comment ends with the text. -/
theorem run_last_rComment (hb : inBlockComment st = true) (l : TokenKind) :
    scanner.run ⟨st, l, lit "*/"⟩ = some ⟨st.tail, .slash, false⟩ := by
  have := run_rComment (l := l) hb []
  rw [List.append_nil] at this
  rw [this, run_last_slash]

section Sign

variable {s : Stack}

/-- Behind code a line comment takes the bracket. -/
theorem slash_shows (hs : inBlockComment s = false) :
    (scanner.run ⟨s, .rComment, lit "//("⟩).map (·.stack) ≠
      (scanner.run ⟨s, .slash, lit "/("⟩).map (·.stack) := by
  have hn : nextItem (inBlockComment s) (lit "//(") = some (.token .unknown, []) := hs ▸ rfl
  have h1 : scanner.run ⟨s, .rComment, lit "//("⟩ = some ⟨s, .unknown, false⟩ := by
    rw [run_inert _ hn rfl, run_nil]
    rfl
  have h2 : scanner.run ⟨s, .slash, lit "/("⟩ = some ⟨.lParen :: s, .lParen, false⟩ :=
    (run_slash _ _ (by decide)).trans (run_lParen hs _)
  rw [h1, h2]
  intro h
  exact List.cons_ne_self _ _ (Option.some.inj h).symm

/-- Behind an open comment a line comment leaves its end, and a `/*` hides it. -/
theorem slash_shows_in_comment (hs : inBlockComment s = true) :
    (scanner.run ⟨s, .rComment, lit "//*/"⟩).map (·.stack) ≠
      (scanner.run ⟨s, .slash, lit "/*/"⟩).map (·.stack) := by
  have hn : nextItem true (lit "//*/") = some (.token .comment, lit "*/") := rfl
  rw [run_in_comment _ hs hn (by decide), run_last_rComment hs, run_hidden_end hs]
  intro h
  exact tail_ne_self hs (Option.some.inj h)

/-- Behind code a new comment is opened. -/
theorem star_shows (hs : inBlockComment s = false) :
    (scanner.run ⟨s, .rComment, lit "/*"⟩).map (·.stack) ≠
      (scanner.run ⟨s, .slash, lit "*"⟩).map (·.stack) := by
  have hn : nextItem (inBlockComment s) (lit "/*") = some (.token .lComment, []) := hs ▸ rfl
  have hr : react s (.token .lComment) = some (.lComment :: s) := by
    rw [react_out hs]
    rfl
  have h1 : scanner.run ⟨s, .rComment, lit "/*"⟩ = some ⟨.lComment :: s, .lComment, false⟩ := by
    rw [run_of_item (c := ⟨s, .rComment, lit "/*"⟩) hn (Item.token_ne_stop _) hr, run_nil]
    rfl
  have hn' : nextItem (inBlockComment s) (lit "*") = some (.token .asterik, []) := hs ▸ rfl
  have h2 : scanner.run ⟨s, .slash, lit "*"⟩ = some ⟨s, .asterik, false⟩ := by
    rw [run_inert _ hn' rfl, run_nil]
    rfl
  rw [h1, h2]
  intro h
  exact List.cons_ne_self _ _ (Option.some.inj h)

/-- Behind an open comment a `/*` hides its end. -/
theorem star_shows_in_comment (hs : inBlockComment s = true) :
    (scanner.run ⟨s, .rComment, lit "/*/"⟩).map (·.stack) ≠
      (scanner.run ⟨s, .slash, lit "*/"⟩).map (·.stack) := by
  rw [run_hidden_end hs, run_last_rComment hs]
  intro h
  exact tail_ne_self hs (Option.some.inj h).symm

end Sign

/-- Behind the `*/` of a comment, a `/` or `*` is read with the `/` of the `*/`, and for some text
behind it that shows. -/
theorem run_rComment_sign (hb : inBlockComment st = true) {c : Byte} (hc : c = '/' ∨ c = '*') :
    ∃ B, (scanner.run ⟨st, l, lit "*/" ++ c :: B⟩).map (·.stack) ≠
      (scanner.run ⟨st, l, lit "*/ " ++ c :: B⟩).map (·.stack) := by
  rcases hc with rfl | rfl
  · cases hb' : inBlockComment st.tail with
    | false =>
        refine ⟨lit "(", ?_⟩
        rw [run_rComment hb, run_rComment_blank hb]
        exact slash_shows hb'
    | true =>
        refine ⟨lit "*/", ?_⟩
        rw [run_rComment hb, run_rComment_blank hb]
        exact slash_shows_in_comment hb'
  · cases hb' : inBlockComment st.tail with
    | false =>
        refine ⟨[], ?_⟩
        rw [run_rComment hb, run_rComment_blank hb]
        exact star_shows hb'
    | true =>
        refine ⟨lit "/", ?_⟩
        rw [run_rComment hb, run_rComment_blank hb]
        exact star_shows_in_comment hb'

/-- Behind the `*/` of a comment, any other character is read as if a blank stood before it. -/
theorem run_rComment_append (hb : inBlockComment st = true) {t : Str}
    (ht : t.headD 0 ≠ '/' ∧ t.headD 0 ≠ '*') :
    scanner.run ⟨st, l, lit "*/" ++ t⟩ = scanner.run ⟨st, l, lit "*/ " ++ t⟩ := by
  rw [run_rComment hb, run_rComment_blank hb, run_slash _ _ ht, run_dropBlanks]

end

theorem start_of_comment {v : XInputValidator} (hv : inBlockComment v.parentStack = true)
    (input : Str) : v.start input = ⟨v.parentStack, .unknown, input⟩ := by
  have hne : v.parentStack ≠ [] := by
    intro h0
    rw [h0] at hv
    exact absurd hv (by decide)
  rw [XInputValidator.start, startStack, if_neg (by simp [hne])]

/-- **What the lexer consumes twice**: `q` is the end of the token unless the token is a `*/`, the
tokens of a sequence of calls overlap behind a `*/` only, and the text behind the `*/` of a comment
is read as it stands unless it starts with `/` or `*`. -/
theorem lex_consumes_once_iff (code : Str) (v : XInputValidator)
    (hv : inBlockComment v.parentStack = true) :
    (∀ p tok q, lex code p = some (tok, q) → tok.kind ≠ .unknown → tok.kind ≠ .eof →
      (q = tok.buffer + tok.length ↔ ¬ lit "*/" <+: code.drop p)) ∧
    (∀ p toks, LexedFrom code p toks →
      (NonOverlapping toks ↔ ∀ a ∈ toks.dropLast, ¬ lit "*/" <+: code.drop a.buffer)) ∧
    (∀ n, v.outcome (lit "*/") n = v.outcome (lit "*/ ") n) ∧
    ∀ c : Byte, (∀ B n, v.outcome (lit "*/" ++ c :: B) n = v.outcome (lit "*/ " ++ c :: B) n) ↔
      c ≠ '/' ∧ c ≠ '*' := by
  refine ⟨fun p tok q h hk _ => lex_cursor_iff h hk, fun p toks h => h.nonOverlapping_iff,
    fun n => ?_, fun c => ⟨fun h => ?_, fun hc B n => ?_⟩⟩
  · have := run_rComment_append (l := .unknown) hv (t := []) (by decide)
    rw [List.append_nil, List.append_nil] at this
    rw [outcome_eq, outcome_eq, start_of_comment hv, start_of_comment hv, this]
  · by_contra hc
    have hc' : c = '/' ∨ c = '*' := by tauto
    rcases run_rComment_sign (l := .unknown) hv hc' with ⟨B, hB⟩
    have heq := congrArg (Option.map Prod.snd) (h B 0)
    rw [outcome_eq, outcome_eq, start_of_comment hv, start_of_comment hv, Option.map_map,
      Option.map_map] at heq
    exact hB heq
  · rw [outcome_eq, outcome_eq, start_of_comment hv, start_of_comment hv,
      run_rComment_append hv (t := c :: B) hc]

theorem text_behind_comment :
    (∀ B n, ({ parentStack := [.lComment] } : XInputValidator).outcome
        (lit "*/" ++ (('x' : Char) : Byte) :: B) n =
      ({ parentStack := [.lComment] } : XInputValidator).outcome
        (lit "*/ " ++ (('x' : Char) : Byte) :: B) n) ↔
      (('x' : Char) : Byte) ≠ '/' ∧ (('x' : Char) : Byte) ≠ '*' :=
  (lex_consumes_once_iff [] { parentStack := [.lComment] } rfl).2.2.2 'x'

/-- A new comment at the end of an old one: its `/*` takes the `/` of the `*/`. -/
theorem star_behind_comment :
    let v : XInputValidator := { parentStack := [.lComment] }
    v.outcome (lit "*/" ++ lit "* x") 4 = some (.incomplete, [.lComment]) ∧
      v.outcome (lit "*/ " ++ lit "* x") 4 = some (.complete, []) := by
  decide +kernel

end XeusCpp.Validator
