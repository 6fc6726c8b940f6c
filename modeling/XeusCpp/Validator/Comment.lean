/-
# XeusCpp.Validator.Comment — what a block comment hides, and what it does not.

Inside a block comment the lexer still runs over code, and the validator drops the tokens. So a
literal, a `//` or a `/*` that starts in the comment may take the `*/` with it. `bodyTail` is what such
a reading leaves of a comment body. A body without `*/` is opaque exactly when nothing is left of it
and the text in front does not make another sign with the `/*` (`comment_opaque_iff`).

`run_body` carries the argument: a property of all runs from the tail of a body is one of all runs
from the body.
-/
import XeusCpp.Validator.Cursor
import XeusCpp.Validator.Directive

namespace XeusCpp.Validator

open XeusCpp.Text XeusCpp.Logic

/-! ## The body of a comment -/

/-- What a reading of a comment body as code leaves unread: it takes `//`, `/*` and closed literals
as units, any other character for itself, and stops at a NUL, at a literal that is not closed and at
a last `/`. -/
def bodyTail : Str → Str
  | [] => []
  | c :: t =>
    if c = 0 then c :: t
    else if isQuotedString c then
      match quotedLen c t with
      | none => c :: t
      | some n => bodyTail (t.drop n)
    else if c = '/' then
      match t with
      | [] => [c]
      | d :: t' => if d = '/' ∨ d = '*' then bodyTail t' else bodyTail (d :: t')
    else bodyTail t
termination_by t => t.length
decreasing_by all_goals simp only [List.length_drop, List.length_cons]; omega

theorem bodyTail_quote {q : Byte} (hq : isQuotedString q = true) (t : Str) :
    bodyTail (q :: t) = match quotedLen q t with
      | none => q :: t
      | some n => bodyTail (t.drop n) := by
  have h0 : q ≠ 0 := by
    rintro rfl
    exact absurd hq (by decide)
  rw [bodyTail.eq_def]
  simp only [h0, hq, if_false, if_true]

theorem bodyTail_sign {d : Byte} (hd : d = '/' ∨ d = '*') (t : Str) :
    bodyTail ((('/' : Char) : Byte) :: d :: t) = bodyTail t := by
  have hq : isQuotedString '/' = false := by decide
  have h0 : (('/' : Char) : Byte) ≠ 0 := by decide
  rw [bodyTail.eq_def]
  simp only [h0, hq, hd, if_false, if_true, Bool.false_eq_true]

theorem bodyTail_slash {d : Byte} (hd : ¬ (d = '/' ∨ d = '*')) (t : Str) :
    bodyTail ((('/' : Char) : Byte) :: d :: t) = bodyTail (d :: t) := by
  have hq : isQuotedString '/' = false := by decide
  have h0 : (('/' : Char) : Byte) ≠ 0 := by decide
  rw [bodyTail.eq_def]
  simp only [h0, hq, hd, if_false, if_true, Bool.false_eq_true]

theorem bodyTail_last_slash : bodyTail [(('/' : Char) : Byte)] = [(('/' : Char) : Byte)] := by
  decide +kernel

theorem bodyTail_nul (t : Str) : bodyTail (0 :: t) = 0 :: t := by
  rw [bodyTail.eq_def]
  simp only [if_true]

/-- A character that is part of no unit. -/
def Plain (c : Byte) : Prop := c ≠ 0 ∧ isQuotedString c = false ∧ c ≠ '/'

theorem bodyTail_plain {c : Byte} (hc : Plain c) (t : Str) : bodyTail (c :: t) = bodyTail t := by
  rw [bodyTail.eq_def]
  simp only [hc.1, hc.2.1, hc.2.2, if_false, Bool.false_eq_true]

theorem plain_of_class {c : Byte} (hq : charClass c ≠ .quote) (hs : charClass c ≠ .slash)
    (h0 : charClass c ≠ .nul) : Plain c := by
  refine ⟨fun h => h0 ((charClass_nul_iff c).mpr h), ?_, fun h => hs ((charClass_slash_iff c).mpr h)⟩
  rw [← Bool.not_eq_true, ← charClass_quote_iff]
  exact hq

/-- A longest run of plain characters is left out as a whole. -/
theorem bodyTail_dropWhile {P : Byte → Bool} (hP : ∀ c, P c = true → Plain c) (t : Str) :
    bodyTail (t.dropWhile P) = bodyTail t := by
  induction t with
  | nil => rfl
  | cons c t ih =>
      by_cases hc : P c = true
      · rw [List.dropWhile_cons_of_pos hc, ih, bodyTail_plain (hP c hc)]
      · rw [List.dropWhile_cons_of_neg hc]

theorem plain_of_isDigit {c : Byte} (h : isDigit c = true) : Plain c := by
  have hcls := (charClass_digit_iff c).mpr h
  exact plain_of_class (by simp [hcls]) (by simp [hcls]) (by simp [hcls])

theorem plain_of_isWhitespace {c : Byte} (h : isWhitespace c = true) : Plain c := by
  have hcls := (charClass_blank_iff c).mpr h
  exact plain_of_class (by simp [hcls]) (by simp [hcls]) (by simp [hcls])

theorem plain_of_isIdentChar {c : Byte} (h : isIdentChar c = true) : Plain c := by
  rcases (isIdentChar_iff c).mp h with hcls | hcls <;>
    exact plain_of_class (by simp [hcls]) (by simp [hcls]) (by simp [hcls])

section

variable {st : Stack} {Q : Option Verdict → Prop}

theorem nextItem_true {t : Str} {l : Lexeme} (h : lexHead t = some l) (hk : l.kind ≠ .eof) :
    nextItem true t = some (.token l.kind, t.drop l.advance) := by
  rw [nextItem, h, Option.map_some]
  cases hk' : l.kind
  case eof => exact absurd hk' hk
  all_goals rfl

theorem dropWhile_append_of_star {P : Byte → Bool} (hstar : P '*' = false) (c : Str) {u : Str}
    (hu : u = [] ∨ u.headD 0 = '*') : (c ++ u).dropWhile P = c.dropWhile P ++ u := by
  by_cases hnil : c.dropWhile P = []
  · rw [dropWhile_append_of_nil hnil, hnil, List.nil_append]
    apply dropWhile_of_head
    intro d hd
    cases u with
    | nil => exact absurd hd (by simp)
    | cons d' u =>
        rcases hu with hu | hu
        · exact absurd hu (by simp)
        · obtain rfl : d' = '*' := hu
          obtain rfl : _ = d := Option.some.inj hd
          exact hstar
  · exact dropWhile_append_of_ne hnil

/-- A token of a comment body: behind it stands a shorter body with the same tail. -/
structure BodyToken (u c c' : Str) (k : TokenKind) : Prop where
  item : nextItem true (c ++ u) = some (.token k, c' ++ u)
  ne_close : k ≠ .rComment
  suffix : c' <:+ c
  shorter : c'.length < c.length
  tail : bodyTail c' = bodyTail c

/-- A token of one character. -/
theorem BodyToken.single {u t : Str} {c : Byte} {k : TokenKind} {n : Nat}
    (hlex : lexHead (c :: (t ++ u)) = some ⟨k, n, 1⟩) (heof : k ≠ .eof) (hk : k ≠ .rComment)
    (htail : bodyTail (c :: t) = bodyTail t) : BodyToken u (c :: t) t k where
  item := nextItem_true hlex heof
  ne_close := hk
  suffix := List.suffix_cons c t
  shorter := Nat.lt_succ_self _
  tail := htail.symm

/-- A longest run of plain characters. -/
theorem BodyToken.run {P : Byte → Bool} {u t : Str} {c : Byte} {k : TokenKind}
    (hP : ∀ c, P c = true → Plain c) (hstar : P '*' = false) (hu : u = [] ∨ u.headD 0 = '*')
    (hc : P c = true) (hk : k ≠ .rComment)
    (hitem : nextItem true (c :: t ++ u) = some (.token k, (c :: t ++ u).dropWhile P)) :
    BodyToken u (c :: t) ((c :: t).dropWhile P) k where
  item := by
    rw [hitem, dropWhile_append_of_star hstar (c :: t) hu]
  ne_close := hk
  suffix := List.dropWhile_suffix _
  shorter := by
    rw [List.dropWhile_cons_of_pos hc]
    exact Nat.lt_succ_of_le (List.dropWhile_suffix _).length_le
  tail := bodyTail_dropWhile hP _

/-- A quote is left with what is behind it, or read up to the quote that closes it. -/
theorem bodyToken_quote {q : Byte} (hcls : charClass q = .quote) (u t : Str) :
    bodyTail (q :: t) = q :: t ∨ ∃ c' k, BodyToken u (q :: t) c' k := by
  have hq := (charClass_quote_iff q).mp hcls
  cases hlen : quotedLen q t with
  | none =>
      left
      rw [bodyTail_quote hq, hlen]
  | some m =>
      right
      have hm := quotedLen_le hlen
      have hlex : lexHead (q :: (t ++ u)) =
          some ⟨if q = '"' then .stringlit else .charlit, m + 1, m + 1⟩ := by
        simp only [lexHead, hcls, quotedLen_append (ne_backslash_of_quote hq) hlen u,
          Option.map_some]
      have hitem := nextItem_true hlex (by split <;> simp)
      rw [List.drop_succ_cons, List.drop_append_of_le_length hm.2] at hitem
      refine ⟨t.drop m, _, hitem, ?_, (List.drop_suffix _ _).trans (List.suffix_cons q t), ?_, ?_⟩
      · split <;> simp
      · rw [List.length_drop, List.length_cons]
        omega
      · rw [bodyTail_quote hq, hlen]

/-- A `/` is left at the end, and a token alone or with the sign behind it. -/
theorem bodyToken_slash (u t : Str) : bodyTail ((('/' : Char) : Byte) :: t) = (('/' : Char) : Byte) :: t ∨
    ∃ c' k, BodyToken u ((('/' : Char) : Byte) :: t) c' k := by
  cases t with
  | nil => exact .inl bodyTail_last_slash
  | cons d t =>
      right
      by_cases hd : d = '/' ∨ d = '*'
      · have htail := (bodyTail_sign hd t).symm
        have hsuf : t <:+ (('/' : Char) : Byte) :: d :: t :=
          (List.suffix_cons d t).trans (List.suffix_cons _ _)
        have hlt : t.length < ((('/' : Char) : Byte) :: d :: t).length := by
          rw [List.length_cons, List.length_cons]
          omega
        rcases hd with rfl | rfl
        · exact ⟨t, .comment, rfl, by decide, hsuf, hlt, htail⟩
        · exact ⟨t, .lComment, rfl, by decide, hsuf, hlt, htail⟩
      · have hne : d ≠ '/' ∧ d ≠ '*' := not_or.mp hd
        have hlex : lexHead ((('/' : Char) : Byte) :: (d :: t ++ u)) = some ⟨.slash, 1, 1⟩ := by
          show some (slashLexeme d) = _
          rw [slashLexeme, if_neg hne.1, if_neg hne.2]
        exact ⟨d :: t, .slash, .single hlex (by decide) (by decide) (bodyTail_slash hd t)⟩

/-- A `*` is a token of its own, for no `/` stands behind it. -/
theorem bodyToken_star {u t : Str} (hu : u = [] ∨ u.headD 0 = '*')
    (hc : ¬ lit "*/" <:+: (('*' : Char) : Byte) :: t) :
    BodyToken u ((('*' : Char) : Byte) :: t) t .asterik := by
  have hhead : (t ++ u).headD 0 ≠ '/' := by
    cases t with
    | nil =>
        rcases hu with rfl | hu
        · decide
        · rw [List.nil_append, hu]
          decide
    | cons d t =>
        intro hd
        obtain rfl : d = '/' := hd
        exact hc (List.IsPrefix.isInfix ⟨t, rfl⟩)
  have hlex : lexHead ((('*' : Char) : Byte) :: (t ++ u)) = some ⟨.asterik, 1, 1⟩ := by
    show some (starLexeme ((t ++ u).headD 0)) = _
    rw [starLexeme, if_neg hhead]
  have hplain : Plain '*' := plain_of_class (by decide) (by decide) (by decide)
  exact .single hlex (by decide) (by decide) (bodyTail_plain hplain t)

/-- **The step lemma**: a body without the end of a comment is its own tail, or starts with a
token. -/
theorem bodyToken {u : Str} (hu : u = [] ∨ u.headD 0 = '*') {c : Str} (hc : ¬ lit "*/" <:+: c) :
    bodyTail c = c ∨ ∃ c' k, BodyToken u c c' k := by
  cases c with
  | nil => exact .inl (bodyTail.eq_def [])
  | cons c t =>
    have hplain (hq : charClass c ≠ .quote) (hs : charClass c ≠ .slash) (h0 : charClass c ≠ .nul) :
        bodyTail (c :: t) = bodyTail t := bodyTail_plain (plain_of_class hq hs h0) t
    cases hcls : charClass c
    case quote => exact bodyToken_quote hcls u t
    case slash =>
      obtain rfl := (charClass_slash_iff c).mp hcls
      exact bodyToken_slash u t
    case star =>
      obtain rfl := (charClass_star_iff c).mp hcls
      exact .inr ⟨t, _, bodyToken_star hu hc⟩
    case nul =>
      obtain rfl := (charClass_nul_iff c).mp hcls
      exact .inl (bodyTail_nul t)
    case digit =>
      have hd := (charClass_digit_iff c).mp hcls
      exact .inr ⟨_, _, .run (fun _ => plain_of_isDigit) (by decide) hu hd (by decide)
        (nextItem_digit true hd (t ++ u))⟩
    case word =>
      have hw := (isIdentChar_iff c).mpr (.inl hcls)
      exact .inr ⟨_, _, .run (fun _ => plain_of_isIdentChar) (by decide) hu hw (by decide)
        (nextItem_word true hcls (t ++ u))⟩
    case blank =>
      have hw := (charClass_blank_iff c).mp hcls
      exact .inr ⟨_, _, .run (fun _ => plain_of_isWhitespace) (by decide) hu hw (by decide)
        (nextItem_blank true hw (t ++ u))⟩
    case punct =>
      have hlex : lexHead (c :: (t ++ u)) = some ⟨punctuatorKind c, 1, 1⟩ := by
        simp only [lexHead, hcls]
      have hspec := punctuatorKind_spec c
      exact .inr ⟨t, _, .single hlex hspec.1 hspec.2.2.2.1
        (hplain (by simp [hcls]) (by simp [hcls]) (by simp [hcls]))⟩
    case other =>
      have hlex : lexHead (c :: (t ++ u)) = some ⟨.unknown, 0, 1⟩ := by
        simp only [lexHead, hcls]
      exact .inr ⟨t, _, .single hlex (by decide) (by decide)
        (hplain (by simp [hcls]) (by simp [hcls]) (by simp [hcls]))⟩

/-- **A comment body is read to its tail**, whatever stands behind it: what holds of every run from
the tail holds of every run from the body. -/
theorem run_body (hb : inBlockComment st = true) {u : Str} (hu : u = [] ∨ u.headD 0 = '*') {c : Str}
    (hc : ¬ lit "*/" <:+: c) (h : ∀ l, Q (scanner.run ⟨st, l, bodyTail c ++ u⟩)) (l : TokenKind) :
    Q (scanner.run ⟨st, l, c ++ u⟩) := by
  induction hn : c.length using Nat.strongRecOn generalizing c l with
  | ind n ih =>
    rcases bodyToken hu hc with htail | ⟨c', k, htok⟩
    · rw [htail] at h
      exact h l
    · rw [run_in_comment l hb htok.item htok.ne_close]
      have hc' : ¬ lit "*/" <:+: c' := fun hin => hc (hin.trans htok.suffix.isInfix)
      exact ih _ (hn ▸ htok.shorter) hc' (by rwa [htok.tail]) _ rfl

/-- What a reading of a body can leave. -/
theorem bodyTail_cases (c : Str) : bodyTail c = [] ∨ bodyTail c = lit "/" ∨
    (∃ q w, bodyTail c = q :: w ∧ isQuotedString q = true ∧ quotedLen q w = none) ∨
    ∃ t, bodyTail c = 0 :: t := by
  fun_induction bodyTail c with
  | case1 => exact .inl rfl
  | case2 t => exact .inr (.inr (.inr ⟨t, rfl⟩))
  | case3 c t h0 hq hlen => exact .inr (.inr (.inl ⟨c, t, rfl, hq, hlen⟩))
  | case5 => exact .inr (.inl rfl)
  | case4 _ _ _ _ _ _ ih => exact ih
  | case6 _ _ _ _ _ ih => exact ih
  | case7 _ _ _ _ _ ih => exact ih
  | case8 _ _ _ _ _ ih => exact ih

end

/-! ## A comment behind an arbitrary text -/

/-- The text ends inside a line comment. -/
def EndsInLineComment (v : XInputValidator) (A : Str) : Prop :=
  ∃ b it, LastRead (v.start A) b it ∧ inBlockComment b.stack = false ∧ lit "//" <+: b.text

/-- The last token of the text is a `/` or a `*`. -/
def EndsInSign (v : XInputValidator) (A : Str) : Prop :=
  ∃ b it, LastRead (v.start A) b it ∧ (b.text = lit "/" ∨ b.text = lit "*")

/-- The scan of `A` comes to its end with the stack `st`, and neither in a comment nor in a
directive. -/
structure EndsOutside (v : XInputValidator) (A : Str) (st : Stack) : Prop where
  reaches : ∃ last, scanner.Reaches (v.start A) ⟨st, last, []⟩
  comment : inBlockComment st = false
  line : ¬ EndsInLineComment v A
  directive : ¬ EndsInDirective v A

/-- Behind `A` the comment with the body `c` is one marker: pushed by its `/*`, popped by its `*/`,
and nothing behind it tells it from a comment with no body. -/
def OpaqueComment (v : XInputValidator) (A : Str) (st : Stack) (c : Str) : Prop :=
  (∀ n, (v.outcome (A ++ (lit "/*" ++ c)) n).map Prod.snd = some (.lComment :: st)) ∧
  (∀ n, (v.outcome (A ++ (lit "/*" ++ (c ++ lit "*/"))) n).map Prod.snd = some st) ∧
  ∀ B n, v.outcome (A ++ (lit "/*" ++ (c ++ (lit "*/" ++ B)))) n =
    v.outcome (A ++ (lit "/*" ++ (lit "*/" ++ B))) n

/-- No word goes on with a comment sign. -/
theorem head_slash (x : Str) :
    ∀ d ∈ ((('/' : Char) : Byte) :: x).head?, isIdentChar d = false ∧ isWhitespace d = false := by
  intro d hd
  obtain rfl : _ = d := Option.some.inj hd
  decide

theorem start_append_slash (v : XInputValidator) (A x : Str) :
    v.start (A ++ (('/' : Char) : Byte) :: x) = (v.start A).append ((('/' : Char) : Byte) :: x) :=
  start_append_of_head v A (fun d hd => (head_slash x d hd).1) (beginsTemplate_of_head (head_slash x))

section

variable {v : XInputValidator} {A : Str} {st : Stack}

theorem run_append_of_reaches {st : Stack} {l : TokenKind}
    (hr : scanner.Reaches (v.start A) ⟨st, l, []⟩) (hline : ¬ EndsInLineComment v A)
    (hdir : ¬ EndsInDirective v A) {u : Str} (hu : ∀ d ∈ u.head?, isIdentChar d = false)
    (hb : beginsTemplate u = false) (hsign : ∀ b it, LastRead (v.start A) b it → NoSign b.text u) :
    scanner.run (v.start (A ++ u)) = scanner.run ⟨st, l, u⟩ := by
  rw [start_append_of_head v A hu hb]
  exact run_append_of_end hr hu (fun b it hlast hb hpre => hline ⟨b, it, hlast, hb, hpre⟩)
    (fun b w hlast hst => absurd ⟨b, _, hlast, .inl ⟨w, rfl, by simp [hst]⟩⟩ hdir) hsign

/-- A sign that ends the text leaves the stack. -/
theorem stack_of_last_sign {st : Stack} {l : TokenKind} (hr : scanner.Reaches (v.start A) ⟨st, l, []⟩)
    {b : Config} {it : Item} (hlast : LastRead (v.start A) b it)
    (htext : b.text = lit "/" ∨ b.text = lit "*") : b.stack = st := by
  have hA : (v.start A).text ≠ [] := by
    intro h0
    have hsuf := text_suffix_of_reaches hlast.reaches
    rw [h0] at hsuf
    exact hlast.ne_nil (List.suffix_nil.mp hsuf)
  rcases lastRead_of_reaches hr rfl hA with ⟨b', it', hlast', -, hst, -⟩
  rcases hlast.unique hlast' with ⟨rfl, rfl⟩
  obtain ⟨k, rfl, hk⟩ := inert_of_sign htext hlast.item
  rw [react_of_inert _ hk] at hst
  exact Option.some.inj hst

/-- A comment sign behind a text that ends in `/` or `*` is read with it. -/
theorem run_append_sign {l : TokenKind} (hr : scanner.Reaches (v.start A) ⟨st, l, []⟩) {b : Config}
    {it : Item} (hlast : LastRead (v.start A) b it) (htext : b.text = lit "/" ∨ b.text = lit "*")
    (x : Str) : scanner.run (v.start (A ++ (('/' : Char) : Byte) :: x)) =
      scanner.run ⟨st, b.last, b.text ++ (('/' : Char) : Byte) :: x⟩ := by
  rw [start_append_slash, hlast.run_append, ← stack_of_last_sign hr hlast htext]
  rfl

/-- The scan of `A ++ "/*" ++ x` opens the comment behind `A`. -/
theorem EndsOutside.run_append (h : EndsOutside v A st) (hsign : ¬ EndsInSign v A) (x : Str) :
    scanner.run (v.start (A ++ (lit "/*" ++ x))) = scanner.run ⟨.lComment :: st, .lComment, x⟩ := by
  have hopen (last : TokenKind) : scanner.run ⟨st, last, lit "/*" ++ x⟩ =
      scanner.run ⟨.lComment :: st, .lComment, x⟩ := by
    have hn : nextItem (inBlockComment st) (lit "/*" ++ x) = some (.token .lComment, x) :=
      h.comment ▸ rfl
    have hr : react st (.token .lComment) = some (.lComment :: st) := by
      rw [react_out h.comment]
      rfl
    exact run_of_item (c := ⟨st, last, lit "/*" ++ x⟩) hn (Item.token_ne_stop _) hr
  rcases h.reaches with ⟨last, hr⟩
  -- the text ends with no sign the `/*` could make longer
  have hgo := run_append_of_reaches hr h.line h.directive (fun d hd => (head_slash _ d hd).1)
    (beginsTemplate_of_head (head_slash _)) fun b it hlast =>
      (⟨fun h0 => absurd ⟨b, it, hlast, .inl h0⟩ hsign,
        fun h0 => absurd ⟨b, it, hlast, .inr h0⟩ hsign⟩ : NoSign b.text (lit "/*" ++ x))
  exact hgo.trans (hopen last)

/-- A body that is read without rest is opaque. -/
theorem opaque_of_bodyTail (h : EndsOutside v A st) (hsign : ¬ EndsInSign v A) {c : Str}
    (hc : ¬ lit "*/" <:+: c) (htail : bodyTail c = []) : OpaqueComment v A st c := by
  have hb : inBlockComment (.lComment :: st) = true := rfl
  -- the run behind the body does not look at the last token
  have hbody (B : Str) (l : TokenKind) :
      scanner.run ⟨.lComment :: st, l, c ++ (lit "*/" ++ B)⟩ =
        scanner.run ⟨st, .rComment, (('/' : Char) : Byte) :: B⟩ := by
    refine run_body (Q := (· = scanner.run ⟨st, .rComment, (('/' : Char) : Byte) :: B⟩)) hb
      (.inr rfl) hc (fun l => ?_) l
    rw [htail]
    exact run_rComment hb B
  have hend (l : TokenKind) : ∃ l', scanner.run ⟨.lComment :: st, l, c⟩ =
      some ⟨.lComment :: st, l', false⟩ := by
    have := run_body (Q := fun o => ∃ l', o = some ⟨.lComment :: st, l', false⟩) hb (.inl rfl) hc
      (fun l => by rw [htail]; exact ⟨l, run_nil _ _⟩) l
    rwa [List.append_nil] at this
  refine ⟨fun n => ?_, fun n => ?_, fun B n => ?_⟩
  · rcases hend .lComment with ⟨l', hl'⟩
    rw [outcome_eq, h.run_append hsign, hl']
    rfl
  · have := hbody [] .lComment
    rw [List.append_nil] at this
    rw [outcome_eq, h.run_append hsign, this, run_last_slash]
    rfl
  · rw [outcome_eq, outcome_eq, h.run_append hsign, h.run_append hsign, hbody, run_rComment hb]
    rfl

/-- A body that is not read to its end is not opaque. -/
theorem bodyTail_of_opaque (h : EndsOutside v A st) (hsign : ¬ EndsInSign v A) {c : Str}
    (hc : ¬ lit "*/" <:+: c) (hop : OpaqueComment v A st c) : bodyTail c = [] := by
  have hb : inBlockComment (.lComment :: st) = true := rfl
  have hne : TokenKind.lComment :: st ≠ st := List.cons_ne_self _ _
  have hopen := hop.1 0
  have hclose := hop.2.1 0
  rw [outcome_eq, h.run_append hsign, Option.map_map] at hopen hclose
  -- a verdict with the comment still open behind `*/` contradicts the second part
  have hstuck (hQ : ∀ l, ∃ l', scanner.run ⟨.lComment :: st, l, bodyTail c ++ lit "*/"⟩ =
      some ⟨.lComment :: st, l', false⟩) : False := by
    rcases run_body (Q := fun o => ∃ l', o = some ⟨.lComment :: st, l', false⟩) hb (.inr rfl) hc hQ
      .lComment with ⟨l', hl'⟩
    rw [hl'] at hclose
    exact hne (Option.some.inj hclose)
  rcases bodyTail_cases c with htail | htail | ⟨q, w, htail, hq, hlen⟩ | ⟨t, htail⟩
  · exact htail
  · refine (hstuck fun l => ⟨.slash, ?_⟩).elim
    rw [htail]
    exact run_hidden_end hb l
  · -- the literal is open at the end of the body
    have hnone := run_body (Q := (· = none)) hb (.inl rfl) hc (fun l => ?_) .lComment
    · rw [List.append_nil] at hnone
      rw [hnone] at hopen
      exact absurd hopen (by simp)
    · rw [htail, List.append_nil]
      refine Machine.run_of_stuck (scanMove_of_none ?_)
      simp [nextItem, lexHead, (charClass_quote_iff q).mpr hq, hlen]
  · refine (hstuck fun l => ⟨l, ?_⟩).elim
    rw [htail]
    exact run_of_stop (c := ⟨_, l, _⟩) rfl

end

/-! ## A `/` or `*` in front of the comment -/

section

variable {s : Stack}

/-- An open comment, followed by its end and a bracket. -/
theorem run_close_lParen (hs : inBlockComment s = false) (l : TokenKind) :
    scanner.run ⟨.lComment :: s, l, lit "*/("⟩ = some ⟨.lParen :: s, .lParen, false⟩ := by
  have hb : inBlockComment (.lComment :: s) = true := rfl
  have h1 := run_rComment (l := l) hb (lit "(")
  have h2 : scanner.run ⟨s, .rComment, lit "/("⟩ = some ⟨.lParen :: s, .lParen, false⟩ :=
    (run_slash _ _ (by decide)).trans (run_lParen hs _)
  exact h1.trans h2

/-- A `/` in front of the `*/` hides it. -/
theorem run_hidden_lParen (l : TokenKind) :
    scanner.run ⟨.lComment :: s, l, lit "/*/("⟩ = some ⟨.lComment :: s, .lParen, false⟩ := by
  have hn1 : nextItem true (lit "/*/(") = some (.token .lComment, lit "/(") := rfl
  have hn2 : nextItem true (lit "(") = some (.token .lParen, []) := rfl
  have hslash : scanner.run ⟨.lComment :: s, .lComment, lit "/("⟩ =
      scanner.run ⟨.lComment :: s, .slash, lit "("⟩ := run_slash _ _ (by decide)
  rw [run_in_comment l rfl hn1 (by decide)]
  refine hslash.trans ?_
  rw [run_in_comment _ rfl hn2 (by decide), run_nil]
  rfl

/-- A directive that uncovers a comment marker was the `#endif` of a group. -/
theorem tail_of_reactOut_directive {st : Stack} {w : Str} (hst : inBlockComment st = false)
    (h : reactOut st (.directive w) = some (.lComment :: s)) : st.tail = .lComment :: s := by
  simp only [reactOut] at h
  split_ifs at h
  · exact absurd (List.cons.inj (Option.some.inj h)).1 (by decide)
  · exact Option.some.inj h
  · rw [Option.some.inj h] at hst
    exact Bool.noConfusion hst

theorem length_of_reactOut_directive {st st' : Stack} {w : Str}
    (h : reactOut st (.directive w) = some st') : st.length ≤ st'.length + 1 := by
  simp only [reactOut] at h
  split_ifs at h
  all_goals
    rw [← Option.some.inj h]
  · rw [List.length_cons]
    omega
  · rw [List.length_tail]
    omega
  · exact Nat.le_succ _

/-- Behind a directive that uncovers the marker `*/(` belongs to the word. -/
theorem close_behind_directive {b : Config} {w : Str}
    (hitem : nextItem (inBlockComment b.stack) b.text = some (.directive w, []))
    (hreact : react b.stack (.directive w) = some (.lComment :: s)) :
    ∃ r, scanner.run (b.append (lit "*/(")) = some r ∧ r.stack ≠ s := by
  obtain ⟨hb, hw⟩ := nextItem_seam_directive hitem
  have hn := hw (lit "*/(")
  have hall : (lit "*/(").dropWhile isRawChar = [] := by decide
  rw [hall] at hn
  rw [react_out hb] at hreact
  have hlen := congrArg List.length (tail_of_reactOut_directive hb hreact)
  rw [List.length_tail, List.length_cons] at hlen
  -- the longer word is rejected, or leaves a stack no shorter than the marker's tail
  cases hr : react b.stack (.directive (w ++ (lit "*/(").takeWhile isRawChar)) with
  | none =>
      refine ⟨_, run_of_reject (c := b.append _) hn (Item.directive_ne_stop _) hr, ?_⟩
      intro heq
      have hsame : b.stack.length = s.length := congrArg List.length heq
      omega
  | some st' =>
      refine ⟨_, (run_of_item (c := b.append _) hn (Item.directive_ne_stop _) hr).trans
        (run_nil _ _), ?_⟩
      rw [react_out hb] at hr
      have hle := length_of_reactOut_directive hr
      intro heq
      have hsame : st'.length = s.length := congrArg List.length heq
      omega

/-- Behind a token `*/` closes the comment and `(` is pushed, but a last `/` hides the `*/`. -/
theorem close_behind_token {b : Config} {k : TokenKind} (hs : inBlockComment s = false)
    (hitem : nextItem (inBlockComment b.stack) b.text = some (.token k, []))
    (hb : b.text ≠ []) (hreact : react b.stack (.token k) = some (.lComment :: s)) :
    ∃ r, scanner.run (b.append (lit "*/(")) = some r ∧ r.stack ≠ s := by
  have hne (k : TokenKind) : k :: s ≠ s := List.cons_ne_self k s
  by_cases htext : b.text = lit "/"
  · -- the marker was there before, and its end is hidden
    obtain ⟨k', hk, hinert⟩ := inert_of_sign (.inl htext) hitem
    rw [hk, react_of_inert _ hinert] at hreact
    have hbst : b.stack = .lComment :: s := Option.some.inj hreact
    refine ⟨⟨.lComment :: s, .lParen, false⟩, ?_, hne _⟩
    rw [Config.append, hbst, htext]
    exact run_hidden_lParen _
  · obtain ⟨P, hPmem, hline, hP⟩ := nextItem_seam_token hb hitem
    have hstar : P '*' = false := by
      rw [← Bool.not_eq_true]
      intro hp
      obtain ⟨hb, t, ht⟩ := hline (tailClasses_star hPmem hp)
      -- a line comment leaves the stack, which is in no comment
      have hk : k = .unknown := by
        rw [hb, ← ht] at hitem
        exact (Item.token.inj (Prod.mk.inj (Option.some.inj hitem)).1).symm
      subst hk
      rw [react_of_inert _ rfl] at hreact
      rw [Option.some.inj hreact] at hb
      exact Bool.noConfusion hb
    have hno : NoSign b.text (lit "*/(") := ⟨fun h0 => absurd h0 htext, fun _ => by decide⟩
    have hn := hP _ hno
    have hcons : lit "*/(" = (('*' : Char) : Byte) :: lit "/(" := rfl
    rw [hcons, List.dropWhile_cons_of_neg (by simp [hstar])] at hn
    exact ⟨_, (run_of_item (c := b.append _) hn (Item.token_ne_stop k) hreact).trans
      (run_close_lParen hs _), hne _⟩

/-- If a scan ends in an open comment, then `*/(` behind its text does not undo the marker alone: it
is popped and the bracket is pushed, or it stays. -/
theorem run_append_close {d : Config} {r : Verdict} (hs : inBlockComment s = false)
    (hd : d.text ≠ []) (h : scanner.run d = some r) (hr : r.stack = .lComment :: s) :
    ∃ r', scanner.run (d.append (lit "*/(")) = some r' ∧ r'.stack ≠ s := by
  obtain ⟨e, it, rest, hde, hn, hstack, -, hend⟩ := end_of_run h
  rw [hr] at hstack
  have hcom : inBlockComment e.stack = true := hstack ▸ rfl
  -- in a comment nothing is rejected
  rcases hend with ⟨rfl, -⟩ | ⟨-, hrej, -⟩
  swap
  · rw [react_in hcom] at hrej
    exact absurd hrej (by simp)
  by_cases hnil : e.text = []
  swap
  · -- the scan ended at a NUL
    have h0 : 0 ∈ e.text := by
      by_contra h0
      have hout := (hash_of_stop hnil h0 hn).1
      rw [hcom] at hout
      exact absurd hout (by decide)
    obtain ⟨r', hn'⟩ := nextItem_append_nul h0 hn (lit "*/(")
    refine ⟨⟨e.stack, e.last, false⟩, ?_, ?_⟩
    · rw [Machine.run_eq_of_reaches (reaches_append hde hnil _)]
      exact run_of_stop hn'
    · rw [← hstack]
      exact List.cons_ne_self _ s
  obtain ⟨b, it, hlast, hit, hreact, -⟩ := lastRead_of_reaches hde hnil hd
  rw [hlast.run_append _]
  rw [← hstack] at hreact
  cases it with
  | stop => exact absurd rfl hit
  | directive w => exact close_behind_directive hlast.item hreact
  | token k => exact close_behind_token hs hlast.item hlast.ne_nil hreact

end

section

variable {v : XInputValidator} {A : Str} {st : Stack}

/-- Behind a `*` the comment is not opened: the scan sees the end of one. -/
theorem not_opaque_of_star (h : EndsOutside v A st) {b : Config} {it : Item}
    (hlast : LastRead (v.start A) b it) (htext : b.text = lit "*") (c : Str) :
    ¬ OpaqueComment v A st c := by
  rintro ⟨hopen, -⟩
  rcases h.reaches with ⟨last, hr⟩
  have hrun : scanner.run (v.start (A ++ (lit "/*" ++ c))) =
      scanner.run ⟨st, b.last, b.text ++ (lit "/*" ++ c)⟩ := run_append_sign hr hlast (.inr htext) _
  have hn : nextItem (inBlockComment st) (lit "*" ++ (lit "/*" ++ c)) =
      some (.token .rComment, lit "/*" ++ c) := h.comment ▸ rfl
  have hr : react st (.token .rComment) = none := by
    rw [react_out h.comment]
    rfl
  have := hopen 0
  rw [outcome_eq, hrun, htext, run_of_reject (c := ⟨st, b.last, _⟩) hn (Item.token_ne_stop _) hr] at this
  exact List.cons_ne_self _ _ (Option.some.inj this).symm

/-- Behind a `/` it is a line comment. -/
theorem not_opaque_of_slash (h : EndsOutside v A st) {b : Config} {it : Item}
    (hlast : LastRead (v.start A) b it) (htext : b.text = lit "/") (c : Str) :
    ¬ OpaqueComment v A st c := by
  have hrun (x : Str) : scanner.run (v.start (A ++ (lit "/*" ++ x))) =
      scanner.run ⟨st, .unknown, x.dropWhile isLineChar⟩ := by
    rcases h.reaches with ⟨last, hr⟩
    have hrun : scanner.run (v.start (A ++ (lit "/*" ++ x))) =
        scanner.run ⟨st, b.last, b.text ++ (lit "/*" ++ x)⟩ :=
      run_append_sign hr hlast (.inl htext) _
    have hn : nextItem (inBlockComment st) (lit "/" ++ (lit "/*" ++ x)) =
        some (.token .unknown, x.dropWhile isLineChar) := by
      rw [h.comment, ← List.dropWhile_cons_of_pos (show isLineChar '*' = true by decide)]
      rfl
    rw [hrun, htext]
    exact run_inert b.last hn rfl
  rintro ⟨hopen, -, hsame⟩
  have hopen' := hopen 0
  have hsame' := congrArg (Option.map Prod.snd) (hsame (lit "(") 0)
  rw [outcome_eq, hrun, Option.map_map] at hopen'
  rw [outcome_eq, outcome_eq, hrun, hrun, Option.map_map, Option.map_map] at hsame'
  by_cases hnil : c.dropWhile isLineChar = []
  · rw [hnil, run_nil] at hopen'
    exact List.cons_ne_self _ _ (Option.some.inj hopen').symm
  · -- the comment is opened on a later line of `c`
    rcases Option.map_eq_some_iff.mp hopen' with ⟨r, hr, hstack⟩
    rcases run_append_close h.comment hnil hr hstack with ⟨r', hr', hne⟩
    have happ : c ++ (lit "*/" ++ lit "(") = c ++ lit "*/(" := rfl
    have hend : (lit "*/" ++ lit "(").dropWhile isLineChar = [] := by decide
    rw [happ, dropWhile_append_of_ne hnil, hend, run_nil] at hsame'
    have hr'' : scanner.run ⟨st, .unknown, c.dropWhile isLineChar ++ lit "*/("⟩ = some r' := hr'
    rw [hr''] at hsame'
    exact hne (Option.some.inj hsame')

/-- **A comment is opaque exactly when its body is read without rest** and the text in front of it
leaves its `/*` alone. -/
theorem comment_opaque_iff (v : XInputValidator) (A : Str) (st : Stack) (c : Str)
    (h : EndsOutside v A st) (hc : ¬ lit "*/" <:+: c) :
    OpaqueComment v A st c ↔ ¬ EndsInSign v A ∧ bodyTail c = [] := by
  constructor
  · intro hop
    have hsign : ¬ EndsInSign v A := by
      rintro ⟨b, it, hlast, htext | htext⟩
      · exact not_opaque_of_slash h hlast htext c hop
      · exact not_opaque_of_star h hlast htext c hop
    exact ⟨hsign, bodyTail_of_opaque h hsign hc hop⟩
  · rintro ⟨hsign, htail⟩
    exact opaque_of_bodyTail h hsign hc htail

end

/-- How a text is seen to end outside comments and directives: by its last token. -/
theorem endsOutside_of_token {v : XInputValidator} {A : Str} {st : Stack} {b : Config}
    {k : TokenKind} (hlast : LastRead (v.start A) b (.token k))
    (hr : react b.stack (.token k) = some st) (hst : inBlockComment st = false)
    (hline : ¬ lit "//" <+: b.text) : EndsOutside v A st where
  reaches := ⟨_, hlast.reaches.trans (reaches_of_item hlast.item (Item.token_ne_stop k) hr)⟩
  comment := hst
  line := by
    rintro ⟨b', it, h, -, hpre⟩
    rcases hlast.unique h with ⟨rfl, -⟩
    exact hline hpre
  directive := by
    rintro ⟨b', it, h, hdir⟩
    rcases hlast.unique h with ⟨rfl, rfl⟩
    rcases hdir with ⟨w, hw, -⟩ | ⟨hw, -⟩
    · exact absurd hw (by simp)
    · exact absurd hw (by simp)

theorem comment_opaque_behind_brace :
    OpaqueComment {} (lit "\x7b") [.lBrace] (lit " x ") ↔
      ¬ EndsInSign {} (lit "\x7b") ∧ bodyTail (lit " x ") = [] :=
  comment_opaque_iff {} (lit "\x7b") [.lBrace] (lit " x ")
    (endsOutside_of_token (b := ⟨[], .unknown, lit "\x7b"⟩) (k := .lBrace)
      ⟨.refl _, by decide, by decide⟩ (by decide) (by decide) (by decide)) (by decide)

/-- An apostrophe in a comment opens a literal, which takes the end of the comment with it. -/
theorem apostrophe_hides_the_end :
    ¬ lit "*/" <:+: lit " don't " ∧
      ({} : XInputValidator).outcome (lit "/*" ++ lit " don't " ++ lit "*/" ++ lit " x; // can't") 4 =
        some (.incomplete, [.lComment]) ∧
      ({} : XInputValidator).outcome (lit "/*" ++ lit "*/" ++ lit " x; // can't") 4 =
        some (.complete, []) := by
  decide +kernel

end XeusCpp.Validator
