/-
# XeusCpp.Validator.Lexeme — what `lex` does, by the text ahead of the cursor.

`lexHead t` is the token at the head of the text `t` and the number of characters the cursor moves
over, computed on the text itself: longest runs are `takeWhile`, and a literal is closed when an
unescaped quote follows (`quotedLen`). `lex_eq` states that `xlexer::lex` at cursor `p` is `lexHead`
of `code.drop p`, for every text and every cursor in it. So `lex` reads outside the text in one case
only, an unclosed literal (`lexHead_eq_none_iff`), and its cursor always moves on (`lt_of_lex`).
-/
import XeusCpp.Validator.Lexer

namespace XeusCpp.Validator

open XeusCpp.Text

/-! ## Closed literals -/

/-- The body of a literal quoted by `q`: every backslash takes a character with it, and no `q` is
left alone. -/
inductive QuotedBody (q : Byte) : Str → Prop
  | nil : QuotedBody q []
  | escape (c : Byte) {w : Str} : QuotedBody q w → QuotedBody q ((('\\' : Char) : Byte) :: c :: w)
  | plain {c : Byte} {w : Str} : c ≠ '\\' → c ≠ q → QuotedBody q w → QuotedBody q (c :: w)

/-- The number of characters up to and with the closing quote `q`, if there is one. -/
def quotedLen (q : Byte) : Str → Option Nat
  | [] => none
  | c :: t =>
    if c = '\\' then
      match t with
      | [] => none
      | _ :: t' => (quotedLen q t').map (· + 2)
    else if c = q then some 1
    else (quotedLen q t).map (· + 1)

@[simp] theorem quotedLen_escape (q c : Byte) (t : Str) :
    quotedLen q ((('\\' : Char) : Byte) :: c :: t) = (quotedLen q t).map (· + 2) := by
  rw [quotedLen, if_pos rfl]

theorem quotedLen_quote {q : Byte} (hq : q ≠ '\\') (t : Str) : quotedLen q (q :: t) = some 1 := by
  rw [quotedLen.eq_def]
  simp [hq]

theorem quotedLen_plain {q c : Byte} (hb : c ≠ '\\') (hc : c ≠ q) (t : Str) :
    quotedLen q (c :: t) = (quotedLen q t).map (· + 1) := by
  rw [quotedLen.eq_def]
  simp [hb, hc]

theorem quotedLen_body {q : Byte} (hq : q ≠ '\\') {w : Str} (hw : QuotedBody q w) (t : Str) :
    quotedLen q (w ++ q :: t) = some (w.length + 1) := by
  induction hw with
  | nil => exact quotedLen_quote hq t
  | escape c _ ih => rw [List.cons_append, List.cons_append, quotedLen_escape, ih]; rfl
  | plain hb hc _ ih => rw [List.cons_append, quotedLen_plain hb hc, ih]; rfl

theorem quotedLen_eq_some {q : Byte} {t : Str} {n : Nat} (h : quotedLen q t = some n) :
    ∃ w t', t = w ++ q :: t' ∧ QuotedBody q w ∧ n = w.length + 1 := by
  fun_induction quotedLen q t generalizing n with
  | case1 => exact absurd h (by simp)
  | case2 => exact absurd h (by simp)
  | case3 d t ih =>
      obtain ⟨m, hm, rfl⟩ := Option.map_eq_some_iff.mp h
      obtain ⟨w, t', rfl, hw, rfl⟩ := ih hm
      exact ⟨_ :: d :: w, t', rfl, .escape d hw, by simp⟩
  | case4 t _ =>
      obtain rfl := Option.some.inj h
      exact ⟨[], t, rfl, .nil, rfl⟩
  | case5 c t hb hc ih =>
      obtain ⟨m, hm, rfl⟩ := Option.map_eq_some_iff.mp h
      obtain ⟨w, t', rfl, hw, rfl⟩ := ih hm
      exact ⟨c :: w, t', rfl, .plain hb hc hw, by simp⟩

/-- A literal opened by `q` is closed by the text `t` behind the quote. -/
def Closes (q : Byte) (t : Str) : Prop := ∃ w t', t = w ++ q :: t' ∧ QuotedBody q w

theorem quotedLen_isSome_iff {q : Byte} (hq : q ≠ '\\') {t : Str} :
    (quotedLen q t).isSome ↔ Closes q t := by
  constructor
  · intro h
    obtain ⟨n, hn⟩ := Option.isSome_iff_exists.mp h
    obtain ⟨w, t', ht, hw, -⟩ := quotedLen_eq_some hn
    exact ⟨w, t', ht, hw⟩
  · rintro ⟨w, t', rfl, hw⟩
    rw [quotedLen_body hq hw]
    rfl

/-- The literal of a text that closes it is not changed by more text. -/
theorem quotedLen_append {q : Byte} (hq : q ≠ '\\') {t : Str} {n : Nat} (h : quotedLen q t = some n)
    (u : Str) : quotedLen q (t ++ u) = some n := by
  obtain ⟨w, t', rfl, hw, rfl⟩ := quotedLen_eq_some h
  rw [List.append_assoc, List.cons_append]
  exact quotedLen_body hq hw (t' ++ u)

theorem quotedLen_le {q : Byte} {t : Str} {n : Nat} (h : quotedLen q t = some n) :
    0 < n ∧ n ≤ t.length := by
  obtain ⟨w, t', rfl, -, rfl⟩ := quotedLen_eq_some h
  simp

theorem ne_backslash_of_quote {q : Byte} (h : isQuotedString q = true) : q ≠ '\\' := by
  rintro rfl
  exact absurd h (by decide)

/-! ## The token at the head of a text -/

/-- The branch of `lex` a character selects. -/
inductive CharClass where
  | quote | punct | slash | star | digit | word | blank | nul | other
  deriving DecidableEq, Repr

def charClass (c : Byte) : CharClass :=
  if isQuotedString c then .quote
  else if isPunctuator c then .punct
  else if c = '/' then .slash
  else if c = '*' then .star
  else if isDigit c then .digit
  else if isAlpha c || c == '_' then .word
  else if isWhitespace c then .blank
  else if c = 0 then .nul
  else .other

/-- What each class holds, checked over all code units at once. -/
private theorem charClass_table : ∀ c, (charClass c = .quote ↔ isQuotedString c = true) ∧
    (charClass c = .slash ↔ c = '/') ∧ (charClass c = .star ↔ c = '*') ∧
    (charClass c = .digit ↔ isDigit c = true) ∧ (charClass c = .blank ↔ isWhitespace c = true) ∧
    (charClass c = .nul ↔ c = 0) ∧
    (isIdentChar c = true ↔ charClass c = .word ∨ charClass c = .digit) := by
  decide +kernel

section

variable (c : Byte)

theorem charClass_quote_iff : charClass c = .quote ↔ isQuotedString c = true :=
  (charClass_table c).1

theorem charClass_slash_iff : charClass c = .slash ↔ c = '/' := (charClass_table c).2.1

theorem charClass_star_iff : charClass c = .star ↔ c = '*' := (charClass_table c).2.2.1

theorem charClass_digit_iff : charClass c = .digit ↔ isDigit c = true :=
  (charClass_table c).2.2.2.1

theorem charClass_blank_iff : charClass c = .blank ↔ isWhitespace c = true :=
  (charClass_table c).2.2.2.2.1

theorem charClass_nul_iff : charClass c = .nul ↔ c = 0 := (charClass_table c).2.2.2.2.2.1

theorem isIdentChar_iff : isIdentChar c = true ↔ charClass c = .word ∨ charClass c = .digit :=
  (charClass_table c).2.2.2.2.2.2

variable {c}

theorem not_ident_of_blank (h : isWhitespace c = true) : isIdentChar c = false := by
  have hcls := (charClass_blank_iff c).mpr h
  rw [← Bool.not_eq_true, isIdentChar_iff, hcls]
  simp

theorem not_digit_of_blank (h : isWhitespace c = true) : isDigit c = false := by
  have hcls := (charClass_blank_iff c).mpr h
  rw [← Bool.not_eq_true, ← charClass_digit_iff, hcls]
  simp

theorem not_digit_of_not_ident (h : isIdentChar c = false) : isDigit c = false := by
  rw [← Bool.not_eq_true]
  intro hd
  have hident := (isIdentChar_iff c).mpr (.inr ((charClass_digit_iff c).mpr hd))
  rw [h] at hident
  exact Bool.noConfusion hident

end

/-- The kind of a token, the length it reports and the characters the cursor moves over. -/
structure Lexeme where
  kind : TokenKind
  length : Nat
  advance : Nat
  deriving DecidableEq, Repr

/-- The token over the longest run of `P` at the head of `t`. -/
def Lexeme.run (k : TokenKind) (P : Byte → Bool) (t : Str) : Lexeme :=
  ⟨k, (t.takeWhile P).length, (t.takeWhile P).length⟩

/-- The token at a `/`, by the character behind it. -/
def slashLexeme (d : Byte) : Lexeme :=
  if d = '/' then ⟨.comment, 2, 2⟩ else if d = '*' then ⟨.lComment, 2, 2⟩ else ⟨.slash, 1, 1⟩

/-- The token at a `*`, by the character behind it; behind `*/` the cursor stands on the `/`. -/
def starLexeme (d : Byte) : Lexeme := if d = '/' then ⟨.rComment, 2, 1⟩ else ⟨.asterik, 1, 1⟩

/-- The token at the head of a text; behind the text stands its terminator. -/
def lexHead : Str → Option Lexeme
  | [] => some ⟨.eof, 1, 1⟩
  | c :: t =>
    match charClass c with
    | .quote =>
        (quotedLen c t).map fun n => ⟨if c = '"' then .stringlit else .charlit, n + 1, n + 1⟩
    | .punct => some ⟨punctuatorKind c, 1, 1⟩
    | .slash => some (slashLexeme (t.headD 0))
    | .star => some (starLexeme (t.headD 0))
    | .digit => some (.run .constant isDigit (c :: t))
    | .word => some (.run .ident isIdentChar (c :: t))
    | .blank => some (.run .space isWhitespace (c :: t))
    | .nul => some ⟨.eof, 1, 1⟩
    | .other => some ⟨.unknown, 0, 1⟩

/-- The only text without a token is one that opens a literal it does not close. -/
theorem lexHead_eq_none_iff {t : Str} :
    lexHead t = none ↔ ∃ q w, t = q :: w ∧ isQuotedString q = true ∧ ¬ Closes q w := by
  cases t with
  | nil => simp [lexHead]
  | cons c t =>
      -- only a quote can fail
      cases hcls : charClass c with
      | quote =>
          have hq := (charClass_quote_iff c).mp hcls
          simp only [lexHead, hcls, Option.map_eq_none_iff]
          rw [← Option.not_isSome_iff_eq_none, quotedLen_isSome_iff (ne_backslash_of_quote hq)]
          constructor
          · intro h
            exact ⟨c, t, rfl, hq, h⟩
          · rintro ⟨q, w, heq, -, h⟩
            obtain ⟨rfl, rfl⟩ := List.cons.inj heq
            exact h
      | _ =>
          have hq : isQuotedString c = false := by
            rw [← Bool.not_eq_true, ← charClass_quote_iff, hcls]; decide
          constructor
          · intro h
            simp only [lexHead, hcls] at h
            exact absurd h (by simp)
          · rintro ⟨q, w, heq, hq', -⟩
            obtain ⟨rfl, rfl⟩ := List.cons.inj heq
            rw [hq] at hq'
            exact absurd hq' (by decide)

theorem Lexeme.run_advance_pos {k : TokenKind} {P : Byte → Bool} {c : Byte} {t : Str}
    (h : P c = true) : 0 < (Lexeme.run k P (c :: t)).advance := by
  simp [Lexeme.run, List.takeWhile_cons_of_pos h]

theorem slashLexeme_advance (d : Byte) :
    (slashLexeme d).advance = if d = '/' ∨ d = '*' then 2 else 1 := by
  unfold slashLexeme
  split_ifs <;> simp_all

theorem starLexeme_advance (d : Byte) : (starLexeme d).advance = 1 := by
  unfold starLexeme
  split_ifs <;> rfl

theorem lexHead_advance_pos {t : Str} {l : Lexeme} (h : lexHead t = some l) : 0 < l.advance := by
  cases t with
  | nil =>
      rw [← Option.some.inj h]
      exact Nat.one_pos
  | cons c t =>
      cases hcls : charClass c <;> simp only [lexHead, hcls] at h
      case quote =>
        rcases Option.map_eq_some_iff.mp h with ⟨n, -, rfl⟩
        exact Nat.succ_pos n
      all_goals rw [← Option.some.inj h]
      case slash =>
        rw [slashLexeme_advance]
        split <;> decide
      case star =>
        rw [starLexeme_advance]
        exact Nat.one_pos
      case digit => exact Lexeme.run_advance_pos ((charClass_digit_iff c).mp hcls)
      case word => exact Lexeme.run_advance_pos ((isIdentChar_iff c).mpr (.inl hcls))
      case blank => exact Lexeme.run_advance_pos ((charClass_blank_iff c).mp hcls)
      all_goals exact Nat.one_pos

/-- The token of a text lies in the text; only the token of the empty text takes the terminator. -/
theorem lexHead_advance_le {t : Str} {l : Lexeme} (h : lexHead t = some l) (ht : t ≠ []) :
    l.advance ≤ t.length := by
  cases t with
  | nil => exact absurd rfl ht
  | cons c t =>
      have hrun (P : Byte → Bool) : ((c :: t).takeWhile P).length ≤ (c :: t).length :=
        (List.takeWhile_sublist P).length_le
      cases hcls : charClass c <;> simp only [lexHead, hcls] at h
      case quote =>
        rcases Option.map_eq_some_iff.mp h with ⟨n, hn, rfl⟩
        exact Nat.succ_le_succ (quotedLen_le hn).2
      all_goals rw [← Option.some.inj h]
      case slash =>
        rw [slashLexeme_advance]
        cases t with
        | nil => exact Nat.le_refl 1
        | cons d t => split <;> simp
      case star =>
        rw [starLexeme_advance]
        exact Nat.succ_le_succ (Nat.zero_le _)
      case digit | word | blank => exact hrun _
      all_goals exact Nat.succ_le_succ (Nat.zero_le _)

theorem lexHead_nil_kind {l : Lexeme} (h : lexHead [] = some l) : l.kind = .eof := by
  rw [← Option.some.inj h]

theorem punctuatorKind_spec : ∀ c, punctuatorKind c ≠ .eof ∧ punctuatorKind c ≠ .ident ∧
    punctuatorKind c ≠ .comment ∧ punctuatorKind c ≠ .rComment ∧
    (punctuatorKind c = .hash → c = '#') := by
  decide +kernel

/-- The end, identifiers, directives and comment signs are told by the characters they start with. -/
theorem head_of_kind {c : Byte} {t : Str} {l : Lexeme} (h : lexHead (c :: t) = some l) :
    (l.kind = .eof → c = 0) ∧ (l.kind = .ident → charClass c = .word) ∧
      (l.kind = .hash → c = '#' ∧ l.advance = 1) ∧
      (l.kind = .comment → c = '/' ∧ t.headD 0 = '/') ∧
      (l.kind = .rComment → c = '*' ∧ t.headD 0 = '/') := by
  cases hcls : charClass c <;> simp only [lexHead, hcls] at h
  case quote =>
    rcases Option.map_eq_some_iff.mp h with ⟨n, -, rfl⟩
    split <;> simp
  all_goals rw [← Option.some.inj h]
  case punct =>
    rcases punctuatorKind_spec c with ⟨h1, h2, h3, h4, h5⟩
    exact ⟨fun hk => absurd hk h1, fun hk => absurd hk h2, fun hk => ⟨h5 hk, rfl⟩,
      fun hk => absurd hk h3, fun hk => absurd hk h4⟩
  case nul => simp [(charClass_nul_iff c).mp hcls]
  case slash =>
    rw [(charClass_slash_iff c).mp hcls]
    unfold slashLexeme
    generalize t.headD 0 = d
    split_ifs with h1 <;> simp [h1]
  case star =>
    rw [(charClass_star_iff c).mp hcls]
    unfold starLexeme
    generalize t.headD 0 = d
    split_ifs with h1 <;> simp [h1]
  all_goals simp [Lexeme.run]

/-- Inside a text only a NUL is taken for its end. -/
theorem zero_mem_of_eof {t : Str} {l : Lexeme} (h : lexHead t = some l) (ht : t ≠ [])
    (hk : l.kind = .eof) : 0 ∈ t := by
  cases t with
  | nil => exact absurd rfl ht
  | cons c t => exact (head_of_kind h).1 hk ▸ List.mem_cons_self

/-- The token `hash` is the character `#`. -/
theorem eq_hash_of_kind {t : Str} {l : Lexeme} (h : lexHead t = some l) (hk : l.kind = .hash) :
    ∃ t', t = (('#' : Char) : Byte) :: t' ∧ l.advance = 1 := by
  cases t with
  | nil =>
      rw [lexHead_nil_kind h] at hk
      exact absurd hk (by decide)
  | cons c t =>
      rcases (head_of_kind h).2.2.1 hk with ⟨rfl, hadv⟩
      exact ⟨t, rfl, hadv⟩

/-- The token `comment` is `//`. -/
theorem eq_slashes_of_kind {t : Str} {l : Lexeme} (h : lexHead t = some l) (hk : l.kind = .comment) :
    lit "//" <+: t := by
  cases t with
  | nil =>
      rw [lexHead_nil_kind h] at hk
      exact absurd hk (by decide)
  | cons c t =>
      rcases (head_of_kind h).2.2.2.1 hk with ⟨rfl, hd⟩
      cases t with
      | nil => exact absurd hd (by decide)
      | cons d t =>
          obtain rfl : d = '/' := hd
          exact ⟨t, rfl⟩

/-! ## `lex` is `lexHead` of the text ahead -/

section

variable {code : Str} {p : Nat}

theorem readAt_of_drop {c : Byte} {t : Str} (h : code.drop p = c :: t) : readAt code p = some c := by
  have hlt : p < code.length := by
    by_contra hge
    rw [List.drop_eq_nil_of_le (by omega)] at h
    exact absurd h (by simp)
  rw [readAt_of_lt hlt]
  rw [List.drop_eq_getElem_cons hlt] at h
  rw [(List.cons.inj h).1]

theorem drop_succ_of_drop {c : Byte} {t : Str} (h : code.drop p = c :: t) :
    code.drop (p + 1) = t := by
  rw [← List.drop_drop, h, List.drop_one, List.tail_cons]

theorem lt_length_of_drop {c : Byte} {t : Str} (h : code.drop p = c :: t) : p < code.length := by
  have := congrArg List.length h
  simp only [List.length_drop, List.length_cons] at this
  omega

theorem eq_length_of_drop (hp : p ≤ code.length) (h : code.drop p = []) : p = code.length := by
  have := congrArg List.length h
  simp only [List.length_drop, List.length_nil] at this
  omega

/-- The read behind the head of the text: the next character, or the terminator. -/
theorem readAt_succ_of_drop {c : Byte} {t : Str} (h : code.drop p = c :: t) :
    readAt code (p + 1) = some (t.headD 0) := by
  have ht := drop_succ_of_drop h
  cases t with
  | nil =>
      have hp := lt_length_of_drop h
      rw [eq_length_of_drop (by omega) ht, readAt_length]
      rfl
  | cons d t => rw [readAt_of_drop ht]; rfl

/-- Behind the terminator there is nothing to read. -/
theorem quotedLoop_of_gt {q : Byte} (hp : code.length < p) : quotedLoop code q p = none := by
  have hr : readAt code p = none := by
    rw [readAt, List.getElem?_eq_none]
    simp only [List.length_append, List.length_singleton]
    omega
  rw [quotedLoop]
  split
  · rfl
  · rename_i c h; rw [hr] at h; exact absurd h (by simp)

theorem quotedLoop_of_readAt {q c : Byte} (h : readAt code p = some c) :
    quotedLoop code q p = if c = '\\' then quotedLoop code q (p + 2)
      else if c = q then some (p + 1) else quotedLoop code q (p + 1) := by
  rw [quotedLoop]
  split
  · rename_i h'; rw [h'] at h; exact absurd h (by simp)
  · rename_i c' h'
    obtain rfl : c' = c := Option.some.inj (h'.symm.trans h)
    rfl

/-- The literal scanner runs over the text ahead of it. -/
theorem quotedLoop_eq {q : Byte} (hq : isQuotedString q = true) {t : Str} (hp : p ≤ code.length)
    (ht : code.drop p = t) : quotedLoop code q p = (quotedLen q t).map (p + ·) := by
  fun_induction quotedLen q t generalizing p with
  | case1 =>
      -- the cursor is at the terminator, which is no backslash and no quote
      have hne : (0 : Byte) ≠ q := by rintro rfl; exact absurd hq (by decide)
      obtain rfl := eq_length_of_drop hp ht
      rw [quotedLoop_of_readAt (readAt_length code), if_neg (by decide), if_neg hne,
        quotedLoop_of_gt (Nat.lt_succ_self _)]
      rfl
  | case2 =>
      -- the escape takes the terminator with it
      have hlt := lt_length_of_drop ht
      have hlast := eq_length_of_drop (by omega) (drop_succ_of_drop ht)
      rw [quotedLoop_of_readAt (readAt_of_drop ht), if_pos rfl, quotedLoop_of_gt (by omega)]
      rfl
  | case3 d t ih =>
      have ht1 := drop_succ_of_drop ht
      have hlt := lt_length_of_drop ht1
      rw [quotedLoop_of_readAt (readAt_of_drop ht), if_pos rfl,
        ih (by omega) (drop_succ_of_drop ht1), Option.map_map]
      congr 1; funext n; simp only [Function.comp_apply]; omega
  | case4 t hb =>
      rw [quotedLoop_of_readAt (readAt_of_drop ht), if_neg hb, if_pos rfl]
      rfl
  | case5 c t hb hc ih =>
      have hlt := lt_length_of_drop ht
      rw [quotedLoop_of_readAt (readAt_of_drop ht), if_neg hb, if_neg hc,
        ih (by omega) (drop_succ_of_drop ht), Option.map_map]
      congr 1; funext n; simp only [Function.comp_apply]; omega

/-- The token `lex` returns for a lexeme at the cursor, and where it leaves the cursor. -/
def Lexeme.at (l : Lexeme) (p : Nat) : Token × Nat := (⟨l.kind, p, l.length⟩, p + l.advance)

theorem lexPunctuator_eq {c : Byte} (h : readAt code p = some c) :
    lexPunctuator code p = some (Lexeme.at ⟨punctuatorKind c, 1, 1⟩ p) := by
  simp [lexPunctuator, h, Lexeme.at]

theorem skipWhitespace_eq (hp : p ≤ code.length) :
    skipWhitespace code p = some (((code.drop p).takeWhile isWhitespace).length,
      p + ((code.drop p).takeWhile isWhitespace).length) := by
  have hcls : (fun c => isWhitespace c && c != 0) = isWhitespace := by
    funext c
    by_cases h : isWhitespace c = true
    · have : c ≠ 0 := by rintro rfl; exact absurd h (by decide)
      simp [h, this]
    · simp [h]
  simp [skipWhitespace, hcls, readWhile_eq (P := isWhitespace) (by decide) hp]

/-- **`lex` is `lexHead`** of the text ahead of the cursor. -/
theorem lex_eq (hp : p ≤ code.length) :
    lex code p = (lexHead (code.drop p)).map (·.at p) := by
  cases ht : code.drop p with
  | nil =>
      obtain rfl := eq_length_of_drop hp ht
      simp only [lex, readAt_length, Option.bind_eq_bind, Option.bind_some]
      rfl
  | cons c t =>
      have hc := readAt_of_drop ht
      have hd := readAt_succ_of_drop ht
      have hlt := lt_length_of_drop ht
      simp only [lex, hc, hd, Option.bind_eq_bind, Option.bind_some, lexHead]
      unfold charClass
      -- the cases of `lex`, in its order
      by_cases hq : isQuotedString c = true
      · simp only [hq, if_true, lexQuotedString, hc, Option.bind_eq_bind, Option.bind_some,
          quotedLoop_eq hq (show p + 1 ≤ code.length by omega) (drop_succ_of_drop ht)]
        cases quotedLen c t with
        | none => rfl
        | some n => simp [Lexeme.at]; omega
      by_cases hpu : isPunctuator c = true
      · simp only [hq, hpu, if_true, lexPunctuator_eq hc]
        rfl
      by_cases hsl : c = '/'
      · subst hsl
        simp only [hq, hpu, if_true, lexPunctuator_eq hc, lexLeftComment, hd, Option.bind_eq_bind,
          Option.bind_some, Bool.or_eq_true, decide_eq_true_eq]
        generalize t.headD 0 = d
        by_cases h1 : d = '/'
        · simp [h1, slashLexeme, Lexeme.at]
        by_cases h2 : d = '*'
        · have hne : (('*' : Char) : Byte) ≠ '/' := by decide
          simp [h2, hne, slashLexeme, Lexeme.at]
        · simp [h1, h2, slashLexeme]
          rfl
      by_cases hst : c = '*'
      · subst hst
        simp only [hq, hpu, hsl, if_true, lexPunctuator_eq hc, lexRightComment]
        generalize t.headD 0 = d
        by_cases h1 : d = '/'
        · simp [h1, starLexeme, Lexeme.at]
        · simp [h1, starLexeme]
          rfl
      by_cases hdg : isDigit c = true
      · simp [hq, hpu, hsl, hst, hdg, lexConstant, readWhile_eq (P := isDigit) (by decide) hp, ht,
          Lexeme.at, Lexeme.run]
      by_cases hid : (isAlpha c || c == '_') = true
      · simp [hq, hpu, hsl, hst, hdg, hid, lexIdentifier,
          readWhile_eq (P := isIdentChar) (by decide) hp, ht, Lexeme.at, Lexeme.run]
      by_cases hws : isWhitespace c = true
      · simp [hq, hpu, hsl, hst, hdg, hid, hws, lexWhitespace, skipWhitespace_eq hp, ht,
          Lexeme.at, Lexeme.run]
      · simp only [hq, hpu, hsl, hst, hdg, hid, hws, Bool.false_eq_true, if_false]
        split_ifs <;> rfl

/-- `lex` reads one character at least, and moves the cursor. -/
theorem lt_of_lex {q : Nat} {tok : Token} (h : lex code p = some (tok, q)) :
    p ≤ code.length ∧ p < q := by
  have hp : p ≤ code.length := by
    cases hc : readAt code p with
    | none => simp [lex, hc] at h
    | some c => exact le_of_readAt hc
  refine ⟨hp, ?_⟩
  rw [lex_eq hp] at h
  obtain ⟨l, hl, hat⟩ := Option.map_eq_some_iff.mp h
  have := lexHead_advance_pos hl
  have := (Prod.mk.inj hat).2
  omega

/-! ## The other routines -/

/-- The word of a directive: the longest run without blanks. -/
theorem lexAnyString_eq (hp : p ≤ code.length) :
    lexAnyString code p =
      if (code.drop p).headD 0 = 0 then some (⟨.eof, p, 0⟩, p)
      else some (⟨.rawIdent, p, ((code.drop p).takeWhile isRawChar).length⟩,
        p + ((code.drop p).takeWhile isRawChar).length) := by
  cases ht : code.drop p with
  | nil =>
      obtain rfl := eq_length_of_drop hp ht
      simp [lexAnyString]
  | cons c t =>
      simp [lexAnyString, readAt_of_drop ht, readWhile_eq (P := isRawChar) (by decide) hp, ht]

theorem readToEndOfLine_eq (hp : p ≤ code.length) :
    readToEndOfLine code p = some (⟨.unknown, p, ((code.drop p).takeWhile isLineChar).length⟩,
      p + ((code.drop p).takeWhile isLineChar).length) := by
  simp [readToEndOfLine, readWhile_eq (P := isLineChar) (by decide) hp]

/-- The characters of a token that is a longest run. -/
theorem identifier_takeWhile (k : TokenKind) (P : Byte → Bool) (code : Str) (p : Nat) :
    Token.identifier ⟨k, p, ((code.drop p).takeWhile P).length⟩ code =
      (code.drop p).takeWhile P := by
  rw [Token.identifier]
  generalize code.drop p = t
  have h : (t.takeWhile P ++ t.dropWhile P).take (t.takeWhile P).length = t.takeWhile P :=
    List.take_left
  rwa [List.takeWhile_append_dropWhile] at h

theorem add_takeWhile_le (P : Byte → Bool) (hp : p ≤ code.length) :
    p + ((code.drop p).takeWhile P).length ≤ code.length := by
  have := (List.takeWhile_sublist P (l := code.drop p)).length_le
  rw [List.length_drop] at this
  omega

end

end XeusCpp.Validator
