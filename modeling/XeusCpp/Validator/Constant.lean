/-
# XeusCpp.Validator.Constant — literals the lexer does not know as such.

The lexer has no token for a number with digit separators nor for a raw string: it reads `1'000` as a
number and the start of a character literal, and `R"d(body)d"` as an identifier, literals and code.
Between blanks such a literal is as good as `0` exactly when what the lexer makes of it is passed over
(`opaque_literal_iff`): an even number of separators, and a raw string that is self-contained.

A `#` may stand in front of the literal and take its first word, so a raw string with a blank in it has
to be self-contained behind the blank as well.
-/
import XeusCpp.Validator.Frame

namespace XeusCpp.Validator

open XeusCpp.Text XeusCpp.Logic

/-! ## Behind blanks -/

/-- The text is empty or ends in a blank. -/
def EndsBlank (A : Str) : Prop := ∀ d ∈ A.getLast?, isWhitespace d = true

theorem EndsBlank.suffix {A t : Str} (h : EndsBlank A) (ht : t <:+ A) : EndsBlank t :=
  fun d hd => h d (mem_getLast?_of_suffix ht hd)

/-- The last character of a run of a class without blanks is no blank. -/
theorem EndsBlank.eq_nil {P : Byte → Bool} {t : Str} (h : EndsBlank t)
    (hP : ∀ d, isWhitespace d = true → P d = false) (ht : ∀ d ∈ t, P d = true) : t = [] := by
  by_contra hne
  obtain ⟨d, hd⟩ := Option.isSome_iff_exists.mp (List.getLast?_isSome.mpr hne)
  have hmem := ht d (List.mem_of_getLast? hd)
  rw [hP d (h d hd)] at hmem
  exact Bool.noConfusion hmem

theorem start_append_behind_blank (v : XInputValidator) {A u : Str} (hA : EndsBlank A)
    (hu : beginsTemplate u = false) : v.start (A ++ u) = (v.start A).append u := by
  by_cases hnil : A.dropWhile isWhitespace = []
  · have hbA : beginsTemplate A = false := by
      rw [beginsTemplate_eq, hnil]
      decide
    have hb : beginsTemplate (A ++ u) = false := by
      rw [beginsTemplate_eq, dropWhile_append_of_nil hnil, ← beginsTemplate_eq, hu]
    simp only [XInputValidator.start, Config.append, startStack, hb, hbA]
  · -- the blank at the end is no part of the first word
    apply start_append_of_ne
    intro hword
    have hident : ∀ d ∈ A.dropWhile isWhitespace, isIdentChar d = true :=
      List.dropWhile_eq_nil_iff.mp hword
    exact hnil ((hA.suffix (List.dropWhile_suffix _)).eq_nil (fun d => not_ident_of_blank) hident)

/-- A literal ends in its quote. -/
theorem getLast?_of_quotedLen {q : Byte} {t : Str} (h : quotedLen q t = some t.length) :
    (q :: t).getLast? = some q := by
  obtain ⟨w, t', ht, -, hw⟩ := quotedLen_eq_some h
  have hlen := congrArg List.length ht
  rw [List.length_append, List.length_cons] at hlen
  obtain rfl : t' = [] := List.length_eq_zero_iff.mp (by omega)
  rw [ht, ← List.cons_append, List.getLast?_concat]

/-- A comment sign ends in no blank. -/
theorem not_endsBlank_of_sign {t : Str} (hlen : t.length = 1)
    (hsign : t.headD 0 = '/' ∨ t.headD 0 = '*') : ¬ EndsBlank ((('/' : Char) : Byte) :: t) := by
  obtain ⟨d, rfl⟩ := List.length_eq_one_iff.mp hlen
  intro hA
  have hd : isWhitespace d = true := hA d rfl
  rcases hsign with h | h
  · rw [show d = '/' from h] at hd
    exact absurd hd (by decide)
  · rw [show d = '*' from h] at hd
    exact absurd hd (by decide)

/-- A token that ends in a blank is a run of blanks, or a line comment. -/
theorem blank_of_token {b : Bool} {t : Str} {k : TokenKind} (hA : EndsBlank t) (ht : t ≠ [])
    (h : nextItem b t = some (.token k, [])) (hline : b = false → ¬ lit "//" <+: t) :
    ∀ d ∈ t, isWhitespace d = true := by
  rcases Option.map_eq_some_iff.mp h with ⟨l, hl, hit⟩
  rcases token_of_itemOf hit with ⟨hb, hk, -⟩ | ⟨rfl, hend, -⟩
  · exact absurd (eq_slashes_of_kind hl hk) (hline hb)
  have hlen := (drop_eq_nil_iff_advance hl ht).mp hend.symm
  obtain ⟨c, t, rfl⟩ := List.exists_cons_of_ne_nil ht
  -- a token that is the run of a class is in this class
  have hrun {P : Byte → Bool} (hadv : l.advance = ((c :: t).takeWhile P).length) :
      ∀ d ∈ c :: t, P d = true := by
    rw [hlen] at hadv
    have hall := List.IsPrefix.eq_of_length (List.takeWhile_prefix P) hadv.symm
    exact List.takeWhile_eq_self_iff.mp hall
  have hsingle (hadv : l.advance = 1) : t = [] := by
    rw [hadv, List.length_cons] at hlen
    exact List.length_eq_zero_iff.mp (by omega)
  have hblank (hcls : charClass c ≠ .blank) (hadv : l.advance = 1) : False := by
    obtain rfl := hsingle hadv
    exact hcls ((charClass_blank_iff c).mpr (hA c rfl))
  cases hcls : charClass c <;> simp only [lexHead, hcls] at hl
  case quote =>
    -- it ends in its quote
    rcases Option.map_eq_some_iff.mp hl with ⟨n, hn, rfl⟩
    obtain rfl : n = t.length := Nat.succ.inj hlen
    have hc := (charClass_blank_iff c).mpr (hA c (getLast?_of_quotedLen hn))
    rw [hcls] at hc
    exact absurd hc (by simp)
  case punct => exact (hblank (by simp [hcls]) (by rw [← Option.some.inj hl])).elim
  case slash =>
    have hadv : l.advance = if t.headD 0 = '/' ∨ t.headD 0 = '*' then 2 else 1 := by
      rw [← Option.some.inj hl, slashLexeme_advance]
    obtain rfl := (charClass_slash_iff c).mp hcls
    split at hadv
    next hsign =>
      rw [hadv, List.length_cons] at hlen
      exact (not_endsBlank_of_sign (by omega) hsign hA).elim
    next => exact (hblank (by simp [hcls]) hadv).elim
  case star =>
    refine (hblank (by simp [hcls]) ?_).elim
    rw [← Option.some.inj hl, starLexeme_advance]
  case digit =>
    have hdig := hrun (P := isDigit) (by rw [← Option.some.inj hl]; rfl)
    exact absurd (hA.eq_nil (fun d => not_digit_of_blank) hdig) ht
  case word =>
    have hid := hrun (P := isIdentChar) (by rw [← Option.some.inj hl]; rfl)
    exact absurd (hA.eq_nil (fun d => not_ident_of_blank) hid) ht
  case blank => exact hrun (P := isWhitespace) (by rw [← Option.some.inj hl]; rfl)
  case nul =>
    refine (hblank (by simp [hcls]) (by rw [← Option.some.inj hl])).elim
  case other => exact (hblank (by simp [hcls]) (by rw [← Option.some.inj hl])).elim

section

variable {v : XInputValidator} {A u : Str} {r : Verdict}

/-- A text that ends in a blank ends in no directive word. -/
theorem not_directive_of_blank {b : Config} {w : Str} (hA : EndsBlank A)
    (hb : scanner.Reaches (v.start A) b)
    (hn : nextItem (inBlockComment b.stack) b.text = some (.directive w, [])) : False := by
  rcases Option.map_eq_some_iff.mp hn with ⟨l, -, hit⟩
  rcases directive_of_itemOf hit with ⟨-, -, h0, -, hend⟩
  set x := (b.text.drop l.advance).dropWhile isWhitespace with hx
  have hsuf : x <:+ A := ((List.dropWhile_suffix _).trans (List.drop_suffix _ _)).trans
    (text_suffix_of_reaches hb)
  have hraw : ∀ d ∈ x, isRawChar d = true := List.dropWhile_eq_nil_iff.mp hend.symm
  have hnil := (hA.suffix hsuf).eq_nil not_raw_of_blank hraw
  rw [hnil] at h0
  exact h0 rfl

/-- Behind a last blank the scan goes on as from there. -/
theorem run_behind_blank {st : Stack} {l : TokenKind} (hA : EndsBlank A)
    (hr : scanner.Reaches (v.start A) ⟨st, l, []⟩) (hline : ¬ EndsInLineComment v A)
    (hu : beginsTemplate u = false) (hhead : ∀ d ∈ u.head?, isWhitespace d = false) :
    scanner.run (v.start (A ++ u)) = scanner.run ⟨st, l, u⟩ := by
  rw [start_append_behind_blank v hA hu]
  by_cases hnil : (v.start A).text = []
  · have heq := eq_of_reaches_nil hr hnil
    rw [← heq]
    rfl
  rcases lastRead_of_reaches hr rfl hnil with ⟨b, it, hlast, hit, hst, hl⟩
  have hl' : l = lastAfter b.last it.kind := hl
  cases it with
  | stop => exact absurd rfl hit
  | directive w => exact (not_directive_of_blank hA hlast.reaches hlast.item).elim
  | token k =>
      have hall := blank_of_token (hA.suffix (text_suffix_of_reaches hlast.reaches)) hlast.ne_nil
        hlast.item fun hb hpre => hline ⟨b, _, hlast, hb, hpre⟩
      -- the blanks are read with no more than themselves
      have hitem (x : Str) (hx : ∀ d ∈ x.head?, isWhitespace d = false) :
          nextItem (inBlockComment b.stack) (b.text ++ x) = some (.token .space, x) := by
        obtain ⟨c, t, ht⟩ := List.exists_cons_of_ne_nil hlast.ne_nil
        have hc : isWhitespace c = true := hall c (ht ▸ List.mem_cons_self)
        have hdrop : b.text.dropWhile isWhitespace = [] := List.dropWhile_eq_nil_iff.mpr hall
        have hn := nextItem_blank (inBlockComment b.stack) hc (t ++ x)
        rw [← List.cons_append, ← ht, dropWhile_append_of_nil hdrop, dropWhile_of_head hx] at hn
        exact hn
      have hk : k = .space := by
        have hn := hitem [] (by simp)
        rw [List.append_nil, hlast.item] at hn
        exact Item.token.inj (Prod.mk.inj (Option.some.inj hn)).1
      subst hk
      rw [hlast.run_append u, hl']
      exact run_of_item (c := b.append u) (hitem u hhead) (Item.token_ne_stop _) hst

/-- The words that are no directive of a group. -/
def NoGroup (w : Str) : Prop := opensGroup w = false ∧ closesGroup w = false

/-- A bare `#` takes the first word of the text behind it. -/
theorem run_behind_hash {b : Config} (hlast : LastRead (v.start A) b .stop) (h0 : 0 ∉ b.text)
    (hu0 : u.headD 0 ≠ 0) (hhead : ∀ d ∈ u.head?, isWhitespace d = false)
    (hword : NoGroup (u.takeWhile isRawChar)) :
    scanner.run ((v.start A).append u) = scanner.run ⟨b.stack, .rawIdent, u.dropWhile isRawChar⟩ := by
  rcases nextItem_seam_stop hlast.ne_nil h0 hlast.item with ⟨hb, -, hw⟩
  have hn := hw u
  rw [dropWhile_of_head hhead, wordItem, if_neg hu0] at hn
  have hr : react b.stack (.directive (u.takeWhile isRawChar)) = some b.stack := by
    rw [react_out hb]
    simp only [reactOut, hword.1, hword.2]
    rfl
  rw [hlast.run_append u]
  exact run_of_item (c := b.append u) hn (Item.directive_ne_stop _) hr

end

/-! ## The start of a literal -/

/-- The text starts as a number or as a raw string does. -/
def BeginsLiteral (x : Str) : Prop := ∃ c t, x = c :: t ∧ (isDigit c = true ∨ c = 'R')

theorem first_of_literal : ∀ c : Byte, isDigit c = true ∨ c = 'R' → isWhitespace c = false ∧ c ≠ 0 ∧
    isRawChar c = true ∧ c ≠ 't' ∧ c ≠ 'i' ∧ c ≠ 'e' := by
  decide +kernel

theorem noGroup_cons {c : Byte} (hi : c ≠ 'i') (he : c ≠ 'e') (w : Str) : NoGroup (c :: w) := by
  unfold NoGroup opensGroup closesGroup
  constructor
  · rw [beq_eq_false_iff_ne]
    intro h
    exact hi (List.cons.inj h).1
  · rw [Bool.and_eq_false_iff, beq_eq_false_iff_ne]
    left
    intro h
    exact he (List.cons.inj h).1

section

variable {x : Str}

theorem BeginsLiteral.append (h : BeginsLiteral x) (B : Str) : BeginsLiteral (x ++ B) := by
  rcases h with ⟨c, t, rfl, hc⟩
  exact ⟨c, t ++ B, rfl, hc⟩

theorem BeginsLiteral.head (h : BeginsLiteral x) :
    x.headD 0 ≠ 0 ∧ (∀ d ∈ x.head?, isWhitespace d = false) ∧ beginsTemplate x = false ∧
      NoGroup (x.takeWhile isRawChar) := by
  rcases h with ⟨c, t, rfl, hc⟩
  rcases first_of_literal c hc with ⟨hblank, h0, hraw, ht, hi, he⟩
  refine ⟨h0, ?_, ?_, ?_⟩
  · intro d hd
    obtain rfl : c = d := Option.some.inj hd
    exact hblank
  · rw [beginsTemplate_eq, List.dropWhile_cons_of_neg (by simp [hblank]), beq_eq_false_iff_ne]
    intro hword
    have hmem := List.takeWhile_prefix isIdentChar (l := c :: t)
    rw [hword] at hmem
    rcases hmem with ⟨u, hu⟩
    exact ht (List.cons.inj hu).1.symm
  · rw [List.takeWhile_cons_of_pos hraw]
    exact noGroup_cons hi he _

/-- Its first token is the last one, whatever was in front. -/
theorem BeginsLiteral.run_eq (h : BeginsLiteral x) (st : Stack) (l l' : TokenKind) :
    scanner.run ⟨st, l, x⟩ = scanner.run ⟨st, l', x⟩ := by
  rcases h with ⟨c, t, rfl, hc | rfl⟩
  · have hn := nextItem_digit (inBlockComment st) hc t
    rw [run_inert l hn rfl, run_inert l' hn rfl]
    rfl
  · have hn := nextItem_word (inBlockComment st) (c := 'R') (by decide) t
    rw [run_inert l hn rfl, run_inert l' hn rfl]
    rfl

end

/-- **A literal behind blanks** is scanned as from there, or it goes to a bare `#`, or it is not looked
at. -/
theorem run_literal_behind_blank {v : XInputValidator} {A : Str} {r : Verdict} (h : EndsInCode v A r)
    (hA : EndsBlank A) :
    (∀ x, BeginsLiteral x → scanner.run (v.start (A ++ x)) = scanner.run ⟨r.stack, .unknown, x⟩) ∨
      (∀ x, BeginsLiteral x → scanner.run (v.start (A ++ x)) =
        scanner.run ⟨r.stack, .rawIdent, x.dropWhile isRawChar⟩) ∨
      ∀ x, BeginsLiteral x → scanner.run (v.start (A ++ x)) = some r := by
  rcases end_of_run h.run with ⟨e, it, rest, he, hn, hst, hl, ⟨rfl, hrej⟩ | ⟨-, hr, hrej⟩⟩
  · by_cases hnil : e.text = []
    · left
      intro x hx
      have he' : scanner.Reaches (v.start A) ⟨e.stack, e.last, []⟩ := by
        rw [← hnil]
        exact he
      rw [run_behind_blank hA he' h.line hx.head.2.2.1 hx.head.2.1, hx.run_eq _ _ .unknown, hst]
    · right
      by_cases h0 : 0 ∈ e.text
      · right
        intro x hx
        rcases nextItem_append_nul h0 hn x with ⟨rest', hn'⟩
        have hverdict : r = ⟨e.stack, e.last, false⟩ := by
          rw [← hst, ← hl, ← hrej]
        rw [start_append_behind_blank v hA hx.head.2.2.1,
          Machine.run_eq_of_reaches (reaches_append he hnil x), hverdict]
        exact run_of_stop hn'
      · left
        intro x hx
        rcases nextItem_seam_stop hnil h0 hn with ⟨-, rfl, -⟩
        rcases hx.head with ⟨hx0, hhead, htemplate, hword⟩
        rw [start_append_behind_blank v hA htemplate, hst]
        exact run_behind_hash ⟨he, hnil, hn⟩ h0 hx0 hhead hword
  · right
    right
    intro x hx
    have hend : ¬ (it = .directive (lit "endif") ∧ rest = []) := by
      rintro ⟨rfl, rfl⟩
      exact not_directive_of_blank hA he hn
    have hverdict : r = ⟨e.stack, e.last, true⟩ := by
      rw [← hst, ← hl, ← hrej]
    rw [start_append_behind_blank v hA hx.head.2.2.1, run_append_of_reject he hn hr hend, hverdict]

/-! ## Opaque literals -/

/-- Between blanks the literal is as good as `0`, in every text that is in code in front of it. -/
def Opaque (x : Str) : Prop :=
  ∀ A B n, (∃ r, EndsInCode {} A r) → (∃ r, EndsInCode {} B r) → EndsBlank A → StartsBlank B →
    ({} : XInputValidator).outcome (A ++ (x ++ B)) n =
      ({} : XInputValidator).outcome (A ++ (lit "0" ++ B)) n

theorem outcome_eq_shown (v : XInputValidator) (input : Str) (n : Nat) :
    v.outcome input n = (scanner.run (v.start input)).map Verdict.shown := outcome_eq input v n

theorem endsInCode_of_plain {v : XInputValidator} {A : Str} {r : Verdict}
    (hrun : scanner.run (v.start A) = some r) (hr : inBlockComment r.stack = false)
    (hA : ¬ lit "//" <:+: A) : EndsInCode v A r where
  run := hrun
  comment := hr
  line := by
    rintro ⟨b, it, hlast, -, hpre⟩
    exact hA (hpre.isInfix.trans (text_suffix_of_reaches hlast.reaches).isInfix)

theorem StartsBlank.dropWhile_raw {B : Str} (hB : StartsBlank B) (x : Str) :
    (x ++ B).dropWhile isRawChar = x.dropWhile isRawChar ++ B :=
  dropWhile_append_of_delim fun d hd => not_raw_of_blank d (hB d hd)

/-! ### Numbers -/

/-- The groups of an integer literal: letters and digits, and a digit at the start. -/
structure IsInteger (gs : List Str) : Prop where
  ne_nil : gs ≠ []
  groups : ∀ g ∈ gs, g ≠ [] ∧ ∀ c ∈ g, (isAlpha c || isDigit c) = true
  digit : ∀ g ∈ gs.head?, ∀ c ∈ g.head?, isDigit c = true

/-- The literal with a separator between two groups. -/
def number (gs : List Str) : Str := [(('\'' : Char) : Byte)].intercalate gs

section

variable {st : Stack}

/-- A group is a number, an identifier or both. -/
theorem run_group {g : Str} (hne : g ≠ []) (hg : ∀ c ∈ g, isIdentChar c = true) {u : Str}
    (hu : ∀ d ∈ u.head?, isIdentChar d = false) (l : TokenKind) :
    ∃ l', isContinuation l' = false ∧
      scanner.run ⟨st, l, g ++ u⟩ = scanner.run ⟨st, l', u⟩ := by
  have hword {c : Byte} {t : Str} (ht : ∀ d ∈ c :: t, isIdentChar d = true)
      (hc : charClass c = .word) (l : TokenKind) :
      scanner.run ⟨st, l, c :: t ++ u⟩ = scanner.run ⟨st, .ident, u⟩ := by
    have hn := nextItem_word (inBlockComment st) hc (t ++ u)
    rw [← List.cons_append, dropWhile_append_of_delim hu,
      List.dropWhile_eq_nil_iff.mpr ht, List.nil_append] at hn
    exact run_inert l hn rfl
  obtain ⟨c, t, rfl⟩ := List.exists_cons_of_ne_nil hne
  rcases (isIdentChar_iff c).mp (hg c List.mem_cons_self) with hc | hc
  · exact ⟨.ident, rfl, hword hg hc l⟩
  · have hn := nextItem_digit (inBlockComment st) ((charClass_digit_iff c).mp hc) (t ++ u)
    have hdigit : ∀ d ∈ u.head?, isDigit d = false := fun d hd => not_digit_of_not_ident (hu d hd)
    rw [← List.cons_append, dropWhile_append_of_delim hdigit] at hn
    rw [run_inert l hn rfl]
    -- letters behind the digits are an identifier
    cases hrest : (c :: t).dropWhile isDigit with
    | nil => exact ⟨.constant, rfl, rfl⟩
    | cons d t' =>
        have hsuf : d :: t' <:+ c :: t := hrest ▸ List.dropWhile_suffix isDigit
        have hident : ∀ d' ∈ d :: t', isIdentChar d' = true := fun d' hd' => hg d' (hsuf.subset hd')
        have hnot : isDigit d = false := by
          have := List.head_dropWhile_not isDigit (l := c :: t) (by simp [hrest])
          simpa [hrest] using this
        have hcls : charClass d = .word := by
          refine ((isIdentChar_iff d).mp (hident d List.mem_cons_self)).resolve_right fun h => ?_
          rw [(charClass_digit_iff d).mp h] at hnot
          exact Bool.noConfusion hnot
        exact ⟨.ident, rfl, hword hident hcls _⟩

theorem quotedBody_of_ident {g : Str} (hg : ∀ c ∈ g, isIdentChar c = true) : QuotedBody '\'' g := by
  induction g with
  | nil => exact .nil
  | cons c g ih =>
      have hc := hg c List.mem_cons_self
      refine .plain ?_ ?_ (ih fun d hd => hg d (List.mem_cons_of_mem _ hd))
      · rintro rfl
        exact absurd hc (by decide)
      · rintro rfl
        exact absurd hc (by decide)

/-- No group closes a literal. -/
theorem not_closes_of_ident {g : Str} (hg : ∀ c ∈ g, isIdentChar c = true) : ¬ Closes '\'' g := by
  rintro ⟨w, t, rfl, -⟩
  have hq := hg '\'' (by simp)
  exact absurd hq (by decide)

theorem number_singleton (g : Str) : number [g] = g := by
  simp [number]

theorem number_cons_cons (g g' : Str) (gs : List Str) :
    number (g :: g' :: gs) = g ++ (('\'' : Char) : Byte) :: number (g' :: gs) := by
  simp [number]

/-- What the groups of a number are to the lexer. -/
def IdentGroups (gs : List Str) : Prop := ∀ g ∈ gs, g ≠ [] ∧ ∀ c ∈ g, isIdentChar c = true

theorem run_separator_none {g : Str} (hg : ∀ c ∈ g, isIdentChar c = true) (l : TokenKind) :
    scanner.run ⟨st, l, (('\'' : Char) : Byte) :: g⟩ = none := by
  refine Machine.run_of_stuck (scanMove_of_none (Option.map_eq_none_iff.mpr ?_))
  exact lexHead_eq_none_iff.mpr ⟨_, g, rfl, by decide, not_closes_of_ident hg⟩

theorem IdentGroups.tail {g : Str} {gs : List Str} (h : IdentGroups (g :: gs)) : IdentGroups gs :=
  fun x hx => h x (List.mem_cons_of_mem _ hx)

/-- Behind the first group of several stands a quote. -/
theorem run_first_group {g g' : Str} {gs : List Str} (hgs : IdentGroups (g :: g' :: gs))
    (l : TokenKind) (B : Str) : ∃ l', isContinuation l' = false ∧
      scanner.run ⟨st, l, number (g :: g' :: gs) ++ B⟩ =
        scanner.run ⟨st, l', (('\'' : Char) : Byte) :: (number (g' :: gs) ++ B)⟩ := by
  have hquote : ∀ d ∈ ((('\'' : Char) : Byte) :: (number (g' :: gs) ++ B)).head?,
      isIdentChar d = false := by
    intro d hd
    obtain rfl : _ = d := Option.some.inj hd
    decide
  obtain ⟨hg, hident⟩ := hgs g List.mem_cons_self
  rw [number_cons_cons, List.append_assoc, List.cons_append]
  exact run_group hg hident hquote l

/-- The second of three groups is the body of a literal. -/
theorem run_two_groups {g g' g'' : Str} {gs : List Str} (hgs : IdentGroups (g :: g' :: g'' :: gs))
    (l : TokenKind) (B : Str) : scanner.run ⟨st, l, number (g :: g' :: g'' :: gs) ++ B⟩ =
      scanner.run ⟨st, .charlit, number (g'' :: gs) ++ B⟩ := by
  obtain ⟨-, hident⟩ := hgs.tail g' List.mem_cons_self
  obtain ⟨l', -, hfirst⟩ := run_first_group hgs l B
  rw [hfirst, number_cons_cons, List.append_assoc, List.cons_append]
  exact run_literal st l' (by decide) (quotedBody_of_ident hident) _

/-- **Two separators are a literal** between two groups: with an even number of them the number is
passed over, with an odd number the last one opens a literal that nothing closes. -/
theorem run_number {gs : List Str} (hne : gs ≠ []) (hgs : IdentGroups gs) (l : TokenKind) :
    (gs.length % 2 = 0 → scanner.run ⟨st, l, number gs⟩ = none) ∧
      (gs.length % 2 = 1 → ∀ B : Str, (∀ d ∈ B.head?, isIdentChar d = false) →
        ∃ l', isContinuation l' = false ∧
          scanner.run ⟨st, l, number gs ++ B⟩ = scanner.run ⟨st, l', B⟩) := by
  induction hn : gs.length using Nat.strongRecOn generalizing gs l with
  | ind n ih =>
    rcases gs with _ | ⟨g, _ | ⟨g', _ | ⟨g'', gs⟩⟩⟩
    · exact absurd rfl hne
    · obtain ⟨hg, hident⟩ := hgs g List.mem_cons_self
      have hone : n = 1 := hn.symm
      refine ⟨fun h => absurd h (by omega), fun _ B hB => ?_⟩
      rw [number_singleton]
      exact run_group hg hident hB l
    · have htwo : n = 2 := hn.symm
      refine ⟨fun _ => ?_, fun h => absurd h (by omega)⟩
      obtain ⟨-, hident⟩ := hgs.tail g' List.mem_cons_self
      obtain ⟨l', -, hfirst⟩ := run_first_group hgs l []
      rw [List.append_nil, List.append_nil, number_singleton] at hfirst
      rw [hfirst, run_separator_none hident]
    · have hlen : (g'' :: gs).length + 2 = n := hn
      have hpar : (g'' :: gs).length % 2 = n % 2 := by omega
      have hgo := ih _ (by omega) (List.cons_ne_nil _ _) hgs.tail.tail .charlit rfl
      rw [hpar] at hgo
      refine ⟨fun h => ?_, fun h B hB => ?_⟩
      · have htwo : scanner.run ⟨st, l, _⟩ = _ := run_two_groups hgs l []
        rw [List.append_nil, List.append_nil, hgo.1 h] at htwo
        exact htwo
      · rw [run_two_groups hgs l B]
        exact hgo.2 h B hB

end

theorem IsInteger.identGroups {gs : List Str} (h : IsInteger gs) : IdentGroups gs := by
  intro g hg
  refine ⟨(h.groups g hg).1, fun c hc => ?_⟩
  unfold isIdentChar
  rw [(h.groups g hg).2 c hc]
  rfl

theorem IsInteger.begins {gs : List Str} (h : IsInteger gs) : BeginsLiteral (number gs) := by
  obtain ⟨g, gs, rfl⟩ := List.exists_cons_of_ne_nil h.ne_nil
  obtain ⟨c, t, rfl⟩ := List.exists_cons_of_ne_nil (h.groups g List.mem_cons_self).1
  have hc : isDigit c = true := h.digit _ rfl c rfl
  cases gs with
  | nil => exact ⟨c, t, number_singleton _, .inl hc⟩
  | cons g' gs => exact ⟨c, _, number_cons_cons _ _ _, .inl hc⟩

/-- With an even number of separators the number is passed over. -/
theorem passedOver_number {gs : List Str} (h : IsInteger gs) (hodd : gs.length % 2 = 1) :
    PassedOver (number gs) := by
  intro st B _ hB l hl
  have hhead : ∀ d ∈ B.head?, isIdentChar d = false := fun d hd => not_ident_of_blank (hB d hd)
  rcases (run_number h.ne_nil h.identGroups l).2 hodd B hhead with ⟨l', hcont, hgo⟩
  rw [hgo]
  exact run_shown (hcont.trans hl.symm) B

theorem isInteger_zero : IsInteger [lit "0"] where
  ne_nil := by decide
  groups := by decide +kernel
  digit := by decide +kernel

theorem passedOver_zero : PassedOver (lit "0") := by
  have hzero : number [lit "0"] = lit "0" := number_singleton _
  rw [← hzero]
  exact passedOver_number isInteger_zero rfl

/-! ### Literals that are opaque -/

section

variable {x : Str}

/-- A literal that is passed over, also from its first blank on, is opaque. -/
theorem opaque_of_passedOver (hx : BeginsLiteral x) (h : PassedOver x)
    (h' : PassedOver (x.dropWhile isRawChar)) : Opaque x := by
  rintro A B n ⟨r, hA⟩ - hAend hB
  have hzero : BeginsLiteral (lit "0") := ⟨_, [], rfl, .inl (by decide)⟩
  have hdrop : (lit "0").dropWhile isRawChar = [] := by decide
  rw [outcome_eq_shown, outcome_eq_shown]
  rcases run_literal_behind_blank hA hAend with hgo | hgo | hgo
  · rw [hgo _ (hx.append B), hgo _ (hzero.append B), h _ B hA.comment hB _ rfl,
      passedOver_zero _ B hA.comment hB _ rfl]
  · rw [hgo _ (hx.append B), hgo _ (hzero.append B), hB.dropWhile_raw, hB.dropWhile_raw,
      h' _ B hA.comment hB _ rfl, hdrop, List.nil_append]
  · rw [hgo _ (hx.append B), hgo _ (hzero.append B)]

/-- In front of the literal stands `A`, which leaves the stack `st`. -/
structure Place (A : Str) (st : Stack) : Prop where
  code : ∃ r, EndsInCode {} A r
  blank : EndsBlank A
  out : inBlockComment st = false

theorem Opaque.passedOverAt (ho : Opaque x) (hx : BeginsLiteral x) {A B : Str} {st : Stack}
    (hA : Place A st) (hB : ∃ r, EndsInCode {} B r) (hblank : StartsBlank B)
    (hgo : ∀ y, BeginsLiteral y →
      scanner.run (({} : XInputValidator).start (A ++ y)) = scanner.run ⟨st, .unknown, y⟩) :
    PassedOverAt st B x := by
  intro l hl
  have hzero : BeginsLiteral (lit "0") := ⟨_, [], rfl, .inl (by decide)⟩
  have hsame := ho A B 0 hA.code hB hA.blank hblank
  rw [outcome_eq_shown, outcome_eq_shown, hgo _ (hx.append B), hgo _ (hzero.append B),
    passedOver_zero st B hA.out hblank _ rfl] at hsame
  rw [(hx.append B).run_eq st l .unknown, hsame]
  exact run_shown (show isContinuation .unknown = isContinuation l from hl.symm) B

theorem Opaque.rest_passedOverAt (ho : Opaque x) (hx : BeginsLiteral x) {A B : Str} {st : Stack}
    (hA : Place A st) (hB : ∃ r, EndsInCode {} B r) (hblank : StartsBlank B)
    (hgo : ∀ y, BeginsLiteral y → scanner.run (({} : XInputValidator).start (A ++ y)) =
      scanner.run ⟨st, .rawIdent, y.dropWhile isRawChar⟩) :
    PassedOverAt st B (x.dropWhile isRawChar) := by
  intro l hl
  have hzero : BeginsLiteral (lit "0") := ⟨_, [], rfl, .inl (by decide)⟩
  have hdrop : (lit "0").dropWhile isRawChar = [] := by decide
  have hlast : isContinuation .rawIdent = isContinuation l := hl.symm
  have hsame := ho A B 0 hA.code hB hA.blank hblank
  rw [outcome_eq_shown, outcome_eq_shown, hgo _ (hx.append B), hgo _ (hzero.append B),
    hblank.dropWhile_raw, hblank.dropWhile_raw, hdrop, List.nil_append] at hsame
  rw [← run_shown hlast, hsame]
  exact run_shown hlast B

/-! #### Four places for a literal -/

theorem place_nil : Place [] [] where
  code := ⟨_, endsInCode_of_plain (run_nil _ _) rfl (by decide)⟩
  blank := by simp [EndsBlank]
  out := rfl

theorem place_template : Place (lit "template ") [.less] where
  code := ⟨⟨[.less], .ident, false⟩, endsInCode_of_plain (by decide +kernel) rfl (by decide)⟩
  blank := show ∀ d ∈ (lit "template ").getLast?, isWhitespace d = true by decide +kernel
  out := rfl

theorem place_hash : Place (lit "# ") [] where
  code := ⟨⟨[], .unknown, false⟩, endsInCode_of_plain (by decide +kernel) rfl (by decide)⟩
  blank := show ∀ d ∈ (lit "# ").getLast?, isWhitespace d = true by decide +kernel
  out := rfl

theorem place_template_hash : Place (lit "template # ") [.less] where
  code := ⟨⟨[.less], .ident, false⟩, endsInCode_of_plain (by decide +kernel) rfl (by decide)⟩
  blank := show ∀ d ∈ (lit "template # ").getLast?, isWhitespace d = true by decide +kernel
  out := rfl

theorem reaches_template (u : Str) (hu : ∀ d ∈ u.head?, isWhitespace d = false) :
    scanner.Reaches ⟨[.less], .unknown, lit "template " ++ u⟩ ⟨[.less], .ident, u⟩ := by
  have hblank := nextItem_blank false (c := ' ') (by decide) u
  have hdrop : ((((' ' : Char) : Byte) :: u).dropWhile isWhitespace) = u := by
    rw [List.dropWhile_cons_of_pos (by decide), dropWhile_of_head hu]
  rw [hdrop] at hblank
  have hword : scanner.Reaches ⟨[.less], .unknown, lit "template " ++ u⟩
      ⟨[.less], .ident, (((' ' : Char) : Byte) :: u)⟩ :=
    reaches_inert .ident (nextItem_word false (by decide) _) rfl
  exact hword.trans (reaches_inert .space hblank rfl)

/-- Behind nothing and behind `template` the scan comes to the literal. -/
theorem run_at_literal {y : Str} (hy : BeginsLiteral y) :
    scanner.run (({} : XInputValidator).start ([] ++ y)) = scanner.run ⟨[], .unknown, y⟩ ∧
      scanner.run (({} : XInputValidator).start (lit "template " ++ y)) =
        scanner.run ⟨[.less], .unknown, y⟩ := by
  rcases hy.head with ⟨-, hhead, htemplate, -⟩
  constructor
  · have hstart : ({} : XInputValidator).start [] = ⟨[], .unknown, []⟩ := by decide
    rw [start_append_behind_blank {} place_nil.blank htemplate, hstart]
    rfl
  · have hstart : ({} : XInputValidator).start (lit "template ") =
        ⟨[.less], .unknown, lit "template "⟩ := by decide +kernel
    rw [start_append_behind_blank {} place_template.blank htemplate, hstart, Config.append,
      Machine.run_eq_of_reaches (reaches_template y hhead)]
    exact hy.run_eq _ _ _

/-- Behind a bare `#` it comes to the first blank of the literal. -/
theorem run_at_hash {y : Str} (hy : BeginsLiteral y) :
    scanner.run (({} : XInputValidator).start (lit "# " ++ y)) =
        scanner.run ⟨[], .rawIdent, y.dropWhile isRawChar⟩ ∧
      scanner.run (({} : XInputValidator).start (lit "template # " ++ y)) =
        scanner.run ⟨[.less], .rawIdent, y.dropWhile isRawChar⟩ := by
  rcases hy.head with ⟨h0, hhead, htemplate, hword⟩
  constructor
  · have hlast : LastRead (({} : XInputValidator).start (lit "# ")) ⟨[], .unknown, lit "# "⟩ .stop :=
      ⟨.refl _, by decide, by decide⟩
    rw [start_append_behind_blank {} place_hash.blank htemplate]
    exact run_behind_hash hlast (by decide) h0 hhead hword
  · have hstart : ({} : XInputValidator).start (lit "template # ") =
        ⟨[.less], .unknown, lit "template " ++ lit "# "⟩ := by decide +kernel
    have hlast : LastRead (({} : XInputValidator).start (lit "template # "))
        ⟨[.less], .ident, lit "# "⟩ .stop := by
      rw [hstart]
      exact ⟨reaches_template (lit "# ") (by decide +kernel), by decide, by decide⟩
    rw [start_append_behind_blank {} place_template_hash.blank htemplate]
    exact run_behind_hash hlast (by decide) h0 hhead hword

/-- An opaque literal passes the tests, as a whole and from its first blank on. -/
theorem Opaque.passesTests (ho : Opaque x) (hx : BeginsLiteral x) :
    PassesTests x ∧ PassesTests (x.dropWhile isRawChar) := by
  have hempty : ∃ r, EndsInCode {} [] r := place_nil.code
  have hparen : ∃ r, EndsInCode {} (lit " (") r :=
    ⟨⟨[.lParen], .lParen, false⟩, endsInCode_of_plain (by decide +kernel) rfl (by decide)⟩
  have hblank : StartsBlank (lit " (") :=
    show ∀ d ∈ (lit " (").head?, isWhitespace d = true by decide +kernel
  have hnone : StartsBlank [] := by simp [StartsBlank]
  refine ⟨⟨?_, ?_, ?_⟩, ⟨?_, ?_, ?_⟩⟩
  · exact ho.passedOverAt hx place_nil hempty hnone fun y hy => (run_at_literal hy).1
  · exact ho.passedOverAt hx place_nil hparen hblank fun y hy => (run_at_literal hy).1
  · exact ho.passedOverAt hx place_template hempty hnone fun y hy => (run_at_literal hy).2
  · exact ho.rest_passedOverAt hx place_hash hempty hnone fun y hy => (run_at_hash hy).1
  · exact ho.rest_passedOverAt hx place_hash hparen hblank fun y hy => (run_at_hash hy).1
  · exact ho.rest_passedOverAt hx place_template_hash hempty hnone fun y hy => (run_at_hash hy).2

end

/-! ### The two kinds -/

/-- A raw string literal. -/
def rawString (d body : Str) : Str :=
  lit "R\"" ++ (d ++ (lit "(" ++ (body ++ (lit ")" ++ (d ++ lit "\"")))))

theorem rawString_begins (d body : Str) : BeginsLiteral (rawString d body) :=
  ⟨_, _, rfl, .inr rfl⟩

theorem rawString_last (d body : Str) : (rawString d body).getLast? = some (('"' : Char) : Byte) := by
  rw [rawString, List.getLast?_append, List.getLast?_append, List.getLast?_append,
    List.getLast?_append, List.getLast?_append, List.getLast?_append]
  rfl

theorem raw_of_ident : ∀ c, isIdentChar c = true → isRawChar c = true := by
  decide +kernel

theorem raw_of_number {gs : List Str} (h : IdentGroups gs) : ∀ c ∈ number gs, isRawChar c = true := by
  induction gs with
  | nil =>
      intro c hc
      exact absurd hc (by simp [number])
  | cons g gs ih =>
      have hg : ∀ c ∈ g, isRawChar c = true :=
        fun c hc => raw_of_ident c ((h g List.mem_cons_self).2 c hc)
      cases gs with
      | nil =>
          rw [number_singleton]
          exact hg
      | cons g' gs =>
          intro c hc
          rw [number_cons_cons] at hc
          rcases List.mem_append.mp hc with hc | hc
          · exact hg c hc
          · rcases List.mem_cons.mp hc with rfl | hc
            · decide
            · exact ih (fun x hx => h x (List.mem_cons_of_mem _ hx)) c hc

/-- An integer literal is opaque exactly when the number of its separators is even. -/
theorem opaque_number_iff {gs : List Str} (h : IsInteger gs) :
    Opaque (number gs) ↔ (gs.length - 1) % 2 = 0 := by
  have hpos : 0 < gs.length := List.length_pos_iff.mpr h.ne_nil
  constructor
  · intro ho
    rcases (ho.passesTests h.begins).1.verdict with ⟨r, hrun, -⟩
    by_contra hodd
    rw [(run_number h.ne_nil h.identGroups .unknown).1 (by omega)] at hrun
    exact absurd hrun (by simp)
  · intro heven
    have hpass := passedOver_number h (by omega)
    refine opaque_of_passedOver h.begins hpass ?_
    -- there is no blank in it
    have hrest : (number gs).dropWhile isRawChar = [] :=
      List.dropWhile_eq_nil_iff.mpr (raw_of_number h.identGroups)
    rw [hrest]
    exact fun _ _ _ _ _ _ => rfl

/-- A raw string is opaque exactly when it is self-contained, also from its first blank on. -/
theorem opaque_rawString_iff (d body : Str) : Opaque (rawString d body) ↔
    SelfContained (rawString d body) ∧ SelfContained ((rawString d body).dropWhile isRawChar) := by
  have hquote : isWhitespace (('"' : Char) : Byte) = false ∧ (('"' : Char) : Byte) ≠ '#' := by decide
  constructor
  · intro ho
    rcases ho.passesTests (rawString_begins d body) with ⟨hx, hrest⟩
    refine ⟨hx.selfContained ?_, hrest.selfContained ?_⟩
    · intro c hc
      rw [rawString_last] at hc
      obtain rfl := Option.some.inj hc
      exact hquote
    · intro c hc
      have hlast := mem_getLast?_of_suffix (List.dropWhile_suffix isRawChar) hc
      rw [rawString_last] at hlast
      obtain rfl := Option.some.inj hlast
      exact hquote
  · rintro ⟨hx, hrest⟩
    exact opaque_of_passedOver (rawString_begins d body) hx.passedOver hrest.passedOver

/-- **Which literals are opaque**: numbers with an even number of separators, and raw strings that the
lexer reads as self-contained code. -/
theorem opaque_literal_iff (gs : List Str) (d body : Str) (h : IsInteger gs) :
    (Opaque (number gs) ↔ (gs.length - 1) % 2 = 0) ∧
      (Opaque (rawString d body) ↔ SelfContained (rawString d body) ∧
        SelfContained ((rawString d body).dropWhile isRawChar)) :=
  ⟨opaque_number_iff h, opaque_rawString_iff d body⟩

theorem opaque_million :
    (Opaque (number [lit "1", lit "000", lit "000"]) ↔ (3 - 1) % 2 = 0) ∧
      (Opaque (rawString [] (lit "a(b) c")) ↔ SelfContained (rawString [] (lit "a(b) c")) ∧
        SelfContained ((rawString [] (lit "a(b) c")).dropWhile isRawChar)) :=
  opaque_literal_iff [lit "1", lit "000", lit "000"] [] (lit "a(b) c")
    ⟨by decide, by decide +kernel, by decide +kernel⟩

/-- One separator, and a quote in a raw string, are not read as a part of a literal. -/
theorem not_opaque_thousand :
    number [lit "1", lit "000"] = lit "1'000" ∧ ¬ Opaque (number [lit "1", lit "000"]) ∧
      rawString [] (lit "\")\"") = lit "R\"(\")\")\"" ∧ ¬ Opaque (rawString [] (lit "\")\"")) := by
  have hempty : ∃ r, EndsInCode {} [] r := place_nil.code
  have hnone : StartsBlank [] := by simp [StartsBlank]
  have hzero : ({} : XInputValidator).outcome (lit "0") 4 = some (.complete, []) := by decide +kernel
  refine ⟨by decide +kernel, fun h => ?_, by decide +kernel, fun h => ?_⟩
  · have hthousand : ({} : XInputValidator).outcome ([] ++ (number [lit "1", lit "000"] ++ [])) 4 =
        none := by decide +kernel
    have heq := h [] [] 4 hempty hempty place_nil.blank hnone
    rw [hthousand] at heq
    exact absurd (heq.trans hzero) (by simp)
  · have hraw : ({} : XInputValidator).outcome ([] ++ (rawString [] (lit "\")\"") ++ [])) 4 =
        some (.mismatch, []) := by decide +kernel
    have heq := h [] [] 4 hempty hempty place_nil.blank hnone
    rw [hraw] at heq
    exact absurd (heq.trans hzero) (by decide)

end XeusCpp.Validator
