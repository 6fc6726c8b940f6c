/-
# XeusCpp.Validator.Brackets — the validator is the stack machine of a bracket language.

A text of brackets and directives, with no literal, no comment character and no continuation, is for
the validator a word over four kinds of brackets: `[ ]`, `( )`, `{ }`, and `#if… #endif`. `bracketsOf`
reads that word off the characters. `run_bracketText` states that the scan of such a text is the
stack machine `Logic.reduce` on the word, and `validate_bracketText` what follows for `validate`.
-/
import XeusCpp.Logic.Bracket
import XeusCpp.Validator.Seam

namespace XeusCpp.Validator

open XeusCpp.Text XeusCpp.Logic

/-! ## The bracket word of a text -/

/-- The kinds of brackets. -/
inductive BracketKind where
  | square | paren | brace | conditional
  deriving DecidableEq, Repr

/-- The entry of `m_parent_stack` for an open bracket. -/
def BracketKind.marker : BracketKind → TokenKind
  | .square => .lSquare
  | .paren => .lParen
  | .brace => .lBrace
  | .conditional => .hash

/-- The brackets a character is. -/
def bracketOfChar (c : Byte) : List (Sym BracketKind) :=
  if c = '[' then [.opn .square] else if c = ']' then [.cls .square]
  else if c = '(' then [.opn .paren] else if c = ')' then [.cls .paren]
  else if c = '{' then [.opn .brace] else if c = '}' then [.cls .brace]
  else []

/-- The brackets a directive word is. -/
def bracketOfWord (w : Str) : List (Sym BracketKind) :=
  if lit "if" <+: w then [.opn .conditional]
  else if w = lit "endif" then [.cls .conditional]
  else []

/-- The bracket word of a text. A `#` is read with the letters behind its blanks; every other
character that is no bracket is inert. -/
def bracketsOf : Str → List (Sym BracketKind)
  | [] => []
  | c :: t =>
    if c = '#' then
      let w := t.dropWhile isWhitespace
      bracketOfWord (w.takeWhile isAlpha) ++ bracketsOf (w.dropWhile isAlpha)
    else bracketOfChar c ++ bracketsOf t
termination_by t => t.length
decreasing_by
  · have h1 := (List.dropWhile_suffix isAlpha (l := t.dropWhile isWhitespace)).length_le
    have h2 := (List.dropWhile_suffix isWhitespace (l := t)).length_le
    simp only [List.length_cons]
    omega
  · exact Nat.lt_succ_self _

/-- The characters that start a literal or a comment, continue a line, or end the text. -/
def isExcluded (c : Byte) : Bool := c ∈ lit "\"'/*\\," || c == 0

/-- Texts without excluded characters, in which every `#` is followed by optional blanks, a word of
letters and a blank. -/
structure BracketText (s : Str) : Prop where
  chars : ∀ c ∈ s, isExcluded c = false
  directives : ∀ a t, s = a ++ (('#' : Char) : Byte) :: t → ∃ w d r,
    t.dropWhile isWhitespace = w ++ d :: r ∧ w ≠ [] ∧ (∀ c ∈ w, isAlpha c = true) ∧
      isWhitespace d = true

theorem BracketText.suffix {s t : Str} (h : BracketText s) (ht : t <:+ s) : BracketText t := by
  rcases ht with ⟨p, rfl⟩
  refine ⟨fun c hc => h.chars c (List.mem_append_right p hc), fun a r hr => ?_⟩
  exact h.directives (p ++ a) r (by rw [hr, List.append_assoc])

theorem bracketsOf_hash (t : Str) : bracketsOf ((('#' : Char) : Byte) :: t) =
    bracketOfWord ((t.dropWhile isWhitespace).takeWhile isAlpha) ++
      bracketsOf ((t.dropWhile isWhitespace).dropWhile isAlpha) := by
  rw [bracketsOf]
  exact if_pos rfl

theorem bracketsOf_cons {c : Byte} (hc : c ≠ '#') (t : Str) :
    bracketsOf (c :: t) = bracketOfChar c ++ bracketsOf t := by
  rw [bracketsOf, if_neg hc]

/-- A run of inert characters leaves no brackets. -/
theorem bracketsOf_dropWhile {P : Byte → Bool}
    (hP : ∀ c, P c = true → c ≠ '#' ∧ bracketOfChar c = []) (t : Str) :
    bracketsOf (t.dropWhile P) = bracketsOf t := by
  induction t with
  | nil => rfl
  | cons c t ih =>
      by_cases hc : P c = true
      · rw [List.dropWhile_cons_of_pos hc, ih, bracketsOf_cons (hP c hc).1, (hP c hc).2,
          List.nil_append]
      · rw [List.dropWhile_cons_of_neg hc]

/-! ## Items and symbols -/

/-- The stack of the validator with the brackets `ks` open. -/
def markers (ks : List BracketKind) : Stack := ks.map BracketKind.marker

theorem markers_not_comment (ks : List BracketKind) : inBlockComment (markers ks) = false := by
  cases ks with
  | nil => rfl
  | cons k ks => cases k <;> rfl

theorem markers_not_template (ks : List BracketKind) : inTemplate (markers ks) = false := by
  rcases ks with _ | ⟨k, _ | ⟨k', ks⟩⟩
  · rfl
  · cases k <;> rfl
  · simp [markers, inTemplate]

/-- The stack after the symbols `ss`; `none` for a mismatch. -/
def markersAfter (ks : List BracketKind) (ss : List (Sym BracketKind)) : Option Stack :=
  match reduce ks ss with
  | .ended js => some (markers js)
  | .mismatch _ => none

/-- The closing token of a kind of brackets. -/
def BracketKind.closing : BracketKind → Option TokenKind
  | .square => some .rSquare
  | .paren => some .rParen
  | .brace => some .rBrace
  | .conditional => none

theorem closeBracket_markers (ks : List BracketKind) {k : BracketKind} {tk : TokenKind}
    (hk : k.closing = some tk) : closeBracket tk (markers ks) = markersAfter ks [.cls k] := by
  cases ks with
  | nil => rfl
  | cons j ks =>
      have hadj : asInt tk = asInt j.marker + 1 ↔ j = k := by
        cases j <;> cases k <;> simp [BracketKind.closing] at hk <;> subst hk <;> decide
      by_cases hj : j = k
      · have hred : reduce (j :: ks) [.cls k] = .ended ks := by
          rw [reduce_cls, if_pos (by rw [hj, List.head?_cons])]
          rfl
        show closeBracket tk (j.marker :: markers ks) = _
        rw [closeBracket, if_pos (hadj.mpr hj), markersAfter, hred, markers_not_template]
        simp
      · have hred : reduce (j :: ks) [.cls k] = .mismatch (j :: ks) := by
          rw [reduce_cls, if_neg (by simpa using hj)]
        show closeBracket tk (j.marker :: markers ks) = _
        rw [closeBracket, if_neg (fun h => hj (hadj.mp h)), markersAfter, hred]

theorem ne_of_not_excluded {c : Byte} (hex : isExcluded c = false) {d : Byte}
    (hd : isExcluded d = true) : c ≠ d := by
  rintro rfl
  rw [hd] at hex
  exact Bool.noConfusion hex

/-- The punctuators that are no brackets leave every stack, but for a template's `;`. -/
theorem punctuator_inert : ∀ c, charClass c = .punct → isExcluded c = false → c ≠ '#' →
    bracketOfChar c = [] →
      (punctuatorKind c).isInert = true ∨ punctuatorKind c = .semicolon := by
  decide +kernel

theorem reactOut_of_inert {st : Stack} {k : TokenKind} (hk : k.isInert = true)
    (hb : inBlockComment st = false) : reactOut st (.token k) = some st := by
  rw [← react_out hb, react_of_inert st hk]

/-- What a punctuator other than `#` does to open brackets. -/
theorem reactOut_punctuator (ks : List BracketKind) {c : Byte} (hcls : charClass c = .punct)
    (hex : isExcluded c = false) (hc : c ≠ '#') :
    reactOut (markers ks) (.token (punctuatorKind c)) = markersAfter ks (bracketOfChar c) := by
  have hinert := punctuator_inert c hcls hex hc
  unfold bracketOfChar at hinert ⊢
  split_ifs at hinert ⊢ with h1 h2 h3 h4 h5 h6
  · exact h1 ▸ rfl
  · exact h2 ▸ closeBracket_markers ks (k := .square) rfl
  · exact h3 ▸ rfl
  · exact h4 ▸ closeBracket_markers ks (k := .paren) rfl
  · exact h5 ▸ rfl
  · exact h6 ▸ closeBracket_markers ks (k := .brace) rfl
  · rcases hinert rfl with hk | hk
    · exact reactOut_of_inert hk (markers_not_comment ks)
    · rw [hk]
      show some (if inTemplate (markers ks) = true then (markers ks).tail else markers ks) = _
      rw [if_neg (by simp [markers_not_template])]
      rfl

/-- Outside the punctuators there are no brackets, and the characters of literals, comments and of
the end are excluded. -/
theorem inert_of_class (c : Byte) (h : charClass c ≠ .punct) : c ≠ '#' ∧ bracketOfChar c = [] ∧
    (isExcluded c = false → charClass c ≠ .quote ∧ charClass c ≠ .slash ∧ charClass c ≠ .star ∧
      charClass c ≠ .nul) := by
  have hne {d : Byte} (hd : charClass d = .punct) : c ≠ d := fun hcd => h (hcd ▸ hd)
  refine ⟨hne rfl, ?_, ?_⟩
  · unfold bracketOfChar
    rw [if_neg (hne rfl), if_neg (hne rfl), if_neg (hne rfl), if_neg (hne rfl), if_neg (hne rfl),
      if_neg (hne rfl)]
  · intro hex
    have hquote : isQuotedString c = false := by
      have h1 : c ≠ '"' := ne_of_not_excluded hex rfl
      have h2 : c ≠ '\'' := ne_of_not_excluded hex rfl
      simp [isQuotedString, h1, h2]
    refine ⟨?_, ?_, ?_, ?_⟩
    · rw [Ne, charClass_quote_iff, hquote]
      exact Bool.false_ne_true
    · exact fun hs => ne_of_not_excluded hex rfl ((charClass_slash_iff c).mp hs)
    · exact fun hs => ne_of_not_excluded hex rfl ((charClass_star_iff c).mp hs)
    · exact fun hs => ne_of_not_excluded hex rfl ((charClass_nul_iff c).mp hs)

theorem inert_of_isIdentChar (c : Byte) (h : isIdentChar c = true) :
    c ≠ '#' ∧ bracketOfChar c = [] := by
  have hcls := inert_of_class c (by
    rcases (isIdentChar_iff c).mp h with h | h <;> simp [h])
  exact ⟨hcls.1, hcls.2.1⟩

theorem inert_of_isDigit (c : Byte) (h : isDigit c = true) : c ≠ '#' ∧ bracketOfChar c = [] := by
  have hcls := inert_of_class c (by simp [(charClass_digit_iff c).mpr h])
  exact ⟨hcls.1, hcls.2.1⟩

theorem inert_of_isWhitespace (c : Byte) (h : isWhitespace c = true) :
    c ≠ '#' ∧ bracketOfChar c = [] := by
  have hcls := inert_of_class c (by simp [(charClass_blank_iff c).mpr h])
  exact ⟨hcls.1, hcls.2.1⟩

/-- No continuation is read where none is written. -/
theorem punctuator_no_continuation : ∀ c, isExcluded c = false →
    punctuatorKind c ≠ .backslash ∧ punctuatorKind c ≠ .comma := by
  decide +kernel

theorem isAlpha_raw : ∀ c, isAlpha c = true → isRawChar c = true ∧ c ≠ 0 ∧
    (((c : Byte) == '/') || isspace c) = false := by
  decide +kernel

theorem opensGroup_iff (w : Str) : opensGroup w = true ↔ lit "if" <+: w := by
  rw [List.prefix_iff_eq_take, opensGroup, beq_iff_eq]
  exact eq_comm

/-- A word of letters closes a group when it is `endif`. -/
theorem closesGroup_iff {w : Str} (hw : ∀ c ∈ w, isAlpha c = true) :
    closesGroup w = true ↔ w = lit "endif" := by
  constructor
  · intro h
    rcases Bool.and_eq_true_iff.mp h with ⟨htake, hrest⟩
    have htake : w.take 5 = lit "endif" := by simpa using htake
    by_cases hlen : w.length ≤ 5
    · rwa [List.take_of_length_le hlen] at htake
    · -- the sixth character is a letter
      have h5 : 5 < w.length := by omega
      have hmem := isAlpha_raw w[5] (hw _ (List.getElem_mem h5))
      have hne : ¬ w.length = 5 := by omega
      simp only [Bool.or_eq_false_iff, beq_eq_false_iff_ne] at hmem
      rw [List.getElem?_eq_getElem h5] at hrest
      simp [hne, hmem.2.2.1, hmem.2.2.2] at hrest
  · rintro rfl
    decide

/-- A word of letters is for the validator the bracket it is. -/
theorem reactOut_directive_letters (ks : List BracketKind) {w : Str}
    (hw : ∀ c ∈ w, isAlpha c = true) :
    reactOut (markers ks) (.directive w) = markersAfter ks (bracketOfWord w) := by
  unfold bracketOfWord
  simp only [reactOut]
  by_cases ho : lit "if" <+: w
  · rw [if_pos ((opensGroup_iff w).mpr ho), if_pos ho]
    rfl
  rw [if_neg (fun h => ho ((opensGroup_iff w).mp h)), if_neg ho]
  by_cases hc : w = lit "endif"
  · rw [if_pos ((closesGroup_iff hw).mpr hc), if_pos hc]
    cases ks with
    | nil => rfl
    | cons k ks => cases k <;> rfl
  · rw [if_neg (fun h => hc ((closesGroup_iff hw).mp h)), if_neg hc]
    rfl

theorem blank_ends_word : ∀ d, isWhitespace d = true → isRawChar d = false ∧ isAlpha d = false := by
  decide +kernel

/-- An item of a bracket text, with the symbols it stands for. -/
structure Reads (t : Str) (it : Item) (r : Str) (ss : List (Sym BracketKind)) : Prop where
  item : nextItem false t = some (it, r)
  ne_stop : it ≠ .stop
  shorter : r.length < t.length
  suffix : r <:+ t
  symbols : bracketsOf t = ss ++ bracketsOf r
  single : ss.length ≤ 1
  react : ∀ ks, reactOut (markers ks) it = markersAfter ks ss
  no_continuation : it.kind ≠ .backslash ∧ it.kind ≠ .comma

/-- A longest run of inert characters. -/
theorem Reads.of_run {P : Byte → Bool} {c : Byte} {t : Str} {k : TokenKind} (hc : P c = true)
    (hP : ∀ c, P c = true → c ≠ '#' ∧ bracketOfChar c = [])
    (hn : nextItem false (c :: t) = some (.token k, (c :: t).dropWhile P)) (hk : k.isInert = true)
    (hcont : k ≠ .backslash ∧ k ≠ .comma) :
    Reads (c :: t) (.token k) ((c :: t).dropWhile P) [] where
  item := hn
  ne_stop := Item.token_ne_stop k
  shorter := by
    rw [List.dropWhile_cons_of_pos hc]
    exact Nat.lt_succ_of_le (List.dropWhile_suffix _).length_le
  suffix := List.dropWhile_suffix _
  symbols := (bracketsOf_dropWhile hP _).symm
  single := Nat.zero_le _
  react ks := reactOut_of_inert hk (markers_not_comment ks)
  no_continuation := hcont

theorem itemOf_plain {k : TokenKind} (h1 : k ≠ .eof) (h2 : k ≠ .comment) (h3 : k ≠ .hash) (r : Str) :
    itemOf false k r = (.token k, r) := by
  cases k
  case eof => exact absurd rfl h1
  case comment => exact absurd rfl h2
  case hash => exact absurd rfl h3
  all_goals rfl

/-- A `#` with its word. -/
theorem BracketText.reads_directive {t : Str} (h : BracketText ((('#' : Char) : Byte) :: t)) :
    ∃ it r ss, Reads ((('#' : Char) : Byte) :: t) it r ss := by
  rcases h.directives [] t rfl with ⟨w, d, r, ht, hne, hw, hd⟩
  have hraw : ∀ c ∈ w, isRawChar c = true := fun c hc => (isAlpha_raw c (hw c hc)).1
  have hd_raw : isRawChar d = false := (blank_ends_word d hd).1
  have hd_alpha : isAlpha d = false := (blank_ends_word d hd).2
  have htake {P : Byte → Bool} (hP : ∀ c ∈ w, P c = true) (hPd : P d = false) :
      (w ++ d :: r).takeWhile P = w ∧ (w ++ d :: r).dropWhile P = d :: r := by
    rw [List.takeWhile_append_of_pos hP, List.dropWhile_append_of_pos hP,
      List.takeWhile_cons_of_neg (by simp [hPd]), List.dropWhile_cons_of_neg (by simp [hPd]),
      List.append_nil]
    exact ⟨rfl, rfl⟩
  have hsuf : d :: r <:+ (('#' : Char) : Byte) :: t := by
    refine List.IsSuffix.trans ?_ ((List.dropWhile_suffix isWhitespace).trans (List.suffix_cons _ t))
    exact ⟨w, ht.symm⟩
  have hword : wordItem (w ++ d :: r) = (.directive w, d :: r) := by
    cases w with
    | nil => exact absurd rfl hne
    | cons c w =>
        rw [List.cons_append, wordItem_cons (isAlpha_raw c (hw c List.mem_cons_self)).2.1,
          ← List.cons_append, (htake hraw hd_raw).1, (htake hraw hd_raw).2]
  refine ⟨.directive w, d :: r, bracketOfWord w, ?_, Item.directive_ne_stop w, ?_, hsuf, ?_, ?_,
    fun ks => reactOut_directive_letters ks hw, by simp [Item.kind]⟩
  · show some (wordItem (t.dropWhile isWhitespace)) = _
    rw [ht, hword]
  · have h1 := (List.dropWhile_suffix isWhitespace (l := t)).length_le
    have h2 := congrArg List.length ht
    have h3 := List.length_pos_iff.mpr hne
    simp only [List.length_append, List.length_cons] at h2 ⊢
    omega
  · rw [bracketsOf_hash, ht, (htake hw hd_alpha).1, (htake hw hd_alpha).2]
  · unfold bracketOfWord
    split_ifs <;> simp

/-- **The step lemma**: a bracket text that is not empty starts with an item that does to the open
brackets what its symbols do. -/
theorem BracketText.reads {c : Byte} {t : Str} (h : BracketText (c :: t)) :
    ∃ it r ss, Reads (c :: t) it r ss := by
  have hex := h.chars c List.mem_cons_self
  cases hcls : charClass c
  case quote => exact absurd hcls ((inert_of_class c (by simp [hcls])).2.2 hex).1
  case slash => exact absurd hcls ((inert_of_class c (by simp [hcls])).2.2 hex).2.1
  case star => exact absurd hcls ((inert_of_class c (by simp [hcls])).2.2 hex).2.2.1
  case nul => exact absurd hcls ((inert_of_class c (by simp [hcls])).2.2 hex).2.2.2
  -- a run of inert characters is one token without symbols
  case digit =>
    have hd := (charClass_digit_iff c).mp hcls
    exact ⟨_, _, _, .of_run hd inert_of_isDigit (nextItem_digit false hd t) rfl (by decide)⟩
  case word =>
    have hw := (isIdentChar_iff c).mpr (.inl hcls)
    exact ⟨_, _, _, .of_run hw inert_of_isIdentChar (nextItem_word false hcls t) rfl (by decide)⟩
  case blank =>
    have hb := (charClass_blank_iff c).mp hcls
    exact ⟨_, _, _, .of_run hb inert_of_isWhitespace (nextItem_blank false hb t) rfl (by decide)⟩
  case other =>
    have hin := inert_of_class c (by simp [hcls])
    refine ⟨.token .unknown, t, [], ?_, Item.token_ne_stop _, Nat.lt_succ_self _,
      List.suffix_cons c t, ?_, Nat.zero_le _, fun ks => rfl, by decide⟩
    · simp only [nextItem, lexHead, hcls, Option.map_some]
      rfl
    · rw [bracketsOf_cons hin.1, hin.2.1]
  -- a `#` reads its word too; every other punctuator is one symbol or none
  case punct =>
    by_cases hc : c = '#'
    · subst hc
      exact h.reads_directive
    · have hspec := punctuatorKind_spec c
      have hn : nextItem false (c :: t) = some (.token (punctuatorKind c), t) := by
        have hlex : lexHead (c :: t) = some ⟨punctuatorKind c, 1, 1⟩ := by
          simp only [lexHead, hcls]
        rw [nextItem, hlex, Option.map_some]
        exact congrArg some (itemOf_plain hspec.1 hspec.2.2.1 (fun hk => hc (hspec.2.2.2.2 hk)) t)
      refine ⟨_, t, bracketOfChar c, hn, Item.token_ne_stop _, Nat.lt_succ_self _,
        List.suffix_cons c t, bracketsOf_cons hc t, ?_, fun ks => ?_, ?_⟩
      · unfold bracketOfChar
        split_ifs <;> simp
      · exact reactOut_punctuator ks hcls hex hc
      · exact punctuator_no_continuation c hex

/-! ## The scan is the stack machine -/

/-- The verdict on a word, with `last` the last token recorded. -/
def verdictOf (last : TokenKind) : Reduced BracketKind → Verdict
  | .ended ks => ⟨markers ks, last, false⟩
  | .mismatch ks => ⟨markers ks, last, true⟩

/-- **The run lemma**: the scan of a bracket text reduces its word. -/
theorem run_bracketText {t : Str} (h : BracketText t) (ks : List BracketKind) {l : TokenKind}
    (hl : l ≠ .backslash ∧ l ≠ .comma) : ∃ l', (l' ≠ .backslash ∧ l' ≠ .comma) ∧
      scanner.run ⟨markers ks, l, t⟩ = some (verdictOf l' (reduce ks (bracketsOf t))) := by
  induction hn : t.length using Nat.strongRecOn generalizing t ks l with
  | ind n ih =>
    cases t with
    | nil =>
        refine ⟨l, hl, ?_⟩
        rw [bracketsOf, run_nil]
        rfl
    | cons c t =>
        rcases h.reads with ⟨it, r, ss, hr⟩
        have hitem : nextItem (inBlockComment (markers ks)) (c :: t) = some (it, r) := by
          rw [markers_not_comment]
          exact hr.item
        have hreact := hr.react ks
        rw [← react_out (markers_not_comment ks), markersAfter] at hreact
        rw [hr.symbols, reduce_append]
        -- one item has one symbol at most, so a mismatch is at the item itself
        cases hred : reduce ks ss with
        | ended js =>
            rw [hred] at hreact
            have hlast : lastAfter l it.kind ≠ .backslash ∧ lastAfter l it.kind ≠ .comma := by
              unfold lastAfter
              split
              · exact hl
              · exact hr.no_continuation
            have hlt := hr.shorter
            rw [run_of_item (c := ⟨markers ks, l, c :: t⟩) hitem hr.ne_stop hreact]
            exact ih _ (hn ▸ hlt) (h.suffix hr.suffix) js hlast rfl
        | mismatch js =>
            rw [hred] at hreact
            obtain rfl := eq_of_reduce_mismatch hr.single hred
            exact ⟨l, hl, run_of_reject (c := ⟨markers js, l, c :: t⟩) hitem hr.ne_stop hreact⟩

theorem status_verdictOf {l : TokenKind} (hl : l ≠ .backslash ∧ l ≠ .comma)
    (red : Reduced BracketKind) : (verdictOf l red).status =
      match red with
      | .ended [] => .complete
      | .ended (_ :: _) => .incomplete
      | .mismatch _ => .mismatch := by
  cases red with
  | ended ks => cases ks <;> simp [verdictOf, Verdict.status, markers, hl.1, hl.2]
  | mismatch ks => simp [verdictOf, Verdict.status, hl.1, hl.2]

/-- The open brackets at the end of a word, or at its first mismatch. -/
def OpenAtEnd (w : List (Sym BracketKind)) (ks : List BracketKind) : Prop :=
  Leaves w ks ∨ Mismatches w ks

/-- **`validate` on a bracket text**: complete, incomplete and mismatch are the three verdicts on its
word, and what stays on the stack are the brackets open at the end. -/
theorem validate_bracketText (s : Str) (n : Nat) (hs : BracketText s)
    (ht : beginsTemplate s = false) :
    ∃ res v', ({} : XInputValidator).validate s n = some (res, v') ∧
      (res = .complete ↔ Balanced (bracketsOf s)) ∧
      (res = .incomplete ↔ ∃ ks, ks ≠ [] ∧ Leaves (bracketsOf s) ks) ∧
      (res = .mismatch ↔ ∃ ks, Mismatches (bracketsOf s) ks) ∧
      (∃ ks, OpenAtEnd (bracketsOf s) ks) ∧
      ∀ ks, OpenAtEnd (bracketsOf s) ks → v'.parentStack = markers ks ∧
        v'.getExpectedIndent =
          List.replicate (leadingBlanks s + ks.length * n) ((' ' : Char) : Byte) := by
  have hstart : ({} : XInputValidator).start s = ⟨markers [], .unknown, s⟩ := by
    rw [XInputValidator.start, startStack, ht, if_neg (by simp)]
    rfl
  rcases run_bracketText hs [] (l := .unknown) (by decide) with ⟨l, hl, hrun⟩
  -- a count of zero leaves the indent of the fresh validator, which is empty
  have hindent (js : List BracketKind) (r : Verdict) (hr : r.stack = markers js) :
      (r.after {} s n).getExpectedIndent =
        List.replicate (leadingBlanks s + js.length * n) ((' ' : Char) : Byte) := by
    have hlen : r.stack.length = js.length := by rw [hr, markers, List.length_map]
    show (if leadingBlanks s + r.stack.length * n ≠ 0 then _ else _) = _
    rw [hlen]
    split
    · rfl
    · rename_i h0
      rw [not_not.mp h0]
      rfl
  refine ⟨_, _, by rw [validate_eq, hstart, hrun, Option.map_some], ?_⟩
  rw [status_verdictOf hl, ← leaves_nil_iff, ← reduce_eq_ended_iff]
  simp only [OpenAtEnd, ← reduce_eq_ended_iff, ← reduce_eq_mismatch_iff]
  cases hred : reduce [] (bracketsOf s) with
  | ended js =>
      refine ⟨?_, ?_, ?_, ⟨js, .inl rfl⟩, ?_⟩
      · cases js <;> simp
      · cases js <;> simp
      · cases js <;> simp
      · rintro ks (hks | hks)
        · obtain rfl := Reduced.ended.inj hks
          exact ⟨rfl, hindent js _ rfl⟩
        · exact absurd hks (by simp)
  | mismatch js =>
      refine ⟨by simp, by simp, by simp, ⟨js, .inr rfl⟩, ?_⟩
      rintro ks (hks | hks)
      · exact absurd hks (by simp)
      · obtain rfl := Reduced.mismatch.inj hks
        exact ⟨rfl, hindent js _ rfl⟩

/-! ## Checking that a text is one -/

/-- The test that every `#` has its word and a blank behind it. -/
def spacedDirectives : Str → Bool
  | [] => true
  | c :: t =>
    let w := t.dropWhile isWhitespace
    (c != '#' || (!(w.takeWhile isAlpha).isEmpty && (w.dropWhile isAlpha).head?.any isWhitespace)) &&
      spacedDirectives t

theorem spacedDirectives_spec {s : Str} (h : spacedDirectives s = true) (a t : Str)
    (hs : s = a ++ (('#' : Char) : Byte) :: t) : ∃ w d r,
      t.dropWhile isWhitespace = w ++ d :: r ∧ w ≠ [] ∧ (∀ c ∈ w, isAlpha c = true) ∧
        isWhitespace d = true := by
  subst hs
  induction a with
  | nil =>
      have h1 := (Bool.and_eq_true_iff.mp h).1
      simp only [bne_self_eq_false, Bool.false_or, Bool.and_eq_true, Bool.not_eq_true',
        List.isEmpty_eq_false_iff] at h1
      rcases h1 with ⟨hne, hany⟩
      generalize t.dropWhile isWhitespace = v at *
      cases hd : v.dropWhile isAlpha with
      | nil =>
          rw [hd] at hany
          exact absurd hany (by simp)
      | cons d r =>
          rw [hd] at hany
          refine ⟨v.takeWhile isAlpha, d, r, ?_, hne, fun c hc => List.mem_takeWhile_imp hc, by
            simpa using hany⟩
          rw [← hd, List.takeWhile_append_dropWhile]
  | cons c a ih => exact ih (Bool.and_eq_true_iff.mp h).2

/-- A group inside a body, closed up to the body. -/
theorem validate_bracketText_group :
    ∃ res v', ({} : XInputValidator).validate (lit "  f(a[1]) \x7b\n#ifdef X \n#endif \n") 4 =
        some (res, v') ∧
      (res = .complete ↔ Balanced (bracketsOf (lit "  f(a[1]) \x7b\n#ifdef X \n#endif \n"))) :=
  have hs : BracketText (lit "  f(a[1]) \x7b\n#ifdef X \n#endif \n") :=
    ⟨by decide +kernel, spacedDirectives_spec (by decide)⟩
  have h := validate_bracketText (lit "  f(a[1]) \x7b\n#ifdef X \n#endif \n") 4 hs
    (by decide)
  h.elim fun res h => h.elim fun v' h => ⟨res, v', h.1, h.2.1⟩

end XeusCpp.Validator
