/-
# XeusCpp.Validator.Scan — `validate` as a machine on the text ahead.

The loop of `validate` is a `Machine` whose state is the stack, the kind of the last token that is no
blank, and the text ahead of the cursor. One move has two halves that do not look at each other's
data:

* `nextItem` reads the text. It depends on the stack in one bit, whether a block comment is open.
* `react` works on the stack. It sees the item, and no text.

`validate_eq` states that `XInputValidator.validate` is the run of this machine, wrapped by the
template pre-scan and the final rule (`Verdict.status`). Everything else about the validator is
proved on the machine.
-/
import XeusCpp.Logic.Machine
import XeusCpp.Validator.Validate

namespace XeusCpp.Validator

open XeusCpp.Text XeusCpp.Logic

/-! ## Reading the text -/

/-- What one pass of the loop reads: the end of the text, a token, or a directive with its word. -/
inductive Item where
  | stop
  | token (k : TokenKind)
  | directive (pptk : Str)
  deriving DecidableEq, Repr

/-- The kind of the token the pass leaves in `tok`. -/
def Item.kind : Item → TokenKind
  | .stop => .eof
  | .token k => k
  | .directive _ => .rawIdent

theorem Item.token_ne_stop (k : TokenKind) : Item.token k ≠ .stop := by simp

theorem Item.directive_ne_stop (w : Str) : Item.directive w ≠ .stop := by simp

/-- The word of a directive, and the text behind it; `w` starts behind the blanks that follow the
`#`. -/
def wordItem (w : Str) : Item × Str :=
  if w.headD 0 = 0 then (.stop, w)
  else (.directive (w.takeWhile isRawChar), w.dropWhile isRawChar)

theorem wordItem_cons {c : Byte} (h : c ≠ 0) (t : Str) : wordItem (c :: t) =
    (.directive ((c :: t).takeWhile isRawChar), (c :: t).dropWhile isRawChar) := if_neg h

/-- The item a token of kind `k` starts, with `r` the text behind the token. A line comment takes the
rest of its line and a `#` its word, but not inside a block comment. -/
def itemOf (inComment : Bool) (k : TokenKind) (r : Str) : Item × Str :=
  match k with
  | .eof => (.stop, r)
  | .comment =>
      if inComment then (.token .comment, r) else (.token .unknown, r.dropWhile isLineChar)
  | .hash => if inComment then (.token .hash, r) else wordItem (r.dropWhile isWhitespace)
  | k => (.token k, r)

/-- The item at the head of a text, and the text behind it. -/
def nextItem (inComment : Bool) (t : Str) : Option (Item × Str) :=
  (lexHead t).map fun l => itemOf inComment l.kind (t.drop l.advance)

theorem wordItem_suffix (w : Str) : (wordItem w).2 <:+ w := by
  unfold wordItem
  split
  · exact List.suffix_refl w
  · exact List.dropWhile_suffix _

theorem itemOf_suffix (b : Bool) (k : TokenKind) (r : Str) : (itemOf b k r).2 <:+ r := by
  unfold itemOf
  split
  · exact List.suffix_refl r
  · split
    · exact List.suffix_refl r
    · exact List.dropWhile_suffix _
  · split
    · exact List.suffix_refl r
    · exact (wordItem_suffix _).trans (List.dropWhile_suffix _)
  · exact List.suffix_refl r

/-- An item takes at least one character, from the front. -/
theorem suffix_of_nextItem {b : Bool} {t r : Str} {it : Item} (h : nextItem b t = some (it, r)) :
    r <:+ t.drop 1 := by
  obtain ⟨l, hl, hit⟩ := Option.map_eq_some_iff.mp h
  obtain ⟨n, hn⟩ : ∃ n, l.advance = 1 + n := ⟨l.advance - 1, by
    have := lexHead_advance_pos hl; omega⟩
  have hr : r <:+ t.drop l.advance := by
    rw [show r = (it, r).2 from rfl, ← hit]
    exact itemOf_suffix _ _ _
  rw [hn, ← List.drop_drop] at hr
  exact hr.trans (List.drop_suffix _ _)

/-! ## Working on the stack -/

/-- A closing bracket on the stack, with the template a `}` ends. -/
def closeBracket (k : TokenKind) : Stack → Option Stack
  | [] => none
  | top :: st =>
    if asInt k = asInt top + 1 then
      some (if k = .rBrace ∧ inTemplate st then st.tail else st)
    else none

/-- What an item does to the stack outside a block comment; `none` rejects the text. -/
def reactOut (st : Stack) : Item → Option Stack
  | .token .rComment => none
  | .token .lSquare => some (.lSquare :: st)
  | .token .lParen => some (.lParen :: st)
  | .token .lBrace => some (.lBrace :: st)
  | .token .lComment => some (.lComment :: st)
  | .token .rSquare => closeBracket .rSquare st
  | .token .rParen => closeBracket .rParen st
  | .token .rBrace => closeBracket .rBrace st
  | .token .semicolon => some (if inTemplate st then st.tail else st)
  | .directive w =>
      if opensGroup w then some (.hash :: st)
      else if closesGroup w then if st.head? = some .hash then some st.tail else none
      else some st
  | _ => some st

/-- What an item does to the stack: inside a block comment all but `*/` is ignored. -/
def react (st : Stack) (it : Item) : Option Stack :=
  if inBlockComment st then some (if it = .token .rComment then st.tail else st)
  else reactOut st it

theorem react_in {st : Stack} (h : inBlockComment st = true) (it : Item) :
    react st it = some (if it = .token .rComment then st.tail else st) := if_pos h

theorem react_out {st : Stack} (h : inBlockComment st = false) (it : Item) :
    react st it = reactOut st it := by
  rw [react, h]; rfl

/-- The tokens that leave every stack as it is. -/
def TokenKind.isInert : TokenKind → Bool
  | .lSquare | .rSquare | .lParen | .rParen | .lBrace | .rBrace => false
  | .lComment | .rComment | .semicolon => false
  | _ => true

theorem react_stop (st : Stack) : react st .stop = some st := by
  unfold react
  split <;> rfl

theorem react_of_inert (st : Stack) {k : TokenKind} (h : k.isInert = true) :
    react st (.token k) = some st := by
  unfold react
  split
  · cases k <;> first | rfl | exact absurd h (by decide)
  · cases k <;> first | rfl | exact absurd h (by decide)

/-! ## The machine -/

/-- Between two passes: the stack, the last token that is no blank, the text ahead. -/
structure Config where
  stack : Stack
  last : TokenKind
  text : Str
  deriving DecidableEq, Repr

/-- The end of the loop: `last` is the last token recorded before the one that ended it. -/
structure Verdict where
  stack : Stack
  last : TokenKind
  rejected : Bool
  deriving DecidableEq, Repr

/-- The bookkeeping of `last_not_space_tok`. -/
def lastAfter (last k : TokenKind) : TokenKind := if k = .space then last else k

/-- The move on an item, with `r` the text behind it. -/
def takeItem (c : Config) (it : Item) (r : Str) : Move Config Verdict :=
  if it = .stop then .halt ⟨c.stack, c.last, false⟩
  else match react c.stack it with
    | none => .halt ⟨c.stack, c.last, true⟩
    | some st => .next ⟨st, lastAfter c.last it.kind, r⟩

def scanMove (c : Config) : Move Config Verdict :=
  match nextItem (inBlockComment c.stack) c.text with
  | none => .stuck
  | some (it, r) => takeItem c it r

section

variable {c : Config} {it : Item} {r : Str}

theorem takeItem_stop : takeItem c .stop r = .halt ⟨c.stack, c.last, false⟩ := rfl

theorem takeItem_of_react {st : Stack} (hit : it ≠ .stop) (h : react c.stack it = some st) :
    takeItem c it r = .next ⟨st, lastAfter c.last it.kind, r⟩ := by
  simp [takeItem, hit, h]

theorem takeItem_of_reject (hit : it ≠ .stop) (h : react c.stack it = none) :
    takeItem c it r = .halt ⟨c.stack, c.last, true⟩ := by
  simp [takeItem, hit, h]

theorem takeItem_ne_stuck : takeItem c it r ≠ .stuck := by
  unfold takeItem
  split
  · simp
  · split <;> simp

theorem scanMove_of_none (h : nextItem (inBlockComment c.stack) c.text = none) :
    scanMove c = .stuck := by
  simp [scanMove, h]

theorem scanMove_of_item (h : nextItem (inBlockComment c.stack) c.text = some (it, r)) :
    scanMove c = takeItem c it r := by
  simp [scanMove, h]

/-- A move that goes on reads an item and has the stack take it. -/
theorem scanMove_eq_next_iff {c' : Config} :
    scanMove c = .next c' ↔ ∃ it, nextItem (inBlockComment c.stack) c.text = some (it, c'.text) ∧
      it ≠ .stop ∧ react c.stack it = some c'.stack ∧ c'.last = lastAfter c.last it.kind := by
  obtain ⟨st', last', text'⟩ := c'
  constructor
  · intro h
    cases hn : nextItem (inBlockComment c.stack) c.text with
    | none => rw [scanMove_of_none hn] at h; exact absurd h (by simp)
    | some p =>
        obtain ⟨it, r⟩ := p
        rw [scanMove_of_item hn] at h
        by_cases hit : it = .stop
        · subst hit
          rw [takeItem_stop] at h
          exact absurd h (by simp)
        -- an item the stack refuses halts the scan
        cases hr : react c.stack it with
        | none => rw [takeItem_of_reject hit hr] at h; exact absurd h (by simp)
        | some st =>
            rw [takeItem_of_react hit hr, Move.next.injEq, Config.mk.injEq] at h
            obtain ⟨rfl, rfl, rfl⟩ := h
            exact ⟨it, rfl, hit, hr, rfl⟩
  · rintro ⟨it, hn, hit, hr, hl⟩
    rw [scanMove_of_item hn, takeItem_of_react hit hr]
    simp only at hl
    rw [hl]

end

/-- The scanner of the validator. -/
def scanner : Machine Config Verdict where
  move := scanMove
  rank c := c.text.length
  rank_lt {c c'} h := by
    obtain ⟨it, hn, hit, -, -⟩ := scanMove_eq_next_iff.mp h
    have hsuf := (suffix_of_nextItem hn).length_le
    have hne : c.text ≠ [] := by
      intro h0
      rw [h0] at hn
      exact hit (Prod.mk.inj (Option.some.inj hn)).1.symm
    have := List.length_pos_iff.mpr hne
    rw [List.length_drop] at hsuf
    omega

section

variable {c : Config} {it : Item} {r : Str} {st : Stack}

theorem reaches_of_item (hn : nextItem (inBlockComment c.stack) c.text = some (it, r))
    (hit : it ≠ .stop) (hr : react c.stack it = some st) :
    scanner.Reaches c ⟨st, lastAfter c.last it.kind, r⟩ :=
  .single (scanMove_eq_next_iff.mpr ⟨it, hn, hit, hr, rfl⟩)

theorem run_of_item (hn : nextItem (inBlockComment c.stack) c.text = some (it, r))
    (hit : it ≠ .stop) (hr : react c.stack it = some st) :
    scanner.run c = scanner.run ⟨st, lastAfter c.last it.kind, r⟩ :=
  Machine.run_eq_of_reaches (reaches_of_item hn hit hr)

theorem run_of_reject (hn : nextItem (inBlockComment c.stack) c.text = some (it, r))
    (hit : it ≠ .stop) (hr : react c.stack it = none) :
    scanner.run c = some ⟨c.stack, c.last, true⟩ :=
  Machine.run_of_halt ((scanMove_of_item hn).trans (takeItem_of_reject hit hr))

theorem run_of_stop (hn : nextItem (inBlockComment c.stack) c.text = some (.stop, r)) :
    scanner.run c = some ⟨c.stack, c.last, false⟩ :=
  Machine.run_of_halt ((scanMove_of_item hn).trans takeItem_stop)

theorem run_nil (st : Stack) (last : TokenKind) :
    scanner.run ⟨st, last, []⟩ = some ⟨st, last, false⟩ := run_of_stop (r := []) rfl

/-- A run with a verdict ends at an item: the end of the text, or one the stack does not take. -/
theorem end_of_run {v : Verdict} (h : scanner.run c = some v) : ∃ e it r, scanner.Reaches c e ∧
    nextItem (inBlockComment e.stack) e.text = some (it, r) ∧ v.stack = e.stack ∧ v.last = e.last ∧
    ((it = .stop ∧ v.rejected = false) ∨
      (it ≠ .stop ∧ react e.stack it = none ∧ v.rejected = true)) := by
  rcases Machine.run_eq_some_iff.mp h with ⟨e, hce, hm⟩
  have hm' : scanMove e = .halt v := hm
  cases hn : nextItem (inBlockComment e.stack) e.text with
  | none => rw [scanMove_of_none hn] at hm'; exact absurd hm' (by simp)
  | some p =>
      obtain ⟨it, r⟩ := p
      refine ⟨e, it, r, hce, hn, ?_⟩
      rw [scanMove_of_item hn] at hm'
      by_cases hit : it = .stop
      · subst hit
        rw [takeItem_stop, Move.halt.injEq] at hm'
        subst hm'
        exact ⟨rfl, rfl, .inl ⟨rfl, rfl⟩⟩
      cases hr : react e.stack it with
      | some st => rw [takeItem_of_react hit hr] at hm'; exact absurd hm' (by simp)
      | none =>
          rw [takeItem_of_reject hit hr, Move.halt.injEq] at hm'
          subst hm'
          exact ⟨rfl, rfl, .inr ⟨hit, rfl, rfl⟩⟩

end

/-! ## The loop is the run of the scanner -/

/-- The machine state of a pass that is about to start. -/
def configOf (input : Str) (s : LoopState) : Config where
  stack := s.stack
  last := if s.tok.kind ≠ .space then s.tok.kind else s.lastNotSpaceTok.kind
  text := input.drop s.currPos

/-- The states in which the loop body is entered. -/
def Entered (input : Str) (s : LoopState) : Prop :=
  s.currPos ≤ input.length ∧ s.res = .complete

/-- The state the loop ends in reports the verdict `v`. -/
def Reports (s : LoopState) (v : Verdict) : Prop :=
  s.stack = v.stack ∧ s.lastNotSpaceTok.kind = v.last ∧
    s.res = if v.rejected then .mismatch else .complete

/-- What the loop condition makes of a state: the loop ends with a verdict, or it is entered again. -/
def AfterPass (input : Str) (s : LoopState) : Move Config Verdict → Prop
  | .stuck => False
  | .halt v => (s.tok.kind = .eof ∨ s.res = .mismatch) ∧ Reports s v
  | .next c => s.tok.kind ≠ .eof ∧ Entered input s ∧ configOf input s = c

section

variable {input : Str} {s s₁ s' : LoopState}

/-- A pass that read the item `it` and goes on. -/
theorem afterPass_next {c : Config} {it : Item} (hit : it ≠ .stop)
    (hr : react c.stack it = some s'.stack) (hk : s'.tok.kind = it.kind)
    (hke : it.kind ≠ .eof) (hp : s'.currPos ≤ input.length) (hres : s'.res = .complete)
    (hlast : s'.lastNotSpaceTok.kind = c.last) :
    AfterPass input s' (takeItem c it (input.drop s'.currPos)) := by
  rw [takeItem_of_react hit hr]
  refine ⟨hk ▸ hke, ⟨hp, hres⟩, ?_⟩
  unfold configOf lastAfter
  rw [hlast, hk]
  by_cases h : it.kind = .space <;> simp [h]

/-- A pass that rejected the item `it`. -/
theorem afterPass_reject {c : Config} {it : Item} {r : Str} (hit : it ≠ .stop)
    (hr : react c.stack it = none) (hst : s'.stack = c.stack) (hres : s'.res = .mismatch)
    (hlast : s'.lastNotSpaceTok.kind = c.last) :
    AfterPass input s' (takeItem c it r) := by
  rw [takeItem_of_reject hit hr]
  exact ⟨.inr hres, hst, hlast, hres⟩

/-- A pass that met the end of the text. -/
theorem afterPass_stop {c : Config} {r : Str} (hk : s'.tok.kind = .eof) (hst : s'.stack = c.stack)
    (hres : s'.res = .complete) (hlast : s'.lastNotSpaceTok.kind = c.last) :
    AfterPass input s' (takeItem c .stop r) := by
  rw [takeItem_stop]
  exact ⟨.inl hk, hst, hlast, hres⟩

/-- The state of a pass behind `lex`: `c` is the state the pass was entered in, and the token is the
one at the head of its text. -/
structure Lexed (input : Str) (c : Config) (s₁ : LoopState) : Prop where
  stack : s₁.stack = c.stack
  last : s₁.lastNotSpaceTok.kind = c.last
  res : s₁.res = .complete
  pos : s₁.tok.kind ≠ .eof → s₁.currPos ≤ input.length

theorem popBack_cons (k : TokenKind) (st : Stack) : popBack (k :: st) = some st := rfl

theorem popBack_of_inTemplate {st : Stack} (h : inTemplate st = true) : popBack st = some st.tail := by
  cases st with
  | nil => exact absurd h (by decide)
  | cons k st => rfl

theorem popBack_of_inBlockComment {st : Stack} (h : inBlockComment st = true) :
    popBack st = some st.tail := by
  cases st with
  | nil => exact absurd h (by decide)
  | cons k st => rfl

theorem closesBrace_iff {t : Token} (hk : t.kind = .rSquare ∨ t.kind = .rParen ∨ t.kind = .rBrace)
    {k : TokenKind} : t.closesBrace k = true ↔ asInt t.kind = asInt k + 1 := by
  rcases hk with hk | hk | hk <;> simp [Token.closesBrace, hk]

/-- No closing bracket closes `unknown`, the top of an empty stack. -/
theorem closesBrace_unknown (t : Token) : t.closesBrace .unknown = false := by
  rw [Token.closesBrace]
  cases t.kind <;> decide

theorem caseClosing_spec {c : Config} (h : Lexed input c s₁) (hp : s₁.currPos ≤ input.length)
    (hk : s₁.tok.kind = .rSquare ∨ s₁.tok.kind = .rParen ∨ s₁.tok.kind = .rBrace)
    (hr : react c.stack (.token s₁.tok.kind) = closeBracket s₁.tok.kind c.stack) :
    ∃ s', caseClosing s₁ = some s' ∧
      AfterPass input s' (takeItem c (.token s₁.tok.kind) (input.drop s₁.currPos)) := by
  have hke : s₁.tok.kind ≠ .eof := by rcases hk with hk | hk | hk <;> simp [hk]
  have hst := h.stack
  cases hc : c.stack with
  | nil =>
      rw [hc] at hr hst
      refine ⟨{ s₁ with res := .mismatch }, ?_, ?_⟩
      · simp [caseClosing, hst, closesBrace_unknown]
      · exact afterPass_reject (by simp) (hc ▸ hr) (hst.trans hc.symm) rfl h.last
  | cons top st =>
      rw [hc] at hr hst
      by_cases hcl : asInt s₁.tok.kind = asInt top + 1
      · have hclose : s₁.tok.closesBrace top = true := (closesBrace_iff hk).mpr hcl
        rw [closeBracket, if_pos hcl] at hr
        refine ⟨{ s₁ with stack := if s₁.tok.kind = .rBrace ∧ inTemplate st then st.tail else st },
          ?_, afterPass_next (by simp) (hc ▸ hr) rfl hke hp h.res h.last⟩
        -- a brace that closes the body of a template pops its marker as well
        by_cases ht : s₁.tok.kind = .rBrace ∧ inTemplate st = true
        · simp [caseClosing, hst, hclose, ht, popBack_cons, popBack_of_inTemplate ht.2]
        · simp [caseClosing, hst, hclose, ht, popBack_cons]
      · have hclose : s₁.tok.closesBrace top = false := by
          rw [← Bool.not_eq_true, closesBrace_iff hk]; exact hcl
        rw [closeBracket, if_neg hcl] at hr
        refine ⟨{ s₁ with res := .mismatch }, ?_, ?_⟩
        · simp [caseClosing, hst, hclose]
        · exact afterPass_reject (by simp) (hc ▸ hr) (hst.trans hc.symm) rfl h.last

theorem caseHash_spec {c : Config} (h : Lexed input c s₁) (hp : s₁.currPos ≤ input.length)
    (hb : inBlockComment c.stack = false) :
    ∃ s', caseHash input s₁ = some s' ∧
      AfterPass input s' (takeItem c (itemOf false .hash (input.drop s₁.currPos)).1
        (itemOf false .hash (input.drop s₁.currPos)).2) := by
  -- the cursor behind the blanks stands on the word
  have hw : input.drop (s₁.currPos + ((input.drop s₁.currPos).takeWhile isWhitespace).length) =
      (input.drop s₁.currPos).dropWhile isWhitespace := drop_add_takeWhile _ _ _
  have hpw := add_takeWhile_le isWhitespace hp
  simp only [caseHash, skipWhitespace_eq hp, Option.bind_eq_bind, Option.bind_some, itemOf]
  generalize s₁.currPos + ((input.drop s₁.currPos).takeWhile isWhitespace).length = p at hw hpw ⊢
  rw [← hw, lexAnyString_eq hpw]
  unfold wordItem
  by_cases h0 : (input.drop p).headD 0 = 0
  · rw [if_pos h0, if_pos h0]
    exact ⟨_, rfl, afterPass_stop rfl h.stack h.res h.last⟩
  · rw [if_neg h0, if_neg h0]
    simp only [Option.bind_some, identifier_takeWhile, reduceCtorEq, if_false]
    have hq := add_takeWhile_le isRawChar hpw
    rw [← drop_add_takeWhile]
    generalize hpptk : (input.drop p).takeWhile isRawChar = pptk
    rw [hpptk] at hq
    have hr : react c.stack (.directive pptk) = if opensGroup pptk then some (.hash :: c.stack)
        else if closesGroup pptk then if c.stack.head? = some .hash then some c.stack.tail else none
        else some c.stack := react_out hb _
    rw [h.stack]
    by_cases ho : opensGroup pptk = true
    · rw [if_pos ho] at hr ⊢
      exact ⟨_, rfl, afterPass_next (by simp) hr rfl (by simp [Item.kind]) hq h.res h.last⟩
    rw [if_neg ho] at hr ⊢
    by_cases hcl : closesGroup pptk = true
    · rw [if_pos hcl] at hr ⊢
      by_cases hh : c.stack.head? = some .hash
      · have hst : popBack c.stack = some c.stack.tail := by
          cases hcs : c.stack with
          | nil => rw [hcs] at hh; exact absurd hh (by simp)
          | cons k st => rfl
        have hne : c.stack.isEmpty = false := by
          cases hcs : c.stack with
          | nil => rw [hcs] at hh; exact absurd hh (by simp)
          | cons k st => rfl
        rw [if_pos hh] at hr
        simp only [hne, hh, hst]
        exact ⟨_, rfl, afterPass_next (by simp) hr rfl (by simp [Item.kind]) hq h.res h.last⟩
      · rw [if_neg hh] at hr
        rw [if_pos (.inr hh)]
        exact ⟨_, rfl, afterPass_reject (by simp) hr rfl rfl h.last⟩
    · rw [if_neg hcl] at hr ⊢
      refine ⟨_, rfl, afterPass_next (by simp) ?_ rfl (by simp [Item.kind]) hq h.res h.last⟩
      rw [hr, ← h.stack]

theorem switchTok_spec {c : Config} (h : Lexed input c s₁)
    (hb : ¬ (inBlockComment c.stack = true ∧ s₁.tok.kind ≠ .rComment)) :
    ∃ s', switchTok input s₁ = some s' ∧
      AfterPass input s' (takeItem c
        (itemOf (inBlockComment c.stack) s₁.tok.kind (input.drop s₁.currPos)).1
        (itemOf (inBlockComment c.stack) s₁.tok.kind (input.drop s₁.currPos)).2) := by
  by_cases hrc : s₁.tok.kind = .rComment
  · have hp := h.pos (by simp [hrc])
    simp only [switchTok, hrc, itemOf]
    by_cases hc : inBlockComment c.stack = true
    · have hr : react c.stack (.token .rComment) = some c.stack.tail := by simp [react_in hc]
      simp only [h.stack, hc, if_true, popBack_of_inBlockComment hc, Option.bind_eq_bind,
        Option.bind_some]
      exact ⟨_, rfl, afterPass_next (by simp) hr hrc (by simp [Item.kind]) hp h.res h.last⟩
    · have hr : react c.stack (.token .rComment) = none := by simp [react, hc, reactOut]
      simp only [h.stack, hc]
      exact ⟨_, rfl, afterPass_reject (by simp) hr rfl rfl h.last⟩
  -- outside a block comment the switch sees every token
  have hout : inBlockComment c.stack = false := by
    rw [← Bool.not_eq_true]
    exact fun hc => hb ⟨hc, hrc⟩
  have hr (k : TokenKind) : react c.stack (.token k) = reactOut c.stack (.token k) :=
    react_out hout _
  rw [hout]
  cases hk : s₁.tok.kind with
  | eof =>
      simp only [switchTok, hk, itemOf]
      exact ⟨_, rfl, afterPass_stop hk h.stack h.res h.last⟩
  | hash =>
      simp only [switchTok, hk]
      exact caseHash_spec h (h.pos (by simp [hk])) hout
  | comment =>
      have hp := h.pos (by simp [hk])
      have hq := add_takeWhile_le isLineChar hp
      simp only [switchTok, hk, readToEndOfLine_eq hp, itemOf, ← drop_add_takeWhile]
      exact ⟨_, rfl, afterPass_next (by simp) ((hr .unknown).trans (by simp [h.stack, reactOut])) rfl
        (by simp [Item.kind]) hq h.res h.last⟩
  | rSquare | rParen | rBrace =>
      have := caseClosing_spec h (h.pos (by simp [hk])) (by simp [hk]) (hk ▸ hr _)
      simpa [switchTok, hk, itemOf] using this
  | semicolon =>
      have hp := h.pos (by simp [hk])
      refine ⟨{ s₁ with stack := if inTemplate c.stack then c.stack.tail else c.stack }, ?_, ?_⟩
      · simp only [switchTok, hk, h.stack]
        by_cases ht : inTemplate c.stack = true
        · simp [ht, popBack_of_inTemplate ht]
        · rw [if_neg ht, if_neg ht, ← h.stack]
      · show AfterPass input _ (takeItem c (.token .semicolon) _)
        exact afterPass_next (by simp) (hr .semicolon) hk (by simp [Item.kind]) hp h.res h.last
  | rComment => exact absurd hk hrc
  | lSquare | lParen | lBrace | lComment =>
      have hp := h.pos (by simp [hk])
      simp only [switchTok, hk, itemOf, h.stack]
      exact ⟨_, rfl, afterPass_next (by simp) (hr _) hk (by simp [Item.kind]) hp h.res h.last⟩
  | _ =>
      have hp := h.pos (by simp [hk])
      simp only [switchTok, hk, itemOf]
      exact ⟨_, rfl, afterPass_next (by simp) ((hr _).trans (by simp [h.stack, reactOut])) hk
        (by simp [Item.kind]) hp h.res h.last⟩

theorem loopBody_spec (hs : Entered input s) :
    (loopBody input s = none ∧ scanMove (configOf input s) = .stuck) ∨
      ∃ s', loopBody input s = some s' ∧ AfterPass input s' (scanMove (configOf input s)) := by
  obtain ⟨hp, hres⟩ := hs
  set c := configOf input s with hc
  have htext : c.text = input.drop s.currPos := rfl
  have hst : c.stack = s.stack := rfl
  cases hl : lexHead c.text with
  | none =>
      left
      refine ⟨?_, scanMove_of_none (by simp [nextItem, hl])⟩
      simp [loopBody, lex_eq hp, ← htext, hl]
  | some l =>
      right
      set b := inBlockComment c.stack with hb
      have hn : nextItem b c.text =
          some ((itemOf b l.kind (c.text.drop l.advance)).1,
            (itemOf b l.kind (c.text.drop l.advance)).2) := by
        simp [nextItem, hl]
      rw [scanMove_of_item hn]
      -- the state behind the call of `lex`
      set s₁ : LoopState := { s with
        tok := (l.at s.currPos).1
        currPos := (l.at s.currPos).2
        lastNotSpaceTok := if s.tok.kind ≠ .space then s.tok else s.lastNotSpaceTok } with hs₁
      have hne (hk : l.kind ≠ .eof) : c.text ≠ [] := by
        intro h0
        rw [h0] at hl
        exact hk (lexHead_nil_kind hl)
      have h₁ : Lexed input c s₁ := by
        refine ⟨rfl, ?_, hres, fun hk => ?_⟩
        · simp only [hs₁, hc, configOf]
          split <;> rfl
        · have := lexHead_advance_le hl (hne hk)
          rw [htext, List.length_drop] at this
          simp only [hs₁, Lexeme.at]
          omega
      have hdrop : c.text.drop l.advance = input.drop s₁.currPos := by
        rw [htext, List.drop_drop]; rfl
      have hbody : loopBody input s =
          if inBlockComment s₁.stack ∧ s₁.tok.kind ≠ .rComment then some s₁
          else switchTok input s₁ := by
        simp only [loopBody, lex_eq hp, ← htext, hl, Option.map_some, Option.bind_eq_bind,
          Option.bind_some]
        rfl
      rw [hbody, hdrop]
      -- in a comment every token but its end is dropped
      by_cases hig : inBlockComment s₁.stack = true ∧ s₁.tok.kind ≠ .rComment
      · rw [if_pos hig]
        refine ⟨s₁, rfl, ?_⟩
        have hbt : b = true := hig.1
        have hkt : s₁.tok.kind = l.kind := rfl
        rw [hbt]
        by_cases hke : l.kind = .eof
        · rw [hke]
          exact afterPass_stop hke rfl hres h₁.last
        · have hit : itemOf true l.kind (input.drop s₁.currPos) =
              (.token l.kind, input.drop s₁.currPos) := by
            cases hk : l.kind <;> simp_all [itemOf]
          rw [hit]
          refine afterPass_next (by simp) ?_ hkt hke (h₁.pos hke) hres h₁.last
          have : l.kind ≠ .rComment := hig.2
          have hin : inBlockComment c.stack = true := hig.1
          rw [react_in hin, if_neg (by simpa using this)]
          rfl
      · rw [if_neg hig]
        exact switchTok_spec h₁ hig

end

/-! ## `validate` is the run of the scanner -/

theorem loop_of_none {input : Str} {s : LoopState} (h : loopBody input s = none) :
    loop input s = none := by
  rw [loop]; split <;> simp_all

theorem loop_of_some {input : Str} {s s' : LoopState} (h : loopBody input s = some s') :
    loop input s = if s'.tok.kind ≠ .eof ∧ s'.res ≠ .mismatch then loop input s' else some s' := by
  rw [loop]
  split
  · rename_i h'; rw [h'] at h; exact absurd h (by simp)
  · rename_i s'' h'
    obtain rfl : s'' = s' := Option.some.inj (h'.symm.trans h)
    rfl

/-- The loop ends as the scanner does. -/
theorem loop_rel {input : Str} {s : LoopState} (hs : Entered input s) :
    Option.Rel Reports (loop input s) (scanner.run (configOf input s)) := by
  induction hn : input.length + 1 - s.currPos using Nat.strongRecOn generalizing s with
  | ind n ih =>
    rcases loopBody_spec hs with ⟨hbody, hm⟩ | ⟨s', hbody, hm⟩
    · rw [loop_of_none hbody, Machine.run_of_stuck hm]
      exact .none
    · rw [loop_of_some hbody]
      cases hmove : scanMove (configOf input s) with
      | stuck => rw [hmove] at hm; exact hm.elim
      | halt v =>
          rw [hmove] at hm
          obtain ⟨hend, hrep⟩ := hm
          have : ¬ (s'.tok.kind ≠ .eof ∧ s'.res ≠ .mismatch) := by tauto
          rw [if_neg this, Machine.run_of_halt hmove]
          exact .some hrep
      | next c =>
          rw [hmove] at hm
          obtain ⟨hk, hs', hc⟩ := hm
          have hres : s'.res ≠ .mismatch := by rw [hs'.2]; decide
          rw [if_pos ⟨hk, hres⟩, Machine.run_of_next hmove, ← hc]
          have hlt := lt_of_loopBody hbody
          exact ih _ (by have := hs'.1; omega) hs' rfl

/-- A text that starts, behind its blanks, with the identifier `template`. -/
def beginsTemplate (input : Str) : Bool :=
  let t := input.dropWhile isWhitespace
  (lexHead t).any fun l => l.kind == .ident && t.take l.length == lit "template"

/-- The stack the loop starts with. -/
def startStack (st : Stack) (input : Str) : Stack :=
  if st = [] ∧ beginsTemplate input = true then [.less] else st

/-- The start of the scan. -/
def XInputValidator.start (v : XInputValidator) (input : Str) : Config :=
  ⟨startStack v.parentStack input, .unknown, input⟩

/-- `validate` when the loop has ended: the status. -/
def Verdict.status (v : Verdict) : ValidationResult :=
  if v.last = .backslash ∨ v.last = .comma ∨ (v.stack ≠ [] ∧ v.rejected = false) then .incomplete
  else if v.rejected then .mismatch else .complete

/-- The blanks a text starts with. -/
def leadingBlanks (input : Str) : Nat := (input.takeWhile isWhitespace).length

/-- The validator behind a call that ended with the verdict `r`. -/
def Verdict.after (r : Verdict) (v : XInputValidator) (input : Str) (n : Nat) : XInputValidator where
  parentStack := r.stack
  indent :=
    let k := leadingBlanks input + r.stack.length * n
    if k ≠ 0 then List.replicate k ((' ' : Char) : Byte) else v.indent

/-- Blanks are one token. -/
theorem nextItem_blank (b : Bool) {c : Byte} (hc : isWhitespace c = true) (t : Str) :
    nextItem b (c :: t) = some (.token .space, (c :: t).dropWhile isWhitespace) := by
  simp only [nextItem, lexHead, (charClass_blank_iff c).mpr hc, Lexeme.run, Option.map_some, itemOf,
    drop_takeWhile_length]

theorem nextItem_digit (b : Bool) {c : Byte} (hc : isDigit c = true) (t : Str) :
    nextItem b (c :: t) = some (.token .constant, (c :: t).dropWhile isDigit) := by
  simp only [nextItem, lexHead, (charClass_digit_iff c).mpr hc, Lexeme.run, Option.map_some, itemOf,
    drop_takeWhile_length]

theorem nextItem_word (b : Bool) {c : Byte} (hc : charClass c = .word) (t : Str) :
    nextItem b (c :: t) = some (.token .ident, (c :: t).dropWhile isIdentChar) := by
  simp only [nextItem, lexHead, hc, Lexeme.run, Option.map_some, itemOf, drop_takeWhile_length]

theorem run_dropBlanks (st : Stack) (last : TokenKind) (t : Str) :
    scanner.run ⟨st, last, t⟩ = scanner.run ⟨st, last, t.dropWhile isWhitespace⟩ := by
  cases t with
  | nil => rfl
  | cons c t =>
      by_cases hc : isWhitespace c = true
      · exact run_of_item (c := ⟨st, last, c :: t⟩) (nextItem_blank _ hc t) (Item.token_ne_stop _)
          (react_of_inert st rfl)
      · rw [List.dropWhile_cons_of_neg hc]

section

variable {st : Stack}

/-- Inside a comment a token other than `*/` is dropped. -/
theorem run_in_comment {t r : Str} {k : TokenKind} (last : TokenKind) (hb : inBlockComment st = true)
    (hn : nextItem true t = some (.token k, r)) (hk : k ≠ .rComment) :
    scanner.run ⟨st, last, t⟩ = scanner.run ⟨st, lastAfter last k, r⟩ := by
  have hn' : nextItem (inBlockComment st) t = some (.token k, r) := hb ▸ hn
  have hr : react st (.token k) = some st := by
    rw [react_in hb, if_neg (by simpa using hk)]
  exact run_of_item (c := ⟨st, last, t⟩) hn' (Item.token_ne_stop k) hr

/-- A token of no bracket and no comment sign changes nothing. -/
theorem run_inert {t r : Str} {k : TokenKind} (last : TokenKind)
    (hn : nextItem (inBlockComment st) t = some (.token k, r)) (hk : k.isInert = true) :
    scanner.run ⟨st, last, t⟩ = scanner.run ⟨st, lastAfter last k, r⟩ :=
  run_of_item (c := ⟨st, last, t⟩) hn (Item.token_ne_stop k) (react_of_inert st hk)

/-- An opening bracket at the end of the text. -/
theorem run_lParen (hb : inBlockComment st = false) (last : TokenKind) :
    scanner.run ⟨st, last, [(('(' : Char) : Byte)]⟩ = some ⟨.lParen :: st, .lParen, false⟩ := by
  have hn : nextItem (inBlockComment st) [(('(' : Char) : Byte)] = some (.token .lParen, []) := by
    rw [hb]
    decide
  have hr : react st (.token .lParen) = some (.lParen :: st) := by
    rw [react_out hb]
    rfl
  rw [run_of_item (c := ⟨st, last, _⟩) hn (Item.token_ne_stop _) hr, run_nil]
  rfl

end

section

variable (input : Str)

theorem leadingBlanks_le : leadingBlanks input ≤ input.length :=
  (List.takeWhile_sublist _).length_le

theorem drop_leadingBlanks :
    input.drop (leadingBlanks input) = input.dropWhile isWhitespace := drop_takeWhile_length input

theorem skipWhitespace_zero :
    skipWhitespace input 0 = some (leadingBlanks input, leadingBlanks input) := by
  rw [skipWhitespace_eq (Nat.zero_le _), List.drop_zero, Nat.zero_add]
  rfl

theorem lex_leadingBlanks : lex input (leadingBlanks input) =
    (lexHead (input.dropWhile isWhitespace)).map (·.at (leadingBlanks input)) := by
  rw [lex_eq (leadingBlanks_le input), drop_leadingBlanks]

theorem pushTemplate_eq (st : Stack) :
    pushTemplate st input =
      if st = [] ∧ lexHead (input.dropWhile isWhitespace) = none then none
      else some (startStack st input) := by
  cases st with
  | cons k st => simp [pushTemplate, startStack]
  | nil =>
      simp only [pushTemplate, List.isEmpty_nil, if_true, skipWhitespace_zero, lex_leadingBlanks,
        Option.bind_eq_bind, Option.bind_some, true_and]
      cases hl : lexHead (input.dropWhile isWhitespace) with
      | none => simp
      | some l =>
          simp [startStack, beginsTemplate, hl, Lexeme.at, Token.identifier, drop_leadingBlanks]

/-- **`validate` is the run of the scanner** from the stack the pre-scan leaves, up to the indent. -/
theorem scanInput_eq (v : XInputValidator) : v.scanInput input =
    (scanner.run (v.start input)).map fun r => (r.status, r.stack, leadingBlanks input) := by
  -- the loop starts behind the blanks
  set s : LoopState := { currPos := leadingBlanks input, stack := startStack v.parentStack input }
    with hs
  have hconf : configOf input s =
      ⟨startStack v.parentStack input, .unknown, input.dropWhile isWhitespace⟩ := by
    simp [hs, configOf, drop_leadingBlanks]
  have hstart : scanner.run (v.start input) = scanner.run (configOf input s) := by
    rw [hconf]
    exact run_dropBlanks _ _ _
  rw [hstart, XInputValidator.scanInput, pushTemplate_eq]
  split
  · -- the pre-scan and the scan meet the same unclosed literal
    rename_i h
    have hm : scanMove (configOf input s) = .stuck :=
      scanMove_of_none (by rw [hconf]; simp [nextItem, h.2])
    rw [Machine.run_of_stuck hm]
    rfl
  · simp only [skipWhitespace_zero, Option.bind_eq_bind, Option.bind_some]
    have hs0 : Entered input s := ⟨leadingBlanks_le input, rfl⟩
    have hrel := loop_rel hs0
    rw [← hs]
    generalize loop input s = o at hrel ⊢
    generalize scanner.run (configOf input s) = o' at hrel ⊢
    cases hrel with
    | none => rfl
    | @some s' r h =>
        obtain ⟨hst, hlast, hres⟩ := h
        simp only [Option.bind_some, Option.map_some, Option.pure_def, Option.some.injEq,
          Prod.mk.injEq]
        rw [hst, hlast, hres]
        refine ⟨?_, rfl, trivial⟩
        unfold Verdict.status
        cases r.rejected <;> cases hs : r.stack <;> simp

theorem validate_eq (v : XInputValidator) (n : Nat) :
    v.validate input n =
      (scanner.run (v.start input)).map fun r => (r.status, r.after v input n) := by
  rw [XInputValidator.validate, scanInput_eq]
  cases scanner.run (v.start input) with
  | none => rfl
  | some r => rfl

/-- The status and the stack a call ends with. -/
def XInputValidator.outcome (v : XInputValidator) (input : Str) (n : Nat) :
    Option (ValidationResult × Stack) :=
  (v.validate input n).map fun r => (r.1, r.2.parentStack)

theorem outcome_eq (v : XInputValidator) (n : Nat) :
    v.outcome input n = (scanner.run (v.start input)).map fun r => (r.status, r.stack) := by
  rw [XInputValidator.outcome, validate_eq, Option.map_map]
  rfl

end

end XeusCpp.Validator
