/-
# XeusCpp.Validator.Opened — what a text leaves open, behind what was open before.

What a validator has open is a word of brackets, with a template that may wait for its end below them
and a comment that may be open on top (`Opened`). `react_stack` is the step: what an item does to the
stack is what its brackets do to the open ones.

`Ending` says, for an arbitrary text and without the validator, what is open behind it: the items of
the text are a word of brackets, the open brackets reduce by it, and a template goes with the first `;`
or `}` behind which no bracket is open. `ending_of_run` and `run_of_ending` state that this is where
every scan ends.
-/
import XeusCpp.Validator.Brackets
import XeusCpp.Validator.Completable

namespace XeusCpp.Validator

open XeusCpp.Text XeusCpp.Logic

/-! ## Reading items -/

/-- The brackets an item is, outside a comment. -/
def symbolsOf : Item → List (Sym BracketKind)
  | .token .lSquare => [.opn .square]
  | .token .rSquare => [.cls .square]
  | .token .lParen => [.opn .paren]
  | .token .rParen => [.cls .paren]
  | .token .lBrace => [.opn .brace]
  | .token .rBrace => [.cls .brace]
  | .directive w =>
      if opensGroup w then [.opn .conditional]
      else if closesGroup w then [.cls .conditional]
      else []
  | _ => []

/-- The items that end a template, where no bracket is open behind them. -/
def Item.isEnd : Item → Bool
  | .token .semicolon | .token .rBrace => true
  | _ => false

/-- Whether a comment is open behind an item. -/
def commentAfter (inComment : Bool) (it : Item) : Bool :=
  if inComment then it ≠ .token .rComment else it = .token .lComment

/-- A token that asks for more. -/
def isContinuation (k : TokenKind) : Bool := k = .backslash || k = .comma

/-- Whether the last token that is no blank asks for more. -/
def continuedAfter (continued : Bool) (k : TokenKind) : Bool :=
  if k = .space then continued else isContinuation k

/-- `ReadingFrom b₀ c₀ t b c w s`: the items of `t` in front of `s` are the brackets `w`; behind them a
comment is open if `b`, and the last token asks for more if `c`. In front of `t` this is `b₀` and
`c₀`. -/
inductive ReadingFrom (b₀ c₀ : Bool) (t : Str) : Bool → Bool → List (Sym BracketKind) → Str → Prop
  | start : ReadingFrom b₀ c₀ t b₀ c₀ [] t
  | item {b c : Bool} {w : List (Sym BracketKind)} {s r : Str} {it : Item} :
      ReadingFrom b₀ c₀ t b c w s → nextItem b s = some (it, r) → it ≠ .stop →
      (b = false → it ≠ .token .rComment) →
      ReadingFrom b₀ c₀ t (commentAfter b it) (continuedAfter c it.kind)
        (w ++ if b then [] else symbolsOf it) r

/-- An item that may not stand behind the open brackets `ks`. -/
def Stray (ks : List BracketKind) (it : Item) : Prop :=
  it = .token .rComment ∨ ∃ k, symbolsOf it = [.cls k] ∧ ks.head? ≠ some k

theorem symbolsOf_length (it : Item) : (symbolsOf it).length ≤ 1 := by
  cases it with
  | stop => decide
  | token k => cases k <;> decide
  | directive w =>
      simp only [symbolsOf]
      split_ifs <;> decide

theorem mismatch_iff {ks : List BracketKind} {ss : List (Sym BracketKind)} (h : ss.length ≤ 1) :
    (∃ js, reduce ks ss = .mismatch js) ↔ ∃ k, ss = [.cls k] ∧ ks.head? ≠ some k := by
  rcases ss with _ | ⟨s, _ | ⟨s', ss⟩⟩
  · simp
  · cases s with
    | opn k => simp
    | cls k =>
        rw [reduce_cls]
        by_cases hk : ks.head? = some k
        · simp [hk]
        · simp [hk]
  · simp at h

theorem continued_lastAfter (l k : TokenKind) :
    isContinuation (lastAfter l k) = continuedAfter (isContinuation l) k := by
  unfold lastAfter continuedAfter
  split <;> rfl

/-! ## What is open -/

/-- The open brackets, and whether a template waits for its end below them. -/
structure OpenBrackets where
  brackets : List BracketKind := []
  template : Bool := false
  deriving DecidableEq

namespace OpenBrackets

/-- The stack of the validator. -/
def stack (o : OpenBrackets) : Stack := markers o.brackets ++ if o.template then [.less] else []

/-- What is open behind the brackets `ss`; `ends` says that they may end a template. -/
def after (o : OpenBrackets) (ss : List (Sym BracketKind)) (ends : Bool) : Option OpenBrackets :=
  match reduce o.brackets ss with
  | .ended ks => some ⟨ks, o.template && !(ends && ks.isEmpty)⟩
  | .mismatch _ => none

end OpenBrackets

/-- What a validator may have open: a comment only on top of all else. -/
structure Opened extends OpenBrackets where
  comment : Bool := false
  deriving DecidableEq

namespace Opened

def stack (o : Opened) : Stack :=
  if o.comment then .lComment :: o.toOpenBrackets.stack else o.toOpenBrackets.stack

/-- How much is open. -/
def size (o : Opened) : Nat := o.brackets.length + o.template.toNat + o.comment.toNat

/-- A text starts: with nothing open it may start a template. -/
def enter (o : Opened) (input : Str) : Opened :=
  if o = {} ∧ beginsTemplate input = true then { template := true } else o

/-- An item is read; `none` when it is a stray one. -/
def take (o : Opened) (it : Item) : Option Opened :=
  if o.comment then some { o with comment := commentAfter true it }
  else if it = .token .rComment then none
  else (o.after (symbolsOf it) it.isEnd).map fun p => ⟨p, commentAfter false it⟩

end Opened

theorem less_not_mem_markers (ks : List BracketKind) : TokenKind.less ∉ markers ks := by
  intro hmem
  obtain ⟨k, -, hk⟩ := List.mem_map.mp hmem
  cases k <;> exact absurd hk (by simp [BracketKind.marker])

section

variable {s s' st : Stack}

theorem inBlockComment_append (hst : inBlockComment st = false) :
    inBlockComment (s ++ st) = inBlockComment s := by
  cases s with
  | nil => exact hst
  | cons k s => rfl

/-- A template is all there is, and no part of `s`. -/
theorem inTemplate_append (hs : .less ∉ s) :
    inTemplate (s ++ st) = true ↔ s = [] ∧ st = [.less] := by
  constructor
  · intro h
    have heq := eq_of_inTemplate h
    cases s with
    | nil => exact ⟨rfl, heq⟩
    | cons k s =>
        have hk : k = .less := (List.cons.inj heq).1
        exact absurd (hk ▸ List.mem_cons_self) hs
  · rintro ⟨rfl, rfl⟩
    rfl

theorem not_inTemplate (hs : .less ∉ s) : inTemplate s = false := by
  rw [← Bool.not_eq_true]
  intro h
  have heq := eq_of_inTemplate h
  exact hs (heq ▸ List.mem_cons_self)

end

theorem inBlockComment_openBrackets (o : OpenBrackets) : inBlockComment o.stack = false := by
  have hlast : inBlockComment (if o.template then [.less] else [] : Stack) = false := by
    split <;> rfl
  exact (inBlockComment_append hlast).trans (markers_not_comment _)

@[simp] theorem inBlockComment_opened (o : Opened) : inBlockComment o.stack = o.comment := by
  unfold Opened.stack
  cases o.comment with
  | true => rfl
  | false => exact inBlockComment_openBrackets o.toOpenBrackets

theorem length_stack (o : Opened) : o.stack.length = o.size := by
  obtain ⟨⟨ks, template⟩, comment⟩ := o
  cases template <;> cases comment <;>
    simp [Opened.stack, OpenBrackets.stack, Opened.size, markers]

theorem opened_stack_eq_nil_iff (o : Opened) : o.stack = [] ↔ o = {} := by
  obtain ⟨⟨ks, template⟩, comment⟩ := o
  cases template <;> cases comment <;> simp [Opened.stack, OpenBrackets.stack, markers]

/-- The marker of a template is on the stack when one waits for its end. -/
theorem less_mem_stack_iff (o : Opened) : .less ∈ o.stack ↔ o.template = true := by
  obtain ⟨⟨ks, template⟩, comment⟩ := o
  have hks := less_not_mem_markers ks
  cases template <;> cases comment <;> simp [Opened.stack, OpenBrackets.stack, hks]

/-! ## What an item does -/

theorem head_markers_hash (ks : List BracketKind) :
    (markers ks).head? = some .hash ↔ ks.head? = some .conditional := by
  cases ks with
  | nil => simp [markers]
  | cons k ks => cases k <;> simp [markers, BracketKind.marker]

/-- Outside a comment an item does to the stack what its brackets do. -/
theorem reactOut_markers (ks : List BracketKind) {it : Item} (hopen : it ≠ .token .lComment)
    (hclose : it ≠ .token .rComment) :
    reactOut (markers ks) it = markersAfter ks (symbolsOf it) := by
  cases it with
  | stop => rfl
  -- the two words of a group; any other word leaves the stack
  | directive w =>
      simp only [reactOut, symbolsOf]
      by_cases ho : opensGroup w = true
      · rw [if_pos ho, if_pos ho]
        rfl
      · rw [if_neg ho, if_neg ho]
        by_cases hc : closesGroup w = true
        · rw [if_pos hc, if_pos hc, markersAfter, reduce_cls]
          by_cases hk : ks.head? = some .conditional
          · rw [if_pos hk, if_pos ((head_markers_hash ks).mpr hk)]
            simp [markers]
          · rw [if_neg hk, if_neg fun h => hk ((head_markers_hash ks).mp h)]
        · rw [if_neg hc, if_neg hc]
          rfl
  | token k =>
      cases k with
      | rSquare => exact closeBracket_markers ks (k := .square) rfl
      | rParen => exact closeBracket_markers ks (k := .paren) rfl
      | rBrace => exact closeBracket_markers ks (k := .brace) rfl
      | lComment => exact absurd rfl hopen
      | rComment => exact absurd rfl hclose
      | semicolon =>
          show some (if inTemplate (markers ks) = true then (markers ks).tail else markers ks) = _
          rw [markers_not_template]
          rfl
      | _ => rfl

/-- The items that pop the marker of a template below the stack `s`. -/
def EndsTemplate (s : Stack) (it : Item) : Prop :=
  (it = .token .semicolon ∧ s = []) ∨ (it = .token .rBrace ∧ s = [.lBrace])

section

variable {s s' st : Stack} {it : Item}

theorem closeBracket_frame {k : TokenKind} (h : closeBracket k s = some s') (hs : .less ∉ s)
    (hT : st = [.less] → ¬ (k = .rBrace ∧ s = [.lBrace])) :
    closeBracket k (s ++ st) = some (s' ++ st) := by
  cases s with
  | nil => exact absurd h (by simp [closeBracket])
  | cons top s =>
      have htail : TokenKind.less ∉ s := fun hmem => hs (List.mem_cons_of_mem _ hmem)
      rw [List.cons_append]
      simp only [closeBracket] at h ⊢
      by_cases hk : asInt k = asInt top + 1
      · rw [if_pos hk, not_inTemplate htail, if_neg (by simp)] at h
        have hno : ¬ (k = .rBrace ∧ inTemplate (s ++ st) = true) := by
          rintro ⟨rfl, ht⟩
          rcases (inTemplate_append htail).mp ht with ⟨rfl, hst⟩
          have htop : top = .lBrace := by
            revert hk
            cases top <;> decide
          exact hT hst ⟨rfl, by rw [htop]⟩
        rw [if_pos hk, if_neg hno, Option.some.inj h]
      · rw [if_neg hk] at h
        exact absurd h (by simp)

theorem head_append_of_some {k : TokenKind} (h : s.head? = some k) (st : Stack) :
    (s ++ st).head? = some k ∧ (s ++ st).tail = s.tail ++ st := by
  cases s with
  | nil => exact absurd h (by simp)
  | cons k' s => exact ⟨h, rfl⟩

theorem reactOut_frame (h : reactOut s it = some s') (hs : .less ∉ s)
    (hT : st = [.less] → ¬ EndsTemplate s it) : reactOut (s ++ st) it = some (s' ++ st) := by
  cases it with
  | stop => exact congrArg some (congrArg (· ++ st) (Option.some.inj h))
  | directive w =>
      simp only [reactOut] at h ⊢
      by_cases ho : opensGroup w = true
      · rw [if_pos ho] at h ⊢
        rw [← Option.some.inj h]
        rfl
      · rw [if_neg ho] at h ⊢
        by_cases hc : closesGroup w = true
        · rw [if_pos hc] at h ⊢
          by_cases hhead : s.head? = some .hash
          · rcases head_append_of_some hhead st with ⟨hhead', htail⟩
            rw [if_pos hhead] at h
            rw [if_pos hhead', htail, Option.some.inj h]
          · rw [if_neg hhead] at h
            exact absurd h (by simp)
        · rw [if_neg hc] at h ⊢
          rw [Option.some.inj h]
  | token k =>
      cases k with
      | rComment => exact absurd h (by simp [reactOut])
      | rSquare | rParen => exact closeBracket_frame h hs fun _ hk => absurd hk.1 (by decide)
      | rBrace => exact closeBracket_frame h hs fun hst hk => hT hst (.inr ⟨rfl, hk.2⟩)
      | semicolon =>
          simp only [reactOut] at h ⊢
          rw [not_inTemplate hs, if_neg (by simp)] at h
          have hno : ¬ inTemplate (s ++ st) = true := by
            intro ht
            rcases (inTemplate_append hs).mp ht with ⟨hnil, hst⟩
            exact hT hst (.inl ⟨rfl, hnil⟩)
          rw [if_neg hno, Option.some.inj h]
      | _ =>
          rw [← Option.some.inj h]
          rfl

/-- An item that ends a template pops its marker with what it pops itself. -/
theorem react_endsTemplate (h : EndsTemplate s it) :
    react s it = some [] ∧ react (s ++ [.less]) it = some [] := by
  rcases h with ⟨rfl, rfl⟩ | ⟨rfl, rfl⟩
  · exact ⟨rfl, rfl⟩
  · exact ⟨rfl, rfl⟩

theorem closeBracket_reject {k : TokenKind} (hk : k = .rSquare ∨ k = .rParen ∨ k = .rBrace)
    (h : closeBracket k s = none) : closeBracket k (s ++ [.less]) = none := by
  cases s with
  | nil => rcases hk with rfl | rfl | rfl <;> rfl
  | cons top s =>
      rw [List.cons_append]
      simp only [closeBracket] at h ⊢
      split_ifs at h ⊢
      rfl

theorem head_ne_hash (h : s.head? ≠ some .hash) :
    (s ++ [TokenKind.less]).head? ≠ some .hash := by
  cases s with
  | nil => simp
  | cons top s => exact h

/-- What does not fit the open brackets does not fit a template, either. -/
theorem reactOut_reject (h : reactOut s it = none) : reactOut (s ++ [.less]) it = none := by
  cases it with
  | stop => exact absurd h (by simp [reactOut])
  | directive w =>
      simp only [reactOut] at h ⊢
      split_ifs at h with ho hc hhead
      rw [if_neg ho, if_pos hc, if_neg (head_ne_hash hhead)]
  | token k =>
      cases k with
      | rComment => rfl
      | rSquare => exact closeBracket_reject (.inl rfl) h
      | rParen => exact closeBracket_reject (.inr (.inl rfl)) h
      | rBrace => exact closeBracket_reject (.inr (.inr rfl)) h
      | _ => exact absurd h (by simp [reactOut])

end

/-- The items that end a template are those behind which nothing is open. -/
theorem endsTemplate_of_pop {ks : List BracketKind} {it : Item}
    (hit : it = .token .semicolon ∨ it = .token .rBrace) (h : reactOut (markers ks) it = some []) :
    EndsTemplate (markers ks) it := by
  rcases hit with rfl | rfl
  · left
    simp only [reactOut, markers_not_template] at h
    exact ⟨rfl, Option.some.inj h⟩
  · right
    cases ks with
    | nil => exact absurd h (by simp [reactOut, closeBracket, markers])
    | cons k ks =>
        have hclose : closeBracket .rBrace (k.marker :: markers ks) = some [] := h
        rw [closeBracket, markers_not_template, if_neg (by simp : ¬ (_ ∧ false = true))] at hclose
        split_ifs at hclose with hadj
        have hk : k.marker = .lBrace := by
          revert hadj
          cases k <;> decide
        refine ⟨rfl, ?_⟩
        rw [markers, List.map_cons, hk]
        exact congrArg _ (Option.some.inj hclose)

/-- What an item does to the open brackets, it does to them on top of a template, which it may end. -/
theorem reactOut_stack {o : OpenBrackets} {ss : List (Sym BracketKind)} {ends : Bool} {it : Item}
    (hr : reactOut (markers o.brackets) it = markersAfter o.brackets ss)
    (hend : ends = true ↔ it = .token .semicolon ∨ it = .token .rBrace) :
    reactOut o.stack it = (o.after ss ends).map OpenBrackets.stack := by
  obtain ⟨ks, template⟩ := o
  unfold OpenBrackets.after
  rw [markersAfter] at hr
  cases template with
  | false =>
      have hstack : (⟨ks, false⟩ : OpenBrackets).stack = markers ks := List.append_nil _
      rw [hstack, hr]
      cases reduce ks ss with
      | mismatch js => rfl
      | ended js => exact congrArg some (List.append_nil _).symm
  | true =>
      show reactOut (markers ks ++ [.less]) it = _
      cases hred : reduce ks ss with
      | mismatch js =>
          rw [hred] at hr
          exact reactOut_reject hr
      | ended js =>
          rw [hred] at hr
          by_cases hpop : EndsTemplate (markers ks) it
          · -- the marker goes with the last bracket
            obtain ⟨hnil, hall⟩ := react_endsTemplate hpop
            rw [react_out (markers_not_comment ks), hr] at hnil
            have hjs : js = [] := List.map_eq_nil_iff.mp (Option.some.inj hnil)
            have hp : ends = true := hend.mpr (hpop.imp And.left And.left)
            have hb : inBlockComment (markers ks ++ [.less]) = false :=
              (inBlockComment_append rfl).trans (markers_not_comment ks)
            rw [← react_out hb, hall, hjs, hp]
            rfl
          · have hkeep : ¬ (ends = true ∧ js = []) := by
              rintro ⟨hp, rfl⟩
              exact hpop (endsTemplate_of_pop (hend.mp hp) hr)
            have hwaits : (!(ends && js.isEmpty)) = true := by
              rw [Bool.not_eq_true', ← Bool.not_eq_true, Bool.and_eq_true, List.isEmpty_iff]
              exact hkeep
            rw [reactOut_frame hr (less_not_mem_markers ks) fun _ => hpop]
            simp only [Bool.true_and, hwaits]
            rfl

theorem Item.isEnd_iff (it : Item) :
    it.isEnd = true ↔ it = .token .semicolon ∨ it = .token .rBrace := by
  cases it with
  | stop => simp [Item.isEnd]
  | directive w => simp [Item.isEnd]
  | token k => cases k <;> simp [Item.isEnd]

/-- **The step lemma**: what an item does to the stack is what it does to what is open. -/
theorem react_stack (o : Opened) (it : Item) : react o.stack it = (o.take it).map Opened.stack := by
  obtain ⟨p, comment⟩ := o
  cases comment with
  | true =>
      rw [react_in (inBlockComment_opened ⟨p, true⟩)]
      by_cases h : it = .token .rComment
      · simp [h, Opened.take, Opened.stack, commentAfter]
      · simp [h, Opened.take, Opened.stack, commentAfter]
  | false =>
      show react p.stack it = _
      rw [react_out (inBlockComment_openBrackets p)]
      by_cases hclose : it = .token .rComment
      · subst hclose
        rfl
      by_cases hopen : it = .token .lComment
      · subst hopen
        obtain ⟨ks, template⟩ := p
        cases template <;> rfl
      have hb : commentAfter false it = false := by simp [commentAfter, hopen]
      have hstack := reactOut_stack (reactOut_markers p.brackets hopen hclose) it.isEnd_iff
      rw [hstack, Opened.take, hb, if_neg Bool.false_ne_true, if_neg hclose, Option.map_map]
      rfl

/-- An item that is not taken is a stray one. -/
theorem take_eq_none_iff {o : Opened} {it : Item} :
    o.take it = none ↔ o.comment = false ∧ Stray o.brackets it := by
  obtain ⟨⟨ks, template⟩, comment⟩ := o
  cases comment with
  | true => simp [Opened.take]
  | false =>
      by_cases hclose : it = .token .rComment
      · subst hclose
        exact iff_of_true rfl ⟨rfl, .inl rfl⟩
      · have hstray : Stray ks it ↔ ∃ js, reduce ks (symbolsOf it) = .mismatch js := by
          rw [mismatch_iff (symbolsOf_length it), Stray]
          exact or_iff_right hclose
        rw [hstray]
        simp only [Opened.take, if_neg hclose, OpenBrackets.after]
        cases reduce ks (symbolsOf it) with
        | ended js => simp
        | mismatch js => simp

/-- An item that is taken is read, and the open brackets reduce by its own. -/
theorem take_eq_some {o o' : Opened} {it : Item} (h : o.take it = some o') :
    (o.comment = false → it ≠ .token .rComment) ∧ o'.comment = commentAfter o.comment it ∧
      reduce o.brackets (if o.comment then [] else symbolsOf it) = .ended o'.brackets ∧
      o'.template = (o.template && !(!o.comment && it.isEnd && o'.brackets.isEmpty)) := by
  obtain ⟨⟨ks, template⟩, comment⟩ := o
  cases comment with
  | true =>
      obtain rfl := Option.some.inj h
      exact ⟨nofun, rfl, rfl, by simp⟩
  | false =>
      have hclose : it ≠ .token .rComment := by
        rintro rfl
        cases h
      simp only [Opened.take, if_neg hclose, OpenBrackets.after] at h
      cases hred : reduce ks (symbolsOf it) with
      | mismatch js =>
          rw [hred] at h
          cases h
      | ended js =>
          rw [hred] at h
          obtain rfl := Option.some.inj h
          exact ⟨fun _ => hclose, rfl, hred, by simp⟩

/-- Brackets that fit are taken. -/
theorem exists_take {o : Opened} {it : Item} {ks : List BracketKind}
    (hclose : o.comment = false → it ≠ .token .rComment)
    (h : reduce o.brackets (if o.comment then [] else symbolsOf it) = .ended ks) :
    ∃ o', o.take it = some o' ∧ o'.brackets = ks := by
  obtain ⟨⟨js, template⟩, comment⟩ := o
  cases comment with
  | true => exact ⟨_, rfl, Reduced.ended.inj h⟩
  | false =>
      have hred : reduce js (symbolsOf it) = .ended ks := h
      simp only [Opened.take, if_neg (hclose rfl), OpenBrackets.after, hred]
      exact ⟨_, rfl, rfl⟩

/-! ## The scan reads the items -/

/-- A `;` or a `}` stands in the text, behind which no bracket is open. -/
def TemplateEnds (o : Opened) (c₀ : Bool) (t : Str) : Prop :=
  ∃ c w s it r, ReadingFrom o.comment c₀ t false c w s ∧ nextItem false s = some (it, r) ∧
    it.isEnd = true ∧ reduce o.brackets (w ++ symbolsOf it) = .ended []

/-- The items of `t`, read behind the open `o`, come to their end, or to a stray one if `stray`. What
is open there is `o'`, and the last token asks for more if `c`. -/
structure Ending (o : Opened) (c₀ : Bool) (t : Str) (o' : Opened) (c stray : Bool) : Prop where
  read : ∃ w s it r, ReadingFrom o.comment c₀ t o'.comment c w s ∧
    reduce o.brackets w = .ended o'.brackets ∧ nextItem o'.comment s = some (it, r) ∧
    if stray then o'.comment = false ∧ Stray o'.brackets it else it = .stop
  template : o'.template = true ↔ o.template = true ∧ ¬ TemplateEnds o c₀ t

section

variable {o o' : Opened} {l : TokenKind} {t : Str} {e : Config}

/-- The scan reads the items of the text, and has open what they leave. -/
theorem reading_of_reaches (h : scanner.Reaches ⟨o.stack, l, t⟩ e) :
    ∃ (o' : Opened) (w : List (Sym BracketKind)),
      ReadingFrom o.comment (isContinuation l) t o'.comment (isContinuation e.last) w e.text ∧
      reduce o.brackets w = .ended o'.brackets ∧ e.stack = o'.stack ∧
      (o'.template = true → o.template = true) ∧
      (o.template = true → o'.template = false → TemplateEnds o (isContinuation l) t) := by
  induction h with
  | refl => exact ⟨o, [], .start, rfl, rfl, id, fun h h' => absurd (h.symm.trans h') (by decide)⟩
  | @tail a e _ hae ih =>
      obtain ⟨p, w, hread, hred, hstack, hmono, hends⟩ := ih
      obtain ⟨it, hn, hit, hr, hlast⟩ := scanMove_eq_next_iff.mp hae
      rw [hstack, inBlockComment_opened] at hn
      rw [hstack, react_stack] at hr
      obtain ⟨o', htake, hst⟩ := Option.map_eq_some_iff.mp hr
      obtain ⟨hclose, hcomment, hbrackets, htemplate⟩ := take_eq_some htake
      have hall : reduce o.brackets (w ++ if p.comment then [] else symbolsOf it) =
          .ended o'.brackets := by
        rw [reduce_append, hred]
        exact hbrackets
      refine ⟨o', _, ?_, hall, hst.symm, ?_, ?_⟩
      · rw [hcomment, hlast, continued_lastAfter]
        exact .item hread hn hit hclose
      · intro h
        rw [htemplate, Bool.and_eq_true] at h
        exact hmono h.1
      · intro h h'
        cases hp : p.template with
        | false => exact hends h hp
        | true =>
            -- the item is the end of the template
            rw [htemplate, hp, Bool.true_and, Bool.not_eq_false', Bool.and_eq_true,
              Bool.and_eq_true, Bool.not_eq_true', List.isEmpty_iff] at h'
            obtain ⟨⟨hb, hend⟩, hnil⟩ := h'
            rw [hb] at hread hn hall
            rw [hnil] at hall
            exact ⟨_, w, a.text, it, _, hread, hn, hend, hall⟩

/-- What can be read is what the scan reads, as long as the brackets match. -/
theorem reaches_of_reading {b c : Bool} {w : List (Sym BracketKind)} {s : Str}
    (h : ReadingFrom o.comment (isContinuation l) t b c w s) {ks : List BracketKind}
    (hred : reduce o.brackets w = .ended ks) :
    ∃ (p : Opened) (l' : TokenKind), scanner.Reaches ⟨o.stack, l, t⟩ ⟨p.stack, l', s⟩ ∧
      isContinuation l' = c ∧
      p.comment = b ∧ p.brackets = ks := by
  induction h generalizing ks with
  | start => exact ⟨o, l, .refl _, rfl, rfl, Reduced.ended.inj hred⟩
  | @item b c w s r it _ hn hit hclose ih =>
      rw [reduce_append] at hred
      cases hw : reduce o.brackets w with
      | mismatch js =>
          rw [hw] at hred
          cases hred
      | ended js =>
          rw [hw] at hred
          obtain ⟨p, l', hreach, rfl, rfl, rfl⟩ := ih hw
          obtain ⟨p', htake, hks⟩ := exists_take hclose hred
          have hr : react p.stack it = some p'.stack := by
            rw [react_stack, htake]
            rfl
          have hn' : nextItem (inBlockComment p.stack) s = some (it, r) := by
            rw [inBlockComment_opened]
            exact hn
          exact ⟨p', _, hreach.trans (reaches_of_item hn' hit hr), continued_lastAfter l' it.kind,
            (take_eq_some htake).2.1, hks⟩

/-- Where a scan ends behind the end of a template, none waits. -/
theorem less_not_mem_of_ends (he : scanner.Reaches ⟨o.stack, l, t⟩ e)
    (hstop : ∀ a, scanMove e ≠ .next a) (h : TemplateEnds o (isContinuation l) t) :
    .less ∉ e.stack := by
  obtain ⟨c, w, s, it, r, hread, hn, hend, hred⟩ := h
  rw [reduce_append] at hred
  cases hw : reduce o.brackets w with
  | mismatch js =>
      rw [hw] at hred
      cases hred
  | ended js =>
      rw [hw] at hred
      obtain ⟨p, l', hp, -, hb, rfl⟩ := reaches_of_reading hread hw
      have hit : it ≠ .stop := by
        rintro rfl
        cases hend
      have hclose : it ≠ .token .rComment := by
        rintro rfl
        cases hend
      obtain ⟨p', htake, hnil⟩ := exists_take (fun _ => hclose) (by rw [hb]; exact hred)
      have htemplate : p'.template = false := by
        rw [(take_eq_some htake).2.2.2, hb, hend, hnil]
        simp
      have hnext : scanMove ⟨p.stack, l', s⟩ = .next ⟨p'.stack, lastAfter l' it.kind, r⟩ := by
        refine scanMove_eq_next_iff.mpr ⟨it, ?_, hit, ?_, rfl⟩
        · rw [inBlockComment_opened, hb]
          exact hn
        · show react p.stack it = _
          rw [react_stack, htake]
          rfl
      -- the run passes the item before it ends
      have hrest : scanner.Reaches ⟨p'.stack, lastAfter l' it.kind, r⟩ e := by
        rcases hp.total he with hpe | hep
        · rcases Relation.ReflTransGen.cases_head hpe with rfl | ⟨a, ha, hae⟩
          · exact absurd hnext (hstop _)
          · have ha' : scanMove ⟨p.stack, l', s⟩ = .next a := ha
            rw [hnext] at ha'
            cases ha'
            exact hae
        · rcases Relation.ReflTransGen.cases_head hep with rfl | ⟨a, ha, -⟩
          · exact absurd hnext (hstop _)
          · exact absurd ha (hstop a)
      obtain ⟨o', -, -, -, hstack, hmono, -⟩ := reading_of_reaches hrest
      rw [hstack, less_mem_stack_iff]
      intro ho'
      rw [hmono ho'] at htemplate
      cases htemplate

/-- **Every scan ends as the text does.** -/
theorem ending_of_run {v : Verdict} (h : scanner.run ⟨o.stack, l, t⟩ = some v) :
    ∃ o', Ending o (isContinuation l) t o' (isContinuation v.last) v.rejected ∧
      v.stack = o'.stack := by
  obtain ⟨e, it, r, he, hn, hvstack, hvlast, hend⟩ := end_of_run h
  obtain ⟨o', w, hread, hred, hstack, hmono, hends⟩ := reading_of_reaches he
  have hstop : ∀ a, scanMove e ≠ .next a := by
    intro a ha
    obtain ⟨it', hn', hit', hr', -⟩ := scanMove_eq_next_iff.mp ha
    cases hn.symm.trans hn'
    rcases hend with ⟨hit, -⟩ | ⟨-, hr, -⟩
    · exact hit' hit
    · rw [hr] at hr'
      cases hr'
  rw [hstack, inBlockComment_opened] at hn
  refine ⟨o', ⟨⟨w, e.text, it, r, ?_, hred, hn, ?_⟩, ?_⟩, hvstack.trans hstack⟩
  · rw [hvlast]
    exact hread
  · rcases hend with ⟨hit, hrej⟩ | ⟨-, hr, hrej⟩
    · rw [hrej]
      exact hit
    · rw [hstack, react_stack, Option.map_eq_none_iff] at hr
      rw [hrej]
      exact take_eq_none_iff.mp hr
  · constructor
    · intro ho'
      refine ⟨hmono ho', fun hT => less_not_mem_of_ends he hstop hT ?_⟩
      rw [hstack, less_mem_stack_iff]
      exact ho'
    · rintro ⟨ho, hT⟩
      by_contra ho'
      exact hT (hends ho (by simpa using ho'))

/-- **A text that ends is scanned to its end.** -/
theorem run_of_ending {c stray : Bool} (h : Ending o (isContinuation l) t o' c stray) :
    ∃ v, scanner.run ⟨o.stack, l, t⟩ = some v ∧ v.stack = o'.stack ∧ isContinuation v.last = c ∧
      v.rejected = stray := by
  obtain ⟨⟨w, s, it, r, hread, hred, hn, hlast⟩, htemplate⟩ := h
  obtain ⟨p, l', hp, hc, hb, hks⟩ := reaches_of_reading hread hred
  have hn' : nextItem (inBlockComment p.stack) s = some (it, r) := by
    rw [inBlockComment_opened, hb]
    exact hn
  have hrun : scanner.run ⟨o.stack, l, t⟩ = some ⟨p.stack, l', stray⟩ := by
    rw [Machine.run_eq_of_reaches hp]
    cases stray with
    | false =>
        obtain rfl : it = .stop := hlast
        exact run_of_stop hn'
    | true =>
        have htake : p.take it = none := take_eq_none_iff.mpr (hb ▸ hks ▸ hlast)
        have hr : react p.stack it = none := by
          rw [react_stack, htake]
          rfl
        refine run_of_reject hn' ?_ hr
        rintro rfl
        rw [react_stop] at hr
        cases hr
  -- whether a template waits is the same, for the run ends there
  obtain ⟨q, hq, hstack⟩ := ending_of_run hrun
  have hsame : p.template = o'.template := by
    have hpq : p.template = true ↔ q.template = true := by
      rw [← less_mem_stack_iff, ← less_mem_stack_iff, ← hstack]
    rw [Bool.eq_iff_iff, hpq, hq.template, htemplate]
  have hpo : p = o' := by
    obtain ⟨⟨ks, template⟩, comment⟩ := p
    obtain ⟨⟨ks', template'⟩, comment'⟩ := o'
    cases hb
    cases hks
    cases hsame
    rfl
  exact ⟨_, hrun, congrArg Opened.stack hpo, hc, rfl⟩

end

/-! ## The status -/

theorem status_eq_incomplete_iff (r : Verdict) : r.status = .incomplete ↔
    isContinuation r.last = true ∨ (r.stack ≠ [] ∧ r.rejected = false) := by
  unfold Verdict.status isContinuation
  simp only [Bool.or_eq_true, decide_eq_true_eq]
  split_ifs with h h'
  · simp only [true_iff]
    tauto
  · simp only [false_iff]
    tauto
  · simp only [false_iff]
    tauto

/-- Read behind the open `o`, the text ends with something open or with a continued line, or breaks
off at a stray item right behind a continuation. -/
def UnfinishedFrom (o : Opened) (c₀ : Bool) (t : Str) : Prop :=
  ∃ o' c stray, Ending o c₀ t o' c stray ∧ (c = true ∨ (o' ≠ {} ∧ stray = false))

/-- **A text is incomplete exactly when it is unfinished**, whatever is open in front of it. -/
theorem incomplete_iff_unfinished (o : Opened) (l : TokenKind) (t : Str) :
    (scanner.run ⟨o.stack, l, t⟩).map Verdict.status = some .incomplete ↔
      UnfinishedFrom o (isContinuation l) t := by
  constructor
  · intro h
    obtain ⟨v, hv, hstatus⟩ := Option.map_eq_some_iff.mp h
    obtain ⟨o', hending, hstack⟩ := ending_of_run hv
    rw [status_eq_incomplete_iff, hstack, ne_eq, opened_stack_eq_nil_iff] at hstatus
    exact ⟨o', _, _, hending, hstatus⟩
  · rintro ⟨o', c, stray, hending, hopen⟩
    obtain ⟨v, hv, hstack, rfl, rfl⟩ := run_of_ending hending
    rw [hv, Option.map_some, Option.some.injEq, status_eq_incomplete_iff, hstack, ne_eq,
      opened_stack_eq_nil_iff]
    exact hopen

/-- A call starts its scan behind what is open, and a template that begins. -/
theorem start_opened {v : XInputValidator} {o : Opened} (hv : v.parentStack = o.stack)
    (input : Str) : v.start input = ⟨(o.enter input).stack, .unknown, input⟩ := by
  rw [XInputValidator.start, startStack, Opened.enter, hv]
  simp only [opened_stack_eq_nil_iff]
  split_ifs <;> rfl

end XeusCpp.Validator
