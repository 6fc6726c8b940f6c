/-
# XeusCpp.Validator.Directive — what a preprocessor directive takes from the next line.

`lex_any_string` reads the word of a directive up to the next blank. A line break is no blank for it,
so a word that stands at the end of its line goes on into the next line, and whatever is read with it
is not validated. Behind any other token a line break is a token of its own.

`newline_separates_iff` states this exactly, for a line break behind an arbitrary text `A` and every
rest: a blank put before the line break makes no difference and the next line is scanned as it
stands, if and only if `A` does not end in a directive.
-/
import XeusCpp.Validator.Seam

namespace XeusCpp.Validator

open XeusCpp.Text XeusCpp.Logic

/-! ## The line break -/

theorem nextItem_newline (b : Bool) (B : Str) :
    nextItem b ((('\n' : Char) : Byte) :: B) = some (.token .unknown, B) := by
  have hcls : charClass '\n' = .other := by decide
  simp only [nextItem, lexHead, hcls, Option.map_some]
  rfl

/-- A line break is a token that changes nothing but the last token. -/
theorem run_newline (st : Stack) (last : TokenKind) (B : Str) :
    scanner.run ⟨st, last, (('\n' : Char) : Byte) :: B⟩ = scanner.run ⟨st, .unknown, B⟩ :=
  run_of_item (c := ⟨st, last, _⟩) (nextItem_newline _ B) (Item.token_ne_stop _)
    (react_of_inert st rfl)

theorem start_append_of_break (v : XInputValidator) (A : Str) {u : Str}
    (hu : u.headD 0 = ' ' ∨ u.headD 0 = '\n') (hb : beginsTemplate u = false) :
    v.start (A ++ u) = (v.start A).append u := by
  refine start_append_of_head v A ?_ hb
  cases u with
  | nil => simp
  | cons d u =>
      intro d' hd'
      obtain rfl : d = d' := by simpa using hd'
      rcases hu with rfl | rfl <;> decide

theorem beginsTemplate_newline (B : Str) :
    beginsTemplate ((('\n' : Char) : Byte) :: B) = false := by
  refine beginsTemplate_of_head ?_
  intro d hd
  obtain rfl : _ = d := Option.some.inj hd
  decide

theorem beginsTemplate_blank_newline (B : Str) :
    beginsTemplate ((' ' : Char) :: (('\n' : Char) : Byte) :: B) = false := by
  rw [beginsTemplate_eq, List.dropWhile_cons_of_pos (by decide), ← beginsTemplate_eq]
  exact beginsTemplate_newline B

/-! ## The word of a directive -/

/-- A directive word that goes on over a line break is the same directive. -/
theorem opensGroup_newline (w x : Str) :
    opensGroup (w ++ (('\n' : Char) : Byte) :: x) = opensGroup w := by
  unfold opensGroup
  rcases w with _ | ⟨a, _ | ⟨b, w⟩⟩
  · rfl
  · have : ((('\n' : Char) : Byte) == 'f') = false := by decide
    simp [lit, this]
  · rfl

theorem closesGroup_newline (w x : Str) :
    closesGroup (w ++ (('\n' : Char) : Byte) :: x) = closesGroup w := by
  have hd : ((('\n' : Char) : Byte) == 'd') = false := by decide
  have hi : ((('\n' : Char) : Byte) == 'i') = false := by decide
  have hf : ((('\n' : Char) : Byte) == 'f') = false := by decide
  have hn : ((('\n' : Char) : Byte) == 'n') = false := by decide
  have he : ((('\n' : Char) : Byte) == 'e') = false := by decide
  have hs : isspace '\n' = true := by decide
  unfold closesGroup
  rcases w with _ | ⟨a, _ | ⟨b, _ | ⟨c, _ | ⟨d, _ | ⟨e, _ | ⟨f, w⟩⟩⟩⟩⟩⟩ <;>
    simp [lit, *]

/-- A word that ends at the seam is followed by nothing it takes, or by a line break: the directive
stays the same. -/
theorem reactOut_directive_append (st : Stack) (w : Str) {u : Str}
    (hu : u.headD 0 = ' ' ∨ u.headD 0 = '\n') :
    reactOut st (.directive (w ++ u.takeWhile isRawChar)) = reactOut st (.directive w) := by
  cases u with
  | nil => rw [List.takeWhile_nil, List.append_nil]
  | cons d u =>
      have hd : d = ' ' ∨ d = '\n' := hu
      rcases hd with rfl | rfl
      · rw [List.takeWhile_cons_of_neg (by decide), List.append_nil]
      · rw [List.takeWhile_cons_of_pos (by decide)]
        simp only [reactOut, opensGroup_newline, closesGroup_newline]

/-! ## The end of a text in front of a line break -/

theorem noSign_of_break (t : Str) {u : Str} (hu : u.headD 0 = ' ' ∨ u.headD 0 = '\n') :
    NoSign t u := by
  apply noSign_of_head
  rcases hu with hu | hu <;>
  · rw [hu]
    decide

/-- A scan that ends before the end of the text: an item is rejected, or a NUL is met. -/
def Interrupted (v : XInputValidator) (A : Str) : Prop :=
  ∃ e it r, scanner.Reaches (v.start A) e ∧
    nextItem (inBlockComment e.stack) e.text = some (it, r) ∧
    ((it ≠ .stop ∧ react e.stack it = none) ∨ (it = .stop ∧ 0 ∈ e.text))

/-- The text ends in the word of a directive the validator takes, or in a `#` that still waits for
its word. -/
def EndsInDirective (v : XInputValidator) (A : Str) : Prop :=
  ∃ b it, LastRead (v.start A) b it ∧
    ((∃ w, it = .directive w ∧ react b.stack it ≠ none) ∨ (it = .stop ∧ 0 ∉ b.text))

section

variable {v : XInputValidator} {A u : Str} {e : Config} {it : Item} {r : Str}

/-- What interrupts the scan of `A` interrupts it in front of a line break as well. -/
theorem run_append_of_interrupt (he : scanner.Reaches (v.start A) e) (hne : e.text ≠ [])
    (hn : nextItem (inBlockComment e.stack) e.text = some (it, r))
    (hu : u.headD 0 = ' ' ∨ u.headD 0 = '\n') :
    (it ≠ .stop → react e.stack it = none →
      scanner.run ((v.start A).append u) = some ⟨e.stack, e.last, true⟩) ∧
    (it = .stop → 0 ∈ e.text →
      scanner.run ((v.start A).append u) = some ⟨e.stack, e.last, false⟩) := by
  constructor
  · intro _ hr
    refine run_append_of_rejected he hn hr (noSign_of_break _ hu) ?_
    rintro w rfl rfl
    rcases nextItem_seam_directive hn with ⟨hb, -⟩
    rw [react_out hb] at hr ⊢
    rw [reactOut_directive_append _ _ hu, hr]
  · rintro rfl h0
    rw [Machine.run_eq_of_reaches (reaches_append he hne u)]
    rcases nextItem_append_nul h0 hn u with ⟨r', hn'⟩
    exact run_of_stop hn'

/-- Behind a text that ends in no directive the scan comes to the line break. -/
theorem run_append_newline (he : scanner.Reaches (v.start A) e) (hnil : e.text = [])
    (hdir : ¬ EndsInDirective v A) (B : Str) :
    scanner.run ((v.start A).append ((('\n' : Char) : Byte) :: B)) =
      scanner.run ⟨e.stack, e.last, (('\n' : Char) : Byte) :: B⟩ ∧
    scanner.run ((v.start A).append ((' ' : Char) :: (('\n' : Char) : Byte) :: B)) =
      scanner.run ⟨e.stack, e.last, (('\n' : Char) : Byte) :: B⟩ := by
  by_cases hA : (v.start A).text = []
  · rw [eq_of_reaches_nil he hA] at hnil ⊢
    refine ⟨?_, ?_⟩
    · rw [Config.append, hA, List.nil_append]
    · rw [Config.append, hA, List.nil_append, run_dropBlanks, List.dropWhile_cons_of_pos (by decide),
        List.dropWhile_cons_of_neg (by decide)]
  rcases lastRead_of_reaches he hnil hA with ⟨b, it, hlast, hit, hr, hl⟩
  cases it with
  | stop => exact absurd rfl hit
  | directive w => exact absurd ⟨b, _, hlast, .inl ⟨w, rfl, by simp [hr]⟩⟩ hdir
  | token k =>
      rcases nextItem_seam_token hlast.ne_nil hlast.item with ⟨P, hPmem, -, hP⟩
      have hgo (u : Str) (hu : u.headD 0 = ' ' ∨ u.headD 0 = '\n') :
          scanner.run ((v.start A).append u) = scanner.run ⟨e.stack, e.last, u.dropWhile P⟩ := by
        rw [hlast.run_append u, hl]
        exact run_of_item (c := b.append u) (hP u (noSign_of_break _ hu)) (Item.token_ne_stop k) hr
      have hstop : P '\n' = false := tailClasses_newline hPmem
      have hself : ((('\n' : Char) : Byte) :: B).dropWhile P = (('\n' : Char) : Byte) :: B :=
        List.dropWhile_cons_of_neg (by simp [hstop])
      refine ⟨?_, ?_⟩
      · rw [hgo _ (.inr rfl), hself]
      · -- the blank is part of the last token, or a token of its own
        rw [hgo _ (.inl rfl)]
        by_cases hb : P ' ' = true
        · rw [List.dropWhile_cons_of_pos hb, hself]
        · rw [List.dropWhile_cons_of_neg hb, run_dropBlanks, List.dropWhile_cons_of_pos (by decide),
            List.dropWhile_cons_of_neg (by decide)]

/-- The end of a `#` line: the word runs on, and takes what it meets. -/
theorem run_append_of_directive {b : Config} {w : Str} {st : Stack}
    (h : LastRead (v.start A) b (.directive w)) (hr : react b.stack (.directive w) = some st)
    {x : Str} (hx : ∀ c ∈ x, isRawChar c = true) :
    scanner.run ((v.start A).append ((('\n' : Char) : Byte) :: x)) = some ⟨st, .rawIdent, false⟩ := by
  rcases nextItem_seam_directive h.item with ⟨hb, hw⟩
  rw [h.run_append _]
  have hend : ((('\n' : Char) : Byte) :: x).dropWhile isRawChar = [] := by
    rw [List.dropWhile_eq_nil_iff]
    intro c hc
    rcases List.mem_cons.mp hc with rfl | hc
    · decide
    · exact hx c hc
  have hn := hw ((('\n' : Char) : Byte) :: x)
  rw [hend] at hn
  have hr' : react b.stack (.directive (w ++ ((('\n' : Char) : Byte) :: x).takeWhile isRawChar)) =
      some st := by
    rw [react_out hb] at hr ⊢
    rw [reactOut_directive_append _ _ (.inr rfl), hr]
  rw [run_of_item (c := b.append _) hn (Item.directive_ne_stop _) hr', run_nil]
  rfl

/-- In front of a blank the word ends. -/
theorem run_append_blank_of_directive {b : Config} {w : Str} {st : Stack}
    (h : LastRead (v.start A) b (.directive w)) (hr : react b.stack (.directive w) = some st)
    (B : Str) : scanner.run ((v.start A).append ((' ' : Char) :: (('\n' : Char) : Byte) :: B)) =
      scanner.run ⟨st, .unknown, B⟩ := by
  rcases nextItem_seam_directive h.item with ⟨hb, hw⟩
  rw [h.run_append _]
  have hn := hw ((' ' : Char) :: (('\n' : Char) : Byte) :: B)
  rw [List.takeWhile_cons_of_neg (by decide), List.append_nil,
    List.dropWhile_cons_of_neg (by decide)] at hn
  rw [run_of_item (c := b.append _) hn (Item.directive_ne_stop _) hr, run_dropBlanks,
    List.dropWhile_cons_of_pos (by decide), List.dropWhile_cons_of_neg (by decide), run_newline]

/-- A `#` that waits for its word takes it from the next line. -/
theorem run_append_of_hash {b : Config} (h : LastRead (v.start A) b .stop) (h0 : 0 ∉ b.text)
    {x : Str} (hx : ∀ c ∈ x, isRawChar c = true) :
    scanner.run ((v.start A).append ((('\n' : Char) : Byte) :: x)) =
      some ⟨b.stack, .rawIdent, false⟩ := by
  rcases nextItem_seam_stop h.ne_nil h0 h.item with ⟨hb, -, hw⟩
  rw [h.run_append _]
  have hraw : ∀ c ∈ (('\n' : Char) : Byte) :: x, isRawChar c = true := by
    intro c hc
    rcases List.mem_cons.mp hc with rfl | hc
    · decide
    · exact hx c hc
  have hn := hw ((('\n' : Char) : Byte) :: x)
  rw [List.dropWhile_cons_of_neg (by decide), wordItem_cons (by decide),
    List.dropWhile_eq_nil_iff.mpr hraw] at hn
  have hr : react b.stack (.directive (((('\n' : Char) : Byte) :: x).takeWhile isRawChar)) =
      some b.stack := by
    have := reactOut_directive_append b.stack [] (u := (('\n' : Char) : Byte) :: x) (.inr rfl)
    rw [react_out hb, ← List.nil_append (List.takeWhile _ _), this]
    rfl
  rw [run_of_item (c := b.append _) hn (Item.directive_ne_stop _) hr, run_nil]
  rfl

end

/-! ## The line break behind an arbitrary text -/

/-- A blank put in front of a line break behind `A` makes no difference. -/
def BlankInsensitive (v : XInputValidator) (A : Str) : Prop :=
  ∀ B n, v.outcome (A ++ ((' ' : Char) : Byte) :: (('\n' : Char) : Byte) :: B) n =
    v.outcome (A ++ (('\n' : Char) : Byte) :: B) n

/-- What follows a line break behind `A` is scanned as it stands, from the state `v'` that `A`
leaves: every bracket of the next line counts. -/
def NextLineScanned (v : XInputValidator) (A : Str) (v' : XInputValidator) : Prop :=
  ¬ Interrupted v A → ∀ B n, v.outcome (A ++ (('\n' : Char) : Byte) :: B) n =
    v'.outcome ((('\n' : Char) : Byte) :: B) n

section

variable {v v' : XInputValidator} {A : Str} {n : Nat} {res : ValidationResult}

theorem outcome_append_newline (v : XInputValidator) (A B : Str) (n : Nat) :
    v.outcome (A ++ (('\n' : Char) : Byte) :: B) n =
      (scanner.run ((v.start A).append ((('\n' : Char) : Byte) :: B))).map
        fun r => (r.status, r.stack) := by
  rw [outcome_eq, start_append_of_break v A (.inr rfl) (beginsTemplate_newline B)]

theorem outcome_append_blank_newline (v : XInputValidator) (A B : Str) (n : Nat) :
    v.outcome (A ++ ((' ' : Char) : Byte) :: (('\n' : Char) : Byte) :: B) n =
      (scanner.run ((v.start A).append (((' ' : Char) : Byte) :: (('\n' : Char) : Byte) :: B))).map
        fun r => (r.status, r.stack) := by
  rw [outcome_eq, start_append_of_break v A (.inl rfl) (beginsTemplate_blank_newline B)]

/-- A text that starts with a line break is scanned from the stack it finds. -/
theorem outcome_newline (v : XInputValidator) (B : Str) (n : Nat) :
    v.outcome ((('\n' : Char) : Byte) :: B) n =
      (scanner.run ⟨v.parentStack, .unknown, B⟩).map fun r => (r.status, r.stack) := by
  rw [outcome_eq, XInputValidator.start, startStack, beginsTemplate_newline, if_neg (by simp),
    run_newline]

/-- The verdict on `A` stands behind a call that returned. -/
theorem verdict_of_validate (h : v.validate A n = some (res, v')) :
    ∃ r, scanner.run (v.start A) = some r ∧ v'.parentStack = r.stack := by
  rw [validate_eq] at h
  rcases Option.map_eq_some_iff.mp h with ⟨r, hr, heq⟩
  exact ⟨r, hr, (Prod.mk.inj heq).2 ▸ rfl⟩

theorem newline_of_not_directive (h : v.validate A n = some (res, v'))
    (hdir : ¬ EndsInDirective v A) : BlankInsensitive v A ∧ NextLineScanned v A v' := by
  rcases verdict_of_validate h with ⟨r, hrun, hst⟩
  rcases end_of_run hrun with ⟨e, it, rest, he, hn, hstack, -, hend⟩
  by_cases hnil : e.text = []
  · have hgo := run_append_newline he hnil hdir
    refine ⟨fun B n => ?_, fun _ B n => ?_⟩
    · rw [outcome_append_newline, outcome_append_blank_newline, (hgo B).1, (hgo B).2]
    · rw [outcome_append_newline, (hgo B).1, run_newline, outcome_newline, hst, hstack]
  · -- the scan of `A` is interrupted, and so it is at the same place in every longer text
    have hint : (it ≠ .stop ∧ react e.stack it = none) ∨ (it = .stop ∧ 0 ∈ e.text) := by
      rcases hend with ⟨rfl, -⟩ | ⟨hit, hr, -⟩
      · right
        refine ⟨rfl, ?_⟩
        by_contra h0
        rcases nextItem_seam_stop hnil h0 hn with ⟨-, rfl, -⟩
        exact hdir ⟨e, _, ⟨he, hnil, hn⟩, .inr ⟨rfl, h0⟩⟩
      · exact .inl ⟨hit, hr⟩
    refine ⟨fun B n => ?_, fun hno => absurd ⟨e, it, rest, he, hn, hint⟩ hno⟩
    rw [outcome_append_newline, outcome_append_blank_newline]
    have h1 := run_append_of_interrupt (u := ((' ' : Char) : Byte) :: (('\n' : Char) : Byte) :: B)
      he hnil hn (.inl rfl)
    have h2 := run_append_of_interrupt (u := (('\n' : Char) : Byte) :: B) he hnil hn (.inr rfl)
    rcases hint with ⟨hit, hr⟩ | ⟨hit, h0⟩
    · rw [h1.1 hit hr, h2.1 hit hr]
    · rw [h1.2 hit h0, h2.2 hit h0]

theorem not_newline_of_directive (h : v.validate A n = some (res, v'))
    (hc : inBlockComment v'.parentStack = false) (hdir : EndsInDirective v A) :
    ¬ (BlankInsensitive v A ∧ NextLineScanned v A v') := by
  rcases verdict_of_validate h with ⟨r, hrun, hst⟩
  have hraw : ∀ c ∈ [(('(' : Char) : Byte)], isRawChar c = true :=
    List.forall_mem_singleton.mpr (by decide)
  have hlen (st : Stack) : TokenKind.lParen :: st ≠ st := List.cons_ne_self _ _
  rcases hdir with ⟨b, it, hlast, ⟨w, rfl, hr⟩ | ⟨rfl, h0⟩⟩
  · -- the bracket is part of the word, and behind a blank it is not
    rcases Option.ne_none_iff_exists'.mp hr with ⟨st, hst'⟩
    have hrun' := run_of_item hlast.item (Item.directive_ne_stop _) hst'
    rw [← Machine.run_eq_of_reaches hlast.reaches, hrun, run_nil] at hrun'
    have hstack : r.stack = st := congrArg Verdict.stack (Option.some.inj hrun')
    rintro ⟨hblank, -⟩
    have heq := hblank [(('(' : Char) : Byte)] 0
    rw [outcome_append_newline, outcome_append_blank_newline,
      run_append_blank_of_directive hlast hst', run_append_of_directive hlast hst' hraw,
      run_lParen (by rw [← hstack, ← hst, hc])] at heq
    exact hlen st (Prod.mk.inj (Option.some.inj heq)).2
  · -- the bracket becomes the word of the bare `#`
    have hrun' := run_of_stop hlast.item
    rw [← Machine.run_eq_of_reaches hlast.reaches, hrun] at hrun'
    have hstack : r.stack = b.stack := congrArg Verdict.stack (Option.some.inj hrun')
    have hno : ¬ Interrupted v A := by
      rintro ⟨e, it, rest, he, hn, hint⟩
      have hend : ∀ a, scanner.move e ≠ .next a := by
        intro a ha
        rcases scanMove_eq_next_iff.mp ha with ⟨it', hn', hit', hr', -⟩
        obtain ⟨rfl, -⟩ := Prod.mk.inj (Option.some.inj (hn.symm.trans hn'))
        rcases hint with ⟨-, hr⟩ | ⟨hit, -⟩
        · rw [hr] at hr'
          exact absurd hr' (by simp)
        · exact hit' hit
      have hend' : ∀ a, scanner.move b ≠ .next a := by
        intro a ha
        rcases scanMove_eq_next_iff.mp ha with ⟨it', hn', hit', -⟩
        exact hit' (Prod.mk.inj (Option.some.inj (hlast.item.symm.trans hn'))).1.symm
      obtain rfl := hlast.reaches.eq_of_ends he hend' hend
      obtain ⟨rfl, -⟩ := Prod.mk.inj (Option.some.inj (hn.symm.trans hlast.item))
      rcases hint with ⟨hit, -⟩ | ⟨-, h0'⟩
      · exact hit rfl
      · exact h0 h0'
    rintro ⟨-, hnext⟩
    have heq := hnext hno [(('(' : Char) : Byte)] 0
    rw [outcome_append_newline, run_append_of_hash hlast h0 hraw, outcome_newline, run_lParen hc,
      hst, hstack] at heq
    exact hlen b.stack (Prod.mk.inj (Option.some.inj heq)).2.symm

end

/-- **A directive takes text from the next line exactly when it ends its own line**: behind any other
text, outside literals and block comments, the line break separates. -/
theorem newline_separates_iff (v v' : XInputValidator) (A : Str) (n : Nat) (res : ValidationResult)
    (h : v.validate A n = some (res, v')) (hc : inBlockComment v'.parentStack = false) :
    (BlankInsensitive v A ∧ NextLineScanned v A v') ↔ ¬ EndsInDirective v A :=
  ⟨fun hsep hdir => not_newline_of_directive h hc hdir hsep, newline_of_not_directive h⟩

theorem newline_separates_int_x :
    (BlankInsensitive {} (lit "int x;") ∧ NextLineScanned {} (lit "int x;") {}) ↔
      ¬ EndsInDirective {} (lit "int x;") :=
  newline_separates_iff {} {} (lit "int x;") 4 .complete (by decide +kernel) (by decide)

/-- A body with a conditional group, closed on the line behind `#endif`: with a blank behind the
directive it is complete, without it the `}` is lost. -/
theorem endif_takes_the_next_line :
    let A := lit "void f() \x7b\n#ifdef X\nfoo();\n#endif"
    let B := lit "\x7d"
    ({} : XInputValidator).outcome (A ++ (('\n' : Char) : Byte) :: B) 4 =
        some (.incomplete, [.lBrace]) ∧
      ({} : XInputValidator).outcome (A ++ ((' ' : Char) : Byte) :: (('\n' : Char) : Byte) :: B) 4 =
        some (.complete, []) := by
  decide +kernel

end XeusCpp.Validator
