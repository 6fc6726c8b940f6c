/-
# XeusCpp.Validator.Frame — texts that are passed over.

A scan looks at the top of the stack only, so what it does on an empty stack it does on any stack, with
the rest left as it is (`react_frame`, `reaches_frame`). There is one exception: a `;` and a `}` look
whether a template is all there is below them, and pop its marker (`EndsTemplate`).

A text is passed over when its scan leaves every stack and asks for no more text. `SelfContained` says
which texts are, by their items alone: the brackets match, the end is outside comments, and outside
brackets there is nothing that ends a template. It is enough (`SelfContained.passedOver`), and three
places show that it is needed (`PassesTests.selfContained`).
-/
import XeusCpp.Validator.LineComment

namespace XeusCpp.Validator

open XeusCpp.Text XeusCpp.Logic

/-! ## The last token -/

/-- What a call shows of a verdict. -/
def Verdict.shown (r : Verdict) : ValidationResult × Stack := (r.status, r.stack)

/-- Two places in one text, with last tokens that both ask for more or both do not. -/
structure SameAhead (c c' : Config) : Prop where
  stack : c.stack = c'.stack
  text : c.text = c'.text
  last : isContinuation c.last = isContinuation c'.last

theorem shown_congr {st : Stack} {l l' : TokenKind} (h : isContinuation l = isContinuation l')
    (b : Bool) : (⟨st, l, b⟩ : Verdict).shown = (⟨st, l', b⟩ : Verdict).shown := by
  have hcont (k : TokenKind) : (k = .backslash ∨ k = .comma) ↔ isContinuation k = true := by
    unfold isContinuation
    rw [Bool.or_eq_true, decide_eq_true_eq, decide_eq_true_eq]
  unfold Verdict.shown Verdict.status
  simp only [← or_assoc, hcont, h]

theorem scanMove_match {c c' : Config} (h : SameAhead c c') :
    Move.Match SameAhead (fun r r' => r.shown = r'.shown) (scanMove c) (scanMove c') := by
  obtain ⟨st, l, t⟩ := c
  obtain ⟨st', l', t'⟩ := c'
  obtain ⟨rfl, rfl, hl⟩ : st = st' ∧ t = t' ∧ isContinuation l = isContinuation l' :=
    ⟨h.stack, h.text, h.last⟩
  cases hn : nextItem (inBlockComment st) t with
  | none =>
      rw [scanMove_of_none (c := ⟨st, l, t⟩) hn, scanMove_of_none (c := ⟨st, l', t⟩) hn]
      exact .stuck
  | some p =>
      obtain ⟨it, r⟩ := p
      rw [scanMove_of_item (c := ⟨st, l, t⟩) hn, scanMove_of_item (c := ⟨st, l', t⟩) hn]
      by_cases hit : it = .stop
      · rw [hit, takeItem_stop, takeItem_stop]
        exact .halt (shown_congr hl false)
      · cases hr : react st it with
        | none =>
            rw [takeItem_of_reject (c := ⟨st, l, t⟩) hit hr,
              takeItem_of_reject (c := ⟨st, l', t⟩) hit hr]
            exact .halt (shown_congr hl true)
        | some st' =>
            rw [takeItem_of_react (c := ⟨st, l, t⟩) hit hr,
              takeItem_of_react (c := ⟨st, l', t⟩) hit hr]
            refine .next ⟨rfl, rfl, ?_⟩
            rw [continued_lastAfter, continued_lastAfter, hl]

/-- **What a call shows** depends on the last token in one bit. -/
theorem run_shown {st : Stack} {l l' : TokenKind} (h : isContinuation l = isContinuation l')
    (t : Str) : (scanner.run ⟨st, l, t⟩).map Verdict.shown =
      (scanner.run ⟨st, l', t⟩).map Verdict.shown := by
  have hahead : SameAhead ⟨st, l, t⟩ ⟨st, l', t⟩ := ⟨rfl, rfl, h⟩
  have hrel : Option.Rel (fun r r' => r.shown = r'.shown) (scanner.run ⟨st, l, t⟩)
      (scanner.run ⟨st, l', t⟩) := Machine.run_rel_of_bisim scanMove_match hahead
  generalize scanner.run ⟨st, l, t⟩ = o at hrel
  generalize scanner.run ⟨st, l', t⟩ = o' at hrel
  cases hrel with
  | none => rfl
  | some h => exact congrArg some h

/-! ## The frame rule -/

section

variable {s s' st : Stack} {it : Item}

/-- **The frame rule**: what an item does to a stack it does to it on top of any other. -/
theorem react_frame (h : react s it = some s') (hs : .less ∉ s) (hst : inBlockComment st = false)
    (hT : st = [.less] → ¬ EndsTemplate s it) : react (s ++ st) it = some (s' ++ st) := by
  cases hb : inBlockComment s with
  | true =>
      have hne : s ≠ [] := by
        rintro rfl
        exact absurd hb (by decide)
      rw [react_in hb] at h
      rw [react_in ((inBlockComment_append hst).trans hb), ← Option.some.inj h]
      split
      · rw [List.tail_append_of_ne_nil hne]
      · rfl
  | false =>
      rw [react_out hb] at h
      rw [react_out ((inBlockComment_append hst).trans hb)]
      exact reactOut_frame h hs hT

end

/-- The same place in a scan that started on top of `st`. -/
def Config.on (c : Config) (st : Stack) : Config := ⟨c.stack ++ st, c.last, c.text⟩

section

variable {c e : Config} {st : Stack}

theorem scanMove_frame (h : scanMove c = .next e) (hs : .less ∉ c.stack)
    (hst : inBlockComment st = false) (hT : st = [.less] → ∀ it r,
      nextItem (inBlockComment c.stack) c.text = some (it, r) → ¬ EndsTemplate c.stack it) :
    scanMove (c.on st) = .next (e.on st) := by
  rcases scanMove_eq_next_iff.mp h with ⟨it, hn, hit, hr, hl⟩
  refine scanMove_eq_next_iff.mpr ⟨it, ?_, hit, ?_, hl⟩
  · show nextItem (inBlockComment (c.stack ++ st)) c.text = _
    rw [inBlockComment_append hst]
    exact hn
  · exact react_frame hr hs hst fun h => hT h it _ hn

/-- No item pushes the marker of a template. -/
theorem less_not_mem {l : TokenKind} {t : Str} (h : scanner.Reaches ⟨[], l, t⟩ e) :
    TokenKind.less ∉ e.stack := by
  obtain ⟨o, -, -, -, hst, hmono, -⟩ := reading_of_reaches (o := {}) h
  rw [hst, less_mem_stack_iff]
  exact fun ho => Bool.false_ne_true (hmono ho)

/-- The frame rule for runs. -/
theorem reaches_frame {l : TokenKind} {t : Str}
    (h : scanner.Reaches ⟨[], l, t⟩ e) (hst : inBlockComment st = false)
    (hT : st = [.less] → ∀ a it r, scanner.Reaches ⟨[], l, t⟩ a →
      nextItem (inBlockComment a.stack) a.text = some (it, r) → ¬ EndsTemplate a.stack it) :
    scanner.Reaches ⟨st, l, t⟩ (e.on st) := by
  induction h with
  | refl => exact .refl _
  | @tail a b hca hab ih =>
      exact ih.tail (scanMove_frame hab (less_not_mem hca) hst fun h it r => hT h a it r hca)

/-- On top of a template the run keeps its marker below it, or has popped it. -/
theorem reaches_on_template {l : TokenKind} {t : Str}
    (h : scanner.Reaches ⟨[], l, t⟩ e) : scanner.Reaches ⟨[.less], l, t⟩ (e.on [.less]) ∨
      scanner.Reaches ⟨[.less], l, t⟩ e := by
  induction h with
  | refl => exact .inl (.refl _)
  | @tail a b hca hab ih =>
      rcases ih with hon | hoff
      · rcases scanMove_eq_next_iff.mp hab with ⟨it, hn, hit, hr, hlast⟩
        by_cases hT : EndsTemplate a.stack it
        · right
          rcases react_endsTemplate hT with ⟨hnil, hpop⟩
          have hb : b.stack = [] := Option.some.inj (hr.symm.trans hnil)
          refine hon.tail (scanMove_eq_next_iff.mpr ⟨it, ?_, hit, hb ▸ hpop, hlast⟩)
          show nextItem (inBlockComment (a.stack ++ [.less])) a.text = _
          rw [inBlockComment_append rfl]
          exact hn
        · left
          refine hon.tail (scanMove_frame hab (less_not_mem hca) rfl fun _ it' r' hn' => ?_)
          obtain rfl : it = it' := (Prod.mk.inj (Option.some.inj (hn.symm.trans hn'))).1
          exact hT
      · exact .inr (hoff.tail hab)

/-- A text with an item that ends a template is scanned on top of one as without it. -/
theorem run_on_template {l : TokenKind} {t : Str} {a : Config} {it : Item} {r : Str}
    (h : scanner.Reaches ⟨[], l, t⟩ a)
    (hn : nextItem (inBlockComment a.stack) a.text = some (it, r)) (hT : EndsTemplate a.stack it) :
    scanner.run ⟨[.less], l, t⟩ = scanner.run ⟨[], l, t⟩ := by
  have hit : it ≠ .stop := by
    rintro rfl
    rcases hT with ⟨h, -⟩ | ⟨h, -⟩
    · exact absurd h (by simp)
    · exact absurd h (by simp)
  rcases react_endsTemplate hT with ⟨hr, hpop⟩
  rw [Machine.run_eq_of_reaches h, run_of_item hn hit hr]
  rcases reaches_on_template h with hon | hoff
  · have hn' : nextItem (inBlockComment (a.on [.less]).stack) (a.on [.less]).text = some (it, r) := by
      show nextItem (inBlockComment (a.stack ++ [.less])) a.text = _
      rw [inBlockComment_append rfl]
      exact hn
    rw [Machine.run_eq_of_reaches hon]
    exact run_of_item hn' hit hpop
  · rw [Machine.run_eq_of_reaches hoff]
    exact run_of_item hn hit hr

end

/-! ## Texts that are passed over -/

/-- Blanks, or nothing, stand in front. -/
def StartsBlank (B : Str) : Prop := ∀ d ∈ B.head?, isWhitespace d = true

/-- Behind the stack `st` and in front of `B` the text does not change what is shown. -/
def PassedOverAt (st : Stack) (B t : Str) : Prop :=
  ∀ l, isContinuation l = false →
    (scanner.run ⟨st, l, t ++ B⟩).map Verdict.shown = (scanner.run ⟨st, l, B⟩).map Verdict.shown

/-- Outside comments the text does not change what is shown, whatever is open in front of it and
whatever stands behind it, behind blanks. -/
def PassedOver (t : Str) : Prop :=
  ∀ st B, inBlockComment st = false → StartsBlank B → PassedOverAt st B t

/-- Three of these places; they tell the texts that are passed over from the others. -/
structure PassesTests (t : Str) : Prop where
  alone : PassedOverAt [] [] t
  bracket : PassedOverAt [] (lit " (") t
  template : PassedOverAt [.less] [] t

/-- The text has a `;` outside its brackets, or a `}` that closes the outermost of them. -/
def HasTemplateEnd (t : Str) : Prop :=
  ∃ c w s it r ks, Reading t false c w s ∧ Leaves w ks ∧ nextItem false s = some (it, r) ∧
    ((it = .token .semicolon ∧ ks = []) ∨ (it = .token .rBrace ∧ ks = [.brace]))

/-- The last item of the text is a line comment. -/
def HasOpenLine (t : Str) : Prop :=
  ∃ c w s it ks, Reading t false c w s ∧ Leaves w ks ∧ nextItem false s = some (it, []) ∧
    lit "//" <+: s

/-- The items of the text are balanced brackets; it ends outside comments, asks for no more text, and
ends no template. -/
structure SelfContained (t : Str) : Prop where
  balanced : ∃ w, Reading t false false w [] ∧ Balanced w
  line : ¬ HasOpenLine t
  template : ¬ HasTemplateEnd t

section

variable {t : Str} {l : TokenKind}

/-- Where the scan from an empty stack stands, the items in front are brackets. -/
theorem reading_of_reaches_out (hl : isContinuation l = false) {e : Config}
    (h : scanner.Reaches ⟨[], l, t⟩ e) (hb : inBlockComment e.stack = false) :
    ∃ w ks, Reading t false (isContinuation e.last) w e.text ∧ Leaves w ks ∧
      e.stack = markers ks := by
  obtain ⟨⟨⟨ks, template⟩, comment⟩, w, hread, hred, hst, hmono, -⟩ :=
    reading_of_reaches (o := {}) h
  rw [hst, inBlockComment_opened] at hb
  obtain rfl : comment = false := hb
  obtain rfl : template = false := by
    rw [← Bool.not_eq_true]
    exact fun ht => Bool.false_ne_true (hmono ht)
  rw [hl] at hread
  exact ⟨w, ks, hread, reduce_eq_ended_iff.mp hred, hst.trans (List.append_nil _)⟩

theorem reaches_of_reading_out (hl : isContinuation l = false) {c : Bool}
    {w : List (Sym BracketKind)} {s : Str} {ks : List BracketKind} (h : Reading t false c w s)
    (hw : Leaves w ks) : ∃ l', scanner.Reaches ⟨[], l, t⟩ ⟨markers ks, l', s⟩ ∧ isContinuation l' = c := by
  have hread : ReadingFrom ({} : Opened).comment (isContinuation l) t false c w s := by
    rw [hl]
    exact h
  obtain ⟨⟨⟨js, template⟩, comment⟩, l', hr, hc, rfl, rfl⟩ :=
    reaches_of_reading hread (reduce_eq_ended_iff.mpr hw)
  -- no template waits, for none was there
  have hless : TokenKind.less ∉ (⟨⟨js, template⟩, false⟩ : Opened).stack := less_not_mem hr
  rw [less_mem_stack_iff] at hless
  obtain rfl : template = false := by simpa using hless
  have hstack : (⟨⟨js, false⟩, false⟩ : Opened).stack = markers js := List.append_nil _
  exact ⟨l', hstack ▸ hr, hc⟩

theorem endsTemplate_markers_iff {ks : List BracketKind} {it : Item} :
    EndsTemplate (markers ks) it ↔
      (it = .token .semicolon ∧ ks = []) ∨ (it = .token .rBrace ∧ ks = [.brace]) := by
  have hnil : markers ks = [] ↔ ks = [] := List.map_eq_nil_iff
  have hbrace : markers ks = [.lBrace] ↔ ks = [.brace] := by
    rcases ks with _ | ⟨k, _ | ⟨k', ks⟩⟩
    · simp [markers]
    · cases k <;> simp [markers, BracketKind.marker]
    · simp [markers]
  rw [EndsTemplate, hnil, hbrace]

theorem SelfContained.not_endsTemplate (h : SelfContained t) (hl : isContinuation l = false)
    {a : Config} {it : Item} {r : Str} (ha : scanner.Reaches ⟨[], l, t⟩ a)
    (hn : nextItem (inBlockComment a.stack) a.text = some (it, r)) : ¬ EndsTemplate a.stack it := by
  intro hT
  have hb : inBlockComment a.stack = false := by
    rcases hT with ⟨-, hst⟩ | ⟨-, hst⟩
    · rw [hst]
      rfl
    · rw [hst]
      rfl
  rcases reading_of_reaches_out hl ha hb with ⟨w, ks, hread, hleaves, hst⟩
  rw [hst] at hT
  exact h.template ⟨_, w, a.text, it, r, ks, hread, hleaves, hb ▸ hn, endsTemplate_markers_iff.mp hT⟩

theorem SelfContained.reaches (h : SelfContained t) (hl : isContinuation l = false) :
    ∃ l', scanner.Reaches ⟨[], l, t⟩ ⟨[], l', []⟩ ∧ isContinuation l' = false := by
  rcases h.balanced with ⟨w, hread, hw⟩
  exact reaches_of_reading_out hl hread (.balanced hw)

/-- **A self-contained text is passed over.** -/
theorem SelfContained.passedOver (h : SelfContained t) : PassedOver t := by
  intro st B hst hB l hl
  rcases h.reaches hl with ⟨l', hr, hl'⟩
  have hframe {e : Config} (he : scanner.Reaches ⟨[], l, t⟩ e) :
      scanner.Reaches ⟨st, l, t⟩ (e.on st) :=
    reaches_frame he hst fun _ a it r ha hn => h.not_endsTemplate hl ha hn
  -- the last item of the text is the one read from an empty stack
  have hline : ∀ b it, LastRead ⟨st, l, t⟩ b it → inBlockComment b.stack = false →
      ¬ lit "//" <+: b.text := by
    intro b it hlast hb hpre
    have ht : t ≠ [] := by
      intro h0
      have hsuf := text_suffix_of_reaches hlast.reaches
      exact hlast.ne_nil (List.suffix_nil.mp (h0 ▸ hsuf))
    rcases lastRead_of_reaches hr rfl ht with ⟨a, it', ha, -⟩
    have hitem : nextItem (inBlockComment (a.on st).stack) (a.on st).text = some (it', []) := by
      show nextItem (inBlockComment (a.stack ++ st)) a.text = _
      rw [inBlockComment_append hst]
      exact ha.item
    rcases hlast.unique ⟨hframe ha.reaches, ha.ne_nil, hitem⟩ with ⟨rfl, -⟩
    have hba : inBlockComment a.stack = false := (inBlockComment_append hst).symm.trans hb
    rcases reading_of_reaches_out hl ha.reaches hba with ⟨w, ks, hread, hleaves, -⟩
    exact h.line ⟨_, w, a.text, it', ks, hread, hleaves, hba ▸ ha.item, hpre⟩
  have hu : ∀ d ∈ B.head?, isIdentChar d = false := fun d hd => not_ident_of_blank (hB d hd)
  have hsign (x : Str) : NoSign x B := by
    apply noSign_of_head
    cases B with
    | nil => decide
    | cons d B =>
        have hd := hB d rfl
        show d ≠ '/' ∧ d ≠ '*'
        constructor
        all_goals
          rintro rfl
          exact absurd hd (by decide)
  have hgo : scanner.run ⟨st, l, t ++ B⟩ = scanner.run ⟨st, l', B⟩ :=
    run_append_of_end (c := ⟨st, l, t⟩) (hframe hr) hu hline
      (fun b w _ _ d hd => not_raw_of_blank d (hB d hd)) fun b _ _ => hsign b.text
  rw [hgo]
  exact run_shown (hl'.trans hl.symm) B

/-- What a text that is passed over does on an empty stack. -/
theorem PassesTests.verdict (h : PassesTests t) : ∃ r, scanner.run ⟨[], .unknown, t⟩ = some r ∧
    r.rejected = false ∧ r.stack = [] ∧ isContinuation r.last = false := by
  have hshown := h.alone .unknown rfl
  rw [List.append_nil, run_nil] at hshown
  rcases Option.map_eq_some_iff.mp hshown with ⟨r, hrun, hr⟩
  have hstatus : r.status = .complete := congrArg Prod.fst hr
  rcases complete_status hstatus with ⟨hrej, hst⟩
  refine ⟨r, hrun, hrej, hst, ?_⟩
  rw [← Bool.not_eq_true]
  intro hcont
  rw [(status_eq_incomplete_iff r).mpr (.inl hcont)] at hstatus
  exact absurd hstatus (by decide)

/-- A bracket behind it is seen. -/
theorem PassesTests.sees_lParen (h : PassesTests t) {r : Verdict}
    (hrun : scanner.run ⟨[], .unknown, t ++ lit " ("⟩ = some r) : r.stack ≠ [] := by
  have hparen : scanner.run ⟨[], .unknown, lit " ("⟩ = some ⟨[.lParen], .lParen, false⟩ := by
    decide +kernel
  have hshown := h.bracket .unknown rfl
  rw [hrun, hparen] at hshown
  have hst : r.stack = [.lParen] := congrArg Prod.snd (Option.some.inj hshown)
  rw [hst]
  exact List.cons_ne_nil _ _

/-- A bare `#` ends in the `#` or in a blank. -/
theorem last_of_stop {s : Str} (hs : s ≠ []) (h0 : 0 ∉ s) {b : Bool} {r : Str}
    (hn : nextItem b s = some (.stop, r)) : ∀ d ∈ s.getLast?, d = '#' ∨ isWhitespace d = true := by
  rcases hash_of_stop hs h0 hn with ⟨-, lx, hl, hk, hend, -⟩
  rcases eq_hash_of_kind hl hk with ⟨u, rfl, hadv⟩
  rw [hadv] at hend
  intro d hd
  rcases List.mem_cons.mp (List.mem_of_getLast? hd) with hd | hd
  · exact .inl hd
  · exact .inr (List.dropWhile_eq_nil_iff.mp hend d hd)

/-- The scan of such a text comes to its end. -/
theorem PassesTests.reaches (h : PassesTests t)
    (hend : ∀ d ∈ t.getLast?, isWhitespace d = false ∧ d ≠ '#') :
    ∃ l', scanner.Reaches ⟨[], .unknown, t⟩ ⟨[], l', []⟩ ∧ isContinuation l' = false := by
  rcases h.verdict with ⟨r, hrun, hrej, hst, hcont⟩
  rcases end_of_run hrun with ⟨e, it, rest, he, hn, hst', hl, ⟨rfl, -⟩ | ⟨-, -, hrej'⟩⟩
  swap
  · rw [hrej] at hrej'
    exact absurd hrej' (by decide)
  by_cases hnil : e.text = []
  · have he' : e = ⟨[], r.last, []⟩ := by
      rw [hl, ← hst, hst', ← hnil]
    exact ⟨r.last, he' ▸ he, hcont⟩
  exfalso
  by_cases h0 : 0 ∈ e.text
  · -- behind a NUL nothing is seen
    rcases nextItem_append_nul h0 hn (lit " (") with ⟨rest', hn'⟩
    have hgo : scanner.run ⟨[], .unknown, t ++ lit " ("⟩ = some ⟨e.stack, e.last, false⟩ := by
      have happ := reaches_append he hnil (lit " (")
      exact (Machine.run_eq_of_reaches happ).trans (run_of_stop hn')
    exact h.sees_lParen hgo (hst'.symm.trans hst)
  · obtain ⟨d, hd⟩ := Option.isSome_iff_exists.mp (List.getLast?_isSome.mpr hnil)
    rcases hend d (mem_getLast?_of_suffix (text_suffix_of_reaches he) hd) with ⟨hblank, hhash⟩
    rcases last_of_stop hnil h0 hn d hd with hd | hd
    · exact hhash hd
    · rw [hblank] at hd
      exact absurd hd (by decide)

theorem PassesTests.not_hasOpenLine (h : PassesTests t) : ¬ HasOpenLine t := by
  rintro ⟨c, w, s, it, ks, hread, hleaves, hn, x, rfl⟩
  rcases h.verdict with ⟨r, hrun, -, hst, -⟩
  rcases reaches_of_reading_out (l := .unknown) rfl hread hleaves with ⟨l', hr, -⟩
  have hx : x.dropWhile isLineChar = [] := (Prod.mk.inj (Option.some.inj hn)).2
  have hb : inBlockComment (markers ks) = false := markers_not_comment ks
  have hnil : markers ks = [] := by
    rw [Machine.run_eq_of_reaches hr, run_line_comment hb, hx, run_nil] at hrun
    rw [← hst, ← Option.some.inj hrun]
  -- the comment takes what is put behind it
  have hgo : scanner.run ⟨[], .unknown, t ++ lit " ("⟩ = some ⟨markers ks, .unknown, false⟩ := by
    have happ : scanner.Reaches ⟨[], .unknown, t ++ lit " ("⟩
        ⟨markers ks, l', lit "//" ++ (x ++ lit " (")⟩ := by
      have := reaches_append hr (by simp [lit]) (lit " (")
      rwa [Config.append, Config.append, List.append_assoc] at this
    have hrest : (lit " (").dropWhile isLineChar = [] := by decide
    rw [Machine.run_eq_of_reaches happ, run_line_comment hb, dropWhile_append_of_nil hx, hrest,
      run_nil]
  exact h.sees_lParen hgo hnil

theorem PassesTests.not_hasTemplateEnd (h : PassesTests t) : ¬ HasTemplateEnd t := by
  rintro ⟨c, w, s, it, r, ks, hread, hleaves, hn, hT⟩
  rcases reaches_of_reading_out (l := .unknown) rfl hread hleaves with ⟨l', hr, -⟩
  have hn' : nextItem (inBlockComment (markers ks)) s = some (it, r) := by
    rw [markers_not_comment]
    exact hn
  have hgo := run_on_template hr hn' (endsTemplate_markers_iff.mpr hT)
  rcases h.verdict with ⟨v, hrun, -, hst, -⟩
  have hshown := h.template .unknown rfl
  rw [List.append_nil, hgo, hrun, run_nil] at hshown
  have hless : v.stack = [.less] := congrArg Prod.snd (Option.some.inj hshown)
  rw [hst] at hless
  exact List.cons_ne_nil _ _ hless.symm

/-- **The tests find the self-contained texts**, of those that do not end in a bare `#`. -/
theorem PassesTests.selfContained (h : PassesTests t)
    (hend : ∀ d ∈ t.getLast?, isWhitespace d = false ∧ d ≠ '#') : SelfContained t := by
  refine ⟨?_, h.not_hasOpenLine, h.not_hasTemplateEnd⟩
  rcases h.reaches hend with ⟨l', hr, hl'⟩
  rcases reading_of_reaches_out (l := .unknown) rfl hr rfl with ⟨w, ks, hread, hleaves, hst⟩
  have hks : ks = [] := List.map_eq_nil_iff.mp hst.symm
  rw [hl'] at hread
  rw [hks] at hleaves
  exact ⟨w, hread, leaves_nil_iff.mp hleaves⟩

end

end XeusCpp.Validator
