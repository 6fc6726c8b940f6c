/-
# XeusCpp.Interpreter.Tooltip — what a tooltip and a query look up.

Both reduce a text to the expression handed to `inspect`. A query drops its question mark. A tooltip
searches the text before the cursor for a pattern that ends there and begins with a run of word
characters: of a path of identifiers it keeps the last one.
-/
import XeusCpp.Interpreter.Inspect
import XeusCpp.Text.RegexReads

namespace XeusCpp.Interpreter

open Text Host Magics Regex

/-! ## Paths -/

structure Identifier where
  text : Str
  ne_nil : text ≠ []
  word : ∀ c ∈ text, isWord c = true
  not_digit : ∀ c ∈ text.head?, isdigit c = false

/-- What stands between two identifiers. -/
inductive Joint
  | scope
  | dot

def Joint.text : Joint → Str
  | scope => lit "::"
  | dot => lit "."

/-- At least two identifiers; all but the last one are followed by a joint. -/
structure Path where
  first : Identifier × Joint
  more : List (Identifier × Joint)
  last : Identifier

namespace Path

def stepText (x : Identifier × Joint) : Str := x.1.text ++ x.2.text

/-- The text before the last identifier. -/
def qualifier (e : Path) : Str := (e.first :: e.more).flatMap stepText

def text (e : Path) : Str := e.qualifier ++ e.last.text

/-- The qualifier ends in a joint. -/
theorem qualifier_eq (e : Path) :
    ∃ (u : Str) (z : Byte), e.qualifier = u ++ [z] ∧ isWord z = false := by
  obtain ⟨xs, x, hx⟩ : ∃ xs x, e.first :: e.more = xs ++ [x] :=
    ⟨_, _, (List.dropLast_append_getLast (List.cons_ne_nil _ _)).symm⟩
  obtain ⟨i, j⟩ := x
  have hqualifier : e.qualifier = xs.flatMap stepText ++ (i.text ++ j.text) := by
    rw [qualifier, hx, List.flatMap_append, List.flatMap_singleton]
    rfl
  cases j with
  | scope =>
      refine ⟨xs.flatMap stepText ++ i.text ++ lit ":", (':' : Char), ?_, by decide⟩
      rw [hqualifier, ← List.append_assoc, List.append_assoc (_ ++ i.text)]
      rfl
  | dot =>
      refine ⟨xs.flatMap stepText ++ i.text, ('.' : Char), ?_, by decide⟩
      rw [hqualifier, ← List.append_assoc]
      rfl

/-- A text that begins in the qualifier is no run of word characters, and ends in one. -/
theorem not_word (e : Path) {v w : Str} (hq : e.qualifier = v ++ w) (hw : w ≠ []) :
    ¬ ∀ c ∈ w ++ e.last.text, isWord c = true := by
  obtain ⟨u, z, hu, hz⟩ := e.qualifier_eq
  intro h
  have hmem : z ∈ w := by
    have hlast := congrArg List.getLast? (hq.symm.trans hu)
    rw [List.getLast?_append_of_ne_nil _ hw, List.getLast?_concat] at hlast
    exact List.mem_of_getLast? hlast
  rw [h z (List.mem_append_left _ hmem)] at hz
  cases hz

theorem last_word (e : Path) (s : Str) :
    ∃ y, (s ++ e.last.text).getLast? = some y ∧ isWord y = true := by
  have hne := e.last.ne_nil
  refine ⟨e.last.text.getLast hne, ?_, e.last.word _ (List.getLast_mem hne)⟩
  rw [List.getLast?_append_of_ne_nil _ hne, List.getLast?_eq_some_getLast hne]

end Path

/-! ## The tooltip -/

/-- What may stand behind the word characters. -/
def suffixes : Regex :=
  alt (seq (Regex.char ':') (Regex.char ':'))
    (alt (seq (Regex.char '<') (seq (star Regex.dot) (Regex.char '>')))
      (alt (seq (Regex.char '(') (seq (star Regex.dot) (Regex.char ')')))
        (seq (Regex.char '[') (seq (star Regex.dot) (Regex.char ']')))))

theorem reInspectRequest_eq : reInspectRequest =
    seq (group 1 (seq (star Regex.word) (opt suffixes)))
      (seq (star (group 2 (opt (Regex.char '.')))) eos) := rfl

theorem reads_bracketed {x y : Byte} {c d : Cursor}
    (h : Reads (seq (Regex.char x) (seq (star Regex.dot) (Regex.char y))) c d) :
    ∃ u, c.rest = u ++ y :: d.rest := by
  cases h with
  | seq hx hy =>
      obtain ⟨u, hu⟩ := reads_seq_char hy
      exact ⟨x :: u, by rw [reads_char hx, hu]; rfl⟩

/-- A suffix ends in a letter that is no word character. -/
theorem reads_suffixes {c d : Cursor} (h : Reads suffixes c d) :
    ∃ (u : Str) (z : Byte), c.rest = u ++ z :: d.rest ∧ isWord z = false := by
  rcases h with _ | _ | _ | _ | _ | h | h
  · obtain ⟨u, hu⟩ := reads_seq_char h
    exact ⟨u, _, hu, by decide⟩
  · rcases h with _ | _ | _ | _ | _ | h | h
    · obtain ⟨u, hu⟩ := reads_bracketed h
      exact ⟨u, _, hu, by decide⟩
    · rcases h with _ | _ | _ | _ | _ | h | h
      · obtain ⟨u, hu⟩ := reads_bracketed h
        exact ⟨u, _, hu, by decide⟩
      · obtain ⟨u, hu⟩ := reads_bracketed h
        exact ⟨u, _, hu, by decide⟩

theorem reads_dots {c d : Cursor} (h : Reads (star (group 2 (opt (Regex.char '.')))) c d) :
    Consumes (· = (('.' : Char) : Byte)) c d := by
  refine reads_star ?_ h
  intro c d hgroup
  cases hgroup with
  | group i hopt =>
      rcases reads_opt hopt with hdot | hsame
      · have hc := reads_char hdot
        exact ⟨[('.' : Char)], hc, fun x hx => List.mem_singleton.mp hx⟩
      · rw [hsame]
        exact Consumes.refl _ _

/-- A text whose last letter is a word character is matched only where it is all word characters. -/
theorem word_of_reads {s : Str} {pos : Nat} {d : Cursor} {y : Byte} (hy : s.getLast? = some y)
    (hword : isWord y = true) (h : Reads reInspectRequest ⟨pos, s, []⟩ d) :
    ∀ c ∈ s, isWord c = true := by
  rw [reInspectRequest_eq] at h
  cases h with
  | @seq _ _ _ m' _ hhead htail =>
    cases hhead with
    | @group _ _ _ m hhead =>
      cases hhead with
      | @seq _ _ _ w _ hw hopt =>
        cases htail with
        | @seq _ _ _ e _ hdots heos =>
          -- the last letter of what is left behind the word characters would end the text
          have hends : ∀ u z, s = u ++ [z] → isWord z = true := by
            intro u z hs
            rw [hs, List.getLast?_concat] at hy
            cases hy
            exact hword
          obtain ⟨v, hv, hvw⟩ := reads_star_set hw
          have hs : s = v ++ w.rest := hv
          have hrest : e.rest = [] := by
            cases heos with
            | eos hd => exact hd
          have hm : m.rest = [] := by
            obtain ⟨u, hu, hdot⟩ := reads_dots hdots
            rw [hrest, List.append_nil] at hu
            change m.rest = u at hu
            obtain ⟨t, ht⟩ := reads_suffix hopt
            rcases List.eq_nil_or_concat u with hnil | ⟨u', z, hconcat⟩
            · rw [hu, hnil]
            · have hz := hends (v ++ (t ++ u')) z (by
                rw [hs, ht, hu, hconcat]
                simp)
              rw [hdot z (by rw [hconcat]; simp)] at hz
              cases hz
          rcases reads_opt hopt with hsuffix | hsame
          · obtain ⟨u, z, hu, hz⟩ := reads_suffixes hsuffix
            rw [hm] at hu
            rw [hends (v ++ u) z (by rw [hs, hu, List.append_assoc])] at hz
            cases hz
          · rw [← hsame, hm, List.append_nil] at hs
            rw [hs]
            exact hvw

/-- A run of word characters is matched whole. -/
theorem matchAt_word {s : Str} (hword : ∀ c ∈ s, isWord c = true) (pos : Nat) :
    ∃ m, matchAt reInspectRequest pos s = some m ∧ m.text = s := by
  let c : Cursor := ⟨pos, s, []⟩
  let d : Cursor := c.advance s.length
  have hd : d.rest = [] := by simp [d, c]
  have htake : s.takeWhile isWord = s := List.takeWhile_eq_self_iff.mpr hword
  let d' : Cursor := d.capture 1 (c.upTo d)
  refine ⟨c.toMatch d', ?_, ?_⟩
  · -- no more dots, and the end of the text
    have hend : (seq (star (group 2 (opt (Regex.char '.')))) eos).exec
        (fun d => some (c.toMatch d)) d' = some (c.toMatch d') := by
      rw [exec_seq, exec_star]
      have hround : (fun e : Cursor => if e.rest.length < d'.rest.length then
          (star (group 2 (opt (Regex.char '.')))).exec (eos.exec fun d => some (c.toMatch d)) e
          else none) = fun _ => none := by
        funext e
        have hlen : d'.rest.length = 0 := by
          show d.rest.length = 0
          rw [hd]
          rfl
        rw [if_neg (by omega)]
      rw [hround, exec_reject]
      exact if_pos hd
    -- behind the word nothing is left that a suffix could read
    have hnone : ∀ k : Cursor → Option Match, suffixes.exec k d = none := by
      intro k
      apply exec_none
      intro e he
      obtain ⟨u, z, hu, -⟩ := reads_suffixes he
      rw [hd] at hu
      exact absurd (congrArg List.length hu) (by simp)
    rw [reInspectRequest_eq, matchAt, exec_seq, exec_group, exec_seq]
    apply exec_star_set_longest
    show (opt suffixes).exec _ (c.advance (s.takeWhile isWord).length) = _
    rw [htake, opt, exec_alt_right (hnone _)]
    exact hend
  · show c.upTo d = s
    rw [Cursor.upTo_advance, List.take_length]

/-- Of a path the tooltip looks up the last identifier. -/
theorem requested_path (e : Path) : requested e.text e.text.length = some e.last.text := by
  obtain ⟨m, hm, htext⟩ := matchAt_word e.last.word (0 + e.qualifier.length)
  have hskip : ∀ v w, e.qualifier = v ++ w → w ≠ [] →
      matchAt reInspectRequest (0 + v.length) (w ++ e.last.text) = none := by
    intro v w hq hw
    obtain ⟨y, hy, hword⟩ := e.last_word w
    apply matchAt_none
    intro d hd
    exact e.not_word hq hw (word_of_reads hy hword hd)
  rw [requested, List.take_length, search, Path.text, searchFrom_skip hskip,
    searchFrom_of_matchAt hm, Option.map_some, htext]

/-! ## The query -/

/-- A query hands on what stands behind the question mark, up to the end of the line. -/
theorem introspected_eq {s : Str} (h : ∀ c ∈ s, isDot c = true) :
    introspected (lit "?" ++ s) = s :=
  (introspected_line s).trans (List.takeWhile_eq_self_iff.mpr h)

theorem isDot_of_isWord {c : Byte} (h : isWord c = true) : isDot c = true := by
  revert c
  decide +kernel

theorem Path.isDot (e : Path) : ∀ c ∈ e.text, Regex.isDot c = true := by
  have hstep : ∀ x : Identifier × Joint, ∀ c ∈ stepText x, Regex.isDot c = true := by
    rintro ⟨i, j⟩ c hc
    rcases List.mem_append.mp hc with hc | hc
    · exact isDot_of_isWord (i.word c hc)
    · cases j with
      | scope =>
          have hscope : ∀ c ∈ Joint.scope.text, Regex.isDot c = true := List.all_eq_true.mp rfl
          exact hscope c hc
      | dot =>
          have hdot : ∀ c ∈ Joint.dot.text, Regex.isDot c = true := List.all_eq_true.mp rfl
          exact hdot c hc
  intro c hc
  rcases List.mem_append.mp hc with hc | hc
  · obtain ⟨x, -, hx⟩ := List.mem_flatMap.mp hc
    exact hstep x c hx
  · exact isDot_of_isWord (e.last.word c hc)

/-! ## They never agree -/

/-- Both hand the same expression to the lookup, the whole path. -/
def HandsSameExpression (e : Path) : Prop :=
  requested e.text e.text.length = some (introspected (lit "?" ++ e.text))

/-- The query looks up the path, the tooltip its last identifier: never the same. -/
theorem tooltip_disagrees (e : Path) : ¬ HandsSameExpression e := by
  rw [HandsSameExpression, requested_path, introspected_eq e.isDot]
  intro h
  have hlen := congrArg List.length (Option.some.inj h)
  obtain ⟨u, z, hu, -⟩ := e.qualifier_eq
  rw [Path.text, hu, List.length_append, List.length_append, List.length_singleton] at hlen
  omega

/-- `std::vector` -/
def stdVector : Path where
  first := (⟨lit "std", by decide, by decide +kernel, by decide +kernel⟩, .scope)
  more := []
  last := ⟨lit "vector", by decide, by decide +kernel, by decide +kernel⟩

theorem tooltip_of_std_vector : ¬ HandsSameExpression stdVector := by
  unfold HandsSameExpression
  decide

end XeusCpp.Interpreter
