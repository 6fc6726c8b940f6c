/-
# XeusCpp.Assist.Header — which words of a cell `%%xassist` takes for its own.

The operator reads its model and its option from the text the manager hands it as the line, and asks
for the second word of it without looking whether there is one. That text is the header line of the
cell, unless the header is the name alone: then the first line of the body may be in it.

**`safely_parsed_iff`**: a cell is parsed safely exactly when its header line has a second word.
-/
import XeusCpp.Assist.Reset
import XeusCpp.Magics.Cells

namespace XeusCpp.Assist

open Text Host Magics Regex

/-! ## The words of a line -/

/-- The words of the header line behind the name of the magic: the model, the option, and more. -/
def headerWords (code : Str) : List Str := (tokens (getline code)).drop 1

/-- The words the operator may take as the model and the option. -/
def taken (line : Str) : List Str := ((tokens line).drop 1).take 2

theorem command_of_words {line name model : Str} {rest : List Str}
    (h : tokens line = name :: model :: rest) : command line ≠ .undefined ∧
      (model ∉ models → command line = .unknown) := by
  unfold command
  rw [h]
  dsimp only
  constructor
  · split
    · simp
    · split
      · simp
      · split_ifs <;> simp
  · intro hmodel
    rw [if_pos hmodel]

theorem command_undefined {line : Str} (h : (tokens line).drop 1 = []) :
    command line = .undefined := by
  unfold command
  have hlen := List.drop_eq_nil_iff.mp h
  split
  next heq =>
    rw [heq] at hlen
    simp at hlen
  next => rfl

section Library

variable {J : Type} {lib : JsonLibrary J}

theorem xassist_eq_none_iff {line cell : Str} {response : Except Str Str} {w : World} :
    xassist lib line cell response w = none ↔ command line = .undefined := by
  unfold xassist
  cases command line <;> simp

/-- The call stays within the words of its line, refuses a model that is missing or not supported
before it does anything, and takes no word for a model or an option that the header line does not
have there. -/
structure SafelyParsed (lib : JsonLibrary J) (code line cell : Str) : Prop where
  inBounds : ∀ response w, xassist lib line cell response w ≠ none
  refuses : (∀ model ∈ (headerWords code).head?, model ∉ models) → ∀ response w,
    ∃ w', xassist lib line cell response w = some w' ∧ w'.disk = w.disk ∧ w'.requests = w.requests
  ownWords : taken line = (headerWords code).take 2

end Library

/-! ## The line a cell is called with -/

/-- The rest of a line up to a line feed has no other line break in it. -/
theorem getline_of_feed {v : Str} (h : (v.dropWhile isDot).head? = some (('\n' : Char) : Byte)) :
    getline v = v.takeWhile isDot := by
  obtain ⟨u, hu⟩ := List.head?_eq_some_iff.mp h
  have hline : ∀ c ∈ v.takeWhile isDot, (c != (('\n' : Char) : Byte)) = true := by
    intro c hc
    have hdot : isDot c = true := List.mem_takeWhile_imp hc
    simp only [bne_iff_ne, ne_eq]
    rintro rfl
    rw [isDot_feed] at hdot
    cases hdot
  have hv : v = v.takeWhile isDot ++ (('\n' : Char) : Byte) :: u := by
    rw [← hu, List.takeWhile_append_dropWhile]
  unfold getline
  conv_lhs => rw [hv]
  rw [List.takeWhile_append_of_pos hline]
  simp

/-- The line is the header line, unless a line feed stands right behind the name: then it is the
name, or the name and the first line of the body. -/
theorem line_of_cellParts {name t h b : Str} (hname : t.takeWhile isWord = name)
    (hparts : cellParts t = some (h, b)) :
    ∃ x v, t = name ++ x :: v ∧ isspace x = true ∧
      (x ≠ (('\n' : Char) : Byte) ∧ h = name ++ x :: getline v ∨
        x = ('\n' : Char) ∧ (h = name ∨ h = name ++ x :: v.takeWhile isDot)) := by
  subst hname
  obtain ⟨x, v, ht, hx, ⟨hfeed, hline, -⟩ | ⟨-, hbare, hline, -⟩⟩ := cellParts_cases hparts
  · refine ⟨x, v, ht, hx, ?_⟩
    by_cases hbare : x = ('\n' : Char)
    · exact .inr ⟨hbare, .inr hline⟩
    · exact .inl ⟨hbare, by rw [hline, getline_of_feed hfeed]⟩
  · exact ⟨x, v, ht, hx, .inr ⟨hbare, .inl hline⟩⟩

/-! ## The cell -/

theorem isToken_xassist : IsToken (lit "xassist") := by decide

theorem isToken_code : IsToken (lit "%%xassist") := by decide

/-- Behind a line feed no word belongs to the header line. -/
theorem headerWords_feed (v : Str) :
    headerWords (lit "%%xassist" ++ (('\n' : Char) : Byte) :: v) = [] := by
  have hline : getline (lit "%%xassist" ++ (('\n' : Char) : Byte) :: v) = lit "%%xassist" := by
    show getline (lit "%%xassist\n" ++ v) = _
    rfl
  rw [headerWords, hline, tokens_of_isToken isToken_code]
  rfl

theorem headerWords_space {x : Byte} (hx : isspace x = true) (hfeed : x ≠ (('\n' : Char) : Byte))
    (v : Str) : headerWords (lit "%%xassist" ++ x :: v) = tokens (getline v) := by
  have hline : getline (lit "%%xassist" ++ x :: v) = lit "%%xassist" ++ x :: getline v := by
    show lit "%%xassist" ++ (x :: v).takeWhile (· != (('\n' : Char) : Byte)) = _
    rw [List.takeWhile_cons_of_pos (by simpa using hfeed)]
    rfl
  rw [headerWords, hline, tokens_append_space isToken_code hx]
  rfl

section Cell

variable {J : Type} {lib : JsonLibrary J} {m : Manager} {res : KernelRes} {w : World}
  {code h b : Str}

/-- A word that the header line has behind the name is behind the name in the line, too. -/
theorem safelyParsed_of_words (hwords : headerWords code ≠ [])
    (hline : (tokens h).drop 1 = headerWords code) : SafelyParsed lib code h b := by
  obtain ⟨model, rest, hmodel⟩ := List.exists_cons_of_ne_nil hwords
  obtain ⟨name, hname⟩ : ∃ name, tokens h = name :: model :: rest := by
    rw [hmodel] at hline
    cases hh : tokens h with
    | nil =>
        rw [hh] at hline
        cases hline
    | cons name words =>
        rw [hh] at hline
        exact ⟨name, congrArg (name :: ·) hline⟩
  obtain ⟨hdefined, hunknown⟩ := command_of_words hname
  refine ⟨?_, ?_, ?_⟩
  · intro response w
    exact mt xassist_eq_none_iff.mp hdefined
  · intro hunsupported response w
    have hcommand := hunknown (hunsupported model (by rw [hmodel]; rfl))
    refine ⟨w.cerr (lit "Model not found.\n"), ?_, rfl, rfl⟩
    rw [xassist, hcommand]
  · rw [taken, hline]

/-- A header line without a second word is never parsed safely: the line has none either, or has it
from the body. -/
theorem not_safelyParsed (hwords : headerWords code = []) : ¬SafelyParsed lib code h b := by
  rintro ⟨hin, -, hown⟩
  have hnone : (tokens h).drop 1 = [] := by
    rw [hwords, taken] at hown
    simpa using hown
  exact hin (.ok []) .fresh (xassist_eq_none_iff.mpr (command_undefined hnone))

/-- **A cell is parsed safely exactly when its header line has a second word**, for every text that
is handed to the operator. -/
theorem safely_parsed_iff (lib : JsonLibrary J) (hcode : lit "%%xassist" <+: code)
    (hi : Invokes m code res w [.cell (lit "xassist") h b]) :
    SafelyParsed lib code h b ↔ headerWords code ≠ [] := by
  obtain ⟨u, rfl⟩ := hcode
  have htwo : lit "%%xassist" ++ u = twoPercent (lit "xassist" ++ u) := rfl
  rw [htwo] at hi
  obtain ⟨-, hrun, h₁, h₂, hb⟩ := invokes_cell hi
  constructor
  · intro hsafe hwords
    exact not_safelyParsed hwords hsafe
  · intro hwords
    have hparts : cellParts (lit "xassist" ++ u) = some (h, b) := by
      obtain ⟨hline, hbody⟩ := split_groups (t := lit "xassist" ++ u) (by rw [← hrun]; decide)
      rw [h₁] at hline
      rw [h₂] at hbody
      cases hcell : cellParts (lit "xassist" ++ u) with
      | none =>
          rw [hcell] at hbody
          exact absurd hbody hb
      | some p =>
          rw [hcell] at hline hbody
          exact congrArg some (Prod.ext hline.symm hbody.symm)
    obtain ⟨x, v, hu, hx, hline⟩ := line_of_cellParts hrun.symm hparts
    obtain rfl := List.append_cancel_left hu
    rcases hline with ⟨hfeed, rfl⟩ | ⟨rfl, -⟩
    · apply safelyParsed_of_words hwords
      rw [headerWords_space hx hfeed, tokens_append_space isToken_xassist hx]
      rfl
    · exact absurd (headerWords_feed v) hwords

end Cell

/-- The options of the header line are the ones that are taken. -/
theorem safely_parsed_refresh :
    SafelyParsed jsonLibrary (resetCode (lit "gemini") ++ lit "\nx") (resetHeader (lit "gemini"))
      (lit "x") := by
  obtain ⟨f, hf, -⟩ := assistManager_xassist
  have hmodel : lit "gemini" ∈ models := by decide
  obtain ⟨mt, hmt, h₁, h₂⟩ := split_resetHeader hmodel (lit "x")
  have hcalled : Invokes assistManager (resetCode (lit "gemini") ++ lit "\nx") .new .fresh
      [.cell (lit "xassist") (resetHeader (lit "gemini")) (lit "x")] :=
    invokes_of_split (takeWhile_resetHeader (lit "gemini") (lit "\nx")) hf (by decide) hmt h₁ h₂
      (by decide)
  refine (safely_parsed_iff jsonLibrary ?_ hcalled).mpr (by decide)
  exact ⟨lit " gemini --refresh\nx", rfl⟩

/-- A bare name is handed over as the line, and has no second word. -/
theorem no_second_word :
    Invokes assistManager (lit "%%xassist\nbody") .new .fresh
        [.cell (lit "xassist") (lit "xassist") (lit "body")] ∧
      ¬SafelyParsed jsonLibrary (lit "%%xassist\nbody") (lit "xassist") (lit "body") := by
  constructor
  · obtain ⟨f, hf, -⟩ := assistManager_xassist
    obtain ⟨mt, hmt, h₁, h₂⟩ := split_bare (t := lit "xassist\nbody") (b := lit "body")
      isName_xassist rfl (by decide)
    exact invokes_of_split (by decide) hf (by decide) hmt h₁ h₂ (by decide)
  · exact not_safelyParsed (by decide)

end XeusCpp.Assist
