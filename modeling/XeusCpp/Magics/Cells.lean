/-
# XeusCpp.Magics.Cells — where a magic's text ends.

`xmagics_manager::apply` finds the arguments of a magic with a regular expression that is not
anchored at the end of the cell, so a magic may be given less than the cell holds. For any text
behind the percent signs, `cellParts` is what a cell magic is given (`search_splitMagicCell_eq`) and
`lineHeader` what a line magic is given (`search_splitMagicLine_eq`), written with longest runs.
-/
import XeusCpp.Magics.Split

namespace XeusCpp.Magics

open Text Host Regex

/-! ## The header and the body of a cell -/

/-- The header and the body behind `%%`. A header goes on behind white space, also behind a line
feed, to the end of that line; a line feed has to follow. The body ends at a carriage return. -/
def cellParts (t : Str) : Option (Str × Str) :=
  let name := t.takeWhile isWord
  match t.dropWhile isWord with
  | [] => none
  | x :: v =>
      if isspace x then
        if (v.dropWhile isDot).head? = some (('\n' : Char) : Byte) then
          some (name ++ x :: v.takeWhile isDot, beforeReturn (v.dropWhile isDot).tail)
        else if x = '\n' then some (name, beforeReturn v)
        else none
      else none

/-- Where the header and the body come from. -/
theorem cellParts_cases {t h b : Str} (hparts : cellParts t = some (h, b)) :
    ∃ x v, t = t.takeWhile isWord ++ x :: v ∧ isspace x = true ∧
      ((v.dropWhile isDot).head? = some (('\n' : Char) : Byte) ∧
          h = t.takeWhile isWord ++ x :: v.takeWhile isDot ∧
          b = beforeReturn (v.dropWhile isDot).tail ∨
        (v.dropWhile isDot).head? ≠ some (('\n' : Char) : Byte) ∧ x = ('\n' : Char) ∧
          h = t.takeWhile isWord ∧ b = beforeReturn v) := by
  have hsplit := List.takeWhile_append_dropWhile (p := isWord) (l := t)
  unfold cellParts at hparts
  cases hu : t.dropWhile isWord with
  | nil =>
      rw [hu] at hparts
      simp at hparts
  | cons x v =>
      rw [hu] at hparts hsplit
      simp only at hparts
      split_ifs at hparts with hx hfeed hbare
      · obtain ⟨rfl, rfl⟩ := Prod.mk.inj (Option.some.inj hparts)
        exact ⟨x, v, hsplit.symm, hx, .inl ⟨hfeed, rfl, rfl⟩⟩
      · obtain ⟨rfl, rfl⟩ := Prod.mk.inj (Option.some.inj hparts)
        exact ⟨x, v, hsplit.symm, hx, .inr ⟨hfeed, hbare, rfl, rfl⟩⟩

/-- How a header is read: a name, or a name, white space and the rest of a line. -/
theorem reads_header {c d : Cursor} (h : Reads header c d) :
    ∃ w, (∀ y ∈ w, isWord y = true) ∧ (c.rest = w ++ d.rest ∨ ∃ x v, isspace x = true ∧
      (∀ y ∈ v, isDot y = true) ∧ c.rest = w ++ x :: (v ++ d.rest)) := by
  cases h with
  | @seq _ _ _ m _ hname hrest =>
      have hword : Consumes (isWord · = true) c m := by
        cases hname with
        | seq hfirst hmore =>
            obtain ⟨y, hy, hyw⟩ := reads_set hfirst
            have hone : Consumes (isWord · = true) c _ :=
              ⟨[y], hy, fun z hz => by rw [List.mem_singleton.mp hz]; exact hyw⟩
            exact hone.trans (reads_star_set hmore)
      obtain ⟨w, hw, hwword⟩ := hword
      refine ⟨w, hwword, ?_⟩
      rcases reads_opt hrest with hspaced | rfl
      · right
        cases hspaced with
        | seq hx hv =>
            obtain ⟨x, hxrest, hxs⟩ := reads_set hx
            obtain ⟨v, hvrest, hvdot⟩ := reads_star_set hv
            exact ⟨x, v, hxs, hvdot, by rw [hw, hxrest, hvrest]⟩
      · exact .inl hw

theorem dropWhile_name {w u : Str} (hw : ∀ y ∈ w, isWord y = true)
    (hu : ∀ y ∈ u.head?, isWord y = false) : (w ++ u).dropWhile isWord = u := by
  rw [dropWhile_append_of_delim hu, List.dropWhile_eq_nil_iff.mpr hw, List.nil_append]

theorem dropWhile_line {v u : Str} (hv : ∀ y ∈ v, isDot y = true)
    (hu : ∀ y ∈ u.head?, isDot y = false) : (v ++ u).dropWhile isDot = u := by
  rw [dropWhile_append_of_delim hu, List.dropWhile_eq_nil_iff.mpr hv, List.nil_append]

/-- A header with a line feed behind it has two parts. -/
theorem cellParts_of_reads {t : Str} {d : Cursor} (h : Reads header (behindPercents t) d)
    (hfeed : d.rest.head? = some (('\n' : Char) : Byte)) : cellParts t ≠ none := by
  obtain ⟨r, hr⟩ := List.head?_eq_some_iff.mp hfeed
  have hdot : ∀ y ∈ d.rest.head?, isDot y = false := by
    rw [hfeed]
    simpa using isDot_feed
  obtain ⟨w, hw, hbare | ⟨x, v, hx, hv, hspaced⟩⟩ := reads_header h
  · have ht : t.dropWhile isWord = (('\n' : Char) : Byte) :: r := by
      have : t = w ++ d.rest := hbare
      rw [this, hr]
      exact dropWhile_name hw (by simpa using isWord_of_isspace _ isspace_feed)
    unfold cellParts
    simp only [ht, isspace_feed, if_true]
    split
    · simp
    · simp
  · have ht : t.dropWhile isWord = x :: (v ++ d.rest) := by
      have : t = w ++ x :: (v ++ d.rest) := hspaced
      rw [this]
      exact dropWhile_name hw (by simpa using isWord_of_isspace x hx)
    unfold cellParts
    simp only [ht, hx, if_true, dropWhile_line hv hdot, hfeed]
    simp

/-- **What a cell magic is given**, for every text behind the percent signs. -/
theorem search_splitMagicCell_eq {t : Str} (hname : t.takeWhile isWord ≠ []) :
    (search splitMagicCell (twoPercent t)).map (fun mt => (mt.str 1, mt.str 2)) = cellParts t := by
  cases hparts : cellParts t with
  | none =>
      -- a match would read a header with a line feed behind it
      have hnone : search splitMagicCell (twoPercent t) = none := by
        rw [search_splitMagicCell]
        apply exec_none
        intro d hd
        unfold body
        rw [exec_seq]
        apply exec_char_none
        intro hhead
        exact cellParts_of_reads hd hhead hparts
      rw [hnone]
      rfl
  | some p =>
      obtain ⟨h, b⟩ := p
      obtain ⟨x, v, ht, hx, hspaced | hbare⟩ := cellParts_cases hparts
      · obtain ⟨hfeed, rfl, rfl⟩ := hspaced
        obtain ⟨v₂, hv₂⟩ := List.head?_eq_some_iff.mp hfeed
        have hline : t = t.takeWhile isWord ++
            x :: (v.takeWhile isDot ++ (('\n' : Char) : Byte) :: v₂) := by
          rw [← hv₂, List.takeWhile_append_dropWhile]
          exact ht
        obtain ⟨mt, hmt, h₁, h₂⟩ := split_spaced (isName_takeWhile hname) hx hline
          (fun y hy => List.mem_takeWhile_imp hy)
        rw [hmt, Option.map_some, h₁, h₂, hv₂]
        rfl
      · obtain ⟨hfeed, rfl, rfl, rfl⟩ := hbare
        obtain ⟨mt, hmt, h₁, h₂⟩ := split_bare_line (isName_takeWhile hname) ht hfeed
        rw [hmt, Option.map_some, h₁, h₂]

/-- The two arguments, empty where there is no match. -/
theorem split_groups {t : Str} (hname : t.takeWhile isWord ≠ []) :
    group? (search splitMagicCell (twoPercent t)) 1 = ((cellParts t).map Prod.fst).getD [] ∧
      group? (search splitMagicCell (twoPercent t)) 2 = ((cellParts t).map Prod.snd).getD [] := by
  rw [← search_splitMagicCell_eq hname]
  cases search splitMagicCell (twoPercent t) <;> exact ⟨rfl, rfl⟩

/-! ## The line of a line magic -/

/-- The text behind `%`: a name, and with white space behind it the rest of that line. -/
def lineHeader (t : Str) : Str :=
  let name := t.takeWhile isWord
  match t.dropWhile isWord with
  | [] => name
  | x :: v => if isspace x then name ++ x :: v.takeWhile isDot else name

/-- **What a line magic is given**, for every text behind the percent sign. -/
theorem search_splitMagicLine_eq {t : Str} (hname : t.takeWhile isWord ≠ []) :
    group? (search splitMagicLine (onePercent t)) 1 = lineHeader t := by
  have hsplit := List.takeWhile_append_dropWhile (p := isWord) (l := t)
  have hbare (hspace : ∀ x ∈ (t.dropWhile isWord).head?, isspace x = false) :
      group? (search splitMagicLine (onePercent t)) 1 = t.takeWhile isWord := by
    have hword : ∀ x ∈ (t.dropWhile isWord).head?, isWord x = false := by
      intro x hx
      have hnot := List.head?_dropWhile_not isWord t
      rw [hx] at hnot
      simpa using hnot
    have hmatch := exec_header_bare (c := behindPercent t) (k := fun d =>
      some ((⟨0, onePercent t, []⟩ : Cursor).toMatch (d.capture 1 ((behindPercent t).upTo d))))
      (isName_takeWhile hname) hsplit.symm hword (fun x v hu hx => ?_) rfl
    · rw [search_splitMagicLine, hmatch]
      show (behindPercent t).upTo _ = _
      rw [Cursor.upTo_advance]
      exact take_takeWhile_length t
    · rw [hspace x (by rw [hu]; rfl)] at hx
      cases hx
  unfold lineHeader
  cases hu : t.dropWhile isWord with
  | nil => exact hbare (by rw [hu]; simp)
  | cons x v =>
      by_cases hx : isspace x = true
      · rw [hu] at hsplit
        obtain ⟨mt, hmt, h₁⟩ := line_spaced (isName_takeWhile hname) hx hsplit.symm
        rw [hmt, group?, h₁]
        simp only [hx, if_true]
      · simp only [hx]
        exact hbare (by rw [hu]; simpa using hx)

/-! ## What is called behind an ok reply -/

/-- The call of a cell magic, which is not made without a body. -/
def calledCell (t : Str) : List Invocation :=
  match cellParts t with
  | some (line, body) => if body = [] then [] else [.cell (t.takeWhile isWord) line body]
  | none => []

section Called

variable {m : Manager} {w : World} {a : Applied} {t : Str}

theorem cell_of_ok (hname : t.takeWhile isWord ≠ []) (h : m.apply (twoPercent t) .new w = some a)
    (hok : a.res.status = some .ok) : a.invoked = calledCell t := by
  obtain ⟨mt, hmt, hstr⟩ := search_reMagicCell hname
  by_cases hcontains : m.contains (t.takeWhile isWord) .cell = true
  · rw [apply_of_split rfl hcontains hname] at h
    obtain ⟨b, hb, rfl⟩ := Option.map_eq_some_iff.mp h
    show b.invoked = _
    rw [applyCell_invoked hb, (split_groups hname).1, (split_groups hname).2, calledCell]
    cases cellParts t with
    | none => rfl
    | some p => simp
  · -- an unknown name is answered with an error
    unfold Manager.apply Manager.cellPart at h
    rw [hmt] at h
    simp only [hstr, if_neg hcontains] at h
    cases h
    cases hok

theorem line_of_ok (hname : t.takeWhile isWord ≠ []) (h : m.apply (onePercent t) .new w = some a)
    (hok : a.res.status = some .ok) :
    a.invoked = [.line (t.takeWhile isWord) (lineHeader t)] := by
  obtain ⟨x, s, hx, hword⟩ := cons_of_takeWhile hname
  have hhead : t.head? ≠ some (('%' : Char) : Byte) := by
    rw [hx]
    rintro hpercent
    rw [Option.some.inj hpercent] at hword
    exact absurd hword (by decide)
  obtain ⟨mt, hmt, hstr⟩ := search_reMagicLine hname
  unfold Manager.apply Manager.cellPart at h
  rw [search_reMagicCell_onePercent hhead] at h
  simp only [Manager.linePart, hmt, hstr] at h
  split at h
  · obtain ⟨b, hb, rfl⟩ := Option.map_eq_some_iff.mp h
    show [] ++ b.invoked = _
    rw [applyLine_invoked hb, search_splitMagicLine_eq hname]
    rfl
  · cases h
    cases hok

/-- Behind an ok reply the cell has named a magic, which was called with what the patterns find. -/
theorem invoked_of_ok {code : Str} (h : m.apply code .new w = some a)
    (hok : a.res.status = some .ok) :
    (∃ t, code = twoPercent t ∧ t.takeWhile isWord ≠ [] ∧ a.invoked = calledCell t) ∨
      ∃ t, code = onePercent t ∧ t.takeWhile isWord ≠ [] ∧
        a.invoked = [.line (t.takeWhile isWord) (lineHeader t)] := by
  cases hcell : search reMagicCell code with
  | some mt =>
      obtain ⟨t, rfl⟩ := twoPercent_of_search hcell
      have hname : t.takeWhile isWord ≠ [] := by
        intro hname
        rw [search_reMagicCell_none hname] at hcell
        cases hcell
      exact .inl ⟨t, rfl, hname, cell_of_ok hname h hok⟩
  | none =>
      cases hline : search reMagicLine code with
      | some mt =>
          obtain ⟨t, rfl, hname⟩ := onePercent_of_search hline
          exact .inr ⟨t, rfl, hname, line_of_ok hname h hok⟩
      | none =>
          -- without a name the reply has no status
          unfold Manager.apply Manager.cellPart Manager.linePart at h
          rw [hcell] at h
          simp only [hline] at h
          cases h
          cases hok

end Called

end XeusCpp.Magics
