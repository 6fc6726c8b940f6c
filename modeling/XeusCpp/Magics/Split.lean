/-
# XeusCpp.Magics.Split — where a magic's header ends.

The regular expressions take a header to be a name, or a name, a white-space character and the rest
of that line. A line feed is white space, too: a bare name reaches over it into the first line of
the body, and the cell is split at its second line feed whenever there is one.

**`split_at_first_newline_iff`** says for which headers the split is at the first line feed.
-/
import XeusCpp.Magics.Manager
import XeusCpp.Text.RegexReads

namespace XeusCpp.Magics

open Text Host Regex

/-! ## The name -/

/-- What `\w+` can match. -/
def IsName (name : Str) : Prop := name ≠ [] ∧ ∀ c ∈ name, isWord c = true

instance (name : Str) : Decidable (IsName name) :=
  decidable_of_iff (name ≠ [] ∧ name.all isWord = true) (by simp [IsName])

theorem isWord_of_isspace : ∀ c : Byte, isspace c = true → isWord c = false := by decide +kernel

theorem takeWhile_name {name u : Str} (h : IsName name) (hu : ∀ c ∈ u.head?, isWord c = false) :
    (name ++ u).takeWhile isWord = name := by
  rw [takeWhile_append_of_delim hu]
  exact List.takeWhile_eq_self_iff.mpr h.2

theorem isName_takeWhile {t : Str} (h : t.takeWhile isWord ≠ []) : IsName (t.takeWhile isWord) :=
  ⟨h, fun _ hc => List.mem_takeWhile_imp hc⟩

section Name

variable {α : Type} {k : Cursor → Option α} {c : Cursor}

theorem cons_of_takeWhile {t : Str} (h : t.takeWhile isWord ≠ []) :
    ∃ x s, t = x :: s ∧ isWord x = true := by
  cases t with
  | nil => exact absurd rfl h
  | cons x s =>
      refine ⟨x, s, rfl, ?_⟩
      by_contra hx
      exact h (List.takeWhile_cons_of_neg hx)

theorem exec_words {x : α} (h : c.rest.takeWhile isWord ≠ [])
    (hk : k (c.advance (c.rest.takeWhile isWord).length) = some x) :
    (plus word).exec k c = some x := by
  obtain ⟨y, s, hc, hy⟩ := cons_of_takeWhile h
  exact exec_plus_set_longest hc hy hk

theorem exec_words_none (h : c.rest.takeWhile isWord = []) : (plus word).exec k c = none := by
  rw [plus, exec_seq]
  apply exec_set_of_neg
  intro x hx
  by_contra hw
  obtain ⟨s, hs⟩ := List.head?_eq_some_iff.mp hx
  rw [hs, List.takeWhile_cons_of_pos (by simpa using hw)] at h
  cases h

/-- The group of the name captures the whole run of word characters. -/
theorem exec_name {i : Nat} {x : α} (h : c.rest.takeWhile isWord ≠ [])
    (hk : k ((c.advance (c.rest.takeWhile isWord).length).capture i (c.rest.takeWhile isWord)) =
      some x) : (group i (plus word)).exec k c = some x := by
  rw [exec_group]
  apply exec_words h
  rw [Cursor.upTo_advance, take_takeWhile_length]
  exact hk

end Name

/-- A text that begins with `%%`. -/
def twoPercent (t : Str) : Str := lit "%%" ++ t

def onePercent (t : Str) : Str := lit "%" ++ t

theorem search_reMagicCell {t : Str} (h : t.takeWhile isWord ≠ []) :
    ∃ mt, search reMagicCell (twoPercent t) = some mt ∧ mt.str 1 = t.takeWhile isWord := by
  rw [reMagicCell, search_bos, matchAt, exec_seq, percent, exec_char (s := lit "%" ++ t) rfl,
    exec_seq, exec_char (s := t) rfl]
  refine ⟨_, exec_name h rfl, ?_⟩
  rfl

theorem search_reMagicCell_none {t : Str} (h : t.takeWhile isWord = []) :
    search reMagicCell (twoPercent t) = none := by
  rw [reMagicCell, search_bos, matchAt, exec_seq, percent, exec_char (s := lit "%" ++ t) rfl,
    exec_seq, exec_char (s := t) rfl]
  exact exec_words_none h

theorem search_reMagicLine {t : Str} (h : t.takeWhile isWord ≠ []) :
    ∃ mt, search reMagicLine (onePercent t) = some mt ∧ mt.str 1 = t.takeWhile isWord := by
  rw [reMagicLine, search_bos, matchAt, exec_seq, percent, exec_char (s := t) rfl]
  refine ⟨_, exec_name h rfl, ?_⟩
  rfl

theorem search_reMagicLine_none {t : Str} (h : t.takeWhile isWord = []) :
    search reMagicLine (onePercent t) = none := by
  rw [reMagicLine, search_bos, matchAt, exec_seq, percent, exec_char (s := t) rfl]
  exact exec_words_none h

/-- One percent sign is not two. -/
theorem search_reMagicCell_onePercent {t : Str} (h : t.head? ≠ some (('%' : Char) : Byte)) :
    search reMagicCell (onePercent t) = none := by
  rw [reMagicCell, search_bos, matchAt, exec_seq, percent, exec_char (s := t) rfl, exec_seq]
  exact exec_char_none h

/-- A cell magic is named behind two percent signs. -/
theorem twoPercent_of_search {code : Str} {mt : Match} (h : search reMagicCell code = some mt) :
    ∃ t, code = twoPercent t := by
  rw [reMagicCell, search_bos, matchAt] at h
  unfold percent at h
  cases code with
  | nil => cases h
  | cons x s =>
      by_cases hx : x = ('%' : Char)
      · subst hx
        cases s with
        | nil => cases h
        | cons y t =>
            by_cases hy : y = ('%' : Char)
            · subst hy
              exact ⟨t, rfl⟩
            · rw [exec_seq, exec_char (c := ⟨0, _, []⟩) rfl, exec_seq,
                exec_char_none (by simpa using hy)] at h
              cases h
      · rw [exec_seq, exec_char_none (by simpa using hx)] at h
        cases h

/-- A line magic is named behind one. -/
theorem onePercent_of_search {code : Str} {mt : Match} (h : search reMagicLine code = some mt) :
    ∃ t, code = onePercent t ∧ t.takeWhile isWord ≠ [] := by
  have hsearch := h
  rw [reMagicLine, search_bos, matchAt] at h
  unfold percent at h
  cases code with
  | nil => cases h
  | cons x t =>
      by_cases hx : x = ('%' : Char)
      · subst hx
        refine ⟨t, rfl, fun hname => ?_⟩
        have hnone : search reMagicLine (onePercent t) = none := search_reMagicLine_none hname
        rw [show onePercent t = _ from rfl] at hnone
        exact absurd (hsearch.symm.trans hnone) (by simp)
      · rw [exec_seq, exec_char_none (by simpa using hx)] at h
        cases h

/-! ## The header -/

section Header

variable {α : Type} {k : Cursor → Option α} {c : Cursor} {name : Str}

/-- A header whose name is followed by white space goes to the end of that line. -/
theorem exec_header_spaced {x : Byte} {v : Str} {a : α} (hname : IsName name)
    (hc : c.rest = name ++ x :: v) (hx : isspace x = true)
    (hk : k (c.advance (name.length + 1 + (v.takeWhile isDot).length)) = some a) :
    header.exec k c = some a := by
  have hrun : c.rest.takeWhile isWord = name := by
    rw [hc]
    exact takeWhile_name hname (by simpa using isWord_of_isspace x hx)
  have hrest : (c.advance name.length).rest = x :: v := by
    rw [Cursor.advance_rest, hc, List.drop_left]
  rw [header, exec_seq]
  apply exec_words
  · rw [hrun]
    exact hname.1
  · rw [hrun]
    apply exec_alt_left
    rw [exec_seq, space, exec_set_of_pos hrest hx, Cursor.advance_advance]
    have hrest' : (c.advance (name.length + 1)).rest = v := by
      rw [← Cursor.advance_advance, Cursor.advance_rest, hrest]
      rfl
    apply exec_star_set_longest
    rw [hrest', Cursor.advance_advance]
    exact hk

/-- A bare name, when no match goes on behind it. -/
theorem exec_header_bare {u : Str} {a : α} (hname : IsName name) (hc : c.rest = name ++ u)
    (hu : ∀ x ∈ u.head?, isWord x = false)
    (hfail : ∀ x v, u = x :: v → isspace x = true →
      ∀ i ≤ (v.takeWhile isDot).length, k (c.advance (name.length + 1 + i)) = none)
    (hk : k (c.advance name.length) = some a) : header.exec k c = some a := by
  have hrun : c.rest.takeWhile isWord = name := by
    rw [hc]
    exact takeWhile_name hname hu
  have hrest : (c.advance name.length).rest = u := by
    rw [Cursor.advance_rest, hc, List.drop_left]
  rw [header, exec_seq]
  apply exec_words
  · rw [hrun]
    exact hname.1
  · rw [hrun, opt, exec_alt_right]
    · exact hk
    rw [exec_seq, space]
    -- the optional part needs white space, and what it reads is refused by `hfail`
    cases u with
    | nil => exact exec_set_of_neg (by rw [hrest]; simp)
    | cons x v =>
        by_cases hx : isspace x = true
        · rw [exec_set_of_pos hrest hx, Cursor.advance_advance]
          have hrest' : (c.advance (name.length + 1)).rest = v := by
            rw [← Cursor.advance_advance, Cursor.advance_rest, hrest]
            rfl
          apply exec_star_set_none
          intro i hi
          rw [hrest'] at hi
          rw [Cursor.advance_advance]
          exact hfail x v rfl hx i hi
        · exact exec_set_of_neg (by rw [hrest]; simpa using hx)

end Header

/-! ## Splitting a cell -/

theorem isspace_feed : isspace (('\n' : Char) : Byte) = true := by decide

theorem isDot_feed : isDot (('\n' : Char) : Byte) = false := by decide

theorem isDot_of_not_mem {v : Str} (hfeed : (('\n' : Char) : Byte) ∉ v)
    (hcr : (('\r' : Char) : Byte) ∉ v) : ∀ c ∈ v, isDot c = true := by
  intro c hc
  by_contra hd
  rcases eq_feed_or_return (by simpa using hd) with rfl | rfl
  · exact hfeed hc
  · exact hcr hc

theorem takeWhile_line {v u : Str} (hv : ∀ c ∈ v, isDot c = true)
    (hu : ∀ c ∈ u.head?, isDot c = false) : (v ++ u).takeWhile isDot = v := by
  rw [takeWhile_append_of_delim hu]
  exact List.takeWhile_eq_self_iff.mpr hv

section Cell

variable {name v₁ v₂ : Str} {x : Byte}

/-- The match of the cell pattern behind `%%`. -/
def behindPercents (t : Str) : Cursor := ⟨2, t, []⟩

/-- What is left to match behind the header, and the match that results. -/
def body (t : Str) : Cursor → Option Match := fun d =>
  (seq (Regex.char '\n') (group 2 lines)).exec
    (fun e => some ((⟨0, twoPercent t, []⟩ : Cursor).toMatch e))
    (d.capture 1 ((behindPercents t).upTo d))

theorem search_splitMagicCell (t : Str) :
    search splitMagicCell (twoPercent t) = header.exec (body t) (behindPercents t) := by
  rw [splitMagicCell, search_bos, matchAt, exec_seq, percent, exec_char (s := lit "%" ++ t) rfl,
    exec_seq, exec_char (s := t) rfl, exec_seq, exec_group]
  rfl

/-- Behind a header that ends at a line feed the body goes to the first carriage return. -/
theorem body_at_feed {t h b : Str} (ht : t = h ++ (('\n' : Char) : Byte) :: b) :
    ∃ mt, body t ((behindPercents t).advance h.length) = some mt ∧ mt.str 1 = h ∧
      mt.str 2 = beforeReturn b := by
  have hrest : (behindPercents t).rest.drop h.length = (('\n' : Char) : Byte) :: b := by
    show t.drop h.length = _
    rw [ht, List.drop_left]
  have hup : (behindPercents t).upTo ((behindPercents t).advance h.length) = h := by
    rw [Cursor.upTo_advance]
    show t.take h.length = _
    rw [ht, List.take_left]
  unfold body
  rw [exec_seq, hup, exec_char (s := b) hrest, exec_group]
  have hb : ((((behindPercents t).advance h.length).capture 1 h).advance 1).rest = b := by
    rw [Cursor.advance_rest, Cursor.capture_rest, Cursor.advance_rest, hrest]
    rfl
  refine ⟨_, exec_lines rfl, ?_, ?_⟩
  · rfl
  · rw [Cursor.upTo_advance, hb, beforeReturn, take_takeWhile_length]
    rfl

/-- A header with white space behind its name: the cell is split at the next line feed. -/
theorem split_spaced {t : Str} (hname : IsName name) (hx : isspace x = true)
    (ht : t = name ++ x :: (v₁ ++ (('\n' : Char) : Byte) :: v₂)) (hv : ∀ c ∈ v₁, isDot c = true) :
    ∃ mt, search splitMagicCell (twoPercent t) = some mt ∧ mt.str 1 = name ++ x :: v₁ ∧
      mt.str 2 = beforeReturn v₂ := by
  obtain ⟨mt, hmt, h₁, h₂⟩ := body_at_feed (t := t) (h := name ++ x :: v₁) (b := v₂)
    (by rw [ht]; simp)
  refine ⟨mt, ?_, h₁, h₂⟩
  rw [search_splitMagicCell]
  apply exec_header_spaced hname ht hx
  rw [takeWhile_line hv (by simpa using isDot_feed), ← hmt, List.length_append, List.length_cons,
    Nat.add_assoc, Nat.add_comm 1]

/-- A bare name, when the line behind its line feed is the last one of the text. -/
theorem split_bare_line {t b : Str} (hname : IsName name)
    (ht : t = name ++ (('\n' : Char) : Byte) :: b)
    (hfeed : (b.dropWhile isDot).head? ≠ some (('\n' : Char) : Byte)) :
    ∃ mt, search splitMagicCell (twoPercent t) = some mt ∧ mt.str 1 = name ∧
      mt.str 2 = beforeReturn b := by
  obtain ⟨mt, hmt, h₁, h₂⟩ := body_at_feed ht
  refine ⟨mt, ?_, h₁, h₂⟩
  rw [search_splitMagicCell]
  refine exec_header_bare hname ht (by simpa using isWord_of_isspace _ isspace_feed) ?_ hmt
  intro x v hv _ i hi
  obtain ⟨rfl, rfl⟩ := List.cons.inj hv
  apply exec_char_none
  have hrest : ((behindPercents t).advance (name.length + 1 + i)).rest = b.drop i := by
    show t.drop (name.length + 1 + i) = _
    rw [ht, Nat.add_assoc, List.drop_length_add_append, Nat.add_comm 1 i, List.drop_succ_cons]
  rw [Cursor.capture_rest, hrest]
  -- inside the line stands no line feed, and none behind it
  rcases Nat.lt_or_eq_of_le hi with hlt | rfl
  · intro hhead
    have hsplit : b.drop i = (b.takeWhile isDot).drop i ++ b.dropWhile isDot := by
      conv_lhs => rw [← List.takeWhile_append_dropWhile (p := isDot) (l := b)]
      exact List.drop_append_of_le_length (Nat.le_of_lt hlt)
    have hget : (b.takeWhile isDot).drop i =
        (b.takeWhile isDot)[i] :: (b.takeWhile isDot).drop (i + 1) := List.drop_eq_getElem_cons hlt
    rw [hsplit, hget, List.cons_append, List.head?_cons, Option.some.injEq] at hhead
    have hdot := List.mem_takeWhile_imp (List.getElem_mem hlt)
    rw [hhead, isDot_feed] at hdot
    cases hdot
  · rw [drop_takeWhile_length]
    exact hfeed

/-- A bare name: the cell is split at its first line feed when there is no second one. -/
theorem split_bare {t b : Str} (hname : IsName name) (ht : t = name ++ (('\n' : Char) : Byte) :: b)
    (hfeed : (('\n' : Char) : Byte) ∉ b) :
    ∃ mt, search splitMagicCell (twoPercent t) = some mt ∧ mt.str 1 = name ∧
      mt.str 2 = beforeReturn b := by
  apply split_bare_line hname ht
  intro hhead
  exact hfeed ((List.dropWhile_suffix isDot).subset (List.mem_of_mem_head? hhead))

/-- Without a line feed there is nothing to split. -/
theorem search_splitMagicCell_none {t : Str} (h : (('\n' : Char) : Byte) ∉ t) :
    search splitMagicCell (twoPercent t) = none := by
  rw [search_splitMagicCell]
  apply exec_none
  intro d hd
  obtain ⟨u, hu⟩ := reads_suffix hd
  unfold body
  rw [exec_seq]
  apply exec_char_none
  intro hhead
  apply h
  have hmem : (('\n' : Char) : Byte) ∈ d.rest := List.mem_of_mem_head? hhead
  have ht : t = u ++ d.rest := hu
  rw [ht]
  exact List.mem_append_right u hmem

end Cell

/-! ## Splitting a line -/

section Line

variable {name : Str}

def behindPercent (t : Str) : Cursor := ⟨1, t, []⟩

theorem search_splitMagicLine (t : Str) : search splitMagicLine (onePercent t) =
    header.exec (fun d => some ((⟨0, onePercent t, []⟩ : Cursor).toMatch
      (d.capture 1 ((behindPercent t).upTo d)))) (behindPercent t) := by
  rw [splitMagicLine, search_bos, matchAt, exec_seq, percent, exec_char (s := t) rfl, exec_group]
  rfl

/-- White space behind the name: the line goes to the next line feed or the end. -/
theorem line_spaced {t v : Str} {x : Byte} (hname : IsName name) (hx : isspace x = true)
    (ht : t = name ++ x :: v) :
    ∃ mt, search splitMagicLine (onePercent t) = some mt ∧
      mt.str 1 = name ++ x :: v.takeWhile isDot := by
  rw [search_splitMagicLine]
  refine ⟨_, exec_header_spaced hname ht hx rfl, ?_⟩
  show (behindPercent t).upTo _ = _
  rw [Cursor.upTo_advance]
  show t.take _ = _
  rw [ht, Nat.add_assoc, List.take_length_add_append, Nat.add_comm 1, List.take_succ_cons,
    take_takeWhile_length]

theorem line_bare (hname : IsName name) :
    ∃ mt, search splitMagicLine (onePercent name) = some mt ∧ mt.str 1 = name := by
  rw [search_splitMagicLine]
  refine ⟨_, exec_header_bare (u := []) hname (List.append_nil name).symm (by simp)
    (fun x v h => by cases h) rfl, ?_⟩
  show (behindPercent name).upTo _ = _
  rw [Cursor.upTo_advance]
  exact List.take_length

end Line

/-! ## Dispatch -/

/-- The magics that are called, when nothing undefined happens. -/
def Invokes (m : Manager) (code : Str) (res : KernelRes) (w : World) (is : List Invocation) : Prop :=
  ∃ a, m.apply code res w = some a ∧ a.invoked = is

theorem takeWhile_twoPercent (t : Str) : (lit "%" ++ t).takeWhile isWord = [] :=
  List.takeWhile_cons_of_neg (by decide)

theorem linePart_twoPercent (t : Str) (a : Applied) : Manager.linePart (twoPercent t) a = some a := by
  have h : search reMagicLine (twoPercent t) = none :=
    search_reMagicLine_none (takeWhile_twoPercent t)
  rw [Manager.linePart, h]

section Apply

variable {m : Manager} {res : KernelRes} {w : World} {name : Str}

theorem applyCell_invoked {line cell : Str} {a : Applied}
    (h : m.applyCell name line cell res w = some a) :
    a.invoked = if cell.isEmpty then [] else [.cell name line cell] := by
  unfold Manager.applyCell at h
  split at h
  next hc =>
    cases h
    rw [if_pos hc]
  next hc =>
    rw [if_neg hc]
    split at h
    · cases h
    · cases h
      rfl

theorem applyLine_invoked {line : Str} {a : Applied} (h : m.applyLine name line res w = some a) :
    a.invoked = [.line name line] := by
  unfold Manager.applyLine at h
  split at h
  · cases h
  · cases h
    rfl

theorem applyCell_isSome (res : KernelRes) (w : World) {f : CellMagic}
    (hf : m.magicCell name = some (some f)) (line cell : Str) :
    ∃ a, m.applyCell name line cell res w = some a := by
  unfold Manager.applyCell PtrMap.subscript
  rw [hf]
  split
  · exact ⟨_, rfl⟩
  · exact ⟨_, rfl⟩

theorem applyLine_isSome (res : KernelRes) (w : World) {f : LineMagic}
    (hf : m.magicLine name = some (some f)) (line : Str) :
    ∃ a, m.applyLine name line res w = some a := by
  unfold Manager.applyLine PtrMap.subscript
  rw [hf]
  exact ⟨_, rfl⟩

/-- A cell magic that is called has the name and the arguments the two searches found. -/
theorem invokes_cell {t h b n : Str} (hi : Invokes m (twoPercent t) res w [.cell n h b]) :
    IsName n ∧ n = t.takeWhile isWord ∧ group? (search splitMagicCell (twoPercent t)) 1 = h ∧
      group? (search splitMagicCell (twoPercent t)) 2 = b ∧ b ≠ [] := by
  obtain ⟨a, ha, hinv⟩ := hi
  unfold Manager.apply Manager.cellPart at ha
  by_cases hw : t.takeWhile isWord = []
  · rw [search_reMagicCell_none hw] at ha
    simp only [linePart_twoPercent] at ha
    cases ha
    cases hinv
  · obtain ⟨mt, hmt, hname⟩ := search_reMagicCell hw
    rw [hmt] at ha
    simp only [hname] at ha
    split at ha
    next => cases ha
    next hcell =>
      cases ha
      split at hcell
      next =>
        obtain ⟨b', _, hb'⟩ := Option.map_eq_some_iff.mp hcell
        cases hb'
      next =>
        cases hcell
        cases hinv
    next a' hcell =>
      rw [linePart_twoPercent] at ha
      cases ha
      split at hcell
      next =>
        obtain ⟨b', hb', he⟩ := Option.map_eq_some_iff.mp hcell
        cases he
        have hb := applyCell_invoked hb'
        rw [hinv] at hb
        split at hb
        · cases hb
        next hbody =>
          cases hb
          exact ⟨isName_takeWhile hw, rfl, rfl, rfl, by simpa using hbody⟩
      next => cases hcell

/-- A registered cell magic is applied to what the second search found. -/
theorem apply_of_split {t : Str} (hname : t.takeWhile isWord = name)
    (hcontains : m.contains name .cell = true) (hne : name ≠ []) :
    m.apply (twoPercent t) res w =
      (m.applyCell name (group? (search splitMagicCell (twoPercent t)) 1)
        (group? (search splitMagicCell (twoPercent t)) 2) res w).map fun a =>
          { a with res := a.res.setOk } := by
  obtain ⟨mt, hmt, hname'⟩ := search_reMagicCell (t := t) (by rw [hname]; exact hne)
  unfold Manager.apply Manager.cellPart
  rw [hmt]
  simp only [hname', hname, hcontains, if_true]
  cases m.applyCell name _ _ res w with
  | none => rfl
  | some a => exact linePart_twoPercent t _

theorem contains_cell {f : CellMagic} (hf : m.magicCell name = some (some f)) :
    m.contains name .cell = true := by
  simp [Manager.contains, hf]

/-- Nothing is called where the second search finds no body. -/
theorem apply_of_no_body {t : Str} (res : KernelRes) (w : World) (hname : t.takeWhile isWord = name)
    (hcontains : m.contains name .cell = true) (hne : name ≠ [])
    (hbody : group? (search splitMagicCell (twoPercent t)) 2 = []) :
    ∃ a, m.apply (twoPercent t) res w = some a ∧ a.manager = m ∧ a.world.disk = w.disk := by
  obtain ⟨a, ha, hm, hd⟩ := Manager.applyCell_nil m name
    (group? (search splitMagicCell (twoPercent t)) 1) res w
  rw [apply_of_split hname hcontains hne, hbody, ha]
  exact ⟨_, rfl, hm, hd⟩

theorem invokes_of_split {t h b : Str} {f : CellMagic} {mt : Match}
    (hname : t.takeWhile isWord = name) (hf : m.magicCell name = some (some f)) (hne : name ≠ [])
    (hmt : search splitMagicCell (twoPercent t) = some mt) (h₁ : mt.str 1 = h) (h₂ : mt.str 2 = b)
    (hb : b ≠ []) : Invokes m (twoPercent t) res w [.cell name h b] := by
  obtain ⟨a, ha⟩ := applyCell_isSome res w hf h b
  refine ⟨{ a with res := a.res.setOk }, ?_, ?_⟩
  · rw [apply_of_split hname (contains_cell hf) hne, hmt, group?, group?, h₁, h₂, ha]
    rfl
  · have hinv := applyCell_invoked ha
    rwa [if_neg (by simpa using hb)] at hinv

/-- The first half calls at most one cell magic. -/
theorem cellPart_invoked {code : Str} {r : Bool × Applied}
    (h : m.cellPart code res w = some r) :
    r.2.invoked = [] ∨ ∃ n l c, r.2.invoked = [.cell n l c] := by
  unfold Manager.cellPart at h
  split at h
  next =>
    cases h
    exact .inl rfl
  next mt _ =>
    dsimp only at h
    split at h
    next =>
      obtain ⟨b, hb, rfl⟩ := Option.map_eq_some_iff.mp h
      have hinv := applyCell_invoked hb
      split at hinv
      · exact .inl hinv
      · exact .inr ⟨_, _, _, hinv⟩
    next =>
      cases h
      exact .inl rfl

theorem not_line_of_cellPart {code : Str} {r : Bool × Applied} {n t : Str}
    (h : m.cellPart code res w = some r) : r.2.invoked ≠ [.line n t] := by
  intro he
  rcases cellPart_invoked h with h | ⟨_, _, _, h⟩ <;> rw [he] at h <;> cases h

/-- A line magic that is called has the name and the text the two searches found. -/
theorem invokes_line {t h n : Str} (hi : Invokes m (onePercent t) res w [.line n h]) :
    IsName n ∧ n = t.takeWhile isWord ∧ group? (search splitMagicLine (onePercent t)) 1 = h := by
  obtain ⟨a, ha, hinv⟩ := hi
  unfold Manager.apply at ha
  split at ha
  next => cases ha
  next b hcell =>
    cases ha
    exact absurd hinv (not_line_of_cellPart hcell)
  next b hcell =>
    have hb := not_line_of_cellPart (n := n) (t := h) hcell
    unfold Manager.linePart at ha
    by_cases hw : t.takeWhile isWord = []
    · rw [search_reMagicLine_none hw] at ha
      cases ha
      exact absurd hinv hb
    · obtain ⟨mt, hmt, hname⟩ := search_reMagicLine hw
      rw [hmt] at ha
      simp only [hname] at ha
      split at ha
      next =>
        obtain ⟨d, hd, rfl⟩ := Option.map_eq_some_iff.mp ha
        have hline := applyLine_invoked hd
        change b.invoked ++ d.invoked = _ at hinv
        rw [hline] at hinv
        -- the first half has called no line magic, and only one call was made
        have hnil : b.invoked = [] := by
          have hlen := congrArg List.length hinv
          rw [List.length_append] at hlen
          exact List.length_eq_zero_iff.mp (by simpa using hlen)
        rw [hnil] at hinv
        cases hinv
        exact ⟨isName_takeWhile hw, rfl, rfl⟩
      next =>
        cases ha
        exact absurd hinv hb

theorem invokes_of_line {t h : Str} {f : LineMagic} {mt : Match}
    (hname : t.takeWhile isWord = name) (hf : m.magicLine name = some (some f)) (hne : name ≠ [])
    (hmt : search splitMagicLine (onePercent t) = some mt) (h₁ : mt.str 1 = h) :
    Invokes m (onePercent t) res w [.line name h] := by
  have hw : t.takeWhile isWord ≠ [] := by
    rw [hname]
    exact hne
  obtain ⟨x, s, rfl, hx⟩ := cons_of_takeWhile hw
  have hcell : search reMagicCell (onePercent (x :: s)) = none := by
    apply search_reMagicCell_onePercent
    intro he
    cases he
    exact absurd hx (by decide)
  obtain ⟨mt', hmt', hname'⟩ := search_reMagicLine hw
  obtain ⟨a, ha⟩ := applyLine_isSome res w hf h
  have hcontains : m.contains name .line = true := by
    simp [Manager.contains, hf]
  refine ⟨{ a with res := a.res.setOk, invoked := [] ++ a.invoked }, ?_, ?_⟩
  · unfold Manager.apply Manager.cellPart
    rw [hcell]
    simp only [Manager.linePart, hmt', hname', hname, hcontains, if_true, hmt, group?, h₁, ha,
      Option.map_some]
  · show [] ++ a.invoked = _
    rw [List.nil_append]
    exact applyLine_invoked ha

end Apply

/-! ## The first line feed -/

/-- A header: a name, or a name, white space and arguments. -/
def IsHeader (name h : Str) : Prop :=
  h = name ∨ ∃ x args, isspace x = true ∧ h = name ++ x :: args

section Claim

variable {m : Manager} {res : KernelRes} {w : World} {name h : Str}

/-- A text with a line feed and no carriage return has its line feed behind its first line. -/
theorem exists_line {b : Str} (hmem : (('\n' : Char) : Byte) ∈ b)
    (hcr : (('\r' : Char) : Byte) ∉ b) : ∃ v, b = b.takeWhile isDot ++ (('\n' : Char) : Byte) :: v := by
  have hd : b.dropWhile isDot ≠ [] := by
    intro hnil
    exact absurd (List.dropWhile_eq_nil_iff.mp hnil _ hmem) (by decide)
  obtain ⟨y, v, hy⟩ := List.exists_cons_of_ne_nil hd
  have hyfeed : y = '\n' := by
    have hnot := List.head?_dropWhile_not isDot b
    rw [hy] at hnot
    rcases eq_feed_or_return (by simpa using hnot) with hy' | hy'
    · exact hy'
    · have hmem' : y ∈ b := (List.dropWhile_suffix isDot).subset (by rw [hy]; simp)
      exact absurd (hy' ▸ hmem') hcr
  refine ⟨v, ?_⟩
  conv_lhs => rw [← List.takeWhile_append_dropWhile (p := isDot) (l := b), hy, hyfeed]

/-- A bare name takes the first line of a body with more lines into its header. -/
theorem not_invokes_bare {b : Str} (hname : IsName name) (hmem : (('\n' : Char) : Byte) ∈ b)
    (hcr : (('\r' : Char) : Byte) ∉ b) : ¬Invokes m
      (twoPercent (name ++ (('\n' : Char) : Byte) :: b)) res w [.cell name name b] := by
  intro hi
  obtain ⟨-, -, hline, -⟩ := invokes_cell hi
  obtain ⟨v, hv⟩ := exists_line hmem hcr
  have ht : name ++ (('\n' : Char) : Byte) :: b =
      name ++ (('\n' : Char) : Byte) :: (b.takeWhile isDot ++ (('\n' : Char) : Byte) :: v) := by
    rw [← hv]
  obtain ⟨mt, hmt, h₁, -⟩ := split_spaced hname isspace_feed ht
    (fun c hc => List.mem_takeWhile_imp hc)
  rw [hmt] at hline
  have hlen := congrArg List.length (h₁.symm.trans hline)
  simp only [List.length_append, List.length_cons] at hlen
  omega

theorem cell_split_iff {f : CellMagic} {b : Str} (hform : IsHeader name h)
    (hfeed : (('\n' : Char) : Byte) ∉ h) (hcr : (('\r' : Char) : Byte) ∉ h)
    (hf : m.magicCell name = some (some f)) (hb : b ≠ []) (hcrb : (('\r' : Char) : Byte) ∉ b) :
    Invokes m (lit "%%" ++ h ++ lit "\n" ++ b) res w [.cell name h b] ↔
      IsName name ∧ (h ≠ name ∨ (('\n' : Char) : Byte) ∉ b) := by
  have hcode : lit "%%" ++ h ++ lit "\n" ++ b = twoPercent (h ++ (('\n' : Char) : Byte) :: b) := by
    show _ = lit "%%" ++ (h ++ (lit "\n" ++ b))
    simp only [List.append_assoc]
  rw [hcode]
  constructor
  · intro hi
    obtain ⟨hname, -, -, -⟩ := invokes_cell hi
    refine ⟨hname, ?_⟩
    by_contra hno
    obtain ⟨rfl, hmem⟩ : h = name ∧ (('\n' : Char) : Byte) ∈ b := by simpa using hno
    exact not_invokes_bare hname hmem hcrb hi
  · rintro ⟨hname, hcond⟩
    rcases hform with rfl | ⟨x, args, hx, rfl⟩
    · have hb' : (('\n' : Char) : Byte) ∉ b := hcond.resolve_left (fun hne => hne rfl)
      obtain ⟨mt, hmt, h₁, h₂⟩ := split_bare hname rfl hb'
      rw [beforeReturn_of_not_mem hcrb] at h₂
      exact invokes_of_split (takeWhile_name hname (by simpa using isWord_of_isspace _ isspace_feed))
        hf hname.1 hmt h₁ h₂ hb
    · have hargs : ∀ c ∈ args, isDot c = true := by
        apply isDot_of_not_mem
        · intro hmem
          exact hfeed (by simp [hmem])
        · intro hmem
          exact hcr (by simp [hmem])
      have ht : name ++ x :: args ++ (('\n' : Char) : Byte) :: b =
          name ++ x :: (args ++ (('\n' : Char) : Byte) :: b) := by simp
      obtain ⟨mt, hmt, h₁, h₂⟩ := split_spaced hname hx ht hargs
      rw [beforeReturn_of_not_mem hcrb] at h₂
      refine invokes_of_split ?_ hf hname.1 hmt h₁ h₂ hb
      rw [ht]
      exact takeWhile_name hname (by simpa using isWord_of_isspace x hx)

theorem line_split_iff {f : LineMagic} {r : Str} (hform : IsHeader name h)
    (hfeed : (('\n' : Char) : Byte) ∉ h) (hcr : (('\r' : Char) : Byte) ∉ h)
    (hf : m.magicLine name = some (some f)) (hr : r = [] ∨ ∃ u, r = lit "\n" ++ u) :
    Invokes m (lit "%" ++ h ++ r) res w [.line name h] ↔ IsName name ∧ (h ≠ name ∨ r = []) := by
  have hcode : lit "%" ++ h ++ r = onePercent (h ++ r) := List.append_assoc _ _ _
  rw [hcode]
  constructor
  · intro hi
    obtain ⟨hname, -, hline⟩ := invokes_line hi
    refine ⟨hname, ?_⟩
    by_contra hno
    obtain ⟨rfl, hne⟩ : h = name ∧ r ≠ [] := by simpa using hno
    obtain ⟨u, rfl⟩ := hr.resolve_left hne
    -- the line feed is white space, so a bare name takes the line behind it
    obtain ⟨mt, hmt, h₁⟩ := line_spaced (t := h ++ (lit "\n" ++ u)) hname isspace_feed rfl
    rw [hmt] at hline
    have hlen := congrArg List.length (h₁.symm.trans hline)
    simp only [List.length_append, List.length_cons] at hlen
    omega
  · rintro ⟨hname, hcond⟩
    rcases hform with rfl | ⟨x, args, hx, rfl⟩
    · have hnil : r = [] := hcond.resolve_left fun hne => hne rfl
      subst hnil
      rw [List.append_nil]
      obtain ⟨mt, hmt, h₁⟩ := line_bare hname
      have hrun : h.takeWhile isWord = h := List.takeWhile_eq_self_iff.mpr hname.2
      exact invokes_of_line hrun hf hname.1 hmt h₁
    · have hargs : (args ++ r).takeWhile isDot = args := by
        apply takeWhile_line
        · apply isDot_of_not_mem
          · intro hmem
            exact hfeed (by simp [hmem])
          · intro hmem
            exact hcr (by simp [hmem])
        · rcases hr with rfl | ⟨u, rfl⟩
          · simp
          · intro c hc
            cases hc
            exact isDot_feed
      have ht : name ++ x :: args ++ r = name ++ x :: (args ++ r) := by simp
      obtain ⟨mt, hmt, h₁⟩ := line_spaced hname hx ht
      rw [hargs] at h₁
      refine invokes_of_line ?_ hf hname.1 hmt h₁
      rw [ht]
      exact takeWhile_name hname (by simpa using isWord_of_isspace x hx)

/-- **The cell is split at its first line feed exactly** when the header's name is a word and, for a
bare name, no second line feed follows in a cell, and none at all behind a line. -/
theorem split_at_first_newline_iff (m : Manager) (res : KernelRes) (w : World)
    (hform : IsHeader name h) (hfeed : (('\n' : Char) : Byte) ∉ h)
    (hcr : (('\r' : Char) : Byte) ∉ h) :
    (∀ f b, m.magicCell name = some (some f) → b ≠ [] → (('\r' : Char) : Byte) ∉ b →
      (Invokes m (lit "%%" ++ h ++ lit "\n" ++ b) res w [.cell name h b] ↔
        IsName name ∧ (h ≠ name ∨ (('\n' : Char) : Byte) ∉ b))) ∧
    ∀ f r, m.magicLine name = some (some f) → (r = [] ∨ ∃ u, r = lit "\n" ++ u) →
      (('\r' : Char) : Byte) ∉ r →
      (Invokes m (lit "%" ++ h ++ r) res w [.line name h] ↔ IsName name ∧ (h ≠ name ∨ r = [])) :=
  ⟨fun _ _ hf hb hcrb => cell_split_iff hform hfeed hcr hf hb hcrb,
    fun _ _ hf hr _ => line_split_iff hform hfeed hcr hf hr⟩

end Claim

/-- A magic that does nothing, registered as `file` for cells. -/
def silentCell : CellMagic := ⟨fun _ _ w => (none, w)⟩

def fileManager : Manager :=
  Manager.registerMagic ⟨fun _ => none, fun _ => none⟩ (lit "file") none (some silentCell)

theorem fileManager_file : fileManager.magicCell (lit "file") = some (some silentCell) := rfl

/-- With an argument in the header, the body may have any number of lines. -/
theorem split_at_first_newline_file_a :
    Invokes fileManager (lit "%%" ++ lit "file a" ++ lit "\n" ++ lit "x\ny") .new .fresh
      [.cell (lit "file") (lit "file a") (lit "x\ny")] :=
  ((split_at_first_newline_iff fileManager .new .fresh
    (.inr ⟨' ', lit "a", by decide, by decide⟩) (by decide) (by decide)).1 silentCell (lit "x\ny")
      fileManager_file (by decide) (by decide)).mpr
    ⟨⟨by decide, by decide +kernel⟩, .inl (by decide)⟩

/-- A bare name takes the first line of a two-line body into its header. -/
theorem bare_name_takes_a_line :
    ¬Invokes fileManager (lit "%%" ++ lit "file" ++ lit "\n" ++ lit "foo\nbar") .new .fresh
      [.cell (lit "file") (lit "file") (lit "foo\nbar")] := by
  intro hi
  have h := (cell_split_iff (.inl rfl) (by decide) (by decide) fileManager_file (by decide)
    (by decide)).mp hi
  rcases h.2 with h | h
  · exact h rfl
  · exact h (by decide)

end XeusCpp.Magics
