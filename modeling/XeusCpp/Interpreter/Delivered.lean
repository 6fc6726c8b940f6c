/-
# XeusCpp.Interpreter.Delivered — what of a cell its handler is given.

A cell that a preamble matches goes to that preamble as a whole, and the preamble takes its own part
of the text out of it: a query and a shell command the rest of the first line, a line magic its
header, a cell magic a header and a body that ends at a carriage return. `left` is what stands behind
that part. Nothing reports it: behind an ok reply the handlers were given the whole cell exactly when
it is blank (`nothing_dropped_iff`).
-/
import XeusCpp.Interpreter.Answers
import XeusCpp.Logic.Cover
import XeusCpp.Magics.Cells

namespace XeusCpp.Interpreter

open Text Host Magics Regex Logic

/-! ## What is received -/

/-- The command behind the sign, which `xsystem::apply` hands to the shell. -/
def shellCommand (code : Str) : Str := group? (search reSystem code) 1

/-- The texts a magic is called with. -/
def arguments : Invocation → List Str
  | .cell _ line body => [line, body]
  | .line _ text => [text]

/-- What the handlers of a cell are given, in order. -/
def Kernel.received (k : Kernel) (code : Str) : List Str :=
  match Preamble.all.find? (·.isMatch code) with
  | some .introspection => [introspected code]
  | some .magics =>
      match k.magics.manager.apply code .new ⟨k.disk, [], [], k.requests⟩ with
      | some a => a.invoked.flatMap arguments
      | none => []
  | some .shell => [shellCommand code]
  | none => [cStr code]

/-- A cell without the sign of its preamble. -/
def signless : Str → Str
  | [] => []
  | c :: t => if c = '%' ∧ t.head? = some (('%' : Char) : Byte) then t.tail else t

/-- The texts that were received are the cell, but for its sign and for white space. -/
def NothingDropped (code : Str) (received : List Str) : Prop :=
  Covers isspace (signless code) received

/-! ## What is left -/

/-- What stands behind the body of a cell magic; without a body nothing is called. -/
def leftOfCell (t : Str) : Str :=
  match cellParts t with
  | some (line, body) => if body = [] then t else t.drop (line.length + 1 + body.length)
  | none => t

/-- What stands behind the text a handler takes out of the cell. -/
def left (code : Str) : Str :=
  let t := signless code
  if lit "%%" <+: code then leftOfCell t
  else if lit "%" <+: code then t.drop (lineHeader t).length
  else t.dropWhile isDot

/-! ## One handler after the other -/

theorem find_shell {code : Str} (h : Preamble.all.find? (·.isMatch code) = some .shell) :
    code.head? = some (('!' : Char) : Byte) := by
  have hmatch : Preamble.shell.isMatch code = true :=
    List.find?_some (p := fun pre : Preamble => pre.isMatch code) h
  exact (isSome_search_char _ code).mp hmatch

/-- A cell that begins with `!` is a shell command. -/
theorem find_of_sign (t : Str) :
    Preamble.all.find? (·.isMatch ((('!' : Char) : Byte) :: t)) = some .shell := by
  have hquery : Preamble.introspection.isMatch ((('!' : Char) : Byte) :: t) = false := by
    rw [← Bool.not_eq_true, isMatch_introspection]
    show some _ ≠ some _
    decide
  have hshell : Preamble.shell.isMatch ((('!' : Char) : Byte) :: t) = true :=
    (isSome_search_char _ _).mpr rfl
  have hmagics : Preamble.magics.isMatch ((('!' : Char) : Byte) :: t) = false := by
    have hpercent (k : Cursor → Option Match) :
        percent.exec k ⟨0, (('!' : Char) : Byte) :: t, []⟩ = none := exec_char_none (by
          show some _ ≠ some _
          decide)
    have hnone : search Magics.pattern ((('!' : Char) : Byte) :: t) = none := by
      rw [Magics.pattern, search_bos, matchAt, exec_seq, exec_alt_right]
      · exact hpercent _
      · rw [exec_seq]
        exact hpercent _
    show (search Magics.pattern _).isSome = false
    rw [hnone]
    rfl
  simp only [Preamble.all, List.find?_cons, hquery, hmagics, hshell]

theorem signless_of_ne {x : Byte} (h : x ≠ '%') (t : Str) : signless (x :: t) = t := by
  rw [signless, if_neg (fun hx => h hx.1)]

theorem left_of_ne {x : Byte} (h : x ≠ '%') (t : Str) : left (x :: t) = t.dropWhile isDot := by
  have hone : ¬ lit "%" <+: x :: t := by
    rintro ⟨s, hs⟩
    exact h (List.cons.inj hs).1.symm
  have htwo : ¬ lit "%%" <+: x :: t := by
    rintro ⟨s, hs⟩
    exact h (List.cons.inj hs).1.symm
  rw [left, signless_of_ne h, if_neg htwo, if_neg hone]

/-- A handler that takes the rest of the first line. -/
theorem first_line_iff {x : Byte} (h : x ≠ '%') (t : Str) :
    NothingDropped (x :: t) [t.takeWhile isDot] ↔ ∀ c ∈ left (x :: t), isspace c = true := by
  rw [NothingDropped, signless_of_ne h, left_of_ne h]
  have hline : Covers isspace (t.takeWhile isDot ++ []) [t.takeWhile isDot] := .cons .nil
  have hiff := covers_append_iff hline (t.dropWhile isDot)
  rwa [List.append_nil, List.takeWhile_append_dropWhile] at hiff

theorem signless_twoPercent (t : Str) : signless (twoPercent t) = t := rfl

theorem left_twoPercent (t : Str) : left (twoPercent t) = leftOfCell t := by
  have htwo : lit "%%" <+: twoPercent t := List.prefix_append _ _
  rw [left, signless_twoPercent, if_pos htwo]

/-- The two parts of a cell, and what stands behind them. -/
theorem cellParts_split {t line body : Str} (h : cellParts t = some (line, body)) :
    ∃ r, t = line ++ (('\n' : Char) : Byte) :: (body ++ r) := by
  have hname := List.takeWhile_append_dropWhile (p := isWord) (l := t)
  have hbody (s : Str) : ∃ r, s = beforeReturn s ++ r :=
    ⟨s.dropWhile (· != '\r'), List.takeWhile_append_dropWhile.symm⟩
  unfold cellParts at h
  cases hu : t.dropWhile isWord with
  | nil =>
      rw [hu] at h
      simp at h
  | cons x v =>
      rw [hu] at h hname
      simp only at h
      split_ifs at h with hx hfeed hbare
      · obtain ⟨v₂, hv₂⟩ := List.head?_eq_some_iff.mp hfeed
        have hline := List.takeWhile_append_dropWhile (p := isDot) (l := v)
        rw [hv₂] at h hline
        obtain ⟨rfl, rfl⟩ := Prod.mk.inj (Option.some.inj h)
        obtain ⟨r, hr⟩ := hbody v₂
        refine ⟨r, ?_⟩
        calc t = t.takeWhile isWord ++ x :: v := hname.symm
          _ = t.takeWhile isWord ++ x :: (v.takeWhile isDot ++ (('\n' : Char) : Byte) :: v₂) := by
              rw [hline]
          _ = _ := by
              rw [List.tail_cons, ← hr]
              simp
      · obtain ⟨rfl, rfl⟩ := Prod.mk.inj (Option.some.inj h)
        obtain ⟨r, hr⟩ := hbody v
        refine ⟨r, ?_⟩
        rw [← hr, ← hbare]
        exact hname.symm

theorem lineHeader_prefix (t : Str) : lineHeader t <+: t := by
  have hname := List.takeWhile_append_dropWhile (p := isWord) (l := t)
  unfold lineHeader
  cases hu : t.dropWhile isWord with
  | nil => exact List.takeWhile_prefix isWord
  | cons x v =>
      simp only
      split
      · have hline := List.takeWhile_append_dropWhile (p := isDot) (l := v)
        refine ⟨v.dropWhile isDot, ?_⟩
        rw [List.append_assoc, List.cons_append, hline, ← hu]
        exact hname
      · exact List.takeWhile_prefix isWord

/-- A cell magic is given the whole cell when it has a body and nothing stands behind it. -/
theorem cell_magic_iff (t : Str) :
    NothingDropped (twoPercent t) ((calledCell t).flatMap arguments) ↔
      ∀ c ∈ left (twoPercent t), isspace c = true := by
  rw [NothingDropped, signless_twoPercent, left_twoPercent, leftOfCell, calledCell]
  cases hparts : cellParts t with
  | none => exact covers_append_iff .nil t
  | some p =>
      obtain ⟨line, body⟩ := p
      simp only
      by_cases hbody : body = []
      · rw [if_pos hbody, if_pos hbody]
        exact covers_append_iff .nil t
      · rw [if_neg hbody, if_neg hbody]
        obtain ⟨r, ht⟩ := cellParts_split hparts
        have hdrop : t.drop (line.length + 1 + body.length) = r := by
          rw [ht, Nat.add_assoc, List.drop_length_add_append, Nat.add_comm 1, List.drop_succ_cons,
            List.drop_left]
        have hcover : Covers isspace (line ++ (('\n' : Char) : Byte) :: (body ++ [])) [line, body] :=
          .cons (.skip isspace_feed (.cons .nil))
        have hiff := covers_append_iff hcover r
        rw [hdrop]
        simp only [List.append_nil, List.append_assoc, List.cons_append, ← ht] at hiff
        exact hiff

theorem left_onePercent {t : Str} (h : t.head? ≠ some (('%' : Char) : Byte)) :
    signless (onePercent t) = t ∧ left (onePercent t) = t.drop (lineHeader t).length := by
  have hsign : signless (onePercent t) = t := by
    show signless ((('%' : Char) : Byte) :: t) = t
    rw [signless, if_neg (fun hx => h hx.2)]
  have htwo : ¬ lit "%%" <+: onePercent t := by
    rintro ⟨s, hs⟩
    have ht : t = (('%' : Char) : Byte) :: s := (List.cons.inj hs).2.symm
    rw [ht] at h
    exact h rfl
  have hone : lit "%" <+: onePercent t := List.prefix_append _ _
  refine ⟨hsign, ?_⟩
  rw [left, hsign, if_neg htwo, if_pos hone]

/-- A line magic is given the whole cell when nothing stands behind its header. -/
theorem line_magic_iff {t : Str} (h : t.head? ≠ some (('%' : Char) : Byte)) :
    NothingDropped (onePercent t) [lineHeader t] ↔
      ∀ c ∈ left (onePercent t), isspace c = true := by
  obtain ⟨hsign, hleft⟩ := left_onePercent h
  rw [NothingDropped, hsign, hleft]
  obtain ⟨r, hr⟩ := lineHeader_prefix t
  have hdrop : t.drop (lineHeader t).length = r := by
    have : (lineHeader t ++ r).drop (lineHeader t).length = r := List.drop_left
    rwa [hr] at this
  have hcover : Covers isspace (lineHeader t ++ []) [lineHeader t] := .cons .nil
  have hiff := covers_append_iff hcover r
  rw [List.append_nil, hr] at hiff
  rw [hdrop]
  exact hiff

/-! ## Behind an ok reply -/

section Reply

variable {J : Type} {sys : System J} {code : Str} {k : Kernel} {res : KernelRes}

/-- A magic that is answered with ok. -/
theorem magics_dropped_iff (hfind : Preamble.all.find? (·.isMatch code) = some .magics)
    (hres : (k.run (k.magics.apply code .new)).1 = res) (hok : res.status = some .ok) :
    NothingDropped code (k.received code) ↔ ∀ c ∈ left code, isspace c = true := by
  obtain ⟨a, ha, -⟩ := Manager.apply_of_sound .new ⟨k.disk, [], [], k.requests⟩ k.magics.sound code
  have hstatus : a.res.status = some .ok := by
    have hrun : (k.run (k.magics.apply code .new)).1 = a.res := by
      simp [Kernel.run, Registry.apply, ha]
    rw [← hrun, hres]
    exact hok
  have hreceived : k.received code = a.invoked.flatMap arguments := by
    simp only [Kernel.received, hfind, ha]
  rw [hreceived]
  rcases invoked_of_ok ha hstatus with ⟨t, rfl, -, hinv⟩ | ⟨t, rfl, hname, hinv⟩
  · rw [hinv]
    exact cell_magic_iff t
  · obtain ⟨x, s, hx, hword⟩ := cons_of_takeWhile hname
    have hhead : t.head? ≠ some (('%' : Char) : Byte) := by
      rw [hx]
      intro hpercent
      rw [Option.some.inj hpercent] at hword
      exact absurd hword (by decide)
    rw [hinv]
    exact line_magic_iff hhead

/-- A shell command hands on the rest of its first line, as a query does. -/
theorem shellCommand_line (t : Str) :
    shellCommand ((('!' : Char) : Byte) :: t) = t.takeWhile isDot := search_sign_line _ t

theorem received_shell (hfind : Preamble.all.find? (·.isMatch code) = some .shell) :
    k.received code = [(signless code).takeWhile isDot] := by
  obtain ⟨t, rfl⟩ := List.head?_eq_some_iff.mp (find_shell hfind)
  have hreceived : k.received ((('!' : Char) : Byte) :: t) = [shellCommand (('!' : Char) :: t)] := by
    simp only [Kernel.received, hfind]
  rw [hreceived, shellCommand_line, signless_of_ne (by decide)]

theorem dropped_iff (hcell : ¬ IsCell code) {config : Config}
    (hreply : (sys.execute code config k).2.replies = k.replies ++ [res])
    (hok : res.status = some .ok) :
    NothingDropped code (k.received code) ↔ ∀ c ∈ left code, isspace c = true := by
  cases hfind : Preamble.all.find? (·.isMatch code) with
  | none => exact absurd hfind hcell
  | some pre =>
      have hres : (sys.preambleApply pre code { k with cin := .inputBuffer config.allowStdin }).1 =
          .ok res := by
        rcases execute_preamble hfind sys config k with ⟨res', hres', -, hreplies⟩ | ⟨e, -, -, hreplies⟩
        · rw [hreply] at hreplies
          rw [hres', (List.cons.inj (List.append_cancel_left hreplies)).1]
        · rw [hreply] at hreplies
          exact absurd (List.append_right_eq_self.mp hreplies) (by simp)
      cases pre with
      | introspection =>
          obtain ⟨t, rfl⟩ := List.head?_eq_some_iff.mp (find_introspection.mp hfind)
          have hreceived : k.received ((('?' : Char) : Byte) :: t) =
              [introspected (('?' : Char) :: t)] := by
            simp only [Kernel.received, hfind]
          rw [hreceived, introspected_line]
          exact first_line_iff (by decide) t
      | magics => exact magics_dropped_iff hfind (Except.ok.inj hres) hok
      | shell =>
          obtain ⟨t, rfl⟩ := List.head?_eq_some_iff.mp (find_shell hfind)
          rw [received_shell hfind, signless_of_ne (by decide)]
          exact first_line_iff (by decide) t

end Reply

/-- A cell whose lines are shell commands. -/
def shellCell (cmds : List Str) : Str := List.intercalate (lit "\n") (cmds.map (lit "!" ++ ·))

theorem signless_shellCell {cmd : Str} {cmds : List Str} (h : ∀ c ∈ cmd, isDot c = true) :
    (signless (shellCell (cmd :: cmds))).takeWhile isDot = cmd := by
  obtain ⟨u, hu, hhead⟩ : ∃ u, shellCell (cmd :: cmds) = (('!' : Char) : Byte) :: (cmd ++ u) ∧
      ∀ c ∈ u.head?, isDot c = false := by
    cases cmds with
    | nil => exact ⟨[], by simp [shellCell, List.intercalate, lit], by simp⟩
    | cons cmd' cmds =>
        refine ⟨lit "\n" ++ shellCell (cmd' :: cmds), by simp [shellCell, List.intercalate, lit], ?_⟩
        simpa [lit] using isDot_feed
  rw [hu, signless_of_ne (by decide)]
  exact takeWhile_line h hhead

/-- Of a cell of shell commands the first one is run. -/
theorem shellCell_received {cmds : List Str} {k : Kernel} (hne : cmds ≠ [])
    (hcmds : ∀ cmd ∈ cmds, ∀ c ∈ cmd, isDot c = true) :
    ∃ cmd rest, cmds = cmd :: rest ∧ k.received (shellCell cmds) = [cmd] := by
  obtain ⟨cmd, rest, rfl⟩ := List.exists_cons_of_ne_nil hne
  have hhead : ∃ t, shellCell (cmd :: rest) = (('!' : Char) : Byte) :: t := by
    cases rest with
    | nil => exact ⟨cmd, by simp [shellCell, List.intercalate, lit]⟩
    | cons cmd' rest =>
        exact ⟨cmd ++ (lit "\n" ++ shellCell (cmd' :: rest)), by
          simp [shellCell, List.intercalate, lit]⟩
  have hfind : Preamble.all.find? (·.isMatch (shellCell (cmd :: rest))) = some .shell := by
    obtain ⟨t, ht⟩ := hhead
    rw [ht]
    exact find_of_sign t
  refine ⟨cmd, rest, rfl, ?_⟩
  rw [received_shell hfind, signless_shellCell (hcmds cmd List.mem_cons_self)]

/-- A shell that runs every command, and prints nothing. -/
def quietShell : System Json := { bareSystem with popen := fun _ disk => some ([], disk) }

end XeusCpp.Interpreter
