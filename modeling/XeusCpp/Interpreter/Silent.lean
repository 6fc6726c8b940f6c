/-
# XeusCpp.Interpreter.Silent — what a silent request publishes.

The guard that silences the streams is constructed behind the loop over the preambles, so a cell for
the compiler publishes nothing and a preamble publishes what it writes. Whether it writes is read off
its input: a query whose documentation is not found, a command with output, a magic that is unknown,
lacks its body, throws or writes.

**`silent_iff`** says when a silent request publishes nothing.
-/
import XeusCpp.Interpreter.Publish

namespace XeusCpp.Interpreter

open Text Host Magics Regex Logic

variable {J : Type}

/-! ## Magics that write nothing -/

/-- Nothing was written to the two streams. -/
def Wordless (w : World) : Prop := w.out = [] ∧ w.err = []

theorem not_wordless_cerr {w : World} {s : Str} (h : s ≠ []) : ¬ Wordless (w.cerr s) := by
  rintro ⟨-, herr⟩
  exact h (List.append_eq_nil_iff.mp herr).2

/-- The magic a cell names is registered, has a body where it needs one, and its call returns
without having written anything. -/
def CallsWordless (m : Manager) (code : Str) (w : World) : Prop :=
  match search reMagicCell code with
  | some magicName =>
      let split := search splitMagicCell code
      group? split 2 ≠ [] ∧ ∃ magic w', m.magicCell (magicName.str 1) = some (some magic) ∧
        magic.call (group? split 1) (group? split 2) w = (none, w') ∧ Wordless w'
  | none =>
      match search reMagicLine code with
      | some magicName =>
          ∃ magic w', m.magicLine (magicName.str 1) = some (some magic) ∧
            magic.call (group? (search splitMagicLine code) 1) w = (none, w') ∧ Wordless w'
      | none => Wordless w

section Manager

variable {m : Manager} {code : Str} {w : World}

/-- A cell magic is quiet when its call is, since what it throws is reported. -/
theorem applyCell_wordless {name line cell : Str} {magic : CellMagic} {res : KernelRes}
    {a : Applied} (hmagic : m.magicCell name = some (some magic)) (hcell : cell ≠ [])
    (ha : m.applyCell name line cell res w = some a) :
    Wordless a.world ↔ ∃ w', magic.call line cell w = (none, w') ∧ Wordless w' := by
  cases hcall : magic.call line cell w with
  | mk thrown w' =>
      cases thrown with
      | none =>
          cases ha.symm.trans (Manager.applyCell_of_call res hmagic hcell hcall)
          exact ⟨fun h => ⟨w', rfl, h⟩, fun ⟨_, hw, h⟩ => by cases hw; exact h⟩
      | some t =>
          obtain ⟨s, hs, happly⟩ := Manager.applyCell_of_throw res hmagic hcell hcall
          cases ha.symm.trans happly
          exact ⟨fun h => absurd h (not_wordless_cerr hs), fun ⟨_, hw, _⟩ => by cases hw⟩

theorem applyLine_wordless {name line : Str} {magic : LineMagic} {res : KernelRes} {a : Applied}
    (hmagic : m.magicLine name = some (some magic))
    (ha : m.applyLine name line res w = some a) :
    Wordless a.world ↔ ∃ w', magic.call line w = (none, w') ∧ Wordless w' := by
  cases hcall : magic.call line w with
  | mk thrown w' =>
      cases thrown with
      | none =>
          cases ha.symm.trans (Manager.applyLine_of_call res hmagic hcall)
          exact ⟨fun h => ⟨w', rfl, h⟩, fun ⟨_, hw, h⟩ => by cases hw; exact h⟩
      | some t =>
          obtain ⟨s, hs, happly⟩ := Manager.applyLine_of_throw res hmagic hcall
          cases ha.symm.trans happly
          exact ⟨fun h => absurd h (not_wordless_cerr hs), fun ⟨_, hw, _⟩ => by cases hw⟩

/-- A cell magic without a body is reported. -/
theorem applyCell_nil_not_wordless {name line : Str} {res : KernelRes} {a : Applied}
    (ha : m.applyCell name line [] res w = some a) : ¬ Wordless a.world := by
  unfold Manager.applyCell at ha
  cases ha
  exact not_wordless_cerr (by decide)

/-- A name that is registered in a sound map leads to a magic. -/
theorem exists_magic {M : Type} {f : PtrMap M} (hf : f.Sound) {name : Str}
    (h : (f name).isSome) : ∃ magic, f name = some (some magic) := by
  obtain ⟨q, hq⟩ := Option.isSome_iff_exists.mp h
  cases q with
  | none => exact absurd hq (hf name)
  | some magic => exact ⟨magic, hq⟩

theorem cell_wordless_iff {res : KernelRes} {a : Applied} {mt : Match} (hm : m.Sound)
    (hcell : search reMagicCell code = some mt) (ha : m.apply code res w = some a) :
    Wordless a.world ↔ CallsWordless m code w := by
  obtain ⟨t, rfl⟩ := twoPercent_of_search hcell
  unfold Manager.apply Manager.cellPart at ha
  unfold CallsWordless
  rw [hcell] at ha ⊢
  dsimp only at ha ⊢
  by_cases hname : m.contains (mt.str 1) .cell = true
  · obtain ⟨magic, hmagic⟩ := exists_magic hm.cell hname
    -- a code with two percent signs is no line magic, so the second half does nothing
    obtain ⟨b, hb, -⟩ := Manager.applyCell_of_sound res w hm hname
      (group? (search splitMagicCell (twoPercent t)) 1)
      (group? (search splitMagicCell (twoPercent t)) 2)
    rw [if_pos hname, hb, Option.map_some] at ha
    dsimp only at ha
    rw [linePart_twoPercent] at ha
    cases ha
    show Wordless b.world ↔ _
    -- a cell magic is not called without a body
    by_cases hbody : group? (search splitMagicCell (twoPercent t)) 2 = []
    · rw [hbody] at hb ⊢
      exact ⟨fun h => absurd h (applyCell_nil_not_wordless hb), fun h => absurd rfl h.1⟩
    · rw [applyCell_wordless hmagic hbody hb]
      constructor
      · rintro ⟨w', hw', h⟩
        exact ⟨hbody, magic, w', hmagic, hw', h⟩
      · rintro ⟨-, magic', w', hmagic', hw', h⟩
        rw [hmagic] at hmagic'
        cases hmagic'
        exact ⟨w', hw', h⟩
  · rw [if_neg hname] at ha
    cases ha
    constructor
    · exact fun h => absurd h (not_wordless_cerr (by simp [lit]))
    · rintro ⟨-, magic, -, hmagic, -⟩
      exact absurd (by simp [Manager.contains, hmagic]) hname

theorem line_wordless_iff {res : KernelRes} {a : Applied} (hm : m.Sound)
    (hcell : search reMagicCell code = none) (ha : m.apply code res w = some a) :
    Wordless a.world ↔ CallsWordless m code w := by
  unfold Manager.apply Manager.cellPart Manager.linePart at ha
  unfold CallsWordless
  rw [hcell] at ha ⊢
  dsimp only at ha ⊢
  cases hline : search reMagicLine code with
  | none =>
      rw [hline] at ha
      cases ha
      exact Iff.rfl
  | some mt =>
      rw [hline] at ha
      dsimp only at ha ⊢
      by_cases hname : m.contains (mt.str 1) .line = true
      · obtain ⟨magic, hmagic⟩ := exists_magic hm.line hname
        obtain ⟨b, hb, -⟩ := Manager.applyLine_of_sound res w hm hname
          (group? (search splitMagicLine code) 1)
        rw [if_pos hname, hb, Option.map_some] at ha
        cases ha
        show Wordless b.world ↔ _
        rw [applyLine_wordless hmagic hb]
        constructor
        · rintro ⟨w', hw', h⟩
          exact ⟨magic, w', hmagic, hw', h⟩
        · rintro ⟨magic', w', hmagic', hw', h⟩
          rw [hmagic] at hmagic'
          cases hmagic'
          exact ⟨w', hw', h⟩
      · rw [if_neg hname] at ha
        cases ha
        constructor
        · exact fun h => absurd h (not_wordless_cerr (by simp [lit]))
        · rintro ⟨magic, -, hmagic, -⟩
          exact absurd (by simp [Manager.contains, hmagic]) hname

/-- The registry is quiet on a cell exactly when the call it names is. -/
theorem apply_wordless_iff (r : Registry) (code : Str) (res : KernelRes) (w : World) :
    Wordless (r.apply code res w).2 ↔ CallsWordless r.manager code w := by
  obtain ⟨a, ha, -⟩ := Manager.apply_of_sound res w r.sound code
  have hworld : (r.apply code res w).2 = a.world := by simp [Registry.apply, ha]
  rw [hworld]
  cases hcell : search reMagicCell code with
  | some mt => exact cell_wordless_iff r.sound hcell ha
  | none => exact line_wordless_iff r.sound hcell ha

end Manager

/-! ## Silent requests -/

/-- What a preamble is given makes it write nothing. -/
def PreambleWordless (sys : System J) (code : Str) (k : Kernel) : Preamble → Prop
  | .introspection => sys.lookup k.disk (introspected code) k.varCount ≠ some []
  | .magics => CallsWordless k.magics.manager code ⟨k.disk, [], [], k.requests⟩
  | .shell => ∃ output disk,
      sys.popen (cStr (group? (search reSystem code) 1 ++ lit " 2>&1")) k.disk =
        some (output, disk) ∧ copied output.length output = []

theorem preambleText_eq_nil_iff (sys : System J) (pre : Preamble) (code : Str) (k : Kernel) :
    (∀ name, preambleText sys pre code k name = []) ↔ PreambleWordless sys code k pre := by
  have hboth : (∀ name, preambleText sys pre code k name = []) ↔
      preambleText sys pre code k .stdout = [] ∧ preambleText sys pre code k .stderr = [] :=
    ⟨fun h => ⟨h .stdout, h .stderr⟩, fun h name => by
      cases name with
      | stdout => exact h.1
      | stderr => exact h.2⟩
  rw [hboth]
  cases pre with
  | introspection =>
      show [] = [] ∧ (if sys.lookup k.disk (introspected code) k.varCount = some [] then _ else _) =
        [] ↔ sys.lookup k.disk (introspected code) k.varCount ≠ some []
      -- only a lookup that finds nothing is reported
      split
      next h => simp [h, lit]
      next h => simp [h]
  | magics => exact apply_wordless_iff k.magics code KernelRes.new _
  | shell =>
      show (sys.shellApply code KernelRes.new _).2.out = [] ∧
        (sys.shellApply code KernelRes.new _).2.err = [] ↔ _
      unfold System.shellApply PreambleWordless
      dsimp only
      cases sys.popen (cStr (group? (search reSystem code) 1 ++ lit " 2>&1")) k.disk with
      | none =>
          constructor
          · intro h
            have herr : lit "Unable to execute the shell command\n" = [] := h.2
            exact absurd herr (by decide)
          · rintro ⟨output, disk, h, -⟩
            cases h
      | some result =>
          obtain ⟨output, disk⟩ := result
          constructor
          · exact fun h => ⟨output, disk, rfl, by simpa [World.cout] using h.1⟩
          · rintro ⟨output', disk', h, hcopied⟩
            cases h
            exact ⟨by simpa [World.cout] using hcopied, rfl⟩

/-- Nothing was published during a request. -/
structure PublishesNothing (k k' : Kernel) : Prop where
  streams : ∀ name, k'.published name = k.published name
  errors : k'.errors = k.errors

section Request

variable (sys : System J) {code : Str} {k : Kernel}

/-- A silent request for the compiler publishes nothing. -/
theorem cell_publishesNothing (h : IsCell code) (allowStdin : Bool) :
    PublishesNothing k (sys.execute code ⟨true, allowStdin⟩ k).2 := by
  obtain ⟨disk, calls, res, hcompile⟩ :=
    compile_silent sys code allowStdin { k with cin := .inputBuffer allowStdin }
  have hevents : (sys.execute code ⟨true, allowStdin⟩ k).2.events = k.events ++ [.reply res] := by
    rw [execute_cell h]
    show (sys.compile code ⟨true, allowStdin⟩ _).events = _
    rw [hcompile]
    rfl
  refine ⟨?_, ?_⟩
  · intro name
    rw [Kernel.published, hevents]
    exact published_emit_reply k name res
  · rw [Kernel.errors, hevents]
    exact (emit_reply k res).2

/-- A request for a preamble publishes what the preamble writes, silent or not. -/
theorem preamble_publishes {pre : Preamble} (h : Preamble.all.find? (·.isMatch code) = some pre)
    (config : Config) (hk : Ready k) :
    (∀ name, (sys.execute code config k).2.published name =
      k.published name ++ preambleText sys pre code k name) ∧
      (sys.execute code config k).2.errors = k.errors := by
  let k₀ : Kernel := { k with cin := .inputBuffer config.allowStdin }
  have h₀ : Ready k₀ := ⟨⟨hk.cout, hk.cerr⟩, hk.pending⟩
  have htext := preambleApply_textOnly sys pre code k₀
  obtain ⟨happlied, hwritten⟩ := preamble_written h₀ sys pre code
  have hpublished : ∀ name, (sys.preambleApply pre code k₀).2.published name =
      k.published name ++ preambleText sys pre code k name := by
    intro name
    rw [← happlied.written_eq, hwritten, h₀.written_eq]
    rfl
  rw [System.execute]
  rcases System.executeBody_preamble h config k₀ with ⟨res, k', heq, hbody⟩ | ⟨e, k', heq, hbody⟩
  · rw [heq] at hpublished htext
    rw [hbody]
    refine ⟨?_, (emit_reply k' res).2.trans htext.errors⟩
    intro name
    exact (published_emit_reply k' name res).trans (hpublished name)
  · rw [heq] at hpublished htext
    rw [hbody]
    exact ⟨hpublished, htext.errors⟩

end Request

/-- A silent request publishes nothing exactly when no preamble takes it, or one that writes
nothing does. -/
theorem silent_iff (sys : System J) (code : Str) (allowStdin : Bool) {k : Kernel}
    (hk : Reachable J k) : PublishesNothing k (sys.execute code ⟨true, allowStdin⟩ k).2 ↔
      ∀ pre, Preamble.all.find? (·.isMatch code) = some pre → PreambleWordless sys code k pre := by
  cases hfind : Preamble.all.find? (·.isMatch code) with
  | none =>
      constructor
      · intro _ pre hpre
        cases hpre
      · exact fun _ => cell_publishesNothing sys hfind allowStdin
  | some pre =>
      obtain ⟨hpublished, herrors⟩ := preamble_publishes sys hfind ⟨true, allowStdin⟩ hk.ready
      constructor
      · intro h pre' hpre
        cases hpre
        apply (preambleText_eq_nil_iff sys pre code k).mp
        intro name
        have hsame := h.streams name
        rw [hpublished] at hsame
        exact List.append_right_eq_self.mp hsame
      · intro h
        refine ⟨?_, herrors⟩
        intro name
        rw [hpublished, (preambleText_eq_nil_iff sys pre code k).mpr (h pre rfl), List.append_nil]

/-- A shell that prints a line. -/
def echoSystem : System Json := { bareSystem with popen := fun _ disk => some (lit "hi\n", disk) }

theorem silent_without_preamble :
    PublishesNothing startKernel (bareSystem.execute (lit "int x;") ⟨true, false⟩ startKernel).2 ↔
      ∀ pre, Preamble.all.find? (·.isMatch (lit "int x;")) = some pre →
        PreambleWordless bareSystem (lit "int x;") startKernel pre :=
  silent_iff bareSystem (lit "int x;") false startKernel_reachable

/-- The output of a silent command is published. -/
theorem silent_command_published : Reachable Json startKernel ∧
    ¬ PublishesNothing startKernel
      (echoSystem.execute (lit "!echo hi") ⟨true, false⟩ startKernel).2 := by
  refine ⟨startKernel_reachable, ?_⟩
  intro h
  have hout := h.streams .stdout
  revert hout
  decide

end XeusCpp.Interpreter
