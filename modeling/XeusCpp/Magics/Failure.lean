/-
# XeusCpp.Magics.Failure — what a magic that throws is reported as.

The two overloads that call a magic catch all it throws, each sorting the exceptions in its own way,
and return nothing. Their caller cannot tell a magic that threw from one that did not, and sets the
status behind both.

**`failure_reported_iff`**: the status is that of the call exactly when the magic did not throw.
-/
import XeusCpp.Magics.Registered
import XeusCpp.Magics.WriteFile

namespace XeusCpp.Magics

open Text Host Regex

section

variable {m : Manager} {code : Str} {w w' : World} {thrown : Option Thrown}

/-- A code is routed to a registered magic, whose call with the parts of the code has the given
outcome. A cell magic is not called without a body. -/
inductive Routed (m : Manager) (code : Str) (w : World) : Option Thrown × World → Prop
  | cell {name : Match} {magic : CellMagic} (hname : search reMagicCell code = some name)
      (hmagic : m.magicCell (name.str 1) = some (some magic))
      (hbody : group? (search splitMagicCell code) 2 ≠ []) :
      Routed m code w (magic.call (group? (search splitMagicCell code) 1)
        (group? (search splitMagicCell code) 2) w)
  | line {name : Match} {magic : LineMagic} (hname : search reMagicLine code = some name)
      (hmagic : m.magicLine (name.str 1) = some (some magic)) :
      Routed m code w (magic.call (group? (search splitMagicLine code) 1) w)

theorem contains_line {name : Str} {f : LineMagic} (hf : m.magicLine name = some (some f)) :
    m.contains name .line = true := by
  simp [Manager.contains, hf]

/-- A line magic is named behind one percent sign, so the code names no cell magic. -/
theorem search_reMagicCell_of_line {name : Match} (h : search reMagicLine code = some name) :
    search reMagicCell code = none := by
  cases hcell : search reMagicCell code with
  | none => rfl
  | some mt =>
      obtain ⟨t, rfl⟩ := twoPercent_of_search hcell
      have hnone : search reMagicLine (twoPercent t) = none :=
        search_reMagicLine_none (takeWhile_twoPercent t)
      rw [hnone] at h
      cases h

/-- What a cell magic throws is caught, and the reply is left to the caller. -/
theorem applyCell_res {name cell : Str} {magic : CellMagic} (line : Str) (res : KernelRes)
    (hmagic : m.magicCell name = some (some magic)) (hcell : cell ≠ []) :
    ∃ a, m.applyCell name line cell res w = some a ∧ a.manager = m ∧ a.res = res := by
  cases hcall : magic.call line cell w with
  | mk thrown w' =>
      cases thrown with
      | none => exact ⟨_, Manager.applyCell_of_call res hmagic hcell hcall, rfl, rfl⟩
      | some t =>
          obtain ⟨s, -, happly⟩ := Manager.applyCell_of_throw res hmagic hcell hcall
          exact ⟨_, happly, rfl, rfl⟩

theorem applyLine_res {name : Str} {magic : LineMagic} (line : Str) (res : KernelRes)
    (hmagic : m.magicLine name = some (some magic)) :
    ∃ a, m.applyLine name line res w = some a ∧ a.manager = m ∧ a.res = res := by
  cases hcall : magic.call line w with
  | mk thrown w' =>
      cases thrown with
      | none => exact ⟨_, Manager.applyLine_of_call res hmagic hcall, rfl, rfl⟩
      | some t =>
          obtain ⟨s, -, happly⟩ := Manager.applyLine_of_throw res hmagic hcall
          exact ⟨_, happly, rfl, rfl⟩

/-- Whatever the call of a magic does, `apply` returns and the reply says `ok`. -/
theorem apply_of_routed (res : KernelRes) {outcome : Option Thrown × World}
    (h : Routed m code w outcome) :
    ∃ a, m.apply code res w = some a ∧ a.manager = m ∧ a.res = res.setOk := by
  cases h with
  | @cell name magic hname hmagic hbody =>
      obtain ⟨t, rfl⟩ := twoPercent_of_search hname
      obtain ⟨a, ha, hm, hres⟩ := applyCell_res (w := w)
        (group? (search splitMagicCell (twoPercent t)) 1) res hmagic hbody
      refine ⟨{ a with res := a.res.setOk }, ?_, hm, by rw [hres]⟩
      unfold Manager.apply Manager.cellPart
      rw [hname]
      simp only [contains_cell hmagic, if_true, ha, Option.map_some]
      exact linePart_twoPercent t _
  | @line name magic hname hmagic =>
      obtain ⟨a, ha, hm, hres⟩ := applyLine_res (w := w)
        (group? (search splitMagicLine code) 1) res hmagic
      refine ⟨{ a with res := a.res.setOk, invoked := [] ++ a.invoked }, ?_, hm, by rw [hres]⟩
      unfold Manager.apply Manager.cellPart
      rw [search_reMagicCell_of_line hname]
      simp only [Manager.linePart, hname, contains_line hmagic, if_true, ha, Option.map_some]

/-- The status a magic that threw, or did not, is to be reported with. -/
def statusOf : Option Thrown → Status
  | none => .ok
  | some _ => .error

/-- `apply` returns, the registry is as it was, and the status is that of the call. -/
def ReportsOutcome (m : Manager) (code : Str) (res : KernelRes) (w : World)
    (thrown : Option Thrown) : Prop :=
  ∃ a, m.apply code res w = some a ∧ a.manager = m ∧ a.res.status = some (statusOf thrown)

/-- **A magic's outcome is reported exactly when it did not throw.** -/
theorem failure_reported_iff (m : Manager) (code : Str) (res : KernelRes) (w : World)
    {outcome : Option Thrown × World} (h : Routed m code w outcome) :
    ReportsOutcome m code res w outcome.1 ↔ outcome.1 = none := by
  obtain ⟨a, ha, hm, hres⟩ := apply_of_routed res h
  constructor
  · rintro ⟨a', ha', -, hstatus⟩
    cases ha.symm.trans ha'
    rw [hres] at hstatus
    cases hthrown : outcome.1 with
    | none => rfl
    | some t =>
        rw [hthrown] at hstatus
        cases hstatus
  · intro hthrown
    refine ⟨a, ha, hm, ?_⟩
    rw [hres, hthrown]
    rfl

end

/-! ## A header without a file name -/

/-- The parser on a header that names no file. -/
def noFilename : ArgParser := fun _ => ⟨[],
  some (.runtimeError (lit "filename: 1 argument(s) expected. 0 provided.")),
  .error (.logicError (lit "No value provided for 'filename'.")), false⟩

/-- A manager with one magic, for cells. -/
def fileMagic (magic : CellMagic) : Manager :=
  Manager.new.registerMagic (lit "file") none (some magic)

def nameless : Str := lit "%%file -a\nhello"

theorem routed_nameless (magic : CellMagic) (w : World) :
    Routed (fileMagic magic) nameless w (magic.call (lit "file -a") (lit "hello") w) := by
  have hname : (search reMagicCell nameless).map (·.str 1) = some (lit "file") := by
    decide
  obtain ⟨name, hsearch, hfile⟩ := Option.map_eq_some_iff.mp hname
  have hsplit : group? (search splitMagicCell nameless) 1 = lit "file -a" ∧
      group? (search splitMagicCell nameless) 2 = lit "hello" := by decide
  have hmagic : (fileMagic magic).magicCell (name.str 1) = some (some magic) := by
    rw [hfile]
    rfl
  have h := Routed.cell (w := w) hsearch hmagic (by rw [hsplit.2]; decide)
  rw [hsplit.1, hsplit.2] at h
  exact h

/-- A magic that returns is reported as one that did. -/
theorem failure_reported_silent :
    ReportsOutcome (fileMagic silentCell) nameless .new .fresh none :=
  (failure_reported_iff _ nameless .new .fresh (routed_nameless silentCell .fresh)).mpr rfl

/-- Without a file name the file magic throws, and the reply says `ok`. -/
theorem failure_reported_as_ok :
    ¬ ∀ (m : Manager) (code : Str) (res : KernelRes) (w : World) (outcome : Option Thrown × World),
      Routed m code w outcome → ReportsOutcome m code res w outcome.1 := by
  intro h
  have hrouted := routed_nameless ⟨writefile noFilename⟩ .fresh
  obtain ⟨a, ha, -, hstatus⟩ := h _ _ .new .fresh _ hrouted
  obtain ⟨a', ha', -, hres⟩ := apply_of_routed .new hrouted
  cases ha.symm.trans ha'
  rw [hres] at hstatus
  cases hstatus

end XeusCpp.Magics
