/-
# XeusCpp.Magics.Manager — `xmagics_manager`, the registry and dispatch of magics.

A cell that begins with `%%name` or `%name` is handed to a registered magic. The manager finds the
name with one regular expression and splits the cell with another. A magic is whatever it does to
the world, and it may throw; the manager catches everything.

The two maps hold shared pointers, so a value may be null, and calling through a null pointer is
undefined behaviour: `none`. Besides the effects `apply` returns the list of calls it made.
-/
import XeusCpp.Host.Reply
import XeusCpp.Host.World
import XeusCpp.Text.Regex

namespace XeusCpp.Magics

open Text Host Regex

/-! ## Magics -/

/-- What a magic throws. -/
inductive Thrown
  | runtimeError (what : Str)
  | logicError (what : Str)
  | exception (what : Str)
  | other

/-- `xmagic_line`: what `operator()(line)` does, and whether it throws. -/
structure LineMagic where
  call : Str → World → Option Thrown × World

/-- `xmagic_cell`: what `operator()(line, cell)` does, and whether it throws. -/
structure CellMagic where
  call : Str → Str → World → Option Thrown × World

inductive MagicType
  | cell
  | line
deriving DecidableEq

/-! ## The registry -/

/-- A `std::map` from names to pointers that may be null. -/
abbrev PtrMap (M : Type) := Str → Option (Option M)

structure Manager where
  magicCell : PtrMap CellMagic
  magicLine : PtrMap LineMagic

namespace PtrMap

variable {M : Type}

def insert (f : PtrMap M) (name : Str) (p : Option M) : PtrMap M :=
  fun n => if n = name then some p else f n

def erase (f : PtrMap M) (name : Str) : PtrMap M := fun n => if n = name then none else f n

/-- `map[name]`: a missing entry is inserted with a null pointer. -/
def subscript (f : PtrMap M) (name : Str) : Option M × PtrMap M :=
  match f name with
  | some p => (p, f)
  | none => (none, f.insert name none)

end PtrMap

namespace Manager

/-- `register_magic`, for a type that is a line magic, a cell magic, or both. -/
def registerMagic (m : Manager) (name : Str) (line : Option LineMagic) (cell : Option CellMagic) :
    Manager where
  magicLine := if line.isSome then m.magicLine.insert name line else m.magicLine
  magicCell := if cell.isSome then m.magicCell.insert name cell else m.magicCell

def unregisterMagic (m : Manager) (name : Str) : Manager where
  magicCell := m.magicCell.erase name
  magicLine := m.magicLine.erase name

def contains (m : Manager) (name : Str) : MagicType → Bool
  | .cell => (m.magicCell name).isSome
  | .line => (m.magicLine name).isSome

end Manager

/-! ## Patterns -/

def percent : Regex := Regex.char '%'

/-- `^(?:\%{2}|\%)(\w+)` -/
def pattern : Regex := seq bos (seq (alt (seq percent percent) percent) (group 1 (plus word)))

/-- `^\%{2}(\w+)` -/
def reMagicCell : Regex := seq bos (seq percent (seq percent (group 1 (plus word))))

/-- `\w+(?:\s.*)?` -/
def header : Regex := seq (plus word) (opt (seq space (star dot)))

/-- `^\%{2}(\w+(?:\s.*)?)\n((?:.*\n?)*)` -/
def splitMagicCell : Regex :=
  seq bos (seq percent (seq percent (seq (group 1 header) (seq (Regex.char '\n') (group 2 lines)))))

/-- `^\%(\w+)` -/
def reMagicLine : Regex := seq bos (seq percent (group 1 (plus word)))

/-- `^\%(\w+(?:\s.*)?)` -/
def splitMagicLine : Regex := seq bos (seq percent (group 1 header))

/-- A group of a `std::smatch`; empty when the search failed. -/
def group? (m : Option Match) (i : Nat) : Str :=
  match m with
  | some m => m.str i
  | none => []

/-! ## Dispatch -/

/-- A call of a magic's `operator()`. -/
inductive Invocation
  | cell (name line body : Str)
  | line (name text : Str)
deriving DecidableEq

structure Applied where
  manager : Manager
  res : KernelRes
  world : World
  invoked : List Invocation

namespace Manager

/-- `apply(magic_name, line, cell)` -/
def applyCell (m : Manager) (name line cell : Str) (res : KernelRes) (w : World) : Option Applied :=
  if cell.isEmpty then
    let w := w.cerr (lit "UsageError: %%" ++ name ++
      lit " is a cell magic, but the cell body is empty.\n")
    let w := w.cerr (lit "If you only intend to display %%" ++ name ++
      lit " help, please use a double line break to fill in the cell body.")
    let w := if m.contains name .line then
        w.cerr (lit " Did you mean the line magic %" ++ name ++ lit " (single %)?")
      else w
    some ⟨m, res, w.cerr (lit "\n"), []⟩
  else
    match m.magicCell.subscript name with
    | (none, _) => none
    | (some magic, magicCell) =>
        let w := match magic.call line cell w with
          | (none, w) => w
          | (some (.runtimeError what), w) => w.cerr (what ++ lit "\n")
          | (some (.logicError what), w) => w.cerr (what ++ lit "\n")
          | (some (.exception what), w) => w.cerr (what ++ lit "\n")
          | (some .other, w) => w.cerr (lit "Exception occurred. Recovering...\n")
        some ⟨{ m with magicCell := magicCell }, res, w, [.cell name line cell]⟩

/-- `apply(magic_name, line)` -/
def applyLine (m : Manager) (name line : Str) (res : KernelRes) (w : World) : Option Applied :=
  match m.magicLine.subscript name with
  | (none, _) => none
  | (some magic, magicLine) =>
      let w := match magic.call line w with
        | (none, w) => w
        | (some (.runtimeError what), w) => w.cerr (what ++ lit "\n")
        | (some (.logicError what), w) => w.cerr (what ++ lit "\n")
        -- neither a runtime nor a logic error: `catch (...)`
        | (some (.exception _), w) => w.cerr (lit "Exception occurred. Recovering...\n")
        | (some .other, w) => w.cerr (lit "Exception occurred. Recovering...\n")
      some ⟨{ m with magicLine := magicLine }, res, w, [.line name line]⟩

/-- An empty body is reported and nothing is called. -/
theorem applyCell_nil (m : Manager) (name line : Str) (res : KernelRes) (w : World) :
    ∃ a, m.applyCell name line [] res w = some a ∧ a.manager = m ∧ a.world.disk = w.disk := by
  refine ⟨_, rfl, rfl, ?_⟩
  dsimp only
  split
  · rfl
  · rfl

theorem append_newline_ne (s : Str) : s ++ lit "\n" ≠ [] := by
  intro h
  cases (List.append_eq_nil_iff.mp h).2

section Call

variable {m : Manager} {name line cell : Str} {w w' : World} {thrown : Thrown} (res : KernelRes)

/-- A magic that does not throw has done what it does. -/
theorem applyCell_of_call {magic : CellMagic} (hm : m.magicCell name = some (some magic))
    (hcell : cell ≠ []) (hcall : magic.call line cell w = (none, w')) :
    m.applyCell name line cell res w = some ⟨m, res, w', [.cell name line cell]⟩ := by
  have hcell' : ¬cell.isEmpty = true := by simpa using hcell
  rw [applyCell, if_neg hcell', PtrMap.subscript, hm]
  simp only [hcall]

/-- What a magic throws is reported. -/
theorem applyCell_of_throw {magic : CellMagic} (hm : m.magicCell name = some (some magic))
    (hcell : cell ≠ []) (hcall : magic.call line cell w = (some thrown, w')) :
    ∃ s, s ≠ [] ∧ m.applyCell name line cell res w =
      some ⟨m, res, w'.cerr s, [.cell name line cell]⟩ := by
  have hcell' : ¬cell.isEmpty = true := by simpa using hcell
  rw [applyCell, if_neg hcell', PtrMap.subscript, hm]
  simp only [hcall]
  cases thrown with
  | runtimeError what => exact ⟨_, append_newline_ne what, rfl⟩
  | logicError what => exact ⟨_, append_newline_ne what, rfl⟩
  | exception what => exact ⟨_, append_newline_ne what, rfl⟩
  | other => exact ⟨_, by decide, rfl⟩

theorem applyLine_of_call {magic : LineMagic} (hm : m.magicLine name = some (some magic))
    (hcall : magic.call line w = (none, w')) :
    m.applyLine name line res w = some ⟨m, res, w', [.line name line]⟩ := by
  rw [applyLine, PtrMap.subscript, hm]
  simp only [hcall]

theorem applyLine_of_throw {magic : LineMagic} (hm : m.magicLine name = some (some magic))
    (hcall : magic.call line w = (some thrown, w')) :
    ∃ s, s ≠ [] ∧ m.applyLine name line res w = some ⟨m, res, w'.cerr s, [.line name line]⟩ := by
  rw [applyLine, PtrMap.subscript, hm]
  simp only [hcall]
  cases thrown with
  | runtimeError what => exact ⟨_, append_newline_ne what, rfl⟩
  | logicError what => exact ⟨_, append_newline_ne what, rfl⟩
  | exception _ => exact ⟨_, by decide, rfl⟩
  | other => exact ⟨_, by decide, rfl⟩

end Call

/-- The first half of `apply(code, kernel_res)`; `true` when it returns. -/
def cellPart (m : Manager) (code : Str) (res : KernelRes) (w : World) : Option (Bool × Applied) :=
  match search reMagicCell code with
  | none => some (false, ⟨m, res, w, []⟩)
  | some magicName =>
      let name := magicName.str 1
      if m.contains name .cell then
        let split := search splitMagicCell code
        (m.applyCell name (group? split 1) (group? split 2) res w).map fun a =>
          (false, { a with res := a.res.setOk })
      else
        some (true, ⟨m, res.setError (.lines []),
          w.cerr (lit "Unknown magic cell function %%" ++ name ++ lit "\n"), []⟩)

/-- The second half, behind the first. -/
def linePart (code : Str) (a : Applied) : Option Applied :=
  match search reMagicLine code with
  | none => some a
  | some magicName =>
      let name := magicName.str 1
      if a.manager.contains name .line then
        let split := search splitMagicLine code
        (a.manager.applyLine name (group? split 1) a.res a.world).map fun b =>
          { b with res := b.res.setOk, invoked := a.invoked ++ b.invoked }
      else
        some { a with
          res := a.res.setError .null
          world := a.world.cerr (lit "Unknown magic line function %" ++ name ++ lit "\n") }

/-- `apply(code, kernel_res)` -/
def apply (m : Manager) (code : Str) (res : KernelRes) (w : World) : Option Applied :=
  match m.cellPart code res w with
  | none => none
  | some (true, a) => some a
  | some (false, a) => linePart code a

end Manager

/-! ## Registries without a null pointer -/

def PtrMap.Sound {M : Type} (f : PtrMap M) : Prop := ∀ name, f name ≠ some none

structure Manager.Sound (m : Manager) : Prop where
  cell : m.magicCell.Sound
  line : m.magicLine.Sound

theorem PtrMap.subscript_of_sound {M : Type} {f : PtrMap M} (hf : f.Sound) {name : Str}
    (h : (f name).isSome) : ∃ p, f.subscript name = (some p, f) := by
  obtain ⟨q, hq⟩ := Option.isSome_iff_exists.mp h
  cases q with
  | none => exact absurd hq (hf name)
  | some p => exact ⟨p, by rw [PtrMap.subscript, hq]⟩

namespace Manager

variable {m : Manager} (res : KernelRes) (w : World)

theorem applyCell_of_sound (hm : m.Sound) {name : Str} (h : m.contains name .cell = true)
    (line cell : Str) : ∃ a, m.applyCell name line cell res w = some a ∧ a.manager = m := by
  unfold applyCell
  by_cases hcell : cell.isEmpty = true
  · rw [if_pos hcell]
    exact ⟨_, rfl, rfl⟩
  · obtain ⟨p, hp⟩ := PtrMap.subscript_of_sound hm.cell h
    rw [if_neg hcell, hp]
    exact ⟨_, rfl, rfl⟩

theorem applyLine_of_sound (hm : m.Sound) {name : Str} (h : m.contains name .line = true)
    (line : Str) : ∃ a, m.applyLine name line res w = some a ∧ a.manager = m := by
  obtain ⟨p, hp⟩ := PtrMap.subscript_of_sound hm.line h
  unfold applyLine
  rw [hp]
  exact ⟨_, rfl, rfl⟩

theorem cellPart_of_sound (hm : m.Sound) (code : Str) :
    ∃ r, m.cellPart code res w = some r ∧ r.2.manager = m := by
  unfold cellPart
  split
  · exact ⟨_, rfl, rfl⟩
  next magicName _ =>
    dsimp only
    split
    next h =>
      obtain ⟨a, ha, hma⟩ := applyCell_of_sound res w hm h
        (group? (search splitMagicCell code) 1) (group? (search splitMagicCell code) 2)
      rw [ha]
      exact ⟨_, rfl, hma⟩
    next => exact ⟨_, rfl, rfl⟩

theorem linePart_of_sound (code : Str) {a : Applied} (ha : a.manager.Sound) :
    ∃ b, linePart code a = some b ∧ b.manager = a.manager := by
  unfold linePart
  split
  · exact ⟨_, rfl, rfl⟩
  next magicName _ =>
    dsimp only
    split
    next h =>
      obtain ⟨b, hb, hmb⟩ := applyLine_of_sound a.res a.world ha h
        (group? (search splitMagicLine code) 1)
      rw [hb]
      exact ⟨_, rfl, hmb⟩
    next => exact ⟨_, rfl, rfl⟩

/-- No pointer followed is null, and no entry is added, removed or replaced. -/
theorem apply_of_sound (hm : m.Sound) (code : Str) :
    ∃ a, m.apply code res w = some a ∧ a.manager = m := by
  obtain ⟨⟨returned, a⟩, ha, hma⟩ := cellPart_of_sound res w hm code
  cases hma
  cases returned with
  | true => exact ⟨a, by rw [apply, ha], rfl⟩
  | false =>
      obtain ⟨b, hb, hmb⟩ := linePart_of_sound code hm
      exact ⟨b, by rw [apply, ha]; exact hb, hmb⟩

end Manager

/-- A registry whose pointers may all be followed. -/
structure Registry where
  manager : Manager
  sound : manager.Sound

namespace Registry

/-- `apply(code, kernel_res)`; the registry itself stays the same. -/
def apply (r : Registry) (code : Str) (res : KernelRes) (w : World) : KernelRes × World :=
  have h : (r.manager.apply code res w).isSome := by
    obtain ⟨a, ha, -⟩ := Manager.apply_of_sound res w r.sound code
    simp [ha]
  let a := (r.manager.apply code res w).get h
  (a.res, a.world)

end Registry

end XeusCpp.Magics
