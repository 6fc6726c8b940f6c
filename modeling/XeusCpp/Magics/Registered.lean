/-
# XeusCpp.Magics.Registered — what a sequence of registrations leaves.

A manager starts with two empty maps. Its maps change by `register_magic` and `unregister_magic` only,
although a call looks a magic up with the subscript operator, which would insert a null pointer for a
name that is missing.

**`registry_run`** says so for every sequence of operations: no pointer is null, and a name is
registered exactly when the last operation on it was a registration.
-/
import XeusCpp.Logic.History
import XeusCpp.Magics.Manager

namespace XeusCpp.Magics

open Text Host Regex Logic

/-! ## What is registered -/

/-- The types of the magics: `xmagic_line`, `xmagic_cell`, or both. -/
inductive Magic
  | line (f : LineMagic)
  | cell (g : CellMagic)
  | lineCell (f : LineMagic) (g : CellMagic)

namespace Magic

/-- `std::is_base_of` -/
def isA : Magic → MagicType → Bool
  | .line _, type => type = .line
  | .cell _, type => type = .cell
  | .lineCell _ _, _ => true

/-- `std::dynamic_pointer_cast<xmagic_line>` -/
def asLine : Magic → Option LineMagic
  | .line f => some f
  | .cell _ => none
  | .lineCell f _ => some f

/-- `std::dynamic_pointer_cast<xmagic_cell>` -/
def asCell : Magic → Option CellMagic
  | .line _ => none
  | .cell g => some g
  | .lineCell _ g => some g

/-- A pointer is cast only where the cast succeeds. -/
theorem isA_line (magic : Magic) : magic.isA .line = magic.asLine.isSome := by
  cases magic <;> rfl

theorem isA_cell (magic : Magic) : magic.isA .cell = magic.asCell.isSome := by
  cases magic <;> rfl

end Magic

/-! ## Operations -/

inductive Op
  | register (name : Str) (magic : Magic)
  | unregister (name : Str)
  | apply (code : Str) (res : KernelRes)

namespace Op

/-- The operation changes what is registered under `name` for `type`. -/
def Touches (name : Str) (type : MagicType) : Op → Prop
  | .register n magic => n = name ∧ magic.isA type = true
  | .unregister n => n = name
  | .apply _ _ => False

def Registers (name : Str) (type : MagicType) (op : Op) : Prop :=
  ∃ magic, op = .register name magic ∧ magic.isA type = true

theorem Registers.touches {name : Str} {type : MagicType} {op : Op} (h : op.Registers name type) :
    op.Touches name type := by
  obtain ⟨magic, rfl, hmagic⟩ := h
  exact ⟨rfl, hmagic⟩

/-- One operation; `none` where a null pointer is followed. -/
def perform (s : Manager × World) : Op → Option (Manager × World)
  | .register name magic => some (s.1.registerMagic name magic.asLine magic.asCell, s.2)
  | .unregister name => some (s.1.unregisterMagic name, s.2)
  | .apply code res => (s.1.apply code res s.2).map fun a => (a.manager, a.world)

end Op

/-- `xmagics_manager()` -/
def Manager.new : Manager := ⟨fun _ => none, fun _ => none⟩

/-- A sequence of operations. -/
def performAll (s : Manager × World) (ops : List Op) : Option (Manager × World) :=
  ops.foldlM Op.perform s

/-- The last operation on `name` and `type` is a registration. -/
def LastRegistered (ops : List Op) (name : Str) (type : MagicType) : Prop :=
  ∃ pre op post, ops = pre ++ op :: post ∧ op.Registers name type ∧
    ∀ later ∈ post, ¬ later.Touches name type

theorem not_lastRegistered_nil (name : Str) (type : MagicType) : ¬ LastRegistered [] name type := by
  rintro ⟨pre, op, post, h, -⟩
  simp at h

/-- One more operation decides, or it does not touch the name. -/
theorem lastRegistered_concat {ops : List Op} {op : Op} {name : Str} {type : MagicType} :
    LastRegistered (ops ++ [op]) name type ↔
      op.Registers name type ∨ (¬ op.Touches name type ∧ LastRegistered ops name type) := by
  constructor
  · rintro ⟨pre, o, post, h, ho, hpost⟩
    rcases concat_eq_split_iff.mp h with ⟨-, rfl, -⟩ | ⟨mid, rfl, hops⟩
    · exact .inl ho
    · refine .inr ⟨hpost op (by simp), pre, o, mid, hops, ho, ?_⟩
      intro later hl
      exact hpost later (by simp [hl])
  · rintro (h | ⟨h, pre, o, post, rfl, ho, hpost⟩)
    · exact ⟨ops, op, [], rfl, h, nofun⟩
    · refine ⟨pre, o, post ++ [op], by simp, ho, ?_⟩
      intro later hl
      rcases List.mem_append.mp hl with hl | hl
      · exact hpost later hl
      · exact List.mem_singleton.mp hl ▸ h

/-- An operation that registers nothing only keeps what it does not touch. -/
theorem lastRegistered_concat_of_not {ops : List Op} {op : Op}
    (hop : ∀ n magic, op ≠ .register n magic) {name : Str} {type : MagicType} :
    LastRegistered (ops ++ [op]) name type ↔
      ¬ op.Touches name type ∧ LastRegistered ops name type := by
  rw [lastRegistered_concat]
  apply or_iff_right
  rintro ⟨magic, heq, -⟩
  exact hop name magic heq

/-! ## The invariant -/

/-- The maps hold the registrations that `ops` left, and no null pointer. -/
structure Manager.Holds (m : Manager) (ops : List Op) : Prop where
  sound : m.Sound
  contains : ∀ name type, m.contains name type = true ↔ LastRegistered ops name type

namespace PtrMap

variable {M : Type} {f : PtrMap M}

/-- What `register_magic` does to one of its maps. -/
theorem Sound.register (hf : f.Sound) (name : Str) (p : Option M) :
    PtrMap.Sound (if p.isSome then f.insert name p else f) := by
  split
  next hp =>
    intro n
    unfold PtrMap.insert
    split
    · intro h
      rw [Option.some.inj h] at hp
      exact Bool.noConfusion hp
    · exact hf n
  next => exact hf

theorem Sound.erase (hf : f.Sound) (name : Str) : (f.erase name).Sound := by
  intro n
  unfold PtrMap.erase
  split
  · simp
  · exact hf n

theorem isSome_register (f : PtrMap M) (name n : Str) (p : Option M) :
    ((if p.isSome then f.insert name p else f) n).isSome = true ↔
      (name = n ∧ p.isSome = true) ∨ (f n).isSome = true := by
  by_cases hp : p.isSome = true
  · rw [if_pos hp, PtrMap.insert]
    by_cases hn : n = name
    · simp [hn, hp]
    · simp [hn, Ne.symm hn]
  · simp [hp]

theorem isSome_erase (f : PtrMap M) (name n : Str) :
    (f.erase name n).isSome = true ↔ name ≠ n ∧ (f n).isSome = true := by
  unfold PtrMap.erase
  by_cases hn : n = name
  · simp [hn]
  · simp [hn, Ne.symm hn]

end PtrMap

namespace Manager

variable {m : Manager}

theorem Sound.register (hm : m.Sound) (name : Str) (line : Option LineMagic)
    (cell : Option CellMagic) : (m.registerMagic name line cell).Sound :=
  ⟨hm.cell.register name cell, hm.line.register name line⟩

theorem Sound.unregister (hm : m.Sound) (name : Str) : (m.unregisterMagic name).Sound :=
  ⟨hm.cell.erase name, hm.line.erase name⟩

theorem contains_register (m : Manager) (name n : Str) (magic : Magic) (type : MagicType) :
    (m.registerMagic name magic.asLine magic.asCell).contains n type = true ↔
      (name = n ∧ magic.isA type = true) ∨ m.contains n type = true := by
  cases type with
  | cell =>
      rw [Magic.isA_cell]
      exact PtrMap.isSome_register m.magicCell name n magic.asCell
  | line =>
      rw [Magic.isA_line]
      exact PtrMap.isSome_register m.magicLine name n magic.asLine

theorem contains_unregister (m : Manager) (name n : Str) (type : MagicType) :
    (m.unregisterMagic name).contains n type = true ↔ name ≠ n ∧ m.contains n type = true := by
  cases type with
  | cell => exact PtrMap.isSome_erase m.magicCell name n
  | line => exact PtrMap.isSome_erase m.magicLine name n

end Manager

/-- **The step lemma.** -/
theorem Manager.Holds.perform {m : Manager} {ops : List Op} (h : m.Holds ops) (w : World)
    (op : Op) : ∃ m' w', op.perform (m, w) = some (m', w') ∧ m'.Holds (ops ++ [op]) := by
  cases op with
  | register name magic =>
      refine ⟨_, w, rfl, h.sound.register name _ _, ?_⟩
      intro n type
      rw [Manager.contains_register, lastRegistered_concat, h.contains]
      constructor
      · rintro (⟨rfl, hmagic⟩ | hops)
        · exact .inl ⟨magic, rfl, hmagic⟩
        · by_cases ht : (Op.register name magic).Touches n type
          · obtain ⟨rfl, hmagic⟩ := ht
            exact .inl ⟨magic, rfl, hmagic⟩
          · exact .inr ⟨ht, hops⟩
      · rintro (hreg | ⟨-, hops⟩)
        · exact .inl hreg.touches
        · exact .inr hops
  | unregister name =>
      refine ⟨_, w, rfl, h.sound.unregister name, ?_⟩
      intro n type
      rw [Manager.contains_unregister, lastRegistered_concat_of_not (fun _ _ => Op.noConfusion),
        h.contains]
      rfl
  | apply code res =>
      obtain ⟨a, ha, rfl⟩ := Manager.apply_of_sound res w h.sound code
      refine ⟨a.manager, a.world, ?_, h.sound, ?_⟩
      · show (a.manager.apply code res w).map _ = _
        rw [ha]
        rfl
      · intro n type
        rw [lastRegistered_concat_of_not (fun _ _ => Op.noConfusion), h.contains]
        exact (and_iff_right not_false).symm

theorem Manager.holds_new : Manager.new.Holds [] := by
  refine ⟨⟨fun _ => nofun, fun _ => nofun⟩, fun name type => ?_⟩
  refine iff_of_false ?_ (not_lastRegistered_nil name type)
  cases type <;> exact Bool.noConfusion

/-- **The registry of every run**: no operation follows a null pointer or leaves one, a name is
registered exactly when the last operation on it was a registration, and `apply` changes nothing. -/
theorem registry_run (ops : List Op) (w : World) :
    ∃ m w', performAll (.new, w) ops = some (m, w') ∧ m.Sound ∧
      (∀ name type, m.contains name type = true ↔ LastRegistered ops name type) ∧
      ∀ code res v, ∃ a, m.apply code res v = some a ∧ a.manager = m := by
  have hstep {s : Manager × World} {h : List Op} (op : Op) (hs : s.1.Holds h) :
      ∃ t, op.perform s = some t ∧ t.1.Holds (h ++ [op]) := by
    obtain ⟨m', w', hperform, hm'⟩ := hs.perform s.2 op
    exact ⟨(m', w'), hperform, hm'⟩
  obtain ⟨⟨m, w'⟩, hrun, hm⟩ :=
    foldlM_history (I := fun s h => s.1.Holds h) hstep (s := (Manager.new, w)) Manager.holds_new ops
  exact ⟨m, w', hrun, hm.sound, hm.contains, fun code res v =>
    Manager.apply_of_sound res v hm.sound code⟩

end XeusCpp.Magics
