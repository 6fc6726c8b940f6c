/-
# XeusCpp.Logic.Ownership — variables that own what they point to.

A `Heap` holds objects at addresses, and variables that are absent, null or point to an object. The
operations are those of a smart pointer with one owner: a variable is declared, given a new object,
moved, swapped with another, read, or destroyed together with its object. Each is a partial function:
to follow a pointer to nothing, to delete an object twice, to use a variable that is absent and to
declare one that is present are undefined.

A `Store` is what a program means to work on: variables with values, absent, empty or full. `Owns h s`
says that the heap is the store: each variable points to an object of its own with its value, and
there is no other object. Every operation keeps it, so it is defined on the heap exactly where it
is on the store (`Owns.exec`), and so is every program of them (`Owns.run`).
-/
import Mathlib.Data.Option.Basic
import Mathlib.Logic.Equiv.Basic
import Mathlib.Tactic.Common

namespace XeusCpp.Logic

universe u v

structure Heap (ι : Type u) (V : Type v) where
  pointers : ι → Option (Option Nat)
  objects : Nat → Option V
  /-- No address from here on was given to an object. -/
  next : Nat

abbrev Store (ι : Type u) (V : Type v) := ι → Option (Option V)

section

variable {ι : Type u} [DecidableEq ι] {V : Type v}

/-! ## The operations on the heap -/

namespace Heap

/-- Neither variables nor objects. -/
def empty : Heap ι V := ⟨fun _ => none, fun _ => none, 0⟩

variable (h : Heap ι V)

/-- A new null variable. -/
def declare (i : ι) : Option (Heap ι V) :=
  match h.pointers i with
  | none => some { h with pointers := Function.update h.pointers i (some none) }
  | some _ => none

/-- A new variable, with a new object. -/
def emplace (i : ι) (v : V) : Option (Heap ι V) :=
  match h.pointers i with
  | none => some ⟨Function.update h.pointers i (some (some h.next)),
      Function.update h.objects h.next (some v), h.next + 1⟩
  | some _ => none

/-- `delete`, which does nothing to a null pointer. -/
def delete (p : Option Nat) : Option (Heap ι V) :=
  match p with
  | none => some h
  | some a => (h.objects a).map fun _ => { h with objects := Function.update h.objects a none }

/-- The end of a variable, and of its object. -/
def destroy (i : ι) : Option (Heap ι V) :=
  match h.pointers i with
  | none => none
  | some p => delete { h with pointers := Function.update h.pointers i none } p

/-- A variable becomes null, and its object ends. -/
def reset (i : ι) : Option (Heap ι V) :=
  match h.pointers i with
  | none => none
  | some p => delete { h with pointers := Function.update h.pointers i (some none) } p

/-- A new variable `j` takes what `i` has, and `i` is null. -/
def move (j i : ι) : Option (Heap ι V) :=
  match h.pointers j, h.pointers i with
  | none, some p => some { h with
      pointers := Function.update (Function.update h.pointers j (some p)) i (some none) }
  | _, _ => none

/-- `i` gives its pointer away and is null; then `j`, which may be the same variable, takes the
pointer, and the object `j` had ends. -/
def assign (j i : ι) : Option (Heap ι V) :=
  match h.pointers i with
  | none => none
  | some p =>
      let released := Function.update h.pointers i (some none)
      match released j with
      | none => none
      | some q => delete { h with pointers := Function.update released j (some p) } q

def swap (i j : ι) : Option (Heap ι V) :=
  match h.pointers i, h.pointers j with
  | some p, some q => some { h with
      pointers := Function.update (Function.update h.pointers i (some q)) j (some p) }
  | _, _ => none

/-- The object of a variable, nothing where that is null. -/
def get (i : ι) : Option (Option V) :=
  match h.pointers i with
  | none => none
  | some none => some none
  | some (some a) => (h.objects a).map some

/-- The object of a variable is changed. -/
def modify (i : ι) (f : V → V) : Option (Heap ι V) :=
  match h.pointers i with
  | some (some a) =>
      (h.objects a).map fun v => { h with objects := Function.update h.objects a (some (f v)) }
  | _ => none

end Heap

/-! ## The operations on values -/

namespace Store

variable (s : Store ι V)

def declare (i : ι) : Option (Store ι V) :=
  match s i with
  | none => some (Function.update s i (some none))
  | some _ => none

def emplace (i : ι) (v : V) : Option (Store ι V) :=
  match s i with
  | none => some (Function.update s i (some (some v)))
  | some _ => none

def destroy (i : ι) : Option (Store ι V) :=
  match s i with
  | none => none
  | some _ => some (Function.update s i none)

def reset (i : ι) : Option (Store ι V) :=
  match s i with
  | none => none
  | some _ => some (Function.update s i (some none))

def move (j i : ι) : Option (Store ι V) :=
  match s j, s i with
  | none, some o => some (Function.update (Function.update s j (some o)) i (some none))
  | _, _ => none

/-- What `i` has moves to `j`; to itself, nothing moves. -/
def assign (j i : ι) : Option (Store ι V) :=
  match s j, s i with
  | some _, some o => some (Function.update (Function.update s i (some none)) j (some o))
  | _, _ => none

def swap (i j : ι) : Option (Store ι V) :=
  match s i, s j with
  | some o, some o' => some (Function.update (Function.update s i (some o')) j (some o))
  | _, _ => none

def get (i : ι) : Option (Option V) := s i

def modify (i : ι) (f : V → V) : Option (Store ι V) :=
  match s i with
  | some (some v) => some (Function.update s i (some (some (f v))))
  | _ => none

end Store

/-! ## Ownership -/

omit [DecidableEq ι] in
/-- The heap is the store, and every object has one owner. -/
structure Owns (h : Heap ι V) (s : Store ι V) : Prop where
  value : ∀ i, s i = (h.pointers i).map fun p => p.bind h.objects
  live : ∀ {i a}, h.pointers i = some (some a) → h.objects a ≠ none
  unique : ∀ {i j a}, h.pointers i = some (some a) → h.pointers j = some (some a) → i = j
  owner : ∀ {a}, h.objects a ≠ none → ∃ i, h.pointers i = some (some a)
  fresh : ∀ {a}, h.next ≤ a → h.objects a = none

omit [DecidableEq ι] in
theorem owns_empty : Owns (Heap.empty : Heap ι V) fun _ => none where
  value _ := rfl
  live h := by cases h
  unique h := by cases h
  owner h := absurd rfl h
  fresh _ := rfl

section Operations

variable {h : Heap ι V} {s : Store ι V} {i j : ι}

theorem update_eq_iff {β : Type v} {f : ι → β} {p q : β} :
    Function.update f i p j = q ↔ j = i ∧ p = q ∨ j ≠ i ∧ f j = q := by
  by_cases hj : j = i
  · subst hj
    simp
  · simp [hj]

omit [DecidableEq ι] in
/-- A variable keeps its value when an object changes that is not its own. -/
theorem Owns.value_update (ho : Owns h s) {a : Nat} (hne : ∀ {b}, h.pointers i = some (some b) → b ≠ a)
    (o : Option V) : s i = (h.pointers i).map fun p => p.bind (Function.update h.objects a o) := by
  rw [ho.value i]
  rcases hi : h.pointers i with _ | _ | b
  · rfl
  · rfl
  · show some (h.objects b) = some (Function.update h.objects a o b)
    rw [Function.update_of_ne (hne hi)]

/-! Four changes of a heap and its store, which the operations are made of. -/

omit [DecidableEq ι] in
/-- The variables change their places. -/
theorem Owns.permute (ho : Owns h s) (e : Equiv.Perm ι) :
    Owns { h with pointers := h.pointers ∘ e } (s ∘ e) where
  value k := ho.value (e k)
  live hk := ho.live hk
  unique hk hl := e.injective (ho.unique hk hl)
  owner ha := by
    obtain ⟨k, hk⟩ := ho.owner ha
    refine ⟨e.symm k, ?_⟩
    show h.pointers (e (e.symm k)) = _
    rw [e.apply_symm_apply, hk]
  fresh := ho.fresh

/-- A variable without an object becomes another one, absent or null. -/
theorem Owns.setBare (ho : Owns h s) (hi : ∀ a, h.pointers i ≠ some (some a))
    {p : Option (Option Nat)} {o : Option (Option V)} (hp : p = none ∧ o = none ∨
      p = some none ∧ o = some none) :
    Owns { h with pointers := Function.update h.pointers i p } (Function.update s i o) := by
  have hbare : ∀ a, p ≠ some (some a) := by
    rcases hp with ⟨rfl, -⟩ | ⟨rfl, -⟩ <;> simp
  have hpoints : ∀ {k a}, Function.update h.pointers i p k = some (some a) →
      h.pointers k = some (some a) := by
    intro k a hk
    obtain ⟨-, hk⟩ | ⟨-, hk⟩ := update_eq_iff.mp hk
    · exact absurd hk (hbare a)
    · exact hk
  constructor
  case value =>
    intro k
    show Function.update s i o k = (Function.update h.pointers i p k).map fun p => p.bind h.objects
    by_cases hki : k = i
    · subst hki
      rw [Function.update_self, Function.update_self]
      rcases hp with ⟨rfl, rfl⟩ | ⟨rfl, rfl⟩ <;> rfl
    · rw [Function.update_of_ne hki, Function.update_of_ne hki]
      exact ho.value k
  case live => exact fun hk => ho.live (hpoints hk)
  case unique => exact fun hk hl => ho.unique (hpoints hk) (hpoints hl)
  case owner =>
    intro a ha
    obtain ⟨k, hk⟩ := ho.owner ha
    have hki : k ≠ i := by
      rintro rfl
      exact hi a hk
    exact ⟨k, update_eq_iff.mpr (.inr ⟨hki, hk⟩)⟩
  case fresh => exact ho.fresh

/-- A variable gives up its object, which is deleted. -/
theorem Owns.release (ho : Owns h s) {a : Nat} (hi : h.pointers i = some (some a)) :
    Owns { h with
      pointers := Function.update h.pointers i none
      objects := Function.update h.objects a none } (Function.update s i none) := by
  -- no other variable has the address
  have hne : ∀ {k b}, k ≠ i → h.pointers k = some (some b) → b ≠ a := by
    rintro k b hki hk rfl
    exact hki (ho.unique hk hi)
  have hpoints : ∀ {k b}, Function.update h.pointers i none k = some (some b) →
      k ≠ i ∧ h.pointers k = some (some b) := by
    intro k b hk
    obtain ⟨-, hk⟩ | hk := update_eq_iff.mp hk
    · cases hk
    · exact hk
  constructor
  case value =>
    intro k
    show Function.update s i none k =
      (Function.update h.pointers i none k).map fun p => p.bind (Function.update h.objects a none)
    by_cases hki : k = i
    · subst hki
      rw [Function.update_self, Function.update_self]
      rfl
    · rw [Function.update_of_ne hki, Function.update_of_ne hki]
      exact ho.value_update (hne hki) none
  case live =>
    intro k b hk
    obtain ⟨hki, hk⟩ := hpoints hk
    show Function.update h.objects a none b ≠ none
    rw [Function.update_of_ne (hne hki hk)]
    exact ho.live hk
  case unique => exact fun hk hl => ho.unique (hpoints hk).2 (hpoints hl).2
  case owner =>
    intro b hb
    have hba : b ≠ a := by
      rintro rfl
      exact hb (Function.update_self _ _ _)
    have hb' : h.objects b ≠ none := fun hnone =>
      hb ((Function.update_of_ne hba _ _).trans hnone)
    obtain ⟨k, hk⟩ := ho.owner hb'
    have hki : k ≠ i := by
      rintro rfl
      exact hba (Option.some.inj (Option.some.inj (hk.symm.trans hi)))
    exact ⟨k, update_eq_iff.mpr (.inr ⟨hki, hk⟩)⟩
  case fresh =>
    intro b hb
    show Function.update h.objects a none b = none
    by_cases hba : b = a
    · rw [hba, Function.update_self]
    · rw [Function.update_of_ne hba]
      exact ho.fresh hb

/-- A variable without an object gets a new one. -/
theorem Owns.place (ho : Owns h s) (hi : ∀ a, h.pointers i ≠ some (some a)) (v : V) :
    Owns ⟨Function.update h.pointers i (some (some h.next)),
      Function.update h.objects h.next (some v), h.next + 1⟩
      (Function.update s i (some (some v))) := by
  have hnew : ∀ {k a}, h.pointers k = some (some a) → a ≠ h.next := by
    rintro k a hk rfl
    exact ho.live hk (ho.fresh Nat.le.refl)
  have hpoints : ∀ {k a}, Function.update h.pointers i (some (some h.next)) k = some (some a) →
      k = i ∧ a = h.next ∨ k ≠ i ∧ h.pointers k = some (some a) := by
    intro k a hk
    obtain ⟨hki, hk⟩ | hk := update_eq_iff.mp hk
    · cases hk
      exact .inl ⟨hki, rfl⟩
    · exact .inr hk
  constructor
  case value =>
    intro k
    show Function.update s i (some (some v)) k =
      (Function.update h.pointers i (some (some h.next)) k).map fun p =>
        p.bind (Function.update h.objects h.next (some v))
    by_cases hki : k = i
    · subst hki
      rw [Function.update_self, Function.update_self]
      show some (some v) = some (Function.update h.objects h.next (some v) h.next)
      rw [Function.update_self]
    · rw [Function.update_of_ne hki, Function.update_of_ne hki]
      exact ho.value_update hnew (some v)
  case live =>
    intro k a hk
    show Function.update h.objects h.next (some v) a ≠ none
    obtain ⟨-, rfl⟩ | ⟨-, hk⟩ := hpoints hk
    · rw [Function.update_self]
      exact Option.some_ne_none v
    · rw [Function.update_of_ne (hnew hk)]
      exact ho.live hk
  case unique =>
    intro k l a hk hl
    obtain ⟨hki, hka⟩ | ⟨-, hk'⟩ := hpoints hk <;> obtain ⟨hli, hla⟩ | ⟨-, hl'⟩ := hpoints hl
    · rw [hki, hli]
    · exact absurd hka (hnew hl')
    · exact absurd hla (hnew hk')
    · exact ho.unique hk' hl'
  case owner =>
    intro a ha
    by_cases hnext : a = h.next
    · exact ⟨i, update_eq_iff.mpr (.inl ⟨rfl, by rw [hnext]⟩)⟩
    · have ha' : h.objects a ≠ none := fun hnone =>
        ha ((Function.update_of_ne hnext _ _).trans hnone)
      obtain ⟨k, hk⟩ := ho.owner ha'
      have hki : k ≠ i := by
        rintro rfl
        exact hi a hk
      exact ⟨k, update_eq_iff.mpr (.inr ⟨hki, hk⟩)⟩
  case fresh =>
    intro a ha
    have hnext : a ≠ h.next := by
      rintro rfl
      exact absurd ha (by show ¬ h.next + 1 ≤ h.next; omega)
    show Function.update h.objects h.next (some v) a = none
    rw [Function.update_of_ne hnext]
    exact ho.fresh (Nat.le_of_succ_le ha)

/-- The object of a variable is another value. -/
theorem Owns.put (ho : Owns h s) {a : Nat} (hi : h.pointers i = some (some a)) (v : V) :
    Owns { h with objects := Function.update h.objects a (some v) }
      (Function.update s i (some (some v))) := by
  have hlives : ∀ {b}, Function.update h.objects a (some v) b ≠ none ↔ h.objects b ≠ none := by
    intro b
    by_cases hba : b = a
    · subst hba
      rw [Function.update_self]
      exact iff_of_true (Option.some_ne_none v) (ho.live hi)
    · rw [Function.update_of_ne hba]
  constructor
  case value =>
    intro k
    show Function.update s i (some (some v)) k =
      (h.pointers k).map fun p => p.bind (Function.update h.objects a (some v))
    by_cases hki : k = i
    · subst hki
      rw [Function.update_self, hi]
      show some (some v) = some (Function.update h.objects a (some v) a)
      rw [Function.update_self]
    · rw [Function.update_of_ne hki]
      refine ho.value_update ?_ (some v)
      rintro b hk rfl
      exact hki (ho.unique hk hi)
  case live => exact fun hk => hlives.mpr (ho.live hk)
  case unique => exact ho.unique
  case owner => exact fun ha => ho.owner (hlives.mp ha)
  case fresh =>
    intro b hb
    by_contra hsome
    exact hlives.mp hsome (ho.fresh hb)

/-! ## The operations keep ownership -/

omit [DecidableEq ι] in
/-- A variable is absent in both, null and empty, or points to its value. -/
theorem Owns.cases (ho : Owns h s) (i : ι) :
    (h.pointers i = none ∧ s i = none) ∨ (h.pointers i = some none ∧ s i = some none) ∨
      ∃ a v, h.pointers i = some (some a) ∧ h.objects a = some v ∧ s i = some (some v) := by
  have hv := ho.value i
  rcases hp : h.pointers i with _ | _ | a
  · rw [hp] at hv
    exact .inl ⟨rfl, hv⟩
  · rw [hp] at hv
    exact .inr (.inl ⟨rfl, hv⟩)
  · obtain ⟨v, ha⟩ := Option.ne_none_iff_exists'.mp (ho.live hp)
    rw [hp] at hv
    exact .inr (.inr ⟨a, v, rfl, ha, hv.trans (congrArg some ha)⟩)

omit [DecidableEq ι] in
/-- A variable is present in both or in none. -/
theorem Owns.present (ho : Owns h s) (i : ι) : (h.pointers i = none ∧ s i = none) ∨
    ∃ p o, h.pointers i = some p ∧ s i = some o := by
  obtain hnone | ⟨hp, hi⟩ | ⟨a, v, hp, -, hi⟩ := ho.cases i
  · exact .inl hnone
  · exact .inr ⟨_, _, hp, hi⟩
  · exact .inr ⟨_, _, hp, hi⟩

theorem Owns.declare (ho : Owns h s) (i : ι) :
    Option.Rel Owns (h.declare i) (s.declare i) := by
  unfold Heap.declare Store.declare
  obtain ⟨hp, hi⟩ | ⟨p, o, hp, hi⟩ := ho.present i <;> rw [hp, hi]
  · exact .some (ho.setBare (by simp [hp]) (.inr ⟨rfl, rfl⟩))
  · exact .none

theorem Owns.emplace (ho : Owns h s) (i : ι) (v : V) :
    Option.Rel Owns (h.emplace i v) (s.emplace i v) := by
  unfold Heap.emplace Store.emplace
  obtain ⟨hp, hi⟩ | ⟨p, o, hp, hi⟩ := ho.present i <;> rw [hp, hi]
  · exact .some (ho.place (by simp [hp]) v)
  · exact .none

/-- A variable loses its object, which ends, and is absent or null then. -/
theorem Owns.dispose (ho : Owns h s) {p : Option Nat} {q : Option (Option Nat)}
    {o : Option (Option V)} (hp : h.pointers i = some p)
    (hq : q = none ∧ o = none ∨ q = some none ∧ o = some none) :
    Option.Rel Owns (Heap.delete { h with pointers := Function.update h.pointers i q } p)
      (some (Function.update s i o)) := by
  obtain ⟨hp', -⟩ | ⟨hp', -⟩ | ⟨a, v, hp', ha, -⟩ := ho.cases i <;> rw [hp] at hp' <;> cases hp'
  · exact .some (ho.setBare (by simp [hp]) hq)
  · simp only [Heap.delete, ha, Option.map_some]
    have hgone := (ho.release hp).setBare (i := i) (fun b hb => absurd
      ((Function.update_self i none h.pointers).symm.trans hb) (by simp)) hq
    rw [Function.update_idem, Function.update_idem] at hgone
    exact .some hgone

theorem Owns.destroy (ho : Owns h s) (i : ι) :
    Option.Rel Owns (h.destroy i) (s.destroy i) := by
  unfold Heap.destroy Store.destroy
  obtain ⟨hp, hi⟩ | ⟨p, o, hp, hi⟩ := ho.present i <;> rw [hp, hi]
  · exact .none
  · exact ho.dispose hp (.inl ⟨rfl, rfl⟩)

theorem Owns.reset (ho : Owns h s) (i : ι) :
    Option.Rel Owns (h.reset i) (s.reset i) := by
  unfold Heap.reset Store.reset
  obtain ⟨hp, hi⟩ | ⟨p, o, hp, hi⟩ := ho.present i <;> rw [hp, hi]
  · exact .none
  · exact ho.dispose hp (.inr ⟨rfl, rfl⟩)

/-- The two variables change places, and the one without an object is null from then on. -/
theorem Owns.move (ho : Owns h s) (j i : ι) :
    Option.Rel Owns (h.move j i) (s.move j i) := by
  unfold Heap.move Store.move
  obtain ⟨hpj, hj⟩ | ⟨q, o', hpj, hj⟩ := ho.present j <;>
    obtain ⟨hpi, hi⟩ | ⟨p, o, hpi, hi⟩ := ho.present i <;> rw [hpj, hj, hpi, hi]
  · exact .none
  · have hswap := ho.permute (Equiv.swap i j)
    rw [Equiv.comp_swap_eq_update, Equiv.comp_swap_eq_update, hpj, hj, hpi, hi] at hswap
    have hgone : Function.update (Function.update h.pointers j (some p)) i none i = none :=
      Function.update_self _ _ _
    have hnull := hswap.setBare (i := i) (fun a ha => absurd (hgone.symm.trans ha) (by simp))
      (.inr ⟨rfl, rfl⟩)
    rw [Function.update_idem, Function.update_idem] at hnull
    exact .some hnull
  · exact .none
  · exact .none

/-- To another variable, it is an exchange behind which the other's object ends. -/
theorem Owns.assign (ho : Owns h s) (j i : ι) :
    Option.Rel Owns (h.assign j i) (s.assign j i) := by
  unfold Heap.assign Store.assign
  obtain ⟨hpi, hi⟩ | ⟨p, o, hpi, hi⟩ := ho.present i
  · rw [hpi, hi]
    rcases s j with _ | o'
    · exact .none
    · exact .none
  · rw [hpi, hi]
    dsimp only
    by_cases hji : j = i
    · subst hji
      rw [hi, Function.update_self]
      dsimp only [Heap.delete]
      rw [Function.update_idem, Function.update_idem, Function.update_eq_self_iff.mpr hpi.symm,
        Function.update_eq_self_iff.mpr hi.symm]
      exact .some ho
    · rw [Function.update_of_ne hji]
      obtain ⟨hpj, hj⟩ | ⟨q, o', hpj, hj⟩ := ho.present j <;> rw [hpj, hj]
      · exact .none
      · have hswap := ho.permute (Equiv.swap i j)
        rw [Equiv.comp_swap_eq_update, Equiv.comp_swap_eq_update, hpi, hi, hpj, hj] at hswap
        have hgone := hswap.dispose (i := i) (Function.update_self _ _ _) (.inr ⟨rfl, rfl⟩)
        have hcomm : Function.update (Function.update s j (some o)) i (some none) =
            Function.update (Function.update s i (some none)) j (some o) :=
          Function.update_comm hji _ _ _
        rw [Function.update_idem, Function.update_idem, Function.update_comm hji, hcomm] at hgone
        exact hgone

theorem Owns.swap (ho : Owns h s) (i j : ι) :
    Option.Rel Owns (h.swap i j) (s.swap i j) := by
  unfold Heap.swap Store.swap
  obtain ⟨hpi, hi⟩ | ⟨p, o, hpi, hi⟩ := ho.present i <;>
    obtain ⟨hpj, hj⟩ | ⟨q, o', hpj, hj⟩ := ho.present j <;> rw [hpi, hi, hpj, hj]
  · exact .none
  · exact .none
  · exact .none
  · have hswap := ho.permute (Equiv.swap j i)
    rw [Equiv.comp_swap_eq_update, Equiv.comp_swap_eq_update, hpj, hj, hpi, hi] at hswap
    exact .some hswap

omit [DecidableEq ι] in
theorem Owns.get (ho : Owns h s) (i : ι) : h.get i = s.get i := by
  unfold Heap.get Store.get
  obtain ⟨hp, hi⟩ | ⟨hp, hi⟩ | ⟨a, v, hp, ha, hi⟩ := ho.cases i <;> rw [hp, hi]
  simp only [ha, Option.map_some]

theorem Owns.modify (ho : Owns h s) (i : ι) (f : V → V) :
    Option.Rel Owns (h.modify i f) (s.modify i f) := by
  unfold Heap.modify Store.modify
  obtain ⟨hp, hi⟩ | ⟨hp, hi⟩ | ⟨a, v, hp, ha, hi⟩ := ho.cases i <;> rw [hp, hi]
  · exact .none
  · exact .none
  · simp only [ha, Option.map_some]
    exact .some (ho.put hp (f v))

end Operations

/-! ## Programs -/

/-- A statement of a program over the variables. -/
inductive Command (ι : Type u) (V : Type v)
  | declare (i : ι)
  | emplace (i : ι) (v : V)
  | destroy (i : ι)
  | reset (i : ι)
  | move (j i : ι)
  | assign (j i : ι)
  | swap (i j : ι)
  | modify (i : ι) (f : V → V)

def Heap.exec (h : Heap ι V) : Command ι V → Option (Heap ι V)
  | .declare i => h.declare i
  | .emplace i v => h.emplace i v
  | .destroy i => h.destroy i
  | .reset i => h.reset i
  | .move j i => h.move j i
  | .assign j i => h.assign j i
  | .swap i j => h.swap i j
  | .modify i f => h.modify i f

def Heap.run (h : Heap ι V) (cs : List (Command ι V)) : Option (Heap ι V) :=
  cs.foldlM Heap.exec h

def Store.exec (s : Store ι V) : Command ι V → Option (Store ι V)
  | .declare i => s.declare i
  | .emplace i v => s.emplace i v
  | .destroy i => s.destroy i
  | .reset i => s.reset i
  | .move j i => s.move j i
  | .assign j i => s.assign j i
  | .swap i j => s.swap i j
  | .modify i f => s.modify i f

def Store.run (s : Store ι V) (cs : List (Command ι V)) : Option (Store ι V) :=
  cs.foldlM Store.exec s

section

variable {h : Heap ι V} {s : Store ι V}

theorem Owns.exec (ho : Owns h s) (c : Command ι V) : Option.Rel Owns (h.exec c) (s.exec c) := by
  cases c with
  | declare i => exact ho.declare i
  | emplace i v => exact ho.emplace i v
  | destroy i => exact ho.destroy i
  | reset i => exact ho.reset i
  | move j i => exact ho.move j i
  | assign j i => exact ho.assign j i
  | swap i j => exact ho.swap i j
  | modify i f => exact ho.modify i f

/-- **A program on the heap is the program on values**, and defined where that is. -/
theorem Owns.run (ho : Owns h s) (cs : List (Command ι V)) :
    Option.Rel Owns (h.run cs) (s.run cs) := by
  induction cs generalizing h s with
  | nil => exact .some ho
  | cons c cs ih =>
      show Option.Rel Owns ((h.exec c).bind (Heap.run · cs)) ((s.exec c).bind (Store.run · cs))
      have hstep := ho.exec c
      revert hstep
      rcases h.exec c with _ | h' <;> rcases s.exec c with _ | s' <;> rintro (ho' | _)
      · exact .none
      · exact ih ho'

end

end

end XeusCpp.Logic
