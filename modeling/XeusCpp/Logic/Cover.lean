/-
# XeusCpp.Logic.Cover — a list made of pieces.

`Covers p xs ys`: the list `xs` is the pieces `ys` in their order, and around them stand only
elements that `p` passes over. What is not passed over is then in a piece (`Covers.filter_eq`), so a
list that goes on behind its pieces is covered by them exactly when `p` passes over all that follows
(`covers_append_iff`).
-/
import Mathlib.Tactic.Common

namespace XeusCpp.Logic

universe u

variable {α : Type u} {p : α → Bool}

/-- The pieces of a list, with passed over elements in front of each and behind the last. -/
inductive Covers (p : α → Bool) : List α → List (List α) → Prop
  | rest {r : List α} : (∀ a ∈ r, p a = true) → Covers p r []
  | piece {g x r : List α} {xs : List (List α)} : (∀ a ∈ g, p a = true) → Covers p r xs →
      Covers p (g ++ (x ++ r)) (x :: xs)

namespace Covers

variable {l x r : List α} {xs : List (List α)}

theorem nil : Covers p [] [] := .rest (by simp)

/-- A piece with nothing in front of it. -/
theorem cons (h : Covers p r xs) : Covers p (x ++ r) (x :: xs) :=
  .piece (g := []) (by simp) h

/-- One more element that is passed over. -/
theorem skip {a : α} (ha : p a = true) (h : Covers p r xs) : Covers p (a :: r) xs := by
  cases h with
  | rest h => exact .rest (List.forall_mem_cons.mpr ⟨ha, h⟩)
  | piece hg h => exact .piece (g := a :: _) (List.forall_mem_cons.mpr ⟨ha, hg⟩) h

theorem append (h : Covers p l xs) (hr : ∀ a ∈ r, p a = true) : Covers p (l ++ r) xs := by
  induction h with
  | rest hl => exact .rest (List.forall_mem_append.mpr ⟨hl, hr⟩)
  | @piece g x l xs hg _ ih =>
      rw [List.append_assoc, List.append_assoc]
      exact .piece hg ih

theorem filter_nil (h : ∀ a ∈ r, p a = true) : r.filter (!p ·) = [] :=
  List.filter_eq_nil_iff.mpr fun a ha => by simp [h a ha]

/-- What is not passed over is in the pieces. -/
theorem filter_eq (h : Covers p l xs) : l.filter (!p ·) = xs.flatten.filter (!p ·) := by
  induction h with
  | rest hl => exact filter_nil hl
  | @piece g x l xs hg _ ih =>
      rw [List.filter_append, List.filter_append, filter_nil hg, ih, List.flatten_cons,
        List.filter_append]
      rfl

end Covers

/-- **A list goes on behind its pieces** only with elements that are passed over. -/
theorem covers_append_iff {l : List α} {xs : List (List α)} (h : Covers p l xs) (r : List α) :
    Covers p (l ++ r) xs ↔ ∀ a ∈ r, p a = true := by
  constructor
  · intro hr
    have heq := hr.filter_eq
    rw [List.filter_append, h.filter_eq] at heq
    intro a ha
    by_contra hp
    -- an element that is not passed over would be counted twice
    have hmem : a ∈ r.filter (!p ·) := List.mem_filter.mpr ⟨ha, by simpa using hp⟩
    rw [List.append_right_eq_self.mp heq] at hmem
    cases hmem
  · exact h.append

end XeusCpp.Logic
