/-
# XeusCpp.Logic.Bracket — bracket words over several kinds of brackets.

The Dyck language over an arbitrary type of kinds: a word is **balanced** when it is built from
nested and adjacent pairs (`Balanced`), it **leaves** the openers `ks`, innermost first, when it is
balanced up to exactly these (`Leaves`), and it **mismatches** at `ks` when a closer meets them and
does not match the innermost (`Mismatches`).

`reduce` is the stack machine of this language. It decides all three (`reduce_eq_ended_iff`,
`reduce_eq_mismatch_iff`), so the openers a word leaves are unique and every word either leaves some
or mismatches.
-/
import Mathlib.Tactic.Common

namespace XeusCpp.Logic

universe u

/-- An opening or a closing bracket of a kind. -/
inductive Sym (κ : Type u) where
  | opn (k : κ)
  | cls (k : κ)
  deriving DecidableEq, Repr

variable {κ : Type u}

/-! ## The language -/

/-- Words of nested and adjacent pairs. -/
inductive Balanced : List (Sym κ) → Prop
  | nil : Balanced []
  | wrap (k : κ) {u v : List (Sym κ)} : Balanced u → Balanced v →
      Balanced (.opn k :: (u ++ .cls k :: v))

/-- `Leaves w ks`: the openers of `w` that nothing closes are `ks`, the innermost first. -/
inductive Leaves : List (Sym κ) → List κ → Prop
  | balanced {w : List (Sym κ)} : Balanced w → Leaves w []
  | opn (k : κ) {w b : List (Sym κ)} {ks : List κ} : Leaves w ks → Balanced b →
      Leaves (w ++ .opn k :: b) (k :: ks)

/-- `Mismatches w ks`: a closer of `w` meets the open brackets `ks` and does not match the
innermost. -/
def Mismatches (w : List (Sym κ)) (ks : List κ) : Prop :=
  ∃ u k v, w = u ++ .cls k :: v ∧ Leaves u ks ∧ ks.head? ≠ some k

theorem Balanced.append {u v : List (Sym κ)} (hu : Balanced u) (hv : Balanced v) :
    Balanced (u ++ v) := by
  induction hu with
  | nil => exact hv
  | @wrap k u w hu _ _ ih =>
      have := Balanced.wrap k hu ih
      simpa using this

theorem Leaves.append {w b : List (Sym κ)} {ks : List κ} (hw : Leaves w ks) (hb : Balanced b) :
    Leaves (w ++ b) ks := by
  cases hw with
  | balanced hw => exact .balanced (hw.append hb)
  | @opn k w c ks hw hc =>
      have := Leaves.opn k hw (hc.append hb)
      simpa using this

theorem Leaves.snoc_opn {w : List (Sym κ)} {ks : List κ} (hw : Leaves w ks) (k : κ) :
    Leaves (w ++ [.opn k]) (k :: ks) := .opn k hw .nil

/-- A closer takes the innermost open bracket. -/
theorem Leaves.snoc_cls {w : List (Sym κ)} {k : κ} {ks : List κ} (hw : Leaves w (k :: ks)) :
    Leaves (w ++ [.cls k]) ks := by
  cases hw with
  | @opn _ w b _ hw hb =>
      have := hw.append (Balanced.wrap k hb .nil)
      simpa using this

theorem leaves_nil_iff {w : List (Sym κ)} : Leaves w [] ↔ Balanced w := by
  constructor
  · intro h
    cases h with
    | balanced h => exact h
  · exact .balanced

/-! ## The stack machine -/

/-- How the machine ends, with the open brackets. -/
inductive Reduced (κ : Type u) where
  | ended (ks : List κ)
  | mismatch (ks : List κ)
  deriving DecidableEq, Repr

variable [DecidableEq κ]

/-- The machine: openers are pushed, a closer pops its own kind and ends the run otherwise. -/
def reduce : List κ → List (Sym κ) → Reduced κ
  | ks, [] => .ended ks
  | ks, .opn k :: w => reduce (k :: ks) w
  | ks, .cls k :: w => if ks.head? = some k then reduce ks.tail w else .mismatch ks

@[simp] theorem reduce_nil (ks : List κ) : reduce ks [] = .ended ks := rfl

@[simp] theorem reduce_opn (ks : List κ) (k : κ) (w : List (Sym κ)) :
    reduce ks (.opn k :: w) = reduce (k :: ks) w := rfl

theorem reduce_cls (ks : List κ) (k : κ) (w : List (Sym κ)) : reduce ks (.cls k :: w) =
    if ks.head? = some k then reduce ks.tail w else .mismatch ks := rfl

/-- The machine reads a word from left to right. -/
theorem reduce_append (ks : List κ) (u w : List (Sym κ)) : reduce ks (u ++ w) =
    match reduce ks u with
    | .ended js => reduce js w
    | .mismatch js => .mismatch js := by
  induction u generalizing ks with
  | nil => rfl
  | cons s u ih =>
      cases s with
      | opn k => exact ih (k :: ks)
      | cls k =>
          rw [List.cons_append, reduce_cls, reduce_cls]
          split
          · exact ih ks.tail
          · rfl

theorem reduce_balanced {u : List (Sym κ)} (hu : Balanced u) (ks : List κ) (w : List (Sym κ)) :
    reduce ks (u ++ w) = reduce ks w := by
  induction hu generalizing ks w with
  | nil => rfl
  | @wrap k u v _ _ ihu ihv =>
      have hsplit : .opn k :: (u ++ .cls k :: v) ++ w = .opn k :: (u ++ .cls k :: (v ++ w)) := by
        simp
      rw [hsplit, reduce_opn, ihu, reduce_cls, if_pos List.head?_cons, List.tail_cons, ihv]

theorem reduce_leaves {u : List (Sym κ)} {js : List κ} (hu : Leaves u js) (ks : List κ)
    (w : List (Sym κ)) : reduce ks (u ++ w) = reduce (js ++ ks) w := by
  induction hu generalizing w with
  | balanced hu => exact reduce_balanced hu ks w
  | @opn k u b js _ hb ih =>
      rw [List.append_assoc, ih, List.cons_append, reduce_opn, reduce_balanced hb]
      rfl

/-- What the machine finds behind a word that leaves `ks`. -/
theorem spec_of_reduce {u : List (Sym κ)} {ks : List κ} (hu : Leaves u ks) (w : List (Sym κ)) :
    (∀ js, reduce ks w = .ended js → Leaves (u ++ w) js) ∧
      ∀ js, reduce ks w = .mismatch js → Mismatches (u ++ w) js := by
  -- the word read so far grows at its end, so both it and what it leaves vary
  induction w generalizing u ks with
  | nil =>
      refine ⟨fun js h => ?_, fun js h => ?_⟩
      · rw [reduce_nil, Reduced.ended.injEq] at h
        rwa [List.append_nil, ← h]
      · exact absurd h (by simp)
  | cons s w ih =>
      have hsplit : u ++ s :: w = u ++ [s] ++ w := by simp
      cases s with
      | opn k =>
          rw [reduce_opn, hsplit]
          exact ih (hu.snoc_opn k)
      | cls k =>
          rw [reduce_cls]
          split
          · rename_i hk
            rw [hsplit]
            cases ks with
            | nil => exact absurd hk (by simp)
            | cons j ks =>
                obtain rfl : j = k := Option.some.inj hk
                exact ih hu.snoc_cls
          · rename_i hk
            refine ⟨fun js h => absurd h (by simp), fun js h => ?_⟩
            rw [Reduced.mismatch.injEq] at h
            exact h ▸ ⟨u, k, w, rfl, hu, hk⟩

/-- **The machine decides what a word leaves.** -/
theorem reduce_eq_ended_iff {w : List (Sym κ)} {js : List κ} :
    reduce [] w = .ended js ↔ Leaves w js := by
  constructor
  · exact (spec_of_reduce (.balanced .nil) w).1 js
  · intro h
    have := reduce_leaves h [] []
    simpa using this

/-- **The machine finds the first mismatch.** -/
theorem reduce_eq_mismatch_iff {w : List (Sym κ)} {js : List κ} :
    reduce [] w = .mismatch js ↔ Mismatches w js := by
  constructor
  · exact (spec_of_reduce (.balanced .nil) w).2 js
  · rintro ⟨u, k, v, rfl, hu, hk⟩
    rw [reduce_leaves hu, List.append_nil, reduce_cls, if_neg hk]

/-- One symbol mismatches at the brackets it meets. -/
theorem eq_of_reduce_mismatch {ks js : List κ} {ss : List (Sym κ)} (hlen : ss.length ≤ 1)
    (h : reduce ks ss = .mismatch js) : js = ks := by
  rcases ss with _ | ⟨s, _ | ⟨s', ss⟩⟩
  · exact absurd h (by simp)
  · cases s with
    | opn k => exact absurd h (by simp)
    | cls k =>
        rw [reduce_cls] at h
        split at h
        · exact absurd h (by simp)
        · exact (Reduced.mismatch.inj h).symm
  · simp at hlen

end XeusCpp.Logic
