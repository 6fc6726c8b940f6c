/-
# XeusCpp.Logic.History — histories of runs, and threads that take turns.

A history is a list that grows at its end: the operations a run has performed, the entries of a log.
An invariant relates a state to the history behind it; `foldl_history` carries it along a run, and
`foldlM_history` along a run whose operations may fail. What is said of every entry and the entries
before it is `Logged`.

Threads share a state, and each of their operations is one step of the whole. `Threads.of_reaches`
says what the shared state is at any time: the operations performed so far, one after the other, the
operations of each thread in the order of its program.
-/
import Mathlib.Data.List.Basic
import Mathlib.Logic.Function.Basic
import Mathlib.Logic.Relation

namespace XeusCpp.Logic

universe u v w

/-! ## Histories -/

section

variable {α : Type u}

/-- Where an entry stands in a history with one more entry. -/
theorem concat_eq_split_iff {xs pre post : List α} {x y : α} :
    xs ++ [x] = pre ++ y :: post ↔
      (pre = xs ∧ y = x ∧ post = []) ∨ ∃ mid, post = mid ++ [x] ∧ xs = pre ++ y :: mid := by
  constructor
  · intro h
    rcases List.eq_nil_or_concat' post with rfl | ⟨mid, z, rfl⟩
    · obtain ⟨hpre, hy⟩ := List.append_inj' h rfl
      exact .inl ⟨hpre.symm, (List.singleton_inj.mp hy).symm, rfl⟩
    · rw [← List.cons_append, ← List.append_assoc] at h
      obtain ⟨hxs, hz⟩ := List.append_inj' h rfl
      rw [List.singleton_inj.mp hz]
      exact .inr ⟨mid, rfl, hxs⟩
  · rintro (⟨rfl, rfl, rfl⟩ | ⟨mid, rfl, rfl⟩)
    · rfl
    · simp

/-- Every entry has `P` with the entries before it. -/
def Logged (P : List α → α → Prop) (xs : List α) : Prop :=
  ∀ pre x post, xs = pre ++ x :: post → P pre x

variable {P : List α → α → Prop}

theorem logged_nil : Logged P [] := by
  intro pre x post h
  simp at h

theorem logged_concat {xs : List α} {x : α} : Logged P (xs ++ [x]) ↔ Logged P xs ∧ P xs x := by
  constructor
  · intro h
    refine ⟨fun pre y post hxs => h pre y (post ++ [x]) ?_, h xs x [] rfl⟩
    rw [hxs, List.append_assoc, List.cons_append]
  · rintro ⟨hxs, hx⟩ pre y post h
    rcases concat_eq_split_iff.mp h with ⟨rfl, rfl, -⟩ | ⟨mid, -, hmid⟩
    · exact hx
    · exact hxs pre y mid hmid

variable {σ : Type v} {I : σ → List α → Prop}

/-- The rule for runs: what every operation preserves holds of the state and the whole history. -/
theorem foldl_history {step : σ → α → σ} (hstep : ∀ {s h} a, I s h → I (step s a) (h ++ [a]))
    {s : σ} {h : List α} (hs : I s h) (ops : List α) : I (ops.foldl step s) (h ++ ops) := by
  induction ops generalizing s h with
  | nil =>
      rw [List.append_nil]
      exact hs
  | cons a ops ih =>
      have := ih (hstep a hs)
      rwa [List.append_assoc] at this

/-- The same where an operation may fail: the invariant keeps it from failing. -/
theorem foldlM_history {step : σ → α → Option σ}
    (hstep : ∀ {s h} a, I s h → ∃ t, step s a = some t ∧ I t (h ++ [a]))
    {s : σ} {h : List α} (hs : I s h) (ops : List α) :
    ∃ t, ops.foldlM step s = some t ∧ I t (h ++ ops) := by
  induction ops generalizing s h with
  | nil =>
      rw [List.append_nil]
      exact ⟨s, rfl, hs⟩
  | cons a ops ih =>
      obtain ⟨t, ht, hI⟩ := hstep a hs
      obtain ⟨t', ht', hI'⟩ := ih hI
      rw [List.append_assoc] at hI'
      refine ⟨t', ?_, hI'⟩
      rw [List.foldlM_cons, ht]
      exact ht'

end

/-! ## What stands -/

section

variable {α : Type u} {Sets Touches : α → Prop} {xs : List α} {x : α}

/-- An entry sets something that no later one touches. -/
def Stands (Sets Touches : α → Prop) (xs : List α) : Prop :=
  ∃ pre x post, xs = pre ++ x :: post ∧ Sets x ∧ ∀ y ∈ post, ¬ Touches y

theorem not_stands_nil : ¬ Stands Sets Touches [] := by
  rintro ⟨pre, x, post, h, -⟩
  simp at h

/-- One more entry sets it, or leaves it as it is. -/
theorem stands_concat :
    Stands Sets Touches (xs ++ [x]) ↔ Sets x ∨ (¬ Touches x ∧ Stands Sets Touches xs) := by
  constructor
  · rintro ⟨pre, y, post, h, hy, hpost⟩
    rcases concat_eq_split_iff.mp h with ⟨-, rfl, -⟩ | ⟨mid, rfl, hxs⟩
    · exact .inl hy
    · exact .inr ⟨hpost x (by simp), pre, y, mid, hxs, hy, fun z hz => hpost z (by simp [hz])⟩
  · rintro (h | ⟨h, pre, y, post, rfl, hy, hpost⟩)
    · exact ⟨xs, x, [], rfl, h, nofun⟩
    · refine ⟨pre, y, post ++ [x], by simp, hy, ?_⟩
      intro z hz
      rcases List.mem_append.mp hz with hz | hz
      · exact hpost z hz
      · exact List.mem_singleton.mp hz ▸ h

end

/-! ## Threads -/

/-- Threads with what each has left to do, and the state they share. -/
structure Threads (ι : Type u) (α : Type v) (σ : Type w) where
  pending : ι → List α
  done : List (ι × α)
  shared : σ

namespace Threads

variable {ι : Type u} {α : Type v} {σ : Type w} [DecidableEq ι] {perform : σ → α → σ}

def start (program : ι → List α) (s : σ) : Threads ι α σ := ⟨program, [], s⟩

/-- What the thread `i` has done. -/
def doneBy (t : Threads ι α σ) (i : ι) : List α := (t.done.filter (·.1 = i)).map Prod.snd

variable (perform) in
/-- One of the threads performs its next operation, all at once. -/
inductive Step : Threads ι α σ → Threads ι α σ → Prop
  | turn {t : Threads ι α σ} {i : ι} {a : α} {rest : List α} (h : t.pending i = a :: rest) :
      Step t ⟨Function.update t.pending i rest, t.done ++ [(i, a)], perform t.shared a⟩

variable (perform) in
def Reaches : Threads ι α σ → Threads ι α σ → Prop := Relation.ReflTransGen (Step perform)

variable (perform) in
/-- The turn of the thread `i`, which has no effect when it is finished. -/
def turn (t : Threads ι α σ) (i : ι) : Threads ι α σ :=
  match t.pending i with
  | [] => t
  | a :: rest => ⟨Function.update t.pending i rest, t.done ++ [(i, a)], perform t.shared a⟩

/-- Every order of turns is an interleaving. -/
theorem reaches_turns (t : Threads ι α σ) (order : List ι) :
    Reaches perform t (order.foldl (turn perform) t) := by
  induction order generalizing t with
  | nil => exact .refl
  | cons i order ih =>
      refine Relation.ReflTransGen.trans ?_ (ih _)
      unfold turn
      split
      next => exact .refl
      next a rest h => exact .single (.turn h)

/-- **Every interleaving is a run**: the shared state is that of the operations in the order they were
performed, and each thread performs its program in order. -/
theorem of_reaches {program : ι → List α} {s : σ} {t : Threads ι α σ}
    (h : Reaches perform (start program s) t) :
    t.shared = (t.done.map Prod.snd).foldl perform s ∧ ∀ i, program i = t.doneBy i ++ t.pending i := by
  induction h with
  | refl => exact ⟨rfl, fun _ => rfl⟩
  | tail _ hstep ih =>
      obtain ⟨hshared, hprogram⟩ := ih
      cases hstep with
      | @turn i a rest ht =>
          refine ⟨?_, fun j => ?_⟩
          · rw [List.map_append, List.foldl_append, ← hshared]
            rfl
          · rw [hprogram j, doneBy, doneBy, List.filter_append, List.map_append, List.append_assoc]
            congr 1
            by_cases hj : i = j
            · subst hj
              simp [ht]
            · simp [hj, Function.update_of_ne (Ne.symm hj)]

end Threads

end XeusCpp.Logic
