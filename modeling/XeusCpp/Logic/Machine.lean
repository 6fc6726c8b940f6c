/-
# XeusCpp.Logic.Machine — deterministic machines that always stop.

A machine moves from state to state, and each move is one of three: it is stuck (no move is
defined), it halts with a result, or it goes on. A rank that drops at every move makes every run
finite, so `Machine.run` is a total function: `none` for a run that gets stuck.

The rules a development uses are the ones that relate `run` to the states a run passes through:
`run_eq_of_reaches` (a run may be started anywhere along it), `run_eq_some_iff` and
`run_eq_none_iff` (how it ends), `Reaches.preserves` (an invariant of the moves holds along the run)
and `run_rel_of_bisim` (two machines that match move by move have matching results).
-/
import Mathlib.Logic.Relation
import Mathlib.Tactic.Common

namespace XeusCpp.Logic

universe u v

/-- What a machine does in one state. -/
inductive Move (σ : Type u) (ρ : Type v) where
  | stuck
  | halt (r : ρ)
  | next (s : σ)
  deriving DecidableEq

/-- A deterministic machine; `rank` bounds the moves left. -/
structure Machine (σ : Type u) (ρ : Type v) where
  move : σ → Move σ ρ
  rank : σ → Nat
  rank_lt : ∀ {s t}, move s = .next t → rank t < rank s

namespace Machine

variable {σ : Type u} {ρ : Type v} (M : Machine σ ρ)

/-- The result of the run from `s`; `none` when it gets stuck. -/
def run (s : σ) : Option ρ :=
  match _h : M.move s with
  | .stuck => none
  | .halt r => some r
  | .next t => run t
termination_by M.rank s
decreasing_by exact M.rank_lt _h

variable {M} {s t : σ} {r : ρ}

theorem run_of_stuck (h : M.move s = .stuck) : M.run s = none := by
  rw [run]; split <;> simp_all

theorem run_of_halt (h : M.move s = .halt r) : M.run s = some r := by
  rw [run]; split <;> simp_all

theorem run_of_next (h : M.move s = .next t) : M.run s = M.run t := by
  rw [run]; split <;> simp_all

variable (M) in
/-- One move from `s` to `t`. -/
def Steps (s t : σ) : Prop := M.move s = .next t

variable (M) in
/-- The run from `s` passes through `t`. -/
def Reaches : σ → σ → Prop := Relation.ReflTransGen M.Steps

namespace Reaches

@[refl]
theorem refl (s : σ) : M.Reaches s s := Relation.ReflTransGen.refl

theorem trans {u : σ} (h₁ : M.Reaches s t) (h₂ : M.Reaches t u) : M.Reaches s u :=
  Relation.ReflTransGen.trans h₁ h₂

theorem head {u : σ} (h₁ : M.move s = .next t) (h₂ : M.Reaches t u) : M.Reaches s u :=
  Relation.ReflTransGen.head h₁ h₂

theorem single (h : M.move s = .next t) : M.Reaches s t := head h (refl t)

theorem tail {u : σ} (h₁ : M.Reaches s t) (h₂ : M.move t = .next u) : M.Reaches s u :=
  Relation.ReflTransGen.tail h₁ h₂

/-- The invariant rule: what every move preserves holds all along a run. -/
theorem preserves {I : σ → Prop} (hI : ∀ {a b}, I a → M.move a = .next b → I b)
    (h : M.Reaches s t) (hs : I s) : I t := by
  induction h with
  | refl => exact hs
  | tail _ hbc ih => exact hI ih hbc

/-- Runs are deterministic: of two states on one run, one is reached from the other. -/
theorem total {u : σ} (h₁ : M.Reaches s t) (h₂ : M.Reaches s u) :
    M.Reaches t u ∨ M.Reaches u t := by
  refine Relation.ReflTransGen.total_of_right_unique ?_ h₁ h₂
  intro a b c hab hac
  have : Move.next (ρ := ρ) b = .next c := hab.symm.trans hac
  injection this

/-- A run ends in one state only. -/
theorem eq_of_ends {u : σ} (h₁ : M.Reaches s t) (h₂ : M.Reaches s u) (ht : ∀ a, M.move t ≠ .next a)
    (hu : ∀ a, M.move u ≠ .next a) : t = u := by
  rcases total h₁ h₂ with h | h
  · rcases Relation.ReflTransGen.cases_head h with heq | ⟨a, ha, -⟩
    · exact heq
    · exact absurd ha (ht a)
  · rcases Relation.ReflTransGen.cases_head h with heq | ⟨a, ha, -⟩
    · exact heq.symm
    · exact absurd ha (hu a)

end Reaches

theorem run_eq_of_reaches (h : M.Reaches s t) : M.run s = M.run t := by
  induction h with
  | refl => rfl
  | tail _ hbc ih => rw [ih, run_of_next hbc]

/-- Every run ends: it reaches a state where the machine halts or is stuck. -/
theorem exists_end (s : σ) : ∃ t, M.Reaches s t ∧ ∀ u, M.move t ≠ .next u := by
  induction hn : M.rank s using Nat.strongRecOn generalizing s with
  | ind n ih =>
    cases hm : M.move s with
    | stuck => exact ⟨s, .refl s, by simp [hm]⟩
    | halt r => exact ⟨s, .refl s, by simp [hm]⟩
    | next t =>
        obtain ⟨e, hte, he⟩ := ih (M.rank t) (hn ▸ M.rank_lt hm) t rfl
        exact ⟨e, .head hm hte, he⟩

theorem run_eq_some_iff : M.run s = some r ↔ ∃ t, M.Reaches s t ∧ M.move t = .halt r := by
  constructor
  · intro h
    obtain ⟨t, hst, ht⟩ := exists_end (M := M) s
    refine ⟨t, hst, ?_⟩
    rw [run_eq_of_reaches hst] at h
    cases hm : M.move t with
    | stuck => rw [run_of_stuck hm] at h; exact absurd h (by simp)
    | halt r' =>
        rw [run_of_halt hm] at h
        rw [Option.some.inj h]
    | next u => exact absurd hm (ht u)
  · rintro ⟨t, hst, ht⟩
    rw [run_eq_of_reaches hst, run_of_halt ht]

theorem run_eq_none_iff : M.run s = none ↔ ∃ t, M.Reaches s t ∧ M.move t = .stuck := by
  constructor
  · intro h
    obtain ⟨t, hst, ht⟩ := exists_end (M := M) s
    refine ⟨t, hst, ?_⟩
    rw [run_eq_of_reaches hst] at h
    cases hm : M.move t with
    | stuck => rfl
    | halt r' => rw [run_of_halt hm] at h; exact absurd h (by simp)
    | next u => exact absurd hm (ht u)
  · rintro ⟨t, hst, ht⟩
    rw [run_eq_of_reaches hst, run_of_stuck ht]

/-- A state where no run out of `s` gets stuck. -/
theorem run_isSome_iff : (M.run s).isSome ↔ ∀ t, M.Reaches s t → M.move t ≠ .stuck := by
  rw [← not_iff_not, Option.not_isSome_iff_eq_none, run_eq_none_iff]
  simp

end Machine

/-- How the moves of two machines match: both are stuck, or both halt with related results, or both
go on to related states. -/
inductive Move.Match {σ : Type u} {ρ : Type v} {σ' : Type u} {ρ' : Type v}
    (R : σ → σ' → Prop) (Q : ρ → ρ' → Prop) : Move σ ρ → Move σ' ρ' → Prop
  | stuck : Move.Match R Q .stuck .stuck
  | halt {r r'} (h : Q r r') : Move.Match R Q (.halt r) (.halt r')
  | next {s s'} (h : R s s') : Move.Match R Q (.next s) (.next s')

namespace Machine

/-- The simulation rule: machines that match move by move from related states have related results. -/
theorem run_rel_of_bisim {σ : Type u} {ρ : Type v} {σ' : Type u} {ρ' : Type v}
    {M : Machine σ ρ} {M' : Machine σ' ρ'} {R : σ → σ' → Prop} {Q : ρ → ρ' → Prop}
    (hR : ∀ {s s'}, R s s' → Move.Match R Q (M.move s) (M'.move s'))
    {s : σ} {s' : σ'} (h : R s s') : Option.Rel Q (M.run s) (M'.run s') := by
  induction hn : M.rank s using Nat.strongRecOn generalizing s s' with
  | ind n ih =>
    have hm := hR h
    cases hs : M.move s with
    | stuck =>
        rw [hs] at hm
        generalize hs' : M'.move s' = m' at hm
        cases hm
        rw [run_of_stuck hs, run_of_stuck hs']
        exact .none
    | halt r =>
        rw [hs] at hm
        generalize hs' : M'.move s' = m' at hm
        cases hm with
        | halt hq => rw [run_of_halt hs, run_of_halt hs']; exact .some hq
    | next t =>
        rw [hs] at hm
        generalize hs' : M'.move s' = m' at hm
        cases hm with
        | next hr =>
            rw [run_of_next hs, run_of_next hs']
            exact ih _ (hn ▸ M.rank_lt hs) hr rfl

end Machine

end XeusCpp.Logic
