/-
# XeusCpp.Logic.Session — services that are used request after request.

A service has a state; a request in a state has an output and a next state, or is undefined. A
session performs requests in their order and logs each of them with its output.

Rules carry what is known of one step to whole sessions. `Service.always_congr`: what holds of every
request may be replaced, along an invariant, by what is equivalent to it. `Refines.session`: a service
that does step by step what another one does, does so over every session, and is defined where that is.
`Rewrites.session`: where every step can be replaced by some others, along a relation of the states, a
session can. `Confined.session`: where some requests neither see nor change a part of the state, the
part and the outputs of the other requests are those of the session without them.
-/
import Mathlib.Data.List.Basic
import Mathlib.Data.Option.Basic

namespace XeusCpp.Logic

universe u v w u' v' w'

/-- What a request does in a state; `none` where that is undefined. -/
abbrev Service (σ : Type u) (α : Type v) (ω : Type w) := σ → α → Option (σ × ω)

namespace Service

variable {σ : Type u} {α : Type v} {ω : Type w} (S : Service σ α ω)

/-- The state behind the requests, and the log. -/
def session : σ → List α → Option (σ × List (α × ω))
  | s, [] => some (s, [])
  | s, a :: as =>
      (S s a).bind fun r => (session r.1 as).map fun q => (q.1, (a, r.2) :: q.2)

@[simp] theorem session_nil (s : σ) : S.session s [] = some (s, []) := rfl

theorem session_cons (s : σ) (a : α) (as : List α) : S.session s (a :: as) =
    (S s a).bind fun r => (S.session r.1 as).map fun q => (q.1, (a, r.2) :: q.2) := rfl

variable {S} {s s' : σ} {a : α} {as : List α} {log : List (α × ω)}

theorem session_cons_eq_some : S.session s (a :: as) = some (s', log) ↔
    ∃ t o rest, S s a = some (t, o) ∧ S.session t as = some (s', rest) ∧ log = (a, o) :: rest := by
  rw [session_cons, Option.bind_eq_some_iff]
  constructor
  · rintro ⟨⟨t, o⟩, hstep, hrest⟩
    obtain ⟨⟨t', rest⟩, hsession, heq⟩ := Option.map_eq_some_iff.mp hrest
    cases heq
    exact ⟨t, o, rest, hstep, hsession, rfl⟩
  · rintro ⟨t, o, rest, hstep, hsession, rfl⟩
    refine ⟨(t, o), hstep, ?_⟩
    rw [hsession]
    rfl

/-- The log has the requests in their order. -/
theorem session_fst (h : S.session s as = some (s', log)) : log.map Prod.fst = as := by
  induction as generalizing s log with
  | nil =>
      cases h
      rfl
  | cons a as ih =>
      obtain ⟨t, o, rest, -, hrest, rfl⟩ := session_cons_eq_some.mp h
      rw [List.map_cons, ih hrest]

theorem session_append {s'' : σ} {bs : List α} {log' : List (α × ω)}
    (h : S.session s as = some (s', log)) (h' : S.session s' bs = some (s'', log')) :
    S.session s (as ++ bs) = some (s'', log ++ log') := by
  induction as generalizing s log with
  | nil =>
      cases h
      exact h'
  | cons a as ih =>
      obtain ⟨t, o, rest, hstep, hrest, rfl⟩ := session_cons_eq_some.mp h
      exact session_cons_eq_some.mpr ⟨t, o, rest ++ log', hstep, ih hrest, rfl⟩

/-- A service that is defined everywhere has every session. -/
theorem exists_session (h : ∀ s a, (S s a).isSome) (s : σ) (as : List α) :
    ∃ s' log, S.session s as = some (s', log) := by
  induction as generalizing s with
  | nil => exact ⟨s, [], rfl⟩
  | cons a as ih =>
      obtain ⟨⟨t, o⟩, hstep⟩ := Option.isSome_iff_exists.mp (h s a)
      obtain ⟨s', log, hsession⟩ := ih t
      exact ⟨s', _, session_cons_eq_some.mpr ⟨t, o, log, hstep, hsession, rfl⟩⟩

/-! ## What holds of every request -/

variable (S) in
/-- `P` holds of every request of the session, in the state the requests before it leave. -/
def Always (P : σ → α → Prop) : σ → List α → Prop
  | _, [] => True
  | s, a :: as => P s a ∧ ∀ t o, S s a = some (t, o) → Always P t as

/-- Along an invariant of the service, what is equivalent step by step is so over every session. -/
theorem always_congr {I : σ → Prop} (hI : ∀ {s a t o}, I s → S s a = some (t, o) → I t)
    {P Q : σ → α → Prop} (h : ∀ {s} a, I s → (P s a ↔ Q s a)) (hs : I s) (as : List α) :
    S.Always P s as ↔ S.Always Q s as := by
  induction as generalizing s with
  | nil => exact Iff.rfl
  | cons a as ih =>
      refine and_congr (h a hs) (forall_congr' fun t => forall_congr' fun o => ?_)
      exact imp_congr_right fun hstep => ih (hI hs hstep)

end Service

/-! ## Refinement -/

section

variable {σ : Type u} {τ : Type u'} {α : Type v} {ω : Type w} {π : Type v'}

/-- Results of one step that match: the states by `R`, the outputs by `Q`. -/
def Matches (R : σ → τ → Prop) (Q : ω → π → Prop) (x : σ × ω) (y : τ × π) : Prop :=
  R x.1 y.1 ∧ Q x.2 y.2

/-- `S` does step by step what `T` does. -/
def Refines (S : Service σ α ω) (T : Service τ α π) (R : σ → τ → Prop) (Q : ω → π → Prop) : Prop :=
  ∀ {s t}, R s t → ∀ a, Option.Rel (Matches R Q) (S s a) (T t a)

/-- Logs of the same requests, whose outputs match. -/
def LogsMatch (Q : ω → π → Prop) : List (α × ω) → List (α × π) → Prop :=
  List.Forall₂ fun x y => x.1 = y.1 ∧ Q x.2 y.2

theorem LogsMatch.eq {log log' : List (α × ω)} (h : LogsMatch Eq log log') : log = log' := by
  induction h with
  | nil => rfl
  | cons hxy _ ih => rw [Prod.ext hxy.1 hxy.2, ih]

/-- The same part of the requests, on both sides. -/
theorem LogsMatch.filter {Q : ω → π → Prop} {log : List (α × ω)} {log' : List (α × π)}
    (h : LogsMatch Q log log') (mine : α → Bool) :
    LogsMatch Q (log.filter (mine ·.1)) (log'.filter (mine ·.1)) := by
  induction h with
  | nil => exact .nil
  | @cons x y _ _ hxy _ ih =>
      cases hmine : mine x.1 with
      | false =>
          rw [List.filter_cons_of_neg (by simp [hmine]),
            List.filter_cons_of_neg (by simp [← hxy.1, hmine])]
          exact ih
      | true =>
          rw [List.filter_cons_of_pos (by simp [hmine]),
            List.filter_cons_of_pos (by simp [← hxy.1, hmine])]
          exact .cons hxy ih

/-- What is read off matching entries alike is read off the logs alike. -/
theorem LogsMatch.flatMap {γ : Type w'} {Q : ω → π → Prop} {log : List (α × ω)}
    {log' : List (α × π)} (h : LogsMatch Q log log') {f : α × ω → List γ} {g : α × π → List γ}
    (hfg : ∀ a o p, Q o p → f (a, o) = g (a, p)) : log.flatMap f = log'.flatMap g := by
  induction h with
  | nil => rfl
  | @cons x y _ _ hxy _ ih =>
      obtain ⟨a, o⟩ := x
      obtain ⟨b, p⟩ := y
      obtain ⟨rfl, hQ⟩ := hxy
      rw [List.flatMap_cons, List.flatMap_cons, hfg a o p hQ, ih]

/-- Two logs that match a third. -/
theorem LogsMatch.join {Q : ω → π → Prop} {log₁ log₂ : List (α × ω)} {log : List (α × π)}
    (h : LogsMatch Q log₁ log) (h' : LogsMatch Q log₂ log) :
    LogsMatch (fun o o' => ∃ a, Q o a ∧ Q o' a) log₁ log₂ := by
  induction h generalizing log₂ with
  | nil =>
      cases h'
      exact .nil
  | cons hx _ ih =>
      cases h' with
      | cons hx' hrest => exact .cons ⟨hx.1.trans hx'.1.symm, _, hx.2, hx'.2⟩ (ih hrest)

/-- **Refinement over sessions**: what one service does on any list of requests is what the other
does, and one is defined there exactly when the other is. -/
theorem Refines.session {S : Service σ α ω} {T : Service τ α π} {R : σ → τ → Prop}
    {Q : ω → π → Prop} (h : Refines S T R Q) {s : σ} {t : τ} (hR : R s t) (as : List α) :
    Option.Rel (Matches R (LogsMatch Q)) (S.session s as) (T.session t as) := by
  induction as generalizing s t with
  | nil => exact .some ⟨hR, .nil⟩
  | cons a as ih =>
      rw [Service.session_cons, Service.session_cons]
      have hstep := h hR a
      revert hstep
      rcases S s a with _ | ⟨s', o⟩ <;> rcases T t a with _ | ⟨t', p⟩ <;> rintro (⟨hR', hQ⟩ | _)
      · exact .none
      · have hrest := ih hR'
        rw [Option.bind_some, Option.bind_some]
        revert hrest
        rcases S.session s' as with _ | ⟨s'', log⟩ <;> rcases T.session t' as with _ | ⟨t'', log'⟩ <;>
          rintro (⟨hR'', hlogs⟩ | _)
        · exact .none
        · exact .some ⟨hR'', .cons ⟨rfl, hQ⟩ hlogs⟩

/-- The matching result. -/
theorem exists_of_rel {R : σ → τ → Prop} {x : Option σ} {y : Option τ} (h : Option.Rel R x y)
    {a : σ} (hx : x = some a) : ∃ b, y = some b ∧ R a b := by
  subst hx
  cases h with
  | some hR => exact ⟨_, rfl, hR⟩

theorem exists_of_rel_right {R : σ → τ → Prop} {x : Option σ} {y : Option τ}
    (h : Option.Rel R x y) {b : τ} (hy : y = some b) : ∃ a, x = some a ∧ R a b := by
  subst hy
  cases h with
  | some hR => exact ⟨_, rfl, hR⟩

end

/-! ## Rewriting -/

section

variable {σ : Type u} {α : Type v} {ω : Type w} {S : Service σ α ω}

variable (S) in
/-- What `rewrite` puts in the place of a step, `S` does from every state that is related: these
requests, with these outputs. -/
def Rewrites (rewrite : α × ω → List (α × ω)) (V : σ → σ → Prop) : Prop :=
  ∀ ⦃s t a s' o⦄, V s t → S s a = some (s', o) →
    ∃ t', S.session t ((rewrite (a, o)).map Prod.fst) = some (t', rewrite (a, o)) ∧ V s' t'

/-- **Rewriting over sessions**: step by step the log of a session becomes the log of another one. -/
theorem Rewrites.session {rewrite : α × ω → List (α × ω)} {V : σ → σ → Prop}
    (h : Rewrites S rewrite V) {s t s' : σ} (hV : V s t) {as : List α} {log : List (α × ω)}
    (hs : S.session s as = some (s', log)) :
    ∃ t', S.session t ((log.flatMap rewrite).map Prod.fst) = some (t', log.flatMap rewrite) ∧
      V s' t' := by
  induction as generalizing s t log with
  | nil =>
      cases hs
      exact ⟨t, rfl, hV⟩
  | cons a as ih =>
      obtain ⟨u, o, rest, hstep, hrest, rfl⟩ := Service.session_cons_eq_some.mp hs
      obtain ⟨t', hsession, hV'⟩ := h hV hstep
      obtain ⟨t'', hsession', hV''⟩ := ih hV' hrest
      refine ⟨t'', ?_, hV''⟩
      rw [List.flatMap_cons, List.map_append]
      exact Service.session_append hsession hsession'

/-- The part of the state that `V` compares belongs to the requests that are `mine`: the others leave
it as it is, and what it is decides all that a request of mine does to it and what that puts out. -/
structure Confined (S : Service σ α ω) (mine : α → Bool) (V : σ → σ → Prop) : Prop where
  equivalence : Equivalence V
  other : ∀ {s a s' o}, mine a = false → S s a = some (s', o) → V s s'
  own : ∀ {s t a}, mine a = true → V s t → Option.Rel (Matches V Eq) (S s a) (S t a)

/-- What is left of a step of mine is the step; of another one nothing is left. -/
theorem Confined.rewrites {mine : α → Bool} {V : σ → σ → Prop} (h : Confined S mine V) :
    Rewrites S (fun e => if mine e.1 then [e] else []) V := by
  intro s t a s' o hV hstep
  cases ha : mine a with
  | false => exact ⟨t, by simp [ha], h.equivalence.trans (h.equivalence.symm (h.other ha hstep)) hV⟩
  | true =>
      obtain ⟨⟨t', o'⟩, ht', hV', rfl⟩ := exists_of_rel (h.own ha hV) hstep
      refine ⟨t', ?_, hV'⟩
      simpa [ha] using Service.session_cons_eq_some.mpr ⟨t', o, [], ht', rfl, rfl⟩

/-- **Isolation over sessions**: without the requests of others the part of the state and the log of
my requests are the same. -/
theorem Confined.session {mine : α → Bool} {V : σ → σ → Prop}
    (h : Confined S mine V) {s t s' : σ} (hV : V s t) {as : List α} {log : List (α × ω)}
    (hs : S.session s as = some (s', log)) :
    ∃ t', S.session t (as.filter mine) = some (t', log.filter (mine ·.1)) ∧ V s' t' := by
  obtain ⟨t', hsession, hV'⟩ := h.rewrites.session hV hs
  have hmine : ∀ log : List (α × ω),
      (log.flatMap fun e => if mine e.1 then [e] else []) = log.filter (mine ·.1) := by
    intro log
    induction log with
    | nil => rfl
    | cons e rest ih => cases he : mine e.1 <;> simp [he, ih]
  have hfilter : as.filter mine = (log.filter (mine ·.1)).map Prod.fst := by
    rw [← Service.session_fst hs, List.filter_map]
    rfl
  rw [hmine] at hsession
  exact ⟨t', hfilter ▸ hsession, hV'⟩

end

end XeusCpp.Logic
