/-
# XeusCpp.Text.Reader — readers of a prefix, and loops over them.

A reader takes a word apart: it returns a value and what is left, or fails. Two facts carry every
proof about a reader that is built from smaller ones. It is *stable* for a set `D` of words when
it leaves a suffix of its input, and a word of `D` put behind the input changes neither the value
nor what was consumed. It *refines* another when it reads whatever the other reads, with the same result; the
recursion depth of a grammar and the number of rounds of a loop are both raised by refinement. What
it *consumes* is what it takes off the front of its input, related to the value.

`many` is the loop of a scanner that reads elements until one round says stop. Its rounds are
bounded by the length of the input, and the rules `many_cons` and `many_stop` let no user see that
bound.
-/
import Mathlib.Tactic.Common
import XeusCpp.Text.Bytes

namespace XeusCpp.Text

universe u v w

/-- Reads a value off the front of a word. -/
abbrev Reader (τ : Type u) (α : Type v) := List τ → Option (α × List τ)

namespace Reader

variable {τ : Type u} {α : Type v} {β : Type w} {D : List τ → Prop}

/-- A word of `D` behind the input is left alone. -/
structure Stable (D : List τ → Prop) (p : Reader τ α) : Prop where
  suffix : ∀ ⦃s a r⦄, p s = some (a, r) → r <:+ s
  append : ∀ ⦃s a r t⦄, D t → p s = some (a, r) → p (s ++ t) = some (a, r ++ t)

/-- What `p` reads, `q` reads in the same way. -/
def Refines (p q : Reader τ α) : Prop := ∀ ⦃s x⦄, p s = some x → q s = some x

theorem Refines.refl (p : Reader τ α) : Refines p p := fun _ _ h => h

theorem Refines.trans {p q r : Reader τ α} (h₁ : Refines p q) (h₂ : Refines q r) : Refines p r :=
  fun _ _ h => h₂ (h₁ h)

/-! ## The value read -/

/-- Changes the value read. -/
def map (f : α → β) (p : Reader τ α) : Reader τ β := fun s => (p s).map fun x => (f x.1, x.2)

theorem map_eq_some {f : α → β} {p : Reader τ α} {s : List τ} {b : β} {r : List τ} :
    map f p s = some (b, r) ↔ ∃ a, p s = some (a, r) ∧ f a = b := by
  simp [map]

/-- The form a rewrite needs. -/
theorem map_of_eq (f : α → β) {p : Reader τ α} {s r : List τ} {a : α} (h : p s = some (a, r)) :
    map f p s = some (f a, r) :=
  map_eq_some.mpr ⟨a, h, rfl⟩

/-- A changed value is no reason to read on. -/
theorem Stable.map (f : α → β) {p : Reader τ α} (h : Stable D p) : Stable D (map f p) where
  suffix s b r hb := by
    obtain ⟨a, ha, -⟩ := map_eq_some.mp hb
    exact h.suffix ha
  append s b r t ht hb := by
    obtain ⟨a, ha, rfl⟩ := map_eq_some.mp hb
    exact map_of_eq f (h.append ht ha)

theorem Refines.map (f : α → β) {p q : Reader τ α} (h : Refines p q) :
    Refines (map f p) (map f q) := by
  intro s x hx
  obtain ⟨b, r⟩ := x
  obtain ⟨a, ha, rfl⟩ := map_eq_some.mp hx
  exact map_of_eq f (h ha)

/-! ## One reader after another -/

/-- Reads with `p`, then with what `f` makes of the value. -/
def andThen (p : Reader τ α) (f : α → Reader τ β) : Reader τ β :=
  fun s => (p s).bind fun x => f x.1 x.2

/-- Both parts succeed, the second on what the first leaves. -/
theorem andThen_eq_some {p : Reader τ α} {f : α → Reader τ β} {s : List τ} {x : β × List τ} :
    andThen p f s = some x ↔ ∃ a r, p s = some (a, r) ∧ f a r = some x := by
  simp [andThen, Option.bind_eq_some_iff]

/-- The first part is behind. -/
theorem andThen_of_eq {p : Reader τ α} {f : α → Reader τ β} {s r : List τ} {a : α}
    (h : p s = some (a, r)) : andThen p f s = f a r := by
  simp [andThen, h]

/-- A sequence is stable when each part is, whatever value the first has. -/
theorem Stable.andThen {p : Reader τ α} {f : α → Reader τ β} (hp : Stable D p)
    (hf : ∀ a, Stable D (f a)) : Stable D (andThen p f) where
  suffix s b r hb := by
    obtain ⟨a, r', ha, hb⟩ := andThen_eq_some.mp hb
    exact ((hf a).suffix hb).trans (hp.suffix ha)
  append s b r t ht hb := by
    obtain ⟨a, r', ha, hb⟩ := andThen_eq_some.mp hb
    rw [andThen_of_eq (hp.append ht ha)]
    exact (hf a).append ht hb

/-- A sequence reads more when both parts do. -/
theorem Refines.andThen {p q : Reader τ α} {f g : α → Reader τ β} (hp : Refines p q)
    (hf : ∀ a, Refines (f a) (g a)) : Refines (andThen p f) (andThen q g) := by
  intro s x hx
  obtain ⟨a, r, ha, hx⟩ := andThen_eq_some.mp hx
  rw [andThen_of_eq (hp ha)]
  exact hf a hx

/-! ## Leaves and choices -/

/-- Reads nothing and returns `a`. -/
def give (a : α) : Reader τ α := fun s => some (a, s)

/-- Reads nothing, ever. -/
def fail : Reader τ α := fun _ => none

theorem Stable.give (a : α) : Stable D (give a) where
  suffix s b r h := by
    cases h
    exact List.suffix_rfl
  append s b r t _ h := by
    cases h
    rfl

theorem Stable.fail : Stable D (fail : Reader τ α) where
  suffix s a r h := by cases h
  append s a r t _ h := by cases h

variable [DecidableEq τ]

/-- Takes the letter `c` and reads with `p`; reads with `q` where another letter, or none, stands. -/
def ifHead (c : τ) (p q : Reader τ α) : Reader τ α
  | [] => q []
  | x :: s => if x = c then p s else q (x :: s)

@[simp] theorem ifHead_cons_self (c : τ) (p q : Reader τ α) (s : List τ) :
    ifHead c p q (c :: s) = p s := if_pos rfl

/-- Without the letter the second reader has the whole word. -/
theorem ifHead_of_ne {c : τ} {s : List τ} (p q : Reader τ α) (h : s.head? ≠ some c) :
    ifHead c p q s = q s := by
  cases s with
  | nil => rfl
  | cons x s => exact if_neg (show ¬x = c from fun hx => h (congrArg some hx))

/-- A choice is stable when its letter cannot come from the word behind, or when it fails on the
empty word. -/
theorem Stable.ifHead {c : τ} {p q : Reader τ α} (hp : Stable D p) (hq : Stable D q)
    (hc : q [] = none ∨ ∀ {t}, D t → t.head? ≠ some c) : Stable D (ifHead c p q) where
  suffix s a r h := by
    cases s with
    | nil => exact hq.suffix h
    | cons x s =>
        by_cases hx : x = c
        · subst hx
          rw [ifHead_cons_self] at h
          exact (hp.suffix h).trans (List.suffix_cons x s)
        · rw [ifHead_of_ne p q (by simpa using hx)] at h
          exact hq.suffix h
  append s a r t ht h := by
    cases s with
    | nil =>
        -- at the end of the word the letter behind it could decide; `hc` says it does not
        rcases hc with hc | hc
        · cases hc.symm.trans h
        · rw [List.nil_append, ifHead_of_ne p q (hc ht)]
          exact hq.append ht h
    | cons x s =>
        by_cases hx : x = c
        · subst hx
          rw [ifHead_cons_self] at h
          rw [List.cons_append, ifHead_cons_self]
          exact hp.append ht h
        · rw [ifHead_of_ne p q (by simpa using hx)] at h
          rw [ifHead_of_ne p q (by simpa using hx)]
          exact hq.append ht h

/-- A choice reads more when both sides do. -/
theorem Refines.ifHead (c : τ) {p p' q q' : Reader τ α} (hp : Refines p p') (hq : Refines q q') :
    Refines (ifHead c p q) (ifHead c p' q') := by
  intro s x h
  cases s with
  | nil => exact hq h
  | cons y s =>
      by_cases hy : y = c
      · subst hy
        rw [ifHead_cons_self] at h ⊢
        exact hp h
      · rw [ifHead_of_ne _ _ (by simpa using hy)] at h ⊢
        exact hq h

/-- Reads exactly the word `w`. -/
def word (w : List τ) (a : α) : Reader τ α :=
  fun s => if s.take w.length = w then some (a, s.drop w.length) else none

theorem word_append (w : List τ) (a : α) (t : List τ) : word w a (w ++ t) = some (a, t) := by
  simp [word]

/-- The word was at the front. -/
theorem word_eq_some {w s r : List τ} {a b : α} (h : word w a s = some (b, r)) :
    a = b ∧ s = w ++ r := by
  unfold word at h
  split at h
  next hw =>
    obtain ⟨rfl, rfl⟩ := Prod.mk.inj (Option.some.inj h)
    refine ⟨rfl, ?_⟩
    conv_lhs => rw [← List.take_append_drop w.length s]
    rw [hw]
  next => cases h

theorem Stable.word (w : List τ) (a : α) : Stable D (word w a) where
  suffix s b r h := by
    obtain ⟨-, rfl⟩ := word_eq_some h
    exact List.suffix_append w r
  append s b r t _ h := by
    obtain ⟨rfl, rfl⟩ := word_eq_some h
    rw [List.append_assoc, word_append]

omit [DecidableEq τ]

/-- Reads with `p` behind a run of letters in `sp`. -/
def spaced (sp : τ → Bool) (p : Reader τ α) : Reader τ α := fun s => p (s.dropWhile sp)

/-- White space is skipped up to a letter, so the reader behind it must not take the end for one. -/
theorem Stable.spaced {sp : τ → Bool} {p : Reader τ α} (hp : Stable D p) (h : p [] = none) :
    Stable D (spaced sp p) where
  suffix s a r hs := (hp.suffix hs).trans (List.dropWhile_suffix sp)
  append s a r t ht hs := by
    have hne : s.dropWhile sp ≠ [] := fun he => by
      rw [Reader.spaced, he, h] at hs
      cases hs
    rw [Reader.spaced, dropWhile_append_of_ne hne]
    exact hp.append ht hs

theorem Refines.spaced (sp : τ → Bool) {p q : Reader τ α} (h : Refines p q) :
    Refines (spaced sp p) (spaced sp q) :=
  fun _ _ hx => h hx

/-! ## Reading elements until a round says stop -/

/-- At most `n` rounds of `round`, which reads one element or ends the loop. -/
def rounds (round : Reader τ (Option α)) : Nat → Reader τ (List α)
  | 0 => fail
  | n + 1 => andThen round fun
    | none => give []
    | some a => map (a :: ·) (rounds round n)

/-- The elements up to the round that says stop. -/
def many (round : Reader τ (Option α)) : Reader τ (List α) :=
  fun s => rounds round (s.length + 1) s

/-- More rounds, or rounds that read more, read more. -/
theorem rounds_refines {p q : Reader τ (Option α)} (h : Refines p q) {n m : Nat} (hnm : n ≤ m) :
    Refines (rounds p n) (rounds q m) := by
  induction n generalizing m with
  | zero => intro s x hx; cases hx
  | succ n ih =>
      obtain ⟨m, rfl⟩ : ∃ k, m = k + 1 := ⟨m - 1, by omega⟩
      apply Refines.andThen h
      rintro (_ | a)
      · exact Refines.refl _
      · exact Refines.map _ (ih (by omega))

theorem Stable.rounds {p : Reader τ (Option α)} (h : Stable D p) (n : Nat) :
    Stable D (rounds p n) := by
  induction n with
  | zero => exact Stable.fail
  | succ n ih =>
      apply Stable.andThen h
      rintro (_ | a)
      · exact Stable.give []
      · exact Stable.map _ ih

theorem Refines.many {p q : Reader τ (Option α)} (h : Refines p q) : Refines (many p) (many q) :=
  fun _ _ hx => rounds_refines h (Nat.le_refl _) hx

/-- A loop of stable rounds is stable: a longer word only allows more of them. -/
theorem Stable.many {p : Reader τ (Option α)} (h : Stable D p) : Stable D (many p) where
  suffix s a r hx := (Stable.rounds h _).suffix hx
  append s a r t ht hx := by
    apply rounds_refines (Refines.refl p) (n := s.length + 1)
    · simp
    · exact (Stable.rounds h _).append ht hx

/-- The loop ends. -/
theorem many_stop {round : Reader τ (Option α)} {s r : List τ} (h : round s = some (none, r)) :
    many round s = some ([], r) := by
  rw [many, rounds, andThen_of_eq h]
  rfl

/-- One round, and the rest of the loop. -/
theorem many_cons {round : Reader τ (Option α)} {s r t : List τ} {a : α} {as : List α}
    (h : round s = some (some a, r)) (hr : r.length < s.length) (hm : many round r = some (as, t)) :
    many round s = some (a :: as, t) := by
  rw [many, rounds, andThen_of_eq h]
  apply map_of_eq
  exact rounds_refines (Refines.refl round) (by omega) hm

/-! ## What is consumed -/

/-- A word taken off the front of the input is in `K` with the value read. -/
def Consumes (K : List τ → α → Prop) (p : Reader τ α) : Prop :=
  ∀ ⦃s a r⦄, p s = some (a, r) → ∃ w, s = w ++ r ∧ K w a

theorem Consumes.map {f : α → β} {p : Reader τ α} {K : List τ → β → Prop}
    (h : Consumes (fun w a => K w (f a)) p) : Consumes K (map f p) := by
  intro s b r hb
  obtain ⟨a, ha, rfl⟩ := map_eq_some.mp hb
  exact h ha

/-- A sequence consumes what its parts consume, one behind the other. -/
theorem Consumes.andThen {p : Reader τ α} {f : α → Reader τ β} {K : List τ → α → Prop}
    {L : List τ → β → Prop} (hp : Consumes K p)
    (hf : ∀ u a, K u a → Consumes (fun w b => L (u ++ w) b) (f a)) :
    Consumes L (andThen p f) := by
  intro s b r hb
  obtain ⟨a, r', ha, hnext⟩ := andThen_eq_some.mp hb
  obtain ⟨u, rfl, hu⟩ := hp ha
  obtain ⟨w, rfl, hw⟩ := hf u a hu hnext
  exact ⟨u ++ w, by rw [List.append_assoc], hw⟩

theorem Consumes.give {K : List τ → α → Prop} {a : α} (h : K [] a) : Consumes K (give a) := by
  intro s b r hb
  cases hb
  exact ⟨[], rfl, h⟩

theorem Consumes.fail {K : List τ → α → Prop} : Consumes K (fail : Reader τ α) := by
  intro s a r h
  cases h

/-- Where the letter is there it is consumed as well. -/
theorem Consumes.ifHead [DecidableEq τ] {c : τ} {p q : Reader τ α} {K : List τ → α → Prop}
    (hp : Consumes (fun w a => K (c :: w) a) p) (hq : Consumes K q) :
    Consumes K (ifHead c p q) := by
  intro s a r h
  cases s with
  | nil => exact hq h
  | cons x s =>
      by_cases hx : x = c
      · subst hx
        rw [ifHead_cons_self] at h
        obtain ⟨w, rfl, hw⟩ := hp h
        exact ⟨x :: w, rfl, hw⟩
      · rw [ifHead_of_ne p q (by simpa using hx)] at h
        exact hq h

theorem Consumes.word [DecidableEq τ] {w : List τ} {a : α} {K : List τ → α → Prop} (h : K w a) :
    Consumes K (word w a) := by
  intro s b r hb
  obtain ⟨rfl, rfl⟩ := word_eq_some hb
  exact ⟨w, rfl, h⟩

/-- A loop consumes what its rounds consume. -/
theorem Consumes.many {round : Reader τ (Option α)} {K : List τ → Option α → Prop}
    {L : List τ → List α → Prop} (h : Consumes K round) (hstop : ∀ w, K w none → L w [])
    (hround : ∀ u a w as, K u (some a) → L w as → L (u ++ w) (a :: as)) :
    Consumes L (many round) := by
  have hrounds : ∀ n, Consumes L (rounds round n) := by
    intro n
    induction n with
    | zero => exact Consumes.fail
    | succ n ih =>
        apply Consumes.andThen h
        rintro u (_ | a) hu
        · exact Consumes.give (by simpa using hstop u hu)
        · apply Consumes.map
          intro s as r has
          obtain ⟨w, rfl, hw⟩ := ih has
          exact ⟨w, rfl, hround u a w as hu hw⟩
  intro s as r has
  exact hrounds _ has

end Reader

end XeusCpp.Text
