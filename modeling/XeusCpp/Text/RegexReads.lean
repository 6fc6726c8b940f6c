/-
# XeusCpp.Text.RegexReads — what a regular expression can read.

`Reads r c d` says that `r` may take the text from the cursor `c` to the cursor `d`, whatever the
order in which a matcher tries its choices. A match that `exec` finds is one of these
(`exec_sound`), so a text no reading of which fits is not matched (`exec_none`, `matchAt_none`).
-/
import XeusCpp.Text.Regex

namespace XeusCpp.Text.Regex

inductive Reads : Regex → Cursor → Cursor → Prop
  | empty (c : Cursor) : Reads empty c c
  | set {p : Byte → Bool} {c : Cursor} {x : Byte} {s : Str} :
      c.rest = x :: s → p x = true → Reads (set p) c (c.advance 1)
  | bos {c : Cursor} : c.pos = 0 → Reads bos c c
  | eos {c : Cursor} : c.rest = [] → Reads eos c c
  | seq {a b : Regex} {c m d : Cursor} : Reads a c m → Reads b m d → Reads (seq a b) c d
  | left {a b : Regex} {c d : Cursor} : Reads a c d → Reads (alt a b) c d
  | right {a b : Regex} {c d : Cursor} : Reads b c d → Reads (alt a b) c d
  | stop (a : Regex) (c : Cursor) : Reads (star a) c c
  | round {a : Regex} {c m d : Cursor} : Reads a c m → Reads (star a) m d → Reads (star a) c d
  | group (i : Nat) {a : Regex} {c m : Cursor} : Reads a c m →
      Reads (group i a) c (m.capture i (c.upTo m))

variable {α : Type} {r a b : Regex} {k : Cursor → Option α} {c d : Cursor}

theorem orElse_eq_some {x : Option α} {y : Unit → Option α} {v : α} (h : x.orElse y = some v) :
    x = some v ∨ y () = some v := by
  cases x with
  | none => exact .inr h
  | some w => exact .inl h

/-- What `exec` finds is a reading. -/
theorem exec_sound {v : α} (h : r.exec k c = some v) : ∃ d, Reads r c d ∧ k d = some v := by
  induction r generalizing k c with
  | empty => exact ⟨c, .empty c, h⟩
  | set p =>
      rw [exec] at h
      split at h
      · cases h
      next x s hc =>
        split at h
        next hx => exact ⟨_, .set hc hx, h⟩
        next => cases h
  | bos =>
      rw [exec] at h
      split at h
      next hc => exact ⟨c, .bos hc, h⟩
      next => cases h
  | eos =>
      rw [exec] at h
      split at h
      next hc => exact ⟨c, .eos hc, h⟩
      next => cases h
  | seq a b iha ihb =>
      obtain ⟨m, hm, h⟩ := iha h
      obtain ⟨d, hd, h⟩ := ihb h
      exact ⟨d, .seq hm hd, h⟩
  | alt a b iha ihb =>
      rcases orElse_eq_some h with h | h
      · obtain ⟨d, hd, h⟩ := iha h
        exact ⟨d, .left hd, h⟩
      · obtain ⟨d, hd, h⟩ := ihb h
        exact ⟨d, .right hd, h⟩
  | group i a ih =>
      obtain ⟨m, hm, h⟩ := ih h
      exact ⟨_, .group i hm, h⟩
  | star a ih =>
      -- one reading for each round, by induction on the fuel
      have hrounds : ∀ n c, repeated a.exec k n c = some v →
          ∃ d, Reads (star a) c d ∧ k d = some v := by
        intro n
        induction n with
        | zero => exact fun c h => ⟨c, .stop a c, h⟩
        | succ n ihn =>
            intro c h
            rcases orElse_eq_some h with h | h
            · obtain ⟨m, hm, h⟩ := ih h
              split at h
              · obtain ⟨d, hd, h⟩ := ihn m h
                exact ⟨d, .round hm hd, h⟩
              · cases h
            · exact ⟨c, .stop a c, h⟩
      exact hrounds _ c h

/-- Where every reading is refused there is no match. -/
theorem exec_none (h : ∀ d, Reads r c d → k d = none) : r.exec k c = none := by
  cases hexec : r.exec k c with
  | none => rfl
  | some v =>
      obtain ⟨d, hd, hk⟩ := exec_sound hexec
      rw [h d hd] at hk
      cases hk

theorem matchAt_none {pos : Nat} {s : Str} (h : ∀ d, ¬ Reads r ⟨pos, s, []⟩ d) :
    matchAt r pos s = none :=
  exec_none fun d hd => absurd hd (h d)

/-! ## What readings consume -/

theorem reads_set {p : Byte → Bool} (h : Reads (set p) c d) :
    ∃ x, c.rest = x :: d.rest ∧ p x = true := by
  cases h with
  | @set _ _ x s hc hx =>
      refine ⟨x, ?_, hx⟩
      rw [Cursor.advance_rest, hc]
      rfl

theorem reads_char {x : Byte} (h : Reads (char x) c d) : c.rest = x :: d.rest := by
  obtain ⟨y, hc, hy⟩ := reads_set h
  rw [hc, show y = x by simpa using hy]

/-- Everything between the two cursors is in the class. -/
def Consumes (p : Byte → Prop) (c d : Cursor) : Prop := ∃ u, c.rest = u ++ d.rest ∧ ∀ x ∈ u, p x

theorem Consumes.refl (p : Byte → Prop) (c : Cursor) : Consumes p c c := ⟨[], rfl, nofun⟩

theorem Consumes.trans {p : Byte → Prop} {m : Cursor} (h : Consumes p c m) (h' : Consumes p m d) :
    Consumes p c d := by
  obtain ⟨u, hu, hup⟩ := h
  obtain ⟨v, hv, hvp⟩ := h'
  refine ⟨u ++ v, by rw [hu, hv, List.append_assoc], ?_⟩
  intro x hx
  rcases List.mem_append.mp hx with hx | hx
  · exact hup x hx
  · exact hvp x hx

theorem reads_star {p : Byte → Prop} (ha : ∀ c d, Reads a c d → Consumes p c d)
    (h : Reads (star a) c d) : Consumes p c d := by
  generalize hr : star a = r at h
  induction h with
  | stop b c => exact Consumes.refl p c
  | round hm _ _ ih =>
      cases hr
      exact (ha _ _ hm).trans (ih rfl)
  | empty c => cases hr
  | set hc hx => cases hr
  | bos hc => cases hr
  | eos hc => cases hr
  | seq _ _ _ _ => cases hr
  | left _ _ => cases hr
  | right _ _ => cases hr
  | group i _ _ => cases hr

theorem reads_star_set {p : Byte → Bool} (h : Reads (star (set p)) c d) :
    Consumes (p · = true) c d := by
  refine reads_star ?_ h
  intro c d hset
  obtain ⟨x, hc, hx⟩ := reads_set hset
  exact ⟨[x], hc, fun y hy => by rw [List.mem_singleton.mp hy]; exact hx⟩

theorem reads_opt (h : Reads (opt a) c d) : Reads a c d ∨ d = c := by
  cases h with
  | left h => exact .inl h
  | right h =>
      cases h
      exact .inr rfl

/-- Readings only drop text. -/
theorem reads_suffix (h : Reads r c d) : ∃ u, c.rest = u ++ d.rest := by
  induction h with
  | empty c => exact ⟨[], rfl⟩
  | @set p c x s hc hx =>
      refine ⟨[x], ?_⟩
      rw [Cursor.advance_rest, hc]
      rfl
  | bos _ => exact ⟨[], rfl⟩
  | eos _ => exact ⟨[], rfl⟩
  | seq _ _ iha ihb =>
      obtain ⟨u, hu⟩ := iha
      obtain ⟨v, hv⟩ := ihb
      exact ⟨u ++ v, by rw [hu, hv, List.append_assoc]⟩
  | left _ ih => exact ih
  | right _ ih => exact ih
  | stop a c => exact ⟨[], rfl⟩
  | round _ _ iha ihb =>
      obtain ⟨u, hu⟩ := iha
      obtain ⟨v, hv⟩ := ihb
      exact ⟨u ++ v, by rw [hu, hv, List.append_assoc]⟩
  | group i _ ih => exact ih

/-- A reading that ends in a fixed letter. -/
theorem reads_seq_char {x : Byte} (h : Reads (seq a (char x)) c d) :
    ∃ u, c.rest = u ++ x :: d.rest := by
  cases h with
  | seq ha hx =>
      obtain ⟨u, hu⟩ := reads_suffix ha
      exact ⟨u, by rw [hu, reads_char hx]⟩

/-! ## Where a search begins to match -/

/-- A search passes over a prefix no place of which matches. -/
theorem searchFrom_skip {u s : Str} {pos : Nat}
    (h : ∀ v w, u = v ++ w → w ≠ [] → matchAt r (pos + v.length) (w ++ s) = none) :
    searchFrom r pos (u ++ s) = searchFrom r (pos + u.length) s := by
  induction u generalizing pos with
  | nil => rfl
  | cons x u ih =>
      have hhere : matchAt r pos (x :: (u ++ s)) = none := h [] (x :: u) rfl (by simp)
      rw [List.cons_append, searchFrom, hhere]
      show searchFrom r (pos + 1) (u ++ s) = _
      rw [ih ?_, List.length_cons]
      · congr 1
        omega
      · intro v w hu hw
        have := h (x :: v) w (by rw [hu]; rfl) hw
        rwa [List.length_cons, ← Nat.add_assoc, Nat.add_right_comm] at this

/-- A match at the first place is the one a search finds. -/
theorem searchFrom_of_matchAt {s : Str} {pos : Nat} {m : Match} (h : matchAt r pos s = some m) :
    searchFrom r pos s = some m := by
  cases s with
  | nil => exact h
  | cons x s =>
      rw [searchFrom, h]
      rfl

end XeusCpp.Text.Regex
