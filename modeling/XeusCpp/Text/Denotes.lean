/-
# XeusCpp.Text.Denotes — composing JSON texts.

`Denotes p w a` is what a text assembled by concatenation needs: the word `w` is read by `p` as `a`
wherever a delimiter follows it. Arrays, objects, members and strings denote what their parts
denote, white space around a text does not matter, and a text that parses denotes its value, so
it may be pasted into a larger one.
-/
import XeusCpp.Text.Json

namespace XeusCpp.Text

namespace Json

open Reader

/-- The text `w`, white space behind it included, is read by `p` as `a` wherever a delimiter
follows. -/
def Denotes {α : Type} (p : Reader Byte α) (w : Str) (a : α) : Prop :=
  ∃ v, v <:+ w ∧ (∀ c ∈ v, isWs c = true) ∧
    ∀ t, Delimits t → spaced isWs p (w ++ t) = some (a, v ++ t)

section Denotes

variable {α : Type} {p q : Reader Byte α} {w : Str} {a : α}

/-- Blanks in front are dropped with those behind them. -/
theorem dropWhile_of_blank {v : Str} (h : ∀ c ∈ v, isWs c = true) (t : Str) :
    (v ++ t).dropWhile isWs = t.dropWhile isWs := by
  rw [List.dropWhile_append, List.dropWhile_eq_nil_iff.mpr h]
  rfl

/-- White space ends a number. -/
theorem inNumber_of_isWs : ∀ c : Byte, isWs c = true → inNumber c = false := by decide +kernel

theorem delimits_blank {v t : Str} (hv : ∀ c ∈ v, isWs c = true) (ht : Delimits t) :
    Delimits (v ++ t) := by
  cases v with
  | nil => exact ht
  | cons c v =>
      exact delimits_cons _ (inNumber_of_isWs c (hv c List.mem_cons_self))

/-- White space around a text is no part of what it denotes. -/
theorem Denotes.blank {u v : Str} (hu : ∀ c ∈ u, isWs c = true) (hv : ∀ c ∈ v, isWs c = true)
    (h : Denotes p w a) : Denotes p (u ++ w ++ v) a := by
  obtain ⟨x, ⟨y, rfl⟩, hx, h⟩ := h
  refine ⟨x ++ v, ⟨u ++ y, by simp⟩, ?_, ?_⟩
  · intro c hc
    rcases List.mem_append.mp hc with hc | hc
    · exact hx c hc
    · exact hv c hc
  · intro t ht
    have hr := h (v ++ t) (delimits_blank hv ht)
    show p (List.dropWhile isWs _) = _
    rw [List.append_assoc, List.append_assoc, dropWhile_of_blank hu, List.append_assoc x v t]
    exact hr

/-- A reader that reads more reads it too. -/
theorem Denotes.refines (h : Denotes p w a) (hpq : Refines p q) : Denotes q w a := by
  obtain ⟨v, hv, hb, h⟩ := h
  exact ⟨v, hv, hb, fun t ht => Refines.spaced isWs hpq (h t ht)⟩

/-- A text that parses denotes its value, wherever it is pasted. -/
theorem denotes_of_parse {w : Str} {j : Json} (h : parse w = some j) :
    Denotes (value (w.length + 1)) w j := by
  unfold parse at h
  split at h
  next => cases h
  next j' r hr =>
    split at h
    next hblank =>
      cases h
      have hs : Stable Delimits (spaced isWs (value (w.length + 1))) :=
        Stable.spaced (stable_value _) (value_nil _)
      exact ⟨r, hs.suffix hr, List.dropWhile_eq_nil_iff.mp hblank, fun t ht => hs.append ht hr⟩
    next => cases h

/-- And what denotes a value parses. -/
theorem parse_of_denotes {w : Str} {j : Json} (h : Denotes (value (w.length + 1)) w j) :
    parse w = some j := by
  obtain ⟨v, -, hb, h⟩ := h
  have hr := h [] delimits_nil
  rw [List.append_nil, List.append_nil] at hr
  rw [parse, hr]
  exact if_pos (List.dropWhile_eq_nil_iff.mpr hb)

variable {item : Reader Byte α} {close : Byte}

/-- Items with commas before them, as they stand behind the first item. -/
def behind (ws : List Str) : Str := ws.flatMap (valueSeparator :: ·)

/-- The bracket that closes a series. -/
structure Closes (close : Byte) : Prop where
  not_ws : isWs close = false
  not_comma : close ≠ valueSeparator
  not_number : inNumber close = false

theorem closes_object : Closes endObject := ⟨by decide, by decide, by decide⟩

theorem closes_array : Closes endArray := ⟨by decide, by decide, by decide⟩

/-- Behind an item stands a comma or the bracket. -/
theorem delimits_behind (h : Closes close) (ws : List Str) (t : Str) :
    Delimits (behind ws ++ close :: t) := by
  cases ws with
  | nil => exact delimits_cons t h.not_number
  | cons w ws => exact delimits_cons _ (by decide)

/-- White space in front is skipped. -/
theorem spaced_cons {c : Byte} {v : Str} (hv : ∀ c ∈ v, isWs c = true) (hc : isWs c = false)
    (t : Str) : spaced isWs p (v ++ c :: t) = p (c :: t) := by
  show p (List.dropWhile isWs _) = _
  rw [dropWhile_of_blank hv, List.dropWhile_cons_of_neg (by simp [hc])]

/-- A round takes a comma and the text of an item. -/
theorem next_item (h : Closes close) (hw : Denotes item w a) {v : Str}
    (hv : ∀ c ∈ v, isWs c = true) : ∃ x, x <:+ w ∧ (∀ c ∈ x, isWs c = true) ∧
      ∀ t, Delimits t → next item close (v ++ valueSeparator :: (w ++ t)) = some (some a, x ++ t) := by
  obtain ⟨x, hxw, hx, hr⟩ := hw
  refine ⟨x, hxw, hx, fun t ht => ?_⟩
  rw [next, spaced_cons hv (by decide), ifHead_of_ne, ifHead_cons_self]
  · exact map_of_eq some (hr t ht)
  · simpa using h.not_comma.symm

/-- The items behind the first, with their commas. -/
theorem many_next {ws : List (Str × α)} (h : Closes close)
    (hitem : ∀ x ∈ ws, Denotes item x.1 x.2) {v : Str} (hv : ∀ c ∈ v, isWs c = true) (t : Str) :
    many (next item close) (v ++ (behind (ws.map Prod.fst) ++ close :: t)) =
      some (ws.map Prod.snd, t) := by
  induction ws generalizing v with
  | nil =>
      apply many_stop
      show next item close (v ++ close :: t) = _
      rw [next, spaced_cons hv h.not_ws, ifHead_cons_self]
      rfl
  | cons x ws ih =>
      obtain ⟨y, hyw, hy, hr⟩ := next_item h (hitem x List.mem_cons_self) hv
      have hround := hr _ (delimits_behind h (ws.map Prod.fst) t)
      have hlen := hyw.length_le
      have hcat : v ++ (behind ((x :: ws).map Prod.fst) ++ close :: t) =
          v ++ valueSeparator :: (x.1 ++ (behind (ws.map Prod.fst) ++ close :: t)) := by
        simp [behind]
      rw [hcat]
      apply many_cons hround
      · simp only [List.length_append, List.length_cons]
        omega
      · exact ih (fun z hz => hitem z (List.mem_cons_of_mem x hz)) hy

/-- Items with commas between them. -/
def commaSep : List Str → Str
  | [] => []
  | w :: ws => w ++ behind ws

theorem length_le_behind {w : Str} {ws : List Str} (h : w ∈ ws) :
    w.length ≤ (behind ws).length := by
  induction ws with
  | nil => cases h
  | cons x ws ih =>
      have hcat : (behind (x :: ws)).length = 1 + x.length + (behind ws).length := by
        simp only [behind, List.flatMap_cons, List.length_append, List.length_cons]
        omega
      rcases List.mem_cons.mp h with rfl | h
      · omega
      · have := ih h
        omega

/-- No item is longer than the series. -/
theorem length_le_commaSep {w : Str} {ws : List Str} (h : w ∈ ws) :
    w.length ≤ (commaSep ws).length := by
  cases ws with
  | nil => cases h
  | cons x ws =>
      have hcat : (commaSep (x :: ws)).length = x.length + (behind ws).length := by simp [commaSep]
      rcases List.mem_cons.mp h with rfl | h
      · omega
      · have := length_le_behind h
        omega

/-- **A series of texts is read as the series of what they denote.** -/
theorem series_items {ws : List (Str × α)} (h : Closes close)
    (hfail : ∀ s, item (close :: s) = none) (hitem : ∀ x ∈ ws, Denotes item x.1 x.2) (t : Str) :
    series item close (commaSep (ws.map Prod.fst) ++ close :: t) = some (ws.map Prod.snd, t) := by
  have hnone : ∀ c ∈ ([] : Str), isWs c = true := by simp
  -- the first item is read by the bracket's own branch, the others behind commas
  cases ws with
  | nil =>
      have hs := spaced_cons (p := ifHead close (give [])
        (andThen item fun a => map (a :: ·) (many (next item close)))) hnone h.not_ws t
      rw [ifHead_cons_self] at hs
      exact hs
  | cons x ws =>
      obtain ⟨y, -, hy, hr⟩ := hitem x List.mem_cons_self
      have hx := hr _ (delimits_behind h (ws.map Prod.fst) t)
      have hmany := many_next h (fun z hz => hitem z (List.mem_cons_of_mem x hz)) hy t
      have hcat : commaSep ((x :: ws).map Prod.fst) ++ close :: t =
          x.1 ++ (behind (ws.map Prod.fst) ++ close :: t) := by
        simp [commaSep]
      rw [hcat]
      show ifHead close _ _ (List.dropWhile isWs _) = _
      rw [ifHead_of_ne, andThen_of_eq (p := item) hx]
      · exact map_of_eq _ hmany
      · -- an item cannot begin with the closing bracket
        intro hhead
        obtain ⟨s, hs⟩ := List.head?_eq_some_iff.mp hhead
        have hx' : item (List.dropWhile isWs (x.1 ++ (behind (ws.map Prod.fst) ++ close :: t))) = _ :=
          hx
        rw [hs, hfail] at hx'
        cases hx'

theorem value_endArray (d : Nat) (s : Str) : value d (endArray :: s) = none := by
  cases d <;> rfl

/-- A text that is read whatever follows needs no delimiter. -/
theorem denotes_intro {c : Byte} {s : Str} (hc : isWs c = false)
    (h : ∀ t, p (c :: s ++ t) = some (a, t)) : Denotes p (c :: s) a := by
  refine ⟨[], List.nil_suffix, by simp, fun t _ => ?_⟩
  have hs := spaced_cons (p := p) (v := []) (by simp) hc (s ++ t)
  exact hs.trans (h t)

/-- An array is the bracketed text of its items. -/
theorem denotes_arr {d : Nat} (ws : List (Str × Json))
    (h : ∀ x ∈ ws, Denotes (value d) x.1 x.2) :
    Denotes (value (d + 1)) (beginArray :: commaSep (ws.map Prod.fst) ++ [endArray])
      (arr (ws.map Prod.snd)) := by
  apply denotes_intro (by decide)
  intro t
  have hs := series_items closes_array (value_endArray d) h t
  show (map arr (series (value d) endArray)) _ = _
  apply map_of_eq
  simpa using hs

/-- An object is the bracketed text of its members. -/
theorem denotes_obj {d : Nat} (ws : List (Str × (List Char × Json)))
    (h : ∀ x ∈ ws, Denotes (member (value d)) x.1 x.2) :
    Denotes (value (d + 1)) (beginObject :: commaSep (ws.map Prod.fst) ++ [endObject])
      (obj (ws.map Prod.snd)) := by
  apply denotes_intro (by decide)
  intro t
  have hs := series_items closes_object (fun s => rfl) h t
  show (map obj (series (member (value d)) endObject)) _ = _
  apply map_of_eq
  simpa using hs

/-- The word `b` is the body of a string literal. -/
def Spells (b : Str) (s : List Char) : Prop := characters (b ++ [quote]) = some (s, [])

instance (b : Str) (s : List Char) : Decidable (Spells b s) :=
  inferInstanceAs (Decidable (_ = _))

theorem Spells.append {b : Str} {s : List Char} (h : Spells b s) (t : Str) :
    characters (b ++ quote :: t) = some (s, t) := by
  have hs := (stable_characters (D := fun _ => True)).append (t := t) trivial h
  simpa using hs

/-- A body spells the characters its pieces are read as. -/
theorem spells_flatMap {β : Type} {f : β → Str} {g : β → Char}
    (h : ∀ b t, character (f b ++ t) = some (some (g b), t)) (bs : List β) :
    Spells (bs.flatMap f) (bs.map g) := by
  induction bs with
  | nil => rfl
  | cons b bs ih =>
      have hne : f b ≠ [] := fun hb => by
        have hnil := h b []
        rw [hb] at hnil
        cases hnil
      have hpos := List.length_pos_iff.mpr hne
      show characters ((f b ++ bs.flatMap f) ++ [quote]) = _
      rw [List.append_assoc]
      refine many_cons (h b _) ?_ ih
      simp only [List.length_append]
      omega

/-- A string is the body of a literal between quotes. -/
theorem denotes_str {d : Nat} {b : Str} {s : List Char} (h : Spells b s) :
    Denotes (value (d + 1)) (quote :: b ++ [quote]) (str s) := by
  apply denotes_intro (by decide)
  intro t
  show (map str characters) _ = _
  apply map_of_eq
  simpa using h.append t

/-- A member is its key, a colon and a value. -/
theorem denotes_member {b : Str} {k : List Char} (hk : Spells b k) {w : Str} (hw : Denotes p w a) :
    Denotes (member p) (quote :: b ++ quote :: nameSeparator :: w) (k, a) := by
  obtain ⟨x, hxw, hx, hr⟩ := hw
  refine ⟨x, hxw.trans ⟨quote :: b ++ [quote, nameSeparator], by simp⟩, hx, fun t ht => ?_⟩
  have hs := spaced_cons (p := member p) (v := []) (by simp) (by decide : isWs quote = false)
    (b ++ quote :: nameSeparator :: w ++ t)
  refine (by simpa using hs : _ = _).trans ?_
  rw [member, ifHead_cons_self, andThen_of_eq (hk.append _)]
  have hcolon := spaced_cons (p := ifHead nameSeparator (map (k, ·) (spaced isWs p)) fail) (v := [])
    (by simp) (by decide : isWs nameSeparator = false) (w ++ t)
  refine hcolon.trans ?_
  rw [ifHead_cons_self]
  exact map_of_eq _ (hr t ht)

end Denotes

end Json

end XeusCpp.Text
