/-
# XeusCpp.Text.Json — JSON texts, as RFC 8259 defines them.

A `Json` is a parsed value: a number is a signed decimal, a string a list of Unicode scalar values,
an object its members in text order. `Json.parse` reads a byte string: the whole text must be one
value with white space around it, strings must be well-formed UTF-8 without raw control characters,
and a `\uXXXX` escape of a surrogate counts only in a pair.

All readers here are stable for the words that do not prolong a number, and a value read at one
depth is read at every greater one.
-/
import Mathlib.Data.Nat.Digits.Defs
import XeusCpp.Text.Reader

namespace XeusCpp.Text

/-- `± digits · 10 ^ exponent`. -/
structure Decimal where
  negative : Bool
  digits : Nat
  exponent : Int
deriving DecidableEq, Repr

/-- A parsed value. -/
inductive Json
  | null
  | bool (b : Bool)
  | num (n : Decimal)
  | str (s : List Char)
  | arr (items : List Json)
  | obj (members : List (List Char × Json))
deriving Repr

namespace Json

open Reader

/-! ## Structural characters -/

abbrev beginObject : Byte := '\x7b'

abbrev endObject : Byte := '\x7d'

abbrev beginArray : Byte := '['

abbrev endArray : Byte := ']'

abbrev nameSeparator : Byte := ':'

abbrev valueSeparator : Byte := ','

abbrev quote : Byte := '"'

/-- White space between tokens. -/
def isWs (c : Byte) : Bool := c == ' ' || c == 9 || c == 10 || c == 13

/-! ## Numbers -/

/-- At least one decimal digit, and all that follow. -/
def digitRun : Reader Byte Str := fun s =>
  if s.takeWhile isdigit = [] then none else some (s.takeWhile isdigit, s.dropWhile isdigit)

/-- The number a run of decimal digits spells. -/
def digitsValue (w : Str) : Nat := Nat.ofDigits 10 (w.reverse.map fun c => c.toNat - 48)

/-- The exponent of a number. -/
def signedRun : Reader Byte Int :=
  ifHead '-' (map (fun w => -(digitsValue w : Int)) digitRun)
    (ifHead '+' (map (fun w => (digitsValue w : Int)) digitRun)
      (map (fun w => (digitsValue w : Int)) digitRun))

/-- A number: a sign, a whole part without leading zeros, a fraction, an exponent. -/
def number : Reader Byte Decimal :=
  andThen (ifHead '-' (give true) (give false)) fun neg =>
    andThen (ifHead '0' (give (lit "0")) digitRun) fun whole =>
      andThen (ifHead '.' digitRun (give [])) fun fraction =>
        map (fun e => ⟨neg, digitsValue (whole ++ fraction), e - fraction.length⟩)
          (ifHead 'e' signedRun (ifHead 'E' signedRun (give 0)))

/-! ## Strings -/

/-- The value of a hexadecimal digit. -/
def hexDigit : Byte → Option Nat := fun c =>
  if isdigit c then some (c.toNat - 48)
  else if 'a' ≤ c && c ≤ 'f' then some (c.toNat - 87)
  else if 'A' ≤ c && c ≤ 'F' then some (c.toNat - 55)
  else none

/-- Four hexadecimal digits. -/
def hex4 : Reader Byte Nat
  | a :: b :: c :: d :: s =>
      match hexDigit a, hexDigit b, hexDigit c, hexDigit d with
      | some a, some b, some c, some d => some (((a * 16 + b) * 16 + c) * 16 + d, s)
      | _, _, _, _ => none
  | _ => none

/-- The first half of a pair. -/
def isHighSurrogate (u : Nat) : Bool := 0xD800 ≤ u && u < 0xDC00

/-- The second half. -/
def isLowSurrogate (u : Nat) : Bool := 0xDC00 ≤ u && u < 0xE000

/-- What follows `\u`. -/
def unicode : Reader Byte Char :=
  andThen hex4 fun u =>
    if isHighSurrogate u then
      andThen (word (lit "\\u") ()) fun _ => andThen hex4 fun v =>
        if isLowSurrogate v then
          give (Char.ofNat (0x10000 + (u - 0xD800) * 0x400 + (v - 0xDC00)))
        else fail
    else if isLowSurrogate u then fail
    else give (Char.ofNat u)

/-- What follows a backslash. -/
def escaped : Reader Byte Char :=
  ifHead '"' (give '"') (ifHead '\\' (give '\\') (ifHead '/' (give '/')
    (ifHead 'b' (give '\x08') (ifHead 'f' (give '\x0c') (ifHead 'n' (give '\n')
      (ifHead 'r' (give '\r') (ifHead 't' (give '\t') (ifHead 'u' unicode fail))))))))

/-- One scalar value in UTF-8, not a control character. -/
def plain : Reader Byte Char
  | [] => none
  | c :: s =>
      if c < 0x20 then none
      else ((c :: s).toByteArray.utf8DecodeChar? 0).map fun x => (x, (c :: s).drop x.utf8Size)

/-- One character of a string's body, or its closing quote. -/
def character : Reader Byte (Option Char) :=
  ifHead quote (give none) (ifHead '\\' (map some escaped) (map some plain))

/-- A string's body and its closing quote. -/
def characters : Reader Byte (List Char) := many character

/-! ## Arrays, objects and values -/

section Series

variable {α : Type}

/-- What follows an item: a comma and an item, or the closing bracket. -/
def next (item : Reader Byte α) (close : Byte) : Reader Byte (Option α) :=
  spaced isWs (ifHead close (give none) (ifHead valueSeparator (map some (spaced isWs item)) fail))

/-- The items up to `close`, the opening bracket already read. -/
def series (item : Reader Byte α) (close : Byte) : Reader Byte (List α) :=
  spaced isWs (ifHead close (give [])
    (andThen item fun a => map (a :: ·) (many (next item close))))

/-- A key, a colon and a value. -/
def member (item : Reader Byte α) : Reader Byte (List Char × α) :=
  ifHead quote (andThen characters fun k =>
    spaced isWs (ifHead nameSeparator (map (k, ·) (spaced isWs item)) fail)) fail

end Series

/-- A value nested at most `d` levels deep. -/
def value : Nat → Reader Byte Json
  | 0 => fail
  | d + 1 =>
      ifHead beginObject (map obj (series (member (value d)) endObject))
        (ifHead beginArray (map arr (series (value d) endArray))
          (ifHead quote (map str characters)
            (ifHead 't' (word (lit "rue") (bool true))
              (ifHead 'f' (word (lit "alse") (bool false))
                (ifHead 'n' (word (lit "ull") null) (map num number))))))

/-- The value a text denotes. A text of length `n` nests less than `n + 1` levels deep. -/
def parse (s : Str) : Option Json :=
  match spaced isWs (value (s.length + 1)) s with
  | none => none
  | some (j, r) => if r.dropWhile isWs = [] then some j else none

/-! ## What follows a value -/

/-- The letters that could prolong a number. -/
def inNumber (c : Byte) : Bool :=
  isdigit c || c == '.' || c == 'e' || c == 'E' || c == '+' || c == '-'

/-- A word no number runs into. -/
def Delimits (t : Str) : Prop := ∀ c ∈ t.head?, inNumber c = false

theorem delimits_nil : Delimits [] := by simp [Delimits]

theorem delimits_cons {c : Byte} (t : Str) (h : inNumber c = false) : Delimits (c :: t) := by
  simpa [Delimits] using h

/-- No letter of a number stands at the front of such a word. -/
theorem Delimits.head_ne {t : Str} (h : Delimits t) {c : Byte} (hc : inNumber c = true) :
    t.head? ≠ some c := by
  intro he
  rw [h c he] at hc
  cases hc

/-- In particular no digit. -/
theorem Delimits.not_digit {t : Str} (h : Delimits t) : ∀ c ∈ t.head?, isdigit c = false := by
  intro c hc
  have h' := h c hc
  simp only [inNumber, Bool.or_eq_false_iff] at h'
  exact h'.1.1.1.1.1

/-- A run of digits ends where a delimiter follows. -/
theorem stable_digitRun : Stable Delimits digitRun where
  suffix s a r h := by
    unfold digitRun at h
    split at h
    · cases h
    · cases h
      exact List.dropWhile_suffix isdigit
  append s a r t ht h := by
    unfold digitRun at h
    split at h
    next => cases h
    next hne =>
      cases h
      rw [digitRun, takeWhile_append_of_delim ht.not_digit, dropWhile_append_of_delim ht.not_digit,
        if_neg hne]

theorem stable_signedRun : Stable Delimits signedRun := by
  unfold signedRun
  apply Stable.ifHead
  · exact Stable.map _ stable_digitRun
  · apply Stable.ifHead
    · exact Stable.map _ stable_digitRun
    · exact Stable.map _ stable_digitRun
    · exact .inl rfl
  · exact .inl rfl

/-- Numbers are the readers that look at what follows them, so they need a delimiter there. -/
theorem stable_number : Stable Delimits number := by
  apply Stable.andThen
  · exact Stable.ifHead (Stable.give _) (Stable.give _) (.inr fun h => h.head_ne (by decide))
  intro neg
  apply Stable.andThen
  · exact Stable.ifHead (Stable.give _) stable_digitRun (.inl rfl)
  intro whole
  apply Stable.andThen
  · exact Stable.ifHead stable_digitRun (Stable.give _) (.inr fun h => h.head_ne (by decide))
  intro fraction
  apply Stable.map
  apply Stable.ifHead stable_signedRun
  · exact Stable.ifHead stable_signedRun (Stable.give _) (.inr fun h => h.head_ne (by decide))
  · exact .inr fun h => h.head_ne (by decide)

variable {D : Str → Prop}

/-- Four digits are read, and it does not matter what follows. -/
theorem hex4_eq_some {s r : Str} {u : Nat} (h : hex4 s = some (u, r)) :
    ∃ a b c d, s = a :: b :: c :: d :: r ∧ ∀ t, hex4 (a :: b :: c :: d :: t) = some (u, t) := by
  match s with
  | a :: b :: c :: d :: s =>
      refine ⟨a, b, c, d, ?_⟩
      simp only [hex4] at h ⊢
      split at h
      · cases h
        simp_all
      · cases h
  | [] | [_] | [_, _] | [_, _, _] => cases h

theorem stable_hex4 : Stable D hex4 where
  suffix s u r h := by
    obtain ⟨a, b, c, d, rfl, -⟩ := hex4_eq_some h
    exact List.suffix_append [a, b, c, d] r
  append s u r t _ h := by
    obtain ⟨a, b, c, d, rfl, hu⟩ := hex4_eq_some h
    exact hu (r ++ t)

/-- An escape is read to its own end. -/
theorem stable_unicode : Stable D unicode := by
  apply Stable.andThen stable_hex4
  intro u
  split
  · apply Stable.andThen (Stable.word _ _)
    intro _
    apply Stable.andThen stable_hex4
    intro v
    split
    · exact Stable.give _
    · exact Stable.fail
  · split
    · exact Stable.fail
    · exact Stable.give _

theorem stable_escaped : Stable D escaped := by
  unfold escaped
  repeat' apply Stable.ifHead
  all_goals first
    | exact Stable.give _
    | exact stable_unicode
    | exact Stable.fail
    | exact .inl rfl

/-- A scalar value is read off its UTF-8 encoding. -/
theorem plain_encode {x : Char} {c : Byte} {w : Str} (he : String.utf8EncodeChar x = c :: w)
    (hc : ¬c < 0x20) (t : Str) : plain (c :: w ++ t) = some (x, t) := by
  have hdec : (c :: w ++ t).toByteArray.utf8DecodeChar? 0 = some x := by
    rw [← he, List.toByteArray_append]
    exact ByteArray.utf8DecodeChar?_utf8EncodeChar_append
  have hsize : x.utf8Size = (c :: w).length := by rw [← he, String.length_utf8EncodeChar]
  rw [List.cons_append] at hdec ⊢
  simp only [plain, if_neg hc, hdec, Option.map_some]
  rw [hsize, ← List.cons_append, List.drop_left]

/-- What is read is one encoded character. -/
theorem plain_eq_some {s r : Str} {x : Char} (h : plain s = some (x, r)) :
    ∃ c w, s = c :: w ++ r ∧ String.utf8EncodeChar x = c :: w ∧ ¬c < 0x20 := by
  cases s with
  | nil => cases h
  | cons c s =>
      simp only [plain] at h
      split at h
      next => cases h
      next hc =>
        obtain ⟨y, hy, hx⟩ := Option.map_eq_some_iff.mp h
        obtain ⟨rfl, rfl⟩ := Prod.mk.inj hx
        obtain ⟨l, hl⟩ := ByteArray.exists_of_utf8DecodeChar?_eq_some hy
        have hs : c :: s = String.utf8EncodeChar y ++ l.data.toList := by
          simpa using congrArg (fun b => b.data.toList) hl
        have hdrop : (c :: s).drop y.utf8Size = l.data.toList := by
          rw [hs, ← String.length_utf8EncodeChar, List.drop_left]
        obtain ⟨c', w, he⟩ : ∃ c' w, String.utf8EncodeChar y = c' :: w := by
          cases he : String.utf8EncodeChar y with
          | nil => exact absurd he (by simp)
          | cons c' w => exact ⟨c', w, rfl⟩
        rw [he, List.cons_append] at hs
        obtain ⟨rfl, rfl⟩ := List.cons.inj hs
        exact ⟨c, w, by rw [hdrop, List.cons_append], he, hc⟩

theorem stable_plain : Stable D plain where
  suffix s x r h := by
    obtain ⟨c, w, rfl, -, -⟩ := plain_eq_some h
    exact List.suffix_append (c :: w) r
  append s x r t _ h := by
    obtain ⟨c, w, rfl, he, hc⟩ := plain_eq_some h
    rw [List.append_assoc]
    exact plain_encode he hc (r ++ t)

/-- A string knows its own end. -/
theorem stable_character : Stable D character := by
  apply Stable.ifHead (Stable.give _)
  · exact Stable.ifHead (Stable.map _ stable_escaped) (Stable.map _ stable_plain) (.inl rfl)
  · exact .inl rfl

theorem stable_characters : Stable D characters := Stable.many stable_character

section Series

variable {α : Type} {item other : Reader Byte α} {close : Byte}

theorem stable_next (h : Stable Delimits item) (hi : item [] = none) :
    Stable Delimits (next item close) := by
  apply Stable.spaced
  · apply Stable.ifHead (Stable.give _)
    · exact Stable.ifHead (Stable.map _ (Stable.spaced h hi)) Stable.fail (.inl rfl)
    · exact .inl rfl
  · rfl

/-- A series ends with its bracket. -/
theorem stable_series (h : Stable Delimits item) (hi : item [] = none) :
    Stable Delimits (series item close) := by
  have hitems : Stable Delimits (andThen item fun a => map (a :: ·) (many (next item close))) :=
    Stable.andThen h fun a => Stable.map _ (Stable.many (stable_next h hi))
  have hnil : (andThen item fun a => map (a :: ·) (many (next item close))) [] = none := by
    simp [andThen, hi]
  apply Stable.spaced
  · exact Stable.ifHead (Stable.give _) hitems (.inl hnil)
  · exact hnil

theorem stable_member (h : Stable Delimits item) (hi : item [] = none) :
    Stable Delimits (member item) := by
  apply Stable.ifHead
  · apply Stable.andThen stable_characters
    intro k
    apply Stable.spaced
    · exact Stable.ifHead (Stable.map _ (Stable.spaced h hi)) Stable.fail (.inl rfl)
    · rfl
  · exact Stable.fail
  · exact .inl rfl

theorem refines_next (h : Refines item other) : Refines (next item close) (next other close) := by
  apply Refines.spaced
  apply Refines.ifHead _ (Refines.refl _)
  exact Refines.ifHead _ (Refines.map _ (Refines.spaced _ h)) (Refines.refl _)

/-- A series reads what it read with items that read more. -/
theorem refines_series (h : Refines item other) :
    Refines (series item close) (series other close) := by
  apply Refines.spaced
  apply Refines.ifHead _ (Refines.refl _)
  apply Refines.andThen h
  intro a
  exact Refines.map _ (Refines.many (refines_next h))

theorem refines_member (h : Refines item other) : Refines (member item) (member other) := by
  apply Refines.ifHead _ _ (Refines.refl _)
  apply Refines.andThen (Refines.refl _)
  intro k
  apply Refines.spaced
  exact Refines.ifHead _ (Refines.map _ (Refines.spaced _ h)) (Refines.refl _)

end Series

/-- There is no empty value. -/
theorem value_nil (d : Nat) : value d [] = none := by
  cases d <;> rfl

/-- **A value is read the same in front of any delimiter.** -/
theorem stable_value (d : Nat) : Stable Delimits (value d) := by
  induction d with
  | zero => exact Stable.fail
  | succ d ih =>
      apply Stable.ifHead
      · exact Stable.map _ (stable_series (stable_member ih (value_nil d)) rfl)
      · apply Stable.ifHead
        · exact Stable.map _ (stable_series ih (value_nil d))
        · apply Stable.ifHead (Stable.map _ stable_characters)
          · apply Stable.ifHead (Stable.word _ _)
            · apply Stable.ifHead (Stable.word _ _)
              · exact Stable.ifHead (Stable.word _ _) (Stable.map _ stable_number) (.inl rfl)
              · exact .inl rfl
            · exact .inl rfl
          · exact .inl rfl
        · exact .inl rfl
      · exact .inl rfl

theorem value_refines_succ (d : Nat) : Refines (value d) (value (d + 1)) := by
  induction d with
  | zero => intro s x h; cases h
  | succ d ih =>
      apply Refines.ifHead
      · exact Refines.map _ (refines_series (refines_member ih))
      · apply Refines.ifHead
        · exact Refines.map _ (refines_series ih)
        · exact Refines.refl _

/-- Deeper readers read what the others read. -/
theorem value_refines {d e : Nat} (h : d ≤ e) : Refines (value d) (value e) := by
  induction h with
  | refl => exact Refines.refl _
  | step _ ih => exact ih.trans (value_refines_succ _)

end Json

end XeusCpp.Text
