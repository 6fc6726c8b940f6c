/-
# XeusCpp.Text.Bytes — byte strings and the C character classes.

A `std::string` is a list of 8-bit code units, so texts are `List UInt8`. Character constants are
written as in C++: a `Char` literal coerces to its code unit. The classification functions are those
of `<cctype>` in the "C" locale, on the unsigned value of the byte; every code unit from 128 on is in
none of the classes.

The second half is the longest-run calculus for `List.takeWhile` / `List.dropWhile` that a
hand-written scanner needs: a run ends where the predicate fails, and text behind such a place does
not change it.
-/
import Mathlib.Data.FinEnum
import Mathlib.Data.List.TakeWhile
import Mathlib.Tactic.Common

namespace XeusCpp.Text

/-- A `char`, by its unsigned value. -/
abbrev Byte := UInt8

/-- A `std::string`. -/
abbrev Str := List Byte

instance : Coe Char Byte := ⟨Char.toUInt8⟩

/-- The code units of an ASCII literal. -/
def lit (s : String) : Str := s.toList.map Char.toUInt8

/-- What `c_str()` passes on. -/
def cStr (s : Str) : Str := s.takeWhile (· != 0)

/-! ## `<cctype>` in the "C" locale -/

def isalpha (c : Byte) : Bool := ('A' ≤ c && c ≤ 'Z') || ('a' ≤ c && c ≤ 'z')

def isdigit (c : Byte) : Bool := '0' ≤ c && c ≤ '9'

/-- Blank, `\t`, `\n`, `\v`, `\f`, `\r`. -/
def isspace (c : Byte) : Bool := c == ' ' || (9 ≤ c && c ≤ 13)

/-! ## Words -/

/-- The words of a line, as `std::istream_iterator<std::string>` reads them. -/
def tokens (line : Str) : List Str := (line.splitOnP isspace).filter fun t => !t.isEmpty

/-- A word: white space neither surrounds it nor is in it. -/
def IsToken (t : Str) : Prop := t ≠ [] ∧ ∀ c ∈ t, isspace c = false

instance (t : Str) : Decidable (IsToken t) :=
  decidable_of_iff (t ≠ [] ∧ (t.all fun c => !isspace c) = true) (by simp [IsToken])

theorem tokens_of_isToken {t : Str} (h : IsToken t) : tokens t = [t] := by
  rw [tokens, List.splitOnP_eq_singleton h.2, List.filter_cons_of_pos (by simpa using h.1)]
  rfl

/-- White space ends a word, and the words behind it are those of the rest. -/
theorem tokens_append_space {t rest : Str} {x : Byte} (h : IsToken t) (hx : isspace x = true) :
    tokens (t ++ x :: rest) = t :: tokens rest := by
  rw [tokens, List.splitOnP_append_cons_of_forall_mem h.2 x hx,
    List.filter_cons_of_pos (by simpa using h.1)]
  rfl

theorem cStr_of_not_mem {s : Str} (h : (0 : Byte) ∉ s) : cStr s = s := by
  apply List.takeWhile_eq_self_iff.mpr
  intro c hc
  have hne : c ≠ 0 := fun he => h (he ▸ hc)
  simpa using hne

theorem cStr_eq_self_iff {s : Str} : cStr s = s ↔ (0 : Byte) ∉ s := by
  constructor
  · intro h hmem
    have := List.mem_takeWhile_imp (h.symm ▸ hmem : (0 : Byte) ∈ cStr s)
    simp at this
  · exact cStr_of_not_mem

/-! ## Longest runs -/

section Runs

variable {α : Type*} {p : α → Bool}

/-- A run that ends inside `xs` is not changed by what follows `xs`. -/
theorem dropWhile_append_of_ne {xs ys : List α} (h : xs.dropWhile p ≠ []) :
    (xs ++ ys).dropWhile p = xs.dropWhile p ++ ys := by
  induction xs with
  | nil => exact absurd rfl h
  | cons x xs ih =>
      by_cases hx : p x = true
      · rw [List.dropWhile_cons_of_pos hx] at h
        rw [List.cons_append, List.dropWhile_cons_of_pos hx, List.dropWhile_cons_of_pos hx, ih h]
      · rw [List.cons_append, List.dropWhile_cons_of_neg hx, List.dropWhile_cons_of_neg hx,
          List.cons_append]

theorem takeWhile_append_of_ne {xs ys : List α} (h : xs.dropWhile p ≠ []) :
    (xs ++ ys).takeWhile p = xs.takeWhile p := by
  induction xs with
  | nil => exact absurd rfl h
  | cons x xs ih =>
      by_cases hx : p x = true
      · rw [List.dropWhile_cons_of_pos hx] at h
        rw [List.cons_append, List.takeWhile_cons_of_pos hx, List.takeWhile_cons_of_pos hx, ih h]
      · rw [List.cons_append, List.takeWhile_cons_of_neg hx, List.takeWhile_cons_of_neg hx]

theorem drop_takeWhile_length (xs : List α) : xs.drop (xs.takeWhile p).length = xs.dropWhile p := by
  have h : (xs.takeWhile p ++ xs.dropWhile p).drop (xs.takeWhile p).length = xs.dropWhile p :=
    List.drop_left
  rwa [List.takeWhile_append_dropWhile] at h

theorem take_takeWhile_length (xs : List α) : xs.take (xs.takeWhile p).length = xs.takeWhile p :=
  (List.prefix_iff_eq_take.mp (List.takeWhile_prefix p)).symm

/-- What fails `p` is behind the first run. -/
theorem mem_dropWhile_of_mem {xs : List α} {x : α} (h : x ∈ xs) (hx : p x = false) :
    x ∈ xs.dropWhile p := by
  rw [← List.takeWhile_append_dropWhile (p := p) (l := xs)] at h
  rcases List.mem_append.mp h with h | h
  · rw [List.mem_takeWhile_imp h] at hx
    exact absurd hx (by decide)
  · exact h

/-- The run of `ys` is empty when its first element fails `p`. -/
theorem dropWhile_of_head {ys : List α} (h : ∀ y ∈ ys.head?, p y = false) :
    ys.dropWhile p = ys := by
  cases ys with
  | nil => rfl
  | cons y ys => exact List.dropWhile_cons_of_neg (by simp [h y (by simp)])

theorem takeWhile_of_head {ys : List α} (h : ∀ y ∈ ys.head?, p y = false) :
    ys.takeWhile p = [] := by
  cases ys with
  | nil => rfl
  | cons y ys => exact List.takeWhile_cons_of_neg (by simp [h y (by simp)])

/-- A run does not go on into a word whose first element fails `p`. -/
theorem dropWhile_append_of_delim {xs ys : List α} (h : ∀ y ∈ ys.head?, p y = false) :
    (xs ++ ys).dropWhile p = xs.dropWhile p ++ ys := by
  by_cases hne : xs.dropWhile p = []
  · rw [List.dropWhile_append, hne, dropWhile_of_head h]
    rfl
  · exact dropWhile_append_of_ne hne

theorem takeWhile_append_of_delim {xs ys : List α} (h : ∀ y ∈ ys.head?, p y = false) :
    (xs ++ ys).takeWhile p = xs.takeWhile p := by
  by_cases hne : xs.dropWhile p = []
  · have hall : xs.takeWhile p = xs := by
      have := List.takeWhile_append_dropWhile (p := p) (l := xs)
      rwa [hne, List.append_nil] at this
    rw [List.takeWhile_append, hall, if_pos rfl, takeWhile_of_head h, List.append_nil]
  · exact takeWhile_append_of_ne hne

/-- A suffix that is not empty ends as the whole does. -/
theorem mem_getLast?_of_suffix {xs ys : List α} (h : xs <:+ ys) {x : α} (hx : x ∈ xs.getLast?) :
    x ∈ ys.getLast? := by
  rcases h with ⟨zs, rfl⟩
  have hx' : xs.getLast? = some x := hx
  show (zs ++ xs).getLast? = some x
  rw [List.getLast?_append, hx']
  rfl

end Runs

end XeusCpp.Text
