/-
# XeusCpp.Text.Regex — ECMAScript regular expressions, by backtracking.

`exec r k c` matches `r` at the cursor `c` and hands the cursor behind it to the continuation `k`;
when `k` fails, the next way of matching is tried, in the order ECMAScript prescribes: the left
alternative first, one more repetition before stopping. A repetition that consumes nothing fails, so
a star needs no more rounds than there are letters left. `^` matches at the beginning of the text
only, `$` at its end only.

`search` is the leftmost match. A greedy run of a character class is settled by two rules: the
continuation at the end of the run is taken when it succeeds (`exec_star_set_longest`), and a run
fails when every place in it fails (`exec_star_set_none`).
-/
import XeusCpp.Text.Bytes

namespace XeusCpp.Text

/-- Groups are numbered as the parentheses open. -/
inductive Regex
  | empty
  | set (p : Byte → Bool)
  | bos
  | eos
  | seq (a b : Regex)
  | alt (a b : Regex)
  | star (a : Regex)
  | group (i : Nat) (a : Regex)

namespace Regex

/-- A place in the text, with the groups captured so far, the last one first. -/
structure Cursor where
  pos : Nat
  rest : Str
  caps : List (Nat × Str)

namespace Cursor

def advance (c : Cursor) (n : Nat) : Cursor := { c with pos := c.pos + n, rest := c.rest.drop n }

/-- The text between two cursors. -/
def upTo (c d : Cursor) : Str := c.rest.take (d.pos - c.pos)

def capture (c : Cursor) (i : Nat) (s : Str) : Cursor := { c with caps := (i, s) :: c.caps }

@[simp] theorem advance_rest (c : Cursor) (n : Nat) : (c.advance n).rest = c.rest.drop n := rfl

@[simp] theorem capture_rest (c : Cursor) (i : Nat) (s : Str) : (c.capture i s).rest = c.rest := rfl

@[simp] theorem upTo_advance (c : Cursor) (n : Nat) : c.upTo (c.advance n) = c.rest.take n := by
  simp [upTo, advance]

theorem advance_zero (c : Cursor) : c.advance 0 = c := rfl

theorem advance_advance (c : Cursor) (m n : Nat) :
    (c.advance m).advance n = c.advance (m + n) := by
  simp [advance, Nat.add_assoc, Nat.add_comm m n]

end Cursor

variable {α : Type}

/-- At most `n` repetitions, each of which consumes something. -/
def repeated (step : (Cursor → Option α) → Cursor → Option α) (k : Cursor → Option α) :
    Nat → Cursor → Option α
  | 0, c => k c
  | n + 1, c =>
      (step (fun d => if d.rest.length < c.rest.length then repeated step k n d else none) c).orElse
        fun _ => k c

/-- The first way of matching `r` at the cursor behind which `k` succeeds. -/
def exec : Regex → (Cursor → Option α) → Cursor → Option α
  | empty, k, c => k c
  | set p, k, c =>
      match c.rest with
      | [] => none
      | x :: _ => if p x then k (c.advance 1) else none
  | bos, k, c => if c.pos = 0 then k c else none
  | eos, k, c => if c.rest = [] then k c else none
  | seq a b, k, c => a.exec (b.exec k) c
  | alt a b, k, c => (a.exec k c).orElse fun _ => b.exec k c
  | star a, k, c => repeated a.exec k c.rest.length c
  | group i a, k, c => a.exec (fun d => k (d.capture i (c.upTo d))) c

/-! ## Derived forms -/

def char (x : Byte) : Regex := set fun c => c == x

def plus (a : Regex) : Regex := seq a (star a)

def opt (a : Regex) : Regex := alt a empty

def isDot (c : Byte) : Bool := c != '\n' && c != '\r'

theorem eq_feed_or_return {y : Byte} (h : isDot y = false) : y = '\n' ∨ y = '\r' := by
  by_contra hne
  simp [isDot, not_or.mp hne] at h

/-- `.` -/
def dot : Regex := set isDot

/-- `\s` -/
def space : Regex := set isspace

def isWord (c : Byte) : Bool := isalpha c || isdigit c || c == '_'

/-- `\w` -/
def word : Regex := set isWord

/-! ## Searching -/

/-- `std::smatch`: where the match starts, its text, and its groups. -/
structure Match where
  start : Nat
  text : Str
  caps : List (Nat × Str)
deriving DecidableEq

/-- `match.str(i)`: the last capture of the group, empty when there is none. -/
def Match.str (m : Match) (i : Nat) : Str :=
  match m.caps.find? fun x => x.1 == i with
  | some x => x.2
  | none => []

/-- The match a successful cursor stands for. -/
def Cursor.toMatch (c d : Cursor) : Match := ⟨c.pos, c.upTo d, d.caps⟩

def matchAt (r : Regex) (pos : Nat) (s : Str) : Option Match :=
  let c : Cursor := ⟨pos, s, []⟩
  r.exec (fun d => some (c.toMatch d)) c

/-- The leftmost match from `pos` on, `s` being the text from there. -/
def searchFrom (r : Regex) : Nat → Str → Option Match
  | pos, [] => matchAt r pos []
  | pos, x :: s => (matchAt r pos (x :: s)).orElse fun _ => searchFrom r (pos + 1) s

/-- `std::regex_search` -/
def search (r : Regex) (s : Str) : Option Match := searchFrom r 0 s

/-- `std::regex_match` -/
def fullMatch (r : Regex) (s : Str) : Option Match := matchAt (seq r eos) 0 s

/-! ## Rules -/

section Rules

variable {k : Cursor → Option α} {c : Cursor} {p : Byte → Bool}

theorem exec_seq (a b : Regex) (k : Cursor → Option α) (c : Cursor) :
    (seq a b).exec k c = a.exec (b.exec k) c := rfl

theorem exec_set_of_pos {x : Byte} {s : Str} (hc : c.rest = x :: s) (hx : p x = true) :
    (set p).exec k c = k (c.advance 1) := by
  rw [exec, hc]
  exact if_pos hx

theorem exec_set_of_neg (h : ∀ x ∈ c.rest.head?, p x = false) : (set p).exec k c = none := by
  rw [exec]
  cases hc : c.rest with
  | nil => rfl
  | cons x s =>
      rw [hc] at h
      exact if_neg (by simp [h x rfl])

theorem exec_set_eq_none (h : k (c.advance 1) = none) : (set p).exec k c = none := by
  rw [exec]
  split
  · rfl
  · split
    · exact h
    · rfl

theorem exec_char {x : Byte} {s : Str} (hc : c.rest = x :: s) :
    (char x).exec k c = k (c.advance 1) :=
  exec_set_of_pos hc (by simp)

theorem exec_char_none {x : Byte} (h : c.rest.head? ≠ some x) : (char x).exec k c = none := by
  apply exec_set_of_neg
  intro y hy
  have hne : y ≠ x := fun he => h (he ▸ hy)
  simpa using hne

theorem findSome?_range_succ (f : Nat → Option α) (n : Nat) :
    (List.range (n + 1)).reverse.findSome? f =
      ((List.range n).reverse.findSome? fun i => f (i + 1)).or (f 0) := by
  rw [List.range_succ_eq_map, List.reverse_cons, List.findSome?_append, ← List.map_reverse,
    List.findSome?_map]
  simp only [List.findSome?_cons, List.findSome?_nil]
  cases f 0 <;> rfl

/-- The greedy run of a class tries every place in it, the last one first. -/
theorem exec_star_set (p : Byte → Bool) (k : Cursor → Option α) (c : Cursor) :
    (star (set p)).exec k c =
      ((List.range ((c.rest.takeWhile p).length + 1)).reverse).findSome? fun i => k (c.advance i) := by
  -- the fuel is the number of letters left; any more of it is never used
  have go : ∀ n, ∀ c : Cursor, c.rest.length ≤ n → repeated (exec (set p)) k n c =
      ((List.range ((c.rest.takeWhile p).length + 1)).reverse).findSome?
        fun i => k (c.advance i) := by
    intro n
    induction n with
    | zero =>
        intro c hc
        have hnil : c.rest = [] := List.length_eq_zero_iff.mp (by omega)
        simp [repeated, hnil, Cursor.advance_zero]
    | succ n ih =>
        intro c hc
        cases hr : c.rest with
        | nil =>
            simp [repeated, exec_set_of_neg (k := _) (c := c) (by simp [hr]), Cursor.advance_zero]
        | cons x s =>
            have hadv : (c.advance 1).rest = s := by simp [hr]
            have hlen : s.length < (x :: s).length := by simp
            rw [repeated]
            by_cases hx : p x = true
            · have hle : (c.advance 1).rest.length ≤ n := by
                rw [hadv]
                rw [hr] at hc
                simp only [List.length_cons] at hc
                omega
              have hshift : ∀ i, (c.advance 1).advance i = c.advance (i + 1) := fun i => by
                rw [Cursor.advance_advance, Nat.add_comm]
              rw [exec_set_of_pos hr hx, hadv, hr, if_pos hlen, ih _ hle, hadv,
                List.takeWhile_cons_of_pos hx, List.length_cons, findSome?_range_succ _ (_ + 1),
                Cursor.advance_zero]
              simp only [hshift]
              exact Option.or_eq_orElse.symm
            · rw [exec_set_of_neg (by simpa [hr] using hx), List.takeWhile_cons_of_neg hx]
              simp [Cursor.advance_zero]
  exact go _ c (Nat.le_refl _)

/-- The longest run, when the continuation accepts it. -/
theorem exec_star_set_longest {a : α}
    (h : k (c.advance (c.rest.takeWhile p).length) = some a) :
    (star (set p)).exec k c = some a := by
  rw [exec_star_set, List.range_succ, List.reverse_append]
  simp [h]

theorem exec_star_set_none (h : ∀ i ≤ (c.rest.takeWhile p).length, k (c.advance i) = none) :
    (star (set p)).exec k c = none := by
  rw [exec_star_set, List.findSome?_eq_none_iff]
  intro i hi
  apply h
  have := List.mem_range.mp (List.mem_reverse.mp hi)
  omega

theorem exec_plus_set_longest {x : Byte} {s : Str} (hc : c.rest = x :: s) (hx : p x = true) {a : α}
    (h : k (c.advance (c.rest.takeWhile p).length) = some a) : (plus (set p)).exec k c = some a := by
  rw [plus, exec_seq, exec_set_of_pos hc hx]
  apply exec_star_set_longest
  rw [Cursor.advance_advance, Cursor.advance_rest, hc, List.drop_one, List.tail_cons]
  rw [hc, List.takeWhile_cons_of_pos hx, List.length_cons, Nat.add_comm] at h
  exact h

/-- Nothing matches when the continuation accepts no cursor. -/
theorem exec_reject (a : Regex) (c : Cursor) : a.exec (fun _ => (none : Option α)) c = none := by
  induction a generalizing c with
  | empty => rfl
  | set p => exact exec_set_eq_none rfl
  | bos => rw [exec]; split <;> rfl
  | eos => rw [exec]; split <;> rfl
  | seq a b iha ihb =>
      rw [exec_seq, show b.exec (fun _ => (none : Option α)) = fun _ => none from funext ihb]
      exact iha c
  | alt a b iha ihb =>
      rw [exec, iha, ihb]
      rfl
  | group i a ih => exact ih c
  | star a ih =>
      -- a round leads into another one or into `k`, and both refuse
      have hrep : ∀ n c, repeated a.exec (fun _ => (none : Option α)) n c = none := by
        intro n
        induction n with
        | zero => exact fun _ => rfl
        | succ n ihn =>
            intro c
            have hk : (fun d : Cursor => if d.rest.length < c.rest.length then
                repeated a.exec (fun _ => (none : Option α)) n d else none) = fun _ => none := by
              funext d
              split
              · exact ihn d
              · rfl
            rw [repeated, hk, ih]
            rfl
      exact hrep _ c

/-- Rounds beyond the letters left change nothing. -/
theorem repeated_fuel (a : Regex) (k : Cursor → Option α) {n m : Nat} {c : Cursor}
    (hn : c.rest.length ≤ n) (hm : c.rest.length ≤ m) :
    repeated a.exec k n c = repeated a.exec k m c := by
  -- with no letter left a round cannot consume anything
  have hzero : ∀ m, ∀ c : Cursor, c.rest.length = 0 → repeated a.exec k m c = k c := by
    intro m c hc
    cases m with
    | zero => rfl
    | succ m =>
        have hk : (fun d : Cursor => if d.rest.length < c.rest.length then
            repeated a.exec k m d else none) = fun _ => none := by
          funext d
          rw [if_neg (by omega)]
        rw [repeated, hk, exec_reject]
        rfl
  induction n generalizing m c with
  | zero => rw [hzero _ c (by omega), hzero _ c (by omega)]
  | succ n ih =>
      cases m with
      | zero => rw [hzero _ c (by omega), hzero _ c (by omega)]
      | succ m =>
          have hk : (fun d : Cursor => if d.rest.length < c.rest.length then
              repeated a.exec k n d else none) = fun d =>
                if d.rest.length < c.rest.length then repeated a.exec k m d else none := by
            funext d
            split
            · exact ih (by omega) (by omega)
            · rfl
          rw [repeated, repeated, hk]

/-- A star is one more repetition that consumes something, or the end of the repetitions. -/
theorem exec_star (a : Regex) (k : Cursor → Option α) (c : Cursor) :
    (star a).exec k c = (a.exec (fun d =>
      if d.rest.length < c.rest.length then (star a).exec k d else none) c).orElse fun _ => k c := by
  have hfuel : (star a).exec k c = repeated a.exec k (c.rest.length + 1) c :=
    repeated_fuel a k (Nat.le_refl _) (Nat.le_succ _)
  rw [hfuel, repeated]
  have hk : (fun d : Cursor => if d.rest.length < c.rest.length then
      repeated a.exec k c.rest.length d else none) = fun d =>
        if d.rest.length < c.rest.length then (star a).exec k d else none := by
    funext d
    split
    · exact repeated_fuel a k (by omega) (Nat.le_refl _)
    · rfl
  rw [hk]

theorem exec_alt_left {a b : Regex} {x : α} (h : a.exec k c = some x) :
    (alt a b).exec k c = some x := by
  rw [exec, h]
  rfl

theorem exec_alt_right {a b : Regex} (h : a.exec k c = none) :
    (alt a b).exec k c = b.exec k c := by
  rw [exec, h]
  rfl

theorem exec_group (i : Nat) (a : Regex) (k : Cursor → Option α) (c : Cursor) :
    (group i a).exec k c = a.exec (fun d => k (d.capture i (c.upTo d))) c := rfl

/-! ## Lines -/

/-- `(?:.*\n?)*` -/
def lines : Regex := star (seq (star dot) (opt (char '\n')))

/-- The text up to the first carriage return. -/
def beforeReturn (s : Str) : Str := s.takeWhile (· != '\r')

theorem beforeReturn_of_not_mem {s : Str} (h : (('\r' : Char) : Byte) ∉ s) : beforeReturn s = s := by
  apply List.takeWhile_eq_self_iff.mpr
  intro x hx
  have hne : x ≠ (('\r' : Char) : Byte) := fun he => h (he ▸ hx)
  simpa using hne

/-- Dropping letters of the prefix leaves the rest of the prefix. -/
theorem beforeReturn_drop {s : Str} {j : Nat} (h : j ≤ (beforeReturn s).length) :
    (beforeReturn (s.drop j)).length = (beforeReturn s).length - j := by
  induction s generalizing j with
  | nil => simp [beforeReturn]
  | cons x s ih =>
      cases j with
      | zero => rfl
      | succ j =>
          by_cases hx : (x != (('\r' : Char) : Byte)) = true
          · have hcons : beforeReturn (x :: s) = x :: beforeReturn s :=
              List.takeWhile_cons_of_pos hx
            rw [hcons, List.length_cons] at h ⊢
            rw [List.drop_succ_cons, ih (by omega)]
            omega
          · have hnil : beforeReturn (x :: s) = [] := List.takeWhile_cons_of_neg hx
            rw [hnil] at h
            exact absurd h (by simp)

/-- The text up to the carriage return starts with the rest of the line. -/
theorem beforeReturn_line (s : Str) :
    beforeReturn s = s.takeWhile isDot ++ beforeReturn (s.dropWhile isDot) := by
  conv_lhs => rw [← List.takeWhile_append_dropWhile (p := isDot) (l := s)]
  apply List.takeWhile_append_of_pos
  intro y hy
  have hdot := List.mem_takeWhile_imp hy
  simp only [isDot, Bool.and_eq_true] at hdot
  exact hdot.2

/-- A line ends at its line feed, or at the carriage return, or with the text. -/
theorem beforeReturn_dropWhile {s : Str}
    (h : (s.dropWhile isDot).head? ≠ some (('\n' : Char) : Byte)) :
    beforeReturn (s.dropWhile isDot) = [] := by
  apply takeWhile_of_head
  intro y hy
  have hdot := List.head?_dropWhile_not isDot s
  rw [hy] at hdot
  rcases eq_feed_or_return (by simpa using hdot) with rfl | rfl
  · exact absurd hy h
  · decide

/-- In front of a carriage return, or of nothing, a line consumes nothing. -/
theorem exec_line_none (g : Cursor → Option α) (hnil : beforeReturn c.rest = []) :
    (seq (star dot) (opt (char '\n'))).exec
      (fun d => if d.rest.length < c.rest.length then g d else none) c = none := by
  have hhead : ∀ y ∈ c.rest.head?, y = (('\r' : Char) : Byte) := by
    intro y hy
    by_contra hne
    obtain ⟨s, hs⟩ := List.head?_eq_some_iff.mp hy
    rw [hs, beforeReturn, List.takeWhile_cons_of_pos (by simpa using hne)] at hnil
    cases hnil
  have hdots : c.rest.takeWhile isDot = [] := by
    apply takeWhile_of_head
    intro y hy
    rw [hhead y hy]
    decide
  have hfeed : c.rest.head? ≠ some (('\n' : Char) : Byte) := by
    intro hy
    exact absurd (hhead _ hy) (by decide)
  rw [exec_seq]
  apply exec_star_set_none
  intro i hi
  rw [hdots] at hi
  rw [Nat.le_zero.mp hi, Cursor.advance_zero, opt, exec_alt_right (exec_char_none hfeed)]
  exact if_neg (Nat.lt_irrefl _)

/-- The rest of a line is taken, and its line feed where there is one. -/
theorem exec_line {g : Cursor → Option α} {x : α} (hne : beforeReturn c.rest ≠ [])
    (hg : ∀ j, 0 < j → j ≤ (beforeReturn c.rest).length → g (c.advance j) = some x) :
    (seq (star dot) (opt (char '\n'))).exec g c = some x := by
  have hlen := congrArg List.length (beforeReturn_line c.rest)
  rw [List.length_append] at hlen
  have hpos : 0 < (beforeReturn c.rest).length := List.length_pos_iff.mpr hne
  have hdrop : (c.advance (c.rest.takeWhile isDot).length).rest = c.rest.dropWhile isDot :=
    drop_takeWhile_length c.rest
  rw [exec_seq]
  apply exec_star_set_longest
  by_cases hfeed : (c.rest.dropWhile isDot).head? = some (('\n' : Char) : Byte)
  · obtain ⟨s, hs⟩ := List.head?_eq_some_iff.mp hfeed
    have hone : 1 ≤ (beforeReturn (c.rest.dropWhile isDot)).length := by
      rw [hs, beforeReturn, List.takeWhile_cons_of_pos (by decide), List.length_cons]
      omega
    apply exec_alt_left
    rw [exec_char (hdrop.trans hs), Cursor.advance_advance]
    exact hg _ (by omega) (by omega)
  · rw [beforeReturn_dropWhile hfeed, List.length_nil] at hlen
    rw [opt, exec_alt_right (exec_char_none (by rwa [hdrop]))]
    exact hg _ (by omega) (by omega)

/-- Lines go on to the first carriage return, which nothing in a line matches. -/
theorem exec_lines {x : α} (h : k (c.advance (beforeReturn c.rest).length) = some x) :
    lines.exec k c = some x := by
  induction hn : c.rest.length using Nat.strongRecOn generalizing c with
  | ind n ih =>
      subst hn
      rw [lines, exec_star]
      by_cases hnil : beforeReturn c.rest = []
      · rw [exec_line_none _ hnil]
        rw [hnil] at h
        exact h
      · have hline : (seq (star dot) (opt (char '\n'))).exec (fun d =>
            if d.rest.length < c.rest.length then lines.exec k d else none) c = some x := by
          apply exec_line hnil
          intro j hj hle
          have hprefix : (beforeReturn c.rest).length ≤ c.rest.length :=
            (List.takeWhile_sublist _).length_le
          have hlt : (c.advance j).rest.length < c.rest.length := by
            rw [Cursor.advance_rest, List.length_drop]
            omega
          rw [if_pos hlt]
          -- behind a line the text up to the carriage return is what is left of it
          apply ih _ hlt _ rfl
          rw [Cursor.advance_advance, Cursor.advance_rest, beforeReturn_drop hle,
            Nat.add_sub_cancel' hle]
          exact h
        rw [← lines, hline]
        rfl

/-! ## Anchored patterns -/

theorem matchAt_bos_ne {r : Regex} {pos : Nat} (hpos : pos ≠ 0) (s : Str) :
    matchAt (seq bos r) pos s = none :=
  if_neg hpos

theorem searchFrom_bos_ne {r : Regex} {pos : Nat} (hpos : pos ≠ 0) (s : Str) :
    searchFrom (seq bos r) pos s = none := by
  induction s generalizing pos with
  | nil => exact matchAt_bos_ne hpos []
  | cons x s ih =>
      rw [searchFrom, matchAt_bos_ne hpos, ih (Nat.succ_ne_zero pos)]
      rfl

/-- A pattern that begins with `^` is matched at the beginning or nowhere. -/
theorem search_bos (r : Regex) (s : Str) : search (seq bos r) s = matchAt r 0 s := by
  have hbos : matchAt (seq bos r) 0 s = matchAt r 0 s := rfl
  cases s with
  | nil => exact hbos
  | cons x s =>
      rw [search, searchFrom, hbos, searchFrom_bos_ne (Nat.succ_ne_zero 0)]
      cases matchAt r 0 (x :: s) <;> rfl

end Rules

end Regex

end XeusCpp.Text
