/-
# XeusCpp.Text.Dump — printing JSON.

`dump` prints a value compactly: characters below U+0020, quotes and backslashes are escaped, every
other character is written in UTF-8. `parse_dump` reads the print back, for every value.
-/
import Mathlib.Data.Nat.Digits.Lemmas
import XeusCpp.Text.Denotes

namespace XeusCpp.Text

namespace Json

open Reader

/-! ## Numbers -/

/-- The digit of a number below ten. -/
def digitByte (d : Nat) : Byte := (48 + d).toUInt8

/-- The decimal digits of `n`, without leading zeros. -/
def dumpNat (n : Nat) : Str :=
  if n = 0 then lit "0" else (Nat.digits 10 n).reverse.map digitByte

/-- An exponent, with its sign if it is negative. -/
def dumpInt : Int → Str
  | .ofNat n => dumpNat n
  | .negSucc n => lit "-" ++ dumpNat (n + 1)

/-- A number as it is printed: all its digits, and the power of ten behind them unless that is one. -/
def dumpNumber (n : Decimal) : Str :=
  (if n.negative then lit "-" else []) ++ (dumpNat n.digits ++
    if n.exponent = 0 then [] else lit "e" ++ dumpInt n.exponent)

theorem isdigit_digitByte : ∀ d < 10, isdigit (digitByte d) = true := by decide

/-- A digit is read back as its number. -/
theorem digitByte_toNat : ∀ d < 10, (digitByte d).toNat - 48 = d := by decide

theorem isdigit_zero : ∀ c ∈ lit "0", isdigit c = true := by decide +kernel

/-- Digits are all there is in a printed number. -/
theorem isdigit_of_mem_dumpNat {n : Nat} : ∀ c ∈ dumpNat n, isdigit c = true := by
  intro c hc
  unfold dumpNat at hc
  split at hc
  · exact isdigit_zero c hc
  · obtain ⟨d, hd, rfl⟩ := List.mem_map.mp hc
    exact isdigit_digitByte d (Nat.digits_lt_base (by decide) (List.mem_reverse.mp hd))

theorem dumpNat_ne_nil (n : Nat) : dumpNat n ≠ [] := by
  unfold dumpNat
  split
  · decide
  · simpa [Nat.digits_eq_nil_iff_eq_zero] using ‹¬n = 0›

/-- The digits of a number have its value. -/
theorem digitsValue_dumpNat (n : Nat) : digitsValue (dumpNat n) = n := by
  unfold dumpNat
  split
  next h => rw [h]; decide
  next =>
    have hmap : (Nat.digits 10 n).map ((fun c : Byte => c.toNat - 48) ∘ digitByte) =
        Nat.digits 10 n := by
      conv_rhs => rw [← List.map_id (Nat.digits 10 n)]
      apply List.map_congr_left
      intro d hd
      exact digitByte_toNat d (Nat.digits_lt_base (by decide) hd)
    rw [digitsValue, ← List.map_reverse, List.reverse_reverse, List.map_map, hmap,
      Nat.ofDigits_digits]

/-- They are read up to the end, where no digit follows. -/
theorem digitRun_dumpNat (n : Nat) {t : Str} (ht : ∀ c ∈ t.head?, isdigit c = false) :
    digitRun (dumpNat n ++ t) = some (dumpNat n, t) := by
  have htake : (dumpNat n).takeWhile isdigit = dumpNat n :=
    List.takeWhile_eq_self_iff.mpr isdigit_of_mem_dumpNat
  have hdrop : (dumpNat n).dropWhile isdigit = [] :=
    List.dropWhile_eq_nil_iff.mpr isdigit_of_mem_dumpNat
  rw [digitRun, takeWhile_append_of_delim ht, dropWhile_append_of_delim ht, htake, hdrop,
    if_neg (dumpNat_ne_nil n), List.nil_append]

/-- No leading zero is printed. -/
theorem head_dumpNat_ne_zero {n : Nat} (h : n ≠ 0) :
    (dumpNat n).head? ≠ some (('0' : Char) : Byte) := by
  have hne : Nat.digits 10 n ≠ [] := Nat.digits_ne_nil_iff_ne_zero.mpr h
  have hlast : ∀ d < 10, d ≠ 0 → digitByte d ≠ (('0' : Char) : Byte) := by decide
  rw [dumpNat, if_neg h, List.head?_map, List.head?_reverse, List.getLast?_eq_getLast_of_ne_nil hne]
  intro he
  refine hlast _ ?_ (Nat.getLast_digit_ne_zero 10 h) (by simpa using he)
  exact Nat.digits_lt_base (by decide) (List.getLast_mem hne)

/-- So the reader, which takes a zero at the front by itself, reads them all. -/
theorem whole_dumpNat (n : Nat) {t : Str} (ht : ∀ c ∈ t.head?, isdigit c = false) :
    ifHead (('0' : Char) : Byte) (give (lit "0")) digitRun (dumpNat n ++ t) = some (dumpNat n, t) := by
  by_cases h : n = 0
  · subst h
    rfl
  · rw [ifHead_of_ne, digitRun_dumpNat n ht]
    rw [List.head?_append_of_ne_nil _ (dumpNat_ne_nil n)]
    exact head_dumpNat_ne_zero h

/-- A sign is not taken for one of them. -/
theorem head_dumpNat (n : Nat) (t : Str) {c : Byte} (hc : isdigit c = false) :
    (dumpNat n ++ t).head? ≠ some c := by
  rw [List.head?_append_of_ne_nil _ (dumpNat_ne_nil n)]
  intro h
  rw [isdigit_of_mem_dumpNat c (List.mem_of_mem_head? h)] at hc
  cases hc

/-- An exponent is read back. -/
theorem signedRun_dumpInt (e : Int) {t : Str} (ht : ∀ c ∈ t.head?, isdigit c = false) :
    signedRun (dumpInt e ++ t) = some (e, t) := by
  cases e with
  | ofNat n =>
      show signedRun (dumpNat n ++ t) = _
      rw [signedRun, ifHead_of_ne _ _ (head_dumpNat n t (by decide)),
        ifHead_of_ne _ _ (head_dumpNat n t (by decide)), map_of_eq _ (digitRun_dumpNat n ht),
        digitsValue_dumpNat]
      rfl
  | negSucc n =>
      show signedRun (('-' : Char).toUInt8 :: (dumpNat (n + 1) ++ t)) = _
      rw [signedRun, ifHead_cons_self, map_of_eq _ (digitRun_dumpNat (n + 1) ht),
        digitsValue_dumpNat]
      rfl

/-- **A printed number is read back** in front of a delimiter. -/
theorem number_dumpNumber (n : Decimal) {t : Str} (ht : Delimits t) :
    number (dumpNumber n ++ t) = some (n, t) := by
  obtain ⟨neg, digits, e⟩ := n
  -- the exponent part, or its absence, ends the run of digits
  have hexp : ∃ u, (if e = 0 then [] else lit "e" ++ dumpInt e) ++ t = u ∧
      (∀ c ∈ u.head?, isdigit c = false) ∧ u.head? ≠ some (('.' : Char) : Byte) ∧
      ifHead (('e' : Char) : Byte) signedRun (ifHead (('E' : Char) : Byte) signedRun (give 0)) u = some (e, t) := by
    refine ⟨_, rfl, ?_⟩
    split
    next h =>
      subst h
      refine ⟨ht.not_digit, ht.head_ne (by decide), ?_⟩
      rw [List.nil_append, ifHead_of_ne _ _ (ht.head_ne (by decide)),
        ifHead_of_ne _ _ (ht.head_ne (by decide))]
      rfl
    next h =>
      refine ⟨?_, ?_, ?_⟩
      · intro c hc
        cases hc
        decide
      · intro h
        exact absurd (Option.some.inj h) (by decide)
      · show ifHead _ _ _ (('e' : Char).toUInt8 :: (dumpInt e ++ t)) = _
        rw [ifHead_cons_self, signedRun_dumpInt e ht.not_digit]
  obtain ⟨u, hu, hdigit, hdot, hread⟩ := hexp
  have hsign : ifHead (('-' : Char) : Byte) (give true) (give false) (dumpNumber ⟨neg, digits, e⟩ ++ t) =
      some (neg, dumpNat digits ++ u) := by
    simp only [dumpNumber, List.append_assoc, hu]
    cases neg with
    | true => exact ifHead_cons_self _ _ _ _
    | false => exact ifHead_of_ne _ _ (head_dumpNat digits u (by decide))
  rw [number, andThen_of_eq hsign, andThen_of_eq (whole_dumpNat digits hdigit),
    andThen_of_eq (ifHead_of_ne _ _ hdot), map_of_eq _ hread, List.append_nil,
    digitsValue_dumpNat]
  simp

/-! ## Strings -/

/-- The hexadecimal digit of a number below sixteen. -/
def hexByte (d : Nat) : Byte := if d < 10 then (48 + d).toUInt8 else (87 + d).toUInt8

/-- A character of a string's body: escaped where it has to be, in UTF-8 elsewhere. -/
def dumpChar (c : Char) : Str :=
  if c = '"' then lit "\\\""
  else if c = '\\' then lit "\\\\"
  else if c = '\x08' then lit "\\b"
  else if c = '\x0c' then lit "\\f"
  else if c = '\n' then lit "\\n"
  else if c = '\r' then lit "\\r"
  else if c = '\t' then lit "\\t"
  else if c.toNat < 0x20 then lit "\\u00" ++ [hexByte (c.toNat / 16), hexByte (c.toNat % 16)]
  else String.utf8EncodeChar c

/-- The body of a literal. -/
def dumpString (s : List Char) : Str := s.flatMap dumpChar

/-- Each of the 128 characters is read back, escaped or not. -/
theorem character_dumpAscii :
    ∀ n < 128, character (dumpChar (Char.ofNat n)) = some (some (Char.ofNat n), []) := by
  decide +kernel

theorem le_ofNat {n x : Nat} (h₁ : n ≤ x) (h₂ : x < 256) : UInt8.ofNat n ≤ UInt8.ofNat x := by
  rw [UInt8.le_iff_toNat_le, UInt8.toNat_ofNat', UInt8.toNat_ofNat', Nat.mod_eq_of_lt h₂,
    Nat.mod_eq_of_lt (h₁.trans_lt h₂)]
  exact h₁

/-- The encoding of every other one begins with a byte outside ASCII. -/
theorem utf8EncodeChar_head {c : Char} (h : 128 ≤ c.toNat) :
    ∃ b w, String.utf8EncodeChar c = b :: w ∧ 128 ≤ b := by
  have hv : ¬c.val.toNat ≤ 0x7f := by
    show ¬c.toNat ≤ 0x7f
    omega
  simp only [String.utf8EncodeChar, if_neg hv]
  split
  · exact ⟨_, _, rfl, le_ofNat (n := 128) (by omega) (by omega)⟩
  · split
    · exact ⟨_, _, rfl, le_ofNat (n := 128) (by omega) (by omega)⟩
    · exact ⟨_, _, rfl, le_ofNat (n := 128) (by omega) (by omega)⟩

/-- These are not escaped. -/
theorem dumpChar_of_ge {c : Char} (h : 128 ≤ c.toNat) : dumpChar c = String.utf8EncodeChar c := by
  have hne : ∀ x : Char, x.toNat < 128 → c ≠ x := by
    rintro x hx rfl
    omega
  rw [dumpChar, if_neg (hne _ (by decide)), if_neg (hne _ (by decide)), if_neg (hne _ (by decide)),
    if_neg (hne _ (by decide)), if_neg (hne _ (by decide)), if_neg (hne _ (by decide)),
    if_neg (hne _ (by decide)), if_neg (by omega)]

/-- A printed character is read back, whatever follows. -/
theorem character_dumpChar (c : Char) (t : Str) :
    character (dumpChar c ++ t) = some (some c, t) := by
  by_cases hc : c.toNat < 128
  · have hs := character_dumpAscii c.toNat hc
    rw [Char.ofNat_toNat] at hs
    exact (stable_character (D := fun _ => True)).append trivial hs
  · obtain ⟨b, w, hb, hge⟩ := utf8EncodeChar_head (Nat.le_of_not_lt hc)
    have hhead : ∀ x : Byte, x < 128 → (b :: w ++ t).head? ≠ some x := by
      intro x hx he
      cases he
      exact absurd hx (by simpa using hge)
    rw [dumpChar_of_ge (Nat.le_of_not_lt hc), hb, character, ifHead_of_ne _ _ (hhead _ (by decide)),
      ifHead_of_ne _ _ (hhead _ (by decide))]
    refine map_of_eq some (plain_encode hb ?_ t)
    intro hlt
    exact absurd (UInt8.lt_of_lt_of_le hlt (by decide : (0x20 : Byte) ≤ 128)) (by simpa using hge)

/-- What `dumpString` prints is the body of a literal of the same string. -/
theorem spells_dumpString (s : List Char) : Spells (dumpString s) s := by
  have h := spells_flatMap character_dumpChar s
  rwa [List.map_id'] at h

/-! ## Values -/

mutual

/-- Prints a value compactly. -/
def dump : Json → Str
  | null => lit "null"
  | bool true => lit "true"
  | bool false => lit "false"
  | num n => dumpNumber n
  | str s => quote :: dumpString s ++ [quote]
  | arr items => beginArray :: commaSep (dumpItems items) ++ [endArray]
  | obj members => beginObject :: commaSep (dumpMembers members) ++ [endObject]

def dumpItems : List Json → List Str
  | [] => []
  | j :: js => dump j :: dumpItems js

def dumpMembers : List (List Char × Json) → List Str
  | [] => []
  | (k, j) :: ms => (quote :: dumpString k ++ quote :: nameSeparator :: dump j) :: dumpMembers ms

end

/-- The letters a number begins with begin nothing else. -/
theorem number_head : ∀ c : Byte, isdigit c || c == '-' →
    isWs c = false ∧ c ≠ beginObject ∧ c ≠ beginArray ∧ c ≠ quote ∧
      c ≠ (('t' : Char) : Byte) ∧ c ≠ (('f' : Char) : Byte) ∧ c ≠ (('n' : Char) : Byte) := by
  decide +kernel

/-- A printed number begins with a digit or a minus sign. -/
theorem head_dumpNumber (n : Decimal) :
    ∃ c w, dumpNumber n = c :: w ∧ (isdigit c || c == '-') = true := by
  unfold dumpNumber
  split
  · exact ⟨_, _, rfl, by decide⟩
  · cases hd : dumpNat n.digits with
    | nil => exact absurd hd (dumpNat_ne_nil _)
    | cons c w =>
        have hc := isdigit_of_mem_dumpNat c (n := n.digits) (by rw [hd]; exact List.mem_cons_self)
        exact ⟨c, _, rfl, by rw [hc]; rfl⟩

/-- A printed number denotes itself. -/
theorem denotes_num (d : Nat) (n : Decimal) : Denotes (value (d + 1)) (dumpNumber n) (num n) := by
  refine ⟨[], List.nil_suffix, by simp, fun t ht => ?_⟩
  have hread := number_dumpNumber n ht
  obtain ⟨c, w, hw, hc⟩ := head_dumpNumber n
  obtain ⟨hws, h₁, h₂, h₃, h₄, h₅, h₆⟩ := number_head c hc
  rw [hw] at hread ⊢
  have hne : ∀ x : Byte, c ≠ x → (c :: (w ++ t)).head? ≠ some x := by
    intro x hx he
    exact hx (Option.some.inj he)
  refine (spaced_cons (v := []) (by simp) hws (w ++ t)).trans ?_
  rw [value, ifHead_of_ne _ _ (hne _ h₁), ifHead_of_ne _ _ (hne _ h₂), ifHead_of_ne _ _ (hne _ h₃),
    ifHead_of_ne _ _ (hne _ h₄), ifHead_of_ne _ _ (hne _ h₅), ifHead_of_ne _ _ (hne _ h₆)]
  exact map_of_eq _ hread

mutual

/-- A printed value denotes itself. -/
theorem denotes_dump : (j : Json) → Denotes (value ((dump j).length + 1)) (dump j) j
  | null => denotes_intro (by decide) fun _ => rfl
  | bool true => denotes_intro (by decide) fun _ => rfl
  | bool false => denotes_intro (by decide) fun _ => rfl
  | num n => denotes_num _ n
  | str s => denotes_str (spells_dumpString s)
  | arr items => by
      obtain ⟨ws, hfst, hsnd, h⟩ := denotes_dumpItems items (dump (arr items)).length fun w hw => by
        have := length_le_commaSep hw
        simp only [dump, List.length_append, List.length_cons]
        omega
      have harr := denotes_arr ws h
      rwa [hfst, hsnd] at harr
  | obj members => by
      obtain ⟨ws, hfst, hsnd, h⟩ :=
        denotes_dumpMembers members (dump (obj members)).length fun w hw => by
          have := length_le_commaSep hw
          simp only [dump, List.length_append, List.length_cons]
          omega
      have hobj := denotes_obj ws h
      rwa [hfst, hsnd] at hobj

theorem denotes_dumpItems : (js : List Json) → (d : Nat) → (∀ w ∈ dumpItems js, w.length < d) →
    ∃ ws : List (Str × Json), ws.map Prod.fst = dumpItems js ∧ ws.map Prod.snd = js ∧
      ∀ x ∈ ws, Denotes (value d) x.1 x.2
  | [], _, _ => ⟨[], rfl, rfl, by simp⟩
  | j :: js, d, hd => by
      obtain ⟨ws, hfst, hsnd, h⟩ :=
        denotes_dumpItems js d fun w hw => hd w (List.mem_cons_of_mem _ hw)
      have hj := (denotes_dump j).refines (value_refines (hd _ List.mem_cons_self))
      refine ⟨(dump j, j) :: ws, ?_, ?_, ?_⟩
      · rw [List.map_cons, hfst, dumpItems]
      · rw [List.map_cons, hsnd]
      · intro x hx
        rcases List.mem_cons.mp hx with rfl | hx
        · exact hj
        · exact h x hx

theorem denotes_dumpMembers : (ms : List (List Char × Json)) → (d : Nat) →
    (∀ w ∈ dumpMembers ms, w.length < d) →
    ∃ ws : List (Str × (List Char × Json)), ws.map Prod.fst = dumpMembers ms ∧
      ws.map Prod.snd = ms ∧ ∀ x ∈ ws, Denotes (member (value d)) x.1 x.2
  | [], _, _ => ⟨[], rfl, rfl, by simp⟩
  | (k, j) :: ms, d, hd => by
      obtain ⟨ws, hfst, hsnd, h⟩ :=
        denotes_dumpMembers ms d fun w hw => hd w (List.mem_cons_of_mem _ hw)
      have hlen : (dump j).length + 1 ≤ d := by
        have hw := hd _ List.mem_cons_self
        simp only [List.length_append, List.length_cons] at hw
        omega
      have hj := denotes_member (spells_dumpString k) ((denotes_dump j).refines (value_refines hlen))
      refine ⟨(quote :: dumpString k ++ quote :: nameSeparator :: dump j, (k, j)) :: ws, ?_, ?_, ?_⟩
      · rw [List.map_cons, hfst, dumpMembers]
      · rw [List.map_cons, hsnd]
      · intro x hx
        rcases List.mem_cons.mp hx with rfl | hx
        · exact hj
        · exact h x hx

end

/-- **Printing loses nothing.** -/
theorem parse_dump (j : Json) : parse (dump j) = some j := parse_of_denotes (denotes_dump j)

end Json

end XeusCpp.Text
