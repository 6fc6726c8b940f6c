/-
# XeusCpp.Host.Spelling — what the body of a JSON string says about the string.

A body that was accepted has no control character, and it is at least as long as the UTF-8 encoding
of the string it spells: an escape is longer than the character it stands for. The two are of one
length only when nothing is escaped, and then the string has no quotation mark and no backslash.
-/
import XeusCpp.Host.JsonLibrary

namespace XeusCpp.Host

open Text Json Reader

/-- A character that stands for itself in the body of a string. -/
structure IsPlain (x : Char) : Prop where
  ne_quote : x ≠ '"'
  ne_backslash : x ≠ '\\'
  printable : 0x20 ≤ x.toNat

instance (x : Char) : Decidable (IsPlain x) :=
  decidable_of_iff (x ≠ '"' ∧ x ≠ '\\' ∧ 0x20 ≤ x.toNat)
    ⟨fun h => ⟨h.1, h.2.1, h.2.2⟩, fun h => ⟨h.ne_quote, h.ne_backslash, h.printable⟩⟩

theorem dumpChar_of_isPlain {x : Char} (h : IsPlain x) : dumpChar x = String.utf8EncodeChar x := by
  have hne : ∀ y : Char, y.toNat < 0x20 → x ≠ y := by
    rintro y hy rfl
    exact absurd h.printable (by omega)
  rw [dumpChar, if_neg h.ne_quote, if_neg h.ne_backslash, if_neg (hne _ (by decide)),
    if_neg (hne _ (by decide)), if_neg (hne _ (by decide)), if_neg (hne _ (by decide)),
    if_neg (hne _ (by decide)), if_neg (Nat.not_lt.mpr h.printable)]

/-- A string of plain characters is spelled by its encoding. -/
theorem spells_utf8 (cs : List Char) (h : ∀ x ∈ cs, IsPlain x) : Spells (utf8 cs) cs := by
  have hdump : dumpString cs = utf8 cs :=
    List.flatMap_congr fun x hx => dumpChar_of_isPlain (h x hx)
  rw [← hdump]
  exact spells_dumpString cs

theorem isPlain_of_all {cs : List Char} (h : cs.all (fun x => decide (IsPlain x)) = true) :
    ∀ x ∈ cs, IsPlain x := by
  intro x hx
  exact of_decide_eq_true (List.all_eq_true.mp h x hx)

/-! ## Bodies -/

/-- Without control characters. -/
def Printable (w : Str) : Prop := ∀ c ∈ w, 0x20 ≤ c

theorem printable_nil : Printable [] := by
  intro c hc
  cases hc

theorem Printable.cons {c : Byte} {w : Str} (hc : 0x20 ≤ c) (h : Printable w) :
    Printable (c :: w) :=
  List.forall_mem_cons.mpr ⟨hc, h⟩

theorem Printable.append {u w : Str} (hu : Printable u) (hw : Printable w) : Printable (u ++ w) :=
  List.forall_mem_append.mpr ⟨hu, hw⟩

/-- The word `w` in the body of a string, which spells `cs` there. -/
structure Body (w : Str) (cs : List Char) : Prop where
  printable : Printable w
  length : (utf8 cs).length ≤ w.length
  plain : (utf8 cs).length = w.length → w = utf8 cs ∧ ∀ x ∈ cs, IsPlain x

theorem body_nil : Body [] [] := ⟨printable_nil, Nat.le_refl _, fun _ => ⟨rfl, by simp⟩⟩

theorem Body.append {u w : Str} {xs ys : List Char} (hu : Body u xs) (hw : Body w ys) :
    Body (u ++ w) (xs ++ ys) := by
  have hutf8 : utf8 (xs ++ ys) = utf8 xs ++ utf8 ys := List.flatMap_append
  have hlen₁ := hu.length
  have hlen₂ := hw.length
  refine ⟨hu.printable.append hw.printable, ?_, ?_⟩
  · rw [hutf8, List.length_append, List.length_append]
    omega
  · intro h
    rw [hutf8, List.length_append, List.length_append] at h
    obtain ⟨hxs, hplain₁⟩ := hu.plain (by omega)
    obtain ⟨hys, hplain₂⟩ := hw.plain (by omega)
    refine ⟨?_, List.forall_mem_append.mpr ⟨hplain₁, hplain₂⟩⟩
    rw [hutf8, ← hxs, ← hys]

/-- Something that is longer than the character. -/
theorem body_of_lt {w : Str} {x : Char} (hw : Printable w)
    (h : (String.utf8EncodeChar x).length < w.length) : Body w [x] := by
  have hutf8 : utf8 [x] = String.utf8EncodeChar x := List.append_nil _
  refine ⟨hw, ?_, ?_⟩
  · rw [hutf8]
    exact Nat.le_of_lt h
  · intro he
    rw [hutf8] at he
    omega

/-! ## Escapes -/

theorem printable_of_hexDigit : ∀ c : Byte, hexDigit c ≠ none → 0x20 ≤ c := by decide +kernel

/-- Of at least `n` bytes. -/
def IsRun (n : Nat) (w : Str) : Prop := Printable w ∧ n ≤ w.length

theorem consumes_hex4 : Consumes (fun w _ => IsRun 4 w) hex4 := by
  intro s u r h
  obtain ⟨a, b, c, d, rfl, hread⟩ := hex4_eq_some h
  refine ⟨[a, b, c, d], rfl, ?_, Nat.le_refl _⟩
  have hdigits : hexDigit a ≠ none ∧ hexDigit b ≠ none ∧ hexDigit c ≠ none ∧ hexDigit d ≠ none := by
    refine ⟨?_, ?_, ?_, ?_⟩
    all_goals
      intro hnone
      simp [hex4, hnone] at h
  obtain ⟨ha, hb, hc, hd⟩ := hdigits
  exact .cons (printable_of_hexDigit a ha) (.cons (printable_of_hexDigit b hb)
    (.cons (printable_of_hexDigit c hc) (.cons (printable_of_hexDigit d hd) printable_nil)))

theorem consumes_unicode : Consumes (fun w _ => IsRun 4 w) unicode := by
  apply consumes_hex4.andThen
  rintro w u ⟨hw, hlen⟩
  -- a pair of surrogates is longer still
  have hlonger : ∀ v : Str, Printable v → IsRun 4 (w ++ v) := by
    intro v hv
    refine ⟨hw.append hv, ?_⟩
    rw [List.length_append]
    omega
  split
  · have hescape : Printable (lit "\\u") :=
      (printable_nil.cons (by decide : (0x20 : Byte) ≤ 'u')).cons (by decide)
    apply Consumes.andThen (K := fun v _ => Printable v) (Consumes.word hescape)
    rintro v _ hv
    apply consumes_hex4.andThen
    rintro v' u' ⟨hv', -⟩
    split
    · apply Consumes.give
      rw [List.append_nil]
      exact hlonger _ (hv.append hv')
    · exact Consumes.fail
  · split
    · exact Consumes.fail
    · apply Consumes.give
      exact hlonger [] printable_nil

def IsEscape (w : Str) (x : Char) : Prop :=
  Printable w ∧ (String.utf8EncodeChar x).length ≤ w.length

theorem consumes_letter {c : Byte} {x : Char} (hc : 0x20 ≤ c)
    (hx : (String.utf8EncodeChar x).length ≤ 1) :
    Consumes (fun w a => IsEscape (c :: w) a) (give x) :=
  Consumes.give ⟨printable_nil.cons hc, hx⟩

theorem consumes_code : Consumes (fun w a => IsEscape (('u' : Char) :: w) a) unicode := by
  intro s x r h
  obtain ⟨w, rfl, hw, hlen⟩ := consumes_unicode h
  refine ⟨w, rfl, hw.cons (by decide), ?_⟩
  rw [String.length_utf8EncodeChar, List.length_cons]
  have hx := x.utf8Size_le_four
  omega

theorem consumes_escaped : Consumes IsEscape escaped := by
  unfold escaped
  repeat' apply Consumes.ifHead
  all_goals first
    | exact consumes_letter (by decide) (by decide)
    | exact consumes_code
    | exact Consumes.fail

/-! ## Characters -/

theorem printable_utf8EncodeChar {x : Char} (h : 0x20 ≤ x.toNat) :
    Printable (String.utf8EncodeChar x) := by
  have hbyte : ∀ n : Nat, 0x20 ≤ n → n < 256 → (0x20 : Byte) ≤ UInt8.ofNat n :=
    fun _ => le_ofNat (n := 0x20)
  have hval : x.toNat = x.val.toNat := rfl
  rw [hval] at h
  unfold String.utf8EncodeChar
  dsimp only
  split
  · exact printable_nil.cons (hbyte _ h (by omega))
  · split
    · exact (printable_nil.cons (hbyte _ (by omega) (by omega))).cons
        (hbyte _ (by omega) (by omega))
    · split
      · exact ((printable_nil.cons (hbyte _ (by omega) (by omega))).cons
          (hbyte _ (by omega) (by omega))).cons (hbyte _ (by omega) (by omega))
      · exact (((printable_nil.cons (hbyte _ (by omega) (by omega))).cons
          (hbyte _ (by omega) (by omega))).cons (hbyte _ (by omega) (by omega))).cons
            (hbyte _ (by omega) (by omega))

/-- A control character is encoded as itself. -/
theorem head_of_control {x : Char} (h : x.toNat < 0x20) {c : Byte} {w : Str}
    (he : String.utf8EncodeChar x = c :: w) : c < 0x20 := by
  have hval : x.val.toNat < 0x20 := h
  simp only [String.utf8EncodeChar] at he
  rw [if_pos (by omega)] at he
  cases he
  rw [UInt8.lt_iff_toNat_lt, UInt8.toNat_ofNat', Nat.mod_eq_of_lt (by omega)]
  exact hval

/-- A character that is read as it stands. -/
theorem body_of_plain {s r : Str} {x : Char} (h : plain s = some (x, r))
    (hquote : s.head? ≠ some quote) (hbackslash : s.head? ≠ some (('\\' : Char) : Byte)) :
    ∃ w, s = w ++ r ∧ Body w [x] := by
  obtain ⟨c, w, rfl, he, hc⟩ := plain_eq_some h
  have hx : IsPlain x := by
    constructor
    · rintro rfl
      cases he
      exact hquote rfl
    · rintro rfl
      cases he
      exact hbackslash rfl
    · by_contra hlt
      exact hc (head_of_control (Nat.lt_of_not_le hlt) he)
  have hutf8 : utf8 [x] = c :: w := (List.append_nil _).trans he
  refine ⟨c :: w, rfl, ?_, ?_, ?_⟩
  · rw [← he]
    exact printable_utf8EncodeChar hx.printable
  · rw [hutf8]
  · intro _
    exact ⟨hutf8.symm, by simpa using hx⟩

/-- A round reads the closing quote or a part of the body. -/
def IsRound (w : Str) : Option Char → Prop
  | none => w = [quote]
  | some x => Body w [x]

theorem consumes_character : Consumes IsRound character := by
  intro s a r h
  cases s with
  | nil => cases h
  | cons c s =>
      by_cases hquote : c = quote
      · subst hquote
        cases h
        exact ⟨[quote], rfl, rfl⟩
      by_cases hbackslash : c = (('\\' : Char) : Byte)
      · subst hbackslash
        obtain ⟨x, hx, rfl⟩ := map_eq_some.mp h
        obtain ⟨w, rfl, hw, hlen⟩ := consumes_escaped hx
        refine ⟨_ :: w, rfl, body_of_lt (hw.cons (by decide)) ?_⟩
        rw [List.length_cons]
        omega
      · have hne₁ : (c :: s).head? ≠ some quote := by simpa using hquote
        have hne₂ : (c :: s).head? ≠ some (('\\' : Char) : Byte) := by simpa using hbackslash
        rw [character, ifHead_of_ne _ _ hne₁, ifHead_of_ne _ _ hne₂] at h
        obtain ⟨x, hx, rfl⟩ := map_eq_some.mp h
        exact body_of_plain hx hne₁ hne₂

/-- What stands between the quotes of an accepted string is its body. -/
theorem characters_eq_some {s r : Str} {cs : List Char} (h : characters s = some (cs, r)) :
    ∃ b, s = b ++ quote :: r ∧ Body b cs := by
  have hloop : Consumes (fun w cs => ∃ b, w = b ++ [quote] ∧ Body b cs) characters := by
    apply consumes_character.many
    · rintro w rfl
      exact ⟨[], rfl, body_nil⟩
    · rintro u x w xs hu ⟨b, rfl, hb⟩
      exact ⟨u ++ b, by rw [List.append_assoc], hu.append hb⟩
  obtain ⟨w, rfl, b, rfl, hb⟩ := hloop h
  exact ⟨b, List.append_assoc b [quote] r, hb⟩

/-- A text put between quotes as it stands, at the end of a line, is read back only where it needs
no escape: a quote of its own ends the string early, and the string cannot go on into the next
line. -/
theorem isPlain_of_characters {cs : List Char} {r t : Str}
    (h : characters (utf8 cs ++ quote :: valueSeparator :: (('\n' : Char) : Byte) :: t) =
      some (cs, r)) : ∀ x ∈ cs, IsPlain x := by
  obtain ⟨b, hb, hbody⟩ := characters_eq_some h
  obtain ⟨v, rfl⟩ : utf8 cs <+: b := by
    have hwhole : b <+: utf8 cs ++ quote :: valueSeparator :: (('\n' : Char) : Byte) :: t := by
      rw [hb]
      exact List.prefix_append _ _
    exact List.prefix_of_prefix_length_le (List.prefix_append _ _) hwhole hbody.length
  rw [List.append_assoc] at hb
  have hv := List.append_cancel_left hb
  -- what the body has beyond the text
  match v, hv with
  | [], _ => exact (hbody.plain (by rw [List.append_nil])).2
  | [_], hv => cases hv
  | [_, _], hv => cases hv
  | _ :: _ :: c :: v, hv =>
      cases hv
      exact absurd (hbody.printable (('\n' : Char) : Byte) (by simp)) (by decide)

/-! ## Objects -/

theorem value_obj_eq_some {d : Nat} {t r : Str} {ms : List (List Char × Json)}
    (h : value (d + 1) (beginObject :: t) = some (.obj ms, r)) :
    series (member (value d)) endObject t = some (ms, r) := by
  obtain ⟨ms', hseries, he⟩ := map_eq_some.mp (show map obj _ t = _ from h)
  cases he
  exact hseries

/-- The first member of an object, when its value is a string. -/
theorem first_member {u b t : Str} {k : List Char} {ms : List (List Char × Json)}
    (hu : ∀ c ∈ u, isWs c = true) (hk : Spells b k)
    (h : parse (beginObject :: (u ++ quote :: (b ++ quote :: nameSeparator ::
      (lit " " ++ quote :: t)))) = some (.obj ms)) :
    ∃ cs r, characters t = some (cs, r) ∧ (k, .str cs) ∈ ms := by
  have hblank : ∀ c ∈ lit " ", isWs c = true := List.all_eq_true.mp rfl
  obtain ⟨v, -, -, hread⟩ := denotes_of_parse h
  have hvalue := hread [] delimits_nil
  rw [List.append_nil, List.append_nil] at hvalue
  have hne : (quote :: (b ++ quote :: nameSeparator :: (lit " " ++ quote :: t))).head? ≠
      some endObject := fun he => absurd (Option.some.inj he) (by decide)
  have hseries := value_obj_eq_some (show value _ (beginObject :: _) = _ from hvalue)
  rw [series, spaced_cons hu (by decide), ifHead_of_ne _ _ hne] at hseries
  obtain ⟨⟨k', j⟩, r, hmember, hrest⟩ := andThen_eq_some.mp hseries
  obtain ⟨ms', -, rfl⟩ := map_eq_some.mp hrest
  rw [member, ifHead_cons_self, andThen_of_eq (hk.append _)] at hmember
  obtain ⟨j', hj, he⟩ := map_eq_some.mp (show map (k, ·) _ _ = _ from hmember)
  cases he
  rw [spaced_cons hblank (by decide)] at hj
  obtain ⟨cs, hcs, rfl⟩ := map_eq_some.mp (show map str characters t = _ from hj)
  exact ⟨cs, r, hcs, List.mem_cons_self⟩

end XeusCpp.Host
