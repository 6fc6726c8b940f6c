/-
# XeusCpp.Assist.Escaping — what the receiver of a prompt reads.

The escaper works on bytes. A byte from 128 on is sign-extended and printed as the escape of one
character, between U+FF80 and U+FFFF, whatever character it is a part of; the receiver encodes that
in three bytes.

**`prompt_lossless_iff`**: the receiver gets the prompt exactly when it is ASCII.
-/
import XeusCpp.Assist.History
import XeusCpp.Host.JsonLibrary

namespace XeusCpp.Assist

open Text Host

/-- Read as the body of a string literal and encoded again, the escaped prompt is the prompt. -/
def Lossless (prompt : Str) : Prop :=
  ∃ cs, Json.parse (Json.quote :: escapeSpecialCases prompt ++ [Json.quote]) = some (.str cs) ∧
    utf8 cs = prompt

theorem lossless_iff_utf8 (prompt : Str) : Lossless prompt ↔ utf8 (decoded prompt) = prompt := by
  constructor
  · rintro ⟨cs, hparse, hcs⟩
    cases hparse.symm.trans (parse_prompt prompt)
    exact hcs
  · intro h
    exact ⟨decoded prompt, parse_prompt prompt, h⟩

/-! ## Bytes -/

theorem utf8_decodedChar_of_lt :
    ∀ c : Byte, c < 128 → String.utf8EncodeChar (decodedChar c) = [c] := by
  decide +kernel

/-- A byte that is sign-extended comes back as three. -/
theorem length_utf8_decodedChar :
    ∀ c : Byte, 128 ≤ c → (String.utf8EncodeChar (decodedChar c)).length = 3 := by
  decide +kernel

theorem utf8_decoded_of_ascii {s : Str} (h : ∀ c ∈ s, c < 128) : utf8 (decoded s) = s := by
  induction s with
  | nil => rfl
  | cons c s ih =>
      have hc : String.utf8EncodeChar (decodedChar c) = [c] :=
        utf8_decodedChar_of_lt c (h c (by simp))
      have hs : utf8 (decoded s) = s := ih fun x hx => h x (List.mem_cons_of_mem c hx)
      show String.utf8EncodeChar (decodedChar c) ++ utf8 (decoded s) = c :: s
      rw [hc, hs]
      rfl

theorem length_utf8_decoded (s : Str) :
    (utf8 (decoded s)).length = s.length + 2 * s.countP (128 ≤ ·) := by
  induction s with
  | nil => rfl
  | cons c s ih =>
      show (String.utf8EncodeChar (decodedChar c) ++ utf8 (decoded s)).length = _
      rw [List.length_append, ih, List.length_cons, List.countP_cons]
      -- each sign-extended byte makes the text two bytes longer
      by_cases hc : 128 ≤ c
      · rw [length_utf8_decodedChar c hc, if_pos (by simpa using hc)]
        omega
      · rw [utf8_decodedChar_of_lt c (UInt8.not_le.mp hc), if_neg (by simpa using hc)]
        simp only [List.length_cons, List.length_nil]
        omega

theorem lossless_iff (s : Str) : Lossless s ↔ ∀ c ∈ s, c < 128 := by
  rw [lossless_iff_utf8]
  constructor
  · intro h
    have hlen := length_utf8_decoded s
    rw [h] at hlen
    have hcount : s.countP (128 ≤ ·) = 0 := by omega
    intro c hc
    have hnot := List.countP_eq_zero.mp hcount c hc
    exact UInt8.not_le.mp (by simpa using hnot)
  · exact utf8_decoded_of_ascii

/-! ## Characters -/

/-- A character is encoded in ASCII bytes only when it is ASCII: otherwise its last byte is a
continuation byte. -/
theorem ascii_utf8EncodeChar (c : Char) :
    (∀ b ∈ String.utf8EncodeChar c, b < 128) ↔ c.toNat < 128 := by
  have hlast : ∀ n : Nat, ¬UInt8.ofNat (n % 64 + 128) < 128 := by
    intro n h
    rw [UInt8.lt_iff_toNat_lt, UInt8.toNat_ofNat'] at h
    change _ < 128 at h
    omega
  have hval : c.toNat = c.val.toNat := rfl
  rw [hval]
  unfold String.utf8EncodeChar
  dsimp only
  constructor
  · intro h
    by_contra hc
    rw [if_neg (by omega)] at h
    apply hlast c.val.toNat
    apply h
    -- two, three or four bytes: the last one is the continuation byte of the low six bits
    split
    · simp
    · split <;> simp
  · intro h
    rw [if_pos (by omega)]
    intro b hb
    rw [List.mem_singleton.mp hb, UInt8.lt_iff_toNat_lt, UInt8.toNat_ofNat']
    change _ < 128
    omega

theorem ascii_utf8 (cs : List Char) : (∀ b ∈ utf8 cs, b < 128) ↔ ∀ c ∈ cs, c.toNat < 128 := by
  constructor
  · intro h c hc
    apply (ascii_utf8EncodeChar c).mp
    intro b hb
    exact h b (List.mem_flatMap.mpr ⟨c, hc, hb⟩)
  · intro h b hb
    obtain ⟨c, hc, hb⟩ := List.mem_flatMap.mp hb
    exact (ascii_utf8EncodeChar c).mpr (h c hc) b hb

/-- **A prompt arrives as it was exactly when it is ASCII**, a property of its bytes or, for a text
in UTF-8, of its characters. -/
theorem prompt_lossless_iff (s : Str) (cs : List Char) :
    (Lossless s ↔ ∀ c ∈ s, c < 128) ∧ (Lossless (utf8 cs) ↔ ∀ c ∈ cs, c.toNat < 128) :=
  ⟨lossless_iff s, (lossless_iff (utf8 cs)).trans (ascii_utf8 cs)⟩

/-- Two bytes of one letter arrive as two characters. -/
theorem not_lossless_accent : ¬Lossless (utf8 (key "é")) := by
  rw [lossless_iff]
  intro h
  have hlead : (0xC3 : Byte) ∈ utf8 (key "é") := by decide
  exact absurd (h _ hlead) (by decide)

end XeusCpp.Assist
