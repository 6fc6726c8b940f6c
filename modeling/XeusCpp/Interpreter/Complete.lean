/-
# XeusCpp.Interpreter.Complete — `complete_request_impl`.

The word to complete is looked for by splitting the code at delimiters, up to the cursor and one
character further: `split_line` makes a range of `cursor_pos + 1` characters. What is readable is a
partial map from offsets to characters, so that a result says which characters were enough for it.

The character at the cursor does no harm where it is a delimiter or the end of the text. Anywhere
else it is taken for a part of the word, and the reply begins one character too early
(`complete_iff`).
-/
import Mathlib.Data.List.DropRight
import XeusCpp.Validator.Lexer

namespace XeusCpp.Interpreter

open Text Validator

/-! ## `split_line` -/

/-- The characters that can be read, by their offsets. -/
abbrev Memory := Nat → Option Byte

/-- What `sregex_token_iterator` yields for the submatch `-1`: what stands in front of each delimiter,
then what stands behind the last one unless it is empty. A text without delimiters is yielded as it
is. -/
def tokenIterator (isDelim : Byte → Bool) (s : Str) : List Str :=
  let pieces := s.splitOnP isDelim
  if pieces.length ≠ 1 ∧ pieces.getLast? = some [] then pieces.dropLast else pieces

/-- `split_line`, with the regular expression as membership in `delims`. -/
def splitLine (input : Memory) (delims : Str) (cursorPos : Nat) : Option (List Str) := do
  let range ← (List.range (cursorPos + 1)).mapM input
  return tokenIterator (· ∈ delims) range

/-! ## The request -/

def delims : Str := lit " \t\n`!@#$^&*()=+[\x7b]\x7d\\|;:'\",<>?."

/-- A value as `std::size_t`. -/
def sizeT (z : Int) : Nat := (z % 2 ^ 64).toNat

/-- A value as `int`. -/
def toInt (z : Int) : Int := Int.bmod z (2 ^ 32)

/-- `create_complete_reply`, by its arguments. -/
structure CompleteReply where
  completions : List Str
  cursorStart : Int
  cursorEnd : Int
deriving DecidableEq

/-- `to_complete`: the last token, as a C string. -/
def toComplete (code : Memory) (cursorPos : Nat) : Option Str := do
  let text ← splitLine code delims cursorPos
  return cStr (← text.getLast?)

/-- `complete_request_impl`; `codeComplete` is `Cpp::CodeComplete`, by its last three arguments. -/
def completeRequest (codeComplete : Str → Nat → Nat → List Str) (code : Str) (cursorPos : Int) :
    Option CompleteReply := do
  let word ← toComplete (readAt code) (sizeT cursorPos)
  return {
    completions := codeComplete (cStr code) 1 ((sizeT cursorPos + 1) % 2 ^ 32)
    cursorStart := toInt (sizeT (sizeT cursorPos - word.length))
    cursorEnd := cursorPos }

/-! ## The last token -/

section Tokens

variable (p : Byte → Bool)

theorem rdropWhile_append_rtakeWhile (s : Str) : s.rdropWhile p ++ s.rtakeWhile p = s := by
  rw [List.rdropWhile, List.rtakeWhile, ← List.reverse_append, List.takeWhile_append_dropWhile,
    List.reverse_reverse]

/-- The last piece of a text is its last run without a delimiter. -/
theorem getLast?_splitOnP (s : Str) :
    (s.splitOnP p).getLast? = some (s.rtakeWhile (!p ·)) := by
  have hsplit := rdropWhile_append_rtakeWhile (!p ·) s
  have hrun : ∀ c ∈ s.rtakeWhile (!p ·), p c = false := by
    intro c hc
    simpa using List.mem_rtakeWhile_imp hc
  have hsingle := List.splitOnP_eq_singleton hrun
  by_cases hnil : s.rdropWhile (!p ·) = []
  · rw [hnil, List.nil_append] at hsplit
    rw [hsplit] at hsingle
    rw [hsingle, hsplit]
    rfl
  · -- in front of the run stands a delimiter
    have hlast := List.rdropWhile_last_not (!p ·) s hnil
    obtain ⟨u, d, hu⟩ := (List.eq_nil_or_concat (s.rdropWhile (!p ·))).resolve_left hnil
    have hd : p d = true := by simpa [hu] using hlast
    have hs : s = u ++ d :: s.rtakeWhile (!p ·) := by
      rw [hu] at hsplit
      simpa using hsplit.symm
    conv_lhs => rw [hs]
    rw [List.splitOnP_append_cons u _ hd, hsingle, List.getLast?_append]
    rfl

/-- **The last token**: behind a delimiter the run in front of it, else the run at the end. -/
theorem getLast?_tokenIterator (s : Str) (c : Byte) :
    (tokenIterator p (s ++ [c])).getLast? =
      some (if p c then s.rtakeWhile (!p ·) else s.rtakeWhile (!p ·) ++ [c]) := by
  unfold tokenIterator
  by_cases hc : p c = true
  · have hpieces : (s ++ [c]).splitOnP p = s.splitOnP p ++ [[]] :=
      List.splitOnP_append_cons s [] hc
    have hlen : (s.splitOnP p).length ≠ 0 := by
      rw [ne_eq, List.length_eq_zero_iff]
      exact List.splitOnP_ne_nil p s
    simp only [hpieces, List.getLast?_concat, List.length_append, List.length_singleton,
      List.dropLast_concat]
    rw [if_pos ⟨by omega, trivial⟩, if_pos hc, getLast?_splitOnP]
  · have hlast := getLast?_splitOnP p (s ++ [c])
    rw [List.rtakeWhile_concat_pos (!p ·) s c (by simpa using hc)] at hlast
    have hne : ¬ (((s ++ [c]).splitOnP p).length ≠ 1 ∧
        ((s ++ [c]).splitOnP p).getLast? = some []) := by
      rw [hlast]
      simp
    dsimp only
    rw [if_neg hc, if_neg hne, hlast]

end Tokens

/-! ## What is read -/

theorem mapM_readAt (code : Str) {n : Nat} (h : n ≤ code.length + 1) :
    (List.range n).mapM (readAt code) = some ((code ++ [0]).take n) := by
  induction n with
  | zero => rfl
  | succ n ih =>
      have hlt : n < (code ++ [0]).length := by
        rw [List.length_append, List.length_singleton]
        omega
      have hread : readAt code n = some (code ++ [0])[n] := List.getElem?_eq_getElem hlt
      rw [List.range_succ, List.mapM_append, ih (by omega)]
      simp only [List.mapM_cons, List.mapM_nil, hread]
      show some ((code ++ [0]).take n ++ [(code ++ [0])[n]]) = _
      rw [List.take_concat_get']

/-- The word in front of the cursor: the longest run of characters that are no delimiters. -/
def wordBefore (code : Str) (p : Nat) : Str := (code.take p).rtakeWhile (fun c => !(c ∈ delims))

/-- The character at the cursor, or the terminator. -/
theorem take_succ_append {code : Str} {p : Nat} (hp : p ≤ code.length) :
    (code ++ [0]).take (p + 1) = code.take p ++ [code[p]?.getD 0] := by
  rcases Nat.lt_or_eq_of_le hp with hlt | rfl
  · rw [List.take_append_of_le_length hlt, List.getElem?_eq_getElem hlt, ← List.take_concat_get' _ _ hlt]
    rfl
  · simp

/-- The word to complete, for every cursor in the text. -/
theorem toComplete_eq {code : Str} {p : Nat} (hp : p ≤ code.length) :
    toComplete (readAt code) p = some (cStr (if code[p]?.getD 0 ∈ delims then wordBefore code p
      else wordBefore code p ++ [code[p]?.getD 0])) := by
  unfold toComplete splitLine
  rw [mapM_readAt code (by omega), take_succ_append hp]
  have hlast := getLast?_tokenIterator (· ∈ delims) (code.take p) (code[p]?.getD 0)
  simp only [Option.pure_def, Option.bind_eq_bind, Option.bind_some, hlast, decide_eq_true_eq]
  rfl

/-- The memory below an offset. -/
def below (p : Nat) (m : Memory) : Memory := fun i => if i < p then m i else none

/-- The characters below the cursor are enough for the word to complete. -/
def ReadsBelow (code : Str) (p : Nat) : Prop :=
  toComplete (below p (readAt code)) p = toComplete (readAt code) p

/-- The range always ends behind the cursor. -/
theorem not_readsBelow {code : Str} {p : Nat} (hp : p ≤ code.length) : ¬ ReadsBelow code p := by
  have hnone : (List.range (p + 1)).mapM (below p (readAt code)) = none := by
    rw [List.range_succ, List.mapM_append]
    have hat : below p (readAt code) p = none := if_neg (Nat.lt_irrefl p)
    simp only [List.mapM_cons, hat]
    cases (List.range p).mapM (below p (readAt code)) <;> rfl
  intro h
  rw [ReadsBelow, toComplete_eq hp, toComplete, splitLine, hnone] at h
  cases h

/-! ## The length of the word -/

theorem cStr_length_le (s : Str) : (cStr s).length ≤ s.length := (List.takeWhile_sublist _).length_le

theorem cStr_length_eq_iff (s : Str) : (cStr s).length = s.length ↔ 0 ∉ s := by
  constructor
  · intro h hmem
    have heq : cStr s = s := (List.takeWhile_prefix _).eq_of_length h
    rw [← heq] at hmem
    have hne := List.mem_takeWhile_imp hmem
    simp at hne
  · intro h
    rw [cStr_of_not_mem h]

/-- A word followed by a character has the length of the word when a NUL follows, and none stands in
it. -/
theorem cStr_snoc_length_iff (w : Str) (c : Byte) :
    (cStr (w ++ [c])).length = w.length ↔ 0 ∉ w ∧ c = 0 := by
  constructor
  · intro h
    have hw : 0 ∉ w := by
      intro hmem
      -- the word is cut off inside
      have hlt : (cStr w).length ≠ w.length := fun heq => (cStr_length_eq_iff w).mp heq hmem
      have hcut : cStr (w ++ [c]) = cStr w := by
        have hne : w.dropWhile (· != 0) ≠ [] := List.ne_nil_of_mem (mem_dropWhile_of_mem hmem rfl)
        exact takeWhile_append_of_ne hne
      rw [hcut] at h
      exact hlt h
    refine ⟨hw, ?_⟩
    by_contra hc
    have hmem : 0 ∉ w ++ [c] := by
      rw [List.mem_append, List.mem_singleton]
      rintro (hz | hz)
      · exact hw hz
      · exact hc hz.symm
    rw [cStr_of_not_mem hmem, List.length_append, List.length_singleton] at h
    omega
  · rintro ⟨hw, rfl⟩
    have hcut : cStr (w ++ [0]) = cStr w := takeWhile_append_of_delim (by simp)
    rw [hcut, cStr_of_not_mem hw]

theorem word_length_iff {code word : Str} {p : Nat} (hp : p ≤ code.length)
    (h : toComplete (readAt code) p = some word) :
    word.length = (wordBefore code p).length ↔
      0 ∉ wordBefore code p ∧ ∀ c ∈ code[p]?, c ∈ delims ∨ c = 0 := by
  rw [toComplete_eq hp] at h
  rw [← Option.some.inj h]
  cases hc : code[p]? with
  | none =>
      have hnul : (0 : Byte) ∉ delims := by decide
      simp only [Option.getD_none, if_neg hnul, cStr_snoc_length_iff]
      simp
  | some c =>
      simp only [Option.getD_some, Option.mem_some, forall_eq']
      by_cases hd : c ∈ delims
      · rw [if_pos hd, cStr_length_eq_iff]
        simp only [hd, true_or, and_true]
      · rw [if_neg hd, cStr_snoc_length_iff]
        simp only [hd, false_or]

theorem word_length_le {code word : Str} {p : Nat} (hp : p ≤ code.length)
    (h : toComplete (readAt code) p = some word) : word.length ≤ p + 1 := by
  rw [toComplete_eq hp] at h
  rw [← Option.some.inj h]
  refine (cStr_length_le _).trans ?_
  have hword : (wordBefore code p).length ≤ p :=
    (List.rtakeWhile_suffix _ _).length_le.trans (List.length_take_le p code)
  split
  · omega
  · rw [List.length_append, List.length_singleton]
    omega

/-! ## The reply -/

/-- In the range of `int` the conversions cancel. -/
theorem toInt_sizeT {z : Int} (hlow : -1 ≤ z) (hhigh : z < 2 ^ 31) : toInt (sizeT z) = z := by
  unfold toInt sizeT
  rw [Int.bmod_def]
  split <;> omega

theorem sizeT_natCast {p : Nat} (h : p < 2 ^ 31) : sizeT p = p := by
  unfold sizeT
  omega

/-- The word before the cursor is replaced: only characters below the cursor are read for it, and the
reply goes from its first character to the cursor. -/
def ReplacesWord (codeComplete : Str → Nat → Nat → List Str) (code : Str) (p : Nat) : Prop :=
  ReadsBelow code p ∧ ∃ r, completeRequest codeComplete code p = some r ∧ r.cursorEnd = p ∧
    r.cursorStart = p - (wordBefore code p).length

/-- **The character at the cursor is always read.** The reply is the expected one exactly when that
character is a delimiter or a NUL, or there is none, and no NUL stands in the word. -/
theorem complete_iff (codeComplete : Str → Nat → Nat → List Str) (code : Str) (p : Nat)
    (hp : p ≤ code.length) (hint : p < 2 ^ 31) :
    ¬ ReplacesWord codeComplete code p ∧
      ∃ r, completeRequest codeComplete code p = some r ∧ r.cursorEnd = p ∧
        (r.cursorStart = p - (wordBefore code p).length ↔
          0 ∉ wordBefore code p ∧ ∀ c ∈ code[p]?, c ∈ delims ∨ c = 0) := by
  refine ⟨fun h => not_readsBelow hp h.1, ?_⟩
  obtain ⟨word, hword⟩ : ∃ word, toComplete (readAt code) p = some word := ⟨_, toComplete_eq hp⟩
  have hlen := word_length_le hp hword
  refine ⟨⟨codeComplete (cStr code) 1 ((p + 1) % 2 ^ 32), p - word.length, p⟩, ?_, rfl, ?_⟩
  · unfold completeRequest
    rw [sizeT_natCast hint, hword]
    show some _ = some _
    rw [toInt_sizeT (by omega) (by omega)]
  · rw [← word_length_iff hp hword]
    show (p : Int) - word.length = p - (wordBefore code p).length ↔ _
    omega

theorem complete_iff_st : ¬ ReplacesWord (fun _ _ _ => []) (lit "st") 2 ∧
    ∃ r, completeRequest (fun _ _ _ => []) (lit "st") (2 : Nat) = some r ∧ r.cursorEnd = (2 : Nat) ∧
      (r.cursorStart = (2 : Nat) - (wordBefore (lit "st") 2).length ↔
        0 ∉ wordBefore (lit "st") 2 ∧ ∀ c ∈ (lit "st")[2]?, c ∈ delims ∨ c = 0) :=
  complete_iff (fun _ _ _ => []) (lit "st") 2 (by decide) (by decide)

/-- In front of a word the reply begins before the text. -/
theorem completion_before_word :
    ¬ ReplacesWord (fun _ _ _ => []) (lit "st") 0 ∧
      completeRequest (fun _ _ _ => []) (lit "st") 0 = some ⟨[], -1, 0⟩ := by
  refine ⟨fun h => not_readsBelow (by decide) h.1, ?_⟩
  decide

end XeusCpp.Interpreter
