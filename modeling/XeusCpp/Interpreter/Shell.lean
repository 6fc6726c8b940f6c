/-
# XeusCpp.Interpreter.Shell — the output of a `!` command.

The output is read in pieces that end at a newline or where the buffer is full, and each piece is
inserted as a C string. Where the pieces end does not matter. A NUL byte does: the rest of its piece
is lost. And only what the redirection at the end of the command line sends into the pipe is read.

**`shell_output_iff`** says when all a command writes is inserted.
-/
import XeusCpp.Interpreter.Answers

namespace XeusCpp.Interpreter

open Text Host Magics Regex Logic

/-! ## The pieces -/

theorem fgets_append (n : Nat) (s : Str) : (fgets n s).1 ++ (fgets n s).2 = s := by
  fun_induction fgets n s with
  | case1 => rfl
  | case2 => rfl
  | case3 n s => rfl
  | case4 n c s _ r ih => exact congrArg (c :: ·) ih

/-- A buffer with room for a byte takes one. -/
theorem fgets_ne_nil {n : Nat} {s : Str} (hn : 0 < n) (hs : s ≠ []) : (fgets n s).1 ≠ [] := by
  obtain ⟨n, rfl⟩ := Nat.exists_eq_succ_of_ne_zero (Nat.ne_of_gt hn)
  obtain ⟨c, s, rfl⟩ := List.exists_cons_of_ne_nil hs
  rw [fgets]
  split
  · exact List.cons_ne_nil _ _
  · exact List.cons_ne_nil _ _

/-- What the rounds of the loop read. -/
def chunks : Nat → Str → List Str
  | 0, _ => []
  | _, [] => []
  | n + 1, s => (fgets 511 s).1 :: chunks n (fgets 511 s).2

theorem copied_eq_flatMap (n : Nat) (s : Str) : copied n s = (chunks n s).flatMap cStr := by
  fun_induction chunks n s with
  | case1 => rfl
  | case2 n _ => cases n <;> rfl
  | case3 n s hs ih =>
      rw [copied, ih, List.flatMap_cons]
      exact hs

/-- The pieces make up the whole. -/
theorem flatten_chunks {n : Nat} {s : Str} (h : s.length ≤ n) : (chunks n s).flatten = s := by
  induction n generalizing s with
  | zero =>
      rw [List.length_eq_zero_iff.mp (Nat.le_zero.mp h)]
      rfl
  | succ n ih =>
      by_cases hs : s = []
      · rw [hs]
        rfl
      · have hcut := fgets_append 511 s
        have hpos := List.length_pos_iff.mpr (fgets_ne_nil (n := 511) (by omega) hs)
        have hlen : (fgets 511 s).2.length ≤ n := by
          have := congrArg List.length hcut
          rw [List.length_append] at this
          omega
        rw [chunks, List.flatten_cons, ih hlen, hcut]
        exact hs

/-! ## C strings -/

theorem cStr_sublist (s : Str) : (cStr s).Sublist s := List.takeWhile_sublist _

theorem flatMap_cStr_sublist (xs : List Str) : (xs.flatMap cStr).Sublist xs.flatten := by
  induction xs with
  | nil => exact List.Sublist.refl _
  | cons x xs ih =>
      rw [List.flatMap_cons, List.flatten_cons]
      exact (cStr_sublist x).append ih

/-- Pieces inserted as C strings are whole exactly when no byte is NUL. -/
theorem flatMap_cStr_eq_iff (xs : List Str) :
    xs.flatMap cStr = xs.flatten ↔ (0 : Byte) ∉ xs.flatten := by
  induction xs with
  | nil => simp
  | cons x xs ih =>
      rw [List.flatMap_cons, List.flatten_cons, List.mem_append, not_or, ← cStr_eq_self_iff, ← ih]
      constructor
      · intro h
        -- nothing grows, so both parts have kept their length
        have hx := (cStr_sublist x).length_le
        have hxs := (flatMap_cStr_sublist xs).length_le
        have hlen := congrArg List.length h
        rw [List.length_append, List.length_append] at hlen
        exact ⟨(cStr_sublist x).eq_of_length (by omega),
          (flatMap_cStr_sublist xs).eq_of_length (by omega)⟩
      · rintro ⟨hx, hxs⟩
        rw [hx, hxs]

theorem copied_sublist (s : Str) : (copied s.length s).Sublist s := by
  have h := flatMap_cStr_sublist (chunks s.length s)
  rwa [← copied_eq_flatMap, flatten_chunks (Nat.le_refl _)] at h

theorem copied_eq_self_iff {s : Str} : copied s.length s = s ↔ (0 : Byte) ∉ s := by
  have h := flatMap_cStr_eq_iff (chunks s.length s)
  rwa [← copied_eq_flatMap, flatten_chunks (Nat.le_refl _)] at h

/-! ## The command -/

variable {J : Type}

/-- **All a command writes is inserted exactly when** it all goes into the pipe, and no byte of it is
NUL. -/
theorem shell_output_iff (sys : System J) (code : Str) (res : KernelRes) (w : World)
    {output written : Str} {disk : Disk}
    (hpopen : sys.popen (cStr (group? (search reSystem code) 1 ++ lit " 2>&1")) w.disk =
      some (output, disk))
    (hpipe : output.Sublist written) :
    (sys.shellApply code res w).2.out = w.out ++ written ↔
      output = written ∧ (0 : Byte) ∉ written := by
  have hout : (sys.shellApply code res w).2.out = w.out ++ copied output.length output := by
    rw [System.shellApply]
    simp only [hpopen]
    rfl
  rw [hout, List.append_cancel_left_eq]
  constructor
  · intro h
    have hlen := (copied_sublist output).length_le
    rw [h] at hlen
    have heq : output = written := hpipe.eq_of_length (Nat.le_antisymm hpipe.length_le hlen)
    subst heq
    exact ⟨rfl, copied_eq_self_iff.mp h⟩
  · rintro ⟨rfl, hnul⟩
    exact copied_eq_self_iff.mpr hnul

/-- A shell in which every command prints `s`. -/
def printing (s : Str) : System Json := { bareSystem with popen := fun _ disk => some (s, disk) }

theorem shell_output_line :
    ((printing (lit "a\nb")).shellApply (lit "!printf 'a\\nb'") .new .fresh).2.out = lit "a\nb" :=
  (shell_output_iff (printing (lit "a\nb")) (lit "!printf 'a\\nb'") .new .fresh rfl
    (List.Sublist.refl _)).mpr ⟨rfl, by decide⟩

/-- What stands behind a NUL byte in its line is lost. -/
theorem nul_cuts_output :
    ((printing (97 :: 0 :: lit "b\nc")).shellApply (lit "!printf 'a\\0b\\nc'") .new .fresh).2.out =
      lit "ac" ∧ lit "ac" ≠ 97 :: 0 :: lit "b\nc" := by
  decide

end XeusCpp.Interpreter
