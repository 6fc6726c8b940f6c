/-
# XeusCpp.Validator.Indent — the expected indent, call after call.

`validate` writes the indent only where its size is not zero, and computes the size in `std::size_t`.
So a call that expects no indent leaves the one it found, a size that wraps is another one, and one
that no string has is not written at all. **`indent_exact_iff`**: the indents of a sequence of calls
are the expected ones exactly when none of this happens in it.

How much is open behind a call is read off its text (`Ending`).
-/
import XeusCpp.Logic.Session
import XeusCpp.Validator.Calls
import XeusCpp.Validator.Opened

namespace XeusCpp.Validator

open XeusCpp.Text XeusCpp.Logic

variable {z : SizeT}

/-! ## One call -/

/-- What a call that ends with the verdict `r` returns or throws, and the validator behind it. -/
def Verdict.sized (z : SizeT) (r : Verdict) (v : XInputValidator) (input : Str) (n : BitVec z.width) :
    Except LengthError ValidationResult × XInputValidator :=
  let k := BitVec.ofNat z.width (leadingBlanks input) + BitVec.ofNat z.width r.stack.length * n
  if k = 0 then (.ok r.status, ⟨r.stack, v.indent⟩)
  else if z.maxSize < k.toNat then (.error .tooLong, ⟨r.stack, v.indent⟩)
  else (.ok r.status, ⟨r.stack, spaces k.toNat⟩)

section

variable (v : XInputValidator) (input : Str) (n : BitVec z.width)

theorem validateSized_eq : v.validateSized z input n =
    (scanner.run (v.start input)).map fun r => r.sized z v input n := by
  rw [XInputValidator.validateSized, scanInput_eq]
  cases scanner.run (v.start input) with
  | none => rfl
  | some r =>
      show (if _ then _ else if _ then _ else _) = some (r.sized z v input n)
      unfold Verdict.sized
      dsimp only
      split_ifs <;> rfl

/-- The size in `std::size_t`. -/
theorem toNat_indentSize (blanks opened : Nat) :
    (BitVec.ofNat z.width blanks + BitVec.ofNat z.width opened * n).toNat =
      (blanks + n.toNat * opened) % 2 ^ z.width := by
  rw [BitVec.toNat_add, BitVec.toNat_mul, BitVec.toNat_ofNat, BitVec.toNat_ofNat, Nat.mul_comm n.toNat]
  simp [Nat.add_mod, Nat.mul_mod]

theorem stack_sized (r : Verdict) : (r.sized z v input n).2.parentStack = r.stack := by
  unfold Verdict.sized
  dsimp only
  split_ifs <;> rfl

/-- What a call keeps is a string. -/
theorem length_indent_sized (r : Verdict) (hv : v.indent.length ≤ z.maxSize) :
    (r.sized z v input n).2.indent.length ≤ z.maxSize := by
  unfold Verdict.sized
  dsimp only
  split_ifs with h0 hlong
  · exact hv
  · exact hv
  · rw [spaces, List.length_replicate]
    exact Nat.le_of_not_lt hlong

/-- **The step lemma**: the indent behind a call is the expected one when a string has that size, and
there was none before or this one is written. -/
theorem indent_sized (r : Verdict) (hv : v.indent.length ≤ z.maxSize) :
    (r.sized z v input n).2.indent = spaces (leadingBlanks input + n.toNat * r.stack.length) ↔
      leadingBlanks input + n.toNat * r.stack.length ≤ z.maxSize ∧
        (v.indent = [] ∨ 0 < leadingBlanks input + n.toNat * r.stack.length) := by
  have hk := toNat_indentSize n (leadingBlanks input) r.stack.length
  unfold Verdict.sized
  generalize leadingBlanks input + n.toNat * r.stack.length = size at hk ⊢
  generalize BitVec.ofNat z.width (leadingBlanks input) +
    BitVec.ofNat z.width r.stack.length * n = k at hk ⊢
  have hfits := z.maxSize_lt
  -- an indent that is kept is no longer than a string
  have hkept (hlong : z.maxSize < size) : v.indent ≠ spaces size := by
    intro heq
    rw [heq, spaces, List.length_replicate] at hv
    omega
  have hsame : size ≤ z.maxSize → k.toNat = size := fun h => by
    rw [hk, Nat.mod_eq_of_lt (by omega)]
  dsimp only
  split_ifs with h0 hlong
  · have hzero : k.toNat = 0 := by
      rw [h0]
      rfl
    by_cases hsize : size ≤ z.maxSize
    · have : size = 0 := (hsame hsize).symm.trans hzero
      simp [this, spaces]
    · exact iff_of_false (hkept (by omega)) fun h => hsize h.1
  · have hsize : z.maxSize < size := by
      have := Nat.mod_le size (2 ^ z.width)
      omega
    exact iff_of_false (hkept hsize) (by omega)
  · have hpos : 0 < k.toNat := by
      rw [Nat.pos_iff_ne_zero]
      exact fun hzero => h0 (BitVec.eq_of_toNat_eq hzero)
    constructor
    · intro heq
      have hlen := congrArg List.length heq
      rw [spaces, spaces, List.length_replicate, List.length_replicate] at hlen
      omega
    · rintro ⟨hsize, -⟩
      rw [hsame hsize]

end

/-- Where the size is that of a string, it may be computed as a number. -/
theorem validateSized_eq_validate {v : XInputValidator} {input : Str} {n : BitVec z.width}
    (h : ∀ res v', v.validate input n.toNat = some (res, v') →
      leadingBlanks input + n.toNat * v'.parentStack.length ≤ z.maxSize) :
    v.validateSized z input n = (v.validate input n.toNat).map fun p => (.ok p.1, p.2) := by
  rw [validate_eq] at h ⊢
  rw [validateSized_eq]
  cases hrun : scanner.run (v.start input) with
  | none => rfl
  | some r =>
      have hsize := h r.status (r.after v input n.toNat) (by rw [hrun]; rfl)
      have hk := toNat_indentSize n (leadingBlanks input) r.stack.length
      have hfits := z.maxSize_lt
      change leadingBlanks input + n.toNat * r.stack.length ≤ z.maxSize at hsize
      rw [Nat.mod_eq_of_lt (by omega), Nat.mul_comm] at hk
      rw [Nat.mul_comm] at hsize
      rw [Option.map_some, Option.map_some, Option.map_some]
      unfold Verdict.sized Verdict.after
      generalize leadingBlanks input + r.stack.length * n.toNat = size at hk hsize ⊢
      generalize BitVec.ofNat z.width (leadingBlanks input) +
        BitVec.ofNat z.width r.stack.length * n = k at hk ⊢
      have hzero : k = 0 ↔ size = 0 := by
        rw [← hk]
        exact ⟨fun h => by rw [h]; rfl, fun h => BitVec.eq_of_toNat_eq (h.trans rfl)⟩
      dsimp only
      by_cases h0 : size = 0
      · rw [if_pos (hzero.mpr h0), if_neg (not_not_intro h0)]
      · rw [if_neg (fun hk0 => h0 (hzero.mp hk0)), if_neg (by omega), if_pos h0, hk]
        rfl

/-! ## Sequences of calls -/

/-- Calls of `validate` on one validator; one that throws leaves it for the next. -/
def sizedService (z : SizeT) : Service XInputValidator (Str × BitVec z.width)
    (Except LengthError ValidationResult) := fun v c =>
  (v.validateSized z c.1 c.2).map fun p => (p.2, p.1)

/-- The indent behind a call is the expected one: the blanks its text starts with, and as many for
each entry of the stack as the call says. -/
def IndentExact (z : SizeT) (v : XInputValidator) (c : Str × BitVec z.width) : Prop :=
  ∀ v' res, sizedService z v c = some (v', res) →
    v'.getExpectedIndent = spaces (leadingBlanks c.1 + c.2.toNat * v'.parentStack.length)

/-- What the text of a call leaves open, on top of the open `o`, has an indent that a string can be,
and it is not empty unless the one before it was. -/
def IndentFits (z : SizeT) (v : XInputValidator) (c : Str × BitVec z.width) : Prop :=
  ∀ (o o' : Opened) (cont stray : Bool), v.parentStack = o.stack →
    Ending (o.enter c.1) false c.1 o' cont stray →
    leadingBlanks c.1 + c.2.toNat * o'.size ≤ z.maxSize ∧
      (v.indent = [] ∨ 0 < leadingBlanks c.1 + c.2.toNat * o'.size)

/-- What a validator keeps: what is open, and a string. -/
structure Kept (z : SizeT) (v : XInputValidator) : Prop where
  opened : ∃ o : Opened, v.parentStack = o.stack
  indent : v.indent.length ≤ z.maxSize

section

variable {v v' : XInputValidator} {c : Str × BitVec z.width}

/-- A call, by its verdict. -/
theorem sizedService_eq_some {res : Except LengthError ValidationResult} :
    sizedService z v c = some (v', res) ↔
      ∃ r, scanner.run (v.start c.1) = some r ∧ r.sized z v c.1 c.2 = (res, v') := by
  rw [sizedService, validateSized_eq, Option.map_map, Option.map_eq_some_iff]
  refine exists_congr fun r => and_congr_right fun _ => ?_
  constructor
  · intro h
    have hsized : ((r.sized z v c.1 c.2).2, (r.sized z v c.1 c.2).1) = (v', res) := h
    cases hsized
    rfl
  · intro h
    show ((r.sized z v c.1 c.2).2, (r.sized z v c.1 c.2).1) = _
    rw [h]

/-- What is open behind the run of a call is what its text leaves open. -/
theorem run_call_iff {o : Opened} (hv : v.parentStack = o.stack) {st : Stack} :
    (∃ r, scanner.run (v.start c.1) = some r ∧ r.stack = st) ↔
      ∃ o' cont stray, Ending (o.enter c.1) false c.1 o' cont stray ∧ st = o'.stack := by
  rw [start_opened hv]
  constructor
  · rintro ⟨r, hrun, rfl⟩
    obtain ⟨o', hending, hstack⟩ := ending_of_run hrun
    exact ⟨o', _, _, hending, hstack⟩
  · rintro ⟨o', cont, stray, hending, rfl⟩
    obtain ⟨r, hrun, hstack, -⟩ := run_of_ending (l := .unknown) hending
    exact ⟨r, hrun, hstack⟩

theorem Kept.step (h : Kept z v) {res : Except LengthError ValidationResult}
    (hstep : sizedService z v c = some (v', res)) : Kept z v' := by
  obtain ⟨r, hrun, hsized⟩ := sizedService_eq_some.mp hstep
  obtain ⟨o, ho⟩ := h.opened
  obtain ⟨o', -, -, -, hstack⟩ := (run_call_iff ho).mp ⟨r, hrun, rfl⟩
  have hv' : (r.sized z v c.1 c.2).2 = v' := congrArg Prod.snd hsized
  refine ⟨⟨o', ?_⟩, ?_⟩
  · rw [← hv', stack_sized, hstack]
  · rw [← hv']
    exact length_indent_sized v c.1 c.2 r h.indent

/-- One call. -/
theorem indentExact_iff (h : Kept z v) : IndentExact z v c ↔ IndentFits z v c := by
  have hexact (r : Verdict) := indent_sized v c.1 c.2 r h.indent
  constructor
  · intro hex o o' cont stray ho hending
    obtain ⟨r, hrun, hstack⟩ := (run_call_iff ho).mpr ⟨o', cont, stray, hending, rfl⟩
    have hstep : sizedService z v c =
        some ((r.sized z v c.1 c.2).2, (r.sized z v c.1 c.2).1) :=
      sizedService_eq_some.mpr ⟨r, hrun, rfl⟩
    have hind := hex _ _ hstep
    rw [stack_sized] at hind
    have := (hexact r).mp hind
    rwa [hstack, length_stack] at this
  · intro hfits v' res hstep
    obtain ⟨r, hrun, hsized⟩ := sizedService_eq_some.mp hstep
    obtain ⟨o, ho⟩ := h.opened
    obtain ⟨o', cont, stray, hending, hstack⟩ := (run_call_iff ho).mp ⟨r, hrun, rfl⟩
    have hfit := hfits o o' cont stray ho hending
    rw [← length_stack, ← hstack] at hfit
    have hv' : (r.sized z v c.1 c.2).2 = v' := congrArg Prod.snd hsized
    rw [← hv', stack_sized]
    exact (hexact r).mpr hfit

end

/-- **The indents of a sequence of calls are exact exactly when each fits**, in the state the calls
before it leave. -/
theorem indent_exact_iff (z : SizeT) (calls : List (Str × BitVec z.width)) :
    (sizedService z).Always (IndentExact z) {} calls ↔
      (sizedService z).Always (IndentFits z) {} calls :=
  Service.always_congr (I := Kept z) (fun h hstep => h.step hstep)
    (fun _ h => indentExact_iff h) ⟨⟨{}, rfl⟩, Nat.zero_le _⟩ calls

/-- A platform of 64 bits. -/
def sizes64 : SizeT := ⟨64, 2 ^ 63 - 1, by decide⟩

/-- The line that closes the last bracket leaves the indent of the line before. -/
theorem stale_indent :
    ¬ (sizedService sizes64).Always (IndentExact sizes64) {} [(lit "\x7b", 4), (lit "\x7d", 4)] := by
  rintro ⟨-, h⟩
  have hopen : sizedService sizes64 {} (lit "\x7b", 4) =
      some (⟨[.lBrace], spaces 4⟩, .ok .incomplete) := by decide +kernel
  have hclose : sizedService sizes64 ⟨[.lBrace], spaces 4⟩ (lit "\x7d", 4) =
      some (⟨[], spaces 4⟩, .ok .complete) := by decide +kernel
  have heq := (h _ _ hopen).1 _ _ hclose
  exact absurd heq (by decide)

end XeusCpp.Validator
