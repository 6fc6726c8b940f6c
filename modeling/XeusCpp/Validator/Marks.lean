/-
# XeusCpp.Validator.Marks — what is on the stack, at any time.

The rules for comments and templates look at one place of the stack each: a comment is open when its
marker is on top, a template when its marker is all there is. They rely on the form of the stack, which
no pass of the loop, no mismatch and no later call breaks.

**`stack_marks`** states it for every pass of every call of a sequence.
-/
import XeusCpp.Validator.Calls

namespace XeusCpp.Validator

open XeusCpp.Text XeusCpp.Logic

/-! ## The passes of a call -/

/-- The condition of the loop. -/
def LoopState.Continues (s : LoopState) : Prop := s.tok.kind ≠ .eof ∧ s.res ≠ .mismatch

/-- The states of the loop that starts in `s₀`: that one, and the one behind each pass. -/
inductive Visits (input : Str) (s₀ : LoopState) : LoopState → Prop
  | start : Visits input s₀ s₀
  | pass {s s' : LoopState} : Visits input s₀ s → s.Continues → loopBody input s = some s' →
      Visits input s₀ s'

/-- The state the loop of a call starts in. -/
def XInputValidator.LoopStart (v : XInputValidator) (input : Str) (s₀ : LoopState) : Prop :=
  ∃ st k p, pushTemplate v.parentStack input = some st ∧ skipWhitespace input 0 = some (k, p) ∧
    s₀ = { currPos := p, stack := st }

theorem loop_of_visits {input : Str} {s₀ s : LoopState} (h : Visits input s₀ s)
    (hs : s.Continues) : loop input s₀ = loop input s := by
  induction h with
  | start => rfl
  | pass _ hcont hbody ih =>
      rw [ih hcont, loop_of_some hbody]
      exact if_pos hs

/-- A call that stays inside its text has a loop that does. -/
theorem isSome_loop {v : XInputValidator} {input : Str} {n : Nat} {s₀ : LoopState}
    (h : (v.validate input n).isSome) (hs₀ : v.LoopStart input s₀) : (loop input s₀).isSome := by
  obtain ⟨st, k, p, hpush, hskip, rfl⟩ := hs₀
  cases hloop : loop input { currPos := p, stack := st } with
  | some s => rfl
  | none =>
      unfold XInputValidator.validate XInputValidator.scanInput at h
      simp [hpush, hskip, hloop] at h

/-! ## The form of the stack -/

/-- The markers, and the places of two of them. -/
structure MarkedStack (st : Stack) : Prop where
  markers : ∀ k ∈ st, k = .lSquare ∨ k = .lParen ∨ k = .lBrace ∨ k = .lComment ∨ k = .hash ∨ k = .less
  /-- A comment marker is on top, so there is one at most. -/
  comment : .lComment ∉ st.tail
  /-- A template marker is at the bottom, so there is one at most. -/
  template : .less ∉ st.dropLast

theorem TokenKind.isGroup.ne_lComment {k : TokenKind} (h : k.isGroup) : k ≠ .lComment := by
  rintro rfl
  unfold TokenKind.isGroup at h
  simp at h

theorem TokenKind.isGroup.ne_less {k : TokenKind} (h : k.isGroup) : k ≠ .less := by
  rintro rfl
  unfold TokenKind.isGroup at h
  simp at h

theorem Groups.mem {st : Stack} (h : Groups st) {k : TokenKind} (hk : k ∈ st) :
    k.isGroup ∨ k = .less := by
  induction h with
  | nil => exact absurd hk List.not_mem_nil
  | template => exact .inr (List.mem_singleton.mp hk)
  | group hg _ ih =>
      rcases List.mem_cons.mp hk with rfl | hk
      · exact .inl hg
      · exact ih hk

theorem Groups.not_mem_lComment {st : Stack} (h : Groups st) : .lComment ∉ st := by
  intro hmem
  rcases h.mem hmem with hg | hl
  · exact hg.ne_lComment rfl
  · exact absurd hl (by decide)

theorem Groups.not_mem_dropLast {st : Stack} (h : Groups st) : .less ∉ st.dropLast := by
  induction h with
  | nil => exact List.not_mem_nil
  | template => exact List.not_mem_nil
  | @group k st hg hst ih =>
      intro hmem
      cases st with
      | nil => exact absurd hmem List.not_mem_nil
      | cons top st =>
          rcases List.mem_cons.mp hmem with hk | hmem
          · exact hg.ne_less hk.symm
          · exact ih hmem

theorem Groups.markers {st : Stack} (h : Groups st) {k : TokenKind} (hk : k ∈ st) :
    k = .lSquare ∨ k = .lParen ∨ k = .lBrace ∨ k = .lComment ∨ k = .hash ∨ k = .less := by
  rcases h.mem hk with (h | h | h | h) | h
  · exact .inl h
  · exact .inr (.inl h)
  · exact .inr (.inr (.inl h))
  · exact .inr (.inr (.inr (.inr (.inl h))))
  · exact .inr (.inr (.inr (.inr (.inr h))))

theorem Shape.marked {st : Stack} (h : Shape st) : MarkedStack st := by
  cases h with
  | groups h =>
      exact ⟨fun _ hk => h.markers hk, fun hmem => h.not_mem_lComment (List.mem_of_mem_tail hmem),
        h.not_mem_dropLast⟩
  | @comment st h =>
      refine ⟨fun k hk => ?_, h.not_mem_lComment, ?_⟩
      · rcases List.mem_cons.mp hk with rfl | hk
        · exact .inr (.inr (.inr (.inl rfl)))
        · exact h.markers hk
      · intro hmem
        cases st with
        | nil => exact absurd hmem List.not_mem_nil
        | cons top st =>
            rcases List.mem_cons.mp hmem with hk | hmem
            · exact absurd hk (by decide)
            · exact h.not_mem_dropLast hmem

theorem Shape.startStack {st : Stack} (h : Shape st) (input : Str) : Shape (startStack st input) := by
  unfold Validator.startStack
  split
  · exact .groups .template
  · exact h

/-! ## One pass, one call, all calls -/

/-- A scan halts with the stack it has. -/
theorem stack_of_halt {c : Config} {r : Verdict} (h : scanMove c = .halt r) : r.stack = c.stack := by
  unfold scanMove takeItem at h
  split at h
  · cases h
  · split at h
    · cases h
      rfl
    · split at h
      · cases h
        rfl
      · cases h

section

variable {input : Str} {s s' s₀ : LoopState}

/-- **The step lemma**: a pass keeps the form of the stack, also one that meets a mismatch or the end
of the text. -/
theorem Shape.loopBody (h : Shape s.stack) (hs : Entered input s)
    (hbody : loopBody input s = some s') :
    Shape s'.stack ∧ (s'.Continues → Entered input s') := by
  rcases loopBody_spec hs with ⟨hnone, -⟩ | ⟨s'', hbody', hafter⟩
  · rw [hnone] at hbody
    cases hbody
  cases hbody.symm.trans hbody'
  cases hmove : scanMove (configOf input s) with
  | stuck =>
      rw [hmove] at hafter
      exact hafter.elim
  | halt r =>
      rw [hmove] at hafter
      obtain ⟨hend, hstack, -, -⟩ := hafter
      refine ⟨?_, fun hcont => ?_⟩
      · rw [hstack, stack_of_halt hmove]
        exact h
      · rcases hend with hend | hend
        · exact absurd hend hcont.1
        · exact absurd hend hcont.2
  | next c =>
      rw [hmove] at hafter
      obtain ⟨-, hentered, rfl⟩ := hafter
      exact ⟨Shape.reaches (Machine.Reaches.single hmove) h, fun _ => hentered⟩

/-- The run lemma of one call. -/
theorem Shape.visits (h : Shape s₀.stack) (h₀ : Entered input s₀) (hs : Visits input s₀ s) :
    Shape s.stack ∧ (s.Continues → Entered input s) := by
  induction hs with
  | start => exact ⟨h, fun _ => h₀⟩
  | pass _ hcont hbody ih => exact ih.1.loopBody (ih.2 hcont) hbody

end

section

variable {v : XInputValidator} {input : Str} {n : Nat}

/-- The loop of a call starts behind the blanks, with the template marker or without. -/
theorem XInputValidator.LoopStart.entered {s₀ : LoopState} (h : v.LoopStart input s₀) :
    Entered input s₀ ∧ s₀.stack = startStack v.parentStack input := by
  obtain ⟨st, k, p, hpush, hskip, rfl⟩ := h
  rw [skipWhitespace_zero] at hskip
  cases hskip
  refine ⟨⟨leadingBlanks_le input, rfl⟩, ?_⟩
  rw [pushTemplate_eq] at hpush
  split at hpush
  · cases hpush
  · exact (Option.some.inj hpush).symm

/-- What a call does to the stack: no pass of its loop leaves the text or pops what is not there, the
form of the stack holds throughout, and a call that reports `complete` leaves nothing open. -/
structure KeepsMarks (v : XInputValidator) (input : Str) (n : Nat) : Prop where
  before : MarkedStack v.parentStack
  during : ∀ s₀ s, v.LoopStart input s₀ → Visits input s₀ s →
    MarkedStack s.stack ∧ (s.Continues → (loopBody input s).isSome)
  after : ∃ res v', v.validate input n = some (res, v') ∧ MarkedStack v'.parentStack ∧
    (res = .complete → v'.parentStack = [])

theorem stack_of_complete {r : Verdict} (h : r.status = .complete) : r.stack = [] := by
  unfold Verdict.status at h
  split at h
  · cases h
  next hinc =>
    split at h
    · cases h
    next hrej =>
      by_contra hstack
      exact hinc (.inr (.inr ⟨hstack, by simpa using hrej⟩))

/-- A call on a stack of the right form, with closed literals. -/
theorem Shape.validate (h : Shape v.parentStack) (hclosed : LiteralsClosed v input) (n : Nat) :
    KeepsMarks v input n ∧
      ∀ res v', v.validate input n = some (res, v') → Shape v'.parentStack := by
  have hsome := (isSome_validate v input n).mpr hclosed
  obtain ⟨⟨res, v'⟩, hval⟩ := Option.isSome_iff_exists.mp hsome
  obtain ⟨r, hrun, heq⟩ := Option.map_eq_some_iff.mp ((validate_eq input v n).symm.trans hval)
  obtain ⟨e, it, rest, hreach, -, hstack, -, -⟩ := end_of_run hrun
  have hshape : Shape r.stack := by
    rw [hstack]
    exact Shape.reaches hreach (h.startStack input)
  cases heq
  refine ⟨⟨h.marked, ?_, _, _, hval, hshape.marked, stack_of_complete⟩, ?_⟩
  · intro s₀ s hstart hvisits
    obtain ⟨hentered, hs₀⟩ := hstart.entered
    have hs := Shape.visits (hs₀ ▸ h.startStack input) hentered hvisits
    refine ⟨hs.1.marked, fun hcont => ?_⟩
    -- a pass that fails makes the whole call fail
    by_contra hbody
    have hloop := isSome_loop hsome hstart
    rw [loop_of_visits hvisits hcont,
      loop_of_none (Option.not_isSome_iff_eq_none.mp hbody)] at hloop
    cases hloop
  · intro res v' hval'
    cases hval.symm.trans hval'
    exact hshape

end

theorem Shape.calls {v : XInputValidator} (h : Shape v.parentStack) (calls : List (Str × Nat))
    (hclosed : AllLiteralsClosed v calls) : AllCalls KeepsMarks v calls := by
  induction calls generalizing v with
  | nil => exact trivial
  | cons call calls ih =>
      obtain ⟨hkeeps, hnext⟩ := h.validate hclosed.1 call.2
      exact ⟨hkeeps, fun res v' hval => ih (hnext res v' hval) (hclosed.2 res v' hval)⟩

/-- **The stack keeps its form** in every pass of every call, and no pass pops from an empty one. -/
theorem stack_marks (calls : List (Str × Nat)) (hclosed : AllLiteralsClosed {} calls) :
    AllCalls KeepsMarks {} calls := Shape.calls (.groups .nil) calls hclosed

/-- A template that is left open by one call and closed by the next, which opens a comment. -/
theorem stack_marks_template :
    AllCalls KeepsMarks {} [(lit "template<class T> class A \x7b", 4), (lit "]\x7d /*", 4)] := by
  apply stack_marks
  refine ⟨(isSome_validate _ _ 4).mp (by decide +kernel), fun res v' hval => ?_⟩
  have hfirst : ({} : XInputValidator).validate (lit "template<class T> class A \x7b") 4 =
      some (.incomplete, ⟨[.lBrace, .less], spaces 8⟩) := by decide +kernel
  cases hfirst.symm.trans hval
  exact ⟨(isSome_validate _ _ 4).mp (by decide +kernel), fun _ _ _ => trivial⟩

end XeusCpp.Validator
