/-
# XeusCpp.Interpreter.Answers — when a request is answered.

On the way to the compiler every exception is caught, and the request is answered once, with an error
exactly when the compiler failed or threw; the error is published unless the request is silent. A
magic and a shell command answer as well. A query does when the documentation lookup returns, so
when the configuration directory is in order.
-/
import XeusCpp.Interpreter.Execute
import XeusCpp.Interpreter.Lookup

namespace XeusCpp.Interpreter

open Text Host Magics Regex Logic

variable {J : Type}

/-! ## Which preamble answers -/

theorem search_head (x : Byte) (r : Cursor → Option Match) (code : Str) :
    ((Regex.char x).exec r ⟨0, code, []⟩).isSome →
      code.head? = some x := by
  intro h
  by_contra hne
  rw [exec_char_none hne] at h
  cases h

/-- A pattern that asks for a first byte matches by that byte. -/
theorem isSome_search_char (x : Byte) (code : Str) :
    (search (seq bos (Regex.char x)) code).isSome ↔ code.head? = some x := by
  rw [search_bos, matchAt]
  constructor
  · exact search_head x _ code
  · intro h
    cases code with
    | nil => cases h
    | cons c s =>
        cases h
        rw [exec_char (c := ⟨0, x :: s, []⟩) rfl]
        rfl

/-- A cell is a query by its first byte. -/
theorem isMatch_introspection (code : Str) :
    Preamble.introspection.isMatch code = true ↔ code.head? = some ('?' : Char) :=
  isSome_search_char _ code

/-- The cell is handed to the compiler. -/
def IsCell (code : Str) : Prop := Preamble.all.find? (·.isMatch code) = none

/-- The query comes first among the preambles, so it takes every cell it matches. -/
theorem find_introspection {code : Str} :
    Preamble.all.find? (·.isMatch code) = some .introspection ↔
      code.head? = some ('?' : Char) := by
  rw [← isMatch_introspection]
  constructor
  · intro h
    exact List.find?_some (p := fun pre : Preamble => pre.isMatch code) h
  · exact fun h => List.find?_cons_of_pos (p := fun pre : Preamble => pre.isMatch code) h

/-! ## The preambles publish text only -/

theorem introspectionApply_textOnly (sys : System J) (code : Str) (k : Kernel) :
    TextOnly k (sys.introspectionApply code k).2 := by
  obtain ⟨n, hn⟩ := sys.introspectionApply_outputs code k
  have hcount : TextOnly k { k with varCount := n } := TextOnly.of_events rfl
  exact hcount.trans (TextOnly.of_outputs hn)

/-- No preamble replies by itself, or publishes an error. -/
theorem preambleApply_textOnly (sys : System J) (pre : Preamble) (code : Str) (k : Kernel) :
    TextOnly k (sys.preambleApply pre code k).2 := by
  cases pre with
  | introspection => exact introspectionApply_textOnly sys code k
  | magics => exact TextOnly.run k _
  | shell => exact TextOnly.run k _

/-- A query returns exactly when its lookup does. -/
theorem succeeds_introspection (sys : System J) (code : Str) (k : Kernel) :
    Succeeds (sys.introspectionApply code k).1 ↔
      Succeeds (sys.inspect k.disk (introspected code) k.varCount).1 := by
  unfold System.introspectionApply
  constructor
  · intro h
    split at h
    · obtain ⟨a, ha⟩ := h
      cases ha
    next result n heq =>
      rw [heq]
      exact ⟨result, rfl⟩
  · intro h
    split
    next e n heq =>
      rw [heq] at h
      obtain ⟨a, ha⟩ := h
      cases ha
    next =>
      dsimp only
      split <;> exact ⟨_, rfl⟩

/-! ## The compiler -/

/-- The cell was not accepted, or it threw. -/
def Result.failed : Result → Bool
  | .returned failed => failed
  | .exception _ => true
  | .other => true

/-- The error level says so. -/
theorem errorlevel_eq_zero (r : Result) (err : Str) :
    ((System.evaluation r).withCompilation err).errorlevel = 0 ↔ r.failed = false := by
  cases r with
  | returned failed => cases failed <;> simp [System.evaluation, Result.failed,
      System.Evaluation.withCompilation]
  | exception what => simp [System.evaluation, Result.failed, System.Evaluation.withCompilation]
  | other => simp [System.evaluation, Result.failed, System.Evaluation.withCompilation]

theorem silence_textOnly (silent : Bool) (k : Kernel) : TextOnly k (System.silence silent k) := by
  cases silent <;> exact TextOnly.of_events rfl

theorem unsilence_textOnly (silent : Bool) (old k : Kernel) :
    TextOnly k (System.unsilence silent old k) := by
  cases silent <;> exact TextOnly.of_events rfl

/-- The captures hand their text to the streams, which may publish it. -/
theorem captured_textOnly (outcome : Outcome) (k : Kernel) :
    TextOnly k (System.captured outcome k).2 := by
  let begun := (k.beginCapture .err).beginCapture .out
  have hbegun : TextOnly k begun := TextOnly.of_events rfl
  have hrun := TextOnly.writes begun outcome.writes
  let ran : Kernel := { outcome.writes.foldl Kernel.write begun with disk := outcome.disk }
  have hran : TextOnly (outcome.writes.foldl Kernel.write begun) ran := TextOnly.of_events rfl
  have hends := (TextOnly.endCapture ran).trans (TextOnly.endCapture ran.endCapture.2)
  have hput := TextOnly.of_outputs (Outputs.putCout ran.endCapture.2.endCapture.2 ran.endCapture.1)
  exact hbegun.trans (hrun.trans (hran.trans (hends.trans hput)))

theorem silence_disk (silent : Bool) (k : Kernel) : (System.silence silent k).disk = k.disk := by
  cases silent <;> rfl

/-- The compiler path, up to the text it writes: the answer to the evaluation, then the reply. -/
theorem compile_spec (sys : System J) (code : Str) (config : Config) (k : Kernel) :
    ∃ k' e, TextOnly k k' ∧
      (e.errorlevel = 0 ↔ (sys.process (cStr code) k.disk).result.failed = false) ∧
      sys.compile code config k = System.unsilence config.silent k
        ((System.answer config e k').2.emit (.reply (System.answer config e k').1)) := by
  let silenced := System.silence config.silent k
  let outcome := sys.process (cStr code) silenced.disk
  let err := System.captured outcome silenced
  let e := (System.evaluation outcome.result).withCompilation err.1
  let k' := if e.compilationResult then err.2.putCerr err.1 else err.2
  have herr : TextOnly k err.2 :=
    (silence_textOnly config.silent k).trans (captured_textOnly outcome silenced)
  have hk' : Outputs err.2 k' := by
    dsimp only [k']
    split
    · exact Outputs.putCerr _ _
    · exact Outputs.refl _
  have hflush := hk'.trans ((Outputs.flushCout k').trans (Outputs.flushCerr _))
  refine ⟨k'.flushCout.flushCerr, e, herr.trans (TextOnly.of_outputs hflush), ?_, rfl⟩
  rw [← silence_disk config.silent k]
  exact errorlevel_eq_zero _ _

/-! ## Answers -/

/-- A reply is logged as a reply. -/
theorem emit_reply (k : Kernel) (res : KernelRes) :
    (k.emit (.reply res)).replies = k.replies ++ [res] ∧
      (k.emit (.reply res)).errors = k.errors := by
  simp [Kernel.emit, Kernel.replies, Kernel.errors, Event.reply?, Event.error?]

theorem emit_error (k : Kernel) (e : ExecutionError) :
    (k.emit (.executionError e)).replies = k.replies ∧
      (k.emit (.executionError e)).errors = k.errors ++ [e] := by
  simp [Kernel.emit, Kernel.replies, Kernel.errors, Event.reply?, Event.error?]

/-- What is promised of one request. -/
structure Answered (sys : System J) (code : Str) (config : Config) (k : Kernel) : Prop where
  returns : (sys.execute code config k).1 = .returned
  once : ∃ res, (sys.execute code config k).2.replies = k.replies ++ [res]
  status : IsCell code → ∀ res, (sys.execute code config k).2.replies = k.replies ++ [res] →
    (res.status = some .error ↔ (sys.process (cStr code) k.disk).result.failed = true)
  published : IsCell code → (sys.process (cStr code) k.disk).result.failed = true →
    config.silent = false → ∃ e, (sys.execute code config k).2.errors = k.errors ++ [e] ∧
      (sys.execute code config k).2.replies =
        k.replies ++ [createErrorReply e.ename e.evalue e.traceback]
  unpublished : IsCell code →
    ((sys.process (cStr code) k.disk).result.failed = false ∨ config.silent = true) →
    (sys.execute code config k).2.errors = k.errors

/-- A cell that did not fail has an answer without error. -/
theorem answer_ok {config : Config} {e : System.Evaluation} (h : e.errorlevel = 0) (k : Kernel) :
    System.answer config e k = (createSuccessfulReply [], k) :=
  if_pos h

/-- One that failed is answered with its error, which is published unless it is silent. -/
theorem answer_error {config : Config} {e : System.Evaluation} (h : e.errorlevel ≠ 0)
    (k : Kernel) : System.answer config e k =
      (createErrorReply e.error.ename e.error.evalue e.error.traceback,
        if config.silent then k else k.emit (.executionError e.error)) :=
  if_neg h

/-- The replies and the errors of a cell handed to the compiler. -/
theorem compile_answers (sys : System J) (code : Str) (config : Config) (k : Kernel) :
    let k' := sys.compile code config k
    if (sys.process (cStr code) k.disk).result.failed then
      ∃ e : ExecutionError,
        k'.replies = k.replies ++ [createErrorReply e.ename e.evalue e.traceback] ∧
        k'.errors = if config.silent then k.errors else k.errors ++ [e]
    else k'.replies = k.replies ++ [createSuccessfulReply []] ∧ k'.errors = k.errors := by
  obtain ⟨k', e, htext, hlevel, hcompile⟩ := compile_spec sys code config k
  rw [hcompile]
  have hguard := unsilence_textOnly config.silent k
    ((System.answer config e k').2.emit (.reply (System.answer config e k').1))
  dsimp only
  rw [hguard.replies, hguard.errors, (emit_reply _ _).1, (emit_reply _ _).2]
  -- the error level is zero exactly for a cell that did not fail
  by_cases hfailed : (sys.process (cStr code) k.disk).result.failed = true
  · have hne : e.errorlevel ≠ 0 := by
      intro h
      rw [hlevel.mp h] at hfailed
      cases hfailed
    rw [if_pos hfailed, answer_error hne]
    refine ⟨e.error, ?_⟩
    cases config.silent with
    | true => exact ⟨congrArg (· ++ _) htext.replies, htext.errors⟩
    | false =>
        have hemit := emit_error k' e.error
        exact ⟨congrArg (· ++ _) (hemit.1.trans htext.replies),
          hemit.2.trans (congrArg (· ++ _) htext.errors)⟩
  · rw [if_neg hfailed, answer_ok (hlevel.mpr (by simpa using hfailed))]
    exact ⟨congrArg (· ++ _) htext.replies, htext.errors⟩

/-! ## One request -/

/-- A cell for the compiler, with the input redirected. -/
theorem execute_cell {code : Str} (h : IsCell code) (sys : System J) (config : Config)
    (k : Kernel) : sys.execute code config k =
      (.returned, { sys.compile code config { k with cin := .inputBuffer config.allowStdin } with
        cin := k.cin }) := by
  rw [System.execute, System.executeBody_cell h]

/-- A preamble answers once when it returns, and not at all when it throws. -/
theorem execute_preamble {code : Str} {pre : Preamble}
    (h : Preamble.all.find? (·.isMatch code) = some pre) (sys : System J) (config : Config)
    (k : Kernel) :
    (∃ res, (sys.preambleApply pre code { k with cin := .inputBuffer config.allowStdin }).1 =
        .ok res ∧ (sys.execute code config k).1 = .returned ∧
        (sys.execute code config k).2.replies = k.replies ++ [res]) ∨
      ∃ e, (sys.preambleApply pre code { k with cin := .inputBuffer config.allowStdin }).1 =
        .error e ∧ (sys.execute code config k).1 = .threw e ∧
        (sys.execute code config k).2.replies = k.replies := by
  let k₀ : Kernel := { k with cin := .inputBuffer config.allowStdin }
  have htext := preambleApply_textOnly sys pre code k₀
  rcases System.executeBody_preamble h config k₀ with ⟨res, k', heq, hbody⟩ | ⟨e, k', heq, hbody⟩
  · rw [heq] at htext
    rw [System.execute, hbody]
    have hreplies := (emit_reply k' res).1.trans (congrArg (· ++ _) htext.replies)
    exact .inl ⟨res, by rw [heq], rfl, hreplies⟩
  · rw [heq] at htext
    rw [System.execute, hbody]
    exact .inr ⟨e, by rw [heq], rfl, htext.replies⟩

theorem not_isCell {code : Str} {pre : Preamble}
    (h : Preamble.all.find? (·.isMatch code) = some pre) : ¬ IsCell code := by
  rw [IsCell, h]
  exact Option.some_ne_none pre

/-- Every one of these is answered. -/
theorem answered_cell {code : Str} (h : IsCell code) (sys : System J) (config : Config)
    (k : Kernel) : Answered sys code config k := by
  let k₀ : Kernel := { k with cin := .inputBuffer config.allowStdin }
  have hanswers := compile_answers sys code config k₀
  have hexec := execute_cell h sys config k
  have hreplies : (sys.execute code config k).2.replies = (sys.compile code config k₀).replies := by
    rw [hexec]
    rfl
  have herrors : (sys.execute code config k).2.errors = (sys.compile code config k₀).errors := by
    rw [hexec]
    rfl
  have hreturns : (sys.execute code config k).1 = .returned := by rw [hexec]
  -- a failure is answered with an error, and published unless the request is silent
  by_cases hfailed : (sys.process (cStr code) k.disk).result.failed = true
  · rw [if_pos hfailed] at hanswers
    obtain ⟨e, hrep, herr⟩ := hanswers
    rw [← hreplies] at hrep
    rw [← herrors] at herr
    refine ⟨hreturns, ⟨_, hrep⟩, ?_, ?_, ?_⟩
    · intro _ res hres
      rw [hrep] at hres
      cases List.append_cancel_left hres
      exact ⟨fun _ => hfailed, fun _ => rfl⟩
    · intro _ _ hsilent
      rw [if_neg (by simp [hsilent])] at herr
      exact ⟨e, herr, hrep⟩
    · intro _ hor
      rcases hor with hnot | hsilent
      · rw [hnot] at hfailed
        cases hfailed
      · rw [if_pos hsilent] at herr
        exact herr
  · rw [if_neg hfailed] at hanswers
    obtain ⟨hrep, herr⟩ := hanswers
    rw [← hreplies] at hrep
    rw [← herrors] at herr
    refine ⟨hreturns, ⟨_, hrep⟩, ?_, ?_, ?_⟩
    · intro _ res hres
      rw [hrep] at hres
      cases List.append_cancel_left hres
      exact ⟨fun hstatus => absurd hstatus (by decide), fun hyes => absurd hyes hfailed⟩
    · exact fun _ hyes => absurd hyes hfailed
    · exact fun _ _ => herr

/-- A cell for a preamble is answered when that returns. -/
theorem answered_preamble {code : Str} {pre : Preamble}
    (h : Preamble.all.find? (·.isMatch code) = some pre) (sys : System J) (config : Config)
    (k : Kernel) : Answered sys code config k ↔
      Succeeds (sys.preambleApply pre code { k with cin := .inputBuffer config.allowStdin }).1 := by
  have hnot := not_isCell h
  rcases execute_preamble h sys config k with ⟨res, hok, hreturns, hreplies⟩ | ⟨e, herr, hthrew, -⟩
  · constructor
    · exact fun _ => ⟨res, hok⟩
    · exact fun _ => ⟨hreturns, ⟨res, hreplies⟩, fun hc => absurd hc hnot,
        fun hc => absurd hc hnot, fun hc => absurd hc hnot⟩
  · constructor
    · intro hanswered
      have := hanswered.returns
      rw [hthrew] at this
      cases this
    · rintro ⟨res, hres⟩
      rw [herr] at hres
      cases hres

/-- Code that goes elsewhere than to the lookup does not start with `?`. -/
theorem head_ne_of_find {code : Str} {o : Option Preamble}
    (h : Preamble.all.find? (·.isMatch code) = o) (ho : o ≠ some .introspection) :
    code.head? ≠ some ('?' : Char) := by
  intro hq
  exact ho (h.symm.trans (find_introspection.mpr hq))

/-- A request is answered as promised exactly when it is no query or its configuration is in
order. -/
theorem execute_answered_iff (sys : System J) (code : Str) (config : Config) (k : Kernel) :
    Answered sys code config k ↔
      code.head? ≠ some ('?' : Char) ∨
        ∃ names, sys.InOrder k.disk (sys.resolve (introspected code) k.varCount).1 names := by
  cases hfind : Preamble.all.find? (·.isMatch code) with
  | none =>
      have hhead := head_ne_of_find hfind (by simp)
      exact ⟨fun _ => .inl hhead, fun _ => answered_cell hfind sys config k⟩
  | some pre =>
      rw [answered_preamble hfind]
      cases pre with
      | introspection =>
          have hhead := find_introspection.mp hfind
          have hquery := (succeeds_introspection sys code
            { k with cin := .inputBuffer config.allowStdin }).trans
              (sys.succeeds_inspect k.disk (introspected code) k.varCount)
          constructor
          · exact fun hok => .inr (hquery.mp hok)
          · rintro (hne | hin)
            · exact absurd hhead hne
            · exact hquery.mpr hin
      -- neither the registry nor the shell throws
      | magics => exact ⟨fun _ => .inl (head_ne_of_find hfind (by simp)), fun _ => ⟨_, rfl⟩⟩
      | shell => exact ⟨fun _ => .inl (head_ne_of_find hfind (by simp)), fun _ => ⟨_, rfl⟩⟩

/-- A platform without a configuration directory, under a compiler that accepts every cell. -/
def bareSystem : System Json where
  lib := jsonLibrary
  tagconfsDirEnv := none
  tagfilesDirEnv := none
  prefixPath := lit "/usr/"
  listDirectory := fun _ => none
  readXml := fun _ => []
  typeName := fun _ => none
  declare := fun _ => true
  completeName := fun _ _ => []
  process := fun _ disk => ⟨[], disk, .returned false⟩
  popen := fun _ _ => none

/-- A kernel without magics, before its first request. -/
def Kernel.fresh : Kernel where
  disk := World.fresh.disk
  requests := []
  magics := ⟨⟨fun _ => none, fun _ => none⟩, ⟨nofun, nofun⟩⟩
  varCount := 0
  cin := .original
  cout := .coutBuffer
  cerr := .cerrBuffer
  coutBuffer := ⟨[]⟩
  cerrBuffer := ⟨[]⟩
  captures := []
  captureCalls := []
  events := []

/-- Without the directory a query leaves by an exception. -/
theorem query_without_directory : ¬ Answered bareSystem (lit "?x") ⟨false, false⟩ Kernel.fresh := by
  intro h
  have hexit : (bareSystem.execute (lit "?x") ⟨false, false⟩ Kernel.fresh).1 =
      .threw .directory := by decide
  rw [h.returns] at hexit
  cases hexit

end XeusCpp.Interpreter
