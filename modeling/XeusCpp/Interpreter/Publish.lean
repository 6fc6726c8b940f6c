/-
# XeusCpp.Interpreter.Publish — what reaches the frontend.

The text written to one of the two streams is what was published on it and what its buffer still
holds. An insertion adds to the stream its buffer belongs to, a flush only moves text, and behind a
flush of its buffer everything written was published. Between two requests both buffers are empty.

**`captured_published_iff`** says when a cell loses none of the text the captures read, and
**`silent_iff`** when a silent request publishes nothing.
-/
import XeusCpp.Interpreter.Answers
import XeusCpp.Interpreter.Redirect
import XeusCpp.Magics.Split

namespace XeusCpp.Interpreter

open Text Host Magics Regex Logic

variable {J : Type}

/-! ## Written and published -/

def Event.textOn (name : StreamName) : Event → Str
  | .stream n text => if n = name then text else []
  | _ => []

namespace StreamName

/-- The buffer whose text is published under the name. -/
def buffer : StreamName → OutBuf
  | stdout => .coutBuffer
  | stderr => .cerrBuffer

end StreamName

namespace Kernel

variable (k : Kernel) (name : StreamName)

/-- The text published so far. -/
def published : Str := k.events.flatMap (Event.textOn name)

/-- The text the buffer still holds. -/
def pending : Str :=
  match name with
  | .stdout => k.coutBuffer.output
  | .stderr => k.cerrBuffer.output

/-- The text inserted so far. -/
def written : Str := k.published name ++ k.pending name

end Kernel

section Accounts

variable (k : Kernel) (name : StreamName)

theorem published_publish (n : StreamName) (text : Option Str) :
    (k.publish n text).published name =
      k.published name ++ if n = name then text.getD [] else [] := by
  cases text with
  | none => simp [Kernel.publish]
  | some s => simp [Kernel.publish, Kernel.emit, Kernel.published, Event.textOn]

theorem pending_publish (n : StreamName) (text : Option Str) :
    (k.publish n text).pending name = k.pending name := by
  cases text <;> rfl

theorem written_insert (s : Str) (b : OutBuf) :
    (k.insert s b).written name = k.written name ++ if b = name.buffer then s else [] := by
  cases b <;> cases name <;>
    simp [Kernel.insert, Kernel.written, Kernel.pending, Kernel.published, StreamName.buffer,
      OutputBuffer.xsputn]

/-- A flush of its own buffer publishes what a stream has pending. -/
theorem published_sync : (k.sync name.buffer).published name = k.written name := by
  cases name with
  | stdout =>
      refine (published_publish _ _ _ _).trans ?_
      rw [if_pos rfl, sync_text]
      rfl
  | stderr =>
      refine (published_publish _ _ _ _).trans ?_
      rw [if_pos rfl, sync_text]
      rfl

theorem pending_sync : (k.sync name.buffer).pending name = [] := by
  cases name with
  | stdout => exact (pending_publish _ _ _ _).trans (sync_output _)
  | stderr => exact (pending_publish _ _ _ _).trans (sync_output _)

/-- Other buffers do not matter to a stream. -/
theorem sync_ne {b : OutBuf} (h : b ≠ name.buffer) :
    (k.sync b).published name = k.published name ∧ (k.sync b).pending name = k.pending name := by
  cases b with
  | original => exact ⟨rfl, rfl⟩
  | null => exact ⟨rfl, rfl⟩
  | coutBuffer =>
      cases name with
      | stdout => exact absurd rfl h
      | stderr =>
          refine ⟨(published_publish _ _ _ _).trans ?_, pending_publish _ _ _ _⟩
          exact List.append_nil _
  | cerrBuffer =>
      cases name with
      | stderr => exact absurd rfl h
      | stdout =>
          refine ⟨(published_publish _ _ _ _).trans ?_, pending_publish _ _ _ _⟩
          exact List.append_nil _

theorem pending_insert_ne {b : OutBuf} (h : b ≠ name.buffer) (s : Str) :
    (k.insert s b).pending name = k.pending name := by
  cases b <;> cases name <;> first | rfl | exact absurd rfl h

theorem written_sync (b : OutBuf) : (k.sync b).written name = k.written name := by
  by_cases h : b = name.buffer
  · subst h
    rw [Kernel.written, published_sync, pending_sync, List.append_nil]
  · rw [Kernel.written, (sync_ne k name h).1, (sync_ne k name h).2, Kernel.written]

theorem written_putCout (s : Str) :
    (k.putCout s).written name = k.written name ++ if k.cout = name.buffer then s else [] :=
  written_insert k name s k.cout

theorem written_putCerr (s : Str) :
    (k.putCerr s).written name = k.written name ++ if k.cerr = name.buffer then s else [] :=
  (written_sync _ name _).trans (written_insert k name s k.cerr)

/-- An event that is no text is on neither stream. -/
theorem published_emit {e : Event} (h : e.textOn name = []) :
    (k.emit e).published name = k.published name := by
  simp [Kernel.emit, Kernel.published, h]

theorem published_emit_reply (res : KernelRes) :
    (k.emit (.reply res)).published name = k.published name := published_emit k name rfl

end Accounts

/-! ## Between two requests -/

/-- What the constructor installs. -/
structure Installed (k : Kernel) : Prop where
  cout : k.cout = .coutBuffer
  cerr : k.cerr = .cerrBuffer

/-- The streams are installed, and nothing is pending. -/
structure Ready (k : Kernel) : Prop extends Installed k where
  pending : ∀ name, k.pending name = []

namespace StreamName

/-- The stream running code writes to. -/
def target : StreamName → Kernel.Target
  | stdout => .cout
  | stderr => .cerr

end StreamName

section Installed

variable {k k' : Kernel}

theorem Installed.of_outputs (h : Installed k) (ho : Outputs k k') : Installed k' := by
  obtain ⟨b₁, b₂, es, rfl, -⟩ := ho
  exact ⟨h.cout, h.cerr⟩

theorem Installed.written_putCout (h : Installed k) (s : Str) (name : StreamName) :
    (k.putCout s).written name = k.written name ++ if name = .stdout then s else [] := by
  rw [Interpreter.written_putCout, h.cout]
  cases name <;> rfl

theorem Installed.written_putCerr (h : Installed k) (s : Str) (name : StreamName) :
    (k.putCerr s).written name = k.written name ++ if name = .stderr then s else [] := by
  rw [Interpreter.written_putCerr, h.cerr]
  cases name <;> rfl

theorem Installed.write (h : Installed k) (x : Kernel.Target × Str) : Installed (k.write x) := by
  obtain ⟨target, s⟩ := x
  cases target with
  | fd fd => exact ⟨h.cout, h.cerr⟩
  | cout => exact h.of_outputs (Outputs.putCout k s)
  | cerr => exact h.of_outputs (Outputs.putCerr k s)

/-- Running code reaches a stream by writing to it. -/
theorem Installed.written_writes (h : Installed k) (xs : List (Kernel.Target × Str))
    (name : StreamName) : (xs.foldl Kernel.write k).written name =
      k.written name ++ Kernel.textTo name.target xs := by
  induction xs generalizing k with
  | nil => simp [Kernel.textTo]
  | cons x xs ih =>
      rw [List.foldl_cons, ih (h.write x), textTo_cons, ← List.append_assoc]
      refine congrArg (· ++ _) ?_
      obtain ⟨target, s⟩ := x
      cases target with
      | fd fd =>
          have hne : Kernel.Target.fd fd ≠ name.target := by
            cases name <;> simp [StreamName.target]
          rw [if_neg hne, List.append_nil]
          rfl
      | cout =>
          refine (h.written_putCout s name).trans ?_
          cases name <;> rfl
      | cerr =>
          refine (h.written_putCerr s name).trans ?_
          cases name <;> rfl

/-- Behind the two flushes everything written was published. -/
theorem Installed.flushed (h : Installed k) (name : StreamName) :
    k.flushCout.flushCerr.published name = k.written name ∧
      k.flushCout.flushCerr.pending name = [] := by
  have hcout : k.flushCout = k.sync .coutBuffer := by rw [Kernel.flushCout, h.cout]
  have hcerr : k.flushCout.flushCerr = k.flushCout.sync .cerrBuffer := by
    rw [Kernel.flushCerr, (h.of_outputs (Outputs.flushCout k)).cerr]
  rw [hcerr, hcout]
  cases name with
  | stdout =>
      have hne := sync_ne (k.sync .coutBuffer) .stdout (b := .cerrBuffer) (by decide)
      exact ⟨hne.1.trans (published_sync k .stdout), hne.2.trans (pending_sync k .stdout)⟩
  | stderr =>
      exact ⟨(published_sync _ .stderr).trans (written_sync k .stderr _), pending_sync _ .stderr⟩

/-- `std::cerr` has nothing pending behind an insertion, and leaves `std::cout` alone. -/
theorem Installed.putCerr_pending (h : Installed k) (s : Str) :
    (k.putCerr s).pending .stderr = [] ∧ (k.putCerr s).pending .stdout = k.pending .stdout := by
  have hcerr : k.putCerr s = (k.insert s .cerrBuffer).sync .cerrBuffer := by
    rw [Kernel.putCerr, h.cerr]
  rw [hcerr]
  refine ⟨pending_sync _ .stderr, ?_⟩
  rw [(sync_ne _ .stdout (by decide)).2, pending_insert_ne _ _ (by decide)]

theorem Installed.flushCout_pending (h : Installed k) :
    k.flushCout.pending .stdout = [] ∧ k.flushCout.pending .stderr = k.pending .stderr := by
  have hcout : k.flushCout = k.sync .coutBuffer := by rw [Kernel.flushCout, h.cout]
  rw [hcout]
  exact ⟨pending_sync k .stdout, (sync_ne k .stderr (by decide)).2⟩

theorem Ready.written_eq (h : Ready k) (name : StreamName) : k.written name = k.published name := by
  rw [Kernel.written, h.pending name, List.append_nil]

/-! ## Handlers -/

/-- A handler leaves nothing pending, and publishes what it wrote. -/
theorem Installed.run (h : Installed k) {α : Type} (f : World → α × World) :
    Ready (k.run f).2 ∧
      (k.run f).2.written .stdout = k.written .stdout ++ (f ⟨k.disk, [], [], k.requests⟩).2.out ∧
      (k.run f).2.written .stderr = k.written .stderr ++ (f ⟨k.disk, [], [], k.requests⟩).2.err := by
  let w := (f ⟨k.disk, [], [], k.requests⟩).2
  let k₀ : Kernel := { k with disk := w.disk, requests := w.requests }
  have h₀ : Installed k₀ := ⟨h.cout, h.cerr⟩
  have h₁ : Installed (k₀.putCerr w.err) := h₀.of_outputs (Outputs.putCerr k₀ _)
  have h₂ : Installed ((k₀.putCerr w.err).putCout w.out) := h₁.of_outputs (Outputs.putCout _ _)
  have hrun : (k.run f).2 = ((k₀.putCerr w.err).putCout w.out).flushCout := rfl
  -- `std::cerr` is published at once, and `std::cout` is flushed at the end
  have hwritten : ∀ name, (k.run f).2.written name =
      k.written name ++ (if name = .stderr then w.err else []) ++
        if name = .stdout then w.out else [] := by
    intro name
    rw [hrun, Kernel.flushCout, written_sync, h₁.written_putCout, h₀.written_putCerr]
    rfl
  refine ⟨⟨h₂.of_outputs (Outputs.flushCout _), ?_⟩, ?_, ?_⟩
  · intro name
    rw [hrun]
    cases name with
    | stdout => exact h₂.flushCout_pending.1
    | stderr =>
        rw [h₂.flushCout_pending.2]
        have hput : (k₀.putCerr w.err).putCout w.out =
            (k₀.putCerr w.err).insert w.out .coutBuffer := by rw [Kernel.putCout, h₁.cout]
        rw [hput, pending_insert_ne _ _ (by decide)]
        exact (h₀.putCerr_pending w.err).1
  · simpa using hwritten .stdout
  · simpa using hwritten .stderr

/-! ## The compiler -/

/-- What a cell inserts into `std::cerr` behind the captures: the text read from descriptor 2 when
the compiler reports a failure, nothing otherwise. -/
def shownErr (outcome : Outcome) : Str :=
  if outcome.result = .returned true then Kernel.textTo (.fd .err) outcome.writes else []

theorem compilationResult_iff (r : Result) (err : Str) :
    ((System.evaluation r).withCompilation err).compilationResult = true ↔ r = .returned true := by
  cases r with
  | returned failed => cases failed <;> simp [System.evaluation, System.Evaluation.withCompilation]
  | exception what => simp [System.evaluation, System.Evaluation.withCompilation]
  | other => simp [System.evaluation, System.Evaluation.withCompilation]

theorem answer_published (config : Config) (e : System.Evaluation) (k : Kernel) :
    (∀ name, (System.answer config e k).2.published name = k.published name) ∧
      ∀ name, (System.answer config e k).2.pending name = k.pending name := by
  unfold System.answer
  split
  · exact ⟨fun _ => rfl, fun _ => rfl⟩
  · dsimp only
    split
    · exact ⟨fun _ => rfl, fun _ => rfl⟩
    · exact ⟨fun name => published_emit k name rfl, fun name => by cases name <;> rfl⟩

theorem Installed.captured (h : Installed k) (outcome : Outcome) :
    Installed (System.captured outcome k).2 ∧
      ∀ name, (System.captured outcome k).2.written name = k.written name ++
        Kernel.textTo name.target outcome.writes ++
          if name = .stdout then Kernel.textTo (.fd .out) outcome.writes else [] := by
  have hbegun : Installed (begun k) := ⟨h.cout, h.cerr⟩
  have hran : Installed (outcome.writes.foldl Kernel.write (begun k)) := by
    have hcaptures : Installed { begun k with
        captures := (outcome.writes.foldl Kernel.write (begun k)).captures } := ⟨h.cout, h.cerr⟩
    exact hcaptures.of_outputs (writes_outputs (begun k) outcome.writes)
  let ended : Kernel := { outcome.writes.foldl Kernel.write (begun k) with
    disk := outcome.disk
    captures := k.captures
    captureCalls :=
      (outcome.writes.foldl Kernel.write (begun k)).captureCalls ++ [.cls .out] ++ [.cls .err] }
  have hended : Installed ended := ⟨hran.cout, hran.cerr⟩
  rw [captured_eq]
  refine ⟨hended.of_outputs (Outputs.putCout ended _), ?_⟩
  intro name
  refine (hended.written_putCout _ name).trans ?_
  exact congrArg (· ++ _) (hbegun.written_writes outcome.writes name)

/-- A cell that is not silent: the reply comes last, and what was published before it. -/
theorem compile_loud (h : Installed k) (sys : System J) (code : Str) (allowStdin : Bool) :
    let outcome := sys.process (cStr code) k.disk
    ∃ (k₁ : Kernel) (res : KernelRes),
      sys.compile code ⟨false, allowStdin⟩ k = k₁.emit (.reply res) ∧
      k₁.published .stdout = k.written .stdout ++ Kernel.textTo .cout outcome.writes ++
        Kernel.textTo (.fd .out) outcome.writes ∧
      k₁.published .stderr = k.written .stderr ++ Kernel.textTo .cerr outcome.writes ++
        shownErr outcome ∧
      ∀ name, k₁.pending name = [] := by
  intro outcome
  let err := System.captured outcome k
  let e := (System.evaluation outcome.result).withCompilation err.1
  let k' := if e.compilationResult then err.2.putCerr err.1 else err.2
  let a := System.answer ⟨false, allowStdin⟩ e k'.flushCout.flushCerr
  have hcaptured := h.captured outcome
  -- the captured text of descriptor 2 is shown on a failure only
  have hk' : Installed k' ∧ ∀ name, k'.written name = err.2.written name ++
      if name = .stderr then shownErr outcome else [] := by
    dsimp only [k']
    have herr : err.1 = Kernel.textTo (.fd .err) outcome.writes := by
      dsimp only [err]
      rw [captured_eq]
    split
    next hfailed =>
      refine ⟨hcaptured.1.of_outputs (Outputs.putCerr _ _), ?_⟩
      intro name
      rw [hcaptured.1.written_putCerr, shownErr, if_pos ((compilationResult_iff _ _).mp hfailed), herr]
    next hok =>
      refine ⟨hcaptured.1, ?_⟩
      intro name
      rw [shownErr, if_neg (fun hr => hok ((compilationResult_iff _ _).mpr hr))]
      simp
  have hflushed := hk'.1.flushed
  have ha := answer_published ⟨false, allowStdin⟩ e k'.flushCout.flushCerr
  refine ⟨a.2, a.1, rfl, ?_, ?_, ?_⟩
  · rw [ha.1, (hflushed .stdout).1, hk'.2, hcaptured.2]
    simp [StreamName.target]
  · rw [ha.1, (hflushed .stderr).1, hk'.2, hcaptured.2]
    simp [StreamName.target]
  · intro name
    rw [ha.2, (hflushed name).2]

end Installed

section Muted

variable {k : Kernel}

/-- Both streams drop what is inserted. -/
structure Muted (k : Kernel) : Prop where
  cout : k.cout = .null
  cerr : k.cerr = .null

theorem Muted.putCout (h : Muted k) (s : Str) : k.putCout s = k := by rw [Kernel.putCout, h.cout]; rfl

theorem Muted.putCerr (h : Muted k) (s : Str) : k.putCerr s = k := by rw [Kernel.putCerr, h.cerr]; rfl

theorem Muted.flush (h : Muted k) : k.flushCout.flushCerr = k := by
  have hcout : k.flushCout = k := by rw [Kernel.flushCout, h.cout]; rfl
  rw [hcout, Kernel.flushCerr, h.cerr]
  rfl

theorem Muted.write (h : Muted k) (x : Kernel.Target × Str) :
    k.write x = { k with captures := (k.write x).captures } := by
  obtain ⟨target, s⟩ := x
  cases target with
  | fd fd => rfl
  | cout =>
      show k.putCout s = { k with captures := (k.putCout s).captures }
      rw [h.putCout]
  | cerr =>
      show k.putCerr s = { k with captures := (k.putCerr s).captures }
      rw [h.putCerr]

theorem Muted.writes (h : Muted k) (xs : List (Kernel.Target × Str)) :
    xs.foldl Kernel.write k = { k with captures := (xs.foldl Kernel.write k).captures } := by
  induction xs generalizing k with
  | nil => rfl
  | cons x xs ih =>
      have hx : Muted (k.write x) := by
        rw [h.write x]
        exact ⟨h.cout, h.cerr⟩
      rw [List.foldl_cons, ih hx]
      rw [h.write x]

/-- A silent cell changes the files, and is answered. -/
theorem compile_silent (sys : System J) (code : Str) (allowStdin : Bool) (k : Kernel) :
    ∃ disk calls res, sys.compile code ⟨true, allowStdin⟩ k =
      { k with disk := disk, captureCalls := calls }.emit (.reply res) := by
  let silenced : Kernel := { k with cout := .null, cerr := .null }
  let outcome := sys.process (cStr code) silenced.disk
  let err := System.captured outcome silenced
  let e := (System.evaluation outcome.result).withCompilation err.1
  have hbegun : Muted (begun silenced) := ⟨rfl, rfl⟩
  -- the streams are null, so the writes reach the captures and nothing else
  let ended : Kernel := { outcome.writes.foldl Kernel.write (begun silenced) with
    disk := outcome.disk
    captures := silenced.captures
    captureCalls := (outcome.writes.foldl Kernel.write (begun silenced)).captureCalls ++
      [.cls .out] ++ [.cls .err] }
  have hended : ended = { silenced with
      disk := outcome.disk
      captureCalls := ended.captureCalls } := by
    dsimp only [ended]
    rw [hbegun.writes outcome.writes]
    rfl
  have hmuted : Muted ended := by
    rw [hended]
    exact ⟨rfl, rfl⟩
  have herr : err.2 = ended := by
    dsimp only [err]
    rw [captured_eq]
    exact hmuted.putCout _
  have hk' : (if e.compilationResult then err.2.putCerr err.1 else err.2) = ended := by
    rw [herr, hmuted.putCerr]
    split <;> rfl
  refine ⟨outcome.disk, ended.captureCalls, (System.answer ⟨true, allowStdin⟩ e ended).1, ?_⟩
  have hanswer : (System.answer ⟨true, allowStdin⟩ e ended).2 = ended := by
    unfold System.answer
    split <;> rfl
  have hcompile : sys.compile code ⟨true, allowStdin⟩ k =
      System.unsilence true k ((System.answer ⟨true, allowStdin⟩ e
        (if e.compilationResult then err.2.putCerr err.1 else err.2).flushCout.flushCerr).2.emit
        (.reply (System.answer ⟨true, allowStdin⟩ e
          (if e.compilationResult then err.2.putCerr err.1 else err.2).flushCout.flushCerr).1)) :=
    rfl
  rw [hcompile, hk', hmuted.flush, hanswer, hended]
  rfl

end Muted

/-! ## The preambles -/

/-- What a preamble inserts into a stream. -/
def preambleText (sys : System J) (pre : Preamble) (code : Str) (k : Kernel) : StreamName → Str :=
  let w : World := ⟨k.disk, [], [], k.requests⟩
  match pre with
  | .introspection => fun
      | .stdout => []
      | .stderr =>
          if sys.lookup k.disk (introspected code) k.varCount = some [] then
            lit "No documentation found for " ++ code ++ lit "\n"
          else []
  | .magics => fun
      | .stdout => (k.magics.apply code KernelRes.new w).2.out
      | .stderr => (k.magics.apply code KernelRes.new w).2.err
  | .shell => fun
      | .stdout => (sys.shellApply code KernelRes.new w).2.out
      | .stderr => (sys.shellApply code KernelRes.new w).2.err

section Preambles

variable {k : Kernel}

theorem introspection_written (h : Ready k) (sys : System J) (code : Str) :
    Ready (sys.introspectionApply code k).2 ∧
      ∀ name, (sys.introspectionApply code k).2.written name =
        k.written name ++ preambleText sys .introspection code k name := by
  unfold System.introspectionApply
  cases hinspect : sys.inspect k.disk (introspected code) k.varCount with
  | mk result n =>
      have hcount : Ready { k with varCount := n } := ⟨⟨h.cout, h.cerr⟩, h.pending⟩
      cases result with
      | error e =>
          refine ⟨hcount, ?_⟩
          intro name
          have hlookup : sys.lookup k.disk (introspected code) k.varCount = none := by
            rw [Platform.lookup, hinspect]
            rfl
          cases name <;> simp [preambleText, hlookup] <;> rfl
      | ok page =>
          have hlookup : sys.lookup k.disk (introspected code) k.varCount = some page := by
            rw [Platform.lookup, hinspect]
            rfl
          let flushed := { k with varCount := n }.flushCout
          have hinstalled : Installed flushed :=
            hcount.toInstalled.of_outputs (Outputs.flushCout _)
          have hpending := hcount.toInstalled.flushCout_pending
          have hflushed : Ready flushed := ⟨hinstalled, fun name => by
            cases name with
            | stdout => exact hpending.1
            | stderr => exact hpending.2.trans (h.pending .stderr)⟩
          have hwritten : ∀ name, flushed.written name = k.written name := fun name =>
            written_sync { k with varCount := n } name _
          dsimp only
          -- a page that was not found is reported on `std::cerr`
          split
          next hempty =>
            have hpage := List.isEmpty_iff.mp hempty
            have hput := hinstalled.putCerr_pending
              (lit "No documentation found for " ++ code ++ lit "\n")
            refine ⟨⟨hinstalled.of_outputs (Outputs.putCerr _ _), fun name => ?_⟩, fun name => ?_⟩
            · cases name with
              | stdout => exact hput.2.trans (hflushed.pending .stdout)
              | stderr => exact hput.1
            · rw [hinstalled.written_putCerr, hwritten]
              cases name <;> simp [preambleText, hlookup, hpage]
          next hne =>
            refine ⟨hflushed, fun name => ?_⟩
            have hpage : page ≠ [] := fun hp => hne (by simp [hp])
            rw [hwritten]
            cases name <;> simp [preambleText, hlookup, hpage]

/-- A preamble leaves nothing pending. -/
theorem preamble_written (h : Ready k) (sys : System J) (pre : Preamble) (code : Str) :
    Ready (sys.preambleApply pre code k).2 ∧
      ∀ name, (sys.preambleApply pre code k).2.written name =
        k.written name ++ preambleText sys pre code k name := by
  cases pre with
  | introspection => exact introspection_written h sys code
  | magics =>
      obtain ⟨hready, hout, herr⟩ := h.toInstalled.run (k.magics.apply code KernelRes.new)
      exact ⟨hready, fun name => by cases name <;> assumption⟩
  | shell =>
      obtain ⟨hready, hout, herr⟩ := h.toInstalled.run (sys.shellApply code KernelRes.new)
      exact ⟨hready, fun name => by cases name <;> assumption⟩

theorem Ready.emit_reply (h : Ready k) (res : KernelRes) : Ready (k.emit (.reply res)) :=
  ⟨⟨h.cout, h.cerr⟩, fun name => by
    cases name with
    | stdout => exact h.pending .stdout
    | stderr => exact h.pending .stderr⟩

/-! ## Runs -/

theorem execute_ready (h : Ready k) (sys : System J) (code : Str) (config : Config) :
    Ready (sys.execute code config k).2 := by
  let k₀ : Kernel := { k with cin := .inputBuffer config.allowStdin }
  have h₀ : Ready k₀ := ⟨⟨h.cout, h.cerr⟩, h.pending⟩
  have hbody : Ready (sys.executeBody code config k₀).2 := by
    cases hfind : Preamble.all.find? (·.isMatch code) with
    | some pre =>
        have happly := (preamble_written h₀ sys pre code).1
        rcases System.executeBody_preamble hfind config k₀ with
          ⟨res, k', heq, hrun⟩ | ⟨e, k', heq, hrun⟩
        · rw [heq] at happly
          rw [hrun]
          exact happly.emit_reply res
        · rw [heq] at happly
          rw [hrun]
          exact happly
    | none =>
        rw [System.executeBody_cell hfind]
        obtain ⟨silent, allowStdin⟩ := config
        cases silent with
        | true =>
            obtain ⟨disk, calls, res, hcompile⟩ := compile_silent sys code allowStdin k₀
            rw [hcompile]
            exact Ready.emit_reply (k := { k₀ with disk := disk, captureCalls := calls })
              ⟨⟨h₀.cout, h₀.cerr⟩, h₀.pending⟩ res
        | false =>
            have hrestored := compile_restored sys code ⟨false, allowStdin⟩ k₀
            obtain ⟨k₁, res, hcompile, -, -, hpending⟩ :=
              compile_loud h₀.toInstalled sys code allowStdin
            refine ⟨⟨hrestored.cout.trans h₀.cout, hrestored.cerr.trans h₀.cerr⟩, ?_⟩
            intro name
            rw [hcompile]
            cases name with
            | stdout => exact hpending .stdout
            | stderr => exact hpending .stderr
  refine ⟨⟨hbody.cout, hbody.cerr⟩, ?_⟩
  intro name
  cases name with
  | stdout => exact hbody.pending .stdout
  | stderr => exact hbody.pending .stderr

/-- The states between the requests of an interpreter. -/
def Reachable (J : Type) (k : Kernel) : Prop :=
  ∃ (magics : Registry) (before : Kernel) (rs : List (ExecuteRequest J)),
    k = (InterpreterObject.construct magics before).kernel.serveAll rs

theorem Reachable.ready (h : Reachable J k) : Ready k := by
  obtain ⟨magics, before, rs, rfl⟩ := h
  have hstart : Ready (InterpreterObject.construct magics before).kernel :=
    ⟨⟨rfl, rfl⟩, fun name => by cases name <;> rfl⟩
  generalize (InterpreterObject.construct magics before).kernel = start at hstart ⊢
  induction rs generalizing start with
  | nil => exact hstart
  | cons r rs ih => exact ih (start.serve r) (execute_ready hstart r.sys r.code r.config)

end Preambles

/-! ## Captured text -/

/-- The reply is the last event, and before it both streams published what was written to them
directly and then the whole captured text. -/
structure CapturedPublished (sys : System J) (code : Str) (config : Config) (k : Kernel) : Prop where
  reply_last : ∃ es res, (sys.execute code config k).2.events = es ++ [.reply res]
  stdout : (sys.execute code config k).2.published .stdout = k.published .stdout ++
    Kernel.textTo .cout (sys.process (cStr code) k.disk).writes ++
    Kernel.textTo (.fd .out) (sys.process (cStr code) k.disk).writes
  stderr : (sys.execute code config k).2.published .stderr = k.published .stderr ++
    Kernel.textTo .cerr (sys.process (cStr code) k.disk).writes ++
    Kernel.textTo (.fd .err) (sys.process (cStr code) k.disk).writes

/-- A cell that is not silent has all its captured text published exactly when nothing was written
to descriptor 2 or the compiler reported a failure. -/
theorem captured_published_iff (sys : System J) (allowStdin : Bool) {code : Str} {k : Kernel}
    (hk : Reachable J k) (hcell : IsCell code) :
    CapturedPublished sys code ⟨false, allowStdin⟩ k ↔
      (Kernel.textTo (.fd .err) (sys.process (cStr code) k.disk).writes = [] ∨
        (sys.process (cStr code) k.disk).result = .returned true) := by
  let k₀ : Kernel := { k with cin := .inputBuffer allowStdin }
  let outcome := sys.process (cStr code) k.disk
  have hready := hk.ready
  have hinstalled : Installed k₀ := ⟨hready.cout, hready.cerr⟩
  obtain ⟨k₁, res, hcompile, hout, herr, -⟩ := compile_loud hinstalled sys code allowStdin
  have hexec : (sys.execute code ⟨false, allowStdin⟩ k).2.events = k₁.events ++ [.reply res] := by
    rw [execute_cell hcell]
    show (sys.compile code ⟨false, allowStdin⟩ k₀).events = _
    rw [hcompile]
    rfl
  have hpublished : ∀ name, (sys.execute code ⟨false, allowStdin⟩ k).2.published name =
      k₁.published name := by
    intro name
    rw [Kernel.published, hexec]
    exact published_emit_reply k₁ name res
  have hwritten : ∀ name, k₀.written name = k.published name := hready.written_eq
  rw [hwritten] at hout herr
  constructor
  · intro h
    -- what was published is the shown text, and what is to be published the captured one
    have hstderr := h.stderr
    rw [hpublished, herr] at hstderr
    have hshown := List.append_cancel_left hstderr
    by_cases hfailed : outcome.result = .returned true
    · exact .inr hfailed
    · rw [shownErr, if_neg hfailed] at hshown
      exact .inl hshown.symm
  · intro h
    refine ⟨⟨_, _, hexec⟩, (hpublished _).trans hout, (hpublished _).trans (herr.trans ?_)⟩
    refine congrArg _ ?_
    by_cases hfailed : outcome.result = .returned true
    · exact if_pos hfailed
    · rcases h with hempty | hyes
      · exact (if_neg hfailed).trans hempty.symm
      · exact absurd hyes hfailed

/-- A compiler that warns on descriptor 2 and accepts the cell. -/
def warningSystem : System Json :=
  { bareSystem with process := fun _ disk => ⟨[(.fd .err, lit "warning")], disk, .returned false⟩ }

/-- The kernel before its first request. -/
def startKernel : Kernel := (InterpreterObject.construct Kernel.fresh.magics Kernel.fresh).kernel

theorem startKernel_reachable : Reachable Json startKernel :=
  ⟨Kernel.fresh.magics, Kernel.fresh, [], rfl⟩

theorem isCell_int_x : IsCell (lit "int x;") := by
  show Preamble.all.find? (·.isMatch (lit "int x;")) = none
  decide

/-- A compiler that writes to both descriptors and rejects the cell. -/
def rejectingSystem : System Json :=
  { bareSystem with process := fun _ disk =>
      ⟨[(.fd .out, lit "note"), (.fd .err, lit "error")], disk, .returned true⟩ }

theorem captured_published_int_x : CapturedPublished rejectingSystem (lit "int x;") ⟨false, false⟩
    startKernel ∧ Kernel.textTo (.fd .err) (rejectingSystem.process (cStr (lit "int x;"))
      startKernel.disk).writes = lit "error" :=
  ⟨(captured_published_iff rejectingSystem false startKernel_reachable isCell_int_x).mpr (.inr rfl),
    by decide⟩

/-- A warning of a cell that compiles is not published. -/
theorem warning_not_published : Reachable Json startKernel ∧ IsCell (lit "int x;") ∧
    ¬ CapturedPublished warningSystem (lit "int x;") ⟨false, false⟩ startKernel := by
  refine ⟨startKernel_reachable, isCell_int_x, ?_⟩
  intro h
  have hstderr := h.stderr
  revert hstderr
  decide

end XeusCpp.Interpreter
