/-
# XeusCpp.Interpreter.Redirect — the redirections are undone.

The interpreter puts its buffers behind `std::cout` and `std::cerr` when it is constructed and takes
them out when it is destroyed. In between every request replaces `std::cin`, a silent one the two
output streams as well, and the compiler runs inside two captures. Each of these is undone on every
way out of the request, the last one made first.

**`redirections_balanced`** says so for every run of requests.
-/
import XeusCpp.Interpreter.Execute

namespace XeusCpp.Interpreter

open Text Host Magics Logic

variable {J : Type}

/-! ## The interpreter object -/

/-- The process under the interpreter, and the buffers the constructor saved. -/
structure InterpreterObject where
  kernel : Kernel
  pCoutStrbuf : OutBuf
  pCerrStrbuf : OutBuf

namespace InterpreterObject

/-- `redirect_output`, over empty buffers, and the magics of `init_magic`. -/
def construct (magics : Registry) (k : Kernel) : InterpreterObject where
  kernel := { k with
    magics := magics
    cout := .coutBuffer
    cerr := .cerrBuffer
    coutBuffer := ⟨[]⟩
    cerrBuffer := ⟨[]⟩ }
  pCoutStrbuf := k.cout
  pCerrStrbuf := k.cerr

/-- `restore_output` -/
def destroy (i : InterpreterObject) : Kernel :=
  { i.kernel with cout := i.pCoutStrbuf, cerr := i.pCerrStrbuf }

end InterpreterObject

/-- A request, under the compiler and the platform it meets. -/
structure ExecuteRequest (J : Type) where
  sys : System J
  code : Str
  config : Config

namespace Kernel

/-- A request; a lookup that throws leaves the kernel as it is then. -/
def serve (k : Kernel) (r : ExecuteRequest J) : Kernel := (r.sys.execute r.code r.config k).2

/-- The requests in their order. -/
def serveAll (k : Kernel) (rs : List (ExecuteRequest J)) : Kernel := rs.foldl serve k

end Kernel

/-! ## What a request leaves as it was -/

/-- The buffers and the captures are those of before, and the calls between are balanced. -/
structure Restored (k k' : Kernel) : Prop where
  cin : k'.cin = k.cin
  cout : k'.cout = k.cout
  cerr : k'.cerr = k.cerr
  captures : k'.captures = k.captures
  calls : ∃ w, Balanced w ∧ k'.captureCalls = k.captureCalls ++ w

namespace Restored

variable {k k' k'' : Kernel}

theorem refl (k : Kernel) : Restored k k := ⟨rfl, rfl, rfl, rfl, [], .nil, by simp⟩

theorem trans (h : Restored k k') (h' : Restored k' k'') : Restored k k'' := by
  obtain ⟨u, hu, hcalls⟩ := h.calls
  obtain ⟨v, hv, hcalls'⟩ := h'.calls
  refine ⟨h'.cin.trans h.cin, h'.cout.trans h.cout, h'.cerr.trans h.cerr,
    h'.captures.trans h.captures, u ++ v, hu.append hv, ?_⟩
  rw [hcalls', hcalls, List.append_assoc]

/-- Output changes no redirection. -/
theorem of_outputs (h : Outputs k k') : Restored k k' := by
  obtain ⟨b₁, b₂, es, rfl, -⟩ := h
  exact ⟨rfl, rfl, rfl, rfl, [], .nil, by simp⟩

/-- A handler runs between two outputs. -/
theorem run (k : Kernel) {α : Type} (f : World → α × World) : Restored k (k.run f).2 := by
  obtain ⟨disk, requests, h⟩ := Outputs.run k f
  have hfiles : Restored k { k with disk := disk, requests := requests } :=
    ⟨rfl, rfl, rfl, rfl, [], .nil, by simp⟩
  exact hfiles.trans (of_outputs h)

end Restored

/-! ## The captures -/

theorem Outputs.withCaptures {k k' : Kernel} (h : Outputs k k') (cs : List (Fd × Str)) :
    Outputs { k with captures := cs } { k' with captures := cs } := by
  obtain ⟨b₁, b₂, es, rfl, hes⟩ := h
  exact ⟨b₁, b₂, es, rfl, hes⟩

theorem Outputs.captures {k k' : Kernel} (h : Outputs k k') : k'.captures = k.captures := by
  obtain ⟨b₁, b₂, es, rfl, -⟩ := h
  rfl

/-- Running code writes into the captures, and outputs. -/
theorem write_outputs (k : Kernel) (x : Kernel.Target × Str) :
    Outputs { k with captures := (k.write x).captures } (k.write x) := by
  obtain ⟨target, s⟩ := x
  cases target with
  | fd fd => exact Outputs.refl _
  | cout =>
      have h := (Outputs.putCout k s).withCaptures (k.putCout s).captures
      exact h
  | cerr =>
      have h := (Outputs.putCerr k s).withCaptures (k.putCerr s).captures
      exact h

/-- Running code adds to what is captured, and else only outputs. -/
theorem writes_outputs (k : Kernel) (xs : List (Kernel.Target × Str)) :
    Outputs { k with captures := (xs.foldl Kernel.write k).captures } (xs.foldl Kernel.write k) := by
  induction xs generalizing k with
  | nil => exact Outputs.refl k
  | cons x xs ih =>
      rw [List.foldl_cons]
      exact ((write_outputs k x).withCaptures _).trans (ih (k.write x))

theorem textTo_cons (target : Kernel.Target) (x : Kernel.Target × Str)
    (xs : List (Kernel.Target × Str)) :
    Kernel.textTo target (x :: xs) =
      (if x.1 = target then x.2 else []) ++ Kernel.textTo target xs := rfl

/-- Under two captures each descriptor is read by its own. -/
theorem writes_captures {k : Kernel} {o e : Str} {cs : List (Fd × Str)}
    (h : k.captures = (.out, o) :: (.err, e) :: cs) (xs : List (Kernel.Target × Str)) :
    (xs.foldl Kernel.write k).captures =
      (.out, o ++ Kernel.textTo (.fd .out) xs) :: (.err, e ++ Kernel.textTo (.fd .err) xs) :: cs := by
  induction xs generalizing k o e with
  | nil => simpa [Kernel.textTo] using h
  | cons x xs ih =>
      obtain ⟨target, s⟩ := x
      rw [List.foldl_cons, textTo_cons, textTo_cons]
      -- a stream has its own buffer; a descriptor belongs to the capture begun for it
      cases target with
      | cout =>
          have hput : (k.write (.cout, s)).captures = (.out, o) :: (.err, e) :: cs :=
            (Outputs.putCout k s).captures.trans h
          rw [ih hput]
          rfl
      | cerr =>
          have hput : (k.write (.cerr, s)).captures = (.out, o) :: (.err, e) :: cs :=
            (Outputs.putCerr k s).captures.trans h
          rw [ih hput]
          rfl
      | fd fd =>
          cases fd with
          | out =>
              have hwrite : (k.write (.fd .out, s)).captures =
                  (.out, o ++ s) :: (.err, e) :: cs := by
                show Kernel.writeFd .out s k.captures = _
                rw [h]
                rfl
              rw [ih hwrite, List.append_assoc]
              rfl
          | err =>
              have hwrite : (k.write (.fd .err, s)).captures =
                  (.out, o) :: (.err, e ++ s) :: cs := by
                show Kernel.writeFd .err s k.captures = _
                rw [h]
                rfl
              rw [ih hwrite, List.append_assoc]
              rfl

/-- The kernel the running code starts in. -/
def begun (k : Kernel) : Kernel := (k.beginCapture .err).beginCapture .out

/-- The two ends read what was written to their descriptors: the first one descriptor 1, whose text
goes to `std::cout`, the second one descriptor 2. -/
theorem captured_eq (outcome : Outcome) (k : Kernel) :
    System.captured outcome k =
      (Kernel.textTo (.fd .err) outcome.writes,
        Kernel.putCout { outcome.writes.foldl Kernel.write (begun k) with
          disk := outcome.disk
          captures := k.captures
          captureCalls :=
            (outcome.writes.foldl Kernel.write (begun k)).captureCalls ++ [.cls .out] ++ [.cls .err] }
          (Kernel.textTo (.fd .out) outcome.writes)) := by
  let ran : Kernel := { outcome.writes.foldl Kernel.write (begun k) with disk := outcome.disk }
  have hcaptures : ran.captures =
      (.out, Kernel.textTo (.fd .out) outcome.writes) ::
        (.err, Kernel.textTo (.fd .err) outcome.writes) :: k.captures :=
    writes_captures (k := begun k) rfl outcome.writes
  have hout : ran.endCapture = (Kernel.textTo (.fd .out) outcome.writes,
      { ran with
        captures := (.err, Kernel.textTo (.fd .err) outcome.writes) :: k.captures
        captureCalls := ran.captureCalls ++ [.cls .out] }) := by
    rw [Kernel.endCapture, hcaptures]
  have herr : ran.endCapture.2.endCapture = (Kernel.textTo (.fd .err) outcome.writes,
      { ran with
        captures := k.captures
        captureCalls := ran.captureCalls ++ [.cls .out] ++ [.cls .err] }) := by
    rw [hout]
    rfl
  have hcaptured : System.captured outcome k =
      (ran.endCapture.2.endCapture.1, ran.endCapture.2.endCapture.2.putCout ran.endCapture.1) := rfl
  rw [hcaptured, herr, hout]

/-- The two captures are begun and ended around the code. -/
theorem captured_outputs (outcome : Outcome) (k : Kernel) :
    Outputs { k with
      disk := outcome.disk
      captureCalls := k.captureCalls ++ [.opn .err, .opn .out, .cls .out, .cls .err] }
      (System.captured outcome k).2 := by
  obtain ⟨b₁, b₂, es, hrun, hes⟩ := writes_outputs (begun k) outcome.writes
  rw [captured_eq]
  refine Outputs.trans ⟨b₁, b₂, es, ?_, hes⟩ (Outputs.putCout _ _)
  rw [hrun]
  simp [begun, Kernel.beginCapture]

/-! ## One request -/

/-- Each end belongs to the last begin that is open. -/
theorem captured_restored (outcome : Outcome) (k : Kernel) :
    Restored k (System.captured outcome k).2 := by
  have hcalls : Balanced [Sym.opn Fd.err, .opn .out, .cls .out, .cls .err] :=
    Balanced.wrap Fd.err (Balanced.wrap Fd.out .nil .nil) .nil
  have hmid : Restored k { k with
      disk := outcome.disk
      captureCalls := k.captureCalls ++ [.opn .err, .opn .out, .cls .out, .cls .err] } :=
    ⟨rfl, rfl, rfl, rfl, _, hcalls, rfl⟩
  exact hmid.trans (Restored.of_outputs (captured_outputs outcome k))

theorem emit_restored (k : Kernel) (e : Event) : Restored k (k.emit e) :=
  ⟨rfl, rfl, rfl, rfl, [], .nil, by simp [Kernel.emit]⟩

/-- The answer only logs. -/
theorem answer_restored (config : Config) (e : System.Evaluation) (k : Kernel) :
    Restored k (System.answer config e k).2 := by
  unfold System.answer
  split
  · exact Restored.refl k
  · dsimp only
    split
    · exact Restored.refl k
    · exact emit_restored k _

/-- The silent guard puts back what it took away. -/
theorem guarded_restored (silent : Bool) {k k' : Kernel}
    (h : Restored (System.silence silent k) k') : Restored k (System.unsilence silent k k') := by
  cases silent with
  | false => exact h
  | true => exact ⟨h.cin, rfl, rfl, h.captures, h.calls⟩

/-- The guard of a silent cell puts the buffers back. -/
theorem compile_restored (sys : System J) (code : Str) (config : Config) (k : Kernel) :
    Restored k (sys.compile code config k) := by
  let silenced := System.silence config.silent k
  let outcome := sys.process (cStr code) silenced.disk
  let err := System.captured outcome silenced
  let e := (System.evaluation outcome.result).withCompilation err.1
  let k' := if e.compilationResult then err.2.putCerr err.1 else err.2
  have hput : Outputs err.2 k' := by
    dsimp only [k']
    split
    · exact Outputs.putCerr _ _
    · exact Outputs.refl _
  have hflush := hput.trans ((Outputs.flushCout k').trans (Outputs.flushCerr _))
  have hanswer := answer_restored config e k'.flushCout.flushCerr
  apply guarded_restored config.silent
  exact (captured_restored outcome silenced).trans
    ((Restored.of_outputs hflush).trans (hanswer.trans (emit_restored _ _)))

/-- Preambles redirect nothing. -/
theorem preambleApply_restored (sys : System J) (pre : Preamble) (code : Str) (k : Kernel) :
    Restored k (sys.preambleApply pre code k).2 := by
  cases pre with
  | magics => exact Restored.run k _
  | shell => exact Restored.run k _
  | introspection =>
      obtain ⟨n, hn⟩ := sys.introspectionApply_outputs code k
      have hcount : Restored k { k with varCount := n } := ⟨rfl, rfl, rfl, rfl, [], .nil, by simp⟩
      exact hcount.trans (Restored.of_outputs hn)

/-- Whatever takes the cell. -/
theorem executeBody_restored (sys : System J) (code : Str) (config : Config) (k : Kernel) :
    Restored k (sys.executeBody code config k).2 := by
  cases hfind : Preamble.all.find? (·.isMatch code) with
  | none =>
      rw [System.executeBody_cell hfind]
      exact compile_restored sys code config k
  | some pre =>
      have happly := preambleApply_restored sys pre code k
      rcases System.executeBody_preamble hfind config k with ⟨res, k', heq, hbody⟩ | ⟨e, k', heq, hbody⟩
      · rw [heq] at happly
        rw [hbody]
        exact happly.trans (emit_restored k' _)
      · rw [heq] at happly
        rw [hbody]
        exact happly

/-- **The step lemma.** On every way out the input is the one of before. -/
theorem serve_restored (k : Kernel) (r : ExecuteRequest J) : Restored k (k.serve r) := by
  have h := executeBody_restored r.sys r.code r.config
    { k with cin := .inputBuffer r.config.allowStdin }
  exact ⟨rfl, h.cout, h.cerr, h.captures, h.calls⟩

/-! ## Runs -/

theorem serveAll_restored (k : Kernel) (rs : List (ExecuteRequest J)) :
    Restored k (k.serveAll rs) := by
  induction rs generalizing k with
  | nil => exact Restored.refl k
  | cons r rs ih => exact (serve_restored k r).trans (ih (k.serve r))

/-- The two texts the captures around the compiler read are the ones written to their descriptors. -/
def CapturesOwn (outcome : Outcome) (k : Kernel) : Prop :=
  (System.captured outcome k).1 = Kernel.textTo (.fd .err) outcome.writes ∧
    ∃ k' : Kernel,
      (System.captured outcome k).2 = k'.putCout (Kernel.textTo (.fd .out) outcome.writes)

/-- Over every run of requests: each leaves the three streams and the captures as it found them, its
captures begin and end in matching pairs and are read by their own descriptors, and the destructor
puts back the streams the constructor found. -/
theorem redirections_balanced (magics : Registry) (before : Kernel)
    (rs : List (ExecuteRequest J)) :
    let start := InterpreterObject.construct magics before
    (∀ (done : List (ExecuteRequest J)) (r : ExecuteRequest J),
      Restored (start.kernel.serveAll done) ((start.kernel.serveAll done).serve r)) ∧
      Restored start.kernel (start.kernel.serveAll rs) ∧
      (∀ outcome k, CapturesOwn outcome k) ∧
      let after := { start with kernel := start.kernel.serveAll rs }.destroy
      after.cin = before.cin ∧ after.cout = before.cout ∧ after.cerr = before.cerr := by
  intro start
  have hrun := serveAll_restored start.kernel rs
  refine ⟨fun done r => serve_restored _ r, hrun, ?_, hrun.cin, rfl, rfl⟩
  intro outcome k
  rw [CapturesOwn, captured_eq]
  exact ⟨rfl, _, rfl⟩

end XeusCpp.Interpreter
