/-
# XeusCpp.Interpreter.Execute — `execute_request_impl`.

A cell is offered to the preambles first, in the order of their names; the one that matches answers
it. Every other cell goes to the compiler, with descriptors 1 and 2 captured, and the answer says
whether the compiler failed or threw. Only the second path catches exceptions; the first one leaves
the function without an answer when the documentation lookup throws.

The compiler, the shell and the platform are parameters. A request begins and ends in a `Kernel`.
-/
import XeusCpp.Interpreter.Inspect

namespace XeusCpp.Interpreter

open Text Host Magics Regex

/-! ## What runs outside the kernel -/

inductive Result
  /-- `Cpp::Process` returned; `true` is a failure. -/
  | returned (failed : Bool)
  /-- A `std::exception`, by its text. -/
  | exception (what : Str)
  | other
deriving DecidableEq

/-- What `Cpp::Process` does: what is written while it runs, the files it leaves, and how it ends. -/
structure Outcome where
  writes : List (Kernel.Target × Str)
  disk : Disk
  result : Result

structure System (J : Type) extends Platform J where
  process : Str → Disk → Outcome
  /-- `popen`: what the command writes to its output, and the files it leaves. -/
  popen : Str → Disk → Option (Str × Disk)

structure Config where
  silent : Bool
  allowStdin : Bool
deriving DecidableEq

/-! ## The shell -/

/-- `^\!` -/
def systemPattern : Regex := seq bos (Regex.char '!')

/-- `^\!(.*)` -/
def reSystem : Regex := seq bos (seq (Regex.char '!') (group 1 (star dot)))

/-- `fgets`, at most `n` bytes and no further than a newline: the bytes and what is left. -/
def fgets : Nat → Str → Str × Str
  | _, [] => ([], [])
  | 0, s => ([], s)
  | n + 1, c :: s =>
      if c = ('\n' : Char) then ([c], s)
      else
        let r := fgets n s
        (c :: r.1, r.2)

/-- The loop over a buffer of 512 bytes, each inserted as a C string. One round takes at least one
byte, so the length of the text bounds the rounds. -/
def copied : Nat → Str → Str
  | 0, _ => []
  | _, [] => []
  | n + 1, s =>
      let buff := fgets 511 s
      cStr buff.1 ++ copied n buff.2

variable {J : Type}

/-- `xsystem::apply` -/
def System.shellApply (sys : System J) (code : Str) (res : KernelRes) (w : World) :
    KernelRes × World :=
  let command := group? (search reSystem code) 1 ++ lit " 2>&1"
  match sys.popen (cStr command) w.disk with
  | some (output, disk) => (res.setOk, { w with disk := disk }.cout (copied output.length output))
  | none => (res.setError (.lines []), w.cerr (lit "Unable to execute the shell command\n"))

/-! ## The preambles -/

/-- The entries of `preamble_manager.preamble`, in the order of the map. -/
inductive Preamble
  | introspection
  | magics
  | shell
deriving DecidableEq

namespace Preamble

def all : List Preamble := [introspection, magics, shell]

def pattern : Preamble → Regex
  | introspection => introspectionPattern
  | magics => Magics.pattern
  | shell => systemPattern

def isMatch (pre : Preamble) (code : Str) : Bool := (search pre.pattern code).isSome

end Preamble

namespace System

variable (sys : System J)

/-- `xintrospection::apply` -/
def introspectionApply (code : Str) (k : Kernel) : Except LookupError KernelRes × Kernel :=
  match sys.inspect k.disk (introspected code) k.varCount with
  | (.error e, varCount) => (.error e, { k with varCount := varCount })
  | (.ok result, varCount) =>
      -- `inspect` flushes before it returns
      let k := { k with varCount := varCount }.flushCout
      if result.isEmpty then
        (.ok (createErrorReply (lit "No documentation found") [] []),
          k.putCerr (lit "No documentation found for " ++ code ++ lit "\n"))
      else
        (.ok (createSuccessfulReply [buildInspectData result]), k)

/-- A lookup only outputs, behind the counter it leaves. -/
theorem introspectionApply_outputs (code : Str) (k : Kernel) :
    ∃ n, Outputs { k with varCount := n } (sys.introspectionApply code k).2 := by
  unfold introspectionApply
  split
  next e n _ => exact ⟨n, Outputs.refl _⟩
  next result n _ =>
    refine ⟨n, ?_⟩
    dsimp only
    split
    · exact (Outputs.flushCout _).trans (Outputs.putCerr _ _)
    · exact Outputs.flushCout _

/-- `apply` of a preamble on a fresh `kernel_res`. -/
def preambleApply (pre : Preamble) (code : Str) (k : Kernel) :
    Except LookupError KernelRes × Kernel :=
  match pre with
  | .introspection => sys.introspectionApply code k
  | .magics =>
      let r := k.run (k.magics.apply code KernelRes.new)
      (.ok r.1, r.2)
  | .shell =>
      let r := k.run (sys.shellApply code KernelRes.new)
      (.ok r.1, r.2)

/-! ## The compiler -/

/-- The text of the two captures around the running code: what was written to descriptor 2, and the
kernel, which has inserted what was written to descriptor 1 into `std::cout`. -/
def captured (outcome : Outcome) (k : Kernel) : Str × Kernel :=
  let k := (k.beginCapture .err).beginCapture .out
  let k := { outcome.writes.foldl Kernel.write k with disk := outcome.disk }
  -- the destructor, on every way out
  let out := k.endCapture
  let err := out.2.endCapture
  (err.1, err.2.putCout out.1)

/-- The locals of `execute_request_impl` behind the two blocks. -/
structure Evaluation where
  errorlevel : Nat
  ename : Str
  evalue : Str
  compilationResult : Bool
deriving DecidableEq

def evaluation : Result → Evaluation
  | .returned failed => ⟨0, [], [], failed⟩
  | .exception what => ⟨1, lit "Standard Exception: ", what, false⟩
  | .other => ⟨1, lit "Error: ", [], false⟩

def Evaluation.withCompilation (e : Evaluation) (err : Str) : Evaluation :=
  if e.compilationResult then
    { e with
      errorlevel := 1
      ename := lit "Error: "
      evalue := lit "Compilation error! " ++ err }
  else e

/-- The error an evaluation is published and answered with. -/
def Evaluation.error (e : Evaluation) : ExecutionError :=
  let ename := if e.evalue.length < 4 then lit " " else e.ename
  ⟨ename, e.evalue, [ename ++ e.evalue]⟩

/-- `SilentStreamRedirectRAII`, constructed. -/
def silence (silent : Bool) (k : Kernel) : Kernel :=
  if silent then { k with cout := .null, cerr := .null } else k

/-- The destructor, in the state the constructor saw. -/
def unsilence (silent : Bool) (old k : Kernel) : Kernel :=
  if silent then { k with cout := old.cout, cerr := old.cerr } else k

/-- The answer to an evaluation, and the kernel once it was published. -/
def answer (config : Config) (e : Evaluation) (k : Kernel) : KernelRes × Kernel :=
  if e.errorlevel = 0 then (createSuccessfulReply [], k)
  else
    let error := e.error
    let k := if config.silent then k else k.emit (.executionError error)
    (createErrorReply error.ename error.evalue error.traceback, k)

/-- From the first local variable to the call of the callback. -/
def compile (code : Str) (config : Config) (k : Kernel) : Kernel :=
  let silenced := silence config.silent k
  let outcome := sys.process (cStr code) silenced.disk
  let err := captured outcome silenced
  let e := (evaluation outcome.result).withCompilation err.1
  let k' := if e.compilationResult then err.2.putCerr err.1 else err.2
  let a := answer config e k'.flushCout.flushCerr
  unsilence config.silent k (a.2.emit (.reply a.1))

/-! ## The request -/

inductive Exit
  | returned
  | threw (e : LookupError)
deriving DecidableEq

def executeBody (code : Str) (config : Config) (k : Kernel) : Exit × Kernel :=
  match Preamble.all.find? (·.isMatch code) with
  | some pre =>
      match sys.preambleApply pre code k with
      | (.ok res, k) => (.returned, k.emit (.reply res))
      | (.error e, k) => (.threw e, k)
  | none => (.returned, sys.compile code config k)

/-- `execute_request_impl`; the input is redirected as long as it runs. -/
def execute (code : Str) (config : Config) (k : Kernel) : Exit × Kernel :=
  let r := sys.executeBody code config { k with cin := .inputBuffer config.allowStdin }
  (r.1, { r.2 with cin := k.cin })

variable {sys} {code : Str}

/-- No preamble takes the code: it goes to the compiler. -/
theorem executeBody_cell (h : Preamble.all.find? (·.isMatch code) = none) (config : Config)
    (k : Kernel) : sys.executeBody code config k = (.returned, sys.compile code config k) := by
  unfold executeBody
  rw [h]

/-- The preamble answers, or throws and the request with it. -/
theorem executeBody_preamble {pre : Preamble} (h : Preamble.all.find? (·.isMatch code) = some pre)
    (config : Config) (k : Kernel) :
    (∃ res k', sys.preambleApply pre code k = (.ok res, k') ∧
      sys.executeBody code config k = (.returned, k'.emit (.reply res))) ∨
    ∃ e k', sys.preambleApply pre code k = (.error e, k') ∧
      sys.executeBody code config k = (.threw e, k') := by
  unfold executeBody
  rw [h]
  dsimp only
  split
  next res k' heq => exact .inl ⟨res, k', heq, rfl⟩
  next e k' heq => exact .inr ⟨e, k', heq, rfl⟩

end System

end XeusCpp.Interpreter
