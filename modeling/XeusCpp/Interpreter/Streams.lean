/-
# XeusCpp.Interpreter.Streams — the state of the kernel between and during requests.

`std::cin`, `std::cout` and `std::cerr` point to stream buffers that the kernel replaces: two output
buffers that hand their text to the frontend when they are flushed, a null buffer that drops it, an
input buffer that asks the frontend. The compiler captures file descriptors 1 and 2 on a stack. What
leaves the kernel is a list of events: text on one of the two streams, an execution error, a reply.

`std::cerr` is flushed by every insertion, `std::cout` where the code flushes it. How the events of the
two streams follow each other is not told: `std::cerr` is tied to `std::cout`, whose text it publishes
first, and each `<<` of a line to it is an event of its own. Each stream has its own text, in its order.

Running code writes to the streams and the descriptors. It leaves the stream objects as they are:
their buffers, their error states and their formats.
-/
import XeusCpp.Logic.Bracket
import XeusCpp.Magics.Manager

namespace XeusCpp.Interpreter

open Text Host Magics Logic

/-! ## Stream buffers -/

/-- `xoutput_buffer`, by the text that was not handed to its callback yet. -/
structure OutputBuffer where
  output : Str
deriving DecidableEq

def OutputBuffer.xsputn (b : OutputBuffer) (s : Str) : OutputBuffer := ⟨b.output ++ s⟩

/-- What the callback gets, nothing where there is no text, and the buffer afterwards. -/
def OutputBuffer.sync (b : OutputBuffer) : Option Str × OutputBuffer :=
  if b.output.isEmpty then (none, b) else (some b.output, ⟨[]⟩)

theorem sync_text (b : OutputBuffer) : b.sync.1.getD [] = b.output := by
  unfold OutputBuffer.sync
  split
  next h => exact (List.isEmpty_iff.mp h).symm
  next => rfl

theorem sync_output (b : OutputBuffer) : b.sync.2.output = [] := by
  unfold OutputBuffer.sync
  split
  next h => exact List.isEmpty_iff.mp h
  next => rfl

/-- Where `std::cout` or `std::cerr` points to. -/
inductive OutBuf
  | original
  | coutBuffer
  | cerrBuffer
  | null
deriving DecidableEq

/-- Where `std::cin` points to. -/
inductive InBuf
  | original
  | inputBuffer (allowStdin : Bool)
deriving DecidableEq

/-! ## Events -/

inductive StreamName
  | stdout
  | stderr
deriving DecidableEq

structure ExecutionError where
  ename : Str
  evalue : Str
  traceback : List Str
deriving DecidableEq

inductive Event
  /-- `publish_stream` -/
  | stream (name : StreamName) (text : Str)
  /-- `publish_execution_error` -/
  | executionError (e : ExecutionError)
  /-- A call of the reply callback. -/
  | reply (res : KernelRes)
deriving DecidableEq

def Event.reply? : Event → Option KernelRes
  | .reply res => some res
  | _ => none

def Event.error? : Event → Option ExecutionError
  | .executionError e => some e
  | _ => none

/-! ## The kernel -/

inductive Fd
  | out
  | err
deriving DecidableEq

structure Kernel where
  disk : Disk
  requests : List Request
  magics : Registry
  /-- `var_count` of `find_type_slow` -/
  varCount : Nat
  cin : InBuf
  cout : OutBuf
  cerr : OutBuf
  coutBuffer : OutputBuffer
  cerrBuffer : OutputBuffer
  /-- The captures that were begun and not ended, the last one first, with what they hold. -/
  captures : List (Fd × Str)
  /-- The calls that begin and end captures, by the descriptor that is captured. -/
  captureCalls : List (Sym Fd)
  events : List Event

namespace Kernel

variable (k : Kernel)

def emit (e : Event) : Kernel := { k with events := k.events ++ [e] }

/-- The replies sent so far. -/
def replies : List KernelRes := k.events.filterMap Event.reply?

/-- The execution errors published so far. -/
def errors : List ExecutionError := k.events.filterMap Event.error?

/-- The callback of an output buffer. -/
def publish (name : StreamName) : Option Str → Kernel
  | some text => k.emit (.stream name text)
  | none => k

def insert (s : Str) : OutBuf → Kernel
  | .coutBuffer => { k with coutBuffer := k.coutBuffer.xsputn s }
  | .cerrBuffer => { k with cerrBuffer := k.cerrBuffer.xsputn s }
  | .original | .null => k

def sync : OutBuf → Kernel
  | .coutBuffer =>
      let synced := k.coutBuffer.sync
      { k with coutBuffer := synced.2 }.publish .stdout synced.1
  | .cerrBuffer =>
      let synced := k.cerrBuffer.sync
      { k with cerrBuffer := synced.2 }.publish .stderr synced.1
  | .original | .null => k

/-- `std::cout << s` -/
def putCout (s : Str) : Kernel := k.insert s k.cout

/-- `std::cout << std::flush` -/
def flushCout : Kernel := k.sync k.cout

/-- `std::cerr << s` -/
def putCerr (s : Str) : Kernel := (k.insert s k.cerr).sync k.cerr

/-- `std::cerr << std::flush` -/
def flushCerr : Kernel := k.sync k.cerr

/-! ## Captures -/

/-- `BeginStdStreamCapture` -/
def beginCapture (fd : Fd) : Kernel :=
  { k with captures := (fd, []) :: k.captures, captureCalls := k.captureCalls ++ [.opn fd] }

/-- `EndStdStreamCapture`: the text of the innermost capture. -/
def endCapture : Str × Kernel :=
  match k.captures with
  | [] => ([], k)
  | (fd, s) :: captures =>
      (s, { k with captures := captures, captureCalls := k.captureCalls ++ [.cls fd] })

/-- Text written to a descriptor, into its innermost capture. -/
def writeFd (fd : Fd) (s : Str) : List (Fd × Str) → List (Fd × Str)
  | [] => []
  | (f, t) :: captures =>
      if f = fd then (f, t ++ s) :: captures else (f, t) :: writeFd fd s captures

/-- What running code writes to. -/
inductive Target
  | fd (fd : Fd)
  | cout
  | cerr
deriving DecidableEq

def write : Target × Str → Kernel
  | (.fd fd, s) => { k with captures := writeFd fd s k.captures }
  | (.cout, s) => k.putCout s
  | (.cerr, s) => k.putCerr s

/-- The text written to a target. -/
def textTo (target : Target) (xs : List (Target × Str)) : Str :=
  xs.flatMap fun x => if x.1 = target then x.2 else []

/-! ## Handlers -/

/-- Run what works on the files, the network and the two streams. A handler flushes `std::cout`
before it returns. -/
def run {α : Type} (f : World → α × World) : α × Kernel :=
  let r := f ⟨k.disk, [], [], k.requests⟩
  let w := r.2
  (r.1, (({ k with disk := w.disk, requests := w.requests }.putCerr w.err).putCout w.out).flushCout)

end Kernel

/-! ## What output changes -/

/-- Output changes the two buffers, and publishes text on the two streams. -/
def Outputs (k k' : Kernel) : Prop :=
  ∃ b₁ b₂ es, k' = { k with coutBuffer := b₁, cerrBuffer := b₂, events := k.events ++ es } ∧
    ∀ e ∈ es, ∃ name text, e = .stream name text

namespace Outputs

variable {k k' k'' : Kernel}

theorem of_buffers (k : Kernel) (b₁ b₂ : OutputBuffer) :
    Outputs k { k with coutBuffer := b₁, cerrBuffer := b₂ } :=
  ⟨b₁, b₂, [], by rw [List.append_nil], nofun⟩

theorem refl (k : Kernel) : Outputs k k := of_buffers k k.coutBuffer k.cerrBuffer

theorem trans (h : Outputs k k') (h' : Outputs k' k'') : Outputs k k'' := by
  obtain ⟨b₁, b₂, es, rfl, hes⟩ := h
  obtain ⟨c₁, c₂, fs, rfl, hfs⟩ := h'
  refine ⟨c₁, c₂, es ++ fs, by simp, ?_⟩
  intro e he
  rcases List.mem_append.mp he with he | he
  · exact hes e he
  · exact hfs e he

variable (k)

theorem publish (name : StreamName) (text : Option Str) : Outputs k (k.publish name text) := by
  cases text with
  | none => exact refl k
  | some s =>
      refine ⟨_, _, [.stream name s], rfl, ?_⟩
      intro e he
      exact ⟨name, s, List.mem_singleton.mp he⟩

theorem insert (s : Str) (b : OutBuf) : Outputs k (k.insert s b) := by
  cases b with
  | original => exact refl k
  | null => exact refl k
  | coutBuffer => exact of_buffers k (k.coutBuffer.xsputn s) k.cerrBuffer
  | cerrBuffer => exact of_buffers k k.coutBuffer (k.cerrBuffer.xsputn s)

theorem sync (b : OutBuf) : Outputs k (k.sync b) := by
  cases b with
  | original => exact refl k
  | null => exact refl k
  | coutBuffer =>
      have h : Outputs k { k with coutBuffer := k.coutBuffer.sync.2 } := of_buffers k _ k.cerrBuffer
      exact h.trans (publish _ .stdout _)
  | cerrBuffer =>
      have h : Outputs k { k with cerrBuffer := k.cerrBuffer.sync.2 } := of_buffers k k.coutBuffer _
      exact h.trans (publish _ .stderr _)

theorem putCout (s : Str) : Outputs k (k.putCout s) := insert k s k.cout

theorem flushCout : Outputs k k.flushCout := sync k k.cout

theorem putCerr (s : Str) : Outputs k (k.putCerr s) := (insert k s k.cerr).trans (sync _ k.cerr)

theorem flushCerr : Outputs k k.flushCerr := sync k k.cerr

/-- A handler, behind the files and the requests it leaves. -/
theorem run {α : Type} (f : World → α × World) :
    ∃ disk requests, Outputs { k with disk := disk, requests := requests } (k.run f).2 := by
  let w := (f ⟨k.disk, [], [], k.requests⟩).2
  exact ⟨w.disk, w.requests,
    (putCerr _ w.err).trans ((putCout _ w.out).trans (flushCout _))⟩

end Outputs

/-! ## What is text only -/

/-- Nothing but text was published on the way from `k` to `k'`. -/
structure TextOnly (k k' : Kernel) : Prop where
  replies : k'.replies = k.replies
  errors : k'.errors = k.errors

namespace TextOnly

variable {k k' k'' : Kernel}

theorem refl (k : Kernel) : TextOnly k k := ⟨rfl, rfl⟩

theorem trans (h : TextOnly k k') (h' : TextOnly k' k'') : TextOnly k k'' :=
  ⟨h'.replies.trans h.replies, h'.errors.trans h.errors⟩

theorem of_events (h : k'.events = k.events) : TextOnly k k' :=
  ⟨by rw [Kernel.replies, h, Kernel.replies], by rw [Kernel.errors, h, Kernel.errors]⟩

theorem of_outputs (h : Outputs k k') : TextOnly k k' := by
  obtain ⟨b₁, b₂, es, rfl, hes⟩ := h
  have hreplies : es.filterMap Event.reply? = [] := by
    rw [List.filterMap_eq_nil_iff]
    intro e he
    obtain ⟨name, text, rfl⟩ := hes e he
    rfl
  have herrors : es.filterMap Event.error? = [] := by
    rw [List.filterMap_eq_nil_iff]
    intro e he
    obtain ⟨name, text, rfl⟩ := hes e he
    rfl
  constructor
  · rw [Kernel.replies, List.filterMap_append, hreplies, List.append_nil]
    rfl
  · rw [Kernel.errors, List.filterMap_append, herrors, List.append_nil]
    rfl

variable (k)

theorem endCapture : TextOnly k k.endCapture.2 := by
  unfold Kernel.endCapture
  split <;> exact of_events rfl

theorem write (x : Kernel.Target × Str) : TextOnly k (k.write x) := by
  obtain ⟨target, s⟩ := x
  cases target with
  | fd fd => exact of_events rfl
  | cout => exact of_outputs (Outputs.putCout k s)
  | cerr => exact of_outputs (Outputs.putCerr k s)

/-- Whatever the running code writes, in any order. -/
theorem writes (xs : List (Kernel.Target × Str)) : TextOnly k (xs.foldl Kernel.write k) := by
  induction xs generalizing k with
  | nil => exact refl k
  | cons x xs ih => exact (write k x).trans (ih _)

theorem run {α : Type} (f : World → α × World) : TextOnly k (k.run f).2 := by
  obtain ⟨disk, requests, h⟩ := Outputs.run k f
  have hfiles : TextOnly k { k with disk := disk, requests := requests } := of_events rfl
  exact hfiles.trans (of_outputs h)

end TextOnly

end XeusCpp.Interpreter
