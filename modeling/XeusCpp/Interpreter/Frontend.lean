/-
# XeusCpp.Interpreter.Frontend — what a frontend makes of the log.

A frontend collects the text of the two streams until a reply arrives and shows it with that reply.
An execution error stands directly before the reply to its request, and the reply says the same.

Behind the log runs a kernel with replaced stream buffers, text that waits to be flushed and captures
of the descriptors. What it is for needs none of these: a machine that answers each request with
texts, an error and a reply. **`frontend_refines`**: over every run of requests the frontend accepts
the log of the kernel and shows what that machine answers, request by request.
-/
import XeusCpp.Interpreter.Publish

namespace XeusCpp.Interpreter

open Text Host Magics Logic

variable {J : Type}

/-! ## The frontend -/

/-- A request that was replied to, the way it is shown. -/
structure Shown where
  stdout : Str
  stderr : Str
  error : Option ExecutionError
  reply : KernelRes
deriving DecidableEq

/-- The end of what a request puts into the log. -/
def Shown.ending (s : Shown) : List Event :=
  (s.error.map Event.executionError).toList ++ [.reply s.reply]

/-- What is shown, and what has arrived since the last reply. -/
structure Frontend where
  cells : List Shown
  stdout : Str
  stderr : Str
  error : Option ExecutionError
deriving DecidableEq

namespace Frontend

/-- Nothing arrived since the last reply. -/
def idle (cells : List Shown) : Frontend := ⟨cells, [], [], none⟩

/-- One event, `none` where it has no place: behind an execution error comes the reply that says the
same, and nothing else. -/
def receive (f : Frontend) : Event → Option Frontend
  | .stream name text =>
      match f.error, name with
      | none, .stdout => some { f with stdout := f.stdout ++ text }
      | none, .stderr => some { f with stderr := f.stderr ++ text }
      | some _, _ => none
  | .executionError e =>
      match f.error with
      | none => some { f with error := some e }
      | some _ => none
  | .reply res =>
      if f.error.all fun e => res = createErrorReply e.ename e.evalue e.traceback then
        some (idle (f.cells ++ [⟨f.stdout, f.stderr, f.error, res⟩]))
      else none

/-- The events are text on the two streams. -/
def Texts (es : List Event) : Prop := ∀ e ∈ es, ∃ name text, e = Event.stream name text

/-- The text among the events. -/
def textOf (name : StreamName) (es : List Event) : Str := es.flatMap (Event.textOn name)

/-- Text is collected by its stream. -/
theorem receive_texts {es : List Event} (h : Texts es) (cells : List Shown) (out err : Str) :
    es.foldlM receive ⟨cells, out, err, none⟩ =
      some ⟨cells, out ++ textOf .stdout es, err ++ textOf .stderr es, none⟩ := by
  induction es generalizing out err with
  | nil => simp [textOf]
  | cons e es ih =>
      obtain ⟨name, text, rfl⟩ := h e List.mem_cons_self
      have hes : Texts es := fun x hx => h x (List.mem_cons_of_mem _ hx)
      rw [List.foldlM_cons]
      cases name with
      | stdout =>
          refine (ih hes (out ++ text) err).trans ?_
          simp [textOf, Event.textOn]
      | stderr =>
          refine (ih hes out (err ++ text)).trans ?_
          simp [textOf, Event.textOn]

/-- The events of one request: its texts, its error if there is one, its reply. -/
theorem receive_request {es : List Event} (h : Texts es) {shown : Shown}
    (hout : textOf .stdout es = shown.stdout) (herr : textOf .stderr es = shown.stderr)
    (hres : ∀ e ∈ shown.error, shown.reply = createErrorReply e.ename e.evalue e.traceback)
    (cells : List Shown) :
    (es ++ shown.ending).foldlM receive (idle cells) = some (idle (cells ++ [shown])) := by
  rw [List.foldlM_append, idle, receive_texts h, hout, herr, Option.bind_eq_bind, Option.bind_some]
  obtain ⟨out, err, error, res⟩ := shown
  cases error with
  | none => rfl
  | some e =>
      have hsame : res = createErrorReply e.ename e.evalue e.traceback := hres e rfl
      simp [Shown.ending, receive, hsame]

end Frontend

/-! ## The machine behind the kernel -/

/-- A kernel without streams, captures and log. -/
structure Plain where
  disk : Disk
  requests : List Request
  varCount : Nat
  magics : Registry

def Kernel.plain (k : Kernel) : Plain := ⟨k.disk, k.requests, k.varCount, k.magics⟩

namespace Plain

variable (p : Plain)

/-- A handler that works on files, network and streams. -/
def handle (f : World → KernelRes × World) : Plain × Option Shown :=
  let r := f ⟨p.disk, [], [], p.requests⟩
  ({ p with disk := r.2.disk, requests := r.2.requests }, some ⟨r.2.out, r.2.err, none, r.1⟩)

/-- A query; no answer when the lookup throws. -/
def query (sys : System J) (code : Str) : Plain × Option Shown :=
  match sys.inspect p.disk (introspected code) p.varCount with
  | (.error _, varCount) => ({ p with varCount := varCount }, none)
  | (.ok page, varCount) =>
      ({ p with varCount := varCount }, some <|
        if page.isEmpty then
          ⟨[], lit "No documentation found for " ++ code ++ lit "\n", none,
            createErrorReply (lit "No documentation found") [] []⟩
        else ⟨[], [], none, createSuccessfulReply [buildInspectData page]⟩)

/-- A cell for the compiler. What it wrote directly comes first, what was captured behind it. -/
def evaluate (sys : System J) (code : Str) (config : Config) : Plain × Option Shown :=
  let outcome := sys.process (cStr code) p.disk
  let e := (System.evaluation outcome.result).withCompilation
    (Kernel.textTo (.fd .err) outcome.writes)
  let out := Kernel.textTo .cout outcome.writes ++ Kernel.textTo (.fd .out) outcome.writes
  let err := Kernel.textTo .cerr outcome.writes ++ shownErr outcome
  ({ p with disk := outcome.disk }, some {
    stdout := if config.silent then [] else out
    stderr := if config.silent then [] else err
    error := if e.errorlevel = 0 ∨ config.silent then none else some e.error
    reply :=
      if e.errorlevel = 0 then createSuccessfulReply []
      else createErrorReply e.error.ename e.error.evalue e.error.traceback })

/-- A cell for a preamble. -/
def apply (sys : System J) (code : Str) : Preamble → Plain × Option Shown
  | .introspection => p.query sys code
  | .magics => p.handle (p.magics.apply code KernelRes.new)
  | .shell => p.handle (sys.shellApply code KernelRes.new)

/-- A request, and its answer if there is one. -/
def serve (r : ExecuteRequest J) : Plain × Option Shown :=
  match Preamble.all.find? (·.isMatch r.code) with
  | some pre => p.apply r.sys r.code pre
  | none => p.evaluate r.sys r.code r.config

/-- The requests in their order, and the answers. -/
def serveAll : Plain → List (ExecuteRequest J) → Plain × List Shown
  | p, [] => (p, [])
  | p, r :: rs =>
      let s := p.serve r
      let t := serveAll s.1 rs
      (t.1, s.2.toList ++ t.2)

end Plain

section Request

variable {k k' : Kernel}

theorem plain_outputs (h : Outputs k k') : k'.plain = k.plain := by
  obtain ⟨b₁, b₂, es, rfl, -⟩ := h
  rfl

/-- Texts were added to the log. -/
def Says (k k' : Kernel) (es : List Event) : Prop :=
  Frontend.Texts es ∧ k'.events = k.events ++ es

theorem says_of_outputs (h : Outputs k k') : ∃ es, Says k k' es := by
  obtain ⟨b₁, b₂, es, rfl, hes⟩ := h
  exact ⟨es, hes, rfl⟩

/-- What was added is what the stream published since. -/
theorem textOf_eq {es : List Event} {t : Str} {name : StreamName} (h : k'.events = k.events ++ es)
    (ht : k'.published name = k.published name ++ t) : Frontend.textOf name es = t := by
  rw [Kernel.published, h, List.flatMap_append] at ht
  exact List.append_cancel_left ht

/-- What one request adds to the log is read as the answer of the machine. -/
structure ReadsAs (k k' : Kernel) (a : Plain × Option Shown) : Prop where
  plain : k'.plain = a.1
  read : ∃ es, k'.events = k.events ++ es ∧ ∀ cells,
    es.foldlM Frontend.receive (.idle cells) = some (.idle (cells ++ a.2.toList))

/-- Texts, then the error if there is one, then the reply. -/
theorem readsAs_of_said {k₁ : Kernel} {es : List Event} {p : Plain} {shown : Shown}
    (hsaid : Says k k₁ es) (hplain : k'.plain = p)
    (hlog : k'.events = k₁.events ++ shown.ending)
    (hres : ∀ e ∈ shown.error, shown.reply = createErrorReply e.ename e.evalue e.traceback)
    (hout : k₁.published .stdout = k.published .stdout ++ shown.stdout)
    (herr : k₁.published .stderr = k.published .stderr ++ shown.stderr) :
    ReadsAs k k' (p, some shown) := by
  obtain ⟨htexts, hes⟩ := hsaid
  refine ⟨hplain, es ++ shown.ending, ?_, fun cells => ?_⟩
  · rw [hlog, hes, List.append_assoc]
  · exact Frontend.receive_request htexts (textOf_eq hes hout) (textOf_eq hes herr) hres cells

/-! ## The preambles -/

/-- A handler behind an installed buffer. -/
theorem run_reads (h : Ready k) (f : World → KernelRes × World) :
    ReadsAs k ((k.run f).2.emit (.reply (k.run f).1)) (k.plain.handle f) := by
  let w := (f ⟨k.disk, [], [], k.requests⟩).2
  let k₀ : Kernel := { k with disk := w.disk, requests := w.requests }
  have houtputs : Outputs k₀ (k.run f).2 :=
    (Outputs.putCerr _ w.err).trans ((Outputs.putCout _ w.out).trans (Outputs.flushCout _))
  obtain ⟨es, hsaid⟩ := says_of_outputs houtputs
  obtain ⟨hready, hout, herr⟩ := h.toInstalled.run f
  rw [hready.written_eq, h.written_eq] at hout herr
  exact readsAs_of_said hsaid (plain_outputs houtputs) rfl (by simp) hout herr

/-- What a preamble does to a kernel, with the reply when it returns. -/
def replied (r : Except LookupError KernelRes × Kernel) : Kernel :=
  match r with
  | (.ok res, k) => k.emit (.reply res)
  | (.error _, k) => k

/-- A query answers like the machine, or throws and leaves the log as it was. -/
theorem query_reads (h : Ready k) (sys : System J) (code : Str) :
    ReadsAs k (replied (sys.introspectionApply code k)) (k.plain.query sys code) := by
  obtain ⟨hready, hwritten⟩ := introspection_written h sys code
  have hpublished : ∀ name, (sys.introspectionApply code k).2.published name =
      k.published name ++ preambleText sys .introspection code k name := by
    intro name
    rw [← hready.written_eq, hwritten, h.written_eq]
  unfold System.introspectionApply at hpublished ⊢
  unfold Plain.query
  cases hinspect : sys.inspect k.disk (introspected code) k.varCount with
  | mk result n =>
      have hsame : sys.inspect k.plain.disk (introspected code) k.plain.varCount = (result, n) :=
        hinspect
      rw [hinspect] at hpublished
      rw [hsame]
      cases result with
      | error e => exact ⟨rfl, [], (List.append_nil _).symm, fun cells => by simp [Frontend.idle]⟩
      | ok page =>
          let k₁ : Kernel := { k with varCount := n }
          have hlookup : sys.lookup k.disk (introspected code) k.varCount = some page := by
            rw [Platform.lookup, hinspect]
            rfl
          -- a page that was not found is reported on `std::cerr`
          by_cases hpage : page.isEmpty = true
          · have houtputs := (Outputs.flushCout k₁).trans
              (Outputs.putCerr _ (lit "No documentation found for " ++ code ++ lit "\n"))
            obtain ⟨es, hsaid⟩ := says_of_outputs houtputs
            have hnone := List.isEmpty_iff.mp hpage
            simp only [hpage, if_true] at hpublished ⊢
            refine readsAs_of_said hsaid (plain_outputs houtputs) rfl (by simp)
              (hpublished .stdout) ((hpublished .stderr).trans ?_)
            simp [preambleText, hlookup, hnone]
          · have houtputs := Outputs.flushCout k₁
            obtain ⟨es, hsaid⟩ := says_of_outputs houtputs
            have hsome : page ≠ [] := fun hp => hpage (by simp [hp])
            simp only [hpage] at hpublished ⊢
            refine readsAs_of_said hsaid (plain_outputs houtputs) rfl (by simp)
              (hpublished .stdout) ((hpublished .stderr).trans ?_)
            simp [preambleText, hlookup, hsome]

theorem apply_reads (h : Ready k) (sys : System J) (pre : Preamble) (code : Str) :
    ReadsAs k (replied (sys.preambleApply pre code k)) (k.plain.apply sys code pre) := by
  cases pre with
  | introspection => exact query_reads h sys code
  | magics => exact run_reads h _
  | shell => exact run_reads h _

/-! ## The compiler -/

/-- The answer of the kernel to an evaluation. -/
def Evaluated (config : Config) (e : System.Evaluation) (shown : Shown) : Prop :=
  shown.error = (if e.errorlevel = 0 ∨ config.silent then none else some e.error) ∧
    shown.reply = if e.errorlevel = 0 then createSuccessfulReply []
      else createErrorReply e.error.ename e.error.evalue e.error.traceback

theorem answer_ending {config : Config} {e : System.Evaluation} {shown : Shown}
    (h : Evaluated config e shown) (k : Kernel) :
    ((System.answer config e k).2.emit (.reply (System.answer config e k).1)).events =
      k.events ++ shown.ending := by
  obtain ⟨herror, hreply⟩ := h
  rw [Shown.ending, herror, hreply]
  by_cases hlevel : e.errorlevel = 0
  · rw [answer_ok hlevel, if_pos (.inl hlevel), if_pos hlevel]
    rfl
  · rw [answer_error hlevel, if_neg hlevel]
    cases config.silent with
    | true => simp [Kernel.emit]
    | false => simp [Kernel.emit, hlevel]

theorem unsilence_log (silent : Bool) (old k : Kernel) :
    (System.unsilence silent old k).events = k.events ∧
      (System.unsilence silent old k).plain = k.plain := by
  cases silent <;> exact ⟨rfl, rfl⟩

theorem answer_plain (config : Config) (e : System.Evaluation) (k : Kernel) :
    (System.answer config e k).2.plain = k.plain := by
  unfold System.answer
  split
  · rfl
  · dsimp only
    split <;> rfl

theorem published_ending {k₁ : Kernel} {shown : Shown} (h : k'.events = k₁.events ++ shown.ending)
    (name : StreamName) : k'.published name = k₁.published name := by
  have hending : shown.ending.flatMap (Event.textOn name) = [] := by
    obtain ⟨out, err, error, res⟩ := shown
    cases error <;> rfl
  rw [Kernel.published, h, List.flatMap_append, hending, List.append_nil, Kernel.published]

/-- The path of the compiler: texts, the error, the reply. -/
theorem compile_log (sys : System J) (code : Str) (config : Config) (k : Kernel) {p : Plain}
    {shown : Shown} (h : k.plain.evaluate sys code config = (p, some shown)) :
    ∃ k₁ es, Says k k₁ es ∧
      (sys.compile code config k).events = k₁.events ++ shown.ending ∧
      (sys.compile code config k).plain = p := by
  let silenced := System.silence config.silent k
  let outcome := sys.process (cStr code) silenced.disk
  let err := System.captured outcome silenced
  let e := (System.evaluation outcome.result).withCompilation err.1
  let k' := if e.compilationResult then err.2.putCerr err.1 else err.2
  let k₁ := k'.flushCout.flushCerr
  let begun : Kernel := { silenced with
    disk := outcome.disk
    captureCalls := silenced.captureCalls ++ [.opn .err, .opn .out, .cls .out, .cls .err] }
  have hput : Outputs err.2 k' := by
    dsimp only [k']
    split
    · exact Outputs.putCerr _ _
    · exact Outputs.refl _
  have houtputs : Outputs begun k₁ := (captured_outputs outcome silenced).trans
    (hput.trans ((Outputs.flushCout k').trans (Outputs.flushCerr _)))
  obtain ⟨es, htexts, hes⟩ := says_of_outputs houtputs
  have hbegun : begun.events = k.events ∧ begun.plain = { k.plain with disk := outcome.disk } := by
    dsimp only [begun, silenced]
    cases config.silent <;> exact ⟨rfl, rfl⟩
  have hcompile : (sys.compile code config k).events =
      ((System.answer config e k₁).2.emit (.reply (System.answer config e k₁).1)).events ∧
      (sys.compile code config k).plain = (System.answer config e k₁).2.plain :=
    unsilence_log config.silent k _
  -- the machine evaluates the same outcome
  have hevaluated : Evaluated config e shown ∧ p = { k.plain with disk := outcome.disk } := by
    have herr : err.1 = Kernel.textTo (.fd .err) outcome.writes := by
      dsimp only [err]
      rw [captured_eq]
    have hdisk : silenced.disk = k.plain.disk := silence_disk config.silent k
    dsimp only [e]
    rw [herr]
    dsimp only [outcome]
    rw [hdisk]
    cases h
    exact ⟨⟨rfl, rfl⟩, rfl⟩
  refine ⟨k₁, es, ⟨htexts, ?_⟩, ?_, ?_⟩
  · rw [hes, hbegun.1]
  · rw [hcompile.1, answer_ending hevaluated.1]
  · rw [hcompile.2, answer_plain, plain_outputs houtputs, hbegun.2, hevaluated.2]

/-- What a cell publishes on the two streams. -/
theorem compile_published (h : Ready k) (sys : System J) (code : Str) (config : Config) {p : Plain}
    {shown : Shown} (he : k.plain.evaluate sys code config = (p, some shown)) :
    (sys.compile code config k).published .stdout = k.published .stdout ++ shown.stdout ∧
      (sys.compile code config k).published .stderr = k.published .stderr ++ shown.stderr := by
  obtain ⟨silent, allowStdin⟩ := config
  cases he
  cases silent with
  | true =>
      obtain ⟨disk, calls, res, hcompile⟩ := compile_silent sys code allowStdin k
      have hsame : ∀ name, (sys.compile code ⟨true, allowStdin⟩ k).published name =
          k.published name := by
        intro name
        rw [hcompile]
        exact published_emit_reply _ name res
      rw [hsame, hsame]
      exact ⟨(List.append_nil _).symm, (List.append_nil _).symm⟩
  | false =>
      obtain ⟨k₁, res, hcompile, hout, herr, -⟩ := compile_loud h.toInstalled sys code allowStdin
      rw [hcompile, published_emit_reply, published_emit_reply, hout, herr, h.written_eq,
        h.written_eq, List.append_assoc, List.append_assoc]
      exact ⟨rfl, rfl⟩

theorem compile_reads (h : Ready k) (sys : System J) (code : Str) (config : Config) :
    ReadsAs k (sys.compile code config k) (k.plain.evaluate sys code config) := by
  obtain ⟨p, shown, he⟩ : ∃ p shown, k.plain.evaluate sys code config = (p, some shown) :=
    ⟨_, _, rfl⟩
  obtain ⟨k₁, es, hsaid, hlog, hplain⟩ := compile_log sys code config k he
  obtain ⟨hout, herr⟩ := compile_published h sys code config he
  rw [published_ending hlog] at hout herr
  rw [he]
  refine readsAs_of_said hsaid hplain hlog ?_ hout herr
  -- an error that is published is the one of the reply
  cases he
  intro error herror
  dsimp only at herror ⊢
  split at herror
  next => cases herror
  next hloud =>
    rw [if_neg (fun hlevel => hloud (.inl hlevel))]
    cases herror
    rfl

/-! ## Runs -/

/-- A request is read as the answer of the machine. -/
theorem serve_reads (h : Ready k) (r : ExecuteRequest J) :
    ReadsAs k (k.serve r) (k.plain.serve r) := by
  let k₀ : Kernel := { k with cin := .inputBuffer r.config.allowStdin }
  have h₀ : Ready k₀ := ⟨⟨h.cout, h.cerr⟩, h.pending⟩
  have hbody : ReadsAs k₀ (r.sys.executeBody r.code r.config k₀).2 (k₀.plain.serve r) := by
    unfold System.executeBody Plain.serve
    cases Preamble.all.find? (·.isMatch r.code) with
    | none => exact compile_reads h₀ r.sys r.code r.config
    | some pre =>
        have happly := apply_reads h₀ r.sys pre r.code
        dsimp only
        revert happly
        rcases r.sys.preambleApply pre r.code k₀ with ⟨res | res, k'⟩ <;> exact id
  exact ⟨hbody.plain, hbody.read⟩

theorem serveAll_reads (h : Ready k) (rs : List (ExecuteRequest J)) :
    (k.serveAll rs).plain = (k.plain.serveAll rs).1 ∧
      ∃ es, (k.serveAll rs).events = k.events ++ es ∧ ∀ cells,
        es.foldlM Frontend.receive (.idle cells) =
          some (.idle (cells ++ (k.plain.serveAll rs).2)) := by
  induction rs generalizing k with
  | nil => exact ⟨rfl, [], (List.append_nil _).symm, fun cells => by simp [Plain.serveAll]⟩
  | cons r rs ih =>
      have hstep := serve_reads h r
      obtain ⟨hplain, es', hes', hread'⟩ := ih (execute_ready h r.sys r.code r.config)
      obtain ⟨es, hes, hread⟩ := hstep.read
      have hserve : (k.serve r).plain = (k.plain.serve r).1 := hstep.plain
      rw [show (r.sys.execute r.code r.config k).2 = k.serve r from rfl, hserve] at hplain hread'
      refine ⟨hplain, es ++ es', ?_, fun cells => ?_⟩
      · show ((k.serve r).serveAll rs).events = _
        rw [← List.append_assoc, ← hes]
        exact hes'
      · rw [List.foldlM_append, hread, Option.bind_eq_bind, Option.bind_some, hread',
          List.append_assoc]
        rfl

end Request

/-- **The frontend shows what the machine answers**: over every run of requests it accepts what the
kernel adds to the log and shows one cell for each request that is answered, in their order, with the
texts, the error and the reply of the machine; nothing is left over behind the last one. -/
theorem frontend_refines (magics : Registry) (before : Kernel) (rs : List (ExecuteRequest J)) :
    let start := (InterpreterObject.construct magics before).kernel
    (start.serveAll rs).plain = (start.plain.serveAll rs).1 ∧
      ∃ es, (start.serveAll rs).events = before.events ++ es ∧
        es.foldlM Frontend.receive (.idle []) = some (.idle (start.plain.serveAll rs).2) := by
  intro start
  have hready : Ready start := (Reachable.ready (J := J) ⟨magics, before, [], rfl⟩)
  obtain ⟨hplain, es, hes, hread⟩ := serveAll_reads hready rs
  exact ⟨hplain, es, hes, hread []⟩

end XeusCpp.Interpreter
