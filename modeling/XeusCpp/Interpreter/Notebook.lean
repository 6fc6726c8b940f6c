/-
# XeusCpp.Interpreter.Notebook — notebooks of `%%xassist` and `%%file` cells.

A cell travels through the whole kernel: the loop over the preambles, the registry, the two searches
that split it, the magic, and the files and the network behind that. For a cell that is well formed
this amounts to what the cell says. `notebook_saved` follows notebooks of such cells, in any order and
any number: the files are the accounts of the assistant and the texts that were written, each as if
the other cells were not there, the requests are those of the prompts, and every cell is answered
with ok.
-/
import XeusCpp.Assist.Header
import XeusCpp.Assist.Session
import XeusCpp.Magics.Registered
import XeusCpp.Magics.WriteFile
import XeusCpp.Interpreter.Preambles
import XeusCpp.Interpreter.Redirect

namespace XeusCpp.Interpreter

open Text Host Magics Assist Regex Logic

/-! ## The cells -/

/-- The header of a cell for the assistant, with the name of the magic. -/
def assistHeader (arguments : Str) : Str := lit "xassist" ++ ((' ' : Char) : Byte) :: arguments

/-- `%%xassist arguments`, and a body. -/
structure AssistCell where
  arguments : Str
  body : Str
  oneLine : ∀ c ∈ arguments, isDot c = true
  /-- There is a word behind the name of the magic. -/
  hasModel : command (assistHeader arguments) ≠ .undefined
  hasBody : body ≠ []
  noReturn : (('\r' : Char) : Byte) ∉ body

def AssistCell.code (c : AssistCell) : Str := lit "%%xassist " ++ c.arguments ++ lit "\n" ++ c.body

/-- The call of the operator, for what the network answers. -/
def AssistCell.call (c : AssistCell) (response : Except Str Str) : Call :=
  ⟨assistHeader c.arguments, c.body, response⟩

/-- A `%%file` cell whose file is none of the assistant. -/
structure WriteCell extends FileCell where
  isName : IsFileName name
  hasBody : body ≠ []
  noReturn : (('\r' : Char) : Byte) ∉ body
  apart : ∀ m ∈ models, name ∉ files m

inductive NotebookCell
  | assist (c : AssistCell)
  | write (c : WriteCell)

def NotebookCell.code : NotebookCell → Str
  | assist c => c.code
  | write c => c.toFileCell.code

/-! ## What the cells say -/

/-- The accounts of the assistant, and the texts in the other files. -/
structure Notes where
  accounts : Accounts
  texts : Str → Str

section

variable {J : Type} (lib : JsonLibrary J) (denote : J → Json)

/-- A cell, for what the network answers if it is asked. -/
def Notes.serve : Service Notes (NotebookCell × Except Str Str) (List Post) := fun notes x =>
  match x.1 with
  | .assist c =>
      (Accounts.serve lib denote notes.accounts (c.call x.2)).map fun r =>
        ({ notes with accounts := r.1 }, r.2)
  | .write c =>
      some ({ notes with
        texts := Function.update notes.texts c.name (c.written (notes.texts c.name)) }, [])

end

/-- Every file opens, and what is in them are the notes. -/
structure Saved (d : Disk) (notes : Notes) : Prop where
  opens : ∀ f, IsFileName f → d.Opens f
  accounts : ∀ m ∈ models, Represents d m (notes.accounts m)
  texts : ∀ f, (∀ m ∈ models, f ∉ files m) → d.bytes f = notes.texts f

/-! ## A magic in the kernel -/

section Kernel

variable {J : Type} {k : Kernel} {code : Str}

/-- A cell magic with a name goes to the registry. -/
theorem find_twoPercent {t : Str} (h : t.takeWhile isWord ≠ []) :
    Preamble.all.find? (·.isMatch (twoPercent t)) = some .magics := by
  have hmatch : Preamble.magics.isMatch (twoPercent t) = true := by
    let c : Cursor := ⟨0, twoPercent t, []⟩
    obtain ⟨mt, hname⟩ : ∃ mt, (group 1 (plus word)).exec (fun d => some (c.toMatch d))
        ((c.advance 1).advance 1) = some mt := ⟨_, exec_name h rfl⟩
    have hsearch : search Magics.pattern (twoPercent t) = some mt := by
      rw [Magics.pattern, search_bos, matchAt, exec_seq]
      apply exec_alt_left
      rw [exec_seq, percent, exec_char (s := lit "%" ++ t) rfl, exec_char (s := t) rfl]
      exact hname
    exact Option.isSome_iff_exists.mpr ⟨mt, hsearch⟩
  have hquery : Preamble.introspection.isMatch (twoPercent t) = false := by
    rw [← Bool.not_eq_true]
    exact fun hq => absurd (isMatch_unique hq hmatch) (by decide)
  simp only [Preamble.all, List.find?_cons, hquery, hmatch]

/-- A handler leaves its files and requests. -/
theorem run_files {α : Type} (k : Kernel) (f : World → α × World) :
    let w := (f ⟨k.disk, [], [], k.requests⟩).2
    (k.run f).2.disk = w.disk ∧ (k.run f).2.requests = w.requests ∧
      (k.run f).2.magics = k.magics := by
  intro w
  have hrun : Outputs { k with disk := w.disk, requests := w.requests } (k.run f).2 :=
    (Outputs.putCerr _ w.err).trans ((Outputs.putCout _ w.out).trans (Outputs.flushCout _))
  obtain ⟨b₁, b₂, es, heq, -⟩ := hrun
  rw [heq]
  exact ⟨rfl, rfl, rfl⟩

/-- What the registry makes of a cell is what the request does. -/
theorem serve_magic (hfind : Preamble.all.find? (·.isMatch code) = some .magics) {a : Applied}
    (ha : k.magics.manager.apply code .new ⟨k.disk, [], [], k.requests⟩ = some a) (sys : System J)
    (config : Config) :
    let k' := k.serve ⟨sys, code, config⟩
    k'.disk = a.world.disk ∧ k'.requests = a.world.requests ∧ k'.magics = k.magics ∧
      k'.replies = k.replies ++ [a.res] := by
  let k₀ : Kernel := { k with cin := .inputBuffer config.allowStdin }
  have happly : k.magics.apply code .new ⟨k.disk, [], [], k.requests⟩ = (a.res, a.world) := by
    simp [Registry.apply, ha]
  have hrun : (k₀.run (k.magics.apply code .new)).1 = a.res := congrArg Prod.fst happly
  have hexec : k.serve ⟨sys, code, config⟩ =
      { (k₀.run (k.magics.apply code .new)).2.emit (.reply a.res) with cin := k.cin } := by
    show (sys.execute code config k).2 = _
    unfold System.execute System.executeBody
    rw [hfind, ← hrun]
    rfl
  obtain ⟨hdisk, hrequests, hmagics⟩ := run_files k₀ (k.magics.apply code .new)
  have hworld : (k.magics.apply code .new ⟨k₀.disk, [], [], k₀.requests⟩).2 = a.world :=
    congrArg Prod.snd happly
  rw [hworld] at hdisk hrequests
  have hreplies := (TextOnly.run k₀ (k.magics.apply code .new)).replies
  rw [hexec]
  refine ⟨hdisk, hrequests, hmagics, ?_⟩
  show Kernel.replies (Kernel.emit _ _) = _
  rw [(emit_reply _ _).1, hreplies]
  rfl

/-! ## One cell -/

section Cell

variable {m : Manager} {lib : JsonLibrary J} {w : World}

theorem code_assist (c : AssistCell) : c.code =
    twoPercent (assistHeader c.arguments ++ (('\n' : Char) : Byte) :: c.body) := by
  show lit "%%xassist " ++ c.arguments ++ lit "\n" ++ c.body = lit "%%" ++ _
  rw [assistHeader]
  simp only [List.append_assoc]
  rfl

theorem takeWhile_xassist (u : Str) :
    (lit "xassist" ++ ((' ' : Char) : Byte) :: u).takeWhile isWord = lit "xassist" :=
  takeWhile_name isName_xassist (by simpa using by decide)

/-- A cell for the assistant calls the operator with its header and its body. -/
theorem apply_assist (hreg : XassistRegistered lib m) (c : AssistCell) (w : World) :
    ∃ a response, m.apply c.code .new w = some a ∧ (c.call response).run lib w = some a.world ∧
      a.res = KernelRes.new.setOk := by
  obtain ⟨f, hf, hcall⟩ := hreg
  have hrun : (assistHeader c.arguments ++ (('\n' : Char) : Byte) :: c.body).takeWhile isWord =
      lit "xassist" := by
    rw [assistHeader, List.append_assoc, List.cons_append, takeWhile_xassist]
  obtain ⟨found, hfound, h₁, h₂⟩ := split_spaced isName_xassist isspace_blank
    (t := assistHeader c.arguments ++ (('\n' : Char) : Byte) :: c.body)
    (by rw [assistHeader, List.append_assoc, List.cons_append]) c.oneLine
  rw [beforeReturn_of_not_mem c.noReturn] at h₂
  change found.str 1 = assistHeader c.arguments at h₁
  -- the call is defined, and the magic does what it does
  obtain ⟨response, hresponse⟩ := hcall (assistHeader c.arguments) c.body w
  have hdefined : xassist lib (assistHeader c.arguments) c.body response w ≠ none :=
    mt xassist_eq_none_iff.mp c.hasModel
  obtain ⟨w', hw'⟩ := Option.ne_none_iff_exists'.mp hdefined
  have hcell := Manager.applyCell_of_call .new hf c.hasBody (hresponse w' hw')
  refine ⟨⟨m, KernelRes.new.setOk, w', [.cell (lit "xassist") (assistHeader c.arguments) c.body]⟩,
    response, ?_, hw', rfl⟩
  rw [code_assist, apply_of_split hrun (contains_cell hf) isName_xassist.1, hfound, group?, group?,
    h₁, h₂, hcell]
  rfl

theorem writefile_requests (argparser : ArgParser) (line cell : Str) (w : World) :
    (writefile argparser line cell w).2.requests = w.requests := by
  have hparse : (argparser.parse line w).2.requests = w.requests := by
    unfold ArgParser.parse
    dsimp only
    split
    · rfl
    · rfl
  unfold writefile
  dsimp only
  split
  · exact hparse
  · split
    · exact hparse
    · exact hparse

theorem code_write (c : FileCell) : c.code = twoPercent (lit "file" ++ ((' ' : Char) : Byte) ::
    (c.arguments ++ (('\n' : Char) : Byte) :: c.body)) := by
  show lit "%%file " ++ c.arguments ++ lit "\n" ++ c.body = lit "%%file " ++ _
  simp only [List.append_assoc]
  rfl

theorem takeWhile_file (u : Str) :
    (lit "file" ++ ((' ' : Char) : Byte) :: u).takeWhile isWord = lit "file" :=
  takeWhile_name (by decide) (by simpa using by decide)

/-- A `%%file` cell writes its body. -/
theorem apply_write {argparser : ArgParser} (hp : argparser.Declared)
    (hm : FileRegistered argparser m) (c : WriteCell) (hopen : w.disk.Opens c.name) :
    ∃ a, m.apply c.toFileCell.code .new w = some a ∧
      a.world.disk = w.disk.put c.name (c.written (w.disk.bytes c.name)) ∧
      a.world.requests = w.requests ∧ a.res = KernelRes.new.setOk := by
  have hname : IsName (lit "file") := by decide
  obtain ⟨found, hfound, h₁, h₂⟩ := split_spaced hname isspace_blank rfl
    (isDot_arguments c.isName)
  rw [beforeReturn_of_not_mem c.noReturn] at h₂
  obtain ⟨w', hw', hdisk⟩ := writefile_of_parsed (parse_header hp c.isName w) c.isName.noNul hopen
    c.body
  have hrequests := writefile_requests argparser
    (lit "file" ++ ((' ' : Char) : Byte) :: c.arguments) c.body w
  rw [hw'] at hrequests
  have hcell := Manager.applyCell_of_call .new hm c.hasBody hw'
  have happly : m.apply c.toFileCell.code .new w = some ⟨m, KernelRes.new.setOk, w',
      [.cell (lit "file") (lit "file" ++ ((' ' : Char) : Byte) :: c.arguments) c.body]⟩ := by
    rw [code_write, apply_of_split (takeWhile_file _) (contains_cell hm) (by decide), hfound,
      group?, group?, h₁, h₂, hcell]
    rfl
  exact ⟨_, happly, hdisk, hrequests, rfl⟩

theorem find_assist (c : AssistCell) :
    Preamble.all.find? (·.isMatch c.code) = some .magics := by
  rw [code_assist]
  apply find_twoPercent
  rw [assistHeader, List.append_assoc, List.cons_append, takeWhile_xassist]
  decide

theorem find_write (c : WriteCell) :
    Preamble.all.find? (·.isMatch c.toFileCell.code) = some .magics := by
  rw [code_write]
  apply find_twoPercent
  rw [takeWhile_file]
  decide

/-- A call of the operator sends behind what was sent before. -/
theorem run_sends {c : Call} {w' : World} (h : c.run lib w = some w') :
    ∃ sent, w'.requests = w.requests ++ sent := by
  unfold Call.run xassist at h
  cases hcmd : command c.line <;> rw [hcmd] at h <;> cases h
  case prompt n =>
    have hmodel : (command c.line).model? = some n := by
      rw [hcmd]
      rfl
    exact ⟨_, ask_requests lib (command_model? hmodel) _ _ _⟩
  case unknown => exact ⟨[], (List.append_nil _).symm⟩
  case saveKey => exact ⟨[], by rw [save_requests, List.append_nil]⟩
  case saveModel => exact ⟨[], by rw [save_requests, List.append_nil]⟩
  case setUrl => exact ⟨[], by rw [save_requests, List.append_nil]⟩
  case refresh => exact ⟨[], by rw [refresh_requests, List.append_nil]⟩

end Cell

section Step

variable {lib : JsonLibrary J} {denote : J → Json} {d d' : Disk} {notes : Notes}

theorem Saved.opens_frame {p : Str} (h : Saved d notes) (hd : Disk.SameBut p d d') :
    ∀ f, IsFileName f → d'.Opens f :=
  fun f hf => (opens_of_sameBut hd f).mpr (h.opens f hf)

/-- A file of the assistant is none of the texts. -/
theorem Saved.assist {p : Str} {n : Str} (h : Saved d notes) (hn : n ∈ models) (hp : p ∈ files n)
    (hd : Disk.SameBut p d d') {accounts : Accounts}
    (haccounts : ∀ m ∈ models, Represents d' m (accounts m)) :
    Saved d' { notes with accounts := accounts } where
  opens := h.opens_frame hd
  accounts := haccounts
  texts f hf := by
    rw [hd.bytes fun hfp : f = p => hf n hn (hfp ▸ hp), h.texts f hf]

theorem Saved.write (h : Saved d notes) (c : WriteCell) :
    Saved (d.put c.name (c.written (d.bytes c.name))) { notes with
      texts := Function.update notes.texts c.name (c.written (notes.texts c.name)) } where
  opens := h.opens_frame (Disk.sameBut_put _ _ _)
  accounts m hm := (h.accounts m hm).frame (Disk.sameBut_put _ _ _) (c.apart m hm)
  texts f hf := by
    show _ = Function.update notes.texts c.name (c.written (notes.texts c.name)) f
    by_cases hfc : f = c.name
    · subst hfc
      rw [Disk.put_bytes_self, Function.update_self, h.texts _ hf]
    · rw [Function.update_of_ne hfc, (Disk.sameBut_put _ _ _).bytes hfc, h.texts f hf]

/-- The kernel as the constructor leaves it: both magics are registered. -/
structure HasMagics (lib : JsonLibrary J) (argparser : ArgParser) (m : Manager) : Prop where
  xassist : XassistRegistered lib m
  file : FileRegistered argparser m
  declared : argparser.Declared

/-- Behind the requests `posts` stands for, and one more ok. -/
structure Answers (k k' : Kernel) (posts : List Post) : Prop where
  magics : k'.magics = k.magics
  replies : k'.replies = k.replies ++ [KernelRes.new.setOk]
  requests : ∃ sent, k'.requests = k.requests ++ sent ∧ List.Forall₂ Carries sent posts

theorem serve_assist {argparser : ArgParser} (hm : HasMagics lib argparser k.magics.manager)
    (hdump : ∀ j, Json.parse (lib.dump j) = some (denote j)) (h : Saved k.disk notes)
    (c : AssistCell) (sys : System J) (config : Config) :
    ∃ response notes' posts, notes.serve lib denote (.assist c, response) = some (notes', posts) ∧
      Saved (k.serve ⟨sys, c.code, config⟩).disk notes' ∧
      Answers k (k.serve ⟨sys, c.code, config⟩) posts := by
  let w : World := ⟨k.disk, [], [], k.requests⟩
  obtain ⟨a, response, ha, hrun, hres⟩ := apply_assist hm.xassist c w
  obtain ⟨hdisk, hrequests, hmagics, hreplies⟩ := serve_magic (find_assist c) ha sys config
  have hserve : Call.serve lib w (c.call response) =
      some (a.world, a.world.requests.drop w.requests.length) := by
    rw [Call.serve, hrun, Option.map_some]
  have hkept : Kept w notes.accounts := h.accounts
  obtain ⟨⟨accounts', posts⟩, haccounts, hkept', hcarries⟩ :=
    exists_of_rel (call_refines hdump hkept (c.call response)) hserve
  refine ⟨response, { notes with accounts := accounts' }, posts, ?_, ?_, ?_⟩
  · rw [Notes.serve]
    dsimp only
    rw [haccounts]
    rfl
  · rw [hdisk]
    rcases call_frame hrun with hsame | ⟨n, p, hn, hp, hframe⟩
    · exact ⟨fun f hf => hsame ▸ h.opens f hf, hkept', fun f hf => hsame ▸ h.texts f hf⟩
    · exact h.assist (command_model? hn) hp hframe hkept'
  · obtain ⟨sent, hsent⟩ := run_sends hrun
    refine ⟨hmagics, by rw [hreplies, hres], sent, by rw [hrequests, hsent], ?_⟩
    rw [hsent, List.drop_left] at hcarries
    exact hcarries

theorem serve_write {argparser : ArgParser} (hm : HasMagics lib argparser k.magics.manager)
    (h : Saved k.disk notes) (c : WriteCell) (response : Except Str Str) (sys : System J)
    (config : Config) :
    ∃ notes', notes.serve lib denote (.write c, response) = some (notes', []) ∧
      Saved (k.serve ⟨sys, c.toFileCell.code, config⟩).disk notes' ∧
      Answers k (k.serve ⟨sys, c.toFileCell.code, config⟩) [] := by
  obtain ⟨a, ha, hput, hsame, hres⟩ := apply_write (w := ⟨k.disk, [], [], k.requests⟩) hm.declared
    hm.file c (h.opens c.name c.isName)
  obtain ⟨hdisk, hrequests, hmagics, hreplies⟩ := serve_magic (find_write c) ha sys config
  refine ⟨_, rfl, ?_, hmagics, by rw [hreplies, hres], [], ?_, .nil⟩
  · rw [hdisk, hput]
    exact h.write c
  · rw [hrequests, hsame, List.append_nil]

/-- A notebook, each cell with its configuration. -/
def notebook (sys : System J) (cells : List (NotebookCell × Config)) : List (ExecuteRequest J) :=
  cells.map fun x => ⟨sys, x.1.code, x.2⟩

/-- One cell, of either kind. -/
theorem serve_cell {argparser : ArgParser} (hm : HasMagics lib argparser k.magics.manager)
    (hdump : ∀ j, Json.parse (lib.dump j) = some (denote j)) (h : Saved k.disk notes)
    (c : NotebookCell) (sys : System J) (config : Config) :
    ∃ response notes' posts, notes.serve lib denote (c, response) = some (notes', posts) ∧
      Saved (k.serve ⟨sys, c.code, config⟩).disk notes' ∧
      Answers k (k.serve ⟨sys, c.code, config⟩) posts := by
  cases c with
  | assist c => exact serve_assist hm hdump h c sys config
  | write c =>
      obtain ⟨notes', hserve, hsaved, hanswers⟩ := serve_write hm h c (.ok []) sys config
      exact ⟨.ok [], notes', [], hserve, hsaved, hanswers⟩

/-- **Notebooks mean what their cells say**: for some answers of the network, the files behind a notebook
are those of the notes it leads to, its requests are those of the prompts, in their order, and every
cell is answered with ok. -/
theorem notebook_saved {argparser : ArgParser} (hm : HasMagics lib argparser k.magics.manager)
    (hdump : ∀ j, Json.parse (lib.dump j) = some (denote j)) (h : Saved k.disk notes)
    (sys : System J) (cells : List (NotebookCell × Config)) :
    ∃ responses : List (Except Str Str), responses.length = cells.length ∧ ∃ notes' log,
      (Notes.serve lib denote).session notes ((cells.map Prod.fst).zip responses) =
        some (notes', log) ∧
      Saved (k.serveAll (notebook sys cells)).disk notes' ∧
      (∃ sent, (k.serveAll (notebook sys cells)).requests = k.requests ++ sent ∧
        List.Forall₂ Carries sent (log.flatMap Prod.snd)) ∧
      (k.serveAll (notebook sys cells)).replies =
        k.replies ++ List.replicate cells.length KernelRes.new.setOk := by
  induction cells generalizing k notes with
  | nil =>
      refine ⟨[], rfl, notes, [], rfl, h, ⟨[], (List.append_nil _).symm, .nil⟩, ?_⟩
      exact (List.append_nil _).symm
  | cons x cells ih =>
      obtain ⟨response, notes', posts, hserve, hsaved, hanswers⟩ :=
        serve_cell hm hdump h x.1 sys x.2
      rw [← hanswers.magics] at hm
      obtain ⟨responses, hlength, notes'', log, hsession, hsaved', ⟨sent', hsent', hcarries'⟩,
        hreplies⟩ := ih hm hsaved
      obtain ⟨sent, hsent, hcarries⟩ := hanswers.requests
      refine ⟨response :: responses, congrArg (· + 1) hlength, notes'', ((x.1, response), posts) :: log,
        ?_, hsaved', ⟨sent ++ sent', ?_, ?_⟩, ?_⟩
      · exact Service.session_cons_eq_some.mpr ⟨notes', posts, log, hserve, hsession, rfl⟩
      · rw [← List.append_assoc, ← hsent]
        exact hsent'
      · exact List.rel_append hcarries hcarries'
      · show ((k.serve _).serveAll (notebook sys cells)).replies = _
        rw [hreplies, hanswers.replies, List.append_assoc, List.length_cons, List.replicate_succ]
        rfl

end Step

end Kernel

/-! ## The registry of the kernel -/

/-- `interpreter::init_magic` -/
def initMagic (argparser : ArgParser) (xassist : CellMagic) : Manager :=
  (Manager.new.registerMagic (lit "file") none (some ⟨writefile argparser⟩)).registerMagic
    (lit "xassist") none (some xassist)

theorem initMagic_sound (argparser : ArgParser) (xassist : CellMagic) :
    (initMagic argparser xassist).Sound :=
  (Manager.holds_new.sound.register _ _ _).register _ _ _

theorem hasMagics_initMagic {J : Type} {lib : JsonLibrary J} {argparser : ArgParser}
    (hp : argparser.Declared) {f : CellMagic} (hf : ∀ line cell w, ∃ response, ∀ w',
      xassist lib line cell response w = some w' → f.call line cell w = (none, w')) :
    HasMagics lib argparser (initMagic argparser f) :=
  ⟨⟨f, rfl, hf⟩, rfl, hp⟩

/-- A network that answers nothing. -/
def offline : CellMagic := ⟨fun line cell w => (none, (xassist jsonLibrary line cell (.ok []) w).getD w)⟩

theorem offline_xassist (line cell : Str) (w : World) : ∃ response, ∀ w',
    xassist jsonLibrary line cell response w = some w' → offline.call line cell w = (none, w') := by
  refine ⟨.ok [], fun w' hw' => ?_⟩
  show (none, Option.getD _ w) = _
  rw [hw']
  rfl

def notebookKernel : Kernel :=
  { Kernel.fresh with magics := ⟨initMagic fileArguments offline, initMagic_sound _ _⟩ }

/-- A file is written, a name is saved, and the file is continued. -/
def firstNotebook : List (NotebookCell × Config) :=
  [(.write ⟨⟨false, lit "a", lit "x"⟩, isFileName_a, by decide, by decide, by decide⟩, ⟨false, false⟩),
    (.assist ⟨lit "ollama --save-model", lit "llama3", List.all_eq_true.mp rfl, by decide, by decide,
      by decide⟩, ⟨false, false⟩),
    (.write ⟨⟨true, lit "a", lit "y"⟩, isFileName_a, by decide, by decide, by decide⟩, ⟨true, false⟩)]

theorem saved_fresh : Saved notebookKernel.disk ⟨fun _ => .new, fun _ => []⟩ where
  opens _ _ := ⟨rfl, rfl⟩
  accounts := kept_fresh
  texts _ _ := rfl

theorem notebook_saved_first :
    (notebookKernel.serveAll (notebook bareSystem firstNotebook)).replies =
        List.replicate 3 KernelRes.new.setOk ∧
      ∃ notes, Saved (notebookKernel.serveAll (notebook bareSystem firstNotebook)).disk notes := by
  obtain ⟨-, -, notes, -, -, hsaved, -, hreplies⟩ := @notebook_saved Json notebookKernel jsonLibrary id
    _ fileArguments (hasMagics_initMagic fileArguments_declared offline_xassist) Json.parse_dump
    saved_fresh bareSystem firstNotebook
  exact ⟨hreplies, notes, hsaved⟩

end XeusCpp.Interpreter
