/-
# XeusCpp.Magics.WriteFile — the `%%file` magic.

The header names a file and the cell is written into it, or behind what it holds. The argument
parser is a library and a parameter: what it makes of the words of the header is an input.

**`file_copies_iff`**: the body arrives whole exactly when it has no carriage return, and a run of
such cells leaves in every file the bodies since it was last overwritten.
-/
import XeusCpp.Magics.Split

namespace XeusCpp.Magics

open Text Host Regex

/-! ## `argparser` -/

/-- What `parse_args` leaves behind: the output of its actions, what it threw, what
`get<std::string>("filename")` gives, and whether `-a` was set. -/
structure Parsed where
  printed : Str
  thrown : Option Thrown
  filename : Except Thrown Str
  append : Bool

/-- The parser with the options of `get_options`, on `argv`. -/
abbrev ArgParser := List Str → Parsed

namespace ArgParser

/-- `argparser::parse`; what is still thrown was no `std::runtime_error`. -/
def parse (argparser : ArgParser) (line : Str) (w : World) : Parsed × World :=
  let parsed := argparser ((tokens line).map cStr)
  let w := w.cout parsed.printed
  match parsed.thrown with
  | some (.runtimeError what) => ({ parsed with thrown := none }, w.cerr (what ++ lit "\n"))
  | _ => (parsed, w)

/-- The parser takes one positional argument, and `-a` in front of it. -/
structure Declared (argparser : ArgParser) : Prop where
  filename : ∀ {program f : Str}, f ≠ [] → f.head? ≠ some (('-' : Char) : Byte) →
    argparser [program, f] = ⟨[], none, .ok f, false⟩
  append : ∀ {program f : Str}, f ≠ [] → f.head? ≠ some (('-' : Char) : Byte) →
    argparser [program, lit "-a", f] = ⟨[], none, .ok f, true⟩

end ArgParser

/-! ## `writefile` -/

def isFileExist (fileName : Str) (d : Disk) : Bool := (d.read (cStr fileName)).isSome

/-- `writefile::operator()` -/
def writefile (argparser : ArgParser) (line cell : Str) (w : World) : Option Thrown × World :=
  let r := argparser.parse line w
  match r.1.thrown with
  | some e => (some e, r.2)
  | none =>
      match r.1.filename with
      | .error e => (some e, r.2)
      | .ok filename =>
          let d := r.2.disk
          let path := cStr filename
          let text := cell ++ lit "\n"
          let file :=
            if isFileExist filename d then
              if r.1.append then (d.append path text, lit "Appending to ")
              else (d.write path text, lit "Overwriting ")
            else (d.write path text, lit "Writing ")
          let w := r.2.cout (file.2 ++ filename ++ lit "\n")
          -- a stream that did not open drops what is written to it
          (none, { w with disk := file.1.getD d })

/-- `register_magic("file", writefile())` has been called. -/
def FileRegistered (argparser : ArgParser) (m : Manager) : Prop :=
  m.magicCell (lit "file") = some (some ⟨writefile argparser⟩)

/-! ## Cells -/

/-- `%%file name` or `%%file -a name`, with a body. -/
structure FileCell where
  append : Bool
  name : Str
  body : Str

/-- A name the header can carry and a system can have: one word that is no option. -/
structure IsFileName (f : Str) : Prop where
  token : IsToken f
  noOption : f.head? ≠ some (('-' : Char) : Byte)
  noNul : (0 : Byte) ∉ f

namespace FileCell

variable (c : FileCell)

/-- The header behind the magic's name. -/
def arguments : Str := (if c.append then lit "-a " else []) ++ c.name

def code : Str := lit "%%file " ++ c.arguments ++ lit "\n" ++ c.body

/-- What the file is to hold, when it held `old`. -/
def written (old : Str) : Str := (if c.append then old else []) ++ (c.body ++ lit "\n")

/-- The cell is executed, its file gets its body, and no other file changes. -/
def Copies (m : Manager) (res : KernelRes) (w : World) : Prop :=
  ∃ a, m.apply c.code res w = some a ∧
    a.world.disk.content c.name = some (c.written (w.disk.bytes c.name)) ∧
      Disk.SameBut c.name w.disk a.world.disk

/-- The cell with the part of its body the split finds. -/
def upToReturn : FileCell := { c with body := beforeReturn c.body }

/-- The words of the header, in the form the parser gets them. -/
def words : List Str := lit "file" :: ((if c.append then [lit "-a"] else []) ++ [c.name])

end FileCell

/-! ## The header -/

section Header

variable {c : FileCell}

theorem isToken_file : IsToken (lit "file") := by decide

theorem isToken_append : IsToken (lit "-a") := by decide

theorem isspace_blank : isspace ((' ' : Char) : Byte) = true := by decide

theorem tokens_header (hname : IsFileName c.name) :
    tokens (lit "file" ++ ((' ' : Char) : Byte) :: c.arguments) = c.words := by
  rw [tokens_append_space isToken_file isspace_blank, FileCell.arguments, FileCell.words]
  cases c.append with
  | false =>
      show _ :: tokens c.name = _
      rw [tokens_of_isToken hname.token]
      rfl
  | true =>
      show _ :: tokens (lit "-a" ++ ((' ' : Char) : Byte) :: c.name) = _
      rw [tokens_append_space isToken_append isspace_blank, tokens_of_isToken hname.token]
      rfl

/-- No word of the header has a NUL, so the parser gets the words themselves. -/
theorem words_cStr (hname : IsFileName c.name) : c.words.map cStr = c.words := by
  have hfile : cStr (lit "file") = lit "file" := by decide
  have hoption : cStr (lit "-a") = lit "-a" := by decide
  have hf : cStr c.name = c.name := cStr_of_not_mem hname.noNul
  unfold FileCell.words
  cases c.append with
  | false => simp only [List.map_cons, List.map_append, List.map_nil, hfile, hf, if_neg,
      Bool.false_eq_true, not_false_eq_true]
  | true => simp only [List.map_cons, List.map_append, List.map_nil, hfile, hoption, hf, if_pos]

theorem parse_header {argparser : ArgParser} (hp : argparser.Declared) (hname : IsFileName c.name)
    (w : World) : argparser.parse (lit "file" ++ ((' ' : Char) : Byte) :: c.arguments) w =
      (⟨[], none, .ok c.name, c.append⟩, w) := by
  have hparsed : argparser c.words = ⟨[], none, .ok c.name, c.append⟩ := by
    unfold FileCell.words
    cases c.append with
    | false => exact hp.filename hname.token.1 hname.noOption
    | true => exact hp.append hname.token.1 hname.noOption
  have hw : w.cout [] = w := by
    rw [World.cout, List.append_nil]
  unfold ArgParser.parse
  rw [tokens_header hname, words_cStr hname, hparsed]
  dsimp only
  rw [hw]

/-- A header has no line break. -/
theorem isDot_arguments (hname : IsFileName c.name) : ∀ x ∈ c.arguments, isDot x = true := by
  have hdot : ∀ x : Byte, isspace x = false → isDot x = true := by decide +kernel
  intro x hx
  rcases List.mem_append.mp hx with hx | hx
  · revert hx
    cases c.append with
    | false => exact fun hx => absurd hx List.not_mem_nil
    | true => exact (List.all_eq_true.mp rfl : ∀ x ∈ lit "-a ", isDot x = true) x
  · exact hdot x (hname.token.2 x hx)

end Header

/-! ## One cell -/

section Cell

variable {argparser : ArgParser} {m : Manager} {res : KernelRes} {w : World} {c : FileCell}

/-- The file holds the text; whether it was there decides between the modes only. -/
theorem writefile_of_parsed {line : Str}
    (h : argparser.parse line w = (⟨[], none, .ok c.name, c.append⟩, w))
    (hnul : (0 : Byte) ∉ c.name) (hopen : w.disk.Opens c.name) (cell : Str) :
    ∃ w', writefile argparser line cell w = (none, w') ∧ w'.disk = w.disk.put c.name
      (({ c with body := cell } : FileCell).written (w.disk.bytes c.name)) := by
  unfold writefile
  rw [h]
  refine ⟨_, rfl, ?_⟩
  dsimp only
  unfold isFileExist
  rw [cStr_of_not_mem hnul, Disk.read, if_pos hopen.1]
  -- a file that is not there is written in either mode
  cases hc : w.disk.content c.name with
  | none =>
      have hbytes : w.disk.bytes c.name = [] := by rw [Disk.bytes, hc]; rfl
      rw [hbytes, FileCell.written, ite_self, List.nil_append]
      simp only [Option.isSome_none, Bool.false_eq_true, if_false,
        Disk.write_of_writable hopen.2, Option.getD_some]
  | some old =>
      simp only [Option.isSome_some, if_true]
      rw [FileCell.written]
      cases c.append with
      | false =>
          simp only [Bool.false_eq_true, if_false, Disk.write_of_writable hopen.2,
            Option.getD_some, List.nil_append]
      | true =>
          simp only [if_true, Disk.append_of_writable hopen.2, Option.getD_some]

/-- What a cell does to the disk: nothing when its body starts with a carriage return. -/
theorem apply_file (hp : argparser.Declared) (hm : FileRegistered argparser m)
    (hname : IsFileName c.name) (hopen : w.disk.Opens c.name) (res : KernelRes) :
    ∃ a, m.apply c.code res w = some a ∧ a.manager = m ∧
      a.world.disk = if beforeReturn c.body = [] then w.disk
        else w.disk.put c.name (c.upToReturn.written (w.disk.bytes c.name)) := by
  have hfile : IsName (lit "file") := by decide
  have ht : c.code = twoPercent (lit "file" ++ ((' ' : Char) : Byte) ::
      (c.arguments ++ (('\n' : Char) : Byte) :: c.body)) := by
    show lit "%%file " ++ c.arguments ++ lit "\n" ++ c.body = lit "%%file " ++ _
    simp only [List.append_assoc]
    rfl
  obtain ⟨mt, hmt, h₁, h₂⟩ := split_spaced hfile isspace_blank rfl (isDot_arguments hname)
  have hrun := takeWhile_name (u := ((' ' : Char) : Byte) ::
    (c.arguments ++ (('\n' : Char) : Byte) :: c.body)) hfile (by simpa using by decide)
  rw [ht]
  -- the body that is found stops at the first carriage return
  by_cases hnil : beforeReturn c.body = []
  · rw [if_pos hnil]
    apply apply_of_no_body res w hrun (contains_cell hm) hfile.1
    rw [hmt, group?, h₂, hnil]
  · rw [if_neg hnil, apply_of_split hrun (contains_cell hm) hfile.1, hmt, group?, group?, h₁, h₂]
    obtain ⟨w', hw', hd⟩ := writefile_of_parsed (parse_header hp hname w)
      hname.noNul hopen (beforeReturn c.body)
    rw [Manager.applyCell_of_call res hm hnil hw']
    exact ⟨_, rfl, rfl, hd⟩

theorem length_beforeReturn_lt {s : Str} (h : (('\r' : Char) : Byte) ∈ s) :
    (beforeReturn s).length < s.length := by
  apply lt_of_le_of_ne (List.takeWhile_prefix _).length_le
  intro he
  have hall : beforeReturn s = s := (List.takeWhile_prefix _).eq_of_length he
  rw [← hall] at h
  have hne := List.mem_takeWhile_imp h
  exact absurd hne (by decide)

theorem copies_of_not_mem (hp : argparser.Declared) (hm : FileRegistered argparser m)
    (hname : IsFileName c.name) (hopen : w.disk.Opens c.name) (hbody : c.body ≠ [])
    (hcr : (('\r' : Char) : Byte) ∉ c.body) (res : KernelRes) : c.Copies m res w := by
  obtain ⟨a, ha, -, hd⟩ := apply_file hp hm hname hopen res
  have hwhole : beforeReturn c.body = c.body := beforeReturn_of_not_mem hcr
  rw [FileCell.upToReturn, hwhole, if_neg hbody] at hd
  refine ⟨a, ha, ?_, ?_⟩
  · rw [hd]
    exact Disk.put_content_self _ _ _
  · rw [hd]
    exact Disk.sameBut_put _ _ _

/-- What is appended is too short when the body has a carriage return. -/
theorem not_copies_of_mem (hp : argparser.Declared) (hm : FileRegistered argparser m)
    (hname : IsFileName c.name) (hopen : w.disk.Opens c.name) (happend : c.append = true)
    (hcr : (('\r' : Char) : Byte) ∈ c.body) : ¬c.Copies m res w := by
  rintro ⟨a, ha, hcontent, -⟩
  obtain ⟨a', ha', -, hd⟩ := apply_file hp hm hname hopen res
  cases ha.symm.trans ha'
  have hshort := length_beforeReturn_lt hcr
  -- compare the lengths: what was appended against the body and its line break
  have hlen : (a.world.disk.bytes c.name).length =
      (w.disk.bytes c.name).length + c.body.length + 1 := by
    rw [Disk.bytes, hcontent, FileCell.written, happend]
    simp only [if_true, Option.getD_some, List.length_append]
    show _ + (_ + 1) = _
    omega
  rw [hd] at hlen
  split at hlen
  · omega
  · rw [Disk.put_bytes_self, FileCell.written, FileCell.upToReturn, happend] at hlen
    simp only [if_true, List.length_append] at hlen
    change _ + (_ + 1) = _ at hlen
    omega

theorem copies_iff (hp : argparser.Declared) (hm : FileRegistered argparser m) {f b : Str}
    (hname : IsFileName f) (hopen : w.disk.Opens f) (hb : b ≠ []) :
    ((⟨false, f, b⟩ : FileCell).Copies m res w ∧ (⟨true, f, b⟩ : FileCell).Copies m res w) ↔
      (('\r' : Char) : Byte) ∉ b := by
  constructor
  · rintro ⟨-, happend⟩ hcr
    exact not_copies_of_mem hp hm hname hopen rfl hcr happend
  · intro hcr
    have hcopies : ∀ append, (⟨append, f, b⟩ : FileCell).Copies m res w := fun _ =>
      copies_of_not_mem hp hm hname hopen hb hcr res
    exact ⟨hcopies false, hcopies true⟩

end Cell

/-! ## Runs -/

/-- Cells one after the other, each on what the one before left. -/
def runFileCells (res : KernelRes) : List FileCell → Manager → World → Option (Manager × World)
  | [], m, w => some (m, w)
  | c :: cs, m, w => (m.apply c.code res w).bind fun a => runFileCells res cs a.manager a.world

/-- The bodies the cells have for `f`, one after the other. -/
def bodies (f : Str) (cells : List FileCell) : Str :=
  cells.flatMap fun c => if c.name = f then c.body ++ lit "\n" else []

/-- No cell overwrites `f`. -/
def OnlyAppend (f : Str) (cells : List FileCell) : Prop :=
  ∀ c ∈ cells, c.name = f → c.append = true

/-- The condition on a cell, in the world it is executed in. -/
structure FileCell.Whole (c : FileCell) (d : Disk) : Prop where
  name : IsFileName c.name
  opens : d.Opens c.name
  body : c.body ≠ []
  noReturn : (('\r' : Char) : Byte) ∉ c.body

theorem FileCell.Whole.frame {c : FileCell} {path : Str} {d d' : Disk} (h : c.Whole d)
    (hd : Disk.SameBut path d d') : c.Whole d' :=
  ⟨h.name, ⟨hd.readable ▸ h.opens.1, hd.writable ▸ h.opens.2⟩, h.body, h.noReturn⟩

section Run

variable {argparser : ArgParser} {m : Manager} (res : KernelRes)

/-- What `f` holds behind one cell. -/
def FileCell.after (c : FileCell) (f old : Str) : Str := if c.name = f then c.written old else old

theorem apply_whole (hp : argparser.Declared) (hm : FileRegistered argparser m) {c : FileCell}
    {w : World} (hc : c.Whole w.disk) :
    ∃ a, m.apply c.code res w = some a ∧ a.manager = m ∧
      Disk.SameBut c.name w.disk a.world.disk ∧
        ∀ f, a.world.disk.bytes f = c.after f (w.disk.bytes f) := by
  obtain ⟨a, ha, hma, -⟩ := apply_file hp hm hc.name hc.opens res
  obtain ⟨a', ha', hcontent, hframe⟩ :=
    copies_of_not_mem hp hm hc.name hc.opens hc.body hc.noReturn res
  cases ha.symm.trans ha'
  refine ⟨a, ha, hma, hframe, ?_⟩
  intro f
  unfold FileCell.after
  by_cases hf : c.name = f
  · subst hf
    rw [if_pos rfl, Disk.bytes, hcontent, Option.getD_some]
  · rw [if_neg hf]
    exact hframe.bytes (Ne.symm hf)

/-- A run does in every file what its cells do one after the other. -/
theorem run_bytes (hp : argparser.Declared) (hm : FileRegistered argparser m)
    (cells : List FileCell) {w : World} (hcells : ∀ c ∈ cells, c.Whole w.disk) :
    ∃ w', runFileCells res cells m w = some (m, w') ∧
      ∀ f, w'.disk.bytes f = cells.foldl (fun s c => c.after f s) (w.disk.bytes f) := by
  induction cells generalizing w with
  | nil => exact ⟨w, rfl, fun _ => rfl⟩
  | cons c cells ih =>
      obtain ⟨a, ha, hma, hframe, hbytes⟩ := apply_whole res hp hm (hcells c (by simp))
      obtain ⟨w', hrun, hw'⟩ := ih (w := a.world) fun d hd =>
        (hcells d (List.mem_cons_of_mem c hd)).frame hframe
      refine ⟨w', ?_, ?_⟩
      · rw [runFileCells, ha, Option.bind_some, hma]
        exact hrun
      · intro f
        rw [hw' f, hbytes f, List.foldl_cons]

theorem foldl_after_append {f : Str} {cells : List FileCell} (h : OnlyAppend f cells) (old : Str) :
    cells.foldl (fun s c => c.after f s) old = old ++ bodies f cells := by
  induction cells generalizing old with
  | nil => exact (List.append_nil old).symm
  | cons c cells ih =>
      have hrest : OnlyAppend f cells := fun d hd => h d (List.mem_cons_of_mem c hd)
      rw [List.foldl_cons, ih hrest, bodies, bodies, List.flatMap_cons]
      unfold FileCell.after
      by_cases hf : c.name = f
      · have happend : c.append = true := h c (by simp) hf
        simp only [if_pos hf, FileCell.written, happend, if_true, List.append_assoc]
      · simp only [if_neg hf, List.nil_append]

/-- Behind the last cell that overwrites `f` its old content no longer matters. -/
theorem foldl_after_overwrite {f : Str} {before after : List FileCell} {c : FileCell}
    (hname : c.name = f) (hover : c.append = false) (h : OnlyAppend f after) (old : Str) :
    (before ++ c :: after).foldl (fun s c => c.after f s) old = bodies f (c :: after) := by
  rw [List.foldl_append, List.foldl_cons, foldl_after_append h, bodies, bodies, List.flatMap_cons]
  unfold FileCell.after
  rw [if_pos hname, if_pos hname, FileCell.written, hover]
  rfl

/-- **`%%file` copies the body exactly when it has no carriage return**: with another body the cell
that appends loses what is behind it. In a run of cells that meet the condition, every file holds
the bodies since it was last overwritten, behind what it held when it never was. -/
theorem file_copies_iff (hp : argparser.Declared) (hm : FileRegistered argparser m) :
    (∀ f b res w, IsFileName f → w.disk.Opens f → b ≠ [] →
      ((⟨false, f, b⟩ : FileCell).Copies m res w ∧ (⟨true, f, b⟩ : FileCell).Copies m res w ↔
        (('\r' : Char) : Byte) ∉ b)) ∧
    ∀ cells res w, (∀ c ∈ cells, c.Whole w.disk) →
      ∃ w', runFileCells res cells m w = some (m, w') ∧
        (∀ f, OnlyAppend f cells → w'.disk.bytes f = w.disk.bytes f ++ bodies f cells) ∧
        ∀ f before c after, cells = before ++ c :: after → c.name = f → c.append = false →
          OnlyAppend f after → w'.disk.bytes f = bodies f (c :: after) := by
  refine ⟨fun f b res w hname hopen hb => copies_iff hp hm hname hopen hb, ?_⟩
  intro cells res w hcells
  obtain ⟨w', hrun, hbytes⟩ := run_bytes res hp hm cells hcells
  refine ⟨w', hrun, ?_, ?_⟩
  · intro f hf
    rw [hbytes f, foldl_after_append hf]
  · intro f before c after hsplit hname hover hafter
    rw [hbytes f, hsplit, foldl_after_overwrite hname hover hafter]

end Run

/-- The words with a hyphen in front are the options, the first of the others is the name. -/
def fileArguments : ArgParser := fun argv =>
  let isOption := fun (t : Str) => t.head? == some (('-' : Char) : Byte)
  let arguments := argv.tail
  { printed := []
    thrown := none
    filename := match arguments.find? fun t => !isOption t with
      | some f => .ok f
      | none => .error (.logicError (lit "No value provided for 'filename'."))
    append := arguments.any fun t => t == lit "-a" || t == lit "--append" }

theorem fileArguments_declared : fileArguments.Declared where
  filename := by
    intro program f hne hf
    have hoption : (f.head? == some (('-' : Char) : Byte)) = false := by simpa using hf
    have ha : f ≠ lit "-a" := fun he => hf (he ▸ rfl)
    have happend : f ≠ lit "--append" := fun he => hf (he ▸ rfl)
    simp [fileArguments, hoption, ha, happend]
  append := by
    intro program f hne hf
    have hoption : (f.head? == some (('-' : Char) : Byte)) = false := by simpa using hf
    have ha : ((lit "-a").head? == some (('-' : Char) : Byte)) = true := by decide
    simp [fileArguments, hoption, ha]

def osManager : Manager :=
  Manager.registerMagic ⟨fun _ => none, fun _ => none⟩ (lit "file") none
    (some ⟨writefile fileArguments⟩)

theorem osManager_file : FileRegistered fileArguments osManager := rfl

theorem isFileName_a : IsFileName (lit "a") := ⟨by decide, by decide, by decide⟩

/-- Two lines are written, and a third is appended. -/
theorem file_copies_lines :
    ((⟨false, lit "a", lit "x\ny"⟩ : FileCell).Copies osManager .new .fresh ∧
      (⟨true, lit "a", lit "x\ny"⟩ : FileCell).Copies osManager .new .fresh) ∧
    ∃ w', runFileCells .new [⟨false, lit "a", lit "x\ny"⟩, ⟨true, lit "a", lit "z"⟩] osManager
        .fresh = some (osManager, w') ∧ w'.disk.bytes (lit "a") = lit "x\ny\nz\n" := by
  obtain ⟨hcell, hrun⟩ := file_copies_iff fileArguments_declared osManager_file
  constructor
  · apply (hcell (lit "a") (lit "x\ny") .new .fresh isFileName_a ⟨rfl, rfl⟩ (by decide)).mpr
    decide
  · obtain ⟨w', hw', -, hover⟩ := hrun
      [⟨false, lit "a", lit "x\ny"⟩, ⟨true, lit "a", lit "z"⟩] .new .fresh (by
        intro c hc
        rcases List.mem_pair.mp hc with rfl | rfl
        · exact ⟨isFileName_a, ⟨rfl, rfl⟩, by decide, by decide⟩
        · exact ⟨isFileName_a, ⟨rfl, rfl⟩, by decide, by decide⟩)
    refine ⟨w', hw', ?_⟩
    rw [hover (lit "a") [] _ _ rfl rfl rfl (by simp [OnlyAppend])]
    decide

/-- What is behind a carriage return is lost. -/
theorem carriage_return_cuts_file :
    ¬((⟨false, lit "a", lit "x\r\ny"⟩ : FileCell).Copies osManager .new .fresh ∧
      (⟨true, lit "a", lit "x\r\ny"⟩ : FileCell).Copies osManager .new .fresh) := by
  intro h
  exact not_copies_of_mem fileArguments_declared osManager_file isFileName_a ⟨rfl, rfl⟩ rfl
    (by decide) h.2

end XeusCpp.Magics
