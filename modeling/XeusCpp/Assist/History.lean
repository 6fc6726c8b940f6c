/-
# XeusCpp.Assist.History — the chat history of the assistant.

`xassist.cpp` keeps the conversation with a model in a file and assembles it by concatenation: a
turn is written behind the turns already there, with a comma unless the file is empty, and the
whole file is what a request sends between square brackets. A prompt turn is quoted by hand after
`escapeSpecialCases`; a model's answer is the `dump()` of the JSON value it came in.

**`history_parses`**: after any operations on the histories of any models, the file of every model,
put between square brackets, is a JSON array of exactly the turns since its last refresh.
-/
import XeusCpp.Host.World
import XeusCpp.Host.Spelling

namespace XeusCpp.Assist

open Text Host

/-! ## `escape_special_cases` -/

/-- The value of a `char`, which is signed. -/
def signed (c : Byte) : Int := if c < 128 then c.toNat else (c.toNat : Int) - 256

/-- `std::hex << std::setw(4) << std::setfill('0') << n`. -/
def hex4 (n : Nat) : Str := ((Nat.toDigits 16 n).leftpad 4 '0').map Char.toUInt8

def escapeSpecialCase (c : Byte) : Str :=
  if c = '\\' then lit "\\\\"
  else if c = '"' then lit "\\\""
  else if c = '\n' then lit "\\n"
  else if c = '\t' then lit "\\t"
  else if c = '\r' then lit "\\r"
  else if c = '\x08' then lit "\\b"
  else if c = '\x0c' then lit "\\f"
  else if signed c < 0x20 || signed c > 0x7E then lit "\\u" ++ hex4 (signed c % 0x10000).toNat
  else [c]

def escapeSpecialCases (input : Str) : Str := input.flatMap escapeSpecialCase

/-- The character a reader of JSON gets for a byte: a byte from 128 on was sign-extended to 16 bits
before it was printed. -/
def decodedChar (c : Byte) : Char :=
  if c < 128 then Char.ofNat c.toNat else Char.ofNat (0xFF00 + c.toNat)

def decoded (input : Str) : List Char := input.map decodedChar

theorem character_escape :
    ∀ c : Byte, Json.character (escapeSpecialCase c) = some (some (decodedChar c), []) := by
  decide +kernel

/-- The escaper's output is the body of a string literal: it neither closes the string nor starts
an escape it does not finish, whatever the bytes are. -/
theorem spells_escape (input : Str) : Json.Spells (escapeSpecialCases input) (decoded input) := by
  apply Json.spells_flatMap
  intro c t
  exact (Json.stable_character (D := fun _ => True)).append trivial (character_escape c)

/-! ## `chat_history` -/

/-- The file of a model, by its path in the working directory. -/
def historyPath (model : Str) : Str := model ++ lit "_chat_history.txt"

def isFileEmpty (path : Str) (d : Disk) : Bool :=
  match d.read path with
  | none => true
  | some s => s.isEmpty

def readFileContent (path : Str) (d : Disk) : Str := (d.read path).getD []

/-- One turn, as it is written behind the turns before it. -/
def turnText (model user serializedCell : Str) : Str :=
  if model = lit "gemini" then
    lit "\x7b \"role\": \"" ++ user ++ lit "\", \"parts\": [ \x7b \"text\": " ++ serializedCell ++
      lit "\x7d]\x7d\n"
  else
    lit "\x7b \"role\": \"" ++ user ++ lit "\", \"content\": " ++ serializedCell ++ lit "\x7d\n"

def appendAndReadBack (model user serializedCell : Str) (w : World) : Str × World :=
  let path := historyPath model
  let separator := if isFileEmpty path w.disk then [] else lit ", "
  match w.disk.append path (separator ++ turnText model user serializedCell) with
  | none =>
      ([], w.cerr (lit "Failed to open file for writing chat history for model " ++ model ++ lit "\n"))
  | some d => (readFileContent path d, { w with disk := d })

def chat (model user cell : Str) : World → Str × World :=
  appendAndReadBack model user (Json.quote :: cell ++ [Json.quote])

def refresh (model : Str) (w : World) : World :=
  match w.disk.write (historyPath model) [] with
  | none => w
  | some d => { w with disk := d }

section Dump

variable {J : Type} (dump : J → Str)

/-- `chat` on a JSON value; `dump` is the printer of the JSON library. -/
def chatJson (model user : Str) (cell : J) : World → Str × World :=
  appendAndReadBack model user (dump cell)

/-! ## Histories as arrays of turns -/

/-- The roles the code writes. -/
inductive Role
  | user
  | model
  | assistant
deriving DecidableEq

def Role.text : Role → Str
  | user => lit "user"
  | model => lit "model"
  | assistant => lit "assistant"

/-- A turn of a conversation: who speaks, and the JSON value that is said. -/
structure Turn where
  role : Role
  text : Json

def key (s : String) : List Char := s.toList

def Role.json : Role → Json
  | user => .str (key "user")
  | model => .str (key "model")
  | assistant => .str (key "assistant")

/-- A turn in the layout of the model's API. -/
def Turn.json (model : Str) (t : Turn) : Json :=
  if model = lit "gemini" then
    .obj [(key "role", t.role.json), (key "parts", .arr [.obj [(key "text", t.text)]])]
  else .obj [(key "role", t.role.json), (key "content", t.text)]

/-- An operation on the history of one model. -/
inductive Op (J : Type)
  | chat (model : Str) (role : Role) (prompt : Str)
  | chatJson (model : Str) (role : Role) (cell : J)
  | refresh (model : Str)

/-- The code's operation. -/
def Op.run : Op J → World → World
  | .chat model role prompt, w =>
      (Assist.chat model role.text (escapeSpecialCases prompt) w).2
  | .chatJson model role cell, w => (Assist.chatJson dump model role.text cell w).2
  | .refresh model, w => Assist.refresh model w

variable (denote : J → Json)

/-- What the operation does to the conversation with `m`. -/
def Op.turns (m : Str) (ts : List Turn) : Op J → List Turn
  | .chat model role prompt =>
      if model = m then ts ++ [⟨role, .str (decoded prompt)⟩] else ts
  | .chatJson model role cell => if model = m then ts ++ [⟨role, denote cell⟩] else ts
  | .refresh model => if model = m then [] else ts

end Dump

/-! ## The invariant -/

/-- The text of a turn and its meaning. -/
structure Written where
  role : Role
  serializedCell : Str
  text : Json
  parses : Json.parse serializedCell = some text

def Written.turn (x : Written) : Turn := ⟨x.role, x.text⟩

def Written.line (model : Str) (x : Written) : Str := turnText model x.role.text x.serializedCell

/-- What stands between two turns: nothing where the file is never found to have a content. -/
def separatorOf (path : Str) (d : Disk) : Str := if d.readable path then lit ", " else []

/-- Turns with `sep` between them. -/
def historyText (sep model : Str) : List Written → Str
  | [] => []
  | x :: xs => x.line model ++ xs.flatMap fun y => sep ++ y.line model

/-- The file holds the turns `ts` of `model`. -/
def Holds (sep model content : Str) (ts : List Turn) : Prop :=
  ∃ xs : List Written, content = historyText sep model xs ∧ ts = xs.map Written.turn

theorem holds_nil (sep model : Str) : Holds sep model [] [] := ⟨[], rfl, rfl⟩

theorem turnText_ne_nil (model user cell : Str) : turnText model user cell ≠ [] := by
  unfold turnText
  split <;> exact List.cons_ne_nil _ _

theorem historyText_eq_nil {sep model : Str} {xs : List Written} :
    historyText sep model xs = [] ↔ xs = [] := by
  cases xs with
  | nil => exact iff_of_true rfl rfl
  | cons x xs => simp [historyText, Written.line, turnText_ne_nil]

/-- Writing a turn behind a history, with a separator unless the history is empty. -/
theorem Holds.append {sep model content : Str} {ts : List Turn} (h : Holds sep model content ts)
    (x : Written) :
    Holds sep model (content ++ ((if content.isEmpty then [] else sep) ++ x.line model))
      (ts ++ [x.turn]) := by
  obtain ⟨xs, rfl, rfl⟩ := h
  refine ⟨xs ++ [x], ?_, by simp⟩
  cases xs with
  | nil => simp [historyText]
  | cons y ys =>
      have hne : (historyText sep model (y :: ys)).isEmpty = false := by
        simp [List.isEmpty_eq_false_iff, historyText_eq_nil]
      rw [hne]
      simp [historyText]

theorem blank_blank : ∀ c ∈ lit " ", Json.isWs c = true := List.all_eq_true.mp rfl

theorem blank_newline : ∀ c ∈ lit "\n", Json.isWs c = true := List.all_eq_true.mp rfl

theorem blank_nil : ∀ c ∈ ([] : Str), Json.isWs c = true := by simp

theorem Role.spells (role : Role) : ∃ k, role.json = .str k ∧ Json.Spells role.text k := by
  cases role with
  | user => exact ⟨_, rfl, spells_utf8 (key "user") (isPlain_of_all rfl)⟩
  | model => exact ⟨_, rfl, spells_utf8 (key "model") (isPlain_of_all rfl)⟩
  | assistant => exact ⟨_, rfl, spells_utf8 (key "assistant") (isPlain_of_all rfl)⟩

theorem spells_role : Json.Spells (lit "role") (key "role") :=
  spells_utf8 (key "role") (isPlain_of_all rfl)

theorem spells_content : Json.Spells (lit "content") (key "content") :=
  spells_utf8 (key "content") (isPlain_of_all rfl)

theorem spells_parts : Json.Spells (lit "parts") (key "parts") :=
  spells_utf8 (key "parts") (isPlain_of_all rfl)

theorem spells_text : Json.Spells (lit "text") (key "text") :=
  spells_utf8 (key "text") (isPlain_of_all rfl)

/-- ` "name": w`, as the code lays out a member. -/
def named (name w : Str) : Str :=
  lit " " ++ (Json.quote :: name ++ Json.quote :: Json.nameSeparator :: (lit " " ++ w))

theorem denotes_named {d : Nat} {name : Str} {k : List Char} (hk : Json.Spells name k) {w : Str}
    {j : Json} (h : Json.Denotes (Json.value d) w j) :
    Json.Denotes (Json.member (Json.value d)) (named name w) (k, j) := by
  have hw := h.blank blank_blank blank_nil
  rw [List.append_nil] at hw
  have hm := (Json.denotes_member hk hw).blank blank_blank blank_nil
  rwa [List.append_nil] at hm

theorem turnText_of_ne {model : Str} (h : model ≠ lit "gemini") (user cell : Str) :
    turnText model user cell = Json.beginObject :: Json.commaSep
      [named (lit "role") (Json.quote :: user ++ [Json.quote]), named (lit "content") cell] ++
        [Json.endObject] ++ lit "\n" := by
  have h₁ : lit "\x7b \"role\": \"" = Json.beginObject :: (lit " " ++ (Json.quote ::
      (lit "role" ++ [Json.quote, Json.nameSeparator] ++ (lit " " ++ [Json.quote])))) := by
    decide
  have h₂ : lit "\", \"content\": " = Json.quote :: Json.valueSeparator :: (lit " " ++
      (Json.quote :: lit "content" ++ [Json.quote, Json.nameSeparator] ++ lit " ")) := by
    decide
  have h₃ : lit "\x7d\n" = Json.endObject :: lit "\n" := by decide
  rw [turnText, if_neg h, h₁, h₂, h₃]
  simp [named, Json.commaSep, Json.behind]

theorem turnText_gemini (user cell : Str) :
    turnText (lit "gemini") user cell = Json.beginObject :: Json.commaSep
      [named (lit "role") (Json.quote :: user ++ [Json.quote]),
        named (lit "parts") (Json.beginArray :: Json.commaSep [lit " " ++ (Json.beginObject ::
          Json.commaSep [named (lit "text") cell] ++ [Json.endObject])] ++ [Json.endArray])] ++
        [Json.endObject] ++ lit "\n" := by
  have h₁ : lit "\x7b \"role\": \"" = Json.beginObject :: (lit " " ++ (Json.quote ::
      (lit "role" ++ [Json.quote, Json.nameSeparator] ++ (lit " " ++ [Json.quote])))) := by
    decide
  have h₂ : lit "\", \"parts\": [ \x7b \"text\": " = Json.quote :: Json.valueSeparator ::
      (lit " " ++ (Json.quote :: lit "parts" ++ [Json.quote, Json.nameSeparator] ++ lit " " ++
        (Json.beginArray :: (lit " " ++ (Json.beginObject :: (lit " " ++ (Json.quote ::
          lit "text" ++ [Json.quote, Json.nameSeparator] ++ lit " "))))))) := by
    decide
  have h₃ : lit "\x7d]\x7d\n" = Json.endObject :: Json.endArray :: Json.endObject :: lit "\n" := by
    decide
  rw [turnText, if_pos rfl, h₁, h₂, h₃]
  simp [named, Json.commaSep, Json.behind]

/-- A turn denotes its object. -/
theorem denotes_line (model : Str) (x : Written) {d : Nat}
    (h : x.serializedCell.length + 4 ≤ d) :
    Json.Denotes (Json.value d) (x.line model) (x.turn.json model) := by
  obtain ⟨role, cell, text, hparse⟩ := x
  obtain ⟨k, hk, hspell⟩ := role.spells
  obtain ⟨e, rfl⟩ : ∃ e, d = e + 3 := ⟨d - 3, by omega⟩
  have hcell : ∀ i, Json.Denotes (Json.value (e + i)) cell text := fun i =>
    (Json.denotes_of_parse hparse).refines (Json.value_refines (by simp at h; omega))
  have hrole : Json.Denotes (Json.member (Json.value (e + 2)))
      (named (lit "role") (Json.quote :: role.text ++ [Json.quote])) (key "role", role.json) :=
    denotes_named spells_role (hk ▸ Json.denotes_str hspell)
  show Json.Denotes _ (turnText model role.text cell) (Turn.json model ⟨role, text⟩)
  -- the layouts of the two protocols: gemini wraps the text in an array of parts
  by_cases hm : model = lit "gemini"
  · subst hm
    have hinner := Json.denotes_obj [(_, _)] (by simpa using denotes_named spells_text (hcell 0))
    have hitem := hinner.blank blank_blank blank_nil
    rw [List.append_nil] at hitem
    have hparts := denotes_named spells_parts (Json.denotes_arr [(_, _)] (by simpa using hitem))
    have hobj := Json.denotes_obj [(_, _), (_, _)] (by simpa using ⟨hrole, hparts⟩)
    have hall := hobj.blank blank_nil blank_newline
    rw [turnText_gemini, Turn.json, if_pos rfl]
    exact hall
  · have hcontent := denotes_named spells_content (hcell 2)
    have hobj := Json.denotes_obj [(_, _), (_, _)] (by simpa using ⟨hrole, hcontent⟩)
    have hall := hobj.blank blank_nil blank_newline
    rw [turnText_of_ne hm, Turn.json, if_neg hm]
    exact hall

theorem length_le_turnText (model user cell : Str) :
    cell.length + 4 ≤ (turnText model user cell).length := by
  by_cases hm : model = lit "gemini"
  · subst hm
    simp only [turnText_gemini, Json.commaSep, Json.behind, named, List.flatMap_cons,
      List.length_append, List.length_cons]
    omega
  · simp only [turnText_of_ne hm, Json.commaSep, Json.behind, named, List.flatMap_cons,
      List.length_append, List.length_cons]
    omega

/-- The texts between the commas, with what they denote. -/
def historyItems (model : Str) : List Written → List (Str × Json)
  | [] => []
  | x :: xs => (x.line model, x.turn.json model) ::
      xs.map fun y => (lit " " ++ y.line model, y.turn.json model)

theorem historyText_eq (model : Str) (xs : List Written) :
    historyText (lit ", ") model xs = Json.commaSep ((historyItems model xs).map Prod.fst) := by
  have hsep : lit ", " = Json.valueSeparator :: lit " " := rfl
  cases xs with
  | nil => rfl
  | cons x xs => simp [historyText, historyItems, Json.commaSep, Json.behind, List.flatMap_map, hsep]

theorem historyItems_snd (model : Str) (xs : List Written) :
    (historyItems model xs).map Prod.snd = xs.map fun x => x.turn.json model := by
  cases xs <;> simp [historyItems]

theorem denotes_historyItems {model : Str} {xs : List Written} {d : Nat}
    (h : (historyText (lit ", ") model xs).length ≤ d) :
    ∀ p ∈ historyItems model xs, Json.Denotes (Json.value d) p.1 p.2 := by
  intro p hp
  have hlen := Json.length_le_commaSep (List.mem_map_of_mem (f := Prod.fst) hp)
  rw [← historyText_eq] at hlen
  cases xs with
  | nil => cases hp
  | cons x xs =>
      rcases List.mem_cons.mp hp with rfl | hp
      · have hcell := length_le_turnText model x.role.text x.serializedCell
        exact denotes_line model x (hcell.trans (hlen.trans h))
      · obtain ⟨y, -, rfl⟩ := List.mem_map.mp hp
        have hcell := length_le_turnText model y.role.text y.serializedCell
        have hline : (y.line model).length ≤ d :=
          (List.suffix_append (lit " ") _).length_le.trans (hlen.trans h)
        have hy := (denotes_line model y (hcell.trans hline)).blank blank_blank blank_nil
        rwa [List.append_nil] at hy

theorem parse_historyText (model : Str) (xs : List Written) :
    Json.parse (Json.beginArray :: historyText (lit ", ") model xs ++ [Json.endArray]) =
      some (.arr (xs.map fun x => x.turn.json model)) := by
  apply Json.parse_of_denotes
  rw [historyText_eq, ← historyItems_snd]
  apply Json.denotes_arr
  apply denotes_historyItems
  rw [historyText_eq]
  simp only [List.length_append, List.length_cons]
  omega

theorem Holds.parse {model content : Str} {ts : List Turn} (h : Holds (lit ", ") model content ts) :
    Json.parse (Json.beginArray :: content ++ [Json.endArray]) =
      some (.arr (ts.map (Turn.json model))) := by
  obtain ⟨xs, rfl, rfl⟩ := h
  rw [parse_historyText, List.map_map]
  rfl

/-! ## Runs -/

section Frame

variable {model m : Str} {w : World}

theorem historyPath_ne (h : model ≠ m) : historyPath m ≠ historyPath model :=
  fun he => h (List.append_cancel_right he).symm

/-- The separator that is written: the file counts as empty when it cannot be read. -/
theorem separator_eq (path : Str) (d : Disk) : (if isFileEmpty path d then [] else lit ", ") =
    if (d.bytes path).isEmpty then [] else separatorOf path d := by
  unfold isFileEmpty separatorOf Disk.read Disk.bytes
  cases d.readable path with
  | true => cases d.content path <;> rfl
  | false => simp

/-- The disk after a turn was written. -/
def addTurn (model user cell : Str) (d : Disk) : Disk :=
  (d.append (historyPath model) ((if isFileEmpty (historyPath model) d then [] else lit ", ") ++
    turnText model user cell)).getD d

theorem appendAndReadBack_disk (model user cell : Str) (w : World) :
    (appendAndReadBack model user cell w).2.disk = addTurn model user cell w.disk := by
  unfold appendAndReadBack addTurn
  dsimp only
  split
  next h => rw [h]; rfl
  next d h => rw [h]; rfl

/-- The file grows by one turn. -/
theorem addTurn_of_writable {d : Disk} (h : d.writable (historyPath model) = true)
    (user cell : Str) :
    addTurn model user cell d = d.put (historyPath model) (d.bytes (historyPath model) ++
      ((if (d.bytes (historyPath model)).isEmpty then [] else separatorOf (historyPath model) d) ++
        turnText model user cell)) := by
  rw [addTurn, separator_eq, Disk.append_of_writable h]
  rfl

theorem addTurn_of_not_writable {d : Disk} (h : d.writable (historyPath model) = false)
    (user cell : Str) : addTurn model user cell d = d := by
  rw [addTurn, Disk.append, if_neg (by simp [h])]
  rfl

theorem addTurn_frame (model user cell : Str) (d : Disk) :
    Disk.SameBut (historyPath model) d (addTurn model user cell d) := by
  unfold addTurn
  cases h : d.append (historyPath model) ((if isFileEmpty (historyPath model) d then []
      else lit ", ") ++ turnText model user cell) with
  | none => exact Disk.SameBut.refl _ _
  | some d' => exact Disk.sameBut_of_append h

theorem refresh_frame (model : Str) (w : World) :
    Disk.SameBut (historyPath model) w.disk (refresh model w).disk := by
  unfold refresh
  split
  next => exact Disk.SameBut.refl _ _
  next d hd => exact Disk.sameBut_of_write hd

theorem refresh_bytes (h : w.disk.writable (historyPath model) = true) :
    (refresh model w).disk.bytes (historyPath model) = [] := by
  rw [refresh, Disk.write_of_writable h]
  exact Disk.put_bytes_self _ _ _

/-- The conversation with `m` on the disk is `ts`. -/
def HasTurns (d : Disk) (m : Str) (ts : List Turn) : Prop :=
  Holds (separatorOf (historyPath m) d) m (d.bytes (historyPath m)) ts

/-- Another file is not concerned. -/
theorem HasTurns.frame {d d' : Disk} {ts : List Turn} {path : Str} (h : HasTurns d m ts)
    (hd : Disk.SameBut path d d') (hp : historyPath m ≠ path) : HasTurns d' m ts := by
  unfold HasTurns separatorOf at h ⊢
  rw [hd.bytes hp, hd.readable]
  exact h

/-- A turn written to `m`'s file is the next turn of the conversation. -/
theorem HasTurns.addTurn {d : Disk} {ts : List Turn} (h : HasTurns d m ts)
    (hwrite : d.writable (historyPath m) = true) (x : Written) :
    HasTurns (addTurn m x.role.text x.serializedCell d) m (ts ++ [x.turn]) := by
  unfold HasTurns separatorOf
  rw [(addTurn_frame _ _ _ _).readable, addTurn_of_writable hwrite, Disk.put_bytes_self]
  exact Holds.append h x

theorem hasTurns_nil {d : Disk} (h : d.bytes (historyPath m) = []) : HasTurns d m [] := by
  unfold HasTurns
  rw [h]
  exact holds_nil _ m

theorem hasTurns_refresh (hwrite : w.disk.writable (historyPath m) = true) :
    HasTurns (refresh m w).disk m [] :=
  hasTurns_nil (refresh_bytes hwrite)

end Frame

section Runs

variable {J : Type} (dump : J → Str) (denote : J → Json)

def runOps (ops : List (Op J)) (w : World) : World := ops.foldl (fun w op => op.run dump w) w

def turnsOf (m : Str) (ops : List (Op J)) : List Turn :=
  ops.foldl (fun ts op => op.turns denote m ts) []

variable {dump denote}

theorem parse_prompt (prompt : Str) :
    Json.parse (Json.quote :: escapeSpecialCases prompt ++ [Json.quote]) =
      some (.str (decoded prompt)) :=
  Json.parse_of_denotes (Json.denotes_str (spells_escape prompt))

theorem Op.run_disk (op : Op J) (w : World) :
    (op.run dump w).disk = match op with
      | .chat model role prompt =>
          Assist.addTurn model role.text (Json.quote :: escapeSpecialCases prompt ++ [Json.quote])
            w.disk
      | .chatJson model role cell => Assist.addTurn model role.text (dump cell) w.disk
      | .refresh model => (Assist.refresh model w).disk := by
  cases op with
  | chat model role prompt => exact appendAndReadBack_disk _ _ _ _
  | chatJson model role cell => exact appendAndReadBack_disk _ _ _ _
  | refresh model => rfl

/-- A turn that is written goes to the conversation with its model. -/
theorem addTurn_hasTurns {m : Str} {d : Disk} {ts : List Turn}
    (hwrite : d.writable (historyPath m) = true) (h : HasTurns d m ts) (model : Str) (role : Role)
    {cell : Str} {text : Json} (hcell : Json.parse cell = some text) :
    let d' := addTurn model role.text cell d
    d'.readable = d.readable ∧ d'.writable = d.writable ∧
      HasTurns d' m (if model = m then ts ++ [⟨role, text⟩] else ts) := by
  have hframe := addTurn_frame model role.text cell d
  refine ⟨hframe.readable, hframe.writable, ?_⟩
  by_cases hm : model = m
  · subst hm
    rw [if_pos rfl]
    exact h.addTurn hwrite ⟨role, _, _, hcell⟩
  · rw [if_neg hm]
    exact h.frame hframe (historyPath_ne hm)

/-- One operation on the files is the operation on the conversation with `m`. -/
theorem Op.run_hasTurns (hdump : ∀ j, Json.parse (dump j) = some (denote j)) {m : Str} {w : World}
    {ts : List Turn} (hwrite : w.disk.writable (historyPath m) = true)
    (h : HasTurns w.disk m ts) (op : Op J) :
    (op.run dump w).disk.readable = w.disk.readable ∧
      (op.run dump w).disk.writable = w.disk.writable ∧
      HasTurns (op.run dump w).disk m (op.turns denote m ts) := by
  rw [Op.run_disk]
  cases op with
  | chat model role prompt => exact addTurn_hasTurns hwrite h model role (parse_prompt prompt)
  | chatJson model role cell => exact addTurn_hasTurns hwrite h model role (hdump cell)
  | refresh model =>
      have hframe := refresh_frame model w
      refine ⟨hframe.readable, hframe.writable, ?_⟩
      by_cases hm : model = m
      · subst hm
        rw [Op.turns, if_pos rfl]
        exact hasTurns_refresh hwrite
      · rw [Op.turns, if_neg hm]
        exact h.frame hframe (historyPath_ne hm)

theorem runOps_hasTurns (hdump : ∀ j, Json.parse (dump j) = some (denote j)) {m : Str}
    (ops : List (Op J)) {w : World} {ts : List Turn} (hopen : w.disk.Opens (historyPath m))
    (h : HasTurns w.disk m ts) :
    (runOps dump ops w).disk.Opens (historyPath m) ∧
      HasTurns (runOps dump ops w).disk m (ops.foldl (fun ts op => op.turns denote m ts) ts) := by
  induction ops generalizing w ts with
  | nil => exact ⟨hopen, h⟩
  | cons op ops ih =>
      obtain ⟨hread, hwrite, h'⟩ := Op.run_hasTurns hdump hopen.2 h op
      refine ih ⟨?_, ?_⟩ h'
      · rw [hread]
        exact hopen.1
      · rw [hwrite]
        exact hopen.2

/-- **The history file is always the body of a JSON array**: the turns since the last refresh, in
order, a prompt turn with the JSON decoding of what the escaper made of the prompt. -/
theorem history_parses (hdump : ∀ j, Json.parse (dump j) = some (denote j)) (m : Str)
    (ops : List (Op J)) (w : World) (hopen : w.disk.Opens (historyPath m))
    (hempty : w.disk.bytes (historyPath m) = []) :
    (∀ prompt, Json.parse (Json.quote :: escapeSpecialCases prompt ++ [Json.quote]) =
      some (.str (decoded prompt))) ∧
    Json.parse (Json.beginArray :: (runOps dump ops w).disk.bytes (historyPath m) ++
      [Json.endArray]) = some (.arr ((turnsOf denote m ops).map (Turn.json m))) := by
  refine ⟨parse_prompt, ?_⟩
  obtain ⟨hopen', h⟩ := runOps_hasTurns hdump ops hopen (hasTurns_nil hempty)
  have hsep : separatorOf (historyPath m) (runOps dump ops w).disk = lit ", " := if_pos hopen'.1
  unfold HasTurns at h
  rw [hsep] at h
  exact h.parse

end Runs

/-- A byte that has to be escaped and one that is sign-extended, then an answer. -/
theorem history_parses_gemini :
    Json.parse (Json.beginArray :: (runOps Json.dump [.chat (lit "gemini") .user ['"', 0xE9],
        .chatJson (lit "gemini") .model (.str (key "hi"))] World.fresh).disk.bytes
          (historyPath (lit "gemini")) ++ [Json.endArray]) =
      some (.arr ([⟨.user, .str (key "\"\uFFE9")⟩, ⟨.model, .str (key "hi")⟩].map
        (Turn.json (lit "gemini")))) :=
  (@history_parses Json Json.dump id Json.parse_dump (lit "gemini")
    [.chat (lit "gemini") .user ['"', 0xE9], .chatJson (lit "gemini") .model (.str (key "hi"))]
    World.fresh ⟨rfl, rfl⟩ rfl).2

end XeusCpp.Assist
