/-
# XeusCpp.Assist.Body — the body of a request.

`openai` and `ollama` assemble the body from the saved name of the model, the history and literals.
A prompt is escaped and an answer is printed by the JSON library before it gets into the history;
the name is put between quotes as it stands.

**`body_faithful_iff`**: the body says what it should exactly when the name needs no escape and the
history file opens.
-/
import XeusCpp.Assist.Reset
import XeusCpp.Host.Spelling

namespace XeusCpp.Assist

open Text Host

/-- The data a prompt to `model` is posted with. -/
def requestBody (model prompt : Str) (w : World) : Str :=
  postData model (modelManager.value model w.disk) (messages model prompt w)

/-- The one member called `k` has the value `v`. -/
def Field (ms : List (List Char × Json)) (k : List Char) (v : Json) : Prop :=
  ms.filter (fun m => m.1 = k) = [(k, v)]

/-- An object with the name of the model and with the turns `ts` as its messages. -/
def Faithful (model name : Str) (ts : List Turn) (body : Str) : Prop :=
  ∃ ms cs, Json.parse body = some (.obj ms) ∧ utf8 cs = name ∧ Field ms (key "model") (.str cs) ∧
    Field ms (key "messages") (.arr (ts.map (Turn.json model)))

/-- UTF-8 text without quotes, backslashes and control characters. -/
def IsPlainName (name : Str) : Prop := ∃ cs, utf8 cs = name ∧ ∀ x ∈ cs, IsPlain x

theorem Field.eq_of_mem {ms : List (List Char × Json)} {k : List Char} {v x : Json}
    (h : Field ms k v) (hx : (k, x) ∈ ms) : x = v := by
  have hmem : (k, x) ∈ ms.filter (fun m => m.1 = k) := List.mem_filter.mpr ⟨hx, by simp⟩
  rw [h] at hmem
  exact (Prod.mk.inj (List.mem_singleton.mp hmem)).2

/-! ## The layout -/

def indent : Str := lit "\n                   "

def outdent : Str := lit "\n                "

/-- The member the two bodies differ in. -/
def lastMember (model : Str) : Str :=
  if model = lit "openai" then named (lit "temperature") (lit "0.7")
  else named (lit "stream") (lit "false")

theorem blank_indent : ∀ c ∈ indent, Json.isWs c = true := List.all_eq_true.mp rfl

theorem blank_outdent : ∀ c ∈ outdent, Json.isWs c = true := List.all_eq_true.mp rfl

/-- The models whose requests carry a `model` member. -/
def IsNamed (model : Str) : Prop := model = lit "openai" ∨ model = lit "ollama"

section Layout

variable {model : Str}

theorem postData_eq (hmodel : IsNamed model) (name messages : Str) :
    postData model name messages = Json.beginObject :: Json.commaSep
      [indent ++ named (lit "model") (Json.quote :: name ++ [Json.quote]),
        indent ++ named (lit "messages") (Json.beginArray :: messages ++ [Json.endArray]),
        indent ++ lastMember model ++ outdent] ++ [Json.endObject] := by
  have h₁ : lit "\x7b\n                    \"model\": \"" = Json.beginObject :: (indent ++
      (lit " " ++ (Json.quote :: lit "model" ++ [Json.quote, Json.nameSeparator] ++
        (lit " " ++ [Json.quote])))) := by
    decide
  have h₂ : lit "\",\n                    \"messages\": [" = Json.quote :: Json.valueSeparator ::
      (indent ++ (lit " " ++ (Json.quote :: lit "messages" ++ [Json.quote, Json.nameSeparator] ++
        (lit " " ++ [Json.beginArray])))) := by
    decide
  have h₃ : lit "],\n                    \"temperature\": 0.7\n                \x7d" =
      Json.endArray :: Json.valueSeparator :: (indent ++ named (lit "temperature") (lit "0.7") ++
        outdent ++ [Json.endObject]) := by
    decide
  have h₄ : lit "],\n                    \"stream\": false\n                \x7d" =
      Json.endArray :: Json.valueSeparator :: (indent ++ named (lit "stream") (lit "false") ++
        outdent ++ [Json.endObject]) := by
    decide
  rcases hmodel with rfl | rfl
  · rw [postData, if_neg (by decide), if_pos rfl, h₁, h₂, h₃, lastMember, if_pos rfl]
    simp [named, Json.commaSep, Json.behind]
  · rw [postData, if_neg (by decide), if_neg (by decide), h₁, h₂, h₄, lastMember,
      if_neg (by decide)]
    simp [named, Json.commaSep, Json.behind]

theorem spells_model : Json.Spells (lit "model") (key "model") :=
  spells_utf8 (key "model") (isPlain_of_all rfl)

theorem spells_messages : Json.Spells (lit "messages") (key "messages") :=
  spells_utf8 (key "messages") (isPlain_of_all rfl)

theorem spells_temperature : Json.Spells (lit "temperature") (key "temperature") :=
  spells_utf8 (key "temperature") (isPlain_of_all rfl)

theorem spells_stream : Json.Spells (lit "stream") (key "stream") :=
  spells_utf8 (key "stream") (isPlain_of_all rfl)

/-- A member on a line of its own. -/
theorem denotes_indented {d : Nat} {name : Str} {k : List Char} (hk : Json.Spells name k) {w : Str}
    {j : Json} (h : Json.Denotes (Json.value d) w j) :
    Json.Denotes (Json.member (Json.value d)) (indent ++ named name w) (k, j) := by
  have hline := (denotes_named hk h).blank blank_indent blank_nil
  rwa [List.append_nil] at hline

theorem denotes_lastMember (model : Str) : ∃ k j, k ≠ key "model" ∧ k ≠ key "messages" ∧
    ∀ d, 6 ≤ d → Json.Denotes (Json.member (Json.value d)) (lastMember model) (k, j) := by
  by_cases hm : model = lit "openai"
  · have hparse : Json.parse (lit "0.7") = some (.num ⟨false, 7, -1⟩) := rfl
    refine ⟨key "temperature", .num ⟨false, 7, -1⟩, by decide, by decide, ?_⟩
    intro d hd
    have hdepth : (lit "0.7").length + 1 ≤ d := (by decide : 4 ≤ 6).trans hd
    rw [lastMember, if_pos hm]
    exact denotes_named spells_temperature
      ((Json.denotes_of_parse hparse).refines (Json.value_refines hdepth))
  · have hparse : Json.parse (lit "false") = some (.bool false) := rfl
    refine ⟨key "stream", .bool false, by decide, by decide, ?_⟩
    intro d hd
    have hdepth : (lit "false").length + 1 ≤ d := hd
    rw [lastMember, if_neg hm]
    exact denotes_named spells_stream
      ((Json.denotes_of_parse hparse).refines (Json.value_refines hdepth))

theorem length_postData (hmodel : IsNamed model) (name messages : Str) :
    (Json.beginArray :: messages ++ [Json.endArray]).length + 10 ≤
      (postData model name messages).length := by
  have hindent : indent.length = 20 := rfl
  simp only [postData_eq hmodel, named, Json.commaSep, Json.behind, List.flatMap_cons,
    List.length_append, List.length_cons]
  omega

/-- The body of a name that spells itself and of messages that parse. -/
theorem parse_postData (hmodel : IsNamed model) {name messages : Str} {cs : List Char} {j : Json}
    (hname : Json.Spells name cs)
    (hmessages : Json.parse (Json.beginArray :: messages ++ [Json.endArray]) = some j) :
    ∃ k v, k ≠ key "model" ∧ k ≠ key "messages" ∧ Json.parse (postData model name messages) =
      some (.obj [(key "model", .str cs), (key "messages", j), (k, v)]) := by
  obtain ⟨k, v, hk₁, hk₂, hlast⟩ := denotes_lastMember model
  refine ⟨k, v, hk₁, hk₂, Json.parse_of_denotes ?_⟩
  have hlen := length_postData hmodel name messages
  obtain ⟨d, hd⟩ : ∃ d, (postData model name messages).length = d + 1 :=
    ⟨(postData model name messages).length - 1, by omega⟩
  have hmodelMember := denotes_indented (d := d + 1) spells_model (Json.denotes_str hname)
  have hmessagesMember := denotes_indented spells_messages
    ((Json.denotes_of_parse hmessages).refines (Json.value_refines (e := d + 1) (by omega)))
  have hlastMember := (hlast (d + 1) (by omega)).blank blank_indent blank_outdent
  rw [hd, postData_eq hmodel]
  exact Json.denotes_obj [(_, _), (_, _), (_, _)]
    (by simpa using ⟨hmodelMember, hmessagesMember, hlastMember⟩)

/-- The body up to the line behind the name. -/
theorem postData_front (hmodel : IsNamed model) (name messages : Str) :
    ∃ rest, postData model name messages = Json.beginObject :: (indent ++ lit " " ++ Json.quote ::
      (lit "model" ++ Json.quote :: Json.nameSeparator :: (lit " " ++ Json.quote ::
        (name ++ Json.quote :: Json.valueSeparator :: (('\n' : Char) : Byte) :: rest)))) := by
  have hindent : indent = (('\n' : Char) : Byte) :: lit "                   " := rfl
  refine ⟨lit "                   " ++ (named (lit "messages")
    (Json.beginArray :: messages ++ [Json.endArray]) ++ Json.valueSeparator ::
      (indent ++ (lastMember model ++ (outdent ++ [Json.endObject])))), ?_⟩
  rw [postData_eq hmodel]
  simp [named, Json.commaSep, Json.behind, hindent]

end Layout

/-! ## The name -/

section Name

variable {model : Str}

theorem isPlainName_of_faithful (hmodel : IsNamed model) {name messages : Str} {ts : List Turn}
    (h : Faithful model name ts (postData model name messages)) : IsPlainName name := by
  obtain ⟨ms, cs, hparse, rfl, hfield, -⟩ := h
  obtain ⟨rest, hfront⟩ := postData_front hmodel (utf8 cs) messages
  have hblank : ∀ c ∈ indent ++ lit " ", Json.isWs c = true :=
    List.all_eq_true.mp rfl
  rw [hfront] at hparse
  obtain ⟨cs', r, hread, hmem⟩ := first_member hblank spells_model hparse
  -- the member that is read first is the only one of its name
  cases hfield.eq_of_mem hmem
  exact ⟨cs, rfl, isPlain_of_characters hread⟩

theorem faithful_of_isPlainName (hmodel : IsNamed model) {name messages : Str} {ts : List Turn}
    (hname : IsPlainName name) (hmessages : Json.parse (Json.beginArray :: messages ++
      [Json.endArray]) = some (.arr (ts.map (Turn.json model)))) :
    Faithful model name ts (postData model name messages) := by
  obtain ⟨cs, rfl, hplain⟩ := hname
  obtain ⟨k, v, hk₁, hk₂, hparse⟩ := parse_postData hmodel (spells_utf8 cs hplain) hmessages
  have hne : key "model" ≠ key "messages" := by decide
  refine ⟨_, cs, hparse, rfl, ?_, ?_⟩
  · simp [Field, hk₁, hne.symm]
  · simp [Field, hk₂, hne]

/-- A history that does not open leaves the array of messages empty. -/
theorem not_faithful_of_no_messages (hmodel : IsNamed model) {name : Str} {ts : List Turn}
    {t : Turn} (h : Faithful model name (ts ++ [t]) (postData model name [])) : False := by
  obtain ⟨cs, rfl, hplain⟩ := isPlainName_of_faithful hmodel h
  have hmessages : Json.parse (Json.beginArray :: [] ++ [Json.endArray]) = some (.arr []) := rfl
  obtain ⟨k, v, -, -, hparse⟩ := parse_postData hmodel (spells_utf8 cs hplain) hmessages
  obtain ⟨ms, -, hms, -, -, hfield⟩ := h
  cases hms.symm.trans hparse
  have hnil := hfield.eq_of_mem (List.mem_cons_of_mem _ List.mem_cons_self)
  simp at hnil

theorem faithful_iff (hmodel : IsNamed model) {w : World} {ts : List Turn}
    (hturns : w.disk.Opens (historyPath model) → HasTurns w.disk model ts) (prompt : Str) :
    Faithful model (modelManager.value model w.disk) (ts ++ [⟨.user, .str (decoded prompt)⟩])
        (requestBody model prompt w) ↔
      IsPlainName (modelManager.value model w.disk) ∧ w.disk.Opens (historyPath model) := by
  constructor
  · intro h
    refine ⟨isPlainName_of_faithful hmodel h, ?_⟩
    by_contra hno
    rw [requestBody, messages_of_not_opens hno] at h
    exact not_faithful_of_no_messages hmodel h
  · rintro ⟨hname, hopen⟩
    exact faithful_of_isPlainName hmodel hname (parse_messages (hturns hopen) hopen prompt)

end Name

/-! ## Runs -/

section Runs

variable {J : Type} {denote : J → Json}

theorem Op.run_frame (dump : J → Str) (op : Op J) (w : World) :
    ∃ path, Disk.SameBut path w.disk (op.run dump w).disk := by
  rw [Op.run_disk]
  cases op with
  | chat model role prompt => exact ⟨_, addTurn_frame _ _ _ _⟩
  | chatJson model role cell => exact ⟨_, addTurn_frame _ _ _ _⟩
  | refresh model => exact ⟨_, refresh_frame model w⟩

/-- What opens is not changed by the operations on the histories. -/
theorem runOps_opens (dump : J → Str) (ops : List (Op J)) (w : World) (path : Str) :
    (runOps dump ops w).disk.Opens path ↔ w.disk.Opens path := by
  induction ops generalizing w with
  | nil => exact Iff.rfl
  | cons op ops ih =>
      obtain ⟨p, hframe⟩ := op.run_frame dump w
      have hstep : (op.run dump w).disk.Opens path ↔ w.disk.Opens path := by
        rw [Disk.Opens, hframe.readable, hframe.writable, Disk.Opens]
      exact (ih (op.run dump w)).trans hstep

/-- **The body of a request is well-formed and faithful exactly when the saved name needs no escape
and the history opens**: behind any operations on the histories and for every prompt, the body is an
object with the name and with all turns in order, the prompt last. It is what is posted, once, when
the model is configured. -/
theorem body_faithful_iff (lib : JsonLibrary J)
    (hdump : ∀ j, Json.parse (lib.dump j) = some (denote j)) {model : Str} (hmodel : IsNamed model)
    (ops : List (Op J)) (w : World)
    (hempty : w.disk.bytes (historyPath model) = []) (prompt : Str) :
    let before := runOps lib.dump ops w
    (Faithful model (modelManager.value model before.disk)
        (turnsOf denote model ops ++ [⟨.user, .str (decoded prompt)⟩])
        (requestBody model prompt before) ↔
      IsPlainName (modelManager.value model before.disk) ∧ before.disk.Opens (historyPath model)) ∧
    ∀ key response, Posts (Configured model before.disk) (requestBody model prompt before)
      before.requests
      (dispatch lib model (escapeSpecialCases prompt) key response before).2.requests := by
  have hmem : model ∈ models := by
    rcases hmodel with rfl | rfl
    · decide
    · decide
  refine ⟨faithful_iff hmodel ?_ prompt,
    fun key response => dispatch_posts lib hmem _ key response _⟩
  intro hopen
  exact (runOps_hasTurns hdump ops ((runOps_opens lib.dump ops w _).mp hopen) (hasTurns_nil hempty)).2

end Runs

/-- A directory where a name is saved for `openai`. -/
def savedModel (name : Str) : World := modelManager.save (lit "openai") name .fresh

/-- A question and its answer. -/
def answered : List (Op Json) :=
  [.chat (lit "openai") .user (lit "hi"), .chatJson (lit "openai") .assistant (.str (key "ok"))]

/-- The turns are behind one another, and the prompt has quotes. -/
theorem body_faithful_quotes :
    Faithful (lit "openai") (modelManager.value (lit "openai")
        (runOps jsonLibrary.dump answered (savedModel (lit "gpt-4o"))).disk)
      (turnsOf id (lit "openai") answered ++ [⟨.user, .str (decoded (lit "\"why\""))⟩])
      (requestBody (lit "openai") (lit "\"why\"")
        (runOps jsonLibrary.dump answered (savedModel (lit "gpt-4o")))) := by
  have hname : modelManager.value (lit "openai")
      (runOps jsonLibrary.dump answered (savedModel (lit "gpt-4o"))).disk = lit "gpt-4o" := by
    decide
  have hplain : IsPlainName (lit "gpt-4o") := ⟨key "gpt-4o", rfl, isPlain_of_all rfl⟩
  apply (body_faithful_iff jsonLibrary Json.parse_dump (.inl rfl) answered
    (savedModel (lit "gpt-4o")) rfl (lit "\"why\"")).1.mpr
  rw [hname]
  exact ⟨hplain, rfl, rfl⟩

/-- A quotation mark in the name ends the string it is put into. -/
theorem body_of_quoted_name :
    ¬Faithful (lit "openai") (lit "gpt\"4") [⟨.user, .str (key "hi")⟩]
      (requestBody (lit "openai") (lit "hi") (savedModel (lit "gpt\"4"))) := by
  rintro ⟨ms, cs, hparse, -⟩
  have hnone : (Json.parse (requestBody (lit "openai") (lit "hi")
      (savedModel (lit "gpt\"4")))).isNone = true := by
    decide +kernel
  rw [hparse] at hnone
  cases hnone

end XeusCpp.Assist
