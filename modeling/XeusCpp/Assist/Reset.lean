/-
# XeusCpp.Assist.Reset — the cell that clears a chat history.

`%%xassist model --refresh` is a header without a body, and the manager calls no cell magic with an
empty body. The cell therefore leaves the history as it is; any body, which the magic ignores, makes
it work.

**`reset_iff`**: the cell clears a history exactly when there is nothing to clear.
-/
import XeusCpp.Assist.Conversation
import XeusCpp.Magics.Split

namespace XeusCpp.Assist

open Text Host Magics Regex

/-! ## What a request carries -/

/-- The turns a prompt to `model` is sent with, itself included. -/
def messages (model prompt : Str) (w : World) : Str :=
  (chat model (lit "user") (escapeSpecialCases prompt) w).1

/-- The data that are posted; `name` is the saved name of the model. -/
def postData (model name messages : Str) : Str :=
  if model = lit "gemini" then lit "\x7b\"contents\": [ " ++ messages ++ lit "]\x7d"
  else if model = lit "openai" then
    lit "\x7b\n                    \"model\": \"" ++ name ++
      lit "\",\n                    \"messages\": [" ++ messages ++
      lit "],\n                    \"temperature\": 0.7\n                \x7d"
  else
    lit "\x7b\n                    \"model\": \"" ++ name ++
      lit "\",\n                    \"messages\": [" ++ messages ++
      lit "],\n                    \"stream\": false\n                \x7d"

/-- Nothing was sent, or one request with these messages. -/
def Sends (model messages : Str) (before after : List Request) : Prop :=
  after = before ∨ ∃ r name, after = before ++ [r] ∧ r.postData = cStr (postData model name messages)

theorem appendAndReadBack_requests (model user cell : Str) (w : World) :
    (appendAndReadBack model user cell w).2.requests = w.requests := by
  unfold appendAndReadBack
  dsimp only
  split <;> rfl

theorem chat_requests (model user cell : Str) (w : World) :
    (chat model user cell w).2.requests = w.requests :=
  appendAndReadBack_requests _ _ _ _

/-- What is read back depends on the disk alone. -/
theorem chat_fst_congr (model user cell : Str) {w w' : World} (h : w.disk = w'.disk) :
    (chat model user cell w).1 = (chat model user cell w').1 := by
  unfold chat appendAndReadBack
  rw [h]
  dsimp only
  split <;> rfl

@[simp] theorem load_requests (k : Setting) (model : Str) (w : World) :
    (k.load model w).2.requests = w.requests := by
  unfold Setting.load
  split <;> rfl

theorem performRequest_requests (url data header : Str) (response : Except Str Str) (w : World) :
    ∃ r, (performRequest url data header response w).2.requests = w.requests ++ [r] ∧
      r.postData = cStr data := by
  cases response with
  | ok s => exact ⟨_, rfl, rfl⟩
  | error e => exact ⟨_, rfl, rfl⟩

section Library

variable {J : Type} (lib : JsonLibrary J)

@[simp] theorem respond_requests (model user : Str) (keys : List Key) (body : Str) (w : World) :
    (respond lib model user keys body w).2.requests = w.requests := by
  rcases respond_spec lib model user keys body w with ⟨-, -, -, hrequests⟩ | ⟨a, -, hr, -⟩
  · exact hrequests
  · rw [hr]
    exact appendAndReadBack_requests model user (lib.dump a) w

/-- One request with these data was sent when the model is configured, and none otherwise. -/
structure Posts (configured : Prop) (data : Str) (before after : List Request) : Prop where
  sent : configured → ∃ r : Request, after = before ++ [r] ∧ r.postData = cStr data
  unsent : ¬configured → after = before

theorem posts_of_request {configured : Prop} (hc : configured) {model url data header user : Str}
    {keys : List Key} {response : Except Str Str} {w w' : World} (h : w.requests = w'.requests) :
    Posts configured data w'.requests (respond lib model user keys
      (performRequest url data header response w).1
      (performRequest url data header response w).2).2.requests := by
  refine ⟨?_, fun hno => absurd hc hno⟩
  intro _
  obtain ⟨r, hr, hdata⟩ := performRequest_requests url data header response w
  rw [respond_requests, hr, h]
  exact ⟨r, rfl, hdata⟩

theorem posts_of_refused {configured : Prop} (hc : ¬configured) {data : Str}
    {before after : List Request} (h : after = before) : Posts configured data before after :=
  ⟨fun hyes => absurd hyes hc, fun _ => h⟩

theorem askNamed_posts {model : Str} (hne : model ≠ lit "ollama") (role : Str) (keys : List Key)
    (url : Str → Str) (data : Str → Str → Str) (header prompt : Str) (response : Except Str Str)
    (w : World) : Posts (Configured model w.disk)
      (data (modelManager.value model w.disk) (chat model (lit "user") prompt w).1) w.requests
      (askNamed lib model role keys url data header prompt response w).2.requests := by
  unfold askNamed
  dsimp only
  rw [load_behind_prompt (.inr (.inl rfl))]
  apply of_model_check (P := fun r : Reply × World => Posts _ _ w.requests r.2.requests) hne
  · exact fun hc => posts_of_refused hc (by simp [chat_requests])
  · exact fun hc => posts_of_request lib hc (by simp [chat_requests])

theorem posts_of_ollama_check {model url data header user : Str} {keys : List Key}
    {response : Except Str Str} {d : Disk} {w w₁ w₂ w₃ : World} (h₁ : w₁.requests = w.requests)
    (h₂ : w₂.requests = w.requests) (h₃ : w₃.requests = w.requests) :
    Posts (Configured (lit "ollama") d) data w.requests
      (if (modelManager.value (lit "ollama") d).isEmpty then (Reply.refused, w₁)
        else if (urlManager.value (lit "ollama") d).isEmpty then (Reply.refused, w₂)
        else respond lib model user keys (performRequest url data header response w₃).1
          (performRequest url data header response w₃).2).2.requests := by
  apply of_ollama_check (P := fun r : Reply × World =>
    Posts (Configured (lit "ollama") d) data w.requests r.2.requests)
  · exact fun hc => ⟨posts_of_refused hc h₁, posts_of_refused hc h₂⟩
  · exact fun hc => posts_of_request lib hc h₃

theorem dispatch_posts {model : Str} (hmodel : model ∈ models) (prompt key : Str)
    (response : Except Str Str) (w : World) :
    Posts (Configured model w.disk)
      (postData model (modelManager.value model w.disk) (chat model (lit "user") prompt w).1)
      w.requests (dispatch lib model prompt key response w).2.requests := by
  simp only [models, List.mem_cons, List.not_mem_nil, or_false] at hmodel
  -- the request is made when the model is configured, and then once
  rcases hmodel with rfl | rfl | rfl
  · rw [dispatch, if_pos rfl, gemini_eq]
    exact askNamed_posts lib (by decide) _ _ _ _ _ _ _ _
  · rw [dispatch, if_neg (by decide), if_pos rfl, openai_eq]
    exact askNamed_posts lib (by decide) _ _ _ _ _ _ _ _
  · unfold dispatch ollama
    rw [if_neg (by decide), if_neg (by decide)]
    dsimp only
    -- the address is loaded before the turn is written, and that changes no file
    rw [load_behind_prompt (.inr (.inl rfl)), Setting.load_fst, Setting.load_disk,
      chat_fst_congr (lit "ollama") (lit "user") prompt
        (Setting.load_disk urlManager (lit "ollama") w)]
    exact posts_of_ollama_check lib (by simp [chat_requests]) (by simp [chat_requests])
      (by simp [chat_requests])

theorem dispatch_sends {model : Str} (hmodel : model ∈ models) (prompt key : Str)
    (response : Except Str Str) (w : World) :
    Sends model (chat model (lit "user") prompt w).1 w.requests
      (dispatch lib model prompt key response w).2.requests := by
  have hposts := dispatch_posts lib hmodel prompt key response w
  by_cases hc : Configured model w.disk
  · obtain ⟨r, hr, hdata⟩ := hposts.sent hc
    exact .inr ⟨r, _, hr, hdata⟩
  · exact .inl (hposts.unsent hc)

theorem report_requests (r : Reply × World) : (report r).2.requests = r.2.requests := by
  obtain ⟨reply, w⟩ := r
  cases reply <;> rfl

/-- Every request of a prompt carries the history as it is behind the user's turn. -/
theorem ask_sends {model : Str} (hmodel : model ∈ models) (prompt : Str)
    (response : Except Str Str) (w : World) :
    Sends model (messages model prompt w) w.requests
      (ask lib model prompt response w).2.requests := by
  -- the world behind looking for a key
  obtain ⟨p, hp⟩ : ∃ p, p = if model = lit "ollama" then ([], w) else apiKeyManager.load model w :=
    ⟨_, rfl⟩
  have hdisk : p.2.disk = w.disk := by
    rw [hp]
    split
    · rfl
    · exact Setting.load_disk _ _ _
  have hrequests : p.2.requests = w.requests := by
    rw [hp]
    split
    · rfl
    · exact load_requests _ _ _
  unfold ask
  dsimp only
  rw [← hp]
  split
  · exact .inl hrequests
  · rw [report_requests, ← hrequests, messages,
      ← chat_fst_congr model (lit "user") (escapeSpecialCases prompt) hdisk]
    exact dispatch_sends lib hmodel _ _ response p.2

end Library

/-! ## The cell -/

/-- The history of `model` is empty, and the next prompt is sent with one message. -/
structure IsReset (model : Str) (w : World) : Prop where
  empty : w.disk.bytes (historyPath model) = []
  oneMessage : ∀ prompt, ∃ j, Json.parse (Json.beginArray :: messages model prompt w ++
    [Json.endArray]) = some (.arr [j])

/-- `%%xassist model --refresh` -/
def resetCode (model : Str) : Str := lit "%%xassist " ++ model ++ lit " --refresh"

/-- `xassist` is registered: the magic does what the operator does, where that is defined. -/
def XassistRegistered {J : Type} (lib : JsonLibrary J) (m : Manager) : Prop :=
  ∃ f : CellMagic, m.magicCell (lit "xassist") = some (some f) ∧
    ∀ line cell w, ∃ response, ∀ w', xassist lib line cell response w = some w' →
      f.call line cell w = (none, w')

/-- The code is executed, and the history of `model` is reset. -/
def Resets (m : Manager) (model code : Str) (res : KernelRes) (w : World) : Prop :=
  ∃ a, m.apply code res w = some a ∧ IsReset model a.world

section Messages

variable {model : Str} {w : World}

theorem messages_of_opens (h : w.disk.Opens (historyPath model)) (prompt : Str) :
    messages model prompt w = (addPrompt model (escapeSpecialCases prompt) w.disk).bytes
      (historyPath model) := by
  unfold messages chat appendAndReadBack addPrompt addTurn
  dsimp only
  rw [Disk.append_of_writable h.2]
  show readFileContent _ _ = _
  rw [readFileContent, Disk.read, Disk.put_readable, if_pos h.1]
  rfl

/-- A file that does not open in both directions gives the request no message at all. -/
theorem messages_of_not_opens (h : ¬w.disk.Opens (historyPath model)) (prompt : Str) :
    messages model prompt w = [] := by
  unfold messages chat appendAndReadBack
  dsimp only
  split
  next => rfl
  next d hd =>
    have hwrite : w.disk.writable (historyPath model) = true := by
      by_contra hno
      rw [Disk.append, if_neg hno] at hd
      cases hd
    have hread : w.disk.readable (historyPath model) = false := by
      cases hr : w.disk.readable (historyPath model) with
      | false => rfl
      | true => exact absurd ⟨hr, hwrite⟩ h
    show readFileContent _ d = _
    rw [readFileContent, Disk.read, (Disk.sameBut_of_append hd).readable, hread]
    rfl

/-- A prompt behind `ts` is sent with these turns and one more. -/
theorem parse_messages {ts : List Turn} (h : HasTurns w.disk model ts)
    (hopen : w.disk.Opens (historyPath model)) (prompt : Str) :
    Json.parse (Json.beginArray :: messages model prompt w ++ [Json.endArray]) =
      some (.arr ((ts ++ [(⟨.user, .str (decoded prompt)⟩ : Turn)]).map (Turn.json model))) := by
  have hadd := h.addTurn hopen.2 ⟨.user, _, _, parse_prompt prompt⟩
  have hsep : separatorOf (historyPath model)
      (addPrompt model (escapeSpecialCases prompt) w.disk) = lit ", " := by
    rw [separatorOf, addPrompt, (addTurn_frame _ _ _ _).readable]
    exact if_pos hopen.1
  rw [messages_of_opens hopen]
  apply Holds.parse
  rw [← hsep]
  exact hadd

theorem isReset_iff : IsReset model w ↔
    w.disk.bytes (historyPath model) = [] ∧ w.disk.Opens (historyPath model) := by
  constructor
  · intro h
    refine ⟨h.empty, ?_⟩
    by_contra hno
    obtain ⟨j, hj⟩ := h.oneMessage []
    -- a file that does not open is read as no message at all
    rw [messages_of_not_opens hno] at hj
    cases (Holds.parse (holds_nil (lit ", ") model)).symm.trans hj
  · rintro ⟨hempty, hopen⟩
    refine ⟨hempty, ?_⟩
    intro prompt
    exact ⟨_, parse_messages (hasTurns_nil hempty) hopen prompt⟩

end Messages

section Cell

variable {J : Type} {lib : JsonLibrary J} {m : Manager} {model code : Str} {res : KernelRes}
  {w : World}

theorem isName_xassist : IsName (lit "xassist") := by decide

/-- The header behind the name of the magic. -/
def resetArguments (model : Str) : Str := model ++ lit " --refresh"

def resetHeader (model : Str) : Str := lit "xassist" ++ ((' ' : Char) : Byte) :: resetArguments model

theorem resetCode_eq (model : Str) : resetCode model = twoPercent (resetHeader model) := by
  show lit "%%xassist " ++ model ++ lit " --refresh" = lit "%%xassist " ++ (model ++ lit " --refresh")
  exact List.append_assoc _ _ _

theorem takeWhile_resetHeader (model u : Str) :
    (resetHeader model ++ u).takeWhile isWord = lit "xassist" := by
  have hblank : isWord ((' ' : Char) : Byte) = false := by decide
  rw [resetHeader, List.append_assoc]
  exact takeWhile_name isName_xassist (by simpa using hblank)

/-- The header of a model that is supported has no line break. -/
theorem isDot_resetArguments (hmodel : model ∈ models) :
    ∀ c ∈ resetArguments model, isDot c = true := by
  have hall : ∀ model ∈ models, (resetArguments model).all isDot = true := by decide
  exact List.all_eq_true.mp (hall model hmodel)

theorem split_resetHeader (hmodel : model ∈ models) (b : Str) :
    ∃ mt, search splitMagicCell (twoPercent (resetHeader model ++ (('\n' : Char) : Byte) :: b)) =
      some mt ∧ mt.str 1 = resetHeader model ∧ mt.str 2 = beforeReturn b := by
  apply split_spaced isName_xassist (by decide) _ (isDot_resetArguments hmodel)
  rw [resetHeader, List.append_assoc, List.cons_append]

/-- The cell without a body changes no file. -/
theorem apply_reset (hreg : XassistRegistered lib m) (hmodel : model ∈ models)
    (hcode : code = resetCode model ∨ code = resetCode model ++ lit "\n") (res : KernelRes)
    (w : World) : ∃ a, m.apply code res w = some a ∧ a.world.disk = w.disk := by
  obtain ⟨f, hf, -⟩ := hreg
  have hcontains := contains_cell hf
  -- without a line break the second search fails, with one its second group is empty
  rcases hcode with rfl | rfl
  · have hfeed : (('\n' : Char) : Byte) ∉ resetHeader model := by
      have hall : ∀ model ∈ models, (('\n' : Char) : Byte) ∉ resetHeader model := by decide
      exact hall model hmodel
    have hrun := takeWhile_resetHeader model []
    rw [List.append_nil] at hrun
    rw [resetCode_eq]
    obtain ⟨a, ha, -, hd⟩ := apply_of_no_body res w hrun hcontains isName_xassist.1 (by
      rw [search_splitMagicCell_none hfeed, group?])
    exact ⟨a, ha, hd⟩
  · have ht : resetCode model ++ lit "\n" =
        twoPercent (resetHeader model ++ (('\n' : Char) : Byte) :: []) := by
      rw [resetCode_eq]
      rfl
    obtain ⟨mt, hmt, -, h₂⟩ := split_resetHeader hmodel []
    rw [ht]
    obtain ⟨a, ha, -, hd⟩ := apply_of_no_body res w (takeWhile_resetHeader _ _) hcontains
      isName_xassist.1 (by rw [hmt, group?, h₂, beforeReturn]; rfl)
    exact ⟨a, ha, hd⟩

theorem resets_iff (hreg : XassistRegistered lib m) (hmodel : model ∈ models)
    (hcode : code = resetCode model ∨ code = resetCode model ++ lit "\n") :
    Resets m model code res w ↔
      w.disk.bytes (historyPath model) = [] ∧ w.disk.Opens (historyPath model) := by
  obtain ⟨a, ha, hd⟩ := apply_reset hreg hmodel hcode res w
  constructor
  · rintro ⟨a', ha', hreset⟩
    cases ha.symm.trans ha'
    rw [← hd]
    exact isReset_iff.mp hreset
  · intro h
    rw [← hd] at h
    exact ⟨a, ha, isReset_iff.mpr h⟩

theorem HasTurns.bytes_eq_nil_iff {d : Disk} {ts : List Turn} (h : HasTurns d model ts) :
    d.bytes (historyPath model) = [] ↔ ts = [] := by
  obtain ⟨xs, hcontent, rfl⟩ := h
  rw [hcontent, historyText_eq_nil, List.map_eq_nil_iff]

theorem resets_run_iff {denote : J → Json} (hreg : XassistRegistered lib m) (hmodel : model ∈ models)
    (hcode : code = resetCode model ∨ code = resetCode model ++ lit "\n")
    (hdump : ∀ j, Json.parse (lib.dump j) = some (denote j)) (ops : List (Op J))
    (hopen : w.disk.Opens (historyPath model)) (hempty : w.disk.bytes (historyPath model) = []) :
    Resets m model code res (runOps lib.dump ops w) ↔ turnsOf denote model ops = [] := by
  obtain ⟨hopen', hturns⟩ := runOps_hasTurns hdump ops hopen (hasTurns_nil hempty)
  rw [resets_iff hreg hmodel hcode, hturns.bytes_eq_nil_iff]
  exact and_iff_left hopen'

/-- **The cell without a body resets a history exactly when that is empty already**, behind any
operations on it: when nothing was said since the last refresh. What a prompt is then sent with is
the history and the prompt. -/
theorem reset_iff (hreg : XassistRegistered lib m) (hmodel : model ∈ models)
    (hcode : code = resetCode model ∨ code = resetCode model ++ lit "\n") :
    (∀ res w, Resets m model code res w ↔
      w.disk.bytes (historyPath model) = [] ∧ w.disk.Opens (historyPath model)) ∧
    (∀ denote ops res w, (∀ j, Json.parse (lib.dump j) = some (denote j)) →
      w.disk.Opens (historyPath model) → w.disk.bytes (historyPath model) = [] →
        (Resets m model code res (runOps lib.dump ops w) ↔ turnsOf denote model ops = [])) ∧
    ∀ prompt response w, Sends model (messages model prompt w) w.requests
      (ask lib model prompt response w).2.requests :=
  ⟨fun _ _ => resets_iff hreg hmodel hcode,
    fun _ ops _ _ hdump hopen hempty => resets_run_iff hreg hmodel hcode hdump ops hopen hempty,
    fun prompt response w => ask_sends lib hmodel prompt response w⟩

end Cell

/-- `xassist` with a network that answers nothing. -/
def assistManager : Manager :=
  Manager.registerMagic ⟨fun _ => none, fun _ => none⟩ (lit "xassist") none
    (some ⟨fun line cell w => (none, (xassist jsonLibrary line cell (.ok []) w).getD w)⟩)

theorem assistManager_xassist : XassistRegistered jsonLibrary assistManager := by
  refine ⟨_, rfl, ?_⟩
  intro line cell w
  refine ⟨.ok [], ?_⟩
  intro w' hw'
  show (none, Option.getD _ w) = _
  rw [hw']
  rfl

/-- Behind a refresh the cell has nothing to do. -/
theorem reset_after_refresh :
    Resets assistManager (lit "ollama") (resetCode (lit "ollama") ++ lit "\n") .new
        (runOps jsonLibrary.dump [.chat (lit "ollama") .user (lit "hi"), .refresh (lit "ollama")]
          .fresh) ∧
      Sends (lit "ollama") (messages (lit "ollama") (lit "hi") .fresh) World.fresh.requests
        (ask jsonLibrary (lit "ollama") (lit "hi") (.ok []) .fresh).2.requests := by
  have hmodel : lit "ollama" ∈ models := by decide
  obtain ⟨-, hrun, hsends⟩ := reset_iff assistManager_xassist hmodel (.inr rfl)
  constructor
  · apply (hrun id _ .new .fresh Json.parse_dump ⟨rfl, rfl⟩ rfl).mpr
    rfl
  · exact hsends (lit "hi") (.ok []) .fresh

/-- A turn stays in the history. -/
theorem reset_keeps_turn :
    ¬Resets assistManager (lit "gemini") (resetCode (lit "gemini")) .new
      (runOps jsonLibrary.dump [.chat (lit "gemini") .user (lit "hi")] .fresh) := by
  intro h
  have hturns : turnsOf id (lit "gemini") [.chat (lit "gemini") .user (lit "hi")] = [] :=
    (resets_run_iff assistManager_xassist (by decide) (.inl rfl) Json.parse_dump _
      ⟨rfl, rfl⟩ rfl).mp h
  cases hturns

end XeusCpp.Assist
