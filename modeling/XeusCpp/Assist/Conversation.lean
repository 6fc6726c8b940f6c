/-
# XeusCpp.Assist.Conversation — what a failed prompt leaves behind.

Each of the three functions that ask a model writes the user's turn into the history before it
checks the configuration, sends the request and looks at the response, and no exit takes the turn
out again. A failed prompt therefore leaves the history as it was exactly when nothing was written:
the key is missing, or the file cannot be written.

**`failed_prompt_keeps_history_iff`** says when a call that prints no answer leaves the history
alone, and that a run in which every call does so alternates questions and answers.
-/
import XeusCpp.Assist.Prompt

namespace XeusCpp.Assist

open Text Host

/-! ## Files of one model do not clash -/

theorem append_ne_of_suffix {a b s t : Str} (n : Nat) (hs : n ≤ s.length) (ht : n ≤ t.length)
    (h : s.reverse.take n ≠ t.reverse.take n) : a ++ s ≠ b ++ t := by
  intro he
  apply h
  have hr := congrArg (fun x => x.reverse.take n) he
  simpa [List.take_append_of_le_length, hs, ht] using hr

/-- Of the settings the code keeps. -/
def IsManager (k : Setting) : Prop := k = apiKeyManager ∨ k = modelManager ∨ k = urlManager

theorem path_ne_historyPath {k : Setting} (hk : IsManager k) (model m : Str) :
    k.path model ≠ historyPath m := by
  rcases hk with rfl | rfl | rfl
  · exact append_ne_of_suffix 9 (by decide) (by decide) (by decide)
  · exact append_ne_of_suffix 9 (by decide) (by decide) (by decide)
  · exact append_ne_of_suffix 8 (by decide) (by decide) (by decide)

/-- The value a setting has on the disk, empty where it has none. -/
def Setting.value (k : Setting) (model : Str) (d : Disk) : Str :=
  match d.read (k.path model) with
  | some s => getline s
  | none => []

theorem Setting.load_fst (k : Setting) (model : Str) (w : World) :
    (k.load model w).1 = k.value model w.disk := by
  unfold load value
  split <;> simp_all

@[simp] theorem Setting.load_disk (k : Setting) (model : Str) (w : World) :
    (k.load model w).2.disk = w.disk := by
  unfold load
  split <;> rfl

theorem Setting.value_frame {k : Setting} (hk : IsManager k) {model m : Str} {d d' : Disk}
    (h : Disk.SameBut (historyPath m) d d') : k.value model d' = k.value model d := by
  unfold value
  rw [h.read (path_ne_historyPath hk model m)]

theorem Setting.save_frame (k : Setting) (model value : Str) (w : World) :
    Disk.SameBut (k.path model) w.disk (k.save model value w).disk := by
  unfold save
  split
  next d h => exact Disk.sameBut_of_write h
  next => exact Disk.SameBut.refl _ _

/-! ## What a prompt writes -/

/-- The body of the response that is parsed. -/
def bodyOf : Except Str Str → Str
  | .ok s => s
  | .error _ => []

@[simp] theorem performRequest_fst (url postData authHeader : Str) (response : Except Str Str)
    (w : World) : (performRequest url postData authHeader response w).1 = bodyOf response := by
  cases response <;> rfl

theorem performRequest_disk (url postData authHeader : Str) (response : Except Str Str)
    (w : World) : (performRequest url postData authHeader response w).2.disk = w.disk := by
  cases response <;> rfl

section Library

variable {J : Type} (lib : JsonLibrary J)

/-- The value at the place of the answer, in a response that parses and reports no error. -/
def answerValue (keys : List Key) (body : Str) : Option J :=
  (lib.parse body).bind fun j =>
    if (lib.find j (lit "error")).isSome then none else lib.path j keys

/-- The answer: a string there. -/
def answerText (keys : List Key) (body : Str) : Option Str :=
  (answerValue lib keys body).bind lib.toStr

theorem answerText_eq_some {keys : List Key} {body s : Str}
    (h : answerText lib keys body = some s) :
    ∃ a, answerValue lib keys body = some a ∧ lib.toStr a = some s :=
  Option.bind_eq_some_iff.mp h

/-- Writes the answer's turn, when there is a value at its place. -/
def addAnswer (model role : Str) (value : Option J) (d : Disk) : Disk :=
  match value with
  | none => d
  | some a => addTurn model role (lib.dump a) d

/-- What the three functions do with a response, without the messages: they write an answer's turn
when there is a value at its place, and change nothing otherwise. -/
theorem respond_spec (model user : Str) (keys : List Key) (body : Str) (w : World) :
    let r := respond lib model user keys body w
    (answerValue lib keys body = none ∧ (∀ s, r.1 ≠ .answer s) ∧ r.2.disk = w.disk ∧
      r.2.requests = w.requests) ∨
    ∃ a, answerValue lib keys body = some a ∧ r.2 = (chatJson lib.dump model user a w).2 ∧
      ∀ s, r.1 = .answer s ↔ lib.toStr a = some s := by
  unfold respond answerValue
  cases lib.parse body with
  | none => exact .inl ⟨rfl, nofun, rfl, rfl⟩
  | some j =>
      cases hfind : lib.find j (lit "error") with
      | some e =>
          left
          simp only [Option.bind_some, hfind, Option.isSome_some, if_true]
          split
          · exact ⟨trivial, nofun, rfl, rfl⟩
          · exact ⟨trivial, nofun, rfl, rfl⟩
      | none =>
          simp only [Option.bind_some, hfind, Option.isSome_none]
          cases lib.path j keys with
          | none => exact .inl ⟨rfl, nofun, rfl, rfl⟩
          | some a =>
              right
              refine ⟨a, rfl, ?_⟩
              cases ha : lib.toStr a with
              | none => simp [ha]
              | some t => simp [ha]

theorem respond_disk (model user : Str) (keys : List Key) (body : Str) (w : World) :
    (respond lib model user keys body w).2.disk =
      addAnswer lib model user (answerValue lib keys body) w.disk := by
  rcases respond_spec lib model user keys body w with ⟨hnone, -, hdisk, -⟩ | ⟨a, ha, hr, -⟩
  · rw [hnone, hdisk]
    rfl
  · rw [ha, hr]
    exact appendAndReadBack_disk model user (lib.dump a) w

theorem respond_answer (model user : Str) (keys : List Key) (body : Str) (w : World) (s : Str) :
    (respond lib model user keys body w).1 = .answer s ↔ answerText lib keys body = some s := by
  rcases respond_spec lib model user keys body w with ⟨hnone, hne, -⟩ | ⟨a, ha, -, hs⟩
  · rw [answerText, hnone]
    exact iff_of_false (hne s) nofun
  · rw [answerText, ha]
    exact hs s

/-! ## The three functions -/

def modelRole (model : Str) : Role := if model = lit "gemini" then .model else .assistant

/-- Where the answer of a model stands. -/
def answerKeys (model : Str) : List Key :=
  if model = lit "gemini" then geminiAnswer
  else if model = lit "openai" then openaiAnswer
  else ollamaAnswer

/-- A model name is saved, and for `ollama` an address. -/
def Configured (model : Str) (d : Disk) : Prop :=
  modelManager.value model d ≠ [] ∧ (model = lit "ollama" → urlManager.value model d ≠ [])

instance (model : Str) (d : Disk) : Decidable (Configured model d) :=
  inferInstanceAs (Decidable (_ ∧ _))

section Check

variable {α : Type} {P : α → Prop} {model : Str} {d : Disk} {a b c : α}

/-- The check of the model's name decides whether a model without an address is configured. -/
theorem of_model_check (hne : model ≠ lit "ollama") (hrefused : ¬Configured model d → P a)
    (hasked : Configured model d → P b) :
    P (if (modelManager.value model d).isEmpty then a else b) := by
  split
  next hempty =>
    apply hrefused
    intro hc
    exact hc.1 (List.isEmpty_iff.mp hempty)
  next hempty =>
    apply hasked
    exact ⟨fun h => hempty (List.isEmpty_iff.mpr h), fun h => absurd h hne⟩

theorem of_ollama_check (hrefused : ¬Configured (lit "ollama") d → P a ∧ P b)
    (hasked : Configured (lit "ollama") d → P c) :
    P (if (modelManager.value (lit "ollama") d).isEmpty then a
      else if (urlManager.value (lit "ollama") d).isEmpty then b else c) := by
  split
  next hempty =>
    apply (hrefused _).1
    intro hc
    exact hc.1 (List.isEmpty_iff.mp hempty)
  next hempty =>
    split
    next hurl =>
      apply (hrefused _).2
      intro hc
      exact hc.2 rfl (List.isEmpty_iff.mp hurl)
    next hurl =>
      apply hasked
      exact ⟨fun h => hempty (List.isEmpty_iff.mpr h), fun _ h => hurl (List.isEmpty_iff.mpr h)⟩

end Check

/-- The disk behind the user's turn. -/
def addPrompt (model cell : Str) (d : Disk) : Disk :=
  addTurn model (lit "user") (Json.quote :: cell ++ [Json.quote]) d

/-- How a function that asks `model` leaves the disk, and when it answers. -/
structure Settles (model cell : Str) (response : Except Str Str) (d : Disk) (r : Reply × World) :
    Prop where
  disk : r.2.disk = if Configured model d then
      addAnswer lib model (modelRole model).text
        (answerValue lib (answerKeys model) (bodyOf response)) (addPrompt model cell d)
    else addPrompt model cell d
  answer : ∀ s, r.1 = .answer s ↔
    Configured model d ∧ answerText lib (answerKeys model) (bodyOf response) = some s

theorem chat_disk (model user cell : Str) (w : World) : (chat model user cell w).2.disk =
    addTurn model user (Json.quote :: cell ++ [Json.quote]) w.disk :=
  appendAndReadBack_disk _ _ _ _

theorem settles_of_configured {model cell role : Str} {keys : List Key}
    {response : Except Str Str} {d : Disk} {w : World} (hrole : (modelRole model).text = role)
    (hkeys : answerKeys model = keys) (hc : Configured model d)
    (hw : w.disk = addPrompt model cell d) :
    Settles lib model cell response d (respond lib model role keys (bodyOf response) w) := by
  subst hrole hkeys
  constructor
  · rw [respond_disk, if_pos hc, hw]
  · intro s
    rw [respond_answer]
    exact (and_iff_right hc).symm

theorem settles_of_refused {model cell : Str} {response : Except Str Str} {d : Disk} {w : World}
    (hc : ¬Configured model d) (hw : w.disk = addPrompt model cell d) :
    Settles lib model cell response d (.refused, w) := by
  constructor
  · rw [if_neg hc]
    exact hw
  · intro s
    exact iff_of_false (fun h => by cases h) fun h => hc h.1

/-- A setting is read behind the user's turn as before it. -/
theorem load_behind_prompt {k : Setting} (hk : IsManager k) (model m cell : Str) (w : World) :
    (k.load model (chat m (lit "user") cell w).2).1 = k.value model w.disk := by
  rw [Setting.load_fst, chat_disk]
  exact Setting.value_frame hk (addTurn_frame _ _ _ _)

/-- What `gemini` and `openai` do, by the values they do it with: the URL for a name, the data for a
name and the messages, and the header. -/
def askNamed (model role : Str) (keys : List Key) (url : Str → Str) (data : Str → Str → Str)
    (header cell : Str) (response : Except Str Str) (w : World) : Reply × World :=
  let (chatMessage, w) := chat model (lit "user") cell w
  let (name, w) := modelManager.load model w
  if name.isEmpty then (.refused, w.cerr (lit "Model not found.\n"))
  else
    let (response, w) := performRequest (url name) (data name chatMessage) header response w
    respond lib model role keys response w

theorem gemini_eq (cell key : Str) (response : Except Str Str) (w : World) :
    gemini lib cell key response w = askNamed lib (lit "gemini") (lit "model") geminiAnswer
      (fun name => lit "https://generativelanguage.googleapis.com/v1beta/models/" ++ name ++
        lit ":generateContent?key=" ++ key)
      (fun _ messages => lit "\x7b\"contents\": [ " ++ messages ++ lit "]\x7d")
      [] cell response w := rfl

theorem openai_eq (cell key : Str) (response : Except Str Str) (w : World) :
    openai lib cell key response w = askNamed lib (lit "openai") (lit "assistant") openaiAnswer
      (fun _ => lit "https://api.openai.com/v1/chat/completions")
      (fun name messages => lit "\x7b\n                    \"model\": \"" ++ name ++
        lit "\",\n                    \"messages\": [" ++ messages ++
        lit "],\n                    \"temperature\": 0.7\n                \x7d")
      (lit "Authorization: Bearer " ++ key) cell response w := rfl

theorem askNamed_settles {model role : Str} {keys : List Key} (hne : model ≠ lit "ollama")
    (hrole : (modelRole model).text = role) (hkeys : answerKeys model = keys) (url : Str → Str)
    (data : Str → Str → Str) (header cell : Str) (response : Except Str Str) (w : World) :
    Settles lib model cell response w.disk
      (askNamed lib model role keys url data header cell response w) := by
  unfold askNamed
  dsimp only
  rw [load_behind_prompt (.inr (.inl rfl)), performRequest_fst]
  apply of_model_check hne
  · exact fun hc => settles_of_refused lib hc (by simp [chat_disk, addPrompt])
  · exact fun hc => settles_of_configured lib hrole hkeys hc
      (by simp [performRequest_disk, chat_disk, addPrompt])

theorem ollama_settles (cell : Str) (response : Except Str Str) (w : World) :
    Settles lib (lit "ollama") cell response w.disk (ollama lib cell response w) := by
  unfold ollama
  dsimp only
  rw [load_behind_prompt (.inr (.inl rfl)), performRequest_fst, Setting.load_fst, Setting.load_disk]
  apply of_ollama_check
  · intro hc
    constructor
    · exact settles_of_refused lib hc (by simp [chat_disk, addPrompt])
    · exact settles_of_refused lib hc (by simp [chat_disk, addPrompt])
  · intro hc
    exact settles_of_configured lib (by decide) (by decide) hc
      (by simp [performRequest_disk, chat_disk, addPrompt])

/-! ## A prompt -/

/-- The model needs no key, or one is saved. -/
def HasKey (model : Str) (d : Disk) : Prop :=
  model = lit "ollama" ∨ apiKeyManager.value model d ≠ []

instance (model : Str) (d : Disk) : Decidable (HasKey model d) :=
  inferInstanceAs (Decidable (_ ∨ _))

theorem dispatch_settles {model : Str} (hmodel : model ∈ models) (cell key : Str)
    (response : Except Str Str) (w : World) :
    Settles lib model cell response w.disk (dispatch lib model cell key response w) := by
  unfold dispatch
  simp only [models, List.mem_cons, List.not_mem_nil, or_false] at hmodel
  rcases hmodel with rfl | rfl | rfl
  · rw [if_pos rfl, gemini_eq]
    exact askNamed_settles lib (by decide) (by decide) (by decide) _ _ _ _ _ _
  · rw [if_neg (by decide), if_pos rfl, openai_eq]
    exact askNamed_settles lib (by decide) (by decide) (by decide) _ _ _ _ _ _
  · rw [if_neg (by decide), if_neg (by decide)]
    exact ollama_settles lib cell response w

/-- Printing changes neither the disk nor what the call came to. -/
theorem Settles.report {model cell : Str} {response : Except Str Str} {d : Disk}
    {r : Reply × World} (h : Settles lib model cell response d r) :
    Settles lib model cell response d (report r) := by
  obtain ⟨reply, w⟩ := r
  cases reply with
  | answer s => exact ⟨h.disk, h.answer⟩
  | refused => exact ⟨h.disk, h.answer⟩
  | thrown => exact ⟨h.disk, h.answer⟩

/-- The key, and the world behind looking for it. -/
theorem ask_eq (model cell : Str) (response : Except Str Str) (w : World) :
    ∃ key w', w'.disk = w.disk ∧ ask lib model cell response w =
      if HasKey model w.disk then
        report (dispatch lib model (escapeSpecialCases cell) key response w')
      else (.refused, w') := by
  by_cases hm : model = lit "ollama"
  · refine ⟨[], w, rfl, ?_⟩
    rw [if_pos (.inl hm)]
    simp [ask, hm]
  · by_cases hk : apiKeyManager.value model w.disk = []
    · refine ⟨[], (apiKeyManager.load model w).2.cerr (lit "API key for model " ++ model ++
        lit " is not available.\n"), by simp, ?_⟩
      rw [if_neg (by simp [HasKey, hm, hk])]
      simp [ask, hm, Setting.load_fst, hk]
    · refine ⟨apiKeyManager.value model w.disk, (apiKeyManager.load model w).2, by simp, ?_⟩
      rw [if_pos (.inr hk)]
      simp [ask, hm, Setting.load_fst, hk]

/-- Without a key nothing is written. -/
theorem ask_of_no_key {model : Str} (cell : Str) (response : Except Str Str) {w : World}
    (h : ¬HasKey model w.disk) :
    (ask lib model cell response w).2.disk = w.disk ∧
      ∀ s, (ask lib model cell response w).1 ≠ .answer s := by
  obtain ⟨key, w', hw, hask⟩ := ask_eq lib model cell response w
  rw [hask, if_neg h]
  exact ⟨hw, fun s hs => by cases hs⟩

theorem ask_settles {model : Str} (hmodel : model ∈ models) (cell : Str)
    (response : Except Str Str) {w : World} (h : HasKey model w.disk) :
    Settles lib model (escapeSpecialCases cell) response w.disk
      (ask lib model cell response w) := by
  obtain ⟨key, w', hw, hask⟩ := ask_eq lib model cell response w
  rw [hask, if_pos h, ← hw]
  exact (dispatch_settles lib hmodel _ key response w').report

/-! ## The history behind a prompt -/

/-- A call that gives no answer leaves the history alone: the key is missing, or the file cannot be
written, or there is an answer. -/
def KeepsHistory (model : Str) (response : Except Str Str) (d : Disk) : Prop :=
  ¬HasKey model d ∨ d.writable (historyPath model) = false ∨
    (Configured model d ∧ (answerText lib (answerKeys model) (bodyOf response)).isSome)

variable {lib} {model : Str} {d : Disk}

theorem addAnswer_frame (role : Str) (value : Option J) :
    Disk.SameBut (historyPath model) d (addAnswer lib model role value d) := by
  cases value with
  | none => exact Disk.SameBut.refl _ _
  | some a => exact addTurn_frame _ _ _ _

theorem addAnswer_of_not_writable (h : d.writable (historyPath model) = false) (role : Str)
    (value : Option J) : addAnswer lib model role value d = d := by
  cases value with
  | none => rfl
  | some a => exact addTurn_of_not_writable h _ _

theorem addPrompt_of_not_writable (h : d.writable (historyPath model) = false) (cell : Str) :
    addPrompt model cell d = d :=
  addTurn_of_not_writable h _ _

theorem length_lt_addTurn (h : d.writable (historyPath model) = true) (user cell : Str) :
    (d.bytes (historyPath model)).length <
      ((addTurn model user cell d).bytes (historyPath model)).length := by
  have hpos := List.length_pos_iff.mpr (turnText_ne_nil model user cell)
  rw [addTurn_of_writable h, Disk.put_bytes_self]
  simp only [List.length_append]
  omega

theorem length_le_addAnswer (h : d.writable (historyPath model) = true) (role : Str)
    (value : Option J) : (d.bytes (historyPath model)).length ≤
      ((addAnswer lib model role value d).bytes (historyPath model)).length := by
  cases value with
  | none => exact Nat.le_refl _
  | some a => exact (length_lt_addTurn h _ _).le

variable {cell : Str} {response : Except Str Str} {w : World} {r : Reply × World}

theorem Settles.of_not_writable (h : Settles lib model cell response d r)
    (hw : d.writable (historyPath model) = false) : r.2.disk = d := by
  rw [h.disk, addPrompt_of_not_writable hw, addAnswer_of_not_writable hw]
  split <;> rfl

/-- The history has grown, whatever became of the prompt. -/
theorem Settles.length_lt (h : Settles lib model cell response d r)
    (hw : d.writable (historyPath model) = true) :
    (d.bytes (historyPath model)).length < (r.2.disk.bytes (historyPath model)).length := by
  have hprompt := length_lt_addTurn hw (lit "user") (Json.quote :: cell ++ [Json.quote])
  have hw' : (addPrompt model cell d).writable (historyPath model) = true := by
    rw [addPrompt, (addTurn_frame _ _ _ _).writable]
    exact hw
  rw [h.disk]
  split
  · exact hprompt.trans_le (length_le_addAnswer hw' _ _)
  · exact hprompt

theorem keeps_history_iff (hmodel : model ∈ models) (cell : Str) (response : Except Str Str)
    (w : World) :
    ((∀ s, (ask lib model cell response w).1 ≠ .answer s) →
      (ask lib model cell response w).2.disk.content (historyPath model) =
        w.disk.content (historyPath model)) ↔ KeepsHistory lib model response w.disk := by
  -- without a key, or where the file does not open, nothing is written
  by_cases hkey : HasKey model w.disk
  case neg => exact iff_of_true (fun _ => by rw [(ask_of_no_key lib cell response hkey).1]) (.inl hkey)
  have hs := ask_settles lib hmodel cell response hkey
  cases hw : w.disk.writable (historyPath model) with
  | false => exact iff_of_true (fun _ => by rw [hs.of_not_writable hw]) (.inr (.inl hw))
  | true =>
      -- the user's turn is in the file before the request is made
      have hchange : (ask lib model cell response w).2.disk.content (historyPath model) ≠
          w.disk.content (historyPath model) := by
        intro he
        have hlt := hs.length_lt hw
        rw [Disk.bytes, Disk.bytes, he] at hlt
        exact absurd hlt (Nat.lt_irrefl _)
      constructor
      · intro h
        by_contra hno
        apply hchange
        apply h
        intro s hanswer
        obtain ⟨hc, ht⟩ := (hs.answer s).mp hanswer
        exact hno (.inr (.inr ⟨hc, by rw [ht]; rfl⟩))
      · rintro (h | h | ⟨hc, ht⟩) hno
        · exact absurd hkey h
        · exact absurd (hw.symm.trans h) (by decide)
        · obtain ⟨s, hs'⟩ := Option.isSome_iff_exists.mp ht
          exact absurd ((hs.answer s).mpr ⟨hc, hs'⟩) (hno s)

/-! ## Runs -/

/-- A question and its answer, a JSON string. -/
def exchange (model : Str) (x : Json × List Char) : List Turn :=
  [⟨.user, x.1⟩, ⟨modelRole model, .str x.2⟩]

/-- The file of `model` holds questions and answers in turn. -/
def Conversation (model : Str) (d : Disk) : Prop :=
  ∃ xs : List (Json × List Char), HasTurns d model (xs.flatMap (exchange model))

theorem conversation_empty (model : Str) (h : d.bytes (historyPath model) = []) :
    Conversation model d := ⟨[], hasTurns_nil h⟩

theorem Conversation.frame {d' : Disk} {path : Str} (h : Conversation model d)
    (hd : Disk.SameBut path d d') (hp : historyPath model ≠ path) : Conversation model d' := by
  obtain ⟨xs, h⟩ := h
  exact ⟨xs, h.frame hd hp⟩

theorem Conversation.refresh (h : Conversation model w.disk) :
    Conversation model (refresh model w).disk := by
  cases hw : w.disk.writable (historyPath model) with
  | true => exact ⟨[], hasTurns_refresh hw⟩
  | false =>
      have hsame : (Assist.refresh model w).disk = w.disk := by
        simp [Assist.refresh, Disk.write, hw]
      rwa [hsame]

/-- An answered prompt is one more exchange. -/
theorem Conversation.exchange
    (hdump : ∀ j s, lib.toStr j = some s → ∃ cs, Json.parse (lib.dump j) = some (.str cs))
    (h : Conversation model d) (hw : d.writable (historyPath model) = true) (prompt : Str) {j : J}
    {s : Str} (hj : lib.toStr j = some s) :
    Conversation model (addAnswer lib model (modelRole model).text (some j)
      (addPrompt model (escapeSpecialCases prompt) d)) := by
  obtain ⟨xs, h⟩ := h
  obtain ⟨cs, hcs⟩ := hdump j s hj
  have hask := h.addTurn hw ⟨.user, _, _, parse_prompt prompt⟩
  have hw' : (addPrompt model (escapeSpecialCases prompt) d).writable (historyPath model) = true := by
    rw [addPrompt, (addTurn_frame _ _ _ _).writable]
    exact hw
  have hanswer := hask.addTurn hw' ⟨modelRole model, _, _, hcs⟩
  refine ⟨xs ++ [(.str (decoded prompt), cs)], ?_⟩
  have hcat : (xs ++ [(Json.str (decoded prompt), cs)]).flatMap (Assist.exchange model) =
      xs.flatMap (Assist.exchange model) ++ [⟨.user, .str (decoded prompt)⟩] ++
        [⟨modelRole model, .str cs⟩] := by
    simp [Assist.exchange]
  rw [hcat]
  exact hanswer

/-- A prompt under the condition is one more exchange, or nothing. -/
theorem ask_conversation
    (hdump : ∀ j s, lib.toStr j = some s → ∃ cs, Json.parse (lib.dump j) = some (.str cs))
    (hmodel : model ∈ models) (h : Conversation model w.disk)
    (hkeeps : KeepsHistory lib model response w.disk) (prompt : Str) :
    Conversation model (ask lib model prompt response w).2.disk := by
  by_cases hkey : HasKey model w.disk
  case neg => exact (ask_of_no_key lib prompt response hkey).1 ▸ h
  have hs := ask_settles lib hmodel prompt response hkey
  cases hw : w.disk.writable (historyPath model) with
  | false => exact (hs.of_not_writable hw).symm ▸ h
  | true =>
      rcases hkeeps with hno | hno | ⟨hc, ht⟩
      · exact absurd hkey hno
      · exact absurd (hw.symm.trans hno) (by decide)
      · obtain ⟨s, hs'⟩ := Option.isSome_iff_exists.mp ht
        obtain ⟨j, hvalue, hj⟩ := answerText_eq_some lib hs'
        rw [hs.disk, if_pos hc, hvalue]
        exact h.exchange hdump hw prompt hj

theorem ask_frame (hmodel : model ∈ models) (prompt : Str) :
    Disk.SameBut (historyPath model) w.disk (ask lib model prompt response w).2.disk := by
  by_cases hkey : HasKey model w.disk
  case neg => exact (ask_of_no_key lib prompt response hkey).1.symm ▸ Disk.SameBut.refl _ _
  have hprompt := addTurn_frame model (lit "user")
    (Json.quote :: escapeSpecialCases prompt ++ [Json.quote]) w.disk
  rw [(ask_settles lib hmodel prompt response hkey).disk]
  split
  · exact hprompt.trans (addAnswer_frame _ _)
  · exact hprompt

/-- A use of the magic: the header, the cell, and what the network does if it is asked. -/
structure Call where
  line : Str
  cell : Str
  response : Except Str Str

variable (lib) in
def Call.run (c : Call) (w : World) : Option World := xassist lib c.line c.cell c.response w

variable (lib) in
/-- The condition on a call, in the world it starts in. -/
def Call.Keeps (c : Call) (w : World) : Prop :=
  ∀ model, command c.line = .prompt model → KeepsHistory lib model c.response w.disk

variable (lib) in
/-- Calls one after the other; `none` when one is undefined. -/
def runCalls : List Call → World → Option World
  | [], w => some w
  | c :: cs, w => (c.run lib w).bind (runCalls cs)

variable (lib) in
/-- Every call of the run meets the condition in the world it starts in. -/
def AllKeep : List Call → World → Prop
  | [], _ => True
  | c :: cs, w => c.Keeps lib w ∧ ∀ w', c.run lib w = some w' → AllKeep cs w'

theorem command_model {line : Str} (h : command line = .prompt model ∨
    command line = .refresh model) : model ∈ models := by
  unfold command at h
  split at h
  next m rest _ =>
    split at h
    next => rcases h with h | h <;> cases h
    next hm =>
      have hm : m ∈ models := not_not.mp hm
      split at h
      · rcases h with h | h <;> cases h
        exact hm
      · repeat' split at h
        all_goals rcases h with h | h <;> cases h
        all_goals exact hm
  next => rcases h with h | h <;> cases h

/-- One call keeps every conversation. -/
theorem call_conversation
    (hdump : ∀ j s, lib.toStr j = some s → ∃ cs, Json.parse (lib.dump j) = some (.str cs))
    {c : Call} {w' : World} (hc : c.Keeps lib w) (hrun : c.run lib w = some w')
    {m : Str} (h : Conversation m w.disk) : Conversation m w'.disk := by
  unfold Call.run xassist at hrun
  cases hcmd : command c.line with
  | undefined => rw [hcmd] at hrun; cases hrun
  | unknown =>
      rw [hcmd] at hrun
      cases hrun
      exact h
  -- the three settings have files of their own
  | saveKey model =>
      rw [hcmd] at hrun
      cases hrun
      exact h.frame (Setting.save_frame _ _ _ _) (path_ne_historyPath (.inl rfl) _ _).symm
  | saveModel model =>
      rw [hcmd] at hrun
      cases hrun
      exact h.frame (Setting.save_frame _ _ _ _) (path_ne_historyPath (.inr (.inl rfl)) _ _).symm
  | setUrl model =>
      rw [hcmd] at hrun
      cases hrun
      exact h.frame (Setting.save_frame _ _ _ _) (path_ne_historyPath (.inr (.inr rfl)) _ _).symm
  -- a call on another model leaves the file of `m` alone
  | refresh model =>
      rw [hcmd] at hrun
      cases hrun
      by_cases hm : model = m
      · subst hm
        exact h.refresh
      · exact h.frame (refresh_frame _ _) (historyPath_ne hm)
  | prompt model =>
      rw [hcmd] at hrun
      cases hrun
      have hmodel := command_model (.inl hcmd)
      by_cases hm : model = m
      · subst hm
        exact ask_conversation hdump hmodel h (hc _ hcmd) c.cell
      · exact h.frame (ask_frame hmodel c.cell) (historyPath_ne hm)

theorem run_conversation
    (hdump : ∀ j s, lib.toStr j = some s → ∃ cs, Json.parse (lib.dump j) = some (.str cs))
    (calls : List Call) {w w' : World} (hkeep : AllKeep lib calls w)
    (hrun : runCalls lib calls w = some w') {m : Str} (h : Conversation m w.disk) :
    Conversation m w'.disk := by
  induction calls generalizing w with
  | nil =>
      cases hrun
      exact h
  | cons c calls ih =>
      obtain ⟨w₁, h₁, hrun⟩ := Option.bind_eq_some_iff.mp hrun
      exact ih (hkeep.2 w₁ h₁) hrun (call_conversation hdump hkeep.1 h₁ h)

/-- **A prompt without an answer leaves the history as it was exactly under `KeepsHistory`**, and a
run of calls that meet this condition keeps the histories alternating between questions and
answers, every answer a string. -/
theorem failed_prompt_keeps_history_iff
    (hdump : ∀ j s, lib.toStr j = some s → ∃ cs, Json.parse (lib.dump j) = some (.str cs)) :
    (∀ model ∈ models, ∀ cell response w,
      ((∀ s, (ask lib model cell response w).1 ≠ .answer s) →
        (ask lib model cell response w).2.disk.content (historyPath model) =
          w.disk.content (historyPath model)) ↔ KeepsHistory lib model response w.disk) ∧
    ∀ calls w w', (∀ m ∈ models, w.disk.bytes (historyPath m) = []) → AllKeep lib calls w →
      runCalls lib calls w = some w' → ∀ m ∈ models, Conversation m w'.disk := by
  refine ⟨fun model hmodel cell response w => keeps_history_iff hmodel cell response w, ?_⟩
  intro calls w w' hempty hkeep hrun m hm
  exact run_conversation hdump calls hkeep hrun (conversation_empty m (hempty m hm))

end Library

theorem jsonLibrary_dump (j : Json) (s : Str) (h : jsonLibrary.toStr j = some s) :
    ∃ cs, Json.parse (jsonLibrary.dump j) = some (.str cs) := by
  cases j with
  | str cs => exact ⟨cs, Json.parse_dump (.str cs)⟩
  | _ => cases h

/-- `ollama` is configured; no history exists. -/
def ollamaWorld : World where
  disk := { content := fun p =>
              if p = lit "ollama_model.txt" then some (lit "llama3\n")
              else if p = lit "ollama_url.txt" then some (lit "http://localhost")
              else none
            readable := fun _ => true
            writable := fun _ => true }
  out := []
  err := []
  requests := []

/-- A prompt that is answered. -/
def answeredCall : Call where
  line := lit "xassist ollama"
  cell := lit "hi"
  response := .ok (lit "\x7b\"message\": \x7b\"content\": \"hello\"\x7d\x7d")

/-- A prompt without a key is not sent, and an answered prompt is an exchange. -/
theorem failed_prompt_keeps_history_ollama :
    (ask jsonLibrary (lit "gemini") (lit "hi") (.ok []) ollamaWorld).2.disk.content
        (historyPath (lit "gemini")) = ollamaWorld.disk.content (historyPath (lit "gemini")) ∧
      ∃ w', runCalls jsonLibrary [answeredCall] ollamaWorld = some w' ∧
        Conversation (lit "ollama") w'.disk := by
  obtain ⟨hcall, hrun⟩ := failed_prompt_keeps_history_iff jsonLibrary_dump
  have hcmd : command answeredCall.line = .prompt (lit "ollama") := by decide
  have hanswer : (answerText jsonLibrary (answerKeys (lit "ollama"))
      (bodyOf answeredCall.response)).isSome = true := by decide +kernel
  constructor
  · apply (hcall (lit "gemini") (by decide) (lit "hi") (.ok []) ollamaWorld).mpr
    · exact .inl (by decide)
    · intro s hs
      have hr : (ask jsonLibrary (lit "gemini") (lit "hi") (.ok []) ollamaWorld).1 = .refused := by
        decide
      rw [hr] at hs
      cases hs
  · have hstep : runCalls jsonLibrary [answeredCall] ollamaWorld =
        some (ask jsonLibrary (lit "ollama") answeredCall.cell answeredCall.response ollamaWorld).2 := by
      rw [runCalls, Call.run, xassist, hcmd]
      rfl
    have hkeep : AllKeep jsonLibrary [answeredCall] ollamaWorld := by
      refine ⟨?_, fun _ _ => trivial⟩
      intro model hm
      cases hcmd.symm.trans hm
      exact .inr (.inr ⟨by decide, hanswer⟩)
    exact ⟨_, hstep, hrun _ _ _ (by decide) hkeep hstep _ (by decide)⟩

/-- No model name is saved: the prompt fails and its turn stays in the history. -/
theorem prompt_without_model :
    ¬((∀ s, (ask jsonLibrary (lit "ollama") (lit "hi") (.ok []) World.fresh).1 ≠ .answer s) →
      (ask jsonLibrary (lit "ollama") (lit "hi") (.ok []) World.fresh).2.disk.content
          (historyPath (lit "ollama")) = World.fresh.disk.content (historyPath (lit "ollama"))) := by
  have hreply : (ask jsonLibrary (lit "ollama") (lit "hi") (.ok []) World.fresh).1 = .refused := by
    decide
  have hdisk : (ask jsonLibrary (lit "ollama") (lit "hi") (.ok []) World.fresh).2.disk.content
      (historyPath (lit "ollama")) =
        some (lit "\x7b \"role\": \"user\", \"content\": \"hi\"\x7d\n") := by
    decide
  intro h
  rw [hdisk] at h
  have h' := h fun s hs => by
    rw [hreply] at hs
    cases hs
  cases h'

end XeusCpp.Assist
