/-
# XeusCpp.Assist.Prompt — the `%%xassist` magic.

The header names a model and, maybe, an option; without one the cell is a prompt, sent to the
model together with the conversation so far. The JSON library is a parameter, and the outcome of a
request is an input of the call that makes it.
-/
import XeusCpp.Assist.History
import XeusCpp.Host.JsonLibrary

namespace XeusCpp.Assist

open Text Host

/-! ## Settings kept in files -/

/-- A value of each model that is kept in a file of its own: the end of the file's name, and what
the messages call the value. -/
structure Setting where
  suffix : Str
  saved : Str
  what : Str

def Setting.path (k : Setting) (model : Str) : Str := model ++ k.suffix

def Setting.save (k : Setting) (model value : Str) (w : World) : World :=
  match w.disk.write (k.path model) value with
  | some d => { w with disk := d }.cout (k.saved ++ lit " saved for model " ++ model ++ lit "\n")
  | none =>
      w.cerr (lit "Failed to open file for writing " ++ k.what ++ lit " for model " ++ model ++
        lit "\n")

/-- The first line. -/
def getline (s : Str) : Str := s.takeWhile (· != '\n')

def Setting.load (k : Setting) (model : Str) (w : World) : Str × World :=
  match w.disk.read (k.path model) with
  | some s => (getline s, w)
  | none =>
      ([], w.cerr (lit "Failed to open file for reading " ++ k.what ++ lit " for model " ++ model ++
        lit "\n"))

def apiKeyManager : Setting := ⟨lit "_api_key.txt", lit "API key", lit "API key"⟩

def modelManager : Setting := ⟨lit "_model.txt", lit "Model", lit "model"⟩

def urlManager : Setting := ⟨lit "_url.txt", lit "URL", lit "URL"⟩

/-! ## Requests -/

/-- `curl_helper::perform_request`, with the response or the text of `curl_easy_strerror`. -/
def performRequest (url postData authHeader : Str) (response : Except Str Str) (w : World) :
    Str × World :=
  let w := w.send ⟨cStr url, lit "Content-Type: application/json" ::
    (if authHeader.isEmpty then [] else [cStr authHeader]), cStr postData⟩
  match response with
  | .ok s => (s, w)
  | .error e => ([], w.cerr (lit "CURL request failed: " ++ e ++ lit "\n"))

/-- How a function that asks a model ends: with the model's answer, with a message and an empty
string, or by an exception. -/
inductive Reply
  | answer (s : Str)
  | refused
  | thrown
deriving DecidableEq

section Library

variable {J : Type} (lib : JsonLibrary J)

/-- What the three functions do with the response. -/
def respond (model user : Str) (answer : List Key) (response : Str) (w : World) : Reply × World :=
  match lib.parse response with
  | none => (.thrown, w)
  | some j =>
      match lib.find j (lit "error") with
      | some _ =>
          let w := w.cerr (lit "Error: ")
          match lib.path j [.name (lit "error"), .name (lit "message")] with
          | none => (.thrown, w)
          | some message => (.refused, w.cerr (lib.dump message ++ lit "\n"))
      | none =>
          match lib.path j answer with
          | none => (.thrown, w)
          | some text =>
              let (_, w) := chatJson lib.dump model user text w
              match lib.toStr text with
              | none => (.thrown, w)
              | some s => (.answer s, w)

/-- `j["candidates"][0]["content"]["parts"][0]["text"]`. -/
def geminiAnswer : List Key :=
  [.name (lit "candidates"), .index 0, .name (lit "content"), .name (lit "parts"), .index 0,
    .name (lit "text")]

def gemini (cell key : Str) (response : Except Str Str) (w : World) : Reply × World :=
  let (chatMessage, w) := chat (lit "gemini") (lit "user") cell w
  let (model, w) := modelManager.load (lit "gemini") w
  if model.isEmpty then (.refused, w.cerr (lit "Model not found.\n"))
  else
    let url := lit "https://generativelanguage.googleapis.com/v1beta/models/" ++ model ++
      lit ":generateContent?key=" ++ key
    let postData := lit "\x7b\"contents\": [ " ++ chatMessage ++ lit "]\x7d"
    let (response, w) := performRequest url postData [] response w
    respond lib (lit "gemini") (lit "model") geminiAnswer response w

/-- `j["message"]["content"]`. -/
def ollamaAnswer : List Key := [.name (lit "message"), .name (lit "content")]

def ollama (cell : Str) (response : Except Str Str) (w : World) : Reply × World :=
  let (url, w) := urlManager.load (lit "ollama") w
  let (chatMessage, w) := chat (lit "ollama") (lit "user") cell w
  let (model, w) := modelManager.load (lit "ollama") w
  if model.isEmpty then (.refused, w.cerr (lit "Model not found.\n"))
  else if url.isEmpty then (.refused, w.cerr (lit "URL not found.\n"))
  else
    let postData := lit "\x7b\n                    \"model\": \"" ++ model ++
      lit "\",\n                    \"messages\": [" ++ chatMessage ++
      lit "],\n                    \"stream\": false\n                \x7d"
    let (response, w) := performRequest url postData [] response w
    respond lib (lit "ollama") (lit "assistant") ollamaAnswer response w

/-- `j["choices"][0]["message"]["content"]`. -/
def openaiAnswer : List Key :=
  [.name (lit "choices"), .index 0, .name (lit "message"), .name (lit "content")]

def openai (cell key : Str) (response : Except Str Str) (w : World) : Reply × World :=
  let url := lit "https://api.openai.com/v1/chat/completions"
  let (chatMessage, w) := chat (lit "openai") (lit "user") cell w
  let (model, w) := modelManager.load (lit "openai") w
  if model.isEmpty then (.refused, w.cerr (lit "Model not found.\n"))
  else
    let postData := lit "\x7b\n                    \"model\": \"" ++ model ++
      lit "\",\n                    \"messages\": [" ++ chatMessage ++
      lit "],\n                    \"temperature\": 0.7\n                \x7d"
    let authHeader := lit "Authorization: Bearer " ++ key
    let (response, w) := performRequest url postData authHeader response w
    respond lib (lit "openai") (lit "assistant") openaiAnswer response w

/-! ## `xassist::operator()` -/

def models : List Str := [lit "gemini", lit "openai", lit "ollama"]

/-- What the header asks for; `undefined` is a header without a second word, whose access is
undefined behaviour. -/
inductive Command
  | undefined
  | unknown
  | saveKey (model : Str)
  | refresh (model : Str)
  | saveModel (model : Str)
  | setUrl (model : Str)
  | prompt (model : Str)
deriving DecidableEq

def command (line : Str) : Command :=
  match tokens line with
  | _ :: model :: rest =>
      if model ∉ models then .unknown
      else match rest with
        | [] => .prompt model
        | option :: _ =>
            if option = lit "--save-key" then .saveKey model
            else if option = lit "--refresh" then .refresh model
            else if option = lit "--save-model" then .saveModel model
            else if option = lit "--set-url" ∧ model = lit "ollama" then .setUrl model
            else .prompt model
  | _ => .undefined

def dispatch (model prompt key : Str) (response : Except Str Str) (w : World) : Reply × World :=
  if model = lit "gemini" then gemini lib prompt key response w
  else if model = lit "openai" then openai lib prompt key response w
  else ollama lib prompt response w

/-- Prints the answer, or catches the exception: every exception of the JSON library is a
`std::exception` that is no `std::runtime_error`. -/
def report : Reply × World → Reply × World
  | (.answer s, w) => (.answer s, w.cout s)
  | (.refused, w) => (.refused, w.cout [])
  | (.thrown, w) => (.thrown, w.cerr (lit "Caught an unknown exception\n"))

/-- The part of the operator that sends a prompt, with what became of it. -/
def ask (model cell : Str) (response : Except Str Str) (w : World) : Reply × World :=
  let (key, w) := if model = lit "ollama" then ([], w) else apiKeyManager.load model w
  if model ≠ lit "ollama" ∧ key.isEmpty then
    (.refused, w.cerr (lit "API key for model " ++ model ++ lit " is not available.\n"))
  else report (dispatch lib model (escapeSpecialCases cell) key response w)

/-- `xassist::operator()`; `none` is undefined behaviour. -/
def xassist (line cell : Str) (response : Except Str Str) (w : World) : Option World :=
  match command line with
  | .undefined => none
  | .unknown => some (w.cerr (lit "Model not found.\n"))
  | .saveKey model => some (apiKeyManager.save model cell w)
  | .refresh model => some (refresh model w)
  | .saveModel model => some (modelManager.save model cell w)
  | .setUrl model => some (urlManager.save model cell w)
  | .prompt model => some (ask lib model cell response w).2

end Library

end XeusCpp.Assist
