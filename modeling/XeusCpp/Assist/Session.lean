/-
# XeusCpp.Assist.Session — the assistant over a whole session.

Between two calls the operator keeps everything in files: of each model a key, a name, an address and
the history. Read as one account a model these files are what the calls say, and nothing else: a
session of calls on the files is a session on accounts (`session_refines`), with a request for every
prompt that can be sent, in the order of the prompts.

The accounts do not touch: without the calls on other models the files of a model and its requests
are the same (`session_isolated`).
-/
import XeusCpp.Assist.Reset
import XeusCpp.Logic.Session

namespace XeusCpp.Assist

open Text Host Logic

/-! ## The request of a prompt -/

/-- The settings of a model. -/
structure Profile where
  key : Str
  name : Str
  address : Str

/-- A profile with another value of one setting. -/
def Profile.set (p : Profile) (k : Setting) (value : Str) : Profile where
  key := if k.suffix = apiKeyManager.suffix then value else p.key
  name := if k.suffix = modelManager.suffix then value else p.name
  address := if k.suffix = urlManager.suffix then value else p.address

def profileOf (model : Str) (d : Disk) : Profile :=
  ⟨apiKeyManager.value model d, modelManager.value model d, urlManager.value model d⟩

def requestUrl (model : Str) (p : Profile) : Str :=
  if model = lit "gemini" then
    lit "https://generativelanguage.googleapis.com/v1beta/models/" ++ p.name ++
      lit ":generateContent?key=" ++ p.key
  else if model = lit "openai" then lit "https://api.openai.com/v1/chat/completions"
  else p.address

def requestHeaders (model : Str) (p : Profile) : List Str :=
  lit "Content-Type: application/json" ::
    (if model = lit "openai" then [cStr (lit "Authorization: Bearer " ++ p.key)] else [])

/-- The request to a model with these settings, for these messages. -/
def request (model : Str) (p : Profile) (messages : Str) : Request :=
  ⟨cStr (requestUrl model p), requestHeaders model p, cStr (postData model p.name messages)⟩

theorem performRequest_sent (url data header : Str) (response : Except Str Str) (w : World) :
    (performRequest url data header response w).2.requests = w.requests ++
      [⟨cStr url, lit "Content-Type: application/json" ::
        (if header.isEmpty then [] else [cStr header]), cStr data⟩] := by
  cases response with
  | ok s => rfl
  | error e => rfl

/-- The requests that are sent for a prompt behind these messages. -/
def sentFor (model : Str) (messages : Str) (d : Disk) : List Request :=
  if Configured model d then [request model (profileOf model d) messages] else []

theorem sentFor_of_configured {model : Str} {d : Disk} (h : Configured model d) (messages : Str) :
    sentFor model messages d = [request model (profileOf model d) messages] := if_pos h

theorem sentFor_of_not {model : Str} {d : Disk} (h : ¬Configured model d) (messages : Str) :
    sentFor model messages d = [] := if_neg h

theorem authHeader_isEmpty (key : Str) : (lit "Authorization: Bearer " ++ key).isEmpty = false := rfl

section Library

variable {J : Type} (lib : JsonLibrary J)

theorem askNamed_requests {model : Str} (hne : model ≠ lit "ollama") (role : Str) (keys : List Key)
    {url : Str → Str} {data : Str → Str → Str} {header cell : Str} {w : World}
    (hrequest : ∀ messages, request model (profileOf model w.disk) messages =
      ⟨cStr (url (modelManager.value model w.disk)), lit "Content-Type: application/json" ::
        (if header.isEmpty then [] else [cStr header]),
        cStr (data (modelManager.value model w.disk) messages)⟩) (response : Except Str Str) :
    (askNamed lib model role keys url data header cell response w).2.requests =
      w.requests ++ sentFor model (chat model (lit "user") cell w).1 w.disk := by
  unfold askNamed
  dsimp only
  rw [load_behind_prompt (.inr (.inl rfl))]
  apply of_model_check (P := fun r : Reply × World => r.2.requests = _) (d := w.disk) hne
  · intro hc
    rw [sentFor_of_not hc, List.append_nil]
    simp [chat_requests]
  · intro hc
    rw [sentFor_of_configured hc, respond_requests, performRequest_sent, hrequest]
    simp [chat_requests]

theorem ollama_requests (cell : Str) (response : Except Str Str) (w : World) :
    (ollama lib cell response w).2.requests =
      w.requests ++ sentFor (lit "ollama") (chat (lit "ollama") (lit "user") cell w).1 w.disk := by
  unfold ollama
  dsimp only
  rw [load_behind_prompt (.inr (.inl rfl)), Setting.load_fst, Setting.load_disk,
    chat_fst_congr (lit "ollama") (lit "user") cell (Setting.load_disk urlManager (lit "ollama") w)]
  apply of_ollama_check (P := fun r : Reply × World => r.2.requests = _) (d := w.disk)
  · intro hc
    rw [sentFor_of_not hc, List.append_nil]
    simp [chat_requests]
  · intro hc
    have hne : lit "ollama" ≠ lit "gemini" := by decide
    have hne' : lit "ollama" ≠ lit "openai" := by decide
    rw [sentFor_of_configured hc, respond_requests, performRequest_sent]
    simp [chat_requests, request, requestUrl, requestHeaders, postData, profileOf, hne, hne']

theorem dispatch_requests {model : Str} (hmodel : model ∈ models) (prompt : Str)
    (response : Except Str Str) (w : World) :
    (dispatch lib model prompt (apiKeyManager.value model w.disk) response w).2.requests =
      w.requests ++ sentFor model (chat model (lit "user") prompt w).1 w.disk := by
  simp only [models, List.mem_cons, List.not_mem_nil, or_false] at hmodel
  have hgemini : lit "gemini" ≠ lit "openai" := by decide
  have hopenai : lit "openai" ≠ lit "gemini" := by decide
  unfold dispatch
  rcases hmodel with rfl | rfl | rfl
  · rw [if_pos rfl, gemini_eq]
    refine askNamed_requests lib (by decide) _ _ (fun messages => ?_) response
    simp [request, requestUrl, requestHeaders, postData, profileOf, hgemini]
  · rw [if_neg (by decide), if_pos rfl, openai_eq]
    refine askNamed_requests lib (by decide) _ _ (fun messages => ?_) response
    rw [authHeader_isEmpty]
    simp [request, requestUrl, requestHeaders, postData, profileOf, hopenai]
  · rw [if_neg (by decide), if_neg (by decide)]
    exact ollama_requests lib prompt response w

/-- A prompt is sent once when there is a key and the model is configured, with the settings that are
saved and the messages that are behind it in the history. -/
theorem ask_requests {model : Str} (hmodel : model ∈ models) (prompt : Str)
    (response : Except Str Str) (w : World) :
    (ask lib model prompt response w).2.requests = w.requests ++
      if HasKey model w.disk then sentFor model (messages model prompt w) w.disk else [] := by
  by_cases hm : model = lit "ollama"
  · subst hm
    have hdispatch := ollama_requests lib (escapeSpecialCases prompt) response w
    rw [if_pos (.inl rfl)]
    simp only [ask]
    rw [if_neg (by simp), report_requests, dispatch, if_neg (by decide), if_neg (by decide)]
    exact hdispatch
  by_cases hkey : apiKeyManager.value model w.disk = []
  · rw [if_neg (by simp [HasKey, hm, hkey]), List.append_nil]
    simp [ask, hm, Setting.load_fst, hkey]
  · -- looking for the key changes neither the files nor the requests
    have hdispatch := dispatch_requests lib hmodel (escapeSpecialCases prompt) response
      (apiKeyManager.load model w).2
    rw [Setting.load_disk, load_requests, chat_fst_congr _ _ _ (Setting.load_disk _ _ _)] at hdispatch
    rw [if_pos (.inr hkey)]
    simp only [ask, if_neg hm, Setting.load_fst]
    rw [if_neg (by simp [hkey]), report_requests]
    exact hdispatch

end Library

/-! ## Accounts -/

/-- What is kept for a model between two calls: its settings, and the conversation with it. -/
structure Account extends Profile where
  turns : List Turn

namespace Account

variable (model : Str) (a : Account)

def hasKey : Prop := model = lit "ollama" ∨ a.key ≠ []

def configured : Prop := a.name ≠ [] ∧ (model = lit "ollama" → a.address ≠ [])

instance : Decidable (a.hasKey model) := inferInstanceAs (Decidable (_ ∨ _))

instance : Decidable (a.configured model) := inferInstanceAs (Decidable (_ ∧ _))

/-- One more turn. -/
def say (role : Role) (text : Json) : Account := { a with turns := a.turns ++ [⟨role, text⟩] }

end Account

/-- A request for the last turn of an account. -/
structure Post where
  model : Str
  account : Account

section Sessions

variable {J : Type} (lib : JsonLibrary J) (denote : J → Json)

/-- A prompt: without a key nothing happens; with one the turn is kept, sent if the model is
configured, and followed by the answer's turn if there is a value at its place. -/
def Account.prompt (model prompt : Str) (response : Except Str Str) (a : Account) :
    Account × List Post :=
  if a.hasKey model then
    let asked := a.say .user (.str (decoded prompt))
    if asked.configured model then
      match answerValue lib (answerKeys model) (bodyOf response) with
      | some answer => (asked.say (modelRole model) (denote answer), [⟨model, asked⟩])
      | none => (asked, [⟨model, asked⟩])
    else (asked, [])
  else (a, [])

/-- One account for each model. -/
abbrev Accounts := Str → Account

/-- What a call means for the accounts. -/
def Accounts.serve : Service Accounts Call (List Post) := fun accounts c =>
  match command c.line with
  | .undefined => none
  | .unknown => some (accounts, [])
  | .saveKey m =>
      some (Function.update accounts m { accounts m with key := getline c.cell }, [])
  | .saveModel m =>
      some (Function.update accounts m { accounts m with name := getline c.cell }, [])
  | .setUrl m =>
      some (Function.update accounts m { accounts m with address := getline c.cell }, [])
  | .refresh m => some (Function.update accounts m { accounts m with turns := [] }, [])
  | .prompt m =>
      let r := (accounts m).prompt lib denote m c.cell c.response
      some (Function.update accounts m r.1, r.2)

/-- The call on the files, with the requests it sends. -/
def Call.serve : Service World Call (List Request) := fun w c =>
  (c.run lib w).map fun w' => (w', w'.requests.drop w.requests.length)

end Sessions

/-- A session in which every header has a second word is defined. -/
theorem session_defined {J : Type} (lib : JsonLibrary J) (w : World) {calls : List Call}
    (h : ∀ c ∈ calls, command c.line ≠ .undefined) :
    ∃ r, (Call.serve lib).session w calls = some r := by
  induction calls generalizing w with
  | nil => exact ⟨_, rfl⟩
  | cons c calls ih =>
      obtain ⟨hc, hrest⟩ := List.forall_mem_cons.mp h
      obtain ⟨w', hw'⟩ : ∃ w', c.run lib w = some w' := by
        unfold Call.run xassist
        split
        next hcmd => exact absurd hcmd hc
        all_goals exact ⟨_, rfl⟩
      obtain ⟨q, hq⟩ := ih w' hrest
      rw [Service.session_cons, Call.serve, hw', Option.map_some, Option.bind_some, hq]
      exact ⟨_, rfl⟩

/-! ## The files of an account -/

def managers : List Setting := [apiKeyManager, modelManager, urlManager]

/-- The files that are kept for a model. -/
def files (model : Str) : List Str := historyPath model :: managers.map (·.path model)

theorem files_disjoint {m n : Str} (hm : m ∈ models) (hn : n ∈ models) (h : m ≠ n) :
    ∀ p ∈ files m, p ∉ files n := by
  have hall : ∀ m ∈ models, ∀ n ∈ models, m ≠ n → ∀ p ∈ files m, p ∉ files n := by decide
  exact hall m hm n hn h

/-- The model a call is about. -/
def Command.model? : Command → Option Str
  | .undefined | .unknown => none
  | .saveKey m | .refresh m | .saveModel m | .setUrl m | .prompt m => some m

theorem command_model? {line m : Str} (h : (command line).model? = some m) : m ∈ models := by
  unfold command at h
  split at h
  next m' rest _ =>
    split at h
    next => cases h
    next hm =>
      have hm : m' ∈ models := not_not.mp hm
      split at h
      · cases h
        exact hm
      · split_ifs at h <;> cases h <;> exact hm
  next => cases h

section Frame

variable {m n p : Str} {d d' : Disk} {w : World}

theorem historyPath_mem (m : Str) : historyPath m ∈ files m := List.mem_cons_self

theorem path_mem {k : Setting} (hk : k ∈ managers) (m : Str) : k.path m ∈ files m :=
  List.mem_cons_of_mem _ (List.mem_map_of_mem hk)

/-- A setting is not touched by what happens to other files. -/
theorem value_of_sameBut {k : Setting} (h : Disk.SameBut p d d') (hp : k.path m ≠ p) :
    k.value m d' = k.value m d := by
  rw [Setting.value, h.read hp, Setting.value]

theorem profileOf_frame (h : Disk.SameBut p d d') (hp : ∀ k ∈ managers, k.path m ≠ p) :
    profileOf m d' = profileOf m d := by
  rw [profileOf, value_of_sameBut h (hp _ (by simp [managers])),
    value_of_sameBut h (hp _ (by simp [managers])), value_of_sameBut h (hp _ (by simp [managers]))]
  rfl

/-- A history is no setting. -/
theorem profileOf_history (h : Disk.SameBut (historyPath n) d d') :
    profileOf m d' = profileOf m d := by
  apply profileOf_frame h
  intro k hk
  apply path_ne_historyPath
  simpa [managers, IsManager] using hk

/-- What is saved is read back, up to the end of the line. -/
theorem value_save {k : Setting} (h : w.disk.Opens (k.path m)) (value : Str) :
    k.value m (k.save m value w).disk = getline value := by
  unfold Setting.save
  rw [Disk.write_of_writable h.2]
  show Setting.value k m (w.disk.put (k.path m) value) = _
  rw [Setting.value, Disk.read, Disk.put_readable, if_pos h.1, Disk.put_content_self]

end Frame

/-! ## The accounts on the disk -/

/-- The files of `m` open, and what is in them is the account. -/
structure Represents (d : Disk) (m : Str) (a : Account) : Prop where
  opens : ∀ p ∈ files m, d.Opens p
  profile : profileOf m d = a.toProfile
  turns : HasTurns d m a.turns

/-- The files of the models are the accounts. -/
def Kept (w : World) (accounts : Accounts) : Prop :=
  ∀ m ∈ models, Represents w.disk m (accounts m)

/-- The request is the one for the last turn of the account: to the model, with its settings, and with
the turns as its messages. -/
def Carries (r : Request) (p : Post) : Prop :=
  ∃ messages, r = request p.model p.account.toProfile messages ∧
    Json.parse (Json.beginArray :: messages ++ [Json.endArray]) =
      some (.arr (p.account.turns.map (Turn.json p.model)))

section Represents

variable {m n p : Str} {d d' : Disk} {a : Account} {w w' : World} {accounts : Accounts}

theorem opens_of_sameBut (h : Disk.SameBut p d d') (q : Str) : d'.Opens q ↔ d.Opens q := by
  rw [Disk.Opens, h.readable, h.writable, Disk.Opens]

theorem Represents.frame (h : Represents d n a) (hd : Disk.SameBut p d d') (hp : p ∉ files n) :
    Represents d' n a where
  opens q hq := (opens_of_sameBut hd q).mpr (h.opens q hq)
  profile := by
    rw [profileOf_frame hd]
    · exact h.profile
    · rintro k hk rfl
      exact hp (path_mem hk n)
  turns := by
    apply h.turns.frame hd
    rintro rfl
    exact hp (historyPath_mem n)

/-- A call that changes one file of `m` changes the account of `m`. -/
theorem Kept.update (h : Kept w accounts) (hm : m ∈ models) (hp : p ∈ files m)
    (hd : Disk.SameBut p w.disk w'.disk) (ha : Represents w'.disk m a) :
    Kept w' (Function.update accounts m a) := by
  intro n hn
  by_cases hnm : n = m
  · subst hnm
    rw [Function.update_self]
    exact ha
  · rw [Function.update_of_ne hnm]
    exact (h n hn).frame hd (files_disjoint hm hn (Ne.symm hnm) p hp)

/-- The other settings of a model stay when one is saved. -/
theorem value_save_of_ne {k k' : Setting} (hne : k'.suffix ≠ k.suffix) (value : Str) :
    k'.value m (k.save m value w).disk = k'.value m w.disk :=
  value_of_sameBut (k.save_frame m value w) fun h => hne (List.append_cancel_left h)

theorem profileOf_save {k : Setting} (h : Represents w.disk m a) (hk : k ∈ managers) (value : Str) :
    profileOf m (k.save m value w).disk = a.toProfile.set k (getline value) := by
  have hself := value_save (h.opens _ (path_mem hk m)) value
  rw [← h.profile, profileOf]
  simp only [managers, List.mem_cons, List.not_mem_nil, or_false] at hk
  rcases hk with rfl | rfl | rfl
  all_goals
    rw [hself, value_save_of_ne (by decide), value_save_of_ne (by decide)]
    rfl

/-- A setting is saved. -/
theorem Represents.save {k : Setting} (h : Represents w.disk m a) (hk : k ∈ managers) (value : Str) :
    Represents (k.save m value w).disk m ⟨a.toProfile.set k (getline value), a.turns⟩ where
  opens q hq := (opens_of_sameBut (k.save_frame m value w) q).mpr (h.opens q hq)
  profile := profileOf_save h hk value
  turns := by
    apply h.turns.frame (k.save_frame m value w)
    exact (path_ne_historyPath (by simpa [managers, IsManager] using hk) m m).symm

theorem Represents.refresh (h : Represents w.disk m a) :
    Represents (refresh m w).disk m { a with turns := [] } where
  opens q hq := (opens_of_sameBut (refresh_frame m w) q).mpr (h.opens q hq)
  profile := (profileOf_history (refresh_frame m w)).trans h.profile
  turns := hasTurns_refresh (h.opens _ (historyPath_mem m)).2

/-- A turn is written behind the others. -/
theorem Represents.say (h : Represents d m a) (role : Role) {cell : Str} {text : Json}
    (hcell : Json.parse cell = some text) :
    Represents (addTurn m role.text cell d) m (a.say role text) where
  opens q hq := (opens_of_sameBut (addTurn_frame m role.text cell d) q).mpr (h.opens q hq)
  profile := (profileOf_history (addTurn_frame m role.text cell d)).trans h.profile
  turns := h.turns.addTurn (h.opens _ (historyPath_mem m)).2 ⟨role, cell, text, hcell⟩

theorem Represents.hasKey (h : Represents d m a) : HasKey m d ↔ a.hasKey m := by
  have hkey : apiKeyManager.value m d = a.key := congrArg Profile.key h.profile
  rw [HasKey, hkey, Account.hasKey]

theorem Represents.configured (h : Represents d m a) : Configured m d ↔ a.configured m := by
  have hname : modelManager.value m d = a.name := congrArg Profile.name h.profile
  have haddress : urlManager.value m d = a.address := congrArg Profile.address h.profile
  rw [Configured, hname, haddress, Account.configured]

end Represents

/-! ## One call -/

section Step

variable {J : Type} {lib : JsonLibrary J} {denote : J → Json} {m : Str} {a : Account} {w : World}

/-- The messages of a prompt are the turns up to it. -/
theorem carries_ask (h : Represents w.disk m a) (prompt : Str) :
    Carries (request m (profileOf m w.disk) (messages m prompt w))
      ⟨m, a.say .user (.str (decoded prompt))⟩ := by
  refine ⟨_, ?_, parse_messages h.turns (h.opens _ (historyPath_mem m)) prompt⟩
  rw [h.profile]
  rfl

/-- A prompt does to the files and sends what it does to the account and posts. -/
theorem represents_ask (hdump : ∀ j, Json.parse (lib.dump j) = some (denote j)) (hm : m ∈ models)
    (h : Represents w.disk m a) (prompt : Str) (response : Except Str Str) :
    let r := a.prompt lib denote m prompt response
    let w' := (ask lib m prompt response w).2
    Represents w'.disk m r.1 ∧
      List.Forall₂ Carries (w'.requests.drop w.requests.length) r.2 := by
  intro r w'
  have hsent : w'.requests.drop w.requests.length =
      if HasKey m w.disk then sentFor m (messages m prompt w) w.disk else [] := by
    rw [show w'.requests = _ from ask_requests lib hm prompt response w]
    exact List.drop_left
  rw [hsent]
  by_cases hkey : HasKey m w.disk
  case neg =>
    have hr : r = (a, []) := if_neg (mt h.hasKey.mpr hkey)
    have hw : w'.disk = w.disk := (ask_of_no_key lib prompt response hkey).1
    rw [hr, hw, if_neg hkey]
    exact ⟨h, .nil⟩
  -- with a key the user's turn is in the file
  have hasked := h.say .user (parse_prompt prompt)
  have hdisk := (ask_settles lib hm prompt response hkey).disk
  have hconfigured : (a.say .user (.str (decoded prompt))).configured m ↔ Configured m w.disk :=
    h.configured.symm
  rw [show w'.disk = _ from hdisk, if_pos hkey]
  by_cases hc : Configured m w.disk
  case neg =>
    have hr : r = (a.say .user (.str (decoded prompt)), []) := by
      show a.prompt lib denote m prompt response = _
      rw [Account.prompt, if_pos (h.hasKey.mp hkey)]
      exact if_neg (mt hconfigured.mp hc)
    rw [hr, if_neg hc, sentFor_of_not hc]
    exact ⟨hasked, .nil⟩
  have hcarries := carries_ask h prompt
  rw [if_pos hc, sentFor_of_configured hc]
  -- and the answer's turn behind it, when there is one
  cases hanswer : answerValue lib (answerKeys m) (bodyOf response) with
  | none =>
      have hr : r = (a.say .user (.str (decoded prompt)),
          [⟨m, a.say .user (.str (decoded prompt))⟩]) := by
        show a.prompt lib denote m prompt response = _
        rw [Account.prompt, if_pos (h.hasKey.mp hkey)]
        simp only [if_pos (hconfigured.mpr hc), hanswer]
      rw [hr]
      exact ⟨hasked, .cons hcarries .nil⟩
  | some answer =>
      have hr : r = ((a.say .user (.str (decoded prompt))).say (modelRole m) (denote answer),
          [⟨m, a.say .user (.str (decoded prompt))⟩]) := by
        show a.prompt lib denote m prompt response = _
        rw [Account.prompt, if_pos (h.hasKey.mp hkey)]
        simp only [if_pos (hconfigured.mpr hc), hanswer]
      rw [hr]
      exact ⟨hasked.say (modelRole m) (hdump answer), .cons hcarries .nil⟩

theorem drop_requests_of_eq {w w' : World} (h : w'.requests = w.requests) :
    w'.requests.drop w.requests.length = [] := by
  rw [h, List.drop_length]

@[simp] theorem save_requests (k : Setting) (m value : Str) (w : World) :
    (k.save m value w).requests = w.requests := by
  unfold Setting.save
  split <;> rfl

@[simp] theorem refresh_requests (m : Str) (w : World) : (refresh m w).requests = w.requests := by
  unfold refresh
  split <;> rfl

/-- A call that sends nothing and gives `m` the account `a`. -/
theorem matches_of_quiet {w w' : World} {accounts : Accounts}
    (hkept : Kept w' (Function.update accounts m a)) (hsent : w'.requests = w.requests) :
    Matches Kept (List.Forall₂ Carries) (w', w'.requests.drop w.requests.length)
      (Function.update accounts m a, []) := by
  refine ⟨hkept, ?_⟩
  rw [drop_requests_of_eq hsent]
  exact .nil

/-- A setting is saved, on the files and in the account. -/
theorem matches_save {accounts : Accounts} {k : Setting} (h : Kept w accounts) (hm : m ∈ models)
    (hk : k ∈ managers) (cell : Str) : Matches Kept (List.Forall₂ Carries)
      (k.save m cell w, (k.save m cell w).requests.drop w.requests.length)
      (Function.update accounts m
        ⟨(accounts m).toProfile.set k (getline cell), (accounts m).turns⟩, []) :=
  matches_of_quiet (h.update hm (path_mem hk m) (Setting.save_frame _ _ _ _) ((h m hm).save hk cell))
    (save_requests _ _ _ _)

/-- One call on the files is the call on the accounts. -/
theorem call_refines (hdump : ∀ j, Json.parse (lib.dump j) = some (denote j)) :
    Refines (Call.serve lib) (Accounts.serve lib denote) Kept (List.Forall₂ Carries) := by
  intro w accounts h c
  have hmem : ∀ {m}, (command c.line).model? = some m → m ∈ models := command_model?
  unfold Call.serve Call.run xassist Accounts.serve
  cases hcmd : command c.line with
  | undefined => exact .none
  | unknown =>
      refine .some ⟨h, ?_⟩
      show List.Forall₂ Carries (w.requests.drop w.requests.length) []
      rw [List.drop_length]
      exact .nil
  | saveKey m => exact .some (matches_save h (hmem (by rw [hcmd]; rfl)) (by simp [managers]) _)
  | saveModel m => exact .some (matches_save h (hmem (by rw [hcmd]; rfl)) (by simp [managers]) _)
  | setUrl m => exact .some (matches_save h (hmem (by rw [hcmd]; rfl)) (by simp [managers]) _)
  | refresh m =>
      have hm : m ∈ models := hmem (by rw [hcmd]; rfl)
      exact .some (matches_of_quiet (h.update hm (historyPath_mem m) (refresh_frame m w)
        (h m hm).refresh) (refresh_requests m w))
  | prompt m =>
      have hm : m ∈ models := hmem (by rw [hcmd]; rfl)
      obtain ⟨ha, hsent⟩ := represents_ask hdump hm (h m hm) c.cell c.response
      exact .some ⟨h.update hm (historyPath_mem m) (ask_frame hm c.cell) ha, hsent⟩

/-- **A session of calls on the files is a session on accounts**: one is defined where the other is,
and then the files are the accounts again and the requests are, one for one and in their order, those
of the prompts that can be sent, each with the settings and the turns of its account at that time. -/
theorem session_refines (hdump : ∀ j, Json.parse (lib.dump j) = some (denote j)) {accounts : Accounts}
    (h : Kept w accounts) (calls : List Call) :
    Option.Rel (Matches Kept (LogsMatch (List.Forall₂ Carries))) ((Call.serve lib).session w calls)
      ((Accounts.serve lib denote).session accounts calls) :=
  Refines.session (call_refines hdump) h calls

end Step

/-- The account of a model before anything was kept for it. -/
def Account.new : Account := ⟨⟨[], [], []⟩, []⟩

theorem kept_fresh : Kept .fresh (fun _ => .new) := by
  intro m _
  exact ⟨fun _ _ => ⟨rfl, rfl⟩, rfl, hasTurns_nil rfl⟩

/-- A name and an address are saved, a prompt is answered, and a prompt for another model has no
key. -/
def firstSession : List Call :=
  [⟨lit "xassist ollama --save-model", lit "llama3\n", .ok []⟩,
    ⟨lit "xassist ollama --set-url", lit "http://localhost", .ok []⟩,
    ⟨lit "xassist ollama", lit "hi",
      .ok (lit "\x7b\"message\": \x7b\"content\": \"hello\"\x7d\x7d")⟩,
    ⟨lit "xassist openai", lit "hi", .ok []⟩]

theorem session_refines_first :
    Option.Rel (Matches Kept (LogsMatch (List.Forall₂ Carries)))
      ((Call.serve jsonLibrary).session .fresh firstSession)
      ((Accounts.serve jsonLibrary id).session (fun _ => .new) firstSession) :=
  @session_refines Json jsonLibrary id .fresh Json.parse_dump _ kept_fresh firstSession

/-! ## Accounts do not touch -/

/-- The same for the files of `m`. -/
structure AgreeOn (m : Str) (d d' : Disk) : Prop where
  content : ∀ p ∈ files m, d.content p = d'.content p
  readable : ∀ p ∈ files m, d.readable p = d'.readable p
  writable : ∀ p ∈ files m, d.writable p = d'.writable p

theorem agreeOn_equivalence (m : Str) :
    Equivalence fun w w' : World => AgreeOn m w.disk w'.disk where
  refl _ := ⟨fun _ _ => rfl, fun _ _ => rfl, fun _ _ => rfl⟩
  symm h := ⟨fun p hp => (h.content p hp).symm, fun p hp => (h.readable p hp).symm,
    fun p hp => (h.writable p hp).symm⟩
  trans h h' := ⟨fun p hp => (h.content p hp).trans (h'.content p hp),
    fun p hp => (h.readable p hp).trans (h'.readable p hp),
    fun p hp => (h.writable p hp).trans (h'.writable p hp)⟩

theorem agreeOn_of_sameBut {m p : Str} {d d' : Disk} (h : Disk.SameBut p d d') (hp : p ∉ files m) :
    AgreeOn m d d' where
  content q hq := (h.content fun he => hp (he ▸ hq)).symm
  readable q _ := by rw [h.readable]
  writable q _ := by rw [h.writable]

section Agree

variable {m p : Str} {d d' : Disk} {w v : World}

namespace AgreeOn

theorem bytes (h : AgreeOn m d d') (hp : p ∈ files m) : d.bytes p = d'.bytes p := by
  rw [Disk.bytes, h.content p hp, Disk.bytes]

theorem opens (h : AgreeOn m d d') (hp : p ∈ files m) : d.Opens p ↔ d'.Opens p := by
  rw [Disk.Opens, h.readable p hp, h.writable p hp, Disk.Opens]

theorem value (h : AgreeOn m d d') {k : Setting} (hk : k ∈ managers) :
    k.value m d = k.value m d' := by
  have hp := path_mem hk m
  rw [Setting.value, Setting.value, Disk.read, Disk.read, h.readable _ hp, h.content _ hp]

theorem profileOf (h : AgreeOn m d d') : profileOf m d = profileOf m d' := by
  rw [Assist.profileOf, h.value (by simp [managers]), h.value (by simp [managers]),
    h.value (by simp [managers])]
  rfl

theorem put (h : AgreeOn m d d') (path s : Str) : AgreeOn m (d.put path s) (d'.put path s) where
  content q hq := by
    by_cases hqp : q = path
    · subst hqp
      rw [Disk.put_content_self, Disk.put_content_self]
    · rw [Disk.put_content_of_ne hqp, Disk.put_content_of_ne hqp, h.content q hq]
  readable := h.readable
  writable := h.writable

theorem write (h : AgreeOn m d d') (hp : p ∈ files m) (s : Str) :
    AgreeOn m ((d.write p s).getD d) ((d'.write p s).getD d') := by
  unfold Disk.write
  rw [h.writable p hp]
  split
  · exact h.put p s
  · exact h

theorem addTurn (h : AgreeOn m d d') (user cell : Str) :
    AgreeOn m (addTurn m user cell d) (addTurn m user cell d') := by
  have hp := historyPath_mem m
  cases hw : d.writable (historyPath m) with
  | false =>
      rw [addTurn_of_not_writable hw, addTurn_of_not_writable ((h.writable _ hp).symm.trans hw)]
      exact h
  | true =>
      rw [addTurn_of_writable hw, addTurn_of_writable ((h.writable _ hp).symm.trans hw), h.bytes hp,
        separatorOf, h.readable _ hp, ← separatorOf]
      exact h.put _ _

theorem hasKey (h : AgreeOn m d d') : HasKey m d ↔ HasKey m d' := by
  rw [HasKey, h.value (by simp [managers]), HasKey]

theorem configured (h : AgreeOn m d d') : Configured m d ↔ Configured m d' := by
  rw [Configured, h.value (by simp [managers]), h.value (by simp [managers]), Configured]

theorem messages (h : AgreeOn m w.disk v.disk) (prompt : Str) :
    messages m prompt w = messages m prompt v := by
  have hp := historyPath_mem m
  by_cases hopen : w.disk.Opens (historyPath m)
  · rw [messages_of_opens hopen, messages_of_opens ((h.opens hp).mp hopen)]
    exact (h.addTurn _ _).bytes hp
  · rw [messages_of_not_opens hopen, messages_of_not_opens (mt (h.opens hp).mpr hopen)]

end AgreeOn

theorem save_disk (k : Setting) (m value : Str) (w : World) :
    (k.save m value w).disk = (w.disk.write (k.path m) value).getD w.disk := by
  unfold Setting.save
  split
  next d h => rw [h]; rfl
  next h => rw [h]; rfl

theorem refresh_disk (m : Str) (w : World) :
    (refresh m w).disk = (w.disk.write (historyPath m) []).getD w.disk := by
  unfold refresh
  split
  next h => rw [h]; rfl
  next d h => rw [h]; rfl

variable {J : Type} {lib : JsonLibrary J}

/-- The requests a prompt sends are decided by the files of its model. -/
theorem AgreeOn.sent (h : AgreeOn m w.disk v.disk) (hm : m ∈ models) (prompt : Str)
    (response : Except Str Str) :
    (ask lib m prompt response w).2.requests.drop w.requests.length =
      (ask lib m prompt response v).2.requests.drop v.requests.length := by
  rw [ask_requests lib hm, ask_requests lib hm, List.drop_left, List.drop_left, h.messages prompt]
  simp only [sentFor, h.hasKey, h.configured, h.profileOf]

theorem AgreeOn.addAnswer (h : AgreeOn m d d') (role : Str) (value : Option J) :
    AgreeOn m (addAnswer lib m role value d) (addAnswer lib m role value d') := by
  cases value with
  | none => exact h
  | some j => exact h.addTurn _ _

theorem AgreeOn.ask (h : AgreeOn m w.disk v.disk) (hm : m ∈ models) (prompt : Str)
    (response : Except Str Str) :
    AgreeOn m (ask lib m prompt response w).2.disk (ask lib m prompt response v).2.disk := by
  by_cases hkey : HasKey m w.disk
  case neg =>
    rw [(ask_of_no_key lib prompt response hkey).1,
      (ask_of_no_key lib prompt response (mt h.hasKey.mpr hkey)).1]
    exact h
  have hasked : AgreeOn m (addPrompt m (escapeSpecialCases prompt) w.disk)
      (addPrompt m (escapeSpecialCases prompt) v.disk) := h.addTurn _ _
  rw [(ask_settles lib hm prompt response hkey).disk,
    (ask_settles lib hm prompt response (h.hasKey.mp hkey)).disk]
  by_cases hc : Configured m w.disk
  · rw [if_pos hc, if_pos (h.configured.mp hc)]
    exact hasked.addAnswer _ _
  · rw [if_neg hc, if_neg (mt h.configured.mpr hc)]
    exact hasked

variable (m) in
/-- The call is about `m`. -/
def isAbout (c : Call) : Bool := (command c.line).model? == some m

/-- A call changes at most one file, and that of its own model. -/
theorem call_frame {c : Call} {w' : World} (h : c.run lib w = some w') :
    w'.disk = w.disk ∨ ∃ n p, (command c.line).model? = some n ∧ p ∈ files n ∧
      Disk.SameBut p w.disk w'.disk := by
  unfold Call.run xassist at h
  cases hcmd : command c.line <;> rw [hcmd] at h <;> cases h
  case unknown => exact .inl rfl
  case saveKey n =>
    exact .inr ⟨n, _, rfl, path_mem (by simp [managers]) n, Setting.save_frame _ _ _ _⟩
  case saveModel n =>
    exact .inr ⟨n, _, rfl, path_mem (by simp [managers]) n, Setting.save_frame _ _ _ _⟩
  case setUrl n =>
    exact .inr ⟨n, _, rfl, path_mem (by simp [managers]) n, Setting.save_frame _ _ _ _⟩
  case refresh n => exact .inr ⟨n, _, rfl, historyPath_mem n, refresh_frame n w⟩
  case prompt n =>
    have hmodel : (command c.line).model? = some n := by
      rw [hcmd]
      rfl
    have hn : n ∈ models := command_model? hmodel
    exact .inr ⟨n, _, rfl, historyPath_mem n, ask_frame hn c.cell⟩

/-- A call about `m` does the same where the files of `m` are the same. -/
theorem call_own {c : Call} (hc : (command c.line).model? = some m)
    (h : AgreeOn m w.disk v.disk) :
    Option.Rel (Matches (fun w v => AgreeOn m w.disk v.disk) Eq) (Call.serve lib w c)
      (Call.serve lib v c) := by
  have hm : m ∈ models := command_model? hc
  have hquiet : ∀ {w' v' : World}, AgreeOn m w'.disk v'.disk → w'.requests = w.requests →
      v'.requests = v.requests → Matches (fun w v => AgreeOn m w.disk v.disk) Eq
        (w', w'.requests.drop w.requests.length) (v', v'.requests.drop v.requests.length) := by
    intro w' v' hdisk hw hv
    refine ⟨hdisk, ?_⟩
    rw [drop_requests_of_eq hw, drop_requests_of_eq hv]
  have hsave : ∀ {k : Setting}, k ∈ managers →
      AgreeOn m (k.save m c.cell w).disk (k.save m c.cell v).disk := by
    intro k hk
    rw [save_disk, save_disk]
    exact h.write (path_mem hk m) c.cell
  unfold Call.serve Call.run xassist
  cases hcmd : command c.line <;> rw [hcmd] at hc <;> cases hc
  case saveKey =>
    exact .some (hquiet (hsave (by simp [managers])) (save_requests _ _ _ _) (save_requests _ _ _ _))
  case saveModel =>
    exact .some (hquiet (hsave (by simp [managers])) (save_requests _ _ _ _) (save_requests _ _ _ _))
  case setUrl =>
    exact .some (hquiet (hsave (by simp [managers])) (save_requests _ _ _ _) (save_requests _ _ _ _))
  case refresh =>
    refine .some (hquiet ?_ (refresh_requests m w) (refresh_requests m v))
    rw [refresh_disk, refresh_disk]
    exact h.write (historyPath_mem m) []
  case prompt =>
    exact .some ⟨h.ask hm c.cell c.response, h.sent hm c.cell c.response⟩

theorem confined_account (hm : m ∈ models) :
    Confined (Call.serve lib) (isAbout m) (fun w v => AgreeOn m w.disk v.disk) where
  equivalence := agreeOn_equivalence m
  other := by
    intro w c w' sent hc hserve
    obtain ⟨w₁, hrun, heq⟩ := Option.map_eq_some_iff.mp hserve
    cases heq
    rcases call_frame hrun with hsame | ⟨n, p, hn, hp, hframe⟩
    · rw [hsame]
      exact (agreeOn_equivalence m).refl w
    · have hne : n ≠ m := by
        rintro rfl
        simp [isAbout, hn] at hc
      exact agreeOn_of_sameBut hframe (files_disjoint (command_model? hn) hm hne p hp)
  own := by
    intro w v c hc h
    exact call_own (by simpa [isAbout] using hc) h

/-- **Accounts are isolated**: leaving the calls on other models out of a session changes neither the
files of a model nor the requests that its own calls send. -/
theorem session_isolated (lib : JsonLibrary J) (hm : m ∈ models) {calls : List Call} {w w' v : World}
    {log : List (Call × List Request)} (hagree : AgreeOn m w.disk v.disk)
    (hsession : (Call.serve lib).session w calls = some (w', log)) :
    ∃ v', (Call.serve lib).session v (calls.filter (isAbout m)) =
        some (v', log.filter fun x => isAbout m x.1) ∧ AgreeOn m w'.disk v'.disk :=
  (confined_account hm).session hagree hsession

end Agree

/-- A key for one model and a refresh of another. -/
def twoAccounts : List Call :=
  [⟨lit "xassist gemini --save-key", lit "k", .ok []⟩, ⟨lit "xassist ollama --refresh", lit "x", .ok []⟩]

theorem session_isolated_two : ∃ w' log v',
    (Call.serve jsonLibrary).session .fresh twoAccounts = some (w', log) ∧
      (Call.serve jsonLibrary).session .fresh (twoAccounts.filter (isAbout (lit "ollama"))) =
        some (v', log.filter fun x => isAbout (lit "ollama") x.1) ∧
      AgreeOn (lit "ollama") w'.disk v'.disk := by
  obtain ⟨r, hr⟩ := session_defined jsonLibrary World.fresh (by decide : ∀ c ∈ twoAccounts, _)
  obtain ⟨v', hv', hagree⟩ := session_isolated jsonLibrary (m := lit "ollama") (by decide)
    ((agreeOn_equivalence (lit "ollama")).refl World.fresh) hr
  exact ⟨_, _, v', hr, hv', hagree⟩

end XeusCpp.Assist
