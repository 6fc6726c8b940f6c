/-
# XeusCpp.Interpreter.Input — `xinput_buffer` under every sequence of reads.

The get area of the buffer lies in a string of its own. When a reader finds the area used up, the
callback overwrites that string with a line from the frontend, a line feed is appended, and the area
is laid over the whole of it. The callback may throw instead, and then nothing has changed.

**`input_line_by_line`**: a reader gets the lines of the frontend one after the other, and the next
one is asked for when all before it were read.
-/
import XeusCpp.Interpreter.Buffer

namespace XeusCpp.Interpreter

open Text Logic

/-! ## The buffer -/

/-- `xinput_buffer`: the string, and the three positions of the get area in it. -/
structure InputBuffer where
  value : Str
  eback : Nat
  gptr : Nat
  egptr : Nat
deriving DecidableEq

/-- A read ends with an exception of the callback, or it returns. -/
inductive Got
  | threw
  | value (c : Int)
deriving DecidableEq

namespace InputBuffer

variable (b : InputBuffer)

/-- `xinput_buffer(callback)` -/
def new : InputBuffer := ⟨[], 0, 0, 0⟩

/-- `std::streambuf::setg` -/
def setg (eback gptr egptr : Nat) : InputBuffer :=
  { b with eback := eback, gptr := gptr, egptr := egptr }

/-- `*gptr()`; `none` behind the end of the string. -/
def deref : Option Byte := b.value[b.gptr]?

/-- `xinput_buffer::underflow`, by what the callback assigns, `none` when it throws before. -/
def underflow : Option Str → Option (Got × InputBuffer)
  | none => some (.threw, b)
  | some reply => do
      let value := reply ++ lit "\n"
      let b := { b with value := value }.setg 0 0 value.length
      let c ← b.deref
      return (.value (toIntType c), b)

end InputBuffer

/-! ## Reading -/

/-- The buffer, the characters a reader has got from it, and the calls of the callback: what had been
read at the time, and what was assigned. A bulk read has got what it stored before it threw. -/
structure Input where
  buffer : InputBuffer
  obtained : Str
  asked : List (Str × Option Str)
deriving DecidableEq

/-- The functions of `std::streambuf` that read from the get area. -/
inductive Read
  /-- `sgetc` -/
  | peek
  /-- `sbumpc` -/
  | get
  /-- `sgetn` -/
  | bulk (n : Nat)

/-- How many characters a read takes. -/
def Read.size : Read → Nat
  | .peek => 0
  | .get => 1
  | .bulk n => n

/-- The read looks at a character. -/
def Read.Looks : Read → Prop
  | .bulk n => 0 < n
  | _ => True

namespace Input

def new : Input := ⟨.new, [], []⟩

variable (ask : Nat → Option Str) (s : Input)

def underflow : Option (Got × Input) := do
  let reply := ask s.asked.length
  let (got, b) ← s.buffer.underflow reply
  return (got, { s with buffer := b, asked := s.asked ++ [(s.obtained, reply)] })

/-- The reader has got `c`, and `gptr()` has moved on. -/
def taken (c : Byte) : Input where
  buffer := { s.buffer with gptr := s.buffer.gptr + 1 }
  obtained := s.obtained ++ [c]
  asked := s.asked

/-- `*gptr++` goes to the reader. -/
def take : Option (Byte × Input) := s.buffer.deref.map fun c => (c, s.taken c)

/-- `std::streambuf::uflow` -/
def uflow : Option (Got × Input) := do
  let (got, s) ← s.underflow ask
  match got with
  | .threw => return (.threw, s)
  | .value c =>
      if c = eof then return (.value eof, s)
      let (c, s) ← s.take
      return (.value (toIntType c), s)

def sgetc : Option (Got × Input) :=
  if s.buffer.gptr < s.buffer.egptr then
    s.buffer.deref.map fun c => (.value (toIntType c), s)
  else s.underflow ask

def sbumpc : Option (Got × Input) :=
  if s.buffer.gptr < s.buffer.egptr then s.take.map fun r => (.value (toIntType r.1), r.2)
  else s.uflow ask

/-- `std::streambuf::xsgetn`, which calls `sbumpc` until it has `n` characters more than `got`. -/
def sgetn : Nat → Nat → Input → Option (Got × Input)
  | 0, got, s => some (.value got, s)
  | n + 1, got, s => do
      let (r, s) ← s.sbumpc ask
      match r with
      | .threw => return (.threw, s)
      | .value c => if c = eof then return (.value got, s) else sgetn n (got + 1) s

/-- A read; `none` where it leaves the string. -/
def perform : Read → Option (Got × Input)
  | .peek => s.sgetc ask
  | .get => s.sbumpc ask
  | .bulk n => sgetn ask n 0 s

/-- A sequence of reads, whatever they end with. -/
def performAll (reads : List Read) : Option Input :=
  reads.foldlM (fun s read => (s.perform ask read).map Prod.snd) s

end Input

/-! ## Lines -/

/-- What the answers of the callback amount to. -/
def lines (asked : List (Str × Option Str)) : Str :=
  asked.flatMap fun entry => (entry.2.map (· ++ lit "\n")).getD []

theorem lines_concat (asked : List (Str × Option Str)) (t : Str) (reply : Option Str) :
    lines (asked ++ [(t, reply)]) = lines asked ++ (reply.map (· ++ lit "\n")).getD [] := by
  rw [lines, List.flatMap_append, List.flatMap_singleton]
  rfl

namespace Input

variable {ask : Nat → Option Str} {s s' : Input}

/-- The invariant: the area reaches to the end of the string, what a reader has got and what is left
of the area are the lines so far, and each line was asked for when the ones before it were read. -/
structure Faithful (ask : Nat → Option Str) (s : Input) : Prop where
  within : s.buffer.gptr ≤ s.buffer.egptr
  whole : s.buffer.egptr = s.buffer.value.length
  text : s.obtained ++ s.buffer.value.drop s.buffer.gptr = lines s.asked
  answers : s.asked.map Prod.snd = (List.range s.asked.length).map ask
  inTurn : Logged (fun pre entry => entry.1 = lines pre) s.asked
  failed : ∀ t, s.asked.getLast? = some (t, none) → s.obtained = t ∧ s.buffer.gptr = s.buffer.egptr

theorem faithful_new : Faithful ask new :=
  ⟨Nat.le_refl 0, rfl, rfl, rfl, logged_nil, nofun⟩

/-- An area that is used up. -/
theorem Faithful.obtained_eq (h : s.Faithful ask) (hend : s.buffer.gptr = s.buffer.egptr) :
    s.obtained = lines s.asked := by
  have htext := h.text
  rwa [hend, h.whole, List.drop_length, List.append_nil] at htext

theorem Faithful.end_of_obtained (h : s.Faithful ask) (hlines : s.obtained = lines s.asked) :
    ¬ s.buffer.gptr < s.buffer.egptr := by
  have htext := h.text
  rw [← hlines, List.append_right_eq_self, List.drop_eq_nil_iff, ← h.whole] at htext
  omega

/-- The log with one more call. -/
theorem Faithful.answers_concat (h : s.Faithful ask) :
    (s.asked ++ [(s.obtained, ask s.asked.length)]).map Prod.snd =
      (List.range (s.asked ++ [(s.obtained, ask s.asked.length)]).length).map ask := by
  rw [List.map_append, h.answers, List.length_append, List.length_singleton, List.range_succ,
    List.map_append]
  rfl

/-- What the call that throws leaves. -/
def refused (s : Input) : Input := { s with asked := s.asked ++ [(s.obtained, none)] }

/-- A call of the callback that throws delivers nothing. -/
theorem Faithful.underflow_none (h : s.Faithful ask) (hend : s.buffer.gptr = s.buffer.egptr)
    (hask : ask s.asked.length = none) :
    s.underflow ask = some (.threw, s.refused) ∧ s.refused.Faithful ask := by
  have hlines := h.obtained_eq hend
  refine ⟨?_, h.within, h.whole, ?_, ?_, ?_, ?_⟩
  · rw [underflow, hask]
    rfl
  · show _ = lines (s.asked ++ _)
    rw [lines_concat, ← h.text]
    exact (List.append_nil _).symm
  · have := h.answers_concat
    rwa [hask] at this
  · exact logged_concat.mpr ⟨h.inTurn, hlines⟩
  · intro t ht
    rw [refused, List.getLast?_concat] at ht
    cases ht
    exact ⟨rfl, hend⟩

/-- What the call that assigns a line leaves. -/
def answered (s : Input) (v : Str) : Input where
  buffer := ⟨v ++ lit "\n", 0, 0, (v ++ lit "\n").length⟩
  obtained := s.obtained
  asked := s.asked ++ [(s.obtained, some v)]

theorem exists_head (v : Str) : ∃ c rest, v ++ lit "\n" = c :: rest := by
  cases v with
  | nil => exact ⟨_, _, rfl⟩
  | cons c v => exact ⟨c, v ++ lit "\n", rfl⟩

theorem Faithful.underflow_some (h : s.Faithful ask) (hend : s.buffer.gptr = s.buffer.egptr)
    {v : Str} (hask : ask s.asked.length = some v) :
    (∃ c, (s.answered v).buffer.deref = some c ∧
      s.underflow ask = some (.value (toIntType c), s.answered v)) ∧
      (s.answered v).Faithful ask ∧
        (s.answered v).buffer.gptr < (s.answered v).buffer.egptr := by
  have hlines := h.obtained_eq hend
  obtain ⟨c, rest, hv⟩ := exists_head v
  have hderef : (s.answered v).buffer.deref = some c := by
    show (v ++ lit "\n")[0]? = some c
    rw [hv]
    rfl
  refine ⟨⟨c, hderef, ?_⟩, ⟨Nat.zero_le _, rfl, ?_, ?_, ?_, ?_⟩, ?_⟩
  · have hunder : s.buffer.underflow (some v) = some (.value (toIntType c), (s.answered v).buffer) := by
      show (do let c ← (s.answered v).buffer.deref; pure (Got.value (toIntType c), _)) = _
      rw [hderef]
      rfl
    rw [underflow, hask, hunder]
    rfl
  · show s.obtained ++ (v ++ lit "\n") = lines (s.asked ++ _)
    rw [lines_concat, ← hlines]
    rfl
  · have := h.answers_concat
    rwa [hask] at this
  · exact logged_concat.mpr ⟨h.inTurn, hlines⟩
  · intro t ht
    rw [answered, List.getLast?_concat] at ht
    cases ht
  · show 0 < (v ++ lit "\n").length
    rw [hv]
    exact Nat.succ_pos _

/-- A character taken from the area. -/
theorem Faithful.take (h : s.Faithful ask) (hlt : s.buffer.gptr < s.buffer.egptr) :
    ∃ c, s.buffer.deref = some c ∧ s.take = some (c, s.taken c) ∧ (s.taken c).Faithful ask := by
  have hbound : s.buffer.gptr < s.buffer.value.length := h.whole ▸ hlt
  have hderef : s.buffer.deref = some s.buffer.value[s.buffer.gptr] := List.getElem?_eq_getElem hbound
  refine ⟨_, hderef, by rw [Input.take, hderef]; rfl, hlt, h.whole, ?_, h.answers, h.inTurn, ?_⟩
  · show (s.obtained ++ [_]) ++ s.buffer.value.drop (s.buffer.gptr + 1) = lines s.asked
    rw [List.append_assoc, List.singleton_append, ← List.drop_eq_getElem_cons hbound]
    exact h.text
  · intro t ht
    have := (h.failed t ht).2
    omega

/-- The character at `gptr()` is the next one of the lines. -/
theorem Faithful.prefix_of_deref (h : s.Faithful ask) {c : Byte} (hc : s.buffer.deref = some c) :
    s.obtained ++ [c] <+: lines s.asked := by
  obtain ⟨hbound, hget⟩ := List.getElem?_eq_some_iff.mp hc
  rw [← h.text, List.drop_eq_getElem_cons hbound, hget]
  exact ⟨_, List.append_assoc _ _ _⟩

/-- The next character of the lines is at `gptr()`, in front of the end of the area. -/
theorem Faithful.deref_of_prefix (h : s.Faithful ask) {c : Byte}
    (hc : s.obtained ++ [c] <+: lines s.asked) :
    s.buffer.gptr < s.buffer.egptr ∧ s.buffer.deref = some c := by
  rw [← h.text, List.prefix_append_right_inj] at hc
  obtain ⟨rest, hrest⟩ := hc
  have hget : s.buffer.value[s.buffer.gptr]? = some c := by
    rw [← List.head?_drop, ← hrest]
    rfl
  exact ⟨h.whole ▸ (List.getElem?_eq_some_iff.mp hget).1, hget⟩

/-! ## The reads -/

/-- What a read that ended with `got` has done; a read of a used-up area begins with a question. -/
structure Served (ask : Nat → Option Str) (s : Input) (size : Nat) (got : Got) (s' : Input) :
    Prop where
  faithful : s'.Faithful ask
  logged : s.asked <+: s'.asked
  size : ∀ c, got = .value c → s'.obtained.length = s.obtained.length + size
  asks : s.buffer.gptr = s.buffer.egptr →
    s.asked ++ [(s.obtained, ask s.asked.length)] <+: s'.asked ∧
      (ask s.asked.length = none → got = .threw ∧ s' = s.refused)

theorem Faithful.eq_or_lt (h : s.Faithful ask) :
    s.buffer.gptr = s.buffer.egptr ∨ s.buffer.gptr < s.buffer.egptr :=
  Nat.eq_or_lt_of_le h.within

/-- A question that is refused ends every read. -/
theorem Served.of_refused (h : s.refused.Faithful ask) (hask : ask s.asked.length = none)
    (size : Nat) : Served ask s size .threw s.refused := by
  refine ⟨h, List.prefix_append _ _, nofun, fun _ => ⟨?_, fun _ => ⟨rfl, rfl⟩⟩⟩
  rw [hask]
  exact List.prefix_refl _

/-- What follows an answer is read from the new area. -/
theorem Served.of_answered {v : Str} (hask : ask s.asked.length = some v) {size : Nat} {got : Got}
    (hs' : s'.Faithful ask) (hlog : (s.answered v).asked <+: s'.asked)
    (hsize : ∀ c, got = .value c → s'.obtained.length = s.obtained.length + size) :
    Served ask s size got s' := by
  refine ⟨hs', (List.prefix_append _ _).trans hlog, hsize, fun _ => ⟨?_, ?_⟩⟩
  · rw [hask]
    exact hlog
  · intro hnone
    rw [hask] at hnone
    cases hnone

/-- A read from an area that is not used up asks nothing. -/
theorem Served.of_lt (hlt : s.buffer.gptr < s.buffer.egptr) {size : Nat} {got : Got}
    (hs' : s'.Faithful ask) (hlog : s.asked <+: s'.asked)
    (hsize : ∀ c, got = .value c → s'.obtained.length = s.obtained.length + size) :
    Served ask s size got s' :=
  ⟨hs', hlog, hsize, fun hend => absurd hlt (by omega)⟩

theorem length_taken (s : Input) (c : Byte) : (s.taken c).obtained.length = s.obtained.length + 1 :=
  List.length_append

theorem Faithful.sgetc (h : s.Faithful ask) :
    ∃ got s', s.sgetc ask = some (got, s') ∧ Served ask s 0 got s' ∧
      ∀ c, got = .value c → ∃ b, c = toIntType b ∧ s'.obtained ++ [b] <+: lines s'.asked := by
  rcases h.eq_or_lt with hend | hlt
  · rw [Input.sgetc, if_neg (by omega)]
    cases hask : ask s.asked.length with
    | none =>
        obtain ⟨hunder, hs'⟩ := h.underflow_none hend hask
        exact ⟨_, _, hunder, .of_refused hs' hask 0, nofun⟩
    | some v =>
        obtain ⟨⟨c, hderef, hunder⟩, hs', -⟩ := h.underflow_some hend hask
        refine ⟨_, _, hunder, .of_answered hask hs' (List.prefix_refl _) fun _ _ => rfl, ?_⟩
        intro c' hc'
        cases hc'
        exact ⟨c, rfl, hs'.prefix_of_deref hderef⟩
  · obtain ⟨c, hderef, -, -⟩ := h.take hlt
    rw [Input.sgetc, if_pos hlt, hderef]
    refine ⟨_, _, rfl, .of_lt hlt h (List.prefix_refl _) fun _ _ => rfl, ?_⟩
    intro c' hc'
    cases hc'
    exact ⟨c, rfl, h.prefix_of_deref hderef⟩

theorem Faithful.sbumpc (h : s.Faithful ask) :
    ∃ got s', s.sbumpc ask = some (got, s') ∧ Served ask s 1 got s' ∧ got ≠ .value eof := by
  rcases h.eq_or_lt with hend | hlt
  · rw [Input.sbumpc, if_neg (by omega), Input.uflow]
    cases hask : ask s.asked.length with
    | none =>
        obtain ⟨hunder, hs'⟩ := h.underflow_none hend hask
        rw [hunder]
        exact ⟨_, _, rfl, .of_refused hs' hask 1, nofun⟩
    | some v =>
        obtain ⟨⟨c, -, hunder⟩, hs', hlt⟩ := h.underflow_some hend hask
        obtain ⟨c', -, htake, hs''⟩ := hs'.take hlt
        -- no character is `eof()`, so `uflow` goes on to take it
        have heof : toIntType c ≠ eof := toIntType_ne_eof c
        refine ⟨.value (toIntType c'), (s.answered v).taken c', ?_, ?_, ?_⟩
        · rw [hunder]
          simp only [Option.bind_eq_bind, Option.bind_some, if_neg heof, htake, Option.pure_def]
        · exact .of_answered hask hs'' (List.prefix_refl _) fun _ _ => length_taken _ c'
        · simpa using toIntType_ne_eof c'
  · obtain ⟨c, -, htake, hs'⟩ := h.take hlt
    rw [Input.sbumpc, if_pos hlt, htake]
    refine ⟨_, _, rfl, .of_lt hlt hs' (List.prefix_refl _) fun _ _ => length_taken s c, ?_⟩
    simpa using toIntType_ne_eof c

/-- A bulk read, by the number of characters still to be read. -/
theorem Faithful.sgetn (h : s.Faithful ask) (n start : Nat) :
    ∃ got s', sgetn ask n start s = some (got, s') ∧ s'.Faithful ask ∧ s.asked <+: s'.asked ∧
      (∀ c, got = .value c → s'.obtained.length = s.obtained.length + n) ∧
        (0 < n → Served ask s n got s') := by
  induction n generalizing s start with
  | zero =>
      exact ⟨_, _, rfl, h, List.prefix_refl _, fun _ _ => rfl, fun h => absurd h (by omega)⟩
  | succ n ih =>
      obtain ⟨got, s₁, hfirst, hserved, heof⟩ := h.sbumpc
      rw [Input.sgetn, hfirst]
      cases got with
      | threw =>
          refine ⟨.threw, s₁, rfl, hserved.faithful, hserved.logged, nofun, fun _ => ?_⟩
          exact ⟨hserved.faithful, hserved.logged, nofun, hserved.asks⟩
      | value c =>
          have hc : c ≠ eof := fun he => heof (he ▸ rfl)
          obtain ⟨got, s₂, hrest, hs₂, hlog, hsize, -⟩ := ih hserved.faithful (start + 1)
          have hlog₂ := hserved.logged.trans hlog
          have hsize₂ : ∀ c, got = .value c → s₂.obtained.length = s.obtained.length + (n + 1) := by
            intro d hd
            rw [hsize d hd, hserved.size c rfl]
            omega
          refine ⟨got, s₂, ?_, hs₂, hlog₂, hsize₂, fun _ => ⟨hs₂, hlog₂, hsize₂, fun hend => ?_⟩⟩
          · simp only [Option.bind_eq_bind, Option.bind_some, if_neg hc, hrest]
          · obtain ⟨hasked, hnone⟩ := hserved.asks hend
            refine ⟨hasked.trans hlog, fun hask => ?_⟩
            cases (hnone hask).1

/-- **The step lemma.** -/
theorem Faithful.perform (h : s.Faithful ask) (read : Read) :
    ∃ got s', s.perform ask read = some (got, s') ∧ s'.Faithful ask ∧
      (∀ c, got = .value c → s'.obtained.length = s.obtained.length + read.size) ∧
        (read.Looks → Served ask s read.size got s') := by
  cases read with
  | peek =>
      obtain ⟨got, s', hread, hserved, -⟩ := h.sgetc
      exact ⟨got, s', hread, hserved.faithful, hserved.size, fun _ => hserved⟩
  | get =>
      obtain ⟨got, s', hread, hserved, -⟩ := h.sbumpc
      exact ⟨got, s', hread, hserved.faithful, hserved.size, fun _ => hserved⟩
  | bulk n =>
      obtain ⟨got, s', hread, hs', -, hsize, hserved⟩ := h.sgetn n 0
      exact ⟨got, s', hread, hs', hsize, hserved⟩

/-- What holds of the input after any sequence of reads. -/
structure LineByLine (ask : Nat → Option Str) (s : Input) : Prop where
  /-- The callback is given the replies in their order. -/
  answers : s.asked.map Prod.snd = (List.range s.asked.length).map ask
  text : s.obtained <+: lines s.asked
  inTurn : Logged (fun pre entry => entry.1 = lines pre) s.asked
  /-- A call that throws delivers nothing, and leaves nothing to read. -/
  failed : ∀ t, s.asked.getLast? = some (t, none) → s.obtained = t ∧ s.obtained = lines s.asked
  /-- When all lines are read, the next read asks. -/
  asks : s.obtained = lines s.asked → ∀ read : Read, read.Looks →
    ∃ got s', s.perform ask read = some (got, s') ∧
      s.asked ++ [(s.obtained, ask s.asked.length)] <+: s'.asked ∧
        (ask s.asked.length = none → got = .threw ∧ s' = s.refused)
  /-- What is left of the lines is read without asking: the next character is there, and is taken. -/
  progress : ∀ c : Byte, s.obtained ++ [c] <+: lines s.asked →
    s.perform ask .peek = some (.value (toIntType c), s) ∧
      s.perform ask .get = some (.value (toIntType c), s.taken c)
  /-- A read that returns has got what it was to get. -/
  size : ∀ read c s', s.perform ask read = some (.value c, s') →
    s'.obtained.length = s.obtained.length + read.size
  /-- A peek shows the next character. -/
  peek : ∀ c s', s.perform ask .peek = some (.value c, s') →
    ∃ b, c = toIntType b ∧ s'.obtained ++ [b] <+: lines s'.asked

theorem Faithful.lineByLine (h : s.Faithful ask) : s.LineByLine ask where
  answers := h.answers
  text := ⟨_, h.text⟩
  inTurn := h.inTurn
  failed t ht := ⟨(h.failed t ht).1, h.obtained_eq (h.failed t ht).2⟩
  asks hlines read hread := by
    obtain ⟨got, s', hperform, -, -, hserved⟩ := h.perform read
    have hend : s.buffer.gptr = s.buffer.egptr := h.eq_or_lt.resolve_right (h.end_of_obtained hlines)
    exact ⟨got, s', hperform, (hserved hread).asks hend⟩
  progress c hc := by
    obtain ⟨hlt, hderef⟩ := h.deref_of_prefix hc
    constructor
    · show s.sgetc ask = _
      rw [Input.sgetc, if_pos hlt, hderef]
      rfl
    · show s.sbumpc ask = _
      rw [Input.sbumpc, if_pos hlt, Input.take, hderef]
      rfl
  size read c s' hread := by
    obtain ⟨got, s'', hperform, -, hsize, -⟩ := h.perform read
    cases hread.symm.trans hperform
    exact hsize c rfl
  peek c s' hread := by
    obtain ⟨got, s'', hpeek, -, hnext⟩ := h.sgetc
    cases hread.symm.trans hpeek
    exact hnext c rfl

end Input

/-- The invariant along a sequence of reads. -/
theorem faithful_performAll (ask : Nat → Option Str) (reads : List Read) :
    ∃ s, Input.performAll ask .new reads = some s ∧ s.Faithful ask := by
  have hstep (s : Input) (read : Read) (hs : s.Faithful ask) :
      ∃ t, (s.perform ask read).map Prod.snd = some t ∧ t.Faithful ask := by
    obtain ⟨got, s', hperform, hs', -⟩ := hs.perform read
    exact ⟨s', by rw [hperform]; rfl, hs'⟩
  exact foldlM_history (I := fun (s : Input) (_ : List Read) => s.Faithful ask)
    (fun {s _} read hs => hstep s read hs) (h := []) Input.faithful_new reads

example : (Input.performAll (fun k => if k = 1 then none else some (lit "ab")) .new
    [.peek, .bulk 5, .get]).map (·.obtained) = some (lit "ab\na") := by decide

/-! ## `input_redirection` -/

/-- The callback of a request: it asks the frontend, or it is `notimplemented`. -/
def inputCallback (allowStdin : Bool) (frontend : Nat → Option Str) : Nat → Option Str :=
  if allowStdin then frontend else fun _ => none

/-- Without `allow_stdin` nothing is ever read. -/
theorem nothing_read_without_stdin (frontend : Nat → Option Str) (reads : List Read) :
    ∃ s, Input.performAll (inputCallback false frontend) .new reads = some s ∧ s.obtained = [] := by
  obtain ⟨s, hrun, hs⟩ := faithful_performAll (inputCallback false frontend) reads
  refine ⟨s, hrun, ?_⟩
  have hlines : lines s.asked = [] := by
    rw [lines, List.flatMap_eq_nil_iff]
    intro entry hentry
    have hmem := List.mem_map_of_mem (f := Prod.snd) hentry
    rw [hs.answers] at hmem
    obtain ⟨k, -, hk⟩ := List.mem_map.mp hmem
    rw [← hk]
    rfl
  exact (List.append_eq_nil_iff.mp (hs.text.trans hlines)).1

end XeusCpp.Interpreter
