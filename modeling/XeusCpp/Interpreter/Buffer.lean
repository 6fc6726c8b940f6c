/-
# XeusCpp.Interpreter.Buffer — `xoutput_buffer` under every sequence of calls.

A stream hands its buffer single characters and strings, in a pattern the buffer does not control,
and flushes it now and then. Each of the three functions holds the mutex of the buffer from its first
line to its last, so threads that write to one buffer take turns.

**`output_in_order`**: what the callback was given, and what the buffer still holds, is what was
written, in the order of the turns.
-/
import XeusCpp.Interpreter.Streams
import XeusCpp.Logic.History

namespace XeusCpp.Interpreter

open Text Logic

/-! ## `std::char_traits<char>` -/

/-- `eof()` -/
def eof : Int := -1

/-- `to_char_type` -/
def toCharType (c : Int) : Byte := UInt8.ofInt c

/-- `to_int_type`: the unsigned value of a character, so none of them is `eof()`. -/
def toIntType (c : Byte) : Int := c.toNat

theorem toIntType_ne_eof (c : Byte) : toIntType c ≠ eof := by
  unfold toIntType eof
  omega

/-! ## The calls -/

/-- `xoutput_buffer::overflow`, with the value it returns. -/
def OutputBuffer.overflow (b : OutputBuffer) (c : Int) : Int × OutputBuffer :=
  (c, if c ≠ eof then ⟨b.output ++ [toCharType c]⟩ else b)

/-- A call of one of the virtual functions; `xsputn` gets the `count` characters that `s` points
to. -/
inductive BufferCall
  | overflow (c : Int)
  | xsputn (s : Str)
  | sync

/-- The characters a call writes. -/
def BufferCall.written : BufferCall → Str
  | .overflow c => if c = eof then [] else [toCharType c]
  | .xsputn s => s
  | .sync => []

/-- The buffer, with the strings its callback was given. -/
structure Output where
  buffer : OutputBuffer
  handed : List Str

namespace Output

/-- `xoutput_buffer(callback)` -/
def new : Output := ⟨⟨[]⟩, []⟩

/-- A call, under the lock. -/
def perform (o : Output) : BufferCall → Output
  | .overflow c => { o with buffer := (o.buffer.overflow c).2 }
  | .xsputn s => { o with buffer := o.buffer.xsputn s }
  | .sync => ⟨o.buffer.sync.2, o.handed ++ o.buffer.sync.1.toList⟩

/-- Nothing written is lost, repeated or moved: it was handed on, in strings that are not empty, or is
still there, which right behind a flush it is not. -/
structure Accounts (o : Output) (calls : List BufferCall) : Prop where
  text : o.handed.flatten ++ o.buffer.output = calls.flatMap BufferCall.written
  handed : ∀ s ∈ o.handed, s ≠ []
  synced : calls.getLast? = some .sync → o.buffer.output = []

theorem accounts_new : new.Accounts [] := ⟨rfl, nofun, nofun⟩

/-- A call that only adds to the buffer. -/
theorem Accounts.add {o : Output} {calls : List BufferCall} (h : o.Accounts calls) {b : OutputBuffer}
    {call : BufferCall} (hcall : call ≠ .sync) (hb : b.output = o.buffer.output ++ call.written) :
    Accounts { o with buffer := b } (calls ++ [call]) := by
  refine ⟨?_, h.handed, ?_⟩
  · rw [hb, ← List.append_assoc, h.text, List.flatMap_append, List.flatMap_singleton]
  · rw [List.getLast?_concat]
    exact fun hsync => absurd (Option.some.inj hsync) hcall

/-- A flush. -/
theorem Accounts.sync {o : Output} {calls : List BufferCall} (h : o.Accounts calls) :
    (o.perform .sync).Accounts (calls ++ [.sync]) := by
  have hflat : o.buffer.sync.1.toList.flatten = o.buffer.output := by
    rw [← sync_text]
    cases o.buffer.sync.1 with
    | none => rfl
    | some s => exact List.append_nil s
  refine ⟨?_, ?_, fun _ => sync_output o.buffer⟩
  · show (o.handed ++ _).flatten ++ o.buffer.sync.2.output = _
    rw [sync_output, List.append_nil, List.flatten_append, hflat, h.text, List.flatMap_append]
    exact (List.append_nil _).symm
  · intro s hs
    rcases List.mem_append.mp hs with hs | hs
    · exact h.handed s hs
    · -- an empty buffer is not handed on
      unfold OutputBuffer.sync at hs
      split at hs
      next => exact absurd hs (List.not_mem_nil)
      next hne =>
        rw [List.mem_singleton.mp hs]
        simpa using hne

/-- **The step lemma.** -/
theorem Accounts.perform {o : Output} {calls : List BufferCall} (call : BufferCall)
    (h : o.Accounts calls) : (o.perform call).Accounts (calls ++ [call]) := by
  cases call with
  | overflow c =>
      refine h.add (by simp) ?_
      unfold OutputBuffer.overflow BufferCall.written
      by_cases hc : c = eof
      · simp [hc]
      · simp [hc]
  | xsputn s => exact h.add (by simp) rfl
  | sync => exact h.sync

/-- The invariant along a sequence of calls. -/
theorem accounts_foldl (calls : List BufferCall) : (calls.foldl Output.perform new).Accounts calls :=
  foldl_history (fun call h => Accounts.perform call h) accounts_new calls

end Output

/-- **Output keeps its order**: for every sequence of calls, and for threads that take turns, in any
order, each with a sequence of its own. -/
theorem output_in_order :
    (∀ calls : List BufferCall, (calls.foldl Output.perform .new).Accounts calls) ∧
      ∀ (ι : Type) [DecidableEq ι] (program : ι → List BufferCall) (t : Threads ι BufferCall Output),
        Threads.Reaches Output.perform (.start program .new) t →
          t.shared.Accounts (t.done.map Prod.snd) ∧
            ∀ i, program i = t.doneBy i ++ t.pending i := by
  refine ⟨Output.accounts_foldl, fun ι _ program t h => ?_⟩
  obtain ⟨hshared, hprogram⟩ := Threads.of_reaches h
  refine ⟨?_, hprogram⟩
  rw [hshared]
  exact Output.accounts_foldl _

/-- Two threads, one putting a character between the other's string and its flush. -/
def twoWriters : Bool → List BufferCall
  | true => [.xsputn (lit "Hello"), .sync]
  | false => [.overflow (toIntType 255)]

theorem output_in_order_twoWriters : ∃ t : Threads Bool BufferCall Output,
    Threads.Reaches Output.perform (.start twoWriters .new) t ∧
      t.shared.Accounts [.xsputn (lit "Hello"), .overflow (toIntType 255), .sync] := by
  have h := @Threads.reaches_turns Bool BufferCall Output _ Output.perform (.start twoWriters .new)
    [true, false, true]
  exact ⟨_, h, (output_in_order.2 Bool twoWriters _ h).1⟩

end XeusCpp.Interpreter
