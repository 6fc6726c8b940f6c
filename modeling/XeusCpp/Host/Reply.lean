/-
# XeusCpp.Host.Reply — the reply to an execute request.

`kernel_res` is filled in by `operator[]` in the magics and the shell preamble, and by the two
functions of the protocol library elsewhere. Only the fields the kernel sets are kept.
-/
import XeusCpp.Text.Bytes

namespace XeusCpp.Host

open Text

inductive Status
  | ok
  | error
deriving DecidableEq

/-- The traceback of a reply; `null` where the code assigns `{}`. -/
inductive Traceback
  | absent
  | null
  | lines (xs : List Str)
deriving DecidableEq

/-- An entry of the payload: a page for the pager, as plain text and as HTML. -/
structure Page where
  plain : Str
  html : Str
deriving DecidableEq

structure KernelRes where
  status : Option Status
  ename : Option Str
  evalue : Option Str
  traceback : Traceback
  payload : List Page
deriving DecidableEq

namespace KernelRes

/-- `nl::json kernel_res;` -/
def new : KernelRes := ⟨none, none, none, .absent, []⟩

/-- The fields set where a preamble reports an error by hand. -/
def setError (res : KernelRes) (traceback : Traceback) : KernelRes :=
  { res with
    status := some .error
    ename := some (lit "ename")
    evalue := some (lit "evalue")
    traceback := traceback }

def setOk (res : KernelRes) : KernelRes := { res with status := some .ok }

end KernelRes

/-- `xeus::create_error_reply` -/
def createErrorReply (ename evalue : Str) (traceback : List Str) : KernelRes :=
  ⟨some .error, some ename, some evalue, .lines traceback, []⟩

/-- `xeus::create_successful_reply` -/
def createSuccessfulReply (payload : List Page) : KernelRes :=
  ⟨some .ok, none, none, .absent, payload⟩

end XeusCpp.Host
