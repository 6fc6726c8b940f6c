/-
# XeusCpp.Host.World — the files, the standard streams and the network a magic works on.

A `Disk` maps a path to the content of the regular file there, if any, and says which paths open
for reading and for writing. A `std::ifstream` opens when the file exists and may be read, a
`std::ofstream` when the path may be written; it creates the file, and truncates it unless it was
opened with `std::ios::app`. A `World` adds what was written to `std::cout` and `std::cerr` and the
HTTP requests that were sent.

A path is one string. It is taken to be the canonical name of its file: no `./a` beside `a`, no link to
another path, and no NUL, behind which the operating system would not read on.
-/
import XeusCpp.Text.Bytes

namespace XeusCpp.Host

open Text

/-- The files, by their canonical paths. -/
structure Disk where
  /-- What the regular file at a path holds, if there is one. -/
  content : Str → Option Str
  readable : Str → Bool
  writable : Str → Bool

namespace Disk

variable (d : Disk) (path : Str)

/-- What a `std::ifstream` reads; `none` when it does not open. -/
def read : Option Str := if d.readable path then d.content path else none

/-- The disk with `s` in the file. -/
def put (s : Str) : Disk :=
  { d with content := fun p => if p = path then some s else d.content p }

/-- `std::ofstream out(path); out << s;`. -/
def write (s : Str) : Option Disk := if d.writable path then some (d.put path s) else none

/-- `std::ofstream out(path, std::ios::app); out << s;`. -/
def append (s : Str) : Option Disk :=
  if d.writable path then some (d.put path ((d.content path).getD [] ++ s)) else none

/-- The file opens in both directions. -/
def Opens : Prop := d.readable path = true ∧ d.writable path = true

/-- The bytes of the file, none where there is no file. -/
def bytes : Str := (d.content path).getD []

@[simp] theorem put_readable (s : Str) : (d.put path s).readable = d.readable := rfl

/-- What was put is there. -/
@[simp] theorem put_content_self (s : Str) : (d.put path s).content path = some s := if_pos rfl

@[simp] theorem put_bytes_self (s : Str) : (d.put path s).bytes path = s := by simp [bytes]

variable {d path}

/-- Other files stay as they are. -/
theorem put_content_of_ne {p s : Str} (h : p ≠ path) : (d.put path s).content p = d.content p :=
  if_neg h

/-- A file that opens is overwritten. -/
theorem write_of_writable (h : d.writable path = true) (s : Str) :
    d.write path s = some (d.put path s) :=
  if_pos h

/-- A file that opens grows. -/
theorem append_of_writable (h : d.writable path = true) (s : Str) :
    d.append path s = some (d.put path (d.bytes path ++ s)) :=
  if_pos h

/-- Only the file at `path` may have changed. -/
structure SameBut (path : Str) (d d' : Disk) : Prop where
  readable : d'.readable = d.readable
  writable : d'.writable = d.writable
  content : ∀ {p}, p ≠ path → d'.content p = d.content p

theorem SameBut.refl (path : Str) (d : Disk) : SameBut path d d := ⟨rfl, rfl, fun _ => rfl⟩

theorem SameBut.trans {d' d'' : Disk} (h₁ : SameBut path d d') (h₂ : SameBut path d' d'') :
    SameBut path d d'' :=
  ⟨h₂.readable.trans h₁.readable, h₂.writable.trans h₁.writable,
    fun hp => (h₂.content hp).trans (h₁.content hp)⟩

/-- Another file has the same bytes. -/
theorem SameBut.bytes {d' : Disk} (h : SameBut path d d') {p : Str} (hp : p ≠ path) :
    d'.bytes p = d.bytes p := by
  rw [Disk.bytes, h.content hp, Disk.bytes]

/-- And reads the same. -/
theorem SameBut.read {d' : Disk} (h : SameBut path d d') {p : Str} (hp : p ≠ path) :
    d'.read p = d.read p := by
  rw [Disk.read, h.content hp, h.readable, Disk.read]

theorem sameBut_put (d : Disk) (path s : Str) : SameBut path d (d.put path s) :=
  ⟨rfl, rfl, fun hp => put_content_of_ne hp⟩

/-- A write that opens its file changes no other one. -/
theorem sameBut_of_write {s : Str} {d' : Disk} (h : d.write path s = some d') :
    SameBut path d d' := by
  unfold write at h
  split at h
  · cases h
    exact sameBut_put d path s
  · cases h

/-- Nor does one that appends. -/
theorem sameBut_of_append {s : Str} {d' : Disk} (h : d.append path s = some d') :
    SameBut path d d' :=
  sameBut_of_write h

end Disk

/-- What is handed to the HTTP library. -/
structure Request where
  url : Str
  headers : List Str
  postData : Str

/-- What a magic reads and changes. -/
structure World where
  disk : Disk
  /-- What was written to `std::cout`, and to `std::cerr`. -/
  out : Str
  err : Str
  /-- The requests that were sent, in their order. -/
  requests : List Request

namespace World

variable (w : World) (s : Str)

/-- `std::cout << s`. -/
def cout : World := { w with out := w.out ++ s }

/-- `std::cerr << s`. -/
def cerr : World := { w with err := w.err ++ s }

/-- `curl_easy_perform` of a request. -/
def send (r : Request) : World := { w with requests := w.requests ++ [r] }

@[simp] theorem cout_disk : (w.cout s).disk = w.disk := rfl

@[simp] theorem cerr_disk : (w.cerr s).disk = w.disk := rfl

@[simp] theorem send_disk (r : Request) : (w.send r).disk = w.disk := rfl

@[simp] theorem cerr_requests : (w.cerr s).requests = w.requests := rfl

/-- A working directory where every file opens and none exists. -/
def fresh : World := ⟨⟨fun _ => none, fun _ => true, fun _ => true⟩, [], [], []⟩

end World

end XeusCpp.Host
