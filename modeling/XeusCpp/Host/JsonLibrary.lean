/-
# XeusCpp.Host.JsonLibrary — what the kernel uses of its JSON library.

The library is a parameter of everything that uses it: a type of values with parsing, lookup,
printing and conversion to a string. `jsonLibrary` is the library over parsed values.
-/
import XeusCpp.Text.Dump

namespace XeusCpp.Host

open Text

inductive Key
  | name (s : Str)
  | index (i : Nat)
deriving DecidableEq

/-- What is used of `nlohmann::json`. Looking a missing key up inserts a null there; only the value
found is modelled, since a second lookup finds the same one. -/
structure JsonLibrary (J : Type) where
  /-- `json::parse`; `none` is a `parse_error`. -/
  parse : Str → Option J
  /-- `operator>>`: the value a stream begins with; `none` is a `parse_error`. -/
  extract : Str → Option J
  /-- `find`; `none` is `end()`. -/
  find : J → Str → Option J
  /-- `operator[]`; `none` is a `type_error`. -/
  get : J → Key → Option J
  /-- `at`; `none` is an `out_of_range` or a `type_error`. -/
  at? : J → Str → Option J
  dump : J → Str
  /-- The conversion to `std::string`; `none` is a `type_error`. -/
  toStr : J → Option Str

/-- A chain of `operator[]`. -/
def JsonLibrary.path {J : Type} (lib : JsonLibrary J) (j : J) (keys : List Key) : Option J :=
  keys.foldlM lib.get j

def utf8 (s : List Char) : Str := s.flatMap String.utf8EncodeChar

/-- The member of an object; the last one counts where a key is repeated. -/
def findMember (key : Str) : Json → Option Json
  | .obj members => (members.reverse.find? fun m => utf8 m.1 == key).map Prod.snd
  | _ => none

/-- The library on parsed values. -/
def jsonLibrary : JsonLibrary Json where
  parse := Json.parse
  extract := fun s => (Reader.spaced Json.isWs (Json.value (s.length + 1)) s).map Prod.fst
  find := fun j key => findMember key j
  get := fun j key =>
    match j, key with
    | .null, _ => some .null
    | .obj _, .name k => some ((findMember k j).getD .null)
    | .arr items, .index i => some (items.getD i .null)
    | _, _ => none
  at? := fun j key => findMember key j
  dump := Json.dump
  toStr := fun
    | .str s => some (utf8 s)
    | _ => none

end XeusCpp.Host
