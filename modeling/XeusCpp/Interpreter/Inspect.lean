/-
# XeusCpp.Interpreter.Inspect — the documentation lookup.

A JSON file in the configuration directory names a tagfile and the address its pages live under; a
tagfile is an XML document. The inspected text is reduced to a name, through the compiler where it
knows a type, and every tagfile is searched for that name. The directory, the files and the XML
reader are the platform's; the JSON library is a parameter as everywhere.
-/
import XeusCpp.Host.JsonLibrary
import XeusCpp.Interpreter.Streams

namespace XeusCpp.Interpreter

open Text Host Magics Regex

/-! ## XML nodes -/

inductive Xml
  | element (name : Str) (attributes : List (Str × Str)) (children : List Xml)
  | text (value : Str)

namespace Xml

def children : Xml → List Xml
  | element _ _ cs => cs
  | text _ => []

/-- `attribute(name).value()`; empty where there is none. -/
def attributeValue (name : Str) : Xml → Str
  | element _ attributes _ => ((attributes.find? fun a => a.1 == name).map Prod.snd).getD []
  | text _ => []

def isNamed (name : Str) : Xml → Bool
  | element n _ _ => n == name
  | text _ => false

/-- `child(name)`; `none` is the null node. -/
def child (name : Str) (node : Xml) : Option Xml := node.children.find? (isNamed name)

def value? : Xml → Option Str
  | element _ _ _ => none
  | text value => some value

/-- `child_value()`, also of the null node. -/
def childValue (node : Option Xml) : Str :=
  match node with
  | some node => (node.children.findSome? value?).getD []
  | none => []

mutual

/-- A node and everything below it, in document order. -/
def nodes : Xml → List Xml
  | element name attributes cs => element name attributes cs :: nodesOf cs
  | text value => [text value]

def nodesOf : List Xml → List Xml
  | [] => []
  | node :: rest => node.nodes ++ nodesOf rest

end

/-- `find_node`, on the nodes of a document. -/
def findNode (document : List Xml) (predicate : Xml → Bool) : Option Xml :=
  (nodesOf document).find? predicate

end Xml

/-! ## Predicates -/

structure NodePredicate where
  kind : Str
  childValue : Str
deriving DecidableEq

def NodePredicate.holds (p : NodePredicate) (node : Xml) : Bool :=
  node.attributeValue (lit "kind") == p.kind &&
    Xml.childValue (node.child (lit "name")) == p.childValue

structure ClassMemberPredicate where
  className : Str
  kind : Str
  childValue : Str
deriving DecidableEq

namespace ClassMemberPredicate

variable (p : ClassMemberPredicate)

/-- The test both loops over the children make. -/
def isMember (child : Xml) : Bool :=
  child.attributeValue (lit "kind") == p.kind &&
    Xml.childValue (child.child (lit "name")) == p.childValue

def getFilename (node : Xml) : Str :=
  match node.children.find? p.isMember with
  | some child => Xml.childValue (child.child (lit "anchorfile"))
  | none => []

def holds (node : Xml) : Bool :=
  let nodeKind := node.attributeValue (lit "kind")
  let nodeName := Xml.childValue (node.child (lit "name"))
  let isClassOrStruct := nodeKind == lit "class" || nodeKind == lit "struct"
  let nameMatches := nodeName == p.className
  if isClassOrStruct && nameMatches then node.children.any p.isMember else false

end ClassMemberPredicate

/-! ## The platform -/

/-- What the lookup throws. -/
inductive LookupError
  /-- `filesystem_error` of the directory iterator. -/
  | directory
  /-- `parse_error` of the JSON library. -/
  | json
  /-- `out_of_range` or `type_error` of the JSON library. -/
  | entry
deriving DecidableEq

structure Platform (J : Type) where
  lib : JsonLibrary J
  /-- `XCPP_TAGCONFS_DIR` -/
  tagconfsDirEnv : Option Str
  /-- `XCPP_TAGFILES_DIR` -/
  tagfilesDirEnv : Option Str
  prefixPath : Str
  /-- The file names in a directory, in the order of the iterator; `none` when it throws. -/
  listDirectory : Str → Option (List Str)
  /-- The nodes at the top of a document, of what could be read where the text is malformed. -/
  readXml : Str → List Xml
  /-- `Cpp::GetType`, by the qualified name of the type; `none` is the null pointer. -/
  typeName : Str → Option Str
  /-- `Cpp::Declare` of a clause; `true` is an error. -/
  declare : Str → Bool
  /-- The complete name of the canonical type a clause declared under a name. -/
  completeName : Str → Str → Str

namespace Platform

variable {J : Type} (p : Platform J)

def retrieveTagconfDir : Str :=
  match p.tagconfsDirEnv with
  | some dir => dir
  | none => p.prefixPath ++ lit "etc/xeus-cpp/tags.d"

def retrieveTagfileDir : Str :=
  match p.tagfilesDirEnv with
  | some dir => dir
  | none => p.prefixPath ++ lit "share/xeus-cpp/tagfiles"

/-- `std::to_string` -/
def toString (n : Nat) : Str := (Nat.toDigits 10 n).map Char.toUInt8

/-- The name a type is declared under. -/
def typeId (varCount : Nat) : Str := lit "__Xeus_GetType_" ++ toString varCount

/-- The clause that declares the type of an expression. -/
def usingClause (varCount : Nat) (expression : Str) : Str :=
  lit "using " ++ typeId varCount ++ lit " = __typeof__(" ++ expression ++ lit ");\n"

/-- The type of an expression, and `var_count` afterwards. -/
def findTypeSlow (expression : Str) (varCount : Nat) : Str × Nat :=
  match p.typeName expression with
  | some name => (name, varCount)
  | none =>
      let clause := cStr (usingClause varCount expression)
      if p.declare clause then ([], varCount + 1)
      else (p.completeName clause (typeId varCount), varCount + 1)

/-! ## The configuration -/

/-- `path / name` -/
def join (path name : Str) : Str :=
  if path.getLast? = some ('/' : Char) then path ++ name else path ++ lit "/" ++ name

/-- `filename.extension()`: from the last dot on, unless the name begins with it. -/
def extension (name : Str) : Str :=
  if name = lit "." ∨ name = lit ".." then []
  else
    let suffix := (name.reverse.takeWhile (· != (('.' : Char) : Byte))).reverse
    if suffix.length + 1 < name.length then ('.' : Char) :: suffix else []

/-- `std::ifstream i(path); i >> json_entry;`: a stream that does not open has no text. -/
def readEntry (disk : Disk) (path : Str) : Except LookupError J :=
  match p.lib.extract ((disk.read path).getD []) with
  | some entry => .ok entry
  | none => .error .json

def isConf (name : Str) : Bool := extension name == lit ".json"

def readTagconfs (disk : Disk) (path : Str) : Except LookupError (List J) :=
  match p.listDirectory path with
  | none => .error .directory
  | some names => (names.filter isConf).mapM fun name => p.readEntry disk (join path name)

/-- `std::string s = it->at(key)` -/
def field (it : J) (key : Str) : Except LookupError Str :=
  match (p.lib.at? it key).bind p.lib.toStr with
  | some s => .ok s
  | none => .error .entry

/-- `doc.load_file(filename)`: the document stays empty when the file does not open. -/
def loadFile (disk : Disk) (filename : Str) : List Xml :=
  match disk.read (cStr filename) with
  | some text => p.readXml text
  | none => []

/-! ## The search -/

/-- `([^\s]+(?:\s*\([^)]+\))?)` -/
def reExpression : Regex :=
  group 1 (seq (plus (set fun c => !isspace c))
    (opt (seq (star space) (seq (Regex.char '(') (seq (plus (set (· != ')'))) (Regex.char ')'))))))

/-- `(.*)\.(\w*)$` -/
def reMember : Regex :=
  seq (group 1 (star dot)) (seq (Regex.char '.') (seq (group 2 (star word)) eos))

/-- `\w+(\:{2}\w+)+` -/
def isNamespace : Regex :=
  seq (plus word) (plus (group 1 (seq (Regex.char ':') (seq (Regex.char ':') (plus word)))))

/-- What the tagfiles are searched for. -/
inductive Query
  /-- A member whose class has neither a type nor a name. -/
  | nothing
  | member (predicate : ClassMemberPredicate)
  | compound (findString : Str)
deriving DecidableEq

/-- The first half of `inspect`, and `var_count` afterwards. -/
def resolve (code : Str) (varCount : Nat) : Query × Nat :=
  let toInspect := group? (search reExpression code) 1
  match search reMember toInspect with
  | some method =>
      let (typeName, varCount) := p.findTypeSlow (method.str 1) varCount
      let typeName := if typeName.isEmpty then method.str 1 else typeName
      if typeName.isEmpty then (.nothing, varCount)
      else (.member ⟨typeName, lit "function", method.str 2⟩, varCount)
  | none =>
      match fullMatch isNamespace toInspect with
      | some _ => (.compound toInspect, varCount)
      | none =>
          let (typeName, varCount) := p.findTypeSlow toInspect varCount
          (.compound (if typeName.isEmpty then toInspect else typeName), varCount)

def check : List Str := [lit "class", lit "struct", lit "function"]

/-- What a tagfile says about a name, for one of the kinds; empty where it says nothing. -/
def compoundNode (doc : List Xml) (findString c : Str) : Str :=
  let node := Xml.findNode doc (NodePredicate.holds ⟨c, findString⟩)
  if c = lit "class" ∨ c = lit "struct" then
    Xml.childValue (node.bind (Xml.child (lit "filename")))
  else
    Xml.childValue (node.bind (Xml.child (lit "anchorfile")))

/-- One round of the loop over the configuration, on `inspect_result`. -/
def step (disk : Disk) (query : Query) (inspectResult : Str) (it : J) : Except LookupError Str := do
  let url ← p.field it (lit "url")
  let tagfile ← p.field it (lit "tagfile")
  let doc := p.loadFile disk (p.retrieveTagfileDir ++ lit "/" ++ tagfile)
  match query with
  | .nothing => .ok inspectResult
  | .member predicate =>
      match Xml.findNode doc predicate.holds with
      | some node => .ok (url ++ predicate.getFilename node)
      | none => .ok inspectResult
  | .compound findString =>
      .ok (check.foldl (fun result c =>
        let node := compoundNode doc findString c
        if node.isEmpty then result else url ++ node) inspectResult)

/-- The second half of `inspect`. -/
def find (disk : Disk) (tagconfs : List J) : Query → Except LookupError Str
  | .nothing => .ok []
  | query => tagconfs.foldlM (p.step disk query) []

/-- The page of a text, and `var_count` afterwards. -/
def inspect (disk : Disk) (code : Str) (varCount : Nat) : Except LookupError Str × Nat :=
  match p.readTagconfs disk (cStr p.retrieveTagconfDir) with
  | .error e => (.error e, varCount)
  | .ok tagconfs =>
      let (query, varCount) := p.resolve code varCount
      (p.find disk tagconfs query, varCount)

end Platform

/-! ## The two ways in -/

def htmlContent (inspectResult : Str) : Str :=
  lit "<style>
        #pager-container \x7b
            padding: 0;
            margin: 0;
            width: 100%;
            height: 100%;
        \x7d
        .xcpp-iframe-pager \x7b
            padding: 0;
            margin: 0;
            width: 100%;
            height: 100%;
            border: none;
        \x7d
        </style>
        <iframe class=\"xcpp-iframe-pager\" src=\"" ++ inspectResult ++
    lit "?action=purge\"></iframe>"

def buildInspectData (inspectResult : Str) : Page := ⟨inspectResult, htmlContent inspectResult⟩

/-- `^\?` -/
def introspectionPattern : Regex := seq bos (Regex.char '?')

/-- `^\?(.*)` -/
def reIntrospection : Regex := seq bos (seq (Regex.char '?') (group 1 (star dot)))

/-- `(\w*(?:\:{2}|\<.*\>|\(.*\)|\[.*\])?)(\.?)*$` -/
def reInspectRequest : Regex :=
  seq (group 1 (seq (star word) (opt (alt (seq (Regex.char ':') (Regex.char ':'))
      (alt (seq (Regex.char '<') (seq (star dot) (Regex.char '>')))
        (alt (seq (Regex.char '(') (seq (star dot) (Regex.char ')')))
          (seq (Regex.char '[') (seq (star dot) (Regex.char ']')))))))))
    (seq (star (group 2 (opt (Regex.char '.')))) eos)

/-- `create_inspect_reply`, by its data; `none` is `found == false`. -/
abbrev InspectReply := Option Page

/-- What `inspect_request_impl` hands to `inspect`; `none` when the pattern does not match. -/
def requested (code : Str) (cursorPos : Nat) : Option Str :=
  (search reInspectRequest (code.take cursorPos)).map Match.text

def Platform.inspectRequest {J : Type} (p : Platform J) (disk : Disk) (code : Str)
    (cursorPos : Nat) (varCount : Nat) : Except LookupError InspectReply × Nat :=
  match requested code cursorPos with
  | none => (.ok none, varCount)
  | some text =>
      let (result, varCount) := p.inspect disk text varCount
      (result.map fun page => if page.isEmpty then none else some (buildInspectData page), varCount)

/-- What the introspection preamble hands to `inspect`. -/
def introspected (code : Str) : Str := group? (search reIntrospection code) 1

/-- `^\x(.*)` takes what stands behind the sign in its line. -/
theorem search_sign_line (x : Byte) (t : Str) :
    group? (search (seq bos (seq (Regex.char x) (group 1 (star dot)))) (x :: t)) 1 =
      t.takeWhile isDot := by
  let c : Cursor := ⟨0, x :: t, []⟩
  have hc : c.rest = x :: t := rfl
  have hrest : (c.advance 1).rest = t := rfl
  have hline := exec_star_set_longest (p := isDot) (c := c.advance 1)
    (k := fun d => some (c.toMatch (d.capture 1 ((c.advance 1).upTo d)))) rfl
  rw [search_bos, matchAt, exec_seq, exec_char hc, exec_group, dot, hline]
  show (c.advance 1).upTo _ = _
  rw [Cursor.upTo_advance, hrest, take_takeWhile_length]

/-- A query hands on the rest of its first line. -/
theorem introspected_line (t : Str) :
    introspected ((('?' : Char) : Byte) :: t) = t.takeWhile isDot := search_sign_line _ t

end XeusCpp.Interpreter
