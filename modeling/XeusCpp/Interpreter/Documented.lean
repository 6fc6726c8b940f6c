/-
# XeusCpp.Interpreter.Documented — what the tagfiles document, and what a lookup shows of it.

A tagfile documents a name through any of its nodes. The lookup asks the first node of a kind only,
and the last tagfile that answers wins: a name is shown as documented where that node has a file,
and a member whose first node has none is shown by the bare address of its tagfile.
-/
import XeusCpp.Interpreter.Lookup

namespace XeusCpp.Interpreter

open Text Host Magics Regex Logic

open Platform (Query)

/-! ## Documentation -/

namespace Xml

def kind (node : Xml) : Str := node.attributeValue (lit "kind")

def name (node : Xml) : Str := childValue (node.child (lit "name"))

def filename (node : Xml) : Str := childValue (node.child (lit "filename"))

def anchorfile (node : Xml) : Str := childValue (node.child (lit "anchorfile"))

/-- A class or a struct. -/
def IsClass (node : Xml) : Prop := node.kind = lit "class" ∨ node.kind = lit "struct"

end Xml

/-- The document has the documentation of the query in the file. -/
inductive Documents (doc : List Xml) : Query → Str → Prop
  | ofClass {node : Xml} (hnode : node ∈ Xml.nodesOf doc) (hclass : node.IsClass)
      (hfile : node.filename ≠ []) : Documents doc (.compound node.name) node.filename
  | ofFunction {node : Xml} (hnode : node ∈ Xml.nodesOf doc) (hkind : node.kind = lit "function")
      (hfile : node.anchorfile ≠ []) : Documents doc (.compound node.name) node.anchorfile
  | ofMember {node child : Xml} {kind : Str} (hnode : node ∈ Xml.nodesOf doc)
      (hclass : node.IsClass) (hchild : child ∈ node.children) (hkind : child.kind = kind)
      (hfile : child.anchorfile ≠ []) :
      Documents doc (.member ⟨node.name, kind, child.name⟩) child.anchorfile

/-- A tagfile of the configuration, and the address of its pages. -/
structure Tagconf where
  url : Str
  document : List Xml

/-- Some tagfile documents the query. -/
def Documented (ts : List Tagconf) (query : Query) : Prop :=
  ∃ t ∈ ts, ∃ file, Documents t.document query file

/-- The address of a file with the documentation of the query. -/
def IsPage (ts : List Tagconf) (query : Query) (s : Str) : Prop :=
  ∃ t ∈ ts, ∃ file, Documents t.document query file ∧ s = t.url ++ file

theorem IsPage.documented {ts : List Tagconf} {query : Query} {s : Str} (h : IsPage ts query s) :
    Documented ts query := by
  obtain ⟨t, ht, file, hfile, -⟩ := h
  exact ⟨t, ht, file, hfile⟩

/-- What is returned tells what is documented: a string is returned where the query has
documentation, and it is the address of it. -/
structure Tells (ts : List Tagconf) (query : Query) (r : Except LookupError Str) : Prop where
  documented : (∃ s, r = .ok s ∧ s ≠ []) ↔ Documented ts query
  page : ∀ s, r = .ok s → s ≠ [] → IsPage ts query s

/-! ## First nodes -/

/-- The first node of a kind with the name, which the search stops at, has a file. -/
def FirstHasFile (doc : List Xml) (name : Str) : Prop :=
  (∃ kind node, (kind = lit "class" ∨ kind = lit "struct") ∧
    Xml.findNode doc (NodePredicate.holds ⟨kind, name⟩) = some node ∧ node.filename ≠ []) ∨
    ∃ node, Xml.findNode doc (NodePredicate.holds ⟨lit "function", name⟩) = some node ∧
      node.anchorfile ≠ []

/-- The last tagfile with the class and its member, by its address and the first such class. -/
def lastClass (ts : List Tagconf) (predicate : ClassMemberPredicate) : Option (Str × Xml) :=
  (ts.filterMap fun t => (Xml.findNode t.document predicate.holds).map (t.url, ·)).getLast?

/-- The nodes the search stops at say what the tagfiles do. A member without a file is shown by the
address alone, which does no harm where that is a page, or where it is empty and there is none. -/
def FirstNodesTell (ts : List Tagconf) : Query → Prop
  | .nothing => True
  | .compound name =>
      Documented ts (.compound name) → ∃ t ∈ ts, FirstHasFile t.document name
  | .member predicate =>
      ∀ url node child, lastClass ts predicate = some (url, node) →
        node.children.find? predicate.isMember = some child → child.anchorfile = [] →
        if url = [] then ¬Documented ts (.member predicate) else IsPage ts (.member predicate) url

/-! ## One tagfile -/

theorem holds_node {c name : Str} {node : Xml} :
    NodePredicate.holds ⟨c, name⟩ node = true ↔ node.kind = c ∧ node.name = name := by
  simp [NodePredicate.holds, Xml.kind, Xml.name]

theorem holds_member {predicate : ClassMemberPredicate} {node : Xml} :
    predicate.holds node = true ↔
      (node.IsClass ∧ node.name = predicate.className) ∧
        ∃ child ∈ node.children, predicate.isMember child = true := by
  simp only [ClassMemberPredicate.holds, Xml.IsClass, Xml.kind, Xml.name]
  split <;> simp_all

theorem isMember_iff {predicate : ClassMemberPredicate} {child : Xml} :
    predicate.isMember child = true ↔
      child.kind = predicate.kind ∧ child.name = predicate.childValue := by
  simp [ClassMemberPredicate.isMember, Xml.kind, Xml.name]

theorem findNode_mem {doc : List Xml} {predicate : Xml → Bool} {node : Xml}
    (h : Xml.findNode doc predicate = some node) :
    node ∈ Xml.nodesOf doc ∧ predicate node = true :=
  ⟨List.mem_of_find?_eq_some h, List.find?_some h⟩

/-- The search finds a node wherever there is one. -/
theorem findNode_isSome {doc : List Xml} {predicate : Xml → Bool} {node : Xml}
    (hnode : node ∈ Xml.nodesOf doc) (h : predicate node = true) :
    ∃ first, Xml.findNode doc predicate = some first :=
  Option.isSome_iff_exists.mp (List.find?_isSome.mpr ⟨node, hnode, h⟩)

theorem compoundNode_class {doc : List Xml} {name c : Str} {node : Xml}
    (hc : c = lit "class" ∨ c = lit "struct")
    (hfind : Xml.findNode doc (NodePredicate.holds ⟨c, name⟩) = some node) :
    Platform.compoundNode doc name c = node.filename := by
  rw [Platform.compoundNode, if_pos hc, hfind]
  rfl

theorem compoundNode_function {doc : List Xml} {name : Str} {node : Xml}
    (hfind : Xml.findNode doc (NodePredicate.holds ⟨lit "function", name⟩) = some node) :
    Platform.compoundNode doc name (lit "function") = node.anchorfile := by
  rw [Platform.compoundNode, if_neg (by decide), hfind]
  rfl

/-- Where the lookup takes something from a document, it is the file of the first node. -/
theorem compoundNode_cases {doc : List Xml} {name c : Str} (hc : c ∈ Platform.check)
    (hfile : Platform.compoundNode doc name c ≠ []) :
    ∃ node, Xml.findNode doc (NodePredicate.holds ⟨c, name⟩) = some node ∧
      ((c = lit "class" ∨ c = lit "struct") ∧ Platform.compoundNode doc name c = node.filename ∨
        c = lit "function" ∧ Platform.compoundNode doc name c = node.anchorfile) := by
  cases hfind : Xml.findNode doc (NodePredicate.holds ⟨c, name⟩) with
  | none =>
      -- the null node has no children
      refine absurd ?_ hfile
      unfold Platform.compoundNode
      rw [hfind]
      split <;> rfl
  | some node =>
      refine ⟨node, rfl, ?_⟩
      by_cases hclass : c = lit "class" ∨ c = lit "struct"
      · exact .inl ⟨hclass, compoundNode_class hclass hfind⟩
      · have hfunction : c = lit "function" := by
          simp only [Platform.check, List.mem_cons, List.not_mem_nil, or_false] at hc
          tauto
        subst hfunction
        exact .inr ⟨rfl, compoundNode_function hfind⟩

/-- What the lookup takes from a document for a kind, the document has. -/
theorem documents_compoundNode {doc : List Xml} {name c : Str} (hc : c ∈ Platform.check)
    (hfile : Platform.compoundNode doc name c ≠ []) :
    Documents doc (.compound name) (Platform.compoundNode doc name c) := by
  obtain ⟨node, hfind, hnode⟩ := compoundNode_cases hc hfile
  obtain ⟨hmem, hholds⟩ := findNode_mem hfind
  obtain ⟨hkind, rfl⟩ := holds_node.mp hholds
  rcases hnode with ⟨hclass, hnode⟩ | ⟨hfunction, hnode⟩
  · rw [hnode] at hfile ⊢
    rw [← hkind] at hclass
    exact .ofClass hmem hclass hfile
  · rw [hnode] at hfile ⊢
    exact .ofFunction hmem (hkind.trans hfunction) hfile

theorem firstHasFile_iff {doc : List Xml} {name : Str} :
    FirstHasFile doc name ↔ ∃ c ∈ Platform.check, Platform.compoundNode doc name c ≠ [] := by
  constructor
  · rintro (⟨c, node, hc, hfind, hfile⟩ | ⟨node, hfind, hfile⟩)
    · refine ⟨c, ?_, ?_⟩
      · simp only [Platform.check, List.mem_cons]
        tauto
      · rwa [compoundNode_class hc hfind]
    · refine ⟨lit "function", by simp [Platform.check], ?_⟩
      rwa [compoundNode_function hfind]
  · rintro ⟨c, hc, hfile⟩
    obtain ⟨node, hfind, ⟨hclass, hnode⟩ | ⟨rfl, hnode⟩⟩ := compoundNode_cases hc hfile
    · exact .inl ⟨c, node, hclass, hfind, hnode ▸ hfile⟩
    · exact .inr ⟨node, hfind, hnode ▸ hfile⟩

/-- The page of a name in one tagfile. -/
theorem found_compound {doc : List Xml} {url name page : Str}
    (h : Platform.found doc url (.compound name) = some page) :
    ∃ c ∈ Platform.check, Platform.compoundNode doc name c ≠ [] ∧
      page = url ++ Platform.compoundNode doc name c := by
  obtain ⟨file, hfile, rfl⟩ := Option.map_eq_some_iff.mp h
  obtain ⟨hfile, hne⟩ := List.mem_filter.mp (List.mem_of_getLast? hfile)
  obtain ⟨c, hc, rfl⟩ := List.mem_map.mp hfile
  exact ⟨c, hc, by simpa using hne, rfl⟩

theorem found_compound_isSome {doc : List Xml} {name : Str} (url : Str) :
    (∃ page, Platform.found doc url (.compound name) = some page) ↔ FirstHasFile doc name := by
  rw [firstHasFile_iff]
  constructor
  · rintro ⟨page, h⟩
    obtain ⟨c, hc, hfile, -⟩ := found_compound h
    exact ⟨c, hc, hfile⟩
  · rintro ⟨c, hc, hfile⟩
    have hmem : Platform.compoundNode doc name c ∈
        (Platform.check.map (Platform.compoundNode doc name)).filter (!·.isEmpty) :=
      List.mem_filter.mpr ⟨List.mem_map_of_mem hc, by simpa using hfile⟩
    obtain ⟨file, hlast⟩ := Option.ne_none_iff_exists'.mp
      (mt List.getLast?_eq_none_iff.mp (List.ne_nil_of_mem hmem))
    exact ⟨url ++ file, by rw [Platform.found, hlast]; rfl⟩

theorem Documents.ne_nil {doc : List Xml} {query : Query} {file : Str}
    (h : Documents doc query file) : file ≠ [] := by
  cases h with
  | ofClass _ _ hfile => exact hfile
  | ofFunction _ _ hfile => exact hfile
  | ofMember _ _ _ _ hfile => exact hfile

/-- A documented member is found in its tagfile. -/
theorem Documents.findNode {doc : List Xml} {predicate : ClassMemberPredicate} {file : Str}
    (h : Documents doc (.member predicate) file) :
    ∃ node, Xml.findNode doc predicate.holds = some node := by
  cases h with
  | @ofMember node child kind hnode hclass hchild hkind hfile =>
      refine findNode_isSome hnode (holds_member.mpr ⟨⟨hclass, rfl⟩, child, hchild, ?_⟩)
      exact isMember_iff.mpr ⟨hkind, rfl⟩

/-- The first class with the member has a first member. -/
theorem first_member {doc : List Xml} {predicate : ClassMemberPredicate} {node : Xml}
    (h : Xml.findNode doc predicate.holds = some node) :
    ∃ child, node.children.find? predicate.isMember = some child ∧
      predicate.getFilename node = child.anchorfile ∧
      (child.anchorfile ≠ [] → Documents doc (.member predicate) child.anchorfile) := by
  obtain ⟨hmem, hholds⟩ := findNode_mem h
  obtain ⟨⟨hclass, hname⟩, member, hmember, his⟩ := holds_member.mp hholds
  obtain ⟨child, hfind⟩ :=
    Option.isSome_iff_exists.mp (List.find?_isSome.mpr ⟨member, hmember, his⟩)
  refine ⟨child, hfind, ?_, ?_⟩
  · rw [ClassMemberPredicate.getFilename, hfind]
    rfl
  · intro hfile
    obtain ⟨hkind, hchild⟩ := isMember_iff.mp (List.find?_some hfind)
    obtain ⟨className, kind, childValue⟩ := predicate
    subst hname hkind hchild
    exact .ofMember hmem hclass (List.mem_of_find?_eq_some hfind) rfl hfile

/-! ## All tagfiles -/

/-- What the loop over the tagfiles leaves in `inspect_result`. -/
def answer (ts : List Tagconf) (query : Query) : Str :=
  (ts.filterMap fun t => Platform.found t.document t.url query).getLast?.getD []

variable {ts : List Tagconf}

theorem tells_ok {query : Query} {s : Str} :
    Tells ts query (.ok s) ↔
      (s = [] → ¬Documented ts query) ∧ (s ≠ [] → IsPage ts query s) := by
  have hreturned : (∃ s', (.ok s : Except LookupError Str) = .ok s' ∧ s' ≠ []) ↔ s ≠ [] := by
    constructor
    · rintro ⟨s', hs, hne⟩
      cases hs
      exact hne
    · intro hne
      exact ⟨s, rfl, hne⟩
  constructor
  · rintro ⟨hdocumented, hpage⟩
    rw [hreturned] at hdocumented
    exact ⟨fun hs h => hdocumented.mpr h hs, hpage s rfl⟩
  · rintro ⟨hnone, hpage⟩
    refine ⟨hreturned.trans ⟨fun hs => (hpage hs).documented, fun h hs => hnone hs h⟩, ?_⟩
    intro s' hs
    cases hs
    exact hpage

/-- A lookup that throws returns nothing. -/
theorem tells_error {query : Query} {e : LookupError} :
    Tells ts query (.error e) ↔ ¬Documented ts query := by
  constructor
  · rintro ⟨hdocumented, -⟩ h
    obtain ⟨s, hs, -⟩ := hdocumented.mpr h
    cases hs
  · intro h
    refine ⟨⟨?_, fun hd => absurd hd h⟩, ?_⟩
    · rintro ⟨s, hs, -⟩
      cases hs
    · intro s hs
      cases hs

/-- An empty string tells that nothing is documented. -/
theorem tells_nil {query : Query} : Tells ts query (.ok []) ↔ ¬Documented ts query := by
  rw [tells_ok]
  exact ⟨fun h => h.1 rfl, fun h => ⟨fun _ => h, fun hne => absurd rfl hne⟩⟩

/-- The address of a documented file tells what it should. -/
theorem Documents.tells {query : Query} {t : Tagconf} (ht : t ∈ ts) {file : Str}
    (h : Documents t.document query file) : Tells ts query (.ok (t.url ++ file)) := by
  refine tells_ok.mpr ⟨?_, fun _ => ⟨t, ht, file, h, rfl⟩⟩
  intro hnil
  exact absurd (List.append_eq_nil_iff.mp hnil).2 h.ne_nil

theorem tells_nothing : Tells ts .nothing (.ok []) := by
  rw [tells_nil]
  rintro ⟨t, -, file, hfile⟩
  cases hfile

/-- What is found in no tagfile is none of the finds. -/
theorem eq_none_of_getLast? {β : Type} {g : Tagconf → Option β}
    (h : (ts.filterMap g).getLast? = none) {t : Tagconf} (ht : t ∈ ts) : g t = none :=
  List.filterMap_eq_nil_iff.mp (List.getLast?_eq_none_iff.mp h) t ht

/-- The last find is the find of some tagfile. -/
theorem exists_of_getLast? {β : Type} {g : Tagconf → Option β} {b : β}
    (h : (ts.filterMap g).getLast? = some b) : ∃ t ∈ ts, g t = some b :=
  List.mem_filterMap.mp (List.mem_of_getLast? h)

theorem tells_compound (name : Str) :
    Tells ts (.compound name) (.ok (answer ts (.compound name))) ↔
      FirstNodesTell ts (.compound name) := by
  simp only [answer, FirstNodesTell]
  cases hlast : (ts.filterMap fun t =>
      Platform.found t.document t.url (.compound name)).getLast? with
  | none =>
      -- no first node has a file
      have hnone : ¬∃ t ∈ ts, FirstHasFile t.document name := by
        rintro ⟨t, ht, hfirst⟩
        obtain ⟨page, hpage⟩ := (found_compound_isSome t.url).mpr hfirst
        rw [eq_none_of_getLast? hlast ht] at hpage
        cases hpage
      show Tells ts _ (.ok []) ↔ _
      rw [tells_nil]
      exact ⟨fun h hd => absurd hd h, fun h hd => hnone (h hd)⟩
  | some page =>
      obtain ⟨t, ht, hfound⟩ := exists_of_getLast? hlast
      obtain ⟨c, hc, hfile, rfl⟩ := found_compound hfound
      exact iff_of_true ((documents_compoundNode hc hfile).tells ht)
        fun _ => ⟨t, ht, firstHasFile_iff.mpr ⟨c, hc, hfile⟩⟩

/-- The last class with the member is shown. -/
theorem answer_member (predicate : ClassMemberPredicate) :
    answer ts (.member predicate) =
      ((lastClass ts predicate).map fun c => c.1 ++ predicate.getFilename c.2).getD [] := by
  unfold answer lastClass
  rw [← List.getLast?_map, List.map_filterMap]
  simp only [Option.map_map]
  rfl

/-- A member whose last class is not there is documented nowhere. -/
theorem not_documented_of_lastClass {predicate : ClassMemberPredicate}
    (h : lastClass ts predicate = none) : ¬Documented ts (.member predicate) := by
  rintro ⟨t, ht, file, hfile⟩
  obtain ⟨node, hnode⟩ := hfile.findNode
  have hskip := eq_none_of_getLast? h ht
  rw [hnode] at hskip
  cases hskip

theorem exists_of_lastClass {predicate : ClassMemberPredicate} {c : Str × Xml}
    (h : lastClass ts predicate = some c) :
    ∃ t ∈ ts, t.url = c.1 ∧ Xml.findNode t.document predicate.holds = some c.2 := by
  obtain ⟨t, ht, hc⟩ := exists_of_getLast? h
  obtain ⟨node, hnode, rfl⟩ := Option.map_eq_some_iff.mp hc
  exact ⟨t, ht, rfl, hnode⟩

/-- A bare address tells what it should where it is a page, or empty and there is none. -/
theorem tells_bare {query : Query} {url : Str} : Tells ts query (.ok url) ↔
    if url = [] then ¬Documented ts query else IsPage ts query url := by
  rw [tells_ok]
  split
  next hurl => exact ⟨fun h => h.1 hurl, fun h => ⟨fun _ => h, fun hne => absurd hurl hne⟩⟩
  next hurl => exact ⟨fun h => h.2 hurl, fun h => ⟨fun hnil => absurd hnil hurl, fun _ => h⟩⟩

theorem tells_member (predicate : ClassMemberPredicate) :
    Tells ts (.member predicate) (.ok (answer ts (.member predicate))) ↔
      FirstNodesTell ts (.member predicate) := by
  rw [answer_member]
  simp only [FirstNodesTell]
  cases hlast : lastClass ts predicate with
  | none =>
      refine iff_of_true (tells_nil.mpr (not_documented_of_lastClass hlast)) ?_
      intro url node child h
      cases h
  | some c =>
      obtain ⟨url, node⟩ := c
      obtain ⟨t, ht, rfl, hnode⟩ := exists_of_lastClass hlast
      obtain ⟨child, hchild, hfile, hdocuments⟩ := first_member hnode
      show Tells ts _ (.ok (t.url ++ predicate.getFilename node)) ↔ _
      rw [hfile]
      -- the condition asks about this class and this member
      have hfirst : (∀ url' node' child', some (t.url, node) = some (url', node') →
          node'.children.find? predicate.isMember = some child' → child'.anchorfile = [] →
            if url' = [] then ¬Documented ts (.member predicate)
            else IsPage ts (.member predicate) url') ↔
          (child.anchorfile = [] → if t.url = [] then ¬Documented ts (.member predicate)
            else IsPage ts (.member predicate) t.url) := by
        constructor
        · intro h
          exact h t.url node child rfl hchild
        · rintro h url' node' child' hsome hchild'
          cases hsome
          rw [hchild] at hchild'
          cases hchild'
          exact h
      rw [hfirst]
      by_cases hempty : child.anchorfile = []
      · rw [hempty, List.append_nil, tells_bare]
        exact ⟨fun h _ => h, fun h => h rfl⟩
      · exact iff_of_true ((hdocuments hempty).tells ht) fun h => absurd h hempty

/-! ## The lookup -/

namespace Platform

variable {J : Type} (p : Platform J)

/-- The tagfile a configuration file names. -/
def tagconf (disk : Disk) (name : Str) : Except LookupError Tagconf := do
  let it ← p.readEntry disk (join (cStr p.retrieveTagconfDir) name)
  let url ← p.field it (lit "url")
  let tagfile ← p.field it (lit "tagfile")
  .ok ⟨url, p.loadFile disk (p.retrieveTagfileDir ++ lit "/" ++ tagfile)⟩

/-- The configured tagfiles, in the order of the directory. -/
def tagconfs (disk : Disk) : List Tagconf :=
  (confs ((p.listDirectory (cStr p.retrieveTagconfDir)).getD [])).filterMap fun name =>
    (p.tagconf disk name).toOption

variable {p} {disk : Disk}

theorem confPage_eq (query : Query) (name : Str) :
    p.confPage disk query name =
      (p.tagconf disk name).map fun t => found t.document t.url query := by
  unfold confPage tagconf page
  simp only [bind, Except.bind]
  cases p.readEntry disk (join (cStr p.retrieveTagconfDir) name) with
  | error e => rfl
  | ok it =>
      dsimp only
      cases p.field it (lit "url") with
      | error e => rfl
      | ok url =>
          dsimp only
          cases p.field it (lit "tagfile") <;> rfl

theorem pageOf_eq (query : Query) (name : Str) :
    p.pageOf disk query name =
      (p.tagconf disk name).toOption.bind fun t => found t.document t.url query := by
  rw [pageOf, confPage_eq]
  cases p.tagconf disk name <;> rfl

/-- Where the configuration is in order, the lookup is one loop over the tagfiles. -/
theorem inspect_eq_answer {code : Str} {n : Nat} {names : List Str}
    (hq : (p.resolve code n).1 ≠ .nothing) (h : p.InOrder disk (p.resolve code n).1 names) :
    (p.inspect disk code n).1 = .ok (answer (p.tagconfs disk) (p.resolve code n).1) := by
  refine (p.inspect_eq_ok hq).mpr ⟨names, h.listed, ?_⟩
  have hall : p.AllInOrder disk (p.resolve code n).1 names := ⟨rfl, h.entries⟩
  rw [foldlM_overwrite (confPage_ok hq hall)]
  unfold answer tagconfs
  rw [h.listed, Option.getD_some, List.filterMap_filterMap]
  simp only [pageOf_eq]

/-- The lookup tells what the tagfiles document exactly when the first nodes do; it throws where the
configuration is not in order, whatever the other tagfiles document. -/
theorem lookup_tells_iff (p : Platform J) (disk : Disk) (code : Str) (n : Nat) :
    Tells (p.tagconfs disk) (p.resolve code n).1 (p.inspect disk code n).1 ↔
      ((∃ names, p.InOrder disk (p.resolve code n).1 names) →
        FirstNodesTell (p.tagconfs disk) (p.resolve code n).1) ∧
      ((¬∃ names, p.InOrder disk (p.resolve code n).1 names) →
        ¬Documented (p.tagconfs disk) (p.resolve code n).1) := by
  by_cases horder : ∃ names, p.InOrder disk (p.resolve code n).1 names
  · have hfirst : Tells (p.tagconfs disk) (p.resolve code n).1 (p.inspect disk code n).1 ↔
        FirstNodesTell (p.tagconfs disk) (p.resolve code n).1 := by
      by_cases hq : (p.resolve code n).1 = .nothing
      · obtain ⟨s, hs⟩ := (p.succeeds_inspect disk code n).mpr horder
        obtain rfl := p.inspect_nothing hq hs
        rw [hs, hq]
        exact iff_of_true tells_nothing trivial
      · obtain ⟨names, hnames⟩ := horder
        rw [inspect_eq_answer hq hnames]
        cases hquery : (p.resolve code n).1 with
        | nothing => exact absurd hquery hq
        | compound name => exact tells_compound name
        | member predicate => exact tells_member predicate
    rw [hfirst]
    exact ⟨fun h => ⟨fun _ => h, fun hno => absurd horder hno⟩, fun h => h.1 horder⟩
  · obtain ⟨e, he⟩ : ∃ e, (p.inspect disk code n).1 = .error e := by
      cases hinspect : (p.inspect disk code n).1 with
      | error e => exact ⟨e, rfl⟩
      | ok s => exact absurd ((p.succeeds_inspect disk code n).mp ⟨s, hinspect⟩) horder
    rw [he, tells_error]
    exact ⟨fun h => ⟨fun hyes => absurd hyes horder, fun _ => h⟩, fun h => h.2 horder⟩

end Platform

/-- One configuration, whose tagfile has the member `m` of the class `c` without a file. -/
def bareMember : Platform Json :=
  { twoConfs with
    listDirectory := fun _ => some [lit "a.json"]
    readXml := fun _ => [.element (lit "compound") [(lit "kind", lit "class")]
      [.element (lit "name") [] [.text (lit "c")],
        .element (lit "filename") [] [.text (lit "c.html")],
        .element (lit "member") [(lit "kind", lit "function")]
          [.element (lit "name") [] [.text (lit "m")]]]] }

/-- The address of the tagfile is shown as the documentation of the member. -/
theorem bare_address_shown :
    (bareMember.inspect twoConfsDisk (lit "c.m") 0).1 = .ok (lit "a/") ∧
      ¬Tells (bareMember.tagconfs twoConfsDisk) (bareMember.resolve (lit "c.m") 0).1
        (bareMember.inspect twoConfsDisk (lit "c.m") 0).1 := by
  have hpage : (bareMember.inspect twoConfsDisk (lit "c.m") 0).1 = .ok (lit "a/") := by
    decide +kernel
  have hquery : (bareMember.resolve (lit "c.m") 0).1 =
      .member ⟨lit "c", lit "function", lit "m"⟩ := by
    decide
  have hbare : ∀ t ∈ bareMember.tagconfs twoConfsDisk, ∀ node ∈ Xml.nodesOf t.document,
      ∀ child ∈ node.children, child.anchorfile = [] := by
    decide +kernel
  have hnone : ∀ t ∈ bareMember.tagconfs twoConfsDisk, ∀ predicate file,
      ¬Documents t.document (.member predicate) file := by
    intro t ht predicate file h
    cases h with
    | ofMember hnode hclass hchild hkind hfile => exact hfile (hbare t ht _ hnode _ hchild)
  refine ⟨hpage, ?_⟩
  rw [hpage, hquery]
  intro h
  obtain ⟨t, ht, file, hfile⟩ := h.documented.mp ⟨_, rfl, by decide⟩
  exact hnone t ht _ file hfile

end XeusCpp.Interpreter
