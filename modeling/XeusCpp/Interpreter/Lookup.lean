/-
# XeusCpp.Interpreter.Lookup — what the documentation lookup finds, and when it throws.

Every round of the loop over the configuration either finds a page, which then overwrites the result,
or leaves the result alone: the page of one configuration file is `Platform.confPage`, and `inspect`
is the last page in the order of the directory. It throws exactly when the directory cannot be
listed or one of the files that are read is no entry.
-/
import XeusCpp.Interpreter.Inspect
import XeusCpp.Logic.Overwrite

namespace XeusCpp.Interpreter

open Text Host Magics Regex Logic

namespace Platform

variable {J : Type} (p : Platform J)

/-! ## One round -/

/-- What a tagfile says about the query, under the address of its pages. -/
def found (doc : List Xml) (url : Str) : Query → Option Str
  | .nothing => none
  | .member predicate =>
      (Xml.findNode doc predicate.holds).map fun node => url ++ predicate.getFilename node
  | .compound findString =>
      ((check.map (compoundNode doc findString)).filter (!·.isEmpty)).getLast?.map (url ++ ·)

/-- The page an entry leads to. -/
def page (disk : Disk) (query : Query) (it : J) : Except LookupError (Option Str) := do
  let url ← p.field it (lit "url")
  let tagfile ← p.field it (lit "tagfile")
  .ok (found (p.loadFile disk (p.retrieveTagfileDir ++ lit "/" ++ tagfile)) url query)

/-- The loop over the kinds keeps the last node that is not empty. -/
theorem foldl_kinds (doc : List Xml) (url findString : Str) (cs : List Str) (r : Str) :
    cs.foldl (fun result c =>
      let node := compoundNode doc findString c
      if node.isEmpty then result else url ++ node) r =
      ((((cs.map (compoundNode doc findString)).filter (!·.isEmpty)).getLast?).map (url ++ ·)).getD
        r := by
  induction cs generalizing r with
  | nil => rfl
  | cons c cs ih =>
      rw [List.foldl_cons, ih, List.map_cons]
      dsimp only
      by_cases hc : (compoundNode doc findString c).isEmpty = true
      · rw [if_pos hc, List.filter_cons_of_neg (by simp [hc])]
      · rw [if_neg hc, List.filter_cons_of_pos (by simp [hc]), List.getLast?_cons]
        cases (((cs.map (compoundNode doc findString)).filter (!·.isEmpty)).getLast?) <;> rfl

theorem step_eq (disk : Disk) (query : Query) (r : Str) (it : J) :
    p.step disk query r it = overwrite (p.page disk query) r it := by
  unfold step overwrite page
  cases p.field it (lit "url") with
  | error e => rfl
  | ok url =>
      cases p.field it (lit "tagfile") with
      | error e => rfl
      | ok tagfile =>
          let doc := p.loadFile disk (p.retrieveTagfileDir ++ lit "/" ++ tagfile)
          cases query with
          | nothing => rfl
          | member predicate =>
              simp only [bind, Except.bind, found]
              cases Xml.findNode doc predicate.holds <;> rfl
          | compound findString =>
              exact congrArg Except.ok (foldl_kinds doc url findString check r)

/-- The entry has what the loop asks it for. -/
def HasPage (it : J) : Prop :=
  Succeeds (p.field it (lit "url")) ∧ Succeeds (p.field it (lit "tagfile"))

theorem succeeds_page (disk : Disk) (query : Query) (it : J) :
    Succeeds (p.page disk query it) ↔ p.HasPage it := by
  constructor
  · rintro ⟨o, ho⟩
    obtain ⟨url, hurl, ho⟩ := bind_eq_ok.mp ho
    obtain ⟨tagfile, htagfile, -⟩ := bind_eq_ok.mp ho
    exact ⟨⟨url, hurl⟩, ⟨tagfile, htagfile⟩⟩
  · rintro ⟨⟨url, hurl⟩, ⟨tagfile, htagfile⟩⟩
    exact ⟨_, bind_eq_ok.mpr ⟨url, hurl, bind_eq_ok.mpr ⟨tagfile, htagfile, rfl⟩⟩⟩

/-! ## The directory -/

/-- The page a configuration file leads to. -/
def confPage (disk : Disk) (query : Query) (name : Str) : Except LookupError (Option Str) :=
  p.readEntry disk (join (cStr p.retrieveTagconfDir) name) >>= p.page disk query

/-- The configuration files of a listing. -/
def confs (names : List Str) : List Str := names.filter isConf

theorem find_eq (disk : Disk) (tagconfs : List J) {query : Query} (hq : query ≠ .nothing) :
    p.find disk tagconfs query = tagconfs.foldlM (overwrite (p.page disk query)) [] := by
  have hstep : p.step disk query = overwrite (p.page disk query) := by
    funext r it
    exact p.step_eq disk query r it
  cases query with
  | nothing => exact absurd rfl hq
  | member predicate => rw [← hstep]; rfl
  | compound findString => rw [← hstep]; rfl

/-- The lookup is one loop over the configuration files. -/
theorem inspect_eq_ok {disk : Disk} {code : Str} {n : Nat} {s : Str}
    (hq : (p.resolve code n).1 ≠ .nothing) :
    (p.inspect disk code n).1 = .ok s ↔
      ∃ names, p.listDirectory (cStr p.retrieveTagconfDir) = some names ∧
        (confs names).foldlM (overwrite (p.confPage disk (p.resolve code n).1)) [] = .ok s := by
  -- the files are read before the loop; `mapM_overwrite_eq_ok` moves each into its round
  have hloop : ∀ names, p.listDirectory (cStr p.retrieveTagconfDir) = some names →
      ((p.inspect disk code n).1 = .ok s ↔
        (p.readTagconfs disk (cStr p.retrieveTagconfDir) >>= fun tagconfs =>
          tagconfs.foldlM (overwrite (p.page disk (p.resolve code n).1)) []) = .ok s) := by
    intro names _
    unfold inspect
    cases hread : p.readTagconfs disk (cStr p.retrieveTagconfDir) with
    | error e => exact Iff.rfl
    | ok tagconfs =>
        show p.find disk tagconfs (p.resolve code n).1 = .ok s ↔ _
        rw [p.find_eq disk tagconfs hq]
        exact Iff.rfl
  cases hlist : p.listDirectory (cStr p.retrieveTagconfDir) with
  | none =>
      have herror : (p.inspect disk code n).1 = .error .directory := by
        unfold inspect readTagconfs
        rw [hlist]
      rw [herror]
      constructor
      · intro h
        cases h
      · rintro ⟨names, h, -⟩
        cases h
  | some names =>
      rw [hloop names hlist]
      unfold readTagconfs
      rw [hlist]
      constructor
      · intro h
        exact ⟨names, rfl, (mapM_overwrite_eq_ok _ _ _ _ _).mp h⟩
      · rintro ⟨names', h, hv⟩
        cases h
        exact (mapM_overwrite_eq_ok _ _ _ _ _).mpr hv

theorem inspect_nothing {disk : Disk} {code : Str} {n : Nat} {s : Str}
    (hq : (p.resolve code n).1 = .nothing) (h : (p.inspect disk code n).1 = .ok s) : s = [] := by
  unfold inspect at h
  split at h
  · cases h
  next tagconfs _ =>
    change p.find disk tagconfs (p.resolve code n).1 = .ok s at h
    rw [hq] at h
    cases h
    rfl

/-! ## When it throws -/

/-- The configuration is in order: its directory can be listed, every JSON file in it is read, and
where the loop over the entries runs, each has its two strings. -/
structure InOrder (disk : Disk) (query : Query) (names : List Str) : Prop where
  listed : p.listDirectory (cStr p.retrieveTagconfDir) = some names
  entries : ∀ name ∈ confs names,
    ∃ it, p.readEntry disk (join (cStr p.retrieveTagconfDir) name) = .ok it ∧
      (query ≠ .nothing → p.HasPage it)

/-- Without a query every configuration file is read all the same. -/
theorem succeeds_inspect_nothing {disk : Disk} {code : Str} {n : Nat}
    (hq : (p.resolve code n).1 = .nothing) :
    Succeeds (p.inspect disk code n).1 ↔ ∃ names, p.InOrder disk (p.resolve code n).1 names := by
  unfold inspect
  constructor
  · rintro ⟨s, hs⟩
    cases hlist : p.listDirectory (cStr p.retrieveTagconfDir) with
    | none =>
        unfold readTagconfs at hs
        rw [hlist] at hs
        cases hs
    | some names =>
        refine ⟨names, hlist, ?_⟩
        cases hread : p.readTagconfs disk (cStr p.retrieveTagconfDir) with
        | error e =>
            rw [hread] at hs
            cases hs
        | ok tagconfs =>
            unfold readTagconfs at hread
            rw [hlist] at hread
            intro name hname
            obtain ⟨it, hit⟩ := (succeeds_mapM _ _).mp ⟨tagconfs, hread⟩ name hname
            exact ⟨it, hit, fun h => absurd hq h⟩
  · rintro ⟨names, hlist, hentries⟩
    have hread : Succeeds (p.readTagconfs disk (cStr p.retrieveTagconfDir)) := by
      unfold readTagconfs
      rw [hlist]
      refine (succeeds_mapM _ _).mpr ?_
      intro name hname
      obtain ⟨it, hit, -⟩ := hentries name hname
      exact ⟨it, hit⟩
    obtain ⟨tagconfs, hread⟩ := hread
    rw [hread]
    exact ⟨[], by simp only [hq]; rfl⟩

theorem succeeds_inspect (disk : Disk) (code : Str) (n : Nat) :
    Succeeds (p.inspect disk code n).1 ↔ ∃ names, p.InOrder disk (p.resolve code n).1 names := by
  by_cases hq : (p.resolve code n).1 = .nothing
  · exact p.succeeds_inspect_nothing hq
  constructor
  · rintro ⟨s, hs⟩
    obtain ⟨names, hlist, hs⟩ := (p.inspect_eq_ok hq).mp hs
    refine ⟨names, hlist, ?_⟩
    intro name hname
    obtain ⟨o, ho⟩ := (succeeds_overwrite _ _ _).mp ⟨s, hs⟩ name hname
    obtain ⟨it, hit, ho⟩ := bind_eq_ok.mp ho
    exact ⟨it, hit, fun _ => (p.succeeds_page disk _ it).mp ⟨o, ho⟩⟩
  · rintro ⟨names, hlist, hentries⟩
    have hloop : ∀ name ∈ confs names,
        Succeeds (p.confPage disk (p.resolve code n).1 name) := by
      intro name hname
      obtain ⟨it, hit, hpage⟩ := hentries name hname
      obtain ⟨o, ho⟩ := (p.succeeds_page disk (p.resolve code n).1 it).mpr (hpage hq)
      exact ⟨o, bind_eq_ok.mpr ⟨it, hit, ho⟩⟩
    obtain ⟨s, hs⟩ := (succeeds_overwrite _ [] _).mpr hloop
    exact ⟨s, (p.inspect_eq_ok hq).mpr ⟨names, hlist, hs⟩⟩

/-! ## The order of the directory -/

/-- The platform whose configuration directory lists these names, in this order. -/
def withListing (names : List Str) : Platform J :=
  { p with listDirectory := fun _ => some names }

/-- The string a lookup returns; `none` when it throws. -/
def lookup (disk : Disk) (code : Str) (n : Nat) : Option Str := (p.inspect disk code n).1.toOption

theorem toOption_eq_some {x : Except LookupError Str} {s : Str} :
    x.toOption = some s ↔ x = .ok s := by
  cases x <;> simp [Except.toOption]

theorem toOption_eq_none {x : Except LookupError Str} : x.toOption = none ↔ ¬ Succeeds x := by
  cases x <;> simp [Except.toOption, Succeeds]

/-- Every configuration file is read, and has what the loop asks it for. -/
def AllInOrder (disk : Disk) (query : Query) (names : List Str) : Prop :=
  (p.withListing names).InOrder disk query names

/-- No two of the files lead to different pages. -/
def Agree (disk : Disk) (query : Query) (names : List Str) : Prop :=
  ∀ x ∈ confs names, ∀ y ∈ confs names, ∀ a b,
    p.confPage disk query x = .ok (some a) → p.confPage disk query y = .ok (some b) → a = b

variable {p} {disk : Disk} {query : Query} {names : List Str}

theorem allInOrder_iff {ys : List Str} (h : ys.Perm names) :
    (∃ zs, (p.withListing ys).InOrder disk query zs) ↔ p.AllInOrder disk query names := by
  have hmem : ∀ {us vs : List Str}, us.Perm vs → ∀ name ∈ confs us, name ∈ confs vs :=
    fun huv name hname => (huv.filter isConf).subset hname
  constructor
  · rintro ⟨zs, hlist, hentries⟩
    cases hlist
    exact ⟨rfl, fun name hname => hentries name (hmem h.symm name hname)⟩
  · rintro ⟨-, hentries⟩
    exact ⟨ys, rfl, fun name hname => hentries name (hmem h name hname)⟩

/-- The page of a file, where it is in order. -/
def pageOf (p : Platform J) (disk : Disk) (query : Query) (name : Str) : Option Str :=
  ((p.confPage disk query name).toOption).getD none

theorem confPage_ok (hq : query ≠ .nothing) (h : p.AllInOrder disk query names) :
    ∀ name ∈ confs names, p.confPage disk query name = .ok (p.pageOf disk query name) := by
  intro name hname
  obtain ⟨it, hit, hpage⟩ := h.entries name hname
  obtain ⟨o, ho⟩ := (p.succeeds_page disk query it).mpr (hpage hq)
  have hconf : p.confPage disk query name = .ok o := bind_eq_ok.mpr ⟨it, hit, ho⟩
  rw [pageOf, hconf]
  rfl

/-- The last page in the order of the directory. -/
theorem lookup_eq {code : Str} {n : Nat} {ys : List Str} (hq : (p.resolve code n).1 ≠ .nothing)
    (h : p.AllInOrder disk (p.resolve code n).1 names) (hperm : ys.Perm names) :
    (p.withListing ys).lookup disk code n =
      some (((confs ys).filterMap (p.pageOf disk (p.resolve code n).1)).getLast?.getD []) := by
  apply toOption_eq_some.mpr
  refine ((p.withListing ys).inspect_eq_ok hq).mpr ⟨ys, rfl, ?_⟩
  apply foldlM_overwrite
  intro name hname
  exact confPage_ok hq h name ((hperm.filter isConf).subset hname)

theorem pageOf_eq_some {x a : Str} (hq : query ≠ .nothing) (h : p.AllInOrder disk query names)
    (hx : x ∈ confs names) :
    p.pageOf disk query x = some a ↔ p.confPage disk query x = .ok (some a) := by
  rw [confPage_ok hq h x hx]
  exact ⟨fun ha => by rw [ha], fun ha => Except.ok.inj ha⟩

/-- Every order of the configuration files comes from an order of the directory. -/
theorem exists_perm_confs {zs : List Str} (h : zs.Perm (confs names)) :
    ∃ ys : List Str, ys.Perm names ∧ confs ys = zs := by
  have hconf : ∀ name ∈ zs, isConf name = true := by
    intro name hname
    exact (List.mem_filter.mp (h.subset hname)).2
  refine ⟨zs ++ names.filter (!isConf ·), ?_, ?_⟩
  · exact (h.append_right _).trans (List.filter_append_perm isConf names)
  · rw [confs, List.filter_append, List.filter_eq_self.mpr hconf, List.filter_filter]
    simp

/-- A lookup that cannot read its files throws, whatever their order. -/
theorem lookup_eq_none {code : Str} {n : Nat} {ys : List Str}
    (h : ¬p.AllInOrder disk (p.resolve code n).1 names) (hperm : ys.Perm names) :
    (p.withListing ys).lookup disk code n = none := by
  refine toOption_eq_none.mpr ?_
  rw [succeeds_inspect]
  exact fun hys => h ((allInOrder_iff hperm).mp hys)

/-- A lookup without a query finds nothing. -/
theorem lookup_nothing {code : Str} {n : Nat} {ys : List Str} (hq : (p.resolve code n).1 = .nothing)
    (h : p.AllInOrder disk (p.resolve code n).1 names) (hperm : ys.Perm names) :
    (p.withListing ys).lookup disk code n = some [] := by
  have hok := ((p.withListing ys).succeeds_inspect disk code n).mpr ((allInOrder_iff hperm).mpr h)
  obtain ⟨s, hs⟩ := hok
  rw [lookup, hs, (p.withListing ys).inspect_nothing hq hs]
  rfl

theorem pageOf_nothing (p : Platform J) (disk : Disk) (name : Str) :
    p.pageOf disk .nothing name = none := by
  unfold pageOf
  cases hconf : p.confPage disk .nothing name with
  | error e => rfl
  | ok o =>
      obtain ⟨it, _, hpage⟩ := bind_eq_ok.mp hconf
      obtain ⟨url, _, hpage⟩ := bind_eq_ok.mp hpage
      obtain ⟨tagfile, _, hpage⟩ := bind_eq_ok.mp hpage
      cases hpage
      rfl

/-- The last page in the order of the directory wins. -/
theorem lookup_last {code : Str} {n : Nat} {ys : List Str}
    (h : p.AllInOrder disk (p.resolve code n).1 names) (hperm : ys.Perm names) :
    (p.withListing ys).lookup disk code n =
      some (((confs ys).filterMap (p.pageOf disk (p.resolve code n).1)).getLast?.getD []) := by
  by_cases hq : (p.resolve code n).1 = .nothing
  · have hnone : p.pageOf disk (p.resolve code n).1 = fun _ => none := by
      funext name
      rw [hq, pageOf_nothing]
    rw [lookup_nothing hq h hperm, hnone, List.filterMap_none]
    rfl
  · exact lookup_eq hq h hperm

theorem agree_nothing (p : Platform J) (disk : Disk) (names : List Str) :
    p.Agree disk .nothing names := by
  intro x _ y _ a b ha _
  obtain ⟨it, _, ha⟩ := bind_eq_ok.mp ha
  obtain ⟨url, _, ha⟩ := bind_eq_ok.mp ha
  obtain ⟨tagfile, _, ha⟩ := bind_eq_ok.mp ha
  cases ha

/-- A lookup returns the same string for every order of the directory exactly when it throws for
every order or the files lead to one page; otherwise the last page in the order wins. -/
theorem lookup_order_iff (p : Platform J) (disk : Disk) (code : Str) (n : Nat) (names : List Str) :
    ((∀ ys zs : List Str, ys.Perm names → zs.Perm names →
      (p.withListing ys).lookup disk code n = (p.withListing zs).lookup disk code n) ↔
      (p.AllInOrder disk (p.resolve code n).1 names → p.Agree disk (p.resolve code n).1 names)) ∧
    (p.AllInOrder disk (p.resolve code n).1 names → ∀ ys : List Str, ys.Perm names →
      (p.withListing ys).lookup disk code n =
        some (((confs ys).filterMap (p.pageOf disk (p.resolve code n).1)).getLast?.getD [])) := by
  refine ⟨?_, fun hall ys hys => lookup_last hall hys⟩
  by_cases hall : p.AllInOrder disk (p.resolve code n).1 names
  swap
  · refine ⟨fun _ h => absurd h hall, ?_⟩
    intro _ ys zs hys hzs
    rw [lookup_eq_none hall hys, lookup_eq_none hall hzs]
  by_cases hq : (p.resolve code n).1 = .nothing
  · refine ⟨fun _ _ => hq ▸ agree_nothing p disk names, ?_⟩
    intro _ ys zs hys hzs
    rw [lookup_nothing hq hall hys, lookup_nothing hq hall hzs]
  · have hlast := last_perm_iff (p.pageOf disk (p.resolve code n).1) (confs names) []
    constructor
    · intro h _ x hx y hy a b ha hb
      refine hlast.mp ?_ x hx y hy a b ((pageOf_eq_some hq hall hx).mpr ha)
        ((pageOf_eq_some hq hall hy).mpr hb)
      intro us vs hus hvs
      -- an order of the configuration files is one of the directory
      obtain ⟨ys, hys, rfl⟩ := exists_perm_confs hus
      obtain ⟨zs, hzs, rfl⟩ := exists_perm_confs hvs
      have hsame := h ys zs hys hzs
      rw [lookup_eq hq hall hys, lookup_eq hq hall hzs] at hsame
      exact Option.some.inj hsame
    · intro h ys zs hys hzs
      rw [lookup_eq hq hall hys, lookup_eq hq hall hzs]
      refine congrArg some (hlast.mpr ?_ _ _ (hys.filter isConf) (hzs.filter isConf))
      intro x hx y hy a b ha hb
      exact h hall x hx y hy a b ((pageOf_eq_some hq hall hx).mp ha)
        ((pageOf_eq_some hq hall hy).mp hb)

end Platform

/-- Two configurations whose tagfiles document `f` under different addresses. -/
def twoConfs : Platform Json where
  lib := jsonLibrary
  tagconfsDirEnv := none
  tagfilesDirEnv := some (lit "t")
  prefixPath := []
  listDirectory := fun _ => none
  readXml := fun _ => [.element (lit "c") [(lit "kind", lit "function")]
    [.element (lit "name") [] [.text (lit "f")],
      .element (lit "anchorfile") [] [.text (lit "f.html")]]]
  typeName := fun _ => none
  declare := fun _ => true
  completeName := fun _ _ => []

def twoConfsDisk : Disk where
  content := fun path =>
    if path = lit "etc/xeus-cpp/tags.d/a.json" then
      some (lit "\x7b\"url\":\"a/\",\"tagfile\":\"x\"\x7d")
    else if path = lit "etc/xeus-cpp/tags.d/b.json" then
      some (lit "\x7b\"url\":\"b/\",\"tagfile\":\"x\"\x7d")
    else some []
  readable := fun _ => true
  writable := fun _ => false

/-- The last one in the directory wins. -/
theorem two_pages_depend_on_order :
    ∃ ys zs : List Str, ys.Perm [lit "a.json", lit "b.json"] ∧
      zs.Perm [lit "a.json", lit "b.json"] ∧
      (twoConfs.withListing ys).lookup twoConfsDisk (lit "f") 0 = some (lit "b/f.html") ∧
      (twoConfs.withListing zs).lookup twoConfsDisk (lit "f") 0 = some (lit "a/f.html") := by
  refine ⟨[lit "a.json", lit "b.json"], [lit "b.json", lit "a.json"], .refl _, .swap _ _ _, ?_, ?_⟩
  · decide +kernel
  · decide +kernel

end XeusCpp.Interpreter
