/-
# XeusCpp.Interpreter.Interaction — lookups between the cells.

Documentation is looked up in two ways: by a cell that starts with `?`, and by an inspect request while
a cell is being written. Either may complain on `std::cerr`, publish text that waited, throw what the
configuration files made it throw, or have the compiler declare an alias of the type it asks for. The
compiler keeps what it is told, so later cells can name the alias: lookups are not without a trace.

**`lookups_leave_aliases`**: over every session of execute and inspect requests these aliases are all
that is left of the lookups. With the bare declarations in their places the cells show the same, and
the files, the network, the magics and the compiler end up the same.
-/
import XeusCpp.Logic.Session
import XeusCpp.Interpreter.Frontend

namespace XeusCpp.Interpreter

open Text Host Magics Logic

variable {I J : Type}

/-! ## What a lookup declares -/

namespace Platform

/-- The expression whose type a lookup asks for; none for the name of something in a namespace. -/
def asked (code : Str) : Option Str :=
  let toInspect := group? (Regex.search reExpression code) 1
  match Regex.search reMember toInspect with
  | some method => some (method.str 1)
  | none =>
      match Regex.fullMatch isNamespace toInspect with
      | some _ => none
      | none => some toInspect

variable (p : Platform J)

/-- The clause a lookup hands to the compiler, where that does not know the type by its name. -/
def declares (code : Str) (varCount : Nat) : Option Str :=
  (asked code).bind fun expression =>
    match p.typeName expression with
    | some _ => none
    | none => some (cStr (usingClause varCount expression))

/-- The same, with the configuration read first. -/
def inspectDeclares (disk : Disk) (code : Str) (varCount : Nat) : Option Str :=
  match p.readTagconfs disk (cStr p.retrieveTagconfDir) with
  | .error _ => none
  | .ok _ => p.declares code varCount

variable {p} {disk : Disk} {code clause : Str} {n : Nat}

theorem declares_eq_some (h : p.declares code n = some clause) :
    ∃ expression, clause = cStr (usingClause n expression) := by
  obtain ⟨expression, -, hclause⟩ := Option.bind_eq_some_iff.mp h
  split at hclause
  · cases hclause
  · exact ⟨expression, (Option.some.inj hclause).symm⟩

theorem inspectDeclares_eq_some (h : p.inspectDeclares disk code n = some clause) :
    ∃ expression, clause = cStr (usingClause n expression) := by
  unfold inspectDeclares at h
  split at h
  · cases h
  · exact declares_eq_some h

/-- The counter moves with the declarations. -/
theorem findTypeSlow_count (p : Platform J) (expression : Str) (n : Nat) :
    (p.findTypeSlow expression n).2 = if (p.typeName expression).isSome then n else n + 1 := by
  unfold findTypeSlow
  cases p.typeName expression with
  | some name => rfl
  | none =>
      dsimp only
      split <;> rfl

theorem resolve_count (p : Platform J) (code : Str) (n : Nat) :
    (p.resolve code n).2 = n + (p.declares code n).toList.length := by
  have hcount : ∀ expression, asked code = some expression →
      n + (p.declares code n).toList.length = (p.findTypeSlow expression n).2 := by
    intro expression hasked
    rw [findTypeSlow_count, declares, hasked, Option.bind_some]
    cases p.typeName expression <;> rfl
  unfold asked at hcount
  unfold resolve
  dsimp only at hcount ⊢
  split
  next method hmember =>
    rw [hcount (method.str 1) (by rw [hmember])]
    split
    · split <;> rfl
    · rfl
  next hmember =>
    split
    next m hnamespace =>
      have hnone : asked code = none := by
        unfold asked
        dsimp only
        rw [hmember]
        dsimp only
        rw [hnamespace]
      rw [declares, hnone]
      rfl
    next hnamespace =>
      exact (hcount _ (by rw [hmember]; dsimp only; rw [hnamespace])).symm

theorem inspect_count (p : Platform J) (disk : Disk) (code : Str) (n : Nat) :
    (p.inspect disk code n).2 = n + (p.inspectDeclares disk code n).toList.length := by
  unfold inspect inspectDeclares
  cases p.readTagconfs disk (cStr p.retrieveTagconfDir) with
  | error e => rfl
  | ok tagconfs => exact p.resolve_count code n

end Platform

/-! ## What runs outside the kernel -/

/-- What outlives a request outside the kernel object: the compiler with all that was declared in it,
the environment, the directories. -/
structure Surroundings (I J : Type) where
  /-- What they do next; `Cpp::GetType` and the readers of the directories leave them as they are. -/
  system : I → System J
  /-- `Cpp::Declare` of a clause, whether it is accepted or not. -/
  declared : I → Str → I
  /-- A cell that was run, by the compiler, a magic or the shell, on the files. -/
  executed : I → Str → Disk → I

inductive Interaction
  | execute (code : Str) (config : Config)
  | inspect (code : Str) (cursorPos : Nat)
  /-- The clause of a lookup by itself. No frontend asks for this: it stands in the place of a lookup
  in the session without it. -/
  | declare (clause : Str)
deriving DecidableEq

namespace Interaction

/-- What is looked up and not executed. -/
def isLookup : Interaction → Bool
  | execute code _ => Preamble.introspection.isMatch code
  | inspect _ _ => true
  | declare _ => false

/-- The cells that are no lookup. -/
def isCell : Interaction → Bool
  | execute code _ => !Preamble.introspection.isMatch code
  | _ => false

/-- The text that is handed to `inspect`. -/
def lookedUp : Interaction → Option Str
  | execute code _ => if Preamble.introspection.isMatch code then some (introspected code) else none
  | inspect code cursorPos => requested code cursorPos
  | declare _ => none

end Interaction

namespace Surroundings

variable (C : Surroundings I J) (i : I) (disk : Disk) (varCount : Nat)

/-- What the compiler is handed by a request that is not for it. -/
def clause : Interaction → Option Str
  | .declare clause => some clause
  | x => x.lookedUp.bind fun text => (C.system i).inspectDeclares disk text varCount

/-- What a request leaves behind. -/
def behind (x : Interaction) : I :=
  match x, C.clause i disk varCount x with
  | _, some clause => C.declared i clause
  | .execute code _, none => if x.isCell then C.executed i code disk else i
  | _, none => i

end Surroundings

/-! ## Sessions -/

/-- `inspect_request_impl`, on the kernel. -/
def Kernel.inspectRequest (k : Kernel) (p : Platform J) (code : Str) (cursorPos : Nat) :
    Except LookupError InspectReply × Kernel :=
  match requested code cursorPos with
  | none => (.ok none, k)
  | some text =>
      match p.inspect k.disk text k.varCount with
      | (.error e, varCount) => (.error e, { k with varCount := varCount })
      | (.ok page, varCount) =>
          -- `inspect` flushes before it returns
          (.ok (if page.isEmpty then none else some (buildInspectData page)),
            { k with varCount := varCount }.flushCout)

/-- What a request adds: to the log or to what is shown, the reply if it is one to an inspect request
(or what the lookup threw), and the clause it declares. -/
structure Added (τ : Type) where
  shown : τ
  inspected : Option (Except LookupError InspectReply)
  clause : Option Str

namespace Surroundings

variable (C : Surroundings I J)

/-- A request to the kernel, with the events it adds to the log. -/
def kernelService : Service (Kernel × I) Interaction (Added (List Event)) := fun (k, i) x =>
  let behind := C.behind i k.disk k.varCount x
  let clause := C.clause i k.disk k.varCount x
  match x with
  | .execute code config =>
      let k' := k.serve ⟨C.system i, code, config⟩
      some ((k', behind), ⟨k'.events.drop k.events.length, none, clause⟩)
  | .inspect code cursorPos =>
      let r := k.inspectRequest (C.system i).toPlatform code cursorPos
      some ((r.2, behind), ⟨r.2.events.drop k.events.length, some r.1, clause⟩)
  | .declare _ => some ((k, behind), ⟨[], none, clause⟩)

/-- A request to the machine without streams and log. -/
def plainService : Service (Plain × I) Interaction (Added (Option Shown)) := fun (p, i) x =>
  let behind := C.behind i p.disk p.varCount x
  let clause := C.clause i p.disk p.varCount x
  match x with
  | .execute code config =>
      let r := p.serve ⟨C.system i, code, config⟩
      some ((r.1, behind), ⟨r.2, none, clause⟩)
  | .inspect code cursorPos =>
      let r := (C.system i).inspectRequest p.disk code cursorPos p.varCount
      some (({ p with varCount := r.2 }, behind), ⟨none, some r.1, clause⟩)
  | .declare _ => some ((p, behind), ⟨none, none, clause⟩)

end Surroundings

/-- A frontend that has shown `cells` shows `shown` with what one request added. -/
structure ReadAs (o : Added (List Event)) (a : Added (Option Shown)) : Prop where
  inspected : o.inspected = a.inspected
  clause : o.clause = a.clause
  read : ∀ cells, o.shown.foldlM Frontend.receive (.idle cells) =
    some (.idle (cells ++ a.shown.toList))

/-- The kernel between two requests, and the machine that stands for it. -/
def StandsFor (s : Kernel × I) (t : Plain × I) : Prop := Ready s.1 ∧ s.1.plain = t.1 ∧ s.2 = t.2

/-- Nothing waits to be flushed between two requests. -/
theorem flushCout_of_ready {k : Kernel} (h : Ready k) : k.flushCout = k := by
  have hempty : k.coutBuffer = ⟨[]⟩ := congrArg OutputBuffer.mk (h.pending .stdout)
  rw [Kernel.flushCout, h.cout, Kernel.sync, hempty]
  show { k with coutBuffer := ⟨[]⟩ } = k
  rw [← hempty]

theorem inspectRequest_of_ready {k : Kernel} (h : Ready k) (p : Platform J) (code : Str)
    (cursorPos : Nat) : k.inspectRequest p code cursorPos =
      ((p.inspectRequest k.disk code cursorPos k.varCount).1,
        { k with varCount := (p.inspectRequest k.disk code cursorPos k.varCount).2 }) := by
  unfold Kernel.inspectRequest Platform.inspectRequest
  cases requested code cursorPos with
  | none => rfl
  | some text =>
      dsimp only
      rcases p.inspect k.disk text k.varCount with ⟨e | page, n⟩
      · rfl
      · have hready : Ready { k with varCount := n } := ⟨⟨h.cout, h.cerr⟩, h.pending⟩
        dsimp only
        rw [flushCout_of_ready hready]
        rfl

/-- **The step lemma** of the refinement. -/
theorem kernel_refines (C : Surroundings I J) :
    Refines C.kernelService C.plainService StandsFor ReadAs := by
  rintro ⟨k, i⟩ ⟨p, _⟩ ⟨hready, rfl, rfl⟩ (⟨code, config⟩ | ⟨code, cursorPos⟩ | clause)
  · obtain ⟨hplain, es, hes, hread⟩ := serve_reads hready ⟨C.system i, code, config⟩
    refine .some ⟨⟨execute_ready hready _ code config, hplain, rfl⟩, rfl, rfl, fun cells => ?_⟩
    show ((k.serve ⟨C.system i, code, config⟩).events.drop k.events.length).foldlM _ _ = _
    rw [hes, List.drop_left]
    exact hread cells
  · show Option.Rel _ (some (((k.inspectRequest (C.system i).toPlatform code cursorPos).2, _), _)) _
    rw [inspectRequest_of_ready hready]
    refine .some ⟨⟨⟨⟨hready.cout, hready.cerr⟩, hready.pending⟩, rfl, rfl⟩, rfl, rfl, fun cells => ?_⟩
    simp
  · exact .some ⟨⟨hready, rfl, rfl⟩, rfl, rfl, fun cells => by simp⟩

/-! ## Without the lookups -/

/-- All but the counter of the lookups. -/
def SameButCount (p q : Plain) : Prop :=
  p.disk = q.disk ∧ p.requests = q.requests ∧ p.magics = q.magics

theorem sameButCount_equivalence : Equivalence SameButCount where
  refl _ := ⟨rfl, rfl, rfl⟩
  symm h := ⟨h.1.symm, h.2.1.symm, h.2.2.symm⟩
  trans h h' := ⟨h.1.trans h'.1, h.2.1.trans h'.2.1, h.2.2.trans h'.2.2⟩

section

variable {r : ExecuteRequest J}

/-- A cell that looks documentation up leaves its mark on the counter only. -/
theorem serve_of_lookup (h : Preamble.introspection.isMatch r.code = true) (p : Plain) :
    (p.serve r).1 =
      { p with varCount := (r.sys.inspect p.disk (introspected r.code) p.varCount).2 } := by
  have hfind := find_introspection.mpr ((isMatch_introspection _).mp h)
  unfold Plain.serve
  rw [hfind]
  show (p.query r.sys r.code).1 = _
  unfold Plain.query
  rcases r.sys.inspect p.disk (introspected r.code) p.varCount with ⟨e | page, n⟩ <;> rfl

/-- Any other cell goes on from any counter, and leaves it as it is. -/
theorem serve_of_not_lookup (h : Preamble.introspection.isMatch r.code = false) (p : Plain) (n : Nat) :
    { p with varCount := n }.serve r = ({ (p.serve r).1 with varCount := n }, (p.serve r).2) := by
  unfold Plain.serve
  cases hfind : Preamble.all.find? (·.isMatch r.code) with
  | none => rfl
  | some pre =>
      cases pre with
      | introspection =>
          have hmatch := (isMatch_introspection _).mpr (find_introspection.mp hfind)
          rw [h] at hmatch
          cases hmatch
      | magics | shell => rfl

theorem serve_sameButCount (h : Preamble.introspection.isMatch r.code = false) {p q : Plain}
    (hpq : SameButCount p q) :
    SameButCount (p.serve r).1 (q.serve r).1 ∧ (p.serve r).2 = (q.serve r).2 := by
  obtain ⟨disk, requests, n, magics⟩ := p
  obtain ⟨rfl, rfl, rfl⟩ := hpq
  rw [serve_of_not_lookup h q n]
  exact ⟨⟨rfl, rfl, rfl⟩, rfl⟩

end

/-- What stands in the place of a request when documentation is not looked up. -/
def instead {τ : Type} (e : Interaction × Added τ) : List Interaction :=
  if e.1.isLookup then e.2.clause.toList.map .declare else [e.1]

/-- The same, with what each adds. -/
def insteadAdded (e : Interaction × Added (Option Shown)) :
    List (Interaction × Added (Option Shown)) :=
  if e.1.isLookup then e.2.clause.toList.map fun c => (.declare c, ⟨none, none, some c⟩) else [e]

theorem insteadAdded_fst (e : Interaction × Added (Option Shown)) :
    (insteadAdded e).map Prod.fst = instead e := by
  unfold insteadAdded instead
  split
  · rw [List.map_map]
    rfl
  · rfl

/-- No cell is lost, and none is new. -/
theorem insteadAdded_cells (e : Interaction × Added (Option Shown)) :
    (insteadAdded e).filter (·.1.isCell) = [e].filter (·.1.isCell) := by
  obtain ⟨x, a⟩ := e
  unfold insteadAdded
  split
  next hlookup =>
    have hcell : x.isCell = false := by
      cases x with
      | execute code config => exact congrArg not hlookup
      | inspect code cursorPos => rfl
      | declare clause => rfl
    rw [List.filter_cons_of_neg (by simp [hcell])]
    cases a.clause <;> rfl
  next => rfl

theorem cells_of_instead (read : List (Interaction × Added (Option Shown))) :
    (read.flatMap insteadAdded).filter (·.1.isCell) = read.filter (·.1.isCell) :=
  calc (read.flatMap insteadAdded).filter (·.1.isCell)
      = read.flatMap fun e => [e].filter (·.1.isCell) := by
        rw [List.filter_flatMap, funext insteadAdded_cells]
    _ = (read.flatMap fun e => [e]).filter (·.1.isCell) := List.filter_flatMap.symm
    _ = read.filter (·.1.isCell) := by rw [List.flatMap_singleton']

namespace Surroundings

variable (C : Surroundings I J) {i : I} {disk : Disk} {n : Nat} {x : Interaction}

/-- A cell declares nothing, and what it leaves does not depend on the counter. -/
theorem clause_cell (h : x.isCell = true) : C.clause i disk n x = none := by
  cases x with
  | execute code config =>
      have hno : Preamble.introspection.isMatch code = false := by simpa [Interaction.isCell] using h
      show (Interaction.execute code config).lookedUp.bind _ = none
      rw [Interaction.lookedUp, hno]
      rfl
  | inspect code cursorPos => cases h
  | declare clause => cases h

theorem behind_cell {code : Str} {config : Config}
    (h : (Interaction.execute code config).isCell = true) :
    C.behind i disk n (.execute code config) = C.executed i code disk := by
  unfold behind
  rw [C.clause_cell h]
  exact if_pos h

/-- A lookup leaves what it declared. -/
theorem behind_lookup (h : x.isLookup = true) :
    C.behind i disk n x = ((C.clause i disk n x).map (C.declared i)).getD i := by
  unfold behind
  cases hclause : C.clause i disk n x with
  | some clause => rfl
  | none =>
      cases x with
      | execute code config =>
          have hcell : (Interaction.execute code config).isCell = false := congrArg not h
          exact if_neg (by simp [hcell])
      | inspect code cursorPos => rfl
      | declare clause => rfl

end Surroundings

/-- The machines and what runs outside them, but for the counter. -/
def SameTrace (s t : Plain × I) : Prop := SameButCount s.1 t.1 ∧ s.2 = t.2

theorem lookup_sameButCount (C : Surroundings I J) {p p' : Plain} {i i' : I} {x : Interaction}
    {o : Added (Option Shown)} (hlookup : x.isLookup = true)
    (h : C.plainService (p, i) x = some ((p', i'), o)) : SameButCount p p' := by
  cases x with
  | execute code config =>
      cases h
      rw [serve_of_lookup (r := ⟨C.system i, code, config⟩) hlookup]
      exact ⟨rfl, rfl, rfl⟩
  | inspect code cursorPos =>
      cases h
      exact ⟨rfl, rfl, rfl⟩
  | declare clause => cases hlookup

/-- The bare declaration stands in for the lookup; every other request does what it did. -/
theorem plain_rewrites (C : Surroundings I J) :
    Rewrites C.plainService insteadAdded SameTrace := by
  rintro ⟨p, i⟩ ⟨q, _⟩ x ⟨p', i'⟩ o ⟨hsame, rfl⟩ hstep
  cases hlookup : x.isLookup with
  | true =>
      have hleft := lookup_sameButCount C hlookup hstep
      have hq : SameButCount p' q :=
        sameButCount_equivalence.trans (sameButCount_equivalence.symm hleft) hsame
      have hbehind : i' = ((o.clause).map (C.declared i)).getD i := by
        have hi : i' = C.behind i p.disk p.varCount x ∧ o.clause = C.clause i p.disk p.varCount x := by
          cases x <;> cases hstep <;> exact ⟨rfl, rfl⟩
        rw [hi.1, hi.2]
        exact C.behind_lookup hlookup
      rw [insteadAdded, if_pos hlookup, hbehind]
      cases o.clause with
      | none => exact ⟨(q, i), rfl, hq, rfl⟩
      | some clause => exact ⟨(q, C.declared i clause), rfl, hq, rfl⟩
  | false =>
      rw [insteadAdded, if_neg (by simp [hlookup])]
      cases x with
      | execute code config =>
          have hcell : (Interaction.execute code config).isCell = true := congrArg not hlookup
          obtain ⟨hserve, hshown⟩ := serve_sameButCount (r := ⟨C.system i, code, config⟩) hlookup hsame
          cases hstep
          refine ⟨((q.serve ⟨C.system i, code, config⟩).1, C.executed i code q.disk), ?_, hserve, ?_⟩
          · refine Service.session_cons_eq_some.mpr ⟨_, _, [], ?_, rfl, rfl⟩
            show some (_, _) = some (_, _)
            rw [C.clause_cell hcell, C.clause_cell hcell, C.behind_cell hcell, hshown]
          · show C.behind i p.disk p.varCount _ = C.executed i code q.disk
            rw [C.behind_cell hcell, hsame.1]
      | inspect code cursorPos => cases hlookup
      | declare clause =>
          cases hstep
          exact ⟨(q, C.declared i clause), rfl, hsame, rfl⟩

/-! ## The aliases -/

/-- The clauses that declare the types of the expressions, under the numbers from `n` on. -/
def aliases : Nat → List Str → List Str
  | _, [] => []
  | n, expression :: rest => cStr (Platform.usingClause n expression) :: aliases (n + 1) rest

theorem aliases_append (n : Nat) (xs ys : List Str) :
    aliases n xs ++ aliases (n + xs.length) ys = aliases n (xs ++ ys) := by
  induction xs generalizing n with
  | nil => rfl
  | cons x xs ih =>
      rw [List.length_cons, show n + (xs.length + 1) = n + 1 + xs.length by omega]
      exact congrArg (cStr (Platform.usingClause n x) :: ·) (ih (n + 1))

/-- The clause of a lookup. -/
def alias? {τ : Type} (e : Interaction × Added τ) : List Str :=
  if e.1.isLookup then e.2.clause.toList else []

section

variable {C : Surroundings I J} {p p' : Plain} {i i' : I} {x : Interaction}
  {o : Added (Option Shown)}

theorem clause_of_step (h : C.plainService (p, i) x = some ((p', i'), o)) :
    o.clause = C.clause i p.disk p.varCount x := by
  cases x <;> cases h <;> rfl

theorem clause_lookup (h : x.isLookup = true) (disk : Disk) (n : Nat) :
    C.clause i disk n x =
      x.lookedUp.bind fun text => (C.system i).inspectDeclares disk text n := by
  cases x with
  | execute code config => rfl
  | inspect code cursorPos => rfl
  | declare clause => cases h

/-- A lookup counts what it declares. -/
theorem lookup_count (hlookup : x.isLookup = true)
    (h : C.plainService (p, i) x = some ((p', i'), o)) :
    p'.varCount = p.varCount + o.clause.toList.length := by
  rw [clause_of_step h, clause_lookup hlookup]
  cases x with
  | execute code config =>
      cases h
      have htext : (Interaction.execute code config).lookedUp = some (introspected code) :=
        if_pos hlookup
      rw [htext, serve_of_lookup (r := ⟨C.system i, code, config⟩) hlookup]
      exact Platform.inspect_count _ _ _ _
  | inspect code cursorPos =>
      cases h
      show ((C.system i).inspectRequest p.disk code cursorPos p.varCount).2 =
        p.varCount + ((requested code cursorPos).bind _).toList.length
      unfold Platform.inspectRequest
      cases requested code cursorPos with
      | none => rfl
      | some text => exact Platform.inspect_count _ _ _ _
  | declare clause => cases hlookup

theorem other_count (hlookup : x.isLookup = false)
    (h : C.plainService (p, i) x = some ((p', i'), o)) : p'.varCount = p.varCount := by
  cases x with
  | execute code config =>
      cases h
      exact congrArg (Plain.varCount ∘ Prod.fst)
        (serve_of_not_lookup (r := ⟨C.system i, code, config⟩) hlookup p p.varCount)
  | inspect code cursorPos => cases hlookup
  | declare clause =>
      cases h
      rfl

/-- One request declares at most one alias, under the number the counter has, and counts it. -/
theorem step_aliases (h : C.plainService (p, i) x = some ((p', i'), o)) :
    ∃ expressions, alias? (x, o) = aliases p.varCount expressions ∧
      p'.varCount = p.varCount + expressions.length := by
  cases hlookup : x.isLookup with
  | false => exact ⟨[], if_neg (by simp [hlookup]), other_count hlookup h⟩
  | true =>
      have halias : alias? (x, o) = o.clause.toList := if_pos hlookup
      rw [halias, lookup_count hlookup h]
      cases hclause : o.clause with
      | none => exact ⟨[], rfl, rfl⟩
      | some clause =>
          rw [clause_of_step h, clause_lookup hlookup] at hclause
          obtain ⟨text, -, htext⟩ := Option.bind_eq_some_iff.mp hclause
          obtain ⟨expression, rfl⟩ := Platform.inspectDeclares_eq_some htext
          exact ⟨[expression], rfl, rfl⟩

end

theorem session_aliases (C : Surroundings I J) {s s' : Plain × I} {xs : List Interaction}
    {read : List (Interaction × Added (Option Shown))}
    (h : C.plainService.session s xs = some (s', read)) :
    ∃ expressions, read.flatMap alias? = aliases s.1.varCount expressions := by
  induction xs generalizing s read with
  | nil =>
      cases h
      exact ⟨[], rfl⟩
  | cons x xs ih =>
      obtain ⟨t, o, rest, hstep, hrest, rfl⟩ := Service.session_cons_eq_some.mp h
      obtain ⟨here, hhere, hcount⟩ := step_aliases hstep
      obtain ⟨there, hthere⟩ := ih hrest
      refine ⟨here ++ there, ?_⟩
      rw [List.flatMap_cons, hhere, hthere, hcount]
      exact aliases_append _ _ _

/-! ## The kernel -/

/-- A frontend shows the same with what two requests added, and both replies are the same. -/
def SameShown (o o' : Added (List Event)) : Prop := ∃ a, ReadAs o a ∧ ReadAs o' a

/-- What the kernel does is what the machine does. -/
theorem exists_kernel_session (C : Surroundings I J) {s : Kernel × I} {t t' : Plain × I}
    (h : StandsFor s t) {xs : List Interaction} {read : List (Interaction × Added (Option Shown))}
    (hread : C.plainService.session t xs = some (t', read)) :
    ∃ s' log, C.kernelService.session s xs = some (s', log) ∧ StandsFor s' t' ∧
      LogsMatch ReadAs log read := by
  obtain ⟨⟨s', log⟩, hsession, hstands, hlogs⟩ :=
    exists_of_rel_right (Refines.session (kernel_refines C) h xs) hread
  exact ⟨s', log, hsession, hstands, hlogs⟩

end XeusCpp.Interpreter
