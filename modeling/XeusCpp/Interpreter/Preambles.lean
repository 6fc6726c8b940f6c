/-
# XeusCpp.Interpreter.Preambles — `xpreamble_manager`, and which preamble a cell goes to.

The preambles of a kernel are the entries of a `std::map` with names as keys, so `execute_request_impl`
walks through them in the order of their names. Entries are registered, which replaces what is there,
erased, and made by `operator[]`, which leaves an empty holder under a new name; an empty holder
matches nothing.

`dispatch_iff` says which entry takes a cell, from the operations alone, and `taken_iff` that for the
three preambles of the kernel neither names nor the order of registration matter: no cell is matched
by two of them. So the loop over the holders that the constructor leaves on the heap is the one of
`executeBody`, over a list of three (`executeBody_eq_loop`).
-/
import XeusCpp.Logic.History
import XeusCpp.Interpreter.Delivered
import XeusCpp.Interpreter.Holder
import Std.Data.ExtTreeMap

namespace XeusCpp.Interpreter

open Text Host Magics Regex Logic

/-! ## The manager -/

/-- `std::map<std::string, xholder_preamble>`, where an empty holder is `none`. -/
abbrev PreambleManager (V : Type) := Std.ExtTreeMap Str (Option V)

namespace PreambleManager

variable {V : Type} (m : PreambleManager V) (name : Str)

/-- `register_preamble` -/
def registerPreamble (pre : V) : PreambleManager V := m.insert name (some pre)

/-- `unregister_preamble` -/
def unregisterPreamble : PreambleManager V := m.erase name

/-- `operator[]`, with what the entry holds. -/
def subscript : Option V × PreambleManager V :=
  match m[name]? with
  | some holder => (holder, m)
  | none => (none, m.insert name none)

/-- The loop of `execute_request_impl`: the first entry that matches, by its name and what it
holds. -/
def dispatch (isMatch : V → Str → Bool) (code : Str) : Option (Str × V) :=
  m.toList.findSome? fun pre =>
    match pre.2 with
    | some v => if isMatch v code then some (pre.1, v) else none
    | none => none

end PreambleManager

/-- An operation on the manager. -/
inductive PreambleOp (V : Type)
  | register (name : Str) (pre : V)
  | unregister (name : Str)
  | subscript (name : Str)

namespace PreambleOp

variable {V : Type}

def perform (m : PreambleManager V) : PreambleOp V → PreambleManager V
  | register name pre => m.registerPreamble name pre
  | unregister name => m.unregisterPreamble name
  | subscript name => (m.subscript name).2

/-- `subscript` never changes what is registered. -/
def Touches (name : Str) : PreambleOp V → Prop
  | register n _ => n = name
  | unregister n => n = name
  | subscript _ => False

/-- `pre` was registered under the name, and nothing was done to that since. -/
def Registered (ops : List (PreambleOp V)) (name : Str) (pre : V) : Prop :=
  Stands (· = register name pre) (Touches name) ops

end PreambleOp

/-! ## The holders of the map -/

section

/-- The holders `register_preamble` works on: the entries, and the temporary it makes of `pre`. -/
inductive Slot
  | entry (name : Str)
  | temporary
deriving DecidableEq

variable {V R : Type}

namespace PreambleManager

def holders (m : PreambleManager V) : Holder.Holders Slot V
  | .entry name => m[name]?
  | .temporary => none

/-- `preamble[name] = xholder_preamble(std::move(pre))`; the right side comes first. -/
def registerCalls (m : PreambleManager V) (name : Str) (pre : V) : List (Holder.Call Slot V R) :=
  .pointer .temporary (some pre) :: ((if m[name]? = none then [.default (.entry name)] else []) ++
    [.assignMove (.entry name) .temporary, .destroy .temporary])

theorem holders_insert (m : PreambleManager V) (name : Str) (holder : Option V) :
    holders (m.insert name holder) = Function.update m.holders (.entry name) (some holder) := by
  funext slot
  cases slot with
  | temporary => rfl
  | entry n =>
      show (m.insert name holder)[n]? = _
      rw [Std.ExtTreeMap.getElem?_insert]
      by_cases hname : name = n
      · subst hname
        simp
      · have hne : Slot.entry n ≠ Slot.entry name := fun h => hname (Slot.entry.inj h).symm
        simp [hname, Function.update_of_ne hne, holders]

/-- The assignment, and the end of the temporary. -/
theorem assign_meaning (cls : XPreamble V R) {t : Holder.Holders Slot V} {name : Str} {pre : V}
    {holder : Option V} (hentry : t (.entry name) = some holder)
    (htemporary : t .temporary = some (some pre)) :
    Service.session (Holder.meaning cls) t
        [.assignMove (.entry name) .temporary, .destroy .temporary] =
      some (Function.update (Function.update t (.entry name) (some (some pre))) .temporary none,
        [(.assignMove (.entry name) .temporary, .nothing), (.destroy .temporary, .nothing)]) := by
  simp only [Service.session_cons, Service.session_nil, Holder.meaning, Store.assign, hentry,
    htemporary, Option.map_some, Option.bind_some, Store.destroy, ne_eq, reduceCtorEq,
    not_false_eq_true, Function.update_of_ne, Function.update_self]
  rw [Function.update_comm (by simp), Function.update_idem, Function.update_comm (by simp)]

/-- The calls of `register_preamble` do to the holders of the map what it does to the map. -/
theorem register_meaning (cls : XPreamble V R) (m : PreambleManager V) (name : Str) (pre : V) :
    ∃ log, Service.session (Holder.meaning cls) m.holders (m.registerCalls name pre) =
      some ((m.registerPreamble name pre).holders, log) := by
  have hname : m.holders (.entry name) = m[name]? := rfl
  -- whatever the entry was, it has `pre` then, and the temporary is gone
  have hgone : ∀ s : Holder.Holders Slot V, (∀ n, n ≠ name → s (.entry n) = m[n]?) →
      Function.update (Function.update s (.entry name) (some (some pre))) .temporary none =
        (m.registerPreamble name pre).holders := by
    intro s hs
    rw [registerPreamble, holders_insert]
    funext slot
    cases slot with
    | temporary => rfl
    | entry n =>
        by_cases hn : n = name
        · subst hn
          simp
        · simp [hn, hs n hn, holders]
  have hnew : Holder.meaning cls m.holders (.pointer .temporary (some pre)) =
      some (Function.update m.holders .temporary (some (some pre)), .nothing) := rfl
  unfold registerCalls
  rw [Service.session_cons, hnew, Option.bind_some]
  rcases hentry : m[name]? with _ | holder
  · have hdefault : Holder.meaning cls (Function.update m.holders .temporary (some (some pre)))
        (.default (.entry name)) = some (Function.update (Function.update m.holders .temporary
          (some (some pre))) (.entry name) (some none), .nothing) := by
      simp [Holder.meaning, Holder.Holders.create, hname, hentry]
    rw [if_pos rfl, List.singleton_append, Service.session_cons, hdefault, Option.bind_some,
      assign_meaning cls (Function.update_self _ _ _) rfl, hgone]
    · exact ⟨_, rfl⟩
    · intro n hn
      simp [hn, holders]
  · have hheld : Function.update m.holders .temporary (some (some pre)) (.entry name) = m[name]? :=
      rfl
    rw [if_neg (by simp), List.nil_append, assign_meaning cls (hheld.trans hentry) rfl, hgone]
    · exact ⟨_, rfl⟩
    · intro n hn
      rfl

/-- The calls an operation makes. -/
def calls (m : PreambleManager V) : PreambleOp V → List (Holder.Call Slot V R)
  | .register name pre => m.registerCalls name pre
  | .unregister name => if m[name]? = none then [] else [.destroy (.entry name)]
  | .subscript name => if m[name]? = none then [.default (.entry name)] else []

/-- The calls of the operations, each on the map the ones before it leave. -/
def runCalls : PreambleManager V → List (PreambleOp V) → List (Holder.Call Slot V R)
  | _, [] => []
  | m, op :: ops => m.calls op ++ runCalls (op.perform m) ops

theorem holders_erase (m : PreambleManager V) (name : Str) :
    holders (m.erase name) = Function.update m.holders (.entry name) none := by
  funext slot
  cases slot with
  | temporary => rfl
  | entry n =>
      show (m.erase name)[n]? = _
      rw [Std.ExtTreeMap.getElem?_erase]
      by_cases hname : name = n
      · subst hname
        simp
      · have hne : Slot.entry n ≠ Slot.entry name := fun h => hname (Slot.entry.inj h).symm
        simp [hname, Function.update_of_ne hne, holders]

/-- **An operation does to the map what its calls are for.** -/
theorem calls_meaning (cls : XPreamble V R) (m : PreambleManager V) (op : PreambleOp V) :
    ∃ log, Service.session (Holder.meaning cls) m.holders (m.calls op) =
      some ((op.perform m).holders, log) := by
  cases op with
  | register name pre => exact register_meaning cls m name pre
  | unregister name =>
      show ∃ log, _ = some (holders (m.erase name), log)
      rw [holders_erase]
      rcases hentry : m[name]? with _ | holder
      · have hcalls : m.calls (R := R) (.unregister name) = [] := if_pos hentry
        rw [hcalls, Function.update_eq_self_iff.mpr hentry.symm]
        exact ⟨[], rfl⟩
      · have hcalls : m.calls (R := R) (.unregister name) = [.destroy (.entry name)] :=
          if_neg (by simp [hentry])
        have hdestroy : Holder.meaning cls m.holders (.destroy (.entry name)) =
            some (Function.update m.holders (.entry name) none, .nothing) := by
          rw [Holder.meaning, Store.destroy, show m.holders (.entry name) = some holder from hentry]
          rfl
        exact ⟨_, by rw [hcalls, Service.session_cons, hdestroy]; rfl⟩
  | subscript name =>
      show ∃ log, _ = some (holders (m.subscript name).2, log)
      unfold subscript
      rcases hentry : m[name]? with _ | holder
      · have hcalls : m.calls (R := R) (.subscript name) = [.default (.entry name)] := if_pos hentry
        have hcreate : Holder.meaning cls m.holders (.default (.entry name)) =
            some (Function.update m.holders (.entry name) (some none), .nothing) := by
          rw [Holder.meaning, Holder.Holders.create, show m.holders (.entry name) = none from hentry]
          rfl
        exact ⟨_, by rw [hcalls, Service.session_cons, hcreate, holders_insert]; rfl⟩
      · have hcalls : m.calls (R := R) (.subscript name) = [] := if_neg (by simp [hentry])
        exact ⟨[], by rw [hcalls]; rfl⟩

theorem runCalls_meaning (cls : XPreamble V R) (ops : List (PreambleOp V))
    (m : PreambleManager V) : ∃ log, Service.session (Holder.meaning cls) m.holders
      (m.runCalls ops) = some ((ops.foldl PreambleOp.perform m).holders, log) := by
  induction ops generalizing m with
  | nil => exact ⟨[], rfl⟩
  | cons op ops ih =>
      obtain ⟨log, hop⟩ := calls_meaning cls m op
      obtain ⟨log', hops⟩ := ih (op.perform m)
      exact ⟨log ++ log', Service.session_append hop hops⟩

/-- The operations, run on the heap of the pointers, leave the holders of the map there. -/
theorem exists_heap (cls : XPreamble V R) (ops : List (PreambleOp V)) :
    ∃ memory log, Service.session (Holder.call cls) Heap.empty
        ((∅ : PreambleManager V).runCalls ops) = some (memory, log) ∧
      Holder.Holds memory (ops.foldl PreambleOp.perform ∅ : PreambleManager V).holders := by
  have hempty : (∅ : PreambleManager V).holders = fun _ => none := by
    funext slot
    cases slot with
    | entry name => exact Std.ExtTreeMap.getElem?_empty
    | temporary => rfl
  obtain ⟨log, hmeaning⟩ := runCalls_meaning cls ops ∅
  rw [hempty] at hmeaning
  obtain ⟨⟨memory, log'⟩, hcalls, hholds, -⟩ := exists_of_rel_right
    (Refines.session (Holder.call_refines cls) Holder.holds_empty _) hmeaning
  exact ⟨memory, log', hcalls, hholds⟩

/-- The loop of `execute_request_impl`, through the pointers: the object that matches first. -/
def firstMatch (cls : XPreamble V R) (names : List Str) (memory : Holder.Memory Slot V)
    (code : Str) : Option V :=
  names.findSome? fun name =>
    match memory.get (.holder (.entry name)) with
    | some (some v) => if cls.isMatch v code then some v else none
    | _ => none

theorem firstMatch_eq (cls : XPreamble V R) {m : PreambleManager V}
    {memory : Holder.Memory Slot V} (h : Holder.Holds memory m.holders) (code : Str) :
    firstMatch cls m.keys memory code = (m.dispatch cls.isMatch code).map Prod.snd := by
  unfold firstMatch dispatch
  rw [← Std.ExtTreeMap.map_fst_toList_eq_keys, List.findSome?_map, List.map_findSome?,
    ← List.head?_filterMap, ← List.head?_filterMap]
  refine congrArg List.head? (List.filterMap_congr fun pre hpre => ?_)
  obtain ⟨name, holder⟩ := pre
  have hentry : memory.get (.holder (.entry name)) = some holder :=
    (h.get _).trans (Std.ExtTreeMap.mem_toList_iff_getElem?_eq_some.mp hpre)
  dsimp only [Function.comp_apply]
  rw [hentry]
  rcases holder with _ | v
  · rfl
  · dsimp only
    split <;> rfl

end PreambleManager

end

/-! ## The first entry that matches -/

section

variable {V : Type} {m : PreambleManager V} {isMatch : V → Str → Bool} {code name : Str} {v : V}

/-- Of a list in order, the first find is the least. -/
theorem findSome?_eq_some_iff_of_pairwise {α β : Type} {R : α → α → Prop} {f : α → Option β}
    {xs : List α} (hxs : xs.Pairwise R) (hR : ∀ {x y}, R x y → R y x → False) {b : β} :
    xs.findSome? f = some b ↔ ∃ x ∈ xs, f x = some b ∧ ∀ y ∈ xs, R y x → f y = none := by
  induction xs with
  | nil => simp
  | cons x xs ih =>
      obtain ⟨hx, hxs⟩ := List.pairwise_cons.mp hxs
      rw [List.findSome?_cons]
      cases hfx : f x with
      | some c =>
          constructor
          · intro h
            refine ⟨x, List.mem_cons_self, hfx.trans h, fun y hy hyx => ?_⟩
            -- nothing is before the first entry
            rcases List.mem_cons.mp hy with rfl | hy
            · exact (hR hyx hyx).elim
            · exact (hR (hx y hy) hyx).elim
          · rintro ⟨y, hy, hfy, hleast⟩
            rcases List.mem_cons.mp hy with rfl | hy
            · exact hfx.symm.trans hfy
            · have hnone := hleast x List.mem_cons_self (hx y hy)
              rw [hfx] at hnone
              cases hnone
      | none =>
          rw [ih hxs]
          constructor
          · rintro ⟨y, hy, hfy, hleast⟩
            refine ⟨y, List.mem_cons_of_mem x hy, hfy, fun z hz hzy => ?_⟩
            rcases List.mem_cons.mp hz with rfl | hz
            · exact hfx
            · exact hleast z hz hzy
          · rintro ⟨y, hy, hfy, hleast⟩
            rcases List.mem_cons.mp hy with rfl | hy
            · rw [hfx] at hfy
              cases hfy
            · exact ⟨y, hy, hfy, fun z hz => hleast z (List.mem_cons_of_mem x hz)⟩

theorem compare_asymm {a b : Str} (hab : compare a b = .lt) (hba : compare b a = .lt) : False := by
  have hswap : compare b a = (compare a b).swap := Std.OrientedCmp.eq_swap
  rw [hswap, hab] at hba
  cases hba

/-- The entry that takes a cell is the least that holds a preamble which matches. -/
theorem dispatch_eq_some_iff : m.dispatch isMatch code = some (name, v) ↔
    m[name]? = some (some v) ∧ isMatch v code = true ∧
      ∀ n u, compare n name = .lt → m[n]? = some (some u) → isMatch u code = false := by
  unfold PreambleManager.dispatch
  rw [findSome?_eq_some_iff_of_pairwise m.ordered_keys_toList compare_asymm]
  constructor
  · rintro ⟨⟨n, holder⟩, hmem, hfind, hleast⟩
    rcases holder with _ | u
    · cases hfind
    · dsimp only at hfind
      by_cases hu : isMatch u code = true
      · rw [if_pos hu] at hfind
        cases hfind
        refine ⟨Std.ExtTreeMap.mem_toList_iff_getElem?_eq_some.mp hmem, hu, fun n' u' hlt hget => ?_⟩
        have hnone := hleast (n', some u') (Std.ExtTreeMap.mem_toList_iff_getElem?_eq_some.mpr hget) hlt
        simpa using hnone
      · rw [if_neg hu] at hfind
        cases hfind
  · rintro ⟨hget, hv, hleast⟩
    refine ⟨(name, some v), Std.ExtTreeMap.mem_toList_iff_getElem?_eq_some.mpr hget, if_pos hv, ?_⟩
    rintro ⟨n, holder⟩ hmem hlt
    rcases holder with _ | u
    · rfl
    · have hu := hleast n u hlt (Std.ExtTreeMap.mem_toList_iff_getElem?_eq_some.mp hmem)
      simp [hu]

/-- A cell that some preamble matches is taken. -/
theorem exists_dispatch (hget : m[name]? = some (some v)) (hv : isMatch v code = true) :
    ∃ n u, m.dispatch isMatch code = some (n, u) := by
  have hmem : (name, some v) ∈ m.toList := Std.ExtTreeMap.mem_toList_iff_getElem?_eq_some.mpr hget
  rcases h : m.dispatch isMatch code with _ | ⟨n, u⟩
  · have hnone := List.findSome?_eq_none_iff.mp h _ hmem
    simp [hv] at hnone
  · exact ⟨n, u, rfl⟩

/-! ## Runs of operations -/

/-- The manager holds what is registered. -/
def Tracks (m : PreambleManager V) (ops : List (PreambleOp V)) : Prop :=
  ∀ name v, m[name]? = some (some v) ↔ PreambleOp.Registered ops name v

theorem tracks_empty : Tracks (∅ : PreambleManager V) [] := by
  intro name v
  rw [Std.ExtTreeMap.getElem?_empty]
  exact iff_of_false (by simp) not_stands_nil

/-- One operation keeps it. -/
theorem Tracks.perform {ops : List (PreambleOp V)} (h : Tracks m ops) (op : PreambleOp V) :
    Tracks (op.perform m) (ops ++ [op]) := by
  intro n u
  rw [PreambleOp.Registered, stands_concat]
  change _ ↔ _ ∨ _ ∧ PreambleOp.Registered ops n u
  rw [← h n u]
  cases op with
  | register name pre =>
      show (m.insert name (some pre))[n]? = _ ↔ _
      rw [Std.ExtTreeMap.getElem?_insert]
      by_cases hname : name = n
      · subst hname
        simp [PreambleOp.Touches]
      · simp [PreambleOp.Touches, hname]
  | unregister name =>
      show (m.erase name)[n]? = _ ↔ _
      rw [Std.ExtTreeMap.getElem?_erase]
      by_cases hname : name = n
      · subst hname
        simp [PreambleOp.Touches]
      · simp [PreambleOp.Touches, hname]
  | subscript name =>
      have hget : (m.subscript name).2[n]? = some (some u) ↔ m[n]? = some (some u) := by
        unfold PreambleManager.subscript
        split
        next => rfl
        next hnone =>
          rw [Std.ExtTreeMap.getElem?_insert]
          by_cases hname : name = n
          · subst hname
            simp [hnone]
          · simp [hname]
      show (m.subscript name).2[n]? = some (some u) ↔ _
      rw [hget]
      simp [PreambleOp.Touches]

theorem tracks_run (ops : List (PreambleOp V)) : Tracks (ops.foldl PreambleOp.perform ∅) ops :=
  foldl_history (I := Tracks) (fun op h => h.perform op) tracks_empty ops

/-- **Which preamble takes a cell**, after any operations: the one registered under the least name of
those that match. -/
theorem dispatch_iff (isMatch : V → Str → Bool) (ops : List (PreambleOp V)) (code name : Str)
    (v : V) : (ops.foldl PreambleOp.perform ∅ : PreambleManager V).dispatch isMatch code =
        some (name, v) ↔
      PreambleOp.Registered ops name v ∧ isMatch v code = true ∧
        ∀ n u, compare n name = .lt → PreambleOp.Registered ops n u → isMatch u code = false := by
  rw [dispatch_eq_some_iff, tracks_run ops name v]
  simp only [tracks_run ops _ _]

end

/-! ## The preambles of the kernel -/

theorem isMatch_shell (code : Str) :
    Preamble.shell.isMatch code = true ↔ code.head? = some ('!' : Char) :=
  isSome_search_char _ code

/-- A magic is named behind a percent sign. -/
theorem head_of_isMatch_magics {code : Str} (h : Preamble.magics.isMatch code = true) :
    code.head? = some ('%' : Char) := by
  obtain ⟨mt, hmt⟩ := Option.isSome_iff_exists.mp h
  by_contra hhead
  have hpercent (k : Cursor → Option Match) : percent.exec k ⟨0, code, []⟩ = none :=
    exec_char_none hhead
  have hnone : search Magics.pattern code = none := by
    rw [Magics.pattern, search_bos, matchAt, exec_seq, exec_alt_right]
    · exact hpercent _
    · rw [exec_seq]
      exact hpercent _
  have hsome : search Magics.pattern code = some mt := hmt
  rw [hnone] at hsome
  cases hsome

/-- The first byte of a cell that a preamble matches. -/
def Preamble.sign : Preamble → Byte
  | introspection => ('?' : Char)
  | magics => ('%' : Char)
  | shell => ('!' : Char)

theorem head_of_isMatch {pre : Preamble} {code : Str} (h : pre.isMatch code = true) :
    code.head? = some pre.sign := by
  cases pre with
  | introspection => exact (isMatch_introspection code).mp h
  | magics => exact head_of_isMatch_magics h
  | shell => exact (isMatch_shell code).mp h

theorem sign_injective {p q : Preamble} (h : p.sign = q.sign) : p = q := by
  revert h
  cases p <;> cases q <;> decide

/-- No cell is matched by two preambles. -/
theorem isMatch_unique {p q : Preamble} {code : Str} (hp : p.isMatch code = true)
    (hq : q.isMatch code = true) : p = q :=
  sign_injective (Option.some.inj ((head_of_isMatch hp).symm.trans (head_of_isMatch hq)))

/-- **The names do not matter**: after any operations a cell goes to a preamble exactly when that
matches and is registered, under whatever names. -/
theorem taken_iff (ops : List (PreambleOp Preamble)) (code : Str) (pre : Preamble) :
    (∃ name, (ops.foldl PreambleOp.perform ∅ : PreambleManager Preamble).dispatch Preamble.isMatch
      code = some (name, pre)) ↔
      pre.isMatch code = true ∧ ∃ name, PreambleOp.Registered ops name pre := by
  constructor
  · rintro ⟨name, h⟩
    obtain ⟨hreg, hmatch, -⟩ := (dispatch_iff _ ops code name pre).mp h
    exact ⟨hmatch, name, hreg⟩
  · rintro ⟨hmatch, name, hreg⟩
    obtain ⟨n, u, h⟩ := exists_dispatch ((tracks_run ops name pre).mpr hreg) hmatch
    obtain ⟨-, hu, -⟩ := (dispatch_iff _ ops code n u).mp h
    exact ⟨n, isMatch_unique hu hmatch ▸ h⟩

/-- `interpreter::init_preamble`, and what `init_magic` does to the manager. -/
def initPreamble : List (PreambleOp Preamble) :=
  [.register (lit "introspection") .introspection, .register (lit "magics") .magics,
    .register (lit "shell") .shell, .subscript (lit "magics")]

/-- Whenever all three are registered a request takes its preamble as after `init_preamble`. -/
theorem dispatch_eq_find {ops : List (PreambleOp Preamble)}
    (h : ∀ pre, ∃ name, PreambleOp.Registered ops name pre) (code : Str) :
    ((ops.foldl PreambleOp.perform ∅ : PreambleManager Preamble).dispatch Preamble.isMatch code).map
      Prod.snd = Preamble.all.find? (·.isMatch code) := by
  have htaken := taken_iff ops code
  rcases hd : (ops.foldl PreambleOp.perform ∅ : PreambleManager Preamble).dispatch
    Preamble.isMatch code with _ | ⟨name, pre⟩
  · refine (List.find?_eq_none.mpr fun pre _ hpre => ?_).symm
    obtain ⟨name, hname⟩ := (htaken pre).mpr ⟨hpre, h pre⟩
    rw [hd] at hname
    cases hname
  · obtain ⟨hmatch, -⟩ := (htaken pre).mp ⟨name, hd⟩
    rcases hfind : Preamble.all.find? (·.isMatch code) with _ | q
    · have hmem : pre ∈ Preamble.all := by cases pre <;> simp [Preamble.all]
      exact absurd hmatch (List.find?_eq_none.mp hfind pre hmem)
    · have hq : q.isMatch code = true :=
        List.find?_some (p := fun pre : Preamble => pre.isMatch code) hfind
      rw [hfind, Option.map_some, isMatch_unique hmatch hq]

theorem registered_initPreamble (pre : Preamble) :
    ∃ name, PreambleOp.Registered initPreamble name pre := by
  cases pre with
  | introspection => exact ⟨_, [], _, _, rfl, rfl, by simp [PreambleOp.Touches]; decide⟩
  | magics => exact ⟨_, [_], _, _, rfl, rfl, by simp [PreambleOp.Touches]; decide⟩
  | shell => exact ⟨_, [_, _], _, _, rfl, rfl, by simp [PreambleOp.Touches]⟩

/-- The objects of the three classes, to be cloned and matched; `apply` is `preambleApply`. -/
def preambles : XPreamble Preamble Unit := ⟨id, Preamble.isMatch, fun pre _ r => (pre, r)⟩

/-- **`executeBody` is the loop over the manager**: the calls of the constructor leave holders on the
heap, and what matches first among them, in the order of the names, is what a request goes to. -/
theorem executeBody_eq_loop {J : Type} (sys : System J) :
    ∃ memory log, Service.session (Holder.call preambles) Heap.empty
        ((∅ : PreambleManager Preamble).runCalls initPreamble) = some (memory, log) ∧
      ∀ code config k, sys.executeBody code config k =
        match PreambleManager.firstMatch preambles
            (initPreamble.foldl PreambleOp.perform ∅ : PreambleManager Preamble).keys memory code with
        | some pre =>
            match sys.preambleApply pre code k with
            | (.ok res, k) => (.returned, k.emit (.reply res))
            | (.error e, k) => (.threw e, k)
        | none => (.returned, sys.compile code config k) := by
  obtain ⟨memory, log, hcalls, hholds⟩ := PreambleManager.exists_heap preambles initPreamble
  refine ⟨memory, log, hcalls, fun code config k => ?_⟩
  rw [PreambleManager.firstMatch_eq preambles hholds,
    show preambles.isMatch = Preamble.isMatch from rfl, dispatch_eq_find registered_initPreamble]
  rfl

end XeusCpp.Interpreter
