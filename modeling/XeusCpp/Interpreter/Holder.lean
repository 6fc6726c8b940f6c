/-
# XeusCpp.Interpreter.Holder — `xholder_preamble`, a preamble that is copied like a value.

A holder has one member, a `std::unique_ptr` to an object of some class derived from `xpreamble`. The
functions of `xholder.cpp` are programs over such pointers: of the holders, of the parameter and the
local variable `tmp` the assignments have, and of the temporary a copy is made through.

What they are for is said without pointers: a holder is empty or has a preamble, a copy has a copy,
and what is moved from is empty. `holders_refine` says that any use of the holders does on the heap
what it does so: no call of it follows a pointer to nothing or deletes an object twice, and behind
it every object is owned by one holder.
-/
import XeusCpp.Logic.Session
import XeusCpp.Logic.Ownership
import XeusCpp.Text.Bytes

namespace XeusCpp.Interpreter

open Text Logic

universe u v w

/-- The virtual functions of a preamble; `apply` leaves the object it is called on, and what it was
given by reference. -/
structure XPreamble (V : Type u) (R : Type v) where
  clone : V → V
  isMatch : V → Str → Bool
  apply : V → Str → R → V × R

namespace Holder

/-- The pointers a function of the class works on: those of the holders, its parameter, its local
variable and a temporary. -/
inductive Place (ι : Type w)
  | holder (i : ι)
  | argument
  | tmp
  | temporary
deriving DecidableEq

/-- A call of a function of the class. -/
inductive Call (ι : Type w) (V : Type u) (R : Type v)
  /-- `xholder_preamble()` -/
  | default (j : ι)
  /-- `xholder_preamble(std::unique_ptr<xpreamble>)`, of a new object or of the null pointer -/
  | pointer (j : ι) (o : Option V)
  /-- `xholder_preamble(const xholder_preamble&)` -/
  | copy (j i : ι)
  /-- `xholder_preamble(xholder_preamble&&)` -/
  | move (j i : ι)
  /-- `operator=(const xholder_preamble&)` -/
  | assignCopy (j i : ι)
  /-- `operator=(xholder_preamble&&)` -/
  | assignMove (j i : ι)
  /-- `operator=(std::unique_ptr<xpreamble>)`, of a new object or of the null pointer -/
  | assignPointer (j : ι) (o : Option V)
  | swap (j i : ι)
  | apply (j : ι) (s : Str) (r : R)
  | isMatch (j : ι) (s : Str)
  /-- `get_cast<D>()`, and a call of `f` on the object it refers to -/
  | getCast (j : ι) (isD : V → Bool) (f : V → V)
  /-- `~xholder_preamble()` -/
  | destroy (j : ι)

inductive Answer (R : Type v)
  | nothing
  | result (r : R)
  | matches (b : Bool)
  /-- `std::bad_cast` -/
  | badCast

section

variable {ι : Type w} [DecidableEq ι] {V : Type u} {R : Type v} (cls : XPreamble V R)

/-! ## The functions of the class -/

/-- `p_holder(rhs.p_holder ? std::move(rhs.p_holder->clone()) : nullptr)` -/
def copyInto (p : Place ι) (rhs : Option V) : List (Command (Place ι) V) :=
  match rhs with
  | some v => [.emplace .temporary (cls.clone v), .move p .temporary, .destroy .temporary]
  | none => [.declare p]

/-- The parameter of a call that takes a pointer. -/
def passed (o : Option V) : Command (Place ι) V :=
  match o with
  | some v => .emplace .argument v
  | none => .declare .argument

/-- `p_holder(std::move(rhs.p_holder))`, and `rhs.p_holder = nullptr` -/
def moveInto (p q : Place ι) : List (Command (Place ι) V) := [.move p q, .reset q]

/-- `swap(tmp)`, and the end of the function. -/
def swapTmp (j : ι) : List (Command (Place ι) V) := [.swap (.holder j) .tmp, .destroy .tmp]

abbrev Memory (ι : Type w) (V : Type u) := Heap (Place ι) V

def call (m : Memory ι V) : Call ι V R → Option (Memory ι V × Answer R)
  | .default j => (m.run [.declare (.holder j)]).map (·, .nothing)
  | .pointer j o =>
      (m.run [passed o, .move (.holder j) .argument, .destroy .argument]).map (·, .nothing)
  | .copy j i =>
      (m.get (.holder i)).bind fun rhs => (m.run (copyInto cls (.holder j) rhs)).map (·, .nothing)
  | .move j i => (m.run (moveInto (.holder j) (.holder i))).map (·, .nothing)
  | .assignCopy j i =>
      (m.get (.holder i)).bind fun rhs =>
        (m.run (copyInto cls .tmp rhs ++ swapTmp j)).map (·, .nothing)
  | .assignMove j i => (m.run (moveInto .tmp (.holder i) ++ swapTmp j)).map (·, .nothing)
  | .assignPointer j o =>
      (m.run [passed o, .assign (.holder j) .argument, .destroy .argument]).map (·, .nothing)
  | .swap j i => (m.run [.swap (.holder j) (.holder i)]).map (·, .nothing)
  | .apply j s r =>
      (m.get (.holder j)).bind fun
        | some v =>
            (m.run [.modify (.holder j) fun v => (cls.apply v s r).1]).map
              (·, .result (cls.apply v s r).2)
        | none => some (m, .result r)
  | .isMatch j s =>
      (m.get (.holder j)).bind fun
        | some v => some (m, .matches (cls.isMatch v s))
        | none => some (m, .matches false)
  | .getCast j isD f =>
      (m.get (.holder j)).bind fun
        | some v => if isD v then (m.run [.modify (.holder j) f]).map (·, .nothing)
            else some (m, .badCast)
        -- the null pointer is followed
        | none => none
  | .destroy j => (m.run [.destroy (.holder j)]).map (·, .nothing)

/-! ## What they are for -/

/-- The holders of a program with what they hold. -/
abbrev Holders (ι : Type w) (V : Type u) := Store ι V

/-- A new holder of `o`. -/
def Holders.create (s : Holders ι V) (j : ι) (o : Option V) : Option (Holders ι V) :=
  match s j with
  | none => some (Function.update s j (some o))
  | some _ => none

/-- A holder holds `o` now. -/
def Holders.set (s : Holders ι V) (j : ι) (o : Option V) : Option (Holders ι V) :=
  (s j).map fun _ => Function.update s j (some o)

/-- What a call is for. A move from a holder to itself leaves it as it is. -/
def meaning (s : Holders ι V) : Call ι V R → Option (Holders ι V × Answer R)
  | .default j => (s.create j none).map (·, .nothing)
  | .pointer j o => (s.create j o).map (·, .nothing)
  | .copy j i => (s i).bind fun o => (s.create j (o.map cls.clone)).map (·, .nothing)
  | .move j i => (s.move j i).map (·, .nothing)
  | .assignCopy j i => (s i).bind fun o => (s.set j (o.map cls.clone)).map (·, .nothing)
  | .assignMove j i => (s.assign j i).map (·, .nothing)
  | .assignPointer j o => (s.set j o).map (·, .nothing)
  | .swap j i => (s.swap j i).map (·, .nothing)
  | .apply j text r =>
      (s j).bind fun
        | some v => (s.set j (some (cls.apply v text r).1)).map
            (·, .result (cls.apply v text r).2)
        | none => some (s, .result r)
  | .isMatch j text => (s j).map fun o => (s, .matches (o.any (cls.isMatch · text)))
  | .getCast j isD f =>
      (s j).bind fun
        | some v => if isD v then (s.set j (some (f v))).map (·, .nothing) else some (s, .badCast)
        | none => none
  | .destroy j => (s.destroy j).map (·, .nothing)

/-! ## The memory behind the holders -/

/-- The pointers between two calls: only those of holders are there. -/
def extend (s : Holders ι V) : Store (Place ι) V
  | .holder i => s i
  | _ => none

/-- The memory is that of these holders, each of which owns what it holds. -/
def Holds (m : Memory ι V) (s : Holders ι V) : Prop := Owns m (extend s)

variable {s : Holders ι V} {m : Memory ι V}

omit [DecidableEq ι] in
@[simp] theorem extend_holder (s : Holders ι V) (j : ι) : extend s (.holder j) = s j := rfl

theorem update_extend (s : Holders ι V) (j : ι) (o : Option (Option V)) :
    Function.update (extend s) (.holder j) o = extend (Function.update s j o) := by
  funext p
  cases p with
  | holder i => by_cases hij : i = j <;> simp [extend, hij]
  | argument => rfl
  | tmp => rfl
  | temporary => rfl

/-- A program that gives holders holders has the memory of the result. -/
theorem Holds.run (hm : Holds m s) {cs : List (Command (Place ι) V)} {x : Option (Holders ι V)}
    (h : (extend s).run cs = x.map extend) : Option.Rel Holds (m.run cs) x := by
  have hrun := Owns.run hm cs
  rw [h] at hrun
  revert hrun
  rcases m.run cs with _ | m' <;> rcases x with _ | s' <;> rintro (hm' | _)
  · exact .none
  · exact .some hm'

/-! The parts of the functions, on values. -/

variable {t : Store (Place ι) V} {p q : Place ι}

theorem run_append (cs cs' : List (Command (Place ι) V)) :
    t.run (cs ++ cs') = (t.run cs).bind (·.run cs') :=
  List.foldlM_append

theorem run_copyInto (htemporary : t .temporary = none) (hp : p ≠ .temporary) (rhs : Option V) :
    t.run (copyInto cls p rhs) =
      if t p = none then some (Function.update t p (some (rhs.map cls.clone))) else none := by
  cases rhs with
  | none =>
      show (t.declare p).bind some = _
      unfold Store.declare
      rcases htp : t p with _ | o <;> simp
  | some v =>
      show ((t.emplace .temporary (cls.clone v)).bind fun t =>
        (t.move p .temporary).bind fun t => (t.destroy .temporary).bind some) = _
      simp only [Store.emplace, htemporary, Option.bind_some, Store.move,
        Function.update_of_ne hp, Function.update_self]
      rcases htp : t p with _ | o
      · simp only [Option.bind_some, Store.destroy, Function.update_self, Option.map_some, if_true]
        refine congrArg some (funext fun k => ?_)
        grind
      · simp

/-- The move leaves a null pointer, which is made null again. -/
theorem run_moveInto : t.run (moveInto p q) = t.move p q := by
  show ((t.move p q).bind fun t => (t.reset q).bind some) = _
  unfold Store.move
  rcases t p with _ | o' <;> rcases t q with _ | o
  · rfl
  · simp [Store.reset]
  · rfl
  · rfl

theorem run_swapTmp {o : Option V} (htmp : t .tmp = some o) (j : ι) : t.run (swapTmp j) =
    (t (.holder j)).map fun _ =>
      Function.update (Function.update t (.holder j) (some o)) .tmp none := by
  show ((t.swap (.holder j) .tmp).bind fun t => (t.destroy .tmp).bind some) = _
  unfold Store.swap
  rw [htmp]
  rcases t (.holder j) with _ | o'
  · rfl
  · simp [Store.destroy]

/-- Behind a construction of `tmp` the holder has what that had. -/
theorem run_assign {cs : List (Command (Place ι) V)} {o : Option V} {s' : Holders ι V}
    (h : (extend s).run cs = some (Function.update (extend s') .tmp (some o))) (j : ι) :
    (extend s).run (cs ++ swapTmp j) = (Holders.set s' j o).map extend := by
  rw [run_append, h, Option.bind_some, run_swapTmp (Function.update_self _ _ _)]
  show (s' j).map _ = ((s' j).map _).map _
  rw [Option.map_map]
  refine congrArg (Option.map · (s' j)) (funext fun _ => funext fun k => ?_)
  rw [Function.comp_apply, ← update_extend]
  cases k <;> simp [extend, Function.update_apply]

theorem run_declare (s : Holders ι V) (j : ι) :
    (extend s).run [.declare (.holder j)] = (s.create j none).map extend := by
  show ((extend s).declare (.holder j)).bind some = _
  unfold Store.declare Holders.create
  rw [extend_holder, update_extend]
  rcases s j with _ | o <;> rfl

theorem move_extend (s : Holders ι V) (j i : ι) :
    (extend s).move (.holder j) (.holder i) = (s.move j i).map extend := by
  unfold Store.move
  rw [extend_holder, extend_holder]
  rcases s j with _ | o' <;> rcases s i with _ | o
  · rfl
  · dsimp only
    rw [update_extend, update_extend]
    rfl
  · rfl
  · rfl

theorem run_swap (s : Holders ι V) (j i : ι) :
    (extend s).run [.swap (.holder j) (.holder i)] = (s.swap j i).map extend := by
  show ((extend s).swap (.holder j) (.holder i)).bind some = _
  unfold Store.swap
  rw [extend_holder, extend_holder]
  rcases s j with _ | o <;> rcases s i with _ | o'
  · rfl
  · rfl
  · rfl
  · dsimp only
    rw [update_extend, update_extend]
    rfl

theorem run_destroy (s : Holders ι V) (j : ι) :
    (extend s).run [.destroy (.holder j)] = (s.destroy j).map extend := by
  show ((extend s).destroy (.holder j)).bind some = _
  unfold Store.destroy
  rw [extend_holder, update_extend]
  rcases s j with _ | o <;> rfl

/-- Of a holder to itself, the move empties the holder first, and the exchange brings it back. -/
theorem run_assignMove (s : Holders ι V) (j i : ι) :
    (extend s).run (moveInto .tmp (.holder i) ++ swapTmp j) = (s.assign j i).map extend := by
  rcases hi : s i with _ | o
  · rw [run_append, run_moveInto]
    unfold Store.move Store.assign
    rw [extend_holder, hi]
    rcases s j with _ | o' <;> rfl
  · have hmove : (extend s).run (moveInto .tmp (.holder i)) =
        some (Function.update (extend (Function.update s i (some none))) .tmp (some o)) := by
      rw [run_moveInto]
      unfold Store.move
      rw [extend_holder, hi, ← update_extend, Function.update_comm (by simp)]
      rfl
    rw [run_assign hmove]
    unfold Holders.set Store.assign
    rw [hi]
    by_cases hji : j = i
    · rw [hji, Function.update_self, hi]
      rfl
    · rw [Function.update_of_ne hji]
      rcases s j with _ | o' <;> rfl

/-- What a parameter brings, when the function is behind. -/
theorem update_argument (s : Holders ι V) (j : ι) (o o' : Option (Option V)) :
    Function.update (Function.update (Function.update (extend s) .argument o) (.holder j) o')
      .argument none = extend (Function.update s j o') := by
  rw [← update_extend]
  funext p
  cases p <;> simp [extend, Function.update_apply]

/-- A program behind its parameter. -/
theorem run_passed (s : Holders ι V) (o : Option V) (cs : List (Command (Place ι) V)) :
    (extend s).run (passed o :: cs) =
      Store.run (Function.update (extend s) .argument (some o)) cs := by
  cases o <;> rfl

theorem run_pointer (s : Holders ι V) (j : ι) (o : Option V) :
    (extend s).run [passed o, .move (.holder j) .argument, .destroy .argument] =
      (s.create j o).map extend := by
  rw [run_passed]
  show (Store.move (Function.update (extend s) .argument (some o)) (.holder j) .argument).bind
    (fun t => (t.destroy .argument).bind some) = _
  simp only [Store.move, Function.update_self, ne_eq, reduceCtorEq, not_false_eq_true,
    Function.update_of_ne, extend_holder]
  unfold Holders.create
  rcases s j with _ | o'
  · simp only [Option.bind_some, Store.destroy, Function.update_self, Function.update_idem,
      update_argument, Option.map_some]
  · rfl

theorem run_assignPointer (s : Holders ι V) (j : ι) (o : Option V) :
    (extend s).run [passed o, .assign (.holder j) .argument, .destroy .argument] =
      (s.set j o).map extend := by
  rw [run_passed]
  show (Store.assign (Function.update (extend s) .argument (some o)) (.holder j) .argument).bind
    (fun t => (t.destroy .argument).bind some) = _
  simp only [Store.assign, Function.update_self, ne_eq, reduceCtorEq, not_false_eq_true,
    Function.update_of_ne, extend_holder]
  unfold Holders.set
  rcases s j with _ | o'
  · rfl
  · simp only [Option.bind_some, Store.destroy, Function.update_idem, ne_eq, reduceCtorEq,
      not_false_eq_true, Function.update_of_ne, Function.update_self, update_argument,
      Option.map_some]

/-! ## Every call does what it is for -/

omit [DecidableEq ι] in
/-- A result with an answer. -/
theorem matches_answer {x : Option (Memory ι V)} {y : Option (Holders ι V)}
    (h : Option.Rel Holds x y) (a : Answer R) :
    Option.Rel (Matches Holds Eq) (x.map (·, a)) (y.map (·, a)) := by
  cases h with
  | none => exact .none
  | some hm => exact .some ⟨hm, rfl⟩

omit [DecidableEq ι] in
/-- What is read is what the holder has. -/
theorem Holds.get (hm : Holds m s) (j : ι) : m.get (.holder j) = s j := Owns.get hm _

theorem call_create (hm : Holds m s) {cs : List (Command (Place ι) V)} {j : ι} {o : Option V}
    (h : (extend s).run cs = if s j = none then some (Function.update (extend s) (.holder j) (some o))
      else none) (a : Answer R) :
    Option.Rel (Matches Holds Eq) ((m.run cs).map (·, a)) ((s.create j o).map (·, a)) := by
  refine matches_answer (hm.run ?_) a
  rw [h]
  unfold Holders.create
  rcases s j with _ | o'
  · rw [if_pos rfl, update_extend]
    rfl
  · rfl

theorem call_modify (hm : Holds m s) {j : ι} {v : V} (hj : s j = some (some v)) (f : V → V)
    (a : Answer R) : Option.Rel (Matches Holds Eq)
      ((m.run [.modify (.holder j) f]).map (·, a)) ((s.set j (some (f v))).map (·, a)) := by
  refine matches_answer (hm.run ?_) a
  show ((extend s).modify (.holder j) f).bind some = _
  unfold Store.modify Holders.set
  rw [extend_holder, hj]
  dsimp only
  rw [update_extend]
  rfl

/-- **Each function does on the heap what it is for.** -/
theorem call_refines : Refines (call cls) (meaning cls) (Holds (ι := ι)) (Eq (α := Answer R)) := by
  intro m s hm c
  cases c with
  | default j => exact matches_answer (hm.run (run_declare s j)) _
  | pointer j o => exact matches_answer (hm.run (run_pointer s j o)) _
  | copy j i =>
      show Option.Rel _ ((m.get (.holder i)).bind _) ((s i).bind _)
      rw [hm.get i]
      rcases s i with _ | rhs
      · exact .none
      · exact call_create hm (run_copyInto cls rfl (by simp) rhs) _
  | move j i => exact matches_answer (hm.run (run_moveInto.trans (move_extend s j i))) _
  | assignCopy j i =>
      show Option.Rel _ ((m.get (.holder i)).bind _) ((s i).bind _)
      rw [hm.get i]
      rcases s i with _ | rhs
      · exact .none
      · have hcopy := (run_copyInto cls (t := extend s) (p := .tmp) rfl (by simp) rhs).trans
          (if_pos rfl)
        exact matches_answer (hm.run (run_assign hcopy j)) _
  | assignMove j i => exact matches_answer (hm.run (run_assignMove s j i)) _
  | assignPointer j o => exact matches_answer (hm.run (run_assignPointer s j o)) _
  | swap j i => exact matches_answer (hm.run (run_swap s j i)) _
  | apply j text r =>
      show Option.Rel _ ((m.get (.holder j)).bind _) ((s j).bind _)
      rw [hm.get j]
      rcases hj : s j with _ | _ | v
      · exact .none
      · exact .some ⟨hm, rfl⟩
      · exact call_modify hm hj _ _
  | isMatch j text =>
      show Option.Rel _ ((m.get (.holder j)).bind _) ((s j).map _)
      rw [hm.get j]
      rcases s j with _ | _ | v
      · exact .none
      · exact .some ⟨hm, rfl⟩
      · exact .some ⟨hm, rfl⟩
  | getCast j isD f =>
      show Option.Rel _ ((m.get (.holder j)).bind _) ((s j).bind _)
      rw [hm.get j]
      rcases hj : s j with _ | _ | v
      · exact .none
      · exact .none
      · show Option.Rel _ (if isD v then _ else _) (if isD v then _ else _)
        by_cases hv : isD v
        · rw [if_pos hv, if_pos hv]
          exact call_modify hm hj f _
        · rw [if_neg hv, if_neg hv]
          exact .some ⟨hm, rfl⟩
  | destroy j => exact matches_answer (hm.run (run_destroy s j)) _

omit [DecidableEq ι] in
/-- The memory of no holders. -/
theorem holds_empty : Holds (Heap.empty : Memory ι V) fun _ => none := by
  have hextend : extend (fun _ => none : Holders ι V) = fun _ => none := by
    funext p
    cases p <;> rfl
  show Owns Heap.empty (extend _)
  rw [hextend]
  exact owns_empty

omit [DecidableEq ι] in
/-- Between two calls every object is that of one holder. -/
theorem Holds.existsUnique (hm : Holds m s) {a : Nat} (ha : m.objects a ≠ none) :
    ∃! i, m.pointers (.holder i) = some (some a) := by
  obtain ⟨p, hp⟩ := hm.owner ha
  have hextend : extend s p ≠ none := by
    rw [hm.value p, hp]
    exact Option.some_ne_none _
  cases p with
  | holder i => exact ⟨i, hp, fun k hk => Place.holder.inj (hm.unique hk hp)⟩
  | argument => exact absurd rfl hextend
  | tmp => exact absurd rfl hextend
  | temporary => exact absurd rfl hextend

/-- **Holders are values**: over any calls they do on the heap what the calls are for, with the same
answers, and are undefined where these are. Behind them every object is held, and by one holder. -/
theorem holders_refine (calls : List (Call ι V R)) :
    (Service.session (meaning cls) (fun _ => none) calls = none →
      Service.session (call cls) Heap.empty calls = none) ∧
    ∀ s log, Service.session (meaning cls) (fun _ => none) calls = some (s, log) →
      ∃ m, Service.session (call cls) Heap.empty calls = some (m, log) ∧
        (∀ i, s i = (m.pointers (.holder i)).map fun p => p.bind m.objects) ∧
        (∀ i a, m.pointers (.holder i) = some (some a) → m.objects a ≠ none) ∧
        ∀ a, m.objects a ≠ none → ∃! i, m.pointers (.holder i) = some (some a) := by
  have hrel := Refines.session (call_refines cls) holds_empty calls
  refine ⟨fun hnone => ?_, fun s log hs => ?_⟩
  · rw [hnone] at hrel
    cases hrel' : Service.session (call cls) Heap.empty calls with
    | none => rfl
    | some r =>
        rw [hrel'] at hrel
        cases hrel
  · obtain ⟨⟨m, log'⟩, hcalls, hm, hlog⟩ := exists_of_rel_right hrel hs
    obtain rfl := hlog.eq
    exact ⟨m, hcalls, fun i => hm.value (.holder i), fun i a => hm.live, fun a => hm.existsUnique⟩

end

end Holder

end XeusCpp.Interpreter
