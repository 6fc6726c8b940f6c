/-
# XeusCpp.Interpreter.Builder — how a kernel gets its arguments.

In the browser a kernel is made by `builder_with_args`, which keeps the arguments and their array of
pointers in two variables of static storage. The first call initialises them, every call clears them,
and nothing fills the arguments again. The array keeps its memory when it is cleared, so the pointer
to it is not null, and the constructor of the interpreter steps over a program name that is not there.

**`own_arguments_iff`**: kernels get their own arguments exactly when there is at most one of them.
-/
import XeusCpp.Text.Bytes

namespace XeusCpp.Interpreter

open Text

/-! ## The compiler -/

/-- The functions of the compiler library that make an interpreter. -/
structure CppInterOp where
  detectResourceDir : Str
  detectSystemCompilerIncludePaths : List Str
  /-- Whether `CreateInterpreter` succeeds on its arguments. -/
  createInterpreter : List Str → Bool

/-- What `createInterpreter` does: the arguments of the compiler, the libraries it loads, and what it
writes to `std::cerr`. -/
structure Compiler where
  clangArgs : List Str
  created : Bool
  loaded : List Str
  err : Str
deriving DecidableEq

variable (cpp : CppInterOp)

/-- The resource directory, unless the arguments name one, and the complaint where there is none. -/
def resourceDirArgs (extraArgs : List Str) : List Str × Str :=
  if extraArgs.any fun s => s == lit "-resource-dir" then ([], [])
  else if cpp.detectResourceDir.isEmpty then ([], lit "Failed to detect the resource-dir\n")
  else ([lit "-resource-dir", cStr cpp.detectResourceDir], [])

def createInterpreter (extraArgs : List Str) : Compiler :=
  let resourceDir := resourceDirArgs cpp extraArgs
  let includes := cpp.detectSystemCompilerIncludePaths.flatMap fun cxxInclude =>
    [lit "-isystem", cStr cxxInclude]
  let clangArgs := [lit "-v"] ++ resourceDir.1 ++ includes ++ extraArgs
  let created := cpp.createInterpreter clangArgs
  let openmp := clangArgs.any fun s => (lit "-fopenmp").isPrefixOf s
  ⟨clangArgs, created, if created && openmp then [lit "libomp"] else [], resourceDir.2⟩

/-- `Args(argv ? argv + 1 : argv, argv + argc)`, for a null pointer or one to an array; `none` where
the range ends in front of its beginning. -/
def extraArgs (argc : Nat) : Option (List Str) → Option (List Str)
  | none => if argc = 0 then some [] else none
  | some argv => if 1 ≤ argc then some ((argv.take argc).drop 1) else none

/-- `interpreter::interpreter`, as far as the compiler goes. -/
def interpreter (argc : Nat) (argv : Option (List Str)) : Option Compiler :=
  (extraArgs argc argv).map (createInterpreter cpp)

/-! ## `builder_with_args` -/

/-- A `std::vector<const char*>`, by the strings it points to; it allocates at the first `push_back`
and keeps its memory. -/
structure ArgvVec where
  items : List Str
  allocated : Bool
deriving DecidableEq

namespace ArgvVec

variable (v : ArgvVec)

def pushBack (s : Str) : ArgvVec := ⟨v.items ++ [s], true⟩

def clear : ArgvVec := { v with items := [] }

def data : Option (List Str) := if v.allocated then some v.items else none

end ArgvVec

/-- The two variables; `args` is initialised by the first call. -/
structure Statics where
  args : Option (List Str)
  argvVec : ArgvVec
deriving DecidableEq

/-- Before the first call. -/
def Statics.fresh : Statics := ⟨none, [], false⟩

/-- Behind a call. -/
def Statics.used : Statics := ⟨some [], [], true⟩

/-- An interpreter: the arguments it was constructed with, and its compiler. -/
structure Built where
  argv : List Str
  compiler : Compiler
deriving DecidableEq

def builderWithArgs (st : Statics) (jsArgs : List Str) : Option (Built × Statics) :=
  let args := st.args.getD jsArgs
  let argvVec := args.foldl (fun v s => v.pushBack (cStr s)) st.argvVec
  (interpreter cpp argvVec.items.length argvVec.data).map fun compiler =>
    (⟨argvVec.items, compiler⟩, ⟨some [], argvVec.clear⟩)

/-- Calls, one after the other. -/
def buildAll (st : Statics) : List (List Str) → Option (List Built)
  | [] => some []
  | jsArgs :: calls => do
      let (built, st) ← builderWithArgs cpp st jsArgs
      let rest ← buildAll st calls
      return built :: rest

/-- The interpreter a call is to make. -/
def ownBuilt (jsArgs : List Str) : Built := ⟨jsArgs, createInterpreter cpp jsArgs.tail⟩

/-! ## The calls -/

theorem foldl_pushBack (args : List Str) (v : ArgvVec) :
    args.foldl (fun v s => v.pushBack (cStr s)) v =
      ⟨v.items ++ args.map cStr, v.allocated || !args.isEmpty⟩ := by
  induction args generalizing v with
  | nil => simp
  | cons s args ih =>
      rw [List.foldl_cons, ih]
      simp [ArgvVec.pushBack]

/-- The first call passes its arguments on, as C strings. -/
theorem builder_fresh {jsArgs : List Str} (h : jsArgs ≠ []) :
    builderWithArgs cpp .fresh jsArgs = some (ownBuilt cpp (jsArgs.map cStr), .used) := by
  have hlen : 1 ≤ (jsArgs.map cStr).length := by
    rw [List.length_map]
    exact List.length_pos_iff.mpr h
  have halloc : (!jsArgs.isEmpty) = true := by simpa using h
  unfold builderWithArgs
  simp only [Statics.fresh, Option.getD_none, foldl_pushBack, List.nil_append, Bool.false_or, halloc,
    ArgvVec.data, if_true, interpreter, extraArgs, if_pos hlen, List.take_length, List.drop_one,
    Option.map_some]
  rfl

/-- Every later call finds no arguments behind a pointer that is not null. -/
theorem builder_used (jsArgs : List Str) : builderWithArgs cpp .used jsArgs = none := rfl

theorem map_cStr_eq_iff {args : List Str} : args.map cStr = args ↔ ∀ s ∈ args, (0 : Byte) ∉ s := by
  have hself := List.map_inj_left (l := args) (f := cStr) (g := id)
  rw [List.map_id] at hself
  rw [hself]
  exact forall₂_congr fun s _ => cStr_eq_self_iff

theorem ownBuilt_map_cStr {jsArgs : List Str} :
    ownBuilt cpp (jsArgs.map cStr) = ownBuilt cpp jsArgs ↔ ∀ s ∈ jsArgs, (0 : Byte) ∉ s := by
  rw [← map_cStr_eq_iff]
  constructor
  · exact fun h => congrArg Built.argv h
  · intro h
    rw [h]

/-- **Kernels get their own arguments exactly when** there is at most one of them, and no argument has
a NUL in it. -/
theorem own_arguments_iff (calls : List (List Str)) (hne : ∀ jsArgs ∈ calls, jsArgs ≠ []) :
    buildAll cpp .fresh calls = some (calls.map (ownBuilt cpp)) ↔
      calls.length ≤ 1 ∧ ∀ jsArgs ∈ calls, ∀ s ∈ jsArgs, (0 : Byte) ∉ s := by
  match calls with
  | [] => simp [buildAll]
  | [jsArgs] =>
      have hfirst := builder_fresh cpp (hne jsArgs (by simp))
      simp only [buildAll, hfirst, Option.bind_eq_bind, Option.bind_some, Option.pure_def,
        Option.some.injEq, List.map_cons, List.map_nil, List.cons.injEq, and_true, ownBuilt_map_cStr]
      simp
  | jsArgs :: jsArgs' :: calls =>
      have hfirst := builder_fresh cpp (hne jsArgs (by simp))
      simp [buildAll, hfirst, builder_used]

/-- A compiler that finds its directories. -/
def detected : CppInterOp := ⟨lit "/lib/clang/20", [lit "/include/c++/v1"], fun _ => true⟩

theorem own_arguments_one :
    buildAll detected .fresh [[lit "xcpp", lit "-std=c++20"]] =
      some [ownBuilt detected [lit "xcpp", lit "-std=c++20"]] :=
  (own_arguments_iff detected [[lit "xcpp", lit "-std=c++20"]] (by decide)).mpr
    ⟨Nat.le_refl 1, by decide⟩

/-- The range of the second kernel is reversed. -/
theorem second_kernel_reversed :
    builderWithArgs detected .used [lit "xcpp", lit "-std=c++17"] = none ∧
      buildAll detected .fresh [[lit "xcpp", lit "-std=c++20"], [lit "xcpp", lit "-std=c++17"]] ≠
        some ([[lit "xcpp", lit "-std=c++20"], [lit "xcpp", lit "-std=c++17"]].map
          (ownBuilt detected)) := by
  decide

end XeusCpp.Interpreter
