import FractalWasm.Wasmlib.Softfloat

/-!
# Intrinsics

The library's functions register themselves under a module and a name before any code runs. A
function is found by one string that holds the module's name, the function's name and its type. The
library registers functions only.

**Registered functions** (`functions`): the tables of the library, as data.

**The private module** (`injectedFunctions`): its name has a dot, and no module with a dotless name
reaches its functions by any key (`dot_notMem_of_injected`, `mem_injectedFunctions_iff`).
-/

namespace FractalWasm

open Codec IR

/-- The type of an object (`IR::ObjectType`). -/
inductive ObjectType where
  | function (type : FunctionType)
  | table (type : TableType)
  | memory (type : MemoryType)
  | global (type : GlobalType)
  deriving DecidableEq, Repr

/-- Bytes as a text, one character for a byte. -/
def text (bytes : Bytes) : String := String.ofList (bytes.map fun byte => Char.ofNat byte.toNat)

/-! ## Names of types -/

def IR.ValueType.asString : ValueType → Bytes
  | .any => str "any"
  | .i32 => str "i32"
  | .i64 => str "i64"
  | .f32 => str "f32"
  | .f64 => str "f64"
  -- `Errors::unreachable()`
  | .invalid _ _ => []

def IR.ResultType.asString : ResultType → Bytes
  | .i32 => str "i32"
  | .i64 => str "i64"
  | .f32 => str "f32"
  | .f64 => str "f64"
  | .none => str "()"
  -- `Errors::unreachable()`
  | .invalid _ _ => []

/-- `asString` of a tuple of types. -/
def tupleAsString (typeTuple : List ValueType) : Bytes :=
  str "(" ++ (str ",").intercalate (typeTuple.map ValueType.asString) ++ str ")"

def IR.FunctionType.asString (functionType : FunctionType) : Bytes :=
  tupleAsString functionType.parameters ++ str "->" ++ ResultType.asString functionType.ret

namespace Intrinsics

/-! ## The registered functions -/

/-- `Intrinsics::Function`: `name` is the module's name, a dot and the function's own name. -/
structure Function where
  name : Bytes
  type : FunctionType
  deriving DecidableEq, Repr

/-- The name `REGISTER_INTRINSICS` and `DEFINE_INTRINSIC_FUNCTION` put together. -/
def qualifiedName (moduleName exportName : Bytes) : Bytes := moduleName ++ str "." ++ exportName

/-- The functions a module of the library registers. -/
def register (moduleName : Bytes) (functions : List (String × FunctionType)) : List Function :=
  functions.map fun entry => ⟨qualifiedName moduleName (str entry.1), entry.2⟩

/-- `database_api` -/
def databaseApi : List (String × FunctionType) := [
  ("db_store", ⟨.none, [.i64, .i32, .i32, .i32, .i32]⟩),
  ("db_load", ⟨.i32, [.i64, .i32, .i32, .i32, .i32]⟩),
  ("db_has_key", ⟨.i32, [.i64, .i32, .i32]⟩),
  ("db_remove_key", ⟨.none, [.i64, .i32, .i32]⟩),
  ("db_has_table", ⟨.i32, [.i64]⟩),
  ("db_remove_table", ⟨.none, [.i64]⟩)]

/-- `crypto_api` -/
def cryptoApi : List (String × FunctionType) := [
  ("assert_recover_key", ⟨.none, [.i32, .i32, .i32, .i32, .i32]⟩),
  ("recover_key", ⟨.i32, [.i32, .i32, .i32, .i32, .i32]⟩),
  ("assert_sha256", ⟨.none, [.i32, .i32, .i32]⟩),
  ("sha256", ⟨.none, [.i32, .i32, .i32]⟩)]

/-- `system_api` -/
def systemApi : List (String × FunctionType) := [
  ("current_time", ⟨.i64, []⟩),
  ("current_height", ⟨.i64, []⟩),
  ("current_hash", ⟨.none, [.i32, .i32]⟩),
  ("log_0", ⟨.none, [.i32, .i32, .i32]⟩),
  ("log_1", ⟨.none, [.i32, .i32, .i32, .i32]⟩),
  ("log_2", ⟨.none, [.i32, .i32, .i32, .i32, .i32]⟩)]

/-- `context_free_system_api` -/
def contextFreeSystemApi : List (String × FunctionType) := [
  ("abort", ⟨.none, []⟩),
  ("ftl_assert", ⟨.none, [.i32, .i32]⟩),
  ("ftl_assert_message", ⟨.none, [.i32, .i32, .i32]⟩),
  ("ftl_assert_code", ⟨.none, [.i32, .i64]⟩),
  ("ftl_exit", ⟨.none, [.i32]⟩)]

/-- `action_api`, without the injected `use_gas` -/
def actionApi : List (String × FunctionType) := [
  ("read_action_data", ⟨.i32, [.i32, .i32]⟩),
  ("action_data_size", ⟨.i32, []⟩),
  ("get_from", ⟨.none, [.i32, .i32]⟩),
  ("get_to", ⟨.none, [.i32, .i32]⟩),
  ("get_owner", ⟨.none, [.i32, .i32]⟩),
  ("get_user", ⟨.none, [.i32, .i32]⟩),
  ("transfer", ⟨.none, [.i32, .i32, .i64]⟩),
  ("get_amount", ⟨.i64, []⟩),
  ("call_action", ⟨.i32, [.i32, .i32, .i32, .i32, .i64, .i32, .i32]⟩),
  ("call_result", ⟨.i32, [.i32, .i32]⟩),
  ("set_result", ⟨.i32, [.i32, .i32]⟩)]

/-- `console_api` -/
def consoleApi : List (String × FunctionType) := [
  ("prints", ⟨.none, [.i32]⟩),
  ("prints_l", ⟨.none, [.i32, .i32]⟩),
  ("printi", ⟨.none, [.i64]⟩),
  ("printui", ⟨.none, [.i64]⟩),
  ("printsf", ⟨.none, [.f32]⟩),
  ("printdf", ⟨.none, [.f64]⟩),
  ("printqf", ⟨.none, [.i32]⟩),
  ("printn", ⟨.none, [.i64]⟩),
  ("printhex", ⟨.none, [.i32, .i32]⟩)]

/-- `memory_api` -/
def memoryApi : List (String × FunctionType) := [
  ("memcpy", ⟨.i32, [.i32, .i32, .i32]⟩),
  ("memmove", ⟨.i32, [.i32, .i32, .i32]⟩),
  ("memcmp", ⟨.i32, [.i32, .i32, .i32]⟩),
  ("memset", ⟨.i32, [.i32, .i32, .i32]⟩)]

/-- `compiler_builtins` -/
def compilerBuiltins : List (String × FunctionType) := [
  ("__ashlti3", ⟨.none, [.i32, .i64, .i64, .i32]⟩),
  ("__ashrti3", ⟨.none, [.i32, .i64, .i64, .i32]⟩),
  ("__lshlti3", ⟨.none, [.i32, .i64, .i64, .i32]⟩),
  ("__lshrti3", ⟨.none, [.i32, .i64, .i64, .i32]⟩),
  ("__divti3", ⟨.none, [.i32, .i64, .i64, .i64, .i64]⟩),
  ("__udivti3", ⟨.none, [.i32, .i64, .i64, .i64, .i64]⟩),
  ("__modti3", ⟨.none, [.i32, .i64, .i64, .i64, .i64]⟩),
  ("__umodti3", ⟨.none, [.i32, .i64, .i64, .i64, .i64]⟩),
  ("__multi3", ⟨.none, [.i32, .i64, .i64, .i64, .i64]⟩),
  ("__addtf3", ⟨.none, [.i32, .i64, .i64, .i64, .i64]⟩),
  ("__subtf3", ⟨.none, [.i32, .i64, .i64, .i64, .i64]⟩),
  ("__multf3", ⟨.none, [.i32, .i64, .i64, .i64, .i64]⟩),
  ("__divtf3", ⟨.none, [.i32, .i64, .i64, .i64, .i64]⟩),
  ("__eqtf2", ⟨.i32, [.i64, .i64, .i64, .i64]⟩),
  ("__netf2", ⟨.i32, [.i64, .i64, .i64, .i64]⟩),
  ("__getf2", ⟨.i32, [.i64, .i64, .i64, .i64]⟩),
  ("__gttf2", ⟨.i32, [.i64, .i64, .i64, .i64]⟩),
  ("__lttf2", ⟨.i32, [.i64, .i64, .i64, .i64]⟩),
  ("__letf2", ⟨.i32, [.i64, .i64, .i64, .i64]⟩),
  ("__cmptf2", ⟨.i32, [.i64, .i64, .i64, .i64]⟩),
  ("__unordtf2", ⟨.i32, [.i64, .i64, .i64, .i64]⟩),
  ("__negtf2", ⟨.none, [.i32, .i64, .i64]⟩),
  ("__floatsitf", ⟨.none, [.i32, .i32]⟩),
  ("__floatunsitf", ⟨.none, [.i32, .i32]⟩),
  ("__floatditf", ⟨.none, [.i32, .i64]⟩),
  ("__floatunditf", ⟨.none, [.i32, .i64]⟩),
  ("__floattidf", ⟨.f64, [.i64, .i64]⟩),
  ("__floatuntidf", ⟨.f64, [.i64, .i64]⟩),
  ("__floatsidf", ⟨.f64, [.i32]⟩),
  ("__extendsftf2", ⟨.none, [.i32, .f32]⟩),
  ("__extenddftf2", ⟨.none, [.i32, .f64]⟩),
  ("__fixtfti", ⟨.none, [.i32, .i64, .i64]⟩),
  ("__fixtfdi", ⟨.i64, [.i64, .i64]⟩),
  ("__fixtfsi", ⟨.i32, [.i64, .i64]⟩),
  ("__fixunstfti", ⟨.none, [.i32, .i64, .i64]⟩),
  ("__fixunstfdi", ⟨.i64, [.i64, .i64]⟩),
  ("__fixunstfsi", ⟨.i32, [.i64, .i64]⟩),
  ("__fixsfti", ⟨.none, [.i32, .f32]⟩),
  ("__fixdfti", ⟨.none, [.i32, .f64]⟩),
  ("__fixunssfti", ⟨.none, [.i32, .f32]⟩),
  ("__fixunsdfti", ⟨.none, [.i32, .f64]⟩),
  ("__trunctfdf2", ⟨.f64, [.i64, .i64]⟩),
  ("__trunctfsf2", ⟨.f32, [.i64, .i64]⟩)]

/-- The functions of `WAVMIntrinsics.cpp`, which only the compiled code calls. -/
def wavmIntrinsics : List (String × FunctionType) := [
  ("floatMin", ⟨.f32, [.f32, .f32]⟩),
  ("floatMin", ⟨.f64, [.f64, .f64]⟩),
  ("floatMax", ⟨.f32, [.f32, .f32]⟩),
  ("floatMax", ⟨.f64, [.f64, .f64]⟩),
  ("floatCeil", ⟨.f32, [.f32]⟩),
  ("floatCeil", ⟨.f64, [.f64]⟩),
  ("floatFloor", ⟨.f32, [.f32]⟩),
  ("floatFloor", ⟨.f64, [.f64]⟩),
  ("floatTrunc", ⟨.f32, [.f32]⟩),
  ("floatTrunc", ⟨.f64, [.f64]⟩),
  ("floatNearest", ⟨.f32, [.f32]⟩),
  ("floatNearest", ⟨.f64, [.f64]⟩),
  ("floatToSignedInt", ⟨.i32, [.f32]⟩),
  ("floatToSignedInt", ⟨.i32, [.f64]⟩),
  ("floatToSignedInt", ⟨.i64, [.f32]⟩),
  ("floatToSignedInt", ⟨.i64, [.f64]⟩),
  ("floatToUnsignedInt", ⟨.i32, [.f32]⟩),
  ("floatToUnsignedInt", ⟨.i32, [.f64]⟩),
  ("floatToUnsignedInt", ⟨.i64, [.f32]⟩),
  ("floatToUnsignedInt", ⟨.i64, [.f64]⟩),
  ("divideByZeroOrIntegerOverflowTrap", ⟨.none, []⟩),
  ("unreachableTrap", ⟨.none, []⟩),
  ("accessViolationTrap", ⟨.none, []⟩),
  ("indirectCallSignatureMismatch", ⟨.none, [.i32, .i64, .i64]⟩),
  ("indirectCallIndexOutOfBounds", ⟨.none, []⟩),
  ("growMemory", ⟨.i32, [.i32, .i64]⟩),
  ("currentMemory", ⟨.i32, [.i64]⟩),
  ("debugEnterFunction", ⟨.none, [.i64]⟩),
  ("debugExitFunction", ⟨.none, [.i64]⟩),
  ("debugBreak", ⟨.none, []⟩)]

/-- The functions of the private module: `use_gas` and `softfloat_api`. -/
def injectedFunctions : List Function :=
  WasmInjections.injectedIntrinsics.map fun x =>
    ⟨qualifiedName WasmInjections.injectedModuleName x.name, x.type⟩

/-- The functions contracts may import. -/
def envFunctions : List Function :=
  register (str "env") (databaseApi ++ cryptoApi ++ systemApi ++ contextFreeSystemApi ++
    actionApi ++ consoleApi ++ memoryApi ++ compilerBuiltins)

/-- All registered functions. -/
def functions : List Function :=
  envFunctions ++ injectedFunctions ++ register (str "wavmIntrinsics") wavmIntrinsics

/-- `getDecoratedName`, of a function -/
def getDecoratedName (name : Bytes) (type : FunctionType) : Bytes :=
  name ++ str " : " ++ (str "func " ++ type.asString)

/-- `Singleton::functionMap`. No two functions are registered under one decorated name. -/
def functionMap : List (Bytes × Function) :=
  functions.map fun function => (getDecoratedName function.name function.type, function)

/-- `isA`, of a function -/
def isA (function : Function) : ObjectType → Bool
  | .function type => function.type = type
  | .table _ | .memory _ | .global _ => false

/-- `Intrinsics::find`. The maps of tables, memories and globals are empty. -/
def find (name : Bytes) : ObjectType → Option Function
  | .function type =>
    (WasmInjections.find functionMap (getDecoratedName name type)).filter (isA · (.function type))
  | .table _ | .memory _ | .global _ => none

theorem of_find {name : Bytes} {type : ObjectType} {function : Function}
    (h : find name type = some function) :
    function ∈ functions ∧ function.name = name ∧ type = .function function.type := by
  cases type with
  | function type =>
    obtain ⟨hlookup, hisA⟩ := Option.filter_eq_some_iff.1 h
    have htype : function.type = type := by simpa [isA] using hisA
    have hmem := WasmInjections.mem_of_find_eq_some hlookup
    obtain ⟨registered, hregistered, heq⟩ := List.mem_map.1 hmem
    obtain ⟨hname, rfl⟩ := Prod.mk.inj heq
    simp only [getDecoratedName, htype, List.append_assoc] at hname
    exact ⟨hregistered, List.append_cancel_right hname, by rw [htype]⟩
  | table _ | memory _ | global _ => cases h

/-! ## The private module -/

/-- The names of the registered functions have no dot. -/
theorem dot_notMem_of_register {functions : List (String × FunctionType)}
    (hdot : functions.all fun entry => !(str entry.1).contains 46) {moduleName : Bytes}
    {function : Function} (hmem : function ∈ register moduleName functions) :
    ∃ exportName, (46 : UInt8) ∉ exportName ∧
      function.name = qualifiedName moduleName exportName := by
  obtain ⟨entry, hentry, rfl⟩ := List.mem_map.1 hmem
  have hno := List.all_eq_true.1 hdot entry hentry
  exact ⟨str entry.1, by simpa using hno, rfl⟩

/-- The first dot of a registered name ends the module's name. -/
theorem qualifiedName_inj {moduleName exportName moduleName' exportName' : Bytes}
    (hmodule : (46 : UInt8) ∉ moduleName') (hexport : (46 : UInt8) ∉ exportName')
    (h : qualifiedName moduleName exportName = qualifiedName moduleName' exportName') :
    moduleName = moduleName' ∧ exportName = exportName' := by
  have hsplit : moduleName' ++ 46 :: exportName' = moduleName ++ 46 :: exportName := by
    simpa [qualifiedName, str] using h.symm
  obtain ⟨rfl, -, rfl⟩ := (List.append_cons_inj_of_notMem hmodule hexport).1 hsplit
  exact ⟨rfl, rfl⟩

theorem dot_notMem_of_injected {function : Function} (hmem : function ∈ injectedFunctions) :
    ∃ exportName, (46 : UInt8) ∉ exportName ∧
      function.name = qualifiedName WasmInjections.injectedModuleName exportName := by
  have hdot : WasmInjections.injectedIntrinsics.all fun x => !x.name.contains 46 := by
    decide +kernel
  obtain ⟨x, hx, rfl⟩ := List.mem_map.1 hmem
  have hno := List.all_eq_true.1 hdot x hx
  exact ⟨x.name, by simpa using hno, rfl⟩

/-- A registered function is a private one if it is found under the name of the private module. -/
theorem mem_injectedFunctions_iff {function : Function} (hmem : function ∈ functions)
    {moduleName exportName : Bytes} (hname : function.name = qualifiedName moduleName exportName) :
    function ∈ injectedFunctions ↔ moduleName = WasmInjections.injectedModuleName := by
  constructor
  · intro hinjected
    obtain ⟨exportName', hdot, hname'⟩ := dot_notMem_of_injected hinjected
    exact (qualifiedName_inj (by decide +kernel) hdot (hname.symm.trans hname')).1
  · rintro rfl
    have hforeign : ∀ {moduleName' exportName' : Bytes}, (46 : UInt8) ∉ moduleName' →
        (46 : UInt8) ∉ exportName' → function.name = qualifiedName moduleName' exportName' →
          WasmInjections.injectedModuleName = moduleName' :=
      fun hmodule hexport hname' => (qualifiedName_inj hmodule hexport (hname.symm.trans hname')).1
    rcases List.mem_append.1 hmem with hmem | hwavm
    · rcases List.mem_append.1 hmem with henv | hinjected
      · obtain ⟨exportName', hdot, hname'⟩ := dot_notMem_of_register (by decide +kernel) henv
        exact absurd (hforeign (by decide +kernel) hdot hname') (by decide +kernel)
      · exact hinjected
    · obtain ⟨exportName', hdot, hname'⟩ := dot_notMem_of_register (by decide +kernel) hwavm
      exact absurd (hforeign (by decide +kernel) hdot hname') (by decide +kernel)

end Intrinsics

end FractalWasm
