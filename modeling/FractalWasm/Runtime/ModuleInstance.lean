import FractalWasm.Runtime.Linker
import FractalWasm.Runtime.Memory

/-!
# Instances of modules

`Runtime/ModuleInstance.cpp`. An instance holds the functions its imports are resolved to and its
own objects. Its memory is the one all instances share, unless there is none yet.

**Instantiation** (`instantiateModule`): imports, tables, memories, globals, segments and exports in
the order of the source; the first failure decides, and what it leaves in the heap is part of the
result.

**What it establishes** (`completed_of_completeInstance`, `tables_of_instantiateModule`): the
functions and tables of a finished instance, which calls from the outside rely on.
-/

namespace FractalWasm.Runtime

open Codec IR

/-- How a piece of C++ ends that does not return: by an exception, or by `Errors::fatal`. -/
inductive Failure where
  | thrown (exception : Exception)
  | aborted
  deriving DecidableEq, Repr

/-- A computation that can throw. -/
def orThrow {α : Type} (result : Except Exception α) : Except Failure α :=
  result.mapError .thrown

/-- `errorUnless` -/
def errorUnless (condition : Bool) : Except Failure Unit :=
  if condition then .ok () else .error .aborted

/-- `causeException` -/
def causeException {α : Type} (cause : Cause) : Except Failure α :=
  .error (.thrown (.runtime cause))

/-- What the platform and the compiler, which are not modelled, do during an instantiation. -/
structure Platform where
  /-- The address space for a table, and for a memory, is reserved. -/
  allocatesTable : Bool
  allocatesMemory : Bool
  /-- The initial pages of a table, and of a memory, are committed. -/
  commitsTable : Bool
  commitsMemory : Bool
  /-- `LLVMJIT::instantiateModule`; every function of the module has native code behind it. -/
  jit : Module → Except Exception Unit

/-! ## Instances -/

/-- A function an import is resolved to, or a definition of the module, by its place. -/
inductive FunctionInstance where
  | intrinsic (function : Intrinsics.Function)
  | definition (functionDefIndex : Nat) (type : FunctionType)
  deriving DecidableEq, Repr

def FunctionInstance.type : FunctionInstance → FunctionType
  | .intrinsic function => function.type
  | .definition _ type => type

/-- `Runtime::Value`; floating-point numbers are kept as their bits. -/
inductive Value where
  | i32 (value : UInt32)
  | i64 (value : UInt64)
  | f32 (bits : UInt32)
  | f64 (bits : UInt64)
  deriving DecidableEq, Repr

def Value.type : Value → ValueType
  | .i32 _ => .i32
  | .i64 _ => .i64
  | .f32 _ => .f32
  | .f64 _ => .f64

structure GlobalInstance where
  type : GlobalType
  value : Value
  initialValue : Value
  deriving DecidableEq, Repr

structure TableInstance where
  type : TableType
  elements : List (Option FunctionInstance)
  deriving DecidableEq, Repr

/-- `ModuleInstance`. Its memories are places in the heap. -/
structure ModuleInstance where
  exports : List Export
  functions : List FunctionInstance
  tables : List TableInstance
  memories : List Nat
  globals : List GlobalInstance
  startFunctionIndex : Option Nat

/-- The memories of the process and the pointer `theMemoryInstance`. -/
structure Heap where
  memories : List MemoryInstance
  theMemoryInstance : Option Nat

/-- `getDefaultMemory` -/
def getDefaultMemory (instance_ : ModuleInstance) : Option Nat := instance_.memories.head?

/-- `getInstanceExport`, with `asFunctionNullable` of what it finds. The last export of a name stays
in `exportMap`. -/
def getExportedFunction (instance_ : ModuleInstance) (name : Bytes) : Option FunctionInstance := do
  let exportIt ← instance_.exports.reverse.find? fun exportIt => exportIt.name = name
  if exportIt.kind = .function then instance_.functions[exportIt.index]? else none

/-- `resetGlobalInstances` -/
def resetGlobalInstances (instance_ : ModuleInstance) : ModuleInstance :=
  { instance_ with
    globals := instance_.globals.map fun global => { global with value := global.initialValue } }

/-! ## Instantiation -/

/-- `growTable`; `none` is -1. -/
def growTable (commits : Bool) (numNewElements : Nat) (table : TableInstance) :
    Option TableInstance :=
  if 0 < numNewElements then
    if table.type.size.max < numNewElements ∨
        table.type.size.max - numNewElements < table.elements.length then none
    else if commits then
      some { table with elements := table.elements ++ List.replicate numNewElements none }
    else none
  else some table

/-- `createTable`; `none` is the null pointer. -/
def createTable (platform : Platform) (type : TableType) : Option TableInstance :=
  if platform.allocatesTable then growTable platform.commitsTable type.size.min ⟨type, []⟩
  else none

/-- The checks of the types of the imports. Nothing is linked for imports that are no functions. -/
def checkImports (module : Module) (functions : List Intrinsics.Function) : Except Failure Unit := do
  errorUnless (functions.length = module.functions.imports.length)
  (functions.zip module.functions.imports).forM fun (function, imp) =>
    errorUnless (Intrinsics.isA function (.function ((module.types[imp.type]?).getD ⟨.none, []⟩)))
  errorUnless (module.tables.imports.length = 0)
  errorUnless (module.memories.imports.length = 0)
  errorUnless (module.globals.imports.length = 0)

def instantiateTables (platform : Platform) (module : Module) :
    Except Failure (List TableInstance) :=
  module.tables.defs.mapM fun tableDef =>
    match createTable platform tableDef with
    | none => causeException .outOfMemory
    | some table => .ok table

/-- The memory definitions of a module: the first makes the shared memory if there is none. -/
def instantiateMemories (platform : Platform) :
    List MemoryType → Heap → Except Failure (List Nat) × Heap
  | [], heap => (.ok [], heap)
  | memoryDef :: memoryDefs, heap =>
    match heap.theMemoryInstance with
    | some memory =>
      let (memories, heap) := instantiateMemories platform memoryDefs heap
      (memories.map (memory :: ·), heap)
    | none =>
      match MemoryInstance.createMemory platform.allocatesMemory platform.commitsMemory memoryDef with
      | none => (causeException .outOfMemory, heap)
      | some created =>
        let memory := heap.memories.length
        let heap := ⟨heap.memories ++ [created], some memory⟩
        let (memories, heap) := instantiateMemories platform memoryDefs heap
        (memories.map (memory :: ·), heap)

def evaluateInitializer (globals : List GlobalInstance) :
    InitializerExpression → Except Failure Value
  | .i32Const value => .ok (.i32 value)
  | .i64Const value => .ok (.i64 value)
  | .f32Const bits => .ok (.f32 bits)
  | .f64Const bits => .ok (.f64 bits)
  | .getGlobal globalIndex =>
    match globals[globalIndex]? with
    | some global => .ok global.value
    | none => .error .aborted
  -- `Errors::unreachable()`
  | .error => .error .aborted

/-- The base of a table segment. -/
def segmentBase (globals : List GlobalInstance) (baseOffset : InitializerExpression) :
    Except Failure Nat := do
  match ← evaluateInitializer globals baseOffset with
  | .i32 base => return base.toNat
  | _ => .error .aborted

/-- A table segment fits, which is checked before anything is written. The module's own globals are
not there yet. -/
def checkTableSegment (tables : List TableInstance) (tableSegment : TableSegment) :
    Except Failure Unit := do
  let base ← segmentBase [] tableSegment.baseOffset
  let size := (tables[tableSegment.tableIndex]?.map (·.elements.length)).getD 0
  if size < base ∨ size - base < tableSegment.indices.length then
    causeException .invalidSegmentOffset
  else return ()

def instantiateGlobals (globalDefs : List GlobalDef) : Except Failure (List GlobalInstance) :=
  globalDefs.foldlM
    (fun globals globalDef => do
      let initialValue ← evaluateInitializer globals globalDef.initializer
      errorUnless (initialValue.type = globalDef.type.valueType)
      return globals ++ [⟨globalDef.type, initialValue, initialValue⟩]) []

/-- The functions of an instance: the linked ones and the definitions. -/
def instantiateFunctions (module : Module) (functions : List Intrinsics.Function) :
    List FunctionInstance :=
  functions.map .intrinsic ++
    module.functions.defs.mapIdx fun functionDefIndex functionDef =>
      .definition functionDefIndex (functionDef.functionType module)

/-- The elements of a table segment, from `index` on. -/
def setTableElements (functions : List FunctionInstance) :
    Nat → List Nat → TableInstance → Except Failure TableInstance
  | _, [], table => .ok table
  | index, functionIndex :: indices, table => do
    orThrow (wavmAssertThrow (functionIndex < functions.length)
      "functionIndex < moduleInstance->functions.size()")
    orThrow (wavmAssertThrow (index < table.elements.length) "index < table->elements.size()")
    setTableElements functions (index + 1) indices
      { table with elements := table.elements.set index functions[functionIndex]? }

/-- A table segment is copied into its table. -/
def copyTableSegment (globals : List GlobalInstance) (functions : List FunctionInstance)
    (tables : List TableInstance) (tableSegment : TableSegment) :
    Except Failure (List TableInstance) := do
  let base ← segmentBase globals tableSegment.baseOffset
  match tables[tableSegment.tableIndex]? with
  | none => .error .aborted
  | some table =>
    orThrow (wavmAssertThrow (base + tableSegment.indices.length ≤ table.elements.length)
      "baseOffset + tableSegment.indices.size() <= table->elements.size()")
    let table ← setTableElements functions base tableSegment.indices table
    return tables.set tableSegment.tableIndex table

def checkStartFunction (module : Module) (functions : List FunctionInstance) :
    Except Failure Unit :=
  match module.startFunctionIndex with
  | none => .ok ()
  | some startFunctionIndex =>
    orThrow (wavmAssertThrow
      ((functions[startFunctionIndex]?).map FunctionInstance.type = some ⟨.none, []⟩)
      "moduleInstance->functions[module.startFunctionIndex]->type == IR::FunctionType::get()")

/-- The part of `instantiateModule` behind the memories. -/
def completeInstance (platform : Platform) (module : Module)
    (linked : List Intrinsics.Function) (tables : List TableInstance) (memories : List Nat) :
    Except Failure ModuleInstance := do
  orThrow (wavmAssertThrow (memories.length ≤ 1) "moduleInstance->memories.size() == 1")
  orThrow (wavmAssertThrow (tables.length ≤ 1) "moduleInstance->tables.size() == 1")
  module.tableSegments.forM (checkTableSegment tables)
  let globals ← instantiateGlobals module.globals.defs
  let functions := instantiateFunctions module linked
  orThrow (platform.jit module)
  let tables ← module.tableSegments.foldlM (copyTableSegment globals functions) tables
  checkStartFunction module functions
  return ⟨module.exports, functions, tables, memories, globals, module.startFunctionIndex⟩

/-- `instantiateModule`, of a module and the functions its imports are resolved to. -/
def instantiateModule (platform : Platform) (module : Module)
    (linked : List Intrinsics.Function) (heap : Heap) : Except Failure ModuleInstance × Heap :=
  let tables := do
    checkImports module linked
    instantiateTables platform module
  match tables with
  | .error failure => (.error failure, heap)
  | .ok tables =>
    match instantiateMemories platform module.memories.defs heap with
    | (.error failure, heap) => (.error failure, heap)
    | (.ok memories, heap) => (completeInstance platform module linked tables memories, heap)

/-! ## What an instantiation establishes -/

@[simp] theorem orThrow_eq_ok {α : Type} {result : Except Exception α} {a : α} :
    orThrow result = .ok a ↔ result = .ok a := by
  cases result <;> simp [orThrow, Except.mapError]

/-- What a complete instance is made of. -/
structure Completed (module : Module) (linked : List Intrinsics.Function) (memories : List Nat)
    (instance_ : ModuleInstance) : Prop where
  exports : instance_.exports = module.exports
  functions : instance_.functions = instantiateFunctions module linked
  memories : instance_.memories = memories
  globals : instantiateGlobals module.globals.defs = .ok instance_.globals
  start : ∀ startFunctionIndex, instance_.startFunctionIndex = some startFunctionIndex →
    ∃ function, instance_.functions[startFunctionIndex]? = some function ∧
      function.type = ⟨.none, []⟩

theorem completed_of_completeInstance {platform : Platform} {module : Module}
    {linked : List Intrinsics.Function} {tables : List TableInstance} {memories : List Nat}
    {instance_ : ModuleInstance}
    (h : completeInstance platform module linked tables memories = .ok instance_) :
    Completed module linked memories instance_ := by
  obtain ⟨_, -, h⟩ := Except.bind_eq_ok.1 h
  obtain ⟨_, -, h⟩ := Except.bind_eq_ok.1 h
  obtain ⟨_, -, h⟩ := Except.bind_eq_ok.1 h
  obtain ⟨globals, hglobals, h⟩ := Except.bind_eq_ok.1 h
  obtain ⟨_, -, h⟩ := Except.bind_eq_ok.1 h
  obtain ⟨_, -, h⟩ := Except.bind_eq_ok.1 h
  obtain ⟨_, hstart, h⟩ := Except.bind_eq_ok.1 h
  cases h
  refine ⟨rfl, rfl, rfl, hglobals, ?_⟩
  intro startFunctionIndex hindex
  unfold checkStartFunction at hstart
  have hmodule : module.startFunctionIndex = some startFunctionIndex := hindex
  simp only [hmodule, orThrow_eq_ok, wavmAssertThrow_eq_ok, decide_eq_true_eq] at hstart
  exact Option.map_eq_some_iff.1 hstart

theorem completeInstance_of_instantiateModule {platform : Platform} {module : Module}
    {linked : List Intrinsics.Function} {heap heap' : Heap} {instance_ : ModuleInstance}
    (h : instantiateModule platform module linked heap = (.ok instance_, heap')) :
    ∃ tables memories, instantiateMemories platform module.memories.defs heap =
        (.ok memories, heap') ∧
      completeInstance platform module linked tables memories = .ok instance_ := by
  unfold instantiateModule at h
  dsimp only at h
  split at h
  · cases h
  · next tables htables =>
    split at h
    · cases h
    · next memories heap hmemories =>
      obtain ⟨hinstance, rfl⟩ := Prod.mk.inj h
      exact ⟨tables, memories, hmemories, hinstance⟩

/-- A table is created with the minimum of its type, and nothing is set. -/
theorem table_eq_of_createTable {platform : Platform} {type : TableType} {table : TableInstance}
    (hcreate : createTable platform type = some table) :
    table = ⟨type, List.replicate type.size.min none⟩ := by
  unfold createTable growTable at hcreate
  split at hcreate
  · split at hcreate
    · split at hcreate
      · cases hcreate
      · split at hcreate
        · cases hcreate
          rfl
        · cases hcreate
    · next hzero =>
      cases hcreate
      rw [Nat.eq_zero_of_not_pos hzero]
      rfl
  · cases hcreate

/-- The tables of an instance are those it creates, with the segments copied. -/
theorem tables_of_instantiateModule {platform : Platform} {module : Module}
    {linked : List Intrinsics.Function} {heap heap' : Heap} {instance_ : ModuleInstance}
    (h : instantiateModule platform module linked heap = (.ok instance_, heap')) :
    ∃ tables, instantiateTables platform module = .ok tables ∧
      module.tableSegments.foldlM
        (copyTableSegment instance_.globals instance_.functions) tables =
          .ok instance_.tables := by
  unfold instantiateModule at h
  dsimp only at h
  split at h
  · cases h
  · next tables htables =>
    obtain ⟨u, -, htables⟩ := Except.bind_eq_ok.1 htables
    refine ⟨tables, htables, ?_⟩
    split at h
    · cases h
    · next memories heap hmemories =>
      obtain ⟨h, -⟩ := Prod.mk.inj h
      obtain ⟨_, -, h⟩ := Except.bind_eq_ok.1 h
      obtain ⟨_, -, h⟩ := Except.bind_eq_ok.1 h
      obtain ⟨_, -, h⟩ := Except.bind_eq_ok.1 h
      obtain ⟨globals, -, h⟩ := Except.bind_eq_ok.1 h
      obtain ⟨_, -, h⟩ := Except.bind_eq_ok.1 h
      obtain ⟨copied, hcopied, h⟩ := Except.bind_eq_ok.1 h
      obtain ⟨_, -, h⟩ := Except.bind_eq_ok.1 h
      cases h
      exact hcopied

end FractalWasm.Runtime
