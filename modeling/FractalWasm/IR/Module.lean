import FractalWasm.IR.Types

/-!
# Module definitions

The in-memory form of a WebAssembly module (`IR/Module.h`). Function bodies stay encoded: `code`
holds the operators in the IR's own byte format, and a branch-table operator refers to its target
list by an index into `branchTables`.

An index space holds imports first and definitions behind them (`IndexSpace`), and an index into it
is resolved accordingly (`getType?`). What a function's type is depends on two lookups, in the index
space and in the list of types (`functionType?`); either may fail before the definitions have been
checked.
-/

namespace FractalWasm.IR

/-- An initializer expression: a constant or an immutable global. Floating-point constants are
kept as their bits. -/
inductive InitializerExpression where
  | i32Const (value : UInt32)
  | i64Const (value : UInt64)
  | f32Const (bits : UInt32)
  | f64Const (bits : UInt64)
  | getGlobal (globalIndex : Nat)
  | error
  deriving DecidableEq, Repr

structure FunctionDef where
  /-- The index of the function's type in `Module.types`. -/
  type : Nat
  nonParameterLocalTypes : List ValueType
  code : Bytes
  branchTables : List (List UInt32)
  deriving DecidableEq, Repr

structure GlobalDef where
  type : GlobalType
  initializer : InitializerExpression
  deriving DecidableEq, Repr

/-- An object imported into a module. -/
structure Import (Ty : Type) where
  type : Ty
  moduleName : Bytes
  exportName : Bytes
  deriving DecidableEq, Repr

structure Export where
  name : Bytes
  kind : ObjectKind
  index : Nat
  deriving DecidableEq, Repr

structure DataSegment where
  memoryIndex : Nat
  baseOffset : InitializerExpression
  data : Bytes
  deriving DecidableEq, Repr

structure TableSegment where
  tableIndex : Nat
  baseOffset : InitializerExpression
  indices : List Nat
  deriving DecidableEq, Repr

structure UserSection where
  name : Bytes
  data : Bytes
  deriving DecidableEq, Repr

/-- Imports and definitions of one kind share one index space, imports first. -/
structure IndexSpace (Definition Ty : Type) where
  imports : List (Import Ty)
  defs : List Definition
  deriving DecidableEq, Repr

namespace IndexSpace

variable {Definition Ty : Type}

def empty : IndexSpace Definition Ty := ⟨[], []⟩

def size (space : IndexSpace Definition Ty) : Nat :=
  space.imports.length + space.defs.length

/-- `IndexSpace::getType`; `none` where the C++ reads out of bounds. -/
def getType? (typeOf : Definition → Ty) (space : IndexSpace Definition Ty) (index : Nat) :
    Option Ty :=
  if index < space.imports.length then (space.imports[index]?).map (·.type)
  else (space.defs[index - space.imports.length]?).map typeOf

theorem lt_size_of_getType? {typeOf : Definition → Ty} {space : IndexSpace Definition Ty}
    {index : Nat} {type : Ty} (h : space.getType? typeOf index = some type) :
    index < space.size := by
  unfold getType? at h
  unfold size
  split at h
  · omega
  · obtain ⟨definition, hdef, -⟩ := Option.map_eq_some_iff.1 h
    obtain ⟨hlt, -⟩ := List.getElem?_eq_some_iff.1 hdef
    omega

end IndexSpace

structure Module where
  types : List FunctionType
  functions : IndexSpace FunctionDef Nat
  tables : IndexSpace TableType TableType
  memories : IndexSpace MemoryType MemoryType
  globals : IndexSpace GlobalDef GlobalType
  exports : List Export
  dataSegments : List DataSegment
  tableSegments : List TableSegment
  userSections : List UserSection
  /-- `none` where the source has `UINTPTR_MAX`. -/
  startFunctionIndex : Option Nat
  deriving DecidableEq, Repr

namespace Module

/-- `Module::Module()`. -/
def empty : Module where
  types := []
  functions := .empty
  tables := .empty
  memories := .empty
  globals := .empty
  exports := []
  dataSegments := []
  tableSegments := []
  userSections := []
  startFunctionIndex := none

def functionTypeIndex? (module : Module) (functionIndex : Nat) : Option Nat :=
  module.functions.getType? FunctionDef.type functionIndex

/-- `module.types[module.functions.getType(functionIndex).index]`. -/
def functionType? (module : Module) (functionIndex : Nat) : Option FunctionType :=
  (module.functionTypeIndex? functionIndex).bind (module.types[·]?)

theorem lt_size_of_functionType? {module : Module} {functionIndex : Nat} {type : FunctionType}
    (h : module.functionType? functionIndex = some type) :
    functionIndex < module.functions.size := by
  obtain ⟨typeIndex, hindex, -⟩ := Option.bind_eq_some_iff.1 h
  exact IndexSpace.lt_size_of_getType? hindex

end Module

end FractalWasm.IR
