import FractalWasm.IR.Validate
import FractalWasm.Serialization

/-!
# The binary module format: decoding

The input half of `WASM/WASMSerialization.cpp`. A module is a header followed by sections in
increasing order, user sections anywhere between them; function bodies are validated operator by
operator while they are re-encoded in the IR's format.

**Operators** (`serializeOperator`): an opcode, its immediate, the check of the validator and the
encoding in the IR's format, in this order.

**Sections** (`serializeKnownSection`): each works on the module that the sections before it have
left, and a known section must come behind all known sections so far.

**Modules** (`decode`): the sections until the input ends, and then the definition checks.
-/

namespace FractalWasm.WASM

open Codec IR Serialization

/-! ## Types and entities -/

/-- The low byte of a C++ integer conversion. -/
def byteOfInt (value : Int) : UInt8 := (value % 256).toNat.toUInt8

/-- `value` stored in a 32-bit field. -/
def wordOfInt (value : Int) : UInt32 := (value % 2 ^ 32).toNat.toUInt32

/-- `value` stored in a 64-bit field. -/
def dwordOfInt (value : Int) : UInt64 := (value % 2 ^ 64).toNat.toUInt64

def serializeValueType : InputReader ValueType := do
  let encodedValueType ← serializeVarInt7
  return .ofByte (byteOfInt (-encodedValueType))

def serializeResultType : InputReader ResultType := do
  let arity ← serializeVarUInt1
  if arity = 0 then return .none
  else
    let encodedValueType ← serializeVarInt7
    return .ofByte (byteOfInt (-encodedValueType))

def serializeSizeConstraints (hasMax : Bool) : InputReader SizeConstraints := do
  let min ← serializeVarUInt32
  if hasMax then return ⟨min, ← serializeVarUInt32⟩
  else return ⟨min, uint64Max⟩

/-- `isShared` is left at its default: the threading prototype is disabled. -/
def serializeTableType : InputReader TableType := do
  let elementType ← serializeU8
  let flags ← serializeVarUInt32
  let size ← serializeSizeConstraints (flags % 2 = 1)
  return ⟨.ofByte elementType, false, size⟩

def serializeMemoryType : InputReader MemoryType := do
  let flags ← serializeVarUInt32
  let size ← serializeSizeConstraints (flags % 2 = 1)
  return ⟨false, size⟩

def serializeGlobalType : InputReader GlobalType := do
  let valueType ← serializeValueType
  let isMutable ← serializeVarUInt1
  return ⟨valueType, isMutable ≠ 0⟩

def serializeObjectKind : InputReader ObjectKind := do
  return .ofByte (← serializeU8)

def serializeExport : InputReader Export := do
  let name ← serializeString
  throwIfNotValidUTF8 name
  let kind ← serializeObjectKind
  let index ← serializeVarUInt32
  return ⟨name, kind, index⟩

/-- The operand of an initializer of the given type. -/
def serializeInitializerOperand (type : UInt8) : InputReader InitializerExpression := do
  if type = 0x41 then return .i32Const (wordOfInt (← serializeVarInt32))
  else if type = 0x42 then return .i64Const (dwordOfInt (← serializeVarInt64))
  else if type = 0x43 then return .f32Const (← serializeU32)
  else if type = 0x44 then return .f64Const (← serializeU64)
  else if type = 0x23 then return .getGlobal (← serializeVarUInt32)
  else throwFatal "invalid initializer expression opcode"

def serializeInitializer : InputReader InitializerExpression := do
  let type ← serializeU8
  let initializer ← serializeInitializerOperand type
  serializeConstantU8 "expected end opcode" 0x0b
  return initializer

def serializeGlobalDef : InputReader GlobalDef := do
  let type ← serializeGlobalType
  let initializer ← serializeInitializer
  return ⟨type, initializer⟩

def serializeDataSegment : InputReader DataSegment := do
  let memoryIndex ← serializeVarUInt32
  let baseOffset ← serializeInitializer
  let data ← serializeArray serializeU8
  return ⟨memoryIndex, baseOffset, data⟩

def serializeTableSegment : InputReader TableSegment := do
  let tableIndex ← serializeVarUInt32
  let baseOffset ← serializeInitializer
  let indices ← serializeArray serializeVarUInt32
  return ⟨tableIndex, baseOffset, indices⟩

/-! ## Operators -/

/-- `Opcode::maxSingleByteOpcode` -/
def maxSingleByteOpcode : Nat := 0xcf

def serializeOpcode : InputReader Nat := do
  let opcode := (← serializeU8).toNat
  if opcode > maxSingleByteOpcode then return opcode * 256 + (← serializeU8).toNat
  else return opcode

def serializeWord : InputReader UInt32 := do
  return (← serializeVarUInt32).toUInt32

/-- The branch tables of the function so far are extended by the one a `br_table` carries. -/
def serializeImm (branchTables : List (List UInt32)) (opcode : Opcode) :
    InputReader (Operator × List (List UInt32)) :=
  match opcode with
  | .block => do return (.block (← controlStructureImm), branchTables)
  | .loop => do return (.loop (← controlStructureImm), branchTables)
  | .if_ => do return (.if_ (← controlStructureImm), branchTables)
  | .br => do return (.br (← serializeWord), branchTables)
  | .brIf => do return (.brIf (← serializeWord), branchTables)
  | .brTable => do
    let branchTable ← serializeArray serializeWord
    let defaultTargetDepth ← serializeVarUInt32
    return (.brTable defaultTargetDepth.toUInt64 branchTables.length.toUInt64,
      branchTables ++ [branchTable])
  | .call => do return (.call (← serializeWord), branchTables)
  | .callIndirect => do
    let index ← serializeWord
    serializeConstantU8 "call_indirect immediate reserved field must be 0" 0
    return (.callIndirect index, branchTables)
  | .getLocal => do return (.getLocal (← serializeWord), branchTables)
  | .setLocal => do return (.setLocal (← serializeWord), branchTables)
  | .teeLocal => do return (.teeLocal (← serializeWord), branchTables)
  | .getGlobal => do return (.getGlobal (← serializeWord), branchTables)
  | .setGlobal => do return (.setGlobal (← serializeWord), branchTables)
  | .load op => do
    let alignmentLog2 ← serializeVarUInt7
    return (.load op alignmentLog2.toUInt8 (← serializeWord), branchTables)
  | .store op => do
    let alignmentLog2 ← serializeVarUInt7
    return (.store op alignmentLog2.toUInt8 (← serializeWord), branchTables)
  | .currentMemory => do
    serializeConstantU8 "grow_memory/current_memory immediate reserved field must be 0" 0
    return (.currentMemory, branchTables)
  | .growMemory => do
    serializeConstantU8 "grow_memory/current_memory immediate reserved field must be 0" 0
    return (.growMemory, branchTables)
  | .i32Const => do return (.i32Const (wordOfInt (← serializeVarInt32)), branchTables)
  | .i64Const => do return (.i64Const (dwordOfInt (← serializeVarInt64)), branchTables)
  | .f32Const => do return (.f32Const (← serializeU32), branchTables)
  | .f64Const => do return (.f64Const (← serializeU64), branchTables)
  | .unreachable => return (.unreachable, branchTables)
  | .nop => return (.nop, branchTables)
  | .else_ => return (.else_, branchTables)
  | .end_ => return (.end_, branchTables)
  | .return_ => return (.return_, branchTables)
  | .drop => return (.drop, branchTables)
  | .select => return (.select, branchTables)
  | .numeric op => return (.numeric op, branchTables)
where
  controlStructureImm : InputReader ResultType := do
    let encodedResultType ← serializeVarInt7
    if encodedResultType = -64 then return .none
    else return .ofByte (byteOfInt (-encodedResultType))

/-- What `serializeFunctionBody` updates as it reads operators. -/
structure BodyState where
  context : FunctionValidationContext
  branchTables : List (List UInt32)
  code : Bytes

/-- One round of the operator loop: read, validate, re-encode. -/
def serializeOperator (module : Module) (state : BodyState) : InputReader BodyState := do
  let opcode ← serializeOpcode
  match Opcode.ofCode? opcode with
  | none => throwFatal "unknown opcode"
  | some opcode =>
    let (op, branchTables) ← serializeImm state.branchTables opcode
    let ((), context) ← FunctionValidationContext.visit module branchTables op state.context
    return ⟨context, branchTables, state.code ++ op.encode⟩

/-! ## Function bodies -/

/-- The remaining local sets, with the bytes their locals took so far and the locals so far. -/
def serializeLocalSets : Nat → Nat → List ValueType → InputReader (List ValueType)
  | 0, _, localTypes => pure localTypes
  | numLocalSets + 1, localsAccum, localTypes => do
    let num ← serializeVarUInt32
    let type ← serializeValueType
    let localsAccum := localsAccum + num * 4
    throwIf (localsAccum > maximumFuncLocalBytes) "too many locals"
    serializeLocalSets numLocalSets localsAccum (localTypes ++ List.replicate num type)

/-- Runs a reader on a section's or a body's own bytes; what it leaves is returned. -/
def onBytes {α : Type} (bytes : Bytes) (reader : InputReader α) : InputReader (α × Bytes) :=
  liftM (reader bytes)

/-- The part of `serializeFunctionBody` that reads the body's own bytes. -/
def serializeBody (module : Module) (functionDef : FunctionDef) (numBodyBytes : Nat) :
    InputReader FunctionDef := do
  let numLocalSets ← serializeVarUInt32
  throwIf (numBodyBytes ≥ maximumCodeSize) "Function body too large"
  throwIf (numLocalSets ≥ 1024) "too many local sets"
  let localTypes ← serializeLocalSets numLocalSets 0 functionDef.nonParameterLocalTypes
  let state ← Reader.loop (serializeOperator module)
    ⟨.init (functionDef.functionType module) localTypes, functionDef.branchTables, []⟩
  liftM state.context.finish
  return { functionDef with
    nonParameterLocalTypes := localTypes
    code := state.code
    branchTables := state.branchTables }

def serializeFunctionBody (module : Module) (functionDef : FunctionDef) :
    InputReader FunctionDef := do
  let numBodyBytes ← serializeVarUInt32
  let bodyBytes ← advance numBodyBytes
  let (functionDef, _) ← onBytes bodyBytes (serializeBody module functionDef numBodyBytes)
  return functionDef

/-- The bodies of all definitions. The validator reads other definitions for their types only, so
it is given the module as it was before the code section. -/
def serializeFunctionBodies (module : Module) : List FunctionDef → InputReader (List FunctionDef)
  | [] => pure []
  | functionDef :: functionDefs => do
    let functionDef ← serializeFunctionBody module functionDef
    return functionDef :: (← serializeFunctionBodies module functionDefs)

/-! ## Sections -/

/-- `serializeSection`, once `peek` has found the expected section type. -/
def serializeSection {α : Type} (serializeSectionBody : InputReader α) : InputReader α := do
  let _ ← advance 1
  let numSectionBytes ← serializeVarUInt32
  let sectionBytes ← advance numSectionBytes
  let (a, rest) ← onBytes sectionBytes serializeSectionBody
  throwIf (rest.length != 0) "section contained more data than expected"
  return a

def serializeFunctionType : InputReader FunctionType := do
  serializeConstantU8 "function type tag" 0x60
  let parameterTypes ← serializeArray serializeValueType
  let returnType ← serializeResultType
  return ⟨returnType, parameterTypes⟩

def serializeTypeSection (module : Module) : InputReader Module :=
  serializeSection do
    return { module with types := ← serializeArray serializeFunctionType }

/-- One import. The limit on function imports is checked after every import, whatever its kind. -/
def serializeImport (module : Module) : InputReader Module := do
  let moduleName ← serializeString
  let exportName ← serializeString
  throwIfNotValidUTF8 moduleName
  throwIfNotValidUTF8 exportName
  let kind ← serializeObjectKind
  match kind with
  | .function =>
    let functionTypeIndex ← serializeVarUInt32
    throwIf (functionTypeIndex ≥ module.types.length) "invalid import function type index"
    let imports := module.functions.imports ++ [⟨functionTypeIndex, moduleName, exportName⟩]
    throwIf (imports.length ≥ maximumSectionElements) "Too many function imports"
    return { module with functions := { module.functions with imports } }
  | .table =>
    let tableType ← serializeTableType
    let imports := module.tables.imports ++ [⟨tableType, moduleName, exportName⟩]
    throwIf (module.functions.imports.length ≥ maximumSectionElements) "Too many table imports"
    return { module with tables := { module.tables with imports } }
  | .memory =>
    let memoryType ← serializeMemoryType
    let imports := module.memories.imports ++ [⟨memoryType, moduleName, exportName⟩]
    throwIf (module.functions.imports.length ≥ maximumSectionElements) "Too many memory imports"
    return { module with memories := { module.memories with imports } }
  | .global =>
    let globalType ← serializeGlobalType
    let imports := module.globals.imports ++ [⟨globalType, moduleName, exportName⟩]
    throwIf (module.functions.imports.length ≥ maximumSectionElements) "Too many global imports"
    return { module with globals := { module.globals with imports } }
  | _ => throwFatal "invalid ObjectKind"

def serializeImports : Nat → Module → InputReader Module
  | 0, module => pure module
  | size + 1, module => do serializeImports size (← serializeImport module)

def serializeImportSection (module : Module) : InputReader Module :=
  serializeSection do
    let size ← serializeVarUInt32
    serializeImports size module

def serializeFunctionDeclaration (module : Module) : InputReader FunctionDef := do
  let functionTypeIndex ← serializeVarUInt32
  throwIf (functionTypeIndex ≥ module.types.length) "invalid function type index"
  return ⟨functionTypeIndex, [], [], []⟩

def serializeFunctionSection (module : Module) : InputReader Module :=
  serializeSection do
    let numFunctions ← serializeVarUInt32
    throwIf (numFunctions ≥ maximumSectionElements) "Too many function defs"
    let defs ← (serializeFunctionDeclaration module).many numFunctions
    return { module with functions := { module.functions with defs } }

def serializeTableSection (module : Module) : InputReader Module :=
  serializeSection do
    return { module with
      tables := { module.tables with defs := ← serializeArray serializeTableType } }

def serializeMemorySection (module : Module) : InputReader Module :=
  serializeSection do
    return { module with
      memories := { module.memories with defs := ← serializeArray serializeMemoryType } }

def serializeGlobalSection (module : Module) : InputReader Module :=
  serializeSection do
    return { module with
      globals := { module.globals with defs := ← serializeArray serializeGlobalDef } }

def serializeExportSection (module : Module) : InputReader Module :=
  serializeSection do
    return { module with exports := ← serializeArray serializeExport }

def serializeStartSection (module : Module) : InputReader Module :=
  serializeSection do
    return { module with startFunctionIndex := some (← serializeVarUInt32) }

def serializeElementSection (module : Module) : InputReader Module :=
  serializeSection do
    return { module with tableSegments := ← serializeArray serializeTableSegment }

def serializeCodeSection (module : Module) : InputReader Module :=
  serializeSection do
    let numFunctionBodies ← serializeVarUInt32
    throwIf (numFunctionBodies != module.functions.defs.length)
      "function and code sections have mismatched function counts"
    let defs ← serializeFunctionBodies module module.functions.defs
    return { module with functions := { module.functions with defs } }

def serializeDataSection (module : Module) : InputReader Module :=
  serializeSection do
    return { module with dataSegments := ← serializeArray serializeDataSegment }

/-- A user section: a name and the rest of the section's bytes. -/
def serializeUserSection (module : Module) : InputReader Module := do
  serializeConstantU8 "expected user section (section ID 0)" 0
  let numSectionBytes ← serializeVarUInt32
  let sectionBytes ← advance numSectionBytes
  let (userSection, rest) ← onBytes sectionBytes do
    let name ← serializeString
    throwIfNotValidUTF8 name
    let data ← serializeBytes (← get).length
    return (⟨name, data⟩ : UserSection)
  wavmAssertThrow (rest.length = 0) "!sectionStream.capacity()"
  return { module with userSections := module.userSections ++ [userSection] }

/-! ## Modules -/

/-- The loop state of `serializeModule`: the last section that is not a user section. -/
structure ModuleState where
  lastKnownSectionType : UInt8
  module : Module

def serializeKnownSection (sectionType : UInt8) (module : Module) : InputReader Module :=
  match sectionType.toNat with
  | 1 => serializeTypeSection module
  | 2 => serializeImportSection module
  | 3 => serializeFunctionSection module
  | 4 => serializeTableSection module
  | 5 => serializeMemorySection module
  | 6 => serializeGlobalSection module
  | 7 => serializeExportSection module
  | 8 => serializeStartSection module
  | 9 => serializeElementSection module
  | 10 => serializeCodeSection module
  | 11 => serializeDataSection module
  | _ => throwFatal "unknown section ID"

def serializeNextSection (state : ModuleState) : InputReader ModuleState := do
  let sectionType ← peekByte
  if sectionType = 0 then
    return { state with module := ← serializeUserSection state.module }
  else
    throwIf (sectionType ≤ state.lastKnownSectionType) "incorrect order for known section"
    let module ← serializeKnownSection sectionType state.module
    return ⟨sectionType, module⟩

/-- `"\0asm"` -/
def magicNumber : UInt32 := 0x6d736100

def currentVersion : UInt32 := 1

def serializeModule : InputReader Module := do
  serializeConstantU32 "magic number" magicNumber
  serializeConstantU32 "version" currentVersion
  let state ← Reader.loop serializeNextSection ⟨0, .empty⟩
  return state.module

/-- `WASM::serialize(stream, module)` on an input stream over `bytes`. -/
def decode (bytes : Bytes) : Except Exception Module := do
  let (module, _) ← serializeModule bytes
  validateDefinitions module
  return module

end FractalWasm.WASM
