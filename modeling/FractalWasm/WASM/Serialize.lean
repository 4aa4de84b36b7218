import FractalWasm.Serialization.Output
import FractalWasm.WASM.Deserialize

/-!
# The binary module format: encoding

The output half of `WASM/WASMSerialization.cpp`. Sections whose contents are empty are left out, the
one of imports is written by kind, and locals are grouped into runs of one type.

**Containers** (`serializeSection`): the body is written first, and its size in front of it.

**Function bodies** (`serializeFunctionBody`): the code in the IR's format is decoded again,
operator by operator, and written with the branch tables of the function.

**User sections** (`serializeUserSection`): the code asks an output stream for its capacity, which
is unlimited, and fails.
-/

namespace FractalWasm.WASM.Output

open Codec IR Writer Serialization.Output
open Serialization (OutputWriter signExtend)

/-! ## Types and entities -/

/-- The C++ conversion of a byte to an `I8`. -/
def int8OfByte (byte : UInt8) : Int := signExtend 8 byte.toNat

def serializeValueType (type : ValueType) : OutputWriter :=
  serializeVarInt7 (int8OfByte (-type.toByte))

def serializeResultType (returnType : ResultType) : OutputWriter :=
  if returnType = .none then serializeVarUInt1 0
  else concat [serializeVarUInt1 1, serializeVarInt7 (int8OfByte (-returnType.toByte))]

def serializeSizeConstraints (sizeConstraints : SizeConstraints) (hasMax : Bool) : OutputWriter :=
  if hasMax then
    concat [serializeVarUInt32 sizeConstraints.min, serializeVarUInt32 sizeConstraints.max]
  else serializeVarUInt32 sizeConstraints.min

/-- The flags of a table or memory type: whether it has a maximum. -/
def sizeFlags (size : SizeConstraints) : Nat := if size.max = uint64Max then 0 else 1

def serializeTableType (tableType : TableType) : OutputWriter :=
  concat [serializeU8 tableType.elementType.toByte, serializeVarUInt32 (sizeFlags tableType.size),
    serializeSizeConstraints tableType.size (sizeFlags tableType.size % 2 = 1)]

def serializeMemoryType (memoryType : MemoryType) : OutputWriter :=
  concat [serializeVarUInt32 (sizeFlags memoryType.size),
    serializeSizeConstraints memoryType.size (sizeFlags memoryType.size % 2 = 1)]

def serializeGlobalType (globalType : GlobalType) : OutputWriter :=
  concat [serializeValueType globalType.valueType,
    serializeVarUInt1 (if globalType.isMutable then 1 else 0)]

def serializeObjectKind (kind : ObjectKind) : OutputWriter := serializeU8 kind.toByte

def serializeExport (e : Export) : OutputWriter :=
  concat [serializeString e.name, throwIfNotValidUTF8 e.name, serializeObjectKind e.kind,
    serializeVarUInt32 e.index]

/-- `InitializerExpression::Type` -/
def initializerType : InitializerExpression → UInt8
  | .i32Const _ => 0x41
  | .i64Const _ => 0x42
  | .f32Const _ => 0x43
  | .f64Const _ => 0x44
  | .getGlobal _ => 0x23
  | .error => 0xff

def serializeInitializerOperand : InitializerExpression → OutputWriter
  | .i32Const value => serializeVarInt32 (signExtend 32 value.toNat)
  | .i64Const value => serializeVarInt64 (signExtend 64 value.toNat)
  | .f32Const bits => serializeU32 bits
  | .f64Const bits => serializeU64 bits
  | .getGlobal globalIndex => serializeVarUInt32 globalIndex
  | .error => .error (.fatalSerialization "invalid initializer expression opcode")

def serializeInitializer (initializer : InitializerExpression) : OutputWriter :=
  concat [serializeU8 (initializerType initializer), serializeInitializerOperand initializer,
    serializeU8 0x0b]

def serializeGlobalDef (globalDef : GlobalDef) : OutputWriter :=
  concat [serializeGlobalType globalDef.type, serializeInitializer globalDef.initializer]

def serializeDataSegment (dataSegment : DataSegment) : OutputWriter :=
  concat [serializeVarUInt32 dataSegment.memoryIndex, serializeInitializer dataSegment.baseOffset,
    serializeArray serializeU8 dataSegment.data]

def serializeTableSegment (tableSegment : TableSegment) : OutputWriter :=
  concat [serializeVarUInt32 tableSegment.tableIndex, serializeInitializer tableSegment.baseOffset,
    serializeArray serializeVarUInt32 tableSegment.indices]

/-! ## Operators -/

def serializeOpcode (opcode : Nat) : OutputWriter :=
  if opcode ≤ maxSingleByteOpcode then serializeU8 opcode.toUInt8
  else concat [serializeU8 (opcode / 256).toUInt8, serializeU8 opcode.toUInt8]

def serializeWord (value : UInt32) : OutputWriter := serializeVarUInt32 value.toNat

def serializeControlStructureImm (resultType : ResultType) : OutputWriter :=
  serializeVarInt7 (if resultType = .none then -64 else int8OfByte (-resultType.toByte))

/-- The immediate of a `br_table` is written as the table it refers to. -/
def serializeBranchTableImm (branchTables : List (List UInt32))
    (defaultTargetDepth branchTableIndex : UInt64) : Except Exception Bytes := do
  wavmAssertThrow (branchTableIndex.toNat < branchTables.length)
    "imm.branchTableIndex < functionDef.branchTables.size()"
  concat [serializeArray serializeWord (branchTables.getD branchTableIndex.toNat []),
    serializeVarUInt32 defaultTargetDepth.toNat]

def serializeImm (branchTables : List (List UInt32)) : Operator → OutputWriter
  | .block resultType | .loop resultType | .if_ resultType =>
    serializeControlStructureImm resultType
  | .br targetDepth | .brIf targetDepth => serializeWord targetDepth
  | .brTable defaultTargetDepth branchTableIndex =>
    serializeBranchTableImm branchTables defaultTargetDepth branchTableIndex
  | .call functionIndex => serializeWord functionIndex
  | .callIndirect type => concat [serializeWord type, serializeU8 0]
  | .getLocal variableIndex | .setLocal variableIndex | .teeLocal variableIndex
  | .getGlobal variableIndex | .setGlobal variableIndex => serializeWord variableIndex
  | .load _ alignmentLog2 offset | .store _ alignmentLog2 offset =>
    concat [serializeVarUInt7 alignmentLog2.toNat, serializeWord offset]
  | .currentMemory | .growMemory => serializeU8 0
  | .i32Const value => serializeVarInt32 (signExtend 32 value.toNat)
  | .i64Const value => serializeVarInt64 (signExtend 64 value.toNat)
  | .f32Const bits => serializeU32 bits
  | .f64Const bits => serializeU64 bits
  | .unreachable | .nop | .else_ | .end_ | .return_ | .drop | .select | .numeric _ => .ok []

/-- `OperatorSerializerStream`: one operator. -/
def serializeOperator (branchTables : List (List UInt32)) (op : Operator) : OutputWriter :=
  concat [serializeOpcode op.opcode.code, serializeImm branchTables op]

/-- The operators of a body, at most `fuel` of them. -/
def serializeCode (branchTables : List (List UInt32)) : Nat → Bytes → Except Exception Bytes
  | 0, _ => .ok []
  | fuel + 1, code =>
    if code = [] then .ok []
    else do
      let (op, code) ← decodeOp code
      match op with
      | .inl op => concat [serializeOperator branchTables op, serializeCode branchTables fuel code]
      | .inr _ => .error (.fatalSerialization "unknown opcode")

/-! ## Function bodies -/

structure LocalSet where
  num : Nat
  type : ValueType
  deriving DecidableEq, Repr

def serializeLocalSet (localSet : LocalSet) : OutputWriter :=
  concat [serializeVarUInt32 localSet.num, serializeValueType localSet.type]

/-- The runs of locals, `localSet` being the one that is growing. A run of type `any` is the empty
first one; it is dropped. -/
def localSetsFrom (localSet : LocalSet) : List ValueType → List LocalSet
  | [] => if localSet.type ≠ .any then [localSet] else []
  | localType :: localTypes =>
    if localSet.type ≠ localType then
      (if localSet.type ≠ .any then [localSet] else []) ++ localSetsFrom ⟨1, localType⟩ localTypes
    else localSetsFrom ⟨localSet.num + 1, localType⟩ localTypes

def localSets (nonParameterLocalTypes : List ValueType) : List LocalSet :=
  localSetsFrom ⟨0, .any⟩ nonParameterLocalTypes

/-- The bytes of a body, before their number is written. -/
def serializeBody (functionDef : FunctionDef) : OutputWriter :=
  concat [serializeVarUInt32 (localSets functionDef.nonParameterLocalTypes).length,
    concat ((localSets functionDef.nonParameterLocalTypes).map serializeLocalSet),
    serializeCode functionDef.branchTables functionDef.code.length functionDef.code]

def serializeFunctionBody (functionDef : FunctionDef) : Except Exception Bytes := do
  let bodyBytes ← serializeBody functionDef
  serializeString bodyBytes

/-! ## Sections -/

def serializeSection (type : UInt8) (serializeSectionBody : OutputWriter) :
    Except Exception Bytes := do
  let sectionBytes ← serializeSectionBody
  concat [serializeU8 type, serializeVarUInt32 sectionBytes.length, serializeBytes sectionBytes]

def serializeFunctionType (functionType : FunctionType) : OutputWriter :=
  concat [serializeU8 0x60, serializeArray serializeValueType functionType.parameters,
    serializeResultType functionType.ret]

def serializeTypeSection (module : Module) : OutputWriter :=
  serializeSection 1 (serializeArray serializeFunctionType module.types)

def serializeImport {Ty : Type} (kind : ObjectKind) (serializeType : Ty → OutputWriter)
    (import_ : Import Ty) : OutputWriter :=
  concat [serializeString import_.moduleName, serializeString import_.exportName,
    serializeObjectKind kind, serializeType import_.type]

def numImports (module : Module) : Nat :=
  module.functions.imports.length + module.tables.imports.length +
    module.memories.imports.length + module.globals.imports.length

def serializeImportSection (module : Module) : OutputWriter :=
  serializeSection 2 <| concat [serializeVarUInt32 (numImports module),
    concat (module.functions.imports.map (serializeImport .function serializeVarUInt32)),
    concat (module.tables.imports.map (serializeImport .table serializeTableType)),
    concat (module.memories.imports.map (serializeImport .memory serializeMemoryType)),
    concat (module.globals.imports.map (serializeImport .global serializeGlobalType))]

def serializeFunctionSection (module : Module) : OutputWriter :=
  serializeSection 3 <| concat [serializeVarUInt32 module.functions.defs.length,
    concat (module.functions.defs.map fun function => serializeVarUInt32 function.type)]

def serializeTableSection (module : Module) : OutputWriter :=
  serializeSection 4 (serializeArray serializeTableType module.tables.defs)

def serializeMemorySection (module : Module) : OutputWriter :=
  serializeSection 5 (serializeArray serializeMemoryType module.memories.defs)

def serializeGlobalSection (module : Module) : OutputWriter :=
  serializeSection 6 (serializeArray serializeGlobalDef module.globals.defs)

def serializeExportSection (module : Module) : OutputWriter :=
  serializeSection 7 (serializeArray serializeExport module.exports)

def serializeStartSection (startFunctionIndex : Nat) : OutputWriter :=
  serializeSection 8 (serializeVarUInt32 startFunctionIndex)

def serializeElementSection (module : Module) : OutputWriter :=
  serializeSection 9 (serializeArray serializeTableSegment module.tableSegments)

def serializeCodeSection (module : Module) : OutputWriter :=
  serializeSection 10 <| concat [serializeVarUInt32 module.functions.defs.length,
    concat (module.functions.defs.map serializeFunctionBody)]

def serializeDataSection (module : Module) : OutputWriter :=
  serializeSection 11 (serializeArray serializeDataSegment module.dataSegments)

/-- The data is resized to the capacity of an output stream, `SIZE_MAX` bytes; `resize` throws a
`std::length_error`, since no vector holds as many. -/
def serializeUserSection (userSection : UserSection) : OutputWriter :=
  concat [serializeU8 0, serializeString userSection.name,
    .error (.lengthError "vector::_M_default_append")]

/-! ## Modules -/

/-- A section that is left out unless it `isPresent`. -/
def optional (isPresent : Bool) (serializeOptional : OutputWriter) : OutputWriter :=
  if isPresent then serializeOptional else .ok []

def serializeModule (module : Module) : OutputWriter :=
  concat [serializeU32 magicNumber, serializeU32 currentVersion,
    optional (module.types.length > 0) (serializeTypeSection module),
    optional (numImports module > 0) (serializeImportSection module),
    optional (module.functions.defs.length > 0) (serializeFunctionSection module),
    optional (module.tables.defs.length > 0) (serializeTableSection module),
    optional (module.memories.defs.length > 0) (serializeMemorySection module),
    optional (module.globals.defs.length > 0) (serializeGlobalSection module),
    optional (module.exports.length > 0) (serializeExportSection module),
    module.startFunctionIndex.elim (.ok []) serializeStartSection,
    optional (module.tableSegments.length > 0) (serializeElementSection module),
    optional (module.functions.defs.length > 0) (serializeCodeSection module),
    optional (module.dataSegments.length > 0) (serializeDataSection module),
    concat (module.userSections.map serializeUserSection)]

end Output

/-- `WASM::serialize(stream, module)` on an `ArrayOutputStream`. -/
def encode (module : IR.Module) : Except Exception IR.Bytes := Output.serializeModule module

end FractalWasm.WASM
