import FractalWasm.WASM.DecodingErrors
import FractalWasm.WASM.RoundTrip.Modules

/-!
# What encoding fails with

A module without user sections, whose branch tables are all there, is encoded or refused with a
`FatalSerializationException`: a number does not fit its field, or a name is no UTF-8.

The lemmas follow the encoder from the stream up to the module (`errors_encode`), with one for each
function of `WASM/WASMSerialization.cpp` and the rules of `ErrorsIn` between them. The exceptions
left out are the assertion on branch tables, which holds of well-formed bodies, and the
`std::length_error` of a user section.
-/

namespace FractalWasm.WASM.Output

open Codec IR Serialization.Output
open Serialization (OutputWriter)

/-! ## The output stream -/

/-- A `FatalSerializationException` is what the encoder may fail with. -/
theorem errors_fatal (message : String) :
    ErrorsIn IsMalformed (.error (.fatalSerialization message) : OutputWriter) :=
  .error (.fatalSerialization message)

/-- A number beyond `maxBits` bits is refused. -/
theorem errors_serializeVarUInt (maxBits value : Nat) :
    ErrorsIn IsMalformed (serializeVarUInt maxBits value) :=
  .ite (errors_fatal _) (.ok _)

/-- The same of a signed number. -/
theorem errors_serializeVarInt (maxBits : Nat) (value : Int) :
    ErrorsIn IsMalformed (serializeVarInt maxBits value) :=
  .ite (errors_fatal _) (.ok _)

/-- Only the length of a string can be too large for its field. -/
theorem errors_serializeString (string : Bytes) : ErrorsIn IsMalformed (serializeString string) :=
  .concat_cons (errors_serializeVarUInt _ _) <| .concat_cons (.ok _) .concat_nil

/-- An array fails with what its elements fail with, or on its length. -/
theorem errors_serializeArray {α : Type} {element : α → OutputWriter} {vector : List α}
    (helement : ∀ a, ErrorsIn IsMalformed (element a)) :
    ErrorsIn IsMalformed (serializeArray element vector) :=
  .concat_cons (errors_serializeVarUInt _ _) (.concat_map fun a _ => helement a)

/-- The only check that depends on the bytes of a name. -/
theorem errors_throwIfNotValidUTF8 (string : Bytes) :
    ErrorsIn IsMalformed (throwIfNotValidUTF8 string) :=
  .ite (errors_fatal _) (.ok _)

/-! ## Types and entities -/

theorem errors_serializeValueType (type : ValueType) :
    ErrorsIn IsMalformed (serializeValueType type) :=
  errors_serializeVarInt _ _

/-- The arity and the type are written in seven bits and always fit. -/
theorem errors_serializeResultType (returnType : ResultType) :
    ErrorsIn IsMalformed (serializeResultType returnType) :=
  .ite (errors_serializeVarUInt _ _) <|
    .concat_cons (errors_serializeVarUInt _ _) <| .concat_cons (errors_serializeVarInt _ _) .concat_nil

/-- The bounds are `U64` but written as `VarUInt32`. -/
theorem errors_serializeSizeConstraints (size : SizeConstraints) (hasMax : Bool) :
    ErrorsIn IsMalformed (serializeSizeConstraints size hasMax) :=
  .ite (.concat_cons (errors_serializeVarUInt _ _) <|
    .concat_cons (errors_serializeVarUInt _ _) .concat_nil) (errors_serializeVarUInt _ _)

theorem errors_serializeTableType (tableType : TableType) :
    ErrorsIn IsMalformed (serializeTableType tableType) :=
  .concat_cons (.ok _) <| .concat_cons (errors_serializeVarUInt _ _) <|
    .concat_cons (errors_serializeSizeConstraints _ _) .concat_nil

theorem errors_serializeMemoryType (memoryType : MemoryType) :
    ErrorsIn IsMalformed (serializeMemoryType memoryType) :=
  .concat_cons (errors_serializeVarUInt _ _) <|
    .concat_cons (errors_serializeSizeConstraints _ _) .concat_nil

theorem errors_serializeGlobalType (globalType : GlobalType) :
    ErrorsIn IsMalformed (serializeGlobalType globalType) :=
  .concat_cons (errors_serializeValueType _) <|
    .concat_cons (errors_serializeVarUInt _ _) .concat_nil

/-- An export fails on its name or on an index beyond 32 bits. -/
theorem errors_serializeExport (e : Export) : ErrorsIn IsMalformed (serializeExport e) :=
  .concat_cons (errors_serializeString _) <| .concat_cons (errors_throwIfNotValidUTF8 _) <|
    .concat_cons (.ok _) <| .concat_cons (errors_serializeVarUInt _ _) .concat_nil

/-- Floating-point initializers are written as they are; the others are LEB128 numbers. -/
theorem errors_serializeInitializer (initializer : InitializerExpression) :
    ErrorsIn IsMalformed (serializeInitializer initializer) := by
  have hoperand : ErrorsIn IsMalformed (serializeInitializerOperand initializer) := by
    cases initializer with
    | i32Const _ | i64Const _ => exact errors_serializeVarInt _ _
    | f32Const _ | f64Const _ => exact .ok _
    | getGlobal _ => exact errors_serializeVarUInt _ _
    | error => exact errors_fatal _
  exact .concat_cons (.ok _) <| .concat_cons hoperand <| .concat_cons (.ok _) .concat_nil

theorem errors_serializeGlobalDef (globalDef : GlobalDef) :
    ErrorsIn IsMalformed (serializeGlobalDef globalDef) :=
  .concat_cons (errors_serializeGlobalType _) <|
    .concat_cons (errors_serializeInitializer _) .concat_nil

/-- A segment fails on its indices, its offset or the number of its bytes. -/
theorem errors_serializeDataSegment (dataSegment : DataSegment) :
    ErrorsIn IsMalformed (serializeDataSegment dataSegment) :=
  .concat_cons (errors_serializeVarUInt _ _) <| .concat_cons (errors_serializeInitializer _) <|
    .concat_cons (errors_serializeArray fun _ => .ok _) .concat_nil

theorem errors_serializeTableSegment (tableSegment : TableSegment) :
    ErrorsIn IsMalformed (serializeTableSegment tableSegment) :=
  .concat_cons (errors_serializeVarUInt _ _) <| .concat_cons (errors_serializeInitializer _) <|
    .concat_cons (errors_serializeArray fun _ => errors_serializeVarUInt _ _) .concat_nil

theorem errors_serializeFunctionType (functionType : FunctionType) :
    ErrorsIn IsMalformed (serializeFunctionType functionType) :=
  .concat_cons (.ok _) <| .concat_cons (errors_serializeArray errors_serializeValueType) <|
    .concat_cons (errors_serializeResultType _) .concat_nil

/-! ## Operators -/

/-- The table of a `br_table` is looked up by its index, which an assertion checks. -/
theorem errors_serializeBranchTableImm {branchTables : List (List UInt32)}
    {branchTableIndex : UInt64} (h : branchTableIndex.toNat < branchTables.length)
    (defaultTargetDepth : UInt64) : ErrorsIn IsMalformed
      (serializeBranchTableImm branchTables defaultTargetDepth branchTableIndex) := by
  have hassert := errors_wavmAssertThrow (decide_eq_true h)
    "imm.branchTableIndex < functionDef.branchTables.size()"
  exact .bind (hassert.mono fun _ => isMalformed_of_isInvalid) fun _ =>
    .concat_cons (errors_serializeArray fun _ => errors_serializeVarUInt _ _) <|
      .concat_cons (errors_serializeVarUInt _ _) .concat_nil

/-- No other immediate depends on the branch tables. -/
theorem errors_serializeImm {branchTables : List (List UInt32)} {op : Operator}
    (htable : ∀ index, op.branchTable? = some index → index < branchTables.length) :
    ErrorsIn IsMalformed (serializeImm branchTables op) := by
  cases op with
  | block _ | loop _ | if_ _ => exact errors_serializeVarInt _ _
  | brTable _ branchTableIndex => exact errors_serializeBranchTableImm (htable _ rfl) _
  | callIndirect _ =>
    exact .concat_cons (errors_serializeVarUInt _ _) <| .concat_cons (.ok _) .concat_nil
  | load _ _ _ | store _ _ _ =>
    exact .concat_cons (errors_serializeVarUInt _ _) <|
      .concat_cons (errors_serializeVarUInt _ _) .concat_nil
  | i32Const _ | i64Const _ => exact errors_serializeVarInt _ _
  | br _ | brIf _ | call _ | getLocal _ | setLocal _ | teeLocal _ | getGlobal _ | setGlobal _ =>
    exact errors_serializeVarUInt _ _
  | _ => exact .ok _

/-- An operator fails with what its immediate fails with. -/
theorem errors_serializeOperator {branchTables : List (List UInt32)} {op : Operator}
    (htable : ∀ index, op.branchTable? = some index → index < branchTables.length) :
    ErrorsIn IsMalformed (serializeOperator branchTables op) :=
  .concat_cons (.ite (.ok _) <| .concat_cons (.ok _) <| .concat_cons (.ok _) .concat_nil) <|
    .concat_cons (errors_serializeImm htable) .concat_nil

/-- A body whose code decodes to `ops`, each `br_table` with its table, meets none of the assertions
of the encoder. -/
theorem errors_serializeFunctionBody {functionDef : FunctionDef} {ops : List Operator}
    (h : WellFormedBody functionDef ops) :
    ErrorsIn IsMalformed (serializeFunctionBody functionDef) := by
  have hcode : ErrorsIn IsMalformed (serializeCode functionDef.branchTables
      functionDef.code.length functionDef.code) := by
    have hfuel : ops.length ≤ (encodeOps ops).length := by
      have hlength := length_le_length_encodeOps ops
      omega
    rw [h.code, serializeCode_encodeOps _ hfuel]
    exact .concat_map fun op hop => errors_serializeOperator (h.branchTable_lt op hop)
  have hlocals : ∀ localSet, ErrorsIn IsMalformed (serializeLocalSet localSet) := fun localSet =>
    .concat_cons (errors_serializeVarUInt _ _) <|
      .concat_cons (errors_serializeValueType _) .concat_nil
  exact .bind (.concat_cons (errors_serializeVarUInt _ _) <|
    .concat_cons (.concat_map fun localSet _ => hlocals localSet) <|
    .concat_cons hcode .concat_nil) errors_serializeString

/-! ## Sections -/

/-- A section fails with what its body fails with, or on its size. -/
theorem errors_serializeSection {sectionBody : OutputWriter} (type : UInt8)
    (hbody : ErrorsIn IsMalformed sectionBody) :
    ErrorsIn IsMalformed (serializeSection type sectionBody) :=
  .bind hbody fun _ => .concat_cons (.ok _) <| .concat_cons (errors_serializeVarUInt _ _) <|
    .concat_cons (.ok _) .concat_nil

/-- An optional section that is an array and nothing else. -/
theorem errors_arraySection {α : Type} {element : α → OutputWriter}
    (helement : ∀ a, ErrorsIn IsMalformed (element a)) (isPresent : Bool) (type : UInt8)
    (vector : List α) : ErrorsIn IsMalformed
      (optional isPresent (serializeSection type (serializeArray element vector))) :=
  .ite (errors_serializeSection _ (errors_serializeArray helement)) (.ok _)

/-- An import fails on its two names or on its type. -/
theorem errors_serializeImport {Ty : Type} {serializeType : Ty → OutputWriter}
    (htype : ∀ type, ErrorsIn IsMalformed (serializeType type)) (kind : ObjectKind)
    (import_ : Import Ty) : ErrorsIn IsMalformed (serializeImport kind serializeType import_) :=
  .concat_cons (errors_serializeString _) <| .concat_cons (errors_serializeString _) <|
    .concat_cons (.ok _) <| .concat_cons (htype _) .concat_nil

/-- The four lists of imports, one after the other. -/
theorem errors_serializeImportSection (module : Module) :
    ErrorsIn IsMalformed (serializeImportSection module) :=
  errors_serializeSection _ <| .concat_cons (errors_serializeVarUInt _ _) <|
    .concat_cons (.concat_map fun _ _ => errors_serializeImport (errors_serializeVarUInt 32) _ _) <|
    .concat_cons (.concat_map fun _ _ => errors_serializeImport errors_serializeTableType _ _) <|
    .concat_cons (.concat_map fun _ _ => errors_serializeImport errors_serializeMemoryType _ _) <|
    .concat_cons (.concat_map fun _ _ => errors_serializeImport errors_serializeGlobalType _ _)
      .concat_nil

theorem errors_serializeFunctionSection (module : Module) :
    ErrorsIn IsMalformed (serializeFunctionSection module) :=
  errors_serializeSection _ <| .concat_cons (errors_serializeVarUInt _ _) <|
    .concat_cons (.concat_map fun _ _ => errors_serializeVarUInt _ _) .concat_nil

/-- The only section that asks something of the module. -/
theorem errors_serializeCodeSection {module : Module}
    (hbodies : ∀ functionDef ∈ module.functions.defs, ∃ ops, WellFormedBody functionDef ops) :
    ErrorsIn IsMalformed (serializeCodeSection module) := by
  refine errors_serializeSection _ <| .concat_cons (errors_serializeVarUInt _ _) <|
    .concat_cons (.concat_map fun functionDef hmem => ?_) .concat_nil
  obtain ⟨ops, hwell⟩ := hbodies functionDef hmem
  exact errors_serializeFunctionBody hwell

/-- The start section is written only when there is a start function. -/
theorem errors_startSection (startFunctionIndex : Option Nat) :
    ErrorsIn IsMalformed (startFunctionIndex.elim (.ok []) serializeStartSection) := by
  cases startFunctionIndex with
  | none => exact .ok _
  | some _ => exact errors_serializeSection _ (errors_serializeVarUInt _ _)

/-! ## Modules -/

/-- **Encoding.** Without user sections, whose data no vector holds when it is written, a module
whose bodies are well formed is encoded or refused as malformed. -/
theorem errors_encode {module : Module} (huser : module.userSections = [])
    (hbodies : ∀ functionDef ∈ module.functions.defs, ∃ ops, WellFormedBody functionDef ops) :
    ErrorsIn IsMalformed (encode module) := by
  have husers : ErrorsIn IsMalformed
      (Writer.concat (module.userSections.map serializeUserSection)) := by
    rw [huser]
    exact .concat_nil
  exact .concat_cons (.ok _) <| .concat_cons (.ok _) <|
    .concat_cons (errors_arraySection errors_serializeFunctionType _ _ _) <|
    .concat_cons (.ite (errors_serializeImportSection _) (.ok _)) <|
    .concat_cons (.ite (errors_serializeFunctionSection _) (.ok _)) <|
    .concat_cons (errors_arraySection errors_serializeTableType _ _ _) <|
    .concat_cons (errors_arraySection errors_serializeMemoryType _ _ _) <|
    .concat_cons (errors_arraySection errors_serializeGlobalDef _ _ _) <|
    .concat_cons (errors_arraySection errors_serializeExport _ _ _) <|
    .concat_cons (errors_startSection _) <|
    .concat_cons (errors_arraySection errors_serializeTableSegment _ _ _) <|
    .concat_cons (.ite (errors_serializeCodeSection hbodies) (.ok _)) <|
    .concat_cons (errors_arraySection errors_serializeDataSegment _ _ _) <|
    .concat_cons husers .concat_nil

end FractalWasm.WASM.Output
