import FractalWasm.Wasmlib.Injection

/-!
# Validation

`wasm_validation.hpp`: the constraints a contract has to meet when it is deployed. The module
visitors look at the module's definitions; then every function body is decoded operator by operator,
and the visitors of each operator are applied to its cached object.

**Module visitors**: the memory, the data segments, the tables, the mutable globals, the locals of a
function and the export of the entry point, each with its limit.

**Operator visitors** (`OpConstrainers`): the whitelist, the check of large offsets and the nesting
of structures, whose counter is a static member.
-/

namespace FractalWasm

open Codec IR

/-! ## Constraints -/

/-- `wasm_constraints::maximum_mutable_globals` -/
def maximumMutableGlobals : Nat := 1024

/-- `wasm_constraints::maximum_table_elements` -/
def maximumTableElements : Nat := 1024

/-- `wasm_constraints::maximum_linear_memory_init` -/
def maximumLinearMemoryInit : Nat := 64 * 1024

/-- `FTL_THROW(exc_type, format, ...)`, given the formatted text. -/
def ftlThrow {α : Type} (kind : FtlException) (what : String) : Except Exception α :=
  .error (.ftl kind what)

namespace WasmValidations

open WasmOps WasmInjections

/-! ## Module visitors -/

/-- `memories_validation_visitor` -/
def memoriesValidationVisitor (m : Module) : Except Exception Unit :=
  match m.memories.defs with
  | [] => .ok ()
  | memory :: _ =>
    if maximumLinearMemory / (64 * 1024) < memory.size.min then
      ftlThrow .wasmRuntime
        "Smart contract initial memory size must be less than or equal to $33792KiB"
    else .ok ()

/-- One round of `data_segments_validation_visitor`. -/
def validateDataSegment (ds : DataSegment) : Except Exception Unit :=
  match ds.baseOffset with
  | .i32Const base =>
    if maximumLinearMemoryInit < base.toNat + ds.data.length then
      ftlThrow .wasmRuntime "Smart contract data segments must lie in first $64KiB"
    else .ok ()
  | _ => ftlThrow .wasmRuntime "Smart contract has unexpected memory base offset type"

/-- `data_segments_validation_visitor` -/
def dataSegmentsValidationVisitor (m : Module) : Except Exception Unit :=
  m.dataSegments.forM validateDataSegment

/-- `tables_validation_visitor` -/
def tablesValidationVisitor (m : Module) : Except Exception Unit :=
  match m.tables.defs with
  | [] => .ok ()
  | table :: _ =>
    if maximumTableElements < table.size.min then
      ftlThrow .wasmRuntime "Smart contract table limited to $1024 elements"
    else .ok ()

/-- The bytes a mutable global takes. The cases of eight bytes fall through to those of four. -/
def globalSize (globalDef : GlobalDef) : Except Exception Nat :=
  if globalDef.type.isMutable = false then .ok 0
  else
    match globalDef.type.valueType with
    | .any => unexpected
    | .i64 | .f64 => .ok (4 + 4)
    | .i32 | .f32 => .ok 4
    -- `ValueType::num` is 5; no case of the `switch` is left for the other bytes.
    | .invalid byte _ => if byte = 5 then unexpected else .ok 0
where
  unexpected : Except Exception Nat :=
    ftlThrow .wasmRuntime "Smart contract has unexpected global definition value type"

/-- `globals_validation_visitor` -/
def globalsValidationVisitor (m : Module) : Except Exception Unit := do
  let mutableGlobalsTotalSize ← m.globals.defs.foldlM
    (fun total globalDef => (total + ·) <$> globalSize globalDef) 0
  if maximumMutableGlobals < mutableGlobalsTotalSize then
    ftlThrow .wasmRuntime "Smart contract has more than $1024 bytes of mutable globals"
  else return ()

/-- `getTypeBitWidth(type) / 8`; the definition checks have refused the other types. -/
def typeBytes : ValueType → Nat
  | .i32 | .f32 => 4
  | .i64 | .f64 => 8
  | _ => 0

/-- `maximum_function_stack_visitor` -/
def maximumFunctionStackVisitor (m : Module) : Except Exception Unit :=
  m.functions.defs.forM fun func =>
    let functionStackUsage := (func.nonParameterLocalTypes.map typeBytes).sum +
      ((func.functionType m).parameters.map typeBytes).sum
    if Serialization.maximumFuncLocalBytes < functionStackUsage then
      ftlThrow .wasmRuntime "Smart contract function has more than $8192 bytes of stack usage"
    else .ok ()

/-- The type `ensure_apply_exported_visitor` asks for. -/
def applyType : FunctionType := ⟨.none, [.i64, .i64, .i64]⟩

/-- An export the visitor accepts. -/
def exportsApply (m : Module) (exprt : Export) : Bool :=
  exprt.kind = .function && exprt.name = str "apply" &&
    m.functionType? exprt.index = some applyType

/-- `ensure_apply_exported_visitor` -/
def ensureApplyExportedVisitor (m : Module) : Except Exception Unit :=
  if m.exports.any (exportsApply m) then .ok ()
  else
    ftlThrow .wasmRuntime
      "Smart contract's apply function not exported; non-existent; or wrong type"

/-- `standard_module_constraints_validators` -/
def validateModule (m : Module) : Except Exception Unit := do
  memoriesValidationVisitor m
  dataSegmentsValidationVisitor m
  tablesValidationVisitor m
  globalsValidationVisitor m
  maximumFunctionStackVisitor m
  ensureApplyExportedVisitor m

/-! ## Operator visitors -/

/-- The static members of `nested_validator`, and the objects `op_constrainers` decodes into. -/
structure OpConstrainers where
  cached : CachedOps
  disabled : Bool
  depth : UInt16

/-- A visitor is given the operator it is applied to. -/
abbrev Visitor := Slot → OpConstrainers → Except Exception OpConstrainers

/-- `whitelist_validator` -/
def whitelistValidator : Visitor := fun _ statics => .ok statics

/-- `large_offset_validator` -/
def largeOffsetValidator : Visitor := fun op statics =>
  match statics.cached op with
  | .memarg _ o =>
    if maximumLinearMemory ≤ o.toNat then
      ftlThrow .wasmRuntime "Smart contract used an invalid large memory store/load offset"
    else .ok statics
  | _ => .ok statics

/-- `blacklist_validator`, which is left for the `error` object. -/
def blacklistValidator : Visitor := fun _ _ =>
  ftlThrow .wasmRuntime "Error, blacklisted opcode $error "

/-- `nested_validator`. Every `else` goes one deeper, as does the `end` of a function. -/
def nestedValidator : Visitor := fun op statics =>
  if statics.disabled then .ok statics
  else if op = some .end_ ∧ 0 < statics.depth then
    .ok { statics with depth := statics.depth - 1 }
  else do
    let depth := statics.depth + 1
    ftlAssert (depth < 1024) .wasmRuntime "Nested depth exceeded"
    return { statics with depth }

/-- `op_constrainers`: the visitors of each operator. -/
def opConstrainers : Slot → List Visitor
  | none => [blacklistValidator]
  | some .block | some .loop | some .if_ | some .else_ | some .end_ =>
    [whitelistValidator, nestedValidator]
  | some (.load _) | some (.store _) => [largeOffsetValidator, whitelistValidator]
  | some _ => [whitelistValidator]

/-- `op->visit(arg)` -/
def visit (op : Slot) (statics : OpConstrainers) : Except Exception OpConstrainers :=
  (opConstrainers op).foldlM (fun statics visitor => visitor op statics) statics

/-- One round of the loop over a body. -/
def validateStep (statics : OpConstrainers) : Reader Exception OpConstrainers := do
  let (op, cached) ← decodeOp statics.cached
  liftM (visit op { statics with cached })

/-! ## Validation of a module -/

def validateBodies : List FunctionDef → OpConstrainers → Except Exception OpConstrainers
  | [], statics => .ok statics
  | fd :: functionDefs, statics => do
    let (statics, _) ← Reader.loop validateStep statics fd.code
    validateBodies functionDefs statics

/-- `nested_validator::init(false)` -/
def OpConstrainers.init (statics : OpConstrainers) : OpConstrainers :=
  { statics with disabled := false, depth := 0 }

/-- `wasm_binary_validation::validate`, on a newly constructed object. -/
def validate (statics : OpConstrainers) (m : Module) : Except Exception OpConstrainers := do
  let statics := statics.init
  validateModule m
  validateBodies m.functions.defs statics

end WasmValidations

end FractalWasm
