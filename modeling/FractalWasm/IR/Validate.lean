import FractalWasm.Codec.Reader
import FractalWasm.IR.Operators

/-!
# Validation

`IR/Validate.cpp`: the operator-by-operator validator of function bodies and the checks on a
module's definitions. Code is validated by a control stack and an operand stack; below an
unconditional branch the operand stack is polymorphic and yields operands of type `any`.

**Function bodies** (`FunctionValidationContext`): the control stack, the operand stack and the
types of the locals, with a check for each operator (`visit`) that changes them or throws.

**Module definitions** (`validateDefinitions`): types, imports, initializers, exports and segments,
in the order in which the code checks them, since the first failure decides the message.
-/

namespace FractalWasm.IR

open Codec

/-- `VALIDATE_UNLESS(reason, comparison)`, given the text of the comparison. -/
def validateUnless (reason comparison : String) (failed : Bool) : Except Exception Unit :=
  if failed then .error (.validation (reason ++ comparison)) else .ok ()

@[simp] theorem validateUnless_eq_ok {reason comparison : String} {failed : Bool} {u : Unit} :
    validateUnless reason comparison failed = .ok u ↔ failed = false := by
  unfold validateUnless
  cases failed <;> simp

/-! ## Types -/

def ValueType.validate (valueType : ValueType) : Except Exception Unit :=
  if valueType = .any ∨ 4 < valueType.toByte then
    .error (.validation ("invalid value type (" ++ toString valueType.toByte.toNat ++ ")"))
  else .ok ()

def ResultType.validate (returnType : ResultType) : Except Exception Unit :=
  if 4 < returnType.toByte then
    .error (.validation ("invalid return type (" ++ toString returnType.toByte.toNat ++ ")"))
  else .ok ()

def SizeConstraints.validate (size : SizeConstraints) (maxMax : Nat) : Except Exception Unit := do
  let max := if size.max = uint64Max then maxMax else size.max
  validateUnless "disjoint size bounds: " "size.min>max" (size.min > max)
  validateUnless "maximum size exceeds limit: " "max>maxMax" (max > maxMax)

def TableElementType.validate (type : TableElementType) : Except Exception Unit :=
  match type with
  | .anyfunc => .ok ()
  | .invalid byte _ =>
    .error (.validation ("invalid table element type (" ++ toString byte.toNat ++ ")"))

def TableType.validate (type : TableType) : Except Exception Unit := do
  type.elementType.validate
  type.size.validate (2 ^ 32 - 1)

/-- `IR::maxMemoryPages` -/
def maxMemoryPages : Nat := 65536

def MemoryType.validate (type : MemoryType) : Except Exception Unit :=
  type.size.validate maxMemoryPages

def GlobalType.validate (type : GlobalType) : Except Exception Unit :=
  type.valueType.validate

/-- `validateType` -/
def validateType (expectedType actualType : ValueType) (context : String) :
    Except Exception Unit :=
  if expectedType ≠ actualType then
    .error (.validation ("type mismatch: expected in " ++ context))
  else .ok ()

/-- `validateOperandType`: `any` matches every type. -/
def validateOperandType (expectedType actualType : ValueType) : Except Exception Unit :=
  if expectedType ≠ actualType ∧ expectedType ≠ .any ∧ actualType ≠ .any then
    .error (.validation "type mismatch")
  else .ok ()

def ResultType.asValueType (type : ResultType) : Except Exception ValueType := do
  wavmAssertThrow (type ≠ .none) "type != ResultType::none"
  return .ofByte type.toByte

/-! ## Indices -/

def validateGlobalIndex (module : Module) (globalIndex : Nat)
    (mustBeMutable mustBeImmutable mustBeImport : Bool) : Except Exception ValueType := do
  match module.globals.getType? GlobalDef.type globalIndex with
  | none => .error (.validation "invalid index: globalIndex>=module.globals.size()")
  | some globalType =>
    if mustBeMutable ∧ ¬ globalType.isMutable then
      .error (.validation "attempting to mutate immutable global")
    else if mustBeImport ∧ module.globals.imports.length ≤ globalIndex then
      .error (.validation
        "global variable initializer expression may only access imported globals")
    else if mustBeImmutable ∧ globalType.isMutable then
      .error (.validation
        "global variable initializer expression may only access immutable globals")
    else .ok globalType.valueType

/-- The type indices of functions are checked where they are read, so the second lookup of
`functionType?` never fails. -/
def validateFunctionIndex (module : Module) (functionIndex : Nat) :
    Except Exception FunctionType :=
  match module.functionType? functionIndex with
  | none => .error (.validation "invalid index: functionIndex>=module.functions.size()")
  | some type => .ok type

def InitializerExpression.validate (module : Module) (expression : InitializerExpression)
    (expectedType : ValueType) (context : String) : Except Exception Unit :=
  match expression with
  | .i32Const _ => validateType expectedType .i32 context
  | .i64Const _ => validateType expectedType .i64 context
  | .f32Const _ => validateType expectedType .f32 context
  | .f64Const _ => validateType expectedType .f64 context
  | .getGlobal globalIndex => do
    let globalValueType ← validateGlobalIndex module globalIndex false true true
    validateType expectedType globalValueType context
  | .error => .error (.validation "invalid initializer expression")

/-! ## Function bodies -/

/-- `ControlContext::Type` -/
inductive ControlType where
  | function
  | block
  | ifThen
  | ifElse
  | loop
  deriving DecidableEq, Repr

structure ControlContext where
  type : ControlType
  outerStackSize : Nat
  branchArgumentType : ResultType
  resultType : ResultType
  isReachable : Bool
  deriving DecidableEq, Repr

/-- The mutable part of `FunctionValidationContext`. Both stacks have their top first. -/
structure FunctionValidationContext where
  functionType : FunctionType
  locals : List ValueType
  controlStack : List ControlContext
  stack : List ValueType
  deriving DecidableEq, Repr

namespace FunctionValidationContext

/-- A check that may update the context. -/
abbrev Check (α : Type) := StateT FunctionValidationContext (Except Exception) α

def invalid {α : Type} (message : String) : Check α := throw (.validation message)

/-- The function's own context: parameters and locals in scope, one control entry. -/
def init (functionType : FunctionType) (nonParameterLocalTypes : List ValueType) :
    FunctionValidationContext where
  functionType := functionType
  locals := functionType.parameters ++ nonParameterLocalTypes
  controlStack := [⟨.function, 0, functionType.ret, functionType.ret, true⟩]
  stack := []

def pushOperand (type : ValueType) : Check Unit :=
  modify fun context => { context with stack := type :: context.stack }

/-- `pushOperand` of a result type, which pushes nothing for `none`. -/
def pushResult (type : ResultType) : Check Unit := do
  if type ≠ .none then pushOperand (← type.asValueType)

def popOperand : Check ValueType := do
  let context ← get
  match context.controlStack with
  | [] => invalid "control stack empty"
  | control :: _ =>
    if control.outerStackSize < context.stack.length then
      set { context with stack := context.stack.tail }
      return context.stack.headD .any
    else if control.isReachable then invalid "invalid stack access"
    else return .any

def popAndValidateOperand (expectedType : ValueType) : Check Unit := do
  let actualType ← popOperand
  validateOperandType expectedType actualType

/-- `popAndValidateOperands`: the last expected type is popped first. -/
def popAndValidateOperands (expectedTypes : List ValueType) : Check Unit :=
  expectedTypes.reverse.forM popAndValidateOperand

def popAndValidateResultType (expectedType : ResultType) : Check Unit := do
  if expectedType ≠ .none then popAndValidateOperand (← expectedType.asValueType)

def pushControlStack (type : ControlType) (branchArgumentType resultType : ResultType) :
    Check Unit :=
  modify fun context => { context with
    controlStack :=
      ⟨type, context.stack.length, branchArgumentType, resultType, true⟩ ::
        context.controlStack }

def popControlStack (isElse : Bool) : Check Unit := do
  let context ← get
  match context.controlStack with
  | [] => invalid "control stack empty"
  | control :: controls =>
    validateUnless "stack was not empty at end of control structure: "
      "stack.size() > controlStack.back().outerStackSize"
      (context.stack.length > control.outerStackSize)
    if isElse ∧ control.type = .ifThen then
      set { context with
        controlStack := { control with type := .ifElse, isReachable := true } :: controls }
    else
      validateUnless "else only allowed in if context: " "isElse" isElse
      if control.type = .ifThen ∧ control.resultType ≠ .none then
        invalid "else-less if may not yield a result"
      set { context with controlStack := controls }
      if controls ≠ [] then pushResult control.resultType

/-- `std::vector::resize` of the operand stack. -/
def resizeStack (size : Nat) (stack : List ValueType) : List ValueType :=
  List.replicate (size - stack.length) .any ++ stack.drop (stack.length - size)

def enterUnreachable : Check Unit := do
  let context ← get
  match context.controlStack with
  | [] => invalid "invalid control stack depth"
  | control :: controls =>
    set { context with
      stack := resizeStack control.outerStackSize context.stack
      controlStack := { control with isReachable := false } :: controls }

/-- `validateBranchDepth` makes the lookup of `getBranchTargetByDepth` succeed. -/
def getBranchTargetByDepth (depth : Nat) : Check ControlContext := do
  let context ← get
  match context.controlStack[depth]? with
  | none => invalid "invalid index: depth>=controlStack.size()"
  | some control => return control

def validateLocalIndex (localIndex : Nat) : Check ValueType := do
  let context ← get
  match context.locals[localIndex]? with
  | none => invalid "invalid index: localIndex>=locals.size()"
  | some type => return type

/-- `validateImm` of a `LoadOrStoreImm`. -/
def validateLoadOrStoreImm (module : Module) (alignmentLog2 naturalAlignmentLog2 : UInt8) :
    Check Unit := do
  validateUnless "load or store alignment greater than natural alignment: "
    "imm.alignmentLog2>naturalAlignmentLog2" (alignmentLog2 > naturalAlignmentLog2)
  validateUnless "load or store in module without default memory: " "module.memories.size()==0"
    (module.memories.size = 0)

/-- `validateImm` of a `MemoryImm`. -/
def validateMemoryImm (module : Module) : Check Unit := do
  validateUnless "current_memory and grow_memory are only valid if there is a default memory"
    "module.memories.size() == 0" (module.memories.size = 0)

def popResultOfTop (context : List ControlContext) : Check Unit :=
  match context with
  | [] => invalid "control stack empty"
  | control :: _ => popAndValidateResultType control.resultType

/-- Every target of a branch table must take the argument the default target takes. -/
def validateTargets (defaultTargetArgumentType : ResultType) (targetDepths : List UInt32) :
    Check Unit :=
  targetDepths.forM fun targetDepth => do
    let target ← getBranchTargetByDepth targetDepth.toNat
    validateUnless "br_table target argument must match default target argument: "
      "targetArgumentType != defaultTargetArgumentType"
      (target.branchArgumentType ≠ defaultTargetArgumentType)

/-- The operator dispatch of the validator. `branchTables` are those of the function so far. -/
def visit (module : Module) (branchTables : List (List UInt32)) : Operator → Check Unit
  | .block resultType => do
    resultType.validate
    pushControlStack .block resultType resultType
  | .loop resultType => do
    resultType.validate
    pushControlStack .loop .none resultType
  | .if_ resultType => do
    resultType.validate
    popAndValidateOperand .i32
    pushControlStack .ifThen resultType resultType
  | .else_ => do
    popResultOfTop (← get).controlStack
    popControlStack true
  | .end_ => do
    popResultOfTop (← get).controlStack
    popControlStack false
  | .return_ => do
    popAndValidateResultType (← get).functionType.ret
    enterUnreachable
  | .br targetDepth => do
    popAndValidateResultType (← getBranchTargetByDepth targetDepth.toNat).branchArgumentType
    enterUnreachable
  | .brTable defaultTargetDepth branchTableIndex => do
    popAndValidateOperand .i32
    let defaultTarget ← getBranchTargetByDepth defaultTargetDepth.toNat
    popAndValidateResultType defaultTarget.branchArgumentType
    wavmAssertThrow (branchTableIndex.toNat < branchTables.length)
      "imm.branchTableIndex < functionDef.branchTables.size()"
    validateTargets defaultTarget.branchArgumentType
      (branchTables.getD branchTableIndex.toNat [])
    enterUnreachable
  | .brIf targetDepth => do
    popAndValidateOperand .i32
    let target ← getBranchTargetByDepth targetDepth.toNat
    popAndValidateResultType target.branchArgumentType
    pushResult target.branchArgumentType
  | .unreachable => enterUnreachable
  | .drop => do
    let _ ← popOperand
  | .select => do
    let condition ← popOperand
    let falseType ← popOperand
    let trueType ← popOperand
    validateOperandType .i32 condition
    validateOperandType falseType trueType
    pushOperand falseType
  | .getLocal variableIndex => do
    pushOperand (← validateLocalIndex variableIndex.toNat)
  | .setLocal variableIndex => do
    popAndValidateOperand (← validateLocalIndex variableIndex.toNat)
  | .teeLocal variableIndex => do
    let localType ← validateLocalIndex variableIndex.toNat
    popAndValidateOperand localType
    pushOperand localType
  | .getGlobal variableIndex => do
    pushOperand (← validateGlobalIndex module variableIndex.toNat false false false)
  | .setGlobal variableIndex => do
    popAndValidateOperand (← validateGlobalIndex module variableIndex.toNat true false false)
  | .call functionIndex => do
    let calleeType ← validateFunctionIndex module functionIndex.toNat
    popAndValidateOperands calleeType.parameters
    pushResult calleeType.ret
  | .callIndirect type => do
    match module.types[type.toNat]? with
    | none => invalid "invalid index: imm.type.index>=module.types.size()"
    | some calleeType =>
      validateUnless "call_indirect is only valid if there is a default function table: "
        "module.tables.size()==0" (module.tables.size = 0)
      popAndValidateOperand .i32
      popAndValidateOperands calleeType.parameters
      pushResult calleeType.ret
  | .nop => pushResult .none
  | .currentMemory => do
    validateMemoryImm module
    pushResult .i32
  | .growMemory => do
    validateMemoryImm module
    popAndValidateOperand .i32
    pushResult .i32
  | .load op alignmentLog2 _ => do
    validateLoadOrStoreImm module alignmentLog2 op.naturalAlignmentLog2
    popAndValidateOperand .i32
    pushResult op.resultType
  | .store op alignmentLog2 _ => do
    validateLoadOrStoreImm module alignmentLog2 op.naturalAlignmentLog2
    popAndValidateOperands [.i32, op.valueType]
  | .i32Const _ => pushResult .i32
  | .i64Const _ => pushResult .i64
  | .f32Const _ => pushResult .f32
  | .f64Const _ => pushResult .f64
  | .numeric op =>
    match op.signature with
    | .unary operand result => do
      popAndValidateOperand operand
      pushResult result
    | .binary operand result => do
      popAndValidateOperands [operand, operand]
      pushResult result

/-- The validator over a sequence of operators. -/
def visitAll (module : Module) (branchTables : List (List UInt32)) : List Operator → Check Unit
  | [] => pure ()
  | op :: ops => do
    visit module branchTables op
    visitAll module branchTables ops

/-- `CodeValidationStream::finish`. -/
def finish (context : FunctionValidationContext) : Except Exception Unit :=
  if context.controlStack ≠ [] then
    .error (.validation "end of code reached before end of function")
  else .ok ()

end FunctionValidationContext

/-- The type of a definition; the function section checks its index against `module.types`. -/
def FunctionDef.functionType (module : Module) (functionDef : FunctionDef) : FunctionType :=
  (module.types[functionDef.type]?).getD ⟨.none, []⟩

/-- The code validator accepts `ops` as the body of `functionDef`. -/
def FunctionDef.Accepts (module : Module) (functionDef : FunctionDef) (ops : List Operator) :
    Prop :=
  ∃ context, FunctionValidationContext.visitAll module functionDef.branchTables ops
      (.init (functionDef.functionType module) functionDef.nonParameterLocalTypes) =
        .ok ((), context) ∧ context.controlStack = []

/-! ## Module definitions -/

/-- `VALIDATE_INDEX(index, arraySize)`, given the text of the comparison. -/
def validateIndex (comparison : String) (index arraySize : Nat) : Except Exception Unit :=
  validateUnless "invalid index: " comparison (index ≥ arraySize)

def validateExports (module : Module) : List Export → List Bytes → Except Exception Unit
  | [], _ => .ok ()
  | exportIt :: exports, exportNames => do
    match exportIt.kind with
    | .function =>
      validateIndex "exportIt.index>=module.functions.size()" exportIt.index module.functions.size
    | .table =>
      validateIndex "exportIt.index>=module.tables.size()" exportIt.index module.tables.size
    | .memory =>
      validateIndex "exportIt.index>=module.memories.size()" exportIt.index module.memories.size
    | .global =>
      let _ ← validateGlobalIndex module exportIt.index false true false
    | _ => .error (.validation "unknown export kind")
    validateUnless "duplicate export: " "exportNameMap.count(exportIt.name)"
      (exportNames.contains exportIt.name)
    validateExports module exports (exportIt.name :: exportNames)

def validateStartFunction (module : Module) : Except Exception Unit :=
  match module.startFunctionIndex with
  | none => .ok ()
  | some startFunctionIndex =>
    match module.functionType? startFunctionIndex with
    | none =>
      .error (.validation "invalid index: module.startFunctionIndex>=module.functions.size()")
    | some startFunctionType =>
      validateUnless "start function must not have any parameters or results: "
        "startFunctionType != FunctionType::get()" (startFunctionType ≠ ⟨.none, []⟩)

def validateDefinitions (module : Module) : Except Exception Unit := do
  module.types.forM fun functionType => do
    functionType.parameters.forM ValueType.validate
    functionType.ret.validate
  module.functions.imports.forM fun functionImport =>
    validateIndex "functionImport.type.index>=module.types.size()" functionImport.type
      module.types.length
  module.tables.imports.forM fun tableImport => tableImport.type.validate
  module.memories.imports.forM fun memoryImport => memoryImport.type.validate
  module.globals.imports.forM fun globalImport => do
    globalImport.type.validate
    validateUnless "mutable globals cannot be imported: " "globalImport.type.isMutable"
      globalImport.type.isMutable
  module.functions.defs.forM fun functionDef => do
    validateIndex "functionDef.type.index>=module.types.size()" functionDef.type
      module.types.length
    functionDef.nonParameterLocalTypes.forM ValueType.validate
  module.globals.defs.forM fun globalDef => do
    globalDef.type.validate
    globalDef.initializer.validate module globalDef.type.valueType "global initializer expression"
  module.tables.defs.forM TableType.validate
  validateUnless "too many tables: " "module.tables.size()>1" (module.tables.size > 1)
  module.memories.defs.forM MemoryType.validate
  validateUnless "too many memories: " "module.memories.size()>1" (module.memories.size > 1)
  validateExports module module.exports []
  validateStartFunction module
  module.dataSegments.forM fun dataSegment => do
    validateIndex "dataSegment.memoryIndex>=module.memories.size()" dataSegment.memoryIndex
      module.memories.size
    dataSegment.baseOffset.validate module .i32 "data segment base initializer"
  module.tableSegments.forM fun tableSegment => do
    validateIndex "tableSegment.tableIndex>=module.tables.size()" tableSegment.tableIndex
      module.tables.size
    tableSegment.baseOffset.validate module .i32 "table segment base initializer"
    tableSegment.indices.forM fun functionIndex =>
      validateIndex "functionIndex>=module.functions.size()" functionIndex module.functions.size

end FractalWasm.IR
