import FractalWasm.Codec.Errors
import FractalWasm.IR.ValidCode

/-!
# What validation fails with

The validator throws a `ValidationException`. It never throws the exception that the decoder refuses
malformed or oversized input with; and its assertions hold, the one on `br_table` because the
decoder has stored the table before it comes to the check.

**Definitions** (`errors_validateDefinitions`) and **function bodies** (`raises_visitAll`): a lemma
for each check of `IR/Validate.cpp`, put together by the rules of `ErrorsIn` and `RaisesIn`. The one
hypothesis they need is that every `br_table` of a body has its table.
-/

namespace FractalWasm.IR

open Codec

/-- The errors of the validator. -/
inductive IsInvalid : Exception → Prop where
  | validation (message : String) : IsInvalid (.validation message)

section Definitions

/-- `VALIDATE_UNLESS` throws a `ValidationException`. -/
theorem errors_validateUnless (reason comparison : String) (failed : Bool) :
    ErrorsIn IsInvalid (validateUnless reason comparison failed) :=
  .ite (.error (.validation _)) (.ok _)

/-- An assertion that holds throws nothing. -/
theorem errors_wavmAssertThrow {cond : Bool} (h : cond = true) (text : String) :
    ErrorsIn IsInvalid (wavmAssertThrow cond text) := by
  rw [h]
  exact .ok _

/-- A type out of the range of the enumeration is invalid. -/
theorem errors_validateValueType (valueType : ValueType) : ErrorsIn IsInvalid valueType.validate :=
  .ite (.error (.validation _)) (.ok _)

theorem errors_validateResultType (returnType : ResultType) :
    ErrorsIn IsInvalid returnType.validate :=
  .ite (.error (.validation _)) (.ok _)

/-- Bounds in the wrong order, or a maximum above the limit. -/
theorem errors_validateSize (size : SizeConstraints) (maxMax : Nat) :
    ErrorsIn IsInvalid (size.validate maxMax) :=
  .bind (errors_validateUnless _ _ _) fun _ => errors_validateUnless _ _ _

theorem errors_validateTableType (type : TableType) : ErrorsIn IsInvalid type.validate := by
  apply ErrorsIn.bind
  · cases type.elementType with
    | anyfunc => exact .ok _
    | invalid _ _ => exact .error (.validation _)
  · exact fun _ => errors_validateSize _ _

/-- A type other than the expected one. -/
theorem errors_validateType (expectedType actualType : ValueType) (context : String) :
    ErrorsIn IsInvalid (validateType expectedType actualType context) :=
  .ite (.error (.validation _)) (.ok _)

theorem errors_validateOperandType (expectedType actualType : ValueType) :
    ErrorsIn IsInvalid (validateOperandType expectedType actualType) :=
  .ite (.error (.validation _)) (.ok _)

/-- The conversion asserts that there is a result. -/
theorem errors_asValueType {type : ResultType} (h : type ≠ .none) :
    ErrorsIn IsInvalid type.asValueType :=
  .bind (errors_wavmAssertThrow (decide_eq_true h) _) fun _ => .pure _

/-- An index out of range, or a global that is mutable where it must not be, or not where it must.
-/
theorem errors_validateGlobalIndex (module : Module) (globalIndex : Nat)
    (mustBeMutable mustBeImmutable mustBeImport : Bool) :
    ErrorsIn IsInvalid
      (validateGlobalIndex module globalIndex mustBeMutable mustBeImmutable mustBeImport) := by
  unfold validateGlobalIndex
  split
  · exact .error (.validation _)
  · exact .ite (.error (.validation _)) (.ite (.error (.validation _))
      (.ite (.error (.validation _)) (.ok _)))

theorem errors_validateFunctionIndex (module : Module) (functionIndex : Nat) :
    ErrorsIn IsInvalid (validateFunctionIndex module functionIndex) := by
  unfold validateFunctionIndex
  split
  · exact .error (.validation _)
  · exact .ok _

/-- An initializer of another type, or one that reads a global which is no immutable import. -/
theorem errors_validateInitializer (module : Module) (expression : InitializerExpression)
    (expectedType : ValueType) (context : String) :
    ErrorsIn IsInvalid (expression.validate module expectedType context) := by
  cases expression with
  | i32Const _ | i64Const _ | f32Const _ | f64Const _ => exact errors_validateType _ _ _
  | getGlobal globalIndex =>
    exact .bind (errors_validateGlobalIndex _ _ _ _ _) fun _ => errors_validateType _ _ _
  | error => exact .error (.validation _)

/-- `VALIDATE_INDEX` throws a `ValidationException`. -/
theorem errors_validateIndex (comparison : String) (index arraySize : Nat) :
    ErrorsIn IsInvalid (validateIndex comparison index arraySize) :=
  errors_validateUnless _ _ _

/-- An index out of range, a mutable global or a name given twice; the induction carries the names
seen so far. -/
theorem errors_validateExports (module : Module) (exports : List Export)
    (exportNames : List Bytes) : ErrorsIn IsInvalid (validateExports module exports exportNames) := by
  induction exports generalizing exportNames with
  | nil => exact .ok _
  | cons exportIt exports ih =>
    have hrest : ErrorsIn IsInvalid (do
        validateUnless "duplicate export: " "exportNameMap.count(exportIt.name)"
          (exportNames.contains exportIt.name)
        validateExports module exports (exportIt.name :: exportNames)) :=
      .bind (errors_validateUnless _ _ _) fun _ => ih _
    unfold validateExports
    cases exportIt.kind with
    | function => exact .bind (errors_validateIndex _ _ _) fun _ => hrest
    | table => exact .bind (errors_validateIndex _ _ _) fun _ => hrest
    | memory => exact .bind (errors_validateIndex _ _ _) fun _ => hrest
    | global => exact .bind (errors_validateGlobalIndex _ _ _ _ _) fun _ => hrest
    | _ => exact .error (.validation _)

/-- A start function that does not exist or has another type than `() -> none`. -/
theorem errors_validateStartFunction (module : Module) :
    ErrorsIn IsInvalid (validateStartFunction module) := by
  unfold validateStartFunction
  split
  · exact .ok _
  · split
    · exact .error (.validation _)
    · exact errors_validateUnless _ _ _

/-- Every check of `validateDefinitions` throws a `ValidationException`. -/
theorem errors_validateDefinitions (module : Module) :
    ErrorsIn IsInvalid (validateDefinitions module) :=
  .bind (.forM fun _ => .bind (.forM errors_validateValueType) fun _ =>
    errors_validateResultType _) fun _ =>
  .bind (.forM fun _ => errors_validateIndex _ _ _) fun _ =>
  .bind (.forM fun _ => errors_validateTableType _) fun _ =>
  .bind (.forM fun _ => errors_validateSize _ _) fun _ =>
  .bind (.forM fun _ => .bind (errors_validateValueType _) fun _ =>
    errors_validateUnless _ _ _) fun _ =>
  .bind (.forM fun _ => .bind (errors_validateIndex _ _ _) fun _ =>
    .forM errors_validateValueType) fun _ =>
  .bind (.forM fun _ => .bind (errors_validateValueType _) fun _ =>
    errors_validateInitializer _ _ _ _) fun _ =>
  .bind (.forM errors_validateTableType) fun _ =>
  .bind (errors_validateUnless _ _ _) fun _ =>
  .bind (.forM fun _ => errors_validateSize _ _) fun _ =>
  .bind (errors_validateUnless _ _ _) fun _ =>
  .bind (errors_validateExports _ _ _) fun _ =>
  .bind (errors_validateStartFunction _) fun _ =>
  .bind (.forM fun _ => .bind (errors_validateIndex _ _ _) fun _ =>
    errors_validateInitializer _ _ _ _) fun _ =>
  .forM fun _ => .bind (errors_validateIndex _ _ _) fun _ =>
    .bind (errors_validateInitializer _ _ _ _) fun _ =>
    .forM fun _ => errors_validateIndex _ _ _

end Definitions

/-! ## Function bodies -/

namespace FunctionValidationContext

theorem raises_invalid {α : Type} (message : String) :
    RaisesIn IsInvalid (invalid message : Check α) :=
  .throw (.validation message)

theorem raises_pushOperand (type : ValueType) : RaisesIn IsInvalid (pushOperand type) := .update _

theorem raises_pushResult (type : ResultType) : RaisesIn IsInvalid (pushResult type) := by
  unfold pushResult
  split
  · next h => exact .bind (.lift (errors_asValueType h)) raises_pushOperand
  · exact .pure _

/-- The stack is empty below a reachable point. -/
theorem raises_popOperand : RaisesIn IsInvalid popOperand := by
  apply RaisesIn.bind .get
  intro context
  cases context.controlStack with
  | nil => exact raises_invalid _
  | cons control controls =>
    exact .ite (.bind (.set _) fun _ => .pure _) (.ite (raises_invalid _) (.pure _))

/-- A missing operand, or one of another type. -/
theorem raises_popAndValidateOperand (type : ValueType) :
    RaisesIn IsInvalid (popAndValidateOperand type) :=
  .bind raises_popOperand fun _ => .lift (errors_validateOperandType _ _)

theorem raises_popAndValidateOperands (types : List ValueType) :
    RaisesIn IsInvalid (popAndValidateOperands types) :=
  .forM raises_popAndValidateOperand

/-- Nothing is popped where there is no result. -/
theorem raises_popAndValidateResultType (type : ResultType) :
    RaisesIn IsInvalid (popAndValidateResultType type) := by
  unfold popAndValidateResultType
  split
  · next h => exact .bind (.lift (errors_asValueType h)) raises_popAndValidateOperand
  · exact .pure _

/-- The operand stack is cut to the height of the innermost frame. -/
theorem raises_enterUnreachable : RaisesIn IsInvalid enterUnreachable := by
  apply RaisesIn.bind .get
  intro context
  cases context.controlStack with
  | nil => exact raises_invalid _
  | cons control controls => exact .set _

/-- A depth beyond the control stack. -/
theorem raises_getBranchTargetByDepth (depth : Nat) :
    RaisesIn IsInvalid (getBranchTargetByDepth depth) := by
  apply RaisesIn.bind .get
  intro context
  cases context.controlStack[depth]? with
  | none => exact raises_invalid _
  | some control => exact .pure _

/-- An index beyond the parameters and locals. -/
theorem raises_validateLocalIndex (localIndex : Nat) :
    RaisesIn IsInvalid (validateLocalIndex localIndex) := by
  apply RaisesIn.bind .get
  intro context
  cases context.locals[localIndex]? with
  | none => exact raises_invalid _
  | some type => exact .pure _

/-- Every target of a `br_table` has the type of its default target. -/
theorem raises_validateTargets (type : ResultType) (targetDepths : List UInt32) :
    RaisesIn IsInvalid (validateTargets type targetDepths) :=
  .forM fun _ => .bind (raises_getBranchTargetByDepth _) fun _ => .lift (errors_validateUnless _ _ _)

/-- An alignment above the natural one, or no memory. -/
theorem raises_validateLoadOrStoreImm (m : Module) (alignmentLog2 naturalAlignmentLog2 : UInt8) :
    RaisesIn IsInvalid (validateLoadOrStoreImm m alignmentLog2 naturalAlignmentLog2) :=
  .bind (.lift (errors_validateUnless _ _ _)) fun _ => .lift (errors_validateUnless _ _ _)

theorem raises_validateMemoryImm (m : Module) : RaisesIn IsInvalid (validateMemoryImm m) :=
  .lift (errors_validateUnless _ _ _)

/-- The type of the frame on top, which the callers know to be there. -/
theorem raises_popResultOfTop (controls : List ControlContext) :
    RaisesIn IsInvalid (popResultOfTop controls) := by
  cases controls with
  | nil => exact raises_invalid _
  | cons control controls => exact raises_popAndValidateResultType _

/-- A frame left with another height of the stack than it promised. -/
theorem raises_popControlStack (isElse : Bool) : RaisesIn IsInvalid (popControlStack isElse) := by
  apply RaisesIn.bind .get
  intro context
  cases context.controlStack with
  | nil => exact raises_invalid _
  | cons control controls =>
    apply RaisesIn.bind (.lift (errors_validateUnless _ _ _))
    intro _
    apply RaisesIn.ite (.set _)
    apply RaisesIn.bind (.lift (errors_validateUnless _ _ _))
    intro _
    have hset : RaisesIn IsInvalid (do
        set { context with controlStack := controls }
        if controls ≠ [] then pushResult control.resultType : Check Unit) :=
      .bind (.set _) fun _ => .ite (raises_pushResult _) (.pure _)
    exact .ite (.bind (raises_invalid _) fun _ => hset) hset

/-- One operator, by the family it belongs to; only `br_table` asserts anything. -/
theorem raises_visit (m : Module) {branchTables : List (List UInt32)} {op : Operator}
    (htable : ∀ index, op.branchTable? = some index → index < branchTables.length) :
    RaisesIn IsInvalid (visit m branchTables op) := by
  cases op with
  | block resultType | loop resultType =>
    exact .bind (.lift (errors_validateResultType _)) fun _ => .update _
  | if_ resultType =>
    exact .bind (.lift (errors_validateResultType _)) fun _ =>
      .bind (raises_popAndValidateOperand _) fun _ => .update _
  | else_ => exact .bind .get fun _ => .bind (raises_popResultOfTop _) fun _ => raises_popControlStack _
  | end_ => exact .bind .get fun _ => .bind (raises_popResultOfTop _) fun _ => raises_popControlStack _
  | unreachable => exact raises_enterUnreachable
  | nop | i32Const _ | i64Const _ | f32Const _ | f64Const _ => exact raises_pushResult _
  | br targetDepth =>
    exact .bind (raises_getBranchTargetByDepth _) fun _ =>
      .bind (raises_popAndValidateResultType _) fun _ => raises_enterUnreachable
  | brIf targetDepth =>
    exact .bind (raises_popAndValidateOperand _) fun _ =>
      .bind (raises_getBranchTargetByDepth _) fun _ =>
      .bind (raises_popAndValidateResultType _) fun _ => raises_pushResult _
  | brTable defaultTargetDepth branchTableIndex =>
    exact .bind (raises_popAndValidateOperand _) fun _ =>
      .bind (raises_getBranchTargetByDepth _) fun _ =>
      .bind (raises_popAndValidateResultType _) fun _ =>
      .bind (.lift (errors_wavmAssertThrow (decide_eq_true (htable _ rfl)) _)) fun _ =>
      .bind (raises_validateTargets _ _) fun _ => raises_enterUnreachable
  | return_ =>
    exact .bind .get fun _ =>
      .bind (raises_popAndValidateResultType _) fun _ => raises_enterUnreachable
  | call functionIndex =>
    exact .bind (.lift (errors_validateFunctionIndex _ _)) fun _ =>
      .bind (raises_popAndValidateOperands _) fun _ => raises_pushResult _
  | callIndirect type =>
    simp only [visit]
    cases m.types[type.toNat]? with
    | none => exact raises_invalid _
    | some calleeType =>
      exact .bind (.lift (errors_validateUnless _ _ _)) fun _ =>
        .bind (raises_popAndValidateOperand _) fun _ =>
        .bind (raises_popAndValidateOperands _) fun _ => raises_pushResult _
  | drop => exact .bind raises_popOperand fun _ => .pure _
  | select =>
    exact .bind raises_popOperand fun _ => .bind raises_popOperand fun _ =>
      .bind raises_popOperand fun _ => .bind (.lift (errors_validateOperandType _ _)) fun _ =>
      .bind (.lift (errors_validateOperandType _ _)) fun _ => raises_pushOperand _
  | getLocal variableIndex =>
    exact .bind (raises_validateLocalIndex _) fun _ => raises_pushOperand _
  | setLocal variableIndex =>
    exact .bind (raises_validateLocalIndex _) fun _ => raises_popAndValidateOperand _
  | teeLocal variableIndex =>
    exact .bind (raises_validateLocalIndex _) fun _ =>
      .bind (raises_popAndValidateOperand _) fun _ => raises_pushOperand _
  | getGlobal variableIndex =>
    exact .bind (.lift (errors_validateGlobalIndex _ _ _ _ _)) fun _ => raises_pushOperand _
  | setGlobal variableIndex =>
    exact .bind (.lift (errors_validateGlobalIndex _ _ _ _ _)) fun _ =>
      raises_popAndValidateOperand _
  | load op alignmentLog2 offset =>
    exact .bind (raises_validateLoadOrStoreImm _ _ _) fun _ =>
      .bind (raises_popAndValidateOperand _) fun _ => raises_pushResult _
  | store op alignmentLog2 offset =>
    exact .bind (raises_validateLoadOrStoreImm _ _ _) fun _ => raises_popAndValidateOperands _
  | currentMemory => exact .bind (raises_validateMemoryImm _) fun _ => raises_pushResult _
  | growMemory =>
    exact .bind (raises_validateMemoryImm _) fun _ =>
      .bind (raises_popAndValidateOperand _) fun _ => raises_pushResult _
  | numeric op =>
    simp only [visit]
    cases op.signature with
    | unary operand result =>
      exact .bind (raises_popAndValidateOperand _) fun _ => raises_pushResult _
    | binary operand result =>
      exact .bind (raises_popAndValidateOperands _) fun _ => raises_pushResult _

/-- A whole body, operator by operator. -/
theorem raises_visitAll (m : Module) {branchTables : List (List UInt32)} {ops : List Operator}
    (htables : ∀ op ∈ ops, ∀ index, op.branchTable? = some index → index < branchTables.length) :
    RaisesIn IsInvalid (visitAll m branchTables ops) := by
  induction ops with
  | nil => exact .pure _
  | cons op ops ih =>
    obtain ⟨htable, hrest⟩ := List.forall_mem_cons.1 htables
    exact .bind (raises_visit m htable) fun _ => ih hrest

end FunctionValidationContext

/-- The validator's verdict on a body. -/
theorem errors_validateCode (m : Module) {functionDef : FunctionDef} {ops : List Operator}
    (htables : ∀ op ∈ ops, ∀ index, op.branchTable? = some index →
      index < functionDef.branchTables.length) :
    ErrorsIn IsInvalid (functionDef.validateCode m ops) :=
  .bind ((FunctionValidationContext.raises_visitAll m htables).errors _) fun _ =>
    .ite (.error (.validation _)) (.ok _)

end FractalWasm.IR
