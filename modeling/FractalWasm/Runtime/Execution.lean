import FractalWasm.IR.CheckRules
import FractalWasm.IR.ControlFlow
import FractalWasm.Runtime.ModuleInstance

/-!
# Execution of a function body

The semantics of WebAssembly for one activation of a function, operator by operator. An operator
that finds the operand stack, the labels or the variables other than it needs them does not go on:
that is a fault, which is no trap. What an activation does not determine by itself, such as the
result of an arithmetic operator, the contents of memory and what a callee does, is taken from
outside.

**One operator** (`execOp`): the next activation, the end of the function, a trap or a fault.

**What is taken from outside** (`Behaviour.Fits`): only the type of a result is assumed. A trap may
come at any operator that can trap.
-/

namespace FractalWasm

open Control IR

namespace Runtime

/-- What invalid code may run into. -/
inductive Fault where
  | stackEmpty
  | wrongType
  /-- A structure ends with more than its result above the operands it was opened on. -/
  | leftOver
  | noLabel
  | noLocal
  | noGlobal
  | immutableGlobal
  | noFunction
  | noType
  /-- A structure without its `end`, or an `else` outside of an `if`. -/
  | unclosed
  deriving DecidableEq, Repr

/-- What a branch to a structure continues at. -/
inductive StructureKind where
  | function
  | block (after : List Operator)
  | loop (body : List Operator)
  deriving DecidableEq, Repr

/-- An open structure: `height` is the number of operands it was opened on, `arity` what a branch to
it takes along. -/
structure OpenStructure where
  kind : StructureKind
  height : Nat
  arity : ResultType
  resultType : ResultType
  deriving DecidableEq, Repr

/-- An activation of a function. The operand stack and the open structures have their top first. -/
structure Activation where
  code : List Operator
  stack : List Value
  structures : List OpenStructure
  locals : List Value
  globals : List Value
  deriving DecidableEq, Repr

/-- What comes of an operator. A function that is left leaves its operand stack. -/
inductive Outcome where
  | next (activation : Activation)
  | exit (stack : List Value)
  | trap
  deriving DecidableEq, Repr

/-- What an activation does not determine: whether an operator traps, what it computes or its callee
returns, and the globals behind a call. -/
structure Behaviour where
  traps : Bool
  results : List Value
  globals : List Value
  deriving DecidableEq, Repr

/-- Whether a condition holds. -/
def Value.isTrue : Value → Bool
  | .i32 value => value != 0
  | _ => false

/-- The number a branch table is indexed with. -/
def Value.index : Value → Nat
  | .i32 value => value.toNat
  | _ => 0

namespace Activation

/-- A function that is entered. -/
def start (ret : ResultType) (code : List Operator) (locals globals : List Value) : Activation where
  code := code
  stack := []
  structures := [⟨.function, 0, ret, ret⟩]
  locals := locals
  globals := globals

/-- The number of operands the innermost structure was opened on. -/
def height (activation : Activation) : Nat :=
  (activation.structures.head?.map OpenStructure.height).getD 0

def push (values : List Value) (activation : Activation) : Activation :=
  { activation with stack := values ++ activation.stack }

/-- An operand of any type, which lies within the innermost structure. -/
def popAny (activation : Activation) : Except Fault (Value × Activation) :=
  match activation.stack with
  | [] => .error .stackEmpty
  | value :: stack =>
    if activation.height < activation.stack.length then .ok (value, { activation with stack })
    else .error .stackEmpty

def pop (expectedType : ValueType) (activation : Activation) :
    Except Fault (Value × Activation) := do
  let (value, activation) ← activation.popAny
  if value.type = expectedType then return (value, activation)
  else .error .wrongType

/-- Operands of some types, the first of which is popped first. -/
def popList : List ValueType → Activation → Except Fault (List Value × Activation)
  | [], activation => .ok ([], activation)
  | type :: types, activation => do
    let (value, activation) ← activation.pop type
    let (values, activation) ← popList types activation
    return (value :: values, activation)

/-- The arguments of an operator or a function; the last is popped first. -/
def popArguments (types : List ValueType) (activation : Activation) :
    Except Fault (List Value × Activation) :=
  popList types.reverse activation

def enter (kind : StructureKind) (arity resultType : ResultType) (activation : Activation) :
    Activation :=
  { activation with
    structures :=
      ⟨kind, activation.stack.length, arity, resultType⟩ :: activation.structures }

/-- The end of the innermost structure: its result is all there is above the operands it was opened
on. -/
def leave (activation : Activation) : Except Fault (OpenStructure × Activation) :=
  match activation.structures with
  | [] => .error .noLabel
  | innermost :: outer => do
    let (values, activation) ← activation.popList innermost.resultType.operands
    if activation.stack.length = innermost.height then
      return (innermost, { activation with
        stack := values ++ activation.stack
        structures := outer })
    else .error .leftOver

/-- A branch: the operands it does not take along are dropped down to those its target was opened
on. A loop that is branched to stays open. -/
def branch (depth : Nat) (activation : Activation) : Except Fault Outcome :=
  match activation.structures[depth]? with
  | none => .error .noLabel
  | some target => do
    let (values, activation) ← activation.popList target.arity.operands
    let stack := values ++ activation.stack.drop (activation.stack.length - target.height)
    match target.kind with
    | .function => return .exit stack
    | .block after =>
      return .next { activation with
        code := after
        stack
        structures := activation.structures.drop (depth + 1) }
    | .loop body =>
      return .next { activation with
        code := body
        stack
        structures := activation.structures.drop depth }

/-- What an operator comes to that may trap, once it has its operands. -/
def compute (behaviour : Behaviour) (activation : Activation) : Outcome :=
  if behaviour.traps then .trap else .next (activation.push behaviour.results)

/-- A call, once the callee has its arguments. -/
def complete (behaviour : Behaviour) (activation : Activation) : Outcome :=
  compute behaviour { activation with globals := behaviour.globals }

end Activation

/-- The type of what an operator takes from outside. -/
def operatorYields (module : Module) : Operator → ResultType
  | .call functionIndex => ((module.functionType? functionIndex.toNat).map (·.ret)).getD .none
  | .callIndirect type => ((module.types[type.toNat]?).map (·.ret)).getD .none
  | .load op _ _ => op.resultType
  | .currentMemory | .growMemory => .i32
  | .numeric op =>
    match op.signature with
    | .unary _ result | .binary _ result => result
  | _ => .none

theorem operatorYields_call {module : Module} {functionIndex : UInt32} {type : FunctionType}
    (h : module.functionType? functionIndex.toNat = some type) :
    operatorYields module (.call functionIndex) = type.ret := by
  change ((module.functionType? functionIndex.toNat).map (·.ret)).getD .none = type.ret
  rw [h, Option.map_some, Option.getD_some]

theorem operatorYields_callIndirect {module : Module} {typeIndex : UInt32} {type : FunctionType}
    (h : module.types[typeIndex.toNat]? = some type) :
    operatorYields module (.callIndirect typeIndex) = type.ret := by
  change ((module.types[typeIndex.toNat]?).map (·.ret)).getD .none = type.ret
  rw [h, Option.map_some, Option.getD_some]

theorem operatorYields_numeric (module : Module) (op : NumericOp) :
    operatorYields module (.numeric op) =
      match op.signature with
      | .unary _ result | .binary _ result => result := rfl

/-- The types of the globals a module imports and defines. -/
def globalTypes (module : Module) : List ValueType :=
  module.globals.imports.map (·.type.valueType) ++ module.globals.defs.map (·.type.valueType)

/-- A structure a branch leaves forwards is entered, with the code up to its end in front. -/
def enterBlock (module : Module) (resultType : ResultType) (activation : Activation) :
    Except Fault Outcome :=
  match afterEnd module.action 0 activation.code with
  | none => .error .unclosed
  | some after => .ok (.next (activation.enter (.block after) resultType resultType))

/-- An operator in front of the code of an activation of a function that returns `ret`. -/
def execOp (module : Module) (branchTables : List (List UInt32)) (ret : ResultType)
    (behaviour : Behaviour) (activation : Activation) : Operator → Except Fault Outcome
  | .unreachable => .ok .trap
  | .nop => .ok (.next activation)
  | .block resultType => enterBlock module resultType activation
  | .loop resultType => .ok (.next (activation.enter (.loop activation.code) .none resultType))
  | .if_ resultType => do
    let (condition, activation) ← activation.pop .i32
    if condition.isTrue then enterBlock module resultType activation
    else
      match falseArm module.action 0 activation.code with
      | none => .error .unclosed
      | some (arm, true) => enterBlock module resultType { activation with code := arm }
      | some (after, false) => .ok (.next { activation with code := after })
  | .else_ => do
    -- the end of the arm a true condition chose
    let (structure_, activation) ← activation.leave
    match structure_.kind with
    | .block after => .ok (.next { activation with code := after })
    | _ => .error .unclosed
  | .end_ => do
    let (structure_, activation) ← activation.leave
    match structure_.kind with
    | .function => .ok (.exit activation.stack)
    | _ => .ok (.next activation)
  | .br targetDepth => activation.branch targetDepth.toNat
  | .brIf targetDepth => do
    let (condition, activation) ← activation.pop .i32
    if condition.isTrue then activation.branch targetDepth.toNat else .ok (.next activation)
  | .brTable defaultTargetDepth branchTableIndex => do
    let (selector, activation) ← activation.pop .i32
    match branchTables[branchTableIndex.toNat]? with
    | none => .error .noLabel
    | some targetDepths =>
      activation.branch
        (((targetDepths[selector.index]?).map UInt32.toNat).getD defaultTargetDepth.toNat)
  | .return_ => do
    let (values, _) ← activation.popList ret.operands
    .ok (.exit values)
  | .call functionIndex =>
    match module.functionType? functionIndex.toNat with
    | none => .error .noFunction
    | some calleeType => do
      let (_, activation) ← activation.popArguments calleeType.parameters
      .ok (activation.complete behaviour)
  | .callIndirect type =>
    match module.types[type.toNat]? with
    | none => .error .noType
    | some calleeType => do
      let (_, activation) ← activation.pop .i32
      let (_, activation) ← activation.popArguments calleeType.parameters
      .ok (activation.complete behaviour)
  | .drop => do
    let (_, activation) ← activation.popAny
    .ok (.next activation)
  | .select => do
    let (condition, activation) ← activation.pop .i32
    let (falseValue, activation) ← activation.popAny
    let (trueValue, activation) ← activation.pop falseValue.type
    .ok (.next (activation.push [if condition.isTrue then trueValue else falseValue]))
  | .getLocal variableIndex =>
    match activation.locals[variableIndex.toNat]? with
    | none => .error .noLocal
    | some value => .ok (.next (activation.push [value]))
  | .setLocal variableIndex =>
    match activation.locals[variableIndex.toNat]? with
    | none => .error .noLocal
    | some old => do
      let (value, activation) ← activation.pop old.type
      .ok (.next { activation with
        locals := activation.locals.set variableIndex.toNat value })
  | .teeLocal variableIndex =>
    match activation.locals[variableIndex.toNat]? with
    | none => .error .noLocal
    | some old => do
      let (value, activation) ← activation.pop old.type
      .ok (.next { activation.push [value] with
        locals := activation.locals.set variableIndex.toNat value })
  | .getGlobal variableIndex =>
    match activation.globals[variableIndex.toNat]? with
    | none => .error .noGlobal
    | some value => .ok (.next (activation.push [value]))
  | .setGlobal variableIndex =>
    match module.globals.getType? GlobalDef.type variableIndex.toNat,
        activation.globals[variableIndex.toNat]? with
    | some type, some old =>
      if type.isMutable then do
        let (value, activation) ← activation.pop old.type
        .ok (.next { activation with
          globals := activation.globals.set variableIndex.toNat value })
      else .error .immutableGlobal
    | _, _ => .error .noGlobal
  | .load _ _ _ => do
    let (_, activation) ← activation.pop .i32
    .ok (activation.compute behaviour)
  | .store op _ _ => do
    let (_, activation) ← activation.popArguments [.i32, op.valueType]
    .ok (activation.compute behaviour)
  | .currentMemory => .ok (activation.compute behaviour)
  | .growMemory => do
    let (_, activation) ← activation.pop .i32
    .ok (activation.compute behaviour)
  | .i32Const value => .ok (.next (activation.push [.i32 value]))
  | .i64Const value => .ok (.next (activation.push [.i64 value]))
  | .f32Const bits => .ok (.next (activation.push [.f32 bits]))
  | .f64Const bits => .ok (.next (activation.push [.f64 bits]))
  | .numeric op =>
    match op.signature with
    | .unary operand _ => do
      let (_, activation) ← activation.pop operand
      .ok (activation.compute behaviour)
    | .binary operand _ => do
      let (_, activation) ← activation.popArguments [operand, operand]
      .ok (activation.compute behaviour)

/-- The next operator of an activation. -/
def exec (module : Module) (branchTables : List (List UInt32)) (ret : ResultType)
    (behaviour : Behaviour) (activation : Activation) : Except Fault Outcome :=
  match activation.code with
  | [] => .error .unclosed
  | op :: code => execOp module branchTables ret behaviour { activation with code } op

/-- What is taken from outside has the types that are declared for it. -/
structure Behaviour.Fits (module : Module) (activation : Activation) (behaviour : Behaviour) :
    Prop where
  results : ∀ op ∈ activation.code.head?,
    behaviour.results.map Value.type = (operatorYields module op).operands
  globals : behaviour.globals.map Value.type = activation.globals.map Value.type

/-- The second activation comes of the first, operator by operator. -/
inductive Steps (module : Module) (branchTables : List (List UInt32)) (ret : ResultType) :
    Activation → Activation → Prop
  | refl (activation : Activation) : Steps module branchTables ret activation activation
  | step {activation mid next : Activation} {behaviour : Behaviour}
      (hsteps : Steps module branchTables ret activation mid)
      (hfits : behaviour.Fits module mid)
      (hnext : exec module branchTables ret behaviour mid = .ok (.next next)) :
      Steps module branchTables ret activation next

end Runtime

end FractalWasm
