import FractalWasm.Control.Machine
import FractalWasm.IR.Operators

/-!
# Control flow of modules

What the operators do to control, as an instance of the structured-control machine. Functions are
named by their place among the module's definitions; calls of imported functions run outside the
module and come back. Operators that can trap on their operands need no case of their own, since a
run may stop anywhere.

**One operator** (`Operator.action`): a direct call enters a definition or stays outside; the
structures, branches and returns are the machine's own; every other operator goes on.

**A module** (`bodies`): the operators that its definitions' code decodes to, so that a change of
the code is seen as a change of the program (`operators_withOperators`).
-/

namespace FractalWasm.IR

open Control

/-- What an operator does to control in a module with `imports` imported and `defs` defined
functions. -/
def Operator.action (imports defs : Nat) : Operator → Action
  | unreachable => .trap
  | block _ => .block
  | loop _ => .loop
  | if_ _ => .if_
  | else_ => .else_
  | end_ => .end_
  | br targetDepth => .br targetDepth.toNat
  | brIf targetDepth => .brIf targetDepth.toNat
  | brTable _ _ => .brTable
  | return_ => .return_
  | call functionIndex =>
    if imports ≤ functionIndex.toNat ∧ functionIndex.toNat < imports + defs then
      .call (functionIndex.toNat - imports)
    else .next
  | callIndirect _ => .callAny
  | _ => .next

/-- A call of a function the module defines enters it; any other call comes back. -/
theorem Operator.action_call (imports defs : Nat) (functionIndex : UInt32) :
    (call functionIndex).action imports defs =
      if imports ≤ functionIndex.toNat ∧ functionIndex.toNat < imports + defs then
        .call (functionIndex.toNat - imports)
      else .next := rfl

theorem Operator.action_nop (imports defs : Nat) : nop.action imports defs = .next := rfl

namespace FunctionDef

/-- The operators of a body; none if it is not the encoding of any. -/
def operators (functionDef : FunctionDef) : List Operator :=
  (operators? functionDef.code).getD []

/-- The function with another body. -/
def withOperators (functionDef : FunctionDef) (ops : List Operator) : FunctionDef :=
  { functionDef with code := encodeOps ops }

theorem operators_of_code {functionDef : FunctionDef} {ops : List Operator}
    (h : functionDef.code = encodeOps ops) : functionDef.operators = ops := by
  rw [operators, h, operators?_encodeOps, Option.getD_some]

@[simp] theorem operators_withOperators (functionDef : FunctionDef) (ops : List Operator) :
    (functionDef.withOperators ops).operators = ops := operators_of_code rfl

end FunctionDef

namespace Module

def action (module : Module) (op : Operator) : Action :=
  op.action module.functions.imports.length module.functions.defs.length

/-- The bodies of the defined functions. -/
def bodies (module : Module) : Bodies Operator := fun function =>
  (module.functions.defs[function]?).bind fun functionDef => operators? functionDef.code

end Module

end FractalWasm.IR
