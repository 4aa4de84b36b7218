import Mathlib.Logic.Function.Basic
import Mathlib.Tactic.Common

/-!
# Instructions in static single assignment form

What the instructions of an LLVM function compute, on integers and bits of any width.

**Undefined results** (`BinOp.eval`, `CastOp.eval`): an instruction without a result on its
operands, be it for undefined behaviour, for a poison value or for operands of the wrong type, is
stuck. So a shift by the width or more has no value, nor has a division by zero or the one that
overflows.

**External operations** (`Instr.external`): everything that is not an operation on integers, such as
calls, accesses to memory and the arithmetic of floats, is left to the state of the world.
-/

namespace Llvm

/-- The first-class types. -/
inductive Ty where
  | int (width : Nat)
  | float
  | double
  deriving DecidableEq, Repr

inductive Val where
  | int (width : Nat) (bits : BitVec width)
  | float (bits : BitVec 32)
  | double (bits : BitVec 64)
  deriving DecidableEq, Repr

namespace Val

def type : Val → Ty
  | int width _ => .int width
  | float _ => .float
  | double _ => .double

/-- The value of the type `i1`. -/
def bool (b : Bool) : Val := .int 1 (BitVec.ofBool b)

def isTrue? : Val → Option Bool
  | int 1 bits => some (bits = 1#1)
  | _ => none

@[simp] theorem isTrue?_bool (b : Bool) : (bool b).isTrue? = some b := by
  cases b <;> rfl

end Val

inductive BinOp where
  | add | sub | mul | and | or | xor | shl | lshr | ashr | udiv | sdiv | urem | srem
  deriving DecidableEq, Repr

/-- Shifts by the width or more are poison; a division by zero and a signed division that overflows
are undefined. -/
def BinOp.eval {width : Nat} (op : BinOp) (left right : BitVec width) : Option (BitVec width) :=
  let overflows := left = BitVec.intMin width ∧ right = -1
  match op with
  | add => some (left + right)
  | sub => some (left - right)
  | mul => some (left * right)
  | and => some (left &&& right)
  | or => some (left ||| right)
  | xor => some (left ^^^ right)
  | shl => if right.toNat < width then some (left <<< right.toNat) else none
  | lshr => if right.toNat < width then some (left >>> right.toNat) else none
  | ashr => if right.toNat < width then some (left.sshiftRight right.toNat) else none
  | udiv => if right = 0 then none else some (left / right)
  | sdiv => if right = 0 ∨ overflows then none else some (left.sdiv right)
  | urem => if right = 0 then none else some (left % right)
  | srem => if right = 0 ∨ overflows then none else some (left.srem right)

inductive Pred where
  | eq | ne | ugt | uge | ult | ule | sgt | sge | slt | sle
  deriving DecidableEq, Repr

def Pred.eval {width : Nat} (pred : Pred) (left right : BitVec width) : Bool :=
  match pred with
  | eq => left = right
  | ne => left ≠ right
  | ugt => right.ult left
  | uge => right.ule left
  | ult => left.ult right
  | ule => left.ule right
  | sgt => right.slt left
  | sge => right.sle left
  | slt => left.slt right
  | sle => left.sle right

/-- The intrinsics `ctlz`, `cttz`, which of 0 count all bits, and `ctpop`. -/
inductive CountOp where
  | ctlz | cttz | ctpop
  deriving DecidableEq, Repr

def CountOp.eval {width : Nat} (op : CountOp) (bits : BitVec width) : BitVec width :=
  match op with
  | ctlz => bits.clz
  | cttz => bits.ctz
  | ctpop => bits.cpop

/-- The conversions; one to the width an integer has leaves it as it is. -/
inductive CastOp where
  | zext (width : Nat)
  | sext (width : Nat)
  | trunc (width : Nat)
  | bitcast (type : Ty)
  deriving DecidableEq, Repr

def CastOp.eval : CastOp → Val → Option Val
  | zext n, .int width bits => if width ≤ n then some (.int n (bits.setWidth n)) else none
  | sext n, .int width bits => if width ≤ n then some (.int n (bits.signExtend n)) else none
  | trunc n, .int width bits => if n ≤ width then some (.int n (bits.setWidth n)) else none
  | bitcast .float, .int 32 bits => some (.float bits)
  | bitcast .double, .int 64 bits => some (.double bits)
  | bitcast (.int 32), .float bits => some (.int 32 bits)
  | bitcast (.int 64), .double bits => some (.int 64 bits)
  | bitcast type, value => if value.type = type then some value else none
  | _, _ => none

/-- A register, which is numbered, or a constant. -/
inductive Operand where
  | reg (index : Nat)
  | const (value : Val)
  deriving DecidableEq, Repr

/-- The values of the registers that have been assigned to. -/
abbrev Regs := Nat → Option Val

def Operand.eval (regs : Regs) : Operand → Option Val
  | reg index => regs index
  | const value => some value

/-- The instructions; `External` are the operations that are not defined here. A pointer into the
frame is the register of its `alloca`. -/
inductive Instr (External : Type) where
  | binary (op : BinOp) (left right : Operand)
  | icmp (pred : Pred) (left right : Operand)
  | count (op : CountOp) (operand : Operand)
  | cast (op : CastOp) (operand : Operand)
  | select (condition trueValue falseValue : Operand)
  | alloca
  | load (slot : Nat)
  | store (value : Operand) (slot : Nat)
  | external (op : External) (args : List Operand)

/-- The result of an instruction that neither reads nor writes the frame or the world. -/
def Instr.pure? {External : Type} (regs : Regs) : Instr External → Option Val
  | binary op left right =>
    match left.eval regs, right.eval regs with
    | some (.int width left), some (.int width' right) =>
      if h : width' = width then (op.eval left (h ▸ right)).map (.int width) else none
    | _, _ => none
  | icmp pred left right =>
    match left.eval regs, right.eval regs with
    | some (.int width left), some (.int width' right) =>
      if h : width' = width then some (.bool (pred.eval left (h ▸ right))) else none
    | _, _ => none
  | count op operand =>
    match operand.eval regs with
    | some (.int width bits) => some (.int width (op.eval bits))
    | _ => none
  | cast op operand => operand.eval regs >>= op.eval
  | select condition trueValue falseValue => do
    let isTrue ← (← condition.eval regs).isTrue?
    let trueValue ← trueValue.eval regs
    let falseValue ← falseValue.eval regs
    return if isTrue then trueValue else falseValue
  | _ => none

section Pure

variable {External : Type} {regs : Regs} {left right operand condition : Operand} {width : Nat}
  {a b : BitVec width}

theorem pure?_binary (op : BinOp) (hleft : left.eval regs = some (.int width a))
    (hright : right.eval regs = some (.int width b)) :
    (Instr.binary op left right : Instr External).pure? regs = (op.eval a b).map (.int width) := by
  simp [Instr.pure?, hleft, hright]

theorem pure?_icmp (pred : Pred) (hleft : left.eval regs = some (.int width a))
    (hright : right.eval regs = some (.int width b)) :
    (Instr.icmp pred left right : Instr External).pure? regs = some (.bool (pred.eval a b)) := by
  simp [Instr.pure?, hleft, hright]

theorem pure?_count (op : CountOp) (hoperand : operand.eval regs = some (.int width a)) :
    (Instr.count op operand : Instr External).pure? regs = some (.int width (op.eval a)) := by
  simp [Instr.pure?, hoperand]

theorem pure?_cast (op : CastOp) {value : Val} (hoperand : operand.eval regs = some value) :
    (Instr.cast op operand : Instr External).pure? regs = op.eval value := by
  simp [Instr.pure?, hoperand]

end Pure

end Llvm
