import FractalWasm.Exceptions
import FractalWasm.Llvm.Emits
import Mathlib.Algebra.Group.Int.Defs
import Mathlib.Algebra.GroupWithZero.Nat

/-!
# Integer operators

The operators on integers, sorted as the macros of `LLVMEmitIR.cpp` sort them: those that yield an
integer of the type (`IntBinary`), the comparisons (`IntCompare`) and those of one operand
(`IntUnary`).

**What they mean** (`evaluate`): WebAssembly's own definition, on words of any width. An operator
that traps yields the cause of the trap.

**Their code** (`emitIntBinary`, `emitIntCompare`, `emitIntUnary`): the calls of `IRBuilder` that
`LLVMEmitIR.cpp` makes, with the blocks of the traps and the PHI of the signed remainder. What the
code calls is left open (`External`). Branch weights are left out, as they do not change what the
code computes.
-/

namespace FractalWasm

open Llvm Llvm.Builder

namespace LLVMJIT

inductive IntType where
  | i32 | i64
  deriving DecidableEq, Repr

/-- `getTypeBitWidth` -/
def IntType.width : IntType → Nat
  | i32 => 32
  | i64 => 64

/-- `typedZeroConstants` -/
def IntType.zero (type : IntType) : Operand := .const (.int type.width 0)

inductive IntBinary where
  | add | sub | mul | and | or | xor | rotr | rotl | divS | remS | divU | remU | shl | shrS | shrU
  deriving DecidableEq, Repr

inductive IntCompare where
  | eq | ne | ltS | ltU | leS | leU | gtS | gtU | geS | geU
  deriving DecidableEq, Repr

inductive IntUnary where
  | clz | ctz | popcnt | eqz
  deriving DecidableEq, Repr

/-! ## Integers in WebAssembly -/

/-- Signed operands are read in two's complement, quotients are truncated towards zero, shifts and
rotations count modulo the width. A division by zero traps, and so does a quotient that is out of
range. -/
def IntBinary.evaluate {width : Nat} (op : IntBinary) (left right : BitVec width) :
    Except Cause (BitVec width) :=
  match op with
  | add => .ok (left + right)
  | sub => .ok (left - right)
  | mul => .ok (left * right)
  | and => .ok (left &&& right)
  | or => .ok (left ||| right)
  | xor => .ok (left ^^^ right)
  | rotr => .ok (left.rotateRight right.toNat)
  | rotl => .ok (left.rotateLeft right.toNat)
  | divS =>
    let quotient := left.toInt.tdiv right.toInt
    if right = 0 ∨ 2 ^ (width - 1) ≤ quotient then .error .integerDivideByZeroOrIntegerOverflow
    else .ok (.ofInt width quotient)
  | remS =>
    if right = 0 then .error .integerDivideByZeroOrIntegerOverflow
    else .ok (.ofInt width (left.toInt.tmod right.toInt))
  | divU =>
    if right = 0 then .error .integerDivideByZeroOrIntegerOverflow
    else .ok (.ofNat width (left.toNat / right.toNat))
  | remU =>
    if right = 0 then .error .integerDivideByZeroOrIntegerOverflow
    else .ok (.ofNat width (left.toNat % right.toNat))
  | shl => .ok (.ofNat width (left.toNat * 2 ^ (right.toNat % width)))
  | shrS => .ok (.ofInt width (left.toInt / 2 ^ (right.toNat % width)))
  | shrU => .ok (.ofNat width (left.toNat / 2 ^ (right.toNat % width)))

def IntCompare.evaluate {width : Nat} (op : IntCompare) (left right : BitVec width) : Bool :=
  match op with
  | eq => left = right
  | ne => left ≠ right
  | ltS => left.toInt < right.toInt
  | ltU => left.toNat < right.toNat
  | leS => left.toInt ≤ right.toInt
  | leU => left.toNat ≤ right.toNat
  | gtS => right.toInt < left.toInt
  | gtU => right.toNat < left.toNat
  | geS => right.toInt ≤ left.toInt
  | geU => right.toNat ≤ left.toNat

/-- The value an operator that tests or compares yields. -/
def ofTest (holds : Bool) : Val := .int 32 (if holds then 1 else 0)

def IntUnary.evaluate {width : Nat} (op : IntUnary) (operand : BitVec width) : Val :=
  match op with
  | clz => .int width operand.clz
  | ctz => .int width operand.ctz
  | popcnt => .int width operand.cpop
  | eqz => ofTest (operand = 0)

/-! ## What is left to others -/

/-- The functions of `WAVMIntrinsics.cpp` that take no floats. -/
inductive RuntimeIntrinsic where
  | divideByZeroOrIntegerOverflowTrap
  | unreachableTrap
  | indirectCallSignatureMismatch
  | indirectCallIndexOutOfBounds
  | growMemory
  | currentMemory
  deriving DecidableEq, Repr

/-- What the code of integer operators may call. -/
inductive External where
  | intrinsic (intrinsic : RuntimeIntrinsic)
  deriving DecidableEq, Repr

abbrev Build := Llvm.Build External

/-! ## Emission -/

/-- `emitRuntimeIntrinsic` -/
def emitRuntimeIntrinsic (intrinsic : RuntimeIntrinsic) (args : List Operand) : Build Operand :=
  insert (.external (.intrinsic intrinsic) args)

def emitConditionalTrapIntrinsic (booleanCondition : Operand) (intrinsic : RuntimeIntrinsic)
    (args : List Operand) : Build Unit := do
  let trueBlock ← createBlock
  let endBlock ← createBlock
  terminate (.condBr booleanCondition trueBlock endBlock)
  setInsertPoint trueBlock
  let _ ← emitRuntimeIntrinsic intrinsic args
  terminate .unreachable
  setInsertPoint endBlock

def coerceBoolToI32 (boolValue : Operand) : Build Operand :=
  insert (.cast (.zext 32) boolValue)

def trapDivideByZero (type : IntType) (divisor : Operand) : Build Unit := do
  let isZero ← insert (.icmp .eq divisor type.zero)
  emitConditionalTrapIntrinsic isZero .divideByZeroOrIntegerOverflowTrap []

/-- `INT32_MIN` and `INT64_MIN` -/
def IntType.least (type : IntType) : Operand := .const (.int type.width (.intMin type.width))

def IntType.minusOne (type : IntType) : Operand := .const (.int type.width (-1))

def trapDivideByZeroOrIntegerOverflow (type : IntType) (left right : Operand) : Build Unit := do
  let isLeast ← insert (.icmp .eq left type.least)
  let isMinusOne ← insert (.icmp .eq right type.minusOne)
  let overflows ← insert (.binary .and isLeast isMinusOne)
  let isZero ← insert (.icmp .eq right type.zero)
  let traps ← insert (.binary .or overflows isZero)
  emitConditionalTrapIntrinsic traps .divideByZeroOrIntegerOverflowTrap []

def emitSRem (type : IntType) (left right : Operand) : Build Operand := do
  trapDivideByZero type right
  let preOverflowBlock := (← get).insertBlock
  let noOverflowBlock ← createBlock
  let endBlock ← createBlock
  let isNotLeast ← insert (.icmp .ne left type.least)
  let isNotMinusOne ← insert (.icmp .ne right type.minusOne)
  let noOverflow ← insert (.binary .or isNotLeast isNotMinusOne)
  terminate (.condBr noOverflow noOverflowBlock endBlock)
  setInsertPoint noOverflowBlock
  let noOverflowValue ← insert (.binary .srem left right)
  terminate (.br endBlock)
  setInsertPoint endBlock
  let phi ← createPHI endBlock
  addIncoming endBlock type.zero preOverflowBlock
  addIncoming endBlock noOverflowValue noOverflowBlock
  return .reg phi

def emitShiftCountMask (type : IntType) (shiftCount : Operand) : Build Operand := do
  let bitsMinusOne ←
    insert (.cast (.zext type.width) (.const (.int 32 (.ofNat 32 (type.width - 1)))))
  insert (.binary .and shiftCount bitsMinusOne)

/-- The width as a value of the type, from which `emitRotl` and `emitRotr` subtract. -/
def emitBitWidthMinus (type : IntType) (right : Operand) : Build Operand := do
  let bitWidth ← insert (.cast (.zext type.width) (.const (.int 32 (.ofNat 32 type.width))))
  insert (.binary .sub bitWidth right)

def emitRotl (type : IntType) (left right : Operand) : Build Operand := do
  let bitWidthMinusRight ← emitBitWidthMinus type right
  let leftCount ← emitShiftCountMask type right
  let leftPart ← insert (.binary .shl left leftCount)
  let rightCount ← emitShiftCountMask type bitWidthMinusRight
  let rightPart ← insert (.binary .lshr left rightCount)
  insert (.binary .or leftPart rightPart)

def emitRotr (type : IntType) (left right : Operand) : Build Operand := do
  let bitWidthMinusRight ← emitBitWidthMinus type right
  let leftCount ← emitShiftCountMask type bitWidthMinusRight
  let leftPart ← insert (.binary .shl left leftCount)
  let rightCount ← emitShiftCountMask type right
  let rightPart ← insert (.binary .lshr left rightCount)
  insert (.binary .or leftPart rightPart)

/-- The rows of `EMIT_INT_BINARY_OP` that yield an integer of the type. -/
def emitIntBinary (type : IntType) (left right : Operand) : IntBinary → Build Operand
  | .add => insert (.binary .add left right)
  | .sub => insert (.binary .sub left right)
  | .mul => insert (.binary .mul left right)
  | .and => insert (.binary .and left right)
  | .or => insert (.binary .or left right)
  | .xor => insert (.binary .xor left right)
  | .rotr => emitRotr type left right
  | .rotl => emitRotl type left right
  | .divS => do
    trapDivideByZeroOrIntegerOverflow type left right
    insert (.binary .sdiv left right)
  | .remS => emitSRem type left right
  | .divU => do
    trapDivideByZero type right
    insert (.binary .udiv left right)
  | .remU => do
    trapDivideByZero type right
    insert (.binary .urem left right)
  | .shl => do
    let count ← emitShiftCountMask type right
    insert (.binary .shl left count)
  | .shrS => do
    let count ← emitShiftCountMask type right
    insert (.binary .ashr left count)
  | .shrU => do
    let count ← emitShiftCountMask type right
    insert (.binary .lshr left count)

def IntCompare.pred : IntCompare → Pred
  | eq => .eq
  | ne => .ne
  | ltS => .slt
  | ltU => .ult
  | leS => .sle
  | leU => .ule
  | gtS => .sgt
  | gtU => .ugt
  | geS => .sge
  | geU => .uge

/-- The rows of `EMIT_INT_BINARY_OP` that compare. -/
def emitIntCompare (left right : Operand) (op : IntCompare) : Build Operand := do
  let holds ← insert (.icmp op.pred left right)
  coerceBoolToI32 holds

def emitIntUnary (type : IntType) (operand : Operand) : IntUnary → Build Operand
  | .clz => insert (.count .ctlz operand)
  | .ctz => insert (.count .cttz operand)
  | .popcnt => insert (.count .ctpop operand)
  | .eqz => do
    let isZero ← insert (.icmp .eq operand type.zero)
    coerceBoolToI32 isZero

end LLVMJIT

end FractalWasm
