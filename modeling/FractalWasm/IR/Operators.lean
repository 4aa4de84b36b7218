import FractalWasm.Codec.LittleEndian
import FractalWasm.Exceptions
import FractalWasm.IR.Module

/-!
# The operators and their IR encoding

The operators of `IR/Operators.h` (without the SIMD and threading prototypes, which this build
disables) and the byte format `OperatorEncoderStream` and `OperatorDecoderStream` use for function
bodies: a two-byte opcode followed by the immediate's fields at their natural sizes, packed.

**Signatures** (`NumericOp.signature` and the types of loads and stores): what the validator pops
and pushes.

**Encoding** (`Operator.encode`): an operator is decoded from its encoding, whatever follows
(`decodeOp_encode`), and a sequence of operators is determined by the bytes (`encodeOps_injective`,
`operatorsFrom_encodeOps`).

**Bodies** (`functionBody`): the operators up to the `end` that closes the function, found by
counting structures.
-/

namespace FractalWasm.IR

open Codec

/-! ## Opcodes -/

/-- The loads, in the order of their opcodes `0x28 .. 0x35`. -/
inductive LoadOp where
  | i32Load | i64Load | f32Load | f64Load | i32Load8S | i32Load8U | i32Load16S | i32Load16U
  | i64Load8S | i64Load8U | i64Load16S | i64Load16U | i64Load32S | i64Load32U
  deriving DecidableEq, Repr

/-- The stores, in the order of their opcodes `0x36 .. 0x3e`. -/
inductive StoreOp where
  | i32Store | i64Store | f32Store | f64Store | i32Store8 | i32Store16 | i64Store8 | i64Store16
  | i64Store32
  deriving DecidableEq, Repr

/-- The operators on values alone, in the order of their opcodes `0x45 .. 0xbf`. -/
inductive NumericOp where
  | i32Eqz | i32Eq | i32Ne | i32LtS | i32LtU | i32GtS | i32GtU | i32LeS | i32LeU | i32GeS | i32GeU
  | i64Eqz | i64Eq | i64Ne | i64LtS | i64LtU | i64GtS | i64GtU | i64LeS | i64LeU | i64GeS | i64GeU
  | f32Eq | f32Ne | f32Lt | f32Gt | f32Le | f32Ge | f64Eq | f64Ne | f64Lt | f64Gt | f64Le | f64Ge
  | i32Clz | i32Ctz | i32Popcnt | i32Add | i32Sub | i32Mul | i32DivS | i32DivU | i32RemS | i32RemU
  | i32And | i32Or | i32Xor | i32Shl | i32ShrS | i32ShrU | i32Rotl | i32Rotr | i64Clz | i64Ctz
  | i64Popcnt | i64Add | i64Sub | i64Mul | i64DivS | i64DivU | i64RemS | i64RemU | i64And | i64Or
  | i64Xor | i64Shl | i64ShrS | i64ShrU | i64Rotl | i64Rotr | f32Abs | f32Neg | f32Ceil | f32Floor
  | f32Trunc | f32Nearest | f32Sqrt | f32Add | f32Sub | f32Mul | f32Div | f32Min | f32Max
  | f32Copysign | f64Abs | f64Neg | f64Ceil | f64Floor | f64Trunc | f64Nearest | f64Sqrt | f64Add
  | f64Sub | f64Mul | f64Div | f64Min | f64Max | f64Copysign | i32WrapI64 | i32TruncSF32
  | i32TruncUF32 | i32TruncSF64 | i32TruncUF64 | i64ExtendSI32 | i64ExtendUI32 | i64TruncSF32
  | i64TruncUF32 | i64TruncSF64 | i64TruncUF64 | f32ConvertSI32 | f32ConvertUI32 | f32ConvertSI64
  | f32ConvertUI64 | f32DemoteF64 | f64ConvertSI32 | f64ConvertUI32 | f64ConvertSI64
  | f64ConvertUI64 | f64PromoteF32 | i32ReinterpretF32 | i64ReinterpretF64 | f32ReinterpretI32
  | f64ReinterpretI64
  deriving DecidableEq, Repr

inductive Opcode where
  | unreachable | nop | block | loop | if_ | else_ | end_ | br | brIf | brTable | return_ | call
  | callIndirect | drop | select | getLocal | setLocal | teeLocal | getGlobal | setGlobal
  | load (op : LoadOp)
  | store (op : StoreOp)
  | currentMemory | growMemory | i32Const | i64Const | f32Const | f64Const
  | numeric (op : NumericOp)
  deriving DecidableEq, Repr

namespace Opcode

def code : Opcode → Nat
  | unreachable => 0x00
  | nop => 0x01
  | block => 0x02
  | loop => 0x03
  | if_ => 0x04
  | else_ => 0x05
  | end_ => 0x0b
  | br => 0x0c
  | brIf => 0x0d
  | brTable => 0x0e
  | return_ => 0x0f
  | call => 0x10
  | callIndirect => 0x11
  | drop => 0x1a
  | select => 0x1b
  | getLocal => 0x20
  | setLocal => 0x21
  | teeLocal => 0x22
  | getGlobal => 0x23
  | setGlobal => 0x24
  | load op => 0x28 + op.ctorIdx
  | store op => 0x36 + op.ctorIdx
  | currentMemory => 0x3f
  | growMemory => 0x40
  | i32Const => 0x41
  | i64Const => 0x42
  | f32Const => 0x43
  | f64Const => 0x44
  | numeric op => 0x45 + op.ctorIdx

/-- The operator with a given opcode, as the `switch` over `ENUM_OPERATORS` finds it. -/
def ofCode? (code : Nat) : Option Opcode :=
  match code with
  | 0x00 => some unreachable
  | 0x01 => some nop
  | 0x02 => some block
  | 0x03 => some loop
  | 0x04 => some if_
  | 0x05 => some else_
  | 0x0b => some end_
  | 0x0c => some br
  | 0x0d => some brIf
  | 0x0e => some brTable
  | 0x0f => some return_
  | 0x10 => some call
  | 0x11 => some callIndirect
  | 0x1a => some drop
  | 0x1b => some select
  | 0x20 => some getLocal
  | 0x21 => some setLocal
  | 0x22 => some teeLocal
  | 0x23 => some getGlobal
  | 0x24 => some setGlobal
  | 0x3f => some currentMemory
  | 0x40 => some growMemory
  | 0x41 => some i32Const
  | 0x42 => some i64Const
  | 0x43 => some f32Const
  | 0x44 => some f64Const
  | code =>
    if 0x28 ≤ code ∧ code ≤ 0x35 then some (load (.ofNat (code - 0x28)))
    else if 0x36 ≤ code ∧ code ≤ 0x3e then some (store (.ofNat (code - 0x36)))
    else if 0x45 ≤ code ∧ code ≤ 0xbf then some (numeric (.ofNat (code - 0x45)))
    else none

@[simp] theorem ofCode?_code (op : Opcode) : ofCode? op.code = some op := by
  cases op with
  | load op => cases op <;> rfl
  | store op => cases op <;> rfl
  | numeric op => cases op <;> rfl
  | _ => rfl

theorem code_lt (op : Opcode) : op.code < 192 := by
  cases op with
  | load op => cases op <;> decide
  | store op => cases op <;> decide
  | numeric op => cases op <;> decide
  | _ => decide

/-- `sizeof(Imm)` for the operator's immediate, zero for the two empty ones. -/
def immSize : Opcode → Nat
  | block | loop | if_ => 1
  | br | brIf | call | callIndirect => 4
  | getLocal | setLocal | teeLocal | getGlobal | setGlobal => 4
  | i32Const | f32Const => 4
  | load _ | store _ => 8
  | i64Const | f64Const => 8
  | brTable => 16
  | _ => 0

end Opcode

/-! ## Signatures -/

/-- The operand and result types of a `UNARY` or `BINARY` row. -/
inductive Signature where
  | unary (operand : ValueType) (result : ResultType)
  | binary (operand : ValueType) (result : ResultType)
  deriving DecidableEq, Repr

def LoadOp.naturalAlignmentLog2 : LoadOp → UInt8
  | .i32Load | .f32Load | .i64Load32S | .i64Load32U => 2
  | .i64Load | .f64Load => 3
  | .i32Load8S | .i32Load8U | .i64Load8S | .i64Load8U => 0
  | .i32Load16S | .i32Load16U | .i64Load16S | .i64Load16U => 1

def LoadOp.resultType : LoadOp → ResultType
  | .i32Load | .i32Load8S | .i32Load8U | .i32Load16S | .i32Load16U => .i32
  | .f32Load => .f32
  | .f64Load => .f64
  | .i64Load | .i64Load8S | .i64Load8U | .i64Load16S | .i64Load16U | .i64Load32S | .i64Load32U =>
    .i64

def StoreOp.naturalAlignmentLog2 : StoreOp → UInt8
  | .i32Store | .f32Store | .i64Store32 => 2
  | .i64Store | .f64Store => 3
  | .i32Store8 | .i64Store8 => 0
  | .i32Store16 | .i64Store16 => 1

def StoreOp.valueType : StoreOp → ValueType
  | .i32Store | .i32Store8 | .i32Store16 => .i32
  | .i64Store | .i64Store8 | .i64Store16 | .i64Store32 => .i64
  | .f32Store => .f32
  | .f64Store => .f64

def NumericOp.signature : NumericOp → Signature
  | .i32Eqz => .unary .i32 .i32
  | .i32Eq | .i32Ne | .i32LtS | .i32LtU | .i32GtS | .i32GtU | .i32LeS | .i32LeU | .i32GeS
  | .i32GeU => .binary .i32 .i32
  | .i64Eqz => .unary .i64 .i32
  | .i64Eq | .i64Ne | .i64LtS | .i64LtU | .i64GtS | .i64GtU | .i64LeS | .i64LeU | .i64GeS
  | .i64GeU => .binary .i64 .i32
  | .f32Eq | .f32Ne | .f32Lt | .f32Gt | .f32Le | .f32Ge => .binary .f32 .i32
  | .f64Eq | .f64Ne | .f64Lt | .f64Gt | .f64Le | .f64Ge => .binary .f64 .i32
  | .i32Clz | .i32Ctz | .i32Popcnt => .unary .i32 .i32
  | .i32Add | .i32Sub | .i32Mul | .i32DivS | .i32DivU | .i32RemS | .i32RemU | .i32And | .i32Or
  | .i32Xor | .i32Shl | .i32ShrS | .i32ShrU | .i32Rotl | .i32Rotr => .binary .i32 .i32
  | .i64Clz | .i64Ctz | .i64Popcnt => .unary .i64 .i64
  | .i64Add | .i64Sub | .i64Mul | .i64DivS | .i64DivU | .i64RemS | .i64RemU | .i64And | .i64Or
  | .i64Xor | .i64Shl | .i64ShrS | .i64ShrU | .i64Rotl | .i64Rotr => .binary .i64 .i64
  | .f32Abs | .f32Neg | .f32Ceil | .f32Floor | .f32Trunc | .f32Nearest | .f32Sqrt =>
    .unary .f32 .f32
  | .f32Add | .f32Sub | .f32Mul | .f32Div | .f32Min | .f32Max | .f32Copysign => .binary .f32 .f32
  | .f64Abs | .f64Neg | .f64Ceil | .f64Floor | .f64Trunc | .f64Nearest | .f64Sqrt =>
    .unary .f64 .f64
  | .f64Add | .f64Sub | .f64Mul | .f64Div | .f64Min | .f64Max | .f64Copysign => .binary .f64 .f64
  | .i32WrapI64 => .unary .i64 .i32
  | .i32TruncSF32 | .i32TruncUF32 => .unary .f32 .i32
  | .i32TruncSF64 | .i32TruncUF64 => .unary .f64 .i32
  | .i64ExtendSI32 | .i64ExtendUI32 => .unary .i32 .i64
  | .i64TruncSF32 | .i64TruncUF32 => .unary .f32 .i64
  | .i64TruncSF64 | .i64TruncUF64 => .unary .f64 .i64
  | .f32ConvertSI32 | .f32ConvertUI32 => .unary .i32 .f32
  | .f32ConvertSI64 | .f32ConvertUI64 => .unary .i64 .f32
  | .f32DemoteF64 => .unary .f64 .f32
  | .f64ConvertSI32 | .f64ConvertUI32 => .unary .i32 .f64
  | .f64ConvertSI64 | .f64ConvertUI64 => .unary .i64 .f64
  | .f64PromoteF32 => .unary .f32 .f64
  | .i32ReinterpretF32 => .unary .f32 .i32
  | .i64ReinterpretF64 => .unary .f64 .i64
  | .f32ReinterpretI32 => .unary .i32 .f32
  | .f64ReinterpretI64 => .unary .i64 .f64

/-! ## Operators -/

/-- An operator with its immediate. Floating-point literals are kept as their bits; `brTable` names
its target list by an index into the function's `branchTables`. -/
inductive Operator where
  | unreachable
  | nop
  | block (resultType : ResultType)
  | loop (resultType : ResultType)
  | if_ (resultType : ResultType)
  | else_
  | end_
  | br (targetDepth : UInt32)
  | brIf (targetDepth : UInt32)
  | brTable (defaultTargetDepth branchTableIndex : UInt64)
  | return_
  | call (functionIndex : UInt32)
  | callIndirect (type : UInt32)
  | drop
  | select
  | getLocal (variableIndex : UInt32)
  | setLocal (variableIndex : UInt32)
  | teeLocal (variableIndex : UInt32)
  | getGlobal (variableIndex : UInt32)
  | setGlobal (variableIndex : UInt32)
  | load (op : LoadOp) (alignmentLog2 : UInt8) (offset : UInt32)
  | store (op : StoreOp) (alignmentLog2 : UInt8) (offset : UInt32)
  | currentMemory
  | growMemory
  | i32Const (value : UInt32)
  | i64Const (value : UInt64)
  | f32Const (bits : UInt32)
  | f64Const (bits : UInt64)
  | numeric (op : NumericOp)
  deriving DecidableEq, Repr

namespace Operator

def opcode : Operator → Opcode
  | unreachable => .unreachable
  | nop => .nop
  | block _ => .block
  | loop _ => .loop
  | if_ _ => .if_
  | else_ => .else_
  | end_ => .end_
  | br _ => .br
  | brIf _ => .brIf
  | brTable _ _ => .brTable
  | return_ => .return_
  | call _ => .call
  | callIndirect _ => .callIndirect
  | drop => .drop
  | select => .select
  | getLocal _ => .getLocal
  | setLocal _ => .setLocal
  | teeLocal _ => .teeLocal
  | getGlobal _ => .getGlobal
  | setGlobal _ => .setGlobal
  | load op _ _ => .load op
  | store op _ _ => .store op
  | currentMemory => .currentMemory
  | growMemory => .growMemory
  | i32Const _ => .i32Const
  | i64Const _ => .i64Const
  | f32Const _ => .f32Const
  | f64Const _ => .f64Const
  | numeric op => .numeric op

/-- `block`, `loop`, `if`, `else` and `end`, which delimit structured control. -/
def isStructured : Operator → Bool
  | block _ | loop _ | if_ _ | else_ | end_ => true
  | _ => false

/-- How many control structures an operator opens. -/
def opens : Operator → Nat
  | block _ | loop _ | if_ _ => 1
  | _ => 0

/-- How many control structures an operator closes. -/
def closes : Operator → Nat
  | end_ => 1
  | _ => 0

/-- The result type of the control structure an operator opens. -/
def blockType? : Operator → Option ResultType
  | block resultType | loop resultType | if_ resultType => some resultType
  | _ => none

/-- The index of the branch table an operator refers to. -/
def branchTable? : Operator → Option Nat
  | brTable _ branchTableIndex => some branchTableIndex.toNat
  | _ => none

/-- The immediate as it lies in memory. `LoadOrStoreImm` has three bytes of padding between its
two fields, which no reader looks at. -/
def immBytes : Operator → Bytes
  | block resultType | loop resultType | if_ resultType => [resultType.toByte]
  | br v | brIf v | call v | callIndirect v | i32Const v | f32Const v => u32Bytes v
  | getLocal v | setLocal v | teeLocal v | getGlobal v | setGlobal v => u32Bytes v
  | load _ alignmentLog2 offset | store _ alignmentLog2 offset =>
    alignmentLog2 :: 0 :: 0 :: 0 :: u32Bytes offset
  | i64Const v | f64Const v => u64Bytes v
  | brTable defaultTargetDepth branchTableIndex =>
    u64Bytes defaultTargetDepth ++ u64Bytes branchTableIndex
  | _ => []

/-- The operator with a given opcode whose immediate lies at the start of `imm`. -/
def ofImm (opcode : Opcode) (imm : Bytes) : Operator :=
  match opcode with
  | .unreachable => unreachable
  | .nop => nop
  | .block => block (.ofByte (imm.headD 0))
  | .loop => loop (.ofByte (imm.headD 0))
  | .if_ => if_ (.ofByte (imm.headD 0))
  | .else_ => else_
  | .end_ => end_
  | .br => br (readU32 (imm.take 4))
  | .brIf => brIf (readU32 (imm.take 4))
  | .brTable => brTable (readU64 (imm.take 8)) (readU64 ((imm.drop 8).take 8))
  | .return_ => return_
  | .call => call (readU32 (imm.take 4))
  | .callIndirect => callIndirect (readU32 (imm.take 4))
  | .drop => drop
  | .select => select
  | .getLocal => getLocal (readU32 (imm.take 4))
  | .setLocal => setLocal (readU32 (imm.take 4))
  | .teeLocal => teeLocal (readU32 (imm.take 4))
  | .getGlobal => getGlobal (readU32 (imm.take 4))
  | .setGlobal => setGlobal (readU32 (imm.take 4))
  | .load op => load op (imm.headD 0) (readU32 ((imm.drop 4).take 4))
  | .store op => store op (imm.headD 0) (readU32 ((imm.drop 4).take 4))
  | .currentMemory => currentMemory
  | .growMemory => growMemory
  | .i32Const => i32Const (readU32 (imm.take 4))
  | .i64Const => i64Const (readU64 (imm.take 8))
  | .f32Const => f32Const (readU32 (imm.take 4))
  | .f64Const => f64Const (readU64 (imm.take 8))
  | .numeric op => numeric op

@[simp] theorem length_immBytes (op : Operator) : op.immBytes.length = op.opcode.immSize := by
  cases op <;> simp [immBytes, opcode, Opcode.immSize]

@[simp] theorem ofImm_immBytes (op : Operator) (rest : Bytes) :
    ofImm op.opcode (op.immBytes ++ rest) = op := by
  cases op <;> simp [ofImm, opcode, immBytes]

/-- `OperatorEncoderStream`: one encoded operator. -/
def encode (op : Operator) : Bytes := leBytes 2 op.opcode.code ++ op.immBytes

theorem length_encode (op : Operator) : op.encode.length = 2 + op.opcode.immSize := by
  simp [encode]

theorem encode_ne_nil (op : Operator) : op.encode ≠ [] := by
  intro hnil
  have hlen := op.length_encode
  rw [hnil, List.length_nil] at hlen
  omega

end Operator

/-- The operators up to and including the `end` that closes `depth + 1` open structures. -/
def upToEnd : Nat → List Operator → Option (List Operator)
  | _, [] => none
  | 0, .end_ :: _ => some [.end_]
  | depth, op :: ops => (upToEnd (depth + op.opens - op.closes) ops).map (op :: ·)

/-- The operators of a function up to and including the `end` that closes it. -/
def functionBody (ops : List Operator) : Option (List Operator) := upToEnd 0 ops

def encodeOps (ops : List Operator) : Bytes := ops.flatMap Operator.encode

@[simp] theorem encodeOps_nil : encodeOps [] = [] := rfl

@[simp] theorem encodeOps_cons (op : Operator) (ops : List Operator) :
    encodeOps (op :: ops) = op.encode ++ encodeOps ops := rfl

@[simp] theorem encodeOps_append (ops ops' : List Operator) :
    encodeOps (ops ++ ops') = encodeOps ops ++ encodeOps ops' := by
  simp [encodeOps]

theorem length_le_length_encodeOps (ops : List Operator) :
    2 * ops.length ≤ (encodeOps ops).length := by
  induction ops with
  | nil => simp
  | cons op ops ih =>
    simp only [encodeOps_cons, List.length_append, List.length_cons, Operator.length_encode]
    omega

/-- `OperatorDecoderStream::decodeOp`: the next operator (or the code of an unknown one) and the
bytes after it. -/
def decodeOp (bytes : Bytes) : Except Exception ((Operator ⊕ Nat) × Bytes) := do
  wavmAssertThrow (2 ≤ bytes.length) "nextByte + sizeof(Opcode) <= end"
  let opcode := leNat (bytes.take 2)
  match Opcode.ofCode? opcode with
  | some op =>
    let size := 2 + op.immSize
    wavmAssertThrow (size ≤ bytes.length) "nextByte + sizeof(OpcodeAndImm<Imm>) <= end"
    return (.inl (.ofImm op (bytes.drop 2)), bytes.drop size)
  | none => return (.inr opcode, bytes.drop 2)

theorem leNat_take_encode (op : Operator) (rest : Bytes) :
    leNat ((op.encode ++ rest).take 2) = op.opcode.code := by
  have hlt : op.opcode.code < 256 ^ 2 := by
    have := op.opcode.code_lt
    omega
  simp [Operator.encode, List.append_assoc, leNat_leBytes_of_lt hlt]

theorem drop_two_encode (op : Operator) (rest : Bytes) :
    (op.encode ++ rest).drop 2 = op.immBytes ++ rest := by
  simp [Operator.encode, List.append_assoc]

/-- Decoding what was encoded returns the operator and leaves the rest of the stream. -/
theorem decodeOp_encode (op : Operator) (rest : Bytes) :
    decodeOp (op.encode ++ rest) = .ok (.inl op, rest) := by
  have hlen : (op.encode ++ rest).length = 2 + op.opcode.immSize + rest.length := by
    simp [Operator.length_encode]
  have hdrop : (op.encode ++ rest).drop (2 + op.opcode.immSize) = rest := by
    rw [← Operator.length_encode]
    exact List.drop_left
  have h2 : wavmAssertThrow (decide (2 ≤ (op.encode ++ rest).length))
      "nextByte + sizeof(Opcode) <= end" = .ok () := by
    simp only [wavmAssertThrow_eq_ok, decide_eq_true_eq, hlen]
    omega
  have hsize : wavmAssertThrow (decide (2 + op.opcode.immSize ≤ (op.encode ++ rest).length))
      "nextByte + sizeof(OpcodeAndImm<Imm>) <= end" = .ok () := by
    simp only [wavmAssertThrow_eq_ok, decide_eq_true_eq, hlen]
    omega
  simp only [decodeOp, h2, leNat_take_encode, Opcode.ofCode?_code, hsize, drop_two_encode,
    Operator.ofImm_immBytes, hdrop]
  rfl

/-- The encoding of an operator is a prefix code. -/
theorem Operator.encode_append_inj {op op' : Operator} {rest rest' : Bytes}
    (h : op.encode ++ rest = op'.encode ++ rest') : op = op' ∧ rest = rest' := by
  have heq := decodeOp_encode op rest
  rw [h, decodeOp_encode op' rest'] at heq
  simp only [Except.ok.injEq, Prod.mk.injEq, Sum.inl.injEq] at heq
  exact ⟨heq.1.symm, heq.2.symm⟩

theorem encodeOps_injective {ops ops' : List Operator} (h : encodeOps ops = encodeOps ops') :
    ops = ops' := by
  induction ops generalizing ops' with
  | nil =>
    cases ops' with
    | nil => rfl
    | cons op' ops' =>
      have hlen := congrArg List.length h
      simp [Operator.length_encode] at hlen
      omega
  | cons op ops ih =>
    cases ops' with
    | nil =>
      have hlen := congrArg List.length h
      simp [Operator.length_encode] at hlen
    | cons op' ops' =>
      obtain ⟨hop, hops⟩ := Operator.encode_append_inj h
      rw [hop, ih hops]

/-! ## Reading a body back -/

/-- The operators encoded by `code`, at most `fuel` of them. -/
def operatorsFrom : Nat → Bytes → Option (List Operator)
  | 0, code => if code = [] then some [] else none
  | fuel + 1, code =>
    if code = [] then some []
    else
      match decodeOp code with
      | .ok (.inl op, rest) => (operatorsFrom fuel rest).map (op :: ·)
      | _ => none

/-- The operators of a function body. -/
def operators? (code : Bytes) : Option (List Operator) := operatorsFrom code.length code

theorem operatorsFrom_encodeOps {ops : List Operator} {fuel : Nat} (h : ops.length ≤ fuel) :
    operatorsFrom fuel (encodeOps ops) = some ops := by
  induction ops generalizing fuel with
  | nil => cases fuel <;> rfl
  | cons op ops ih =>
    cases fuel with
    | zero => exact absurd h (Nat.not_succ_le_zero _)
    | succ fuel =>
      have hne : encodeOps (op :: ops) ≠ [] := fun hnil => by
        have hlen := length_le_length_encodeOps (op :: ops)
        simp [hnil] at hlen
      rw [operatorsFrom, if_neg hne, encodeOps_cons, decodeOp_encode]
      simp only [ih (Nat.le_of_succ_le_succ h), Option.map_some]

@[simp] theorem operators?_encodeOps (ops : List Operator) :
    operators? (encodeOps ops) = some ops := by
  have hlen := length_le_length_encodeOps ops
  exact operatorsFrom_encodeOps (by omega)

end FractalWasm.IR
