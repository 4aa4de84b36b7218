import Mathlib.Logic.Function.Basic
import FractalWasm.Codec.Reader
import FractalWasm.IR.Operators

/-!
# Operators as mutable objects

`wasm_binary_ops.hpp`: the injection passes decode a function body operator by operator into a cache
that holds one mutable object for each opcode, and write operators out again through a growing byte
buffer. A pass keeps one cache for the life of the process, so an operator is unpacked into whatever
the last operator with its opcode, in this function or another, left there.

**Streams** (`InstructionStream`): the buffer behind a body under construction and the bytes written
so far; `set` appends, as `get_set` says.

**Objects** (`Field`, `CachedOps`): what an operator's object remembers. Unpacking into an object
and packing it again gives back the encoding (`get_pack_assign`), whatever the object held before.
-/

namespace FractalWasm.WasmOps

open Codec IR

/-! ## The output buffer -/

/-- A buffer whose first `idx` bytes are written. -/
structure InstructionStream where
  idx : Nat
  data : Bytes
  idx_le : idx ≤ data.length

namespace InstructionStream

/-- `std::vector::resize` -/
def resize (data : Bytes) (size : Nat) : Bytes :=
  data.take size ++ List.replicate (size - data.length) 0

@[simp] theorem length_resize (data : Bytes) (size : Nat) : (resize data size).length = size := by
  simp only [resize, List.length_append, List.length_take, List.length_replicate]
  omega

theorem take_resize {data : Bytes} {size n : Nat} (hdata : n ≤ data.length) (hsize : n ≤ size) :
    (resize data size).take n = data.take n := by
  have hlen : n ≤ (data.take size).length := by
    rw [List.length_take]
    omega
  rw [resize, List.take_append_of_le_length hlen, List.take_take, Nat.min_eq_left hsize]

def ofSize (size : Nat) : InstructionStream := ⟨0, List.replicate size 0, Nat.zero_le _⟩

/-- The data after the reallocation `set` makes before it copies `i` bytes. -/
def grown (stream : InstructionStream) (i : Nat) : Bytes :=
  if i + stream.idx ≥ stream.data.length then resize stream.data (stream.data.length * 2 + i)
  else stream.data

theorem le_length_grown (stream : InstructionStream) (i : Nat) :
    stream.idx + i ≤ (stream.grown i).length := by
  have := stream.idx_le
  unfold grown
  split
  · rw [length_resize]
    omega
  · omega

theorem take_grown (stream : InstructionStream) (i : Nat) :
    (stream.grown i).take stream.idx = stream.data.take stream.idx := by
  have := stream.idx_le
  unfold grown
  split
  · exact take_resize stream.idx_le (by omega)
  · rfl

/-- The copy stays inside the reallocated buffer (`le_length_grown`). -/
def set (stream : InstructionStream) (arr : Bytes) : InstructionStream where
  idx := stream.idx + arr.length
  data := (stream.grown arr.length).take stream.idx ++ arr ++
    (stream.grown arr.length).drop (stream.idx + arr.length)
  idx_le := by
    have := stream.le_length_grown arr.length
    simp only [List.length_append, List.length_take, List.length_drop]
    omega

def get (stream : InstructionStream) : Bytes := resize stream.data stream.idx

/-- `stream.idx = 0` -/
def rewind (stream : InstructionStream) : InstructionStream := ⟨0, stream.data, Nat.zero_le _⟩

theorem get_eq_take (stream : InstructionStream) : stream.get = stream.data.take stream.idx := by
  rw [get, resize, Nat.sub_eq_zero_of_le stream.idx_le, List.replicate_zero, List.append_nil]

@[simp] theorem get_ofSize (size : Nat) : (ofSize size).get = [] := by
  rw [get_eq_take]
  rfl

@[simp] theorem get_rewind (stream : InstructionStream) : stream.rewind.get = [] := by
  rw [get_eq_take]
  rfl

@[simp] theorem get_set (stream : InstructionStream) (arr : Bytes) :
    (stream.set arr).get = stream.get ++ arr := by
  have hlen := stream.le_length_grown arr.length
  have htake : ((stream.grown arr.length).take stream.idx ++ arr).length =
      stream.idx + arr.length := by
    rw [List.length_append, List.length_take, Nat.min_eq_left (by omega)]
  rw [get_eq_take, get_eq_take, set]
  dsimp only
  rw [← htake, List.take_left, take_grown]

end InstructionStream

/-! ## Fields -/

/-- The types an operator's `field` can have. -/
inductive FieldType where
  | voidtype
  | blocktype
  | uint32
  | memarg
  | uint64
  | branchtabletype
  deriving DecidableEq, Repr

inductive Field where
  | voidtype
  | blocktype (result : UInt8)
  | uint32 (value : UInt32)
  | memarg (a o : UInt32)
  | uint64 (value : UInt64)
  | branchtabletype (targetDepth tableIndex : UInt64)
  deriving DecidableEq, Repr

/-- `field_specific_params::unpack`: the field read from the bytes of an immediate. -/
def FieldType.unpack (type : FieldType) (imm : Bytes) : Field :=
  match type with
  | .voidtype => .voidtype
  | .blocktype => .blocktype (imm.headD 0)
  | .uint32 => .uint32 (readU32 (imm.take 4))
  | .memarg => .memarg (readU32 (imm.take 4)) (readU32 ((imm.drop 4).take 4))
  | .uint64 => .uint64 (readU64 (imm.take 8))
  | .branchtabletype => .branchtabletype (readU64 (imm.take 8)) (readU64 ((imm.drop 8).take 8))

/-- The field of a new operator object. -/
def FieldType.initial : FieldType → Field
  | .voidtype => .voidtype
  | .blocktype => .blocktype 0x40
  | .uint32 => .uint32 0
  | .memarg => .memarg 0 0
  | .uint64 => .uint64 0
  | .branchtabletype => .branchtabletype 0 0

/-- The bytes the overloads of `pack` write. -/
def Field.packed : Field → Bytes
  | voidtype => []
  | blocktype result => [result]
  | uint32 value => u32Bytes value
  | memarg a o => u32Bytes a ++ u32Bytes o
  | uint64 value => u64Bytes value
  | branchtabletype targetDepth tableIndex => u64Bytes targetDepth ++ u64Bytes tableIndex

/-- `field_specific_params::pack` -/
def Field.pack (field : Field) (stream : InstructionStream) : InstructionStream :=
  match field with
  | voidtype => stream
  | field => stream.set field.packed

@[simp] theorem Field.get_pack (field : Field) (stream : InstructionStream) :
    (field.pack stream).get = stream.get ++ field.packed := by
  cases field with
  | voidtype => simp [pack, packed]
  | _ => exact InstructionStream.get_set _ _

/-! ## The cached operators -/

/-- A slot of the cache: an operator, or the `error` object that stands for unknown opcodes. -/
abbrev Slot := Option Opcode

/-- `get_code()`; `error_code` is `0xff`. -/
def Slot.code : Slot → Nat
  | some opcode => opcode.code
  | none => 0xff

/-- The subsequences of `WASM_OP_SEQ`, by the type their operators have as `field`. -/
def fieldType : Slot → FieldType
  | some .block | some .loop | some .if_ => .blocktype
  | some .br | some .brIf | some .call | some .callIndirect => .uint32
  | some .getLocal | some .setLocal | some .teeLocal | some .getGlobal | some .setGlobal => .uint32
  | some .i32Const | some .f32Const => .uint32
  | some (.load _) | some (.store _) => .memarg
  | some .i64Const | some .f64Const => .uint64
  | some .brTable => .branchtabletype
  | _ => .voidtype

/-- `cached_ops`: the field of each operator object. -/
abbrev CachedOps := Slot → Field

namespace CachedOps

def initial : CachedOps := fun slot => (fieldType slot).initial

/-- Assigning the field of one object. -/
def assign (cached : CachedOps) (slot : Slot) (field : Field) : CachedOps :=
  Function.update cached slot field

/-- `op->pack(stream)` -/
def pack (cached : CachedOps) (slot : Slot) (stream : InstructionStream) : InstructionStream :=
  (cached slot).pack (stream.set (leBytes 2 (Slot.code slot)))

end CachedOps

/-- `EOSIO_OperatorDecoderStream::decodeOp`: unpacks the next operator into its object and returns
the object's slot. -/
def decodeOp (cached : CachedOps) : Reader Exception (Slot × CachedOps) := do
  let bytes ← get
  ftlAssert (2 ≤ bytes.length) .wasmRuntime ""
  match Opcode.ofCode? (leNat (bytes.take 2)) with
  | some opcode =>
    ftlAssert (2 + opcode.immSize ≤ bytes.length) .wasmRuntime ""
    set (bytes.drop (2 + opcode.immSize))
    let field := (fieldType (some opcode)).unpack (bytes.drop 2)
    return (some opcode, cached.assign (some opcode) field)
  | none =>
    set (bytes.drop 2)
    return (none, cached)

/-! ## What decoding and packing do -/

/-- The field an operator's object holds after the operator is decoded. -/
def fieldOf (op : Operator) : Field := (fieldType (some op.opcode)).unpack op.immBytes

/-- The layouts agree: a field packs to the immediate it was unpacked from. -/
@[simp] theorem packed_fieldOf (op : Operator) : (fieldOf op).packed = op.immBytes := by
  cases op <;> simp [fieldOf, fieldType, FieldType.unpack, Field.packed, Operator.opcode,
    Operator.immBytes, u32Bytes_readU32]

theorem unpack_immBytes (op : Operator) (rest : Bytes) :
    (fieldType (some op.opcode)).unpack (op.immBytes ++ rest) = fieldOf op := by
  cases op <;> simp [fieldOf, fieldType, FieldType.unpack, Operator.opcode, Operator.immBytes]

/-- What a cache holds in other slots, or held in this one before, never reaches the output. -/
@[simp] theorem get_pack_assign (cached : CachedOps) (op : Operator)
    (stream : InstructionStream) :
    ((cached.assign (some op.opcode) (fieldOf op)).pack (some op.opcode) stream).get =
      stream.get ++ op.encode := by
  simp [CachedOps.pack, CachedOps.assign, Slot.code, Operator.encode]

theorem decodeOp_encode (cached : CachedOps) (op : Operator) (rest : Bytes) :
    decodeOp cached (op.encode ++ rest) =
      .ok ((some op.opcode, cached.assign (some op.opcode) (fieldOf op)), rest) := by
  have hlen : (op.encode ++ rest).length = 2 + op.opcode.immSize + rest.length := by
    simp [Operator.length_encode]
  have hdrop : (op.encode ++ rest).drop (2 + op.opcode.immSize) = rest := by
    rw [← Operator.length_encode]
    exact List.drop_left
  refine bind_eq_ok.2 ⟨_, _, get_eq_ok.2 ⟨rfl, rfl⟩, ?_⟩
  refine bind_eq_ok.2 ⟨(), op.encode ++ rest, lift_eq_ok.2 ⟨?_, rfl⟩, ?_⟩
  · simp only [ftlAssert_eq_ok, decide_eq_true_eq, hlen]
    omega
  · simp only [leNat_take_encode, Opcode.ofCode?_code]
    refine bind_eq_ok.2 ⟨(), op.encode ++ rest, lift_eq_ok.2 ⟨?_, rfl⟩, ?_⟩
    · simp only [ftlAssert_eq_ok, decide_eq_true_eq, hlen]
      omega
    · rw [drop_two_encode, unpack_immBytes, hdrop]
      rfl

end FractalWasm.WasmOps
