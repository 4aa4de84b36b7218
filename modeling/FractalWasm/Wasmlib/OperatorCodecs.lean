import Mathlib.Data.List.Forall2
import FractalWasm.Wasmlib.BinaryOps

/-!
# The two operator codecs

`EOSIO_OperatorDecoderStream` reads what `IR::OperatorEncoderStream` wrote, but through structs of
its own. `LoadOrStoreImm` has three bytes of padding between its fields, and the encoder stores into
a fresh buffer without clearing them: here they are arbitrary. Both decoders cut the bytes at the
same places, and the object of the library writes back the very bytes it was read from.

**Encoded operators** (`Encoded`): an operator and the padding of its immediate.

**Objects** (`Instr`): a slot and the field it holds; two operators with the same values have the
same immediates (`SameImmediates`).

**Both streams** (`DecodesTo`): they find the same operators at the same places, for every sequence
of operators and any padding.
-/

namespace FractalWasm.WasmOps

open Codec IR

/-! ## Encoded operators -/

/-- The padding of one `LoadOrStoreImm`. -/
structure Padding where
  low : UInt8
  middle : UInt8
  high : UInt8
  deriving DecidableEq, Repr

/-- An operator as `OperatorEncoderStream` left it in the stream. -/
structure Encoded where
  op : Operator
  padding : Padding
  deriving DecidableEq, Repr

namespace Encoded

def immBytes (encoded : Encoded) : Bytes :=
  match encoded.op with
  | .load _ alignmentLog2 offset | .store _ alignmentLog2 offset =>
    alignmentLog2 :: encoded.padding.low :: encoded.padding.middle :: encoded.padding.high ::
      u32Bytes offset
  | op => op.immBytes

def bytes (encoded : Encoded) : Bytes := leBytes 2 encoded.op.opcode.code ++ encoded.immBytes

/-- A sequence of operators. -/
def stream (written : List Encoded) : Bytes := written.flatMap bytes

/-- What is left of the stream behind each operator. -/
def boundaries : List Encoded → List Bytes
  | [] => []
  | _ :: written => stream written :: boundaries written

@[simp] theorem stream_cons (encoded : Encoded) (written : List Encoded) :
    stream (encoded :: written) = encoded.bytes ++ stream written := rfl

@[simp] theorem length_immBytes (encoded : Encoded) :
    encoded.immBytes.length = encoded.op.opcode.immSize := by
  obtain ⟨op, padding⟩ := encoded
  cases op <;> simp [immBytes, Operator.immBytes, Operator.opcode, Opcode.immSize]

theorem length_bytes (encoded : Encoded) :
    encoded.bytes.length = 2 + encoded.op.opcode.immSize := by
  simp [bytes]

/-- Cleared padding is the encoding the rest of the development uses. -/
theorem bytes_of_zero (op : Operator) : bytes ⟨op, ⟨0, 0, 0⟩⟩ = op.encode := by
  cases op <;> rfl

theorem leNat_take_bytes (encoded : Encoded) (rest : Bytes) :
    leNat ((encoded.bytes ++ rest).take 2) = encoded.op.opcode.code := by
  have hlt : encoded.op.opcode.code < 256 ^ 2 := by
    have := encoded.op.opcode.code_lt
    omega
  simp [bytes, List.append_assoc, leNat_leBytes_of_lt hlt]

theorem drop_two_bytes (encoded : Encoded) (rest : Bytes) :
    (encoded.bytes ++ rest).drop 2 = encoded.immBytes ++ rest := by
  simp [bytes, List.append_assoc]

theorem drop_bytes (encoded : Encoded) (rest : Bytes) :
    (encoded.bytes ++ rest).drop (2 + encoded.op.opcode.immSize) = rest := by
  rw [← length_bytes]
  exact List.drop_left

theorem le_length_bytes (encoded : Encoded) (rest : Bytes) :
    2 + encoded.op.opcode.immSize ≤ (encoded.bytes ++ rest).length := by
  rw [List.length_append, length_bytes]
  exact Nat.le_add_right _ _

theorem ofImm_immBytes (encoded : Encoded) (rest : Bytes) :
    Operator.ofImm encoded.op.opcode (encoded.immBytes ++ rest) = encoded.op := by
  obtain ⟨op, padding⟩ := encoded
  cases op <;> simp [Operator.ofImm, Operator.opcode, immBytes, Operator.immBytes]

end Encoded

/-! ## The objects of the library -/

/-- An `instr` as `decodeOp` returns it. -/
structure Instr where
  slot : Slot
  field : Field
  deriving DecidableEq, Repr

/-- `pack` of `CONSTRUCT_OP_HAS_DATA` -/
def Instr.pack (instr : Instr) (stream : InstructionStream) : InstructionStream :=
  instr.field.pack (stream.set (leBytes 2 instr.slot.code))

theorem pack_eq (cached : CachedOps) (slot : Slot) (stream : InstructionStream) :
    cached.pack slot stream = Instr.pack ⟨slot, cached slot⟩ stream := rfl

/-- The field holds the values of the operator's immediate. Of a memory operator's alignment it is
the low byte of `memarg.a` that counts. -/
def SameImmediates : Operator → Field → Prop
  | .block resultType, .blocktype result | .loop resultType, .blocktype result
  | .if_ resultType, .blocktype result => result = resultType.toByte
  | .br v, .uint32 value | .brIf v, .uint32 value | .call v, .uint32 value
  | .callIndirect v, .uint32 value | .getLocal v, .uint32 value | .setLocal v, .uint32 value
  | .teeLocal v, .uint32 value | .getGlobal v, .uint32 value | .setGlobal v, .uint32 value
  | .i32Const v, .uint32 value | .f32Const v, .uint32 value => value = v
  | .load _ alignmentLog2 offset, .memarg a o | .store _ alignmentLog2 offset, .memarg a o =>
    a.toUInt8 = alignmentLog2 ∧ o = offset
  | .i64Const v, .uint64 value | .f64Const v, .uint64 value => value = v
  | .brTable defaultTargetDepth branchTableIndex, .branchtabletype targetDepth tableIndex =>
    targetDepth = defaultTargetDepth ∧ tableIndex = branchTableIndex
  | .unreachable, .voidtype | .nop, .voidtype | .else_, .voidtype | .end_, .voidtype
  | .return_, .voidtype | .drop, .voidtype | .select, .voidtype | .currentMemory, .voidtype
  | .growMemory, .voidtype | .numeric _, .voidtype => True
  | _, _ => False

namespace Encoded

/-- The object an encoded operator is decoded to. -/
def instr (encoded : Encoded) : Instr :=
  ⟨some encoded.op.opcode, (fieldType (some encoded.op.opcode)).unpack encoded.immBytes⟩

theorem unpack_immBytes (encoded : Encoded) (rest : Bytes) :
    (fieldType (some encoded.op.opcode)).unpack (encoded.immBytes ++ rest) =
      encoded.instr.field := by
  obtain ⟨op, padding⟩ := encoded
  cases op <;> simp [instr, fieldType, FieldType.unpack, Operator.opcode, immBytes,
    Operator.immBytes]

/-- The layouts agree, padding included. -/
theorem packed_instr (encoded : Encoded) : encoded.instr.field.packed = encoded.immBytes := by
  obtain ⟨op, padding⟩ := encoded
  cases op <;> simp [instr, fieldType, FieldType.unpack, Field.packed, Operator.opcode, immBytes,
    Operator.immBytes, u32Bytes_readU32]

/-- The low byte of a little-endian word is its first byte. -/
theorem toUInt8_readU32 (b0 b1 b2 b3 : UInt8) : (readU32 [b0, b1, b2, b3]).toUInt8 = b0 := by
  have hbytes : u32Bytes (readU32 [b0, b1, b2, b3]) = [b0, b1, b2, b3] := u32Bytes_readU32 rfl
  exact (List.cons.inj hbytes).1

theorem sameImmediates_instr (encoded : Encoded) :
    SameImmediates encoded.op encoded.instr.field := by
  obtain ⟨op, padding⟩ := encoded
  cases op with
  | block | loop | if_ => exact rfl
  | br v | brIf v | call v | callIndirect v | getLocal v | setLocal v | teeLocal v | getGlobal v
  | setGlobal v | i32Const v | f32Const v => exact readU32_u32Bytes v
  | load _ alignmentLog2 offset | store _ alignmentLog2 offset =>
    exact ⟨toUInt8_readU32 _ _ _ _, readU32_u32Bytes offset⟩
  | i64Const v | f64Const v => exact readU64_u64Bytes v
  | brTable defaultTargetDepth branchTableIndex =>
    exact ⟨readU64_u64Bytes defaultTargetDepth, readU64_u64Bytes branchTableIndex⟩
  | _ => exact trivial

theorem get_pack_instr (encoded : Encoded) (stream : InstructionStream) :
    (encoded.instr.pack stream).get = stream.get ++ encoded.bytes := by
  simp only [Instr.pack, Field.get_pack, InstructionStream.get_set, packed_instr, bytes,
    List.append_assoc]
  rfl

/-! ## One operator -/

theorem decodeOp_ir (encoded : Encoded) (rest : Bytes) :
    IR.decodeOp (encoded.bytes ++ rest) = .ok (.inl encoded.op, rest) := by
  have hsize := encoded.le_length_bytes rest
  have h2 : wavmAssertThrow (decide (2 ≤ (encoded.bytes ++ rest).length))
      "nextByte + sizeof(Opcode) <= end" = .ok () := by
    simp only [wavmAssertThrow_eq_ok, decide_eq_true_eq]
    omega
  have himm : wavmAssertThrow
      (decide (2 + encoded.op.opcode.immSize ≤ (encoded.bytes ++ rest).length))
      "nextByte + sizeof(OpcodeAndImm<Imm>) <= end" = .ok () := by
    simpa using hsize
  simp only [IR.decodeOp, h2, leNat_take_bytes, Opcode.ofCode?_code, himm, drop_two_bytes,
    ofImm_immBytes, drop_bytes]
  rfl

theorem decodeOp_eosio (cached : CachedOps) (encoded : Encoded) (rest : Bytes) :
    decodeOp cached (encoded.bytes ++ rest) =
      .ok ((encoded.instr.slot, cached.assign encoded.instr.slot encoded.instr.field), rest) := by
  have hsize := encoded.le_length_bytes rest
  refine bind_eq_ok.2 ⟨_, _, get_eq_ok.2 ⟨rfl, rfl⟩, ?_⟩
  refine bind_eq_ok.2 ⟨(), encoded.bytes ++ rest, lift_eq_ok.2 ⟨?_, rfl⟩, ?_⟩
  · simp only [ftlAssert_eq_ok, decide_eq_true_eq]
    omega
  · simp only [leNat_take_bytes, Opcode.ofCode?_code]
    refine bind_eq_ok.2 ⟨(), encoded.bytes ++ rest, lift_eq_ok.2 ⟨?_, rfl⟩, ?_⟩
    · simpa only [ftlAssert_eq_ok, decide_eq_true_eq] using hsize
    · rw [drop_two_bytes, unpack_immBytes, drop_bytes]
      rfl

end Encoded

/-! ## The streams -/

/-- `while (decoder) { decoder.decodeOp(); }`: what each call returns, and the bytes behind it. -/
inductive DecodesTo {σ α : Type} (decode : σ → Bytes → Except Exception ((α × σ) × Bytes)) :
    σ → Bytes → List (α × Bytes) → Prop where
  | done {state : σ} : DecodesTo decode state [] []
  | next {state state' : σ} {bytes rest : Bytes} {a : α} {steps : List (α × Bytes)}
      (hne : bytes ≠ []) (hdecode : decode state bytes = .ok ((a, state'), rest))
      (hrest : DecodesTo decode state' rest steps) :
      DecodesTo decode state bytes ((a, rest) :: steps)

/-- `IR::OperatorDecoderStream::decodeOp`, which keeps no state but its position. -/
def irDecodeOp (_ : Unit) (bytes : Bytes) :
    Except Exception (((Operator ⊕ Nat) × Unit) × Bytes) := do
  let (op, rest) ← IR.decodeOp bytes
  return ((op, ()), rest)

/-- `EOSIO_OperatorDecoderStream::decodeOp`, with the object as it is when it is returned. -/
def eosioDecodeOp (cached : CachedOps) (bytes : Bytes) :
    Except Exception ((Instr × CachedOps) × Bytes) := do
  let ((slot, cached), rest) ← decodeOp cached bytes
  return ((⟨slot, cached slot⟩, cached), rest)

namespace Encoded

theorem bytes_ne_nil (encoded : Encoded) (rest : Bytes) : encoded.bytes ++ rest ≠ [] := by
  intro hnil
  have hlen := encoded.le_length_bytes rest
  rw [hnil, List.length_nil] at hlen
  omega

theorem irDecodeOp_bytes (encoded : Encoded) (rest : Bytes) :
    irDecodeOp () (encoded.bytes ++ rest) = .ok ((.inl encoded.op, ()), rest) := by
  rw [irDecodeOp, decodeOp_ir]
  rfl

theorem eosioDecodeOp_bytes (cached : CachedOps) (encoded : Encoded) (rest : Bytes) :
    eosioDecodeOp cached (encoded.bytes ++ rest) =
      .ok ((encoded.instr, cached.assign encoded.instr.slot encoded.instr.field), rest) := by
  have hfield : cached.assign encoded.instr.slot encoded.instr.field encoded.instr.slot =
      encoded.instr.field := Function.update_self _ _ _
  rw [eosioDecodeOp, decodeOp_eosio]
  change Except.ok ((Instr.mk encoded.instr.slot (cached.assign encoded.instr.slot
    encoded.instr.field encoded.instr.slot), _), rest) = _
  rw [hfield]

theorem decodesTo_ir (written : List Encoded) :
    DecodesTo irDecodeOp () (stream written)
      ((written.map fun encoded => .inl encoded.op).zip (boundaries written)) := by
  induction written with
  | nil => exact .done
  | cons encoded written ih =>
    exact .next (encoded.bytes_ne_nil _) (encoded.irDecodeOp_bytes _) ih

theorem decodesTo_eosio (cached : CachedOps) (written : List Encoded) :
    DecodesTo eosioDecodeOp cached (stream written)
      ((written.map instr).zip (boundaries written)) := by
  induction written generalizing cached with
  | nil => exact .done
  | cons encoded written ih =>
    exact .next (encoded.bytes_ne_nil _) (encoded.eosioDecodeOp_bytes cached _) (ih _)

end Encoded

/-- The object of the library stands for the operator. -/
structure Stands (encoded : Encoded) (instr : Instr) : Prop where
  code : instr.slot.code = encoded.op.opcode.code
  immediates : SameImmediates encoded.op instr.field
  repacked : ∀ stream, (instr.pack stream).get = stream.get ++ encoded.bytes
  readBack : ∀ rest, IR.decodeOp (encoded.bytes ++ rest) = .ok (.inl encoded.op, rest)

theorem Encoded.stands_instr (encoded : Encoded) : Stands encoded encoded.instr where
  code := rfl
  immediates := encoded.sameImmediates_instr
  repacked := encoded.get_pack_instr
  readBack := encoded.decodeOp_ir

/-- Both decoders run to the end of what was written and stop at the same places on the way,
whatever the cache holds at the start. -/
theorem codecs_agree (cached : CachedOps) (written : List Encoded) :
    ∃ instrs : List Instr,
      DecodesTo irDecodeOp () (Encoded.stream written)
        ((written.map fun encoded => .inl encoded.op).zip (Encoded.boundaries written)) ∧
      DecodesTo eosioDecodeOp cached (Encoded.stream written)
        (instrs.zip (Encoded.boundaries written)) ∧
      List.Forall₂ Stands written instrs := by
  refine ⟨written.map Encoded.instr, Encoded.decodesTo_ir written,
    Encoded.decodesTo_eosio cached written, ?_⟩
  rw [List.forall₂_map_right_iff, List.forall₂_same]
  exact fun encoded _ => encoded.stands_instr

end FractalWasm.WasmOps
