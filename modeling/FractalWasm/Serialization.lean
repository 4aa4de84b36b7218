import FractalWasm.Codec.LittleEndian
import FractalWasm.Codec.Reader
import FractalWasm.Exceptions
import FractalWasm.IR.Types

/-!
# Binary serialization: the input stream

The input half of `Inline/Serialization.h` and the string check of `Inline/UTF8.h`. A
`MemoryInputStream` is the list of bytes that remain; reading past its end throws, and the limits
the library puts on strings, arrays and raw byte runs are checked where the source checks them.

**Numbers** (`serializeVarUInt`, `serializeVarInt`): LEB128 as the decoder needs it, on integers;
the template with its machine arithmetic is `VarInt`, which computes the same.

**Containers** (`serializeString`, `serializeArray`): a length, its limit, and the elements.

**Progress** (`shrinks_*`, `consumes_*`): every reader leaves no more than it found, and those that
read at least one byte leave less. The loops of the decoder end for this reason.
-/

namespace FractalWasm.Serialization

open Codec IR

/-- A reader of the binary format. -/
abbrev InputReader (α : Type) := Reader Exception α

def throwFatal {α : Type} (message : String) : InputReader α :=
  throw (.fatalSerialization message)

@[simp] theorem throwFatal_eq_ok {α : Type} {message : String} {a : α} {bytes rest : Bytes} :
    throwFatal message bytes = .ok (a, rest) ↔ False := throw_eq_ok

/-- `if(failed) { throw FatalSerializationException(message); }` -/
def throwIf (failed : Bool) (message : String) : InputReader Unit :=
  if failed then throwFatal message else pure ()

@[simp] theorem throwIf_eq_ok {failed : Bool} {message : String} {u : Unit} {bytes rest : Bytes} :
    throwIf failed message bytes = .ok (u, rest) ↔ failed = false ∧ bytes = rest := by
  unfold throwIf
  cases failed <;> simp

/-! ## Limits -/

/-- `wasm_constraints::wasm_page_size` -/
def wasmPageSize : Nat := 64 * 1024

/-- `wasm_constraints::maximum_func_local_bytes` -/
def maximumFuncLocalBytes : Nat := 8192

/-- `wasm_constraints::maximum_section_elements` -/
def maximumSectionElements : Nat := 1024

/-- `wasm_constraints::maximum_code_size` -/
def maximumCodeSize : Nat := 20 * 1024 * 1024

/-! ## Streams -/

/-- `MemoryInputStream::advance`. -/
def advance (numBytes : Nat) : InputReader Bytes := do
  let bytes ← get
  throwIf (bytes.length < numBytes) "expected data but found end of stream"
  set (bytes.drop numBytes)
  return bytes.take numBytes

/-- `*stream.peek(1)` -/
def peekByte : InputReader UInt8 := do
  let bytes ← get
  throwIf (bytes.length < 1) "expected data but found end of stream"
  return bytes.headD 0

/-- The stream moves forward by as many bytes as are asked for, and must have them. -/
theorem advance_eq_ok {numBytes : Nat} {bytes rest taken : Bytes} :
    advance numBytes bytes = .ok (taken, rest) ↔
      bytes = taken ++ rest ∧ taken.length = numBytes := by
  unfold advance
  constructor
  · intro h
    obtain ⟨b, t, hget, h⟩ := bind_eq_ok.1 h
    obtain ⟨rfl, rfl⟩ := get_eq_ok.1 hget
    obtain ⟨u, t, hthrow, h⟩ := bind_eq_ok.1 h
    obtain ⟨hlen, rfl⟩ := throwIf_eq_ok.1 hthrow
    obtain ⟨u, t, hset, h⟩ := bind_eq_ok.1 h
    obtain rfl := set_eq_ok.1 hset
    obtain ⟨rfl, rfl⟩ := pure_eq_ok.1 h
    have hle : numBytes ≤ bytes.length := by simpa using hlen
    exact ⟨(List.take_append_drop numBytes bytes).symm, List.length_take_of_le hle⟩
  · rintro ⟨rfl, rfl⟩
    refine bind_eq_ok.2 ⟨_, _, get_eq_ok.2 ⟨rfl, rfl⟩, ?_⟩
    refine bind_eq_ok.2 ⟨(), _, throwIf_eq_ok.2 ⟨by simp, rfl⟩, ?_⟩
    refine bind_eq_ok.2 ⟨PUnit.unit, _, set_eq_ok.2 rfl, ?_⟩
    simp

/-- `serializeBytes`, which refuses a run of a page or more. -/
def serializeBytes (numBytes : Nat) : InputReader Bytes :=
  if numBytes < wasmPageSize then advance numBytes
  else throwFatal ("Trying to deserialize bytes of size : " ++ toString numBytes)

/-- A run of bytes is shorter than a page of memory. -/
theorem serializeBytes_eq_ok {numBytes : Nat} {bytes rest taken : Bytes} :
    serializeBytes numBytes bytes = .ok (taken, rest) ↔
      numBytes < wasmPageSize ∧ bytes = taken ++ rest ∧ taken.length = numBytes := by
  unfold serializeBytes
  split
  · next h => simp [h, advance_eq_ok]
  · next h => simp [h]

/-- `serializeNativeValue` of a one-byte value. -/
def serializeU8 : InputReader UInt8 := do
  let bytes ← serializeBytes 1
  return bytes.headD 0

def serializeU32 : InputReader UInt32 := do
  let bytes ← serializeBytes 4
  return readU32 bytes

def serializeU64 : InputReader UInt64 := do
  let bytes ← serializeBytes 8
  return readU64 bytes

/-! ## LEB128 -/

/-- The bytes of a variable-length integer: up to `maxBytes` of them, the last one read being the
first without a continuation bit. -/
def varIntBytes : Nat → InputReader Bytes
  | 0 => pure []
  | maxBytes + 1 => do
    let byte := (← advance 1).headD 0
    if byte < 0x80 then return [byte]
    else return byte :: (← varIntBytes maxBytes)

/-- Seven payload bits of each byte, lowest first. -/
def varIntPayload : Bytes → Nat
  | [] => 0
  | byte :: bytes => byte.toNat % 128 + 128 * varIntPayload bytes

/-- `maxBytes` of `serializeVarInt`. -/
def varIntMaxBytes (maxBits : Nat) : Nat := (maxBits + 6) / 7

/-- `numUsedBitsInLastByte` of `serializeVarInt`. -/
def varIntLastBits (maxBits : Nat) : Nat := maxBits - (varIntMaxBytes maxBits - 1) * 7

/-- `bytes[maxBytes-1]`: zero when fewer bytes were read. -/
def varIntLastByte (maxBits : Nat) (bytes : Bytes) : Nat :=
  (bytes.getD (varIntMaxBytes maxBits - 1) 0).toNat

def outOfRange (value min max : Int) : String :=
  "out-of-range value: " ++ toString min ++ "<=" ++ toString value ++ "<=" ++ toString max

/-- `serializeVarInt` at an unsigned type at least `maxBits` wide. -/
def serializeVarUInt (maxBits : Nat) : InputReader Nat := do
  let bytes ← varIntBytes (varIntMaxBytes maxBits)
  throwIf (2 ^ varIntLastBits maxBits ≤ varIntLastByte maxBits bytes)
    "Invalid unsigned LEB encoding: unused bits in final byte must be 0"
  let value := varIntPayload bytes
  throwIf (2 ^ maxBits ≤ value) (outOfRange value 0 (2 ^ maxBits - 1))
  return value

/-- A `bits`-wide word read as a two's complement number. -/
def signExtend (bits value : Nat) : Int :=
  let low := value % 2 ^ bits
  if low < 2 ^ (bits - 1) then low else (low : Int) - 2 ^ bits

/-- `serializeVarInt` at the signed type of `width` bits. The bits of the last byte above the used
ones must repeat its sign bit, and its continuation bit must be clear. -/
def serializeVarInt (width maxBits : Nat) : InputReader Int := do
  let bytes ← varIntBytes (varIntMaxBytes maxBits)
  let used := varIntLastBits maxBits
  let lastByte := varIntLastByte maxBits bytes
  let unused := if lastByte % 2 ^ used < 2 ^ (used - 1) then 0 else 128 - 2 ^ used
  throwIf (lastByte - lastByte % 2 ^ used != unused)
    "Invalid signed LEB encoding: unused bits in final byte must match the most-significant used bit"
  let value := signExtend (min width (7 * bytes.length)) (varIntPayload bytes)
  throwIf (value < -2 ^ (maxBits - 1) || 2 ^ (maxBits - 1) - 1 < value)
    (outOfRange value (-2 ^ (maxBits - 1)) (2 ^ (maxBits - 1) - 1))
  return value

def serializeVarUInt1 : InputReader Nat := serializeVarUInt 1

def serializeVarUInt7 : InputReader Nat := serializeVarUInt 7

def serializeVarUInt32 : InputReader Nat := serializeVarUInt 32

def serializeVarInt7 : InputReader Int := serializeVarInt 8 7

def serializeVarInt32 : InputReader Int := serializeVarInt 32 32

def serializeVarInt64 : InputReader Int := serializeVarInt 64 64

/-- A check that fails when `failed` holds lets the rest rely on `failed = false`. -/
theorem returns_throwIf (failed : Bool) (message : String) :
    Reader.Returns (fun _ => failed = false) (throwIf failed message) :=
  ⟨fun h => (throwIf_eq_ok.1 h).1⟩

/-- The last check bounds what is returned. -/
theorem returns_serializeVarUInt (maxBits : Nat) :
    Reader.Returns (· < 2 ^ maxBits) (serializeVarUInt maxBits) := by
  refine .bind fun bytes => .bind fun _ => ?_
  exact .bind_of (returns_throwIf _ _) fun _ hrange => .pure (by simpa using hrange)

/-! ## Constants and containers -/

/-- `serializeConstant` of a one-byte constant. -/
def serializeConstantU8 (constantMismatchMessage : String) (constant : UInt8) :
    InputReader Unit := do
  let savedConstant ← serializeU8
  throwIf (savedConstant != constant)
    (constantMismatchMessage ++ ": loaded " ++ toString savedConstant.toNat ++
      " but was expecting " ++ toString constant.toNat)

/-- `serializeConstant` of a four-byte constant. -/
def serializeConstantU32 (constantMismatchMessage : String) (constant : UInt32) :
    InputReader Unit := do
  let savedConstant ← serializeU32
  throwIf (savedConstant != constant)
    (constantMismatchMessage ++ ": loaded " ++ toString savedConstant.toNat ++
      " but was expecting " ++ toString constant.toNat)

def sizeMessage (what : String) (size : Nat) : String :=
  "Trying to deserialize " ++ what ++ " of size : " ++ toString size ++ ", which is over by " ++
    toString (size - maximumFuncLocalBytes) ++ " bytes"

/-- `serialize` of a `std::string`. -/
def serializeString : InputReader Bytes := do
  let size ← serializeVarUInt32
  let inputBytes ← advance size
  throwIf (maximumFuncLocalBytes ≤ size) (sizeMessage "string" size)
  return inputBytes

/-- `serializeArray`. -/
def serializeArray {α : Type} (serializeElement : InputReader α) : InputReader (List α) := do
  let size ← serializeVarUInt32
  throwIf (maximumFuncLocalBytes ≤ size) (sizeMessage "array" size)
  serializeElement.many size

/-! ## Every reader shrinks its input -/

/-- A check leaves the stream as it is. -/
theorem shrinks_throwIf (failed : Bool) (message : String) :
    Reader.Shrinks (throwIf failed message) :=
  .ite (.throw _) (.pure _)

theorem shrinks_advance (numBytes : Nat) : Reader.Shrinks (advance numBytes) := by
  refine ⟨fun {bytes rest taken} h => ?_⟩
  obtain ⟨rfl, -⟩ := advance_eq_ok.1 h
  simp

/-- Reading at least one byte makes the stream shorter, which is what ends the loops of the decoder.
-/
theorem consumes_advance {numBytes : Nat} (hpos : 0 < numBytes) :
    Reader.Consumes (advance numBytes) := by
  refine ⟨fun {bytes rest taken} h => ?_⟩
  obtain ⟨rfl, hlen⟩ := advance_eq_ok.1 h
  simp only [List.length_append]
  omega

theorem shrinks_serializeBytes (numBytes : Nat) : Reader.Shrinks (serializeBytes numBytes) :=
  .ite (shrinks_advance _) (.throw _)

theorem consumes_serializeU8 : Reader.Consumes serializeU8 :=
  .bind (consumes_advance Nat.one_pos) fun _ => .pure _

theorem shrinks_serializeU32 : Reader.Shrinks serializeU32 :=
  .bind (shrinks_serializeBytes 4) fun _ => .pure _

theorem shrinks_serializeU64 : Reader.Shrinks serializeU64 :=
  .bind (shrinks_serializeBytes 8) fun _ => .pure _

/-- Each round reads one byte. -/
theorem shrinks_varIntBytes (maxBytes : Nat) : Reader.Shrinks (varIntBytes maxBytes) := by
  induction maxBytes with
  | zero => exact .pure _
  | succ maxBytes ih =>
    exact .bind (shrinks_advance 1) fun _ => .ite (.pure _) (.bind ih fun _ => .pure _)

theorem shrinks_serializeVarUInt (maxBits : Nat) : Reader.Shrinks (serializeVarUInt maxBits) :=
  .bind (shrinks_varIntBytes _) fun _ => .bind (shrinks_throwIf _ _) fun _ =>
    .bind (shrinks_throwIf _ _) fun _ => .pure _

theorem shrinks_serializeVarInt (width maxBits : Nat) :
    Reader.Shrinks (serializeVarInt width maxBits) :=
  .bind (shrinks_varIntBytes _) fun _ => .bind (shrinks_throwIf _ _) fun _ =>
    .bind (shrinks_throwIf _ _) fun _ => .pure _

theorem consumes_serializeConstantU8 (message : String) (constant : UInt8) :
    Reader.Consumes (serializeConstantU8 message constant) :=
  .bind consumes_serializeU8 fun _ => shrinks_throwIf _ _

/-- The elements are read one after the other. -/
theorem shrinks_serializeArray {α : Type} {r : InputReader α} (hr : Reader.Shrinks r) :
    Reader.Shrinks (serializeArray r) :=
  .bind (shrinks_serializeVarUInt 32) fun _ => .bind (shrinks_throwIf _ _) fun _ => .many hr _

/-! ## UTF-8 -/

def inRange (lo hi byte : UInt8) : Bool := lo ≤ byte && byte ≤ hi

/-- `UTF8::validateString`: the bytes from the first one that does not start a valid sequence. The
row for `0xed` compares its second byte with an empty range, as the source does. -/
def validateString : Bytes → Bytes
  | [] => []
  | b0 :: rest =>
    if b0 < 0x80 then validateString rest
    else if inRange 0xc2 0xdf b0 then
      match rest with
      | b1 :: rest => if inRange 0x80 0xbf b1 then validateString rest else b0 :: b1 :: rest
      | [] => [b0]
    else if inRange 0xe0 0xef b0 then
      match rest with
      | b1 :: b2 :: rest =>
        let second :=
          if b0 = 0xe0 then inRange 0xa0 0xbf b1
          else if b0 = 0xed then inRange 0xa0 0x9f b1
          else inRange 0x80 0xbf b1
        if second && inRange 0x80 0xbf b2 then validateString rest else b0 :: b1 :: b2 :: rest
      | rest => b0 :: rest
    else if inRange 0xf0 0xf4 b0 then
      match rest with
      | b1 :: b2 :: b3 :: rest =>
        let second :=
          if b0 = 0xf0 then inRange 0x90 0xbf b1
          else if b0 = 0xf4 then inRange 0x80 0x8f b1
          else inRange 0x80 0xbf b1
        if second && inRange 0x80 0xbf b2 && inRange 0x80 0xbf b3 then validateString rest
        else b0 :: b1 :: b2 :: b3 :: rest
      | rest => b0 :: rest
    else b0 :: rest

def throwIfNotValidUTF8 (string : Bytes) : InputReader Unit :=
  throwIf (validateString string != []) "invalid UTF-8 encoding"

end FractalWasm.Serialization
