import FractalWasm.Codec.Words
import FractalWasm.Serialization.Output

/-!
# LEB128 as the template computes it

`serializeVarInt<Value,maxBits>` with the machine arithmetic it is written in: the promoted shifts,
the masks of the last byte and the `I8` that counts how far the value is to be sign-extended.

**Instances** (`VarInt`): a type, a number of bits and that the type holds them. The seven helpers
`serializeVarUInt1` to `serializeVarInt64` are instances at the types of their arguments, and the
`minValue` and `maxValue` they pass on are the bounds of the model (`toInt_bounds`).

**Writing** (`output_unsigned`, `output_signed`): what an instance writes is what the writer of
`Output` writes, and the fuel of its loop is enough.

**Reading** (`input_unsigned`, `input_signed`): what an instance reads is what the reader of
`Serialization` reads, errors included.
-/

namespace FractalWasm.Serialization

open Codec IR

/-! ## Values -/

/-- The integer types of `BasicTypes.h`. -/
inductive BasicType where
  | u8 | u16 | u32 | u64 | i8 | i16 | i32 | i64
  deriving DecidableEq, Repr

namespace BasicType

/-- `sizeof(Value) * 8` -/
def bits : BasicType → Nat
  | .u8 | .i8 => 8
  | .u16 | .i16 => 16
  | .u32 | .i32 => 32
  | .u64 | .i64 => 64

/-- `std::is_signed<Value>::value` -/
def isSigned : BasicType → Bool
  | .u8 | .u16 | .u32 | .u64 => false
  | .i8 | .i16 | .i32 | .i64 => true

/-- An operand narrower than `int` is promoted to it. -/
def promotedBits (type : BasicType) : Nat := max 32 type.bits

variable {type : BasicType}

/-- The number a value stands for. -/
def toInt (type : BasicType) (value : BitVec type.bits) : Int :=
  if type.isSigned then value.toInt else value.toNat

def promote (type : BasicType) (value : BitVec type.bits) : BitVec type.promotedBits :=
  if type.isSigned then value.signExtend _ else value.setWidth _

/-- `Value(value << numBits)` -/
def shl (type : BasicType) (value : BitVec type.bits) (numBits : Nat) : BitVec type.bits :=
  (type.promote value <<< numBits).setWidth _

/-- `Value(value >> numBits)`; an unsigned value is not negative after its promotion either. -/
def shr (type : BasicType) (value : BitVec type.bits) (numBits : Nat) : BitVec type.bits :=
  (if type.isSigned then (type.promote value).sshiftRight numBits
    else type.promote value >>> numBits).setWidth _

/-- `(U8)(value&127)` -/
def lowBits (type : BasicType) (value : BitVec type.bits) : UInt8 :=
  ⟨(type.promote value &&& 127).setWidth 8⟩

theorem bits_le : type.bits ≤ 64 := by
  cases type <;> decide

theorem bits_pos : 0 < type.bits := by
  cases type <;> decide

theorem eight_le_bits : 8 ≤ type.bits := by
  cases type <;> decide

theorem bits_le_promotedBits : type.bits ≤ type.promotedBits := Nat.le_max_right _ _

/-- Promotion keeps the value, of either signedness. -/
theorem setWidth_promote (value : BitVec type.bits) :
    (type.promote value).setWidth type.bits = value := by
  unfold promote
  split
  · exact setWidth_signExtend bits_le_promotedBits value
  · exact setWidth_setWidth_self bits_le_promotedBits value

/-- A left shift may be done before or after the promotion. -/
theorem shl_eq (value : BitVec type.bits) (numBits : Nat) :
    type.shl value numBits = value <<< numBits := by
  rw [shl, BitVec.setWidth_shiftLeft_of_le bits_le_promotedBits, setWidth_promote]

/-- A signed value is shifted arithmetically. -/
theorem shr_of_signed (h : type.isSigned = true) (value : BitVec type.bits) (numBits : Nat) :
    type.shr value numBits = value.sshiftRight numBits := by
  rw [shr, promote, if_pos h, if_pos h]
  exact setWidth_sshiftRight_signExtend bits_le_promotedBits value numBits

/-- An unsigned one is shifted logically, although `int` is signed. -/
theorem shr_of_unsigned (h : type.isSigned = false) (value : BitVec type.bits) (numBits : Nat) :
    type.shr value numBits = value >>> numBits := by
  rw [shr, promote, h]
  exact setWidth_ushiftRight_setWidth bits_le_promotedBits value numBits

theorem toInt_of_signed (h : type.isSigned = true) (value : BitVec type.bits) :
    type.toInt value = value.toInt := if_pos h

theorem toInt_of_unsigned (h : type.isSigned = false) (value : BitVec type.bits) :
    type.toInt value = value.toNat := by
  rw [toInt, h]
  rfl

theorem dvd_two_pow_bits : 256 ∣ 2 ^ type.bits := by
  cases type <;> decide

/-- Seven bits are one digit. -/
theorem toNat_shr_seven (h : type.isSigned = false) (value : BitVec type.bits) :
    (type.shr value 7).toNat = value.toNat / 128 := by
  rw [shr_of_unsigned h, BitVec.toNat_ushiftRight, Nat.shiftRight_eq_div_pow]

/-- The same of a signed value, rounded down. -/
theorem toInt_shr_seven (h : type.isSigned = true) (value : BitVec type.bits) :
    (type.shr value 7).toInt = value.toInt / 128 := by
  rw [shr_of_signed h, BitVec.toInt_sshiftRight, Int.shiftRight_eq_div_pow]
  rfl

/-- The digit that is written next. -/
theorem toNat_lowBits (value : BitVec type.bits) :
    (lowBits type value).toNat = value.toNat % 128 := by
  have hlow : (type.promote value).toNat % 2 ^ type.bits = value.toNat := by
    rw [← BitVec.toNat_setWidth, setWidth_promote]
  have hmask : (127 : BitVec type.promotedBits).toNat = 2 ^ 7 - 1 := by
    cases type <;> rfl
  have hdvd : 128 ∣ 2 ^ type.bits := Nat.dvd_trans (by decide) dvd_two_pow_bits
  change ((type.promote value &&& 127).setWidth 8).toNat = _
  rw [BitVec.toNat_setWidth, BitVec.toNat_and, hmask, Nat.and_two_pow_sub_one_eq_mod, ← hlow,
    Nat.mod_mod_of_dvd _ hdvd]
  exact Nat.mod_eq_of_lt (Nat.lt_trans (Nat.mod_lt _ (by decide)) (by decide))

/-- The lowest digit does not depend on how the value is taken. -/
theorem toNat_emod_toInt (value : BitVec type.bits) :
    (value.toInt % 128).toNat = value.toNat % 128 := by
  have hdvd : (128 : Int) ∣ (2 ^ type.bits : Nat) :=
    Int.natCast_dvd_natCast.2 (Nat.dvd_trans (by decide) dvd_two_pow_bits)
  rw [← Int.emod_emod_of_dvd _ hdvd, BitVec.toInt_eq_toNat_bmod, Int.bmod_emod,
    Int.emod_emod_of_dvd _ hdvd]
  rfl

end BasicType

/-! ## The template -/

/-- An instance of `serializeVarInt<Value,maxBits>`; the type may be wider than `maxBits`. -/
structure VarInt where
  type : BasicType
  maxBits : Nat
  maxBits_pos : 0 < maxBits
  maxBits_le : maxBits ≤ type.bits

namespace VarInt

def minimum (isSigned : Bool) (maxBits : Nat) : Int := if isSigned then -2 ^ (maxBits - 1) else 0

def maximum (isSigned : Bool) (maxBits : Nat) : Int :=
  if isSigned then 2 ^ (maxBits - 1) - 1 else 2 ^ maxBits - 1

/-! The helpers, at the type `Value` is deduced to. -/

def serializeVarUInt1 (type : BasicType) : VarInt :=
  ⟨type, 1, by decide, Nat.le_trans (by decide) BasicType.eight_le_bits⟩

def serializeVarUInt7 (type : BasicType) : VarInt :=
  ⟨type, 7, by decide, Nat.le_trans (by decide) BasicType.eight_le_bits⟩

def serializeVarUInt32 (type : BasicType) (wide : 32 ≤ type.bits) : VarInt :=
  ⟨type, 32, by decide, wide⟩

def serializeVarUInt64 (type : BasicType) (wide : 64 ≤ type.bits) : VarInt :=
  ⟨type, 64, by decide, wide⟩

def serializeVarInt7 (type : BasicType) : VarInt :=
  ⟨type, 7, by decide, Nat.le_trans (by decide) BasicType.eight_le_bits⟩

def serializeVarInt32 (type : BasicType) (wide : 32 ≤ type.bits) : VarInt :=
  ⟨type, 32, by decide, wide⟩

def serializeVarInt64 (type : BasicType) (wide : 64 ≤ type.bits) : VarInt :=
  ⟨type, 64, by decide, wide⟩

/-- The helpers at the types of their arguments, with the `minValue` and `maxValue` that each passes
on. The arity of a block is an `Uptr`, the mutability of a global a `U8`; depths and indices are
`U32`, sizes and flags `U64`. Nothing calls `serializeVarUInt64`. -/
def instances : List (VarInt × Int × Int) := [
  (serializeVarUInt1 .u8, 0, 1),
  (serializeVarUInt1 .u64, 0, 1),
  (serializeVarUInt7 .u8, 0, 127),
  (serializeVarUInt32 .u32 (by decide), 0, 4294967295),
  (serializeVarUInt32 .u64 (by decide), 0, 4294967295),
  (serializeVarUInt64 .u64 (by decide), 0, 18446744073709551615),
  (serializeVarInt7 .i8, -64, 63),
  (serializeVarInt32 .i32 (by decide), -2147483648, 2147483647),
  (serializeVarInt64 .i64 (by decide), -9223372036854775808, 9223372036854775807)]

/-- `minValue` and `maxValue` are always the least and the greatest number of `maxBits` bits. -/
theorem bounds_of_instances : ∀ call ∈ instances,
    minimum call.1.type.isSigned call.1.maxBits = call.2.1 ∧
      maximum call.1.type.isSigned call.1.maxBits = call.2.2 := by
  decide

variable (p : VarInt)

/-- The instance's `Value`. -/
abbrev Value : Type := BitVec p.type.bits

def minValue : p.Value := BitVec.ofInt _ (minimum p.type.isSigned p.maxBits)

def maxValue : p.Value := BitVec.ofInt _ (maximum p.type.isSigned p.maxBits)

/-- `value < minValue || value > maxValue` -/
def isOutOfRange (value : p.Value) : Bool :=
  p.type.toInt value < p.type.toInt p.minValue || p.type.toInt value > p.type.toInt p.maxValue

def outOfRangeMessage (value : p.Value) : String :=
  outOfRange (p.type.toInt value) (p.type.toInt p.minValue) (p.type.toInt p.maxValue)

/-- At most `rounds` rounds of `while(more)`, and the bytes they write. -/
def writeLoop (type : BasicType) : Nat → BitVec type.bits → Option Bytes
  | 0, _ => none
  | rounds + 1, value =>
    let outputByte := type.lowBits value
    let value := type.shr value 7
    let more :=
      if type.isSigned then
        (value != 0 && value != BitVec.ofInt _ (-1)) ||
          (0 ≤ type.toInt value && outputByte &&& 0x40 != 0) ||
          (type.toInt value < 0 && outputByte &&& 0x40 == 0)
      else value != 0
    if more then (writeLoop type rounds value).map ((outputByte ||| 0x80) :: ·)
    else some [outputByte]

/-- `serializeVarInt` on an `OutputStream`; each round shortens the value. -/
def output (value : p.Value) : Except Exception (Option Bytes) :=
  if p.isOutOfRange value then .error (.fatalSerialization (p.outOfRangeMessage value))
  else .ok (writeLoop p.type p.type.bits value)

/-- `bytes`, `numBytes` and `signExtendShift`. -/
structure Buffer where
  bytes : Bytes
  numBytes : Nat
  signExtendShift : Int8

/-- At most `rounds` rounds of `while(numBytes < maxBytes)`. -/
def fill (maxBytes : Nat) : Nat → Buffer → InputReader Buffer
  | 0, buffer => pure buffer
  | rounds + 1, buffer =>
    if buffer.numBytes < maxBytes then do
      let byte := (← advance 1).headD 0
      let buffer : Buffer := ⟨buffer.bytes.set buffer.numBytes byte, buffer.numBytes + 1,
        buffer.signExtendShift - 7⟩
      if byte &&& 0x80 = 0 then return buffer else fill maxBytes rounds buffer
    else pure buffer

section LastByte

variable (numUsedBitsInLastByte : Nat)

def numUnusedBitsInLast : Nat := 8 - numUsedBitsInLastByte

def lastBitUsedMask : UInt8 := 1 <<< (numUsedBitsInLastByte - 1).toUInt8

def lastByteUsedMask : UInt8 := 1 <<< numUsedBitsInLastByte.toUInt8 - 1

def lastByteSignedMask : UInt8 := ~~~lastByteUsedMask numUsedBitsInLastByte &&& ~~~0x80

/-- The checks that the input does not encode more than `maxBits` of data. -/
def isInvalid (isSigned : Bool) (lastByte : UInt8) : Bool :=
  let usedMask := lastByteUsedMask numUsedBitsInLastByte
  if !isSigned then lastByte &&& ~~~usedMask != 0
  else
    let unused := numUnusedBitsInLast numUsedBitsInLastByte
    let signBit := ((lastByte &&& lastBitUsedMask numUsedBitsInLastByte) <<< unused.toUInt8).toInt8
    let signExtendedLastBit := signBit >>> unused.toInt8
    lastByte &&& ~~~usedMask !=
      signExtendedLastBit.toUInt8 &&& lastByteSignedMask numUsedBitsInLastByte

end LastByte

def invalidMessage (isSigned : Bool) : String :=
  if !isSigned then "Invalid unsigned LEB encoding: unused bits in final byte must be 0"
  else
    "Invalid signed LEB encoding: unused bits in final byte must match the " ++
      "most-significant used bit"

/-- `value |= Value(bytes[byteIndex] & ~0x80) << (byteIndex * 7)`, from `byteIndex` on. -/
def orBytes (type : BasicType) : Nat → Bytes → BitVec type.bits → BitVec type.bits
  | _, [], value => value
  | byteIndex, byte :: bytes, value =>
    let payload : BitVec type.bits := (byte &&& ~~~0x80).toBitVec.setWidth _
    orBytes type (byteIndex + 1) bytes (value ||| type.shl payload (byteIndex * 7))

/-- Sign extension to the full size of `Value`. -/
def extend (type : BasicType) (signExtendShift : Int8) (value : BitVec type.bits) :
    BitVec type.bits :=
  if type.isSigned && signExtendShift > 0 then
    let numBits := signExtendShift.toInt.toNat
    type.shr (type.shl value numBits) numBits
  else value

/-- `serializeVarInt` on an `InputStream`. -/
def input : InputReader p.Value := do
  let maxBytes := varIntMaxBytes p.maxBits
  let signExtendShift := (p.type.bits / 8).toInt8 * 8
  let buffer ← fill maxBytes maxBytes ⟨.replicate maxBytes 0, 0, signExtendShift⟩
  let lastByte := buffer.bytes.getD (maxBytes - 1) 0
  throwIf (isInvalid (varIntLastBits p.maxBits) p.type.isSigned lastByte)
    (invalidMessage p.type.isSigned)
  let value := extend p.type buffer.signExtendShift (orBytes p.type 0 buffer.bytes 0)
  throwIf (p.isOutOfRange value) (p.outOfRangeMessage value)
  return value

/-! ## Writing -/

section Output

variable {type : BasicType}

/-- The continuation bit is set in a byte that has it clear. -/
theorem or_continuation {n : Nat} (h : n < 128) {byte : UInt8} (hbyte : byte.toNat = n) :
    byte ||| 0x80 = (n + 128).toUInt8 := by
  have hor := Nat.two_pow_add_eq_or_of_lt (i := 7) h 1
  rw [Nat.mul_one] at hor
  rw [← UInt8.toNat_inj, UInt8.toNat_or, hbyte, Nat.or_comm, Nat.toUInt8_eq, UInt8.toNat_ofNat',
    Nat.mod_eq_of_lt (by omega), Nat.add_comm]
  exact hor.symm

/-- Bit six of a digit is its sign. -/
theorem and_signBit {n : Nat} (h : n < 128) {byte : UInt8} (hbyte : byte.toNat = n) :
    byte &&& 0x40 = 0 ↔ n < 64 := by
  have hbit : byte.toNat.testBit 6 = false ↔ n < 64 := by
    rw [testBit_eq_false_iff, hbyte]
    exact iff_of_eq (congrArg (· < 64) (Nat.mod_eq_of_lt h))
  rw [← UInt8.toNat_inj, toNat_and_bit8 (k := 6) rfl, ← hbit]
  cases byte.toNat.testBit 6 <;> simp

theorem eq_toUInt8 {byte : UInt8} {n : Nat} (h : byte.toNat = n) : byte = n.toUInt8 := by
  rw [← h, Nat.toUInt8_eq, UInt8.ofNat_toNat]

/-- A round of an unsigned value, in numbers. -/
theorem writeLoop_unsigned (h : type.isSigned = false) (rounds : Nat) (value : BitVec type.bits) :
    writeLoop type (rounds + 1) value =
      if value.toNat / 128 = 0 then some [(value.toNat % 128).toUInt8]
      else (writeLoop type rounds (type.shr value 7)).map
        ((value.toNat % 128 + 128).toUInt8 :: ·) := by
  have hbyte := BasicType.toNat_lowBits value
  have hlt : value.toNat % 128 < 128 := Nat.mod_lt _ (by decide)
  have hmore : type.shr value 7 = 0 ↔ value.toNat / 128 = 0 := by
    rw [← BasicType.toNat_shr_seven h, ← BitVec.toNat_inj]
    rfl
  rw [writeLoop, h, ← or_continuation hlt hbyte, ← eq_toUInt8 hbyte]
  by_cases hzero : value.toNat / 128 = 0
  · rw [if_pos hzero, hmore.2 hzero]
    rfl
  · have hne : (type.shr value 7 != 0) = true := bne_iff_ne.2 fun h0 => hzero (hmore.1 h0)
    rw [if_neg hzero, if_neg Bool.false_ne_true, if_pos hne]

/-- A round of a signed value: the two masks of the source ask whether seven bits hold it. -/
theorem writeLoop_signed (h : type.isSigned = true) (rounds : Nat) (value : BitVec type.bits) :
    writeLoop type (rounds + 1) value =
      if -64 ≤ value.toInt ∧ value.toInt < 64 then some [(value.toInt % 128).toNat.toUInt8]
      else (writeLoop type rounds (type.shr value 7)).map
        (((value.toInt % 128).toNat + 128).toUInt8 :: ·) := by
  have hbyte := (BasicType.toNat_lowBits value).trans (BasicType.toNat_emod_toInt value).symm
  have hlt := toNat_emod_lt value.toInt
  have hsign := and_signBit hlt hbyte
  have hshift := BasicType.toInt_shr_seven h value
  have hzero : type.shr value 7 = 0 ↔ value.toInt / 128 = 0 := by
    rw [← hshift, ← BitVec.toInt_inj]
    exact iff_of_eq (congrArg _ BitVec.toInt_zero)
  have hneg : type.shr value 7 = BitVec.ofInt _ (-1) ↔ value.toInt / 128 = -1 := by
    have hone : (BitVec.ofInt type.bits (-1)).toInt = -1 := by
      cases type <;> rfl
    rw [← hshift, ← BitVec.toInt_inj, hone]
  rw [writeLoop, h, ← or_continuation hlt hbyte, ← eq_toUInt8 hbyte]
  simp only [if_true, BasicType.toInt_of_signed h, hshift, bne_iff_ne, ne_eq, Bool.or_eq_true,
    Bool.and_eq_true, decide_eq_true_eq, beq_iff_eq, hzero, hneg, hsign]
  by_cases hone : -64 ≤ value.toInt ∧ value.toInt < 64
  · rw [if_pos hone, if_neg (by omega)]
  · rw [if_neg hone, if_pos (by omega)]

/-- Rounds that are enough for an unsigned value write its bytes. -/
theorem writeLoop_eq_varUIntBytes (h : type.isSigned = false) {more rounds : Nat}
    {value : BitVec type.bits} (hlt : more < rounds) (hvalue : value.toNat < 128 ^ (more + 1)) :
    writeLoop type rounds value = some (Output.varUIntBytes (more + 1) value.toNat) := by
  induction more generalizing rounds value with
  | zero =>
    obtain ⟨rounds, rfl⟩ := Nat.exists_eq_succ_of_ne_zero (Nat.ne_of_gt hlt)
    have hlast : value.toNat / 128 = 0 := by omega
    rw [writeLoop_unsigned h, Output.varUIntBytes, if_pos hlast, if_pos hlast]
  | succ more ih =>
    obtain ⟨rounds, rfl⟩ := Nat.exists_eq_succ_of_ne_zero (Nat.ne_zero_of_lt hlt)
    rw [writeLoop_unsigned h, Output.varUIntBytes]
    by_cases hlast : value.toNat / 128 = 0
    · rw [if_pos hlast, if_pos hlast]
    · have hshift := BasicType.toNat_shr_seven h value
      rw [Nat.pow_succ'] at hvalue
      rw [if_neg hlast, if_neg hlast, ih (Nat.lt_of_succ_lt_succ hlt) (by omega), hshift]
      rfl

/-- The same for a signed value. -/
theorem writeLoop_eq_varSIntBytes (h : type.isSigned = true) {more rounds : Nat}
    {value : BitVec type.bits} (hlt : more < rounds) (hfits : FitsSigned more value.toInt) :
    writeLoop type rounds value = some (Output.varSIntBytes (more + 1) value.toInt) := by
  induction more generalizing rounds value with
  | zero =>
    obtain ⟨rounds, rfl⟩ := Nat.exists_eq_succ_of_ne_zero (Nat.ne_of_gt hlt)
    rw [writeLoop_signed h, if_pos (fitsSigned_zero.1 hfits), varSIntBytes_singleton hfits]
  | succ more ih =>
    obtain ⟨rounds, rfl⟩ := Nat.exists_eq_succ_of_ne_zero (Nat.ne_zero_of_lt hlt)
    rw [writeLoop_signed h]
    by_cases hone : FitsSigned 0 value.toInt
    · rw [if_pos (fitsSigned_zero.1 hone), varSIntBytes_singleton hone]
    · have hshift := BasicType.toInt_shr_seven h value
      have hfits' : FitsSigned more (type.shr value 7).toInt := hshift ▸ fitsSigned_succ.1 hfits
      rw [if_neg (mt fitsSigned_zero.2 hone), varSIntBytes_cons hone,
        ih (Nat.lt_of_succ_lt_succ hlt) hfits', hshift]
      rfl

theorem two_pow_le {bits bits' : Nat} (h : bits ≤ bits') : (2 : Int) ^ bits ≤ 2 ^ bits' := by
  have hpow := Int.ofNat_le.2 (Nat.pow_le_pow_right (by decide : 0 < 2) h)
  rwa [Int.natCast_pow, Int.natCast_pow] at hpow

/-- A number within the bounds of the instance is held by its type. -/
theorem toInt_ofInt {n : Int} (hlow : minimum p.type.isSigned p.maxBits ≤ n)
    (hhigh : n ≤ maximum p.type.isSigned p.maxBits) : p.type.toInt (BitVec.ofInt _ n) = n := by
  unfold minimum at hlow
  unfold maximum at hhigh
  cases h : p.type.isSigned with
  | true =>
    rw [h, if_pos rfl] at hlow hhigh
    have hpow := two_pow_le (Nat.sub_le_sub_right p.maxBits_le 1)
    rw [BasicType.toInt_of_signed h]
    exact BitVec.toInt_ofInt_eq_self BasicType.bits_pos (by omega) (by omega)
  | false =>
    rw [h, if_neg Bool.false_ne_true] at hlow hhigh
    have hpow := two_pow_le p.maxBits_le
    have hmod : n % (2 ^ p.type.bits : Nat) = n := by
      refine Int.emod_eq_of_lt hlow ?_
      rw [Int.natCast_pow]
      exact Int.lt_of_lt_of_le (Int.lt_of_le_sub_one hhigh) hpow
    rw [BasicType.toInt_of_unsigned h, BitVec.toNat_ofInt, hmod, Int.toNat_of_nonneg hlow]

/-- The bounds are in order. -/
theorem minimum_le_maximum (isSigned : Bool) (maxBits : Nat) :
    minimum isSigned maxBits ≤ maximum isSigned maxBits := by
  have hpos : ∀ n, (0 : Int) < 2 ^ n := fun n => Int.pow_pos (by decide)
  have hlow := hpos (maxBits - 1)
  have hhigh := hpos maxBits
  unfold minimum maximum
  cases isSigned <;> simp only [if_true, Bool.false_eq_true, if_false] <;> omega

/-- The smallest value, as a number. -/
theorem toInt_minValue : p.type.toInt p.minValue = minimum p.type.isSigned p.maxBits :=
  p.toInt_ofInt (Int.le_refl _) (minimum_le_maximum _ _)

/-- The largest value, as a number. -/
theorem toInt_maxValue : p.type.toInt p.maxValue = maximum p.type.isSigned p.maxBits :=
  p.toInt_ofInt (minimum_le_maximum _ _) (Int.le_refl _)

/-- The bounds of an instance are those its helper passes on. -/
theorem toInt_bounds {p : VarInt} {minValue maxValue : Int} (h : (p, minValue, maxValue) ∈ instances) :
    p.type.toInt p.minValue = minValue ∧ p.type.toInt p.maxValue = maxValue := by
  rw [toInt_minValue, toInt_maxValue]
  exact bounds_of_instances _ h

/-- A value within the bounds of the instance. -/
def InRange (value : p.Value) : Prop :=
  p.type.toInt p.minValue ≤ p.type.toInt value ∧ p.type.toInt value ≤ p.type.toInt p.maxValue

/-- The check of the template, as a range. -/
theorem isOutOfRange_eq_false {value : p.Value} :
    p.isOutOfRange value = false ↔ p.InRange value := by
  unfold isOutOfRange InRange
  rw [Bool.or_eq_false_iff, decide_eq_false_iff_not, decide_eq_false_iff_not]
  omega

/-- A round for each bit is enough. -/
theorem lt_bits {more : Nat} (h : varIntMaxBytes p.maxBits = more + 1) : more < p.type.bits := by
  have hpos := @BasicType.bits_pos p.type
  have hle := p.maxBits_le
  unfold varIntMaxBytes at h
  omega

section Unsigned

variable {p} (h : p.type.isSigned = false)

include h

theorem isOutOfRange_unsigned (value : p.Value) :
    p.isOutOfRange value = decide (2 ^ p.maxBits ≤ value.toNat) := by
  have hcast : (2 : Int) ^ p.maxBits = (2 ^ p.maxBits : Nat) := by simp
  unfold isOutOfRange
  rw [toInt_minValue, toInt_maxValue, h, BasicType.toInt_of_unsigned h, Bool.eq_iff_iff]
  simp only [minimum, maximum, Bool.false_eq_true, if_false, Bool.or_eq_true, decide_eq_true_eq,
    hcast]
  omega

theorem outOfRangeMessage_unsigned (value : p.Value) :
    p.outOfRangeMessage value = outOfRange value.toNat 0 (2 ^ p.maxBits - 1) := by
  rw [outOfRangeMessage, toInt_minValue, toInt_maxValue, h, BasicType.toInt_of_unsigned h]
  rfl

/-- **Writing, unsigned.** The template writes what the writer of the model does. -/
theorem output_unsigned (value : p.Value) :
    p.output value = (Output.serializeVarUInt p.maxBits value.toNat).map some := by
  unfold output Output.serializeVarUInt
  rw [isOutOfRange_unsigned h, outOfRangeMessage_unsigned h]
  by_cases hrange : 2 ^ p.maxBits ≤ value.toNat
  · rw [if_pos (decide_eq_true hrange), if_pos hrange]
    rfl
  · obtain ⟨more, hmore⟩ := exists_varIntMaxBytes p.maxBits_pos
    have hlt : value.toNat < 128 ^ (more + 1) := by
      rw [← hmore]
      exact Nat.lt_of_lt_of_le (Nat.not_le.1 hrange) (two_pow_le_varIntMaxBytes _)
    rw [if_neg (by simpa using hrange), if_neg hrange, hmore,
      writeLoop_eq_varUIntBytes h (p.lt_bits hmore) hlt]
    rfl

end Unsigned

section Signed

variable {p} (h : p.type.isSigned = true)

include h

theorem isOutOfRange_signed (value : p.Value) :
    p.isOutOfRange value =
      decide (value.toInt < -2 ^ (p.maxBits - 1) ∨ 2 ^ (p.maxBits - 1) - 1 < value.toInt) := by
  unfold isOutOfRange
  rw [toInt_minValue, toInt_maxValue, h, BasicType.toInt_of_signed h, Bool.decide_or]
  rfl

theorem outOfRangeMessage_signed (value : p.Value) :
    p.outOfRangeMessage value =
      outOfRange value.toInt (-2 ^ (p.maxBits - 1)) (2 ^ (p.maxBits - 1) - 1) := by
  rw [outOfRangeMessage, toInt_minValue, toInt_maxValue, h, BasicType.toInt_of_signed h]
  rfl

/-- **Writing, signed.** The template writes what the writer of the model does. -/
theorem output_signed (value : p.Value) :
    p.output value = (Output.serializeVarInt p.maxBits value.toInt).map some := by
  unfold output Output.serializeVarInt
  rw [isOutOfRange_signed h, outOfRangeMessage_signed h]
  by_cases hrange : value.toInt < -2 ^ (p.maxBits - 1) ∨ 2 ^ (p.maxBits - 1) - 1 < value.toInt
  · rw [if_pos (decide_eq_true hrange), if_pos hrange]
    rfl
  · obtain ⟨more, hmore⟩ := exists_varIntMaxBytes p.maxBits_pos
    have hcast : (2 : Int) ^ (p.maxBits - 1) = (2 ^ (p.maxBits - 1) : Nat) := by simp
    have hfits : FitsSigned more value.toInt :=
      fitsSigned_of_range hmore (by omega) (by omega)
    rw [if_neg (by simpa using hrange), if_neg hrange, hmore,
      writeLoop_eq_varSIntBytes h (p.lt_bits hmore) hfits]
    rfl

end Signed

end Output

/-! ## Reading -/

section Input

variable {type : BasicType}

/-- The continuation bit is the highest one. -/
theorem and_continuation (byte : UInt8) : byte &&& 0x80 = 0 ↔ byte < 0x80 := by
  have hbit : byte.toNat.testBit 7 = false ↔ byte < 0x80 := by
    rw [testBit_eq_false_iff, UInt8.lt_iff_toNat_lt]
    exact iff_of_eq (congrArg (· < 128) (Nat.mod_eq_of_lt byte.toNat_lt))
  rw [← UInt8.toNat_inj, toNat_and_bit8 (k := 7) rfl, ← hbit]
  cases byte.toNat.testBit 7 <;> simp

/-- The loop fills the buffer from the left and counts the shift down by seven a byte; the rest of
the buffer stays zero. -/
theorem fill_eq {maxBytes rounds : Nat} {read : Bytes} (h : read.length + rounds = maxBytes)
    (shift : Int) :
    fill maxBytes rounds ⟨read ++ .replicate rounds 0, read.length, .ofInt shift⟩ =
      varIntBytes rounds >>= fun bytes =>
        pure ⟨read ++ (bytes ++ .replicate (rounds - bytes.length) 0), read.length + bytes.length,
          .ofInt (shift - 7 * bytes.length)⟩ := by
  induction rounds generalizing read shift with
  | zero => simp [fill, varIntBytes]
  | succ rounds ih =>
    have hlt : read.length < maxBytes := by omega
    rw [fill, if_pos hlt, varIntBytes]
    simp only [bind_assoc]
    congr
    funext taken
    have hset : (read ++ .replicate (rounds + 1) 0).set read.length (taken.headD 0) =
        (read ++ [taken.headD 0]) ++ .replicate rounds 0 := by
      rw [List.set_append_right _ _ (Nat.le_refl _), Nat.sub_self, List.append_assoc]
      rfl
    have hshift : Int8.ofInt shift - 7 = .ofInt (shift - 7) := by
      rw [Int8.ofInt_sub]
      rfl
    simp only [hset, hshift, and_continuation]
    generalize taken.headD 0 = byte
    by_cases hclear : byte < 0x80
    · rw [if_pos hclear, if_pos hclear, pure_bind, List.append_assoc]
      rfl
    · have hlen : read.length + 1 = (read ++ [byte]).length := by
        rw [List.length_append, List.length_singleton]
      rw [if_neg hclear, if_neg hclear, hlen, ih (by omega)]
      simp only [bind_assoc, pure_bind]
      congr
      funext bytes
      congr 2
      · rw [List.append_assoc, List.length_cons, Nat.succ_sub_succ]
        rfl
      · rw [← hlen, List.length_cons]
        omega
      · rw [List.length_cons]
        congr 1
        omega

theorem getD_append_replicate (bytes : Bytes) (n i : Nat) :
    (bytes ++ .replicate n 0).getD i 0 = bytes.getD i 0 := by
  rw [List.getD_eq_getElem?_getD, List.getD_eq_getElem?_getD, List.getElem?_append]
  split
  · rfl
  · next hle =>
    rw [List.getElem?_eq_none (Nat.not_lt.1 hle), List.getElem?_replicate]
    split <;> rfl

/-- The zeros behind the bytes read add nothing. -/
theorem varIntPayload_append_replicate (bytes : Bytes) (n : Nat) :
    varIntPayload (bytes ++ .replicate n 0) = varIntPayload bytes := by
  induction bytes with
  | nil =>
    induction n with
    | zero => rfl
    | succ n ih => exact congrArg (0 + 128 * ·) ih
  | cons byte bytes ih => rw [List.cons_append, varIntPayload, ih, varIntPayload]

/-- What is read, and the sign extension that is left to do. -/
theorem input_eq (p : VarInt) :
    p.input = (do
      let read ← varIntBytes (varIntMaxBytes p.maxBits)
      let bytes := read ++ .replicate (varIntMaxBytes p.maxBits - read.length) 0
      throwIf (isInvalid (varIntLastBits p.maxBits) p.type.isSigned
        (read.getD (varIntMaxBytes p.maxBits - 1) 0)) (invalidMessage p.type.isSigned)
      let value := extend p.type (.ofInt (p.type.bits - 7 * read.length))
        (orBytes p.type 0 bytes 0)
      throwIf (p.isOutOfRange value) (p.outOfRangeMessage value)
      return value) := by
  have hshift : (p.type.bits / 8).toInt8 * 8 = .ofInt p.type.bits := by
    cases p.type <;> rfl
  have hlength : ([] : Bytes).length + varIntMaxBytes p.maxBits = varIntMaxBytes p.maxBits :=
    Nat.zero_add _
  have hfill := fill_eq hlength p.type.bits
  simp only [List.nil_append, List.length_nil] at hfill
  unfold input
  simp only [hshift, hfill, bind_assoc, pure_bind]
  congr
  funext read
  rw [getD_append_replicate]


/-- The bytes are put together modulo the width of the value. -/
theorem toNat_orBytes {byteIndex payload : Nat} {bytes : Bytes} {value : BitVec type.bits}
    (hvalue : value.toNat = payload % 2 ^ type.bits) (hlt : payload < 2 ^ (byteIndex * 7)) :
    (orBytes type byteIndex bytes value).toNat =
      (payload + 2 ^ (byteIndex * 7) * varIntPayload bytes) % 2 ^ type.bits := by
  induction bytes generalizing byteIndex payload value with
  | nil => rw [orBytes, hvalue, varIntPayload, Nat.mul_zero, Nat.add_zero]
  | cons byte bytes ih =>
    have hbyte : (byte &&& ~~~0x80).toNat = byte.toNat % 128 := toNat_and_mask8 (k := 7) rfl
    have hmod : byte.toNat % 128 < 128 := Nat.mod_lt _ (by decide)
    have hwidth : byte.toNat % 128 < 2 ^ type.bits :=
      Nat.lt_of_lt_of_le (Nat.lt_trans hmod (by decide))
        (Nat.le_of_dvd (Nat.two_pow_pos _) BasicType.dvd_two_pow_bits)
    have hpow : 2 ^ ((byteIndex + 1) * 7) = 2 ^ (byteIndex * 7) * 128 := by
      rw [Nat.succ_mul, Nat.pow_add]
    have hnext : payload + 2 ^ (byteIndex * 7) * (byte.toNat % 128) <
        2 ^ ((byteIndex + 1) * 7) := by
      have hmul := Nat.mul_le_mul_left (2 ^ (byteIndex * 7)) (Nat.le_of_lt_succ hmod)
      omega
    rw [orBytes, ih ?_ hnext, varIntPayload, hpow]
    · rw [Nat.mul_add, Nat.mul_assoc, Nat.add_assoc]
    · rw [BitVec.toNat_or, hvalue, BasicType.shl_eq, BitVec.toNat_shiftLeft, BitVec.toNat_setWidth]
      change _ ||| ((byte &&& ~~~0x80).toNat % _) <<< _ % _ = _
      rw [hbyte, Nat.mod_eq_of_lt hwidth, ← Nat.or_mod_two_pow, Nat.shiftLeft_eq, Nat.mul_comm,
        Nat.or_comm, ← Nat.two_pow_add_eq_or_of_lt hlt, Nat.add_comm]

/-- Sign extension as a balanced residue. -/
theorem signExtend_eq_bmod {bits : Nat} (hpos : 0 < bits) (value : Nat) :
    signExtend bits value = (value : Int).bmod (2 ^ bits) := by
  obtain ⟨half, rfl⟩ := Nat.exists_eq_succ_of_ne_zero (Nat.ne_of_gt hpos)
  have hpow : 2 ^ (half + 1) = 2 * 2 ^ half := Nat.pow_succ'
  have hcast : (2 : Int) ^ (half + 1) = (2 ^ (half + 1) : Nat) := by simp
  rw [Int.bmod_eq_emod, signExtend, Nat.succ_eq_add_one, Nat.add_sub_cancel, hcast]
  split <;> split <;> omega

/-- The value before it is sign-extended. -/
theorem toNat_orBytes_replicate (read : Bytes) (n : Nat) :
    (orBytes type 0 (read ++ .replicate n 0) 0).toNat = varIntPayload read % 2 ^ type.bits := by
  have hzero : (0 : BitVec type.bits).toNat = 0 % 2 ^ type.bits := (Nat.zero_mod _).symm
  rw [toNat_orBytes hzero (Nat.two_pow_pos _), Nat.zero_add, Nat.zero_mul, Nat.pow_zero,
    Nat.one_mul, varIntPayload_append_replicate]

/-- An unsigned value is not extended. -/
theorem extend_unsigned (h : type.isSigned = false) (shift : Int8) (value : BitVec type.bits) :
    extend type shift value = value := by
  rw [extend, h]
  rfl

/-- The payload, sign-extended from as many bits as were read. -/
theorem toInt_extend (h : type.isSigned = true) {numBytes payload : Nat} (hpos : 0 < numBytes)
    (hle : numBytes ≤ 10) {value : BitVec type.bits}
    (hvalue : value.toNat = payload % 2 ^ type.bits) :
    (extend type (.ofInt (type.bits - 7 * numBytes)) value).toInt =
      signExtend (min type.bits (7 * numBytes)) payload := by
  have hbits := @BasicType.bits_le type
  have hpos' := @BasicType.bits_pos type
  have hshift : (Int8.ofInt (type.bits - 7 * numBytes)).toInt = type.bits - 7 * numBytes :=
    Int8.toInt_ofInt_of_le (by omega) (by omega)
  have hgt : Int8.ofInt (type.bits - 7 * numBytes) > 0 ↔ 7 * numBytes < type.bits := by
    rw [gt_iff_lt, Int8.lt_iff_toInt_lt, hshift, Int8.toInt_zero]
    omega
  rw [extend, h, Bool.true_and]
  by_cases hlt : 7 * numBytes < type.bits
  · have hnum : (Int8.ofInt (type.bits - 7 * numBytes)).toInt.toNat = type.bits - 7 * numBytes := by
      rw [hshift]
      omega
    have hdvd : 2 ^ (7 * numBytes) ∣ 2 ^ type.bits := Nat.pow_dvd_pow 2 (Nat.le_of_lt hlt)
    rw [if_pos (decide_eq_true (hgt.2 hlt))]
    dsimp only
    rw [BasicType.shl_eq, BasicType.shr_of_signed h, hnum,
      toInt_sshiftRight_shiftLeft (k := 7 * numBytes) (by omega) (by omega), hvalue,
      Nat.min_eq_right (Nat.le_of_lt hlt), signExtend_eq_bmod (by omega), ← Int.emod_bmod,
      ← Int.natCast_emod, Nat.mod_mod_of_dvd _ hdvd, Int.natCast_emod, Int.emod_bmod]
  · rw [if_neg (by simpa using mt hgt.1 hlt), BitVec.toInt_eq_toNat_bmod, hvalue,
      Nat.min_eq_left (Nat.not_lt.1 hlt), signExtend_eq_bmod hpos', Int.natCast_emod, Int.emod_bmod]

/-- A last byte holds from one to seven bits. -/
theorem exists_used (p : VarInt) : ∃ n : Fin 7, varIntLastBits p.maxBits = n + 1 := by
  obtain ⟨more, hmore⟩ := exists_varIntMaxBytes p.maxBits_pos
  have hpos := varIntLastBits_pos hmore
  have hle := (varIntLastBits_add hmore).2
  exact ⟨⟨varIntLastBits p.maxBits - 1, by omega⟩, (Nat.sub_add_cancel hpos).symm⟩

section LastByte

variable (n : Fin 7) (lastByte : UInt8)

/-- The unused bits of the last byte. -/
theorem toNat_and_not_usedMask :
    (lastByte &&& ~~~lastByteUsedMask (n + 1)).toNat =
      lastByte.toNat / 2 ^ (n.val + 1) * 2 ^ (n.val + 1) := by
  have hmask : ∀ n : Fin 7, (lastByteUsedMask (n + 1)).toNat = 2 ^ (n.val + 1) - 1 := by
    decide +kernel
  exact toNat_and_not_mask8 (by omega) (hmask n)

/-- Its sign bit. -/
theorem and_lastBitUsedMask :
    lastByte &&& lastBitUsedMask (n + 1) =
      if lastByte.toNat.testBit n then lastBitUsedMask (n + 1) else 0 := by
  have hmask : ∀ n : Fin 7, (lastBitUsedMask (n + 1)).toNat = 2 ^ n.val := by decide +kernel
  rw [← UInt8.toNat_inj, toNat_and_bit8 (hmask n)]
  split
  · exact (hmask n).symm
  · rfl

/-- The unused bits are compared with as many copies of the sign bit. -/
theorem isInvalid_used (isSigned : Bool) :
    isInvalid (n + 1) isSigned lastByte =
      (lastByte.toNat / 2 ^ (n.val + 1) * 2 ^ (n.val + 1) !=
        if isSigned && lastByte.toNat.testBit n then 128 - 2 ^ (n.val + 1) else 0) := by
  have hset : ∀ n : Fin 7, (((lastBitUsedMask (n + 1) <<<
      (numUnusedBitsInLast (n + 1)).toUInt8).toInt8 >>> (numUnusedBitsInLast (n + 1)).toInt8).toUInt8
        &&& lastByteSignedMask (n + 1)).toNat = 128 - 2 ^ (n.val + 1) := by
    decide +kernel
  have hclear : ∀ n : Fin 7, (((0 : UInt8) <<< (numUnusedBitsInLast (n + 1)).toUInt8).toInt8 >>>
      (numUnusedBitsInLast (n + 1)).toInt8).toUInt8 &&& lastByteSignedMask (n + 1) = 0 := by
    decide +kernel
  have hne : ∀ a b : UInt8, (a != b) = (a.toNat != b.toNat) := fun a b =>
    Bool.eq_iff_iff.2 (by rw [bne_iff_ne, bne_iff_ne, Ne, Ne, UInt8.toNat_inj])
  cases isSigned with
  | false =>
    change (lastByte &&& ~~~lastByteUsedMask (n + 1) != 0) = _
    rw [hne, toNat_and_not_usedMask]
    rfl
  | true =>
    change (lastByte &&& ~~~lastByteUsedMask (n + 1) !=
      (((lastByte &&& lastBitUsedMask (n + 1)) <<< (numUnusedBitsInLast (n + 1)).toUInt8).toInt8 >>>
        (numUnusedBitsInLast (n + 1)).toInt8).toUInt8 &&& lastByteSignedMask (n + 1)) = _
    rw [hne, toNat_and_not_usedMask, and_lastBitUsedMask, Bool.true_and]
    split
    · rw [hset]
    · rw [hclear]
      rfl

end LastByte

section LastByte

variable (p : VarInt) (lastByte : UInt8)

/-- The unused bits of an unsigned number must be zero, in numbers. -/
theorem isInvalid_unsigned :
    isInvalid (varIntLastBits p.maxBits) false lastByte =
      decide (2 ^ varIntLastBits p.maxBits ≤ lastByte.toNat) := by
  obtain ⟨n, hn⟩ := exists_used p
  have hpos : 0 < 2 ^ (n.val + 1) := Nat.two_pow_pos _
  rw [hn, isInvalid_used, Bool.false_and, Bool.eq_iff_iff, bne_iff_ne, decide_eq_true_eq,
    if_neg Bool.false_ne_true, Ne, Nat.mul_eq_zero, or_iff_left (Nat.ne_of_gt hpos),
    Nat.div_eq_zero_iff_lt hpos, Nat.not_lt]

/-- Those of a signed number must repeat its sign bit, in numbers. -/
theorem isInvalid_signed :
    isInvalid (varIntLastBits p.maxBits) true lastByte =
      (lastByte.toNat - lastByte.toNat % 2 ^ varIntLastBits p.maxBits !=
        if lastByte.toNat % 2 ^ varIntLastBits p.maxBits < 2 ^ (varIntLastBits p.maxBits - 1) then 0
        else 128 - 2 ^ varIntLastBits p.maxBits) := by
  obtain ⟨n, hn⟩ := exists_used p
  have hhigh : lastByte.toNat - lastByte.toNat % 2 ^ (n.val + 1) =
      lastByte.toNat / 2 ^ (n.val + 1) * 2 ^ (n.val + 1) := by
    have hdiv := Nat.div_add_mod' lastByte.toNat (2 ^ (n.val + 1))
    omega
  rw [hn, isInvalid_used, Bool.true_and, hhigh, Nat.add_sub_cancel]
  by_cases hbit : lastByte.toNat.testBit n = true
  · have hge := mt testBit_eq_false_iff.2 (by rw [hbit]; exact Bool.true_eq_false.mp)
    rw [if_pos hbit, if_neg hge]
  · rw [if_neg hbit, if_pos (testBit_eq_false_iff.1 (Bool.eq_false_iff.2 hbit))]

/-- The bits above the used ones are zero, or the sign. -/
theorem isInvalid_eq_false (isSigned : Bool) :
    isInvalid (varIntLastBits p.maxBits) isSigned lastByte = false ↔
      lastByte < 0x80 ∧ ∀ bit < 7, varIntLastBits p.maxBits ≤ bit →
        lastByte.toNat.testBit bit =
          (isSigned && lastByte.toNat.testBit (varIntLastBits p.maxBits - 1)) := by
  obtain ⟨n, hn⟩ := exists_used p
  have hclear : lastByte < 0x80 ↔ lastByte.toNat < 2 ^ 7 := UInt8.lt_iff_toNat_lt
  rw [hn, isInvalid_used, Nat.add_sub_cancel, bne_eq_false_iff_eq, hclear]
  generalize (isSigned && lastByte.toNat.testBit n) = sign
  have hcopies : ∀ bit, (if sign then 128 - 2 ^ (n.val + 1) else 0).testBit bit =
      (decide (n.val + 1 ≤ bit) && (decide (bit < 7) && sign)) := by
    intro bit
    have hmask := testBit_two_pow_sub_two_pow (w := 7) n.isLt bit
    cases sign with
    | false => simp
    | true => rwa [Bool.and_true]
  constructor
  · intro heq
    have hbits : ∀ bit, n.val + 1 ≤ bit →
        lastByte.toNat.testBit bit = (decide (bit < 7) && sign) := by
      intro bit hle
      have hbit := congrArg (Nat.testBit · bit) heq
      simpa only [testBit_div_mul_two_pow, hcopies, hle, decide_true, Bool.true_and] using hbit
    refine ⟨Nat.lt_pow_two_of_testBit _ fun bit hge => ?_, fun bit hlt hle => ?_⟩
    · rw [hbits bit (by omega), decide_eq_false (Nat.not_lt.2 hge), Bool.false_and]
    · rw [hbits bit hle, decide_eq_true hlt, Bool.true_and]
  · rintro ⟨hlast, hbits⟩
    apply Nat.eq_of_testBit_eq
    intro bit
    rw [testBit_div_mul_two_pow, hcopies]
    by_cases hle : n.val + 1 ≤ bit
    · rcases Nat.lt_or_ge bit 7 with hlt | hge
      · rw [hbits bit hlt hle, decide_eq_true hlt, Bool.true_and]
      · have hbit : lastByte.toNat.testBit bit = false :=
          Nat.testBit_lt_two_pow (Nat.lt_of_lt_of_le hlast (Nat.pow_le_pow_right Nat.two_pos hge))
        rw [hbit, decide_eq_false (Nat.not_lt.2 hge), Bool.false_and]
    · simp [hle]

end LastByte
end Input

/-! ## The readers of the format -/

/-- At least one byte is read, and at most as many as there are rounds. -/
theorem returns_varIntBytes (rounds : Nat) :
    Reader.Returns (fun read => read.length ≤ rounds ∧ (0 < rounds → 0 < read.length))
      (varIntBytes rounds) := by
  induction rounds with
  | zero => exact .pure ⟨Nat.le_refl 0, fun h => h⟩
  | succ rounds ih =>
    refine .bind fun taken => .ite (.pure ⟨by simp, fun _ => Nat.one_pos⟩) ?_
    refine .bind_of ih fun read hread => .pure ⟨?_, fun _ => Nat.succ_pos _⟩
    exact Nat.succ_le_succ hread.1

/-- A bound on the last byte bounds the number. -/
theorem varIntPayload_lt_of_last {rounds bound : Nat} {read : Bytes}
    (hlen : read.length ≤ rounds + 1) (hlast : (read.getD rounds 0).toNat < bound) :
    varIntPayload read < 128 ^ rounds * bound := by
  induction rounds generalizing read with
  | zero =>
    cases read with
    | nil => simpa [varIntPayload] using hlast
    | cons byte read =>
      obtain rfl : read = [] := by simpa using hlen
      simp only [List.getD_cons_zero] at hlast
      simp only [varIntPayload, Nat.pow_zero]
      omega
  | succ rounds ih =>
    cases read with
    | nil => exact Nat.mul_pos (Nat.pow_pos (by decide)) (Nat.lt_of_le_of_lt (Nat.zero_le _) hlast)
    | cons byte read =>
      have hrest := ih (Nat.le_of_succ_le_succ hlen) (by simpa using hlast)
      rw [Nat.pow_succ', Nat.mul_assoc]
      simp only [varIntPayload]
      omega

/-- A payload whose unused bits are zero is in range. -/
theorem varIntPayload_lt_two_pow (p : VarInt) {read : Bytes}
    (hlen : read.length ≤ varIntMaxBytes p.maxBits)
    (hlast : ¬ 2 ^ varIntLastBits p.maxBits ≤ varIntLastByte p.maxBits read) :
    varIntPayload read < 2 ^ p.maxBits := by
  obtain ⟨more, hmore⟩ := exists_varIntMaxBytes p.maxBits_pos
  unfold varIntLastByte at hlast
  rw [hmore] at hlen hlast
  rw [two_pow_eq_varIntLastBits hmore]
  exact varIntPayload_lt_of_last hlen (Nat.not_le.1 hlast)

theorem throwIf_false {message : String} {β : Type} (next : Unit → InputReader β) :
    throwIf false message >>= next = next () := rfl

/-- At an unsigned type the template is the reader of the rest of the development. -/
theorem input_unsigned {p : VarInt} (h : p.type.isSigned = false) :
    p.input = Serialization.serializeVarUInt p.maxBits >>= fun value =>
      pure (BitVec.ofNat p.type.bits value) := by
  rw [input_eq]
  unfold Serialization.serializeVarUInt
  simp only [bind_assoc, pure_bind, h]
  refine (returns_varIntBytes _).bind_congr fun read hread => ?_
  rw [isInvalid_unsigned]
  change throwIf (decide (_ ≤ varIntLastByte p.maxBits read)) _ >>= _ = throwIf _ _ >>= _
  by_cases hinvalid : 2 ^ varIntLastBits p.maxBits ≤ varIntLastByte p.maxBits read
  · rw [decide_eq_true hinvalid]
    rfl
  · have hlt := varIntPayload_lt_two_pow p hread.1 hinvalid
    have hwidth : varIntPayload read < 2 ^ p.type.bits :=
      Nat.lt_of_lt_of_le hlt (Nat.pow_le_pow_right (by decide) p.maxBits_le)
    have hvalue := @toNat_orBytes_replicate p.type read
      (varIntMaxBytes p.maxBits - read.length)
    rw [decide_eq_false hinvalid, throwIf_false, throwIf_false, extend_unsigned h,
      isOutOfRange_unsigned h, outOfRangeMessage_unsigned h, hvalue, Nat.mod_eq_of_lt hwidth]
    congr
    funext _
    congr 1
    apply BitVec.eq_of_toNat_eq
    rw [hvalue, BitVec.toNat_ofNat]

/-- **Reading, signed.** The template reads what the reader of the model does. -/
theorem input_signed {p : VarInt} (h : p.type.isSigned = true) :
    p.input = Serialization.serializeVarInt p.type.bits p.maxBits >>= fun value =>
      pure (BitVec.ofInt p.type.bits value) := by
  rw [input_eq]
  unfold Serialization.serializeVarInt
  simp only [bind_assoc, pure_bind, h]
  refine (returns_varIntBytes _).bind_congr fun read hread => ?_
  have hmax : varIntMaxBytes p.maxBits ≤ 10 := by
    have hbits := @BasicType.bits_le p.type
    have hle := p.maxBits_le
    unfold varIntMaxBytes
    omega
  have hpos : 0 < varIntMaxBytes p.maxBits := by
    obtain ⟨more, hmore⟩ := exists_varIntMaxBytes p.maxBits_pos
    rw [hmore]
    exact Nat.succ_pos more
  have hvalue := toInt_extend h (hread.2 hpos) (Nat.le_trans hread.1 hmax)
    (toNat_orBytes_replicate read (varIntMaxBytes p.maxBits - read.length))
  rw [isInvalid_signed, isOutOfRange_signed h, outOfRangeMessage_signed h, hvalue, Bool.decide_or]
  congr
  funext _
  congr
  funext _
  congr 1
  apply BitVec.eq_of_toInt_eq
  rw [← hvalue, BitVec.ofInt_toInt]

end VarInt

end FractalWasm.Serialization
