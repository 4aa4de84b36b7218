import Mathlib.Algebra.Group.Int.Defs
import Mathlib.Algebra.GroupWithZero.Nat

/-!
# WebAssembly types of the IR

The enumerations of `IR/Types.h` are one byte wide and the binary decoder stores whatever byte it
reads; the definition checks refuse the stray values only after the whole module is decoded. So
each enumeration here keeps a constructor for the bytes outside it.

Types are written as they were read: each enumeration gives its byte back (`ofByte_toByte`) and
different constructors have different bytes (`toByte_injective`). The sizes of tables and memories
are `U64` with a maximum of `UINT64_MAX` where the binary gives none.
-/

namespace FractalWasm.IR

/-- A C++ `std::string`: a sequence of bytes. -/
abbrev Bytes := List UInt8

/-- The bytes of an ASCII string literal of the source. -/
def str (s : String) : Bytes := s.toList.map fun c => c.toNat.toUInt8

inductive ValueType where
  | any
  | i32
  | i64
  | f32
  | f64
  | invalid (byte : UInt8) (isInvalid : 4 < byte)
  deriving DecidableEq, Repr

namespace ValueType

def toByte : ValueType → UInt8
  | any => 0
  | i32 => 1
  | i64 => 2
  | f32 => 3
  | f64 => 4
  | invalid byte _ => byte

/-- The C++ cast `(ValueType)byte`. -/
def ofByte (byte : UInt8) : ValueType :=
  if h : 4 < byte then invalid byte h
  else if byte = 1 then i32
  else if byte = 2 then i64
  else if byte = 3 then f32
  else if byte = 4 then f64
  else any

@[simp] theorem ofByte_toByte (t : ValueType) : ofByte t.toByte = t := by
  cases t with
  | invalid byte h => simp [toByte, ofByte, h]
  | _ => rfl

theorem toByte_injective {t u : ValueType} (h : t.toByte = u.toByte) : t = u := by
  rw [← ofByte_toByte t, h, ofByte_toByte]

end ValueType

/-- The type of an operator's result: a value type or `none`. -/
inductive ResultType where
  | none
  | i32
  | i64
  | f32
  | f64
  | invalid (byte : UInt8) (isInvalid : 4 < byte)
  deriving DecidableEq, Repr

namespace ResultType

def toByte : ResultType → UInt8
  | none => 0
  | i32 => 1
  | i64 => 2
  | f32 => 3
  | f64 => 4
  | invalid byte _ => byte

/-- The C++ cast `(ResultType)byte`. -/
def ofByte (byte : UInt8) : ResultType :=
  if h : 4 < byte then invalid byte h
  else if byte = 1 then i32
  else if byte = 2 then i64
  else if byte = 3 then f32
  else if byte = 4 then f64
  else none

@[simp] theorem ofByte_toByte (t : ResultType) : ofByte t.toByte = t := by
  cases t with
  | invalid byte h => simp [toByte, ofByte, h]
  | _ => rfl

theorem toByte_injective {t u : ResultType} (h : t.toByte = u.toByte) : t = u := by
  rw [← ofByte_toByte t, h, ofByte_toByte]

end ResultType

/-- The type of a function. `FunctionType::get` interns these, so the source's pointer comparison
is structural equality. -/
structure FunctionType where
  ret : ResultType
  parameters : List ValueType
  deriving DecidableEq, Repr

/-- `UINT64_MAX`, the maximum of an unbounded `SizeConstraints`. -/
def uint64Max : Nat := 2 ^ 64 - 1

/-- A range of expected sizes; `max = uint64Max` means unbounded. -/
structure SizeConstraints where
  min : Nat
  max : Nat
  deriving DecidableEq, Repr

inductive TableElementType where
  | anyfunc
  | invalid (byte : UInt8) (isInvalid : byte ≠ 0x70)
  deriving DecidableEq, Repr

namespace TableElementType

def toByte : TableElementType → UInt8
  | anyfunc => 0x70
  | invalid byte _ => byte

def ofByte (byte : UInt8) : TableElementType :=
  if h : byte = 0x70 then anyfunc else invalid byte h

@[simp] theorem ofByte_toByte (t : TableElementType) : ofByte t.toByte = t := by
  cases t with
  | anyfunc => rfl
  | invalid byte h => simp [toByte, ofByte, h]

end TableElementType

structure TableType where
  elementType : TableElementType
  isShared : Bool
  size : SizeConstraints
  deriving DecidableEq, Repr

structure MemoryType where
  isShared : Bool
  size : SizeConstraints
  deriving DecidableEq, Repr

structure GlobalType where
  valueType : ValueType
  isMutable : Bool
  deriving DecidableEq, Repr

inductive ObjectKind where
  | function
  | table
  | memory
  | global
  | module
  | invalid (byte : UInt8) (isInvalid : 4 < byte)
  deriving DecidableEq, Repr

namespace ObjectKind

def toByte : ObjectKind → UInt8
  | function => 0
  | table => 1
  | memory => 2
  | global => 3
  | module => 4
  | invalid byte _ => byte

def ofByte (byte : UInt8) : ObjectKind :=
  if h : 4 < byte then invalid byte h
  else if byte = 1 then table
  else if byte = 2 then memory
  else if byte = 3 then global
  else if byte = 4 then module
  else function

@[simp] theorem ofByte_toByte (k : ObjectKind) : ofByte k.toByte = k := by
  cases k with
  | invalid byte h => simp [toByte, ofByte, h]
  | _ => rfl

end ObjectKind

end FractalWasm.IR
