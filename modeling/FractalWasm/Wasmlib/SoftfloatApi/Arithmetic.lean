import FractalWasm.Wasmlib.SoftfloatApi.AddSub
import FractalWasm.Wasmlib.SoftfloatApi.Multiplication
import FractalWasm.Wasmlib.SoftfloatApi.Division
import FractalWasm.Wasmlib.SoftfloatApi.FromIntegers
import FractalWasm.Wasmlib.SoftfloatApi.ToIntegers
import FractalWasm.Wasmlib.SoftfloatApi.Widths
import FractalWasm.Wasmlib.SoftfloatApi.MagicRounding
import FractalWasm.Wasmlib.SoftfloatApi.Truncation

/-!
# Arithmetic

The intrinsics that hand their operands to the vendored functions, and those that use them.

**Sums, products and quotients**: the exact result is rounded once to nearest even, for all operands
of both widths.

**Conversions**: integers are rounded to nearest, promotion loses nothing, and the truncations of
the library, given to the intrinsics, are exact where these use them.

The rounding intrinsics that need an addition are closed here: what they assume of it is a fact
about the sums above.
-/

namespace FractalWasm

open Codec Ieee

namespace SoftfloatApi

def eosioF32Add (a b : UInt32) : UInt32 := Softfloat.f32Add a b

def eosioF32Sub (a b : UInt32) : UInt32 := Softfloat.f32Sub a b

def eosioF32Div (a b : UInt32) : UInt32 := Softfloat.f32Div a b

def eosioF32Mul (a b : UInt32) : UInt32 := Softfloat.f32Mul a b

def eosioF64Add (a b : UInt64) : UInt64 := Softfloat.f64Add a b

def eosioF64Sub (a b : UInt64) : UInt64 := Softfloat.f64Sub a b

def eosioF64Div (a b : UInt64) : UInt64 := Softfloat.f64Div a b

def eosioF64Mul (a b : UInt64) : UInt64 := Softfloat.f64Mul a b

def eosioF32Promote (a : UInt32) : UInt64 := Softfloat.f32ToF64 a

def eosioF64Demote (a : UInt64) : UInt32 := Softfloat.f64ToF32 a

def eosioI32ToF32 (a : Int32) : UInt32 := Softfloat.i32ToF32 a

def eosioI64ToF32 (a : Int64) : UInt32 := Softfloat.i64ToF32 a

def eosioUi32ToF32 (a : UInt32) : UInt32 := Softfloat.ui32ToF32 a

def eosioUi64ToF32 (a : UInt64) : UInt32 := Softfloat.ui64ToF32 a

def eosioI32ToF64 (a : Int32) : UInt64 := Softfloat.i32ToF64 a

def eosioI64ToF64 (a : Int64) : UInt64 := Softfloat.i64ToF64 a

def eosioUi32ToF64 (a : UInt32) : UInt64 := Softfloat.ui32ToF64 a

def eosioUi64ToF64 (a : UInt64) : UInt64 := Softfloat.ui64ToF64 a

/-- **Sums are rounded once.** Of every two operands addition and subtraction return the sum or the
difference rounded to nearest, ties to even, with the sign of a zero and the infinities as in
IEEE 754; of an operand that is a NaN, that NaN made quiet. -/
theorem sums_rounded (a b : UInt32) (x y : UInt64) :
    binary32.SumOf a.toNat b.toNat (binary32.sign b.toNat) (eosioF32Add a b).toNat ∧
      binary32.SumOf a.toNat b.toNat (!binary32.sign b.toNat) (eosioF32Sub a b).toNat ∧
      binary64.SumOf x.toNat y.toNat (binary64.sign y.toNat) (eosioF64Add x y).toNat ∧
      binary64.SumOf x.toNat y.toNat (!binary64.sign y.toNat) (eosioF64Sub x y).toNat :=
  ⟨Softfloat.f32Add_sumOf a b, Softfloat.f32Sub_sumOf a b, Softfloat.f64Add_sumOf x y,
    Softfloat.f64Sub_sumOf x y⟩

/-- **Products are rounded once**, also where the product of the significands is put together from
products of their halves. -/
theorem products_rounded (a b : UInt32) (x y : UInt64) :
    binary32.ProductOf a.toNat b.toNat (eosioF32Mul a b).toNat ∧
      binary64.ProductOf x.toNat y.toNat (eosioF64Mul x y).toNat :=
  ⟨Softfloat.f32Mul_productOf a b, Softfloat.f64Mul_productOf x y⟩

/-- **Quotients are rounded once**, also where their digits are estimates by a reciprocal. -/
theorem quotients_rounded (a b : UInt32) (x y : UInt64) :
    binary32.QuotientOf a.toNat b.toNat (eosioF32Div a b).toNat ∧
      binary64.QuotientOf x.toNat y.toNat (eosioF64Div x y).toNat :=
  ⟨Softfloat.f32Div_quotientOf a b, Softfloat.f64Div_quotientOf x y⟩

/-- **Integers are rounded once.** -/
theorem integers_rounded (a : Int32) (b : UInt32) (c : Int64) (d : UInt64) :
    binary32.Rounded a.toInt false (eosioI32ToF32 a).toNat ∧
      binary32.Rounded b.toNat false (eosioUi32ToF32 b).toNat ∧
      binary32.Rounded c.toInt false (eosioI64ToF32 c).toNat ∧
      binary32.Rounded d.toNat false (eosioUi64ToF32 d).toNat ∧
      binary64.Rounded a.toInt false (eosioI32ToF64 a).toNat ∧
      binary64.Rounded b.toNat false (eosioUi32ToF64 b).toNat ∧
      binary64.Rounded c.toInt false (eosioI64ToF64 c).toNat ∧
      binary64.Rounded d.toNat false (eosioUi64ToF64 d).toNat :=
  ⟨Softfloat.i32ToF32_rounded a, Softfloat.ui32ToF32_rounded b, Softfloat.i64ToF32_rounded c,
    Softfloat.ui64ToF32_rounded d, Softfloat.i32ToF64_rounded a, Softfloat.ui32ToF64_rounded b,
    Softfloat.i64ToF64_rounded c, Softfloat.ui64ToF64_rounded d⟩

/-- **Demotion undoes promotion.** Both return the operand in the other format, a number rounded to
nearest, a NaN quiet and with the first bits of its payload. A promoted operand is demoted to itself,
but for a signalling NaN, which is demoted to its quiet companion. -/
theorem demote_promote (a : UInt32) (b : UInt64) :
    Format.ConversionOf binary32 binary64 a.toNat (eosioF32Promote a).toNat ∧
      (binary32.IsFinite a.toNat → binary64.IsFinite (eosioF32Promote a).toNat ∧
        binary64.sign (eosioF32Promote a).toNat = binary32.sign a.toNat ∧
          binary64.value (eosioF32Promote a).toNat = binary32.value a.toNat) ∧
      Format.ConversionOf binary64 binary32 b.toNat (eosioF64Demote b).toNat ∧
      (eosioF64Demote (eosioF32Promote a)).toNat =
        if binary32.IsNaN a.toNat then binary32.quiet a.toNat else a.toNat :=
  ⟨Softfloat.f32ToF64_conversionOf a, Softfloat.f32ToF64_exact, Softfloat.f64ToF32_conversionOf b,
    Softfloat.f64ToF32_f32ToF64 a⟩

open Softfloat in
/-- **Conversions to integers are rounded once.** In the mode that rounds to nearest they return the
nearest integer, and of a NaN or a number out of range the integer that stands for all of these. -/
theorem conversions_rounded (a : UInt32) (b : UInt64) :
    IsConversion binary32 (-2 ^ 31) (2 ^ 31 - 1) (-2 ^ 31) a.toNat
      (f32ToI32 a .nearEven) ∧
      IsConversion binary32 0 (2 ^ 32 - 1) (2 ^ 32 - 1) a.toNat
        (f32ToUI32 a .nearEven) ∧
      IsConversion binary64 (-2 ^ 31) (2 ^ 31 - 1) (-2 ^ 31) b.toNat
        (f64ToI32 b .nearEven) ∧
      IsConversion binary64 0 (2 ^ 32 - 1) (2 ^ 32 - 1) b.toNat
        (f64ToUI32 b .nearEven) ∧
      IsConversion binary32 (-2 ^ 63) (2 ^ 63 - 1) (-2 ^ 63) a.toNat
        (f32ToI64 a .nearEven) ∧
      IsConversion binary32 0 (2 ^ 64 - 1) (2 ^ 64 - 1) a.toNat
        (f32ToUI64 a .nearEven) ∧
      IsConversion binary64 (-2 ^ 63) (2 ^ 63 - 1) (-2 ^ 63) b.toNat
        (f64ToI64 b .nearEven) ∧
      IsConversion binary64 0 (2 ^ 64 - 1) (2 ^ 64 - 1) b.toNat
        (f64ToUI64 b .nearEven) :=
  ⟨f32ToI32_isConversion a, f32ToUI32_isConversion a, f64ToI32_isConversion b,
    f64ToUI32_isConversion b, f32ToI64_isConversion a, f32ToUI64_isConversion a,
    f64ToI64_isConversion b, f64ToUI64_isConversion b⟩

/-- With the vendored conversions seven intrinsics truncate every operand. -/
theorem truncations_exact (a : UInt32) (b : UInt64) :
    Truncates binary32 (-2 ^ 31) (2 ^ 31 - 1) a.toNat
        ((eosioF32TruncI32s Softfloat.conversions a).map Int32.toInt) ∧
      Truncates binary32 0 (2 ^ 32 - 1) a.toNat
        ((eosioF32TruncI32u Softfloat.conversions a).map fun n => (n.toNat : ℤ)) ∧
      Truncates binary64 0 (2 ^ 32 - 1) b.toNat
        ((eosioF64TruncI32u Softfloat.conversions b).map fun n => (n.toNat : ℤ)) ∧
      Truncates binary32 (-2 ^ 63) (2 ^ 63 - 1) a.toNat
        ((eosioF32TruncI64s Softfloat.conversions a).map Int64.toInt) ∧
      Truncates binary64 (-2 ^ 63) (2 ^ 63 - 1) b.toNat
        ((eosioF64TruncI64s Softfloat.conversions b).map Int64.toInt) ∧
      Truncates binary32 0 (2 ^ 64 - 1) a.toNat
        ((eosioF32TruncI64u Softfloat.conversions a).map fun n => (n.toNat : ℤ)) ∧
      Truncates binary64 0 (2 ^ 64 - 1) b.toNat
        ((eosioF64TruncI64u Softfloat.conversions b).map fun n => (n.toNat : ℤ)) :=
  have hexact := Softfloat.conversions_exact
  ⟨eosioF32TruncI32s_truncates hexact a, eosioF32TruncI32u_truncates hexact a,
    eosioF64TruncI32u_truncates hexact b, eosioF32TruncI64s_truncates hexact a,
    eosioF64TruncI64s_truncates hexact b, eosioF32TruncI64u_truncates hexact a,
    eosioF64TruncI64u_truncates hexact b⟩

/-- **The intrinsics that add a large constant round.** With the vendored addition and subtraction
nearest, ceil and floor return the rounded operand. -/
theorem rounding_by_sums (a : UInt32) (b : UInt64) :
    binary32.RoundsTo roundEven a.toNat (eosioF32Nearest Softfloat.f32Add Softfloat.f32Sub a).toNat ∧
      binary64.RoundsTo roundEven b.toNat
        (eosioF64Nearest Softfloat.f64Add Softfloat.f64Sub b).toNat ∧
      binary64.RoundsTo Int.ceil b.toNat (eosioF64Ceil Softfloat.f64Add Softfloat.f64Sub b).toNat ∧
      binary64.RoundsTo Int.floor b.toNat
        (eosioF64Floor Softfloat.f64Add Softfloat.f64Sub b).toNat :=
  ⟨eosioF32Nearest_roundsTo Softfloat.arithmetic_f32 a,
    eosioF64Nearest_roundsTo Softfloat.arithmetic_f64 b,
    eosioF64Ceil_roundsTo Softfloat.arithmetic_f64 b,
    eosioF64Floor_roundsTo Softfloat.arithmetic_f64 b⟩

end SoftfloatApi

end FractalWasm
