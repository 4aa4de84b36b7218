import FractalWasm.Wasmlib.SoftfloatApi.MagicRounding

/-!
# NaN operands

The intrinsics that stand for the operators of the format should return arithmetic NaNs, as the
runtime's own versions do with `quietNaN`. They return an operand instead, as it is.

**Arithmetic NaNs** (`ArithmeticNaN`): those with the quiet bit, which the operators of the format
have to return.

**Tables** (`f32Unops`, `f32Binops` and those at 64 bits): the intrinsics with a branch for NaNs of
their own. Each returns its first NaN operand (`firstNaN`), so that the quiet bit of that operand
decides.
-/

namespace FractalWasm

open Codec Ieee Softfloat

namespace SoftfloatApi

/-- A NaN whose significand has its top bit set. -/
def ArithmeticNaN (fmt : Format) (p : Nat) : Prop := fmt.IsNaN p ∧ fmt.IsQuiet p

section Operators

variable (f32Add f32Sub : UInt32 → UInt32 → UInt32) (f64Add f64Sub : UInt64 → UInt64 → UInt64)

/-- The intrinsics for the operators with one operand, and those with two. -/
def f32Unops : List (UInt32 → UInt32) :=
  [eosioF32Ceil, eosioF32Floor, eosioF32Trunc, eosioF32Nearest f32Add f32Sub]

def f32Binops : List (UInt32 → UInt32 → UInt32) := [eosioF32Min, eosioF32Max]

def f64Unops : List (UInt64 → UInt64) :=
  [eosioF64Ceil f64Add f64Sub, eosioF64Floor f64Add f64Sub, eosioF64Trunc,
    eosioF64Nearest f64Add f64Sub]

def f64Binops : List (UInt64 → UInt64 → UInt64) := [eosioF64Min, eosioF64Max]

end Operators

/-- The exponent of a NaN is the largest. -/
theorem exponent_of_isNaN {fmt : Format} {p : Nat} (h : fmt.IsNaN p) :
    2 * fmt.bias + 1 ≤ fmt.exponent p := by
  have hinfinity : fmt.infinity = (2 * fmt.bias + 1) * 2 ^ fmt.fracBits := by
    rw [Format.infinity, Format.two_pow_expBits]
    rfl
  rw [Format.IsNaN, hinfinity] at h
  exact (Nat.le_div_iff_mul_le (Nat.two_pow_pos _)).2 h.le

theorem f32Unops_nan {f32Add f32Sub : UInt32 → UInt32 → UInt32} {op : UInt32 → UInt32}
    (hop : op ∈ f32Unops f32Add f32Sub) {a : UInt32} (ha : binary32.IsNaN a.toNat) : op a = a := by
  have hexponent : 255 ≤ binary32.exponent a.toNat := exponent_of_isNaN ha
  simp only [f32Unops, List.mem_cons, List.not_mem_nil, or_false] at hop
  rcases hop with rfl | rfl | rfl | rfl
  · simp only [eosioF32Ceil, toNat_exponent32]
    rw [if_pos (by omega)]
  · simp only [eosioF32Floor, toNat_exponent32]
    rw [if_pos (by omega)]
  · simp only [eosioF32Trunc, toNat_exponent32]
    rw [if_pos (by omega)]
  · simp only [eosioF32Nearest, toNat_exponent32]
    rw [if_pos (by omega)]

theorem f64Unops_nan {f64Add f64Sub : UInt64 → UInt64 → UInt64} {op : UInt64 → UInt64}
    (hop : op ∈ f64Unops f64Add f64Sub) {a : UInt64} (ha : binary64.IsNaN a.toNat) : op a = a := by
  have hexponent : 2047 ≤ binary64.exponent a.toNat := exponent_of_isNaN ha
  simp only [f64Unops, List.mem_cons, List.not_mem_nil, or_false] at hop
  rcases hop with rfl | rfl | rfl | rfl
  · simp only [eosioF64Ceil, toNat_exponent64]
    rw [decide_eq_true (by omega), Bool.true_or, if_pos rfl]
  · simp only [eosioF64Floor, toNat_exponent64]
    rw [decide_eq_true (by omega), Bool.true_or, if_pos rfl, ite_self]
  · simp only [eosioF64Trunc, toNat_exponent64]
    rw [if_pos (by omega)]
  · simp only [eosioF64Nearest, toNat_exponent64]
    rw [if_pos (by omega)]

/-- The first NaN of two operands. -/
def firstNaN {α : Type} (fmt : Format) (bits : α → Nat) (a b : α) : α :=
  if fmt.IsNaN (bits a) then a else b

/-- `min` and `max` return the first NaN. -/
theorem Relops.Spec.firstNaN {α : Type} {fmt : Format} {bits : α → Nat} {ops : Relops α}
    (h : ops.Spec fmt bits) {a b : α} (hnan : fmt.IsNaN (bits a) ∨ fmt.IsNaN (bits b)) :
    ops.min a b = SoftfloatApi.firstNaN fmt bits a b ∧
      ops.max a b = SoftfloatApi.firstNaN fmt bits a b := by
  rw [h.min, h.max, SoftfloatApi.firstNaN]
  by_cases ha : fmt.IsNaN (bits a)
  · simp only [if_pos ha, and_self]
  · simp only [if_neg ha, if_pos (hnan.resolve_left ha), and_self]

theorem f32Binops_nan {op : UInt32 → UInt32 → UInt32} (hop : op ∈ f32Binops) {a b : UInt32}
    (h : binary32.IsNaN a.toNat ∨ binary32.IsNaN b.toNat) :
    op a b = firstNaN binary32 UInt32.toNat a b := by
  simp only [f32Binops, List.mem_cons, List.not_mem_nil, or_false] at hop
  rcases hop with rfl | rfl
  · exact (f32Relops_spec.firstNaN h).1
  · exact (f32Relops_spec.firstNaN h).2

theorem f64Binops_nan {op : UInt64 → UInt64 → UInt64} (hop : op ∈ f64Binops) {a b : UInt64}
    (h : binary64.IsNaN a.toNat ∨ binary64.IsNaN b.toNat) :
    op a b = firstNaN binary64 UInt64.toNat a b := by
  simp only [f64Binops, List.mem_cons, List.not_mem_nil, or_false] at hop
  rcases hop with rfl | rfl
  · exact (f64Relops_spec.firstNaN h).1
  · exact (f64Relops_spec.firstNaN h).2

theorem arithmeticNaN_iff {fmt : Format} {p : Nat} (h : fmt.IsNaN p) :
    ArithmeticNaN fmt p ↔ fmt.IsQuiet p := and_iff_right h

theorem isNaN_firstNaN {α : Type} {fmt : Format} {bits : α → Nat} {a b : α}
    (h : fmt.IsNaN (bits a) ∨ fmt.IsNaN (bits b)) : fmt.IsNaN (bits (firstNaN fmt bits a b)) := by
  unfold firstNaN
  split
  · next ha => exact ha
  · next ha => exact h.resolve_left ha

/-- **NaNs are handed back.** Of every operand that is a NaN the twelve intrinsics return an
arithmetic NaN exactly if the operand is one, of two operands the first that is a NaN. -/
theorem nan_arithmetic_iff (f32Add f32Sub : UInt32 → UInt32 → UInt32)
    (f64Add f64Sub : UInt64 → UInt64 → UInt64) :
    (∀ op ∈ f32Unops f32Add f32Sub, ∀ a : UInt32, binary32.IsNaN a.toNat →
      (ArithmeticNaN binary32 (op a).toNat ↔ binary32.IsQuiet a.toNat)) ∧
    (∀ op ∈ f32Binops, ∀ a b : UInt32, binary32.IsNaN a.toNat ∨ binary32.IsNaN b.toNat →
      (ArithmeticNaN binary32 (op a b).toNat ↔
        binary32.IsQuiet (firstNaN binary32 UInt32.toNat a b).toNat)) ∧
    (∀ op ∈ f64Unops f64Add f64Sub, ∀ a : UInt64, binary64.IsNaN a.toNat →
      (ArithmeticNaN binary64 (op a).toNat ↔ binary64.IsQuiet a.toNat)) ∧
    ∀ op ∈ f64Binops, ∀ a b : UInt64, binary64.IsNaN a.toNat ∨ binary64.IsNaN b.toNat →
      (ArithmeticNaN binary64 (op a b).toNat ↔
        binary64.IsQuiet (firstNaN binary64 UInt64.toNat a b).toNat) := by
  refine ⟨fun op hop a ha => ?_, fun op hop a b h => ?_, fun op hop a ha => ?_,
    fun op hop a b h => ?_⟩
  · rw [f32Unops_nan hop ha, arithmeticNaN_iff ha]
  · rw [f32Binops_nan hop h, arithmeticNaN_iff (isNaN_firstNaN h)]
  · rw [f64Unops_nan hop ha, arithmeticNaN_iff ha]
  · rw [f64Binops_nan hop h, arithmeticNaN_iff (isNaN_firstNaN h)]

/-- A signalling NaN survives `ceil`. -/
theorem signalling_nan_returned :
    binary32.IsNaN (0x7FA00000 : UInt32).toNat ∧ eosioF32Ceil 0x7FA00000 = 0x7FA00000 ∧
      ¬ArithmeticNaN binary32 (eosioF32Ceil 0x7FA00000).toNat := by
  refine ⟨by decide, by decide, fun harithmetic => ?_⟩
  exact absurd harithmetic.2 (by decide)

end SoftfloatApi

end FractalWasm
