import FractalWasm.Codec.Words
import FractalWasm.Ieee.Format

/-!
# Comparisons of floating-point numbers

The relational operators, `min` and `max` of `softfloat_api`, and the comparisons of the vendored
library they go to. A `float` is its bits: `to_softfloat32` and its companions only change the type.

**Comparisons** (`f32Eq`, `f32Lt`, `f32Le` and those at 64 bits): on the bits of the operands, as
the library computes them. Each holds for the numbers of the operands or fails for a NaN.

**Intrinsics**: the six relations, of which `ge` and `gt` swap their operands, and `min` and `max`,
which look at signs where the operands are zeros.
-/

namespace FractalWasm

open Codec Ieee

/-! ## The vendored comparisons -/

namespace Softfloat

def signF32UI (a : UInt32) : Bool := a >>> 31 != 0

def isNaNF32UI (a : UInt32) : Bool := ~~~a &&& 0x7F800000 == 0 && a &&& 0x007FFFFF != 0

def f32Eq (a b : UInt32) : Bool :=
  if isNaNF32UI a || isNaNF32UI b then false
  else a == b || (a ||| b) <<< 1 == 0

def f32Lt (a b : UInt32) : Bool :=
  if isNaNF32UI a || isNaNF32UI b then false
  else
    let signA := signF32UI a
    let signB := signF32UI b
    if signA != signB then signA && (a ||| b) <<< 1 != 0
    else a != b && (signA ^^ decide (a < b))

def f32Le (a b : UInt32) : Bool :=
  if isNaNF32UI a || isNaNF32UI b then false
  else
    let signA := signF32UI a
    let signB := signF32UI b
    if signA != signB then signA || (a ||| b) <<< 1 == 0
    else a == b || (signA ^^ decide (a < b))

def signF64UI (a : UInt64) : Bool := a >>> 63 != 0

def isNaNF64UI (a : UInt64) : Bool :=
  ~~~a &&& 0x7FF0000000000000 == 0 && a &&& 0x000FFFFFFFFFFFFF != 0

def f64Eq (a b : UInt64) : Bool :=
  if isNaNF64UI a || isNaNF64UI b then false
  else a == b || (a ||| b) &&& 0x7FFFFFFFFFFFFFFF == 0

def f64Lt (a b : UInt64) : Bool :=
  if isNaNF64UI a || isNaNF64UI b then false
  else
    let signA := signF64UI a
    let signB := signF64UI b
    if signA != signB then signA && (a ||| b) &&& 0x7FFFFFFFFFFFFFFF != 0
    else a != b && (signA ^^ decide (a < b))

def f64Le (a b : UInt64) : Bool :=
  if isNaNF64UI a || isNaNF64UI b then false
  else
    let signA := signF64UI a
    let signB := signF64UI b
    if signA != signB then signA || (a ||| b) &&& 0x7FFFFFFFFFFFFFFF == 0
    else a == b || (signA ^^ decide (a < b))

/-! ## `softfloat.hpp` -/

def f32SignBit (f : UInt32) : Bool := f >>> 31 != 0

def f64SignBit (f : UInt64) : Bool := f >>> 63 != 0

def f32IsNan (f : UInt32) : Bool := f &&& 0x7FFFFFFF > 0x7F800000

def f64IsNan (f : UInt64) : Bool := f &&& 0x7FFFFFFFFFFFFFFF > 0x7FF0000000000000

/-! ## Comparisons by the bits -/

section Bits

/-- Whatever is asked of two patterns, a NaN among them is the first thing looked for. -/
theorem unlessNaN_eq_true {nanA nanB P : Prop} [Decidable nanA] [Decidable nanB] {holds : Bool}
    (hholds : holds = true ↔ P) :
    (if decide nanA || decide nanB then false else holds) = true ↔ ¬nanA ∧ ¬nanB ∧ P := by
  by_cases ha : nanA
  · simp [ha]
  · by_cases hb : nanB
    · simp [hb]
    · simp [ha, hb, hholds]

variable {fmt : Format} {p p' : Nat} (hp : p < 2 ^ fmt.width) (hp' : p' < 2 ^ fmt.width)
  {zeros same below : Bool} (hzeros : zeros = true ↔ fmt.magnitude p = 0 ∧ fmt.magnitude p' = 0)
  (hsame : same = true ↔ p = p') (hbelow : below = true ↔ p < p')

include hp hp' hzeros hsame

/-- Equality by the bits: the same pattern, or two zeros. -/
theorem eqBits_eq_true : (same || zeros) = true ↔ fmt.key p = fmt.key p' := by
  rw [Format.key_eq_key hp hp', Bool.or_eq_true, hsame, hzeros]

include hbelow

/-- Patterns of one sign are compared as words, backwards for negative ones. -/
theorem ltBits_eq_true :
    (if fmt.sign p != fmt.sign p' then fmt.sign p && !zeros
      else !same && (fmt.sign p ^^ below)) = true ↔ fmt.key p < fmt.key p' := by
  obtain rfl : below = decide (p < p') := Bool.eq_iff_iff.2 (hbelow.trans decide_eq_true_iff.symm)
  rw [Format.key_lt_key hp hp', ← hzeros, ne_eq, ← hsame]
  by_cases hsign : fmt.sign p = fmt.sign p' <;> simp [hsign]

/-- The same with equality. -/
theorem leBits_eq_true :
    (if fmt.sign p != fmt.sign p' then fmt.sign p || zeros
      else same || (fmt.sign p ^^ below)) = true ↔ fmt.key p ≤ fmt.key p' := by
  obtain rfl : below = decide (p < p') := Bool.eq_iff_iff.2 (hbelow.trans decide_eq_true_iff.symm)
  rw [Format.key_le_key hp hp', ← hzeros, ← hsame]
  by_cases hsign : fmt.sign p = fmt.sign p' <;> simp [hsign]

end Bits

/-! ## Fields -/

section Binary32

variable (a b : UInt32)

theorem toNat_lt_width32 : a.toNat < 2 ^ binary32.width := a.toNat_lt

theorem signF32UI_eq : signF32UI a = binary32.sign a.toNat := by
  have hdiv : (a >>> 31).toNat = a.toNat / 2 ^ 31 := toNat_shiftRight32 rfl (by decide)
  rw [Bool.eq_iff_iff, signF32UI, bne_iff_ne, ne_eq, ← UInt32.toNat_inj, hdiv, Format.sign,
    decide_eq_true_eq]
  have hzero : (0 : UInt32).toNat = 0 := rfl
  have hbits : binary32.magnitudeBits = 31 := rfl
  rw [hzero, hbits]
  omega

theorem f32SignBit_eq : f32SignBit a = binary32.sign a.toNat := signF32UI_eq a

/-- The two NaN tests of the library agree. -/
theorem f32IsNan_eq : f32IsNan a = decide (binary32.IsNaN a.toNat) := by
  have hmask : (a &&& 0x7FFFFFFF).toNat = a.toNat % 2 ^ 31 := toNat_and_mask32 rfl
  rw [f32IsNan, decide_eq_decide, gt_iff_lt, UInt32.lt_iff_toNat_lt, hmask]
  rfl

theorem isNaNF32UI_eq : isNaNF32UI a = decide (binary32.IsNaN a.toNat) := by
  have hlt := a.toNat_lt
  have hexp : (~~~a &&& 0x7F800000).toNat = (2 ^ 32 - 1 - a.toNat) / 2 ^ 23 % 2 ^ 8 * 2 ^ 23 := by
    rw [UInt32.toNat_and, UInt32.toNat_not]
    exact and_field _ 8 23
  have hfrac : (a &&& 0x007FFFFF).toNat = a.toNat % 2 ^ 23 := toNat_and_mask32 rfl
  have hzero : (0 : UInt32).toNat = 0 := rfl
  have hinfinity : binary32.infinity = 255 * 2 ^ 23 := rfl
  have hmagnitude : binary32.magnitude a.toNat = a.toNat % 2 ^ 31 := rfl
  rw [Bool.eq_iff_iff, isNaNF32UI, Bool.and_eq_true, beq_iff_eq, bne_iff_ne, ne_eq,
    ← UInt32.toNat_inj, ← UInt32.toNat_inj, hexp, hfrac, hzero, decide_eq_true_eq, Format.IsNaN,
    hinfinity, hmagnitude]
  omega

/-- Shifted by one, the union of two patterns is zero when both are zeros. -/
theorem or_shiftLeft_eq_zero : (a ||| b) <<< 1 = 0 ↔
    binary32.magnitude a.toNat = 0 ∧ binary32.magnitude b.toNat = 0 := by
  have hshift : ((a ||| b) <<< 1).toNat = (a.toNat ||| b.toNat) % 2 ^ 31 * 2 := by
    have hone : (1 : UInt32).toNat % 32 = 1 := rfl
    rw [UInt32.toNat_shiftLeft, UInt32.toNat_or, Nat.shiftLeft_eq, hone]
    omega
  have hzero : (0 : UInt32).toNat = 0 := rfl
  rw [← UInt32.toNat_inj, hshift, Nat.or_mod_two_pow, hzero, Nat.mul_eq_zero, Nat.or_eq_zero_iff]
  simp [Format.magnitude, Format.magnitudeBits, binary32]

theorem sameBits32 : (a == b) = true ↔ a.toNat = b.toNat :=
  beq_iff_eq.trans UInt32.toNat_inj.symm

theorem belowBits32 : decide (a < b) = true ↔ a.toNat < b.toNat :=
  decide_eq_true_iff.trans UInt32.lt_iff_toNat_lt

/-- Equality of `float`s is that of the format. -/
theorem f32Eq_eq_true : f32Eq a b = true ↔ ¬binary32.IsNaN a.toNat ∧ ¬binary32.IsNaN b.toNat ∧
    binary32.key a.toNat = binary32.key b.toNat := by
  have hzeros := beq_iff_eq.trans (or_shiftLeft_eq_zero a b)
  unfold f32Eq
  rw [isNaNF32UI_eq, isNaNF32UI_eq]
  exact unlessNaN_eq_true
    (eqBits_eq_true (toNat_lt_width32 a) (toNat_lt_width32 b) hzeros (sameBits32 a b))

/-- So is their order. -/
theorem f32Lt_eq_true : f32Lt a b = true ↔ ¬binary32.IsNaN a.toNat ∧ ¬binary32.IsNaN b.toNat ∧
    binary32.key a.toNat < binary32.key b.toNat := by
  have hzeros := beq_iff_eq.trans (or_shiftLeft_eq_zero a b)
  unfold f32Lt
  rw [isNaNF32UI_eq, isNaNF32UI_eq, signF32UI_eq, signF32UI_eq]
  exact unlessNaN_eq_true (ltBits_eq_true (toNat_lt_width32 a) (toNat_lt_width32 b) hzeros
    (sameBits32 a b) (belowBits32 a b))

/-- And the order with equality. -/
theorem f32Le_eq_true : f32Le a b = true ↔ ¬binary32.IsNaN a.toNat ∧ ¬binary32.IsNaN b.toNat ∧
    binary32.key a.toNat ≤ binary32.key b.toNat := by
  have hzeros := beq_iff_eq.trans (or_shiftLeft_eq_zero a b)
  unfold f32Le
  rw [isNaNF32UI_eq, isNaNF32UI_eq, signF32UI_eq, signF32UI_eq]
  exact unlessNaN_eq_true (leBits_eq_true (toNat_lt_width32 a) (toNat_lt_width32 b) hzeros
    (sameBits32 a b) (belowBits32 a b))

end Binary32

section Binary64

variable (a b : UInt64)

theorem toNat_lt_width64 : a.toNat < 2 ^ binary64.width := a.toNat_lt

theorem signF64UI_eq : signF64UI a = binary64.sign a.toNat := by
  have hdiv : (a >>> 63).toNat = a.toNat / 2 ^ 63 := toNat_shiftRight64 rfl (by decide)
  rw [Bool.eq_iff_iff, signF64UI, bne_iff_ne, ne_eq, ← UInt64.toNat_inj, hdiv, Format.sign,
    decide_eq_true_eq]
  have hzero : (0 : UInt64).toNat = 0 := rfl
  have hbits : binary64.magnitudeBits = 63 := rfl
  rw [hzero, hbits]
  omega

theorem f64SignBit_eq : f64SignBit a = binary64.sign a.toNat := signF64UI_eq a

theorem f64IsNan_eq : f64IsNan a = decide (binary64.IsNaN a.toNat) := by
  have hmask : (a &&& 0x7FFFFFFFFFFFFFFF).toNat = a.toNat % 2 ^ 63 := toNat_and_mask64 rfl
  rw [f64IsNan, decide_eq_decide, gt_iff_lt, UInt64.lt_iff_toNat_lt, hmask]
  rfl

theorem isNaNF64UI_eq : isNaNF64UI a = decide (binary64.IsNaN a.toNat) := by
  have hlt := a.toNat_lt
  have hexp : (~~~a &&& 0x7FF0000000000000).toNat =
      (2 ^ 64 - 1 - a.toNat) / 2 ^ 52 % 2 ^ 11 * 2 ^ 52 := by
    rw [UInt64.toNat_and, UInt64.toNat_not]
    exact and_field _ 11 52
  have hfrac : (a &&& 0x000FFFFFFFFFFFFF).toNat = a.toNat % 2 ^ 52 := toNat_and_mask64 rfl
  have hzero : (0 : UInt64).toNat = 0 := rfl
  have hinfinity : binary64.infinity = 2047 * 2 ^ 52 := rfl
  have hmagnitude : binary64.magnitude a.toNat = a.toNat % 2 ^ 63 := rfl
  rw [Bool.eq_iff_iff, isNaNF64UI, Bool.and_eq_true, beq_iff_eq, bne_iff_ne, ne_eq,
    ← UInt64.toNat_inj, ← UInt64.toNat_inj, hexp, hfrac, hzero, decide_eq_true_eq, Format.IsNaN,
    hinfinity, hmagnitude]
  omega

/-- Both are zeros when no magnitude bit is set in either. -/
theorem or_and_eq_zero : (a ||| b) &&& 0x7FFFFFFFFFFFFFFF = 0 ↔
    binary64.magnitude a.toNat = 0 ∧ binary64.magnitude b.toNat = 0 := by
  have hmask : ((a ||| b) &&& 0x7FFFFFFFFFFFFFFF).toNat = (a ||| b).toNat % 2 ^ 63 :=
    toNat_and_mask64 rfl
  have hzero : (0 : UInt64).toNat = 0 := rfl
  rw [← UInt64.toNat_inj, hmask, UInt64.toNat_or, Nat.or_mod_two_pow, hzero, Nat.or_eq_zero_iff]
  rfl

theorem sameBits64 : (a == b) = true ↔ a.toNat = b.toNat :=
  beq_iff_eq.trans UInt64.toNat_inj.symm

theorem belowBits64 : decide (a < b) = true ↔ a.toNat < b.toNat :=
  decide_eq_true_iff.trans UInt64.lt_iff_toNat_lt

/-- Equality of `double`s is that of the format. -/
theorem f64Eq_eq_true : f64Eq a b = true ↔ ¬binary64.IsNaN a.toNat ∧ ¬binary64.IsNaN b.toNat ∧
    binary64.key a.toNat = binary64.key b.toNat := by
  have hzeros := beq_iff_eq.trans (or_and_eq_zero a b)
  unfold f64Eq
  rw [isNaNF64UI_eq, isNaNF64UI_eq]
  exact unlessNaN_eq_true
    (eqBits_eq_true (toNat_lt_width64 a) (toNat_lt_width64 b) hzeros (sameBits64 a b))

/-- So is their order. -/
theorem f64Lt_eq_true : f64Lt a b = true ↔ ¬binary64.IsNaN a.toNat ∧ ¬binary64.IsNaN b.toNat ∧
    binary64.key a.toNat < binary64.key b.toNat := by
  have hzeros := beq_iff_eq.trans (or_and_eq_zero a b)
  unfold f64Lt
  rw [isNaNF64UI_eq, isNaNF64UI_eq, signF64UI_eq, signF64UI_eq]
  exact unlessNaN_eq_true (ltBits_eq_true (toNat_lt_width64 a) (toNat_lt_width64 b) hzeros
    (sameBits64 a b) (belowBits64 a b))

/-- And the order with equality. -/
theorem f64Le_eq_true : f64Le a b = true ↔ ¬binary64.IsNaN a.toNat ∧ ¬binary64.IsNaN b.toNat ∧
    binary64.key a.toNat ≤ binary64.key b.toNat := by
  have hzeros := beq_iff_eq.trans (or_and_eq_zero a b)
  unfold f64Le
  rw [isNaNF64UI_eq, isNaNF64UI_eq, signF64UI_eq, signF64UI_eq]
  exact unlessNaN_eq_true (leBits_eq_true (toNat_lt_width64 a) (toNat_lt_width64 b) hzeros
    (sameBits64 a b) (belowBits64 a b))

end Binary64

end Softfloat

/-! ## The intrinsics -/

namespace SoftfloatApi

open Softfloat

def isNan32 (f : UInt32) : Bool := f32IsNan f

def isNan64 (f : UInt64) : Bool := f64IsNan f

def eosioF32Min (a b : UInt32) : UInt32 :=
  if isNan32 a then a
  else if isNan32 b then b
  else if f32SignBit a != f32SignBit b then (if f32SignBit a then a else b)
  else if f32Lt a b then a else b

def eosioF32Max (a b : UInt32) : UInt32 :=
  if isNan32 a then a
  else if isNan32 b then b
  else if f32SignBit a != f32SignBit b then (if f32SignBit a then b else a)
  else if f32Lt a b then b else a

def eosioF32Eq (a b : UInt32) : Bool := f32Eq a b

def eosioF32Ne (a b : UInt32) : Bool := !f32Eq a b

def eosioF32Lt (a b : UInt32) : Bool := f32Lt a b

def eosioF32Le (a b : UInt32) : Bool := f32Le a b

def eosioF32Gt (a b : UInt32) : Bool :=
  if isNan32 a then false
  else if isNan32 b then false
  else !f32Le a b

def eosioF32Ge (a b : UInt32) : Bool :=
  if isNan32 a then false
  else if isNan32 b then false
  else !f32Lt a b

def eosioF64Min (a b : UInt64) : UInt64 :=
  if isNan64 a then a
  else if isNan64 b then b
  else if f64SignBit a != f64SignBit b then (if f64SignBit a then a else b)
  else if f64Lt a b then a else b

def eosioF64Max (a b : UInt64) : UInt64 :=
  if isNan64 a then a
  else if isNan64 b then b
  else if f64SignBit a != f64SignBit b then (if f64SignBit a then b else a)
  else if f64Lt a b then b else a

def eosioF64Eq (a b : UInt64) : Bool := f64Eq a b

def eosioF64Ne (a b : UInt64) : Bool := !f64Eq a b

def eosioF64Lt (a b : UInt64) : Bool := f64Lt a b

def eosioF64Le (a b : UInt64) : Bool := f64Le a b

def eosioF64Gt (a b : UInt64) : Bool :=
  if isNan64 a then false
  else if isNan64 b then false
  else !f64Le a b

def eosioF64Ge (a b : UInt64) : Bool :=
  if isNan64 a then false
  else if isNan64 b then false
  else !f64Lt a b

/-! ## One order -/

/-- The relational operators of one width, with `min` and `max`. -/
structure Relops (α : Type) where
  eq : α → α → Bool
  ne : α → α → Bool
  lt : α → α → Bool
  le : α → α → Bool
  gt : α → α → Bool
  ge : α → α → Bool
  min : α → α → α
  max : α → α → α

namespace Relops

variable {α : Type} {fmt : Format} {bits : α → Nat} {ops : Relops α}

/-- Each operator as a comparison of patterns; `min` and `max` compare the signs of zeros, too. -/
structure Spec (fmt : Format) (bits : α → Nat) (ops : Relops α) : Prop where
  width : ∀ a, bits a < 2 ^ fmt.width
  injective : ∀ {a b}, bits a = bits b → a = b
  eq : ∀ a b, ops.eq a b = true ↔
    ¬fmt.IsNaN (bits a) ∧ ¬fmt.IsNaN (bits b) ∧ fmt.key (bits a) = fmt.key (bits b)
  ne : ∀ a b, ops.ne a b = !ops.eq a b
  lt : ∀ a b, ops.lt a b = true ↔
    ¬fmt.IsNaN (bits a) ∧ ¬fmt.IsNaN (bits b) ∧ fmt.key (bits a) < fmt.key (bits b)
  le : ∀ a b, ops.le a b = true ↔
    ¬fmt.IsNaN (bits a) ∧ ¬fmt.IsNaN (bits b) ∧ fmt.key (bits a) ≤ fmt.key (bits b)
  gt : ∀ a b, ops.gt a b = true ↔
    ¬fmt.IsNaN (bits a) ∧ ¬fmt.IsNaN (bits b) ∧ fmt.key (bits b) < fmt.key (bits a)
  ge : ∀ a b, ops.ge a b = true ↔
    ¬fmt.IsNaN (bits a) ∧ ¬fmt.IsNaN (bits b) ∧ fmt.key (bits b) ≤ fmt.key (bits a)
  min : ∀ a b, ops.min a b =
    if fmt.IsNaN (bits a) then a else if fmt.IsNaN (bits b) then b
    else if fmt.rank (bits a) < fmt.rank (bits b) then a else b
  max : ∀ a b, ops.max a b =
    if fmt.IsNaN (bits a) then a else if fmt.IsNaN (bits b) then b
    else if fmt.rank (bits a) < fmt.rank (bits b) then b else a

/-- The laws of the comparisons, and of `min` and `max` with them. -/
structure Consistent (fmt : Format) (bits : α → Nat) (ops : Relops α) : Prop where
  gt_eq : ∀ a b, ops.gt a b = ops.lt b a
  ge_eq : ∀ a b, ops.ge a b = ops.le b a
  nan : ∀ a b, fmt.IsNaN (bits a) ∨ fmt.IsNaN (bits b) →
    ops.eq a b = false ∧ ops.lt a b = false ∧ ops.le a b = false ∧ ops.gt a b = false ∧
      ops.ge a b = false ∧ ops.ne a b = true
  trichotomy : ∀ a b, ¬fmt.IsNaN (bits a) → ¬fmt.IsNaN (bits b) →
    ops.lt a b = true ∧ ops.eq a b = false ∧ ops.gt a b = false ∨
      ops.lt a b = false ∧ ops.eq a b = true ∧ ops.gt a b = false ∨
      ops.lt a b = false ∧ ops.eq a b = false ∧ ops.gt a b = true
  le_eq : ∀ a b, ops.le a b = (ops.lt a b || ops.eq a b)
  min_mem : ∀ a b, ops.min a b = a ∨ ops.min a b = b
  max_mem : ∀ a b, ops.max a b = a ∨ ops.max a b = b
  min_comm : ∀ a b, ¬fmt.IsNaN (bits a) → ¬fmt.IsNaN (bits b) → ops.min a b = ops.min b a
  max_comm : ∀ a b, ¬fmt.IsNaN (bits a) → ¬fmt.IsNaN (bits b) → ops.max a b = ops.max b a
  zeros : ∀ negative positive, bits negative = fmt.pack true 0 → bits positive = fmt.pack false 0 →
    ops.min negative positive = negative ∧ ops.max negative positive = positive
  min_le : ∀ a b, ¬fmt.IsNaN (bits a) → ¬fmt.IsNaN (bits b) →
    ops.le (ops.min a b) a = true ∧ ops.le (ops.min a b) b = true
  le_max : ∀ a b, ¬fmt.IsNaN (bits a) → ¬fmt.IsNaN (bits b) →
    ops.ge (ops.max a b) a = true ∧ ops.ge (ops.max a b) b = true

/-- The six relations and the two choices follow from one order. -/
theorem Spec.consistent (h : Spec fmt bits ops) : Consistent fmt bits ops where
  gt_eq a b := by
    rw [Bool.eq_iff_iff, h.gt, h.lt]
    tauto
  ge_eq a b := by
    rw [Bool.eq_iff_iff, h.ge, h.le]
    tauto
  nan a b hnan := by
    have hfalse : ∀ {P : Prop}, ¬(¬fmt.IsNaN (bits a) ∧ ¬fmt.IsNaN (bits b) ∧ P) := by tauto
    have heq : ops.eq a b = false := Bool.eq_false_iff.2 fun htrue => hfalse ((h.eq a b).1 htrue)
    refine ⟨heq, ?_, ?_, ?_, ?_, by rw [h.ne, heq]; rfl⟩
    · exact Bool.eq_false_iff.2 fun htrue => hfalse ((h.lt a b).1 htrue)
    · exact Bool.eq_false_iff.2 fun htrue => hfalse ((h.le a b).1 htrue)
    · exact Bool.eq_false_iff.2 fun htrue => hfalse ((h.gt a b).1 htrue)
    · exact Bool.eq_false_iff.2 fun htrue => hfalse ((h.ge a b).1 htrue)
  trichotomy a b ha hb := by
    simp only [← Bool.not_eq_true, h.lt, h.eq, h.gt, ha, hb, not_false_eq_true, true_and]
    omega
  le_eq a b := by
    rw [Bool.eq_iff_iff, Bool.or_eq_true, h.le, h.lt, h.eq, Int.le_iff_lt_or_eq]
    tauto
  min_mem a b := by
    rw [h.min]
    split
    · exact .inl rfl
    · split
      · exact .inr rfl
      · exact ite_eq_or_eq _ _ _
  max_mem a b := by
    rw [h.max]
    split
    · exact .inl rfl
    · split
      · exact .inr rfl
      · exact (ite_eq_or_eq _ _ _).symm
  min_comm a b ha hb := by
    rw [h.min, h.min, if_neg ha, if_neg hb, if_neg hb, if_neg ha]
    rcases lt_trichotomy (fmt.rank (bits a)) (fmt.rank (bits b)) with hlt | heq | hgt
    · rw [if_pos hlt, if_neg (by omega)]
    · rw [h.injective (Format.eq_of_rank (h.width a) (h.width b) heq)]
    · rw [if_neg (by omega), if_pos hgt]
  max_comm a b ha hb := by
    rw [h.max, h.max, if_neg ha, if_neg hb, if_neg hb, if_neg ha]
    rcases lt_trichotomy (fmt.rank (bits a)) (fmt.rank (bits b)) with hlt | heq | hgt
    · rw [if_pos hlt, if_neg (by omega)]
    · rw [h.injective (Format.eq_of_rank (h.width a) (h.width b) heq)]
    · rw [if_neg (by omega), if_pos hgt]
  zeros negative positive hnegative hpositive := by
    have hzero : 0 < 2 ^ fmt.magnitudeBits := Nat.two_pow_pos _
    have hnan : ∀ {s}, ¬fmt.IsNaN (fmt.pack s 0) := by
      intro s
      rw [Format.IsNaN, Format.magnitude_pack hzero]
      exact Nat.not_lt_zero _
    have hrank : fmt.rank (fmt.pack true 0) < fmt.rank (fmt.pack false 0) := by
      simp only [Format.rank, Format.sign_pack hzero, Format.magnitude_pack hzero]
      decide
    rw [h.min, h.max, hnegative, hpositive]
    simp only [if_neg hnan, if_pos hrank, and_self]
  min_le a b ha hb := by
    rw [h.min, if_neg ha, if_neg hb, h.le, h.le]
    split
    · exact ⟨⟨ha, ha, le_refl _⟩, ha, hb, Format.key_le_of_rank_le (by omega)⟩
    · exact ⟨⟨hb, ha, Format.key_le_of_rank_le (by omega)⟩, hb, hb, le_refl _⟩
  le_max a b ha hb := by
    rw [h.max, if_neg ha, if_neg hb, h.ge, h.ge]
    split
    · exact ⟨⟨hb, ha, Format.key_le_of_rank_le (by omega)⟩, hb, hb, le_refl _⟩
    · exact ⟨⟨ha, ha, le_refl _⟩, ha, hb, Format.key_le_of_rank_le (by omega)⟩

end Relops

def f32Relops : Relops UInt32 where
  eq := eosioF32Eq
  ne := eosioF32Ne
  lt := eosioF32Lt
  le := eosioF32Le
  gt := eosioF32Gt
  ge := eosioF32Ge
  min := eosioF32Min
  max := eosioF32Max

def f64Relops : Relops UInt64 where
  eq := eosioF64Eq
  ne := eosioF64Ne
  lt := eosioF64Lt
  le := eosioF64Le
  gt := eosioF64Gt
  ge := eosioF64Ge
  min := eosioF64Min
  max := eosioF64Max

/-- Behind the guards for NaNs a negated comparison is the opposite one. -/
theorem guarded_not_eq_true {nanA nanB P : Prop} [Decidable nanA] [Decidable nanB] {holds : Bool}
    (hholds : holds = true ↔ ¬nanA ∧ ¬nanB ∧ P) :
    (if decide nanA then false else if decide nanB then false else !holds) = true ↔
      ¬nanA ∧ ¬nanB ∧ ¬P := by
  by_cases ha : nanA
  · simp [ha]
  · by_cases hb : nanB
    · simp [hb]
    · simp [ha, hb, ← Bool.not_eq_true, hholds]

/-- Behind the guards for NaNs, with the signs compared first, less is less in the order of the
patterns. -/
theorem guarded_select {α : Type} {bits : α → Nat} {fmt : Format} {a b : α} {lt : Bool}
    (hlt : lt = true ↔ ¬fmt.IsNaN (bits a) ∧ ¬fmt.IsNaN (bits b) ∧
      fmt.key (bits a) < fmt.key (bits b)) (lesser greater : α) :
    (if fmt.IsNaN (bits a) then a else if fmt.IsNaN (bits b) then b
      else if fmt.sign (bits a) != fmt.sign (bits b) then
        (if fmt.sign (bits a) then lesser else greater)
      else if lt then lesser else greater) =
    if fmt.IsNaN (bits a) then a else if fmt.IsNaN (bits b) then b
      else if fmt.rank (bits a) < fmt.rank (bits b) then lesser else greater := by
  by_cases ha : fmt.IsNaN (bits a)
  · rw [if_pos ha, if_pos ha]
  by_cases hb : fmt.IsNaN (bits b)
  · rw [if_neg ha, if_neg ha, if_pos hb, if_pos hb]
  rw [and_iff_right ha, and_iff_right hb] at hlt
  have hrank := @Format.rank_lt_rank fmt (bits a) (bits b)
  rw [← hlt] at hrank
  rw [if_neg ha, if_neg ha, if_neg hb, if_neg hb]
  by_cases hsign : fmt.sign (bits a) = fmt.sign (bits b) <;> simp [hrank, hsign]

/-- The intrinsics of `float` meet their specification. -/
theorem f32Relops_spec : f32Relops.Spec binary32 UInt32.toNat where
  width := toNat_lt_width32
  injective := UInt32.toNat_inj.1
  eq := f32Eq_eq_true
  ne _ _ := rfl
  lt := f32Lt_eq_true
  le := f32Le_eq_true
  gt a b := by
    have hguarded := guarded_not_eq_true (f32Le_eq_true a b)
    rw [Int.not_le, ← f32IsNan_eq, ← f32IsNan_eq] at hguarded
    exact hguarded
  ge a b := by
    have hguarded := guarded_not_eq_true (f32Lt_eq_true a b)
    rw [Int.not_lt, ← f32IsNan_eq, ← f32IsNan_eq] at hguarded
    exact hguarded
  min a b := by
    simp only [f32Relops, eosioF32Min, isNan32, f32IsNan_eq, f32SignBit_eq, decide_eq_true_eq]
    exact guarded_select (f32Lt_eq_true a b) _ _
  max a b := by
    simp only [f32Relops, eosioF32Max, isNan32, f32IsNan_eq, f32SignBit_eq, decide_eq_true_eq]
    exact guarded_select (f32Lt_eq_true a b) _ _

/-- The intrinsics of `double` meet theirs. -/
theorem f64Relops_spec : f64Relops.Spec binary64 UInt64.toNat where
  width := toNat_lt_width64
  injective := UInt64.toNat_inj.1
  eq := f64Eq_eq_true
  ne _ _ := rfl
  lt := f64Lt_eq_true
  le := f64Le_eq_true
  gt a b := by
    have hguarded := guarded_not_eq_true (f64Le_eq_true a b)
    rw [Int.not_le, ← f64IsNan_eq, ← f64IsNan_eq] at hguarded
    exact hguarded
  ge a b := by
    have hguarded := guarded_not_eq_true (f64Lt_eq_true a b)
    rw [Int.not_lt, ← f64IsNan_eq, ← f64IsNan_eq] at hguarded
    exact hguarded
  min a b := by
    simp only [f64Relops, eosioF64Min, isNan64, f64IsNan_eq, f64SignBit_eq, decide_eq_true_eq]
    exact guarded_select (f64Lt_eq_true a b) _ _
  max a b := by
    simp only [f64Relops, eosioF64Max, isNan64, f64IsNan_eq, f64SignBit_eq, decide_eq_true_eq]
    exact guarded_select (f64Lt_eq_true a b) _ _

/-- **The comparisons form one order.** At both widths all relational operators, `min` and `max`
follow the laws of one order of the numbers, in which the negative zero is the lesser for `min` and
`max` only. -/
theorem relops_consistent :
    f32Relops.Consistent binary32 UInt32.toNat ∧ f64Relops.Consistent binary64 UInt64.toNat :=
  ⟨f32Relops_spec.consistent, f64Relops_spec.consistent⟩

end SoftfloatApi

end FractalWasm
