import FractalWasm.Wasmlib.CompilerBuiltins.Calls
import FractalWasm.Wasmlib.SoftfloatApi.Relops

/-!
# Comparisons of quadruple precision

Six of the comparisons of `compiler_builtins` are one, `___cmptf2`, but for what they return for
NaNs. What each is asked for, by the sign of its result, holds with that choice.

**Operands** (`Float128`): two words, compared by the vendored functions for `float128_t` as words
with a sign.

**Methods** (`cmptf2Or`): the result is -1, 0 or 1, or the value that the caller chose for NaNs;
`unordtf2` has no such choice.

**Results** (`Decides`): each method by the relation its result stands for, for all operands, after
its charge.
-/

namespace FractalWasm

open Codec Ieee

/-! ## The vendored comparisons -/

/-- `float128_t`, whose words the union `ui128_f128` calls `v0` and `v64`. -/
structure Float128 where
  v0 : UInt64
  v64 : UInt64
  deriving DecidableEq, Repr

namespace Float128

def toNat (f : Float128) : Nat := f.v64.toNat * 2 ^ 64 + f.v0.toNat

theorem toNat_inj {a b : Float128} : a.toNat = b.toNat ↔ a.v64 = b.v64 ∧ a.v0 = b.v0 := by
  have ha := a.v0.toNat_lt
  have hb := b.v0.toNat_lt
  rw [toNat, toNat, ← UInt64.toNat_inj, ← UInt64.toNat_inj]
  omega

end Float128

namespace Softfloat

def signF128UI64 (a64 : UInt64) : Bool := a64 >>> 63 != 0

def isNaNF128UI (a64 a0 : UInt64) : Bool :=
  ~~~a64 &&& 0x7FFF000000000000 == 0 && (a0 != 0 || a64 &&& 0x0000FFFFFFFFFFFF != 0)

def softfloatLt128 (a64 a0 b64 b0 : UInt64) : Bool := a64 < b64 || a64 == b64 && a0 < b0

def f128Eq (a b : Float128) : Bool :=
  if isNaNF128UI a.v64 a.v0 || isNaNF128UI b.v64 b.v0 then false
  else a.v0 == b.v0 &&
    (a.v64 == b.v64 || (a.v0 == 0 && (a.v64 ||| b.v64) &&& 0x7FFFFFFFFFFFFFFF == 0))

def f128Lt (a b : Float128) : Bool :=
  if isNaNF128UI a.v64 a.v0 || isNaNF128UI b.v64 b.v0 then false
  else
    let signA := signF128UI64 a.v64
    let signB := signF128UI64 b.v64
    if signA != signB then
      signA && (((a.v64 ||| b.v64) &&& 0x7FFFFFFFFFFFFFFF) ||| a.v0 ||| b.v0) != 0
    else (a.v64 != b.v64 || a.v0 != b.v0) && (signA ^^ softfloatLt128 a.v64 a.v0 b.v64 b.v0)

/-- `softfloat.hpp` -/
def f128IsNan (f : Float128) : Bool :=
  ~~~f.v64 &&& 0x7FFF000000000000 == 0 && (f.v0 != 0 || f.v64 &&& 0x0000FFFFFFFFFFFF != 0)

section Binary128

variable (a b : Float128)

theorem toNat_lt_width128 : a.toNat < 2 ^ binary128.width := by
  have hhigh := a.v64.toNat_lt
  have hlow := a.v0.toNat_lt
  have hwidth : binary128.width = 128 := rfl
  rw [hwidth, Float128.toNat]
  omega

theorem magnitude128 : binary128.magnitude a.toNat = a.v64.toNat % 2 ^ 63 * 2 ^ 64 + a.v0.toNat := by
  have hhigh := a.v64.toNat_lt
  have hlow := a.v0.toNat_lt
  have hbits : binary128.magnitude a.toNat = a.toNat % 2 ^ 127 := rfl
  rw [hbits, Float128.toNat]
  omega

theorem signF128UI64_eq : signF128UI64 a.v64 = binary128.sign a.toNat := by
  have hhigh := a.v64.toNat_lt
  have hlow := a.v0.toNat_lt
  have hdiv : (a.v64 >>> 63).toNat = a.v64.toNat / 2 ^ 63 := toNat_shiftRight64 rfl (by decide)
  have hzero : (0 : UInt64).toNat = 0 := rfl
  have hbits : binary128.magnitudeBits = 127 := rfl
  rw [Bool.eq_iff_iff, signF128UI64, bne_iff_ne, ne_eq, ← UInt64.toNat_inj, hdiv, Format.sign,
    decide_eq_true_eq, hzero, hbits, Float128.toNat]
  omega

theorem f128IsNan_eq : f128IsNan a = decide (binary128.IsNaN a.toNat) := by
  have hhigh := a.v64.toNat_lt
  have hlow := a.v0.toNat_lt
  have hexp : (~~~a.v64 &&& 0x7FFF000000000000).toNat =
      (2 ^ 64 - 1 - a.v64.toNat) / 2 ^ 48 % 2 ^ 15 * 2 ^ 48 := by
    rw [UInt64.toNat_and, UInt64.toNat_not]
    exact and_field _ 15 48
  have hfrac : (a.v64 &&& 0x0000FFFFFFFFFFFF).toNat = a.v64.toNat % 2 ^ 48 := toNat_and_mask64 rfl
  have hzero : (0 : UInt64).toNat = 0 := rfl
  have hinfinity : binary128.infinity = 32767 * 2 ^ 112 := rfl
  rw [Bool.eq_iff_iff, f128IsNan, Bool.and_eq_true, Bool.or_eq_true, beq_iff_eq, bne_iff_ne,
    bne_iff_ne, ne_eq, ne_eq, ← UInt64.toNat_inj, ← UInt64.toNat_inj, ← UInt64.toNat_inj, hexp, hfrac,
    hzero, decide_eq_true_eq, Format.IsNaN, hinfinity, magnitude128]
  omega

theorem isNaNF128UI_eq : isNaNF128UI a.v64 a.v0 = decide (binary128.IsNaN a.toNat) :=
  f128IsNan_eq a

theorem and_or_eq_zero : ((a.v64 ||| b.v64) &&& 0x7FFFFFFFFFFFFFFF) ||| a.v0 ||| b.v0 = 0 ↔
    binary128.magnitude a.toNat = 0 ∧ binary128.magnitude b.toNat = 0 := by
  have hhigh := or_and_eq_zero a.v64 b.v64
  have hbits : ∀ x : UInt64, binary64.magnitude x.toNat = x.toNat % 2 ^ 63 := fun _ => rfl
  have hzero : (0 : UInt64).toNat = 0 := rfl
  rw [UInt64.or_eq_zero_iff, UInt64.or_eq_zero_iff, hhigh, magnitude128, magnitude128, hbits, hbits,
    ← UInt64.toNat_inj, ← UInt64.toNat_inj, hzero]
  omega

theorem softfloatLt128_eq :
    softfloatLt128 a.v64 a.v0 b.v64 b.v0 = decide (a.toNat < b.toNat) := by
  have ha := a.v0.toNat_lt
  have hb := b.v0.toNat_lt
  rw [Bool.eq_iff_iff, softfloatLt128, Bool.or_eq_true, Bool.and_eq_true, decide_eq_true_eq,
    decide_eq_true_eq, decide_eq_true_eq, beq_iff_eq, UInt64.lt_iff_toNat_lt,
    UInt64.lt_iff_toNat_lt, ← UInt64.toNat_inj, Float128.toNat, Float128.toNat]
  omega

theorem f128Lt_eq_true : f128Lt a b = true ↔ binary128.Less a.toNat b.toNat := by
  unfold f128Lt
  rw [isNaNF128UI_eq, isNaNF128UI_eq, signF128UI64_eq, signF128UI64_eq, softfloatLt128_eq,
    Format.less_iff, Format.key_lt_key (toNat_lt_width128 a) (toNat_lt_width128 b),
    ← and_or_eq_zero, ne_eq, Float128.toNat_inj]
  by_cases hnan : binary128.IsNaN a.toNat ∨ binary128.IsNaN b.toNat
  · rcases hnan with hnan | hnan <;> simp [hnan]
  · obtain ⟨ha, hb⟩ := not_or.1 hnan
    by_cases hsign : binary128.sign a.toNat = binary128.sign b.toNat <;>
      simp [ha, hb, hsign, Classical.or_iff_not_imp_left]

theorem f128Eq_eq_true : f128Eq a b = true ↔ binary128.Equal a.toNat b.toNat := by
  have hzeros : binary128.magnitude a.toNat = 0 ∧ binary128.magnitude b.toNat = 0 ↔
      a.v0 = b.v0 ∧ a.v0 = 0 ∧ (a.v64 ||| b.v64) &&& 0x7FFFFFFFFFFFFFFF = 0 := by
    have hbits : ∀ x : UInt64, binary64.magnitude x.toNat = x.toNat % 2 ^ 63 := fun _ => rfl
    have hzero : (0 : UInt64).toNat = 0 := rfl
    rw [or_and_eq_zero, magnitude128, magnitude128, hbits, hbits, ← UInt64.toNat_inj,
      ← UInt64.toNat_inj, hzero]
    omega
  unfold f128Eq
  rw [isNaNF128UI_eq, isNaNF128UI_eq, Format.equal_iff,
    Format.key_eq_key (toNat_lt_width128 a) (toNat_lt_width128 b), Float128.toNat_inj, hzeros]
  by_cases hnan : binary128.IsNaN a.toNat ∨ binary128.IsNaN b.toNat
  · rcases hnan with hnan | hnan <;> simp [hnan]
  · obtain ⟨ha, hb⟩ := not_or.1 hnan
    simp only [ha, hb, decide_false, Bool.or_self, Bool.false_eq_true, if_false, Bool.and_eq_true,
      Bool.or_eq_true, beq_iff_eq, not_false_eq_true, true_and]
    tauto

end Binary128

end Softfloat

/-! ## The methods -/

namespace CompilerBuiltins

open Api Softfloat

section Methods

variable (la ha lb hb : UInt64)

def unordtf2 : Builtin Int32 := do
  useGas gasCallBase
  let a : Float128 := ⟨la, ha⟩
  let b : Float128 := ⟨lb, hb⟩
  if f128IsNan a || f128IsNan b then return 1
  return 0

/-- `___cmptf2` -/
def cmptf2Or (returnValueIfNan : Int32) : Builtin Int32 := do
  useGas gasCallBase
  let a : Float128 := ⟨la, ha⟩
  let b : Float128 := ⟨lb, hb⟩
  if (← unordtf2 la ha lb hb) != 0 then return returnValueIfNan
  if f128Lt a b then return -1
  if f128Eq a b then return 0
  return 1

def eqtf2 : Builtin Int32 := do
  useGas gasCallBase
  cmptf2Or la ha lb hb 1

def netf2 : Builtin Int32 := do
  useGas gasCallBase
  cmptf2Or la ha lb hb 1

def getf2 : Builtin Int32 := do
  useGas gasCallBase
  cmptf2Or la ha lb hb (-1)

def gttf2 : Builtin Int32 := do
  useGas gasCallBase
  cmptf2Or la ha lb hb 0

def letf2 : Builtin Int32 := do
  useGas gasCallBase
  cmptf2Or la ha lb hb 1

def lttf2 : Builtin Int32 := do
  useGas gasCallBase
  cmptf2Or la ha lb hb 0

end Methods

/-! ## Results -/

section Results

variable (la ha lb hb : UInt64)

/-- One of the operands is a NaN. -/
def Unordered : Prop :=
  binary128.IsNaN (Float128.toNat ⟨la, ha⟩) ∨ binary128.IsNaN (Float128.toNat ⟨lb, hb⟩)

instance : Decidable (Unordered la ha lb hb) := inferInstanceAs (Decidable (_ ∨ _))

/-- Where the number stands in the order. -/
def key (low high : UInt64) : Int := binary128.key (Float128.toNat ⟨low, high⟩)

/-- What `___cmptf2` returns. -/
def compared (returnValueIfNan : Int32) : Int32 :=
  if Unordered la ha lb hb then returnValueIfNan
  else if f128Lt ⟨la, ha⟩ ⟨lb, hb⟩ then -1
  else if f128Eq ⟨la, ha⟩ ⟨lb, hb⟩ then 0
  else 1

theorem unordtf2_returns :
    Returns (unordtf2 la ha lb hb) 100 (if Unordered la ha lb hb then 1 else 0) := by
  have hnan : (f128IsNan ⟨la, ha⟩ || f128IsNan ⟨lb, hb⟩) = decide (Unordered la ha lb hb) := by
    rw [f128IsNan_eq, f128IsNan_eq, ← Bool.decide_or]
    rfl
  have hreturn : Returns (if (f128IsNan ⟨la, ha⟩ || f128IsNan ⟨lb, hb⟩) = true then pure 1 else pure 0)
      0 (if Unordered la ha lb hb then (1 : Int32) else 0) := by
    rw [hnan]
    by_cases h : Unordered la ha lb hb
    · rw [if_pos h, if_pos (decide_eq_true h)]
      exact returns_pure _
    · rw [if_neg h, if_neg (by simpa using h)]
      exact returns_pure _
  exact hreturn.charged

theorem cmptf2Or_returns (returnValueIfNan : Int32) :
    Returns (cmptf2Or la ha lb hb returnValueIfNan) 200
      (compared la ha lb hb returnValueIfNan) := by
  change Returns _ (100 + (100 + 0)) _
  refine Returns.charged ((unordtf2_returns la ha lb hb).bind ?_)
  unfold compared
  by_cases h : Unordered la ha lb hb
  · rw [if_pos h, if_pos h]
    exact returns_pure _
  · rw [if_neg h, if_neg h, if_neg (by decide)]
    by_cases hlt : f128Lt ⟨la, ha⟩ ⟨lb, hb⟩ = true
    · rw [if_pos hlt, if_pos hlt]
      exact returns_pure _
    · rw [if_neg hlt, if_neg hlt]
      by_cases heq : f128Eq ⟨la, ha⟩ ⟨lb, hb⟩ = true
      · rw [if_pos heq, if_pos heq]
        exact returns_pure _
      · rw [if_neg heq, if_neg heq]
        exact returns_pure _

/-- The result is the sign of the order of the operands. -/
theorem compared_cases (returnValueIfNan : Int32) :
    (Unordered la ha lb hb ∧ compared la ha lb hb returnValueIfNan = returnValueIfNan) ∨
    ¬Unordered la ha lb hb ∧
      (key la ha < key lb hb ∧ compared la ha lb hb returnValueIfNan = -1 ∨
        key la ha = key lb hb ∧ compared la ha lb hb returnValueIfNan = 0 ∨
        key lb hb < key la ha ∧ compared la ha lb hb returnValueIfNan = 1) := by
  unfold compared
  by_cases h : Unordered la ha lb hb
  · exact .inl ⟨h, if_pos h⟩
  · have hnans := not_or.1 h
    have hless : f128Lt ⟨la, ha⟩ ⟨lb, hb⟩ = true ↔ key la ha < key lb hb := by
      rw [f128Lt_eq_true, Format.less_iff]
      exact ⟨fun h => h.2.2, fun h => ⟨hnans.1, hnans.2, h⟩⟩
    have hequal : f128Eq ⟨la, ha⟩ ⟨lb, hb⟩ = true ↔ key la ha = key lb hb := by
      rw [f128Eq_eq_true, Format.equal_iff]
      exact ⟨fun h => h.2.2, fun h => ⟨hnans.1, hnans.2, h⟩⟩
    refine .inr ⟨h, ?_⟩
    rw [if_neg h]
    rcases Int.lt_trichotomy (key la ha) (key lb hb) with hlt | heq | hgt
    · exact .inl ⟨hlt, if_pos (hless.2 hlt)⟩
    · exact .inr (.inl ⟨heq, by
        rw [if_neg (mt hless.1 (by omega)), if_pos (hequal.2 heq)]⟩)
    · exact .inr (.inr ⟨hgt, by
        rw [if_neg (mt hless.1 (by omega)), if_neg (mt hequal.1 (by omega))]⟩)

theorem equal_iff_key : binary128.Equal (Float128.toNat ⟨la, ha⟩) (Float128.toNat ⟨lb, hb⟩) ↔
    ¬Unordered la ha lb hb ∧ key la ha = key lb hb := by
  rw [Format.equal_iff, Unordered, not_or, and_assoc]
  rfl

theorem less_iff_key : binary128.Less (Float128.toNat ⟨la, ha⟩) (Float128.toNat ⟨lb, hb⟩) ↔
    ¬Unordered la ha lb hb ∧ key la ha < key lb hb := by
  rw [Format.less_iff, Unordered, not_or, and_assoc]
  rfl

theorem lessEqual_iff_key :
    binary128.LessEqual (Float128.toNat ⟨la, ha⟩) (Float128.toNat ⟨lb, hb⟩) ↔
      ¬Unordered la ha lb hb ∧ key la ha ≤ key lb hb := by
  rw [Format.lessEqual_iff, Unordered, not_or, and_assoc]
  rfl

theorem unordered_comm : Unordered lb hb la ha ↔ Unordered la ha lb hb := or_comm

/-- A question that a NaN answers with no is the comparison that it is for the three signs. -/
theorem asked_compared (asked : Int32 → Prop) (holds : Int → Int → Prop) {returnValueIfNan : Int32}
    (hnan : ¬asked returnValueIfNan) (hless : ∀ k k', k < k' → (asked (-1) ↔ holds k k'))
    (hequal : ∀ k, asked 0 ↔ holds k k) (hgreater : ∀ k k', k' < k → (asked 1 ↔ holds k k')) :
    asked (compared la ha lb hb returnValueIfNan) ↔
      ¬Unordered la ha lb hb ∧ holds (key la ha) (key lb hb) := by
  rcases compared_cases la ha lb hb returnValueIfNan with
    ⟨h, hv⟩ | ⟨h, ⟨hk, hv⟩ | ⟨hk, hv⟩ | ⟨hk, hv⟩⟩
  · rw [hv]
    exact iff_of_false hnan fun hholds => hholds.1 h
  · rw [hv, hless _ _ hk]
    exact (and_iff_right h).symm
  · rw [hv, ← hk, hequal (key la ha)]
    exact (and_iff_right h).symm
  · rw [hv, hgreater _ _ hk]
    exact (and_iff_right h).symm

end Results

/-- A method whose result is asked a question, for its price. -/
def Decides (builtin : Builtin Int32) (price : Nat) (asked : Int32 → Prop) (holds : Prop) : Prop :=
  ∃ value, Returns builtin price value ∧ (asked value ↔ holds)

/-- **The comparisons.** Asked by the sign of the result, as each is meant to be, the comparisons are
those of the numbers: no NaN is equal to anything, less or greater, and the zeros are equal. -/
theorem comparisons_decide (a b : Float128) :
    Decides (eqtf2 a.v0 a.v64 b.v0 b.v64) 300 (· = 0) (binary128.Equal a.toNat b.toNat) ∧
    Decides (netf2 a.v0 a.v64 b.v0 b.v64) 300 (· ≠ 0) (¬binary128.Equal a.toNat b.toNat) ∧
    Decides (lttf2 a.v0 a.v64 b.v0 b.v64) 300 (· < 0) (binary128.Less a.toNat b.toNat) ∧
    Decides (letf2 a.v0 a.v64 b.v0 b.v64) 300 (· ≤ 0) (binary128.LessEqual a.toNat b.toNat) ∧
    Decides (gttf2 a.v0 a.v64 b.v0 b.v64) 300 (0 < ·) (binary128.Less b.toNat a.toNat) ∧
    Decides (getf2 a.v0 a.v64 b.v0 b.v64) 300 (0 ≤ ·) (binary128.LessEqual b.toNat a.toNat) ∧
    Decides (unordtf2 a.v0 a.v64 b.v0 b.v64) 100 (· ≠ 0)
      (binary128.IsNaN a.toNat ∨ binary128.IsNaN b.toNat) := by
  obtain ⟨la, ha⟩ := a
  obtain ⟨lb, hb⟩ := b
  have hreturns := fun returnValueIfNan =>
    (cmptf2Or_returns la ha lb hb returnValueIfNan).charged
  have hequal : compared la ha lb hb 1 = 0 ↔
      binary128.Equal (Float128.toNat ⟨la, ha⟩) (Float128.toNat ⟨lb, hb⟩) := by
    rw [equal_iff_key]
    exact asked_compared la ha lb hb (· = 0) (· = ·) (by decide)
      (fun k k' h => iff_of_false (by decide) (by omega)) (fun k => iff_of_true rfl rfl)
      (fun k k' h => iff_of_false (by decide) (by omega))
  refine ⟨⟨_, hreturns 1, hequal⟩, ⟨_, hreturns 1, not_congr hequal⟩, ⟨_, hreturns 0, ?_⟩,
    ⟨_, hreturns 1, ?_⟩, ⟨_, hreturns 0, ?_⟩, ⟨_, hreturns (-1), ?_⟩,
    ⟨_, unordtf2_returns la ha lb hb, ?_⟩⟩
  · rw [less_iff_key]
    exact asked_compared la ha lb hb (· < 0) (· < ·) (by decide)
      (fun k k' h => iff_of_true (by decide) h) (fun k => iff_of_false (by decide) (by omega))
      (fun k k' h => iff_of_false (by decide) (by omega))
  · rw [lessEqual_iff_key]
    exact asked_compared la ha lb hb (· ≤ 0) (· ≤ ·) (by decide)
      (fun k k' h => iff_of_true (by decide) (by omega))
      (fun k => iff_of_true (by decide) (by omega))
      (fun k k' h => iff_of_false (by decide) (by omega))
  · rw [less_iff_key, unordered_comm]
    exact asked_compared la ha lb hb (0 < ·) (fun k k' => k' < k) (by decide)
      (fun k k' h => iff_of_false (by decide) (by omega))
      (fun k => iff_of_false (by decide) (by omega)) (fun k k' h => iff_of_true (by decide) h)
  · rw [lessEqual_iff_key, unordered_comm]
    exact asked_compared la ha lb hb (0 ≤ ·) (fun k k' => k' ≤ k) (by decide)
      (fun k k' h => iff_of_false (by decide) (by omega))
      (fun k => iff_of_true (by decide) (by omega))
      (fun k k' h => iff_of_true (by decide) (by omega))
  · by_cases h : Unordered la ha lb hb
    · rw [if_pos h]
      exact iff_of_true (by decide) h
    · rw [if_neg h]
      exact iff_of_false (by decide) h

end CompilerBuiltins

end FractalWasm
