import FractalWasm.Exceptions
import FractalWasm.Wasmlib.SoftfloatApi.BitRounding

/-!
# Truncation to integers

`_eosio_f32_trunc_i32s` and its seven companions refuse what is out of range and then convert the
truncated number. The limits are compared with the operand itself, so that a number between two
integers at the limit has to fall on the right side.

**Conversions** (`Conversions`): the vendored functions the intrinsics end in, a parameter with what
is asked of it (`Conversions.Exact`).

**Limits** (`truncTo`): one definition with the two comparisons of a companion, its checks for NaNs,
and the conversion behind them.

**Result** (`truncation_exact_iff`): seven truncate every number whose integer is in range and
refuse the others. `_eosio_f64_trunc_i32s` compares before it truncates and refuses some that are in
range.
-/

namespace FractalWasm

open Codec Ieee Softfloat

namespace SoftfloatApi

/-- The conversions of softfloat: of an operand, in a rounding mode, raising `inexact` or not. -/
structure Conversions where
  f32ToI32 : UInt32 → UInt8 → Bool → Int64
  f64ToI32 : UInt64 → UInt8 → Bool → Int64
  f32ToUi32 : UInt32 → UInt8 → Bool → UInt64
  f64ToUi32 : UInt64 → UInt8 → Bool → UInt64
  f32ToI64 : UInt32 → UInt8 → Bool → Int64
  f64ToI64 : UInt64 → UInt8 → Bool → Int64
  f32ToUi64 : UInt32 → UInt8 → Bool → UInt64
  f64ToUi64 : UInt64 → UInt8 → Bool → UInt64

/-- A conversion returns the integers in its range. -/
def ExactOn (fmt : Format) {α : Type} (bits : α → Nat) (lo hi : ℤ) (convert : α → ℤ) : Prop :=
  ∀ a, fmt.IsFinite (bits a) → ∀ n : ℤ, fmt.value (bits a) = n → lo ≤ n → n ≤ hi → convert a = n

structure Conversions.Exact (c : Conversions) : Prop where
  f32ToI32 : ExactOn binary32 UInt32.toNat (-2 ^ 31) (2 ^ 31 - 1) (c.f32ToI32 · 0 false |>.toInt)
  f64ToI32 : ExactOn binary64 UInt64.toNat (-2 ^ 31) (2 ^ 31 - 1) (c.f64ToI32 · 0 false |>.toInt)
  f32ToUi32 : ExactOn binary32 UInt32.toNat 0 (2 ^ 32 - 1) (c.f32ToUi32 · 0 false |>.toNat)
  f64ToUi32 : ExactOn binary64 UInt64.toNat 0 (2 ^ 32 - 1) (c.f64ToUi32 · 0 false |>.toNat)
  f32ToI64 : ExactOn binary32 UInt32.toNat (-2 ^ 63) (2 ^ 63 - 1) (c.f32ToI64 · 0 false |>.toInt)
  f64ToI64 : ExactOn binary64 UInt64.toNat (-2 ^ 63) (2 ^ 63 - 1) (c.f64ToI64 · 0 false |>.toInt)
  f32ToUi64 : ExactOn binary32 UInt32.toNat 0 (2 ^ 64 - 1) (c.f32ToUi64 · 0 false |>.toNat)
  f64ToUi64 : ExactOn binary64 UInt64.toNat 0 (2 ^ 64 - 1) (c.f64ToUi64 · 0 false |>.toNat)

section Intrinsics

/-- The intrinsics, but for the limits, the name in their messages and the conversion. -/
def truncTo {α β : Type} (overflow isNan : α → Bool) (name : String) (convert : α → β) (a : α) :
    Except Exception β :=
  if overflow a then .error (.ftl .wasmRuntime ("Error, " ++ name ++ " overflow"))
  else if isNan a then .error (.ftl .wasmRuntime ("Error, " ++ name ++ " unrepresentable"))
  else .ok (convert a)

variable (c : Conversions)

def eosioF32TruncI32s (a : UInt32) : Except Exception Int32 :=
  truncTo (fun a => eosioF32Ge a 0x4F000000 || eosioF32Lt a 0xCF000000) isNan32 "f32.convert_s/i32"
    (fun a => (c.f32ToI32 (eosioF32Trunc a) 0 false).toInt32) a

def eosioF64TruncI32s (a : UInt64) : Except Exception Int32 :=
  truncTo (fun a => eosioF64Ge a 0x41E0000000000000 || eosioF64Lt a 0xC1E0000000000000) isNan64
    "f64.convert_s/i32" (fun a => (c.f64ToI32 (eosioF64Trunc a) 0 false).toInt32) a

def eosioF32TruncI32u (a : UInt32) : Except Exception UInt32 :=
  truncTo (fun a => eosioF32Ge a 0x4F800000 || eosioF32Le a 0xBF800000) isNan32 "f32.convert_u/i32"
    (fun a => (c.f32ToUi32 (eosioF32Trunc a) 0 false).toUInt32) a

def eosioF64TruncI32u (a : UInt64) : Except Exception UInt32 :=
  truncTo (fun a => eosioF64Ge a 0x41F0000000000000 || eosioF64Le a 0xBFF0000000000000) isNan64
    "f64.convert_u/i32" (fun a => (c.f64ToUi32 (eosioF64Trunc a) 0 false).toUInt32) a

def eosioF32TruncI64s (a : UInt32) : Except Exception Int64 :=
  truncTo (fun a => eosioF32Ge a 0x5F000000 || eosioF32Lt a 0xDF000000) isNan32 "f32.convert_s/i64"
    (fun a => c.f32ToI64 (eosioF32Trunc a) 0 false) a

def eosioF64TruncI64s (a : UInt64) : Except Exception Int64 :=
  truncTo (fun a => eosioF64Ge a 0x43E0000000000000 || eosioF64Lt a 0xC3E0000000000000) isNan64
    "f64.convert_s/i64" (fun a => c.f64ToI64 (eosioF64Trunc a) 0 false) a

def eosioF32TruncI64u (a : UInt32) : Except Exception UInt64 :=
  truncTo (fun a => eosioF32Ge a 0x5F800000 || eosioF32Le a 0xBF800000) isNan32 "f32.convert_u/i64"
    (fun a => c.f32ToUi64 (eosioF32Trunc a) 0 false) a

def eosioF64TruncI64u (a : UInt64) : Except Exception UInt64 :=
  truncTo (fun a => eosioF64Ge a 0x43F0000000000000 || eosioF64Le a 0xBFF0000000000000) isNan64
    "f64.convert_u/i64" (fun a => c.f64ToUi64 (eosioF64Trunc a) 0 false) a

end Intrinsics

/-! ## What a truncation has to do -/

/-- The truncated number is an integer of the type. -/
def InRange (fmt : Format) (lo hi : ℤ) (p : Nat) : Prop :=
  fmt.IsFinite p ∧ lo ≤ truncate (fmt.value p) ∧ truncate (fmt.value p) ≤ hi

/-- A truncation throws exactly where the operand is a NaN or truncated out of range, and returns the
truncated number elsewhere. -/
def Truncates (fmt : Format) (lo hi : ℤ) (p : Nat) (outcome : Except Exception ℤ) : Prop :=
  ((∃ e, outcome = .error e) ↔ ¬InRange fmt lo hi p) ∧
    ∀ n, outcome = .ok n → n = truncate (fmt.value p)

section Limits

variable {α β : Type} {fmt : Format} {bits : α → Nat} {lo hi : ℤ} {a : α}

/-- The range test decides. -/
theorem truncates_iff {overflow isNan : α → Bool} {name : String} {convert : α → β}
    {toInt : β → ℤ} (hnan : isNan a = decide (fmt.IsNaN (bits a)))
    (hconvert : InRange fmt lo hi (bits a) → toInt (convert a) = truncate (fmt.value (bits a)))
    {P : Prop} (htest : overflow a = true ∨ fmt.IsNaN (bits a) ↔ P) :
    Truncates fmt lo hi (bits a) ((truncTo overflow isNan name convert a).map toInt) ↔
      (P ↔ ¬InRange fmt lo hi (bits a)) := by
  have hthrows : (∃ e, (truncTo overflow isNan name convert a).map toInt = .error e) ↔ P := by
    rw [← htest, truncTo, hnan]
    cases overflow a
    · by_cases h : fmt.IsNaN (bits a) <;> simp [h, Except.map]
    · simp [Except.map]
  unfold Truncates
  rw [hthrows, and_iff_left_iff_imp]
  intro hiff n hn
  have hnot : ¬P := by
    rw [← hthrows, hn]
    simp
  have hrange := not_not.1 (mt hiff.2 hnot)
  rw [← hconvert hrange]
  unfold truncTo at hn
  split at hn
  · simp [Except.map] at hn
  · split at hn
    · simp [Except.map] at hn
    · simpa [Except.map] using hn.symm

/-- A comparison with a finite limit from below. -/
theorem key_le_iff {p c : Nat} (hp : ¬fmt.IsNaN p) (hc : fmt.IsFinite c) : fmt.key c ≤ fmt.key p ↔
    fmt.IsFinite p ∧ fmt.value c ≤ fmt.value p ∨ ¬fmt.IsFinite p ∧ fmt.sign p = false := by
  by_cases hfinite : fmt.IsFinite p
  · simp only [hfinite, true_and, not_true_eq_false, false_and, or_false]
    rw [← not_lt, ← not_lt, Format.value_lt_value]
  · have hbounds := Format.key_bounds hc
    rw [Format.key_of_infinite hp hfinite]
    cases fmt.sign p <;> simp [hfinite] <;> omega

/-- A comparison with a finite limit from above. -/
theorem le_key_iff {p c : Nat} (hp : ¬fmt.IsNaN p) (hc : fmt.IsFinite c) : fmt.key p ≤ fmt.key c ↔
    fmt.IsFinite p ∧ fmt.value p ≤ fmt.value c ∨ ¬fmt.IsFinite p ∧ fmt.sign p = true := by
  by_cases hfinite : fmt.IsFinite p
  · simp only [hfinite, true_and, not_true_eq_false, false_and, or_false]
    rw [← not_lt, ← not_lt, Format.value_lt_value]
  · have hbounds := Format.key_bounds hc
    rw [Format.key_of_infinite hp hfinite]
    cases fmt.sign p <;> simp [hfinite] <;> omega

/-- A limit as it is written into the code: a power of two. -/
theorem limit {s : Bool} {j : Nat} (hj : j ≤ fmt.bias) {p : Nat}
    (hp : p = fmt.pack s ((fmt.bias + j) * 2 ^ fmt.fracBits)) :
    fmt.IsFinite p ∧ fmt.value p = if s then -2 ^ j else 2 ^ j := by
  have hlt : (fmt.bias + j) * 2 ^ fmt.fracBits < fmt.infinity := by
    rw [Format.infinity_eq]
    exact Nat.mul_lt_mul_of_pos_right (by omega) (Nat.two_pow_pos _)
  rw [hp, Format.value_pack hlt, Format.number_binade]
  exact ⟨Format.isFinite_pack hlt, rfl⟩

variable {ops : Relops α} {high low : α} {j : Nat}

/-- The test of the signed types lets through what is not below the limit. -/
theorem signed_test (h : ops.Spec fmt bits) (hj : j ≤ fmt.bias)
    (hhigh : bits high = fmt.pack false ((fmt.bias + j) * 2 ^ fmt.fracBits))
    (hlow : bits low = fmt.pack true ((fmt.bias + j) * 2 ^ fmt.fracBits)) (a : α) :
    (ops.ge a high || ops.lt a low) = true ∨ fmt.IsNaN (bits a) ↔
      ¬(fmt.IsFinite (bits a) ∧ -2 ^ j ≤ fmt.value (bits a) ∧ fmt.value (bits a) < 2 ^ j) := by
  obtain ⟨hfinite, hvalue⟩ := limit hj hhigh
  obtain ⟨hfinite', hvalue'⟩ := limit hj hlow
  rw [Bool.or_eq_true, h.ge, h.lt]
  by_cases hnan : fmt.IsNaN (bits a)
  · simp only [hnan, or_true, true_iff]
    omega
  · simp only [hnan, not_false_eq_true, true_and, or_false, Nat.not_lt.2 (Nat.le_of_lt hfinite),
      Nat.not_lt.2 (Nat.le_of_lt hfinite'), ← Int.not_le]
    rw [key_le_iff hnan hfinite, key_le_iff hnan hfinite', hvalue, hvalue']
    by_cases ha : fmt.IsFinite (bits a)
    · simp only [ha, true_and, not_true_eq_false, false_and, or_false, Bool.false_eq_true, if_false,
        if_true, not_and_or, not_le, not_lt]
      tauto
    · cases hs : fmt.sign (bits a) <;> simp [ha]

/-- The test of the unsigned types lets through what is above minus one. -/
theorem unsigned_test (h : ops.Spec fmt bits) (hj : j ≤ fmt.bias)
    (hhigh : bits high = fmt.pack false ((fmt.bias + j) * 2 ^ fmt.fracBits))
    (hlow : bits low = fmt.pack true ((fmt.bias + 0) * 2 ^ fmt.fracBits)) (a : α) :
    (ops.ge a high || ops.le a low) = true ∨ fmt.IsNaN (bits a) ↔
      ¬(fmt.IsFinite (bits a) ∧ -1 < fmt.value (bits a) ∧ fmt.value (bits a) < 2 ^ j) := by
  obtain ⟨hfinite, hvalue⟩ := limit hj hhigh
  obtain ⟨hfinite', hvalue'⟩ := limit (Nat.zero_le _) hlow
  rw [Bool.or_eq_true, h.ge, h.le]
  by_cases hnan : fmt.IsNaN (bits a)
  · simp only [hnan, or_true, true_iff]
    omega
  · simp only [hnan, not_false_eq_true, true_and, or_false, Nat.not_lt.2 (Nat.le_of_lt hfinite),
      Nat.not_lt.2 (Nat.le_of_lt hfinite')]
    rw [key_le_iff hnan hfinite, le_key_iff hnan hfinite', hvalue, hvalue']
    by_cases ha : fmt.IsFinite (bits a)
    · simp only [ha, true_and, not_true_eq_false, false_and, or_false, Bool.false_eq_true, if_false,
        if_true, not_and_or, not_lt, pow_zero]
      tauto
    · cases hs : fmt.sign (bits a) <;> simp [ha]

/-- A signed type is met but for the operands between its least integer and the one below. -/
theorem signed_iff (fmt : Format) (p j : Nat) :
    (¬(fmt.IsFinite p ∧ -2 ^ j ≤ fmt.value p ∧ fmt.value p < 2 ^ j) ↔
      ¬InRange fmt (-2 ^ j) (2 ^ j - 1) p) ↔
    ¬(fmt.IsFinite p ∧ -2 ^ j - 1 < fmt.value p ∧ fmt.value p < -2 ^ j) := by
  have hpow : (0 : ℤ) < 2 ^ j := by positivity
  have hpow' : (0 : ℚ) < 2 ^ j := by positivity
  unfold InRange
  rw [le_truncate (by omega), truncate_le (by omega)]
  push_cast
  rw [sub_add_cancel]
  constructor
  · rintro hiff ⟨hfinite, hlow, hhigh⟩
    have hrange := (not_iff_not.1 hiff).2 ⟨hfinite, hlow, by linarith⟩
    exact absurd hrange.2.1 (not_le.2 hhigh)
  · intro hnot
    refine not_iff_not.2 ⟨fun ⟨hfinite, hlow, hhigh⟩ => ⟨hfinite, by linarith, hhigh⟩, ?_⟩
    rintro ⟨hfinite, hlow, hhigh⟩
    exact ⟨hfinite, not_lt.1 fun hlt => hnot ⟨hfinite, hlow, hlt⟩, hhigh⟩

/-- With less room for a fraction than the limit is large there are no such operands. -/
theorem not_between (hj : fmt.fracBits ≤ j) (p : Nat) :
    ¬(fmt.IsFinite p ∧ -2 ^ j - 1 < fmt.value p ∧ fmt.value p < -2 ^ j) := by
  rintro ⟨-, hlow, hhigh⟩
  have hpow : (2 : ℚ) ^ fmt.fracBits ≤ 2 ^ j := pow_le_pow_right₀ one_le_two hj
  have hnonneg : (0 : ℚ) ≤ 2 ^ fmt.fracBits := by positivity
  obtain ⟨n, hn⟩ := Format.exists_value_eq_of_le (p := p)
    (by rw [abs_of_nonpos (by linarith)]; linarith)
  rw [hn] at hlow hhigh
  have hlow' : -2 ^ j - 1 < n := by exact_mod_cast hlow
  have hhigh' : n < -2 ^ j := by exact_mod_cast hhigh
  omega

theorem unsigned_iff (fmt : Format) (p j : Nat) :
    ¬(fmt.IsFinite p ∧ -1 < fmt.value p ∧ fmt.value p < 2 ^ j) ↔
      ¬InRange fmt 0 (2 ^ j - 1) p := by
  have hpow : (0 : ℤ) < 2 ^ j := by positivity
  unfold InRange
  rw [le_truncate (le_refl 0), truncate_le (by omega)]
  push_cast
  rw [sub_add_cancel, zero_sub]

end Limits

/-! ## The intrinsics -/

section Exact

variable {c : Conversions} (hc : c.Exact)

/-- A conversion is given the truncated operand. -/
theorem ExactOn.truncate {α : Type} {fmt : Format} {bits : α → Nat} {lo hi : ℤ} {convert : α → ℤ}
    (h : ExactOn fmt bits lo hi convert) {a r : α}
    (hr : fmt.RoundsTo truncate (bits a) (bits r)) (hrange : InRange fmt lo hi (bits a)) :
    convert r = Ieee.truncate (fmt.value (bits a)) := by
  obtain ⟨hfinite, hvalue⟩ := hr.finite hrange.1
  exact h r hfinite _ hvalue hrange.2.1 hrange.2.2

theorem toInt_toInt32 {x : Int64} {n : ℤ} (hx : x.toInt = n) (hlow : -2 ^ 31 ≤ n)
    (hhigh : n ≤ 2 ^ 31 - 1) : x.toInt32.toInt = n := by
  rw [Int64.toInt_toInt32, hx]
  exact Int.bmod_eq_of_le (by omega) (by omega)

theorem toNat_toUInt32 {x : UInt64} {n : ℤ} (hx : (x.toNat : ℤ) = n) (hhigh : n ≤ 2 ^ 32 - 1) :
    (x.toUInt32.toNat : ℤ) = n := by
  rw [UInt64.toNat_toUInt32]
  omega

include hc

theorem eosioF32TruncI32s_truncates (a : UInt32) :
    Truncates binary32 (-2 ^ 31) (2 ^ 31 - 1) a.toNat ((eosioF32TruncI32s c a).map Int32.toInt) :=
  (truncates_iff (f32IsNan_eq a) (fun hrange => toInt_toInt32
      (hc.f32ToI32.truncate (eosioF32Trunc_roundsTo a) hrange) hrange.2.1 hrange.2.2)
    (signed_test f32Relops_spec (by decide) rfl rfl a)).2
    ((signed_iff _ _ _).2 (not_between (by decide) _))

theorem eosioF64TruncI32s_truncates_iff (a : UInt64) :
    Truncates binary64 (-2 ^ 31) (2 ^ 31 - 1) a.toNat
        ((eosioF64TruncI32s c a).map Int32.toInt) ↔
      ¬(binary64.IsFinite a.toNat ∧
        -2 ^ 31 - 1 < binary64.value a.toNat ∧ binary64.value a.toNat < -2 ^ 31) :=
  (truncates_iff (f64IsNan_eq a) (fun hrange => toInt_toInt32
      (hc.f64ToI32.truncate (eosioF64Trunc_roundsTo a) hrange) hrange.2.1 hrange.2.2)
    (signed_test f64Relops_spec (by decide) rfl rfl a)).trans (signed_iff _ _ _)

theorem eosioF32TruncI64s_truncates (a : UInt32) :
    Truncates binary32 (-2 ^ 63) (2 ^ 63 - 1) a.toNat ((eosioF32TruncI64s c a).map Int64.toInt) :=
  (truncates_iff (f32IsNan_eq a) (hc.f32ToI64.truncate (eosioF32Trunc_roundsTo a))
    (signed_test f32Relops_spec (by decide) rfl rfl a)).2
    ((signed_iff _ _ _).2 (not_between (by decide) _))

theorem eosioF64TruncI64s_truncates (a : UInt64) :
    Truncates binary64 (-2 ^ 63) (2 ^ 63 - 1) a.toNat ((eosioF64TruncI64s c a).map Int64.toInt) :=
  (truncates_iff (f64IsNan_eq a) (hc.f64ToI64.truncate (eosioF64Trunc_roundsTo a))
    (signed_test f64Relops_spec (by decide) rfl rfl a)).2
    ((signed_iff _ _ _).2 (not_between (by decide) _))

theorem eosioF32TruncI32u_truncates (a : UInt32) :
    Truncates binary32 0 (2 ^ 32 - 1) a.toNat
      ((eosioF32TruncI32u c a).map fun n => (n.toNat : ℤ)) :=
  (truncates_iff (f32IsNan_eq a) (fun hrange => toNat_toUInt32
      (hc.f32ToUi32.truncate (eosioF32Trunc_roundsTo a) hrange) hrange.2.2)
    (unsigned_test f32Relops_spec (by decide) rfl rfl a)).2 (unsigned_iff _ _ _)

theorem eosioF64TruncI32u_truncates (a : UInt64) :
    Truncates binary64 0 (2 ^ 32 - 1) a.toNat
      ((eosioF64TruncI32u c a).map fun n => (n.toNat : ℤ)) :=
  (truncates_iff (f64IsNan_eq a) (fun hrange => toNat_toUInt32
      (hc.f64ToUi32.truncate (eosioF64Trunc_roundsTo a) hrange) hrange.2.2)
    (unsigned_test f64Relops_spec (by decide) rfl rfl a)).2 (unsigned_iff _ _ _)

theorem eosioF32TruncI64u_truncates (a : UInt32) :
    Truncates binary32 0 (2 ^ 64 - 1) a.toNat
      ((eosioF32TruncI64u c a).map fun n => (n.toNat : ℤ)) :=
  (truncates_iff (f32IsNan_eq a) (hc.f32ToUi64.truncate (eosioF32Trunc_roundsTo a))
    (unsigned_test f32Relops_spec (by decide) rfl rfl a)).2 (unsigned_iff _ _ _)

theorem eosioF64TruncI64u_truncates (a : UInt64) :
    Truncates binary64 0 (2 ^ 64 - 1) a.toNat
      ((eosioF64TruncI64u c a).map fun n => (n.toNat : ℤ)) :=
  (truncates_iff (f64IsNan_eq a) (hc.f64ToUi64.truncate (eosioF64Trunc_roundsTo a))
    (unsigned_test f64Relops_spec (by decide) rfl rfl a)).2 (unsigned_iff _ _ _)

end Exact

/-- **Truncation to integers, and its one gap.** Seven of the intrinsics throw exactly for NaNs and
for numbers that are out of range when truncated, and return the truncated number otherwise. So does
the one from 64 bits to signed integers of 32, but for the operands between the least integer and the
one below, which it refuses. -/
theorem truncation_exact_iff {c : Conversions} (hc : c.Exact) (a : UInt32) (b : UInt64) :
    Truncates binary32 (-2 ^ 31) (2 ^ 31 - 1) a.toNat
        ((eosioF32TruncI32s c a).map Int32.toInt) ∧
      (Truncates binary64 (-2 ^ 31) (2 ^ 31 - 1) b.toNat
          ((eosioF64TruncI32s c b).map Int32.toInt) ↔
        ¬(binary64.IsFinite b.toNat ∧
          -2 ^ 31 - 1 < binary64.value b.toNat ∧ binary64.value b.toNat < -2 ^ 31)) ∧
      Truncates binary32 0 (2 ^ 32 - 1) a.toNat
        ((eosioF32TruncI32u c a).map fun n => (n.toNat : ℤ)) ∧
      Truncates binary64 0 (2 ^ 32 - 1) b.toNat
        ((eosioF64TruncI32u c b).map fun n => (n.toNat : ℤ)) ∧
      Truncates binary32 (-2 ^ 63) (2 ^ 63 - 1) a.toNat
        ((eosioF32TruncI64s c a).map Int64.toInt) ∧
      Truncates binary64 (-2 ^ 63) (2 ^ 63 - 1) b.toNat
        ((eosioF64TruncI64s c b).map Int64.toInt) ∧
      Truncates binary32 0 (2 ^ 64 - 1) a.toNat
        ((eosioF32TruncI64u c a).map fun n => (n.toNat : ℤ)) ∧
      Truncates binary64 0 (2 ^ 64 - 1) b.toNat
        ((eosioF64TruncI64u c b).map fun n => (n.toNat : ℤ)) :=
  ⟨eosioF32TruncI32s_truncates hc a, eosioF64TruncI32s_truncates_iff hc b,
    eosioF32TruncI32u_truncates hc a, eosioF64TruncI32u_truncates hc b,
    eosioF32TruncI64s_truncates hc a, eosioF64TruncI64s_truncates hc b,
    eosioF32TruncI64u_truncates hc a, eosioF64TruncI64u_truncates hc b⟩

/-- Conversions of the number of a pattern. -/
def numberConversions : Conversions where
  f32ToI32 a _ _ := Int64.ofInt (truncate (binary32.value a.toNat))
  f64ToI32 a _ _ := Int64.ofInt (truncate (binary64.value a.toNat))
  f32ToUi32 a _ _ := UInt64.ofNat (truncate (binary32.value a.toNat)).toNat
  f64ToUi32 a _ _ := UInt64.ofNat (truncate (binary64.value a.toNat)).toNat
  f32ToI64 a _ _ := Int64.ofInt (truncate (binary32.value a.toNat))
  f64ToI64 a _ _ := Int64.ofInt (truncate (binary64.value a.toNat))
  f32ToUi64 a _ _ := UInt64.ofNat (truncate (binary32.value a.toNat)).toNat
  f64ToUi64 a _ _ := UInt64.ofNat (truncate (binary64.value a.toNat)).toNat

theorem exactOn_signed {α : Type} (fmt : Format) (bits : α → Nat) {lo hi : ℤ} (hlo : -2 ^ 63 ≤ lo)
    (hhi : hi < 2 ^ 63) :
    ExactOn fmt bits lo hi fun a => (Int64.ofInt (truncate (fmt.value (bits a)))).toInt := by
  intro a _ n hn hlow hhigh
  simp only [hn, truncate_intCast]
  exact Int64.toInt_ofInt_of_le (by omega) (by omega)

theorem exactOn_unsigned {α : Type} (fmt : Format) (bits : α → Nat) {hi : ℤ} (hhi : hi < 2 ^ 64) :
    ExactOn fmt bits 0 hi
      fun a => ((UInt64.ofNat (truncate (fmt.value (bits a))).toNat).toNat : ℤ) := by
  intro a _ n hn hlow hhigh
  simp only [hn, truncate_intCast]
  rw [UInt64.toNat_ofNat_of_lt' (by simp only [UInt64.size]; omega), Int.toNat_of_nonneg hlow]

theorem numberConversions_exact : numberConversions.Exact where
  f32ToI32 := exactOn_signed _ _ (by decide) (by decide)
  f64ToI32 := exactOn_signed _ _ (by decide) (by decide)
  f32ToUi32 := exactOn_unsigned _ _ (by decide)
  f64ToUi32 := exactOn_unsigned _ _ (by decide)
  f32ToI64 := exactOn_signed _ _ (by decide) (by decide)
  f64ToI64 := exactOn_signed _ _ (by decide) (by decide)
  f32ToUi64 := exactOn_unsigned _ _ (by decide)
  f64ToUi64 := exactOn_unsigned _ _ (by decide)

/-- The operands are 1.5 and -1.5. -/
theorem truncation_exact_iff_sample :
    Truncates binary32 (-2 ^ 31) (2 ^ 31 - 1) 0x3FC00000
        ((eosioF32TruncI32s numberConversions 0x3FC00000).map Int32.toInt) ∧
      Truncates binary64 (-2 ^ 31) (2 ^ 31 - 1) 0xBFF8000000000000
        ((eosioF64TruncI32s numberConversions 0xBFF8000000000000).map Int32.toInt) := by
  have hexact := truncation_exact_iff numberConversions_exact 0x3FC00000 0xBFF8000000000000
  exact ⟨hexact.1, hexact.2.1.2 (by decide +kernel)⟩

/-- The number is -2147483648.5, which is truncated to the least integer of 32 bits. -/
theorem between_limits_refused :
    eosioF64TruncI32s numberConversions 0xC1E0000000100000 =
        .error (.ftl .wasmRuntime "Error, f64.convert_s/i32 overflow") ∧
      InRange binary64 (-2 ^ 31) (2 ^ 31 - 1) 0xC1E0000000100000 ∧
      ¬Truncates binary64 (-2 ^ 31) (2 ^ 31 - 1) 0xC1E0000000100000
        ((eosioF64TruncI32s numberConversions 0xC1E0000000100000).map Int32.toInt) := by
  have hrange : InRange binary64 (-2 ^ 31) (2 ^ 31 - 1) 0xC1E0000000100000 := by
    unfold InRange
    decide +kernel
  have herror : eosioF64TruncI32s numberConversions 0xC1E0000000100000 =
      .error (.ftl .wasmRuntime "Error, f64.convert_s/i32 overflow") := by
    decide +kernel
  refine ⟨herror, hrange, fun htruncates => ?_⟩
  rw [herror] at htruncates
  exact htruncates.1.1 ⟨_, rfl⟩ hrange

end SoftfloatApi

end FractalWasm
