import FractalWasm.Ieee.Rounding
import FractalWasm.Wasmlib.SoftfloatApi.Relops

/-!
# Rounding by masks

`ceil`, `floor` and `trunc` at 32 bits, and `trunc` at 64, are lifted from libc: they mask the bits
below one, which the exponent tells, and add the mask first where the magnitude has to grow.

**Fields**: the exponent and the sign that the code takes by shifts and masks are those of the
format.

**Masks**: clearing the bits below one gives the integer towards zero; adding the mask first carries
into the next one, also into the exponent.

Each intrinsic returns the integer its name asks for, or the operand where it is an integer, an
infinity or a NaN (`mask_rounding_exact`).
-/

namespace FractalWasm

open Codec Ieee Softfloat

namespace SoftfloatApi

def eosioF32Ceil (a : UInt32) : UInt32 :=
  let e : Int := (a >>> 23 &&& 0xFF).toNat - 0x7F
  if e ≥ 23 then a
  else if e ≥ 0 then
    let m : UInt32 := 0x007FFFFF >>> e.toNat.toUInt32
    if a &&& m == 0 then a
    else (if a >>> 31 == 0 then a + m else a) &&& ~~~m
  else if a >>> 31 != 0 then 0x80000000
  else if a <<< 1 != 0 then 0x3F800000
  else a

def eosioF32Floor (a : UInt32) : UInt32 :=
  let e : Int := (a >>> 23 &&& 0xFF).toNat - 0x7F
  if e ≥ 23 then a
  else if e ≥ 0 then
    let m : UInt32 := 0x007FFFFF >>> e.toNat.toUInt32
    if a &&& m == 0 then a
    else (if a >>> 31 != 0 then a + m else a) &&& ~~~m
  else if a >>> 31 == 0 then 0
  else if a <<< 1 != 0 then 0xBF800000
  else a

def eosioF32Trunc (a : UInt32) : UInt32 :=
  let e : Int := (a >>> 23 &&& 0xFF).toNat - 0x7F + 9
  if e ≥ 23 + 9 then a
  else
    let e := if e < 9 then 1 else e
    let m : UInt32 := 0xFFFFFFFF >>> e.toNat.toUInt32
    if a &&& m == 0 then a
    else a &&& ~~~m

def eosioF64Trunc (a : UInt64) : UInt64 :=
  let e : Int := (a >>> 52 &&& 0x7FF).toNat - 0x3FF + 12
  if e ≥ 52 + 12 then a
  else
    let e := if e < 12 then 1 else e
    let m : UInt64 := 0xFFFFFFFFFFFFFFFF >>> e.toNat.toUInt64
    if a &&& m == 0 then a
    else a &&& ~~~m

/-! ## Fields -/

theorem toNat_exponent32 (a : UInt32) :
    (a >>> 23 &&& 0xFF).toNat = binary32.exponent a.toNat := by
  have hmask : (a >>> 23 &&& 0xFF).toNat = (a >>> 23).toNat % 2 ^ 8 := toNat_and_mask32 rfl
  have hshift : (a >>> 23).toNat = a.toNat / 2 ^ 23 := toNat_shiftRight32 rfl (by decide)
  have hexponent : binary32.exponent a.toNat = a.toNat % 2 ^ 31 / 2 ^ 23 := rfl
  rw [hmask, hshift, hexponent]
  omega

theorem toNat_exponent64 (a : UInt64) :
    (a >>> 52 &&& 0x7FF).toNat = binary64.exponent a.toNat := by
  have hmask : (a >>> 52 &&& 0x7FF).toNat = (a >>> 52).toNat % 2 ^ 11 := toNat_and_mask64 rfl
  have hshift : (a >>> 52).toNat = a.toNat / 2 ^ 52 := toNat_shiftRight64 rfl (by decide)
  have hexponent : binary64.exponent a.toNat = a.toNat % 2 ^ 63 / 2 ^ 52 := rfl
  rw [hmask, hshift, hexponent]
  omega

/-! ## Clearing and carrying -/

section Binary32

variable {a m : UInt32} {k : Nat}

theorem toNat_cleared32 (hm : m.toNat = 2 ^ k - 1) (hk : k < 32) :
    (if a &&& m == 0 then a else a &&& ~~~m).toNat = a.toNat / 2 ^ k * 2 ^ k := by
  split
  · next hzero =>
    have hmod : a.toNat % 2 ^ k = 0 := by
      rw [← toNat_and_mask32 hm, eq_of_beq hzero]
      rfl
    exact (Nat.div_mul_cancel (Nat.dvd_of_mod_eq_zero hmod)).symm
  · exact toNat_and_not_mask32 hk hm

theorem toNat_carried32 (hm : m.toNat = 2 ^ k - 1) (hk : k < 32)
    (hlt : a.toNat + (2 ^ k - 1) < 2 ^ 32) :
    (if a &&& m == 0 then a else (a + m) &&& ~~~m).toNat =
      (a.toNat + (2 ^ k - 1)) / 2 ^ k * 2 ^ k := by
  have hsum : (a + m).toNat = a.toNat + (2 ^ k - 1) := by
    rw [UInt32.toNat_add, hm, Nat.mod_eq_of_lt hlt]
  split
  · next hzero =>
    have hmod : a.toNat % 2 ^ k = 0 := by
      rw [← toNat_and_mask32 hm, eq_of_beq hzero]
      rfl
    obtain ⟨n, hn⟩ := Nat.dvd_of_mod_eq_zero hmod
    have hpos := Nat.two_pow_pos k
    rw [hn, Nat.add_comm, Nat.add_mul_div_left _ _ hpos, Nat.div_eq_of_lt (by omega), Nat.zero_add,
      Nat.mul_comm]
  · rw [toNat_and_not_mask32 hk hm, hsum]

end Binary32

section Binary64

variable {a m : UInt64} {k : Nat}

theorem toNat_cleared64 (hm : m.toNat = 2 ^ k - 1) (hk : k < 64) :
    (if a &&& m == 0 then a else a &&& ~~~m).toNat = a.toNat / 2 ^ k * 2 ^ k := by
  split
  · next hzero =>
    have hmod : a.toNat % 2 ^ k = 0 := by
      rw [← toNat_and_mask64 hm, eq_of_beq hzero]
      rfl
    exact (Nat.div_mul_cancel (Nat.dvd_of_mod_eq_zero hmod)).symm
  · exact toNat_and_not_mask64 hk hm

end Binary64

/-! ## The intrinsics -/

theorem eosioF32Trunc_roundsTo (a : UInt32) :
    binary32.RoundsTo truncate a.toNat (eosioF32Trunc a).toNat := by
  have hbias : binary32.bias = 127 := rfl
  have hfrac : binary32.fracBits = 23 := rfl
  have hbits : binary32.exponent a.toNat = a.toNat % 2 ^ 31 / 2 ^ 23 := rfl
  unfold eosioF32Trunc
  simp only [toNat_exponent32]
  split
  · exact .refl truncate_intCast fun _ => Format.exists_value_eq (by omega)
  · next hsmall =>
    split
    · -- Below one only the sign is left.
      have hm : ((0xFFFFFFFF : UInt32) >>> (1 : Int).toNat.toUInt32).toNat = 2 ^ 31 - 1 := rfl
      have hpack : a.toNat / 2 ^ 31 * 2 ^ 31 = binary32.pack (binary32.sign a.toNat) 0 :=
        Format.pack_sign_zero (toNat_lt_width32 a)
      rw [toNat_cleared32 hm (by omega), hpack]
      exact Format.roundsTo_truncate_zero (toNat_lt_width32 a) (by omega)
    · next hlarge =>
      obtain ⟨n, hn⟩ : ∃ n : Nat, (binary32.exponent a.toNat : Int) - 0x7F + 9 = n :=
        ⟨_, (Int.toNat_of_nonneg (by omega)).symm⟩
      obtain ⟨k, hk⟩ : ∃ k, k + n = 32 := ⟨32 - n, by omega⟩
      have hm : ((0xFFFFFFFF : UInt32) >>> n.toUInt32).toNat = 2 ^ k - 1 :=
        toNat_mask_shiftRight32 (by rw [hk]; rfl) (by omega)
      rw [hn, Int.toNat_natCast, toNat_cleared32 hm (by omega)]
      exact Format.roundsTo_truncate (toNat_lt_width32 a) (by omega) (by omega) (by omega)

theorem eosioF64Trunc_roundsTo (a : UInt64) :
    binary64.RoundsTo truncate a.toNat (eosioF64Trunc a).toNat := by
  have hbias : binary64.bias = 1023 := rfl
  have hfrac : binary64.fracBits = 52 := rfl
  have hbits : binary64.exponent a.toNat = a.toNat % 2 ^ 63 / 2 ^ 52 := rfl
  unfold eosioF64Trunc
  simp only [toNat_exponent64]
  split
  · exact .refl truncate_intCast fun _ => Format.exists_value_eq (by omega)
  · next hsmall =>
    split
    · -- Below one only the sign is left.
      have hm : ((0xFFFFFFFFFFFFFFFF : UInt64) >>> (1 : Int).toNat.toUInt64).toNat = 2 ^ 63 - 1 :=
        rfl
      have hpack : a.toNat / 2 ^ 63 * 2 ^ 63 = binary64.pack (binary64.sign a.toNat) 0 :=
        Format.pack_sign_zero (toNat_lt_width64 a)
      rw [toNat_cleared64 hm (by omega), hpack]
      exact Format.roundsTo_truncate_zero (toNat_lt_width64 a) (by omega)
    · next hlarge =>
      obtain ⟨n, hn⟩ : ∃ n : Nat, (binary64.exponent a.toNat : Int) - 0x3FF + 12 = n :=
        ⟨_, (Int.toNat_of_nonneg (by omega)).symm⟩
      obtain ⟨k, hk⟩ : ∃ k, k + n = 64 := ⟨64 - n, by omega⟩
      have hm : ((0xFFFFFFFFFFFFFFFF : UInt64) >>> n.toUInt64).toNat = 2 ^ k - 1 :=
        toNat_mask_shiftRight64 (by rw [hk]; rfl) (by omega)
      rw [hn, Int.toNat_natCast, toNat_cleared64 hm (by omega)]
      exact Format.roundsTo_truncate (toNat_lt_width64 a) (by omega) (by omega) (by omega)

/-- With a part below one, `ceil` and `floor` mask it, one sign of them after a carry. -/
theorem masked_roundsTo {a : UInt32} {n : Nat} (carry : Bool)
    (hn : binary32.exponent a.toNat = 0x7F + n) (hlt : n < 23) :
    let m : UInt32 := 0x007FFFFF >>> n.toUInt32
    binary32.RoundsTo (if carry then awayFromZero else truncate) a.toNat
      (if a &&& m == 0 then a else (if carry then a + m else a) &&& ~~~m).toNat := by
  have hbias : binary32.bias = 127 := rfl
  have hfrac : binary32.fracBits = 23 := rfl
  have hbits : binary32.exponent a.toNat = a.toNat % 2 ^ 31 / 2 ^ 23 := rfl
  obtain ⟨k, hk⟩ : ∃ k, k + n = 23 := ⟨23 - n, by omega⟩
  have hm : ((0x007FFFFF : UInt32) >>> n.toUInt32).toNat = 2 ^ k - 1 :=
    toNat_mask_shiftRight32 (by rw [hk]; rfl) (by omega)
  intro m
  cases carry
  · simp only [Bool.false_eq_true, if_false]
    rw [toNat_cleared32 hm (by omega)]
    exact Format.roundsTo_truncate (toNat_lt_width32 a) (by omega) (by omega) (by omega)
  · have hmask : 2 ^ k ≤ 2 ^ 23 := Nat.pow_le_pow_right (by omega) (by omega)
    have hbound := a.toNat_lt
    simp only [if_true]
    rw [toNat_carried32 hm (by omega) (by omega)]
    exact Format.roundsTo_awayFromZero (toNat_lt_width32 a) (by omega) (by omega) (by omega)

theorem shiftRight_eq_zero (a : UInt32) : (a >>> 31 == 0) = !binary32.sign a.toNat := by
  rw [← signF32UI_eq, signF32UI, bne, Bool.not_not]

theorem shiftRight_ne_zero (a : UInt32) : (a >>> 31 != 0) = binary32.sign a.toNat :=
  signF32UI_eq a

theorem shiftLeft_eq_zero (a : UInt32) : a <<< 1 = 0 ↔ binary32.magnitude a.toNat = 0 := by
  have hor := or_shiftLeft_eq_zero a a
  rwa [UInt32.or_self, and_self] at hor

/-- A zero is an integer. -/
theorem roundsTo_zero {a : UInt32} {round : ℚ → ℤ} (hround : ∀ n : ℤ, round n = n)
    (hzero : a <<< 1 = 0) : binary32.RoundsTo round a.toNat a.toNat := by
  refine .refl hround fun _ => ⟨0, ?_⟩
  rw [Format.value_of_magnitude_eq_zero ((shiftLeft_eq_zero a).1 hzero), Int.cast_zero]

theorem eosioF32Ceil_roundsTo (a : UInt32) :
    binary32.RoundsTo Int.ceil a.toNat (eosioF32Ceil a).toNat := by
  have hbias : binary32.bias = 127 := rfl
  have hfrac : binary32.fracBits = 23 := rfl
  have hinteger : ∀ n : ℤ, ⌈(n : ℚ)⌉ = n := Int.ceil_intCast
  have hwidth := toNat_lt_width32 a
  have hsign : (if !binary32.sign a.toNat then awayFromZero else truncate)
      (binary32.value a.toNat) = ⌈binary32.value a.toNat⌉ := by
    cases hs : binary32.sign a.toNat
    · exact awayFromZero_of_nonneg (Format.value_nonneg hs)
    · exact truncate_of_nonpos (Format.value_nonpos hs)
  unfold eosioF32Ceil
  simp only [toNat_exponent32, shiftRight_eq_zero, shiftRight_ne_zero]
  split
  · exact .refl hinteger fun _ => Format.exists_value_eq (by omega)
  · split
    · obtain ⟨n, hn⟩ : ∃ n : Nat, (binary32.exponent a.toNat : Int) - 0x7F = n :=
        ⟨_, (Int.toNat_of_nonneg (by omega)).symm⟩
      rw [hn, Int.toNat_natCast]
      exact (masked_roundsTo _ (by omega) (by omega)).congr hsign
    · split
      · next hs => exact Format.roundsTo_ceil_of_negative hwidth (by omega) hs
      · next hs =>
        rw [Bool.not_eq_true] at hs
        split
        · next hne =>
          have hmagnitude := mt (shiftLeft_eq_zero a).2 (bne_iff_ne.1 hne)
          exact Format.roundsTo_ceil_of_positive hwidth (by omega) hs hmagnitude
        · next hne => exact roundsTo_zero hinteger (by simpa using hne)

theorem eosioF32Floor_roundsTo (a : UInt32) :
    binary32.RoundsTo Int.floor a.toNat (eosioF32Floor a).toNat := by
  have hbias : binary32.bias = 127 := rfl
  have hfrac : binary32.fracBits = 23 := rfl
  have hinteger : ∀ n : ℤ, ⌊(n : ℚ)⌋ = n := Int.floor_intCast
  have hwidth := toNat_lt_width32 a
  have hsign : (if binary32.sign a.toNat then awayFromZero else truncate)
      (binary32.value a.toNat) = ⌊binary32.value a.toNat⌋ := by
    cases hs : binary32.sign a.toNat
    · exact truncate_of_nonneg (Format.value_nonneg hs)
    · exact awayFromZero_of_nonpos (Format.value_nonpos hs)
  unfold eosioF32Floor
  simp only [toNat_exponent32, shiftRight_eq_zero, shiftRight_ne_zero]
  split
  · exact .refl hinteger fun _ => Format.exists_value_eq (by omega)
  · split
    · obtain ⟨n, hn⟩ : ∃ n : Nat, (binary32.exponent a.toNat : Int) - 0x7F = n :=
        ⟨_, (Int.toNat_of_nonneg (by omega)).symm⟩
      rw [hn, Int.toNat_natCast]
      exact (masked_roundsTo _ (by omega) (by omega)).congr hsign
    · split
      · next hs =>
        rw [Bool.not_eq_true'] at hs
        exact Format.roundsTo_floor_of_positive hwidth (by omega) hs
      · next hs =>
        rw [Bool.not_eq_true', Bool.not_eq_false] at hs
        split
        · next hne =>
          have hmagnitude := mt (shiftLeft_eq_zero a).2 (bne_iff_ne.1 hne)
          exact Format.roundsTo_floor_of_negative hwidth (by omega) hs hmagnitude
        · next hne => exact roundsTo_zero hinteger (by simpa using hne)

/-- **Rounding by masks is exact.** Of any pattern that is no NaN, the four functions return the
pattern of the rounded number: infinities and integers are unchanged, subnormal numbers are rounded
as the others, and a zero has the sign of the operand. -/
theorem mask_rounding_exact (a : UInt32) (b : UInt64) :
    binary32.RoundsTo Int.ceil a.toNat (eosioF32Ceil a).toNat ∧
      binary32.RoundsTo Int.floor a.toNat (eosioF32Floor a).toNat ∧
      binary32.RoundsTo truncate a.toNat (eosioF32Trunc a).toNat ∧
      binary64.RoundsTo truncate b.toNat (eosioF64Trunc b).toNat :=
  ⟨eosioF32Ceil_roundsTo a, eosioF32Floor_roundsTo a, eosioF32Trunc_roundsTo a,
    eosioF64Trunc_roundsTo b⟩

end SoftfloatApi

end FractalWasm
