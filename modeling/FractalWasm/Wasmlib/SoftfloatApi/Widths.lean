import FractalWasm.Wasmlib.SoftfloatApi.Operands

/-!
# Promotion and demotion

`f32_to_f64` loses nothing. `f64_to_f32` gives every number a hidden bit, also those that have none:
these are so small that the bit makes no difference.

**NaNs** (`CommonNaN`): the sign and the payload of a NaN, moved to the upper bits of the other
format and made quiet.

**Promotion** (`f32ToF64UI_exact`): the same number, for zeros, subnormals and infinities too.

**Demotion** (`f64ToF32UI_nearest`): the significand is shortened with a jam and rounded once. A
pattern without a hidden bit is below half of the least subnormal, and is rounded to zero either way
(`demoted_place`).
-/

namespace FractalWasm

open Codec Ieee

namespace Softfloat

/-- A NaN of any format, its payload at the top of a word. -/
structure CommonNaN where
  sign : Bool
  v64 : Nat

def f32UIToCommonNaN (uiA : Nat) : CommonNaN where
  sign := uiA >>> 31 != 0
  v64 := uiA <<< 41 % 2 ^ 64

def f64UIToCommonNaN (uiA : Nat) : CommonNaN where
  sign := uiA >>> 63 != 0
  v64 := uiA <<< 12 % 2 ^ 64

def commonNaNToF32UI (a : CommonNaN) : Nat :=
  a.sign.toNat <<< 31 ||| 0x7FC00000 ||| a.v64 >>> 41

def commonNaNToF64UI (a : CommonNaN) : Nat :=
  a.sign.toNat <<< 63 ||| 0x7FF8000000000000 ||| a.v64 >>> 12

/-- `f32_to_f64`, on the bits of the operand. -/
def f32ToF64UI (uiA : Nat) : Nat :=
  let sign := signUI operandsF32 uiA
  let exp := expUI operandsF32 uiA
  let frac := fracUI operandsF32 uiA
  if exp = 0xFF then
    if frac ≠ 0 then commonNaNToF64UI (f32UIToCommonNaN uiA) else packToUI packingF64 sign 0x7FF 0
  else if exp = 0 then
    if frac = 0 then packToUI packingF64 sign 0 0
    else
      let (exp, frac) := normSubnormalSig operandsF32 frac
      packToUI packingF64 sign (exp - 1 + 0x380) (frac <<< 29)
  else packToUI packingF64 sign (exp + 0x380) (frac <<< 29)

/-- `f64_to_f32`, on the bits of the operand. -/
def f64ToF32UI (uiA : Nat) : Nat :=
  let sign := signUI operandsF64 uiA
  let exp := expUI operandsF64 uiA
  let frac := fracUI operandsF64 uiA
  if exp = 0x7FF then
    if frac ≠ 0 then commonNaNToF32UI (f64UIToCommonNaN uiA) else packToUI packingF32 sign 0xFF 0
  else
    let frac32 := shortShiftRightJam64 frac 22
    if exp ||| frac32 = 0 then packToUI packingF32 sign 0 0
    else roundPackTo packingF32 sign (exp - 0x381) (frac32 ||| 0x40000000)

def f32ToF64 (a : UInt32) : UInt64 := .ofNat (f32ToF64UI a.toNat)

def f64ToF32 (a : UInt64) : UInt32 := .ofNat (f64ToF32UI a.toNat)

/-! ## NaNs -/

theorem commonNaNToF64UI_eq (p : Nat) :
    commonNaNToF64UI (f32UIToCommonNaN p) =
      binary64.pack (binary32.sign p) (Format.quietPayload binary32 binary64 p) := by
  have hfraction : binary32.fraction p = p % 2 ^ 31 % 2 ^ 23 := rfl
  have hfrac : (p <<< 41 % 2 ^ 64) >>> 12 = binary32.fraction p * 2 ^ 29 := by
    rw [hfraction, Nat.shiftRight_eq_div_pow, Nat.shiftLeft_eq]
    omega
  have hlt : binary32.fraction p * 2 ^ 29 < 2 ^ binary64.fracBits :=
    Nat.mul_lt_mul_of_pos_right (Format.fraction_lt binary32 p) (Nat.two_pow_pos 29)
  have hpayload : binary32.fraction p * 2 ^ binary64.fracBits / 2 ^ binary32.fracBits =
      binary32.fraction p * 2 ^ 29 := by
    rw [show binary64.fracBits = 29 + binary32.fracBits by rfl, Nat.pow_add, ← Nat.mul_assoc,
      Nat.mul_div_cancel _ (Nat.two_pow_pos _)]
  rw [Format.quietPayload, hpayload, Format.pack_infinity_add binary64 _
    (Nat.or_lt_two_pow (Format.quietBit_lt binary64) hlt), ← Nat.or_assoc, Nat.or_assoc _ _ (2 ^ _),
    commonNaNToF64UI, f32UIToCommonNaN, hfrac, ← signUI_eq operandsF32]
  rfl

theorem commonNaNToF32UI_eq (p : Nat) :
    commonNaNToF32UI (f64UIToCommonNaN p) =
      binary32.pack (binary64.sign p) (Format.quietPayload binary64 binary32 p) := by
  have hfraction : binary64.fraction p = p % 2 ^ 63 % 2 ^ 52 := rfl
  have hfrac : (p <<< 12 % 2 ^ 64) >>> 41 = binary64.fraction p / 2 ^ 29 := by
    rw [hfraction, Nat.shiftRight_eq_div_pow, Nat.shiftLeft_eq]
    omega
  have hlt : binary64.fraction p / 2 ^ 29 < 2 ^ binary32.fracBits := by
    rw [Nat.div_lt_iff_lt_mul (Nat.two_pow_pos 29)]
    exact Format.fraction_lt binary64 p
  have hpayload : binary64.fraction p * 2 ^ binary32.fracBits / 2 ^ binary64.fracBits =
      binary64.fraction p / 2 ^ 29 := by
    rw [show binary64.fracBits = 29 + binary32.fracBits by rfl, Nat.pow_add,
      Nat.mul_div_mul_right _ _ (Nat.two_pow_pos _)]
  rw [Format.quietPayload, hpayload, Format.pack_infinity_add binary32 _
    (Nat.or_lt_two_pow (Format.quietBit_lt binary32) hlt), ← Nat.or_assoc, Nat.or_assoc _ _ (2 ^ _),
    commonNaNToF32UI, f64UIToCommonNaN, hfrac, ← signUI_eq operandsF64]
  rfl

/-! ## Promotion -/

theorem scale_binary64 : (binary64.scale : ℚ) = 2 ^ 925 * binary32.scale := by
  have hbias : binary64.bias - 1 + binary64.fracBits =
      925 + (binary32.bias - 1 + binary32.fracBits) := by
    decide
  have hpow : ∀ a b : Nat, ((2 ^ (a + b) : Nat) : ℚ) = 2 ^ a * (2 ^ b : Nat) := fun a b => by
    rw [Nat.pow_add, Nat.cast_mul, Nat.cast_pow, Nat.cast_ofNat]
  rw [Format.scale, hbias]
  exact hpow 925 _

/-- A significand with its hidden bit, at 64 bits. -/
theorem exists_wide {u k c : Nat} (hlow : 2 ^ 52 ≤ c) (hhigh : c < 2 * 2 ^ 52) (hk : k < 2045)
    (hu : c * 2 ^ k = u * 2 ^ 925) (sign : Bool) :
    ∃ m < binary64.infinity, binary64.number m = u / binary32.scale ∧
      packToUI packingF64 sign k c = binary64.pack sign m := by
  have hfrac : binary64.fracBits = 52 := rfl
  have hbias : binary64.bias = 1023 := rfl
  have hle := @Format.add_le_infinity binary64 (k + 1) (2 ^ 52) (by omega) (by decide)
  have hunits := @Format.units_add binary64 k c (.inr hlow) hhigh.le
  rw [hfrac] at hle hunits
  refine ⟨k * 2 ^ 52 + c, by omega, ?_, packToUI_natCast packingF64 sign (by omega) c⟩
  rw [Format.number, hunits, hu, scale_binary64, Nat.cast_mul, Nat.cast_pow, Nat.cast_ofNat,
    mul_comm (u : ℚ), mul_div_mul_left _ _ (by positivity)]

theorem f32ToF64UI_exact {p : Nat} (hfinite : binary32.IsFinite p) :
    ∃ m < binary64.infinity, binary64.number m = binary32.number (binary32.magnitude p) ∧
      f32ToF64UI p = binary64.pack (binary32.sign p) m := by
  have hbias : binary32.bias = 127 := rfl
  have hfrac : binary32.fracBits = 23 := rfl
  have hlt := Format.fraction_lt binary32 p
  have hexp := Format.isFinite_iff.1 hfinite
  simp only [f32ToF64UI, signUI_eq, expUI_eq, fracUI_eq]
  rw [if_neg (by omega), Format.number, Format.units_magnitude]
  by_cases hzero : binary32.exponent p = 0
  · rw [if_pos hzero, if_pos hzero]
    split
    · next hfraction =>
      rw [packToUI_zero, hfraction]
      exact ⟨0, Format.infinity_pos _, by simp, rfl⟩
    · next hfraction =>
      obtain ⟨d, hd, hdle, hlow, hhigh⟩ := exists_countLeadingZeros_eq operandsF32
        (z := binary32.fraction p) (by omega) hlt
      rw [hfrac] at hdle hlow hhigh
      have hexp' : (1 - d - 1 + 0x380 : Int) = (896 - d : Nat) := by omega
      simp only [normSubnormalSig, hd, Nat.add_sub_cancel, Nat.shiftLeft_eq, hexp']
      refine exists_wide (by omega) (by omega) (by omega) ?_ _
      rw [Nat.mul_assoc, Nat.mul_assoc, ← Nat.pow_add, ← Nat.pow_add]
      congr 2
      omega
  · obtain ⟨e, he⟩ : ∃ e, binary32.exponent p = e + 1 := ⟨binary32.exponent p - 1, by omega⟩
    rw [hfrac] at hlt
    rw [if_neg hzero, if_neg hzero, he, Nat.add_sub_cancel]
    have hpack : packToUI packingF64 (binary32.sign p) ((e + 1 : Nat) + 0x380)
        (binary32.fraction p <<< 29) = packToUI packingF64 (binary32.sign p) (e + 896 : Nat)
          ((2 ^ 23 + binary32.fraction p) * 2 ^ 29) := by
      have hexp' : ((e + 1 : Nat) + 0x380 : Int) = (e + 897 : Nat) := by omega
      have hbias' : binary64.bias = 1023 := rfl
      have hfrac' : binary64.fracBits = 52 := rfl
      rw [hexp', packToUI_natCast _ _ (by omega), packToUI_natCast _ _ (by omega), hfrac',
        Nat.shiftLeft_eq]
      exact congrArg _ (by ring)
    rw [hpack]
    refine exists_wide (by omega) (by omega) (by omega) ?_ _
    have hexponent : 29 + (e + 896) = e + 925 := by ring
    rw [hfrac, Nat.mul_assoc, Nat.mul_assoc, ← Nat.pow_add, ← Nat.pow_add, hexponent]

theorem f32ToF64UI_conversionOf (p : Nat) :
    Format.ConversionOf binary32 binary64 p (f32ToF64UI p) where
  nan hnan := by
    obtain ⟨hexp, hfrac⟩ := Format.isNaN_iff.1 hnan
    have hmax : binary32.exponent p = 0xFF := hexp
    simp only [f32ToF64UI, expUI_eq, fracUI_eq]
    rw [if_pos hmax, if_pos hfrac, commonNaNToF64UI_eq]
  infinite hinfinite := by
    obtain ⟨hexp, hfrac⟩ := Format.isInfinite_iff.1 hinfinite
    have hmax : binary32.exponent p = 0xFF := hexp
    simp only [f32ToF64UI, signUI_eq, expUI_eq, fracUI_eq]
    rw [if_pos hmax, if_neg (not_not.2 hfrac)]
    exact packToUI_infinity packingF64 _
  finite hfinite := by
    obtain ⟨m, hlt, hnumber, hpack⟩ := f32ToF64UI_exact hfinite
    exact ⟨m, hnumber ▸ Format.nearest_number hlt.le, hpack⟩

/-! ## Demotion -/

theorem jam_eq_zero_iff {a d : Nat} : jam a d = 0 ↔ a = 0 := by
  have hdiv := Nat.div_add_mod a (2 ^ d)
  rw [jam, Nat.or_eq_zero_iff]
  constructor
  · rintro ⟨hquot, hrest⟩
    rw [ite_eq_left_iff] at hrest
    rw [hquot, Nat.mul_zero, Nat.zero_add] at hdiv
    by_contra hne
    exact one_ne_zero (hrest (by omega))
  · rintro rfl
    simp

/-- The units of the formats. -/
theorem number_eq_units (p : Nat) : binary64.number (binary64.magnitude p) =
    binary64.units (binary64.magnitude p) / 2 ^ 925 / binary32.scale := by
  rw [Format.number, scale_binary64, div_div]

theorem jam_fraction_lt (p : Nat) : jam (binary64.fraction p) 22 < 2 ^ 30 := by
  have hlt : binary64.fraction p < 2 ^ 52 := Format.fraction_lt binary64 p
  exact Nat.or_lt_two_pow (by omega) (by split <;> decide)

/-- A number without a hidden bit is less than half a unit, with or without one. -/
theorem demoted_place {p : Nat} (h : ¬binary64.exponent p ||| jam (binary64.fraction p) 22 = 0) :
    SamePlace (2 ^ ((binary64.exponent p : Int) - 0x381).toNat / 2)
      (binary64.units (binary64.magnitude p) / 2 ^ 925)
      ((2 ^ 30 + jam (binary64.fraction p) 22 : Nat) *
        2 ^ ((binary64.exponent p : ℤ) - 0x381 - packingF32.guard)) := by
  have hlt : binary64.fraction p < 2 ^ 52 := Format.fraction_lt binary64 p
  rw [Format.units_magnitude]
  by_cases hzero : binary64.exponent p = 0
  · rw [hzero, Nat.zero_or, jam_eq_zero_iff] at h
    have hexponent : ((0 : Nat) : ℤ) - 0x381 - packingF32.guard = -904 := by decide
    have hzeroth : (((0 : Nat) : ℤ) - 0x381).toNat = 0 := by decide
    have hsig : 2 ^ 30 + jam (binary64.fraction p) 22 < 2 ^ 31 := by
      have hjam := jam_fraction_lt p
      omega
    have hpos : (0 : ℚ) < binary64.fraction p := by exact_mod_cast Nat.pos_of_ne_zero h
    have hlt' : (binary64.fraction p : ℚ) < 2 ^ 52 := by exact_mod_cast hlt
    have hsig' : ((2 ^ 30 + jam (binary64.fraction p) 22 : Nat) : ℚ) < 2 ^ 31 := by
      exact_mod_cast hsig
    have hscale : (2 : ℚ) ^ 53 ≤ 2 ^ 925 := pow_le_pow_right₀ one_le_two (by decide)
    have hscale' : (2 : ℚ) ^ (-904 : ℤ) ≤ 2 ^ (-32 : ℤ) :=
      zpow_le_zpow_right₀ one_le_two (by decide)
    have hpow : (0 : ℚ) < 2 ^ 925 := by positivity
    have hpow' : (0 : ℚ) < 2 ^ (-904 : ℤ) := zpow_pos two_pos _
    rw [if_pos hzero, hzero, hexponent, hzeroth]
    generalize (2 : ℚ) ^ 925 = P at *
    generalize (2 : ℚ) ^ (-904 : ℤ) = P' at *
    refine .of_between (n := 0) ?_ ?_ ?_ ?_ (by positivity)
    · rw [Int.cast_zero, zero_mul]
      positivity
    · rw [div_lt_iff₀ hpow]
      norm_num
      linarith
    · rw [Int.cast_zero, zero_mul]
      positivity
    · calc _
        _ < 2 ^ 31 * P' := mul_lt_mul_of_pos_right hsig' hpow'
        _ ≤ 2 ^ 31 * 2 ^ (-32 : ℤ) := mul_le_mul_of_nonneg_left hscale' (by positivity)
        _ = _ := by norm_num
  · obtain ⟨e, he⟩ : ∃ e, binary64.exponent p = e + 1 := ⟨binary64.exponent p - 1, by omega⟩
    have hplace := (samePlace_jam (binary64.fraction p) 22).add_left (2 ^ 29)
    have hsum : ((2 ^ 29 : ℤ) : ℚ) * 2 + jam (binary64.fraction p) 22 =
        (2 ^ 30 + jam (binary64.fraction p) 22 : Nat) := by
      push_cast
      ring
    rw [hsum, ← pow_one (2 : ℚ)] at hplace
    have hguarded := samePlace_of_guard packingF32 hplace (by decide)
      ((binary64.exponent p : Int) - 0x381)
    have hvalue : ((2 ^ binary64.fracBits + binary64.fraction p) * 2 ^ e : Nat) / (2 : ℚ) ^ 925 =
        (((2 ^ 29 : ℤ) : ℚ) * 2 ^ 1 + binary64.fraction p / 2 ^ 22) *
          2 ^ (((e + 1 : Nat) : ℤ) - 0x381 - packingF32.guard) := by
      have hexponent : ((e + 1 : Nat) : ℤ) - 0x381 - packingF32.guard = e - (925 : Nat) + 22 := by
        rw [show packingF32.guard = 7 by rfl]
        omega
      have hfrac : binary64.fracBits = 52 := rfl
      rw [hexponent, zpow_add₀ two_ne_zero, zpow_sub₀ two_ne_zero, zpow_natCast, zpow_natCast, hfrac]
      generalize (2 : ℚ) ^ 925 = P
      push_cast
      ring
    rw [if_neg hzero, he, Nat.add_sub_cancel, hvalue]
    rw [he] at hguarded
    exact hguarded

theorem f64ToF32UI_nearest {p : Nat} (hfinite : binary64.IsFinite p) :
    ∃ m, binary32.Nearest (binary64.number (binary64.magnitude p)) m ∧
      f64ToF32UI p = binary32.pack (binary64.sign p) m := by
  have hbias : binary64.bias = 1023 := rfl
  have hfrac : binary64.fracBits = 52 := rfl
  have hguard : packingF32.guard = 7 := rfl
  have hlt := Format.fraction_lt binary64 p
  have hexp := Format.isFinite_iff.1 hfinite
  have hjam := jam_fraction_lt p
  have hsig : jam (binary64.fraction p) 22 ||| 0x40000000 = 2 ^ 30 + jam (binary64.fraction p) 22 :=
    or_two_pow hjam
  simp only [f64ToF32UI, signUI_eq, expUI_eq, fracUI_eq, shortShiftRightJam64_eq, hsig]
  rw [if_neg (by omega)]
  split
  · next hzero =>
    obtain ⟨hexponent, hfraction⟩ := Nat.or_eq_zero_iff.1 hzero
    rw [jam_eq_zero_iff] at hfraction
    have hmagnitude := (magnitude_eq_zero_iff binary64 p).2 ⟨hexponent, hfraction⟩
    rw [hmagnitude, Format.number_zero, packToUI_zero]
    exact ⟨0, nearest_zero _, rfl⟩
  · next hne =>
    rw [number_eq_units]
    exact roundPackTo_nearest packingF32 _ (demoted_place hne) (Nat.le_add_right _ _)
      (Nat.add_lt_add_left hjam _) (by omega) (by omega)

theorem f64ToF32UI_conversionOf (p : Nat) :
    Format.ConversionOf binary64 binary32 p (f64ToF32UI p) where
  nan hnan := by
    obtain ⟨hexp, hfrac⟩ := Format.isNaN_iff.1 hnan
    have hmax : binary64.exponent p = 0x7FF := hexp
    simp only [f64ToF32UI, expUI_eq, fracUI_eq]
    rw [if_pos hmax, if_pos hfrac, commonNaNToF32UI_eq]
  infinite hinfinite := by
    obtain ⟨hexp, hfrac⟩ := Format.isInfinite_iff.1 hinfinite
    have hmax : binary64.exponent p = 0x7FF := hexp
    simp only [f64ToF32UI, signUI_eq, expUI_eq, fracUI_eq]
    rw [if_pos hmax, if_neg (not_not.2 hfrac)]
    exact packToUI_infinity packingF32 _
  finite := f64ToF32UI_nearest

theorem f32ToF64_conversionOf (a : UInt32) :
    Format.ConversionOf binary32 binary64 a.toNat (f32ToF64 a).toNat := by
  have hconversion := f32ToF64UI_conversionOf a.toNat
  rwa [f32ToF64, UInt64.toNat_ofNat_of_lt' hconversion.lt]

theorem f64ToF32_conversionOf (a : UInt64) :
    Format.ConversionOf binary64 binary32 a.toNat (f64ToF32 a).toNat := by
  have hconversion := f64ToF32UI_conversionOf a.toNat
  rwa [f64ToF32, UInt32.toNat_ofNat_of_lt' hconversion.lt]

/-- The bits of a promoted number. -/
theorem f32ToF64_eq_pack {a : UInt32} (hfinite : binary32.IsFinite a.toNat) :
    ∃ m < binary64.infinity, binary64.number m = binary32.number (binary32.magnitude a.toNat) ∧
      (f32ToF64 a).toNat = binary64.pack (binary32.sign a.toNat) m := by
  obtain ⟨m, hlt, hnumber, hpack⟩ := f32ToF64UI_exact hfinite
  refine ⟨m, hlt, hnumber, ?_⟩
  rw [f32ToF64, hpack, UInt64.toNat_ofNat_of_lt' (hpack ▸ (f32ToF64UI_conversionOf a.toNat).lt)]

/-- Promotion loses nothing of a number, nor the sign of a zero. -/
theorem f32ToF64_exact {a : UInt32} (hfinite : binary32.IsFinite a.toNat) :
    binary64.IsFinite (f32ToF64 a).toNat ∧
      binary64.sign (f32ToF64 a).toNat = binary32.sign a.toNat ∧
        binary64.value (f32ToF64 a).toNat = binary32.value a.toNat := by
  obtain ⟨m, hlt, hnumber, hpromoted⟩ := f32ToF64_eq_pack hfinite
  have hmagnitude := hlt.trans (Format.infinity_lt binary64)
  rw [hpromoted]
  refine ⟨?_, Format.sign_pack hmagnitude, ?_⟩
  · rwa [Format.IsFinite, Format.magnitude_pack hmagnitude]
  · rw [Format.value, Format.value, Format.sign_pack hmagnitude, Format.magnitude_pack hmagnitude,
      hnumber]

/-- A promoted operand is demoted to itself, a signalling NaN to its quiet companion. -/
theorem f64ToF32_f32ToF64 (a : UInt32) :
    (f64ToF32 (f32ToF64 a)).toNat =
      if binary32.IsNaN a.toNat then binary32.quiet a.toNat else a.toNat := by
  have hsame := @Format.pack_sign_magnitude binary32 _ a.toNat_lt
  have hpromotion := f32ToF64_conversionOf a
  have hdemotion := f64ToF32_conversionOf (f32ToF64 a)
  rcases Nat.lt_trichotomy (binary32.magnitude a.toNat) binary32.infinity with
    hfinite | hinfinite | hnan
  · obtain ⟨m, hlt, hnumber, hpromoted⟩ := f32ToF64_eq_pack hfinite
    have hmagnitude := hlt.trans (Format.infinity_lt binary64)
    rw [hpromoted] at hdemotion
    obtain ⟨m', hnearest, hresult⟩ := hdemotion.finite (by
      rwa [Format.IsFinite, Format.magnitude_pack hmagnitude])
    rw [Format.magnitude_pack hmagnitude, hnumber] at hnearest
    rw [Format.sign_pack hmagnitude] at hresult
    rw [if_neg (by omega), hresult, hnearest.unique (Format.nearest_number hfinite.le), hsame]
  · have hpromoted := hpromotion.infinite hinfinite
    rw [hpromoted] at hdemotion
    have hresult := hdemotion.infinite (Format.magnitude_pack (Format.infinity_lt binary64))
    rw [Format.sign_pack (Format.infinity_lt binary64), ← hinfinite, hsame] at hresult
    rw [if_neg (by omega), hresult]
  · have hpromoted := hpromotion.nan hnan
    have hquiet := (hpromotion.isQuiet hnan).1
    rw [hpromoted] at hdemotion hquiet
    have hresult := hdemotion.nan hquiet
    rw [Format.sign_pack (Format.quietPayload_lt binary32 binary64 a.toNat),
      Format.quietPayload_quietPayload (by decide)] at hresult
    rw [if_pos hnan, hresult, Format.quiet_eq_pack a.toNat_lt hnan]

end Softfloat

end FractalWasm
