import FractalWasm.Wasmlib.SoftfloatApi.Operands
import FractalWasm.Wasmlib.SoftfloatApi.Truncation

/-!
# Conversion to integers

A significand is shifted to a fixed point, with a jam, and rounded there. Integers of 32 bits are
rounded in one word with 12 bits behind the point, those of 64 bits have a word before it and one
behind it.

**Out of range** (`i32FromPosOverflow` and its companions): the constants that the library returns,
as the build sets them.

**The fixed point** (`roundToI32`, `roundToI64` and their companions): rounding in the mode the
caller gives, with its test for overflow after it.

**Exactness** (`conversions_exact`): an operand that is an integer of the type is converted to it,
by all eight functions, in the mode that the intrinsics ask for.
-/

namespace FractalWasm

open Codec Ieee

namespace Softfloat

/-- The rounding mode of a number. Those without a name round as `minMag` does. -/
def RoundingMode.ofUInt8 : UInt8 → RoundingMode
  | 0 => .nearEven
  | 2 => .min
  | 3 => .max
  | 4 => .nearMaxMag
  | 6 => .odd
  | _ => .minMag

def i32FromPosOverflow : Int := -0x7FFFFFFF - 1

def i32FromNegOverflow : Int := -0x7FFFFFFF - 1

def ui32FromPosOverflow : Int := 0xFFFFFFFF

def ui32FromNegOverflow : Int := 0xFFFFFFFF

def i64FromPosOverflow : Int := -0x7FFFFFFFFFFFFFFF - 1

def i64FromNegOverflow : Int := -0x7FFFFFFFFFFFFFFF - 1

def i64FromNaN : Int := -0x7FFFFFFFFFFFFFFF - 1

def ui64FromPosOverflow : Int := 0xFFFFFFFFFFFFFFFF

def ui64FromNegOverflow : Int := 0xFFFFFFFFFFFFFFFF

def ui64FromNaN : Int := 0xFFFFFFFFFFFFFFFF

/-- `softfloat_roundToI32` -/
def roundToI32 (sign : Bool) (sig : Nat) (mode : RoundingMode) : Int :=
  let roundIncrement :=
    if mode ≠ .nearMaxMag ∧ mode ≠ .nearEven then
      if mode = if sign then .min else .max then 0xFFF else 0
    else 0x800
  let roundBits := sig &&& 0xFFF
  let sig := (sig + roundIncrement) % 2 ^ 64
  let invalid := if sign then i32FromNegOverflow else i32FromPosOverflow
  if sig &&& 0xFFFFF00000000000 ≠ 0 then invalid
  else
    let sig32 := sig >>> 12
    let sig32 := if roundBits = 0x800 ∧ mode = .nearEven then sig32.ldiff 1 else sig32
    let z : Int := (if sign then -sig32 else sig32 : Int).bmod (2 ^ 32)
    if z ≠ 0 ∧ decide (z < 0) ≠ sign then invalid else z

/-- `softfloat_roundToUI32` -/
def roundToUI32 (sign : Bool) (sig : Nat) (mode : RoundingMode) : Int :=
  let invalid := if sign then ui32FromNegOverflow else ui32FromPosOverflow
  let rounded (roundIncrement : Nat) : Int :=
    let roundBits := sig &&& 0xFFF
    let sig := (sig + roundIncrement) % 2 ^ 64
    if sig &&& 0xFFFFF00000000000 ≠ 0 then invalid
    else
      let z := sig >>> 12
      let z := if roundBits = 0x800 ∧ mode = .nearEven then z.ldiff 1 else z
      if sign ∧ z ≠ 0 then invalid else z
  if mode ≠ .nearMaxMag ∧ mode ≠ .nearEven then
    if sign then
      if sig = 0 then 0 else if mode = .min then invalid else rounded 0
    else if mode = .max then rounded 0xFFF
    else rounded 0
  else rounded 0x800

/-- `softfloat_roundToI64` -/
def roundToI64 (sign : Bool) (sig sigExtra : Nat) (mode : RoundingMode) : Int :=
  let invalid := if sign then i64FromNegOverflow else i64FromPosOverflow
  let increment :=
    if mode = .nearMaxMag ∨ mode = .nearEven then 0x8000000000000000 ≤ sigExtra
    else sigExtra ≠ 0 ∧ mode = if sign then .min else .max
  let sig' := (sig + 1) % 2 ^ 64
  if increment ∧ sig' = 0 then invalid
  else
    let sig :=
      if increment then
        if sigExtra = 0x8000000000000000 ∧ mode = .nearEven then sig'.ldiff 1 else sig'
      else sig
    let z : Int := (if sign then -sig else sig : Int).bmod (2 ^ 64)
    if z ≠ 0 ∧ decide (z < 0) ≠ sign then invalid else z

/-- `softfloat_roundToUI64` -/
def roundToUI64 (sign : Bool) (sig sigExtra : Nat) (mode : RoundingMode) : Int :=
  let invalid := if sign then ui64FromNegOverflow else ui64FromPosOverflow
  let rounded (sig : Nat) : Int := if sign ∧ sig ≠ 0 then invalid else sig
  let increment :=
    let sig := (sig + 1) % 2 ^ 64
    if sig = 0 then invalid
    else rounded (if sigExtra = 0x8000000000000000 ∧ mode = .nearEven then sig.ldiff 1 else sig)
  if mode = .nearMaxMag ∨ mode = .nearEven then
    if 0x8000000000000000 ≤ sigExtra then increment else rounded sig
  else if sign then
    if sig ||| sigExtra = 0 then 0 else if mode = .min then invalid else rounded sig
  else if mode = .max ∧ sigExtra ≠ 0 then increment
  else rounded sig

/-- `softfloat_shiftRightJam64Extra`: the words before and behind the point. -/
def shiftRightJam64Extra (a extra dist : Nat) : Nat × Nat :=
  let (v, extra') :=
    if dist < 64 then (a >>> dist, a <<< ((64 - dist) % 64) % 2 ^ 64)
    else (0, if dist = 64 then a else (a != 0).toNat)
  (v, extra' ||| (extra != 0).toNat)

section Families

variable {fmt : Format} (k : Operands fmt)

/-- The significand of an operand, with its hidden bit if it has one. -/
def significandUI (ui : Nat) : Nat :=
  if expUI k ui ≠ 0 then fracUI k ui ||| k.hiddenBit else fracUI k ui

/-- The conversions to 32 bits. -/
def toShort (shift : Nat) (dist : Int) (round : Bool → Nat → Int) (uiA : Nat) : Int :=
  let sign := signUI k uiA
  let exp := expUI k uiA
  let sig64 := significandUI k uiA <<< shift
  let shiftDist := dist - exp
  round sign (if 0 < shiftDist then shiftRightJam64 sig64 shiftDist.toNat else sig64)

end Families

def f32ToI32 (a : UInt32) (mode : RoundingMode) : Int :=
  toShort operandsF32 32 0xAA (roundToI32 · · mode) a.toNat

def f32ToUI32 (a : UInt32) (mode : RoundingMode) : Int :=
  toShort operandsF32 32 0xAA (roundToUI32 · · mode) a.toNat

def f64ToI32 (a : UInt64) (mode : RoundingMode) : Int :=
  toShort operandsF64 0 0x427 (roundToI32 · · mode) a.toNat

def f64ToUI32 (a : UInt64) (mode : RoundingMode) : Int :=
  toShort operandsF64 0 0x427 (roundToUI32 · · mode) a.toNat

/-- `f32_to_i64` and `f32_to_ui64`, with the results for what is out of range. -/
def f32ToLong (fromNaN fromNegOverflow fromPosOverflow : Int) (round : Bool → Nat → Nat → Int)
    (uiA : Nat) : Int :=
  let sign := signUI operandsF32 uiA
  let exp := expUI operandsF32 uiA
  let shiftDist : Int := 0xBE - exp
  if shiftDist < 0 then
    if exp = 0xFF ∧ fracUI operandsF32 uiA ≠ 0 then fromNaN
    else if sign then fromNegOverflow
    else fromPosOverflow
  else
    let sig64 := significandUI operandsF32 uiA <<< 40
    let (sig64, extra) :=
      if shiftDist ≠ 0 then shiftRightJam64Extra sig64 0 shiftDist.toNat else (sig64, 0)
    round sign sig64 extra

/-- `f64_to_i64` and `f64_to_ui64` -/
def f64ToLong (fromNaN fromNegOverflow fromPosOverflow : Int) (round : Bool → Nat → Nat → Int)
    (uiA : Nat) : Int :=
  let sign := signUI operandsF64 uiA
  let exp := expUI operandsF64 uiA
  let sig := significandUI operandsF64 uiA
  let shiftDist : Int := 0x433 - exp
  if shiftDist ≤ 0 then
    if shiftDist < -11 then
      if exp = 0x7FF ∧ fracUI operandsF64 uiA ≠ 0 then fromNaN
      else if sign then fromNegOverflow
      else fromPosOverflow
    else round sign (sig <<< (-shiftDist).toNat) 0
  else
    let sigExtra := shiftRightJam64Extra sig 0 shiftDist.toNat
    round sign sigExtra.1 sigExtra.2

def f32ToI64 (a : UInt32) (mode : RoundingMode) : Int :=
  f32ToLong i64FromNaN i64FromNegOverflow i64FromPosOverflow (roundToI64 · · · mode) a.toNat

def f32ToUI64 (a : UInt32) (mode : RoundingMode) : Int :=
  f32ToLong ui64FromNaN ui64FromNegOverflow ui64FromPosOverflow (roundToUI64 · · · mode) a.toNat

def f64ToI64 (a : UInt64) (mode : RoundingMode) : Int :=
  f64ToLong i64FromNaN i64FromNegOverflow i64FromPosOverflow (roundToI64 · · · mode) a.toNat

def f64ToUI64 (a : UInt64) (mode : RoundingMode) : Int :=
  f64ToLong ui64FromNaN ui64FromNegOverflow ui64FromPosOverflow (roundToUI64 · · · mode) a.toNat

/-! ## Rounding at the point -/

/-- An integer with a sign if it is in range, and `invalid` elsewhere. -/
def inRangeOr (lo hi invalid : Int) (sign : Bool) (n : Nat) : Int :=
  let z : Int := if sign then -n else n
  if lo ≤ z ∧ z ≤ hi then z else invalid

theorem inRangeOr_of_lt {lo hi invalid : Int} {n : Nat} (hlo : -n < lo) (hhi : hi < n)
    (sign : Bool) : inRangeOr lo hi invalid sign n = invalid := by
  cases sign
  · exact if_neg (by simp; omega)
  · exact if_neg (by simp; omega)

/-- What the rounding functions of 32 bits do with a significand of 12 bits behind the point. -/
def RoundsShort (lo hi invalid : Int) (round : Bool → Nat → Int) : Prop :=
  ∀ sign, ∀ sig : Nat, sig < 2 ^ 63 → ∃ n : Nat, NearestInteger ((sig : ℚ) / 2 ^ 12) n ∧
    round sign sig = inRangeOr lo hi invalid sign n

/-- What those of 64 bits do with the two words. -/
def RoundsLong (lo hi invalid : Int) (round : Bool → Nat → Nat → Int) : Prop :=
  ∀ sign, ∀ sig extra : Nat, sig < 2 ^ 64 → extra < 2 ^ 64 → ∃ n : Nat,
    NearestInteger (sig + (extra : ℚ) / 2 ^ 64) n ∧
      round sign sig extra = inRangeOr lo hi invalid sign n

/-- Half of the last bit is added, and the last bit is cleared of a number that was halfway. -/
theorem nearestInteger_short (sig : Nat) :
    NearestInteger ((sig : ℚ) / 2 ^ 12)
      (if sig % 2 ^ 12 = 0x800 then (sig + 0x800) / 2 ^ 12 / 2 * 2
        else (sig + 0x800) / 2 ^ 12 : Nat) := by
  have hround := nearestInteger_natCast_div sig (Nat.two_pow_pos 12)
  have hsame : (if sig % 2 ^ 12 = 0x800 then (sig + 0x800) / 2 ^ 12 / 2 * 2
      else (sig + 0x800) / 2 ^ 12) = sig / 2 ^ 12 + if 2 * (sig % 2 ^ 12) < 2 ^ 12 ∨
        2 * (sig % 2 ^ 12) = 2 ^ 12 ∧ sig / 2 ^ 12 % 2 = 0 then 0 else 1 := by
    split <;> split <;> omega
  rw [Nat.cast_pow, Nat.cast_ofNat] at hround
  rwa [hsame]

/-- A word is read as a signed one, which has to have the sign of the operand. -/
theorem signedWord_eq {i n : Nat} (hn : n < 2 ^ (i + 1)) (invalid : Int) (sign : Bool) :
    let z : Int := (if sign then -n else n : Int).bmod (2 ^ (i + 1))
    (if z ≠ 0 ∧ decide (z < 0) ≠ sign then invalid else z) =
      inRangeOr (-2 ^ i) (2 ^ i - 1) invalid sign n := by
  have hcast : (2 : Int) ^ i = (2 ^ i : Nat) := by push_cast; rfl
  have hpos := Nat.two_pow_pos i
  rw [Nat.pow_succ] at hn ⊢
  rw [inRangeOr, hcast]
  generalize 2 ^ i = P at *
  cases sign
  · simp only [Bool.false_eq_true, if_false]
    by_cases hless : n < P
    · rw [Int.bmod_eq_of_le (by omega) (by omega), if_neg (by simp), if_pos (by omega)]
    · have hword : (n : Int).bmod (P * 2) = n - (P * 2 : Nat) := by
        rw [← Int.sub_bmod_right]
        exact Int.bmod_eq_of_le (by omega) (by omega)
      rw [hword, if_pos ⟨by omega, by simp; omega⟩, if_neg (by omega)]
  · simp only [if_true]
    by_cases hless : n ≤ P
    · rw [Int.bmod_eq_of_le (by omega) (by omega), if_neg (by simp), if_pos (by omega)]
    · have hword : (-n : Int).bmod (P * 2) = -n + (P * 2 : Nat) := by
        rw [← Int.add_bmod_right]
        exact Int.bmod_eq_of_le (by omega) (by omega)
      rw [hword, if_pos ⟨by omega, by simp; omega⟩, if_neg (by omega)]

/-- The carry out of the integer and its bits. -/
theorem carry_short {sig : Nat} (hsig : sig < 2 ^ 63) :
    (sig + 0x800) % 2 ^ 64 = sig + 0x800 ∧
      ((sig + 0x800) &&& 0xFFFFF00000000000 ≠ 0 ↔ 2 ^ 44 ≤ sig + 0x800) := by
  have hfield := and_field (sig + 0x800) 20 44
  rw [show (2 ^ 20 - 1) * 2 ^ 44 = 0xFFFFF00000000000 by rfl] at hfield
  rw [hfield]
  omega

/-- The rounding of the vendored library, in one word. -/
theorem roundToI32_roundsShort :
    RoundsShort (-2 ^ 31) (2 ^ 31 - 1) (-2 ^ 31) (roundToI32 · · .nearEven) := by
  intro sign sig hsig
  refine ⟨_, nearestInteger_short sig, ?_⟩
  obtain ⟨hword, hcarry⟩ := carry_short hsig
  have hbits : sig &&& 0xFFF = sig % 2 ^ 12 := Nat.and_two_pow_sub_one_eq_mod sig 12
  have hinvalid : (if sign then i32FromNegOverflow else i32FromPosOverflow) = -2 ^ 31 := by
    cases sign <;> rfl
  have hmode : ¬(RoundingMode.nearEven ≠ .nearMaxMag ∧ RoundingMode.nearEven ≠ .nearEven) :=
    fun h => h.2 rfl
  simp only [roundToI32, hbits, hinvalid, ldiff_one, Nat.shiftRight_eq_div_pow, if_neg hmode, hword,
    and_true]
  by_cases hlarge : 2 ^ 44 ≤ sig + 0x800
  · rw [if_pos (hcarry.2 hlarge), inRangeOr_of_lt]
    · split <;> omega
    · split <;> omega
  · rw [if_neg (mt hcarry.1 hlarge)]
    exact signedWord_eq (i := 31) (by split <;> omega) _ sign

theorem unsignedWord_eq {hi invalid : Int} {n : Nat} (hn : n ≤ hi) (sign : Bool) :
    (if sign ∧ n ≠ 0 then invalid else n) = inRangeOr 0 hi invalid sign n := by
  cases sign
  · rw [if_neg (by simp), inRangeOr, if_neg Bool.false_ne_true, if_pos (by omega)]
  · rw [inRangeOr, if_pos rfl]
    by_cases hzero : n = 0
    · rw [if_neg (by simp [hzero]), if_pos (by omega)]
      omega
    · rw [if_pos ⟨rfl, hzero⟩, if_neg (by omega)]

/-- The unsigned one refuses every negative number but those that round to zero. -/
theorem roundToUI32_roundsShort :
    RoundsShort 0 (2 ^ 32 - 1) (2 ^ 32 - 1) (roundToUI32 · · .nearEven) := by
  intro sign sig hsig
  refine ⟨_, nearestInteger_short sig, ?_⟩
  obtain ⟨hword, hcarry⟩ := carry_short hsig
  have hbits : sig &&& 0xFFF = sig % 2 ^ 12 := Nat.and_two_pow_sub_one_eq_mod sig 12
  have hinvalid : (if sign then ui32FromNegOverflow else ui32FromPosOverflow) = 2 ^ 32 - 1 := by
    cases sign <;> rfl
  have hmode : ¬(RoundingMode.nearEven ≠ .nearMaxMag ∧ RoundingMode.nearEven ≠ .nearEven) :=
    fun h => h.2 rfl
  simp only [roundToUI32, hbits, hinvalid, ldiff_one, Nat.shiftRight_eq_div_pow, if_neg hmode,
    hword, and_true]
  by_cases hlarge : 2 ^ 44 ≤ sig + 0x800
  · rw [if_pos (hcarry.2 hlarge), inRangeOr_of_lt]
    · split <;> omega
    · split <;> omega
  · rw [if_neg (mt hcarry.1 hlarge)]
    exact unsignedWord_eq (by split <;> omega) sign

/-- The integer next to a number with a word behind the point. -/
theorem nearestInteger_long {sig extra : Nat} (hextra : extra < 2 ^ 64) :
    NearestInteger (sig + (extra : ℚ) / 2 ^ 64)
      (if 2 ^ 63 ≤ extra then if extra = 2 ^ 63 then (sig + 1) / 2 * 2 else sig + 1
        else sig : Nat) := by
  have hround := nearestInteger_natCast_div (sig * 2 ^ 64 + extra) (Nat.two_pow_pos 64)
  have hvalue : ((sig * 2 ^ 64 + extra : Nat) : ℚ) / (2 ^ 64 : Nat) = sig + (extra : ℚ) / 2 ^ 64 := by
    rw [Nat.cast_add, Nat.cast_mul, Nat.cast_pow, Nat.cast_ofNat, add_div,
      mul_div_cancel_right₀ _ (by positivity)]
  have hquot : (sig * 2 ^ 64 + extra) / 2 ^ 64 = sig := by omega
  have hrest : (sig * 2 ^ 64 + extra) % 2 ^ 64 = extra := by omega
  have hsame : (if 2 ^ 63 ≤ extra then if extra = 2 ^ 63 then (sig + 1) / 2 * 2 else sig + 1
      else sig) = sig + if 2 * extra < 2 ^ 64 ∨ 2 * extra = 2 ^ 64 ∧ sig % 2 = 0 then 0 else 1 := by
    split <;> split <;> (try split) <;> omega
  rw [hvalue, hquot, hrest] at hround
  rwa [hsame]

/-- The rounding of the vendored library, in two words. -/
theorem roundToI64_roundsLong :
    RoundsLong (-2 ^ 63) (2 ^ 63 - 1) (-2 ^ 63) (roundToI64 · · · .nearEven) := by
  intro sign sig extra hsig hextra
  refine ⟨_, nearestInteger_long hextra, ?_⟩
  have hinvalid : (if sign then i64FromNegOverflow else i64FromPosOverflow) = -2 ^ 63 := by
    cases sign <;> rfl
  have hhalf : 0x8000000000000000 = 2 ^ 63 := by rfl
  simp only [roundToI64, hinvalid, hhalf, ldiff_one, or_true, if_true, and_true]
  by_cases hincrement : 2 ^ 63 ≤ extra
  · simp only [hincrement, true_and, if_true]
    by_cases hcarry : sig + 1 = 2 ^ 64
    · rw [hcarry, if_pos (Nat.mod_self _), inRangeOr_of_lt]
      · split <;> omega
      · split <;> omega
    · rw [Nat.mod_eq_of_lt (by omega), if_neg (by omega)]
      exact signedWord_eq (i := 63) (by split <;> omega) _ sign
  · simp only [hincrement, false_and, if_false]
    exact signedWord_eq (i := 63) hsig _ sign

/-- And the unsigned one. -/
theorem roundToUI64_roundsLong :
    RoundsLong 0 (2 ^ 64 - 1) (2 ^ 64 - 1) (roundToUI64 · · · .nearEven) := by
  intro sign sig extra hsig hextra
  refine ⟨_, nearestInteger_long hextra, ?_⟩
  have hinvalid : (if sign then ui64FromNegOverflow else ui64FromPosOverflow) = 2 ^ 64 - 1 := by
    cases sign <;> rfl
  have hhalf : 0x8000000000000000 = 2 ^ 63 := by rfl
  simp only [roundToUI64, hinvalid, hhalf, ldiff_one, or_true, if_true, and_true]
  by_cases hincrement : 2 ^ 63 ≤ extra
  · simp only [hincrement, if_true]
    by_cases hcarry : sig + 1 = 2 ^ 64
    · rw [hcarry, if_pos (Nat.mod_self _), inRangeOr_of_lt]
      · split <;> omega
      · split <;> omega
    · rw [Nat.mod_eq_of_lt (by omega), if_neg (by omega)]
      exact unsignedWord_eq (by split <;> omega) sign
  · simp only [hincrement, if_false]
    exact unsignedWord_eq (by omega) sign

/-! ## The fixed point -/

/-- Two words are the shifted significand, but for digits far behind the point. -/
theorem shiftRightJam64Extra_place {a dist : Nat} (ha : a < 2 ^ 64) (hdist : 0 < dist) :
    let z := shiftRightJam64Extra a 0 dist
    SamePlace (1 / 2) (a / 2 ^ dist) (z.1 + (z.2 : ℚ) / 2 ^ 64) ∧ z.1 < 2 ^ 64 ∧ z.2 < 2 ^ 64 := by
  have hzero : ∀ x : Nat, x ||| ((0 : Nat) != 0).toNat = x := fun x => Nat.or_zero x
  simp only [shiftRightJam64Extra, hzero]
  rcases Nat.lt_trichotomy dist 64 with hless | rfl | hmore
  · obtain ⟨d, hd⟩ : ∃ d, 64 = dist + d := ⟨64 - dist, by omega⟩
    have hmod : (64 - dist) % 64 = d := by omega
    have hrest := Nat.mod_lt a (Nat.two_pow_pos dist)
    have hdiv := Nat.div_add_mod a (2 ^ dist)
    have hextra : a <<< d % 2 ^ 64 = a % 2 ^ dist * 2 ^ d := by
      rw [hd, Nat.pow_add, Nat.shiftLeft_eq, Nat.mul_mod_mul_right]
    have hvalue : (a : ℚ) / 2 ^ dist =
        (a / 2 ^ dist : Nat) + ((a % 2 ^ dist * 2 ^ d : Nat) : ℚ) / 2 ^ 64 := by
      have hcast : (a : ℚ) = 2 ^ dist * (a / 2 ^ dist : Nat) + (a % 2 ^ dist : Nat) := by
        exact_mod_cast hdiv.symm
      rw [hd, pow_add, Nat.cast_mul, Nat.cast_pow, Nat.cast_ofNat,
        mul_div_mul_right _ _ (by positivity)]
      conv_lhs => rw [hcast]
      rw [add_div, mul_div_cancel_left₀ _ (by positivity)]
    rw [if_pos hless, hmod, hextra, Nat.shiftRight_eq_div_pow]
    refine ⟨.of_eq hvalue, Nat.lt_of_le_of_lt (Nat.div_le_self _ _) ha, ?_⟩
    rw [hd, Nat.pow_add]
    exact Nat.mul_lt_mul_of_pos_right hrest (Nat.two_pow_pos d)
  · simp only [lt_irrefl, if_false, if_true]
    exact ⟨.of_eq (by simp), by decide, ha⟩
  · rw [if_neg (by omega), if_neg (by omega)]
    refine ⟨?_, by simp only; decide, Nat.lt_of_le_of_lt (Bool.toNat_le _) (by decide)⟩
    rcases Nat.eq_zero_or_pos a with rfl | hpos
    · exact .of_eq (by simp)
    · have hbit : (a != 0).toNat = 1 := by rw [bne_iff_ne.2 hpos.ne', Bool.toNat_true]
      have hpow : (2 : ℚ) ^ 65 ≤ 2 ^ dist := pow_le_pow_right₀ one_le_two hmore
      have hlt : (a : ℚ) < 2 ^ 64 := by exact_mod_cast ha
      have hcast : (0 : ℚ) < a := by exact_mod_cast hpos
      rw [hbit]
      refine .of_between (n := 0) ?_ ?_ ?_ ?_ (by norm_num)
      · rw [Int.cast_zero, zero_mul]
        positivity
      · rw [pow_succ] at hpow
        rw [div_lt_iff₀ (by positivity), Int.cast_zero, zero_add, one_mul]
        linarith
      · norm_num
      · norm_num

section Point

variable {fmt : Format} {p n shift dist b : Nat} {lo hi invalid z : Int}

/-- The nearest integer of a number in range, and `invalid` for all other operands. -/
def IsConversion (fmt : Format) (lo hi invalid : Int) (p : Nat) (z : Int) : Prop :=
  (fmt.IsFinite p → lo ≤ roundEven (fmt.value p) → roundEven (fmt.value p) ≤ hi →
    z = roundEven (fmt.value p)) ∧
  (¬(fmt.IsFinite p ∧ lo ≤ roundEven (fmt.value p) ∧ roundEven (fmt.value p) ≤ hi) → z = invalid)

/-- The sign goes along with the rounded magnitude. -/
theorem roundEven_value (h : NearestInteger (fmt.number (fmt.magnitude p)) n) :
    roundEven (fmt.value p) = (if fmt.sign p then -n else n : Int) := by
  rw [Format.value]
  split
  · rw [roundEven_neg, h.roundEven_eq]
  · rw [h.roundEven_eq]

/-- A nearest integer in range is the conversion. -/
theorem isConversion_of_nearest (hfinite : fmt.IsFinite p)
    (h : NearestInteger (fmt.number (fmt.magnitude p)) n) :
    IsConversion fmt lo hi invalid p (inRangeOr lo hi invalid (fmt.sign p) n) := by
  rw [IsConversion, roundEven_value h, inRangeOr]
  refine ⟨fun _ hlo hhi => if_pos ⟨hlo, hhi⟩, fun hnot => if_neg fun hrange => ?_⟩
  exact hnot ⟨hfinite, hrange⟩

/-- A magnitude too large for the type is invalid, of either sign. -/
theorem isConversion_invalid {m : Nat} (hlo : -m < lo) (hhi : hi < m)
    (h : fmt.IsFinite p → m ≤ fmt.number (fmt.magnitude p)) :
    IsConversion fmt lo hi invalid p invalid := by
  refine ⟨fun hfinite hlo' hhi' => ?_, fun _ => rfl⟩
  have hle := le_roundEven (n := m) (by exact_mod_cast h hfinite)
  rw [Format.value] at hlo' hhi'
  split at hlo'
  · rw [roundEven_neg] at hlo'
    omega
  · next hsign =>
    rw [if_neg hsign] at hhi'
    omega

theorem units_eq_significandUI (k : Operands fmt) (p : Nat) :
    fmt.units (fmt.magnitude p) = significandUI k p * 2 ^ (fmt.exponent p - 1) := by
  rw [Format.units_magnitude, significandUI, expUI_eq, fracUI_eq, k.hiddenBit_eq]
  by_cases hzero : fmt.exponent p = 0
  · rw [if_pos hzero, if_neg (not_not.2 hzero), hzero, Nat.pow_zero, Nat.mul_one]
  · rw [if_neg hzero, if_pos hzero, or_two_pow (Format.fraction_lt fmt p)]

/-- The significand of a normal number has its hidden bit. -/
theorem significandUI_bounds (k : Operands fmt) (p : Nat) :
    significandUI k p < 2 * 2 ^ fmt.fracBits ∧
      (fmt.exponent p ≠ 0 → 2 ^ fmt.fracBits ≤ significandUI k p) := by
  have hlt := Format.fraction_lt fmt p
  rw [significandUI, expUI_eq, fracUI_eq, k.hiddenBit_eq, or_two_pow hlt]
  split <;> omega

/-- The number of an operand with its point moved. -/
theorem number_mul_two_pow (k : Operands fmt) (hpos : fmt.exponent p ≠ 0)
    (hdist : dist + b = shift + (fmt.bias - 1 + fmt.fracBits) + 1) :
    fmt.number (fmt.magnitude p) * 2 ^ b * 2 ^ dist =
      (significandUI k p <<< shift : Nat) * 2 ^ fmt.exponent p := by
  obtain ⟨e, he⟩ : ∃ e, fmt.exponent p = e + 1 := ⟨fmt.exponent p - 1, by omega⟩
  rw [Format.number, units_eq_significandUI k, he, Nat.add_sub_cancel, Nat.shiftLeft_eq, mul_assoc,
    ← pow_add, Nat.add_comm, hdist, div_mul_eq_mul_div, div_eq_iff (Format.scale_pos fmt).ne',
    Format.scale]
  push_cast
  ring

/-- Without a hidden bit the point is one digit further. -/
theorem number_mul_two_pow_of_zero (k : Operands fmt) (hzero : fmt.exponent p = 0)
    (hdist : dist + b = shift + (fmt.bias - 1 + fmt.fracBits) + 1) :
    fmt.number (fmt.magnitude p) * 2 ^ b * 2 ^ dist = 2 * (significandUI k p <<< shift : Nat) := by
  rw [Format.number, units_eq_significandUI k, hzero, Nat.shiftLeft_eq, mul_assoc, ← pow_add,
    Nat.add_comm, hdist, div_mul_eq_mul_div, div_eq_iff (Format.scale_pos fmt).ne', Format.scale]
  push_cast
  ring

/-- A number that is so small that the place of its digits does not matter. -/
theorem samePlace_tiny {s D : Nat} {h x : ℚ} (hx : x * 2 ^ D = 2 * s) (hs : (2 * s : ℚ) < h * 2 ^ D)
    (hh : 0 < h) : SamePlace h x (s / 2 ^ D) := by
  have hpow : (0 : ℚ) < 2 ^ D := by positivity
  have hvalue : x = 2 * s / 2 ^ D := by rw [eq_div_iff hpow.ne', hx]
  rcases Nat.eq_zero_or_pos s with rfl | hpos
  · exact .of_eq (by rw [hvalue]; simp)
  · have hcast : (0 : ℚ) < s := by exact_mod_cast hpos
    rw [hvalue]
    refine .of_between (n := 0) ?_ ?_ ?_ ?_ hh
    · rw [Int.cast_zero, zero_mul]
      positivity
    · rw [Int.cast_zero, zero_add, one_mul, div_lt_iff₀ hpow]
      exact hs
    · rw [Int.cast_zero, zero_mul]
      positivity
    · rw [Int.cast_zero, zero_add, one_mul, div_lt_iff₀ hpow]
      linarith

/-- The significand of a number that is not too large, shifted to the point. -/
theorem point_place (k : Operands fmt) {h : ℚ} (hh : 1 / 2 ≤ h)
    (hdist : dist + b = shift + (fmt.bias - 1 + fmt.fracBits) + 1)
    (hfit : shift + fmt.fracBits + 3 ≤ dist) (hlt : fmt.exponent p ≤ dist) :
    SamePlace h (fmt.number (fmt.magnitude p) * 2 ^ b)
      ((significandUI k p <<< shift : Nat) / 2 ^ (dist - fmt.exponent p)) := by
  by_cases hzero : fmt.exponent p = 0
  · have hvalue := number_mul_two_pow_of_zero k hzero hdist
    rw [hzero, Nat.sub_zero]
    refine samePlace_tiny hvalue ?_ (by linarith)
    have hsig : 2 * (significandUI k p <<< shift) < 2 ^ (fmt.fracBits + shift + 2) := by
      have hmul := Nat.mul_lt_mul_of_pos_right (significandUI_bounds k p).1 (Nat.two_pow_pos shift)
      rw [Nat.mul_assoc, ← Nat.pow_add] at hmul
      rw [Nat.shiftLeft_eq, Nat.pow_add _ _ 2]
      omega
    have hcast : (2 * (significandUI k p <<< shift : Nat) : ℚ) < 2 ^ (fmt.fracBits + shift + 2) := by
      exact_mod_cast hsig
    have hpow : (2 : ℚ) ^ (fmt.fracBits + shift + 2) * 2 ≤ 2 ^ dist := by
      rw [← pow_succ]
      exact pow_le_pow_right₀ one_le_two (by omega)
    have hmul := mul_le_mul_of_nonneg_right hh (by positivity : (0 : ℚ) ≤ 2 ^ dist)
    linarith
  · have hvalue := number_mul_two_pow k hzero hdist
    refine .of_eq ?_
    rw [eq_div_iff (by positivity)]
    have hpow : (2 : ℚ) ^ dist = 2 ^ (dist - fmt.exponent p) * 2 ^ fmt.exponent p := by
      rw [← pow_add, Nat.sub_add_cancel hlt]
    rw [hpow, ← mul_assoc] at hvalue
    exact mul_right_cancel₀ (by positivity) hvalue

/-- That of a number that is too large for the words is not shifted any further. -/
theorem le_number (k : Operands fmt) (hpos : fmt.exponent p ≠ 0)
    (hdist : dist + b = shift + (fmt.bias - 1 + fmt.fracBits) + 1) {i : Nat}
    (hi : b + i + dist ≤ shift + fmt.fracBits + fmt.exponent p) :
    2 ^ i ≤ fmt.number (fmt.magnitude p) := by
  have hvalue := number_mul_two_pow k hpos hdist
  have hsig : 2 ^ (shift + fmt.fracBits + fmt.exponent p) ≤
      significandUI k p <<< shift * 2 ^ fmt.exponent p := by
    rw [Nat.shiftLeft_eq, Nat.pow_add, Nat.pow_add, Nat.mul_comm (2 ^ shift)]
    exact Nat.mul_le_mul_right _ (Nat.mul_le_mul_right _ ((significandUI_bounds k p).2 hpos))
  have hcast : (2 : ℚ) ^ (shift + fmt.fracBits + fmt.exponent p) ≤
      (significandUI k p <<< shift : Nat) * 2 ^ fmt.exponent p := by
    exact_mod_cast hsig
  have hpow : (2 : ℚ) ^ i * (2 ^ b * 2 ^ dist) ≤ 2 ^ (shift + fmt.fracBits + fmt.exponent p) := by
    rw [← pow_add, ← pow_add]
    exact pow_le_pow_right₀ one_le_two (by omega)
  rw [← hvalue, mul_assoc] at hcast
  exact le_of_mul_le_mul_right (hpow.trans hcast) (by positivity)

/-- Conversions to 32 bits shift the significand to the point and round it there. -/
theorem toShort_isConversion (k : Operands fmt) {round : Bool → Nat → Int}
    (hround : RoundsShort lo hi invalid round) (hlo : -2 ^ 33 < lo) (hhi : hi < 2 ^ 33)
    (hdist : dist + 12 = shift + (fmt.bias - 1 + fmt.fracBits) + 1)
    (hfit : shift + fmt.fracBits + 3 ≤ dist) (hword : shift + fmt.fracBits < 62)
    (hlong : 45 ≤ shift + fmt.fracBits) (hmax : dist ≤ 2 * fmt.bias) (p : Nat) :
    IsConversion fmt lo hi invalid p (toShort k shift dist round p) := by
  obtain ⟨hsig, hfull⟩ := significandUI_bounds k p
  have hs : significandUI k p <<< shift < 2 ^ 63 := by
    calc significandUI k p <<< shift
      _ = significandUI k p * 2 ^ shift := Nat.shiftLeft_eq _ _
      _ < 2 * 2 ^ fmt.fracBits * 2 ^ shift :=
        Nat.mul_lt_mul_of_pos_right hsig (Nat.two_pow_pos _)
      _ = 2 ^ (fmt.fracBits + 1 + shift) := by rw [← Nat.pow_succ', ← Nat.pow_add]
      _ ≤ 2 ^ 63 := Nat.pow_le_pow_right (by decide) (by omega)
  simp only [toShort, signUI_eq, expUI_eq]
  by_cases hless : fmt.exponent p < dist
  · have hfinite : fmt.IsFinite p := isFinite_of_ne (by omega)
    have hshift : ((dist : Int) - fmt.exponent p).toNat = dist - fmt.exponent p := by omega
    have hjam : shiftRightJam64 (significandUI k p <<< shift) (dist - fmt.exponent p) =
        jam (significandUI k p <<< shift) (dist - fmt.exponent p) :=
      shiftRightJam_eq (Nat.lt_trans hs (by decide)) (by omega)
    have hlt : jam (significandUI k p <<< shift) (dist - fmt.exponent p) < 2 ^ 63 :=
      Nat.or_lt_two_pow (Nat.lt_of_le_of_lt (Nat.div_le_self _ _) hs) (by split <;> decide)
    obtain ⟨n, hn, hresult⟩ := hround (fmt.sign p) _ hlt
    rw [if_pos (by omega), hshift, hjam, hresult]
    refine isConversion_of_nearest hfinite ?_
    have hplace := ((point_place k (h := 2) (by norm_num) hdist hfit hless.le).trans
      (samePlace_jam _ _)).coarsen (2 ^ 10)
    have hiff := hplace.nearestInteger_iff (by norm_num) n
    have hpow : (2 : ℚ) * ((2 ^ 10 : ℤ) * 2) = 2 ^ 12 := by norm_num
    rw [hpow, mul_div_cancel_right₀ _ (by positivity)] at hiff
    exact hiff.2 hn
  · have hpos : fmt.exponent p ≠ 0 := by omega
    have hlow : 2 ^ 45 ≤ significandUI k p <<< shift := by
      calc 2 ^ 45
        _ ≤ 2 ^ (fmt.fracBits + shift) := Nat.pow_le_pow_right (by decide) (by omega)
        _ = 2 ^ fmt.fracBits * 2 ^ shift := Nat.pow_add _ _ _
        _ ≤ significandUI k p * 2 ^ shift := Nat.mul_le_mul_right _ (hfull hpos)
        _ = significandUI k p <<< shift := (Nat.shiftLeft_eq _ _).symm
    obtain ⟨n, hn, hresult⟩ := hround (fmt.sign p) _ hs
    have hmany : 2 ^ 33 ≤ n := hn.natCast_le (by
      rw [le_div_iff₀ (by positivity)]
      exact_mod_cast hlow)
    rw [if_neg (by omega), hresult, inRangeOr_of_lt (by omega) (by omega)]
    exact isConversion_invalid (m := 2 ^ 33) (by exact_mod_cast hlo) (by exact_mod_cast hhi)
      fun _ => by exact_mod_cast le_number k hpos hdist (by omega)

/-- Two words in the place of an operand are rounded as the operand is. -/
theorem isConversion_of_words {round : Bool → Nat → Nat → Int}
    (hround : RoundsLong lo hi invalid round) (hfinite : fmt.IsFinite p) {v extra : Nat}
    (hv : v < 2 ^ 64) (hextra : extra < 2 ^ 64)
    (hplace : SamePlace (1 / 2) (fmt.number (fmt.magnitude p)) (v + (extra : ℚ) / 2 ^ 64)) :
    IsConversion fmt lo hi invalid p (round (fmt.sign p) v extra) := by
  obtain ⟨n, hn, hresult⟩ := hround (fmt.sign p) v extra hv hextra
  have hiff := hplace.nearestInteger_iff (by norm_num) n
  rw [mul_one_div_cancel two_ne_zero, div_one, div_one] at hiff
  rw [hresult]
  exact isConversion_of_nearest hfinite (hiff.2 hn)

/-- Conversions of `float`s to 64 bits. -/
theorem f32ToLong_isConversion {round : Bool → Nat → Nat → Int}
    (hround : RoundsLong lo hi invalid round) (hlo : -2 ^ 64 < lo) (hhi : hi < 2 ^ 64) (p : Nat) :
    IsConversion binary32 lo hi invalid p (f32ToLong invalid invalid invalid round p) := by
  obtain ⟨hsig, hfull⟩ := significandUI_bounds operandsF32 p
  have hs : significandUI operandsF32 p <<< 40 < 2 ^ 64 := by
    rw [Nat.shiftLeft_eq]
    exact Nat.mul_lt_mul_of_pos_right hsig (Nat.two_pow_pos 40)
  have hmax : binary32.bias = 127 := rfl
  have hfrac : binary32.fracBits = 23 := rfl
  simp only [f32ToLong, signUI_eq, expUI_eq, ite_self]
  by_cases hlarge : 0xBE < binary32.exponent p
  · have hle := @le_number binary32 p 40 0xBE 0 operandsF32 (by omega) (by decide) 64 (by omega)
    rw [if_pos (by omega)]
    exact isConversion_invalid (m := 2 ^ 64) (by exact_mod_cast hlo) (by exact_mod_cast hhi)
      fun _ => by exact_mod_cast hle
  · have hfinite : binary32.IsFinite p := isFinite_of_ne (by omega)
    have hshift : ((0xBE : Int) - binary32.exponent p).toNat = 0xBE - binary32.exponent p := by omega
    have hplace := @point_place binary32 p 40 0xBE 0 operandsF32 (1 / 2) le_rfl (by decide)
      (by decide) (Nat.le_of_not_lt hlarge)
    rw [pow_zero, mul_one] at hplace
    rw [if_neg (by omega), hshift]
    by_cases hexact : binary32.exponent p = 0xBE
    · rw [if_neg (by omega)]
      rw [hexact, Nat.sub_self, pow_zero, div_one] at hplace
      exact isConversion_of_words hround hfinite hs (Nat.two_pow_pos 64)
        (by rwa [Nat.cast_zero, zero_div, add_zero])
    · rw [if_pos (by omega)]
      obtain ⟨hwords, hv, hextra⟩ :=
        @shiftRightJam64Extra_place _ (0xBE - binary32.exponent p) hs (by omega)
      exact isConversion_of_words hround hfinite hv hextra (hplace.trans hwords)

/-- Conversions of `double`s to 64 bits. -/
theorem f64ToLong_isConversion {round : Bool → Nat → Nat → Int}
    (hround : RoundsLong lo hi invalid round) (hlo : -2 ^ 64 < lo) (hhi : hi < 2 ^ 64) (p : Nat) :
    IsConversion binary64 lo hi invalid p (f64ToLong invalid invalid invalid round p) := by
  obtain ⟨hsig, hfull⟩ := significandUI_bounds operandsF64 p
  have hmax : binary64.bias = 1023 := rfl
  have hfrac : binary64.fracBits = 52 := rfl
  simp only [f64ToLong, signUI_eq, expUI_eq, ite_self]
  by_cases hinteger : 0x433 ≤ binary64.exponent p
  · rw [if_pos (by omega)]
    by_cases hlarge : 0x43E < binary64.exponent p
    · have hle := @le_number binary64 p 0 0x433 0 operandsF64 (by omega) (by decide) 64 (by omega)
      rw [if_pos (by omega)]
      exact isConversion_invalid (m := 2 ^ 64) (by exact_mod_cast hlo) (by exact_mod_cast hhi)
        fun _ => by exact_mod_cast hle
    · obtain ⟨d, hd⟩ : ∃ d, binary64.exponent p = 0x433 + d :=
        ⟨binary64.exponent p - 0x433, by omega⟩
      have hfinite : binary64.IsFinite p := isFinite_of_ne (by omega)
      have hshift : (-((0x433 : Int) - binary64.exponent p)).toNat = d := by omega
      have hplace := @point_place binary64 p d (0x433 + d) 0 operandsF64 (1 / 2) le_rfl (by omega)
        (by omega) hd.le
      have hs : significandUI operandsF64 p <<< d < 2 ^ 64 := by
        calc significandUI operandsF64 p <<< d
          _ = significandUI operandsF64 p * 2 ^ d := Nat.shiftLeft_eq _ _
          _ < 2 * 2 ^ 52 * 2 ^ d := Nat.mul_lt_mul_of_pos_right hsig (Nat.two_pow_pos d)
          _ ≤ 2 * 2 ^ 52 * 2 ^ 11 :=
            Nat.mul_le_mul_left _ (Nat.pow_le_pow_right (by decide) (by omega))
      rw [hd, Nat.sub_self, pow_zero, mul_one, div_one] at hplace
      rw [if_neg (by omega), hshift]
      exact isConversion_of_words hround hfinite hs (Nat.two_pow_pos 64)
        (by rwa [Nat.cast_zero, zero_div, add_zero])
  · have hfinite : binary64.IsFinite p := isFinite_of_ne (by omega)
    have hshift : ((0x433 : Int) - binary64.exponent p).toNat = 0x433 - binary64.exponent p := by
      omega
    have hplace := @point_place binary64 p 0 0x433 0 operandsF64 (1 / 2) le_rfl (by decide) (by decide)
      (by omega)
    rw [pow_zero, mul_one, Nat.shiftLeft_zero] at hplace
    obtain ⟨hwords, hv, hextra⟩ := @shiftRightJam64Extra_place (significandUI operandsF64 p)
      (0x433 - binary64.exponent p) (Nat.lt_trans hsig (by decide)) (by omega)
    rw [if_neg (by omega), hshift]
    exact isConversion_of_words hround hfinite hv hextra (hplace.trans hwords)

end Point

theorem f32ToI32_isConversion (a : UInt32) :
    IsConversion binary32 (-2 ^ 31) (2 ^ 31 - 1) (-2 ^ 31) a.toNat (f32ToI32 a .nearEven) :=
  toShort_isConversion operandsF32 roundToI32_roundsShort (by decide) (by decide) (by decide)
    (by decide) (by decide) (by decide) (by decide) a.toNat

theorem f32ToUI32_isConversion (a : UInt32) :
    IsConversion binary32 0 (2 ^ 32 - 1) (2 ^ 32 - 1) a.toNat (f32ToUI32 a .nearEven) :=
  toShort_isConversion operandsF32 roundToUI32_roundsShort (by decide) (by decide) (by decide)
    (by decide) (by decide) (by decide) (by decide) a.toNat

theorem f64ToI32_isConversion (a : UInt64) :
    IsConversion binary64 (-2 ^ 31) (2 ^ 31 - 1) (-2 ^ 31) a.toNat (f64ToI32 a .nearEven) :=
  toShort_isConversion operandsF64 roundToI32_roundsShort (by decide) (by decide) (by decide)
    (by decide) (by decide) (by decide) (by decide) a.toNat

theorem f64ToUI32_isConversion (a : UInt64) :
    IsConversion binary64 0 (2 ^ 32 - 1) (2 ^ 32 - 1) a.toNat (f64ToUI32 a .nearEven) :=
  toShort_isConversion operandsF64 roundToUI32_roundsShort (by decide) (by decide) (by decide)
    (by decide) (by decide) (by decide) (by decide) a.toNat

theorem f32ToI64_isConversion (a : UInt32) :
    IsConversion binary32 (-2 ^ 63) (2 ^ 63 - 1) (-2 ^ 63) a.toNat (f32ToI64 a .nearEven) :=
  f32ToLong_isConversion roundToI64_roundsLong (by decide) (by decide) a.toNat

theorem f32ToUI64_isConversion (a : UInt32) :
    IsConversion binary32 0 (2 ^ 64 - 1) (2 ^ 64 - 1) a.toNat (f32ToUI64 a .nearEven) :=
  f32ToLong_isConversion roundToUI64_roundsLong (by decide) (by decide) a.toNat

theorem f64ToI64_isConversion (a : UInt64) :
    IsConversion binary64 (-2 ^ 63) (2 ^ 63 - 1) (-2 ^ 63) a.toNat (f64ToI64 a .nearEven) :=
  f64ToLong_isConversion roundToI64_roundsLong (by decide) (by decide) a.toNat

theorem f64ToUI64_isConversion (a : UInt64) :
    IsConversion binary64 0 (2 ^ 64 - 1) (2 ^ 64 - 1) a.toNat (f64ToUI64 a .nearEven) :=
  f64ToLong_isConversion roundToUI64_roundsLong (by decide) (by decide) a.toNat

/-! ## Integers of operands -/

/-- The conversions by their numbers of rounding modes. -/
def conversions : SoftfloatApi.Conversions where
  f32ToI32 a mode _ := .ofInt (f32ToI32 a (.ofUInt8 mode))
  f64ToI32 a mode _ := .ofInt (f64ToI32 a (.ofUInt8 mode))
  f32ToUi32 a mode _ := .ofNat (f32ToUI32 a (.ofUInt8 mode)).toNat
  f64ToUi32 a mode _ := .ofNat (f64ToUI32 a (.ofUInt8 mode)).toNat
  f32ToI64 a mode _ := .ofInt (f32ToI64 a (.ofUInt8 mode))
  f64ToI64 a mode _ := .ofInt (f64ToI64 a (.ofUInt8 mode))
  f32ToUi64 a mode _ := .ofNat (f32ToUI64 a (.ofUInt8 mode)).toNat
  f64ToUi64 a mode _ := .ofNat (f64ToUI64 a (.ofUInt8 mode)).toNat

section Exact

variable {fmt : Format} {α : Type} {bits : α → Nat} {lo hi invalid : Int} {convert : α → Int}

/-- A conversion to a signed integer is exact where the number is one that fits. -/
theorem exactOn_signed (h : ∀ a, IsConversion fmt lo hi invalid (bits a) (convert a))
    (hlo : -2 ^ 63 ≤ lo) (hhi : hi < 2 ^ 63) :
    SoftfloatApi.ExactOn fmt bits lo hi fun a => (Int64.ofInt (convert a)).toInt := by
  intro a hfinite n hn hlow hhigh
  have hround : roundEven (fmt.value (bits a)) = n := by rw [hn, roundEven_intCast]
  have hvalue := (h a).1 hfinite (by rwa [hround]) (by rwa [hround])
  rw [hround] at hvalue
  simp only [hvalue]
  exact Int64.toInt_ofInt_of_le (by omega) (by omega)

/-- The same of unsigned integers. -/
theorem exactOn_unsigned (h : ∀ a, IsConversion fmt 0 hi invalid (bits a) (convert a))
    (hhi : hi < 2 ^ 64) :
    SoftfloatApi.ExactOn fmt bits 0 hi fun a => ((UInt64.ofNat (convert a).toNat).toNat : ℤ) := by
  intro a hfinite n hn hlow hhigh
  have hround : roundEven (fmt.value (bits a)) = n := by rw [hn, roundEven_intCast]
  have hvalue := (h a).1 hfinite (by rwa [hround]) (by rwa [hround])
  rw [hround] at hvalue
  simp only [hvalue]
  rw [UInt64.toNat_ofNat_of_lt' (by simp only [UInt64.size]; omega), Int.toNat_of_nonneg hlow]

end Exact

/-- The vendored conversions are exact, as the truncating intrinsics rely on. -/
theorem conversions_exact : conversions.Exact where
  f32ToI32 := exactOn_signed f32ToI32_isConversion (by decide) (by decide)
  f64ToI32 := exactOn_signed f64ToI32_isConversion (by decide) (by decide)
  f32ToUi32 := exactOn_unsigned f32ToUI32_isConversion (by decide)
  f64ToUi32 := exactOn_unsigned f64ToUI32_isConversion (by decide)
  f32ToI64 := exactOn_signed f32ToI64_isConversion (by decide) (by decide)
  f64ToI64 := exactOn_signed f64ToI64_isConversion (by decide) (by decide)
  f32ToUi64 := exactOn_unsigned f32ToUI64_isConversion (by decide)
  f64ToUi64 := exactOn_unsigned f64ToUI64_isConversion (by decide)

end Softfloat

end FractalWasm
