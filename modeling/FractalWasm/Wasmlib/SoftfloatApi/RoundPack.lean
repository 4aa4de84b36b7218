import FractalWasm.Ieee.Guard
import Mathlib.Data.Nat.Bitwise

/-!
# Rounding and packing

The vendored operations end in `softfloat_roundPackToF32` or `softfloat_roundPackToF64`, which round
a significand with guard bits to the format. Significands and exponents are integers here, where the
code has them in words that are wide enough; exception flags are left out, as nothing reads them.

**Jams** (`shiftRightJam`): a shift that keeps in its lowest bit whether anything was lost. A jammed
significand is rounded like the exact one (`nearest_of_jam`).

**Rounding** (`roundPackTo`): an increment, a shift and a correction for ties, with branches for the
exponents below and above the format. One definition over `Packing` stands for both widths.

**Result** (`roundPackTo_nearest`): the pattern is nearest to the significand at its place, for
every exponent. The callers need no more than this.
-/

namespace FractalWasm

open Ieee

namespace Softfloat

/-! ## Primitives -/

/-- `softfloat_shiftRightJam32` and `softfloat_shiftRightJam64`, for words of `width` bits. -/
def shiftRightJam (width a dist : Nat) : Nat :=
  if dist < width - 1 then
    a >>> dist ||| (a <<< ((width - dist) % width) % 2 ^ width != 0).toNat
  else (a != 0).toNat

def shiftRightJam32 (a dist : Nat) : Nat := shiftRightJam 32 a dist

def shiftRightJam64 (a dist : Nat) : Nat := shiftRightJam 64 a dist

def shortShiftRightJam64 (a dist : Nat) : Nat :=
  a >>> dist ||| (a &&& ((1 <<< dist) - 1) != 0).toNat

/-- `softfloat_countLeadingZeros8` -/
def countLeadingZeros8 : List Nat :=
  [8, 7] ++ .replicate 2 6 ++ .replicate 4 5 ++ .replicate 8 4 ++ .replicate 16 3 ++
    .replicate 32 2 ++ .replicate 64 1 ++ .replicate 128 0

def countLeadingZeros32 (a : Nat) : Nat :=
  let (count, a) := if a < 0x10000 then (16, a <<< 16) else (0, a)
  let (count, a) := if a < 0x1000000 then (count + 8, a <<< 8) else (count, a)
  count + countLeadingZeros8.getD (a >>> 24) 0

def countLeadingZeros64 (a : Nat) : Nat :=
  if a >>> 32 = 0 then 32 + countLeadingZeros32 a else countLeadingZeros32 (a >>> 32)

theorem shiftRightJam_eq {width a dist : Nat} (ha : a < 2 ^ width) (hdist : 0 < dist) :
    shiftRightJam width a dist = jam a dist := by
  unfold shiftRightJam jam
  split
  · next hlt =>
    have hmod : (width - dist) % width = width - dist := Nat.mod_eq_of_lt (by omega)
    have hsplit : 2 ^ width = 2 ^ dist * 2 ^ (width - dist) := by
      rw [← Nat.pow_add]
      congr 1
      omega
    have hrest : a <<< (width - dist) % 2 ^ width = a % 2 ^ dist * 2 ^ (width - dist) := by
      rw [Nat.shiftLeft_eq, hsplit, Nat.mul_mod_mul_right]
    have hpos := Nat.two_pow_pos (width - dist)
    rw [hmod, hrest, Nat.shiftRight_eq_div_pow]
    congr 1
    by_cases h : a % 2 ^ dist = 0
    · simp [h]
    · simp [h]
  · next hge =>
    rcases Nat.eq_zero_or_pos a with rfl | hpos
    · simp
    · have hone : (a != 0).toNat = 1 := by simp [hpos.ne']
      have htwo : 2 ^ width ≤ 2 * 2 ^ dist := by
        rw [← Nat.pow_succ']
        exact Nat.pow_le_pow_right (by omega) (by omega)
      rw [hone]
      rcases Nat.lt_or_ge a (2 ^ dist) with hlt | hle
      · rw [Nat.div_eq_of_lt hlt, Nat.mod_eq_of_lt hlt, if_neg hpos.ne', Nat.zero_or]
      · have hdiv : a / 2 ^ dist = 1 :=
          Nat.div_eq_of_lt_le (by omega) (by omega)
        rw [hdiv]
        split <;> rfl

theorem shortShiftRightJam64_eq (a dist : Nat) : shortShiftRightJam64 a dist = jam a dist := by
  unfold shortShiftRightJam64 jam
  rw [Nat.shiftLeft_eq, Nat.one_mul, Nat.and_two_pow_sub_one_eq_mod, Nat.shiftRight_eq_div_pow]
  congr 1
  by_cases h : a % 2 ^ dist = 0 <;> simp [h]

theorem countLeadingZeros8_spec : ∀ a < 256, 0 < a →
    countLeadingZeros8.getD a 0 ≤ 7 ∧ 2 ^ (7 - countLeadingZeros8.getD a 0) ≤ a ∧
      a < 2 ^ (8 - countLeadingZeros8.getD a 0) := by
  decide +kernel

/-- The leading bit is where the zeros end. -/
structure LeadingZeros (width a count : Nat) : Prop where
  lt : count < width
  le : 2 ^ (width - 1 - count) ≤ a
  lt_pow : a < 2 ^ (width - count)

theorem LeadingZeros.shift {width a count d : Nat} (h : LeadingZeros width (a <<< d) count)
    (hd : d + count < width) : LeadingZeros width a (d + count) := by
  obtain ⟨hlt, hle, hlt'⟩ := h
  rw [Nat.shiftLeft_eq] at hle hlt'
  refine ⟨hd, ?_, ?_⟩
  · rw [show width - 1 - count = width - 1 - (d + count) + d by omega, Nat.pow_add] at hle
    exact Nat.le_of_mul_le_mul_right hle (Nat.two_pow_pos d)
  · rw [show width - count = width - (d + count) + d by omega, Nat.pow_add] at hlt'
    exact Nat.lt_of_mul_lt_mul_right hlt'

theorem leadingZeros_byte {a : Nat} (hlow : 0x1000000 ≤ a) (ha : a < 2 ^ 32) :
    LeadingZeros 32 a (countLeadingZeros8.getD (a >>> 24) 0) := by
  rw [Nat.shiftRight_eq_div_pow]
  obtain ⟨hle, hlow', hhigh⟩ := countLeadingZeros8_spec (a / 2 ^ 24) (by omega) (by omega)
  set c := countLeadingZeros8.getD (a / 2 ^ 24) 0
  refine ⟨by omega, ?_, ?_⟩
  · rw [show 32 - 1 - c = 7 - c + 24 by omega, Nat.pow_add]
    exact (Nat.le_div_iff_mul_le (by decide)).1 hlow'
  · rw [show 32 - c = 8 - c + 24 by omega, Nat.pow_add]
    exact (Nat.div_lt_iff_lt_mul (by decide)).1 hhigh

theorem leadingZeros32 {a : Nat} (hpos : 0 < a) (ha : a < 2 ^ 32) :
    LeadingZeros 32 a (countLeadingZeros32 a) := by
  have hshift : ∀ {x d : Nat}, 0x1000000 ≤ x <<< d → x <<< d < 2 ^ 32 → d ≤ 24 → 2 ^ 0 ≤ x →
      LeadingZeros 32 x (d + countLeadingZeros8.getD ((x <<< d) >>> 24) 0) := by
    intro x d hlow hhigh hd hx
    have hbyte := leadingZeros_byte hlow hhigh
    refine hbyte.shift ?_
    set c := countLeadingZeros8.getD ((x <<< d) >>> 24) 0
    have hle := hbyte.lt_pow
    by_contra hge
    rw [Nat.shiftLeft_eq] at hle
    have hpow : 2 ^ (32 - c) ≤ 2 ^ d := Nat.pow_le_pow_right (by omega) (by omega)
    have hmul : 1 * 2 ^ d ≤ x * 2 ^ d := Nat.mul_le_mul_right _ hx
    omega
  unfold countLeadingZeros32
  by_cases hhalf : a < 0x10000
  · by_cases hbyte : a <<< 16 < 0x1000000
    · simp only [hhalf, hbyte, if_true, ← Nat.shiftLeft_add, Nat.reduceAdd]
      rw [Nat.shiftLeft_eq] at hbyte
      have hsmall : a < 2 ^ 8 := Nat.lt_of_mul_lt_mul_right (a := 2 ^ 16) hbyte
      clear hbyte
      refine hshift ?_ ?_ (by omega) hpos <;> rw [Nat.shiftLeft_eq] <;> omega
    · simp only [hhalf, hbyte, if_true, if_false]
      rw [Nat.shiftLeft_eq] at hbyte
      refine hshift ?_ ?_ (by omega) hpos <;> rw [Nat.shiftLeft_eq] <;> omega
  · by_cases hbyte : a < 0x1000000
    · simp only [hhalf, hbyte, if_true, if_false, Nat.zero_add]
      refine hshift ?_ ?_ (by omega) hpos <;> rw [Nat.shiftLeft_eq] <;> omega
    · simp only [hhalf, hbyte, if_false, Nat.zero_add]
      exact leadingZeros_byte (by omega) ha

theorem leadingZeros64 {a : Nat} (hpos : 0 < a) (ha : a < 2 ^ 64) :
    LeadingZeros 64 a (countLeadingZeros64 a) := by
  unfold countLeadingZeros64
  rw [Nat.shiftRight_eq_div_pow]
  split
  · next hhigh =>
    obtain ⟨hlt, hle, hlt'⟩ := leadingZeros32 hpos (by omega)
    refine ⟨by omega, ?_, ?_⟩
    · rwa [show 64 - 1 - (32 + countLeadingZeros32 a) = 32 - 1 - countLeadingZeros32 a by omega]
    · rwa [show 64 - (32 + countLeadingZeros32 a) = 32 - countLeadingZeros32 a by omega]
  · next hhigh =>
    obtain ⟨hlt, hle, hlt'⟩ := leadingZeros32 (Nat.pos_of_ne_zero hhigh)
      (Nat.div_lt_of_lt_mul (by omega))
    set c := countLeadingZeros32 (a / 2 ^ 32)
    refine ⟨by omega, ?_, ?_⟩
    · rw [show 64 - 1 - c = 32 - 1 - c + 32 by omega, Nat.pow_add]
      exact (Nat.le_div_iff_mul_le (by decide)).1 hle
    · rw [show 64 - c = 32 - c + 32 by omega, Nat.pow_add]
      exact (Nat.div_lt_iff_lt_mul (by decide)).1 hlt'

/-! ## Rounding to nearest -/

inductive RoundingMode where
  | nearEven
  | minMag
  | min
  | max
  | nearMaxMag
  | odd
  deriving DecidableEq, Repr

/-- `softfloat_roundingMode`, at its initial value: no function assigns it. -/
def roundingMode : RoundingMode := .nearEven

/-- The constants in which the functions of a format differ, and what makes them fit the format. -/
structure Packing (fmt : Format) where
  /-- The bits of a significand and its guard bits, with one to spare. -/
  width : Nat
  expShift : Nat
  signShift : Nat
  /-- The exponent of the infinities. -/
  infExp : Nat
  guard : Nat
  guardMask : Nat
  roundIncrement : Nat
  expLimit : Nat
  /-- The bits that the test against `expLimit` looks at. -/
  expWidth : Nat
  sigLimit : Nat
  countLeadingZeros : Nat → Nat
  width_eq : width = fmt.width := by rfl
  width_le : width ≤ 64 := by decide
  expShift_eq : expShift = fmt.fracBits := by rfl
  signShift_eq : signShift = fmt.magnitudeBits := by rfl
  infExp_eq : infExp = 2 * fmt.bias + 1 := by rfl
  guard_add : fmt.fracBits + guard + 2 = width := by rfl
  three_le_guard : 3 ≤ guard := by decide
  guardMask_eq : guardMask = 2 ^ guard - 1 := by rfl
  roundIncrement_eq : roundIncrement = 2 ^ (guard - 1) := by rfl
  expLimit_eq : expLimit + 1 = 2 * fmt.bias := by rfl
  expLimit_lt : expLimit < 2 ^ 14 := by decide
  expWidth_le : 16 ≤ expWidth := by decide
  sigLimit_eq : sigLimit = 2 ^ (fmt.fracBits + guard + 1) := by rfl
  leadingZeros {a : Nat} (hpos : 0 < a) (ha : a < 2 ^ width) :
    LeadingZeros width a (countLeadingZeros a)

def packingF32 : Packing binary32 where
  width := 32
  expShift := 23
  signShift := 31
  infExp := 0xFF
  guard := 7
  guardMask := 0x7F
  roundIncrement := 0x40
  expLimit := 0xFD
  expWidth := 32
  sigLimit := 0x80000000
  countLeadingZeros := countLeadingZeros32
  leadingZeros := leadingZeros32

def packingF64 : Packing binary64 where
  width := 64
  expShift := 52
  signShift := 63
  infExp := 0x7FF
  guard := 10
  guardMask := 0x3FF
  roundIncrement := 0x200
  expLimit := 0x7FD
  expWidth := 16
  sigLimit := 0x8000000000000000
  countLeadingZeros := countLeadingZeros64
  leadingZeros := leadingZeros64

section Packing

variable {fmt : Format} (k : Packing fmt)

/-- `packToF32UI` and `packToF64UI`; the fields are added, so that a significand may carry into the
exponent. -/
def packToUI (sign : Bool) (exp : Int) (sig : Nat) : Nat :=
  (sign.toNat <<< k.signShift) + (exp % 2 ^ k.width).toNat <<< k.expShift + sig

/-- What is added to a significand before its guard bits are dropped. -/
def incrementOf (sign : Bool) : Nat :=
  let roundNearEven := roundingMode == .nearEven
  if !roundNearEven && roundingMode != .nearMaxMag then
    if roundingMode == (if sign then .min else .max) then k.guardMask else 0
  else k.roundIncrement

/-- The guard bits are dropped. -/
def packRounded (sign : Bool) (exp : Int) (sig : Nat) : Nat :=
  let roundNearEven := roundingMode == .nearEven
  let roundBits := sig &&& k.guardMask
  let sig := (sig + incrementOf k sign) >>> k.guard
  let sig := sig.ldiff (roundBits ^^^ k.roundIncrement == 0 && roundNearEven).toNat
  packToUI k sign (if sig = 0 then 0 else exp) sig

def roundPackTo (sign : Bool) (exp : Int) (sig : Nat) : Nat :=
  if k.expLimit ≤ exp % 2 ^ k.expWidth then
    if exp < 0 then packRounded k sign 0 (shiftRightJam k.width sig (-exp).toNat)
    else if k.expLimit < exp || k.sigLimit ≤ sig + incrementOf k sign then
      packToUI k sign k.infExp 0 - if incrementOf k sign = 0 then 1 else 0
    else packRounded k sign exp sig
  else packRounded k sign exp sig

/-- Of a significand that may be short; where its guard bits are zeros there is nothing to round. -/
def normRoundPackTo (sign : Bool) (exp : Int) (sig : Nat) : Nat :=
  let shiftDist : Int := k.countLeadingZeros sig - 1
  let exp := exp - shiftDist
  if k.guard ≤ shiftDist ∧ exp % 2 ^ 32 < k.expLimit then
    packToUI k sign (if sig = 0 then 0 else exp) (sig <<< (shiftDist - k.guard).toNat)
  else roundPackTo k sign exp (sig <<< shiftDist.toNat)

end Packing

/-- `softfloat_roundPackToF32` -/
def roundPackToF32 (sign : Bool) (exp : Int) (sig : Nat) : UInt32 :=
  .ofNat (roundPackTo packingF32 sign exp sig)

/-- `softfloat_roundPackToF64` -/
def roundPackToF64 (sign : Bool) (exp : Int) (sig : Nat) : UInt64 :=
  .ofNat (roundPackTo packingF64 sign exp sig)

/-- `softfloat_normRoundPackToF32` -/
def normRoundPackToF32 (sign : Bool) (exp : Int) (sig : Nat) : UInt32 :=
  .ofNat (normRoundPackTo packingF32 sign exp sig)

/-- `softfloat_normRoundPackToF64` -/
def normRoundPackToF64 (sign : Bool) (exp : Int) (sig : Nat) : UInt64 :=
  .ofNat (normRoundPackTo packingF64 sign exp sig)

section Rounding

variable {fmt : Format} {k : Packing fmt} {sign : Bool} {exp : Int} {sig c : Nat} {u : ℚ}

theorem incrementOf_eq (k : Packing fmt) (sign : Bool) : incrementOf k sign = k.roundIncrement :=
  rfl

theorem packToUI_eq (hexp : 0 ≤ exp) (hle : exp ≤ 2 * fmt.bias + 1) :
    packToUI k sign exp sig = fmt.pack sign (exp.toNat * 2 ^ fmt.fracBits + sig) := by
  have hlt : exp < 2 ^ k.width := by
    have hpow : 2 ^ fmt.expBits ≤ 2 ^ k.width := by
      rw [k.width_eq, Format.width, Format.magnitudeBits]
      exact Nat.pow_le_pow_right (by omega) (by omega)
    rw [Format.two_pow_expBits] at hpow
    have hcast : ((2 * fmt.bias + 2 : Nat) : Int) ≤ 2 ^ k.width := by exact_mod_cast hpow
    omega
  rw [packToUI, Int.emod_eq_of_lt hexp hlt, Nat.shiftLeft_eq, Nat.shiftLeft_eq, k.signShift_eq,
    k.expShift_eq, Format.pack, Nat.add_assoc]

theorem ldiff_zero (n : Nat) : n.ldiff 0 = n :=
  Nat.eq_of_testBit_eq fun i => by simp [Nat.testBit_ldiff]

theorem ldiff_one (n : Nat) : n.ldiff 1 = n / 2 * 2 := by
  refine Nat.eq_of_testBit_eq fun i => ?_
  rw [Nat.testBit_ldiff]
  cases i with
  | zero => simp
  | succ i => simp [Nat.testBit_succ]

/-- The significand without its guard bits, to the nearest, half to even. -/
theorem nearestInteger_guard (k : Packing fmt) (sig : Nat) :
    NearestInteger ((sig : ℚ) / 2 ^ k.guard) (((sig + k.roundIncrement) >>> k.guard).ldiff
      (sig &&& k.guardMask ^^^ k.roundIncrement == 0 && true).toNat : Nat) := by
  have hguard := k.three_le_guard
  have hpos := Nat.two_pow_pos k.guard
  have hround := nearestInteger_natCast_div sig hpos
  rw [Nat.cast_pow, Nat.cast_ofNat] at hround
  have hhalf : 2 * k.roundIncrement = 2 ^ k.guard := by
    rw [k.roundIncrement_eq, ← Nat.pow_succ']
    congr 1
    omega
  have hmask : sig &&& k.guardMask = sig % 2 ^ k.guard := by
    rw [k.guardMask_eq, Nat.and_two_pow_sub_one_eq_mod]
  have hdiv := Nat.div_add_mod sig (2 ^ k.guard)
  have hmod := Nat.mod_lt sig hpos
  have hshift : (sig + k.roundIncrement) >>> k.guard =
      sig / 2 ^ k.guard + if k.roundIncrement ≤ sig % 2 ^ k.guard then 1 else 0 := by
    rw [Nat.shiftRight_eq_div_pow]
    split
    · refine Nat.div_eq_of_lt_le ?_ ?_ <;> rw [Nat.mul_comm] <;>
        simp only [Nat.mul_add, Nat.mul_one] <;> omega
    · refine Nat.div_eq_of_lt_le ?_ ?_ <;> rw [Nat.mul_comm] <;>
        simp only [Nat.mul_add, Nat.mul_one] <;> omega
  rw [hmask, hshift, Bool.and_true]
  convert hround using 2
  by_cases htie : sig % 2 ^ k.guard = k.roundIncrement
  · have hbits : (sig % 2 ^ k.guard ^^^ k.roundIncrement == 0) = true := by simp [htie]
    rw [hbits, Bool.toNat_true, ldiff_one]
    split <;> split <;> omega
  · have hbits : (sig % 2 ^ k.guard ^^^ k.roundIncrement == 0) = false := by
      simpa [Nat.xor_eq_zero_iff] using htie
    rw [hbits, Bool.toNat_false, ldiff_zero]
    split <;> split <;> omega

theorem packRounded_eq (k : Packing fmt) (sign : Bool) (sig : Nat) (hexp : 0 ≤ exp)
    (hle : exp ≤ 2 * fmt.bias) (hnormal : exp = 0 ∨ 2 ^ (fmt.fracBits + k.guard) ≤ sig) :
    ∃ c : Nat, NearestInteger ((sig : ℚ) / 2 ^ k.guard) c ∧
      packRounded k sign exp sig = fmt.pack sign (exp.toNat * 2 ^ fmt.fracBits + c) := by
  have hround := nearestInteger_guard k sig
  refine ⟨_, hround, ?_⟩
  unfold packRounded
  rw [incrementOf_eq]
  set c := ((sig + k.roundIncrement) >>> k.guard).ldiff
    (sig &&& k.guardMask ^^^ k.roundIncrement == 0 && true).toNat
  have hsame : (if c = 0 then 0 else exp) = exp := by
    refine ite_eq_right_iff.2 fun hzero => ?_
    rcases hnormal with rfl | hnormal
    · rfl
    · have hpos := Nat.two_pow_pos fmt.fracBits
      have hone : 2 ^ fmt.fracBits ≤ c := hround.natCast_le (by
        rw [le_div_iff₀ (by positivity)]
        rw [Nat.pow_add] at hnormal
        exact_mod_cast hnormal)
      omega
  calc packToUI k sign (if c = 0 then 0 else exp) c
    _ = packToUI k sign exp c := by rw [hsame]
    _ = fmt.pack sign (exp.toNat * 2 ^ fmt.fracBits + c) := packToUI_eq hexp (by omega)

theorem packToUI_infExp (k : Packing fmt) (sign : Bool) :
    packToUI k sign k.infExp 0 = fmt.pack sign fmt.infinity := by
  rw [packToUI_eq (by omega) (by rw [k.infExp_eq]; push_cast; omega), k.infExp_eq,
    Format.infinity_eq, Int.toNat_natCast, Nat.add_zero]
  congr 2
  omega

theorem expLimit_le_emod (hmin : -2 ^ 15 ≤ exp) (hmax : exp < 2 ^ 15) :
    (k.expLimit : Int) ≤ exp % 2 ^ k.expWidth ↔ exp < 0 ∨ k.expLimit ≤ exp := by
  have hlt := k.expLimit_lt
  have hpow : (2 : Int) ^ 16 ≤ 2 ^ k.expWidth := pow_le_pow_right₀ (by norm_num) k.expWidth_le
  rcases Int.lt_or_le exp 0 with hneg | hnonneg
  · have hmod : exp % 2 ^ k.expWidth = exp + 2 ^ k.expWidth := by
      rw [← Int.add_emod_right, Int.emod_eq_of_lt (by omega) (by omega)]
    rw [hmod]
    omega
  · rw [Int.emod_eq_of_lt hnonneg (by omega)]
    omega

/-- A significand of its full length, at an exponent of the range. -/
theorem nearest_of_guard {e : Nat} (hplace : SamePlace (2 ^ e / 2) u (sig * 2 ^ (e - k.guard : ℤ)))
    (hlow : 2 ^ (fmt.fracBits + k.guard) ≤ sig) (hhigh : sig < 2 ^ (fmt.fracBits + k.guard + 1))
    (he : e < 2 * fmt.bias) (hc : NearestInteger ((sig : ℚ) / 2 ^ k.guard) c) :
    fmt.Nearest (u / fmt.scale) (e * 2 ^ fmt.fracBits + c) := by
  have hpow : (0 : ℚ) < 2 ^ e := by positivity
  have hguard : (0 : ℚ) < 2 ^ k.guard := by positivity
  have hvalue : (sig : ℚ) * 2 ^ (e - k.guard : ℤ) = sig / 2 ^ k.guard * 2 ^ e := by
    rw [zpow_sub₀ two_ne_zero, zpow_natCast, zpow_natCast]
    ring
  have hhigh' : (sig : ℚ) / 2 ^ k.guard ≤ 2 * 2 ^ fmt.fracBits := by
    rw [div_le_iff₀ hguard]
    have hnat : sig ≤ 2 * 2 ^ fmt.fracBits * 2 ^ k.guard := by
      rw [Nat.mul_assoc, ← Nat.pow_add, ← Nat.pow_succ']
      exact hhigh.le
    exact_mod_cast hnat
  rw [hvalue] at hplace
  refine Format.nearest_of_place hplace (.inr ?_) ?_ ?_ ?_
  · refine mul_le_mul_of_nonneg_right ?_ hpow.le
    rw [le_div_iff₀ hguard]
    rw [Nat.pow_add] at hlow
    exact_mod_cast hlow
  · exact mul_le_mul_of_nonneg_right hhigh' hpow.le
  · rwa [mul_div_cancel_right₀ _ hpow.ne']
  · exact Format.add_le_infinity he (hc.le_natCast (by exact_mod_cast hhigh'))

/-- Below the range the significand is jammed first. -/
theorem nearest_of_jam {d : Nat} (hplace : SamePlace (1 / 2) u (sig * 2 ^ (-d - k.guard : ℤ)))
    (hhigh : sig < 2 ^ (fmt.fracBits + k.guard + 1))
    (hc : NearestInteger ((jam sig d : ℚ) / 2 ^ k.guard) c) : fmt.Nearest (u / fmt.scale) c := by
  have hguard := k.three_le_guard
  have hpow : (0 : ℚ) < 2 ^ k.guard := by positivity
  have hvalue : (sig : ℚ) * 2 ^ (-d - k.guard : ℤ) = sig / 2 ^ d * (1 / 2 ^ k.guard) := by
    rw [zpow_sub₀ two_ne_zero, zpow_neg, zpow_natCast, zpow_natCast]
    ring
  have hjam := ((samePlace_jam sig d).coarsen (2 ^ (k.guard - 2))).mul_right
    (c := 1 / 2 ^ k.guard) (by positivity)
  have hhalf : ((2 ^ (k.guard - 2) : ℤ) : ℚ) * 2 * (1 / 2 ^ k.guard) = 1 / 2 := by
    have hsplit : (2 : ℚ) ^ k.guard = 2 ^ (k.guard - 2) * 4 := by
      rw [show (4 : ℚ) = 2 ^ 2 by norm_num, ← pow_add]
      congr 1
      omega
    rw [hsplit]
    push_cast
    field_simp
    norm_num
  rw [hhalf, ← hvalue, mul_one_div] at hjam
  have hle : jam sig d ≤ 2 * 2 ^ fmt.fracBits * 2 ^ k.guard := by
    rw [Nat.mul_assoc, ← Nat.pow_add]
    refine jam_le ?_
    rw [Nat.pow_succ'] at hhigh
    exact Nat.le_trans hhigh.le (Nat.le_mul_of_pos_right _ (Nat.two_pow_pos d))
  have hhigh' : (jam sig d : ℚ) / 2 ^ k.guard ≤ 2 * 2 ^ fmt.fracBits := by
    rw [div_le_iff₀ hpow]
    exact_mod_cast hle
  have hcle : c ≤ 2 * 2 ^ fmt.fracBits := hc.le_natCast (by exact_mod_cast hhigh')
  have hnearest : fmt.Nearest (u / fmt.scale) (0 * 2 ^ fmt.fracBits + c) :=
    Format.nearest_of_place (by rw [pow_zero]; exact hplace.trans hjam) (.inl rfl)
      (by rwa [pow_zero, mul_one]) (by rwa [pow_zero, div_one])
      (Format.add_le_infinity (by have := Format.bias_pos fmt; omega) hcle)
  rwa [Nat.zero_mul, Nat.zero_add] at hnearest

/-- The significand is rounded to the next power of two. -/
theorem eq_of_carry (hc : NearestInteger ((sig : ℚ) / 2 ^ k.guard) c)
    (hhigh : sig < 2 ^ (fmt.fracBits + k.guard + 1))
    (hcarry : k.sigLimit ≤ sig + k.roundIncrement) : c = 2 * 2 ^ fmt.fracBits := by
  have hguard := k.three_le_guard
  have hpow : (0 : ℚ) < 2 ^ k.guard := by positivity
  have hhalf : (2 : ℚ) ^ k.guard = 2 * k.roundIncrement := by
    rw [k.roundIncrement_eq, Nat.cast_pow, Nat.cast_ofNat, ← pow_succ']
    congr 1
    omega
  have hlimit : (k.sigLimit : ℚ) = 2 * 2 ^ fmt.fracBits * 2 ^ k.guard := by
    rw [k.sigLimit_eq, Nat.cast_pow, Nat.cast_ofNat, pow_succ, pow_add]
    ring
  have hsig : (sig : ℚ) < k.sigLimit := by
    rw [k.sigLimit_eq]
    exact_mod_cast hhigh
  have hsum : (k.sigLimit : ℚ) ≤ sig + k.roundIncrement := by exact_mod_cast hcarry
  have hnearest : NearestInteger ((sig : ℚ) / 2 ^ k.guard) ((2 * 2 ^ fmt.fracBits : Nat) : ℤ) := by
    have hquotient : (sig : ℚ) / 2 ^ k.guard - (2 * 2 ^ fmt.fracBits : Nat) =
        (sig - k.sigLimit) / 2 ^ k.guard := by
      rw [hlimit, sub_div, mul_div_cancel_right₀ _ hpow.ne']
      push_cast
      rfl
    refine ⟨?_, fun _ => by push_cast; omega⟩
    rw [Int.cast_natCast, hquotient, abs_div, abs_of_pos hpow, abs_of_neg (by linarith), hhalf]
    have hincrement : (0 : ℚ) < k.roundIncrement := by linarith
    rw [← mul_div_assoc, div_le_one (by positivity)]
    linarith
  exact_mod_cast hc.unique hnearest

/-- **Rounding and packing.** A significand of its full length, whose guard bits tell its place from
that of the exact number of units, is packed as the nearest magnitude, ties to even. -/
theorem roundPackTo_nearest (k : Packing fmt) (sign : Bool)
    (hplace : SamePlace (2 ^ exp.toNat / 2) u (sig * 2 ^ (exp - k.guard)))
    (hlow : 2 ^ (fmt.fracBits + k.guard) ≤ sig) (hhigh : sig < 2 ^ (fmt.fracBits + k.guard + 1))
    (hmin : -2 ^ 15 ≤ exp) (hmax : exp < 2 ^ 15) :
    ∃ m, fmt.Nearest (u / fmt.scale) m ∧ roundPackTo k sign exp sig = fmt.pack sign m := by
  have hlimit := k.expLimit_eq
  have htest := expLimit_le_emod (k := k) hmin hmax
  rcases Int.lt_or_le exp 0 with hneg | hnonneg
  · -- The number is small: its last place is that of the exponent 0.
    obtain ⟨d, rfl⟩ : ∃ d : Nat, exp = -d := ⟨(-exp).toNat, by omega⟩
    have hwidth : sig < 2 ^ k.width := by
      refine Nat.lt_trans hhigh (Nat.pow_lt_pow_right (by omega) ?_)
      have hadd := k.guard_add
      omega
    have hjam : shiftRightJam k.width sig (- -(d : Int)).toNat = jam sig d := by
      rw [Int.neg_neg, Int.toNat_natCast]
      exact shiftRightJam_eq hwidth (by omega)
    obtain ⟨c, hround, hpack⟩ := packRounded_eq k sign (jam sig d)
      (le_refl 0) (by omega) (.inl rfl)
    refine ⟨c, nearest_of_jam ?_ hhigh hround, ?_⟩
    · rwa [Int.toNat_of_nonpos hneg.le, pow_zero] at hplace
    · rw [roundPackTo, if_pos (htest.2 (.inl hneg)), if_pos hneg, hjam, hpack]
      simp
  obtain ⟨e, rfl⟩ := Int.eq_ofNat_of_zero_le hnonneg
  rw [Int.toNat_natCast] at hplace
  by_cases hover : 2 * fmt.bias ≤ e
  · refine ⟨fmt.infinity, Format.nearest_infinity_of_place hplace ?_ hover, ?_⟩
    · rw [zpow_sub₀ two_ne_zero, zpow_natCast, zpow_natCast, mul_div_assoc', mul_comm,
        mul_comm (sig : ℚ), mul_div_assoc]
      refine mul_le_mul_of_nonneg_left ?_ (by positivity)
      rw [le_div_iff₀ (by positivity)]
      rw [Nat.pow_add] at hlow
      exact_mod_cast hlow
    · have hlt : (k.expLimit : Int) < e := by omega
      rw [roundPackTo, if_pos (htest.2 (.inr hlt.le)), if_neg (by omega),
        if_pos (by simp [hlt]), packToUI_infExp, incrementOf_eq, k.roundIncrement_eq,
        if_neg (Nat.two_pow_pos _).ne', Nat.sub_zero]
  obtain ⟨c, hround, hpack⟩ := packRounded_eq k sign sig
    (by omega) (by omega) (.inr hlow)
  have hnearest := nearest_of_guard hplace hlow hhigh (Nat.lt_of_not_le hover) hround
  refine ⟨_, hnearest, ?_⟩
  rw [Int.toNat_natCast] at hpack
  have hnot : ¬k.expLimit < (e : Int) := by omega
  rw [roundPackTo, if_neg (by omega : ¬(e : Int) < 0), incrementOf_eq]
  by_cases hcarry : k.expLimit = e ∧ k.sigLimit ≤ sig + k.roundIncrement
  · rw [if_pos (htest.2 (.inr (by omega))), if_pos (by simp [hcarry.2]), packToUI_infExp,
      k.roundIncrement_eq, if_neg (Nat.two_pow_pos _).ne', Nat.sub_zero,
      eq_of_carry hround hhigh hcarry.2, Format.infinity_eq]
    congr 1
    have htwice : e + 2 = fmt.bias + (fmt.bias + 1) := by omega
    rw [← htwice, Nat.add_mul]
  · rw [← hpack]
    split
    · next hle =>
      have hlimit := (htest.1 hle).resolve_left (by omega)
      rw [if_neg]
      simp only [Bool.or_eq_true, decide_eq_true_eq]
      omega
    · rfl

/-- What is in the place of a significand among the multiples of `2 ^ i` is rounded as that is. -/
theorem samePlace_of_guard (k : Packing fmt) {y : ℚ} {i : Nat} (hplace : SamePlace (2 ^ i) y sig)
    (hi : i + 1 ≤ k.guard) (exp : Int) :
    SamePlace (2 ^ exp.toNat / 2) (y * 2 ^ (exp - k.guard)) (sig * 2 ^ (exp - k.guard)) := by
  have hpow : (0 : ℚ) < 2 ^ (exp - k.guard) := zpow_pos two_pos _
  have hscaled := (hplace.mul_right hpow).coarsen (2 ^ (k.guard - 1 - i + (-exp).toNat))
  have hhalf : ((2 ^ (k.guard - 1 - i + (-exp).toNat) : ℤ) : ℚ) * (2 ^ i * 2 ^ (exp - k.guard)) =
      2 ^ exp.toNat / 2 := by
    rw [eq_div_iff two_ne_zero, Int.cast_pow, Int.cast_ofNat, ← zpow_natCast, ← zpow_natCast,
      ← zpow_natCast, ← zpow_add₀ two_ne_zero, ← zpow_add₀ two_ne_zero, ← zpow_add_one₀ two_ne_zero]
    congr 1
    omega
  rwa [hhalf] at hscaled

/-- A significand that carries is in its place, one that does not is shifted there. -/
theorem packCarry_nearest (k : Packing fmt) (sign : Bool) {y : ℚ} (hplace : SamePlace 2 y sig)
    (hlow : 2 ^ (fmt.fracBits + k.guard) ≤ sig * 2 ^ 1)
    (hhigh : sig < 2 ^ (fmt.fracBits + k.guard + 1)) (hmin : -2 ^ 15 < exp) (hmax : exp < 2 ^ 15) :
    ∃ m, fmt.Nearest (y * 2 ^ (exp - k.guard) / fmt.scale) m ∧
      (if sig < 2 ^ (fmt.fracBits + k.guard) then roundPackTo k sign (exp - 1) (sig <<< 1)
        else roundPackTo k sign exp sig) = fmt.pack sign m := by
  have hthree := k.three_le_guard
  rw [← pow_one (2 : ℚ)] at hplace
  split
  · next hshort =>
    have hguarded := samePlace_of_guard k (hplace.shift 1) (by omega) (exp - 1)
    have hunit := mul_pow_mul_zpow y 1 (exp - k.guard)
    rw [Nat.cast_one, sub_right_comm exp (k.guard : ℤ) 1] at hunit
    rw [hunit] at hguarded
    rw [Nat.shiftLeft_eq]
    exact roundPackTo_nearest k sign hguarded hlow (by omega) (by omega) (by omega)
  · next hcarry =>
    have hguarded := samePlace_of_guard k hplace (by omega) exp
    exact roundPackTo_nearest k sign hguarded (Nat.le_of_not_lt hcarry) hhigh (by omega) (by omega)

/-- The leading zeros of a significand that becomes full when shifted by `s`. -/
theorem countLeadingZeros_eq {s : Nat} (hlow : 2 ^ (fmt.fracBits + k.guard) ≤ sig * 2 ^ s)
    (hhigh : sig * 2 ^ s < 2 ^ (fmt.fracBits + k.guard + 1)) :
    k.countLeadingZeros sig = s + 1 := by
  have hadd := k.guard_add
  have hpow := Nat.two_pow_pos s
  have hpos : 0 < sig := by
    rcases Nat.eq_zero_or_pos sig with rfl | hpos
    · have := Nat.two_pow_pos (fmt.fracBits + k.guard)
      omega
    · exact hpos
  have hle : sig ≤ sig * 2 ^ s := Nat.le_mul_of_pos_right sig hpow
  obtain ⟨hlt, hlow', hhigh'⟩ := k.leadingZeros hpos (Nat.lt_of_le_of_lt hle (Nat.lt_trans hhigh
    (Nat.pow_lt_pow_right (by omega) (by omega))))
  set c := k.countLeadingZeros sig
  have hmul := Nat.mul_le_mul_right (2 ^ s) hlow'
  rw [← Nat.pow_add] at hmul
  have hmul' := Nat.mul_lt_mul_of_pos_right hhigh' hpow
  rw [← Nat.pow_add] at hmul'
  have hone := (Nat.pow_lt_pow_iff_right (by omega)).1 (Nat.lt_of_le_of_lt hmul hhigh)
  have hone' := (Nat.pow_lt_pow_iff_right (by omega)).1 (Nat.lt_of_le_of_lt hlow hmul')
  omega

theorem normRoundPackTo_nearest (k : Packing fmt) (sign : Bool) {s : Nat}
    (hplace : SamePlace (2 ^ (exp - s).toNat / 2) u (sig * 2 ^ (exp - k.guard)))
    (hlow : 2 ^ (fmt.fracBits + k.guard) ≤ sig * 2 ^ s)
    (hhigh : sig * 2 ^ s < 2 ^ (fmt.fracBits + k.guard + 1))
    (hmin : -2 ^ 15 ≤ exp - s) (hmax : exp - s < 2 ^ 15) :
    ∃ m, fmt.Nearest (u / fmt.scale) m ∧ normRoundPackTo k sign exp sig = fmt.pack sign m := by
  have hvalue : (sig : ℚ) * 2 ^ (exp - k.guard) =
      (sig * 2 ^ s : Nat) * 2 ^ (exp - s - k.guard) := by
    push_cast
    rw [mul_assoc, ← zpow_natCast, ← zpow_add₀ two_ne_zero]
    congr 2
    ring
  have hdist : (k.countLeadingZeros sig : Int) - 1 = s := by
    rw [countLeadingZeros_eq hlow hhigh]
    push_cast
    ring
  rw [hvalue] at hplace
  simp only [normRoundPackTo, hdist]
  by_cases hexact : (k.guard : Int) ≤ s ∧ (exp - s) % 2 ^ 32 < k.expLimit
  · obtain ⟨hguard, hexp⟩ := id hexact
    have hlimit := k.expLimit_eq
    have hnonneg : 0 ≤ exp - s := by
      by_contra hneg
      have hlt := k.expLimit_lt
      have hmod : (exp - s) % 2 ^ 32 = exp - s + 2 ^ 32 := by
        rw [← Int.add_emod_right, Int.emod_eq_of_lt (by omega) (by omega)]
      omega
    rw [Int.emod_eq_of_lt hnonneg (by omega)] at hexp
    obtain ⟨e, he⟩ := Int.eq_ofNat_of_zero_le hnonneg
    have hshift : (s - k.guard : Int).toNat = s - k.guard := by omega
    have hsplit : sig * 2 ^ s = sig * 2 ^ (s - k.guard) * 2 ^ k.guard := by
      rw [Nat.mul_assoc, ← Nat.pow_add, Nat.sub_add_cancel (by omega)]
    have hround : NearestInteger ((sig * 2 ^ s : Nat) / 2 ^ k.guard)
        ((sig * 2 ^ (s - k.guard) : Nat) : ℤ) := by
      have hquotient : ((sig * 2 ^ s : Nat) : ℚ) / 2 ^ k.guard =
          ((sig * 2 ^ (s - k.guard) : Nat) : ℤ) := by
        rw [hsplit, div_eq_iff (by positivity)]
        push_cast
        ring
      rw [hquotient]
      exact nearestInteger_intCast _
    have hne : sig ≠ 0 := by
      rintro rfl
      have := Nat.two_pow_pos (fmt.fracBits + k.guard)
      omega
    rw [he, Int.toNat_natCast] at hplace
    refine ⟨_, nearest_of_guard hplace hlow hhigh (by omega) hround, ?_⟩
    rw [if_pos hexact, if_neg hne, he, hshift, Nat.shiftLeft_eq, packToUI_eq (by omega) (by omega),
      Int.toNat_natCast]
  · rw [if_neg hexact, Int.toNat_natCast, Nat.shiftLeft_eq]
    exact roundPackTo_nearest k sign hplace hlow hhigh hmin hmax

end Rounding

end Softfloat

end FractalWasm
