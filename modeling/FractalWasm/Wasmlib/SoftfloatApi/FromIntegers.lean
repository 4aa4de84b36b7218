import FractalWasm.Wasmlib.SoftfloatApi.Operands

/-!
# Conversion of integers

An integer that fits the significand of a format is packed as it is. The others are shifted to where
the rounding functions expect them, those with too many bits with a jam.

**Families** (`fromSigned`, `fromUnsigned`, `fromShort`, `fromLong`): the eight functions come in
four shapes, by the width of the integer and whether it fits the significand. Each is one definition
with its shifts and exponents as parameters.

**Places**: an integer that fits is packed exactly (`packExact_nearest`), and one that was shifted
to its place is rounded there once.
-/

namespace FractalWasm

open Codec Ieee

namespace Softfloat

section Families

variable {fmt : Format} (k : Packing fmt)

/-- `i32_to_f32` and `i64_to_f64`: of the words of a sign bit only, the least integer has its own
exponent. -/
def fromSigned (mask : Nat) (minExp exp : Int) (a : Int) : Nat :=
  let sign : Bool := a < 0
  if a.natAbs &&& mask = 0 then if sign then packToUI k true minExp 0 else 0
  else normRoundPackTo k sign exp a.natAbs

/-- `ui32_to_f32` and `ui64_to_f64`: an integer with its first bit is shifted by `jam`. -/
def fromUnsigned (top : Nat) (exp : Int) (jam : Nat → Nat) (a : Nat) : Nat :=
  if a = 0 then 0
  else if a &&& top ≠ 0 then roundPackTo k false (exp + 1) (jam a)
  else normRoundPackTo k false exp a

/-- `i32_to_f64` and `ui32_to_f64`, with nothing to round. -/
def fromShort (sign : Bool) (absA : Nat) : Nat :=
  if absA = 0 then 0
  else
    let shiftDist := countLeadingZeros32 absA + 21
    packToUI k sign (0x432 - shiftDist) (absA <<< shiftDist)

/-- `i64_to_f32` and `ui64_to_f32` -/
def fromLong (sign : Bool) (absA : Nat) : Nat :=
  let shiftDist : Int := countLeadingZeros64 absA - 40
  if 0 ≤ shiftDist then
    if absA = 0 then 0 else packToUI k sign (0x95 - shiftDist) (absA <<< shiftDist.toNat)
  else
    let shiftDist := shiftDist + 7
    let sig :=
      if shiftDist < 0 then shortShiftRightJam64 absA (-shiftDist).toNat
      else absA <<< shiftDist.toNat
    roundPackTo k sign (0x9C - shiftDist) sig

end Families

def i32ToF32 (a : Int32) : UInt32 :=
  .ofNat (fromSigned packingF32 0x7FFFFFFF 0x9E 0x9C a.toInt)

def ui32ToF32 (a : UInt32) : UInt32 :=
  .ofNat (fromUnsigned packingF32 0x80000000 0x9C (fun a => a >>> 1 ||| a &&& 1) a.toNat)

def i64ToF32 (a : Int64) : UInt32 := .ofNat (fromLong packingF32 (a.toInt < 0) a.toInt.natAbs)

def ui64ToF32 (a : UInt64) : UInt32 := .ofNat (fromLong packingF32 false a.toNat)

def i32ToF64 (a : Int32) : UInt64 := .ofNat (fromShort packingF64 (a.toInt < 0) a.toInt.natAbs)

def ui32ToF64 (a : UInt32) : UInt64 := .ofNat (fromShort packingF64 false a.toNat)

def i64ToF64 (a : Int64) : UInt64 :=
  .ofNat (fromSigned packingF64 0x7FFFFFFFFFFFFFFF 0x43E 0x43C a.toInt)

def ui64ToF64 (a : UInt64) : UInt64 :=
  .ofNat (fromUnsigned packingF64 0x8000000000000000 0x43C (shortShiftRightJam64 · 1) a.toNat)

/-! ## Integers in their places -/

section Places

variable {fmt : Format} (k : Packing fmt) (sign : Bool) {n d : Nat}

/-- A significand with its hidden bit is packed exactly. -/
theorem packExact_nearest (hlow : 2 ^ fmt.fracBits ≤ n * 2 ^ d)
    (hhigh : n * 2 ^ d < 2 * 2 ^ fmt.fracBits) (hd : d ≤ fmt.bias - 1 + fmt.fracBits)
    (hfit : fmt.fracBits ≤ d + fmt.bias) :
    ∃ m, fmt.Nearest n m ∧
      packToUI k sign ((fmt.bias - 1 + fmt.fracBits : Nat) - d) (n <<< d) = fmt.pack sign m := by
  have hbias := Format.bias_pos fmt
  obtain ⟨e, he⟩ : ∃ e, fmt.bias - 1 + fmt.fracBits = e + d :=
    ⟨fmt.bias - 1 + fmt.fracBits - d, by omega⟩
  have hnearest := nearest_units (@Format.add_le_infinity fmt e (n * 2 ^ d) (by omega) (by omega))
  have hscale := Format.scale_pos fmt
  have hunits : fmt.units (e * 2 ^ fmt.fracBits + n * 2 ^ d) = n * fmt.scale := by
    rw [Format.units_add (.inr hlow) hhigh.le, Format.scale, he, Nat.mul_assoc, ← Nat.pow_add,
      Nat.add_comm]
  rw [hunits, Nat.cast_mul, mul_div_cancel_right₀ _ hscale.ne'] at hnearest
  rw [he, Nat.cast_add, add_sub_cancel_right, packToUI_natCast _ _ (by omega), Nat.shiftLeft_eq]
  exact ⟨_, hnearest, rfl⟩

/-- The exponent of a significand with guard bits that is an integer. -/
theorem units_of_guard (k : Packing fmt) (n : Nat) :
    (n * 2 ^ (((fmt.bias - 1 + fmt.fracBits + k.guard : Nat) : ℤ) - k.guard) : ℚ) / fmt.scale =
      n := by
  rw [Nat.cast_add, add_sub_cancel_right, zpow_natCast, Format.scale, Nat.cast_pow, Nat.cast_ofNat,
    mul_div_cancel_right₀ _ (by positivity)]

theorem normRoundPackTo_natCast (hpos : 0 < n) (hlt : n < 2 ^ (fmt.fracBits + k.guard + 1)) :
    ∃ m, fmt.Nearest n m ∧
      normRoundPackTo k sign (fmt.bias - 1 + fmt.fracBits + k.guard : Nat) n =
        fmt.pack sign m := by
  have hlimit := k.expLimit_eq
  have hrange := k.expLimit_lt
  have hadd := k.guard_add
  have hwidth := k.width_le
  obtain ⟨s, hs, hlow, hhigh⟩ := exists_full hpos hlt
  have hnearest := @normRoundPackTo_nearest fmt (fmt.bias - 1 + fmt.fracBits + k.guard : Nat) n _ k
    sign s (.refl _ _) hlow hhigh (by omega) (by omega)
  rwa [units_of_guard] at hnearest

theorem roundPackTo_shiftLeft (hlow : 2 ^ (fmt.fracBits + k.guard) ≤ n * 2 ^ d)
    (hhigh : n * 2 ^ d < 2 ^ (fmt.fracBits + k.guard + 1)) (hd : d ≤ 64) :
    ∃ m, fmt.Nearest n m ∧
      roundPackTo k sign ((fmt.bias - 1 + fmt.fracBits + k.guard : Nat) - d) (n <<< d) =
        fmt.pack sign m := by
  have hlimit := k.expLimit_eq
  have hrange := k.expLimit_lt
  have hadd := k.guard_add
  have hwidth := k.width_le
  have hvalue := mul_pow_mul_zpow n d
    (((fmt.bias - 1 + fmt.fracBits + k.guard : Nat) : ℤ) - k.guard)
  rw [sub_right_comm, ← Nat.cast_ofNat (R := ℚ), ← Nat.cast_pow, ← Nat.cast_mul] at hvalue
  rw [← units_of_guard k n, Nat.shiftLeft_eq]
  exact roundPackTo_nearest k sign (.of_eq hvalue.symm) hlow hhigh (by omega) (by omega)

theorem roundPackTo_jam (hlow : 2 ^ (fmt.fracBits + k.guard) * 2 ^ d ≤ n)
    (hhigh : n < 2 ^ (fmt.fracBits + k.guard + 1) * 2 ^ d) (hd : d ≤ 64) :
    ∃ m, fmt.Nearest n m ∧
      roundPackTo k sign ((fmt.bias - 1 + fmt.fracBits + k.guard : Nat) + d) (jam n d) =
        fmt.pack sign m := by
  have hlimit := k.expLimit_eq
  have hrange := k.expLimit_lt
  have hadd := k.guard_add
  have hwidth := k.width_le
  have hguard := k.three_le_guard
  have hpow : (0 : ℚ) < 2 ^ d := by positivity
  have hplace : SamePlace (2 ^ (k.guard - 1)) (n / 2 ^ d) (jam n d) := by
    have hcoarse := (samePlace_jam n d).coarsen (2 ^ (k.guard - 2))
    rw [Int.cast_pow, Int.cast_ofNat, ← pow_succ] at hcoarse
    rwa [show k.guard - 1 = k.guard - 2 + 1 by omega]
  obtain ⟨hlow', hhigh'⟩ := full_of_place hplace (f := fmt.fracBits) (by omega)
    (by
      rw [le_div_iff₀ hpow]
      exact_mod_cast hlow)
    (by
      rw [div_lt_iff₀ hpow]
      exact_mod_cast hhigh)
  have hguarded := samePlace_of_guard k hplace (by omega)
    ((fmt.bias - 1 + fmt.fracBits + k.guard : Nat) + d)
  have hvalue := mul_pow_mul_zpow (n / 2 ^ d) d
    (((fmt.bias - 1 + fmt.fracBits + k.guard : Nat) : ℤ) + d - k.guard)
  rw [div_mul_cancel₀ _ hpow.ne', add_sub_right_comm, add_sub_cancel_right,
    ← add_sub_right_comm] at hvalue
  rw [← hvalue] at hguarded
  rw [← units_of_guard k n]
  exact roundPackTo_nearest k sign hguarded hlow' hhigh' (by omega) (by omega)

/-- The least integer with a sign bit is a power of two. -/
theorem packLeast_nearest (hfit : fmt.fracBits + k.guard < fmt.bias) :
    ∃ m, fmt.Nearest (2 ^ (fmt.fracBits + k.guard + 1) : Nat) m ∧
      packToUI k sign (fmt.bias + fmt.fracBits + k.guard + 1 : Nat) 0 = fmt.pack sign m := by
  have hbias := Format.bias_pos fmt
  have hscale := Format.scale_pos fmt
  have hnearest := nearest_units (@Format.add_le_infinity fmt (fmt.bias + fmt.fracBits + k.guard)
    (2 ^ fmt.fracBits) (by omega) (by omega))
  have hunits : fmt.units ((fmt.bias + fmt.fracBits + k.guard) * 2 ^ fmt.fracBits +
      2 ^ fmt.fracBits) = 2 ^ (fmt.fracBits + k.guard + 1) * fmt.scale := by
    rw [Format.units_add (.inr le_rfl) (by omega), Format.scale, ← Nat.pow_add, ← Nat.pow_add]
    congr 1
    omega
  rw [hunits, Nat.cast_mul, mul_div_cancel_right₀ _ hscale.ne', ← Nat.succ_mul] at hnearest
  rw [packToUI_natCast _ _ (by omega), Nat.add_zero]
  exact ⟨_, hnearest, rfl⟩

end Places

/-! ## Families -/

section Rounded

variable {fmt : Format} (k : Packing fmt)

theorem fromSigned_nearest (hfit : fmt.fracBits + k.guard < fmt.bias) {a : Int}
    (hlow : -2 ^ (fmt.fracBits + k.guard + 1) ≤ a) (hhigh : a < 2 ^ (fmt.fracBits + k.guard + 1)) :
    ∃ m, fmt.Nearest a.natAbs m ∧
      fromSigned k (2 ^ (fmt.fracBits + k.guard + 1) - 1)
        (fmt.bias + fmt.fracBits + k.guard + 1 : Nat) (fmt.bias - 1 + fmt.fracBits + k.guard : Nat)
        a = fmt.pack (a < 0) m := by
  have hcast : ((2 ^ (fmt.fracBits + k.guard + 1) : Nat) : Int) =
      2 ^ (fmt.fracBits + k.guard + 1) := by
    push_cast
    rfl
  rw [← hcast] at hlow hhigh
  simp only [fromSigned, Nat.and_two_pow_sub_one_eq_mod]
  by_cases hneg : a < 0
  · simp only [hneg, decide_true, if_true]
    by_cases hmod : a.natAbs % 2 ^ (fmt.fracBits + k.guard + 1) = 0
    · have hleast : a.natAbs = 2 ^ (fmt.fracBits + k.guard + 1) := by
        have hle := Nat.le_of_dvd (by omega) (Nat.dvd_of_mod_eq_zero hmod)
        omega
      rw [if_pos hmod, hleast]
      exact packLeast_nearest k true hfit
    · have hne : a.natAbs ≠ 2 ^ (fmt.fracBits + k.guard + 1) := fun heq => by
        rw [heq, Nat.mod_self] at hmod
        exact hmod rfl
      rw [if_neg hmod]
      exact normRoundPackTo_natCast k true (by omega) (by omega)
  · simp only [hneg, decide_false, Bool.false_eq_true, if_false]
    rw [Nat.mod_eq_of_lt (by omega)]
    split
    · next hzero =>
      rw [hzero]
      exact ⟨0, nearest_zero fmt, by simp [Format.pack]⟩
    · next hne => exact normRoundPackTo_natCast k false (by omega) (by omega)

theorem or_and_one_eq_jam (a : Nat) : a >>> 1 ||| a &&& 1 = jam a 1 := by
  rw [jam, Nat.and_one_is_mod, Nat.shiftRight_eq_div_pow, Nat.pow_one]
  rcases Nat.mod_two_eq_zero_or_one a with h | h <;> simp [h]

theorem fromUnsigned_nearest {shift : Nat → Nat} (hshift : ∀ a, shift a = jam a 1) {a : Nat}
    (ha : a < 2 ^ (fmt.fracBits + k.guard + 2)) :
    ∃ m, fmt.Nearest a m ∧
      fromUnsigned k (2 ^ (fmt.fracBits + k.guard + 1))
        (fmt.bias - 1 + fmt.fracBits + k.guard : Nat) shift a = fmt.pack false m := by
  have hand := Nat.and_two_pow a (fmt.fracBits + k.guard + 1)
  have hpow := Nat.two_pow_pos (fmt.fracBits + k.guard + 1)
  rw [Nat.testBit_eq_decide_div_mod_eq] at hand
  rw [Nat.pow_succ] at ha
  rw [fromUnsigned]
  split
  · next hzero =>
    rw [hzero]
    exact ⟨0, nearest_zero fmt, by simp [Format.pack]⟩
  · next hne =>
    by_cases hlow : 2 ^ (fmt.fracBits + k.guard + 1) ≤ a
    · have hone : a / 2 ^ (fmt.fracBits + k.guard + 1) = 1 :=
        Nat.div_eq_of_lt_le (by omega) (by omega)
      rw [hone] at hand
      rw [hand, if_pos (by simp), hshift]
      exact roundPackTo_jam k false (d := 1) (by rwa [pow_one, ← Nat.pow_succ])
        (by rwa [pow_one]) (by decide)
    · rw [Nat.div_eq_of_lt (by omega)] at hand
      rw [hand, if_neg (by simp)]
      exact normRoundPackTo_natCast k false (by omega) (by omega)

/-- The leading bit of a word that is shifted to the left. -/
theorem LeadingZeros.mul_bounds {width n count e d : Nat} (h : LeadingZeros width n count)
    (he : width - 1 - count + d = e) : 2 ^ e ≤ n * 2 ^ d ∧ n * 2 ^ d < 2 ^ (e + 1) := by
  have hlt := h.lt
  rw [← he, Nat.add_right_comm, Nat.pow_add, Nat.pow_add,
    show width - 1 - count + 1 = width - count by omega]
  exact ⟨Nat.mul_le_mul_right _ h.le, Nat.mul_lt_mul_of_pos_right h.lt_pow (Nat.two_pow_pos _)⟩

theorem fromShort_nearest {sign : Bool} {n : Nat} (hn : n < 2 ^ 32) (hsign : sign → n ≠ 0) :
    ∃ m, binary64.Nearest n m ∧ fromShort packingF64 sign n = binary64.pack sign m := by
  rw [fromShort]
  split
  · next hzero =>
    rw [Bool.eq_false_iff.2 fun h => hsign h hzero, hzero]
    exact ⟨0, nearest_zero binary64, by simp [Format.pack]⟩
  · next hne =>
    have hleading := leadingZeros32 (Nat.pos_of_ne_zero hne) hn
    have hcount := hleading.lt
    have hfrac : binary64.fracBits = 52 := rfl
    have hbias : binary64.bias = 1023 := rfl
    obtain ⟨hlow, hhigh⟩ := hleading.mul_bounds (d := countLeadingZeros32 n + 21) (e := 52)
      (by omega)
    exact packExact_nearest packingF64 sign hlow (by rwa [← Nat.pow_succ']) (by omega) (by omega)

theorem fromLong_nearest {sign : Bool} {n : Nat} (hn : n < 2 ^ 64) (hsign : sign → n ≠ 0) :
    ∃ m, binary32.Nearest n m ∧ fromLong packingF32 sign n = binary32.pack sign m := by
  have hfrac : binary32.fracBits = 23 := rfl
  have hbias : binary32.bias = 127 := rfl
  have hguard : packingF32.guard = 7 := rfl
  by_cases hzero : n = 0
  · rw [Bool.eq_false_iff.2 fun h => hsign h hzero, hzero]
    exact ⟨0, nearest_zero binary32, by rfl⟩
  · have hleading := leadingZeros64 (Nat.pos_of_ne_zero hzero) hn
    have hcount := hleading.lt
    simp only [fromLong, if_neg hzero]
    generalize countLeadingZeros64 n = c at *
    split
    · next hfew =>
      obtain ⟨d, rfl⟩ : ∃ d, c = d + 40 := ⟨c - 40, by omega⟩
      obtain ⟨hlow, hhigh⟩ := hleading.mul_bounds (d := d) (e := 23) (by omega)
      have hdist : ((d + 40 : Nat) : Int) - 40 = d := by omega
      rw [hdist, Int.toNat_natCast]
      exact packExact_nearest packingF32 sign hlow (by rwa [← Nat.pow_succ']) (by omega) (by omega)
    · next hmany =>
      split
      · next hlong =>
        obtain ⟨d, hd⟩ : ∃ d, c + d = 33 := ⟨33 - c, by omega⟩
        obtain ⟨hlow, hhigh⟩ := hleading.mul_bounds (d := 0) (e := 30 + d) (by omega)
        rw [Nat.pow_zero, Nat.mul_one] at hlow hhigh
        have hdist : (-((c : Int) - 40 + 7)).toNat = d := by omega
        have hexp : (0x9C : Int) - ((c : Int) - 40 + 7) = 0x9C + d := by omega
        rw [hdist, hexp, shortShiftRightJam64_eq]
        exact roundPackTo_jam packingF32 sign (by rwa [← Nat.pow_add])
          (by rwa [← Nat.pow_add, Nat.add_right_comm]) (by omega)
      · next hshort =>
        obtain ⟨d, rfl⟩ : ∃ d, c = d + 33 := ⟨c - 33, by omega⟩
        obtain ⟨hlow, hhigh⟩ := hleading.mul_bounds (d := d) (e := 30) (by omega)
        have hdist : ((d + 33 : Nat) : Int) - 40 + 7 = d := by omega
        rw [hdist, Int.toNat_natCast]
        exact roundPackTo_shiftLeft packingF32 sign hlow hhigh (by omega)

/-- A rounded magnitude with the sign of an integer. -/
theorem rounded_intCast {a : ℤ} {m : Nat} (h : fmt.Nearest a.natAbs m) :
    fmt.Rounded a false (fmt.pack (a < 0) m) := by
  refine Format.rounded_pack ?_ (fun hpos => ?_) (fun hneg => ?_) fun hzero => ?_
  · rwa [← Int.cast_abs, Int.abs_eq_natAbs, Int.cast_natCast]
  · rw [decide_eq_false]
    exact not_lt.2 (by exact_mod_cast hpos.le)
  · rw [decide_eq_true]
    exact_mod_cast hneg
  · rw [decide_eq_false]
    exact not_lt.2 (by exact_mod_cast hzero.ge)

theorem rounded_natCast {n m : Nat} (h : fmt.Nearest n m) :
    fmt.Rounded n false (fmt.pack false m) := by
  have hrounded := @rounded_intCast fmt n m h
  rwa [decide_eq_false (by omega), Int.cast_natCast] at hrounded

end Rounded

theorem i32ToF32_rounded (a : Int32) : binary32.Rounded a.toInt false (i32ToF32 a).toNat := by
  obtain ⟨m, hnearest, hpack⟩ :=
    fromSigned_nearest packingF32 (by decide) a.le_toInt a.toInt_lt
  have hvalue : fromSigned packingF32 0x7FFFFFFF 0x9E 0x9C a.toInt = _ := hpack
  rw [i32ToF32, hvalue, UInt32.toNat_ofNat_of_lt' hnearest.pack_lt]
  exact rounded_intCast hnearest

theorem ui32ToF32_rounded (a : UInt32) : binary32.Rounded a.toNat false (ui32ToF32 a).toNat := by
  obtain ⟨m, hnearest, hpack⟩ := fromUnsigned_nearest packingF32 or_and_one_eq_jam a.toNat_lt
  have hvalue : fromUnsigned packingF32 0x80000000 0x9C (fun a => a >>> 1 ||| a &&& 1) a.toNat = _ :=
    hpack
  rw [ui32ToF32, hvalue, UInt32.toNat_ofNat_of_lt' hnearest.pack_lt]
  exact rounded_natCast hnearest

theorem i64ToF32_rounded (a : Int64) : binary32.Rounded a.toInt false (i64ToF32 a).toNat := by
  have hlow := a.le_toInt
  have hhigh := a.toInt_lt
  obtain ⟨m, hnearest, hpack⟩ := @fromLong_nearest (a.toInt < 0) a.toInt.natAbs
    (by omega) (fun hneg => by simp at hneg; omega)
  rw [i64ToF32, hpack, UInt32.toNat_ofNat_of_lt' hnearest.pack_lt]
  exact rounded_intCast hnearest

theorem ui64ToF32_rounded (a : UInt64) : binary32.Rounded a.toNat false (ui64ToF32 a).toNat := by
  obtain ⟨m, hnearest, hpack⟩ := @fromLong_nearest false _ a.toNat_lt nofun
  rw [ui64ToF32, hpack, UInt32.toNat_ofNat_of_lt' hnearest.pack_lt]
  exact rounded_natCast hnearest

theorem i32ToF64_rounded (a : Int32) : binary64.Rounded a.toInt false (i32ToF64 a).toNat := by
  have hlow := a.le_toInt
  have hhigh := a.toInt_lt
  obtain ⟨m, hnearest, hpack⟩ := @fromShort_nearest (a.toInt < 0) a.toInt.natAbs
    (by omega) (fun hneg => by simp at hneg; omega)
  rw [i32ToF64, hpack, UInt64.toNat_ofNat_of_lt' hnearest.pack_lt]
  exact rounded_intCast hnearest

theorem ui32ToF64_rounded (a : UInt32) : binary64.Rounded a.toNat false (ui32ToF64 a).toNat := by
  obtain ⟨m, hnearest, hpack⟩ := @fromShort_nearest false _ a.toNat_lt nofun
  rw [ui32ToF64, hpack, UInt64.toNat_ofNat_of_lt' hnearest.pack_lt]
  exact rounded_natCast hnearest

theorem i64ToF64_rounded (a : Int64) : binary64.Rounded a.toInt false (i64ToF64 a).toNat := by
  obtain ⟨m, hnearest, hpack⟩ :=
    fromSigned_nearest packingF64 (by decide) a.le_toInt a.toInt_lt
  have hvalue : fromSigned packingF64 0x7FFFFFFFFFFFFFFF 0x43E 0x43C a.toInt = _ := hpack
  rw [i64ToF64, hvalue, UInt64.toNat_ofNat_of_lt' hnearest.pack_lt]
  exact rounded_intCast hnearest

theorem ui64ToF64_rounded (a : UInt64) : binary64.Rounded a.toNat false (ui64ToF64 a).toNat := by
  obtain ⟨m, hnearest, hpack⟩ := fromUnsigned_nearest packingF64
    (fun a => shortShiftRightJam64_eq a 1) a.toNat_lt
  have hvalue : fromUnsigned packingF64 0x8000000000000000 0x43C (shortShiftRightJam64 · 1)
      a.toNat = _ := hpack
  rw [ui64ToF64, hvalue, UInt64.toNat_ofNat_of_lt' hnearest.pack_lt]
  exact rounded_natCast hnearest

end Softfloat

end FractalWasm
