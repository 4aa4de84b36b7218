import FractalWasm.Wasmlib.SoftfloatApi.Operands

/-!
# Addition and subtraction

`f32_add`, `f32_sub` and their companions at 64 bits add or subtract magnitudes, after the
significand of the smaller operand was shifted to the place of the other one.

**Magnitudes** (`addMags`, `subMags`): one definition for both widths, with the words and shifts of
a width in `Mags`. `addMagsF32` and its companions apply it to the values of their sources.

**Alignment**: a significand that was shifted with a jam is on the same side of every rounding point
as the exact one (`addAligned_nearest`, `subAligned_nearest`).

**Sums** (`sumOf`): what the format asks for, with its zeros, infinities and NaNs. Every function
returns it (`f32Add_sumOf` and its companions).
-/

namespace FractalWasm

open Codec Ieee

namespace Softfloat

/-- The constants of `s_addMagsF32.c`, `s_subMagsF32.c` and of those for 64 bits. -/
structure Mags (fmt : Format) extends Operands fmt where
  addShift : Nat
  /-- The hidden bit of an operand and where the sum carries. -/
  addHidden : Nat
  addCarry : Nat
  /-- The hidden bits of two operands. -/
  bothHidden : Nat
  subShift : Nat
  subHidden : Nat
  addShift_eq : addShift + 1 = guard := by rfl
  addHidden_eq : addHidden = 2 ^ (fmt.fracBits + addShift) := by rfl
  addCarry_eq : addCarry = 2 ^ (fmt.fracBits + guard) := by rfl
  bothHidden_eq : bothHidden = 2 ^ (fmt.fracBits + 1) := by rfl
  subShift_eq : subShift = guard := by rfl
  subHidden_eq : subHidden = 2 ^ (fmt.fracBits + subShift) := by rfl

def magsF32 : Mags binary32 where
  toOperands := operandsF32
  addShift := 6
  addHidden := 0x20000000
  addCarry := 0x40000000
  bothHidden := 0x01000000
  subShift := 7
  subHidden := 0x40000000

def magsF64 : Mags binary64 where
  toOperands := operandsF64
  addShift := 9
  addHidden := 0x2000000000000000
  addCarry := 0x4000000000000000
  bothHidden := 0x0020000000000000
  subShift := 10
  subHidden := 0x4000000000000000

section Mags

variable {fmt : Format} (k : Mags fmt)

/-- A shifted significand with its hidden bit; one without counts twice, as the exponent 0 has the
place of 1. -/
def shifted (shift hidden exp sig : Nat) : Nat :=
  sig <<< shift + if exp ≠ 0 then hidden else sig <<< shift

/-- The sum of two significands of exponents that differ. -/
def addAligned (signZ : Bool) (expZ sigX expY sigY : Nat) : Nat :=
  let sigY := shiftRightJam k.width (shifted k.addShift k.addHidden expY sigY) (expZ - expY)
  let sigZ := k.addHidden + sigX <<< k.addShift + sigY
  if sigZ < k.addCarry then roundPackTo k.toPacking signZ (expZ - 1) (sigZ <<< 1)
  else roundPackTo k.toPacking signZ expZ sigZ

/-- `softfloat_addMagsF32` and `softfloat_addMagsF64`; `addEqual` is what they do with the sum of two
significands of one exponent. -/
def addMags (addEqual : Bool → Int → Nat → Nat) (uiA uiB : Nat) (signZ : Bool) : Nat :=
  let expA := expUI k.toOperands uiA
  let sigA := fracUI k.toOperands uiA
  let expB := expUI k.toOperands uiB
  let sigB := fracUI k.toOperands uiB
  if expA = expB then
    if expA = 0 then uiA + sigB
    else if expA = k.infExp then
      if sigA ||| sigB ≠ 0 then propagateNaN k.toOperands uiA uiB else uiA
    else addEqual signZ expA (k.bothHidden + sigA + sigB)
  else if expA < expB then
    if expB = k.infExp then
      if sigB ≠ 0 then propagateNaN k.toOperands uiA uiB
      else packToUI k.toPacking signZ k.infExp 0
    else addAligned k signZ expB sigB expA sigA
  else
    if expA = k.infExp then
      if sigA ≠ 0 then propagateNaN k.toOperands uiA uiB else uiA
    else addAligned k signZ expA sigA expB sigB

/-- The difference of two significands of exponents that differ. -/
def subAligned (signZ : Bool) (expZ sigX expY sigY : Nat) : Nat :=
  let sigY := shiftRightJam k.width (shifted k.subShift k.subHidden expY sigY) (expZ - expY)
  normRoundPackTo k.toPacking signZ (expZ - 1) ((sigX <<< k.subShift ||| k.subHidden) - sigY)

/-- The difference of two significands of one exponent. -/
def subEqual (signZ : Bool) (expA : Nat) (sigDiff : Nat) : Nat :=
  let shiftDist := k.countLeadingZeros sigDiff - k.spareBits
  let expZ : Int := expA - shiftDist
  if expZ < 0 then packToUI k.toPacking signZ 0 (sigDiff <<< expA)
  else packToUI k.toPacking signZ expZ (sigDiff <<< shiftDist)

/-- `softfloat_subMagsF32` and `softfloat_subMagsF64` -/
def subMags (uiA uiB : Nat) (signZ : Bool) : Nat :=
  let expA := expUI k.toOperands uiA
  let sigA := fracUI k.toOperands uiA
  let expB := expUI k.toOperands uiB
  let sigB := fracUI k.toOperands uiB
  if expA = expB then
    if expA = k.infExp then
      if sigA ||| sigB ≠ 0 then propagateNaN k.toOperands uiA uiB else k.defaultNaN
    else if sigA = sigB then packToUI k.toPacking (roundingMode == .min) 0 0
    else if sigA < sigB then subEqual k (!signZ) (expA - 1) (sigB - sigA)
    else subEqual k signZ (expA - 1) (sigA - sigB)
  else if expA < expB then
    if expB = k.infExp then
      if sigB ≠ 0 then propagateNaN k.toOperands uiA uiB
      else packToUI k.toPacking (!signZ) k.infExp 0
    else subAligned k (!signZ) expB sigB expA sigA
  else
    if expA = k.infExp then
      if sigA ≠ 0 then propagateNaN k.toOperands uiA uiB else uiA
    else subAligned k signZ expA sigA expB sigB

end Mags

/-! ## The functions -/

def addEqualF32 (signZ : Bool) (expZ : Int) (sigZ : Nat) : Nat :=
  if sigZ &&& 1 = 0 ∧ expZ < 0xFE then packToUI packingF32 signZ expZ (sigZ >>> 1)
  else roundPackTo packingF32 signZ expZ (sigZ <<< 6)

def addEqualF64 (signZ : Bool) (expZ : Int) (sigZ : Nat) : Nat :=
  roundPackTo packingF64 signZ expZ (sigZ <<< 9)

def addMagsF32 (uiA uiB : Nat) : UInt32 :=
  .ofNat (addMags magsF32 addEqualF32 uiA uiB (signUI operandsF32 uiA))

def subMagsF32 (uiA uiB : Nat) : UInt32 :=
  .ofNat (subMags magsF32 uiA uiB (signUI operandsF32 uiA))

def addMagsF64 (uiA uiB : Nat) (signZ : Bool) : UInt64 :=
  .ofNat (addMags magsF64 addEqualF64 uiA uiB signZ)

def subMagsF64 (uiA uiB : Nat) (signZ : Bool) : UInt64 :=
  .ofNat (subMags magsF64 uiA uiB signZ)

def f32Add (a b : UInt32) : UInt32 :=
  let uiA := a.toNat
  let uiB := b.toNat
  if signUI operandsF32 (uiA ^^^ uiB) then subMagsF32 uiA uiB else addMagsF32 uiA uiB

def f32Sub (a b : UInt32) : UInt32 :=
  let uiA := a.toNat
  let uiB := b.toNat
  if signUI operandsF32 (uiA ^^^ uiB) then addMagsF32 uiA uiB else subMagsF32 uiA uiB

def f64Add (a b : UInt64) : UInt64 :=
  let uiA := a.toNat
  let signA := signUI operandsF64 uiA
  let uiB := b.toNat
  let signB := signUI operandsF64 uiB
  if signA = signB then addMagsF64 uiA uiB signA else subMagsF64 uiA uiB signA

def f64Sub (a b : UInt64) : UInt64 :=
  let uiA := a.toNat
  let signA := signUI operandsF64 uiA
  let uiB := b.toNat
  let signB := signUI operandsF64 uiB
  if signA = signB then subMagsF64 uiA uiB signA else addMagsF64 uiA uiB signA

/-! ## Aligned significands -/

section Aligned

variable {fmt : Format} {k : Mags fmt} {p q : Nat} {sign : Bool} {shift : Nat}

theorem shifted_lt (fmt : Format) (shift p : Nat) :
    shifted shift (2 ^ (fmt.fracBits + shift)) (fmt.exponent p) (fmt.fraction p) <
      2 ^ (fmt.fracBits + shift + 1) := by
  have hlt : fmt.fraction p * 2 ^ shift < 2 ^ (fmt.fracBits + shift) := by
    rw [Nat.pow_add]
    exact Nat.mul_lt_mul_of_pos_right (Format.fraction_lt fmt p) (Nat.two_pow_pos _)
  rw [shifted, Nat.shiftLeft_eq, Nat.pow_succ]
  split <;> omega

/-- A shifted significand in units. -/
theorem shifted_mul (fmt : Format) (shift p : Nat) :
    (shifted shift (2 ^ (fmt.fracBits + shift)) (fmt.exponent p) (fmt.fraction p) : ℚ) *
      2 ^ (fmt.exponent p - 1 - shift : ℤ) = fmt.units (fmt.magnitude p) := by
  have hshift : (2 : ℚ) ^ shift ≠ 0 := by positivity
  rw [Format.units_magnitude, shifted, Nat.shiftLeft_eq]
  by_cases hzero : fmt.exponent p = 0
  · rw [if_neg (by omega), if_pos hzero, hzero, Nat.cast_zero, zero_sub, zpow_sub₀ two_ne_zero,
      zpow_natCast]
    push_cast
    field_simp
    ring
  · obtain ⟨e, he⟩ : ∃ e, fmt.exponent p = e + 1 := ⟨fmt.exponent p - 1, by omega⟩
    rw [if_pos hzero, if_neg hzero, he, Nat.add_sub_cancel, Nat.cast_succ, add_sub_cancel_right,
      zpow_sub₀ two_ne_zero, zpow_natCast, zpow_natCast, Nat.pow_add]
    push_cast
    field_simp
    ring

/-- The significand of an exponent that is not 0. -/
theorem shifted_of_pos {exp : Nat} (hexp : 0 < exp) (sig : Nat) :
    shifted shift (2 ^ (fmt.fracBits + shift)) exp sig =
      2 ^ (fmt.fracBits + shift) + sig <<< shift := by
  rw [shifted, if_pos hexp.ne', Nat.add_comm]

/-- Shifted to the place of a greater exponent, a significand is in the units of that exponent. -/
theorem units_aligned (fmt : Format) (shift : Nat) {e : Nat} (hlt : fmt.exponent q < e) :
    (fmt.units (fmt.magnitude q) : ℚ) =
      shifted shift (2 ^ (fmt.fracBits + shift)) (fmt.exponent q) (fmt.fraction q) /
        2 ^ (e - fmt.exponent q) * 2 ^ (e - 1 - shift : ℤ) := by
  rw [← shifted_mul fmt shift q, div_mul_eq_mul_div, eq_div_iff (by positivity), mul_assoc,
    ← zpow_natCast, ← zpow_add₀ two_ne_zero]
  congr 2
  omega

/-- The hidden bit and the shifted digits are even. -/
theorem two_dvd_hidden_add (fmt : Format) (hshift : 0 < shift) (sig : Nat) :
    2 ∣ 2 ^ (fmt.fracBits + shift) + sig <<< shift := by
  rw [Nat.shiftLeft_eq]
  exact Nat.dvd_add (dvd_pow_self 2 (by omega)) (Dvd.dvd.mul_left (dvd_pow_self 2 (by omega)) _)

/-- A shifted significand ends in zeros. -/
theorem dvd_shifted (fmt : Format) (shift p : Nat) :
    2 ^ shift ∣
      shifted shift (2 ^ (fmt.fracBits + shift)) (fmt.exponent p) (fmt.fraction p) := by
  rw [shifted, Nat.shiftLeft_eq, Nat.pow_add]
  split
  · exact Nat.dvd_add (Nat.dvd_mul_left _ _) (Nat.dvd_mul_left _ _)
  · exact Nat.dvd_add (Nat.dvd_mul_left _ _) (Nat.dvd_mul_left _ _)

/-- A shifted significand fits the word it is jammed in. -/
theorem shiftRightJam_shifted (k : Mags fmt) (hshift : shift ≤ k.guard) (p : Nat) {d : Nat}
    (hd : 0 < d) :
    shiftRightJam k.width
        (shifted shift (2 ^ (fmt.fracBits + shift)) (fmt.exponent p) (fmt.fraction p)) d =
      jam (shifted shift (2 ^ (fmt.fracBits + shift)) (fmt.exponent p) (fmt.fraction p)) d := by
  have hadd := k.guard_add
  exact shiftRightJam_eq (Nat.lt_of_lt_of_le (shifted_lt fmt shift p)
    (Nat.pow_le_pow_right (by omega) (by omega))) hd

theorem addAligned_nearest (k : Mags fmt) (sign : Bool) (hlt : fmt.exponent q < fmt.exponent p)
    (hfinite : fmt.IsFinite p) :
    ∃ m, fmt.Nearest
        ((fmt.units (fmt.magnitude p) + fmt.units (fmt.magnitude q) : ℚ) / fmt.scale) m ∧
      addAligned k sign (fmt.exponent p) (fmt.fraction p) (fmt.exponent q) (fmt.fraction q) =
        fmt.pack sign m := by
  have hguard := k.addShift_eq
  have hthree := k.three_le_guard
  rw [Format.isFinite_iff] at hfinite
  have hexponent := Format.exponent_lt fmt p
  have hx := shifted_mul fmt k.addShift p
  have hxlt := shifted_lt fmt k.addShift p
  rw [shifted_of_pos (by omega)] at hx hxlt
  have hy := units_aligned fmt k.addShift hlt
  have hjam := shiftRightJam_shifted k (Nat.le_of_succ_le hguard.le) q (Nat.sub_pos_of_lt hlt)
  obtain ⟨hplace, hhigh⟩ := add_jam (two_dvd_hidden_add fmt (by omega) (fmt.fraction p)) hxlt
    (shifted_lt fmt k.addShift q) (by omega) (Nat.sub_pos_of_lt hlt)
  have hunit : (fmt.exponent p - 1 - k.addShift : ℤ) = fmt.exponent p - k.guard := by omega
  have hwidth : fmt.fracBits + k.addShift + 2 = fmt.fracBits + k.guard + 1 := by omega
  rw [← hx, hy, ← add_mul, hunit]
  rw [hwidth] at hhigh
  simp only [addAligned, k.addHidden_eq, k.addCarry_eq, hjam]
  have hrange := k.expLimit_lt
  have hlimit := k.expLimit_eq
  refine packCarry_nearest k.toPacking sign hplace ?_ hhigh (by omega) (by omega)
  rw [← hguard, ← Nat.add_assoc, Nat.pow_succ, Nat.pow_one, Nat.add_assoc (2 ^ _)]
  exact Nat.mul_le_mul_right _ (Nat.le_add_right _ _)

/-- A difference is rounded after the shift that its leading zeros ask for. -/
theorem packDifference_nearest (k : Mags fmt) (sign : Bool) {e z : Nat} {v : ℚ}
    (he : e ≤ 2 * fmt.bias) (hpos : 0 < z) (hhigh : z < 2 ^ (fmt.fracBits + k.guard + 1))
    (hcases : v = z ∨ SamePlace 2 v z ∧ 2 ^ (fmt.fracBits + k.guard) ≤ z * 2) :
    ∃ m, fmt.Nearest (v * 2 ^ (e - 1 - k.guard : ℤ) / fmt.scale) m ∧
      normRoundPackTo k.toPacking sign (e - 1) z = fmt.pack sign m := by
  have hthree := k.three_le_guard
  have hrange := k.expLimit_lt
  have hlimit := k.expLimit_eq
  have hbits := fracBits_add_guard_lt k.toPacking
  obtain ⟨s, hs, hlow, hhigh⟩ := exists_full (n := fmt.fracBits + k.guard) hpos hhigh
  refine normRoundPackTo_nearest k.toPacking sign ?_ hlow hhigh (by omega) (by omega)
  rcases hcases with hexact | ⟨hplace, hhalf⟩
  · exact .of_eq (by rw [hexact])
  · have hone : s ≤ 1 := by
      by_contra hge
      have hpow : 2 ^ 2 ≤ 2 ^ s := Nat.pow_le_pow_right (by omega) (by omega)
      have hmul := Nat.mul_le_mul_left z hpow
      rw [Nat.pow_succ] at hhigh
      omega
    rw [← pow_one (2 : ℚ)] at hplace
    have hguarded := samePlace_of_guard k.toPacking (hplace.shift s) (by omega) (e - 1 - s)
    rw [sub_right_comm _ (s : ℤ), mul_pow_mul_zpow, Nat.cast_mul, Nat.cast_pow, Nat.cast_ofNat,
      mul_pow_mul_zpow] at hguarded
    exact hguarded

theorem subAligned_nearest (k : Mags fmt) (sign : Bool) (hlt : fmt.exponent q < fmt.exponent p)
    (hfinite : fmt.IsFinite p) :
    ∃ m, fmt.Nearest
        ((fmt.units (fmt.magnitude p) - fmt.units (fmt.magnitude q) : ℚ) / fmt.scale) m ∧
      subAligned k sign (fmt.exponent p) (fmt.fraction p) (fmt.exponent q) (fmt.fraction q) =
        fmt.pack sign m := by
  have hshift := k.subShift_eq
  have hthree := k.three_le_guard
  have hbits := fracBits_add_guard_lt k.toPacking
  rw [Format.isFinite_iff] at hfinite
  have hexponent := Format.exponent_lt fmt p
  have hx := shifted_mul fmt k.guard p
  have hxlt := shifted_lt fmt k.guard p
  rw [shifted_of_pos (by omega)] at hx hxlt
  have hy := units_aligned fmt k.guard hlt
  have hjam := shiftRightJam_shifted k (le_refl k.guard) q (Nat.sub_pos_of_lt hlt)
  obtain ⟨hpos, hcases⟩ := sub_jam (two_dvd_hidden_add fmt (by omega) (fmt.fraction p))
    (Nat.le_add_right _ _) (shifted_lt fmt k.guard q) (by omega) (by omega)
    (dvd_shifted fmt k.guard q) (Nat.sub_pos_of_lt hlt)
  have hor : fmt.fraction p <<< k.guard ||| 2 ^ (fmt.fracBits + k.guard) =
      2 ^ (fmt.fracBits + k.guard) + fmt.fraction p <<< k.guard := by
    refine or_two_pow ?_
    rw [Nat.shiftLeft_eq, Nat.pow_add]
    exact Nat.mul_lt_mul_of_pos_right (Format.fraction_lt fmt p) (Nat.two_pow_pos _)
  rw [← hx, hy, ← sub_mul]
  simp only [subAligned, k.subHidden_eq, hshift, hor, hjam]
  exact packDifference_nearest k sign (by omega) (Nat.sub_pos_of_lt hpos) (by omega) hcases

/-! ## Significands of one exponent -/

theorem subEqual_nearest (k : Mags fmt) (sign : Bool) {e z : Nat} (hpos : 0 < z)
    (hlt : z < 2 ^ fmt.fracBits) (he : e < 2 * fmt.bias) :
    ∃ m, fmt.Nearest ((z * 2 ^ e : ℚ) / fmt.scale) m ∧ subEqual k sign e z = fmt.pack sign m := by
  obtain ⟨d, hd, hdle, hlow', hhigh'⟩ := exists_countLeadingZeros_eq k.toOperands hpos hlt
  simp only [subEqual, hd, Nat.add_sub_cancel]
  by_cases hneg : (e : Int) - d < 0
  · have hle : z * 2 ^ e ≤ z * 2 ^ d :=
      Nat.mul_le_mul_left _ (Nat.pow_le_pow_right (by omega) (by omega))
    have hinfinity := @Format.add_le_infinity fmt 0 (z * 2 ^ e) (by omega) (by omega)
    rw [Nat.zero_mul, Nat.zero_add] at hinfinity
    have hnearest := nearest_units hinfinity
    rw [Format.units_of_le (by omega)] at hnearest
    rw [if_pos hneg, ← Nat.cast_zero, packToUI_natCast _ _ (by omega), Nat.zero_mul, Nat.zero_add,
      Nat.shiftLeft_eq]
    exact ⟨_, by exact_mod_cast hnearest, rfl⟩
  · obtain ⟨e', rfl⟩ : ∃ e', e = e' + d := ⟨e - d, by omega⟩
    have hnearest :=
      nearest_units (@Format.add_le_infinity fmt e' (z * 2 ^ d) (by omega) (by omega))
    rw [Format.units_add (.inr hlow') hhigh'.le, Nat.mul_assoc, ← Nat.pow_add,
      Nat.add_comm d] at hnearest
    rw [if_neg hneg, Nat.cast_add, add_sub_cancel_right, packToUI_natCast _ _ (by omega),
      Nat.shiftLeft_eq]
    exact ⟨_, by exact_mod_cast hnearest, rfl⟩

/-- What a format does with the sum of two significands of one exponent that is not 0. -/
def AddsEqual (fmt : Format) (addEqual : Bool → Int → Nat → Nat) : Prop :=
  ∀ sign, ∀ e z : Nat, e < 2 * fmt.bias → 2 ^ (fmt.fracBits + 1) ≤ z → z < 2 ^ (fmt.fracBits + 2) →
    ∃ m, fmt.Nearest ((z * 2 ^ e : ℚ) / fmt.scale) m ∧
      addEqual sign (e + 1 : Nat) z = fmt.pack sign m

theorem addsEqual_roundPackTo (k : Mags fmt) :
    AddsEqual fmt fun sign exp sig => roundPackTo k.toPacking sign exp (sig <<< k.addShift) := by
  intro sign e z he hlow hhigh
  have hguard := k.addShift_eq
  have hlimit := k.expLimit_eq
  have hrange := k.expLimit_lt
  have hvalue : (z * 2 ^ e : ℚ) =
      (z * 2 ^ k.addShift : Nat) * 2 ^ (((e + 1 : Nat) : ℤ) - k.guard) := by
    rw [Nat.cast_mul, Nat.cast_pow, Nat.cast_ofNat, mul_assoc, ← zpow_natCast, ← zpow_natCast,
      ← zpow_add₀ two_ne_zero]
    congr 2
    omega
  simp only [Nat.shiftLeft_eq]
  rw [hvalue]
  refine roundPackTo_nearest k.toPacking sign (.refl _ _) ?_ ?_ (by omega) (by omega)
  · rw [← hguard, ← Nat.add_assoc, Nat.add_right_comm, Nat.pow_add]
    exact Nat.mul_le_mul_right _ hlow
  · rw [show fmt.fracBits + k.guard + 1 = fmt.fracBits + 2 + k.addShift by omega, Nat.pow_add]
    exact Nat.mul_lt_mul_of_pos_right hhigh (Nat.two_pow_pos _)

theorem addEqualF64_addsEqual : AddsEqual binary64 addEqualF64 := addsEqual_roundPackTo magsF64

/-- An even sum needs no rounding, but the largest exponent has no next one. -/
theorem addEqualF32_addsEqual : AddsEqual binary32 addEqualF32 := by
  intro sign e z he hlow hhigh
  have hbias : binary32.bias = 127 := rfl
  rw [Nat.pow_succ] at hlow
  have hhigh' : 2 ^ (binary32.fracBits + 2) = 4 * 2 ^ binary32.fracBits := by
    rw [Nat.pow_add, Nat.mul_comm]
  by_cases heven : z &&& 1 = 0 ∧ ((e + 1 : Nat) : Int) < 0xFE
  · obtain ⟨c, rfl⟩ : ∃ c, z = 2 * c := by
      have hand := heven.1
      rw [Nat.and_one_is_mod] at hand
      exact ⟨z / 2, by omega⟩
    have hnearest :=
      nearest_units (@Format.add_le_infinity binary32 (e + 1) c (by omega) (by omega))
    rw [Format.units_add (.inr (by omega)) (by omega), Nat.pow_succ', ← Nat.mul_assoc,
      Nat.mul_comm c] at hnearest
    rw [addEqualF32, if_pos heven, packToUI_natCast _ _ (by omega), Nat.shiftRight_eq_div_pow,
      Nat.pow_one, Nat.mul_div_cancel_left _ (by omega)]
    exact ⟨_, by exact_mod_cast hnearest, rfl⟩
  · rw [addEqualF32, if_neg heven]
    exact addsEqual_roundPackTo magsF32 sign e z he (by rwa [Nat.pow_succ]) hhigh

end Aligned

/-! ## Sums of patterns -/

section Sums

variable {fmt : Format} {p q : Nat}

theorem number_add_number (fmt : Format) (m m' : Nat) :
    fmt.number m + fmt.number m' = (fmt.units m + fmt.units m' : ℚ) / fmt.scale := by
  rw [Format.number, Format.number, add_div]

theorem number_sub_number (fmt : Format) (m m' : Nat) :
    fmt.number m - fmt.number m' = (fmt.units m - fmt.units m' : ℚ) / fmt.scale := by
  rw [Format.number, Format.number, sub_div]

/-- An exponent below another one is not the greatest. -/
theorem isFinite_of_exponent_lt (h : fmt.exponent p < fmt.exponent q) : fmt.IsFinite p := by
  have hle := Format.exponent_lt fmt q
  exact isFinite_of_ne (by omega)

/-- The exponents decide which magnitude is the greater one. -/
theorem magnitude_lt_of_exponent_lt (h : fmt.exponent p < fmt.exponent q) :
    fmt.magnitude p < fmt.magnitude q := by
  by_contra hge
  exact absurd (Nat.div_le_div_right (Nat.le_of_not_lt hge)) (Nat.not_le.2 h)

theorem number_of_exponent_eq (hexp : fmt.exponent p = fmt.exponent q)
    (hle : fmt.fraction q ≤ fmt.fraction p) :
    fmt.number (fmt.magnitude p) - fmt.number (fmt.magnitude q) =
      ((fmt.fraction p - fmt.fraction q : Nat) * 2 ^ (fmt.exponent p - 1) : ℚ) / fmt.scale := by
  rw [number_sub_number, Format.units_magnitude, Format.units_magnitude, ← hexp, Nat.cast_sub hle]
  congr 1
  split
  · next hzero =>
    rw [hzero]
    push_cast
    ring
  · push_cast
    ring

/-- The second operand has the greater exponent: it is a NaN, an infinity or the greater number. -/
theorem sumOf_of_exponent_lt (k : Mags fmt) (hp : p < 2 ^ fmt.width) (hq : q < 2 ^ fmt.width)
    (hlt : fmt.exponent p < fmt.exponent q) {s : Bool} {r : Nat}
    (hfinite : fmt.IsFinite q → fmt.SumOf p q s r) :
    fmt.SumOf p q s
      (if fmt.exponent q = 2 * fmt.bias + 1 then
        if fmt.fraction q ≠ 0 then propagateNaN k.toOperands p q
        else packToUI k.toPacking s (2 * fmt.bias + 1 : Nat) 0
      else r) := by
  have hpfinite := isFinite_of_exponent_lt hlt
  split
  · next hmax =>
    split
    · next hfrac =>
      exact .of_nan (.inr (Format.isNaN_iff.2 ⟨hmax, hfrac⟩))
        (propagateNaN_propagates k.toOperands hp hq)
    · next hfrac =>
      rw [packToUI_infinity]
      exact .of_infinite_right hpfinite (isInfinite_of_exponent hmax hfrac)
  · next hmax => exact hfinite (isFinite_of_ne hmax)

/-- The first operand has the greater exponent. -/
theorem sumOf_of_exponent_gt (k : Mags fmt) (hp : p < 2 ^ fmt.width) (hq : q < 2 ^ fmt.width)
    (hgt : fmt.exponent q < fmt.exponent p) {s : Bool} {r : Nat}
    (hfinite : fmt.IsFinite p → fmt.SumOf p q s r) :
    fmt.SumOf p q s
      (if fmt.exponent p = 2 * fmt.bias + 1 then
        if fmt.fraction p ≠ 0 then propagateNaN k.toOperands p q else p
      else r) := by
  have hqfinite := isFinite_of_exponent_lt hgt
  split
  · next hmax =>
    split
    · next hfrac =>
      exact .of_nan (.inl (Format.isNaN_iff.2 ⟨hmax, hfrac⟩))
        (propagateNaN_propagates k.toOperands hp hq)
    · next hfrac =>
      exact .of_infinite_left hp (isInfinite_of_exponent hmax hfrac) (by omega) (by omega)
  · next hmax => exact hfinite (isFinite_of_ne hmax)

/-- Of two operands with the greatest exponent, one is a NaN if a fraction is not 0. -/
theorem isNaN_or_isNaN (heq : fmt.exponent p = fmt.exponent q)
    (hmax : fmt.exponent p = 2 * fmt.bias + 1) (hfrac : fmt.fraction p ||| fmt.fraction q ≠ 0) :
    fmt.IsNaN p ∨ fmt.IsNaN q := by
  rw [Format.isNaN_iff, Format.isNaN_iff, ← heq, and_iff_right hmax, and_iff_right hmax,
    ← not_and_or, ← Nat.or_eq_zero_iff]
  exact hfrac

/-- Two numbers without a hidden bit: their sum has its place in the pattern. -/
theorem addSubnormals_sumOf (hp : p < 2 ^ fmt.width) (heq : fmt.exponent p = fmt.exponent q)
    (hzero : fmt.exponent p = 0) :
    fmt.SumOf p q (fmt.sign p) (p + fmt.fraction q) := by
  have hpfinite : fmt.IsFinite p := isFinite_of_ne (by omega)
  have hqfinite : fmt.IsFinite q := isFinite_of_ne (by omega)
  have hpunits := Format.units_magnitude fmt p
  have hqunits := Format.units_magnitude fmt q
  rw [if_pos hzero] at hpunits
  rw [← heq, if_pos hzero] at hqunits
  have hpmagnitude := Format.exponent_mul_add_fraction fmt p
  have hplt := Format.fraction_lt fmt p
  have hqlt := Format.fraction_lt fmt q
  rw [hzero, Nat.zero_mul, Nat.zero_add] at hpmagnitude
  have hbias := Format.bias_pos fmt
  have hinfinity := @Format.add_le_infinity fmt 0 (fmt.fraction p + fmt.fraction q) (by omega)
    (by omega)
  rw [Nat.zero_mul, Nat.zero_add] at hinfinity
  have hnearest := nearest_units hinfinity
  rw [Format.units_of_le (by omega), ← hqunits, ← hpunits, Nat.cast_add,
    ← number_add_number] at hnearest
  have hpack : p + fmt.fraction q =
      fmt.pack (fmt.sign p) (fmt.units (fmt.magnitude p) + fmt.units (fmt.magnitude q)) := by
    have hsame := Format.pack_sign_magnitude hp
    unfold Format.pack at *
    omega
  rw [hpack]
  exact .of_finite hnearest.pack_lt hpfinite hqfinite (Format.rounded_add hnearest)

/-- Two numbers with the same exponent, and with their hidden bits. -/
theorem addEqual_sumOf (k : Mags fmt) {addEqual : Bool → Int → Nat → Nat}
    (hequal : AddsEqual fmt addEqual) (heq : fmt.exponent p = fmt.exponent q)
    (hzero : fmt.exponent p ≠ 0) (hmax : fmt.exponent p ≠ 2 * fmt.bias + 1) :
    fmt.SumOf p q (fmt.sign p)
      (addEqual (fmt.sign p) (fmt.exponent p) (k.bothHidden + fmt.fraction p + fmt.fraction q)) := by
  have hple := Format.exponent_lt fmt p
  have hplt := Format.fraction_lt fmt p
  have hqlt := Format.fraction_lt fmt q
  have hpfinite : fmt.IsFinite p := isFinite_of_ne hmax
  have hqfinite : fmt.IsFinite q := isFinite_of_ne (heq ▸ hmax)
  have hboth : k.bothHidden = 2 * 2 ^ fmt.fracBits := by
    rw [k.bothHidden_eq, Nat.pow_succ']
  obtain ⟨m, hnearest, hpack⟩ := hequal (fmt.sign p) (fmt.exponent p - 1)
    (k.bothHidden + fmt.fraction p + fmt.fraction q) (by omega)
    (by rw [← k.bothHidden_eq]; omega)
    (by rw [Nat.pow_succ', Nat.pow_succ', ← hboth]; omega)
  have hsum : ((k.bothHidden + fmt.fraction p + fmt.fraction q : Nat) *
      2 ^ (fmt.exponent p - 1) : ℚ) =
        fmt.units (fmt.magnitude p) + fmt.units (fmt.magnitude q) := by
    rw [Format.units_magnitude, Format.units_magnitude, ← heq, if_neg hzero, if_neg hzero, hboth]
    push_cast
    ring
  rw [hsum, ← number_add_number] at hnearest
  rw [Nat.sub_add_cancel (by omega)] at hpack
  rw [hpack]
  exact .of_finite hnearest.pack_lt hpfinite hqfinite (Format.rounded_add hnearest)

theorem addMags_sumOf (k : Mags fmt) {addEqual : Bool → Int → Nat → Nat}
    (hequal : AddsEqual fmt addEqual) (hp : p < 2 ^ fmt.width) (hq : q < 2 ^ fmt.width) :
    fmt.SumOf p q (fmt.sign p) (addMags k addEqual p q (fmt.sign p)) := by
  simp only [addMags, expUI_eq, fracUI_eq, k.infExp_eq]
  rcases Nat.lt_trichotomy (fmt.exponent p) (fmt.exponent q) with hlt | heq | hgt
  · rw [if_neg hlt.ne, if_pos hlt]
    refine sumOf_of_exponent_lt k hp hq hlt fun hqfinite => ?_
    obtain ⟨m, hnearest, hpack⟩ := addAligned_nearest k (fmt.sign p) hlt hqfinite
    rw [add_comm, ← number_add_number] at hnearest
    rw [hpack]
    exact .of_finite hnearest.pack_lt (isFinite_of_exponent_lt hlt) hqfinite
      (Format.rounded_add hnearest)
  · rw [if_pos heq]
    by_cases hzero : fmt.exponent p = 0
    · rw [if_pos hzero]
      exact addSubnormals_sumOf hp heq hzero
    · rw [if_neg hzero]
      by_cases hmax : fmt.exponent p = 2 * fmt.bias + 1
      · rw [if_pos hmax]
        split
        · next hfrac =>
          exact .of_nan (isNaN_or_isNaN heq hmax hfrac) (propagateNaN_propagates k.toOperands hp hq)
        · next hfrac =>
          obtain ⟨hpzero, hqzero⟩ := Nat.or_eq_zero_iff.1 (not_not.1 hfrac)
          exact .of_infinite_left hp (isInfinite_of_exponent hmax (not_not.2 hpzero))
            (fun hnan => (Format.isNaN_iff.1 hnan).2 hqzero) fun _ => rfl
      · rw [if_neg hmax]
        exact addEqual_sumOf k hequal heq hzero hmax
  · rw [if_neg hgt.ne', if_neg hgt.not_gt]
    refine sumOf_of_exponent_gt k hp hq hgt fun hpfinite => ?_
    obtain ⟨m, hnearest, hpack⟩ := addAligned_nearest k (fmt.sign p) hgt hpfinite
    rw [← number_add_number] at hnearest
    rw [hpack]
    exact .of_finite hnearest.pack_lt hpfinite (isFinite_of_exponent_lt hgt)
      (Format.rounded_add hnearest)

/-- Two numbers with the same exponent, of which the one that is taken away has the greater
fraction. -/
theorem subEqual_sumOf_of_lt (k : Mags fmt) (heq : fmt.exponent p = fmt.exponent q)
    (hmax : fmt.exponent p ≠ 2 * fmt.bias + 1) (hfrac : fmt.fraction p < fmt.fraction q) :
    fmt.SumOf p q (!fmt.sign p)
      (subEqual k (!fmt.sign p) (fmt.exponent p - 1) (fmt.fraction q - fmt.fraction p)) := by
  have hle := Format.exponent_lt fmt p
  have hlt := Format.fraction_lt fmt q
  have hbias := Format.bias_pos fmt
  have hpmagnitude := Format.exponent_mul_add_fraction fmt p
  have hqmagnitude := Format.exponent_mul_add_fraction fmt q
  rw [← heq] at hqmagnitude
  obtain ⟨m, hnearest, hpack⟩ := subEqual_nearest k (!fmt.sign p)
    (z := fmt.fraction q - fmt.fraction p) (e := fmt.exponent p - 1) (by omega) (by omega)
    (by omega)
  rw [heq, ← number_of_exponent_eq heq.symm hfrac.le] at hnearest
  rw [hpack]
  exact .of_finite hnearest.pack_lt (isFinite_of_ne hmax) (isFinite_of_ne (heq ▸ hmax))
    (Format.rounded_sub' (by omega) hnearest)

/-- Two numbers with the same exponent, of which the first has the greater fraction. -/
theorem subEqual_sumOf_of_gt (k : Mags fmt) (heq : fmt.exponent p = fmt.exponent q)
    (hmax : fmt.exponent p ≠ 2 * fmt.bias + 1) (hfrac : fmt.fraction q < fmt.fraction p) :
    fmt.SumOf p q (!fmt.sign p)
      (subEqual k (fmt.sign p) (fmt.exponent p - 1) (fmt.fraction p - fmt.fraction q)) := by
  have hle := Format.exponent_lt fmt p
  have hlt := Format.fraction_lt fmt p
  have hbias := Format.bias_pos fmt
  have hpmagnitude := Format.exponent_mul_add_fraction fmt p
  have hqmagnitude := Format.exponent_mul_add_fraction fmt q
  rw [← heq] at hqmagnitude
  obtain ⟨m, hnearest, hpack⟩ := subEqual_nearest k (fmt.sign p)
    (z := fmt.fraction p - fmt.fraction q) (e := fmt.exponent p - 1) (by omega) (by omega)
    (by omega)
  rw [← number_of_exponent_eq heq hfrac.le] at hnearest
  rw [hpack]
  exact .of_finite hnearest.pack_lt (isFinite_of_ne hmax) (isFinite_of_ne (heq ▸ hmax))
    (Format.rounded_sub (by omega) hnearest)

theorem subMags_sumOf (k : Mags fmt) (hp : p < 2 ^ fmt.width) (hq : q < 2 ^ fmt.width) :
    fmt.SumOf p q (!fmt.sign p) (subMags k p q (fmt.sign p)) := by
  simp only [subMags, expUI_eq, fracUI_eq, k.infExp_eq]
  rcases Nat.lt_trichotomy (fmt.exponent p) (fmt.exponent q) with hlt | heq | hgt
  · rw [if_neg hlt.ne, if_pos hlt]
    refine sumOf_of_exponent_lt k hp hq hlt fun hqfinite => ?_
    obtain ⟨m, hnearest, hpack⟩ := subAligned_nearest k (!fmt.sign p) hlt hqfinite
    rw [← number_sub_number] at hnearest
    rw [hpack]
    exact .of_finite hnearest.pack_lt (isFinite_of_exponent_lt hlt) hqfinite
      (Format.rounded_sub' (magnitude_lt_of_exponent_lt hlt) hnearest)
  · rw [if_pos heq]
    by_cases hmax : fmt.exponent p = 2 * fmt.bias + 1
    · rw [if_pos hmax]
      split
      · next hfrac =>
        exact .of_nan (isNaN_or_isNaN heq hmax hfrac) (propagateNaN_propagates k.toOperands hp hq)
      · next hfrac =>
        obtain ⟨hpzero, hqzero⟩ := Nat.or_eq_zero_iff.1 (not_not.1 hfrac)
        rw [k.defaultNaN_eq]
        exact .of_invalid (isInfinite_of_exponent hmax (not_not.2 hpzero))
          (isInfinite_of_exponent (heq ▸ hmax) (not_not.2 hqzero)) (by simp)
    · rw [if_neg hmax]
      rcases Nat.lt_trichotomy (fmt.fraction p) (fmt.fraction q) with hfrac | hfrac | hfrac
      · rw [if_neg hfrac.ne, if_pos hfrac]
        exact subEqual_sumOf_of_lt k heq hmax hfrac
      · have hpmagnitude := Format.exponent_mul_add_fraction fmt p
        have hqmagnitude := Format.exponent_mul_add_fraction fmt q
        rw [← heq] at hqmagnitude
        rw [if_pos hfrac, packToUI_zero]
        exact .of_finite (Format.pack_lt (Nat.two_pow_pos _)) (isFinite_of_ne hmax)
          (isFinite_of_ne (heq ▸ hmax)) (Format.rounded_cancel (by omega))
      · rw [if_neg hfrac.ne', if_neg hfrac.not_gt]
        exact subEqual_sumOf_of_gt k heq hmax hfrac
  · rw [if_neg hgt.ne', if_neg hgt.not_gt]
    refine sumOf_of_exponent_gt k hp hq hgt fun hpfinite => ?_
    obtain ⟨m, hnearest, hpack⟩ := subAligned_nearest k (fmt.sign p) hgt hpfinite
    rw [← number_sub_number] at hnearest
    rw [hpack]
    exact .of_finite hnearest.pack_lt hpfinite (isFinite_of_exponent_lt hgt)
      (Format.rounded_sub (magnitude_lt_of_exponent_lt hgt) hnearest)

end Sums

/-! ## The functions return sums and differences -/

/-- The signs of two patterns differ. -/
theorem signUI_xor {fmt : Format} (k : Operands fmt) {p q : Nat} (hp : p < 2 ^ fmt.width)
    (hq : q < 2 ^ fmt.width) : signUI k (p ^^^ q) = (fmt.sign p ^^ fmt.sign q) := by
  have hbit : ∀ {x : Nat}, x < 2 ^ fmt.width → x >>> k.signShift = (fmt.sign x).toNat := by
    intro x hx
    rw [Nat.shiftRight_eq_div_pow, k.signShift_eq, Format.sign]
    rw [Format.width, Nat.pow_succ] at hx
    by_cases hle : 2 ^ fmt.magnitudeBits ≤ x
    · rw [decide_eq_true hle]
      exact Nat.div_eq_of_lt_le (by simpa using hle) (by simp; omega)
    · rw [decide_eq_false hle]
      exact Nat.div_eq_of_lt (Nat.lt_of_not_le hle)
  rw [signUI, Nat.shiftRight_xor_distrib, hbit hp, hbit hq]
  cases fmt.sign p <;> cases fmt.sign q <;> rfl

section Binary32

variable (a b : UInt32)

theorem addMagsF32_sumOf :
    binary32.SumOf a.toNat b.toNat (binary32.sign a.toNat) (addMagsF32 a.toNat b.toNat).toNat := by
  have hsum := addMags_sumOf magsF32 addEqualF32_addsEqual (toNat_lt_width32 a) (toNat_lt_width32 b)
  rwa [addMagsF32, signUI_eq, UInt32.toNat_ofNat_of_lt' hsum.lt]

theorem subMagsF32_sumOf :
    binary32.SumOf a.toNat b.toNat (!binary32.sign a.toNat) (subMagsF32 a.toNat b.toNat).toNat := by
  have hsum := subMags_sumOf magsF32 (toNat_lt_width32 a) (toNat_lt_width32 b)
  rwa [subMagsF32, signUI_eq, UInt32.toNat_ofNat_of_lt' hsum.lt]

theorem f32Add_sumOf :
    binary32.SumOf a.toNat b.toNat (binary32.sign b.toNat) (f32Add a b).toNat := by
  have hadd := addMagsF32_sumOf a b
  have hsub := subMagsF32_sumOf a b
  simp only [f32Add, signUI_xor operandsF32 (toNat_lt_width32 a) (toNat_lt_width32 b)]
  cases hsa : binary32.sign a.toNat <;> cases hsb : binary32.sign b.toNat <;> rw [hsa] at hadd hsub
  · exact hadd
  · exact hsub
  · exact hsub
  · exact hadd

theorem f32Sub_sumOf :
    binary32.SumOf a.toNat b.toNat (!binary32.sign b.toNat) (f32Sub a b).toNat := by
  have hadd := addMagsF32_sumOf a b
  have hsub := subMagsF32_sumOf a b
  simp only [f32Sub, signUI_xor operandsF32 (toNat_lt_width32 a) (toNat_lt_width32 b)]
  cases hsa : binary32.sign a.toNat <;> cases hsb : binary32.sign b.toNat <;> rw [hsa] at hadd hsub
  · exact hsub
  · exact hadd
  · exact hadd
  · exact hsub

end Binary32

section Binary64

variable (a b : UInt64)

theorem addMagsF64_sumOf : binary64.SumOf a.toNat b.toNat (binary64.sign a.toNat)
    (addMagsF64 a.toNat b.toNat (binary64.sign a.toNat)).toNat := by
  have hsum := addMags_sumOf magsF64 addEqualF64_addsEqual (toNat_lt_width64 a) (toNat_lt_width64 b)
  rwa [addMagsF64, UInt64.toNat_ofNat_of_lt' hsum.lt]

theorem subMagsF64_sumOf : binary64.SumOf a.toNat b.toNat (!binary64.sign a.toNat)
    (subMagsF64 a.toNat b.toNat (binary64.sign a.toNat)).toNat := by
  have hsum := subMags_sumOf magsF64 (toNat_lt_width64 a) (toNat_lt_width64 b)
  rwa [subMagsF64, UInt64.toNat_ofNat_of_lt' hsum.lt]

theorem f64Add_sumOf :
    binary64.SumOf a.toNat b.toNat (binary64.sign b.toNat) (f64Add a b).toNat := by
  have hadd := addMagsF64_sumOf a b
  have hsub := subMagsF64_sumOf a b
  simp only [f64Add, signUI_eq]
  cases hsa : binary64.sign a.toNat <;> cases hsb : binary64.sign b.toNat <;> rw [hsa] at hadd hsub
  · exact hadd
  · exact hsub
  · exact hsub
  · exact hadd

theorem f64Sub_sumOf :
    binary64.SumOf a.toNat b.toNat (!binary64.sign b.toNat) (f64Sub a b).toNat := by
  have hadd := addMagsF64_sumOf a b
  have hsub := subMagsF64_sumOf a b
  simp only [f64Sub, signUI_eq]
  cases hsa : binary64.sign a.toNat <;> cases hsb : binary64.sign b.toNat <;> rw [hsa] at hadd hsub
  · exact hsub
  · exact hadd
  · exact hadd
  · exact hsub

end Binary64

/-- What the rounding by magic constants asks of addition and subtraction. -/
theorem arithmetic_f32 : binary32.Arithmetic UInt32.toNat f32Add f32Sub where
  add a b ha hb := (f32Add_sumOf a b).finite ha hb
  sub a b ha hb := by
    have hfinite := (f32Sub_sumOf a b).finite ha hb
    rwa [Format.signed_not, ← sub_eq_add_neg, ← Format.value_eq_signed] at hfinite

theorem arithmetic_f64 : binary64.Arithmetic UInt64.toNat f64Add f64Sub where
  add a b ha hb := (f64Add_sumOf a b).finite ha hb
  sub a b ha hb := by
    have hfinite := (f64Sub_sumOf a b).finite ha hb
    rwa [Format.signed_not, ← sub_eq_add_neg, ← Format.value_eq_signed] at hfinite

end Softfloat

end FractalWasm
