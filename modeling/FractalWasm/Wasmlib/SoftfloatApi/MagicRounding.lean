import FractalWasm.Ieee.Nearest
import FractalWasm.Wasmlib.SoftfloatApi.BitRounding

/-!
# Rounding by magic constants

`nearest`, and at 64 bits `ceil` and `floor`, let the addition of softfloat do the rounding: from `2
^ 23`, or `2 ^ 52`, on there is no room below one. The addition and the subtraction are parameters.

**Constants** (`invFloatEps`, `invDoubleEps`): the reciprocals of the machine epsilons, added and
taken away again.

**Assumption**: the addition and the subtraction return the exact sum rounded to nearest. It is a
hypothesis here, and is proved of the vendored functions elsewhere.

**Neighbours** (`Neighbour`): `ceil` and `floor` correct the nearest integer by one where it lies on
the wrong side.
-/

namespace FractalWasm

open Codec Ieee Softfloat

namespace SoftfloatApi

def invFloatEps : UInt32 := 0x4B000000

def invDoubleEps : UInt64 := 0x4330000000000000

section Intrinsics

variable (f32Add f32Sub : UInt32 → UInt32 → UInt32) (f64Add f64Sub : UInt64 → UInt64 → UInt64)

def eosioF32Nearest (a : UInt32) : UInt32 :=
  let e := (a >>> 23 &&& 0xFF).toNat
  let s := a >>> 31 != 0
  if e ≥ 0x7F + 23 then a
  else
    let y := if s then f32Add (f32Sub a invFloatEps) invFloatEps
      else f32Sub (f32Add a invFloatEps) invFloatEps
    if f32Eq y 0 then (if s then 0x80000000 else 0)
    else y

def eosioF64Ceil (a : UInt64) : UInt64 :=
  let e := (a >>> 52 &&& 0x7FF).toNat
  if e ≥ 0x3FF + 52 || f64Eq a 0 then a
  else
    let y := if a >>> 63 != 0 then f64Sub (f64Add (f64Sub a invDoubleEps) invDoubleEps) a
      else f64Sub (f64Sub (f64Add a invDoubleEps) invDoubleEps) a
    if e ≤ 0x3FF - 1 then (if a >>> 63 != 0 then 0x8000000000000000 else 0x3FF0000000000000)
    else if f64Lt y 0 then f64Add (f64Add a y) 0x3FF0000000000000
    else f64Add a y

def eosioF64Floor (a : UInt64) : UInt64 :=
  let e := (a >>> 52 &&& 0x7FF).toNat
  if a == 0x8000000000000000 then a
  else if e ≥ 0x3FF + 52 || a == 0 then a
  else
    let y := if a >>> 63 != 0 then f64Sub (f64Add (f64Sub a invDoubleEps) invDoubleEps) a
      else f64Sub (f64Sub (f64Add a invDoubleEps) invDoubleEps) a
    if e ≤ 0x3FF - 1 then (if a >>> 63 != 0 then 0xBFF0000000000000 else 0)
    else if !f64Le y 0 then f64Sub (f64Add a y) 0x3FF0000000000000
    else f64Add a y

def eosioF64Nearest (a : UInt64) : UInt64 :=
  let e := (a >>> 52 &&& 0x7FF).toNat
  let s := a >>> 63 != 0
  if e ≥ 0x3FF + 52 then a
  else
    let y := if s then f64Add (f64Sub a invDoubleEps) invDoubleEps
      else f64Sub (f64Add a invDoubleEps) invDoubleEps
    if f64Eq y 0 then (if s then 0x8000000000000000 else 0)
    else y

end Intrinsics

/-! ## The nearest integer -/

section Nearest

variable {f32Add f32Sub : UInt32 → UInt32 → UInt32} {f64Add f64Sub : UInt64 → UInt64 → UInt64}

/-- The nearest integer as it is computed, with the sign put back on a zero. -/
theorem roundsTo_roundEven {fmt : Format} {p y : Nat} (hp : p < 2 ^ fmt.width)
    (hy : y < 2 ^ fmt.width) (hfraction : fmt.exponent p < fmt.bias + fmt.fracBits)
    (hfinite : fmt.IsFinite y) (hvalue : fmt.value y = roundEven (fmt.value p)) :
    fmt.RoundsTo roundEven p (if fmt.key y = 0 then fmt.pack (fmt.sign p) 0 else y) := by
  have hzero : 0 < 2 ^ fmt.magnitudeBits := Nat.two_pow_pos _
  have hkey : fmt.key y = 0 ↔ fmt.value y = 0 := by
    have hpack : fmt.value (fmt.pack false 0) = 0 := by
      simp [Format.value, Format.sign_pack hzero, Format.magnitude_pack hzero]
    have hpack' : fmt.key (fmt.pack false 0) = 0 := by
      simp [Format.key, Format.sign_pack hzero, Format.magnitude_pack hzero]
    rw [← hpack, Format.value_eq_value, hpack']
  split
  · next h =>
    have hround : roundEven (fmt.value p) = 0 := by
      rw [hkey.1 h] at hvalue
      exact_mod_cast hvalue.symm
    refine .of_value hp (Format.pack_lt hzero) roundEven_intCast
      (Format.isFinite_of_fraction hfraction) ?_ ?_ fun _ => Format.sign_pack hzero
    · rw [Format.IsFinite, Format.magnitude_pack hzero]
      exact Format.lt_infinity (by rw [Format.number_zero]; positivity)
    · rw [hround]
      simp [Format.value, Format.magnitude_pack hzero]
  · next h =>
    refine .of_value hp hy roundEven_intCast (Format.isFinite_of_fraction hfraction) hfinite hvalue
      fun hround => absurd (hkey.2 ?_) h
    rw [hvalue, hround, Int.cast_zero]

theorem toNat_signed_zero32 {s : Bool} {y : UInt32} (hfinite : binary32.IsFinite y.toNat) :
    (if f32Eq y 0 then (if s then 0x80000000 else 0) else y).toNat =
      if binary32.key y.toNat = 0 then binary32.pack s 0 else y.toNat := by
  have heq : f32Eq y 0 = true ↔ binary32.key y.toNat = 0 := by
    rw [f32Eq_eq_true, and_iff_right (Nat.not_lt.2 (Nat.le_of_lt hfinite)),
      and_iff_right (by decide)]
    rfl
  simp only [heq]
  split
  · cases s <;> rfl
  · rfl

theorem toNat_signed_zero64 {s : Bool} {y : UInt64} (hfinite : binary64.IsFinite y.toNat) :
    (if f64Eq y 0 then (if s then 0x8000000000000000 else 0) else y).toNat =
      if binary64.key y.toNat = 0 then binary64.pack s 0 else y.toNat := by
  have heq : f64Eq y 0 = true ↔ binary64.key y.toNat = 0 := by
    rw [f64Eq_eq_true, and_iff_right (Nat.not_lt.2 (Nat.le_of_lt hfinite)),
      and_iff_right (by decide)]
    rfl
  simp only [heq]
  split
  · cases s <;> rfl
  · rfl

theorem eosioF32Nearest_roundsTo (h : binary32.Arithmetic UInt32.toNat f32Add f32Sub) (a : UInt32) :
    binary32.RoundsTo roundEven a.toNat (eosioF32Nearest f32Add f32Sub a).toNat := by
  unfold eosioF32Nearest
  simp only [toNat_exponent32, shiftRight_ne_zero]
  split
  · next hlarge => exact .refl roundEven_intCast fun _ => Format.exists_value_eq hlarge
  · next hsmall =>
    have hfraction : binary32.exponent a.toNat < binary32.bias + binary32.fracBits :=
      Nat.lt_of_not_le hsmall
    obtain ⟨hfinite, hvalue⟩ := h.toInteger (c := invFloatEps) rfl hfraction
    rw [toNat_signed_zero32 hfinite]
    exact roundsTo_roundEven (toNat_lt_width32 a) (toNat_lt_width32 _) hfraction hfinite hvalue

theorem shiftRight_ne_zero64 (a : UInt64) : (a >>> 63 != 0) = binary64.sign a.toNat :=
  signF64UI_eq a

theorem eosioF64Nearest_roundsTo (h : binary64.Arithmetic UInt64.toNat f64Add f64Sub) (a : UInt64) :
    binary64.RoundsTo roundEven a.toNat (eosioF64Nearest f64Add f64Sub a).toNat := by
  unfold eosioF64Nearest
  simp only [toNat_exponent64, shiftRight_ne_zero64]
  split
  · next hlarge => exact .refl roundEven_intCast fun _ => Format.exists_value_eq hlarge
  · next hsmall =>
    have hfraction : binary64.exponent a.toNat < binary64.bias + binary64.fracBits :=
      Nat.lt_of_not_le hsmall
    obtain ⟨hfinite, hvalue⟩ := h.toInteger (c := invDoubleEps) rfl hfraction
    rw [toNat_signed_zero64 hfinite]
    exact roundsTo_roundEven (toNat_lt_width64 a) (toNat_lt_width64 _) hfraction hfinite hvalue

end Nearest

/-! ## The integers below and above -/

section Neighbour

variable {f64Add f64Sub : UInt64 → UInt64 → UInt64} {a : UInt64}

/-- The nearest integer, the difference of `a` to it, and their sum, which is the integer again. -/
structure Neighbour (f64Add : UInt64 → UInt64 → UInt64) (a y : UInt64) : Prop where
  finite : binary64.IsFinite y.toNat
  difference : binary64.value y.toNat =
    roundEven (binary64.value a.toNat) - binary64.value a.toNat
  finite_sum : binary64.IsFinite (f64Add a y).toNat
  sum : binary64.value (f64Add a y).toNat = roundEven (binary64.value a.toNat)

theorem neighbour (h : binary64.Arithmetic UInt64.toNat f64Add f64Sub)
    (hbias : binary64.bias ≤ binary64.exponent a.toNat)
    (hfraction : binary64.exponent a.toNat < binary64.bias + binary64.fracBits) :
    Neighbour f64Add a (if binary64.sign a.toNat
      then f64Sub (f64Add (f64Sub a invDoubleEps) invDoubleEps) a
      else f64Sub (f64Sub (f64Add a invDoubleEps) invDoubleEps) a) := by
  have hfinite := Format.isFinite_of_fraction hfraction
  obtain ⟨hinteger, hvalue⟩ := h.toInteger (c := invDoubleEps) rfl hfraction
  have hnear := (nearestInteger_roundEven (binary64.value a.toNat)).1
  have hsmall : |(roundEven (binary64.value a.toNat) : ℚ) - binary64.value a.toNat| ≤ 1 := by
    rw [abs_sub_comm]
    linarith [abs_nonneg (binary64.value a.toNat - roundEven (binary64.value a.toNat))]
  have hdifference := h.sub _ a hinteger hfinite
  rw [hvalue] at hdifference
  have hexact := hdifference.exact (Format.representable_sub hbias hfraction hsmall)
  rw [apply_ite (f64Sub · a)] at hexact
  obtain ⟨hyfinite, hyvalue⟩ := hexact
  have hsum := h.add a _ hfinite hyfinite
  rw [hyvalue, add_sub_cancel] at hsum
  have hle := Format.abs_roundEven_le (Format.abs_value_lt hfraction).le
  obtain ⟨hsumfinite, hsumvalue⟩ := hsum.exact (Format.representable_intCast hle)
  exact ⟨hyfinite, hyvalue, hsumfinite, hsumvalue⟩

theorem f64Lt_zero {y : UInt64} (hfinite : binary64.IsFinite y.toNat) :
    f64Lt y 0 = true ↔ binary64.value y.toNat < 0 := by
  have hzero : binary64.value (0 : UInt64).toNat = 0 := Format.value_of_magnitude_eq_zero rfl
  rw [f64Lt_eq_true, and_iff_right (Nat.not_lt.2 (Nat.le_of_lt hfinite)), and_iff_right (by decide),
    ← Format.value_lt_value, hzero]

theorem f64Le_zero {y : UInt64} (hfinite : binary64.IsFinite y.toNat) :
    f64Le y 0 = true ↔ binary64.value y.toNat ≤ 0 := by
  have hzero : binary64.value (0 : UInt64).toNat = 0 := Format.value_of_magnitude_eq_zero rfl
  rw [f64Le_eq_true, and_iff_right (Nat.not_lt.2 (Nat.le_of_lt hfinite)), and_iff_right (by decide),
    ← not_lt, ← Format.value_lt_value, hzero, not_lt]

theorem value_one : binary64.IsFinite (0x3FF0000000000000 : UInt64).toNat ∧
    binary64.value (0x3FF0000000000000 : UInt64).toNat = 1 := by
  have hone : binary64.number (binary64.bias * 2 ^ binary64.fracBits) = 1 :=
    Format.number_binade binary64 0
  have hlt : binary64.bias * 2 ^ binary64.fracBits < binary64.infinity := by decide
  have hpack : (0x3FF0000000000000 : UInt64).toNat =
      binary64.pack false (binary64.bias * 2 ^ binary64.fracBits) := rfl
  rw [hpack]
  exact ⟨Format.isFinite_pack hlt, by rw [Format.value_pack hlt, hone, if_neg Bool.false_ne_true]⟩

theorem abs_floor_le {x : ℚ} (hx : |x| < 2 ^ binary64.fracBits) :
    |(⌊x⌋ : ℚ)| ≤ 2 ^ binary64.fracBits := by
  obtain ⟨hlow, hhigh⟩ := abs_lt.1 hx
  have hge : -2 ^ binary64.fracBits ≤ ⌊x⌋ := Int.le_floor.2 (by push_cast; linarith)
  have hle := Int.floor_le x
  rw [abs_le]
  exact ⟨by exact_mod_cast hge, by linarith⟩

theorem abs_ceil_le {x : ℚ} (hx : |x| < 2 ^ binary64.fracBits) :
    |(⌈x⌉ : ℚ)| ≤ 2 ^ binary64.fracBits := by
  have hfloor := abs_floor_le (x := -x) (by rwa [abs_neg])
  rwa [Int.floor_neg, Int.cast_neg, abs_neg] at hfloor

theorem Neighbour.ceil {y : UInt64} (hy : Neighbour f64Add a y)
    (h : binary64.Arithmetic UInt64.toNat f64Add f64Sub)
    (hfraction : binary64.exponent a.toNat < binary64.bias + binary64.fracBits) :
    let r := if f64Lt y 0 then f64Add (f64Add a y) 0x3FF0000000000000 else f64Add a y
    binary64.IsFinite r.toNat ∧ binary64.value r.toNat = ⌈binary64.value a.toNat⌉ := by
  have hhalf := (nearestInteger_roundEven (binary64.value a.toNat)).1
  have hbounds := abs_le.1 (show |binary64.value a.toNat -
    roundEven (binary64.value a.toNat)| ≤ 1 / 2 by linarith)
  have hle := abs_ceil_le (Format.abs_value_lt hfraction)
  intro r
  by_cases hlt : f64Lt y 0 = true
  · -- The nearest integer is below.
    have hbelow := (f64Lt_zero hy.finite).1 hlt
    rw [hy.difference] at hbelow
    have hceil : ⌈binary64.value a.toNat⌉ = roundEven (binary64.value a.toNat) + 1 := by
      rw [Int.ceil_eq_iff]
      constructor <;> push_cast <;> linarith
    have hadd := h.add _ _ hy.finite_sum value_one.1
    rw [hy.sum, value_one.2] at hadd
    rw [hceil] at hle
    have hexact := Format.representable_intCast hle
    rw [Int.cast_add, Int.cast_one] at hexact
    rw [hceil, Int.cast_add, Int.cast_one]
    simp only [r, hlt, if_true]
    exact hadd.exact hexact
  · have habove := mt (f64Lt_zero hy.finite).2 hlt
    rw [hy.difference, not_lt] at habove
    have hceil : ⌈binary64.value a.toNat⌉ = roundEven (binary64.value a.toNat) := by
      rw [Int.ceil_eq_iff]
      constructor <;> linarith
    simp only [r, hlt, Bool.false_eq_true, if_false, hceil]
    exact ⟨hy.finite_sum, hy.sum⟩

theorem Neighbour.floor {y : UInt64} (hy : Neighbour f64Add a y)
    (h : binary64.Arithmetic UInt64.toNat f64Add f64Sub)
    (hfraction : binary64.exponent a.toNat < binary64.bias + binary64.fracBits) :
    let r := if !f64Le y 0 then f64Sub (f64Add a y) 0x3FF0000000000000 else f64Add a y
    binary64.IsFinite r.toNat ∧ binary64.value r.toNat = ⌊binary64.value a.toNat⌋ := by
  have hhalf := (nearestInteger_roundEven (binary64.value a.toNat)).1
  have hbounds := abs_le.1 (show |binary64.value a.toNat -
    roundEven (binary64.value a.toNat)| ≤ 1 / 2 by linarith)
  have hle := abs_floor_le (Format.abs_value_lt hfraction)
  intro r
  by_cases hlt : f64Le y 0 = true
  · have hbelow := (f64Le_zero hy.finite).1 hlt
    rw [hy.difference] at hbelow
    have hfloor : ⌊binary64.value a.toNat⌋ = roundEven (binary64.value a.toNat) := by
      rw [Int.floor_eq_iff]
      constructor <;> linarith
    simp only [r, hlt, Bool.not_true, Bool.false_eq_true, if_false, hfloor]
    exact ⟨hy.finite_sum, hy.sum⟩
  · -- The nearest integer is above.
    have habove := mt (f64Le_zero hy.finite).2 hlt
    rw [hy.difference, not_le] at habove
    have hfloor : ⌊binary64.value a.toNat⌋ = roundEven (binary64.value a.toNat) - 1 := by
      rw [Int.floor_eq_iff]
      constructor <;> push_cast <;> linarith
    have hsub := h.sub _ _ hy.finite_sum value_one.1
    rw [hy.sum, value_one.2] at hsub
    rw [hfloor] at hle
    have hexact := Format.representable_intCast hle
    rw [Int.cast_sub, Int.cast_one] at hexact
    rw [hfloor, Int.cast_sub, Int.cast_one]
    simp only [r, hlt, Bool.not_false, if_true]
    exact hsub.exact hexact

end Neighbour

section CeilFloor

variable {f64Add f64Sub : UInt64 → UInt64 → UInt64}

/-- From one on, neither is zero. -/
theorem ceil_ne_zero {x : ℚ} (h : 1 ≤ |x|) : ⌈x⌉ ≠ 0 := by
  intro hzero
  obtain ⟨hlow, hhigh⟩ := Int.ceil_eq_iff.1 hzero
  push_cast at hlow hhigh
  rw [abs_of_nonpos hhigh] at h
  linarith

theorem floor_ne_zero {x : ℚ} (h : 1 ≤ |x|) : ⌊x⌋ ≠ 0 := by
  have hceil := ceil_ne_zero (x := -x) (by rwa [abs_neg])
  rw [Int.ceil_neg] at hceil
  omega

theorem eosioF64Ceil_roundsTo (h : binary64.Arithmetic UInt64.toNat f64Add f64Sub) (a : UInt64) :
    binary64.RoundsTo Int.ceil a.toNat (eosioF64Ceil f64Add f64Sub a).toNat := by
  have hinteger : ∀ n : ℤ, ⌈(n : ℚ)⌉ = n := Int.ceil_intCast
  have hwidth := toNat_lt_width64 a
  have hbias : binary64.bias = 0x3FF := rfl
  have hfrac : binary64.fracBits = 52 := rfl
  unfold eosioF64Ceil
  simp only [toNat_exponent64, shiftRight_ne_zero64]
  by_cases hlarge : binary64.exponent a.toNat ≥ 0x3FF + 52
  · rw [decide_eq_true hlarge, Bool.true_or, if_pos rfl]
    exact .refl hinteger fun _ => Format.exists_value_eq hlarge
  have hfraction : binary64.exponent a.toNat < binary64.bias + binary64.fracBits :=
    Nat.lt_of_not_le hlarge
  have hfinite := Format.isFinite_of_fraction hfraction
  have hzero : f64Eq a 0 = true ↔ binary64.magnitude a.toNat = 0 := by
    rw [f64Eq_eq_true, and_iff_right (Nat.not_lt.2 (Nat.le_of_lt hfinite)),
      and_iff_right (by decide), Format.key_eq_key hwidth (toNat_lt_width64 0)]
    have hpattern : a.toNat = (0 : UInt64).toNat → binary64.magnitude a.toNat = 0 := fun heq => by
      rw [heq]
      rfl
    have hmagnitude : binary64.magnitude (0 : UInt64).toNat = 0 := rfl
    tauto
  rw [decide_eq_false hlarge, Bool.false_or]
  simp only [hzero]
  split
  · next hmagnitude =>
    exact .refl hinteger fun _ =>
      ⟨0, by rw [Format.value_of_magnitude_eq_zero hmagnitude, Int.cast_zero]⟩
  · next hmagnitude =>
    split
    · next hsmall =>
      cases hs : binary64.sign a.toNat
      · exact Format.roundsTo_ceil_of_positive hwidth (by omega) hs hmagnitude
      · exact Format.roundsTo_ceil_of_negative hwidth (by omega) hs
    · next hone =>
      have hfrom : binary64.bias ≤ binary64.exponent a.toNat := by omega
      obtain ⟨hrfinite, hrvalue⟩ := (neighbour h hfrom hfraction).ceil h hfraction
      exact .of_value hwidth (toNat_lt_width64 _) hinteger hfinite hrfinite hrvalue fun hzero =>
        absurd hzero (ceil_ne_zero (Format.one_le_abs_value hfrom))

theorem eosioF64Floor_roundsTo (h : binary64.Arithmetic UInt64.toNat f64Add f64Sub) (a : UInt64) :
    binary64.RoundsTo Int.floor a.toNat (eosioF64Floor f64Add f64Sub a).toNat := by
  have hinteger : ∀ n : ℤ, ⌊(n : ℚ)⌋ = n := Int.floor_intCast
  have hwidth := toNat_lt_width64 a
  have hbias : binary64.bias = 0x3FF := rfl
  have hfrac : binary64.fracBits = 52 := rfl
  have hrefl : binary64.magnitude a.toNat = 0 →
      binary64.RoundsTo Int.floor a.toNat a.toNat := fun hmagnitude =>
    .refl hinteger fun _ =>
      ⟨0, by rw [Format.value_of_magnitude_eq_zero hmagnitude, Int.cast_zero]⟩
  unfold eosioF64Floor
  simp only [toNat_exponent64, shiftRight_ne_zero64]
  split
  · next hnegative =>
    rw [eq_of_beq hnegative]
    exact eq_of_beq hnegative ▸ hrefl (by rw [eq_of_beq hnegative]; rfl)
  · next hnegative =>
    by_cases hlarge : binary64.exponent a.toNat ≥ 0x3FF + 52
    · rw [decide_eq_true hlarge, Bool.true_or, if_pos rfl]
      exact .refl hinteger fun _ => Format.exists_value_eq hlarge
    have hfraction : binary64.exponent a.toNat < binary64.bias + binary64.fracBits :=
      Nat.lt_of_not_le hlarge
    have hfinite := Format.isFinite_of_fraction hfraction
    rw [decide_eq_false hlarge, Bool.false_or]
    split
    · next hpositive => exact hrefl (by rw [eq_of_beq hpositive]; rfl)
    · next hpositive =>
      have hmagnitude : binary64.magnitude a.toNat ≠ 0 := by
        have hbits : binary64.magnitude a.toNat = a.toNat % 2 ^ 63 := rfl
        have hlt := a.toNat_lt
        simp only [beq_iff_eq, ← UInt64.toNat_inj, UInt64.reduceToNat] at hnegative hpositive
        omega
      split
      · next hsmall =>
        cases hs : binary64.sign a.toNat
        · exact Format.roundsTo_floor_of_positive hwidth (by omega) hs
        · exact Format.roundsTo_floor_of_negative hwidth (by omega) hs hmagnitude
      · next hone =>
        have hfrom : binary64.bias ≤ binary64.exponent a.toNat := by omega
        obtain ⟨hrfinite, hrvalue⟩ := (neighbour h hfrom hfraction).floor h hfraction
        exact .of_value hwidth (toNat_lt_width64 _) hinteger hfinite hrfinite hrvalue fun hzero =>
          absurd hzero (floor_ne_zero (Format.one_le_abs_value hfrom))

end CeilFloor

/-- **Rounding by magic constants is exact.** With an addition and a subtraction that round to
nearest, ties to even, the four functions return the pattern of the rounded number: infinities and
integers are unchanged, and a zero has the sign of the operand. -/
theorem magic_rounding_exact {f32Add f32Sub : UInt32 → UInt32 → UInt32}
    {f64Add f64Sub : UInt64 → UInt64 → UInt64}
    (h32 : binary32.Arithmetic UInt32.toNat f32Add f32Sub)
    (h64 : binary64.Arithmetic UInt64.toNat f64Add f64Sub) (a : UInt32) (b : UInt64) :
    binary32.RoundsTo roundEven a.toNat (eosioF32Nearest f32Add f32Sub a).toNat ∧
      binary64.RoundsTo roundEven b.toNat (eosioF64Nearest f64Add f64Sub b).toNat ∧
      binary64.RoundsTo Int.ceil b.toNat (eosioF64Ceil f64Add f64Sub b).toNat ∧
      binary64.RoundsTo Int.floor b.toNat (eosioF64Floor f64Add f64Sub b).toNat :=
  ⟨eosioF32Nearest_roundsTo h32 a, eosioF64Nearest_roundsTo h64 b, eosioF64Ceil_roundsTo h64 b,
    eosioF64Floor_roundsTo h64 b⟩

theorem arithmetic32 : binary32.Arithmetic UInt32.toNat
    (fun a b => (binary32.sum a.toNat b.toNat).toUInt32)
    (fun a b => (binary32.difference a.toNat b.toNat).toUInt32) :=
  Format.arithmetic_sum _ fun _ hp => UInt32.toNat_ofNat_of_lt' hp

theorem arithmetic64 : binary64.Arithmetic UInt64.toNat
    (fun a b => (binary64.sum a.toNat b.toNat).toUInt64)
    (fun a b => (binary64.difference a.toNat b.toNat).toUInt64) :=
  Format.arithmetic_sum _ fun _ hp => UInt64.toNat_ofNat_of_lt' hp

/-- The operands are -0.5, which is halfway, and 2.5. -/
theorem magic_rounding_exact_sample :
    binary32.RoundsTo roundEven 0xBF000000 (eosioF32Nearest
        (fun a b => (binary32.sum a.toNat b.toNat).toUInt32)
        (fun a b => (binary32.difference a.toNat b.toNat).toUInt32) 0xBF000000).toNat ∧
      binary64.RoundsTo Int.ceil 0x4004000000000000 (eosioF64Ceil
        (fun a b => (binary64.sum a.toNat b.toNat).toUInt64)
        (fun a b => (binary64.difference a.toNat b.toNat).toUInt64) 0x4004000000000000).toNat := by
  have hexact := magic_rounding_exact arithmetic32 arithmetic64 0xBF000000 0x4004000000000000
  exact ⟨hexact.1, hexact.2.2.1⟩

example : eosioF64Ceil (fun a b => (binary64.sum a.toNat b.toNat).toUInt64)
    (fun a b => (binary64.difference a.toNat b.toNat).toUInt64) 0x4004000000000000 =
      0x4008000000000000 := by decide +kernel

end SoftfloatApi

end FractalWasm
