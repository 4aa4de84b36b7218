import FractalWasm.Ieee.Operations
import FractalWasm.Wasmlib.SoftfloatApi.Relops
import FractalWasm.Wasmlib.SoftfloatApi.RoundPack

/-!
# Operands

The fields of the operands of the vendored arithmetic, its NaNs, and the significands it aligns.

**Words** (`Operands`): the shifts and masks that take a pattern apart, for either width. `signUI`,
`expUI` and `fracUI` are the fields of the format.

**Normalization** (`normalized`, `Significand`): a subnormal significand is shifted to its hidden
bit, and its exponent is lowered by as much.

**NaNs** (`propagateNaN`): the NaN that the library makes of two operands is quiet, and comes from
one of them.
-/

namespace FractalWasm

open Codec Ieee

namespace Softfloat

/-- The constants by which the functions of a format take operands apart. -/
structure Operands (fmt : Format) extends Packing fmt where
  fracMask : Nat
  hiddenBit : Nat
  isNaNUI : Nat → Bool
  /-- Two masks and a value that tell signalling NaNs. -/
  sigNaNMask : Nat
  sigNaNBits : Nat
  payloadMask : Nat
  quietBit : Nat
  defaultNaN : Nat
  /-- The zeros above a significand with its hidden bit. -/
  spareBits : Nat
  fracMask_eq : fracMask = 2 ^ fmt.fracBits - 1 := by rfl
  hiddenBit_eq : hiddenBit = 2 ^ fmt.fracBits := by rfl
  infExp_eq_mask : infExp = 2 ^ fmt.expBits - 1 := by rfl
  isNaNUI_eq {p : Nat} (hp : p < 2 ^ fmt.width) : isNaNUI p = decide (fmt.IsNaN p)
  sigNaNMask_eq : sigNaNMask = (2 ^ (fmt.expBits + 1) - 1) * 2 ^ (fmt.fracBits - 1) := by rfl
  sigNaNBits_eq : sigNaNBits = (2 ^ (fmt.expBits + 1) - 2) * 2 ^ (fmt.fracBits - 1) := by rfl
  payloadMask_eq : payloadMask = 2 ^ (fmt.fracBits - 1) - 1 := by rfl
  quietBit_eq : quietBit = 2 ^ (fmt.fracBits - 1) := by rfl
  defaultNaN_eq : defaultNaN = fmt.indefinite := by rfl
  spareBits_eq : spareBits + fmt.fracBits + 1 = width := by rfl

def operandsF32 : Operands binary32 where
  toPacking := packingF32
  fracMask := 0x007FFFFF
  hiddenBit := 0x00800000
  isNaNUI ui := isNaNF32UI (.ofNat ui)
  sigNaNMask := 0x7FC00000
  sigNaNBits := 0x7F800000
  payloadMask := 0x003FFFFF
  quietBit := 0x00400000
  defaultNaN := 0xFFC00000
  spareBits := 8
  isNaNUI_eq hp := by rw [isNaNF32UI_eq, UInt32.toNat_ofNat_of_lt' hp]

def operandsF64 : Operands binary64 where
  toPacking := packingF64
  fracMask := 0x000FFFFFFFFFFFFF
  hiddenBit := 0x0010000000000000
  isNaNUI ui := isNaNF64UI (.ofNat ui)
  sigNaNMask := 0x7FF8000000000000
  sigNaNBits := 0x7FF0000000000000
  payloadMask := 0x0007FFFFFFFFFFFF
  quietBit := 0x0008000000000000
  defaultNaN := 0xFFF8000000000000
  spareBits := 11
  isNaNUI_eq hp := by rw [isNaNF64UI_eq, UInt64.toNat_ofNat_of_lt' hp]

section

variable {fmt : Format} (k : Operands fmt)

/-- `signF32UI` and `signF64UI` -/
def signUI (ui : Nat) : Bool := ui >>> k.signShift != 0

/-- `expF32UI` and `expF64UI` -/
def expUI (ui : Nat) : Nat := ui >>> k.expShift &&& k.infExp

/-- `fracF32UI` and `fracF64UI` -/
def fracUI (ui : Nat) : Nat := ui &&& k.fracMask

/-- `softfloat_isSigNaNF32UI` and `softfloat_isSigNaNF64UI` -/
def isSigNaNUI (ui : Nat) : Bool :=
  ui &&& k.sigNaNMask == k.sigNaNBits && ui &&& k.payloadMask != 0

/-- `softfloat_propagateNaNF32UI` and `softfloat_propagateNaNF64UI` -/
def propagateNaN (uiA uiB : Nat) : Nat :=
  let isSigNaNA := isSigNaNUI k uiA
  if (isSigNaNA || isSigNaNUI k uiB) && isSigNaNA then uiA ||| k.quietBit
  else (if k.isNaNUI uiA then uiA else uiB) ||| k.quietBit

/-- `softfloat_normSubnormalF32Sig` and `softfloat_normSubnormalF64Sig`: an exponent and a
significand. -/
def normSubnormalSig (sig : Nat) : Int × Nat :=
  let shiftDist := k.countLeadingZeros sig - k.spareBits
  (1 - shiftDist, sig <<< shiftDist)

/-- A significand with the hidden bit in its place, and its exponent. -/
def normalized (exp sig : Nat) : Int × Nat :=
  if exp = 0 then normSubnormalSig k sig else (exp, sig)

/-! ## Fields -/

variable {p q z : Nat}

theorem signUI_eq (p : Nat) : signUI k p = fmt.sign p := by
  rw [signUI, Nat.shiftRight_eq_div_pow, k.signShift_eq, Format.sign, Bool.eq_iff_iff, bne_iff_ne,
    decide_eq_true_eq, Nat.div_ne_zero_iff]
  simp

theorem expUI_eq (p : Nat) : expUI k p = fmt.exponent p := by
  rw [expUI, Nat.shiftRight_eq_div_pow, k.infExp_eq_mask, Nat.and_two_pow_sub_one_eq_mod,
    k.expShift_eq, Format.exponent, Format.magnitude, Format.magnitudeBits, Nat.add_comm,
    Nat.pow_add, Nat.mod_mul_right_div_self]

theorem fracUI_eq (p : Nat) : fracUI k p = fmt.fraction p := by
  have hdvd : 2 ^ fmt.fracBits ∣ 2 ^ fmt.magnitudeBits :=
    Nat.pow_dvd_pow 2 (Nat.le_add_left _ _)
  rw [fracUI, k.fracMask_eq, Nat.and_two_pow_sub_one_eq_mod, Format.fraction, Format.magnitude,
    Nat.mod_mod_of_dvd _ hdvd]

theorem isInfinite_of_exponent (hexp : fmt.exponent p = 2 * fmt.bias + 1)
    (hfrac : ¬fmt.fraction p ≠ 0) : fmt.IsInfinite p :=
  Format.isInfinite_iff.2 ⟨hexp, not_not.1 hfrac⟩

theorem isFinite_of_ne (hexp : fmt.exponent p ≠ 2 * fmt.bias + 1) : fmt.IsFinite p := by
  have hle := Format.exponent_lt fmt p
  rw [Format.isFinite_iff]
  omega

/-- Zero is the only magnitude without bits in its fields. -/
theorem magnitude_eq_zero_iff (fmt : Format) (p : Nat) :
    fmt.magnitude p = 0 ↔ fmt.exponent p = 0 ∧ fmt.fraction p = 0 := by
  have hpow := Nat.two_pow_pos fmt.fracBits
  rw [← Format.exponent_mul_add_fraction, Nat.add_eq_zero_iff, Nat.mul_eq_zero]
  omega

theorem packToUI_natCast (k : Packing fmt) (sign : Bool) {e : Nat} (he : e ≤ 2 * fmt.bias + 1)
    (sig : Nat) : packToUI k sign e sig = fmt.pack sign (e * 2 ^ fmt.fracBits + sig) := by
  rw [packToUI_eq (by omega) (by omega), Int.toNat_natCast]

theorem packToUI_infinity (k : Packing fmt) (sign : Bool) :
    packToUI k sign (2 * fmt.bias + 1 : Nat) 0 = fmt.pack sign fmt.infinity := by
  rw [packToUI_natCast _ _ (by omega), Nat.add_zero, Format.infinity_eq_mul]

theorem packToUI_zero (k : Packing fmt) (sign : Bool) :
    packToUI k sign 0 0 = fmt.pack sign 0 := by
  rw [← Nat.cast_zero, packToUI_natCast _ _ (by omega), Nat.zero_mul]

/-- A number of units with a magnitude is its own nearest. -/
theorem nearest_units {m : Nat} (h : m ≤ fmt.infinity) :
    fmt.Nearest ((fmt.units m : ℚ) / fmt.scale) m :=
  Format.nearest_number h

theorem nearest_zero (fmt : Format) : fmt.Nearest 0 0 := by
  have hnearest : fmt.Nearest (fmt.number 0) 0 :=
    Format.nearest_number (Nat.zero_le fmt.infinity)
  rwa [Format.number_zero] at hnearest

/-- The number of shifts that makes a significand full. -/
theorem exists_full {z n : Nat} (hpos : 0 < z) (hlt : z < 2 ^ (n + 1)) :
    ∃ s ≤ n, 2 ^ n ≤ z * 2 ^ s ∧ z * 2 ^ s < 2 ^ (n + 1) := by
  have hlog : z.log2 ≤ n := Nat.le_of_lt_succ ((Nat.log2_lt hpos.ne').2 hlt)
  have hlow := Nat.log2_self_le hpos.ne'
  have hhigh := Nat.lt_log2_self (n := z)
  refine ⟨n - z.log2, Nat.sub_le _ _, ?_, ?_⟩
  · calc 2 ^ n
      _ = 2 ^ z.log2 * 2 ^ (n - z.log2) := by rw [← Nat.pow_add, Nat.add_sub_cancel' hlog]
      _ ≤ z * 2 ^ (n - z.log2) := Nat.mul_le_mul_right _ hlow
  · calc z * 2 ^ (n - z.log2)
      _ < 2 ^ (z.log2 + 1) * 2 ^ (n - z.log2) :=
        Nat.mul_lt_mul_of_pos_right hhigh (Nat.two_pow_pos _)
      _ = 2 ^ (n + 1) := by
        rw [← Nat.pow_add]
        congr 1
        omega

/-- The bits of a significand are few, compared with the exponents. -/
theorem fracBits_add_guard_lt (k : Packing fmt) : fmt.fracBits + k.guard < 2 ^ 15 - 1 := by
  have hadd := k.guard_add
  have hwidth := k.width_le
  omega

/-! ## Normalization -/

/-- A fraction has more zeros in front than a significand with its hidden bit. -/
theorem exists_countLeadingZeros_eq (hpos : 0 < z) (hlt : z < 2 ^ fmt.fracBits) :
    ∃ d, k.countLeadingZeros z = d + k.spareBits ∧ d ≤ fmt.fracBits ∧
      2 ^ fmt.fracBits ≤ z * 2 ^ d ∧ z * 2 ^ d < 2 * 2 ^ fmt.fracBits := by
  have hspare := k.spareBits_eq
  obtain ⟨hcount, hlow, hhigh⟩ := k.leadingZeros hpos
    (Nat.lt_trans hlt (Nat.pow_lt_pow_right (by omega) (by omega)))
  have hmany : k.spareBits < k.countLeadingZeros z := by
    have hpow := (Nat.pow_lt_pow_iff_right (by omega)).1 (Nat.lt_of_le_of_lt hlow hlt)
    omega
  obtain ⟨d, hd⟩ : ∃ d, k.countLeadingZeros z = d + k.spareBits :=
    ⟨k.countLeadingZeros z - k.spareBits, by omega⟩
  rw [hd] at hlow hhigh hcount
  refine ⟨d, hd, by omega, ?_, ?_⟩
  · calc 2 ^ fmt.fracBits
      _ = 2 ^ (k.width - 1 - (d + k.spareBits)) * 2 ^ d := by
        rw [← Nat.pow_add]
        congr 1
        omega
      _ ≤ z * 2 ^ d := Nat.mul_le_mul_right _ hlow
  · calc z * 2 ^ d
      _ < 2 ^ (k.width - (d + k.spareBits)) * 2 ^ d :=
        Nat.mul_lt_mul_of_pos_right hhigh (Nat.two_pow_pos d)
      _ = 2 * 2 ^ fmt.fracBits := by
        rw [← Nat.pow_add, ← Nat.pow_succ']
        congr 1
        omega

theorem or_two_pow {a n : Nat} (h : a < 2 ^ n) : a ||| 2 ^ n = 2 ^ n + a := by
  have hor := Nat.two_pow_add_eq_or_of_lt h 1
  rw [Nat.mul_one, Nat.or_comm] at hor
  exact hor.symm

/-- A number other than zero as a significand with its hidden bit. -/
structure Significand (fmt : Format) (u : Nat) (e : Int) (c : Nat) : Prop where
  le : 2 ^ fmt.fracBits ≤ c
  lt : c < 2 * 2 ^ fmt.fracBits
  units : (u : ℚ) = c * 2 ^ (e - 1)
  le_exp : -fmt.fracBits ≤ e
  exp_le : e ≤ 2 * fmt.bias

theorem normalized_significand (hfinite : fmt.IsFinite p) (hne : fmt.magnitude p ≠ 0) :
    Significand fmt (fmt.units (fmt.magnitude p))
      (normalized k (fmt.exponent p) (fmt.fraction p)).1
      ((normalized k (fmt.exponent p) (fmt.fraction p)).2 ||| k.hiddenBit) := by
  have hlt := Format.fraction_lt fmt p
  have hsplit := Format.exponent_mul_add_fraction fmt p
  have hbias := Format.bias_pos fmt
  rw [Format.isFinite_iff] at hfinite
  rw [Format.units_magnitude, k.hiddenBit_eq, normalized]
  by_cases hzero : fmt.exponent p = 0
  · rw [hzero, Nat.zero_mul, Nat.zero_add] at hsplit
    obtain ⟨d, hd, hdle, hlow, hhigh⟩ := exists_countLeadingZeros_eq k
      (z := fmt.fraction p) (by omega) hlt
    have hor : fmt.fraction p * 2 ^ d ||| 2 ^ fmt.fracBits = fmt.fraction p * 2 ^ d := by
      have hrest := or_two_pow (a := fmt.fraction p * 2 ^ d - 2 ^ fmt.fracBits)
        (n := fmt.fracBits) (by omega)
      rw [Nat.add_sub_cancel' hlow] at hrest
      rw [← hrest, Nat.or_assoc, Nat.or_self]
    rw [if_pos hzero, if_pos hzero, normSubnormalSig, hd, Nat.add_sub_cancel, Nat.shiftLeft_eq, hor]
    refine ⟨hlow, hhigh, ?_, by simp only; omega, by simp only; omega⟩
    rw [Nat.cast_mul, Nat.cast_pow, Nat.cast_ofNat, mul_assoc, ← zpow_natCast,
      ← zpow_add₀ two_ne_zero]
    simp
  · rw [if_neg hzero, if_neg hzero, or_two_pow hlt]
    refine ⟨Nat.le_add_right _ _, by omega, ?_, by simp only; omega, by simp only; omega⟩
    obtain ⟨e, he⟩ : ∃ e, fmt.exponent p = e + 1 := ⟨fmt.exponent p - 1, by omega⟩
    rw [he, Nat.add_sub_cancel, Nat.cast_succ, add_sub_cancel_right, zpow_natCast]
    push_cast
    rfl

/-! ## NaNs -/

theorem isNaN_of_isSigNaNUI (h : isSigNaNUI k p = true) : fmt.IsNaN p := by
  have hfrac := fmt.fracBits_pos
  have hsplit : 2 ^ fmt.fracBits = 2 ^ (fmt.fracBits - 1) * 2 := by
    rw [← Nat.pow_succ]
    congr 1
    omega
  rw [isSigNaNUI, Bool.and_eq_true, beq_iff_eq, bne_iff_ne, k.sigNaNMask_eq, and_field,
    k.sigNaNBits_eq, k.payloadMask_eq, Nat.and_two_pow_sub_one_eq_mod] at h
  obtain ⟨hbits, hpayload⟩ := h
  have hhigh := Nat.eq_of_mul_eq_mul_right (Nat.two_pow_pos _) hbits
  rw [Format.isNaN_iff, ← expUI_eq k, ← fracUI_eq k, expUI, fracUI, k.infExp_eq_mask,
    k.expShift_eq, k.fracMask_eq, Nat.and_two_pow_sub_one_eq_mod, Nat.and_two_pow_sub_one_eq_mod,
    Nat.shiftRight_eq_div_pow]
  constructor
  · have hpow := Format.two_pow_expBits fmt
    rw [Nat.pow_succ'] at hhigh
    rw [hsplit, ← Nat.div_div_eq_div_mul, ← Nat.mod_mul_right_div_self, hhigh]
    omega
  · intro hzero
    have hdvd : 2 ^ (fmt.fracBits - 1) ∣ 2 ^ fmt.fracBits := ⟨2, hsplit⟩
    rw [← Nat.mod_mod_of_dvd p hdvd, hzero, Nat.zero_mod] at hpayload
    exact hpayload rfl

/-- That a NaN is signalling makes no difference. -/
theorem propagateNaN_propagates (hp : p < 2 ^ fmt.width) (hq : q < 2 ^ fmt.width) :
    fmt.Propagates p q (propagateNaN k p q) := by
  have hquiet : ∀ x, x ||| k.quietBit = fmt.quiet x := fun x => by rw [k.quietBit_eq, Format.quiet]
  unfold propagateNaN
  rw [k.isNaNUI_eq hp, hquiet, hquiet]
  by_cases hsig : isSigNaNUI k p = true
  · have hleft := isNaN_of_isSigNaNUI k hsig
    simp only [hsig, Bool.true_or, Bool.and_self, if_true]
    exact ⟨Format.quiet_lt hp, fun _ => rfl, fun h => absurd hleft h⟩
  · simp only [hsig, Bool.false_or, Bool.and_false, Bool.false_eq_true, if_false]
    by_cases hleft : fmt.IsNaN p
    · simp only [hleft, decide_true, if_true]
      exact ⟨Format.quiet_lt hp, fun _ => rfl, fun h => absurd hleft h⟩
    · simp only [hleft, decide_false, Bool.false_eq_true, if_false]
      exact ⟨Format.quiet_lt hq, fun h => absurd h hleft, fun _ _ => rfl⟩

end

end Softfloat

end FractalWasm
