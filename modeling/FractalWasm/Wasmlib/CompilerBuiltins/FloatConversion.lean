import FractalWasm.Codec.Words
import FractalWasm.Ieee.Nearest
import FractalWasm.Wasmlib.CompilerBuiltins.Calls

/-!
# Integers of 128 bits as doubles

The conversions of the vendored `builtins` round to nearest even, for all integers of 128 bits. The
methods of `compiler_builtins` hand them the low half only.

**Digits** (`clzti2`, `guarded`): the 55 highest digits of the integer, the last of them a jam of
all that were cut off.

**Rounding** (`convert`): the two guard digits decide, with the tie going to the even digit, and a
carry out of the significand moves the exponent. The result is nearest to the integer
(`nearest_convert`).

**Methods**: with an upper half that is not zero the result belongs to another integer
(`not_rounded_of_high`).
-/

namespace FractalWasm

open Ieee CompilerBuiltins

namespace CompilerRt

/-! ## The vendored conversions -/

/-- `__clzti2` of `int_t.h`, for a number that is not zero. -/
def clzti2 (a : BitVec 128) : Nat :=
  let low := a.setWidth 64
  let high := (a >>> 64).setWidth 64
  let f : BitVec 64 := -(if high = 0 then 1 else 0)
  ((high &&& ~~~f) ||| (low &&& f)).clz.toNat + (f.setWidth 32 &&& 64 : BitVec 32).toNat

/-- `DBL_MANT_DIG` -/
def dblMantDig : Nat := 53

/-- The `double` of the union `double_bits`. -/
def doubleBits (high low : UInt32) : UInt64 := high.toUInt64 <<< 32 ||| low.toUInt64

/-- `(uint32_t)a` -/
def toUint32 (a : BitVec 128) : UInt32 := .ofBitVec (a.setWidth 32)

/-- The significand with the two digits after it, and whether there are more. -/
def guarded (a : BitVec 128) (sd : Nat) : BitVec 128 :=
  if sd = dblMantDig + 1 then a <<< 1
  else if sd = dblMantDig + 2 then a
  else a >>> (sd - (dblMantDig + 2)) |||
    (if a &&& ((-1#128) >>> (128 + dblMantDig + 2 - sd)) ≠ 0 then 1 else 0)

/-- The addition may have added a digit. -/
def carried (shiftRight : BitVec 128 → Nat → BitVec 128) (a : BitVec 128) (e : Nat) :
    BitVec 128 × Nat :=
  if a &&& (1#128 <<< dblMantDig) ≠ 0 then (shiftRight a 1, e + 1) else (a, e)

/-- The significand, rounded to `DBL_MANT_DIG` digits, and the exponent. `shiftRight` is the operator
`>>` of the type. -/
def normalized (shiftRight : BitVec 128 → Nat → BitVec 128) (a : BitVec 128) : BitVec 128 × Nat :=
  let sd := 128 - clzti2 a
  let e := sd - 1
  if sd > dblMantDig then
    let a := guarded a sd
    let a := a ||| (if a &&& 4 ≠ 0 then 1 else 0)
    let a := a + 1
    let a := shiftRight a 2
    carried shiftRight a e
  else (a <<< (dblMantDig - sd), e)

/-- What `___floattidf` and `___floatuntidf` have in common; `s` is the sign. -/
def convert (s : UInt32) (shiftRight : BitVec 128 → Nat → BitVec 128) (a : BitVec 128) : UInt64 :=
  let (a, e) := normalized shiftRight a
  doubleBits (s ||| .ofNat ((e + 1023) <<< 20) ||| (toUint32 (shiftRight a 32) &&& 0x000FFFFF))
    (toUint32 a)

/-- `___floattidf` -/
def floattidf (a : BitVec 128) : Builtin UInt64 :=
  if a = 0 then pure 0
  -- `(a ^ s) - s` is no number of the type
  else if a = .intMin 128 then throw .signedOverflow
  else
    let s := a.sshiftRight 127
    pure (convert (toUint32 s &&& 0x80000000) BitVec.sshiftRight ((a ^^^ s) - s))

/-- `___floatuntidf` -/
def floatuntidf (a : BitVec 128) : UInt64 :=
  if a = 0 then 0 else convert 0 (· >>> ·) a

/-! ## Digits -/

/-- The leading zeros of a word locate its highest bit. -/
theorem clz_spec {x : BitVec 64} (hx : x ≠ 0#64) :
    x.clz.toNat < 64 ∧ 2 ^ (63 - x.clz.toNat) ≤ x.toNat ∧ x.toNat < 2 ^ (64 - x.clz.toNat) :=
  ⟨BitVec.lt_def.1 (BitVec.clz_lt_iff_ne_zero.2 hx),
    BitVec.two_pow_sub_clz_le_toNat_of_ne_zero (by decide) hx, BitVec.toNat_lt_two_pow_sub_clz⟩

theorem and_ones (x : BitVec 64) : x &&& 18446744073709551615#64 = x := BitVec.and_allOnes

/-- With a nonzero high half, its leading zeros count. -/
theorem clzti2_of_high {a : BitVec 128} (h : (a >>> 64).setWidth 64 ≠ 0#64) :
    clzti2 a = ((a >>> 64).setWidth 64).clz.toNat := by
  simp [clzti2, h, and_ones]

/-- Otherwise those of the low half, and 64 more. -/
theorem clzti2_of_low {a : BitVec 128} (h : (a >>> 64).setWidth 64 = 0#64) :
    clzti2 a = (a.setWidth 64).clz.toNat + 64 := by
  simp [clzti2, h, and_ones]

/-- The number has as many digits as the zeros leave. -/
theorem clzti2_spec {a : BitVec 128} (ha : a ≠ 0) :
    clzti2 a < 128 ∧ 2 ^ (127 - clzti2 a) ≤ a.toNat ∧ a.toNat < 2 ^ (128 - clzti2 a) := by
  have hlt := a.isLt
  have hlow : (a.setWidth 64).toNat = a.toNat % 2 ^ 64 := BitVec.toNat_setWidth 64 a
  have hhigh : ((a >>> 64).setWidth 64).toNat = a.toNat / 2 ^ 64 := by
    rw [BitVec.toNat_setWidth, BitVec.toNat_ushiftRight, Nat.shiftRight_eq_div_pow]
    omega
  by_cases h : (a >>> 64).setWidth 64 = 0#64
  · rw [h] at hhigh
    have hsmall : a.toNat < 2 ^ 64 := by
      change 0 = _ at hhigh
      omega
    rw [Nat.mod_eq_of_lt hsmall] at hlow
    have hne : a.setWidth 64 ≠ 0#64 := by
      intro hzero
      rw [hzero] at hlow
      exact ha (BitVec.eq_of_toNat_eq hlow.symm)
    obtain ⟨hclz, hle, hupper⟩ := clz_spec hne
    rw [clzti2_of_low h, ← hlow]
    refine ⟨by omega, ?_, ?_⟩
    · rw [show 127 - ((a.setWidth 64).clz.toNat + 64) = 63 - (a.setWidth 64).clz.toNat by omega]
      exact hle
    · rw [show 128 - ((a.setWidth 64).clz.toNat + 64) = 64 - (a.setWidth 64).clz.toNat by omega]
      exact hupper
  · obtain ⟨hclz, hle, hupper⟩ := clz_spec h
    rw [clzti2_of_high h]
    set c := ((a >>> 64).setWidth 64).clz.toNat
    have hsplit : 127 - c = 63 - c + 64 := by omega
    have hsplit' : 128 - c = 64 - c + 64 := by omega
    rw [hhigh] at hle hupper
    rw [hsplit, hsplit', Nat.pow_add, Nat.pow_add]
    refine ⟨by omega, ?_, ?_⟩
    · exact (Nat.le_div_iff_mul_le (by decide)).1 hle
    · exact (Nat.div_lt_iff_lt_mul (by decide)).1 hupper

/-! ## Rounding -/

/-- The two digits behind a quotient by `d` with the rest `r`, of which the last stands for all that
follow. -/
def guardDigits (r d : Nat) : Nat :=
  if r = 0 then 0 else if 2 * r < d then 1 else if 2 * r = d then 2 else 3

theorem or_one (x : Nat) : x ||| 1 = 2 * (x / 2) + 1 := by
  have hsplit := Nat.two_pow_add_eq_or_of_lt (i := 1) (Nat.mod_lt x (by decide)) (x / 2)
  have hodd := Nat.two_pow_add_eq_or_of_lt (i := 1) (b := 1) (by decide) (x / 2)
  rw [Nat.pow_one] at hsplit hodd
  have hlast : x % 2 ||| 1 = 1 := by
    rcases Nat.mod_two_eq_zero_or_one x with h | h <;> rw [h] <;> rfl
  calc x ||| 1
    _ = 2 * (x / 2) + x % 2 ||| 1 := by rw [Nat.div_add_mod]
    _ = 2 * (x / 2) ||| 1 := by rw [hsplit, Nat.or_assoc, hlast]
    _ = 2 * (x / 2) + 1 := hodd.symm

theorem toNat_or_ite (a : BitVec 128) (p : Prop) [Decidable p] :
    (a ||| (if p then 1 else 0)).toNat = if p then 2 * (a.toNat / 2) + 1 else a.toNat := by
  split
  · rw [BitVec.toNat_or]
    exact or_one a.toNat
  · rw [BitVec.toNat_or]
    exact Nat.or_zero a.toNat

/-- The last digit of all behind the two digits is kept. -/
theorem sticky_eq (n j : Nat) :
    (if n % 2 ^ j ≠ 0 then 2 * (n / 2 ^ j / 2) + 1 else n / 2 ^ j) =
      4 * (n / 2 ^ (j + 2)) + guardDigits (n % 2 ^ (j + 2)) (2 ^ (j + 2)) := by
  have hpos := Nat.two_pow_pos j
  have hpow : 2 ^ (j + 2) = 2 ^ j * 4 := Nat.pow_add 2 j 2
  have hdiv : n / 2 ^ (j + 2) = n / 2 ^ j / 4 := by rw [hpow, Nat.div_div_eq_div_mul]
  have hmod : n % 2 ^ (j + 2) = n % 2 ^ j + 2 ^ j * (n / 2 ^ j % 4) := by
    rw [hpow, Nat.mod_mul]
  have hrest := Nat.mod_lt n hpos
  rw [hdiv, hmod, hpow]
  set y := n / 2 ^ j
  set z := n % 2 ^ j
  unfold guardDigits
  have hy : y % 4 = 0 ∨ y % 4 = 1 ∨ y % 4 = 2 ∨ y % 4 = 3 := by omega
  rcases hy with h | h | h | h <;> rw [h] <;> split_ifs <;> omega

/-- The digits kept, with two guard digits behind them; the last says whether anything else was
there. -/
theorem toNat_guarded {a : BitVec 128} {sd : Nat} (hsd : dblMantDig < sd) (hle : sd ≤ 128)
    (ha : a.toNat < 2 ^ sd) :
    (guarded a sd).toNat = 4 * (a.toNat / 2 ^ (sd - dblMantDig)) +
      guardDigits (a.toNat % 2 ^ (sd - dblMantDig)) (2 ^ (sd - dblMantDig)) := by
  unfold guarded
  split
  · next hone =>
    rw [hone] at ha ⊢
    have hmul : (a <<< 1).toNat = a.toNat * 2 := by
      rw [BitVec.toNat_shiftLeft, Nat.shiftLeft_eq]
      change a.toNat < 2 ^ 54 at ha
      omega
    rw [hmul, Nat.add_sub_cancel_left, Nat.pow_one]
    unfold guardDigits
    split_ifs <;> omega
  · next hone =>
    obtain ⟨j, rfl⟩ : ∃ j, sd = dblMantDig + 2 + j := ⟨sd - (dblMantDig + 2), by omega⟩
    have hdigits : dblMantDig + 2 + j - dblMantDig = j + 2 := by omega
    rw [hdigits, ← sticky_eq]
    split
    · next htwo =>
      obtain rfl : j = 0 := by omega
      rw [Nat.pow_zero, Nat.div_one, Nat.mod_one]
      rfl
    · have hshift : dblMantDig + 2 + j - (dblMantDig + 2) = j := by omega
      have hmask : 128 + dblMantDig + 2 - (dblMantDig + 2 + j) = 128 - j := by omega
      have hj : j + (128 - j) = 128 := by
        unfold dblMantDig at hle
        omega
      have hrest : (a &&& ((-1#128) >>> (128 - j))).toNat = a.toNat % 2 ^ j := by
        have hones : (-1#128).toNat = 2 ^ (j + (128 - j)) - 1 := by
          rw [hj]
          rfl
        rw [BitVec.toNat_and, BitVec.toNat_ushiftRight, Nat.shiftRight_eq_div_pow, hones,
          Codec.two_pow_sub_one_div, Nat.and_two_pow_sub_one_eq_mod]
      have hzero : a &&& ((-1#128) >>> (128 - j)) ≠ 0 ↔ a.toNat % 2 ^ j ≠ 0 := by
        rw [ne_eq, ← BitVec.toNat_inj, hrest]
        rfl
      rw [hshift, hmask, toNat_or_ite, BitVec.toNat_ushiftRight, Nat.shiftRight_eq_div_pow]
      simp only [hzero]

/-- Rounding by the two digits. -/
theorem round_guarded {a : BitVec 128} {t g : Nat} (ha : a.toNat = 4 * t + g) (ht : t < 2 ^ 53)
    (hg : g < 4) :
    ((a ||| (if a &&& 4 ≠ 0 then 1 else 0)) + 1).toNat / 4 =
      t + if g < 2 ∨ g = 2 ∧ t % 2 = 0 then 0 else 1 := by
  have hodd : a &&& 4 ≠ 0 ↔ t % 2 = 1 := by
    have hand : (a &&& 4).toNat = a.toNat / 2 ^ 2 % 2 ^ 1 * 2 ^ 2 := by
      rw [BitVec.toNat_and]
      exact Codec.and_field a.toNat 1 2
    rw [ne_eq, ← BitVec.toNat_inj, hand, ha]
    change ¬_ = 0 ↔ _
    omega
  simp only [hodd]
  rw [BitVec.toNat_add, toNat_or_ite, ha]
  change (_ + 1) % 2 ^ 128 / 4 = _
  split_ifs <;> omega

theorem guardDigits_lt (r d : Nat) : guardDigits r d < 4 := by
  unfold guardDigits
  split_ifs <;> decide

/-- Less than half a unit is cut off. -/
theorem guardDigits_lt_two {r d : Nat} (hd : 0 < d) : guardDigits r d < 2 ↔ 2 * r < d := by
  unfold guardDigits
  split_ifs <;> omega

/-- Exactly half a unit is. -/
theorem guardDigits_eq_two {r d : Nat} (hd : 0 < d) : guardDigits r d = 2 ↔ 2 * r = d := by
  unfold guardDigits
  split_ifs with hzero hlt heq
  · exact iff_of_false (by decide) (by omega)
  · exact iff_of_false (by decide) (by omega)
  · exact iff_of_true rfl heq
  · exact iff_of_false (by decide) heq

/-! ## Patterns -/

theorem toNat_doubleBits (high low : UInt32) :
    (doubleBits high low).toNat = high.toNat * 2 ^ 32 + low.toNat := by
  have hlow := low.toNat_lt
  have hhigh := high.toNat_lt
  have hmul : (high.toUInt64 <<< 32).toNat = 2 ^ 32 * high.toNat := by
    rw [UInt64.toNat_shiftLeft, UInt32.toNat_toUInt64, Nat.shiftLeft_eq]
    change high.toNat * 2 ^ 32 % 2 ^ 64 = _
    omega
  rw [doubleBits, UInt64.toNat_or, hmul, UInt32.toNat_toUInt64, ← Nat.two_pow_add_eq_or_of_lt hlow]
  omega

/-- The sign, the exponent and the significand in their places. -/
theorem toNat_highWord {s f : UInt32} {e : Nat} (hs : s.toNat % 2 ^ 31 = 0) (he : e < 2 ^ 11)
    (hf : f.toNat < 2 ^ 20) :
    (s ||| .ofNat (e <<< 20) ||| f).toNat = s.toNat + e * 2 ^ 20 + f.toNat := by
  have hslt := s.toNat_lt
  have hexponent : (UInt32.ofNat (e <<< 20)).toNat = 2 ^ 20 * e := by
    rw [UInt32.toNat_ofNat', Nat.shiftLeft_eq]
    omega
  have hsign : s.toNat = 2 ^ 31 * (s.toNat / 2 ^ 31) := by omega
  have hor : s.toNat ||| 2 ^ 20 * e = s.toNat + 2 ^ 20 * e := by
    rw [hsign, ← Nat.two_pow_add_eq_or_of_lt (by omega)]
  have hmul : s.toNat + 2 ^ 20 * e = 2 ^ 20 * (2 ^ 11 * (s.toNat / 2 ^ 31) + e) := by omega
  rw [UInt32.toNat_or, UInt32.toNat_or, hexponent, hor, hmul, ← Nat.two_pow_add_eq_or_of_lt hf]
  omega

theorem toNat_toUint32 (a : BitVec 128) : (toUint32 a).toNat = a.toNat % 2 ^ 32 :=
  BitVec.toNat_setWidth 32 a

/-- The halves of the fraction, put together, and the hidden bit. -/
theorem fraction_eq {m : Nat} (hlow : 2 ^ 52 ≤ m) (hhigh : m < 2 ^ 53) :
    m / 2 ^ 32 % 2 ^ 20 * 2 ^ 32 + m % 2 ^ 32 + 2 ^ 52 = m := by
  omega

/-- The leading digit of the significand counts for the exponent. -/
theorem fields_eq {s m e e' q : Nat} (hlow : 2 ^ 52 ≤ m) (hhigh : m < 2 ^ 53)
    (hdigits : e' * 2 ^ 52 + m = e * 2 ^ 52 + q) :
    (s + (e' + 1023) * 2 ^ 20 + m / 2 ^ 32 % 2 ^ 20) * 2 ^ 32 + m % 2 ^ 32 =
      s * 2 ^ 32 + ((1022 + e) * 2 ^ 52 + q) := by
  have hfields := fraction_eq hlow hhigh
  linarith

/-! ## Conversions -/

section Conversions

variable {shiftRight : BitVec 128 → Nat → BitVec 128}
  (hshift : ∀ (x : BitVec 128) k, x.toNat < 2 ^ 127 → (shiftRight x k).toNat = x.toNat / 2 ^ k)

/-- The number in digits of the significand, rounded. -/
def significand (n e : Nat) : Nat :=
  n * 2 ^ 52 / 2 ^ e +
    if 2 * (n * 2 ^ 52 % 2 ^ e) < 2 ^ e ∨
      2 * (n * 2 ^ 52 % 2 ^ e) = 2 ^ e ∧ n * 2 ^ 52 / 2 ^ e % 2 = 0 then 0 else 1

/-- A short number is shifted up exactly. -/
theorem significand_of_le {n e : Nat} (he : e ≤ 52) : significand n e = n * 2 ^ (52 - e) := by
  have hpos := Nat.two_pow_pos e
  have hsplit : n * 2 ^ 52 = n * 2 ^ (52 - e) * 2 ^ e := by
    rw [Nat.mul_assoc, ← Nat.pow_add, Nat.sub_add_cancel he]
  unfold significand
  rw [hsplit, Nat.mul_mod_left, Nat.mul_div_cancel _ hpos, if_pos (.inl hpos), Nat.add_zero]

/-- A long one is rounded by its guard digits, to even at a tie. -/
theorem significand_of_lt {n e : Nat} (he : 52 < e) :
    significand n e = n / 2 ^ (e - 52) +
      if guardDigits (n % 2 ^ (e - 52)) (2 ^ (e - 52)) < 2 ∨
        guardDigits (n % 2 ^ (e - 52)) (2 ^ (e - 52)) = 2 ∧ n / 2 ^ (e - 52) % 2 = 0
      then 0 else 1 := by
  have hpos := Nat.two_pow_pos (e - 52)
  have hsplit : 2 ^ e = 2 ^ (e - 52) * 2 ^ 52 := by
    rw [← Nat.pow_add, Nat.sub_add_cancel he.le]
  have hlt : ∀ r, 2 * (r * 2 ^ 52) < 2 ^ (e - 52) * 2 ^ 52 ↔ 2 * r < 2 ^ (e - 52) := fun r => by omega
  have heq : ∀ r, 2 * (r * 2 ^ 52) = 2 ^ (e - 52) * 2 ^ 52 ↔ 2 * r = 2 ^ (e - 52) := fun r => by omega
  unfold significand
  rw [hsplit, Nat.mul_div_mul_right _ _ (by decide), Nat.mul_mod_mul_right]
  simp only [guardDigits_lt_two hpos, guardDigits_eq_two hpos, hlt, heq]

/-- The significand has `DBL_MANT_DIG` digits, or is the next power of two. -/
theorem significand_bounds {n e : Nat} (hlow : 2 ^ e ≤ n) (hhigh : n < 2 ^ (e + 1)) :
    2 ^ 52 ≤ significand n e ∧ significand n e ≤ 2 ^ 53 := by
  have hle : 2 ^ 52 ≤ n * 2 ^ 52 / 2 ^ e := by
    rw [Nat.le_div_iff_mul_le (Nat.two_pow_pos e)]
    omega
  have hlt : n * 2 ^ 52 / 2 ^ e < 2 ^ 53 := by
    rw [Nat.div_lt_iff_lt_mul (Nat.two_pow_pos e)]
    rw [Nat.pow_succ] at hhigh
    omega
  unfold significand
  split <;> omega

/-- The bit above the significand is the carry of the rounding. -/
theorem and_carry {x : BitVec 128} (hx : x.toNat ≤ 2 ^ 53) :
    x &&& (1#128 <<< dblMantDig) ≠ 0 ↔ x.toNat = 2 ^ 53 := by
  have hand : (x &&& (1#128 <<< dblMantDig)).toNat = x.toNat / 2 ^ 53 % 2 ^ 1 * 2 ^ 53 := by
    rw [BitVec.toNat_and]
    exact Codec.and_field x.toNat 1 53
  rw [ne_eq, ← BitVec.toNat_inj, hand]
  change ¬_ = 0 ↔ _
  omega

/-- A significand and an exponent that are those of the digits `q` of a number with exponent `e`. -/
structure Normal (r : BitVec 128 × Nat) (e q : Nat) : Prop where
  low : 2 ^ 52 ≤ r.1.toNat
  high : r.1.toNat < 2 ^ 53
  exponent : r.2 ≤ e + 1
  digits : r.2 * 2 ^ 52 + r.1.toNat = e * 2 ^ 52 + q

include hshift in
/-- After a carry the significand is shifted down once and the exponent goes up. -/
theorem normal_carried {a : BitVec 128} {e q : Nat} (ha : a.toNat = q) (hlow : 2 ^ 52 ≤ q)
    (hhigh : q ≤ 2 ^ 53) : Normal (carried shiftRight a e) e q := by
  subst ha
  have hcarry := and_carry hhigh
  unfold carried
  by_cases h : a.toNat = 2 ^ 53
  · have hhalf : (shiftRight a 1).toNat = 2 ^ 52 := by
      rw [hshift a 1 (by omega), h]
      rfl
    rw [if_pos (hcarry.2 h), h]
    exact ⟨hhalf.ge, by rw [hhalf]; decide, le_rfl, by rw [hhalf]; omega⟩
  · rw [if_neg (mt hcarry.1 h)]
    exact ⟨hlow, by dsimp only; omega, Nat.le_succ e, rfl⟩

theorem normalized_of_le {a : BitVec 128} {e : Nat} (hsd : 128 - clzti2 a = e + 1) (he : e ≤ 52) :
    normalized shiftRight a = (a <<< (52 - e), e) := by
  have hplaces : dblMantDig - (e + 1) = 52 - e := Nat.add_sub_add_right 52 1 e
  unfold normalized
  rw [hsd, ← hplaces]
  exact if_neg (Nat.not_lt.2 (Nat.succ_le_succ he))

theorem normalized_of_lt {a : BitVec 128} {e : Nat} (hsd : 128 - clzti2 a = e + 1) (he : 52 < e) :
    normalized shiftRight a = carried shiftRight
      (shiftRight ((guarded a (e + 1) ||| (if guarded a (e + 1) &&& 4 ≠ 0 then 1 else 0)) + 1) 2)
      e := by
  unfold normalized
  rw [hsd]
  exact if_pos (Nat.succ_lt_succ he)

include hshift in
/-- The significand and the exponent are those of the number rounded. -/
theorem normal_normalized {a : BitVec 128} {e : Nat} (hsd : 128 - clzti2 a = e + 1)
    (hlow : 2 ^ e ≤ a.toNat) (hhigh : a.toNat < 2 ^ (e + 1)) :
    Normal (normalized shiftRight a) e (significand a.toNat e) := by
  obtain ⟨hge, hle⟩ := significand_bounds hlow hhigh
  rcases Nat.lt_or_ge 52 e with he | he
  · have hplaces : e + 1 - dblMantDig = e - 52 := Nat.add_sub_add_right e 1 52
    have hlong : dblMantDig < e + 1 := Nat.succ_lt_succ he
    have hguarded := toNat_guarded hlong (by omega) hhigh
    rw [hplaces] at hguarded
    have ht : a.toNat / 2 ^ (e - 52) < 2 ^ 53 := by
      rw [Nat.div_lt_iff_lt_mul (Nat.two_pow_pos _), ← Nat.pow_add,
        show 53 + (e - 52) = e + 1 by omega]
      exact hhigh
    have hround := round_guarded hguarded ht (guardDigits_lt _ _)
    rw [← significand_of_lt he] at hround
    rw [normalized_of_lt hsd he]
    refine normal_carried hshift ?_ hge hle
    rw [hshift _ _ (by omega), ← hround]
    rfl
  · rw [normalized_of_le hsd he]
    have hpow : 2 ^ (e + 1) * 2 ^ (52 - e) = 2 ^ 53 := by
      rw [← Nat.pow_add, show e + 1 + (52 - e) = 53 by omega]
    have hlt : significand a.toNat e < 2 ^ 53 := by
      rw [significand_of_le he, ← hpow]
      exact Nat.mul_lt_mul_of_pos_right hhigh (Nat.two_pow_pos _)
    have hvalue : (a <<< (52 - e)).toNat = significand a.toNat e := by
      rw [significand_of_le he] at hlt ⊢
      rw [BitVec.toNat_shiftLeft, Nat.shiftLeft_eq]
      exact Nat.mod_eq_of_lt (Nat.lt_trans hlt (by decide))
    exact ⟨hvalue ▸ hge, hvalue ▸ hlt, Nat.le_succ e, by rw [hvalue]⟩

include hshift in
/-- The fields of the double are those of the significand and the exponent. -/
theorem toNat_convert {s : UInt32} {a : BitVec 128} {e : Nat} (hs : s.toNat % 2 ^ 31 = 0)
    (hsd : 128 - clzti2 a = e + 1) (hlow : 2 ^ e ≤ a.toNat) (hhigh : a.toNat < 2 ^ (e + 1)) :
    (convert s shiftRight a).toNat =
      s.toNat * 2 ^ 32 + ((1022 + e) * 2 ^ 52 + significand a.toNat e) := by
  have hnormal := normal_normalized hshift hsd hlow hhigh
  have hbound : e < 128 := by omega
  unfold convert
  generalize normalized shiftRight a = r at hnormal ⊢
  obtain ⟨a', e'⟩ := r
  obtain ⟨hle, hlt, hexponent, hdigits⟩ := hnormal
  dsimp only at hle hlt hexponent hdigits ⊢
  have hfraction : (toUint32 (shiftRight a' 32) &&& 0x000FFFFF).toNat =
      a'.toNat / 2 ^ 32 % 2 ^ 20 := by
    rw [Codec.toNat_and_mask32 (k := 20) rfl, toNat_toUint32, hshift _ _ (by omega)]
    omega
  have hword := toNat_highWord hs (show e' + 1023 < 2 ^ 11 by omega)
    (hfraction.trans_lt (Nat.mod_lt _ (by decide)))
  rw [toNat_doubleBits, hword, hfraction, toNat_toUint32]
  exact fields_eq hle hlt hdigits

/-- The conversion rounds to nearest even. -/
theorem nearest_convert {a : BitVec 128} {e : Nat} (hlow : 2 ^ e ≤ a.toNat)
    (hhigh : a.toNat < 2 ^ (e + 1)) (he : e < 128) :
    binary64.Nearest a.toNat ((1022 + e) * 2 ^ 52 + significand a.toNat e) := by
  have hbias : binary64.bias = 1023 := rfl
  have hfraction : binary64.fracBits = 52 := rfl
  have hnearest := nearestInteger_natCast_div (a.toNat * 2 ^ 52) (Nat.two_pow_pos e)
  rw [← significand, ← hfraction] at hnearest
  have hresult := Format.nearest_natCast hlow hhigh (by omega) hnearest
  rw [hbias, hfraction] at hresult
  exact hresult

include hshift in
/-- The conversion of a positive number with a sign of its own. -/
theorem convert_spec {s : Bool} {w : UInt32} {a : BitVec 128} (hw : w.toNat = s.toNat * 2 ^ 31)
    (ha : a ≠ 0) :
    binary64.Nearest a.toNat (binary64.magnitude (convert w shiftRight a).toNat) ∧
      binary64.sign (convert w shiftRight a).toNat = s := by
  obtain ⟨hclz, hlow, hhigh⟩ := clzti2_spec ha
  obtain ⟨e, he⟩ : ∃ e, e = 127 - clzti2 a := ⟨_, rfl⟩
  have hsd : 128 - clzti2 a = e + 1 := by omega
  rw [← he] at hlow
  rw [hsd] at hhigh
  have hnearest := nearest_convert hlow hhigh (by omega)
  have hmagnitude := Nat.lt_of_le_of_lt hnearest.le (Format.infinity_lt binary64)
  have hpattern : (convert w shiftRight a).toNat =
      binary64.pack s ((1022 + e) * 2 ^ 52 + significand a.toNat e) := by
    have hzero : w.toNat % 2 ^ 31 = 0 := by rw [hw, Nat.mul_mod_left]
    rw [toNat_convert hshift hzero hsd hlow hhigh, hw, Nat.mul_assoc]
    rfl
  rw [hpattern, Format.magnitude_pack hmagnitude, Format.sign_pack hmagnitude]
  exact ⟨hnearest, rfl⟩

end Conversions

/-- Zero is converted exactly. -/
theorem rounded_zero : binary64.Rounded 0 false 0 where
  nearest := by
    rw [abs_zero, ← Format.number_zero binary64]
    exact Format.nearest_number (Nat.zero_le _)
  positive h := absurd h (lt_irrefl 0)
  negative h := absurd h (lt_irrefl 0)
  zero _ := rfl

/-- The unsigned conversion rounds every number to nearest even. -/
theorem floatuntidf_rounded (a : BitVec 128) :
    binary64.Rounded a.toNat false (floatuntidf a).toNat := by
  unfold floatuntidf
  by_cases hzero : a = 0
  · rw [if_pos hzero, hzero]
    exact rounded_zero
  · rw [if_neg hzero]
    have hshift : ∀ (x : BitVec 128) (k : Nat), x.toNat < 2 ^ 127 →
        (x >>> k).toNat = x.toNat / 2 ^ k := fun x k _ => by
      rw [BitVec.toNat_ushiftRight, Nat.shiftRight_eq_div_pow]
    obtain ⟨hnearest, hsign⟩ := convert_spec hshift (s := false) (w := 0) rfl hzero
    refine ⟨?_, fun _ => hsign, fun hneg => ?_, fun _ => hsign⟩
    · rw [Nat.abs_cast]
      exact hnearest
    · exact absurd hneg (not_lt.2 (Nat.cast_nonneg _))

theorem toNat_sshiftRight_of_lt {x : BitVec 128} (k : Nat) (hx : x.toNat < 2 ^ 127) :
    (x.sshiftRight k).toNat = x.toNat / 2 ^ k := by
  have hmsb : x.msb = false := BitVec.msb_eq_false_iff_two_mul_lt.2 (by omega)
  rw [BitVec.sshiftRight_eq_of_msb_false hmsb, BitVec.toNat_ushiftRight,
    Nat.shiftRight_eq_div_pow]

/-- All bits are the sign. -/
theorem sshiftRight_all (a : BitVec 128) : a.sshiftRight 127 = if a.toInt < 0 then -1 else 0#128 := by
  have hlt := a.isLt
  cases hmsb : a.msb
  · have hsmall := BitVec.msb_eq_false_iff_two_mul_lt.1 hmsb
    have hint : ¬a.toInt < 0 := by
      rw [BitVec.toInt_eq_msb_cond, hmsb, if_neg Bool.false_ne_true]
      omega
    rw [if_neg hint, BitVec.sshiftRight_eq_of_msb_false hmsb]
    apply BitVec.eq_of_toNat_eq
    rw [BitVec.toNat_ushiftRight, Nat.shiftRight_eq_div_pow]
    exact Nat.div_eq_of_lt (by omega)
  · have hlarge := BitVec.msb_eq_true_iff_two_mul_ge.1 hmsb
    have hint : a.toInt < 0 := by
      rw [BitVec.toInt_eq_msb_cond, hmsb, if_pos rfl]
      omega
    have hzero : ~~~a >>> 127 = 0 := by
      apply BitVec.eq_of_toNat_eq
      rw [BitVec.toNat_ushiftRight, BitVec.toNat_not, Nat.shiftRight_eq_div_pow]
      exact Nat.div_eq_of_lt (by omega)
    rw [if_pos hint, BitVec.sshiftRight_eq_of_msb_true hmsb, hzero]
    rfl

/-- The absolute value. -/
theorem toNat_xor_sub (a : BitVec 128) :
    ((a ^^^ a.sshiftRight 127) - a.sshiftRight 127).toNat = a.toInt.natAbs := by
  have hlt := a.isLt
  have hint := BitVec.toInt_eq_toNat_cond a
  rw [sshiftRight_all]
  split
  · have hnegated : (a ^^^ -1) - -1 = -a := by
      have hxor : a ^^^ -1 = ~~~a := BitVec.xor_allOnes
      rw [hxor, BitVec.sub_neg, BitVec.neg_eq_not_add]
      rfl
    rw [hnegated, BitVec.toNat_neg]
    split at hint <;> omega
  · rw [BitVec.xor_zero, BitVec.sub_zero]
    split at hint <;> omega

/-- The sign is that of the number. -/
theorem sign_word (a : BitVec 128) :
    (toUint32 (a.sshiftRight 127) &&& 0x80000000).toNat = (decide (a.toInt < 0)).toNat * 2 ^ 31 := by
  rw [sshiftRight_all]
  by_cases hneg : a.toInt < 0
  · rw [if_pos hneg, decide_eq_true hneg]
    rfl
  · rw [if_neg hneg, decide_eq_false hneg]
    rfl

/-- The signed conversion rounds every number but the least to nearest even. -/
theorem floattidf_rounded {a : BitVec 128} (ha : a ≠ .intMin 128) :
    ∃ p, floattidf a = pure p ∧ binary64.Rounded a.toInt false p.toNat := by
  unfold floattidf
  by_cases hzero : a = 0
  · rw [if_pos hzero, hzero]
    exact ⟨0, rfl, rounded_zero⟩
  · rw [if_neg hzero, if_neg ha]
    refine ⟨_, rfl, ?_⟩
    have hint : a.toInt ≠ 0 := fun h => hzero (BitVec.toInt_inj.1 h)
    have hne : (a ^^^ a.sshiftRight 127) - a.sshiftRight 127 ≠ 0 := by
      rw [ne_eq, ← BitVec.toNat_inj, toNat_xor_sub]
      exact mt Int.natAbs_eq_zero.1 hint
    obtain ⟨hnearest, hsign⟩ := convert_spec (fun _ k hx => toNat_sshiftRight_of_lt k hx)
      (sign_word a) hne
    rw [toNat_xor_sub] at hnearest
    refine ⟨?_, fun hpos => ?_, fun hneg => ?_, fun heq => ?_⟩
    · rw [← Int.cast_abs, Int.abs_eq_natAbs, Int.cast_natCast]
      exact hnearest
    · rw [hsign, decide_eq_false (not_lt.2 (Int.cast_pos.1 hpos).le)]
    · rw [hsign, decide_eq_true (Int.cast_lt_zero.1 hneg)]
    · exact absurd (Int.cast_eq_zero.1 heq) hint

end CompilerRt

/-! ## The methods -/

namespace CompilerBuiltins

open Api

/-- The cast keeps the bits. -/
def floattidf (l h : UInt64) : Builtin UInt64 := do
  useGas gasCallBase
  let i := (wide h >>> 64) ||| wide l
  CompilerRt.floattidf i

def floatuntidf (l h : UInt64) : Builtin UInt64 := do
  useGas gasCallBase
  let i := (wide h >>> 64) ||| wide l
  return CompilerRt.floatuntidf i

/-- The method returns the double nearest to the integer, with ties to even. -/
def ReturnsNearest (builtin : Builtin UInt64) (x : ℤ) : Prop :=
  ∃ p, Returns builtin 100 p ∧ binary64.Rounded x false p.toNat

/-- An intrinsic returns one value. -/
theorem Returns.unique {α : Type} {builtin : Builtin α} {price price' : Nat} {value value' : α}
    (h : Returns builtin price value) (h' : Returns builtin price' value')
    (hprice : price < 2 ^ 64) (hprice' : price' < 2 ^ 64) : value = value' := by
  obtain ⟨left, -, hrun⟩ := (h ⟨0xFFFFFFFFFFFFFFFF, 0⟩).1 (Nat.le_pred_of_lt hprice)
  obtain ⟨left', -, hrun'⟩ := (h' ⟨0xFFFFFFFFFFFFFFFF, 0⟩).1 (Nat.le_pred_of_lt hprice')
  rw [hrun] at hrun'
  exact (EStateM.Result.ok.inj hrun').1

/-- The high half is lost. -/
theorem floatuntidf_returns (l h : UInt64) :
    ∃ p, Returns (floatuntidf l h) 100 p ∧ binary64.Rounded l.toNat false p.toNat := by
  have hrounded := CompilerRt.floatuntidf_rounded (wide l)
  rw [toNat_wide] at hrounded
  refine ⟨_, ?_, hrounded⟩
  unfold floatuntidf
  rw [shiftRight_or]
  exact (returns_pure _).charged

theorem toInt_wide (half : UInt64) : (wide half).toInt = half.toNat := by
  have hlt := half.toNat_lt
  rw [BitVec.toInt_eq_toNat_of_lt (by rw [toNat_wide]; omega), toNat_wide]

/-- The method hands over the low half as an unsigned number, so that is what is rounded. -/
theorem floattidf_returns (l h : UInt64) :
    ∃ p, Returns (floattidf l h) 100 p ∧ binary64.Rounded l.toNat false p.toNat := by
  have hlt := l.toNat_lt
  have hne : wide l ≠ .intMin 128 := by
    rw [ne_eq, ← BitVec.toNat_inj, toNat_wide]
    change ¬_ = 2 ^ 127
    omega
  obtain ⟨p, hp, hrounded⟩ := CompilerRt.floattidf_rounded hne
  rw [toInt_wide, Int.cast_natCast] at hrounded
  refine ⟨p, ?_, hrounded⟩
  unfold floattidf
  rw [shiftRight_or]
  exact Returns.charged (hp ▸ returns_pure p)

/-- The whole number is the low half, or far from it. -/
theorem signedValue_cases (l h : UInt64) :
    h = 0 ∧ signedValue l h = l.toNat ∨ h ≠ 0 ∧ (signedValue l h < 0 ∨
      (l.toNat : ℤ) + 2 ^ 64 ≤ signedValue l h) := by
  have hl := l.toNat_lt
  have hh := h.toNat_lt
  have hzero : (0 : UInt64).toNat = 0 := rfl
  rw [ne_eq, ← UInt64.toNat_inj, hzero]
  unfold signedValue unsignedValue
  split <;> omega

/-- What is nearest to the low half is not nearest to a number with a high half. -/
theorem not_rounded_of_high {l : UInt64} {p : Nat} {x : ℤ} (h : binary64.Rounded l.toNat false p)
    (hx : x < 0 ∨ (l.toNat : ℤ) + 2 ^ 64 ≤ x) : ¬binary64.Rounded x false p := by
  intro h'
  have hl : (l.toNat : ℚ) ≤ 2 * 2 ^ 63 := by
    have hlt := l.toNat_lt
    exact_mod_cast hlt.le
  have hnonneg : (0 : ℚ) ≤ l.toNat := Nat.cast_nonneg _
  rcases hx with hneg | hlarge
  · have hsign : binary64.sign p = false := by
      rcases hnonneg.lt_or_eq with hpos | hzero
      · exact h.positive hpos
      · exact h.zero hzero.symm
    have hsign' := h'.negative (Int.cast_lt_zero.2 hneg)
    rw [hsign] at hsign'
    exact Bool.false_ne_true hsign'
  · have hcast : (l.toNat : ℚ) + 2 * 2 ^ 63 ≤ x := by exact_mod_cast hlarge
    have hnearest := h.nearest
    have hnearest' := h'.nearest
    rw [abs_of_nonneg hnonneg] at hnearest
    rw [abs_of_nonneg (by linarith)] at hnearest'
    exact hnearest.ne_of_add_le hnearest' (by decide) hl hcast hnonneg rfl

/-- The method rounds the number it is asked for exactly when the high half is zero. -/
theorem returnsNearest_iff {builtin : Builtin UInt64} {l h : UInt64} {x : ℤ}
    (hreturns : ∃ p, Returns builtin 100 p ∧ binary64.Rounded l.toNat false p.toNat)
    (hx : h = 0 ∧ x = l.toNat ∨ h ≠ 0 ∧ (x < 0 ∨ (l.toNat : ℤ) + 2 ^ 64 ≤ x)) :
    ReturnsNearest builtin x ↔ h = 0 := by
  obtain ⟨p, hp, hrounded⟩ := hreturns
  rcases hx with ⟨hzero, rfl⟩ | ⟨hne, hfar⟩
  · refine iff_of_true ⟨p, hp, ?_⟩ hzero
    rw [Int.cast_natCast]
    exact hrounded
  · refine iff_of_false ?_ hne
    rintro ⟨p', hp', hrounded'⟩
    rw [hp'.unique hp (by decide) (by decide)] at hrounded'
    exact not_rounded_of_high hrounded hfar hrounded'

/-- **The conversions, and the lost half.** The integer of the two halves is rounded to nearest even
exactly if the high half is zero. -/
theorem conversions_iff (l h : UInt64) :
    (ReturnsNearest (floattidf l h) (signedValue l h) ↔ h = 0) ∧
      (ReturnsNearest (floatuntidf l h) (unsignedValue l h) ↔ h = 0) := by
  refine ⟨returnsNearest_iff (floattidf_returns l h) (signedValue_cases l h),
    returnsNearest_iff (floatuntidf_returns l h) ?_⟩
  have hl := l.toNat_lt
  have hzero : (0 : UInt64).toNat = 0 := rfl
  rw [ne_eq, ← UInt64.toNat_inj, hzero]
  unfold unsignedValue
  omega

/-- The double nearest to `2 ^ 64` is not zero. -/
theorem two_pow_64_lost :
    floattidf 0 1 ⟨gasCallBase, 0⟩ = .ok 0 ⟨0, 0⟩ ∧ floatuntidf 0 1 ⟨gasCallBase, 0⟩ = .ok 0 ⟨0, 0⟩ ∧
      ¬ReturnsNearest (floattidf 0 1) (signedValue 0 1) ∧
      ¬ReturnsNearest (floatuntidf 0 1) (unsignedValue 0 1) := by
  refine ⟨rfl, rfl, fun h => ?_, fun h => ?_⟩
  · have hsigned := returnsNearest_iff (floattidf_returns 0 1) (signedValue_cases 0 1)
    exact absurd (hsigned.1 h) (by decide)
  · have hunsigned := @returnsNearest_iff _ 0 1 (unsignedValue 0 1) (floatuntidf_returns 0 1)
      (.inr (by decide))
    exact absurd (hunsigned.1 h) (by decide)

end CompilerBuiltins

end FractalWasm
