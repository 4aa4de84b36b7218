import FractalWasm.Ieee.Format
import Mathlib.Algebra.Order.Floor.Ring
import Mathlib.Tactic.FieldSimp

/-!
# Rounding to integers

Numbers rounded to an integer, as patterns (`RoundsTo`).

**Integers next to a number** (`truncate`, `awayFromZero`, `roundEven`): what the three roundings do
to rational numbers; `roundEven` is the only integer nearest to a number, the even one at a tie
(`NearestInteger.unique`).

**Clearing low bits** (`number_div_mul`, `number_add_div_mul`): the bits of a fractional part are
the lowest of a magnitude. Cleared they leave the integer below, and a carry into the exponent is
the integer above.

**Patterns below one** (`roundsTo_truncate_zero` and its companions): all of such a number is
fractional, so that it becomes zero or one, with its sign.
-/

namespace Ieee

/-! ## Integers next to a number -/

/-- Towards zero. -/
def truncate (x : ℚ) : ℤ := if x < 0 then ⌈x⌉ else ⌊x⌋

/-- Away from zero. -/
def awayFromZero (x : ℚ) : ℤ := if x < 0 then ⌊x⌋ else ⌈x⌉

/-- To the nearest integer; halfway to the even one. -/
def roundEven (x : ℚ) : ℤ :=
  if 2 * (x - ⌊x⌋) < 1 then ⌊x⌋
  else if 1 < 2 * (x - ⌊x⌋) then ⌊x⌋ + 1
  else if ⌊x⌋ % 2 = 0 then ⌊x⌋
  else ⌊x⌋ + 1

/-- `n` is next to `x`, and even if it is halfway. -/
def NearestInteger (x : ℚ) (n : ℤ) : Prop :=
  2 * |x - n| ≤ 1 ∧ (2 * |x - n| = 1 → n % 2 = 0)

/-- `roundEven` is an integer nearest to the number, the even one where there are two. -/
theorem nearestInteger_roundEven (x : ℚ) : NearestInteger x (roundEven x) := by
  have hle := Int.floor_le x
  have hlt := Int.lt_floor_add_one x
  have hbelow : |x - (⌊x⌋ : ℚ)| = x - ⌊x⌋ := abs_of_nonneg (by linarith)
  have habove : |x - ((⌊x⌋ + 1 : ℤ) : ℚ)| = ⌊x⌋ + 1 - x := by
    rw [abs_of_nonpos (by push_cast; linarith)]
    push_cast
    ring
  unfold roundEven NearestInteger
  split
  · rw [hbelow]
    exact ⟨by linarith, fun h => by linarith⟩
  · split
    · rw [habove]
      exact ⟨by linarith, fun h => by linarith⟩
    · split
      · next heven =>
        rw [hbelow]
        exact ⟨by linarith, fun _ => heven⟩
      · rw [habove]
        exact ⟨by linarith, fun _ => by omega⟩

/-- Every other integer is at least halfway. -/
theorem NearestInteger.half_le {x : ℚ} {n n' : ℤ} (h : NearestInteger x n) (hne : n' ≠ n) :
    1 ≤ 2 * |x - n'| := by
  have hle := h.1
  have hone : (1 : ℚ) ≤ |(n : ℚ) - n'| := by
    have hint : (1 : ℤ) ≤ |n - n'| := Int.one_le_abs (by omega)
    exact_mod_cast hint
  have htriangle := abs_sub_le (n : ℚ) x n'
  rw [abs_sub_comm (n : ℚ) x] at htriangle
  linarith

/-- No integer is nearer. -/
theorem NearestInteger.abs_le_abs {x : ℚ} {n : ℤ} (h : NearestInteger x n) (n' : ℤ) :
    |x - n| ≤ |x - n'| := by
  by_cases hne : n' = n
  · rw [hne]
  · have hle := h.1
    have hhalf := h.half_le hne
    linarith

/-- Ties are settled by the parity, so there is only one. -/
theorem NearestInteger.unique {x : ℚ} {n n' : ℤ} (h : NearestInteger x n)
    (h' : NearestInteger x n') : n = n' := by
  obtain ⟨hle, heven⟩ := h
  obtain ⟨hle', heven'⟩ := h'
  by_contra hne
  wlog hlt : n < n' generalizing n n'
  · exact this hle' heven' hle heven (Ne.symm hne) (by omega)
  have hstep : (n : ℚ) + 1 ≤ n' := by exact_mod_cast hlt
  have hright := (abs_le.1 (show |x - n| ≤ 1 / 2 by linarith)).2
  have hleft := (abs_le.1 (show |x - n'| ≤ 1 / 2 by linarith)).1
  -- Both are halfway, next to each other, and even.
  have hhalf : x - n = 1 / 2 := by linarith
  have hhalf' : x - n' = -(1 / 2) := by linarith
  have hnext : n' = n + 1 := by
    have hnext : (n' : ℚ) = n + 1 := by linarith
    exact_mod_cast hnext
  have hn := heven (by rw [hhalf]; norm_num)
  have hn' := heven' (by rw [hhalf']; norm_num)
  omega

theorem NearestInteger.roundEven_eq {x : ℚ} {n : ℤ} (h : NearestInteger x n) : roundEven x = n :=
  (nearestInteger_roundEven x).unique h

/-- Rounding to nearest is symmetric. -/
theorem NearestInteger.neg {x : ℚ} {n : ℤ} (h : NearestInteger x n) : NearestInteger (-x) (-n) := by
  have habs : |-x - ((-n : ℤ) : ℚ)| = |x - n| := by
    rw [← abs_neg]
    congr 1
    push_cast
    ring
  unfold NearestInteger at h ⊢
  rw [habs]
  exact ⟨h.1, fun hhalf => by have := h.2 hhalf; omega⟩

theorem roundEven_neg (x : ℚ) : roundEven (-x) = -roundEven x :=
  (nearestInteger_roundEven x).neg.roundEven_eq

/-- An integer is nearest to itself. -/
theorem nearestInteger_intCast (n : ℤ) : NearestInteger n n := by
  unfold NearestInteger
  rw [sub_self, abs_zero]
  norm_num

/-- An even number added to both. -/
theorem NearestInteger.add_left {x : ℚ} {n d : ℤ} (h : NearestInteger x n) (hd : d % 2 = 0) :
    NearestInteger (d + x) (d + n) := by
  have habs : |(d + x : ℚ) - ((d + n : ℤ) : ℚ)| = |x - n| := by
    congr 1
    push_cast
    ring
  unfold NearestInteger at h ⊢
  rw [habs]
  exact ⟨h.1, fun hhalf => by have := h.2 hhalf; omega⟩

/-- Rounding does not pass an integer. -/
theorem roundEven_le {x : ℚ} {n : ℤ} (h : x ≤ n) : roundEven x ≤ n := by
  have hbounds := abs_le.1 (show |x - roundEven x| ≤ 1 / 2 by
    have := (nearestInteger_roundEven x).1
    linarith)
  have hlt : (roundEven x : ℚ) < (n + 1 : ℤ) := by
    push_cast
    linarith
  exact Int.le_of_lt_add_one (Int.cast_lt.1 hlt)

theorem le_roundEven {x : ℚ} {n : ℤ} (h : n ≤ x) : n ≤ roundEven x := by
  have hneg := roundEven_le (show -x ≤ ((-n : ℤ) : ℚ) by push_cast; linarith)
  rw [roundEven_neg] at hneg
  omega

theorem NearestInteger.le_natCast {x : ℚ} {c n : Nat} (h : NearestInteger x c) (hx : x ≤ n) :
    c ≤ n := by
  have hround := roundEven_le (n := n) (by exact_mod_cast hx)
  rw [h.roundEven_eq] at hround
  exact_mod_cast hround

theorem NearestInteger.natCast_le {x : ℚ} {c n : Nat} (h : NearestInteger x c) (hx : n ≤ x) :
    n ≤ c := by
  have hround := le_roundEven (n := n) (by exact_mod_cast hx)
  rw [h.roundEven_eq] at hround
  exact_mod_cast hround

@[simp] theorem roundEven_intCast (n : ℤ) : roundEven n = n :=
  (nearestInteger_intCast n).roundEven_eq

@[simp] theorem truncate_intCast (n : ℤ) : truncate n = n := by
  unfold truncate
  rw [Int.ceil_intCast, Int.floor_intCast, ite_self]

@[simp] theorem awayFromZero_intCast (n : ℤ) : awayFromZero n = n := by
  unfold awayFromZero
  rw [Int.ceil_intCast, Int.floor_intCast, ite_self]

theorem truncate_of_nonneg {x : ℚ} (h : 0 ≤ x) : truncate x = ⌊x⌋ := if_neg (not_lt.2 h)

theorem truncate_of_nonpos {x : ℚ} (h : x ≤ 0) : truncate x = ⌈x⌉ := by
  rcases h.lt_or_eq with h | rfl
  · exact if_pos h
  · simp [truncate]

theorem awayFromZero_of_nonneg {x : ℚ} (h : 0 ≤ x) : awayFromZero x = ⌈x⌉ := if_neg (not_lt.2 h)

theorem awayFromZero_of_nonpos {x : ℚ} (h : x ≤ 0) : awayFromZero x = ⌊x⌋ := by
  rcases h.lt_or_eq with h | rfl
  · exact if_pos h
  · simp [awayFromZero]

theorem truncate_neg (x : ℚ) : truncate (-x) = -truncate x := by
  rcases le_total 0 x with h | h
  · rw [truncate_of_nonpos (neg_nonpos.2 h), truncate_of_nonneg h, Int.ceil_neg]
  · rw [truncate_of_nonneg (neg_nonneg.2 h), truncate_of_nonpos h, Int.floor_neg]

/-- Away from zero is symmetric too. -/
theorem awayFromZero_neg (x : ℚ) : awayFromZero (-x) = -awayFromZero x := by
  rcases le_total 0 x with h | h
  · rw [awayFromZero_of_nonpos (neg_nonpos.2 h), awayFromZero_of_nonneg h, Int.floor_neg]
  · rw [awayFromZero_of_nonneg (neg_nonneg.2 h), awayFromZero_of_nonpos h, Int.ceil_neg]

/-- What truncation reaches from below, for a bound that is not positive. -/
theorem le_truncate {x : ℚ} {n : ℤ} (hn : n ≤ 0) : n ≤ truncate x ↔ (n : ℚ) - 1 < x := by
  have hcast : (n : ℚ) ≤ 0 := by exact_mod_cast hn
  rcases lt_or_ge x 0 with h | h
  · rw [truncate_of_nonpos h.le, Int.le_ceil_iff]
  · rw [truncate_of_nonneg h, Int.le_floor]
    constructor <;> intro _ <;> linarith

/-- What it reaches from above, for a bound that is not negative. -/
theorem truncate_le {x : ℚ} {n : ℤ} (hn : 0 ≤ n) : truncate x ≤ n ↔ x < n + 1 := by
  have hneg := le_truncate (x := -x) (neg_nonpos.2 hn)
  rw [truncate_neg, Int.cast_neg] at hneg
  constructor
  · intro h
    linarith [hneg.1 (neg_le_neg h)]
  · intro h
    linarith [hneg.2 (by linarith)]

/-- The floor of a fraction is the quotient. -/
theorem floor_natCast_div (n d : Nat) : ⌊(n : ℚ) / d⌋ = ((n / d : Nat) : ℤ) := by
  rw [Rat.floor_natCast_div_natCast, Int.natCast_div]

/-- Nearest even by quotient and remainder. -/
theorem nearestInteger_natCast_div (n : Nat) {d : Nat} (hd : 0 < d) :
    NearestInteger ((n : ℚ) / d)
      (n / d + if 2 * (n % d) < d ∨ 2 * (n % d) = d ∧ n / d % 2 = 0 then 0 else 1 : Nat) := by
  have hfloor := floor_natCast_div n d
  have hpos : (0 : ℚ) < d := Nat.cast_pos.2 hd
  have hrest : (n : ℚ) / d - (n / d : Nat) = (n % d : Nat) / d := by
    rw [eq_div_iff hpos.ne', sub_mul, div_mul_cancel₀ _ hpos.ne']
    have hmod := Nat.div_add_mod' n d
    have hcast : ((n / d : Nat) : ℚ) * d + (n % d : Nat) = n := by exact_mod_cast hmod
    linarith
  have hlt : 2 * ((n : ℚ) / d - (n / d : Nat)) < 1 ↔ 2 * (n % d) < d := by
    rw [hrest, ← mul_div_assoc, div_lt_one hpos]
    norm_cast
  have hgt : 1 < 2 * ((n : ℚ) / d - (n / d : Nat)) ↔ d < 2 * (n % d) := by
    rw [hrest, ← mul_div_assoc, one_lt_div hpos]
    norm_cast
  have hround := nearestInteger_roundEven ((n : ℚ) / d)
  rw [roundEven, hfloor, Int.cast_natCast] at hround
  rcases Nat.lt_trichotomy (2 * (n % d)) d with h | h | h
  · rw [if_pos (hlt.2 h)] at hround
    rw [if_pos (.inl h)]
    exact hround
  · rw [if_neg (mt hlt.1 (by omega)), if_neg (mt hgt.1 (by omega))] at hround
    by_cases heven : n / d % 2 = 0
    · rw [if_pos (by omega)] at hround
      rw [if_pos (.inr ⟨h, heven⟩)]
      exact hround
    · rw [if_neg (by omega)] at hround
      rw [if_neg (by omega)]
      exact hround
  · rw [if_neg (mt hlt.1 (by omega)), if_pos (hgt.2 h)] at hround
    rw [if_neg (by omega)]
    exact hround

/-- The ceiling is the quotient after the denominator less one is added. -/
theorem ceil_natCast_div (n : Nat) {d : Nat} (hd : 0 < d) :
    ⌈(n : ℚ) / d⌉ = (((n + (d - 1)) / d : Nat) : ℤ) := by
  have hpos : (0 : ℚ) < d := Nat.cast_pos.2 hd
  have hdiv := Nat.div_mul_le_self (n + (d - 1)) d
  have hlt := Nat.lt_div_mul_add hd (a := n + (d - 1))
  rw [Int.ceil_eq_iff]
  constructor
  · have hnat : (n + (d - 1)) / d * d < n + d := by omega
    have hcast : (((n + (d - 1)) / d : Nat) : ℚ) * d < n + d := by exact_mod_cast hnat
    rw [lt_div_iff₀ hpos, Int.cast_natCast]
    linarith
  · rw [div_le_iff₀ hpos]
    have hnat : n ≤ (n + (d - 1)) / d * d := by omega
    exact_mod_cast hnat

namespace Format

variable {fmt : Format} {p r m m' k : Nat} {s : Bool} {round round' : ℚ → ℤ}

/-! ## Patterns of integers -/

/-- `r` is `p` rounded to an integer. Infinities and integers are unchanged, and a zero has the sign
of what was rounded. -/
structure RoundsTo (fmt : Format) (round : ℚ → ℤ) (p r : Nat) : Prop where
  infinite : fmt.IsInfinite p → r = p
  finite : fmt.IsFinite p → fmt.IsFinite r ∧ fmt.value r = round (fmt.value p)
  zero : fmt.IsFinite p → round (fmt.value p) = 0 → fmt.sign r = fmt.sign p
  integral : fmt.IsFinite p → ∀ n : ℤ, fmt.value p = n → r = p

/-- Only the rounding of the value itself matters. -/
theorem RoundsTo.congr (h : fmt.RoundsTo round p r)
    (heq : round (fmt.value p) = round' (fmt.value p)) : fmt.RoundsTo round' p r where
  infinite := h.infinite
  finite hfinite := by
    rw [← heq]
    exact h.finite hfinite
  zero hfinite := by
    rw [← heq]
    exact h.zero hfinite
  integral := h.integral

theorem sign_of_value_pos (h : 0 < fmt.value p) : fmt.sign p = false := by
  unfold value at h
  split at h
  · have := number_nonneg fmt (fmt.magnitude p)
    linarith
  · next hsign => exact Bool.eq_false_iff.2 hsign

theorem sign_of_value_neg (h : fmt.value p < 0) : fmt.sign p = true := by
  unfold value at h
  split at h
  · next hsign => exact hsign
  · have := number_nonneg fmt (fmt.magnitude p)
    linarith

theorem value_nonneg (h : fmt.sign p = false) : 0 ≤ fmt.value p := by
  simp [value, h, number_nonneg]

theorem value_nonpos (h : fmt.sign p = true) : fmt.value p ≤ 0 := by
  simp [value, h, number_nonneg]

/-- Patterns of one nonzero value have one sign. -/
theorem sign_of_value_eq (hvalue : fmt.value p = fmt.value r) (hne : fmt.value p ≠ 0) :
    fmt.sign p = fmt.sign r := by
  rcases hne.lt_or_gt with hneg | hpos
  · rw [sign_of_value_neg hneg, sign_of_value_neg (hvalue ▸ hneg)]
  · rw [sign_of_value_pos hpos, sign_of_value_pos (hvalue ▸ hpos)]

/-- Of a finite pattern only the number and the sign of a zero have to be known. -/
theorem RoundsTo.of_value (hp : p < 2 ^ fmt.width) (hr : r < 2 ^ fmt.width)
    (hround : ∀ n : ℤ, round n = n) (hfinite : fmt.IsFinite p) (hfinite' : fmt.IsFinite r)
    (hvalue : fmt.value r = round (fmt.value p))
    (hzero : round (fmt.value p) = 0 → fmt.sign r = fmt.sign p) : fmt.RoundsTo round p r where
  infinite hinfinite := absurd hfinite (by omega)
  finite _ := ⟨hfinite', hvalue⟩
  zero _ := hzero
  integral _ n hn := by
    rw [hn, hround] at hvalue hzero
    have hsame : fmt.value r = fmt.value p := hvalue.trans hn.symm
    refine eq_of_key_of_sign hr hp (value_eq_value.1 hsame) ?_
    by_cases h : n = 0
    · exact hzero h
    · refine sign_of_value_eq hsame ?_
      rw [hvalue]
      exact_mod_cast h

/-- What is no fractional number is rounded to itself. -/
theorem RoundsTo.refl (hround : ∀ n : ℤ, round n = n)
    (hintegral : fmt.IsFinite p → ∃ n : ℤ, fmt.value p = n) : fmt.RoundsTo round p p where
  infinite _ := rfl
  finite hfinite := by
    obtain ⟨n, hn⟩ := hintegral hfinite
    refine ⟨hfinite, ?_⟩
    rw [hn, hround]
  zero _ _ := rfl
  integral _ _ _ := rfl

theorem exponent_eq (fmt : Format) (p : Nat) (h : 0 < fmt.exponent p) :
    fmt.step (fmt.magnitude p) + 1 = fmt.exponent p := by
  unfold step exponent at *
  omega

/-- From the exponent of `2 ^ fracBits` on there is no fractional part. -/
theorem exists_value_eq (h : fmt.bias + fmt.fracBits ≤ fmt.exponent p) :
    ∃ n : ℤ, fmt.value p = n := by
  have hbias := bias_pos fmt
  have hstep := exponent_eq fmt p (by omega)
  have hle : fmt.bias - 1 + fmt.fracBits ≤ fmt.step (fmt.magnitude p) := by omega
  obtain ⟨n, hn⟩ := dvd_units hle
  have hnumber : fmt.number (fmt.magnitude p) = n := by
    rw [number, hn, ← scale, Nat.cast_mul, mul_comm, mul_div_assoc, div_self (scale_pos fmt).ne',
      mul_one]
  unfold value
  rw [hnumber]
  split
  · exact ⟨-n, by push_cast; rfl⟩
  · exact ⟨n, by push_cast; rfl⟩

/-- Numbers of at least `2 ^ fracBits` are integers. -/
theorem exists_value_eq_of_le (h : 2 ^ fmt.fracBits ≤ |fmt.value p|) :
    ∃ n : ℤ, fmt.value p = n := by
  refine exists_value_eq (Nat.le_of_not_lt fun hlt => ?_)
  rw [abs_value, ← number_binade, (number_strictMono fmt).le_iff_le] at h
  exact absurd (Nat.lt_mul_of_div_lt hlt (Nat.two_pow_pos _)) (Nat.not_lt.2 h)

/-! ## Clearing low bits -/

theorem mul_div_mul_add {F c st : Nat} (hk : 2 ^ k ∣ F) :
    (st * F + c) / 2 ^ k * 2 ^ k = st * F + c / 2 ^ k * 2 ^ k := by
  obtain ⟨n, rfl⟩ := hk
  rw [show st * (2 ^ k * n) + c = c + st * n * 2 ^ k by ring, Nat.add_mul_div_right _ _
    (Nat.two_pow_pos k)]
  ring

/-- Cleared in the pattern, the low bits are cleared in the number of units. -/
theorem units_div_mul (hk : k ≤ fmt.fracBits) :
    fmt.units (m / 2 ^ k * 2 ^ k) =
      fmt.units m / 2 ^ (fmt.step m + k) * 2 ^ (fmt.step m + k) := by
  have hdvd : 2 ^ k ∣ 2 ^ fmt.fracBits := Nat.pow_dvd_pow 2 hk
  have hlt := significand_lt fmt m
  have hle := Nat.div_mul_le_self (fmt.significand m) (2 ^ k)
  have hnormal : fmt.step m = 0 ∨ 2 ^ fmt.fracBits ≤ fmt.significand m / 2 ^ k * 2 ^ k := by
    rcases Nat.eq_zero_or_pos (fmt.step m) with h | h
    · exact .inl h
    · obtain ⟨n, hn⟩ := hdvd
      refine .inr ?_
      have hbelow := le_significand h
      rw [hn, Nat.mul_comm] at hbelow ⊢
      exact Nat.mul_le_mul_right _ ((Nat.le_div_iff_mul_le (Nat.two_pow_pos k)).2 hbelow)
  have hunits := units_add hnormal (by omega)
  rw [← mul_div_mul_add hdvd, step_mul_add_significand] at hunits
  rw [hunits]
  unfold units
  rw [Nat.pow_add, Nat.mul_comm (2 ^ fmt.step m) (2 ^ k),
    Nat.mul_div_mul_right _ _ (Nat.two_pow_pos _)]
  ring

/-- A carry out of the fraction goes on into the exponent, and the units are rounded up all the
same. -/
theorem units_add_div_mul (hk : k ≤ fmt.fracBits) :
    fmt.units ((m + (2 ^ k - 1)) / 2 ^ k * 2 ^ k) =
      (fmt.units m + (2 ^ (fmt.step m + k) - 1)) / 2 ^ (fmt.step m + k) *
        2 ^ (fmt.step m + k) := by
  have hdvd : 2 ^ k ∣ 2 ^ fmt.fracBits := Nat.pow_dvd_pow 2 hk
  have hlt := significand_lt fmt m
  have hpos := Nat.two_pow_pos k
  have hrounded : fmt.significand m ≤ (fmt.significand m + (2 ^ k - 1)) / 2 ^ k * 2 ^ k := by
    have := Nat.lt_div_mul_add hpos (a := fmt.significand m + (2 ^ k - 1))
    omega
  have hnormal : fmt.step m = 0 ∨
      2 ^ fmt.fracBits ≤ (fmt.significand m + (2 ^ k - 1)) / 2 ^ k * 2 ^ k := by
    rcases Nat.eq_zero_or_pos (fmt.step m) with h | h
    · exact .inl h
    · exact .inr (Nat.le_trans (le_significand h) hrounded)
  have hle : (fmt.significand m + (2 ^ k - 1)) / 2 ^ k * 2 ^ k ≤ 2 * 2 ^ fmt.fracBits := by
    obtain ⟨n, hn⟩ := hdvd
    rw [hn, Nat.mul_left_comm, Nat.mul_comm (2 ^ k)]
    refine Nat.mul_le_mul_right _ (Nat.le_of_lt_succ ?_)
    rw [Nat.div_lt_iff_lt_mul hpos]
    rw [hn] at hlt
    have hsucc : (2 * n).succ * 2 ^ k = 2 * (2 ^ k * n) + 2 ^ k := by
      rw [Nat.succ_mul]
      ring
    omega
  have hunits := units_add hnormal hle
  rw [← mul_div_mul_add hdvd, ← Nat.add_assoc, step_mul_add_significand] at hunits
  rw [hunits]
  have hshift : fmt.significand m * 2 ^ fmt.step m + (2 ^ (fmt.step m + k) - 1) =
      2 ^ fmt.step m - 1 + 2 ^ fmt.step m * (fmt.significand m + (2 ^ k - 1)) := by
    have hone := Nat.two_pow_pos (fmt.step m)
    have hone' := Nat.two_pow_pos (fmt.step m + k)
    have hmul : 2 ^ fmt.step m * (fmt.significand m + (2 ^ k - 1)) + 2 ^ fmt.step m =
        fmt.significand m * 2 ^ fmt.step m + 2 ^ (fmt.step m + k) := by
      have hsum : fmt.significand m + (2 ^ k - 1) + 1 = fmt.significand m + 2 ^ k := by omega
      rw [← Nat.mul_succ, Nat.succ_eq_add_one, hsum, Nat.pow_add]
      ring
    omega
  unfold units
  rw [hshift, Nat.pow_add, ← Nat.div_div_eq_div_mul, Nat.add_mul_div_left _ _ (Nat.two_pow_pos _),
    Nat.div_eq_of_lt (Nat.sub_lt (Nat.two_pow_pos _) Nat.one_pos), Nat.zero_add]
  ring

/-- Where the cleared bits are the fractional ones, the integer below is left. -/
theorem number_div_mul (hk : k ≤ fmt.fracBits)
    (hscale : fmt.step m + k = fmt.bias - 1 + fmt.fracBits) :
    fmt.number (m / 2 ^ k * 2 ^ k) = (⌊fmt.number m⌋ : ℚ) := by
  have hunits : fmt.units (m / 2 ^ k * 2 ^ k) = _ := units_div_mul hk
  rw [hscale, ← scale] at hunits
  unfold number
  rw [floor_natCast_div, hunits, Nat.cast_mul, mul_div_assoc, div_self (scale_pos fmt).ne', mul_one,
    Int.cast_natCast]

/-- With the carry it is the integer above. -/
theorem number_add_div_mul (hk : k ≤ fmt.fracBits)
    (hscale : fmt.step m + k = fmt.bias - 1 + fmt.fracBits) :
    fmt.number ((m + (2 ^ k - 1)) / 2 ^ k * 2 ^ k) = (⌈fmt.number m⌉ : ℚ) := by
  have hunits : fmt.units ((m + (2 ^ k - 1)) / 2 ^ k * 2 ^ k) = _ := units_add_div_mul hk
  have hpos : 0 < fmt.scale := Nat.two_pow_pos _
  rw [hscale, ← scale] at hunits
  unfold number
  rw [ceil_natCast_div _ hpos, hunits, Nat.cast_mul, mul_div_assoc,
    div_self (scale_pos fmt).ne', mul_one, Int.cast_natCast]

theorem infinity_eq (fmt : Format) :
    fmt.infinity = (fmt.bias + (fmt.bias + 1)) * 2 ^ fmt.fracBits := by
  rw [infinity, two_pow_expBits]
  congr 1
  omega

/-- A number of so few bits is finite. -/
theorem lt_infinity_of_le (h : fmt.number m ≤ 2 * 2 ^ fmt.fracBits) : m < fmt.infinity := by
  refine (number_strictMono fmt).lt_iff_lt.1 ?_
  rw [infinity_eq, number_binade]
  refine lt_of_le_of_lt h ?_
  rw [← pow_succ']
  exact pow_lt_pow_right₀ one_lt_two (Nat.succ_lt_succ (fracBits_lt_bias fmt))

/-- The numbers with a fractional part, and the integers next to them, are finite. -/
theorem lt_infinity (h : fmt.number m ≤ 2 ^ fmt.fracBits) : m < fmt.infinity := by
  have hpos : (0 : ℚ) < 2 ^ fmt.fracBits := by positivity
  exact lt_infinity_of_le (by linarith)

theorem lt_two_pow_magnitudeBits (h : m < fmt.infinity) : m < 2 ^ fmt.magnitudeBits :=
  Nat.lt_trans h (infinity_lt fmt)

theorem value_pack (hm : m < fmt.infinity) :
    fmt.value (fmt.pack s m) = if s then -fmt.number m else fmt.number m := by
  unfold value
  rw [sign_pack (lt_two_pow_magnitudeBits hm), magnitude_pack (lt_two_pow_magnitudeBits hm)]

theorem isFinite_pack (hm : m < fmt.infinity) : fmt.IsFinite (fmt.pack s m) := by
  rw [IsFinite, magnitude_pack (lt_two_pow_magnitudeBits hm)]
  exact hm

/-- What treats both signs alike is known from the magnitudes. -/
theorem RoundsTo.of_magnitude (hround : ∀ n : ℤ, round n = n)
    (hneg : ∀ x, round (-x) = -round x) (hm : m < fmt.infinity) (hm' : m' < fmt.infinity)
    (hnumber : fmt.number m' = round (fmt.number m)) :
    fmt.RoundsTo round (fmt.pack s m) (fmt.pack s m') := by
  refine .of_value (pack_lt (lt_two_pow_magnitudeBits hm)) (pack_lt (lt_two_pow_magnitudeBits hm'))
    hround (isFinite_pack hm) (isFinite_pack hm') ?_ ?_
  · rw [value_pack hm, value_pack hm']
    cases s
    · exact hnumber
    · simp only [if_true, hneg, Int.cast_neg, hnumber]
  · intro _
    rw [sign_pack (lt_two_pow_magnitudeBits hm), sign_pack (lt_two_pow_magnitudeBits hm')]

/-- The exponent bounds the number. -/
theorem number_lt_two_pow {j : Nat} (h : fmt.exponent p < fmt.bias + j) :
    fmt.number (fmt.magnitude p) < 2 ^ j := by
  rw [← number_binade fmt j]
  exact number_strictMono fmt (Nat.lt_mul_of_div_lt h (Nat.two_pow_pos _))

/-- From the bias on, a number is at least one. -/
theorem one_le_abs_value (h : fmt.bias ≤ fmt.exponent p) : 1 ≤ |fmt.value p| := by
  have hone : fmt.number (fmt.bias * 2 ^ fmt.fracBits) = 1 := number_binade fmt 0
  rw [abs_value, ← hone]
  exact (number_strictMono fmt).monotone ((Nat.le_div_iff_mul_le (Nat.two_pow_pos _)).1 h)

/-! ## Patterns with a fractional part -/

section Fraction

variable (hp : p < 2 ^ fmt.width) (hbias : fmt.bias ≤ fmt.exponent p)
  (hk : fmt.exponent p + k = fmt.bias + fmt.fracBits) (hpos : 0 < k)

include hbias hk in
/-- The place of the binary point among the fraction bits. -/
theorem step_add : fmt.step (fmt.magnitude p) + k = fmt.bias - 1 + fmt.fracBits := by
  have hone := bias_pos fmt
  have hstep := exponent_eq fmt p (by omega)
  omega

include hk hpos in
/-- With a fractional part, a number is below the first whose unit is one. -/
theorem number_le : fmt.number (fmt.magnitude p) ≤ 2 ^ fmt.fracBits :=
  (number_lt_two_pow (by omega)).le

include hp hbias hk hpos in
/-- The bits below one are the lowest of the pattern. -/
theorem roundsTo_truncate : fmt.RoundsTo truncate p (p / 2 ^ k * 2 ^ k) := by
  have hle : k ≤ fmt.fracBits := by omega
  have hdvd : 2 ^ k ∣ 2 ^ fmt.magnitudeBits :=
    Nat.pow_dvd_pow 2 (Nat.le_trans hle (Nat.le_add_left _ _))
  have hcleared : p / 2 ^ k * 2 ^ k =
      fmt.pack (fmt.sign p) (fmt.magnitude p / 2 ^ k * 2 ^ k) := by
    nth_rewrite 1 [← pack_sign_magnitude hp]
    exact mul_div_mul_add hdvd
  have hlt := lt_infinity (number_le hk hpos)
  rw [hcleared]
  nth_rewrite 1 [← pack_sign_magnitude hp]
  refine .of_magnitude truncate_intCast truncate_neg hlt
    (Nat.lt_of_le_of_lt (Nat.div_mul_le_self _ _) hlt) ?_
  rw [number_div_mul hle (step_add hbias hk), truncate_of_nonneg (number_nonneg fmt _)]

include hp hbias hk hpos in
/-- Adding all of these bits first carries into the integer. -/
theorem roundsTo_awayFromZero :
    fmt.RoundsTo awayFromZero p ((p + (2 ^ k - 1)) / 2 ^ k * 2 ^ k) := by
  have hle : k ≤ fmt.fracBits := by omega
  have hdvd : 2 ^ k ∣ 2 ^ fmt.magnitudeBits :=
    Nat.pow_dvd_pow 2 (Nat.le_trans hle (Nat.le_add_left _ _))
  have hcarried : (p + (2 ^ k - 1)) / 2 ^ k * 2 ^ k =
      fmt.pack (fmt.sign p) ((fmt.magnitude p + (2 ^ k - 1)) / 2 ^ k * 2 ^ k) := by
    nth_rewrite 1 [← pack_sign_magnitude hp]
    rw [pack, Nat.add_assoc]
    exact mul_div_mul_add hdvd
  have hnumber := number_add_div_mul hle (step_add hbias hk)
  have hceil : fmt.number ((fmt.magnitude p + (2 ^ k - 1)) / 2 ^ k * 2 ^ k) ≤
      2 ^ fmt.fracBits := by
    rw [hnumber]
    have hint : ⌈fmt.number (fmt.magnitude p)⌉ ≤ ((2 ^ fmt.fracBits : Nat) : ℤ) := by
      rw [Int.ceil_le]
      push_cast
      exact number_le hk hpos
    exact_mod_cast hint
  rw [hcarried]
  nth_rewrite 1 [← pack_sign_magnitude hp]
  refine .of_magnitude awayFromZero_intCast awayFromZero_neg (lt_infinity (number_le hk hpos))
    (lt_infinity hceil) ?_
  rw [hnumber, awayFromZero_of_nonneg (number_nonneg fmt _)]

end Fraction

/-! ## Patterns below one -/

section BelowOne

variable (hp : p < 2 ^ fmt.width) (hexponent : fmt.exponent p < fmt.bias)

include hexponent in
/-- Below the bias, a number is less than one. -/
theorem number_lt_one : fmt.number (fmt.magnitude p) < 1 := by
  have hlt : fmt.number (fmt.magnitude p) < 2 ^ 0 := number_lt_two_pow hexponent
  rwa [pow_zero] at hlt

include hexponent in
theorem lt_infinity_of_lt_bias : fmt.magnitude p < fmt.infinity :=
  lt_infinity (le_trans (number_lt_one hexponent).le (one_le_pow₀ one_le_two))

include hp hexponent in
/-- Truncated, such a number is a zero of its sign. -/
theorem roundsTo_truncate_zero : fmt.RoundsTo truncate p (fmt.pack (fmt.sign p) 0) := by
  nth_rewrite 1 [← pack_sign_magnitude hp]
  refine .of_magnitude truncate_intCast truncate_neg (lt_infinity_of_lt_bias hexponent)
    (lt_infinity ?_) ?_
  · rw [number_zero]
    positivity
  · have hfloor : ⌊fmt.number (fmt.magnitude p)⌋ = 0 :=
      Int.floor_eq_zero_iff.2 ⟨number_nonneg fmt _, number_lt_one hexponent⟩
    rw [number_zero, truncate_of_nonneg (number_nonneg fmt _), hfloor, Int.cast_zero]

include hp hexponent in
/-- Away from zero it is one. -/
theorem roundsTo_awayFromZero_one (hne : fmt.magnitude p ≠ 0) :
    fmt.RoundsTo awayFromZero p (fmt.pack (fmt.sign p) (fmt.bias * 2 ^ fmt.fracBits)) := by
  have hone : fmt.number (fmt.bias * 2 ^ fmt.fracBits) = 1 := number_binade fmt 0
  nth_rewrite 1 [← pack_sign_magnitude hp]
  refine .of_magnitude awayFromZero_intCast awayFromZero_neg (lt_infinity_of_lt_bias hexponent)
    (lt_infinity ?_) ?_
  · rw [hone]
    exact one_le_pow₀ one_le_two
  · have hceil : ⌈fmt.number (fmt.magnitude p)⌉ = 1 := by
      rw [Int.ceil_eq_iff]
      have hpos : 0 < fmt.number (fmt.magnitude p) := number_pos (Nat.pos_of_ne_zero hne)
      exact ⟨by push_cast; linarith, by push_cast; exact (number_lt_one hexponent).le⟩
    rw [hone, awayFromZero_of_nonneg (number_nonneg fmt _), hceil, Int.cast_one]

include hp hexponent in
/-- The ceiling of a negative one is minus zero. -/
theorem roundsTo_ceil_of_negative (hs : fmt.sign p = true) :
    fmt.RoundsTo Int.ceil p (fmt.pack true 0) := by
  have hzero := roundsTo_truncate_zero hp hexponent
  rw [hs] at hzero
  exact hzero.congr (truncate_of_nonpos (value_nonpos hs))

include hp hexponent in
/-- The ceiling of a positive one is one. -/
theorem roundsTo_ceil_of_positive (hs : fmt.sign p = false) (hne : fmt.magnitude p ≠ 0) :
    fmt.RoundsTo Int.ceil p (fmt.pack false (fmt.bias * 2 ^ fmt.fracBits)) := by
  have hone := roundsTo_awayFromZero_one hp hexponent hne
  rw [hs] at hone
  exact hone.congr (awayFromZero_of_nonneg (value_nonneg hs))

include hp hexponent in
/-- The floor of a positive one is zero. -/
theorem roundsTo_floor_of_positive (hs : fmt.sign p = false) :
    fmt.RoundsTo Int.floor p (fmt.pack false 0) := by
  have hzero := roundsTo_truncate_zero hp hexponent
  rw [hs] at hzero
  exact hzero.congr (truncate_of_nonneg (value_nonneg hs))

include hp hexponent in
/-- The floor of a negative one is minus one. -/
theorem roundsTo_floor_of_negative (hs : fmt.sign p = true) (hne : fmt.magnitude p ≠ 0) :
    fmt.RoundsTo Int.floor p (fmt.pack true (fmt.bias * 2 ^ fmt.fracBits)) := by
  have hone := roundsTo_awayFromZero_one hp hexponent hne
  rw [hs] at hone
  exact hone.congr (awayFromZero_of_nonpos (value_nonpos hs))

end BelowOne

end Format

end Ieee
