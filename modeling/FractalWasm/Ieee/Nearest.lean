import FractalWasm.Ieee.Rounding

/-!
# Rounding to a format

The rounding to nearest of the formats, with ties to even magnitudes, of exact numbers and of the
results of addition and subtraction.

**Nearest magnitudes** (`Nearest`): there is one for every number that is not negative
(`Nearest.unique`, `nearest_nearestUnits`), and within one exponent it is the nearest integer number
of units (`nearest_of_nearestInteger`).

**Arithmetic** (`Arithmetic`): sums and differences of finite operands, rounded. The format's own
rounding is computable (`sum`, `difference`).

**Integers** (`Arithmetic.toInteger`): adding a power of two so large that its unit is one, and
subtracting it again, rounds to an integer, whatever the addition does with other operands.
-/

namespace Ieee

namespace Format

variable {fmt : Format} {x : ℚ} {p m m' k c : Nat} {s : Bool}

/-- `m` is next to `x`, and even if another one is as near. The magnitude of infinity counts as the
next power of two, so that what is too large is rounded to it. -/
structure Nearest (fmt : Format) (x : ℚ) (m : Nat) : Prop where
  le : m ≤ fmt.infinity
  nearest : ∀ m' ≤ fmt.infinity, |x - fmt.number m| ≤ |x - fmt.number m'|
  even : ∀ m' ≤ fmt.infinity, m' ≠ m → |x - fmt.number m'| = |x - fmt.number m| → m % 2 = 0

/-- A number is rounded to one magnitude. -/
theorem Nearest.unique (h : fmt.Nearest x m) (h' : fmt.Nearest x m') : m = m' := by
  by_contra hne
  wlog hlt : m < m' generalizing m m'
  · exact this h' h (Ne.symm hne) (by omega)
  have hsame : |x - fmt.number m| = |x - fmt.number m'| :=
    le_antisymm (h.nearest m' h'.le) (h'.nearest m h.le)
  have heven := h.even m' h'.le (Ne.symm hne) hsame.symm
  have heven' := h'.even m h.le hne hsame
  -- Two even magnitudes have an odd one between them, which is nearer than both.
  have hbetween : m + 1 < m' := by omega
  have hlow := number_strictMono fmt (Nat.lt_succ_self m)
  have hhigh := number_strictMono fmt hbetween
  have hmiddle := h.nearest (m + 1) (Nat.le_trans hbetween.le h'.le)
  rcases abs_eq_abs.1 hsame with heq | heq
  · exact absurd (sub_right_injective heq) (number_strictMono fmt hlt).ne
  · have hx : x = (fmt.number m + fmt.number m') / 2 := by linarith
    rw [abs_of_nonneg (by linarith : 0 ≤ x - fmt.number m)] at hmiddle
    rcases abs_cases (x - fmt.number (m + 1)) with ⟨habs, _⟩ | ⟨habs, _⟩
    · rw [habs] at hmiddle
      simp only [Nat.succ_eq_add_one] at hlow
      linarith
    · rw [habs] at hmiddle
      linarith

/-- A number of the format is rounded to itself. -/
theorem nearest_number (h : m ≤ fmt.infinity) : fmt.Nearest (fmt.number m) m where
  le := h
  nearest m' _ := by
    rw [sub_self, abs_zero]
    exact abs_nonneg _
  even m' _ hne heq := by
    rw [sub_self, abs_zero, abs_eq_zero, sub_eq_zero] at heq
    exact absurd ((number_strictMono fmt).injective heq).symm hne

/-- The numbers of one exponent are evenly spaced. -/
theorem number_add (hnormal : k = 0 ∨ 2 ^ fmt.fracBits ≤ c) (hle : c ≤ 2 * 2 ^ fmt.fracBits) :
    fmt.number (k * 2 ^ fmt.fracBits + c) = c * (2 ^ k / fmt.scale) := by
  rw [number, units_add hnormal hle, Nat.cast_mul, Nat.cast_pow, Nat.cast_ofNat, mul_div_assoc]

/-- What lies below a binade. -/
theorem number_lt_of_step_lt (h : fmt.step m < k) :
    fmt.number m < 2 ^ fmt.fracBits * (2 ^ k / fmt.scale) := by
  have hstart : fmt.number (k * 2 ^ fmt.fracBits + 2 ^ fmt.fracBits) =
      2 ^ fmt.fracBits * (2 ^ k / fmt.scale) := by
    rw [number_add (.inr (Nat.le_refl _)) (by omega), Nat.cast_pow, Nat.cast_ofNat]
  rw [← hstart]
  refine number_strictMono fmt ?_
  have hdiv := Nat.lt_mul_div_succ m (Nat.two_pow_pos fmt.fracBits)
  have hstep : m / 2 ^ fmt.fracBits + 1 ≤ k + 1 := by
    unfold step at h
    omega
  have hmul := Nat.mul_le_mul_left (2 ^ fmt.fracBits) hstep
  rw [Nat.mul_add _ k, Nat.mul_one, Nat.mul_comm _ k] at hmul
  omega

/-- From the start of a binade on there are only multiples of its step. -/
theorem number_eq_of_le_step (h : k ≤ fmt.step m) :
    ∃ j : ℕ, fmt.number m = j * (2 ^ k / fmt.scale) := by
  obtain ⟨j, hj⟩ := dvd_units h
  refine ⟨j, ?_⟩
  rw [number, hj]
  push_cast
  ring

theorem ulp_pos (fmt : Format) (k : Nat) : (0 : ℚ) < 2 ^ k / fmt.scale :=
  div_pos (by positivity) (scale_pos fmt)

/-- Distances between multiples of a step. -/
theorem abs_mul_sub (fmt : Format) (k : Nat) (y : ℚ) (j : Nat) :
    |y * (2 ^ k / fmt.scale) - j * (2 ^ k / fmt.scale)| =
      |y - (j : ℤ)| * (2 ^ k / fmt.scale) := by
  rw [← sub_mul, abs_mul, abs_of_pos (ulp_pos fmt k), Int.cast_natCast]

/-- What lies below a binade is farther from what lies in it than the multiple next to that. -/
theorem abs_mul_lt_of_step_lt {y : ℚ} (hc : NearestInteger y c) (hy : 2 ^ fmt.fracBits ≤ y)
    (h : fmt.step m < k) :
    |y - (c : ℤ)| * (2 ^ k / fmt.scale) < |y * (2 ^ k / fmt.scale) - fmt.number m| := by
  have hulp := ulp_pos fmt k
  have hlt := number_lt_of_step_lt h
  have hnearer := hc.abs_le_abs (2 ^ fmt.fracBits)
  rw [Int.cast_pow, Int.cast_ofNat, abs_of_nonneg (sub_nonneg.2 hy)] at hnearer
  calc |y - (c : ℤ)| * (2 ^ k / fmt.scale)
    _ ≤ (y - 2 ^ fmt.fracBits) * (2 ^ k / fmt.scale) :=
      mul_le_mul_of_nonneg_right hnearer hulp.le
    _ < y * (2 ^ k / fmt.scale) - fmt.number m := by
      rw [sub_mul]
      linarith
    _ ≤ |y * (2 ^ k / fmt.scale) - fmt.number m| := le_abs_self _

/-- Below the end of a binade rounding is that of integers, in multiples of the step. -/
theorem nearest_mul {y : ℚ} (hlow : k = 0 ∨ 2 ^ fmt.fracBits ≤ y)
    (hhigh : y ≤ 2 * 2 ^ fmt.fracBits) (hc : NearestInteger y c)
    (hle : k * 2 ^ fmt.fracBits + c ≤ fmt.infinity) :
    fmt.Nearest (y * (2 ^ k / fmt.scale)) (k * 2 ^ fmt.fracBits + c) := by
  have hulp := ulp_pos fmt k
  have hcle : c ≤ 2 * 2 ^ fmt.fracBits := hc.le_natCast (by exact_mod_cast hhigh)
  have hcnormal : k = 0 ∨ 2 ^ fmt.fracBits ≤ c :=
    hlow.imp_right fun h => hc.natCast_le (by exact_mod_cast h)
  have hnumber := number_add hcnormal hcle
  have hdistance : |y * (2 ^ k / fmt.scale) - fmt.number (k * 2 ^ fmt.fracBits + c)| =
      |y - (c : ℤ)| * (2 ^ k / fmt.scale) := by
    rw [hnumber, abs_mul_sub]
  refine ⟨hle, fun m' _ => ?_, fun m' _ hne heq => ?_⟩
  · rw [hdistance]
    rcases Nat.lt_or_ge (fmt.step m') k with hstep | hstep
    · exact (abs_mul_lt_of_step_lt hc (hlow.resolve_left (by omega)) hstep).le
    · obtain ⟨j, hj⟩ := number_eq_of_le_step hstep
      rw [hj, abs_mul_sub]
      exact mul_le_mul_of_nonneg_right (hc.abs_le_abs j) hulp.le
  · rw [hdistance] at heq
    rcases Nat.lt_or_ge (fmt.step m') k with hstep | hstep
    · exact absurd heq (abs_mul_lt_of_step_lt hc (hlow.resolve_left (by omega)) hstep).ne'
    · obtain ⟨j, hj⟩ := number_eq_of_le_step hstep
      rw [hj, abs_mul_sub] at heq
      have hjc : (j : ℤ) ≠ c := by
        intro hjc
        rw [Int.natCast_inj.1 hjc, ← hnumber] at hj
        exact hne ((number_strictMono fmt).injective hj)
      have hsame := mul_right_cancel₀ hulp.ne' heq
      have hhalf := hc.half_le hjc
      have hle := hc.1
      have heven := hc.2 (by linarith)
      -- The magnitude is as even as the multiple.
      obtain ⟨d, hd⟩ : 2 ∣ 2 ^ fmt.fracBits := dvd_pow_self 2 fmt.fracBits_pos.ne'
      rw [hd, Nat.mul_left_comm, Nat.mul_add_mod]
      omega

/-- Within one exponent, rounding to the format is rounding to an integer number of units. -/
theorem nearest_of_nearestInteger (hlow : k = 0 ∨ 2 ^ fmt.fracBits * (2 ^ k / fmt.scale) ≤ x)
    (hhigh : x ≤ 2 * 2 ^ fmt.fracBits * (2 ^ k / fmt.scale))
    (hc : NearestInteger (x / (2 ^ k / fmt.scale)) c)
    (hle : k * 2 ^ fmt.fracBits + c ≤ fmt.infinity) :
    fmt.Nearest x (k * 2 ^ fmt.fracBits + c) := by
  have hulp := ulp_pos fmt k
  obtain ⟨y, rfl⟩ : ∃ y, x = y * (2 ^ k / fmt.scale) :=
    ⟨x / (2 ^ k / fmt.scale), (div_mul_cancel₀ x hulp.ne').symm⟩
  rw [mul_div_cancel_right₀ _ hulp.ne'] at hc
  exact nearest_mul (hlow.imp_right fun h => le_of_mul_le_mul_right h hulp)
    (le_of_mul_le_mul_right hhigh hulp) hc hle

/-- The next exponent follows on without a gap, up to infinity. -/
theorem add_le_infinity (hk : k < 2 * fmt.bias) (hc : c ≤ 2 * 2 ^ fmt.fracBits) :
    k * 2 ^ fmt.fracBits + c ≤ fmt.infinity := by
  have hle : (k + 2) * 2 ^ fmt.fracBits ≤ fmt.infinity := by
    rw [infinity_eq]
    exact Nat.mul_le_mul_right _ (by omega)
  rw [Nat.add_mul] at hle
  omega

/-- Below the largest power of two a natural number is rounded in multiples of the last place. -/
theorem nearest_natCast {n e q : Nat} (hlow : 2 ^ e ≤ n) (hhigh : n < 2 ^ (e + 1))
    (he : e ≤ fmt.bias) (hq : NearestInteger ((n * 2 ^ fmt.fracBits : Nat) / (2 ^ e : Nat)) q) :
    fmt.Nearest n ((fmt.bias - 1 + e) * 2 ^ fmt.fracBits + q) := by
  have hbias := bias_pos fmt
  have hulp : (2 : ℚ) ^ (fmt.bias - 1 + e) / fmt.scale = 2 ^ e / 2 ^ fmt.fracBits := by
    rw [scale, Nat.cast_pow, Nat.cast_ofNat, pow_add, pow_add]
    field_simp
  have hfrac : (0 : ℚ) < 2 ^ fmt.fracBits := by positivity
  have hpow : (0 : ℚ) < 2 ^ e := by positivity
  have hquotient : (n : ℚ) / (2 ^ e / 2 ^ fmt.fracBits) =
      (n * 2 ^ fmt.fracBits : Nat) / (2 ^ e : Nat) := by
    push_cast
    field_simp
  have hqle : q ≤ 2 * 2 ^ fmt.fracBits := by
    refine hq.le_natCast ?_
    rw [div_le_iff₀ (by positivity)]
    have hle : n * 2 ^ fmt.fracBits ≤ 2 * 2 ^ fmt.fracBits * 2 ^ e := by
      rw [Nat.mul_right_comm, ← Nat.pow_succ']
      exact Nat.mul_le_mul_right _ hhigh.le
    exact_mod_cast hle
  refine nearest_of_nearestInteger (.inr ?_) ?_ ?_ ?_
  · rw [hulp, mul_div_cancel₀ _ hfrac.ne']
    exact_mod_cast hlow
  · rw [hulp, mul_assoc, mul_div_cancel₀ _ hfrac.ne', ← pow_succ']
    exact_mod_cast hhigh.le
  · rw [hulp, hquotient]
    exact hq
  · exact add_le_infinity (by omega) hqle

/-- A power of two times a small number. -/
theorem number_natCast {e q : Nat} (hlow : 2 ^ fmt.fracBits ≤ q) (hhigh : q ≤ 2 * 2 ^ fmt.fracBits) :
    fmt.number ((fmt.bias - 1 + e) * 2 ^ fmt.fracBits + q) = q * (2 ^ e / 2 ^ fmt.fracBits) := by
  rw [number_add (.inr hlow) hhigh, scale, Nat.cast_pow, Nat.cast_ofNat, pow_add, pow_add]
  field_simp

/-- Rounding does not pass a number of the format. -/
theorem Nearest.number_le (h : fmt.Nearest x m) (hm : m' ≤ fmt.infinity)
    (hx : x ≤ fmt.number m') : fmt.number m ≤ fmt.number m' := by
  by_contra hlt
  have hnearest := h.nearest m' hm
  rw [abs_of_nonpos (by linarith), abs_of_nonpos (by linarith)] at hnearest
  linarith

/-- In either direction. -/
theorem Nearest.le_number (h : fmt.Nearest x m) (hm : m' ≤ fmt.infinity)
    (hx : fmt.number m' ≤ x) : fmt.number m' ≤ fmt.number m := by
  by_contra hlt
  have hnearest := h.nearest m' hm
  rw [abs_of_nonneg (by linarith), abs_of_nonneg (by linarith)] at hnearest
  linarith

/-- The numbers next to one up to a power of two and to one greater by that power differ. -/
theorem Nearest.ne_of_add_le {n : ℚ} {e : Nat} (h : fmt.Nearest n m) (h' : fmt.Nearest x m')
    (he : e < fmt.bias) (hn : n ≤ 2 * 2 ^ e) (hx : n + 2 * 2 ^ e ≤ x) (hnonneg : 0 ≤ n) :
    m ≠ m' := by
  have hbias := bias_pos fmt
  obtain ⟨d, hd⟩ : ∃ d, fmt.fracBits = d + 1 :=
    ⟨fmt.fracBits - 1, by have := fmt.fracBits_pos; omega⟩
  have hfrac : 2 ^ fmt.fracBits = 2 * 2 ^ d := by rw [hd, Nat.pow_succ, Nat.mul_comm]
  have hinfinity : ∀ i ≤ e + 1, ∀ q ≤ 2 * 2 ^ fmt.fracBits,
      (fmt.bias - 1 + i) * 2 ^ fmt.fracBits + q ≤ fmt.infinity :=
    fun i hi q hq => add_le_infinity (by omega) hq
  have hpos : (0 : ℚ) < 2 ^ d := by positivity
  have hlow : fmt.number ((fmt.bias - 1 + e) * 2 ^ fmt.fracBits + 2 ^ fmt.fracBits) = 2 ^ e := by
    rw [number_natCast (Nat.le_refl _) (by omega)]
    push_cast
    field_simp
  have hmiddle : fmt.number ((fmt.bias - 1 + e) * 2 ^ fmt.fracBits + 2 * 2 ^ fmt.fracBits) =
      2 * 2 ^ e := by
    rw [number_natCast (by omega) (Nat.le_refl _)]
    push_cast
    field_simp
  have hhigh : fmt.number ((fmt.bias - 1 + (e + 1)) * 2 ^ fmt.fracBits + 3 * 2 ^ d) = 3 * 2 ^ e := by
    rw [number_natCast (by omega) (by omega), hd]
    push_cast
    rw [pow_succ, pow_succ]
    field_simp
  rintro rfl
  rcases le_total n (2 ^ e) with hle | hge
  · have hmle := h.number_le (hinfinity e (by omega) _ (by omega)) (hle.trans_eq hlow.symm)
    have hmge := h'.le_number (hinfinity e (by omega) _ (Nat.le_refl _))
      (hmiddle.trans_le (by linarith))
    rw [hlow] at hmle
    rw [hmiddle] at hmge
    have hpower : (0 : ℚ) < 2 ^ e := by positivity
    linarith
  · have hmle := h.number_le (hinfinity e (by omega) _ (Nat.le_refl _)) (hn.trans_eq hmiddle.symm)
    have hmge := h'.le_number (hinfinity (e + 1) (Nat.le_refl _) _ (by omega))
      (hhigh.trans_le (by linarith))
    rw [hmiddle] at hmle
    rw [hhigh] at hmge
    have hpower : (0 : ℚ) < 2 ^ e := by positivity
    linarith

/-! ## Exact results -/

/-- Finite numbers of the format. -/
def Representable (fmt : Format) (x : ℚ) : Prop := ∃ m < fmt.infinity, fmt.number m = |x|

/-- Few enough multiples of a power of two, within the range. -/
theorem representable_of_mul {x : ℚ} (hc : c ≤ 2 * 2 ^ fmt.fracBits)
    (hx : |x| = c * (2 ^ k / fmt.scale)) (hrange : |x| ≤ 2 ^ fmt.fracBits) :
    fmt.Representable x := by
  obtain ⟨m, hm⟩ := exists_units_eq k hc
  have hnumber : fmt.number m = |x| := by
    rw [hx, number, hm, Nat.cast_mul, Nat.cast_pow, Nat.cast_ofNat, mul_div_assoc]
  exact ⟨m, lt_infinity (hnumber.trans_le hrange), hnumber⟩

/-- `p` is the exact result `x` rounded; `s` is the sign of an exact zero. -/
structure Rounded (fmt : Format) (x : ℚ) (s : Bool) (p : Nat) : Prop where
  nearest : fmt.Nearest |x| (fmt.magnitude p)
  positive : 0 < x → fmt.sign p = false
  negative : x < 0 → fmt.sign p = true
  zero : x = 0 → fmt.sign p = s

/-- A result that is a number of the format is that number, with its sign. -/
theorem Rounded.value_eq_of_number (h : fmt.Rounded x s p) {y : ℚ}
    (hy : fmt.number (fmt.magnitude p) = |y|) (hsign : 0 ≤ x ∧ 0 ≤ y ∨ x ≤ 0 ∧ y ≤ 0)
    (hzero : x = 0 → y = 0) : fmt.value p = y := by
  unfold value
  rw [hy]
  rcases lt_trichotomy x 0 with hx | hx | hx
  · rw [h.negative hx, if_pos rfl, abs_of_nonpos (by rcases hsign with h | h <;> linarith), neg_neg]
  · rw [hzero hx]
    simp
  · rw [h.positive hx, if_neg Bool.false_ne_true,
      abs_of_nonneg (by rcases hsign with h | h <;> linarith)]

/-- What the format has is not changed. -/
theorem Rounded.exact (h : fmt.Rounded x s p) (hx : fmt.Representable x) :
    fmt.IsFinite p ∧ fmt.value p = x := by
  obtain ⟨m, hm, hnumber⟩ := hx
  have hnearest := h.nearest
  rw [← hnumber] at hnearest
  have heq := hnearest.unique (nearest_number hm.le)
  refine ⟨heq.trans_lt hm, h.value_eq_of_number (by rw [heq, hnumber]) ?_ id⟩
  rcases le_total 0 x with hx | hx
  · exact .inl ⟨hx, hx⟩
  · exact .inr ⟨hx, hx⟩

/-! ## Rounding by a large power of two -/

/-- Between `2 ^ fracBits` and its double the numbers are the integers. -/
theorem Nearest.number_eq_of_large {x : ℚ} (h : fmt.Nearest (2 ^ fmt.fracBits + x) m)
    (hx : 0 ≤ x) (hle : x ≤ 2 ^ fmt.fracBits) :
    fmt.number m = 2 ^ fmt.fracBits + roundEven x := by
  obtain ⟨n, hn⟩ := Int.eq_ofNat_of_zero_le (le_roundEven (n := 0) (by exact_mod_cast hx))
  have hone : (2 : ℚ) ^ (fmt.bias - 1 + fmt.fracBits) / fmt.scale = 1 := by
    rw [scale, Nat.cast_pow, Nat.cast_ofNat]
    exact div_self (by positivity)
  have hround := nearestInteger_roundEven x
  rw [hn] at hround
  have hn' : n ≤ 2 ^ fmt.fracBits := hround.le_natCast (by exact_mod_cast hle)
  have heven : (2 : ℤ) ^ fmt.fracBits % 2 = 0 :=
    Int.emod_eq_zero_of_dvd (dvd_pow_self 2 fmt.fracBits_pos.ne')
  have hinteger := hround.add_left heven
  have hnearest : fmt.Nearest (2 ^ fmt.fracBits + x)
      ((fmt.bias - 1 + fmt.fracBits) * 2 ^ fmt.fracBits + (2 ^ fmt.fracBits + n)) := by
    refine nearest_of_nearestInteger (.inr ?_) ?_ ?_ ?_
    · rw [hone]
      linarith
    · rw [hone]
      linarith
    · rw [hone, div_one]
      push_cast at hinteger ⊢
      exact hinteger
    · have hbias := fracBits_lt_bias fmt
      exact add_le_infinity (by omega) (by omega)
  rw [h.unique hnearest, number_add (.inr (Nat.le_add_right _ _)) (by omega), hone, mul_one, hn]
  push_cast
  rfl

/-! ## Addition and subtraction -/

/-- Sums and differences of finite numbers are rounded. An exact zero is negative only where both
numbers that were added are. -/
structure Arithmetic (fmt : Format) {α : Type} (bits : α → Nat) (add sub : α → α → α) : Prop where
  add : ∀ a b, fmt.IsFinite (bits a) → fmt.IsFinite (bits b) →
    fmt.Rounded (fmt.value (bits a) + fmt.value (bits b)) (fmt.sign (bits a) && fmt.sign (bits b))
      (bits (add a b))
  sub : ∀ a b, fmt.IsFinite (bits a) → fmt.IsFinite (bits b) →
    fmt.Rounded (fmt.value (bits a) - fmt.value (bits b)) (fmt.sign (bits a) && !fmt.sign (bits b))
      (bits (sub a b))

theorem scale_eq (hk : k ≤ fmt.bias - 1 + fmt.fracBits) :
    (2 : ℚ) ^ (fmt.bias - 1 + fmt.fracBits - k) * (2 ^ k / fmt.scale) = 1 := by
  rw [← mul_div_assoc, ← pow_add, Nat.sub_add_cancel hk, scale, Nat.cast_pow, Nat.cast_ofNat]
  exact div_self (by positivity)

/-- Integers of so many bits are numbers of the format. -/
theorem representable_intCast {n : ℤ} (h : |(n : ℚ)| ≤ 2 ^ fmt.fracBits) :
    fmt.Representable (n : ℚ) := by
  have hone := scale_eq (le_refl (fmt.bias - 1 + fmt.fracBits))
  rw [Nat.sub_self, pow_zero, one_mul] at hone
  have habs : |(n : ℚ)| = n.natAbs := by rw [Nat.cast_natAbs, Int.cast_abs]
  have hle : n.natAbs ≤ 2 ^ fmt.fracBits := by
    rw [habs] at h
    exact_mod_cast h
  have hmul : |(n : ℚ)| = n.natAbs * (2 ^ (fmt.bias - 1 + fmt.fracBits) / fmt.scale) := by
    rw [hone, mul_one, habs]
  exact representable_of_mul (by omega) hmul h

/-- A number from one on differs from an integer next to it by a multiple of its last place. -/
theorem representable_sub (hbias : fmt.bias ≤ fmt.exponent p)
    (hfraction : fmt.exponent p < fmt.bias + fmt.fracBits) {n : ℤ}
    (hn : |n - fmt.value p| ≤ 1) : fmt.Representable (n - fmt.value p) := by
  have hpos := bias_pos fmt
  have hstep := exponent_eq fmt p (by omega)
  have hk : fmt.step (fmt.magnitude p) ≤ fmt.bias - 1 + fmt.fracBits := by omega
  have hone := scale_eq hk
  have hulp : (0 : ℚ) < 2 ^ fmt.step (fmt.magnitude p) / fmt.scale :=
    div_pos (by positivity) (scale_pos fmt)
  obtain ⟨j, hj⟩ := number_eq_of_le_step (le_refl (fmt.step (fmt.magnitude p)))
  set k := fmt.step (fmt.magnitude p)
  set ulp : ℚ := 2 ^ k / fmt.scale
  -- The difference in units of the last place.
  obtain ⟨d, hd⟩ : ∃ d : ℤ, n - fmt.value p = d * ulp := by
    have hinteger : (n : ℚ) = n * 2 ^ (fmt.bias - 1 + fmt.fracBits - k) * ulp := by
      rw [mul_assoc, hone, mul_one]
    unfold value
    split
    · refine ⟨n * 2 ^ (fmt.bias - 1 + fmt.fracBits - k) + j, ?_⟩
      rw [hinteger, hj]
      push_cast
      ring
    · refine ⟨n * 2 ^ (fmt.bias - 1 + fmt.fracBits - k) - j, ?_⟩
      rw [hinteger, hj]
      push_cast
      ring
  have habs : |n - fmt.value p| = d.natAbs * ulp := by
    rw [hd, abs_mul, abs_of_pos hulp, Nat.cast_natAbs, Int.cast_abs]
  have hle : d.natAbs ≤ 2 ^ fmt.fracBits := by
    rw [habs, ← hone] at hn
    have hcast : (d.natAbs : ℚ) ≤ 2 ^ (fmt.bias - 1 + fmt.fracBits - k) :=
      le_of_mul_le_mul_right hn hulp
    have hnat : d.natAbs ≤ 2 ^ (fmt.bias - 1 + fmt.fracBits - k) := by exact_mod_cast hcast
    exact Nat.le_trans hnat (Nat.pow_le_pow_right (by omega) (by omega))
  exact representable_of_mul (by omega) habs (le_trans hn (one_le_pow₀ one_le_two))

/-! ## An addition -/

variable (fmt) in
/-- The magnitude next to a number of units. -/
def nearestUnits (n : Nat) : Nat :=
  if fmt.units fmt.infinity ≤ n then fmt.infinity
  else (n.log2 - fmt.fracBits) * 2 ^ fmt.fracBits +
    (roundEven (n / 2 ^ (n.log2 - fmt.fracBits))).toNat

variable (fmt) in
/-- A finite pattern in units. -/
def signedUnits (p : Nat) : ℤ :=
  if fmt.sign p then -(fmt.units (fmt.magnitude p) : ℤ) else fmt.units (fmt.magnitude p)

variable (fmt) in
/-- The pattern next to a number of units; `s` is the sign of zero. -/
def roundUnits (z : ℤ) (s : Bool) : Nat :=
  fmt.pack (if z = 0 then s else decide (z < 0)) (fmt.nearestUnits z.natAbs)

variable (fmt) in
/-- The sum of finite patterns. -/
def sum (p p' : Nat) : Nat :=
  fmt.roundUnits (fmt.signedUnits p + fmt.signedUnits p') (fmt.sign p && fmt.sign p')

variable (fmt) in
/-- The difference of finite patterns. -/
def difference (p p' : Nat) : Nat :=
  fmt.roundUnits (fmt.signedUnits p - fmt.signedUnits p') (fmt.sign p && !fmt.sign p')

/-- From the place of infinity on, a number is rounded to it. -/
theorem nearest_infinity (h : fmt.number fmt.infinity ≤ x) : fmt.Nearest x fmt.infinity := by
  have hle : ∀ m ≤ fmt.infinity, fmt.number m ≤ fmt.number fmt.infinity := fun m hm =>
    (number_strictMono fmt).monotone hm
  have habs : ∀ m ≤ fmt.infinity, |x - fmt.number m| = x - fmt.number m := fun m hm =>
    abs_of_nonneg (by have := hle m hm; linarith)
  refine ⟨le_refl _, fun m hm => ?_, fun m hm hne heq => ?_⟩
  · rw [habs m hm, habs _ (le_refl _)]
    exact sub_le_sub_left (hle m hm) x
  · rw [habs m hm, habs _ (le_refl _)] at heq
    exact absurd ((number_strictMono fmt).injective (sub_right_injective heq)) hne

theorem units_infinity (fmt : Format) :
    fmt.units fmt.infinity = 2 ^ (fmt.fracBits + 2 * fmt.bias) := by
  have hsplit : fmt.infinity = 2 * fmt.bias * 2 ^ fmt.fracBits + 2 ^ fmt.fracBits := by
    rw [infinity_eq]
    ring
  rw [hsplit, units_add (.inr (Nat.le_refl _)) (by omega), Nat.pow_add]

/-- The exponent of a finite number is in range. -/
theorem log2_lt_of_lt_infinity {n : Nat} (h : n < fmt.units fmt.infinity) :
    n.log2 < fmt.fracBits + 2 * fmt.bias := by
  have hbias := bias_pos fmt
  rw [units_infinity] at h
  rcases Nat.eq_zero_or_pos n with rfl | hpos
  · rw [Nat.log2_zero]
    omega
  · exact (Nat.log2_lt (by omega)).2 h

/-- The computed rounding of a number of units is the nearest one. -/
theorem nearest_nearestUnits (fmt : Format) (n : Nat) :
    fmt.Nearest (n / fmt.scale) (fmt.nearestUnits n) := by
  have hscale := scale_pos fmt
  unfold nearestUnits
  split
  · next hlarge =>
    exact nearest_infinity (div_le_div_of_nonneg_right (Nat.cast_le.2 hlarge) hscale.le)
  · next hsmall =>
    set k := n.log2 - fmt.fracBits with hk
    have hquotient : (n : ℚ) / fmt.scale / (2 ^ k / fmt.scale) = n / 2 ^ k := by
      field_simp
    obtain ⟨q, hq⟩ := Int.eq_ofNat_of_zero_le (le_roundEven (x := n / 2 ^ k) (n := 0) (by
      rw [Int.cast_zero]
      positivity))
    have hhigh : (n : ℚ) ≤ 2 * 2 ^ fmt.fracBits * 2 ^ k := by
      have hlog := Nat.lt_log2_self (n := n)
      have hle : n ≤ 2 * 2 ^ fmt.fracBits * 2 ^ k := by
        rw [← Nat.pow_succ', ← Nat.pow_add]
        exact Nat.le_trans hlog.le (Nat.pow_le_pow_right (by omega) (by omega))
      exact_mod_cast hle
    have hround := nearestInteger_roundEven (n / 2 ^ k)
    rw [hq] at hround
    have hqle : q ≤ 2 * 2 ^ fmt.fracBits := by
      refine hround.le_natCast ?_
      rw [div_le_iff₀ (by positivity)]
      exact_mod_cast hhigh
    rw [hq, Int.toNat_natCast]
    refine nearest_of_nearestInteger ?_ ?_ ?_ ?_
    · rcases Nat.eq_zero_or_pos k with hzero | hpos
      · exact .inl hzero
      · have hle : 2 ^ fmt.fracBits * 2 ^ k ≤ n := by
          rw [← Nat.pow_add, show fmt.fracBits + k = n.log2 by omega]
          exact Nat.log2_self_le (by rintro rfl; simp at hk; omega)
        refine .inr ?_
        rw [← mul_div_assoc]
        exact div_le_div_of_nonneg_right (by exact_mod_cast hle) hscale.le
    · rw [← mul_div_assoc]
      exact div_le_div_of_nonneg_right hhigh hscale.le
    · rw [hquotient]
      exact hround
    · have hlog := log2_lt_of_lt_infinity (Nat.lt_of_not_le hsmall)
      have hbias := bias_pos fmt
      exact add_le_infinity (by omega) hqle

theorem value_eq_signedUnits (fmt : Format) (p : Nat) :
    fmt.value p = fmt.signedUnits p / fmt.scale := by
  unfold value signedUnits number
  split
  · push_cast
    ring
  · push_cast
    rfl

/-- So a rounding exists for every sum. -/
theorem rounded_roundUnits (fmt : Format) (z : ℤ) (s : Bool) :
    fmt.Rounded (z / fmt.scale) s (fmt.roundUnits z s) := by
  have hscale := scale_pos fmt
  have hnearest := nearest_nearestUnits fmt z.natAbs
  have hlt := Nat.lt_of_le_of_lt hnearest.le (infinity_lt fmt)
  have habs : |(z : ℚ) / fmt.scale| = z.natAbs / fmt.scale := by
    rw [abs_div, abs_of_pos hscale, Nat.cast_natAbs, Int.cast_abs]
  unfold roundUnits
  constructor
  · rw [magnitude_pack hlt, habs]
    exact hnearest
  · intro hpos
    have hz : 0 < z := by exact_mod_cast (div_pos_iff_of_pos_right hscale).1 hpos
    rw [sign_pack hlt, if_neg hz.ne', decide_eq_false (by omega)]
  · intro hneg
    have hz : z < 0 := by
      by_contra hge
      have hnonneg : (0 : ℚ) ≤ z := by exact_mod_cast not_lt.1 hge
      exact absurd hneg (not_lt.2 (div_nonneg hnonneg hscale.le))
    rw [sign_pack hlt, if_neg hz.ne, decide_eq_true hz]
  · intro hzero
    have hz : z = 0 := by exact_mod_cast (div_eq_zero_iff.1 hzero).resolve_right hscale.ne'
    rw [sign_pack hlt, if_pos hz]

theorem roundUnits_lt (fmt : Format) (z : ℤ) (s : Bool) : fmt.roundUnits z s < 2 ^ fmt.width :=
  pack_lt (Nat.lt_of_le_of_lt (nearest_nearestUnits fmt z.natAbs).le (infinity_lt fmt))

/-- There is such an addition, and its subtraction, on any words for the patterns. -/
theorem arithmetic_sum (fmt : Format) {α : Type} {bits : α → Nat} {word : Nat → α}
    (hword : ∀ p < 2 ^ fmt.width, bits (word p) = p) :
    fmt.Arithmetic bits (fun a b => word (fmt.sum (bits a) (bits b)))
      (fun a b => word (fmt.difference (bits a) (bits b))) where
  add a b _ _ := by
    have hrounded := rounded_roundUnits fmt (fmt.signedUnits (bits a) + fmt.signedUnits (bits b))
      (fmt.sign (bits a) && fmt.sign (bits b))
    rw [Int.cast_add, add_div, ← value_eq_signedUnits, ← value_eq_signedUnits] at hrounded
    rw [sum, hword _ (roundUnits_lt fmt _ _)]
    exact hrounded
  sub a b _ _ := by
    have hrounded := rounded_roundUnits fmt (fmt.signedUnits (bits a) - fmt.signedUnits (bits b))
      (fmt.sign (bits a) && !fmt.sign (bits b))
    rw [Int.cast_sub, sub_div, ← value_eq_signedUnits, ← value_eq_signedUnits] at hrounded
    rw [difference, hword _ (roundUnits_lt fmt _ _)]
    exact hrounded

/-! ## Rounding by a large power of two -/

section Magic

variable {α : Type} {bits : α → Nat} {add sub : α → α → α} {a c : α}
  (h : fmt.Arithmetic bits add sub)
  (hc : bits c = fmt.pack false ((fmt.bias + fmt.fracBits) * 2 ^ fmt.fracBits))
  (hfraction : fmt.exponent (bits a) < fmt.bias + fmt.fracBits)

/-- A number with a fractional part is finite. -/
theorem isFinite_of_fraction {p : Nat} (hfraction : fmt.exponent p < fmt.bias + fmt.fracBits) :
    fmt.IsFinite p :=
  lt_infinity (number_lt_two_pow hfraction).le

/-- And smaller than the large constant. -/
theorem abs_value_lt {p : Nat} (hfraction : fmt.exponent p < fmt.bias + fmt.fracBits) :
    |fmt.value p| < 2 ^ fmt.fracBits := by
  rw [abs_value]
  exact number_lt_two_pow hfraction

include hc in
/-- The constant is the first power of two whose unit is one. -/
theorem value_large : fmt.IsFinite (bits c) ∧ fmt.value (bits c) = 2 ^ fmt.fracBits := by
  have hlt : (fmt.bias + fmt.fracBits) * 2 ^ fmt.fracBits < fmt.infinity :=
    lt_infinity (number_binade fmt _).le
  rw [hc]
  refine ⟨isFinite_pack hlt, ?_⟩
  rw [value_pack hlt, number_binade, if_neg Bool.false_ne_true]

/-- The rounded number is no larger than the constant. -/
theorem abs_roundEven_le {x : ℚ} (hx : |x| ≤ 2 ^ fmt.fracBits) :
    |(roundEven x : ℚ)| ≤ 2 ^ fmt.fracBits := by
  obtain ⟨hlow, hhigh⟩ := abs_le.1 hx
  have hle := roundEven_le (n := 2 ^ fmt.fracBits) (by exact_mod_cast hhigh)
  have hge := le_roundEven (n := -2 ^ fmt.fracBits) (by exact_mod_cast hlow)
  rw [abs_le]
  constructor
  · exact_mod_cast hge
  · exact_mod_cast hle

include h hc hfraction in
/-- For operands that are not negative the constant is added first. -/
theorem Arithmetic.toInteger_of_nonneg (hs : fmt.sign (bits a) = false) :
    fmt.IsFinite (bits (sub (add a c) c)) ∧
      fmt.value (bits (sub (add a c) c)) = roundEven (fmt.value (bits a)) := by
  have habs := abs_value_lt hfraction
  obtain ⟨hcfinite, hcvalue⟩ := value_large hc
  obtain ⟨hlow, hhigh⟩ := abs_lt.1 habs
  obtain ⟨hrlow, hrhigh⟩ := abs_le.1 (abs_roundEven_le habs.le)
  have hpow : (0 : ℚ) < 2 ^ fmt.fracBits := by positivity
  have hnonneg := value_nonneg hs
  have hadd := h.add a c (isFinite_of_fraction hfraction) hcfinite
  rw [hcvalue, add_comm] at hadd
  have hnearest := hadd.nearest
  rw [abs_of_nonneg (by linarith)] at hnearest
  have hnumber := hnearest.number_eq_of_large hnonneg hhigh.le
  have hround : (0 : ℚ) ≤ roundEven (fmt.value (bits a)) := by
    have hle := le_roundEven (n := 0) (by exact_mod_cast hnonneg)
    exact_mod_cast hle
  have hvalue : fmt.value (bits (add a c)) = 2 ^ fmt.fracBits + roundEven (fmt.value (bits a)) :=
    hadd.value_eq_of_number (by rw [hnumber, abs_of_nonneg (by linarith)])
      (.inl ⟨by linarith, by linarith⟩) (fun hzero => by linarith)
  have hsub := h.sub (add a c) c (lt_infinity_of_le (by rw [hnumber]; linarith)) hcfinite
  rw [hvalue, hcvalue, add_sub_cancel_left] at hsub
  exact hsub.exact (representable_intCast (abs_roundEven_le habs.le))

include h hc hfraction in
/-- For the others it is subtracted first. -/
theorem Arithmetic.toInteger_of_nonpos (hs : fmt.sign (bits a) = true) :
    fmt.IsFinite (bits (add (sub a c) c)) ∧
      fmt.value (bits (add (sub a c) c)) = roundEven (fmt.value (bits a)) := by
  have habs := abs_value_lt hfraction
  obtain ⟨hcfinite, hcvalue⟩ := value_large hc
  obtain ⟨hlow, hhigh⟩ := abs_lt.1 habs
  obtain ⟨hrlow, hrhigh⟩ := abs_le.1 (abs_roundEven_le habs.le)
  have hpow : (0 : ℚ) < 2 ^ fmt.fracBits := by positivity
  have hnonpos := value_nonpos hs
  have hsub := h.sub a c (isFinite_of_fraction hfraction) hcfinite
  rw [hcvalue] at hsub
  have hnearest := hsub.nearest
  have hdistance : |fmt.value (bits a) - 2 ^ fmt.fracBits| =
      2 ^ fmt.fracBits + -fmt.value (bits a) := by
    rw [abs_of_nonpos (by linarith)]
    ring
  rw [hdistance] at hnearest
  have hnumber := hnearest.number_eq_of_large (by linarith) (by linarith)
  rw [roundEven_neg, Int.cast_neg] at hnumber
  have hround : (roundEven (fmt.value (bits a)) : ℚ) ≤ 0 := by
    have hle := roundEven_le (n := 0) (by exact_mod_cast hnonpos)
    exact_mod_cast hle
  have hvalue : fmt.value (bits (sub a c)) =
      -(2 ^ fmt.fracBits) + roundEven (fmt.value (bits a)) :=
    hsub.value_eq_of_number (by rw [hnumber, abs_of_nonpos (by linarith)]; ring)
      (.inr ⟨by linarith, by linarith⟩) (fun hzero => by linarith)
  have hadd := h.add (sub a c) c (lt_infinity_of_le (by rw [hnumber]; linarith)) hcfinite
  rw [hvalue, hcvalue, neg_add_cancel_comm] at hadd
  exact hadd.exact (representable_intCast (abs_roundEven_le habs.le))

include h hc hfraction in
/-- **Rounding by a large power of two.** Taken away from zero by it and back, a number comes to the
nearest integer. -/
theorem Arithmetic.toInteger :
    let y := if fmt.sign (bits a) then add (sub a c) c else sub (add a c) c
    fmt.IsFinite (bits y) ∧ fmt.value (bits y) = roundEven (fmt.value (bits a)) := by
  cases hs : fmt.sign (bits a)
  · exact h.toInteger_of_nonneg hc hfraction hs
  · exact h.toInteger_of_nonpos hc hfraction hs

end Magic

end Format

end Ieee
