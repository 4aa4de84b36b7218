import Mathlib.Data.Int.ConditionallyCompleteOrder
import Mathlib.Data.Rat.Floor
import Mathlib.Order.WithBot
import Mathlib.Order.Monotone.Basic
import Mathlib.Tactic.Linarith
import Mathlib.Tactic.Positivity
import Mathlib.Tactic.Ring

/-!
# Binary floating-point formats

The binary interchange formats. A pattern is a natural number with three fields: the sign on top,
below it an exponent and a fraction.

**Magnitudes** (`magnitude`): the lower two fields together. They are ordered as the numbers they
stand for (`number_strictMono`): every number is a whole number of units, of the smallest positive
number of the format (`units`), and one magnitude further is one unit of its exponent further
(`units_succ`).

**Order** (`key`): a magnitude with its sign, as an integer. Numbers are compared by their keys
(`value_lt_value`), infinities included, and so are patterns as words (`key_le_key`), which is what
a library does that has the bits only.
-/

namespace Ieee

/-- A format, given by the widths of its fields. The exponent is wide enough for the numbers without
a fractional part to begin in the range. -/
structure Format where
  expBits : Nat
  fracBits : Nat
  fracBits_pos : 0 < fracBits
  fracBits_lt : fracBits + 1 < 2 ^ (expBits - 1)

def binary32 : Format := ⟨8, 23, by decide, by decide⟩
def binary64 : Format := ⟨11, 52, by decide, by decide⟩
def binary128 : Format := ⟨15, 112, by decide, by decide⟩

namespace Format

variable (fmt : Format)

/-! ## Fields -/

/-- The bits below the sign. -/
def magnitudeBits : Nat := fmt.expBits + fmt.fracBits

def width : Nat := fmt.magnitudeBits + 1

/-- The exponent of one. -/
def bias : Nat := 2 ^ (fmt.expBits - 1) - 1

def sign (p : Nat) : Bool := decide (2 ^ fmt.magnitudeBits ≤ p)

def magnitude (p : Nat) : Nat := p % 2 ^ fmt.magnitudeBits

def exponent (p : Nat) : Nat := fmt.magnitude p / 2 ^ fmt.fracBits

/-- The pattern of a sign and a magnitude. -/
def pack (s : Bool) (m : Nat) : Nat := s.toNat * 2 ^ fmt.magnitudeBits + m

/-- The magnitude of the infinities. -/
def infinity : Nat := (2 ^ fmt.expBits - 1) * 2 ^ fmt.fracBits

abbrev IsNaN (p : Nat) : Prop := fmt.infinity < fmt.magnitude p

abbrev IsInfinite (p : Nat) : Prop := fmt.magnitude p = fmt.infinity

abbrev IsFinite (p : Nat) : Prop := fmt.magnitude p < fmt.infinity

/-- The top bit of the fraction, which tells quiet NaNs from signalling ones. -/
abbrev IsQuiet (p : Nat) : Prop := p.testBit (fmt.fracBits - 1) = true

variable {fmt} {p p' m m' : Nat} {s : Bool}

/-- A pattern is its sign and its magnitude. -/
theorem pack_sign_magnitude (hp : p < 2 ^ fmt.width) :
    fmt.pack (fmt.sign p) (fmt.magnitude p) = p := by
  rw [width, Nat.pow_succ] at hp
  unfold pack sign magnitude
  by_cases hs : 2 ^ fmt.magnitudeBits ≤ p
  · have hmod : p % 2 ^ fmt.magnitudeBits = p - 2 ^ fmt.magnitudeBits := by
      rw [Nat.mod_eq_sub_mod hs, Nat.mod_eq_of_lt (by omega)]
    simp only [hs, decide_true, Bool.toNat_true, hmod]
    omega
  · simp only [hs, decide_false, Bool.toNat_false, Nat.mod_eq_of_lt (Nat.lt_of_not_le hs)]
    omega

/-- Without its magnitude a pattern is a zero of the same sign. -/
theorem pack_sign_zero (hp : p < 2 ^ fmt.width) :
    p / 2 ^ fmt.magnitudeBits * 2 ^ fmt.magnitudeBits = fmt.pack (fmt.sign p) 0 := by
  have hpack := pack_sign_magnitude hp
  have hdiv := Nat.div_add_mod' p (2 ^ fmt.magnitudeBits)
  unfold pack magnitude at *
  omega

@[simp] theorem sign_pack (hm : m < 2 ^ fmt.magnitudeBits) : fmt.sign (fmt.pack s m) = s := by
  unfold sign pack
  cases s
  · simpa using hm
  · simp

@[simp] theorem magnitude_pack (hm : m < 2 ^ fmt.magnitudeBits) :
    fmt.magnitude (fmt.pack s m) = m := by
  rw [magnitude, pack, Nat.add_comm, Nat.add_mul_mod_self_right, Nat.mod_eq_of_lt hm]

/-- What is packed is a pattern of the format. -/
theorem pack_lt (hm : m < 2 ^ fmt.magnitudeBits) : fmt.pack s m < 2 ^ fmt.width := by
  rw [width, Nat.pow_succ, pack]
  cases s <;> simp only [Bool.toNat_true, Bool.toNat_false] <;> omega

/-- A pattern is its sign and its magnitude. -/
theorem eq_of_sign_of_magnitude (hp : p < 2 ^ fmt.width) (hp' : p' < 2 ^ fmt.width)
    (hsign : fmt.sign p = fmt.sign p') (hmagnitude : fmt.magnitude p = fmt.magnitude p') :
    p = p' := by
  rw [← pack_sign_magnitude hp, ← pack_sign_magnitude hp', hsign, hmagnitude]

/-- There is room above the infinities, for the NaNs. -/
theorem infinity_lt (fmt : Format) : fmt.infinity < 2 ^ fmt.magnitudeBits := by
  rw [infinity, magnitudeBits, Nat.pow_add]
  exact Nat.mul_lt_mul_of_pos_right (Nat.sub_lt (Nat.two_pow_pos _) Nat.one_pos)
    (Nat.two_pow_pos _)

/-- The formats have more exponents than fraction bits. -/
theorem fracBits_lt_bias (fmt : Format) : fmt.fracBits < fmt.bias :=
  Nat.lt_sub_of_add_lt fmt.fracBits_lt

theorem bias_pos (fmt : Format) : 0 < fmt.bias :=
  Nat.lt_trans fmt.fracBits_pos (fracBits_lt_bias fmt)

/-- The largest exponent is twice the bias and one. -/
theorem two_pow_expBits (fmt : Format) : 2 ^ fmt.expBits = 2 * fmt.bias + 2 := by
  have hexp : fmt.expBits - 1 ≠ 0 := by
    intro hzero
    have hpos := bias_pos fmt
    simp [bias, hzero] at hpos
  have hpow : 2 ^ fmt.expBits = 2 ^ (fmt.expBits - 1) * 2 := by
    rw [← Nat.pow_succ]
    congr 1
    omega
  have hpos := Nat.two_pow_pos (fmt.expBits - 1)
  unfold bias
  omega

/-! ## Units -/

variable (fmt) in
/-- The place of the last bit of a magnitude, in units; the exponents 0 and 1 share theirs. -/
def step (m : Nat) : Nat := m / 2 ^ fmt.fracBits - 1

variable (fmt) in
/-- The fraction, with the hidden bit of a magnitude whose exponent is not 0. -/
def significand (m : Nat) : Nat := m - fmt.step m * 2 ^ fmt.fracBits

variable (fmt) in
/-- A magnitude in units. That of the infinities is the next power of two. -/
def units (m : Nat) : Nat := fmt.significand m * 2 ^ fmt.step m

theorem step_mul_le (fmt : Format) (m : Nat) : fmt.step m * 2 ^ fmt.fracBits ≤ m :=
  Nat.le_trans (Nat.mul_le_mul_right _ (Nat.sub_le _ _)) (Nat.div_mul_le_self _ _)

/-- A magnitude is its steps and a significand. -/
theorem step_mul_add_significand (fmt : Format) (m : Nat) :
    fmt.step m * 2 ^ fmt.fracBits + fmt.significand m = m :=
  Nat.add_sub_of_le (step_mul_le fmt m)

/-- A significand has one bit more than the fraction. -/
theorem significand_lt (fmt : Format) (m : Nat) :
    fmt.significand m < 2 * 2 ^ fmt.fracBits := by
  have hpos := Nat.two_pow_pos fmt.fracBits
  have hlt := Nat.lt_mul_div_succ m hpos
  have hle : m / 2 ^ fmt.fracBits + 1 ≤ fmt.step m + 2 := by
    unfold step
    omega
  have hmul := Nat.mul_le_mul_left (2 ^ fmt.fracBits) hle
  have hsum := step_mul_add_significand fmt m
  rw [Nat.mul_comm] at hsum
  simp only [Nat.mul_add] at hmul hlt
  omega

/-- After the first step it has the hidden bit. -/
theorem le_significand (h : 0 < fmt.step m) : 2 ^ fmt.fracBits ≤ fmt.significand m := by
  have hdiv := Nat.div_mul_le_self m (2 ^ fmt.fracBits)
  have hstep : m / 2 ^ fmt.fracBits = fmt.step m + 1 := by
    unfold step at h ⊢
    omega
  have hsum := step_mul_add_significand fmt m
  rw [hstep, Nat.add_mul] at hdiv
  omega

/-- A significand and a step give the magnitude; the carry into the exponent needs no care. -/
theorem units_add {k c : Nat} (hnormal : k = 0 ∨ 2 ^ fmt.fracBits ≤ c)
    (hle : c ≤ 2 * 2 ^ fmt.fracBits) : fmt.units (k * 2 ^ fmt.fracBits + c) = c * 2 ^ k := by
  have hpos := Nat.two_pow_pos fmt.fracBits
  have hdiv : (k * 2 ^ fmt.fracBits + c) / 2 ^ fmt.fracBits = k + c / 2 ^ fmt.fracBits := by
    rw [Nat.add_comm, Nat.add_mul_div_right _ _ hpos, Nat.add_comm]
  unfold units significand step
  rw [hdiv]
  rcases Nat.lt_or_ge c (2 * 2 ^ fmt.fracBits) with hlt | hge
  · have hstep : k + c / 2 ^ fmt.fracBits - 1 = k := by
      have hone : c / 2 ^ fmt.fracBits < 2 := Nat.div_lt_of_lt_mul (by omega)
      rcases hnormal with rfl | hnormal
      · omega
      · have hone' : 1 ≤ c / 2 ^ fmt.fracBits := Nat.div_pos hnormal hpos
        omega
    rw [hstep, Nat.add_sub_cancel_left]
  · obtain rfl : c = 2 * 2 ^ fmt.fracBits := by omega
    have hstep : k + 2 * 2 ^ fmt.fracBits / 2 ^ fmt.fracBits - 1 = k + 1 := by
      rw [Nat.mul_div_cancel _ hpos]
      rfl
    have hrest : k * 2 ^ fmt.fracBits + 2 * 2 ^ fmt.fracBits - (k + 1) * 2 ^ fmt.fracBits =
        2 ^ fmt.fracBits := by
      rw [← Nat.add_mul, ← Nat.sub_mul]
      rw [show k + 2 - (k + 1) = 1 by omega, Nat.one_mul]
    rw [hstep, hrest]
    ring

/-- The numbers below the first step are their magnitudes. -/
theorem units_of_le (h : m ≤ 2 * 2 ^ fmt.fracBits) : fmt.units m = m := by
  have hunits : fmt.units (0 * 2 ^ fmt.fracBits + m) = m * 2 ^ 0 := units_add (.inl rfl) h
  simpa using hunits

@[simp] theorem units_zero (fmt : Format) : fmt.units 0 = 0 := units_of_le (Nat.zero_le _)

/-- The next number is one unit of the step further. -/
theorem units_succ (fmt : Format) (m : Nat) : fmt.units (m + 1) = fmt.units m + 2 ^ fmt.step m := by
  have hnormal : fmt.step m = 0 ∨ 2 ^ fmt.fracBits ≤ fmt.significand m + 1 := by
    rcases Nat.eq_zero_or_pos (fmt.step m) with h | h
    · exact .inl h
    · exact .inr (Nat.le_succ_of_le (le_significand h))
  have hsucc := units_add hnormal (significand_lt fmt m)
  rw [← Nat.add_assoc, step_mul_add_significand, Nat.add_mul, Nat.one_mul] at hsucc
  exact hsucc

/-- Magnitudes are ordered as their units. -/
theorem units_strictMono (fmt : Format) : StrictMono fmt.units :=
  strictMono_nat_of_lt_succ fun m => by
    rw [units_succ]
    exact Nat.lt_add_of_pos_right (Nat.two_pow_pos _)

/-- From the start of a binade on, all numbers are multiples of its step. -/
theorem dvd_units {k : Nat} (h : k ≤ fmt.step m) : 2 ^ k ∣ fmt.units m :=
  Dvd.dvd.mul_left (Nat.pow_dvd_pow 2 h) _

/-- What fits the significand has a magnitude, whatever its last place. -/
theorem exists_units_eq {c : Nat} (k : Nat) (hle : c ≤ 2 * 2 ^ fmt.fracBits) :
    ∃ m, fmt.units m = c * 2 ^ k := by
  induction k generalizing c with
  | zero => exact ⟨c, by rw [units_of_le hle, Nat.pow_zero, Nat.mul_one]⟩
  | succ k ih =>
    rcases Nat.lt_or_ge c (2 ^ fmt.fracBits) with hlt | hge
    · obtain ⟨m, hm⟩ := ih (c := 2 * c) (by omega)
      exact ⟨m, by rw [hm, Nat.pow_succ]; ac_rfl⟩
    · exact ⟨_, units_add (.inr hge) hle⟩

/-! ## Numbers -/

variable (fmt) in
/-- The units in one. -/
def scale : Nat := 2 ^ (fmt.bias - 1 + fmt.fracBits)

variable (fmt) in
/-- The number of a magnitude. -/
def number (m : Nat) : ℚ := fmt.units m / fmt.scale

variable (fmt) in
/-- The number a finite pattern stands for. -/
def value (p : Nat) : ℚ :=
  if fmt.sign p then -fmt.number (fmt.magnitude p) else fmt.number (fmt.magnitude p)

variable (fmt) in
/-- The number of a pattern that is no NaN, with the infinities at the ends. -/
def extended (p : Nat) : WithBot (WithTop ℚ) :=
  if fmt.IsFinite p then ((fmt.value p : WithTop ℚ) : WithBot (WithTop ℚ))
  else if fmt.sign p then ⊥ else ((⊤ : WithTop ℚ) : WithBot (WithTop ℚ))

theorem scale_pos (fmt : Format) : (0 : ℚ) < fmt.scale :=
  Nat.cast_pos.2 (Nat.two_pow_pos _)

/-- Magnitudes are ordered as their numbers. -/
theorem number_strictMono (fmt : Format) : StrictMono fmt.number := fun _ _ h =>
  div_lt_div_of_pos_right (Nat.cast_lt.2 (units_strictMono fmt h)) (scale_pos fmt)

@[simp] theorem number_zero (fmt : Format) : fmt.number 0 = 0 := by
  rw [number, units_zero, Nat.cast_zero, zero_div]

theorem number_nonneg (fmt : Format) (m : Nat) : 0 ≤ fmt.number m := by
  unfold number
  positivity

theorem number_pos (hm : 0 < m) : 0 < fmt.number m := by
  rw [← number_zero fmt]
  exact number_strictMono fmt hm

theorem value_of_magnitude_eq_zero (h : fmt.magnitude p = 0) : fmt.value p = 0 := by
  simp [value, h]

/-- The magnitude is that of the number. -/
theorem abs_value (fmt : Format) (p : Nat) : |fmt.value p| = fmt.number (fmt.magnitude p) := by
  unfold value
  split
  · rw [abs_neg, abs_of_nonneg (number_nonneg fmt _)]
  · rw [abs_of_nonneg (number_nonneg fmt _)]

/-- The powers of two, from one on. -/
theorem number_binade (fmt : Format) (k : Nat) :
    fmt.number ((fmt.bias + k) * 2 ^ fmt.fracBits) = 2 ^ k := by
  have hbias := bias_pos fmt
  have hsplit : (fmt.bias + k) * 2 ^ fmt.fracBits =
      (fmt.bias - 1 + k) * 2 ^ fmt.fracBits + 2 ^ fmt.fracBits := by
    rw [← Nat.succ_mul]
    congr 1
    omega
  have hunits : fmt.units ((fmt.bias + k) * 2 ^ fmt.fracBits) = 2 ^ k * fmt.scale := by
    rw [hsplit, units_add (.inr (Nat.le_refl _)) (by omega), scale, ← Nat.pow_add, ← Nat.pow_add]
    congr 1
    omega
  rw [number, hunits, Nat.cast_mul, mul_div_assoc, div_self (scale_pos fmt).ne', mul_one,
    Nat.cast_pow, Nat.cast_ofNat]

/-! ## Order -/

variable (fmt) in
/-- A magnitude with its sign, which puts the patterns into the order of their numbers. -/
def key (p : Nat) : ℤ := if fmt.sign p then -(fmt.magnitude p : ℤ) else fmt.magnitude p

variable (fmt) in
/-- The number of a key. -/
def numberOfKey (k : ℤ) : ℚ :=
  if k < 0 then -fmt.number k.natAbs else fmt.number k.natAbs

theorem numberOfKey_key (fmt : Format) (p : Nat) : fmt.numberOfKey (fmt.key p) = fmt.value p := by
  unfold numberOfKey key value
  cases hs : fmt.sign p
  · simp only [Bool.false_eq_true, if_false, Int.natAbs_natCast, ite_eq_right_iff]
    omega
  · rcases Nat.eq_zero_or_pos (fmt.magnitude p) with hzero | hpos
    · simp [hzero]
    · have hneg : -(fmt.magnitude p : ℤ) < 0 := by omega
      simp only [if_true, if_pos hneg, Int.natAbs_neg, Int.natAbs_natCast]

/-- Keys are ordered as their numbers. -/
theorem numberOfKey_strictMono (fmt : Format) : StrictMono fmt.numberOfKey := by
  intro k k' h
  unfold numberOfKey
  split <;> split
  · exact neg_lt_neg (number_strictMono fmt (by omega))
  · next hneg hnonneg =>
    have hpos : 0 < fmt.number k.natAbs := number_pos (by omega)
    have hnonneg := number_nonneg fmt k'.natAbs
    linarith
  · omega
  · exact number_strictMono fmt (by omega)

/-- Numbers are compared by their keys. -/
theorem value_lt_value : fmt.value p < fmt.value p' ↔ fmt.key p < fmt.key p' := by
  rw [← numberOfKey_key, ← numberOfKey_key]
  exact (numberOfKey_strictMono fmt).lt_iff_lt

/-- The two zeros have one key, every other number one of its own. -/
theorem value_eq_value : fmt.value p = fmt.value p' ↔ fmt.key p = fmt.key p' := by
  rw [← numberOfKey_key, ← numberOfKey_key]
  exact (numberOfKey_strictMono fmt).injective.eq_iff

/-- Patterns with the same number differ in the sign of a zero only. -/
theorem eq_of_key_of_sign (hp : p < 2 ^ fmt.width) (hp' : p' < 2 ^ fmt.width)
    (hkey : fmt.key p = fmt.key p') (hsign : fmt.sign p = fmt.sign p') : p = p' := by
  refine eq_of_sign_of_magnitude hp hp' hsign ?_
  unfold key at hkey
  rw [hsign] at hkey
  split at hkey <;> omega

/-- The keys of finite numbers lie between those of the infinities. -/
theorem key_bounds (hp : fmt.IsFinite p) :
    -(fmt.infinity : ℤ) < fmt.key p ∧ fmt.key p < fmt.infinity := by
  unfold key
  split <;> omega

/-- The infinities are at the ends. -/
theorem key_of_infinite (hp : ¬fmt.IsNaN p) (hinfinite : ¬fmt.IsFinite p) :
    fmt.key p = if fmt.sign p then -(fmt.infinity : ℤ) else fmt.infinity := by
  unfold key
  split <;> omega

/-- Outside of the NaNs the order of the keys is that of the numbers. -/
theorem extended_lt_extended (hp : ¬fmt.IsNaN p) (hp' : ¬fmt.IsNaN p') :
    fmt.extended p < fmt.extended p' ↔ fmt.key p < fmt.key p' := by
  have hinfinity : (0 : ℤ) < fmt.infinity := by
    have hexp := two_pow_expBits fmt
    exact Int.natCast_pos.2 (Nat.mul_pos (by omega) (Nat.two_pow_pos _))
  unfold extended
  by_cases hfinite : fmt.IsFinite p <;> by_cases hfinite' : fmt.IsFinite p'
  · rw [if_pos hfinite, if_pos hfinite', WithBot.coe_lt_coe, WithTop.coe_lt_coe, value_lt_value]
  · have hbounds := key_bounds hfinite
    rw [if_pos hfinite, if_neg hfinite', key_of_infinite hp' hfinite']
    cases fmt.sign p'
    · simp only [Bool.false_eq_true, if_false, hbounds.2, iff_true]
      exact WithBot.coe_lt_coe.2 (WithTop.coe_lt_top _)
    · simp only [if_true, not_lt_bot, false_iff]
      omega
  · have hbounds := key_bounds hfinite'
    rw [if_neg hfinite, if_pos hfinite', key_of_infinite hp hfinite]
    cases fmt.sign p
    · simp only [Bool.false_eq_true, if_false, WithBot.coe_lt_coe, not_top_lt, false_iff]
      omega
    · simp [hbounds.1, WithBot.bot_lt_coe]
  · rw [if_neg hfinite, if_neg hfinite', key_of_infinite hp hfinite, key_of_infinite hp' hfinite']
    cases fmt.sign p <;> cases fmt.sign p' <;> simp
    omega

/-- Numbers and infinities are equal when their keys are. -/
theorem extended_eq_extended (hp : ¬fmt.IsNaN p) (hp' : ¬fmt.IsNaN p') :
    fmt.extended p = fmt.extended p' ↔ fmt.key p = fmt.key p' := by
  have hlt := extended_lt_extended hp hp'
  have hgt := extended_lt_extended hp' hp
  constructor
  · intro h
    rw [h] at hlt hgt
    have := mt hlt.2 (lt_irrefl _)
    have := mt hgt.2 (lt_irrefl _)
    omega
  · intro h
    have hnlt := mt hlt.1 (by omega)
    have hngt := mt hgt.1 (by omega)
    exact le_antisymm (not_lt.1 hngt) (not_lt.1 hnlt)

variable (fmt) in
/-- The comparisons of the format, in which NaNs are unordered. -/
def Equal (p p' : Nat) : Prop :=
  ¬fmt.IsNaN p ∧ ¬fmt.IsNaN p' ∧ fmt.extended p = fmt.extended p'

variable (fmt) in
def Less (p p' : Nat) : Prop := ¬fmt.IsNaN p ∧ ¬fmt.IsNaN p' ∧ fmt.extended p < fmt.extended p'

variable (fmt) in
def LessEqual (p p' : Nat) : Prop :=
  ¬fmt.IsNaN p ∧ ¬fmt.IsNaN p' ∧ fmt.extended p ≤ fmt.extended p'

/-- The comparison of the format, by keys. -/
theorem equal_iff :
    fmt.Equal p p' ↔ ¬fmt.IsNaN p ∧ ¬fmt.IsNaN p' ∧ fmt.key p = fmt.key p' :=
  and_congr_right fun hp => and_congr_right fun hp' => extended_eq_extended hp hp'

theorem less_iff :
    fmt.Less p p' ↔ ¬fmt.IsNaN p ∧ ¬fmt.IsNaN p' ∧ fmt.key p < fmt.key p' :=
  and_congr_right fun hp => and_congr_right fun hp' => extended_lt_extended hp hp'

theorem lessEqual_iff :
    fmt.LessEqual p p' ↔ ¬fmt.IsNaN p ∧ ¬fmt.IsNaN p' ∧ fmt.key p ≤ fmt.key p' :=
  and_congr_right fun hp => and_congr_right fun hp' => by
    rw [← not_lt, ← not_lt, extended_lt_extended hp' hp]

/-! ## Comparing patterns -/

variable (fmt) in
/-- The order of the patterns themselves, with the negative zero below the positive one. -/
def rank (p : Nat) : ℤ := if fmt.sign p then -(fmt.magnitude p : ℤ) - 1 else fmt.magnitude p

/-- A pattern is determined by its rank. -/
theorem eq_of_rank (hp : p < 2 ^ fmt.width) (hp' : p' < 2 ^ fmt.width)
    (h : fmt.rank p = fmt.rank p') : p = p' := by
  unfold rank at h
  cases hs : fmt.sign p <;> cases hs' : fmt.sign p'
  all_goals simp only [hs, hs', Bool.false_eq_true, if_false, if_true] at h
  · exact eq_of_sign_of_magnitude hp hp' (hs.trans hs'.symm) (by omega)
  · omega
  · omega
  · exact eq_of_sign_of_magnitude hp hp' (hs.trans hs'.symm) (by omega)

/-- The rank refines the order of the numbers. -/
theorem key_le_of_rank_le (h : fmt.rank p ≤ fmt.rank p') : fmt.key p ≤ fmt.key p' := by
  unfold rank at h
  unfold key
  split at h <;> split at h <;> simp_all
  omega

/-- Among patterns of one sign the numbers decide, among others the signs. -/
theorem rank_lt_rank : fmt.rank p < fmt.rank p' ↔
    if fmt.sign p = fmt.sign p' then fmt.key p < fmt.key p' else fmt.sign p = true := by
  unfold rank key
  cases fmt.sign p <;> cases fmt.sign p' <;> simp
  all_goals omega

/-- Patterns of one sign are ordered as words. -/
theorem magnitude_lt_magnitude (hp : p < 2 ^ fmt.width) (hp' : p' < 2 ^ fmt.width)
    (hsign : fmt.sign p = fmt.sign p') : fmt.magnitude p < fmt.magnitude p' ↔ p < p' := by
  conv_rhs => rw [← pack_sign_magnitude hp, ← pack_sign_magnitude hp', hsign]
  unfold pack
  omega

/-- Patterns are less as numbers: by the signs, or as integers, in reverse where both are
negative. -/
theorem key_lt_key (hp : p < 2 ^ fmt.width) (hp' : p' < 2 ^ fmt.width) :
    fmt.key p < fmt.key p' ↔
      if fmt.sign p = fmt.sign p' then p ≠ p' ∧ (fmt.sign p ^^ decide (p < p')) = true
      else fmt.sign p = true ∧ ¬(fmt.magnitude p = 0 ∧ fmt.magnitude p' = 0) := by
  unfold key
  by_cases hsign : fmt.sign p = fmt.sign p'
  · have hlt := magnitude_lt_magnitude hp hp' hsign
    have hgt := magnitude_lt_magnitude hp' hp hsign.symm
    rw [if_pos hsign]
    cases hs : fmt.sign p'
    · simp only [hsign, hs, Bool.false_eq_true, if_false, Bool.false_xor, decide_eq_true_eq]
      omega
    · simp only [hsign, hs, if_true, Bool.true_xor, Bool.not_eq_true', decide_eq_false_iff_not]
      omega
  · rw [if_neg hsign]
    cases hs : fmt.sign p <;> cases hs' : fmt.sign p'
    · exact absurd (hs.trans hs'.symm) hsign
    · simp only [Bool.false_eq_true, if_false, if_true, false_and, iff_false]
      omega
    · simp only [Bool.false_eq_true, if_false, if_true, true_and]
      omega
    · exact absurd (hs.trans hs'.symm) hsign

/-- Equality of numbers, by the words. -/
theorem key_eq_key (hp : p < 2 ^ fmt.width) (hp' : p' < 2 ^ fmt.width) :
    fmt.key p = fmt.key p' ↔ p = p' ∨ fmt.magnitude p = 0 ∧ fmt.magnitude p' = 0 := by
  constructor
  · intro h
    by_cases hsign : fmt.sign p = fmt.sign p'
    · exact .inl (eq_of_key_of_sign hp hp' h hsign)
    · unfold key at h
      cases hs : fmt.sign p <;> cases hs' : fmt.sign p' <;> simp_all
  · rintro (rfl | ⟨h, h'⟩)
    · rfl
    · simp [key, h, h']

/-- The order of numbers, by the words, as softfloat compares them. -/
theorem key_le_key (hp : p < 2 ^ fmt.width) (hp' : p' < 2 ^ fmt.width) :
    fmt.key p ≤ fmt.key p' ↔
      if fmt.sign p = fmt.sign p' then p = p' ∨ (fmt.sign p ^^ decide (p < p')) = true
      else fmt.sign p = true ∨ fmt.magnitude p = 0 ∧ fmt.magnitude p' = 0 := by
  rw [Int.le_iff_lt_or_eq, key_lt_key hp hp', key_eq_key hp hp']
  by_cases hsign : fmt.sign p = fmt.sign p'
  · simp only [hsign, if_true]
    by_cases heq : p = p'
    · simp [heq]
    · have hlt := magnitude_lt_magnitude hp hp' hsign
      have hgt := magnitude_lt_magnitude hp' hp hsign.symm
      have hne : ¬(fmt.magnitude p = 0 ∧ fmt.magnitude p' = 0) := by omega
      simp [heq, hne]
  · have hne : p ≠ p' := by
      rintro rfl
      exact hsign rfl
    simp only [hsign, if_false, hne, false_or]
    tauto

end Format

end Ieee
