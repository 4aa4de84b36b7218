import FractalWasm.Ieee.Nearest

/-!
# Guard bits

Significands with bits to spare. What a rounding depends on is the place of a number among the
multiples of half a unit in the last place, so that of the bits below only one is kept, into which
the others are jammed.

**Places** (`SamePlace`): two numbers are on the same side of, or at, the same multiples of half a
unit.

**Jamming** (`jam`): the shifted significand with a last bit that says whether anything was cut off.
It is at the same place as the number (`samePlace_jam`), also in a sum or a difference with a number
that was not shifted (`sub_jam`).

**Rounding** (`nearest_of_place`, `nearest_infinity_of_place`): numbers at the same place are
rounded to the same magnitude, beyond the finite ones to infinity.
-/

namespace Ieee

/-! ## Places -/

/-- Between the same two multiples of `h`, or on the same one. -/
def SamePlace (h x y : ℚ) : Prop :=
  ∀ n : ℤ, (n * h < x ↔ n * h < y) ∧ (x < n * h ↔ y < n * h)

namespace SamePlace

variable {h x y z c : ℚ} {n : ℤ}

theorem refl (h x : ℚ) : SamePlace h x x := fun _ => ⟨Iff.rfl, Iff.rfl⟩

theorem of_eq (heq : x = y) : SamePlace h x y := heq ▸ refl h x

theorem trans (hxy : SamePlace h x y) (hyz : SamePlace h y z) : SamePlace h x z := fun n =>
  ⟨(hxy n).1.trans (hyz n).1, (hxy n).2.trans (hyz n).2⟩

theorem le_iff (hxy : SamePlace h x y) (n : ℤ) : n * h ≤ x ↔ n * h ≤ y := by
  rw [← not_lt, ← not_lt, (hxy n).2]

theorem le_iff' (hxy : SamePlace h x y) (n : ℤ) : x ≤ n * h ↔ y ≤ n * h := by
  rw [← not_lt, ← not_lt, (hxy n).1]

/-- Between two neighbours all places are the same. -/
theorem of_between (hx : n * h < x) (hx' : x < (n + 1) * h) (hy : n * h < y)
    (hy' : y < (n + 1) * h) (hh : 0 < h) : SamePlace h x y := by
  have hbelow : ∀ {m : ℤ}, m ≤ n → (m : ℚ) * h ≤ n * h := fun hm =>
    mul_le_mul_of_nonneg_right (by exact_mod_cast hm) hh.le
  have habove : ∀ {m : ℤ}, n + 1 ≤ m → ((n : ℚ) + 1) * h ≤ m * h := fun hm =>
    mul_le_mul_of_nonneg_right (by exact_mod_cast hm) hh.le
  intro m
  rcases lt_or_ge n m with hm | hm
  · have hle := habove (Int.add_one_le_of_lt hm)
    exact ⟨iff_of_false (by linarith) (by linarith), iff_of_true (by linarith) (by linarith)⟩
  · have hle := hbelow hm
    exact ⟨iff_of_true (by linarith) (by linarith), iff_of_false (by linarith) (by linarith)⟩

/-- Among fewer multiples. -/
theorem coarsen (hxy : SamePlace h x y) (k : ℤ) : SamePlace (k * h) x y := fun n => by
  have hplace := hxy (n * k)
  rwa [Int.cast_mul, mul_assoc] at hplace

/-- A fraction and a number between the same two neighbours. -/
theorem div_of_between {a b z n h : Nat} (hlow : n * h * b < a) (hhigh : a < (n + 1) * h * b)
    (hz : n * h < z) (hz' : z < (n + 1) * h) : SamePlace h (a / b) z := by
  have hb : (0 : ℚ) < b := by
    rcases Nat.eq_zero_or_pos b with rfl | hpos
    · omega
    · exact_mod_cast hpos
  have hh : (0 : ℚ) < h := by
    rcases Nat.eq_zero_or_pos h with rfl | hpos
    · omega
    · exact_mod_cast hpos
  refine of_between (n := n) ?_ ?_ ?_ ?_ hh
  · rw [lt_div_iff₀ hb]
    exact_mod_cast hlow
  · rw [div_lt_iff₀ hb]
    exact_mod_cast hhigh
  · exact_mod_cast hz
  · exact_mod_cast hz'

theorem mul_right (hxy : SamePlace h x y) (hc : 0 < c) : SamePlace (h * c) (x * c) (y * c) :=
  fun n => by
    rw [← mul_assoc, mul_lt_mul_iff_of_pos_right hc, mul_lt_mul_iff_of_pos_right hc,
      mul_lt_mul_iff_of_pos_right hc, mul_lt_mul_iff_of_pos_right hc]
    exact hxy n

theorem add_left (hxy : SamePlace h x y) (n : ℤ) : SamePlace h (n * h + x) (n * h + y) :=
  fun m => by
    have hplace := hxy (m - n)
    rw [Int.cast_sub, sub_mul, sub_lt_iff_lt_add', sub_lt_iff_lt_add', lt_sub_iff_add_lt',
      lt_sub_iff_add_lt'] at hplace
    exact hplace

theorem neg (hxy : SamePlace h x y) : SamePlace h (-x) (-y) := fun n => by
  have hplace := hxy (-n)
  rw [Int.cast_neg, neg_mul] at hplace
  rw [lt_neg, lt_neg (b := y), neg_lt, neg_lt (a := y)]
  exact ⟨hplace.2, hplace.1⟩

theorem sub_left (hxy : SamePlace h x y) (n : ℤ) : SamePlace h (n * h - x) (n * h - y) := by
  simpa only [sub_eq_add_neg] using hxy.neg.add_left n

/-- Shifted left, both are in the same place among fewer multiples. -/
theorem shift {i sig : Nat} (hxy : SamePlace (2 ^ i) x sig) (s : Nat) :
    SamePlace (2 ^ (i + s)) (x * 2 ^ s) (sig * 2 ^ s : Nat) := by
  have hpow : (0 : ℚ) < 2 ^ s := by positivity
  have hscaled := hxy.mul_right hpow
  rw [← pow_add] at hscaled
  push_cast
  exact hscaled

end SamePlace

/-- The nearest integer by comparisons with multiples of a half. -/
theorem nearestInteger_div_iff {h x : ℚ} (hh : 0 < h) (c : ℤ) :
    NearestInteger (x / (2 * h)) c ↔
      ¬x < (2 * c - 1 : ℤ) * h ∧ ¬(2 * c + 1 : ℤ) * h < x ∧
        (c % 2 ≠ 0 → (2 * c - 1 : ℤ) * h < x ∧ x < (2 * c + 1 : ℤ) * h) := by
  obtain ⟨y, rfl⟩ : ∃ y, x = y * (2 * h) :=
    ⟨x / (2 * h), (div_mul_cancel₀ x (by positivity)).symm⟩
  have hlow : ∀ z : ℚ, (2 * (c : ℚ) - 1) * h < z * (2 * h) ↔ -1 < 2 * (z - c) := fun z => by
    rw [show z * (2 * h) = 2 * z * h by ring, mul_lt_mul_iff_of_pos_right hh]
    constructor <;> intro _ <;> linarith
  have hhigh : ∀ z : ℚ, z * (2 * h) < (2 * (c : ℚ) + 1) * h ↔ 2 * (z - c) < 1 := fun z => by
    rw [show z * (2 * h) = 2 * z * h by ring, mul_lt_mul_iff_of_pos_right hh]
    constructor <;> intro _ <;> linarith
  have hlow' : ∀ z : ℚ, z * (2 * h) < (2 * (c : ℚ) - 1) * h ↔ 2 * (z - c) < -1 := fun z => by
    rw [show z * (2 * h) = 2 * z * h by ring, mul_lt_mul_iff_of_pos_right hh]
    constructor <;> intro _ <;> linarith
  have hhigh' : ∀ z : ℚ, (2 * (c : ℚ) + 1) * h < z * (2 * h) ↔ 1 < 2 * (z - c) := fun z => by
    rw [show z * (2 * h) = 2 * z * h by ring, mul_lt_mul_iff_of_pos_right hh]
    constructor <;> intro _ <;> linarith
  rw [mul_div_cancel_right₀ _ (by positivity)]
  push_cast
  rw [hlow, hhigh, hlow', hhigh', not_lt, not_lt, NearestInteger, ← and_assoc]
  have habs : 2 * |y - c| = |2 * (y - c)| := by
    rw [abs_mul, abs_two]
  rw [habs, abs_le]
  refine and_congr_right fun hle => ?_
  constructor
  · intro heven hodd
    have hne : |2 * (y - c)| ≠ 1 := fun heq => hodd (heven heq)
    rw [ne_eq, abs_eq (by norm_num), not_or] at hne
    exact ⟨lt_of_le_of_ne hle.1 (Ne.symm hne.2), lt_of_le_of_ne hle.2 hne.1⟩
  · intro hodd heq
    by_contra hne
    have hlt := abs_lt.2 (hodd hne)
    exact absurd heq hlt.ne

/-- The place among the multiples of a half is all that rounding depends on. -/
theorem SamePlace.nearestInteger_iff {h x y : ℚ} (hxy : SamePlace h x y) (hh : 0 < h) (c : ℤ) :
    NearestInteger (x / (2 * h)) c ↔ NearestInteger (y / (2 * h)) c := by
  rw [nearestInteger_div_iff hh, nearestInteger_div_iff hh, (hxy _).1, (hxy _).2, (hxy _).1,
    (hxy _).2]

theorem mul_pow_mul_zpow (y : ℚ) (s : Nat) (e : ℤ) : y * 2 ^ s * 2 ^ (e - s) = y * 2 ^ e := by
  rw [mul_assoc, ← zpow_natCast, ← zpow_add₀ two_ne_zero]
  congr 2
  ring

/-- A number in the place of a full one is full. -/
theorem full_of_place {f g z : Nat} {y : ℚ} (hplace : SamePlace (2 ^ (g - 1)) y z) (hg : 0 < g)
    (hlow : 2 ^ (f + g) ≤ y) (hhigh : y < 2 ^ (f + g + 1)) :
    2 ^ (f + g) ≤ z ∧ z < 2 ^ (f + g + 1) := by
  have hlowest : (2 : ℚ) ^ (f + g) = ((2 ^ (f + 1) : ℤ) : ℚ) * 2 ^ (g - 1) := by
    rw [Int.cast_pow, Int.cast_ofNat, ← pow_add]
    congr 1
    omega
  have hhighest : (2 : ℚ) ^ (f + g + 1) = ((2 ^ (f + 2) : ℤ) : ℚ) * 2 ^ (g - 1) := by
    rw [Int.cast_pow, Int.cast_ofNat, ← pow_add]
    congr 1
    omega
  rw [hlowest, hplace.le_iff, ← hlowest] at hlow
  rw [hhighest, (hplace _).2, ← hhighest] at hhigh
  exact ⟨by exact_mod_cast hlow, by exact_mod_cast hhigh⟩

/-! ## Jamming -/

/-- `a` without its last `d` bits; the last one left is set if any of these was. -/
def jam (a d : Nat) : Nat := a / 2 ^ d ||| if a % 2 ^ d = 0 then 0 else 1

theorem or_one_eq (q : Nat) : q ||| 1 = 2 * (q / 2) + 1 := by
  have hdiv : (q ||| 1) / 2 = q / 2 := by simp [Nat.or_div_two]
  have hmod : (q ||| 1) % 2 = 1 := by simp [Nat.or_mod_two_eq_one]
  omega

theorem samePlace_jam (a d : Nat) : SamePlace 2 (a / 2 ^ d) (jam a d) := by
  have hpow : (0 : ℚ) < 2 ^ d := by positivity
  have hdiv := Nat.div_add_mod a (2 ^ d)
  have hlt := Nat.mod_lt a (Nat.two_pow_pos d)
  unfold jam
  split
  · next hrest =>
    refine .of_eq ?_
    rw [Nat.or_zero, div_eq_iff hpow.ne']
    have hexact : a = a / 2 ^ d * 2 ^ d := by
      rw [hrest] at hdiv
      linarith
    exact_mod_cast hexact
  · next hrest =>
    set q := a / 2 ^ d with hq
    have hbelow : (q : ℚ) < a / 2 ^ d := by
      rw [lt_div_iff₀ hpow]
      have hnat : q * 2 ^ d < a := by
        rw [Nat.mul_comm]
        omega
      exact_mod_cast hnat
    have habove : (a : ℚ) / 2 ^ d < q + 1 := by
      rw [div_lt_iff₀ hpow]
      have hnat : a < (q + 1) * 2 ^ d := by
        rw [Nat.add_mul, Nat.one_mul, Nat.mul_comm]
        omega
      exact_mod_cast hnat
    obtain ⟨p, hp⟩ : ∃ p, p = q / 2 := ⟨_, rfl⟩
    have hlow : (2 : ℚ) * p ≤ q := by
      have hnat : 2 * p ≤ q := by omega
      exact_mod_cast hnat
    have hhigh : (q : ℚ) + 1 ≤ 2 * p + 2 := by
      have hnat : q + 1 ≤ 2 * p + 2 := by omega
      exact_mod_cast hnat
    rw [or_one_eq, ← hp]
    refine .of_between (n := p) ?_ ?_ ?_ ?_ (by norm_num)
    all_goals push_cast
    all_goals linarith

theorem jam_le {a d b : Nat} (h : a ≤ 2 * b * 2 ^ d) : jam a d ≤ 2 * b := by
  have hdiv : a / 2 ^ d ≤ 2 * b := Nat.div_le_of_le_mul (by rwa [Nat.mul_comm])
  unfold jam
  split
  · rwa [Nat.or_zero]
  · next hrest =>
    rw [or_one_eq]
    have hne : a / 2 ^ d ≠ 2 * b := by
      intro heq
      have hmod := Nat.div_add_mod a (2 ^ d)
      rw [heq, Nat.mul_comm] at hmod
      omega
    omega

theorem jam_of_dvd {a d : Nat} (h : 2 ^ d ∣ a) : jam a d = a / 2 ^ d := by
  rw [jam, if_pos (Nat.mod_eq_zero_of_dvd h), Nat.or_zero]

/-- A shifted number `y` is added to `x`. -/
theorem add_jam {x y d n : Nat} (hx : 2 ∣ x) (hhigh : x < 2 ^ (n + 1)) (hy : y < 2 ^ (n + 1))
    (hn : 0 < n) (hd : 0 < d) :
    SamePlace 2 (x + y / 2 ^ d) (x + jam y d : Nat) ∧ x + jam y d < 2 ^ (n + 2) := by
  obtain ⟨e, rfl⟩ : ∃ e, n = e + 1 := ⟨n - 1, by omega⟩
  have hsmall : jam y d ≤ 2 * 2 ^ e := by
    refine jam_le (Nat.le_trans hy.le ?_)
    rw [← Nat.pow_succ', ← Nat.pow_add]
    exact Nat.pow_le_pow_right (by omega) (by omega)
  refine ⟨?_, ?_⟩
  · obtain ⟨m, rfl⟩ := hx
    have hplace := (samePlace_jam y d).add_left m
    push_cast
    rwa [mul_comm, Int.cast_natCast] at hplace
  · rw [Nat.pow_succ, Nat.pow_succ] at hhigh
    rw [Nat.pow_succ, Nat.pow_succ, Nat.pow_succ]
    have hpos := Nat.two_pow_pos e
    omega

/-- A shifted number `y` is taken from `x`. Either the shift was exact, or it was so long that no more
than one digit is cancelled. -/
theorem sub_jam {x y d n g : Nat} (hx : 2 ∣ x) (hlow : 2 ^ n ≤ x) (hy : y < 2 ^ (n + 1))
    (hn : 2 ≤ n) (hg : 1 < g) (hdvd : 2 ^ g ∣ y) (hd : 0 < d) :
    jam y d < x ∧ ((x : ℚ) - y / 2 ^ d = (x - jam y d : Nat) ∨
      SamePlace 2 (x - y / 2 ^ d) (x - jam y d : Nat) ∧ 2 ^ n ≤ (x - jam y d) * 2) := by
  obtain ⟨e, rfl⟩ : ∃ e, n = e + 2 := ⟨n - 2, by omega⟩
  rcases Nat.lt_or_ge g d with hlong | hshort
  · have hsmall : jam y d ≤ 2 * 2 ^ e := by
      refine jam_le (Nat.le_trans hy.le ?_)
      rw [← Nat.pow_succ', ← Nat.pow_add]
      exact Nat.pow_le_pow_right (by omega) (by omega)
    have hpos := Nat.two_pow_pos e
    rw [Nat.pow_succ, Nat.pow_succ] at hlow
    refine ⟨by omega, .inr ⟨?_, by rw [Nat.pow_succ, Nat.pow_succ]; omega⟩⟩
    obtain ⟨m, rfl⟩ := hx
    have hplace := (samePlace_jam y d).sub_left m
    rw [Nat.cast_sub (by omega)]
    push_cast
    rwa [mul_comm, Int.cast_natCast] at hplace
  · have hdvd' := Nat.dvd_trans (Nat.pow_dvd_pow 2 hshort) hdvd
    have hexact := jam_of_dvd hdvd'
    have hlt : jam y d < 2 ^ (e + 2) := by
      rw [hexact, Nat.div_lt_iff_lt_mul (Nat.two_pow_pos d), ← Nat.pow_add]
      exact Nat.lt_of_lt_of_le hy (Nat.pow_le_pow_right (by omega) (by omega))
    refine ⟨by omega, .inl ?_⟩
    have hquotient : (y : ℚ) / 2 ^ d = jam y d := by
      rw [div_eq_iff (by positivity), hexact]
      exact_mod_cast (Nat.div_mul_cancel hdvd').symm
    rw [Nat.cast_sub (by omega), hquotient]

/-! ## Rounding to a format -/

namespace Format

variable {fmt : Format} {u v : ℚ} {k c : Nat}

/-- A number of units in the place of another is rounded as that one is. -/
theorem nearest_of_place (hplace : SamePlace (2 ^ k / 2) u v)
    (hlow : k = 0 ∨ 2 ^ fmt.fracBits * 2 ^ k ≤ v) (hhigh : v ≤ 2 * 2 ^ fmt.fracBits * 2 ^ k)
    (hc : NearestInteger (v / 2 ^ k) c) (hle : k * 2 ^ fmt.fracBits + c ≤ fmt.infinity) :
    fmt.Nearest (u / fmt.scale) (k * 2 ^ fmt.fracBits + c) := by
  have hscale := scale_pos fmt
  have hpow : (0 : ℚ) < 2 ^ k := by positivity
  have hhalf : (2 : ℚ) ^ k = 2 * (2 ^ k / 2) := by ring
  have hround : NearestInteger (u / 2 ^ k) c := by
    rw [hhalf] at hc ⊢
    exact (hplace.nearestInteger_iff (by positivity) c).2 hc
  have hquotient : u / fmt.scale / (2 ^ k / fmt.scale) = u / 2 ^ k := by
    field_simp
  refine nearest_of_nearestInteger ?_ ?_ ?_ hle
  · refine hlow.imp_right fun hlow => ?_
    have hmultiple : (2 : ℚ) ^ fmt.fracBits * 2 ^ k =
        (2 ^ (fmt.fracBits + 1) : ℤ) * (2 ^ k / 2) := by
      push_cast
      ring
    rw [hmultiple, ← hplace.le_iff, ← hmultiple] at hlow
    rw [← mul_div_assoc]
    exact div_le_div_of_nonneg_right hlow hscale.le
  · have hmultiple : (2 : ℚ) * 2 ^ fmt.fracBits * 2 ^ k =
        (2 ^ (fmt.fracBits + 2) : ℤ) * (2 ^ k / 2) := by
      push_cast
      ring
    rw [hmultiple, ← hplace.le_iff', ← hmultiple] at hhigh
    rw [← mul_div_assoc]
    exact div_le_div_of_nonneg_right hhigh hscale.le
  · rw [hquotient]
    exact hround

/-- From the last binade on everything is too large. -/
theorem nearest_infinity_of_place (hplace : SamePlace (2 ^ k / 2) u v)
    (hlow : 2 ^ fmt.fracBits * 2 ^ k ≤ v) (hk : 2 * fmt.bias ≤ k) :
    fmt.Nearest (u / fmt.scale) fmt.infinity := by
  refine nearest_infinity ?_
  have hmultiple : (2 : ℚ) ^ fmt.fracBits * 2 ^ k =
      (2 ^ (fmt.fracBits + 1) : ℤ) * (2 ^ k / 2) := by
    push_cast
    ring
  rw [hmultiple, ← hplace.le_iff, ← hmultiple, ← pow_add] at hlow
  rw [number, units_infinity, Nat.cast_pow, Nat.cast_ofNat]
  refine div_le_div_of_nonneg_right (le_trans ?_ hlow) (scale_pos fmt).le
  exact pow_le_pow_right₀ one_le_two (by omega)

end Format

end Ieee
