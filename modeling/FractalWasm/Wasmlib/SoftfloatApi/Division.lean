import FractalWasm.Wasmlib.SoftfloatApi.Operands

/-!
# Division

`f32_div` has a machine division for the quotient of its significands. `f64_div` has none that is
long enough: two estimates by the reciprocal of the upper half of the divisor give the quotient up
to a few units of its last guard bits, and where rounding depends on these the remainder decides.

**Reciprocals** (`approxRecip32_1`): the quotient of two words, by the macro that the build chooses
over the table of the library.

**Digits** (`lastDigit_place`): two estimates are short of the quotient by a few units. The last
digits are put right by the remainder, but only where a tie is near.

**Quotients** (`divUI`): one definition for both widths, over `Divisors`. Finite operands are
divided and rounded once (`divFinite_nearest`); zeros, infinities and NaNs are cases before.
-/

namespace FractalWasm

open Codec Ieee

namespace Softfloat

/-- The macro `softfloat_approxRecip32_1` of `primitives.h`: the build has
`SOFTFLOAT_FAST_DIV64TO32`. The divisor has its bit 31, so that the quotient is a `uint32_t`. -/
def approxRecip32_1 (a : Nat) : Nat := 0x7FFFFFFFFFFFFFFF / a

/-- The constants of `f32_div.c` and `f64_div.c`. -/
structure Divisors (fmt : Format) extends Operands fmt where
  expOffset : Nat
  /-- How far a significand is shifted that is not less than the other one. -/
  shiftA : Nat
  /-- The quotient of a shifted significand, with a last bit that says whether it is exact. -/
  quotient : Nat → Nat → Nat
  expOffset_eq : expOffset + 1 = fmt.bias := by rfl
  shiftA_le : shiftA ≤ fmt.fracBits + guard := by decide
  quotient_place {x y : Nat} (hy : 2 ^ fmt.fracBits ≤ y) (hylt : y < 2 * 2 ^ fmt.fracBits)
    (hx : y * 2 ^ shiftA ≤ x) (hxlt : x < y * 2 ^ (shiftA + 1)) :
    SamePlace (2 ^ (guard - 1)) (x * 2 ^ (fmt.fracBits + guard - shiftA) / y) (quotient x y)

/-- The machine division of `f32_div`. -/
def quotientF32 (sig64A sigB : Nat) : Nat :=
  let sigZ := sig64A / sigB
  if sigZ &&& 0x3F = 0 then sigZ ||| (sigB * sigZ != sig64A).toNat else sigZ

/-- What is left of `rem` after a digit `q`, as a word: a negative one has the sign bit. -/
def remainderF64 (rem q sigB : Nat) : Nat :=
  let doubleTerm : Nat := q <<< 1 % 2 ^ 32
  (((rem - doubleTerm * (sigB >>> 32 : Nat)) * 2 ^ 28 -
    doubleTerm * ((sigB % 2 ^ 32) >>> 4 : Nat)) % 2 ^ 64 : Int).toNat

/-- The two digits of `f64_div`. -/
def quotientF64 (sigA sigB : Nat) : Nat :=
  let sigB := sigB <<< 11
  let recip32 := approxRecip32_1 (sigB >>> 32) - 2
  let sig32Z := (sigA >>> 32 * recip32) >>> 32
  let rem := remainderF64 sigA sig32Z sigB
  let q := ((rem >>> 32 * recip32) >>> 32 + 4) % 2 ^ 32
  let sigZ := sig32Z <<< 32 + q <<< 4
  if sigZ &&& 0x1FF < 4 <<< 4 then
    let q := q.ldiff 7
    let sigZ := sigZ.ldiff 0x7F
    let rem := remainderF64 rem q sigB
    if rem &&& 0x8000000000000000 ≠ 0 then sigZ - 1 <<< 7
    else if rem ≠ 0 then sigZ ||| 1
    else sigZ
  else sigZ

section Divisors

variable {fmt : Format} (k : Divisors fmt)

/-- `f32_div` and `f64_div`, on the bits of the operands. -/
def divUI (uiA uiB : Nat) : Nat :=
  let signA := signUI k.toOperands uiA
  let expA := expUI k.toOperands uiA
  let sigA := fracUI k.toOperands uiA
  let signB := signUI k.toOperands uiB
  let expB := expUI k.toOperands uiB
  let sigB := fracUI k.toOperands uiB
  let signZ := signA ^^ signB
  if expA = k.infExp then
    if sigA ≠ 0 then propagateNaN k.toOperands uiA uiB
    else if expB = k.infExp then
      if sigB ≠ 0 then propagateNaN k.toOperands uiA uiB else k.defaultNaN
    else packToUI k.toPacking signZ k.infExp 0
  else if expB = k.infExp then
    if sigB ≠ 0 then propagateNaN k.toOperands uiA uiB else packToUI k.toPacking signZ 0 0
  else if expB = 0 ∧ sigB = 0 then
    if expA ||| sigA = 0 then k.defaultNaN else packToUI k.toPacking signZ k.infExp 0
  else
    let (expB, sigB) := normalized k.toOperands expB sigB
    if expA = 0 ∧ sigA = 0 then packToUI k.toPacking signZ 0 0
    else
      let (expA, sigA) := normalized k.toOperands expA sigA
      let expZ := expA - expB + k.expOffset
      let sigA := sigA ||| k.hiddenBit
      let sigB := sigB ||| k.hiddenBit
      if sigA < sigB then
        roundPackTo k.toPacking signZ (expZ - 1) (k.quotient (sigA <<< (k.shiftA + 1)) sigB)
      else roundPackTo k.toPacking signZ expZ (k.quotient (sigA <<< k.shiftA) sigB)

end Divisors

/-! ## Digits of a quotient -/

theorem ldiff_two_pow_sub_one (n i : Nat) : n.ldiff (2 ^ i - 1) = n / 2 ^ i * 2 ^ i := by
  refine Nat.eq_of_testBit_eq fun j => ?_
  rw [Nat.testBit_ldiff, Nat.testBit_two_pow_sub_one, Nat.testBit_mul_two_pow,
    Nat.testBit_div_two_pow]
  by_cases h : i ≤ j
  · simp [h, Nat.not_lt.2 h]
  · simp [h, Nat.lt_of_not_le h]

/-- The sign bit of a word tells the sign of a number that is not too large. -/
theorem signBit_emod {r : Int} (hmin : -2 ^ 63 ≤ r) (hmax : r < 2 ^ 63) :
    (r % 2 ^ 64).toNat &&& 0x8000000000000000 ≠ 0 ↔ r < 0 := by
  have hand := Nat.and_two_pow (r % 2 ^ 64).toNat 63
  rw [Nat.testBit_eq_decide_div_mod_eq] at hand
  rw [show 0x8000000000000000 = 2 ^ 63 by rfl, hand]
  by_cases h : (r % 2 ^ 64).toNat / 2 ^ 63 % 2 = 1
  · simp only [h, decide_true, Bool.toNat_true]
    omega
  · simp only [h, decide_false, Bool.toNat_false]
    omega

/-- The reciprocal that `f64_div` takes 2 from. -/
theorem approxRecip32_1_bounds {B : Nat} (hB : 2 ^ 31 ≤ B) (hBlt : B < 2 ^ 32) :
    ∃ R, approxRecip32_1 B = R + 2 ∧ R < 2 ^ 32 ∧ B * R + 2 * B < 2 ^ 63 ∧
      2 ^ 63 ≤ B * R + 3 * B := by
  have hdiv := Nat.div_add_mod 0x7FFFFFFFFFFFFFFF B
  have hrest := Nat.mod_lt 0x7FFFFFFFFFFFFFFF (y := B) (by omega)
  have htwo : 2 ≤ 0x7FFFFFFFFFFFFFFF / B := (Nat.le_div_iff_mul_le (by omega)).2 (by omega)
  obtain ⟨R, hR⟩ : ∃ R, 0x7FFFFFFFFFFFFFFF / B = R + 2 :=
    ⟨0x7FFFFFFFFFFFFFFF / B - 2, by omega⟩
  rw [hR, Nat.mul_add] at hdiv
  have hlt : R < 2 ^ 32 := by
    by_contra hge
    have hmul := Nat.mul_le_mul hB (Nat.le_of_not_lt hge)
    omega
  exact ⟨R, hR, hlt, by omega, by omega⟩

/-- A digit by the reciprocal is less than 5 too small. -/
theorem estimate_bounds {b n : Nat} (hb : 2 ^ 63 ≤ b) (hblt : b < 2 ^ 64) (hn : 0 < n)
    (hnlt : n < 2 ^ 64) :
    let q := (n >>> 32 * (approxRecip32_1 (b >>> 32) - 2)) >>> 32
    q * b < n * 2 ^ 31 ∧ n * 2 ^ 31 < (q + 5) * b := by
  simp only [Nat.shiftRight_eq_div_pow]
  have hbdiv := Nat.div_add_mod b (2 ^ 32)
  have hndiv := Nat.div_add_mod n (2 ^ 32)
  have hbrest := Nat.mod_lt b (Nat.two_pow_pos 32)
  have hnrest := Nat.mod_lt n (Nat.two_pow_pos 32)
  have hB : 2 ^ 31 ≤ b / 2 ^ 32 := by omega
  have hX : n / 2 ^ 32 < 2 ^ 32 := by omega
  obtain ⟨R, hR, hRlt, hRlow, hRhigh⟩ := approxRecip32_1_bounds hB (by omega)
  generalize b / 2 ^ 32 = B at *
  generalize n / 2 ^ 32 = X at *
  rw [hR, Nat.add_sub_cancel]
  have hqdiv := Nat.div_add_mod (X * R) (2 ^ 32)
  have hqrest := Nat.mod_lt (X * R) (Nat.two_pow_pos 32)
  generalize X * R / 2 ^ 32 = q at *
  constructor
  · rcases Nat.eq_zero_or_pos X with rfl | hXpos
    · have hzero : q = 0 := by omega
      rw [hzero]
      omega
    · calc q * b
        _ ≤ q * ((B + 1) * 2 ^ 32) := Nat.mul_le_mul_left _ (by omega)
        _ = 2 ^ 32 * q * (B + 1) := by ring
        _ ≤ X * R * (B + 1) := Nat.mul_le_mul_right _ (by omega)
        _ = X * (B * R + R) := by ring
        _ < X * 2 ^ 63 := Nat.mul_lt_mul_of_pos_left (by omega) hXpos
        _ ≤ n * 2 ^ 31 := by omega
  · have hmore : X * R * B + 2 ^ 32 * (4 * B) < (q + 5) * b := by
      calc X * R * B + 2 ^ 32 * (4 * B)
        _ < 2 ^ 32 * (q + 1) * B + 2 ^ 32 * (4 * B) :=
          Nat.add_lt_add_right (Nat.mul_lt_mul_of_pos_right (by omega) (by omega)) _
        _ = (q + 5) * (2 ^ 32 * B) := by ring
        _ ≤ (q + 5) * b := Nat.mul_le_mul_left _ (by omega)
    have hreciprocal : X * 2 ^ 63 ≤ X * R * B + 2 ^ 32 * (3 * B) := by
      calc X * 2 ^ 63
        _ ≤ X * (B * R + 3 * B) := Nat.mul_le_mul_left _ (by omega)
        _ = X * R * B + X * (3 * B) := by ring
        _ ≤ X * R * B + 2 ^ 32 * (3 * B) :=
          Nat.add_le_add_left (Nat.mul_le_mul_right _ hX.le) _
    omega

theorem remainderF64_eq (rem q : Nat) {b : Nat} (hq : q < 2 ^ 31) (hb : 16 ∣ b) :
    ∃ r : Int, 8 * r = rem * 2 ^ 31 - q * b ∧ remainderF64 rem q b = (r % 2 ^ 64).toNat := by
  obtain ⟨c, hc⟩ : ∃ c, b % 2 ^ 32 = 16 * c := ⟨b % 2 ^ 32 / 16, by omega⟩
  have hbdiv := Nat.div_add_mod b (2 ^ 32)
  have hdouble : q <<< 1 % 2 ^ 32 = 2 * q := by
    rw [Nat.shiftLeft_eq]
    omega
  refine ⟨_, ?_, rfl⟩
  simp only [hdouble, Nat.shiftRight_eq_div_pow]
  have hquot : 16 * c / 2 ^ 4 = c := by omega
  rw [hc, hquot]
  rw [hc] at hbdiv
  conv_rhs => rw [← hbdiv]
  push_cast
  ring

/-- A quotient whose digits are a multiple `m` of half a unit and what the remainder `r` adds: the sign
of the remainder says on which side of that multiple it is. -/
theorem remainder_place {T b m : Nat} {r : Int} (hb : 0 < b) (hT : (T : Int) = 512 * m * b + 128 * r)
    (hlow : -(4 * b) < r) (hhigh : r < 4 * b) (hmin : -2 ^ 63 ≤ r) (hmax : r < 2 ^ 63) :
    SamePlace (512 : Nat) ((T : ℚ) / b)
      (if (r % 2 ^ 64).toNat &&& 0x8000000000000000 ≠ 0 then 512 * m - 128
      else if (r % 2 ^ 64).toNat ≠ 0 then 512 * m ||| 1
      else 512 * m : Nat) := by
  have hsign := signBit_emod hmin hmax
  rcases lt_trichotomy r 0 with hneg | hzero | hpos
  · rw [if_pos (hsign.2 hneg)]
    obtain ⟨i, rfl⟩ : ∃ i, m = i + 1 := by
      refine Nat.exists_eq_add_one.2 (Nat.pos_of_ne_zero fun hzero => ?_)
      rw [hzero, Nat.cast_zero, mul_zero, zero_mul] at hT
      omega
    push_cast at hT
    have hlow' : i * 512 * b < T := by
      zify
      linarith
    have hhigh' : T < (i + 1) * 512 * b := by
      zify
      linarith
    exact .div_of_between hlow' hhigh' (by omega) (by omega)
  · have hexact : T = 512 * m * b := by
      zify
      linarith
    rw [if_neg fun h => (hsign.1 h).ne hzero, if_neg (by simp [hzero]), hexact, Nat.cast_mul,
      mul_div_cancel_right₀ _ (by exact_mod_cast hb.ne')]
    exact .refl _ _
  · have hword : (r % 2 ^ 64).toNat ≠ 0 := by omega
    rw [if_neg fun h => hpos.not_gt (hsign.1 h), if_pos hword, or_one_eq]
    have hlow' : m * 512 * b < T := by
      zify
      linarith
    have hhigh' : T < (m + 1) * 512 * b := by
      zify
      linarith
    exact .div_of_between hlow' hhigh' (by omega) (by omega)

/-- Digits that are far enough from a multiple of half a unit are on its side as they are. -/
theorem digits_place {T b s : Nat} (hsixteen : 16 ∣ s) (hfar : 64 ≤ s % 512)
    (hlow : s * b < T + 64 * b) (hhigh : T < (s + 16) * b) :
    SamePlace (512 : Nat) ((T : ℚ) / b) s := by
  have hbelow : s / 512 * 512 + 64 ≤ s := by omega
  have habove : s + 16 ≤ (s / 512 + 1) * 512 := by omega
  generalize s / 512 = n at *
  have hmul := Nat.mul_le_mul_right b hbelow
  have hmul' := Nat.mul_le_mul_right b habove
  rw [Nat.add_mul] at hmul
  exact .div_of_between (n := n) (by linarith) (by linarith) (by linarith) (by linarith)

/-- The second digit, where rounding depends on its last bits after a look at the remainder. -/
theorem lastDigit_place {b rem q₀ q₁ : Nat} (hb : 2 ^ 63 ≤ b) (hblt : b < 2 ^ 64) (hsixteen : 16 ∣ b)
    (hlow : q₀ * b < rem * 2 ^ 31) (hhigh : rem * 2 ^ 31 < (q₀ + 5) * b) (hrem : 8 * rem < 5 * b) :
    let q := (q₀ + 4) % 2 ^ 32
    let sigZ := q₁ <<< 32 + q <<< 4
    SamePlace (512 : Nat) ((q₁ * b * 2 ^ 32 + 16 * (rem * 2 ^ 31) : Nat) / b)
      (if sigZ &&& 0x1FF < 4 <<< 4 then
        if remainderF64 rem (q.ldiff 7) b &&& 0x8000000000000000 ≠ 0 then sigZ.ldiff 0x7F - 1 <<< 7
        else if remainderF64 rem (q.ldiff 7) b ≠ 0 then sigZ.ldiff 0x7F ||| 1
        else sigZ.ldiff 0x7F
      else sigZ : Nat) := by
  have hq₀ : q₀ + 4 < 2 ^ 31 := by
    by_contra hge
    have hmul := Nat.mul_le_mul_right b (Nat.sub_le_of_le_add (Nat.le_of_not_lt hge))
    rw [Nat.sub_mul] at hmul
    omega
  have hq : (q₀ + 4) % 2 ^ 32 = q₀ + 4 := Nat.mod_eq_of_lt (by omega)
  have hand : ∀ n : Nat, n &&& 0x1FF = n % 512 := fun n => Nat.and_two_pow_sub_one_eq_mod n 9
  have hldiff : ∀ n : Nat, n.ldiff 7 = n / 8 * 8 := fun n => ldiff_two_pow_sub_one n 3
  have hldiff' : ∀ n : Nat, n.ldiff 0x7F = n / 128 * 128 := fun n => ldiff_two_pow_sub_one n 7
  have hfour : 4 <<< 4 = 64 := by rfl
  have hshift : 1 <<< 7 = 128 := by rfl
  simp only [hq, hand, hldiff, hldiff', hfour, hshift, Nat.shiftLeft_eq]
  rw [Nat.add_mul] at hhigh
  split
  · next hnear =>
    obtain ⟨m, hm⟩ : ∃ m, q₁ * 2 ^ 32 + (q₀ + 4) / 8 * 8 * 16 = 512 * m :=
      ⟨(q₁ * 2 ^ 32 + (q₀ + 4) * 2 ^ 4) / 512, by omega⟩
    have hsig : (q₁ * 2 ^ 32 + (q₀ + 4) * 2 ^ 4) / 128 * 128 = 512 * m := by omega
    rw [hsig]
    have hdigit : q₀ + 1 ≤ (q₀ + 4) / 8 * 8 ∧ (q₀ + 4) / 8 * 8 ≤ q₀ + 4 := by omega
    generalize (q₀ + 4) / 8 * 8 = q at *
    obtain ⟨r, hr, hword⟩ := remainderF64_eq rem q (by omega) hsixteen
    have hmul := Nat.mul_le_mul_right b hdigit.1
    have hmul' := Nat.mul_le_mul_right b hdigit.2
    rw [Nat.add_mul] at hmul hmul'
    have hT : ((q₁ * b * 2 ^ 32 + 16 * (rem * 2 ^ 31) : Nat) : Int) =
        512 * m * b + 128 * r := by
      have hmb : (q₁ * 2 ^ 32 + q * 16) * b = 512 * m * b := by rw [hm]
      rw [Nat.add_mul, Nat.mul_right_comm, Nat.mul_right_comm q] at hmb
      zify at hmb ⊢
      linarith
    rw [hword]
    exact remainder_place (by omega) hT (by omega) (by omega) (by omega) (by omega)
  · next hfar =>
    refine digits_place (by omega) (Nat.le_of_not_lt hfar) ?_ ?_
    · linarith
    · linarith

theorem quotientF64_place {x y : Nat} (hy : 2 ^ 63 ≤ y <<< 11) (hylt : y <<< 11 < 2 ^ 64)
    (hx : 0 < x) (hxlt : x < y <<< 11) :
    SamePlace (512 : Nat) ((x * 2 ^ 63 : Nat) / (y <<< 11 : Nat)) (quotientF64 x y) := by
  have hsixteen : 16 ∣ y <<< 11 := by
    rw [Nat.shiftLeft_eq]
    exact (by decide : 16 ∣ 2 ^ 11).mul_left y
  unfold quotientF64
  simp only
  generalize y <<< 11 = b at *
  obtain ⟨hdigit, hdigit'⟩ := estimate_bounds hy hylt hx (by omega)
  have hall := @estimate_bounds b
  simp only at hdigit hdigit' hall
  generalize approxRecip32_1 (b >>> 32) - 2 = R at *
  generalize (x >>> 32 * R) >>> 32 = q₁ at *
  -- The first digit and what is left of the dividend.
  have hq₁ : q₁ < 2 ^ 31 := by
    by_contra hge
    have hmul := Nat.mul_le_mul_right b (Nat.le_of_not_lt hge)
    omega
  obtain ⟨r, hr, hrem⟩ := remainderF64_eq x q₁ hq₁ hsixteen
  rw [Nat.add_mul] at hdigit'
  obtain ⟨rem, rfl⟩ : ∃ rem : Nat, r = rem := ⟨r.toNat, by omega⟩
  rw [Int.emod_eq_of_lt (by omega) (by omega), Int.toNat_natCast] at hrem
  rw [hrem]
  obtain ⟨hlast, hlast'⟩ := hall hy hylt (n := rem) (by omega) (by omega)
  have hT : x * 2 ^ 63 = q₁ * b * 2 ^ 32 + 16 * (rem * 2 ^ 31) := by omega
  rw [hT]
  exact lastDigit_place hy hylt hsixteen hlast hlast' (by omega)

theorem quotientF32_place {x y : Nat} (hy : 2 ^ 23 ≤ y) :
    SamePlace (2 ^ 6 : Nat) (x / y) (quotientF32 x y) := by
  have hdiv := Nat.div_add_mod x y
  have hrest := Nat.mod_lt x (y := y) (by omega)
  have hlow : x / y &&& 0x3F = x / y % 2 ^ 6 := Nat.and_two_pow_sub_one_eq_mod _ 6
  rw [Nat.mul_comm] at hdiv
  rw [quotientF32, hlow]
  have hsplit := Nat.div_add_mod (x / y) (2 ^ 6)
  have hbelow : x / y / 2 ^ 6 * 2 ^ 6 * y ≤ x / y * y := Nat.mul_le_mul_right y (by omega)
  have habove : (x / y + 1) * y ≤ (x / y / 2 ^ 6 + 1) * 2 ^ 6 * y :=
    Nat.mul_le_mul_right y (by omega)
  rw [Nat.add_mul, Nat.one_mul] at habove
  by_cases hzero : x / y % 2 ^ 6 = 0
  · rw [if_pos hzero, Nat.mul_comm y]
    by_cases hexact : x / y * y = x
    · have hquot : (x : ℚ) / y = (x / y : Nat) := by
        rw [div_eq_iff (by exact_mod_cast (by omega : y ≠ 0))]
        exact_mod_cast hexact.symm
      rw [hexact, bne_self_eq_false, Bool.toNat_false, Nat.or_zero, hquot]
      exact .refl _ _
    · rw [bne_iff_ne.2 hexact, Bool.toNat_true, or_one_eq]
      exact .div_of_between (n := x / y / 2 ^ 6) (by omega) (by omega) (by omega) (by omega)
  · have hless : (x / y / 2 ^ 6 * 2 ^ 6 + 1) * y ≤ x / y * y :=
      Nat.mul_le_mul_right y (by omega)
    rw [Nat.add_mul, Nat.one_mul] at hless
    rw [if_neg hzero]
    exact .div_of_between (n := x / y / 2 ^ 6) (by omega) (by omega) (by omega) (by omega)

def divisorsF32 : Divisors binary32 where
  toOperands := operandsF32
  expOffset := 0x7E
  shiftA := 30
  quotient := quotientF32
  quotient_place {x y} hy _ _ _ := by
    have hplace := quotientF32_place (x := x) hy
    rw [show binary32.fracBits + operandsF32.guard - 30 = 0 by rfl, pow_zero, mul_one]
    exact_mod_cast hplace

def divisorsF64 : Divisors binary64 where
  toOperands := operandsF64
  expOffset := 0x3FE
  shiftA := 10
  quotient := quotientF64
  quotient_place {x y} hy hylt hx hxlt := by
    have hfrac : binary64.fracBits = 52 := rfl
    rw [hfrac] at hy hylt
    have hshift : y <<< 11 = y * 2 ^ 11 := Nat.shiftLeft_eq y 11
    have hplace := quotientF64_place (x := x) (y := y) (by omega) (by omega) (by omega) (by omega)
    have hvalue : ((x * 2 ^ 63 : Nat) : ℚ) / (y <<< 11 : Nat) = x * 2 ^ 52 / y := by
      rw [hshift, Nat.cast_mul, Nat.cast_mul, show (63 : Nat) = 52 + 11 by rfl, Nat.pow_add,
        Nat.cast_mul, ← mul_assoc, mul_div_mul_right _ _ (by positivity)]
      push_cast
      rfl
    rw [hvalue] at hplace
    exact_mod_cast hplace

/-! ## The quotient of patterns -/

section Quotient

variable {fmt : Format} {p q : Nat}

section Significands

variable {u u' c c' : Nat} {e e' : Int}

/-- The quotient of two numbers by their significands and exponents. -/
theorem quotient_units (k : Divisors fmt) (h : Significand fmt u e c)
    (h' : Significand fmt u' e' c') :
    (u / fmt.scale / (u' / fmt.scale) : ℚ) =
      c * 2 ^ (fmt.fracBits + k.guard) / c' * 2 ^ (e - e' + k.expOffset - k.guard) / fmt.scale := by
  have hoffset := k.expOffset_eq
  have hlimit := k.expLimit_eq
  have hscale := Format.scale_pos fmt
  have hpow : (2 : ℚ) ^ (e - 1) / 2 ^ (e' - 1) * fmt.scale =
      2 ^ (fmt.fracBits + k.guard) * 2 ^ (e - e' + k.expOffset - k.guard) := by
    rw [Format.scale, Nat.cast_pow, Nat.cast_ofNat, ← zpow_sub₀ two_ne_zero, ← zpow_natCast,
      ← zpow_natCast, ← zpow_add₀ two_ne_zero, ← zpow_add₀ two_ne_zero]
    congr 1
    omega
  rw [div_div_div_cancel_right₀ hscale.ne', h.units, h'.units, eq_div_iff hscale.ne',
    mul_div_mul_comm, mul_assoc, hpow]
  ring

/-- The quotient of a shifted significand. -/
theorem shifted_quotient (k : Divisors fmt) (c c' i : Nat) :
    ((c <<< (k.shiftA + i) : Nat) : ℚ) * 2 ^ (fmt.fracBits + k.guard - k.shiftA) / c' =
      c * 2 ^ (fmt.fracBits + k.guard) / c' * 2 ^ i := by
  have hpow : (2 : ℚ) ^ k.shiftA * 2 ^ (fmt.fracBits + k.guard - k.shiftA) =
      2 ^ (fmt.fracBits + k.guard) := by
    rw [← pow_add, Nat.add_sub_of_le k.shiftA_le]
  rw [Nat.shiftLeft_eq, ← hpow, Nat.pow_add]
  push_cast
  ring

/-- A significand that is shifted far enough, but no further, has a quotient in its place. -/
theorem divShifted_nearest (k : Divisors fmt) (sign : Bool) (h : Significand fmt u e c)
    (h' : Significand fmt u' e' c') {i : Nat} (hi : i ≤ 1) (hlow : c' ≤ c * 2 ^ i)
    (hhigh : c * 2 ^ i < c' * 2) :
    ∃ m, fmt.Nearest ((u / fmt.scale / (u' / fmt.scale) : ℚ)) m ∧
      roundPackTo k.toPacking sign (e - e' + k.expOffset - i)
        (k.quotient (c <<< (k.shiftA + i)) c') = fmt.pack sign m := by
  have hlimit := k.expLimit_eq
  have hrange := k.expLimit_lt
  have hthree := k.three_le_guard
  have hadd := k.guard_add
  have hwidth := k.width_le
  have hoffset := k.expOffset_eq
  have hmin := h.le_exp
  have hmin' := h'.le_exp
  have hmax := h.exp_le
  have hmax' := h'.exp_le
  have hpos : (0 : ℚ) < c' := by exact_mod_cast (Nat.two_pow_pos _).trans_le h'.le
  have hfullpos : (0 : ℚ) < 2 ^ (fmt.fracBits + k.guard) := by positivity
  have hshifted : c <<< (k.shiftA + i) = c * 2 ^ i * 2 ^ k.shiftA := by
    rw [Nat.shiftLeft_eq, Nat.add_comm, Nat.pow_add, Nat.mul_assoc]
  have hplace := k.quotient_place (x := c <<< (k.shiftA + i)) h'.le h'.lt
    (by
      rw [hshifted]
      exact Nat.mul_le_mul_right _ hlow)
    (by
      rw [hshifted, Nat.pow_succ', ← Nat.mul_assoc]
      exact Nat.mul_lt_mul_of_pos_right hhigh (Nat.two_pow_pos _))
  rw [shifted_quotient] at hplace
  have hlow' : (c' : ℚ) ≤ c * 2 ^ i := by exact_mod_cast hlow
  have hhigh' : (c : ℚ) * 2 ^ i < c' * 2 := by exact_mod_cast hhigh
  have hquotient : (c * 2 ^ (fmt.fracBits + k.guard) / c' * 2 ^ i : ℚ) =
      c * 2 ^ i / c' * 2 ^ (fmt.fracBits + k.guard) := by ring
  obtain ⟨hfull, hfull'⟩ := full_of_place hplace (f := fmt.fracBits) (by omega)
    (by
      rw [hquotient]
      exact le_mul_of_one_le_left hfullpos.le ((one_le_div hpos).2 hlow'))
    (by
      rw [hquotient, pow_succ', mul_lt_mul_iff_left₀ hfullpos, div_lt_iff₀ hpos, mul_comm 2]
      exact hhigh')
  have hguarded := samePlace_of_guard k.toPacking hplace (by omega) (e - e' + k.expOffset - i)
  have hunit := mul_pow_mul_zpow (c * 2 ^ (fmt.fracBits + k.guard) / c') i
    (e - e' + k.expOffset - k.guard)
  rw [sub_right_comm (e - e' + k.expOffset : ℤ) k.guard i] at hunit
  rw [hunit] at hguarded
  rw [quotient_units k h h']
  exact roundPackTo_nearest k.toPacking sign hguarded hfull hfull' (by omega) (by omega)

/-- Finite operands are divided and rounded once. -/
theorem divFinite_nearest (k : Divisors fmt) (sign : Bool) (h : Significand fmt u e c)
    (h' : Significand fmt u' e' c') :
    ∃ m, fmt.Nearest ((u / fmt.scale / (u' / fmt.scale) : ℚ)) m ∧
      (if c < c' then
        roundPackTo k.toPacking sign (e - e' + k.expOffset - 1)
          (k.quotient (c <<< (k.shiftA + 1)) c')
      else roundPackTo k.toPacking sign (e - e' + k.expOffset) (k.quotient (c <<< k.shiftA) c')) =
        fmt.pack sign m := by
  have hc := h.le
  have hclt := h.lt
  have hc' := h'.le
  have hclt' := h'.lt
  split
  · next hless =>
    have hnearest := divShifted_nearest k sign h h' (le_refl 1) (by omega) (by omega)
    rwa [Nat.cast_one] at hnearest
  · next hge =>
    have hnearest := divShifted_nearest k sign h h' (Nat.zero_le 1) (by omega) (by omega)
    rwa [Nat.cast_zero, sub_zero, Nat.add_zero] at hnearest

end Significands

theorem divUI_quotientOf (k : Divisors fmt) (hp : p < 2 ^ fmt.width) (hq : q < 2 ^ fmt.width) :
    fmt.QuotientOf p q (divUI k p q) := by
  have hpropagate := propagateNaN_propagates k.toOperands hp hq
  have hpzero := magnitude_eq_zero_iff fmt p
  have hqzero := magnitude_eq_zero_iff fmt q
  have hpositive := fmt.infinity_pos
  simp only [divUI, signUI_eq, expUI_eq, fracUI_eq, k.infExp_eq, Nat.or_eq_zero_iff, ← hpzero,
    ← hqzero, packToUI_infinity, packToUI_zero, k.defaultNaN_eq]
  by_cases hpmax : fmt.exponent p = 2 * fmt.bias + 1
  · rw [if_pos hpmax]
    split
    · next hfrac => exact .of_nan (.inl (Format.isNaN_iff.2 ⟨hpmax, hfrac⟩)) hpropagate
    · next hfrac =>
      have hpinfinite := isInfinite_of_exponent hpmax hfrac
      split
      · next hqmax =>
        split
        · next hfrac' => exact .of_nan (.inr (Format.isNaN_iff.2 ⟨hqmax, hfrac'⟩)) hpropagate
        · next hfrac' =>
          exact .of_invalid (.inl ⟨hpinfinite, isInfinite_of_exponent hqmax hfrac'⟩)
      · next hqmax => exact .of_infinite (isFinite_of_ne hqmax) (.inl hpinfinite)
  · have hpfinite := isFinite_of_ne hpmax
    rw [if_neg hpmax]
    by_cases hqmax : fmt.exponent q = 2 * fmt.bias + 1
    · rw [if_pos hqmax]
      split
      · next hfrac => exact .of_nan (.inr (Format.isNaN_iff.2 ⟨hqmax, hfrac⟩)) hpropagate
      · next hfrac => exact .of_right_infinite hpfinite (isInfinite_of_exponent hqmax hfrac)
    · have hqfinite := isFinite_of_ne hqmax
      rw [if_neg hqmax]
      split
      · next hzero =>
        split
        · next hzero' => exact .of_invalid (.inr ⟨hzero', hzero⟩)
        · next hne => exact .of_infinite hqfinite (.inr ⟨hpfinite, hne, hzero⟩)
      · next hqne =>
        split
        · next hzero =>
          have hnearest := nearest_zero fmt
          refine .of_finite hpfinite hqfinite hqne ?_
          rwa [hzero, Format.number_zero, zero_div]
        · next hpne =>
          obtain ⟨m, hm, hpack⟩ := divFinite_nearest k (fmt.sign p ^^ fmt.sign q)
            (normalized_significand k.toOperands hpfinite hpne)
            (normalized_significand k.toOperands hqfinite hqne)
          rw [hpack]
          exact .of_finite hpfinite hqfinite hqne hm

end Quotient

def f32Div (a b : UInt32) : UInt32 := .ofNat (divUI divisorsF32 a.toNat b.toNat)

def f64Div (a b : UInt64) : UInt64 := .ofNat (divUI divisorsF64 a.toNat b.toNat)

theorem f32Div_quotientOf (a b : UInt32) :
    binary32.QuotientOf a.toNat b.toNat (f32Div a b).toNat := by
  have hquotient := divUI_quotientOf divisorsF32 a.toNat_lt b.toNat_lt
  rwa [f32Div, UInt32.toNat_ofNat_of_lt' hquotient.lt]

theorem f64Div_quotientOf (a b : UInt64) :
    binary64.QuotientOf a.toNat b.toNat (f64Div a b).toNat := by
  have hquotient := divUI_quotientOf divisorsF64 a.toNat_lt b.toNat_lt
  rwa [f64Div, UInt64.toNat_ofNat_of_lt' hquotient.lt]

end Softfloat

end FractalWasm
