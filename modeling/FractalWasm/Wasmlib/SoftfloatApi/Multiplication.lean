import FractalWasm.Wasmlib.SoftfloatApi.Operands

/-!
# Multiplication

`f32_mul` and `f64_mul` multiply the significands in a word twice as long, of which the upper half
is kept and the lower half jammed. At 64 bits the long word is put together from products of halves.

**The long product** (`mul64To128`): three products of halves, with the carries of their sums, are
the product of two words.

**Products** (`mulUI`): one definition for both widths, over `Factors`. The product of the
significands has one place too many or too few, which the function sees from its highest bit.

Finite operands are multiplied and rounded once (`mulFinite_nearest`); zeros, infinities and NaNs
are cases before.
-/

namespace FractalWasm

open Codec Ieee

namespace Softfloat

/-- `softfloat_mul64To128`: the upper and the lower word. -/
def mul64To128 (a b : Nat) : Nat × Nat :=
  let a32 := a >>> 32
  let a0 := a % 2 ^ 32
  let b32 := b >>> 32
  let b0 := b % 2 ^ 32
  let v0 := a0 * b0
  let mid1 := a32 * b0
  let mid := (mid1 + a0 * b32) % 2 ^ 64
  let v64 := (a32 * b32 + ((if mid < mid1 then 1 else 0) <<< 32 ||| mid >>> 32)) % 2 ^ 64
  let mid := mid <<< 32 % 2 ^ 64
  let v0 := (v0 + mid) % 2 ^ 64
  ((v64 + if v0 < mid then 1 else 0) % 2 ^ 64, v0)

/-- The constants of `f32_mul.c` and `f64_mul.c`. -/
structure Factors (fmt : Format) extends Operands fmt where
  bias : Nat
  shiftA : Nat
  shiftB : Nat
  sigCarry : Nat
  /-- The upper half of the product of the shifted significands. -/
  product : Nat → Nat → Nat
  bias_eq : fmt.bias = bias := by rfl
  guard_eq : guard = shiftA := by rfl
  shiftB_eq : shiftB = guard + 1 := by rfl
  two_pow_eq : 2 ^ (fmt.fracBits + guard) = sigCarry := by rfl
  product_eq {x y : Nat} (hx : x < 2 ^ width) (hy : y < 2 ^ width) : product x y = jam (x * y) width

def productF32 (sigA sigB : Nat) : Nat := shortShiftRightJam64 (sigA * sigB) 32

def productF64 (sigA sigB : Nat) : Nat :=
  let sig128Z := mul64To128 sigA sigB
  sig128Z.1 ||| (sig128Z.2 != 0).toNat

section Factors

variable {fmt : Format} (k : Factors fmt)

/-- `f32_mul` and `f64_mul`, on the bits of the operands. -/
def mulUI (uiA uiB : Nat) : Nat :=
  let signA := signUI k.toOperands uiA
  let expA := expUI k.toOperands uiA
  let sigA := fracUI k.toOperands uiA
  let signB := signUI k.toOperands uiB
  let expB := expUI k.toOperands uiB
  let sigB := fracUI k.toOperands uiB
  let signZ := signA ^^ signB
  let infArg (magBits : Nat) :=
    if magBits = 0 then k.defaultNaN else packToUI k.toPacking signZ k.infExp 0
  if expA = k.infExp then
    if sigA ≠ 0 ∨ expB = k.infExp ∧ sigB ≠ 0 then propagateNaN k.toOperands uiA uiB
    else infArg (expB ||| sigB)
  else if expB = k.infExp then
    if sigB ≠ 0 then propagateNaN k.toOperands uiA uiB
    else infArg (expA ||| sigA)
  else if expA = 0 ∧ sigA = 0 then packToUI k.toPacking signZ 0 0
  else
    let (expA, sigA) := normalized k.toOperands expA sigA
    if expB = 0 ∧ sigB = 0 then packToUI k.toPacking signZ 0 0
    else
      let (expB, sigB) := normalized k.toOperands expB sigB
      let expZ := expA + expB - k.bias
      let sigA := (sigA ||| k.hiddenBit) <<< k.shiftA
      let sigB := (sigB ||| k.hiddenBit) <<< k.shiftB
      let sigZ := k.product sigA sigB
      if sigZ < k.sigCarry then roundPackTo k.toPacking signZ (expZ - 1) (sigZ <<< 1)
      else roundPackTo k.toPacking signZ expZ sigZ

end Factors

/-! ## The long product -/

/-- The carries of the two sums of products of halves. -/
theorem mul64To128_carries {w x y z : Nat} (hw : w ≤ (2 ^ 32 - 1) * (2 ^ 32 - 1))
    (hx : x ≤ (2 ^ 32 - 1) * (2 ^ 32 - 1)) (hy : y ≤ (2 ^ 32 - 1) * (2 ^ 32 - 1))
    (hz : z ≤ (2 ^ 32 - 1) * (2 ^ 32 - 1)) :
    let mid := (x + y) % 2 ^ 64
    let v64 := (w + ((if mid < x then 1 else 0) * 2 ^ 32 + mid / 2 ^ 32)) % 2 ^ 64
    let v0 := (z + mid * 2 ^ 32 % 2 ^ 64) % 2 ^ 64
    (v64 + if v0 < mid * 2 ^ 32 % 2 ^ 64 then 1 else 0) % 2 ^ 64 * 2 ^ 64 + v0 =
      w * 2 ^ 64 + (x + y) * 2 ^ 32 + z := by
  intro mid v64 v0
  simp only [v64]
  split <;> split <;> omega

theorem mul64To128_eq {a b : Nat} (ha : a < 2 ^ 64) (hb : b < 2 ^ 64) :
    (mul64To128 a b).1 * 2 ^ 64 + (mul64To128 a b).2 = a * b ∧ (mul64To128 a b).2 < 2 ^ 64 := by
  have hhigh : ∀ {x : Nat}, x < 2 ^ 64 → x / 2 ^ 32 ≤ 2 ^ 32 - 1 := by
    intro x hx
    omega
  have hlow : ∀ x : Nat, x % 2 ^ 32 ≤ 2 ^ 32 - 1 := by
    intro x
    omega
  have hcarries := mul64To128_carries (Nat.mul_le_mul (hhigh ha) (hhigh hb))
    (Nat.mul_le_mul (hhigh ha) (hlow b)) (Nat.mul_le_mul (hlow a) (hhigh hb))
    (Nat.mul_le_mul (hlow a) (hlow b))
  have hor : ∀ c m : Nat, c * 2 ^ 32 ||| m % 2 ^ 64 / 2 ^ 32 = c * 2 ^ 32 + m % 2 ^ 64 / 2 ^ 32 := by
    intro c m
    rw [Nat.mul_comm, Nat.two_pow_add_eq_or_of_lt (by omega)]
  refine ⟨?_, Nat.mod_lt _ (by decide)⟩
  simp only [mul64To128, Nat.shiftRight_eq_div_pow, Nat.shiftLeft_eq, hor]
  rw [hcarries]
  conv_rhs => rw [← Nat.div_add_mod a (2 ^ 32), ← Nat.div_add_mod b (2 ^ 32)]
  ring

theorem productF64_eq {x y : Nat} (hx : x < 2 ^ 64) (hy : y < 2 ^ 64) :
    productF64 x y = jam (x * y) 64 := by
  obtain ⟨hproduct, hlt⟩ := mul64To128_eq hx hy
  rw [productF64, jam, ← hproduct, Nat.add_comm, Nat.add_mul_div_right _ _ (by decide),
    Nat.div_eq_of_lt hlt, Nat.zero_add, Nat.add_mul_mod_self_right, Nat.mod_eq_of_lt hlt]
  by_cases hzero : (mul64To128 x y).2 = 0
  · simp [hzero]
  · rw [if_neg hzero, bne_iff_ne.2 hzero]
    rfl

def factorsF32 : Factors binary32 where
  toOperands := operandsF32
  bias := 0x7F
  shiftA := 7
  shiftB := 8
  sigCarry := 0x40000000
  product := productF32
  product_eq _ _ := shortShiftRightJam64_eq _ _

def factorsF64 : Factors binary64 where
  toOperands := operandsF64
  bias := 0x3FF
  shiftA := 10
  shiftB := 11
  sigCarry := 0x4000000000000000
  product := productF64
  product_eq hx hy := productF64_eq hx hy

/-! ## The product of patterns -/

section Product

variable {fmt : Format} {p q : Nat}

section Significands

variable {c c' : Nat}

/-- The product of two significands in the units it is rounded in. -/
theorem product_units (k : Factors fmt) (c c' : Nat) :
    ((c * 2 ^ k.guard * (c' * 2 ^ (k.guard + 1)) : Nat) : ℚ) / 2 ^ k.width =
      c * c' * 2 ^ (k.guard - fmt.fracBits - 1 : ℤ) := by
  have hadd := k.guard_add
  have hpow : (2 : ℚ) ^ (k.guard - fmt.fracBits - 1 : ℤ) * 2 ^ k.width =
      2 ^ k.guard * 2 ^ (k.guard + 1) := by
    rw [← zpow_natCast, ← zpow_natCast, ← zpow_natCast, ← zpow_add₀ two_ne_zero,
      ← zpow_add₀ two_ne_zero]
    congr 1
    omega
  rw [div_eq_iff (by positivity), mul_assoc _ _ (2 ^ k.width), hpow]
  push_cast
  ring

/-- The function multiplies two shifted significands and jams the lower half. -/
theorem product_eq_jam (k : Factors fmt) (hclt : c < 2 * 2 ^ fmt.fracBits)
    (hclt' : c' < 2 * 2 ^ fmt.fracBits) :
    k.product (c <<< k.shiftA) (c' <<< k.shiftB) =
      jam (c * 2 ^ k.guard * (c' * 2 ^ (k.guard + 1))) k.width := by
  have hadd := k.guard_add
  have hsmall : ∀ {x s : Nat}, x < 2 * 2 ^ fmt.fracBits → s ≤ k.guard + 1 →
      x * 2 ^ s < 2 ^ k.width := by
    intro x s hx hs
    calc x * 2 ^ s
      _ < 2 * 2 ^ fmt.fracBits * 2 ^ s := Nat.mul_lt_mul_of_pos_right hx (Nat.two_pow_pos s)
      _ = 2 ^ (fmt.fracBits + 1 + s) := by rw [← Nat.pow_succ', ← Nat.pow_add]
      _ ≤ 2 ^ k.width := Nat.pow_le_pow_right (by omega) (by omega)
  simp only [Nat.shiftLeft_eq, ← k.guard_eq, k.shiftB_eq]
  exact k.product_eq (hsmall hclt (by omega)) (hsmall hclt' (by omega))

/-- The product of the least significands is one bit short. -/
theorem le_product (k : Factors fmt) (hc : 2 ^ fmt.fracBits ≤ c) (hc' : 2 ^ fmt.fracBits ≤ c') :
    ((2 ^ (fmt.fracBits + k.guard - 2) : ℤ) : ℚ) * 2 ≤
      c * c' * 2 ^ (k.guard - fmt.fracBits - 1 : ℤ) := by
  have hthree := k.three_le_guard
  have hadd := k.guard_add
  have hleast : 2 ^ (fmt.fracBits + k.guard - 2) * 2 * 2 ^ k.width ≤
      c * 2 ^ k.guard * (c' * 2 ^ (k.guard + 1)) := by
    calc 2 ^ (fmt.fracBits + k.guard - 2) * 2 * 2 ^ k.width
      _ = 2 ^ fmt.fracBits * 2 ^ k.guard * (2 ^ fmt.fracBits * 2 ^ (k.guard + 1)) := by
        rw [← Nat.pow_succ, ← Nat.pow_add, ← Nat.pow_add, ← Nat.pow_add, ← Nat.pow_add]
        congr 1
        omega
      _ ≤ c * 2 ^ k.guard * (c' * 2 ^ (k.guard + 1)) :=
        Nat.mul_le_mul (Nat.mul_le_mul_right _ hc) (Nat.mul_le_mul_right _ hc')
  rw [← product_units k, le_div_iff₀ (by positivity)]
  exact_mod_cast hleast

/-- The product of the greatest significands has no bit too many. -/
theorem product_lt (k : Factors fmt) (hclt : c < 2 * 2 ^ fmt.fracBits)
    (hclt' : c' < 2 * 2 ^ fmt.fracBits) :
    c * c' * 2 ^ (k.guard - fmt.fracBits - 1 : ℤ) <
      ((2 ^ (fmt.fracBits + k.guard) : ℤ) : ℚ) * 2 := by
  have hadd := k.guard_add
  have hmost : c * 2 ^ k.guard * (c' * 2 ^ (k.guard + 1)) <
      2 ^ (fmt.fracBits + k.guard) * 2 * 2 ^ k.width := by
    calc c * 2 ^ k.guard * (c' * 2 ^ (k.guard + 1))
      _ < 2 * 2 ^ fmt.fracBits * 2 ^ k.guard * (2 * 2 ^ fmt.fracBits * 2 ^ (k.guard + 1)) :=
        Nat.mul_lt_mul'' (Nat.mul_lt_mul_of_pos_right hclt (Nat.two_pow_pos _))
          (Nat.mul_lt_mul_of_pos_right hclt' (Nat.two_pow_pos _))
      _ = 2 ^ (fmt.fracBits + k.guard) * 2 * 2 ^ k.width := by
        rw [← Nat.pow_succ', ← Nat.pow_succ, ← Nat.pow_add, ← Nat.pow_add, ← Nat.pow_add,
          ← Nat.pow_add]
        congr 1
        omega
  rw [← product_units k, div_lt_iff₀ (by positivity)]
  exact_mod_cast hmost

/-- The jammed product of two significands is full, or one bit short. -/
theorem product_bounds (k : Factors fmt) (hc : 2 ^ fmt.fracBits ≤ c)
    (hclt : c < 2 * 2 ^ fmt.fracBits) (hc' : 2 ^ fmt.fracBits ≤ c')
    (hclt' : c' < 2 * 2 ^ fmt.fracBits) :
    let z := k.product (c <<< k.shiftA) (c' <<< k.shiftB)
    SamePlace 2 (c * c' * 2 ^ (k.guard - fmt.fracBits - 1 : ℤ)) z ∧
      2 ^ (fmt.fracBits + k.guard) ≤ z * 2 ^ 1 ∧ z < 2 ^ (fmt.fracBits + k.guard + 1) := by
  have hthree := k.three_le_guard
  intro z
  have hplace := samePlace_jam (c * 2 ^ k.guard * (c' * 2 ^ (k.guard + 1))) k.width
  rw [product_units, ← product_eq_jam k hclt hclt'] at hplace
  refine ⟨hplace, ?_, ?_⟩
  · have hle : 2 ^ (fmt.fracBits + k.guard - 2) * 2 ≤ z := by
      exact_mod_cast (hplace.le_iff _).1 (le_product k hc hc')
    have hpow : 2 ^ (fmt.fracBits + k.guard) = 2 ^ (fmt.fracBits + k.guard - 2) * 2 * 2 ^ 1 := by
      rw [← Nat.pow_succ, ← Nat.pow_add]
      congr 1
      omega
    rw [hpow]
    exact Nat.mul_le_mul_right _ hle
  · rw [Nat.pow_succ]
    exact_mod_cast (hplace _).2.1 (product_lt k hclt hclt')

theorem mulFinite_nearest (k : Factors fmt) (sign : Bool) {u u' : Nat} {e e' : Int}
    (h : Significand fmt u e c) (h' : Significand fmt u' e' c') :
    let z := k.product (c <<< k.shiftA) (c' <<< k.shiftB)
    ∃ m, fmt.Nearest ((u / fmt.scale * (u' / fmt.scale) : ℚ)) m ∧
      (if z < k.sigCarry then roundPackTo k.toPacking sign (e + e' - k.bias - 1) (z <<< 1)
        else roundPackTo k.toPacking sign (e + e' - k.bias) z) = fmt.pack sign m := by
  intro z
  have hrange := k.expLimit_lt
  have hlimit := k.expLimit_eq
  have hthree := k.three_le_guard
  have hadd := k.guard_add
  have hbias := Format.bias_pos fmt
  obtain ⟨hplace, hlow, hhigh⟩ := product_bounds k h.le h.lt h'.le h'.lt
  have hvalue : (u * u' / fmt.scale : ℚ) =
      c * c' * 2 ^ (k.guard - fmt.fracBits - 1 : ℤ) * 2 ^ (e + e' - k.bias - k.guard) := by
    rw [h.units, h'.units, Format.scale, div_eq_iff (by positivity), Nat.cast_pow, Nat.cast_ofNat,
      ← zpow_natCast, mul_mul_mul_comm, ← zpow_add₀ two_ne_zero, mul_assoc (c * c' : ℚ),
      mul_assoc (c * c' : ℚ), ← zpow_add₀ two_ne_zero, ← zpow_add₀ two_ne_zero, ← k.bias_eq]
    congr 2
    omega
  have hproduct : (u / fmt.scale * (u' / fmt.scale) : ℚ) = u * u' / fmt.scale / fmt.scale := by
    rw [div_mul_div_comm, div_div]
  have hmin := h.le_exp
  have hmin' := h'.le_exp
  have hmax := h.exp_le
  have hmax' := h'.exp_le
  have hbiasEq := k.bias_eq
  have hwidth := k.width_le
  rw [hproduct, hvalue, ← k.two_pow_eq]
  exact packCarry_nearest k.toPacking sign hplace hlow hhigh (by omega) (by omega)

end Significands

theorem mulUI_productOf (k : Factors fmt) (hp : p < 2 ^ fmt.width) (hq : q < 2 ^ fmt.width) :
    fmt.ProductOf p q (mulUI k p q) := by
  have hpropagate := propagateNaN_propagates k.toOperands hp hq
  have hpzero := magnitude_eq_zero_iff fmt p
  have hqzero := magnitude_eq_zero_iff fmt q
  have hpositive := fmt.infinity_pos
  simp only [mulUI, signUI_eq, expUI_eq, fracUI_eq, k.infExp_eq, Nat.or_eq_zero_iff, ← hpzero,
    ← hqzero, packToUI_infinity, packToUI_zero, k.defaultNaN_eq]
  by_cases hpmax : fmt.exponent p = 2 * fmt.bias + 1
  · rw [if_pos hpmax]
    split
    · next hnan =>
      refine .of_nan ?_ hpropagate
      rw [Format.isNaN_iff, Format.isNaN_iff]
      exact hnan.imp_left fun h => ⟨hpmax, h⟩
    · next hnan =>
      rw [not_or] at hnan
      have hinfinite := isInfinite_of_exponent hpmax hnan.1
      split
      · next hzero => exact .of_invalid (.inl ⟨hinfinite, hzero⟩)
      · next hne =>
        exact .of_infinite (by omega) (fun h => hnan.2 (Format.isNaN_iff.1 h)) (.inl hinfinite)
          (by omega) hne
  · have hpfinite := isFinite_of_ne hpmax
    rw [if_neg hpmax]
    by_cases hqmax : fmt.exponent q = 2 * fmt.bias + 1
    · rw [if_pos hqmax]
      split
      · next hfrac => exact .of_nan (.inr (Format.isNaN_iff.2 ⟨hqmax, hfrac⟩)) hpropagate
      · next hfrac =>
        have hinfinite := isInfinite_of_exponent hqmax hfrac
        split
        · next hzero => exact .of_invalid (.inr ⟨hzero, hinfinite⟩)
        · next hne =>
          exact .of_infinite (by omega) (by omega) (.inr hinfinite) hne (by omega)
    · have hqfinite := isFinite_of_ne hqmax
      have hnearest := nearest_zero fmt
      rw [if_neg hqmax]
      split
      · next hzero =>
        refine .of_finite hpfinite hqfinite ?_
        rwa [hzero, Format.number_zero, zero_mul]
      · next hpne =>
        split
        · next hzero =>
          refine .of_finite hpfinite hqfinite ?_
          rwa [hzero, Format.number_zero, mul_zero]
        · next hqne =>
          obtain ⟨m, hm, hpack⟩ := mulFinite_nearest k (fmt.sign p ^^ fmt.sign q)
            (normalized_significand k.toOperands hpfinite hpne)
            (normalized_significand k.toOperands hqfinite hqne)
          rw [hpack]
          exact .of_finite hpfinite hqfinite hm

end Product

def f32Mul (a b : UInt32) : UInt32 := .ofNat (mulUI factorsF32 a.toNat b.toNat)

def f64Mul (a b : UInt64) : UInt64 := .ofNat (mulUI factorsF64 a.toNat b.toNat)

theorem f32Mul_productOf (a b : UInt32) :
    binary32.ProductOf a.toNat b.toNat (f32Mul a b).toNat := by
  have hproduct := mulUI_productOf factorsF32 a.toNat_lt b.toNat_lt
  rwa [f32Mul, UInt32.toNat_ofNat_of_lt' hproduct.lt]

theorem f64Mul_productOf (a b : UInt64) :
    binary64.ProductOf a.toNat b.toNat (f64Mul a b).toNat := by
  have hproduct := mulUI_productOf factorsF64 a.toNat_lt b.toNat_lt
  rwa [f64Mul, UInt64.toNat_ofNat_of_lt' hproduct.lt]

end Softfloat

end FractalWasm
