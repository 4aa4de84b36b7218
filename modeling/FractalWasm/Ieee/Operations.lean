import FractalWasm.Ieee.Nearest

/-!
# Operations on patterns

What the arithmetic of a format has to return for all operands: NaNs, infinities, zeros and finite
numbers. Each specification is a structure with a field for each kind of operands.

**NaNs** (`Propagates`): a NaN is propagated with its payload and made quiet, that of the left
operand first; an operation without a result returns one fixed NaN (`indefinite`).

**Sums, products and quotients** (`SumOf`, `ProductOf`, `QuotientOf`): the exact result rounded
once. The theorems `of_nan`, `of_infinite`, `of_invalid` and `of_finite` of each prove it case by
case.

**Formats of different widths** (`ConversionOf`): a number is rounded to the other format, and of a
NaN the leading bits of the payload are kept.
-/

namespace Ieee

namespace Format

variable {fmt : Format} {p q r m : Nat} {s s' : Bool} {x : ℚ}

theorem infinity_pos (fmt : Format) : 0 < fmt.infinity := by
  rw [infinity_eq]
  exact Nat.mul_pos (by omega) (Nat.two_pow_pos _)

/-! ## NaNs -/

variable (fmt) in
/-- A NaN with its payload, no longer signalling. -/
def quiet (p : Nat) : Nat := p ||| 2 ^ (fmt.fracBits - 1)

variable (fmt) in
/-- The result of an invalid operation. -/
def indefinite : Nat := fmt.pack true (fmt.infinity + 2 ^ (fmt.fracBits - 1))

theorem quiet_lt (hp : p < 2 ^ fmt.width) : fmt.quiet p < 2 ^ fmt.width := by
  refine Nat.or_lt_two_pow hp (Nat.pow_lt_pow_right (by omega) ?_)
  unfold width magnitudeBits
  omega

theorem infinity_add_lt (fmt : Format) {x : Nat} (hx : x < 2 ^ fmt.fracBits) :
    fmt.infinity + x < 2 ^ fmt.magnitudeBits := by
  have hexp := Nat.two_pow_pos fmt.expBits
  rw [infinity, magnitudeBits, Nat.pow_add, Nat.sub_mul, Nat.one_mul]
  have hle := Nat.mul_le_mul_right (2 ^ fmt.fracBits) (Nat.succ_le_of_lt hexp)
  omega

theorem quietBit_lt (fmt : Format) : 2 ^ (fmt.fracBits - 1) < 2 ^ fmt.fracBits :=
  Nat.pow_lt_pow_right (by omega) (by have := fmt.fracBits_pos; omega)

/-- The NaN of an invalid operation is a pattern of the format. -/
theorem indefinite_lt (fmt : Format) : fmt.indefinite < 2 ^ fmt.width :=
  pack_lt (infinity_add_lt fmt (quietBit_lt fmt))

theorem Nearest.pack_lt (h : fmt.Nearest x m) : fmt.pack s m < 2 ^ fmt.width :=
  Format.pack_lt (Nat.lt_of_le_of_lt h.le (infinity_lt fmt))

variable (fmt) in
/-- `r` is a pattern, that of the NaN among `p` and `q` if there is one. -/
structure Propagates (p q r : Nat) : Prop where
  lt : r < 2 ^ fmt.width
  left : fmt.IsNaN p → r = fmt.quiet p
  right : ¬fmt.IsNaN p → fmt.IsNaN q → r = fmt.quiet q

/-- Nothing is propagated from numbers. -/
theorem Propagates.of_not (hlt : r < 2 ^ fmt.width) (hp : ¬fmt.IsNaN p) (hq : ¬fmt.IsNaN q) :
    fmt.Propagates p q r :=
  ⟨hlt, fun h => absurd h hp, fun _ h => absurd h hq⟩

/-! ## Numbers -/

variable (fmt) in
/-- The number of a magnitude with a sign. -/
def signed (s : Bool) (m : Nat) : ℚ := if s then -fmt.number m else fmt.number m

theorem value_eq_signed (fmt : Format) (p : Nat) :
    fmt.value p = fmt.signed (fmt.sign p) (fmt.magnitude p) := rfl

/-- The other sign negates the number. -/
theorem signed_not (fmt : Format) (s : Bool) (m : Nat) : fmt.signed (!s) m = -fmt.signed s m := by
  cases s <;> simp [signed]

/-- A magnitude next to that of a number, with its sign. -/
theorem rounded_pack (hm : fmt.Nearest |x| m) (hpositive : 0 < x → s' = false)
    (hnegative : x < 0 → s' = true) (hzero : x = 0 → s' = s) : fmt.Rounded x s (fmt.pack s' m) := by
  have hlt := Nat.lt_of_le_of_lt hm.le (infinity_lt fmt)
  constructor
  · rwa [magnitude_pack hlt]
  · rwa [sign_pack hlt]
  · rwa [sign_pack hlt]
  · rwa [sign_pack hlt]

/-! ## Fields -/

variable (fmt) in
def fraction (p : Nat) : Nat := fmt.magnitude p % 2 ^ fmt.fracBits

theorem fraction_lt (fmt : Format) (p : Nat) : fmt.fraction p < 2 ^ fmt.fracBits :=
  Nat.mod_lt _ (Nat.two_pow_pos _)

theorem exponent_mul_add_fraction (fmt : Format) (p : Nat) :
    fmt.exponent p * 2 ^ fmt.fracBits + fmt.fraction p = fmt.magnitude p :=
  Nat.div_add_mod' _ _

/-- The exponents go up to that of the infinities. -/
theorem exponent_lt (fmt : Format) (p : Nat) : fmt.exponent p ≤ 2 * fmt.bias + 1 := by
  have hlt : fmt.exponent p < 2 ^ fmt.expBits := by
    refine Nat.div_lt_of_lt_mul ?_
    rw [← Nat.pow_add, Nat.add_comm]
    exact Nat.mod_lt _ (Nat.two_pow_pos _)
  rw [two_pow_expBits] at hlt
  omega

theorem infinity_eq_mul (fmt : Format) : fmt.infinity = (2 * fmt.bias + 1) * 2 ^ fmt.fracBits := by
  rw [infinity_eq]
  congr 1
  omega

/-- A finite number is one below the largest exponent. -/
theorem isFinite_iff : fmt.IsFinite p ↔ fmt.exponent p < 2 * fmt.bias + 1 := by
  rw [IsFinite, infinity_eq_mul, exponent, Nat.div_lt_iff_lt_mul (Nat.two_pow_pos _)]

/-- The infinities have no fraction. -/
theorem isInfinite_iff :
    fmt.IsInfinite p ↔ fmt.exponent p = 2 * fmt.bias + 1 ∧ fmt.fraction p = 0 := by
  have hsplit := exponent_mul_add_fraction fmt p
  have hlt := fraction_lt fmt p
  have hfinite := @isFinite_iff fmt p
  have hle := exponent_lt fmt p
  rw [IsFinite, infinity_eq_mul] at hfinite
  rw [IsInfinite, infinity_eq_mul]
  constructor
  · intro h
    have hexp : fmt.exponent p = 2 * fmt.bias + 1 := by omega
    rw [hexp] at hsplit
    exact ⟨hexp, by omega⟩
  · rintro ⟨hexp, hfrac⟩
    rw [← hsplit, hexp, hfrac, Nat.add_zero]

/-- The NaNs have the largest exponent too, and a fraction. -/
theorem isNaN_iff :
    fmt.IsNaN p ↔ fmt.exponent p = 2 * fmt.bias + 1 ∧ fmt.fraction p ≠ 0 := by
  have hfinite := @isFinite_iff fmt p
  have hinfinite := @isInfinite_iff fmt p
  have hle := exponent_lt fmt p
  unfold IsFinite at hfinite
  unfold IsInfinite at hinfinite
  unfold IsNaN
  omega

/-- Subnormals have no hidden bit. -/
theorem units_magnitude (fmt : Format) (p : Nat) : fmt.units (fmt.magnitude p) =
    if fmt.exponent p = 0 then fmt.fraction p
    else (2 ^ fmt.fracBits + fmt.fraction p) * 2 ^ (fmt.exponent p - 1) := by
  have hsplit := exponent_mul_add_fraction fmt p
  have hlt := fraction_lt fmt p
  split
  · next hzero =>
    rw [hzero] at hsplit
    rw [← hsplit, Nat.zero_mul, Nat.zero_add, units_of_le (by omega)]
  · next hpos =>
    obtain ⟨e, he⟩ : ∃ e, fmt.exponent p = e + 1 := ⟨fmt.exponent p - 1, by omega⟩
    rw [← hsplit, he, Nat.add_mul, Nat.one_mul, Nat.add_assoc, units_add (.inr (by omega)) (by omega),
      Nat.add_sub_cancel]

/-! ## Addition -/

variable (fmt) in
/-- `r` is the sum of `p` and of `q` taken with the sign `s`. -/
structure SumOf (p q : Nat) (s : Bool) (r : Nat) : Prop extends fmt.Propagates p q r where
  invalid : fmt.IsInfinite p → fmt.IsInfinite q → fmt.sign p ≠ s → r = fmt.indefinite
  left_infinite : fmt.IsInfinite p → ¬fmt.IsNaN q → (fmt.IsInfinite q → fmt.sign p = s) → r = p
  right_infinite : fmt.IsFinite p → fmt.IsInfinite q → r = fmt.pack s fmt.infinity
  finite : fmt.IsFinite p → fmt.IsFinite q →
    fmt.Rounded (fmt.value p + fmt.signed s (fmt.magnitude q)) (fmt.sign p && s) r

/-- A NaN among the operands decides the sum. -/
theorem SumOf.of_nan (hnan : fmt.IsNaN p ∨ fmt.IsNaN q) (h : fmt.Propagates p q r) :
    fmt.SumOf p q s r where
  toPropagates := h
  invalid _ _ := by omega
  left_infinite _ _ := by omega
  right_infinite _ _ := by omega
  finite _ _ := by omega

/-- An infinity on the left is the sum, unless the other operand is the opposite one. -/
theorem SumOf.of_infinite_left (hlt : p < 2 ^ fmt.width) (hp : fmt.IsInfinite p) (hq : ¬fmt.IsNaN q)
    (hsign : fmt.IsInfinite q → fmt.sign p = s) : fmt.SumOf p q s p where
  toPropagates := .of_not hlt (by omega) hq
  invalid _ hinfinite hne := absurd (hsign hinfinite) hne
  left_infinite _ _ _ := rfl
  right_infinite _ := by omega
  finite _ := by omega

/-- Infinities of opposite signs have no sum. -/
theorem SumOf.of_invalid (hp : fmt.IsInfinite p) (hq : fmt.IsInfinite q) (hsign : fmt.sign p ≠ s) :
    fmt.SumOf p q s fmt.indefinite where
  toPropagates := .of_not (indefinite_lt fmt) (by omega) (by omega)
  invalid _ _ _ := rfl
  left_infinite _ _ heq := absurd (heq hq) hsign
  right_infinite _ := by omega
  finite _ := by omega

/-- An infinity on the right is the sum of it and a finite number. -/
theorem SumOf.of_infinite_right (hp : fmt.IsFinite p) (hq : fmt.IsInfinite q) :
    fmt.SumOf p q s (fmt.pack s fmt.infinity) where
  toPropagates := .of_not (pack_lt (infinity_lt fmt)) (by omega) (by omega)
  invalid _ := by omega
  left_infinite _ := by omega
  right_infinite _ _ := rfl
  finite _ := by omega

/-- Finite operands are added exactly and rounded once. -/
theorem SumOf.of_finite (hlt : r < 2 ^ fmt.width) (hp : fmt.IsFinite p) (hq : fmt.IsFinite q)
    (h : fmt.Rounded (fmt.value p + fmt.signed s (fmt.magnitude q)) (fmt.sign p && s) r) :
    fmt.SumOf p q s r where
  toPropagates := .of_not hlt (by omega) (by omega)
  invalid _ := by omega
  left_infinite _ := by omega
  right_infinite _ := by omega
  finite _ _ := h

/-- A number with a sign is rounded without it. -/
theorem rounded_signed (hx : 0 ≤ x) (h : fmt.Nearest x m) :
    fmt.Rounded (if s then -x else x) s (fmt.pack s m) := by
  cases s
  · refine rounded_pack ?_ (fun _ => rfl) (fun hneg => ?_) (fun _ => rfl)
    · rwa [if_neg Bool.false_ne_true, abs_of_nonneg hx]
    · rw [if_neg Bool.false_ne_true] at hneg
      exact absurd hneg (not_lt.2 hx)
  · refine rounded_pack ?_ (fun hpos => ?_) (fun _ => rfl) (fun _ => rfl)
    · rwa [if_pos rfl, abs_neg, abs_of_nonneg hx]
    · rw [if_pos rfl] at hpos
      linarith

/-- Magnitudes of one sign are added. -/
theorem rounded_add (h : fmt.Nearest (fmt.number (fmt.magnitude p) + fmt.number (fmt.magnitude q)) m) :
    fmt.Rounded (fmt.value p + fmt.signed (fmt.sign p) (fmt.magnitude q))
      (fmt.sign p && fmt.sign p) (fmt.pack (fmt.sign p) m) := by
  have hrounded := rounded_signed (s := fmt.sign p)
    (add_nonneg (number_nonneg fmt _) (number_nonneg fmt _)) h
  have hsum : fmt.value p + fmt.signed (fmt.sign p) (fmt.magnitude q) =
      if fmt.sign p then -(fmt.number (fmt.magnitude p) + fmt.number (fmt.magnitude q))
      else fmt.number (fmt.magnitude p) + fmt.number (fmt.magnitude q) := by
    rw [value_eq_signed]
    unfold signed
    split
    · ring
    · rfl
  rwa [Bool.and_self, hsum]

/-- Of magnitudes with opposite signs the smaller one is subtracted. -/
theorem rounded_sub (hless : fmt.magnitude q < fmt.magnitude p)
    (h : fmt.Nearest (fmt.number (fmt.magnitude p) - fmt.number (fmt.magnitude q)) m) :
    fmt.Rounded (fmt.value p + fmt.signed (!fmt.sign p) (fmt.magnitude q))
      (fmt.sign p && !fmt.sign p) (fmt.pack (fmt.sign p) m) := by
  have hlt := number_strictMono fmt hless
  rw [value_eq_signed, signed_not]
  unfold signed
  cases fmt.sign p
  · rw [if_neg Bool.false_ne_true, if_neg Bool.false_ne_true]
    refine rounded_pack ?_ (fun _ => rfl) (fun hneg => ?_) (fun _ => rfl)
    · rwa [abs_of_nonneg (by linarith), ← sub_eq_add_neg]
    · linarith
  · rw [if_pos rfl, if_pos rfl]
    refine rounded_pack ?_ (fun hpos => ?_) (fun _ => rfl) (fun hzero => ?_)
    · rw [abs_of_nonpos (by linarith)]
      convert h using 1
      ring
    · linarith
    · linarith

/-- The difference has the sign of the larger operand. -/
theorem rounded_sub' (hless : fmt.magnitude p < fmt.magnitude q)
    (h : fmt.Nearest (fmt.number (fmt.magnitude q) - fmt.number (fmt.magnitude p)) m) :
    fmt.Rounded (fmt.value p + fmt.signed (!fmt.sign p) (fmt.magnitude q))
      (fmt.sign p && !fmt.sign p) (fmt.pack (!fmt.sign p) m) := by
  have hlt := number_strictMono fmt hless
  rw [value_eq_signed, signed_not]
  unfold signed
  cases fmt.sign p
  · rw [if_neg Bool.false_ne_true, if_neg Bool.false_ne_true]
    refine rounded_pack ?_ (fun hpos => ?_) (fun _ => rfl) (fun hzero => ?_)
    · rw [abs_of_nonpos (by linarith)]
      convert h using 1
      ring
    · linarith
    · linarith
  · rw [if_pos rfl, if_pos rfl]
    refine rounded_pack ?_ (fun _ => rfl) (fun hneg => ?_) (fun _ => rfl)
    · rw [abs_of_nonneg (by linarith)]
      convert h using 1
      ring
    · linarith

/-- An exact zero is positive. -/
theorem rounded_cancel (hsame : fmt.magnitude p = fmt.magnitude q) :
    fmt.Rounded (fmt.value p + fmt.signed (!fmt.sign p) (fmt.magnitude q))
      (fmt.sign p && !fmt.sign p) (fmt.pack false 0) := by
  have hzero : fmt.value p + fmt.signed (!fmt.sign p) (fmt.magnitude q) = 0 := by
    rw [value_eq_signed, signed_not, hsame, add_neg_cancel]
  rw [hzero]
  refine rounded_pack ?_ (fun _ => rfl) (fun hneg => absurd hneg (lt_irrefl _)) (fun _ => by simp)
  have hnearest : fmt.Nearest (fmt.number 0) 0 := nearest_number (Nat.zero_le fmt.infinity)
  rwa [number_zero, ← abs_zero] at hnearest

/-! ## Multiplication and division -/

variable (fmt) in
/-- `r` is the product of `p` and `q`. -/
structure ProductOf (p q r : Nat) : Prop extends fmt.Propagates p q r where
  invalid : fmt.IsInfinite p ∧ fmt.magnitude q = 0 ∨ fmt.magnitude p = 0 ∧ fmt.IsInfinite q →
    r = fmt.indefinite
  infinite : ¬fmt.IsNaN p → ¬fmt.IsNaN q → fmt.IsInfinite p ∨ fmt.IsInfinite q →
    fmt.magnitude p ≠ 0 → fmt.magnitude q ≠ 0 →
    r = fmt.pack (fmt.sign p ^^ fmt.sign q) fmt.infinity
  finite : fmt.IsFinite p → fmt.IsFinite q →
    fmt.Rounded (fmt.value p * fmt.value q) (fmt.sign p ^^ fmt.sign q) r

variable (fmt) in
/-- `r` is the quotient of `p` by `q`. -/
structure QuotientOf (p q r : Nat) : Prop extends fmt.Propagates p q r where
  invalid : fmt.IsInfinite p ∧ fmt.IsInfinite q ∨ fmt.magnitude p = 0 ∧ fmt.magnitude q = 0 →
    r = fmt.indefinite
  left_infinite : fmt.IsInfinite p → fmt.IsFinite q →
    r = fmt.pack (fmt.sign p ^^ fmt.sign q) fmt.infinity
  right_infinite : fmt.IsFinite p → fmt.IsInfinite q → r = fmt.pack (fmt.sign p ^^ fmt.sign q) 0
  by_zero : fmt.IsFinite p → fmt.magnitude p ≠ 0 → fmt.magnitude q = 0 →
    r = fmt.pack (fmt.sign p ^^ fmt.sign q) fmt.infinity
  finite : fmt.IsFinite p → fmt.IsFinite q → fmt.magnitude q ≠ 0 →
    fmt.Rounded (fmt.value p / fmt.value q) (fmt.sign p ^^ fmt.sign q) r

/-- The sign of a product is the exclusive or of the signs. -/
theorem value_mul_value (fmt : Format) (p q : Nat) : fmt.value p * fmt.value q =
    if fmt.sign p ^^ fmt.sign q then -(fmt.number (fmt.magnitude p) * fmt.number (fmt.magnitude q))
    else fmt.number (fmt.magnitude p) * fmt.number (fmt.magnitude q) := by
  unfold value
  cases fmt.sign p <;> cases fmt.sign q <;> simp

/-- So is that of a quotient. -/
theorem value_div_value (fmt : Format) (p q : Nat) : fmt.value p / fmt.value q =
    if fmt.sign p ^^ fmt.sign q then -(fmt.number (fmt.magnitude p) / fmt.number (fmt.magnitude q))
    else fmt.number (fmt.magnitude p) / fmt.number (fmt.magnitude q) := by
  unfold value
  cases fmt.sign p <;> cases fmt.sign q <;> simp [neg_div, div_neg]

/-- A NaN among the operands decides the product. -/
theorem ProductOf.of_nan (hnan : fmt.IsNaN p ∨ fmt.IsNaN q) (h : fmt.Propagates p q r) :
    fmt.ProductOf p q r where
  toPropagates := h
  invalid := by have := fmt.infinity_pos; omega
  infinite _ _ := by omega
  finite _ _ := by omega

/-- Zero times infinity has no product. -/
theorem ProductOf.of_invalid
    (h : fmt.IsInfinite p ∧ fmt.magnitude q = 0 ∨ fmt.magnitude p = 0 ∧ fmt.IsInfinite q) :
    fmt.ProductOf p q fmt.indefinite where
  toPropagates := .of_not (indefinite_lt fmt) (by omega) (by omega)
  invalid _ := rfl
  infinite _ _ _ := by omega
  finite _ _ := by omega

/-- Infinity times anything else that is no NaN is infinite. -/
theorem ProductOf.of_infinite (hp : ¬fmt.IsNaN p) (hq : ¬fmt.IsNaN q)
    (h : fmt.IsInfinite p ∨ fmt.IsInfinite q) (hpne : fmt.magnitude p ≠ 0)
    (hqne : fmt.magnitude q ≠ 0) :
    fmt.ProductOf p q (fmt.pack (fmt.sign p ^^ fmt.sign q) fmt.infinity) where
  toPropagates := .of_not (pack_lt (infinity_lt fmt)) hp hq
  invalid := by omega
  infinite _ _ _ _ _ := rfl
  finite _ _ := by omega

/-- Finite operands are multiplied exactly and rounded once. -/
theorem ProductOf.of_finite (hp : fmt.IsFinite p) (hq : fmt.IsFinite q)
    (h : fmt.Nearest (fmt.number (fmt.magnitude p) * fmt.number (fmt.magnitude q)) m) :
    fmt.ProductOf p q (fmt.pack (fmt.sign p ^^ fmt.sign q) m) where
  toPropagates := .of_not h.pack_lt (by omega) (by omega)
  invalid := by omega
  infinite _ _ := by omega
  finite _ _ := by
    rw [value_mul_value]
    exact rounded_signed (mul_nonneg (number_nonneg fmt _) (number_nonneg fmt _)) h

/-- A NaN among the operands decides the quotient. -/
theorem QuotientOf.of_nan (hnan : fmt.IsNaN p ∨ fmt.IsNaN q) (h : fmt.Propagates p q r) :
    fmt.QuotientOf p q r where
  toPropagates := h
  invalid := by omega
  left_infinite _ := by omega
  right_infinite _ := by omega
  by_zero _ := by omega
  finite _ _ := by omega

/-- Neither infinities nor zeros have a quotient. -/
theorem QuotientOf.of_invalid
    (h : fmt.IsInfinite p ∧ fmt.IsInfinite q ∨ fmt.magnitude p = 0 ∧ fmt.magnitude q = 0) :
    fmt.QuotientOf p q fmt.indefinite where
  toPropagates := .of_not (indefinite_lt fmt) (by omega) (by omega)
  invalid _ := rfl
  left_infinite _ := by omega
  right_infinite _ := by omega
  by_zero _ := by omega
  finite _ _ := by omega

/-- An infinity divided, or a number divided by zero, is infinite. -/
theorem QuotientOf.of_infinite (hq : fmt.IsFinite q)
    (h : fmt.IsInfinite p ∨ fmt.IsFinite p ∧ fmt.magnitude p ≠ 0 ∧ fmt.magnitude q = 0) :
    fmt.QuotientOf p q (fmt.pack (fmt.sign p ^^ fmt.sign q) fmt.infinity) where
  toPropagates := .of_not (pack_lt (infinity_lt fmt)) (by omega) (by omega)
  invalid := by omega
  left_infinite _ _ := rfl
  right_infinite _ := by omega
  by_zero _ _ _ := rfl
  finite _ _ := by omega

/-- A finite number divided by infinity is zero. -/
theorem QuotientOf.of_right_infinite (hp : fmt.IsFinite p) (hq : fmt.IsInfinite q) :
    fmt.QuotientOf p q (fmt.pack (fmt.sign p ^^ fmt.sign q) 0) where
  toPropagates := .of_not (pack_lt (Nat.two_pow_pos _)) (by omega) (by omega)
  invalid := by omega
  left_infinite _ := by omega
  right_infinite _ _ := rfl
  by_zero _ := by omega
  finite _ := by omega

/-- Finite operands are divided exactly and rounded once. -/
theorem QuotientOf.of_finite (hp : fmt.IsFinite p) (hq : fmt.IsFinite q)
    (hne : fmt.magnitude q ≠ 0)
    (h : fmt.Nearest (fmt.number (fmt.magnitude p) / fmt.number (fmt.magnitude q)) m) :
    fmt.QuotientOf p q (fmt.pack (fmt.sign p ^^ fmt.sign q) m) where
  toPropagates := .of_not h.pack_lt (by omega) (by omega)
  invalid := by omega
  left_infinite _ := by omega
  right_infinite _ := by omega
  by_zero _ := by omega
  finite _ _ _ := by
    rw [value_div_value]
    exact rounded_signed (div_nonneg (number_nonneg fmt _) (number_nonneg fmt _)) h

/-! ## Formats of different widths -/

/-- The magnitude of a quiet NaN with the payload of `p`, of which the first bits are kept. -/
def quietPayload (fmt fmt' : Format) (p : Nat) : Nat :=
  fmt'.infinity +
    (2 ^ (fmt'.fracBits - 1) ||| fmt.fraction p * 2 ^ fmt'.fracBits / 2 ^ fmt.fracBits)

/-- `r` is the conversion of `p` from one format to another. -/
structure ConversionOf (fmt fmt' : Format) (p r : Nat) : Prop where
  nan : fmt.IsNaN p → r = fmt'.pack (fmt.sign p) (quietPayload fmt fmt' p)
  infinite : fmt.IsInfinite p → r = fmt'.pack (fmt.sign p) fmt'.infinity
  finite : fmt.IsFinite p →
    ∃ m, fmt'.Nearest (fmt.number (fmt.magnitude p)) m ∧ r = fmt'.pack (fmt.sign p) m

section Payload

variable {fmt fmt' : Format} {p r x : Nat}

/-- The parts of a NaN, put together by their bits. -/
theorem pack_infinity_add (fmt : Format) (s : Bool) (hx : x < 2 ^ fmt.fracBits) :
    fmt.pack s (fmt.infinity + x) = s.toNat <<< fmt.magnitudeBits ||| fmt.infinity ||| x := by
  have hlt := infinity_add_lt fmt hx
  rw [pack, Nat.mul_comm, Nat.two_pow_add_eq_or_of_lt hlt, Nat.mul_comm, ← Nat.shiftLeft_eq, infinity,
    Nat.mul_comm, Nat.two_pow_add_eq_or_of_lt hx, Nat.or_assoc]

theorem fraction_pack (fmt : Format) (s : Bool) (hx : x < 2 ^ fmt.fracBits) :
    fmt.fraction (fmt.pack s (fmt.infinity + x)) = x := by
  rw [fraction, magnitude_pack (infinity_add_lt fmt hx), infinity, Nat.mul_comm, Nat.mul_add_mod,
    Nat.mod_eq_of_lt hx]

/-- The payload of a NaN in the other format, its quiet bit set, is a fraction there. -/
theorem payload_lt (fmt fmt' : Format) (p : Nat) :
    2 ^ (fmt'.fracBits - 1) ||| fmt.fraction p * 2 ^ fmt'.fracBits / 2 ^ fmt.fracBits <
      2 ^ fmt'.fracBits := by
  refine Nat.or_lt_two_pow (quietBit_lt fmt') ?_
  rw [Nat.div_lt_iff_lt_mul (Nat.two_pow_pos _), Nat.mul_comm]
  exact Nat.mul_lt_mul_of_pos_left (fraction_lt fmt p) (Nat.two_pow_pos _)

theorem quietPayload_lt (fmt fmt' : Format) (p : Nat) :
    quietPayload fmt fmt' p < 2 ^ fmt'.magnitudeBits :=
  infinity_add_lt fmt' (payload_lt fmt fmt' p)

/-- A conversion is a pattern of the other format. -/
theorem ConversionOf.lt (h : ConversionOf fmt fmt' p r) : r < 2 ^ fmt'.width := by
  rcases Nat.lt_trichotomy (fmt.magnitude p) fmt.infinity with hfinite | hinfinite | hnan
  · obtain ⟨m, hnearest, hr⟩ := h.finite hfinite
    exact hr ▸ hnearest.pack_lt
  · exact h.infinite hinfinite ▸ pack_lt (infinity_lt fmt')
  · exact h.nan hnan ▸ pack_lt (quietPayload_lt fmt fmt' p)

/-- The conversion of a NaN is a quiet one. -/
theorem ConversionOf.isQuiet (h : ConversionOf fmt fmt' p r) (hnan : fmt.IsNaN p) :
    fmt'.IsNaN r ∧ fmt'.IsQuiet r := by
  have hlt := payload_lt fmt fmt' p
  have hpos : 0 < 2 ^ (fmt'.fracBits - 1) ||| fmt.fraction p * 2 ^ fmt'.fracBits / 2 ^ fmt.fracBits :=
    Nat.lt_of_lt_of_le (Nat.two_pow_pos _) Nat.left_le_or
  rw [h.nan hnan]
  constructor
  · rw [IsNaN, quietPayload, magnitude_pack (infinity_add_lt fmt' hlt)]
    omega
  · rw [IsQuiet, quietPayload, pack_infinity_add fmt' _ hlt, Nat.testBit_or, Nat.testBit_or,
      Nat.testBit_or (2 ^ _), Nat.testBit_two_pow_self, Bool.true_or, Bool.or_true]

/-- To make a NaN quiet is to set the top bit of its fraction. -/
theorem quiet_eq_pack (hp : p < 2 ^ fmt.width) (hnan : fmt.IsNaN p) :
    fmt.quiet p =
      fmt.pack (fmt.sign p) (fmt.infinity + (2 ^ (fmt.fracBits - 1) ||| fmt.fraction p)) := by
  have hlt := fraction_lt fmt p
  obtain ⟨hexp, -⟩ := isNaN_iff.1 hnan
  have hsplit := exponent_mul_add_fraction fmt p
  rw [hexp, ← infinity_eq_mul] at hsplit
  rw [pack_infinity_add fmt _ (Nat.or_lt_two_pow (quietBit_lt fmt) hlt),
    Nat.or_comm (2 ^ (fmt.fracBits - 1)), ← Nat.or_assoc, ← pack_infinity_add fmt _ hlt, hsplit,
    pack_sign_magnitude hp, quiet]

/-- A NaN that goes to a format with more bits and comes back is the same but for being quiet. -/
theorem quietPayload_quietPayload (hle : fmt.fracBits ≤ fmt'.fracBits) (s : Bool) (p : Nat) :
    quietPayload fmt' fmt (fmt'.pack s (quietPayload fmt fmt' p)) =
      fmt.infinity + (2 ^ (fmt.fracBits - 1) ||| fmt.fraction p) := by
  obtain ⟨d, hd⟩ := Nat.exists_eq_add_of_le hle
  have hpos := fmt.fracBits_pos
  have hwide : ∀ x, x * 2 ^ fmt'.fracBits / 2 ^ fmt.fracBits = x * 2 ^ d := fun x => by
    rw [hd, Nat.pow_add, Nat.mul_left_comm, Nat.mul_div_cancel_left _ (Nat.two_pow_pos _)]
  have hnarrow : ∀ x, x * 2 ^ fmt.fracBits / 2 ^ fmt'.fracBits = x / 2 ^ d := fun x => by
    rw [hd, Nat.pow_add, Nat.mul_comm, Nat.mul_div_mul_left _ _ (Nat.two_pow_pos _)]
  have hquiet : 2 ^ (fmt'.fracBits - 1) = 2 ^ (fmt.fracBits - 1) * 2 ^ d := by
    rw [hd, ← Nat.pow_add]
    congr 1
    omega
  have hlt := payload_lt fmt fmt' p
  rw [quietPayload, quietPayload, fraction_pack fmt' s hlt, hnarrow, hwide, hquiet, ← Nat.shiftLeft_eq,
    ← Nat.shiftLeft_eq, ← Nat.shiftLeft_or_distrib, Nat.shiftLeft_eq,
    Nat.mul_div_cancel _ (Nat.two_pow_pos _), ← Nat.or_assoc, Nat.or_self]

end Payload

end Format

end Ieee
