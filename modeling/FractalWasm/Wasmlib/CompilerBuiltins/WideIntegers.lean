import FractalWasm.Wasmlib.CompilerBuiltins.Calls
import Mathlib.Tactic.Ring

/-!
# Integers of 128 bits

The shifts and divisions of `compiler_builtins`. Each is given its operands in halves, charges for
itself, puts the operands together on its own and writes the result through a reference.

**Arithmetic** (`shiftAmount`, `signedDiv` and its companions): operators at 128 bits, with what the
language leaves undefined: a shift by the width or more, and the quotient that overflows.

**Methods**: each in the order of its source, with the halves put together as written there. Three
of the four shifts move the upper half the wrong way.

**Results**: a shift is right exactly if the misplaced half does not show (`shiftLeft_eq_iff`,
`shiftRight_eq_iff`); divisions, `Divides`, are right but for the quotient that overflows.
-/

namespace FractalWasm

namespace CompilerBuiltins

open Api

/-! ## Arithmetic -/

/-- The amount of a shift, which has to be less than the width. -/
def shiftAmount (shift : UInt32) : Builtin Nat :=
  if shift < 128 then pure shift.toNat else throw .oversizedShift

/-- `lhs / rhs` in `__int128`. -/
def signedDiv (lhs rhs : BitVec 128) : Builtin (BitVec 128) :=
  if rhs = 0 then throw .divisionByZero
  else if lhs = .intMin 128 ∧ rhs = -1 then throw .signedOverflow
  else pure (lhs.sdiv rhs)

/-- `lhs % rhs` in `__int128`, which overflows where the quotient does. -/
def signedMod (lhs rhs : BitVec 128) : Builtin (BitVec 128) :=
  if rhs = 0 then throw .divisionByZero
  else if lhs = .intMin 128 ∧ rhs = -1 then throw .signedOverflow
  else pure (lhs.srem rhs)

def unsignedDiv (lhs rhs : BitVec 128) : Builtin (BitVec 128) :=
  if rhs = 0 then throw .divisionByZero else pure (lhs / rhs)

def unsignedMod (lhs rhs : BitVec 128) : Builtin (BitVec 128) :=
  if rhs = 0 then throw .divisionByZero else pure (lhs % rhs)

/-! ## The methods -/

def ashlti3 (low high : UInt64) (shift : UInt32) : Builtin Unit := do
  useGas gasCallBase
  let i := (wide high >>> 64) ||| wide low
  store (i <<< (← shiftAmount shift))

def ashrti3 (low high : UInt64) (shift : UInt32) : Builtin Unit := do
  useGas gasCallBase
  -- retain the signedness
  store (wide high)
  store ((← get).ret <<< 64)
  store ((← get).ret ||| wide low)
  store ((← get).ret.sshiftRight (← shiftAmount shift))

def lshlti3 (low high : UInt64) (shift : UInt32) : Builtin Unit := do
  useGas gasCallBase
  let i := (wide high >>> 64) ||| wide low
  store (i <<< (← shiftAmount shift))

def lshrti3 (low high : UInt64) (shift : UInt32) : Builtin Unit := do
  useGas gasCallBase
  let i := (wide high >>> 64) ||| wide low
  store (i >>> (← shiftAmount shift))

def divti3 (la ha lb hb : UInt64) : Builtin Unit := do
  useGas gasCallBase
  let lhs := wide ha <<< 64 ||| wide la
  let rhs := wide hb <<< 64 ||| wide lb
  assertion (rhs != 0) .arithmetic "divide by zero"
  store (← signedDiv lhs rhs)

def udivti3 (la ha lb hb : UInt64) : Builtin Unit := do
  useGas gasCallBase
  let lhs := wide ha <<< 64 ||| wide la
  let rhs := wide hb <<< 64 ||| wide lb
  assertion (rhs != 0) .arithmetic "divide by zero"
  store (← unsignedDiv lhs rhs)

def modti3 (la ha lb hb : UInt64) : Builtin Unit := do
  useGas gasCallBase
  let lhs := wide ha <<< 64 ||| wide la
  let rhs := wide hb <<< 64 ||| wide lb
  assertion (rhs != 0) .arithmetic "divide by zero"
  store (← signedMod lhs rhs)

def umodti3 (la ha lb hb : UInt64) : Builtin Unit := do
  useGas gasCallBase
  let lhs := wide ha <<< 64 ||| wide la
  let rhs := wide hb <<< 64 ||| wide lb
  assertion (rhs != 0) .arithmetic "divide by zero"
  store (← unsignedMod lhs rhs)

/-! ## Shifts -/

section Shifts

variable {low high : UInt64} {shift : UInt32} (hshift : shift < 128)

include hshift

theorem ashlti3_stores : Stores (ashlti3 low high shift) (wide low <<< shift.toNat) := by
  intro frame
  rw [ashlti3, useGas_bind]
  simp only [shiftRight_or, shiftAmount, if_pos hshift]
  rfl

theorem lshlti3_stores : Stores (lshlti3 low high shift) (wide low <<< shift.toNat) :=
  ashlti3_stores hshift

theorem lshrti3_stores : Stores (lshrti3 low high shift) (wide low >>> shift.toNat) := by
  intro frame
  rw [lshrti3, useGas_bind]
  simp only [shiftRight_or, shiftAmount, if_pos hshift]
  rfl

theorem ashrti3_stores :
    Stores (ashrti3 low high shift) ((assembled low high).sshiftRight shift.toNat) := by
  intro frame
  rw [ashrti3, useGas_bind]
  simp only [shiftAmount, if_pos hshift]
  rfl

end Shifts

/-- The left shifts lose what the high half leaves below bit 128. -/
theorem shiftLeft_eq_iff {low high : UInt64} {n : Nat} :
    wide low <<< n = BitVec.ofNat 128 (unsignedValue low high * 2 ^ n) ↔
      2 ^ 64 ∣ high.toNat * 2 ^ n := by
  have hsplit : unsignedValue low high * 2 ^ n =
      low.toNat * 2 ^ n + 2 ^ 64 * (high.toNat * 2 ^ n) := by
    rw [unsignedValue]
    ring
  have hwidth : (2 : Nat) ^ 128 = 2 ^ 64 * 2 ^ 64 := by rw [← Nat.pow_add]
  rw [← BitVec.toNat_inj, BitVec.toNat_shiftLeft, BitVec.toNat_ofNat, toNat_wide, Nat.shiftLeft_eq,
    hsplit, ← Nat.mul_dvd_mul_iff_left (Nat.two_pow_pos 64), ← hwidth]
  constructor
  · intro h
    have hzero := Nat.sub_mod_eq_zero_of_mod_eq h.symm
    rw [Nat.add_sub_cancel_left] at hzero
    exact Nat.dvd_of_mod_eq_zero hzero
  · intro h
    rw [Nat.add_mod, Nat.mod_eq_zero_of_dvd h, Nat.add_zero, Nat.mod_mod]

/-- The logical right shift loses what the high half leaves. -/
theorem shiftRight_eq_iff {low high : UInt64} {n : Nat} :
    wide low >>> n = BitVec.ofNat 128 (unsignedValue low high / 2 ^ n) ↔
      high.toNat < 2 ^ (n - 64) := by
  have hlow := low.toNat_lt
  have hhigh := high.toNat_lt
  have hfits : unsignedValue low high / 2 ^ n < 2 ^ 128 :=
    Nat.lt_of_le_of_lt (Nat.div_le_self _ _) (by rw [unsignedValue]; omega)
  rw [← BitVec.toNat_inj, BitVec.toNat_ushiftRight, BitVec.toNat_ofNat, toNat_wide,
    Nat.shiftRight_eq_div_pow, Nat.mod_eq_of_lt hfits, unsignedValue]
  rcases Nat.le_total n 64 with hle | hle
  · have hpow : (2 : Nat) ^ 64 = 2 ^ (64 - n) * 2 ^ n := by
      rw [← Nat.pow_add, Nat.sub_add_cancel hle]
    rw [hpow, ← Nat.mul_assoc, Nat.mul_comm _ (2 ^ n), Nat.mul_add_div (Nat.two_pow_pos n),
      Nat.sub_eq_zero_of_le hle, Nat.pow_zero]
    have hpos := Nat.two_pow_pos (64 - n)
    constructor
    · intro h
      have hzero : high.toNat * 2 ^ (64 - n) = 0 := by omega
      have := (Nat.mul_eq_zero.1 hzero).resolve_right (Nat.ne_of_gt hpos)
      omega
    · intro h
      rw [show high.toNat = 0 by omega, Nat.zero_mul, Nat.zero_add]
  · have hpow : (2 : Nat) ^ n = 2 ^ 64 * 2 ^ (n - 64) := by
      rw [← Nat.pow_add, Nat.add_sub_cancel' hle]
    have hzero : low.toNat / 2 ^ n = 0 :=
      Nat.div_eq_of_lt (Nat.lt_of_lt_of_le hlow (Nat.pow_le_pow_right (by omega) hle))
    rw [hzero, hpow, ← Nat.div_div_eq_div_mul, Nat.mul_comm, Nat.mul_add_div (Nat.two_pow_pos 64),
      Nat.div_eq_of_lt hlow, Nat.add_zero, eq_comm,
      Nat.div_eq_zero_iff_lt (Nat.two_pow_pos _)]

/-- **The shifts, and the lost half.** The arithmetic right shift is the shift of the signed number.
The left shifts are those of the number exactly if the high half leaves it, and the logical right
shift exactly if the high half is shifted out. -/
theorem shifts_iff {low high : UInt64} {shift : UInt32} (hshift : shift < 128) :
    (Stores (ashlti3 low high shift)
        (BitVec.ofNat 128 (unsignedValue low high * 2 ^ shift.toNat)) ↔
      2 ^ 64 ∣ high.toNat * 2 ^ shift.toNat) ∧
    (Stores (lshlti3 low high shift)
        (BitVec.ofNat 128 (unsignedValue low high * 2 ^ shift.toNat)) ↔
      2 ^ 64 ∣ high.toNat * 2 ^ shift.toNat) ∧
    (Stores (lshrti3 low high shift)
        (BitVec.ofNat 128 (unsignedValue low high / 2 ^ shift.toNat)) ↔
      high.toNat < 2 ^ (shift.toNat - 64)) ∧
    Stores (ashrti3 low high shift) (BitVec.ofInt 128 (signedValue low high / 2 ^ shift.toNat)) := by
  refine ⟨?_, ?_, ?_, ?_⟩
  · rw [stores_iff (ashlti3_stores hshift), shiftLeft_eq_iff]
  · rw [stores_iff (lshlti3_stores hshift), shiftLeft_eq_iff]
  · rw [stores_iff (lshrti3_stores hshift), shiftRight_eq_iff]
  · rw [stores_iff (ashrti3_stores hshift), ← BitVec.ofInt_toInt (x := (assembled low high).sshiftRight
      shift.toNat), BitVec.toInt_sshiftRight, toInt_assembled, Int.shiftRight_eq_div_pow]
    push_cast
    rfl

theorem shifts_iff_sample :
    Stores (ashrti3 0 0x8000000000000000 4) (BitVec.ofInt 128 (-2 ^ 123)) :=
  (@shifts_iff 0 0x8000000000000000 4 (by decide)).2.2.2

/-- One in the high half is lost in a shift by nothing. -/
theorem high_half_lost :
    ashlti3 0 1 0 ⟨gasCallBase, 0⟩ = .ok () ⟨0, 0⟩ ∧
      ¬Stores (ashlti3 0 1 0) (BitVec.ofNat 128 (unsignedValue 0 1 * 2 ^ (0 : UInt32).toNat)) := by
  refine ⟨rfl, fun h => ?_⟩
  exact absurd ((stores_iff (ashlti3_stores (by decide))).1 h) (by decide)

/-! ## Divisions -/

/-- A method that refuses to divide by zero. -/
theorem checked_bind {α : Type} (rhs : BitVec 128) (builtin : Unit → Builtin α) (frame : Frame) :
    (assertion (rhs != 0) .arithmetic "divide by zero" >>= builtin) frame =
      if rhs = 0 then .error (.thrown (.ftl .arithmetic "divide by zero")) frame
      else builtin () frame := by
  by_cases h : rhs = 0
  · subst h
    rfl
  · have hne : (rhs != 0) = true := bne_iff_ne.2 h
    simp only [assertion, ftlAssert, hne, if_true, if_neg h]
    rfl

/-- The assembled operands, charged for and checked, then divided. -/
def division (operation : BitVec 128 → BitVec 128 → Builtin (BitVec 128)) (la ha lb hb : UInt64) :
    Builtin Unit := do
  useGas gasCallBase
  assertion (assembled lb hb != 0) .arithmetic "divide by zero"
  store (← operation (assembled la ha) (assembled lb hb))

/-- The law of a division and its remainder, of the numbers `a` and `b`, for any gas: by zero both
throw and store nothing, otherwise they store a quotient and a remainder. -/
def Divides (div mod : Builtin Unit) (number : BitVec 128 → Int) (a b : Int) : Prop :=
  if b = 0 then
    ∀ frame, (∃ e left, div frame = .error (.thrown e) ⟨left, frame.ret⟩) ∧
      ∃ e left, mod frame = .error (.thrown e) ⟨left, frame.ret⟩
  else
    ∃ q r, Stores div q ∧ Stores mod r ∧ a = number q * b + number r ∧
      (number r).natAbs < b.natAbs ∧ (number r = 0 ∨ (number r).sign = a.sign)

theorem division_of_zero (operation : BitVec 128 → BitVec 128 → Builtin (BitVec 128))
    {la ha lb hb : UInt64} (hzero : assembled lb hb = 0) (frame : Frame) :
    ∃ e left, division operation la ha lb hb frame = .error (.thrown e) ⟨left, frame.ret⟩ := by
  unfold division
  rw [useGas_bind]
  split
  · exact ⟨_, _, rfl⟩
  · rw [checked_bind, if_pos hzero]
    exact ⟨_, _, rfl⟩

theorem division_stores {operation : BitVec 128 → BitVec 128 → Builtin (BitVec 128)}
    {la ha lb hb : UInt64} {value : BitVec 128} (hne : assembled lb hb ≠ 0)
    (hvalue : operation (assembled la ha) (assembled lb hb) = pure value) :
    Stores (division operation la ha lb hb) value := by
  intro frame
  unfold division
  rw [useGas_bind]
  simp only [checked_bind, if_neg hne, hvalue]
  rfl

section Divisions

variable (la ha lb hb : UInt64)

theorem divti3_eq : divti3 la ha lb hb = division signedDiv la ha lb hb := rfl

theorem modti3_eq : modti3 la ha lb hb = division signedMod la ha lb hb := rfl

theorem udivti3_eq : udivti3 la ha lb hb = division unsignedDiv la ha lb hb := rfl

theorem umodti3_eq : umodti3 la ha lb hb = division unsignedMod la ha lb hb := rfl

theorem assembled_eq_zero : assembled lb hb = 0 ↔ unsignedValue lb hb = 0 := by
  rw [← BitVec.toNat_inj, toNat_assembled]
  rfl

theorem assembled_eq_zero_signed : assembled lb hb = 0 ↔ signedValue lb hb = 0 := by
  rw [← BitVec.toInt_inj, toInt_assembled]
  rfl

/-- The pair of operands whose quotient is no signed number. -/
theorem overflow_iff : assembled la ha = .intMin 128 ∧ assembled lb hb = -1 ↔
    signedValue la ha = -2 ^ 127 ∧ signedValue lb hb = -1 := by
  rw [← BitVec.toInt_inj, ← BitVec.toInt_inj, toInt_assembled, toInt_assembled]
  rfl

theorem udivides : Divides (udivti3 la ha lb hb) (umodti3 la ha lb hb)
    (fun v => (v.toNat : Int)) (unsignedValue la ha) (unsignedValue lb hb) := by
  rw [udivti3_eq, umodti3_eq]
  unfold Divides
  split
  · next hzero =>
    have hassembled := (assembled_eq_zero lb hb).2 (by omega)
    exact fun frame => ⟨division_of_zero _ hassembled frame, division_of_zero _ hassembled frame⟩
  · next hne =>
    have hassembled := mt (assembled_eq_zero lb hb).1 (by omega)
    have hlhs : (assembled la ha).toNat = unsignedValue la ha := toNat_assembled la ha
    have hrhs : (assembled lb hb).toNat = unsignedValue lb hb := toNat_assembled lb hb
    refine ⟨_, _, division_stores hassembled (by rw [unsignedDiv, if_neg hassembled]),
      division_stores hassembled (by rw [unsignedMod, if_neg hassembled]), ?_, ?_, ?_⟩
    · dsimp only
      rw [BitVec.toNat_udiv, BitVec.toNat_umod, hlhs, hrhs]
      exact_mod_cast (Nat.div_add_mod' _ _).symm
    · dsimp only
      rw [BitVec.toNat_umod, hlhs, hrhs, Int.natAbs_natCast, Int.natAbs_natCast]
      exact Nat.mod_lt _ (by omega)
    · dsimp only
      rw [BitVec.toNat_umod, hlhs, hrhs]
      rcases Nat.eq_zero_or_pos (unsignedValue la ha % unsignedValue lb hb) with hr | hr
      · exact .inl (by exact_mod_cast hr)
      · have hle := Nat.mod_le (unsignedValue la ha) (unsignedValue lb hb)
        rw [Int.sign_eq_one_of_pos (by omega), Int.sign_eq_one_of_pos (by omega)]
        exact .inr rfl

theorem divides_iff : Divides (divti3 la ha lb hb) (modti3 la ha lb hb) BitVec.toInt
    (signedValue la ha) (signedValue lb hb) ↔
      ¬(signedValue la ha = -2 ^ 127 ∧ signedValue lb hb = -1) := by
  rw [divti3_eq, modti3_eq]
  unfold Divides
  split
  · next hzero =>
    have hassembled := (assembled_eq_zero_signed lb hb).2 hzero
    refine iff_of_true (fun frame => ⟨division_of_zero _ hassembled frame,
      division_of_zero _ hassembled frame⟩) ?_
    rw [hzero]
    omega
  · next hne =>
    have hassembled := mt (assembled_eq_zero_signed lb hb).1 hne
    rw [← overflow_iff]
    constructor
    · rintro ⟨q, -, hq, -⟩ hoverflow
      have hstored := hq ⟨gasCallBase, 0⟩
      unfold division at hstored
      rw [useGas_bind, if_neg (by decide), if_neg (by decide), checked_bind, if_neg hassembled]
        at hstored
      simp only [signedDiv, if_neg hassembled, if_pos hoverflow] at hstored
      cases hstored
    · intro hfits
      have hlhs := toInt_assembled la ha
      have hrhs := toInt_assembled lb hb
      have hdiv := BitVec.toInt_sdiv_of_ne_or_ne _ _ (not_and_or.1 hfits)
      refine ⟨_, _, division_stores hassembled (by rw [signedDiv, if_neg hassembled, if_neg hfits]),
        division_stores hassembled (by rw [signedMod, if_neg hassembled, if_neg hfits]), ?_, ?_, ?_⟩
      · rw [hdiv, BitVec.toInt_srem, hlhs, hrhs, Int.tdiv_mul_add_tmod]
      · rw [BitVec.toInt_srem, hlhs, hrhs, Int.natAbs_tmod]
        exact Nat.mod_lt _ (Int.natAbs_pos.2 hne)
      · rw [BitVec.toInt_srem, hlhs, hrhs, Int.sign_tmod]
        split
        · next hdvd => exact .inl (Int.tmod_eq_zero_of_dvd hdvd)
        · exact .inr rfl

end Divisions

/-- **The divisions, and the quotient that overflows.** The unsigned division and remainder follow
the law of division for all operands. The signed ones do for all but the least number divided by minus
one, which overflows. -/
theorem divisions_iff (la ha lb hb : UInt64) :
    (Divides (divti3 la ha lb hb) (modti3 la ha lb hb) BitVec.toInt (signedValue la ha)
        (signedValue lb hb) ↔
      ¬(signedValue la ha = -2 ^ 127 ∧ signedValue lb hb = -1)) ∧
    Divides (udivti3 la ha lb hb) (umodti3 la ha lb hb) (fun v => (v.toNat : Int))
      (unsignedValue la ha) (unsignedValue lb hb) :=
  ⟨divides_iff la ha lb hb, udivides la ha lb hb⟩

/-- Both signed methods overflow. -/
theorem least_by_minus_one_overflows :
    divti3 0 0x8000000000000000 0xFFFFFFFFFFFFFFFF 0xFFFFFFFFFFFFFFFF ⟨100, 0⟩ =
        .error .signedOverflow ⟨0, 0⟩ ∧
      modti3 0 0x8000000000000000 0xFFFFFFFFFFFFFFFF 0xFFFFFFFFFFFFFFFF ⟨100, 0⟩ =
        .error .signedOverflow ⟨0, 0⟩ ∧
      ¬Divides (divti3 0 0x8000000000000000 0xFFFFFFFFFFFFFFFF 0xFFFFFFFFFFFFFFFF)
        (modti3 0 0x8000000000000000 0xFFFFFFFFFFFFFFFF 0xFFFFFFFFFFFFFFFF) BitVec.toInt
        (signedValue 0 0x8000000000000000)
        (signedValue 0xFFFFFFFFFFFFFFFF 0xFFFFFFFFFFFFFFFF) :=
  ⟨rfl, rfl, fun h => (divides_iff _ _ _ _).1 h (by decide)⟩

end CompilerBuiltins

end FractalWasm
