import FractalWasm.Wasmlib.ApiEffects
import FractalWasm.Wasmlib.GasSoundness

/-!
# The methods of `compiler_builtins`

A method charges for itself, reads the halves of its operands and either returns a number or writes
it through a reference.

**Calls** (`Builtin`): a computation over the gas that is left and the bytes behind the reference,
which may stop by an exception of the chain or by undefined behaviour.

**Charges** (`useGas`): a call without the gas stops before it reads or writes anything.

**Halves** (`wide`, `assembled`): an operand of 128 bits comes as two of 64, as a signed or an
unsigned number.
-/

namespace FractalWasm

namespace CompilerBuiltins

open Api

/-! ## Calls -/

/-- The gas meter, and the bytes the reference `ret` stands for. -/
structure Frame where
  remainedGas : UInt64
  ret : BitVec 128
  deriving DecidableEq

/-- What keeps a method from returning. C++ leaves open what happens in all cases but the first. -/
inductive Stop where
  | thrown (exception : Exception)
  | signedOverflow
  | divisionByZero
  | oversizedShift
  deriving DecidableEq

abbrev Builtin := EStateM Stop Frame

/-- `context.use_gas` -/
def useGas (gas : UInt64) : Builtin Unit := fun frame =>
  match WasmInjections.useGas frame.remainedGas gas with
  | .error e => .error (.thrown e) frame
  | .ok left => .ok () { frame with remainedGas := left }

/-- `FTL_ASSERT` -/
def assertion (expr : Bool) (kind : FtlException) (what : String) : Builtin Unit :=
  match ftlAssert expr kind what with
  | .error e => throw (.thrown e)
  | .ok () => pure ()

def store (value : BitVec 128) : Builtin Unit := modify ({ · with ret := value })

/-- A half, converted without sign. -/
def wide (half : UInt64) : BitVec 128 := half.toBitVec.setWidth 128

/-! ## Charges -/

def gasLimitExceeded : Stop := .thrown (.ftl .wasmRuntime "gas limit exceeded")

/-- A method that charges first does nothing else without the gas. -/
theorem useGas_bind {α : Type} (builtin : Unit → Builtin α) (frame : Frame) :
    (useGas gasCallBase >>= builtin) frame =
      if frame.remainedGas < gasCallBase then .error gasLimitExceeded frame
      else builtin () { frame with remainedGas := frame.remainedGas - gasCallBase } := by
  by_cases h : frame.remainedGas < gasCallBase
  · simp [bind, EStateM.bind, useGas, WasmInjections.useGas, h, gasLimitExceeded]
  · simp [bind, EStateM.bind, useGas, WasmInjections.useGas, h]

/-- The method charges and stores a value, or throws for want of gas and stores nothing. -/
def Stores (builtin : Builtin Unit) (value : BitVec 128) : Prop :=
  ∀ frame : Frame, builtin frame =
    if frame.remainedGas < gasCallBase then .error gasLimitExceeded frame
    else .ok () ⟨frame.remainedGas - gasCallBase, value⟩

theorem stores_iff {builtin : Builtin Unit} {value value' : BitVec 128}
    (h : Stores builtin value) : Stores builtin value' ↔ value = value' := by
  constructor
  · intro h'
    have heq := (h ⟨gasCallBase, 0⟩).symm.trans (h' ⟨gasCallBase, 0⟩)
    simpa using heq
  · rintro rfl
    exact h

/-- The method takes `price` from the meter and returns `value`, or throws for want of gas. -/
def Returns {α : Type} (builtin : Builtin α) (price : Nat) (value : α) : Prop :=
  ∀ frame : Frame,
    (price ≤ frame.remainedGas.toNat → ∃ left : UInt64,
      left.toNat + price = frame.remainedGas.toNat ∧ builtin frame = .ok value ⟨left, frame.ret⟩) ∧
    (frame.remainedGas.toNat < price → ∃ left : UInt64,
      builtin frame = .error gasLimitExceeded ⟨left, frame.ret⟩)

theorem returns_pure {α : Type} (value : α) : Returns (pure value) 0 value := fun frame =>
  ⟨fun _ => ⟨frame.remainedGas, rfl, rfl⟩, fun h => absurd h (Nat.not_lt_zero _)⟩

theorem Returns.bind {α β : Type} {builtin : Builtin α} {next : α → Builtin β} {price price' : Nat}
    {value : α} {value' : β} (h : Returns builtin price value)
    (h' : Returns (next value) price' value') :
    Returns (builtin >>= next) (price + price') value' := by
  intro frame
  simp only [Bind.bind, EStateM.bind]
  constructor
  · intro hle
    obtain ⟨left, hleft, hrun⟩ := (h frame).1 (by omega)
    obtain ⟨left', hleft', hrun'⟩ := (h' ⟨left, frame.ret⟩).1 (by dsimp only; omega)
    refine ⟨left', by dsimp only at hleft'; omega, ?_⟩
    rw [hrun]
    exact hrun'
  · intro hlt
    by_cases hfirst : frame.remainedGas.toNat < price
    · obtain ⟨left, hrun⟩ := (h frame).2 hfirst
      exact ⟨left, by rw [hrun]⟩
    · obtain ⟨left, hleft, hrun⟩ := (h frame).1 (by omega)
      obtain ⟨left', hrun'⟩ := (h' ⟨left, frame.ret⟩).2 (by dsimp only; omega)
      refine ⟨left', ?_⟩
      rw [hrun]
      exact hrun'

theorem returns_useGas (gas : UInt64) : Returns (useGas gas) gas.toNat () := by
  intro frame
  unfold useGas WasmInjections.useGas
  constructor
  · intro hle
    rw [if_neg (by rw [UInt64.lt_iff_toNat_lt]; omega)]
    refine ⟨frame.remainedGas - gas, ?_, rfl⟩
    rw [UInt64.toNat_sub_of_le _ _ (UInt64.le_iff_toNat_le.2 hle)]
    omega
  · intro hlt
    rw [if_pos (UInt64.lt_iff_toNat_lt.2 hlt)]
    exact ⟨frame.remainedGas, rfl⟩

theorem Returns.charged {α : Type} {builtin : Builtin α} {price : Nat} {value : α}
    (h : Returns builtin price value) :
    Returns (useGas gasCallBase >>= fun _ => builtin) (100 + price) value :=
  (returns_useGas gasCallBase).bind h

/-! ## Halves -/

/-- The number of two halves. -/
def assembled (low high : UInt64) : BitVec 128 := wide high <<< 64 ||| wide low

@[simp] theorem toNat_wide (half : UInt64) : (wide half).toNat = half.toNat := by
  have hlt := half.toNat_lt
  rw [wide, BitVec.toNat_setWidth, UInt64.toNat_toBitVec]
  omega

theorem toNat_assembled (low high : UInt64) :
    (assembled low high).toNat = high.toNat * 2 ^ 64 + low.toNat := by
  have hlow := low.toNat_lt
  have hhigh := high.toNat_lt
  rw [assembled, BitVec.toNat_or, BitVec.toNat_shiftLeft, toNat_wide, toNat_wide, Nat.shiftLeft_eq,
    Nat.mod_eq_of_lt (by omega), Nat.mul_comm, ← Nat.two_pow_add_eq_or_of_lt hlow]

/-- Shifted to the wrong side the high half is lost. -/
theorem shiftRight_or (low high : UInt64) : wide high >>> 64 ||| wide low = wide low := by
  have hhigh := high.toNat_lt
  have hzero : wide high >>> 64 = 0 := by
    apply BitVec.eq_of_toNat_eq
    rw [BitVec.toNat_ushiftRight, toNat_wide, Nat.shiftRight_eq_div_pow]
    exact Nat.div_eq_of_lt hhigh
  rw [hzero]
  exact BitVec.zero_or

/-- The unsigned number of two halves. -/
def unsignedValue (low high : UInt64) : Nat := high.toNat * 2 ^ 64 + low.toNat

/-- The number of two halves in two's complement. -/
def signedValue (low high : UInt64) : Int :=
  if high.toNat < 2 ^ 63 then unsignedValue low high else unsignedValue low high - 2 ^ 128

theorem toInt_assembled (low high : UInt64) :
    (assembled low high).toInt = signedValue low high := by
  have hlow := low.toNat_lt
  have hhigh := high.toNat_lt
  rw [BitVec.toInt_eq_toNat_cond, toNat_assembled, signedValue, unsignedValue]
  split <;> split <;> omega

end CompilerBuiltins

end FractalWasm
