import FractalWasm.IR.Validate
import FractalWasm.Runtime.Memory

/-!
# Growing a memory from a contract

`Runtime/WAVMIntrinsics.cpp`: the intrinsic behind the operator `grow_memory`. Its operand is read
as a signed number and widened before the memory is grown, and the page count it hands back is
compared with the limit of the format once more, after the memory has changed.

**The operand** (`uptrOfI32`): a negative number becomes a number of pages far beyond any limit.

**The intrinsic** (`grow_memory_exact`): it hands back the old number of pages and has grown the
memory, or hands back -1 and has changed nothing; the second comparison never fails behind a growth
that succeeded.
-/

namespace FractalWasm.Runtime

open IR Serialization

/-- The cast of an `I32` to `Uptr`, which extends the sign. -/
def uptrOfI32 (value : UInt32) : UInt64 := value.toInt32.toInt64.toUInt64

/-- The `Iptr` that `growMemory` returns, by its bits, and the memory it leaves. -/
def growMemoryIptr (commits : Bool) (numNewPages : UInt64) (memory : MemoryInstance) :
    UInt64 × MemoryInstance :=
  match memory.growMemory commits numNewPages.toNat with
  | none => (-1, memory)
  | some grown => (memory.numPages.toUInt64, grown)

/-- `_growMemory` -/
def growMemoryIntrinsic (commits : Bool) (deltaPages : UInt32) (memory : MemoryInstance) :
    UInt32 × MemoryInstance :=
  let (numPreviousMemoryPages, memory) := growMemoryIptr commits (uptrOfI32 deltaPages) memory
  if maxMemoryPages < (numPreviousMemoryPages + uptrOfI32 deltaPages).toNat then (-1, memory)
  else (numPreviousMemoryPages.toUInt32, memory)

/-! ## The operand -/

theorem toNat_uptrOfI32 (value : UInt32) :
    (uptrOfI32 value).toNat =
      if value.toNat < 2 ^ 31 then value.toNat else value.toNat + (2 ^ 64 - 2 ^ 32) := by
  have hbits : (uptrOfI32 value).toNat = (value.toBitVec.signExtend 64).toNat := rfl
  rw [hbits, BitVec.toNat_signExtend, BitVec.msb_eq_decide]
  have hlt := value.toBitVec.isLt
  have hvalue : value.toNat = value.toBitVec.toNat := rfl
  simp only [BitVec.toNat_setWidth, hvalue]
  by_cases hpos : value.toBitVec.toNat < 2 ^ 31
  · have hmsb : ¬ 2 ^ (32 - 1) ≤ value.toBitVec.toNat := by omega
    simp only [hmsb, hpos, decide_false, if_true, Bool.false_eq_true, if_false]
    omega
  · have hmsb : 2 ^ (32 - 1) ≤ value.toBitVec.toNat := by omega
    simp only [hmsb, hpos, decide_true, if_true, if_false]
    omega

namespace MemoryInstance

variable {commits : Bool} {memory memory' : MemoryInstance} {numNewPages : Nat}

/-- Growing a memory is refused exactly past its limit, or by the platform. -/
theorem growMemory_eq_none_iff :
    memory.growMemory commits numNewPages = none ↔
      0 < numNewPages ∧
        (memory.type.size.max < memory.numPages + numNewPages ∨ commits = false) := by
  unfold growMemory
  by_cases hpos : 0 < numNewPages
  · rw [if_pos hpos]
    by_cases hover : memory.type.size.max < numNewPages ∨
        memory.type.size.max - numNewPages < memory.numPages
    · rw [if_pos hover]
      have hlimit : memory.type.size.max < memory.numPages + numNewPages := by omega
      exact ⟨fun _ => ⟨hpos, .inl hlimit⟩, fun _ => rfl⟩
    · rw [if_neg hover]
      have hlimit : ¬ memory.type.size.max < memory.numPages + numNewPages := by omega
      cases commits with
      | true => simp [hlimit]
      | false => simp [hpos]
  · rw [if_neg hpos]
    simp [hpos]

end MemoryInstance

/-! ## What the intrinsic does -/

open MemoryInstance

variable {memory : MemoryInstance}

/-- An operand past the limit, or one the platform does not commit the pages for. -/
theorem growMemoryIntrinsic_of_none {commits : Bool} {deltaPages : UInt32}
    (h : memory.growMemory commits (uptrOfI32 deltaPages).toNat = none) :
    growMemoryIntrinsic commits deltaPages memory = (-1, memory) := by
  unfold growMemoryIntrinsic growMemoryIptr
  rw [h]
  dsimp only
  split
  · rfl
  · rfl

/-- Within the limit of the format the second comparison does not hold. -/
theorem growMemoryIntrinsic_of_some {commits : Bool} {deltaPages : UInt32}
    {grown : MemoryInstance}
    (h : memory.growMemory commits (uptrOfI32 deltaPages).toNat = some grown)
    (hlimit : memory.numPages + (uptrOfI32 deltaPages).toNat ≤ maxMemoryPages) :
    growMemoryIntrinsic commits deltaPages memory = (memory.numPages.toUInt32, grown) := by
  have hmax : maxMemoryPages = 65536 := rfl
  have hsmall : memory.numPages < 2 ^ 64 := by omega
  have hsum : (memory.numPages.toUInt64 + uptrOfI32 deltaPages).toNat =
      memory.numPages + (uptrOfI32 deltaPages).toNat := by
    rw [UInt64.toNat_add, Nat.toUInt64_eq, UInt64.toNat_ofNat', Nat.mod_eq_of_lt hsmall]
    omega
  unfold growMemoryIntrinsic growMemoryIptr
  rw [h]
  dsimp only
  have hnarrow : memory.numPages.toUInt64.toUInt32 = memory.numPages.toUInt32 := by
    apply UInt32.toNat_inj.1
    simp only [Nat.toUInt64_eq, Nat.toUInt32_eq, UInt64.toNat_toUInt32, UInt64.toNat_ofNat',
      UInt32.toNat_ofNat', Nat.mod_eq_of_lt hsmall]
  rw [hsum, if_neg (Nat.not_lt.2 hlimit), hnarrow]

/-- **Growing is exact.** Either the pages are added, all of them zero and the ones before
untouched, and the result is the page count before; or nothing changes and the result is -1. That
happens exactly past the limit, or when the platform does not commit the pages. -/
theorem grow_memory_exact (hpages : memory.numPages ≤ memory.type.size.max)
    (hmax : memory.type.size.max ≤ maxMemoryPages) (commits : Bool) (deltaPages : UInt32) :
    let result := growMemoryIntrinsic commits deltaPages memory
    (result.1.toNat = memory.numPages ∧ Grown deltaPages.toNat memory result.2 ∨
        result = (-1, memory)) ∧
      (memory.type.size.max < memory.numPages + deltaPages.toNat → result = (-1, memory)) ∧
      (commits = true → result.1 = -1 →
        memory.type.size.max < memory.numPages + deltaPages.toNat) := by
  intro result
  have hformat : maxMemoryPages = 65536 := rfl
  have hdelta := toNat_uptrOfI32 deltaPages
  have hoperand := deltaPages.toNat_lt
  cases hgrow : memory.growMemory commits (uptrOfI32 deltaPages).toNat with
  | none =>
    have hresult : result = (-1, memory) := growMemoryIntrinsic_of_none hgrow
    obtain ⟨hpos, hwhy⟩ := growMemory_eq_none_iff.1 hgrow
    refine ⟨.inr hresult, fun _ => hresult, ?_⟩
    intro hcommits _
    rcases hwhy with hover | hrefused
    · split at hdelta <;> omega
    · rw [hcommits] at hrefused
      cases hrefused
  | some grown =>
    have hgrown := grown_of_growMemory hgrow
    have hlimit : memory.numPages + (uptrOfI32 deltaPages).toNat ≤ memory.type.size.max := by
      rcases Nat.eq_zero_or_pos (uptrOfI32 deltaPages).toNat with hzero | hpos
      · omega
      · rw [← hgrown.numPages]
        exact hgrown.limit hpos
    have hresult : result = (memory.numPages.toUInt32, grown) :=
      growMemoryIntrinsic_of_some hgrow (Nat.le_trans hlimit hmax)
    have hsame : (uptrOfI32 deltaPages).toNat = deltaPages.toNat := by
      split at hdelta <;> omega
    have hprevious : memory.numPages.toUInt32.toNat = memory.numPages := by
      rw [Nat.toUInt32_eq, UInt32.toNat_ofNat']
      omega
    rw [hsame] at hgrown hlimit
    rw [hresult]
    refine ⟨.inl ⟨hprevious, hgrown⟩, ?_, ?_⟩
    · intro hover
      omega
    · intro _ hminus
      have hnat := congrArg UInt32.toNat hminus
      rw [hprevious] at hnat
      have hvalue : (-1 : UInt32).toNat = 2 ^ 32 - 1 := rfl
      omega

/-- A memory of one page of at most three. -/
def onePage : MemoryInstance := ⟨⟨false, ⟨1, 3⟩⟩, 1, fun _ => 7⟩

theorem grow_memory_exact_sample :
    (growMemoryIntrinsic true 2 onePage).1 ≠ -1 ∧ growMemoryIntrinsic true 3 onePage = (-1, onePage) ∧
      growMemoryIntrinsic true (-1) onePage = (-1, onePage) := by
  have hpages : onePage.numPages ≤ onePage.type.size.max := by decide
  have hmax : onePage.type.size.max ≤ maxMemoryPages := by decide
  refine ⟨?_, ?_, ?_⟩
  · intro hminus
    exact absurd ((grow_memory_exact hpages hmax true 2).2.2 rfl hminus) (by decide)
  · exact (grow_memory_exact hpages hmax true 3).2.1 (by decide)
  · exact (grow_memory_exact hpages hmax true (-1)).2.1 (by decide)

end FractalWasm.Runtime
