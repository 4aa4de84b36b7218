import FractalWasm.Exceptions
import FractalWasm.IR.Module
import FractalWasm.Serialization

/-!
# Linear memories

`Runtime/Memory.cpp`. A memory reserves its address space once and commits the pages it uses. The
memory of one module is handed to the next one: `resetMemory` shrinks it to a page, clears that page
and grows it to the size the new module asks for.

**Growing and shrinking** (`grown_of_growMemory`, `shrinkMemory_to_one`): pages are committed before
they are counted, and a page taken in is clear.

**Resetting** (`resetMemory_cases`): the memory is as its new module wants it (`Initial`), or was
refused, or the platform has no pages left; with no page to shrink to, the difference wraps around
(`shrinkMemory_empty`).
-/

namespace FractalWasm.Runtime

open IR Serialization

/-- `MemoryInstance`. `contents` are the bytes from `baseAddress` on; those behind the last of the
`numPages` pages cannot be read. -/
structure MemoryInstance where
  type : MemoryType
  numPages : Nat
  contents : Nat → UInt8

/-- The difference of two `Uptr`. -/
def uptrSub (left right : Nat) : Nat :=
  if right ≤ left then left - right else 2 ^ 64 - (right - left)

/-- `memset` -/
def memset (contents : Nat → UInt8) (base : Nat) (value : UInt8) (numBytes : Nat) : Nat → UInt8 :=
  fun address => if base ≤ address ∧ address < base + numBytes then value else contents address

/-- `memcpy` from outside of the memory -/
def memcpy (contents : Nat → UInt8) (base : Nat) (bytes : Bytes) : Nat → UInt8 :=
  fun address =>
    if base ≤ address ∧ address < base + bytes.length then bytes.getD (address - base) 0
    else contents address

namespace MemoryInstance

/-- `growMemory`, when `commits` says whether the platform commits the pages; `none` is -1. -/
def growMemory (commits : Bool) (numNewPages : Nat) (memory : MemoryInstance) :
    Option MemoryInstance :=
  if 0 < numNewPages then
    if memory.type.size.max < numNewPages ∨
        memory.type.size.max - numNewPages < memory.numPages then none
    else if commits then
      some { memory with
        contents := memset memory.contents (memory.numPages * wasmPageSize) 0
          (numNewPages * wasmPageSize)
        numPages := memory.numPages + numNewPages }
    else none
  else some memory

/-- `shrinkMemory`; `none` is -1. -/
def shrinkMemory (numPagesToShrink : Nat) (memory : MemoryInstance) : Option MemoryInstance :=
  if 0 < numPagesToShrink then
    if memory.numPages < numPagesToShrink ∨
        memory.numPages - numPagesToShrink < memory.type.size.min then none
    else some { memory with numPages := memory.numPages - numPagesToShrink }
  else some memory

/-- `memory->type.size.min = min` -/
def setMin (min : Nat) (memory : MemoryInstance) : MemoryInstance :=
  { memory with type := { memory.type with size := { memory.type.size with min } } }

/-- `resetMemory`: what it throws, and the memory it leaves. -/
def resetMemory (commits : Bool) (newMemoryType : MemoryType) (memory : MemoryInstance) :
    Except Exception Unit × MemoryInstance :=
  let memory := memory.setMin 1
  match memory.shrinkMemory (uptrSub memory.numPages 1) with
  | none => (.error (.runtime .outOfMemory), memory)
  | some memory =>
    let memory :=
      { memory with
        contents := memset memory.contents 0 0 wasmPageSize
        type := newMemoryType }
    match memory.growMemory commits (uptrSub memory.type.size.min 1) with
    | none => (.error (.runtime .outOfMemory), memory)
    | some memory => (.ok (), memory)

/-- `createMemory`, when `allocates` says whether the platform reserves the address space; `none`
is the null pointer. -/
def createMemory (allocates commits : Bool) (type : MemoryType) : Option MemoryInstance :=
  if allocates then growMemory commits type.size.min ⟨type, 0, fun _ => 0⟩ else none

end MemoryInstance

/-! ## What the operations do -/

theorem uptrSub_one {n : Nat} (hpos : 0 < n) : uptrSub n 1 = n - 1 := if_pos hpos

theorem uptrSub_zero_one : uptrSub 0 1 = 2 ^ 64 - 1 := rfl

theorem memset_of_mem {contents : Nat → UInt8} {base numBytes address : Nat} {value : UInt8}
    (hle : base ≤ address) (hlt : address < base + numBytes) :
    memset contents base value numBytes address = value := if_pos ⟨hle, hlt⟩

theorem memset_of_lt {contents : Nat → UInt8} {base numBytes address : Nat} {value : UInt8}
    (hlt : address < base) : memset contents base value numBytes address = contents address := by
  apply if_neg
  intro h
  exact Nat.not_le.2 hlt h.1

namespace MemoryInstance

variable {commits : Bool} {memory memory' : MemoryInstance}

/-- What growing by some pages does. -/
structure Grown (numNewPages : Nat) (memory memory' : MemoryInstance) : Prop where
  type : memory'.type = memory.type
  numPages : memory'.numPages = memory.numPages + numNewPages
  limit : 0 < numNewPages → memory'.numPages ≤ memory.type.size.max
  kept : ∀ address < memory.numPages * wasmPageSize,
    memory'.contents address = memory.contents address
  cleared : ∀ address, memory.numPages * wasmPageSize ≤ address →
    address < memory'.numPages * wasmPageSize → memory'.contents address = 0

theorem grown_of_growMemory {numNewPages : Nat}
    (h : memory.growMemory commits numNewPages = some memory') :
    Grown numNewPages memory memory' := by
  unfold growMemory at h
  by_cases hpos : 0 < numNewPages
  · rw [if_pos hpos] at h
    split at h
    · cases h
    · next hfits =>
      split at h
      · cases h
        refine ⟨rfl, rfl, ?_, ?_, ?_⟩
        · intro _
          dsimp only
          omega
        · intro address hlt
          exact memset_of_lt hlt
        · intro address hle hlt
          apply memset_of_mem hle
          rwa [← Nat.add_mul]
      · cases h
  · rw [if_neg hpos] at h
    cases h
    obtain rfl : numNewPages = 0 := by omega
    refine ⟨rfl, rfl, fun hlt => absurd hlt hpos, fun _ _ => rfl, ?_⟩
    intro address hle hlt
    exact absurd hlt (Nat.not_lt.2 hle)

/-- A memory as a module finds it: its initial pages, and all of them zero. -/
structure Initial (memoryType : MemoryType) (memory : MemoryInstance) : Prop where
  type : memory.type = memoryType
  numPages : memory.numPages = memoryType.size.min
  cleared : ∀ address < memory.numPages * wasmPageSize, memory.contents address = 0

/-- What `resetMemory` can do. It fails before it changes the page count exactly on a memory
without pages. -/
inductive ResetTo (newMemoryType : MemoryType) (memory : MemoryInstance) :
    Except Exception Unit → MemoryInstance → Prop
  | empty (hempty : memory.numPages = 0) :
      ResetTo newMemoryType memory (.error (.runtime .outOfMemory)) (memory.setMin 1)
  | refused {memory' : MemoryInstance} (hpos : 0 < memory.numPages)
      (htype : memory'.type = newMemoryType) (hpage : memory'.numPages = 1) :
      ResetTo newMemoryType memory (.error (.runtime .outOfMemory)) memory'
  | done {memory' : MemoryInstance} (hpos : 0 < memory.numPages) (hmin : 0 < newMemoryType.size.min)
      (hinitial : Initial newMemoryType memory') :
      ResetTo newMemoryType memory (.ok ()) memory'

/-- Shrinking a memory of some pages to one succeeds. -/
theorem shrinkMemory_to_one (hpos : 0 < memory.numPages) :
    (memory.setMin 1).shrinkMemory (uptrSub memory.numPages 1) =
      some { memory.setMin 1 with numPages := 1 } := by
  have hshrink : uptrSub memory.numPages 1 = memory.numPages - 1 := uptrSub_one hpos
  unfold shrinkMemory
  rw [hshrink]
  by_cases hone : memory.numPages = 1
  · have hzero : ¬ 0 < memory.numPages - 1 := by omega
    rw [if_neg hzero, ← hone]
    rfl
  · have hmore : 0 < memory.numPages - 1 := by omega
    have hleft : memory.numPages - (memory.numPages - 1) = 1 := by omega
    have hfits : ¬ (memory.numPages < memory.numPages - 1 ∨ 1 < 1) := by omega
    rw [if_pos hmore]
    simp only [setMin, hleft]
    rw [if_neg hfits]

theorem shrinkMemory_empty (hempty : memory.numPages = 0) :
    (memory.setMin 1).shrinkMemory (uptrSub memory.numPages 1) = none := by
  rw [hempty, uptrSub_zero_one]
  simp [shrinkMemory, setMin, hempty]

/-- Growing by the minimum less the page there is gives the minimum, which is positive then. -/
theorem initial_of_growMemory {type : MemoryType} (hmax : type.size.max < 2 ^ 64)
    (htype : memory.type = type) (hpage : memory.numPages = 1)
    (hcleared : ∀ address < wasmPageSize, memory.contents address = 0)
    (h : memory.growMemory commits (uptrSub type.size.min 1) = some memory') :
    0 < type.size.min ∧ Initial type memory' := by
  have hgrown := grown_of_growMemory h
  have hlimit := hgrown.limit
  rw [htype, hgrown.numPages, hpage] at hlimit
  have hpos : 0 < type.size.min := by
    rcases Nat.eq_zero_or_pos type.size.min with hmin | hpos
    · rw [hmin, uptrSub_zero_one] at hlimit
      omega
    · exact hpos
  have hpages : memory'.numPages = type.size.min := by
    rw [hgrown.numPages, hpage, uptrSub_one hpos]
    omega
  refine ⟨hpos, hgrown.type.trans htype, hpages, ?_⟩
  intro address hlt
  by_cases hfirst : address < wasmPageSize
  · rw [hgrown.kept address (by rw [hpage]; omega)]
    exact hcleared address hfirst
  · exact hgrown.cleared address (by rw [hpage]; omega) hlt

theorem resetMemory_cases {newMemoryType : MemoryType} (hmax : newMemoryType.size.max < 2 ^ 64)
    {result : Except Exception Unit}
    (h : memory.resetMemory commits newMemoryType = (result, memory')) :
    ResetTo newMemoryType memory result memory' := by
  have hnumPages : (memory.setMin 1).numPages = memory.numPages := rfl
  simp only [resetMemory, hnumPages] at h
  rcases Nat.eq_zero_or_pos memory.numPages with hempty | hpos
  · rw [shrinkMemory_empty hempty] at h
    cases h
    exact .empty hempty
  · rw [shrinkMemory_to_one hpos] at h
    dsimp only at h
    split at h
    · cases h
      exact .refused hpos rfl rfl
    · next hgrow =>
      cases h
      have hcleared : ∀ address < wasmPageSize,
          memset (memory.setMin 1).contents 0 0 wasmPageSize address = 0 :=
        fun address hlt => memset_of_mem (Nat.zero_le _) (by omega)
      obtain ⟨hmin, hinitial⟩ := initial_of_growMemory hmax rfl rfl hcleared hgrow
      exact .done hpos hmin hinitial

end MemoryInstance

end FractalWasm.Runtime
