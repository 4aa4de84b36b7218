import FractalWasm.Runtime.GrowMemory
import FractalWasm.Wasmlib.Instrumented

/-!
# Resetting the shared memory

A contract starts with `resetMemory` on the memory all contracts share. The memory comes back in the
size the contract asks for exactly if there is a page to shrink to and a page to grow from: a memory
without pages cannot be shrunk to one, and a contract that asks for none makes the number of pages
to grow by wrap around.

**What is wanted** (`Restores`): for every state of the pages the memory comes back as the contract
asks for it, as long as the platform commits the pages.
-/

namespace FractalWasm

open Codec IR FractalWasm.Runtime Serialization WasmInjections

namespace WasmInterface

open MemoryInstance

variable {declared : MemoryType} {memory memory' : MemoryInstance}

/-- `resetMemory` gives the memory the size `declared` asks for, with all of its bytes zero. -/
def Restores (declared : MemoryType) (memory : MemoryInstance) : Prop :=
  ∃ memory', memory.resetMemory true (clampMemory declared) = (.ok (), memory') ∧
    Initial (clampMemory declared) memory'

theorem max_clampMemory_lt : (clampMemory declared).size.max < 2 ^ 64 := by
  have hle : (clampMemory declared).size.max ≤ maximumLinearMemory / wasmPageSize :=
    Nat.min_le_right _ _
  have hlimit : maximumLinearMemory / wasmPageSize = 528 := rfl
  omega

/-- What is left of a memory with pages, before it grows again. -/
theorem resetMemory_of_pos {commits : Bool} {type : MemoryType} (hpos : 0 < memory.numPages) :
    memory.resetMemory commits type =
      match MemoryInstance.growMemory commits (uptrSub type.size.min 1)
        ⟨type, 1, memset memory.contents 0 0 wasmPageSize⟩ with
      | none =>
        (.error (.runtime .outOfMemory), ⟨type, 1, memset memory.contents 0 0 wasmPageSize⟩)
      | some grown => (.ok (), grown) := by
  have hnumPages : (memory.setMin 1).numPages = memory.numPages := rfl
  simp only [resetMemory, hnumPages, shrinkMemory_to_one hpos]
  rfl

/-- A size that was accepted has its minimum within its maximum. -/
theorem min_le_max_of_validate {type : MemoryType} (h : type.validate = .ok ()) :
    type.size.min ≤ type.size.max := by
  unfold MemoryType.validate SizeConstraints.validate at h
  obtain ⟨_, hdisjoint, hlimit⟩ := Except.bind_eq_ok.1 h
  have hmin := validateUnless_eq_ok.1 hdisjoint
  simp only [gt_iff_lt, decide_eq_false_iff_not, Nat.not_lt] at hmin
  split at hmin
  · next hunbounded =>
    have hpages : maxMemoryPages ≤ uint64Max := by decide
    omega
  · exact hmin

/-- A reset of a memory with pages to a size of at least one page. -/
theorem restores_of_pos (hpos : 0 < memory.numPages) (hmin : 0 < declared.size.min)
    (hmax : declared.size.min ≤ (clampMemory declared).size.max) : Restores declared memory := by
  have hsub : uptrSub (clampMemory declared).size.min 1 = declared.size.min - 1 := uptrSub_one hmin
  have hreset := @resetMemory_of_pos memory true (clampMemory declared) hpos
  cases hgrow : MemoryInstance.growMemory true (uptrSub (clampMemory declared).size.min 1)
      ⟨clampMemory declared, 1, memset memory.contents 0 0 wasmPageSize⟩ with
  | none =>
    obtain ⟨-, hover | hrefused⟩ := growMemory_eq_none_iff.1 hgrow
    · rw [hsub] at hover
      dsimp only at hover
      omega
    · cases hrefused
  | some grown =>
    rw [hgrow] at hreset
    have hcleared : ∀ address < wasmPageSize,
        memset memory.contents 0 0 wasmPageSize address = 0 :=
      fun address hlt => memset_of_mem (Nat.zero_le _) (by omega)
    exact ⟨grown, hreset,
      (initial_of_growMemory max_clampMemory_lt rfl rfl hcleared hgrow).2⟩

/-- A reset that succeeds found a page, was asked for one, and kept within the maximum. -/
theorem pos_of_restores (h : Restores declared memory) :
    0 < memory.numPages ∧ 0 < declared.size.min ∧
      (declared.size.min = 1 ∨ declared.size.min ≤ (clampMemory declared).size.max) := by
  obtain ⟨memory', hreset, -⟩ := h
  cases resetMemory_cases max_clampMemory_lt hreset with
  | done hpos hmin _ =>
    have hminDeclared : 0 < declared.size.min := hmin
    refine ⟨hpos, hmin, ?_⟩
    have hsub : uptrSub (clampMemory declared).size.min 1 = declared.size.min - 1 :=
      uptrSub_one hmin
    rw [resetMemory_of_pos hpos] at hreset
    split at hreset
    · cases hreset
    · next hgrow =>
      have hgrown := grown_of_growMemory hgrow
      have hlimit := hgrown.limit
      rw [hgrown.numPages, hsub] at hlimit
      dsimp only at hlimit
      omega

/-- **Resetting the shared memory.** The memory of one page or more comes back in the size of the
next contract exactly if that contract asks for a page or more, and for no more than it may have. -/
theorem reset_memory_restores_iff (hvalid : declared.validate = .ok ())
    (memory : MemoryInstance) :
    Restores declared memory ↔
      0 < memory.numPages ∧ 0 < declared.size.min ∧
        declared.size.min ≤ maximumLinearMemory / wasmPageSize := by
  have hle := min_le_max_of_validate hvalid
  have hclamped : (clampMemory declared).size.max =
      min declared.size.max (maximumLinearMemory / wasmPageSize) := rfl
  have hlimit : maximumLinearMemory / wasmPageSize = 528 := rfl
  rw [hlimit] at hclamped ⊢
  constructor
  · intro h
    obtain ⟨hpos, hmin, hmax⟩ := pos_of_restores h
    exact ⟨hpos, hmin, by omega⟩
  · rintro ⟨hpos, hmin, hmax⟩
    exact restores_of_pos hpos hmin (by omega)

theorem reset_memory_restores_iff_sample :
    Restores ⟨false, ⟨3, 9⟩⟩ ⟨⟨false, ⟨1, 5⟩⟩, 5, fun _ => 1⟩ :=
  (reset_memory_restores_iff (by decide) _).2 ⟨by decide, by decide, by decide⟩

/-- A contract with a memory of no pages at first, and of one page at most, is refused on the memory
made for it, which is a memory of the shared state. -/
theorem reset_memory_refused :
    ∃ (declared : MemoryType) (memory : MemoryInstance), declared.validate = .ok () ∧
      createMemory true true (clampMemory declared) = some memory ∧
        (memory.resetMemory true (clampMemory declared)).1 = .error (.runtime .outOfMemory) ∧
          ¬ Restores declared memory := by
  refine ⟨⟨false, ⟨0, 1⟩⟩, ⟨⟨false, ⟨0, 1⟩⟩, 0, fun _ => 0⟩, by decide, rfl, rfl, ?_⟩
  intro h
  exact absurd (pos_of_restores h).1 (by decide)

end WasmInterface

end FractalWasm
