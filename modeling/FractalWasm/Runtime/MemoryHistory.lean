import FractalWasm.Runtime.GrowMemory

/-!
# The history of a memory

A memory is made for one module and handed on to others. What a run can do to it is to store, to
grow it and to reset it; the number of pages and the limit of its type stay within any limit the
types of the modules keep. Behind a reset two memories cannot be told apart, whatever was done to
them before.

**Limits** (`Used`, `Within`): kept by every access, hence by a run of any length.

**Two histories** (`Alike`): memories of the same size with the same bytes below it stay so under
the same accesses (`Alike.runAll`), and a reset makes any two memories alike.
-/

namespace FractalWasm.Runtime

open IR Serialization

/-- A type whose minimum is within its maximum, and its maximum within a limit. -/
structure MemoryType.Fits (limit : Nat) (type : MemoryType) : Prop where
  min : type.size.min ≤ type.size.max
  max : type.size.max ≤ limit

namespace MemoryInstance

/-! ## Limits -/

/-- One operation on a memory. The types of the modules it is reset for are `allowed`. -/
inductive Touched (allowed : MemoryType → Prop) (memory : MemoryInstance) : MemoryInstance → Prop
  | stored (contents : Nat → UInt8) : Touched allowed memory { memory with contents }
  | grown (commits : Bool) (deltaPages : UInt32) :
      Touched allowed memory (growMemoryIntrinsic commits deltaPages memory).2
  | reset (commits : Bool) {type : MemoryType} (hallowed : allowed type) :
      Touched allowed memory (memory.resetMemory commits type).2

/-- A memory that was made for a module and has been operated on since. -/
inductive Used (allowed : MemoryType → Prop) : MemoryInstance → Prop
  | created {allocates commits : Bool} {type : MemoryType} {memory : MemoryInstance}
      (hallowed : allowed type) (h : createMemory allocates commits type = some memory) :
      Used allowed memory
  | touched {memory memory' : MemoryInstance} (h : Used allowed memory)
      (htouched : Touched allowed memory memory') : Used allowed memory'

/-- No more pages than the limit, now and later. -/
structure Within (limit : Nat) (memory : MemoryInstance) : Prop where
  numPages : memory.numPages ≤ limit
  max : memory.type.size.max ≤ limit

variable {limit : Nat} {memory memory' : MemoryInstance}

theorem growMemoryIntrinsic_cases (commits : Bool) (deltaPages : UInt32)
    (memory : MemoryInstance) :
    (growMemoryIntrinsic commits deltaPages memory).2 = memory ∨
      memory.growMemory commits (uptrOfI32 deltaPages).toNat =
        some (growMemoryIntrinsic commits deltaPages memory).2 := by
  unfold growMemoryIntrinsic growMemoryIptr
  cases hgrow : memory.growMemory commits (uptrOfI32 deltaPages).toNat with
  | none =>
    left
    dsimp only
    split <;> rfl
  | some grown =>
    right
    dsimp only
    split <;> rfl

theorem Within.grow {numNewPages : Nat} {commits : Bool} (h : Within limit memory)
    (hgrow : memory.growMemory commits numNewPages = some memory') : Within limit memory' := by
  have hgrown := grown_of_growMemory hgrow
  have hmax := h.max
  refine ⟨?_, by rw [hgrown.type]; exact hmax⟩
  rcases Nat.eq_zero_or_pos numNewPages with hzero | hpos
  · rw [hgrown.numPages, hzero]
    exact h.numPages
  · exact Nat.le_trans (hgrown.limit hpos) hmax

theorem Within.reset {commits : Bool} {type : MemoryType} (h : Within limit memory)
    (hpos : 0 < limit) (hlimit : limit < 2 ^ 64) (htype : MemoryType.Fits limit type) :
    Within limit (memory.resetMemory commits type).2 := by
  have hmax := htype.max
  cases hreset : memory.resetMemory commits type with
  | mk result left =>
    cases resetMemory_cases (Nat.lt_of_le_of_lt hmax hlimit) hreset with
    | empty hempty => exact ⟨h.numPages, h.max⟩
    | refused hfirst hsame hpage =>
      dsimp only at hsame hpage ⊢
      exact ⟨by rw [hpage]; exact hpos, by rw [hsame]; exact hmax⟩
    | done hfirst hmin hinitial =>
      refine ⟨?_, by rw [hinitial.type]; exact hmax⟩
      rw [hinitial.numPages]
      exact Nat.le_trans htype.min hmax

/-- One operation keeps the limit. -/
theorem Within.touched {allowed : MemoryType → Prop} (hpos : 0 < limit) (hlimit : limit < 2 ^ 64)
    (hallowed : ∀ type, allowed type → MemoryType.Fits limit type) (h : Within limit memory)
    (htouched : Touched allowed memory memory') : Within limit memory' := by
  cases htouched with
  | stored contents => exact ⟨h.numPages, h.max⟩
  | grown commits deltaPages =>
    rcases growMemoryIntrinsic_cases commits deltaPages memory with hsame | hgrow
    · rw [hsame]
      exact h
    · exact h.grow hgrow
  | reset commits htype => exact h.reset hpos hlimit (hallowed _ htype)

theorem within_of_createMemory {allocates commits : Bool} {type : MemoryType}
    (hmax : type.size.max ≤ limit) (h : createMemory allocates commits type = some memory) :
    Within limit memory := by
  unfold createMemory at h
  split at h
  · exact Within.grow ⟨Nat.zero_le _, hmax⟩ h
  · cases h

/-- The limit holds over the whole history of a memory. -/
theorem within_of_used {allowed : MemoryType → Prop} (hpos : 0 < limit) (hlimit : limit < 2 ^ 64)
    (hallowed : ∀ type, allowed type → MemoryType.Fits limit type) (h : Used allowed memory) :
    Within limit memory := by
  induction h with
  | created htype hcreate => exact within_of_createMemory (hallowed _ htype).max hcreate
  | touched _ htouched ih => exact ih.touched hpos hlimit hallowed htouched

/-! ## Two histories -/

/-- Two memories that a contract cannot tell apart. Their bytes behind the last page may differ. -/
structure Alike (memory memory' : MemoryInstance) : Prop where
  type : memory'.type = memory.type
  numPages : memory'.numPages = memory.numPages
  contents : ∀ address < memory.numPages * wasmPageSize,
    memory'.contents address = memory.contents address

/-- What a contract does to its memory: it stores bytes, and grows. -/
inductive Access where
  | store (base : Nat) (bytes : Bytes)
  | grow (commits : Bool) (deltaPages : UInt32)

/-- The number an access pushes, if it does, and the memory it leaves. -/
def Access.run (memory : MemoryInstance) : Access → Option UInt32 × MemoryInstance
  | store base bytes => (none, { memory with contents := memcpy memory.contents base bytes })
  | grow commits deltaPages =>
    let (result, memory) := growMemoryIntrinsic commits deltaPages memory
    (some result, memory)

theorem Alike.store (h : Alike memory memory') (base : Nat) (bytes : Bytes) :
    Alike { memory with contents := memcpy memory.contents base bytes }
      { memory' with contents := memcpy memory'.contents base bytes } := by
  refine ⟨h.type, h.numPages, ?_⟩
  intro address hlt
  simp only [memcpy, h.contents address hlt]

/-- Both memories grow, to the same size and with zeros behind what they had, or neither does. -/
theorem Alike.growMemory (h : Alike memory memory') (commits : Bool) (numNewPages : Nat) :
    memory.growMemory commits numNewPages = none ∧
        memory'.growMemory commits numNewPages = none ∨
      ∃ grown grown', memory.growMemory commits numNewPages = some grown ∧
        memory'.growMemory commits numNewPages = some grown' ∧ Alike grown grown' := by
  have hrefused : memory'.growMemory commits numNewPages = none ↔
      memory.growMemory commits numNewPages = none := by
    rw [growMemory_eq_none_iff, growMemory_eq_none_iff, h.type, h.numPages]
  cases hgrow : memory.growMemory commits numNewPages with
  | none => exact .inl ⟨rfl, hrefused.2 hgrow⟩
  | some grown =>
    cases hgrow' : memory'.growMemory commits numNewPages with
    | none =>
      rw [hrefused.1 hgrow'] at hgrow
      cases hgrow
    | some grown' =>
      have hgrown := grown_of_growMemory hgrow
      have hgrown' := grown_of_growMemory hgrow'
      have hpages : grown'.numPages = grown.numPages := by
        rw [hgrown.numPages, hgrown'.numPages, h.numPages]
      refine .inr ⟨grown, grown', rfl, rfl, ?_, hpages, ?_⟩
      · rw [hgrown.type, hgrown'.type, h.type]
      · intro address hlt
        by_cases hkept : address < memory.numPages * wasmPageSize
        · rw [hgrown.kept address hkept, hgrown'.kept address (by rw [h.numPages]; exact hkept)]
          exact h.contents address hkept
        · have hbehind := Nat.le_of_not_lt hkept
          rw [hgrown.cleared address hbehind hlt,
            hgrown'.cleared address (by rw [h.numPages]; exact hbehind) (by rw [hpages]; exact hlt)]

theorem Alike.iptr (h : Alike memory memory') (commits : Bool) (numNewPages : UInt64) :
    (growMemoryIptr commits numNewPages memory').1 = (growMemoryIptr commits numNewPages memory).1 ∧
      Alike (growMemoryIptr commits numNewPages memory).2
        (growMemoryIptr commits numNewPages memory').2 := by
  unfold growMemoryIptr
  rcases h.growMemory commits numNewPages.toNat with
    ⟨hnone, hnone'⟩ | ⟨grown, grown', hgrow, hgrow', halike⟩
  · simp only [hnone, hnone']
    exact ⟨trivial, h⟩
  · simp only [hgrow, hgrow', h.numPages]
    exact ⟨trivial, halike⟩

/-- An access gives the same number on both, and leaves them alike. -/
theorem Alike.access (h : Alike memory memory') (access : Access) :
    (access.run memory').1 = (access.run memory).1 ∧
      Alike (access.run memory).2 (access.run memory').2 := by
  cases access with
  | store base bytes => exact ⟨rfl, h.store base bytes⟩
  | grow commits deltaPages =>
    obtain ⟨hprevious, halike⟩ := h.iptr commits (uptrOfI32 deltaPages)
    simp only [Access.run, growMemoryIntrinsic, hprevious]
    split
    · exact ⟨rfl, halike⟩
    · exact ⟨rfl, halike⟩

/-- The memory behind some accesses, and the numbers they push. -/
def runAll (memory : MemoryInstance) : List Access → List (Option UInt32) × MemoryInstance
  | [] => ([], memory)
  | access :: accesses =>
    let (result, memory) := access.run memory
    let (results, memory) := runAll memory accesses
    (result :: results, memory)

/-- Whatever a contract does to two such memories, it sees the same on both. -/
theorem Alike.runAll (h : Alike memory memory') (accesses : List Access) :
    (memory'.runAll accesses).1 = (memory.runAll accesses).1 ∧
      Alike (memory.runAll accesses).2 (memory'.runAll accesses).2 := by
  induction accesses generalizing memory memory' with
  | nil => exact ⟨rfl, h⟩
  | cons access accesses ih =>
    obtain ⟨hresult, halike⟩ := h.access access
    obtain ⟨hresults, halikes⟩ := ih halike
    refine ⟨?_, halikes⟩
    simp only [MemoryInstance.runAll, hresult, hresults]

end MemoryInstance

end FractalWasm.Runtime
