import FractalWasm.Runtime.MemoryHistory
import FractalWasm.Wasmlib.MemoryImage
import FractalWasm.Wasmlib.Pointers
import FractalWasm.Wasmlib.SharedMemory

/-!
# Running a module

`wavm.cpp`: `apply` calls the export of that name. Before any code of the module runs, `call` resets
the memory the module shares with others, copies the image into it and resets the globals. What a
module then starts from is determined by its contract.

**Resets** (`MemoryReset`, `Prepared`): what `call` has done before the export runs, or where it has
failed.

**What a contract holds** (`Holds`, `MadeFrom.holds`): the memory of an instance fits the clamped
type of its contract, whoever made it first, and its globals and image come from the contract's
bytes.
-/

namespace FractalWasm

open Codec IR FractalWasm.Runtime Serialization WasmInjections Wavm

/-- The memories of the process, and `the_running_instance_context`; a `wasm_context` is known by its
number. -/
structure Process where
  heap : Heap
  running : RunningInstanceContext (Option Nat)

/-- `invokeFunction`, before the native code. -/
def checkParameters (function : FunctionInstance) (parameters : List Value) :
    Except Failure Unit :=
  if parameters.length ≠ function.type.parameters.length then
    .error (.thrown (.runtime .invokeSignatureMismatch))
  else if function.type.parameters ≠ parameters.map Value.type then
    .error (.thrown (.runtime .invokeSignatureMismatch))
  else .ok ()

namespace WasmInstantiatedModule

/-- The part of `call` that is about the default memory. -/
def resetDefaultMemory (commits : Bool) (instantiated : WasmInstantiatedModule) (memory : Nat)
    (heap : Heap) : Except Failure Unit × Heap :=
  match heap.memories[memory]?, instantiated.module.memories.defs with
  | some defaultMem, newMemoryType :: _ =>
    match defaultMem.resetMemory commits newMemoryType with
    | (.error exception, left) =>
      (.error (.thrown exception), { heap with memories := heap.memories.set memory left })
    | (.ok (), left) =>
      let left := { left with contents := memcpy left.contents 0 instantiated.initialMemory }
      (.ok (), { heap with memories := heap.memories.set memory left })
  -- a default memory is one of the heap, and was made for a definition
  | _, _ => (.error .aborted, heap)

/-- `call` up to the start function: what there is to call, if anything, and on which instance. -/
def prepareCall (commits : Bool) (entryPoint : Bytes) (args : List Value) (context : Nat)
    (instantiated : WasmInstantiatedModule) (process : Process) :
    Except Failure (Option (FunctionInstance × WasmInstantiatedModule)) × Process :=
  match getExportedFunction instantiated.instance_ entryPoint with
  | none => (.ok none, process)
  | some call =>
    match ftlAssert (call.type.parameters.length = args.length) .wasmRuntime "" with
    | .error exception => (.error (.thrown exception), process)
    | .ok () =>
      let entry :=
        (call, { instantiated with instance_ := resetGlobalInstances instantiated.instance_ })
      match getDefaultMemory instantiated.instance_ with
      | none => (.ok (some entry), { process with running := ⟨none, some context⟩ })
      | some memory =>
        match instantiated.resetDefaultMemory commits memory process.heap with
        | (.error failure, heap) => (.error failure, { process with heap })
        | (.ok (), heap) => (.ok (some entry), ⟨heap, ⟨some memory, some context⟩⟩)

/-- `apply`, up to the start function. -/
def prepareApply (commits : Bool) (actionName : UInt64) (context : Nat)
    (instantiated : WasmInstantiatedModule) (process : Process) :
    Except Failure (Option (FunctionInstance × WasmInstantiatedModule)) × Process :=
  instantiated.prepareCall commits (str "apply") [.i64 actionName] context process

/-! ## What a call does first -/

/-- The outcomes of the part that is about the default memory. -/
inductive MemoryReset (commits : Bool) (instantiated : WasmInstantiatedModule) (memory : Nat)
    (heap : Heap) : Except Failure Unit → Heap → Prop
  | missing (hmissing : heap.memories[memory]? = none ∨ instantiated.module.memories.defs = []) :
      MemoryReset commits instantiated memory heap (.error .aborted) heap
  | refused {defaultMem left : MemoryInstance} {type : MemoryType} {exception : Exception}
      (hmemory : heap.memories[memory]? = some defaultMem)
      (htype : instantiated.module.memories.defs.head? = some type)
      (hreset : defaultMem.resetMemory commits type = (.error exception, left)) :
      MemoryReset commits instantiated memory heap (.error (.thrown exception))
        { heap with memories := heap.memories.set memory left }
  | done {defaultMem left : MemoryInstance} {type : MemoryType}
      (hmemory : heap.memories[memory]? = some defaultMem)
      (htype : instantiated.module.memories.defs.head? = some type)
      (hreset : defaultMem.resetMemory commits type = (.ok (), left)) :
      MemoryReset commits instantiated memory heap (.ok ())
        { heap with
          memories := heap.memories.set memory
            { left with contents := memcpy left.contents 0 instantiated.initialMemory } }

theorem memoryReset (commits : Bool) (instantiated : WasmInstantiatedModule) (memory : Nat)
    (heap : Heap) :
    MemoryReset commits instantiated memory heap
      (instantiated.resetDefaultMemory commits memory heap).1
      (instantiated.resetDefaultMemory commits memory heap).2 := by
  unfold resetDefaultMemory
  split
  · next defaultMem newMemoryType memories hmemory hdefs =>
    split
    · next hreset => exact .refused hmemory (by rw [hdefs]; rfl) hreset
    · next hreset => exact .done hmemory (by rw [hdefs]; rfl) hreset
  · next hother =>
    apply MemoryReset.missing
    cases hmemory : heap.memories[memory]? with
    | none => exact .inl rfl
    | some defaultMem =>
      cases hdefs : instantiated.module.memories.defs with
      | nil => exact .inr rfl
      | cons type memories => exact absurd hdefs (hother defaultMem type memories hmemory)

/-- What there is to run behind the first part of a call. -/
def reset (instantiated : WasmInstantiatedModule) : WasmInstantiatedModule :=
  { instantiated with instance_ := resetGlobalInstances instantiated.instance_ }

/-- The outcomes of a call up to the start function. -/
inductive Prepared (commits : Bool) (entryPoint : Bytes) (args : List Value) (context : Nat)
    (instantiated : WasmInstantiatedModule) (process : Process) :
    Except Failure (Option (FunctionInstance × WasmInstantiatedModule)) → Process → Prop
  | missing (hexport : getExportedFunction instantiated.instance_ entryPoint = none) :
      Prepared commits entryPoint args context instantiated process (.ok none) process
  | arity {call : FunctionInstance}
      (hexport : getExportedFunction instantiated.instance_ entryPoint = some call)
      (harity : call.type.parameters.length ≠ args.length) :
      Prepared commits entryPoint args context instantiated process
        (.error (.thrown (.ftl .wasmRuntime ""))) process
  | unreset {call : FunctionInstance} {memory : Nat} {failure : Failure} {heap : Heap}
      (hexport : getExportedFunction instantiated.instance_ entryPoint = some call)
      (harity : call.type.parameters.length = args.length)
      (hmemory : getDefaultMemory instantiated.instance_ = some memory)
      (hreset : MemoryReset commits instantiated memory process.heap (.error failure) heap) :
      Prepared commits entryPoint args context instantiated process (.error failure)
        { process with heap }
  | withoutMemory {call : FunctionInstance}
      (hexport : getExportedFunction instantiated.instance_ entryPoint = some call)
      (harity : call.type.parameters.length = args.length)
      (hmemory : getDefaultMemory instantiated.instance_ = none) :
      Prepared commits entryPoint args context instantiated process
        (.ok (some (call, instantiated.reset))) { process with running := ⟨none, some context⟩ }
  | withMemory {call : FunctionInstance} {memory : Nat} {heap : Heap}
      (hexport : getExportedFunction instantiated.instance_ entryPoint = some call)
      (harity : call.type.parameters.length = args.length)
      (hmemory : getDefaultMemory instantiated.instance_ = some memory)
      (hreset : MemoryReset commits instantiated memory process.heap (.ok ()) heap) :
      Prepared commits entryPoint args context instantiated process
        (.ok (some (call, instantiated.reset))) ⟨heap, ⟨some memory, some context⟩⟩

theorem prepared (commits : Bool) (entryPoint : Bytes) (args : List Value) (context : Nat)
    (instantiated : WasmInstantiatedModule) (process : Process) :
    Prepared commits entryPoint args context instantiated process
      (instantiated.prepareCall commits entryPoint args context process).1
      (instantiated.prepareCall commits entryPoint args context process).2 := by
  unfold prepareCall
  split
  · next hexport => exact .missing hexport
  · next call hexport =>
    by_cases harity : call.type.parameters.length = args.length
    · simp only [ftlAssert, harity, decide_true, if_true]
      split
      · next hmemory => exact .withoutMemory hexport harity hmemory
      · next memory hmemory =>
        have hreset := memoryReset commits instantiated memory process.heap
        generalize instantiated.resetDefaultMemory commits memory process.heap = outcome at hreset ⊢
        obtain ⟨result, heap⟩ := outcome
        cases result with
        | error failure => exact .unreset hexport harity hmemory hreset
        | ok _ => exact .withMemory hexport harity hmemory hreset
    · simp only [ftlAssert, harity, decide_false]
      exact .arity hexport harity

end WasmInstantiatedModule

/-! ## What an instance is given -/

namespace WasmInterface

/-- An image depends on the data segments and on the initial size of the memory. -/
theorem parseInitialMemory_congr {module m : Module}
    (hsegments : module.dataSegments = m.dataSegments)
    (hmemories : module.memories.defs = clampFirst m.memories.defs) :
    parseInitialMemory module = parseInitialMemory m := by
  have hround : parseDataSegment module = parseDataSegment m := by
    funext memImage dataSegment
    unfold parseDataSegment
    rw [hmemories]
    cases m.memories.defs with
    | nil => rfl
    | cons memory memories => cases dataSegment.baseOffset <;> rfl
  unfold parseInitialMemory
  rw [hround, hsegments]

/-- Where there is a memory, it stands for every definition. -/
theorem instantiateMemories_of_some {platform : Platform} {heap : Heap} {memory : Nat}
    (hmemory : heap.theMemoryInstance = some memory) (memoryDefs : List MemoryType) :
    instantiateMemories platform memoryDefs heap = (.ok (memoryDefs.map fun _ => memory), heap) := by
  induction memoryDefs with
  | nil => rfl
  | cons memoryDef memoryDefs ih =>
    unfold instantiateMemories
    simp only [hmemory, ih]
    rfl

/-- Else one is made, for the first definition. -/
theorem instantiateMemories_of_none {platform : Platform} {heap : Heap} {memoryDef : MemoryType}
    {memoryDefs : List MemoryType} (hmemory : heap.theMemoryInstance = none) :
    instantiateMemories platform (memoryDef :: memoryDefs) heap =
      match MemoryInstance.createMemory platform.allocatesMemory platform.commitsMemory
        memoryDef with
      | none => (causeException .outOfMemory, heap)
      | some created =>
        (.ok ((memoryDef :: memoryDefs).map fun _ => heap.memories.length),
          ⟨heap.memories ++ [created], some heap.memories.length⟩) := by
  unfold instantiateMemories
  simp only [hmemory]
  cases MemoryInstance.createMemory platform.allocatesMemory platform.commitsMemory memoryDef with
  | none => rfl
  | some created =>
    have hrest := @instantiateMemories_of_some platform
      ⟨heap.memories ++ [created], some heap.memories.length⟩ _ rfl memoryDefs
    simp only [hrest]
    rfl

/-- What an instantiation does to the heap. -/
inductive Allocated (platform : Platform) (memoryDefs : List MemoryType) (heap : Heap) :
    Except Failure (List Nat) → Heap → Prop
  | none (hdefs : memoryDefs = []) : Allocated platform memoryDefs heap (.ok []) heap
  | shared {memory : Nat} (hmemory : heap.theMemoryInstance = some memory) :
      Allocated platform memoryDefs heap (.ok (memoryDefs.map fun _ => memory)) heap
  | refused (hmemory : heap.theMemoryInstance = .none) :
      Allocated platform memoryDefs heap (causeException .outOfMemory) heap
  | created {memoryDef : MemoryType} {created : MemoryInstance}
      (hmemory : heap.theMemoryInstance = .none) (hhead : memoryDefs.head? = some memoryDef)
      (hcreate : MemoryInstance.createMemory platform.allocatesMemory platform.commitsMemory
        memoryDef = some created) :
      Allocated platform memoryDefs heap (.ok (memoryDefs.map fun _ => heap.memories.length))
        ⟨heap.memories ++ [created], some heap.memories.length⟩

theorem allocated_instantiateMemories (platform : Platform) (memoryDefs : List MemoryType)
    (heap : Heap) :
    Allocated platform memoryDefs heap (instantiateMemories platform memoryDefs heap).1
      (instantiateMemories platform memoryDefs heap).2 := by
  cases memoryDefs with
  | nil => exact .none rfl
  | cons memoryDef memoryDefs =>
    cases hmemory : heap.theMemoryInstance with
    | some memory =>
      rw [instantiateMemories_of_some hmemory]
      exact .shared hmemory
    | none =>
      rw [instantiateMemories_of_none hmemory]
      split
      · exact .refused hmemory
      · next created hcreate => exact .created hmemory rfl hcreate

/-- The only memory is clamped. -/
theorem max_le_of_mem_clampFirst {memories : List MemoryType} {type : MemoryType}
    (hone : (clampFirst memories).length ≤ 1) (hmem : type ∈ clampFirst memories) :
    type.size.max ≤ maximumLinearMemory / wasmPageSize := by
  cases memories with
  | nil => exact absurd hmem List.not_mem_nil
  | cons memory memories =>
    have hrest : memories = [] := by
      apply List.eq_nil_of_length_eq_zero
      simp only [clampFirst, List.length_cons] at hone
      omega
    rw [hrest] at hmem
    obtain rfl := List.mem_singleton.1 hmem
    exact Nat.min_le_right _ _

theorem memories_eq_of_injected {m : Module} {injection : Injection} (h : Injected m injection) :
    injection.module.memories.defs = clampFirst m.memories.defs := by
  rw [h.memories]

theorem fits_of_injected {m : Module} {injection : Injection} (h : Injected m injection)
    (hdefinitions : validateDefinitions injection.module = .ok ()) {type : MemoryType}
    (hmem : type ∈ injection.module.memories.defs) :
    MemoryType.Fits (maximumLinearMemory / wasmPageSize) type := by
  have hvalid := ValidDefinitions.of_validate hdefinitions
  refine ⟨min_le_max_of_validate (hvalid.memoryTypes type hmem), ?_⟩
  have hone := hvalid.memories
  rw [IndexSpace.size, memories_eq_of_injected h] at hone
  rw [memories_eq_of_injected h] at hmem
  exact max_le_of_mem_clampFirst (by omega) hmem

/-- What an instance of the contract `m` knows of its memory and its globals. -/
structure Holds (m : Module) (instantiated : WasmInstantiatedModule) : Prop where
  memories : instantiated.module.memories.defs = clampFirst m.memories.defs
  fits : ∀ type ∈ instantiated.module.memories.defs,
    MemoryType.Fits (maximumLinearMemory / wasmPageSize) type
  image : parseInitialMemory m = .ok instantiated.initialMemory
  globals : instantiateGlobals m.globals.defs = .ok instantiated.instance_.globals
  instances : instantiated.instance_.memories.length = m.memories.defs.length

theorem MadeFrom.holds {platform : Platform} {m : Module} {injection : Injection}
    {intrinsics : List Intrinsics.Function} {memories : List Nat} {heap heap' : Heap}
    {instantiated : WasmInstantiatedModule}
    (h : MadeFrom platform m injection intrinsics memories heap heap' instantiated) :
    Holds m instantiated := by
  obtain ⟨bytes, hinstrumented⟩ := h.instrumented
  obtain ⟨tables, hcomplete⟩ := h.complete
  have hcompleted := completed_of_completeInstance hcomplete
  have hclamped := memories_eq_of_injected hinstrumented.injected
  have hlength : (clampFirst m.memories.defs).length = m.memories.defs.length := by
    cases m.memories.defs <;> rfl
  refine ⟨by rw [h.module, hclamped], ?_, ?_, ?_, ?_⟩
  · intro type hmem
    rw [h.module] at hmem
    exact fits_of_injected hinstrumented.injected h.definitions hmem
  · rw [← hinstrumented.parsed, parseInitialMemory_congr hinstrumented.injected.dataSegments hclamped]
  · have hsame : injection.module.globals = m.globals := by
      rw [hinstrumented.injected.shiftedBy.globals, maxMemoryInject_eq]
    rw [← hsame]
    exact hcompleted.globals
  · have hallocated := allocated_instantiateMemories platform injection.module.memories.defs heap
    rw [h.allocated] at hallocated
    rw [hcompleted.memories, ← hlength, ← hclamped]
    cases hallocated with
    | none hdefs =>
      rw [hdefs]
      rfl
    | shared hmemory => exact List.length_map _
    | created hmemory hhead hcreate => exact List.length_map _

end WasmInterface

end FractalWasm
