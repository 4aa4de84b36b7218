import FractalWasm.Runtime.ModuleInstance
import FractalWasm.Wasmlib.Instrumented
import FractalWasm.Wasmlib.Statics

/-!
# From bytes to an instance

`wasm_interface` and `wavm_runtime`. A contract is decoded, injected, encoded and decoded again, and
then linked and instantiated. Validation is another entry point, which decodes, applies the
constraints and links; nothing on the way to an instance calls it.

**Instances** (`MadeFrom`, `InstanceOf`): what a successful start says of the contract it started
from: the decoded module, its injected form, the image of its memory and the functions its imports
were linked to (`madeFrom_of_getInstantiatedModule`).
-/

namespace FractalWasm

open Codec IR FractalWasm.Runtime WASM WasmInjections

namespace WasmInterface

/-- The `catch` clauses around a serialization. -/
def rethrow : Exception → Exception
  | .fatalSerialization message | .validation message => .ftl .wasmSerialization message
  | exception => exception

/-- `WASM::serialize` from bytes, within the `try` block around each of its calls. -/
def readModule (code : Bytes) : Except Exception Module := (decode code).mapError rethrow

/-- `WASM::serialize` to bytes, within its `try` block. -/
def writeModule (module : Module) : Except Exception Bytes := (encode module).mapError rethrow

/-- `wasm_interface::validate` -/
def validate (statics : Statics) (code : Bytes) : Except Exception Statics := do
  let module ← readModule code
  let statics ← statics.validate module
  let _linked ← linkModule true module
  return statics

/-! ## The initial memory -/

/-- `resize`, when it makes the image longer, and `memcpy` of a data segment into it. -/
def copySegment (memImage : Bytes) (baseOffset : Nat) (data : Bytes) : Bytes :=
  let memImage := memImage ++ List.replicate (baseOffset + data.length - memImage.length) 0
  memImage.take baseOffset ++ data ++ memImage.drop (baseOffset + data.length)

/-- One round of `parse_initial_memory`. The size is a `Uptr` there; a minimum is read as a varuint32,
so that the shift by 16 stays below `2 ^ 64`. -/
def parseDataSegment (module : Module) (memImage : Bytes) (dataSegment : DataSegment) :
    Except Exception Bytes :=
  match dataSegment.baseOffset, module.memories.defs with
  | .i32Const base, memory :: _ =>
    let baseOffset := base.toNat
    let memorySize := memory.size.min * Serialization.wasmPageSize
    if memorySize ≤ baseOffset ∨ memorySize < baseOffset + dataSegment.data.length then
      ftlThrow .wasmRuntime "WASM data segment outside of valid memory range"
    else .ok (copySegment memImage baseOffset dataSegment.data)
  -- The two assertions have no text.
  | _, _ => ftlThrow .wasmRuntime ""

/-- `parse_initial_memory` -/
def parseInitialMemory (module : Module) : Except Exception Bytes :=
  module.dataSegments.foldlM (parseDataSegment module) []

/-! ## Instances -/

end WasmInterface

/-- `wasm_instantiated_module` -/
structure WasmInstantiatedModule where
  initialMemory : Bytes
  instance_ : ModuleInstance
  module : Module

namespace WasmInterface

/-- `wavm_runtime::instantiate_module`. The resolver is not the validating one. -/
def instantiateModule (platform : Platform) (code initialMemory : Bytes) (heap : Heap) :
    Except Failure WasmInstantiatedModule × Heap :=
  let linked : Except Exception (Module × List Intrinsics.Function) := do
    let module ← readModule code
    let functions ← linkModule false module
    return (module, functions)
  match linked with
  | .error exception => (.error (.thrown exception), heap)
  | .ok (module, functions) =>
    let (instance_, heap) := Runtime.instantiateModule platform module functions heap
    (instance_.map fun instance_ => ⟨initialMemory, instance_, module⟩, heap)

/-- What `get_instantiated_module` hands to `instantiate_module`. -/
def instrument (statics : Statics) (code : Bytes) : Except Exception (Bytes × Bytes) := do
  let module ← readModule code
  let (module, _) ← statics.inject module.withoutUserSections
  let bytes ← writeModule module
  let initialMemory ← parseInitialMemory module
  return (bytes, initialMemory)

/-- `get_instantiated_module`. The cache belongs to the interface, which runs one code only. -/
def getInstantiatedModule (platform : Platform) (statics : Statics) (code : Bytes) (heap : Heap) :
    Except Failure WasmInstantiatedModule × Heap :=
  match instrument statics code with
  | .error exception => (.error (.thrown exception), heap)
  | .ok (bytes, initialMemory) => instantiateModule platform bytes initialMemory heap

/-! ## What an instance is made from -/

theorem mapError_eq_ok {ε ε' α : Type} {f : ε → ε'} {result : Except ε α} {a : α} :
    result.mapError f = .ok a ↔ result = .ok a := by
  cases result <;> simp [Except.mapError]

theorem inject_eq_ok {statics statics' : Statics} {m m' : Module}
    (h : statics.inject m = .ok (m', statics')) :
    ∃ injection caches, inject statics.caches m = .ok (injection, caches) ∧
      injection.module = m' := by
  rw [Statics.inject_eq] at h
  obtain ⟨⟨injection, caches⟩, hinject, h⟩ := Except.bind_eq_ok.1 h
  cases h
  exact ⟨injection, caches, hinject, rfl⟩

/-- The contract `m`, injected and written as `bytes`. -/
structure Instrumented (m : Module) (injection : Injection) (bytes initialMemory : Bytes) :
    Prop where
  readable : Readable m
  injected : Injected m injection
  encoded : encode injection.module = .ok bytes
  parsed : parseInitialMemory injection.module = .ok initialMemory

theorem instrumented_of_instrument {statics : Statics} {code bytes initialMemory : Bytes}
    (h : instrument statics code = .ok (bytes, initialMemory)) :
    ∃ m injection, decode code = .ok m ∧
      Instrumented m.withoutUserSections injection bytes initialMemory := by
  obtain ⟨m, hread, h⟩ := Except.bind_eq_ok.1 h
  obtain ⟨⟨m', statics'⟩, hinject, h⟩ := Except.bind_eq_ok.1 h
  obtain ⟨out, hwrite, h⟩ := Except.bind_eq_ok.1 h
  obtain ⟨image, himage, h⟩ := Except.bind_eq_ok.1 h
  cases h
  have hdecode := mapError_eq_ok.1 hread
  have hreadable := readable_of_decode hdecode
  obtain ⟨injection, caches, hcontract, rfl⟩ := inject_eq_ok hinject
  obtain ⟨injection', caches', hinject', hinjected⟩ :=
    injected_of_decoded hreadable.decoded statics.caches
  rw [hcontract] at hinject'
  cases hinject'
  exact ⟨m, injection, hdecode, hreadable, hinjected, mapError_eq_ok.1 hwrite, himage⟩

/-- What `get_instantiated_module` goes through to an instance of the contract `m`. -/
structure MadeFrom (platform : Platform) (m : Module) (injection : Injection)
    (intrinsics : List Intrinsics.Function) (memories : List Nat) (heap heap' : Heap)
    (instantiated : WasmInstantiatedModule) : Prop where
  instrumented : ∃ bytes, Instrumented m injection bytes instantiated.initialMemory
  module : instantiated.module = injection.module
  definitions : validateDefinitions injection.module = .ok ()
  linked : linkModule false injection.module = .ok intrinsics
  allocated : instantiateMemories platform injection.module.memories.defs heap =
    (.ok memories, heap')
  complete : ∃ tables, completeInstance platform injection.module intrinsics tables memories =
    .ok instantiated.instance_

/-- What was written is read again before it is linked. -/
theorem linked_of_instrument {statics : Statics} {code bytes initialMemory : Bytes}
    {module : Module} {functions : List Intrinsics.Function}
    (hinstrument : instrument statics code = .ok (bytes, initialMemory))
    (hlinked : (do
      let module ← readModule bytes
      let functions ← linkModule false module
      return (module, functions)) = .ok (module, functions)) :
    ∃ m injection, decode code = .ok m ∧
      Instrumented m.withoutUserSections injection bytes initialMemory ∧
        module = injection.module ∧ validateDefinitions injection.module = .ok () ∧
          linkModule false injection.module = .ok functions := by
  obtain ⟨m, injection, hdecode, hm⟩ := instrumented_of_instrument hinstrument
  obtain ⟨read, hread, hlinked⟩ := Except.bind_eq_ok.1 hlinked
  obtain ⟨functions', hlink, hlinked⟩ := Except.bind_eq_ok.1 hlinked
  cases hlinked
  obtain ⟨rfl, hvalid⟩ := hm.injected.decode_eq hm.readable hm.encoded (mapError_eq_ok.1 hread)
  exact ⟨m, injection, hdecode, hm, rfl, hvalid, hlink⟩

theorem madeFrom_of_getInstantiatedModule {platform : Platform} {statics : Statics}
    {code : Bytes} {heap heap' : Heap} {instantiated : WasmInstantiatedModule}
    (h : getInstantiatedModule platform statics code heap = (.ok instantiated, heap')) :
    ∃ m injection intrinsics memories, decode code = .ok m ∧
      MadeFrom platform m.withoutUserSections injection intrinsics memories heap heap'
        instantiated := by
  unfold getInstantiatedModule at h
  split at h
  · cases h
  · next bytes initialMemory hinstrument =>
    unfold instantiateModule at h
    dsimp only at h
    split at h
    · cases h
    · next module functions hlinked =>
      obtain ⟨m, injection, hdecode, hm, rfl, hvalid, hlink⟩ :=
        linked_of_instrument hinstrument hlinked
      obtain ⟨hinstance, rfl⟩ := Prod.mk.inj h
      cases hresult : Runtime.instantiateModule platform injection.module functions heap with
      | mk result heap' =>
        rw [hresult] at hinstance
        cases result with
        | error failure => cases hinstance
        | ok instance_ =>
          cases hinstance
          obtain ⟨tables, memories, hmemories, hcomplete⟩ :=
            completeInstance_of_instantiateModule hresult
          exact ⟨m, injection, functions, memories, hdecode, ⟨bytes, hm⟩, rfl, hvalid, hlink,
            hmemories, tables, hcomplete⟩

/-- An instance of the contract `m`. -/
structure InstanceOf (m : Module) (injection : Injection)
    (intrinsics : List Intrinsics.Function) (instantiated : WasmInstantiatedModule) : Prop where
  readable : Readable m
  injected : Injected m injection
  module : instantiated.module = injection.module
  definitions : validateDefinitions injection.module = .ok ()
  linked : Linked false injection.module intrinsics
  functions : instantiated.instance_.functions = instantiateFunctions injection.module intrinsics

theorem instanceOf_of_getInstantiatedModule {platform : Platform} {statics : Statics}
    {code : Bytes} {heap heap' : Heap} {instantiated : WasmInstantiatedModule}
    (h : getInstantiatedModule platform statics code heap = (.ok instantiated, heap')) :
    ∃ m injection intrinsics, decode code = .ok m ∧
      InstanceOf m.withoutUserSections injection intrinsics instantiated := by
  obtain ⟨m, injection, functions, memories, hdecode, hmade⟩ :=
    madeFrom_of_getInstantiatedModule h
  obtain ⟨bytes, hm⟩ := hmade.instrumented
  obtain ⟨tables, hcomplete⟩ := hmade.complete
  exact ⟨m, injection, functions, hdecode, hm.readable, hm.injected, hmade.module,
    hmade.definitions, linked_of_linkModule hmade.linked,
    (completed_of_completeInstance hcomplete).functions⟩

end WasmInterface

end FractalWasm
