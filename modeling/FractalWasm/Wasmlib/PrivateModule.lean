import FractalWasm.Wasmlib.Interface

/-!
# The private module

`use_gas` and the softfloat functions are registered under a module of their own, which validation
forbids to import. Execution does not validate: its resolver finds them for whoever asks. So they
are out of a contract's reach exactly if the contract does not import them.

**Calls of the private module**: those the injection inserts (`InsertedCall`), and those a contract
makes through an import of its own.

**Out of reach** (`PrivateUnreachable`): no call of the contract's own code gets there. Where the
module name is imported, the execution path links it like any other.
-/

namespace FractalWasm

open Codec IR FractalWasm.Runtime WASM WasmInjections

/-- The instance has a function of the private module at this index. -/
def WasmInstantiatedModule.IsPrivate (instantiated : WasmInstantiatedModule)
    (functionIndex : Nat) : Prop :=
  ∃ function ∈ Intrinsics.injectedFunctions,
    instantiated.instance_.functions[functionIndex]? = some (.intrinsic function)

namespace WasmInterface

/-- An operator of a metered body that the contract did not write as a call: a charge, or an
operator that a call stands for later. -/
def InsertedCall (m : Module) (op : Operator) : Prop :=
  op = .call (useGasIndex m) ∨ (replaced? op).isSome

/-- The contract `m` reaches no private function in its instance: none of its own imports, which
follow the injected ones, is resolved to one; a call of one stands where the injection put it; and
no export, start function or table entry is one. -/
structure PrivateUnreachable (m : Module) (instantiated : WasmInstantiatedModule) : Prop where
  imports : ∀ i < m.functions.imports.length, ¬ instantiated.IsPrivate
    (i + (instantiated.module.functions.imports.length - m.functions.imports.length))
  bodies : ∀ {place : Nat} {fd : FunctionDef}, m.functions.defs[place]? = some fd →
    ∃ ops, instantiated.module.bodies place = some ops ∧
      List.Forall₂ (fun op op' => ∀ functionIndex, op' = .call functionIndex →
        instantiated.IsPrivate functionIndex.toNat → InsertedCall m op) (meteredOps m fd) ops
  exports : ∀ exportIt ∈ instantiated.module.exports, exportIt.kind = .function →
    ¬ instantiated.IsPrivate exportIt.index
  start : ∀ functionIndex, instantiated.module.startFunctionIndex = some functionIndex →
    ¬ instantiated.IsPrivate functionIndex
  tableSegments : ∀ tableSegment ∈ instantiated.module.tableSegments,
    ∀ functionIndex ∈ tableSegment.indices, ¬ instantiated.IsPrivate functionIndex

namespace InstanceOf

variable {m : Module} {injection : Injection} {intrinsics : List Intrinsics.Function}
  {instantiated : WasmInstantiatedModule}

/-- The imports come first among the functions of an instance. -/
theorem getElem?_functions (h : InstanceOf m injection intrinsics instantiated)
    {functionIndex : Nat} {function : Intrinsics.Function} :
    instantiated.instance_.functions[functionIndex]? = some (.intrinsic function) ↔
      intrinsics[functionIndex]? = some function := by
  rw [h.functions, instantiateFunctions]
  by_cases hlt : functionIndex < intrinsics.length
  · rw [List.getElem?_append_left (by rwa [List.length_map]), List.getElem?_map]
    simp
  · rw [List.getElem?_append_right (by rw [List.length_map]; omega), List.getElem?_mapIdx,
      List.getElem?_eq_none (Nat.not_lt.1 hlt)]
    simp

theorem isPrivate_iff (h : InstanceOf m injection intrinsics instantiated) {functionIndex : Nat} :
    instantiated.IsPrivate functionIndex ↔
      ∃ imp, injection.module.functions.imports[functionIndex]? = some imp ∧
        imp.moduleName = injectedModuleName := by
  have hlength := h.linked.functions.length_eq
  unfold WasmInstantiatedModule.IsPrivate
  simp only [h.getElem?_functions]
  constructor
  · rintro ⟨function, hprivate, hget⟩
    obtain ⟨hlt, rfl⟩ := List.getElem?_eq_some_iff.1 hget
    obtain ⟨hresolves, -⟩ := h.linked.functions.get (hlength ▸ hlt) hlt
    refine ⟨_, List.getElem?_eq_getElem (hlength ▸ hlt), ?_⟩
    exact (Intrinsics.mem_injectedFunctions_iff hresolves.registered hresolves.name).1 hprivate
  · rintro ⟨imp, hget, hname⟩
    obtain ⟨hlt, rfl⟩ := List.getElem?_eq_some_iff.1 hget
    obtain ⟨hresolves, -⟩ := h.linked.functions.get hlt (hlength ▸ hlt)
    refine ⟨_, ?_, List.getElem?_eq_getElem (hlength ▸ hlt)⟩
    exact (Intrinsics.mem_injectedFunctions_iff hresolves.registered hresolves.name).2 hname

/-- The contract's own imports follow the injected ones. -/
theorem getElem?_imports (h : InstanceOf m injection intrinsics instantiated) (i : Nat) :
    injection.module.functions.imports[i + (usedIntrinsics m).length]? =
      m.functions.imports[i]? := by
  obtain ⟨injected, himports, hall⟩ := h.injected.registered.imports
  rw [himports, functions_maxMemoryInject, ← hall.length_eq,
    List.getElem?_append_right (Nat.le_add_left _ _), Nat.add_sub_cancel]

theorem injected_lt (h : InstanceOf m injection intrinsics instantiated)
    (hforeign : ∀ imp ∈ m.functions.imports, imp.moduleName ≠ injectedModuleName)
    {functionIndex : Nat} (hprivate : instantiated.IsPrivate functionIndex) :
    functionIndex < (usedIntrinsics m).length := by
  obtain ⟨imp, hget, hname⟩ := h.isPrivate_iff.1 hprivate
  rcases Nat.lt_or_ge functionIndex (usedIntrinsics m).length with hlt | hle
  · exact hlt
  · obtain ⟨i, rfl⟩ := Nat.exists_eq_add_of_le' hle
    rw [h.getElem?_imports] at hget
    exact absurd hname (hforeign imp (List.mem_of_getElem? hget))

theorem length_injected (h : InstanceOf m injection intrinsics instantiated) :
    instantiated.module.functions.imports.length - m.functions.imports.length =
      (usedIntrinsics m).length := by
  rw [h.module, h.injected.length_imports, Nat.add_sub_cancel]

/-- An own import of the private module is resolved to a private function. -/
theorem isPrivate_import (h : InstanceOf m injection intrinsics instantiated) {i : Nat}
    {imp : Import Nat} (hget : m.functions.imports[i]? = some imp)
    (hname : imp.moduleName = injectedModuleName) : instantiated.IsPrivate
      (i + (instantiated.module.functions.imports.length - m.functions.imports.length)) := by
  rw [h.length_injected]
  exact h.isPrivate_iff.2 ⟨imp, (h.getElem?_imports i).trans hget, hname⟩

theorem privateUnreachable (h : InstanceOf m injection intrinsics instantiated)
    (hforeign : ∀ imp ∈ m.functions.imports, imp.moduleName ≠ injectedModuleName) :
    PrivateUnreachable m instantiated := by
  have hvalid := ValidDefinitions.of_validate h.readable.decoded.definitions
  have hshifted := h.injected.shiftedBy
  have hpublic : ∀ {functionIndex : Nat}, (usedIntrinsics m).length ≤ functionIndex →
      ¬ instantiated.IsPrivate functionIndex := by
    intro functionIndex hle hprivate
    exact Nat.not_lt.2 hle (h.injected_lt hforeign hprivate)
  refine ⟨?_, ?_, ?_, ?_, ?_⟩
  · intro i _
    rw [h.length_injected]
    exact hpublic (Nat.le_add_left _ _)
  · intro place fd hfd
    obtain ⟨ops, hops, hsame, -⟩ :=
      (h.injected.remapped h.readable.decoded hvalid).bodies hfd
    rw [h.module]
    refine ⟨ops, hops, hsame.imp ?_⟩
    intro op op' hsame functionIndex hcall hprivate
    subst hcall
    cases hsame with
    | charge => exact .inl rfl
    | replaced hx => exact .inr (Option.isSome_iff_exists.2 ⟨_, hx⟩)
    | call _ hle => exact absurd hprivate (hpublic hle)
    | other _ hcall => exact absurd rfl (hcall functionIndex)
  · rw [h.module, hshifted.exports]
    intro exportIt hmem hkind
    obtain ⟨original, -, rfl⟩ := List.mem_map.1 hmem
    unfold shiftExport at hkind ⊢
    split at hkind
    · next hfunction =>
      rw [if_pos hfunction]
      exact hpublic (Nat.le_add_left _ _)
    · next hother => exact absurd hkind hother
  · rw [h.module, hshifted.startFunctionIndex]
    intro functionIndex hstart
    obtain ⟨original, -, rfl⟩ := Option.map_eq_some_iff.1 hstart
    exact hpublic (Nat.le_add_left _ _)
  · rw [h.module, hshifted.tableSegments]
    intro tableSegment hmem functionIndex hentry
    obtain ⟨original, -, rfl⟩ := List.mem_map.1 hmem
    obtain ⟨index, -, rfl⟩ := List.mem_map.1 hentry
    exact hpublic (Nat.le_add_left _ _)

end InstanceOf

/-- The private functions are out of the reach of a contract that is instantiated exactly if it does
not import them: the resolver of the runtime lets every module's imports pass. -/
theorem private_unreachable_iff {platform : Platform} {statics : Statics} {code : Bytes}
    {heap heap' : Heap} {m : Module} {instantiated : WasmInstantiatedModule}
    (hdecode : decode code = .ok m)
    (h : getInstantiatedModule platform statics code heap = (.ok instantiated, heap')) :
    PrivateUnreachable m instantiated ↔
      ∀ imp ∈ m.functions.imports, imp.moduleName ≠ injectedModuleName := by
  obtain ⟨read, injection, intrinsics, hread, hinstance⟩ := instanceOf_of_getInstantiatedModule h
  rw [hdecode] at hread
  cases hread
  constructor
  · intro hunreachable imp hmem hname
    obtain ⟨i, hi, rfl⟩ := List.mem_iff_getElem.1 hmem
    apply hunreachable.imports i hi
    exact hinstance.isPrivate_import (List.getElem?_eq_getElem hi) hname
  · intro hforeign
    have hunreachable := hinstance.privateUnreachable hforeign
    exact ⟨hunreachable.imports, hunreachable.bodies, hunreachable.exports, hunreachable.start,
      hunreachable.tableSegments⟩

/-- A platform on which nothing fails. -/
def idealPlatform : Platform := ⟨true, true, true, true, fun _ => .ok ()⟩

theorem exists_ok {α β : Type} {result : Except Failure α × β}
    (h : result.1.toOption.isSome = true) : ∃ a b, result = (.ok a, b) := by
  obtain ⟨result, b⟩ := result
  cases result with
  | error failure => cases h
  | ok a => exact ⟨a, b, rfl⟩

theorem private_unreachable_iff_sample :
    ∃ instantiated heap', getInstantiatedModule idealPlatform .initial sampleBytes ⟨[], none⟩ =
        (.ok instantiated, heap') ∧ PrivateUnreachable sampleModule instantiated := by
  have heval : (getInstantiatedModule idealPlatform .initial sampleBytes
      ⟨[], none⟩).1.toOption.isSome = true := by decide +kernel
  obtain ⟨instantiated, heap', h⟩ := exists_ok heval
  refine ⟨instantiated, heap', h, (private_unreachable_iff decode_sampleBytes h).2 ?_⟩
  decide +kernel

/-- A contract that imports `use_gas` itself. -/
def hostileBytes : Bytes :=
  [0x00, 0x61, 0x73, 0x6d, 1, 0, 0, 0,
    1, 5, 1, 0x60, 1, 0x7e, 0,
    2, 27, 1, 15, 101, 111, 115, 105, 111, 95, 105, 110, 106, 101, 99, 116, 105, 111, 110,
    7, 117, 115, 101, 95, 103, 97, 115, 0, 0]

def hostileModule : Module :=
  { Module.empty with
    types := [⟨.none, [.i64]⟩]
    functions := ⟨[⟨0, injectedModuleName, str "use_gas"⟩], []⟩ }

theorem private_reachable :
    ∃ instantiated heap', decode hostileBytes = .ok hostileModule ∧
      getInstantiatedModule idealPlatform .initial hostileBytes ⟨[], none⟩ =
        (.ok instantiated, heap') ∧ ¬ PrivateUnreachable hostileModule instantiated := by
  have hdecode : (decode hostileBytes).toOption = some hostileModule := by decide +kernel
  have heval : (getInstantiatedModule idealPlatform .initial hostileBytes
      ⟨[], none⟩).1.toOption.isSome = true := by decide +kernel
  obtain ⟨instantiated, heap', h⟩ := exists_ok heval
  refine ⟨instantiated, heap', Except.toOption_eq_some.1 hdecode, h, ?_⟩
  intro hunreachable
  obtain ⟨read, injection, intrinsics, hread, hinstance⟩ := instanceOf_of_getInstantiatedModule h
  rw [Except.toOption_eq_some.1 hdecode] at hread
  cases hread
  apply hunreachable.imports 0 Nat.zero_lt_one
  exact @InstanceOf.isPrivate_import _ _ _ _ hinstance 0 _ rfl rfl

end WasmInterface

end FractalWasm
