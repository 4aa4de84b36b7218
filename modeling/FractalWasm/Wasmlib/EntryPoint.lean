import FractalWasm.Wasmlib.Apply
import FractalWasm.Wasmlib.PrivateModule
import FractalWasm.Wasmlib.WellTyped
import Mathlib.Data.List.Nodup

/-!
# The entry point

Validation wants an export `apply` of three parameters, and `apply` calls the export of that name
with one argument. The instance of a validated contract has the export that validation found, so
that its call always ends at the first assertion.

**What validation finds** (`FindsEntryPoint`): an export `apply` whose type has three parameters.

**What `apply` calls**: the same export, since exports have distinct names, with one argument. Its
call is refused before any code of the contract has run, for every contract that validation accepts.
-/

namespace FractalWasm

open Codec IR FractalWasm.Runtime WASM WasmInjections

namespace WasmInterface

/-! ## The functions of an instance -/

/-- The function of an index has the type the module gives it. -/
theorem type_of_getElem?_functions {m : Module} {injection : Injection}
    {intrinsics : List Intrinsics.Function} {instantiated : WasmInstantiatedModule}
    (h : InstanceOf m injection intrinsics instantiated) {functionIndex : Nat} {type : FunctionType}
    (htype : injection.module.functionType? functionIndex = some type) :
    ∃ function, instantiated.instance_.functions[functionIndex]? = some function ∧
      function.type = type := by
  have hlength := h.linked.functions.length_eq
  obtain ⟨typeIndex, hindex, hget⟩ := Option.bind_eq_some_iff.1 htype
  rw [h.functions, instantiateFunctions]
  unfold Module.functionTypeIndex? IndexSpace.getType? at hindex
  split at hindex
  · next hlt =>
    obtain ⟨imp, himport, rfl⟩ := Option.map_eq_some_iff.1 hindex
    obtain ⟨_, rfl⟩ := List.getElem?_eq_some_iff.1 himport
    obtain ⟨-, hsame⟩ := h.linked.functions.get hlt (hlength ▸ hlt)
    refine ⟨.intrinsic (intrinsics.get ⟨functionIndex, hlength ▸ hlt⟩), ?_, ?_⟩
    · rw [List.getElem?_append_left (by rw [List.length_map]; omega), List.getElem?_map,
        List.getElem?_eq_getElem (hlength ▸ hlt)]
      rfl
    · rw [List.get_eq_getElem, hget] at hsame
      exact hsame.symm
  · next hge =>
    obtain ⟨functionDef, hdef, rfl⟩ := Option.map_eq_some_iff.1 hindex
    refine ⟨.definition (functionIndex - injection.module.functions.imports.length)
      (functionDef.functionType injection.module), ?_, ?_⟩
    · rw [List.getElem?_append_right (by rw [List.length_map]; omega), List.length_map, ← hlength,
        List.getElem?_mapIdx, hdef]
      rfl
    · unfold FunctionInstance.type FunctionDef.functionType
      rw [hget]
      rfl

/-! ## Exports -/

/-- With names that differ, the export of a name is found. -/
theorem find?_reverse_of_nodup {exports : List Export} {exportIt : Export}
    (hnames : (exports.map Export.name).Nodup) (hmem : exportIt ∈ exports) :
    exports.reverse.find? (fun other => other.name = exportIt.name) = some exportIt := by
  cases hfind : exports.reverse.find? (fun other => other.name = exportIt.name) with
  | none =>
    have hnone := List.find?_eq_none.1 hfind exportIt (List.mem_reverse.2 hmem)
    simp at hnone
  | some found =>
    have hname : found.name = exportIt.name := by simpa using List.find?_some hfind
    have hfound := List.mem_reverse.1 (List.mem_of_find?_eq_some hfind)
    rw [List.inj_on_of_nodup_map hnames hfound hmem hname]

theorem name_shiftExport (k : Nat) (exportIt : Export) :
    (shiftExport k exportIt).name = exportIt.name := by
  unfold shiftExport
  split <;> rfl

/-- The instance of a contract has its exported functions under their names. -/
theorem getExportedFunction_of_export {platform : Platform} {m : Module} {injection : Injection}
    {intrinsics : List Intrinsics.Function} {memories : List Nat} {heap heap' : Heap}
    {instantiated : WasmInstantiatedModule}
    (h : MadeFrom platform m injection intrinsics memories heap heap' instantiated)
    {exportIt : Export} {type : FunctionType} (hmem : exportIt ∈ m.exports)
    (hkind : exportIt.kind = .function) (htype : m.functionType? exportIt.index = some type) :
    ∃ function, getExportedFunction instantiated.instance_ exportIt.name = some function ∧
      function.type = type := by
  obtain ⟨bytes, hinstrumented⟩ := h.instrumented
  obtain ⟨tables, hcomplete⟩ := h.complete
  have hcompleted := completed_of_completeInstance hcomplete
  have hinjected := hinstrumented.injected
  have hvalid := ValidDefinitions.of_validate hinstrumented.readable.decoded.definitions
  have hinstance : InstanceOf m injection intrinsics instantiated :=
    ⟨hinstrumented.readable, hinjected, h.module, h.definitions, linked_of_linkModule h.linked,
      hcompleted.functions⟩
  have horiginal := hinjected.functionType?_original hvalid
    (Module.lt_size_of_functionType? htype)
  rw [htype] at horiginal
  obtain ⟨function, hfunction, hsame⟩ := type_of_getElem?_functions hinstance horiginal
  refine ⟨function, ?_, hsame⟩
  have hshifted : shiftExport (usedIntrinsics m).length exportIt ∈ instantiated.instance_.exports := by
    rw [hcompleted.exports, hinjected.shiftedBy.exports, maxMemoryInject_eq]
    exact List.mem_map_of_mem hmem
  have hnames : (instantiated.instance_.exports.map Export.name).Nodup := by
    have hcompose : Export.name ∘ shiftExport (usedIntrinsics m).length = Export.name :=
      funext (name_shiftExport _)
    rw [hcompleted.exports, hinjected.shiftedBy.exports, maxMemoryInject_eq, List.map_map, hcompose]
    exact hvalid.exportNames
  have hfind := find?_reverse_of_nodup hnames hshifted
  rw [name_shiftExport] at hfind
  unfold getExportedFunction
  rw [hfind]
  simp only [shiftExport, hkind, if_true, Option.bind_eq_bind, Option.bind_some]
  exact hfunction

/-! ## The demand of validation -/

/-- What `apply` needs: an export of that name, of as many parameters as there are arguments, and of
their types. -/
def FindsEntryPoint (instantiated : WasmInstantiatedModule) (actionName : UInt64) : Prop :=
  ∃ call, getExportedFunction instantiated.instance_ (str "apply") = some call ∧
    call.type.parameters.length = [Value.i64 actionName].length ∧
      checkParameters call [.i64 actionName] = .ok ()

theorem exists_of_validate {statics statics' : Statics} {code : Bytes} {m : Module}
    (hdecode : decode code = .ok m) (h : validate statics code = .ok statics') :
    ∃ exportIt ∈ m.exports, WasmValidations.exportsApply m exportIt = true := by
  obtain ⟨read, hread, h⟩ := Except.bind_eq_ok.1 h
  have hsame := mapError_eq_ok.1 hread
  rw [hdecode] at hsame
  cases hsame
  obtain ⟨after, hvalidator, -⟩ := Except.bind_eq_ok.1 h
  obtain ⟨constrainers, hvalidator, -⟩ := Except.bind_eq_ok.1 hvalidator
  obtain ⟨_, hmodule, -⟩ := Except.bind_eq_ok.1 hvalidator
  obtain ⟨_, -, hmodule⟩ := Except.bind_eq_ok.1 hmodule
  obtain ⟨_, -, hmodule⟩ := Except.bind_eq_ok.1 hmodule
  obtain ⟨_, -, hmodule⟩ := Except.bind_eq_ok.1 hmodule
  obtain ⟨_, -, hmodule⟩ := Except.bind_eq_ok.1 hmodule
  obtain ⟨_, -, hmodule⟩ := Except.bind_eq_ok.1 hmodule
  unfold WasmValidations.ensureApplyExportedVisitor at hmodule
  split at hmodule
  · next hany => exact List.any_eq_true.1 hany
  · cases hmodule

/-- **Validation and execution disagree.** The entry point that validation found is there, with its
three parameters; `apply` has one argument for it and throws. -/
theorem apply_never_called {statics statics' injector : Statics} {platform : Platform}
    {code : Bytes} {heap heap' : Heap} {instantiated : WasmInstantiatedModule}
    (hvalidate : validate statics code = .ok statics')
    (hmake : getInstantiatedModule platform injector code heap = (.ok instantiated, heap'))
    (commits : Bool) (actionName : UInt64) (context : Nat) (process : Process) :
    (getExportedFunction instantiated.instance_ (str "apply")).map FunctionInstance.type =
        some WasmValidations.applyType ∧
      ¬ FindsEntryPoint instantiated actionName ∧
        instantiated.prepareApply commits actionName context process =
          (.error (.thrown (.ftl .wasmRuntime "")), process) := by
  obtain ⟨m, injection, intrinsics, memories, hdecode, hmade⟩ :=
    madeFrom_of_getInstantiatedModule hmake
  obtain ⟨exportIt, hmem, hexports⟩ := exists_of_validate hdecode hvalidate
  simp only [WasmValidations.exportsApply, Bool.and_eq_true, decide_eq_true_eq] at hexports
  obtain ⟨⟨hkind, hname⟩, htype⟩ := hexports
  obtain ⟨call, hcall, hsame⟩ := getExportedFunction_of_export hmade hmem hkind htype
  rw [hname] at hcall
  have harity : ¬ call.type.parameters.length = [Value.i64 actionName].length := by
    rw [hsame]
    simp [WasmValidations.applyType]
  refine ⟨by rw [hcall, Option.map_some, hsame], ?_, ?_⟩
  · rintro ⟨other, hother, hlength, -⟩
    rw [hcall] at hother
    cases hother
    exact harity hlength
  · unfold WasmInstantiatedModule.prepareApply WasmInstantiatedModule.prepareCall
    simp only [hcall, ftlAssert, harity, decide_false]
    rfl

theorem exists_dataInstance :
    ∃ statics' instantiated heap', validate .initial (dataBytes 1) = .ok statics' ∧
      getInstantiatedModule idealPlatform .initial (dataBytes 1) ⟨[], none⟩ =
        (.ok instantiated, heap') := by
  have hvalidate : (validate .initial (dataBytes 1)).toOption.isSome = true := by decide +kernel
  have heval : (getInstantiatedModule idealPlatform .initial (dataBytes 1)
      ⟨[], none⟩).1.toOption.isSome = true := by decide +kernel
  obtain ⟨statics', hstatics⟩ := Option.isSome_iff_exists.1 hvalidate
  obtain ⟨instantiated, heap', hmake⟩ := exists_ok heval
  exact ⟨statics', instantiated, heap', Except.toOption_eq_some.1 hstatics, hmake⟩

theorem apply_never_called_sample :
    ∃ statics' instantiated heap', validate .initial (dataBytes 1) = .ok statics' ∧
      getInstantiatedModule idealPlatform .initial (dataBytes 1) ⟨[], none⟩ =
        (.ok instantiated, heap') ∧ ¬ FindsEntryPoint instantiated 7 := by
  obtain ⟨statics', instantiated, heap', hvalid, hmake⟩ := exists_dataInstance
  exact ⟨statics', instantiated, heap', hvalid, hmake,
    (apply_never_called hvalid hmake true 7 0 ⟨heap', ⟨none, none⟩⟩).2.1⟩

/-- The one argument of `apply` does not fit the three parameters of a validated contract. -/
theorem entry_point_refused :
    ∃ statics' instantiated heap', validate .initial (dataBytes 1) = .ok statics' ∧
      getInstantiatedModule idealPlatform .initial (dataBytes 1) ⟨[], none⟩ =
        (.ok instantiated, heap') ∧ ¬ FindsEntryPoint instantiated 7 := by
  have hlength : (getInstantiatedModule idealPlatform .initial (dataBytes 1)
      ⟨[], none⟩).1.toOption.map (fun instantiated =>
        (getExportedFunction instantiated.instance_ (str "apply")).map
          (·.type.parameters.length)) = some (some 3) := by decide +kernel
  obtain ⟨statics', instantiated, heap', hvalid, hmake⟩ := exists_dataInstance
  rw [hmake] at hlength
  refine ⟨statics', instantiated, heap', hvalid, hmake, ?_⟩
  rintro ⟨call, hcall, hone, -⟩
  simp only [Except.toOption, Option.map_some, hcall, hone] at hlength
  simp at hlength

end WasmInterface

end FractalWasm
