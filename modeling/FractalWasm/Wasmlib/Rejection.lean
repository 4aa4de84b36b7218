import FractalWasm.WASM.EncodingErrors
import FractalWasm.Wasmlib.Interface

/-!
# How a contract is rejected

A contract that cannot be decoded, injected, written, read again or linked is rejected with an
`ftl::exception`. What goes wrong behind that, while the instance is made, is never one, unless the
compiler throws it.

**Errors of each step** (`errors_*`): up to the link, every exception is an `ftl::exception`, as the
exceptions of the decoder are translated (`isFtlException_rethrow`); behind it none is.

**Rejection** (`Rejected`): the start of a contract throws an `ftl::exception` exactly if its bytes
do not come to a linked module, or the compiler throws one.
-/

namespace FractalWasm

open Codec IR FractalWasm.Runtime WASM WasmInjections

/-- The exceptions of the library. -/
def IsFtlException (exception : Exception) : Prop := ∃ kind what, exception = .ftl kind what

/-- The failures that `execute` catches. -/
def IsFtl (failure : Failure) : Prop := ∃ kind what, failure = .thrown (.ftl kind what)

theorem isFtl_thrown {exception : Exception} :
    IsFtl (.thrown exception) ↔ IsFtlException exception := by
  simp [IsFtl, IsFtlException]

theorem errors_ftlThrow {α : Type} (kind : FtlException) (what : String) :
    ErrorsIn IsFtlException (ftlThrow kind what : Except Exception α) :=
  .error ⟨kind, what, rfl⟩

theorem errors_ftlAssert (expr : Bool) (kind : FtlException) (what : String) :
    ErrorsIn IsFtlException (ftlAssert expr kind what) :=
  .ite (.ok _) (.error ⟨kind, what, rfl⟩)

/-! ## Linking -/

/-- The resolver throws for a name it does not know, a type that is not the right one or an injected
function. -/
theorem errors_rootResolve (validating : Bool) (moduleName exportName : Bytes)
    (type : ObjectType) :
    ErrorsIn IsFtlException (rootResolve validating moduleName exportName type) := by
  refine .bind (errors_ftlAssert _ _ _) fun _ => ?_
  cases intrinsicResolve moduleName exportName type with
  | none => exact errors_ftlThrow _ _
  | some function => exact .pure _

/-- What is resolved has the type asked for. -/
theorem errors_linkImport {Ty : Type} (validating : Bool) (imp : Import Ty) (type : ObjectType) :
    ErrorsIn IsFtlException (linkImport validating imp type) := by
  refine .bind_of (errors_rootResolve _ _ _ _) fun function hresolve => ?_
  obtain ⟨-, rfl⟩ := of_rootResolve hresolve
  have hassert : ErrorsIn IsFtlException (wavmAssertThrow
      (Intrinsics.isA function (.function function.type))
      "isA(importValue,resolveImportType(module,import.type))") := by
    rw [wavmAssertThrow, Intrinsics.isA, decide_eq_true rfl]
    exact .ok _
  exact .bind hassert fun _ => .pure _

/-- A module is linked or rejected with an `ftl::exception`. -/
theorem errors_linkModule (validating : Bool) (module : Module) :
    ErrorsIn IsFtlException (linkModule validating module) :=
  .bind (.mapM fun _ => errors_linkImport _ _ _) fun _ =>
  .bind (.forM fun _ => .bind (errors_linkImport _ _ _) fun _ => .pure _) fun _ =>
  .bind (.forM fun _ => .bind (errors_linkImport _ _ _) fun _ => .pure _) fun _ =>
  .bind (.forM fun _ => .bind (errors_linkImport _ _ _) fun _ => .pure _) fun _ => .pure _

namespace WasmInterface

/-! ## From bytes to a linked module -/

/-- Both exceptions of the decoder are translated. -/
theorem isFtlException_rethrow {exception : Exception} (h : IsMalformed exception) :
    IsFtlException (rethrow exception) := by
  cases h <;> exact ⟨_, _, rfl⟩

/-- What the decoder throws is caught and thrown again as an `ftl::exception`. -/
theorem errors_readModule (code : Bytes) : ErrorsIn IsFtlException (readModule code) :=
  (errors_decode code).mapError fun _ => isFtlException_rethrow

/-- So is a segment that does not fit the memory. -/
theorem errors_parseInitialMemory (module : Module) :
    ErrorsIn IsFtlException (parseInitialMemory module) := by
  refine .foldlM (fun memImage dataSegment => ?_) []
  unfold parseDataSegment
  split
  · exact .ite (errors_ftlThrow _ _) (.ok _)
  · exact errors_ftlThrow _ _

/-- A contract that was decoded can be injected; so only its numbers can keep it from being
written. -/
theorem errors_instrument (statics : Statics) (code : Bytes) :
    ErrorsIn IsFtlException (instrument statics code) := by
  refine .bind_of (errors_readModule code) fun m hread => ?_
  have hreadable := readable_of_decode (mapError_eq_ok.1 hread)
  obtain ⟨injection, caches, hinject, hinjected⟩ :=
    injected_of_decoded hreadable.decoded statics.caches
  have hok : ErrorsIn IsFtlException (statics.inject m.withoutUserSections) := by
    rw [Statics.inject_eq, hinject]
    exact .ok _
  refine .bind_of hok fun (module, statics') hmodule => ?_
  obtain ⟨injection', caches', hinject', rfl⟩ := inject_eq_ok hmodule
  rw [hinject] at hinject'
  cases hinject'
  have hencode := Output.errors_encode (hinjected.wellFormed hreadable).userSections
    (hinjected.wellFormedBody hreadable)
  exact .bind (hencode.mapError fun _ => isFtlException_rethrow) fun _ =>
    .bind (errors_parseInitialMemory _) fun _ => .pure _

/-- The module `get_instantiated_module` makes an instance of, and what its imports are resolved
to. -/
def linkedContract (statics : Statics) (code : Bytes) :
    Except Exception (Module × List Intrinsics.Function) := do
  let (bytes, _) ← instrument statics code
  let module ← readModule bytes
  let functions ← linkModule false module
  return (module, functions)

/-- Everything up to the linked module. -/
theorem errors_linkedContract (statics : Statics) (code : Bytes) :
    ErrorsIn IsFtlException (linkedContract statics code) :=
  .bind (errors_instrument _ _) fun _ => .bind (errors_readModule _) fun _ =>
    .bind (errors_linkModule _ _) fun _ => .pure _

end WasmInterface

/-! ## Making the instance -/

namespace Runtime

section Instance

variable {platform : Platform} {module : Module} {linked : List Intrinsics.Function}
  {tables : List TableInstance} {memories : List Nat} {heap heap' : Heap} {failure : Failure}

/-- The runtime's exceptions are of another class. -/
theorem not_isFtl_runtime (cause : Cause) : ¬ IsFtl (.thrown (.runtime cause)) := by
  rintro ⟨kind, what, h⟩
  cases h

/-- Neither is a failed assertion of the runtime, which ends the process. -/
theorem not_isFtl_aborted : ¬ IsFtl .aborted := by
  rintro ⟨kind, what, h⟩
  cases h

theorem errors_errorUnless (condition : Bool) :
    ErrorsIn (¬ IsFtl ·) (errorUnless condition) :=
  .ite (.ok _) (.error not_isFtl_aborted)

theorem errors_orThrow_wavmAssertThrow (cond : Bool) (text : String) :
    ErrorsIn (¬ IsFtl ·) (orThrow (wavmAssertThrow cond text)) := by
  have hassert : ErrorsIn (· = .runtimeError ("wavm assert: " ++ text))
      (wavmAssertThrow cond text) := .ite (.ok _) (.error rfl)
  refine hassert.mapError ?_
  rintro exception rfl ⟨kind, what, h⟩
  cases h

theorem errors_evaluateInitializer (globals : List GlobalInstance)
    (initializer : InitializerExpression) :
    ErrorsIn (¬ IsFtl ·) (evaluateInitializer globals initializer) := by
  cases initializer with
  | getGlobal globalIndex =>
    cases hglobal : globals[globalIndex]? with
    | none =>
      simp only [evaluateInitializer, hglobal]
      exact .error not_isFtl_aborted
    | some global =>
      simp only [evaluateInitializer, hglobal]
      exact .ok _
  | error => exact .error not_isFtl_aborted
  | _ => exact .ok _

theorem errors_segmentBase (globals : List GlobalInstance) (baseOffset : InitializerExpression) :
    ErrorsIn (¬ IsFtl ·) (segmentBase globals baseOffset) := by
  refine .bind (errors_evaluateInitializer _ _) fun value => ?_
  cases value with
  | i32 _ => exact .pure _
  | _ => exact .error not_isFtl_aborted

theorem errors_checkTableSegment (tables : List TableInstance) (tableSegment : TableSegment) :
    ErrorsIn (¬ IsFtl ·) (checkTableSegment tables tableSegment) :=
  .bind (errors_segmentBase _ _) fun _ => .ite (.error (not_isFtl_runtime _)) (.pure _)

theorem errors_instantiateGlobals (globalDefs : List GlobalDef) :
    ErrorsIn (¬ IsFtl ·) (instantiateGlobals globalDefs) :=
  .foldlM (fun _ _ => .bind (errors_evaluateInitializer _ _) fun _ =>
    .bind (errors_errorUnless _) fun _ => .pure _) []

theorem errors_setTableElements (functions : List FunctionInstance) (index : Nat)
    (indices : List Nat) (table : TableInstance) :
    ErrorsIn (¬ IsFtl ·) (setTableElements functions index indices table) := by
  induction indices generalizing index table with
  | nil => exact .ok _
  | cons functionIndex indices ih =>
    exact .bind (errors_orThrow_wavmAssertThrow _ _) fun _ =>
      .bind (errors_orThrow_wavmAssertThrow _ _) fun _ => ih _ _

theorem errors_copyTableSegment (globals : List GlobalInstance)
    (functions : List FunctionInstance) (tables : List TableInstance)
    (tableSegment : TableSegment) :
    ErrorsIn (¬ IsFtl ·) (copyTableSegment globals functions tables tableSegment) := by
  refine .bind (errors_segmentBase _ _) fun base => ?_
  split
  · exact .error not_isFtl_aborted
  · exact .bind (errors_orThrow_wavmAssertThrow _ _) fun _ =>
      .bind (errors_setTableElements _ _ _ _) fun _ => .pure _

theorem errors_checkStartFunction (module : Module) (functions : List FunctionInstance) :
    ErrorsIn (¬ IsFtl ·) (checkStartFunction module functions) := by
  unfold checkStartFunction
  split
  · exact .ok _
  · exact errors_orThrow_wavmAssertThrow _ _

/-- What goes wrong with tables is the runtime's exception. -/
theorem errors_instantiateTables (platform : Platform) (module : Module) :
    ErrorsIn (¬ IsFtl ·) (instantiateTables platform module) := by
  refine .mapM fun tableDef => ?_
  split
  · exact .error (not_isFtl_runtime _)
  · exact .ok _

theorem errors_checkImports (module : Module) (functions : List Intrinsics.Function) :
    ErrorsIn (¬ IsFtl ·) (checkImports module functions) :=
  .bind (errors_errorUnless _) fun _ => .bind (.forM fun _ => errors_errorUnless _) fun _ =>
    .bind (errors_errorUnless _) fun _ => .bind (errors_errorUnless _) fun _ =>
    errors_errorUnless _

/-- The same with memories. -/
theorem errors_instantiateMemories (platform : Platform) (memoryDefs : List MemoryType)
    (heap : Heap) : ErrorsIn (¬ IsFtl ·) (instantiateMemories platform memoryDefs heap).1 := by
  induction memoryDefs generalizing heap with
  | nil => exact .ok _
  | cons memoryDef memoryDefs ih =>
    unfold instantiateMemories
    split
    · exact .map (ih heap)
    · split
      · exact .error (not_isFtl_runtime _)
      · exact .map (ih _)

/-- What goes well before the compiler is called. -/
structure ReachesCompiler (platform : Platform) (module : Module)
    (linked : List Intrinsics.Function) (heap : Heap) : Prop where
  imports : checkImports module linked = .ok ()
  objects : ∃ tables memories heap', instantiateTables platform module = .ok tables ∧
    instantiateMemories platform module.memories.defs heap = (.ok memories, heap') ∧
      tables.length ≤ 1 ∧ memories.length ≤ 1 ∧
        module.tableSegments.forM (checkTableSegment tables) = .ok ()
  globals : ∃ globals, instantiateGlobals module.globals.defs = .ok globals

/-- The compiler throws an exception of the library. -/
def CompilerThrowsFtl (platform : Platform) (module : Module) : Prop :=
  ∃ kind what, platform.jit module = .error (.ftl kind what)

/-- Behind the linked module only the compiler could throw an `ftl::exception`. -/
theorem compilerThrowsFtl_of_completeInstance
    (h : completeInstance platform module linked tables memories = .error failure)
    (hftl : IsFtl failure) :
    memories.length ≤ 1 ∧ tables.length ≤ 1 ∧
      module.tableSegments.forM (checkTableSegment tables) = .ok () ∧
        (∃ globals, instantiateGlobals module.globals.defs = .ok globals) ∧
          CompilerThrowsFtl platform module := by
  have hfails : ¬ ¬ IsFtl failure := not_not.2 hftl
  obtain ⟨_, hmemories, h⟩ := (errors_orThrow_wavmAssertThrow _ _).of_bind hfails h
  obtain ⟨_, htables, h⟩ := (errors_orThrow_wavmAssertThrow _ _).of_bind hfails h
  have hchecks : ErrorsIn (¬ IsFtl ·) (module.tableSegments.forM (checkTableSegment tables)) :=
    .forM fun _ => errors_checkTableSegment _ _
  obtain ⟨_, hsegments, h⟩ := hchecks.of_bind hfails h
  obtain ⟨globals, hglobals, h⟩ := (errors_instantiateGlobals _).of_bind hfails h
  refine ⟨by simpa using hmemories, by simpa using htables, hsegments, ⟨globals, hglobals⟩, ?_⟩
  cases hjit : platform.jit module with
  | error exception =>
    rw [hjit] at h
    cases h
    obtain ⟨kind, what, rfl⟩ := isFtl_thrown.1 hftl
    exact ⟨kind, what, hjit⟩
  | ok _ =>
    rw [hjit] at h
    have hcopies : ErrorsIn (¬ IsFtl ·) (module.tableSegments.foldlM (copyTableSegment globals
        (instantiateFunctions module linked)) tables) :=
      .foldlM (fun _ _ => errors_copyTableSegment _ _ _ _) _
    obtain ⟨copied, -, h⟩ := hcopies.of_bind hfails h
    obtain ⟨_, -, h⟩ := (errors_checkStartFunction _ _).of_bind hfails h
    cases h

/-- An instantiation fails with an exception of the library exactly if the compiler throws it. -/
theorem instantiateModule_throwsFtl_iff :
    (∃ failure left, instantiateModule platform module linked heap = (.error failure, left) ∧
        IsFtl failure) ↔
      ReachesCompiler platform module linked heap ∧ CompilerThrowsFtl platform module := by
  have hobjects : ErrorsIn (¬ IsFtl ·) (do
      checkImports module linked
      instantiateTables platform module) :=
    .bind (errors_checkImports _ _) fun _ => errors_instantiateTables _ _
  have hallocates := errors_instantiateMemories platform module.memories.defs heap
  constructor
  · rintro ⟨failure, left, h, hftl⟩
    have hfails : ¬ ¬ IsFtl failure := not_not.2 hftl
    unfold instantiateModule at h
    dsimp only at h
    split at h
    · next hfailed =>
      cases h
      exact absurd (hobjects.holds hfailed) hfails
    · next tables htables =>
      obtain ⟨_, himports, htables⟩ := Except.bind_eq_ok.1 htables
      split at h
      · next hfailed =>
        cases h
        rw [hfailed] at hallocates
        exact absurd (hallocates.holds rfl) hfails
      · next memories left hmemories =>
        obtain ⟨hcomplete, -⟩ := Prod.mk.inj h
        obtain ⟨hmemoriesLength, htablesLength, hsegments, hglobals, hjit⟩ :=
          compilerThrowsFtl_of_completeInstance hcomplete hftl
        exact ⟨⟨himports, ⟨tables, memories, left, htables, hmemories, htablesLength,
          hmemoriesLength, hsegments⟩, hglobals⟩, hjit⟩
  · rintro ⟨⟨himports, ⟨tables, memories, left, htables, hmemories, htablesLength,
      hmemoriesLength, hsegments⟩, globals, hglobals⟩, kind, what, hjit⟩
    have hcomplete : completeInstance platform module linked tables memories =
        .error (.thrown (.ftl kind what)) := by
      unfold completeInstance
      simp only [wavmAssertThrow, hmemoriesLength, htablesLength, hsegments, hglobals, hjit]
      rfl
    have htables' : (do
        checkImports module linked
        instantiateTables platform module) = .ok tables :=
      Except.bind_eq_ok.2 ⟨(), himports, htables⟩
    refine ⟨_, left, ?_, kind, what, rfl⟩
    unfold instantiateModule
    simp only [htables', hmemories]
    rw [hcomplete]

end Instance

end Runtime

namespace WasmInterface

/-- How a contract is rejected with an `ftl::exception`: it does not get as far as an instance, or
the compiler throws one. -/
inductive Rejected (platform : Platform) (statics : Statics) (code : Bytes) (heap : Heap) : Prop
  | unlinked {exception : Exception} (hlinked : linkedContract statics code = .error exception)
  | uncompiled {module : Module} {functions : List Intrinsics.Function}
      (hlinked : linkedContract statics code = .ok (module, functions))
      (hreaches : ReachesCompiler platform module functions heap)
      (hthrows : CompilerThrowsFtl platform module)

section Rejection

variable {platform : Platform} {statics : Statics} {code : Bytes} {heap : Heap}

theorem getInstantiatedModule_of_unlinked {exception : Exception}
    (h : linkedContract statics code = .error exception) :
    getInstantiatedModule platform statics code heap = (.error (.thrown exception), heap) := by
  unfold linkedContract at h
  unfold getInstantiatedModule
  cases hinstrument : instrument statics code with
  | error exception' =>
    rw [hinstrument] at h
    cases h
    rfl
  | ok image =>
    obtain ⟨bytes, initialMemory⟩ := image
    rw [hinstrument] at h
    unfold instantiateModule
    have hlinked : (do
        let module ← readModule bytes
        let functions ← linkModule false module
        return (module, functions)) = .error exception := h
    simp only [hlinked]

theorem getInstantiatedModule_of_linked (platform : Platform) (heap : Heap) {module : Module}
    {functions : List Intrinsics.Function}
    (h : linkedContract statics code = .ok (module, functions)) :
    ∃ initialMemory, getInstantiatedModule platform statics code heap =
      ((Runtime.instantiateModule platform module functions heap).1.map
          fun instance_ => ⟨initialMemory, instance_, module⟩,
        (Runtime.instantiateModule platform module functions heap).2) := by
  obtain ⟨⟨bytes, initialMemory⟩, hinstrument, hlinked⟩ := Except.bind_eq_ok.1 h
  refine ⟨initialMemory, ?_⟩
  unfold getInstantiatedModule instantiateModule
  simp only [hinstrument]
  have hlinked' : (do
      let module ← readModule bytes
      let functions ← linkModule false module
      return (module, functions)) = .ok (module, functions) := hlinked
  simp only [hlinked']

/-- **Rejection.** A contract is rejected with an `ftl::exception` if and only if it cannot be linked,
or its compilation throws one. -/
theorem getInstantiatedModule_throwsFtl_iff :
    (∃ failure left, getInstantiatedModule platform statics code heap = (.error failure, left) ∧
      IsFtl failure) ↔ Rejected platform statics code heap := by
  constructor
  · rintro ⟨failure, left, h, hftl⟩
    cases hlinked : linkedContract statics code with
    | error exception => exact .unlinked hlinked
    | ok linked =>
      obtain ⟨module, functions⟩ := linked
      obtain ⟨initialMemory, hmake⟩ :=
        getInstantiatedModule_of_linked platform heap hlinked
      rw [hmake] at h
      cases hinstance : Runtime.instantiateModule platform module functions heap with
      | mk result left' =>
        rw [hinstance] at h
        cases result with
        | ok instance_ => cases h
        | error failure' =>
          cases h
          obtain ⟨hreaches, hthrows⟩ :=
            instantiateModule_throwsFtl_iff.1 ⟨_, _, hinstance, hftl⟩
          exact .uncompiled hlinked hreaches hthrows
  · rintro (⟨hlinked⟩ | ⟨hlinked, hreaches, hthrows⟩)
    · exact ⟨_, heap, getInstantiatedModule_of_unlinked hlinked,
        isFtl_thrown.2 ((errors_linkedContract _ _).holds hlinked)⟩
    · obtain ⟨failure, left, hinstance, hftl⟩ :=
        instantiateModule_throwsFtl_iff.2 ⟨hreaches, hthrows⟩
      obtain ⟨initialMemory, hmake⟩ :=
        getInstantiatedModule_of_linked platform heap hlinked
      rw [hinstance] at hmake
      exact ⟨failure, left, hmake, hftl⟩

end Rejection

end WasmInterface

end FractalWasm
