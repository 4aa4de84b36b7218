import FractalWasm.Platform.NestedTraps
import FractalWasm.Wasmlib.Apply
import FractalWasm.Wasmlib.PrivateModule
import FractalWasm.Wasmlib.Rejection

/-!
# `execute`

`wasmlib.cpp`: the C function behind which the library lives. It catches `ftl::exception` and nothing
else. The exceptions of the runtime, among them those that stand for hardware traps, and those of
`WAVM_ASSERT_THROW` leave it; and a contract without an entry point is a success.

**What runs** (`NativeRun`): the native code behind an invocation calls other contracts, whose
invocations are trap regions inside its own, and then ends. What that comes to is read off
`catchHardwareTraps` (`NativeRun.result`). A nested contract that failed leaves its jump buffer
behind, and then an exit of the outer one is lost; one that trapped leaves its trap type behind.

**What is contained** (`execute_contains_iff`): `Handled` lists the executions that `execute` turns
into a code. `NativeRun.EndsWell` and `NativeRun.ThrowsFtl` are conditions on what the native code
does, the nested contracts included; `Region.run_spec` shows that they are what the trap regions need.
-/

namespace FractalWasm

open Codec IR FractalWasm.Runtime Platform Serialization WASM WasmInjections Wavm

/-- What a faulting address belongs to, by `isAddressOwnedByTable` and `isAddressOwnedByMemory`. -/
inductive AddressOwner where
  | table
  | memory
  | other
  deriving DecidableEq, Repr

/-- How the native code behind an invocation ends: what a contract, its intrinsics and the contracts
it calls come to. -/
inductive Ending where
  | returns
  /-- `ftl_exit` -/
  | exits
  | throws (exception : Exception)
  | traps (signal : Signal)
  deriving DecidableEq, Repr

def Ending.leave : Ending → Leave
  | returns => .returns
  | exits => .exits
  | throws _ => .throws
  | traps signal => .traps signal

/-- What the native code behind an invocation does, as far as its caller can tell. -/
structure NativeRun where
  /-- The invocations of other contracts on the way, each of them a trap region of its own inside the
  one of this invocation. -/
  called : List Region
  ending : Ending
  /-- What the address in the out-parameter of a trap belongs to. -/
  owner : AddressOwner
  deriving DecidableEq, Repr

/-- The trap region of an invocation. -/
def NativeRun.region (native : NativeRun) : Region :=
  native.called.foldr Region.nest (.done native.ending.leave)

/-- `handleHardwareTrap` -/
def handleHardwareTrap (trapType : HardwareTrapType) (owner : AddressOwner) : Failure :=
  match trapType with
  | .accessViolation =>
    match owner with
    | .table => .thrown (.runtime .undefinedTableElement)
    | .memory => .thrown (.runtime .accessViolation)
    | .other => .aborted
  | .stackOverflow => .thrown (.runtime .stackOverflow)
  | .intDivideByZeroOrOverflow => .thrown (.runtime .integerDivideByZeroOrIntegerOverflow)
  | .none => .aborted

/-- What an invocation comes to behind `catchHardwareTraps`. Control that is in a frame that is gone
is undefined behaviour, and counts as the end of the process. -/
def NativeRun.result (native : NativeRun) : Completion → Except Failure Unit
  | .returned .none => .ok ()
  | .returned trapType => .error (handleHardwareTrap trapType native.owner)
  | .threw =>
    match native.ending with
    | .throws exception => .error (.thrown exception)
    -- a region throws what its own thunk throws
    | _ => .error .aborted
  | .jumped _ | .died => .error .aborted

/-- `invokeFunction`, on a thread with the given signal variables. -/
def invokeFunction (function : FunctionInstance) (parameters : List Value) (native : NativeRun)
    (signals : SignalState) : Except Failure Unit × SignalState :=
  match checkParameters function parameters with
  | .error failure => (.error failure, signals)
  | .ok () =>
    let (completion, signals, _) := native.region.run signals
    (native.result completion, signals)

/-- `runInstanceStartFunc` -/
def runInstanceStartFunc (instance_ : ModuleInstance) (native : NativeRun)
    (signals : SignalState) : Except Failure Unit × SignalState :=
  match instance_.startFunctionIndex with
  | none => (.ok (), signals)
  | some startFunctionIndex =>
    match instance_.functions[startFunctionIndex]? with
    | some function => invokeFunction function [] native signals
    -- the definition checks exclude it
    | none => (.error .aborted, signals)

/-- What the rest of the world does during an execution: the platform, whether the pages of a reset
are committed, the signal variables of the thread, and what the start function and the entry point
do. An execution may itself be one that a contract has called, but not one in a signal handler. -/
structure World where
  platform : Platform
  commits : Bool
  signals : SignalState
  start : NativeRun
  entry : NativeRun
  quiet : signals.isReentrantSignal = false

/-! ## Endings -/

/-- The native code ends without a failure that anyone could see: it returns, or it exits and its
jump buffer is still there, because no contract it called was left by an exception. All contracts it
called came back to it, and the last of them did not leave a trap behind. -/
structure NativeRun.EndsWell (native : NativeRun) : Prop where
  ending : native.ending = .returns ∨ native.ending = .exits
  called : ∀ region ∈ native.called, region.ComesBack
  kept : native.ending = .exits → ∀ region ∈ native.called, region.leave ≠ .throws
  last : ∀ region, native.called.getLast? = some region → region.trapLeft = .none

/-- The native code throws an `ftl::exception`, and all contracts it called came back to it. -/
structure NativeRun.ThrowsFtl (native : NativeRun) : Prop where
  ending : ∃ kind what, native.ending = .throws (.ftl kind what)
  called : ∀ region ∈ native.called, region.ComesBack

theorem not_isFtl_handleHardwareTrap (trapType : HardwareTrapType) (owner : AddressOwner) :
    ¬ IsFtl (handleHardwareTrap trapType owner) := by
  rintro ⟨kind, what, h⟩
  unfold handleHardwareTrap at h
  split at h
  · split at h <;> cases h
  · cases h
  · cases h
  · cases h

namespace NativeRun

variable {native : NativeRun}

theorem leave_foldr (called : List Region) (leave : Leave) :
    (called.foldr Region.nest (.done leave)).leave = leave := by
  induction called with
  | nil => rfl
  | cons region called ih => exact ih

theorem inner_foldr (called : List Region) (leave : Leave) :
    (called.foldr Region.nest (.done leave)).inner = called := by
  induction called with
  | nil => rfl
  | cons region called ih => exact congrArg (region :: ·) ih

theorem typeLeft_foldr (called : List Region) (leave : Leave) (type : HardwareTrapType) :
    (called.foldr Region.nest (.done leave)).typeLeft type =
      (called.getLast?.map Region.trapLeft).getD type := by
  induction called generalizing type with
  | nil => rfl
  | cons region called ih =>
    have hrest := ih region.trapLeft
    rw [List.getLast?_cons]
    cases hlast : called.getLast? with
    | none =>
      rw [hlast] at hrest
      exact hrest
    | some last =>
      rw [hlast] at hrest
      exact hrest

theorem leave_region (native : NativeRun) : native.region.leave = native.ending.leave :=
  leave_foldr native.called _

theorem inner_region (native : NativeRun) : native.region.inner = native.called :=
  inner_foldr native.called _

/-- The region of an invocation comes back if those inside do, unless its own end needs what they
have taken away. -/
theorem comesBack_iff : native.region.ComesBack ↔
    (∀ region ∈ native.called, region.ComesBack) ∧ native.region.Unspoiled := by
  unfold Region.ComesBack
  rw [Region.innerComeBack_iff, inner_region]
  rfl

/-- What is left by an end that is no trap is the trap type of the last contract that was called. -/
theorem trapLeft_region (h : native.ending.leave.trapType = .none) :
    native.region.trapLeft = .none ↔
      ∀ region, native.called.getLast? = some region → region.trapLeft = .none := by
  rw [Region.trapLeft_eq_typeLeft (by rw [leave_region]; exact h)]
  unfold region
  rw [typeLeft_foldr]
  cases native.called.getLast? <;> simp

/-- What ends well comes back, with no trap. -/
theorem EndsWell.returned (h : native.EndsWell) :
    native.region.ComesBack ∧ native.region.completion = .returned .none := by
  have hleave := leave_region native
  have hthrows : native.region.leave ≠ .throws := by
    rcases h.ending with hreturns | hexits
    · simp [hleave, hreturns, Ending.leave]
    · simp [hleave, hexits, Ending.leave]
  have hplain : native.ending.leave.trapType = .none := by
    rcases h.ending with hreturns | hexits
    · rw [hreturns]; rfl
    · rw [hexits]; rfl
  refine ⟨comesBack_iff.2 ⟨h.called, ?_, ?_⟩, ?_⟩
  · intro hexits
    rw [inner_region]
    apply h.kept
    rcases h.ending with hreturns | hexits'
    · rw [hleave, hreturns] at hexits
      cases hexits
    · exact hexits'
  · intro signal htraps
    rw [hleave] at htraps
    rcases h.ending with hreturns | hexits
    · rw [hreturns] at htraps
      cases htraps
    · rw [hexits] at htraps
      cases htraps
  · unfold Region.completion
    rw [if_neg hthrows, (trapLeft_region hplain).2 h.last]

theorem ThrowsFtl.threw (h : native.ThrowsFtl) :
    native.region.ComesBack ∧ native.region.completion = .threw := by
  obtain ⟨kind, what, hending⟩ := h.ending
  have hthrows : native.region.leave = .throws := by
    rw [leave_region, hending]
    rfl
  refine ⟨comesBack_iff.2 ⟨h.called, ?_, ?_⟩, if_pos hthrows⟩
  · simp [hthrows]
  · simp [hthrows]

/-- A region that comes back without a trap has ended well. -/
theorem endsWell_of_returned (hback : native.region.ComesBack)
    (hcompletion : native.region.completion = .returned .none) : native.EndsWell := by
  obtain ⟨hcalled, hunspoiled⟩ := comesBack_iff.1 hback
  have hleave := leave_region native
  unfold Region.completion at hcompletion
  split at hcompletion
  · cases hcompletion
  · next hthrows =>
    have htype := Completion.returned.inj hcompletion
    cases hending : native.ending with
    | throws exception =>
      rw [hleave, hending] at hthrows
      exact absurd rfl hthrows
    | traps signal =>
      have htraps : native.region.leave = .traps signal := by
        rw [hleave, hending]
        rfl
      have hnone := hunspoiled.traps signal htraps
      have hdone : native.region = .done (.traps signal) := by
        cases hregion : native.region with
        | done leave =>
          rw [hregion] at htraps
          exact congrArg _ htraps
        | nest inside rest =>
          rw [hregion] at hnone
          cases hnone
      rw [hdone] at htype
      cases signal with
      | fpe => cases htype
      | segv onStack => cases onStack <;> cases htype
    | returns =>
      have hlast := (trapLeft_region (by rw [hending]; rfl)).1 htype
      exact ⟨.inl hending, hcalled, by simp [hending], hlast⟩
    | exits =>
      have hlast := (trapLeft_region (by rw [hending]; rfl)).1 htype
      refine ⟨.inr hending, hcalled, fun _ => ?_, hlast⟩
      rw [← inner_region native]
      exact hunspoiled.exits (by rw [hleave, hending]; rfl)

/-- What the process is left with behind a region that did not come back. -/
theorem result_of_not_isBack {completion : Completion} (h : completion.isBack = false) :
    native.result completion = .error .aborted := by
  cases completion with
  | returned _ | threw => cases h
  | jumped _ | died => rfl

theorem result_returned {trapType : HardwareTrapType} (h : trapType ≠ .none) :
    native.result (.returned trapType) = .error (handleHardwareTrap trapType native.owner) := by
  cases trapType with
  | none => exact absurd rfl h
  | _ => rfl

section Running

variable {signals : SignalState} (hquiet : signals.isReentrantSignal = false)

include hquiet

/-- An invocation succeeds exactly if its native code ends well. -/
theorem result_eq_ok :
    native.result (native.region.run signals).1 = .ok () ↔ native.EndsWell := by
  have hcompletes := Region.run_spec hquiet native.region
  generalize (native.region.run signals).1 = completion at hcompletes
  constructor
  · intro h
    cases hisBack : completion.isBack with
    | false =>
      rw [result_of_not_isBack hisBack] at h
      cases h
    | true =>
      obtain ⟨hback, -, rfl⟩ := hcompletes.of_isBack hisBack
      refine endsWell_of_returned hback ?_
      cases hcompletion : native.region.completion with
      | returned trapType =>
        by_cases hnone : trapType = .none
        · rw [hnone]
        · rw [hcompletion, result_returned hnone] at h
          cases h
      | threw =>
        rw [hcompletion] at h
        unfold result at h
        dsimp only at h
        split at h <;> cases h
      | jumped _ | died =>
        rw [hcompletion] at hisBack
        cases hisBack
  · intro h
    obtain ⟨hback, hcompletion⟩ := h.returned
    cases hcompletes with
    | back => rw [hcompletion]; rfl
    | died hnot | jumped hnot => exact absurd hback hnot

/-- An invocation that fails is caught exactly if that was by an `ftl::exception` and every contract
it called came back. -/
theorem isFtl_result {failure : Failure}
    (h : native.result (native.region.run signals).1 = .error failure) :
    IsFtl failure ↔ native.ThrowsFtl := by
  have hcompletes := Region.run_spec hquiet native.region
  generalize (native.region.run signals).1 = completion at hcompletes h
  constructor
  · rintro ⟨kind, what, rfl⟩
    cases hisBack : completion.isBack with
    | false =>
      rw [result_of_not_isBack hisBack] at h
      cases h
    | true =>
      obtain ⟨hback, -, -⟩ := hcompletes.of_isBack hisBack
      refine ⟨?_, (comesBack_iff.1 hback).1⟩
      cases completion with
      | returned trapType =>
        by_cases hnone : trapType = .none
        · rw [hnone] at h
          cases h
        · rw [result_returned hnone] at h
          exact absurd ⟨kind, what, Except.error.inj h⟩ (not_isFtl_handleHardwareTrap _ _)
      | threw =>
        unfold result at h
        dsimp only at h
        split at h
        · next exception hending =>
          cases h
          exact ⟨kind, what, hending⟩
        · cases h
      | jumped _ | died => cases hisBack
  · intro hthrows
    obtain ⟨hback, hcompletion⟩ := hthrows.threw
    obtain ⟨kind, what, hending⟩ := hthrows.ending
    cases hcompletes with
    | back =>
      rw [hcompletion] at h
      simp only [result, hending] at h
      cases h
      exact ⟨kind, what, rfl⟩
    | died hnot | jumped hnot => exact absurd hback hnot

/-- Behind an invocation that succeeds, no handler is running. -/
theorem quiet_of_result_eq_ok (h : native.result (native.region.run signals).1 = .ok ()) :
    (native.region.run signals).2.1.isReentrantSignal = false := by
  have hcompletes := Region.run_spec hquiet native.region
  cases hisBack : (native.region.run signals).1.isBack with
  | false =>
    rw [result_of_not_isBack hisBack] at h
    cases h
  | true =>
    obtain ⟨-, hleaves, -⟩ := hcompletes.of_isBack hisBack
    exact hleaves.quiet

end Running

end NativeRun

theorem checkParameters_iff {function : FunctionInstance} {parameters : List Value} :
    checkParameters function parameters = .ok () ↔
      function.type.parameters = parameters.map Value.type := by
  unfold checkParameters
  constructor
  · intro h
    split at h
    · cases h
    · split at h
      · cases h
      · next hsame => exact Classical.not_not.1 hsame
  · intro hsame
    have hlength : parameters.length = function.type.parameters.length := by
      rw [hsame, List.length_map]
    simp [hsame]

theorem checkParameters_error {function : FunctionInstance} {parameters : List Value}
    {failure : Failure} (h : checkParameters function parameters = .error failure) :
    failure = .thrown (.runtime .invokeSignatureMismatch) := by
  unfold checkParameters at h
  split at h
  · cases h
    rfl
  · split at h
    · cases h
      rfl
    · cases h

/-- An invocation with the right arguments comes to what its native code does. -/
theorem invokeFunction_of_type {function : FunctionInstance} {parameters : List Value}
    (h : function.type.parameters = parameters.map Value.type) (native : NativeRun)
    (signals : SignalState) :
    invokeFunction function parameters native signals =
      (native.result (native.region.run signals).1, (native.region.run signals).2.1) := by
  unfold invokeFunction
  rw [checkParameters_iff.2 h]

theorem invokeFunction_of_ne {function : FunctionInstance} {parameters : List Value}
    (h : function.type.parameters ≠ parameters.map Value.type) (native : NativeRun)
    (signals : SignalState) :
    invokeFunction function parameters native signals =
      (.error (.thrown (.runtime .invokeSignatureMismatch)), signals) := by
  unfold invokeFunction
  cases hcheck : checkParameters function parameters with
  | ok _ => exact absurd (checkParameters_iff.1 hcheck) h
  | error failure => rw [checkParameters_error hcheck]

namespace WasmInterface

/-- The end of `call`: the start function, and then the entry point. -/
def runCall (world : World) (actionName : UInt64) (call : FunctionInstance)
    (started : WasmInstantiatedModule) : Except Failure Unit :=
  match runInstanceStartFunc started.instance_ world.start world.signals with
  | (.error failure, _) => .error failure
  | (.ok (), signals) => (invokeFunction call [.i64 actionName] world.entry signals).1

/-- `wasm_instantiated_module::call`, of `apply`. -/
def apply (world : World) (actionName : UInt64) (context : Nat)
    (instantiated : WasmInstantiatedModule) (process : Process) : Except Failure Unit :=
  match (instantiated.prepareApply world.commits actionName context process).1 with
  | .error failure => .error failure
  | .ok none => .ok ()
  | .ok (some (call, started)) => runCall world actionName call started

/-- `wasm_interface::apply`. What `wasm_context::exec` catches it throws again. -/
def exec (world : World) (statics : Statics) (code : Bytes) (actionName : UInt64) (context : Nat)
    (process : Process) : Except Failure Unit :=
  match getInstantiatedModule world.platform statics code process.heap with
  | (.error failure, _) => .error failure
  | (.ok instantiated, heap) => apply world actionName context instantiated { process with heap }

/-- The `try` block of `execute`. -/
def catchFtlException : Except Failure Unit → Except Failure Nat
  | .ok () => .ok 0
  | .error (.thrown (.ftl kind _)) => .ok kind.code
  | .error failure => .error failure

/-- `execute`: the code it returns, or how it is left otherwise. -/
def execute (world : World) (statics : Statics) (code : Bytes) (actionName : UInt64)
    (context : Nat) (process : Process) : Except Failure Nat :=
  catchFtlException (exec world statics code actionName context process)

/-! ## Containment -/

/-- The contract was made, had an entry point, and ran to its end. -/
def Succeeds (world : World) (statics : Statics) (code : Bytes) (actionName : UInt64)
    (context : Nat) (process : Process) : Prop :=
  ∃ instantiated heap call started,
    getInstantiatedModule world.platform statics code process.heap = (.ok instantiated, heap) ∧
      (instantiated.prepareApply world.commits actionName context { process with heap }).1 =
          .ok (some (call, started)) ∧
        runCall world actionName call started = .ok ()

/-- `execute` returns, zero for a success and another code for a failure. -/
def ContainsFailures (world : World) (statics : Statics) (code : Bytes) (actionName : UInt64)
    (context : Nat) (process : Process) : Prop :=
  ∃ n, execute world statics code actionName context process = .ok n ∧
    (n = 0 ↔ Succeeds world statics code actionName context process)

/-- The start function of an instance has no parameters, so that it ends as its native code does. -/
theorem runInstanceStartFunc_eq {m : Module} {platform : Platform} {injection : Injection}
    {intrinsics : List Intrinsics.Function} {memories : List Nat} {heap heap' : Heap}
    {instantiated : WasmInstantiatedModule}
    (h : MadeFrom platform m injection intrinsics memories heap heap' instantiated)
    (native : NativeRun) (signals : SignalState) :
    runInstanceStartFunc instantiated.reset.instance_ native signals =
      if instantiated.instance_.startFunctionIndex = none then (.ok (), signals)
      else (native.result (native.region.run signals).1, (native.region.run signals).2.1) := by
  obtain ⟨tables, hcomplete⟩ := h.complete
  have hstart := (completed_of_completeInstance hcomplete).start
  unfold runInstanceStartFunc
  cases hindex : instantiated.instance_.startFunctionIndex with
  | none =>
    have hnone : instantiated.reset.instance_.startFunctionIndex = none := hindex
    rw [hnone]
    rfl
  | some startFunctionIndex =>
    have hsome : instantiated.reset.instance_.startFunctionIndex = some startFunctionIndex := hindex
    obtain ⟨function, hfunction, htype⟩ := hstart startFunctionIndex hindex
    have hget : instantiated.reset.instance_.functions[startFunctionIndex]? = some function :=
      hfunction
    rw [hsome]
    simp only [hget, reduceCtorEq, if_false]
    exact invokeFunction_of_type (by rw [htype]; rfl) native signals

/-! ## Which failures are contained -/

/-- What one handler can deal with. The contract is rejected; or it has an entry point, and then the
number of its parameters is wrong, or the memory could be reset and what runs ends well or by an
`ftl::exception`. -/
inductive Handled (world : World) (statics : Statics) (code : Bytes) (actionName : UInt64)
    (context : Nat) (process : Process) : Prop
  | rejected (hrejected : Rejected world.platform statics code process.heap)
  | arity {instantiated : WasmInstantiatedModule} {heap : Heap} {call : FunctionInstance}
      (hmake : getInstantiatedModule world.platform statics code process.heap =
        (.ok instantiated, heap))
      (hexport : getExportedFunction instantiated.instance_ (str "apply") = some call)
      (harity : call.type.parameters.length ≠ 1)
  | startThrows {instantiated started : WasmInstantiatedModule} {heap : Heap}
      {call : FunctionInstance}
      (hmake : getInstantiatedModule world.platform statics code process.heap =
        (.ok instantiated, heap))
      (hprepare : (instantiated.prepareApply world.commits actionName context
        { process with heap }).1 = .ok (some (call, started)))
      (hstart : instantiated.instance_.startFunctionIndex ≠ none)
      (hthrows : world.start.ThrowsFtl)
  | runs {instantiated started : WasmInstantiatedModule} {heap : Heap} {call : FunctionInstance}
      (hmake : getInstantiatedModule world.platform statics code process.heap =
        (.ok instantiated, heap))
      (hprepare : (instantiated.prepareApply world.commits actionName context
        { process with heap }).1 = .ok (some (call, started)))
      (hstart : instantiated.instance_.startFunctionIndex = none ∨ world.start.EndsWell)
      (htype : call.type.parameters = [.i64])
      (hentry : world.entry.EndsWell ∨ world.entry.ThrowsFtl)

section Containment

variable {world : World} {statics : Statics} {code : Bytes} {actionName : UInt64} {context : Nat}
  {process : Process}

theorem code_ne_zero (kind : FtlException) : kind.code ≠ 0 := by
  cases kind <;> simp [FtlException.code]

theorem catchFtlException_of_not_isFtl {failure : Failure} (h : ¬ IsFtl failure) :
    catchFtlException (.error failure) = .error failure := by
  unfold catchFtlException
  split
  · next heq => cases heq
  · next kind what heq =>
    cases heq
    exact absurd ⟨kind, what, rfl⟩ h
  · next hother heq =>
    cases heq
    rfl

/-- Everything fails with an `ftl::exception`, and what succeeds has run the contract. -/
theorem containsFailures_iff :
    ContainsFailures world statics code actionName context process ↔
      (∀ failure, exec world statics code actionName context process = .error failure →
        IsFtl failure) ∧
        (exec world statics code actionName context process = .ok () ↔
          Succeeds world statics code actionName context process) := by
  unfold ContainsFailures execute
  cases hexec : exec world statics code actionName context process with
  | ok _ => simp [catchFtlException]
  | error failure =>
    by_cases hftl : IsFtl failure
    · obtain ⟨kind, what, rfl⟩ := hftl
      have hne := code_ne_zero kind
      simp [catchFtlException, IsFtl, hne]
    · rw [catchFtlException_of_not_isFtl hftl]
      constructor
      · rintro ⟨n, hn, -⟩
        cases hn
      · rintro ⟨hall, -⟩
        exact absurd (hall failure rfl) hftl

theorem eq_of_resetMemory_error {commits : Bool} {type : MemoryType}
    {memory left : MemoryInstance} {exception : Exception}
    (h : memory.resetMemory commits type = (.error exception, left)) :
    exception = .runtime .outOfMemory := by
  unfold MemoryInstance.resetMemory at h
  dsimp only at h
  split at h
  · cases h
    rfl
  · split at h
    · cases h
      rfl
    · cases h

/-- A call that fails before any code runs is caught if that was for the number of parameters. -/
theorem isFtl_of_prepareApply {instantiated : WasmInstantiatedModule} {failure : Failure}
    (h : (instantiated.prepareApply world.commits actionName context process).1 = .error failure) :
    IsFtl failure ↔ ∃ call, getExportedFunction instantiated.instance_ (str "apply") = some call ∧
      call.type.parameters.length ≠ 1 := by
  have hprepared := WasmInstantiatedModule.prepared world.commits (str "apply") [.i64 actionName]
    context instantiated process
  unfold WasmInstantiatedModule.prepareApply at h
  rw [h] at hprepared
  generalize (instantiated.prepareCall world.commits (str "apply") [.i64 actionName] context
    process).2 = left at hprepared
  cases hprepared with
  | @arity call hexport harity => exact ⟨fun _ => ⟨call, hexport, harity⟩, fun _ => ⟨_, _, rfl⟩⟩
  | @unreset call place _ heap hexport harity hmemory hreset =>
    constructor
    · rintro ⟨kind, what, rfl⟩
      cases hreset with
      | refused _ _ hrefused => cases eq_of_resetMemory_error hrefused
    · rintro ⟨other, hother, hne⟩
      rw [hexport] at hother
      cases hother
      exact absurd harity hne

/-- The execution of a contract that is refused, or does not get to its start function. -/
theorem not_succeeds_of_error {failure : Failure} {heap : Heap}
    (hmake : getInstantiatedModule world.platform statics code process.heap =
      (.error failure, heap)) :
    exec world statics code actionName context process = .error failure ∧
      ¬ Succeeds world statics code actionName context process := by
  refine ⟨?_, ?_⟩
  · unfold exec
    rw [hmake]
  · rintro ⟨instantiated, heap', call, started, hmake', -⟩
    rw [hmake] at hmake'
    cases hmake'

section Made

variable {instantiated : WasmInstantiatedModule} {heap : Heap}
  (hmake : getInstantiatedModule world.platform statics code process.heap =
    (.ok instantiated, heap))

include hmake

theorem exec_of_made : exec world statics code actionName context process =
    apply world actionName context instantiated { process with heap } := by
  unfold exec
  rw [hmake]

theorem succeeds_of_made : Succeeds world statics code actionName context process ↔
    ∃ call started, (instantiated.prepareApply world.commits actionName context
        { process with heap }).1 = .ok (some (call, started)) ∧
      runCall world actionName call started = .ok () := by
  constructor
  · rintro ⟨instantiated', heap', call, started, hmake', hrest⟩
    rw [hmake] at hmake'
    cases hmake'
    exact ⟨call, started, hrest⟩
  · rintro ⟨call, started, hrest⟩
    exact ⟨instantiated, heap, call, started, hmake, hrest⟩

/-- The start function of an instance that is about to run. -/
theorem runInstanceStartFunc_of_prepareApply {started : WasmInstantiatedModule}
    {call : FunctionInstance} (hprepare : (instantiated.prepareApply world.commits actionName context
      { process with heap }).1 = .ok (some (call, started))) :
    runInstanceStartFunc started.instance_ world.start world.signals =
      if instantiated.instance_.startFunctionIndex = none then (.ok (), world.signals)
      else (world.start.result (world.start.region.run world.signals).1,
        (world.start.region.run world.signals).2.1) := by
  obtain ⟨m, injection, intrinsics, memories, -, hmade⟩ := madeFrom_of_getInstantiatedModule hmake
  have hprepared := WasmInstantiatedModule.prepared world.commits (str "apply") [.i64 actionName]
    context instantiated { process with heap }
  unfold WasmInstantiatedModule.prepareApply at hprepare
  rw [hprepare] at hprepared
  have hreset : started = instantiated.reset := by
    generalize (instantiated.prepareCall world.commits (str "apply") [.i64 actionName] context
      { process with heap }).2 = left at hprepared
    cases hprepared with
    | withoutMemory _ _ _ | withMemory _ _ _ _ => rfl
  rw [hreset]
  exact runInstanceStartFunc_eq hmade world.start world.signals

end Made

/-- An execution that gets as far as the start function. -/
theorem exec_of_prepareApply {instantiated started : WasmInstantiatedModule} {heap : Heap}
    {call : FunctionInstance}
    (hmake : getInstantiatedModule world.platform statics code process.heap =
      (.ok instantiated, heap))
    (hprepare : (instantiated.prepareApply world.commits actionName context
      { process with heap }).1 = .ok (some (call, started))) :
    exec world statics code actionName context process = runCall world actionName call started ∧
      (exec world statics code actionName context process = .ok () ↔
        Succeeds world statics code actionName context process) := by
  have hexec : exec world statics code actionName context process =
      runCall world actionName call started := by
    rw [exec_of_made hmake]
    unfold apply
    rw [hprepare]
  refine ⟨hexec, ?_⟩
  rw [hexec, succeeds_of_made hmake]
  constructor
  · exact fun h => ⟨call, started, hprepare, h⟩
  · rintro ⟨call', started', hprepare', h⟩
    rw [hprepare] at hprepare'
    cases hprepare'
    exact h

section Started

variable {instantiated started : WasmInstantiatedModule} {heap : Heap} {call : FunctionInstance}
  (hmake : getInstantiatedModule world.platform statics code process.heap =
    (.ok instantiated, heap))
  (hprepare : (instantiated.prepareApply world.commits actionName context
    { process with heap }).1 = .ok (some (call, started)))

include hmake hprepare

/-- A start function that ends well leaves the thread to the entry point, with no handler running. -/
theorem runCall_of_endsWell
    (hstart : instantiated.instance_.startFunctionIndex = none ∨ world.start.EndsWell) :
    ∃ signals, signals.isReentrantSignal = false ∧ runCall world actionName call started =
      (invokeFunction call [.i64 actionName] world.entry signals).1 := by
  have hrun := runInstanceStartFunc_of_prepareApply hmake hprepare
  unfold runCall
  by_cases hnone : instantiated.instance_.startFunctionIndex = none
  · rw [if_pos hnone] at hrun
    rw [hrun]
    exact ⟨world.signals, world.quiet, rfl⟩
  · rw [if_neg hnone] at hrun
    have hok := (NativeRun.result_eq_ok world.quiet).2 (hstart.resolve_left hnone)
    rw [hok] at hrun
    rw [hrun]
    exact ⟨_, NativeRun.quiet_of_result_eq_ok world.quiet hok, rfl⟩

/-- A start function that fails is all that runs. -/
theorem runCall_of_failure (hstart : instantiated.instance_.startFunctionIndex ≠ none)
    {failure : Failure}
    (hresult : world.start.result (world.start.region.run world.signals).1 = .error failure) :
    runCall world actionName call started = .error failure := by
  have hrun := runInstanceStartFunc_of_prepareApply hmake hprepare
  rw [if_neg hstart, hresult] at hrun
  unfold runCall
  rw [hrun]

end Started

/-- An execution that fails with an `ftl::exception`, and has not succeeded. -/
theorem contained_of_error {failure : Failure} (hftl : IsFtl failure)
    (hexec : exec world statics code actionName context process = .error failure)
    (hfails : ¬ Succeeds world statics code actionName context process) :
    (∀ failure', exec world statics code actionName context process = .error failure' →
      IsFtl failure') ∧
      (exec world statics code actionName context process = .ok () ↔
        Succeeds world statics code actionName context process) := by
  refine ⟨?_, ?_⟩
  · intro failure' h
    rw [hexec] at h
    cases h
    exact hftl
  · rw [hexec]
    refine ⟨fun h => ?_, fun h => absurd h hfails⟩
    cases h

/-- What can be handled is contained. -/
theorem Handled.contained (h : Handled world statics code actionName context process) :
    (∀ failure, exec world statics code actionName context process = .error failure →
      IsFtl failure) ∧
      (exec world statics code actionName context process = .ok () ↔
        Succeeds world statics code actionName context process) := by
  cases h with
  | rejected hrejected =>
    obtain ⟨failure, left, hmake, hftl⟩ := getInstantiatedModule_throwsFtl_iff.2 hrejected
    obtain ⟨hexec, hfails⟩ := not_succeeds_of_error hmake
    exact contained_of_error hftl hexec hfails
  | @arity instantiated heap call hmake hexport harity =>
    have hprepare : (instantiated.prepareApply world.commits actionName context
        { process with heap }).1 = .error (.thrown (.ftl .wasmRuntime "")) := by
      have hlength : ¬ call.type.parameters.length = [Value.i64 actionName].length := harity
      unfold WasmInstantiatedModule.prepareApply WasmInstantiatedModule.prepareCall
      simp only [hexport, ftlAssert, hlength, decide_false]
      rfl
    have hexec : exec world statics code actionName context process =
        .error (.thrown (.ftl .wasmRuntime "")) := by
      rw [exec_of_made hmake]
      unfold apply
      rw [hprepare]
    refine contained_of_error ⟨_, _, rfl⟩ hexec ?_
    rw [succeeds_of_made hmake, hprepare]
    rintro ⟨call', started, hok, -⟩
    cases hok
  | @startThrows instantiated started heap call hmake hprepare hstart hthrows =>
    obtain ⟨hexec, hiff⟩ := exec_of_prepareApply hmake hprepare
    refine ⟨?_, hiff⟩
    intro failure h
    cases hresult : world.start.result (world.start.region.run world.signals).1 with
    | ok _ =>
      obtain ⟨kind, what, hending⟩ := hthrows.ending
      have hends := ((NativeRun.result_eq_ok world.quiet).1 hresult).ending
      simp [hending] at hends
    | error failure' =>
      rw [hexec, runCall_of_failure hmake hprepare hstart hresult] at h
      cases h
      exact (NativeRun.isFtl_result world.quiet hresult).2 hthrows
  | @runs instantiated started heap call hmake hprepare hstart htype hentry =>
    obtain ⟨hexec, hiff⟩ := exec_of_prepareApply hmake hprepare
    obtain ⟨signals, hquiet, hrun⟩ := runCall_of_endsWell hmake hprepare hstart
    rw [hrun, invokeFunction_of_type htype] at hexec
    refine ⟨?_, hiff⟩
    intro failure h
    rw [hexec] at h
    rcases hentry with hends | hthrows
    · have hok := (NativeRun.result_eq_ok hquiet).2 hends
      rw [hok] at h
      cases h
    · exact (NativeRun.isFtl_result hquiet h).2 hthrows

/-- A contract that is about to run, and is contained. -/
theorem handled_of_prepareApply {instantiated started : WasmInstantiatedModule} {heap : Heap}
    {call : FunctionInstance}
    (hmake : getInstantiatedModule world.platform statics code process.heap =
      (.ok instantiated, heap))
    (hprepare : (instantiated.prepareApply world.commits actionName context
      { process with heap }).1 = .ok (some (call, started)))
    (hftl : ∀ failure, exec world statics code actionName context process = .error failure →
      IsFtl failure) : Handled world statics code actionName context process := by
  obtain ⟨hexec, -⟩ := exec_of_prepareApply hmake hprepare
  by_cases hstart : instantiated.instance_.startFunctionIndex = none ∨ world.start.EndsWell
  · obtain ⟨signals, hquiet, hrun⟩ := runCall_of_endsWell hmake hprepare hstart
    rw [hrun] at hexec
    by_cases htype : call.type.parameters = [.i64]
    · refine .runs hmake hprepare hstart htype ?_
      rw [invokeFunction_of_type htype] at hexec
      cases hresult : world.entry.result (world.entry.region.run signals).1 with
      | ok _ => exact .inl ((NativeRun.result_eq_ok hquiet).1 hresult)
      | error failure =>
        rw [hresult] at hexec
        exact .inr ((NativeRun.isFtl_result hquiet hresult).1 (hftl failure hexec))
    · rw [invokeFunction_of_ne htype] at hexec
      obtain ⟨kind, what, hcaught⟩ := hftl _ hexec
      cases hcaught
  · rw [not_or] at hstart
    cases hresult : world.start.result (world.start.region.run world.signals).1 with
    | ok _ => exact absurd ((NativeRun.result_eq_ok world.quiet).1 hresult) hstart.2
    | error failure =>
      rw [runCall_of_failure hmake hprepare hstart.1 hresult] at hexec
      exact .startThrows hmake hprepare hstart.1
        ((NativeRun.isFtl_result world.quiet hresult).1 (hftl failure hexec))

/-- What is contained can be handled. -/
theorem handled_of_contained
    (hftl : ∀ failure, exec world statics code actionName context process = .error failure →
      IsFtl failure)
    (hok : exec world statics code actionName context process = .ok () →
      Succeeds world statics code actionName context process) :
    Handled world statics code actionName context process := by
  cases hmake : getInstantiatedModule world.platform statics code process.heap with
  | mk result heap =>
    cases result with
    | error failure =>
      obtain ⟨hexec, -⟩ := not_succeeds_of_error hmake
      exact .rejected (getInstantiatedModule_throwsFtl_iff.1 ⟨_, _, hmake, hftl failure hexec⟩)
    | ok instantiated =>
      have hexec : exec world statics code actionName context process =
          apply world actionName context instantiated { process with heap } := exec_of_made hmake
      unfold apply at hexec
      cases hprepare : (instantiated.prepareApply world.commits actionName context
          { process with heap }).1 with
      | error failure =>
        rw [hprepare] at hexec
        obtain ⟨call, hexport, harity⟩ := (isFtl_of_prepareApply hprepare).1 (hftl failure hexec)
        exact .arity hmake hexport harity
      | ok entry =>
        cases entry with
        | none =>
          rw [hprepare] at hexec
          obtain ⟨call, started, hsome, -⟩ := (succeeds_of_made hmake).1 (hok hexec)
          rw [hprepare] at hsome
          cases hsome
        | some entry => exact handled_of_prepareApply hmake hprepare hftl

end Containment

/-- A world in which everything works, and the entry point ends in the given way, having called the
given contracts. -/
def worldWith (called : List Region) (entry : Ending) : World :=
  ⟨idealPlatform, true, .initial, ⟨[], .returns, .other⟩, ⟨called, entry, .other⟩, rfl⟩

def noProcess : Process := ⟨⟨[], none⟩, ⟨none, none⟩⟩

/-- A contract whose `apply` is `unreachable`. -/
def unreachableBytes : Bytes :=
  [0x00, 0x61, 0x73, 0x6d, 1, 0, 0, 0,
    1, 5, 1, 0x60, 1, 0x7e, 0,
    3, 2, 1, 0,
    7, 9, 1, 5, 97, 112, 112, 108, 121, 0, 0,
    10, 5, 1, 3, 0, 0x00, 0x0b]

/-- A contract that exits behind a nested one that failed jumps into a frame that is gone. -/
example : execute (worldWith [.done .throws] .exits) .initial unreachableBytes 7 0 noProcess =
    .error .aborted := by
  decide +kernel

end WasmInterface

end FractalWasm
