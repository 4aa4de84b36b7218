import Mathlib.Logic.Relation
import FractalWasm.Codec.Agree
import FractalWasm.Wasmlib.Registry
import FractalWasm.Wasmlib.Validation

/-!
# What a process keeps between modules

The injector and the validator work on static members: maps and counters, a nesting depth, and the
operator objects that decoders unpack into. Earlier modules leave their values there. None of these
values reaches the module that injection makes of another module, or the verdict of its validation:
an object is unpacked before it is looked at, and the rest is cleared when a new injector or
validator is constructed.

**Agreement** (`Codec.Agree`): two processes with different statics do the same, up to the statics.
The relation is carried through each pass (`agree_useGasPass`, `agree_injectVisit`) and through
validation.

**Histories** (`Processed`): injections and validations of any modules, also such that were aborted
by an exception. What they keep is that each object stays in its slot (`CachedOps.Typed`).
-/

namespace FractalWasm

open Codec IR WasmOps

/-! ## Operator objects -/

namespace WasmOps

/-- The type of a field. -/
def Field.type : Field → FieldType
  | voidtype => .voidtype
  | blocktype _ => .blocktype
  | uint32 _ => .uint32
  | memarg _ _ => .memarg
  | uint64 _ => .uint64
  | branchtabletype _ _ => .branchtabletype

/-- Each object has the field its class declares. -/
def CachedOps.Typed (cached : CachedOps) : Prop := ∀ slot, (cached slot).type = fieldType slot

/-- Unpacking changes the immediate, not the shape of the object. -/
theorem type_unpack (type : FieldType) (imm : Bytes) : (type.unpack imm).type = type := by
  cases type <;> rfl

theorem CachedOps.typed_initial : CachedOps.initial.Typed := by
  intro slot
  unfold CachedOps.initial
  cases fieldType slot <;> rfl

/-- An object stays in its slot. -/
theorem CachedOps.Typed.assign {cached : CachedOps} (h : cached.Typed) {slot : Slot} {field : Field}
    (hfield : field.type = fieldType slot) : (cached.assign slot field).Typed := by
  intro slot'
  by_cases heq : slot' = slot
  · rw [heq, CachedOps.assign, Function.update_self]
    exact hfield
  · rw [CachedOps.assign, Function.update_of_ne heq]
    exact h slot'

/-- Objects left behind by different histories, with the same operator in the slot at hand. -/
structure SameSlot (slot : Slot) (cached cached' : CachedOps) : Prop where
  typed : cached.Typed
  typed' : cached'.Typed
  same : cached slot = cached' slot

/-- After an object has been assigned it is the same in both caches. -/
theorem SameSlot.assign {slot : Slot} {cached cached' : CachedOps} (h : cached.Typed)
    (h' : cached'.Typed) {field : Field} (hfield : field.type = fieldType slot) :
    SameSlot slot (cached.assign slot field) (cached'.assign slot field) where
  typed := h.assign hfield
  typed' := h'.assign hfield
  same := by rw [CachedOps.assign, CachedOps.assign, Function.update_self, Function.update_self]

/-- Packing looks at the object of its own slot only. -/
theorem SameSlot.pack {slot : Slot} {cached cached' : CachedOps} (h : SameSlot slot cached cached')
    (stream : InstructionStream) : cached.pack slot stream = cached'.pack slot stream := by
  rw [CachedOps.pack, CachedOps.pack, h.same]

/-- The `error` object has nothing to unpack; the others are unpacked before they are returned. -/
theorem agree_decodeOp {cached cached' : CachedOps} (h : cached.Typed) (h' : cached'.Typed) :
    Reader.Agree (fun result result' : Slot × CachedOps =>
        result.1 = result'.1 ∧ SameSlot result.1 result.2 result'.2)
      (decodeOp cached) (decodeOp cached') := by
  intro bytes
  unfold decodeOp
  have hassert : ∀ (cond : Bool), Codec.Agree (fun result result' : Unit × Bytes =>
      result.1 = result'.1 ∧ result.2 = result'.2)
      ((liftM (ftlAssert cond .wasmRuntime "") : Reader Exception Unit) bytes)
      ((liftM (ftlAssert cond .wasmRuntime "") : Reader Exception Unit) bytes) :=
    fun cond => Reader.Agree.lift (.refl _) bytes
  apply (hassert _).bind
  rintro ⟨_, t⟩ ⟨_, _⟩ ⟨rfl, rfl⟩
  dsimp only
  cases Opcode.ofCode? (leNat (bytes.take 2)) with
  | some opcode =>
    have hassert' : Codec.Agree (fun result result' : Unit × Bytes =>
        result.1 = result'.1 ∧ result.2 = result'.2)
        ((liftM (ftlAssert (2 + opcode.immSize ≤ bytes.length) .wasmRuntime "") :
          Reader Exception Unit) t)
        ((liftM (ftlAssert (2 + opcode.immSize ≤ bytes.length) .wasmRuntime "") :
          Reader Exception Unit) t) := Reader.Agree.lift (.refl _) t
    apply hassert'.bind
    rintro ⟨_, t'⟩ ⟨_, _⟩ ⟨rfl, rfl⟩
    exact .ok ⟨⟨rfl, .assign h h' (type_unpack _ _)⟩, rfl⟩
  | none =>
    have hvoid : cached none = cached' none := by
      have htype : (cached none).type = (cached' none).type := (h none).trans (h' none).symm
      have hnone : (cached none).type = .voidtype := h none
      cases hcached : cached none <;> rw [hcached] at htype hnone <;> cases hnone
      cases hcached' : cached' none <;> rw [hcached'] at htype <;> cases htype
    exact .ok ⟨⟨rfl, h, h', hvoid⟩, rfl⟩

end WasmOps

namespace WasmInjections

/-! ## Injection -/

/-- The same state of a pass, the objects of other operators aside. -/
structure SameVisit (slot : Slot) (state state' : VisitState) : Prop where
  injection : state.injection = state'.injection
  newCode : state.newCode = state'.newCode
  cached : SameSlot slot state.cached state'.cached

/-- An injector looks at the object of its own operator. -/
def LooksAt (slot : Slot) (injector : Injector) : Prop := ∀ state state',
  SameVisit slot state state' →
    Codec.Agree (SameVisit slot) (injector.accept state) (injector.accept state')

theorem looksAt_pass (slot : Slot) : LooksAt slot passInjector := fun _ _ h => .ok h

/-- A replaced operator has no immediate to look at. -/
theorem looksAt_softfloat (slot : Slot) (type : FunctionType) (funcName : Except Exception Bytes) :
    LooksAt slot (softfloatInjector type funcName) := by
  intro state state' h
  apply (Codec.Agree.refl funcName).bind
  rintro name _ rfl
  refine .ok ⟨?_, ?_, h.cached⟩
  · change (addImport type name state.injection).2 = (addImport type name state'.injection).2
    rw [h.injection]
  · change packCall (addImport type name state.injection).1 state.newCode =
      packCall (addImport type name state'.injection).1 state'.newCode
    rw [h.injection, h.newCode]

theorem looksAt_fixCallIndex : LooksAt (some .call) fixCallIndex := by
  intro state state' h
  unfold fixCallIndex
  simp only [h.cached.same, h.injection]
  split
  · exact .ok ⟨rfl, h.newCode, .assign h.cached.typed h.cached.typed' rfl⟩
  · exact .ok h

/-- Every injector looks at the operator it is called for, and at nothing else. -/
theorem looksAt_preOpInjectors (slot : Slot) : LooksAt slot (preOpInjectors slot) := by
  cases slot with
  | none => exact looksAt_pass none
  | some opcode =>
    cases opcode with
    | numeric op =>
      rw [preOpInjectors_numeric]
      split
      · exact looksAt_softfloat _ _ _
      · exact looksAt_pass _
    | _ => exact looksAt_pass _

theorem looksAt_postOpInjectors (slot : Slot) : LooksAt slot (postOpInjectors slot) := by
  cases slot with
  | none => exact looksAt_pass none
  | some opcode =>
    cases opcode with
    | call => exact looksAt_fixCallIndex
    | _ => exact looksAt_pass _

/-- The same state of a pass between two operators. -/
structure SameState (state state' : VisitState) : Prop where
  injection : state.injection = state'.injection
  newCode : state.newCode = state'.newCode
  typed : state.cached.Typed
  typed' : state'.cached.Typed

theorem SameVisit.state {slot : Slot} {state state' : VisitState} (h : SameVisit slot state state') :
    SameState state state' :=
  ⟨h.injection, h.newCode, h.cached.typed, h.cached.typed'⟩

/-- What is packed behind the operator is the same. -/
theorem SameVisit.pack {slot : Slot} {state state' : VisitState} (h : SameVisit slot state state') :
    SameVisit slot { state with newCode := state.cached.pack slot state.newCode }
      { state' with newCode := state'.cached.pack slot state'.newCode } :=
  ⟨h.injection, by rw [h.newCode, h.cached.pack], h.cached⟩

/-- One operator: it is unpacked into its object first, so the earlier contents do not matter. -/
theorem agree_visitStep {injectors : Slot → Injector} (hlooks : ∀ slot, LooksAt slot (injectors slot))
    {state state' : VisitState} (h : SameState state state') :
    Reader.Agree SameState (visitStep injectors state) (visitStep injectors state') := by
  apply (agree_decodeOp h.typed h.typed').bind
  rintro ⟨op, cached⟩ ⟨op', cached'⟩ ⟨rfl, hcached⟩
  have hvisit : SameVisit op { state with cached } { state' with cached := cached' } :=
    ⟨h.injection, h.newCode, hcached⟩
  dsimp only
  split
  · exact .lift ((hlooks op _ _ hvisit.pack).mono fun _ _ hafter => hafter.state)
  · apply (Reader.Agree.lift (hlooks op _ _ hvisit)).bind
    intro after after' hafter
    split
    · exact .pure hafter.state
    · exact .pure hafter.pack.state

/-- A pass over one body, with what is left of it. -/
theorem agree_visitPass {injectors : Slot → Injector} (hlooks : ∀ slot, LooksAt slot (injectors slot))
    {injection : Injection} {cached cached' : CachedOps} (h : cached.Typed) (h' : cached'.Typed)
    (code : Bytes) :
    Codec.Agree (fun result result' => result.2 = result'.2 ∧ result.1.1 = result'.1.1 ∧
        result.1.2.Typed ∧ result'.1.2.Typed)
      (visitPass injectors (injection, cached) code)
      (visitPass injectors (injection, cached') code) := by
  have hloop := Reader.Agree.loop (fun _ _ => agree_visitStep hlooks)
    (⟨rfl, rfl, h, h'⟩ : SameState ⟨injection, cached, .ofSize (code.length * 2)⟩
      ⟨injection, cached', .ofSize (code.length * 2)⟩)
  apply (hloop code).bind
  rintro ⟨state, rest⟩ ⟨state', _⟩ ⟨hsame, rfl⟩
  exact .ok ⟨congrArg InstructionStream.get hsame.newCode, hsame.injection, hsame.typed,
    hsame.typed'⟩

/-- The same state of the `use_gas` pass between two operators. -/
structure SameUseGas (state state' : UseGasState) : Prop where
  usegasCode : state.usegasCode = state'.usegasCode
  tmpStream : state.tmpStream = state'.tmpStream
  gas : state.gas = state'.gas
  typed : state.cached.Typed
  typed' : state'.cached.Typed

/-- The pass for the charges unpacks each operator as well. -/
theorem agree_useGasStep (useGasIdx : UInt32) {state state' : UseGasState}
    (h : SameUseGas state state') :
    Reader.Agree SameUseGas (useGasStep useGasIdx state) (useGasStep useGasIdx state') := by
  apply (agree_decodeOp h.typed h.typed').bind
  rintro ⟨op, cached⟩ ⟨op', cached'⟩ ⟨rfl, hcached⟩
  dsimp only
  rw [h.usegasCode, h.tmpStream, h.gas]
  split
  · exact .pure ⟨hcached.pack _, rfl, rfl, hcached.typed, hcached.typed'⟩
  · exact .pure ⟨rfl, hcached.pack _, rfl, hcached.typed, hcached.typed'⟩

/-- A whole body comes out the same, whatever the caches were. -/
theorem agree_useGasPass (useGasIdx : UInt32) {cached cached' : CachedOps} (h : cached.Typed)
    (h' : cached'.Typed) (code : Bytes) :
    Codec.Agree (fun result result' => result.2 = result'.2 ∧ result.1.Typed ∧ result'.1.Typed)
      (useGasPass useGasIdx cached code) (useGasPass useGasIdx cached' code) := by
  have hloop := Reader.Agree.loop (fun _ _ => agree_useGasStep useGasIdx)
    (⟨rfl, rfl, rfl, h, h'⟩ : SameUseGas ⟨cached, .ofSize (code.length * 2), .ofSize 0, 0⟩
      ⟨cached', .ofSize (code.length * 2), .ofSize 0, 0⟩)
  apply (hloop code).bind
  rintro ⟨state, rest⟩ ⟨state', _⟩ ⟨hsame, rfl⟩
  exact .ok ⟨congrArg InstructionStream.get hsame.usegasCode, hsame.typed, hsame.typed'⟩

/-- A pass over all bodies, from a pass over one. -/
theorem agree_forEachBody {σ : Type} {R : σ → σ → Prop}
    {pass : σ → Bytes → Except Exception (σ × Bytes)}
    (hpass : ∀ state state' code, R state state' →
      Codec.Agree (fun result result' => result.2 = result'.2 ∧ R result.1 result'.1)
        (pass state code) (pass state' code))
    (defs : List FunctionDef) {state state' : σ} (h : R state state') :
    Codec.Agree (fun result result' => result.2 = result'.2 ∧ R result.1 result'.1)
      (forEachBody pass state defs) (forEachBody pass state' defs) := by
  induction defs generalizing state state' with
  | nil => exact .ok ⟨rfl, h⟩
  | cons fd defs ih =>
    apply (hpass state state' fd.code h).bind
    rintro ⟨after, code⟩ ⟨after', _⟩ ⟨rfl, hafter⟩
    apply (ih hafter).bind
    rintro ⟨last, defs⟩ ⟨last', _⟩ ⟨rfl, hlast⟩
    exact .ok ⟨rfl, hlast⟩

/-- The second and the third pass. -/
theorem agree_injectVisit {injectors : Slot → Injector}
    (hlooks : ∀ slot, LooksAt slot (injectors slot)) {cached cached' : CachedOps} (h : cached.Typed)
    (h' : cached'.Typed) (injection : Injection) :
    Codec.Agree (fun result result' => result.1 = result'.1 ∧ result.2.Typed ∧ result'.2.Typed)
      (injectVisit injectors cached injection) (injectVisit injectors cached' injection) := by
  have hpass : ∀ (state state' : Injection × CachedOps) (code : Bytes),
      (state.1 = state'.1 ∧ state.2.Typed ∧ state'.2.Typed) →
      Codec.Agree (fun result result' => result.2 = result'.2 ∧
          result.1.1 = result'.1.1 ∧ result.1.2.Typed ∧ result'.1.2.Typed)
        (visitPass injectors state code) (visitPass injectors state' code) := by
    rintro ⟨injection, cached⟩ ⟨_, cached'⟩ code ⟨rfl, h, h'⟩
    exact agree_visitPass hlooks h h' code
  have hbodies := @agree_forEachBody _ _ _ hpass injection.module.functions.defs
    (injection, cached) (injection, cached') ⟨rfl, h, h'⟩
  apply hbodies.bind
  rintro ⟨⟨after, left⟩, defs⟩ ⟨⟨_, left'⟩, _⟩ ⟨rfl, rfl, htyped⟩
  exact .ok ⟨rfl, htyped⟩

/-- The first pass. -/
theorem agree_injectUseGas {cached cached' : CachedOps} (h : cached.Typed) (h' : cached'.Typed)
    (mod : Module) :
    Codec.Agree (fun result result' => result.1 = result'.1 ∧ result.2.Typed ∧ result'.2.Typed)
      (injectUseGas cached mod) (injectUseGas cached' mod) := by
  have hbodies := fun useGasIdx defs =>
    @agree_forEachBody _ (fun state state' : CachedOps => state.Typed ∧ state'.Typed)
      (useGasPass useGasIdx)
      (fun _ _ code htyped => agree_useGasPass useGasIdx htyped.1 htyped.2 code) defs _ _ ⟨h, h'⟩
  apply (hbodies _ _).bind
  rintro ⟨left, defs⟩ ⟨left', _⟩ ⟨rfl, htyped⟩
  exact .ok ⟨rfl, htyped⟩

/-- The objects of the three passes have the fields of their classes. -/
structure Caches.Typed (caches : Caches) : Prop where
  usegas : caches.usegas.Typed
  pre : caches.pre.Typed
  post : caches.post.Typed

/-- What the objects held before does not reach the injected module. -/
theorem agree_inject {caches caches' : Caches} (h : caches.Typed) (h' : caches'.Typed)
    (mod : Module) :
    Codec.Agree (fun result result' => result.1 = result'.1 ∧ result.2.Typed ∧ result'.2.Typed)
      (inject caches mod) (inject caches' mod) := by
  apply (agree_injectUseGas h.usegas h'.usegas mod).bind
  rintro ⟨metered, usegas⟩ ⟨_, usegas'⟩ ⟨rfl, husegas⟩
  apply (agree_injectVisit looksAt_preOpInjectors h.pre h'.pre metered).bind
  rintro ⟨replaced, pre⟩ ⟨_, pre'⟩ ⟨rfl, hpre⟩
  apply (agree_injectVisit looksAt_postOpInjectors h.post h'.post replaced).bind
  rintro ⟨fixed, post⟩ ⟨_, post'⟩ ⟨rfl, hpost⟩
  exact .ok ⟨rfl, ⟨husegas.1, hpre.1, hpost.1⟩, ⟨husegas.2, hpre.2, hpost.2⟩⟩

/-- `injector_utils::init` -/
def InjectorUtils.init (utils : InjectorUtils) (mod : Module) : InjectorUtils :=
  let utils := { utils with typeSlots := [], registeredInjected := [], injectedIndexMapping := [] }
  let utils := { utils with
    typeSlots := mod.types.zipIdx.foldl
      (fun slots (type : FunctionType × Nat) => emplace slots (typeSlot type.1) type.2)
      utils.typeSlots }
  { utils with nextInjectedIndex := 0 }

/-- A new injector clears all maps and counters. -/
theorem init_utils (utils : InjectorUtils) (mod : Module) :
    utils.init mod = (Injection.init mod).utils := rfl

end WasmInjections

namespace WasmValidations

/-! ## Validation -/

/-- The same state of the validator, the objects aside. -/
structure SameDepth (statics statics' : OpConstrainers) : Prop where
  disabled : statics.disabled = statics'.disabled
  depth : statics.depth = statics'.depth
  typed : statics.cached.Typed
  typed' : statics'.cached.Typed

/-- A visitor looks at the object of its own operator, and leaves the objects alone. -/
theorem agree_visit {op : Slot} {statics statics' : OpConstrainers} (h : SameDepth statics statics')
    (hcached : SameSlot op statics.cached statics'.cached) :
    Codec.Agree SameDepth (visit op statics) (visit op statics') := by
  have hnested : Codec.Agree SameDepth (nestedValidator op statics) (nestedValidator op statics') := by
    unfold nestedValidator
    rw [h.disabled, h.depth]
    split
    · exact .ok h
    split
    · exact .ok ⟨rfl, rfl, h.typed, h.typed'⟩
    · apply (Codec.Agree.refl _).bind
      rintro _ _ rfl
      exact .ok ⟨rfl, rfl, h.typed, h.typed'⟩
  have hlarge : Codec.Agree SameDepth (largeOffsetValidator op statics)
      (largeOffsetValidator op statics') := by
    unfold largeOffsetValidator
    rw [hcached.same]
    split
    · split
      · exact .error _
      · exact .ok h
    · exact .ok h
  have hlast : ∀ after after', SameDepth after after' →
      Codec.Agree SameDepth (Except.ok (ε := Exception) after) (.ok after') := fun _ _ h => .ok h
  unfold visit opConstrainers
  split
  · exact .error _
  all_goals first
    | exact hnested.bind hlast
    | exact hlarge.bind hlast
    | exact .ok h

/-- The validators look at the operator before them and at the nesting depth, which is reset. -/
theorem agree_validateStep {statics statics' : OpConstrainers} (h : SameDepth statics statics') :
    Reader.Agree SameDepth (validateStep statics) (validateStep statics') := by
  apply (agree_decodeOp h.typed h.typed').bind
  rintro ⟨op, cached⟩ ⟨op', cached'⟩ ⟨rfl, hcached⟩
  exact .lift (agree_visit ⟨h.disabled, h.depth, hcached.typed, hcached.typed'⟩ hcached)

theorem agree_validateBodies (defs : List FunctionDef) {statics statics' : OpConstrainers}
    (h : SameDepth statics statics') :
    Codec.Agree SameDepth (validateBodies defs statics) (validateBodies defs statics') := by
  induction defs generalizing statics statics' with
  | nil => exact .ok h
  | cons fd defs ih =>
    apply (Reader.Agree.loop (fun _ _ => agree_validateStep) h fd.code).bind
    rintro ⟨after, rest⟩ ⟨after', _⟩ ⟨hafter, rfl⟩
    exact ih hafter

/-- What the objects and the depth were before does not reach the verdict. -/
theorem agree_validate {statics statics' : OpConstrainers} (h : statics.cached.Typed)
    (h' : statics'.cached.Typed) (m : Module) :
    Codec.Agree SameDepth (validate statics m) (validate statics' m) := by
  apply (Codec.Agree.refl (validateModule m)).bind
  rintro _ _ rfl
  exact agree_validateBodies m.functions.defs ⟨rfl, rfl, h, h'⟩

end WasmValidations

/-! ## A process -/

open WasmInjections

/-- The static members of the injector and the validator. -/
structure Statics where
  utils : InjectorUtils
  caches : Caches
  constrainers : WasmValidations.OpConstrainers

namespace Statics

/-- A fresh process. -/
def initial : Statics where
  utils := ⟨[], [], [], 0⟩
  caches := .initial
  constrainers := ⟨.initial, false, 0⟩

/-- All objects have the fields of their classes. -/
structure Typed (statics : Statics) : Prop where
  caches : statics.caches.Typed
  constrainers : statics.constrainers.cached.Typed

theorem typed_initial : initial.Typed :=
  ⟨⟨CachedOps.typed_initial, CachedOps.typed_initial, CachedOps.typed_initial⟩,
    CachedOps.typed_initial⟩

/-- Constructing a `wasm_binary_injection` and calling `inject`. -/
def inject (statics : Statics) (mod : Module) : Except Exception (Module × Statics) := do
  let injection : Injection := ⟨maxMemoryInject mod, statics.utils.init mod⟩
  let (useGasIdx, injection) := addImport ⟨.none, [.i64]⟩ (str "use_gas") injection
  let (usegas, defs) ←
    forEachBody (useGasPass useGasIdx) statics.caches.usegas injection.module.functions.defs
  let injection := { injection with module := withDefs injection.module defs }
  let (injection, pre) ← injectVisit preOpInjectors statics.caches.pre injection
  let (injection, post) ← injectVisit postOpInjectors statics.caches.post injection
  return (injection.module, { statics with
    utils := injection.utils
    caches := ⟨usegas, pre, post⟩ })

/-- Constructing a `wasm_binary_validation` and calling `validate`. -/
def validate (statics : Statics) (m : Module) : Except Exception Statics := do
  let constrainers ← WasmValidations.validate statics.constrainers m
  return { statics with constrainers }

/-- Nothing of the maps and counters is left when a module is injected. -/
theorem inject_eq (statics : Statics) (mod : Module) :
    statics.inject mod = WasmInjections.inject statics.caches mod >>= fun result =>
      .ok (result.1.module, { statics with utils := result.1.utils, caches := result.2 }) := by
  unfold inject WasmInjections.inject injectUseGas
  have hmodule : (Injection.init mod).module = mod := rfl
  simp only [init_utils, hmodule]
  generalize addImport ⟨.none, [.i64]⟩ (str "use_gas")
    ⟨maxMemoryInject mod, (Injection.init mod).utils⟩ = added
  simp only [bind_assoc, pure_bind]
  rfl

variable {statics statics' : Statics}

/-- The injected module does not depend on what the statics were. -/
theorem agree_inject (h : statics.Typed) (h' : statics'.Typed) (mod : Module) :
    Codec.Agree (fun result result' => result.1 = result'.1 ∧ result.2.Typed ∧ result'.2.Typed)
      (statics.inject mod) (statics'.inject mod) := by
  rw [inject_eq, inject_eq]
  apply (WasmInjections.agree_inject h.caches h'.caches mod).bind
  rintro ⟨injection, caches⟩ ⟨_, caches'⟩ ⟨rfl, htyped, htyped'⟩
  exact .ok ⟨rfl, ⟨htyped, h.constrainers⟩, ⟨htyped', h'.constrainers⟩⟩

/-- Nor does the verdict of the validation. -/
theorem agree_validate (h : statics.Typed) (h' : statics'.Typed) (m : Module) :
    Codec.Agree (fun after after' => after.Typed ∧ after'.Typed)
      (statics.validate m) (statics'.validate m) := by
  apply (WasmValidations.agree_validate h.constrainers h'.constrainers m).bind
  intro after after' hafter
  exact .ok ⟨⟨h.caches, hafter.typed⟩, ⟨h'.caches, hafter.typed'⟩⟩

/-- One module of a history. An exception, which any allocation in a pass can throw, leaves the
static members as they were when it was thrown; they can be anything their types allow. -/
inductive Processed (statics : Statics) : Statics → Prop
  | injected {m m' : Module} {after : Statics} (h : statics.inject m = .ok (m', after)) :
    Processed statics after
  | validated {m : Module} {after : Statics} (h : statics.validate m = .ok after) :
    Processed statics after
  | aborted {after : Statics} (h : after.Typed) : Processed statics after

/-- Whatever a process does to its statics, the objects stay in their slots. -/
theorem Typed.processed (h : statics.Typed) {after : Statics} (hstep : Processed statics after) :
    after.Typed := by
  cases hstep with
  | @injected m m' after hinject =>
    have hagree := agree_inject h h m
    rw [hinject] at hagree
    cases hagree with
    | ok hresult => exact hresult.2.1
  | @validated m after hvalidate =>
    have hagree := agree_validate h h m
    rw [hvalidate] at hagree
    cases hagree with
    | ok hresult => exact hresult.1
  | aborted htyped => exact htyped

/-- So they are in their slots after any history. -/
theorem typed_of_history (h : Relation.ReflTransGen Processed initial statics) :
    statics.Typed := by
  induction h with
  | refl => exact typed_initial
  | tail _ hstep ih => exact ih.processed hstep

/-- **No history is remembered**: after any modules, the next one is injected and validated as in a
fresh process. -/
theorem no_history_is_remembered (h : Relation.ReflTransGen Processed initial statics)
    (m : Module) :
    (statics.inject m).map Prod.fst = (initial.inject m).map Prod.fst ∧
      (statics.validate m).map (fun _ => ()) = (initial.validate m).map fun _ => () := by
  have htyped := typed_of_history h
  constructor
  · exact (agree_inject htyped typed_initial m).map_eq fun _ _ hresult => hresult.1
  · exact (agree_validate htyped typed_initial m).map_eq fun _ _ _ => rfl

/-- Objects that a call of function 3, a charge of 41 and a load at offset 8 were unpacked into. -/
def unpackedOps : CachedOps :=
  ((CachedOps.initial.assign (some .call) (.uint32 3)).assign (some .i64Const) (.uint64 41)).assign
    (some (.load .i64Load)) (.memarg 3 8)

theorem typed_unpackedOps : unpackedOps.Typed :=
  ((CachedOps.typed_initial.assign rfl).assign rfl).assign rfl

/-- What a validation and an injection that were aborted can leave behind. -/
def abortedStatics : Statics where
  utils := ⟨[([0], 7)], [(str "use_gas", 3)], [(3, 5)], 9⟩
  caches := ⟨unpackedOps, unpackedOps, unpackedOps⟩
  constrainers := ⟨unpackedOps, true, 1024⟩

theorem no_history_is_remembered_sample :
    (abortedStatics.inject WASM.sampleModule).map Prod.fst =
        (initial.inject WASM.sampleModule).map Prod.fst ∧
      (abortedStatics.validate WASM.sampleModule).map (fun _ => ()) =
        (initial.validate WASM.sampleModule).map fun _ => () := by
  have htyped : abortedStatics.Typed :=
    ⟨⟨typed_unpackedOps, typed_unpackedOps, typed_unpackedOps⟩, typed_unpackedOps⟩
  exact no_history_is_remembered (.single (.aborted htyped)) WASM.sampleModule

end Statics

end FractalWasm
