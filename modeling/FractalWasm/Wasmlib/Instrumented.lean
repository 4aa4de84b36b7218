import FractalWasm.Wasmlib.IndexRemapping
import FractalWasm.WASM.RoundTrip.DecodedModules

/-!
# Instrumented modules in bytes

The runtime does not get the injected module but its encoding, which it decodes again. If it accepts
these bytes, the module it reads is the injected one.

**Readable modules** (`Readable`): a decoded module has names and types the encoder can write, and
the injection keeps it so; its memory is clamped (`clampFirst`) and its user sections are dropped
before.

**The round trip** (`decode_eq`): with that the general theorem on encoded modules applies, and the
bodies are the injected ones.
-/

namespace FractalWasm

open Codec Control IR WASM

/-! ## The contract -/

/-- A contract as `get_instantiated_module` goes on with it. -/
def IR.Module.withoutUserSections (m : Module) : Module := { m with userSections := [] }

theorem sameSignatures_withoutUserSections (m : Module) :
    SameSignatures m m.withoutUserSections := ⟨rfl, rfl, rfl, rfl, rfl, rfl⟩

theorem WASM.Decoded.withoutUserSections {m : Module} (hm : Decoded m) :
    Decoded m.withoutUserSections where
  bounded := ⟨hm.bounded.imports_lt, hm.bounded.defs_lt⟩
  bodiesAccepted := fun fd hfd =>
    (hm.bodiesAccepted fd hfd).imp_right (·.congr (sameSignatures_withoutUserSections m))
  definitions := (validateDefinitions_userSections m []).trans hm.definitions

/-- What the decoder read can be written, a function without a body included. -/
structure Readable (m : Module) : Prop where
  decoded : Decoded m
  spellable : Spellable m
  userSections : m.userSections = []
  bodies : ∀ fd ∈ m.functions.defs, WellFormedBody fd fd.operators

theorem wellFormedBody_operators {fd : FunctionDef} {ops : List Operator}
    (h : WellFormedBody fd ops) : WellFormedBody fd fd.operators := by
  rwa [FunctionDef.operators_of_code h.code]

theorem readable_of_decode {bytes : Bytes} {m : Module} (h : decode bytes = .ok m) :
    Readable m.withoutUserSections := by
  have hm := Decoded.of_decode h
  obtain ⟨last, hrewritable⟩ := rewritable_of_decode h
  have hvalid := ValidDefinitions.of_validate hm.definitions
  refine ⟨hm.withoutUserSections, { hrewritable.spellable with }, rfl, ?_⟩
  intro fd hfd
  by_cases hdeclared : Declared m.functions.defs
  · apply wellFormedBody_operators
    rw [hdeclared fd hfd]
    exact ⟨rfl, fun _ hop => absurd hop List.not_mem_nil, rfl, List.not_mem_nil⟩
  · obtain ⟨ops, hwell⟩ := (hrewritable.bodies hdeclared hvalid.localTypes).wellFormed fd hfd
    exact wellFormedBody_operators hwell

namespace WasmInjections

variable {m : Module}

/-! ## The memory of an injected module -/

/-- The limit `max_memory_injection_visitor` sets. -/
def clampMemory (memory : MemoryType) : MemoryType :=
  { memory with
    size := { memory.size with
      max := min memory.size.max (maximumLinearMemory / Serialization.wasmPageSize) } }

/-- The visitor looks at the first memory, which is the only one. -/
def clampFirst : List MemoryType → List MemoryType
  | [] => []
  | memory :: memories => clampMemory memory :: memories

theorem maxMemoryInject_eq (m : Module) :
    maxMemoryInject m =
      { m with memories := { m.memories with defs := clampFirst m.memories.defs } } := by
  unfold maxMemoryInject
  split
  · next hdefs =>
    rw [hdefs, clampFirst, ← hdefs]
  · next memory memories hdefs =>
    dsimp only
    split
    · next hlt => rw [hdefs, clampFirst, clampMemory, Nat.min_eq_right (Nat.le_of_lt hlt)]
    · next hle =>
      rw [hdefs, clampFirst, clampMemory, Nat.min_eq_left (Nat.le_of_not_lt hle), ← hdefs]

theorem isShared_clampFirst {memories : List MemoryType}
    (h : ∀ memory ∈ memories, memory.isShared = false) :
    ∀ memory ∈ clampFirst memories, memory.isShared = false := by
  cases memories with
  | nil => exact h
  | cons memory memories =>
    intro memory' hmem
    rcases List.mem_cons.1 hmem with rfl | hmem
    · exact h memory List.mem_cons_self
    · exact h memory' (List.mem_cons_of_mem memory hmem)

/-! ## The injected module can be spelled -/

/-- A replaced operator is neither a block nor a branch table. -/
theorem blockType?_rewrite (used : List Intrinsic) (op : Operator) :
    (rewrite m used op).blockType? = op.blockType? := by
  cases op with
  | numeric op =>
    unfold rewrite
    split <;> rfl
  | call functionIndex =>
    simp only [rewrite, replaced?]
    split <;> rfl
  | _ => rfl

theorem branchTable?_rewrite (used : List Intrinsic) (op : Operator) :
    (rewrite m used op).branchTable? = op.branchTable? := by
  cases op with
  | numeric op =>
    unfold rewrite
    split <;> rfl
  | call functionIndex =>
    simp only [rewrite, replaced?]
    split <;> rfl
  | _ => rfl

theorem branchTable?_of_inside {op : Operator} (h : (gasMeter m).boundary op = false) :
    op.branchTable? = none := by
  cases op with
  | brTable _ _ => cases h
  | _ => rfl

theorem filterMap_branchTable? (used : List Intrinsic) (fd : FunctionDef) :
    ((meteredOps m fd).map (rewrite m used)).filterMap Operator.branchTable? =
      fd.operators.filterMap Operator.branchTable? := by
  have hrewrite : Operator.branchTable? ∘ rewrite m used = Operator.branchTable? := by
    funext op
    exact branchTable?_rewrite used op
  rw [List.filterMap_map, hrewrite]
  calc (meteredOps m fd).filterMap Operator.branchTable? =
        ((gasMeter m).upToBoundary fd.operators).filterMap Operator.branchTable? :=
        Meter.filterMap_insert (fun _ => rfl) rfl fd.operators
    _ = fd.operators.filterMap Operator.branchTable? :=
        Meter.filterMap_upToBoundary (fun _ hop => branchTable?_of_inside hop) fd.operators

theorem wellFormedBody_rewrite {fd : FunctionDef} (h : WellFormedBody fd fd.operators)
    (used : List Intrinsic) :
    WellFormedBody (fd.withOperators ((meteredOps m fd).map (rewrite m used)))
      ((meteredOps m fd).map (rewrite m used)) where
  code := rfl
  blockTypes := by
    intro op' hop' resultType hblock
    obtain ⟨op, hop, rfl⟩ := List.mem_map.1 hop'
    rw [blockType?_rewrite] at hblock
    rcases Meter.mem_insert hop with hmem | rfl | ⟨gas, rfl⟩
    · exact h.blockTypes op hmem resultType hblock
    · cases hblock
    · cases hblock
  branchTables := (filterMap_branchTable? used fd).trans h.branchTables
  localTypes := h.localTypes

theorem validString_known {x : Intrinsic} (hx : x ∈ knownIntrinsics) :
    Serialization.validateString x.name = [] := by
  have hall : knownIntrinsics.all fun x => (Serialization.validateString x.name).isEmpty := by
    decide +kernel
  exact List.isEmpty_iff.1 (List.all_eq_true.1 hall x hx)

namespace Injected

variable {injection : Injection}

/-- What the injection adds to the imports. -/
theorem mem_imports (h : Injected m injection) {imp : Import Nat}
    (himp : imp ∈ injection.module.functions.imports) :
    imp ∈ m.functions.imports ∨
      ∃ x ∈ usedIntrinsics m, ImportOf injection.module.types imp x := by
  obtain ⟨injected, himports, hall⟩ := h.registered.imports
  rw [himports, functions_maxMemoryInject] at himp
  rcases List.mem_append.1 himp with hmem | hmem
  · obtain ⟨i, hi, rfl⟩ := List.mem_iff_getElem.1 hmem
    have hi' : i < (usedIntrinsics m).length := hall.length_eq ▸ hi
    exact .inr ⟨_, List.getElem_mem hi', hall.get hi hi'⟩
  · exact .inl hmem

theorem memories (h : Injected m injection) :
    injection.module.memories =
      { m.memories with defs := clampFirst m.memories.defs } := by
  rw [h.shiftedBy.memories, maxMemoryInject_eq]

theorem dataSegments (h : Injected m injection) :
    injection.module.dataSegments = m.dataSegments := by
  rw [h.shiftedBy.dataSegments, maxMemoryInject_eq]

theorem wellFormed (h : Injected m injection) (hm : Readable m) : WellFormed injection.module := by
  have hvalid := ValidDefinitions.of_validate hm.decoded.definitions
  have hwell := hm.spellable.wellFormed hm.userSections hvalid
  have htypes := h.types_prefix.length_le
  have htables : injection.module.tables = m.tables := by
    rw [h.shiftedBy.tables, maxMemoryInject_eq]
  have hglobals : injection.module.globals = m.globals := by
    rw [h.shiftedBy.globals, maxMemoryInject_eq]
  exact
    { userSections := by
        rw [h.shiftedBy.userSections, maxMemoryInject_eq]
        exact hwell.userSections
      functionImports := by
        intro imp himp
        rcases h.mem_imports himp with hmem | ⟨x, hx, himport⟩
        · exact hwell.functionImports imp hmem
        · have hknown := h.registered.distinct.known x hx
          refine ⟨?_, ?_⟩
          · rw [himport.moduleName]
            decide +kernel
          · rw [himport.exportName]
            exact validString_known hknown
      tableImports := htables ▸ hwell.tableImports
      memoryImports := h.memories ▸ hwell.memoryImports
      globalImports := hglobals ▸ hwell.globalImports
      tables := htables ▸ hwell.tables
      memories := by
        rw [h.memories]
        exact isShared_clampFirst hwell.memories
      importTypes := by
        intro imp himp
        rcases h.mem_imports himp with hmem | ⟨x, hx, himport⟩
        · exact Nat.lt_of_lt_of_le (hwell.importTypes imp hmem) htypes
        · exact (List.getElem?_eq_some_iff.1 himport.type).1
      defTypes := by
        rw [h.defs]
        intro fd hfd
        obtain ⟨original, hmem, rfl⟩ := List.mem_map.1 hfd
        exact Nat.lt_of_lt_of_le (hwell.defTypes original hmem) htypes }

theorem wellFormedBody (h : Injected m injection) (hm : Readable m) :
    ∀ fd ∈ injection.module.functions.defs, ∃ ops, WellFormedBody fd ops := by
  rw [h.defs]
  intro fd hfd
  obtain ⟨original, hmem, rfl⟩ := List.mem_map.1 hfd
  exact ⟨_, wellFormedBody_rewrite (hm.bodies original hmem) _⟩

/-- The runtime reads the injected module or refuses its bytes. -/
theorem decode_eq (h : Injected m injection) (hm : Readable m) {out : Bytes} {read : Module}
    (hencode : encode injection.module = .ok out) (hdecode : decode out = .ok read) :
    read = injection.module ∧ validateDefinitions injection.module = .ok () := by
  have hbodies : BodiesReadable (fun _ => True) injection.module
      injection.module.functions.defs := by
    intro before fd after hdefs _
    have hmem : fd ∈ injection.module.functions.defs := by simp [hdefs]
    obtain ⟨ops, hwell⟩ := h.wellFormedBody hm fd hmem
    exact ⟨ops, hwell, .inr fun _ _ => trivial, fun _ _ => trivial⟩
  rcases decode_encode (h.wellFormed hm) (.inr fun _ _ => trivial) hbodies hencode with
    ⟨heq, -⟩ | ⟨e, herror, -⟩
  · rw [heq] at hdecode
    cases hvalid : validateDefinitions injection.module with
    | error e =>
      rw [hvalid] at hdecode
      cases hdecode
    | ok u =>
      rw [hvalid] at hdecode
      cases hdecode
      exact ⟨rfl, rfl⟩
  · rw [herror] at hdecode
    cases hdecode

end Injected

end WasmInjections

end FractalWasm
