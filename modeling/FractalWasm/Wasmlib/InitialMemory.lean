import FractalWasm.Wasmlib.Interface

/-!
# The initial memory of a validated contract

Validation bounds the data segments by the first 64 KiB, and the memory by what a contract may ask
for; `parse_initial_memory` bounds them by the memory's initial size, and wants them to start below
it. So a validated contract is refused if its memory has no page, or one and an empty segment right
behind it.

**Both checks** (`ValidSegments`, `FitsMemory`): what validation asks of a segment and what
`parse_initial_memory` does, on the same module after its memory was clamped.

**Where they differ** (`fitsMemory_iff`): on the empty segment at the end of the initial pages, and
on a memory without pages.
-/

namespace FractalWasm

open Codec IR FractalWasm.Runtime WASM WasmInjections

namespace WasmInterface

/-- A fold whose rounds succeed or fail whatever the accumulator is. -/
theorem exists_foldlM {α σ ε : Type} {f : σ → α → Except ε σ} {P : α → Prop}
    (hf : ∀ state a, (∃ state', f state a = .ok state') ↔ P a) (l : List α) (state : σ) :
    (∃ state', l.foldlM f state = .ok state') ↔ ∀ a ∈ l, P a := by
  induction l generalizing state with
  | nil => simp [pure, Except.pure]
  | cons a l ih =>
    rw [List.foldlM_cons, List.forall_mem_cons]
    constructor
    · rintro ⟨last, h⟩
      obtain ⟨next, ha, hl⟩ := Except.bind_eq_ok.1 h
      exact ⟨(hf state a).1 ⟨next, ha⟩, (ih next).1 ⟨last, hl⟩⟩
    · rintro ⟨ha, hl⟩
      obtain ⟨next, ha⟩ := (hf state a).2 ha
      obtain ⟨last, hl⟩ := (ih next).2 hl
      exact ⟨last, Except.bind_eq_ok.2 ⟨next, ha, hl⟩⟩

/-- A data segment within the initial memory of a module. -/
def FitsMemory (memories : List MemoryType) (dataSegment : DataSegment) : Prop :=
  ∃ base memory, dataSegment.baseOffset = .i32Const base ∧ memories.head? = some memory ∧
    base.toNat < memory.size.min * Serialization.wasmPageSize ∧
      base.toNat + dataSegment.data.length ≤ memory.size.min * Serialization.wasmPageSize

theorem parseDataSegment_iff (module : Module) (memImage : Bytes) (dataSegment : DataSegment) :
    (∃ memImage', parseDataSegment module memImage dataSegment = .ok memImage') ↔
      FitsMemory module.memories.defs dataSegment := by
  unfold parseDataSegment FitsMemory
  split
  · next base memory memories hbase hmemories =>
    rw [hbase, hmemories]
    dsimp only
    split
    · next hout =>
      constructor
      · rintro ⟨_, h⟩
        cases h
      · rintro ⟨_, _, heq, hhead, hlt, hle⟩
        cases heq
        cases hhead
        omega
    · next hfits =>
      have hlt : base.toNat < memory.size.min * Serialization.wasmPageSize := by omega
      exact ⟨fun _ => ⟨base, memory, rfl, rfl, hlt, by omega⟩, fun _ => ⟨_, rfl⟩⟩
  · next hother =>
    constructor
    · rintro ⟨_, h⟩
      cases h
    · rintro ⟨base, memory, hbase, hhead, -⟩
      obtain ⟨memories, hmemories⟩ := List.head?_eq_some_iff.1 hhead
      exact absurd hmemories (hother base memory memories hbase)

theorem parseInitialMemory_iff (module : Module) :
    (∃ memImage, parseInitialMemory module = .ok memImage) ↔
      ∀ dataSegment ∈ module.dataSegments, FitsMemory module.memories.defs dataSegment :=
  exists_foldlM (parseDataSegment_iff module) module.dataSegments []

/-- The injection changes the upper limit of a memory only. -/
theorem fitsMemory_clampFirst {memories : List MemoryType} {dataSegment : DataSegment} :
    FitsMemory (clampFirst memories) dataSegment ↔ FitsMemory memories dataSegment := by
  cases memories with
  | nil => rfl
  | cons memory memories => simp [FitsMemory, clampFirst, clampMemory]

/-! ## Validated contracts -/

/-- What validation makes sure of about memories and data segments. -/
structure ValidSegments (m : Module) : Prop where
  segments : ∀ dataSegment ∈ m.dataSegments, ∃ base, dataSegment.baseOffset = .i32Const base ∧
    base.toNat + dataSegment.data.length ≤ maximumLinearMemoryInit
  memory : m.dataSegments ≠ [] → ∃ memory, m.memories.defs.head? = some memory

theorem validSegments_of_validate {statics statics' : Statics} {code : Bytes} {m : Module}
    (hdecode : decode code = .ok m) (h : validate statics code = .ok statics') :
    ValidSegments m := by
  have hvalid := ValidDefinitions.of_validate (Decoded.of_decode hdecode).definitions
  obtain ⟨read, hread, h⟩ := Except.bind_eq_ok.1 h
  have hsame := mapError_eq_ok.1 hread
  rw [hdecode] at hsame
  cases hsame
  obtain ⟨after, hvalidator, h⟩ := Except.bind_eq_ok.1 h
  obtain ⟨functions, hlink, -⟩ := Except.bind_eq_ok.1 h
  have himports := (linked_of_linkModule hlink).memories
  obtain ⟨constrainers, hvalidator, -⟩ := Except.bind_eq_ok.1 hvalidator
  obtain ⟨_, hmodule, -⟩ := Except.bind_eq_ok.1 hvalidator
  obtain ⟨_, -, hmodule⟩ := Except.bind_eq_ok.1 hmodule
  obtain ⟨_, hsegments, -⟩ := Except.bind_eq_ok.1 hmodule
  constructor
  · intro dataSegment hmem
    have hsegment := forM_eq_ok.1 hsegments dataSegment hmem
    unfold WasmValidations.validateDataSegment at hsegment
    split at hsegment
    · next base hbase =>
      split at hsegment
      · cases hsegment
      · next hle => exact ⟨base, hbase, Nat.not_lt.1 hle⟩
    · cases hsegment
  · intro hne
    obtain ⟨dataSegment, hmem⟩ := List.exists_mem_of_ne_nil _ hne
    have hlt := hvalid.dataMemories dataSegment hmem
    unfold IndexSpace.size at hlt
    rw [himports, List.length_nil, Nat.zero_add] at hlt
    cases hdefs : m.memories.defs with
    | nil =>
      rw [hdefs] at hlt
      exact absurd hlt (Nat.not_lt_zero _)
    | cons memory memories => exact ⟨memory, rfl⟩

/-- The memory is large enough for every data segment that validation lets through, or the contract
has none. An empty segment right behind the only page is not. -/
def HoldsSegments (m : Module) : Prop :=
  m.dataSegments = [] ∨ ∃ memory, m.memories.defs.head? = some memory ∧
    (2 ≤ memory.size.min ∨ memory.size.min = 1 ∧
      ∀ dataSegment ∈ m.dataSegments, dataSegment.baseOffset ≠ .i32Const 65536)

theorem fitsMemory_iff {m : Module} (h : ValidSegments m) :
    (∀ dataSegment ∈ m.dataSegments, FitsMemory m.memories.defs dataSegment) ↔
      HoldsSegments m := by
  unfold HoldsSegments
  by_cases hempty : m.dataSegments = []
  · simp [hempty]
  obtain ⟨memory, hhead⟩ := h.memory hempty
  obtain ⟨first, hfirst⟩ := List.exists_mem_of_ne_nil _ hempty
  have hpage : Serialization.wasmPageSize = 65536 := rfl
  have hinit : maximumLinearMemoryInit = 65536 := rfl
  simp only [FitsMemory, hpage]
  constructor
  · intro hfits
    refine .inr ⟨memory, hhead, ?_⟩
    obtain ⟨base, memory', hbase, hhead', hlt, hle⟩ := hfits first hfirst
    rw [hhead] at hhead'
    cases hhead'
    by_cases hmin : 2 ≤ memory.size.min
    · exact .inl hmin
    · refine .inr ⟨by omega, ?_⟩
      intro dataSegment hmem hborder
      obtain ⟨base, memory', hbase, hhead', hlt, hle⟩ := hfits dataSegment hmem
      rw [hhead] at hhead'
      cases hhead'
      rw [hborder] at hbase
      cases hbase
      have hvalue : (65536 : UInt32).toNat = 65536 := rfl
      omega
  · rintro (hnil | ⟨memory', hhead', hmemory⟩)
    · exact absurd hnil hempty
    · rw [hhead] at hhead'
      cases hhead'
      intro dataSegment hmem
      obtain ⟨base, hbase, hle⟩ := h.segments dataSegment hmem
      rw [hinit] at hle
      refine ⟨base, memory, hbase, hhead, ?_⟩
      rcases hmemory with hmin | ⟨hmin, hborder⟩
      · omega
      · have hne : base.toNat ≠ 65536 := by
          intro heq
          apply hborder dataSegment hmem
          have hborder' : base = 65536 := UInt32.toNat_inj.1 heq
          rw [hbase, hborder']
        omega

/-- The initial memory of a validated contract is made without an exception exactly if the memory
holds every segment validation lets through. -/
theorem initial_memory_parses_iff {statics statics' injector : Statics} {code : Bytes} {m : Module}
    (hdecode : decode code = .ok m) (hvalidate : validate statics code = .ok statics') :
    ∃ module after, injector.inject m.withoutUserSections = .ok (module, after) ∧
      ((∃ memImage, parseInitialMemory module = .ok memImage) ↔ HoldsSegments m) := by
  have hreadable := readable_of_decode hdecode
  obtain ⟨injection, caches, hinject, hinjected⟩ :=
    injected_of_decoded hreadable.decoded injector.caches
  refine ⟨injection.module, { injector with utils := injection.utils, caches }, ?_, ?_⟩
  · rw [Statics.inject_eq]
    exact Except.bind_eq_ok.2 ⟨_, hinject, rfl⟩
  · rw [parseInitialMemory_iff, hinjected.dataSegments, hinjected.memories]
    simp only [fitsMemory_clampFirst]
    have hvalid := validSegments_of_validate hdecode hvalidate
    exact @fitsMemory_iff m hvalid

/-- A contract with an empty `apply`, some pages of memory and one byte of data. -/
def dataBytes (pages : UInt8) : Bytes :=
  [0x00, 0x61, 0x73, 0x6d, 1, 0, 0, 0,
    1, 7, 1, 0x60, 3, 0x7e, 0x7e, 0x7e, 0,
    3, 2, 1, 0,
    5, 3, 1, 0, pages,
    7, 9, 1, 5, 97, 112, 112, 108, 121, 0, 0,
    10, 4, 1, 2, 0, 0x0b,
    11, 7, 1, 0, 0x41, 0, 0x0b, 1, 120]

theorem initial_memory_parses_iff_sample :
    ∃ m module after, decode (dataBytes 1) = .ok m ∧
      Statics.initial.inject m.withoutUserSections = .ok (module, after) ∧
        ∃ memImage, parseInitialMemory module = .ok memImage := by
  have hvalidate : (validate .initial (dataBytes 1)).toOption.isSome = true := by decide +kernel
  have hmodule : (decode (dataBytes 1)).toOption.isSome = true := by decide +kernel
  obtain ⟨statics', hvalidate⟩ := Option.isSome_iff_exists.1 hvalidate
  obtain ⟨m, hdecode⟩ := Option.isSome_iff_exists.1 hmodule
  have hsegments : (decode (dataBytes 1)).toOption.map
      (fun m => (m.memories.defs, m.dataSegments)) =
        some ([⟨false, ⟨1, uint64Max⟩⟩], [⟨0, .i32Const 0, [120]⟩]) := by decide +kernel
  rw [hdecode] at hsegments
  obtain ⟨hmemories, hdata⟩ := Prod.mk.inj (Option.some.inj hsegments)
  have hdecode' := Except.toOption_eq_some.1 hdecode
  have hholds : HoldsSegments m := by
    refine .inr ⟨⟨false, ⟨1, uint64Max⟩⟩, by rw [hmemories]; rfl, .inr ⟨rfl, ?_⟩⟩
    rw [hdata]
    decide
  obtain ⟨module, after, hinject, hparse⟩ := @initial_memory_parses_iff _ _ .initial _ _ hdecode'
    (Except.toOption_eq_some.1 hvalidate)
  exact ⟨m, module, after, hdecode', hinject, hparse.2 hholds⟩

/-- A validated contract with data and no page of memory. -/
theorem initial_memory_refused :
    ∃ m statics' module after, decode (dataBytes 0) = .ok m ∧
      validate .initial (dataBytes 0) = .ok statics' ∧
        Statics.initial.inject m.withoutUserSections = .ok (module, after) ∧
          parseInitialMemory module =
            .error (.ftl .wasmRuntime "WASM data segment outside of valid memory range") := by
  have hvalidate : (validate .initial (dataBytes 0)).toOption.isSome = true := by decide +kernel
  have hparse : (((decode (dataBytes 0)).bind fun m =>
      Statics.initial.inject m.withoutUserSections).map fun result =>
        parseInitialMemory result.1).toOption =
          some (.error (.ftl .wasmRuntime "WASM data segment outside of valid memory range")) := by
    decide +kernel
  obtain ⟨statics', hvalidate⟩ := Option.isSome_iff_exists.1 hvalidate
  cases hdecode : decode (dataBytes 0) with
  | error e =>
    rw [hdecode] at hparse
    cases hparse
  | ok m =>
    rw [hdecode] at hparse
    cases hinject : Statics.initial.inject m.withoutUserSections with
    | error e =>
      simp only [Except.bind, hinject] at hparse
      cases hparse
    | ok result =>
      simp only [Except.bind, hinject] at hparse
      exact ⟨m, statics', result.1, result.2, rfl, Except.toOption_eq_some.1 hvalidate, hinject,
        Option.some.inj hparse⟩

end WasmInterface

end FractalWasm
