import FractalWasm.WASM.RoundTrip.DecodedImports
import FractalWasm.WASM.RoundTrip.Modules
import FractalWasm.WASM.Sections

/-!
# Decoded modules written again

An invariant of the section loop: each section left in the module what the encoder can write. So a
decoded module whose functions have bodies is encoded, and decoding that gives the module back.

**The invariant** (`Rewritable`): for each section that was read, that its contents fit again; it is
carried through the loop by the lemmas on single sections.

**Re-encoding** (`reencodable_of_decode`): the encoder succeeds, and its output is decoded to the
same module, user sections apart.
-/

namespace FractalWasm.WASM

open Codec IR Serialization

/-! ## Function bodies -/

/-- The contents of the function section. -/
def declarationContents (defs : List FunctionDef) : OutputWriter :=
  Writer.concat [Serialization.Output.serializeVarUInt32 defs.length,
    Writer.concat (defs.map fun function =>
      Serialization.Output.serializeVarUInt32 function.type)]

/-- The contents of the code section. -/
def codeContents (defs : List FunctionDef) : OutputWriter :=
  Writer.concat [Serialization.Output.serializeVarUInt32 defs.length,
    Writer.concat (defs.map Output.serializeFunctionBody)]

/-- The locals of functions have types the language has. -/
def ValidLocals (defs : List FunctionDef) : Prop := ∀ functionDef ∈ defs,
  ∀ type ∈ functionDef.nonParameterLocalTypes, type.validate = .ok ()

/-- Bodies the encoder can write, and the decoder can read. -/
structure BodiesFit (defs : List FunctionDef) : Prop where
  wellFormed : ∀ functionDef ∈ defs, ∃ ops, WellFormedBody functionDef ops
  within : ∀ functionDef ∈ defs, BodyWithin functionDef
  contents : FitsSection (codeContents defs)

/-- No body has been read. -/
def Declared (defs : List FunctionDef) : Prop := ∀ functionDef ∈ defs,
  functionDef = declaration functionDef

theorem fits_serializeFunctionBody {module : Module} {functionDef functionDef' : FunctionDef}
    {bytes rest : Bytes} (hdeclaration : functionDef = declaration functionDef)
    (hread : serializeFunctionBody module functionDef bytes = .ok (functionDef', rest))
    (hvalid : ∀ type ∈ functionDef'.nonParameterLocalTypes, type.validate = .ok ()) :
    (∃ ops, WellFormedBody functionDef' ops) ∧ BodyWithin functionDef' ∧
      ∃ out, Output.serializeFunctionBody functionDef' = .ok out ∧
        out.length + rest.length ≤ bytes.length := by
  obtain ⟨numBodyBytes, t, hnum, hread⟩ := bind_eq_ok.1 hread
  obtain ⟨bodyBytes, t', hbytes, hread⟩ := bind_eq_ok.1 hread
  obtain ⟨⟨read, left⟩, t'', hlift, hread⟩ := bind_eq_ok.1 hread
  obtain ⟨hbody, rfl⟩ := lift_eq_ok.1 hlift
  obtain ⟨rfl, rfl⟩ := pure_eq_ok.1 hread
  obtain ⟨htake, hlength⟩ := advance_eq_ok.1 hbytes
  have hlt : bodyBytes.length < 2 ^ 32 := hlength ▸ returns_serializeVarUInt32.holds hnum
  rw [← hlength] at hbody
  obtain ⟨hwell, hwithin, out, hout, houtlen⟩ :=
    rewrittenBody_of_serializeBody hdeclaration hlt hbody hvalid
  -- The number of bytes is written in no more bytes than it was read from.
  have hmin : Reencodes [] serializeVarUInt32 fun value =>
      [Serialization.Output.serializeVarUInt32 (min value out.length)] :=
    reencodes_serializeVarUInt_le (by decide) fun value => Nat.min_le_left _ _
  obtain ⟨num, hnumw, hnumlen⟩ := hmin.fits hnum rfl
  rw [Writer.concat_singleton, ← hlength, Nat.min_eq_right houtlen] at hnumw
  refine ⟨hwell, hwithin, num ++ (out ++ []), ?_, ?_⟩
  · refine Except.bind_eq_ok.2 ⟨out, hout, ?_⟩
    refine Writer.concat_cons_eq_ok.2 ⟨num, _, hnumw, ?_, rfl⟩
    exact Writer.concat_cons_eq_ok.2 ⟨out, [], rfl, rfl, rfl⟩
  · have htaken := congrArg List.length htake
    simp only [List.length_append, List.length_nil] at htaken hnumlen ⊢
    omega

theorem fits_serializeFunctionBodies {module : Module} {defs defs' : List FunctionDef}
    {bytes rest : Bytes} (hdeclared : Declared defs)
    (hread : serializeFunctionBodies module defs bytes = .ok (defs', rest))
    (hvalid : ValidLocals defs') :
    (∀ functionDef ∈ defs', ∃ ops, WellFormedBody functionDef ops) ∧
      (∀ functionDef ∈ defs', BodyWithin functionDef) ∧ defs'.length = defs.length ∧
        ∃ out, Writer.concat (defs'.map Output.serializeFunctionBody) = .ok out ∧
          out.length + rest.length ≤ bytes.length := by
  induction defs generalizing defs' bytes with
  | nil =>
    obtain ⟨rfl, rfl⟩ := pure_eq_ok.1 hread
    refine ⟨fun _ hmem => absurd hmem List.not_mem_nil, fun _ hmem => absurd hmem List.not_mem_nil,
      rfl, [], rfl, ?_⟩
    exact Nat.le_of_eq (Nat.zero_add _)
  | cons functionDef defs ih =>
    obtain ⟨first, t, hfirst, hread⟩ := bind_eq_ok.1 hread
    obtain ⟨others, t', hothers, hread⟩ := bind_eq_ok.1 hread
    obtain ⟨rfl, rfl⟩ := pure_eq_ok.1 hread
    obtain ⟨hwell, hwithin, head, hhead, hheadlen⟩ := fits_serializeFunctionBody
      (hdeclared functionDef List.mem_cons_self) hfirst (hvalid first List.mem_cons_self)
    obtain ⟨hwells, hwithins, hcount, tail, htail, htaillen⟩ :=
      ih (fun fd hmem => hdeclared fd (List.mem_cons_of_mem _ hmem)) hothers
        fun fd hmem => hvalid fd (List.mem_cons_of_mem _ hmem)
    refine ⟨List.forall_mem_cons.2 ⟨hwell, hwells⟩, List.forall_mem_cons.2 ⟨hwithin, hwithins⟩,
      congrArg (· + 1) hcount, head ++ tail, ?_, ?_⟩
    · exact Writer.concat_cons_eq_ok.2 ⟨head, tail, hhead, htail, rfl⟩
    · rw [List.length_append]
      omega

/-! ## Modules -/

/-- What the encoder can write, the bodies of functions aside. -/
structure Spellable (module : Module) : Prop where
  types : FitsArray Output.serializeFunctionType
    (fun type => type.parameters.length < maximumFuncLocalBytes) module.types
  imports : (Imports.ofModule module).Fits
  declarations : FitsSection (declarationContents module.functions.defs)
  tables : FitsArray Output.serializeTableType (fun type => type.isShared = false)
    module.tables.defs
  memories : FitsArray Output.serializeMemoryType (fun type => type.isShared = false)
    module.memories.defs
  globals : FitsArray Output.serializeGlobalDef (fun _ => True) module.globals.defs
  exports : FitsArray Output.serializeExport (fun e => e.name.length < maximumFuncLocalBytes)
    module.exports
  start : ∀ index, module.startFunctionIndex = some index → index < 2 ^ 32
  elements : FitsArray Output.serializeTableSegment
    (fun tableSegment => tableSegment.indices.length < maximumFuncLocalBytes) module.tableSegments
  data : FitsArray Output.serializeDataSegment
    (fun dataSegment => dataSegment.data.length < maximumFuncLocalBytes) module.dataSegments

/-- Between two sections: what has been read can be written again. -/
structure Rewritable (last : UInt8) (module : Module) : Prop where
  spellable : Spellable module
  noImports : last < 2 → Imports.ofModule module = .empty
  declared : last < 10 → Declared module.functions.defs
  bodies : ¬ Declared module.functions.defs → ValidLocals module.functions.defs →
    BodiesFit module.functions.defs

namespace Rewritable

variable {last next : UInt8} {module module' : Module}

theorem initial : Rewritable 0 .empty where
  spellable :=
    { types := .nil _ _
      imports := Imports.fits_empty
      declarations := by
        have hlt : (Serialization.Output.varUIntBytes 5 0 ++ []).length < 2 ^ 32 := by decide
        refine ⟨_, ?_, hlt⟩
        exact Writer.concat_cons_eq_ok.2
          ⟨_, [], serializeVarUInt32_eq (Nat.two_pow_pos 32), rfl, rfl⟩
      tables := .nil _ _
      memories := .nil _ _
      globals := .nil _ _
      exports := .nil _ _
      start := nofun
      elements := .nil _ _
      data := .nil _ _ }
  noImports := fun _ => rfl
  declared := fun _ _ hmem => absurd hmem List.not_mem_nil
  bodies := fun h => absurd (fun _ hmem => absurd hmem List.not_mem_nil) h

/-- A section that leaves functions and imports alone. -/
theorem of_spellable (h : Rewritable last module) (hle : last ≤ next)
    (hspellable : Spellable module')
    (himports : Imports.ofModule module' = Imports.ofModule module)
    (hdefs : module'.functions.defs = module.functions.defs) : Rewritable next module' where
  spellable := hspellable
  noImports := fun hlt => himports.trans (h.noImports (UInt8.lt_of_le_of_lt hle hlt))
  declared := fun hlt => hdefs ▸ h.declared (UInt8.lt_of_le_of_lt hle hlt)
  bodies := hdefs ▸ h.bodies

theorem typeSection (h : Rewritable last module) (hlt : last < 1) {bytes rest : Bytes}
    (hread : serializeTypeSection module bytes = .ok (module', rest)) : Rewritable 1 module' := by
  have hparameters : Reader.Returns
      (fun type : FunctionType => type.parameters.length < maximumFuncLocalBytes)
      serializeFunctionType :=
    .bind fun _ => .bind_of (returns_serializeArray _) fun _ hlength => .bind fun _ => .pure hlength
  obtain ⟨types, rfl, hfits⟩ :=
    (returns_arraySection reencodes_serializeFunctionType hparameters).holds hread
  exact h.of_spellable (UInt8.le_of_lt hlt) { h.spellable with types := hfits } rfl rfl

theorem importSection (h : Rewritable last module) (hlt : last < 2) {bytes rest : Bytes}
    (hread : serializeImportSection module bytes = .ok (module', rest)) : Rewritable 2 module' := by
  obtain ⟨imports, rfl, hfits⟩ :=
    (Imports.returns_serializeImportSection (h.noImports hlt)).holds hread
  exact
    { spellable := { h.spellable with imports := hfits }
      noImports := fun hlt' => absurd hlt' (by decide)
      declared := fun _ => h.declared (UInt8.lt_trans hlt (by decide))
      bodies := h.bodies }

theorem functionSection (h : Rewritable last module) {bytes rest : Bytes}
    (hread : serializeFunctionSection module bytes = .ok (module', rest)) :
    Rewritable 3 module' := by
  have hsection : Reader.Returns (fun module' => ∃ defs, module' =
      { module with functions := { module.functions with defs } } ∧ Declared defs ∧
        FitsSection (declarationContents defs)) (serializeFunctionSection module) := by
    apply returns_section
    intro sectionBytes rest module' hlt hread
    obtain ⟨numFunctions, t, hnum, hread⟩ := bind_eq_ok.1 hread
    obtain ⟨u, t', hsize, hread⟩ := bind_eq_ok.1 hread
    obtain ⟨-, rfl⟩ := throwIf_eq_ok.1 hsize
    obtain ⟨defs, t', hdefs, hread⟩ := bind_eq_ok.1 hread
    obtain ⟨rfl, rfl⟩ := pure_eq_ok.1 hread
    have hdeclaration : Reader.Returns (fun fd : FunctionDef => fd = declaration fd)
        (serializeFunctionDeclaration module) := .bind fun _ => .bind fun _ => .pure rfl
    have hreencodes : Reencodes [] (serializeFunctionDeclaration module)
        fun fd => [Serialization.Output.serializeVarUInt32 fd.type] :=
      .bind reencodes_serializeVarUInt32 fun type =>
        .check (shrinks_throwIf _ _) (returns_throwIf _ _) fun _ _ => .pure rfl
    refine ⟨defs, rfl, (hdeclaration.many numFunctions).holds hdefs, ?_⟩
    obtain ⟨num, hnumw, hnumlen⟩ := reencodes_serializeVarUInt32.fits hnum rfl
    obtain ⟨out, hout, houtlen⟩ := (hreencodes.many numFunctions).fits hdefs rfl
    rw [Writer.concat_singleton, ← Reader.length_of_many hdefs] at hnumw
    refine ⟨num ++ (out ++ []), ?_, ?_⟩
    · refine Writer.concat_cons_eq_ok.2 ⟨num, _, hnumw, ?_, rfl⟩
      exact Writer.concat_cons_eq_ok.2 ⟨out, [], hout, rfl, rfl⟩
    · simp only [List.length_append, List.length_nil] at hnumlen houtlen ⊢
      omega
  obtain ⟨defs, rfl, hdeclared, hfits⟩ := hsection.holds hread
  exact
    { spellable := { h.spellable with declarations := hfits }
      noImports := fun hlt => absurd hlt (by decide)
      declared := fun _ => hdeclared
      bodies := fun hnot => absurd hdeclared hnot }

theorem codeSection (h : Rewritable last module) (hlt : last < 10) {bytes rest : Bytes}
    (hread : serializeCodeSection module bytes = .ok (module', rest)) : Rewritable 10 module' := by
  have hsection : Reader.Returns (fun module' => ∃ defs, module' =
      { module with functions := { module.functions with defs } } ∧
        defs.map FunctionDef.type = module.functions.defs.map FunctionDef.type ∧
          (ValidLocals defs → BodiesFit defs)) (serializeCodeSection module) := by
    apply returns_section
    intro sectionBytes rest module' hlt' hread
    obtain ⟨numFunctionBodies, t, hnum, hread⟩ := bind_eq_ok.1 hread
    obtain ⟨u, t', hsize, hread⟩ := bind_eq_ok.1 hread
    obtain ⟨hsize, rfl⟩ := throwIf_eq_ok.1 hsize
    obtain ⟨defs, t', hdefs, hread⟩ := bind_eq_ok.1 hread
    obtain ⟨rfl, rfl⟩ := pure_eq_ok.1 hread
    refine ⟨defs, rfl, ((returns_serializeFunctionBodies _ _).holds hdefs).1, fun hvalid => ?_⟩
    obtain ⟨hwell, hwithin, hcount, out, hout, houtlen⟩ :=
      fits_serializeFunctionBodies (h.declared hlt) hdefs hvalid
    obtain ⟨num, hnumw, hnumlen⟩ := reencodes_serializeVarUInt32.fits hnum rfl
    have hsame : numFunctionBodies = defs.length := by
      rw [hcount]
      simpa using hsize
    rw [Writer.concat_singleton, hsame] at hnumw
    refine ⟨hwell, hwithin, num ++ (out ++ []), ?_, ?_⟩
    · refine Writer.concat_cons_eq_ok.2 ⟨num, _, hnumw, ?_, rfl⟩
      exact Writer.concat_cons_eq_ok.2 ⟨out, [], hout, rfl, rfl⟩
    · simp only [List.length_append, List.length_nil] at hnumlen ⊢
      omega
  obtain ⟨defs, rfl, htypes, hbodies⟩ := hsection.holds hread
  have hdeclarations : declarationContents defs = declarationContents module.functions.defs := by
    have hlength := congrArg List.length htypes
    rw [List.length_map, List.length_map] at hlength
    have hmap : ∀ defs : List FunctionDef,
        (defs.map fun function => Serialization.Output.serializeVarUInt32 function.type) =
          (defs.map FunctionDef.type).map Serialization.Output.serializeVarUInt32 := by
      intro defs
      rw [List.map_map]
      rfl
    rw [declarationContents, declarationContents, hlength, hmap, hmap, htypes]
  exact
    { spellable := { h.spellable with
        declarations := hdeclarations ▸ h.spellable.declarations }
      noImports := fun hlt => absurd hlt (by decide)
      declared := fun hlt => absurd hlt (by decide)
      bodies := fun _ => hbodies }

theorem startSection (h : Rewritable last module) (hlt : last < 8) {bytes rest : Bytes}
    (hread : serializeStartSection module bytes = .ok (module', rest)) : Rewritable 8 module' := by
  have hsection : Reader.Returns (fun module' => ∃ index, module' =
      { module with startFunctionIndex := some index } ∧ index < 2 ^ 32)
      (serializeStartSection module) :=
    WASM.returns_serializeSection
      (.bind_of returns_serializeVarUInt32 fun index hindex => .pure ⟨index, rfl, hindex⟩)
  obtain ⟨index, rfl, hindex⟩ := hsection.holds hread
  refine h.of_spellable (UInt8.le_of_lt hlt) { h.spellable with start := ?_ } rfl rfl
  intro start hstart
  obtain rfl := Option.some.inj hstart
  exact hindex

/-- The sections that hold an array. -/
theorem arraySection (h : Rewritable last module) (hlt : last < next) (hcode : next ≠ 10)
    (hstart : next ≠ 8) (himport : next ≠ 2) (hfunction : next ≠ 3) :
    Reader.Returns (Rewritable next) (serializeKnownSection next module) := by
  have hle := UInt8.le_of_lt hlt
  have hnext : UInt8.ofNat next.toNat = next := UInt8.ofNat_toNat
  unfold serializeKnownSection
  split
  case h_1 hone =>
    rw [hone] at hnext
    subst hnext
    exact ⟨fun hread => h.typeSection hlt hread⟩
  case h_4 =>
    apply (returns_arraySection reencodes_serializeTableType returns_tableNotShared).mono
    rintro module' ⟨tables, rfl, hfits⟩
    exact h.of_spellable hle { h.spellable with tables := hfits } rfl rfl
  case h_5 =>
    apply (returns_arraySection reencodes_serializeMemoryType returns_memoryNotShared).mono
    rintro module' ⟨memories, rfl, hfits⟩
    exact h.of_spellable hle { h.spellable with memories := hfits } rfl rfl
  case h_6 =>
    have htrivial : Reader.Returns (fun _ : GlobalDef => True) serializeGlobalDef :=
      ⟨fun _ => trivial⟩
    apply (returns_arraySection reencodes_serializeGlobalDef htrivial).mono
    rintro module' ⟨globals, rfl, hfits⟩
    exact h.of_spellable hle { h.spellable with globals := hfits } rfl rfl
  case h_7 =>
    have hname : Reader.Returns (fun e : Export => e.name.length < maximumFuncLocalBytes)
        serializeExport :=
      .bind_of returns_serializeString fun _ hname => .bind fun _ => .bind fun _ => .bind fun _ =>
        .pure hname
    apply (returns_arraySection reencodes_serializeExport hname).mono
    rintro module' ⟨exports, rfl, hfits⟩
    exact h.of_spellable hle { h.spellable with exports := hfits } rfl rfl
  case h_9 =>
    have hindices : Reader.Returns (fun tableSegment : TableSegment =>
        tableSegment.indices.length < maximumFuncLocalBytes) serializeTableSegment :=
      .bind fun _ => .bind fun _ => .bind_of (returns_serializeArray _) fun _ hindices =>
        .pure hindices
    apply (returns_arraySection reencodes_serializeTableSegment hindices).mono
    rintro module' ⟨tableSegments, rfl, hfits⟩
    exact h.of_spellable hle { h.spellable with elements := hfits } rfl rfl
  case h_11 =>
    have hdata : Reader.Returns (fun dataSegment : DataSegment =>
        dataSegment.data.length < maximumFuncLocalBytes) serializeDataSegment :=
      .bind fun _ => .bind fun _ => .bind_of (returns_serializeArray _) fun _ hdata => .pure hdata
    apply (returns_arraySection reencodes_serializeDataSegment hdata).mono
    rintro module' ⟨dataSegments, rfl, hfits⟩
    exact h.of_spellable hle { h.spellable with data := hfits } rfl rfl
  case h_2 htwo => exact absurd (UInt8.toNat_inj.1 htwo) himport
  case h_3 hthree => exact absurd (UInt8.toNat_inj.1 hthree) hfunction
  case h_8 height => exact absurd (UInt8.toNat_inj.1 height) hstart
  case h_10 hten => exact absurd (UInt8.toNat_inj.1 hten) hcode
  case h_12 => exact .throw _

theorem knownSection (h : Rewritable last module) (hlt : last < next) {bytes rest : Bytes}
    (hread : serializeKnownSection next module bytes = .ok (module', rest)) :
    Rewritable next module' := by
  by_cases himport : next = 2
  · subst himport
    exact h.importSection hlt hread
  by_cases hfunction : next = 3
  · subst hfunction
    exact h.functionSection hread
  by_cases hstart : next = 8
  · subst hstart
    exact h.startSection hlt hread
  by_cases hcode : next = 10
  · subst hcode
    exact h.codeSection hlt hread
  exact (h.arraySection hlt hcode hstart himport hfunction).holds hread

/-- One round of the section loop. -/
theorem step {state state' : ModuleState}
    (h : Rewritable state.lastKnownSectionType state.module) {bytes rest : Bytes}
    (hstep : serializeNextSection state bytes = .ok (state', rest)) :
    Rewritable state'.lastKnownSectionType state'.module := by
  obtain ⟨sectionType, tail, module, -, ⟨-, rfl, hread⟩ | ⟨hlt, rfl, hread⟩⟩ :=
    serializeNextSection_cases hstep
  · obtain ⟨userSection, rfl⟩ := of_serializeUserSection hread
    exact h.of_spellable (UInt8.le_refl _) { h.spellable with } rfl rfl
  · exact h.knownSection hlt hread

end Rewritable

theorem rewritable_of_decode {bytes : Bytes} {module : Module} (h : decode bytes = .ok module) :
    ∃ last, Rewritable last module := by
  obtain ⟨⟨m, rest⟩, hmodule, h⟩ := Except.bind_eq_ok.1 h
  obtain ⟨u, -, h⟩ := Except.bind_eq_ok.1 h
  cases h
  obtain ⟨u, t, -, hmodule⟩ := bind_eq_ok.1 hmodule
  obtain ⟨u, t', -, hmodule⟩ := bind_eq_ok.1 hmodule
  obtain ⟨state, t'', hloop, hmodule⟩ := bind_eq_ok.1 hmodule
  obtain ⟨rfl, rfl⟩ := pure_eq_ok.1 hmodule
  exact ⟨state.lastKnownSectionType, Reader.loop_invariant
    (P := fun state _ => Rewritable state.lastKnownSectionType state.module)
    (fun h hstep => h.step hstep) Rewritable.initial hloop⟩

/-! ## Re-encoding -/

namespace Spellable

variable {module : Module}

theorem wellFormed (h : Spellable module) (huser : module.userSections = [])
    (hvalid : ValidDefinitions module) : WellFormed module := by
  obtain ⟨numBytes, himports⟩ := h.imports.written
  exact
    { userSections := huser
      functionImports := fun imp hmem => (himports.functionNames imp hmem).1
      tableImports := fun imp hmem =>
        ⟨(himports.tableNames imp hmem).1, himports.tablesNotShared imp hmem⟩
      memoryImports := fun imp hmem =>
        ⟨(himports.memoryNames imp hmem).1, himports.memoriesNotShared imp hmem⟩
      globalImports := fun imp hmem => (himports.globalNames imp hmem).1
      tables := h.tables.elements
      memories := h.memories.elements
      importTypes := hvalid.importTypes
      defTypes := hvalid.defTypes }

theorem within (h : Spellable module) (hbounded : Bounded module) : ModuleWithin module := by
  obtain ⟨numBytes, himports⟩ := h.imports.written
  exact
    { types := h.types.length
      parameters := h.types.elements
      functionImports := hbounded.imports_lt
      functionNames := fun imp hmem => (himports.functionNames imp hmem).2
      tableNames := fun imp hmem => (himports.tableNames imp hmem).2
      memoryNames := fun imp hmem => (himports.memoryNames imp hmem).2
      globalNames := fun imp hmem => (himports.globalNames imp hmem).2
      functionDefs := hbounded.defs_lt
      tables := h.tables.length
      memories := h.memories.length
      globals := h.globals.length
      exports := h.exports.length
      exportNames := h.exports.elements
      tableSegments := h.elements.length
      indices := h.elements.elements
      dataSegments := h.data.length
      data := h.data.elements }

end Spellable

theorem FitsSection.exists_section {contents : OutputWriter} (h : FitsSection contents)
    (sectionType : UInt8) : ∃ out, Output.serializeSection sectionType contents = .ok out := by
  obtain ⟨bytes, hcontents, hlt⟩ := h
  refine ⟨[sectionType] ++ (Serialization.Output.varUIntBytes 5 bytes.length ++ (bytes ++ [])), ?_⟩
  refine Except.bind_eq_ok.2 ⟨bytes, hcontents, ?_⟩
  refine Writer.concat_cons_eq_ok.2 ⟨_, _, rfl, ?_, rfl⟩
  refine Writer.concat_cons_eq_ok.2 ⟨_, _, serializeVarUInt32_eq hlt, ?_, rfl⟩
  exact Writer.concat_cons_eq_ok.2 ⟨bytes, [], rfl, rfl, rfl⟩

theorem exists_optional {isPresent : Bool} {w : OutputWriter}
    (h : isPresent = true → ∃ out, w = .ok out) : ∃ out, Output.optional isPresent w = .ok out := by
  cases isPresent with
  | false => exact ⟨[], rfl⟩
  | true => exact h rfl

theorem exists_concat {ws : List OutputWriter} (h : ∀ w ∈ ws, ∃ out, w = .ok out) :
    ∃ out, Writer.concat ws = .ok out := by
  induction ws with
  | nil => exact ⟨[], rfl⟩
  | cons w ws ih =>
    obtain ⟨head, hhead⟩ := h w List.mem_cons_self
    obtain ⟨tail, htail⟩ := ih fun w' hmem => h w' (List.mem_cons_of_mem w hmem)
    exact ⟨head ++ tail, Writer.concat_cons_eq_ok.2 ⟨head, tail, hhead, htail, rfl⟩⟩

/-- The encoder writes what is spellable. -/
theorem exists_encode {module : Module} (h : Spellable module)
    (hbodies : module.functions.defs ≠ [] → FitsSection (codeContents module.functions.defs))
    (huser : module.userSections = []) : ∃ out, encode module = .ok out := by
  apply exists_concat
  simp only [List.forall_mem_cons, List.not_mem_nil, false_implies, implies_true, and_true, huser]
  refine ⟨⟨_, rfl⟩, ⟨_, rfl⟩, ?_, ?_, ?_, ?_, ?_, ?_, ?_, ?_, ?_, ?_, ?_, ⟨_, rfl⟩⟩
  · exact exists_optional fun _ => h.types.contents.exists_section 1
  · exact exists_optional fun _ => h.imports.contents.exists_section 2
  · exact exists_optional fun _ => h.declarations.exists_section 3
  · exact exists_optional fun _ => h.tables.contents.exists_section 4
  · exact exists_optional fun _ => h.memories.contents.exists_section 5
  · exact exists_optional fun _ => h.globals.contents.exists_section 6
  · exact exists_optional fun _ => h.exports.contents.exists_section 7
  · cases hstart : module.startFunctionIndex with
    | none => exact ⟨[], rfl⟩
    | some index =>
      have hfits : FitsSection (Serialization.Output.serializeVarUInt32 index) := by
        refine ⟨_, serializeVarUInt32_eq (h.start index hstart), ?_⟩
        have hle := numBytes_le (Nat.lt_of_lt_of_le (h.start index hstart)
          (by decide : 2 ^ 32 ≤ 128 ^ 5)) (by decide)
        exact Nat.lt_of_le_of_lt hle (by decide)
      exact hfits.exists_section 8
  · exact exists_optional fun _ => h.elements.contents.exists_section 9
  · refine exists_optional fun hpresent => (hbodies fun hnil => ?_).exists_section 10
    rw [hnil] at hpresent
    cases hpresent
  · exact exists_optional fun _ => h.data.contents.exists_section 11

/-- A decoded module, as the encoder relies on it. -/
structure Reencodable (module : Module) : Prop where
  spellable : Spellable module
  bounded : Bounded module
  definitions : validateDefinitions module = .ok ()
  bodies : module.functions.defs ≠ [] → BodiesFit module.functions.defs
  accepted : AllBodies module

theorem reencodable_of_decode {bytes : Bytes} {module : Module} (h : decode bytes = .ok module)
    (hcode : ∀ functionDef ∈ module.functions.defs, functionDef.code ≠ []) :
    Reencodable module := by
  obtain ⟨last, hrewritable⟩ := rewritable_of_decode h
  obtain ⟨last', hreads⟩ := readsSections_of_decode h
  have hdefinitions : validateDefinitions module = .ok () := by
    obtain ⟨⟨m, rest⟩, -, h⟩ := Except.bind_eq_ok.1 h
    obtain ⟨u, hvalid, h⟩ := Except.bind_eq_ok.1 h
    cases h
    exact hvalid
  have hvalid := ValidDefinitions.of_validate hdefinitions
  refine ⟨hrewritable.spellable, hreads.invariant.bounded, hdefinitions, fun hne => ?_, ?_⟩
  · obtain ⟨functionDef, hmem⟩ := List.exists_mem_of_ne_nil _ hne
    refine hrewritable.bodies (fun hdeclared => hcode functionDef hmem ?_) hvalid.localTypes
    exact congrArg FunctionDef.code (hdeclared functionDef hmem)
  · intro functionDef hmem
    exact (hreads.invariant.bodiesAccepted functionDef hmem).resolve_left (hcode functionDef hmem)

/-- The contract without its user sections, as it is instantiated. -/
theorem Reencodable.clearUserSections {module : Module} (h : Reencodable module) :
    Reencodable { module with userSections := [] } where
  spellable := { h.spellable with }
  bounded := ⟨h.bounded.imports_lt, h.bounded.defs_lt⟩
  definitions := (validateDefinitions_userSections module []).trans h.definitions
  bodies := h.bodies
  accepted := by
    have hsame : SameSignatures module { module with userSections := [] } :=
      ⟨rfl, rfl, rfl, rfl, rfl, rfl⟩
    exact h.accepted.congr hsame rfl

/-- **Re-encoding loses nothing.** A module decoded from bytes, with a body for every function
definition and without its user sections, is written, and what is written decodes to the module
itself. -/
theorem reencoding_loses_nothing {bytes : Bytes} {module : Module}
    (h : decode bytes = .ok module)
    (hcode : ∀ functionDef ∈ module.functions.defs, functionDef.code ≠ []) :
    ∃ out, encode { module with userSections := [] } = .ok out ∧
      decode out = .ok { module with userSections := [] } := by
  have hreencodable := (reencodable_of_decode h hcode).clearUserSections
  obtain ⟨out, hout⟩ := exists_encode hreencodable.spellable
    (fun hne => (hreencodable.bodies hne).contents) rfl
  refine ⟨out, hout, ?_⟩
  have hwell := hreencodable.spellable.wellFormed rfl (.of_validate hreencodable.definitions)
  have hwithin := hreencodable.spellable.within hreencodable.bounded
  have hbodies : BodiesReadable (fun _ => False) { module with userSections := [] }
      module.functions.defs := by
    intro before functionDef after hdefs _
    have hmem : functionDef ∈ module.functions.defs := by simp [hdefs]
    have hfit := hreencodable.bodies (List.ne_nil_of_mem hmem)
    obtain ⟨ops, hwell⟩ := hfit.wellFormed functionDef hmem
    obtain ⟨ops', hops', -, haccepts⟩ := hreencodable.accepted functionDef hmem
    obtain rfl : ops = ops' := encodeOps_injective (hwell.code.symm.trans hops')
    refine ⟨ops, hwell, .inl (hfit.within functionDef hmem), fun e herror => ?_⟩
    rw [FunctionDef.accepts_iff_validateCode.1 haccepts] at herror
    cases herror
  rcases decode_encode hwell (.inl hwithin) hbodies hout with ⟨hdecode, -⟩ | ⟨e, -, hfalse⟩
  · rw [hdecode, hreencodable.definitions]
    rfl
  · exact hfalse.elim

theorem reencoding_loses_nothing_sample :
    ∃ out, encode sampleModule = .ok out ∧ decode out = .ok sampleModule :=
  reencoding_loses_nothing decode_sampleBytes (by decide)

end FractalWasm.WASM
