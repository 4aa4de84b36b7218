import FractalWasm.IR.Validate

/-!
# Checked definitions

What `validateDefinitions` has made sure of when it accepts: the indices of a module stay inside
its spaces, its types are types of the language, and no two of its exports have the same name.

**Accepted definitions** (`ValidDefinitions`): a structure with a field for each check, derived from
the verdict of the code in one step (`ValidDefinitions.of_validate`).

The names of exports are compared with all names before them, which the induction over the exports
carries along (`of_validateExports`). User sections are not looked at.
-/

namespace FractalWasm

open Codec

namespace IR

theorem forM_eq_ok {α : Type} {f : α → Except Exception Unit} {l : List α} :
    l.forM f = .ok () ↔ ∀ a ∈ l, f a = .ok () := by
  induction l with
  | nil =>
    refine ⟨fun _ a ha => absurd ha List.not_mem_nil, fun _ => rfl⟩
  | cons first l ih =>
    rw [List.forall_mem_cons, ← ih]
    constructor
    · intro h
      obtain ⟨u, hfirst, hl⟩ := Except.bind_eq_ok.1 h
      exact ⟨hfirst, hl⟩
    · rintro ⟨hfirst, hl⟩
      exact Except.bind_eq_ok.2 ⟨(), hfirst, hl⟩

theorem validateIndex_eq_ok {comparison : String} {index arraySize : Nat} :
    validateIndex comparison index arraySize = .ok () ↔ index < arraySize := by
  rw [validateIndex, validateUnless_eq_ok]
  simp

/-- A function type the language has. -/
structure FunctionType.Valid (type : FunctionType) : Prop where
  parameters : ∀ param ∈ type.parameters, param.validate = .ok ()
  ret : type.ret.validate = .ok ()

/-- What the definition checks establish about types, functions and memories. -/
structure ValidDefinitions (module : Module) : Prop where
  types : ∀ type ∈ module.types, type.Valid
  importTypes : ∀ imp ∈ module.functions.imports, imp.type < module.types.length
  defTypes : ∀ functionDef ∈ module.functions.defs, functionDef.type < module.types.length
  localTypes : ∀ functionDef ∈ module.functions.defs,
    ∀ type ∈ functionDef.nonParameterLocalTypes, type.validate = .ok ()
  memories : module.memories.size ≤ 1
  memoryTypes : ∀ memory ∈ module.memories.defs, memory.validate = .ok ()
  exportIndices : ∀ exportIt ∈ module.exports, exportIt.kind = .function →
    exportIt.index < module.functions.size
  exportNames : (module.exports.map Export.name).Nodup
  start : ∀ functionIndex, module.startFunctionIndex = some functionIndex →
    module.functionType? functionIndex = some ⟨.none, []⟩
  dataMemories : ∀ dataSegment ∈ module.dataSegments,
    dataSegment.memoryIndex < module.memories.size
  tableEntries : ∀ tableSegment ∈ module.tableSegments, ∀ functionIndex ∈ tableSegment.indices,
    functionIndex < module.functions.size

/-- The exports are checked against the names of those before them. -/
theorem of_validateExports {module : Module} {exports : List Export} {exportNames : List Bytes}
    (h : validateExports module exports exportNames = .ok ()) :
    (∀ exportIt ∈ exports, exportIt.kind = .function →
        exportIt.index < module.functions.size) ∧
      (exports.map Export.name).Nodup ∧ ∀ exportIt ∈ exports, exportIt.name ∉ exportNames := by
  induction exports generalizing exportNames with
  | nil =>
    exact ⟨fun _ hmem => absurd hmem List.not_mem_nil, List.nodup_nil,
      fun _ hmem => absurd hmem List.not_mem_nil⟩
  | cons exportIt exports ih =>
    have hchecks : (exportIt.kind = .function → exportIt.index < module.functions.size) ∧
        exportIt.name ∉ exportNames ∧
        validateExports module exports (exportIt.name :: exportNames) = .ok () := by
      have hrest : ∀ {u : Unit}, (do
          validateUnless "duplicate export: " "exportNameMap.count(exportIt.name)"
            (exportNames.contains exportIt.name)
          validateExports module exports (exportIt.name :: exportNames)) = .ok u →
          exportIt.name ∉ exportNames ∧
            validateExports module exports (exportIt.name :: exportNames) = .ok () := by
        intro u h
        obtain ⟨_, hname, h⟩ := Except.bind_eq_ok.1 h
        exact ⟨by simpa using validateUnless_eq_ok.1 hname, h⟩
      unfold validateExports at h
      cases hkind : exportIt.kind with
      | function =>
        simp only [hkind] at h
        obtain ⟨_, hindex, h⟩ := Except.bind_eq_ok.1 h
        exact ⟨fun _ => validateIndex_eq_ok.1 hindex, hrest h⟩
      | table | memory | global =>
        simp only [hkind] at h
        obtain ⟨_, -, h⟩ := Except.bind_eq_ok.1 h
        exact ⟨nofun, hrest h⟩
      | module | invalid _ _ =>
        simp only [hkind] at h
        cases h
    obtain ⟨hindex, hname, h⟩ := hchecks
    obtain ⟨hindices, hnodup, hnames⟩ := ih h
    refine ⟨?_, ?_, ?_⟩
    · intro other hmem hkind
      rcases List.mem_cons.1 hmem with rfl | hmem
      · exact hindex hkind
      · exact hindices other hmem hkind
    · refine List.nodup_cons.2 ⟨?_, hnodup⟩
      intro hmem
      obtain ⟨other, hother, heq⟩ := List.mem_map.1 hmem
      exact hnames other hother (heq ▸ List.mem_cons_self)
    · intro other hmem
      rcases List.mem_cons.1 hmem with rfl | hmem
      · exact hname
      · exact fun hmem' => hnames other hmem (List.mem_cons_of_mem _ hmem')

theorem of_validateStartFunction {module : Module} {functionIndex : Nat}
    (h : validateStartFunction module = .ok ())
    (hstart : module.startFunctionIndex = some functionIndex) :
    module.functionType? functionIndex = some ⟨.none, []⟩ := by
  unfold validateStartFunction at h
  simp only [hstart] at h
  split at h
  · cases h
  · next type htype =>
    have hempty : type = ⟨.none, []⟩ := by simpa using validateUnless_eq_ok.1 h
    rw [htype, hempty]

theorem ValidDefinitions.of_validate {module : Module} (h : validateDefinitions module = .ok ()) :
    ValidDefinitions module := by
  obtain ⟨_, htypes, h⟩ := Except.bind_eq_ok.1 h
  obtain ⟨_, hfunctionImports, h⟩ := Except.bind_eq_ok.1 h
  obtain ⟨_, -, h⟩ := Except.bind_eq_ok.1 h
  obtain ⟨_, -, h⟩ := Except.bind_eq_ok.1 h
  obtain ⟨_, -, h⟩ := Except.bind_eq_ok.1 h
  obtain ⟨_, hfunctionDefs, h⟩ := Except.bind_eq_ok.1 h
  obtain ⟨_, -, h⟩ := Except.bind_eq_ok.1 h
  obtain ⟨_, -, h⟩ := Except.bind_eq_ok.1 h
  obtain ⟨_, -, h⟩ := Except.bind_eq_ok.1 h
  obtain ⟨_, hmemoryTypes, h⟩ := Except.bind_eq_ok.1 h
  obtain ⟨_, hmemories, h⟩ := Except.bind_eq_ok.1 h
  obtain ⟨_, hexports, h⟩ := Except.bind_eq_ok.1 h
  obtain ⟨_, hstart, h⟩ := Except.bind_eq_ok.1 h
  obtain ⟨_, hdataSegments, htableSegments⟩ := Except.bind_eq_ok.1 h
  obtain ⟨hindices, hnames, -⟩ := of_validateExports hexports
  refine ⟨?_, ?_, ?_, ?_, ?_, forM_eq_ok.1 hmemoryTypes, hindices, hnames, ?_, ?_, ?_⟩
  · intro type hmem
    obtain ⟨_, hparameters, hret⟩ := Except.bind_eq_ok.1 (forM_eq_ok.1 htypes type hmem)
    exact ⟨forM_eq_ok.1 hparameters, hret⟩
  · intro imp hmem
    exact validateIndex_eq_ok.1 (forM_eq_ok.1 hfunctionImports imp hmem)
  · intro functionDef hmem
    obtain ⟨_, hindex, -⟩ := Except.bind_eq_ok.1 (forM_eq_ok.1 hfunctionDefs functionDef hmem)
    exact validateIndex_eq_ok.1 hindex
  · intro functionDef hmem
    obtain ⟨_, -, hlocals⟩ := Except.bind_eq_ok.1 (forM_eq_ok.1 hfunctionDefs functionDef hmem)
    exact forM_eq_ok.1 hlocals
  · simpa using validateUnless_eq_ok.1 hmemories
  · intro functionIndex hindex
    exact of_validateStartFunction hstart hindex
  · intro dataSegment hmem
    obtain ⟨_, hindex, -⟩ := Except.bind_eq_ok.1 (forM_eq_ok.1 hdataSegments dataSegment hmem)
    exact validateIndex_eq_ok.1 hindex
  · intro tableSegment hmem functionIndex hentry
    obtain ⟨_, -, h⟩ := Except.bind_eq_ok.1 (forM_eq_ok.1 htableSegments tableSegment hmem)
    obtain ⟨_, -, hentries⟩ := Except.bind_eq_ok.1 h
    exact validateIndex_eq_ok.1 (forM_eq_ok.1 hentries functionIndex hentry)

theorem validateExports_userSections (module : Module) (userSections : List UserSection)
    (exports : List Export) (exportNames : List Bytes) :
    validateExports { module with userSections } exports exportNames =
      validateExports module exports exportNames := by
  induction exports generalizing exportNames with
  | nil => rfl
  | cons exportIt exports ih =>
    unfold validateExports
    rw [ih]
    rfl

/-- User sections are not validated. -/
theorem validateDefinitions_userSections (module : Module) (userSections : List UserSection) :
    validateDefinitions { module with userSections } = validateDefinitions module := by
  unfold validateDefinitions
  rw [validateExports_userSections]
  rfl

end IR

end FractalWasm
