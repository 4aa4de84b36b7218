import FractalWasm.IR.ValidDefinitions
import FractalWasm.WASM.RoundTrip.Bodies

/-!
# Decoding an encoded module

An encoded module is read section by section; a section that was left out is one whose contents
are what the module has without it. Imports come back grouped by kind, which is how the module
keeps them.

**Stages** (`afterTypes` to `afterData`): the module as the sections so far have left it. Each
section leads from one stage to the next (`readsBack_*Section`), and one that was left out changes
nothing (`*_of_absent`).

**A module** (`finishes_serializeModule`, `decode_encode`): all sections in a row, then the
definition checks; a limit of the decoder that the encoder does not have ends in an error of `E`.
-/

namespace FractalWasm.WASM

open Codec IR Serialization

variable {E : Exception → Prop}

/-! ## What the encoder relies on -/

/-- The names of an import, which the encoder does not check. -/
def ValidNames {Ty : Type} (import_ : Import Ty) : Prop :=
  validateString import_.moduleName = [] ∧ validateString import_.exportName = []

def ShortNames {Ty : Type} (import_ : Import Ty) : Prop :=
  import_.moduleName.length < maximumFuncLocalBytes ∧
    import_.exportName.length < maximumFuncLocalBytes

/-- A module with nothing that the format cannot spell. -/
structure WellFormed (module : Module) : Prop where
  userSections : module.userSections = []
  functionImports : ∀ import_ ∈ module.functions.imports, ValidNames import_
  tableImports : ∀ import_ ∈ module.tables.imports,
    ValidNames import_ ∧ import_.type.isShared = false
  memoryImports : ∀ import_ ∈ module.memories.imports,
    ValidNames import_ ∧ import_.type.isShared = false
  globalImports : ∀ import_ ∈ module.globals.imports, ValidNames import_
  tables : ∀ table ∈ module.tables.defs, table.isShared = false
  memories : ∀ memory ∈ module.memories.defs, memory.isShared = false
  importTypes : ∀ import_ ∈ module.functions.imports, import_.type < module.types.length
  defTypes : ∀ functionDef ∈ module.functions.defs, functionDef.type < module.types.length

/-- A module small enough for the decoder, its function bodies aside. -/
structure ModuleWithin (module : Module) : Prop where
  types : module.types.length < maximumFuncLocalBytes
  parameters : ∀ type ∈ module.types, type.parameters.length < maximumFuncLocalBytes
  functionImports : module.functions.imports.length < maximumSectionElements
  functionNames : ∀ import_ ∈ module.functions.imports, ShortNames import_
  tableNames : ∀ import_ ∈ module.tables.imports, ShortNames import_
  memoryNames : ∀ import_ ∈ module.memories.imports, ShortNames import_
  globalNames : ∀ import_ ∈ module.globals.imports, ShortNames import_
  functionDefs : module.functions.defs.length < maximumSectionElements
  tables : module.tables.defs.length < maximumFuncLocalBytes
  memories : module.memories.defs.length < maximumFuncLocalBytes
  globals : module.globals.defs.length < maximumFuncLocalBytes
  exports : module.exports.length < maximumFuncLocalBytes
  exportNames : ∀ e ∈ module.exports, e.name.length < maximumFuncLocalBytes
  tableSegments : module.tableSegments.length < maximumFuncLocalBytes
  indices : ∀ tableSegment ∈ module.tableSegments,
    tableSegment.indices.length < maximumFuncLocalBytes
  dataSegments : module.dataSegments.length < maximumFuncLocalBytes
  data : ∀ dataSegment ∈ module.dataSegments, dataSegment.data.length < maximumFuncLocalBytes

/-- The counts the decoder has checked before it reads a function. -/
structure Counted (module : Module) : Prop where
  types : module.types.length < maximumFuncLocalBytes
  functionImports : module.functions.imports.length < maximumSectionElements

/-! ## Sections -/

/-- A section is read back when its body is: the size written in front of it is the size it is
given. -/
theorem readsBack_serializeSection {sectionBody : InputReader Module} {w : OutputWriter}
    {sectionType : UInt8} {P : Module → Prop} (hbody : ReadsBack E sectionBody w P) :
    ReadsBack E (serializeSection sectionBody) (Output.serializeSection sectionType w) P := by
  refine ⟨fun {bytes} hw => ?_⟩
  obtain ⟨sectionBytes, hsection, hw⟩ := Except.bind_eq_ok.1 hw
  obtain ⟨type, rest, htype, hrest, rfl⟩ := Writer.concat_cons_eq_ok.1 hw
  obtain ⟨num, rest', hnum, hrest', rfl⟩ := Writer.concat_cons_eq_ok.1 hrest
  obtain ⟨body, last, hbytes, hlast, rfl⟩ := Writer.concat_cons_eq_ok.1 hrest'
  obtain rfl := Except.ok.inj htype
  obtain rfl := Except.ok.inj hbytes
  obtain rfl := Except.ok.inj hlast
  have htaken : Reader.Parses E (advance 1) [sectionType] (· = [sectionType]) := parses_advance rfl
  refine htaken.bind fun _ _ => ?_
  refine ((readsBack_serializeVarUInt32 _).parses hnum).bind fun numSectionBytes hnum' => ?_
  rw [hnum']
  have hread : Reader.Parses E (advance sectionBytes.length) sectionBytes (· = sectionBytes) :=
    parses_advance rfl
  refine hread.bind fun taken htaken => ?_
  rw [htaken]
  have hrun : Reader.Parses E (onBytes sectionBytes sectionBody) []
      fun result => P result.1 ∧ result.2 = [] := by
    refine .lift ?_
    rcases (hbody.parses hsection).finishes with ⟨read, hread, hmodule⟩ | herror
    · exact .inl ⟨(read, []), hread, hmodule, rfl⟩
    · exact .inr herror
  refine hrun.check fun result hresult => ?_
  obtain ⟨read, left⟩ := result
  obtain ⟨hP, hleft⟩ : P read ∧ left = [] := hresult
  rw [hleft]
  exact .check (parses_throwIf_false rfl) fun _ _ => .pure hP

/-- Between two sections: the known sections so far, and the module read from them. -/
def Stage (sectionType : UInt8) (module : Module) (state : ModuleState) : Prop :=
  state.lastKnownSectionType ≤ sectionType ∧ state.module = module

/-- A section that may have been left out, and what is known once it has been read. -/
theorem loopFinishes_section_of {sectionType last : UInt8} {module module' : Module}
    {w : OutputWriter} {isPresent : Bool} {bytes rest : Bytes} {known : Prop}
    {Q : ModuleState → Prop}
    (hlt : last < sectionType)
    (hw : Output.optional isPresent (Output.serializeSection sectionType w) = .ok bytes)
    (habsent : isPresent = false → module = module' ∧ known)
    (hread : ReadsBack E (serializeKnownSection sectionType module)
      (Output.serializeSection sectionType w) fun read => read = module' ∧ known)
    (hrest : known → Reader.LoopFinishes E serializeNextSection rest (Stage sectionType module') Q) :
    Reader.LoopFinishes E serializeNextSection (bytes ++ rest) (Stage last module) Q := by
  have hrest' : Reader.LoopFinishes E serializeNextSection rest
      (fun state => Stage sectionType module' state ∧ known) Q :=
    fun fuel state hfuel hstate => hrest hstate.2 fuel state hfuel hstate.1
  have hpos : sectionType ≠ 0 := fun hzero => absurd (hzero ▸ hlt) (UInt8.not_lt.2 UInt8.zero_le)
  unfold Output.optional at hw
  cases isPresent with
  | false =>
    obtain rfl := Except.ok.inj hw
    refine .append (fun _ state hstage => ?_) (fun hne => absurd rfl hne) hrest'
    exact ⟨⟨UInt8.le_trans hstage.1 (UInt8.le_of_lt hlt), hstage.2.trans (habsent rfl).1⟩,
      (habsent rfl).2⟩
  | true =>
    rw [if_pos rfl] at hw
    obtain ⟨tail, rfl⟩ : ∃ tail, bytes = sectionType :: tail := by
      obtain ⟨sectionBytes, -, hbytes⟩ := Except.bind_eq_ok.1 hw
      obtain ⟨type, tail, htype, -, rfl⟩ := Writer.concat_cons_eq_ok.1 hbytes
      obtain rfl := Except.ok.inj htype
      exact ⟨tail, rfl⟩
    refine .append (fun hnil => absurd hnil (List.cons_ne_nil _ _)) (fun _ state hstage => ?_) hrest'
    obtain ⟨lastKnown, read⟩ := state
    obtain ⟨hlast, hmodule⟩ : lastKnown ≤ last ∧ read = module := hstage
    have horder : decide (sectionType ≤ lastKnown) = false :=
      decide_eq_false (UInt8.not_le.2 (UInt8.lt_of_le_of_lt hlast hlt))
    have hstep : Reader.Parses E (throwIf (sectionType ≤ lastKnown)
        "incorrect order for known section" >>= fun _ => serializeKnownSection sectionType read >>=
          fun module => pure ⟨sectionType, module⟩ : InputReader ModuleState) (sectionType :: tail)
        fun state => Stage sectionType module' state ∧ known := by
      refine .check (parses_throwIf_false horder) fun _ _ => ?_
      rw [hmodule]
      exact (hread.parses hw).map fun read hread => ⟨⟨UInt8.le_refl _, hread.1⟩, hread.2⟩
    refine ⟨fun rest => ?_⟩
    have hunfold : serializeNextSection ⟨lastKnown, read⟩ (sectionType :: tail ++ rest) =
        (if sectionType = 0 then do
            return { lastKnownSectionType := lastKnown, module := ← serializeUserSection read }
          else throwIf (sectionType ≤ lastKnown)
            "incorrect order for known section" >>= fun _ =>
              serializeKnownSection sectionType read >>= fun module => pure ⟨sectionType, module⟩ :
          InputReader ModuleState) (sectionType :: tail ++ rest) := rfl
    rw [hunfold, if_neg hpos]
    exact hstep.outcome rest

/-- A section that is there is read and the next ones follow; one that is not leaves the module as
it is. -/
theorem loopFinishes_section {sectionType last : UInt8} {module module' : Module}
    {w : OutputWriter} {isPresent : Bool} {bytes rest : Bytes} {Q : ModuleState → Prop}
    (hlt : last < sectionType)
    (hw : Output.optional isPresent (Output.serializeSection sectionType w) = .ok bytes)
    (habsent : isPresent = false → module = module')
    (hread : ReadsBack E (serializeKnownSection sectionType module)
      (Output.serializeSection sectionType w) (· = module'))
    (hrest : Reader.LoopFinishes E serializeNextSection rest (Stage sectionType module') Q) :
    Reader.LoopFinishes E serializeNextSection (bytes ++ rest) (Stage last module) Q :=
  loopFinishes_section_of hlt hw (fun h => (⟨habsent h, trivial⟩ : _ ∧ True))
    (hread.mono fun _ h => ⟨h, trivial⟩) fun _ => hrest

/-! ## Imports -/

section Imports

variable {Ty : Type}

/-- The names in front of an import's type. -/
theorem readsBack_importNames {import_ : Import Ty} {kind : ObjectKind}
    {serializeType : Ty → OutputWriter} {next : Bytes → Bytes → ObjectKind → InputReader Module}
    {module : Module} (hnames : ValidNames import_) (hshort : Within E (ShortNames import_))
    (hnext : ReadsBack E (next import_.moduleName import_.exportName kind)
      (serializeType import_.type) (· = module)) :
    ReadsBack E (do
        let moduleName ← serializeString
        let exportName ← serializeString
        throwIfNotValidUTF8 moduleName
        throwIfNotValidUTF8 exportName
        let kind ← serializeObjectKind
        next moduleName exportName kind)
      (Output.serializeImport kind serializeType import_) (· = module) := by
  have hmodule : FitsSize E import_.moduleName.length := (hshort.imp fun h => h.1).fitsSize
  have hexport : FitsSize E import_.exportName.length := (hshort.imp fun h => h.2).fitsSize
  refine .bind (readsBack_serializeString hmodule) fun moduleName hmodule => ?_
  refine .bind (readsBack_serializeString hexport) fun exportName hexport => ?_
  rw [hmodule, hexport]
  refine .check (parses_throwIfNotValidUTF8 hnames.1) fun _ _ => ?_
  refine .check (parses_throwIfNotValidUTF8 hnames.2) fun _ _ => ?_
  refine .bind (readsBack_serializeObjectKind kind) fun read hread => ?_
  rw [hread]
  exact .last hnext

/-- The imports of one kind, when the module with some of them is `withImports`. -/
theorem parses_serializeImports {enc : Import Ty → OutputWriter}
    (withImports : List (Import Ty) → Module) {imports : List (Import Ty)} {bytes : Bytes}
    (hw : Writer.concat (imports.map enc) = .ok bytes)
    (hstep : ∀ before import_ after, imports = before ++ import_ :: after →
      ReadsBack E (serializeImport (withImports before)) (enc import_)
        (· = withImports (before ++ [import_]))) :
    Reader.Parses E (serializeImports imports.length (withImports [])) bytes
      (· = withImports imports) := by
  have hsplit : ∀ after before bytes, imports = before ++ after →
      Writer.concat (after.map enc) = .ok bytes →
      Reader.Parses E (serializeImports after.length (withImports before)) bytes
        (· = withImports imports) := by
    intro after
    induction after with
    | nil =>
      intro before bytes himports hnil
      obtain rfl := Except.ok.inj hnil
      rw [List.append_nil] at himports
      rw [himports]
      exact .pure rfl
    | cons import_ after ih =>
      intro before bytes himports hcons
      obtain ⟨head, tail, himport, hafter, rfl⟩ := Writer.concat_cons_eq_ok.1 hcons
      refine ((hstep before import_ after himports).parses himport).bind fun read hread => ?_
      rw [hread]
      exact ih (before ++ [import_]) tail
        (by rw [himports, List.append_assoc, List.singleton_append]) hafter
  exact hsplit imports [] bytes rfl hw

/-- Imports are read one after the other. -/
theorem serializeImports_add (size size' : Nat) (module : Module) :
    serializeImports (size + size') module =
      serializeImports size module >>= serializeImports size' := by
  induction size generalizing module with
  | zero =>
    rw [Nat.zero_add]
    rfl
  | succ size ih =>
    rw [Nat.succ_add, serializeImports, serializeImports, bind_assoc]
    exact congrArg _ (funext fun read => ih read)

end Imports

section ImportKinds

variable (module : Module)

/-- The imports of one kind go to the end of that kind's list. -/
theorem parses_functionImports {imports : List (Import Nat)} {bytes : Bytes}
    (hw : Writer.concat (imports.map
      (Output.serializeImport .function Output.serializeVarUInt32)) = .ok bytes)
    (hnames : ∀ import_ ∈ imports, ValidNames import_)
    (htypes : ∀ import_ ∈ imports, import_.type < module.types.length)
    (hshort : Within E (∀ import_ ∈ imports, ShortNames import_))
    (hlength : Within E (imports.length < maximumSectionElements)) :
    Reader.Parses E (serializeImports imports.length
        { module with functions := { module.functions with imports := [] } }) bytes
      (· = { module with functions := { module.functions with imports } }) := by
  refine parses_serializeImports (fun imports =>
    { module with functions := { module.functions with imports } }) hw ?_
  intro before import_ after himports
  have hmem : import_ ∈ imports := by simp [himports]
  refine readsBack_importNames (hnames import_ hmem) (hshort.imp fun h => h import_ hmem) ?_
  refine ⟨fun {bytes} hw => ?_⟩
  rw [← List.append_nil bytes]
  refine ((readsBack_serializeVarUInt32 _).parses hw).bind fun functionTypeIndex htype => ?_
  rw [htype]
  refine .check (parses_throwIf_false ?_) fun _ _ => ?_
  · exact decide_eq_false (Nat.not_le.2 (htypes import_ hmem))
  refine .check (Within.throwIf (hlength.imp fun hlt => ?_) .functionImports) fun _ _ => .pure rfl
  rw [himports, List.length_append, List.length_cons] at hlt
  simp only [List.length_append, List.length_singleton, decide_eq_false_iff_not]
  omega

/-- The type of an import that is not a function, and the check behind it. -/
theorem readsBack_importType {module : Module} {Ty : Type} {r : InputReader Ty} {w : OutputWriter}
    {type : Ty} {message : String} {add : Ty → Module} (hr : ReadsBack E r w (· = type))
    (hlength : Within E (module.functions.imports.length < maximumSectionElements))
    (hlimit : IsLimit (.fatalSerialization message)) :
    ReadsBack E (do
        let type ← r
        throwIf (module.functions.imports.length ≥ maximumSectionElements) message
        return add type) w (· = add type) := by
  refine ⟨fun {bytes} hw => ?_⟩
  rw [← List.append_nil bytes]
  refine (hr.parses hw).bind fun read hread => ?_
  rw [hread]
  refine .check (Within.throwIf (hlength.imp fun hlt => ?_) hlimit) fun _ _ => .pure rfl
  exact decide_eq_false (Nat.not_le.2 hlt)

theorem parses_tableImports {imports : List (Import TableType)} {bytes : Bytes}
    (hw : Writer.concat (imports.map
      (Output.serializeImport .table Output.serializeTableType)) = .ok bytes)
    (himports : ∀ import_ ∈ imports, ValidNames import_ ∧ import_.type.isShared = false)
    (hshort : Within E (∀ import_ ∈ imports, ShortNames import_))
    (hlength : Within E (module.functions.imports.length < maximumSectionElements)) :
    Reader.Parses E (serializeImports imports.length
        { module with tables := { module.tables with imports := [] } }) bytes
      (· = { module with tables := { module.tables with imports } }) := by
  refine parses_serializeImports (fun imports =>
    { module with tables := { module.tables with imports } }) hw ?_
  intro before import_ after hsplit
  have hmem : import_ ∈ imports := by simp [hsplit]
  refine readsBack_importNames (himports import_ hmem).1 (hshort.imp fun h => h import_ hmem) ?_
  exact readsBack_importType (readsBack_serializeTableType (himports import_ hmem).2) hlength
    .tableImports

theorem parses_memoryImports {imports : List (Import MemoryType)} {bytes : Bytes}
    (hw : Writer.concat (imports.map
      (Output.serializeImport .memory Output.serializeMemoryType)) = .ok bytes)
    (himports : ∀ import_ ∈ imports, ValidNames import_ ∧ import_.type.isShared = false)
    (hshort : Within E (∀ import_ ∈ imports, ShortNames import_))
    (hlength : Within E (module.functions.imports.length < maximumSectionElements)) :
    Reader.Parses E (serializeImports imports.length
        { module with memories := { module.memories with imports := [] } }) bytes
      (· = { module with memories := { module.memories with imports } }) := by
  refine parses_serializeImports (fun imports =>
    { module with memories := { module.memories with imports } }) hw ?_
  intro before import_ after hsplit
  have hmem : import_ ∈ imports := by simp [hsplit]
  refine readsBack_importNames (himports import_ hmem).1 (hshort.imp fun h => h import_ hmem) ?_
  exact readsBack_importType (readsBack_serializeMemoryType (himports import_ hmem).2) hlength
    .memoryImports

theorem parses_globalImports {imports : List (Import GlobalType)} {bytes : Bytes}
    (hw : Writer.concat (imports.map
      (Output.serializeImport .global Output.serializeGlobalType)) = .ok bytes)
    (hnames : ∀ import_ ∈ imports, ValidNames import_)
    (hshort : Within E (∀ import_ ∈ imports, ShortNames import_))
    (hlength : Within E (module.functions.imports.length < maximumSectionElements)) :
    Reader.Parses E (serializeImports imports.length
        { module with globals := { module.globals with imports := [] } }) bytes
      (· = { module with globals := { module.globals with imports } }) := by
  refine parses_serializeImports (fun imports =>
    { module with globals := { module.globals with imports } }) hw ?_
  intro before import_ after hsplit
  have hmem : import_ ∈ imports := by simp [hsplit]
  refine readsBack_importNames (hnames import_ hmem) (hshort.imp fun h => h import_ hmem) ?_
  exact readsBack_importType (readsBack_serializeGlobalType import_.type) hlength .globalImports

end ImportKinds

/-! ## The module so far -/

def afterTypes (module : Module) : Module := { Module.empty with types := module.types }

def afterImports (module : Module) : Module :=
  { afterTypes module with
    functions := ⟨module.functions.imports, []⟩
    tables := ⟨module.tables.imports, []⟩
    memories := ⟨module.memories.imports, []⟩
    globals := ⟨module.globals.imports, []⟩ }

def afterFunctions (module : Module) : Module :=
  { afterImports module with
    functions := ⟨module.functions.imports, module.functions.defs.map declaration⟩ }

def afterTables (module : Module) : Module :=
  { afterFunctions module with tables := module.tables }

def afterMemories (module : Module) : Module :=
  { afterTables module with memories := module.memories }

def afterGlobals (module : Module) : Module :=
  { afterMemories module with globals := module.globals }

def afterExports (module : Module) : Module :=
  { afterGlobals module with exports := module.exports }

def afterStart (module : Module) : Module :=
  { afterExports module with startFunctionIndex := module.startFunctionIndex }

def afterElements (module : Module) : Module :=
  { afterStart module with tableSegments := module.tableSegments }

def afterCode (module : Module) : Module :=
  { afterElements module with functions := module.functions }

def afterData (module : Module) : Module :=
  { afterCode module with dataSegments := module.dataSegments }

/-! ## Each section -/

section EachSection

variable {module : Module}

/-- A section that holds one array. -/
theorem readsBack_arraySection {α : Type} {sectionType : UInt8} {r : InputReader α}
    {enc : α → OutputWriter} {vector : List α} {put : List α → Module}
    (hfits : Within E (vector.length < maximumFuncLocalBytes))
    (h : ∀ a ∈ vector, ReadsBack E r (enc a) (· = a)) :
    ReadsBack E (serializeSection (serializeArray r >>= fun as => pure (put as)))
      (Output.serializeSection sectionType (Output.serializeArray enc vector))
      (· = put vector) := by
  refine readsBack_serializeSection (.map (readsBack_serializeArray hfits.fitsSize h) ?_)
  intro as has
  rw [has]

/-- The types come first, into an empty module. -/
theorem readsBack_typeSection (hwithin : Within E (ModuleWithin module)) :
    ReadsBack E (serializeTypeSection .empty) (Output.serializeTypeSection module)
      (· = afterTypes module) :=
  readsBack_arraySection (hwithin.imp fun h => h.types) fun type hmem =>
    readsBack_serializeFunctionType (hwithin.imp fun h => h.parameters type hmem).fitsSize

theorem readsBack_tableSection (h : WellFormed module) (hwithin : Within E (ModuleWithin module)) :
    ReadsBack E (serializeTableSection (afterFunctions module)) (Output.serializeTableSection module)
      (· = afterTables module) :=
  readsBack_arraySection (hwithin.imp fun h => h.tables) fun table hmem =>
    readsBack_serializeTableType (h.tables table hmem)

theorem readsBack_memorySection (h : WellFormed module)
    (hwithin : Within E (ModuleWithin module)) :
    ReadsBack E (serializeMemorySection (afterTables module)) (Output.serializeMemorySection module)
      (· = afterMemories module) :=
  readsBack_arraySection (hwithin.imp fun h => h.memories) fun memory hmem =>
    readsBack_serializeMemoryType (h.memories memory hmem)

theorem readsBack_globalSection (hwithin : Within E (ModuleWithin module)) :
    ReadsBack E (serializeGlobalSection (afterMemories module))
      (Output.serializeGlobalSection module) (· = afterGlobals module) :=
  readsBack_arraySection (hwithin.imp fun h => h.globals) fun globalDef _ =>
    readsBack_serializeGlobalDef globalDef

theorem readsBack_exportSection (hwithin : Within E (ModuleWithin module)) :
    ReadsBack E (serializeExportSection (afterGlobals module)) (Output.serializeExportSection module)
      (· = afterExports module) :=
  readsBack_arraySection (hwithin.imp fun h => h.exports) fun e hmem =>
    readsBack_serializeExport (hwithin.imp fun h => h.exportNames e hmem).fitsSize

theorem readsBack_startSection {startFunctionIndex : Nat}
    (hstart : module.startFunctionIndex = some startFunctionIndex) :
    ReadsBack E (serializeStartSection (afterExports module))
      (Output.serializeStartSection startFunctionIndex) (· = afterStart module) := by
  refine readsBack_serializeSection (.map (readsBack_serializeVarUInt32 _) fun read hread => ?_)
  rw [hread, afterStart, hstart]

theorem readsBack_elementSection (hwithin : Within E (ModuleWithin module)) :
    ReadsBack E (serializeElementSection (afterStart module))
      (Output.serializeElementSection module) (· = afterElements module) :=
  readsBack_arraySection (hwithin.imp fun h => h.tableSegments) fun tableSegment hmem =>
    readsBack_serializeTableSegment (hwithin.imp fun h => h.indices tableSegment hmem).fitsSize

theorem readsBack_dataSection (hwithin : Within E (ModuleWithin module)) :
    ReadsBack E (serializeDataSection (afterCode module)) (Output.serializeDataSection module)
      (· = afterData module) :=
  readsBack_arraySection (hwithin.imp fun h => h.dataSegments) fun dataSegment hmem =>
    readsBack_serializeDataSegment (hwithin.imp fun h => h.data dataSegment hmem).fitsSize

/-- The four kinds of imports, one after the other. -/
theorem readsBack_importSection (h : WellFormed module) (hwithin : Within E (ModuleWithin module)) :
    ReadsBack E (serializeImportSection (afterTypes module))
      (Output.serializeImportSection module) (· = afterImports module) := by
  have hlength : Within E (module.functions.imports.length < maximumSectionElements) :=
    hwithin.imp fun hm => hm.functionImports
  refine readsBack_serializeSection ⟨fun {bytes} hw => ?_⟩
  obtain ⟨num, rest, hnum, hrest, rfl⟩ := Writer.concat_cons_eq_ok.1 hw
  obtain ⟨functions, rest₁, hfunctions, hrest₁, rfl⟩ := Writer.concat_cons_eq_ok.1 hrest
  obtain ⟨tables, rest₂, htables, hrest₂, rfl⟩ := Writer.concat_cons_eq_ok.1 hrest₁
  obtain ⟨memories, rest₃, hmemories, hrest₃, rfl⟩ := Writer.concat_cons_eq_ok.1 hrest₂
  obtain ⟨globals, last, hglobals, hlast, rfl⟩ := Writer.concat_cons_eq_ok.1 hrest₃
  obtain rfl := Except.ok.inj hlast
  refine ((readsBack_serializeVarUInt32 _).parses hnum).bind fun size hsize => ?_
  rw [hsize, Output.numImports, Nat.add_assoc, Nat.add_assoc, serializeImports_add]
  refine (parses_functionImports (afterTypes module) hfunctions h.functionImports
    h.importTypes (hwithin.imp fun hm => hm.functionNames) hlength).bind
      fun read hread => ?_
  rw [hread, serializeImports_add]
  refine (parses_tableImports { afterTypes module with
    functions := ⟨module.functions.imports, []⟩ } htables h.tableImports
      (hwithin.imp fun hm => hm.tableNames) hlength).bind fun read hread => ?_
  rw [hread, serializeImports_add]
  refine (parses_memoryImports { afterTypes module with
    functions := ⟨module.functions.imports, []⟩
    tables := ⟨module.tables.imports, []⟩ } hmemories h.memoryImports
      (hwithin.imp fun hm => hm.memoryNames) hlength).bind fun read hread => ?_
  rw [hread, List.append_nil]
  exact parses_globalImports { afterTypes module with
    functions := ⟨module.functions.imports, []⟩
    tables := ⟨module.tables.imports, []⟩
    memories := ⟨module.memories.imports, []⟩ } hglobals h.globalImports
      (hwithin.imp fun hm => hm.globalNames) hlength

/-- The function section knows the types, not yet the bodies. -/
theorem readsBack_functionSection (h : WellFormed module)
    (hwithin : Within E (ModuleWithin module)) :
    ReadsBack E (serializeFunctionSection (afterImports module))
      (Output.serializeFunctionSection module) (· = afterFunctions module) := by
  refine readsBack_serializeSection ?_
  refine .bind (readsBack_serializeVarUInt32 _) fun numFunctions hnum => ?_
  rw [hnum]
  refine .check (Within.throwIf (hwithin.imp fun hm => ?_) .functionDefs) fun _ _ => ?_
  · exact decide_eq_false (Nat.not_le.2 hm.functionDefs)
  have hdeclaration : ∀ functionDef ∈ module.functions.defs.map declaration,
      ReadsBack E (serializeFunctionDeclaration (afterImports module))
        (Output.serializeVarUInt32 functionDef.type) (· = functionDef) := by
    intro functionDef hmem
    obtain ⟨original, horiginal, rfl⟩ := List.mem_map.1 hmem
    refine ⟨fun {bytes} hw => ?_⟩
    rw [← List.append_nil bytes]
    refine ((readsBack_serializeVarUInt32 _).parses hw).bind fun functionTypeIndex htype => ?_
    rw [htype]
    refine .check (parses_throwIf_false ?_) fun _ _ => .pure rfl
    exact decide_eq_false (Nat.not_le.2 (h.defTypes original horiginal))
  have hmany := ReadsBack.many hdeclaration
  rw [List.length_map, List.map_map] at hmany
  refine .last (.map hmany fun defs hdefs => ?_)
  rw [hdefs]
  rfl

/-- A function whose code the validator accepts. -/
def Accepted (module : Module) (functionDef : FunctionDef) : Prop :=
  ∃ ops, WellFormedBody functionDef ops ∧ functionDef.Accepts module ops

/-- Each body behind accepted ones can be read, or is refused with an error in `E`. -/
def BodiesReadable (E : Exception → Prop) (module : Module) (defs : List FunctionDef) : Prop :=
  ∀ before functionDef after, defs = before ++ functionDef :: after →
    (∀ earlier ∈ before, Accepted module earlier) →
      ∃ ops, WellFormedBody functionDef ops ∧ Within E (BodyWithin functionDef) ∧
        ∀ e, functionDef.validateCode module ops = .error e → E e

/-- A body the decoder has read. -/
def BodyRead (module : Module) (functionDef : FunctionDef) : Prop :=
  Accepted module functionDef ∧ SmallBody functionDef

/-- Each body can be read once those before it have been, or is refused with an error in `E`. -/
def BodiesRead (E : Exception → Prop) (module : Module) (defs : List FunctionDef) : Prop :=
  ∀ before functionDef after, defs = before ++ functionDef :: after →
    (∀ earlier ∈ before, BodyRead module earlier) →
      ∃ ops, WellFormedBody functionDef ops ∧ Within E (BodyWithin functionDef) ∧
        (SmallBody functionDef → ∀ e, functionDef.validateCode module ops = .error e → E e)

/-- Bodies that are read back by themselves are read back in a row. -/
theorem BodiesReadable.bodiesRead {defs : List FunctionDef} (h : BodiesReadable E module defs) :
    BodiesRead E module defs := by
  intro before functionDef after hdefs hearlier
  obtain ⟨ops, hwell, hwithin, hvalid⟩ :=
    h before functionDef after hdefs fun earlier hmem => (hearlier earlier hmem).1
  exact ⟨ops, hwell, hwithin, fun _ => hvalid⟩

/-- The bodies are put into the definitions of the function section. -/
theorem parses_serializeFunctionBodies {defs : List FunctionDef} {bytes : Bytes}
    (hbodies : BodiesRead E module defs)
    (hw : Writer.concat (defs.map Output.serializeFunctionBody) = .ok bytes) :
    Reader.Parses E (serializeFunctionBodies module (defs.map declaration)) bytes
      fun defs' => defs' = defs ∧ ∀ functionDef ∈ defs, BodyRead module functionDef := by
  have hsplit : ∀ after before bytes, defs = before ++ after →
      (∀ earlier ∈ before, BodyRead module earlier) →
      Writer.concat (after.map Output.serializeFunctionBody) = .ok bytes →
      Reader.Parses E (serializeFunctionBodies module (after.map declaration)) bytes
        fun defs' => defs' = after ∧ ∀ functionDef ∈ defs, BodyRead module functionDef := by
    intro after
    induction after with
    | nil =>
      intro before bytes hdefs hread hnil
      obtain rfl := Except.ok.inj hnil
      rw [List.append_nil] at hdefs
      exact .pure ⟨rfl, hdefs ▸ hread⟩
    | cons functionDef after ih =>
      intro before bytes hdefs hearlier hcons
      obtain ⟨head, tail, hbody, hafter, rfl⟩ := Writer.concat_cons_eq_ok.1 hcons
      obtain ⟨ops, hwell, hwithin, hvalid⟩ := hbodies before functionDef after hdefs hearlier
      refine ((readsBack_serializeFunctionBody hwell hwithin hvalid).parses hbody).bind
        fun read hread => ?_
      have hearlier' : ∀ earlier ∈ before ++ [functionDef], BodyRead module earlier := by
        intro earlier hmem
        rcases List.mem_append.1 hmem with hmem | hmem
        · exact hearlier earlier hmem
        · obtain rfl := List.mem_singleton.1 hmem
          exact ⟨⟨ops, hwell, hread.2.1⟩, hread.2.2⟩
      have hdefs' : defs = (before ++ [functionDef]) ++ after := by
        rw [hdefs, List.append_assoc, List.singleton_append]
      refine (ih (before ++ [functionDef]) tail hdefs' hearlier' hafter).map fun defs' hdefs' => ?_
      exact ⟨by rw [hread.1, hdefs'.1], hdefs'.2⟩
  exact hsplit defs [] bytes rfl (fun _ hmem => absurd hmem List.not_mem_nil) hw

/-- The bodies are validated against the signatures the whole module has. -/
theorem sameSignatures_afterElements (module : Module) :
    SameSignatures (afterElements module) module := by
  have htypes : module.functions.defs.map FunctionDef.type =
      (afterElements module).functions.defs.map FunctionDef.type := by
    change _ = (module.functions.defs.map declaration).map FunctionDef.type
    rw [List.map_map]
    rfl
  have hsame : SameSignatures (afterElements module) _ := sameSignatures_of_defs htypes
  exact ⟨rfl, hsame.functionType?, hsame.functions_size, rfl, rfl, rfl⟩

/-- The bodies are read with the types of the function section. -/
theorem readsBack_codeSection (hbodies : BodiesRead E module module.functions.defs) :
    ReadsBack E (serializeCodeSection (afterElements module)) (Output.serializeCodeSection module)
      fun module' => module' = afterCode module ∧
        ∀ functionDef ∈ module.functions.defs, BodyRead module functionDef := by
  have hsame := sameSignatures_afterElements module
  have hcongr : ∀ {functionDef : FunctionDef}, BodyRead (afterElements module) functionDef →
      BodyRead module functionDef := by
    rintro functionDef ⟨⟨ops, hwell, haccepts⟩, hsmall⟩
    exact ⟨⟨ops, hwell, haccepts.congr hsame⟩, hsmall⟩
  have hreadable : BodiesRead E (afterElements module) module.functions.defs := by
    intro before functionDef after hdefs hearlier
    obtain ⟨ops, hwell, hwithin, hvalid⟩ := hbodies before functionDef after hdefs
      fun earlier hmem => hcongr (hearlier earlier hmem)
    refine ⟨ops, hwell, hwithin, fun hsmall e herror => hvalid hsmall e ?_⟩
    rw [FunctionDef.validateCode_congr hsame, herror]
  refine readsBack_serializeSection ?_
  refine .bind (readsBack_serializeVarUInt32 _) fun numFunctionBodies hnum => ?_
  refine .check (parses_throwIf_false ?_) fun _ _ => .last ⟨fun {bytes} hw => ?_⟩
  · rw [hnum]
    simp [afterElements, afterStart, afterExports, afterGlobals, afterMemories, afterTables,
      afterFunctions]
  · refine (parses_serializeFunctionBodies hreadable hw).map fun defs hdefs => ?_
    exact ⟨by rw [hdefs.1]; rfl, fun functionDef hmem => hcongr (hdefs.2 functionDef hmem)⟩

theorem returns_serializeArray {α : Type} (r : InputReader α) :
    Reader.Returns (fun vector => vector.length < maximumFuncLocalBytes) (serializeArray r) := by
  refine .bind fun size => .bind_of (returns_throwIf _ _) fun _ hsize => ?_
  apply (Reader.Returns.length_many r size).mono
  intro vector hlength
  simp only [decide_eq_false_iff_not] at hsize
  omega

/-- The number of types is bounded by the size of the section. -/
theorem readsBack_typeSection_counted (hwithin : Within E (ModuleWithin module)) :
    ReadsBack E (serializeTypeSection .empty) (Output.serializeTypeSection module)
      fun module' => module' = afterTypes module ∧ module.types.length < maximumFuncLocalBytes := by
  have hreturns : Reader.Returns (fun module' : Module =>
      module'.types.length < maximumFuncLocalBytes) (serializeTypeSection .empty) :=
    returns_serializeSection (.bind_of (returns_serializeArray _) fun _ hlt => .pure hlt)
  refine ((readsBack_typeSection hwithin).and_returns hreturns).mono ?_
  rintro module' ⟨rfl, hlt⟩
  exact ⟨rfl, hlt⟩

theorem readsBack_importSection_counted (h : WellFormed module)
    (hwithin : Within E (ModuleWithin module)) :
    ReadsBack E (serializeImportSection (afterTypes module))
      (Output.serializeImportSection module) fun module' => module' = afterImports module ∧
        module.functions.imports.length < maximumSectionElements := by
  have hzero : (afterTypes module).functions.imports.length < maximumSectionElements :=
    Nat.zero_lt_of_lt (by decide : 1 < maximumSectionElements)
  have hreturns : Reader.Returns (fun module' : Module =>
      module'.functions.imports.length < maximumSectionElements)
      (serializeImportSection (afterTypes module)) :=
    returns_serializeSection (.bind fun size =>
      (returns_serializeImports size hzero).mono fun _ hm => hm.2)
  refine ((readsBack_importSection h hwithin).and_returns hreturns).mono ?_
  rintro module' ⟨rfl, hlt⟩
  exact ⟨rfl, hlt⟩

end EachSection

/-! ## The module -/

/-- A section is left out when its list is empty. -/
theorem eq_nil_of_absent {α : Type} {l : List α} (h : decide (l.length > 0) = false) : l = [] := by
  rw [decide_eq_false_iff_not] at h
  exact List.length_eq_zero_iff.1 (by omega)

theorem indexSpace_eq_of_defs_nil {Definition Ty : Type} {space : IndexSpace Definition Ty}
    (h : space.defs = []) : ⟨space.imports, []⟩ = space := by
  rw [← h]

section Absent

variable {module : Module}

/-- Without a type section nothing changes, and so for the others. -/
theorem afterTypes_of_absent (h : module.types = []) : Module.empty = afterTypes module := by
  rw [afterTypes, h]
  rfl

theorem afterImports_of_absent (h : Output.numImports module = 0) :
    afterTypes module = afterImports module := by
  unfold Output.numImports at h
  have hfunctions : module.functions.imports = [] := List.length_eq_zero_iff.1 (by omega)
  have htables : module.tables.imports = [] := List.length_eq_zero_iff.1 (by omega)
  have hmemories : module.memories.imports = [] := List.length_eq_zero_iff.1 (by omega)
  have hglobals : module.globals.imports = [] := List.length_eq_zero_iff.1 (by omega)
  rw [afterImports, hfunctions, htables, hmemories, hglobals]
  rfl

theorem afterFunctions_of_absent (h : module.functions.defs = []) :
    afterImports module = afterFunctions module := by
  rw [afterFunctions, h]
  rfl

theorem afterTables_of_absent (h : module.tables.defs = []) :
    afterFunctions module = afterTables module := by
  rw [afterTables, ← indexSpace_eq_of_defs_nil h]
  rfl

theorem afterMemories_of_absent (h : module.memories.defs = []) :
    afterTables module = afterMemories module := by
  rw [afterMemories, ← indexSpace_eq_of_defs_nil h]
  rfl

theorem afterGlobals_of_absent (h : module.globals.defs = []) :
    afterMemories module = afterGlobals module := by
  rw [afterGlobals, ← indexSpace_eq_of_defs_nil h]
  rfl

theorem afterExports_of_absent (h : module.exports = []) :
    afterGlobals module = afterExports module := by
  rw [afterExports, h]
  rfl

theorem afterStart_of_absent (h : module.startFunctionIndex = none) :
    afterExports module = afterStart module := by
  rw [afterStart, h]
  rfl

theorem afterElements_of_absent (h : module.tableSegments = []) :
    afterStart module = afterElements module := by
  rw [afterElements, h]
  rfl

theorem afterCode_of_absent (h : module.functions.defs = []) :
    afterElements module = afterCode module := by
  have hfunctions : (afterElements module).functions = module.functions := by
    rw [← indexSpace_eq_of_defs_nil h]
    change (⟨module.functions.imports, module.functions.defs.map declaration⟩ :
      IndexSpace FunctionDef Nat) = _
    rw [h]
    rfl
  rw [afterCode, ← hfunctions]

theorem afterData_of_absent (h : module.dataSegments = []) :
    afterCode module = afterData module := by
  rw [afterData, h]
  rfl

/-- All sections together are the module. -/
theorem afterData_eq (h : module.userSections = []) : afterData module = module := by
  obtain ⟨types, functions, tables, memories, globals, exports, data, elements, user, start⟩ :=
    module
  obtain rfl : user = [] := h
  rfl

end Absent

/-- The start section has no count that would be empty. -/
theorem loopFinishes_startSection {module : Module} {bytes rest : Bytes} {Q : ModuleState → Prop}
    (hw : module.startFunctionIndex.elim (.ok []) Output.serializeStartSection = .ok bytes)
    (hrest : Reader.LoopFinishes E serializeNextSection rest (Stage 8 (afterStart module)) Q) :
    Reader.LoopFinishes E serializeNextSection (bytes ++ rest) (Stage 7 (afterExports module)) Q := by
  cases hstart : module.startFunctionIndex with
  | none =>
    rw [hstart] at hw
    obtain rfl := Except.ok.inj hw
    refine .append (fun _ state hstage => ?_) (fun hne => absurd rfl hne) hrest
    exact ⟨UInt8.le_trans hstage.1 (by decide), hstage.2.trans (afterStart_of_absent hstart)⟩
  | some startFunctionIndex =>
    rw [hstart] at hw
    have hpresent : Output.optional true (Output.serializeStartSection startFunctionIndex) =
        .ok bytes := hw
    exact loopFinishes_section (by decide) hpresent (fun h => nomatch h)
      (readsBack_startSection hstart) hrest

/-- **A module is read back** from what the encoder wrote, unless the decoder fails with an error
in `E`. -/
theorem finishes_serializeModule {module : Module} {bytes : Bytes} (h : WellFormed module)
    (hwithin : Within E (ModuleWithin module))
    (hbodies : Counted module → BodiesRead E module module.functions.defs)
    (hw : encode module = .ok bytes) :
    Reader.Finishes E serializeModule bytes fun module' => module' = module ∧ Counted module ∧
      ∀ functionDef ∈ module.functions.defs, BodyRead module functionDef := by
  obtain ⟨magic, rest, hmagic, hrest, rfl⟩ := Writer.concat_cons_eq_ok.1 hw
  obtain ⟨version, rest₀, hversion, hrest₀, rfl⟩ := Writer.concat_cons_eq_ok.1 hrest
  obtain ⟨types, rest₁, htypes, hrest₁, rfl⟩ := Writer.concat_cons_eq_ok.1 hrest₀
  obtain ⟨imports, rest₂, himports, hrest₂, rfl⟩ := Writer.concat_cons_eq_ok.1 hrest₁
  obtain ⟨functions, rest₃, hfunctions, hrest₃, rfl⟩ := Writer.concat_cons_eq_ok.1 hrest₂
  obtain ⟨tables, rest₄, htables, hrest₄, rfl⟩ := Writer.concat_cons_eq_ok.1 hrest₃
  obtain ⟨memories, rest₅, hmemories, hrest₅, rfl⟩ := Writer.concat_cons_eq_ok.1 hrest₄
  obtain ⟨globals, rest₆, hglobals, hrest₆, rfl⟩ := Writer.concat_cons_eq_ok.1 hrest₅
  obtain ⟨exports, rest₇, hexports, hrest₇, rfl⟩ := Writer.concat_cons_eq_ok.1 hrest₆
  obtain ⟨start, rest₈, hstart, hrest₈, rfl⟩ := Writer.concat_cons_eq_ok.1 hrest₇
  obtain ⟨elements, rest₉, helements, hrest₉, rfl⟩ := Writer.concat_cons_eq_ok.1 hrest₈
  obtain ⟨code, rest₁₀, hcode, hrest₁₀, rfl⟩ := Writer.concat_cons_eq_ok.1 hrest₉
  obtain ⟨data, rest₁₁, hdata, hrest₁₁, rfl⟩ := Writer.concat_cons_eq_ok.1 hrest₁₀
  rw [h.userSections] at hrest₁₁
  obtain rfl := Except.ok.inj hrest₁₁
  refine .bind ((readsBack_serializeConstantU32 _ _).parses hmagic) fun _ _ => ?_
  refine .bind ((readsBack_serializeConstantU32 _ _).parses hversion) fun _ _ => ?_
  refine .andThen (P := fun state => state.module = module ∧ Counted module ∧
    ∀ functionDef ∈ module.functions.defs, BodyRead module functionDef)
    (Reader.LoopFinishes.loop (P := Stage 0 .empty) ?_ ⟨UInt8.le_refl 0, rfl⟩)
    fun state hstate => .pure hstate
  refine loopFinishes_section_of (by decide) htypes (fun habsent => ?_)
    (readsBack_typeSection_counted hwithin) fun htypeCount => ?_
  · have hnil : module.types = [] := eq_nil_of_absent habsent
    refine ⟨afterTypes_of_absent hnil, ?_⟩
    rw [hnil]
    decide
  refine loopFinishes_section_of (by decide) himports (fun habsent => ?_)
    (readsBack_importSection_counted h hwithin) fun himportCount => ?_
  · have hnone : Output.numImports module = 0 := Nat.eq_zero_of_not_pos (of_decide_eq_false habsent)
    refine ⟨afterImports_of_absent hnone, ?_⟩
    unfold Output.numImports at hnone
    unfold maximumSectionElements
    omega
  refine loopFinishes_section (by decide) hfunctions
    (fun habsent => afterFunctions_of_absent (eq_nil_of_absent habsent))
    (readsBack_functionSection h hwithin) ?_
  refine loopFinishes_section (by decide) htables
    (fun habsent => afterTables_of_absent (eq_nil_of_absent habsent))
    (readsBack_tableSection h hwithin) ?_
  refine loopFinishes_section (by decide) hmemories
    (fun habsent => afterMemories_of_absent (eq_nil_of_absent habsent))
    (readsBack_memorySection h hwithin) ?_
  refine loopFinishes_section (by decide) hglobals
    (fun habsent => afterGlobals_of_absent (eq_nil_of_absent habsent))
    (readsBack_globalSection hwithin) ?_
  refine loopFinishes_section (by decide) hexports
    (fun habsent => afterExports_of_absent (eq_nil_of_absent habsent))
    (readsBack_exportSection hwithin) ?_
  refine loopFinishes_startSection hstart ?_
  refine loopFinishes_section (by decide) helements
    (fun habsent => afterElements_of_absent (eq_nil_of_absent habsent))
    (readsBack_elementSection hwithin) ?_
  refine loopFinishes_section_of (by decide) hcode (fun habsent => ?_)
    (readsBack_codeSection (hbodies ⟨htypeCount, himportCount⟩)) fun hread => ?_
  · have hdefs : module.functions.defs = [] := eq_nil_of_absent habsent
    refine ⟨afterCode_of_absent hdefs, fun functionDef hmem => ?_⟩
    rw [hdefs] at hmem
    exact absurd hmem List.not_mem_nil
  refine loopFinishes_section (by decide) hdata
    (fun habsent => afterData_of_absent (eq_nil_of_absent habsent))
    (readsBack_dataSection hwithin) ?_
  refine .nil fun state hstage => ⟨?_, ⟨htypeCount, himportCount⟩, hread⟩
  rw [hstage.2, afterData_eq h.userSections]

/-- Decoding what was encoded checks the counts, the bodies and the definitions of the module, in
this order, and gives it back, or fails with an error in `E`. -/
theorem decode_encode_counted {module : Module} {bytes : Bytes} (h : WellFormed module)
    (hwithin : Within E (ModuleWithin module))
    (hbodies : Counted module → BodiesRead E module module.functions.defs)
    (hw : encode module = .ok bytes) :
    (decode bytes = (validateDefinitions module).map (fun _ => module) ∧ Counted module ∧
      ∀ functionDef ∈ module.functions.defs, BodyRead module functionDef) ∨
        ∃ e, decode bytes = .error e ∧ E e := by
  unfold decode
  rcases finishes_serializeModule h hwithin hbodies hw with
    ⟨read, hread, rfl, hcounted⟩ | ⟨e, herror, he⟩
  · refine .inl ⟨?_, hcounted⟩
    rw [hread]
    rfl
  · refine .inr ⟨e, ?_, he⟩
    rw [herror]
    rfl

/-- Decoding what was encoded checks the definitions of the module and gives it back, or fails with
an error in `E`. -/
theorem decode_encode {module : Module} {bytes : Bytes} (h : WellFormed module)
    (hwithin : Within E (ModuleWithin module))
    (hbodies : BodiesReadable E module module.functions.defs)
    (hw : encode module = .ok bytes) :
    (decode bytes = (validateDefinitions module).map (fun _ => module) ∧
      ∀ functionDef ∈ module.functions.defs, Accepted module functionDef) ∨
        ∃ e, decode bytes = .error e ∧ E e := by
  rcases decode_encode_counted h hwithin (fun _ => hbodies.bodiesRead) hw with
    ⟨hdecode, -, hread⟩ | herror
  · exact .inl ⟨hdecode, fun functionDef hmem => (hread functionDef hmem).1⟩
  · exact .inr herror

end FractalWasm.WASM
