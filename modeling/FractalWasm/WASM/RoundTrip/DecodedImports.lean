import FractalWasm.WASM.RoundTrip.DecodedBodies

/-!
# Decoded sections written again

What the section loop reads from a section can be written again, in a section no larger than the
one it was read from. Imports come back grouped by kind.

**What a section leaves** (`FitsSection`, `FitsArray`): room for the section that is written in its
place.

**Imports** (`Written`): the import section is the one whose entries change their order. The
invariant of its loop counts each kind by itself, and writing the four lists takes no more bytes
than reading the entries did.
-/

namespace FractalWasm.WASM

open Codec IR Serialization

/-! ## What a section leaves -/

/-- The contents of a section whose size can be written down. -/
def FitsSection (contents : OutputWriter) : Prop :=
  ∃ bytes, contents = .ok bytes ∧ bytes.length < 2 ^ 32

theorem FitsSection.of_reencodes {α : Type} {r : InputReader α} {enc : α → OutputWriter} {a : α}
    {bytes rest : Bytes} (hr : Reencodes [] r fun a => [enc a])
    (hread : r bytes = .ok (a, rest)) (hlt : bytes.length < 2 ^ 32) : FitsSection (enc a) := by
  obtain ⟨out, hout, hlen⟩ := hr.fits hread rfl
  rw [Writer.concat_singleton] at hout
  refine ⟨out, hout, ?_⟩
  rw [List.length_nil] at hlen
  omega

/-- The body of a section is read from fewer bytes than the format can count. -/
theorem returns_section {P : Module → Prop} {sectionBody : InputReader Module}
    (h : ∀ {sectionBytes rest : Bytes} {module : Module}, sectionBytes.length < 2 ^ 32 →
      sectionBody sectionBytes = .ok (module, rest) → P module) :
    Reader.Returns P (serializeSection sectionBody) := by
  refine .bind fun _ => .bind_of returns_serializeVarUInt32 fun numSectionBytes hnum => ?_
  have hlength : Reader.Returns (fun bytes : Bytes => bytes.length = numSectionBytes)
      (advance numSectionBytes) := ⟨fun hread => (advance_eq_ok.1 hread).2⟩
  refine .bind_of hlength fun sectionBytes hlen => ⟨fun {bytes rest module} hrun => ?_⟩
  obtain ⟨⟨read, left⟩, t, hlift, hrun⟩ := bind_eq_ok.1 hrun
  obtain ⟨hbody, rfl⟩ := lift_eq_ok.1 hlift
  obtain ⟨u, t', -, hrun⟩ := bind_eq_ok.1 hrun
  obtain ⟨rfl, -⟩ := pure_eq_ok.1 hrun
  exact h (hlen ▸ hnum) hbody

/-- An array of elements with the property `P` that fits its section. -/
structure FitsArray {α : Type} (enc : α → OutputWriter) (P : α → Prop) (vector : List α) : Prop where
  length : vector.length < maximumFuncLocalBytes
  elements : ∀ a ∈ vector, P a
  contents : FitsSection (Output.serializeArray enc vector)

theorem FitsArray.nil {α : Type} (enc : α → OutputWriter) (P : α → Prop) :
    FitsArray enc P [] where
  length := Nat.zero_lt_of_lt (by decide : 1 < maximumFuncLocalBytes)
  elements := fun _ hmem => absurd hmem List.not_mem_nil
  contents := by
    have hlt : (Serialization.Output.varUIntBytes 5 0 ++ []).length < 2 ^ 32 := by decide
    refine ⟨_, ?_, hlt⟩
    exact Writer.concat_cons_eq_ok.2 ⟨_, [], serializeVarUInt32_eq (Nat.two_pow_pos 32), rfl, rfl⟩

theorem returns_arraySection {α : Type} {r : InputReader α} {enc : α → OutputWriter} {P : α → Prop}
    {put : List α → Module} (hr : Reencodes [] r fun a => [enc a]) (hP : Reader.Returns P r) :
    Reader.Returns (fun module => ∃ vector, module = put vector ∧ FitsArray enc P vector)
      (serializeSection (serializeArray r >>= fun as => pure (put as))) := by
  apply returns_section
  intro sectionBytes rest module hlt hread
  obtain ⟨vector, t, hvector, hpure⟩ := bind_eq_ok.1 hread
  obtain ⟨rfl, rfl⟩ := pure_eq_ok.1 hpure
  have helements : Reader.Returns (fun vector => ∀ a ∈ vector, P a) (serializeArray r) :=
    .bind fun size => .bind fun _ => .many hP size
  refine ⟨vector, rfl, (returns_serializeArray r).holds hvector, helements.holds hvector, ?_⟩
  exact .of_reencodes (reencodes_serializeArray hr) hvector hlt

/-! ## Imports -/

/-- The imports of a module, by kind. -/
structure Imports where
  functions : List (Import Nat)
  tables : List (Import TableType)
  memories : List (Import MemoryType)
  globals : List (Import GlobalType)

namespace Imports

def withImports (imports : Imports) (module : Module) : Module :=
  { module with
    functions := { module.functions with imports := imports.functions }
    tables := { module.tables with imports := imports.tables }
    memories := { module.memories with imports := imports.memories }
    globals := { module.globals with imports := imports.globals } }

def count (imports : Imports) : Nat :=
  imports.functions.length + imports.tables.length + imports.memories.length +
    imports.globals.length

/-- Imports the decoder accepts, which take `numBytes` bytes when they are written. -/
structure Written (imports : Imports) (numBytes : Nat) : Prop where
  functionNames : ∀ import_ ∈ imports.functions, ValidNames import_ ∧ ShortNames import_
  tableNames : ∀ import_ ∈ imports.tables, ValidNames import_ ∧ ShortNames import_
  memoryNames : ∀ import_ ∈ imports.memories, ValidNames import_ ∧ ShortNames import_
  globalNames : ∀ import_ ∈ imports.globals, ValidNames import_ ∧ ShortNames import_
  tablesNotShared : ∀ import_ ∈ imports.tables, import_.type.isShared = false
  memoriesNotShared : ∀ import_ ∈ imports.memories, import_.type.isShared = false
  written : ∃ functions tables memories globals : Bytes,
    Writer.concat (imports.functions.map
      (Output.serializeImport .function Output.serializeVarUInt32)) = .ok functions ∧
    Writer.concat (imports.tables.map
      (Output.serializeImport .table Output.serializeTableType)) = .ok tables ∧
    Writer.concat (imports.memories.map
      (Output.serializeImport .memory Output.serializeMemoryType)) = .ok memories ∧
    Writer.concat (imports.globals.map
      (Output.serializeImport .global Output.serializeGlobalType)) = .ok globals ∧
    functions.length + tables.length + memories.length + globals.length = numBytes

end Imports

theorem returns_serializeString :
    Reader.Returns (fun name : Bytes => name.length < maximumFuncLocalBytes) serializeString := by
  refine .bind fun size => ?_
  have hlength : Reader.Returns (fun bytes : Bytes => bytes.length = size) (advance size) :=
    ⟨fun hread => (advance_eq_ok.1 hread).2⟩
  refine .bind_of hlength fun inputBytes hlen => ?_
  refine .bind_of (returns_throwIf _ _) fun _ hsize => .pure ?_
  simp only [decide_eq_false_iff_not] at hsize
  omega

theorem concat_map_append_singleton {α : Type} {enc : α → OutputWriter} {as : List α} {a : α}
    {out last : Bytes} (has : Writer.concat (as.map enc) = .ok out) (ha : enc a = .ok last) :
    Writer.concat ((as ++ [a]).map enc) = .ok (out ++ last) := by
  rw [List.map_append, List.map_singleton]
  refine Writer.concat_append has ?_
  rw [Writer.concat_singleton, ha]

theorem forall_mem_append_singleton {α : Type} {P : α → Prop} {as : List α} {a : α}
    (has : ∀ b ∈ as, P b) (ha : P a) : ∀ b ∈ as ++ [a], P b := by
  intro b hmem
  rcases List.mem_append.1 hmem with hmem | hmem
  · exact has b hmem
  · rw [List.mem_singleton.1 hmem]
    exact ha

/-- The names in front of an import, and what they take when they are written. -/
theorem of_importNames {next : Bytes → Bytes → ObjectKind → InputReader Module} {module : Module}
    {bytes rest : Bytes}
    (h : (do
        let moduleName ← serializeString
        let exportName ← serializeString
        throwIfNotValidUTF8 moduleName
        throwIfNotValidUTF8 exportName
        let kind ← serializeObjectKind
        next moduleName exportName kind) bytes = .ok (module, rest)) :
    ∃ moduleName exportName : Bytes, ∃ kind : ObjectKind, ∃ t names : Bytes,
      next moduleName exportName kind t = .ok (module, rest) ∧
      (∀ {Ty : Type} (type : Ty), ValidNames (⟨type, moduleName, exportName⟩ : Import Ty) ∧
        ShortNames (⟨type, moduleName, exportName⟩ : Import Ty)) ∧
      Writer.concat [Output.serializeString moduleName, Output.serializeString exportName,
        Output.serializeObjectKind kind] = .ok names ∧ names.length + t.length ≤ bytes.length := by
  obtain ⟨moduleName, t₁, hmodule, h⟩ := bind_eq_ok.1 h
  obtain ⟨exportName, t₂, hexport, h⟩ := bind_eq_ok.1 h
  obtain ⟨u, t₃, hthrow, h⟩ := bind_eq_ok.1 h
  have hvalid := (returns_throwIfNotValidUTF8 moduleName).holds hthrow
  obtain ⟨-, rfl⟩ := throwIf_eq_ok.1 hthrow
  obtain ⟨u, t₃, hthrow', h⟩ := bind_eq_ok.1 h
  have hvalid' := (returns_throwIfNotValidUTF8 exportName).holds hthrow'
  obtain ⟨-, rfl⟩ := throwIf_eq_ok.1 hthrow'
  obtain ⟨kind, t₃, hkind, h⟩ := bind_eq_ok.1 h
  obtain ⟨out₁, hout₁, hlen₁⟩ := reencodes_serializeString.fits hmodule rfl
  obtain ⟨out₂, hout₂, hlen₂⟩ := reencodes_serializeString.fits hexport rfl
  obtain ⟨out₃, hout₃, hlen₃⟩ := reencodes_serializeObjectKind.fits hkind rfl
  refine ⟨moduleName, exportName, kind, t₃, out₁ ++ (out₂ ++ out₃), h, ?_, ?_, ?_⟩
  · intro Ty type
    refine ⟨⟨hvalid, hvalid'⟩, ?_⟩
    exact ⟨returns_serializeString.holds hmodule, returns_serializeString.holds hexport⟩
  · exact Writer.concat_append hout₁ (Writer.concat_append hout₂ hout₃)
  · simp only [List.length_nil, List.length_append] at hlen₁ hlen₂ hlen₃ ⊢
    omega

/-- The type of an import behind its names. -/
theorem serializeImport_of_names {Ty : Type} {kind : ObjectKind} {enc : Ty → OutputWriter}
    {type : Ty} {moduleName exportName names out : Bytes}
    (hnames : Writer.concat [Output.serializeString moduleName, Output.serializeString exportName,
      Output.serializeObjectKind kind] = .ok names)
    (htype : Writer.concat [enc type] = .ok out) :
    Output.serializeImport kind enc ⟨type, moduleName, exportName⟩ = .ok (names ++ out) :=
  Writer.concat_append hnames htype

theorem returns_tableNotShared :
    Reader.Returns (fun type : TableType => type.isShared = false) serializeTableType :=
  .bind fun _ => .bind fun _ => .bind fun _ => .pure rfl

theorem returns_memoryNotShared :
    Reader.Returns (fun type : MemoryType => type.isShared = false) serializeMemoryType :=
  .bind fun _ => .bind fun _ => .pure rfl

namespace Imports

section Append

variable {imports : Imports} {numBytes : Nat} {last : Bytes} (h : imports.Written numBytes)

include h

/-- One more import is written behind those of its kind; so for the other kinds. -/
theorem Written.appendFunction {import_ : Import Nat}
    (hnames : ValidNames import_ ∧ ShortNames import_)
    (hwritten : Output.serializeImport .function Output.serializeVarUInt32 import_ = .ok last) :
    Written { imports with functions := imports.functions ++ [import_] }
      (numBytes + last.length) := by
  obtain ⟨functions, tables, memories, globals, hfunctions, htables, hmemories, hglobals, htotal⟩ :=
    h.written
  have htotal' : (functions ++ last).length + tables.length + memories.length + globals.length =
      numBytes + last.length := by
    rw [List.length_append]
    omega
  exact { h with
    functionNames := forall_mem_append_singleton h.functionNames hnames
    written := ⟨_, tables, memories, globals, concat_map_append_singleton hfunctions hwritten,
      htables, hmemories, hglobals, htotal'⟩ }

theorem Written.appendTable {import_ : Import TableType}
    (hnames : ValidNames import_ ∧ ShortNames import_)
    (hnotShared : import_.type.isShared = false)
    (hwritten : Output.serializeImport .table Output.serializeTableType import_ = .ok last) :
    Written { imports with tables := imports.tables ++ [import_] } (numBytes + last.length) := by
  obtain ⟨functions, tables, memories, globals, hfunctions, htables, hmemories, hglobals, htotal⟩ :=
    h.written
  have htotal' : functions.length + (tables ++ last).length + memories.length + globals.length =
      numBytes + last.length := by
    rw [List.length_append]
    omega
  exact { h with
    tableNames := forall_mem_append_singleton h.tableNames hnames
    tablesNotShared := forall_mem_append_singleton h.tablesNotShared hnotShared
    written := ⟨functions, _, memories, globals, hfunctions,
      concat_map_append_singleton htables hwritten, hmemories, hglobals, htotal'⟩ }

theorem Written.appendMemory {import_ : Import MemoryType}
    (hnames : ValidNames import_ ∧ ShortNames import_)
    (hnotShared : import_.type.isShared = false)
    (hwritten : Output.serializeImport .memory Output.serializeMemoryType import_ = .ok last) :
    Written { imports with memories := imports.memories ++ [import_] } (numBytes + last.length) := by
  obtain ⟨functions, tables, memories, globals, hfunctions, htables, hmemories, hglobals, htotal⟩ :=
    h.written
  have htotal' : functions.length + tables.length + (memories ++ last).length + globals.length =
      numBytes + last.length := by
    rw [List.length_append]
    omega
  exact { h with
    memoryNames := forall_mem_append_singleton h.memoryNames hnames
    memoriesNotShared := forall_mem_append_singleton h.memoriesNotShared hnotShared
    written := ⟨functions, tables, _, globals, hfunctions, htables,
      concat_map_append_singleton hmemories hwritten, hglobals, htotal'⟩ }

theorem Written.appendGlobal {import_ : Import GlobalType}
    (hnames : ValidNames import_ ∧ ShortNames import_)
    (hwritten : Output.serializeImport .global Output.serializeGlobalType import_ = .ok last) :
    Written { imports with globals := imports.globals ++ [import_] } (numBytes + last.length) := by
  obtain ⟨functions, tables, memories, globals, hfunctions, htables, hmemories, hglobals, htotal⟩ :=
    h.written
  have htotal' : functions.length + tables.length + memories.length + (globals ++ last).length =
      numBytes + last.length := by
    rw [List.length_append]
    omega
  exact { h with
    globalNames := forall_mem_append_singleton h.globalNames hnames
    written := ⟨functions, tables, memories, _, hfunctions, htables, hmemories,
      concat_map_append_singleton hglobals hwritten, htotal'⟩ }

end Append

/-- Reading one import appends it to the imports of its kind. -/
theorem Written.step {imports : Imports} {numBytes : Nat} (h : imports.Written numBytes)
    {module module' : Module} {bytes rest : Bytes}
    (hread : serializeImport (imports.withImports module) bytes = .ok (module', rest)) :
    ∃ imports' : Imports, ∃ numBytes', module' = imports'.withImports module ∧
      imports'.Written numBytes' ∧ imports'.count = imports.count + 1 ∧
      numBytes' + rest.length ≤ numBytes + bytes.length := by
  obtain ⟨moduleName, exportName, kind, t, names, hnext, hvalid, hnames, hlen⟩ :=
    of_importNames hread
  cases kind with
  | function =>
    obtain ⟨type, t', htype, hnext⟩ := bind_eq_ok.1 hnext
    obtain ⟨u, t'', hcheck, hnext⟩ := bind_eq_ok.1 hnext
    obtain ⟨-, rfl⟩ := throwIf_eq_ok.1 hcheck
    obtain ⟨u, t'', hcheck', hnext⟩ := bind_eq_ok.1 hnext
    obtain ⟨-, rfl⟩ := throwIf_eq_ok.1 hcheck'
    obtain ⟨rfl, rfl⟩ := pure_eq_ok.1 hnext
    obtain ⟨out, hout, houtlen⟩ := reencodes_serializeVarUInt32.fits htype rfl
    have himport := serializeImport_of_names hnames hout
    refine ⟨_, _, rfl, h.appendFunction (hvalid type) himport, ?_, ?_⟩
    · simp only [count, List.length_append, List.length_singleton]
      omega
    · simp only [List.length_nil, List.length_append] at houtlen ⊢
      omega
  | table =>
    obtain ⟨type, t', htype, hnext⟩ := bind_eq_ok.1 hnext
    obtain ⟨u, t'', hcheck, hnext⟩ := bind_eq_ok.1 hnext
    obtain ⟨-, rfl⟩ := throwIf_eq_ok.1 hcheck
    obtain ⟨rfl, rfl⟩ := pure_eq_ok.1 hnext
    obtain ⟨out, hout, houtlen⟩ := reencodes_serializeTableType.fits htype rfl
    have himport := serializeImport_of_names hnames hout
    refine ⟨_, _, rfl, h.appendTable (hvalid type) (returns_tableNotShared.holds htype) himport, ?_,
      ?_⟩
    · simp only [count, List.length_append, List.length_singleton]
      omega
    · simp only [List.length_nil, List.length_append] at houtlen ⊢
      omega
  | memory =>
    obtain ⟨type, t', htype, hnext⟩ := bind_eq_ok.1 hnext
    obtain ⟨u, t'', hcheck, hnext⟩ := bind_eq_ok.1 hnext
    obtain ⟨-, rfl⟩ := throwIf_eq_ok.1 hcheck
    obtain ⟨rfl, rfl⟩ := pure_eq_ok.1 hnext
    obtain ⟨out, hout, houtlen⟩ := reencodes_serializeMemoryType.fits htype rfl
    have himport := serializeImport_of_names hnames hout
    refine ⟨_, _, rfl, h.appendMemory (hvalid type) (returns_memoryNotShared.holds htype) himport, ?_,
      ?_⟩
    · simp only [count, List.length_append, List.length_singleton]
      omega
    · simp only [List.length_nil, List.length_append] at houtlen ⊢
      omega
  | global =>
    obtain ⟨type, t', htype, hnext⟩ := bind_eq_ok.1 hnext
    obtain ⟨u, t'', hcheck, hnext⟩ := bind_eq_ok.1 hnext
    obtain ⟨-, rfl⟩ := throwIf_eq_ok.1 hcheck
    obtain ⟨rfl, rfl⟩ := pure_eq_ok.1 hnext
    obtain ⟨out, hout, houtlen⟩ := reencodes_serializeGlobalType.fits htype rfl
    have himport := serializeImport_of_names hnames hout
    refine ⟨_, _, rfl, h.appendGlobal (hvalid type) himport, ?_, ?_⟩
    · simp only [count, List.length_append, List.length_singleton]
      omega
    · simp only [List.length_nil, List.length_append] at houtlen ⊢
      omega
  | module => exact (throwFatal_eq_ok.1 hnext).elim
  | invalid _ _ => exact (throwFatal_eq_ok.1 hnext).elim

/-- Reading imports appends them, each to those of its kind. -/
theorem Written.run {size : Nat} {imports : Imports} {numBytes : Nat} (h : imports.Written numBytes)
    {module module' : Module} {bytes rest : Bytes}
    (hread : serializeImports size (imports.withImports module) bytes = .ok (module', rest)) :
    ∃ imports' : Imports, ∃ numBytes', module' = imports'.withImports module ∧
      imports'.Written numBytes' ∧ imports'.count = imports.count + size ∧
      numBytes' + rest.length ≤ numBytes + bytes.length := by
  induction size generalizing imports numBytes bytes with
  | zero =>
    obtain ⟨rfl, rfl⟩ := pure_eq_ok.1 hread
    exact ⟨imports, numBytes, rfl, h, rfl, Nat.le_refl _⟩
  | succ size ih =>
    obtain ⟨read, t, hstep, hread⟩ := bind_eq_ok.1 hread
    obtain ⟨imports', numBytes', rfl, h', hcount, hlen⟩ := h.step hstep
    obtain ⟨imports'', numBytes'', hmodule, h'', hcount', hlen'⟩ := ih h' hread
    exact ⟨imports'', numBytes'', hmodule, h'', by omega, by omega⟩

def empty : Imports := ⟨[], [], [], []⟩

theorem written_empty : Imports.empty.Written 0 where
  functionNames := fun _ hmem => absurd hmem List.not_mem_nil
  tableNames := fun _ hmem => absurd hmem List.not_mem_nil
  memoryNames := fun _ hmem => absurd hmem List.not_mem_nil
  globalNames := fun _ hmem => absurd hmem List.not_mem_nil
  tablesNotShared := fun _ hmem => absurd hmem List.not_mem_nil
  memoriesNotShared := fun _ hmem => absurd hmem List.not_mem_nil
  written := ⟨[], [], [], [], rfl, rfl, rfl, rfl, rfl⟩

/-- The imports of a module, which the encoder writes one kind after the other. -/
def ofModule (module : Module) : Imports :=
  ⟨module.functions.imports, module.tables.imports, module.memories.imports,
    module.globals.imports⟩

theorem withImports_ofModule (module : Module) : (ofModule module).withImports module = module :=
  rfl

/-- The contents of the import section. -/
def contents (imports : Imports) : OutputWriter :=
  Writer.concat [Serialization.Output.serializeVarUInt32 imports.count,
    Writer.concat (imports.functions.map
      (Output.serializeImport .function Serialization.Output.serializeVarUInt32)),
    Writer.concat (imports.tables.map (Output.serializeImport .table Output.serializeTableType)),
    Writer.concat (imports.memories.map
      (Output.serializeImport .memory Output.serializeMemoryType)),
    Writer.concat (imports.globals.map
      (Output.serializeImport .global Output.serializeGlobalType))]

/-- Imports that fit the import section. -/
structure Fits (imports : Imports) : Prop where
  written : ∃ numBytes, imports.Written numBytes
  contents : FitsSection imports.contents

theorem fits_empty : Imports.empty.Fits where
  written := ⟨0, written_empty⟩
  contents := by
    have hlt : (Serialization.Output.varUIntBytes 5 0 ++ []).length < 2 ^ 32 := by decide
    refine ⟨_, ?_, hlt⟩
    exact Writer.concat_cons_eq_ok.2
      ⟨_, [], serializeVarUInt32_eq (Nat.two_pow_pos 32), rfl, rfl⟩

/-- The import section of a module that had none. -/
theorem returns_serializeImportSection {module : Module} (h : ofModule module = empty) :
    Reader.Returns (fun module' => ∃ imports : Imports, module' = imports.withImports module ∧
      imports.Fits) (serializeImportSection module) := by
  apply returns_section
  intro sectionBytes rest module' hlt hread
  obtain ⟨size, t, hsize, hread⟩ := bind_eq_ok.1 hread
  rw [← withImports_ofModule module, h] at hread
  obtain ⟨imports, numBytes, hmodule, hwritten, hcount, hlen⟩ := written_empty.run hread
  obtain ⟨num, hnum, hnumlen⟩ := reencodes_serializeVarUInt32.fits hsize rfl
  rw [Writer.concat_singleton] at hnum
  obtain rfl : imports.count = size := by
    rw [hcount]
    exact Nat.zero_add size
  obtain ⟨functions, tables, memories, globals, hf, ht, hm, hg, htotal⟩ := hwritten.written
  refine ⟨imports, hmodule, ⟨numBytes, hwritten⟩,
    num ++ (functions ++ (tables ++ (memories ++ (globals ++ [])))), ?_, ?_⟩
  · refine Writer.concat_cons_eq_ok.2 ⟨num, _, hnum, ?_, rfl⟩
    refine Writer.concat_cons_eq_ok.2 ⟨functions, _, hf, ?_, rfl⟩
    refine Writer.concat_cons_eq_ok.2 ⟨tables, _, ht, ?_, rfl⟩
    refine Writer.concat_cons_eq_ok.2 ⟨memories, _, hm, ?_, rfl⟩
    exact Writer.concat_cons_eq_ok.2 ⟨globals, _, hg, rfl, rfl⟩
  · simp only [List.length_append, List.length_nil] at hnumlen ⊢
    omega

end Imports

end FractalWasm.WASM
