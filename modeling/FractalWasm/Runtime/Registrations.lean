import FractalWasm.Runtime.Linker

/-!
# Registrations

The maps intrinsics are found in, for objects of every kind. A key is put together from the module's
name, the export's name and the printed type without quoting any of them, so that an import may
spell its names in any way it likes. What keeps two keys apart is that no registered name holds a
dot: the first dot of a key ends the module's name, the type check settles the rest.

**Keys** (`decoratedName`): registered names can be told apart by their keys, printed types included
(`getDecoratedName_inj`).

**Resolution** (`resolve_library`): what is found for an import is the registration of its module,
its name and its type, or nothing, for imports spelled in any way.
-/

namespace FractalWasm

open Codec IR

/-! ## Types -/

namespace IR

def GlobalType.asString (globalType : GlobalType) : Bytes :=
  if globalType.isMutable then str "global " ++ globalType.valueType.asString
  else str "immutable " ++ globalType.valueType.asString

def SizeConstraints.isSubset (super sub : SizeConstraints) : Bool :=
  sub.min ≥ super.min && sub.max ≤ super.max

def TableType.isSubset (super sub : TableType) : Bool :=
  super.elementType = sub.elementType && super.isShared = sub.isShared &&
    super.size.isSubset sub.size

def MemoryType.isSubset (super sub : MemoryType) : Bool :=
  super.isShared = sub.isShared && super.size.isSubset sub.size

end IR

namespace ObjectType

def kind : ObjectType → ObjectKind
  | function _ => .function
  | table _ => .table
  | memory _ => .memory
  | global _ => .global

/-- Tables and memories are printed without their sizes. -/
def asString : ObjectType → Bytes
  | function type => str "func " ++ type.asString
  | table _ => str "table"
  | memory _ => str "memory"
  | global type => type.asString

/-- `isA` of an object with the type `object` -/
def isA (object type : ObjectType) : Bool :=
  match type, object with
  | function type, function object => type = object
  | global type, global object => type = object
  | table type, table object => type.isSubset object
  | memory type, memory object => type.isSubset object
  | _, _ => false

/-- Objects that pass for one another are printed alike. -/
theorem asString_eq_of_isA {object type : ObjectType} (h : object.isA type = true) :
    object.asString = type.asString := by
  cases type <;> cases object <;> simp_all [isA, asString]

/-- Functions and globals pass for their own type only. -/
theorem eq_of_isA {object type : ObjectType} (h : object.isA type = true)
    (hkind : object.kind = .function ∨ object.kind = .global) : object = type := by
  cases type <;> cases object <;> simp_all [isA, kind]

theorem isA_function (type : FunctionType) (object : ObjectType) :
    object.isA (function type) = true ↔ object = function type := by
  cases object <;> simp [isA, eq_comm]

end ObjectType

namespace IR

/-! ## Printed types -/

/-- The types `asString` has a name for. -/
def ValueType.named : List ValueType := [.any, .i32, .i64, .f32, .f64]

def ResultType.named : List ResultType := [.none, .i32, .i64, .f32, .f64]

def FunctionType.Named (functionType : FunctionType) : Prop :=
  (∀ t ∈ functionType.parameters, t ∈ ValueType.named) ∧ functionType.ret ∈ ResultType.named

theorem ValueType.asString_inj {t u : ValueType} (ht : t ∈ named) (hu : u ∈ named)
    (h : t.asString = u.asString) : t = u := by
  have hall : ∀ t ∈ named, ∀ u ∈ named, t.asString = u.asString → t = u := by decide +kernel
  exact hall t ht u hu h

theorem ResultType.asString_inj {t u : ResultType} (ht : t ∈ named) (hu : u ∈ named)
    (h : t.asString = u.asString) : t = u := by
  have hall : ∀ t ∈ named, ∀ u ∈ named, t.asString = u.asString → t = u := by decide +kernel
  exact hall t ht u hu h

/-- A name has three letters, the first of which does not close a list. -/
theorem ValueType.asString_eq {t : ValueType} (ht : t ∈ named) :
    ∃ a b c, t.asString = [a, b, c] ∧ a ≠ 41 := by
  have hall : ∀ t ∈ named, t.asString.length = 3 ∧ t.asString.head? ≠ some 41 := by decide +kernel
  obtain ⟨hlen, hhead⟩ := hall t ht
  obtain ⟨a, b, c, heq⟩ := List.length_eq_three.1 hlen
  exact ⟨a, b, c, heq, fun ha => hhead (by rw [heq, ha]; rfl)⟩

/-- The names of a list, separated by commas, up to the closing parenthesis. -/
theorem intercalate_inj {ts us : List ValueType} (hts : ∀ t ∈ ts, t ∈ ValueType.named)
    (hus : ∀ u ∈ us, u ∈ ValueType.named) {rest rest' : Bytes}
    (h : (str ",").intercalate (ts.map ValueType.asString) ++ 41 :: rest =
      (str ",").intercalate (us.map ValueType.asString) ++ 41 :: rest') :
    ts = us ∧ rest = rest' := by
  induction ts generalizing us with
  | nil =>
    cases us with
    | nil => exact ⟨rfl, by simpa using h⟩
    | cons u us =>
      obtain ⟨a, b, c, hu, ha⟩ := ValueType.asString_eq (hus u List.mem_cons_self)
      cases us <;> simp [hu, eq_comm, ha] at h
  | cons t ts ih =>
    have ht := hts t List.mem_cons_self
    obtain ⟨a, b, c, hat, ha⟩ := ValueType.asString_eq ht
    cases us with
    | nil => cases ts <;> simp [hat, ha] at h
    | cons u us =>
      have hu := hus u List.mem_cons_self
      obtain ⟨a', b', c', hau, ha'⟩ := ValueType.asString_eq hu
      have hts' : ∀ t ∈ ts, t ∈ ValueType.named := fun t ht => hts t (List.mem_cons_of_mem _ ht)
      have hus' : ∀ u ∈ us, u ∈ ValueType.named := fun u hu => hus u (List.mem_cons_of_mem _ hu)
      cases ts with
      | nil =>
        cases us with
        | nil =>
          simp only [List.map_cons, List.map_nil, List.intercalate_singleton, hat, hau,
            List.cons_append, List.nil_append, List.cons.injEq, true_and] at h
          obtain ⟨rfl, rfl, rfl, rfl⟩ := h
          exact ⟨by rw [ValueType.asString_inj ht hu (hat.trans hau.symm)], rfl⟩
        | cons u' us => simp [hat, hau, str] at h
      | cons t' ts =>
        cases us with
        | nil => simp [hat, hau, str] at h
        | cons u' us =>
          simp only [List.map_cons, List.intercalate_cons_cons, hat, hau, List.cons_append,
            List.nil_append, List.append_assoc, List.cons.injEq] at h
          obtain ⟨rfl, rfl, rfl, h⟩ := h
          obtain ⟨htail, rfl⟩ := ih hts' hus' (by simpa using List.append_cancel_left h)
          exact ⟨by rw [ValueType.asString_inj ht hu (hat.trans hau.symm), htail], rfl⟩

theorem notMem_intercalate {separator : Bytes} {byte : UInt8} {parts : List Bytes}
    (hseparator : byte ∉ separator) (hparts : ∀ part ∈ parts, byte ∉ part) :
    byte ∉ separator.intercalate parts := by
  induction parts with
  | nil => exact List.not_mem_nil
  | cons part parts ih =>
    rw [List.forall_mem_cons] at hparts
    cases parts with
    | nil => simpa using hparts.1
    | cons next parts =>
      rw [List.intercalate_cons_cons, List.mem_append, List.mem_append, not_or, not_or]
      exact ⟨⟨hparts.1, hseparator⟩, ih hparts.2⟩

/-- There is no colon in a printed type. -/
theorem FunctionType.colon_notMem_asString {t : FunctionType} (ht : t.Named) :
    (58 : UInt8) ∉ t.asString := by
  have hvalue : ∀ t ∈ ValueType.named, (58 : UInt8) ∉ t.asString := by decide +kernel
  have hresult : ∀ t ∈ ResultType.named, (58 : UInt8) ∉ t.asString := by decide +kernel
  have hparameters : ∀ part ∈ t.parameters.map ValueType.asString, (58 : UInt8) ∉ part := by
    intro part hpart
    obtain ⟨u, hu, rfl⟩ := List.mem_map.1 hpart
    exact hvalue u (ht.1 u hu)
  simp only [asString, tupleAsString, List.mem_append, not_or]
  exact ⟨⟨⟨⟨by decide, notMem_intercalate (by decide) hparameters⟩, by decide⟩, by decide⟩,
    hresult _ ht.2⟩

/-- A printed function type says which type it is. -/
theorem FunctionType.asString_inj {t u : FunctionType} (ht : t.Named) (hu : u.Named)
    (h : t.asString = u.asString) : t = u := by
  obtain ⟨ret, parameters⟩ := t
  obtain ⟨ret', parameters'⟩ := u
  simp only [asString, tupleAsString, List.append_assoc] at h
  obtain ⟨hparameters, harrow⟩ := intercalate_inj ht.1 hu.1 (List.append_cancel_left h)
  have hret : ret.asString = ret'.asString := (List.append_right_inj (str "->")).1 harrow
  exact congrArg₂ FunctionType.mk (ResultType.asString_inj ht.2 hu.2 hret) hparameters

end IR

/-! ## The maps -/

namespace Intrinsics

/-- An object with the names it is registered under. The registering macros print preprocessor
tokens, in which there is no dot. -/
structure Registration where
  moduleName : Bytes
  exportName : Bytes
  type : ObjectType
  moduleDotless : (46 : UInt8) ∉ moduleName
  exportDotless : (46 : UInt8) ∉ exportName

namespace Registration

def name (r : Registration) : Bytes := qualifiedName r.moduleName r.exportName

/-- `getDecoratedName` -/
def decoratedName (name : Bytes) (type : ObjectType) : Bytes := name ++ str " : " ++ type.asString

end Registration

open Registration

/-- The maps of `Singleton`, one for each kind of object; the newest entry of a key counts. -/
abbrev Singleton := ObjectKind → List (Bytes × Registration)

namespace Singleton

def register (singleton : Singleton) (r : Registration) : Singleton := fun kind =>
  if kind = r.type.kind then (decoratedName r.name r.type, r) :: singleton kind else singleton kind

/-- The maps after the constructors of all registered objects have run. -/
def ofRegistrations (rs : List Registration) : Singleton := rs.foldl register fun _ => []

/-- `Intrinsics::find` -/
def find (singleton : Singleton) (name : Bytes) (type : ObjectType) : Option Registration :=
  (WasmInjections.find (singleton type.kind) (decoratedName name type)).filter (·.type.isA type)

/-- `IntrinsicResolver::resolve` -/
def resolve (singleton : Singleton) (moduleName exportName : Bytes) (type : ObjectType) :
    Option Registration :=
  if moduleName = str "wavmIntrinsics" then none
  else singleton.find (qualifiedName moduleName exportName) type

/-- `root_resolver::resolve` -/
def rootResolve (singleton : Singleton) (validating : Bool) (moduleName exportName : Bytes)
    (type : ObjectType) : Except Exception Registration := do
  ftlAssert (!validating || moduleName == str "env") .wasmRuntime
    ("importing from module that is not 'env': $" ++ text moduleName ++ "." ++ text exportName)
  match singleton.resolve moduleName exportName type with
  | some object => return object
  | none =>
    ftlThrow .wasmRuntime ("$" ++ text moduleName ++ "." ++ text exportName ++ " unresolveable")

/-! ## What is found -/

theorem mem_foldl_register {rs : List Registration} {singleton : Singleton} {kind : ObjectKind}
    {key : Bytes} {r : Registration} :
    (key, r) ∈ rs.foldl register singleton kind ↔
      (key, r) ∈ singleton kind ∨
        r ∈ rs ∧ key = decoratedName r.name r.type ∧ r.type.kind = kind := by
  induction rs generalizing singleton with
  | nil => simp
  | cons first rs ih =>
    rw [List.foldl_cons, ih, register]
    by_cases hkind : kind = first.type.kind
    · rw [if_pos hkind]
      simp only [List.mem_cons, Prod.mk.injEq]
      constructor
      · rintro ((⟨rfl, rfl⟩ | hold) | hnew)
        · exact .inr ⟨.inl rfl, rfl, hkind.symm⟩
        · exact .inl hold
        · exact .inr ⟨.inr hnew.1, hnew.2⟩
      · rintro (hold | ⟨rfl | hmem, rfl, hkind'⟩)
        · exact .inl (.inr hold)
        · exact .inl (.inl ⟨rfl, rfl⟩)
        · exact .inr ⟨hmem, rfl, hkind'⟩
    · rw [if_neg hkind]
      simp only [List.mem_cons]
      constructor
      · rintro (hold | hnew)
        · exact .inl hold
        · exact .inr ⟨.inr hnew.1, hnew.2⟩
      · rintro (hold | ⟨rfl | hmem, rfl, hkind'⟩)
        · exact .inl hold
        · exact absurd hkind'.symm hkind
        · exact .inr ⟨hmem, rfl, hkind'⟩

theorem mem_ofRegistrations {rs : List Registration} {kind : ObjectKind} {key : Bytes}
    {r : Registration} :
    (key, r) ∈ ofRegistrations rs kind ↔
      r ∈ rs ∧ key = decoratedName r.name r.type ∧ r.type.kind = kind := by
  simp [ofRegistrations, mem_foldl_register]

/-- What a name and a type find is registered under that name, and passes for the type. -/
theorem of_find {rs : List Registration} {name : Bytes} {type : ObjectType} {object : Registration}
    (h : (ofRegistrations rs).find name type = some object) :
    object ∈ rs ∧ object.name = name ∧ object.type.isA type = true := by
  obtain ⟨hlookup, hisA⟩ := Option.filter_eq_some_iff.1 h
  obtain ⟨hmem, hkey, -⟩ := mem_ofRegistrations.1 (WasmInjections.mem_of_find_eq_some hlookup)
  rw [decoratedName, decoratedName, ObjectType.asString_eq_of_isA hisA] at hkey
  exact ⟨hmem, (List.append_cancel_right (List.append_cancel_right hkey)).symm, hisA⟩

/-- The names an import asks for are the names its object is registered under, in whatever way
dots, spaces and colons are spread over them. -/
structure ResolvesTo (rs : List Registration) (moduleName exportName : Bytes) (type : ObjectType)
    (object : Registration) : Prop where
  registered : object ∈ rs
  moduleName : object.moduleName = moduleName
  exportName : object.exportName = exportName
  isA : object.type.isA type = true
  foreign : object.moduleName ≠ str "wavmIntrinsics"

theorem of_resolve {rs : List Registration} {moduleName exportName : Bytes} {type : ObjectType}
    {object : Registration}
    (h : (ofRegistrations rs).resolve moduleName exportName type = some object) :
    ResolvesTo rs moduleName exportName type object := by
  unfold resolve at h
  split at h
  · cases h
  · next hforeign =>
    obtain ⟨hmem, hname, hisA⟩ := of_find h
    obtain ⟨rfl, rfl⟩ := qualifiedName_inj object.moduleDotless object.exportDotless hname.symm
    exact ⟨hmem, rfl, rfl, hisA, hforeign⟩

theorem of_rootResolve {rs : List Registration} {validating : Bool} {moduleName exportName : Bytes}
    {type : ObjectType} {object : Registration}
    (h : (ofRegistrations rs).rootResolve validating moduleName exportName type = .ok object) :
    ResolvesTo rs moduleName exportName type object ∧
      (validating = true → object.moduleName = str "env") := by
  obtain ⟨_, hassert, h⟩ := Except.bind_eq_ok.1 h
  have henv := ftlAssert_eq_ok.1 hassert
  cases hresolve : (ofRegistrations rs).resolve moduleName exportName type with
  | none =>
    simp only [hresolve] at h
    cases h
  | some found =>
    simp only [hresolve] at h
    cases h
    have hresolves := of_resolve hresolve
    refine ⟨hresolves, fun hvalidating => ?_⟩
    rw [hresolves.moduleName]
    simpa [hvalidating] using henv

end Singleton

/-! ## The library -/

/-- The functions a module of the library registers. -/
def registrations (moduleName : Bytes) (exports : List (Bytes × FunctionType))
    (hmodule : (46 : UInt8) ∉ moduleName) (hexport : ∀ entry ∈ exports, (46 : UInt8) ∉ entry.1) :
    List Registration :=
  exports.pmap (fun entry h => ⟨moduleName, entry.1, .function entry.2, hmodule, h⟩) hexport

/-- The names as bytes. -/
def exports (functions : List (String × FunctionType)) : List (Bytes × FunctionType) :=
  functions.map fun entry => (str entry.1, entry.2)

def libraryRegistrations : List Registration :=
  registrations (str "env")
    (exports (databaseApi ++ cryptoApi ++ systemApi ++ contextFreeSystemApi ++ actionApi ++
      consoleApi ++ memoryApi ++ compilerBuiltins))
    (by decide +kernel) (by decide +kernel) ++
  registrations WasmInjections.injectedModuleName
    (WasmInjections.injectedIntrinsics.map fun x => (x.name, x.type))
    (by decide +kernel) (by decide +kernel) ++
  registrations (str "wavmIntrinsics") (exports wavmIntrinsics)
    (by decide +kernel) (by decide +kernel)

def library : Singleton := .ofRegistrations libraryRegistrations

/-- A registered function, without the division of its name. -/
def Registration.function (r : Registration) : Function :=
  ⟨r.name, match r.type with
    | .function type => type
    | _ => ⟨.none, []⟩⟩

theorem map_function_registrations {moduleName : Bytes} {exports : List (Bytes × FunctionType)}
    {hmodule : (46 : UInt8) ∉ moduleName} {hexport : ∀ entry ∈ exports, (46 : UInt8) ∉ entry.1} :
    (registrations moduleName exports hmodule hexport).map Registration.function =
      exports.map fun entry => ⟨qualifiedName moduleName entry.1, entry.2⟩ := by
  rw [registrations, List.map_pmap]
  change List.pmap (fun entry _ => (⟨qualifiedName moduleName entry.1, entry.2⟩ : Function)) exports
    hexport = _
  exact List.pmap_eq_map hexport

theorem map_function_library : libraryRegistrations.map Registration.function = functions := by
  rw [libraryRegistrations, List.map_append, List.map_append, map_function_registrations,
    map_function_registrations, map_function_registrations, exports, exports, List.map_map,
    List.map_map, List.map_map]
  rfl

/-- The library registers functions only, of types that can be printed. -/
theorem type_of_library {r : Registration} (hr : r ∈ libraryRegistrations) :
    r.type = .function r.function.type := by
  simp only [libraryRegistrations, registrations, List.mem_append, List.mem_pmap] at hr
  rcases hr with (⟨_, _, rfl⟩ | ⟨_, _, rfl⟩) | ⟨_, _, rfl⟩ <;> rfl

theorem named_of_functions {function : Function} (h : function ∈ functions) :
    function.type.Named := by
  have hall : ∀ function ∈ functions,
      (∀ t ∈ function.type.parameters, t ∈ ValueType.named) ∧
        function.type.ret ∈ ResultType.named := by decide +kernel
  exact hall function h

theorem append_cons_inj {before before' behind behind' : Bytes} {byte : UInt8}
    (hbehind : byte ∉ behind) (hbehind' : byte ∉ behind')
    (h : before ++ byte :: behind = before' ++ byte :: behind') :
    before = before' ∧ behind = behind' := by
  rcases List.append_eq_append_iff.1 h with ⟨middle, rfl, hmiddle⟩ | ⟨middle, rfl, hmiddle⟩
  · cases middle with
    | nil => exact ⟨(List.append_nil _).symm, (List.cons.inj hmiddle).2⟩
    | cons first middle =>
      refine absurd ?_ hbehind
      rw [(List.cons.inj hmiddle).2]
      exact List.mem_append_right _ List.mem_cons_self
  · cases middle with
    | nil => exact ⟨List.append_nil _, (List.cons.inj hmiddle).2.symm⟩
    | cons first middle =>
      refine absurd ?_ hbehind'
      rw [(List.cons.inj hmiddle).2]
      exact List.mem_append_right _ List.mem_cons_self

/-- The last colon of a key ends the name, whatever the name is. -/
theorem getDecoratedName_inj {f g : Function} (hf : f.type.Named) (hg : g.type.Named)
    (h : getDecoratedName f.name f.type = getDecoratedName g.name g.type) : f = g := by
  have hbehind : ∀ {type : FunctionType}, type.Named →
      (58 : UInt8) ∉ str " func " ++ type.asString := fun hnamed => by
    rw [List.mem_append, not_or]
    exact ⟨by decide, FunctionType.colon_notMem_asString hnamed⟩
  have hkey : ∀ f : Function, getDecoratedName f.name f.type =
      (f.name ++ [32]) ++ 58 :: (str " func " ++ f.type.asString) := fun f => by
    simp [getDecoratedName, str]
  rw [hkey, hkey] at h
  obtain ⟨hname, hprinted⟩ := append_cons_inj (hbehind hf) (hbehind hg) h
  have htype := FunctionType.asString_inj hf hg (List.append_cancel_left hprinted)
  obtain ⟨name, type⟩ := f
  obtain ⟨name', type'⟩ := g
  exact congrArg₂ Function.mk (List.append_cancel_right hname) htype

theorem function_mem {r : Registration} (hr : r ∈ libraryRegistrations) :
    r.function ∈ functions := by
  rw [← map_function_library]
  exact List.mem_map_of_mem hr

theorem decoratedName_library {r : Registration} (hr : r ∈ libraryRegistrations) :
    Registration.decoratedName r.name r.type =
      getDecoratedName r.function.name r.function.type := by
  rw [Registration.decoratedName, type_of_library hr]
  rfl

theorem find_ne_none {K V : Type} [DecidableEq K] {map : List (K × V)} {key : K} {value : V}
    (hmem : (key, value) ∈ map) : WasmInjections.find map key ≠ none := by
  intro hnone
  rw [WasmInjections.find, List.lookup_eq_none_iff] at hnone
  simpa using hnone _ hmem

/-- The newest entry of a key in the library's map is its only one. -/
theorem find_library_of_mem {r : Registration} (hr : r ∈ libraryRegistrations) :
    ∃ r', r'.function = r.function ∧ library.find r.name r.type = some r' := by
  have hmem : (Registration.decoratedName r.name r.type, r) ∈ library r.type.kind :=
    Singleton.mem_ofRegistrations.2 ⟨hr, rfl, rfl⟩
  obtain ⟨r', hfound⟩ := Option.ne_none_iff_exists'.1 (find_ne_none hmem)
  obtain ⟨hr', hkey, -⟩ :=
    Singleton.mem_ofRegistrations.1 (WasmInjections.mem_of_find_eq_some hfound)
  rw [decoratedName_library hr, decoratedName_library hr'] at hkey
  have hfunction := getDecoratedName_inj (named_of_functions (function_mem hr'))
    (named_of_functions (function_mem hr)) hkey.symm
  refine ⟨r', hfunction, ?_⟩
  rw [Singleton.find, hfound, Option.filter_some, type_of_library hr, type_of_library hr',
    hfunction, if_pos ((ObjectType.isA_function _ _).2 rfl)]

theorem find_of_mem {f : Function} (hf : f ∈ functions) :
    Intrinsics.find f.name (.function f.type) = some f := by
  have hmem : (getDecoratedName f.name f.type, f) ∈ functionMap := List.mem_map_of_mem hf
  obtain ⟨g, hfound⟩ := Option.ne_none_iff_exists'.1 (find_ne_none hmem)
  obtain ⟨g', hg, heq⟩ := List.mem_map.1 (WasmInjections.mem_of_find_eq_some hfound)
  obtain ⟨hkey, rfl⟩ := Prod.mk.inj heq
  obtain rfl := getDecoratedName_inj (named_of_functions hg) (named_of_functions hf) hkey
  rw [Intrinsics.find, hfound, Option.filter_some, if_pos (by simp [isA])]

/-- Both models of the look-up find the same functions. -/
theorem find_library (name : Bytes) (type : ObjectType) :
    (library.find name type).map Registration.function = Intrinsics.find name type := by
  cases hfind : Intrinsics.find name type with
  | none =>
    rw [Option.map_eq_none_iff, Option.eq_none_iff_forall_ne_some]
    intro r hr
    obtain ⟨hmem, rfl, hisA⟩ := Singleton.of_find hr
    have htype := type_of_library hmem
    have hsame := ObjectType.eq_of_isA hisA (.inl (by rw [htype]; rfl))
    have hfound : Intrinsics.find r.name r.type = some r.function := by
      rw [htype]
      exact find_of_mem (function_mem hmem)
    rw [← hsame, hfound] at hfind
    cases hfind
  | some g =>
    obtain ⟨hmem, rfl, rfl⟩ := of_find hfind
    rw [← map_function_library] at hmem
    obtain ⟨r, hr, rfl⟩ := List.mem_map.1 hmem
    obtain ⟨r', hfunction, hfound⟩ := find_library_of_mem hr
    rw [type_of_library hr] at hfound
    rw [Option.map_eq_some_iff]
    exact ⟨r', hfound, hfunction⟩

theorem resolve_library (moduleName exportName : Bytes) (type : ObjectType) :
    (library.resolve moduleName exportName type).map Registration.function =
      intrinsicResolve moduleName exportName type := by
  unfold Singleton.resolve intrinsicResolve
  split
  · rfl
  · exact find_library _ type

/-- Whatever objects are registered, an import resolves only to what is registered under its own two
names, never to an object of `wavmIntrinsics`, and in validating mode only to one of `env`. In the
library, where all objects are functions, it is registered with the import's own type. -/
theorem resolution_exact :
    (∀ (rs : List Registration) (moduleName exportName : Bytes) (type : ObjectType)
      (object : Registration),
      (Singleton.ofRegistrations rs).resolve moduleName exportName type = some object →
        object ∈ rs ∧ object.moduleName = moduleName ∧ object.exportName = exportName ∧
          object.type.isA type = true ∧ object.moduleName ≠ str "wavmIntrinsics") ∧
    (∀ (moduleName exportName : Bytes) (type : ObjectType) (object : Registration),
      library.resolve moduleName exportName type = some object → object.type = type) ∧
    ∀ (rs : List Registration) (moduleName exportName : Bytes) (type : ObjectType)
      (object : Registration),
      (Singleton.ofRegistrations rs).rootResolve true moduleName exportName type = .ok object →
        object.moduleName = str "env" := by
  refine ⟨fun rs moduleName exportName type object h => ?_,
    fun moduleName exportName type object h => ?_,
    fun rs moduleName exportName type object h => (Singleton.of_rootResolve h).2 rfl⟩
  · have hresolves := Singleton.of_resolve h
    exact ⟨hresolves.registered, hresolves.moduleName, hresolves.exportName, hresolves.isA,
      hresolves.foreign⟩
  · have hresolves := Singleton.of_resolve h
    refine ObjectType.eq_of_isA hresolves.isA (.inl ?_)
    rw [type_of_library hresolves.registered]
    rfl

/-- `abort` of `env` is found, and it is the object registered under these names. -/
theorem resolution_exact_abort :
    ∃ object, library.resolve (str "env") (str "abort") (.function ⟨.none, []⟩) = some object ∧
      object.exportName = str "abort" ∧ object.type = .function ⟨.none, []⟩ := by
  have hsome : (library.resolve (str "env") (str "abort") (.function ⟨.none, []⟩)).isSome := by
    decide +kernel
  obtain ⟨object, hobject⟩ := Option.isSome_iff_exists.1 hsome
  exact ⟨object, hobject, (resolution_exact.1 _ _ _ _ _ hobject).2.2.1,
    resolution_exact.2.1 _ _ _ _ hobject⟩

end Intrinsics

end FractalWasm
