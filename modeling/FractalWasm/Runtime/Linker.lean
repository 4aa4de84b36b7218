import FractalWasm.Runtime.Intrinsics
import FractalWasm.Wasmlib.Validation

/-!
# Linking

A resolver finds a function for each import of a module or throws. The one that validates lets
those of one module pass; the one of the runtime, all but those of `wavmIntrinsics`.

**One import** (`ResolvesTo`): the function that is found has the module, the name and the type of
the import.

**A module** (`Linked`): its imports are functions only, each resolved; derived from a link that did
not throw (`linked_of_linkModule`).
-/

namespace FractalWasm

open Codec IR

/-- `IntrinsicResolver::resolve` -/
def intrinsicResolve (moduleName exportName : Bytes) (type : ObjectType) :
    Option Intrinsics.Function :=
  if moduleName = str "wavmIntrinsics" then none
  else Intrinsics.find (Intrinsics.qualifiedName moduleName exportName) type

/-! ## Linking -/

/-- `root_resolver::resolve`. It does not return `false`. -/
def rootResolve (validating : Bool) (moduleName exportName : Bytes) (type : ObjectType) :
    Except Exception Intrinsics.Function := do
  ftlAssert (!validating || moduleName == str "env") .wasmRuntime
    ("importing from module that is not 'env': $" ++ text moduleName ++ "." ++ text exportName)
  match intrinsicResolve moduleName exportName type with
  | some function => return function
  | none =>
    ftlThrow .wasmRuntime ("$" ++ text moduleName ++ "." ++ text exportName ++ " unresolveable")

/-- `linkImport`, given what `resolveImportType` gives. -/
def linkImport {Ty : Type} (validating : Bool) (imp : Import Ty) (type : ObjectType) :
    Except Exception Intrinsics.Function := do
  let function ← rootResolve validating imp.moduleName imp.exportName type
  wavmAssertThrow (Intrinsics.isA function type)
    "isA(importValue,resolveImportType(module,import.type))"
  return function

/-- `linkModule`: what the function imports are resolved to. The imports of the other kinds are
resolved after them, and none of these is found. -/
def linkModule (validating : Bool) (module : Module) :
    Except Exception (List Intrinsics.Function) := do
  let functions ← module.functions.imports.mapM fun imp =>
    linkImport validating imp (.function ((module.types[imp.type]?).getD ⟨.none, []⟩))
  module.tables.imports.forM fun imp => do
    let _ ← linkImport validating imp (.table imp.type)
  module.memories.imports.forM fun imp => do
    let _ ← linkImport validating imp (.memory imp.type)
  module.globals.imports.forM fun imp => do
    let _ ← linkImport validating imp (.global imp.type)
  return functions

/-! ## What a link establishes -/

/-- The function an import is resolved to. -/
structure ResolvesTo (validating : Bool) (moduleName exportName : Bytes)
    (function : Intrinsics.Function) : Prop where
  registered : function ∈ Intrinsics.functions
  name : function.name = Intrinsics.qualifiedName moduleName exportName
  foreign : moduleName ≠ str "wavmIntrinsics"
  env : validating = true → moduleName = str "env"

theorem of_rootResolve {validating : Bool} {moduleName exportName : Bytes} {type : ObjectType}
    {function : Intrinsics.Function}
    (h : rootResolve validating moduleName exportName type = .ok function) :
    ResolvesTo validating moduleName exportName function ∧ type = .function function.type := by
  obtain ⟨_, hassert, hresolve⟩ := Except.bind_eq_ok.1 h
  have henv := ftlAssert_eq_ok.1 hassert
  unfold intrinsicResolve at hresolve
  by_cases hforeign : moduleName = str "wavmIntrinsics"
  · simp only [if_pos hforeign] at hresolve
    cases hresolve
  · simp only [if_neg hforeign] at hresolve
    cases hfind : Intrinsics.find (Intrinsics.qualifiedName moduleName exportName) type with
    | none =>
      simp only [hfind] at hresolve
      cases hresolve
    | some found =>
      simp only [hfind] at hresolve
      cases hresolve
      obtain ⟨hmem, hname, htype⟩ := Intrinsics.of_find hfind
      exact ⟨⟨hmem, hname, hforeign, fun hvalidating => by simpa [hvalidating] using henv⟩, htype⟩

theorem of_linkImport {Ty : Type} {validating : Bool} {imp : Import Ty} {type : ObjectType}
    {function : Intrinsics.Function} (h : linkImport validating imp type = .ok function) :
    ResolvesTo validating imp.moduleName imp.exportName function ∧
      type = .function function.type := by
  obtain ⟨resolved, hresolve, h⟩ := Except.bind_eq_ok.1 h
  obtain ⟨_, -, h⟩ := Except.bind_eq_ok.1 h
  cases h
  exact of_rootResolve hresolve

theorem mapM_eq_ok {α β ε : Type} {f : α → Except ε β} {l : List α} {out : List β}
    (h : l.mapM f = .ok out) : List.Forall₂ (fun a b => f a = .ok b) l out := by
  induction l generalizing out with
  | nil =>
    cases h
    exact .nil
  | cons a l ih =>
    rw [List.mapM_cons] at h
    obtain ⟨b, hb, h⟩ := Except.bind_eq_ok.1 h
    obtain ⟨rest, hrest, h⟩ := Except.bind_eq_ok.1 h
    cases h
    exact .cons hb (ih hrest)

/-- No import of a kind other than functions is resolved. -/
theorem imports_eq_nil {Ty : Type} {validating : Bool} {imports : List (Import Ty)}
    {type : Import Ty → ObjectType} (hkind : ∀ imp signature, type imp ≠ .function signature)
    (h : (imports.forM fun imp => do
      let _ ← linkImport validating imp (type imp)) = .ok ()) : imports = [] := by
  cases imports with
  | nil => rfl
  | cons imp imports =>
    obtain ⟨_, hfirst⟩ := Except.bind_eq_ok.1 (forM_eq_ok.1 h imp List.mem_cons_self)
    exact absurd (of_linkImport hfirst.1).2 (hkind imp _)

/-- A linked module imports functions only, and each has the type the module asks for. -/
structure Linked (validating : Bool) (module : Module) (functions : List Intrinsics.Function) :
    Prop where
  functions : List.Forall₂ (fun imp function =>
    ResolvesTo validating imp.moduleName imp.exportName function ∧
      (module.types[imp.type]?).getD ⟨.none, []⟩ = function.type) module.functions.imports functions
  tables : module.tables.imports = []
  memories : module.memories.imports = []
  globals : module.globals.imports = []

theorem linked_of_linkModule {validating : Bool} {module : Module}
    {functions : List Intrinsics.Function} (h : linkModule validating module = .ok functions) :
    Linked validating module functions := by
  obtain ⟨resolved, hfunctions, h⟩ := Except.bind_eq_ok.1 h
  obtain ⟨_, htables, h⟩ := Except.bind_eq_ok.1 h
  obtain ⟨_, hmemories, h⟩ := Except.bind_eq_ok.1 h
  obtain ⟨_, hglobals, h⟩ := Except.bind_eq_ok.1 h
  cases h
  refine ⟨?_, imports_eq_nil (fun _ _ h => ObjectType.noConfusion h) htables,
    imports_eq_nil (fun _ _ h => ObjectType.noConfusion h) hmemories,
    imports_eq_nil (fun _ _ h => ObjectType.noConfusion h) hglobals⟩
  apply (mapM_eq_ok hfunctions).imp
  intro imp function himport
  obtain ⟨hresolves, htype⟩ := of_linkImport himport
  exact ⟨hresolves, ObjectType.function.inj htype⟩

end FractalWasm
