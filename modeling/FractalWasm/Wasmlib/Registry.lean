import Mathlib.Data.List.Nodup
import Mathlib.Data.List.Perm.Subperm
import FractalWasm.Wasmlib.UseGas

/-!
# The registry of injected imports

`add_import` keeps four records of the imports it injects: the import list itself, the temporary
index of each name, the final index of each temporary index, and the shifted exports, start function
and table entries. `Registered` says what they hold after the import of a list of intrinsics, in the
order of their first use; `addImport_spec` says that every import keeps it.

**Intrinsics** (`Intrinsic`, `knownIntrinsics`): the functions that may be imported, each by its
name and its type; their names are distinct.

**Types** (`SlotsOk`): a slot that was handed out is that of its type. The list of types only grows,
so slots stay.
-/

namespace FractalWasm

open Codec Control IR WASM

namespace WasmInjections

/-! ## Maps -/

section Maps

variable {K V : Type} [DecidableEq K] {map : List (K × V)} {key : K} {value : V}

/-- A map with distinct keys has the value that was put in. -/
theorem find_eq_some_of_mem (hnodup : (map.map Prod.fst).Nodup) (h : (key, value) ∈ map) :
    find map key = some value := by
  induction map with
  | nil => exact absurd h List.not_mem_nil
  | cons entry map ih =>
    obtain ⟨key', value'⟩ := entry
    obtain ⟨hnot, hnodup⟩ := List.nodup_cons.1 hnodup
    rcases List.mem_cons.1 h with heq | hmem
    · cases heq
      simp [find]
    · have hne : key ≠ key' := by
        rintro rfl
        exact hnot (List.mem_map.2 ⟨_, hmem, rfl⟩)
      rw [find, List.lookup_cons, beq_false_of_ne hne]
      exact ih hnodup hmem

theorem find_eq_none_of_notMem (h : key ∉ map.map Prod.fst) : find map key = none := by
  rw [find, List.lookup_eq_none_iff]
  intro entry hmem
  have hne : key ≠ entry.1 := fun heq => h (heq ▸ List.mem_map_of_mem hmem)
  simpa using hne

theorem mem_of_find_eq_some (h : find map key = some value) : (key, value) ∈ map := by
  obtain ⟨before, after, rfl, -⟩ := List.lookup_eq_some_iff.1 h
  simp

/-- A new key goes to the end. -/
theorem emplace_of_find_eq_none (h : find map key = none) :
    emplace map key value = map ++ [(key, value)] := by
  rw [emplace, h]

/-- What is found was there before or is what was put in. -/
theorem find_emplace {key' : K} {value' : V} (h : find (emplace map key value) key' = some value') :
    find map key' = some value' ∨ key = key' ∧ value = value' := by
  unfold emplace at h
  split at h
  · exact .inl h
  · rw [find, List.lookup_append] at h
    rcases Option.or_eq_some_iff.1 h with hold | ⟨-, hnew⟩
    · exact .inl hold
    · cases List.mem_singleton.1 (mem_of_find_eq_some hnew)
      exact .inr ⟨rfl, rfl⟩

/-- A new key is found. -/
theorem find_emplace_self (h : find map key = none) :
    find (emplace map key value) key = some value := by
  have hnone : map.lookup key = none := h
  rw [emplace_of_find_eq_none h, find, List.lookup_append, hnone]
  simp

end Maps

/-! ## The intrinsics -/

/-- An intrinsic the injection can import. -/
structure Intrinsic where
  name : Bytes
  type : FunctionType
  deriving DecidableEq, Repr

def useGasIntrinsic : Intrinsic := ⟨str "use_gas", ⟨.none, [.i64]⟩⟩

/-- The type of a function that does what an operator does. -/
def operatorType : Signature → FunctionType
  | .unary operand result => ⟨result, [operand]⟩
  | .binary operand result => ⟨result, [operand, operand]⟩

/-- The conversions of integers to floating-point numbers. -/
def isConvert : NumericOp → Bool
  | .f32ConvertSI32 | .f32ConvertUI32 | .f32ConvertSI64 | .f32ConvertUI64 => true
  | .f64ConvertSI32 | .f64ConvertUI32 | .f64ConvertSI64 | .f64ConvertUI64 => true
  | _ => false

/-- The intrinsic an operator is replaced by, if it is. -/
def replacement? (op : NumericOp) : Option Intrinsic :=
  match injectWhichOp (.numeric op) with
  | .ok name => if isConvert op then none else some ⟨name, operatorType op.signature⟩
  | .error _ => none

/-- The hand-written aliases give an operator the injector for an intrinsic of its own type, under
the name `inject_which_op` has for it; but the conversions keep the pass injector. -/
theorem preOpInjectors_numeric (op : NumericOp) :
    preOpInjectors (some (.numeric op)) =
      match replacement? op with
      | some intrinsic => softfloatInjector intrinsic.type (.ok intrinsic.name)
      | none => passInjector := by
  cases op <;> rfl

def numericOps : List NumericOp := (List.range 123).map NumericOp.ofNat

/-- The list of the operators is complete. -/
theorem mem_numericOps (op : NumericOp) : op ∈ numericOps := by
  have hlt : op.ctorIdx < 123 := by
    cases op <;> decide
  exact List.mem_map.2 ⟨op.ctorIdx, List.mem_range.2 hlt, NumericOp.ofNat_ctorIdx op⟩

/-- All intrinsics an injection can import. -/
def knownIntrinsics : List Intrinsic := useGasIntrinsic :: numericOps.filterMap replacement?

/-- As many intrinsics as the injection can ever import. -/
theorem length_knownIntrinsics : knownIntrinsics.length = 51 := by decide +kernel

/-- Their names are distinct. -/
theorem nodup_names : (knownIntrinsics.map Intrinsic.name).Nodup := by
  -- The names differ near their ends, so the comparisons are short from there.
  have hreverse : ((knownIntrinsics.map Intrinsic.name).map List.reverse).Nodup := by
    decide +kernel
  exact hreverse.of_map

/-- The replacement of an operator is one of them. -/
theorem mem_known_of_replacement {op : NumericOp} {intrinsic : Intrinsic}
    (h : replacement? op = some intrinsic) : intrinsic ∈ knownIntrinsics :=
  List.mem_cons_of_mem _ (List.mem_filterMap.2 ⟨op, mem_numericOps op, h⟩)

theorem eq_of_name_eq {x y : Intrinsic} (hx : x ∈ knownIntrinsics) (hy : y ∈ knownIntrinsics)
    (h : x.name = y.name) : x = y :=
  List.inj_on_of_nodup_map nodup_names hx hy h

/-- The intrinsics in use after one more use. -/
def use (used : List Intrinsic) (intrinsic : Intrinsic) : List Intrinsic :=
  if intrinsic ∈ used then used else used ++ [intrinsic]

/-- Some of the known intrinsics, each once. -/
structure Used (used : List Intrinsic) : Prop where
  known : ∀ x ∈ used, x ∈ knownIntrinsics
  nodup : used.Nodup

section Used

variable {used : List Intrinsic} {x : Intrinsic}

/-- The list of the intrinsics in use only grows, at its end. -/
theorem extend_use (used : List Intrinsic) (x : Intrinsic) : used <+: use used x := by
  unfold use
  split
  · exact List.prefix_refl used
  · exact List.prefix_append used [x]

theorem mem_use (used : List Intrinsic) (x : Intrinsic) : x ∈ use used x := by
  unfold use
  split
  · assumption
  · simp

/-- A known intrinsic may be added. -/
theorem Used.use (h : Used used) (hx : x ∈ knownIntrinsics) : Used (use used x) := by
  unfold WasmInjections.use
  split
  · exact h
  · next hnot =>
    refine ⟨fun y hy => ?_, ?_⟩
    · rcases List.mem_append.1 hy with hy | hy
      · exact h.known y hy
      · rw [List.mem_singleton.1 hy]
        exact hx
    · refine List.nodup_append'.2 ⟨h.nodup, List.nodup_singleton x, ?_⟩
      exact List.disjoint_singleton.2 hnot

/-- No list in use is longer than that of the known intrinsics. -/
theorem Used.length_le (h : Used used) : used.length ≤ 51 := by
  rw [← length_knownIntrinsics]
  exact (List.subperm_of_subset h.nodup h.known).length_le

theorem Used.nodup_names (h : Used used) : (used.map Intrinsic.name).Nodup :=
  List.Nodup.map_on (fun _ hx _ hy => eq_of_name_eq (h.known _ hx) (h.known _ hy)) h.nodup

/-- An index handed out to an intrinsic stays its index. -/
theorem idxOf_of_extends {used used' : List Intrinsic} (hext : used <+: used') (hx : x ∈ used) :
    used'.idxOf x = used.idxOf x := by
  obtain ⟨more, rfl⟩ := hext
  exact List.idxOf_append_of_mem hx

end Used

/-! ## Type slots -/

/-- The slot of a type tells the type. -/
theorem typeSlot_injective {t u : FunctionType} (h : typeSlot t = typeSlot u) : t = u := by
  obtain ⟨ret, parameters⟩ := t
  obtain ⟨ret', parameters'⟩ := u
  simp only [typeSlot, List.cons.injEq] at h
  obtain ⟨hret, hparameters⟩ := h
  have hinj : Function.Injective fun param : ValueType => param.toByte.toNat :=
    fun _ _ heq => ValueType.toByte_injective (UInt8.toNat_inj.1 heq)
  rw [ResultType.toByte_injective (UInt8.toNat_inj.1 hret), List.map_injective_iff.2 hinj
    hparameters]

/-- Every slot points to its type. -/
structure SlotsOk (slots : List (List Nat × Nat)) (types : List FunctionType) : Prop where
  type_eq : ∀ {key index}, find slots key = some index →
    ∃ type, types[index]? = some type ∧ typeSlot type = key

namespace SlotsOk

variable {slots : List (List Nat × Nat)} {types types' : List FunctionType}

theorem extend (h : SlotsOk slots types) (hext : types <+: types') : SlotsOk slots types' := by
  refine ⟨fun {key index} hlookup => ?_⟩
  obtain ⟨type, htype, hslot⟩ := h.type_eq hlookup
  obtain ⟨more, rfl⟩ := hext
  obtain ⟨hlt, -⟩ := List.getElem?_eq_some_iff.1 htype
  exact ⟨type, by rwa [List.getElem?_append_left hlt], hslot⟩

theorem emplace (h : SlotsOk slots types) {type : FunctionType} {index : Nat}
    (htype : types[index]? = some type) :
    SlotsOk (emplace slots (typeSlot type) index) types := by
  refine ⟨fun {key index'} hlookup => ?_⟩
  rcases find_emplace hlookup with hold | ⟨rfl, rfl⟩
  · exact h.type_eq hold
  · exact ⟨type, htype, rfl⟩

theorem buildTypeSlots (types : List FunctionType) : SlotsOk (buildTypeSlots types) types := by
  have hfold : ∀ (pairs : List (FunctionType × Nat)),
      (∀ pair ∈ pairs, types[pair.2]? = some pair.1) → ∀ {slots}, SlotsOk slots types →
      SlotsOk (pairs.foldl (fun slots type =>
        WasmInjections.emplace slots (typeSlot type.1) type.2) slots) types := by
    intro pairs
    induction pairs with
    | nil => exact fun _ _ h => h
    | cons pair pairs ih =>
      intro hpairs slots h
      exact ih (fun p hp => hpairs p (List.mem_cons_of_mem pair hp))
        (h.emplace (hpairs pair List.mem_cons_self))
  refine hfold _ (fun pair hpair => ?_) ⟨fun hlookup => absurd hlookup (by simp [find])⟩
  exact List.mem_zipIdx_iff_getElem?.1 hpair

end SlotsOk

/-! ## The registry -/

/-- The temporary index of the `i`-th intrinsic: both the import list and the registry grow by one
with every import. -/
def temporary (m : Module) (i : Nat) : UInt32 := (m.functions.size + 2 * i).toUInt32

def shiftExport (k : Nat) (exp : Export) : Export :=
  if exp.kind = .function then { exp with index := exp.index + k } else exp

def shiftSegment (k : Nat) (ts : TableSegment) : TableSegment :=
  { ts with indices := ts.indices.map (· + k) }

/-- Outside types and functions, `m'` is `m` with function indices shifted by `k`. -/
structure ShiftedBy (k : Nat) (m m' : Module) : Prop where
  exports : m'.exports = m.exports.map (shiftExport k)
  startFunctionIndex : m'.startFunctionIndex = m.startFunctionIndex.map (· + k)
  tableSegments : m'.tableSegments = m.tableSegments.map (shiftSegment k)
  tables : m'.tables = m.tables
  memories : m'.memories = m.memories
  globals : m'.globals = m.globals
  dataSegments : m'.dataSegments = m.dataSegments
  userSections : m'.userSections = m.userSections

namespace ShiftedBy

variable {k : Nat} {m m' : Module}

theorem zero (m : Module) : ShiftedBy 0 m m where
  exports := by
    have hid : ∀ exp ∈ m.exports, shiftExport 0 exp = id exp := fun exp _ => by simp [shiftExport]
    rw [List.map_congr_left hid, List.map_id]
  startFunctionIndex := by
    cases m.startFunctionIndex <;> rfl
  tableSegments := by
    have hid : ∀ ts ∈ m.tableSegments, shiftSegment 0 ts = id ts :=
      fun ts _ => by simp [shiftSegment]
    rw [List.map_congr_left hid, List.map_id]
  tables := rfl
  memories := rfl
  globals := rfl
  dataSegments := rfl
  userSections := rfl

theorem setTypes (h : ShiftedBy k m m') (types : List FunctionType) :
    ShiftedBy k m { m' with types } :=
  ⟨h.exports, h.startFunctionIndex, h.tableSegments, h.tables, h.memories, h.globals,
    h.dataSegments, h.userSections⟩

theorem setFunctions (h : ShiftedBy k m m') (functions : IndexSpace FunctionDef Nat) :
    ShiftedBy k m { m' with functions } :=
  ⟨h.exports, h.startFunctionIndex, h.tableSegments, h.tables, h.memories, h.globals,
    h.dataSegments, h.userSections⟩

theorem shiftIndices (h : ShiftedBy k m m') : ShiftedBy (k + 1) m (shiftIndices m') where
  exports := by
    rw [WasmInjections.shiftIndices, h.exports, List.map_map]
    refine List.map_congr_left fun exp _ => ?_
    simp only [Function.comp_apply, shiftExport]
    split
    · next hkind => simp [hkind, Nat.add_assoc]
    · rfl
  startFunctionIndex := by
    rw [WasmInjections.shiftIndices, h.startFunctionIndex, Option.map_map]
    rfl
  tableSegments := by
    rw [WasmInjections.shiftIndices, h.tableSegments, List.map_map]
    refine List.map_congr_left fun ts _ => ?_
    simp [shiftSegment, Function.comp_def, Nat.add_assoc]
  tables := h.tables
  memories := h.memories
  globals := h.globals
  dataSegments := h.dataSegments
  userSections := h.userSections

end ShiftedBy

/-- An entry of the import list is the import of an intrinsic. -/
structure ImportOf (types : List FunctionType) (imp : Import Nat) (x : Intrinsic) : Prop where
  moduleName : imp.moduleName = injectedModuleName
  exportName : imp.exportName = x.name
  type : types[imp.type]? = some x.type

/-- The state of an injection into `m` that has imported the intrinsics `used`, in this order. -/
structure Registered (m : Module) (used : List Intrinsic) (injection : Injection) : Prop where
  distinct : Used used
  types : m.types <+: injection.module.types
  slots : SlotsOk injection.utils.typeSlots injection.module.types
  registered : injection.utils.registeredInjected = used.mapIdx fun i x => (x.name, temporary m i)
  mapping : injection.utils.injectedIndexMapping =
    used.mapIdx fun i _ => (temporary m i, i.toUInt32)
  next : injection.utils.nextInjectedIndex = used.length.toUInt32
  imports : ∃ injected, injection.module.functions.imports = injected ++ m.functions.imports ∧
    List.Forall₂ (ImportOf injection.module.types) injected used
  defs : injection.module.functions.defs.length = m.functions.defs.length
  shifted : ShiftedBy used.length m injection.module

/-- Nothing is registered before the first import. -/
theorem Registered.init (m : Module) : Registered m [] (Injection.init m) where
  distinct := ⟨fun _ h => absurd h List.not_mem_nil, List.nodup_nil⟩
  types := List.prefix_refl _
  slots := .buildTypeSlots _
  registered := rfl
  mapping := rfl
  next := rfl
  imports := ⟨[], rfl, .nil⟩
  defs := rfl
  shifted := .zero m

section Registered

variable {m : Module} {used : List Intrinsic} {injection : Injection} {x : Intrinsic}

theorem map_fst_mapIdx {α K V : Type} (l : List α) (key : Nat → α → K) (value : Nat → α → V) :
    (l.mapIdx fun i a => (key i a, value i a)).map Prod.fst = l.mapIdx key := by
  rw [List.mapIdx_eq_zipIdx_map, List.mapIdx_eq_zipIdx_map, List.map_map]
  rfl

theorem mapIdx_const {α β : Type} (l : List α) (f : α → β) : (l.mapIdx fun _ a => f a) = l.map f := by
  refine List.ext_getElem? fun i => ?_
  simp

/-- The temporary indices do not wrap around. -/
theorem toNat_temporary (hsize : m.functions.size < 2048) {i : Nat} (hi : i ≤ 51) :
    (temporary m i).toNat = m.functions.size + 2 * i := by
  simp only [temporary, Nat.toUInt32_eq, UInt32.toNat_ofNat']
  exact Nat.mod_eq_of_lt (by omega)

theorem toNat_toUInt32 {i : Nat} (hi : i ≤ 51) : i.toUInt32.toNat = i := by
  simp only [Nat.toUInt32_eq, UInt32.toNat_ofNat']
  exact Nat.mod_eq_of_lt (by omega)

/-- Temporary indices differ from each other. -/
theorem nodup_temporary (hsize : m.functions.size < 2048) (h : Used used) :
    (used.mapIdx fun i _ => temporary m i).Nodup := by
  have hle := h.length_le
  refine List.pairwise_iff_getElem.2 fun i j hi hj hlt heq => ?_
  simp only [List.length_mapIdx] at hi hj
  simp only [List.getElem_mapIdx] at heq
  have hnat := congrArg UInt32.toNat heq
  rw [toNat_temporary hsize (by omega), toNat_temporary hsize (by omega)] at hnat
  omega

/-- A registered name has its temporary index. -/
theorem Registered.find_registered (h : Registered m used injection) {i : Nat}
    (hx : used[i]? = some x) :
    find injection.utils.registeredInjected x.name = some (temporary m i) := by
  refine find_eq_some_of_mem ?_ ?_
  · rw [h.registered, map_fst_mapIdx, mapIdx_const]
    exact h.distinct.nodup_names
  · rw [h.registered, List.mem_mapIdx]
    obtain ⟨hlt, rfl⟩ := List.getElem?_eq_some_iff.1 hx
    exact ⟨i, hlt, rfl⟩

/-- An intrinsic not in use has none. -/
theorem Registered.find_registered_none (h : Registered m used injection)
    (hx : x ∈ knownIntrinsics) (hnot : x ∉ used) :
    find injection.utils.registeredInjected x.name = none := by
  refine find_eq_none_of_notMem ?_
  rw [h.registered, map_fst_mapIdx, mapIdx_const]
  intro hmem
  obtain ⟨y, hy, hname⟩ := List.mem_map.1 hmem
  exact hnot (eq_of_name_eq (h.distinct.known y hy) hx hname ▸ hy)

/-- Each temporary index has its final one, in the order of first use. -/
theorem Registered.find_mapping (h : Registered m used injection)
    (hsize : m.functions.size < 2048) {i : Nat} (hi : i < used.length) :
    find injection.utils.injectedIndexMapping (temporary m i) = some i.toUInt32 := by
  refine find_eq_some_of_mem ?_ ?_
  · rw [h.mapping, map_fst_mapIdx]
    exact nodup_temporary hsize h.distinct
  · rw [h.mapping, List.mem_mapIdx]
    exact ⟨i, hi, rfl⟩

/-- The indices of the module's own functions are no temporary indices. -/
theorem Registered.find_mapping_none (h : Registered m used injection)
    (hsize : m.functions.size < 2048) {index : UInt32}
    (hindex : index.toNat < m.functions.size ∨ m.functions.size + 2 * used.length ≤ index.toNat) :
    find injection.utils.injectedIndexMapping index = none := by
  refine find_eq_none_of_notMem ?_
  rw [h.mapping, map_fst_mapIdx]
  intro hmem
  obtain ⟨i, hi, heq⟩ := List.mem_mapIdx.1 hmem
  have hle := h.distinct.length_le
  have hnat := toNat_temporary hsize (show i ≤ 51 by omega)
  rw [heq] at hnat
  omega

/-- The bodies do not matter to the registry. -/
theorem Registered.withDefs (h : Registered m used injection) {defs : List FunctionDef}
    (hlength : defs.length = injection.module.functions.defs.length) :
    Registered m used { injection with module := withDefs injection.module defs } where
  distinct := h.distinct
  types := h.types
  slots := h.slots
  registered := h.registered
  mapping := h.mapping
  next := h.next
  imports := h.imports
  defs := hlength.trans h.defs
  shifted := h.shifted.setFunctions _

/-- An intrinsic in use is not imported again. -/
theorem addImport_of_mem (h : Registered m used injection) (hx : x ∈ used) :
    addImport x.type x.name injection = (temporary m (used.idxOf x), injection) := by
  obtain ⟨injected, himports, hall⟩ := h.imports
  have hget : used[used.idxOf x]? = some x := by
    rw [List.getElem?_eq_getElem (List.idxOf_lt_length_of_mem hx), List.getElem_idxOf]
  have hfind := h.find_registered hget
  have hpos : 0 < injected.length := by
    rw [hall.length_eq]
    exact List.length_pos_of_mem hx
  unfold addImport
  cases injected with
  | nil => exact absurd hpos (Nat.lt_irrefl 0)
  | cons imp injected => simp only [hfind, himports, List.cons_append]

theorem insertIdx_length_append {α : Type} (before after : List α) (a : α) :
    (before ++ after).insertIdx before.length a = before ++ a :: after := by
  induction before with
  | nil => rfl
  | cons b before ih => rw [List.cons_append, List.length_cons, List.insertIdx_succ_cons, ih]; rfl

/-- More types may follow. -/
theorem ImportOf.extend {types types' : List FunctionType} {imp : Import Nat}
    (h : ImportOf types imp x) (hext : types <+: types') : ImportOf types' imp x := by
  obtain ⟨more, rfl⟩ := hext
  obtain ⟨hlt, -⟩ := List.getElem?_eq_some_iff.1 h.type
  exact ⟨h.moduleName, h.exportName, by rw [List.getElem?_append_left hlt]; exact h.type⟩

/-- The indices of the next import. -/
theorem Registered.getNextIndices (h : Registered m used injection) :
    getNextIndices injection = (temporary m used.length, used.length.toUInt32) := by
  obtain ⟨injected, himports, hall⟩ := h.imports
  have hindex : injection.module.functions.imports.length +
      injection.module.functions.defs.length + injection.utils.registeredInjected.length =
      m.functions.size + 2 * used.length := by
    rw [himports, h.defs, h.registered, List.length_append, hall.length_eq, List.length_mapIdx]
    unfold IndexSpace.size
    omega
  rw [WasmInjections.getNextIndices, hindex, h.next]
  rfl

/-- `add_type_slot` leaves a slot that points to the type. -/
theorem Registered.addTypeSlot (h : Registered m used injection) (type : FunctionType) :
    Registered m used (addTypeSlot type injection) ∧
      ∃ index, find (addTypeSlot type injection).utils.typeSlots (typeSlot type) = some index ∧
        (addTypeSlot type injection).module.types[index]? = some type := by
  unfold WasmInjections.addTypeSlot
  cases hfind : find injection.utils.typeSlots (typeSlot type) with
  | some index =>
    obtain ⟨type', htype, hslot⟩ := h.slots.type_eq hfind
    obtain rfl := typeSlot_injective hslot
    exact ⟨h, index, hfind, htype⟩
  | none =>
    have hext := List.prefix_append injection.module.types [type]
    have htype : (injection.module.types ++ [type])[injection.module.types.length]? =
        some type := by simp
    obtain ⟨injected, himports, hall⟩ := h.imports
    refine ⟨?_, _, find_emplace_self hfind, htype⟩
    exact {
      distinct := h.distinct
      types := h.types.trans hext
      slots := (h.slots.extend hext).emplace htype
      registered := h.registered
      mapping := h.mapping
      next := h.next
      imports := ⟨injected, himports, hall.imp fun _ _ himport => himport.extend hext⟩
      defs := h.defs
      shifted := h.shifted.setTypes _ }

/-- A new intrinsic is imported behind those in use. -/
theorem Registered.insertImport (hsize : m.functions.size < 2048)
    (h : Registered m used injection) (hx : x ∈ knownIntrinsics) (hnot : x ∉ used) {typeIndex : Nat}
    (htype : injection.module.types[typeIndex]? = some x.type) :
    ∃ injection', insertImport typeIndex x.name injection =
        (temporary m used.length, injection') ∧ Registered m (used ++ [x]) injection' := by
  have hdistinct : Used (used ++ [x]) := by
    have huse := h.distinct.use hx
    rwa [use, if_neg hnot] at huse
  have hregistered : emplace injection.utils.registeredInjected x.name
      (temporary m used.length) = (used ++ [x]).mapIdx fun i y => (y.name, temporary m i) := by
    rw [emplace_of_find_eq_none (h.find_registered_none hx hnot), h.registered, List.mapIdx_concat]
  have hmapping : emplace injection.utils.injectedIndexMapping (temporary m used.length)
      used.length.toUInt32 = (used ++ [x]).mapIdx fun i _ => (temporary m i, i.toUInt32) := by
    have hindex := toNat_temporary hsize h.distinct.length_le
    have hnone := h.find_mapping_none hsize (.inr (Nat.le_of_eq hindex.symm))
    rw [emplace_of_find_eq_none hnone, h.mapping, List.mapIdx_concat]
  obtain ⟨injected, himports, hall⟩ := h.imports
  have hinsert : ∀ imp, injection.module.functions.imports.insertIdx
      (((used ++ [x]).mapIdx fun i y => (y.name, temporary m i)).length - 1) imp =
      injected ++ imp :: m.functions.imports := by
    intro imp
    rw [List.length_mapIdx, List.length_append, himports, ← hall.length_eq]
    exact insertIdx_length_append injected _ imp
  unfold WasmInjections.insertImport
  simp only [h.getNextIndices, hregistered, hmapping, hinsert]
  refine ⟨_, rfl, ?_⟩
  exact {
    distinct := hdistinct
    types := h.types
    slots := h.slots
    registered := rfl
    mapping := rfl
    next := by simp
    imports := by
      refine ⟨injected ++ [⟨typeIndex, injectedModuleName, x.name⟩], by simp [shiftIndices], ?_⟩
      exact List.rel_append hall (.cons ⟨rfl, rfl, htype⟩ .nil)
    defs := h.defs
    shifted := by
      rw [List.length_append, List.length_singleton]
      exact (h.shifted.setFunctions _).shiftIndices }

/-- `add_import` returns the temporary index of the intrinsic's place among those in use. -/
theorem addImport_spec (hsize : m.functions.size < 2048) (h : Registered m used injection)
    (hx : x ∈ knownIntrinsics) :
    ∃ injection', addImport x.type x.name injection =
        (temporary m ((use used x).idxOf x), injection') ∧ Registered m (use used x) injection' := by
  unfold use
  split
  · next hmem => exact ⟨injection, addImport_of_mem h hmem, h⟩
  · next hnot =>
    have hfind := h.find_registered_none hx hnot
    obtain ⟨hslot, typeIndex, hindex, htype⟩ := h.addTypeSlot x.type
    obtain ⟨injection', hinsert, h'⟩ := hslot.insertImport hsize hx hnot htype
    have hidx : (used ++ [x]).idxOf x = used.length := by
      rw [List.idxOf_append_of_notMem hnot]
      simp
    refine ⟨injection', ?_, h'⟩
    unfold addImport
    simp only [hfind, hindex, Option.getD_some, hinsert, hidx]

end Registered

end WasmInjections

end FractalWasm
