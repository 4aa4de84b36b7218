import FractalWasm.IR.ValidDefinitions
import FractalWasm.Wasmlib.GasSoundness

/-!
# Function indices after the injection

A function index denotes an import or a definition. The injection moves every function of the module
by the number of injected imports, and moves with it every index that denotes one; the indices it
handed out on the way are the module's own at no time.

**Meaning** (`function?`, `Remapped`): what an index denotes before and after, for calls, exports,
the start function, element segments and the type of an indirect call.

**Temporaries** (`TemporariesOk`): an index handed out on the way denotes the intrinsic of its name
when the last pass is done, and is never taken for one of the module's own.
-/

namespace FractalWasm

open Codec Control IR WASM

namespace IR

/-- What a function index denotes: an import with its type, or a definition by its place. -/
inductive Function where
  | import_ (imp : Import FunctionType)
  | definition (place : Nat) (type : FunctionType)
  deriving DecidableEq, Repr

namespace Module

variable {m m' : Module}

def function? (m : Module) (functionIndex : Nat) : Option Function :=
  if functionIndex < m.functions.imports.length then do
    let imp ← m.functions.imports[functionIndex]?
    let type ← m.types[imp.type]?
    return .import_ ⟨type, imp.moduleName, imp.exportName⟩
  else do
    let place := functionIndex - m.functions.imports.length
    let functionDef ← m.functions.defs[place]?
    let type ← m.types[functionDef.type]?
    return .definition place type

theorem function?_import {functionIndex : Nat} {imp : Import Nat} {type : FunctionType}
    (himport : m.functions.imports[functionIndex]? = some imp)
    (htype : m.types[imp.type]? = some type) :
    m.function? functionIndex = some (.import_ ⟨type, imp.moduleName, imp.exportName⟩) := by
  obtain ⟨hlt, -⟩ := List.getElem?_eq_some_iff.1 himport
  simp only [function?, if_pos hlt, himport, Option.bind_eq_bind, Option.bind_some, htype]
  rfl

theorem function?_definition {place : Nat} {functionDef : FunctionDef} {type : FunctionType}
    (hdef : m.functions.defs[place]? = some functionDef)
    (htype : m.types[functionDef.type]? = some type) :
    m.function? (m.functions.imports.length + place) = some (.definition place type) := by
  have hnot : ¬ m.functions.imports.length + place < m.functions.imports.length := by omega
  simp only [function?, if_neg hnot, Nat.add_sub_cancel_left, hdef, Option.bind_eq_bind,
    Option.bind_some, htype]
  rfl

end Module

end IR

namespace WasmInjections

variable {bytes : Bytes} {m : Module}

/-- The function an intrinsic is imported as. -/
def Intrinsic.function (x : Intrinsic) : Function :=
  .import_ ⟨x.type, injectedModuleName, x.name⟩

namespace Injected

variable {injection : Injection}

theorem types_prefix (h : Injected m injection) : m.types <+: injection.module.types := by
  have hextends := h.registered.types
  rwa [types_maxMemoryInject] at hextends

theorem getElem?_types (h : Injected m injection) {index : Nat} {type : FunctionType}
    (htype : m.types[index]? = some type) : injection.module.types[index]? = some type := by
  obtain ⟨more, hmore⟩ := h.types_prefix
  obtain ⟨hlt, -⟩ := List.getElem?_eq_some_iff.1 htype
  rw [← hmore, List.getElem?_append_left hlt, htype]

/-- The injected imports come first, in the order of the registry. -/
theorem importOf_used (h : Injected m injection) {i : Nat} {x : Intrinsic}
    (hx : (usedIntrinsics m)[i]? = some x) :
    ∃ imp, injection.module.functions.imports[i]? = some imp ∧
      ImportOf injection.module.types imp x := by
  obtain ⟨injected, himports, hall⟩ := h.registered.imports
  obtain ⟨hlt, hget⟩ := List.getElem?_eq_some_iff.1 hx
  have hlt' : i < injected.length := by
    rw [hall.length_eq]
    exact hlt
  refine ⟨injected[i], ?_, ?_⟩
  · rw [himports, List.getElem?_append_left hlt', List.getElem?_eq_getElem hlt']
  · have hget' := hall.get hlt' hlt
    simp only [List.get_eq_getElem, hget] at hget'
    exact hget'

theorem function?_injected (h : Injected m injection) {i : Nat} {x : Intrinsic}
    (hx : (usedIntrinsics m)[i]? = some x) : injection.module.function? i = some x.function := by
  obtain ⟨imp, himp, himport⟩ := h.importOf_used hx
  rw [Module.function?_import himp himport.type, himport.moduleName, himport.exportName]
  rfl

/-- Every function of the module is there still, moved by the number of injected imports. -/
theorem function?_original (h : Injected m injection) (hvalid : ValidDefinitions m)
    {functionIndex : Nat} (hlt : functionIndex < m.functions.size) :
    injection.module.function? (functionIndex + (usedIntrinsics m).length) =
      m.function? functionIndex := by
  by_cases himport : functionIndex < m.functions.imports.length
  · obtain ⟨injected, himports, hall⟩ := h.registered.imports
    have hget := List.getElem?_eq_getElem himport
    have htype := List.getElem?_eq_getElem (hvalid.importTypes _ (List.getElem_mem himport))
    have hget' : injection.module.functions.imports[functionIndex + (usedIntrinsics m).length]? =
        some m.functions.imports[functionIndex] := by
      rw [himports, functions_maxMemoryInject, ← hall.length_eq,
        List.getElem?_append_right (Nat.le_add_left _ _), Nat.add_sub_cancel, hget]
    rw [Module.function?_import hget htype, Module.function?_import hget' (h.getElem?_types htype)]
  · obtain ⟨place, rfl⟩ := Nat.exists_eq_add_of_le (Nat.le_of_not_lt himport)
    have hplace : place < m.functions.defs.length := by
      unfold IndexSpace.size at hlt
      omega
    have hget := List.getElem?_eq_getElem hplace
    have htype := List.getElem?_eq_getElem (hvalid.defTypes _ (List.getElem_mem hplace))
    have hget' : injection.module.functions.defs[place]? =
        some (m.functions.defs[place].withOperators
          ((meteredOps m m.functions.defs[place]).map (rewrite m (usedIntrinsics m)))) := by
      rw [h.defs, List.getElem?_map, hget, Option.map_some]
    have hindex : m.functions.imports.length + place + (usedIntrinsics m).length =
        injection.module.functions.imports.length + place := by
      rw [h.length_imports]
      omega
    rw [Module.function?_definition hget htype, hindex,
      Module.function?_definition hget' (h.getElem?_types htype)]

end Injected

theorem maxMemoryInject_other (m : Module) :
    (maxMemoryInject m).exports = m.exports ∧
      (maxMemoryInject m).startFunctionIndex = m.startFunctionIndex ∧
      (maxMemoryInject m).tableSegments = m.tableSegments := by
  unfold maxMemoryInject
  split
  · exact ⟨rfl, rfl, rfl⟩
  · dsimp only
    split <;> exact ⟨rfl, rfl, rfl⟩

/-! ## Intrinsics in the order of their first use -/

/-- The intrinsics the bodies use, in the order of their first use; `use_gas` is imported before
any body is read. -/
def firstUses (m : Module) : List Intrinsic :=
  (useGasIntrinsic :: m.functions.defs.flatMap fun fd =>
    ((gasMeter m).upToBoundary fd.operators).filterMap replaced?).eraseDups

theorem foldl_use (used xs : List Intrinsic) :
    xs.foldl use used = used ++ (xs.filter fun x => x ∉ used).eraseDups := by
  induction xs generalizing used with
  | nil => simp
  | cons x xs ih =>
    rw [List.foldl_cons, ih, use]
    by_cases hx : x ∈ used
    · rw [if_pos hx, List.filter_cons_of_neg (by simpa using hx)]
    · rw [if_neg hx, List.filter_cons_of_pos (by simpa using hx), List.eraseDups_cons,
        List.filter_filter, List.append_assoc, List.singleton_append]
      have hfilter : (xs.filter fun y => y ∉ used ++ [x]) =
          xs.filter fun y => !y == x && decide (y ∉ used) := by
        refine List.filter_congr fun y _ => ?_
        by_cases hy : y ∈ used <;> by_cases hyx : y = x <;> simp [hy, hyx]
      rw [hfilter]

theorem foldl_useOp (used : List Intrinsic) (ops : List Operator) :
    ops.foldl useOp used = (ops.filterMap replaced?).foldl use used := by
  induction ops generalizing used with
  | nil => rfl
  | cons op ops ih =>
    rw [List.foldl_cons, ih, useOp]
    cases hx : replaced? op with
    | some x => rw [List.filterMap_cons_some hx, List.foldl_cons]
    | none => rw [List.filterMap_cons_none hx]

theorem usedIntrinsics_eq (m : Module) : usedIntrinsics m = firstUses m := by
  have hmetered : ∀ fd : FunctionDef, (meteredOps m fd).filterMap replaced? =
      ((gasMeter m).upToBoundary fd.operators).filterMap replaced? :=
    fun fd => Meter.filterMap_insert (fun _ => rfl) rfl fd.operators
  rw [usedIntrinsics, foldl_useOp, foldl_use, List.filterMap_flatMap, firstUses,
    List.eraseDups_cons, List.singleton_append]
  simp only [hmetered, List.mem_singleton]
  congr 3
  funext x
  by_cases hx : x = useGasIntrinsic <;> simp [hx]

/-! ## What the injection keeps -/

/-- What an operator calls through an index from `first` on. -/
def callee (m : Module) (first : Nat) : Operator → Option (Option Function)
  | .call functionIndex =>
    if first ≤ functionIndex.toNat then some (m.function? functionIndex.toNat) else none
  | _ => none

/-- What becomes of an operator of a metered body: charges and replaced operators become calls of
the imports that stand for them, other calls call the function they called, and the rest stays. -/
inductive SameOperator (m m' : Module) (k : Nat) : Operator → Operator → Prop
  | charge {index : UInt32} (hlt : index.toNat < k)
      (hfunction : m'.function? index.toNat = some useGasIntrinsic.function) :
      SameOperator m m' k (.call (useGasIndex m)) (.call index)
  | replaced {op : Operator} {x : Intrinsic} {index : UInt32} (hx : replaced? op = some x)
      (hlt : index.toNat < k) (hfunction : m'.function? index.toNat = some x.function) :
      SameOperator m m' k op (.call index)
  | call {index index' : UInt32} (hlt : index.toNat < m.functions.size) (hle : k ≤ index'.toNat)
      (hsame : m'.function? index'.toNat = m.function? index.toNat) :
      SameOperator m m' k (.call index) (.call index')
  | other {op : Operator} (hx : replaced? op = none) (hcall : ∀ index, op ≠ .call index) :
      SameOperator m m' k op op

structure SameExport (m m' : Module) (exp exp' : Export) : Prop where
  name : exp'.name = exp.name
  kind : exp'.kind = exp.kind
  function : exp.kind = .function → m'.function? exp'.index = m.function? exp.index
  other : exp.kind ≠ .function → exp'.index = exp.index

structure SameSegment (m m' : Module) (ts ts' : TableSegment) : Prop where
  tableIndex : ts'.tableIndex = ts.tableIndex
  baseOffset : ts'.baseOffset = ts.baseOffset
  entries : ts'.indices.map m'.function? = ts.indices.map m.function?

/-- The function indices of `m'` denote what those of `m` did, behind the imports `used`. -/
structure Remapped (m m' : Module) (used : List Intrinsic) : Prop where
  imports : m'.functions.imports.length = used.length + m.functions.imports.length
  injected : ∀ {i : Nat} {x : Intrinsic}, used[i]? = some x → m'.function? i = some x.function
  bodies : ∀ {place : Nat} {fd : FunctionDef}, m.functions.defs[place]? = some fd →
    ∃ ops, m'.bodies place = some ops ∧
      List.Forall₂ (SameOperator m m' used.length) (meteredOps m fd) ops ∧
      ops.filterMap (callee m' used.length) =
        ((gasMeter m).upToBoundary fd.operators).filterMap (callee m 0)
  exports : List.Forall₂ (SameExport m m') m.exports m'.exports
  start : m'.startFunctionIndex.map m'.function? = m.startFunctionIndex.map m.function?
  tableSegments : List.Forall₂ (SameSegment m m') m.tableSegments m'.tableSegments

/-- The indices the injection handed out differ from each other and from the indices of the
module's functions, and the last pass tells all of them apart. -/
structure TemporariesOk (m : Module) (used : List Intrinsic) (utils : InjectorUtils) : Prop where
  length : utils.registeredInjected.length = used.length
  nodup : (utils.registeredInjected.map Prod.snd).Nodup
  foreign : ∀ entry ∈ utils.registeredInjected, m.functions.size ≤ entry.2.toNat
  fixed : ∀ {i : Nat} {entry : Bytes × UInt32}, utils.registeredInjected[i]? = some entry →
    fixedIndex utils entry.2 = i.toUInt32
  original : ∀ {index : UInt32}, index.toNat < m.functions.size →
    (fixedIndex utils index).toNat = index.toNat + used.length

namespace Injected

variable {injection : Injection}

/-- An operator of a metered body and what the last two passes make of it. -/
theorem sameOperator (h : Injected m injection) (hm : Decoded m) (hvalid : ValidDefinitions m)
    {fd : FunctionDef} (hfd : fd ∈ m.functions.defs) {op : Operator} (hop : op ∈ meteredOps m fd) :
    SameOperator m injection.module (usedIntrinsics m).length op
      (rewrite m (usedIntrinsics m) op) := by
  unfold rewrite
  cases hx : replaced? op with
  | some x =>
    have hmem : x ∈ usedIntrinsics m :=
      mem_foldl_useOp (List.mem_flatMap.2 ⟨fd, hfd, hop⟩) hx [useGasIntrinsic]
    have hget := List.getElem?_eq_getElem (List.idxOf_lt_length_of_mem hmem)
    rw [List.getElem_idxOf] at hget
    refine .replaced hx ?_ ?_
    · rw [h.toNat_idxOf hmem]
      exact List.idxOf_lt_length_of_mem hmem
    · rw [h.toNat_idxOf hmem]
      exact h.function?_injected hget
  | none =>
    cases op with
    | call functionIndex =>
      by_cases hpay : functionIndex = useGasIndex m
      · obtain ⟨more, hmore⟩ := extend_usedIntrinsics m
        have hfirst : (usedIntrinsics m)[0]? = some useGasIntrinsic := by
          rw [← hmore]
          rfl
        simp only [if_pos hpay]
        rw [hpay]
        exact .charge (length_usedIntrinsics_pos m) (h.function?_injected hfirst)
      · have hlt : functionIndex.toNat < m.functions.size := by
          rcases Meter.mem_insert hop with hmem | hcharge | ⟨gas, hpush⟩
          · exact (accepted_of_decoded hm hfd).call_lt hmem
          · exact absurd (Operator.call.inj hcharge) hpay
          · cases hpush
        have hshifted := h.toNat_shifted hm hlt
        simp only [if_neg hpay]
        refine .call hlt ?_ ?_
        · rw [hshifted]
          exact Nat.le_add_left _ _
        · rw [hshifted]
          exact h.function?_original hvalid hlt
    | _ => exact .other hx nofun

/-- The original calls of a body call what they called. -/
theorem callee_rewrite (h : Injected m injection) (hm : Decoded m) (hvalid : ValidDefinitions m)
    {fd : FunctionDef} (hfd : fd ∈ m.functions.defs) :
    ((meteredOps m fd).map (rewrite m (usedIntrinsics m))).filterMap
        (callee injection.module (usedIntrinsics m).length) =
      ((gasMeter m).upToBoundary fd.operators).filterMap (callee m 0) := by
  let original : Operator → Option (Option Function) := fun op =>
    if op = .call (useGasIndex m) then none else callee m 0 op
  have hmetered : ∀ op ∈ meteredOps m fd,
      callee injection.module (usedIntrinsics m).length (rewrite m (usedIntrinsics m) op) =
        original op := by
    intro op hop
    have hsame := h.sameOperator hm hvalid hfd hop
    revert hsame
    generalize rewrite m (usedIntrinsics m) op = op'
    intro hsame
    cases hsame with
    | charge hlt hfunction => simp [original, callee, Nat.not_le.2 hlt]
    | replaced hx hlt hfunction =>
      cases op with
      | numeric op => simp [original, callee, Nat.not_le.2 hlt]
      | _ => cases hx
    | @call index index' hlt hle hsame =>
      have hne : ¬ Operator.call index = .call (useGasIndex m) := by
        intro heq
        rw [Operator.call.inj heq, toNat_useGasIndex hm] at hlt
        exact Nat.lt_irrefl _ hlt
      simp [original, callee, hle, hsame, if_neg hne]
    | other hx hcall =>
      cases op with
      | call index => exact absurd rfl (hcall index)
      | _ => simp [original, callee]
  have hpay := (accepted_of_decoded hm hfd).source.pay_notMem
  have hcharge : original (gasMeter m).pay = none := if_pos rfl
  rw [List.filterMap_map]
  calc (meteredOps m fd).filterMap _ = (meteredOps m fd).filterMap original :=
        List.filterMap_congr hmetered
    _ = ((gasMeter m).upToBoundary fd.operators).filterMap original :=
        Meter.filterMap_insert (fun _ => rfl) hcharge fd.operators
    _ = ((gasMeter m).upToBoundary fd.operators).filterMap (callee m 0) := by
        refine List.filterMap_congr fun op hop => if_neg ?_
        rintro rfl
        exact hpay (Meter.mem_of_mem_upToBoundary hop)

theorem shiftedBy (h : Injected m injection) :
    ShiftedBy (usedIntrinsics m).length (maxMemoryInject m) injection.module :=
  h.registered.shifted

theorem bodies_eq_some (h : Injected m injection) {place : Nat} {fd : FunctionDef}
    (hfd : m.functions.defs[place]? = some fd) :
    injection.module.bodies place =
      some ((meteredOps m fd).map (rewrite m (usedIntrinsics m))) := by
  rw [Module.bodies, h.defs, List.getElem?_map, hfd]
  exact operators?_encodeOps _

theorem remapped (h : Injected m injection) (hm : Decoded m) (hvalid : ValidDefinitions m) :
    Remapped m injection.module (usedIntrinsics m) := by
  have hother := maxMemoryInject_other m
  have hsame : ∀ {functionIndex}, functionIndex < m.functions.size →
      injection.module.function? (functionIndex + (usedIntrinsics m).length) =
        m.function? functionIndex := fun hlt => h.function?_original hvalid hlt
  refine ⟨h.length_imports, fun hx => h.function?_injected hx, ?_, ?_, ?_, ?_⟩
  · intro place fd hfd
    have hmem := List.mem_of_getElem? hfd
    refine ⟨_, h.bodies_eq_some hfd, ?_, h.callee_rewrite hm hvalid hmem⟩
    apply List.forall₂_map_right_iff.2
    apply List.forall₂_same.2
    intro op hop
    exact h.sameOperator hm hvalid hmem hop
  · rw [h.shiftedBy.exports, hother.1]
    apply List.forall₂_map_right_iff.2
    apply List.forall₂_same.2
    intro exp hexp
    by_cases hkind : exp.kind = .function
    · have hshift : shiftExport (usedIntrinsics m).length exp =
          { exp with index := exp.index + (usedIntrinsics m).length } := if_pos hkind
      rw [hshift]
      exact ⟨rfl, rfl, fun _ => hsame (hvalid.exportIndices exp hexp hkind),
        fun hnot => absurd hkind hnot⟩
    · have hshift : shiftExport (usedIntrinsics m).length exp = exp := if_neg hkind
      rw [hshift]
      exact ⟨rfl, rfl, fun h => absurd h hkind, fun _ => rfl⟩
  · rw [h.shiftedBy.startFunctionIndex, hother.2.1]
    cases hstart : m.startFunctionIndex with
    | none => rfl
    | some functionIndex =>
      have hlt := Module.lt_size_of_functionType? (hvalid.start functionIndex hstart)
      simp only [Option.map_some, hsame hlt]
  · rw [h.shiftedBy.tableSegments, hother.2.2]
    apply List.forall₂_map_right_iff.2
    apply List.forall₂_same.2
    intro ts hts
    refine ⟨rfl, rfl, ?_⟩
    rw [shiftSegment, List.map_map]
    apply List.map_congr_left
    intro functionIndex hentry
    exact hsame (hvalid.tableEntries ts hts functionIndex hentry)

theorem temporariesOk (h : Injected m injection) (hm : Decoded m) :
    TemporariesOk m (usedIntrinsics m) injection.utils := by
  have hsize := size_maxMemoryInject hm
  have hlength := h.length_used_le
  have hregistered := h.registered.registered
  refine ⟨?_, ?_, ?_, ?_, ?_⟩
  · rw [hregistered, List.length_mapIdx]
  · have hsnd : injection.utils.registeredInjected.map Prod.snd =
        (usedIntrinsics m).mapIdx fun i _ => temporary (maxMemoryInject m) i := by
      rw [hregistered, List.mapIdx_eq_zipIdx_map, List.mapIdx_eq_zipIdx_map, List.map_map]
      rfl
    rw [hsnd]
    exact nodup_temporary hsize h.registered.distinct
  · intro entry hmem
    rw [hregistered] at hmem
    obtain ⟨i, hi, rfl⟩ := List.mem_mapIdx.1 hmem
    dsimp only
    rw [toNat_temporary hsize (by omega), functions_maxMemoryInject]
    exact Nat.le_add_right _ _
  · intro i entry hentry
    rw [hregistered] at hentry
    obtain ⟨hi, rfl⟩ := List.getElem?_eq_some_iff.1 hentry
    rw [List.length_mapIdx] at hi
    simp only [List.getElem_mapIdx, fixedIndex, h.registered.find_mapping hsize hi]
  · intro index hlt
    have hnone : find injection.utils.injectedIndexMapping index = none := by
      apply h.registered.find_mapping_none hsize
      rw [functions_maxMemoryInject]
      exact .inl hlt
    have hcount : injection.utils.registeredInjected.length = (usedIntrinsics m).length := by
      rw [hregistered, List.length_mapIdx]
    simp only [fixedIndex, hnone, hcount]
    exact h.toNat_shifted hm hlt

end Injected

/-- The remapping of function indices keeps their meaning: the injected imports come first, in the
order of their first use; every call, export, start function and table entry denotes the function
it denoted; and the last pass confuses no index of the module with one the injection handed out. -/
theorem index_remapping_keeps_meaning (hdecode : decode bytes = .ok m) (caches : Caches) :
    ∃ injection caches', inject caches m = .ok (injection, caches') ∧
      Remapped m injection.module (firstUses m) ∧
      TemporariesOk m (firstUses m) injection.utils := by
  have hm := Decoded.of_decode hdecode
  have hvalid := ValidDefinitions.of_validate hm.definitions
  obtain ⟨injection, caches', hinject, h⟩ := injected_of_decoded hm caches
  rw [← usedIntrinsics_eq]
  exact ⟨injection, caches', hinject, h.remapped hm hvalid, h.temporariesOk hm⟩

theorem index_remapping_keeps_meaning_sample :
    ∃ injection caches', inject .initial sampleModule = .ok (injection, caches') ∧
      Remapped sampleModule injection.module (firstUses sampleModule) ∧
      injection.module.exports = [⟨str "f", .function, 3⟩] ∧
      (firstUses sampleModule).map Intrinsic.name = [str "use_gas", str "_eosio_f32_add"] := by
  obtain ⟨injection, caches', hinject, hremapped, -⟩ :=
    index_remapping_keeps_meaning decode_sampleBytes .initial
  have heval : ((inject .initial sampleModule).map fun result =>
      result.1.module.exports).toOption = some [⟨str "f", .function, 3⟩] := by decide +kernel
  rw [hinject] at heval
  exact ⟨injection, caches', hinject, hremapped, Option.some.inj heval, by decide +kernel⟩

end WasmInjections

end FractalWasm
