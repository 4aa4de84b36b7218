import FractalWasm.IR.ValidationErrors
import FractalWasm.Wasmlib.AddedTypes
import FractalWasm.Wasmlib.Instrumented
import FractalWasm.Wasmlib.WellTyped

/-!
# Injected modules under the decoder's limits

The decoder limits the imports, the types and the size of a body, and the injection adds to all
three. A contract that is within the limits may be outside them once it is injected; it is known in
advance which are.

**Sizes** (`operatorSize`, `codeSizeFrom`): the bytes of a body once it is instrumented and encoded,
computed operator by operator, in front of the injection.

**Room** (`RoomForInjection`): the imports, the types and the bodies after the injection stay within
the limits of the decoder. It decides whether the instrumented contract is decoded.
-/

namespace FractalWasm

open Codec Control IR Serialization WASM

namespace WasmInjections

variable {m : Module}

/-! ## What the injection needs -/

/-- The bytes of what becomes of an operator. -/
def operatorSize (m : Module) (fd : FunctionDef) (op : Operator) : Nat :=
  Writer.size (Output.serializeOperator fd.branchTables (rewrite m (firstUses m) op))

/-- The bytes of a charge. -/
def chargeSize (gas : Nat) : Nat :=
  if 0 < gas then
    Writer.size (Output.serializeOperator [] (.i64Const gas.toUInt64)) +
      Writer.size (Output.serializeOperator [] (.call 0))
  else 0

/-- The bytes of the injected code of `fd` from a place on where the segment at hand has cost `gas`
and takes `pending` bytes. -/
def codeSizeFrom (m : Module) (fd : FunctionDef) : (gas pending : Nat) → List Operator → Nat
  | _, _, [] => 0
  | gas, pending, op :: ops =>
    let gas := gas + gasTable op.opcode.code
    let pending := pending + operatorSize m fd op
    if endsSegment (some op.opcode) then chargeSize gas + pending + codeSizeFrom m fd 0 0 ops
    else codeSizeFrom m fd gas pending ops

/-- The bytes of the locals of a body. -/
def localsSize (fd : FunctionDef) : Nat :=
  let localSets := Output.localSets fd.nonParameterLocalTypes
  Writer.size (Serialization.Output.serializeVarUInt32 localSets.length) +
    Writer.size (Writer.concat (localSets.map Output.serializeLocalSet))

/-- The size of the body of `fd` after the injection. -/
def instrumentedSize (m : Module) (fd : FunctionDef) : Nat :=
  localsSize fd + codeSizeFrom m fd 0 0 fd.operators

/-- There is room in `m` for what the injection adds. A body that is too large does not count if
the decoder refuses one in front of it for its code. -/
structure RoomForInjection (m : Module) : Prop where
  functionImports :
    m.functions.imports.length + (firstUses m).length < maximumSectionElements
  types : m.types.length + (newTypes m).length < maximumFuncLocalBytes
  bodies : ∀ before fd after, m.functions.defs = before ++ fd :: after →
    (∀ earlier ∈ before, earlier.code ≠ [] ∧ ChargedInside earlier) →
      instrumentedSize m fd < maximumCodeSize

/-! ## The size of an injected body -/

/-- The bytes of an injected operator. -/
def injectedSize (m : Module) (fd : FunctionDef) (op : Operator) : Nat :=
  Writer.size (Output.serializeOperator fd.branchTables (rewrite m (usedIntrinsics m) op))

theorem sum_charge (m : Module) (fd : FunctionDef) (gas : Nat) :
    (((gasMeter m).charge gas).map (injectedSize m fd)).sum = chargeSize gas := by
  have hpay : rewrite m (usedIntrinsics m) (.call (useGasIndex m)) = .call 0 := if_pos rfl
  have hcall : injectedSize m fd (.call (useGasIndex m)) =
      Writer.size (Output.serializeOperator [] (.call 0)) := by
    rw [injectedSize, hpay]
    rfl
  unfold Meter.charge chargeSize
  split
  · rw [List.map_cons, List.map_cons, List.map_nil, List.sum_cons, List.sum_cons, List.sum_nil,
      Nat.add_zero]
    exact congrArg (_ + ·) hcall
  · rfl

theorem sum_insertFrom (fd : FunctionDef) {ops : List Operator} (hpay : (gasMeter m).pay ∉ ops)
    (gas : Nat) (buffer : List Operator) :
    (((gasMeter m).insertFrom gas buffer ops).map (injectedSize m fd)).sum =
      codeSizeFrom m fd gas (buffer.map (injectedSize m fd)).sum ops := by
  induction ops generalizing gas buffer with
  | nil => rfl
  | cons op ops ih =>
    have hne : op ≠ .call (useGasIndex m) := fun heq => hpay (heq ▸ List.mem_cons_self)
    have hrest : (gasMeter m).pay ∉ ops := fun hmem => hpay (List.mem_cons_of_mem op hmem)
    have hcost : (gasMeter m).cost op = gasTable op.opcode.code := if_neg hne
    have hsize : injectedSize m fd op = operatorSize m fd op := by
      rw [injectedSize, operatorSize, usedIntrinsics_eq]
    unfold Meter.insertFrom codeSizeFrom
    have hboundary : (gasMeter m).boundary op = endsSegment (some op.opcode) := rfl
    rw [hboundary, hcost]
    dsimp only
    split
    · simp only [List.map_append, List.map_cons, List.sum_append, List.sum_cons, sum_charge,
        ih hrest, hsize, List.map_nil, List.sum_nil]
      omega
    · rw [ih hrest]
      simp only [List.map_append, List.map_cons, List.map_nil, List.sum_append, List.sum_cons,
        List.sum_nil, Nat.add_zero, hsize]

theorem length_of_serializeBody {fd : FunctionDef} {ops : List Operator}
    (hcode : fd.code = encodeOps ops) {bodyBytes : Bytes}
    (hw : Output.serializeBody fd = .ok bodyBytes) :
    bodyBytes.length = localsSize fd +
      (ops.map fun op => Writer.size (Output.serializeOperator fd.branchTables op)).sum := by
  obtain ⟨counts, rest, hcounts, hrest, rfl⟩ := Writer.concat_cons_eq_ok.1 hw
  obtain ⟨sets, rest', hsets, hrest', rfl⟩ := Writer.concat_cons_eq_ok.1 hrest
  obtain ⟨code, last, hops, hlast, rfl⟩ := Writer.concat_cons_eq_ok.1 hrest'
  obtain rfl := Except.ok.inj hlast
  have hlength : 2 * ops.length ≤ (encodeOps ops).length := length_le_length_encodeOps ops
  rw [hcode, serializeCode_encodeOps fd.branchTables (by omega)] at hops
  have hsize := Writer.length_of_concat hops
  rw [List.map_map] at hsize
  simp only [List.length_append, List.length_nil, Nat.add_zero, localsSize, hcounts, hsets,
    Writer.size, hsize, Nat.add_assoc]
  rfl

/-- A body that can be written takes as many bytes as the prediction says. -/
theorem length_serializeBody (hm : Decoded m) {fd : FunctionDef} (hfd : fd ∈ m.functions.defs)
    {bodyBytes : Bytes}
    (hw : Output.serializeBody
      (fd.withOperators ((meteredOps m fd).map (rewrite m (usedIntrinsics m)))) = .ok bodyBytes) :
    bodyBytes.length = instrumentedSize m fd := by
  have hpay := (accepted_of_decoded hm hfd).source.pay_notMem
  have hlocals : localsSize (fd.withOperators
      ((meteredOps m fd).map (rewrite m (usedIntrinsics m)))) = localsSize fd := rfl
  rw [length_of_serializeBody rfl hw, hlocals, List.map_map, instrumentedSize]
  exact congrArg (localsSize fd + ·) (sum_insertFrom fd hpay 0 [])

/-- An encoded module has encoded bodies. -/
theorem serializeBody_of_encode {module : Module} {out : Bytes} (hw : encode module = .ok out)
    {fd : FunctionDef} (hfd : fd ∈ module.functions.defs) :
    ∃ bodyBytes, Output.serializeBody fd = .ok bodyBytes := by
  have hpresent : decide (module.functions.defs.length > 0) = true :=
    decide_eq_true (List.length_pos_of_mem hfd)
  obtain ⟨code, hcode⟩ := Writer.mem_of_concat (w := Output.optional
    (module.functions.defs.length > 0) (Output.serializeCodeSection module)) hw (by simp)
  rw [Output.optional, if_pos hpresent] at hcode
  obtain ⟨sectionBytes, hsection, -⟩ := Except.bind_eq_ok.1 hcode
  obtain ⟨num, rest, -, hrest, -⟩ := Writer.concat_cons_eq_ok.1 hsection
  obtain ⟨bodies, last, hbodies, -, -⟩ := Writer.concat_cons_eq_ok.1 hrest
  obtain ⟨body, hbody⟩ := Writer.mem_of_concat hbodies (List.mem_map_of_mem hfd)
  obtain ⟨bodyBytes, hbodyBytes, -⟩ := Except.bind_eq_ok.1 hbody
  exact ⟨bodyBytes, hbodyBytes⟩

theorem serializeBody_injected {injection : Injection} (h : Injected m injection) {out : Bytes}
    (hw : encode injection.module = .ok out) {fd : FunctionDef} (hfd : fd ∈ m.functions.defs) :
    ∃ bodyBytes, Output.serializeBody
      (fd.withOperators ((meteredOps m fd).map (rewrite m (usedIntrinsics m)))) =
        .ok bodyBytes := by
  apply serializeBody_of_encode hw
  rw [h.defs]
  exact List.mem_map_of_mem hfd

/-- The decoder's limit on an injected body. -/
theorem smallBody_iff {injection : Injection} (h : Injected m injection) (hm : Decoded m)
    {out : Bytes} (hw : encode injection.module = .ok out) {fd : FunctionDef}
    (hfd : fd ∈ m.functions.defs) :
    SmallBody (fd.withOperators ((meteredOps m fd).map (rewrite m (usedIntrinsics m)))) ↔
      instrumentedSize m fd < maximumCodeSize := by
  obtain ⟨bodyBytes, hbody⟩ := serializeBody_injected h hw hfd
  constructor
  · intro hsmall
    rw [← length_serializeBody hm hfd hbody]
    exact hsmall bodyBytes hbody
  · intro hlt bodyBytes' hbody'
    rwa [length_serializeBody hm hfd hbody']

/-! ## The second decoding -/

namespace Injected

variable {injection : Injection}

/-- A signature of an intrinsic, and the intrinsic's name, are short. -/
theorem short_known {x : Intrinsic} (hx : x ∈ knownIntrinsics) :
    x.type.parameters.length < maximumFuncLocalBytes ∧
      x.name.length < maximumFuncLocalBytes := by
  have hall : knownIntrinsics.all fun x =>
      decide (x.type.parameters.length < 3 ∧ x.name.length < 30) := by
    decide +kernel
  have hshort := of_decide_eq_true (List.all_eq_true.1 hall x hx)
  unfold maximumFuncLocalBytes
  omega

/-- The decoder accepts the code of an injected body. -/
theorem accepted_iff (h : Injected m injection) (hm : Readable m) {fd : FunctionDef}
    (hfd : fd ∈ m.functions.defs) :
    WASM.Accepted injection.module
        (fd.withOperators ((meteredOps m fd).map (rewrite m (usedIntrinsics m)))) ↔
      fd.code ≠ [] ∧ ChargedInside fd := by
  have hwell := wellFormedBody_rewrite (m := m) (hm.bodies fd hfd) (usedIntrinsics m)
  have haccepted : WASM.Accepted injection.module
      (fd.withOperators ((meteredOps m fd).map (rewrite m (usedIntrinsics m)))) ↔
        (fd.withOperators ((meteredOps m fd).map (rewrite m (usedIntrinsics m)))).Accepts
          injection.module ((meteredOps m fd).map (rewrite m (usedIntrinsics m))) := by
    constructor
    · rintro ⟨ops, hops, haccepts⟩
      have hsame : ops = (meteredOps m fd).map (rewrite m (usedIntrinsics m)) :=
        encodeOps_injective (hops.code.symm.trans hwell.code)
      rwa [← hsame]
    · exact fun haccepts => ⟨_, hwell, haccepts⟩
  rw [haccepted]
  rcases hm.decoded.bodiesAccepted fd hfd with hnil | ⟨ops, hcode, -, haccepts⟩
  · have hops : fd.operators = [] := FunctionDef.operators_of_code hnil
    simp only [hnil, ne_eq, not_true, false_and, iff_false, meteredOps, hops]
    rintro ⟨context, hvisit, hdone⟩
    obtain ⟨-, rfl⟩ := pure_eq_ok.1 hvisit
    cases hdone
  · rw [← FunctionDef.operators_of_code hcode] at haccepts
    have hne : fd.code ≠ [] := by
      intro hnil
      have hops : fd.operators = [] := FunctionDef.operators_of_code hnil
      rw [hops] at haccepts
      obtain ⟨context, hvisit, hdone⟩ := haccepts
      obtain ⟨-, rfl⟩ := pure_eq_ok.1 hvisit
      cases hdone
    rw [h.accepts_iff hm.decoded hfd haccepts]
    exact ⟨fun hinside => ⟨hne, hinside⟩, fun hboth => hboth.2⟩

/-- With room for what is added, the injected module is within the limits on counts. -/
theorem moduleWithin (h : Injected m injection) (hm : Readable m) {caches caches' : Caches}
    (hinject : inject caches m = .ok (injection, caches')) (hroom : RoomForInjection m) :
    ModuleWithin injection.module := by
  have hvalid := ValidDefinitions.of_validate hm.decoded.definitions
  have hwithin := hm.spellable.within hm.decoded.bounded
  have hshifted := h.shiftedBy
  have htables : injection.module.tables = m.tables := by
    rw [hshifted.tables, maxMemoryInject_eq]
  have hglobals : injection.module.globals = m.globals := by
    rw [hshifted.globals, maxMemoryInject_eq]
  have hexports : injection.module.exports =
      m.exports.map (shiftExport (usedIntrinsics m).length) := by
    rw [hshifted.exports, maxMemoryInject_eq]
  have hsegments : injection.module.tableSegments =
      m.tableSegments.map (shiftSegment (usedIntrinsics m).length) := by
    rw [hshifted.tableSegments, maxMemoryInject_eq]
  exact
    { types := by
        rw [length_types hinject h hvalid]
        exact hroom.types
      parameters := by
        intro type hmem
        obtain ⟨more, htypes, hperm⟩ := exists_perm_newTypes hinject h hvalid
        rw [htypes] at hmem
        rcases List.mem_append.1 hmem with hmem | hmem
        · exact hwithin.parameters type hmem
        · have hnew := (List.mem_filter.1 (hperm.mem_iff.1 hmem)).1
          obtain ⟨x, hx, rfl⟩ := List.mem_map.1 (List.mem_dedup.1 hnew)
          rw [← usedIntrinsics_eq] at hx
          exact (short_known (h.registered.distinct.known x hx)).1
      functionImports := by
        rw [h.length_imports, usedIntrinsics_eq, Nat.add_comm]
        exact hroom.functionImports
      functionNames := by
        intro imp himp
        rcases h.mem_imports himp with hmem | ⟨x, hx, himport⟩
        · exact hwithin.functionNames imp hmem
        · refine ⟨?_, ?_⟩
          · rw [himport.moduleName]
            decide +kernel
          · rw [himport.exportName]
            exact (short_known (h.registered.distinct.known x hx)).2
      tableNames := htables ▸ hwithin.tableNames
      memoryNames := h.memories ▸ hwithin.memoryNames
      globalNames := hglobals ▸ hwithin.globalNames
      functionDefs := by
        rw [h.defs, List.length_map]
        exact hwithin.functionDefs
      tables := htables ▸ hwithin.tables
      memories := by
        have hlength : (clampFirst m.memories.defs).length = m.memories.defs.length := by
          cases m.memories.defs <;> rfl
        rw [h.memories, hlength]
        exact hwithin.memories
      globals := hglobals ▸ hwithin.globals
      exports := by
        rw [hexports, List.length_map]
        exact hwithin.exports
      exportNames := by
        rw [hexports]
        intro exp hmem
        obtain ⟨original, horiginal, rfl⟩ := List.mem_map.1 hmem
        have hname : (shiftExport (usedIntrinsics m).length original).name = original.name := by
          unfold shiftExport
          split <;> rfl
        rw [hname]
        exact hwithin.exportNames original horiginal
      tableSegments := by
        rw [hsegments, List.length_map]
        exact hwithin.tableSegments
      indices := by
        rw [hsegments]
        intro segment hmem
        obtain ⟨original, horiginal, rfl⟩ := List.mem_map.1 hmem
        rw [shiftSegment, List.length_map]
        exact hwithin.indices original horiginal
      dataSegments := by
        rw [h.dataSegments]
        exact hwithin.dataSegments
      data := by
        rw [h.dataSegments]
        exact hwithin.data }

/-- How the second decoding goes through the bodies. With `E` being whatever it may fail with, each
body it gets to is small enough, or limits are in `E`; and its code is accepted, or the errors of
the validator are in `E`. -/
theorem bodiesRead (h : Injected m injection) (hm : Readable m)
    (hwithin : ∀ fd ∈ m.functions.defs, BodyWithin fd) {out : Bytes}
    (hw : encode injection.module = .ok out) {E : Exception → Prop}
    (hbodies : ∀ before fd after, m.functions.defs = before ++ fd :: after →
      (∀ earlier ∈ before, (earlier.code ≠ [] ∧ ChargedInside earlier) ∧
        instrumentedSize m earlier < maximumCodeSize) →
      Within E (instrumentedSize m fd < maximumCodeSize) ∧
        (instrumentedSize m fd < maximumCodeSize →
          (fd.code ≠ [] ∧ ChargedInside fd) ∨ ∀ e, IsInvalid e → E e)) :
    BodiesRead E injection.module injection.module.functions.defs := by
  intro before' fd' after' hdefs' hearlier'
  rw [h.defs] at hdefs'
  obtain ⟨before, rest, hdefs, hbefore, hrest⟩ := List.map_eq_append_iff.1 hdefs'
  obtain ⟨fd, after, rfl, rfl, rfl⟩ := List.map_eq_cons_iff.1 hrest
  subst hbefore
  have hfd : fd ∈ m.functions.defs := by simp [hdefs]
  have hwell := wellFormedBody_rewrite (m := m) (hm.bodies fd hfd) (usedIntrinsics m)
  have hearlier : ∀ earlier ∈ before, (earlier.code ≠ [] ∧ ChargedInside earlier) ∧
      instrumentedSize m earlier < maximumCodeSize := by
    intro earlier hmem
    have hearlierDef : earlier ∈ m.functions.defs := by simp [hdefs, hmem]
    obtain ⟨haccepted, hsmall⟩ := hearlier' _ (List.mem_map_of_mem hmem)
    exact ⟨(h.accepted_iff hm hearlierDef).1 haccepted,
      (smallBody_iff h hm.decoded hw hearlierDef).1 hsmall⟩
  obtain ⟨hsize, hvalid⟩ := hbodies before fd after hdefs hearlier
  refine ⟨_, hwell, hsize.imp fun hlt => ?_, fun hsmall e herror => ?_⟩
  · have hbody := hwithin fd hfd
    exact ⟨hbody.localSets, hbody.localTypes, hbody.branchTables,
      (smallBody_iff h hm.decoded hw hfd).2 hlt⟩
  · rcases hvalid ((smallBody_iff h hm.decoded hw hfd).1 hsmall) with hinside | hinvalid
    · obtain ⟨ops, hops, haccepts⟩ := (h.accepted_iff hm hfd).2 hinside
      have hsame := encodeOps_injective (hops.code.symm.trans hwell.code)
      rw [hsame, FunctionDef.accepts_iff_validateCode, herror] at haccepts
      cases haccepts
    · exact hinvalid e ((errors_validateCode _ hwell.branchTable_lt).holds herror)

theorem not_isLimit_of_isInvalid {e : Exception} (h : IsInvalid e) : ¬ IsLimit e := by
  intro hlimit
  cases h
  cases hlimit

/-- The second decoding does not fail for a limit if there is room for the injection. -/
theorem not_isLimit_of_room (h : Injected m injection) (hm : Readable m)
    (hwithin : ∀ fd ∈ m.functions.defs, BodyWithin fd) {caches caches' : Caches}
    (hinject : inject caches m = .ok (injection, caches')) {out : Bytes}
    (hw : encode injection.module = .ok out) (hroom : RoomForInjection m) {e : Exception}
    (herror : decode out = .error e) : ¬ IsLimit e := by
  have hbodies : BodiesRead (fun e => ¬ IsLimit e) injection.module
      injection.module.functions.defs := by
    apply h.bodiesRead hm hwithin hw
    intro before fd after hdefs hearlier
    have hlt := hroom.bodies before fd after hdefs fun earlier hmem => (hearlier earlier hmem).1
    exact ⟨.inl hlt, fun _ => .inr fun e hinvalid => not_isLimit_of_isInvalid hinvalid⟩
  rcases decode_encode_counted (h.wellFormed hm) (.inl (h.moduleWithin hm hinject hroom))
    (fun _ => hbodies) hw with ⟨hdecode, -⟩ | ⟨e', herror', he'⟩
  · rw [hdecode] at herror
    cases hdefinitions : validateDefinitions injection.module with
    | ok u =>
      rw [hdefinitions] at herror
      cases herror
    | error e' =>
      rw [hdefinitions] at herror
      cases herror
      exact not_isLimit_of_isInvalid ((errors_validateDefinitions _).holds hdefinitions)
  · rw [herror'] at herror
    cases herror
    exact he'

/-- Of two elements of a list one stands in front of the other, or they are the same. -/
theorem eq_or_mem_of_append_cons_eq {α : Type} {before before' after after' : List α} {a a' : α}
    (h : before ++ a :: after = before' ++ a' :: after') : a' = a ∨ a ∈ before' ∨ a' ∈ before := by
  rcases List.append_eq_append_iff.1 h with ⟨between, rfl, hrest⟩ | ⟨between, rfl, hrest⟩
  · cases between with
    | nil => exact .inl (List.cons.inj hrest).1.symm
    | cons first between =>
      obtain ⟨rfl, -⟩ := List.cons.inj hrest
      exact .inr (.inl (by simp))
  · cases between with
    | nil => exact .inl (List.cons.inj hrest).1
    | cons first between =>
      obtain ⟨rfl, -⟩ := List.cons.inj hrest
      exact .inr (.inr (by simp))

/-- There was room for the injection if the second decoding does not fail for a limit. -/
theorem room_of_not_isLimit (h : Injected m injection) (hm : Readable m)
    (hwithin : ∀ fd ∈ m.functions.defs, BodyWithin fd) {caches caches' : Caches}
    (hinject : inject caches m = .ok (injection, caches')) {out : Bytes}
    (hw : encode injection.module = .ok out)
    (hfine : ∀ e, decode out = .error e → ¬ IsLimit e) : RoomForInjection m := by
  have hvalid := ValidDefinitions.of_validate hm.decoded.definitions
  have hread : (Counted injection.module →
      BodiesRead IsLimit injection.module injection.module.functions.defs) →
      Counted injection.module ∧ ∀ fd ∈ injection.module.functions.defs,
        BodyRead injection.module fd := by
    intro hbodies
    rcases decode_encode_counted (h.wellFormed hm) (.inr fun _ hlimit => hlimit) hbodies hw with
      ⟨-, hread⟩ | ⟨e, herror, hlimit⟩
    · exact hread
    · exact absurd hlimit (hfine e herror)
  refine ⟨?_, ?_, ?_⟩
  · apply Nat.lt_of_not_le
    intro hle
    have hnot : ¬ Counted injection.module := by
      intro hcounted
      have hlt := hcounted.functionImports
      rw [h.length_imports, usedIntrinsics_eq] at hlt
      omega
    exact hnot (hread fun hcounted => absurd hcounted hnot).1
  · apply Nat.lt_of_not_le
    intro hle
    have hnot : ¬ Counted injection.module := by
      intro hcounted
      have hlt := hcounted.types
      rw [length_types hinject h hvalid] at hlt
      omega
    exact hnot (hread fun hcounted => absurd hcounted hnot).1
  · intro before fd after hdefs hearlier
    apply Nat.lt_of_not_le
    intro hle
    -- The decoder gets to the body at hand, and no further.
    have hbodies : BodiesRead IsLimit injection.module injection.module.functions.defs := by
      apply h.bodiesRead hm hwithin hw
      intro before₁ fd₁ after₁ hdefs₁ hearlier₁
      refine ⟨.inr fun _ hlimit => hlimit, fun hlt => .inl ?_⟩
      rw [hdefs] at hdefs₁
      rcases eq_or_mem_of_append_cons_eq hdefs₁ with rfl | hbehind | hbefore
      · omega
      · have hsmall := (hearlier₁ fd hbehind).2
        omega
      · exact hearlier fd₁ hbefore
    have hfd : fd ∈ m.functions.defs := by simp [hdefs]
    have hmem : fd.withOperators ((meteredOps m fd).map (rewrite m (usedIntrinsics m))) ∈
        injection.module.functions.defs := by
      rw [h.defs]
      exact List.mem_map_of_mem hfd
    have hsmall := (smallBody_iff h hm.decoded hw hfd).1 ((hread fun _ => hbodies).2 _ hmem).2
    omega

end Injected

/-- The bodies of a decoded module are within the decoder's limits. -/
theorem bodyWithin_of_decode {bytes : Bytes} (hdecode : decode bytes = .ok m) :
    ∀ fd ∈ m.functions.defs, BodyWithin fd := by
  obtain ⟨last, hrewritable⟩ := rewritable_of_decode hdecode
  have hvalid := ValidDefinitions.of_validate (Decoded.of_decode hdecode).definitions
  by_cases hdeclared : Declared m.functions.defs
  · intro fd hfd
    rw [hdeclared fd hfd]
    refine ⟨?_, ?_, ?_, ?_⟩
    · exact (by decide : (0 : Nat) < 1024)
    · exact Nat.zero_le _
    · exact fun _ hmem => absurd hmem List.not_mem_nil
    · intro bodyBytes hbody
      have hempty : Output.serializeBody ⟨0, [], [], []⟩ = .ok [0] := by decide +kernel
      obtain rfl := Except.ok.inj (hempty.symm.trans hbody)
      decide
  · exact (hrewritable.bodies hdeclared hvalid.localTypes).within

theorem instrumentedSize_withoutUserSections (m : Module) (fd : FunctionDef) :
    instrumentedSize m.withoutUserSections fd = instrumentedSize m fd := by
  have hsize : operatorSize m.withoutUserSections fd = operatorSize m fd := rfl
  have hcode : ∀ gas pending ops, codeSizeFrom m.withoutUserSections fd gas pending ops =
      codeSizeFrom m fd gas pending ops := by
    intro gas pending ops
    induction ops generalizing gas pending with
    | nil => rfl
    | cons op ops ih => simp only [codeSizeFrom, hsize, ih]
  rw [instrumentedSize, instrumentedSize, hcode]

/-- **Limits.** The bytes of an injected contract are within the limits of the decoder if and only if
the contract had room for the injection. -/
theorem injection_within_limits_iff {bytes : Bytes} (hdecode : decode bytes = .ok m)
    {caches caches' : Caches} {injection : Injection}
    (hinject : inject caches m.withoutUserSections = .ok (injection, caches')) {out : Bytes}
    (hencode : encode injection.module = .ok out) :
    (∀ e, decode out = .error e → ¬ IsLimit e) ↔ RoomForInjection m := by
  have hm := readable_of_decode hdecode
  have hwithin : ∀ fd ∈ m.withoutUserSections.functions.defs, BodyWithin fd :=
    @bodyWithin_of_decode m bytes hdecode
  have hroom : RoomForInjection m.withoutUserSections ↔ RoomForInjection m := by
    constructor
    · intro h
      refine ⟨h.functionImports, h.types, fun before fd after hdefs hearlier => ?_⟩
      rw [← instrumentedSize_withoutUserSections]
      exact h.bodies before fd after hdefs hearlier
    · intro h
      refine ⟨h.functionImports, h.types, fun before fd after hdefs hearlier => ?_⟩
      rw [instrumentedSize_withoutUserSections]
      exact h.bodies before fd after hdefs hearlier
  obtain ⟨injection', caches'', hinject', h⟩ := injected_of_decoded hm.decoded caches
  rw [hinject] at hinject'
  cases hinject'
  rw [← hroom]
  constructor
  · exact h.room_of_not_isLimit hm hwithin hinject hencode
  · exact fun hroom e => h.not_isLimit_of_room hm hwithin hinject hencode hroom

theorem injection_within_limits_sample :
    ∃ injection caches' out, inject .initial sampleModule = .ok (injection, caches') ∧
      encode injection.module = .ok out ∧ ∀ e, decode out = .error e → ¬ IsLimit e := by
  have hm := Decoded.of_decode decode_sampleBytes
  obtain ⟨injection, caches', hinject, -⟩ := injected_of_decoded hm .initial
  have hencoded : ((inject .initial sampleModule).toOption.map
      fun result => (encode result.1.module).toOption.isSome) = some true := by decide +kernel
  rw [hinject] at hencoded
  obtain ⟨out, hout⟩ := Option.isSome_iff_exists.1 (Option.some.inj hencoded)
  have hencode := Except.toOption_eq_some.1 hout
  refine ⟨injection, caches', out, hinject, hencode, ?_⟩
  apply (injection_within_limits_iff decode_sampleBytes hinject hencode).2
  refine ⟨by decide +kernel, by decide +kernel, fun before fd after hdefs _ => ?_⟩
  have hall : ∀ fd ∈ sampleModule.functions.defs,
      instrumentedSize sampleModule fd < maximumCodeSize := by decide +kernel
  exact hall fd (by simp [hdefs])

/-! ## A module without room -/

section Importing

/-- A module that imports functions and has nothing else. -/
def importing (types : List FunctionType) (imports : List (Import Nat)) : Module :=
  { Module.empty with types, functions := ⟨imports, []⟩ }

variable {types : List FunctionType} {imports : List (Import Nat)}

theorem wellFormed_importing (hnames : ∀ imp ∈ imports, ValidNames imp)
    (htypes : ∀ imp ∈ imports, imp.type < types.length) :
    WellFormed (importing types imports) where
  userSections := rfl
  functionImports := hnames
  tableImports := nofun
  memoryImports := nofun
  globalImports := nofun
  tables := nofun
  memories := nofun
  importTypes := htypes
  defTypes := nofun

theorem moduleWithin_importing (htypes : types.length < maximumFuncLocalBytes)
    (hparameters : ∀ type ∈ types, type.parameters.length < maximumFuncLocalBytes)
    (hlength : imports.length < maximumSectionElements) (hshort : ∀ imp ∈ imports, ShortNames imp) :
    ModuleWithin (importing types imports) where
  types := htypes
  parameters := hparameters
  functionImports := hlength
  functionNames := hshort
  tableNames := nofun
  memoryNames := nofun
  globalNames := nofun
  functionDefs := Nat.zero_lt_of_lt hlength
  tables := Nat.zero_lt_of_lt htypes
  memories := Nat.zero_lt_of_lt htypes
  globals := Nat.zero_lt_of_lt htypes
  exports := Nat.zero_lt_of_lt htypes
  exportNames := nofun
  tableSegments := Nat.zero_lt_of_lt htypes
  indices := nofun
  dataSegments := Nat.zero_lt_of_lt htypes
  data := nofun

/-- The bytes of the module, given those of its types and imports and of the counts. -/
theorem encode_importing {typeBytes importBytes num size : Bytes} (htypesPos : types ≠ [])
    (himportsPos : imports ≠ [])
    (htypes : Output.serializeTypeSection (importing types imports) = .ok typeBytes)
    (himports : Writer.concat (imports.map
      (Output.serializeImport .function Serialization.Output.serializeVarUInt32)) =
        .ok importBytes)
    (hnum : Serialization.Output.serializeVarUInt32 imports.length = .ok num)
    (hsize : Serialization.Output.serializeVarUInt32 (num ++ importBytes).length = .ok size) :
    encode (importing types imports) =
      .ok ([0x00, 0x61, 0x73, 0x6d, 1, 0, 0, 0] ++
        (typeBytes ++ (2 :: (size ++ (num ++ importBytes))))) := by
  have hcontents : Writer.concat [Serialization.Output.serializeVarUInt32 imports.length,
      Writer.concat (imports.map
        (Output.serializeImport .function Serialization.Output.serializeVarUInt32)),
      .ok [], .ok [], .ok []] = .ok (num ++ importBytes) := by
    refine Writer.concat_cons_eq_ok.2 ⟨num, importBytes, hnum, ?_, rfl⟩
    exact Writer.concat_cons_eq_ok.2 ⟨importBytes, [], himports, rfl, List.append_nil _⟩
  have hsection : Output.serializeImportSection (importing types imports) =
      .ok (2 :: (size ++ (num ++ importBytes))) := by
    refine Except.bind_eq_ok.2 ⟨_, hcontents, ?_⟩
    refine Writer.concat_cons_eq_ok.2 ⟨[2], _, rfl, ?_, rfl⟩
    refine Writer.concat_cons_eq_ok.2 ⟨size, _, hsize, ?_, rfl⟩
    exact Writer.concat_cons_eq_ok.2 ⟨_, [], rfl, rfl, List.append_nil _⟩
  have hsomeTypes : decide ((importing types imports).types.length > 0) = true :=
    decide_eq_true (List.length_pos_iff.2 htypesPos)
  have hsomeImports : decide (Output.numImports (importing types imports) > 0) = true :=
    decide_eq_true (List.length_pos_iff.2 himportsPos)
  refine Writer.concat_cons_eq_ok.2 ⟨[0x00, 0x61, 0x73, 0x6d], _, by decide, ?_, rfl⟩
  refine Writer.concat_cons_eq_ok.2 ⟨[1, 0, 0, 0], _, by decide, ?_, rfl⟩
  refine Writer.concat_cons_eq_ok.2 ⟨typeBytes, _, ?_, ?_, rfl⟩
  · rw [Output.optional, if_pos hsomeTypes, htypes]
  refine Writer.concat_cons_eq_ok.2 ⟨_, [], ?_, rfl, List.append_nil _⟩
  rw [Output.optional, if_pos hsomeImports, hsection]

end Importing

/-- As many imports as the decoder allows. -/
def fullImports : List (Import Nat) := List.replicate 1023 ⟨0, str "env", str "abort"⟩

def fullModule : Module := importing [⟨.none, []⟩] fullImports

/-- The bytes of one of the imports. -/
def abortBytes : Bytes := [3, 0x65, 0x6e, 0x76, 5, 0x61, 0x62, 0x6f, 0x72, 0x74, 0, 0]

def fullBytes : Bytes :=
  [0x00, 0x61, 0x73, 0x6d, 1, 0, 0, 0] ++
    ([1, 4, 1, 0x60, 0, 0] ++
      2 :: ([0xf6, 0x5f] ++ ([0xff, 0x07] ++ (List.replicate 1023 abortBytes).flatten)))

theorem serialize_fullImports :
    Writer.concat (fullImports.map
      (Output.serializeImport .function Serialization.Output.serializeVarUInt32)) =
        .ok (List.replicate 1023 abortBytes).flatten := by
  have hone : Output.serializeImport .function Serialization.Output.serializeVarUInt32
      (⟨0, str "env", str "abort"⟩ : Import Nat) = .ok abortBytes := by
    apply Except.toOption_eq_some.1
    decide +kernel
  rw [fullImports, List.map_replicate, hone, Writer.concat_replicate]

theorem length_fullImports : fullImports.length = 1023 := List.length_replicate

theorem fullImports_ne_nil : fullImports ≠ [] := by
  apply List.ne_nil_of_length_pos
  rw [length_fullImports]
  exact Nat.succ_pos 1022

theorem length_flatten_replicate (n : Nat) (bytes : Bytes) :
    (List.replicate n bytes).flatten.length = n * bytes.length := by
  simp

theorem decode_fullBytes : decode fullBytes = .ok fullModule := by
  have himports : ∀ imp ∈ fullImports, imp = ⟨0, str "env", str "abort"⟩ :=
    fun imp hmem => List.eq_of_mem_replicate hmem
  have hwell : WellFormed fullModule := by
    apply wellFormed_importing
    · intro imp hmem
      rw [himports imp hmem]
      exact ⟨by decide +kernel, by decide +kernel⟩
    · intro imp hmem
      rw [himports imp hmem]
      exact Nat.zero_lt_one
  have hwithin : ModuleWithin fullModule := by
    apply moduleWithin_importing (by decide) (by decide)
    · rw [length_fullImports]
      decide
    · intro imp hmem
      rw [himports imp hmem]
      exact ⟨by decide +kernel, by decide +kernel⟩
  have hbodies : BodiesReadable (fun _ => False) fullModule fullModule.functions.defs :=
    fun before fd after hdefs => absurd hdefs.symm (List.append_ne_nil_of_right_ne_nil _ nofun)
  have hencode : encode fullModule = .ok fullBytes := by
    have htypes : Output.serializeTypeSection fullModule = .ok [1, 4, 1, 0x60, 0, 0] := by
      decide +kernel
    apply encode_importing (List.cons_ne_nil _ _) fullImports_ne_nil htypes serialize_fullImports
    · rw [length_fullImports]
      decide +kernel
    · rw [List.length_append, length_flatten_replicate]
      decide +kernel
  have hvalid : validateDefinitions fullModule = .ok () := by
    have htypes : fullModule.functions.imports.forM (fun functionImport =>
        validateIndex "functionImport.type.index>=module.types.size()" functionImport.type 1) =
          .ok () := by
      apply forM_eq_ok.2
      intro imp hmem
      rw [himports imp hmem]
      rfl
    refine Except.bind_eq_ok.2 ⟨(), rfl, Except.bind_eq_ok.2 ⟨(), htypes, rfl⟩⟩
  rcases decode_encode hwell (.inl hwithin) hbodies hencode with ⟨hdecode, -⟩ | ⟨e, -, hfalse⟩
  · rw [hdecode, hvalid]
    rfl
  · exact hfalse.elim

/-- The charges need one import more than the decoder allows. -/
theorem injection_over_limit :
    ¬ ∀ (bytes : Bytes) (m : Module) (caches caches' : Caches) (injection : Injection)
      (out : Bytes), decode bytes = .ok m →
        inject caches m.withoutUserSections = .ok (injection, caches') →
        encode injection.module = .ok out → ∀ e, decode out = .error e → ¬ IsLimit e := by
  intro hall
  have hm := Decoded.of_decode decode_fullBytes
  obtain ⟨injection, caches', hinject, -⟩ := injected_of_decoded hm .initial
  have hmodule : injection.module = importing [⟨.none, []⟩, ⟨.none, [.i64]⟩]
      (⟨1, injectedModuleName, str "use_gas"⟩ :: fullImports) := by
    have hrun : (inject .initial fullModule).map (fun result => result.1.module) =
        .ok (importing [⟨.none, []⟩, ⟨.none, [.i64]⟩]
          (⟨1, injectedModuleName, str "use_gas"⟩ :: fullImports)) := rfl
    rw [hinject] at hrun
    exact Except.ok.inj hrun
  have hencode : ∃ out, encode injection.module = .ok out := by
    have htypes : Output.serializeTypeSection injection.module =
        .ok [1, 8, 2, 0x60, 0, 0, 0x60, 1, 0x7e, 0] := by
      rw [hmodule]
      decide +kernel
    have hfirst : Output.serializeImport .function Serialization.Output.serializeVarUInt32
        (⟨1, injectedModuleName, str "use_gas"⟩ : Import Nat) =
          .ok (15 :: injectedModuleName ++ 7 :: str "use_gas" ++ [0, 1]) := by
      apply Except.toOption_eq_some.1
      decide +kernel
    rw [hmodule] at htypes ⊢
    refine ⟨_, encode_importing (List.cons_ne_nil _ _) (List.cons_ne_nil _ _) htypes
      (Writer.concat_cons_eq_ok.2 ⟨_, _, hfirst, serialize_fullImports, rfl⟩)
      (serializeVarUInt32_eq ?_) (serializeVarUInt32_eq ?_)⟩
    · rw [List.length_cons, length_fullImports]
      decide
    · rw [List.length_cons, length_fullImports, List.length_append, List.length_append,
        length_flatten_replicate]
      decide +kernel
  obtain ⟨out, hencode⟩ := hencode
  have hroom := (injection_within_limits_iff decode_fullBytes hinject hencode).1
    (hall _ _ _ _ _ _ decode_fullBytes hinject hencode)
  have himports := hroom.functionImports
  have hpos : 0 < (firstUses fullModule).length := by
    rw [← usedIntrinsics_eq]
    exact length_usedIntrinsics_pos fullModule
  have hlength : fullModule.functions.imports.length = 1023 := length_fullImports
  unfold maximumSectionElements at himports
  omega

end WasmInjections

end FractalWasm
