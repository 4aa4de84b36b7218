import FractalWasm.Wasmlib.Registry

/-!
# What the injection does to a module

The passes over the encoding of operators are maps over the operators: the second pass replaces them
by calls with temporary indices and grows the registry, the third turns these into final ones.
`Injected` puts the three passes together; `injected_of_decoded` says that the injection of every
module the decoder accepts succeeds and has this form, whatever is left in the operator caches.

**Second pass** (`useOp`, `preOp`): an operator with a replacement becomes a call of its intrinsic,
under a temporary index behind all functions.

**Third pass** (`postOp`): temporary indices become those of the imports, and the indices of the
contract's own functions are shifted by the number of imports.

**Form** (`Injected`): the bodies are the metered ones with both passes applied (`rewrite`), the
intrinsics in use are the imports in front, and everything else is shifted along.
-/

namespace FractalWasm

open Codec Control IR WASM

namespace WasmInjections

open WasmOps

variable {m : Module} {used : List Intrinsic}

/-! ## The second pass -/

def replaced? : Operator → Option Intrinsic
  | .numeric op => replacement? op
  | _ => none

/-- The intrinsics in use after an operator. -/
def useOp (used : List Intrinsic) (op : Operator) : List Intrinsic :=
  match replaced? op with
  | some x => use used x
  | none => used

/-- The second pass on one operator, when `used` are the intrinsics in use. -/
def preOp (m : Module) (used : List Intrinsic) (op : Operator) : Operator :=
  match replaced? op with
  | some x => .call (temporary m (used.idxOf x))
  | none => op

/-- An operator has the injector of its replacement, if it has one. -/
theorem preOpInjectors_opcode (op : Operator) :
    preOpInjectors (some op.opcode) =
      match replaced? op with
      | some x => softfloatInjector x.type (.ok x.name)
      | none => passInjector := by
  cases op with
  | numeric op => exact preOpInjectors_numeric op
  | _ => rfl

/-- What replaces an operator is a known intrinsic. -/
theorem mem_known_of_replaced {op : Operator} {x : Intrinsic} (h : replaced? op = some x) :
    x ∈ knownIntrinsics := by
  cases op with
  | numeric op => exact mem_known_of_replacement h
  | _ => cases h

/-- What one round of the second pass does to its state. -/
def preVisit (state : VisitState) (op : Operator) : VisitState :=
  let cached := state.cached.assign (some op.opcode) (fieldOf op)
  match replaced? op with
  | some x =>
    let (idx, injection) := addImport x.type x.name state.injection
    { injection, cached, newCode := packCall idx state.newCode }
  | none => { state with cached, newCode := cached.pack (some op.opcode) state.newCode }

/-- A step of the second pass on an encoded operator. -/
theorem visitStep_pre (state : VisitState) (op : Operator) (rest : Bytes) :
    visitStep preOpInjectors state (op.encode ++ rest) = .ok (preVisit state op, rest) := by
  refine bind_eq_ok.2 ⟨_, _, decodeOp_encode state.cached op rest, ?_⟩
  simp only [preOpInjectors_opcode, preVisit]
  cases replaced? op <;> rfl

/-- The list of the intrinsics in use only grows. -/
theorem extend_useOp (used : List Intrinsic) (op : Operator) : used <+: useOp used op := by
  unfold useOp
  split
  · exact extend_use used _
  · exact List.prefix_refl used

theorem extend_foldl_useOp (used : List Intrinsic) (ops : List Operator) :
    used <+: ops.foldl useOp used := by
  induction ops generalizing used with
  | nil => exact List.prefix_refl used
  | cons op ops ih => exact (extend_useOp used op).trans (ih _)

/-- One operator registers its replacement and is written with its temporary index. -/
theorem preVisit_spec (hsize : m.functions.size < 2048) {state : VisitState}
    (h : Registered m used state.injection) (op : Operator) :
    Registered m (useOp used op) (preVisit state op).injection ∧
      (preVisit state op).newCode.get =
        state.newCode.get ++ (preOp m (useOp used op) op).encode := by
  unfold preVisit useOp preOp
  cases hop : replaced? op with
  | some x =>
    obtain ⟨injection', hadd, h'⟩ := addImport_spec hsize h (mem_known_of_replaced hop)
    simp only [hadd]
    exact ⟨h', get_packCall _ _⟩
  | none => exact ⟨h, get_pack_assign _ _ _⟩

/-- Indices that were handed out stay. -/
theorem preOp_of_extends {used used' : List Intrinsic} {op : Operator}
    (hext : useOp used op <+: used') : preOp m used' op = preOp m (useOp used op) op := by
  unfold preOp
  cases hop : replaced? op with
  | some x =>
    have hmem : x ∈ useOp used op := by
      simp only [useOp, hop]
      exact mem_use used x
    simp only [idxOf_of_extends hext hmem]
  | none => rfl

/-- The second pass maps the operators; their indices are those of any later registry. -/
theorem foldl_preVisit (hsize : m.functions.size < 2048) {ops : List Operator}
    {state : VisitState} (h : Registered m used state.injection) :
    Registered m (ops.foldl useOp used) (ops.foldl preVisit state).injection ∧
      ∀ {used'}, ops.foldl useOp used <+: used' →
        (ops.foldl preVisit state).newCode.get =
          state.newCode.get ++ encodeOps (ops.map (preOp m used')) := by
  induction ops generalizing used state with
  | nil => exact ⟨h, fun _ => by simp⟩
  | cons op ops ih =>
    obtain ⟨hop, hcode⟩ := preVisit_spec hsize h op
    obtain ⟨hops, hcodes⟩ := ih hop
    refine ⟨hops, fun {used'} hext => ?_⟩
    have hext' : useOp used op <+: used' := (extend_foldl_useOp _ ops).trans hext
    rw [List.foldl_cons, hcodes hext, hcode, List.map_cons, preOp_of_extends hext']
    simp

/-- The second pass maps a body, operator by operator. -/
theorem visitPass_pre (hsize : m.functions.size < 2048) {injection : Injection}
    (h : Registered m used injection) (cached : CachedOps) (ops : List Operator) :
    ∃ injection' cached' code, visitPass preOpInjectors (injection, cached) (encodeOps ops) =
        .ok ((injection', cached'), code) ∧ Registered m (ops.foldl useOp used) injection' ∧
      ∀ {used'}, ops.foldl useOp used <+: used' → code = encodeOps (ops.map (preOp m used')) := by
  let state : VisitState := ⟨injection, cached, .ofSize ((encodeOps ops).length * 2)⟩
  have hloop : Reader.loop (visitStep preOpInjectors) state (encodeOps ops) =
      .ok (ops.foldl preVisit state, []) :=
    Reader.loop_flatMap Operator.encode_ne_nil visitStep_pre ops state
  have hstate : Registered m used state.injection := h
  obtain ⟨h', hcode⟩ :
      Registered m (ops.foldl useOp used) (ops.foldl preVisit state).injection ∧ _ :=
    foldl_preVisit hsize hstate
  refine ⟨_, (ops.foldl preVisit state).cached, _, Except.bind_eq_ok.2 ⟨_, hloop, rfl⟩, h', ?_⟩
  intro used' hext
  rw [hcode hext, InstructionStream.get_ofSize, List.nil_append]

/-! ## The third pass -/

/-- The third pass on one operator. -/
def postOp (utils : InjectorUtils) : Operator → Operator
  | .call functionIndex => .call (fixedIndex utils functionIndex)
  | op => op

@[simp] theorem fieldOf_call (functionIndex : UInt32) :
    fieldOf (.call functionIndex) = .uint32 functionIndex := by
  simp [fieldOf, fieldType, FieldType.unpack, Operator.opcode, Operator.immBytes]

/-- What one round of the third pass does to its state: it packs the operator's object, which holds
the fixed operand by then. -/
def postVisit (state : VisitState) (op : Operator) : VisitState :=
  let cached := state.cached.assign (some op.opcode) (fieldOf op)
  let cached :=
    match op with
    | .call _ => cached.assign (some .call) (fieldOf (postOp state.injection.utils op))
    | _ => cached
  { state with cached, newCode := cached.pack (some op.opcode) state.newCode }

/-- A step of the third pass on an encoded operator. -/
theorem visitStep_post (state : VisitState) (op : Operator) (rest : Bytes) :
    visitStep postOpInjectors state (op.encode ++ rest) = .ok (postVisit state op, rest) := by
  refine bind_eq_ok.2 ⟨_, _, decodeOp_encode state.cached op rest, ?_⟩
  cases op with
  | call functionIndex =>
    have hinjector : postOpInjectors (some (Operator.call functionIndex).opcode) = fixCallIndex :=
      rfl
    let cached := state.cached.assign (some .call) (fieldOf (.call functionIndex))
    have hfield : cached (some .call) = .uint32 functionIndex := by
      simp [cached, CachedOps.assign]
    have haccept : fixCallIndex.accept { state with cached } = .ok { state with
        cached := cached.assign (some .call)
          (fieldOf (postOp state.injection.utils (.call functionIndex))) } := by
      simp only [fixCallIndex, hfield, postOp, fieldOf_call]
    simp only [hinjector]
    exact bind_eq_ok.2 ⟨_, rest, lift_eq_ok.2 ⟨haccept, rfl⟩, rfl⟩
  | _ => rfl

/-- The third pass writes final indices and registers nothing. -/
theorem postVisit_spec (state : VisitState) (op : Operator) :
    (postVisit state op).injection = state.injection ∧
      (postVisit state op).newCode.get =
        state.newCode.get ++ (postOp state.injection.utils op).encode := by
  refine ⟨rfl, ?_⟩
  cases op with
  | call functionIndex => exact get_pack_assign _ (.call _) _
  | _ => exact get_pack_assign _ _ _

/-- The third pass maps the operators. -/
theorem foldl_postVisit (ops : List Operator) (state : VisitState) :
    (ops.foldl postVisit state).injection = state.injection ∧
      (ops.foldl postVisit state).newCode.get =
        state.newCode.get ++ encodeOps (ops.map (postOp state.injection.utils)) := by
  induction ops generalizing state with
  | nil => exact ⟨rfl, by simp⟩
  | cons op ops ih =>
    obtain ⟨hinjection, hcode⟩ := postVisit_spec state op
    obtain ⟨hinjection', hcode'⟩ := ih (postVisit state op)
    refine ⟨hinjection'.trans hinjection, ?_⟩
    rw [List.foldl_cons, hcode', hcode, hinjection]
    simp

/-- It maps a body as well. -/
theorem visitPass_post (injection : Injection) (cached : CachedOps) (ops : List Operator) :
    ∃ cached', visitPass postOpInjectors (injection, cached) (encodeOps ops) =
      .ok ((injection, cached'), encodeOps (ops.map (postOp injection.utils))) := by
  let state : VisitState := ⟨injection, cached, .ofSize ((encodeOps ops).length * 2)⟩
  have hloop : Reader.loop (visitStep postOpInjectors) state (encodeOps ops) =
      .ok (ops.foldl postVisit state, []) :=
    Reader.loop_flatMap Operator.encode_ne_nil visitStep_post ops state
  obtain ⟨hinjection, hcode⟩ := foldl_postVisit ops state
  rw [InstructionStream.get_ofSize, List.nil_append] at hcode
  refine ⟨(ops.foldl postVisit state).cached, Except.bind_eq_ok.2 ⟨_, hloop, ?_⟩⟩
  rw [← hcode]
  simp only [hinjection]
  rfl

/-! ## The passes over all bodies -/

/-- A pass that maps the operators of each body. -/
theorem forEachBody_map {σ : Type} {pass : σ → Bytes → Except Exception (σ × Bytes)}
    {invariant : σ → Prop} {f : FunctionDef → List Operator} {defs : List FunctionDef}
    (hpass : ∀ {state}, invariant state → ∀ fd ∈ defs,
      ∃ state', pass state fd.code = .ok (state', encodeOps (f fd)) ∧ invariant state')
    {state : σ} (hstate : invariant state) :
    ∃ state', forEachBody pass state defs =
      .ok (state', defs.map fun fd => fd.withOperators (f fd)) ∧ invariant state' := by
  induction defs generalizing state with
  | nil => exact ⟨state, rfl, hstate⟩
  | cons fd defs ih =>
    obtain ⟨mid, hfd, hmid⟩ := hpass hstate fd List.mem_cons_self
    obtain ⟨state', hdefs, hstate'⟩ :=
      ih (fun h fd' hfd' => hpass h fd' (List.mem_cons_of_mem fd hfd')) hmid
    refine ⟨state', ?_, hstate'⟩
    exact Except.bind_eq_ok.2 ⟨_, hfd, Except.bind_eq_ok.2 ⟨_, hdefs, rfl⟩⟩

/-- All bodies, with one registry. -/
theorem forEachBody_pre (hsize : m.functions.size < 2048) {injection : Injection}
    (h : Registered m used injection) (cached : CachedOps) {defs : List FunctionDef}
    (hcode : ∀ fd ∈ defs, fd.code = encodeOps fd.operators) :
    ∃ injection' cached' defs',
      forEachBody (visitPass preOpInjectors) (injection, cached) defs =
        .ok ((injection', cached'), defs') ∧
      Registered m ((defs.flatMap FunctionDef.operators).foldl useOp used) injection' ∧
      ∀ {used'}, (defs.flatMap FunctionDef.operators).foldl useOp used <+: used' →
        defs' = defs.map fun fd => fd.withOperators (fd.operators.map (preOp m used')) := by
  induction defs generalizing used injection cached with
  | nil => exact ⟨injection, cached, [], rfl, h, fun _ => rfl⟩
  | cons fd defs ih =>
    have hfd := hcode fd List.mem_cons_self
    obtain ⟨mid, cachedMid, code, hpass, hmid, hops⟩ := visitPass_pre hsize h cached fd.operators
    rw [← hfd] at hpass
    obtain ⟨injection', cached', defs', hdefs, h', hmap⟩ :=
      ih hmid cachedMid fun fd' hfd' => hcode fd' (List.mem_cons_of_mem fd hfd')
    rw [List.flatMap_cons, List.foldl_append]
    refine ⟨injection', cached', { fd with code } :: defs', ?_, h', fun {used'} hext => ?_⟩
    · exact Except.bind_eq_ok.2 ⟨_, hpass, Except.bind_eq_ok.2 ⟨_, hdefs, rfl⟩⟩
    · have hext' := (extend_foldl_useOp (fd.operators.foldl useOp used) _).trans hext
      rw [hmap hext, hops hext']
      rfl

/-- All bodies in the third pass. -/
theorem forEachBody_post (injection : Injection) (cached : CachedOps) {defs : List FunctionDef}
    (hcode : ∀ fd ∈ defs, fd.code = encodeOps fd.operators) :
    ∃ cached', forEachBody (visitPass postOpInjectors) (injection, cached) defs =
      .ok ((injection, cached'),
        defs.map fun fd => fd.withOperators (fd.operators.map (postOp injection.utils))) := by
  have hpass : ∀ {state : Injection × CachedOps}, state.1 = injection → ∀ fd ∈ defs,
      ∃ state', visitPass postOpInjectors state fd.code =
        .ok (state', encodeOps (fd.operators.map (postOp injection.utils))) ∧
          state'.1 = injection := by
    rintro ⟨_, cached⟩ rfl fd hfd
    obtain ⟨cached', hvisit⟩ := visitPass_post _ cached fd.operators
    rw [← hcode fd hfd] at hvisit
    exact ⟨_, hvisit, rfl⟩
  have hstate : (injection, cached).1 = injection := rfl
  obtain ⟨⟨_, cached'⟩, hdefs, rfl⟩ := forEachBody_map hpass hstate
  exact ⟨cached', hdefs⟩

/-! ## The injected module -/

@[simp] theorem functions_maxMemoryInject (m : Module) :
    (maxMemoryInject m).functions = m.functions := by
  unfold maxMemoryInject
  split
  · rfl
  · dsimp only
    split <;> rfl

/-- The three passes on one operator of metered code. -/
def rewrite (m : Module) (used : List Intrinsic) (op : Operator) : Operator :=
  match replaced? op with
  | some x => .call (used.idxOf x).toUInt32
  | none =>
    match op with
    | .call functionIndex =>
      if functionIndex = useGasIndex m then .call 0
      else .call (functionIndex + used.length.toUInt32)
    | op => op

/-- The body of a function after the first pass. -/
def meteredOps (m : Module) (fd : FunctionDef) : List Operator :=
  (gasMeter m).insert fd.operators

/-- The intrinsics in use at the end, in the order of their first use. -/
def usedIntrinsics (m : Module) : List Intrinsic :=
  (m.functions.defs.flatMap (meteredOps m)).foldl useOp [useGasIntrinsic]

/-- The state of an injection after the first pass. -/
structure Metered (m : Module) (injection : Injection) : Prop where
  registered : Registered (maxMemoryInject m) [useGasIntrinsic] injection
  defs : injection.module.functions.defs =
    m.functions.defs.map fun fd => fd.withOperators (meteredOps m fd)

/-- The state of an injection after the second pass. -/
structure Replaced (m : Module) (injection : Injection) : Prop where
  registered : Registered (maxMemoryInject m) (usedIntrinsics m) injection
  defs : injection.module.functions.defs =
    m.functions.defs.map fun fd =>
      fd.withOperators ((meteredOps m fd).map (preOp (maxMemoryInject m) (usedIntrinsics m)))

/-- The result of the injection into `m`. -/
structure Injected (m : Module) (injection : Injection) : Prop where
  registered : Registered (maxMemoryInject m) (usedIntrinsics m) injection
  defs : injection.module.functions.defs =
    m.functions.defs.map fun fd =>
      fd.withOperators ((meteredOps m fd).map (rewrite m (usedIntrinsics m)))

/-- An import is added in front of the definitions. -/
theorem defs_addImport (type : FunctionType) (funcName : Bytes) (injection : Injection) :
    (addImport type funcName injection).2.module.functions.defs =
      injection.module.functions.defs := by
  have htypes : (addTypeSlot type injection).module.functions.defs =
      injection.module.functions.defs := by
    unfold addTypeSlot
    split <;> rfl
  unfold addImport
  split
  · rfl
  · exact htypes

theorem size_maxMemoryInject (hm : Decoded m) :
    (maxMemoryInject m).functions.size < 2048 := by
  rw [functions_maxMemoryInject]
  exact size_lt hm

theorem types_maxMemoryInject (m : Module) : (maxMemoryInject m).types = m.types := by
  unfold maxMemoryInject
  split
  · rfl
  · dsimp only
    split <;> rfl

/-- The first pass puts the charges into every body. -/
theorem forEachBody_useGas (hm : Decoded m) (cached : CachedOps) :
    ∃ cached', forEachBody (useGasPass (useGasIndex m)) cached m.functions.defs =
      .ok (cached', m.functions.defs.map fun fd => fd.withOperators (meteredOps m fd)) := by
  have hpass : ∀ {cached : CachedOps}, True → ∀ fd ∈ m.functions.defs,
      ∃ cached', useGasPass (useGasIndex m) cached fd.code =
        .ok (cached', encodeOps (meteredOps m fd)) ∧ True := by
    intro cached _ fd hfd
    have haccepted := accepted_of_decoded hm hfd
    obtain ⟨cached', hpass⟩ := useGasPass_encodeOps haccepted.source.pay_notMem cached
    rw [← haccepted.code] at hpass
    exact ⟨cached', hpass, trivial⟩
  obtain ⟨cached', hdefs, -⟩ : ∃ cached', _ = Except.ok (cached', _) ∧ True :=
    forEachBody_map hpass trivial
  exact ⟨cached', hdefs⟩

/-- The first pass on a module the decoder accepts. -/
theorem metered_of_decoded (hm : Decoded m) (cached : CachedOps) :
    ∃ injection cached', injectUseGas cached m = .ok (injection, cached') ∧
      Metered m injection := by
  have hinit : (⟨maxMemoryInject m, (Injection.init m).utils⟩ : Injection) =
      Injection.init (maxMemoryInject m) := by
    simp only [Injection.init, types_maxMemoryInject]
  have hknown : useGasIntrinsic ∈ knownIntrinsics := List.mem_cons_self
  have huse : use [] useGasIntrinsic = [useGasIntrinsic] := rfl
  obtain ⟨injection, hadd, hregistered⟩ := addImport_spec (size_maxMemoryInject hm)
    (Registered.init (maxMemoryInject m)) hknown
  have hindex : temporary (maxMemoryInject m) ((use [] useGasIntrinsic).idxOf useGasIntrinsic) =
      useGasIndex m := by
    rw [huse, List.idxOf_cons_self, temporary, functions_maxMemoryInject]
    rfl
  rw [hindex, ← hinit] at hadd
  have hadd : addImport ⟨.none, [.i64]⟩ (str "use_gas")
      ⟨maxMemoryInject (Injection.init m).module, (Injection.init m).utils⟩ =
      (useGasIndex m, injection) := hadd
  have hdefs : injection.module.functions.defs = m.functions.defs := by
    have hkeep := defs_addImport ⟨.none, [.i64]⟩ (str "use_gas")
      ⟨maxMemoryInject (Injection.init m).module, (Injection.init m).utils⟩
    rw [hadd] at hkeep
    rw [hkeep]
    exact congrArg IndexSpace.defs (functions_maxMemoryInject m)
  obtain ⟨cached', hpass⟩ := forEachBody_useGas hm cached
  have hrun : injectUseGas cached m =
      .ok (⟨withDefs injection.module
        (m.functions.defs.map fun fd => fd.withOperators (meteredOps m fd)), injection.utils⟩,
        cached') := by
    unfold injectUseGas
    simp only [hadd, hdefs]
    exact Except.bind_eq_ok.2 ⟨_, hpass, rfl⟩
  rw [huse] at hregistered
  exact ⟨_, cached', hrun, hregistered.withDefs (by rw [List.length_map, hdefs]), rfl⟩

theorem mem_foldl_useOp {ops : List Operator} {op : Operator} {x : Intrinsic} (hop : op ∈ ops)
    (hx : replaced? op = some x) (used : List Intrinsic) : x ∈ ops.foldl useOp used := by
  induction ops generalizing used with
  | nil => exact absurd hop List.not_mem_nil
  | cons next ops ih =>
    rcases List.mem_cons.1 hop with rfl | hop
    · have hmem : x ∈ useOp used op := by
        simp only [useOp, hx]
        exact mem_use used x
      exact (extend_foldl_useOp _ ops).subset hmem
    · exact ih hop _

/-- The last two passes compose to `rewrite` on metered code. -/
theorem postOp_preOp (hm : Decoded m) {injection : Injection}
    (h : Registered (maxMemoryInject m) used injection) (hfirst : [useGasIntrinsic] <+: used)
    {fd : FunctionDef} (hfd : fd ∈ m.functions.defs) {op : Operator} (hop : op ∈ meteredOps m fd)
    (hused : ∀ x, replaced? op = some x → x ∈ used) :
    postOp injection.utils (preOp (maxMemoryInject m) used op) = rewrite m used op := by
  have hsize := size_maxMemoryInject hm
  have haccepted := accepted_of_decoded hm hfd
  unfold preOp rewrite
  cases hx : replaced? op with
  | some x =>
    have hlt := List.idxOf_lt_length_of_mem (hused x hx)
    simp only [postOp, fixedIndex, h.find_mapping hsize hlt]
  | none =>
    cases op with
    | call functionIndex =>
      by_cases hpay : functionIndex = useGasIndex m
      · have hzero : temporary (maxMemoryInject m) 0 = functionIndex := by
          rw [hpay, temporary, functions_maxMemoryInject]
          rfl
        have hpos : 0 < used.length := hfirst.length_le
        simp only [postOp, fixedIndex, ← hzero, h.find_mapping hsize hpos]
        rw [hzero, if_pos hpay]
        rfl
      · have hlt : functionIndex.toNat < (maxMemoryInject m).functions.size := by
          rw [functions_maxMemoryInject]
          rcases Meter.mem_insert hop with hmem | hcharge | ⟨gas, hpush⟩
          · exact haccepted.call_lt hmem
          · exact absurd (Operator.call.inj hcharge) hpay
          · cases hpush
        have hlength : injection.utils.registeredInjected.length = used.length := by
          rw [h.registered, List.length_mapIdx]
        simp only [postOp, fixedIndex, h.find_mapping_none hsize (.inl hlt), hlength]
        rw [if_neg hpay]
    | _ => rfl

/-- One of the last two passes over a module, given what it does to the bodies. -/
theorem injectVisit_eq {injectors : Slot → Injector} {cached cached' : CachedOps}
    {injection injection' : Injection} {defs : List FunctionDef}
    (h : forEachBody (visitPass injectors) (injection, cached) injection.module.functions.defs =
      .ok ((injection', cached'), defs)) :
    injectVisit injectors cached injection =
      .ok ({ injection' with module := withDefs injection'.module defs }, cached') :=
  Except.bind_eq_ok.2 ⟨_, h, rfl⟩

theorem code_of_mem_map {defs : List FunctionDef} {f : FunctionDef → List Operator} :
    ∀ fd ∈ defs.map fun fd => fd.withOperators (f fd), fd.code = encodeOps fd.operators := by
  intro fd hfd
  obtain ⟨fd, -, rfl⟩ := List.mem_map.1 hfd
  rw [FunctionDef.operators_withOperators]
  rfl

/-- Two passes in a row over the same functions. -/
theorem map_withOperators (defs : List FunctionDef) (f : FunctionDef → List Operator)
    (g : Operator → Operator) :
    ((defs.map fun fd => fd.withOperators (f fd)).map fun fd =>
      fd.withOperators (fd.operators.map g)) =
      defs.map fun fd => fd.withOperators ((f fd).map g) := by
  rw [List.map_map]
  refine List.map_congr_left fun fd _ => ?_
  simp only [Function.comp_apply, FunctionDef.operators_withOperators]
  rfl

/-- The second pass succeeds on what the first one left. -/
theorem replaced_of_metered (hm : Decoded m) {injection : Injection} (h : Metered m injection)
    (cached : CachedOps) :
    ∃ injection' cached', injectVisit preOpInjectors cached injection = .ok (injection', cached') ∧
      Replaced m injection' := by
  have hcode : ∀ fd ∈ injection.module.functions.defs, fd.code = encodeOps fd.operators := by
    rw [h.defs]
    exact code_of_mem_map
  obtain ⟨injection', cached', defs, hpass, hregistered, hdefs⟩ :=
    forEachBody_pre (size_maxMemoryInject hm) h.registered cached hcode
  have hused : (injection.module.functions.defs.flatMap FunctionDef.operators).foldl useOp
      [useGasIntrinsic] = usedIntrinsics m := by
    rw [h.defs, List.flatMap_map, usedIntrinsics]
    simp only [FunctionDef.operators_withOperators]
  rw [hused] at hregistered hdefs
  have hdefs := hdefs (List.prefix_refl _)
  rw [h.defs, map_withOperators] at hdefs
  have hlength : defs.length = injection'.module.functions.defs.length := by
    rw [hdefs, List.length_map, hregistered.defs, functions_maxMemoryInject]
  exact ⟨_, cached', injectVisit_eq hpass, hregistered.withDefs hlength, hdefs⟩

/-- And the third on what the second left. -/
theorem injected_of_replaced (hm : Decoded m) {injection : Injection} (h : Replaced m injection)
    (cached : CachedOps) :
    ∃ injection' cached', injectVisit postOpInjectors cached injection =
      .ok (injection', cached') ∧ Injected m injection' := by
  have hcode : ∀ fd ∈ injection.module.functions.defs, fd.code = encodeOps fd.operators := by
    rw [h.defs]
    exact code_of_mem_map
  obtain ⟨cached', hpass⟩ := forEachBody_post injection cached hcode
  rw [h.defs, map_withOperators, ← h.defs] at hpass
  refine ⟨_, cached', injectVisit_eq hpass, h.registered.withDefs ?_, ?_⟩
  · rw [List.length_map, h.defs, List.length_map]
  · refine List.map_congr_left fun fd hfd => ?_
    rw [List.map_map]
    refine congrArg fd.withOperators (List.map_congr_left fun op hop => ?_)
    refine postOp_preOp hm h.registered (extend_foldl_useOp _ _) hfd hop fun x hx => ?_
    exact mem_foldl_useOp (List.mem_flatMap.2 ⟨fd, hfd, hop⟩) hx _

/-- The injection of a module the decoder accepts succeeds, whatever the operator caches hold. -/
theorem injected_of_decoded (hm : Decoded m) (caches : Caches) :
    ∃ injection caches', inject caches m = .ok (injection, caches') ∧ Injected m injection := by
  obtain ⟨metered, usegas, hmetered, h⟩ := metered_of_decoded hm caches.usegas
  obtain ⟨replaced, pre, hreplaced, h⟩ := replaced_of_metered hm h caches.pre
  obtain ⟨injected, post, hinjected, h⟩ := injected_of_replaced hm h caches.post
  refine ⟨injected, ⟨usegas, pre, post⟩, ?_, h⟩
  exact Except.bind_eq_ok.2 ⟨_, hmetered, Except.bind_eq_ok.2 ⟨_, hreplaced,
    Except.bind_eq_ok.2 ⟨_, hinjected, rfl⟩⟩⟩

end WasmInjections

end FractalWasm
