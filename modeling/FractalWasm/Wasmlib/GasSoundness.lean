import FractalWasm.Control.GasBound
import FractalWasm.Control.Relabel
import FractalWasm.Wasmlib.Rewriting

/-!
# Gas accounting

The instrumented bodies charge what they execute: along every run the charges made are at least the
cost of the operators executed, and at most the rest of the segments under way more. Every operator
that can repeat code costs something, so a supply of gas bounds the length of every run of an
injected module.

**The instance**: injected bodies, with their indices renamed back, are bodies of the generic
metering pass (`metered_of_body`). The machine's runs are then runs of metered code, and the generic
accounting applies.

**Both bounds** hold at every moment of a run, and the bound on its length (`runBound`) is computed
from the gas and the code.
-/

namespace FractalWasm

open Codec Control IR WASM

namespace WasmInjections

variable {bytes : Bytes} {m : Module}

/-! ## What a run is charged -/

theorem metered_bodies (hm : Decoded m) {injection : Injection} (h : Metered m injection)
    {function : Nat} {body : List Operator}
    (hbody : injection.module.bodies function = some body) : (gasMeter m).Metered body := by
  obtain ⟨fd, hfd, hops⟩ := Option.bind_eq_some_iff.1 hbody
  have hmem := List.mem_of_getElem? hfd
  rw [h.defs] at hmem
  obtain ⟨source, hsource, rfl⟩ := List.mem_map.1 hmem
  have hops : some (meteredOps m source) = some body := by
    rw [← hops]
    exact (operators?_encodeOps _).symm
  exact ⟨source.operators, (accepted_of_decoded hm hsource).source, (Option.some.inj hops).symm⟩

/-- The `use_gas` pass is sound and tight on every module the decoder accepts: after any run from
the start of any body, the charges made are at least the cost of the original operators executed,
and exceed it by at most the cost of the rest of the segments the active frames are in; when every
active frame is between two segments the two are equal. -/
theorem use_gas_sound_and_tight (hdecode : decode bytes = .ok m) (cached : WasmOps.CachedOps) :
    ∃ injection cached', injectUseGas cached m = .ok (injection, cached') ∧
      ∀ {function body}, injection.module.bodies function = some body →
      ∀ {events frames},
        Run (gasMeter m).view injection.module.bodies [.start body] events frames →
        (gasMeter m).executed events ≤ (gasMeter m).charged events ∧
        (gasMeter m).charged events ≤ (gasMeter m).executed events +
          (frames.map fun frame => (gasMeter m).segmentCost frame.code).sum ∧
        ((∀ frame ∈ frames, (gasMeter m).Between frame) →
          (gasMeter m).charged events = (gasMeter m).executed events) := by
  have hm := Decoded.of_decode hdecode
  obtain ⟨injection, cached', hinject, hmetered⟩ := metered_of_decoded hm cached
  refine ⟨injection, cached', hinject, fun {function body} hbody {events frames} hrun => ?_⟩
  have hbodies : ∀ {function body}, injection.module.bodies function = some body →
      (gasMeter m).Metered body := fun hbody => metered_bodies hm hmetered hbody
  have hstart : (gasMeter m).FrameOk (.start body) 0 :=
    ⟨.start (hbodies hbody), fun _ hmem => absurd hmem List.not_mem_nil⟩
  obtain ⟨credits, haccounts, hcharged⟩ := Meter.charged_eq hbodies (.cons hstart .nil) hrun
  have hle := haccounts.credits_le
  refine ⟨by omega, by omega, fun hbetween => ?_⟩
  have hzero := haccounts.credits_eq_zero hbetween
  omega

/-- The body of `sampleModule` after the `use_gas` pass. -/
def sampleMetered : List Operator :=
  [.loop .none, .i64Const 5, .call 2, .call 0, .i32Const 0, .brIf 0, .end_, .i64Const 203, .call 2,
    .f32Const 0, .f32Const 0, .numeric .f32Add, .drop, .end_]

/-- The first round of the loop in `sampleModule`, up to its call. -/
theorem use_gas_sound_and_tight_sample :
    ∃ injection cached', injectUseGas .initial sampleModule = .ok (injection, cached') ∧
      ∃ events frames, Run (gasMeter sampleModule).view injection.module.bodies
        [.start sampleMetered] events frames ∧ events.length = 4 ∧
        (gasMeter sampleModule).executed events ≤ (gasMeter sampleModule).charged events := by
  obtain ⟨injection, cached', hinject, hsound⟩ :=
    use_gas_sound_and_tight decode_sampleBytes .initial
  have hbody : injection.module.bodies 0 = some sampleMetered := by
    have heval : ((injectUseGas .initial sampleModule).map fun result =>
        result.1.module.bodies 0).toOption = some (some sampleMetered) := by decide +kernel
    rw [hinject] at heval
    exact Option.some.inj heval
  have hrun : Run (gasMeter sampleModule).view injection.module.bodies [.start sampleMetered]
      [(none, .loop .none), (some (.loop .none), .i64Const 5), (some (.i64Const 5), .call 2),
        (some (.call 2), .call 0)]
      [⟨some (.call 0), sampleMetered.drop 4, [.loop (sampleMetered.drop 1)]⟩] :=
    .cons (.goto .loop) (.cons (.goto .next) (.cons (.goto .next) (.cons (.goto .next) (.nil _))))
  exact ⟨injection, cached', hinject, _, _, hrun, rfl, (hsound hbody hrun).1⟩

/-! ## Running the injected module -/

/-- `wasm_context::use_gas`: the gas that remains. -/
def useGas (remainedGas gas : UInt64) : Except Exception UInt64 :=
  if remainedGas < gas then .error (.ftl .wasmRuntime "gas limit exceeded")
  else .ok (remainedGas - gas)

theorem useGas_eq_ok {remainedGas gas left : UInt64} (h : useGas remainedGas gas = .ok left) :
    gas.toNat ≤ remainedGas.toNat ∧ left.toNat = remainedGas.toNat - gas.toNat := by
  unfold useGas at h
  split at h
  · cases h
  · next hlt =>
    have hle : gas ≤ remainedGas := UInt64.not_lt.1 hlt
    obtain rfl := Except.ok.inj h
    exact ⟨UInt64.le_iff_toNat_le.1 hle, UInt64.toNat_sub_of_le _ _ hle⟩

/-- The argument of an executed call of `use_gas`: the literal executed just before it. -/
def gasArgument (event : Event Operator) : UInt64 :=
  match event.1 with
  | some (.i64Const value) => value
  | _ => 0

/-- One operator of an injected module, executed with some gas remaining. Function 0 is `use_gas`;
any other import may use gas too, and returns. -/
inductive InjectedStep (m : Module) :
    List (Frame Operator) × UInt64 → Event Operator → List (Frame Operator) × UInt64 → Prop
  | useGas {frames frames' : List (Frame Operator)} {event : Event Operator}
      {remainedGas left : UInt64} (hstep : Step m.action m.bodies frames event frames')
      (hcall : event.2 = .call 0) (hgas : useGas remainedGas (gasArgument event) = .ok left) :
      InjectedStep m (frames, remainedGas) event (frames', left)
  | other {frames frames' : List (Frame Operator)} {event : Event Operator}
      {remainedGas left : UInt64} (hstep : Step m.action m.bodies frames event frames')
      (hcall : event.2 ≠ .call 0) (hgas : left ≤ remainedGas) :
      InjectedStep m (frames, remainedGas) event (frames', left)

inductive InjectedRun (m : Module) :
    List (Frame Operator) × UInt64 → List (Event Operator) →
      List (Frame Operator) × UInt64 → Prop
  | nil (state : List (Frame Operator) × UInt64) : InjectedRun m state [] state
  | cons {state mid state' : List (Frame Operator) × UInt64} {event : Event Operator}
      {events : List (Event Operator)} (hstep : InjectedStep m state event mid)
      (hrun : InjectedRun m mid events state') : InjectedRun m state (event :: events) state'

/-- The bound on the length of runs: the gas, and one body for each unit of it. -/
def runBound (m : Module) (gas : UInt64) : Nat :=
  (gas.toNat + 1) * ((m.functions.defs.map fun fd => fd.operators.length).foldr max 0 + 1)

theorem argument_literal (event : Event Operator) :
    argument literal event = (gasArgument event).toNat := by
  obtain ⟨last, op⟩ := event
  cases last with
  | none => rfl
  | some last => cases last <;> rfl

theorem gasRun_of_injectedRun {state state' : List (Frame Operator) × UInt64}
    {events : List (Event Operator)} (h : InjectedRun m state events state') :
    GasRun m.action (.call 0) literal m.bodies (state.1, state.2.toNat) events
      (state'.1, state'.2.toNat) := by
  induction h with
  | nil state => exact .nil _
  | cons hstep hrun ih =>
    refine .cons ?_ ih
    cases hstep with
    | useGas hstep hcall hgas =>
      obtain ⟨henough, hleft⟩ := useGas_eq_ok hgas
      rw [← argument_literal] at henough hleft
      rw [hleft]
      exact .charge hstep hcall henough
    | other hstep hcall hgas => exact .other hstep hcall (UInt64.le_iff_toNat_le.1 hgas)

/-! ## Metered code, renamed -/

/-- Whether an operator can occur in metered code: calls name functions of the module or `use_gas`,
and intrinsics are in use. -/
def inScope (m : Module) (used : List Intrinsic) (op : Operator) : Bool :=
  match replaced? op with
  | some x => x ∈ used
  | none =>
    match op with
    | .call functionIndex =>
      functionIndex.toNat < m.functions.size || functionIndex = useGasIndex m
    | _ => true

/-- `rewrite`, extended to operators that cannot occur in metered code. -/
def rename (m : Module) (used : List Intrinsic) (op : Operator) : Operator :=
  if inScope m used op then rewrite m used op else .nop

theorem inScope_of_mem (hm : Decoded m) {fd : FunctionDef} (hfd : fd ∈ m.functions.defs)
    {op : Operator} (hop : op ∈ meteredOps m fd) : inScope m (usedIntrinsics m) op = true := by
  unfold inScope
  cases hx : replaced? op with
  | some x =>
    have hmem := mem_foldl_useOp (List.mem_flatMap.2 ⟨fd, hfd, hop⟩) hx [useGasIntrinsic]
    exact decide_eq_true hmem
  | none =>
    cases op with
    | call functionIndex =>
      rcases Meter.mem_insert hop with hmem | hcharge | ⟨gas, hpush⟩
      · have hlt := (accepted_of_decoded hm hfd).call_lt hmem
        simp [hlt]
      · simp [Operator.call.inj hcharge]
      · cases hpush
    | _ => rfl

/-- The bodies after the first pass. -/
def meteredBodies (m : Module) : Bodies Operator := fun function =>
  (m.functions.defs[function]?).map (meteredOps m)

namespace Injected

variable {injection : Injection}

theorem bodies_eq (h : Injected m injection) (hm : Decoded m) :
    injection.module.bodies =
      Bodies.map (rename m (usedIntrinsics m)) (meteredBodies m) := by
  funext function
  rw [Module.bodies, h.defs, List.getElem?_map, Bodies.map, meteredBodies, Option.map_map]
  cases hfd : m.functions.defs[function]? with
  | none => rfl
  | some fd =>
    have hmem := List.mem_of_getElem? hfd
    have hrename : (meteredOps m fd).map (rename m (usedIntrinsics m)) =
        (meteredOps m fd).map (rewrite m (usedIntrinsics m)) :=
      List.map_congr_left fun op hop => if_pos (inScope_of_mem hm hmem hop)
    simp only [Option.map_some, Option.bind_some, Function.comp_apply, hrename]
    exact operators?_encodeOps _

theorem length_imports (h : Injected m injection) :
    injection.module.functions.imports.length =
      (usedIntrinsics m).length + m.functions.imports.length := by
  obtain ⟨injected, himports, hall⟩ := h.registered.imports
  rw [himports, List.length_append, hall.length_eq, functions_maxMemoryInject]

theorem length_defs (h : Injected m injection) :
    injection.module.functions.defs.length = m.functions.defs.length := by
  rw [h.defs, List.length_map]

end Injected

theorem extend_usedIntrinsics (m : Module) : [useGasIntrinsic] <+: usedIntrinsics m :=
  extend_foldl_useOp _ _

theorem length_usedIntrinsics_pos (m : Module) : 0 < (usedIntrinsics m).length :=
  (extend_usedIntrinsics m).length_le

/-- An intrinsic that replaces an operator is not `use_gas`. -/
theorem ne_useGas_of_replaced {op : Operator} {x : Intrinsic} (h : replaced? op = some x) :
    x ≠ useGasIntrinsic := by
  rintro rfl
  cases op with
  | numeric op =>
    have hnodup : knownIntrinsics.Nodup := nodup_names.of_map
    have hmem : useGasIntrinsic ∈ numericOps.filterMap replacement? :=
      List.mem_filterMap.2 ⟨op, mem_numericOps op, h⟩
    exact (List.nodup_cons.1 hnodup).1 hmem
  | _ => cases h

theorem idxOf_pos_of_replaced {op : Operator} {x : Intrinsic} (h : replaced? op = some x) :
    0 < (usedIntrinsics m).idxOf x := by
  obtain ⟨more, hmore⟩ := extend_usedIntrinsics m
  have hne : useGasIntrinsic ≠ x := fun heq => ne_useGas_of_replaced h heq.symm
  rw [← hmore, List.singleton_append, List.idxOf_cons_ne _ hne]
  exact Nat.succ_pos _

theorem action_call_of_lt {m : Module} {functionIndex : UInt32}
    (h : functionIndex.toNat < m.functions.imports.length) :
    m.action (.call functionIndex) = .next := by
  simp only [Module.action, Operator.action_call]
  rw [if_neg (by omega)]

namespace Injected

variable {injection : Injection}

theorem length_used_le (h : Injected m injection) : (usedIntrinsics m).length ≤ 51 :=
  h.registered.distinct.length_le

theorem toNat_idxOf (h : Injected m injection) {x : Intrinsic} (hx : x ∈ usedIntrinsics m) :
    ((usedIntrinsics m).idxOf x).toUInt32.toNat = (usedIntrinsics m).idxOf x := by
  have hlt := List.idxOf_lt_length_of_mem hx
  exact toNat_toUInt32 (Nat.le_trans (Nat.le_of_lt hlt) h.length_used_le)

/-- The index of an original function after the injection. -/
theorem toNat_shifted (h : Injected m injection) (hm : Decoded m) {functionIndex : UInt32}
    (hlt : functionIndex.toNat < m.functions.size) :
    (functionIndex + (usedIntrinsics m).length.toUInt32).toNat =
      functionIndex.toNat + (usedIntrinsics m).length := by
  have hsize := size_lt hm
  have hused := h.length_used_le
  rw [UInt32.toNat_add, toNat_toUInt32 hused]
  exact Nat.mod_eq_of_lt (by omega)

/-- A renamed operator does to control what it did before. -/
theorem action_rename (h : Injected m injection) (hm : Decoded m) (op : Operator) :
    injection.module.action (rename m (usedIntrinsics m) op) = (gasMeter m).view op := by
  have himports := h.length_imports
  have hdefs := h.length_defs
  cases op with
  | numeric op =>
    have hview : (gasMeter m).view (.numeric op) = .next := rfl
    rw [hview, rename]
    split
    · next hscope =>
      unfold inScope at hscope
      unfold rewrite
      cases hx : replaced? (.numeric op) with
      | some x =>
        simp only [hx, decide_eq_true_eq] at hscope ⊢
        apply action_call_of_lt
        rw [h.toNat_idxOf hscope]
        have hlt := List.idxOf_lt_length_of_mem hscope
        omega
      | none => rfl
    · rfl
  | call functionIndex =>
    by_cases hpay : functionIndex = useGasIndex m
    · subst hpay
      have hview : (gasMeter m).view (.call (useGasIndex m)) = .next := if_pos rfl
      have hrename : rename m (usedIntrinsics m) (.call (useGasIndex m)) = .call 0 := by
        simp [rename, inScope, rewrite, replaced?]
      rw [hview, hrename]
      apply action_call_of_lt
      have hpos := length_usedIntrinsics_pos m
      rw [himports]
      exact Nat.lt_of_lt_of_le hpos (Nat.le_add_right _ _)
    · have hview : (gasMeter m).view (.call functionIndex) = m.action (.call functionIndex) :=
        if_neg fun heq => hpay (Operator.call.inj heq)
      rw [hview]
      by_cases hlt : functionIndex.toNat < m.functions.size
      · have hrename : rename m (usedIntrinsics m) (.call functionIndex) =
            .call (functionIndex + (usedIntrinsics m).length.toUInt32) := by
          simp [rename, inScope, rewrite, replaced?, hlt, hpay]
        simp only [hrename, Module.action, Operator.action_call, h.toNat_shifted hm hlt, himports,
          hdefs]
        by_cases hdef : m.functions.imports.length ≤ functionIndex.toNat
        · unfold IndexSpace.size at hlt
          rw [if_pos ⟨by omega, by omega⟩, if_pos ⟨hdef, hlt⟩]
          congr 1
          omega
        · rw [if_neg (by omega), if_neg (by omega)]
      · have hrename : rename m (usedIntrinsics m) (.call functionIndex) = .nop := by
          simp [rename, inScope, replaced?, hlt, hpay]
        unfold IndexSpace.size at hlt
        simp only [hrename, Module.action, Operator.action_call, Operator.action_nop]
        rw [if_neg (by omega)]
  | _ => rfl

/-- Only the call of a charge becomes a call of `use_gas`. -/
theorem rename_eq_call_zero (h : Injected m injection) (hm : Decoded m) (op : Operator) :
    rename m (usedIntrinsics m) op = .call 0 ↔ op = .call (useGasIndex m) := by
  constructor
  · intro hop
    unfold rename at hop
    split at hop
    · next hscope =>
      unfold inScope at hscope
      unfold rewrite at hop
      cases hx : replaced? op with
      | some x =>
        simp only [hx, decide_eq_true_eq, Operator.call.injEq] at hscope hop
        have hpos : 0 < (usedIntrinsics m).idxOf x := idxOf_pos_of_replaced hx
        have hnat := congrArg UInt32.toNat hop
        rw [h.toNat_idxOf hscope, UInt32.toNat_zero] at hnat
        omega
      | none =>
        cases op with
        | call functionIndex =>
          simp only [hx] at hscope hop
          by_cases hpay : functionIndex = useGasIndex m
          · rw [hpay]
          · rw [if_neg hpay] at hop
            have hlt : functionIndex.toNat < m.functions.size := by simpa [hpay] using hscope
            have hnat := congrArg UInt32.toNat (Operator.call.inj hop)
            have hpos := length_usedIntrinsics_pos m
            rw [h.toNat_shifted hm hlt, UInt32.toNat_zero] at hnat
            omega
        | numeric op =>
          simp only [hx] at hop
          cases hop
        | _ => cases hop
    · cases hop
  · rintro rfl
    simp [rename, inScope, rewrite, replaced?]

theorem literal_rename (op : Operator) : literal (rename m (usedIntrinsics m) op) = literal op := by
  unfold rename
  split
  · unfold rewrite
    cases hx : replaced? op with
    | some x =>
      cases op with
      | numeric op => rfl
      | _ => cases hx
    | none =>
      cases op with
      | call functionIndex =>
        simp only
        split <;> rfl
      | _ => rfl
  · next hscope =>
    cases op with
    | i64Const value => exact absurd rfl hscope
    | _ => rfl

theorem endsSegment_rename {op : Operator} (h : endsSegment (some op.opcode) = false) :
    endsSegment (some (rename m (usedIntrinsics m) op).opcode) = false := by
  unfold rename
  split
  · unfold rewrite
    cases hx : replaced? op with
    | some x => rfl
    | none =>
      cases op with
      | call functionIndex =>
        simp only
        split <;> rfl
      | _ => exact h
  · rfl

end Injected

/-! ## Metering bounds every run -/

/-- Every operator that can repeat code costs something. -/
theorem one_le_cost_of_repeats (m : Module) (op : Operator)
    (h : ((gasMeter m).view op).repeats = true) : 1 ≤ (gasMeter m).cost op := by
  by_cases hpay : op = .call (useGasIndex m)
  · have hview : (gasMeter m).view op = .next := if_pos hpay
    rw [hview] at h
    cases h
  · have hview : (gasMeter m).view op = m.action op := if_neg hpay
    have hcost : (gasMeter m).cost op = gasTable op.opcode.code := if_neg hpay
    rw [hview] at h
    rw [hcost]
    cases op with
    | else_ | br _ | brIf _ | brTable _ _ | call _ | callIndirect _ =>
      simp only [Operator.opcode]
      decide
    | _ => cases h

theorem length_le_foldr_max {bodies : List (List Operator)} {body : List Operator}
    (h : body ∈ bodies) : body.length ≤ (bodies.map List.length).foldr max 0 := by
  induction bodies with
  | nil => cases h
  | cons first bodies ih =>
    rw [List.map_cons, List.foldr_cons]
    rcases List.mem_cons.1 h with rfl | hmem
    · exact Nat.le_max_left _ _
    · exact Nat.le_trans (ih hmem) (Nat.le_max_right _ _)

namespace Injected

variable {injection : Injection}

/-- A body of the injected module is a metered body, renamed. -/
theorem body_eq (h : Injected m injection) (hm : Decoded m) {function : Nat} {body : List Operator}
    (hbody : injection.module.bodies function = some body) :
    ∃ fd ∈ m.functions.defs, meteredBodies m function = some (meteredOps m fd) ∧
      body = (meteredOps m fd).map (rename m (usedIntrinsics m)) := by
  rw [h.bodies_eq hm, Bodies.map, meteredBodies, Option.map_map] at hbody
  obtain ⟨fd, hfd, hops⟩ := Option.map_eq_some_iff.1 hbody
  refine ⟨fd, List.mem_of_getElem? hfd, ?_, hops.symm⟩
  rw [meteredBodies, hfd, Option.map_some]

theorem metered_of_body (hm : Decoded m) {function : Nat} {body : List Operator}
    (hbody : meteredBodies m function = some body) : (gasMeter m).Metered body := by
  obtain ⟨fd, hfd, rfl⟩ := Option.map_eq_some_iff.1 hbody
  exact ⟨fd.operators, (accepted_of_decoded hm (List.mem_of_getElem? hfd)).source, rfl⟩

theorem length_le_bound (h : Injected m injection) (hm : Decoded m) {function : Nat}
    {body : List Operator} (hbody : meteredBodies m function = some body) :
    body.length ≤
      (injection.module.functions.defs.map fun fd => fd.operators.length).foldr max 0 := by
  have hrenamed : injection.module.bodies function =
      some (body.map (rename m (usedIntrinsics m))) := by
    rw [h.bodies_eq hm, Bodies.map, hbody, Option.map_some]
  obtain ⟨fd, hfd, hops⟩ := Option.bind_eq_some_iff.1 hrenamed
  have hoperators : fd.operators = body.map (rename m (usedIntrinsics m)) := by
    rw [FunctionDef.operators, hops, Option.getD_some]
  have hle : fd.operators.length ≤
      ((injection.module.functions.defs.map FunctionDef.operators).map List.length).foldr max 0 :=
    length_le_foldr_max (List.mem_map_of_mem (List.mem_of_getElem? hfd))
  rw [List.map_map, hoperators, List.length_map] at hle
  exact hle

/-- A run within a supply of gas is bounded. -/
theorem length_le_runBound (h : Injected m injection) (hm : Decoded m) {function : Nat}
    {body : List Operator} (hbody : injection.module.bodies function = some body)
    {gas : UInt64} {events : List (Event Operator)} {state : List (Frame Operator) × UInt64}
    (hrun : InjectedRun injection.module ([.start body], gas) events state) :
    events.length ≤ runBound injection.module gas := by
  obtain ⟨fd, -, hmetered, rfl⟩ := h.body_eq hm hbody
  have hgas := gasRun_of_injectedRun hrun
  rw [h.bodies_eq hm] at hgas
  have hstart : [Frame.start ((meteredOps m fd).map (rename m (usedIntrinsics m)))] =
      [Frame.start (meteredOps m fd)].map (Frame.map (rename m (usedIntrinsics m))) := rfl
  rw [hstart] at hgas
  obtain ⟨events, mid, hrun', rfl⟩ :=
    GasRun.of_map (h.action_rename hm) (h.rename_eq_call_zero hm) literal_rename hgas
  have hmeter : GasRun (gasMeter m).view (gasMeter m).pay (gasMeter m).amount (meteredBodies m)
      ([.start (meteredOps m fd)], gas.toNat) events (mid, state.2.toNat) := hrun'
  rw [List.length_map]
  refine Meter.length_le_of_gasRun ?_ (one_le_cost_of_repeats m) hmetered hmeter
  intro function body hbody
  exact ⟨metered_of_body hm hbody, h.length_le_bound hm hbody⟩

/-- In front of every operator that can repeat code there is a charge, with no boundary between
the two. -/
theorem paid_before (h : Injected m injection) (hm : Decoded m) {function : Nat}
    {body before after : List Operator} {op : Operator}
    (hbody : injection.module.bodies function = some body) (hop : body = before ++ op :: after)
    (hrepeats : (injection.module.action op).repeats = true) :
    ∃ before' segment, ∃ gas : UInt64, before = before' ++ .i64Const gas :: .call 0 :: segment ∧
      0 < gas ∧ ∀ x ∈ segment, endsSegment (some x.opcode) = false := by
  obtain ⟨fd, hfd, -, rfl⟩ := h.body_eq hm hbody
  obtain ⟨before, rest, hsplit, rfl, hrest⟩ := List.map_eq_append_iff.1 hop
  obtain ⟨op, after, rfl, rfl, rfl⟩ := List.map_eq_cons_iff.1 hrest
  rw [h.action_rename hm] at hrepeats
  obtain ⟨before', gas, segment, rfl, hgas, hlimit, hsegment⟩ :=
    Meter.paid_before (accepted_of_decoded hm hfd).source hsplit
      (one_le_cost_of_repeats m op hrepeats)
  have hpush : rename m (usedIntrinsics m) ((gasMeter m).push gas) = .i64Const gas.toUInt64 := by
    simp [rename, inScope, rewrite, replaced?, gasMeter]
  have hpay : rename m (usedIntrinsics m) (gasMeter m).pay = .call 0 :=
    (h.rename_eq_call_zero hm _).2 rfl
  refine ⟨before'.map (rename m (usedIntrinsics m)), segment.map (rename m (usedIntrinsics m)),
    gas.toUInt64, ?_, ?_, ?_⟩
  · rw [List.map_append, List.map_cons, List.map_cons, hpush, hpay]
  · have hnat : gas.toUInt64.toNat = gas := (gasMeter m).amount_push gas hlimit
    rw [UInt64.lt_iff_toNat_lt, hnat]
    exact hgas
  · intro x hx
    obtain ⟨x, hmem, rfl⟩ := List.mem_map.1 hx
    exact endsSegment_rename (hsegment x hmem)

end Injected

/-- Metering bounds every run: whatever the branches, the functions reached and the gas the host
takes, a run of an injected module within a supply of gas executes at most `runBound` operators;
and every operator that can go back or into a function stands behind a charge of its own segment. -/
theorem metering_bounds_every_run (hdecode : decode bytes = .ok m) (caches : Caches) :
    ∃ injection caches', inject caches m = .ok (injection, caches') ∧
      ∀ {function body}, injection.module.bodies function = some body →
        (∀ {gas events state},
          InjectedRun injection.module ([.start body], gas) events state →
            events.length ≤ runBound injection.module gas) ∧
        ∀ {before op after}, body = before ++ op :: after →
          (injection.module.action op).repeats = true →
          ∃ before' segment, ∃ gas : UInt64,
            before = before' ++ .i64Const gas :: .call 0 :: segment ∧ 0 < gas ∧
              ∀ x ∈ segment, endsSegment (some x.opcode) = false := by
  have hm := Decoded.of_decode hdecode
  obtain ⟨injection, caches', hinject, hinjected⟩ := injected_of_decoded hm caches
  refine ⟨injection, caches', hinject, fun {function body} hbody => ⟨?_, ?_⟩⟩
  · intro gas events state hrun
    exact hinjected.length_le_runBound hm hbody hrun
  · intro before op after hop hrepeats
    exact hinjected.paid_before hm hbody hop hrepeats

/-- The body of `sampleModule` after the injection. -/
def sampleInjected : List Operator :=
  [.loop .none, .i64Const 5, .call 0, .call 2, .i32Const 0, .brIf 0, .end_, .i64Const 203, .call 0,
    .f32Const 0, .f32Const 0, .call 1, .drop, .end_]

/-- The loop in `sampleModule`, with gas for one round of it: the second is not paid for. -/
theorem metering_bounds_every_run_sample :
    ∃ injection caches', inject .initial sampleModule = .ok (injection, caches') ∧
      ∃ events state, InjectedRun injection.module ([.start sampleInjected], 7) events state ∧
        events.length = 7 ∧ state.2 = 2 ∧ events.length ≤ runBound injection.module 7 ∧
        ∃ before' segment, ∃ gas : UInt64,
          sampleInjected.take 5 = before' ++ .i64Const gas :: .call 0 :: segment ∧ 0 < gas ∧
            ∀ x ∈ segment, endsSegment (some x.opcode) = false := by
  obtain ⟨injection, caches', hinject, hbound⟩ :=
    metering_bounds_every_run decode_sampleBytes .initial
  have heval : ((inject .initial sampleModule).map fun result =>
      (result.1.module.bodies 0, result.1.module.action (.call 0),
        result.1.module.action (.call 2))).toOption =
      some (some sampleInjected, .next, .next) := by decide +kernel
  rw [hinject] at heval
  have hresult := Option.some.inj heval
  have hbody : injection.module.bodies 0 = some sampleInjected := congrArg Prod.fst hresult
  have huse : injection.module.action (.call 0) = .next :=
    congrArg Prod.fst (congrArg Prod.snd hresult)
  have habort : injection.module.action (.call 2) = .next :=
    congrArg Prod.snd (congrArg Prod.snd hresult)
  have huseMove : ∀ {rest labels},
      Moves injection.module.action rest labels (injection.module.action (.call 0))
        (.goto rest labels) := by
    intro rest labels
    rw [huse]
    exact .next
  have habortMove : ∀ {rest labels},
      Moves injection.module.action rest labels (injection.module.action (.call 2))
        (.goto rest labels) := by
    intro rest labels
    rw [habort]
    exact .next
  have hle : ∀ gas : UInt64, gas ≤ gas := fun gas => UInt64.le_refl gas
  have hne : ∀ {op : Operator}, op.opcode ≠ .call → op ≠ .call 0 := by
    rintro op hop rfl
    exact hop rfl
  have hround : InjectedRun injection.module ([.start sampleInjected], 7)
      [(none, .loop .none), (some (.loop .none), .i64Const 5), (some (.i64Const 5), .call 0),
        (some (.call 0), .call 2), (some (.call 2), .i32Const 0), (some (.i32Const 0), .brIf 0),
        (some (.brIf 0), .i64Const 5)]
      ([⟨some (.i64Const 5), sampleInjected.drop 2, [.loop (sampleInjected.drop 1)]⟩], 2) :=
    .cons (.other (.goto .loop) (hne (by decide)) (hle 7)) <|
      .cons (.other (.goto .next) (hne (by decide)) (hle 7)) <|
      .cons (.useGas (.goto huseMove) rfl rfl) <|
      .cons (.other (.goto habortMove) (by decide) (hle 2)) <|
      .cons (.other (.goto .next) (hne (by decide)) (hle 2)) <|
      .cons (.other (.goto (.brIf rfl)) (hne (by decide)) (hle 2)) <|
      .cons (.other (.goto .next) (hne (by decide)) (hle 2)) (.nil _)
  have hsplit : sampleInjected = sampleInjected.take 5 ++ .brIf 0 :: sampleInjected.drop 6 := rfl
  exact ⟨injection, caches', hinject, _, _, hround, rfl, rfl, (hbound hbody).1 hround,
    (hbound hbody).2 hsplit rfl⟩

end WasmInjections

end FractalWasm
