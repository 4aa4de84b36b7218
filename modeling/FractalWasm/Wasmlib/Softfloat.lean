import FractalWasm.Wasmlib.Erasure

/-!
# Native floating-point operators

The injection should leave no operator behind that `inject_which_op` has an intrinsic for. It does
so exactly on the modules without conversions of integers to floating-point numbers: the aliases of
these eight operators do not shadow the pass injectors.

**Calls of intrinsics** (`SoftfloatOnly`): in place of each operator that has an intrinsic stands a
call of it, with its name and type.

**Conversions** (`NoConverts`): the operators that keep the injector that passes them on. A module
with one of them in a body keeps it.
-/

namespace FractalWasm

open Codec Control IR WASM

namespace WasmInjections

variable {bytes : Bytes} {m : Module}

/-! ## The registered intrinsics -/

/-- The rows of `REGISTER_INJECTED_INTRINSICS`, under the types their signatures stand for. -/
def injectedIntrinsics : List Intrinsic := [
  ⟨str "use_gas", ⟨.none, [.i64]⟩⟩,
  ⟨str "_eosio_f32_add", ⟨.f32, [.f32, .f32]⟩⟩,
  ⟨str "_eosio_f32_sub", ⟨.f32, [.f32, .f32]⟩⟩,
  ⟨str "_eosio_f32_mul", ⟨.f32, [.f32, .f32]⟩⟩,
  ⟨str "_eosio_f32_div", ⟨.f32, [.f32, .f32]⟩⟩,
  ⟨str "_eosio_f32_min", ⟨.f32, [.f32, .f32]⟩⟩,
  ⟨str "_eosio_f32_max", ⟨.f32, [.f32, .f32]⟩⟩,
  ⟨str "_eosio_f32_copysign", ⟨.f32, [.f32, .f32]⟩⟩,
  ⟨str "_eosio_f32_abs", ⟨.f32, [.f32]⟩⟩,
  ⟨str "_eosio_f32_neg", ⟨.f32, [.f32]⟩⟩,
  ⟨str "_eosio_f32_sqrt", ⟨.f32, [.f32]⟩⟩,
  ⟨str "_eosio_f32_ceil", ⟨.f32, [.f32]⟩⟩,
  ⟨str "_eosio_f32_floor", ⟨.f32, [.f32]⟩⟩,
  ⟨str "_eosio_f32_trunc", ⟨.f32, [.f32]⟩⟩,
  ⟨str "_eosio_f32_nearest", ⟨.f32, [.f32]⟩⟩,
  ⟨str "_eosio_f32_eq", ⟨.i32, [.f32, .f32]⟩⟩,
  ⟨str "_eosio_f32_ne", ⟨.i32, [.f32, .f32]⟩⟩,
  ⟨str "_eosio_f32_lt", ⟨.i32, [.f32, .f32]⟩⟩,
  ⟨str "_eosio_f32_le", ⟨.i32, [.f32, .f32]⟩⟩,
  ⟨str "_eosio_f32_gt", ⟨.i32, [.f32, .f32]⟩⟩,
  ⟨str "_eosio_f32_ge", ⟨.i32, [.f32, .f32]⟩⟩,
  ⟨str "_eosio_f64_add", ⟨.f64, [.f64, .f64]⟩⟩,
  ⟨str "_eosio_f64_sub", ⟨.f64, [.f64, .f64]⟩⟩,
  ⟨str "_eosio_f64_mul", ⟨.f64, [.f64, .f64]⟩⟩,
  ⟨str "_eosio_f64_div", ⟨.f64, [.f64, .f64]⟩⟩,
  ⟨str "_eosio_f64_min", ⟨.f64, [.f64, .f64]⟩⟩,
  ⟨str "_eosio_f64_max", ⟨.f64, [.f64, .f64]⟩⟩,
  ⟨str "_eosio_f64_copysign", ⟨.f64, [.f64, .f64]⟩⟩,
  ⟨str "_eosio_f64_abs", ⟨.f64, [.f64]⟩⟩,
  ⟨str "_eosio_f64_neg", ⟨.f64, [.f64]⟩⟩,
  ⟨str "_eosio_f64_sqrt", ⟨.f64, [.f64]⟩⟩,
  ⟨str "_eosio_f64_ceil", ⟨.f64, [.f64]⟩⟩,
  ⟨str "_eosio_f64_floor", ⟨.f64, [.f64]⟩⟩,
  ⟨str "_eosio_f64_trunc", ⟨.f64, [.f64]⟩⟩,
  ⟨str "_eosio_f64_nearest", ⟨.f64, [.f64]⟩⟩,
  ⟨str "_eosio_f64_eq", ⟨.i32, [.f64, .f64]⟩⟩,
  ⟨str "_eosio_f64_ne", ⟨.i32, [.f64, .f64]⟩⟩,
  ⟨str "_eosio_f64_lt", ⟨.i32, [.f64, .f64]⟩⟩,
  ⟨str "_eosio_f64_le", ⟨.i32, [.f64, .f64]⟩⟩,
  ⟨str "_eosio_f64_gt", ⟨.i32, [.f64, .f64]⟩⟩,
  ⟨str "_eosio_f64_ge", ⟨.i32, [.f64, .f64]⟩⟩,
  ⟨str "_eosio_f32_promote", ⟨.f64, [.f32]⟩⟩,
  ⟨str "_eosio_f64_demote", ⟨.f32, [.f64]⟩⟩,
  ⟨str "_eosio_f32_trunc_i32s", ⟨.i32, [.f32]⟩⟩,
  ⟨str "_eosio_f64_trunc_i32s", ⟨.i32, [.f64]⟩⟩,
  ⟨str "_eosio_f32_trunc_i32u", ⟨.i32, [.f32]⟩⟩,
  ⟨str "_eosio_f64_trunc_i32u", ⟨.i32, [.f64]⟩⟩,
  ⟨str "_eosio_f32_trunc_i64s", ⟨.i64, [.f32]⟩⟩,
  ⟨str "_eosio_f64_trunc_i64s", ⟨.i64, [.f64]⟩⟩,
  ⟨str "_eosio_f32_trunc_i64u", ⟨.i64, [.f32]⟩⟩,
  ⟨str "_eosio_f64_trunc_i64u", ⟨.i64, [.f64]⟩⟩,
  ⟨str "_eosio_i32_to_f32", ⟨.f32, [.i32]⟩⟩,
  ⟨str "_eosio_i64_to_f32", ⟨.f32, [.i64]⟩⟩,
  ⟨str "_eosio_ui32_to_f32", ⟨.f32, [.i32]⟩⟩,
  ⟨str "_eosio_ui64_to_f32", ⟨.f32, [.i64]⟩⟩,
  ⟨str "_eosio_i32_to_f64", ⟨.f64, [.i32]⟩⟩,
  ⟨str "_eosio_i64_to_f64", ⟨.f64, [.i64]⟩⟩,
  ⟨str "_eosio_ui32_to_f64", ⟨.f64, [.i32]⟩⟩,
  ⟨str "_eosio_ui64_to_f64", ⟨.f64, [.i64]⟩⟩]

theorem mem_injectedIntrinsics {x : Intrinsic} (h : x ∈ knownIntrinsics) :
    x ∈ injectedIntrinsics := by
  -- The names differ near their ends, so the comparisons are short from there.
  have hall : ∀ key ∈ knownIntrinsics.map fun x => (x.type, x.name.reverse),
      key ∈ injectedIntrinsics.map fun x => (x.type, x.name.reverse) := by decide +kernel
  obtain ⟨⟨name, type⟩, hmem, hkey⟩ := List.mem_map.1 (hall _ (List.mem_map_of_mem h))
  obtain ⟨htype, hreverse⟩ := Prod.mk.inj hkey
  have hname : name = x.name := List.reverse_injective hreverse
  rwa [show type = x.type from htype, hname] at hmem

/-! ## What the injection should achieve -/

/-- An operator that has an intrinsic has become a call of it. -/
def CallsIntrinsic (m' : Module) (op op' : Operator) : Prop :=
  ∀ name, injectWhichOp op.opcode = .ok name → ∃ index type, op' = .call index ∧
    m'.function? index.toNat = some (.import_ ⟨type, injectedModuleName, name⟩)

/-- The injected module `m'` of `m` computes on floating-point numbers in intrinsics only, and
these are registered. -/
structure SoftfloatOnly (m m' : Module) : Prop where
  noneLeft : ∀ fd ∈ m'.functions.defs, ∀ op ∈ fd.operators, ∀ name,
    injectWhichOp op.opcode ≠ .ok name
  replaced : ∀ {place : Nat} {fd : FunctionDef}, m.functions.defs[place]? = some fd →
    ∃ ops, m'.bodies place = some ops ∧ List.Forall₂ (CallsIntrinsic m') (meteredOps m fd) ops
  links : ∀ i < m'.functions.imports.length - m.functions.imports.length,
    ∃ x ∈ injectedIntrinsics, m'.function? i = some x.function

/-- No body converts an integer to a floating-point number. -/
def NoConverts (m : Module) : Prop :=
  ∀ fd ∈ m.functions.defs, ∀ op : NumericOp, .numeric op ∈ fd.operators → isConvert op = false

theorem injectWhichOp_of_convert {op : NumericOp} (h : isConvert op = true) :
    ∃ name, injectWhichOp (.numeric op) = .ok name := by
  cases op <;> first | exact ⟨_, rfl⟩ | cases h

/-- Apart from the conversions, every operator with an intrinsic is replaced by it. -/
theorem replaced?_of_injectWhichOp {op : Operator} {name : Bytes}
    (h : injectWhichOp op.opcode = .ok name) :
    (∃ convert, op = .numeric convert ∧ isConvert convert = true) ∨
      ∃ x, replaced? op = some x ∧ x.name = name := by
  cases op with
  | numeric op =>
    have h : injectWhichOp (.numeric op) = .ok name := h
    cases hconvert : isConvert op with
    | true => exact .inl ⟨op, rfl, hconvert⟩
    | false =>
      refine .inr ⟨⟨name, operatorType op.signature⟩, ?_, rfl⟩
      simp only [replaced?, replacement?, h, hconvert]
      rfl
  | load op _ _ => cases op <;> cases h
  | store op _ _ => cases op <;> cases h
  | _ => cases h

theorem replaced?_of_convert {op : NumericOp} (h : isConvert op = true) :
    replaced? (.numeric op) = none := by
  obtain ⟨name, hname⟩ := injectWhichOp_of_convert h
  simp only [replaced?, replacement?, hname, h, if_true]

/-- The conversions of a body are among what the first pass keeps. -/
theorem numeric_mem_metered (hm : Decoded m) {fd : FunctionDef} (hfd : fd ∈ m.functions.defs)
    {op : NumericOp} (hop : .numeric op ∈ fd.operators) : .numeric op ∈ meteredOps m fd := by
  obtain ⟨before, after, hsplit⟩ := List.append_of_mem hop
  have hkept : .numeric op ∈ (gasMeter m).upToBoundary fd.operators := by
    rcases hm.bodiesAccepted fd hfd with hnil | ⟨ops, hcode, -, haccepts⟩
    · have hempty : fd.operators = [] := by
        rw [FunctionDef.operators, hnil]
        rfl
      rw [hempty] at hop
      exact absurd hop List.not_mem_nil
    · have hops : fd.operators = ops := FunctionDef.operators_of_code hcode
      have hend := haccepts.end_mem (hops ▸ hsplit)
      have hboundary : (gasMeter m).boundary .end_ = true := rfl
      rw [hsplit]
      exact Meter.mem_upToBoundary hboundary hend
  rw [← withoutCharges_metered hm hfd] at hkept
  exact Meter.mem_of_mem_withoutCharges hkept

theorem numeric_mem_of_metered {fd : FunctionDef} {op : NumericOp}
    (hop : .numeric op ∈ meteredOps m fd) : .numeric op ∈ fd.operators := by
  rcases Meter.mem_insert hop with hmem | hcharge | ⟨gas, hpush⟩
  · exact hmem
  · cases hcharge
  · cases hpush

namespace Injected

variable {injection : Injection}

/-- A conversion stays what it was. -/
theorem noConverts_of_noneLeft (h : Injected m injection) (hm : Decoded m)
    (hnone : ∀ fd ∈ injection.module.functions.defs, ∀ op ∈ fd.operators, ∀ name,
      injectWhichOp op.opcode ≠ .ok name) : NoConverts m := by
  intro fd hfd op hop
  by_contra hconvert
  have hconvert : isConvert op = true := by simpa using hconvert
  obtain ⟨name, hname⟩ := injectWhichOp_of_convert hconvert
  have hkept : rewrite m (usedIntrinsics m) (.numeric op) = .numeric op := by
    simp only [rewrite, replaced?_of_convert hconvert]
  have hmem : fd.withOperators ((meteredOps m fd).map (rewrite m (usedIntrinsics m))) ∈
      injection.module.functions.defs := by
    rw [h.defs]
    exact List.mem_map_of_mem hfd
  refine hnone _ hmem (.numeric op) ?_ name hname
  rw [FunctionDef.operators_withOperators, ← hkept]
  exact List.mem_map_of_mem (numeric_mem_metered hm hfd hop)

/-- Without conversions every operator that has an intrinsic calls it afterwards. -/
theorem callsIntrinsic (h : Injected m injection) (hm : Decoded m) (hvalid : ValidDefinitions m)
    (hno : NoConverts m) {fd : FunctionDef} (hfd : fd ∈ m.functions.defs) {op : Operator}
    (hop : op ∈ meteredOps m fd) :
    CallsIntrinsic injection.module op (rewrite m (usedIntrinsics m) op) ∧
      ∀ name, injectWhichOp (rewrite m (usedIntrinsics m) op).opcode ≠ .ok name := by
  have hsame := h.sameOperator hm hvalid hfd hop
  revert hsame
  generalize rewrite m (usedIntrinsics m) op = op'
  intro hsame
  have hreplaced : ∀ {name}, injectWhichOp op.opcode = .ok name →
      ∃ x, replaced? op = some x ∧ x.name = name := by
    intro name hname
    rcases replaced?_of_injectWhichOp hname with ⟨convert, rfl, hconvert⟩ | hreplaced
    · have hnot := hno fd hfd convert (numeric_mem_of_metered hop)
      rw [hconvert] at hnot
      cases hnot
    · exact hreplaced
  cases hsame with
  | charge hlt hfunction => exact ⟨nofun, nofun⟩
  | @replaced op x index hx hlt hfunction =>
    refine ⟨fun name hname => ?_, nofun⟩
    obtain ⟨y, hy, rfl⟩ := hreplaced hname
    have heq : x = y := Option.some.inj (hx.symm.trans hy)
    subst heq
    exact ⟨index, x.type, rfl, hfunction⟩
  | call hlt hle hsame => exact ⟨nofun, nofun⟩
  | other hx hcall =>
    have hnone : ∀ name, injectWhichOp op.opcode ≠ .ok name := by
      intro name hname
      obtain ⟨y, hy, -⟩ := hreplaced hname
      rw [hx] at hy
      cases hy
    exact ⟨fun name hname => absurd hname (hnone name), hnone⟩

theorem softfloatOnly (h : Injected m injection) (hm : Decoded m) (hvalid : ValidDefinitions m)
    (hno : NoConverts m) : SoftfloatOnly m injection.module := by
  refine ⟨?_, ?_, ?_⟩
  · intro fd hfd op hop
    rw [h.defs] at hfd
    obtain ⟨source, hsource, rfl⟩ := List.mem_map.1 hfd
    rw [FunctionDef.operators_withOperators] at hop
    obtain ⟨op, hmem, rfl⟩ := List.mem_map.1 hop
    exact (h.callsIntrinsic hm hvalid hno hsource hmem).2
  · intro place fd hfd
    refine ⟨_, h.bodies_eq_some hfd, ?_⟩
    apply List.forall₂_map_right_iff.2
    apply List.forall₂_same.2
    intro op hop
    exact (h.callsIntrinsic hm hvalid hno (List.mem_of_getElem? hfd) hop).1
  · intro i hi
    rw [h.length_imports, Nat.add_sub_cancel] at hi
    have hget := List.getElem?_eq_getElem hi
    have hknown := h.registered.distinct.known _ (List.getElem_mem hi)
    exact ⟨_, mem_injectedIntrinsics hknown, h.function?_injected hget⟩

end Injected

/-- The injected module computes on floating-point numbers in registered intrinsics only if and
only if the module converts no integer to a floating-point number. -/
theorem softfloat_only_iff_no_converts (hdecode : decode bytes = .ok m) (caches : Caches) :
    ∃ injection caches', inject caches m = .ok (injection, caches') ∧
      (SoftfloatOnly m injection.module ↔ NoConverts m) := by
  have hm := Decoded.of_decode hdecode
  have hvalid := ValidDefinitions.of_validate hm.definitions
  obtain ⟨injection, caches', hinject, h⟩ := injected_of_decoded hm caches
  refine ⟨injection, caches', hinject, ?_⟩
  constructor
  · intro honly
    exact h.noConverts_of_noneLeft hm honly.noneLeft
  · intro hno
    exact h.softfloatOnly hm hvalid hno

/-- A module without conversions. -/
theorem softfloat_only_iff_no_converts_sample :
    ∃ injection caches', inject .initial sampleModule = .ok (injection, caches') ∧
      SoftfloatOnly sampleModule injection.module := by
  obtain ⟨injection, caches', hinject, hiff⟩ :=
    softfloat_only_iff_no_converts decode_sampleBytes .initial
  refine ⟨injection, caches', hinject, hiff.2 ?_⟩
  intro fd hfd op hop
  obtain rfl := List.mem_singleton.1 hfd
  rw [FunctionDef.operators_of_code rfl] at hop
  have hadd : op = .f32Add := by simpa [sampleOps] using hop
  rw [hadd]
  rfl

/-- A function that converts zero. -/
def convertBytes : Bytes :=
  [0x00, 0x61, 0x73, 0x6d, 1, 0, 0, 0,
    1, 4, 1, 0x60, 0, 0,
    3, 2, 1, 0,
    10, 8, 1, 6, 0, 0x41, 0, 0xb2, 0x1a, 0x0b]

def convertModule : Module :=
  { Module.empty with
    types := [⟨.none, []⟩]
    functions := ⟨[], [⟨0, [], encodeOps [.i32Const 0, .numeric .f32ConvertSI32, .drop, .end_], []⟩]⟩ }

theorem decode_convertBytes : decode convertBytes = .ok convertModule := by
  refine Except.toOption_eq_some.1 ?_
  decide +kernel

theorem softfloat_only_of_every_module_false :
    ¬ ∀ {bytes m}, decode bytes = .ok m → ∀ {caches injection caches'},
      inject caches m = .ok (injection, caches') → SoftfloatOnly m injection.module := by
  intro hall
  have heval : ((inject .initial convertModule).map fun result =>
      result.1.module.functions.defs.map FunctionDef.operators).toOption =
      some [[.i64Const 103, .call 0, .i32Const 0, .numeric .f32ConvertSI32, .drop, .end_]] := by
    decide +kernel
  cases hinject : inject .initial convertModule with
  | error e =>
    rw [hinject] at heval
    cases heval
  | ok result =>
    rw [hinject] at heval
    have honly := hall decode_convertBytes hinject
    have hops := Option.some.inj heval
    obtain ⟨fd, hfd, hfdops⟩ := List.mem_map.1 (hops ▸ List.mem_singleton_self _)
    refine honly.noneLeft fd hfd (.numeric .f32ConvertSI32) ?_ (str "_eosio_i32_to_f32") rfl
    rw [hfdops]
    decide

end WasmInjections

end FractalWasm
