import FractalWasm.IR.StackBalance
import FractalWasm.Wasmlib.Instrumented

/-!
# Injected bodies under the code validator

What the validator makes of an injected body. A replaced operator and the call that stands for it do
the same to its stacks, and so do a call and the call with the shifted index. A charge changes
nothing inside the function, and is refused behind the `end` that closes it, where the validator has
an empty control stack but still accepts code.

**Replacements** (`Replaces`): a simulation between the validation of the body and that of the
injected one.

**Charges** (`ChargedInside`): no charge is inserted behind the closing `end`. It is a condition on
the code of the contract and the gas table alone, and it decides whether the injected module is well
typed (`WellTyped`).
-/

namespace FractalWasm

open Codec Control IR WASM

namespace WasmInjections

/-! ## The condition -/

/-- Whether no segment that costs something starts behind the end of the function. `start`
structures were open where the segment at hand starts, `depth` are in front of `ops`, and what was
read of the segment costs `gas`. -/
def chargedInside : (start depth gas : Nat) → List Operator → Bool
  | _, _, _, [] => true
  | start, depth, gas, op :: ops =>
    let gas := gas + gasTable op.opcode.code
    let depth := depth + op.opens - op.closes
    if endsSegment (some op.opcode) then
      (decide (start ≠ 0) || decide (gas = 0)) && chargedInside depth depth 0 ops
    else chargedInside start depth gas ops

/-- No charge is due behind the end of the function. -/
def ChargedInside (fd : FunctionDef) : Prop := chargedInside 1 1 0 fd.operators = true

instance (fd : FunctionDef) : Decidable (ChargedInside fd) :=
  inferInstanceAs (Decidable (_ = true))

variable {m : Module}

open FunctionValidationContext

theorem chargedInside_segment {branchTables : List (List UInt32)} {segment : List Operator}
    {op : Operator} {context mid : FunctionValidationContext}
    (hvisit : visitAll m branchTables (segment ++ [op]) context = .ok ((), mid))
    (hseg : ∀ x ∈ segment, endsSegment (some x.opcode) = false)
    (hop : endsSegment (some op.opcode) = true) (start gas : Nat) (rest : List Operator) :
    chargedInside start context.controlStack.length gas (segment ++ op :: rest) =
      ((decide (start ≠ 0) || decide (gas + ((segment ++ [op]).map fun x =>
        gasTable x.opcode.code).sum = 0)) &&
        chargedInside mid.controlStack.length mid.controlStack.length 0 rest) := by
  induction segment generalizing context gas with
  | nil =>
    obtain ⟨u, final, hlast, hnil⟩ := bind_eq_ok.1 hvisit
    obtain ⟨-, rfl⟩ := pure_eq_ok.1 hnil
    have hlength := length_of_visit hlast
    have hdepth : context.controlStack.length + op.opens - op.closes =
        final.controlStack.length := by omega
    simp only [List.nil_append, chargedInside, hop, if_true, hdepth, List.map_cons, List.map_nil,
      List.sum_cons, List.sum_nil, Nat.add_zero]
  | cons x segment ih =>
    obtain ⟨u, next, hx, hvisit⟩ := bind_eq_ok.1 hvisit
    have hlength := length_of_visit hx
    have hdepth : context.controlStack.length + x.opens - x.closes =
        next.controlStack.length := by omega
    have hinside : endsSegment (some x.opcode) = false := hseg x List.mem_cons_self
    have hrest := ih hvisit (fun y hy => hseg y (List.mem_cons_of_mem x hy))
      (gas + gasTable x.opcode.code)
    simp only [List.cons_append, chargedInside, hinside, hdepth, Bool.false_eq_true, if_false, hrest,
      List.map_cons, List.sum_cons, Nat.add_assoc]

/-- Code in which no segment ends is not charged at all. -/
theorem chargedInside_of_straight {ops : List Operator}
    (h : ∀ op ∈ ops, endsSegment (some op.opcode) = false) (start depth gas : Nat) :
    chargedInside start depth gas ops = true := by
  induction ops generalizing depth gas with
  | nil => rfl
  | cons op ops ih =>
    have hop := h op List.mem_cons_self
    simp only [chargedInside, hop, Bool.false_eq_true, if_false]
    exact ih (fun x hx => h x (List.mem_cons_of_mem op hx)) _ _

/-! ## One operator -/

/-- A call of a function of an operator's type is to the validator what the operator is. -/
theorem visit_call_of_operatorType {op : NumericOp} {m' : Module} {functionIndex : UInt32}
    (hfunction : m'.functionType? functionIndex.toNat = some (operatorType op.signature))
    (branchTables : List (List UInt32)) :
    visit m' branchTables (.call functionIndex) = visit m branchTables (.numeric op) := by
  have hindex : validateFunctionIndex m' functionIndex.toNat =
      .ok (operatorType op.signature) := by
    simp only [validateFunctionIndex, hfunction]
  have hcall : visit m' branchTables (.call functionIndex) =
      (popAndValidateOperands (operatorType op.signature).parameters >>= fun _ =>
        pushResult (operatorType op.signature).ret) := by
    simp only [visit, hindex]
    rfl
  rw [hcall]
  simp only [visit]
  cases op.signature with
  | unary operand result =>
    have hone : popAndValidateOperands [operand] = popAndValidateOperand operand :=
      bind_pure_unit
    simp only [operatorType, hone]
  | binary operand result => rfl

theorem type_of_replacement {op : NumericOp} {x : Intrinsic} (h : replacement? op = some x) :
    x.type = operatorType op.signature := by
  unfold replacement? at h
  split at h
  · split at h
    · cases h
    · cases h
      rfl
  · cases h

/-! ## The functions of the injected module -/

/-- The type of what a function index denotes. -/
def functionType : Function → FunctionType
  | .import_ imp => imp.type
  | .definition _ type => type

theorem functionType?_eq (m : Module) (functionIndex : Nat) :
    m.functionType? functionIndex = (m.function? functionIndex).map functionType := by
  unfold Module.functionType? Module.functionTypeIndex? IndexSpace.getType? Module.function?
  split
  · cases himport : m.functions.imports[functionIndex]? with
    | none => rfl
    | some imp =>
      simp only [Option.map_some, Option.bind_some, Option.bind_eq_bind]
      cases m.types[imp.type]? <;> rfl
  · dsimp only
    cases hdef : m.functions.defs[functionIndex - m.functions.imports.length]? with
    | none => rfl
    | some fd =>
      simp only [Option.map_some, Option.bind_some, Option.bind_eq_bind]
      cases m.types[fd.type]? <;> rfl

namespace Injected

variable {injection : Injection}

theorem functionType?_injected (h : Injected m injection) {i : Nat} {x : Intrinsic}
    (hx : (usedIntrinsics m)[i]? = some x) :
    injection.module.functionType? i = some x.type := by
  rw [functionType?_eq, h.function?_injected hx]
  rfl

theorem functionType?_original (h : Injected m injection) (hvalid : ValidDefinitions m)
    {functionIndex : Nat} (hlt : functionIndex < m.functions.size) :
    injection.module.functionType? (functionIndex + (usedIntrinsics m).length) =
      m.functionType? functionIndex := by
  rw [functionType?_eq, h.function?_original hvalid hlt, functionType?_eq]

theorem functionType?_zero (h : Injected m injection) :
    injection.module.functionType? 0 = some ⟨.none, [.i64]⟩ := by
  obtain ⟨more, hmore⟩ := extend_usedIntrinsics m
  have hfirst : (usedIntrinsics m)[0]? = some useGasIntrinsic := by
    rw [← hmore]
    rfl
  exact h.functionType?_injected hfirst

theorem extendsTypes (h : Injected m injection) : ExtendsTypes m injection.module where
  types := h.types_prefix
  globals := by rw [h.shiftedBy.globals, maxMemoryInject_eq]
  tables_size := by rw [h.shiftedBy.tables, maxMemoryInject_eq]
  memories_size := by
    rw [h.memories, IndexSpace.size, IndexSpace.size]
    cases m.memories.defs <;> rfl

/-- What the injection makes of an operator does the same to the validator's stacks. -/
theorem visit_rewrite (h : Injected m injection) (hm : Decoded m)
    {branchTables : List (List UInt32)} {op : Operator}
    (hused : ∀ x, replaced? op = some x → x ∈ usedIntrinsics m)
    {context context' : FunctionValidationContext}
    (hvisit : visit m branchTables op context = .ok ((), context')) :
    visit injection.module branchTables (rewrite m (usedIntrinsics m) op) context =
      .ok ((), context') := by
  unfold rewrite
  cases hx : replaced? op with
  | some x =>
    cases op with
    | numeric op =>
      have hmem := hused x hx
      have hget := List.getElem?_eq_getElem (List.idxOf_lt_length_of_mem hmem)
      rw [List.getElem_idxOf] at hget
      have hfunction : injection.module.functionType?
          ((usedIntrinsics m).idxOf x).toUInt32.toNat = some (operatorType op.signature) := by
        rw [h.toNat_idxOf hmem, h.functionType?_injected hget, type_of_replacement hx]
      simp only [@visit_call_of_operatorType m _ _ _ hfunction]
      exact hvisit
    | _ => cases hx
  | none =>
    cases op with
    | call functionIndex =>
      have hvalid := ValidDefinitions.of_validate hm.definitions
      have hlt := lt_of_visit_call hvisit
      have hne : functionIndex ≠ useGasIndex m := by
        intro heq
        rw [heq, toNat_useGasIndex hm] at hlt
        exact Nat.lt_irrefl _ hlt
      have hindex : validateFunctionIndex injection.module
          (functionIndex + (usedIntrinsics m).length.toUInt32).toNat =
          validateFunctionIndex m functionIndex.toNat := by
        simp only [validateFunctionIndex, h.toNat_shifted hm hlt,
          h.functionType?_original hvalid hlt]
      simp only [if_neg hne, visit, hindex]
      exact hvisit
    | _ => exact visit_extendsTypes h.extendsTypes (fun _ hcall => by cases hcall) hvisit

theorem visitAll_rewrite (h : Injected m injection) (hm : Decoded m)
    {branchTables : List (List UInt32)} {ops : List Operator}
    (hused : ∀ op ∈ ops, ∀ x, replaced? op = some x → x ∈ usedIntrinsics m)
    {context context' : FunctionValidationContext}
    (hvisit : visitAll m branchTables ops context = .ok ((), context')) :
    visitAll injection.module branchTables (ops.map (rewrite m (usedIntrinsics m))) context =
      .ok ((), context') := by
  induction ops generalizing context with
  | nil => exact hvisit
  | cons op ops ih =>
    obtain ⟨u, mid, hop, hops⟩ := bind_eq_ok.1 hvisit
    have hrest := ih (fun x hx => hused x (List.mem_cons_of_mem op hx)) hops
    exact bind_eq_ok.2 ⟨u, mid, h.visit_rewrite hm (hused op List.mem_cons_self) hop, hrest⟩

/-- What the last two passes make of a charge. -/
theorem map_rewrite_charge (m : Module) (used : List Intrinsic) (gas : Nat) :
    ((gasMeter m).charge gas).map (rewrite m used) =
      if 0 < gas then [.i64Const gas.toUInt64, .call 0] else [] := by
  have hpay : rewrite m used (.call (useGasIndex m)) = .call 0 := if_pos rfl
  unfold Meter.charge
  split
  · rw [List.map_cons, List.map_cons, List.map_nil]
    exact congrArg (fun op => [.i64Const gas.toUInt64, op]) hpay
  · rfl

/-- From a balanced context the validator takes a charge and comes back to the context, unless the
charge is due and the function has ended. -/
theorem visitAll_charge (h : Injected m injection) (branchTables : List (List UInt32)) (gas : Nat)
    {context context' : FunctionValidationContext} (hbalanced : context.Balanced) :
    visitAll injection.module branchTables
        (((gasMeter m).charge gas).map (rewrite m (usedIntrinsics m))) context =
          .ok ((), context') ↔
      (context.controlStack.length ≠ 0 ∨ gas = 0) ∧ context' = context := by
  rw [map_rewrite_charge]
  split
  · next hpos =>
    have hgas : gas ≠ 0 := by omega
    have hcall : injection.module.functionType? (0 : UInt32).toNat = some ⟨.none, [.i64]⟩ :=
      h.functionType?_zero
    rw [FunctionValidationContext.visitAll_charge hcall branchTables _ hbalanced]
    simp [hgas]
  · next hpos =>
    have hgas : gas = 0 := by omega
    constructor
    · intro hvisit
      obtain ⟨-, rfl⟩ := pure_eq_ok.1 hvisit
      exact ⟨.inr hgas, rfl⟩
    · rintro ⟨-, rfl⟩
      rfl

theorem total_eq_sum {ops : List Operator} (h : (gasMeter m).pay ∉ ops) :
    (gasMeter m).total ops = (ops.map fun op => gasTable op.opcode.code).sum := by
  apply congrArg List.sum
  apply List.map_congr_left
  intro op hop
  apply if_neg
  rintro rfl
  exact h hop

theorem length_le_of_straight {m : Module} {branchTables : List (List UInt32)}
    {ops : List Operator} (hops : ∀ op ∈ ops, endsSegment (some op.opcode) = false)
    {context context' : FunctionValidationContext}
    (hvisit : visitAll m branchTables ops context = .ok ((), context')) :
    context.controlStack.length ≤ context'.controlStack.length := by
  induction ops generalizing context with
  | nil =>
    obtain ⟨-, rfl⟩ := pure_eq_ok.1 hvisit
    exact Nat.le_refl _
  | cons op ops ih =>
    obtain ⟨u, mid, hop, hvisit⟩ := bind_eq_ok.1 hvisit
    have hrest := ih (fun x hx => hops x (List.mem_cons_of_mem op hx)) hvisit
    have hlength := length_of_visit hop
    have hcloses : op.closes = 0 := by
      have hinside := hops op List.mem_cons_self
      cases op with
      | end_ => cases hinside
      | _ => rfl
    omega

theorem straight_of_insert_nil {ops : List Operator} (h : (gasMeter m).insert ops = []) :
    ∀ op ∈ ops, endsSegment (some op.opcode) = false := by
  intro op hop
  cases hends : endsSegment (some op.opcode) with
  | false => rfl
  | true =>
    have hboundary : (gasMeter m).boundary op = true := hends
    obtain ⟨before, after, rfl⟩ := List.append_of_mem hop
    have hnil := Meter.upToBoundary_of_insertFrom_nil h
    rw [Meter.upToBoundary_append hboundary] at hnil
    simp at hnil

/-- The metered and rewritten rest of an accepted body, from the context in front of it. -/
theorem visitAll_metered_iff (h : Injected m injection) (hm : Decoded m)
    {branchTables : List (List UInt32)} {source : List Operator}
    (hpay : (gasMeter m).pay ∉ source)
    (hused : ∀ op ∈ (gasMeter m).insert source, ∀ x, replaced? op = some x → x ∈ usedIntrinsics m)
    {context final : FunctionValidationContext} (hbalanced : context.Balanced)
    (hvisit : visitAll m branchTables source context = .ok ((), final))
    (hdone : final.controlStack = []) :
    (∃ final', visitAll injection.module branchTables
        (((gasMeter m).insert source).map (rewrite m (usedIntrinsics m))) context =
          .ok ((), final') ∧ final'.controlStack = []) ↔
      chargedInside context.controlStack.length context.controlStack.length 0 source = true := by
  induction hn : source.length using Nat.strongRecOn generalizing source context with
  | ind n ih =>
    rcases @Meter.insert_eq _ (gasMeter m) source with hnil | ⟨segment, op, rest, rfl, hseg, hop, hcode⟩
    · -- What is left is dropped; it closes no structure, so none was open in front of it.
      have hstraight := straight_of_insert_nil hnil
      have hle := length_le_of_straight hstraight hvisit
      rw [hdone, List.length_nil] at hle
      rw [hnil, chargedInside_of_straight hstraight]
      refine iff_of_true ⟨context, rfl, ?_⟩ rfl
      exact List.length_eq_zero_iff.1 (Nat.le_zero.1 hle)
    · have hsplit : segment ++ op :: rest = (segment ++ [op]) ++ rest := by simp
      rw [hsplit, visitAll_append] at hvisit
      obtain ⟨mid, hfirst, hrest⟩ := hvisit
      have hpays : (gasMeter m).pay ∉ segment ++ [op] ∧ (gasMeter m).pay ∉ rest := by
        rw [hsplit] at hpay
        exact ⟨fun hmem => hpay (List.mem_append_left _ hmem),
          fun hmem => hpay (List.mem_append_right _ hmem)⟩
      have husedFirst : ∀ x ∈ segment ++ [op], ∀ y, replaced? x = some y →
          y ∈ usedIntrinsics m := by
        intro x hx
        apply hused x
        rw [hcode]
        rcases List.mem_append.1 hx with hx | hx
        · simp [hx]
        · simp [List.mem_singleton.1 hx]
      have husedRest : ∀ x ∈ (gasMeter m).insert rest, ∀ y, replaced? x = some y →
          y ∈ usedIntrinsics m := by
        intro x hx
        apply hused x
        rw [hcode]
        simp [hx]
      have hlength : rest.length < n := by
        rw [← hn]
        simp only [List.length_append, List.length_cons]
        omega
      have hbalanced' := (KeepsBalance.visitAll m branchTables _).balanced hfirst hbalanced
      have hgas : (gasMeter m).total segment + (gasMeter m).cost op =
          ((segment ++ [op]).map fun x => gasTable x.opcode.code).sum := by
        rw [← total_eq_sum hpays.1, Meter.total_append, Meter.total_cons, Meter.total_nil,
          Nat.add_zero]
      have hinsert : (gasMeter m).insert (segment ++ op :: rest) =
          (gasMeter m).charge ((gasMeter m).total segment + (gasMeter m).cost op) ++
            ((segment ++ [op]) ++ (gasMeter m).insert rest) := by
        rw [hcode]
        simp
      rw [chargedInside_segment hfirst hseg hop, Nat.zero_add, ← hgas, hinsert, Bool.and_eq_true,
        Bool.or_eq_true, decide_eq_true_eq, decide_eq_true_eq,
        ← ih rest.length hlength hpays.2 husedRest hbalanced' hrest rfl]
      have hfirst' := h.visitAll_rewrite hm husedFirst hfirst
      generalize segment ++ [op] = paid at hfirst'
      simp only [List.map_append, visitAll_append, h.visitAll_charge branchTables _ hbalanced]
      constructor
      · rintro ⟨final', ⟨c, ⟨hcharge, rfl⟩, mid', hmid', hfinal'⟩, hdone'⟩
        cases hfirst'.symm.trans hmid'
        exact ⟨hcharge, final', hfinal', hdone'⟩
      · rintro ⟨hcharge, final', hfinal', hdone'⟩
        exact ⟨final', ⟨context, ⟨hcharge, rfl⟩, mid, hfirst', hfinal'⟩, hdone'⟩

/-- A function of the module as the injection leaves it. -/
theorem exists_original (h : Injected m injection) {fd' : FunctionDef}
    (hfd' : fd' ∈ injection.module.functions.defs) :
    ∃ fd ∈ m.functions.defs,
      fd' = fd.withOperators ((meteredOps m fd).map (rewrite m (usedIntrinsics m))) := by
  rw [h.defs] at hfd'
  obtain ⟨fd, hfd, heq⟩ := List.mem_map.1 hfd'
  exact ⟨fd, hfd, heq.symm⟩

theorem functionType_withOperators (h : Injected m injection) (hm : Decoded m) {fd : FunctionDef}
    (hfd : fd ∈ m.functions.defs) (ops : List Operator) :
    (fd.withOperators ops).functionType injection.module = fd.functionType m := by
  have hvalid := ValidDefinitions.of_validate hm.definitions
  have htype := List.getElem?_eq_getElem (hvalid.defTypes fd hfd)
  have htype' : injection.module.types[(fd.withOperators ops).type]? = some _ :=
    h.getElem?_types htype
  rw [FunctionDef.functionType, FunctionDef.functionType, htype', htype]

/-- An injected body is accepted if its original is, unless it is charged behind its end. -/
theorem accepts_iff (h : Injected m injection) (hm : Decoded m) {fd : FunctionDef}
    (hfd : fd ∈ m.functions.defs) (haccepts : fd.Accepts m fd.operators) :
    (fd.withOperators ((meteredOps m fd).map (rewrite m (usedIntrinsics m)))).Accepts
        injection.module ((meteredOps m fd).map (rewrite m (usedIntrinsics m))) ↔
      ChargedInside fd := by
  obtain ⟨final, hvisit, hdone⟩ := haccepts
  have hused : ∀ op ∈ meteredOps m fd, ∀ x, replaced? op = some x → x ∈ usedIntrinsics m :=
    fun op hop x hx => mem_foldl_useOp (List.mem_flatMap.2 ⟨fd, hfd, hop⟩) hx [useGasIntrinsic]
  have hiff := h.visitAll_metered_iff hm (accepted_of_decoded hm hfd).source.pay_notMem hused
    (balanced_init _ _) hvisit hdone
  unfold FunctionDef.Accepts
  rw [h.functionType_withOperators hm hfd]
  exact hiff

end Injected

/-! ## Well-typed injections -/

/-- If `op` is one of the operators that are replaced, `op'` calls a function of its type. -/
def Replaces (m' : Module) (op op' : Operator) : Prop :=
  ∀ numeric x, op = .numeric numeric → replacement? numeric = some x →
    ∃ functionIndex, op' = .call functionIndex ∧
      m'.functionType? functionIndex.toNat = some (operatorType numeric.signature)

/-- The code validator accepts the injected module's bodies, each charge among them leaves its
stacks alone, each replaced operator became a call of a function of its own type, and an intrinsic
that is imported has its own signature. -/
structure WellTyped (m : Module) (injection : Injection) : Prop where
  bodies : ∀ fd ∈ injection.module.functions.defs, fd.Accepts injection.module fd.operators
  charges : ∀ fd ∈ injection.module.functions.defs, ∀ before value after context,
    fd.operators = before ++ .i64Const value :: .call 0 :: after →
    visitAll injection.module fd.branchTables before
      (.init (fd.functionType injection.module) fd.nonParameterLocalTypes) = .ok ((), context) →
    visitAll injection.module fd.branchTables [.i64Const value, .call 0] context =
      .ok ((), context)
  replaced : ∀ place fd, m.functions.defs[place]? = some fd →
    ∃ ops, injection.module.bodies place = some ops ∧
      List.Forall₂ (Replaces injection.module) (meteredOps m fd) ops
  imports : ∀ (i : Nat) (x : Intrinsic), (usedIntrinsics m)[i]? = some x →
    ∃ imp, injection.module.functions.imports[i]? = some imp ∧
      ImportOf injection.module.types imp x

namespace Injected

variable {injection : Injection}

/-- In an accepted body a charge changes nothing. -/
theorem charge_neutral (h : Injected m injection) {fd : FunctionDef}
    (haccepts : fd.Accepts injection.module fd.operators) {before after : List Operator}
    {value : UInt64} {context : FunctionValidationContext}
    (hops : fd.operators = before ++ .i64Const value :: .call 0 :: after)
    (hbefore : visitAll injection.module fd.branchTables before
      (.init (fd.functionType injection.module) fd.nonParameterLocalTypes) = .ok ((), context)) :
    visitAll injection.module fd.branchTables [.i64Const value, .call 0] context =
      .ok ((), context) := by
  obtain ⟨final, hvisit, -⟩ := haccepts
  have hsplit : before ++ .i64Const value :: .call 0 :: after =
      before ++ ([.i64Const value, .call 0] ++ after) := rfl
  rw [hops, hsplit, visitAll_append] at hvisit
  obtain ⟨mid, hmid, hvisit⟩ := hvisit
  cases hbefore.symm.trans hmid
  rw [visitAll_append] at hvisit
  obtain ⟨next, hcharge, -⟩ := hvisit
  have hbalanced : context.Balanced :=
    (KeepsBalance.visitAll _ _ _).balanced hbefore (balanced_init _ _)
  have hcall : injection.module.functionType? (0 : UInt32).toNat = some ⟨.none, [.i64]⟩ :=
    h.functionType?_zero
  obtain ⟨-, rfl⟩ := (FunctionValidationContext.visitAll_charge hcall _ _ hbalanced).1 hcharge
  exact hcharge

theorem replaces (h : Injected m injection) {op : Operator}
    (hused : ∀ x, replaced? op = some x → x ∈ usedIntrinsics m) :
    Replaces injection.module op (rewrite m (usedIntrinsics m) op) := by
  rintro numeric x rfl hx
  have hmem := hused x hx
  have hget := List.getElem?_eq_getElem (List.idxOf_lt_length_of_mem hmem)
  rw [List.getElem_idxOf] at hget
  have hreplaced : replaced? (.numeric numeric) = some x := hx
  refine ⟨((usedIntrinsics m).idxOf x).toUInt32, by simp only [rewrite, hreplaced], ?_⟩
  rw [h.toNat_idxOf hmem, h.functionType?_injected hget, type_of_replacement hx]

theorem wellTyped_iff (h : Injected m injection) (hm : Decoded m)
    (hcode : ∀ fd ∈ m.functions.defs, fd.Accepts m fd.operators) :
    WellTyped m injection ↔ ∀ fd ∈ m.functions.defs, ChargedInside fd := by
  constructor
  · intro htyped fd hfd
    apply (h.accepts_iff hm hfd (hcode fd hfd)).1
    have hmem : fd.withOperators ((meteredOps m fd).map (rewrite m (usedIntrinsics m))) ∈
        injection.module.functions.defs := by
      rw [h.defs]
      exact List.mem_map_of_mem hfd
    simpa only [FunctionDef.operators_withOperators] using htyped.bodies _ hmem
  · intro hinside
    have hbodies : ∀ fd ∈ injection.module.functions.defs,
        fd.Accepts injection.module fd.operators := by
      intro fd' hfd'
      obtain ⟨fd, hfd, rfl⟩ := h.exists_original hfd'
      rw [FunctionDef.operators_withOperators]
      exact (h.accepts_iff hm hfd (hcode fd hfd)).2 (hinside fd hfd)
    refine ⟨hbodies, ?_, ?_, ?_⟩
    · intro fd hfd before value after context hops hbefore
      exact h.charge_neutral (hbodies fd hfd) hops hbefore
    · intro place fd hplace
      refine ⟨(meteredOps m fd).map (rewrite m (usedIntrinsics m)), ?_, ?_⟩
      · rw [Module.bodies, h.defs, List.getElem?_map, hplace]
        exact operators?_encodeOps _
      · apply List.forall₂_map_right_iff.2
        apply List.forall₂_same.2
        intro op hop
        have hfd := List.mem_of_getElem? hplace
        exact h.replaces fun x hx =>
          mem_foldl_useOp (List.mem_flatMap.2 ⟨fd, hfd, hop⟩) hx [useGasIntrinsic]
    · intro i x hx
      exact h.importOf_used hx

end Injected

/-- **Typing.** The injection into a module with accepted bodies is well typed if and only if none
of its functions has code behind its end that costs something before its next boundary. -/
theorem injection_well_typed_iff {bytes : Bytes} (hdecode : decode bytes = .ok m)
    (hcode : ∀ fd ∈ m.functions.defs, fd.Accepts m fd.operators) (caches : Caches) :
    ∃ injection caches', inject caches m = .ok (injection, caches') ∧
      (WellTyped m injection ↔ ∀ fd ∈ m.functions.defs, ChargedInside fd) := by
  have hm := Decoded.of_decode hdecode
  obtain ⟨injection, caches', hinject, h⟩ := injected_of_decoded hm caches
  exact ⟨injection, caches', hinject, h.wellTyped_iff hm hcode⟩

/-- The bodies of a module the decoder accepts, if it gives each function one. -/
theorem accepts_of_decode {bytes : Bytes} (hdecode : decode bytes = .ok m)
    (hbody : ∀ fd ∈ m.functions.defs, fd.code ≠ []) :
    ∀ fd ∈ m.functions.defs, fd.Accepts m fd.operators := by
  intro fd hfd
  rcases (Decoded.of_decode hdecode).bodiesAccepted fd hfd with hnil | ⟨ops, hops, -, haccepts⟩
  · exact absurd hnil (hbody fd hfd)
  · rwa [FunctionDef.operators_of_code hops]

theorem injection_well_typed_iff_sample :
    ∃ injection caches', inject .initial sampleModule = .ok (injection, caches') ∧
      WellTyped sampleModule injection := by
  have hcode := accepts_of_decode decode_sampleBytes (by decide)
  obtain ⟨injection, caches', hinject, hiff⟩ :=
    injection_well_typed_iff decode_sampleBytes hcode .initial
  refine ⟨injection, caches', hinject, hiff.2 ?_⟩
  decide +kernel

/-- A function that ends at once and has the block `nop` behind its end. -/
def trailingBytes : Bytes :=
  [0x00, 0x61, 0x73, 0x6d, 1, 0, 0, 0,
    1, 4, 1, 0x60, 0, 0,
    3, 2, 1, 0,
    10, 8, 1, 6, 0, 0x0b, 0x02, 0x40, 0x01, 0x0b]

def trailingModule : Module :=
  { Module.empty with
    types := [⟨.none, []⟩]
    functions := ⟨[], [⟨0, [], encodeOps [.end_, .block .none, .nop, .end_], []⟩]⟩ }

/-- The charge for the `nop` stands behind the end, where nothing can be popped. -/
theorem injection_ill_typed :
    ¬ ∀ (bytes : Bytes) (m : Module) (caches caches' : Caches) (injection : Injection),
      decode bytes = .ok m → (∀ fd ∈ m.functions.defs, fd.Accepts m fd.operators) →
        inject caches m = .ok (injection, caches') → WellTyped m injection := by
  intro hall
  have hdecode : decode trailingBytes = .ok trailingModule := by
    refine Except.toOption_eq_some.1 ?_
    decide +kernel
  have hm := Decoded.of_decode hdecode
  have hcode := accepts_of_decode hdecode (by decide)
  obtain ⟨injection, caches', hinject, h⟩ := injected_of_decoded hm .initial
  have htyped := hall _ _ _ _ _ hdecode hcode hinject
  have hinside := (h.wellTyped_iff hm hcode).1 htyped
  exact absurd hinside (by decide +kernel)

end WasmInjections

end FractalWasm
