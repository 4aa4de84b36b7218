import FractalWasm.IR.OuterContext
import FractalWasm.Runtime.Execution

/-!
# Activations and validation contexts

The activation and the context the validator has at the same operator go together: the operands, the
locals and the globals have the types the validator thinks they have, and every open structure is
the one of a control entry, behind which the code a branch continues at is validated. Code behind an
unconditional branch is validated too, but an activation does not get there.

**Branch targets** (`Labels`, `Continues`): an open structure knows where a branch to it goes on,
and the validator has a context there.

**Matching activations** (`Matches`): the invariant of an execution, with a lemma for each way
operands are popped and pushed.
-/

namespace FractalWasm.Runtime

open Codec Control IR
open IR.FunctionValidationContext

/-- The validator accepts the code from `context` on, up to the end of the function. -/
def ValidFrom (m : Module) (functionDef : FunctionDef) (context : FunctionValidationContext)
    (code : List Operator) : Prop :=
  ∃ final, visitAll m functionDef.branchTables code context = .ok ((), final) ∧
    final.controlStack = []

/-- The open structures are those of the control entries, which are all reachable. -/
inductive Labels (m : Module) (functionDef : FunctionDef) :
    List OpenStructure → FunctionValidationContext → Prop
  | function {context : FunctionValidationContext} {ret : ResultType}
      (hret : context.functionType.ret = ret)
      (hcontrols : context.controlStack = [⟨.function, 0, ret, ret, true⟩]) :
      Labels m functionDef [⟨.function, 0, ret, ret⟩] context
  | block {start context : FunctionValidationContext} {entry : ControlContext}
      {after : List Operator} {outer : List OpenStructure}
      (houter : Labels m functionDef outer start) (hwithin : Within start entry 0 context)
      (hcontrols : context.controlStack = entry :: start.controlStack)
      (hreachable : entry.isReachable = true)
      (hargument : entry.branchArgumentType = entry.resultType)
      (hafter : ValidFrom m functionDef
        { start with stack := entry.resultType.operands ++ start.stack } after) :
      Labels m functionDef
        (⟨.block after, start.stack.length, entry.resultType, entry.resultType⟩ :: outer) context
  | loop {start context : FunctionValidationContext} {resultType : ResultType}
      {body : List Operator} {outer : List OpenStructure}
      (houter : Labels m functionDef outer start)
      (hwithin : Within start ⟨.loop, start.stack.length, .none, resultType, true⟩ 0 context)
      (hcontrols : context.controlStack =
        ⟨.loop, start.stack.length, .none, resultType, true⟩ :: start.controlStack)
      (hbody : ValidFrom m functionDef { start with
        controlStack := ⟨.loop, start.stack.length, .none, resultType, true⟩ ::
          start.controlStack } body) :
      Labels m functionDef (⟨.loop body, start.stack.length, .none, resultType⟩ :: outer) context

namespace Labels

variable {m : Module} {functionDef : FunctionDef} {structures : List OpenStructure}
  {context context' : FunctionValidationContext}

/-- The structure on top. -/
theorem exists_top (h : Labels m functionDef structures context) :
    ∃ innermost outer control controls, structures = innermost :: outer ∧
      context.controlStack = control :: controls ∧ control.isReachable = true ∧
      innermost.height = control.outerStackSize ∧ innermost.resultType = control.resultType := by
  cases h with
  | function hret hcontrols => exact ⟨_, _, _, _, rfl, hcontrols, rfl, rfl, rfl⟩
  | block houter hwithin hcontrols hreachable =>
    exact ⟨_, _, _, _, rfl, hcontrols, hreachable, hwithin.height.symm, rfl⟩
  | loop houter hwithin hcontrols => exact ⟨_, _, _, _, rfl, hcontrols, rfl, rfl, rfl⟩

theorem controlStack_ne_nil (h : Labels m functionDef structures context) :
    context.controlStack ≠ [] := by
  obtain ⟨-, -, control, controls, -, hcontrols, -⟩ := h.exists_top
  rw [hcontrols]
  exact List.cons_ne_nil control controls

/-- The labels of a context with another operand stack that has the same below the structure on
top. -/
theorem of_staysWithin (h : Labels m functionDef structures context)
    (hstays : StaysWithin context context')
    (hfunctionType : context'.functionType = context.functionType)
    (hsame : context'.controlStack = context.controlStack) :
    Labels m functionDef structures context' := by
  cases h with
  | function hret hcontrols =>
    exact .function (hfunctionType ▸ hret) (hsame.trans hcontrols)
  | block houter hwithin hcontrols hreachable hargument hafter =>
    exact .block houter (hstays hwithin) (hsame.trans hcontrols) hreachable hargument hafter
  | loop houter hwithin hcontrols hbody =>
    exact .loop houter (hstays hwithin) (hsame.trans hcontrols) hbody

theorem push (h : Labels m functionDef structures context) (types : List ValueType) :
    Labels m functionDef structures { context with stack := types ++ context.stack } :=
  h.of_staysWithin
    (fun hwithin => hwithin.of_stack (hwithin.stack.trans (List.suffix_append types _))) rfl rfl

end Labels

/-! ## Branch targets -/

/-- A branch from `context` to a structure, which leaves `outer` open, continues at `code`. -/
structure Continues (m : Module) (functionDef : FunctionDef)
    (context target : FunctionValidationContext) (structure_ : OpenStructure)
    (outer : List OpenStructure) (code : List Operator) : Prop where
  functionType : target.functionType = context.functionType
  locals : target.locals = context.locals
  height : structure_.height = target.stack.length
  stack : target.stack <:+ context.stack
  labels : Labels m functionDef outer target
  valid : ValidFrom m functionDef
    { target with stack := structure_.arity.operands ++ target.stack } code

/-- What a branch to an open structure finds. -/
def Targets (m : Module) (functionDef : FunctionDef) (structures : List OpenStructure)
    (depth : Nat) (context : FunctionValidationContext) (structure_ : OpenStructure) : Prop :=
  match structure_.kind with
  | .function => structure_.height = 0 ∧ structure_.arity = context.functionType.ret
  | .block after =>
    ∃ target, Continues m functionDef context target structure_ (structures.drop (depth + 1)) after
  | .loop body =>
    ∃ target, Continues m functionDef context target structure_ (structures.drop depth) body

section Branches

variable {m : Module} {functionDef : FunctionDef} {structures outer : List OpenStructure}
  {start context target : FunctionValidationContext} {structure_ innermost : OpenStructure}
  {entry : ControlContext} {depth : Nat} {code : List Operator}

theorem Continues.of_within (hwithin : Within start entry 0 context)
    (h : Continues m functionDef start target structure_ outer code) :
    Continues m functionDef context target structure_ outer code :=
  ⟨h.functionType.trans hwithin.functionType.symm, h.locals.trans hwithin.locals.symm, h.height,
    h.stack.trans hwithin.stack, h.labels, h.valid⟩

theorem Targets.of_within (hwithin : Within start entry 0 context)
    (h : Targets m functionDef structures depth start structure_) :
    Targets m functionDef (innermost :: structures) (depth + 1) context structure_ := by
  unfold Targets at h ⊢
  split at h
  · exact ⟨h.1, h.2.trans (congrArg FunctionType.ret hwithin.functionType.symm)⟩
  · obtain ⟨target, htarget⟩ := h
    exact ⟨target, htarget.of_within hwithin⟩
  · obtain ⟨target, htarget⟩ := h
    exact ⟨target, htarget.of_within hwithin⟩

/-- A label the validator finds is an open structure with the same argument. -/
theorem Labels.targets (h : Labels m functionDef structures context) {control : ControlContext}
    (hdepth : context.controlStack[depth]? = some control) :
    ∃ structure_, structures[depth]? = some structure_ ∧
      structure_.arity = control.branchArgumentType ∧
      Targets m functionDef structures depth context structure_ := by
  induction h generalizing depth with
  | @function context ret hret hcontrols =>
    rw [hcontrols] at hdepth
    cases depth with
    | zero =>
      obtain rfl := Option.some.inj hdepth
      exact ⟨_, rfl, rfl, rfl, hret.symm⟩
    | succ depth => cases hdepth
  | @block start context entry after outer houter hwithin hcontrols hreachable hargument hafter ih =>
    rw [hcontrols] at hdepth
    cases depth with
    | zero =>
      obtain rfl := Option.some.inj hdepth
      exact ⟨_, rfl, hargument.symm, start, hwithin.functionType.symm, hwithin.locals.symm, rfl,
        hwithin.stack, houter, hafter⟩
    | succ depth =>
      obtain ⟨structure_, hstructure, harity, htargets⟩ := ih hdepth
      exact ⟨structure_, hstructure, harity, htargets.of_within hwithin⟩
  | @loop start context resultType body outer houter hwithin hcontrols hbody ih =>
    rw [hcontrols] at hdepth
    cases depth with
    | zero =>
      obtain rfl := Option.some.inj hdepth
      refine ⟨_, rfl, rfl, { start with
        controlStack := ⟨.loop, start.stack.length, .none, resultType, true⟩ ::
          start.controlStack }, hwithin.functionType.symm, hwithin.locals.symm, rfl,
        hwithin.stack, ?_, hbody⟩
      exact .loop houter (within_pushControlStack start _ _ _) rfl hbody
    | succ depth =>
      obtain ⟨structure_, hstructure, harity, htargets⟩ := ih hdepth
      exact ⟨structure_, hstructure, harity, htargets.of_within hwithin⟩

end Branches

/-! ## Matching activations -/

/-- The activation is what the validator takes it for. -/
structure Matches (m : Module) (functionDef : FunctionDef) (activation : Activation)
    (context : FunctionValidationContext) : Prop where
  stack : activation.stack.map Value.type = context.stack
  locals : activation.locals.map Value.type = context.locals
  globals : activation.globals.map Value.type = globalTypes m
  ret : context.functionType.ret = (functionDef.functionType m).ret
  labels : Labels m functionDef activation.structures context

/-- An operand of some type, if one is on top. -/
theorem Activation.pop_of_popAny {activation activation' : Activation} {value : Value}
    {type : ValueType} (h : activation.popAny = .ok (value, activation'))
    (htype : value.type = type) : activation.pop type = .ok (value, activation') := by
  rw [Activation.pop, h]
  exact if_pos htype

theorem Value.type_ne_any (value : Value) : value.type ≠ .any := by
  cases value <;> exact nofun

/-- A type that matches the type of a value is that type. -/
theorem eq_of_validateOperandType {type : ValueType} {value : Value} {u : Unit}
    (h : validateOperandType type value.type = .ok u) (htype : type ≠ .any) :
    type = value.type := by
  unfold validateOperandType at h
  split at h
  · cases h
  · next hnot =>
    exact Decidable.not_not.1 fun hne => hnot ⟨hne, htype, value.type_ne_any⟩

namespace Matches

variable {m : Module} {functionDef : FunctionDef} {activation : Activation}
  {context context' : FunctionValidationContext} {type : ValueType}

/-- In an activation there are no operands of type `any`. -/
theorem any_not_mem (h : Matches m functionDef activation context) : .any ∉ context.stack := by
  intro hmem
  rw [← h.stack] at hmem
  obtain ⟨value, -, hany⟩ := List.mem_map.1 hmem
  exact value.type_ne_any hany

theorem height_eq (h : Matches m functionDef activation context) {control : ControlContext}
    {controls : List ControlContext} (hcontrols : context.controlStack = control :: controls) :
    activation.height = control.outerStackSize := by
  obtain ⟨innermost, outer, control', controls', hstructures, hcontrols', -, hheight, -⟩ :=
    h.labels.exists_top
  obtain ⟨rfl, -⟩ := List.cons_eq_cons.1 (hcontrols.symm.trans hcontrols')
  rw [Activation.height, hstructures]
  exact hheight

/-- The operand on top, which lies above what the innermost structure was opened on. -/
theorem exists_top (h : Matches m functionDef activation context) {control : ControlContext}
    {controls : List ControlContext} (hcontrols : context.controlStack = control :: controls)
    {stack : List ValueType} (hlt : control.outerStackSize < context.stack.length)
    (hstack : context.stack = type :: stack) :
    ∃ value rest, activation.stack = value :: rest ∧ value.type = type ∧
      activation.popAny = .ok (value, { activation with stack := rest }) ∧
      Matches m functionDef { activation with stack := rest } { context with stack } := by
  have hmap := h.stack.trans hstack
  obtain ⟨value, rest, hvalues, htype, hrest⟩ := List.map_eq_cons_iff.1 hmap
  refine ⟨value, rest, hvalues, htype, ?_, hrest, h.locals, h.globals, h.ret, ?_⟩
  · have hlength : activation.height < activation.stack.length := by
      rw [h.height_eq hcontrols, ← List.length_map Value.type, h.stack]
      exact hlt
    unfold Activation.popAny
    rw [hvalues] at hlength
    simp only [hvalues]
    exact if_pos hlength
  · have hpopped := h.labels.of_staysWithin (stackOrder_staysWithin.pop hcontrols hlt) rfl rfl
    rw [hstack] at hpopped
    exact hpopped

theorem popAny (h : Matches m functionDef activation context)
    (hpop : popOperand context = .ok (type, context')) :
    ∃ value rest, value.type = type ∧
      activation.popAny = .ok (value, { activation with stack := rest }) ∧
      Matches m functionDef { activation with stack := rest } context' := by
  obtain ⟨-, -, control, controls, -, hcontrols, hreachable, -⟩ := h.labels.exists_top
  obtain ⟨hlt, stack, hstack, rfl⟩ := of_popOperand hcontrols hreachable hpop
  obtain ⟨value, rest, -, htype, hpopAny, hmatches⟩ := h.exists_top hcontrols hlt hstack
  exact ⟨value, rest, htype, hpopAny, hmatches⟩

theorem pop (h : Matches m functionDef activation context)
    (hpop : popAndValidateOperand type context = .ok ((), context')) (htype : type ≠ .any) :
    ∃ value rest, activation.stack = value :: rest ∧ value.type = type ∧
      activation.pop type = .ok (value, { activation with stack := rest }) ∧
      context'.controlStack = context.controlStack ∧
      Matches m functionDef { activation with stack := rest } context' := by
  obtain ⟨-, -, control, controls, -, hcontrols, hreachable, -⟩ := h.labels.exists_top
  obtain ⟨hlt, stack, hstack, rfl⟩ :=
    of_popAndValidateOperand hcontrols hreachable htype h.any_not_mem hpop
  obtain ⟨value, rest, hvalues, hvalue, hpopAny, hmatches⟩ := h.exists_top hcontrols hlt hstack
  exact ⟨value, rest, hvalues, hvalue, Activation.pop_of_popAny hpopAny hvalue, rfl, hmatches⟩

/-- Operands of the types are popped one after the other. -/
theorem popList {types : List ValueType} (h : Matches m functionDef activation context)
    (hany : .any ∉ types) (hpop : types.forM popAndValidateOperand context = .ok ((), context')) :
    ∃ values rest, activation.stack = values ++ rest ∧ values.map Value.type = types ∧
      activation.popList types = .ok (values, { activation with stack := rest }) ∧
      context'.controlStack = context.controlStack ∧
      Matches m functionDef { activation with stack := rest } context' := by
  induction types generalizing activation context with
  | nil =>
    obtain ⟨-, rfl⟩ := pure_eq_ok.1 hpop
    exact ⟨[], activation.stack, rfl, rfl, rfl, rfl, h⟩
  | cons type types ih =>
    obtain ⟨u, mid, hfirst, hpop⟩ := bind_eq_ok.1 hpop
    rw [List.mem_cons, not_or] at hany
    obtain ⟨value, rest, hvalues, htype, hpop₁, hsame₁, hmid⟩ := h.pop hfirst (Ne.symm hany.1)
    obtain ⟨values, rest', hrest, htypes, hpop₂, hsame₂, hmatches⟩ := ih hmid hany.2 hpop
    refine ⟨value :: values, rest', ?_, ?_, ?_, hsame₂.trans hsame₁, hmatches⟩
    · rw [hvalues]
      exact congrArg (value :: ·) hrest
    · rw [List.map_cons, htype, htypes]
    · rw [Activation.popList, hpop₁]
      change (Activation.popList types _ >>= _) = _
      rw [hpop₂]
      rfl

theorem popArguments {types : List ValueType} (h : Matches m functionDef activation context)
    (hany : .any ∉ types) (hpop : popAndValidateOperands types context = .ok ((), context')) :
    ∃ values rest,
      activation.popArguments types = .ok (values, { activation with stack := rest }) ∧
      Matches m functionDef { activation with stack := rest } context' := by
  have hany' : .any ∉ types.reverse := fun hmem => hany (List.mem_reverse.1 hmem)
  obtain ⟨values, rest, -, -, hpopList, -, hmatches⟩ := h.popList hany' hpop
  exact ⟨values, rest, hpopList, hmatches⟩

theorem popResult {resultType : ResultType} (h : Matches m functionDef activation context)
    (hpop : popAndValidateResultType resultType context = .ok ((), context')) :
    ∃ values rest, activation.stack = values ++ rest ∧
      values.map Value.type = resultType.operands ∧
      activation.popList resultType.operands = .ok (values, { activation with stack := rest }) ∧
      context'.controlStack = context.controlStack ∧
      Matches m functionDef { activation with stack := rest } context' := by
  apply h.popList
  · unfold ResultType.operands
    cases resultType with
    | none => simp
    | invalid byte hbyte => simp [ResultType.toByte, ValueType.ofByte, hbyte]
    | _ => decide
  · unfold popAndValidateResultType at hpop
    unfold ResultType.operands
    by_cases hnone : resultType = .none
    · rw [if_neg (not_not_intro hnone)] at hpop
      rw [if_pos hnone]
      exact hpop
    · rw [if_pos hnone] at hpop
      rw [if_neg hnone]
      obtain ⟨valueType, mid, hlift, hpop⟩ := bind_eq_ok.1 hpop
      obtain ⟨htype, rfl⟩ := lift_eq_ok.1 hlift
      obtain ⟨-, rfl⟩ := asValueType_eq_ok.1 htype
      exact bind_eq_ok.2 ⟨(), context', hpop, pure_eq_ok.2 ⟨rfl, rfl⟩⟩

/-- The code of an activation is validated apart. -/
theorem at_code (h : Matches m functionDef activation context) (code : List Operator) :
    Matches m functionDef { activation with code } context :=
  ⟨h.stack, h.locals, h.globals, h.ret, h.labels⟩

/-- Values of the types on top. -/
theorem push (h : Matches m functionDef activation context) {values : List Value}
    {types : List ValueType} (htypes : values.map Value.type = types) :
    Matches m functionDef (activation.push values)
      { context with stack := types ++ context.stack } := by
  refine ⟨?_, h.locals, h.globals, h.ret, h.labels.push types⟩
  rw [Activation.push, List.map_append, htypes, h.stack]

end Matches

end FractalWasm.Runtime
