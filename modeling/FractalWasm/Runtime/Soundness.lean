import FractalWasm.IR.ClosingEnd
import FractalWasm.IR.ValidDefinitions
import FractalWasm.Runtime.Matching

/-!
# Validated code executes without a fault

An activation that matches the context of the validator executes its next operator without a fault,
and matches the context behind it, or the one a branch continues at. So no execution of an accepted
body comes to a fault, and the function leaves its result.

**One operator** (`execOp_safe`): progress and preservation, one lemma for each family of operators.

**Whole executions** (`Sound`): the invariant of a run of steps (`Sound.of_steps`). From the start
of a function it never comes to a fault, and where it ends the result has the declared type.
-/

namespace FractalWasm.Runtime

open Codec Control IR
open IR.FunctionValidationContext

/-! ## Operators -/

/-- The activation has validated code in front of it. -/
def Sound (m : Module) (functionDef : FunctionDef) (activation : Activation) : Prop :=
  ∃ context, Matches m functionDef activation context ∧
    ValidFrom m functionDef context activation.code

/-- No fault: the function goes on in validated code, is left with its result, or traps. -/
inductive Safe (m : Module) (functionDef : FunctionDef) : Except Fault Outcome → Prop
  | next {activation : Activation} (hsound : Sound m functionDef activation) :
      Safe m functionDef (.ok (.next activation))
  | exit {stack : List Value}
      (hstack : stack.map Value.type = (functionDef.functionType m).ret.operands) :
      Safe m functionDef (.ok (.exit stack))
  | trap : Safe m functionDef (.ok .trap)

section Operators

variable {m : Module} {functionDef : FunctionDef} {activation : Activation}
  {context context' : FunctionValidationContext}

/-- A step that succeeds may come before. -/
theorem Safe.of_bind {α : Type} {x : Except Fault α} {a : α} (hx : x = .ok a)
    {next : α → Except Fault Outcome} (hnext : Safe m functionDef (next a)) :
    Safe m functionDef (x >>= next) := by
  rw [hx]
  exact hnext

/-- What is computed has the type the validator pushes. -/
theorem Matches.compute (h : Matches m functionDef activation context) {behaviour : Behaviour}
    {resultType : ResultType} (hresults : behaviour.results.map Value.type = resultType.operands)
    (hpush : pushResult resultType context = .ok ((), context'))
    (hrest : ValidFrom m functionDef context' activation.code) :
    Safe m functionDef (.ok (activation.compute behaviour)) := by
  unfold Activation.compute
  split
  · exact .trap
  · obtain rfl := pushResult_eq_ok.1 hpush
    exact .next ⟨_, h.push hresults, hrest⟩

/-- A result that the behaviour produces has the type the validator pushes. -/
theorem Matches.complete (h : Matches m functionDef activation context) {behaviour : Behaviour}
    {resultType : ResultType} (hresults : behaviour.results.map Value.type = resultType.operands)
    (hglobals : behaviour.globals.map Value.type = globalTypes m)
    (hpush : pushResult resultType context = .ok ((), context'))
    (hrest : ValidFrom m functionDef context' activation.code) :
    Safe m functionDef (.ok (activation.complete behaviour)) := by
  have hcompleted : Matches m functionDef { activation with globals := behaviour.globals }
      context :=
    ⟨h.stack, h.locals, hglobals, h.ret, h.labels⟩
  exact hcompleted.compute hresults hpush hrest

/-- The operands a branch keeps are those its target was opened on. -/
theorem Continues.matches {target : FunctionValidationContext} {structure_ : OpenStructure}
    {outer : List OpenStructure} {code : List Operator}
    (hcontinues : Continues m functionDef context target structure_ outer code)
    (h : Matches m functionDef activation context) {values : List Value}
    (hvalues : values.map Value.type = structure_.arity.operands) :
    Sound m functionDef { activation with
      code
      stack := values ++ activation.stack.drop (activation.stack.length - structure_.height)
      structures := outer } := by
  refine ⟨_, ⟨?_, ?_, h.globals, ?_, hcontinues.labels.push structure_.arity.operands⟩,
    hcontinues.valid⟩
  · have hkept := List.suffix_iff_eq_drop.1 hcontinues.stack
    rw [List.map_append, hvalues, List.map_drop, h.stack, hcontinues.height,
      ← List.length_map Value.type, h.stack, ← hkept]
  · exact h.locals.trans hcontinues.locals.symm
  · rw [← h.ret, ← hcontinues.functionType]

/-- A branch to a label the validator finds, with the argument of the label on top. -/
theorem Matches.branch (h : Matches m functionDef activation context) {depth : Nat}
    {control : ControlContext} (hdepth : context.controlStack[depth]? = some control)
    (hpop : popAndValidateResultType control.branchArgumentType context = .ok ((), context')) :
    Safe m functionDef (activation.branch depth) := by
  obtain ⟨values, rest, -, hvalues, hpopList, hsame, hmatches⟩ := h.popResult hpop
  obtain ⟨structure_, hstructure, harity, htargets⟩ :=
    hmatches.labels.targets (hsame ▸ hdepth : context'.controlStack[depth]? = some control)
  rw [← harity] at hvalues hpopList
  unfold Activation.branch
  rw [hstructure]
  refine Safe.of_bind hpopList ?_
  unfold Targets at htargets
  cases hkind : structure_.kind with
  | function =>
    simp only [hkind] at htargets ⊢
    refine .exit ?_
    rw [htargets.1, Nat.sub_zero, List.drop_length, List.append_nil, hvalues, htargets.2,
      hmatches.ret]
  | block after =>
    simp only [hkind] at htargets ⊢
    obtain ⟨target, hcontinues⟩ := htargets
    exact .next (hcontinues.matches hmatches hvalues)
  | loop body =>
    simp only [hkind] at htargets ⊢
    obtain ⟨target, hcontinues⟩ := htargets
    exact .next (hcontinues.matches hmatches hvalues)

/-- A structure is left with its results on top of what it was entered on. -/
theorem leave_of_popList {innermost : OpenStructure} {outer : List OpenStructure}
    {values rest : List Value} (hstructures : activation.structures = innermost :: outer)
    (hpopList : activation.popList innermost.resultType.operands =
      .ok (values, { activation with stack := rest }))
    (hlength : rest.length = innermost.height) :
    activation.leave = .ok (innermost,
      { activation with stack := values ++ rest, structures := outer }) := by
  unfold Activation.leave
  simp only [hstructures]
  rw [hpopList]
  exact if_pos hlength

/-- An open structure was entered on no more operands than there are. -/
theorem Labels.height_le {innermost : OpenStructure} {outer : List OpenStructure}
    (h : Labels m functionDef (innermost :: outer) context) :
    innermost.height ≤ context.stack.length := by
  cases h with
  | function => exact Nat.zero_le _
  | block houter hwithin => exact hwithin.stack.length_le
  | loop houter hwithin => exact hwithin.stack.length_le

/-- The activation behind a structure with the result on top. -/
theorem Matches.outer {start : FunctionValidationContext} {entry : ControlContext}
    {outer : List OpenStructure} {values : List Value} {types : List ValueType}
    (h : Matches m functionDef activation context) (hwithin : Within start entry 0 context)
    (hlength : activation.stack.length = start.stack.length)
    (houter : Labels m functionDef outer start) (htypes : values.map Value.type = types) :
    Matches m functionDef
      { activation with stack := values ++ activation.stack, structures := outer }
      { start with stack := types ++ start.stack } := by
  have hstack : start.stack = context.stack := by
    apply hwithin.stack.eq_of_length
    rw [← h.stack, List.length_map, hlength]
  refine ⟨?_, h.locals.trans hwithin.locals, h.globals, ?_, houter.push types⟩
  · rw [List.map_append, htypes, h.stack, hstack]
  · rw [← h.ret, hwithin.functionType]

/-- What is left at the end of the innermost structure, or at its `else`. -/
inductive Left (m : Module) (functionDef : FunctionDef) (isElse : Bool)
    (context' : FunctionValidationContext) (left : Activation) : StructureKind → Prop
  | function (hend : isElse = false)
      (hleft : left.stack.map Value.type = (functionDef.functionType m).ret.operands) :
      Left m functionDef isElse context' left .function
  | block {start : FunctionValidationContext} {after : List Operator}
      (hleft : Matches m functionDef left start) (hafter : ValidFrom m functionDef start after)
      (hend : isElse = false → context' = start) :
      Left m functionDef isElse context' left (.block after)
  | loop {body : List Operator} (hend : isElse = false)
      (hleft : Matches m functionDef left context') :
      Left m functionDef isElse context' left (.loop body)

/-- At the end of the innermost structure there is nothing but its result above the operands it was
opened on. -/
theorem Matches.leave (h : Matches m functionDef activation context) {isElse : Bool}
    (hvisit : (do
      popResultOfTop (← get).controlStack
      popControlStack isElse : Check Unit) context = .ok ((), context')) :
    ∃ innermost left, activation.leave = .ok (innermost, left) ∧ left.code = activation.code ∧
      Left m functionDef isElse context' left innermost.kind := by
  obtain ⟨c, c', hget, hvisit⟩ := bind_eq_ok.1 hvisit
  obtain ⟨rfl, rfl⟩ := get_eq_ok.1 hget
  obtain ⟨u, mid, hpop, hclose⟩ := bind_eq_ok.1 hvisit
  obtain ⟨innermost, outer, control, controls, hstructures, hcontrols, -, hheight, hresult⟩ :=
    h.labels.exists_top
  rw [hcontrols] at hpop
  obtain ⟨values, rest, -, hvalues, hpopList, hsame, hmatches⟩ := h.popResult hpop
  rw [← hresult] at hvalues hpopList
  rw [hcontrols] at hsame
  have hlabels : Labels m functionDef (innermost :: outer) mid := hstructures ▸ hmatches.labels
  have hlength : rest.length = innermost.height := by
    have hle := (popControlStack_cases hsame hclose).1
    have hge := hlabels.height_le
    rw [← hmatches.stack, List.length_map] at hle hge
    exact Nat.le_antisymm (hheight ▸ hle) hge
  refine ⟨innermost, _, leave_of_popList hstructures hpopList hlength, rfl, ?_⟩
  cases hlabels with
  | function hret hcontrols' =>
    obtain ⟨-, ⟨-, hif, -⟩ | ⟨hend, -, -⟩⟩ := popControlStack_cases hcontrols' hclose
    · cases hif
    · obtain rfl := List.length_eq_zero_iff.1 hlength
      refine .function hend ?_
      rw [List.append_nil, hvalues, ← hmatches.ret, hret]
  | block houter hwithin hcontrols' hreachable hargument hafter =>
    refine .block (hmatches.outer hwithin hlength houter hvalues) hafter fun hend => ?_
    obtain ⟨hnot, -⟩ | ⟨-, -, hcontext⟩ := hwithin.eq_of_popControlStack hclose
    · rw [hend] at hnot
      cases hnot
    · rw [if_neg houter.controlStack_ne_nil] at hcontext
      exact hcontext
  | loop houter hwithin hcontrols' hbody =>
    obtain ⟨-, hif, -⟩ | ⟨hend, -, hcontext⟩ := hwithin.eq_of_popControlStack hclose
    · cases hif
    · rw [if_neg houter.controlStack_ne_nil] at hcontext
      rw [hcontext]
      exact .loop hend (hmatches.outer hwithin hlength houter hvalues)

/-! ### Structures -/

/-- The activation inside a structure it enters. -/
theorem Matches.enter (h : Matches m functionDef activation context) {controls : List ControlContext}
    {kind : StructureKind} {arity resultType : ResultType}
    (hlabels : Labels m functionDef
      (⟨kind, context.stack.length, arity, resultType⟩ :: activation.structures)
      { context with controlStack := controls }) :
    Matches m functionDef (activation.enter kind arity resultType)
      { context with controlStack := controls } := by
  have hlength : activation.stack.length = context.stack.length := by
    rw [← h.stack, List.length_map]
  refine ⟨h.stack, h.locals, h.globals, h.ret, ?_⟩
  rw [Activation.enter, hlength]
  exact hlabels

/-- A `block` or an `if` is entered on the operands it finds. -/
theorem enterBlock_safe (h : Matches m functionDef activation context) {type : ControlType}
    {resultType : ResultType}
    (hrest : ValidFrom m functionDef { context with
      controlStack := ⟨type, context.stack.length, resultType, resultType, true⟩ ::
        context.controlStack } activation.code) :
    Safe m functionDef (enterBlock m resultType activation) := by
  obtain ⟨final, hvisit, hdone⟩ := hrest
  have hwithin := within_pushControlStack context type resultType resultType
  obtain ⟨after, hafter, hvalid⟩ :=
    afterEnd_of_visitAll hdone hvisit hwithin h.labels.controlStack_ne_nil
  unfold enterBlock
  rw [hafter]
  have hentered := h.enter (.block h.labels hwithin rfl rfl rfl ⟨final, hvalid, hdone⟩)
  exact .next ⟨_, hentered, final, hvisit, hdone⟩

/-- So is a `loop`, whose branches carry nothing. -/
theorem loop_safe (h : Matches m functionDef activation context) {resultType : ResultType}
    (hrest : ValidFrom m functionDef { context with
      controlStack := ⟨.loop, context.stack.length, .none, resultType, true⟩ ::
        context.controlStack } activation.code) :
    Safe m functionDef
      (.ok (.next (activation.enter (.loop activation.code) .none resultType))) := by
  have hwithin := within_pushControlStack context .loop .none resultType
  exact .next ⟨_, h.enter (.loop h.labels hwithin rfl hrest), hrest⟩

/-- The arm of an `if` that a false condition chooses. -/
theorem falseArm_safe (h : Matches m functionDef activation context) {resultType : ResultType}
    (hrest : ValidFrom m functionDef { context with
      controlStack := ⟨.ifThen, context.stack.length, resultType, resultType, true⟩ ::
        context.controlStack } activation.code) :
    Safe m functionDef
      (match falseArm m.action 0 activation.code with
      | none => .error .unclosed
      | some (arm, true) => enterBlock m resultType { activation with code := arm }
      | some (after, false) => .ok (.next { activation with code := after })) := by
  obtain ⟨final, hvisit, hdone⟩ := hrest
  have hwithin := within_pushControlStack context .ifThen resultType resultType
  obtain ⟨arm, found, harm, helse, hskip⟩ :=
    falseArm_of_visitAll hdone hvisit hwithin h.labels.controlStack_ne_nil rfl
  rw [harm]
  cases found with
  | true => exact enterBlock_safe (h.at_code arm) ⟨final, helse rfl, hdone⟩
  | false => exact .next ⟨context, h.at_code arm, final, hskip rfl, hdone⟩

/-! ### Branches -/

theorem getBranchTargetByDepth_eq_ok {depth : Nat} {control : ControlContext} :
    getBranchTargetByDepth depth context = .ok (control, context') ↔
      context.controlStack[depth]? = some control ∧ context = context' := by
  constructor
  · intro h
    obtain ⟨current, mid, hget, h⟩ := bind_eq_ok.1 h
    obtain ⟨rfl, rfl⟩ := get_eq_ok.1 hget
    cases hfound : context.controlStack[depth]? with
    | none =>
      simp only [hfound] at h
      exact (throw_eq_ok.1 h).elim
    | some found =>
      simp only [hfound] at h
      obtain ⟨rfl, rfl⟩ := pure_eq_ok.1 h
      exact ⟨rfl, rfl⟩
  · rintro ⟨hfound, rfl⟩
    refine bind_eq_ok.2 ⟨context, context, get_eq_ok.2 ⟨rfl, rfl⟩, ?_⟩
    rw [hfound]
    exact pure_eq_ok.2 ⟨rfl, rfl⟩

/-- The targets of a branch table take the argument of its default. -/
theorem of_validateTargets {argument : ResultType} {targetDepths : List UInt32}
    (h : validateTargets argument targetDepths context = .ok ((), context')) :
    ∀ targetDepth ∈ targetDepths, ∃ control,
      context.controlStack[targetDepth.toNat]? = some control ∧
        control.branchArgumentType = argument := by
  induction targetDepths generalizing context with
  | nil => exact fun _ hmem => absurd hmem List.not_mem_nil
  | cons first targetDepths ih =>
    obtain ⟨u, mid, hfirst, h⟩ := bind_eq_ok.1 h
    obtain ⟨control, mid', htarget, hargument⟩ := bind_eq_ok.1 hfirst
    obtain ⟨hcontrol, rfl⟩ := getBranchTargetByDepth_eq_ok.1 htarget
    obtain ⟨hsame, rfl⟩ := lift_eq_ok.1 hargument
    refine List.forall_mem_cons.2 ⟨⟨control, hcontrol, ?_⟩, ih h⟩
    simpa using hsame

/-! ### Variables -/

theorem validateLocalIndex_eq_ok {localIndex : Nat} {type : ValueType} :
    validateLocalIndex localIndex context = .ok (type, context') ↔
      context.locals[localIndex]? = some type ∧ context = context' := by
  constructor
  · intro h
    obtain ⟨current, mid, hget, h⟩ := bind_eq_ok.1 h
    obtain ⟨rfl, rfl⟩ := get_eq_ok.1 hget
    cases hfound : context.locals[localIndex]? with
    | none =>
      simp only [hfound] at h
      exact (throw_eq_ok.1 h).elim
    | some found =>
      simp only [hfound] at h
      obtain ⟨rfl, rfl⟩ := pure_eq_ok.1 h
      exact ⟨rfl, rfl⟩
  · rintro ⟨hfound, rfl⟩
    refine bind_eq_ok.2 ⟨context, context, get_eq_ok.2 ⟨rfl, rfl⟩, ?_⟩
    rw [hfound]
    exact pure_eq_ok.2 ⟨rfl, rfl⟩

/-- A declared local holds a value of its type. -/
theorem Matches.exists_local (h : Matches m functionDef activation context) {localIndex : Nat}
    {type : ValueType} (hlocal : context.locals[localIndex]? = some type) :
    ∃ value, activation.locals[localIndex]? = some value ∧ value.type = type := by
  rw [← h.locals, List.getElem?_map] at hlocal
  exact Option.map_eq_some_iff.1 hlocal

theorem getElem?_globalTypes {globalIndex : Nat} {type : GlobalType}
    (h : m.globals.getType? GlobalDef.type globalIndex = some type) :
    (globalTypes m)[globalIndex]? = some type.valueType := by
  unfold IndexSpace.getType? at h
  unfold globalTypes
  split at h
  · next hlt =>
    obtain ⟨globalImport, himport, rfl⟩ := Option.map_eq_some_iff.1 h
    rw [List.getElem?_append_left (by rwa [List.length_map]), List.getElem?_map, himport,
      Option.map_some]
  · next hge =>
    obtain ⟨globalDef, hdef, rfl⟩ := Option.map_eq_some_iff.1 h
    rw [List.getElem?_append_right (by rw [List.length_map]; omega), List.length_map,
      List.getElem?_map, hdef, Option.map_some]

/-- A declared global holds a value of its type. -/
theorem Matches.exists_global (h : Matches m functionDef activation context)
    {globalIndex : Nat} {type : GlobalType}
    (hglobal : m.globals.getType? GlobalDef.type globalIndex = some type) :
    ∃ value, activation.globals[globalIndex]? = some value ∧ value.type = type.valueType := by
  have htype := getElem?_globalTypes hglobal
  rw [← h.globals, List.getElem?_map] at htype
  exact Option.map_eq_some_iff.1 htype

theorem of_validateGlobalIndex {globalIndex : Nat} {mustBeMutable : Bool} {type : ValueType}
    (h : validateGlobalIndex m globalIndex mustBeMutable false false = .ok type) :
    ∃ globalType, m.globals.getType? GlobalDef.type globalIndex = some globalType ∧
      globalType.valueType = type ∧ (mustBeMutable = true → globalType.isMutable = true) := by
  unfold validateGlobalIndex at h
  split at h
  · cases h
  · next globalType hglobal =>
    split at h
    · cases h
    · next hmutable =>
      rw [if_neg (fun hand => nomatch hand.1), if_neg (fun hand => nomatch hand.1)] at h
      refine ⟨globalType, hglobal, Except.ok.inj h, fun hmust => ?_⟩
      exact Decidable.not_not.1 fun hnot => hmutable ⟨hmust, hnot⟩

/-- A variable that is assigned a value of its type keeps the types. -/
theorem map_type_set {values : List Value} {index : Nat} {old value : Value}
    (hold : values[index]? = some old) (htype : value.type = old.type) :
    (values.set index value).map Value.type = values.map Value.type := by
  obtain ⟨hlt, rfl⟩ := List.getElem?_eq_some_iff.1 hold
  rw [List.map_set, htype, ← List.getElem_map Value.type (h := by rwa [List.length_map]),
    List.set_getElem_self]

/-- A local keeps its type. -/
theorem Matches.setLocal (h : Matches m functionDef activation context) {localIndex : Nat}
    {old value : Value} (hold : activation.locals[localIndex]? = some old)
    (htype : value.type = old.type) :
    Matches m functionDef { activation with locals := activation.locals.set localIndex value }
      context :=
  ⟨h.stack, (map_type_set hold htype).trans h.locals, h.globals, h.ret, h.labels⟩

/-- So does a mutable global. -/
theorem Matches.setGlobal (h : Matches m functionDef activation context) {globalIndex : Nat}
    {old value : Value} (hold : activation.globals[globalIndex]? = some old)
    (htype : value.type = old.type) :
    Matches m functionDef { activation with globals := activation.globals.set globalIndex value }
      context :=
  ⟨h.stack, h.locals, (map_type_set hold htype).trans h.globals, h.ret, h.labels⟩

/-- `select` takes any two operands of one type. -/
theorem select_safe (h : Matches m functionDef activation context) {behaviour : Behaviour}
    {ret : ResultType}
    (hvisit : visit m functionDef.branchTables .select context = .ok ((), context'))
    (hrest : ValidFrom m functionDef context' activation.code) :
    Safe m functionDef
      (execOp m functionDef.branchTables ret behaviour activation .select) := by
  obtain ⟨type₁, mid₁, hpop₁, hvisit⟩ := bind_eq_ok.1 hvisit
  obtain ⟨type₂, mid₂, hpop₂, hvisit⟩ := bind_eq_ok.1 hvisit
  obtain ⟨type₃, mid₃, hpop₃, hvisit⟩ := bind_eq_ok.1 hvisit
  obtain ⟨u, mid, hlift, hvisit⟩ := bind_eq_ok.1 hvisit
  obtain ⟨hcondition, rfl⟩ := lift_eq_ok.1 hlift
  obtain ⟨u, mid, hlift', hpush⟩ := bind_eq_ok.1 hvisit
  obtain ⟨hsame, rfl⟩ := lift_eq_ok.1 hlift'
  obtain ⟨condition, rest₁, rfl, hpopAny₁, hmatches₁⟩ := h.popAny hpop₁
  obtain ⟨falseValue, rest₂, rfl, hpopAny₂, hmatches₂⟩ := hmatches₁.popAny hpop₂
  obtain ⟨trueValue, rest₃, rfl, hpopAny₃, hmatches₃⟩ := hmatches₂.popAny hpop₃
  have hi32 : condition.type = .i32 := (eq_of_validateOperandType hcondition nofun).symm
  have htype : trueValue.type = falseValue.type :=
    (eq_of_validateOperandType hsame falseValue.type_ne_any).symm
  refine Safe.of_bind (Activation.pop_of_popAny hpopAny₁ hi32) ?_
  refine Safe.of_bind hpopAny₂ ?_
  refine Safe.of_bind (Activation.pop_of_popAny hpopAny₃ htype) ?_
  have hselected : [if condition.isTrue then trueValue else falseValue].map Value.type =
      [falseValue.type] := by
    split
    · rw [List.map_singleton, htype]
    · rfl
  rw [← modify_eq_ok.1 hpush] at hrest
  exact .next ⟨_, hmatches₃.push hselected, hrest⟩

/-! ### Every operator -/

/-- An `else` that is reached ends the first arm. -/
theorem execOp_else_safe (h : Matches m functionDef activation context) {behaviour : Behaviour}
    {ret : ResultType}
    (hvisit : visit m functionDef.branchTables .else_ context = .ok ((), context')) :
    Safe m functionDef
      (execOp m functionDef.branchTables ret behaviour activation .else_) := by
  obtain ⟨innermost, left, hleave, -, hleft⟩ := h.leave hvisit
  refine Safe.of_bind hleave ?_
  cases hkind : innermost.kind with
  | function =>
    rw [hkind] at hleft
    obtain ⟨hend, -⟩ | _ | _ := hleft
    cases hend
  | block after =>
    rw [hkind] at hleft
    obtain _ | ⟨hmatches, hafter, -⟩ | _ := hleft
    simp only [hkind]
    exact .next ⟨_, hmatches.at_code after, hafter⟩
  | loop body =>
    rw [hkind] at hleft
    obtain _ | _ | ⟨hend, -⟩ := hleft
    cases hend

/-- An `end` leaves the innermost structure, or the function. -/
theorem execOp_end_safe (h : Matches m functionDef activation context) {behaviour : Behaviour}
    {ret : ResultType}
    (hvisit : visit m functionDef.branchTables .end_ context = .ok ((), context'))
    (hrest : ValidFrom m functionDef context' activation.code) :
    Safe m functionDef
      (execOp m functionDef.branchTables ret behaviour activation .end_) := by
  obtain ⟨innermost, left, hleave, hcode, hleft⟩ := h.leave hvisit
  refine Safe.of_bind hleave ?_
  rw [← hcode] at hrest
  cases hkind : innermost.kind with
  | function =>
    rw [hkind] at hleft
    obtain ⟨-, hresult⟩ | _ | _ := hleft
    simp only [hkind]
    exact .exit hresult
  | block after =>
    rw [hkind] at hleft
    obtain _ | ⟨hmatches, -, hend⟩ | _ := hleft
    simp only [hkind]
    obtain rfl := hend rfl
    exact .next ⟨_, hmatches, hrest⟩
  | loop body =>
    rw [hkind] at hleft
    obtain _ | _ | ⟨-, hmatches⟩ := hleft
    simp only [hkind]
    exact .next ⟨_, hmatches, hrest⟩

/-- An `if` goes into one of its arms. -/
theorem execOp_if_safe (h : Matches m functionDef activation context) {behaviour : Behaviour}
    {ret resultType : ResultType}
    (hvisit : visit m functionDef.branchTables (.if_ resultType) context = .ok ((), context'))
    (hrest : ValidFrom m functionDef context' activation.code) :
    Safe m functionDef
      (execOp m functionDef.branchTables ret behaviour activation (.if_ resultType)) := by
  obtain ⟨u, mid, hlift, hvisit⟩ := bind_eq_ok.1 hvisit
  obtain ⟨-, rfl⟩ := lift_eq_ok.1 hlift
  obtain ⟨u, mid, hpop, hpush⟩ := bind_eq_ok.1 hvisit
  obtain ⟨condition, rest, -, -, hpopped, -, hmatches⟩ := h.pop hpop nofun
  rw [← modify_eq_ok.1 hpush] at hrest
  refine Safe.of_bind hpopped ?_
  by_cases htrue : condition.isTrue = true
  · simp only [htrue, if_true]
    exact enterBlock_safe hmatches hrest
  · simp only [htrue]
    exact falseArm_safe hmatches hrest

/-- A `br_if` branches or goes on with the same operands. -/
theorem execOp_brIf_safe (h : Matches m functionDef activation context) {behaviour : Behaviour}
    {ret : ResultType} {targetDepth : UInt32}
    (hvisit : visit m functionDef.branchTables (.brIf targetDepth) context = .ok ((), context'))
    (hrest : ValidFrom m functionDef context' activation.code) :
    Safe m functionDef
      (execOp m functionDef.branchTables ret behaviour activation (.brIf targetDepth)) := by
  obtain ⟨u, mid, hpop, hvisit⟩ := bind_eq_ok.1 hvisit
  obtain ⟨target, mid', htarget, hvisit⟩ := bind_eq_ok.1 hvisit
  obtain ⟨hdepth, rfl⟩ := getBranchTargetByDepth_eq_ok.1 htarget
  obtain ⟨u, left, hargument, hpush⟩ := bind_eq_ok.1 hvisit
  obtain ⟨condition, rest, -, -, hpopped, -, hmatches⟩ := h.pop hpop nofun
  refine Safe.of_bind hpopped ?_
  by_cases htrue : condition.isTrue = true
  · simp only [htrue, if_true]
    exact hmatches.branch hdepth hargument
  · -- the argument stays where it is
    obtain ⟨values, rest', hvalues, htypes, -, -, hleft⟩ := hmatches.popResult hargument
    obtain rfl := pushResult_eq_ok.1 hpush
    have hkept := hleft.push htypes
    simp only [Activation.push, ← hvalues] at hkept
    simp only [htrue]
    exact .next ⟨_, hkept, hrest⟩

/-- All targets of a `br_table` want the same operands. -/
theorem execOp_brTable_safe (h : Matches m functionDef activation context)
    {behaviour : Behaviour} {ret : ResultType} {defaultTargetDepth branchTableIndex : UInt64}
    (hvisit : visit m functionDef.branchTables (.brTable defaultTargetDepth branchTableIndex)
      context = .ok ((), context')) :
    Safe m functionDef (execOp m functionDef.branchTables ret behaviour activation
      (.brTable defaultTargetDepth branchTableIndex)) := by
  obtain ⟨u, mid, hpop, hvisit⟩ := bind_eq_ok.1 hvisit
  obtain ⟨defaultTarget, mid', htarget, hvisit⟩ := bind_eq_ok.1 hvisit
  obtain ⟨hdefault, rfl⟩ := getBranchTargetByDepth_eq_ok.1 htarget
  obtain ⟨u, left, hargument, hvisit⟩ := bind_eq_ok.1 hvisit
  obtain ⟨u, left', hlift, hvisit⟩ := bind_eq_ok.1 hvisit
  obtain ⟨hassert, rfl⟩ := lift_eq_ok.1 hlift
  obtain ⟨u, left', htargets, -⟩ := bind_eq_ok.1 hvisit
  have hlt : branchTableIndex.toNat < functionDef.branchTables.length := by
    simpa using hassert
  obtain ⟨selector, rest, -, -, hpopped, -, hmatches⟩ := h.pop hpop nofun
  obtain ⟨-, -, -, -, -, hsame, -⟩ := hmatches.popResult hargument
  have hall := of_validateTargets htargets
  rw [hsame, List.getD_eq_getElem?_getD, List.getElem?_eq_getElem hlt, Option.getD_some] at hall
  refine Safe.of_bind hpopped ?_
  simp only [List.getElem?_eq_getElem hlt]
  cases hselected : functionDef.branchTables[branchTableIndex.toNat][selector.index]? with
  | none => exact hmatches.branch hdefault hargument
  | some targetDepth =>
    obtain ⟨control, hdepth, hsameArgument⟩ := hall _ (List.mem_of_getElem? hselected)
    rw [← hsameArgument] at hargument
    exact hmatches.branch hdepth hargument

/-- A `return` finds the result of the function. -/
theorem execOp_return_safe (h : Matches m functionDef activation context)
    {behaviour : Behaviour}
    (hvisit : visit m functionDef.branchTables .return_ context = .ok ((), context')) :
    Safe m functionDef (execOp m functionDef.branchTables (functionDef.functionType m).ret
      behaviour activation .return_) := by
  obtain ⟨c, c', hget, hvisit⟩ := bind_eq_ok.1 hvisit
  obtain ⟨rfl, rfl⟩ := get_eq_ok.1 hget
  obtain ⟨u, mid, hpop, -⟩ := bind_eq_ok.1 hvisit
  rw [h.ret] at hpop
  obtain ⟨values, rest, -, hvalues, hpopped, -, -⟩ := h.popResult hpop
  exact Safe.of_bind hpopped (.exit hvalues)

theorem eq_of_validateLoadOrStoreImm {alignmentLog2 naturalAlignmentLog2 : UInt8}
    (h : validateLoadOrStoreImm m alignmentLog2 naturalAlignmentLog2 context =
      .ok ((), context')) : context = context' := by
  obtain ⟨u, mid, hlift, h⟩ := bind_eq_ok.1 h
  obtain ⟨-, rfl⟩ := lift_eq_ok.1 hlift
  obtain ⟨-, rfl⟩ := lift_eq_ok.1 h
  rfl

theorem unary_ne_any {op : NumericOp} {operand : ValueType} {result : ResultType}
    (h : op.signature = .unary operand result) : operand ≠ .any := by
  rintro rfl
  cases op <;> cases h

theorem binary_ne_any {op : NumericOp} {operand : ValueType} {result : ResultType}
    (h : op.signature = .binary operand result) : operand ≠ .any := by
  rintro rfl
  cases op <;> cases h

/-- The types of the module are value types. -/
theorem any_not_mem_parameters (hdefs : validateDefinitions m = .ok ()) {type : FunctionType}
    (hmem : type ∈ m.types) : .any ∉ type.parameters := by
  intro hany
  have hvalid := ((ValidDefinitions.of_validate hdefs).types type hmem).parameters _ hany
  cases hvalid

theorem mem_types_of_functionType? {functionIndex : Nat} {type : FunctionType}
    (h : m.functionType? functionIndex = some type) : type ∈ m.types := by
  obtain ⟨typeIndex, -, htype⟩ := Option.bind_eq_some_iff.1 h
  exact List.mem_of_getElem? htype

/-- A call of a function of some type, which leaves it to the callee what happens. -/
theorem call_safe (h : Matches m functionDef activation context)
    (hdefs : validateDefinitions m = .ok ()) {type : FunctionType} (hmem : type ∈ m.types)
    {behaviour : Behaviour} (hresults : behaviour.results.map Value.type = type.ret.operands)
    (hglobals : behaviour.globals.map Value.type = globalTypes m)
    {mid : FunctionValidationContext}
    (hpop : popAndValidateOperands type.parameters context = .ok ((), mid))
    (hpush : pushResult type.ret mid = .ok ((), context'))
    (hrest : ValidFrom m functionDef context' activation.code) :
    Safe m functionDef (do
      let (_, activation) ← activation.popArguments type.parameters
      .ok (activation.complete behaviour)) := by
  obtain ⟨values, rest, hpopped, hmatches⟩ :=
    h.popArguments (any_not_mem_parameters hdefs hmem) hpop
  exact Safe.of_bind hpopped (hmatches.complete hresults hglobals hpush hrest)

/-- What is computed from one operand. -/
theorem unary_safe (h : Matches m functionDef activation context) {operand : ValueType}
    (hany : operand ≠ .any) {behaviour : Behaviour} {resultType : ResultType}
    (hresults : behaviour.results.map Value.type = resultType.operands)
    {mid : FunctionValidationContext}
    (hpop : popAndValidateOperand operand context = .ok ((), mid))
    (hpush : pushResult resultType mid = .ok ((), context'))
    (hrest : ValidFrom m functionDef context' activation.code) :
    Safe m functionDef (do
      let (_, activation) ← activation.pop operand
      .ok (activation.compute behaviour)) := by
  obtain ⟨value, rest, -, -, hpopped, -, hmatches⟩ := h.pop hpop hany
  exact Safe.of_bind hpopped (hmatches.compute hresults hpush hrest)

/-- What is computed from several operands. -/
theorem arguments_safe (h : Matches m functionDef activation context) {operands : List ValueType}
    (hany : .any ∉ operands) {behaviour : Behaviour} {resultType : ResultType}
    (hresults : behaviour.results.map Value.type = resultType.operands)
    {mid : FunctionValidationContext}
    (hpop : popAndValidateOperands operands context = .ok ((), mid))
    (hpush : pushResult resultType mid = .ok ((), context'))
    (hrest : ValidFrom m functionDef context' activation.code) :
    Safe m functionDef (do
      let (_, activation) ← activation.popArguments operands
      .ok (activation.compute behaviour)) := by
  obtain ⟨values, rest, hpopped, hmatches⟩ := h.popArguments hany hpop
  exact Safe.of_bind hpopped (hmatches.compute hresults hpush hrest)

/-- A `br` finds the operands of its target. -/
theorem execOp_br_safe (h : Matches m functionDef activation context) {behaviour : Behaviour}
    {ret : ResultType} {targetDepth : UInt32}
    (hvisit : visit m functionDef.branchTables (.br targetDepth) context = .ok ((), context')) :
    Safe m functionDef
      (execOp m functionDef.branchTables ret behaviour activation (.br targetDepth)) := by
  obtain ⟨control, mid, htarget, hvisit⟩ := bind_eq_ok.1 hvisit
  obtain ⟨hdepth, rfl⟩ := getBranchTargetByDepth_eq_ok.1 htarget
  obtain ⟨u, mid, hargument, -⟩ := bind_eq_ok.1 hvisit
  exact h.branch hdepth hargument

section Calls

variable {behaviour : Behaviour} {ret : ResultType}

/-- A call finds its arguments. -/
theorem execOp_call_safe (h : Matches m functionDef activation context)
    (hdefs : validateDefinitions m = .ok ()) {functionIndex : UInt32}
    (hvisit : visit m functionDef.branchTables (.call functionIndex) context = .ok ((), context'))
    (hrest : ValidFrom m functionDef context' activation.code)
    (hresults : behaviour.results.map Value.type =
      (operatorYields m (.call functionIndex)).operands)
    (hglobals : behaviour.globals.map Value.type = globalTypes m) :
    Safe m functionDef
      (execOp m functionDef.branchTables ret behaviour activation (.call functionIndex)) := by
  obtain ⟨type, mid, hlift, hvisit⟩ := bind_eq_ok.1 hvisit
  obtain ⟨hindex, rfl⟩ := lift_eq_ok.1 hlift
  obtain ⟨u, mid, hpop, hpush⟩ := bind_eq_ok.1 hvisit
  have htype := functionType?_of_validateFunctionIndex hindex
  rw [operatorYields_call htype] at hresults
  simp only [execOp, htype]
  exact call_safe h hdefs (mem_types_of_functionType? htype) hresults hglobals hpop hpush hrest

/-- An indirect call finds an index and behind it the arguments. -/
theorem execOp_callIndirect_safe (h : Matches m functionDef activation context)
    (hdefs : validateDefinitions m = .ok ()) {typeIndex : UInt32}
    (hvisit : visit m functionDef.branchTables (.callIndirect typeIndex) context =
      .ok ((), context'))
    (hrest : ValidFrom m functionDef context' activation.code)
    (hresults : behaviour.results.map Value.type =
      (operatorYields m (.callIndirect typeIndex)).operands)
    (hglobals : behaviour.globals.map Value.type = globalTypes m) :
    Safe m functionDef
      (execOp m functionDef.branchTables ret behaviour activation (.callIndirect typeIndex)) := by
  simp only [visit] at hvisit
  cases htype : m.types[typeIndex.toNat]? with
  | none =>
    simp only [htype] at hvisit
    exact (throw_eq_ok.1 hvisit).elim
  | some calleeType =>
    simp only [htype] at hvisit
    obtain ⟨u, mid, hlift, hvisit⟩ := bind_eq_ok.1 hvisit
    obtain ⟨-, rfl⟩ := lift_eq_ok.1 hlift
    obtain ⟨u, mid, hindex, hvisit⟩ := bind_eq_ok.1 hvisit
    obtain ⟨u, mid', hpop, hpush⟩ := bind_eq_ok.1 hvisit
    obtain ⟨value, rest, -, -, hpopped, -, hmatches⟩ := h.pop hindex (by decide)
    rw [operatorYields_callIndirect htype] at hresults
    simp only [execOp, htype]
    exact Safe.of_bind hpopped
      (call_safe hmatches hdefs (List.mem_of_getElem? htype) hresults hglobals hpop hpush hrest)

end Calls

section Variables

variable {behaviour : Behaviour} {ret : ResultType} {variableIndex : UInt32}

/-- A local that is read has the type the validator pushes. -/
theorem execOp_getLocal_safe (h : Matches m functionDef activation context)
    (hvisit : visit m functionDef.branchTables (.getLocal variableIndex) context =
      .ok ((), context'))
    (hrest : ValidFrom m functionDef context' activation.code) :
    Safe m functionDef
      (execOp m functionDef.branchTables ret behaviour activation (.getLocal variableIndex)) := by
  obtain ⟨type, mid, hlookup, hpush⟩ := bind_eq_ok.1 hvisit
  obtain ⟨hlocal, rfl⟩ := validateLocalIndex_eq_ok.1 hlookup
  obtain ⟨value, hvalue, rfl⟩ := h.exists_local hlocal
  rw [← modify_eq_ok.1 hpush] at hrest
  simp only [execOp, hvalue]
  exact .next ⟨_, h.push List.map_singleton, hrest⟩

/-- A local that is set keeps its type. -/
theorem execOp_setLocal_safe (h : Matches m functionDef activation context)
    (hvisit : visit m functionDef.branchTables (.setLocal variableIndex) context =
      .ok ((), context'))
    (hrest : ValidFrom m functionDef context' activation.code) :
    Safe m functionDef
      (execOp m functionDef.branchTables ret behaviour activation (.setLocal variableIndex)) := by
  obtain ⟨type, mid, hlookup, hpop⟩ := bind_eq_ok.1 hvisit
  obtain ⟨hlocal, rfl⟩ := validateLocalIndex_eq_ok.1 hlookup
  obtain ⟨old, hold, rfl⟩ := h.exists_local hlocal
  obtain ⟨value, rest, -, htype, hpopped, -, hmatches⟩ := h.pop hpop old.type_ne_any
  simp only [execOp, hold]
  exact Safe.of_bind hpopped (.next ⟨_, hmatches.setLocal hold htype, hrest⟩)

/-- A `tee_local` sets the local and leaves the operand. -/
theorem execOp_teeLocal_safe (h : Matches m functionDef activation context)
    (hvisit : visit m functionDef.branchTables (.teeLocal variableIndex) context =
      .ok ((), context'))
    (hrest : ValidFrom m functionDef context' activation.code) :
    Safe m functionDef
      (execOp m functionDef.branchTables ret behaviour activation (.teeLocal variableIndex)) := by
  obtain ⟨type, mid, hlookup, hvisit⟩ := bind_eq_ok.1 hvisit
  obtain ⟨hlocal, rfl⟩ := validateLocalIndex_eq_ok.1 hlookup
  obtain ⟨u, mid, hpop, hpush⟩ := bind_eq_ok.1 hvisit
  obtain ⟨old, hold, rfl⟩ := h.exists_local hlocal
  obtain ⟨value, rest, -, htype, hpopped, -, hmatches⟩ := h.pop hpop old.type_ne_any
  rw [← modify_eq_ok.1 hpush] at hrest
  have htypes : [value].map Value.type = [old.type] := by rw [List.map_singleton, htype]
  simp only [execOp, hold]
  exact Safe.of_bind hpopped (.next ⟨_, (hmatches.setLocal hold htype).push htypes, hrest⟩)

/-- A global that is read has the type the validator pushes. -/
theorem execOp_getGlobal_safe (h : Matches m functionDef activation context)
    (hvisit : visit m functionDef.branchTables (.getGlobal variableIndex) context =
      .ok ((), context'))
    (hrest : ValidFrom m functionDef context' activation.code) :
    Safe m functionDef
      (execOp m functionDef.branchTables ret behaviour activation (.getGlobal variableIndex)) := by
  obtain ⟨type, mid, hlift, hpush⟩ := bind_eq_ok.1 hvisit
  obtain ⟨hindex, rfl⟩ := lift_eq_ok.1 hlift
  obtain ⟨globalType, hglobal, rfl, -⟩ := of_validateGlobalIndex hindex
  obtain ⟨value, hvalue, htype⟩ := h.exists_global hglobal
  rw [← modify_eq_ok.1 hpush, ← htype] at hrest
  simp only [execOp, hvalue]
  exact .next ⟨_, h.push List.map_singleton, hrest⟩

/-- A global that is set is mutable and keeps its type. -/
theorem execOp_setGlobal_safe (h : Matches m functionDef activation context)
    (hvisit : visit m functionDef.branchTables (.setGlobal variableIndex) context =
      .ok ((), context'))
    (hrest : ValidFrom m functionDef context' activation.code) :
    Safe m functionDef
      (execOp m functionDef.branchTables ret behaviour activation (.setGlobal variableIndex)) := by
  obtain ⟨type, mid, hlift, hpop⟩ := bind_eq_ok.1 hvisit
  obtain ⟨hindex, rfl⟩ := lift_eq_ok.1 hlift
  obtain ⟨globalType, hglobal, rfl, hmutable⟩ := of_validateGlobalIndex hindex
  obtain ⟨old, hold, hoverwritten⟩ := h.exists_global hglobal
  rw [← hoverwritten] at hpop
  obtain ⟨value, rest, -, htype, hpopped, -, hmatches⟩ := h.pop hpop old.type_ne_any
  simp only [execOp, hold, hglobal, hmutable rfl, if_true]
  exact Safe.of_bind hpopped (.next ⟨_, hmatches.setGlobal hold htype, hrest⟩)

end Variables

/-- A numeric operator finds the operands of its signature. -/
theorem execOp_numeric_safe (h : Matches m functionDef activation context) {behaviour : Behaviour}
    {ret : ResultType} {op : NumericOp}
    (hvisit : visit m functionDef.branchTables (.numeric op) context = .ok ((), context'))
    (hrest : ValidFrom m functionDef context' activation.code)
    (hresults : behaviour.results.map Value.type = (operatorYields m (.numeric op)).operands) :
    Safe m functionDef
      (execOp m functionDef.branchTables ret behaviour activation (.numeric op)) := by
  simp only [visit] at hvisit
  rw [operatorYields_numeric] at hresults
  simp only [execOp]
  cases hsignature : op.signature with
  | unary operand result =>
    simp only [hsignature] at hvisit hresults ⊢
    obtain ⟨u, mid, hpop, hpush⟩ := bind_eq_ok.1 hvisit
    exact unary_safe h (unary_ne_any hsignature) hresults hpop hpush hrest
  | binary operand result =>
    simp only [hsignature] at hvisit hresults ⊢
    obtain ⟨u, mid, hpop, hpush⟩ := bind_eq_ok.1 hvisit
    have hany : .any ∉ [operand, operand] := by
      simpa using (binary_ne_any hsignature).symm
    exact arguments_safe h hany hresults hpop hpush hrest

/-- **Progress and preservation.** An operator the validator accepts executes without a fault, and
what is left to execute is validated. -/
theorem execOp_safe (h : Matches m functionDef activation context)
    (hdefs : validateDefinitions m = .ok ()) {op : Operator}
    (hvisit : visit m functionDef.branchTables op context = .ok ((), context'))
    (hrest : ValidFrom m functionDef context' activation.code) {behaviour : Behaviour}
    (hresults : behaviour.results.map Value.type = (operatorYields m op).operands)
    (hglobals : behaviour.globals.map Value.type = globalTypes m) :
    Safe m functionDef (execOp m functionDef.branchTables (functionDef.functionType m).ret
      behaviour activation op) := by
  cases op with
  | unreachable => exact .trap
  | nop =>
    obtain rfl := pushResult_eq_ok.1 hvisit
    exact .next ⟨context, h, hrest⟩
  | block resultType =>
    obtain ⟨u, mid, hlift, hpush⟩ := bind_eq_ok.1 hvisit
    obtain ⟨-, rfl⟩ := lift_eq_ok.1 hlift
    rw [← modify_eq_ok.1 hpush] at hrest
    exact enterBlock_safe h hrest
  | loop resultType =>
    obtain ⟨u, mid, hlift, hpush⟩ := bind_eq_ok.1 hvisit
    obtain ⟨-, rfl⟩ := lift_eq_ok.1 hlift
    rw [← modify_eq_ok.1 hpush] at hrest
    exact loop_safe h hrest
  | if_ resultType => exact execOp_if_safe h hvisit hrest
  | else_ => exact execOp_else_safe h hvisit
  | end_ => exact execOp_end_safe h hvisit hrest
  | br targetDepth => exact execOp_br_safe h hvisit
  | brIf targetDepth => exact execOp_brIf_safe h hvisit hrest
  | brTable defaultTargetDepth branchTableIndex => exact execOp_brTable_safe h hvisit
  | return_ => exact execOp_return_safe h hvisit
  | call functionIndex => exact execOp_call_safe h hdefs hvisit hrest hresults hglobals
  | callIndirect type => exact execOp_callIndirect_safe h hdefs hvisit hrest hresults hglobals
  | drop =>
    obtain ⟨type, mid, hpop, hvisit⟩ := bind_eq_ok.1 hvisit
    obtain ⟨-, rfl⟩ := pure_eq_ok.1 hvisit
    obtain ⟨value, rest, -, hpopped, hmatches⟩ := h.popAny hpop
    exact Safe.of_bind hpopped (.next ⟨_, hmatches, hrest⟩)
  | select => exact select_safe h hvisit hrest
  | getLocal variableIndex => exact execOp_getLocal_safe h hvisit hrest
  | setLocal variableIndex => exact execOp_setLocal_safe h hvisit hrest
  | teeLocal variableIndex => exact execOp_teeLocal_safe h hvisit hrest
  | getGlobal variableIndex => exact execOp_getGlobal_safe h hvisit hrest
  | setGlobal variableIndex => exact execOp_setGlobal_safe h hvisit hrest
  | load op alignmentLog2 offset =>
    obtain ⟨u, mid, himm, hvisit⟩ := bind_eq_ok.1 hvisit
    obtain rfl := eq_of_validateLoadOrStoreImm himm
    obtain ⟨u, mid, hpop, hpush⟩ := bind_eq_ok.1 hvisit
    exact unary_safe h (by decide) hresults hpop hpush hrest
  | store op alignmentLog2 offset =>
    obtain ⟨u, mid, himm, hpop⟩ := bind_eq_ok.1 hvisit
    obtain rfl := eq_of_validateLoadOrStoreImm himm
    have hany : .any ∉ [.i32, op.valueType] := by
      cases op <;> decide
    exact arguments_safe h hany hresults hpop (pushResult_eq_ok.2 rfl) hrest
  | currentMemory =>
    obtain ⟨u, mid, hlift, hpush⟩ := bind_eq_ok.1 hvisit
    obtain ⟨-, rfl⟩ := lift_eq_ok.1 hlift
    exact h.compute hresults hpush hrest
  | growMemory =>
    obtain ⟨u, mid, hlift, hvisit⟩ := bind_eq_ok.1 hvisit
    obtain ⟨-, rfl⟩ := lift_eq_ok.1 hlift
    obtain ⟨u, mid, hpop, hpush⟩ := bind_eq_ok.1 hvisit
    exact unary_safe h (by decide) hresults hpop hpush hrest
  | i32Const _ | i64Const _ | f32Const _ | f64Const _ =>
    obtain rfl := pushResult_eq_ok.1 hvisit
    exact .next ⟨_, h.push rfl, hrest⟩
  | numeric op => exact execOp_numeric_safe h hvisit hrest hresults

end Operators

/-! ## Whole executions -/

section Executions

variable {m : Module} {functionDef : FunctionDef}

/-- One operator of a validated activation. -/
theorem Sound.exec_safe {activation : Activation} (h : Sound m functionDef activation)
    (hdefs : validateDefinitions m = .ok ()) {behaviour : Behaviour}
    (hfits : behaviour.Fits m activation) :
    Safe m functionDef
      (exec m functionDef.branchTables (functionDef.functionType m).ret behaviour activation) := by
  obtain ⟨context, hmatches, final, hvisit, hdone⟩ := h
  unfold exec
  cases hcode : activation.code with
  | nil =>
    rw [hcode] at hvisit
    obtain ⟨-, rfl⟩ := pure_eq_ok.1 hvisit
    exact absurd hdone hmatches.labels.controlStack_ne_nil
  | cons op code =>
    rw [hcode] at hvisit
    obtain ⟨u, mid, hop, hrest⟩ := bind_eq_ok.1 hvisit
    have hresults := hfits.results op (by simp [hcode])
    have hglobals := hfits.globals.trans hmatches.globals
    exact execOp_safe (hmatches.at_code code) hdefs hop ⟨final, hrest, hdone⟩ hresults hglobals

theorem Sound.of_next {activation next : Activation} (h : Sound m functionDef activation)
    (hdefs : validateDefinitions m = .ok ()) {behaviour : Behaviour}
    (hfits : behaviour.Fits m activation)
    (hnext : exec m functionDef.branchTables (functionDef.functionType m).ret behaviour activation =
      .ok (.next next)) : Sound m functionDef next := by
  have hsafe := h.exec_safe hdefs hfits
  rw [hnext] at hsafe
  cases hsafe with
  | next hsound => exact hsound

/-- A whole execution stays in validated code. -/
theorem Sound.of_steps {activation activation' : Activation} (h : Sound m functionDef activation)
    (hdefs : validateDefinitions m = .ok ())
    (hsteps : Steps m functionDef.branchTables (functionDef.functionType m).ret activation
      activation') : Sound m functionDef activation' := by
  induction hsteps with
  | refl => exact h
  | step hsteps hfits hnext ih => exact ih.of_next hdefs hfits hnext

/-- A function that is entered with arguments, locals and globals of their types. -/
theorem sound_start {ops : List Operator} (haccepts : functionDef.Accepts m ops)
    {locals globals : List Value}
    (hlocals : locals.map Value.type =
      (functionDef.functionType m).parameters ++ functionDef.nonParameterLocalTypes)
    (hglobals : globals.map Value.type = globalTypes m) :
    Sound m functionDef
      (.start (functionDef.functionType m).ret ops locals globals) :=
  ⟨.init (functionDef.functionType m) functionDef.nonParameterLocalTypes,
    ⟨rfl, hlocals, hglobals, rfl, .function rfl rfl⟩, haccepts⟩

/-- **Validator soundness.** At no point of an execution of an accepted body, whatever it computes
and its callees return, is there a fault; and a function that is left leaves its result. -/
theorem validated_body_sound (m : Module) (functionDef : FunctionDef) (ops : List Operator)
    (hdefs : validateDefinitions m = .ok ()) (haccepts : functionDef.Accepts m ops)
    (locals globals : List Value)
    (hlocals : locals.map Value.type =
      (functionDef.functionType m).parameters ++ functionDef.nonParameterLocalTypes)
    (hglobals : globals.map Value.type = globalTypes m) (activation : Activation)
    (hsteps : Steps m functionDef.branchTables (functionDef.functionType m).ret
      (.start (functionDef.functionType m).ret ops locals globals) activation)
    (behaviour : Behaviour) (hfits : behaviour.Fits m activation) :
    (∀ fault, exec m functionDef.branchTables (functionDef.functionType m).ret behaviour
      activation ≠ .error fault) ∧
    ∀ stack, exec m functionDef.branchTables (functionDef.functionType m).ret behaviour
      activation = .ok (.exit stack) →
        stack.map Value.type = (functionDef.functionType m).ret.operands := by
  have hsound := (sound_start haccepts hlocals hglobals).of_steps hdefs hsteps
  have hsafe := hsound.exec_safe hdefs hfits
  constructor
  · intro fault hfault
    rw [hfault] at hsafe
    cases hsafe
  · intro stack hexit
    rw [hexit] at hsafe
    cases hsafe with
    | exit hstack => exact hstack

end Executions

/-- One type, that of a function that returns an `i32` for one. -/
def unaryModule : Module := { Module.empty with types := [⟨.i32, [.i32]⟩] }

/-- A function with a branch out of a block that takes a result along. -/
def branchingFunction : FunctionDef := ⟨0, [], [], []⟩

/-- The code behind the branch pops what is not there. -/
def branchingBody : List Operator :=
  [.block .i32, .getLocal 0, .br 0, .drop, .end_, .end_]

/-- Behind the branch. -/
def branchedActivation : Activation :=
  ⟨[.end_], [.i32 5], [⟨.function, 0, .i32, .i32⟩], [.i32 5], []⟩

theorem validated_body_sound_sample :
    (∀ fault, exec unaryModule [] .i32 ⟨false, [], []⟩ branchedActivation ≠ .error fault) ∧
      ∀ stack, exec unaryModule [] .i32 ⟨false, [], []⟩ branchedActivation = .ok (.exit stack) →
        stack.map Value.type = [.i32] := by
  have haccepts : branchingFunction.Accepts unaryModule branchingBody :=
    ⟨⟨⟨.i32, [.i32]⟩, [.i32], [], []⟩, rfl, rfl⟩
  have hfits : ∀ {op code stack structures}, operatorYields unaryModule op = .none →
      Behaviour.Fits unaryModule ⟨op :: code, stack, structures, [.i32 5], []⟩ ⟨false, [], []⟩ := by
    intro op code stack structures hnone
    refine ⟨fun op' hop => ?_, rfl⟩
    obtain rfl := Option.some.inj hop
    rw [hnone]
    rfl
  have hsteps : Steps unaryModule [] .i32 (.start .i32 branchingBody [.i32 5] [])
      branchedActivation :=
    .step (.step (.step (.refl _) (hfits rfl) rfl) (hfits rfl) rfl) (hfits rfl) rfl
  exact validated_body_sound unaryModule branchingFunction branchingBody rfl haccepts [.i32 5] []
    rfl rfl _ hsteps ⟨false, [], []⟩ (hfits rfl)

end FractalWasm.Runtime
