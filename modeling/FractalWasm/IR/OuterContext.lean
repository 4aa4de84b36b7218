import FractalWasm.IR.CheckRules
import FractalWasm.IR.ControlFlow

/-!
# The context around an open structure

What the validator does inside a structure does not reach outside of it: it pops no operand the
structure was opened on and changes no entry of the structures around it. So, whether the end of the
structure is reachable or not, the code behind it is validated from the operands it was opened on,
with its result on top, and the code of an `else` from these operands themselves.

**One operator** (`StaysWithin`): every operator but the one that closes the structure keeps what is
around it, proved check by check.

**Where control goes** (`afterEnd_of_visitAll`, `falseArm_of_visitAll`): the place behind an `end`
and the start of the arm behind an `else` are found by counting structures, and the validator has a
context at either.
-/

namespace FractalWasm.IR

open Codec Control

namespace FunctionValidationContext

/-- The context lies inside `depth` structures that were opened in the one of `entry`, which itself
was opened in the context `start`. Only whether `entry` is reachable is left open. -/
structure Within (start : FunctionValidationContext) (entry : ControlContext)
    (depth : Nat) (context : FunctionValidationContext) : Prop where
  functionType : context.functionType = start.functionType
  locals : context.locals = start.locals
  height : entry.outerStackSize = start.stack.length
  stack : start.stack <:+ context.stack
  controls : ∃ (inner : List ControlContext) (isReachable : Bool),
    context.controlStack = inner ++ { entry with isReachable } :: start.controlStack ∧
      inner.length = depth ∧ ∀ control ∈ inner, start.stack.length ≤ control.outerStackSize

variable {start context context' : FunctionValidationContext} {entry : ControlContext}
  {depth : Nat}

/-- The structure on top was opened on no less than the operands of `start`. -/
theorem Within.le_head (h : Within start entry depth context) {control : ControlContext}
    {controls : List ControlContext} (hcontrols : context.controlStack = control :: controls) :
    start.stack.length ≤ control.outerStackSize := by
  obtain ⟨inner, isReachable, hinner, -, hsizes⟩ := h.controls
  cases inner with
  | nil =>
    obtain ⟨rfl, -⟩ := List.cons_eq_cons.1 (hinner.symm.trans hcontrols)
    exact Nat.le_of_eq h.height.symm
  | cons first inner =>
    obtain ⟨rfl, -⟩ := List.cons_eq_cons.1 (hinner.symm.trans hcontrols)
    exact hsizes _ List.mem_cons_self

/-- Another operand stack above the same operands. -/
theorem Within.of_stack (h : Within start entry depth context) {stack : List ValueType}
    (hstack : start.stack <:+ stack) : Within start entry depth { context with stack } :=
  ⟨h.functionType, h.locals, h.height, hstack, h.controls⟩

theorem suffix_tail_of_lt {α : Type} {lower stack : List α} (h : lower <:+ stack)
    (hlt : lower.length < stack.length) : lower <:+ stack.tail := by
  obtain ⟨upper, rfl⟩ := h
  cases upper with
  | nil => simp at hlt
  | cons top upper => exact List.suffix_append upper lower

/-- The second context lies in every structure the first lies in. -/
def StaysWithin (context context' : FunctionValidationContext) : Prop :=
  ∀ {start : FunctionValidationContext} {entry : ControlContext} {depth : Nat},
    Within start entry depth context → Within start entry depth context'

theorem Within.unreachable (h : Within start entry depth context) {control : ControlContext}
    {controls : List ControlContext} (hcontrols : context.controlStack = control :: controls) :
    Within start entry depth { context with
      stack := resizeStack control.outerStackSize context.stack
      controlStack := { control with isReachable := false } :: controls } := by
  have hle := h.le_head hcontrols
  have hstack : start.stack <:+ resizeStack control.outerStackSize context.stack := by
    obtain ⟨upper, hupper⟩ := h.stack
    refine List.IsSuffix.trans ?_ (List.suffix_append _ _)
    rw [← hupper, List.length_append, List.drop_append_of_le_length (by omega)]
    exact List.suffix_append _ _
  refine ⟨h.functionType, h.locals, h.height, hstack, ?_⟩
  obtain ⟨inner, isReachable, hinner, hdepth, hsizes⟩ := h.controls
  cases inner with
  | nil =>
    obtain ⟨rfl, rfl⟩ := List.cons_eq_cons.1 (hinner.symm.trans hcontrols)
    exact ⟨[], false, rfl, hdepth, hsizes⟩
  | cons first inner =>
    obtain ⟨rfl, rfl⟩ := List.cons_eq_cons.1 (hinner.symm.trans hcontrols)
    rw [List.forall_mem_cons] at hsizes
    exact ⟨{ first with isReachable := false } :: inner, isReachable, rfl, hdepth,
      List.forall_mem_cons.2 hsizes⟩

theorem stackOrder_staysWithin : StackOrder StaysWithin where
  refl := fun _ _ _ _ h => h
  trans := fun h h' _ _ _ hwithin => h' (h hwithin)
  push := fun type context _ _ _ hwithin =>
    hwithin.of_stack (hwithin.stack.trans (List.suffix_cons type context.stack))
  pop := fun hcontrols hlt _ _ _ hwithin =>
    hwithin.of_stack (suffix_tail_of_lt hwithin.stack
      (Nat.lt_of_le_of_lt (hwithin.le_head hcontrols) hlt))
  unreachable := fun hcontrols _ _ _ hwithin => hwithin.unreachable hcontrols

/-! ## The structured operators -/

/-- The context the structure around is opened in is its own innermost. -/
theorem within_pushControlStack (context : FunctionValidationContext) (type : ControlType)
    (argument result : ResultType) :
    Within context ⟨type, context.stack.length, argument, result, true⟩ 0
      { context with
        controlStack := ⟨type, context.stack.length, argument, result, true⟩ ::
          context.controlStack } :=
  ⟨rfl, rfl, rfl, List.suffix_rfl, [], true, rfl, rfl, by simp⟩

theorem Within.pushControlStack {type : ControlType} {argument result : ResultType}
    (h : Within start entry depth context)
    (hpush : pushControlStack type argument result context = .ok ((), context')) :
    Within start entry (depth + 1) context' := by
  rw [← modify_eq_ok.1 hpush]
  obtain ⟨inner, isReachable, hinner, hdepth, hsizes⟩ := h.controls
  refine ⟨h.functionType, h.locals, h.height, h.stack,
    ⟨type, context.stack.length, argument, result, true⟩ :: inner, isReachable, ?_, ?_, ?_⟩
  · rw [hinner]
    rfl
  · rw [List.length_cons, hdepth]
  · exact List.forall_mem_cons.2 ⟨h.stack.length_le, hsizes⟩

/-- The result of the structure on top is popped in front of its end. -/
theorem Within.exists_popControlStack {isElse : Bool} (h : Within start entry depth context)
    (hvisit : (do
      popResultOfTop (← get).controlStack
      popControlStack isElse : Check Unit) context = .ok ((), context')) :
    ∃ mid, Within start entry depth mid ∧ popControlStack isElse mid = .ok ((), context') := by
  obtain ⟨c, c', hget, hvisit⟩ := bind_eq_ok.1 hvisit
  obtain ⟨rfl, rfl⟩ := get_eq_ok.1 hget
  obtain ⟨u, mid, hpop, hvisit⟩ := bind_eq_ok.1 hvisit
  exact ⟨mid, (Relates.popResultOfTop stackOrder_staysWithin _).related hpop h, hvisit⟩

/-- The end of a structure inside, or its `else`. -/
theorem Within.popControlStack_succ {isElse : Bool} (h : Within start entry (depth + 1) context)
    (hpop : popControlStack isElse context = .ok ((), context')) :
    Within start entry (if isElse then depth + 1 else depth) context' := by
  obtain ⟨inner, isReachable, hinner, hdepth, hsizes⟩ := h.controls
  cases inner with
  | nil => cases hdepth
  | cons first inner =>
    rw [List.forall_mem_cons] at hsizes
    obtain ⟨-, ⟨rfl, -, rfl⟩ | ⟨rfl, -, rfl⟩⟩ := popControlStack_cases hinner hpop
    · exact ⟨h.functionType, h.locals, h.height, h.stack,
        { first with type := .ifElse, isReachable := true } :: inner, isReachable, rfl, hdepth,
        List.forall_mem_cons.2 hsizes⟩
    · exact ⟨h.functionType, h.locals, h.height, h.stack.trans (List.suffix_append _ _),
        inner, isReachable, rfl, Nat.succ.inj hdepth, hsizes.2⟩

/-- The operands left at the end of the structure are those it was opened on. -/
theorem Within.eq_of_popControlStack {isElse : Bool} (h : Within start entry 0 context)
    (hpop : popControlStack isElse context = .ok ((), context')) :
    (isElse = true ∧ entry.type = .ifThen ∧
      context' = { start with
        controlStack := { entry with type := .ifElse, isReachable := true } ::
          start.controlStack }) ∨
    (isElse = false ∧ (entry.type = .ifThen → entry.resultType = .none) ∧
      context' = { start with
        stack := (if start.controlStack = [] then [] else entry.resultType.operands) ++
          start.stack }) := by
  obtain ⟨inner, isReachable, hinner, hdepth, -⟩ := h.controls
  obtain rfl := List.length_eq_zero_iff.1 hdepth
  obtain ⟨hle, hcases⟩ := popControlStack_cases hinner hpop
  have hstack : context.stack = start.stack :=
    (h.stack.eq_of_length_le (h.height ▸ hle)).symm
  have hcontext : context =
      { start with controlStack := { entry with isReachable } :: start.controlStack } := by
    obtain ⟨functionType, locals, controlStack, stack⟩ := context
    obtain rfl := h.functionType
    obtain rfl := h.locals
    obtain rfl := hstack
    obtain rfl := hinner
    rfl
  subst hcontext
  exact hcases

theorem Within.visit_end (h : Within start entry (depth + 1) context) {m : Module}
    {branchTables : List (List UInt32)}
    (hvisit : visit m branchTables .end_ context = .ok ((), context')) :
    Within start entry depth context' := by
  obtain ⟨mid, hmid, hpop⟩ := h.exists_popControlStack hvisit
  exact hmid.popControlStack_succ hpop

theorem Within.visit_else (h : Within start entry (depth + 1) context) {m : Module}
    {branchTables : List (List UInt32)}
    (hvisit : visit m branchTables .else_ context = .ok ((), context')) :
    Within start entry (depth + 1) context' := by
  obtain ⟨mid, hmid, hpop⟩ := h.exists_popControlStack hvisit
  exact hmid.popControlStack_succ hpop

/-- Behind the end of the structure. -/
theorem Within.closed (h : Within start entry 0 context) (hstart : start.controlStack ≠ [])
    {m : Module} {branchTables : List (List UInt32)}
    (hvisit : visit m branchTables .end_ context = .ok ((), context')) :
    (entry.type = .ifThen → entry.resultType = .none) ∧
      context' = { start with stack := entry.resultType.operands ++ start.stack } := by
  obtain ⟨mid, hmid, hpop⟩ := h.exists_popControlStack hvisit
  obtain ⟨hnot, -⟩ | ⟨-, hyields, hcontext⟩ := hmid.eq_of_popControlStack hpop
  · cases hnot
  · rw [if_neg hstart] at hcontext
    exact ⟨hyields, hcontext⟩

/-- Behind the `else` of the structure. -/
theorem Within.flipped (h : Within start entry 0 context) {m : Module}
    {branchTables : List (List UInt32)}
    (hvisit : visit m branchTables .else_ context = .ok ((), context')) :
    entry.type = .ifThen ∧ context' = { start with
      controlStack := { entry with type := .ifElse, isReachable := true } ::
        start.controlStack } := by
  obtain ⟨mid, hmid, hpop⟩ := h.exists_popControlStack hvisit
  obtain ⟨-, hif, hcontext⟩ | ⟨hnot, -⟩ := hmid.eq_of_popControlStack hpop
  · exact ⟨hif, hcontext⟩
  · cases hnot

/-- Behind an operator that opens a structure. -/
theorem Within.visit_opens (h : Within start entry depth context) {m : Module}
    {branchTables : List (List UInt32)} {op : Operator} (hopens : op.opens = 1)
    (hvisit : visit m branchTables op context = .ok ((), context')) :
    Within start entry (depth + 1) context' := by
  cases op with
  | block _ | loop _ =>
    obtain ⟨u, mid, hvalidate, hpush⟩ := bind_eq_ok.1 hvisit
    obtain ⟨-, rfl⟩ := lift_eq_ok.1 hvalidate
    exact h.pushControlStack hpush
  | if_ resultType =>
    obtain ⟨u, mid, hvalidate, hvisit⟩ := bind_eq_ok.1 hvisit
    obtain ⟨-, rfl⟩ := lift_eq_ok.1 hvalidate
    obtain ⟨u, mid, hcondition, hpush⟩ := bind_eq_ok.1 hvisit
    have hmid := (Relates.popAndValidateOperand stackOrder_staysWithin _).related hcondition h
    exact hmid.pushControlStack hpush
  | _ => cases hopens

/-! ## Where control goes -/

theorem action_call_cases (m : Module) (functionIndex : UInt32) :
    m.action (.call functionIndex) = .next ∨
      ∃ function, m.action (.call functionIndex) = .call function := by
  rw [Module.action, Operator.action_call]
  split
  · exact .inr ⟨_, rfl⟩
  · exact .inl rfl

theorem afterEnd_plain {m : Module} {op : Operator} (hplain : op.isStructured = false)
    (depth : Nat) (ops : List Operator) :
    afterEnd m.action depth (op :: ops) = afterEnd m.action depth ops := by
  cases op with
  | block _ | loop _ | if_ _ | else_ | end_ => cases hplain
  | call functionIndex =>
    obtain haction | ⟨function, haction⟩ := action_call_cases m functionIndex
    · simp only [afterEnd, haction]
    · simp only [afterEnd, haction]
  | _ => rfl

theorem falseArm_plain {m : Module} {op : Operator} (hplain : op.isStructured = false)
    (depth : Nat) (ops : List Operator) :
    falseArm m.action depth (op :: ops) = falseArm m.action depth ops := by
  cases op with
  | block _ | loop _ | if_ _ | else_ | end_ => cases hplain
  | call functionIndex =>
    obtain haction | ⟨function, haction⟩ := action_call_cases m functionIndex
    · simp only [falseArm, haction]
    · simp only [falseArm, haction]
  | _ => rfl

theorem Within.controlStack_ne_nil (h : Within start entry depth context) :
    context.controlStack ≠ [] := by
  obtain ⟨inner, isReachable, hinner, -, -⟩ := h.controls
  rw [hinner]
  simp

section Accepted

variable {m : Module} {branchTables : List (List UInt32)} {final : FunctionValidationContext}
  (hdone : final.controlStack = [])

include hdone

/-- The code behind the end of a structure is validated from the operands the structure was opened
on, with its result on top. -/
theorem afterEnd_of_visitAll {ops : List Operator}
    (hvisit : visitAll m branchTables ops context = .ok ((), final))
    (h : Within start entry depth context) (hstart : start.controlStack ≠ []) :
    ∃ after, afterEnd m.action depth ops = some after ∧
      visitAll m branchTables after
        { start with stack := entry.resultType.operands ++ start.stack } = .ok ((), final) := by
  induction ops generalizing depth entry context with
  | nil =>
    obtain ⟨-, rfl⟩ := pure_eq_ok.1 hvisit
    exact absurd hdone h.controlStack_ne_nil
  | cons op ops ih =>
    obtain ⟨u, mid, hop, hrest⟩ := bind_eq_ok.1 hvisit
    cases op with
    | block _ | loop _ | if_ _ => exact ih hrest (h.visit_opens rfl hop)
    | end_ =>
      cases depth with
      | zero =>
        obtain ⟨-, rfl⟩ := h.closed hstart hop
        exact ⟨ops, rfl, hrest⟩
      | succ depth => exact ih hrest (h.visit_end hop)
    | else_ =>
      cases depth with
      | zero =>
        obtain ⟨-, rfl⟩ := h.flipped hop
        have hflipped : Within start { entry with type := .ifElse } 0 { start with
            controlStack := { entry with type := .ifElse, isReachable := true } ::
              start.controlStack } :=
          ⟨rfl, rfl, h.height, List.suffix_rfl, [], true, rfl, rfl, by simp⟩
        have hclosed := ih hrest hflipped
        exact hclosed
      | succ depth => exact ih hrest (h.visit_else hop)
    | _ =>
      rw [afterEnd_plain rfl]
      exact ih hrest ((Relates.visit stackOrder_staysWithin rfl).related hop h)

/-- The other arm of an `if` is validated from the operands the `if` was opened on; without an
`else` the `if` yields nothing. -/
theorem falseArm_of_visitAll {ops : List Operator}
    (hvisit : visitAll m branchTables ops context = .ok ((), final))
    (h : Within start entry depth context) (hstart : start.controlStack ≠ [])
    (hif : entry.type = .ifThen) :
    ∃ arm found, falseArm m.action depth ops = some (arm, found) ∧
      (found = true → visitAll m branchTables arm { start with
        controlStack := { entry with type := .ifElse, isReachable := true } ::
          start.controlStack } = .ok ((), final)) ∧
      (found = false → visitAll m branchTables arm start = .ok ((), final)) := by
  induction ops generalizing depth context with
  | nil =>
    obtain ⟨-, rfl⟩ := pure_eq_ok.1 hvisit
    exact absurd hdone h.controlStack_ne_nil
  | cons op ops ih =>
    obtain ⟨u, mid, hop, hrest⟩ := bind_eq_ok.1 hvisit
    cases op with
    | block _ | loop _ | if_ _ => exact ih hrest (h.visit_opens rfl hop)
    | end_ =>
      cases depth with
      | zero =>
        obtain ⟨hyields, rfl⟩ := h.closed hstart hop
        refine ⟨ops, false, rfl, nofun, fun _ => ?_⟩
        rw [hyields hif] at hrest
        exact hrest
      | succ depth => exact ih hrest (h.visit_end hop)
    | else_ =>
      cases depth with
      | zero =>
        obtain ⟨-, rfl⟩ := h.flipped hop
        exact ⟨ops, true, rfl, fun _ => hrest, nofun⟩
      | succ depth => exact ih hrest (h.visit_else hop)
    | _ =>
      rw [falseArm_plain rfl]
      exact ih hrest ((Relates.visit stackOrder_staysWithin rfl).related hop h)

end Accepted

end FunctionValidationContext

end FractalWasm.IR
