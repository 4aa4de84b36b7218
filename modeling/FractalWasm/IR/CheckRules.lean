import FractalWasm.IR.Validate

/-!
# What checks do to the context

The operators other than the structured ones touch the validation context in three ways only: they
push an operand, they pop one from above what the structure on top was opened on, and behind an
unconditional branch they mark that structure unreachable. A preorder on contexts that these three
respect holds between the contexts before and after each of those operators.

**Preorders** (`StackOrder`): what the three ways have to respect.

**Checks** (`Relates`): a rule for each statement of a check, and from these a lemma for each check
of the validator, so that a new property of the operand stack needs the three ways only.
-/

namespace FractalWasm.IR

open Codec

/-- The operands of a result type: one, or none. -/
def ResultType.operands (type : ResultType) : List ValueType :=
  if type = .none then [] else [.ofByte type.toByte]

namespace FunctionValidationContext

/-- A preorder that the three ways to touch the context respect. -/
structure StackOrder (R : FunctionValidationContext → FunctionValidationContext → Prop) :
    Prop where
  refl : ∀ context, R context context
  trans : ∀ {context mid context'}, R context mid → R mid context' → R context context'
  push : ∀ type context, R context { context with stack := type :: context.stack }
  pop : ∀ {context : FunctionValidationContext} {control controls},
    context.controlStack = control :: controls →
      control.outerStackSize < context.stack.length →
        R context { context with stack := context.stack.tail }
  unreachable : ∀ {context : FunctionValidationContext} {control controls},
    context.controlStack = control :: controls →
      R context { context with
        stack := resizeStack control.outerStackSize context.stack
        controlStack := { control with isReachable := false } :: controls }

/-- A check whose runs lead from a context to one it is related to. -/
structure Relates (R : FunctionValidationContext → FunctionValidationContext → Prop) {α : Type}
    (check : Check α) : Prop where
  related : ∀ {context context' : FunctionValidationContext} {a : α},
    check context = .ok (a, context') → R context context'

namespace Relates

variable {α β : Type} {R : FunctionValidationContext → FunctionValidationContext → Prop}
  (order : StackOrder R)

include order in
theorem bind {check : Check α} {next : α → Check β} (hcheck : Relates R check)
    (hnext : ∀ a, Relates R (next a)) : Relates R (check >>= next) := by
  constructor
  intro context context' b h
  obtain ⟨a, mid, ha, hb⟩ := bind_eq_ok.1 h
  exact order.trans (hcheck.related ha) ((hnext a).related hb)

include order in
/-- A check that leaves the context as it is. -/
theorem of_eq {check : Check α} (hsame : ∀ {context context' : FunctionValidationContext} {a : α},
    check context = .ok (a, context') → context' = context) : Relates R check := by
  constructor
  intro context context' a h
  rw [hsame h]
  exact order.refl context

include order in
theorem pure (a : α) : Relates R (Pure.pure a : Check α) :=
  of_eq order fun h => (pure_eq_ok.1 h).2.symm

include order in
theorem lift (x : Except Exception α) : Relates R (liftM x : Check α) :=
  of_eq order fun h => (lift_eq_ok.1 h).2.symm

theorem throw (e : Exception) : Relates R (throwThe Exception e : Check α) :=
  ⟨fun h => (throw_eq_ok.1 h).elim⟩

include order in
theorem get : Relates R (MonadState.get : Check FunctionValidationContext) :=
  of_eq order fun h => (get_eq_ok.1 h).2.symm

include order in
theorem forM {as : List α} {check : α → Check PUnit} (hcheck : ∀ a, Relates R (check a)) :
    Relates R (as.forM check) := by
  induction as with
  | nil => exact pure order _
  | cons a as ih => exact bind order (hcheck a) fun _ => ih

theorem ite {c : Prop} [Decidable c] {check check' : Check α} (h : Relates R check)
    (h' : Relates R check') : Relates R (if c then check else check') := by
  split
  · exact h
  · exact h'

include order

theorem pushOperand (type : ValueType) : Relates R (pushOperand type) := by
  constructor
  intro context context' a h
  rw [← modify_eq_ok.1 h]
  exact order.push type context

theorem pushResult (type : ResultType) : Relates R (pushResult type) :=
  ite (bind order (lift order _) (pushOperand order)) (pure order _)

theorem popOperand : Relates R popOperand := by
  constructor
  intro context context' a h
  unfold FunctionValidationContext.popOperand at h
  obtain ⟨c, c', hget, h⟩ := bind_eq_ok.1 h
  obtain ⟨rfl, rfl⟩ := get_eq_ok.1 hget
  cases hcontrols : context.controlStack with
  | nil =>
    simp only [hcontrols] at h
    exact (throw_eq_ok.1 h).elim
  | cons control controls =>
    simp only [hcontrols] at h
    split at h
    · next hlt =>
      obtain ⟨u, mid, hset, h⟩ := bind_eq_ok.1 h
      obtain rfl := set_eq_ok.1 hset
      obtain ⟨-, rfl⟩ := pure_eq_ok.1 h
      rw [← hcontrols]
      exact order.pop hcontrols hlt
    · split at h
      · exact (throw_eq_ok.1 h).elim
      · obtain ⟨-, rfl⟩ := pure_eq_ok.1 h
        exact order.refl context

theorem popAndValidateOperand (type : ValueType) : Relates R (popAndValidateOperand type) :=
  bind order (popOperand order) fun _ => lift order _

theorem popAndValidateOperands (types : List ValueType) :
    Relates R (popAndValidateOperands types) :=
  forM order (popAndValidateOperand order)

theorem popAndValidateResultType (type : ResultType) :
    Relates R (popAndValidateResultType type) :=
  ite (bind order (lift order _) (popAndValidateOperand order)) (pure order _)

theorem enterUnreachable : Relates R enterUnreachable := by
  constructor
  intro context context' a h
  unfold FunctionValidationContext.enterUnreachable at h
  obtain ⟨c, c', hget, h⟩ := bind_eq_ok.1 h
  obtain ⟨rfl, rfl⟩ := get_eq_ok.1 hget
  cases hcontrols : context.controlStack with
  | nil =>
    simp only [hcontrols] at h
    exact (throw_eq_ok.1 h).elim
  | cons control controls =>
    simp only [hcontrols] at h
    obtain rfl := set_eq_ok.1 h
    exact order.unreachable hcontrols

theorem getBranchTargetByDepth (depth : Nat) : Relates R (getBranchTargetByDepth depth) := by
  apply bind order (get order)
  intro context
  cases context.controlStack[depth]? with
  | none => exact throw _
  | some control => exact pure order _

theorem validateLocalIndex (localIndex : Nat) : Relates R (validateLocalIndex localIndex) := by
  apply bind order (get order)
  intro context
  cases context.locals[localIndex]? with
  | none => exact throw _
  | some type => exact pure order _

theorem validateTargets (type : ResultType) (targetDepths : List UInt32) :
    Relates R (validateTargets type targetDepths) :=
  forM order fun _ => bind order (getBranchTargetByDepth order _) fun _ => lift order _

theorem validateLoadOrStoreImm (m : Module) (alignmentLog2 naturalAlignmentLog2 : UInt8) :
    Relates R (validateLoadOrStoreImm m alignmentLog2 naturalAlignmentLog2) :=
  bind order (lift order _) fun _ => lift order _

theorem popResultOfTop (controls : List ControlContext) :
    Relates R (popResultOfTop controls) := by
  cases controls with
  | nil => exact throw _
  | cons control controls => exact popAndValidateResultType order _

/-- The operators without structure. -/
theorem visit {m : Module} {branchTables : List (List UInt32)} {op : Operator}
    (hplain : op.isStructured = false) : Relates R (visit m branchTables op) := by
  cases op with
  | block _ | loop _ | if_ _ | else_ | end_ => cases hplain
  | unreachable => exact enterUnreachable order
  | nop | i32Const _ | i64Const _ | f32Const _ | f64Const _ => exact pushResult order _
  | br targetDepth =>
    exact bind order (getBranchTargetByDepth order _) fun _ =>
      bind order (popAndValidateResultType order _) fun _ => enterUnreachable order
  | brIf targetDepth =>
    exact bind order (popAndValidateOperand order _) fun _ =>
      bind order (getBranchTargetByDepth order _) fun _ =>
        bind order (popAndValidateResultType order _) fun _ => pushResult order _
  | brTable defaultTargetDepth branchTableIndex =>
    exact bind order (popAndValidateOperand order _) fun _ =>
      bind order (getBranchTargetByDepth order _) fun _ =>
        bind order (popAndValidateResultType order _) fun _ => bind order (lift order _) fun _ =>
          bind order (validateTargets order _ _) fun _ => enterUnreachable order
  | return_ =>
    exact bind order (get order) fun _ =>
      bind order (popAndValidateResultType order _) fun _ => enterUnreachable order
  | call functionIndex =>
    exact bind order (lift order _) fun _ =>
      bind order (popAndValidateOperands order _) fun _ => pushResult order _
  | callIndirect type =>
    simp only [FunctionValidationContext.visit]
    cases m.types[type.toNat]? with
    | none => exact throw _
    | some calleeType =>
      exact bind order (lift order _) fun _ => bind order (popAndValidateOperand order _) fun _ =>
        bind order (popAndValidateOperands order _) fun _ => pushResult order _
  | drop => exact bind order (popOperand order) fun _ => pure order _
  | select =>
    exact bind order (popOperand order) fun _ => bind order (popOperand order) fun _ =>
      bind order (popOperand order) fun _ => bind order (lift order _) fun _ =>
        bind order (lift order _) fun _ => pushOperand order _
  | getLocal variableIndex =>
    exact bind order (validateLocalIndex order _) fun _ => pushOperand order _
  | setLocal variableIndex =>
    exact bind order (validateLocalIndex order _) fun _ => popAndValidateOperand order _
  | teeLocal variableIndex =>
    exact bind order (validateLocalIndex order _) fun _ =>
      bind order (popAndValidateOperand order _) fun _ => pushOperand order _
  | getGlobal variableIndex => exact bind order (lift order _) fun _ => pushOperand order _
  | setGlobal variableIndex =>
    exact bind order (lift order _) fun _ => popAndValidateOperand order _
  | load op alignmentLog2 offset =>
    exact bind order (validateLoadOrStoreImm order _ _ _) fun _ =>
      bind order (popAndValidateOperand order _) fun _ => pushResult order _
  | store op alignmentLog2 offset =>
    exact bind order (validateLoadOrStoreImm order _ _ _) fun _ =>
      popAndValidateOperands order _
  | currentMemory => exact bind order (lift order _) fun _ => pushResult order _
  | growMemory =>
    exact bind order (lift order _) fun _ => bind order (popAndValidateOperand order _) fun _ =>
      pushResult order _
  | numeric op =>
    simp only [FunctionValidationContext.visit]
    cases op.signature with
    | unary operand result =>
      exact bind order (popAndValidateOperand order _) fun _ => pushResult order _
    | binary operand result =>
      exact bind order (popAndValidateOperands order _) fun _ => pushResult order _

end Relates

/-! ## What single checks do -/

theorem asValueType_eq_ok {type : ResultType} {valueType : ValueType} :
    type.asValueType = .ok valueType ↔ type ≠ .none ∧ valueType = .ofByte type.toByte := by
  unfold ResultType.asValueType wavmAssertThrow
  by_cases hnone : type = .none
  · simp [hnone, bind, Except.bind]
  · simp [hnone, bind, Except.bind, pure, Except.pure, eq_comm]

theorem pushResult_eq_ok {type : ResultType} {context context' : FunctionValidationContext} :
    pushResult type context = .ok ((), context') ↔
      context' = { context with stack := type.operands ++ context.stack } := by
  unfold pushResult ResultType.operands
  by_cases hnone : type = .none
  · rw [if_neg (not_not_intro hnone), if_pos hnone, pure_eq_ok]
    exact ⟨fun h => h.2.symm, fun h => ⟨rfl, h.symm⟩⟩
  · rw [if_pos hnone, if_neg hnone]
    constructor
    · intro h
      obtain ⟨valueType, mid, hlift, h⟩ := bind_eq_ok.1 h
      obtain ⟨htype, rfl⟩ := lift_eq_ok.1 hlift
      obtain ⟨-, rfl⟩ := asValueType_eq_ok.1 htype
      rw [← modify_eq_ok.1 h]
      rfl
    · rintro rfl
      refine bind_eq_ok.2 ⟨_, context, lift_eq_ok.2 ⟨asValueType_eq_ok.2 ⟨hnone, rfl⟩, rfl⟩, ?_⟩
      rfl

theorem exists_top_of_popControlStack {isElse : Bool} {context context' : FunctionValidationContext}
    (h : popControlStack isElse context = .ok ((), context')) :
    ∃ control controls, context.controlStack = control :: controls := by
  refine List.exists_cons_of_ne_nil fun hempty => ?_
  obtain ⟨c, mid, hget, h⟩ := bind_eq_ok.1 h
  obtain ⟨rfl, rfl⟩ := get_eq_ok.1 hget
  simp only [hempty] at h
  exact (throw_eq_ok.1 h).elim

/-- What `popControlStack` does to the structure on top, of which nothing but its operands is left:
an `else` turns an `if` into its other arm, and an `end` closes the structure. -/
theorem popControlStack_cases {isElse : Bool} {context context' : FunctionValidationContext}
    {control : ControlContext} {controls : List ControlContext}
    (hcontrols : context.controlStack = control :: controls)
    (h : popControlStack isElse context = .ok ((), context')) :
    context.stack.length ≤ control.outerStackSize ∧
      ((isElse = true ∧ control.type = .ifThen ∧
        context' = { context with
          controlStack := { control with type := .ifElse, isReachable := true } :: controls }) ∨
      (isElse = false ∧ (control.type = .ifThen → control.resultType = .none) ∧
        context' = { context with
          controlStack := controls
          stack := (if controls = [] then [] else control.resultType.operands) ++
            context.stack })) := by
  unfold popControlStack at h
  obtain ⟨c, c', hget, h⟩ := bind_eq_ok.1 h
  obtain ⟨rfl, rfl⟩ := get_eq_ok.1 hget
  simp only [hcontrols] at h
  obtain ⟨u, mid, hunless, h⟩ := bind_eq_ok.1 h
  obtain ⟨hsize, rfl⟩ := lift_eq_ok.1 hunless
  have hle : context.stack.length ≤ control.outerStackSize := by
    simpa using hsize
  refine ⟨hle, ?_⟩
  split at h
  · next hif =>
    obtain rfl := set_eq_ok.1 h
    exact .inl ⟨hif.1, hif.2, rfl⟩
  · obtain ⟨u, mid, helse, h⟩ := bind_eq_ok.1 h
    obtain ⟨hnot, rfl⟩ := lift_eq_ok.1 helse
    have hend : isElse = false := by simpa using hnot
    split at h
    · obtain ⟨u, mid, hthrow, h⟩ := bind_eq_ok.1 h
      exact (throw_eq_ok.1 hthrow).elim
    · next hyields =>
      obtain ⟨u, mid, hset, h⟩ := bind_eq_ok.1 h
      obtain rfl := set_eq_ok.1 hset
      refine .inr ⟨hend, fun hif => ?_, ?_⟩
      · exact Decidable.not_not.1 fun hne => hyields ⟨hif, hne⟩
      · by_cases hnil : controls = []
        · rw [if_neg (not_not_intro hnil)] at h
          obtain ⟨-, rfl⟩ := pure_eq_ok.1 h
          rw [if_pos hnil]
          rfl
        · rw [if_pos hnil] at h
          rw [if_neg hnil]
          exact pushResult_eq_ok.1 h

section Reachable

variable {context context' : FunctionValidationContext} {control : ControlContext}
  {controls : List ControlContext} (hcontrols : context.controlStack = control :: controls)
  (hreachable : control.isReachable = true)

include hcontrols hreachable

/-- In reachable code an operand is popped from above what the structure was opened on. -/
theorem of_popOperand {type : ValueType} (h : popOperand context = .ok (type, context')) :
    control.outerStackSize < context.stack.length ∧
      ∃ stack, context.stack = type :: stack ∧ context' = { context with stack } := by
  unfold popOperand at h
  obtain ⟨c, c', hget, h⟩ := bind_eq_ok.1 h
  obtain ⟨rfl, rfl⟩ := get_eq_ok.1 hget
  simp only [hcontrols, hreachable, if_true] at h
  split at h
  · next hlt =>
    obtain ⟨u, mid, hset, h⟩ := bind_eq_ok.1 h
    obtain rfl := set_eq_ok.1 hset
    obtain ⟨rfl, rfl⟩ := pure_eq_ok.1 h
    refine ⟨hlt, context.stack.tail, ?_, by rw [← hcontrols]⟩
    cases hstack : context.stack with
    | nil => simp [hstack] at hlt
    | cons top stack => rfl
  · exact (throw_eq_ok.1 h).elim

/-- An operand of a type is popped where one of that type lies on top. -/
theorem of_popAndValidateOperand {type : ValueType} (htype : type ≠ .any)
    (hconcrete : .any ∉ context.stack)
    (h : popAndValidateOperand type context = .ok ((), context')) :
    control.outerStackSize < context.stack.length ∧
      ∃ stack, context.stack = type :: stack ∧ context' = { context with stack } := by
  obtain ⟨actual, mid, hpop, h⟩ := bind_eq_ok.1 h
  obtain ⟨hvalidate, rfl⟩ := lift_eq_ok.1 h
  obtain ⟨hlt, stack, hstack, hmid⟩ := of_popOperand hcontrols hreachable hpop
  have hactual : actual ≠ .any := by
    rintro rfl
    exact hconcrete (hstack ▸ List.mem_cons_self)
  have hsame : type = actual := by
    unfold validateOperandType at hvalidate
    split at hvalidate
    · cases hvalidate
    · next hnot => exact Decidable.not_not.1 fun hne => hnot ⟨hne, htype, hactual⟩
  exact ⟨hlt, stack, hsame ▸ hstack, hmid⟩

end Reachable

end FunctionValidationContext

end FractalWasm.IR
