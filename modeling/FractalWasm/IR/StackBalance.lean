import FractalWasm.IR.ClosingEnd

/-!
# The operand stack below an open structure

A control entry remembers how high the operand stack was when its structure was opened, and the
validator pops no operand from below that. So the heights along the control stack never increase
outwards, and an operand that was just pushed can be popped again, whether the code is reachable or
not: a literal in front of the call that takes it leaves the context as it is. Behind the end of the
function there is no entry, and the call is refused.

**Balance** (`Balanced`): kept by every operator (`KeepsBalance.visit`) and hence by a whole body.

**A charge** (`visitAll_charge`): a literal and the call that takes it are validated wherever an
operator is, which is why charges may be inserted into a valid body.
-/

namespace FractalWasm.IR

open Codec

namespace FunctionValidationContext

/-- Every open structure still has on the operand stack what it found there. -/
def Balanced (context : FunctionValidationContext) : Prop :=
  (context.stack.length :: context.controlStack.map ControlContext.outerStackSize).Pairwise (· ≥ ·)

theorem balanced_init (functionType : FunctionType) (nonParameterLocalTypes : List ValueType) :
    (init functionType nonParameterLocalTypes).Balanced := by
  simp [Balanced, init]

theorem Balanced.head_le {context : FunctionValidationContext} (h : context.Balanced)
    {control : ControlContext} {controls : List ControlContext}
    (hcontrols : context.controlStack = control :: controls) :
    control.outerStackSize ≤ context.stack.length := by
  unfold Balanced at h
  rw [hcontrols] at h
  exact List.rel_of_pairwise_cons h (by simp)

/-- A stack that is no lower than the structure on top demands. -/
theorem Balanced.of_head_le {context context' : FunctionValidationContext} (h : context.Balanced)
    (hsame : context'.controlStack.map ControlContext.outerStackSize =
      context.controlStack.map ControlContext.outerStackSize)
    (hle : ∀ control controls, context.controlStack = control :: controls →
      control.outerStackSize ≤ context'.stack.length) : context'.Balanced := by
  unfold Balanced at h ⊢
  rw [hsame]
  cases hcontrols : context.controlStack with
  | nil => simp
  | cons control controls =>
    rw [hcontrols, List.map_cons] at h
    have houter := (List.pairwise_cons.1 h).2
    refine List.pairwise_cons.2 ⟨fun size hsize => ?_, houter⟩
    have hhead := hle control controls hcontrols
    rcases List.mem_cons.1 hsize with rfl | hsize
    · exact hhead
    · exact Nat.le_trans (List.rel_of_pairwise_cons houter hsize) hhead

/-! ## What keeps the balance -/

/-- A check whose runs lead from balanced contexts to balanced ones. -/
structure KeepsBalance {α : Type} (check : Check α) : Prop where
  balanced : ∀ {context context' : FunctionValidationContext} {a : α},
    check context = .ok (a, context') → context.Balanced → context'.Balanced

/-- Pushing, popping above the structure on top and emptying it keep the balance. -/
theorem stackOrder_balance : StackOrder fun context context' =>
    context.Balanced → context'.Balanced where
  refl := fun _ h => h
  trans := fun h h' hbalanced => h' (h hbalanced)
  push := by
    intro type context hbalanced
    refine hbalanced.of_head_le rfl fun control controls hcontrols => ?_
    have hle := hbalanced.head_le hcontrols
    simp only [List.length_cons]
    omega
  pop := by
    intro context control controls hcontrols hlt hbalanced
    refine hbalanced.of_head_le rfl fun control' controls' hcontrols' => ?_
    obtain ⟨rfl, -⟩ := List.cons_eq_cons.1 (hcontrols.symm.trans hcontrols')
    simp only [List.length_tail]
    omega
  unreachable := by
    intro context control controls hcontrols hbalanced
    apply hbalanced.of_head_le
    · rw [hcontrols]
      rfl
    · intro control' controls' hcontrols'
      obtain ⟨rfl, -⟩ := List.cons_eq_cons.1 (hcontrols.symm.trans hcontrols')
      simp only [resizeStack, List.length_append, List.length_replicate, List.length_drop]
      omega

namespace KeepsBalance

variable {α β : Type}

theorem of_relates {check : Check α}
    (h : Relates (fun context context' => context.Balanced → context'.Balanced) check) :
    KeepsBalance check :=
  ⟨h.related⟩

theorem bind {check : Check α} {next : α → Check β} (hcheck : KeepsBalance check)
    (hnext : ∀ a, KeepsBalance (next a)) : KeepsBalance (check >>= next) := by
  constructor
  intro context context' b h hbalanced
  obtain ⟨a, mid, ha, hb⟩ := bind_eq_ok.1 h
  exact (hnext a).balanced hb (hcheck.balanced ha hbalanced)

theorem pure (a : α) : KeepsBalance (Pure.pure a : Check α) :=
  of_relates (.pure stackOrder_balance a)

theorem lift (x : Except Exception α) : KeepsBalance (liftM x : Check α) :=
  of_relates (.lift stackOrder_balance x)

theorem get : KeepsBalance (MonadState.get : Check FunctionValidationContext) :=
  of_relates (.get stackOrder_balance)

theorem popAndValidateOperand (type : ValueType) : KeepsBalance (popAndValidateOperand type) :=
  of_relates (.popAndValidateOperand stackOrder_balance type)

theorem popResultOfTop (controls : List ControlContext) :
    KeepsBalance (popResultOfTop controls) :=
  of_relates (.popResultOfTop stackOrder_balance controls)

theorem pushControlStack (type : ControlType) (argument result : ResultType) :
    KeepsBalance (pushControlStack type argument result) := by
  constructor
  intro context context' a h hbalanced
  rw [← modify_eq_ok.1 h]
  unfold Balanced at hbalanced ⊢
  simp only [List.map_cons]
  apply List.pairwise_cons.2 ⟨?_, hbalanced⟩
  intro size hsize
  rcases List.mem_cons.1 hsize with rfl | hsize
  · exact Nat.le_refl _
  · exact List.rel_of_pairwise_cons hbalanced hsize

theorem popControlStack (isElse : Bool) : KeepsBalance (popControlStack isElse) := by
  constructor
  intro context context' a h hbalanced
  obtain ⟨control, controls, hcontrols⟩ := exists_top_of_popControlStack h
  obtain ⟨-, ⟨-, -, rfl⟩ | ⟨-, -, rfl⟩⟩ := popControlStack_cases hcontrols h
  · apply hbalanced.of_head_le
    · rw [hcontrols]
      rfl
    · exact fun _ _ => hbalanced.head_le
  · -- The structure is gone, and the stack is no lower than before.
    have houter : Balanced { context with controlStack := controls } := by
      unfold Balanced at hbalanced ⊢
      rw [hcontrols, List.map_cons] at hbalanced
      exact hbalanced.sublist (.cons_cons _ (.cons _ (.refl _)))
    refine houter.of_head_le rfl fun outer outers houters => ?_
    have hle := houter.head_le houters
    rw [List.length_append]
    exact Nat.le_trans hle (Nat.le_add_left _ _)

/-- Every operator keeps the balance. -/
theorem visit (m : Module) (branchTables : List (List UInt32)) (op : Operator) :
    KeepsBalance (visit m branchTables op) := by
  cases op with
  | block resultType => exact .bind (.lift _) fun _ => .pushControlStack _ _ _
  | loop resultType => exact .bind (.lift _) fun _ => .pushControlStack _ _ _
  | if_ resultType =>
    exact .bind (.lift _) fun _ => .bind (.popAndValidateOperand _) fun _ =>
      .pushControlStack _ _ _
  | else_ => exact .bind .get fun _ => .bind (.popResultOfTop _) fun _ => .popControlStack _
  | end_ => exact .bind .get fun _ => .bind (.popResultOfTop _) fun _ => .popControlStack _
  | _ => exact of_relates (.visit stackOrder_balance rfl)

theorem visitAll (m : Module) (branchTables : List (List UInt32)) (ops : List Operator) :
    KeepsBalance (visitAll m branchTables ops) := by
  induction ops with
  | nil => exact pure _
  | cons op ops ih => exact bind (visit m branchTables op) fun _ => ih

end KeepsBalance

/-! ## A literal and the call that takes it -/

/-- An operand above what the structure on top was opened on is popped. -/
theorem popOperand_of_lt {context : FunctionValidationContext} {control : ControlContext}
    {controls : List ControlContext} (hcontrols : context.controlStack = control :: controls)
    (hlt : control.outerStackSize < context.stack.length) :
    popOperand context =
      .ok (context.stack.headD .any, { context with stack := context.stack.tail }) := by
  refine bind_eq_ok.2 ⟨context, context, get_eq_ok.2 ⟨rfl, rfl⟩, ?_⟩
  simp only [hcontrols, if_pos hlt]
  rfl

/-- Inside the function the pair changes nothing; behind its end it is refused. -/
theorem visitAll_charge {m : Module} {functionIndex : UInt32}
    (hfunction : m.functionType? functionIndex.toNat = some ⟨.none, [.i64]⟩)
    (branchTables : List (List UInt32)) (value : UInt64)
    {context context' : FunctionValidationContext} (hbalanced : context.Balanced) :
    visitAll m branchTables [.i64Const value, .call functionIndex] context = .ok ((), context') ↔
      context.controlStack ≠ [] ∧ context' = context := by
  let pushed : FunctionValidationContext := { context with stack := .i64 :: context.stack }
  have hpush : visit m branchTables (.i64Const value) context = .ok ((), pushed) := rfl
  have hindex : validateFunctionIndex m functionIndex.toNat = .ok ⟨.none, [.i64]⟩ := by
    simp only [validateFunctionIndex, hfunction]
  have hcall : context.controlStack ≠ [] →
      visit m branchTables (.call functionIndex) pushed = .ok ((), context) := by
    intro hopen
    obtain ⟨control, controls, hcontrols⟩ := List.exists_cons_of_ne_nil hopen
    have hle := hbalanced.head_le hcontrols
    have hlt : control.outerStackSize < pushed.stack.length := by
      simp only [pushed, List.length_cons]
      omega
    have hpop : popOperand pushed = .ok (.i64, context) := popOperand_of_lt hcontrols hlt
    apply bind_eq_ok.2 ⟨_, pushed, lift_eq_ok.2 ⟨hindex, rfl⟩, ?_⟩
    have hoperand : popAndValidateOperand .i64 pushed = .ok ((), context) :=
      bind_eq_ok.2 ⟨.i64, context, hpop, rfl⟩
    exact bind_eq_ok.2 ⟨(), context, bind_eq_ok.2 ⟨(), context, hoperand, rfl⟩, rfl⟩
  constructor
  · intro h
    obtain ⟨u, mid, hfirst, h⟩ := bind_eq_ok.1 h
    cases hpush.symm.trans hfirst
    obtain ⟨u, mid, hsecond, h⟩ := bind_eq_ok.1 h
    obtain ⟨-, rfl⟩ := pure_eq_ok.1 h
    have hopen : context.controlStack ≠ [] := by
      obtain ⟨type, mid, hlift, hpops⟩ := bind_eq_ok.1 hsecond
      obtain ⟨htype, rfl⟩ := lift_eq_ok.1 hlift
      cases hindex.symm.trans htype
      have hne : [ValueType.i64] ≠ [] := List.cons_ne_nil _ _
      have hpushed : pushed.controlStack ≠ [] :=
        (NeedsFrame.first (.popAndValidateOperands hne)).ne_nil hpops
      exact hpushed
    cases (hcall hopen).symm.trans hsecond
    exact ⟨hopen, rfl⟩
  · rintro ⟨hopen, rfl⟩
    exact bind_eq_ok.2 ⟨(), pushed, hpush, bind_eq_ok.2 ⟨(), context', hcall hopen, rfl⟩⟩

end FunctionValidationContext

end FractalWasm.IR
