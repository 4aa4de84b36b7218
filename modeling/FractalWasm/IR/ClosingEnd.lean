import FractalWasm.IR.ValidCode

/-!
# The end that closes the function

The validator refuses an operator after the end of the function only if the operator looks at the
control stack: to pop an operand, to branch, or to close a structure. The others are accepted with
the control stack empty, and `finish` accepts again once the structures among them are closed.

**Complete bodies** (`FunctionDef.Complete`): the closing `end` is the last operator, as a
function's code is meant to be.

**Where they are enforced** (`TailRefused`): an accepted body is complete unless every operator
behind the closing `end` stands by itself (`Operator.Standalone`) or belongs to a structure opened
among them. A module whose body goes on behind its end is decoded.
-/

namespace FractalWasm.IR

open Codec

/-- `op` does not look at the control stack of a function in `module`: it pops no operand, does not
branch and closes nothing. -/
def Operator.Standalone (module : Module) : Operator → Prop
  | block _ | loop _ | nop | getLocal _ | getGlobal _ | currentMemory => True
  | i32Const _ | i64Const _ | f32Const _ | f64Const _ => True
  | call functionIndex => ∃ ret, module.functionType? functionIndex.toNat = some ⟨ret, []⟩
  | _ => False

namespace FunctionValidationContext

/-- A check that fails once the function is closed. -/
structure NeedsFrame {α : Type} (check : Check α) : Prop where
  ne_nil : ∀ {context context' : FunctionValidationContext} {a : α},
    check context = .ok (a, context') → context.controlStack ≠ []

namespace NeedsFrame

variable {α β : Type}

theorem throw (e : Exception) : NeedsFrame (throwThe Exception e : Check α) :=
  ⟨fun h => (throw_eq_ok.1 h).elim⟩

/-- The first check needs the frame. -/
theorem first {check : Check α} {next : α → Check β} (h : NeedsFrame check) :
    NeedsFrame (check >>= next) := by
  refine ⟨fun {context context' b} hrun => ?_⟩
  obtain ⟨a, mid, ha, -⟩ := bind_eq_ok.1 hrun
  exact h.ne_nil ha

/-- The rest needs the frame, and the first check does not open one. -/
theorem rest {check : Check α} {next : α → Check β} (hkeeps : KeepsDepth check)
    (hnext : ∀ a, NeedsFrame (next a)) : NeedsFrame (check >>= next) := by
  refine ⟨fun {context context' b} hrun hempty => ?_⟩
  obtain ⟨a, mid, ha, hb⟩ := bind_eq_ok.1 hrun
  have hlength := hkeeps.length_eq ha
  rw [hempty, List.length_nil] at hlength
  exact (hnext a).ne_nil hb (List.length_eq_zero_iff.1 hlength)

theorem popOperand : NeedsFrame popOperand :=
  ⟨controlStack_of_popOperand⟩

theorem popAndValidateOperand (type : ValueType) : NeedsFrame (popAndValidateOperand type) :=
  first popOperand

theorem popAndValidateOperands {types : List ValueType} (hne : types ≠ []) :
    NeedsFrame (popAndValidateOperands types) := by
  unfold FunctionValidationContext.popAndValidateOperands
  cases hreverse : types.reverse with
  | nil => exact absurd (List.reverse_eq_nil_iff.1 hreverse) hne
  | cons type types' => exact first (popAndValidateOperand type)

theorem enterUnreachable : NeedsFrame enterUnreachable := by
  refine ⟨fun {context context' a} h hempty => ?_⟩
  obtain ⟨c, mid, hget, h⟩ := bind_eq_ok.1 h
  obtain ⟨rfl, rfl⟩ := get_eq_ok.1 hget
  simp only [hempty] at h
  exact (throw_eq_ok.1 h).elim

theorem getBranchTargetByDepth (depth : Nat) : NeedsFrame (getBranchTargetByDepth depth) := by
  refine ⟨fun {context context' a} h hempty => ?_⟩
  obtain ⟨c, mid, hget, h⟩ := bind_eq_ok.1 h
  obtain ⟨rfl, rfl⟩ := get_eq_ok.1 hget
  simp only [hempty, List.getElem?_nil] at h
  exact (throw_eq_ok.1 h).elim

theorem popControlStack (isElse : Bool) : NeedsFrame (popControlStack isElse) := by
  refine ⟨fun {context context' a} h hempty => ?_⟩
  obtain ⟨control, controls, hcontrols⟩ := exists_top_of_popControlStack h
  rw [hempty] at hcontrols
  cases hcontrols

end NeedsFrame

theorem functionType?_of_validateFunctionIndex {m : Module} {functionIndex : Nat}
    {type : FunctionType} (h : validateFunctionIndex m functionIndex = .ok type) :
    m.functionType? functionIndex = some type := by
  unfold validateFunctionIndex at h
  split at h
  · cases h
  · next htype => rw [htype, Except.ok.inj h]

/-- An operator the validator accepts after the end of the function is standalone. -/
theorem standalone_of_visit {m : Module} {branchTables : List (List UInt32)} {op : Operator}
    {context context' : FunctionValidationContext}
    (h : visit m branchTables op context = .ok ((), context'))
    (hempty : context.controlStack = []) : op.Standalone m := by
  by_cases hstandalone : op.Standalone m
  · exact hstandalone
  refine absurd hempty ?_
  have hneeds : NeedsFrame (visit m branchTables op) := by
    cases op with
    | block _ | loop _ | nop | getLocal _ | getGlobal _ | currentMemory =>
      exact absurd trivial hstandalone
    | i32Const _ | i64Const _ | f32Const _ | f64Const _ => exact absurd trivial hstandalone
    | unreachable => exact .enterUnreachable
    | if_ resultType => exact .rest (.lift _) fun _ => .first (.popAndValidateOperand _)
    | else_ => exact .rest .get fun _ => .rest (.popResultOfTop _) fun _ => .popControlStack _
    | end_ => exact .rest .get fun _ => .rest (.popResultOfTop _) fun _ => .popControlStack _
    | br targetDepth => exact .first (.getBranchTargetByDepth _)
    | brIf targetDepth => exact .first (.popAndValidateOperand _)
    | brTable defaultTargetDepth branchTableIndex => exact .first (.popAndValidateOperand _)
    | return_ =>
      exact .rest .get fun _ => .rest (.popAndValidateResultType _) fun _ => .enterUnreachable
    | call functionIndex =>
      refine ⟨fun {context context' a} hrun => ?_⟩
      obtain ⟨type, mid, hlift, hrun⟩ := bind_eq_ok.1 hrun
      obtain ⟨htype, rfl⟩ := lift_eq_ok.1 hlift
      have hparams : type.parameters ≠ [] := by
        intro hnil
        refine hstandalone ⟨type.ret, ?_⟩
        rw [functionType?_of_validateFunctionIndex htype, ← hnil]
      exact (NeedsFrame.first (.popAndValidateOperands hparams)).ne_nil hrun
    | callIndirect type =>
      simp only [visit]
      cases m.types[type.toNat]? with
      | none => exact .throw _
      | some calleeType => exact .rest (.lift _) fun _ => .first (.popAndValidateOperand _)
    | drop => exact .first .popOperand
    | select => exact .first .popOperand
    | setLocal variableIndex =>
      exact .rest (.validateLocalIndex _) fun _ => .popAndValidateOperand _
    | teeLocal variableIndex =>
      exact .rest (.validateLocalIndex _) fun _ => .first (.popAndValidateOperand _)
    | setGlobal variableIndex => exact .rest (.lift _) fun _ => .popAndValidateOperand _
    | load op alignmentLog2 offset =>
      exact .rest (.validateLoadOrStoreImm _ _ _) fun _ => .first (.popAndValidateOperand _)
    | store op alignmentLog2 offset =>
      exact .rest (.validateLoadOrStoreImm _ _ _) fun _ => .popAndValidateOperands (by simp)
    | growMemory => exact .rest (.lift _) fun _ => .first (.popAndValidateOperand _)
    | numeric op =>
      simp only [visit]
      cases op.signature with
      | unary operand result => exact .first (.popAndValidateOperand _)
      | binary operand result => exact .first (.popAndValidateOperands (by simp))
  exact hneeds.ne_nil h

end FunctionValidationContext

/-! ## Complete bodies -/

/-- A body that ends where its function does. -/
structure FunctionDef.Complete (module : Module) (functionDef : FunctionDef)
    (ops : List Operator) : Prop where
  /-- The control stack is not empty in front of any operator. -/
  frame : ∀ {before op after context}, ops = before ++ op :: after →
    FunctionValidationContext.visitAll module functionDef.branchTables before
      (.init (functionDef.functionType module) functionDef.nonParameterLocalTypes) =
        .ok ((), context) → context.controlStack ≠ []
  /-- The structures of the body are closed when its last operator closes the function. -/
  balanced : functionBody ops = some ops

/-- The operator behind the end of the function, if there is one, is not standalone. -/
def TailRefused (module : Module) (ops : List Operator) : Prop :=
  ∀ body op tail, functionBody ops = some body → ops = body ++ op :: tail →
    ¬ op.Standalone module

theorem upToEnd_cons_eq_some {depth : Nat} {op : Operator} {ops body : List Operator}
    (h : upToEnd depth (op :: ops) = some body) :
    (op = .end_ ∧ depth = 0 ∧ body = [.end_]) ∨
      ∃ rest, op.closes ≤ depth + op.opens ∧
        upToEnd (depth + op.opens - op.closes) ops = some rest ∧ body = op :: rest := by
  by_cases hend : op = .end_ ∧ depth = 0
  · obtain ⟨rfl, rfl⟩ := hend
    exact .inl ⟨rfl, rfl, (Option.some.inj h).symm⟩
  · obtain ⟨hcloses, hcons⟩ := upToEnd_cons_of_not_end hend
    rw [hcons] at h
    obtain ⟨rest, hrest, rfl⟩ := Option.map_eq_some_iff.1 h
    exact .inr ⟨rest, hcloses, hrest, rfl⟩

theorem append_of_upToEnd {depth : Nat} {ops body : List Operator}
    (h : upToEnd depth ops = some body) : body ≠ [] ∧ ∃ tail, ops = body ++ tail := by
  induction ops generalizing depth body with
  | nil => cases h
  | cons op ops ih =>
    rcases upToEnd_cons_eq_some h with ⟨rfl, -, rfl⟩ | ⟨rest, -, hrest, rfl⟩
    · exact ⟨List.cons_ne_nil _ _, ops, rfl⟩
    · obtain ⟨-, tail, rfl⟩ := ih hrest
      exact ⟨List.cons_ne_nil _ _, tail, rfl⟩

/-- The control stack of the validator over the operators up to the closing `end` is empty behind
them all, and nowhere before. -/
theorem controlStack_of_upToEnd {m : Module} {branchTables : List (List UInt32)}
    {ops before after : List Operator} {depth : Nat}
    {context context' : FunctionValidationContext}
    (hbody : upToEnd depth ops = some (before ++ after))
    (hdepth : context.controlStack.length = depth + 1)
    (hvisit : FunctionValidationContext.visitAll m branchTables before context =
      .ok ((), context')) : context'.controlStack = [] ↔ after = [] := by
  induction ops generalizing depth before context with
  | nil => cases hbody
  | cons op ops ih =>
    cases before with
    | nil =>
      obtain ⟨-, rfl⟩ := pure_eq_ok.1 hvisit
      have hopen : context.controlStack ≠ [] := by
        intro hnil
        rw [hnil] at hdepth
        cases hdepth
      have hafter : after ≠ [] := (append_of_upToEnd hbody).1
      exact ⟨fun h => absurd h hopen, fun h => absurd h hafter⟩
    | cons op' before =>
      obtain ⟨u, mid, hop, hrun⟩ := bind_eq_ok.1 hvisit
      have hlength := FunctionValidationContext.length_of_visit hop
      rcases upToEnd_cons_eq_some hbody with ⟨-, rfl, hend⟩ | ⟨rest, hcloses, hrest, hcons⟩
      · obtain ⟨rfl, hnil⟩ := List.cons_eq_cons.1 hend
        obtain ⟨rfl, rfl⟩ := List.append_eq_nil_iff.1 hnil
        obtain ⟨-, rfl⟩ := pure_eq_ok.1 hrun
        have hzero : mid.controlStack.length = 0 := by
          simp only [Operator.closes, Operator.opens] at hlength
          omega
        exact ⟨fun _ => rfl, fun _ => List.length_eq_zero_iff.1 hzero⟩
      · obtain ⟨rfl, rfl⟩ := List.cons_eq_cons.1 hcons
        exact ih hrest (by omega) hrun

/-- **Complete bodies.** An accepted body ends with the `end` that closes its function if and only
if no standalone operator follows that `end`. -/
theorem complete_iff_tailRefused {m : Module} {functionDef : FunctionDef}
    {ops : List Operator} (h : functionDef.Accepts m ops) :
    functionDef.Complete m ops ↔ TailRefused m ops := by
  obtain ⟨body, hbody⟩ := h.functionBody
  obtain ⟨hne, tail, hops⟩ := append_of_upToEnd hbody
  obtain ⟨final, hvisit, -⟩ := h
  rw [hops, FunctionValidationContext.visitAll_append] at hvisit
  obtain ⟨closed, hclosed, htail⟩ := hvisit
  have hempty : closed.controlStack = [] :=
    (controlStack_of_upToEnd (by rwa [List.append_nil]) rfl hclosed).2 rfl
  constructor
  · intro hcomplete body' op rest hbody' hops'
    obtain rfl := Option.some.inj (hbody'.symm.trans hcomplete.balanced)
    exact absurd (List.self_eq_append_right.1 hops') (List.cons_ne_nil op rest)
  · intro hrefused
    have htail_nil : tail = [] := by
      cases tail with
      | nil => rfl
      | cons op rest =>
        obtain ⟨u, mid, hop, -⟩ := bind_eq_ok.1 htail
        exact absurd (FunctionValidationContext.standalone_of_visit hop hempty)
          (hrefused body op rest hbody hops)
    rw [htail_nil, List.append_nil] at hops
    subst hops
    refine ⟨fun {before op after context} hsplit hbefore hnil => ?_, hbody⟩
    have hbody' : functionBody ops = some (before ++ op :: after) := by rw [hbody, hsplit]
    exact absurd ((controlStack_of_upToEnd hbody' rfl hbefore).1 hnil) (List.cons_ne_nil op after)

/-- One type, `none()`. -/
def voidModule : Module := { Module.empty with types := [⟨.none, []⟩] }

def voidFunction : FunctionDef := ⟨0, [], [], []⟩

theorem complete_iff_tailRefused_sample : voidFunction.Complete voidModule [.nop, .end_] := by
  have haccepts : voidFunction.Accepts voidModule [.nop, .end_] :=
    ⟨⟨⟨.none, []⟩, [], [], []⟩, rfl, rfl⟩
  refine (complete_iff_tailRefused haccepts).2 fun body op tail hbody hops => ?_
  obtain rfl := Option.some.inj hbody
  exact absurd (List.self_eq_append_right.1 hops) (List.cons_ne_nil op tail)

/-- A `nop` behind the end of the function is accepted. -/
theorem complete_of_every_body_false :
    ¬ ∀ (m : Module) (functionDef : FunctionDef) (ops : List Operator),
      functionDef.Accepts m ops → functionDef.Complete m ops := by
  intro hall
  have haccepts : voidFunction.Accepts voidModule [.end_, .nop] :=
    ⟨⟨⟨.none, []⟩, [], [], []⟩, rfl, rfl⟩
  have hbalanced := (hall voidModule voidFunction [.end_, .nop] haccepts).balanced
  exact absurd hbalanced (by decide)

end FractalWasm.IR
