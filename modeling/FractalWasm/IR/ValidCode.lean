import FractalWasm.IR.CheckRules

/-!
# What the code validator guarantees

Facts about a sequence of operators the validator accepts: its verdict depends on the module's
signatures only and survives more branch tables, every direct call names a function of the module,
and the structured operators are balanced, so that the `end` that closes the function exists.

**The verdict** (`visit_congr`, `visit_extendsTypes`, `visitAll_extend`): what it depends on, for
one operator and then for a sequence.

**Balance** (`KeepsDepth`): the checks that do not open or close a structure keep the height of the
control stack, and the structured operators change it by one. So an accepted body has the `end` that
closes it (`FunctionDef.Accepts.functionBody`).
-/

namespace FractalWasm.IR

open Codec

/-! ## What the verdict depends on -/

/-- Two modules declare the same types, tables, memories and globals, and functions of the same
types. -/
structure SameSignatures (m m' : Module) : Prop where
  types : m'.types = m.types
  functionType? : m'.functionType? = m.functionType?
  functions_size : m'.functions.size = m.functions.size
  globals : m'.globals = m.globals
  tables_size : m'.tables.size = m.tables.size
  memories_size : m'.memories.size = m.memories.size

/-- Operators other than calls that are valid in `m` are valid in `m'`: it has more types at most. -/
structure ExtendsTypes (m m' : Module) : Prop where
  types : m.types <+: m'.types
  globals : m'.globals = m.globals
  tables_size : m'.tables.size = m.tables.size
  memories_size : m'.memories.size = m.memories.size

namespace FunctionValidationContext

section Congr

variable {m m' : Module}

theorem validateGlobalIndex_congr (h : m'.globals = m.globals) :
    validateGlobalIndex m' = validateGlobalIndex m := by
  funext i a b c
  simp only [validateGlobalIndex, h]

theorem validateMemoryImm_congr (h : m'.memories.size = m.memories.size) :
    validateMemoryImm m' = validateMemoryImm m := by
  simp only [validateMemoryImm, h]

theorem validateLoadOrStoreImm_congr (h : m'.memories.size = m.memories.size) :
    validateLoadOrStoreImm m' = validateLoadOrStoreImm m := by
  funext a b
  simp only [validateLoadOrStoreImm, h]

end Congr

/-- One operator is judged by the signatures of the module alone. -/
theorem visit_congr {m m' : Module} (h : SameSignatures m m') (branchTables : List (List UInt32))
    (op : Operator) : visit m' branchTables op = visit m branchTables op := by
  have hfun : validateFunctionIndex m' = validateFunctionIndex m := by
    funext i
    simp only [validateFunctionIndex, h.functionType?]
  have hglobal := validateGlobalIndex_congr h.globals
  have hmem := validateMemoryImm_congr h.memories_size
  have himm := validateLoadOrStoreImm_congr h.memories_size
  cases op <;> simp only [visit, hfun, hglobal, hmem, himm, h.types, h.tables_size]

/-- So is a sequence. -/
theorem visitAll_congr {m m' : Module} (h : SameSignatures m m')
    (branchTables : List (List UInt32)) (ops : List Operator) :
    visitAll m' branchTables ops = visitAll m branchTables ops := by
  induction ops with
  | nil => rfl
  | cons op ops ih => simp only [visitAll, visit_congr h, ih]

/-- More types do not matter, except to a direct call. -/
theorem visit_extendsTypes {m m' : Module} (h : ExtendsTypes m m')
    {branchTables : List (List UInt32)} {op : Operator} (hcall : ∀ index, op ≠ .call index)
    {context context' : FunctionValidationContext}
    (hvisit : visit m branchTables op context = .ok ((), context')) :
    visit m' branchTables op context = .ok ((), context') := by
  have hglobal := validateGlobalIndex_congr h.globals
  have hmem := validateMemoryImm_congr h.memories_size
  have himm := validateLoadOrStoreImm_congr h.memories_size
  cases op with
  | call index => exact absurd rfl (hcall index)
  | callIndirect type =>
    simp only [visit, h.tables_size] at hvisit ⊢
    cases htype : m.types[type.toNat]? with
    | none =>
      simp only [htype] at hvisit
      exact (throw_eq_ok.1 hvisit).elim
    | some calleeType =>
      obtain ⟨hlt, -⟩ := List.getElem?_eq_some_iff.1 htype
      obtain ⟨more, hmore⟩ := h.types
      have htype' : m'.types[type.toNat]? = some calleeType := by
        rw [← hmore, List.getElem?_append_left hlt, htype]
      rw [htype] at hvisit
      rw [htype']
      exact hvisit
  | _ => simpa only [visit, hglobal, hmem, himm] using hvisit

/-- More branch tables at the end change no accepted operator. -/
theorem visit_extend {m : Module} {branchTables branchTables' : List (List UInt32)}
    (hext : branchTables <+: branchTables') {op : Operator}
    {context context' : FunctionValidationContext}
    (h : visit m branchTables op context = .ok ((), context')) :
    visit m branchTables' op context = .ok ((), context') := by
  cases op with
  | brTable defaultTargetDepth branchTableIndex =>
    simp only [visit] at h ⊢
    obtain ⟨u, c₁, hpop, h⟩ := bind_eq_ok.1 h
    refine bind_eq_ok.2 ⟨u, c₁, hpop, ?_⟩
    obtain ⟨target, c₂, htarget, h⟩ := bind_eq_ok.1 h
    refine bind_eq_ok.2 ⟨target, c₂, htarget, ?_⟩
    obtain ⟨u, c₃, hresult, h⟩ := bind_eq_ok.1 h
    refine bind_eq_ok.2 ⟨u, c₃, hresult, ?_⟩
    obtain ⟨u, c₄, hassert, h⟩ := bind_eq_ok.1 h
    obtain ⟨hindex, rfl⟩ := lift_eq_ok.1 hassert
    have hlt : branchTableIndex.toNat < branchTables.length := by
      simpa using hindex
    have hlt' : branchTableIndex.toNat < branchTables'.length :=
      Nat.lt_of_lt_of_le hlt hext.length_le
    refine bind_eq_ok.2 ⟨u, c₃, lift_eq_ok.2 ⟨by simpa using hlt', rfl⟩, ?_⟩
    obtain ⟨tail, rfl⟩ := hext
    have hget : (branchTables ++ tail).getD branchTableIndex.toNat [] =
        branchTables.getD branchTableIndex.toNat [] := by
      simp only [List.getD_eq_getElem?_getD, List.getElem?_append_left hlt]
    rw [hget]
    exact h
  | _ => exact h

/-- Nor do more branch tables. -/
theorem visitAll_extend {m : Module} {branchTables branchTables' : List (List UInt32)}
    (hext : branchTables <+: branchTables') {ops : List Operator}
    {context context' : FunctionValidationContext}
    (h : visitAll m branchTables ops context = .ok ((), context')) :
    visitAll m branchTables' ops context = .ok ((), context') := by
  induction ops generalizing context with
  | nil => exact h
  | cons op ops ih =>
    obtain ⟨u, mid, hop, h⟩ := bind_eq_ok.1 h
    exact bind_eq_ok.2 ⟨u, mid, visit_extend hext hop, ih h⟩

/-- A sequence is validated piece by piece. -/
theorem visitAll_append {m : Module} {branchTables : List (List UInt32)}
    {ops ops' : List Operator} {context context' : FunctionValidationContext} :
    visitAll m branchTables (ops ++ ops') context = .ok ((), context') ↔
      ∃ mid, visitAll m branchTables ops context = .ok ((), mid) ∧
        visitAll m branchTables ops' mid = .ok ((), context') := by
  induction ops generalizing context with
  | nil =>
    constructor
    · intro h
      exact ⟨context, rfl, h⟩
    · rintro ⟨mid, hnil, h⟩
      obtain ⟨-, rfl⟩ := pure_eq_ok.1 hnil
      exact h
  | cons op ops ih =>
    constructor
    · intro h
      obtain ⟨u, t, hop, h⟩ := bind_eq_ok.1 h
      obtain ⟨mid, hops, h⟩ := ih.1 h
      exact ⟨mid, bind_eq_ok.2 ⟨u, t, hop, hops⟩, h⟩
    · rintro ⟨mid, hops, h⟩
      obtain ⟨u, t, hop, hops⟩ := bind_eq_ok.1 hops
      exact bind_eq_ok.2 ⟨u, t, hop, ih.2 ⟨mid, hops, h⟩⟩

/-- An operator that is refused behind the operators before it makes the whole sequence fail. -/
theorem visitAll_append_cons_eq_error {m : Module} {branchTables : List (List UInt32)}
    {before after : List Operator} {op : Operator} {context mid : FunctionValidationContext}
    {e : Exception} (hbefore : visitAll m branchTables before context = .ok ((), mid))
    (hop : visit m branchTables op mid = .error e) :
    visitAll m branchTables (before ++ op :: after) context = .error e := by
  induction before generalizing context with
  | nil =>
    obtain ⟨-, rfl⟩ := pure_eq_ok.1 hbefore
    change (visit m branchTables op context >>= fun p => visitAll m branchTables after p.2) =
      .error e
    rw [hop]
    rfl
  | cons first before ih =>
    obtain ⟨u, t, hfirst, hbefore⟩ := bind_eq_ok.1 hbefore
    change (visit m branchTables first context >>= fun p => visitAll m branchTables
      (before ++ op :: after) p.2) = .error e
    rw [hfirst]
    exact ih hbefore

/-- The tables a sequence of operators may use are all that the validator looks at. -/
theorem visit_take (m : Module) {branchTables : List (List UInt32)} {op : Operator}
    {numTables : Nat} (hle : numTables ≤ branchTables.length)
    (hop : ∀ index, op.branchTable? = some index → index < numTables) :
    visit m (branchTables.take numTables) op = visit m branchTables op := by
  cases op with
  | brTable defaultTargetDepth branchTableIndex =>
    have hlt : branchTableIndex.toNat < numTables := hop _ rfl
    have hlength : (branchTables.take numTables).length = numTables := List.length_take_of_le hle
    have hget : (branchTables.take numTables).getD branchTableIndex.toNat [] =
        branchTables.getD branchTableIndex.toNat [] := by
      rw [List.getD_eq_getElem?_getD, List.getD_eq_getElem?_getD, List.getElem?_take_of_lt hlt]
    simp only [visit, hget, hlength, hlt, Nat.lt_of_lt_of_le hlt hle]
  | _ => rfl

/-- A property of each visited operator that the validator checks holds of all of them. -/
theorem forall_mem_of_visitAll {m : Module} {branchTables : List (List UInt32)}
    {P : Operator → Prop}
    (hvisit : ∀ {op context context'}, visit m branchTables op context = .ok ((), context') → P op)
    {ops : List Operator} {context context' : FunctionValidationContext}
    (h : visitAll m branchTables ops context = .ok ((), context')) : ∀ op ∈ ops, P op := by
  induction ops generalizing context with
  | nil => exact fun op hop => absurd hop List.not_mem_nil
  | cons op ops ih =>
    obtain ⟨u, mid, hop, h⟩ := bind_eq_ok.1 h
    intro op' hmem
    rcases List.mem_cons.1 hmem with rfl | hmem
    · exact hvisit hop
    · exact ih h op' hmem

/-! ## Calls -/

/-- A direct call names a function of the module. -/
theorem lt_of_visit_call {m : Module} {branchTables : List (List UInt32)}
    {functionIndex : UInt32} {context context' : FunctionValidationContext}
    (h : visit m branchTables (.call functionIndex) context = .ok ((), context')) :
    functionIndex.toNat < m.functions.size := by
  simp only [visit] at h
  obtain ⟨type, t, hlift, -⟩ := bind_eq_ok.1 h
  obtain ⟨hindex, rfl⟩ := lift_eq_ok.1 hlift
  unfold validateFunctionIndex at hindex
  split at hindex
  · cases hindex
  · next htype => exact Module.lt_size_of_functionType? htype

/-! ## Balance of the structured operators -/

/-- A check that leaves the height of the control stack alone. -/
structure KeepsDepth {α : Type} (check : Check α) : Prop where
  length_eq : ∀ {context context' : FunctionValidationContext} {a : α},
    check context = .ok (a, context') →
      context'.controlStack.length = context.controlStack.length

/-- The height of the control stack, as an order that checks without control keep. -/
theorem stackOrder_depth : StackOrder fun context context' =>
    context'.controlStack.length = context.controlStack.length where
  refl := fun _ => rfl
  trans := fun h h' => h'.trans h
  push := fun _ _ => rfl
  pop := fun _ _ => rfl
  unreachable := fun hcontrols => by rw [hcontrols]; rfl

namespace KeepsDepth

variable {α β : Type}

theorem lift (x : Except Exception α) : KeepsDepth (liftM x : Check α) :=
  ⟨(Relates.lift stackOrder_depth x).related⟩

theorem get : KeepsDepth (MonadState.get : Check FunctionValidationContext) :=
  ⟨(Relates.get stackOrder_depth).related⟩

theorem popAndValidateOperand (type : ValueType) : KeepsDepth (popAndValidateOperand type) :=
  ⟨(Relates.popAndValidateOperand stackOrder_depth type).related⟩

theorem popAndValidateResultType (type : ResultType) :
    KeepsDepth (popAndValidateResultType type) :=
  ⟨(Relates.popAndValidateResultType stackOrder_depth type).related⟩

theorem validateLocalIndex (localIndex : Nat) : KeepsDepth (validateLocalIndex localIndex) :=
  ⟨(Relates.validateLocalIndex stackOrder_depth localIndex).related⟩

theorem validateLoadOrStoreImm (m : Module) (alignmentLog2 naturalAlignmentLog2 : UInt8) :
    KeepsDepth (validateLoadOrStoreImm m alignmentLog2 naturalAlignmentLog2) :=
  ⟨(Relates.validateLoadOrStoreImm stackOrder_depth m _ _).related⟩

theorem popResultOfTop (controls : List ControlContext) :
    KeepsDepth (popResultOfTop controls) :=
  ⟨(Relates.popResultOfTop stackOrder_depth controls).related⟩

end KeepsDepth

/-- A structure opened is one frame more. -/
theorem length_of_pushControlStack {type : ControlType} {argument result : ResultType}
    {context context' : FunctionValidationContext}
    (h : pushControlStack type argument result context = .ok ((), context')) :
    context'.controlStack.length = context.controlStack.length + 1 := by
  rw [← modify_eq_ok.1 h]
  rfl

/-- A structure closed is one frame less; an `else` opens the next one. -/
theorem length_of_popControlStack {isElse : Bool} {context context' : FunctionValidationContext}
    (h : popControlStack isElse context = .ok ((), context')) :
    context'.controlStack.length + (if isElse then 0 else 1) = context.controlStack.length := by
  obtain ⟨control, controls, hcontrols⟩ := exists_top_of_popControlStack h
  obtain ⟨-, ⟨rfl, -, rfl⟩ | ⟨rfl, -, rfl⟩⟩ := popControlStack_cases hcontrols h
  · rw [hcontrols]
    rfl
  · rw [hcontrols]
    rfl

/-- Operators without structure leave the control stack's height alone. -/
theorem keepsDepth_visit {m : Module} {branchTables : List (List UInt32)} {op : Operator}
    (hplain : op.isStructured = false) : KeepsDepth (visit m branchTables op) :=
  ⟨(Relates.visit stackOrder_depth hplain).related⟩

/-- Operands are popped within a frame only. -/
theorem controlStack_of_popOperand {type : ValueType}
    {context context' : FunctionValidationContext}
    (h : popOperand context = .ok (type, context')) : context.controlStack ≠ [] := by
  intro hempty
  obtain ⟨c, mid, hget, h⟩ := bind_eq_ok.1 h
  obtain ⟨rfl, rfl⟩ := get_eq_ok.1 hget
  simp only [hempty] at h
  exact (throw_eq_ok.1 h).elim

/-- Numeric operators are valid inside a structure or the function only. -/
theorem controlStack_of_visit_numeric {m : Module} {branchTables : List (List UInt32)}
    {op : NumericOp} {context context' : FunctionValidationContext}
    (h : visit m branchTables (.numeric op) context = .ok ((), context')) :
    context.controlStack ≠ [] := by
  have hoperand : ∀ {type : ValueType} {mid : FunctionValidationContext},
      popAndValidateOperand type context = .ok ((), mid) → context.controlStack ≠ [] := by
    intro type mid h
    obtain ⟨actual, t, hpop, -⟩ := bind_eq_ok.1 h
    exact controlStack_of_popOperand hpop
  simp only [visit] at h
  cases hsignature : op.signature with
  | unary operand result =>
    simp only [hsignature] at h
    obtain ⟨u, mid, hpop, -⟩ := bind_eq_ok.1 h
    exact hoperand hpop
  | binary operand result =>
    simp only [hsignature] at h
    obtain ⟨u, mid, hpop, -⟩ := bind_eq_ok.1 h
    obtain ⟨u, mid, hpop, -⟩ := bind_eq_ok.1 hpop
    exact hoperand hpop

/-- The validator's control stack counts the structured operators that are still open. -/
theorem length_of_visit {m : Module} {branchTables : List (List UInt32)} {op : Operator}
    {context context' : FunctionValidationContext}
    (h : visit m branchTables op context = .ok ((), context')) :
    context'.controlStack.length + op.closes = context.controlStack.length + op.opens := by
  cases op with
  | block resultType =>
    obtain ⟨u, mid, hvalidate, h⟩ := bind_eq_ok.1 h
    obtain ⟨-, rfl⟩ := lift_eq_ok.1 hvalidate
    exact length_of_pushControlStack h
  | loop resultType =>
    obtain ⟨u, mid, hvalidate, h⟩ := bind_eq_ok.1 h
    obtain ⟨-, rfl⟩ := lift_eq_ok.1 hvalidate
    exact length_of_pushControlStack h
  | if_ resultType =>
    obtain ⟨u, mid, hvalidate, h⟩ := bind_eq_ok.1 h
    obtain ⟨-, rfl⟩ := lift_eq_ok.1 hvalidate
    obtain ⟨u, mid, hcondition, h⟩ := bind_eq_ok.1 h
    have hkeep := (KeepsDepth.popAndValidateOperand _).length_eq hcondition
    rw [← hkeep]
    exact length_of_pushControlStack h
  | else_ | end_ =>
    obtain ⟨c, mid, hget, h⟩ := bind_eq_ok.1 h
    obtain ⟨rfl, rfl⟩ := get_eq_ok.1 hget
    obtain ⟨u, mid, hresult, h⟩ := bind_eq_ok.1 h
    have hkeep := (KeepsDepth.popResultOfTop _).length_eq hresult
    rw [← hkeep]
    exact length_of_popControlStack h
  | _ => exact (keepsDepth_visit rfl).length_eq h

end FunctionValidationContext

/-! ## The end of the function -/

/-- The body up to its end, operator by operator. -/
theorem upToEnd_cons {depth : Nat} {op : Operator} (h : op ≠ .end_ ∨ depth ≠ 0)
    (ops : List Operator) :
    upToEnd depth (op :: ops) = (upToEnd (depth + op.opens - op.closes) ops).map (op :: ·) := by
  cases depth with
  | succ depth => cases op <;> rfl
  | zero =>
    cases op with
    | end_ => simp at h
    | _ => rfl

/-- Behind an operator that is not the closing `end` the search goes on. -/
theorem upToEnd_cons_of_not_end {depth : Nat} {op : Operator} (h : ¬ (op = .end_ ∧ depth = 0)) :
    op.closes ≤ depth + op.opens ∧ ∀ ops,
      upToEnd depth (op :: ops) = (upToEnd (depth + op.opens - op.closes) ops).map (op :: ·) := by
  have hcons : op ≠ .end_ ∨ depth ≠ 0 := Decidable.not_and_iff_or_not.1 h
  refine ⟨?_, upToEnd_cons hcons⟩
  rcases hcons with hop | hdepth
  · cases op <;> first | exact absurd rfl hop | exact Nat.zero_le _
  · cases op <;> simp only [Operator.closes] <;> omega

/-- A run of the validator that ends with an empty control stack passed the matching `end`. -/
theorem upToEnd_of_visitAll {m : Module} {branchTables : List (List UInt32)}
    {ops : List Operator} {depth : Nat} {context context' : FunctionValidationContext}
    (h : FunctionValidationContext.visitAll m branchTables ops context = .ok ((), context'))
    (hdepth : context.controlStack.length = depth + 1) (hdone : context'.controlStack = []) :
    ∃ body, upToEnd depth ops = some body := by
  induction ops generalizing depth context with
  | nil =>
    obtain ⟨-, rfl⟩ := pure_eq_ok.1 h
    rw [hdone] at hdepth
    cases hdepth
  | cons op ops ih =>
    obtain ⟨u, mid, hop, h⟩ := bind_eq_ok.1 h
    have hlength := FunctionValidationContext.length_of_visit hop
    by_cases hend : op = .end_ ∧ depth = 0
    · obtain ⟨rfl, rfl⟩ := hend
      exact ⟨_, rfl⟩
    · obtain ⟨hcloses, hcons⟩ := upToEnd_cons_of_not_end hend
      obtain ⟨body, hbody⟩ : ∃ body, upToEnd (depth + op.opens - op.closes) ops = some body :=
        ih h (by omega)
      exact ⟨op :: body, by rw [hcons, hbody, Option.map_some]⟩

/-- An accepted body has the `end` that closes it. -/
theorem FunctionDef.Accepts.functionBody {m : Module} {functionDef : FunctionDef}
    {ops : List Operator} (h : functionDef.Accepts m ops) :
    ∃ body, functionBody ops = some body := by
  obtain ⟨context, hvisit, hdone⟩ := h
  exact upToEnd_of_visitAll hvisit rfl hdone

theorem end_mem_of_upToEnd {depth : Nat} {ops body : List Operator}
    (h : upToEnd depth ops = some body) : .end_ ∈ ops := by
  induction ops generalizing depth body with
  | nil => cases h
  | cons op ops ih =>
    by_cases hop : op = .end_
    · rw [hop]
      exact List.mem_cons_self
    · rw [upToEnd_cons (.inl hop)] at h
      obtain ⟨rest, hrest, -⟩ := Option.map_eq_some_iff.1 h
      exact List.mem_cons_of_mem op (ih hrest)

/-- Numeric operators pop an operand, so in accepted code an `end` comes after them. -/
theorem FunctionDef.Accepts.end_mem {m : Module} {functionDef : FunctionDef}
    {ops before after : List Operator} {op : NumericOp} (h : functionDef.Accepts m ops)
    (hops : ops = before ++ .numeric op :: after) : .end_ ∈ after := by
  obtain ⟨context, hvisit, hdone⟩ := h
  rw [hops, FunctionValidationContext.visitAll_append] at hvisit
  obtain ⟨mid, -, hvisit⟩ := hvisit
  obtain ⟨u, mid', hop, hafter⟩ := bind_eq_ok.1 hvisit
  have hopen := FunctionValidationContext.controlStack_of_visit_numeric hop
  have hlength := FunctionValidationContext.length_of_visit hop
  obtain ⟨depth, hdepth⟩ : ∃ depth, mid.controlStack.length = depth + 1 :=
    Nat.exists_eq_succ_of_ne_zero (by simpa using hopen)
  have hdepth' : mid'.controlStack.length = depth + 1 := by
    rw [← hdepth]
    exact hlength
  obtain ⟨body, hbody⟩ := upToEnd_of_visitAll hafter hdepth' hdone
  exact end_mem_of_upToEnd hbody

/-- Accepted code calls functions of the module only. -/
theorem FunctionDef.Accepts.call_lt {m : Module} {functionDef : FunctionDef}
    {ops : List Operator} (h : functionDef.Accepts m ops) {functionIndex : UInt32}
    (hmem : .call functionIndex ∈ ops) : functionIndex.toNat < m.functions.size := by
  obtain ⟨context, hvisit, -⟩ := h
  have hall : ∀ op ∈ ops, ∀ i, op = .call i → i.toNat < m.functions.size := by
    refine FunctionValidationContext.forall_mem_of_visitAll ?_ hvisit
    rintro op context context' hop i rfl
    exact FunctionValidationContext.lt_of_visit_call hop
  exact hall _ hmem functionIndex rfl

/-- `CodeValidationStream` over the operators of a body, and `finish`. -/
def FunctionDef.validateCode (module : Module) (functionDef : FunctionDef) (ops : List Operator) :
    Except Exception Unit := do
  let ((), context) ← FunctionValidationContext.visitAll module functionDef.branchTables ops
    (.init (functionDef.functionType module) functionDef.nonParameterLocalTypes)
  context.finish

/-- A body is finished when no frame is open. -/
theorem FunctionValidationContext.finish_eq_ok {context : FunctionValidationContext} {u : Unit} :
    context.finish = .ok u ↔ context.controlStack = [] := by
  unfold FunctionValidationContext.finish
  split
  · next h => exact ⟨nofun, fun hnil => absurd hnil h⟩
  · next h => exact ⟨fun _ => Decidable.not_not.1 h, fun _ => rfl⟩

/-- Acceptance is the verdict of the code validator. -/
theorem FunctionDef.accepts_iff_validateCode {m : Module} {functionDef : FunctionDef}
    {ops : List Operator} : functionDef.Accepts m ops ↔ functionDef.validateCode m ops = .ok () := by
  unfold FunctionDef.Accepts FunctionDef.validateCode
  rw [Except.bind_eq_ok]
  constructor
  · rintro ⟨context, hvisit, hdone⟩
    exact ⟨((), context), hvisit, FunctionValidationContext.finish_eq_ok.2 hdone⟩
  · rintro ⟨⟨u, context⟩, hvisit, hfinish⟩
    exact ⟨context, hvisit, FunctionValidationContext.finish_eq_ok.1 hfinish⟩

theorem FunctionDef.validateCode_congr {m m' : Module} (hsame : SameSignatures m m')
    (functionDef : FunctionDef) (ops : List Operator) :
    functionDef.validateCode m' ops = functionDef.validateCode m ops := by
  unfold FunctionDef.validateCode
  rw [FunctionValidationContext.visitAll_congr hsame]
  simp only [FunctionDef.functionType, hsame.types]

/-- It depends on the signatures only. -/
theorem FunctionDef.Accepts.congr {m m' : Module} (hsame : SameSignatures m m')
    {functionDef : FunctionDef} {ops : List Operator} (h : functionDef.Accepts m ops) :
    functionDef.Accepts m' ops := by
  obtain ⟨context, hvisit, hdone⟩ := h
  refine ⟨context, ?_, hdone⟩
  rw [FunctionValidationContext.visitAll_congr hsame]
  simpa only [FunctionDef.functionType, hsame.types] using hvisit

end FractalWasm.IR
