import FractalWasm.IR.ValidCode
import FractalWasm.WASM.Deserialize

/-!
# What an accepted module looks like

The guarantees the decoder gives about a module it returns: the number of functions is limited,
every function body is either absent or the IR encoding of operators that the code validator
accepted against this very module, and the definition checks passed. The body guarantee is an
invariant of the section loop; it holds across the sections because a section after the code section
no longer changes what the validator looks at.

**Readers** (`Reader.Shrinks`): every reader of the format consumes input, so that a loop over
sections ends by itself; the loop stops when nothing is left (`decode_eq_ok`).

**Sections** (`SectionInvariant`): what holds between two sections, by the number of the last one
read.

**Modules** (`Decoded`): what `WASM::serialize` guarantees of each module it returns, the starting
point of every result about accepted contracts.
-/

namespace FractalWasm.WASM

open Codec IR Serialization

/-! ## How readers of the format consume input -/

theorem shrinks_serializeValueType : Reader.Shrinks serializeValueType :=
  .bind (shrinks_serializeVarInt 8 7) fun _ => .pure _

theorem shrinks_serializeWord : Reader.Shrinks serializeWord :=
  .bind (shrinks_serializeVarUInt 32) fun _ => .pure _

theorem consumes_serializeOpcode : Reader.Consumes serializeOpcode :=
  .bind consumes_serializeU8 fun _ =>
    .ite (.bind consumes_serializeU8.shrinks fun _ => .pure _) (.pure _)

theorem shrinks_serializeImm (branchTables : List (List UInt32)) (opcode : Opcode) :
    Reader.Shrinks (serializeImm branchTables opcode) := by
  have hcontrol : Reader.Shrinks serializeImm.controlStructureImm :=
    .bind (shrinks_serializeVarInt 8 7) fun _ => .ite (.pure _) (.pure _)
  have hword : ∀ op : UInt32 → Operator,
      Reader.Shrinks (serializeWord >>= fun v => pure (op v, branchTables) :
        InputReader (Operator × List (List UInt32))) :=
    fun _ => .bind shrinks_serializeWord fun _ => .pure _
  cases opcode with
  | block | loop | if_ => exact .bind hcontrol fun _ => .pure _
  | br | brIf | call => exact hword _
  | getLocal | setLocal | teeLocal | getGlobal | setGlobal => exact hword _
  | brTable =>
    exact .bind (shrinks_serializeArray shrinks_serializeWord) fun _ =>
      .bind (shrinks_serializeVarUInt 32) fun _ => .pure _
  | callIndirect =>
    exact .bind shrinks_serializeWord fun _ =>
      .bind (consumes_serializeConstantU8 _ _).shrinks fun _ => .pure _
  | load op | store op =>
    exact .bind (shrinks_serializeVarUInt 7) fun _ => .bind shrinks_serializeWord fun _ => .pure _
  | currentMemory | growMemory =>
    exact .bind (consumes_serializeConstantU8 _ _).shrinks fun _ => .pure _
  | i32Const => exact .bind (shrinks_serializeVarInt 32 32) fun _ => .pure _
  | i64Const => exact .bind (shrinks_serializeVarInt 64 64) fun _ => .pure _
  | f32Const => exact .bind shrinks_serializeU32 fun _ => .pure _
  | f64Const => exact .bind shrinks_serializeU64 fun _ => .pure _
  | unreachable | nop | else_ | end_ | return_ | drop | select | numeric _ => exact .pure _

theorem consumes_serializeOperator (module : Module) (state : BodyState) :
    Reader.Consumes (serializeOperator module state) := by
  refine .bind consumes_serializeOpcode fun opcode => ?_
  cases Opcode.ofCode? opcode with
  | none => exact .throw _
  | some opcode =>
    exact .bind (shrinks_serializeImm _ _) fun _ => .bind (.lift _) fun _ => .pure _

theorem shrinks_serializeLocalSets (numLocalSets localsAccum : Nat)
    (localTypes : List ValueType) :
    Reader.Shrinks (serializeLocalSets numLocalSets localsAccum localTypes) := by
  induction numLocalSets generalizing localsAccum localTypes with
  | zero => exact .pure _
  | succ numLocalSets ih =>
    exact .bind (shrinks_serializeVarUInt 32) fun _ => .bind shrinks_serializeValueType fun _ =>
      .bind (shrinks_throwIf _ _) fun _ => ih _ _

theorem consumes_serializeSection {α : Type} (sectionBody : InputReader α) :
    Reader.Consumes (serializeSection sectionBody) :=
  .bind (consumes_advance Nat.one_pos) fun _ => .bind (shrinks_serializeVarUInt 32) fun _ =>
    .bind (shrinks_advance _) fun _ => .bind (.lift _) fun _ =>
      .bind (shrinks_throwIf _ _) fun _ => .pure _

theorem consumes_serializeUserSection (module : Module) :
    Reader.Consumes (serializeUserSection module) :=
  .bind (consumes_serializeConstantU8 _ _) fun _ => .bind (shrinks_serializeVarUInt 32) fun _ =>
    .bind (shrinks_advance _) fun _ => .bind (.lift _) fun _ => .bind (.lift _) fun _ => .pure _

theorem consumes_serializeNextSection (state : ModuleState) :
    Reader.Consumes (serializeNextSection state) := by
  have hpeek : Reader.Shrinks peekByte :=
    .bind .get fun _ => .bind (shrinks_throwIf _ _) fun _ => .pure _
  refine .of_bind hpeek fun sectionType => ?_
  split
  · exact .bind (consumes_serializeUserSection _) fun _ => .pure _
  · refine .of_bind (shrinks_throwIf _ _) fun _ => .bind ?_ fun _ => .pure _
    unfold serializeKnownSection
    split
    all_goals first
      | exact consumes_serializeSection _
      | exact ⟨fun h => (throwFatal_eq_ok.1 h).elim⟩

/-- A decoded module is spelled by all of its bytes. -/
theorem serializeModule_rest {bytes rest : Bytes} {module : Module}
    (h : serializeModule bytes = .ok (module, rest)) : rest = [] := by
  obtain ⟨u, t, -, h⟩ := bind_eq_ok.1 h
  obtain ⟨u, t, -, h⟩ := bind_eq_ok.1 h
  obtain ⟨state, t, hloop, h⟩ := bind_eq_ok.1 h
  obtain ⟨-, rfl⟩ := pure_eq_ok.1 h
  exact Reader.rest_eq_nil_of_loop consumes_serializeNextSection hloop

/-- What is decoded has been read to its end, and its definitions are valid. -/
theorem decode_eq_ok {bytes : Bytes} {module : Module} :
    decode bytes = .ok module ↔
      serializeModule bytes = .ok (module, []) ∧ validateDefinitions module = .ok () := by
  constructor
  · intro h
    obtain ⟨⟨read, rest⟩, hmodule, h⟩ := Except.bind_eq_ok.1 h
    obtain ⟨u, hdefinitions, h⟩ := Except.bind_eq_ok.1 h
    cases h
    exact ⟨serializeModule_rest hmodule ▸ hmodule, hdefinitions⟩
  · rintro ⟨hmodule, hdefinitions⟩
    exact Except.bind_eq_ok.2 ⟨(module, []), hmodule, Except.bind_eq_ok.2 ⟨(), hdefinitions, rfl⟩⟩

/-! ## Function bodies -/

/-- A `br_table` adds its table to those before it. -/
theorem serializeImm_extends (branchTables : List (List UInt32)) (opcode : Opcode) :
    Reader.Returns (fun result => branchTables <+: result.2)
      (serializeImm branchTables opcode) := by
  have hrefl : branchTables <+: branchTables := List.prefix_refl _
  cases opcode with
  | brTable =>
    exact .bind fun branchTable => .bind fun _ => .pure (List.prefix_append _ [branchTable])
  | callIndirect | load _ | store _ => exact .bind fun _ => .bind fun _ => .pure hrefl
  | unreachable | nop | else_ | end_ | return_ | drop | select | numeric _ => exact .pure hrefl
  | _ => exact .bind fun _ => .pure hrefl

/-- A round reads one operator, which the validator accepts in the state so far. -/
theorem serializeOperator_spec {module : Module} {state state' : BodyState} {bytes rest : Bytes}
    (h : serializeOperator module state bytes = .ok (state', rest)) :
    ∃ op, state'.code = state.code ++ op.encode ∧ state.branchTables <+: state'.branchTables ∧
      FunctionValidationContext.visit module state'.branchTables op state.context =
        .ok ((), state'.context) := by
  obtain ⟨opcode, t, -, h⟩ := bind_eq_ok.1 h
  cases hop : Opcode.ofCode? opcode with
  | none =>
    simp only [hop] at h
    exact (throwFatal_eq_ok.1 h).elim
  | some opcode =>
    simp only [hop] at h
    obtain ⟨⟨op, branchTables⟩, t, himm, h⟩ := bind_eq_ok.1 h
    obtain ⟨⟨u, context⟩, t', hlift, h⟩ := bind_eq_ok.1 h
    obtain ⟨hvisit, rfl⟩ := lift_eq_ok.1 hlift
    obtain ⟨rfl, -⟩ := pure_eq_ok.1 h
    exact ⟨op, rfl, (serializeImm_extends _ _).holds himm, hvisit⟩

/-- The loop state after `n` rounds from `init`: the code holds `n` operators, each of which the
validator accepted. -/
def BodyState.HasRead (module : Module) (init : FunctionValidationContext) (n : Nat)
    (state : BodyState) : Prop :=
  ∃ ops, ops.length = n ∧ state.code = encodeOps ops ∧
    FunctionValidationContext.visitAll module state.branchTables ops init =
      .ok ((), state.context)

/-- One operator more has been read and validated. -/
theorem BodyState.HasRead.step {module : Module} {init : FunctionValidationContext} {n : Nat}
    {state state' : BodyState} {bytes rest : Bytes} (hread : state.HasRead module init n)
    (h : serializeOperator module state bytes = .ok (state', rest)) :
    state'.HasRead module init (n + 1) := by
  obtain ⟨ops, rfl, hcode, hvisit⟩ := hread
  obtain ⟨op, hcode', hext, hop⟩ := serializeOperator_spec h
  refine ⟨ops ++ [op], by simp, by simp [hcode', hcode], ?_⟩
  refine FunctionValidationContext.visitAll_append.2 ⟨state.context, ?_, ?_⟩
  · exact FunctionValidationContext.visitAll_extend hext hvisit
  · exact bind_eq_ok.2 ⟨(), state'.context, hop, pure_eq_ok.2 ⟨rfl, rfl⟩⟩

/-- A decoded body: operators the validator accepts, in the IR's encoding. -/
def HasBody (module : Module) (functionDef : FunctionDef) : Prop :=
  ∃ ops, functionDef.code = encodeOps ops ∧ ops.length < maximumCodeSize ∧
    functionDef.Accepts module ops

/-- A body that is read holds the encoding of operators the validator accepted. -/
theorem serializeBody_spec {module : Module} {functionDef functionDef' : FunctionDef}
    {numBodyBytes : Nat} {bytes rest : Bytes} (hlength : bytes.length = numBodyBytes)
    (h : serializeBody module functionDef numBodyBytes bytes = .ok (functionDef', rest)) :
    functionDef'.type = functionDef.type ∧ HasBody module functionDef' := by
  obtain ⟨numLocalSets, t₁, hnum, h⟩ := bind_eq_ok.1 h
  have hle₁ := (shrinks_serializeVarUInt 32).length_le hnum
  obtain ⟨u, t₂, hsize, h⟩ := bind_eq_ok.1 h
  obtain ⟨hsize, rfl⟩ := throwIf_eq_ok.1 hsize
  obtain ⟨u, t₂, hsets, h⟩ := bind_eq_ok.1 h
  obtain ⟨-, rfl⟩ := throwIf_eq_ok.1 hsets
  obtain ⟨localTypes, t₂, hlocals, h⟩ := bind_eq_ok.1 h
  have hle₂ := (shrinks_serializeLocalSets _ _ _).length_le hlocals
  obtain ⟨state, t₃, hloop, h⟩ := bind_eq_ok.1 h
  obtain ⟨u, t₄, hfinish, h⟩ := bind_eq_ok.1 h
  obtain ⟨hfinish, rfl⟩ := lift_eq_ok.1 hfinish
  obtain ⟨rfl, -⟩ := pure_eq_ok.1 h
  -- The loop has read as many operators as it made rounds, and validated each of them.
  have hinit : BodyState.HasRead module (.init (functionDef.functionType module) localTypes) 0
      ⟨.init (functionDef.functionType module) localTypes, functionDef.branchTables, []⟩ :=
    ⟨[], rfl, rfl, rfl⟩
  obtain ⟨rounds, hrounds, ops, hops, hcode, hvisit⟩ :=
    Reader.whileNonempty_count BodyState.HasRead.step hinit hloop
  refine ⟨rfl, ops, hcode, ?_, state.context, hvisit, ?_⟩
  · have : numBodyBytes < maximumCodeSize := by simpa using hsize
    omega
  · unfold FunctionValidationContext.finish at hfinish
    split at hfinish
    · cases hfinish
    · next hne => exact Decidable.not_not.1 hne

/-- Each definition keeps its type and receives a body. -/
theorem returns_serializeFunctionBodies (module : Module) (functionDefs : List FunctionDef) :
    Reader.Returns (fun functionDefs' =>
        functionDefs'.map FunctionDef.type = functionDefs.map FunctionDef.type ∧
          ∀ functionDef ∈ functionDefs', HasBody module functionDef)
      (serializeFunctionBodies module functionDefs) := by
  have hbody : ∀ functionDef : FunctionDef,
      Reader.Returns (fun functionDef' : FunctionDef =>
        functionDef'.type = functionDef.type ∧ HasBody module functionDef')
      (serializeFunctionBody module functionDef) := by
    refine fun functionDef => ⟨fun {bytes rest functionDef'} h => ?_⟩
    obtain ⟨numBodyBytes, t, -, h⟩ := bind_eq_ok.1 h
    obtain ⟨bodyBytes, t, hbytes, h⟩ := bind_eq_ok.1 h
    obtain ⟨⟨fd, left⟩, t, hlift, h⟩ := bind_eq_ok.1 h
    obtain ⟨hbody, rfl⟩ := lift_eq_ok.1 hlift
    obtain ⟨rfl, -⟩ := pure_eq_ok.1 h
    exact serializeBody_spec (advance_eq_ok.1 hbytes).2 hbody
  induction functionDefs with
  | nil => exact .pure ⟨rfl, fun _ h => absurd h List.not_mem_nil⟩
  | cons functionDef functionDefs ih =>
    refine .bind_of (hbody functionDef) fun fd hfd => .bind_of ih fun fds hfds => .pure ?_
    refine ⟨by rw [List.map_cons, List.map_cons, hfd.1, hfds.1], fun fd' hmem => ?_⟩
    rcases List.mem_cons.1 hmem with rfl | hmem
    · exact hfd.2
    · exact hfds.2 fd' hmem

/-! ## Sections -/

/-- A section returns what its body returns. -/
theorem returns_serializeSection {α : Type} {P : α → Prop} {sectionBody : InputReader α}
    (h : Reader.Returns P sectionBody) : Reader.Returns P (serializeSection sectionBody) := by
  refine .bind fun _ => .bind fun _ => .bind fun sectionBytes => ⟨fun {bytes rest a} hrun => ?_⟩
  obtain ⟨⟨b, left⟩, t, hlift, hrun⟩ := bind_eq_ok.1 hrun
  obtain ⟨hbody, rfl⟩ := lift_eq_ok.1 hlift
  obtain ⟨u, t', -, hrun⟩ := bind_eq_ok.1 hrun
  obtain ⟨rfl, -⟩ := pure_eq_ok.1 hrun
  exact h.holds hbody

/-- The limits on the number of functions. -/
structure Bounded (module : Module) : Prop where
  imports_lt : module.functions.imports.length < maximumSectionElements
  defs_lt : module.functions.defs.length < maximumSectionElements

/-- The number of imported functions stays within its limit. -/
theorem returns_serializeImports (size : Nat) {module : Module}
    (hlt : module.functions.imports.length < maximumSectionElements) :
    Reader.Returns (fun module' : Module => module'.functions.defs = module.functions.defs ∧
        module'.functions.imports.length < maximumSectionElements)
      (serializeImports size module) := by
  induction size generalizing module with
  | zero => exact .pure ⟨rfl, hlt⟩
  | succ size ih =>
    have himport : Reader.Returns (fun module' : Module =>
        module'.functions.defs = module.functions.defs ∧
          module'.functions.imports.length < maximumSectionElements)
        (serializeImport module) := by
      refine .bind fun _ => .bind fun _ => .bind fun _ => .bind fun _ => .bind fun kind => ?_
      cases kind with
      | function =>
        refine .bind fun _ => .bind fun _ => ?_
        exact .bind_of (returns_throwIf _ _) fun _ hle => .pure ⟨rfl, by simpa using hle⟩
      | table => exact .bind fun _ => .bind fun _ => .pure ⟨rfl, hlt⟩
      | memory => exact .bind fun _ => .bind fun _ => .pure ⟨rfl, hlt⟩
      | global => exact .bind fun _ => .bind fun _ => .pure ⟨rfl, hlt⟩
      | module => exact .throw _
      | invalid _ _ => exact .throw _
    refine .bind_of himport fun module' hmodule' => ?_
    refine (ih hmodule'.2).mono fun m hm => ⟨?_, hm.2⟩
    rw [hm.1, hmodule'.1]

/-- No function has a body yet. -/
def NoBodies (module : Module) : Prop := ∀ functionDef ∈ module.functions.defs,
  functionDef.code = []

/-- Every function without a body aside, the validator accepted the code. -/
def BodiesAccepted (module : Module) : Prop := ∀ functionDef ∈ module.functions.defs,
  functionDef.code = [] ∨ HasBody module functionDef

/-- What holds between two sections, the last known one being `last`. -/
structure SectionInvariant (last : UInt8) (module : Module) : Prop where
  bounded : Bounded module
  noBodies : last < 10 → NoBodies module
  bodiesAccepted : BodiesAccepted module

/-- Acceptance depends on the signatures of the module only. -/
theorem HasBody.congr {m m' : Module} (hsame : SameSignatures m m') {functionDef : FunctionDef}
    (h : HasBody m functionDef) : HasBody m' functionDef := by
  obtain ⟨ops, hcode, hlt, haccepts⟩ := h
  exact ⟨ops, hcode, hlt, haccepts.congr hsame⟩

namespace SectionInvariant

variable {last next : UInt8} {module module' : Module}

/-- A section before the code section that leaves the functions alone. -/
theorem of_functions_eq (h : SectionInvariant last module) (hlast : last < 10)
    (heq : module'.functions = module.functions) : SectionInvariant next module' := by
  have hno : NoBodies module' := by
    unfold NoBodies
    rw [heq]
    exact h.noBodies hlast
  refine ⟨⟨?_, ?_⟩, fun _ => hno, fun fd hfd => .inl (hno fd hfd)⟩
  · rw [heq]
    exact h.bounded.imports_lt
  · rw [heq]
    exact h.bounded.defs_lt

/-- A section that only adds what the validator does not look at. -/
theorem of_same (h : SectionInvariant last module) (hle : last ≤ next)
    (heq : module'.functions = module.functions) (hsame : SameSignatures module module') :
    SectionInvariant next module' := by
  refine ⟨⟨?_, ?_⟩, fun hlt => ?_, fun fd hfd => ?_⟩
  · rw [heq]
    exact h.bounded.imports_lt
  · rw [heq]
    exact h.bounded.defs_lt
  · unfold NoBodies
    rw [heq]
    exact h.noBodies (UInt8.lt_of_le_of_lt hle hlt)
  · rw [heq] at hfd
    rcases h.bodiesAccepted fd hfd with hnil | hbody
    · exact .inl hnil
    · exact .inr (hbody.congr hsame)

end SectionInvariant

/-- New definitions of the same types leave the signatures alone. -/
theorem sameSignatures_of_defs {module : Module} {defs : List FunctionDef}
    (htypes : defs.map FunctionDef.type = module.functions.defs.map FunctionDef.type) :
    SameSignatures module
      { module with functions := { module.functions with defs := defs } } where
  types := rfl
  functionType? := by
    funext i
    have hget : ∀ j : Nat, defs[j]?.map FunctionDef.type =
        module.functions.defs[j]?.map FunctionDef.type := by
      intro j
      rw [← List.getElem?_map, ← List.getElem?_map, htypes]
    simp only [Module.functionType?, Module.functionTypeIndex?, IndexSpace.getType?, hget]
  functions_size := by
    have hlen := congrArg List.length htypes
    simp only [List.length_map] at hlen
    simp only [IndexSpace.size, hlen]
  globals := rfl
  tables_size := rfl
  memories_size := rfl

/-- The function section declares functions without bodies. -/
theorem returns_serializeFunctionSection {last : UInt8} {module : Module}
    (h : SectionInvariant last module) :
    Reader.Returns (SectionInvariant 3) (serializeFunctionSection module) := by
  refine returns_serializeSection (.bind fun numFunctions => ?_)
  refine .bind_of (returns_throwIf _ _) fun _ hlt => ?_
  have hdecl : Reader.Returns (fun functionDef : FunctionDef => functionDef.code = [])
      (serializeFunctionDeclaration module) :=
    .bind fun _ => .bind fun _ => .pure rfl
  refine .bind_of ((hdecl.many numFunctions).and (.length_many _ _)) fun defs hdefs => .pure ?_
  have hlt : numFunctions < maximumSectionElements := by simpa using hlt
  refine ⟨⟨h.bounded.imports_lt, ?_⟩, fun _ => hdefs.1, fun fd hfd => .inl (hdefs.1 fd hfd)⟩
  change defs.length < _
  rw [hdefs.2]
  exact hlt

/-- The code section gives each its accepted body. -/
theorem returns_serializeCodeSection {last : UInt8} {module : Module}
    (h : SectionInvariant last module) :
    Reader.Returns (SectionInvariant 10) (serializeCodeSection module) := by
  refine returns_serializeSection (.bind fun _ => .bind fun _ => ?_)
  refine .bind_of (returns_serializeFunctionBodies module module.functions.defs) fun defs hdefs =>
    .pure ?_
  have hsame := sameSignatures_of_defs hdefs.1
  have hlen : defs.length = module.functions.defs.length := by
    simpa using congrArg List.length hdefs.1
  refine ⟨⟨h.bounded.imports_lt, ?_⟩, fun hlt => absurd hlt (by decide), fun fd hfd => ?_⟩
  · change defs.length < _
    rw [hlen]
    exact h.bounded.defs_lt
  · exact .inr ((hdefs.2 fd hfd).congr hsame)

/-- The sections before the code section that fill in something other than the functions. -/
theorem returns_plainSection {last next : UInt8} {module : Module} {α : Type} {r : InputReader α}
    {put : α → Module} (h : SectionInvariant last module) (hlt : last < next) (hle : next ≤ 10)
    (hput : ∀ a, (put a).functions = module.functions) :
    Reader.Returns (SectionInvariant next)
      (serializeSection (r >>= fun a => pure (put a))) := by
  refine returns_serializeSection (.bind fun a => .pure ?_)
  exact h.of_functions_eq (UInt8.lt_of_lt_of_le hlt hle) (hput a)

/-- Every known section keeps the invariant; from the code section on the signatures stay. -/
theorem returns_serializeKnownSection {last sectionType : UInt8} {module : Module}
    (h : SectionInvariant last module) (hlt : last < sectionType) :
    Reader.Returns (SectionInvariant sectionType)
      (serializeKnownSection sectionType module) := by
  have hof : ∀ n : UInt8, sectionType.toNat = n.toNat → sectionType = n :=
    fun n hn => UInt8.toNat_inj.1 hn
  unfold serializeKnownSection
  split
  · next hn =>
    obtain rfl := hof 1 hn
    exact returns_plainSection h hlt (by decide) fun _ => rfl
  · next hn =>
    obtain rfl := hof 2 hn
    refine returns_serializeSection (.bind fun size => ?_)
    refine (returns_serializeImports size h.bounded.imports_lt).mono fun m hm => ?_
    have hlast : last < 10 := UInt8.lt_of_lt_of_le hlt (by decide)
    have hno : NoBodies m := by
      unfold NoBodies
      rw [hm.1]
      exact h.noBodies hlast
    exact ⟨⟨hm.2, hm.1 ▸ h.bounded.defs_lt⟩, fun _ => hno, fun fd hfd => .inl (hno fd hfd)⟩
  · next hn =>
    obtain rfl := hof 3 hn
    exact returns_serializeFunctionSection h
  · next hn =>
    obtain rfl := hof 4 hn
    exact returns_plainSection h hlt (by decide) fun _ => rfl
  · next hn =>
    obtain rfl := hof 5 hn
    exact returns_plainSection h hlt (by decide) fun _ => rfl
  · next hn =>
    obtain rfl := hof 6 hn
    exact returns_plainSection h hlt (by decide) fun _ => rfl
  · next hn =>
    obtain rfl := hof 7 hn
    exact returns_plainSection h hlt (by decide) fun _ => rfl
  · next hn =>
    obtain rfl := hof 8 hn
    exact returns_plainSection h hlt (by decide) fun _ => rfl
  · next hn =>
    obtain rfl := hof 9 hn
    exact returns_plainSection h hlt (by decide) fun _ => rfl
  · next hn =>
    obtain rfl := hof 10 hn
    exact returns_serializeCodeSection h
  · next hn =>
    obtain rfl := hof 11 hn
    refine returns_serializeSection (.bind fun dataSegments => .pure ?_)
    exact h.of_same (UInt8.le_of_lt hlt) rfl ⟨rfl, rfl, rfl, rfl, rfl, rfl⟩
  · exact ⟨fun hthrow => (throwFatal_eq_ok.1 hthrow).elim⟩

/-! ## Accepted modules -/

/-- To look at a byte is not to read it. -/
theorem peekByte_eq_ok {bytes rest : Bytes} {byte : UInt8} (h : peekByte bytes = .ok (byte, rest)) :
    rest = bytes ∧ ∃ tail, bytes = byte :: tail := by
  obtain ⟨b, t, hget, h⟩ := bind_eq_ok.1 h
  obtain ⟨rfl, rfl⟩ := get_eq_ok.1 hget
  obtain ⟨u, t, hthrow, h⟩ := bind_eq_ok.1 h
  obtain ⟨hlen, rfl⟩ := throwIf_eq_ok.1 hthrow
  obtain ⟨rfl, rfl⟩ := pure_eq_ok.1 h
  refine ⟨rfl, ?_⟩
  cases bytes with
  | nil => simp at hlen
  | cons byte tail => exact ⟨tail, rfl⟩

theorem of_serializeUserSection {module module' : Module} {bytes rest : Bytes}
    (h : serializeUserSection module bytes = .ok (module', rest)) :
    ∃ userSection,
      module' = { module with userSections := module.userSections ++ [userSection] } := by
  obtain ⟨u, t, -, h⟩ := bind_eq_ok.1 h
  obtain ⟨n, t, -, h⟩ := bind_eq_ok.1 h
  obtain ⟨sectionBytes, t, -, h⟩ := bind_eq_ok.1 h
  obtain ⟨⟨userSection, left⟩, t, -, h⟩ := bind_eq_ok.1 h
  obtain ⟨u, t, -, h⟩ := bind_eq_ok.1 h
  obtain ⟨rfl, -⟩ := pure_eq_ok.1 h
  exact ⟨userSection, rfl⟩

/-- What one round of the section loop does, by the type of the section. -/
theorem serializeNextSection_cases {state state' : ModuleState} {bytes rest : Bytes}
    (h : serializeNextSection state bytes = .ok (state', rest)) :
    ∃ sectionType tail module, bytes = sectionType :: tail ∧
      (sectionType = 0 ∧ state' = { state with module } ∧
          serializeUserSection state.module bytes = .ok (module, rest) ∨
        state.lastKnownSectionType < sectionType ∧ state' = ⟨sectionType, module⟩ ∧
          serializeKnownSection sectionType state.module bytes = .ok (module, rest)) := by
  obtain ⟨sectionType, t, hpeek, hsection⟩ := bind_eq_ok.1 h
  obtain ⟨rfl, tail, rfl⟩ := peekByte_eq_ok hpeek
  split at hsection
  · next huser =>
    obtain ⟨module, t, hread, hstate⟩ := bind_eq_ok.1 hsection
    obtain ⟨rfl, rfl⟩ := pure_eq_ok.1 hstate
    exact ⟨sectionType, tail, module, rfl, .inl ⟨huser, rfl, hread⟩⟩
  · obtain ⟨u, t, horder, hsection⟩ := bind_eq_ok.1 hsection
    obtain ⟨horder, rfl⟩ := throwIf_eq_ok.1 horder
    obtain ⟨module, t, hread, hstate⟩ := bind_eq_ok.1 hsection
    obtain ⟨rfl, rfl⟩ := pure_eq_ok.1 hstate
    exact ⟨sectionType, tail, module, rfl, .inr ⟨by simpa using horder, rfl, hread⟩⟩

/-- The step of the section loop. -/
theorem serializeNextSection_invariant {state state' : ModuleState} {bytes rest : Bytes}
    (hinv : SectionInvariant state.lastKnownSectionType state.module)
    (h : serializeNextSection state bytes = .ok (state', rest)) :
    SectionInvariant state'.lastKnownSectionType state'.module := by
  obtain ⟨sectionType, tail, module, -, ⟨-, rfl, hread⟩ | ⟨hlt, rfl, hread⟩⟩ :=
    serializeNextSection_cases h
  · obtain ⟨userSection, rfl⟩ := of_serializeUserSection hread
    exact hinv.of_same (UInt8.le_refl _) rfl ⟨rfl, rfl, rfl, rfl, rfl, rfl⟩
  · exact (returns_serializeKnownSection hinv hlt).holds hread

/-- The guarantees of the decoder. -/
structure Decoded (module : Module) : Prop where
  bounded : Bounded module
  bodiesAccepted : BodiesAccepted module
  definitions : validateDefinitions module = .ok ()

/-- **Accepted modules.** What the decoder returns meets all of its guarantees. -/
theorem Decoded.of_decode {bytes : Bytes} {module : Module} (h : decode bytes = .ok module) :
    Decoded module := by
  obtain ⟨hmodule, hdefinitions⟩ := decode_eq_ok.1 h
  obtain ⟨u, t, -, hmodule⟩ := bind_eq_ok.1 hmodule
  obtain ⟨u, t, -, hmodule⟩ := bind_eq_ok.1 hmodule
  obtain ⟨state, t, hloop, hmodule⟩ := bind_eq_ok.1 hmodule
  obtain ⟨rfl, -⟩ := pure_eq_ok.1 hmodule
  have hempty : SectionInvariant 0 Module.empty :=
    ⟨⟨by decide, by decide⟩, fun _ fd hfd => absurd hfd List.not_mem_nil,
      fun fd hfd => absurd hfd List.not_mem_nil⟩
  have hinv : SectionInvariant state.lastKnownSectionType state.module :=
    Reader.loop_invariant serializeNextSection_invariant hempty hloop
  exact ⟨hinv.bounded, hinv.bodiesAccepted, hdefinitions⟩

/-! ## A module to try things on -/

/-- One imported function and one that loops, adds two numbers and is exported. -/
def sampleBytes : Bytes :=
  [0x00, 0x61, 0x73, 0x6d, 1, 0, 0, 0,
    1, 4, 1, 0x60, 0, 0,
    2, 13, 1, 3, 101, 110, 118, 5, 97, 98, 111, 114, 116, 0, 0,
    3, 2, 1, 0,
    7, 5, 1, 1, 102, 0, 1,
    10, 25, 1, 23, 0, 0x03, 0x40, 0x10, 0, 0x41, 0, 0x0d, 0, 0x0b,
    0x43, 0, 0, 0, 0, 0x43, 0, 0, 0, 0, 0x92, 0x1a, 0x0b]

def sampleOps : List Operator :=
  [.loop .none, .call 0, .i32Const 0, .brIf 0, .end_, .f32Const 0, .f32Const 0, .numeric .f32Add,
    .drop, .end_]

def sampleModule : Module :=
  { Module.empty with
    types := [⟨.none, []⟩]
    functions := ⟨[⟨0, str "env", str "abort"⟩], [⟨0, [], encodeOps sampleOps, []⟩]⟩
    exports := [⟨str "f", .function, 1⟩] }

theorem decode_sampleBytes : decode sampleBytes = .ok sampleModule := by
  refine Except.toOption_eq_some.1 ?_
  decide +kernel

end FractalWasm.WASM
