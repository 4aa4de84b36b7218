import FractalWasm.WASM.RoundTrip.Entities

/-!
# Decoding an encoded function body

The encoder groups locals into runs and writes a branch table where the operator refers to it, so a
body is read back only if it has no local of type `any` and uses its tables in their order.

**Local sets**: runs of one type are read back as they were written, as long as their total stays
within the limit of the decoder.

**Code** (`HasReadCode`): the operators read so far, with the branch tables they brought along; the
decoder numbers the tables in the order of the operators, and so must the body.

**Bodies** (`readsBack_serializeFunctionBody`): a well-formed body (`WellFormedBody`) is read back
and validated.
-/

namespace FractalWasm.WASM

open Codec IR Serialization

variable {E : Exception → Prop}

/-! ## Local sets -/

section LocalSets

open Output

/-- The locals of a sequence of sets. -/
def localTypesOf (localSets : List LocalSet) : List ValueType :=
  localSets.flatMap fun localSet => List.replicate localSet.num localSet.type

theorem localTypesOf_localSetsFrom {localSet : LocalSet} {localTypes : List ValueType}
    (hempty : localSet.type = .any → localSet.num = 0) (hany : .any ∉ localTypes) :
    localTypesOf (localSetsFrom localSet localTypes) =
      List.replicate localSet.num localSet.type ++ localTypes := by
  have hgrown : ∀ localSet : LocalSet, (localSet.type = .any → localSet.num = 0) →
      localTypesOf (if localSet.type ≠ .any then [localSet] else []) =
        List.replicate localSet.num localSet.type := by
    intro localSet hempty
    by_cases htype : localSet.type = .any
    · rw [if_neg (not_not_intro htype), hempty htype]
      rfl
    · rw [if_pos htype]
      exact List.append_nil _
  induction localTypes generalizing localSet with
  | nil => rw [localSetsFrom, hgrown localSet hempty, List.append_nil]
  | cons localType localTypes ih =>
    have hne : localType ≠ .any := fun h => hany (h ▸ List.mem_cons_self)
    have hrest : .any ∉ localTypes := fun h => hany (List.mem_cons_of_mem _ h)
    unfold localSetsFrom
    by_cases hsame : localSet.type = localType
    · rw [if_neg (not_not_intro hsame), ih (fun h => absurd h hne) hrest, ← hsame]
      simp only [List.replicate_succ', List.append_assoc, List.singleton_append]
    · rw [if_pos hsame, localTypesOf, List.flatMap_append]
      have hnew : localTypesOf (localSetsFrom ⟨1, localType⟩ localTypes) = _ :=
        ih (fun h => absurd h hne) hrest
      unfold localTypesOf at hnew hgrown
      rw [hnew, hgrown localSet hempty]
      rfl

theorem localTypesOf_localSets {localTypes : List ValueType} (hany : .any ∉ localTypes) :
    localTypesOf (localSets localTypes) = localTypes :=
  localTypesOf_localSetsFrom (fun _ => rfl) hany

/-- Local sets are read back as the locals they stand for. -/
theorem parses_serializeLocalSets {localSets : List LocalSet} {localsAccum : Nat}
    {localTypes : List ValueType} {bytes : Bytes}
    (hw : Writer.concat (localSets.map serializeLocalSet) = .ok bytes)
    (hwithin : Within E
      (localsAccum + (localTypesOf localSets).length * 4 ≤ maximumFuncLocalBytes)) :
    Reader.Parses E (serializeLocalSets localSets.length localsAccum localTypes) bytes
      (· = localTypes ++ localTypesOf localSets) := by
  induction localSets generalizing localsAccum localTypes bytes with
  | nil =>
    obtain rfl := Except.ok.inj hw
    exact .pure (List.append_nil localTypes).symm
  | cons localSet localSets ih =>
    obtain ⟨head, tail, hset, hsets, rfl⟩ := Writer.concat_cons_eq_ok.1 hw
    obtain ⟨first, second, hfirst, hsecond, rfl⟩ := Writer.concat_cons_eq_ok.1 hset
    obtain ⟨third, last, hthird, hlast, rfl⟩ := Writer.concat_cons_eq_ok.1 hsecond
    obtain rfl := Except.ok.inj hlast
    have hlength : (localTypesOf (localSet :: localSets)).length =
        localSet.num + (localTypesOf localSets).length := by
      simp [localTypesOf]
    rw [List.append_nil, List.append_assoc]
    refine ((readsBack_serializeVarUInt32 localSet.num).parses hfirst).bind fun num hnum => ?_
    refine ((readsBack_serializeValueType localSet.type).parses hthird).bind fun type htype => ?_
    rw [hnum, htype]
    refine .check (Within.throwIf (hwithin.imp fun hle => ?_) .locals) fun _ _ => ?_
    · simp only [decide_eq_false_iff_not]
      omega
    · refine (ih hsets (hwithin.imp fun hle => by omega)).mono fun read hread => ?_
      rw [hread, List.append_assoc]
      rfl

end LocalSets

/-! ## Code -/

/-- What the encoder relies on: the code is a sequence of operators that use the branch tables in
their order, and no type stands for anything else when it is written. -/
structure WellFormedBody (functionDef : FunctionDef) (ops : List Operator) : Prop where
  code : functionDef.code = encodeOps ops
  blockTypes : ∀ op ∈ ops, ∀ resultType, op.blockType? = some resultType → resultType.toByte ≤ 4
  branchTables : ops.filterMap Operator.branchTable? = List.range functionDef.branchTables.length
  localTypes : .any ∉ functionDef.nonParameterLocalTypes

/-- The number of branch tables that operators use. -/
def numTables (ops : List Operator) : Nat := (ops.filterMap Operator.branchTable?).length

theorem numTables_append_singleton (ops : List Operator) (op : Operator) :
    numTables (ops ++ [op]) = numTables ops + op.branchTable?.toList.length := by
  unfold numTables
  rw [List.filterMap_append, List.length_append]
  cases op <;> rfl

namespace WellFormedBody

variable {functionDef : FunctionDef} {ops before after : List Operator} {op : Operator}

theorem numTables_le (h : WellFormedBody functionDef ops) (hops : ops = before ++ after) :
    numTables before ≤ functionDef.branchTables.length := by
  have hlength := congrArg List.length h.branchTables
  rw [hops, List.filterMap_append, List.length_append, List.length_range] at hlength
  unfold numTables
  omega

/-- An operator uses the table behind those used before. -/
theorem branchTable_eq (h : WellFormedBody functionDef ops) (hops : ops = before ++ op :: after)
    {index : Nat} (hindex : op.branchTable? = some index) : index = numTables before := by
  have hget := congrArg (·[numTables before]?) h.branchTables
  have hhead : (op :: after).filterMap Operator.branchTable? =
      index :: after.filterMap Operator.branchTable? := List.filterMap_cons_some hindex
  simp only [hops, List.filterMap_append, hhead, numTables,
    List.getElem?_append_right (Nat.le_refl _), Nat.sub_self, List.getElem?_cons_zero] at hget
  obtain ⟨hlt, hindex'⟩ := List.getElem?_eq_some_iff.1 hget.symm
  rw [← hindex', List.getElem_range]
  rfl

/-- An operator refers to a table that is there. -/
theorem branchTable_lt (h : WellFormedBody functionDef ops) :
    ∀ op ∈ ops, ∀ index, op.branchTable? = some index → index < functionDef.branchTables.length := by
  intro op hop index hindex
  have hmem : index ∈ ops.filterMap Operator.branchTable? := List.mem_filterMap.2 ⟨op, hop, hindex⟩
  rw [h.branchTables] at hmem
  exact List.mem_range.1 hmem

end WellFormedBody

theorem serializeCode_encodeOps (branchTables : List (List UInt32)) {ops : List Operator}
    {fuel : Nat} (hfuel : ops.length ≤ fuel) :
    Output.serializeCode branchTables fuel (encodeOps ops) =
      Writer.concat (ops.map (Output.serializeOperator branchTables)) := by
  induction ops generalizing fuel with
  | nil => cases fuel <;> rfl
  | cons op ops ih =>
    cases fuel with
    | zero => exact absurd hfuel (Nat.not_succ_le_zero _)
    | succ fuel =>
      have hne : encodeOps (op :: ops) ≠ [] := by
        rw [encodeOps_cons]
        exact fun hnil => op.encode_ne_nil (List.append_eq_nil_iff.1 hnil).1
      rw [Output.serializeCode, if_neg hne, encodeOps_cons, decodeOp_encode]
      change Writer.concat [_, Output.serializeCode branchTables fuel (encodeOps ops)] = _
      rw [ih (Nat.le_of_succ_le_succ hfuel), Writer.concat_singleton_concat, List.map_cons]

theorem serializeOperator_ne_nil (branchTables : List (List UInt32)) (op : Operator) :
    Output.serializeOperator branchTables op ≠ .ok [] := by
  intro hnil
  obtain ⟨head, tail, hopcode, -, happend⟩ := Writer.concat_cons_eq_ok.1 hnil
  obtain ⟨rfl, -⟩ := List.append_eq_nil_iff.1 happend
  unfold Output.serializeOpcode at hopcode
  split at hopcode
  · cases hopcode
  · next hlarge =>
    have hlt := op.opcode.code_lt
    unfold maxSingleByteOpcode at hlarge
    omega

/-- The loop state once `before` has been read from the code of `functionDef`. -/
structure HasReadCode (module : Module) (functionDef : FunctionDef)
    (init : FunctionValidationContext) (before : List Operator) (state : BodyState) : Prop where
  code : state.code = encodeOps before
  branchTables : state.branchTables = functionDef.branchTables.take (numTables before)
  visited : FunctionValidationContext.visitAll module functionDef.branchTables before init =
    .ok ((), state.context)

/-- One operator is read back, and validated as it was in the body it comes from. -/
theorem readsBack_serializeOperator {module : Module} {functionDef : FunctionDef}
    {init : FunctionValidationContext} {ops before after : List Operator} {op : Operator}
    (h : WellFormedBody functionDef ops)
    (hfits : ∀ branchTable ∈ functionDef.branchTables, FitsSize E branchTable.length)
    (hvalid : ∀ e, FunctionValidationContext.visitAll module functionDef.branchTables ops init =
      .error e → E e)
    (hops : ops = before ++ op :: after) {state : BodyState}
    (hstate : HasReadCode module functionDef init before state) :
    ReadsBack E (serializeOperator module state)
      (Output.serializeOperator functionDef.branchTables op)
      (HasReadCode module functionDef init (before ++ [op])) := by
  have hmem : op ∈ ops := by simp [hops]
  have hnext : ops = (before ++ [op]) ++ after := by simp [hops]
  have hle : numTables (before ++ [op]) ≤ functionDef.branchTables.length := h.numTables_le hnext
  refine .bind (readsBack_serializeOpcode op.opcode) fun code hcode => ?_
  rw [hcode, Opcode.ofCode?_code]
  refine .last ?_
  have himm : ReadsBack E
      (serializeImm (functionDef.branchTables.take (numTables before)) op.opcode) _ _ :=
    readsBack_serializeImm hfits (h.blockTypes op hmem)
      fun index hindex => h.branchTable_eq hops hindex
  rw [← hstate.branchTables, ← numTables_append_singleton] at himm
  refine ⟨fun {bytes} hw => ?_⟩
  rw [← List.append_nil bytes]
  refine (himm.parses hw).bind fun read hread => ?_
  rw [hread]
  have htables : ∀ index, op.branchTable? = some index → index < numTables (before ++ [op]) := by
    intro index hindex
    rw [numTables_append_singleton, h.branchTable_eq hops hindex, hindex]
    exact Nat.lt_succ_self _
  have hvisit := FunctionValidationContext.visit_take module hle htables
  change Reader.Parses E (liftM (FunctionValidationContext.visit module
    (functionDef.branchTables.take (numTables (before ++ [op]))) op state.context) >>= _) [] _
  rw [hvisit]
  refine .map (P := fun result => FunctionValidationContext.visit module functionDef.branchTables op
    state.context = .ok result) (.lift ?_) fun result hresult => ?_
  · cases hrun : FunctionValidationContext.visit module functionDef.branchTables op
      state.context with
    | ok result => exact .inl ⟨result, rfl, rfl⟩
    | error e =>
      refine .inr ⟨e, rfl, hvalid e ?_⟩
      rw [hops]
      exact FunctionValidationContext.visitAll_append_cons_eq_error hstate.visited hrun
  · obtain ⟨u, context⟩ := result
    refine ⟨?_, rfl, ?_⟩
    · simp [hstate.code]
    · refine FunctionValidationContext.visitAll_append.2 ⟨state.context, hstate.visited, ?_⟩
      exact bind_eq_ok.2 ⟨(), context, hresult, pure_eq_ok.2 ⟨rfl, rfl⟩⟩

/-! ## Bodies -/

/-- A body is small enough for the decoder. -/
structure BodyWithin (functionDef : FunctionDef) : Prop where
  localSets : (Output.localSets functionDef.nonParameterLocalTypes).length < 1024
  localTypes : functionDef.nonParameterLocalTypes.length * 4 ≤ maximumFuncLocalBytes
  branchTables : ∀ branchTable ∈ functionDef.branchTables,
    branchTable.length < maximumFuncLocalBytes
  bodySize : ∀ bodyBytes, Output.serializeBody functionDef = .ok bodyBytes →
    bodyBytes.length < maximumCodeSize

/-- The declaration of a function, before its body is read. -/
def declaration (functionDef : FunctionDef) : FunctionDef :=
  ⟨functionDef.type, [], [], []⟩

/-- The bytes of a body are fewer than the decoder's limit. -/
def SmallBody (functionDef : FunctionDef) : Prop :=
  ∀ bodyBytes, Output.serializeBody functionDef = .ok bodyBytes →
    bodyBytes.length < maximumCodeSize

/-- The decoder looks at the size of a body before it validates the code. -/
theorem finishes_serializeBody {module : Module} {functionDef : FunctionDef}
    {ops : List Operator} {bodyBytes : Bytes} (h : WellFormedBody functionDef ops)
    (hwithin : Within E (BodyWithin functionDef))
    (hvalid : bodyBytes.length < maximumCodeSize →
      ∀ e, functionDef.validateCode module ops = .error e → E e)
    (hw : Output.serializeBody functionDef = .ok bodyBytes) :
    Reader.Finishes E (serializeBody module (declaration functionDef) bodyBytes.length)
      bodyBytes fun functionDef' => functionDef' = functionDef ∧
        functionDef.Accepts module ops ∧ bodyBytes.length < maximumCodeSize := by
  have hsize : Within E (bodyBytes.length < maximumCodeSize) :=
    hwithin.imp fun hbody => hbody.bodySize bodyBytes hw
  have hfits : ∀ branchTable ∈ functionDef.branchTables, FitsSize E branchTable.length :=
    fun branchTable hmem => (hwithin.imp fun hbody => hbody.branchTables branchTable hmem).fitsSize
  have htypes := localTypesOf_localSets h.localTypes
  obtain ⟨count, rest, hcount, hrest, happend⟩ := Writer.concat_cons_eq_ok.1 hw
  obtain ⟨sets, rest', hsets, hrest', rfl⟩ := Writer.concat_cons_eq_ok.1 hrest
  obtain ⟨code, last, hcode, hlast, rfl⟩ := Writer.concat_cons_eq_ok.1 hrest'
  obtain rfl := Except.ok.inj hlast
  have hops : 2 * ops.length ≤ (encodeOps ops).length := length_le_length_encodeOps ops
  rw [h.code, serializeCode_encodeOps functionDef.branchTables (by omega)] at hcode
  generalize bodyBytes.length = numBodyBytes at hsize hvalid
  rw [← happend, List.append_nil]
  refine .bind ((readsBack_serializeVarUInt32 _).parses hcount) fun numLocalSets hnum => ?_
  rw [hnum]
  refine .check (Within.throwIf (hsize.imp fun hlt => by simpa using hlt) .bodySize)
    fun _ hlimit => ?_
  have hsmall : numBodyBytes < maximumCodeSize := by simpa using hlimit
  have hvisit : ∀ e, FunctionValidationContext.visitAll module functionDef.branchTables ops
      (.init (functionDef.functionType module) functionDef.nonParameterLocalTypes) = .error e →
        E e := by
    intro e herror
    refine hvalid hsmall e ?_
    unfold FunctionDef.validateCode
    rw [herror]
    rfl
  refine .check (Within.throwIf (hwithin.imp fun hbody => by simpa using hbody.localSets)
    .localSets) fun _ _ => ?_
  have hsum : Within E (0 + (localTypesOf (Output.localSets functionDef.nonParameterLocalTypes)
      ).length * 4 ≤ maximumFuncLocalBytes) := by
    rw [htypes, Nat.zero_add]
    exact hwithin.imp fun hbody => hbody.localTypes
  refine .bind (parses_serializeLocalSets hsets hsum) fun localTypes hlocals => ?_
  change localTypes = [] ++ _ at hlocals
  rw [List.nil_append, htypes] at hlocals
  rw [hlocals]
  refine .andThen (Reader.LoopFinishes.loop (ReadsBack.loopFinishes hcode
    (fun op _ => serializeOperator_ne_nil _ op) fun hsplit state hstate =>
      readsBack_serializeOperator h hfits hvisit hsplit hstate) ?_) fun state hstate => ?_
  · exact ⟨rfl, rfl, rfl⟩
  · have hcontext : functionDef.validateCode module ops = state.context.finish := by
      unfold FunctionDef.validateCode
      rw [hstate.visited]
      rfl
    have hall : numTables ops = functionDef.branchTables.length := by
      unfold numTables
      rw [h.branchTables, List.length_range]
    refine .map (P := fun _ => functionDef.Accepts module ops) (.lift ?_) fun _ haccepts => ?_
    · rw [← hcontext, FunctionDef.accepts_iff_validateCode]
      cases hrun : functionDef.validateCode module ops with
      | ok u => exact .inl ⟨u, rfl, rfl⟩
      | error e => exact .inr ⟨e, rfl, hvalid hsmall e hrun⟩
    · refine ⟨?_, haccepts, hsmall⟩
      rw [hstate.code, hstate.branchTables, hall, List.take_length, ← h.code]
      rfl

/-- **A function body** is read back as it was, if the validator accepts it. -/
theorem readsBack_serializeFunctionBody {module : Module} {functionDef : FunctionDef}
    {ops : List Operator} (h : WellFormedBody functionDef ops)
    (hwithin : Within E (BodyWithin functionDef))
    (hvalid : SmallBody functionDef → ∀ e, functionDef.validateCode module ops = .error e → E e) :
    ReadsBack E (serializeFunctionBody module (declaration functionDef))
      (Output.serializeFunctionBody functionDef)
      fun functionDef' => functionDef' = functionDef ∧ functionDef.Accepts module ops ∧
        SmallBody functionDef := by
  refine ⟨fun {bytes} hw => ?_⟩
  obtain ⟨bodyBytes, hbody, hw⟩ := Except.bind_eq_ok.1 hw
  have hsmall : bodyBytes.length < maximumCodeSize → SmallBody functionDef := by
    intro hlt bodyBytes' hbody'
    obtain rfl := Except.ok.inj (hbody.symm.trans hbody')
    exact hlt
  obtain ⟨num, rest, hnum, hrest, rfl⟩ := Writer.concat_cons_eq_ok.1 hw
  obtain ⟨body, last, hbytes, hlast, rfl⟩ := Writer.concat_cons_eq_ok.1 hrest
  obtain rfl := Except.ok.inj hbytes
  obtain rfl := Except.ok.inj hlast
  refine ((readsBack_serializeVarUInt32 _).parses hnum).bind fun numBodyBytes hnum' => ?_
  rw [hnum']
  have hread : Reader.Parses E (advance bodyBytes.length) bodyBytes (· = bodyBytes) :=
    parses_advance rfl
  refine hread.bind fun taken htaken => ?_
  rw [htaken]
  refine .map (P := fun result => result.1 = functionDef ∧ functionDef.Accepts module ops ∧
    SmallBody functionDef) (.lift ?_) fun result hresult => hresult
  rcases finishes_serializeBody h hwithin (fun hlt => hvalid (hsmall hlt)) hbody with
    ⟨read, hread, heq, haccepts, hlt⟩ | herror
  · exact .inl ⟨(read, []), hread, heq, haccepts, hsmall hlt⟩
  · exact .inr herror

end FractalWasm.WASM
