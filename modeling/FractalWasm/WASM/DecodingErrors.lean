import FractalWasm.IR.ValidationErrors
import FractalWasm.WASM.Decoded

/-!
# What decoding fails with

Every error of the decoder is a `FatalSerializationException` or a `ValidationException`. Its
assertions hold: a `br_table` refers to the table that was just stored, and a user section has read
the bytes it was given.

The lemmas follow the decoder from the stream up to the module (`raises_serializeModule`), with one
for each function of `WASM/WASMSerialization.cpp` and the rules of `RaisesIn` between them. The
validator's errors are among those of the decoder (`isMalformed_of_isInvalid`), since bodies are
validated while they are read.
-/

namespace FractalWasm.WASM

open Codec IR Serialization

/-- The two exceptions of the decoder. -/
inductive IsMalformed : Exception → Prop where
  | fatalSerialization (message : String) : IsMalformed (.fatalSerialization message)
  | validation (message : String) : IsMalformed (.validation message)

/-- The validator's exceptions are among those of the decoder. -/
theorem isMalformed_of_isInvalid {e : Exception} (h : IsInvalid e) : IsMalformed e := by
  cases h
  exact .validation _

/-! ## The input stream -/

/-- The decoder's own exception. -/
theorem raises_throwFatal {α : Type} (message : String) :
    RaisesIn IsMalformed (throwFatal message : InputReader α) :=
  .throw (.fatalSerialization message)

/-- A failed check throws the decoder's exception. -/
theorem raises_throwIf (failed : Bool) (message : String) :
    RaisesIn IsMalformed (throwIf failed message) :=
  .ite (raises_throwFatal _) (.pure _)

/-- Reading past the end of the stream throws. -/
theorem raises_advance (numBytes : Nat) : RaisesIn IsMalformed (advance numBytes) :=
  .bind .get fun _ => .bind (raises_throwIf _ _) fun _ => .bind (.set _) fun _ => .pure _

theorem raises_peekByte : RaisesIn IsMalformed peekByte :=
  .bind .get fun _ => .bind (raises_throwIf _ _) fun _ => .pure _

/-- A run of bytes too long for the library, or for the stream. -/
theorem raises_serializeBytes (numBytes : Nat) : RaisesIn IsMalformed (serializeBytes numBytes) :=
  .ite (raises_advance _) (raises_throwFatal _)

theorem raises_serializeU8 : RaisesIn IsMalformed serializeU8 :=
  .bind (raises_serializeBytes _) fun _ => .pure _

theorem raises_serializeU32 : RaisesIn IsMalformed serializeU32 :=
  .bind (raises_serializeBytes _) fun _ => .pure _

theorem raises_serializeU64 : RaisesIn IsMalformed serializeU64 :=
  .bind (raises_serializeBytes _) fun _ => .pure _

/-- Only the end of the stream interrupts the rounds. -/
theorem raises_varIntBytes (maxBytes : Nat) : RaisesIn IsMalformed (varIntBytes maxBytes) := by
  induction maxBytes with
  | zero => exact .pure _
  | succ maxBytes ih =>
    exact .bind (raises_advance 1) fun _ => .ite (.pure _) (.bind ih fun _ => .pure _)

/-- Too few bytes, unused bits that are set, or a number out of range. -/
theorem raises_serializeVarUInt (maxBits : Nat) : RaisesIn IsMalformed (serializeVarUInt maxBits) :=
  .bind (raises_varIntBytes _) fun _ => .bind (raises_throwIf _ _) fun _ =>
    .bind (raises_throwIf _ _) fun _ => .pure _

theorem raises_serializeVarInt (width maxBits : Nat) :
    RaisesIn IsMalformed (serializeVarInt width maxBits) :=
  .bind (raises_varIntBytes _) fun _ => .bind (raises_throwIf _ _) fun _ =>
    .bind (raises_throwIf _ _) fun _ => .pure _

/-- Another byte than the expected one. -/
theorem raises_serializeConstantU8 (message : String) (constant : UInt8) :
    RaisesIn IsMalformed (serializeConstantU8 message constant) :=
  .bind raises_serializeU8 fun _ => raises_throwIf _ _

theorem raises_serializeConstantU32 (message : String) (constant : UInt32) :
    RaisesIn IsMalformed (serializeConstantU32 message constant) :=
  .bind raises_serializeU32 fun _ => raises_throwIf _ _

/-- The length, its limit, or the bytes. -/
theorem raises_serializeString : RaisesIn IsMalformed serializeString :=
  .bind (raises_serializeVarUInt _) fun _ => .bind (raises_advance _) fun _ =>
    .bind (raises_throwIf _ _) fun _ => .pure _

/-- An array fails with what its elements fail with, or on its length. -/
theorem raises_serializeArray {α : Type} {r : InputReader α} (hr : RaisesIn IsMalformed r) :
    RaisesIn IsMalformed (serializeArray r) :=
  .bind (raises_serializeVarUInt _) fun _ => .bind (raises_throwIf _ _) fun _ => hr.many _

/-! ## Types and entities -/

theorem raises_serializeValueType : RaisesIn IsMalformed serializeValueType :=
  .bind (raises_serializeVarInt _ _) fun _ => .pure _

/-- An arity other than zero or one is no `VarUInt1`. -/
theorem raises_serializeResultType : RaisesIn IsMalformed serializeResultType :=
  .bind (raises_serializeVarUInt _) fun _ =>
    .ite (.pure _) (.bind (raises_serializeVarInt _ _) fun _ => .pure _)

theorem raises_serializeSizeConstraints (hasMax : Bool) :
    RaisesIn IsMalformed (serializeSizeConstraints hasMax) :=
  .bind (raises_serializeVarUInt _) fun _ =>
    .ite (.bind (raises_serializeVarUInt _) fun _ => .pure _) (.pure _)

theorem raises_serializeTableType : RaisesIn IsMalformed serializeTableType :=
  .bind raises_serializeU8 fun _ => .bind (raises_serializeVarUInt _) fun _ =>
    .bind (raises_serializeSizeConstraints _) fun _ => .pure _

theorem raises_serializeMemoryType : RaisesIn IsMalformed serializeMemoryType :=
  .bind (raises_serializeVarUInt _) fun _ =>
    .bind (raises_serializeSizeConstraints _) fun _ => .pure _

theorem raises_serializeGlobalType : RaisesIn IsMalformed serializeGlobalType :=
  .bind raises_serializeValueType fun _ => .bind (raises_serializeVarUInt _) fun _ => .pure _

theorem raises_serializeObjectKind : RaisesIn IsMalformed serializeObjectKind :=
  .bind raises_serializeU8 fun _ => .pure _

theorem raises_serializeExport : RaisesIn IsMalformed serializeExport :=
  .bind raises_serializeString fun _ => .bind (raises_throwIf _ _) fun _ =>
    .bind raises_serializeObjectKind fun _ => .bind (raises_serializeVarUInt _) fun _ => .pure _

theorem raises_serializeInitializerOperand (type : UInt8) :
    RaisesIn IsMalformed (serializeInitializerOperand type) :=
  .ite (.bind (raises_serializeVarInt _ _) fun _ => .pure _) <|
  .ite (.bind (raises_serializeVarInt _ _) fun _ => .pure _) <|
  .ite (.bind raises_serializeU32 fun _ => .pure _) <|
  .ite (.bind raises_serializeU64 fun _ => .pure _) <|
  .ite (.bind (raises_serializeVarUInt _) fun _ => .pure _) (raises_throwFatal _)

/-- An unknown opcode, a bad operand, or another operator than `end` behind it. -/
theorem raises_serializeInitializer : RaisesIn IsMalformed serializeInitializer :=
  .bind raises_serializeU8 fun _ => .bind (raises_serializeInitializerOperand _) fun _ =>
    .bind (raises_serializeConstantU8 _ _) fun _ => .pure _

theorem raises_serializeGlobalDef : RaisesIn IsMalformed serializeGlobalDef :=
  .bind raises_serializeGlobalType fun _ => .bind raises_serializeInitializer fun _ => .pure _

theorem raises_serializeDataSegment : RaisesIn IsMalformed serializeDataSegment :=
  .bind (raises_serializeVarUInt _) fun _ => .bind raises_serializeInitializer fun _ =>
    .bind (raises_serializeArray raises_serializeU8) fun _ => .pure _

theorem raises_serializeTableSegment : RaisesIn IsMalformed serializeTableSegment :=
  .bind (raises_serializeVarUInt _) fun _ => .bind raises_serializeInitializer fun _ =>
    .bind (raises_serializeArray (raises_serializeVarUInt _)) fun _ => .pure _

/-- The tag, the parameters and the result. -/
theorem raises_serializeFunctionType : RaisesIn IsMalformed serializeFunctionType :=
  .bind (raises_serializeConstantU8 _ _) fun _ =>
    .bind (raises_serializeArray raises_serializeValueType) fun _ =>
    .bind raises_serializeResultType fun _ => .pure _

/-! ## Operators -/

/-- An opcode of one or two bytes. -/
theorem raises_serializeOpcode : RaisesIn IsMalformed serializeOpcode :=
  .bind raises_serializeU8 fun _ =>
    .ite (.bind raises_serializeU8 fun _ => .pure _) (.pure _)

theorem raises_serializeWord : RaisesIn IsMalformed serializeWord :=
  .bind (raises_serializeVarUInt _) fun _ => .pure _

/-- The result type of a block. -/
theorem raises_controlStructureImm : RaisesIn IsMalformed serializeImm.controlStructureImm :=
  .bind (raises_serializeVarInt _ _) fun _ => .ite (.pure _) (.pure _)

/-- Immediates by the class of the opcode; the reserved bytes must be zero. -/
theorem raises_serializeImm (branchTables : List (List UInt32)) (opcode : Opcode) :
    RaisesIn IsMalformed (serializeImm branchTables opcode) := by
  cases opcode with
  | block | loop | if_ => exact .bind raises_controlStructureImm fun _ => .pure _
  | brTable =>
    exact .bind (raises_serializeArray raises_serializeWord) fun _ =>
      .bind (raises_serializeVarUInt _) fun _ => .pure _
  | callIndirect =>
    exact .bind raises_serializeWord fun _ => .bind (raises_serializeConstantU8 _ _) fun _ => .pure _
  | load op | store op =>
    exact .bind (raises_serializeVarUInt _) fun _ => .bind raises_serializeWord fun _ => .pure _
  | currentMemory | growMemory => exact .bind (raises_serializeConstantU8 _ _) fun _ => .pure _
  | i32Const | i64Const => exact .bind (raises_serializeVarInt _ _) fun _ => .pure _
  | f32Const => exact .bind raises_serializeU32 fun _ => .pure _
  | f64Const => exact .bind raises_serializeU64 fun _ => .pure _
  | unreachable | nop | else_ | end_ | return_ | drop | select | numeric op => exact .pure _
  | _ => exact .bind raises_serializeWord fun _ => .pure _

/-- A `br_table` refers to a table that is there. -/
theorem returns_serializeImm_branchTable (branchTables : List (List UInt32)) (opcode : Opcode) :
    Reader.Returns
      (fun result => ∀ index, result.1.branchTable? = some index → index < result.2.length)
      (serializeImm branchTables opcode) := by
  have hplain : ∀ op : Operator, op.branchTable? = none →
      ∀ index, op.branchTable? = some index → index < branchTables.length := by
    intro op hnone index hindex
    rw [hnone] at hindex
    cases hindex
  cases opcode with
  | brTable =>
    refine .bind fun branchTable => .bind fun _ => .pure fun index hindex => ?_
    cases hindex
    have hmod : branchTables.length.toUInt64.toNat ≤ branchTables.length := by
      rw [Nat.toUInt64_eq, UInt64.toNat_ofNat']
      exact Nat.mod_le _ _
    rw [List.length_append, List.length_singleton]
    exact Nat.lt_succ_of_le hmod
  | callIndirect | load _ | store _ =>
    exact .bind fun _ => .bind fun _ => .pure (hplain _ rfl)
  | unreachable | nop | else_ | end_ | return_ | drop | select | numeric _ =>
    exact .pure (hplain _ rfl)
  | _ => exact .bind fun _ => .pure (hplain _ rfl)

/-- An operator that is unknown, malformed or refused by the validator. The assertion on `br_table`
holds, since the table was stored just before. -/
theorem raises_serializeOperator (module : Module) (state : BodyState) :
    RaisesIn IsMalformed (serializeOperator module state) := by
  apply RaisesIn.bind raises_serializeOpcode
  intro opcode
  cases Opcode.ofCode? opcode with
  | none => exact raises_throwFatal _
  | some opcode =>
    apply RaisesIn.bind_of (raises_serializeImm _ _) (returns_serializeImm_branchTable _ _)
    rintro ⟨op, branchTables⟩ htable
    have hvisit := FunctionValidationContext.raises_visit module htable
    exact .bind (.lift ((hvisit.errors _).mono fun _ => isMalformed_of_isInvalid)) fun _ => .pure _

/-! ## Function bodies -/

/-- Sets of locals that are too many or too large. -/
theorem raises_serializeLocalSets (numLocalSets localsAccum : Nat) (localTypes : List ValueType) :
    RaisesIn IsMalformed (serializeLocalSets numLocalSets localsAccum localTypes) := by
  induction numLocalSets generalizing localsAccum localTypes with
  | zero => exact .pure _
  | succ numLocalSets ih =>
    exact .bind (raises_serializeVarUInt _) fun _ => .bind raises_serializeValueType fun _ =>
      .bind (raises_throwIf _ _) fun _ => ih _ _

/-- A reader on bytes of its own fails as it does on the stream. -/
theorem raises_onBytes {α : Type} {r : InputReader α} (hr : RaisesIn IsMalformed r)
    (bytes : Bytes) : RaisesIn IsMalformed (onBytes bytes r) :=
  .lift (hr.errors bytes)

/-- The last check of a body: its control stack is empty. -/
theorem errors_finish (context : FunctionValidationContext) :
    ErrorsIn IsInvalid context.finish :=
  .ite (.error (.validation _)) (.ok _)

/-- A body whose size, locals or code is refused. -/
theorem raises_serializeBody (module : Module) (functionDef : FunctionDef) (numBodyBytes : Nat) :
    RaisesIn IsMalformed (serializeBody module functionDef numBodyBytes) :=
  .bind (raises_serializeVarUInt _) fun _ => .bind (raises_throwIf _ _) fun _ =>
    .bind (raises_throwIf _ _) fun _ => .bind (raises_serializeLocalSets _ _ _) fun _ =>
    .bind (.loop (raises_serializeOperator module) _) fun _ =>
    .bind (.lift ((errors_finish _).mono fun _ => isMalformed_of_isInvalid)) fun _ => .pure _

/-- The bodies in the order of the function section. -/
theorem raises_serializeFunctionBodies (module : Module) (functionDefs : List FunctionDef) :
    RaisesIn IsMalformed (serializeFunctionBodies module functionDefs) := by
  induction functionDefs with
  | nil => exact .pure _
  | cons functionDef functionDefs ih =>
    have hbody : RaisesIn IsMalformed (serializeFunctionBody module functionDef) :=
      .bind (raises_serializeVarUInt _) fun _ => .bind (raises_advance _) fun _ =>
        .bind (raises_onBytes (raises_serializeBody _ _ _) _) fun _ => .pure _
    exact .bind hbody fun _ => .bind ih fun _ => .pure _

/-! ## Sections -/

/-- A section fails with what its body fails with, or on bytes that are left over. -/
theorem raises_serializeSection {α : Type} {sectionBody : InputReader α}
    (hbody : RaisesIn IsMalformed sectionBody) :
    RaisesIn IsMalformed (serializeSection sectionBody) :=
  .bind (raises_advance _) fun _ => .bind (raises_serializeVarUInt _) fun _ =>
    .bind (raises_advance _) fun _ => .bind (raises_onBytes hbody _) fun _ =>
    .bind (raises_throwIf _ _) fun _ => .pure _

/-- The limits on the number of imports throw the same exception as a malformed import. -/
theorem raises_serializeImport (module : Module) :
    RaisesIn IsMalformed (serializeImport module) := by
  refine .bind raises_serializeString fun _ => .bind raises_serializeString fun _ =>
    .bind (raises_throwIf _ _) fun _ => .bind (raises_throwIf _ _) fun _ =>
    .bind raises_serializeObjectKind fun kind => ?_
  cases kind with
  | function =>
    exact .bind (raises_serializeVarUInt _) fun _ => .bind (raises_throwIf _ _) fun _ =>
      .bind (raises_throwIf _ _) fun _ => .pure _
  | table =>
    exact .bind raises_serializeTableType fun _ => .bind (raises_throwIf _ _) fun _ => .pure _
  | memory =>
    exact .bind raises_serializeMemoryType fun _ => .bind (raises_throwIf _ _) fun _ => .pure _
  | global =>
    exact .bind raises_serializeGlobalType fun _ => .bind (raises_throwIf _ _) fun _ => .pure _
  | _ => exact raises_throwFatal _

theorem raises_serializeImports (size : Nat) (module : Module) :
    RaisesIn IsMalformed (serializeImports size module) := by
  induction size generalizing module with
  | zero => exact .pure _
  | succ size ih => exact .bind (raises_serializeImport _) fun _ => ih _

/-- A section that is an array and nothing else. -/
theorem raises_arraySection {α : Type} {element : InputReader α}
    (helement : RaisesIn IsMalformed element) (update : List α → Module) :
    RaisesIn IsMalformed (serializeSection do return update (← serializeArray element)) :=
  raises_serializeSection (.bind (raises_serializeArray helement) fun _ => .pure _)

/-- A type index out of range, or too many functions. -/
theorem raises_serializeFunctionSection (module : Module) :
    RaisesIn IsMalformed (serializeFunctionSection module) := by
  have hdeclaration : RaisesIn IsMalformed (serializeFunctionDeclaration module) :=
    .bind (raises_serializeVarUInt _) fun _ => .bind (raises_throwIf _ _) fun _ => .pure _
  exact raises_serializeSection (.bind (raises_serializeVarUInt _) fun _ =>
    .bind (raises_throwIf _ _) fun _ => .bind (hdeclaration.many _) fun _ => .pure _)

/-- Another number of bodies than of declared functions. -/
theorem raises_serializeCodeSection (module : Module) :
    RaisesIn IsMalformed (serializeCodeSection module) :=
  raises_serializeSection (.bind (raises_serializeVarUInt _) fun _ =>
    .bind (raises_throwIf _ _) fun _ =>
    .bind (raises_serializeFunctionBodies _ _) fun _ => .pure _)

/-- The eleven known sections, each by its reader. -/
theorem raises_serializeKnownSection (sectionType : UInt8) (module : Module) :
    RaisesIn IsMalformed (serializeKnownSection sectionType module) := by
  unfold serializeKnownSection
  split
  · exact raises_arraySection raises_serializeFunctionType _
  · exact raises_serializeSection (.bind (raises_serializeVarUInt _) (raises_serializeImports · _))
  · exact raises_serializeFunctionSection _
  · exact raises_arraySection raises_serializeTableType _
  · exact raises_arraySection raises_serializeMemoryType _
  · exact raises_arraySection raises_serializeGlobalDef _
  · exact raises_arraySection raises_serializeExport _
  · exact raises_serializeSection (.bind (raises_serializeVarUInt _) fun _ => .pure _)
  · exact raises_arraySection raises_serializeTableSegment _
  · exact raises_serializeCodeSection _
  · exact raises_arraySection raises_serializeDataSegment _
  · exact raises_throwFatal _

/-- A run of bytes as long as what remains takes all of it. -/
theorem rest_eq_nil_of_serializeBytes {bytes rest data : Bytes}
    (h : serializeBytes bytes.length bytes = .ok (data, rest)) : rest = [] := by
  obtain ⟨-, happend, hlength⟩ := serializeBytes_eq_ok.1 h
  have hlengths := congrArg List.length happend
  rw [List.length_append, hlength] at hlengths
  exact List.eq_nil_of_length_eq_zero (by omega)

/-- A name that is no UTF-8; the assertion behind it holds, since the data takes up the rest of the
section. -/
theorem raises_serializeUserSection (module : Module) :
    RaisesIn IsMalformed (serializeUserSection module) := by
  refine .bind (raises_serializeConstantU8 _ _) fun _ => .bind (raises_serializeVarUInt _) fun _ =>
    .bind (raises_advance _) fun sectionBytes => ?_
  refine .bind_of (P := fun result => result.2.length = 0) (raises_onBytes ?_ _) ⟨?_⟩ ?_
  · exact .bind raises_serializeString fun _ => .bind (raises_throwIf _ _) fun _ =>
      .bind .get fun _ => .bind (raises_serializeBytes _) fun _ => .pure _
  · intro bytes rest result h
    obtain ⟨hread, -⟩ := lift_eq_ok.1 h
    obtain ⟨name, t, -, hread⟩ := bind_eq_ok.1 hread
    obtain ⟨_, t', -, hread⟩ := bind_eq_ok.1 hread
    obtain ⟨left, t', hget, hread⟩ := bind_eq_ok.1 hread
    obtain ⟨rfl, rfl⟩ := get_eq_ok.1 hget
    obtain ⟨data, t, hdata, hread⟩ := bind_eq_ok.1 hread
    obtain ⟨-, hleft⟩ := pure_eq_ok.1 hread
    rw [← hleft, rest_eq_nil_of_serializeBytes hdata]
    rfl
  · rintro ⟨userSection, rest⟩ hlength
    have hassert : ErrorsIn IsMalformed
        (wavmAssertThrow (rest.length = 0) "!sectionStream.capacity()") :=
      (errors_wavmAssertThrow (decide_eq_true hlength) _).mono fun _ => isMalformed_of_isInvalid
    exact .bind (.lift hassert) fun _ => .pure _

/-! ## Modules -/

/-- **Decoding.** Whatever the bytes are, decoding succeeds or throws one of the two exceptions. -/
theorem raises_serializeModule : RaisesIn IsMalformed serializeModule := by
  have hsection : ∀ state, RaisesIn IsMalformed (serializeNextSection state) := fun state =>
    .bind raises_peekByte fun _ => .ite
      (.bind (raises_serializeUserSection _) fun _ => .pure _)
      (.bind (raises_throwIf _ _) fun _ => .bind (raises_serializeKnownSection _ _) fun _ => .pure _)
  exact .bind (raises_serializeConstantU32 _ _) fun _ =>
    .bind (raises_serializeConstantU32 _ _) fun _ => .bind (.loop hsection _) fun _ => .pure _

/-- The decoder throws no other exceptions, whatever the bytes are. -/
theorem errors_decode (bytes : Bytes) : ErrorsIn IsMalformed (decode bytes) :=
  .bind (raises_serializeModule.errors bytes) fun (module, _) =>
    .bind ((errors_validateDefinitions module).mono fun _ => isMalformed_of_isInvalid) fun _ =>
      .pure _

end FractalWasm.WASM
