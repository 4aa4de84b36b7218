import FractalWasm.WASM.Sections
import FractalWasm.WASM.Serialize

/-!
# Decoding what was encoded

Each reader of the format reads back what the writer of the same name wrote. The facts are stated
for any set `E` of errors the reader may still fail with, since the decoder limits sizes that the
encoder does not.

**Limits** (`Within`): a bound that holds, or an error in `E` for the check of it.

**Types, entities and operators** (`readsBack_*`): a lemma for each pair of functions. An immediate
is read back by the opcode that was read before it (`readsBack_serializeImm`), and a signed word by
its bits (`wordOfInt_signExtend`).
-/

namespace FractalWasm.WASM

open Codec IR Serialization

/-! ## Limits -/

/-- The errors the decoder refuses a binary with for its size alone. -/
inductive IsLimit : Exception → Prop where
  | size (what : String) (size : Nat) : IsLimit (.fatalSerialization (sizeMessage what size))
  | localSets : IsLimit (.fatalSerialization "too many local sets")
  | locals : IsLimit (.fatalSerialization "too many locals")
  | bodySize : IsLimit (.fatalSerialization "Function body too large")
  | functionImports : IsLimit (.fatalSerialization "Too many function imports")
  | tableImports : IsLimit (.fatalSerialization "Too many table imports")
  | memoryImports : IsLimit (.fatalSerialization "Too many memory imports")
  | globalImports : IsLimit (.fatalSerialization "Too many global imports")
  | functionDefs : IsLimit (.fatalSerialization "Too many function defs")

/-- A condition that a limit demands, unless refusals for size are among the errors in `E`. -/
def Within (E : Exception → Prop) (condition : Prop) : Prop :=
  condition ∨ ∀ e, IsLimit e → E e

namespace Within

variable {E : Exception → Prop} {p q : Prop}

theorem imp (h : Within E p) (himp : p → q) : Within E q := h.imp_left himp

theorem fitsSize {size : Nat} (h : Within E (size < maximumFuncLocalBytes)) : FitsSize E size :=
  Or.imp id (fun hlimits what => hlimits _ (.size what size)) h

theorem throwIf {failed : Bool} {message : String} (h : Within E (failed = false))
    (hlimit : IsLimit (.fatalSerialization message)) :
    Reader.Parses E (throwIf failed message) [] fun _ => failed = false :=
  parses_throwIf (Or.imp id (fun hlimits => hlimits _ hlimit) h)

end Within

/-! ## Types and entities -/

section Entities

variable {E : Exception → Prop}

theorem byteOfInt_int8OfByte (byte : UInt8) : byteOfInt (-Output.int8OfByte (-byte)) = byte := by
  refine UInt8.toNat_inj.1 ?_
  have hlt := byte.toNat_lt
  have hneg : (-byte).toNat = (256 - byte.toNat) % 256 := UInt8.toNat_neg byte
  unfold byteOfInt Output.int8OfByte signExtend
  simp only [hneg]
  rw [toNat_toUInt8 (by omega)]
  split <;> omega

theorem readsBack_serializeValueType (type : ValueType) :
    ReadsBack E serializeValueType (Output.serializeValueType type) (· = type) := by
  refine .map (readsBack_serializeVarInt7 _) fun encodedValueType hencoded => ?_
  rw [hencoded, byteOfInt_int8OfByte, ValueType.ofByte_toByte]

theorem readsBack_serializeResultType (returnType : ResultType) :
    ReadsBack E serializeResultType (Output.serializeResultType returnType) (· = returnType) := by
  unfold Output.serializeResultType
  by_cases hnone : returnType = .none
  · rw [if_pos hnone]
    refine ⟨fun {bytes} hw => ?_⟩
    rw [← List.append_nil bytes]
    refine ((readsBack_serializeVarUInt1 0).parses hw).bind fun arity harity => ?_
    rw [if_pos harity]
    exact .pure hnone.symm
  · rw [if_neg hnone]
    refine .bind (readsBack_serializeVarUInt1 1) fun arity harity => ?_
    rw [if_neg (by omega)]
    refine .last (.map (readsBack_serializeVarInt7 _) fun encodedValueType hencoded => ?_)
    rw [hencoded, byteOfInt_int8OfByte, ResultType.ofByte_toByte]

theorem readsBack_serializeSizeConstraints (size : SizeConstraints) :
    ReadsBack E (serializeSizeConstraints (Output.sizeFlags size % 2 = 1))
      (Output.serializeSizeConstraints size (Output.sizeFlags size % 2 = 1)) (· = size) := by
  obtain ⟨min, max⟩ := size
  unfold serializeSizeConstraints Output.serializeSizeConstraints Output.sizeFlags
  by_cases hmax : max = uint64Max
  · simp only [if_pos hmax]
    refine .map (readsBack_serializeVarUInt32 min) fun read hread => ?_
    rw [hread, hmax]
  · simp only [if_neg hmax]
    refine .bind (readsBack_serializeVarUInt32 min) fun read hread => .last ?_
    refine .map (readsBack_serializeVarUInt32 max) fun read' hread' => ?_
    rw [hread, hread']

theorem readsBack_serializeTableType {type : TableType} (hshared : type.isShared = false) :
    ReadsBack E serializeTableType (Output.serializeTableType type) (· = type) := by
  refine .bind (readsBack_serializeU8 _) fun elementType helement => ?_
  refine .bind (readsBack_serializeVarUInt32 _) fun flags hflags => ?_
  rw [hflags]
  refine .last (.map (readsBack_serializeSizeConstraints type.size) fun size hsize => ?_)
  rw [helement, hsize, TableElementType.ofByte_toByte, ← hshared]

theorem readsBack_serializeMemoryType {type : MemoryType} (hshared : type.isShared = false) :
    ReadsBack E serializeMemoryType (Output.serializeMemoryType type) (· = type) := by
  refine .bind (readsBack_serializeVarUInt32 _) fun flags hflags => ?_
  rw [hflags]
  refine .last (.map (readsBack_serializeSizeConstraints type.size) fun size hsize => ?_)
  rw [hsize, ← hshared]

theorem readsBack_serializeGlobalType (type : GlobalType) :
    ReadsBack E serializeGlobalType (Output.serializeGlobalType type) (· = type) := by
  refine .bind (readsBack_serializeValueType _) fun valueType hvalue => ?_
  refine .last (.map (readsBack_serializeVarUInt1 _) fun isMutable hmutable => ?_)
  obtain ⟨valueType', isMutable'⟩ := type
  rw [hvalue, hmutable]
  cases isMutable' <;> rfl

theorem readsBack_serializeObjectKind (kind : ObjectKind) :
    ReadsBack E serializeObjectKind (Output.serializeObjectKind kind) (· = kind) := by
  refine .map (readsBack_serializeU8 _) fun byte hbyte => ?_
  rw [hbyte, ObjectKind.ofByte_toByte]

/-- A name is valid in both directions. -/
theorem readsBack_throwIfNotValidUTF8 (name : Bytes) :
    ReadsBack E (throwIfNotValidUTF8 name) (Output.throwIfNotValidUTF8 name) fun _ => True := by
  refine ⟨fun {bytes} hw => ?_⟩
  unfold Output.throwIfNotValidUTF8 at hw
  split at hw
  · cases hw
  · next hvalid =>
    obtain rfl := Except.ok.inj hw
    exact parses_throwIfNotValidUTF8 (by simpa using hvalid)

theorem readsBack_serializeExport {e : Export} (h : FitsSize E e.name.length) :
    ReadsBack E serializeExport (Output.serializeExport e) (· = e) := by
  refine .bind (readsBack_serializeString h) fun name hname => ?_
  rw [hname]
  refine .bind (readsBack_throwIfNotValidUTF8 _) fun _ _ => ?_
  refine .bind (readsBack_serializeObjectKind e.kind) fun kind hkind => ?_
  refine .last (.map (readsBack_serializeVarUInt32 e.index) fun index hindex => ?_)
  rw [hkind, hindex]

theorem wordOfInt_signExtend (value : UInt32) : wordOfInt (signExtend 32 value.toNat) = value := by
  refine UInt32.toNat_inj.1 ?_
  have hlt := value.toNat_lt
  unfold wordOfInt signExtend
  rw [Nat.toUInt32_eq, UInt32.toNat_ofNat']
  simp only
  split <;> omega

theorem dwordOfInt_signExtend (value : UInt64) :
    dwordOfInt (signExtend 64 value.toNat) = value := by
  refine UInt64.toNat_inj.1 ?_
  have hlt := value.toNat_lt
  unfold dwordOfInt signExtend
  rw [Nat.toUInt64_eq, UInt64.toNat_ofNat']
  simp only
  split <;> omega

theorem readsBack_serializeInitializerOperand (initializer : InitializerExpression) :
    ReadsBack E (serializeInitializerOperand (Output.initializerType initializer))
      (Output.serializeInitializerOperand initializer) (· = initializer) := by
  cases initializer with
  | i32Const value =>
    refine .map (readsBack_serializeVarInt32 _) fun read hread => ?_
    rw [hread, wordOfInt_signExtend]
  | i64Const value =>
    refine .map (readsBack_serializeVarInt64 _) fun read hread => ?_
    rw [hread, dwordOfInt_signExtend]
  | f32Const bits => exact .map (readsBack_serializeU32 bits) fun read hread => by rw [hread]
  | f64Const bits => exact .map (readsBack_serializeU64 bits) fun read hread => by rw [hread]
  | getGlobal globalIndex =>
    exact .map (readsBack_serializeVarUInt32 globalIndex) fun read hread => by rw [hread]
  | error => exact .error _ _ _

theorem readsBack_serializeInitializer (initializer : InitializerExpression) :
    ReadsBack E serializeInitializer (Output.serializeInitializer initializer)
      (· = initializer) := by
  refine .bind (readsBack_serializeU8 _) fun type htype => ?_
  rw [htype]
  refine .bind (readsBack_serializeInitializerOperand initializer) fun read hread => ?_
  exact .last (.map (readsBack_serializeConstantU8 _ _) fun _ _ => hread)

theorem readsBack_serializeGlobalDef (globalDef : GlobalDef) :
    ReadsBack E serializeGlobalDef (Output.serializeGlobalDef globalDef) (· = globalDef) := by
  refine .bind (readsBack_serializeGlobalType globalDef.type) fun type htype => ?_
  refine .last (.map (readsBack_serializeInitializer _) fun initializer hinitializer => ?_)
  rw [htype, hinitializer]

theorem readsBack_serializeDataSegment {dataSegment : DataSegment}
    (h : FitsSize E dataSegment.data.length) :
    ReadsBack E serializeDataSegment (Output.serializeDataSegment dataSegment)
      (· = dataSegment) := by
  refine .bind (readsBack_serializeVarUInt32 _) fun memoryIndex hmemory => ?_
  refine .bind (readsBack_serializeInitializer _) fun baseOffset hbase => ?_
  refine .last (.map (readsBack_serializeArray h fun i _ => readsBack_serializeU8 i)
    fun data hdata => ?_)
  rw [hmemory, hbase, hdata]

theorem readsBack_serializeTableSegment {tableSegment : TableSegment}
    (h : FitsSize E tableSegment.indices.length) :
    ReadsBack E serializeTableSegment (Output.serializeTableSegment tableSegment)
      (· = tableSegment) := by
  refine .bind (readsBack_serializeVarUInt32 _) fun tableIndex htable => ?_
  refine .bind (readsBack_serializeInitializer _) fun baseOffset hbase => ?_
  refine .last (.map (readsBack_serializeArray h fun i _ => readsBack_serializeVarUInt32 i)
    fun indices hindices => ?_)
  rw [htable, hbase, hindices]

theorem readsBack_serializeFunctionType {type : FunctionType}
    (h : FitsSize E type.parameters.length) :
    ReadsBack E serializeFunctionType (Output.serializeFunctionType type) (· = type) := by
  refine .bind (readsBack_serializeConstantU8 _ _) fun _ _ => ?_
  refine .bind (readsBack_serializeArray h fun parameter _ =>
    readsBack_serializeValueType parameter) fun parameterTypes hparameters => ?_
  refine .last (.map (readsBack_serializeResultType type.ret) fun returnType hreturn => ?_)
  rw [hparameters, hreturn]

end Entities

/-! ## Operators -/

section Operators

variable {E : Exception → Prop}

theorem readsBack_serializeOpcode (opcode : Opcode) :
    ReadsBack E serializeOpcode (Output.serializeOpcode opcode.code) (· = opcode.code) := by
  have hlt := opcode.code_lt
  have hsingle : opcode.code ≤ maxSingleByteOpcode := by
    unfold maxSingleByteOpcode
    omega
  unfold Output.serializeOpcode
  rw [if_pos hsingle]
  refine ⟨fun {bytes} hw => ?_⟩
  rw [← List.append_nil bytes]
  refine ((readsBack_serializeU8 opcode.code.toUInt8).parses hw).bind fun byte hbyte => ?_
  rw [hbyte, toNat_toUInt8 (by omega), if_neg (Nat.not_lt.2 hsingle)]
  exact .pure rfl

theorem readsBack_serializeWord (value : UInt32) :
    ReadsBack E serializeWord (Output.serializeWord value) (· = value) := by
  refine .map (readsBack_serializeVarUInt32 _) fun read hread => ?_
  rw [hread, Nat.toUInt32_eq, UInt32.ofNat_toNat]

theorem int8OfByte_neg_ne {byte : UInt8} (h : byte ≤ 4) : Output.int8OfByte (-byte) ≠ -64 := by
  have hle : byte.toNat ≤ 4 := UInt8.le_iff_toNat_le.1 h
  have hneg : (-byte).toNat = (256 - byte.toNat) % 256 := UInt8.toNat_neg byte
  unfold Output.int8OfByte signExtend
  simp only [hneg]
  split <;> omega

/-- The byte -64 stands for no result, so a stray type may not be encoded as it. -/
theorem readsBack_serializeControlStructureImm {resultType : ResultType}
    (h : resultType.toByte ≤ 4) :
    ReadsBack E serializeImm.controlStructureImm (Output.serializeControlStructureImm resultType)
      (· = resultType) := by
  refine ⟨fun {bytes} hw => ?_⟩
  rw [← List.append_nil bytes]
  refine ((readsBack_serializeVarInt7 _).parses hw).bind fun encoded hencoded => ?_
  by_cases hnone : resultType = .none
  · rw [hencoded, if_pos hnone, if_pos rfl]
    exact .pure hnone.symm
  · rw [if_neg hnone] at hencoded
    rw [hencoded, if_neg (int8OfByte_neg_ne h), byteOfInt_int8OfByte, ResultType.ofByte_toByte]
    exact .pure rfl

/-- A branch table is read back as the next one of the function. -/
theorem readsBack_serializeBranchTableImm {branchTables : List (List UInt32)}
    (hfits : ∀ branchTable ∈ branchTables, FitsSize E branchTable.length)
    (defaultTargetDepth branchTableIndex : UInt64) :
    ReadsBack E (serializeImm (branchTables.take branchTableIndex.toNat) .brTable)
      (Output.serializeBranchTableImm branchTables defaultTargetDepth branchTableIndex)
      (· = (.brTable defaultTargetDepth branchTableIndex,
        branchTables.take (branchTableIndex.toNat + 1))) := by
  refine ⟨fun {bytes} hw => ?_⟩
  obtain ⟨u, hassert, hw⟩ := Except.bind_eq_ok.1 hw
  have hlt : branchTableIndex.toNat < branchTables.length := by simpa using hassert
  have hlength : (branchTables.take branchTableIndex.toNat).length = branchTableIndex.toNat :=
    List.length_take_of_le (Nat.le_of_lt hlt)
  have hget : branchTables.getD branchTableIndex.toNat [] = branchTables[branchTableIndex.toNat] := by
    rw [List.getD_eq_getElem?_getD, List.getElem?_eq_getElem hlt, Option.getD_some]
  rw [hget] at hw
  have hread : ReadsBack E (serializeImm (branchTables.take branchTableIndex.toNat) .brTable)
      (Writer.concat [Output.serializeArray Output.serializeWord branchTables[branchTableIndex.toNat],
        Output.serializeVarUInt32 defaultTargetDepth.toNat])
      (· = (.brTable defaultTargetDepth branchTableIndex,
        branchTables.take (branchTableIndex.toNat + 1))) := by
    refine .bind (readsBack_serializeArray (hfits _ (List.getElem_mem hlt)) fun word _ =>
      readsBack_serializeWord word) fun branchTable htable => ?_
    refine .last (.map (readsBack_serializeVarUInt32 _) fun depth hdepth => ?_)
    rw [htable, hdepth, hlength, List.take_add_one, List.getElem?_eq_getElem hlt]
    simp only [Nat.toUInt64_eq, UInt64.ofNat_toNat, Option.toList_some]
  exact hread.parses hw

/-- An operator is read back behind the branch tables of the operators before it. -/
theorem readsBack_serializeImm {branchTables : List (List UInt32)} {op : Operator} {numTables : Nat}
    (hfits : ∀ branchTable ∈ branchTables, FitsSize E branchTable.length)
    (hblock : ∀ resultType, op.blockType? = some resultType → resultType.toByte ≤ 4)
    (htable : ∀ index, op.branchTable? = some index → index = numTables) :
    ReadsBack E (serializeImm (branchTables.take numTables) op.opcode)
      (Output.serializeImm branchTables op)
      (· = (op, branchTables.take (numTables + op.branchTable?.toList.length))) := by
  have hword : ∀ (f : UInt32 → Operator) (v : UInt32),
      ReadsBack E (serializeWord >>= fun v => pure (f v, branchTables.take numTables) :
        InputReader (Operator × List (List UInt32))) (Output.serializeWord v)
        (· = (f v, branchTables.take numTables)) := by
    intro f v
    exact .map (readsBack_serializeWord v) fun read hread => by rw [hread]
  have halignment : ∀ (f : UInt8 → UInt32 → Operator) (a : UInt8) (v : UInt32),
      ReadsBack E (do
          let alignmentLog2 ← serializeVarUInt7
          return (f alignmentLog2.toUInt8 (← serializeWord), branchTables.take numTables) :
        InputReader (Operator × List (List UInt32)))
        (Writer.concat [Output.serializeVarUInt7 a.toNat, Output.serializeWord v])
        (· = (f a v, branchTables.take numTables)) := by
    intro f a v
    refine .bind (readsBack_serializeVarUInt7 _) fun alignmentLog2 halign => ?_
    refine .last (.map (readsBack_serializeWord v) fun read hread => ?_)
    rw [halign, hread, Nat.toUInt8_eq, UInt8.ofNat_toNat]
  cases op with
  | block resultType =>
    refine .map (readsBack_serializeControlStructureImm (hblock _ rfl)) fun read hread => ?_
    rw [hread]
    rfl
  | loop resultType =>
    refine .map (readsBack_serializeControlStructureImm (hblock _ rfl)) fun read hread => ?_
    rw [hread]
    rfl
  | if_ resultType =>
    refine .map (readsBack_serializeControlStructureImm (hblock _ rfl)) fun read hread => ?_
    rw [hread]
    rfl
  | brTable defaultTargetDepth branchTableIndex =>
    obtain rfl := htable _ rfl
    exact readsBack_serializeBranchTableImm hfits _ _
  | br v | brIf v | call v | getLocal v | setLocal v | teeLocal v | getGlobal v | setGlobal v =>
    exact hword _ v
  | callIndirect type =>
    refine .bind (readsBack_serializeWord type) fun read hread => ?_
    refine .last (.map (readsBack_serializeConstantU8 _ _) fun _ _ => ?_)
    rw [hread]
    rfl
  | load op a v | store op a v => exact halignment _ a v
  | currentMemory | growMemory => exact .map (readsBack_serializeConstantU8 _ _) fun _ _ => rfl
  | i32Const value =>
    refine .map (readsBack_serializeVarInt32 _) fun read hread => ?_
    rw [hread, wordOfInt_signExtend]
    rfl
  | i64Const value =>
    refine .map (readsBack_serializeVarInt64 _) fun read hread => ?_
    rw [hread, dwordOfInt_signExtend]
    rfl
  | f32Const bits => exact .map (readsBack_serializeU32 bits) fun read hread => by rw [hread]; rfl
  | f64Const bits => exact .map (readsBack_serializeU64 bits) fun read hread => by rw [hread]; rfl
  | unreachable | nop | else_ | end_ | return_ | drop | select | numeric _ => exact .pure rfl

end Operators

end FractalWasm.WASM
