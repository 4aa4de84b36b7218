import FractalWasm.WASM.RoundTrip.Modules

/-!
# Encoding what was decoded

What the decoder read can be written again, in no more bytes than it was read from. So no section
and no body of an encoded contract is larger than the one it comes from, and every size the format
writes down is in range again.

**Types and entities** (`reencodes_*`): a lemma for each pair of functions, by the rules of
`Reencodes`. Bytes that name no type are kept as they are.

**Operators** (`RewritesCode`): what the loop over a body has read so far can be written, with the
tables its operators refer to (`RewritesCode.step`).
-/

namespace FractalWasm.WASM

open Codec IR Serialization

/-! ## Types and entities -/

section Entities

theorem byte_cases {byte : UInt8} (h : ¬ 4 < byte) :
    byte = 0 ∨ byte = 1 ∨ byte = 2 ∨ byte = 3 ∨ byte = 4 := by
  have hle : byte.toNat ≤ 4 := UInt8.le_iff_toNat_le.1 (UInt8.not_lt.1 h)
  simp only [← UInt8.toNat_inj]
  change byte.toNat = 0 ∨ byte.toNat = 1 ∨ byte.toNat = 2 ∨ byte.toNat = 3 ∨ byte.toNat = 4
  omega

/-- A byte that names no type is kept as it is. -/
theorem toByte_valueTypeOfByte (byte : UInt8) : (ValueType.ofByte byte).toByte = byte := by
  by_cases h : 4 < byte
  · rw [ValueType.ofByte, dif_pos h]
    rfl
  · rcases byte_cases h with rfl | rfl | rfl | rfl | rfl <;> rfl

theorem toByte_resultTypeOfByte (byte : UInt8) : (ResultType.ofByte byte).toByte = byte := by
  by_cases h : 4 < byte
  · rw [ResultType.ofByte, dif_pos h]
    rfl
  · rcases byte_cases h with rfl | rfl | rfl | rfl | rfl <;> rfl

theorem toByte_objectKindOfByte (byte : UInt8) : (ObjectKind.ofByte byte).toByte = byte := by
  by_cases h : 4 < byte
  · rw [ObjectKind.ofByte, dif_pos h]
    rfl
  · rcases byte_cases h with rfl | rfl | rfl | rfl | rfl <;> rfl

theorem toByte_tableElementTypeOfByte (byte : UInt8) :
    (TableElementType.ofByte byte).toByte = byte := by
  by_cases h : byte = 0x70
  · rw [TableElementType.ofByte, dif_pos h]
    exact h.symm
  · rw [TableElementType.ofByte, dif_neg h]
    rfl

/-- The number that is written for a type is the one it was read from. -/
theorem int8OfByte_byteOfInt {value : Int} (hlow : -64 ≤ value) (hhigh : value < 64) :
    Output.int8OfByte (-byteOfInt (-value)) = value := by
  have hbyte : (byteOfInt (-value)).toNat = (-value % 256).toNat :=
    toNat_toUInt8 (by omega)
  have hneg : (-byteOfInt (-value)).toNat = (256 - (byteOfInt (-value)).toNat) % 256 :=
    UInt8.toNat_neg _
  unfold Output.int8OfByte signExtend
  simp only [hneg, hbyte]
  split <;> omega

/-- What is read has seven bits. -/
theorem returns_serializeVarInt7 :
    Reader.Returns (fun value : Int => -64 ≤ value ∧ value < 64) serializeVarInt7 :=
  returns_serializeVarInt 8 7

/-- The tag of a type is written again as it was. -/
theorem reencodes_serializeValueType :
    Reencodes [] serializeValueType fun type => [Output.serializeValueType type] := by
  refine .bind_of reencodes_serializeVarInt7 returns_serializeVarInt7 fun value hvalue => .pure ?_
  rw [Output.serializeValueType, toByte_valueTypeOfByte, int8OfByte_byteOfInt hvalue.1 hvalue.2]
  rfl

/-- A result type of no result takes one byte, however it was spelled. -/
theorem reencodes_serializeResultType :
    Reencodes [] serializeResultType fun type => [Output.serializeResultType type] := by
  refine ⟨fun {bytes rest type out} hread hpre => ?_⟩
  have hnone : Reencodes [] serializeVarUInt1 fun _ => [Output.serializeVarUInt1 0] :=
    reencodes_serializeVarUInt_le (by decide) fun arity => Nat.zero_le arity
  obtain ⟨arity, t, harity, hrest⟩ := bind_eq_ok.1 hread
  obtain ⟨zero, hzero, hlen⟩ := hnone.fits harity hpre
  by_cases harity0 : arity = 0
  · rw [if_pos harity0] at hrest
    obtain ⟨rfl, rfl⟩ := pure_eq_ok.1 hrest
    exact ⟨zero, hzero, hlen⟩
  · rw [if_neg harity0] at hrest
    obtain ⟨value, t', hvalue, hrest⟩ := bind_eq_ok.1 hrest
    obtain ⟨rfl, rfl⟩ := pure_eq_ok.1 hrest
    have hle := (shrinks_serializeVarInt 8 7).length_le hvalue
    by_cases hresult : ResultType.ofByte (byteOfInt (-value)) = .none
    · refine ⟨zero, ?_, by omega⟩
      rw [Output.serializeResultType, if_pos hresult]
      exact hzero
    · have harity1 : arity = 1 := by
        have hmutable : arity < 2 ^ 1 := (returns_serializeVarUInt 1).holds harity
        omega
      have hrange := returns_serializeVarInt7.holds hvalue
      have hwritten : Reencodes [] serializeVarUInt1 fun arity => [Output.serializeVarUInt1 arity] :=
        reencodes_serializeVarUInt1
      obtain ⟨one, hone, hlen₁⟩ := hwritten.fits harity hpre
      obtain ⟨two, htwo, hlen₂⟩ := reencodes_serializeVarInt7.fits hvalue hpre
      rw [harity1] at hone
      refine ⟨one ++ two ++ [], ?_, ?_⟩
      · rw [Output.serializeResultType, if_neg hresult, toByte_resultTypeOfByte,
          int8OfByte_byteOfInt hrange.1 hrange.2]
        exact Writer.concat_cons_eq_ok.2 ⟨_, [], Writer.concat_append hone htwo, rfl, rfl⟩
      · obtain rfl := Except.ok.inj hpre
        simp only [List.append_nil, List.length_append, List.length_nil] at hlen₁ hlen₂ ⊢
        omega

/-- Bounds of 32 bits are written again, a maximum where there was one. -/
theorem reencodes_serializeSizeConstraints (hasMax : Bool) :
    Reencodes [] (serializeSizeConstraints hasMax)
      fun size => [Output.serializeSizeConstraints size hasMax] := by
  unfold serializeSizeConstraints Output.serializeSizeConstraints
  cases hasMax with
  | false => exact .bind reencodes_serializeVarUInt32 fun min => .pure rfl
  | true =>
    refine .single (.bind reencodes_serializeVarUInt32 fun min => ?_)
    exact .bind reencodes_serializeVarUInt32 fun max => .pure rfl

/-- Whether a maximum was read is what the flags that are written say. -/
theorem returns_serializeSizeConstraints (hasMax : Bool) :
    Reader.Returns (fun size => Output.sizeFlags size = if hasMax then 1 else 0)
      (serializeSizeConstraints hasMax) := by
  unfold serializeSizeConstraints
  cases hasMax with
  | false => exact .bind fun min => .pure rfl
  | true =>
    refine .bind fun min => .bind_of (returns_serializeVarUInt 32) fun max hmax => .pure ?_
    have hne : max ≠ uint64Max := by
      unfold uint64Max
      omega
    exact if_neg hne

/-- The flags and the sizes behind them. -/
theorem reencodes_sized {α : Type} {pre : List OutputWriter} {put : SizeConstraints → α}
    {ws : α → List OutputWriter}
    (hws : ∀ size, ws (put size) = pre ++ [Output.serializeVarUInt32 (Output.sizeFlags size),
      Output.serializeSizeConstraints size (Output.sizeFlags size % 2 = 1)]) :
    Reencodes pre (do
        let flags ← serializeVarUInt32
        let size ← serializeSizeConstraints (flags % 2 = 1)
        return put size) ws := by
  have hflags : Reencodes [] serializeVarUInt32
      fun flags => [Output.serializeVarUInt32 (flags % 2)] :=
    reencodes_serializeVarUInt_le (by decide) fun flags => Nat.mod_le flags 2
  refine .bind hflags fun flags => ?_
  refine .bind_of (reencodes_serializeSizeConstraints _) (returns_serializeSizeConstraints _)
    fun size hsize => .pure ?_
  rw [hws]
  have hmod : Output.sizeFlags size = flags % 2 := by
    rw [hsize]
    split <;> simp_all
  have hmod' : Output.sizeFlags size % 2 = flags % 2 := by omega
  simp only [hmod, Nat.mod_mod, List.append_assoc, List.singleton_append]

theorem reencodes_serializeTableType :
    Reencodes [] serializeTableType fun type => [Output.serializeTableType type] := by
  refine .single (.bind reencodes_serializeU8 fun elementType => reencodes_sized fun size => ?_)
  rw [toByte_tableElementTypeOfByte]
  rfl

theorem reencodes_serializeMemoryType :
    Reencodes [] serializeMemoryType fun type => [Output.serializeMemoryType type] :=
  .single (reencodes_sized fun _ => rfl)

theorem reencodes_serializeGlobalType :
    Reencodes [] serializeGlobalType fun type => [Output.serializeGlobalType type] := by
  have hmutable : Reader.Returns (· < 2 ^ 1) serializeVarUInt1 := returns_serializeVarUInt 1
  refine .single (.bind reencodes_serializeValueType fun valueType => ?_)
  refine .bind_of reencodes_serializeVarUInt1 hmutable fun isMutable hlt => .pure ?_
  have hcases : isMutable = 0 ∨ isMutable = 1 := by omega
  rcases hcases with rfl | rfl <;> rfl

theorem reencodes_serializeObjectKind :
    Reencodes [] serializeObjectKind fun kind => [Output.serializeObjectKind kind] := by
  refine .bind reencodes_serializeU8 fun byte => .pure ?_
  rw [Output.serializeObjectKind, toByte_objectKindOfByte]
  rfl

/-- The check passes only well-formed names. -/
theorem returns_throwIfNotValidUTF8 (name : Bytes) :
    Reader.Returns (fun _ => validateString name = []) (throwIfNotValidUTF8 name) :=
  (returns_throwIf _ _).mono fun _ h => by simpa using h

/-- It passes them again when they are written. -/
theorem throwIfNotValidUTF8_eq_ok {name : Bytes} (h : validateString name = []) :
    Output.throwIfNotValidUTF8 name = .ok [] := by
  rw [Output.throwIfNotValidUTF8, h]
  rfl

theorem reencodes_serializeExport :
    Reencodes [] serializeExport fun e => [Output.serializeExport e] := by
  refine .single (.bind reencodes_serializeString fun name => ?_)
  refine .check (shrinks_throwIf _ _) (returns_throwIfNotValidUTF8 name) fun _ hvalid => ?_
  refine .skip (throwIfNotValidUTF8_eq_ok hvalid) ?_
  refine .bind reencodes_serializeObjectKind fun kind => ?_
  exact .bind reencodes_serializeVarUInt32 fun index => .pure rfl

/-- The word of a number in range is that number. -/
theorem signExtend_wordOfInt {value : Int} (hlow : -2 ^ 31 ≤ value) (hhigh : value < 2 ^ 31) :
    signExtend 32 (wordOfInt value).toNat = value := by
  unfold wordOfInt signExtend
  rw [Nat.toUInt32_eq, UInt32.toNat_ofNat']
  simp only
  split <;> omega

theorem signExtend_dwordOfInt {value : Int} (hlow : -2 ^ 63 ≤ value) (hhigh : value < 2 ^ 63) :
    signExtend 64 (dwordOfInt value).toNat = value := by
  unfold dwordOfInt signExtend
  rw [Nat.toUInt64_eq, UInt64.toNat_ofNat']
  simp only
  split <;> omega

theorem returns_serializeVarInt32 :
    Reader.Returns (fun value : Int => -2 ^ 31 ≤ value ∧ value < 2 ^ 31) serializeVarInt32 :=
  returns_serializeVarInt 32 32

theorem returns_serializeVarInt64 :
    Reader.Returns (fun value : Int => -2 ^ 63 ≤ value ∧ value < 2 ^ 63) serializeVarInt64 :=
  returns_serializeVarInt 64 64

theorem reencodes_serializeInitializerOperand (type : UInt8) :
    Reencodes [] (serializeInitializerOperand type)
      fun initializer => [Output.serializeInitializerOperand initializer] := by
  unfold serializeInitializerOperand
  split
  · refine .bind_of reencodes_serializeVarInt32 returns_serializeVarInt32 fun value hvalue => .pure ?_
    rw [Output.serializeInitializerOperand, signExtend_wordOfInt hvalue.1 hvalue.2]
    rfl
  split
  · refine .bind_of reencodes_serializeVarInt64 returns_serializeVarInt64 fun value hvalue => .pure ?_
    rw [Output.serializeInitializerOperand, signExtend_dwordOfInt hvalue.1 hvalue.2]
    rfl
  split
  · exact .bind reencodes_serializeU32 fun bits => .pure rfl
  split
  · exact .bind reencodes_serializeU64 fun bits => .pure rfl
  split
  · exact .bind reencodes_serializeVarUInt32 fun globalIndex => .pure rfl
  · exact .throw _ _

theorem returns_initializerType (type : UInt8) :
    Reader.Returns (fun initializer => Output.initializerType initializer = type)
      (serializeInitializerOperand type) := by
  unfold serializeInitializerOperand
  split
  · next h => exact .bind fun _ => .pure h.symm
  split
  · next h => exact .bind fun _ => .pure h.symm
  split
  · next h => exact .bind fun _ => .pure h.symm
  split
  · next h => exact .bind fun _ => .pure h.symm
  split
  · next h => exact .bind fun _ => .pure h.symm
  · exact .throw _

/-- The opcode of an initializer follows from what it is. -/
theorem reencodes_serializeInitializer :
    Reencodes [] serializeInitializer
      fun initializer => [Output.serializeInitializer initializer] := by
  refine .single (.bind reencodes_serializeU8 fun type => ?_)
  refine .bind_of (reencodes_serializeInitializerOperand type) (returns_initializerType type)
    fun initializer htype => ?_
  refine .bind (reencodes_serializeConstantU8 _ _) fun _ => .pure ?_
  rw [htype]
  rfl

theorem reencodes_serializeGlobalDef :
    Reencodes [] serializeGlobalDef fun globalDef => [Output.serializeGlobalDef globalDef] := by
  refine .single (.bind reencodes_serializeGlobalType fun type => ?_)
  exact .bind reencodes_serializeInitializer fun initializer => .pure rfl

theorem reencodes_serializeDataSegment :
    Reencodes [] serializeDataSegment
      fun dataSegment => [Output.serializeDataSegment dataSegment] := by
  refine .single (.bind reencodes_serializeVarUInt32 fun memoryIndex => ?_)
  refine .bind reencodes_serializeInitializer fun baseOffset => ?_
  exact .bind (reencodes_serializeArray reencodes_serializeU8) fun data => .pure rfl

/-- The indices of a segment are written again one by one. -/
theorem reencodes_serializeTableSegment :
    Reencodes [] serializeTableSegment
      fun tableSegment => [Output.serializeTableSegment tableSegment] := by
  refine .single (.bind reencodes_serializeVarUInt32 fun tableIndex => ?_)
  refine .bind reencodes_serializeInitializer fun baseOffset => ?_
  exact .bind (reencodes_serializeArray reencodes_serializeVarUInt32) fun indices => .pure rfl

theorem reencodes_serializeFunctionType :
    Reencodes [] serializeFunctionType fun type => [Output.serializeFunctionType type] := by
  refine .single (.bind (reencodes_serializeConstantU8 _ _) fun _ => ?_)
  refine .bind (reencodes_serializeArray reencodes_serializeValueType) fun parameterTypes => ?_
  exact .bind reencodes_serializeResultType fun returnType => .pure rfl

end Entities

/-! ## Operators -/

section Operators

/-- What is read has 32 bits. -/
theorem returns_serializeVarUInt32 :
    Reader.Returns (fun value : Nat => value < 2 ^ 32) serializeVarUInt32 :=
  returns_serializeVarUInt 32

theorem reencodes_serializeWord :
    Reencodes [] serializeWord fun word => [Output.serializeWord word] := by
  refine .bind_of reencodes_serializeVarUInt32 returns_serializeVarUInt32 fun value hlt => .pure ?_
  rw [Output.serializeWord, Nat.toUInt32_eq, UInt32.toNat_ofNat', Nat.mod_eq_of_lt hlt]
  rfl

/-- An operator of the language has a one-byte opcode. -/
theorem serializeOpcode_code (opcode : Opcode) :
    Output.serializeOpcode opcode.code = .ok [opcode.code.toUInt8] := by
  have hlt := opcode.code_lt
  unfold Output.serializeOpcode maxSingleByteOpcode
  rw [if_pos (by omega)]
  rfl

theorem reencodes_controlStructureImm :
    Reencodes [] serializeImm.controlStructureImm
      fun resultType => [Output.serializeControlStructureImm resultType] := by
  have hwritten : ∀ value : Int, -64 ≤ value → value < 64 →
      -64 ≤ (if ResultType.ofByte (byteOfInt (-value)) = .none then -64 else value) ∧
        (if ResultType.ofByte (byteOfInt (-value)) = .none then -64 else value) < 64 := by
    intro value hlow hhigh
    split <;> omega
  refine .bind_of (reencodes_serializeVarInt7_of hwritten) returns_serializeVarInt7
    fun value hvalue => ?_
  by_cases hnone : value = -64
  · rw [if_pos hnone]
    refine .pure ?_
    rw [hnone]
    rfl
  · rw [if_neg hnone]
    refine .pure ?_
    rw [Output.serializeControlStructureImm, toByte_resultTypeOfByte,
      int8OfByte_byteOfInt hvalue.1 hvalue.2]
    rfl

/-- What reading the immediate of an operator does to the branch tables. -/
structure ReadImm (branchTables : List (List UInt32)) (opcode : Opcode)
    (result : Operator × List (List UInt32)) : Prop where
  opcode_eq : result.1.opcode = opcode
  extended : ∃ new, result.2 = branchTables ++ new ∧
    new.length = result.1.branchTable?.toList.length ∧
      ∀ branchTable ∈ new, branchTable.length < maximumFuncLocalBytes
  index : ∀ index, result.1.branchTable? = some index → index = branchTables.length

/-- An operator without a branch table leaves the tables alone. -/
theorem ReadImm.of_plain {branchTables : List (List UInt32)} {op : Operator} {opcode : Opcode}
    (hop : op.opcode = opcode) (h : op.branchTable? = none) :
    ReadImm branchTables opcode (op, branchTables) := by
  refine ⟨hop, ⟨[], ?_, ?_, ?_⟩, ?_⟩
  · exact (List.append_nil branchTables).symm
  · rw [h]
    rfl
  · exact fun branchTable hmem => absurd hmem List.not_mem_nil
  · intro index hindex
    rw [h] at hindex
    cases hindex

/-- The immediate of an opcode is that of an operator with this opcode; a `br_table` refers to the
table added for it. -/
theorem returns_serializeImm {branchTables : List (List UInt32)}
    (hlength : branchTables.length < 2 ^ 64) (opcode : Opcode) :
    Reader.Returns (ReadImm branchTables opcode) (serializeImm branchTables opcode) := by
  cases opcode with
  | brTable =>
    refine .bind_of (returns_serializeArray _) fun branchTable hshort => .bind fun _ => .pure ?_
    have hindex : branchTables.length.toUInt64.toNat = branchTables.length := by
      rw [Nat.toUInt64_eq, UInt64.toNat_ofNat', Nat.mod_eq_of_lt hlength]
    refine ⟨rfl, ⟨[branchTable], rfl, rfl, ?_⟩, ?_⟩
    · intro table hmem
      rw [List.mem_singleton.1 hmem]
      exact hshort
    · intro index h
      exact (Option.some.inj h).symm.trans hindex
  | callIndirect | load _ | store _ => exact .bind fun _ => .bind fun _ => .pure (.of_plain rfl rfl)
  | unreachable | nop | else_ | end_ | return_ | drop | select | numeric _ =>
    exact .pure (.of_plain rfl rfl)
  | _ => exact .bind fun _ => .pure (.of_plain rfl rfl)

/-- The immediate of an operator is written with the tables its function has so far. -/
theorem reencodes_serializeImm {branchTables : List (List UInt32)}
    (hlength : branchTables.length < 2 ^ 64) (opcode : Opcode) :
    Reencodes [] (serializeImm branchTables opcode)
      fun result => [Output.serializeImm result.2 result.1] := by
  have hword : ∀ f : UInt32 → Operator,
      (∀ v, Output.serializeImm branchTables (f v) = Output.serializeWord v) →
      Reencodes [] (serializeWord >>= fun v => pure (f v, branchTables) :
        InputReader (Operator × List (List UInt32)))
        fun result => [Output.serializeImm result.2 result.1] := by
    intro f hf
    refine .bind reencodes_serializeWord fun v => .pure ?_
    rw [hf]
    rfl
  have hlt : Reader.Returns (· < 2 ^ 7) serializeVarUInt7 := returns_serializeVarUInt 7
  have halignment : ∀ f : UInt8 → UInt32 → Operator,
      (∀ a v, Output.serializeImm branchTables (f a v) =
        Writer.concat [Output.serializeVarUInt7 a.toNat, Output.serializeWord v]) →
      Reencodes [] (do
          let alignmentLog2 ← serializeVarUInt7
          return (f alignmentLog2.toUInt8 (← serializeWord), branchTables) :
        InputReader (Operator × List (List UInt32)))
        fun result => [Output.serializeImm result.2 result.1] := by
    intro f hf
    refine .bind_of reencodes_serializeVarUInt7 hlt fun alignmentLog2 halign => ?_
    refine .bind reencodes_serializeWord fun v => .pure_of_concat ?_
    rw [Writer.concat_singleton, hf, toNat_toUInt8 (Nat.lt_trans halign (by decide))]
    rfl
  have hconstant : ∀ (op : Operator) (message : String),
      Output.serializeImm branchTables op = Output.serializeU8 0 →
      Reencodes [] (do
          serializeConstantU8 message 0
          return (op, branchTables) : InputReader (Operator × List (List UInt32)))
        fun result => [Output.serializeImm result.2 result.1] := by
    intro op message hop
    refine .bind (reencodes_serializeConstantU8 message 0) fun _ => .pure ?_
    rw [hop]
    rfl
  have hplain : ∀ op : Operator, Output.serializeImm branchTables op = .ok [] →
      Reencodes [] (pure (op, branchTables) : InputReader (Operator × List (List UInt32)))
        fun result => [Output.serializeImm result.2 result.1] := by
    intro op hop
    apply Reencodes.pure_of_concat
    rw [hop]
    rfl
  cases opcode with
  | block | loop | if_ => exact .bind reencodes_controlStructureImm fun resultType => .pure rfl
  | br | brIf | call | getLocal | setLocal | teeLocal | getGlobal | setGlobal =>
    exact hword _ fun v => rfl
  | brTable =>
    refine .bind (reencodes_serializeArray reencodes_serializeWord) fun branchTable => ?_
    refine .bind_of reencodes_serializeVarUInt32 returns_serializeVarUInt32
      fun defaultTargetDepth hdepth => .pure_of_concat ?_
    have hdepth' : defaultTargetDepth.toUInt64.toNat = defaultTargetDepth := by
      rw [Nat.toUInt64_eq, UInt64.toNat_ofNat', Nat.mod_eq_of_lt (by omega)]
    have hindex : branchTables.length.toUInt64.toNat = branchTables.length := by
      rw [Nat.toUInt64_eq, UInt64.toNat_ofNat', Nat.mod_eq_of_lt hlength]
    have hget : (branchTables ++ [branchTable]).getD branchTables.length [] = branchTable := by
      rw [List.getD_eq_getElem?_getD, List.getElem?_append_right (Nat.le_refl _), Nat.sub_self]
      rfl
    have hbound : decide (branchTables.length < (branchTables ++ [branchTable]).length) = true := by
      simp
    rw [Writer.concat_singleton]
    simp only [Output.serializeImm, Output.serializeBranchTableImm, hindex, hget, hbound, hdepth']
    rfl
  | callIndirect =>
    refine .bind reencodes_serializeWord fun type => ?_
    exact .bind (reencodes_serializeConstantU8 _ _) fun _ => .pure_of_concat
      (Writer.concat_singleton _)
  | load op | store op => exact halignment _ fun a v => rfl
  | currentMemory | growMemory => exact hconstant _ _ rfl
  | i32Const =>
    refine .bind_of reencodes_serializeVarInt32 returns_serializeVarInt32 fun v hv => .pure ?_
    rw [Output.serializeImm, signExtend_wordOfInt hv.1 hv.2]
    rfl
  | i64Const =>
    refine .bind_of reencodes_serializeVarInt64 returns_serializeVarInt64 fun v hv => .pure ?_
    rw [Output.serializeImm, signExtend_dwordOfInt hv.1 hv.2]
    rfl
  | f32Const => exact .bind reencodes_serializeU32 fun bits => .pure rfl
  | f64Const => exact .bind reencodes_serializeU64 fun bits => .pure rfl
  | unreachable | nop | else_ | end_ | return_ | drop | select | numeric _ => exact hplain _ rfl

/-- The tables behind those an operator may use do not matter to the encoder. -/
theorem serializeOperator_extend {branchTables all : List (List UInt32)} {op : Operator}
    (hextends : branchTables <+: all)
    (hop : ∀ index, op.branchTable? = some index → index < branchTables.length) :
    Output.serializeOperator all op = Output.serializeOperator branchTables op := by
  obtain ⟨new, rfl⟩ := hextends
  cases op with
  | brTable defaultTargetDepth branchTableIndex =>
    have hlt : branchTableIndex.toNat < branchTables.length := hop _ rfl
    have hget : (branchTables ++ new).getD branchTableIndex.toNat [] =
        branchTables.getD branchTableIndex.toNat [] := by
      rw [List.getD_eq_getElem?_getD, List.getD_eq_getElem?_getD, List.getElem?_append_left hlt]
    have hlt' : branchTableIndex.toNat < (branchTables ++ new).length := by
      rw [List.length_append]
      omega
    simp only [Output.serializeOperator, Output.serializeImm, Output.serializeBranchTableImm, hget,
      hlt, hlt']
  | _ => rfl

/-- The code read so far can be written again: in at most the bytes it was read from, whatever
tables the rest of the body adds. -/
structure RewritesCode (total : Nat) (ops : List Operator) (state : BodyState) (bytes : Bytes) :
    Prop where
  code : state.code = encodeOps ops
  indices : ops.filterMap Operator.branchTable? = List.range state.branchTables.length
  short : ∀ branchTable ∈ state.branchTables, branchTable.length < maximumFuncLocalBytes
  count : ops.length + bytes.length ≤ total
  written : ∃ out, Writer.concat (ops.map (Output.serializeOperator state.branchTables)) = .ok out ∧
    out.length + bytes.length ≤ total

namespace RewritesCode

variable {total : Nat} {ops : List Operator} {state : BodyState} {bytes : Bytes}

/-- There are no more tables than operators, so their number is in range. -/
theorem length_branchTables_le (h : RewritesCode total ops state bytes) :
    state.branchTables.length ≤ total := by
  have hlength := congrArg List.length h.indices
  rw [List.length_range] at hlength
  have hle : (ops.filterMap Operator.branchTable?).length ≤ ops.length :=
    List.length_filterMap_le _ _
  have hcount := h.count
  omega

/-- An operator refers to a table that is there. -/
theorem index_lt (h : RewritesCode total ops state bytes) {op : Operator} (hmem : op ∈ ops)
    {index : Nat} (hindex : op.branchTable? = some index) : index < state.branchTables.length := by
  have hrange : index ∈ ops.filterMap Operator.branchTable? :=
    List.mem_filterMap.2 ⟨op, hmem, hindex⟩
  rw [h.indices] at hrange
  exact List.mem_range.1 hrange

/-- One operator read is one operator that can be written again, in no more bytes. -/
theorem step (h : RewritesCode total ops state bytes) (htotal : total < 2 ^ 64) {module : Module}
    {state' : BodyState} {rest : Bytes}
    (hread : serializeOperator module state bytes = .ok (state', rest)) :
    ∃ op, RewritesCode total (ops ++ [op]) state' rest := by
  have hlength : state.branchTables.length < 2 ^ 64 :=
    Nat.lt_of_le_of_lt h.length_branchTables_le htotal
  have hconsumes := (consumes_serializeOperator module state).length_lt hread
  obtain ⟨code, t, hcode, hrest⟩ := bind_eq_ok.1 hread
  cases hop : Opcode.ofCode? code with
  | none =>
    simp only [hop] at hrest
    exact (throwFatal_eq_ok.1 hrest).elim
  | some opcode =>
    simp only [hop] at hrest
    obtain ⟨⟨op, branchTables⟩, t', himm, hrest⟩ := bind_eq_ok.1 hrest
    obtain ⟨⟨u, context⟩, t'', hlift, hrest⟩ := bind_eq_ok.1 hrest
    obtain ⟨-, rfl⟩ := lift_eq_ok.1 hlift
    obtain ⟨rfl, rfl⟩ := pure_eq_ok.1 hrest
    have hspec := (returns_serializeImm hlength opcode).holds himm
    obtain ⟨new, hnew, hnewlen, hshort⟩ := hspec.extended
    obtain rfl : branchTables = state.branchTables ++ new := hnew
    refine ⟨op, ?_, ?_, ?_, ?_, ?_⟩
    · change state.code ++ op.encode = _
      rw [h.code, encodeOps_append, encodeOps_cons, encodeOps_nil, List.append_nil]
    · change _ = List.range (state.branchTables ++ new).length
      rw [List.filterMap_append, h.indices, List.length_append, hnewlen]
      cases hindex : op.branchTable? with
      | none =>
        rw [List.filterMap_cons_none hindex]
        exact List.append_nil _
      | some index =>
        rw [List.filterMap_cons_some hindex, hspec.index index hindex]
        exact List.range_succ.symm
    · intro branchTable hmem
      rcases List.mem_append.1 hmem with hmem | hmem
      · exact h.short branchTable hmem
      · exact hshort branchTable hmem
    · have hcount := h.count
      rw [List.length_append, List.length_singleton]
      omega
    · obtain ⟨out, hout, hlen⟩ := h.written
      obtain ⟨imm, himm', himmlen⟩ := (reencodes_serializeImm hlength opcode).fits himm rfl
      rw [Writer.concat_singleton] at himm'
      have hcodelen := consumes_serializeOpcode.length_lt hcode
      have hops : ops.map (Output.serializeOperator (state.branchTables ++ new)) =
          ops.map (Output.serializeOperator state.branchTables) := by
        apply List.map_congr_left
        intro op' hmem
        exact serializeOperator_extend (List.prefix_append _ _) fun index => h.index_lt hmem
      have hlast : Writer.concat ([op].map (Output.serializeOperator (state.branchTables ++ new))) =
          .ok (op.opcode.code.toUInt8 :: imm) := by
        rw [List.map_singleton, Writer.concat_singleton, Output.serializeOperator,
          serializeOpcode_code, himm']
        exact congrArg Except.ok (congrArg (_ :: ·) (List.append_nil imm))
      refine ⟨out ++ op.opcode.code.toUInt8 :: imm, ?_, ?_⟩
      · rw [List.map_append, hops]
        exact Writer.concat_append hout hlast
      · simp only [List.length_append, List.length_cons, List.length_nil] at himmlen ⊢
        omega

end RewritesCode

end Operators

end FractalWasm.WASM
