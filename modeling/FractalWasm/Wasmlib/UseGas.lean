import FractalWasm.Control.Metering
import FractalWasm.IR.ControlFlow
import FractalWasm.Wasmlib.Injection

/-!
# The `use_gas` pass is a metering pass

The first injection pass, on the encoding of any operators, produces the encoding of what the
generic metering pass makes of them. Bodies the validator accepted satisfy the conditions of that
pass: they make no charges of their own and their cost fits the literal of a charge.

**The instance** (`gasMeter`): the costs of the gas table, the boundaries of the pass, and a charge
that is a literal and a call of `use_gas`.

**The pass** (`useGasPass_encodeOps`): by induction over the operators, with the segment that is
still open as the state.

**Accepted bodies** (`Accepted`): every body of a decoded module meets the conditions of the pass
(`accepted_of_decoded`).
-/

namespace FractalWasm

open Codec Control IR WASM

namespace WasmInjections

open WasmOps

variable {m : Module}

/-! ## The metering scheme -/

theorem gasTable_le (code : Nat) : gasTable code ≤ 2000 := by
  have hall : ∀ gas ∈ gasTableEntries, gas ≤ 2000 := by decide +kernel
  rw [gasTable, List.getD_eq_getElem?_getD]
  cases hget : gasTableEntries[code]? with
  | none => exact Nat.zero_le _
  | some gas => exact hall gas (List.mem_of_getElem? hget)

/-- The temporary index of `use_gas`, the first index after the functions of the module. -/
def useGasIndex (m : Module) : UInt32 := m.functions.size.toUInt32

/-- The literal an operator pushes. -/
def literal : Operator → Nat
  | .i64Const value => value.toNat
  | _ => 0

/-- The scheme of the `use_gas` pass over the functions of `m`. The two operators of a charge are
free: the literal by the table, and the call because it is not an operator of `m`. -/
def gasMeter (m : Module) : Meter Operator where
  view op := if op = .call (useGasIndex m) then .next else m.action op
  cost op := if op = .call (useGasIndex m) then 0 else gasTable op.opcode.code
  boundary op := endsSegment (some op.opcode)
  push gas := .i64Const gas.toUInt64
  pay := .call (useGasIndex m)
  amount := literal
  limit := 2 ^ 64
  view_push _ := rfl
  view_pay := if_pos rfl
  cost_push _ := rfl
  cost_pay := if_pos rfl
  boundary_push _ := rfl
  boundary_pay := rfl
  push_ne_pay gas h := by cases h
  amount_push gas hlt := by
    simp only [literal, Nat.toUInt64_eq, UInt64.toNat_ofNat']
    exact Nat.mod_eq_of_lt hlt
  straight {op} h := by
    split
    · rfl
    · cases op with
      | call functionIndex =>
        simp only [Module.action, Operator.action_call]
        split <;> rfl
      | block _ | callIndirect _ | unreachable => rfl
      | loop _ | if_ _ | else_ | end_ | br _ | brIf _ | brTable _ _ | return_ => cases h
      | _ => rfl

/-! ## The pass -/

/-- What one round of the pass does to its state. -/
def useGasOp (useGasIdx : UInt32) (state : UseGasState) (op : Operator) : UseGasState :=
  let cached := state.cached.assign (some op.opcode) (fieldOf op)
  let gas := state.gas + gasTable op.opcode.code
  if endsSegment (some op.opcode) then
    let charged :=
      if 0 < gas then packCall useGasIdx (packI64Const gas.toUInt64 state.usegasCode)
      else state.usegasCode
    { cached
      usegasCode := cached.pack (some op.opcode) (charged.set state.tmpStream.get)
      tmpStream := state.tmpStream.rewind
      gas := 0 }
  else { state with cached, gas, tmpStream := cached.pack (some op.opcode) state.tmpStream }

@[simp] theorem get_packCall (index : UInt32) (stream : InstructionStream) :
    (packCall index stream).get = stream.get ++ (Operator.call index).encode := by
  simp [packCall, Field.packed, Operator.encode, Operator.opcode, Operator.immBytes]

@[simp] theorem get_packI64Const (value : UInt64) (stream : InstructionStream) :
    (packI64Const value stream).get = stream.get ++ (Operator.i64Const value).encode := by
  simp [packI64Const, Field.packed, Operator.encode, Operator.opcode, Operator.immBytes]

theorem useGasStep_encode (useGasIdx : UInt32) (state : UseGasState) (op : Operator)
    (rest : Bytes) :
    useGasStep useGasIdx state (op.encode ++ rest) = .ok (useGasOp useGasIdx state op, rest) := by
  refine bind_eq_ok.2 ⟨_, _, decodeOp_encode state.cached op rest, ?_⟩
  by_cases hends : endsSegment (some op.opcode) = true
  · simp only [hends, if_true, useGasOp]
    rfl
  · simp only [hends, useGasOp]
    rfl

theorem useGasOp_of_ends {useGasIdx : UInt32} {state : UseGasState} {op : Operator}
    (hends : endsSegment (some op.opcode) = true) :
    (useGasOp useGasIdx state op).gas = 0 ∧ (useGasOp useGasIdx state op).tmpStream.get = [] ∧
      (useGasOp useGasIdx state op).usegasCode.get =
        state.usegasCode.get ++
          (if 0 < state.gas + gasTable op.opcode.code then
            encodeOps [.i64Const (state.gas + gasTable op.opcode.code).toUInt64, .call useGasIdx]
          else []) ++ state.tmpStream.get ++ op.encode := by
  unfold useGasOp
  rw [if_pos hends]
  refine ⟨rfl, InstructionStream.get_rewind _, ?_⟩
  simp only [get_pack_assign, InstructionStream.get_set]
  split <;> simp

theorem useGasOp_of_not_ends {useGasIdx : UInt32} {state : UseGasState} {op : Operator}
    (hends : endsSegment (some op.opcode) = false) :
    (useGasOp useGasIdx state op).gas = state.gas + gasTable op.opcode.code ∧
      (useGasOp useGasIdx state op).tmpStream.get = state.tmpStream.get ++ op.encode ∧
      (useGasOp useGasIdx state op).usegasCode = state.usegasCode := by
  unfold useGasOp
  rw [if_neg (by simp [hends])]
  exact ⟨rfl, get_pack_assign _ _ _, rfl⟩

/-- The pass emits what the metering pass does, and keeps the operators of an unfinished segment
in its temporary stream. -/
theorem get_foldl_useGasOp {ops buffer : List Operator} {state : UseGasState}
    (hpay : (gasMeter m).pay ∉ ops) (hbuffer : state.tmpStream.get = encodeOps buffer) :
    (ops.foldl (useGasOp (useGasIndex m)) state).usegasCode.get =
      state.usegasCode.get ++ encodeOps ((gasMeter m).insertFrom state.gas buffer ops) := by
  induction ops generalizing state buffer with
  | nil => simp [Meter.insertFrom]
  | cons op ops ih =>
    have hrest : (gasMeter m).pay ∉ ops := fun hmem => hpay (List.mem_cons_of_mem op hmem)
    have hne : op ≠ .call (useGasIndex m) := fun heq => hpay (heq ▸ List.mem_cons_self)
    have hcost : (gasMeter m).cost op = gasTable op.opcode.code := if_neg hne
    rw [List.foldl_cons, Meter.insertFrom, hcost]
    cases hends : endsSegment (some op.opcode) with
    | true =>
      have hboundary : (gasMeter m).boundary op = true := hends
      obtain ⟨hgas, htmp, hcode⟩ := useGasOp_of_ends hends
      have hcharge : ∀ gas, (if 0 < gas then
          encodeOps [.i64Const gas.toUInt64, .call (useGasIndex m)] else []) =
          encodeOps ((gasMeter m).charge gas) := by
        intro gas
        unfold Meter.charge
        split <;> rfl
      have htmp : _ = encodeOps [] := htmp
      rw [if_pos hboundary, ih hrest htmp, hgas, hcode, hbuffer, hcharge]
      simp only [encodeOps_append, encodeOps_cons, List.append_assoc]
    | false =>
      have hboundary : ¬ (gasMeter m).boundary op = true := by simp [gasMeter, hends]
      obtain ⟨hgas, htmp, hcode⟩ := useGasOp_of_not_ends hends
      have hbuffer' : (useGasOp (useGasIndex m) state op).tmpStream.get =
          encodeOps (buffer ++ [op]) := by
        rw [htmp, hbuffer]
        simp
      rw [if_neg hboundary, ih hrest hbuffer', hgas, hcode]

theorem useGasPass_encodeOps {ops : List Operator} (hpay : (gasMeter m).pay ∉ ops)
    (cached : CachedOps) :
    ∃ cached', useGasPass (useGasIndex m) cached (encodeOps ops) =
      .ok (cached', encodeOps ((gasMeter m).insert ops)) := by
  let state : UseGasState := ⟨cached, .ofSize ((encodeOps ops).length * 2), .ofSize 0, 0⟩
  have hloop : Reader.loop (useGasStep (useGasIndex m)) state (encodeOps ops) =
      .ok (ops.foldl (useGasOp (useGasIndex m)) state, []) :=
    Reader.loop_flatMap Operator.encode_ne_nil (useGasStep_encode (useGasIndex m)) ops state
  have htmp : state.tmpStream.get = encodeOps [] := InstructionStream.get_ofSize 0
  have hempty : state.usegasCode.get = [] := InstructionStream.get_ofSize _
  have hcode := get_foldl_useGasOp hpay htmp
  rw [hempty, List.nil_append] at hcode
  refine ⟨(ops.foldl (useGasOp (useGasIndex m)) state).cached, ?_⟩
  refine Except.bind_eq_ok.2 ⟨_, hloop, ?_⟩
  rw [Meter.insert, ← hcode]
  rfl

/-! ## Accepted bodies -/

/-- What the validator's verdict gives the pass: the code encodes operators the metering pass may
be given, they call functions of the module only, and the `end` that closes the function is among
them. -/
structure Accepted (m : Module) (fd : FunctionDef) : Prop where
  code : fd.code = encodeOps fd.operators
  source : (gasMeter m).Source fd.operators
  call_lt : ∀ {functionIndex}, .call functionIndex ∈ fd.operators →
    functionIndex.toNat < m.functions.size
  ends : fd.code = [] ∨ ∃ body, functionBody fd.operators = some body

theorem total_gasMeter_le (m : Module) (ops : List Operator) :
    (gasMeter m).total ops ≤ 2000 * ops.length := by
  induction ops with
  | nil => exact Nat.le_refl 0
  | cons op ops ih =>
    have hcost : (gasMeter m).cost op ≤ 2000 := by
      simp only [gasMeter]
      split
      · exact Nat.zero_le _
      · exact gasTable_le _
    rw [Meter.total_cons, List.length_cons]
    omega

theorem size_lt (hm : Decoded m) : m.functions.size < 2048 := by
  have himports := hm.bounded.imports_lt
  have hdefs := hm.bounded.defs_lt
  unfold Serialization.maximumSectionElements at himports hdefs
  unfold IndexSpace.size
  omega

theorem toNat_useGasIndex (hm : Decoded m) : (useGasIndex m).toNat = m.functions.size := by
  have hlt := size_lt hm
  simp only [useGasIndex, Nat.toUInt32_eq, UInt32.toNat_ofNat']
  exact Nat.mod_eq_of_lt (by omega)

theorem accepted_of_decoded (hm : Decoded m) {fd : FunctionDef}
    (hfd : fd ∈ m.functions.defs) : Accepted m fd := by
  rcases hm.bodiesAccepted fd hfd with hnil | ⟨ops, hcode, hlength, haccepts⟩
  · have hops : fd.operators = [] := by
      rw [FunctionDef.operators, hnil]
      rfl
    refine ⟨?_, ⟨?_, ?_⟩, ?_, .inl hnil⟩
    · rw [hops, hnil, encodeOps_nil]
    · rw [hops]
      exact List.not_mem_nil
    · rw [hops]
      exact Nat.two_pow_pos 64
    · intro functionIndex hmem
      rw [hops] at hmem
      exact absurd hmem List.not_mem_nil
  · have hops : fd.operators = ops := FunctionDef.operators_of_code hcode
    have hcall : ∀ {functionIndex}, .call functionIndex ∈ ops →
        functionIndex.toNat < m.functions.size := fun hmem => haccepts.call_lt hmem
    refine ⟨?_, ⟨?_, ?_⟩, ?_, .inr ?_⟩
    · rw [hops, hcode]
    · rw [hops]
      intro hmem
      have hlt := hcall hmem
      rw [toNat_useGasIndex hm] at hlt
      exact Nat.lt_irrefl _ hlt
    · have hle := total_gasMeter_le m ops
      unfold Serialization.maximumCodeSize at hlength
      rw [hops]
      change (gasMeter m).total ops < 2 ^ 64
      omega
    · rwa [hops]
    · rw [hops]
      exact haccepts.functionBody

end WasmInjections

end FractalWasm
