import Mathlib.Data.List.Pairwise
import FractalWasm.Wasmlib.IndexRemapping

/-!
# Taking the injection back

The injection only inserts charges and replaces operators: a body of the injected module without its
charges, with the operators the injected imports stand for in place of their calls and the other
calls moved back, is the body it was, up to its last boundary. Nothing the function executes lies
behind that.

**One body** (`erase`): the charges are taken out first, as pairs of a literal and the call behind
it, and then each remaining operator is put back (`restore`).

**The proof**: erasing undoes the metering (`withoutCharges_metered`), and restoring undoes the
renaming, since the indices of the intrinsics are distinct and no call of the module's own is one of
them (`restore_rename`).
-/

namespace FractalWasm

open Codec Control IR WASM

namespace WasmInjections

variable {bytes : Bytes} {m : Module}

/-! ## Erasure -/

/-- The operator an injected import stands for. -/
def standsFor? (name : Bytes) : Option NumericOp :=
  numericOps.find? fun op => (replacement? op).map Intrinsic.name = some name

/-- An operator of the injected module, with `k` injected imports, as it was. -/
def restore (m' : Module) (k : Nat) : Operator → Operator
  | .call functionIndex =>
    if functionIndex.toNat < k then
      match (m'.functions.imports[functionIndex.toNat]?).bind fun imp =>
        standsFor? imp.exportName with
      | some op => .numeric op
      | none => .call functionIndex
    else .call (functionIndex - k.toUInt32)
  | op => op

def isI64Const : Operator → Bool
  | .i64Const _ => true
  | _ => false

/-- A body of the injected module as it was: without the literal and the call of each charge, its
operators restored. -/
def erase (m' : Module) (k : Nat) (ops : List Operator) : List Operator :=
  (Meter.withoutCharges isI64Const (.call 0) ops).map (restore m' k)

/-- Different operators are replaced by different intrinsics. -/
theorem eq_of_replacement {op op' : NumericOp} {x : Intrinsic} (h : replacement? op = some x)
    (h' : replacement? op' = some x) : op = op' := by
  have hnodup : (numericOps.filterMap replacement?).Nodup :=
    (List.nodup_cons.1 nodup_names.of_map).2
  have hpairwise := List.pairwise_filterMap.1 hnodup
  by_contra hne
  have hsymm : Std.Symm fun a b : NumericOp =>
      ∀ y, replacement? a = some y → ∀ y', replacement? b = some y' → y ≠ y' :=
    ⟨fun a b hab y hy y' hy' heq => hab y' hy' y hy heq.symm⟩
  exact hpairwise.forall (mem_numericOps op) (mem_numericOps op') hne x h x h' rfl

theorem standsFor?_name {op : NumericOp} {x : Intrinsic} (h : replacement? op = some x) :
    standsFor? x.name = some op := by
  unfold standsFor?
  cases hfind : numericOps.find? fun op => (replacement? op).map Intrinsic.name = some x.name with
  | none =>
    have hnone := List.find?_eq_none.1 hfind op (mem_numericOps op)
    simp [h] at hnone
  | some op' =>
    have hname : (replacement? op').map Intrinsic.name = some x.name := by
      simpa using List.find?_some hfind
    obtain ⟨y, hy, heq⟩ := Option.map_eq_some_iff.1 hname
    have hxy : y = x :=
      eq_of_name_eq (mem_known_of_replacement hy) (mem_known_of_replacement h) heq
    subst hxy
    rw [eq_of_replacement hy h]

/-! ## Bodies up to their last boundary -/

/-- The `end` that closes a function is a boundary. -/
theorem upToEnd_upToBoundary {depth : Nat} {ops body : List Operator}
    (h : upToEnd depth ops = some body) :
    upToEnd depth ((gasMeter m).upToBoundary ops) = some body := by
  induction ops generalizing depth body with
  | nil => cases h
  | cons op ops ih =>
    by_cases hend : op = .end_ ∧ depth = 0
    · obtain ⟨rfl, rfl⟩ := hend
      exact h
    · have hcons : op ≠ .end_ ∨ depth ≠ 0 := by
        by_cases hop : op = .end_
        · exact .inr fun hzero => hend ⟨hop, hzero⟩
        · exact .inl hop
      rw [upToEnd_cons hcons] at h
      obtain ⟨rest, hrest, rfl⟩ := Option.map_eq_some_iff.1 h
      have hkept := ih hrest
      have hstep : (gasMeter m).upToBoundary (op :: ops) =
          op :: (gasMeter m).upToBoundary ops := by
        rw [Meter.upToBoundary]
        split
        · rfl
        · cases hcode : (gasMeter m).upToBoundary ops with
          | nil =>
            rw [hcode] at hkept
            cases hkept
          | cons next code => rfl
      rw [hstep, upToEnd_cons hcons, hkept, Option.map_some]

theorem functionBody_upToBoundary {ops body : List Operator} (h : functionBody ops = some body) :
    functionBody ((gasMeter m).upToBoundary ops) = some body := upToEnd_upToBoundary h

/-! ## The injection is an insertion and a replacement -/

theorem isI64Const_rename (op : Operator) :
    isI64Const (rename m (usedIntrinsics m) op) = isI64Const op := by
  unfold rename
  split
  · unfold rewrite
    cases hx : replaced? op with
    | some x =>
      cases op with
      | numeric op => rfl
      | _ => cases hx
    | none =>
      cases op with
      | call functionIndex =>
        simp only
        split <;> rfl
      | _ => rfl
  · next hscope =>
    cases op with
    | i64Const value => exact absurd rfl hscope
    | _ => rfl

theorem withoutCharges_metered (hm : Decoded m) {fd : FunctionDef} (hfd : fd ∈ m.functions.defs) :
    Meter.withoutCharges isI64Const (gasMeter m).pay (meteredOps m fd) =
      (gasMeter m).upToBoundary fd.operators :=
  Meter.withoutCharges_insert (fun _ => rfl) (accepted_of_decoded hm hfd).source.pay_notMem

namespace Injected

variable {injection : Injection}

/-- The operators of the module come back from what the passes made of them. -/
theorem restore_rename (h : Injected m injection) (hm : Decoded m) {fd : FunctionDef}
    (hfd : fd ∈ m.functions.defs) {op : Operator}
    (hop : op ∈ (gasMeter m).upToBoundary fd.operators) :
    restore injection.module (usedIntrinsics m).length (rename m (usedIntrinsics m) op) = op := by
  have haccepted := accepted_of_decoded hm hfd
  have hsource := Meter.mem_of_mem_upToBoundary hop
  have hmetered : op ∈ meteredOps m fd := by
    rw [← withoutCharges_metered hm hfd] at hop
    exact Meter.mem_of_mem_withoutCharges hop
  rw [rename, if_pos (inScope_of_mem hm hfd hmetered)]
  unfold rewrite
  cases hx : replaced? op with
  | some x =>
    cases op with
    | numeric op =>
      have hmem : x ∈ usedIntrinsics m :=
        mem_foldl_useOp (List.mem_flatMap.2 ⟨fd, hfd, hmetered⟩) hx [useGasIntrinsic]
      have hlt := List.idxOf_lt_length_of_mem hmem
      have hget := List.getElem?_eq_getElem hlt
      rw [List.getElem_idxOf] at hget
      obtain ⟨imp, himp, himport⟩ := h.importOf_used hget
      simp only [restore, h.toNat_idxOf hmem, if_pos hlt, himp, Option.bind_some,
        himport.exportName, standsFor?_name hx]
    | _ => cases hx
  | none =>
    cases op with
    | call functionIndex =>
      have hlt := haccepted.call_lt hsource
      have hpay : functionIndex ≠ useGasIndex m := by
        rintro rfl
        exact haccepted.source.pay_notMem hsource
      have hshifted := h.toNat_shifted hm hlt
      have hnot : ¬ (functionIndex + (usedIntrinsics m).length.toUInt32).toNat <
          (usedIntrinsics m).length := by omega
      simp only [if_neg hpay, restore, if_neg hnot, UInt32.add_sub_cancel]
    | numeric op => rfl
    | _ => rfl

theorem erase_body (h : Injected m injection) (hm : Decoded m) {fd : FunctionDef}
    (hfd : fd ∈ m.functions.defs) :
    erase injection.module (usedIntrinsics m).length
        ((meteredOps m fd).map (rewrite m (usedIntrinsics m))) =
      (gasMeter m).upToBoundary fd.operators := by
  have hrename : (meteredOps m fd).map (rewrite m (usedIntrinsics m)) =
      (meteredOps m fd).map (rename m (usedIntrinsics m)) :=
    List.map_congr_left fun op hop => (if_pos (inScope_of_mem hm hfd hop)).symm
  have hcharges : Meter.withoutCharges isI64Const (.call 0)
      ((meteredOps m fd).map (rename m (usedIntrinsics m))) =
      ((gasMeter m).upToBoundary fd.operators).map (rename m (usedIntrinsics m)) := by
    rw [Meter.withoutCharges_map isI64Const_rename (h.rename_eq_call_zero hm)]
    exact congrArg _ (withoutCharges_metered hm hfd)
  rw [erase, hrename, hcharges, List.map_map]
  calc ((gasMeter m).upToBoundary fd.operators).map _ =
        ((gasMeter m).upToBoundary fd.operators).map id :=
        List.map_congr_left fun op hop => h.restore_rename hm hfd hop
    _ = (gasMeter m).upToBoundary fd.operators := List.map_id _

end Injected

/-- What the injection has done to one function of the module. -/
structure InsertedInto (m m' : Module) (k : Nat) (fd fd' : FunctionDef) : Prop where
  type : fd'.type = fd.type
  locals : fd'.nonParameterLocalTypes = fd.nonParameterLocalTypes
  branchTables : fd'.branchTables = fd.branchTables
  code : ∃ ops ops', operators? fd.code = some ops ∧ operators? fd'.code = some ops' ∧
    erase m' k ops' = (gasMeter m).upToBoundary ops ∧
    functionBody (erase m' k ops') = functionBody ops ∧
    (fd.code = [] ∨ ∃ body, functionBody ops = some body)

/-- The injection is an insertion and a replacement: with the charges deleted, the operators put
back for the injected calls and the other calls moved back, every body is what it was up to the
`end` that closes the function. -/
theorem injection_is_insertion_and_replacement (hdecode : decode bytes = .ok m) (caches : Caches) :
    ∃ injection caches', inject caches m = .ok (injection, caches') ∧
      ∃ k, injection.module.functions.imports.length = k + m.functions.imports.length ∧
        List.Forall₂ (InsertedInto m injection.module k) m.functions.defs
          injection.module.functions.defs := by
  have hm := Decoded.of_decode hdecode
  obtain ⟨injection, caches', hinject, h⟩ := injected_of_decoded hm caches
  refine ⟨injection, caches', hinject, (usedIntrinsics m).length, h.length_imports, ?_⟩
  rw [h.defs]
  apply List.forall₂_map_right_iff.2
  apply List.forall₂_same.2
  intro fd hfd
  have haccepted := accepted_of_decoded hm hfd
  have herase := h.erase_body hm hfd
  have hops : operators? fd.code = some fd.operators := by
    rw [haccepted.code, operators?_encodeOps]
  refine ⟨rfl, rfl, rfl, _, _, hops, operators?_encodeOps _, herase, ?_, haccepted.ends⟩
  rw [herase]
  rcases haccepted.ends with hnil | ⟨body, hbody⟩
  · have hempty : fd.operators = [] := by
      rw [FunctionDef.operators, hnil]
      rfl
    rw [hempty]
    rfl
  · rw [functionBody_upToBoundary hbody, hbody]

theorem injection_is_insertion_and_replacement_sample :
    ∃ injection caches', inject .initial sampleModule = .ok (injection, caches') ∧
      (∃ k, List.Forall₂ (InsertedInto sampleModule injection.module k)
        sampleModule.functions.defs injection.module.functions.defs) ∧
      injection.module.functions.defs.map FunctionDef.operators = [sampleInjected] ∧
      erase injection.module 2 sampleInjected = sampleOps := by
  obtain ⟨injection, caches', hinject, k, -, hall⟩ :=
    injection_is_insertion_and_replacement decode_sampleBytes .initial
  have heval : ((inject .initial sampleModule).map fun result =>
      (result.1.module.functions.defs.map FunctionDef.operators,
        erase result.1.module 2 sampleInjected)).toOption = some ([sampleInjected], sampleOps) := by
    decide +kernel
  rw [hinject] at heval
  have hresult := Option.some.inj heval
  exact ⟨injection, caches', hinject, ⟨k, hall⟩, congrArg Prod.fst hresult,
    congrArg Prod.snd hresult⟩

end WasmInjections

end FractalWasm
