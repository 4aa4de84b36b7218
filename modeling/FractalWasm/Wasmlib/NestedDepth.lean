import FractalWasm.IR.ClosingEnd
import FractalWasm.IR.ControlFlow
import FractalWasm.WASM.RoundTrip.DecodedModules
import FractalWasm.Wasmlib.Erasure
import FractalWasm.Wasmlib.Validation
import Mathlib.Data.List.Induction
import Mathlib.Data.List.Infix

/-!
# How deep structures nest

`nested_validator` bounds the nesting of structures by a counter that all bodies share. An `else`
raises it and nothing lowers it again; the `end` that closes a function lowers it or, at zero, raises
it.

**The counter** (`Nesting`): it is the number of open structures plus a drift, which is carried from
one body to the next. `nested_depth_exceeded_iff` follows it through the pass, by induction over the
operators of all bodies (`foldlM_validateOp_iff`).

**The module** (`Tally`): what can be counted in the operators themselves. The drift is at most the
number of `else` arms and function ends so far (`drift_le`), and without a function end it is the
number of arms (`drift_eq_arms`).

**The verdict** (`nested_depth_exact_within`): it is right for a module that nests too deep in front of
any offset that is too large, and for one that does not nest too deep and has room for its arms and
functions. For a single complete body that is all.
-/

namespace FractalWasm

open Codec IR Serialization WASM WasmOps WasmInjections

/-- A load or store at an offset no memory reaches. -/
def IR.Operator.largeOffset : Operator → Bool
  | load _ _ offset | store _ _ offset => maximumLinearMemory ≤ offset.toNat
  | _ => false

namespace WasmValidations

/-! ## The counter -/

/-- How many structures are open, and by how much the counter is off: each `else` adds one, and the
end of a function takes one away or, if there is none, adds one. -/
structure Nesting where
  depth : Nat
  drift : Nat
  deriving DecidableEq, Repr

namespace Nesting

def next (n : Nesting) : Operator → Nesting
  | .else_ => { n with drift := n.drift + 1 }
  | .end_ =>
    if 0 < n.depth then { n with depth := n.depth - 1 }
    else { n with drift := if n.drift = 0 then 1 else n.drift - 1 }
  | op => { n with depth := n.depth + op.opens }

/-- The nesting behind some operators. -/
def after (ops : List Operator) : Nesting := ops.foldl next ⟨0, 0⟩

/-- The counter. -/
def counter (n : Nesting) : Nat := n.depth + n.drift

end Nesting

/-- Over the bodies in their order, the counter gets to 1024 in front of the first offset that is too
large. -/
def CountsDeep (m : Module) : Prop :=
  ∃ before, before <+: m.functions.defs.flatMap FunctionDef.operators ∧
    (∀ op ∈ before, op.largeOffset = false) ∧ 1024 ≤ (Nesting.after before).counter

/-! ## What a module nests -/

/-- How many structures are open behind some operators, and how many `else` arms and function ends
are among them. An `end` with no structure open is that of a function. -/
structure Tally where
  depth : Nat
  arms : Nat
  ends : Nat
  deriving DecidableEq, Repr

namespace Tally

def next (t : Tally) : Operator → Tally
  | .else_ => { t with arms := t.arms + 1 }
  | .end_ =>
    if 0 < t.depth then { t with depth := t.depth - 1 } else { t with ends := t.ends + 1 }
  | op => { t with depth := t.depth + op.opens }

end Tally

def tally (ops : List Operator) : Tally := ops.foldl Tally.next ⟨0, 0, 0⟩

/-- Some body has 1024 structures or more open. -/
def NestsDeep (m : Module) : Prop :=
  ∃ fd ∈ m.functions.defs, ∃ before, before <+: fd.operators ∧ 1024 ≤ (tally before).depth

/-- Over the bodies in their order, 1024 structures are open in front of the first offset that is too
large. -/
def ReachesDepth (m : Module) : Prop :=
  ∃ before, before <+: m.functions.defs.flatMap FunctionDef.operators ∧
    (∀ op ∈ before, op.largeOffset = false) ∧ 1024 ≤ (tally before).depth

/-- The operators that raise the counter. -/
def raises : Operator → Bool
  | .block _ | .loop _ | .if_ _ | .else_ => true
  | _ => false

/-- Wherever a structure or an arm starts in front of the first offset that is too large, the open
structures, the `else` arms and the functions that have ended leave room for it. -/
def StaysShallow (m : Module) : Prop :=
  ∀ before op, before ++ [op] <+: m.functions.defs.flatMap FunctionDef.operators →
    (∀ other ∈ before, other.largeOffset = false) → raises op = true →
      (tally before).depth + (tally before).arms + (tally before).ends + 1 < 1024

/-- What `nested_validator` throws. -/
def nestedDepthExceeded : Exception := .ftl .wasmRuntime "Nested depth exceeded"

/-! ## One operator -/

/-- One round of the loop over a body, of an operator. -/
def validateOp (statics : OpConstrainers) (op : Operator) : Except Exception OpConstrainers :=
  visit (some op.opcode)
    { statics with cached := statics.cached.assign (some op.opcode) (fieldOf op) }

/-- A step of the decoder on an encoded operator is the check of that operator. -/
theorem validateStep_encode (statics : OpConstrainers) (op : Operator) (rest : Bytes) :
    validateStep statics (op.encode ++ rest) = (validateOp statics op).map (·, rest) := by
  change (decodeOp statics.cached (op.encode ++ rest)).bind (fun result =>
    (liftM (visit result.1.1 { statics with cached := result.1.2 }) :
      Reader Exception OpConstrainers) result.2) = _
  rw [WasmOps.decodeOp_encode]
  change (liftM (validateOp statics op) : Reader Exception OpConstrainers) rest = _
  cases validateOp statics op with
  | error e => rfl
  | ok statics' => rfl

/-- The state of the validator agrees with a nesting. -/
structure Follows (n : Nesting) (statics : OpConstrainers) : Prop where
  disabled : statics.disabled = false
  depth : statics.depth.toNat = n.counter
  lt : n.counter < 1024

/-- What the visitors make of an operator. -/
inductive Verdict (n : Nesting) (op : Operator) : Except Exception OpConstrainers → Prop
  | large (hlarge : op.largeOffset = true) {e : Exception} (he : e ≠ nestedDepthExceeded) :
      Verdict n op (.error e)
  | deep (hsmall : op.largeOffset = false) (hdeep : 1024 ≤ (n.next op).counter) :
      Verdict n op (.error nestedDepthExceeded)
  | ok (hsmall : op.largeOffset = false) {statics : OpConstrainers}
      (hfollows : Follows (n.next op) statics) : Verdict n op (.ok statics)

variable {n : Nesting} {statics : OpConstrainers}

/-- `nested_validator` on an operator that raises the counter. -/
theorem verdict_deeper {op : Operator} (h : Follows n statics) {slot : Slot}
    (hslot : ¬ (slot = some .end_ ∧ 0 < statics.depth))
    (hcounter : (n.next op).counter = n.counter + 1) (hsmall : op.largeOffset = false) :
    Verdict n op (nestedValidator slot statics) := by
  have hone : (statics.depth + 1).toNat = n.counter + 1 := by
    have hlt := h.lt
    have hvalue : (1 : UInt16).toNat = 1 := rfl
    rw [UInt16.toNat_add, h.depth, hvalue, Nat.mod_eq_of_lt (by omega)]
  have hbound : statics.depth + 1 < 1024 ↔ n.counter + 1 < 1024 := by
    rw [UInt16.lt_iff_toNat_lt, hone]
    rfl
  unfold nestedValidator
  rw [h.disabled, if_neg Bool.false_ne_true, if_neg hslot]
  dsimp only
  by_cases hlt : n.counter + 1 < 1024
  · rw [ftlAssert, if_pos (decide_eq_true (hbound.2 hlt))]
    exact .ok hsmall ⟨rfl, by rw [hcounter, ← hone], by omega⟩
  · rw [ftlAssert, if_neg (by simpa [hbound] using hlt)]
    exact .deep hsmall (by omega)

/-- `nested_validator` on the `end` of a structure or a function. -/
theorem verdict_end (h : Follows n statics) :
    Verdict n .end_ (nestedValidator (some .end_) statics) := by
  have hdepth := h.depth
  have hlt := h.lt
  unfold Nesting.counter at hdepth hlt
  by_cases hpos : 0 < statics.depth
  · have hnat : 0 < statics.depth.toNat := UInt16.lt_iff_toNat_lt.1 hpos
    have hcounter : (n.next .end_).counter = n.counter - 1 := by
      simp only [Nesting.next, Nesting.counter]
      split
      · dsimp only
        omega
      · dsimp only
        split <;> omega
    have hone : (statics.depth - 1).toNat = n.counter - 1 := by
      have hvalue : (1 : UInt16).toNat = 1 := rfl
      rw [UInt16.toNat_sub_of_le _ _ (UInt16.le_iff_toNat_le.2 (by omega)), h.depth, hvalue]
    unfold nestedValidator
    rw [h.disabled, if_neg Bool.false_ne_true, if_pos ⟨rfl, hpos⟩]
    refine .ok rfl ⟨rfl, ?_, ?_⟩
    · rw [hcounter, ← hone]
    · rw [hcounter]
      unfold Nesting.counter
      omega
  · have hzero : statics.depth.toNat = 0 := by
      have hnat : ¬ 0 < statics.depth.toNat := fun hlt => hpos (UInt16.lt_iff_toNat_lt.2 hlt)
      omega
    refine verdict_deeper h (fun hboth => hpos hboth.2) ?_ rfl
    have hn : n = ⟨0, 0⟩ := by
      cases n
      simp only [Nesting.mk.injEq]
      dsimp only at hdepth
      omega
    rw [hn]
    rfl

/-- A load or store is refused for its offset only. -/
theorem verdict_offset (h : Follows n statics) {op : Operator} {a offset : UInt32}
    (hfield : statics.cached (some op.opcode) = .memarg a offset)
    (hlarge : op.largeOffset = decide (maximumLinearMemory ≤ offset.toNat))
    (hnext : n.next op = n) :
    Verdict n op (largeOffsetValidator (some op.opcode) statics) := by
  unfold largeOffsetValidator
  rw [hfield]
  dsimp only
  by_cases hle : maximumLinearMemory ≤ offset.toNat
  · rw [if_pos hle]
    exact .large (by rw [hlarge, decide_eq_true hle]) (by simp [nestedDepthExceeded])
  · rw [if_neg hle]
    refine .ok (by rw [hlarge, decide_eq_false hle]) ?_
    rw [hnext]
    exact h

/-- The operators that open or close a structure are seen by the whitelist and the counter. -/
theorem visit_nested {slot : Slot} (hslot : opConstrainers slot = [whitelistValidator, nestedValidator])
    (statics : OpConstrainers) : visit slot statics = nestedValidator slot statics := by
  unfold visit
  rw [hslot]
  exact bind_pure (nestedValidator slot statics)

/-- The memory operators are seen by the check of the offset and the whitelist. -/
theorem visit_offset {slot : Slot}
    (hslot : opConstrainers slot = [largeOffsetValidator, whitelistValidator])
    (statics : OpConstrainers) : visit slot statics = largeOffsetValidator slot statics := by
  unfold visit
  rw [hslot]
  exact bind_pure (largeOffsetValidator slot statics)

theorem fieldOf_load {op : LoadOp} {alignmentLog2 : UInt8} {offset : UInt32} :
    fieldOf (.load op alignmentLog2 offset) =
      .memarg (readU32 [alignmentLog2, 0, 0, 0]) offset := by
  simp [fieldOf, fieldType, FieldType.unpack, Operator.opcode, Operator.immBytes]

theorem fieldOf_store {op : StoreOp} {alignmentLog2 : UInt8} {offset : UInt32} :
    fieldOf (.store op alignmentLog2 offset) =
      .memarg (readU32 [alignmentLog2, 0, 0, 0]) offset := by
  simp [fieldOf, fieldType, FieldType.unpack, Operator.opcode, Operator.immBytes]

/-- Each operator moves the counter as `Nesting` says, or is refused for its depth or its offset. -/
theorem verdict_validateOp (h : Follows n statics) (op : Operator) :
    Verdict n op (validateOp statics op) := by
  have hassign : Follows n
      { statics with cached := statics.cached.assign (some op.opcode) (fieldOf op) } :=
    ⟨h.disabled, h.depth, h.lt⟩
  have hfield : statics.cached.assign (some op.opcode) (fieldOf op) (some op.opcode) = fieldOf op :=
    Function.update_self _ _ _
  unfold validateOp
  cases op with
  | block resultType | loop resultType | if_ resultType | else_ =>
    rw [visit_nested rfl]
    apply verdict_deeper hassign ?_ ?_ rfl
    · rintro ⟨hend, -⟩
      cases hend
    simp only [Nesting.next, Nesting.counter, Operator.opens]
    omega
  | end_ =>
    rw [visit_nested rfl]
    exact verdict_end hassign
  | load op alignmentLog2 offset =>
    rw [visit_offset rfl]
    exact verdict_offset hassign (hfield.trans fieldOf_load) rfl rfl
  | store op alignmentLog2 offset =>
    rw [visit_offset rfl]
    exact verdict_offset hassign (hfield.trans fieldOf_store) rfl rfl
  | _ => exact .ok rfl hassign

/-! ## All operators -/

/-- Behind a run of the visitors without an exception the validator follows the nesting; a run that
throws for the depth is at the first operator where the counter gets to 1024. -/
theorem foldlM_validateOp_iff {ops : List Operator} (h : Follows n statics) :
    ops.foldlM validateOp statics = .error nestedDepthExceeded ↔
      ∃ before, before <+: ops ∧ (∀ op ∈ before, op.largeOffset = false) ∧
        1024 ≤ (before.foldl Nesting.next n).counter := by
  have hstart := h.lt
  induction ops generalizing n statics with
  | nil =>
    constructor
    · intro hok
      cases hok
    · rintro ⟨before, hbefore, -, hdeep⟩
      rw [List.prefix_nil.1 hbefore] at hdeep
      exact absurd hdeep (Nat.not_le.2 hstart)
  | cons op ops ih =>
    rw [List.foldlM_cons]
    have hverdict := verdict_validateOp h op
    generalize validateOp statics op = result at hverdict
    cases hverdict with
    | large hlarge he =>
      constructor
      · intro hthrown
        exact absurd (Except.error.inj hthrown) he
      · rintro ⟨before, hbefore, hsmall, hdeep⟩
        cases before with
        | nil => exact absurd hdeep (Nat.not_le.2 hstart)
        | cons first before =>
          obtain ⟨rfl, -⟩ := List.cons_prefix_cons.1 hbefore
          rw [hsmall first List.mem_cons_self] at hlarge
          cases hlarge
    | deep hsmall hdeep =>
      refine ⟨fun _ => ⟨[op], ?_, ?_, hdeep⟩, fun _ => rfl⟩
      · exact List.cons_prefix_cons.2 ⟨rfl, List.nil_prefix⟩
      · intro first hmem
        rw [List.mem_singleton.1 hmem]
        exact hsmall
    | ok hsmall hfollows =>
      refine (ih hfollows hfollows.lt).trans ?_
      constructor
      · rintro ⟨before, hbefore, hsmalls, hdeep⟩
        refine ⟨op :: before, List.cons_prefix_cons.2 ⟨rfl, hbefore⟩, ?_, hdeep⟩
        exact List.forall_mem_cons.2 ⟨hsmall, hsmalls⟩
      · rintro ⟨before, hbefore, hsmalls, hdeep⟩
        cases before with
        | nil => exact absurd hdeep (Nat.not_le.2 hstart)
        | cons first before =>
          obtain ⟨rfl, hrest⟩ := List.cons_prefix_cons.1 hbefore
          exact ⟨before, hrest, (List.forall_mem_cons.1 hsmalls).2, hdeep⟩

/-- All bodies are one sequence of operators to the counter. -/
theorem validateBodies_eq {defs : List FunctionDef}
    (hcode : ∀ fd ∈ defs, fd.code = encodeOps fd.operators) (statics : OpConstrainers) :
    validateBodies defs statics = (defs.flatMap FunctionDef.operators).foldlM validateOp statics := by
  induction defs generalizing statics with
  | nil => rfl
  | cons fd defs ih =>
    have hloop := Reader.loop_foldlM Operator.encode_ne_nil validateStep_encode fd.operators statics
    rw [List.flatMap_cons, List.foldlM_append]
    change (Reader.loop validateStep statics fd.code).bind (fun result =>
      validateBodies defs result.1) = _
    rw [hcode fd List.mem_cons_self]
    unfold encodeOps
    rw [hloop]
    cases fd.operators.foldlM validateOp statics with
    | error e => rfl
    | ok statics' => exact ih (fun fd hmem => hcode fd (List.mem_cons_of_mem _ hmem)) statics'

/-! ## All bodies -/

theorem code_of_decoded {m : Module} (hm : Decoded m) {fd : FunctionDef}
    (hfd : fd ∈ m.functions.defs) : fd.code = encodeOps fd.operators := by
  rcases hm.bodiesAccepted fd hfd with hcode | ⟨ops, hcode, -, -⟩
  · have hnil : fd.code = encodeOps [] := hcode
    rw [FunctionDef.operators_of_code hnil]
    exact hnil
  · rw [FunctionDef.operators_of_code hcode]
    exact hcode

/-- What the pass over the bodies throws. -/
theorem nested_depth_exceeded_iff {m : Module} (hm : Decoded m) (statics : OpConstrainers) :
    validateBodies m.functions.defs statics.init = .error nestedDepthExceeded ↔ CountsDeep m := by
  rw [validateBodies_eq fun fd hfd => code_of_decoded hm hfd]
  exact foldlM_validateOp_iff ⟨rfl, rfl, by decide⟩

/-! ## The counter and the module -/

section Counting

variable {ops before : List Operator}

theorem after_append_singleton (ops : List Operator) (op : Operator) :
    Nesting.after (ops ++ [op]) = (Nesting.after ops).next op := by
  simp [Nesting.after]

theorem tally_append_singleton (ops : List Operator) (op : Operator) :
    tally (ops ++ [op]) = (tally ops).next op := by
  simp [tally]

/-- The depth the counter starts from is the depth of the tally. -/
theorem depth_after (ops : List Operator) : (Nesting.after ops).depth = (tally ops).depth := by
  induction ops using List.reverseRecOn with
  | nil => rfl
  | append_singleton ops op ih =>
    rw [after_append_singleton, tally_append_singleton]
    cases op with
    | end_ =>
      simp only [Nesting.next, Tally.next, ih]
      split <;> rfl
    | _ => simp only [Nesting.next, Tally.next, ih]

/-- An arm and a function end add one to the drift at most. -/
theorem drift_le (ops : List Operator) :
    (Nesting.after ops).drift ≤ (tally ops).arms + (tally ops).ends := by
  induction ops using List.reverseRecOn with
  | nil => exact Nat.zero_le _
  | append_singleton ops op ih =>
    have hdepth := depth_after ops
    rw [after_append_singleton, tally_append_singleton]
    cases op with
    | end_ =>
      simp only [Nesting.next, Tally.next, hdepth]
      by_cases hpos : 0 < (tally ops).depth
      · rw [if_pos hpos, if_pos hpos]
        exact ih
      · rw [if_neg hpos, if_neg hpos]
        dsimp only
        split <;> omega
    | else_ =>
      simp only [Nesting.next, Tally.next]
      omega
    | _ => exact ih

theorem ends_le (ops : List Operator) (op : Operator) :
    (tally ops).ends ≤ (tally (ops ++ [op])).ends := by
  rw [tally_append_singleton]
  cases op with
  | end_ =>
    simp only [Tally.next]
    split
    · exact Nat.le_refl _
    · exact Nat.le_succ _
  | _ => exact Nat.le_refl _

/-- Within one function every arm counts. -/
theorem drift_eq_arms (hends : (tally ops).ends = 0) :
    (Nesting.after ops).drift = (tally ops).arms := by
  induction ops using List.reverseRecOn with
  | nil => rfl
  | append_singleton ops op ih =>
    have hle := ends_le ops op
    have hdrift := ih (by omega)
    have hdepth := depth_after ops
    rw [tally_append_singleton] at hends
    rw [after_append_singleton, tally_append_singleton]
    cases op with
    | end_ =>
      simp only [Nesting.next, Tally.next, hdepth] at hends ⊢
      by_cases hpos : 0 < (tally ops).depth
      · rw [if_pos hpos, if_pos hpos]
        exact hdrift
      · rw [if_neg hpos] at hends
        cases hends
    | else_ =>
      simp only [Nesting.next, Tally.next]
      omega
    | _ => exact hdrift

/-- The refusal comes where the counter would go up. -/
theorem counter_of_raises {op : Operator} (hraises : raises op = true) :
    (Nesting.after (ops ++ [op])).counter = (Nesting.after ops).counter + 1 := by
  rw [after_append_singleton]
  cases op with
  | block _ | loop _ | if_ _ | else_ =>
    simp only [Nesting.next, Nesting.counter, Operator.opens]
    omega
  | _ => cases hraises

/-- Any other operator leaves the counter, lowers it, or makes it one. -/
theorem counter_of_not_raises {op : Operator} (hraises : raises op = false) :
    (Nesting.after (ops ++ [op])).counter ≤ max (Nesting.after ops).counter 1 := by
  rw [after_append_singleton]
  cases op with
  | block _ | loop _ | if_ _ | else_ => cases hraises
  | end_ =>
    simp only [Nesting.next, Nesting.counter]
    split
    · dsimp only
      omega
    · dsimp only
      split <;> omega
  | _ => exact Nat.le_max_left _ _

/-- Where there is room, the counter stays below its bound. -/
theorem StaysShallow.counter_lt {m : Module} (h : StaysShallow m)
    (hbefore : before <+: m.functions.defs.flatMap FunctionDef.operators)
    (hsmall : ∀ op ∈ before, op.largeOffset = false) :
    (Nesting.after before).counter < 1024 := by
  induction before using List.reverseRecOn with
  | nil => exact Nat.succ_pos 1023
  | append_singleton before op ih =>
    have hprefix := (List.prefix_append before [op]).trans hbefore
    have hsmalls : ∀ other ∈ before, other.largeOffset = false :=
      fun other hmem => hsmall other (List.mem_append_left _ hmem)
    cases hraises : raises op with
    | true =>
      have hroom := h before op hbefore hsmalls hraises
      have hdrift := drift_le before
      have hdepth := depth_after before
      rw [counter_of_raises hraises]
      unfold Nesting.counter
      omega
    | false =>
      have hle := @counter_of_not_raises before op hraises
      have hlt := ih hprefix hsmalls
      omega

end Counting

/-! ## Bodies -/

/-- The tally of some operators behind others, once these have closed all structures. -/
theorem depth_foldl_next (t : Tally) (ops : List Operator) :
    (ops.foldl Tally.next t).depth = (ops.foldl Tally.next ⟨t.depth, 0, 0⟩).depth := by
  suffices hsame : ∀ t t' : Tally, t.depth = t'.depth →
      (ops.foldl Tally.next t).depth = (ops.foldl Tally.next t').depth from hsame _ _ rfl
  induction ops with
  | nil => exact fun t t' h => h
  | cons op ops ih =>
    intro t t' h
    apply ih
    cases op with
    | end_ =>
      simp only [Tally.next, h]
      split <;> rfl
    | _ => simp only [Tally.next, h]

/-- The validator's control stack has the frame of the function, until it has ended, and one for each
open structure. -/
theorem tally_of_visitAll {m : Module} {branchTables : List (List UInt32)} {ops : List Operator}
    {t : Tally} {context context' : FunctionValidationContext}
    (hvisit : FunctionValidationContext.visitAll m branchTables ops context = .ok ((), context'))
    (hstack : context.controlStack.length + t.ends = t.depth + 1) (hends : t.ends ≤ 1) :
    context'.controlStack.length + (ops.foldl Tally.next t).ends =
        (ops.foldl Tally.next t).depth + 1 ∧ (ops.foldl Tally.next t).ends ≤ 1 := by
  induction ops generalizing t context with
  | nil =>
    obtain ⟨-, rfl⟩ := pure_eq_ok.1 hvisit
    exact ⟨hstack, hends⟩
  | cons op ops ih =>
    obtain ⟨u, mid, hop, hrun⟩ := bind_eq_ok.1 hvisit
    have hlength := FunctionValidationContext.length_of_visit hop
    have hnext : mid.controlStack.length + (t.next op).ends = (t.next op).depth + 1 ∧
        (t.next op).ends ≤ 1 := by
      cases op with
      | end_ =>
        simp only [Operator.opens, Operator.closes] at hlength
        simp only [Tally.next]
        split
        · dsimp only
          omega
        · dsimp only
          omega
      | else_ | block _ | loop _ | if_ _ =>
        simp only [Operator.opens, Operator.closes] at hlength
        simp only [Tally.next, Operator.opens]
        omega
      | _ =>
        simp only [Operator.opens, Operator.closes] at hlength
        exact ⟨(congrArg (· + t.ends) hlength).trans hstack, hends⟩
    exact ih hrun hnext.1 hnext.2

/-- All structures are closed behind a body. -/
theorem depth_operators {m : Module} (hm : Decoded m) {fd : FunctionDef}
    (hfd : fd ∈ m.functions.defs) : (tally fd.operators).depth = 0 := by
  rcases hm.bodiesAccepted fd hfd with hcode | ⟨ops, hcode, -, context, hvisit, hdone⟩
  · have hnil : fd.code = encodeOps [] := hcode
    rw [FunctionDef.operators_of_code hnil]
    rfl
  · rw [FunctionDef.operators_of_code hcode]
    obtain ⟨hstack, hends⟩ := @tally_of_visitAll _ _ _ ⟨0, 0, 0⟩ _ _ hvisit rfl (Nat.zero_le 1)
    rw [hdone, List.length_nil] at hstack
    unfold tally
    omega

theorem prefix_append_cases {α : Type} {l l₁ l₂ : List α} (h : l <+: l₁ ++ l₂) :
    l <+: l₁ ∨ ∃ l', l = l₁ ++ l' ∧ l' <+: l₂ := by
  obtain ⟨t, ht⟩ := h
  rcases List.append_eq_append_iff.1 ht with ⟨a, hl, -⟩ | ⟨a, hl, hl₂⟩
  · exact .inl ⟨a, hl.symm⟩
  · exact .inr ⟨a, hl, t, hl₂.symm⟩

/-- What is open over all bodies is open in one of them. -/
theorem nestsDeep_of_prefix {defs : List FunctionDef}
    (hdefs : ∀ fd ∈ defs, (tally fd.operators).depth = 0) {before : List Operator}
    (hbefore : before <+: defs.flatMap FunctionDef.operators) (hdeep : 1024 ≤ (tally before).depth) :
    ∃ fd ∈ defs, ∃ inside, inside <+: fd.operators ∧ 1024 ≤ (tally inside).depth := by
  induction defs generalizing before with
  | nil =>
    rw [List.prefix_nil.1 hbefore] at hdeep
    cases hdeep
  | cons fd defs ih =>
    obtain ⟨hfirst, hrest⟩ := List.forall_mem_cons.1 hdefs
    rw [List.flatMap_cons] at hbefore
    rcases prefix_append_cases hbefore with hinside | ⟨rest, rfl, hprefix⟩
    · exact ⟨fd, List.mem_cons_self, before, hinside, hdeep⟩
    · unfold tally at hdeep
      rw [List.foldl_append, depth_foldl_next] at hdeep
      have hzero : (fd.operators.foldl Tally.next ⟨0, 0, 0⟩).depth = 0 := hfirst
      rw [hzero] at hdeep
      obtain ⟨fd', hfd', inside, hinside, hdeep'⟩ := ih hrest hprefix hdeep
      exact ⟨fd', List.mem_cons_of_mem fd hfd', inside, hinside, hdeep'⟩

/-- A body that stands first reaches its depth in the module too. -/
theorem ReachesDepth.nestsDeep {m : Module} (hm : Decoded m) (h : ReachesDepth m) : NestsDeep m := by
  obtain ⟨before, hbefore, -, hdeep⟩ := h
  exact nestsDeep_of_prefix (fun fd hfd => depth_operators hm hfd) hbefore hdeep

/-- The counter is not below the nesting. -/
theorem ReachesDepth.countsDeep {m : Module} (h : ReachesDepth m) : CountsDeep m := by
  obtain ⟨before, hbefore, hsmall, hdeep⟩ := h
  refine ⟨before, hbefore, hsmall, ?_⟩
  rw [← depth_after] at hdeep
  unfold Nesting.counter
  omega

/-- With so much room the counter stays below the limit. -/
theorem StaysShallow.not_countsDeep {m : Module} (h : StaysShallow m) : ¬ CountsDeep m := by
  rintro ⟨before, hbefore, hsmall, hdeep⟩
  have hlt := h.counter_lt hbefore hsmall
  omega

/-- Up to the `end` that closes a body no function has ended. -/
theorem ends_of_upToEnd {depth arms : Nat} {ops before after : List Operator} {op : Operator}
    (hbody : upToEnd depth ops = some ops) (hops : ops = before ++ op :: after) :
    (before.foldl Tally.next ⟨depth, arms, 0⟩).ends = 0 := by
  induction before generalizing depth arms ops with
  | nil => rfl
  | cons first before ih =>
    subst hops
    rcases upToEnd_cons_eq_some hbody with ⟨-, -, hend⟩ | ⟨rest, hcloses, hrest, hcons⟩
    · have hnil := (List.cons_eq_cons.1 hend).2
      simp at hnil
    · obtain ⟨-, rfl⟩ := List.cons_eq_cons.1 hcons
      rw [List.foldl_cons]
      cases first with
      | end_ =>
        simp only [Operator.opens, Operator.closes] at hcloses hrest
        have hpos : 0 < depth := by omega
        simp only [Tally.next, hpos, if_true]
        exact ih hrest rfl
      | else_ =>
        simp only [Operator.opens, Operator.closes] at hrest
        exact ih hrest rfl
      | _ => exact ih hrest rfl

/-- In a single body that ends with its function the counter is the nesting and the arms. -/
theorem staysShallow_of_not_countsDeep {m : Module} {fd : FunctionDef}
    (hdefs : m.functions.defs = [fd]) (hbody : functionBody fd.operators = some fd.operators)
    (hsmall : ∀ op ∈ fd.operators, op.largeOffset = false) (hcounts : ¬ CountsDeep m) :
    StaysShallow m := by
  intro before op hbefore _ hraises
  have hflat : m.functions.defs.flatMap FunctionDef.operators = fd.operators := by
    rw [hdefs, List.flatMap_singleton]
  have hinside := hbefore
  rw [hflat] at hinside
  obtain ⟨after, hafter⟩ := hinside
  have hends : (tally before).ends = 0 := by
    refine @ends_of_upToEnd 0 0 _ before after op hbody ?_
    rw [← hafter, List.append_assoc]
    rfl
  have hlt : (Nesting.after (before ++ [op])).counter < 1024 := by
    by_contra hdeep
    refine hcounts ⟨before ++ [op], hbefore, ?_, Nat.le_of_not_lt hdeep⟩
    intro other hmem
    apply hsmall
    rw [← hafter]
    exact List.mem_append_left _ hmem
  have hdrift := drift_eq_arms hends
  have hdepth := depth_after before
  rw [counter_of_raises hraises] at hlt
  unfold Nesting.counter at hlt
  omega

/-- **Nesting.** The pass over the bodies refuses a module for its depth exactly when a body nests too
deep, if one does so in front of any offset that is too large, or if none does and there is room for
all arms and functions. For a single body that ends with its function and has no such offset, the
verdict is right in no other case. -/
theorem nested_depth_exact_within {bytes : Bytes} {m : Module} (hdecode : decode bytes = .ok m)
    (statics : OpConstrainers) :
    (ReachesDepth m ∨ ¬ NestsDeep m ∧ StaysShallow m →
      (validateBodies m.functions.defs statics.init = .error nestedDepthExceeded ↔
        NestsDeep m)) ∧
    ∀ fd, m.functions.defs = [fd] → functionBody fd.operators = some fd.operators →
      (∀ op ∈ fd.operators, op.largeOffset = false) →
        ((validateBodies m.functions.defs statics.init = .error nestedDepthExceeded ↔
          NestsDeep m) ↔ NestsDeep m ∨ StaysShallow m) := by
  have hm := Decoded.of_decode hdecode
  rw [nested_depth_exceeded_iff hm]
  constructor
  · rintro (hdeep | ⟨hflat, hshallow⟩)
    · exact iff_of_true hdeep.countsDeep (hdeep.nestsDeep hm)
    · exact iff_of_false hshallow.not_countsDeep hflat
  · intro fd hdefs hbody hsmall
    have hreaches : NestsDeep m → ReachesDepth m := by
      rintro ⟨fd', hfd', before, hbefore, hdeep⟩
      rw [hdefs] at hfd'
      obtain rfl := List.mem_singleton.1 hfd'
      refine ⟨before, ?_, fun op hmem => hsmall op (hbefore.subset hmem), hdeep⟩
      rw [hdefs, List.flatMap_singleton]
      exact hbefore
    constructor
    · intro hexact
      by_cases hdeep : NestsDeep m
      · exact .inl hdeep
      · exact .inr (staysShallow_of_not_countsDeep hdefs hbody hsmall fun hcounts =>
          hdeep (hexact.1 hcounts))
    · rintro (hdeep | hshallow)
      · exact iff_of_true (hreaches hdeep).countsDeep hdeep
      · refine iff_of_false hshallow.not_countsDeep fun hdeep => ?_
        exact hshallow.not_countsDeep (hreaches hdeep).countsDeep

/-! ## A flat body with many else arms -/

section Arms

/-- A structure with two arms that do nothing. -/
def arm : List Operator := [.i32Const 0, .if_ .none, .else_, .end_]

def armsOps (n : Nat) : List Operator := (List.replicate n arm).flatten ++ [.end_]

def armsBody (n : Nat) : FunctionDef := ⟨0, [], encodeOps (armsOps n), []⟩

def armsModule (n : Nat) : Module :=
  { Module.empty with types := [⟨.none, []⟩], functions := ⟨[], [armsBody n]⟩ }

theorem armsOps_succ (n : Nat) : armsOps (n + 1) = arm ++ armsOps n := by
  simp [armsOps, List.replicate_succ]

theorem operators_armsBody (n : Nat) : (armsBody n).operators = armsOps n :=
  FunctionDef.operators_of_code rfl

theorem mem_armsOps {n : Nat} {op : Operator} (hmem : op ∈ armsOps n) : op ∈ arm := by
  rcases List.mem_append.1 hmem with hmem | hmem
  · obtain ⟨ops, hops, hop⟩ := List.mem_flatten.1 hmem
    rwa [List.eq_of_mem_replicate hops] at hop
  · rw [List.mem_singleton.1 hmem]
    decide

/-- An arm leaves the drift one higher. -/
theorem after_arms (n : Nat) (nesting : Nesting) :
    (List.replicate n arm).flatten.foldl Nesting.next nesting =
      { nesting with drift := nesting.drift + n } := by
  induction n generalizing nesting with
  | zero => rfl
  | succ n ih =>
    rw [List.replicate_succ, List.flatten_cons, List.foldl_append, ih]
    simp [arm, Nesting.next, Operator.opens, Nat.add_comm, Nat.add_left_comm]

/-- At most one structure is open. -/
theorem depth_arms (n : Nat) (nesting : Nesting) (hdepth : nesting.depth = 0)
    {before : List Operator} (hbefore : before <+: armsOps n) :
    (before.foldl Nesting.next nesting).depth ≤ 1 := by
  induction n generalizing nesting before with
  | zero =>
    rcases List.prefix_cons_iff.1 hbefore with rfl | ⟨rest, rfl, hrest⟩
    · simp [hdepth]
    · rw [List.prefix_nil.1 hrest]
      simp [Nesting.next, hdepth]
  | succ n ih =>
    rw [armsOps_succ] at hbefore
    rcases List.prefix_cons_iff.1 hbefore with rfl | ⟨rest, rfl, hif⟩
    · simp [hdepth]
    rcases List.prefix_cons_iff.1 hif with rfl | ⟨rest, rfl, helse⟩
    · simp [Nesting.next, Operator.opens, hdepth]
    rcases List.prefix_cons_iff.1 helse with rfl | ⟨rest, rfl, hend⟩
    · simp [Nesting.next, Operator.opens, hdepth]
    rcases List.prefix_cons_iff.1 hend with rfl | ⟨rest, rfl, hnext⟩
    · simp [Nesting.next, Operator.opens, hdepth]
    · simp only [List.foldl_cons]
      apply ih _ _ hnext
      simp [Nesting.next, Operator.opens, hdepth]

/-- The body is valid: every `else` belongs to an `if` of its own. -/
theorem accepts_arms (n : Nat) : (armsBody n).Accepts (armsModule n) (armsOps n) := by
  have hfinal : ∃ context, FunctionValidationContext.visitAll (armsModule n) [] [.end_]
      (.init ⟨.none, []⟩ []) = .ok ((), context) ∧ context.controlStack = [] := ⟨_, rfl, rfl⟩
  obtain ⟨context, hend, hdone⟩ := hfinal
  refine ⟨context, FunctionValidationContext.visitAll_append.2 ⟨_, ?_, hend⟩, hdone⟩
  clear hend
  change FunctionValidationContext.visitAll (armsModule n) [] (List.replicate n arm).flatten
    (.init ⟨.none, []⟩ []) = .ok ((), .init ⟨.none, []⟩ [])
  generalize armsModule n = m
  induction n with
  | zero => rfl
  | succ n ih =>
    rw [List.replicate_succ, List.flatten_cons]
    exact FunctionValidationContext.visitAll_append.2 ⟨_, rfl, ih⟩

theorem wellFormedBody_arms (n : Nat) : WellFormedBody (armsBody n) (armsOps n) where
  code := rfl
  blockTypes := by
    have hall : ∀ op ∈ arm, ∀ resultType, op.blockType? = some resultType →
        resultType.toByte ≤ 4 := by
      simp [arm, Operator.blockType?, ResultType.toByte]
    exact fun op hmem => hall op (mem_armsOps hmem)
  branchTables := by
    apply List.filterMap_eq_nil_iff.2
    have hall : ∀ op ∈ arm, op.branchTable? = none := by decide
    exact fun op hmem => hall op (mem_armsOps hmem)
  localTypes := nofun

theorem serializeBody_arms (n : Nat) :
    ∃ bytes, Output.serializeBody (armsBody n) = .ok bytes ∧ bytes.length = 2 + 6 * n := by
  have hops : ∀ n, ∃ bytes, Writer.concat ((armsOps n).map (Output.serializeOperator [])) =
      .ok bytes ∧ bytes.length = 1 + 6 * n := by
    intro n
    induction n with
    | zero => exact ⟨[0x0b], by decide, rfl⟩
    | succ n ih =>
      obtain ⟨bytes, hbytes, hlength⟩ := ih
      refine ⟨[0x41, 0] ++ ([0x04, 0x40] ++ ([0x05] ++ ([0x0b] ++ bytes))), ?_, ?_⟩
      · rw [armsOps_succ]
        refine Writer.concat_cons_eq_ok.2 ⟨_, _, by decide, ?_, rfl⟩
        refine Writer.concat_cons_eq_ok.2 ⟨_, _, by decide, ?_, rfl⟩
        refine Writer.concat_cons_eq_ok.2 ⟨_, _, by decide, ?_, rfl⟩
        exact Writer.concat_cons_eq_ok.2 ⟨_, _, by decide, hbytes, rfl⟩
      · simp [hlength]
        omega
  obtain ⟨bytes, hbytes, hlength⟩ := hops n
  refine ⟨[0] ++ ([] ++ (bytes ++ [])), ?_, by simp [hlength]; omega⟩
  have hzero : Serialization.Output.serializeVarUInt32 0 = .ok [0] := by decide
  refine Writer.concat_cons_eq_ok.2 ⟨_, _, hzero, ?_, rfl⟩
  refine Writer.concat_cons_eq_ok.2 ⟨_, _, rfl, ?_, rfl⟩
  refine Writer.concat_cons_eq_ok.2 ⟨bytes, [], ?_, rfl, rfl⟩
  have hfuel : (armsOps n).length ≤ (encodeOps (armsOps n)).length := by
    have hlengthOps := length_le_length_encodeOps (armsOps n)
    omega
  exact (serializeCode_encodeOps [] hfuel).trans hbytes

/-- The module has an encoding. -/
theorem exists_encode_arms {n : Nat} (hn : n ≤ 1024) : ∃ out, encode (armsModule n) = .ok out := by
  obtain ⟨body, hbody, hlength⟩ := serializeBody_arms n
  have hfits : FitsSection (codeContents [armsBody n]) := by
    have hle : (Serialization.Output.varUIntBytes 5 body.length).length ≤ 5 :=
      numBytes_le (Nat.lt_of_lt_of_le (by omega) (by decide : 2 ^ 32 ≤ 128 ^ 5)) (by decide)
    refine ⟨[1] ++ (Serialization.Output.varUIntBytes 5 body.length ++ (body ++ []) ++ [] ++ []),
      ?_, ?_⟩
    · have hsize : Serialization.Output.serializeVarUInt32 body.length = .ok _ :=
        serializeVarUInt32_eq (by omega)
      have hfunction : Output.serializeFunctionBody (armsBody n) =
          .ok (Serialization.Output.varUIntBytes 5 body.length ++ (body ++ [])) :=
        Except.bind_eq_ok.2 ⟨body, hbody, Writer.concat_cons_eq_ok.2 ⟨_, _, hsize,
          Writer.concat_cons_eq_ok.2 ⟨body, [], rfl, rfl, rfl⟩, rfl⟩⟩
      have hone : Serialization.Output.serializeVarUInt32 1 = .ok [1] := by decide
      refine Writer.concat_cons_eq_ok.2 ⟨[1], _, hone, ?_, rfl⟩
      refine Writer.concat_cons_eq_ok.2 ⟨_, [], ?_, rfl, rfl⟩
      exact Writer.concat_cons_eq_ok.2 ⟨_, [], hfunction, rfl, rfl⟩
    · simp only [List.length_append, List.length_cons, List.length_nil]
      omega
  have htype : FitsSection (Output.serializeArray Output.serializeFunctionType [⟨.none, []⟩]) :=
    ⟨[1, 0x60, 0, 0], by decide, by decide⟩
  have htypes : ∃ out, Output.serializeTypeSection (armsModule n) = .ok out :=
    htype.exists_section 1
  have hdeclarations : FitsSection (declarationContents [⟨0, [], [], []⟩]) :=
    ⟨[1, 0], by decide, by decide⟩
  have hfunctions : ∃ out, Output.serializeFunctionSection (armsModule n) = .ok out :=
    hdeclarations.exists_section 3
  apply exists_concat
  simp only [List.forall_mem_cons, List.not_mem_nil, false_implies, implies_true, and_true]
  exact ⟨⟨_, rfl⟩, ⟨_, rfl⟩, htypes, ⟨[], rfl⟩, hfunctions, ⟨[], rfl⟩, ⟨[], rfl⟩, ⟨[], rfl⟩,
    ⟨[], rfl⟩, ⟨[], rfl⟩, ⟨[], rfl⟩, hfits.exists_section 10, ⟨[], rfl⟩, ⟨[], rfl⟩⟩

/-- So it can be decoded. -/
theorem exists_decode_arms {n : Nat} (hn : n ≤ 1024) :
    ∃ bytes, decode bytes = .ok (armsModule n) := by
  obtain ⟨out, hencode⟩ := exists_encode_arms hn
  have hwell : WellFormed (armsModule n) :=
    ⟨rfl, nofun, nofun, nofun, nofun, nofun, nofun, nofun, by simp [armsModule, armsBody]⟩
  have hwithin : ModuleWithin (armsModule n) := by
    constructor <;> simp [armsModule, Module.empty, IndexSpace.empty, maximumFuncLocalBytes,
      maximumSectionElements]
  have hbodies : BodiesReadable (fun _ => False) (armsModule n) (armsModule n).functions.defs := by
    intro before fd after hdefs _
    have hmem : fd ∈ [armsBody n] := by
      change fd ∈ (armsModule n).functions.defs
      simp [hdefs]
    rw [List.mem_singleton.1 hmem]
    refine ⟨armsOps n, wellFormedBody_arms n,
      .inl ⟨Nat.succ_pos 1023, Nat.zero_le _, nofun, ?_⟩, ?_⟩
    · intro bodyBytes hbody
      obtain ⟨body, hbody', hlength⟩ := serializeBody_arms n
      rw [hbody] at hbody'
      rw [Except.ok.inj hbody', hlength]
      unfold maximumCodeSize
      omega
    · intro e he
      rw [FunctionDef.accepts_iff_validateCode.1 (accepts_arms n)] at he
      cases he
  have hvalid : validateDefinitions (armsModule n) = .ok () := rfl
  rcases decode_encode hwell (.inl hwithin) hbodies hencode with ⟨hdecode, -⟩ | ⟨e, -, hfalse⟩
  · refine ⟨out, ?_⟩
    rw [hdecode, hvalid]
    rfl
  · exact hfalse.elim

end Arms

theorem operators_armsModule (n : Nat) :
    (armsModule n).functions.defs.flatMap FunctionDef.operators = armsOps n := by
  change [armsBody n].flatMap FunctionDef.operators = armsOps n
  rw [List.flatMap_singleton, operators_armsBody]

/-- Only one structure is open at a time. -/
theorem tally_arms (n : Nat) {before : List Operator} (hbefore : before <+: armsOps n) :
    (tally before).depth ≤ 1 := by
  have hdepth := depth_arms n ⟨0, 0⟩ rfl hbefore
  rw [← depth_after]
  exact hdepth

/-- A body with a few arms, in which no more than one structure is open, is not refused. -/
theorem nested_depth_exact_within_sample :
    ∃ bytes, decode bytes = .ok (armsModule 2) ∧
      validateBodies (armsModule 2).functions.defs (OpConstrainers.mk .initial false 0).init ≠
        .error nestedDepthExceeded := by
  obtain ⟨bytes, hdecode⟩ := exists_decode_arms (by decide : 2 ≤ 1024)
  have hflat : ¬ NestsDeep (armsModule 2) := by
    rintro ⟨fd, hfd, before, hbefore, hdeep⟩
    rw [List.mem_singleton.1 hfd, operators_armsBody] at hbefore
    have hle := tally_arms 2 hbefore
    omega
  have hroom : ∀ before ∈ (armsOps 2).inits, (tally before.dropLast).depth +
      (tally before.dropLast).arms + (tally before.dropLast).ends + 1 < 1024 := by decide
  have hshallow : StaysShallow (armsModule 2) := by
    intro before op hbefore _ _
    rw [operators_armsModule, ← List.mem_inits] at hbefore
    have hbound := hroom (before ++ [op]) hbefore
    rwa [List.dropLast_concat] at hbound
  have hexact := (nested_depth_exact_within hdecode ⟨.initial, false, 0⟩).1 (.inr ⟨hflat, hshallow⟩)
  exact ⟨bytes, hdecode, fun hthrown => hflat (hexact.1 hthrown)⟩

/-- A body that is nested once is refused for its depth. -/
theorem nested_depth_not_exact :
    ¬ ∀ (bytes : Bytes) (m : Module) (statics : OpConstrainers), decode bytes = .ok m →
      (validateBodies m.functions.defs statics.init = .error nestedDepthExceeded ↔
        NestsDeep m) := by
  intro hall
  obtain ⟨bytes, hdecode⟩ := exists_decode_arms (Nat.le_refl 1024)
  have hcounts : CountsDeep (armsModule 1024) := by
    refine ⟨(List.replicate 1024 arm).flatten, ?_, ?_, ?_⟩
    · rw [operators_armsModule]
      exact List.prefix_append _ _
    · intro op hmem
      have hall : ∀ op ∈ arm, op.largeOffset = false := by decide
      exact hall op (mem_armsOps (List.mem_append_left _ hmem))
    · rw [Nesting.after, after_arms]
      simp [Nesting.counter]
  have hthrown := (nested_depth_exceeded_iff (Decoded.of_decode hdecode)
    ⟨.initial, false, 0⟩).2 hcounts
  obtain ⟨fd, hfd, before, hbefore, hdeep⟩ := (hall bytes _ _ hdecode).1 hthrown
  rw [List.mem_singleton.1 hfd, operators_armsBody] at hbefore
  have hle := tally_arms 1024 hbefore
  omega

end WasmValidations

end FractalWasm
