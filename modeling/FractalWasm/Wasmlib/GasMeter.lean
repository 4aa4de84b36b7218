import FractalWasm.Runtime.MemoryHistory
import FractalWasm.Wasmlib.ApiEffects
import FractalWasm.Wasmlib.GasSoundness

/-!
# The gas meter

Every charge goes through `use_gas`, whose argument is signed and whose comparison is not. A call of
an intrinsic is taken apart into its effects; a callback may run contracts of its own, on the same
meter, before the call goes on. Over any such run the gas that remains and the gas that was charged
add up to the gas there was at first, and a callback comes behind all charges of its call.

**Calls** (`Invocation`, `Step`): the effects of a call are carried out one by one, with contracts
in between.

**What holds** (`Balanced`): the gas and the charges of the trace add up; what is pending of a call
is still priced (`Priced`).

**A step** (`Metered`): no step puts gas back, and one that charges more than there is throws and
leaves the meter alone.
-/

namespace FractalWasm

open FractalWasm.Runtime IR Wavm Serialization

namespace Api

/-! ## Exact prices -/

/-- What a charge takes from the meter. -/
def Effect.amount : Effect → Option Nat
  | useGas gas => some gas.toUInt64.toNat
  | _ => none

/-- What a list of effects charges, in its order. -/
def amounts (effects : List Effect) : List Nat := effects.filterMap Effect.amount

/-- The prices of a call, charge by charge, as numbers without a bound. -/
def Call.prices (data : ActionData) : Call → List Nat
  | dbStore _ _ buffer => [1000000 + buffer.length.toNat * 100000]
  | dbLoad _ _ buffer => [1000000 + buffer.length.toNat * 100000]
  | dbHasKey _ _ | dbHasTable _ => [500000]
  | dbRemoveKey _ _ | dbRemoveTable _ => [500000]
  | assertRecoverKey _ _ _ | recoverKey _ _ _ => [450000]
  | assertSha256 data _ | sha256 data _ => [2400 + 3 * data.length.toNat]
  | log0 data _ => [80000 + data.length.toNat * 1000]
  | log1 data _ _ => [90000 + data.length.toNat * 1000]
  | log2 data _ _ _ => [100000 + data.length.toNat * 1000]
  | useGas gas => [gas.toNat]
  | readActionData memory =>
    if memory.length = 0 then [100] else [100, data.bytes.length * 3]
  | getFrom _ | getTo _ | getOwner _ | getUser _ => [160]
  | transfer _ _ => [1000000]
  | memcpy _ src | memmove _ src | memcmp _ src => [100 + 3 * src.length.toNat]
  | memset dest _ => [100 + 3 * dest.length.toNat]
  | compare _ _ _ _ _ => [100, 100, 100]
  | abort | prints _ | printsL _ | printValue _ | printqf _ | printhex _ | softfloat => []
  | currentTime | currentHeight | currentHash _ _ | ftlAssert _ _ | ftlAssertMessage _ _
  | ftlAssertCode _ _ | ftlExit _ | actionDataSize | getAmount | callAction _ _ _ _ _
  | callResult _ | setResult _ | divide _ _ _ _ _ _ | reference _ _ | value _ => [100]

section Prices

variable {σ : Type} {host : Host σ}

/-- Every memory was made for an injected module, and only ever reset for others. -/
def MemoriesUsed (host : Host σ) : Prop :=
  ∀ mem, MemoryInstance.Used
    (MemoryType.Fits (WasmInjections.maximumLinearMemory / wasmPageSize)) (host.memories mem)

/-- No memory has more pages than WebAssembly has addresses for. -/
def PagesBounded (host : Host σ) : Prop := ∀ mem, (host.memories mem).numPages ≤ maxMemoryPages

theorem pagesBounded (h : MemoriesUsed host) : PagesBounded host := by
  intro mem
  have hwithin : MemoryInstance.Within 528 (host.memories mem) :=
    MemoryInstance.within_of_used (by omega) (by omega) (fun _ htype => htype) (h mem)
  have hpages := hwithin.numPages
  have hformat : maxMemoryPages = 65536 := rfl
  omega

theorem length_le_of_translate (hpages : PagesBounded host) {arg : ArrayArg} {ptr : LinearPtr}
    (h : arg.translate host = .ok ptr) : arg.length.toNat ≤ 2 ^ 32 := by
  obtain ⟨mem, -, -, hle⟩ := arrayPtrImpl_eq_ok.1 ⟨ptr, h⟩
  have hbound := hpages mem
  simp only [NativeType.char, Nat.mul_one, memTotal, wasmPageSize, maxMemoryPages] at hle hbound
  omega

theorem amount_charge (gas : UInt64) : (charge gas).amount = some gas.toNat := by
  rw [charge, Effect.amount, UInt64.toUInt64_toInt64]

/-- A price for every byte, computed in 64 bits, is exact for what fits a memory. -/
theorem toNat_base_add (base byte length : UInt64) (hbase : base.toNat ≤ 2 ^ 32)
    (hbyte : byte.toNat ≤ 2 ^ 20) (hlength : length.toNat ≤ 2 ^ 32) :
    (base + length * byte).toNat = base.toNat + length.toNat * byte.toNat := by
  have hproduct : length.toNat * byte.toNat ≤ 2 ^ 32 * 2 ^ 20 := Nat.mul_le_mul hlength hbyte
  have hmul : (length * byte).toNat = length.toNat * byte.toNat := by
    rw [UInt64.toNat_mul, Nat.mod_eq_of_lt (by omega)]
  rw [UInt64.toNat_add, hmul, Nat.mod_eq_of_lt (by omega)]

theorem exists_ok_of_firstError {pointers : List (Except Exception LinearPtr)}
    (h : firstError pointers = none) : ∀ pointer ∈ pointers, ∃ ptr, pointer = .ok ptr := by
  induction pointers with
  | nil => exact fun _ hmem => absurd hmem List.not_mem_nil
  | cons first pointers ih =>
    cases first with
    | error e => cases h
    | ok ptr => exact List.forall_mem_cons.2 ⟨⟨ptr, rfl⟩, ih h⟩

@[simp] theorem amounts_nil : amounts [] = [] := rfl

@[simp] theorem amounts_charge (gas : UInt64) (effects : List Effect) :
    amounts (charge gas :: effects) = gas.toNat :: amounts effects := by
  unfold amounts
  rw [List.filterMap_cons, amount_charge]

@[simp] theorem amounts_callback (callback : Callback) (effects : List Effect) :
    amounts (.callback callback :: effects) = amounts effects := rfl

theorem toNat_size (data : ActionData) : data.size.toNat = data.bytes.length := by
  have hlt := data.length_lt
  rw [ActionData.size, Nat.toUInt64_eq, UInt64.toNat_ofNat_of_lt' (by
    simp only [UInt64.size]
    omega)]

/-- A method whose pointers were let through charges its prices. -/
theorem amounts_method {data : ActionData} {call : Call} (hpages : PagesBounded host)
    (hpointers : firstError (call.pointers host) = none) :
    amounts (call.method host data) = call.prices data := by
  have hbound : ∀ arg : ArrayArg, arg.translate host ∈ call.pointers host →
      arg.length.toNat ≤ 2 ^ 32 := by
    intro arg hmem
    obtain ⟨ptr, hok⟩ := exists_ok_of_firstError hpointers _ hmem
    exact length_le_of_translate hpages hok
  have hperByte : ∀ (base byte : UInt64) (arg : ArrayArg), base.toNat ≤ 2 ^ 32 →
      byte.toNat ≤ 2 ^ 20 → arg.translate host ∈ call.pointers host →
        (base + arg.length * byte).toNat = base.toNat + arg.length.toNat * byte.toNat ∧
          (base + byte * arg.length).toNat = base.toNat + byte.toNat * arg.length.toNat := by
    intro base byte arg hbase hbyte hmem
    rw [UInt64.mul_comm byte, Nat.mul_comm byte.toNat, and_self]
    exact toNat_base_add base byte arg.length hbase hbyte (hbound arg hmem)
  cases call with
  | dbStore table key buffer =>
    have hprice := (hperByte gasDbStoreBase gasDbStoreByte buffer (by decide) (by decide)
      (by simp [Call.pointers])).1
    simp only [Call.method, Call.prices, amounts_charge, hprice]
    rfl
  | dbLoad table key buffer =>
    have hprice := (hperByte gasDbLoadBase gasDbLoadByte buffer (by decide) (by decide)
      (by simp [Call.pointers])).1
    simp only [Call.method, Call.prices, amounts_charge, hprice]
    rfl
  | assertSha256 data hashVal | sha256 data hashVal =>
    have hprice := (hperByte gasSha256Base gasSha256Byte data (by decide) (by decide)
      (by simp [Call.pointers])).2
    simp only [Call.method, Call.prices, amounts_charge, hprice]
    rfl
  | log0 data name =>
    have hprice := (hperByte gasLog0 gasLogData data (by decide) (by decide)
      (by simp [Call.pointers])).1
    simp only [Call.method, Call.prices, amounts_charge, hprice]
    rfl
  | log1 data name param1 =>
    have hprice := (hperByte gasLog1 gasLogData data (by decide) (by decide)
      (by simp [Call.pointers])).1
    simp only [Call.method, Call.prices, amounts_charge, hprice]
    rfl
  | log2 data name param1 param2 =>
    have hprice := (hperByte gasLog2 gasLogData data (by decide) (by decide)
      (by simp [Call.pointers])).1
    simp only [Call.method, Call.prices, amounts_charge, hprice]
    rfl
  | memcpy dest src | memmove dest src | memcmp dest src =>
    have hprice := (hperByte gasCallBase gasMemopByte src (by decide) (by decide)
      (by simp [Call.pointers])).2
    simp only [Call.method, Call.prices, amounts_charge, hprice]
    rfl
  | memset dest value =>
    have hprice := (hperByte gasCallBase gasMemopByte dest (by decide) (by decide)
      (by simp [Call.pointers])).2
    simp only [Call.method, Call.prices, amounts_charge, hprice]
    rfl
  | readActionData memory =>
    have hlt := data.length_lt
    have hsize : (data.size * gasMemopByte).toNat = data.bytes.length * 3 := by
      rw [UInt64.toNat_mul, toNat_size]
      exact Nat.mod_eq_of_lt (by simp only [gasMemopByte, UInt64.reduceToNat]; omega)
    by_cases hzero : memory.length = 0
    · simp [Call.method, Call.prices, hzero, gasCallBase]
    · simp [Call.method, Call.prices, hzero, hsize, gasCallBase]
  | useGas gas => exact amounts_charge gas []
  | _ => rfl

/-- A call charges its prices, or nothing at all. -/
theorem amounts_effects {data : ActionData} (call : Call) (hpages : PagesBounded host) :
    amounts (call.effects host data) <+: call.prices data := by
  unfold Call.effects
  cases herror : firstError (call.pointers host) with
  | none => exact (amounts_method hpages herror).symm ▸ List.prefix_rfl
  | some e => exact List.nil_prefix

end Prices

/-! ## Runs -/

/-- A call of an intrinsic that has not returned, known by the number of calls before it. -/
structure Invocation where
  id : Nat
  call : Call
  data : ActionData
  executed : List Effect
  pending : List Effect

/-- What happens to the meter, and the callbacks. -/
inductive Event where
  | charged (id amount : Nat)
  | refused (id amount : Nat)
  | called (id : Nat) (callback : Callback)
  deriving DecidableEq, Repr

/-- The calls that have not returned, the innermost first; each of the others waits for a callback. -/
structure State where
  remainedGas : UInt64
  count : Nat
  invocations : List Invocation
  trace : List Event

/-- Before any call. -/
def State.start (gas : UInt64) : State := ⟨gas, 0, [], []⟩

/-- Contracts are run when nothing else is, or by a callback. -/
def State.RunsContract (s : State) : Prop :=
  ∀ invocation ∈ s.invocations.head?, ∃ callback,
    invocation.executed.getLast? = some (.callback callback)

/-- The invocation with its next effect behind it. -/
def Invocation.next (invocation : Invocation) (effect : Effect) (pending : List Effect) :
    Invocation :=
  { invocation with executed := invocation.executed ++ [effect], pending }

/-- One effect of the innermost call, its beginning or its end. What a call throws ends it. -/
inductive Step : State → State → Prop
  | invoke {s : State} {σ : Type} {host : Host σ} {data : ActionData} {call : Call}
      (hmemories : MemoriesUsed host) (hruns : s.RunsContract) :
      Step s { s with
        count := s.count + 1
        invocations := ⟨s.count, call, data, [], call.effects host data⟩ :: s.invocations }
  | charge {s : State} {invocation : Invocation} {outer : List Invocation} {gas : Int64}
      {pending : List Effect} {left : UInt64} (hinvocations : s.invocations = invocation :: outer)
      (hpending : invocation.pending = .useGas gas :: pending)
      (hgas : WasmInjections.useGas s.remainedGas gas.toUInt64 = .ok left) :
      Step s { s with
        remainedGas := left
        invocations := invocation.next (.useGas gas) pending :: outer
        trace := s.trace ++ [.charged invocation.id gas.toUInt64.toNat] }
  | refuse {s : State} {invocation : Invocation} {outer : List Invocation} {gas : Int64}
      {pending : List Effect} {e : Exception} (hinvocations : s.invocations = invocation :: outer)
      (hpending : invocation.pending = .useGas gas :: pending)
      (hgas : WasmInjections.useGas s.remainedGas gas.toUInt64 = .error e) :
      Step s { s with
        invocations := outer
        trace := s.trace ++ [.refused invocation.id gas.toUInt64.toNat] }
  | pass {s : State} {invocation : Invocation} {outer : List Invocation} {e : Exception}
      {pending : List Effect} (hinvocations : s.invocations = invocation :: outer)
      (hpending : invocation.pending = .throwUnless true e :: pending) :
      Step s { s with invocations := invocation.next (.throwUnless true e) pending :: outer }
  | throw {s : State} {invocation : Invocation} {outer : List Invocation} {e : Exception}
      {pending : List Effect} (hinvocations : s.invocations = invocation :: outer)
      (hpending : invocation.pending = .throwUnless false e :: pending) :
      Step s { s with invocations := outer }
  | callback {s : State} {invocation : Invocation} {outer : List Invocation}
      {callback : Callback} {pending : List Effect}
      (hinvocations : s.invocations = invocation :: outer)
      (hpending : invocation.pending = .callback callback :: pending) :
      Step s { s with
        invocations := invocation.next (.callback callback) pending :: outer
        trace := s.trace ++ [.called invocation.id callback] }
  | exit {s : State} {invocation : Invocation} {outer : List Invocation} {pending : List Effect}
      (hinvocations : s.invocations = invocation :: outer)
      (hpending : invocation.pending = .exit :: pending) :
      Step s { s with invocations := outer }
  | finish {s : State} {invocation : Invocation} {outer : List Invocation}
      (hinvocations : s.invocations = invocation :: outer) (hpending : invocation.pending = []) :
      Step s { s with invocations := outer }

inductive Reachable (gas : UInt64) : State → Prop
  | start : Reachable gas (.start gas)
  | step {s s' : State} (hreachable : Reachable gas s) (hstep : Step s s') : Reachable gas s'

/-- The charge of an event, if it is one of the call. -/
def Event.chargeOf (id : Nat) : Event → Option Nat
  | charged id' amount => if id' = id then some amount else none
  | _ => none

/-- What the call was charged, charge by charge. -/
def chargesOf (id : Nat) (trace : List Event) : List Nat := trace.filterMap (Event.chargeOf id)

def Event.amount : Event → Nat
  | charged _ amount => amount
  | _ => 0

/-- What was charged for all calls. -/
def charged (trace : List Event) : Nat := (trace.map Event.amount).sum

/-! ## What a call does -/

def Effect.isCallback : Effect → Bool
  | callback _ => true
  | _ => false

/-- Behind a callback a method does nothing. -/
theorem isCallback_dropLast {σ : Type} (host : Host σ) (data : ActionData) (call : Call) :
    ∀ effect ∈ (call.method host data).dropLast, effect.isCallback = false := by
  cases call with
  | readActionData memory =>
    by_cases hzero : memory.length = 0
    · simp [Call.method, hzero, charge, Effect.isCallback]
    · simp [Call.method, hzero, charge, Effect.isCallback]
  | _ => simp [Call.method, charge, assertion, Effect.isCallback]

/-- Behind a callback nothing is left of its call. -/
theorem eq_nil_of_isCallback {effects before after : List Effect} {callback : Callback}
    (h : ∀ effect ∈ effects.dropLast, effect.isCallback = false)
    (hsplit : effects = before ++ .callback callback :: after) : after = [] := by
  by_contra hne
  have hmem : .callback callback ∈ effects.dropLast := by
    rw [hsplit, List.dropLast_append_of_ne_nil (List.cons_ne_nil _ _),
      List.dropLast_cons_of_ne_nil hne]
    exact List.mem_append_right _ List.mem_cons_self
  cases h _ hmem

theorem amounts_append (effects effects' : List Effect) :
    amounts (effects ++ effects') = amounts effects ++ amounts effects' :=
  List.filterMap_append

/-- An invocation charges its prices in their order, and all of them in front of a callback. -/
structure Priced (invocation : Invocation) : Prop where
  prices : amounts (invocation.executed ++ invocation.pending) <+:
    invocation.call.prices invocation.data
  callback : ∀ before callback after,
    invocation.executed ++ invocation.pending = before ++ .callback callback :: after →
      after = [] ∧ amounts before = invocation.call.prices invocation.data

theorem priced_effects {σ : Type} {host : Host σ} {data : ActionData} {call : Call} {id : Nat}
    (hpages : PagesBounded host) :
    Priced ⟨id, call, data, [], call.effects host data⟩ := by
  refine ⟨amounts_effects call hpages, fun before callback after hsplit => ?_⟩
  simp only [List.nil_append, Call.effects] at hsplit
  cases herror : firstError (call.pointers host) with
  | none =>
    simp only [herror] at hsplit
    obtain rfl := eq_nil_of_isCallback (isCallback_dropLast host data call) hsplit
    refine ⟨rfl, ?_⟩
    have hall : amounts (call.method host data) = call.prices data := amounts_method hpages herror
    rw [hsplit, amounts_append, amounts_callback, amounts_nil, List.append_nil] at hall
    exact hall
  | some e =>
    simp only [herror] at hsplit
    have hmem : Effect.callback callback ∈ [Effect.throwUnless false e] := by
      rw [hsplit]
      simp
    simp at hmem

/-- What is left of a call is priced as before. -/
theorem Priced.next {invocation : Invocation} (h : Priced invocation) {effect : Effect}
    {pending : List Effect} (hpending : invocation.pending = effect :: pending) :
    Priced (invocation.next effect pending) := by
  have hsame : invocation.executed ++ [effect] ++ pending =
      invocation.executed ++ invocation.pending := by
    rw [hpending, List.append_assoc, List.singleton_append]
  unfold Invocation.next
  constructor
  · rw [hsame]
    exact h.prices
  · intro before callback after hsplit
    exact h.callback before callback after (hsame.symm.trans hsplit)

/-! ## What holds in every state -/

/-- The meter agrees with the trace. -/
structure Balanced (gas : UInt64) (s : State) : Prop where
  conserved : s.remainedGas.toNat + charged s.trace = gas.toNat
  ids : ∀ invocation ∈ s.invocations, invocation.id < s.count
  distinct : (s.invocations.map Invocation.id).Nodup
  unused : ∀ id, s.count ≤ id → chargesOf id s.trace = []
  paid : ∀ invocation ∈ s.invocations,
    chargesOf invocation.id s.trace = amounts invocation.executed
  priced : ∀ invocation ∈ s.invocations, Priced invocation

theorem chargesOf_append (id : Nat) (trace trace' : List Event) :
    chargesOf id (trace ++ trace') = chargesOf id trace ++ chargesOf id trace' :=
  List.filterMap_append

theorem charged_append (trace trace' : List Event) :
    charged (trace ++ trace') = charged trace + charged trace' := by
  simp [charged]

/-- At first nothing is charged. -/
theorem balanced_start (gas : UInt64) : Balanced gas (.start gas) where
  conserved := Nat.add_zero _
  ids _ hmem := absurd hmem List.not_mem_nil
  distinct := List.nodup_nil
  unused _ _ := rfl
  paid _ hmem := absurd hmem List.not_mem_nil
  priced _ hmem := absurd hmem List.not_mem_nil

theorem lt_of_useGas_eq_error {remainedGas gas : UInt64} {e : Exception}
    (h : WasmInjections.useGas remainedGas gas = .error e) : remainedGas.toNat < gas.toNat := by
  unfold WasmInjections.useGas at h
  split at h
  · next hlt => exact UInt64.lt_iff_toNat_lt.1 hlt
  · cases h

section Steps

variable {gas left : UInt64} {s : State} {invocation : Invocation} {outer : List Invocation}
  {effect : Effect} {pending : List Effect} {events : List Event}

/-- The innermost call ends, without a charge. -/
theorem Balanced.leave (h : Balanced gas s) (hinvocations : s.invocations = invocation :: outer)
    (hcharged : charged events = 0) (hcharges : ∀ id, chargesOf id events = []) :
    Balanced gas { s with invocations := outer, trace := s.trace ++ events } := by
  have houter : ∀ other ∈ outer, other ∈ s.invocations := by
    intro other hmem
    rw [hinvocations]
    exact List.mem_cons_of_mem _ hmem
  have hdistinct := h.distinct
  rw [hinvocations, List.map_cons] at hdistinct
  refine ⟨?_, fun other hmem => h.ids other (houter other hmem), hdistinct.of_cons, ?_, ?_,
    fun other hmem => h.priced other (houter other hmem)⟩
  · rw [charged_append, hcharged]
    exact h.conserved
  · intro id hle
    rw [chargesOf_append, hcharges, List.append_nil]
    exact h.unused id hle
  · intro other hmem
    rw [chargesOf_append, hcharges, List.append_nil]
    exact h.paid other (houter other hmem)

/-- The innermost call goes on, and is charged what its effect asks for. -/
theorem Balanced.advance (h : Balanced gas s) (hinvocations : s.invocations = invocation :: outer)
    (hpending : invocation.pending = effect :: pending)
    (hcharged : left.toNat + charged events = s.remainedGas.toNat)
    (hcharges : chargesOf invocation.id events = amounts [effect])
    (hothers : ∀ id ≠ invocation.id, chargesOf id events = []) :
    Balanced gas { s with
      remainedGas := left
      invocations := invocation.next effect pending :: outer
      trace := s.trace ++ events } := by
  have hinner : invocation ∈ s.invocations := by
    rw [hinvocations]
    exact List.mem_cons_self
  have houter : ∀ other ∈ outer, other ∈ s.invocations := by
    intro other hmem
    rw [hinvocations]
    exact List.mem_cons_of_mem _ hmem
  have hdistinct := h.distinct
  rw [hinvocations, List.map_cons] at hdistinct
  have hne : ∀ other ∈ outer, other.id ≠ invocation.id := by
    intro other hmem heq
    exact (List.nodup_cons.1 hdistinct).1 (heq ▸ List.mem_map_of_mem hmem)
  constructor
  · have hconserved := h.conserved
    rw [charged_append]
    dsimp only
    omega
  · intro other hmem
    rcases List.mem_cons.1 hmem with rfl | hmem
    · exact h.ids invocation hinner
    · exact h.ids other (houter other hmem)
  · exact hdistinct
  · intro id hle
    have hlt := h.ids invocation hinner
    have hfresh : id ≠ invocation.id := by
      rintro rfl
      exact absurd hlt (Nat.not_lt.2 hle)
    rw [chargesOf_append, hothers id hfresh, List.append_nil]
    exact h.unused id hle
  · intro other hmem
    rcases List.mem_cons.1 hmem with rfl | hmem
    · have hpaid := h.paid invocation hinner
      simp only [Invocation.next, chargesOf_append, amounts_append, hcharges, hpaid]
    · rw [chargesOf_append, hothers other.id (hne other hmem), List.append_nil]
      exact h.paid other (houter other hmem)
  · intro other hmem
    rcases List.mem_cons.1 hmem with rfl | hmem
    · exact (h.priced invocation hinner).next hpending
    · exact h.priced other (houter other hmem)

end Steps

/-- The steps keep the balance. -/
theorem Balanced.step {gas : UInt64} {s s' : State} (h : Balanced gas s) (hstep : Step s s') :
    Balanced gas s' := by
  have hquiet : charged [] = 0 := rfl
  have hunchanged : s.remainedGas.toNat + charged [] = s.remainedGas.toNat := rfl
  have hnone : ∀ id, chargesOf id [] = [] := fun _ => rfl
  cases hstep with
  | @invoke _ host data call hmemories hruns =>
    constructor
    · exact h.conserved
    · intro invocation hmem
      rcases List.mem_cons.1 hmem with rfl | hmem
      · exact Nat.lt_succ_self _
      · exact Nat.lt_succ_of_lt (h.ids invocation hmem)
    · refine List.nodup_cons.2 ⟨fun hmem => ?_, h.distinct⟩
      obtain ⟨invocation, hmem, hid⟩ := List.mem_map.1 hmem
      exact absurd (h.ids invocation hmem) (by rw [hid]; exact Nat.lt_irrefl _)
    · exact fun id hle => h.unused id (Nat.le_of_succ_le hle)
    · intro invocation hmem
      rcases List.mem_cons.1 hmem with rfl | hmem
      · exact h.unused s.count (Nat.le_refl _)
      · exact h.paid invocation hmem
    · intro invocation hmem
      rcases List.mem_cons.1 hmem with rfl | hmem
      · exact priced_effects (pagesBounded hmemories)
      · exact h.priced invocation hmem
  | @charge invocation outer gas' pending left hinvocations hpending hgas =>
    refine h.advance hinvocations hpending ?_ ?_ ?_
    · have hleft := WasmInjections.useGas_eq_ok hgas
      simp only [charged, List.map_cons, List.map_nil, List.sum_singleton, Event.amount]
      omega
    · simp [chargesOf, Event.chargeOf, amounts, Effect.amount]
    · intro id hne
      simp [chargesOf, Event.chargeOf, hne.symm]
  | refuse hinvocations hpending hgas =>
    exact h.leave hinvocations rfl fun id => rfl
  | pass hinvocations hpending =>
    have hnext := h.advance hinvocations hpending hunchanged rfl fun id _ => hnone id
    rwa [List.append_nil] at hnext
  | throw hinvocations hpending | exit hinvocations hpending | finish hinvocations hpending =>
    have hnext := h.leave hinvocations hquiet hnone
    rwa [List.append_nil] at hnext
  | callback hinvocations hpending =>
    exact h.advance hinvocations hpending rfl rfl fun id _ => rfl

/-- **Conservation.** In every reachable state, gas and charges add up. -/
theorem balanced_of_reachable {gas : UInt64} {s : State} (h : Reachable gas s) :
    Balanced gas s := by
  induction h with
  | start => exact balanced_start gas
  | step _ hstep ih => exact ih.step hstep

/-! ## What a step does to the meter -/

/-- What a step does to the meter. Charges are the prices of their call, in their order. -/
inductive Metered (s s' : State) : Prop
  /-- A charge is taken, exactly. -/
  | charged {invocation : Invocation} {outer : List Invocation} {amount : Nat}
      (hinvocations : s.invocations = invocation :: outer)
      (hprice : chargesOf invocation.id s.trace ++ [amount] <+:
        invocation.call.prices invocation.data)
      (htrace : s'.trace = s.trace ++ [.charged invocation.id amount])
      (hgas : s'.remainedGas.toNat + amount = s.remainedGas.toNat)
  /-- A charge throws, which ends its call. -/
  | refused {invocation : Invocation} {outer : List Invocation} {amount : Nat}
      (hinvocations : s.invocations = invocation :: outer)
      (hprice : chargesOf invocation.id s.trace ++ [amount] <+:
        invocation.call.prices invocation.data)
      (htrace : s'.trace = s.trace ++ [.refused invocation.id amount])
      (hover : s.remainedGas.toNat < amount) (hgas : s'.remainedGas = s.remainedGas)
      (hended : s'.invocations = outer)
  /-- The host is called by a call that has paid all of its prices. -/
  | called {invocation : Invocation} {outer : List Invocation} {callback : Callback}
      (hinvocations : s.invocations = invocation :: outer)
      (hpaid : chargesOf invocation.id s.trace = invocation.call.prices invocation.data)
      (htrace : s'.trace = s.trace ++ [.called invocation.id callback])
      (hgas : s'.remainedGas = s.remainedGas)
  | silent (htrace : s'.trace = s.trace) (hgas : s'.remainedGas = s.remainedGas)

/-- The next charge of a call is the next of its prices. -/
theorem Balanced.price {gas : UInt64} {s : State} (h : Balanced gas s) {invocation : Invocation}
    {outer : List Invocation} (hinvocations : s.invocations = invocation :: outer) {gas' : Int64}
    {pending : List Effect} (hpending : invocation.pending = .useGas gas' :: pending) :
    chargesOf invocation.id s.trace ++ [gas'.toUInt64.toNat] <+:
      invocation.call.prices invocation.data := by
  have hinner : invocation ∈ s.invocations := by
    rw [hinvocations]
    exact List.mem_cons_self
  have hprices := (h.priced invocation hinner).prices
  have hsplit : amounts (invocation.executed ++ invocation.pending) =
      (amounts invocation.executed ++ [gas'.toUInt64.toNat]) ++ amounts pending := by
    rw [hpending, amounts_append, List.append_assoc]
    rfl
  rw [h.paid invocation hinner]
  rw [hsplit] at hprices
  exact (List.prefix_append _ _).trans hprices

theorem Balanced.metered {gas : UInt64} {s s' : State} (h : Balanced gas s) (hstep : Step s s') :
    Metered s s' := by
  cases hstep with
  | charge hinvocations hpending hgas =>
    have hleft := WasmInjections.useGas_eq_ok hgas
    refine .charged hinvocations (h.price hinvocations hpending) rfl ?_
    dsimp only
    omega
  | refuse hinvocations hpending hgas =>
    exact .refused hinvocations (h.price hinvocations hpending) rfl (lt_of_useGas_eq_error hgas) rfl
      rfl
  | @callback invocation outer callback pending hinvocations hpending =>
    have hinner : invocation ∈ s.invocations := by
      rw [hinvocations]
      exact List.mem_cons_self
    have hall := (h.priced invocation hinner).callback invocation.executed callback pending
      (by rw [hpending])
    refine .called hinvocations ?_ rfl rfl
    rw [h.paid invocation hinner]
    exact hall.2
  | invoke hmemories hruns => exact .silent rfl rfl
  | pass hinvocations hpending | throw hinvocations hpending | exit hinvocations hpending
  | finish hinvocations hpending => exact .silent rfl rfl

/-- The gas only goes down. -/
theorem Metered.le {s s' : State} (h : Metered s s') : s'.remainedGas ≤ s.remainedGas := by
  cases h with
  | charged hinvocations hprice htrace hgas =>
    rw [UInt64.le_iff_toNat_le]
    omega
  | refused hinvocations hprice htrace hover hgas hended => exact UInt64.le_of_eq hgas
  | called hinvocations hpaid htrace hgas => exact UInt64.le_of_eq hgas
  | silent htrace hgas => exact UInt64.le_of_eq hgas

/-- **The meter is exact.** In every run, with callbacks that run contracts on the same meter, what
remains and what was charged make up the gas at first. A charge takes its exact price or throws and
takes nothing, nothing gives gas back, and the host is called only when all is paid. -/
theorem gas_meter_exact {gas : UInt64} {s : State} (hreachable : Reachable gas s) :
    s.remainedGas.toNat + charged s.trace = gas.toNat ∧
      ∀ s', Step s s' → Metered s s' ∧ s'.remainedGas ≤ s.remainedGas := by
  have hbalanced := balanced_of_reachable hreachable
  refine ⟨hbalanced.conserved, fun s' hstep => ?_⟩
  have hmetered := hbalanced.metered hstep
  exact ⟨hmetered, hmetered.le⟩

/-- A host with one memory of one page. -/
def oneMemory : Host Unit := ⟨fun _ => ⟨⟨false, ⟨1, 2⟩⟩, 1, fun _ => 0⟩, fun _ => 0, ⟨some 0, ()⟩, []⟩

theorem memoriesUsed_oneMemory : MemoriesUsed oneMemory := by
  intro mem
  have hcreated : MemoryInstance.createMemory true true ⟨false, ⟨1, 2⟩⟩ =
      some ⟨⟨false, ⟨1, 2⟩⟩, 1, memset (fun _ => 0) 0 0 wasmPageSize⟩ := rfl
  exact .touched (.created ⟨by simp, by simp [WasmInjections.maximumLinearMemory, wasmPageSize]⟩
    hcreated) (.stored fun _ => 0)

def noData : ActionData := ⟨[], Nat.two_pow_pos 31⟩

/-- A charge of 30 that is about to be made. -/
def charging : State :=
  ⟨100, 1, [⟨0, .useGas 30, noData, [], Call.effects oneMemory noData (.useGas 30)⟩], []⟩

theorem gas_meter_exact_sample :
    ∃ s s', Step s s' ∧ s'.remainedGas.toNat + charged s'.trace = 100 ∧
      s'.remainedGas ≤ s.remainedGas ∧ s'.remainedGas = 70 := by
  have hreachable : Reachable 100 charging :=
    .step .start (.invoke memoriesUsed_oneMemory fun _ hnone => by cases hnone)
  have hcharge : WasmInjections.useGas 100 (30 : UInt64).toInt64.toUInt64 = .ok 70 := rfl
  have hstep : Step charging _ := .charge rfl rfl hcharge
  exact ⟨charging, _, hstep, (gas_meter_exact (.step hreachable hstep)).1,
    ((gas_meter_exact hreachable).2 _ hstep).2, rfl⟩

end Api

end FractalWasm
