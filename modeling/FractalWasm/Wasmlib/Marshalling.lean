import FractalWasm.Wasmlib.References
import Mathlib.Data.Prod.TProd

/-!
# Marshalling

`wavm.hpp`: `intrinsic_invoker_impl` turns a native method into a function of WebAssembly arguments.
It takes the native parameters from the front of a list one by one, and for each it appends what the
parameter is transcribed from to the WebAssembly parameters and wraps the method in a
`translate_one`, which takes its arguments from the back. So the last parameter is translated first.

**Parameters** (`Param`): a native type by the WebAssembly parameters it is transcribed from and its
translation.

**A translation** (`Calls`, `Raises`): it comes to a call of the method with native arguments in
some host, or throws without a call.

**The chain**: for any list of parameters the method is called with each argument translated,
exactly when all of them pass their checks (`runFn_calls`, `runFn_raises`, by induction over the
list).
-/

namespace FractalWasm

/-! ## Lists of arguments -/

namespace Wavm

section Tuples

variable {ι : Type} {carrier : ι → Type}

/-- The arguments `args` and, behind them, `more`. -/
def appendArgs : {types more : List ι} → types.TProd carrier → more.TProd carrier →
    (types ++ more).TProd carrier
  | [], _, _, more => more
  | _ :: _, _, (arg, args), more => (arg, appendArgs args more)

def splitArgs : (types : List ι) → {more : List ι} → (types ++ more).TProd carrier →
    types.TProd carrier × more.TProd carrier
  | [], _, args => (PUnit.unit, args)
  | _ :: types, _, (arg, args) => ((arg, (splitArgs types args).1), (splitArgs types args).2)

/-- Arguments put together are taken apart again. -/
theorem splitArgs_appendArgs {types more : List ι} (args : types.TProd carrier)
    (rest : more.TProd carrier) : splitArgs types (appendArgs args rest) = (args, rest) := by
  induction types with
  | nil => rfl
  | cons type types ih =>
    obtain ⟨arg, args⟩ := args
    simp only [appendArgs, splitArgs, ih]

/-- And the other way round. -/
theorem appendArgs_splitArgs {types more : List ι} (args : (types ++ more).TProd carrier) :
    appendArgs (splitArgs types args).1 (splitArgs types args).2 = args := by
  induction types with
  | nil => rfl
  | cons type types ih =>
    obtain ⟨arg, args⟩ := args
    exact congrArg (arg, ·) (ih args)

end Tuples

open FractalWasm.Runtime IR Serialization

/-! ## Native types -/

/-- The native types that `native_to_wasm` maps by value. -/
inductive Simple where
  | float
  | double
  | int32
  | uint32
  | int64
  | uint64
  | bool
  | name
  deriving DecidableEq, Repr

/-- The values of a WebAssembly type; those of the floating-point types are bits. -/
abbrev WasmValue : ValueType → Type
  | .i32 | .f32 => UInt32
  | .i64 | .f64 => UInt64
  | _ => Unit

namespace Simple

/-- `native_to_wasm_t<T>` -/
abbrev wasm : Simple → ValueType
  | float => .f32
  | double => .f64
  | int32 | uint32 | bool => .i32
  | int64 | uint64 | name => .i64

abbrev Native : Simple → Type
  | float | int32 | uint32 => UInt32
  | double | int64 | uint64 | name => UInt64
  | bool => Bool

/-- `convert_wasm_to_native` -/
def toNative : (type : Simple) → WasmValue type.wasm → type.Native
  | float, value | int32, value | uint32, value => value
  | double, value | int64, value | uint64, value | name, value => value
  | bool, value => (value : UInt32) != 0

/-- `convert_native_to_wasm` -/
def toWasm : (type : Simple) → type.Native → WasmValue type.wasm
  | float, value | int32, value | uint32, value => value
  | double, value | int64, value | uint64, value | name, value => value
  | bool, value => if value then (1 : UInt32) else (0 : UInt32)

end Simple

/-- A native parameter, with the `size_t` behind it that it may consume. `memset` stands for the
specialization of the parameters `array_ptr<char>, int, size_t`, which has no others beside it. -/
inductive Param where
  | simple (type : Simple)
  | name
  | arrayPtr (T : NativeType)
  | nullTerminatedPtr
  | arrayPtrs (isConstT isConstU : Bool)
  | memset
  | pointer (T : NativeType)
  | reference (T : NativeType)

namespace Param

/-- What a parameter is transcribed from. -/
abbrev wasm : Param → List ValueType
  | simple type => [type.wasm]
  | name => [.i64]
  | arrayPtr _ => [.i32, .i32]
  | nullTerminatedPtr => [.i32]
  | arrayPtrs _ _ => [.i32, .i32, .i32]
  | memset => [.i32, .i32, .i32]
  | pointer _ => [.i32]
  | reference _ => [.i32]

/-- What the native method is given. -/
abbrev NativeArg : Param → Type
  | simple type => type.Native
  | name => UInt64
  | arrayPtr _ => Place × UInt64
  | nullTerminatedPtr => LinearPtr
  | arrayPtrs _ _ => LinearPtr × LinearPtr × UInt64
  | memset => LinearPtr × UInt32 × UInt64
  | pointer _ => Place
  | reference _ => Place

/-- The WebAssembly arguments of a parameter. -/
abbrev Args (p : Param) : Type := p.wasm.TProd WasmValue

end Param

variable {σ α : Type}

/-! ## The members `translate_one` -/

/-- `translate_one` of a simple type -/
def translateSimple (type : Simple) (last : WasmValue type.wasm)
    (Then : type.Native → Native σ α) : Native σ α := Then (type.toNative last)

/-- `translate_one` of a `const name &` -/
def translateName (wasmValue : UInt64) (Then : UInt64 → Native σ α) : Native σ α := Then wasmValue

/-- `translate_one` of an `array_ptr<T>` and a `size_t` -/
def translateArrayPtr (T : NativeType) (ptr size : UInt32) (Then : Place × UInt64 → Native σ α) :
    Native σ α := fun host =>
  let length := uptrOfI32 size
  match arrayPtrImpl T host ptr length with
  | .error e => (.error e, host)
  | .ok base => passObjects T (length.toNat * T.size) base (fun place => Then (place, length)) host

/-- `translate_one` of a `null_terminated_ptr` -/
def translateNullTerminatedPtr (ptr : UInt32) (Then : LinearPtr → Native σ α) : Native σ α :=
  fun host =>
    match (nullTerminatedPtrImpl host ptr).1 with
    | .error e => (.error e, host)
    | .ok value => Then value host

/-- `translate_one` of an `array_ptr<T>`, an `array_ptr<U>` and a `size_t`, all of `char` -/
def translateArrayPtrs (isConstT isConstU : Bool) (ptrT ptrU size : UInt32)
    (Then : LinearPtr × LinearPtr × UInt64 → Native σ α) : Native σ α := fun host =>
  let length := uptrOfI32 size
  match arrayPtrImpl (.char isConstT) host ptrT length with
  | .error e => (.error e, host)
  | .ok baseT =>
    match arrayPtrImpl (.char isConstU) host ptrU length with
    | .error e => (.error e, host)
    | .ok baseU => Then (baseT, baseU, length) host

/-- `translate_one` of `memset` -/
def translateMemset (ptr value size : UInt32) (Then : LinearPtr × UInt32 × UInt64 → Native σ α) :
    Native σ α := fun host =>
  let length := uptrOfI32 size
  match arrayPtrImpl (.char false) host ptr length with
  | .error e => (.error e, host)
  | .ok base => Then (base, value, length) host

/-- `translate_one`, on the arguments of its own parameter. -/
def Param.translate : (p : Param) → p.Args → (p.NativeArg → Native σ α) → Native σ α
  | simple type, (last, _), Then => translateSimple type last Then
  | name, (wasmValue, _), Then => translateName wasmValue Then
  | arrayPtr T, (ptr, size, _), Then => translateArrayPtr T ptr size Then
  | nullTerminatedPtr, (ptr, _), Then => translateNullTerminatedPtr ptr Then
  | arrayPtrs isConstT isConstU, (ptrT, ptrU, size, _), Then =>
    translateArrayPtrs isConstT isConstU ptrT ptrU size Then
  | memset, (ptr, value, size, _), Then => translateMemset ptr value size Then
  | pointer T, (ptr, _), Then => translatePointer T ptr Then
  | reference T, (ptr, _), Then => translateReference T ptr Then

/-- `translate_one`: `rest` are the native parameters behind its own, `args` the WebAssembly
parameters in front of its own and then its own. -/
def translateOne (p : Param) {ps : List Param} {types : List ValueType}
    (Then : (p :: ps).TProd Param.NativeArg → types.TProd WasmValue → Native σ α)
    (rest : ps.TProd Param.NativeArg) (args : (types ++ p.wasm).TProd WasmValue) : Native σ α :=
  p.translate (splitArgs types args).2 fun native => Then (native, rest) (splitArgs types args).1

/-! ## The chain -/

/-- The WebAssembly parameters once all native parameters are transcribed. -/
abbrev translated : List Param → List ValueType → List ValueType
  | [], types => types
  | p :: ps, types => translated ps (types ++ p.wasm)

/-- `intrinsic_invoker_impl::fn`, for the native parameters that are left and the WebAssembly
parameters so far. -/
def invokerFn : (ps : List Param) → (types : List ValueType) →
    (ps.TProd Param.NativeArg → types.TProd WasmValue → Native σ α) →
      (translated ps types).TProd WasmValue → Native σ α
  | [], _, Then => Then PUnit.unit
  | p :: ps, types, Then => invokerFn ps (types ++ p.wasm) (translateOne p Then)

/-- What a native method returns. -/
inductive Ret where
  | void
  | simple (type : Simple)
  | charPtr
  deriving DecidableEq, Repr

namespace Ret

abbrev Native : Ret → Type
  | void => Unit
  | simple type => type.Native
  | charPtr => Place

abbrev Wasm : Ret → Type
  | void => Unit
  | simple type => WasmValue type.wasm
  | charPtr => UInt32

/-- `convert_native_to_wasm` -/
def convert : (ret : Ret) → ret.Native → Host σ → Except Exception ret.Wasm
  | void, _, _ => .ok ()
  | simple type, value, _ => .ok (type.toWasm value)
  | charPtr, place, host =>
    match host.context.memory, place with
    | some mem, .linear ptr =>
      if ptr.memory = mem ∧ ptr.offset < memTotal (host.memories mem) then
        .ok ptr.offset.toUInt32
      else accessViolation
    | _, _ => accessViolation

end Ret

/-- `invoke`, on `fn<wrapper>`: the method on the arguments from a contract. -/
def invoke (ret : Ret) (ps : List Param) (method : ps.TProd Param.NativeArg → Native σ ret.Native)
    (args : (translated ps []).TProd WasmValue) : Native σ ret.Wasm := fun host =>
  match invokerFn ps [] (fun natives _ => method natives) args host with
  | (.ok value, host) => (ret.convert value host, host)
  | (.error e, host) => (.error e, host)

/-! ## What a translation comes to -/

section Calls

variable {β N N' : Type}

/-- However the method goes on, it is called with `native` on the host `entry`, once, and what it
returns or throws goes through the same steps; if it throws, the host is as it was. -/
def Calls (run : (N → Native σ α) → Except Exception β × Host σ) (host : Host σ) (native : N)
    (entry : Host σ) : Prop :=
  ∃ after : Except Exception α × Host σ → Except Exception β × Host σ,
    (∀ method, run method = after (method native entry)) ∧
      ∀ e, after (.error e, entry) = (.error e, host)

/-- The method is not called, whichever it is, and the host is as it was. -/
def Raises (run : (N → Native σ α) → Except Exception β × Host σ) (host : Host σ) : Prop :=
  ∃ e, ∀ method, run method = (.error e, host)

variable {run : (N → Native σ α) → Except Exception β × Host σ} {host entry entry' : Host σ}
  {native : N} {native' : N'}

/-- A translation may be made of two, the inner one in the host behind the outer one. -/
theorem Calls.comp (h : Calls run host native entry) (inner : N → (N' → Native σ α) → Native σ α)
    (h' : Calls (fun method => inner native method entry) entry native' entry') :
    Calls (fun method => run fun native => inner native method) host native' entry' := by
  obtain ⟨after, hrun, herror⟩ := h
  obtain ⟨after', hrun', herror'⟩ := h'
  refine ⟨after ∘ after', fun method => ?_, fun e => ?_⟩
  · exact (hrun _).trans (congrArg after (hrun' method))
  · rw [Function.comp_apply, herror', herror]

theorem Calls.map (h : Calls run host native entry) (f : N → N') :
    Calls (fun method => run fun native => method (f native)) host (f native) entry := by
  obtain ⟨after, hrun, herror⟩ := h
  exact ⟨after, fun method => hrun _, herror⟩

/-- If the inner one throws, so does the whole. -/
theorem Calls.raises (h : Calls run host native entry)
    (inner : N → (N' → Native σ α) → Native σ α)
    (h' : Raises (fun method => inner native method entry) entry) :
    Raises (fun method => run fun native => inner native method) host := by
  obtain ⟨after, hrun, herror⟩ := h
  obtain ⟨e, hraise⟩ := h'
  exact ⟨e, fun method => (hrun _).trans ((congrArg after (hraise method)).trans (herror e))⟩

/-- If the outer one throws, the inner one is not run. -/
theorem Raises.comp (h : Raises run host) (inner : N → (N' → Native σ α) → Native σ α) :
    Raises (fun method => run fun native => inner native method) host := by
  obtain ⟨e, hraise⟩ := h
  exact ⟨e, fun method => hraise _⟩

end Calls

/-- A host that differs by copies that were made since. -/
structure Extends (host entry : Host σ) : Prop where
  memories : entry.memories = host.memories
  baseAddress : entry.baseAddress = host.baseAddress
  context : entry.context = host.context
  copies : host.copies <+: entry.copies

theorem Extends.refl (host : Host σ) : Extends host host := ⟨rfl, rfl, rfl, List.prefix_rfl⟩

theorem Extends.trans {host entry entry' : Host σ} (h : Extends host entry)
    (h' : Extends entry entry') : Extends host entry' :=
  ⟨h'.memories.trans h.memories, h'.baseAddress.trans h.baseAddress, h'.context.trans h.context,
    h.copies.trans h'.copies⟩

/-- A copy in the host adds to its buffers. -/
theorem extends_push (host : Host σ) (copy : Nat → UInt8) : Extends host (host.push copy) :=
  ⟨rfl, rfl, rfl, List.prefix_append _ _⟩

/-- At `entry`, a pointer of the method points to the objects at `ptr`, or to a copy of so many bytes
of them that was made since `host`. -/
def PointsTo (host entry : Host σ) (numBytes : Nat) (ptr : LinearPtr) (place : Place) : Prop :=
  (place = .linear ptr ∨ ∃ index, place = .copy index ∧ host.copies.length ≤ index ∧
    index < entry.copies.length) ∧
  ∀ i < numBytes, entry.bytes place i = (host.memories ptr.memory).contents (ptr.offset + i)

/-- The checks of a parameter on its arguments. -/
def Param.Passes (host : Host σ) : (p : Param) → p.Args → Prop
  | simple _, _ | name, _ => True
  | arrayPtr T, (ptr, size, _) => ∃ mem, ArrayInside T host ptr (uptrOfI32 size) mem
  | nullTerminatedPtr, (ptr, _) => ∃ mem, StringInside host ptr mem
  | arrayPtrs isConstT isConstU, (ptrT, ptrU, size, _) =>
    (∃ mem, ArrayInside (.char isConstT) host ptrT (uptrOfI32 size) mem) ∧
      ∃ mem, ArrayInside (.char isConstU) host ptrU (uptrOfI32 size) mem
  | memset, (ptr, _, size, _) => ∃ mem, ArrayInside (.char false) host ptr (uptrOfI32 size) mem
  | pointer T, (ptr, _) => ∃ mem, ArrayInside T host ptr 1 mem
  | reference T, (ptr, _) => ∃ base, referenceBase T host ptr = .ok base

/-- The native parameter is built from the arguments. -/
def Param.Built (host entry : Host σ) : (p : Param) → p.Args → p.NativeArg → Prop
  | simple type, (last, _), native => native = type.toNative last
  | name, (wasmValue, _), native => native = wasmValue
  | arrayPtr T, (ptr, size, _), (place, length) => length = uptrOfI32 size ∧
    ∃ mem, host.context.memory = some mem ∧
      PointsTo host entry (length.toNat * T.size) ⟨mem, ptr.toNat⟩ place
  | nullTerminatedPtr, (ptr, _), native =>
    ∃ mem, host.context.memory = some mem ∧ native = ⟨mem, ptr.toNat⟩
  | arrayPtrs _ _, (ptrT, ptrU, size, _), native =>
    ∃ mem, host.context.memory = some mem ∧
      native = (⟨mem, ptrT.toNat⟩, ⟨mem, ptrU.toNat⟩, uptrOfI32 size)
  | memset, (ptr, value, size, _), native =>
    ∃ mem, host.context.memory = some mem ∧ native = (⟨mem, ptr.toNat⟩, value, uptrOfI32 size)
  | pointer T, (ptr, _), place | reference T, (ptr, _), place =>
    ∃ mem, host.context.memory = some mem ∧ PointsTo host entry T.size ⟨mem, ptr.toNat⟩ place

/-! ## One parameter -/

/-- Buffers that were added do not matter to the checks of a parameter. -/
theorem Extends.passes_iff {host entry : Host σ} (h : Extends host entry) (p : Param)
    (args : p.Args) : p.Passes entry args ↔ p.Passes host args := by
  obtain ⟨memories, baseAddress, context, copies⟩ := host
  obtain ⟨memories', baseAddress', context', copies'⟩ := entry
  obtain ⟨hmemories, hbase, hcontext, -⟩ := h
  cases hmemories
  cases hcontext
  cases p <;> exact Iff.rfl

theorem Extends.bytes_copy {entry entry' : Host σ} (h : Extends entry entry') {index : Nat}
    (hlt : index < entry.copies.length) (i : Nat) :
    entry'.bytes (.copy index) i = entry.bytes (.copy index) i := by
  obtain ⟨more, hmore⟩ := h.copies
  simp only [Host.bytes, ← hmore, List.getD_eq_getElem?_getD, List.getElem?_append_left hlt]

/-- Copies made earlier or later do not matter. -/
theorem PointsTo.mono {host host' entry entry' : Host σ} {numBytes : Nat} {ptr : LinearPtr}
    {place : Place} (h : PointsTo host' entry numBytes ptr place) (hhost : Extends host host')
    (hentry : Extends entry entry') : PointsTo host entry' numBytes ptr place := by
  obtain ⟨hplace, hbytes⟩ := h
  have hlength := hhost.copies.length_le
  have hlength' := hentry.copies.length_le
  rw [hhost.memories] at hbytes
  rcases hplace with rfl | ⟨index, rfl, hle, hlt⟩
  · refine ⟨.inl rfl, fun i hi => ?_⟩
    rw [← hbytes i hi]
    unfold Host.bytes
    rw [hentry.memories]
  · refine ⟨.inr ⟨index, rfl, by omega, by omega⟩, fun i hi => ?_⟩
    rw [hentry.bytes_copy hlt, hbytes i hi]

/-- A native argument stays what it was built to be. -/
theorem Param.Built.mono {host host' entry entry' : Host σ} {p : Param} {args : p.Args}
    {native : p.NativeArg} (h : p.Built host' entry args native) (hhost : Extends host host')
    (hentry : Extends entry entry') : p.Built host entry' args native := by
  cases p with
  | simple type => exact h
  | name => exact h
  | arrayPtr T =>
    obtain ⟨hlength, mem, hmem, hpoints⟩ := h
    exact ⟨hlength, mem, hhost.context ▸ hmem, hpoints.mono hhost hentry⟩
  | nullTerminatedPtr =>
    obtain ⟨mem, hmem, hnative⟩ := h
    exact ⟨mem, hhost.context ▸ hmem, hnative⟩
  | arrayPtrs isConstT isConstU =>
    obtain ⟨mem, hmem, hnative⟩ := h
    exact ⟨mem, hhost.context ▸ hmem, hnative⟩
  | memset =>
    obtain ⟨mem, hmem, hnative⟩ := h
    exact ⟨mem, hhost.context ▸ hmem, hnative⟩
  | pointer T =>
    obtain ⟨mem, hmem, hpoints⟩ := h
    exact ⟨mem, hhost.context ▸ hmem, hpoints.mono hhost hentry⟩
  | reference T =>
    obtain ⟨mem, hmem, hpoints⟩ := h
    exact ⟨mem, hhost.context ▸ hmem, hpoints.mono hhost hentry⟩

theorem calls_id {N : Type} (host : Host σ) (native : N) :
    Calls (fun method : N → Native σ α => method native host) host native host :=
  ⟨id, fun _ => rfl, fun _ => rfl⟩

/-- A pointer or a reference to objects is passed on, or a copy of them is. -/
theorem calls_passObjects (α : Type) (T : NativeType) (numBytes : Nat) (base : LinearPtr)
    (host : Host σ) :
    ∃ place entry, Extends host entry ∧ PointsTo host entry numBytes base place ∧
      Calls (fun method : Place → Native σ α => passObjects T numBytes base method host)
        host place entry := by
  unfold passObjects
  by_cases hmisaligned : (host.baseAddress base.memory + base.offset) % T.alignment ≠ 0
  · simp only [if_pos hmisaligned]
    generalize hcopy : (fun i => if i < numBytes then host.bytes (.linear base) i else 0) = copy
    refine ⟨.copy host.copies.length, host.push copy, extends_push host copy, ⟨?_, ?_⟩,
      copyBack T numBytes base host.copies.length, fun _ => rfl, ?_⟩
    · exact .inr ⟨_, rfl, Nat.le_refl _, by simp [Host.push]⟩
    · intro i hi
      rw [Host.bytes_push, ← hcopy]
      exact if_pos hi
    · intro e
      unfold copyBack
      rw [Host.pop_push]
  · simp only [if_neg hmisaligned]
    exact ⟨.linear base, host, .refl host, ⟨.inl rfl, fun _ _ => rfl⟩, calls_id host _⟩

theorem of_referenceBase {T : NativeType} {host : Host σ} {ptr : UInt32} {base : LinearPtr}
    (h : referenceBase T host ptr = .ok base) :
    ∃ mem, host.context.memory = some mem ∧ base = ⟨mem, ptr.toNat⟩ := by
  by_cases hptr : ptr = 0
  · subst hptr
    cases h
  · obtain ⟨mem, hmem, -, hbase⟩ := (referenceBase_eq_ok hptr).1 h
    exact ⟨mem, hmem, hbase⟩

/-- A parameter whose checks pass is translated to its native argument. -/
theorem translate_calls {p : Param} {args : p.Args} {host : Host σ} (h : p.Passes host args) :
    ∃ native entry, Extends host entry ∧ p.Built host entry args native ∧
      Calls (fun method : p.NativeArg → Native σ α => p.translate args method host)
        host native entry := by
  cases p with
  | simple type => exact ⟨_, host, .refl host, rfl, calls_id host _⟩
  | name => exact ⟨_, host, .refl host, rfl, calls_id host _⟩
  | arrayPtr T =>
    obtain ⟨ptr, size, u⟩ := args
    obtain ⟨mem, hinside⟩ := h
    obtain ⟨place, entry, hextends, hpoints, hcalls⟩ := calls_passObjects α T
      ((uptrOfI32 size).toNat * T.size) ⟨mem, ptr.toNat⟩ host
    refine ⟨(place, uptrOfI32 size), entry, hextends, ⟨rfl, mem, hinside.1, hpoints⟩, ?_⟩
    simp only [Param.translate, translateArrayPtr, arrayPtrImpl_of_inside hinside]
    exact hcalls.map (·, uptrOfI32 size)
  | nullTerminatedPtr =>
    obtain ⟨ptr, u⟩ := args
    obtain ⟨mem, hinside⟩ := h
    refine ⟨⟨mem, ptr.toNat⟩, host, .refl host, ⟨mem, hinside.1, rfl⟩, ?_⟩
    simp only [Param.translate, translateNullTerminatedPtr, nullTerminatedPtrImpl_of_inside hinside]
    exact calls_id host _
  | arrayPtrs isConstT isConstU =>
    obtain ⟨ptrT, ptrU, size, u⟩ := args
    obtain ⟨⟨mem, hinsideT⟩, mem', hinsideU⟩ := h
    have hsame : mem' = mem := Option.some.inj (hinsideU.1.symm.trans hinsideT.1)
    subst hsame
    refine ⟨(⟨mem', ptrT.toNat⟩, ⟨mem', ptrU.toNat⟩, uptrOfI32 size), host, .refl host,
      ⟨mem', hinsideT.1, rfl⟩, ?_⟩
    simp only [Param.translate, translateArrayPtrs, arrayPtrImpl_of_inside hinsideT,
      arrayPtrImpl_of_inside hinsideU]
    exact calls_id host _
  | memset =>
    obtain ⟨ptr, value, size, u⟩ := args
    obtain ⟨mem, hinside⟩ := h
    refine ⟨(⟨mem, ptr.toNat⟩, value, uptrOfI32 size), host, .refl host,
      ⟨mem, hinside.1, rfl⟩, ?_⟩
    simp only [Param.translate, translateMemset, arrayPtrImpl_of_inside hinside]
    exact calls_id host _
  | pointer T =>
    obtain ⟨ptr, u⟩ := args
    obtain ⟨mem, hinside⟩ := h
    obtain ⟨place, entry, hextends, hpoints, hcalls⟩ := calls_passObjects α T T.size
      ⟨mem, ptr.toNat⟩ host
    refine ⟨place, entry, hextends, ⟨mem, hinside.1, hpoints⟩, ?_⟩
    simp only [Param.translate, translatePointer, arrayPtrImpl_of_inside hinside]
    exact hcalls
  | reference T =>
    obtain ⟨ptr, u⟩ := args
    obtain ⟨base, hbase⟩ := h
    obtain ⟨mem, hmem, hptr⟩ := of_referenceBase hbase
    obtain ⟨place, entry, hextends, hpoints, hcalls⟩ := calls_passObjects α T T.size base host
    rw [hptr] at hpoints
    refine ⟨place, entry, hextends, ⟨mem, hmem, hpoints⟩, ?_⟩
    simp only [Param.translate, translateReference, hbase]
    exact hcalls

/-- One whose checks fail throws. -/
theorem translate_raises {p : Param} {args : p.Args} {host : Host σ} (h : ¬ p.Passes host args) :
    Raises (fun method : p.NativeArg → Native σ α => p.translate args method host) host := by
  cases p with
  | simple type => exact absurd trivial h
  | name => exact absurd trivial h
  | arrayPtr T =>
    obtain ⟨ptr, size, u⟩ := args
    refine ⟨.runtime .accessViolation, fun method => ?_⟩
    simp only [Param.translate, translateArrayPtr,
      arrayPtrImpl_of_not_inside fun mem hinside => h ⟨mem, hinside⟩]
    rfl
  | nullTerminatedPtr =>
    obtain ⟨ptr, u⟩ := args
    refine ⟨.runtime .accessViolation, fun method => ?_⟩
    simp only [Param.translate, translateNullTerminatedPtr,
      nullTerminatedPtrImpl_of_not_inside fun mem hinside => h ⟨mem, hinside⟩]
    rfl
  | arrayPtrs isConstT isConstU =>
    obtain ⟨ptrT, ptrU, size, u⟩ := args
    refine ⟨.runtime .accessViolation, fun method => ?_⟩
    by_cases hT : ∃ mem, ArrayInside (.char isConstT) host ptrT (uptrOfI32 size) mem
    · have hU : ∀ mem, ¬ ArrayInside (.char isConstU) host ptrU (uptrOfI32 size) mem :=
        fun mem hinside => h ⟨hT, mem, hinside⟩
      obtain ⟨mem, hinside⟩ := hT
      simp only [Param.translate, translateArrayPtrs, arrayPtrImpl_of_inside hinside,
        arrayPtrImpl_of_not_inside hU]
      rfl
    · simp only [Param.translate, translateArrayPtrs,
        arrayPtrImpl_of_not_inside fun mem hinside => hT ⟨mem, hinside⟩]
      rfl
  | memset =>
    obtain ⟨ptr, value, size, u⟩ := args
    refine ⟨.runtime .accessViolation, fun method => ?_⟩
    simp only [Param.translate, translateMemset,
      arrayPtrImpl_of_not_inside fun mem hinside => h ⟨mem, hinside⟩]
    rfl
  | pointer T =>
    obtain ⟨ptr, u⟩ := args
    refine ⟨.runtime .accessViolation, fun method => ?_⟩
    simp only [Param.translate, translatePointer,
      arrayPtrImpl_of_not_inside fun mem hinside => h ⟨mem, hinside⟩]
    rfl
  | reference T =>
    obtain ⟨ptr, u⟩ := args
    cases hbase : referenceBase T host ptr with
    | ok base => exact absurd ⟨base, hbase⟩ h
    | error e =>
      refine ⟨e, fun method => ?_⟩
      simp only [Param.translate, translateReference, hbase]

/-! ## All parameters -/

/-- The WebAssembly arguments: those so far and, in their order, those of the parameters. -/
def joinArgs : (ps : List Param) → {types : List ValueType} → types.TProd WasmValue →
    ps.TProd Param.Args → (translated ps types).TProd WasmValue
  | [], _, args, _ => args
  | _ :: ps, _, args, (own, rest) => joinArgs ps (appendArgs args own) rest

/-- No arguments. -/
abbrev noArgs : ([] : List ValueType).TProd WasmValue := PUnit.unit

/-- Every check of the list passes. -/
def AllPass (host : Host σ) : (ps : List Param) → ps.TProd Param.Args → Prop
  | [], _ => True
  | p :: ps, (own, rest) => p.Passes host own ∧ AllPass host ps rest

/-- Every native parameter is built from its own arguments. -/
def AllBuilt (host entry : Host σ) : (ps : List Param) → ps.TProd Param.Args →
    ps.TProd Param.NativeArg → Prop
  | [], _, _ => True
  | p :: ps, (own, rest), (native, natives) =>
    p.Built host entry own native ∧ AllBuilt host entry ps rest natives

theorem joinArgs_surjective (ps : List Param) {types : List ValueType}
    (args : (translated ps types).TProd WasmValue) :
    ∃ first own, joinArgs ps (first : types.TProd WasmValue) own = args := by
  induction ps generalizing types with
  | nil => exact ⟨args, PUnit.unit, rfl⟩
  | cons p ps ih =>
    obtain ⟨both, rest, hjoin⟩ := ih args
    refine ⟨(splitArgs types both).1, ((splitArgs types both).2, rest), ?_⟩
    rw [← hjoin]
    exact congrArg (joinArgs ps · rest) (appendArgs_splitArgs both)

theorem AllBuilt.mono {host entry entry' : Host σ} {ps : List Param} {own : ps.TProd Param.Args}
    {natives : ps.TProd Param.NativeArg} (h : AllBuilt host entry ps own natives)
    (hentry : Extends entry entry') : AllBuilt host entry' ps own natives := by
  induction ps with
  | nil => trivial
  | cons p ps ih => exact ⟨h.1.mono (.refl host) hentry, ih h.2⟩

/-- The links of the chain: `translate_one` of the first parameter runs when those behind it are
translated. -/
theorem translateOne_appendArgs {p : Param} {ps : List Param} {types : List ValueType}
    (Then : (p :: ps).TProd Param.NativeArg → types.TProd WasmValue → Native σ α)
    (rest : ps.TProd Param.NativeArg) (args : types.TProd WasmValue) (own : p.Args) :
    translateOne p Then rest (appendArgs args own) =
      p.translate own fun native => Then (native, rest) args := by
  unfold translateOne
  rw [splitArgs_appendArgs]

/-- `fn`, as a function of the method. -/
abbrev runFn (ps : List Param) {types : List ValueType} (args : types.TProd WasmValue)
    (own : ps.TProd Param.Args) (host : Host σ)
    (method : ps.TProd Param.NativeArg × types.TProd WasmValue → Native σ α) :
    Except Exception α × Host σ :=
  invokerFn ps types (fun natives args => method (natives, args)) (joinArgs ps args own) host

/-- `translate_one`, as a link between two methods. -/
abbrev linkOne (p : Param) {ps : List Param} {types : List ValueType}
    (mid : ps.TProd Param.NativeArg × (types ++ p.wasm).TProd WasmValue)
    (method : (p :: ps).TProd Param.NativeArg × types.TProd WasmValue → Native σ α) :
    Native σ α :=
  translateOne p (fun natives args => method (natives, args)) mid.1 mid.2

variable {types : List ValueType} {host : Host σ}

/-- All parameters pass, and the method is called with all native arguments. -/
theorem runFn_calls {ps : List Param} (args : types.TProd WasmValue)
    {own : ps.TProd Param.Args} (h : AllPass host ps own) :
    ∃ natives entry, Extends host entry ∧ AllBuilt host entry ps own natives ∧
      Calls (runFn (α := α) ps args own host) host (natives, args) entry := by
  induction ps generalizing types with
  | nil => exact ⟨PUnit.unit, host, .refl host, trivial, calls_id host _⟩
  | cons p ps ih =>
    obtain ⟨own, rest⟩ := own
    obtain ⟨hpass, hrest⟩ := h
    obtain ⟨natives, mid, hmid, hbuilt, hcalls⟩ := ih (appendArgs args own) hrest
    obtain ⟨native, entry, hentry, hnative, hcall⟩ :=
      translate_calls (α := α) ((hmid.passes_iff p own).2 hpass)
    refine ⟨(native, natives), entry, hmid.trans hentry,
      ⟨hnative.mono hmid (.refl entry), hbuilt.mono hentry⟩, ?_⟩
    have hlink : Calls (fun method => linkOne (α := α) p (natives, appendArgs args own) method mid)
        mid ((native, natives), args) entry := by
      simp only [linkOne, translateOne_appendArgs]
      exact hcall.map fun native => ((native, natives), args)
    exact hcalls.comp (linkOne p) hlink

/-- One of them fails, and the method is not called. -/
theorem runFn_raises {ps : List Param} (args : types.TProd WasmValue)
    {own : ps.TProd Param.Args} (h : ¬ AllPass host ps own) :
    Raises (runFn (α := α) ps args own host) host := by
  induction ps generalizing types with
  | nil => exact absurd trivial h
  | cons p ps ih =>
    obtain ⟨own, rest⟩ := own
    by_cases hrest : AllPass host ps rest
    · have hpass : ¬ p.Passes host own := fun hpass => h ⟨hpass, hrest⟩
      obtain ⟨natives, mid, hmid, -, hcalls⟩ := runFn_calls (α := α) (appendArgs args own) hrest
      have hlink : Raises (fun method => linkOne (α := α) p (natives, appendArgs args own) method
          mid) mid := by
        simp only [linkOne, translateOne_appendArgs]
        obtain ⟨e, hraise⟩ := translate_raises (α := α) fun hmidPass =>
          hpass ((hmid.passes_iff p own).1 hmidPass)
        exact ⟨e, fun method => hraise _⟩
      exact hcalls.raises (linkOne p) hlink
    · exact (ih (appendArgs args own) hrest).comp (linkOne p)

/-- **Marshalling.** The arguments of a contract are those of the parameters in their order. If every
check passes then the method is called once, with each parameter built from its own arguments;
otherwise the invocation throws and the method is not called. -/
theorem marshalling_faithful (ret : Ret) (ps : List Param) (host : Host σ) :
    (∀ args : (translated ps []).TProd WasmValue, ∃ own, joinArgs ps noArgs own = args) ∧
    ∀ own : ps.TProd Param.Args,
      (AllPass host ps own → ∃ natives entry, Extends host entry ∧
        AllBuilt host entry ps own natives ∧
          Calls (fun method => invoke ret ps method (joinArgs ps noArgs own) host)
            host natives entry) ∧
      (¬ AllPass host ps own →
        Raises (fun method => invoke ret ps method (joinArgs ps noArgs own) host) host) := by
  refine ⟨?_, fun own => ⟨fun hpass => ?_, fun hfails => ?_⟩⟩
  · intro args
    obtain ⟨first, own, hjoin⟩ := joinArgs_surjective ps args
    exact ⟨own, hjoin⟩
  · obtain ⟨natives, entry, hextends, hbuilt, after, hrun, herror⟩ :=
      runFn_calls (α := ret.Native) noArgs hpass
    refine ⟨natives, entry, hextends, hbuilt,
      fun outcome => match after outcome with
        | (.ok value, host) => (ret.convert value host, host)
        | (.error e, host) => (.error e, host), fun method => ?_, fun e => ?_⟩
    · have hmethod := hrun fun both => method both.1
      simp only [invoke, ← hmethod]
    · simp only [herror]
  · obtain ⟨e, hraise⟩ := runFn_raises (α := ret.Native) noArgs hfails
    refine ⟨e, fun method => ?_⟩
    have hmethod := hraise fun both => method both.1
    have hfn : invokerFn ps [] (fun natives _ => method natives) (joinArgs ps noArgs own) host =
        (.error e, host) := hmethod
    simp only [invoke, hfn]

end Wavm

end FractalWasm
