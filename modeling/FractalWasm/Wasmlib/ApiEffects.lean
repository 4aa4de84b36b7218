import FractalWasm.Runtime.Intrinsics
import FractalWasm.Wasmlib.References

/-!
# What the intrinsics do to the host

`wasm_interface.cpp`: the methods a contract can call charge for themselves, throw, and call back
into the host. Which of these a call does, in which order and for how much, is determined by its
arguments, the memory of the contract and the action; what the host answers makes no difference to
it.

**Effects** (`Effect`): a charge, a callback or an exception. A call is a list of them, up to the
first exception.

**Arguments** (`ArrayArg`): pointers are translated before the method runs, so that their exceptions
come before any charge.

**Calls** (`Call`): each intrinsic by its arguments, with the prices of `wasm_constraints` as they
stand in the source.
-/

namespace FractalWasm

open FractalWasm.Runtime IR Wavm Serialization

namespace Api

/-! ## Gas -/

def gasCallBase : UInt64 := 100
def gasRecoverKey : UInt64 := 450000
def gasSha256Base : UInt64 := 2400
def gasSha256Byte : UInt64 := 3
def gasLog0 : UInt64 := 80000
def gasLog1 : UInt64 := 90000
def gasLog2 : UInt64 := 100000
def gasLogData : UInt64 := 1000
def gasMemopByte : UInt64 := 3
def gasTransfer : UInt64 := 1000000
def gasDbStoreBase : UInt64 := 1000000
def gasDbStoreByte : UInt64 := 100000
def gasDbLoadBase : UInt64 := 1000000
def gasDbLoadByte : UInt64 := 100000
def gasDbHas : UInt64 := 500000
def gasDbRmv : UInt64 := 500000

/-- The functions of the host, `ftl::Callbacks`. -/
inductive Callback where
  | store
  | load
  | hasKey
  | removeKey
  | hasTable
  | removeTable
  | currentTime
  | currentHeight
  | currentHash
  | addLog
  | transfer
  | callAction
  | callResult
  | setResult
  deriving DecidableEq, Repr

inductive Effect where
  /-- `context.use_gas(gas)` -/
  | useGas (gas : Int64)
  /-- `FTL_ASSERT`, or `FTL_THROW` where the condition is false. -/
  | throwUnless (holds : Bool) (exception : Exception)
  | callback (callback : Callback)
  /-- `immediately_exit_currently_running_module` -/
  | exit
  deriving DecidableEq, Repr

/-- A charge computed without sign. -/
def charge (gas : UInt64) : Effect := .useGas gas.toInt64

/-! ## Arguments -/

/-- A pointer from a contract and the `int` behind it. -/
structure ArrayArg where
  ptr : UInt32
  size : UInt32
  deriving DecidableEq, Repr

/-- The `size_t` a method is given. -/
def ArrayArg.length (arg : ArrayArg) : UInt64 := uptrOfI32 arg.size

/-- `wasm_action::data`. Its length comes from an `int`. -/
structure ActionData where
  bytes : Bytes
  length_lt : bytes.length < 2 ^ 31

def ActionData.size (data : ActionData) : UInt64 := data.bytes.length.toUInt64

/-- The checked divisions of `compiler_builtins`. -/
inductive Division where
  | divti3
  | udivti3
  | modti3
  | umodti3
  deriving DecidableEq, Repr

/-- The comparisons of `compiler_builtins` that go through `___cmptf2`. -/
inductive Comparison where
  | eqtf2
  | netf2
  | getf2
  | gttf2
  | lttf2
  | letf2
  | cmptf2
  deriving DecidableEq, Repr

/-- The other `compiler_builtins` that return through a reference. -/
inductive ReferenceBuiltin where
  | ashlti3
  | ashrti3
  | lshlti3
  | lshrti3
  | multi3
  | addtf3
  | subtf3
  | multf3
  | divtf3
  | negtf2
  | floatsitf
  | floatunsitf
  | floatditf
  | floatunditf
  | extendsftf2
  | extenddftf2
  | fixtfti
  | fixunstfti
  | fixsfti
  | fixdfti
  | fixunssfti
  | fixunsdfti
  deriving DecidableEq, Repr

/-- The other `compiler_builtins` that return a value. -/
inductive ValueBuiltin where
  | unordtf2
  | floattidf
  | floatuntidf
  | floatsidf
  | fixtfdi
  | fixtfsi
  | fixunstfdi
  | fixunstfsi
  | trunctfdf2
  | trunctfsf2
  deriving DecidableEq, Repr

/-- A call of an intrinsic by a contract, or of the injected `use_gas` and `softfloat_api`. -/
inductive Call where
  -- `database_api`
  | dbStore (table : UInt64) (key buffer : ArrayArg)
  | dbLoad (table : UInt64) (key buffer : ArrayArg)
  | dbHasKey (table : UInt64) (key : ArrayArg)
  | dbRemoveKey (table : UInt64) (key : ArrayArg)
  | dbHasTable (table : UInt64)
  | dbRemoveTable (table : UInt64)
  -- `crypto_api`
  | assertRecoverKey (digest : UInt32) (sig pub : ArrayArg)
  | recoverKey (digest : UInt32) (sig pub : ArrayArg)
  | assertSha256 (data : ArrayArg) (hashVal : UInt32)
  | sha256 (data : ArrayArg) (hashVal : UInt32)
  -- `system_api`
  | currentTime
  | currentHeight
  | currentHash (simpleHash fullHash : UInt32)
  | log0 (data : ArrayArg) (name : UInt32)
  | log1 (data : ArrayArg) (name param1 : UInt32)
  | log2 (data : ArrayArg) (name param1 param2 : UInt32)
  -- `context_free_system_api`
  | abort
  | ftlAssert (condition : UInt32) (msg : UInt32)
  | ftlAssertMessage (condition : UInt32) (msg : ArrayArg)
  | ftlAssertCode (condition : UInt32) (errorCode : UInt64)
  | ftlExit (code : UInt32)
  -- `action_api`
  | useGas (gas : UInt64)
  | readActionData (memory : ArrayArg)
  | actionDataSize
  | getFrom (address : ArrayArg)
  | getTo (address : ArrayArg)
  | getOwner (address : ArrayArg)
  | getUser (address : ArrayArg)
  | transfer (address : ArrayArg) (amount : UInt64)
  | getAmount
  | callAction (address action : ArrayArg) (amount : UInt64)
      (storageDelegate userDelegate : UInt32)
  | callResult (result : ArrayArg)
  | setResult (result : ArrayArg)
  -- `console_api`
  | prints (string : UInt32)
  | printsL (string : ArrayArg)
  | printValue (bits : UInt64)
  | printqf (val : UInt32)
  | printhex (data : ArrayArg)
  -- `memory_api`
  | memcpy (dest : UInt32) (src : ArrayArg)
  | memmove (dest : UInt32) (src : ArrayArg)
  | memcmp (dest : UInt32) (src : ArrayArg)
  | memset (dest : ArrayArg) (value : UInt32)
  -- `compiler_builtins`
  | divide (division : Division) (ret : UInt32) (la ha lb hb : UInt64)
  | compare (comparison : Comparison) (la ha lb hb : UInt64)
  | reference (builtin : ReferenceBuiltin) (ret : UInt32)
  | value (builtin : ValueBuiltin)
  -- `softfloat_api`
  | softfloat
  deriving DecidableEq, Repr

/-! ## Pointers -/

section Pointers

variable {σ : Type}

/-- `array_ptr<char>` and the `size_t` behind it. -/
def ArrayArg.translate (arg : ArrayArg) (host : Host σ) : Except Exception LinearPtr :=
  arrayPtrImpl (.char false) host arg.ptr arg.length

/-- A `sha256`, and a `float128_t` or an `__int128`. -/
def sha256Type (isConst : Bool) : NativeType := ⟨32, 1, isConst, Nat.two_pow_pos 5⟩
def wideType (isConst : Bool) : NativeType := ⟨16, 16, isConst, Nat.two_pow_pos 4⟩

/-- The pointers of a call are translated, the last first, before its method begins. -/
def Call.pointers (host : Host σ) : Call → List (Except Exception LinearPtr)
  | dbStore _ key buffer | dbLoad _ key buffer => [buffer.translate host, key.translate host]
  | dbHasKey _ key | dbRemoveKey _ key => [key.translate host]
  | assertRecoverKey digest sig pub | recoverKey digest sig pub =>
    [pub.translate host, sig.translate host, referenceBase (sha256Type true) host digest]
  | assertSha256 data hashVal => [referenceBase (sha256Type true) host hashVal, data.translate host]
  | sha256 data hashVal => [referenceBase (sha256Type false) host hashVal, data.translate host]
  | currentHash simpleHash fullHash =>
    [referenceBase (sha256Type false) host fullHash,
      referenceBase (sha256Type false) host simpleHash]
  | log0 data name => [referenceBase (sha256Type true) host name, data.translate host]
  | log1 data name param1 =>
    [referenceBase (sha256Type true) host param1, referenceBase (sha256Type true) host name,
      data.translate host]
  | log2 data name param1 param2 =>
    [referenceBase (sha256Type true) host param2, referenceBase (sha256Type true) host param1,
      referenceBase (sha256Type true) host name, data.translate host]
  | ftlAssert _ msg => [(nullTerminatedPtrImpl host msg).1]
  | ftlAssertMessage _ msg => [msg.translate host]
  | readActionData memory => [memory.translate host]
  | getFrom address | getTo address | getOwner address | getUser address =>
    [address.translate host]
  | transfer address _ => [address.translate host]
  | callAction address action _ _ _ => [action.translate host, address.translate host]
  | callResult result | setResult result => [result.translate host]
  | prints string => [(nullTerminatedPtrImpl host string).1]
  | printsL string => [string.translate host]
  | printqf val => [referenceBase (wideType true) host val]
  | printhex data => [data.translate host]
  -- one length for both
  | memcpy dest src | memmove dest src | memcmp dest src =>
    [(ArrayArg.mk dest src.size).translate host, src.translate host]
  | memset dest _ => [dest.translate host]
  | divide _ ret _ _ _ _ | reference _ ret => [referenceBase (wideType false) host ret]
  | dbHasTable _ | dbRemoveTable _ | currentTime | currentHeight | abort | ftlAssertCode _ _
  | ftlExit _ | useGas _ | actionDataSize | getAmount | printValue _ | compare _ _ _ _ _
  | value _ | softfloat => []

/-- So many bytes of the memory from `ptr` on, as a text. -/
def textAt (host : Host σ) (ptr : UInt32) (numBytes : Nat) : Bytes :=
  match host.context.memory with
  | none => []
  | some mem => (List.range numBytes).map fun i => (host.memories mem).contents (ptr.toNat + i)

def maxAssertMessage : Nat := 1024

/-- `strnlen` -/
def strnlen (host : Host σ) (ptr : UInt32) (maxlen : Nat) : Nat :=
  ((textAt host ptr maxlen).takeWhile (· != 0)).length

/-- What fails with a message of a contract. -/
def assertion (condition : UInt32) (message : String) : Effect :=
  .throwUnless (condition != 0) (.ftl .wasmRuntime message)

/-! ## The methods -/

/-- What the method of a call does, on the action's data. -/
def Call.method (host : Host σ) (data : ActionData) : Call → List Effect
  | dbStore _ _ buffer =>
    [charge (gasDbStoreBase + buffer.length * gasDbStoreByte), .callback .store]
  | dbLoad _ _ buffer => [charge (gasDbLoadBase + buffer.length * gasDbLoadByte), .callback .load]
  | dbHasKey _ _ => [charge gasDbHas, .callback .hasKey]
  | dbRemoveKey _ _ => [charge gasDbRmv, .callback .removeKey]
  | dbHasTable _ => [charge gasDbHas, .callback .hasTable]
  | dbRemoveTable _ => [charge gasDbRmv, .callback .removeTable]
  | assertRecoverKey _ _ _ => [charge gasRecoverKey]
  | recoverKey _ _ _ => [charge gasRecoverKey]
  | assertSha256 data _ => [charge (gasSha256Base + gasSha256Byte * data.length)]
  | sha256 data _ => [charge (gasSha256Base + gasSha256Byte * data.length)]
  | currentTime => [charge gasCallBase, .callback .currentTime]
  | currentHeight => [charge gasCallBase, .callback .currentHeight]
  | currentHash _ _ => [charge gasCallBase, .callback .currentHash]
  | log0 data _ => [charge (gasLog0 + data.length * gasLogData), .callback .addLog]
  | log1 data _ _ => [charge (gasLog1 + data.length * gasLogData), .callback .addLog]
  | log2 data _ _ _ => [charge (gasLog2 + data.length * gasLogData), .callback .addLog]
  | abort => [.throwUnless false (.ftl .wasmRuntime "abort() called")]
  | ftlAssert condition msg =>
    let message := textAt host msg (strnlen host msg maxAssertMessage)
    [charge gasCallBase, assertion condition ("assertion failure with message: $" ++ text message)]
  | ftlAssertMessage condition msg =>
    let sz := if maxAssertMessage < msg.length.toNat then maxAssertMessage else msg.length.toNat
    [charge gasCallBase,
      assertion condition ("assertion failure with message: $" ++ text (textAt host msg.ptr sz))]
  | ftlAssertCode condition errorCode =>
    [charge gasCallBase,
      assertion condition ("assertion failure with error code: $" ++ toString errorCode.toNat)]
  | ftlExit _ => [charge gasCallBase, .exit]
  | useGas gas => [.useGas gas.toInt64]
  | readActionData memory =>
    if memory.length = 0 then [charge gasCallBase]
    else [charge gasCallBase, charge (data.size * gasMemopByte)]
  | actionDataSize => [charge gasCallBase]
  | getFrom _ | getTo _ | getOwner _ | getUser _ => [charge (gasCallBase + 20 * gasMemopByte)]
  | transfer address _ =>
    [charge gasTransfer,
      .throwUnless (address.length = 20) (.ftl .invalidAddress "address exception"),
      .callback .transfer]
  | getAmount => [charge gasCallBase]
  | callAction address _ _ _ _ =>
    [charge gasCallBase,
      .throwUnless (address.length = 20) (.ftl .invalidAddress "address exception"),
      .callback .callAction]
  | callResult _ => [charge gasCallBase, .callback .callResult]
  | setResult _ => [charge gasCallBase, .callback .setResult]
  | prints _ | printsL _ | printValue _ | printqf _ | printhex _ => []
  | memcpy dest src =>
    let distance := (dest.toNat - src.ptr.toNat) + (src.ptr.toNat - dest.toNat)
    [charge (gasCallBase + gasMemopByte * src.length),
      .throwUnless (src.length.toNat ≤ distance)
        (.ftl .overlappingMemory "memcpy can only accept non-aliasing pointers")]
  | memmove _ src | memcmp _ src => [charge (gasCallBase + gasMemopByte * src.length)]
  | memset dest _ => [charge (gasCallBase + gasMemopByte * dest.length)]
  | divide _ _ _ _ lb hb =>
    [charge gasCallBase, .throwUnless (lb != 0 || hb != 0) (.ftl .arithmetic "divide by zero")]
  -- the comparison, `___cmptf2` and `__unordtf2` in it charge each for itself
  | compare _ _ _ _ _ => [charge gasCallBase, charge gasCallBase, charge gasCallBase]
  | reference _ _ | value _ => [charge gasCallBase]
  | softfloat => []

/-- The first pointer that is not let through. -/
def firstError : List (Except Exception LinearPtr) → Option Exception
  | [] => none
  | .error e :: _ => some e
  | .ok _ :: pointers => firstError pointers

/-- What a call does: unless all of its pointers are let through, nothing but throw. -/
def Call.effects (host : Host σ) (data : ActionData) (call : Call) : List Effect :=
  match firstError (call.pointers host) with
  | none => call.method host data
  | some e => [.throwUnless false e]

end Pointers

end Api

end FractalWasm
