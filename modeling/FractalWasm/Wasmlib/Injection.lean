import FractalWasm.WASM.Decoded
import FractalWasm.Wasmlib.BinaryOps

/-!
# Injection

`wasm_injection.hpp`: after a module is validated, three passes rewrite its function bodies. The
first puts a call of the `use_gas` intrinsic in front of every segment of a body, the second
replaces floating-point operators by calls of softfloat intrinsics, and the last renumbers the
operands of all calls. The injected imports go to the front of the import list while the passes run,
so calls use temporary indices until the last pass.

**The module under injection** (`Injection`): the module itself and the maps of the injector, which
`addImport` changes together.

**The passes** (`useGasPass`, `visitPass`): each decodes a body operator by operator, calls the
injector of the operator and writes what it leaves. The third pass does not import anything.
-/

namespace FractalWasm

open Codec IR

/-- `gas_table`, indexed by opcode. All entries are non-negative. -/
def gasTableEntries : List Nat :=
  [0, 1, 0, 0, 0, 2, 0, 0, 0, 0, 0, 0, 2, 3, 2, 2,
   2, 10, 0, 0, 0, 0, 0, 0, 0, 0, 3, 3, 0, 0, 0, 0,
   3, 3, 3, 3, 3, 0, 0, 0, 3, 3, 3, 3, 3, 3, 3, 3,
   3, 3, 3, 3, 3, 3, 3, 3, 3, 3, 3, 3, 3, 3, 3, 100,
   1000, 0, 0, 0, 0, 1, 1, 1, 1, 1, 1, 1, 1, 1, 1, 1,
   1, 1, 1, 1, 1, 1, 1, 1, 1, 1, 1, 100, 100, 100, 100, 100,
   100, 100, 100, 100, 100, 100, 100, 105, 105, 105, 1, 1, 3, 80, 80, 80,
   80, 1, 1, 1, 2, 2, 2, 2, 2, 150, 150, 150, 1, 1, 3, 80,
   80, 80, 80, 1, 1, 1, 2, 2, 2, 2, 2, 100, 100, 100, 100, 100,
   100, 2000, 200, 200, 400, 1000, 100, 100, 100, 100, 100, 100, 100, 100, 100, 2000,
   200, 200, 400, 1000, 100, 100, 100, 3, 100, 100, 100, 100, 3, 3, 100, 100,
   100, 100, 100, 100, 100, 100, 100, 100, 100, 100, 100, 100, 100, 100, 100, 100]

/-- `gas_table[code]`; past the end, where only the `error` object points, taken as zero. -/
def gasTable (code : Nat) : Nat := gasTableEntries.getD code 0

namespace WasmInjections

open WasmOps

/-! ## Injected imports -/

section Maps

variable {K V : Type} [DecidableEq K]

/-- `std::map::find`, on an association list. -/
def find (map : List (K × V)) (key : K) : Option V := map.lookup key

/-- `std::map::emplace`: an existing entry is kept. -/
def emplace (map : List (K × V)) (key : K) (value : V) : List (K × V) :=
  match find map key with
  | some _ => map
  | none => map ++ [(key, value)]

end Maps

/-- The static members of `injector_utils`. -/
structure InjectorUtils where
  typeSlots : List (List Nat × Nat)
  registeredInjected : List (Bytes × UInt32)
  injectedIndexMapping : List (UInt32 × UInt32)
  nextInjectedIndex : UInt32
  deriving DecidableEq

/-- A module under injection. -/
structure Injection where
  module : Module
  utils : InjectorUtils

/-- `EOSIO_INJECTED_MODULE_NAME` -/
def injectedModuleName : Bytes := str "eosio_injection"

/-- The key of a function type: the numbers of its result and parameter types. -/
def typeSlot (type : FunctionType) : List Nat :=
  type.ret.toByte.toNat :: type.parameters.map fun param => param.toByte.toNat

/-- `build_type_slots`: the first of several equal types keeps the slot. -/
def buildTypeSlots (types : List FunctionType) : List (List Nat × Nat) :=
  types.zipIdx.foldl (fun slots type => emplace slots (typeSlot type.1) type.2) []

/-- `injector_utils::init` -/
def Injection.init (mod : Module) : Injection :=
  ⟨mod, ⟨buildTypeSlots mod.types, [], [], 0⟩⟩

def addTypeSlot (type : FunctionType) (injection : Injection) : Injection :=
  match find injection.utils.typeSlots (typeSlot type) with
  | some _ => injection
  | none =>
    let slots := emplace injection.utils.typeSlots (typeSlot type) injection.module.types.length
    { module := { injection.module with types := injection.module.types ++ [type] }
      utils := { injection.utils with typeSlots := slots } }

/-- `get_next_indices`: the temporary index, and the index in the finished module. -/
def getNextIndices (injection : Injection) : UInt32 × UInt32 :=
  ((injection.module.functions.imports.length + injection.module.functions.defs.length +
      injection.utils.registeredInjected.length).toUInt32, injection.utils.nextInjectedIndex)

/-- The exports of functions, the start function and the table entries, after one more import. -/
def shiftIndices (mod : Module) : Module :=
  { mod with
    exports := mod.exports.map fun exp =>
      if exp.kind = .function then { exp with index := exp.index + 1 } else exp
    startFunctionIndex := mod.startFunctionIndex.map (· + 1)
    tableSegments := mod.tableSegments.map fun ts => { ts with indices := ts.indices.map (· + 1) } }

/-- The part of `add_import` that imports a new intrinsic, once its type has an index. -/
def insertImport (funcTypeIndex : Nat) (funcName : Bytes) (injection : Injection) :
    UInt32 × Injection :=
  let (index, actualIndex) := getNextIndices injection
  let registered := emplace injection.utils.registeredInjected funcName index
  let newImport : Import Nat := ⟨funcTypeIndex, injectedModuleName, funcName⟩
  let functions := injection.module.functions
  let imports := functions.imports.insertIdx (registered.length - 1) newImport
  let mapping := emplace injection.utils.injectedIndexMapping index actualIndex
  (index,
    { module := shiftIndices
        { injection.module with functions := { functions with imports := imports } }
      utils :=
        { injection.utils with
          registeredInjected := registered
          injectedIndexMapping := mapping
          nextInjectedIndex := actualIndex + 1 } })

/-- `add_import`: the temporary index of an intrinsic, which is imported at its first use. -/
def addImport (type : FunctionType) (funcName : Bytes) (injection : Injection) :
    UInt32 × Injection :=
  match find injection.utils.registeredInjected funcName,
      injection.module.functions.imports with
  | some index, _ :: _ => (index, injection)
  | _, _ =>
    let injection := addTypeSlot type injection
    let funcTypeIndex := (find injection.utils.typeSlots (typeSlot type)).getD 0
    insertImport funcTypeIndex funcName injection

/-! ## Injectors -/

/-- What a visited operator's injector reads and writes. -/
structure VisitState where
  injection : Injection
  cached : CachedOps
  newCode : InstructionStream

/-- `kills`: drop the operator; `post`: inject after it and not before. -/
structure Injector where
  kills : Bool
  post : Bool
  accept : VisitState → Except Exception VisitState

/-- A `call_t` object with the given operand, packed. -/
def packCall (index : UInt32) (stream : InstructionStream) : InstructionStream :=
  (Field.uint32 index).pack (stream.set (leBytes 2 Opcode.call.code))

/-- An `i64_const_t` object with the given literal, packed. -/
def packI64Const (value : UInt64) (stream : InstructionStream) : InstructionStream :=
  (Field.uint64 value).pack (stream.set (leBytes 2 Opcode.i64Const.code))

def passInjector : Injector where
  kills := false
  post := false
  accept := .ok

/-- The index a call's operand stands for in the finished module. -/
def fixedIndex (utils : InjectorUtils) (field : UInt32) : UInt32 :=
  match find utils.injectedIndexMapping field with
  | some index => index
  | none => field + utils.registeredInjected.length.toUInt32

/-- `fix_call_index` changes the operand of the cached operator before it is packed. -/
def fixCallIndex : Injector where
  kills := false
  post := false
  accept state :=
    match state.cached (some .call) with
    | .uint32 field =>
      let fixed := Field.uint32 (fixedIndex state.injection.utils field)
      .ok { state with cached := state.cached.assign (some .call) fixed }
    | _ => .ok state

/-- The name of the intrinsic that stands for a floating-point operator. -/
def injectWhichOp (opcode : Opcode) : Except Exception Bytes :=
  match opcode with
  | .numeric .f32Add => .ok (str "_eosio_f32_add")
  | .numeric .f32Sub => .ok (str "_eosio_f32_sub")
  | .numeric .f32Mul => .ok (str "_eosio_f32_mul")
  | .numeric .f32Div => .ok (str "_eosio_f32_div")
  | .numeric .f32Min => .ok (str "_eosio_f32_min")
  | .numeric .f32Max => .ok (str "_eosio_f32_max")
  | .numeric .f32Copysign => .ok (str "_eosio_f32_copysign")
  | .numeric .f32Abs => .ok (str "_eosio_f32_abs")
  | .numeric .f32Neg => .ok (str "_eosio_f32_neg")
  | .numeric .f32Sqrt => .ok (str "_eosio_f32_sqrt")
  | .numeric .f32Ceil => .ok (str "_eosio_f32_ceil")
  | .numeric .f32Floor => .ok (str "_eosio_f32_floor")
  | .numeric .f32Trunc => .ok (str "_eosio_f32_trunc")
  | .numeric .f32Nearest => .ok (str "_eosio_f32_nearest")
  | .numeric .f32Eq => .ok (str "_eosio_f32_eq")
  | .numeric .f32Ne => .ok (str "_eosio_f32_ne")
  | .numeric .f32Lt => .ok (str "_eosio_f32_lt")
  | .numeric .f32Le => .ok (str "_eosio_f32_le")
  | .numeric .f32Gt => .ok (str "_eosio_f32_gt")
  | .numeric .f32Ge => .ok (str "_eosio_f32_ge")
  | .numeric .f64Add => .ok (str "_eosio_f64_add")
  | .numeric .f64Sub => .ok (str "_eosio_f64_sub")
  | .numeric .f64Mul => .ok (str "_eosio_f64_mul")
  | .numeric .f64Div => .ok (str "_eosio_f64_div")
  | .numeric .f64Min => .ok (str "_eosio_f64_min")
  | .numeric .f64Max => .ok (str "_eosio_f64_max")
  | .numeric .f64Copysign => .ok (str "_eosio_f64_copysign")
  | .numeric .f64Abs => .ok (str "_eosio_f64_abs")
  | .numeric .f64Neg => .ok (str "_eosio_f64_neg")
  | .numeric .f64Sqrt => .ok (str "_eosio_f64_sqrt")
  | .numeric .f64Ceil => .ok (str "_eosio_f64_ceil")
  | .numeric .f64Floor => .ok (str "_eosio_f64_floor")
  | .numeric .f64Trunc => .ok (str "_eosio_f64_trunc")
  | .numeric .f64Nearest => .ok (str "_eosio_f64_nearest")
  | .numeric .f64Eq => .ok (str "_eosio_f64_eq")
  | .numeric .f64Ne => .ok (str "_eosio_f64_ne")
  | .numeric .f64Lt => .ok (str "_eosio_f64_lt")
  | .numeric .f64Le => .ok (str "_eosio_f64_le")
  | .numeric .f64Gt => .ok (str "_eosio_f64_gt")
  | .numeric .f64Ge => .ok (str "_eosio_f64_ge")
  | .numeric .f64PromoteF32 => .ok (str "_eosio_f32_promote")
  | .numeric .f32DemoteF64 => .ok (str "_eosio_f64_demote")
  | .numeric .i32TruncUF32 => .ok (str "_eosio_f32_trunc_i32u")
  | .numeric .i32TruncSF32 => .ok (str "_eosio_f32_trunc_i32s")
  | .numeric .i32TruncUF64 => .ok (str "_eosio_f64_trunc_i32u")
  | .numeric .i32TruncSF64 => .ok (str "_eosio_f64_trunc_i32s")
  | .numeric .i64TruncUF32 => .ok (str "_eosio_f32_trunc_i64u")
  | .numeric .i64TruncSF32 => .ok (str "_eosio_f32_trunc_i64s")
  | .numeric .i64TruncUF64 => .ok (str "_eosio_f64_trunc_i64u")
  | .numeric .i64TruncSF64 => .ok (str "_eosio_f64_trunc_i64s")
  | .numeric .f32ConvertSI32 => .ok (str "_eosio_i32_to_f32")
  | .numeric .f32ConvertUI32 => .ok (str "_eosio_ui32_to_f32")
  | .numeric .f32ConvertSI64 => .ok (str "_eosio_i64_f32")
  | .numeric .f32ConvertUI64 => .ok (str "_eosio_ui64_to_f32")
  | .numeric .f64ConvertSI32 => .ok (str "_eosio_i32_to_f64")
  | .numeric .f64ConvertUI32 => .ok (str "_eosio_ui32_to_f64")
  | .numeric .f64ConvertSI64 => .ok (str "_eosio_i64_to_f64")
  | .numeric .f64ConvertUI64 => .ok (str "_eosio_ui64_to_f64")
  | opcode =>
    .error (.ftl .wasmRuntime
      ("Error, unknown opcode in injection $" ++ toString opcode.code))

/-- The body all softfloat injectors share: the operator becomes a call of an intrinsic. -/
def softfloatInjector (type : FunctionType) (funcName : Except Exception Bytes) : Injector where
  kills := true
  post := false
  accept state := do
    let (idx, injection) := addImport type (← funcName) state.injection
    return { state with injection, newCode := packCall idx state.newCode }

def f32BinopInjector (opcode : NumericOp) : Injector :=
  softfloatInjector ⟨.f32, [.f32, .f32]⟩ (injectWhichOp (.numeric opcode))

def f32UnopInjector (opcode : NumericOp) : Injector :=
  softfloatInjector ⟨.f32, [.f32]⟩ (injectWhichOp (.numeric opcode))

def f32RelopInjector (opcode : NumericOp) : Injector :=
  softfloatInjector ⟨.i32, [.f32, .f32]⟩ (injectWhichOp (.numeric opcode))

def f64BinopInjector (opcode : NumericOp) : Injector :=
  softfloatInjector ⟨.f64, [.f64, .f64]⟩ (injectWhichOp (.numeric opcode))

def f64UnopInjector (opcode : NumericOp) : Injector :=
  softfloatInjector ⟨.f64, [.f64]⟩ (injectWhichOp (.numeric opcode))

def f64RelopInjector (opcode : NumericOp) : Injector :=
  softfloatInjector ⟨.i32, [.f64, .f64]⟩ (injectWhichOp (.numeric opcode))

def f32TruncI32Injector (opcode : NumericOp) : Injector :=
  softfloatInjector ⟨.i32, [.f32]⟩ (injectWhichOp (.numeric opcode))

def f32TruncI64Injector (opcode : NumericOp) : Injector :=
  softfloatInjector ⟨.i64, [.f32]⟩ (injectWhichOp (.numeric opcode))

def f64TruncI32Injector (opcode : NumericOp) : Injector :=
  softfloatInjector ⟨.i32, [.f64]⟩ (injectWhichOp (.numeric opcode))

def f64TruncI64Injector (opcode : NumericOp) : Injector :=
  softfloatInjector ⟨.i64, [.f64]⟩ (injectWhichOp (.numeric opcode))

def i32ConvertF32Injector (opcode : NumericOp) : Injector :=
  softfloatInjector ⟨.f32, [.i32]⟩ (injectWhichOp (.numeric opcode))

def i64ConvertF32Injector (opcode : NumericOp) : Injector :=
  softfloatInjector ⟨.f32, [.i64]⟩ (injectWhichOp (.numeric opcode))

def i32ConvertF64Injector (opcode : NumericOp) : Injector :=
  softfloatInjector ⟨.f64, [.i32]⟩ (injectWhichOp (.numeric opcode))

def i64ConvertF64Injector (opcode : NumericOp) : Injector :=
  softfloatInjector ⟨.f64, [.i64]⟩ (injectWhichOp (.numeric opcode))

def f32PromoteInjector : Injector :=
  softfloatInjector ⟨.f64, [.f32]⟩ (.ok (str "_eosio_f32_promote"))

def f64DemoteInjector : Injector :=
  softfloatInjector ⟨.f32, [.f64]⟩ (.ok (str "_eosio_f64_demote"))

/-- The name of an alias in an `Op_Types` struct. `cached_ops` asks for the operator's name with
`_t` behind it (`typed`); nobody asks for the name alone (`bare`). -/
inductive Alias where
  | typed (opcode : Opcode)
  | bare (opcode : Opcode)
  deriving DecidableEq

/-- A struct derived from `op_types<pass_injector>` with these aliases: the injector of the
operator type that `cached_ops` finds for a slot. -/
def opTypes (aliases : List (Alias × Injector)) : Slot → Injector
  | some opcode => (find aliases (.typed opcode)).getD passInjector
  | none => passInjector

/-- The alias `op_t` with an injector that takes the operator as its parameter. -/
def typedAlias (injector : NumericOp → Injector) (op : NumericOp) : Alias × Injector :=
  (.typed (.numeric op), injector op)

/-- The alias `op` with an injector that takes the operator as its parameter. -/
def bareAlias (injector : NumericOp → Injector) (op : NumericOp) : Alias × Injector :=
  (.bare (.numeric op), injector op)

/-- `pre_op_injectors`. The names of the last eight aliases lack the `_t`. -/
def preOpAliases : List (Alias × Injector) :=
  [.f32Add, .f32Sub, .f32Div, .f32Mul, .f32Min, .f32Max, .f32Copysign].map
      (typedAlias f32BinopInjector) ++
    [.f32Abs, .f32Neg, .f32Sqrt, .f32Floor, .f32Ceil, .f32Trunc, .f32Nearest].map
      (typedAlias f32UnopInjector) ++
    [.f32Eq, .f32Ne, .f32Lt, .f32Le, .f32Gt, .f32Ge].map (typedAlias f32RelopInjector) ++
    [.f64Add, .f64Sub, .f64Div, .f64Mul, .f64Min, .f64Max, .f64Copysign].map
      (typedAlias f64BinopInjector) ++
    [.f64Abs, .f64Neg, .f64Sqrt, .f64Floor, .f64Ceil, .f64Trunc, .f64Nearest].map
      (typedAlias f64UnopInjector) ++
    [.f64Eq, .f64Ne, .f64Lt, .f64Le, .f64Gt, .f64Ge].map (typedAlias f64RelopInjector) ++
    [(.typed (.numeric .f64PromoteF32), f32PromoteInjector),
      (.typed (.numeric .f32DemoteF64), f64DemoteInjector)] ++
    [.i32TruncSF32, .i32TruncUF32].map (typedAlias f32TruncI32Injector) ++
    [.i32TruncSF64, .i32TruncUF64].map (typedAlias f64TruncI32Injector) ++
    [.i64TruncSF32, .i64TruncUF32].map (typedAlias f32TruncI64Injector) ++
    [.i64TruncSF64, .i64TruncUF64].map (typedAlias f64TruncI64Injector) ++
    [bareAlias i32ConvertF32Injector .f32ConvertSI32,
      bareAlias i64ConvertF32Injector .f32ConvertSI64,
      bareAlias i32ConvertF32Injector .f32ConvertUI32,
      bareAlias i64ConvertF32Injector .f32ConvertUI64,
      bareAlias i32ConvertF64Injector .f64ConvertSI32,
      bareAlias i64ConvertF64Injector .f64ConvertSI64,
      bareAlias i32ConvertF64Injector .f64ConvertUI32,
      bareAlias i64ConvertF64Injector .f64ConvertUI64]

def preOpInjectors : Slot → Injector := opTypes preOpAliases

def postOpInjectors : Slot → Injector := opTypes [(.typed .call, fixCallIndex)]

/-! ## The passes over one body -/

structure UseGasState where
  cached : CachedOps
  usegasCode : InstructionStream
  tmpStream : InstructionStream
  gas : Nat

/-- The operators in front of which the `use_gas` pass emits the charge. -/
def endsSegment : Slot → Bool
  | some .end_ | some .br | some .brTable | some .brIf | some .if_ | some .else_ | some .return_
  | some .loop => true
  | _ => false

/-- One round of the `use_gas` pass. -/
def useGasStep (useGasIdx : UInt32) (state : UseGasState) : Reader Exception UseGasState := do
  let (op, cached) ← decodeOp state.cached
  let gas := state.gas + gasTable (Slot.code op)
  if endsSegment op then
    let charged :=
      if 0 < gas then packCall useGasIdx (packI64Const gas.toUInt64 state.usegasCode)
      else state.usegasCode
    return { cached
             usegasCode := cached.pack op (charged.set state.tmpStream.get)
             tmpStream := state.tmpStream.rewind
             gas := 0 }
  else
    return { state with cached, gas, tmpStream := cached.pack op state.tmpStream }

def useGasPass (useGasIdx : UInt32) (cached : CachedOps) (code : Bytes) :
    Except Exception (CachedOps × Bytes) := do
  let state : UseGasState := ⟨cached, .ofSize (code.length * 2), .ofSize 0, 0⟩
  let (state, _) ← Reader.loop (useGasStep useGasIdx) state code
  return (state.cached, state.usegasCode.get)

/-- One round of the other two passes. -/
def visitStep (injectors : Slot → Injector) (state : VisitState) : Reader Exception VisitState := do
  let (op, cached) ← decodeOp state.cached
  let state := { state with cached }
  let injector := injectors op
  if injector.post then
    injector.accept { state with newCode := cached.pack op state.newCode }
  else
    let state ← injector.accept state
    if injector.kills then return state
    else return { state with newCode := state.cached.pack op state.newCode }

def visitPass (injectors : Slot → Injector) (state : Injection × CachedOps) (code : Bytes) :
    Except Exception ((Injection × CachedOps) × Bytes) := do
  let state : VisitState := ⟨state.1, state.2, .ofSize (code.length * 2)⟩
  let (state, _) ← Reader.loop (visitStep injectors) state code
  return ((state.injection, state.cached), state.newCode.get)

/-! ## The injection of a module -/

/-- A pass over all function bodies. -/
def forEachBody {σ : Type} (pass : σ → Bytes → Except Exception (σ × Bytes)) :
    σ → List FunctionDef → Except Exception (σ × List FunctionDef)
  | state, [] => .ok (state, [])
  | state, fd :: functionDefs => do
    let (state, code) ← pass state fd.code
    let (state, functionDefs) ← forEachBody pass state functionDefs
    return (state, { fd with code } :: functionDefs)

/-- `wasm_constraints::maximum_linear_memory` -/
def maximumLinearMemory : Nat := 33 * 1024 * 1024

/-- `max_memory_injection_visitor::inject` -/
def maxMemoryInject (m : Module) : Module :=
  match m.memories.defs with
  | [] => m
  | memory :: memories =>
    let limit := maximumLinearMemory / Serialization.wasmPageSize
    if limit < memory.size.max then
      let memory := { memory with size := { memory.size with max := limit } }
      { m with memories := { m.memories with defs := memory :: memories } }
    else m

/-- The module with other definitions of the same functions. The injectors look at how many there
are only, so a pass may put its output back at its end. -/
def withDefs (m : Module) (defs : List FunctionDef) : Module :=
  { m with functions := { m.functions with defs } }

/-- The caches of the three passes, which live as long as the process. -/
structure Caches where
  usegas : CachedOps
  pre : CachedOps
  post : CachedOps

def Caches.initial : Caches := ⟨.initial, .initial, .initial⟩

/-- A module whose bodies went through the first pass. -/
def injectUseGas (cached : CachedOps) (mod : Module) :
    Except Exception (Injection × CachedOps) := do
  let injection := Injection.init mod
  let injection := { injection with module := maxMemoryInject injection.module }
  let (useGasIdx, injection) := addImport ⟨.none, [.i64]⟩ (str "use_gas") injection
  let (cached, defs) ←
    forEachBody (useGasPass useGasIdx) cached injection.module.functions.defs
  return ({ injection with module := withDefs injection.module defs }, cached)

/-- One of the other two passes over a module. -/
def injectVisit (injectors : Slot → Injector) (cached : CachedOps) (injection : Injection) :
    Except Exception (Injection × CachedOps) := do
  let ((injection, cached), defs) ←
    forEachBody (visitPass injectors) (injection, cached) injection.module.functions.defs
  return ({ injection with module := withDefs injection.module defs }, cached)

/-- `wasm_binary_injection::inject`, on a newly constructed object. -/
def inject (caches : Caches) (mod : Module) : Except Exception (Injection × Caches) := do
  let (injection, usegas) ← injectUseGas caches.usegas mod
  let (injection, pre) ← injectVisit preOpInjectors caches.pre injection
  let (injection, post) ← injectVisit postOpInjectors caches.post injection
  return (injection, ⟨usegas, pre, post⟩)

end WasmInjections

end FractalWasm
