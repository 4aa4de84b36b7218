import FractalWasm.Wasmlib.FreshStart

/-!
# Contracts that call contracts

The host may run contracts from within the callback of `call_action`, as often as it likes and to
any depth. All of them share the heap and `the_running_instance_context`, and take the memory they
find in `theMemoryInstance`. `call_action` hides the memory of the caller and puts everything back
behind the callback.

**The system** (`System`, `Step`): the frames of the contracts that run or wait, the heap and the
globals, with a step for a start, a store, a growth, a call, a return and an end, by success or by
an exception.

**What holds** (`Sound`): every memory in use is within its limits, and a frame that waits has a
memory that the frames above it cannot reach. Every reachable system is sound
(`sound_of_reachable`).
-/

namespace FractalWasm

open Codec IR FractalWasm.Runtime Serialization WASM WasmInjections Wavm

namespace Calls

open MemoryInstance WasmInterface

/-! ## The system -/

/-- A buffer of a contract, in its memory. -/
structure Buffer where
  base : Nat
  length : Nat
  deriving DecidableEq, Repr

def Buffer.Covers (buffer : Buffer) (address : Nat) : Prop :=
  buffer.base ≤ address ∧ address < buffer.base + buffer.length

/-- A contract whose code has started and not ended, with the code of its action and
`wasm_context::memory`. Inside of `call_action` it is `calling`, with the buffers its host was
given. -/
structure Frame where
  context : Nat
  code : Bytes
  instantiated : WasmInstantiatedModule
  memory : Option Nat
  calling : Option (List Buffer)

/-- The process, the number of contexts so far, and the contracts that run, the innermost first. -/
structure System where
  process : Process
  contexts : Nat
  frames : List Frame

/-- Before any contract. -/
def System.start : System := ⟨⟨⟨[], none⟩, ⟨none, none⟩⟩, 0, []⟩

/-- The code of the host runs, and may call `execute`. -/
def System.HostRuns (s : System) : Prop := ∀ frame ∈ s.frames.head?, frame.calling.isSome = true

/-- `~runtime_guard`, when the last contract has ended: the memories are deleted. Their places are not
used again. -/
def System.release (s : System) : System :=
  if s.frames.isEmpty then
    { s with process := { s.process with heap := { s.process.heap with theMemoryInstance := none } } }
  else s

/-- The heap with another memory at a place. -/
def System.setMemory (s : System) (place : Nat) (memory : MemoryInstance) : System :=
  { s with process := { s.process with heap := { s.process.heap with
      memories := s.process.heap.memories.set place memory } } }

/-- `call_action` of the innermost contract, up to the callback. -/
def System.enterCall (s : System) (frame : Frame) (outer : List Frame) (buffers : List Buffer) :
    System :=
  ⟨{ s.process with heap := { s.process.heap with theMemoryInstance := none } }, s.contexts,
    { frame with calling := some buffers } :: outer⟩

/-- `call_action`, behind the callback. -/
def System.leaveCall (s : System) (frame : Frame) (outer : List Frame) : System :=
  ⟨⟨{ s.process.heap with theMemoryInstance := frame.memory }, ⟨frame.memory, some frame.context⟩⟩,
    s.contexts, { frame with calling := none } :: outer⟩

def System.memory? (s : System) (place : Nat) : Option MemoryInstance :=
  s.process.heap.memories[place]?

/-- What the contracts and the host do. A contract that fails ends like any other; what a contract
stores, and when it grows its memory, is left open. -/
inductive Step : System → System → Prop
  | refused {s : System} {platform : Platform} {statics : Statics} {code : Bytes}
      {failure : Failure} {heap : Heap} (hhost : s.HostRuns)
      (hmake : getInstantiatedModule platform statics code s.process.heap =
        (.error failure, heap)) :
      Step s (System.release ⟨{ s.process with heap }, s.contexts + 1, s.frames⟩)
  | unstarted {s : System} {platform : Platform} {statics : Statics} {code : Bytes} {heap : Heap}
      {instantiated : WasmInstantiatedModule} {commits : Bool} {actionName : UInt64}
      {result : Except Failure (Option (FunctionInstance × WasmInstantiatedModule))}
      {process : Process} (hhost : s.HostRuns)
      (hmake : getInstantiatedModule platform statics code s.process.heap =
        (.ok instantiated, heap))
      (hcall : instantiated.prepareApply commits actionName s.contexts { s.process with heap } =
        (result, process)) (hresult : ∀ entry, result ≠ .ok (some entry)) :
      Step s (System.release ⟨process, s.contexts + 1, s.frames⟩)
  | started {s : System} {platform : Platform} {statics : Statics} {code : Bytes} {heap : Heap}
      {instantiated started : WasmInstantiatedModule} {commits : Bool} {actionName : UInt64}
      {call : FunctionInstance} {process : Process} (hhost : s.HostRuns)
      (hmake : getInstantiatedModule platform statics code s.process.heap =
        (.ok instantiated, heap))
      (hcall : instantiated.prepareApply commits actionName s.contexts { s.process with heap } =
        (.ok (some (call, started)), process)) :
      Step s ⟨process, s.contexts + 1,
        ⟨s.contexts, code, started, process.running.memory, none⟩ :: s.frames⟩
  /-- A store of the contract's own code. -/
  | stores {s : System} {frame : Frame} {outer : List Frame} {place : Nat} {memory : MemoryInstance}
      {contents : Nat → UInt8} (hframes : s.frames = frame :: outer) (hruns : frame.calling = none)
      (hplace : getDefaultMemory frame.instantiated.instance_ = some place)
      (hmemory : s.memory? place = some memory) :
      Step s (s.setMemory place { memory with contents })
  /-- `grow_memory` -/
  | grows {s : System} {frame : Frame} {outer : List Frame} {place : Nat} {memory : MemoryInstance}
      {commits : Bool} {deltaPages : UInt32} (hframes : s.frames = frame :: outer)
      (hruns : frame.calling = none)
      (hplace : getDefaultMemory frame.instantiated.instance_ = some place)
      (hmemory : s.memory? place = some memory) :
      Step s (s.setMemory place (growMemoryIntrinsic commits deltaPages memory).2)
  /-- A store of an intrinsic, or of the host behind it. -/
  | writes {s : System} {frame : Frame} {outer : List Frame} {place : Nat} {memory : MemoryInstance}
      {contents : Nat → UInt8} (hframes : s.frames = frame :: outer) (hruns : frame.calling = none)
      (hplace : s.process.running.memory = some place) (hmemory : s.memory? place = some memory) :
      Step s (s.setMemory place { memory with contents })
  | calls {s : System} {frame : Frame} {outer : List Frame} (buffers : List Buffer)
      (hframes : s.frames = frame :: outer) (hruns : frame.calling = none) :
      Step s (s.enterCall frame outer buffers)
  /-- The host writes to a buffer it was given. -/
  | fills {s : System} {frame : Frame} {buffers : List Buffer} {buffer : Buffer} {place : Nat}
      {memory : MemoryInstance} {contents : Nat → UInt8} (hframe : frame ∈ s.frames)
      (hcalling : frame.calling = some buffers) (hbuffer : buffer ∈ buffers)
      (hplace : frame.memory = some place) (hmemory : s.memory? place = some memory)
      (hcontents : ∀ address, ¬ buffer.Covers address →
        contents address = memory.contents address) :
      Step s (s.setMemory place { memory with contents })
  | returns {s : System} {frame : Frame} {outer : List Frame} {buffers : List Buffer}
      (hframes : s.frames = frame :: outer) (hcalling : frame.calling = some buffers) :
      Step s (s.leaveCall frame outer)
  | ends {s : System} {frame : Frame} {outer : List Frame} (hframes : s.frames = frame :: outer) :
      Step s (System.release { s with frames := outer })

inductive Reachable : System → Prop
  | start : Reachable .start
  | step {s s' : System} (h : Reachable s) (hstep : Step s s') : Reachable s'

/-! ## What a start does to the heap -/

/-- The most pages a contract is let have. -/
def maxPages : Nat := maximumLinearMemory / wasmPageSize

/-- The heap behind `get_instantiated_module`. -/
inductive HeapAfter (heap : Heap) : Heap → Prop
  | same : HeapAfter heap heap
  | created {allocates commits : Bool} {type : MemoryType} {memory : MemoryInstance}
      (hnone : heap.theMemoryInstance = none) (hfits : MemoryType.Fits maxPages type)
      (hcreate : createMemory allocates commits type = some memory) :
      HeapAfter heap ⟨heap.memories ++ [memory], some heap.memories.length⟩

/-- New memories go to the end of the heap, and the current one is the last of them. -/
theorem heapAfter_of_instantiateMemories {platform : Platform} {memoryDefs : List MemoryType}
    {heap heap' : Heap} {result : Except Failure (List Nat)}
    (hfits : ∀ type ∈ memoryDefs, MemoryType.Fits maxPages type)
    (h : instantiateMemories platform memoryDefs heap = (result, heap')) : HeapAfter heap heap' := by
  have hallocated := allocated_instantiateMemories platform memoryDefs heap
  rw [h] at hallocated
  cases hallocated with
  | none hdefs => exact .same
  | shared hmemory => exact .same
  | refused hmemory => exact .same
  | created hmemory hhead hcreate =>
    exact .created hmemory (hfits _ (List.mem_of_mem_head? hhead)) hcreate

/-- A start that fails behind the memories leaves them in the heap. -/
theorem heapAfter_of_instantiateModule {platform : Platform} {module : Module}
    {linked : List Intrinsics.Function} {heap heap' : Heap} {result : Except Failure ModuleInstance}
    (hfits : ∀ type ∈ module.memories.defs, MemoryType.Fits maxPages type)
    (h : Runtime.instantiateModule platform module linked heap = (result, heap')) :
    HeapAfter heap heap' := by
  unfold Runtime.instantiateModule at h
  dsimp only at h
  split at h
  · cases h
    exact .same
  · split at h
    · next hmemories =>
      cases h
      exact heapAfter_of_instantiateMemories hfits hmemories
    · next hmemories =>
      cases h
      exact heapAfter_of_instantiateMemories hfits hmemories

/-- So does a contract, which is at least decoded before. -/
theorem heapAfter_of_getInstantiatedModule {platform : Platform} {statics : Statics} {code : Bytes}
    {heap heap' : Heap} {result : Except Failure WasmInstantiatedModule}
    (h : getInstantiatedModule platform statics code heap = (result, heap')) :
    HeapAfter heap heap' := by
  unfold getInstantiatedModule at h
  split at h
  · cases h
    exact .same
  · next bytes initialMemory hinstrument =>
    unfold WasmInterface.instantiateModule at h
    dsimp only at h
    split at h
    · cases h
      exact .same
    · next module functions hlinked =>
      obtain ⟨m, injection, -, hm, rfl, hvalid, -⟩ := linked_of_instrument hinstrument hlinked
      obtain ⟨-, rfl⟩ := Prod.mk.inj h
      exact heapAfter_of_instantiateModule
        (fun type hmem => fits_of_injected hm.injected hvalid hmem) rfl

/-- The memory of an instance is the one that is current then. -/
theorem theMemoryInstance_of_getInstantiatedModule {platform : Platform} {statics : Statics}
    {code : Bytes} {heap heap' : Heap} {instantiated : WasmInstantiatedModule} {place : Nat}
    (h : getInstantiatedModule platform statics code heap = (.ok instantiated, heap'))
    (hplace : getDefaultMemory instantiated.instance_ = some place) :
    heap'.theMemoryInstance = some place := by
  obtain ⟨m, injection, intrinsics, memories, -, hmade⟩ := madeFrom_of_getInstantiatedModule h
  obtain ⟨tables, hcomplete⟩ := hmade.complete
  have hmemories := (completed_of_completeInstance hcomplete).memories
  have hallocated := allocated_instantiateMemories platform injection.module.memories.defs heap
  rw [hmade.allocated] at hallocated
  unfold getDefaultMemory at hplace
  rw [hmemories] at hplace
  cases hallocated with
  | none hdefs => cases hplace
  | shared hmemory =>
    obtain ⟨_, -, rfl⟩ := List.mem_map.1 (List.mem_of_mem_head? hplace)
    exact hmemory
  | created hmemory hhead hcreate =>
    obtain ⟨_, -, rfl⟩ := List.mem_map.1 (List.mem_of_mem_head? hplace)
    rfl

/-- The heap behind a start, however it came out. -/
inductive HeapStarted (heap : Heap) : Heap → Prop
  | kept {made : Heap} (hmade : HeapAfter heap made) : HeapStarted heap made
  | reset {made : Heap} {place : Nat} {memory : MemoryInstance} {type : MemoryType}
      (commits : Bool) (contents : Nat → UInt8) (hmade : HeapAfter heap made)
      (hplace : made.theMemoryInstance = some place) (hmemory : made.memories[place]? = some memory)
      (hfits : MemoryType.Fits maxPages type) :
      HeapStarted heap { made with
        memories := made.memories.set place
          { (memory.resetMemory commits type).2 with contents } }

/-- A start changes no memory but the current one. -/
theorem heapStarted_of_prepareApply {platform : Platform} {statics : Statics} {code : Bytes}
    {heap made : Heap} {running : RunningInstanceContext (Option Nat)}
    {instantiated : WasmInstantiatedModule} {commits : Bool} {actionName : UInt64} {context : Nat}
    {result : Except Failure (Option (FunctionInstance × WasmInstantiatedModule))}
    {process : Process}
    (hmake : getInstantiatedModule platform statics code heap = (.ok instantiated, made))
    (hcall : instantiated.prepareApply commits actionName context ⟨made, running⟩ =
      (result, process)) : HeapStarted heap process.heap := by
  have hafter := heapAfter_of_getInstantiatedModule hmake
  obtain ⟨m, injection, intrinsics, memories, -, hmade⟩ := madeFrom_of_getInstantiatedModule hmake
  have hprepared := WasmInstantiatedModule.prepared commits (str "apply") [.i64 actionName] context
    instantiated ⟨made, running⟩
  unfold WasmInstantiatedModule.prepareApply at hcall
  rw [hcall] at hprepared
  have hreset : ∀ {place : Nat} {outcome : Except Failure Unit} {left : Heap},
      getDefaultMemory instantiated.instance_ = some place →
      WasmInstantiatedModule.MemoryReset commits instantiated place made outcome left →
      HeapStarted heap left := by
    intro place outcome left hplace hmemoryReset
    have hcurrent := theMemoryInstance_of_getInstantiatedModule hmake hplace
    cases hmemoryReset with
    | missing hmissing => exact .kept hafter
    | @refused defaultMem left type exception hmemory htype hreset =>
      have hfits := hmade.holds.fits type (List.mem_of_mem_head? htype)
      have hsame := HeapStarted.reset commits left.contents hafter hcurrent hmemory hfits
      rw [hreset] at hsame
      exact hsame
    | @done defaultMem left type hmemory htype hreset =>
      have hfits := hmade.holds.fits type (List.mem_of_mem_head? htype)
      have hsame := HeapStarted.reset commits (memcpy left.contents 0 instantiated.initialMemory)
        hafter hcurrent hmemory hfits
      rw [hreset] at hsame
      exact hsame
  cases hprepared with
  | missing hexport => exact .kept hafter
  | arity hexport harity => exact .kept hafter
  | unreset hexport harity hmemory hmemoryReset => exact hreset hmemory hmemoryReset
  | withoutMemory hexport harity hmemory => exact .kept hafter
  | withMemory hexport harity hmemory hmemoryReset => exact hreset hmemory hmemoryReset

/-- A memory as the contract may have it: of the type its code declares, clamped. -/
def Limited (code : Bytes) (memory : MemoryInstance) : Prop :=
  ∃ m declared, decode code = .ok m ∧ m.memories.defs.head? = some declared ∧
    memory.type = clampMemory declared ∧ memory.numPages ≤ memory.type.size.max

/-- A memory that was just reset has the size its contract asks for. -/
theorem limited_of_startsFresh {code : Bytes} {m : Module} {memory : MemoryInstance}
    {fresh started : WasmInstantiatedModule} (hdecode : decode code = .ok m) (hm : Holds m fresh)
    (h : StartsFresh m memory started) : Limited code memory := by
  obtain ⟨declared, hdeclared, htype, hpages⟩ := h.numPages
  refine ⟨m, declared, hdecode, hdeclared, htype, ?_⟩
  obtain ⟨memories, hdefs⟩ := List.head?_eq_some_iff.1 hdeclared
  have hfits := hm.fits (clampMemory declared) (by
    rw [hm.memories, hdefs]
    exact List.mem_cons_self)
  rw [hpages, htype]
  exact hfits.min

/-- What a contract starts with. -/
structure Started (code : Bytes) (context : Nat) (started : WasmInstantiatedModule)
    (process : Process) : Prop where
  running : process.running = ⟨getDefaultMemory started.instance_, some context⟩
  current : ∀ place, getDefaultMemory started.instance_ = some place →
    process.heap.theMemoryInstance = some place
  limited : ∀ place, getDefaultMemory started.instance_ = some place →
    ∃ memory, process.heap.memories[place]? = some memory ∧ Limited code memory

/-- What `apply` prepares is a started contract. -/
theorem started_of_prepareApply {platform : Platform} {statics : Statics} {code : Bytes}
    {heap made : Heap} {running : RunningInstanceContext (Option Nat)}
    {instantiated started : WasmInstantiatedModule} {commits : Bool} {actionName : UInt64}
    {context : Nat} {call : FunctionInstance} {process : Process}
    (hmake : getInstantiatedModule platform statics code heap = (.ok instantiated, made))
    (hcall : instantiated.prepareApply commits actionName context ⟨made, running⟩ =
      (.ok (some (call, started)), process)) : Started code context started process := by
  obtain ⟨m, injection, intrinsics, memories, hdecode, -⟩ := madeFrom_of_getInstantiatedModule hmake
  have hholds := holds_of_getInstantiatedModule hdecode hmake
  have hprepared := WasmInstantiatedModule.prepared commits (str "apply") [.i64 actionName] context
    instantiated ⟨made, running⟩
  unfold WasmInstantiatedModule.prepareApply at hcall
  rw [hcall] at hprepared
  have hlimited : ∀ place, getDefaultMemory started.instance_ = some place →
      ∃ memory, process.heap.memories[place]? = some memory ∧ Limited code memory := by
    intro place hplace
    have hmemories : m.memories.defs ≠ [] := by
      intro hnil
      have hinstances := hholds.instances
      rw [hnil, List.length_nil, List.length_eq_zero_iff] at hinstances
      cases hprepared with
      | withoutMemory _ _ _ | withMemory _ _ _ _ =>
        have hsame : getDefaultMemory instantiated.instance_ = some place := hplace
        unfold getDefaultMemory at hsame
        rw [hinstances] at hsame
        cases hsame
    obtain ⟨-, memory, hstarts⟩ := startsOn hholds (.refl instantiated) hmemories hcall
    have hshared := hstarts.shared
    rw [hplace] at hshared
    exact ⟨memory, hshared, limited_of_startsFresh hdecode hholds hstarts.fresh⟩
  cases hprepared with
  | withoutMemory hexport harity hmemory =>
    have hnone : getDefaultMemory instantiated.reset.instance_ = none := hmemory
    refine ⟨by rw [hnone], ?_, hlimited⟩
    intro place hplace
    rw [hnone] at hplace
    cases hplace
  | @withMemory _ place heap hexport harity hmemory hmemoryReset =>
    have hsome : getDefaultMemory instantiated.reset.instance_ = some place := hmemory
    refine ⟨by rw [hsome], ?_, hlimited⟩
    intro place' hplace
    rw [hsome] at hplace
    cases hplace
    have hcurrent := theMemoryInstance_of_getInstantiatedModule hmake hmemory
    cases hmemoryReset with
    | done hdefault htype hreset => exact hcurrent

/-! ## What holds in every state -/

/-- The invariant. Contracts that wait for the host have memories of their own, none of which is the
current one, so that no contract they call can come by it. -/
structure Sound (s : System) : Prop where
  used : ∀ memory ∈ s.process.heap.memories, Used (MemoryType.Fits maxPages) memory
  current : ∀ place, s.process.heap.theMemoryInstance = some place →
    place < s.process.heap.memories.length
  waiting : ∀ frame ∈ s.frames.tail, frame.calling.isSome = true
  own : ∀ frame ∈ s.frames, frame.memory = getDefaultMemory frame.instantiated.instance_
  limited : ∀ frame ∈ s.frames, ∀ place, frame.memory = some place →
    ∃ memory, s.memory? place = some memory ∧ Limited frame.code memory
  distinct : (s.frames.filterMap Frame.memory).Nodup
  hidden : ∀ frame ∈ s.frames, frame.calling.isSome = true → ∀ place, frame.memory = some place →
    s.process.heap.theMemoryInstance ≠ some place
  running : ∀ frame ∈ s.frames.head?, frame.calling = none →
    s.process.running = ⟨frame.memory, some frame.context⟩

/-- The first system is sound: no contract runs. -/
theorem sound_start : Sound .start where
  used _ hmem := absurd hmem List.not_mem_nil
  current _ hplace := by cases hplace
  waiting _ hmem := absurd hmem List.not_mem_nil
  own _ hmem := absurd hmem List.not_mem_nil
  limited _ hmem := absurd hmem List.not_mem_nil
  distinct := List.nodup_nil
  hidden _ hmem := absurd hmem List.not_mem_nil
  running _ hmem := by cases hmem

/-! ## Memories -/

/-- Stores do not change the size. -/
theorem Limited.store {code : Bytes} {memory : MemoryInstance} (h : Limited code memory)
    (contents : Nat → UInt8) : Limited code { memory with contents } := h

/-- A memory never grows beyond the limit of its contract. -/
theorem Limited.grow {code : Bytes} {memory : MemoryInstance} (h : Limited code memory)
    (commits : Bool) (deltaPages : UInt32) :
    Limited code (growMemoryIntrinsic commits deltaPages memory).2 := by
  rcases growMemoryIntrinsic_cases commits deltaPages memory with hsame | hgrow
  · rw [hsame]
    exact h
  · obtain ⟨m, declared, hdecode, hdeclared, htype, hpages⟩ := h
    have hgrown := grown_of_growMemory hgrow
    have hwithin : Within memory.type.size.max memory := ⟨hpages, Nat.le_refl _⟩
    refine ⟨m, declared, hdecode, hdeclared, hgrown.type.trans htype, ?_⟩
    rw [hgrown.type]
    exact (hwithin.grow hgrow).numPages

theorem memory?_setMemory_self {s : System} {place : Nat} {memory memory' : MemoryInstance}
    (h : s.memory? place = some memory) :
    (s.setMemory place memory').memory? place = some memory' := by
  obtain ⟨hlt, -⟩ := List.getElem?_eq_some_iff.1 h
  exact List.getElem?_set_self hlt

theorem memory?_setMemory_ne {s : System} {place place' : Nat} {memory : MemoryInstance}
    (hne : place ≠ place') : (s.setMemory place memory).memory? place' = s.memory? place' :=
  List.getElem?_set_ne hne

/-- An operation on one memory keeps the invariant. -/
theorem Sound.setMemory {s : System} (h : Sound s) {place : Nat} {memory memory' : MemoryInstance}
    (hmemory : s.memory? place = some memory)
    (htouched : Touched (MemoryType.Fits maxPages) memory memory')
    (hlimited : ∀ code, Limited code memory → Limited code memory') :
    Sound (s.setMemory place memory') := by
  obtain ⟨hlt, hget⟩ := List.getElem?_eq_some_iff.1 hmemory
  refine ⟨?_, ?_, h.waiting, h.own, ?_, h.distinct, h.hidden, h.running⟩
  · intro other hmem
    rcases List.mem_or_eq_of_mem_set hmem with hmem | rfl
    · exact h.used other hmem
    · exact .touched (h.used memory (List.mem_of_getElem? hmemory)) htouched
  · intro place' hcurrent
    simp only [System.setMemory, List.length_set]
    exact h.current place' hcurrent
  · intro frame hmem place' hplace
    obtain ⟨own, hown, hlimit⟩ := h.limited frame hmem place' hplace
    by_cases hsame : place = place'
    · subst hsame
      rw [hmemory] at hown
      cases hown
      exact ⟨memory', memory?_setMemory_self hmemory, hlimited _ hlimit⟩
    · exact ⟨own, (memory?_setMemory_ne hsame).trans hown, hlimit⟩

/-- Nothing that a contract runs on changes when the last of them ends. -/
theorem Sound.release {s : System} (h : Sound s) : Sound s.release := by
  unfold System.release
  split
  · refine ⟨h.used, ?_, h.waiting, h.own, h.limited, h.distinct, ?_, h.running⟩
    · intro place hplace
      cases hplace
    · intro frame hmem hcalling place hplace hcurrent
      cases hcurrent
  · exact h

/-- The heap a contract is made in. -/
theorem getElem?_of_heapAfter {heap heap' : Heap} (h : HeapAfter heap heap') {place : Nat}
    {memory : MemoryInstance} (hmemory : heap.memories[place]? = some memory) :
    heap'.memories[place]? = some memory := by
  cases h with
  | same => exact hmemory
  | created hnone hfits hcreate =>
    obtain ⟨hlt, -⟩ := List.getElem?_eq_some_iff.1 hmemory
    rw [List.getElem?_append_left hlt]
    exact hmemory

/-- The memories that were there are still in use as before. -/
theorem used_of_heapAfter {heap heap' : Heap} (h : HeapAfter heap heap')
    (hused : ∀ memory ∈ heap.memories, Used (MemoryType.Fits maxPages) memory) :
    ∀ memory ∈ heap'.memories, Used (MemoryType.Fits maxPages) memory := by
  cases h with
  | same => exact hused
  | created hnone hfits hcreate =>
    intro memory hmem
    rcases List.mem_append.1 hmem with hmem | hmem
    · exact hused memory hmem
    · obtain rfl := List.mem_singleton.1 hmem
      exact .created hfits hcreate

/-- What was hidden from a start is hidden from what it leaves, and has not changed. -/
structure Hides (heap heap' : Heap) (place : Nat) : Prop where
  current : heap'.theMemoryInstance ≠ some place
  memory : heap'.memories[place]? = heap.memories[place]?

/-- The memory of a caller is not the one a nested contract works on. -/
theorem hides_of_heapAfter {heap heap' : Heap} (h : HeapAfter heap heap') {place : Nat}
    (hlt : place < heap.memories.length) (hhidden : heap.theMemoryInstance ≠ some place) :
    Hides heap heap' place := by
  refine ⟨?_, ?_⟩
  · cases h with
    | same => exact hhidden
    | created hnone hfits hcreate =>
      intro hsame
      have hplace := Option.some.inj hsame
      omega
  · rw [List.getElem?_eq_getElem hlt]
    exact getElem?_of_heapAfter h (List.getElem?_eq_getElem hlt)

theorem hides_of_heapStarted {heap heap' : Heap} (h : HeapStarted heap heap') {place : Nat}
    (hlt : place < heap.memories.length) (hhidden : heap.theMemoryInstance ≠ some place) :
    Hides heap heap' place := by
  cases h with
  | kept hmade => exact hides_of_heapAfter hmade hlt hhidden
  | reset commits contents hmade hplace hmemory hfits =>
    have hhides := hides_of_heapAfter hmade hlt hhidden
    refine ⟨hhides.current, ?_⟩
    rw [← hhides.memory]
    apply List.getElem?_set_ne
    rintro rfl
    exact hhides.current hplace

theorem used_of_heapStarted {heap heap' : Heap} (h : HeapStarted heap heap')
    (hused : ∀ memory ∈ heap.memories, Used (MemoryType.Fits maxPages) memory) :
    ∀ memory ∈ heap'.memories, Used (MemoryType.Fits maxPages) memory := by
  cases h with
  | kept hmade => exact used_of_heapAfter hmade hused
  | reset commits contents hmade hplace hmemory hfits =>
    have hmade' := used_of_heapAfter hmade hused
    intro other hmem
    rcases List.mem_or_eq_of_mem_set hmem with hmem | rfl
    · exact hmade' other hmem
    · exact .touched (.touched (hmade' _ (List.mem_of_getElem? hmemory)) (.reset commits hfits))
        (.stored contents)

theorem current_of_heapStarted {heap heap' : Heap} (h : HeapStarted heap heap')
    (hcurrent : ∀ place, heap.theMemoryInstance = some place → place < heap.memories.length) :
    ∀ place, heap'.theMemoryInstance = some place → place < heap'.memories.length := by
  have hafter : ∀ {made : Heap}, HeapAfter heap made → ∀ place,
      made.theMemoryInstance = some place → place < made.memories.length := by
    intro made hmade place hplace
    cases hmade with
    | same => exact hcurrent place hplace
    | created hnone hfits hcreate =>
      cases hplace
      rw [List.length_append, List.length_singleton]
      exact Nat.lt_succ_self _
  cases h with
  | kept hmade => exact hafter hmade
  | reset commits contents hmade hplace hmemory hfits =>
    intro place hsame
    simp only [List.length_set]
    exact hafter hmade place hsame

/-! ## Steps -/

theorem calling_of_hostRuns {s : System} (h : Sound s) (hhost : s.HostRuns) :
    ∀ frame ∈ s.frames, frame.calling.isSome = true := by
  intro frame hmem
  have hwaiting := h.waiting
  unfold System.HostRuns at hhost
  cases hframes : s.frames with
  | nil =>
    rw [hframes] at hmem
    cases hmem
  | cons top outer =>
    rw [hframes] at hmem hwaiting hhost
    rcases List.mem_cons.1 hmem with rfl | hmem
    · exact hhost frame rfl
    · exact hwaiting frame hmem

/-- The memories of all frames exist. -/
theorem Sound.place_lt {s : System} (h : Sound s) {frame : Frame} (hmem : frame ∈ s.frames)
    {place : Nat} (hplace : frame.memory = some place) : place < s.process.heap.memories.length := by
  obtain ⟨memory, hmemory, -⟩ := h.limited frame hmem place hplace
  exact (List.getElem?_eq_some_iff.1 hmemory).1

/-- A start that the host makes does not concern the contracts that wait for it. -/
theorem Sound.begin {s : System} (h : Sound s) (hhost : s.HostRuns) {process : Process}
    (hstarted : HeapStarted s.process.heap process.heap) (contexts : Nat) :
    Sound ⟨process, contexts, s.frames⟩ := by
  have hcalling := calling_of_hostRuns h hhost
  have hhides : ∀ frame ∈ s.frames, ∀ place, frame.memory = some place →
      Hides s.process.heap process.heap place := by
    intro frame hmem place hplace
    exact hides_of_heapStarted hstarted (h.place_lt hmem hplace)
      (h.hidden frame hmem (hcalling frame hmem) place hplace)
  refine ⟨used_of_heapStarted hstarted h.used, current_of_heapStarted hstarted h.current, h.waiting,
    h.own, ?_, h.distinct, ?_, ?_⟩
  · intro frame hmem place hplace
    obtain ⟨memory, hmemory, hlimited⟩ := h.limited frame hmem place hplace
    exact ⟨memory, (hhides frame hmem place hplace).memory.trans hmemory, hlimited⟩
  · exact fun frame hmem _ place hplace => (hhides frame hmem place hplace).current
  · intro frame hmem hnone
    have hsome := hcalling frame (List.mem_of_mem_head? hmem)
    rw [hnone] at hsome
    cases hsome

/-- A contract that starts gets a memory none of the waiting ones has. -/
theorem Sound.push {s : System} (h : Sound s)
    (hcalling : ∀ frame ∈ s.frames, frame.calling.isSome = true) {code : Bytes} {context : Nat}
    {started : WasmInstantiatedModule} (hstarted : Started code context started s.process) :
    Sound { s with
      frames := ⟨context, code, started, s.process.running.memory, none⟩ :: s.frames } := by
  have hmemory : s.process.running.memory = getDefaultMemory started.instance_ := by
    rw [hstarted.running]
  refine ⟨h.used, h.current, hcalling, ?_, ?_, ?_, ?_, ?_⟩
  · intro frame hmem
    rcases List.mem_cons.1 hmem with rfl | hmem
    · exact hmemory
    · exact h.own frame hmem
  · intro frame hmem place hplace
    rcases List.mem_cons.1 hmem with rfl | hmem
    · exact hstarted.limited place (hmemory ▸ hplace)
    · exact h.limited frame hmem place hplace
  · cases hdefault : getDefaultMemory started.instance_ with
    | none =>
      simp only [List.filterMap_cons, hmemory, hdefault]
      exact h.distinct
    | some place =>
      simp only [List.filterMap_cons, hmemory, hdefault]
      refine List.nodup_cons.2 ⟨?_, h.distinct⟩
      intro hmem
      obtain ⟨frame, hframe, hplace⟩ := List.mem_filterMap.1 hmem
      exact h.hidden frame hframe (hcalling frame hframe) place hplace
        (hstarted.current place hdefault)
  · intro frame hmem hsome
    rcases List.mem_cons.1 hmem with rfl | hmem
    · cases hsome
    · exact h.hidden frame hmem hsome
  · intro frame hmem _
    cases hmem
    rw [hstarted.running]

/-- The innermost contract hides its memory, or takes it back. -/
structure Recalled (s : System) (frame : Frame) (outer : List Frame) (s' : System) : Prop where
  frames : s.frames = frame :: outer
  frames' : ∃ calling, s'.frames = { frame with calling } :: outer
  memories : s'.process.heap.memories = s.process.heap.memories

theorem Recalled.mem {s s' : System} {frame : Frame} {outer : List Frame}
    (h : Recalled s frame outer s') {frame' : Frame} (hmem : frame' ∈ s'.frames) :
    ∃ original ∈ s.frames, original.memory = frame'.memory ∧ original.code = frame'.code ∧
      original.instantiated = frame'.instantiated := by
  obtain ⟨calling, hframes'⟩ := h.frames'
  rw [hframes'] at hmem
  rw [h.frames]
  rcases List.mem_cons.1 hmem with rfl | hmem
  · exact ⟨frame, List.mem_cons_self, rfl, rfl, rfl⟩
  · exact ⟨frame', List.mem_cons_of_mem _ hmem, rfl, rfl, rfl⟩

/-- Back in a caller the system is sound, whatever the nested contracts did. -/
theorem Recalled.sound {s s' : System} {frame : Frame} {outer : List Frame}
    (h : Recalled s frame outer s') (hs : Sound s)
    (hcurrent : ∀ place, s'.process.heap.theMemoryInstance = some place →
      frame.memory = some place)
    (hhidden : ∀ frame' ∈ s'.frames.head?, frame'.calling.isSome = true →
      s'.process.heap.theMemoryInstance = none)
    (hrunning : ∀ frame' ∈ s'.frames.head?, frame'.calling = none →
      s'.process.running = ⟨frame'.memory, some frame'.context⟩) : Sound s' := by
  have hmem : frame ∈ s.frames := by
    rw [h.frames]
    exact List.mem_cons_self
  have hdistinct := hs.distinct
  have hwaiting := hs.waiting
  rw [h.frames] at hdistinct hwaiting
  obtain ⟨calling, hframes'⟩ := h.frames'
  refine ⟨?_, ?_, ?_, ?_, ?_, ?_, ?_, hrunning⟩
  · rw [h.memories]
    exact hs.used
  · intro place hplace
    rw [h.memories]
    exact hs.place_lt hmem (hcurrent place hplace)
  · rw [hframes']
    exact hwaiting
  · intro frame' hmem'
    obtain ⟨original, horiginal, hmemory, -, hinstance⟩ := h.mem hmem'
    rw [← hmemory, ← hinstance]
    exact hs.own original horiginal
  · intro frame' hmem' place hplace
    obtain ⟨original, horiginal, hmemory, hcode, -⟩ := h.mem hmem'
    obtain ⟨memory, hget, hlimited⟩ := hs.limited original horiginal place (hmemory.trans hplace)
    refine ⟨memory, ?_, hcode ▸ hlimited⟩
    unfold System.memory?
    rw [h.memories]
    exact hget
  · rw [hframes']
    exact hdistinct
  · intro frame' hmem' hcalling place hplace hsame
    rw [hframes'] at hmem' hhidden
    rcases List.mem_cons.1 hmem' with rfl | hmem'
    · rw [hhidden _ rfl hcalling] at hsame
      cases hsame
    · have hplace' := hcurrent place hsame
      simp only [List.filterMap_cons, hplace'] at hdistinct
      exact (List.nodup_cons.1 hdistinct).1 (List.mem_filterMap.2 ⟨frame', hmem', hplace⟩)

/-- A call hides the memory of the caller. -/
theorem Sound.enterCall {s : System} (h : Sound s) {frame : Frame} {outer : List Frame}
    (hframes : s.frames = frame :: outer) (buffers : List Buffer) :
    Sound (s.enterCall frame outer buffers) := by
  have hrecalled : Recalled s frame outer (s.enterCall frame outer buffers) :=
    ⟨hframes, ⟨some buffers, rfl⟩, rfl⟩
  refine hrecalled.sound h ?_ ?_ ?_
  · intro place hplace
    cases hplace
  · exact fun _ _ _ => rfl
  · intro frame' hhead hnone
    cases hhead
    cases hnone

/-- And gives it back. -/
theorem Sound.leaveCall {s : System} (h : Sound s) {frame : Frame} {outer : List Frame}
    (hframes : s.frames = frame :: outer) : Sound (s.leaveCall frame outer) := by
  have hrecalled : Recalled s frame outer (s.leaveCall frame outer) :=
    ⟨hframes, ⟨none, rfl⟩, rfl⟩
  refine hrecalled.sound h ?_ ?_ ?_
  · exact fun place hplace => hplace
  · intro frame' hhead hsome
    cases hhead
    cases hsome
  · intro frame' hhead _
    cases hhead
    rfl

/-- A contract that ends leaves the stack. -/
theorem Sound.pop {s : System} (h : Sound s) {frame : Frame} {outer : List Frame}
    (hframes : s.frames = frame :: outer) : Sound { s with frames := outer } := by
  have hwaiting := h.waiting
  have hdistinct := h.distinct
  rw [hframes] at hwaiting hdistinct
  have hmem : ∀ other ∈ outer, other ∈ s.frames := by
    intro other hother
    rw [hframes]
    exact List.mem_cons_of_mem _ hother
  refine ⟨h.used, h.current, ?_, ?_, ?_, ?_, ?_, ?_⟩
  · exact fun other hother => hwaiting other (List.mem_of_mem_tail hother)
  · exact fun other hother => h.own other (hmem other hother)
  · exact fun other hother => h.limited other (hmem other hother)
  · exact hdistinct.sublist ((List.sublist_cons_self frame outer).filterMap Frame.memory)
  · exact fun other hother => h.hidden other (hmem other hother)
  · intro other hhead hnone
    have hsome := hwaiting other (List.mem_of_mem_head? hhead)
    rw [hnone] at hsome
    cases hsome

/-- The steps keep the invariant. -/
theorem Sound.step {s s' : System} (h : Sound s) (hstep : Step s s') : Sound s' := by
  cases hstep with
  | refused hhost hmake =>
    exact (h.begin hhost (.kept (heapAfter_of_getInstantiatedModule hmake)) _).release
  | unstarted hhost hmake hcall hresult =>
    exact (h.begin hhost (heapStarted_of_prepareApply hmake hcall) _).release
  | started hhost hmake hcall =>
    have hbegun := h.begin hhost (heapStarted_of_prepareApply hmake hcall) (s.contexts + 1)
    have hcalling := calling_of_hostRuns h hhost
    exact hbegun.push hcalling (started_of_prepareApply hmake hcall)
  | stores hframes hruns hplace hmemory =>
    exact h.setMemory hmemory (.stored _) fun _ hlimited => hlimited.store _
  | grows hframes hruns hplace hmemory =>
    exact h.setMemory hmemory (.grown _ _) fun _ hlimited => hlimited.grow _ _
  | writes hframes hruns hplace hmemory =>
    exact h.setMemory hmemory (.stored _) fun _ hlimited => hlimited.store _
  | calls buffers hframes hruns => exact h.enterCall hframes buffers
  | fills hframe hcalling hbuffer hplace hmemory hcontents =>
    exact h.setMemory hmemory (.stored _) fun _ hlimited => hlimited.store _
  | returns hframes hcalling => exact h.leaveCall hframes
  | ends hframes => exact (h.pop hframes).release

/-- **Invariant.** Every reachable system is sound, by induction over its steps. -/
theorem sound_of_reachable {s : System} (h : Reachable s) : Sound s := by
  induction h with
  | start => exact sound_start
  | step _ hstep ih => exact ih.step hstep

end Calls

end FractalWasm
