import FractalWasm.Wasmlib.Apply
import FractalWasm.Wasmlib.PrivateModule
import Mathlib.Data.List.Induction

/-!
# A fresh start

Whatever was run before on the memory that a contract is handed, its own code starts from the same
memory and the same globals, and cannot find out later either.

**Histories** (`RanFrom`): what other runs may have done to an instance: its globals keep their
types and initializers and have any values (`SetFrom`), its memory has been through anything.

**A start** (`StartsFresh`): the memory is that of the image, the globals are their initializers.
Two starts that differ in their history only lead to the same runs (`StartsOn`), access by access.
-/

namespace FractalWasm

open Codec IR FractalWasm.Runtime Serialization WASM WasmInjections Wavm

namespace WasmInterface

open MemoryInstance

/-! ## Globals -/

/-- Every global has the value of its initializer, which can only use the globals before. -/
def Initialized (globalDefs : List GlobalDef) (globals : List GlobalInstance) : Prop :=
  globals.length = globalDefs.length ∧
    ∀ i globalDef, globalDefs[i]? = some globalDef →
      ∃ value, globals[i]? = some ⟨globalDef.type, value, value⟩ ∧
        evaluateInitializer (globals.take i) globalDef.initializer = .ok value

theorem initialized_append {globalDefs : List GlobalDef} {globals : List GlobalInstance}
    {globalDef : GlobalDef} {value : Value} (h : Initialized globalDefs globals)
    (hvalue : evaluateInitializer globals globalDef.initializer = .ok value) :
    Initialized (globalDefs ++ [globalDef]) (globals ++ [⟨globalDef.type, value, value⟩]) := by
  obtain ⟨hlength, hinit⟩ := h
  refine ⟨by simp [hlength], ?_⟩
  intro i globalDef' hget
  rcases Nat.lt_or_ge i globalDefs.length with hlt | hge
  · rw [List.getElem?_append_left hlt] at hget
    obtain ⟨value', hglobal, heval⟩ := hinit i globalDef' hget
    refine ⟨value', ?_, ?_⟩
    · rw [List.getElem?_append_left (by omega)]
      exact hglobal
    · rw [List.take_append_of_le_length (by omega)]
      exact heval
  · rw [List.getElem?_append_right hge] at hget
    obtain ⟨hlast, hsame⟩ := List.getElem?_eq_some_iff.1 hget
    have hindex : i = globals.length := by
      simp only [List.length_singleton] at hlast
      omega
    obtain rfl : globalDef = globalDef' := by simpa using hsame
    refine ⟨value, ?_, ?_⟩
    · rw [hindex, List.getElem?_concat_length]
    · rw [hindex, List.take_left]
      exact hvalue

theorem initialized_of_instantiateGlobals {globalDefs : List GlobalDef}
    {globals : List GlobalInstance} (h : instantiateGlobals globalDefs = .ok globals) :
    Initialized globalDefs globals := by
  induction globalDefs using List.reverseRecOn generalizing globals with
  | nil =>
    cases h
    refine ⟨rfl, fun i globalDef hget => ?_⟩
    simp at hget
  | append_singleton globalDefs globalDef ih =>
    unfold instantiateGlobals at h
    rw [List.foldlM_append] at h
    obtain ⟨before, hbefore, h⟩ := Except.bind_eq_ok.1 h
    rw [List.foldlM_cons] at h
    obtain ⟨after, hglobal, h⟩ := Except.bind_eq_ok.1 h
    cases h
    obtain ⟨value, hvalue, hglobal⟩ := Except.bind_eq_ok.1 hglobal
    obtain ⟨_, -, hglobal⟩ := Except.bind_eq_ok.1 hglobal
    cases hglobal
    exact initialized_append (ih hbefore) hvalue

/-- A global that code may have set: it has the type and the initial value it was made with, and
any value. -/
structure SetFrom (fresh earlier : GlobalInstance) : Prop where
  type : earlier.type = fresh.type
  initialValue : earlier.initialValue = fresh.initialValue

/-- An instance of which some code may have run. The code of a contract changes nothing of its
instance but the values of globals, so that is all an earlier run can have left there. -/
structure RanFrom (fresh earlier : WasmInstantiatedModule) : Prop where
  initialMemory : earlier.initialMemory = fresh.initialMemory
  module : earlier.module = fresh.module
  memories : earlier.instance_.memories = fresh.instance_.memories
  globals : List.Forall₂ SetFrom fresh.instance_.globals earlier.instance_.globals

theorem RanFrom.refl (fresh : WasmInstantiatedModule) : RanFrom fresh fresh :=
  ⟨rfl, rfl, rfl, List.forall₂_same.2 fun _ _ => ⟨rfl, rfl⟩⟩

/-- A reset forgets what the globals were set to. -/
theorem reset_of_setFrom {fresh earlier : List GlobalInstance}
    (h : List.Forall₂ SetFrom fresh earlier) :
    (earlier.map fun global => { global with value := global.initialValue }) =
      fresh.map fun global => { global with value := global.initialValue } := by
  induction h with
  | nil => rfl
  | @cons global global' _ _ hset _ ih =>
    have hglobal : ({ global' with value := global'.initialValue } : GlobalInstance) =
        { global with value := global.initialValue } := by
      rw [hset.type, hset.initialValue]
    rw [List.map_cons, List.map_cons, hglobal, ih]

/-- Globals that were just initialized are as a reset leaves them. -/
theorem reset_of_initialized {globalDefs : List GlobalDef} {globals : List GlobalInstance}
    (h : Initialized globalDefs globals) :
    (globals.map fun global => { global with value := global.initialValue }) = globals := by
  obtain ⟨hlength, hinit⟩ := h
  refine (List.map_congr_left fun global hmem => ?_).trans (List.map_id globals)
  obtain ⟨i, hlt, rfl⟩ := List.getElem_of_mem hmem
  obtain ⟨value, hglobal, -⟩ := hinit i globalDefs[i] (List.getElem?_eq_getElem (by omega))
  obtain ⟨_, hvalue⟩ := List.getElem?_eq_some_iff.1 hglobal
  rw [hvalue]
  rfl

/-! ## The start -/

/-- What the code of a contract finds when it starts. -/
structure StartsFresh (m : Module) (memory : MemoryInstance)
    (started : WasmInstantiatedModule) : Prop where
  numPages : ∃ type, m.memories.defs.head? = some type ∧ memory.type = clampMemory type ∧
    memory.numPages = type.size.min
  contents : ∃ memImage, parseInitialMemory m = .ok memImage ∧
    memImage.length ≤ memory.numPages * wasmPageSize ∧
      ∀ address < memory.numPages * wasmPageSize, memory.contents address = memImage.getD address 0
  globals : Initialized m.globals.defs started.instance_.globals

theorem largestStop_le {size limit : Nat} {dataSegments : List DataSegment} (hsize : size ≤ limit)
    (hstops : ∀ dataSegment ∈ dataSegments, dataSegment.stop ≤ limit) :
    largestStop size dataSegments ≤ limit := by
  unfold largestStop
  induction dataSegments generalizing size with
  | nil => exact hsize
  | cons dataSegment dataSegments ih =>
    obtain ⟨hfirst, hrest⟩ := List.forall_mem_cons.1 hstops
    exact ih (Nat.max_le.2 ⟨hsize, hfirst⟩) hrest

/-- An image fits the initial pages. -/
theorem length_le_of_parseInitialMemory {m : Module} {memImage : Bytes} {type : MemoryType}
    (h : parseInitialMemory m = .ok memImage) (htype : m.memories.defs.head? = some type) :
    memImage.length ≤ type.size.min * wasmPageSize := by
  have hfits := (parseInitialMemory_iff m).1 ⟨memImage, h⟩
  rw [(overlay_of_foldlM h).1]
  apply largestStop_le (Nat.zero_le _)
  intro dataSegment hmem
  obtain ⟨base, memory, hbase, hhead, -, hle⟩ := hfits dataSegment hmem
  rw [htype] at hhead
  cases hhead
  unfold DataSegment.stop DataSegment.start
  rw [hbase]
  exact hle

theorem getD_of_le_length {bytes : Bytes} {address : Nat} (hle : bytes.length ≤ address) :
    bytes.getD address 0 = 0 := by
  rw [List.getD_eq_getElem?_getD, List.getElem?_eq_none hle]
  rfl

/-- The bytes of an image on a cleared memory. -/
theorem memcpy_cleared {contents : Nat → UInt8} {memImage : Bytes} {address : Nat}
    (hcleared : contents address = 0) :
    memcpy contents 0 memImage address = memImage.getD address 0 := by
  unfold memcpy
  rw [Nat.zero_add, Nat.sub_zero]
  split
  · rfl
  · next hout =>
    rw [hcleared, getD_of_le_length (by omega)]

/-- A memory that was reset, with the image copied over it. -/
theorem startsFresh_of_initial {m : Module} {declared : MemoryType} {left : MemoryInstance}
    {memImage : Bytes} {started : WasmInstantiatedModule}
    (hdeclared : m.memories.defs.head? = some declared)
    (hinitial : Initial (clampMemory declared) left) (himage : parseInitialMemory m = .ok memImage)
    (hglobals : Initialized m.globals.defs started.instance_.globals) :
    StartsFresh m { left with contents := memcpy left.contents 0 memImage } started where
  numPages := ⟨declared, hdeclared, hinitial.type, hinitial.numPages⟩
  contents := by
    have hpages : left.numPages = declared.size.min := hinitial.numPages
    refine ⟨memImage, himage, ?_, ?_⟩
    · rw [hpages]
      exact length_le_of_parseInitialMemory himage hdeclared
    · intro address hlt
      exact memcpy_cleared (hinitial.cleared address hlt)
  globals := hglobals

/-- The code of an instance starts on a memory of the process, its own and that of the intrinsics. -/
structure StartsOn (m : Module) (context : Nat) (started : WasmInstantiatedModule)
    (process : Process) (memory : MemoryInstance) : Prop where
  running : process.running = ⟨getDefaultMemory started.instance_, some context⟩
  shared : (getDefaultMemory started.instance_).bind (process.heap.memories[·]?) = some memory
  fresh : StartsFresh m memory started

/-- The call of an instance of `m` comes to its start function. -/
theorem startsOn {m : Module} {fresh earlier started : WasmInstantiatedModule}
    (hm : Holds m fresh) (hran : RanFrom fresh earlier) (hmemories : m.memories.defs ≠ [])
    {commits : Bool} {entryPoint : Bytes} {args : List Value} {context : Nat}
    {process process' : Process} {call : FunctionInstance}
    (h : earlier.prepareCall commits entryPoint args context process =
      (.ok (some (call, started)), process')) :
    instantiateGlobals m.globals.defs = .ok started.instance_.globals ∧
      ∃ memory, StartsOn m context started process' memory := by
  have hprepared :=
    WasmInstantiatedModule.prepared commits entryPoint args context earlier process
  rw [h] at hprepared
  have hglobals : instantiateGlobals m.globals.defs = .ok earlier.reset.instance_.globals := by
    have hreset : earlier.reset.instance_.globals = fresh.instance_.globals :=
      (reset_of_setFrom hran.globals).trans
        (reset_of_initialized (initialized_of_instantiateGlobals hm.globals))
    rw [hreset]
    exact hm.globals
  cases hprepared with
  | withoutMemory hexport harity hnone =>
    unfold getDefaultMemory at hnone
    rw [List.head?_eq_none_iff, hran.memories, ← List.length_eq_zero_iff, hm.instances,
      List.length_eq_zero_iff] at hnone
    exact absurd hnone hmemories
  | @withMemory _ place heap hexport harity hplace hmemory =>
    cases hmemory with
    | @done defaultMem left type hdefault htype hmemory =>
      obtain ⟨hlt, -⟩ := List.getElem?_eq_some_iff.1 hdefault
      rw [hran.module, hm.memories] at htype
      obtain ⟨declared, hdeclared, rfl⟩ : ∃ declared, m.memories.defs.head? = some declared ∧
          clampMemory declared = type := by
        cases hdefs : m.memories.defs with
        | nil => exact absurd hdefs hmemories
        | cons declared defs =>
          rw [hdefs] at htype
          exact ⟨declared, rfl, Option.some.inj htype⟩
      cases resetMemory_cases max_clampMemory_lt hmemory with
      | done hpos hmin hinitial =>
        have hdefault : getDefaultMemory earlier.reset.instance_ = some place := hplace
        have hfresh : StartsFresh m _ earlier.reset := startsFresh_of_initial hdeclared hinitial
          hm.image (initialized_of_instantiateGlobals hglobals)
        rw [← hran.initialMemory] at hfresh
        refine ⟨hglobals, _, by rw [hdefault], ?_, hfresh⟩
        rw [hdefault]
        exact List.getElem?_set_self hlt

theorem alike_of_startsFresh {m : Module} {memory memory' : MemoryInstance}
    {started started' : WasmInstantiatedModule} (h : StartsFresh m memory started)
    (h' : StartsFresh m memory' started') : Alike memory memory' := by
  obtain ⟨type, htype, hsame, hpages⟩ := h.numPages
  obtain ⟨type', htype', hsame', hpages'⟩ := h'.numPages
  obtain ⟨memImage, himage, -, hcontents⟩ := h.contents
  obtain ⟨memImage', himage', -, hcontents'⟩ := h'.contents
  rw [htype] at htype'
  cases htype'
  rw [himage] at himage'
  cases himage'
  have hnumPages : memory'.numPages = memory.numPages := hpages'.trans hpages.symm
  refine ⟨hsame'.trans hsame.symm, hnumPages, ?_⟩
  intro address hlt
  rw [hcontents address hlt, hcontents' address (by rw [hnumPages]; exact hlt)]

theorem holds_of_getInstantiatedModule {platform : Platform} {statics : Statics} {code : Bytes}
    {m : Module} {heap heap' : Heap} {instantiated : WasmInstantiatedModule}
    (hdecode : decode code = .ok m)
    (h : getInstantiatedModule platform statics code heap = (.ok instantiated, heap')) :
    Holds m instantiated := by
  obtain ⟨read, injection, intrinsics, memories, hread, hmade⟩ :=
    madeFrom_of_getInstantiatedModule h
  rw [hdecode] at hread
  cases hread
  have hholds := hmade.holds
  exact ⟨hholds.memories, hholds.fits, hholds.image, hholds.globals, hholds.instances⟩

/-- **Runs start alike.** Two runs of a contract with a memory, in any two processes and on whatever
memories they are handed, start from its initial pages with its image and from its initial globals;
and whatever they store and however they grow, they never see what was there before. -/
theorem runs_start_alike {code : Bytes} {m : Module} (hdecode : decode code = .ok m)
    (hmemories : m.memories.defs ≠ []) {platform platform' : Platform} {statics statics' : Statics}
    {heap heap' made made' : Heap} {fresh fresh' earlier earlier' : WasmInstantiatedModule}
    (hmake : getInstantiatedModule platform statics code heap = (.ok fresh, made))
    (hmake' : getInstantiatedModule platform' statics' code heap' = (.ok fresh', made'))
    (hran : RanFrom fresh earlier) (hran' : RanFrom fresh' earlier') {commits commits' : Bool}
    {entryPoint entryPoint' : Bytes} {args args' : List Value} {context context' : Nat}
    {process process' after after' : Process} {call call' : FunctionInstance}
    {started started' : WasmInstantiatedModule}
    (hcall : earlier.prepareCall commits entryPoint args context process =
      (.ok (some (call, started)), after))
    (hcall' : earlier'.prepareCall commits' entryPoint' args' context' process' =
      (.ok (some (call', started')), after')) :
    ∃ memory memory', StartsOn m context started after memory ∧
      StartsOn m context' started' after' memory' ∧
        started'.instance_.globals = started.instance_.globals ∧ Alike memory memory' ∧
          ∀ accesses, (memory'.runAll accesses).1 = (memory.runAll accesses).1 ∧
            Alike (memory.runAll accesses).2 (memory'.runAll accesses).2 := by
  obtain ⟨hholds, hholds'⟩ := And.intro (holds_of_getInstantiatedModule hdecode hmake)
    (holds_of_getInstantiatedModule hdecode hmake')
  obtain ⟨hglobals, memory, hstarts⟩ := startsOn hholds hran hmemories hcall
  obtain ⟨hglobals', memory', hstarts'⟩ := startsOn hholds' hran' hmemories hcall'
  have halike := alike_of_startsFresh hstarts.fresh hstarts'.fresh
  rw [hglobals] at hglobals'
  exact ⟨memory, memory', hstarts, hstarts', (Except.ok.inj hglobals').symm, halike,
    fun accesses => halike.runAll accesses⟩

/-- A process whose memory has so many pages, and `value` everywhere. -/
def processWith (numPages : Nat) (value : UInt8) : Process :=
  ⟨⟨[⟨⟨false, ⟨1, 528⟩⟩, numPages, fun _ => value⟩], some 0⟩, ⟨some 0, some 0⟩⟩

def threeArgs : List Value := [.i64 1, .i64 2, .i64 3]

theorem exists_some {α β : Type} {result : Except Failure (Option α) × β}
    (h : (result.1.toOption.bind id).isSome = true) : ∃ a b, result = (.ok (some a), b) := by
  obtain ⟨result, b⟩ := result
  rcases result with failure | _ | a
  · cases h
  · cases h
  · exact ⟨a, b, rfl⟩

/-- A contract with one page, and with a mutable global that starts as 5 and that its entry point
sets to 9. -/
def globalBytes : Bytes :=
  [0x00, 0x61, 0x73, 0x6d, 1, 0, 0, 0,
    1, 7, 1, 0x60, 3, 0x7e, 0x7e, 0x7e, 0,
    3, 2, 1, 0,
    5, 3, 1, 0, 1,
    6, 6, 1, 0x7e, 1, 0x42, 5, 0x0b,
    7, 9, 1, 5, 97, 112, 112, 108, 121, 0, 0,
    10, 8, 1, 6, 0, 0x42, 9, 0x24, 0, 0x0b,
    11, 7, 1, 0, 0x41, 0, 0x0b, 1, 120]

/-- The instance, with every global set to `value`. -/
def setGlobals (value : Value) (instantiated : WasmInstantiatedModule) : WasmInstantiatedModule :=
  { instantiated with
    instance_ := { instantiated.instance_ with
      globals := instantiated.instance_.globals.map fun global => { global with value := value } } }

theorem ranFrom_setGlobals (value : Value) (fresh : WasmInstantiatedModule) :
    RanFrom fresh (setGlobals value fresh) := by
  refine ⟨rfl, rfl, rfl, ?_⟩
  unfold setGlobals
  rw [List.forall₂_map_right_iff, List.forall₂_same]
  intro global _
  exact ⟨rfl, rfl⟩

/-- A first run, and one after the global was set to 9, on five pages full of sevens. -/
theorem runs_start_alike_sample :
    ∃ m fresh earlier started started' memory memory', decode globalBytes = .ok m ∧
      RanFrom fresh earlier ∧ earlier.instance_.globals = [⟨⟨.i64, true⟩, .i64 9, .i64 5⟩] ∧
        StartsFresh m memory started ∧ StartsFresh m memory' started' ∧
          started'.instance_.globals = started.instance_.globals ∧ Alike memory memory' := by
  have hmodule : (decode globalBytes).toOption.isSome = true := by decide +kernel
  have heval : (getInstantiatedModule idealPlatform .initial globalBytes
      ⟨[], none⟩).1.toOption.isSome = true := by decide +kernel
  have hstart : ∀ value ∈ [Value.i64 5, .i64 9], ∀ pages ∈ [(1, (0 : UInt8)), (5, 7)],
      ((getInstantiatedModule idealPlatform .initial globalBytes ⟨[], none⟩).1.toOption.map
        fun fresh => (((setGlobals value fresh).prepareCall true (str "apply") threeArgs 0
          (processWith pages.1 pages.2)).1.toOption.bind id).isSome) = some true := by
    decide +kernel
  have hmemory : (decode globalBytes).toOption.map (fun m => m.memories.defs.isEmpty) =
      some false := by decide +kernel
  have hset : (getInstantiatedModule idealPlatform .initial globalBytes ⟨[], none⟩).1.toOption.map
      (fun fresh => (setGlobals (.i64 9) fresh).instance_.globals) =
        some [⟨⟨.i64, true⟩, .i64 9, .i64 5⟩] := by decide +kernel
  obtain ⟨m, hdecode⟩ := Option.isSome_iff_exists.1 hmodule
  obtain ⟨fresh, made, hmake⟩ := exists_ok heval
  rw [hdecode] at hmemory
  have hmemories : m.memories.defs ≠ [] := by simpa using hmemory
  have hunused := hstart (.i64 5) (by simp) (1, 0) (by simp)
  have hused := hstart (.i64 9) (by simp) (5, 7) (by simp)
  rw [hmake] at hunused hused hset
  obtain ⟨⟨call, started⟩, after, hcall⟩ := exists_some (Option.some.inj hunused)
  obtain ⟨⟨call', started'⟩, after', hcall'⟩ := exists_some (Option.some.inj hused)
  obtain ⟨memory, memory', hstarts, hstarts', hglobals, halike, -⟩ :=
    runs_start_alike (Except.toOption_eq_some.1 hdecode) hmemories hmake hmake
      (ranFrom_setGlobals (.i64 5) fresh) (ranFrom_setGlobals (.i64 9) fresh) hcall hcall'
  exact ⟨m, fresh, setGlobals (.i64 9) fresh, started, started', memory, memory',
    Except.toOption_eq_some.1 hdecode, ranFrom_setGlobals (.i64 9) fresh, Option.some.inj hset,
    hstarts.fresh, hstarts'.fresh, hglobals, halike⟩

end WasmInterface

end FractalWasm
