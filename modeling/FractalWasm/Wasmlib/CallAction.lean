import FractalWasm.Wasmlib.Calls

/-!
# `call_action` restores its caller

While a contract waits for the host, whatever runs meanwhile leaves its memory alone, except for the
buffers the host was given. Behind the callback the globals designate the caller again.

**Nested runs** (`Nested`): the steps of the system while a frame waits, which include whole
contracts, their own calls, and their failures.

**What is kept** (`keptExcept_of_nested`): the bytes of the caller's memory outside the buffers, by
induction over the steps, with the soundness of the system as its invariant.
-/

namespace FractalWasm

open Codec IR FractalWasm.Runtime Serialization WASM WasmInjections Wavm

namespace Calls

open MemoryInstance WasmInterface

/-- A memory of the same type and size, and with the same bytes outside of the buffers. -/
structure KeptExcept (buffers : List Buffer) (memory memory' : MemoryInstance) : Prop where
  type : memory'.type = memory.type
  numPages : memory'.numPages = memory.numPages
  contents : ∀ address, (∀ buffer ∈ buffers, ¬ buffer.Covers address) →
    memory'.contents address = memory.contents address

theorem KeptExcept.refl (buffers : List Buffer) (memory : MemoryInstance) :
    KeptExcept buffers memory memory := ⟨rfl, rfl, fun _ _ => rfl⟩

theorem KeptExcept.trans {buffers : List Buffer} {memory memory' memory'' : MemoryInstance}
    (h : KeptExcept buffers memory memory') (h' : KeptExcept buffers memory' memory'') :
    KeptExcept buffers memory memory'' :=
  ⟨h'.type.trans h.type, h'.numPages.trans h.numPages,
    fun address hout => (h'.contents address hout).trans (h.contents address hout)⟩

/-- Contracts with the same memory are the same. -/
theorem eq_of_memory {frames : List Frame} (hdistinct : (frames.filterMap Frame.memory).Nodup)
    {frame frame' : Frame} (hmem : frame ∈ frames) (hmem' : frame' ∈ frames) {place : Nat}
    (hplace : frame.memory = some place) (hplace' : frame'.memory = some place) :
    frame = frame' := by
  induction frames with
  | nil => cases hmem
  | cons first frames ih =>
    have hlater : ∀ other ∈ frames, other.memory = some place → first.memory ≠ some place := by
      intro other hother hsame hfirst
      simp only [List.filterMap_cons, hfirst] at hdistinct
      exact (List.nodup_cons.1 hdistinct).1 (List.mem_filterMap.2 ⟨other, hother, hsame⟩)
    have hrest : (frames.filterMap Frame.memory).Nodup :=
      hdistinct.sublist ((List.sublist_cons_self first frames).filterMap Frame.memory)
    rcases List.mem_cons.1 hmem with rfl | hlast
    · rcases List.mem_cons.1 hmem' with rfl | hlast'
      · rfl
      · exact absurd hplace (hlater frame' hlast' hplace')
    · rcases List.mem_cons.1 hmem' with rfl | hlast'
      · exact absurd hplace' (hlater frame hlast hplace)
      · exact ih hrest hlast hlast'

section Waiting

variable {s s' : System} {frame : Frame} {buffers : List Buffer} {place : Nat}
  {memory : MemoryInstance}

/-- What the running contract writes to is not the memory of a waiting one. -/
theorem ne_of_running (h : Sound s) (hmem : frame ∈ s.frames)
    (hcalling : frame.calling = some buffers) (hplace : frame.memory = some place) {top : Frame}
    {outer : List Frame} (hframes : s.frames = top :: outer) (hruns : top.calling = none)
    {place' : Nat} (hplace' : top.memory = some place') : place' ≠ place := by
  rintro rfl
  have htop : top ∈ s.frames := by
    rw [hframes]
    exact List.mem_cons_self
  have hsame := eq_of_memory h.distinct hmem htop hplace hplace'
  rw [hsame, hruns] at hcalling
  cases hcalling

theorem memory?_release (s : System) (place : Nat) : s.release.memory? place = s.memory? place := by
  unfold System.release
  split <;> rfl

/-- A step keeps the memory of a waiting contract. -/
theorem keptExcept_of_step (h : Sound s) (hmem : frame ∈ s.frames)
    (hcalling : frame.calling = some buffers) (hplace : frame.memory = some place)
    (hmemory : s.memory? place = some memory) (hstep : Step s s') :
    ∃ memory', s'.memory? place = some memory' ∧ KeptExcept buffers memory memory' := by
  have hsome : frame.calling.isSome = true := by
    rw [hcalling]
    rfl
  have hunchanged : s'.memory? place = s.memory? place →
      ∃ memory', s'.memory? place = some memory' ∧ KeptExcept buffers memory memory' :=
    fun hsame => ⟨memory, hsame.trans hmemory, .refl buffers memory⟩
  have hstarted : ∀ {heap' : Heap}, HeapStarted s.process.heap heap' →
      heap'.memories[place]? = s.memory? place := by
    intro heap' hstarted
    exact (hides_of_heapStarted hstarted (h.place_lt hmem hplace)
      (h.hidden frame hmem hsome place hplace)).memory
  cases hstep with
  | refused hhost hmake =>
    apply hunchanged
    rw [memory?_release]
    exact hstarted (.kept (heapAfter_of_getInstantiatedModule hmake))
  | unstarted hhost hmake hcall hresult =>
    apply hunchanged
    rw [memory?_release]
    exact hstarted (heapStarted_of_prepareApply hmake hcall)
  | started hhost hmake hcall =>
    exact hunchanged (hstarted (heapStarted_of_prepareApply hmake hcall))
  | @stores top outer place' _ _ hframes hruns hplace' _
  | @grows top outer place' _ _ _ hframes hruns hplace' _ =>
    have htop : top ∈ s.frames := by
      rw [hframes]
      exact List.mem_cons_self
    have hown := (h.own top htop).trans hplace'
    exact hunchanged
      (memory?_setMemory_ne (ne_of_running h hmem hcalling hplace hframes hruns hown))
  | @writes top outer place' _ _ hframes hruns hplace' _ =>
    have hhead : top ∈ s.frames.head? := by
      rw [hframes]
      rfl
    have hrunning := h.running top hhead hruns
    rw [hrunning] at hplace'
    exact hunchanged
      (memory?_setMemory_ne (ne_of_running h hmem hcalling hplace hframes hruns hplace'))
  | calls buffers hframes hruns => exact hunchanged rfl
  | @fills filled buffers' buffer place' memory' contents hframe hcalling' hbuffer hplace' hmemory'
      hcontents =>
    by_cases hsame : place' = place
    · subst hsame
      obtain rfl := eq_of_memory h.distinct hmem hframe hplace hplace'
      rw [hcalling] at hcalling'
      cases hcalling'
      rw [hmemory] at hmemory'
      cases hmemory'
      refine ⟨_, memory?_setMemory_self hmemory, rfl, rfl, ?_⟩
      exact fun address hout => hcontents address (hout buffer hbuffer)
    · exact hunchanged (memory?_setMemory_ne hsame)
  | returns hframes hcalling => exact hunchanged rfl
  | ends hframes =>
    apply hunchanged
    rw [memory?_release]
    rfl

end Waiting

/-! ## Nested runs -/

/-- What happens while `frame` waits in front of `outer`: contracts start and end, and call others. -/
inductive Nested (frame : Frame) (outer : List Frame) : System → System → Prop
  | refl (s : System) : Nested frame outer s s
  | step {s s' s'' : System} (h : Nested frame outer s s') (hstep : Step s' s'')
      (hwaits : ∃ nested, s''.frames = nested ++ frame :: outer) : Nested frame outer s s''

theorem mem_of_waits {s : System} {frame : Frame} {outer : List Frame}
    (h : ∃ nested, s.frames = nested ++ frame :: outer) : frame ∈ s.frames := by
  obtain ⟨nested, hframes⟩ := h
  rw [hframes]
  exact List.mem_append_right _ List.mem_cons_self

theorem waits_of_nested {s s' : System} {frame : Frame} {outer : List Frame}
    (hwaits : ∃ nested, s.frames = nested ++ frame :: outer) (h : Nested frame outer s s') :
    ∃ nested, s'.frames = nested ++ frame :: outer := by
  cases h with
  | refl => exact hwaits
  | step _ _ hlast => exact hlast

theorem sound_of_nested {s s' : System} {frame : Frame} {outer : List Frame} (hs : Sound s)
    (h : Nested frame outer s s') : Sound s' := by
  induction h with
  | refl => exact hs
  | step _ hstep _ ih => exact ih.step hstep

/-- A nested run keeps the memory of the contract it is nested in. -/
theorem keptExcept_of_nested {s s' : System} {frame : Frame} {outer : List Frame}
    {buffers : List Buffer} {place : Nat} {memory : MemoryInstance} (hs : Sound s)
    (hwaits : ∃ nested, s.frames = nested ++ frame :: outer)
    (hcalling : frame.calling = some buffers) (hplace : frame.memory = some place)
    (hmemory : s.memory? place = some memory) (h : Nested frame outer s s') :
    ∃ memory', s'.memory? place = some memory' ∧ KeptExcept buffers memory memory' := by
  induction h with
  | refl => exact ⟨memory, hmemory, .refl buffers memory⟩
  | step h hstep _ ih =>
    obtain ⟨memory', hmemory', hkept⟩ := ih
    obtain ⟨memory'', hmemory'', hkept'⟩ := keptExcept_of_step (sound_of_nested hs h)
      (mem_of_waits (waits_of_nested hwaits h)) hcalling hplace hmemory' hstep
    exact ⟨memory'', hmemory'', hkept.trans hkept'⟩

/-- **`call_action` restores its caller.** Whatever contracts the host runs in the callback, to any
depth and with any of them failing, behind it the memory of the caller is current again, the globals
designate the caller, and its memory is as it was outside of the buffers of the call. -/
theorem call_action_restores {s s' : System} {frame : Frame} {outer : List Frame}
    (hreachable : Reachable s) (hframes : s.frames = frame :: outer) (hruns : frame.calling = none)
    (buffers : List Buffer)
    (hnested : Nested { frame with calling := some buffers } outer
      (s.enterCall frame outer buffers) s')
    (hback : s'.frames = { frame with calling := some buffers } :: outer) :
    let restored := s'.leaveCall { frame with calling := some buffers } outer
    let default := getDefaultMemory frame.instantiated.instance_
    Step s' restored ∧ restored.frames = frame :: outer ∧
      restored.process.running = ⟨default, some frame.context⟩ ∧
        restored.process.heap.theMemoryInstance = default ∧
          ∀ place, default = some place → ∃ memory memory', s.memory? place = some memory ∧
            restored.memory? place = some memory' ∧ KeptExcept buffers memory memory' := by
  intro restored default
  have hs := sound_of_reachable hreachable
  have hmem : frame ∈ s.frames := by
    rw [hframes]
    exact List.mem_cons_self
  have hown : frame.memory = default := hs.own frame hmem
  have hsame : { frame with calling := none } = frame := by
    rw [← hruns]
  refine ⟨.returns hback rfl, congrArg (· :: outer) hsame, ?_, hown, ?_⟩
  · rw [← hown]
    rfl
  · intro place hplace
    obtain ⟨memory, hmemory, -⟩ := hs.limited frame hmem place (hown.trans hplace)
    have hentered := hs.enterCall hframes buffers
    obtain ⟨memory', hmemory', hkept⟩ := keptExcept_of_nested hentered ⟨[], rfl⟩ rfl
      (hown.trans hplace) hmemory hnested
    exact ⟨memory, memory', hmemory, hmemory', hkept⟩

/-- A contract with an empty `apply` of one parameter and `pages` pages of at most `max`. -/
def callerBytes (pages max : UInt8) : Bytes :=
  [0x00, 0x61, 0x73, 0x6d, 1, 0, 0, 0,
    1, 5, 1, 0x60, 1, 0x7e, 0,
    3, 2, 1, 0,
    5, 4, 1, 1, pages, max,
    7, 9, 1, 5, 97, 112, 112, 108, 121, 0, 0,
    10, 4, 1, 2, 0, 0x0b]

/-- The start of a contract in a process, if it does start. -/
def startIn (code : Bytes) (context : Nat) (process : Process) :
    Option (WasmInstantiatedModule × Process) :=
  match getInstantiatedModule idealPlatform .initial code process.heap with
  | (.ok instantiated, heap) =>
    match instantiated.prepareApply true 7 context { process with heap } with
    | (.ok (some (_, started)), process) => some (started, process)
    | _ => none
  | (.error _, _) => none

theorem step_of_startIn {s : System} {code : Bytes} {started : WasmInstantiatedModule}
    {process : Process} (hhost : s.HostRuns)
    (h : startIn code s.contexts s.process = some (started, process)) :
    Step s ⟨process, s.contexts + 1,
      ⟨s.contexts, code, started, process.running.memory, none⟩ :: s.frames⟩ := by
  unfold startIn at h
  split at h
  · next instantiated heap hmake =>
    split at h
    · next call started' process' hcall =>
      cases h
      exact .started hhost hmake hcall
    · cases h
  · cases h

theorem exists_started {code : Bytes}
    (h : (startIn code 0 System.start.process).isSome = true) :
    ∃ s frame, Reachable s ∧ s.frames = [frame] ∧ frame.code = code ∧ frame.calling = none := by
  obtain ⟨⟨started, process⟩, hstart⟩ := Option.isSome_iff_exists.1 h
  exact ⟨_, _, .step .start (step_of_startIn (fun _ hnone => by cases hnone) hstart), rfl, rfl, rfl⟩

/-- The process inside of `call_action`, where the current memory is hidden. -/
def hideMemory (process : Process) : Process :=
  { process with heap := { process.heap with theMemoryInstance := none } }

/-- A contract calls another one, which starts with a memory of its own, fills it and ends. -/
theorem call_action_restores_sample :
    ∃ s s' frame nested memory memory', Reachable s ∧ s.frames = [frame] ∧
      s'.frames = [{ frame with calling := some [⟨0, 20⟩] }] ∧
      Nested { frame with calling := some [⟨0, 20⟩] } [] (s.enterCall frame [] [⟨0, 20⟩]) s' ∧
      s'.process.running.memory = some 1 ∧ s'.memory? 1 = some nested ∧
      nested.contents = (fun _ => 7) ∧
        let restored := s'.leaveCall { frame with calling := some [⟨0, 20⟩] } []
        restored.process.running = ⟨some 0, some 0⟩ ∧
          restored.process.heap.theMemoryInstance = some 0 ∧ s.memory? 0 = some memory ∧
            restored.memory? 0 = some memory' ∧ KeptExcept [⟨0, 20⟩] memory memory' := by
  have hplaces : ((startIn (callerBytes 1 2) 0 System.start.process).bind fun first =>
      (startIn (callerBytes 1 2) 1 (hideMemory first.2)).map fun second =>
        (getDefaultMemory first.1.instance_, first.2.running.memory,
          getDefaultMemory second.1.instance_, second.2.running.memory,
            (second.2.heap.memories[1]?).isSome)) =
      some (some 0, some 0, some 1, some 1, true) := by decide +kernel
  obtain ⟨⟨started, process⟩, hfirst, hplaces⟩ := Option.bind_eq_some_iff.1 hplaces
  obtain ⟨⟨inner, process'⟩, hsecond, hplaces⟩ := Option.map_eq_some_iff.1 hplaces
  simp only [Prod.mk.injEq] at hplaces
  obtain ⟨hdefault, hrunning, hinner, hrunning', hpresent⟩ := hplaces
  obtain ⟨memory, hmemory⟩ := Option.isSome_iff_exists.1 hpresent
  have hreachable : Reachable
      ⟨process, 1, [⟨0, callerBytes 1 2, started, process.running.memory, none⟩]⟩ :=
    .step .start (step_of_startIn (fun _ hnone => by cases hnone) hfirst)
  generalize hframe : (⟨0, callerBytes 1 2, started, process.running.memory, none⟩ : Frame) =
    frame at hreachable
  have hdefault' : getDefaultMemory frame.instantiated.instance_ = some 0 := by
    rw [← hframe]
    exact hdefault
  have hcontext : frame.context = 0 := by rw [← hframe]
  have hruns : frame.calling = none := by rw [← hframe]
  let s : System := ⟨process, 1, [frame]⟩
  let waiting : Frame := { frame with calling := some [⟨0, 20⟩] }
  have hhost : (s.enterCall frame [] [⟨0, 20⟩]).HostRuns := by
    intro other hhead
    cases hhead
    rfl
  have hstarts := step_of_startIn hhost hsecond
  let running : System :=
    ⟨process', 2, [⟨1, callerBytes 1 2, inner, process'.running.memory, none⟩, waiting]⟩
  let filled : MemoryInstance := { memory with contents := fun _ => 7 }
  have hstores : Step running (running.setMemory 1 filled) := .stores rfl rfl hinner hmemory
  have hends : Step (running.setMemory 1 filled) _ := .ends rfl
  have hnested : Nested waiting [] (s.enterCall frame [] [⟨0, 20⟩]) _ :=
    .step (.step (.step (.refl _) hstarts ⟨[_], rfl⟩) hstores ⟨[_], rfl⟩) hends ⟨[], rfl⟩
  obtain ⟨-, -, hrestored, hcurrent, hkept⟩ :=
    call_action_restores hreachable rfl hruns [⟨0, 20⟩] hnested rfl
  obtain ⟨before, after, hbefore, hafter, hkeeps⟩ := hkept 0 hdefault'
  rw [hdefault'] at hcurrent
  have hglobals := hrestored.trans (by rw [hdefault', hcontext] :
    (⟨getDefaultMemory frame.instantiated.instance_, some frame.context⟩ :
      RunningInstanceContext (Option Nat)) = ⟨some 0, some 0⟩)
  exact ⟨s, _, frame, filled, before, after, hreachable, rfl, rfl, hnested, hrunning',
    memory?_setMemory_self hmemory, rfl, hglobals, hcurrent, hbefore, hafter, hkeeps⟩

end Calls

end FractalWasm
