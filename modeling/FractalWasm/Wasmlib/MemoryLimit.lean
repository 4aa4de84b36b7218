import FractalWasm.Wasmlib.CallAction

/-!
# The memory limit

No memory ever has more pages than the injection lets a contract have. While the code of a contract
runs or waits for others, its memory is within what the contract declared itself; before that, a
memory it shares still has the size the contract before it gave it.

**The limits** (`WithinLimits`): the injection's for every memory, the contract's own for the memory
of a contract that runs. Both are read off the soundness of the reachable systems; the second is not
claimed of a memory that waits to be reset.
-/

namespace FractalWasm

open Codec IR FractalWasm.Runtime Serialization WASM WasmInjections Wavm

namespace Calls

open MemoryInstance WasmInterface

/-- The limits of every state. -/
structure WithinLimits (s : System) : Prop where
  memories : ∀ memory ∈ s.process.heap.memories,
    memory.numPages ≤ maximumLinearMemory / wasmPageSize
  declared : ∀ frame ∈ s.frames, ∀ place,
    getDefaultMemory frame.instantiated.instance_ = some place →
      ∃ memory m declared, s.memory? place = some memory ∧ decode frame.code = .ok m ∧
        m.memories.defs.head? = some declared ∧ memory.numPages ≤ declared.size.max

/-- **The memory limit.** In every state that contracts and the host can bring about, no memory has
more pages than the limit, and that of a contract whose code has started no more than it declared. -/
theorem memory_limit_kept {s : System} (h : Reachable s) : WithinLimits s := by
  have hs := sound_of_reachable h
  constructor
  · intro memory hmem
    have hpos : 0 < maxPages := by decide
    have hlimit : maxPages < 2 ^ 64 := by decide
    exact (within_of_used hpos hlimit (fun _ hfits => hfits) (hs.used memory hmem)).numPages
  · intro frame hmem place hplace
    obtain ⟨memory, hmemory, m, declared, hdecode, hdeclared, htype, hpages⟩ :=
      hs.limited frame hmem place ((hs.own frame hmem).trans hplace)
    refine ⟨memory, m, declared, hmemory, hdecode, hdeclared, ?_⟩
    rw [htype] at hpages
    exact Nat.le_trans hpages (Nat.min_le_left _ _)

theorem memory_limit_kept_sample :
    ∃ s frame, s.frames = [frame] ∧ frame.code = callerBytes 1 2 ∧ WithinLimits s := by
  have hstarts : (startIn (callerBytes 1 2) 0 System.start.process).isSome = true := by
    decide +kernel
  obtain ⟨s, frame, hreachable, hframes, hcode, -⟩ := exists_started hstarts
  exact ⟨s, frame, hframes, hcode, memory_limit_kept hreachable⟩

/-! ## Before the reset -/

/-- A contract starts on a platform on which nothing fails. -/
def startOn (code : Bytes) (s : System) : Option System :=
  match getInstantiatedModule idealPlatform .initial code s.process.heap with
  | (.ok instantiated, heap) =>
    match instantiated.prepareApply true 7 s.contexts { s.process with heap } with
    | (.ok (some (_, started)), process) =>
      some ⟨process, s.contexts + 1,
        ⟨s.contexts, code, started, process.running.memory, none⟩ :: s.frames⟩
    | _ => none
  | _ => none

theorem step_of_startOn {code : Bytes} {s s' : System} (hhost : s.HostRuns)
    (h : startOn code s = some s') :
    Step s s' ∧ ∃ frame, frame.calling = none ∧ s'.frames = frame :: s.frames := by
  unfold startOn at h
  split at h
  · next hmake =>
    split at h
    · next hcall =>
      cases h
      exact ⟨.started hhost hmake hcall, _, rfl, rfl⟩
    · cases h
  · cases h

/-- The pages of the memory of an instance that was just made. -/
def pagesOf (code : Bytes) (s : System) : Option Nat :=
  match getInstantiatedModule idealPlatform .initial code s.process.heap with
  | (.ok instantiated, heap) =>
    (getDefaultMemory instantiated.instance_).bind fun place =>
      (heap.memories[place]?).map MemoryInstance.numPages
  | _ => none

/-- A contract calls two others, one after the other. -/
def secondCallee : Option Nat := do
  let caller ← startOn (callerBytes 1 2) .start
  let frame ← caller.frames.head?
  let callee ← startOn (callerBytes 2 2) (caller.enterCall frame caller.frames.tail [])
  pagesOf (callerBytes 1 1) (System.release { callee with frames := callee.frames.tail })

/-- The second of two contracts that a contract calls has a memory of two pages, of which it declared
one, until the memory is reset. -/
theorem memory_limit_exceeded :
    ∃ s instantiated heap place memory m declared, Reachable s ∧
      getInstantiatedModule idealPlatform .initial (callerBytes 1 1) s.process.heap =
        (.ok instantiated, heap) ∧ getDefaultMemory instantiated.instance_ = some place ∧
          heap.memories[place]? = some memory ∧ decode (callerBytes 1 1) = .ok m ∧
            m.memories.defs.head? = some declared ∧ declared.size.max < memory.numPages := by
  have hpages : secondCallee = some 2 := by decide +kernel
  have hdeclared : (decode (callerBytes 1 1)).toOption.bind (·.memories.defs.head?) =
      some ⟨false, ⟨1, 1⟩⟩ := by decide +kernel
  simp only [secondCallee, Option.bind_eq_bind, Option.bind_eq_some_iff] at hpages hdeclared
  obtain ⟨caller, hcaller, frame, hframe, callee, hcallee, hpages⟩ := hpages
  obtain ⟨m, hdecode, hdeclared⟩ := hdeclared
  obtain ⟨hcall, running, hruns, hframes⟩ := step_of_startOn (fun _ hhead => by cases hhead) hcaller
  rw [hframes] at hframe
  cases hframe
  obtain ⟨hnested, first, -, hframes'⟩ :=
    step_of_startOn (fun _ hhead => by cases hhead; rfl) hcallee
  have hended : Reachable (System.release { callee with frames := callee.frames.tail }) := by
    rw [hframes', List.tail_cons]
    have hcalling : Step caller (caller.enterCall frame caller.frames.tail []) :=
      .calls [] (by rw [hframes]; rfl) hruns
    exact .step (.step (.step (.step .start hcall) hcalling) hnested) (.ends hframes')
  unfold pagesOf at hpages
  split at hpages
  · next instantiated heap hmake =>
    obtain ⟨place, hplace, hpages⟩ := Option.bind_eq_some_iff.1 hpages
    obtain ⟨memory, hmemory, hpages⟩ := Option.map_eq_some_iff.1 hpages
    refine ⟨_, instantiated, heap, place, memory, m, _, hended, hmake, hplace, hmemory,
      Except.toOption_eq_some.1 hdecode, hdeclared, ?_⟩
    rw [hpages]
    exact Nat.lt_succ_self 1
  · cases hpages

end Calls

end FractalWasm
