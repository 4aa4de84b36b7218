/-!
# Trap regions

`Platform/POSIX.cpp`: a region of `catchHardwareTraps` publishes a jump buffer and two
out-parameters in thread-local variables for the signal handler, and takes them back when its thunk
is done. A running contract can start another contract, so regions nest. They are well bracketed
exactly as long as they do not: an inner region hands back null out-parameters, its own trap type,
and, when an exception leaves it, its own jump buffer.

**A region** (`catchHardwareTraps`): the thunk's way out, the exit that the platform makes of it and
the state it leaves; a tree of regions is run by recursion over the tree (`Region.run`).

**Bracketing** (`Event.Bracketed`): the state behind a region is the state before it. Between the
regions of a thread the handler is idle (`Reachable.isReentrantSignal`).
-/

namespace FractalWasm.Platform

inductive HardwareTrapType where
  | none
  | accessViolation
  | stackOverflow
  | intDivideByZeroOrOverflow
  deriving DecidableEq, Repr

/-- A signal the handler is installed for: `SIGFPE` with one of the two integer codes, or `SIGSEGV`
and `SIGBUS`, with the faulting address on the thread's stack or off it. -/
inductive Signal where
  | fpe
  | segv (onStack : Bool)
  deriving DecidableEq, Repr

def Signal.trapType : Signal → HardwareTrapType
  | fpe => .intDivideByZeroOrOverflow
  | segv true => .stackOverflow
  | segv false => .accessViolation

/-- The thread-local variables. A jump buffer and an out-parameter are named by the call of
`catchHardwareTraps` in whose frame they lie. -/
structure SignalState where
  signalReturnEnv : Option Nat
  signalType : HardwareTrapType
  signalCallStack : Option Nat
  signalOperand : Option Nat
  isReentrantSignal : Bool
  isCatchingSignals : Bool
  /-- How many calls of `catchHardwareTraps` the thread has made. -/
  calls : Nat
  deriving DecidableEq, Repr

def SignalState.initial : SignalState := ⟨none, .none, none, none, false, false, 0⟩

/-! ## The platform -/

/-- `signalHandler` up to its jump; `none` where the process dies, in `Errors::fatal` or in a store
through a null pointer, whose signal is blocked while the handler runs. -/
def signalHandler (signal : Signal) (s : SignalState) : Option SignalState :=
  if s.isReentrantSignal then none
  else
    let storesOperand := signal ≠ .fpe
    if storesOperand ∧ s.signalOperand = none then none
    else if s.signalCallStack = none then none
    else if s.isCatchingSignals = false then none
    else some { s with isReentrantSignal := true, signalType := signal.trapType }

/-- How a thunk is left. -/
inductive Leave where
  | returns
  | traps (signal : Signal)
  /-- `immediately_exit` -/
  | exits
  /-- A C++ exception propagates out of it. -/
  | throws
  deriving DecidableEq, Repr

/-- Where control is after a thunk. -/
inductive Exit where
  | returned
  | threw
  /-- At the `sigsetjmp` of the given buffer. -/
  | jumped (env : Option Nat)
  | died
  deriving DecidableEq, Repr

def Leave.run (leave : Leave) (s : SignalState) : Exit × SignalState :=
  match leave with
  | returns => (.returned, s)
  | throws => (.threw, s)
  | exits => (.jumped s.signalReturnEnv, s)
  | traps signal =>
    match signalHandler signal s with
    | some s' => (.jumped s'.signalReturnEnv, s')
    | none => (.died, s)

/-- What a call of `catchHardwareTraps` comes to. -/
inductive Completion where
  | returned (type : HardwareTrapType)
  | threw
  /-- The thunk jumped out of the call, to the given buffer. -/
  | jumped (env : Option Nat)
  | died
  deriving DecidableEq, Repr

/-- Control is back with the caller of `catchHardwareTraps`. -/
def Completion.isBack : Completion → Bool
  | returned _ | threw => true
  | jumped _ | died => false

/-- How a thunk that is left in a given way should complete. -/
def Leave.completion : Leave → Completion
  | returns | exits => .returned .none
  | traps signal => .returned signal.trapType
  | throws => .threw

/-- What can be observed of the regions of a thread. -/
inductive Event where
  /-- A region whose thunk was left in the given way has completed. -/
  | left (leave : Leave) (completion : Completion)
  /-- Control is back from an inner region, which started in the state `before`. -/
  | back (before after : SignalState)
  deriving DecidableEq, Repr

/-- A thunk, with the state it changes and the events of the regions it starts. -/
abbrev Thunk := SignalState → Exit × SignalState × List Event

/-- What `catchHardwareTraps` sets up before it calls the thunk. -/
def SignalState.enter (s : SignalState) : SignalState :=
  { s with
    signalReturnEnv := some s.calls
    signalType := .none
    signalCallStack := some s.calls
    signalOperand := some s.calls
    isCatchingSignals := true
    calls := s.calls + 1 }

/-- What it resets at its end. -/
def SignalState.reset (s : SignalState) (oldSignalReturnEnv : Option Nat)
    (oldIsCatchingSignals : Bool) : SignalState :=
  { s with
    signalReturnEnv := oldSignalReturnEnv
    isCatchingSignals := oldIsCatchingSignals
    isReentrantSignal := false
    signalCallStack := none
    signalOperand := none }

/-- An exception skips the reset; a jump to another buffer leaves the call behind. -/
def catchHardwareTraps (thunk : Thunk) (s : SignalState) :
    Completion × SignalState × List Event :=
  let (exit, s', events) := thunk s.enter
  let reset := s'.reset s.signalReturnEnv s.isCatchingSignals
  match exit with
  | .returned => (.returned s'.signalType, reset, events)
  | .jumped env =>
    if env = some s.calls then (.returned s'.signalType, reset, events)
    else (.jumped env, s', events)
  | .threw => (.threw, s', events)
  | .died => (.died, s', events)

/-! ## Nested regions -/

/-- What the thunk of a region does: start inner regions one after the other, each with any number
of its own, and be left. However an inner region completes, the thunk may go on, when something on
the way has caught the exception. -/
inductive Region where
  | done (leave : Leave)
  | nest (inner rest : Region)
  deriving DecidableEq, Repr

namespace Region

def leave : Region → Leave
  | done leave => leave
  | nest _ rest => rest.leave

/-- Whether another region runs inside. -/
def nested : Region → Bool
  | done _ => false
  | nest _ _ => true

/-- A region's call, with the event of its end. -/
def call (leave : Leave) (thunk : Thunk) (s : SignalState) :
    Completion × SignalState × List Event :=
  let (completion, s, events) := catchHardwareTraps thunk s
  (completion, s, events ++ [.left leave completion])

def thunk : Region → Thunk
  | done leave, s =>
    let (exit, s) := leave.run s
    (exit, s, [])
  | nest inner rest, s =>
    let (completion, s', events) := call inner.leave (fun s => inner.thunk s) s
    match completion with
    | .returned _ | .threw =>
      let (exit, s'', events') := rest.thunk s'
      (exit, s'', events ++ .back s s' :: events')
    | .jumped env => (.jumped env, s', events)
    | .died => (.died, s', events)

/-- A region with everything that runs inside. -/
def run (region : Region) (s : SignalState) : Completion × SignalState × List Event :=
  call region.leave region.thunk s

end Region

/-- The states of a thread between its outermost regions. -/
inductive Reachable : SignalState → Prop
  | initial : Reachable .initial
  | region {s s' : SignalState} {region : Region} {completion : Completion} {events : List Event}
      (hs : Reachable s) (hrun : region.run s = (completion, s', events))
      (hback : completion.isBack = true) : Reachable s'

/-- A region has completed as its own thunk was left; an inner region has put back what the
enclosing one had set up. -/
def Event.Bracketed : Event → Prop
  | left leave completion => completion = leave.completion
  | back before after =>
    after.signalReturnEnv = before.signalReturnEnv ∧
      after.isCatchingSignals = before.isCatchingSignals ∧
      after.signalCallStack = before.signalCallStack ∧ after.signalOperand = before.signalOperand

/-! ## A region without inner regions -/

theorem signalHandler_enter {s : SignalState} (hs : s.isReentrantSignal = false)
    (signal : Signal) :
    signalHandler signal s.enter =
      some { s.enter with isReentrantSignal := true, signalType := signal.trapType } := by
  simp [signalHandler, SignalState.enter, hs]

/-- A region that starts no other completes as its thunk is left, and what it leaves behind are no
out-parameters of an earlier call. -/
theorem run_done {s : SignalState} (hs : s.isReentrantSignal = false) (leave : Leave) :
    ∃ s', (Region.done leave).run s = (leave.completion, s', [.left leave leave.completion]) ∧
      s'.isReentrantSignal = false ∧
        (s'.signalCallStack = none ∨ s'.signalCallStack = some s.calls) := by
  have hthunk : (Region.done leave).thunk s.enter =
      ((leave.run s.enter).1, (leave.run s.enter).2, []) := rfl
  cases leave with
  | returns => exact ⟨_, rfl, rfl, .inl rfl⟩
  | exits =>
    have hcatch : catchHardwareTraps (Region.done .exits).thunk s =
        (.returned .none, s.enter.reset s.signalReturnEnv s.isCatchingSignals, []) := by
      simp only [catchHardwareTraps, hthunk, Leave.run]
      exact if_pos rfl
    exact ⟨s.enter.reset s.signalReturnEnv s.isCatchingSignals,
      by simp only [Region.run, Region.call, Region.leave, hcatch]; rfl, rfl, .inl rfl⟩
  | throws => exact ⟨_, rfl, hs, .inr rfl⟩
  | traps signal =>
    let handled := { s.enter with isReentrantSignal := true, signalType := signal.trapType }
    have hcatch : catchHardwareTraps (Region.done (.traps signal)).thunk s =
        (.returned signal.trapType, handled.reset s.signalReturnEnv s.isCatchingSignals, []) := by
      simp only [catchHardwareTraps, hthunk, Leave.run, signalHandler_enter hs]
      exact if_pos rfl
    exact ⟨handled.reset s.signalReturnEnv s.isCatchingSignals,
      by simp only [Region.run, Region.call, Region.leave, hcatch]; rfl, rfl, .inl rfl⟩

/-! ## Regions inside others -/

theorem mem_run_of_mem_thunk {region : Region} {s : SignalState} {event : Event}
    (h : event ∈ (region.thunk s.enter).2.2) : event ∈ (region.run s).2.2 := by
  have hcatch : event ∈ (catchHardwareTraps region.thunk s).2.2 := by
    unfold catchHardwareTraps
    cases hexit : (region.thunk s.enter).1 with
    | jumped env =>
      simp only [hexit]
      split <;> exact h
    | _ =>
      simp only [hexit]
      exact h
  exact List.mem_append_left _ hcatch

theorem mem_thunk_of_mem_run {inner rest : Region} {s : SignalState} {event : Event}
    (h : event ∈ (inner.run s).2.2) : event ∈ ((Region.nest inner rest).thunk s).2.2 := by
  have hcall : inner.run s = Region.call inner.leave (fun s => inner.thunk s) s := rfl
  rw [hcall] at h
  simp only [Region.thunk]
  cases hcompletion : (Region.call inner.leave (fun s => inner.thunk s) s).1 with
  | returned _ | threw => exact List.mem_append_left _ h
  | jumped _ | died => exact h

/-- Inside a region, an inner region is not bracketed: by induction, because the first region that
starts no other one comes back and has overwritten the enclosing region's out-parameter. -/
theorem not_bracketed_of_nest (inner : Region) {rest : Region} {s : SignalState}
    (hs : s.isReentrantSignal = false) {frame : Nat} (hframe : frame < s.calls)
    (hcallStack : s.signalCallStack = some frame) :
    ∃ event ∈ ((Region.nest inner rest).thunk s).2.2, ¬ event.Bracketed := by
  induction inner generalizing rest s frame with
  | done leave =>
    obtain ⟨s', hrun, -, hchanged⟩ := run_done hs leave
    have hcall : Region.call leave (fun s => (Region.done leave).thunk s) s =
        (leave.completion, s', [.left leave leave.completion]) := hrun
    refine ⟨.back s s', ?_, ?_⟩
    · simp only [Region.thunk, Region.leave] at hcall ⊢
      cases leave <;> simp [hcall, Leave.completion]
    · rintro ⟨-, -, hsame, -⟩
      rw [hcallStack] at hsame
      rcases hchanged with hnone | hnew
      · rw [hnone] at hsame
        cases hsame
      · rw [hnew] at hsame
        have heq := Option.some.inj hsame
        omega
  | nest inner' rest' ih =>
    obtain ⟨event, hmem, hnot⟩ : ∃ event ∈ ((Region.nest inner' rest').thunk s.enter).2.2, _ :=
      ih hs (Nat.lt_succ_self s.calls) rfl
    exact ⟨event, mem_thunk_of_mem_run (mem_run_of_mem_thunk hmem), hnot⟩

/-! ## Between the regions of a thread -/

/-- No handler is running when a region is done, if none was when its thunk threw. -/
theorem isReentrantSignal_of_call {leave : Leave} {thunk : Thunk} {s s' : SignalState}
    {completion : Completion} {events : List Event}
    (hthrew : ∀ {s' events}, thunk s.enter = (.threw, s', events) → s'.isReentrantSignal = false)
    (h : Region.call leave thunk s = (completion, s', events)) (hback : completion.isBack = true) :
    s'.isReentrantSignal = false := by
  unfold Region.call catchHardwareTraps at h
  cases hthunk : thunk s.enter with
  | mk exit result =>
    obtain ⟨mid, inner⟩ := result
    simp only [hthunk] at h
    cases exit with
    | returned =>
      cases h
      rfl
    | threw =>
      cases h
      exact hthrew hthunk
    | died =>
      cases h
      cases hback
    | jumped env =>
      by_cases henv : env = some s.calls
      · simp only [henv, if_true] at h
        cases h
        rfl
      · simp only [henv, if_false] at h
        cases h
        cases hback

theorem isReentrantSignal_of_thunk {region : Region} {s s' : SignalState} {exit : Exit}
    {events : List Event} (hs : s.isReentrantSignal = false)
    (h : region.thunk s = (exit, s', events)) (hexit : exit = .returned ∨ exit = .threw) :
    s'.isReentrantSignal = false := by
  induction region generalizing s exit s' events with
  | done leave =>
    have hthunk : (Region.done leave).thunk s = ((leave.run s).1, (leave.run s).2, []) := rfl
    rw [hthunk] at h
    cases leave with
    | returns | throws =>
      cases h
      exact hs
    | exits =>
      cases h
      simp [Leave.run] at hexit
    | traps signal =>
      simp only [Leave.run] at h
      cases hsignal : signalHandler signal s <;> simp only [hsignal] at h <;> cases h <;>
        simp at hexit
  | nest inner rest ihInner ihRest =>
    have henter : s.enter.isReentrantSignal = false := hs
    simp only [Region.thunk] at h
    cases hcall : Region.call inner.leave (fun s => inner.thunk s) s with
    | mk completion result =>
      obtain ⟨mid, events'⟩ := result
      have hmid : completion.isBack = true → mid.isReentrantSignal = false :=
        isReentrantSignal_of_call (fun hthrew => ihInner henter hthrew (.inr rfl)) hcall
      simp only [hcall] at h
      cases completion with
      | returned _ | threw =>
        cases hrest : rest.thunk mid with
        | mk exit' result' =>
          simp only [hrest] at h
          cases h
          exact ihRest (hmid rfl) hrest hexit
      | jumped _ | died =>
        cases h
        simp at hexit

theorem Reachable.isReentrantSignal {s : SignalState} (h : Reachable s) :
    s.isReentrantSignal = false := by
  induction h with
  | initial => rfl
  | @region s s' region completion events hs hrun hback ih =>
    have henter : s.enter.isReentrantSignal = false := ih
    have hthrew : ∀ {s' events}, region.thunk s.enter = (.threw, s', events) →
        s'.isReentrantSignal = false :=
      fun hthunk => isReentrantSignal_of_thunk henter hthunk (.inr rfl)
    exact isReentrantSignal_of_call hthrew hrun hback

/-! ## Bracketing -/

/-- Regions are well bracketed if and only if none runs inside another. -/
theorem bracketed_iff_not_nested {s : SignalState} (hs : Reachable s) (region : Region) :
    (∀ event ∈ (region.run s).2.2, event.Bracketed) ↔ region.nested = false := by
  have hquiet := hs.isReentrantSignal
  cases region with
  | done leave =>
    obtain ⟨s', hrun, -, -⟩ := run_done hquiet leave
    rw [hrun]
    refine ⟨fun _ => rfl, ?_⟩
    intro _ event hevent
    obtain rfl := List.mem_singleton.1 hevent
    rfl
  | nest inner rest =>
    refine ⟨fun hall => ?_, nofun⟩
    obtain ⟨event, hmem, hnot⟩ : ∃ event ∈ ((Region.nest inner rest).thunk s.enter).2.2, _ :=
      not_bracketed_of_nest inner hquiet (Nat.lt_succ_self s.calls) rfl
    exact absurd (hall event (mem_run_of_mem_thunk hmem)) hnot

theorem bracketed_iff_not_nested_initial :
    (Region.done (.traps .fpe)).nested = false ∧
      ∀ event ∈ ((Region.done (.traps .fpe)).run .initial).2.2, event.Bracketed :=
  ⟨rfl, (bracketed_iff_not_nested .initial _).2 rfl⟩

/-- An inner region returns; the enclosing one traps afterwards and takes the process down. -/
theorem bracketed_of_every_region_false :
    ((Region.nest (.done .returns) (.done (.traps .fpe))).run .initial).1 = .died ∧
      ¬ ∀ {s}, Reachable s → ∀ region : Region, ∀ event ∈ (region.run s).2.2, event.Bracketed := by
  refine ⟨by decide, fun hall => ?_⟩
  have hleft := hall .initial (.nest (.done .returns) (.done (.traps .fpe)))
    (.left (.traps .fpe) .died) (by decide)
  cases hleft

end FractalWasm.Platform
