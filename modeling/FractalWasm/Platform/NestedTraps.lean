import FractalWasm.Platform.Traps

/-!
# Which trap regions come back

A region that starts others inside is not bracketed (`bracketed_iff_not_nested`), but that alone does
not lose control. This module says exactly when it does.

**Coming back** (`Region.ComesBack`): a region comes back to the caller of `catchHardwareTraps` if
all regions inside do and its own jump buffer and out-parameters are still there when it needs them.
An exit needs the jump buffer, which an inner region that threw has overwritten for good. A trap
needs the out-parameters too, which any inner region takes away. To return or to throw needs nothing.

**The trap type that is left** (`Region.trapLeft`): nobody sets the type back to none between the end
of an inner region and that of the outer one. An outer region that ends without a trap reports the
trap of the last region inside.

`Region.run_spec` puts the two together: a region that comes back returns this type, or throws; any
other one jumps into a frame that is gone, or takes the process down. The state a region starts in
does not matter, as long as no handler is running.
-/

namespace FractalWasm.Platform

/-- The trap a thunk is left by. -/
def Leave.trapType : Leave → HardwareTrapType
  | traps signal => signal.trapType
  | returns | exits | throws => .none

namespace Region

/-- The regions that are started directly inside. -/
def inner : Region → List Region
  | done _ => []
  | nest inner rest => inner :: rest.inner

/-- What a thunk that is left in its way needs from before is not lost to the regions inside. -/
structure Unspoiled (region : Region) : Prop where
  exits : region.leave = .exits → ∀ inside ∈ region.inner, inside.leave ≠ .throws
  traps : ∀ signal, region.leave = .traps signal → region.inner = []

/-- All regions inside come back. -/
def InnerComeBack : Region → Prop
  | done _ => True
  | nest inner rest => (inner.InnerComeBack ∧ inner.Unspoiled) ∧ rest.InnerComeBack

/-- Control is back with the caller at the end of the region. -/
def ComesBack (region : Region) : Prop := region.InnerComeBack ∧ region.Unspoiled

/-- The trap type a region leaves behind: that of its own trap, or else of the last region inside. -/
def trapLeft : Region → HardwareTrapType
  | done leave => leave.trapType
  | nest inner (done _) => inner.trapLeft
  | nest _ rest => rest.trapLeft

theorem innerComeBack_iff {region : Region} :
    region.InnerComeBack ↔ ∀ inside ∈ region.inner, inside.ComesBack := by
  induction region with
  | done leave => simp [InnerComeBack, inner]
  | nest inside rest _ ih => simp [InnerComeBack, inner, ComesBack, ih]

/-- The trap type when the thunk of the region is left, if it was `type` when the thunk began. -/
def typeLeft (type : HardwareTrapType) : Region → HardwareTrapType
  | done _ => type
  | nest inner rest => rest.typeLeft inner.trapLeft

/-- A thunk that is not left by a trap leaves the type that it finds at its end. -/
theorem trapLeft_eq_typeLeft {region : Region} (h : region.leave.trapType = .none) :
    region.trapLeft = region.typeLeft .none := by
  induction region with
  | done leave => exact h
  | nest inside rest _ ih =>
    cases rest with
    | done leave => rfl
    | nest inside' rest' =>
      have hrest : (nest inside' rest').trapLeft = (nest inside' rest').typeLeft .none := ih h
      exact hrest

end Region

/-! ## A thunk and its caller -/

/-- The state in the thunk of the call `k` of `catchHardwareTraps`. The jump buffer is that of the
call, or that of a later one, whose frame is gone. -/
structure Inside (k : Nat) (s : SignalState) : Prop where
  quiet : s.isReentrantSignal = false
  calls : k < s.calls
  env : ∃ j, k ≤ j ∧ s.signalReturnEnv = some j

/-- Control does not come back to the call `k`: it is in a frame that is gone, or the process is. -/
def Exit.Lost (k : Nat) (exit : Exit) : Prop :=
  exit = .died ∨ ∃ j, k < j ∧ exit = .jumped (some j)

/-- What a thunk finds at its end, when the regions inside have come back. -/
structure Finds (region : Region) (k : Nat) (s s' : SignalState) : Prop where
  inside : Inside k s'
  type : s'.signalType = region.typeLeft s.signalType
  own : s'.signalReturnEnv = some k ↔
    s.signalReturnEnv = some k ∧ ∀ inside ∈ region.inner, inside.leave ≠ .throws
  same : region.inner = [] → s' = s
  spoiled : region.inner ≠ [] → s'.signalCallStack = none ∨ s'.signalReturnEnv ≠ some k

/-- What is left behind by a region that came back. -/
structure LeavesBehind (region : Region) (s s' : SignalState) : Prop where
  quiet : s'.isReentrantSignal = false
  calls : s.calls < s'.calls
  type : s'.signalType = region.trapLeft
  returned : region.leave ≠ .throws →
    s'.signalReturnEnv = s.signalReturnEnv ∧ s'.signalCallStack = none
  threw : region.leave = .throws → ∃ j, s.calls ≤ j ∧ s'.signalReturnEnv = some j

/-- How a region that comes back completes. -/
def Region.completion (region : Region) : Completion :=
  if region.leave = .throws then .threw else .returned region.trapLeft

/-- A region comes back, or its control is lost. -/
inductive Completes (region : Region) (s s' : SignalState) : Completion → Prop
  | back (hback : region.ComesBack) (hleaves : LeavesBehind region s s') :
      Completes region s s' region.completion
  | died (hlost : ¬ region.ComesBack) : Completes region s s' .died
  | jumped {j : Nat} (hlost : ¬ region.ComesBack) (hlater : s.calls < j) :
      Completes region s s' (.jumped (some j))

theorem Completes.of_isBack {region : Region} {s s' : SignalState} {completion : Completion}
    (h : Completes region s s' completion) (hback : completion.isBack = true) :
    region.ComesBack ∧ LeavesBehind region s s' ∧ completion = region.completion := by
  cases h with
  | back hcomes hleaves => exact ⟨hcomes, hleaves, rfl⟩
  | died | jumped => cases hback

theorem Completes.lost {region : Region} {s s' : SignalState} {completion : Completion}
    (h : Completes region s s' completion) (hlost : completion.isBack = false) :
    ¬ region.ComesBack ∧
      (completion = .died ∨ ∃ j, s.calls < j ∧ completion = .jumped (some j)) := by
  cases h with
  | back hback hleaves =>
    unfold Region.completion at hlost
    split at hlost <;> cases hlost
  | died hnot => exact ⟨hnot, .inl rfl⟩
  | jumped hnot hlater => exact ⟨hnot, .inr ⟨_, hlater, rfl⟩⟩

/-- A thunk is left in its way, or its control is lost before. -/
inductive LeavesThunk (region : Region) (k : Nat) (s : SignalState) :
    Exit → SignalState → Prop
  | left {found : SignalState} (hback : region.InnerComeBack) (hfinds : Finds region k s found) :
      LeavesThunk region k s (region.leave.run found).1 (region.leave.run found).2
  | lost {exit : Exit} {s' : SignalState} (hlost : ¬ region.InnerComeBack) (hexit : exit.Lost k) :
      LeavesThunk region k s exit s'

/-- Where control is behind `catchHardwareTraps`, called in the state `s`, once its thunk is left. -/
def Exit.behind (s left : SignalState) : Exit → Completion × SignalState
  | returned => (.returned left.signalType, left.reset s.signalReturnEnv s.isCatchingSignals)
  | jumped env =>
    if env = some s.calls then
      (.returned left.signalType, left.reset s.signalReturnEnv s.isCatchingSignals)
    else (.jumped env, left)
  | threw => (.threw, left)
  | died => (.died, left)

theorem catchHardwareTraps_eq (thunk : Thunk) (s : SignalState) :
    ((catchHardwareTraps thunk s).1, (catchHardwareTraps thunk s).2.1) =
      (thunk s.enter).1.behind s (thunk s.enter).2.1 := by
  unfold catchHardwareTraps Exit.behind
  cases hexit : (thunk s.enter).1 with
  | jumped env =>
    simp only [hexit]
    split <;> rfl
  | returned | threw | died => simp only [hexit]

theorem Region.run_eq (region : Region) (s : SignalState) :
    ((region.run s).1, (region.run s).2.1) =
      (region.thunk s.enter).1.behind s (region.thunk s.enter).2.1 :=
  catchHardwareTraps_eq region.thunk s

theorem Exit.behind_jumped_of_ne {s left : SignalState} {j : Nat} (h : s.calls < j) :
    (Exit.jumped (some j)).behind s left = (.jumped (some j), left) := by
  have hother : some j ≠ some s.calls := fun heq => by
    cases heq
    omega
  exact if_neg hother

theorem inside_enter {s : SignalState} (hs : s.isReentrantSignal = false) :
    Inside s.calls s.enter :=
  ⟨hs, Nat.lt_succ_self s.calls, s.calls, Nat.le_refl _, rfl⟩

/-! ## From the thunk to its region -/

section Completing

variable {region : Region} {k : Nat} {s found : SignalState}

/-- A buffer of the call or of a later one, and not of the call. -/
theorem Inside.exists_later (h : Inside k s) (hother : s.signalReturnEnv ≠ some k) :
    ∃ j, k < j ∧ s.signalReturnEnv = some j := by
  obtain ⟨j, hle, henv⟩ := h.env
  rw [henv] at hother
  have hne : j ≠ k := fun heq => hother (congrArg some heq)
  exact ⟨j, by omega, henv⟩

/-- The handler does not touch the jump buffer, and stores through the first out-parameter. -/
theorem kept_of_signalHandler {signal : Signal} {handled : SignalState}
    (h : signalHandler signal s = some handled) :
    handled.signalReturnEnv = s.signalReturnEnv ∧ s.signalCallStack ≠ none := by
  unfold signalHandler at h
  dsimp only at h
  split at h
  · cases h
  · split at h
    · cases h
    · split at h
      · cases h
      · next hstack =>
        split at h
        · cases h
        · cases h
          exact ⟨rfl, hstack⟩

/-- A trap behind regions inside: the handler stores through a null pointer, or jumps into a frame
that is gone. -/
theorem lost_of_traps (hfinds : Finds region k s found) (hinner : region.inner ≠ [])
    (signal : Signal) : ((Leave.traps signal).run found).1.Lost k := by
  unfold Leave.run
  cases hhandler : signalHandler signal found with
  | none => exact .inl (by simp only [hhandler])
  | some handled =>
    obtain ⟨hkept, hstack⟩ := kept_of_signalHandler hhandler
    rcases hfinds.spoiled hinner with hnone | hother
    · exact absurd hnone hstack
    · obtain ⟨j, hlater, henv⟩ := hfinds.inside.exists_later hother
      exact .inr ⟨j, hlater, by simp only [hhandler, hkept, henv]⟩

/-- Control that is lost in the thunk is lost behind it. -/
theorem completes_of_lost {exit : Exit} {left : SignalState} (hnot : ¬ region.ComesBack)
    (hexit : exit.Lost s.calls) :
    Completes region s (exit.behind s left).2 (exit.behind s left).1 := by
  rcases hexit with rfl | ⟨j, hlater, rfl⟩
  · exact .died hnot
  · rw [Exit.behind_jumped_of_ne hlater]
    exact .jumped hnot hlater

/-- A region whose thunk ends in the call itself, with the reset behind it. -/
theorem completes_of_reset (hback : region.ComesBack) (hthrows : region.leave ≠ .throws)
    (hcalls : s.calls < found.calls) (htype : found.signalType = region.trapLeft) :
    Completes region s (found.reset s.signalReturnEnv s.isCatchingSignals)
      (.returned found.signalType) := by
  have hcompletion : region.completion = .returned region.trapLeft := if_neg hthrows
  rw [htype, ← hcompletion]
  exact .back hback ⟨rfl, hcalls, htype, fun _ => ⟨rfl, rfl⟩, fun h => absurd h hthrows⟩

theorem Finds.type_eq_trapLeft (hfinds : Finds region k s.enter found)
    (hplain : region.leave.trapType = .none) : found.signalType = region.trapLeft := by
  rw [Region.trapLeft_eq_typeLeft hplain]
  exact hfinds.type

/-- An exit needs the jump buffer of its own call. -/
theorem completes_of_exits (hback : region.InnerComeBack) (hleave : region.leave = .exits)
    (hfinds : Finds region s.calls s.enter found) :
    Completes region s ((Leave.exits.run found).1.behind s (Leave.exits.run found).2).2
      ((Leave.exits.run found).1.behind s (Leave.exits.run found).2).1 := by
  have hthrows : region.leave ≠ .throws := by simp [hleave]
  have htype := hfinds.type_eq_trapLeft (by rw [hleave]; rfl)
  by_cases hown : found.signalReturnEnv = some s.calls
  · have hbehind : (Leave.exits.run found).1.behind s (Leave.exits.run found).2 =
        (.returned found.signalType, found.reset s.signalReturnEnv s.isCatchingSignals) :=
      if_pos hown
    rw [hbehind]
    refine completes_of_reset ⟨hback, fun _ => (hfinds.own.1 hown).2, ?_⟩ hthrows
      hfinds.inside.calls htype
    simp [hleave]
  · apply completes_of_lost
    · rintro ⟨-, hunspoiled⟩
      exact hown (hfinds.own.2 ⟨rfl, hunspoiled.exits hleave⟩)
    · obtain ⟨j, hlater, henv⟩ := hfinds.inside.exists_later hown
      exact .inr ⟨j, hlater, congrArg Exit.jumped henv⟩

/-- A trap needs the out-parameters, so that there may be no region inside. -/
theorem completes_of_traps (hs : s.isReentrantSignal = false) {signal : Signal}
    (hback : region.InnerComeBack) (hleave : region.leave = .traps signal)
    (hfinds : Finds region s.calls s.enter found) :
    Completes region s
      (((Leave.traps signal).run found).1.behind s ((Leave.traps signal).run found).2).2
      (((Leave.traps signal).run found).1.behind s ((Leave.traps signal).run found).2).1 := by
  cases region with
  | nest inside rest =>
    have hinner : (Region.nest inside rest).inner ≠ [] := List.cons_ne_nil _ _
    apply completes_of_lost
    · exact fun h => hinner (h.2.traps signal hleave)
    · exact lost_of_traps hfinds hinner signal
  | done leave =>
    obtain rfl : leave = .traps signal := hleave
    obtain rfl := hfinds.same rfl
    let handled := { s.enter with isReentrantSignal := true, signalType := signal.trapType }
    have hrun : (Leave.traps signal).run s.enter = (.jumped (some s.calls), handled) := by
      simp only [Leave.run, signalHandler_enter hs]
      rfl
    have hbehind : (Exit.jumped (some s.calls)).behind s handled =
        (.returned handled.signalType, handled.reset s.signalReturnEnv s.isCatchingSignals) :=
      if_pos rfl
    have hthrows : (Region.done (.traps signal)).leave ≠ .throws := by simp [Region.leave]
    have hexits : (Region.done (.traps signal)).leave ≠ .exits := by simp [Region.leave]
    rw [hrun, hbehind]
    exact completes_of_reset ⟨hback, fun h => absurd h hexits, fun _ _ => rfl⟩ hthrows
      (Nat.lt_succ_self s.calls) rfl

/-- A region completes as its thunk is left. -/
theorem completes_of_leavesThunk (hs : s.isReentrantSignal = false) {exit : Exit}
    {left : SignalState} (h : LeavesThunk region s.calls s.enter exit left) :
    Completes region s (exit.behind s left).2 (exit.behind s left).1 := by
  cases h with
  | lost hlost hexit => exact completes_of_lost (fun hback => hlost hback.1) hexit
  | @left found hback hfinds =>
    cases hleave : region.leave with
    | returns =>
      have hunspoiled : region.Unspoiled := ⟨by simp [hleave], by simp [hleave]⟩
      exact completes_of_reset ⟨hback, hunspoiled⟩ (by simp [hleave]) hfinds.inside.calls
        (hfinds.type_eq_trapLeft (by rw [hleave]; rfl))
    | throws =>
      have hcompletion : region.completion = .threw := if_pos hleave
      have hunspoiled : region.Unspoiled := ⟨by simp [hleave], by simp [hleave]⟩
      have htype := hfinds.type_eq_trapLeft (by rw [hleave]; rfl)
      have hbehind : (Leave.throws.run found).1.behind s (Leave.throws.run found).2 =
        (region.completion, found) := by rw [hcompletion]; rfl
      rw [hbehind]
      exact .back ⟨hback, hunspoiled⟩ ⟨hfinds.inside.quiet, hfinds.inside.calls, htype,
        fun hnot => absurd hleave hnot, fun _ => hfinds.inside.env⟩
    | exits => exact completes_of_exits hback hleave hfinds
    | traps signal => exact completes_of_traps hs hback hleave hfinds

end Completing

/-! ## From the regions inside to the thunk -/

section Thunks

variable {inside rest : Region} {k : Nat} {s s' : SignalState}

/-- Behind a region inside that came back, the thunk goes on. -/
theorem LeavesBehind.goesOn (hinside : Inside k s) (h : LeavesBehind inside s s') :
    Inside k s' := by
  have hcalls := hinside.calls
  refine ⟨h.quiet, Nat.lt_trans hcalls h.calls, ?_⟩
  by_cases hthrows : inside.leave = .throws
  · obtain ⟨j, hle, henv⟩ := h.threw hthrows
    exact ⟨j, by omega, henv⟩
  · rw [(h.returned hthrows).1]
    exact hinside.env

/-- The jump buffer of the call survives a region inside that does not throw. -/
theorem LeavesBehind.own_iff (hinside : Inside k s) (h : LeavesBehind inside s s') :
    s'.signalReturnEnv = some k ↔ s.signalReturnEnv = some k ∧ inside.leave ≠ .throws := by
  have hcalls := hinside.calls
  by_cases hthrows : inside.leave = .throws
  · obtain ⟨j, hle, henv⟩ := h.threw hthrows
    rw [henv]
    constructor
    · intro heq
      cases heq
      omega
    · exact fun hnot => absurd hthrows hnot.2
  · rw [(h.returned hthrows).1]
    exact ⟨fun heq => ⟨heq, hthrows⟩, And.left⟩

/-- What the rest of a thunk finds is what the thunk finds. -/
theorem Finds.nest {found : SignalState} (hinside : Inside k s)
    (hleaves : LeavesBehind inside s s') (h : Finds rest k s' found) :
    Finds (.nest inside rest) k s found := by
  have hown := hleaves.own_iff hinside
  refine ⟨h.inside, ?_, ?_, nofun, fun _ => ?_⟩
  · rw [h.type, hleaves.type]
    rfl
  · rw [h.own, hown, and_assoc]
    refine and_congr_right fun _ => ?_
    simp [Region.inner]
  · by_cases hinner : rest.inner = []
    · rw [h.same hinner]
      by_cases hthrows : inside.leave = .throws
      · exact .inr fun heq => (hown.1 heq).2 hthrows
      · exact .inl (hleaves.returned hthrows).2
    · exact h.spoiled hinner

/-- A thunk with a region inside goes on behind it, or its control is lost with that of the region. -/
theorem thunk_nest (inside rest : Region) (s : SignalState) :
    (((Region.nest inside rest).thunk s).1, ((Region.nest inside rest).thunk s).2.1) =
      match (inside.run s).1 with
      | .returned _ | .threw =>
        ((rest.thunk (inside.run s).2.1).1, (rest.thunk (inside.run s).2.1).2.1)
      | .jumped env => (.jumped env, (inside.run s).2.1)
      | .died => (.died, (inside.run s).2.1) := by
  have hcall : Region.call inside.leave (fun s => inside.thunk s) s = inside.run s := rfl
  simp only [Region.thunk, hcall]
  cases (inside.run s).1 <;> rfl

/-- Every thunk is left in its way behind regions that come back, and else lost. By induction on the
region: the state behind a region inside is one the rest can start in. -/
theorem leavesThunk (region : Region) (hinside : Inside k s) :
    LeavesThunk region k s (region.thunk s).1 (region.thunk s).2.1 := by
  induction region generalizing k s with
  | done leave =>
    exact .left trivial ⟨hinside, rfl, by simp [Region.inner], fun _ => rfl,
      fun hinner => absurd rfl hinner⟩
  | nest inside rest ihInside ihRest =>
    have hcompletes := completes_of_leavesThunk hinside.quiet (ihInside (inside_enter hinside.quiet))
    rw [← inside.run_eq s] at hcompletes
    have hnest := thunk_nest inside rest s
    generalize (Region.nest inside rest).thunk s = left at hnest
    dsimp only at hcompletes
    cases hcompletion : (inside.run s).1 with
    | returned _ | threw =>
      rw [hcompletion] at hcompletes hnest
      obtain ⟨hback, hleaves, -⟩ := hcompletes.of_isBack rfl
      obtain ⟨hexit, hstate⟩ := Prod.mk.inj hnest
      rw [hexit, hstate]
      have hgoes := ihRest (hleaves.goesOn hinside)
      generalize (rest.thunk (inside.run s).2.1).1 = exit at hgoes ⊢
      generalize (rest.thunk (inside.run s).2.1).2.1 = s'' at hgoes ⊢
      cases hgoes with
      | left hrest hfinds => exact .left ⟨hback, hrest⟩ (hfinds.nest hinside hleaves)
      | lost hlost hexit => exact .lost (fun h => hlost h.2) hexit
    | died =>
      rw [hcompletion] at hcompletes hnest
      obtain ⟨hnot, -⟩ := hcompletes.lost rfl
      obtain ⟨hexit, -⟩ := Prod.mk.inj hnest
      exact .lost (fun h => hnot h.1) (.inl hexit)
    | jumped env =>
      rw [hcompletion] at hcompletes hnest
      obtain ⟨hexit, -⟩ := Prod.mk.inj hnest
      obtain ⟨hnot, hnever | ⟨j, hlater, henv⟩⟩ := hcompletes.lost rfl
      · cases hnever
      cases henv
      have hcalls := hinside.calls
      exact .lost (fun h => hnot h.1) (.inr ⟨j, by omega, hexit⟩)

end Thunks

/-- **When a region comes back.** -/
theorem Region.run_spec {s : SignalState} (hs : s.isReentrantSignal = false) (region : Region) :
    Completes region s (region.run s).2.1 (region.run s).1 := by
  have hcompletes := completes_of_leavesThunk hs (leavesThunk region (inside_enter hs))
  rw [← region.run_eq s] at hcompletes
  exact hcompletes

/-- Behind an inner region that threw, an exit jumps into the frame of that region. -/
example : ((Region.nest (.done .throws) (.done .exits)).run .initial).1 = .jumped (some 1) := by
  decide

/-- Behind one that trapped, an outer region that returns reports the trap. -/
example : ((Region.nest (.done (.traps .fpe)) (.done .returns)).run .initial).1 =
    .returned .intDivideByZeroOrOverflow := by
  decide

end FractalWasm.Platform
