import FractalWasm.Control.Metering

/-!
# Metered runs are bounded

A run with a finite supply of gas: a charge takes its amount out of the supply or cannot be made,
and any other operator may only lower the supply. When every operator that can repeat code costs
something, the potential

  (supply + paid and not executed) * (longest body + 1) + code left in the active frames

falls with every operator executed, so it bounds the length of the run.
-/

namespace Control

variable {Op : Type}

/-- The frame's code and the code of its branch targets are at most `length` operators long. -/
structure Short (length : Nat) (frame : Frame Op) : Prop where
  code : frame.code.length ≤ length
  labels : ∀ label ∈ frame.labels, label.target.length ≤ length

def codeLeft (frames : List (Frame Op)) : Nat := (frames.map fun frame => frame.code.length).sum

section CodeLeft

variable {view : Op → Action} {bodies : Bodies Op} {length : Nat}

/-- What a step does to the code that is left: there is less, or a repeating operator adds at most
one body. -/
theorem codeLeft_of_step {frames frames' : List (Frame Op)} {event : Event Op}
    (hbodies : ∀ {function body}, bodies function = some body → body.length ≤ length)
    (hshort : ∀ frame ∈ frames, Short length frame)
    (hstep : Step view bodies frames event frames') :
    (∀ frame ∈ frames', Short length frame) ∧
      (codeLeft frames' + 1 ≤ codeLeft frames ∨
        (view event.2).repeats = true ∧ codeLeft frames' ≤ codeLeft frames + length) := by
  cases hstep with
  | @goto last op rest code labels labels' outer hmove =>
    have hframe := hshort _ List.mem_cons_self
    have houter : ∀ frame ∈ outer, Short length frame :=
      fun frame hmem => hshort frame (List.mem_cons_of_mem _ hmem)
    have hrest : rest.length + 1 ≤ length := hframe.code
    obtain ⟨hcode, hlabels⟩ := length_of_goto hmove
    have hlabels' : ∀ label ∈ labels', label.target.length ≤ length := by
      intro label hmem
      rcases hlabels label hmem with hmem | hle
      · exact hframe.labels label hmem
      · omega
    simp only [codeLeft, List.map_cons, List.sum_cons, List.length_cons]
    rcases hcode with hle | ⟨hrepeats, label, hmem, rfl⟩
    · refine ⟨?_, .inl (by omega)⟩
      intro frame hmem
      rcases List.mem_cons.1 hmem with rfl | hmem
      · exact ⟨by dsimp only; omega, hlabels'⟩
      · exact houter frame hmem
    · have htarget := hframe.labels label hmem
      refine ⟨?_, .inr ⟨hrepeats, by omega⟩⟩
      intro frame hmem
      rcases List.mem_cons.1 hmem with rfl | hmem
      · exact ⟨htarget, hlabels'⟩
      · exact houter frame hmem
  | @leave last op rest labels outer hmove =>
    refine ⟨fun frame hmem => hshort frame (List.mem_cons_of_mem _ hmem), .inl ?_⟩
    simp only [codeLeft, List.map_cons, List.sum_cons, List.length_cons]
    omega
  | @enter last op rest body labels outer function hmove hbody =>
    have hframe := hshort _ List.mem_cons_self
    have hrest : rest.length + 1 ≤ length := hframe.code
    have hcallee : body.length ≤ length := hbodies hbody
    refine ⟨?_, .inr ⟨?_, ?_⟩⟩
    · intro frame hmem
      rcases List.mem_cons.1 hmem with rfl | hmem
      · exact ⟨hcallee, fun _ h => absurd h List.not_mem_nil⟩
      · rcases List.mem_cons.1 hmem with rfl | hmem
        · exact ⟨by dsimp only; omega, hframe.labels⟩
        · exact hshort frame (List.mem_cons_of_mem _ hmem)
    · generalize hview : view op = action at hmove ⊢
      cases hmove with
      | call => rfl
      | callInside => rfl
      | br h | brIf h | brTable h =>
        unfold branch at h
        split at h
        · cases h
        · cases h
        · split at h <;> cases h
    · simp only [codeLeft, List.map_cons, List.sum_cons, List.length_cons, Frame.start]
      omega

end CodeLeft

namespace Meter

variable [DecidableEq Op] (meter : Meter Op)

def potential (length : Nat) (frames : List (Frame Op)) (gas credits : Nat) : Nat :=
  (gas + credits) * (length + 1) + codeLeft frames

section Bound

variable {meter} {bodies : Bodies Op} {length : Nat}

/-- Every operator executed lowers the potential. -/
theorem potential_step
    (hbodies : ∀ {function body}, bodies function = some body →
      meter.Metered body ∧ body.length ≤ length)
    (hpaying : ∀ op, (meter.view op).repeats = true → 1 ≤ meter.cost op)
    {frames frames' : List (Frame Op)} {gas gas' credits : Nat} {event : Event Op}
    (haccounts : meter.Accounts frames credits) (hshort : ∀ frame ∈ frames, Short length frame)
    (hstep : GasStep meter.view meter.pay meter.amount bodies (frames, gas) event (frames', gas')) :
    ∃ credits', meter.Accounts frames' credits' ∧ (∀ frame ∈ frames', Short length frame) ∧
      potential length frames' gas' credits' + 1 ≤ potential length frames gas credits := by
  have hmachine : Step meter.view bodies frames event frames' := by
    cases hstep with
    | charge hstep => exact hstep
    | other hstep => exact hstep
  obtain ⟨credits', haccounts', haccount⟩ :=
    haccounts.step (fun hbody => (hbodies hbody).1) hmachine
  obtain ⟨hshort', hleft⟩ := codeLeft_of_step (fun hbody => (hbodies hbody).2) hshort hmachine
  -- The gas and the credits together pay for the operator.
  have hpaid : gas' + credits' + meter.cost event.2 ≤ gas + credits := by
    cases hstep with
    | charge hstep hpay henough =>
      have hpassed : meter.passed event = argument meter.amount event := if_pos hpay
      omega
    | other hstep hpay hle =>
      have hzero : meter.passed event = 0 := passed_of_ne hpay
      omega
  refine ⟨credits', haccounts', hshort', ?_⟩
  unfold potential
  rcases hleft with hless | ⟨hrepeats, hmore⟩
  · have hmul : (gas' + credits') * (length + 1) ≤ (gas + credits) * (length + 1) :=
      Nat.mul_le_mul_right _ (by omega)
    omega
  · have hcost := hpaying event.2 hrepeats
    have hmul : (gas' + credits' + 1) * (length + 1) ≤ (gas + credits) * (length + 1) :=
      Nat.mul_le_mul_right _ (by omega)
    rw [Nat.add_mul, Nat.one_mul] at hmul
    omega

/-- A run within a supply of gas executes at most `(gas + 1) * (length + 1)` operators, where no
body is longer than `length`. -/
theorem length_le_of_gasRun
    (hbodies : ∀ {function body}, bodies function = some body →
      meter.Metered body ∧ body.length ≤ length)
    (hpaying : ∀ op, (meter.view op).repeats = true → 1 ≤ meter.cost op)
    {function : Nat} {body : List Op} (hbody : bodies function = some body) {gas : Nat}
    {state : GasState Op} {events : List (Event Op)}
    (hrun : GasRun meter.view meter.pay meter.amount bodies ([.start body], gas) events state) :
    events.length ≤ (gas + 1) * (length + 1) := by
  have hpotential : ∀ {state state' : GasState Op} {events : List (Event Op)},
      GasRun meter.view meter.pay meter.amount bodies state events state' →
      ∀ {credits}, meter.Accounts state.1 credits →
      (∀ frame ∈ state.1, Short length frame) →
      events.length ≤ potential length state.1 state.2 credits := by
    intro state state' events hrun
    induction hrun with
    | nil state => exact fun _ _ => Nat.zero_le _
    | cons hstep hrun ih =>
      intro credits haccounts hshort
      obtain ⟨credits', haccounts', hshort', hlt⟩ :=
        potential_step hbodies hpaying haccounts hshort hstep
      have hle := ih haccounts' hshort'
      simp only [List.length_cons]
      omega
  obtain ⟨hmetered, hlength⟩ := hbodies hbody
  have hframe : meter.FrameOk (.start body) 0 :=
    ⟨.start hmetered, fun _ h => absurd h List.not_mem_nil⟩
  have hshort : ∀ frame ∈ [Frame.start body], Short length frame := by
    intro frame hmem
    rw [List.mem_singleton.1 hmem]
    exact ⟨hlength, fun _ h => absurd h List.not_mem_nil⟩
  have hle := hpotential hrun (.cons hframe .nil) hshort
  simp only [potential, codeLeft, Frame.start, List.map_cons, List.map_nil, List.sum_cons,
    List.sum_nil, Nat.add_zero] at hle
  rw [Nat.add_mul, Nat.one_mul]
  omega

end Bound

end Meter

end Control
