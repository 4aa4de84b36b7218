import FractalWasm.Control.Machine

/-!
# Renaming operators

Renaming the operators of a program one by one, in a way that keeps what each does to control,
changes none of its executions.

**One step** (`Step.of_map`): every step of the renamed program is a step of the original one. The
proof follows where control goes, since the place behind an `end` and the start of a false arm are
found by counting structures, and these are the same in both programs.

**Runs within a supply of gas** (`GasRun.of_map`): where the charge and its argument are renamed
along, runs of the renamed program make the same charges.
-/

namespace Control

variable {Op Op' : Type} (rename : Op → Op')

def Label.map : Label Op → Label Op'
  | .block after => .block (after.map rename)
  | .loop body => .loop (body.map rename)

def Frame.map (frame : Frame Op) : Frame Op' :=
  ⟨frame.last.map rename, frame.code.map rename, frame.labels.map (Label.map rename)⟩

def Move.map : Move Op → Move Op'
  | .goto code labels => .goto (code.map rename) (labels.map (Label.map rename))
  | .leave => .leave
  | .enter function => .enter function

def Event.map (event : Event Op) : Event Op' := (event.1.map rename, rename event.2)

def Bodies.map (bodies : Bodies Op) : Bodies Op' := fun function =>
  (bodies function).map (List.map rename)

section Simulation

variable {rename} {view : Op → Action} {view' : Op' → Action}
  (hview : ∀ op, view' (rename op) = view op)

include hview in
theorem afterEnd_map (depth : Nat) (code : List Op) :
    afterEnd view' depth (code.map rename) = (afterEnd view depth code).map (List.map rename) := by
  induction code generalizing depth with
  | nil => rfl
  | cons op code ih =>
    simp only [List.map_cons, afterEnd, hview]
    cases view op with
    | end_ =>
      cases depth with
      | zero => rfl
      | succ depth => exact ih depth
    | _ => exact ih _

include hview in
theorem falseArm_map (depth : Nat) (code : List Op) :
    falseArm view' depth (code.map rename) =
      (falseArm view depth code).map fun arm => (arm.1.map rename, arm.2) := by
  induction code generalizing depth with
  | nil => rfl
  | cons op code ih =>
    simp only [List.map_cons, falseArm, hview]
    cases view op with
    | else_ =>
      cases depth with
      | zero => rfl
      | succ depth => exact ih _
    | end_ =>
      cases depth with
      | zero => rfl
      | succ depth => exact ih depth
    | _ => exact ih _

theorem branch_map (labels : List (Label Op)) (depth : Nat) :
    branch (labels.map (Label.map rename)) depth =
      (branch labels depth).map (Move.map rename) := by
  unfold branch
  rw [← List.map_drop, List.length_map]
  cases labels.drop depth with
  | nil =>
    simp only [List.map_nil]
    split <;> rfl
  | cons label outer => cases label <;> rfl

include hview in
/-- A move of renamed code renames a move of the original code. -/
theorem Moves.of_map {rest : List Op} {labels : List (Label Op)} {action : Action}
    {move' : Move Op'}
    (h : Moves view' (rest.map rename) (labels.map (Label.map rename)) action move') :
    ∃ move, Moves view rest labels action move ∧ move' = move.map rename := by
  have hend : ∀ {code : List Op} {after' : List Op'},
      afterEnd view' 0 (code.map rename) = some after' →
      ∃ after, afterEnd view 0 code = some after ∧ after.map rename = after' := by
    intro code after' h
    rw [afterEnd_map hview] at h
    exact Option.map_eq_some_iff.1 h
  have harm : ∀ {arm' : List Op'} {found : Bool},
      falseArm view' 0 (rest.map rename) = some (arm', found) →
      ∃ arm, falseArm view 0 rest = some (arm, found) ∧ arm.map rename = arm' := by
    intro arm' found h
    rw [falseArm_map hview] at h
    obtain ⟨⟨arm, found'⟩, harm, heq⟩ := Option.map_eq_some_iff.1 h
    simp only [Prod.mk.injEq] at heq
    obtain ⟨rfl, rfl⟩ := heq
    exact ⟨arm, harm, rfl⟩
  have hbranch : ∀ {depth : Nat},
      branch (labels.map (Label.map rename)) depth = some move' →
      ∃ move, branch labels depth = some move ∧ move' = move.map rename := by
    intro depth h
    rw [branch_map] at h
    obtain ⟨move, hmove, rfl⟩ := Option.map_eq_some_iff.1 h
    exact ⟨move, hmove, rfl⟩
  cases h with
  | next => exact ⟨_, .next, rfl⟩
  | block h =>
    obtain ⟨after, hafter, rfl⟩ := hend h
    exact ⟨_, .block hafter, rfl⟩
  | loop => exact ⟨_, .loop, rfl⟩
  | ifTrue h =>
    obtain ⟨after, hafter, rfl⟩ := hend h
    exact ⟨_, .ifTrue hafter, rfl⟩
  | ifElse h h' =>
    obtain ⟨arm, harm, rfl⟩ := harm h
    obtain ⟨after, hafter, rfl⟩ := hend h'
    exact ⟨_, .ifElse harm hafter, rfl⟩
  | ifSkip h =>
    obtain ⟨arm, harm, rfl⟩ := harm h
    exact ⟨_, .ifSkip harm, rfl⟩
  | else_ h =>
    obtain ⟨label, outer, rfl, hlabel, rfl⟩ := List.map_eq_cons_iff.1 h
    cases label with
    | block after =>
      cases hlabel
      exact ⟨_, .else_ rfl, rfl⟩
    | loop body => cases hlabel
  | end_ h =>
    obtain ⟨label, outer, rfl, -, rfl⟩ := List.map_eq_cons_iff.1 h
    exact ⟨_, .end_ rfl, rfl⟩
  | endFunction h => exact ⟨_, .endFunction (List.map_eq_nil_iff.1 h), rfl⟩
  | br h =>
    obtain ⟨move, hmove, rfl⟩ := hbranch h
    exact ⟨_, .br hmove, rfl⟩
  | brIfNot => exact ⟨_, .brIfNot, rfl⟩
  | brIf h =>
    obtain ⟨move, hmove, rfl⟩ := hbranch h
    exact ⟨_, .brIf hmove, rfl⟩
  | brTable h =>
    obtain ⟨move, hmove, rfl⟩ := hbranch h
    exact ⟨_, .brTable hmove, rfl⟩
  | return_ => exact ⟨_, .return_, rfl⟩
  | call => exact ⟨_, .call, rfl⟩
  | callOutside => exact ⟨_, .callOutside, rfl⟩
  | callInside => exact ⟨_, .callInside, rfl⟩

include hview in
/-- A step of the renamed program renames a step of the original program. -/
theorem Step.of_map {bodies : Bodies Op} {frames : List (Frame Op)} {event' : Event Op'}
    {frames' : List (Frame Op')}
    (h : Step view' (bodies.map rename) (frames.map (Frame.map rename)) event' frames') :
    ∃ event mid, Step view bodies frames event mid ∧ event' = Event.map rename event ∧
      frames' = mid.map (Frame.map rename) := by
  cases frames with
  | nil => cases h
  | cons frame outer =>
    obtain ⟨last, code, labels⟩ := frame
    cases code with
    | nil => cases h
    | cons op rest =>
      simp only [List.map_cons, Frame.map] at h
      cases h with
      | goto hmove =>
        rw [hview] at hmove
        obtain ⟨move, horig, heq⟩ := Moves.of_map hview hmove
        cases move with
        | goto code labels' =>
          simp only [Move.map, Move.goto.injEq] at heq
          obtain ⟨rfl, rfl⟩ := heq
          exact ⟨_, _, .goto horig, rfl, rfl⟩
        | leave => cases heq
        | enter function => cases heq
      | leave hmove =>
        rw [hview] at hmove
        obtain ⟨move, horig, heq⟩ := Moves.of_map hview hmove
        cases move with
        | goto code labels' => cases heq
        | leave => exact ⟨_, _, .leave horig, rfl, rfl⟩
        | enter function => cases heq
      | enter hmove hbody =>
        rw [hview] at hmove
        obtain ⟨move, horig, heq⟩ := Moves.of_map hview hmove
        cases move with
        | goto code labels' => cases heq
        | leave => cases heq
        | enter function =>
          cases heq
          obtain ⟨body, horigBody, rfl⟩ := Option.map_eq_some_iff.1 hbody
          exact ⟨_, _, .enter horig horigBody, rfl, rfl⟩

section Gas

variable {pay : Op} {pay' : Op'} {amount : Op → Nat} {amount' : Op' → Nat}
  (hpay : ∀ op, rename op = pay' ↔ op = pay) (hamount : ∀ op, amount' (rename op) = amount op)

include hamount in
theorem argument_map (event : Event Op) :
    argument amount' (Event.map rename event) = argument amount event := by
  obtain ⟨last, op⟩ := event
  cases last with
  | none => rfl
  | some last => exact hamount last

include hview hpay hamount in
theorem GasStep.of_map {bodies : Bodies Op} {frames : List (Frame Op)} {gas : Nat}
    {event' : Event Op'} {state' : GasState Op'}
    (h : GasStep view' pay' amount' (bodies.map rename) (frames.map (Frame.map rename), gas)
      event' state') :
    ∃ event mid, GasStep view pay amount bodies (frames, gas) event (mid, state'.2) ∧
      event' = Event.map rename event ∧ state'.1 = mid.map (Frame.map rename) := by
  cases h with
  | charge hstep hevent henough =>
    obtain ⟨event, mid, hstep', rfl, rfl⟩ := Step.of_map hview hstep
    rw [argument_map hamount] at henough ⊢
    exact ⟨event, mid, .charge hstep' ((hpay event.2).1 hevent) henough, rfl, rfl⟩
  | other hstep hevent hle =>
    obtain ⟨event, mid, hstep', rfl, rfl⟩ := Step.of_map hview hstep
    exact ⟨event, mid, .other hstep' (fun heq => hevent ((hpay event.2).2 heq)) hle, rfl, rfl⟩

include hview hpay hamount in
theorem GasRun.of_map {bodies : Bodies Op} {frames : List (Frame Op)} {gas : Nat}
    {events' : List (Event Op')} {state' : GasState Op'}
    (h : GasRun view' pay' amount' (bodies.map rename) (frames.map (Frame.map rename), gas)
      events' state') :
    ∃ events mid, GasRun view pay amount bodies (frames, gas) events (mid, state'.2) ∧
      events' = events.map (Event.map rename) := by
  generalize hstart : (frames.map (Frame.map rename), gas) = start at h
  induction h generalizing frames gas with
  | nil =>
    subst hstart
    exact ⟨[], frames, .nil _, rfl⟩
  | @cons start mid' state' event' events' hstep hrun ih =>
    subst hstart
    obtain ⟨event, mid, hstep', rfl, hmid⟩ := GasStep.of_map hview hpay hamount hstep
    obtain ⟨events, final, hrun', rfl⟩ := ih (Prod.ext hmid.symm rfl : (_, mid'.2) = mid')
    exact ⟨event :: events, final, .cons hstep' hrun', rfl⟩

end Gas

end Simulation

end Control
