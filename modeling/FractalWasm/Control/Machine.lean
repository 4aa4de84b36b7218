import Mathlib.Algebra.GroupWithZero.Nat

/-!
# Structured control flow

A machine for code with structured control: functions are flat lists of operators in which `block`,
`loop` and `if` are closed by a matching `end`, and a branch names how many enclosing structures it
leaves. The machine knows an operator only by what it does to control (`Action`), so it covers every
execution: each conditional may go either way, a branch table may choose any depth, an indirect call
may reach any function, and a run may stop anywhere, since every prefix of a run is a run.
-/

namespace Control

/-- What an operator does to control. -/
inductive Action where
  /-- Control passes to the operator after it; so do calls of functions outside the program. -/
  | next
  | block
  | loop
  | if_
  | else_
  | end_
  | br (depth : Nat)
  | brIf (depth : Nat)
  /-- A branch by a table; its depth may be any. -/
  | brTable
  | return_
  | call (function : Nat)
  /-- A call of any function, inside the program or outside. -/
  | callAny
  | trap
  deriving DecidableEq, Repr

/-- Whether an operator can send control somewhere else in its function, can be a place control
comes back to, or can leave the function. -/
def Action.jumps : Action → Bool
  | .next | .block | .call _ | .callAny | .trap => false
  | .loop | .if_ | .else_ | .end_ | .br _ | .brIf _ | .brTable | .return_ => true

/-- Whether an operator can send control to code it has passed, or into a function. -/
def Action.repeats : Action → Bool
  | .else_ | .br _ | .brIf _ | .brTable | .call _ | .callAny => true
  | _ => false

variable {Op : Type}

section Skip

variable (view : Op → Action)

/-- The code after the `end` that closes `depth + 1` open structures. -/
def afterEnd : Nat → List Op → Option (List Op)
  | _, [] => none
  | depth, op :: code =>
    match view op with
    | .block | .loop | .if_ => afterEnd (depth + 1) code
    | .end_ =>
      match depth with
      | 0 => some code
      | depth + 1 => afterEnd depth code
    | _ => afterEnd depth code

/-- Where a false `if` goes: the code after its `else` and `true`, or, when it has none, the code
after its `end` and `false`. -/
def falseArm : Nat → List Op → Option (List Op × Bool)
  | _, [] => none
  | depth, op :: code =>
    match view op with
    | .block | .loop | .if_ => falseArm (depth + 1) code
    | .else_ =>
      match depth with
      | 0 => some (code, true)
      | depth + 1 => falseArm (depth + 1) code
    | .end_ =>
      match depth with
      | 0 => some (code, false)
      | depth + 1 => falseArm depth code
    | _ => falseArm depth code

end Skip

/-- An open structure, with the code a branch to it continues at. -/
inductive Label (Op : Type) where
  | block (after : List Op)
  | loop (body : List Op)

/-- The code a branch to the label continues at. -/
def Label.target : Label Op → List Op
  | .block after => after
  | .loop body => body

/-- What executing one operator does to its frame. -/
inductive Move (Op : Type) where
  | goto (code : List Op) (labels : List (Label Op))
  | leave
  | enter (function : Nat)

/-- A branch: out of every label it leaves the function; a loop it reaches stays open. -/
def branch (labels : List (Label Op)) (depth : Nat) : Option (Move Op) :=
  match labels.drop depth with
  | .block after :: outer => some (.goto after outer)
  | .loop body :: outer => some (.goto body (.loop body :: outer))
  | [] => if depth = labels.length then some .leave else none

/-- The moves of an operator that does `action`, before the code `rest`. -/
inductive Moves (view : Op → Action) (rest : List Op) (labels : List (Label Op)) :
    Action → Move Op → Prop
  | next : Moves view rest labels .next (.goto rest labels)
  | block {after : List Op} (hafter : afterEnd view 0 rest = some after) :
      Moves view rest labels .block (.goto rest (.block after :: labels))
  | loop : Moves view rest labels .loop (.goto rest (.loop rest :: labels))
  | ifTrue {after : List Op} (hafter : afterEnd view 0 rest = some after) :
      Moves view rest labels .if_ (.goto rest (.block after :: labels))
  | ifElse {arm after : List Op} (harm : falseArm view 0 rest = some (arm, true))
      (hafter : afterEnd view 0 arm = some after) :
      Moves view rest labels .if_ (.goto arm (.block after :: labels))
  | ifSkip {after : List Op} (harm : falseArm view 0 rest = some (after, false)) :
      Moves view rest labels .if_ (.goto after labels)
  | else_ {after : List Op} {outer : List (Label Op)} (hlabels : labels = .block after :: outer) :
      Moves view rest labels .else_ (.goto after outer)
  | end_ {label : Label Op} {outer : List (Label Op)} (hlabels : labels = label :: outer) :
      Moves view rest labels .end_ (.goto rest outer)
  | endFunction (hlabels : labels = []) : Moves view rest labels .end_ .leave
  | br {depth : Nat} {move : Move Op} (hmove : branch labels depth = some move) :
      Moves view rest labels (.br depth) move
  | brIfNot {depth : Nat} : Moves view rest labels (.brIf depth) (.goto rest labels)
  | brIf {depth : Nat} {move : Move Op} (hmove : branch labels depth = some move) :
      Moves view rest labels (.brIf depth) move
  | brTable {depth : Nat} {move : Move Op} (hmove : branch labels depth = some move) :
      Moves view rest labels .brTable move
  | return_ : Moves view rest labels .return_ .leave
  | call {function : Nat} : Moves view rest labels (.call function) (.enter function)
  | callOutside : Moves view rest labels .callAny (.goto rest labels)
  | callInside {function : Nat} : Moves view rest labels .callAny (.enter function)

/-- An active function: the operator it executed last, the code it continues at, and its open
structures, innermost first. -/
structure Frame (Op : Type) where
  last : Option Op
  code : List Op
  labels : List (Label Op)

/-- A function that has not executed anything yet. -/
def Frame.start (body : List Op) : Frame Op := ⟨none, body, []⟩

/-- An executed operator, with the one its frame executed just before it. -/
abbrev Event (Op : Type) := Option Op × Op

/-- The program: the body of each function. -/
abbrev Bodies (Op : Type) := Nat → Option (List Op)

/-- One operator, executed by the innermost frame. -/
inductive Step (view : Op → Action) (bodies : Bodies Op) :
    List (Frame Op) → Event Op → List (Frame Op) → Prop
  | goto {last : Option Op} {op : Op} {rest code : List Op} {labels labels' : List (Label Op)}
      {frames : List (Frame Op)} (hmove : Moves view rest labels (view op) (.goto code labels')) :
      Step view bodies (⟨last, op :: rest, labels⟩ :: frames) (last, op)
        (⟨some op, code, labels'⟩ :: frames)
  | leave {last : Option Op} {op : Op} {rest : List Op} {labels : List (Label Op)}
      {frames : List (Frame Op)} (hmove : Moves view rest labels (view op) .leave) :
      Step view bodies (⟨last, op :: rest, labels⟩ :: frames) (last, op) frames
  | enter {last : Option Op} {op : Op} {rest body : List Op} {labels : List (Label Op)}
      {frames : List (Frame Op)} {function : Nat}
      (hmove : Moves view rest labels (view op) (.enter function))
      (hbody : bodies function = some body) :
      Step view bodies (⟨last, op :: rest, labels⟩ :: frames) (last, op)
        (.start body :: ⟨some op, rest, labels⟩ :: frames)

/-- A run with the operators it executed, in order. -/
inductive Run (view : Op → Action) (bodies : Bodies Op) :
    List (Frame Op) → List (Event Op) → List (Frame Op) → Prop
  | nil (frames : List (Frame Op)) : Run view bodies frames [] frames
  | cons {frames mid frames' : List (Frame Op)} {event : Event Op} {events : List (Event Op)}
      (hstep : Step view bodies frames event mid) (hrun : Run view bodies mid events frames') :
      Run view bodies frames (event :: events) frames'

/-! ## Runs within a supply of gas -/

/-- The literal the call of an event takes: that of the operator its frame executed before. -/
def argument (amount : Op → Nat) (event : Event Op) : Nat := (event.1.map amount).getD 0

/-- A machine state with the gas that is left. -/
abbrev GasState (Op : Type) := List (Frame Op) × Nat

/-- One operator, executed within the supply of gas: `pay` takes its argument out of the supply or
cannot be executed, any other operator may only lower the supply. -/
inductive GasStep (view : Op → Action) (pay : Op) (amount : Op → Nat) (bodies : Bodies Op) :
    GasState Op → Event Op → GasState Op → Prop
  | charge {frames frames' : List (Frame Op)} {event : Event Op} {gas : Nat}
      (hstep : Step view bodies frames event frames') (hpay : event.2 = pay)
      (henough : argument amount event ≤ gas) :
      GasStep view pay amount bodies (frames, gas) event (frames', gas - argument amount event)
  | other {frames frames' : List (Frame Op)} {event : Event Op} {gas gas' : Nat}
      (hstep : Step view bodies frames event frames') (hpay : event.2 ≠ pay) (hle : gas' ≤ gas) :
      GasStep view pay amount bodies (frames, gas) event (frames', gas')

inductive GasRun (view : Op → Action) (pay : Op) (amount : Op → Nat) (bodies : Bodies Op) :
    GasState Op → List (Event Op) → GasState Op → Prop
  | nil (state : GasState Op) : GasRun view pay amount bodies state [] state
  | cons {state mid state' : GasState Op} {event : Event Op} {events : List (Event Op)}
      (hstep : GasStep view pay amount bodies state event mid)
      (hrun : GasRun view pay amount bodies mid events state') :
      GasRun view pay amount bodies state (event :: events) state'

/-! ## Where a move can go -/

section Targets

variable {view : Op → Action} {rest : List Op} {labels : List (Label Op)}

/-- The code after an `end` follows an operator that is one. -/
theorem split_of_afterEnd {depth : Nat} {code after : List Op}
    (h : afterEnd view depth code = some after) :
    ∃ before op, code = before ++ op :: after ∧ view op = .end_ := by
  induction code generalizing depth with
  | nil => cases h
  | cons op code ih =>
    have hcons : ∀ {d}, afterEnd view d code = some after →
        ∃ before op', op :: code = before ++ op' :: after ∧ view op' = .end_ := by
      intro d hd
      obtain ⟨before, op', rfl, hop'⟩ := ih hd
      exact ⟨op :: before, op', rfl, hop'⟩
    simp only [afterEnd] at h
    split at h
    · exact hcons h
    · exact hcons h
    · exact hcons h
    · next hop =>
      cases depth with
      | zero =>
        obtain rfl := Option.some.inj h
        exact ⟨[], op, rfl, hop⟩
      | succ depth => exact hcons h
    · exact hcons h

/-- The code a false `if` continues at follows an `else` or an `end`. -/
theorem split_of_falseArm {depth : Nat} {code arm : List Op} {found : Bool}
    (h : falseArm view depth code = some (arm, found)) :
    ∃ before op, code = before ++ op :: arm ∧ (view op = .else_ ∨ view op = .end_) := by
  induction code generalizing depth with
  | nil => cases h
  | cons op code ih =>
    have hcons : ∀ {d}, falseArm view d code = some (arm, found) →
        ∃ before op', op :: code = before ++ op' :: arm ∧
          (view op' = .else_ ∨ view op' = .end_) := by
      intro d hd
      obtain ⟨before, op', rfl, hop'⟩ := ih hd
      exact ⟨op :: before, op', rfl, hop'⟩
    simp only [falseArm] at h
    split at h
    · exact hcons h
    · exact hcons h
    · exact hcons h
    · next hop =>
      cases depth with
      | zero =>
        cases h
        exact ⟨[], op, rfl, .inl hop⟩
      | succ depth => exact hcons h
    · next hop =>
      cases depth with
      | zero =>
        cases h
        exact ⟨[], op, rfl, .inr hop⟩
      | succ depth => exact hcons h
    · exact hcons h

/-- A branch that stays in the function goes to the target of one of its labels. -/
theorem mem_of_branch {depth : Nat} {code : List Op} {labels' : List (Label Op)}
    (h : branch labels depth = some (.goto code labels')) :
    (∃ label ∈ labels, label.target = code) ∧ ∀ label ∈ labels', label ∈ labels := by
  have hsub : ∀ label ∈ labels.drop depth, label ∈ labels :=
    fun label hmem => List.mem_of_mem_drop hmem
  unfold branch at h
  split at h
  · next after outer hdrop =>
    cases h
    rw [hdrop] at hsub
    exact ⟨⟨_, hsub _ List.mem_cons_self, rfl⟩,
      fun label hmem => hsub label (List.mem_cons_of_mem _ hmem)⟩
  · next body outer hdrop =>
    cases h
    rw [hdrop] at hsub
    exact ⟨⟨_, hsub _ List.mem_cons_self, rfl⟩, hsub⟩
  · split at h <;> cases h

/-- A move inside a function goes forward, or a repeating operator goes to one of its labels. -/
theorem length_of_goto {action : Action} {code : List Op} {labels' : List (Label Op)}
    (h : Moves view rest labels action (.goto code labels')) :
    (code.length ≤ rest.length ∨
        action.repeats = true ∧ ∃ label ∈ labels, label.target = code) ∧
      ∀ label ∈ labels', label ∈ labels ∨ label.target.length ≤ rest.length := by
  have hend : ∀ {depth code after}, afterEnd view depth code = some after →
      after.length ≤ code.length := by
    intro depth code after h
    obtain ⟨before, op, rfl, -⟩ := split_of_afterEnd h
    simp only [List.length_append, List.length_cons]
    omega
  have harm : ∀ {depth code arm found}, falseArm view depth code = some (arm, found) →
      arm.length ≤ code.length := by
    intro depth code arm found h
    obtain ⟨before, op, rfl, -⟩ := split_of_falseArm h
    simp only [List.length_append, List.length_cons]
    omega
  have hold : ∀ label ∈ labels, label ∈ labels ∨ label.target.length ≤ rest.length :=
    fun label hmem => .inl hmem
  have hcons : ∀ {label : Label Op}, label.target.length ≤ rest.length →
      ∀ l ∈ label :: labels, l ∈ labels ∨ l.target.length ≤ rest.length := by
    intro label hlabel l hl
    rcases List.mem_cons.1 hl with rfl | hl
    · exact .inr hlabel
    · exact .inl hl
  have htail : ∀ {label : Label Op} {outer : List (Label Op)}, labels = label :: outer →
      ∀ l ∈ outer, l ∈ labels ∨ l.target.length ≤ rest.length := by
    rintro label outer rfl l hl
    exact .inl (List.mem_cons_of_mem label hl)
  have hbranch : ∀ {depth}, branch labels depth = some (.goto code labels') →
      (∃ label ∈ labels, label.target = code) ∧
        ∀ l ∈ labels', l ∈ labels ∨ l.target.length ≤ rest.length := by
    intro depth h
    obtain ⟨htarget, hsub⟩ := mem_of_branch h
    exact ⟨htarget, fun l hl => .inl (hsub l hl)⟩
  cases h with
  | next | brIfNot | callOutside => exact ⟨.inl (Nat.le_refl _), hold⟩
  | block h | ifTrue h => exact ⟨.inl (Nat.le_refl _), hcons (hend h)⟩
  | loop => exact ⟨.inl (Nat.le_refl _), hcons (Nat.le_refl rest.length)⟩
  | ifElse h h' => exact ⟨.inl (harm h), hcons (Nat.le_trans (hend h') (harm h))⟩
  | ifSkip h => exact ⟨.inl (harm h), hold⟩
  | else_ h => exact ⟨.inr ⟨rfl, _, h ▸ List.mem_cons_self, rfl⟩, htail h⟩
  | end_ h => exact ⟨.inl (Nat.le_refl _), htail h⟩
  | br h | brIf h | brTable h => exact ⟨.inr ⟨rfl, (hbranch h).1⟩, (hbranch h).2⟩

end Targets

end Control
