import Mathlib.Data.List.Infix
import FractalWasm.Llvm.Instruction

/-!
# Functions of basic blocks

A function is a list of basic blocks, each with at most one PHI node.

**Execution** (`step`): one instruction or terminator, in a state of registers, slots and a world
that the external operations act on. A block is entered over an edge, on which its PHI node takes a
value. Execution is deterministic, as `step` is a function.

**Functions under construction** (`Function.Le`): a function that is still being built can be
executed as far as it goes. What a function does that has been built so far, it does when there is
more of it (`Function.Le.step`, `Function.Le.runs`, `Function.Le.ends`).
-/

namespace Llvm

variable {External World Cause : Type}

/-- A PHI node: for each block that branches here the operand it hands over. -/
structure Phi where
  dest : Nat
  incoming : List (Nat × Operand)
  deriving DecidableEq, Repr

inductive Terminator where
  | br (target : Nat)
  | condBr (condition : Operand) (trueTarget falseTarget : Nat)
  | switch (value : Operand) (default : Nat) (cases : List (BitVec 32 × Nat))
  | ret (value : Option Operand)
  | unreachable
  deriving DecidableEq, Repr

/-- A basic block; each instruction has a register of its own. -/
structure Block (External : Type) where
  phi : Option Phi
  body : List (Nat × Instr External)
  terminator : Option Terminator

abbrev Function (External : Type) := List (Block External)

/-- A point in a function and what there is in its frame and in the world. -/
structure State (World : Type) where
  block : Nat
  pc : Nat
  regs : Regs
  slots : Regs
  world : World

inductive Outcome (World Cause : Type) where
  | next (state : State World)
  | ret (value : Option Val) (world : World)
  /-- A call that does not return. -/
  | stop (cause : Cause)

/-- What the external operations do to the world: they return a value, or nothing, or not at all. On
operands of the wrong types they are stuck. -/
abbrev Externals (External World Cause : Type) :=
  External → List Val → World → Option (Except Cause (Option Val × World))

namespace State

/-- The point behind an instruction that assigned a value to its register. -/
def define (dest : Nat) (value : Option Val) (state : State World) : State World :=
  { state with pc := state.pc + 1, regs := Function.update state.regs dest value }

end State

/-- An instruction, which has a register. -/
def Instr.exec (externals : Externals External World Cause) (dest : Nat) (instr : Instr External)
    (state : State World) : Option (Outcome World Cause) :=
  match instr with
  | alloca => some (.next { state.define dest none with
      slots := Function.update state.slots dest none })
  | load slot => (state.slots slot).map fun value => .next (state.define dest value)
  | store value slot => do
    let value ← value.eval state.regs
    return .next { state.define dest none with
      slots := Function.update state.slots slot (some value) }
  | external op args => do
    let args ← args.mapM (Operand.eval state.regs)
    match ← externals op args state.world with
    | .error cause => return .stop cause
    | .ok (value, world) => return .next { state.define dest value with world }
  | instr => (instr.pure? state.regs).map fun value => .next (state.define dest value)

/-- A branch from the block of the state. -/
def Function.enter (function : Function External) (target : Nat) (state : State World) :
    Option (Outcome World Cause) := do
  let block ← function[target]?
  match block.phi with
  | none => return .next { state with block := target, pc := 0 }
  | some phi => do
    let value ← (← phi.incoming.lookup state.block).eval state.regs
    return .next { state with
      block := target
      pc := 0
      regs := Function.update state.regs phi.dest (some value) }

/-- The value a `switch` compares its cases with. -/
def Val.selector? : Val → Option (BitVec 32)
  | int 32 bits => some bits
  | _ => none

def Terminator.exec (function : Function External) (terminator : Terminator)
    (state : State World) : Option (Outcome World Cause) :=
  match terminator with
  | br target => function.enter target state
  | condBr condition trueTarget falseTarget => do
    let isTrue ← (← condition.eval state.regs).isTrue?
    function.enter (if isTrue then trueTarget else falseTarget) state
  | switch value default cases => do
    let selector ← (← value.eval state.regs).selector?
    function.enter ((cases.lookup selector).getD default) state
  | ret none => some (.ret none state.world)
  | ret (some value) => (value.eval state.regs).map fun value => .ret (some value) state.world
  | unreachable => none

/-- The next instruction of a state, or the terminator of its block. -/
def step (externals : Externals External World Cause) (function : Function External)
    (state : State World) : Option (Outcome World Cause) := do
  let block ← function[state.block]?
  match block.body[state.pc]? with
  | some (dest, instr) => instr.exec externals dest state
  | none => (← block.terminator).exec function state

section Step

variable {externals : Externals External World Cause} {function : Function External}
  {block : Block External} {state : State World}

theorem step_of_instr (hblock : function[state.block]? = some block) {dest : Nat}
    {instr : Instr External} (hinstr : block.body[state.pc]? = some (dest, instr)) :
    step externals function state = instr.exec externals dest state := by
  rw [step, hblock, Option.bind_eq_bind, Option.bind_some, hinstr]

theorem step_of_terminator (hblock : function[state.block]? = some block)
    (hpc : state.pc = block.body.length) {terminator : Terminator}
    (hterminator : block.terminator = some terminator) :
    step externals function state = terminator.exec function state := by
  rw [step, hblock, Option.bind_eq_bind, Option.bind_some, hpc, List.getElem?_eq_none le_rfl,
    hterminator]
  rfl

end Step

/-- The second state comes of the first. -/
inductive Runs (externals : Externals External World Cause) (function : Function External) :
    State World → State World → Prop
  | refl (state : State World) : Runs externals function state state
  | head {state mid state' : State World}
      (hstep : step externals function state = some (.next mid))
      (hruns : Runs externals function mid state') : Runs externals function state state'

/-- The state comes to an outcome that is no other state. -/
def Ends (externals : Externals External World Cause) (function : Function External)
    (state : State World) (outcome : Outcome World Cause) : Prop :=
  (∀ state', outcome ≠ .next state') ∧
    ∃ state', Runs externals function state state' ∧
      step externals function state' = some outcome

section Runs

variable {externals : Externals External World Cause} {function : Function External}
  {state mid state' : State World} {outcome outcome' : Outcome World Cause}

theorem Runs.trans (h : Runs externals function state mid)
    (h' : Runs externals function mid state') : Runs externals function state state' := by
  induction h with
  | refl => exact h'
  | head hstep hruns ih => exact .head hstep (ih h')

theorem Runs.single (h : step externals function state = some (.next state')) :
    Runs externals function state state' :=
  .head h (.refl state')

theorem Ends.of_runs (h : Runs externals function state mid)
    (hends : Ends externals function mid outcome) : Ends externals function state outcome := by
  obtain ⟨hlast, state', hruns, hstep⟩ := hends
  exact ⟨hlast, state', h.trans hruns, hstep⟩

end Runs

/-! ## More of a function -/

/-- The second block is the first one, or the first one with more built into it. The PHI node of a
block that nothing branches to may be dropped. -/
structure Block.Le (block block' : Block External) : Prop where
  phi : ∀ phi, block.phi = some phi → phi.incoming ≠ [] →
    ∃ phi', block'.phi = some phi' ∧ phi'.dest = phi.dest ∧ phi.incoming <+: phi'.incoming
  phi_none : block.phi = none → block'.phi = none
  body : block.body <+: block'.body
  terminator : ∀ terminator, block.terminator = some terminator →
    block'.terminator = some terminator ∧ block'.body = block.body

/-- The second function is the first one with more built into it. -/
def Function.Le (function function' : Function External) : Prop :=
  ∀ (i : Nat) (block : Block External), function[i]? = some block →
    ∃ block', function'[i]? = some block' ∧ block.Le block'

theorem Block.Le.refl (block : Block External) : block.Le block where
  phi phi hphi _ := ⟨phi, hphi, rfl, List.prefix_rfl⟩
  phi_none := id
  body := List.prefix_rfl
  terminator _ h := ⟨h, rfl⟩

theorem Block.Le.trans {block block' block'' : Block External} (h : block.Le block')
    (h' : block'.Le block'') : block.Le block'' where
  phi phi hphi hne := by
    obtain ⟨phi', hphi', hdest, hinit⟩ := h.phi phi hphi hne
    obtain ⟨phi'', hphi'', hdest', hinit'⟩ := h'.phi phi' hphi' fun hnil => by
      rw [hnil] at hinit
      exact hne (List.prefix_nil.1 hinit)
    exact ⟨phi'', hphi'', hdest'.trans hdest, hinit.trans hinit'⟩
  phi_none hnone := h'.phi_none (h.phi_none hnone)
  body := h.body.trans h'.body
  terminator terminator hterminator := by
    obtain ⟨hsame, hbody⟩ := h.terminator terminator hterminator
    obtain ⟨hsame', hbody'⟩ := h'.terminator terminator hsame
    exact ⟨hsame', hbody'.trans hbody⟩

namespace Function

variable {function function' function'' : Function External}

theorem Le.refl (function : Function External) : function.Le function :=
  fun _ block h => ⟨block, h, .refl block⟩

theorem Le.trans (h : function.Le function') (h' : function'.Le function'') :
    function.Le function'' := by
  intro i block hblock
  obtain ⟨block', hblock', hle⟩ := h i block hblock
  obtain ⟨block'', hblock'', hle'⟩ := h' i block' hblock'
  exact ⟨block'', hblock'', hle.trans hle'⟩

theorem lookup_of_prefix {α β : Type} [BEq α] {xs ys : List (α × β)} (hinit : xs <+: ys) {a : α}
    {b : β} (h : xs.lookup a = some b) : ys.lookup a = some b := by
  obtain ⟨zs, rfl⟩ := hinit
  rw [List.lookup_append, h]
  rfl

theorem Le.enter (h : function.Le function') {target : Nat} {state : State World}
    {outcome : Outcome World Cause} (henter : function.enter target state = some outcome) :
    function'.enter target state = some outcome := by
  unfold Function.enter at henter ⊢
  cases hblock : function[target]? with
  | none => simp [hblock] at henter
  | some block =>
    obtain ⟨block', hblock', hle⟩ := h target block hblock
    rw [hblock, Option.bind_eq_bind, Option.bind_some] at henter
    rw [hblock', Option.bind_eq_bind, Option.bind_some]
    cases hphi : block.phi with
    | none =>
      rw [hle.phi_none hphi]
      rwa [hphi] at henter
    | some phi =>
      simp only [hphi] at henter
      cases hlookup : phi.incoming.lookup state.block with
      | none => simp [hlookup] at henter
      | some operand =>
        obtain ⟨phi', hphi', hdest, hinit⟩ := hle.phi phi hphi fun hnil => by
          simp [hnil] at hlookup
        simp only [hphi', hdest, lookup_of_prefix hinit hlookup]
        rwa [hlookup] at henter

theorem Le.terminator (h : function.Le function') {terminator : Terminator}
    {state : State World} {outcome : Outcome World Cause}
    (hexec : terminator.exec function state = some outcome) :
    terminator.exec function' state = some outcome := by
  cases terminator with
  | br target => exact h.enter hexec
  | condBr condition trueTarget falseTarget =>
    simp only [Terminator.exec, Option.bind_eq_bind, Option.bind_eq_some_iff] at hexec ⊢
    obtain ⟨value, hvalue, isTrue, hcondition, henter⟩ := hexec
    exact ⟨value, hvalue, isTrue, hcondition, h.enter henter⟩
  | switch value default cases =>
    simp only [Terminator.exec, Option.bind_eq_bind, Option.bind_eq_some_iff] at hexec ⊢
    obtain ⟨selected, hvalue, selector, hselector, henter⟩ := hexec
    exact ⟨selected, hvalue, selector, hselector, h.enter henter⟩
  | ret value => cases value <;> exact hexec
  | unreachable => cases hexec

/-- What a function does that has been built so far, it does when there is more of it. -/
theorem Le.step (h : function.Le function') {externals : Externals External World Cause}
    {state : State World} {outcome : Outcome World Cause}
    (hstep : Llvm.step externals function state = some outcome) :
    Llvm.step externals function' state = some outcome := by
  unfold Llvm.step at hstep ⊢
  cases hblock : function[state.block]? with
  | none => simp [hblock] at hstep
  | some block =>
    obtain ⟨block', hblock', hle⟩ := h _ block hblock
    rw [hblock, Option.bind_eq_bind, Option.bind_some] at hstep
    rw [hblock', Option.bind_eq_bind, Option.bind_some]
    cases hinstr : block.body[state.pc]? with
    | some instr =>
      obtain ⟨rest, hbody⟩ := hle.body
      have hlt := (List.getElem?_eq_some_iff.1 hinstr).1
      rw [← hbody, List.getElem?_append_left hlt, hinstr]
      rwa [hinstr] at hstep
    | none =>
      rw [hinstr] at hstep
      cases hterminator : block.terminator with
      | none => simp [hterminator] at hstep
      | some terminator =>
        obtain ⟨hsame, hbody⟩ := hle.terminator terminator hterminator
        rw [hbody, hinstr]
        simp only [hterminator, hsame, Option.bind_eq_bind, Option.bind_some] at hstep ⊢
        exact h.terminator hstep

theorem Le.runs (h : function.Le function') {externals : Externals External World Cause}
    {state state' : State World} (hruns : Runs externals function state state') :
    Runs externals function' state state' := by
  induction hruns with
  | refl => exact .refl _
  | head hstep _ ih => exact .head (h.step hstep) ih

theorem Le.ends (h : function.Le function') {externals : Externals External World Cause}
    {state : State World} {outcome : Outcome World Cause}
    (hends : Ends externals function state outcome) :
    Ends externals function' state outcome := by
  obtain ⟨hlast, state', hruns, hstep⟩ := hends
  exact ⟨hlast, state', h.runs hruns, h.step hstep⟩

end Function

end Llvm
