import Mathlib.Data.List.Forall2
import FractalWasm.Llvm.Builder

/-!
# What built code does

Rules for the code that a program of builder calls has built, from the point where the program began
to the point where it ended.

**Going on** (`Emits externals b state m P`): from `state`, at the end of what `b` has built, the
code that `m` adds is executed to its own end, and `P` holds there. Where a program is composed of
others, what its code does is composed of what theirs does (`Emits.bind`).

**Stopping** (`Stops`): the code ends before that, with the cause of a trap. `Yields` is either of
them, as a result of type `Except` says.

**Operands** (`Holds`): a value is known to the builder and keeps what it holds (`Reaches.holds`).
There is a rule for each instruction and for the branch to two new blocks (`step_fork`).
-/

namespace Llvm

variable {External World Cause : Type} {externals : Externals External World Cause}
  {b b' b'' : Builder External} {state state' state'' : State World}

open Builder

/-- The program has gone on and can go on. -/
structure Builder.Grows (b b' : Builder External) : Prop extends b.Extends b' where
  isOpen : b'.IsOpen b'.insertBlock

theorem Builder.Grows.trans (h : b.Grows b') (h' : b'.Grows b'') : b.Grows b'' :=
  ⟨h.toExtends.trans h'.toExtends, h'.isOpen⟩

/-- The state is behind the last instruction that was built. -/
structure Builder.Here (b : Builder External) (state : State World) : Prop where
  block : state.block = b.insertBlock
  point : ∃ block, b.function[b.insertBlock]? = some block ∧ block.terminator = none ∧
    state.pc = block.body.length

theorem Builder.Here.isOpen (h : b.Here state) : b.IsOpen b.insertBlock :=
  let ⟨block, hblock, hnone, _⟩ := h.point
  ⟨block, hblock, hnone⟩

/-- The code between two builders leads from one state to the other. -/
structure Reaches (externals : Externals External World Cause) (b b' : Builder External)
    (state state' : State World) : Prop where
  grows : b.Grows b'
  runs : Runs externals b'.function state state'
  here : b'.Here state'
  regs : ∀ r < b.nextRegister, state'.regs r = state.regs r

/-- Code is reached through the code before it. -/
theorem Reaches.trans (h : Reaches externals b b' state state')
    (h' : Reaches externals b' b'' state' state'') : Reaches externals b b'' state state'' where
  grows := h.grows.trans h'.grows
  runs := (h'.grows.le.runs h.runs).trans h'.runs
  here := h'.here
  regs r hr := (h'.regs r (hr.trans_le h.grows.nextRegister)).trans (h.regs r hr)

/-- The operand is known to the builder and has the value. -/
structure Holds (b : Builder External) (state : State World) (operand : Operand) (value : Val) :
    Prop where
  defined : ∀ r, operand = .reg r → r < b.nextRegister
  eval : operand.eval state.regs = some value

theorem holds_const (b : Builder External) (state : State World) (value : Val) :
    Holds b state (.const value) value :=
  ⟨nofun, rfl⟩

/-- A register keeps its value while later ones are written. -/
theorem Holds.mono {operand : Operand} {value : Val} (h : Holds b state operand value)
    (hle : b.nextRegister ≤ b'.nextRegister)
    (hregs : ∀ r < b.nextRegister, state'.regs r = state.regs r) :
    Holds b' state' operand value := by
  refine ⟨fun r hr => (h.defined r hr).trans_le hle, ?_⟩
  cases operand with
  | reg r => exact (hregs r (h.defined r rfl)).trans h.eval
  | const _ => exact h.eval

/-- What an operand holds is still there behind the code that was reached. -/
theorem Reaches.holds {operand : Operand} {value : Val} (h : Reaches externals b b' state state')
    (hholds : Holds b state operand value) : Holds b' state' operand value :=
  hholds.mono h.grows.nextRegister h.regs

section Programs

variable {α β : Type} {m : Build External α} {f : α → Build External β} {cause : Cause}
  {P : Builder External → State World → α → Prop} {Q : Builder External → State World → β → Prop}

/-- The code of a program goes on, and `P` holds behind it. -/
def Emits (externals : Externals External World Cause) (b : Builder External)
    (state : State World) (m : Build External α)
    (P : Builder External → State World → α → Prop) : Prop :=
  ∃ state', Reaches externals b (m b).2 state state' ∧ P (m b).2 state' (m b).1

/-- The code of a program stops. -/
def Stops (externals : Externals External World Cause) (b : Builder External)
    (state : State World) (m : Build External α) (cause : Cause) : Prop :=
  b.Grows (m b).2 ∧ Ends externals (m b).2.function state (.stop cause)

/-- A weaker postcondition follows. -/
theorem Emits.mono {P' : Builder External → State World → α → Prop}
    (h : Emits externals b state m P) (himp : ∀ b' state' a, P b' state' a → P' b' state' a) :
    Emits externals b state m P' :=
  let ⟨state', hreaches, hpost⟩ := h
  ⟨state', hreaches, himp _ _ _ hpost⟩

/-- Only what is built from here matters. -/
theorem Emits.congr {m' : Build External α} (heq : m b = m' b)
    (h : Emits externals b state m' P) : Emits externals b state m P := by
  rw [Emits, heq]
  exact h

/-- **Composition.** The code of a program is that of its first part and, from there, that of the
rest. -/
theorem Emits.bind (h : Emits externals b state m P)
    (hnext : ∀ a b' state', Reaches externals b b' state state' → P b' state' a →
      Emits externals b' state' (f a) Q) :
    Emits externals b state (m >>= f) Q := by
  obtain ⟨state', hreaches, hpost⟩ := h
  obtain ⟨state'', hreaches', hpost'⟩ := hnext _ _ _ hreaches hpost
  exact ⟨state'', hreaches.trans hreaches', hpost'⟩

/-- Where the rest stops, the whole does. -/
theorem Emits.stops (h : Emits externals b state m P)
    (hnext : ∀ a b' state', Reaches externals b b' state state' → P b' state' a →
      Stops externals b' state' (f a) cause) :
    Stops externals b state (m >>= f) cause := by
  obtain ⟨state', hreaches, hpost⟩ := h
  obtain ⟨hgrows, hends⟩ := hnext _ _ _ hreaches hpost
  exact ⟨hreaches.grows.trans hgrows, hends.of_runs (hgrows.le.runs hreaches.runs)⟩

/-- Wherever the program can begin it goes on and can go on. -/
def Growing (m : Build External α) : Prop :=
  ∀ b : Builder External, b.IsOpen b.insertBlock → b.Grows (m b).2

/-- Growing programs compose. -/
theorem Growing.bind (h : Growing m) (hnext : ∀ a, Growing (f a)) : Growing (m >>= f) :=
  fun b hopen =>
    have hgrows := h b hopen
    hgrows.trans (hnext (m b).1 (m b).2 hgrows.isOpen)

/-- What comes behind code that stops is not executed. -/
theorem Stops.bind (h : Stops externals b state m cause) (hnext : ∀ a, Growing (f a)) :
    Stops externals b state (m >>= f) cause := by
  obtain ⟨hgrows, hends⟩ := h
  have hgrows' := hnext (m b).1 (m b).2 hgrows.isOpen
  exact ⟨hgrows.trans hgrows', hgrows'.le.ends hends⟩

/-- A value that was computed; the frame and the world are as before. -/
structure Computed (state : State World) (value : Val) (b' : Builder External)
    (state' : State World) (operand : Operand) : Prop where
  holds : Holds b' state' operand value
  slots : state'.slots = state.slots
  world : state'.world = state.world

theorem Computed.after {value : Val} {operand : Operand}
    (h : Computed state' value b'' state'' operand) (hslots : state'.slots = state.slots)
    (hworld : state'.world = state.world) : Computed state value b'' state'' operand :=
  ⟨h.holds, h.slots.trans hslots, h.world.trans hworld⟩

/-- The code goes on with a value, or stops. -/
def Yields (externals : Externals External World Cause) (b : Builder External)
    (state : State World) (m : Build External Operand) : Except Cause Val → Prop
  | .ok value => Emits externals b state m (Computed state value)
  | .error cause => Stops externals b state m cause

/-- One value is computed from another one. -/
theorem Emits.compute {n : Build External Operand} {g : Operand → Build External Operand}
    {value value' : Val} (h : Emits externals b state n (Computed state value))
    (hnext : ∀ operand b' state', Reaches externals b b' state state' →
      Holds b' state' operand value →
      Emits externals b' state' (g operand) (Computed state' value')) :
    Emits externals b state (n >>= g) (Computed state value') := by
  refine h.bind fun operand b' state' hreaches hcomputed => ?_
  refine (hnext operand b' state' hreaches hcomputed.holds).mono fun _ _ _ hcomputed' => ?_
  exact hcomputed'.after hcomputed.slots hcomputed.world

end Programs

/-! ## Single instructions -/

section Instructions

variable {instr : Instr External} {value : Val}

theorem Builder.Here.behind (h : b.Here state) (instr : Instr External)
    (hblock : state'.block = state.block) (hpc : state'.pc = state.pc + 1) :
    (insert instr b).2.Here state' := by
  obtain ⟨block, hfound, hnone, hlength⟩ := h.point
  refine ⟨hblock.trans h.block, _, getElem?_insert_self hfound instr, hnone, ?_⟩
  rw [hpc, hlength, List.length_append, List.length_singleton]

/-- The instruction inserted is the one executed next. -/
theorem Builder.Here.step_insert (h : b.Here state) (instr : Instr External) :
    step externals (insert instr b).2.function state =
      instr.exec externals b.nextRegister state := by
  obtain ⟨block, hfound, hnone, hlength⟩ := h.point
  refine step_of_instr ((congrArg _ h.block).trans (getElem?_insert_self hfound instr)) ?_
  rw [hlength, List.getElem?_concat_length]

theorem grows_insert (instr : Instr External) : Growing (insert instr) :=
  fun b h => ⟨(Extends.refl b).insert h instr, h.insert instr⟩

/-- An instruction that does not stop. -/
theorem reaches_insert (h : b.Here state)
    (hexec : instr.exec externals b.nextRegister state = some (.next state'))
    (hblock : state'.block = state.block) (hpc : state'.pc = state.pc + 1)
    (hregs : ∀ r < b.nextRegister, state'.regs r = state.regs r) :
    Reaches externals b (insert instr b).2 state state' where
  grows := grows_insert instr b h.isOpen
  runs := .single ((h.step_insert instr).trans hexec)
  here := h.behind instr hblock hpc
  regs := hregs

/-- A new register leaves the earlier ones alone. -/
theorem define_regs_of_lt {dest : Nat} {value : Option Val} {r : Nat} (h : r < dest) :
    (state.define dest value).regs r = state.regs r :=
  Function.update_of_ne h.ne _ _

/-- An instruction without an effect defines its register. -/
theorem exec_of_pure? {dest : Nat} (h : instr.pure? state.regs = some value) :
    instr.exec externals dest state = some (.next (state.define dest (some value))) := by
  cases instr with
  | alloca | load | store | external => cases h
  | binary | icmp | count | cast | select => simp [Instr.exec, h]

/-- An instruction that only computes. -/
theorem emits_pure (h : b.Here state) (hpure : instr.pure? state.regs = some value) :
    Emits externals b state (insert instr) (Computed state value) := by
  refine ⟨state.define b.nextRegister (some value), reaches_insert h (exec_of_pure? hpure) rfl rfl
    fun r hr => define_regs_of_lt hr, ⟨?_, ?_⟩, rfl, rfl⟩
  · rintro _ ⟨⟩
    exact Nat.lt_succ_self _
  · exact Function.update_self _ _ _

variable {left right operand : Operand} {width : Nat} {x y : BitVec width}

/-- A binary instruction computes its value, where it has one. -/
theorem emits_binary (h : b.Here state) (op : BinOp) (hleft : Holds b state left (.int width x))
    (hright : Holds b state right (.int width y)) {z : BitVec width}
    (heval : op.eval x y = some z) :
    Emits externals b state (insert (.binary op left right)) (Computed state (.int width z)) :=
  emits_pure h (by rw [pure?_binary op hleft.eval hright.eval, heval, Option.map_some])

/-- A comparison computes a bit. -/
theorem emits_icmp (h : b.Here state) (pred : Pred) (hleft : Holds b state left (.int width x))
    (hright : Holds b state right (.int width y)) :
    Emits externals b state (insert (.icmp pred left right))
      (Computed state (.bool (pred.eval x y))) :=
  emits_pure h (pure?_icmp pred hleft.eval hright.eval)

theorem emits_count (h : b.Here state) (op : CountOp)
    (hoperand : Holds b state operand (.int width x)) :
    Emits externals b state (insert (.count op operand)) (Computed state (.int width (op.eval x))) :=
  emits_pure h (pure?_count op hoperand.eval)

/-- A cast computes the value of its operand in the other type. -/
theorem emits_cast (h : b.Here state) (op : CastOp) {value value' : Val}
    (hoperand : Holds b state operand value) (heval : op.eval value = some value') :
    Emits externals b state (insert (.cast op operand)) (Computed state value') :=
  emits_pure h ((pure?_cast op hoperand.eval).trans heval)

end Instructions

/-! ## Terminators -/

section Terminators

variable {terminator : Terminator} {function : Function External} {block : Block External}
  {target : Nat} {outcome : Outcome World Cause}

theorem grows_terminate (h : b.IsOpen b.insertBlock) (terminator : Terminator) :
    b.function.Le (terminate terminator b).2.function :=
  ((Extends.refl b).terminate h terminator).le

/-- A branch to a block without a PHI node. -/
theorem enter_of_phi_none (hblock : function[target]? = some block) (hphi : block.phi = none)
    (state : State World) : (function.enter target state : Option (Outcome World Cause)) =
      some (.next { state with block := target, pc := 0 }) := by
  rw [Function.enter, hblock, Option.bind_eq_bind, Option.bind_some, hphi]
  rfl

/-- A branch to a block with a PHI node, which is handed an operand. -/
theorem enter_of_incoming {phi : Phi} {operand : Operand} {value : Val}
    (hblock : function[target]? = some block) (hphi : block.phi = some phi)
    (hincoming : phi.incoming.lookup state.block = some operand)
    (heval : operand.eval state.regs = some value) :
    (function.enter target state : Option (Outcome World Cause)) =
      some (.next { state with
        block := target
        pc := 0
        regs := Function.update state.regs phi.dest (some value) }) := by
  rw [Function.enter, hblock, Option.bind_eq_bind, Option.bind_some, hphi]
  simp [hincoming, heval]

/-- A conditional branch goes to one of its targets. -/
theorem exec_condBr {condition : Operand} {isTrue : Bool} {trueTarget falseTarget : Nat}
    (hcondition : condition.eval state.regs = some (.bool isTrue)) :
    (Terminator.condBr condition trueTarget falseTarget).exec function state =
      (function.enter (if isTrue then trueTarget else falseTarget) state :
        Option (Outcome World Cause)) := by
  simp [Terminator.exec, hcondition]

/-- The start of a block that nothing has been built into. -/
theorem here_of_empty (hblock : b.function[b.insertBlock]? = some block)
    (hbody : block.body = []) (hopen : block.terminator = none) (hstate : state.block = b.insertBlock)
    (hpc : state.pc = 0) : b.Here state :=
  ⟨hstate, block, hblock, hopen, by rw [hpc, hbody]; rfl⟩

/-- A branch to two new blocks. -/
def Builder.fork (condition : Operand) (b : Builder External) : Builder External :=
  (terminate (.condBr condition b.function.length (createBlock b).2.function.length)
    (createBlock (createBlock b).2).2).2

variable {condition : Operand}

/-- The two new blocks leave the others alone. -/
theorem extends_fork (h : b.IsOpen b.insertBlock) (condition : Operand) :
    b.Extends (b.fork condition) :=
  ((Extends.refl b).createBlock.createBlock).terminate h.createBlock.createBlock _

theorem getElem?_fork (h : b.IsOpen b.insertBlock) (condition : Operand) {i : Nat}
    (hi : i = b.function.length ∨ i = (createBlock b).2.function.length) :
    (b.fork condition).function[i]? = some empty := by
  have hlt := h.lt
  have hlength := length_createBlock b
  have hne : i ≠ (createBlock (createBlock b).2).2.insertBlock := by
    change i ≠ b.insertBlock
    omega
  rw [fork, getElem?_terminate_ne hne]
  rcases hi with rfl | rfl
  · exact getElem?_createBlock (getElem?_createBlock_self b)
  · exact getElem?_createBlock_self _

/-- The block that branches. -/
theorem getElem?_fork_self (h : b.function[b.insertBlock]? = some block) (condition : Operand) :
    (b.fork condition).function[b.insertBlock]? = some { block with
      terminator := some (.condBr condition b.function.length
        (createBlock b).2.function.length) } :=
  getElem?_terminate_self (getElem?_createBlock (getElem?_createBlock h)) _

/-- The branch to the two new blocks is taken by the condition. -/
theorem step_fork (h : b.Here state) {isTrue : Bool}
    (hcondition : Holds b state condition (.bool isTrue)) :
    step externals (b.fork condition).function state = some (.next { state with
      block := if isTrue then b.function.length else (createBlock b).2.function.length
      pc := 0 }) := by
  obtain ⟨block, hblock, -, hpc⟩ := h.point
  have hself := (congrArg _ h.block).trans (getElem?_fork_self hblock condition)
  rw [step_of_terminator hself hpc rfl, exec_condBr hcondition.eval]
  refine enter_of_phi_none (getElem?_fork h.isOpen condition ?_) rfl state
  cases isTrue
  · exact .inr rfl
  · exact .inl rfl

end Terminators

/-! ## External operations -/

section External

variable {op : External} {args : List Operand} {values : List Val} {cause : Cause}

/-- The operands have the values. -/
def HoldsAll (b : Builder External) (state : State World) (operands : List Operand)
    (values : List Val) : Prop :=
  List.Forall₂ (Holds b state) operands values

theorem HoldsAll.mapM_eval (h : HoldsAll b state args values) :
    args.mapM (Operand.eval state.regs) = some values := by
  induction h with
  | nil => rfl
  | cons hfirst _ ih => rw [List.mapM_cons, hfirst.eval, ih]; rfl

/-- An operation of the outside that fails stops the code. -/
theorem stops_external (h : b.Here state) (hargs : HoldsAll b state args values)
    (hop : externals op values state.world = some (.error cause)) :
    Stops externals b state (insert (.external op args)) cause := by
  refine ⟨grows_insert _ b h.isOpen, nofun, state, .refl state, ?_⟩
  rw [h.step_insert]
  simp [Instr.exec, hargs.mapM_eval, hop]

end External

end Llvm
