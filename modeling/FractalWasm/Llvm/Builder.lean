import FractalWasm.Llvm.Function

/-!
# Building functions

A builder appends instructions to one block of a function, creates blocks and moves from one to
another, as LLVM's `IRBuilder` does. It is a state, and what builds with it a program over this state
(`Build`).

The `IRBuilder` also folds instructions on constants as they are inserted. Folding is not modelled:
every instruction is inserted, and a folded one stands for the constant that its execution computes.

**What stays** (`Extends`): blocks that have been built are never taken away, finished blocks are not
changed, and an open block may only grow at its end. Every program here extends what it started from
(`createBlock`, `setInsertPoint`, `insert` and `terminate` in the namespace `Extends`), so that a run
of the code built so far is a run of all of it.
-/

namespace Llvm

variable {External World Cause : Type}

/-- `IRBuilder`, with the function it builds. -/
structure Builder (External : Type) where
  function : Function External
  insertBlock : Nat
  nextRegister : Nat

/-- A program that builds. -/
abbrev Build (External α : Type) := StateM (Builder External) α

namespace Builder

/-! ## Programs -/

def empty : Block External := ⟨none, [], none⟩

def createBlock : Build External Nat := fun builder =>
  (builder.function.length, { builder with function := builder.function ++ [empty] })

def modifyBlock (i : Nat) (f : Block External → Block External) (builder : Builder External) :
    Builder External :=
  { builder with function := builder.function.modify i f }

/-- An empty PHI node at the start of a block. -/
def createPHI (block : Nat) : Build External Nat := fun builder =>
  (builder.nextRegister, { builder.modifyBlock block ({ · with
    phi := some ⟨builder.nextRegister, []⟩ }) with nextRegister := builder.nextRegister + 1 })

/-- `addIncoming` for the PHI node of a block. -/
def addIncoming (block : Nat) (value : Operand) (pred : Nat) : Build External Unit :=
  modify fun builder => builder.modifyBlock block fun block => { block with
    phi := block.phi.map fun phi => { phi with incoming := phi.incoming ++ [(pred, value)] } }

def setInsertPoint (block : Nat) : Build External Unit :=
  modify fun builder => { builder with insertBlock := block }

def insert (instr : Instr External) : Build External Operand := fun builder =>
  (.reg builder.nextRegister, { builder.modifyBlock builder.insertBlock fun block => { block with
    body := block.body ++ [(builder.nextRegister, instr)] } with
    nextRegister := builder.nextRegister + 1 })

def terminate (terminator : Terminator) : Build External Unit :=
  modify fun builder => builder.modifyBlock builder.insertBlock ({ · with
    terminator := some terminator })

/-! ## Blocks -/

variable {b b' b'' : Builder External} {i : Nat} {block : Block External}

/-- A block that has no terminator yet. -/
def IsOpen (b : Builder External) (i : Nat) : Prop :=
  ∃ block, b.function[i]? = some block ∧ block.terminator = none

theorem IsOpen.lt (h : b.IsOpen i) : i < b.function.length :=
  (List.getElem?_eq_some_iff.1 h.choose_spec.1).1

theorem getElem?_modifyBlock (i j : Nat) (f : Block External → Block External)
    (b : Builder External) :
    (b.modifyBlock i f).function[j]? =
      if i = j then b.function[j]?.map f else b.function[j]? := by
  rw [modifyBlock, List.getElem?_modify]
  split
  · rfl
  · rw [id_map']

theorem getElem?_modifyBlock_ne {j : Nat} (h : i ≠ j) (f : Block External → Block External) :
    (b.modifyBlock i f).function[j]? = b.function[j]? := by
  rw [getElem?_modifyBlock, if_neg h]

theorem getElem?_modifyBlock_self (h : b.function[i]? = some block)
    (f : Block External → Block External) :
    (b.modifyBlock i f).function[i]? = some (f block) := by
  rw [getElem?_modifyBlock, if_pos rfl, h, Option.map_some]

@[simp] theorem length_modifyBlock (i : Nat) (f : Block External → Block External)
    (b : Builder External) : (b.modifyBlock i f).function.length = b.function.length := by
  rw [modifyBlock, List.length_modify]

theorem le_append (function : Function External) (block : Block External) :
    function.Le (function ++ [block]) := by
  intro i block' h
  have hlt := (List.getElem?_eq_some_iff.1 h).1
  exact ⟨block', (List.getElem?_append_left hlt).trans h, .refl block'⟩

/-! ## What the programs change -/

theorem length_createBlock (b : Builder External) :
    (createBlock b).2.function.length = b.function.length + 1 := by
  simp [createBlock]

theorem getElem?_createBlock (h : b.function[i]? = some block) :
    (createBlock b).2.function[i]? = some block :=
  (List.getElem?_append_left (List.getElem?_eq_some_iff.1 h).1).trans h

theorem getElem?_createBlock_self (b : Builder External) :
    (createBlock b).2.function[b.function.length]? = some empty := by
  simp [createBlock]

theorem getElem?_insert_ne (h : i ≠ b.insertBlock) (instr : Instr External) :
    (insert instr b).2.function[i]? = b.function[i]? :=
  getElem?_modifyBlock_ne h.symm _

theorem getElem?_terminate_ne (h : i ≠ b.insertBlock) (terminator : Terminator) :
    (terminate terminator b).2.function[i]? = b.function[i]? :=
  getElem?_modifyBlock_ne h.symm _

theorem getElem?_insert_self (h : b.function[b.insertBlock]? = some block)
    (instr : Instr External) : (insert instr b).2.function[b.insertBlock]? =
      some { block with body := block.body ++ [(b.nextRegister, instr)] } :=
  getElem?_modifyBlock_self h _

theorem getElem?_terminate_self (h : b.function[b.insertBlock]? = some block)
    (terminator : Terminator) : (terminate terminator b).2.function[b.insertBlock]? =
      some { block with terminator := some terminator } :=
  getElem?_modifyBlock_self h _

theorem modify_append_left {α : Type} (f : α → α) {xs : List α} (ys : List α) {i : Nat}
    (h : i < xs.length) : (xs ++ ys).modify i f = xs.modify i f ++ ys := by
  induction xs generalizing i with
  | nil => cases h
  | cons x xs ih =>
    cases i with
    | zero => rfl
    | succ i =>
      rw [List.cons_append, List.modify_succ_cons, List.modify_succ_cons, List.cons_append,
        ih (Nat.lt_of_succ_lt_succ h)]

/-- New blocks do not matter for what is built into the others. -/
theorem insert_createBlock (h : b.insertBlock < b.function.length) (instr : Instr External) :
    insert instr (createBlock b).2 =
      ((insert instr b).1, (createBlock (insert instr b).2).2) := by
  simp [insert, createBlock, modifyBlock, modify_append_left _ _ h]

theorem IsOpen.createBlock (h : b.IsOpen i) : (createBlock b).2.IsOpen i :=
  let ⟨block, hblock, hopen⟩ := h
  ⟨block, getElem?_createBlock hblock, hopen⟩

theorem IsOpen.insert (h : b.IsOpen i) (instr : Instr External) : (insert instr b).2.IsOpen i := by
  obtain ⟨block, hblock, hopen⟩ := h
  by_cases hi : i = b.insertBlock
  · subst hi
    exact ⟨_, getElem?_insert_self hblock instr, hopen⟩
  · exact ⟨block, (getElem?_insert_ne hi instr).trans hblock, hopen⟩

theorem IsOpen.terminate (h : b.IsOpen i) (hne : i ≠ b.insertBlock) (terminator : Terminator) :
    (terminate terminator b).2.IsOpen i := by
  obtain ⟨block, hblock, hopen⟩ := h
  exact ⟨block, (getElem?_terminate_ne hne terminator).trans hblock, hopen⟩

/-- The second builder has gone on from the first one, in its block and in new ones. -/
structure Extends (b b' : Builder External) : Prop where
  le : b.function.Le b'.function
  nextRegister : b.nextRegister ≤ b'.nextRegister
  length : b.function.length ≤ b'.function.length
  others : ∀ i < b.function.length, i ≠ b.insertBlock → b'.function[i]? = b.function[i]?
  insertBlock : b'.insertBlock = b.insertBlock ∨ b.function.length ≤ b'.insertBlock

namespace Extends

theorem refl (b : Builder External) : b.Extends b :=
  ⟨.refl _, le_rfl, le_rfl, fun _ _ _ => rfl, .inl rfl⟩

theorem trans (h : b.Extends b') (h' : b'.Extends b'') : b.Extends b'' where
  le := h.le.trans h'.le
  nextRegister := h.nextRegister.trans h'.nextRegister
  length := h.length.trans h'.length
  others i hi hne := by
    refine (h'.others i (hi.trans_le h.length) ?_).trans (h.others i hi hne)
    rcases h.insertBlock with heq | hle
    · rwa [heq]
    · omega
  insertBlock := by
    rcases h'.insertBlock with heq | hle
    · rw [heq]
      exact h.insertBlock
    · exact .inr (h.length.trans hle)

theorem createBlock (h : b.Extends b') : b.Extends (createBlock b').2 where
  le := h.le.trans (le_append _ _)
  nextRegister := h.nextRegister
  length := by rw [length_createBlock]; exact h.length.trans (Nat.le_succ _)
  others i hi hne := by
    rw [← h.others i hi hne]
    exact List.getElem?_append_left (hi.trans_le h.length)
  insertBlock := h.insertBlock

theorem setInsertPoint (h : b.Extends b') (hi : b.function.length ≤ i) :
    b.Extends (setInsertPoint i b').2 :=
  ⟨h.le, h.nextRegister, h.length, h.others, .inr hi⟩

/-- A change of the block that is built or of a new one. -/
theorem modifyBlock (h : b.Extends b') (hi : i = b.insertBlock ∨ b.function.length ≤ i)
    (f : Block External → Block External)
    (hle : i < b.function.length → ∀ block, b'.function[i]? = some block → block.Le (f block)) :
    b.Extends (b'.modifyBlock i f) where
  le := by
    intro j block hblock
    obtain ⟨block', hblock', hle'⟩ := h.le j block hblock
    have hlt := (List.getElem?_eq_some_iff.1 hblock).1
    by_cases hij : i = j
    · subst hij
      exact ⟨f block', getElem?_modifyBlock_self hblock' f, hle'.trans (hle hlt block' hblock')⟩
    · exact ⟨block', (getElem?_modifyBlock_ne hij f).trans hblock', hle'⟩
  nextRegister := h.nextRegister
  length := by rw [length_modifyBlock]; exact h.length
  others j hj hne := by
    refine (getElem?_modifyBlock_ne ?_ f).trans (h.others j hj hne)
    rintro rfl
    exact hi.elim hne hj.not_ge
  insertBlock := h.insertBlock

/-- The next register goes to an instruction. -/
theorem register (h : b.Extends b') : b.Extends { b' with nextRegister := b'.nextRegister + 1 } :=
  ⟨h.le, h.nextRegister.trans (Nat.le_succ _), h.length, h.others, h.insertBlock⟩

theorem insert (h : b.Extends b') (hopen : b'.IsOpen b'.insertBlock) (instr : Instr External) :
    b.Extends (insert instr b').2 := by
  obtain ⟨block, hblock, hnone⟩ := hopen
  refine (h.modifyBlock h.insertBlock _ fun _ block' hblock' => ?_).register
  obtain rfl := Option.some.inj (hblock.symm.trans hblock')
  refine ⟨fun phi hphi _ => ⟨phi, hphi, rfl, List.prefix_rfl⟩, id, List.prefix_append _ _, ?_⟩
  intro terminator hterminator
  rw [hnone] at hterminator
  cases hterminator

theorem terminate (h : b.Extends b') (hopen : b'.IsOpen b'.insertBlock)
    (terminator : Terminator) : b.Extends (terminate terminator b').2 := by
  obtain ⟨block, hblock, hnone⟩ := hopen
  refine h.modifyBlock h.insertBlock _ fun _ block' hblock' => ?_
  obtain rfl := Option.some.inj (hblock.symm.trans hblock')
  refine ⟨fun phi hphi _ => ⟨phi, hphi, rfl, List.prefix_rfl⟩, id, List.prefix_rfl, ?_⟩
  intro terminator hterminator
  rw [hnone] at hterminator
  cases hterminator

/-- A new block gets a PHI node. -/
theorem createPHI (h : b.Extends b') (hi : b.function.length ≤ i) :
    b.Extends (createPHI i b').2 :=
  (h.modifyBlock (.inr hi) _ fun hlt => absurd hlt hi.not_gt).register

/-- The PHI node of a new block gets an operand. -/
theorem addIncoming (h : b.Extends b') (hi : b.function.length ≤ i) (value : Operand)
    (pred : Nat) : b.Extends (addIncoming i value pred b').2 :=
  h.modifyBlock (.inr hi) _ fun hlt => absurd hlt hi.not_gt

end Extends

end Builder

end Llvm
