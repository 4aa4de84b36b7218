import FractalWasm.LLVMJIT.Numeric

/-!
# The code of integer operators

The code of an integer operator computes what WebAssembly defines, for all operands
(`integer_code_exact`). It stops exactly where the operator traps, and never gets stuck.

**Traps** (`Guards`): a test that goes to the trap when its condition holds and past it otherwise,
with the trap in a block of its own.

**Shifts and rotations**: no shift is by the width or more, since the counts are masked; a rotation
is two shifts whose masked counts add up to the width or are both zero (`rotateRight_eq`).

**The signed remainder** (`emits_emitCheckedSRem`): the remainder by -1 goes around the division
that overflows, over the PHI node behind it, which takes its zero from the block in front.
-/

namespace FractalWasm

open Llvm Llvm.Builder

namespace LLVMJIT

variable {World : Type} {externals : Externals External World Cause} {b : Builder External}
  {state : State World}

/-! ## Words -/

section Words

variable {type : IntType} {x y count : BitVec type.width}

theorem IntType.width_pos (type : IntType) : 0 < type.width := by
  cases type <;> decide

theorem IntType.width_lt (type : IntType) : type.width < 2 ^ type.width := Nat.lt_two_pow_self

theorem IntType.width_dvd (type : IntType) : type.width ∣ 2 ^ type.width := by
  cases type
  · exact Nat.pow_dvd_pow 2 (by decide : 5 ≤ 32)
  · exact Nat.pow_dvd_pow 2 (by decide : 6 ≤ 64)

/-- The constants of 32 bits are extended to the width. -/
theorem eval_zext {n : Nat} (h : n ≤ type.width) :
    (CastOp.zext type.width).eval (.int 32 (.ofNat 32 n)) =
      some (.int type.width (.ofNat type.width n)) := by
  have hlt : n < 2 ^ 32 := h.trans_lt (by cases type <;> decide)
  have hbits : (BitVec.ofNat 32 n).setWidth type.width = BitVec.ofNat type.width n := by
    apply BitVec.eq_of_toNat_eq
    rw [BitVec.toNat_setWidth, BitVec.toNat_ofNat, BitVec.toNat_ofNat, Nat.mod_eq_of_lt hlt]
  rw [CastOp.eval, if_pos (by cases type <;> decide), hbits]

/-- A mask of the width less one leaves the remainder by the width. -/
theorem toNat_and_mask (y : BitVec type.width) :
    (y &&& .ofNat type.width (type.width - 1)).toNat = y.toNat % type.width := by
  have hlt : type.width - 1 < 2 ^ type.width := (Nat.sub_le _ _).trans_lt type.width_lt
  rw [BitVec.toNat_and, BitVec.toNat_ofNat, Nat.mod_eq_of_lt hlt]
  cases type
  · exact Nat.and_two_pow_sub_one_eq_mod y.toNat 5
  · exact Nat.and_two_pow_sub_one_eq_mod y.toNat 6

/-- The opposite count of a rotation. -/
theorem toNat_width_sub_mod (y : BitVec type.width) :
    (.ofNat type.width type.width - y).toNat % type.width =
      (type.width - y.toNat % type.width) % type.width := by
  have hlt := y.isLt
  rw [BitVec.toNat_sub, BitVec.toNat_ofNat, Nat.mod_mod_of_dvd _ type.width_dvd,
    Nat.mod_eq_of_lt type.width_lt]
  cases type
  all_goals
    simp only [IntType.width] at hlt ⊢
    omega

theorem lt_width (hcount : count.toNat = y.toNat % type.width) : count.toNat < type.width :=
  hcount ▸ Nat.mod_lt _ type.width_pos

/-- A masked count is below the width, so the shift is defined. -/
theorem eval_shl (hcount : count.toNat = y.toNat % type.width) :
    BinOp.eval .shl x count = some (x <<< (y.toNat % type.width)) := by
  rw [BinOp.eval, if_pos (lt_width hcount), hcount]

theorem eval_lshr (hcount : count.toNat = y.toNat % type.width) :
    BinOp.eval .lshr x count = some (x >>> (y.toNat % type.width)) := by
  rw [BinOp.eval, if_pos (lt_width hcount), hcount]

theorem eval_ashr (hcount : count.toNat = y.toNat % type.width) :
    BinOp.eval .ashr x count = some (x.sshiftRight (y.toNat % type.width)) := by
  rw [BinOp.eval, if_pos (lt_width hcount), hcount]

/-- Shifting left multiplies, modulo the word. -/
theorem shiftLeft_eq (x : BitVec type.width) (n : Nat) : x <<< n = .ofNat _ (x.toNat * 2 ^ n) := by
  apply BitVec.eq_of_toNat_eq
  rw [BitVec.toNat_shiftLeft, BitVec.toNat_ofNat, Nat.shiftLeft_eq]

/-- Shifting right divides. -/
theorem ushiftRight_eq (x : BitVec type.width) (n : Nat) :
    x >>> n = .ofNat _ (x.toNat / 2 ^ n) := by
  rw [← Nat.shiftRight_eq_div_pow, ← BitVec.toNat_ushiftRight, BitVec.ofNat_toNat,
    BitVec.setWidth_eq]

/-- The arithmetic shift divides the signed number, rounded down. -/
theorem sshiftRight_eq (x : BitVec type.width) (n : Nat) :
    x.sshiftRight n = .ofInt _ (x.toInt / 2 ^ n) := by
  have hdiv : x.toInt / 2 ^ n = x.toInt >>> n := by
    rw [Int.shiftRight_eq_div_pow]
    norm_cast
  rw [hdiv, ← BitVec.toInt_sshiftRight, BitVec.ofInt_toInt]

/-- The only signed quotient that is too large is that of the least integer and -1. -/
theorem le_tdiv_iff (hy : y ≠ 0) :
    2 ^ (type.width - 1) ≤ x.toInt.tdiv y.toInt ↔ x = .intMin type.width ∧ y = -1 := by
  constructor
  · intro hle
    by_contra hne
    have hquotient := BitVec.toInt_sdiv_of_ne_or_ne x y (not_and_or.1 hne)
    have hlt := BitVec.toInt_le (x := x.sdiv y)
    rw [hquotient] at hlt
    exact absurd (Int.le_trans hle hlt) (by omega)
  · rintro ⟨rfl, rfl⟩
    cases type <;> decide

/-- Signed division truncates, where it does not overflow. -/
theorem sdiv_eq (h : ¬ (x = .intMin type.width ∧ y = -1)) :
    x.sdiv y = .ofInt _ (x.toInt.tdiv y.toInt) := by
  rw [← BitVec.toInt_sdiv_of_ne_or_ne x y (not_and_or.1 h), BitVec.ofInt_toInt]

/-- The remainder has the sign of the dividend, for all operands. -/
theorem srem_eq : x.srem y = .ofInt _ (x.toInt.tmod y.toInt) := by
  rw [← BitVec.toInt_srem, BitVec.ofInt_toInt]

/-- The remainder where the quotient is too large. -/
theorem ofInt_tmod_of_overflow (h : x = .intMin type.width ∧ y = -1) :
    BitVec.ofInt type.width (x.toInt.tmod y.toInt) = 0 := by
  obtain ⟨rfl, rfl⟩ := h
  cases type <;> decide

theorem udiv_eq : x / y = .ofNat _ (x.toNat / y.toNat) := by
  rw [← BitVec.toNat_udiv, BitVec.ofNat_toNat, BitVec.setWidth_eq]

theorem umod_eq : x % y = .ofNat _ (x.toNat % y.toNat) := by
  rw [← BitVec.toNat_umod, BitVec.ofNat_toNat, BitVec.setWidth_eq]

end Words

/-! ## Traps -/

section Traps

variable {condition : Operand} {intrinsic : RuntimeIntrinsic} {args : List Operand}

/-- The builder in the block that traps. -/
def trapping (condition : Operand) (b : Builder External) : Builder External :=
  (setInsertPoint b.function.length (b.fork condition)).2

theorem emitConditionalTrapIntrinsic_eq (condition : Operand) (intrinsic : RuntimeIntrinsic)
    (args : List Operand) (b : Builder External) :
    (emitConditionalTrapIntrinsic condition intrinsic args b).2 =
      (setInsertPoint (createBlock b).2.function.length (terminate .unreachable
        (emitRuntimeIntrinsic intrinsic args (trapping condition b)).2).2).2 :=
  rfl

/-- Both blocks behind the test of a trap are open. -/
theorem isOpen_trapping (h : b.IsOpen b.insertBlock) (condition : Operand) {i : Nat}
    (hi : i = b.function.length ∨ i = (createBlock b).2.function.length) :
    (trapping condition b).IsOpen i :=
  ⟨empty, getElem?_fork h condition hi, rfl⟩

theorem createBlock_ne (b : Builder External) :
    (createBlock b).2.function.length ≠ b.function.length := by
  rw [length_createBlock]
  exact Nat.succ_ne_self _

/-- The test adds code and takes none away. -/
theorem growing_emitConditionalTrapIntrinsic (condition : Operand) (intrinsic : RuntimeIntrinsic)
    (args : List Operand) : Growing (emitConditionalTrapIntrinsic condition intrinsic args) := by
  intro b h
  have hlength := length_createBlock b
  have htrapping := isOpen_trapping h condition (.inl rfl)
  rw [emitConditionalTrapIntrinsic_eq]
  refine ⟨?_, ?_⟩
  · refine Extends.setInsertPoint ?_ (by omega)
    refine Extends.terminate ?_ (htrapping.insert _) _
    exact ((extends_fork h condition).setInsertPoint le_rfl).insert htrapping _
  · have hend := isOpen_trapping h condition (.inr rfl)
    exact (hend.insert _).terminate (createBlock_ne b) _

/-- What is built behind the branch. -/
theorem le_emitConditionalTrapIntrinsic (h : b.IsOpen b.insertBlock) (condition : Operand)
    (intrinsic : RuntimeIntrinsic) (args : List Operand) :
    (emitRuntimeIntrinsic intrinsic args (trapping condition b)).2.function.Le
      (emitConditionalTrapIntrinsic condition intrinsic args b).2.function := by
  rw [emitConditionalTrapIntrinsic_eq]
  exact grows_terminate ((isOpen_trapping h condition (.inl rfl)).insert _) _

/-- A conditional trap whose condition does not hold changes nothing. -/
theorem emits_emitConditionalTrapIntrinsic (h : b.Here state)
    (hcondition : Holds b state condition (.bool false)) :
    Emits externals b state (emitConditionalTrapIntrinsic condition intrinsic args)
      fun _ state' _ => state'.slots = state.slots ∧ state'.world = state.world := by
  have hgrows := growing_emitConditionalTrapIntrinsic condition intrinsic args b h.isOpen
  have htrapping := isOpen_trapping h.isOpen condition (.inl rfl)
  refine ⟨{ state with block := (createBlock b).2.function.length, pc := 0 },
    ⟨hgrows, ?_, ?_, fun _ _ => rfl⟩, rfl, rfl⟩
  · exact ((grows_insert _ _ htrapping).le.trans
      (le_emitConditionalTrapIntrinsic h.isOpen condition intrinsic args)).runs
      (.single (step_fork h hcondition))
  · rw [emitConditionalTrapIntrinsic_eq]
    refine here_of_empty (?_ : _ = some empty) rfl rfl rfl rfl
    have hne := createBlock_ne b
    refine (getElem?_terminate_ne hne _).trans ((getElem?_insert_ne hne _).trans ?_)
    exact getElem?_fork h.isOpen condition (.inr rfl)

/-- A conditional trap whose condition holds calls the intrinsic. -/
theorem stops_emitConditionalTrapIntrinsic (h : b.Here state)
    (hcondition : Holds b state condition (.bool true)) {values : List Val} {cause : Cause}
    (hargs : HoldsAll b state args values)
    (hop : externals (.intrinsic intrinsic) values state.world = some (.error cause)) :
    Stops externals b state (emitConditionalTrapIntrinsic condition intrinsic args) cause := by
  have hgrows := growing_emitConditionalTrapIntrinsic condition intrinsic args b h.isOpen
  have hhere : (trapping condition b).Here { state with block := b.function.length, pc := 0 } :=
    here_of_empty (getElem?_fork h.isOpen condition (.inl rfl)) rfl rfl rfl rfl
  have hfork := extends_fork h.isOpen condition
  have hstops : Stops externals _ _ (insert (.external (.intrinsic intrinsic) args)) cause :=
    stops_external hhere (hargs.imp fun _ _ hholds => hholds.mono hfork.nextRegister fun _ _ => rfl) hop
  have hle := le_emitConditionalTrapIntrinsic h.isOpen condition intrinsic args
  refine ⟨hgrows, hle.ends (hstops.2.of_runs ?_)⟩
  exact hstops.1.le.runs (.single (step_fork h hcondition))

/-- What `divideByZeroOrIntegerOverflowTrap` does. -/
def TrapsOnDivision (externals : Externals External World Cause) : Prop :=
  ∀ world, externals (.intrinsic .divideByZeroOrIntegerOverflowTrap) [] world =
    some (.error .integerDivideByZeroOrIntegerOverflow)

/-- The code goes on if the condition does not hold, and stops for the division otherwise. -/
def Guards (externals : Externals External World Cause) (b : Builder External)
    (state : State World) (m : Build Unit) (traps : Prop) : Prop :=
  (¬ traps → Emits externals b state m
    fun _ state' _ => state'.slots = state.slots ∧ state'.world = state.world) ∧
  (traps → Stops externals b state m .integerDivideByZeroOrIntegerOverflow)

/-- The code goes to the trap when the condition holds, and past it otherwise. -/
theorem guards_emitConditionalTrapIntrinsic (htrap : TrapsOnDivision externals)
    (h : b.Here state) {traps : Prop} [Decidable traps]
    (hcondition : Holds b state condition (.bool (decide traps))) :
    Guards externals b state
      (emitConditionalTrapIntrinsic condition .divideByZeroOrIntegerOverflowTrap []) traps := by
  refine ⟨fun htraps => ?_, fun htraps => ?_⟩
  · rw [decide_eq_false htraps] at hcondition
    exact emits_emitConditionalTrapIntrinsic h hcondition
  · rw [decide_eq_true htraps] at hcondition
    exact stops_emitConditionalTrapIntrinsic h hcondition .nil (htrap state.world)

/-- A test may follow the code that computes its condition. -/
theorem Guards.after {traps : Prop} {n : Build Operand} {g : Operand → Build Unit} {value : Val}
    (h : Emits externals b state n (Computed state value))
    (hnext : ∀ operand b' state', Reaches externals b b' state state' →
      Holds b' state' operand value → Guards externals b' state' (g operand) traps) :
    Guards externals b state (n >>= g) traps := by
  refine ⟨fun htraps => h.bind fun operand b' state' hreaches hcomputed => ?_,
    fun htraps => h.stops fun operand b' state' hreaches hcomputed => ?_⟩
  · refine ((hnext operand b' state' hreaches hcomputed.holds).1 htraps).mono ?_
    exact fun _ _ _ hsame => ⟨hsame.1.trans hcomputed.slots, hsame.2.trans hcomputed.world⟩
  · exact (hnext operand b' state' hreaches hcomputed.holds).2 htraps

/-- A value that is computed unless the code before it traps. -/
theorem Guards.yields {traps : Prop} [Decidable traps] {m : Build Unit} {g : Build Operand}
    (h : Guards externals b state m traps) (hgrowing : Growing g) {value : Val}
    (hnext : ¬ traps → ∀ b' state', Reaches externals b b' state state' →
      Emits externals b' state' g (Computed state' value)) :
    Yields externals b state (m >>= fun _ => g)
      (if traps then .error .integerDivideByZeroOrIntegerOverflow else .ok value) := by
  by_cases htraps : traps
  · rw [if_pos htraps]
    exact (h.2 htraps).bind fun _ => hgrowing
  · rw [if_neg htraps]
    refine (h.1 htraps).bind fun _ b' state' hreaches hsame => ?_
    refine (hnext htraps b' state' hreaches).mono fun _ _ _ hcomputed => ?_
    exact hcomputed.after hsame.1 hsame.2

variable {type : IntType} {left right : Operand} {x y : BitVec type.width}

/-- The code traps exactly on a division by zero. -/
theorem guards_trapDivideByZero (htrap : TrapsOnDivision externals) (h : b.Here state)
    (hright : Holds b state right (.int type.width y)) :
    Guards externals b state (trapDivideByZero type right) (y = 0) :=
  .after (emits_icmp h .eq hright (holds_const b state _)) fun _ _ _ hreaches hisZero =>
    guards_emitConditionalTrapIntrinsic htrap hreaches.here hisZero

/-- Or also on the division that overflows. -/
theorem guards_trapDivideByZeroOrIntegerOverflow (htrap : TrapsOnDivision externals)
    (h : b.Here state) (hleft : Holds b state left (.int type.width x))
    (hright : Holds b state right (.int type.width y)) :
    Guards externals b state (trapDivideByZeroOrIntegerOverflow type left right)
      ((x = .intMin type.width ∧ y = -1) ∨ y = 0) := by
  refine .after (emits_icmp h .eq hleft (holds_const _ _ _)) fun _ _ _ hreaches hleast => ?_
  refine .after (emits_icmp hreaches.here .eq (hreaches.holds hright) (holds_const _ _ _))
    fun _ _ _ hreaches' hminusOne => ?_
  refine .after (emits_binary hreaches'.here .and (hreaches'.holds hleast) hminusOne
    (congrArg some (BitVec.ofBool_and_ofBool ..))) fun _ _ _ hreaches'' hoverflows => ?_
  have hright' := ((hreaches.trans hreaches').trans hreaches'').holds hright
  refine .after (emits_icmp hreaches''.here .eq hright' (holds_const _ _ _))
    fun _ _ _ hreaches₃ hisZero => ?_
  refine .after (emits_binary hreaches₃.here .or (hreaches₃.holds hoverflows) hisZero
    (congrArg some (BitVec.ofBool_or_ofBool ..))) fun _ _ _ hreaches₄ htraps => ?_
  refine guards_emitConditionalTrapIntrinsic htrap hreaches₄.here ?_
  rw [Bool.decide_or, Bool.decide_and]
  exact htraps

end Traps

/-! ## Shifts and rotations -/

section Shifts

variable {type : IntType} {left right : Operand} {x y : BitVec type.width}

/-- The mask of the width less one is the count modulo the width. -/
theorem emits_emitShiftCountMask (h : b.Here state)
    (hright : Holds b state right (.int type.width y)) :
    Emits externals b state (emitShiftCountMask type right)
      (Computed state (.int type.width (y &&& .ofNat type.width (type.width - 1)))) := by
  refine .compute (emits_cast h _ (holds_const _ _ _) (eval_zext (Nat.sub_le _ _)))
    fun _ _ _ hreaches hmask => ?_
  exact emits_binary hreaches.here .and (hreaches.holds hright) hmask rfl

theorem emits_emitBitWidthMinus (h : b.Here state)
    (hright : Holds b state right (.int type.width y)) :
    Emits externals b state (emitBitWidthMinus type right)
      (Computed state (.int type.width (.ofNat type.width type.width - y))) := by
  refine .compute (emits_cast h _ (holds_const _ _ _) (eval_zext le_rfl))
    fun _ _ _ hreaches hwidth => ?_
  exact emits_binary hreaches.here .sub hwidth (hreaches.holds hright) rfl

/-- A shift by a count that is masked. -/
theorem emits_shift (h : b.Here state) (hleft : Holds b state left (.int type.width x))
    (hright : Holds b state right (.int type.width y)) (op : BinOp) {z : BitVec type.width}
    (heval : ∀ count : BitVec type.width, count.toNat = y.toNat % type.width →
      op.eval x count = some z) :
    Emits externals b state
      (do
        let count ← emitShiftCountMask type right
        insert (.binary op left count))
      (Computed state (.int type.width z)) :=
  .compute (emits_emitShiftCountMask h hright) fun _ _ _ hreaches hcount =>
    emits_binary hreaches.here op (hreaches.holds hleft) hcount (heval _ (toNat_and_mask y))

/-- Rotations to both sides: one part is shifted by the count, the other by what it lacks to the
width. -/
theorem rotateLeft_eq (x y : BitVec type.width) :
    x.rotateLeft y.toNat = x <<< (y.toNat % type.width) |||
      x >>> ((type.width - y.toNat % type.width) % type.width) := by
  have hlt := Nat.mod_lt y.toNat type.width_pos
  rw [BitVec.rotateLeft_def]
  rcases Nat.eq_zero_or_pos (y.toNat % type.width) with hzero | hpos
  · rw [hzero, Nat.sub_zero, Nat.mod_self]
    simp [BitVec.ushiftRight_eq_zero]
  · rw [Nat.mod_eq_of_lt (by omega : type.width - y.toNat % type.width < type.width)]

/-- A rotation is two shifts, each by a count below the width. -/
theorem rotateRight_eq (x y : BitVec type.width) :
    x.rotateRight y.toNat = x <<< ((type.width - y.toNat % type.width) % type.width) |||
      x >>> (y.toNat % type.width) := by
  have hlt := Nat.mod_lt y.toNat type.width_pos
  rw [BitVec.rotateRight_def, BitVec.or_comm]
  rcases Nat.eq_zero_or_pos (y.toNat % type.width) with hzero | hpos
  · rw [hzero, Nat.sub_zero, Nat.mod_self]
    simp
  · rw [Nat.mod_eq_of_lt (by omega : type.width - y.toNat % type.width < type.width)]

/-- The rotation to the left, for every count. -/
theorem emits_emitRotl (h : b.Here state) (hleft : Holds b state left (.int type.width x))
    (hright : Holds b state right (.int type.width y)) :
    Emits externals b state (emitRotl type left right)
      (Computed state (.int type.width (x.rotateLeft y.toNat))) := by
  rw [rotateLeft_eq]
  refine .compute (emits_emitBitWidthMinus h hright) fun _ _ _ hreaches hrest => ?_
  refine .compute (emits_emitShiftCountMask hreaches.here (hreaches.holds hright))
    fun _ _ _ hreaches₁ hcount => ?_
  have hleft₁ := (hreaches.trans hreaches₁).holds hleft
  refine .compute (emits_binary hreaches₁.here .shl hleft₁ hcount (eval_shl (toNat_and_mask y)))
    fun _ _ _ hreaches₂ hpart => ?_
  refine .compute (emits_emitShiftCountMask hreaches₂.here
    ((hreaches₁.trans hreaches₂).holds hrest)) fun _ _ _ hreaches₃ hcount' => ?_
  refine .compute (emits_binary hreaches₃.here .lshr ((hreaches₂.trans hreaches₃).holds hleft₁)
    hcount' (eval_lshr (toNat_and_mask _))) fun _ _ _ hreaches₄ hpart' => ?_
  refine emits_binary hreaches₄.here .or ((hreaches₃.trans hreaches₄).holds hpart) hpart' ?_
  rw [toNat_width_sub_mod]
  rfl

/-- The rotation to the right, for every count. -/
theorem emits_emitRotr (h : b.Here state) (hleft : Holds b state left (.int type.width x))
    (hright : Holds b state right (.int type.width y)) :
    Emits externals b state (emitRotr type left right)
      (Computed state (.int type.width (x.rotateRight y.toNat))) := by
  rw [rotateRight_eq]
  refine .compute (emits_emitBitWidthMinus h hright) fun _ _ _ hreaches hrest => ?_
  refine .compute (emits_emitShiftCountMask hreaches.here hrest)
    fun _ _ _ hreaches₁ hcount => ?_
  have hleft₁ := (hreaches.trans hreaches₁).holds hleft
  refine .compute (emits_binary hreaches₁.here .shl hleft₁ hcount (eval_shl (toNat_and_mask _)))
    fun _ _ _ hreaches₂ hpart => ?_
  have hright₂ := ((hreaches.trans hreaches₁).trans hreaches₂).holds hright
  refine .compute (emits_emitShiftCountMask hreaches₂.here hright₂)
    fun _ _ _ hreaches₃ hcount' => ?_
  refine .compute (emits_binary hreaches₃.here .lshr ((hreaches₂.trans hreaches₃).holds hleft₁)
    hcount' (eval_lshr (toNat_and_mask y))) fun _ _ _ hreaches₄ hpart' => ?_
  refine emits_binary hreaches₄.here .or ((hreaches₃.trans hreaches₄).holds hpart) hpart' ?_
  rw [toNat_width_sub_mod]
  rfl

end Shifts

/-! ## The signed remainder -/

section Remainder

variable {type : IntType} {left right : Operand} {x y : BitVec type.width}

/-- What `emitSRem` emits from the branch on. -/
def finishSRem (type : IntType) (left right noOverflow : Operand)
    (preOverflowBlock noOverflowBlock endBlock : Nat) : Build Operand := do
  terminate (.condBr noOverflow noOverflowBlock endBlock)
  setInsertPoint noOverflowBlock
  let noOverflowValue ← insert (.binary .srem left right)
  terminate (.br endBlock)
  setInsertPoint endBlock
  let phi ← createPHI endBlock
  addIncoming endBlock type.zero preOverflowBlock
  addIncoming endBlock noOverflowValue noOverflowBlock
  return .reg phi

/-- What `emitSRem` emits behind the check of the divisor. -/
def emitCheckedSRem (type : IntType) (left right : Operand) : Build Operand := do
  let preOverflowBlock := (← get).insertBlock
  let noOverflowBlock ← createBlock
  let endBlock ← createBlock
  let isNotLeast ← insert (.icmp .ne left type.least)
  let isNotMinusOne ← insert (.icmp .ne right type.minusOne)
  let noOverflow ← insert (.binary .or isNotLeast isNotMinusOne)
  finishSRem type left right noOverflow preOverflowBlock noOverflowBlock endBlock

/-- The test for zero comes first. -/
theorem emitSRem_eq : emitSRem type left right =
    (trapDivideByZero type right >>= fun _ => emitCheckedSRem type left right) :=
  rfl

/-- The branch to two new blocks, with the remainder in one of them. -/
def forkSRem (type : IntType) (left right noOverflow : Operand) : Build Operand := fun b =>
  finishSRem type left right noOverflow b.insertBlock b.function.length
    (createBlock b).2.function.length (createBlock (createBlock b).2).2

/-- The blocks may as well be created after the condition has been computed. -/
theorem emitCheckedSRem_eq (h : b.insertBlock < b.function.length) :
    emitCheckedSRem type left right b = (do
      let isNotLeast ← insert (.icmp .ne left type.least)
      let isNotMinusOne ← insert (.icmp .ne right type.minusOne)
      let noOverflow ← insert (.binary .or isNotLeast isNotMinusOne)
      forkSRem type left right noOverflow : Build Operand) b := by
  have hlength (instr : Instr External) (b' : Builder External) :
      (insert instr b').2.function.length = b'.function.length :=
    length_modifyBlock b'.insertBlock _ b'
  have hcomm (instr : Instr External) (b' : Builder External)
      (hlt : b'.insertBlock < b'.function.length) :
      insert instr (createBlock (createBlock b').2).2 =
        ((insert instr b').1, (createBlock (createBlock (insert instr b').2).2).2) := by
    have hlt' : b'.insertBlock < (createBlock b').2.function.length :=
      hlt.trans_le (List.length_append ▸ Nat.le_add_right _ _)
    rw [insert_createBlock hlt', insert_createBlock hlt]
  let notLeast := insert (.icmp .ne left type.least) b
  let notMinusOne := insert (.icmp .ne right type.minusOne) notLeast.2
  let noOverflow := insert (.binary .or notLeast.1 notMinusOne.1) notMinusOne.2
  have hlt₁ : notLeast.2.insertBlock < notLeast.2.function.length := (hlength _ b).symm ▸ h
  have hlt₂ : notMinusOne.2.insertBlock < notMinusOne.2.function.length :=
    (hlength _ notLeast.2).symm ▸ hlt₁
  have hlength₃ : noOverflow.2.function.length = b.function.length :=
    (hlength _ _).trans ((hlength _ _).trans (hlength _ _))
  have hinserts : insert (.binary .or notLeast.1 notMinusOne.1)
      (insert (.icmp .ne right type.minusOne)
        (insert (.icmp .ne left type.least) (createBlock (createBlock b).2).2).2).2 =
      (noOverflow.1, (createBlock (createBlock noOverflow.2).2).2) := by
    rw [hcomm _ b h, hcomm _ notLeast.2 hlt₁, hcomm _ notMinusOne.2 hlt₂]
  calc emitCheckedSRem type left right b
    _ = finishSRem type left right noOverflow.1 b.insertBlock b.function.length
          (createBlock b).2.function.length
          (insert (.binary .or notLeast.1 notMinusOne.1)
            (insert (.icmp .ne right type.minusOne)
              (insert (.icmp .ne left type.least)
                (createBlock (createBlock b).2).2).2).2).2 := rfl
    _ = forkSRem type left right noOverflow.1 noOverflow.2 := by
      rw [hinserts, forkSRem, length_createBlock, length_createBlock, hlength₃]
      rfl

/-- The builder behind the block with the remainder. -/
def remaindered (left right noOverflow : Operand) (b : Builder External) : Builder External :=
  (terminate (.br (createBlock b).2.function.length)
    (insert (.binary .srem left right)
      (setInsertPoint b.function.length (b.fork noOverflow)).2).2).2

theorem extends_remaindered (h : b.IsOpen b.insertBlock) (left right noOverflow : Operand) :
    b.Extends (remaindered left right noOverflow b) := by
  have hopen : (setInsertPoint b.function.length (b.fork noOverflow)).2.IsOpen
      b.function.length := ⟨empty, getElem?_fork h noOverflow (.inl rfl), rfl⟩
  have hfork := (extends_fork h noOverflow).setInsertPoint le_rfl
  exact (hfork.insert hopen _).terminate (hopen.insert _) _

/-- The block that computes the remainder does nothing else. -/
theorem getElem?_remaindered (h : b.IsOpen b.insertBlock) (left right noOverflow : Operand) :
    (remaindered left right noOverflow b).function[b.function.length]? =
        some ⟨none, [(b.nextRegister, .binary .srem left right)],
          some (.br (createBlock b).2.function.length)⟩ ∧
      (remaindered left right noOverflow b).function[(createBlock b).2.function.length]? =
        some empty := by
  refine ⟨?_, ?_⟩
  · refine getElem?_terminate_self (?_ : _ = some ⟨none, [(b.nextRegister, _)], none⟩) _
    exact getElem?_insert_self (b := (setInsertPoint b.function.length (b.fork noOverflow)).2)
      (getElem?_fork h noOverflow (.inl rfl)) _
  · refine (getElem?_terminate_ne (createBlock_ne b) _).trans ?_
    refine (getElem?_insert_ne (createBlock_ne b) _).trans ?_
    exact getElem?_fork h noOverflow (.inr rfl)

/-- The block the two branches join in. -/
theorem getElem?_forkSRem (h : b.IsOpen b.insertBlock) (left right noOverflow : Operand) :
    (forkSRem type left right noOverflow b).2.function[(createBlock b).2.function.length]? =
      some ⟨some ⟨b.nextRegister + 1, [(b.insertBlock, type.zero),
        (b.function.length, .reg b.nextRegister)]⟩, [], none⟩ := by
  have hstart := (getElem?_remaindered h left right noOverflow).2
  exact getElem?_modifyBlock_self (getElem?_modifyBlock_self
    (getElem?_modifyBlock_self (b := (setInsertPoint (createBlock b).2.function.length
      (remaindered left right noOverflow b)).2) hstart _) _) _

theorem getElem?_forkSRem_ne {i : Nat} (hne : i ≠ (createBlock b).2.function.length)
    (left right noOverflow : Operand) : (forkSRem type left right noOverflow b).2.function[i]? =
      (remaindered left right noOverflow b).function[i]? :=
  (getElem?_modifyBlock_ne hne.symm _).trans ((getElem?_modifyBlock_ne hne.symm _).trans
    (getElem?_modifyBlock_ne hne.symm _))

theorem growing_forkSRem (type : IntType) (left right noOverflow : Operand) :
    Growing (forkSRem type left right noOverflow) := by
  intro b h
  have hle : b.function.length ≤ (createBlock b).2.function.length :=
    length_createBlock b ▸ Nat.le_succ _
  have hremaindered := extends_remaindered h left right noOverflow
  exact ⟨(((hremaindered.setInsertPoint hle).createPHI hle).addIncoming hle _ _).addIncoming
    hle _ _, _, getElem?_forkSRem h left right noOverflow, rfl⟩

/-- Where the division would overflow, the PHI takes the zero of the block before. -/
theorem emits_forkSRem (h : b.Here state) {noOverflow : Operand} {fits : Bool}
    (hcondition : Holds b state noOverflow (.bool fits))
    (hleft : Holds b state left (.int type.width x))
    (hright : Holds b state right (.int type.width y)) {z : BitVec type.width}
    (hz : if fits then BinOp.eval .srem x y = some z else z = 0) :
    Emits externals b state (forkSRem type left right noOverflow)
      (Computed state (.int type.width z)) := by
  have hlt := h.isOpen.lt
  have hlength := length_createBlock b
  have hgrows := growing_forkSRem type left right noOverflow b h.isOpen
  obtain ⟨block, hblock, -, hpc⟩ := h.point
  set function := (forkSRem type left right noOverflow b).2.function with hfunction
  have hjoin : function[(createBlock b).2.function.length]? = _ :=
    getElem?_forkSRem h.isOpen left right noOverflow
  have hvalue : function[b.function.length]? = _ :=
    (getElem?_forkSRem_ne (createBlock_ne b).symm left right noOverflow).trans
      (getElem?_remaindered h.isOpen left right noOverflow).1
  have hstart : function[state.block]? = some { block with
      terminator := some (.condBr noOverflow b.function.length
        (createBlock b).2.function.length) } := by
    rw [h.block, hfunction, getElem?_forkSRem_ne (by omega), remaindered,
      getElem?_terminate_ne hlt.ne, getElem?_insert_ne hlt.ne]
    exact getElem?_fork_self hblock noOverflow
  have hbranch : step externals function state = function.enter
      (if fits then b.function.length else (createBlock b).2.function.length) state :=
    (step_of_terminator hstart hpc rfl).trans (exec_condBr hcondition.eval)
  -- both ways end with the PHI node, which is handed the remainder
  have hfinish (last : State World)
      (hruns : Runs externals function state { last with
        block := (createBlock b).2.function.length
        pc := 0
        regs := Function.update last.regs (b.nextRegister + 1) (some (.int type.width z)) })
      (hregs : ∀ r < b.nextRegister, last.regs r = state.regs r)
      (hslots : last.slots = state.slots) (hworld : last.world = state.world) :
      Emits externals b state (forkSRem type left right noOverflow)
        (Computed state (.int type.width z)) := by
    refine ⟨_, ⟨hgrows, hruns, ⟨rfl, _, hjoin, rfl, rfl⟩, fun r hr => ?_⟩, ⟨?_, ?_⟩, hslots, hworld⟩
    · exact (Function.update_of_ne (by omega) _ _).trans (hregs r hr)
    · rintro _ ⟨⟩
      exact Nat.lt_succ_self _
    · exact Function.update_self _ _ _
  cases fits with
  | false =>
    refine hfinish state (.single (hbranch.trans ?_)) (fun _ _ => rfl) rfl rfl
    obtain rfl : z = 0 := hz
    refine enter_of_incoming hjoin rfl (?_ : _ = some type.zero) rfl
    simp [h.block]
  | true =>
    rw [if_pos rfl] at hz
    let value := { state with block := b.function.length, pc := 0 }
    have hexec : (Instr.binary .srem left right : Instr External).pure? state.regs =
        some (.int type.width z) := by
      rw [pure?_binary .srem hleft.eval hright.eval, hz, Option.map_some]
    refine hfinish (value.define b.nextRegister (some (.int type.width z))) ?_
      (fun r hr => define_regs_of_lt hr) rfl rfl
    refine .head (hbranch.trans (enter_of_phi_none hvalue rfl state)) ?_
    refine .head ((step_of_instr (hvalue : _[value.block]? = _) rfl).trans (exec_of_pure? hexec)) ?_
    refine .single ((step_of_terminator hvalue rfl rfl).trans ?_)
    refine enter_of_incoming hjoin rfl (?_ : _ = some (.reg b.nextRegister)) ?_
    · simp [State.define, List.lookup_cons, beq_eq_false_iff_ne.2 hlt.ne']
    · exact Function.update_self _ _ _

/-- The remainder goes around the division that overflows. -/
theorem emits_emitCheckedSRem (h : b.Here state) (hleft : Holds b state left (.int type.width x))
    (hright : Holds b state right (.int type.width y)) (hy : y ≠ 0) :
    Emits externals b state (emitCheckedSRem type left right)
      (Computed state (.int type.width (.ofInt _ (x.toInt.tmod y.toInt)))) := by
  refine .congr (emitCheckedSRem_eq h.isOpen.lt) ?_
  refine .compute (emits_icmp h .ne hleft (holds_const _ _ (.int type.width (.intMin _))))
    fun _ _ _ hreaches hnotLeast => ?_
  refine .compute (emits_icmp hreaches.here .ne (hreaches.holds hright)
    (holds_const _ _ (.int type.width (-1)))) fun _ _ _ hreaches' hnotMinusOne => ?_
  refine .compute (emits_binary hreaches'.here .or (hreaches'.holds hnotLeast) hnotMinusOne
    (congrArg some (BitVec.ofBool_or_ofBool ..))) fun _ _ _ hreaches'' hnoOverflow => ?_
  have hholds := (hreaches.trans hreaches').trans hreaches''
  refine emits_forkSRem hreaches''.here hnoOverflow (hholds.holds hleft) (hholds.holds hright) ?_
  by_cases hoverflow : x = .intMin type.width ∧ y = -1
  · have hfits : (Pred.ne.eval x (.intMin type.width) || Pred.ne.eval y (-1)) = false := by
      simp [Pred.eval, hoverflow]
    rw [hfits, if_neg Bool.false_ne_true, ofInt_tmod_of_overflow hoverflow]
  · have hfits : (Pred.ne.eval x (.intMin type.width) || Pred.ne.eval y (-1)) = true := by
      rcases not_and_or.1 hoverflow with hne | hne
      · exact Bool.or_eq_true_iff.2 (.inl (decide_eq_true hne))
      · exact Bool.or_eq_true_iff.2 (.inr (decide_eq_true hne))
    rw [hfits, if_pos rfl]
    exact (if_neg (not_or.2 ⟨hy, hoverflow⟩)).trans (congrArg some srem_eq)

theorem growing_emitCheckedSRem (type : IntType) (left right : Operand) :
    Growing (emitCheckedSRem type left right) := by
  intro b h
  rw [emitCheckedSRem_eq h.lt]
  refine Growing.bind (grows_insert _) (fun _ => ?_) b h
  refine (grows_insert _).bind fun _ => (grows_insert _).bind fun _ => ?_
  exact growing_forkSRem type left right _

end Remainder

/-! ## All operators -/

section Operators

variable {type : IntType} {left right : Operand} {x y : BitVec type.width}

/-- The code of a binary operator computes what the operator does, and stops where it traps. -/
theorem yields_emitIntBinary (htrap : TrapsOnDivision externals) (h : b.Here state)
    (hleft : Holds b state left (.int type.width x))
    (hright : Holds b state right (.int type.width y)) (op : IntBinary) :
    Yields externals b state (emitIntBinary type left right op)
      ((op.evaluate x y).map (.int type.width)) := by
  have hmap (traps : Prop) [Decidable traps] (z : BitVec type.width) :
      (if traps then .error .integerDivideByZeroOrIntegerOverflow else .ok z :
        Except Cause (BitVec type.width)).map (Val.int type.width) =
      if traps then .error .integerDivideByZeroOrIntegerOverflow
      else .ok (Val.int type.width z) := by
    split <;> rfl
  cases op with
  | add => exact emits_binary h .add hleft hright rfl
  | sub => exact emits_binary h .sub hleft hright rfl
  | mul => exact emits_binary h .mul hleft hright rfl
  | and => exact emits_binary h .and hleft hright rfl
  | or => exact emits_binary h .or hleft hright rfl
  | xor => exact emits_binary h .xor hleft hright rfl
  | rotr => exact emits_emitRotr h hleft hright
  | rotl => exact emits_emitRotl h hleft hright
  | divS =>
    have hguards := guards_trapDivideByZeroOrIntegerOverflow htrap h hleft hright
    have htraps : (x = .intMin type.width ∧ y = -1) ∨ y = 0 ↔
        y = 0 ∨ 2 ^ (type.width - 1) ≤ x.toInt.tdiv y.toInt := by
      by_cases hy : y = 0
      · exact ⟨fun _ => .inl hy, fun _ => .inr hy⟩
      · rw [le_tdiv_iff hy]
        exact or_comm
    rw [IntBinary.evaluate, hmap]
    simp only [htraps] at hguards
    refine hguards.yields (grows_insert _) fun hfits b' state' hreaches => ?_
    refine emits_binary hreaches.here .sdiv (hreaches.holds hleft) (hreaches.holds hright) ?_
    have hnot := mt htraps.1 hfits
    exact (if_neg (mt Or.symm hnot)).trans (congrArg some (sdiv_eq (not_or.1 hnot).1))
  | remS =>
    rw [IntBinary.evaluate, hmap, emitIntBinary, emitSRem_eq]
    refine (guards_trapDivideByZero htrap h hright).yields
      (growing_emitCheckedSRem type left right) fun hy b' state' hreaches => ?_
    exact emits_emitCheckedSRem hreaches.here (hreaches.holds hleft) (hreaches.holds hright) hy
  | divU =>
    rw [IntBinary.evaluate, hmap]
    refine (guards_trapDivideByZero htrap h hright).yields (grows_insert _)
      fun hy b' state' hreaches => ?_
    refine emits_binary hreaches.here .udiv (hreaches.holds hleft) (hreaches.holds hright) ?_
    exact (if_neg hy).trans (congrArg some udiv_eq)
  | remU =>
    rw [IntBinary.evaluate, hmap]
    refine (guards_trapDivideByZero htrap h hright).yields (grows_insert _)
      fun hy b' state' hreaches => ?_
    refine emits_binary hreaches.here .urem (hreaches.holds hleft) (hreaches.holds hright) ?_
    exact (if_neg hy).trans (congrArg some umod_eq)
  | shl => exact emits_shift h hleft hright .shl fun _ hcount =>
      (eval_shl hcount).trans (congrArg some (shiftLeft_eq x _))
  | shrS => exact emits_shift h hleft hright .ashr fun _ hcount =>
      (eval_ashr hcount).trans (congrArg some (sshiftRight_eq x _))
  | shrU => exact emits_shift h hleft hright .lshr fun _ hcount =>
      (eval_lshr hcount).trans (congrArg some (ushiftRight_eq x _))

theorem emits_coerceBoolToI32 (h : b.Here state) {holds : Bool}
    (hleft : Holds b state left (.bool holds)) :
    Emits externals b state (coerceBoolToI32 left) (Computed state (ofTest holds)) :=
  emits_cast h _ hleft (by cases holds <;> rfl)

/-- A comparison is a bit, widened to a word. -/
theorem emits_emitIntCompare (h : b.Here state) (hleft : Holds b state left (.int type.width x))
    (hright : Holds b state right (.int type.width y)) (op : IntCompare) :
    Emits externals b state (emitIntCompare left right op)
      (Computed state (ofTest (op.evaluate x y))) := by
  have hpred : op.pred.eval x y = op.evaluate x y := by cases op <;> rfl
  rw [← hpred]
  exact .compute (emits_icmp h op.pred hleft hright) fun _ _ _ hreaches hholds =>
    emits_coerceBoolToI32 hreaches.here hholds

theorem emits_emitIntUnary (h : b.Here state) (hleft : Holds b state left (.int type.width x))
    (op : IntUnary) :
    Emits externals b state (emitIntUnary type left op) (Computed state (op.evaluate x)) := by
  cases op with
  | clz => exact emits_count h .ctlz hleft
  | ctz => exact emits_count h .cttz hleft
  | popcnt => exact emits_count h .ctpop hleft
  | eqz =>
    exact .compute (emits_icmp h .eq hleft (holds_const _ _ _)) fun _ _ _ hreaches hisZero =>
      emits_coerceBoolToI32 hreaches.here hisZero

/-- **Code of integer operators.** From any point of a function, the code of an integer operator
yields what WebAssembly defines, for all operands, and stops where the operator traps. -/
theorem integer_code_exact (htrap : TrapsOnDivision externals) (h : b.Here state)
    (hleft : Holds b state left (.int type.width x))
    (hright : Holds b state right (.int type.width y)) :
    (∀ op, Yields externals b state (emitIntBinary type left right op)
      ((op.evaluate x y).map (.int type.width))) ∧
    (∀ op, Emits externals b state (emitIntCompare left right op)
      (Computed state (ofTest (op.evaluate x y)))) ∧
    ∀ op, Emits externals b state (emitIntUnary type left op) (Computed state (op.evaluate x)) :=
  ⟨yields_emitIntBinary htrap h hleft hright, emits_emitIntCompare h hleft hright,
    emits_emitIntUnary h hleft⟩

/-- A function with one empty block. -/
def blankBuilder : Builder External := ⟨[empty], 0, 0⟩

def blankState : State Unit := ⟨0, 0, fun _ => none, fun _ => none, ()⟩

/-- Nothing can be called but `divideByZeroOrIntegerOverflowTrap`. -/
def divisionTrap : Externals External Unit Cause
  | .intrinsic .divideByZeroOrIntegerOverflowTrap, [], _ =>
    some (.error .integerDivideByZeroOrIntegerOverflow)
  | _, _, _ => none

/-- The remainder of the least integer and -1 is 0, and their quotient traps. -/
theorem integer_code_exact_sample :
    Yields divisionTrap blankBuilder blankState
        (emitIntBinary .i32 (.const (.int 32 0x80000000)) (.const (.int 32 (-1))) .remS)
        (.ok (.int 32 0)) ∧
      Yields divisionTrap blankBuilder blankState
        (emitIntBinary .i32 (.const (.int 32 0x80000000)) (.const (.int 32 (-1))) .divS)
        (.error .integerDivideByZeroOrIntegerOverflow) := by
  have hleast : Holds blankBuilder blankState _ (.int IntType.i32.width 0x80000000) :=
    holds_const _ _ _
  have hminusOne : Holds blankBuilder blankState _ (.int IntType.i32.width (-1)) :=
    holds_const _ _ _
  have hexact := (integer_code_exact (fun _ => rfl : TrapsOnDivision divisionTrap)
    ⟨rfl, empty, rfl, rfl, rfl⟩ hleast hminusOne).1
  exact ⟨hexact .remS, hexact .divS⟩

end Operators

end LLVMJIT

end FractalWasm
