import FractalWasm.Runtime.GrowMemory

/-!
# Pointers from a contract

`wavm.hpp`: an intrinsic is given addresses of linear memory as 32-bit numbers and hands native
pointers on. `array_ptr_impl` and `null_terminated_ptr_impl` are the two places where an address is
compared with the size of the memory.

**What is wanted** (`ArrayInside`, `StringInside`): the elements lie in the memory; the string has
its zero in it.

**What the code does** (`arrayPtrImpl`, `nullTerminatedPtrImpl`): it hands on the pointer exactly
then, and throws otherwise. The scan for the zero reads no byte behind the memory.
-/

namespace FractalWasm.Wavm

open FractalWasm.Runtime IR Serialization

/-- What the templates ask of a native type `T`: `sizeof(T)`, `alignof(T)` and `is_const<T>`. -/
structure NativeType where
  size : Nat
  alignment : Nat
  isConst : Bool
  size_pos : 0 < size

/-- `char`, or `const char` -/
def NativeType.char (isConst : Bool) : NativeType := ⟨1, 1, isConst, Nat.one_pos⟩

/-- `running_instance_context`. A memory is known by its number. -/
structure RunningInstanceContext (σ : Type) where
  memory : Option Nat
  applyCtx : σ

/-- What an intrinsic works on: the memories with their base addresses, the running instance, and the
copies of misaligned objects that are on the native stack. -/
structure Host (σ : Type) where
  memories : Nat → MemoryInstance
  baseAddress : Nat → Nat
  context : RunningInstanceContext σ
  copies : List (Nat → UInt8)

/-- A native pointer into a memory. -/
structure LinearPtr where
  memory : Nat
  offset : Nat
  deriving DecidableEq, Repr

/-- `Runtime::causeException(Exception::Cause::accessViolation)` -/
def accessViolation {α : Type} : Except Exception α := .error (.runtime .accessViolation)

/-- `IR::numBytesPerPage * Runtime::getMemoryNumPages(mem)` -/
def memTotal (memory : MemoryInstance) : Nat := wasmPageSize * memory.numPages

variable {σ : Type}

/-- `array_ptr_impl` -/
def arrayPtrImpl (T : NativeType) (host : Host σ) (ptr : UInt32) (length : UInt64) :
    Except Exception LinearPtr :=
  match host.context.memory with
  | none => accessViolation
  | some mem =>
    let memTotal := memTotal (host.memories mem)
    if memTotal ≤ ptr.toNat ∨ (memTotal - ptr.toNat) / T.size < length.toNat then accessViolation
    else .ok ⟨mem, ptr.toNat⟩

/-- The loop of `null_terminated_ptr_impl` from `p` on, when `top_of_memory` is so many bytes ahead;
the second component is the addresses it reads. -/
def scanForNull (contents : Nat → UInt8) : (numBytes p : Nat) → Bool × List Nat
  | 0, _ => (false, [])
  | numBytes + 1, p =>
    if contents p = 0 then (true, [p])
    else
      let (found, reads) := scanForNull contents numBytes (p + 1)
      (found, p :: reads)

/-- `null_terminated_ptr_impl`, and the addresses it reads. -/
def nullTerminatedPtrImpl (host : Host σ) (ptr : UInt32) : Except Exception LinearPtr × List Nat :=
  match host.context.memory with
  | none => (accessViolation, [])
  | some mem =>
    let memory := host.memories mem
    let (found, reads) := scanForNull memory.contents (memTotal memory - ptr.toNat) ptr.toNat
    (if found then .ok ⟨mem, ptr.toNat⟩ else accessViolation, reads)

/-! ## Inside of the memory -/

/-- So many objects from `ptr` on are inside of the running instance's memory, and `ptr` is. -/
def ArrayInside (T : NativeType) (host : Host σ) (ptr : UInt32) (length : UInt64) (mem : Nat) :
    Prop :=
  host.context.memory = some mem ∧ ptr.toNat < memTotal (host.memories mem) ∧
    ptr.toNat + length.toNat * T.size ≤ memTotal (host.memories mem)

/-- A byte of the running instance's memory at `ptr` or behind it is zero. -/
def StringInside (host : Host σ) (ptr : UInt32) (mem : Nat) : Prop :=
  host.context.memory = some mem ∧ ∃ address, ptr.toNat ≤ address ∧
    address < memTotal (host.memories mem) ∧ (host.memories mem).contents address = 0

variable {T : NativeType} {host : Host σ} {ptr : UInt32} {length : UInt64}

/-- Dividing by the size of an object is as good as multiplying. -/
theorem arrayFits_iff {total address count size : Nat} (hsize : 0 < size) :
    ¬ (total ≤ address ∨ (total - address) / size < count) ↔
      address < total ∧ address + count * size ≤ total := by
  rw [not_or, Nat.not_le, Nat.not_lt, Nat.le_div_iff_mul_le hsize]
  constructor
  · rintro ⟨hlt, hle⟩
    exact ⟨hlt, by omega⟩
  · rintro ⟨hlt, hle⟩
    exact ⟨hlt, by omega⟩

theorem arrayPtrImpl_of_inside {mem : Nat} (h : ArrayInside T host ptr length mem) :
    arrayPtrImpl T host ptr length = .ok ⟨mem, ptr.toNat⟩ := by
  obtain ⟨hmem, hfits⟩ := h
  unfold arrayPtrImpl
  rw [hmem]
  exact if_neg ((arrayFits_iff T.size_pos).2 hfits)

theorem arrayPtrImpl_of_not_inside (h : ∀ mem, ¬ ArrayInside T host ptr length mem) :
    arrayPtrImpl T host ptr length = accessViolation := by
  unfold arrayPtrImpl
  cases hmem : host.context.memory with
  | none => rfl
  | some mem =>
    apply if_pos
    apply Decidable.byContradiction
    intro hfits
    exact h mem ⟨hmem, (arrayFits_iff T.size_pos).1 hfits⟩

theorem scanForNull_found (contents : Nat → UInt8) (numBytes p : Nat) :
    (scanForNull contents numBytes p).1 = true ↔
      ∃ address, p ≤ address ∧ address < p + numBytes ∧ contents address = 0 := by
  induction numBytes generalizing p with
  | zero =>
    constructor
    · intro hfound
      cases hfound
    · rintro ⟨address, hle, hlt, -⟩
      omega
  | succ numBytes ih =>
    unfold scanForNull
    split
    · next hzero => exact ⟨fun _ => ⟨p, Nat.le_refl p, by omega, hzero⟩, fun _ => rfl⟩
    · next hzero =>
      refine (ih (p + 1)).trans ?_
      constructor
      · rintro ⟨address, hle, hlt, hcontents⟩
        exact ⟨address, by omega, by omega, hcontents⟩
      · rintro ⟨address, hle, hlt, hcontents⟩
        have hne : address ≠ p := by
          rintro rfl
          exact hzero hcontents
        exact ⟨address, by omega, by omega, hcontents⟩

theorem scanForNull_reads (contents : Nat → UInt8) (numBytes p : Nat) :
    ∀ address ∈ (scanForNull contents numBytes p).2, p ≤ address ∧ address < p + numBytes := by
  induction numBytes generalizing p with
  | zero =>
    intro address hmem
    cases hmem
  | succ numBytes ih =>
    intro address hmem
    unfold scanForNull at hmem
    split at hmem
    · rw [List.mem_singleton.1 hmem]
      omega
    · rcases List.mem_cons.1 hmem with rfl | hrest
      · omega
      · have hbounds := ih (p + 1) address hrest
        omega

/-- The bytes the loop looks at are the bytes from the pointer to the end of the memory. -/
theorem bytes_ahead {total p address : Nat} :
    p ≤ address ∧ address < p + (total - p) ↔ p ≤ address ∧ address < total := by omega

theorem nullTerminatedPtrImpl_of_inside {mem : Nat} (h : StringInside host ptr mem) :
    (nullTerminatedPtrImpl host ptr).1 = .ok ⟨mem, ptr.toNat⟩ := by
  obtain ⟨hmem, address, hle, hlt, hzero⟩ := h
  unfold nullTerminatedPtrImpl
  rw [hmem]
  apply if_pos
  rw [scanForNull_found]
  exact ⟨address, hle, (bytes_ahead.2 ⟨hle, hlt⟩).2, hzero⟩

theorem nullTerminatedPtrImpl_of_not_inside (h : ∀ mem, ¬ StringInside host ptr mem) :
    (nullTerminatedPtrImpl host ptr).1 = accessViolation := by
  unfold nullTerminatedPtrImpl
  cases hmem : host.context.memory with
  | none => rfl
  | some mem =>
    apply if_neg
    rw [scanForNull_found]
    rintro ⟨address, hle, hlt, hzero⟩
    exact h mem ⟨hmem, address, hle, (bytes_ahead.1 ⟨hle, hlt⟩).2, hzero⟩

theorem nullTerminatedPtrImpl_reads {address : Nat}
    (hread : address ∈ (nullTerminatedPtrImpl host ptr).2) :
    ∃ mem, host.context.memory = some mem ∧ ptr.toNat ≤ address ∧
      address < memTotal (host.memories mem) := by
  unfold nullTerminatedPtrImpl at hread
  cases hmem : host.context.memory with
  | none =>
    rw [hmem] at hread
    cases hread
  | some mem =>
    rw [hmem] at hread
    exact ⟨mem, rfl, bytes_ahead.1 (scanForNull_reads _ _ _ address hread)⟩

/-- **Pointer parameters.** An array is let through exactly if it is inside of the memory, and a
string exactly if it ends there; the pointer is to where the contract says. Nothing past the memory
is read to find that out, and what is refused is an access violation. -/
theorem pointer_parameters_exact (T : NativeType) (host : Host σ) (ptr size : UInt32) :
    (∀ mem, ArrayInside T host ptr (uptrOfI32 size) mem →
      arrayPtrImpl T host ptr (uptrOfI32 size) = .ok ⟨mem, ptr.toNat⟩) ∧
    ((∀ mem, ¬ ArrayInside T host ptr (uptrOfI32 size) mem) →
      arrayPtrImpl T host ptr (uptrOfI32 size) = .error (.runtime .accessViolation)) ∧
    (∀ mem, StringInside host ptr mem →
      (nullTerminatedPtrImpl host ptr).1 = .ok ⟨mem, ptr.toNat⟩) ∧
    ((∀ mem, ¬ StringInside host ptr mem) →
      (nullTerminatedPtrImpl host ptr).1 = .error (.runtime .accessViolation)) ∧
    (∀ address ∈ (nullTerminatedPtrImpl host ptr).2, ∃ mem,
      host.context.memory = some mem ∧ address < memTotal (host.memories mem)) := by
  refine ⟨fun mem => arrayPtrImpl_of_inside, arrayPtrImpl_of_not_inside,
    fun mem => nullTerminatedPtrImpl_of_inside, nullTerminatedPtrImpl_of_not_inside, ?_⟩
  intro address hread
  obtain ⟨mem, hmem, -, hlt⟩ := nullTerminatedPtrImpl_reads hread
  exact ⟨mem, hmem, hlt⟩

end FractalWasm.Wavm
