import FractalWasm.Wasmlib.Pointers
import Mathlib.Logic.Function.Basic

/-!
# Pointers and references to an object

A native method that asks for a `T *` or a `T &` gets a pointer into linear memory or, where that is
not aligned, to a copy of the object, which is copied back when the method returns. The check in
front of that is `array_ptr_impl` for a pointer; for a reference it is written out once more.

**The check** (`referenceBase_eq_ok`, `objectInside_iff`): that of a reference is strict at the end of
the memory, where that of a pointer is not.

**The copy** (`seesObject_passObjects_iff`): a method makes of a copy what it makes of the object,
unless it throws behind a write (`KeepsWrites`). Then the object keeps the write and the copy is gone.

`reference_same_as_pointer_iff` puts them together.
-/

namespace FractalWasm.Wavm

open FractalWasm.Runtime IR Serialization

/-- What a native parameter points to. -/
inductive Place where
  | linear (ptr : LinearPtr)
  | copy (index : Nat)
  deriving DecidableEq, Repr

/-- `contents` with so many bytes of `object` from `base` on. -/
def overwrite (contents : Nat → UInt8) (base numBytes : Nat) (object : Nat → UInt8) : Nat → UInt8 :=
  fun address =>
    if base ≤ address ∧ address < base + numBytes then object (address - base)
    else contents address

namespace Host

variable {σ : Type}

/-- The bytes a native pointer points to. -/
def bytes (host : Host σ) : Place → Nat → UInt8
  | .linear ptr, i => (host.memories ptr.memory).contents (ptr.offset + i)
  | .copy index, i => (host.copies.getD index fun _ => 0) i

/-- So many bytes written through a native pointer. -/
def write (host : Host σ) (place : Place) (numBytes : Nat) (object : Nat → UInt8) : Host σ :=
  match place with
  | .linear ptr =>
    let memory := host.memories ptr.memory
    { host with
      memories := Function.update host.memories ptr.memory
        { memory with contents := overwrite memory.contents ptr.offset numBytes object } }
  | .copy index =>
    { host with
      copies := host.copies.set index
        (overwrite (host.copies.getD index fun _ => 0) 0 numBytes object) }

/-- The host with one copy more on the stack. -/
def push (host : Host σ) (copy : Nat → UInt8) : Host σ :=
  { host with copies := host.copies ++ [copy] }

/-- The host without the copies from `index` on. -/
def pop (host : Host σ) (index : Nat) : Host σ :=
  { host with copies := host.copies.take index }

end Host

/-- A native function: what it returns or throws, and the host it leaves. -/
abbrev Native (σ α : Type) := Host σ → Except Exception α × Host σ

variable {σ α : Type}

/-- What happens behind a method that was given a copy. Objects that are not `const` are copied back
if it returns. -/
def copyBack (T : NativeType) (numBytes : Nat) (base : LinearPtr) (index : Nat)
    (outcome : Except Exception α × Host σ) : Except Exception α × Host σ :=
  let object := outcome.2.bytes (.copy index)
  let host := outcome.2.pop index
  match outcome.1 with
  | .ok ret => (.ok ret, if T.isConst then host else host.write (.linear base) numBytes object)
  | .error e => (.error e, host)

/-- The part of `translate_one` behind the checks: `Then` is given a pointer to the objects or, if
they are misaligned, to a copy of so many bytes. -/
def passObjects (T : NativeType) (numBytes : Nat) (base : LinearPtr) (Then : Place → Native σ α) :
    Native σ α := fun host =>
  if (host.baseAddress base.memory + base.offset) % T.alignment ≠ 0 then
    let index := host.copies.length
    let copy := fun i => if i < numBytes then host.bytes (.linear base) i else 0
    copyBack T numBytes base index (Then (.copy index) (host.push copy))
  else Then (.linear base) host

/-- `translate_one` of a `T *` -/
def translatePointer (T : NativeType) (ptr : UInt32) (Then : Place → Native σ α) : Native σ α :=
  fun host =>
    match arrayPtrImpl T host ptr 1 with
    | .error e => (.error e, host)
    | .ok base => passObjects T T.size base Then host

/-- The checks of `translate_one` of a `T &` -/
def referenceBase (T : NativeType) (host : Host σ) (ptr : UInt32) : Except Exception LinearPtr := do
  ftlAssert (ptr != 0) .wasmRuntime
    (if T.isConst then "references cannot be created for null pointers"
      else "reference cannot be created for null pointers")
  match host.context.memory with
  | none => accessViolation
  | some mem =>
    if memTotal (host.memories mem) ≤ ptr.toNat + T.size then accessViolation
    else .ok ⟨mem, ptr.toNat⟩

/-- `translate_one` of a `T &` -/
def translateReference (T : NativeType) (ptr : UInt32) (Then : Place → Native σ α) :
    Native σ α := fun host =>
  match referenceBase T host ptr with
  | .error e => (.error e, host)
  | .ok base => passObjects T T.size base Then host

/-! ## Methods that work on an object -/

/-- A method that is given a `T`: what it returns or throws, and the bytes it leaves in the object. -/
abbrev ObjectMethod (T : NativeType) (α : Type) :=
  (Fin T.size → UInt8) → Except Exception α × (Fin T.size → UInt8)

/-- The bytes of an object, as those of a place. -/
def objectBytes {n : Nat} (object : Fin n → UInt8) (i : Nat) : UInt8 :=
  if h : i < n then object ⟨i, h⟩ else 0

/-- The method on the object at a place. It does not write to a `const T`. -/
def onObject {T : NativeType} (method : ObjectMethod T α) (place : Place) : Native σ α := fun host =>
  let (ret, object) := method fun i => host.bytes place i
  (ret, if T.isConst then host else host.write place T.size (objectBytes object))

/-- The outcome of a method on the object at `ptr`: it has seen the object's bytes, and whether it
returns or throws, the bytes it wrote are at `ptr` and everything else is as it was. -/
def SeesObject {T : NativeType} (method : ObjectMethod T α) (ptr : LinearPtr) (host : Host σ)
    (outcome : Except Exception α × Host σ) : Prop :=
  let (ret, object) := method fun i => (host.memories ptr.memory).contents (ptr.offset + i)
  outcome =
    (ret, if T.isConst then host else host.write (.linear ptr) T.size (objectBytes object))

/-- A reference to a `T` at `ptr` is as good as a pointer, for a method: both are let through exactly
if the whole object is inside of the memory, and then the method makes of the object the same. -/
structure SameAsPointer (T : NativeType) (host : Host σ) (ptr : UInt32) (method : ObjectMethod T α) :
    Prop where
  accepts : (∃ base, referenceBase T host ptr = .ok base) ↔
    ∃ base, arrayPtrImpl T host ptr 1 = .ok base
  inside : (∃ base, arrayPtrImpl T host ptr 1 = .ok base) ↔
    ∃ mem, host.context.memory = some mem ∧ ptr.toNat + T.size ≤ memTotal (host.memories mem)
  sees : ∀ mem, host.context.memory = some mem →
    ptr.toNat + T.size ≤ memTotal (host.memories mem) →
      SeesObject method ⟨mem, ptr.toNat⟩ host (translatePointer T ptr (onObject method) host) ∧
      SeesObject method ⟨mem, ptr.toNat⟩ host (translateReference T ptr (onObject method) host)

/-- Nothing that the method writes to the object at `ptr` can be lost: it cannot write, or it is
given the object itself and no copy, or it returns, or it leaves the object as it is. -/
def KeepsWrites {T : NativeType} (method : ObjectMethod T α) (ptr : LinearPtr) (host : Host σ) :
    Prop :=
  let object := fun i : Fin T.size => (host.memories ptr.memory).contents (ptr.offset + i)
  T.isConst = true ∨ (host.baseAddress ptr.memory + ptr.offset) % T.alignment = 0 ∨
    (∃ value, (method object).1 = .ok value) ∨ (method object).2 = object

/-! ## Copies -/

variable {host : Host σ} {T : NativeType}

theorem overwrite_of_lt {contents object : Nat → UInt8} {base numBytes i : Nat}
    (hlt : i < numBytes) : overwrite contents base numBytes object (base + i) = object i := by
  unfold overwrite
  rw [if_pos ⟨Nat.le_add_right base i, Nat.add_lt_add_left hlt base⟩, Nat.add_sub_cancel_left]

/-- Only the bytes that are written count. -/
theorem overwrite_congr {contents object object' : Nat → UInt8} {base numBytes : Nat}
    (hsame : ∀ i < numBytes, object i = object' i) :
    overwrite contents base numBytes object = overwrite contents base numBytes object' := by
  funext address
  unfold overwrite
  split
  · next hrange => exact hsame _ (by omega)
  · rfl

namespace Host

theorem write_congr (host : Host σ) (ptr : LinearPtr) {numBytes : Nat}
    {object object' : Nat → UInt8} (hsame : ∀ i < numBytes, object i = object' i) :
    host.write (.linear ptr) numBytes object = host.write (.linear ptr) numBytes object' := by
  unfold write
  dsimp only
  rw [overwrite_congr hsame]

theorem bytes_push (host : Host σ) (copy : Nat → UInt8) (i : Nat) :
    (host.push copy).bytes (.copy host.copies.length) i = copy i := by
  simp [bytes, push]

theorem write_push (host : Host σ) (copy object : Nat → UInt8) (numBytes : Nat) :
    (host.push copy).write (.copy host.copies.length) numBytes object =
      host.push (overwrite copy 0 numBytes object) := by
  simp [write, push]

theorem pop_push (host : Host σ) (copy : Nat → UInt8) :
    (host.push copy).pop host.copies.length = host := by
  simp [pop, push]

end Host

/-- An object that is written as it was. -/
theorem write_same_iff (host : Host σ) (ptr : LinearPtr) (object : Fin T.size → UInt8) :
    host = host.write (.linear ptr) T.size (objectBytes object) ↔
      object = fun i : Fin T.size => (host.memories ptr.memory).contents (ptr.offset + i) := by
  constructor
  · intro hsame
    funext i
    have hbytes := congrArg (fun host => (host.memories ptr.memory).contents (ptr.offset + i)) hsame
    simp only [Host.write, Function.update_self, overwrite_of_lt i.isLt] at hbytes
    rw [hbytes]
    simp [objectBytes]
  · rintro rfl
    have hcontents : overwrite (host.memories ptr.memory).contents ptr.offset T.size
        (objectBytes fun i : Fin T.size =>
          (host.memories ptr.memory).contents (ptr.offset + i)) =
        (host.memories ptr.memory).contents := by
      funext address
      unfold overwrite objectBytes
      split
      · next hrange =>
        have hback : ptr.offset + (address - ptr.offset) = address := by omega
        rw [dif_pos (by omega)]
        exact congrArg (host.memories ptr.memory).contents hback
      · rfl
    unfold Host.write
    simp only [hcontents, Function.update_eq_self]

/-- A method that is given a pointer into linear memory sees the object there. -/
theorem seesObject_onObject (host : Host σ) (method : ObjectMethod T α) (ptr : LinearPtr) :
    SeesObject method ptr host (onObject method (.linear ptr) host) := rfl

/-- What a method makes of a copy: what it wrote is in memory if it returned, and else gone. -/
theorem copyBack_onObject (host : Host σ) (method : ObjectMethod T α) (ptr : LinearPtr) :
    copyBack T T.size ptr host.copies.length
        (onObject method (.copy host.copies.length)
          (host.push fun i => if i < T.size then host.bytes (.linear ptr) i else 0)) =
      match method fun i => (host.memories ptr.memory).contents (ptr.offset + i) with
      | (.ok value, object) => (.ok value,
          if T.isConst then host else host.write (.linear ptr) T.size (objectBytes object))
      | (.error e, _) => (.error e, host) := by
  generalize hcopy : (fun i => if i < T.size then host.bytes (.linear ptr) i else 0) = copy
  have hseen : (fun i : Fin T.size => (host.push copy).bytes (.copy host.copies.length) i) =
      fun i : Fin T.size => (host.memories ptr.memory).contents (ptr.offset + i) := by
    funext i
    rw [Host.bytes_push, ← hcopy]
    exact if_pos i.isLt
  unfold onObject copyBack
  rw [hseen]
  generalize method (fun i => (host.memories ptr.memory).contents (ptr.offset + i)) = outcome
  obtain ⟨ret, object⟩ := outcome
  by_cases hconst : T.isConst
  · cases ret <;> simp [hconst, Host.pop_push]
  · cases ret with
    | error e => simp [hconst, Host.write_push, Host.pop_push]
    | ok value =>
      simp only [hconst, Bool.false_eq_true, if_false, Host.write_push, Host.pop_push]
      refine congrArg (Prod.mk _) (Host.write_congr _ _ ?_)
      intro i hi
      rw [Host.bytes_push, ← Nat.zero_add i, overwrite_of_lt hi, Nat.zero_add]

/-- The copy of a misaligned object is as good as the object exactly if no writes are lost. -/
theorem seesObject_passObjects_iff (host : Host σ) (method : ObjectMethod T α) (ptr : LinearPtr) :
    SeesObject method ptr host (passObjects T T.size ptr (onObject method) host) ↔
      KeepsWrites method ptr host := by
  unfold passObjects
  split
  case isFalse haligned =>
    exact iff_of_true (seesObject_onObject host method ptr) (.inr (.inl (Classical.not_not.1 haligned)))
  next hmisaligned =>
    dsimp only
    rw [copyBack_onObject]
    unfold SeesObject KeepsWrites
    dsimp only
    generalize method (fun i => (host.memories ptr.memory).contents (ptr.offset + i)) = outcome
    obtain ⟨ret, object⟩ := outcome
    cases ret with
    | ok value => exact iff_of_true rfl (.inr (.inr (.inl ⟨value, rfl⟩)))
    | error e =>
      by_cases hconst : T.isConst = true
      · simp [hconst]
      · simp only [hconst, Bool.false_eq_true, if_false, Prod.mk.injEq, true_and, write_same_iff,
          hmisaligned, false_or, reduceCtorEq, exists_false]

/-! ## The two checks -/

theorem referenceBase_eq_ok {ptr : UInt32} (hptr : ptr ≠ 0) {base : LinearPtr} :
    referenceBase T host ptr = .ok base ↔
      ∃ mem, host.context.memory = some mem ∧
        ptr.toNat + T.size < memTotal (host.memories mem) ∧ base = ⟨mem, ptr.toNat⟩ := by
  have hnonzero : (ptr != 0) = true := bne_iff_ne.2 hptr
  unfold referenceBase ftlAssert
  rw [if_pos hnonzero]
  cases hmem : host.context.memory with
  | none =>
    constructor
    · intro hok
      cases hok
    · rintro ⟨mem, hsome, -⟩
      cases hsome
  | some mem =>
    change (if memTotal (host.memories mem) ≤ ptr.toNat + T.size then accessViolation
      else .ok ⟨mem, ptr.toNat⟩) = .ok base ↔ _
    split
    · next hle =>
      constructor
      · intro hok
        cases hok
      · rintro ⟨mem', hsome, hlt, -⟩
        cases hsome
        omega
    · next hlt =>
      constructor
      · intro hok
        cases hok
        exact ⟨mem, rfl, Nat.not_le.1 hlt, rfl⟩
      · rintro ⟨mem', hsome, -, rfl⟩
        cases hsome
        rfl

theorem objectInside_iff {ptr : UInt32} {mem : Nat} :
    ArrayInside T host ptr 1 mem ↔
      host.context.memory = some mem ∧ ptr.toNat + T.size ≤ memTotal (host.memories mem) := by
  have hpos := T.size_pos
  have hone : (1 : UInt64).toNat = 1 := rfl
  unfold ArrayInside
  rw [hone, Nat.one_mul]
  constructor
  · rintro ⟨hmem, -, hle⟩
    exact ⟨hmem, hle⟩
  · rintro ⟨hmem, hle⟩
    exact ⟨hmem, by omega, hle⟩

theorem arrayPtrImpl_eq_ok {ptr : UInt32} {length : UInt64} :
    (∃ base, arrayPtrImpl T host ptr length = .ok base) ↔
      ∃ mem, ArrayInside T host ptr length mem := by
  constructor
  · rintro ⟨base, hok⟩
    by_contra hnone
    rw [arrayPtrImpl_of_not_inside fun mem hinside => hnone ⟨mem, hinside⟩] at hok
    cases hok
  · rintro ⟨mem, hinside⟩
    exact ⟨_, arrayPtrImpl_of_inside hinside⟩

/-- Either way in comes down to `passObjects` for an object inside of the memory. -/
theorem translatePointer_of_inside {ptr : UInt32} {mem : Nat}
    (hmem : host.context.memory = some mem)
    (hle : ptr.toNat + T.size ≤ memTotal (host.memories mem)) (Then : Place → Native σ α) :
    translatePointer T ptr Then host = passObjects T T.size ⟨mem, ptr.toNat⟩ Then host := by
  unfold translatePointer
  rw [arrayPtrImpl_of_inside (objectInside_iff.2 ⟨hmem, hle⟩)]

theorem translateReference_of_inside {ptr : UInt32} (hptr : ptr ≠ 0) {mem : Nat}
    (hmem : host.context.memory = some mem)
    (hlt : ptr.toNat + T.size < memTotal (host.memories mem)) (Then : Place → Native σ α) :
    translateReference T ptr Then host = passObjects T T.size ⟨mem, ptr.toNat⟩ Then host := by
  unfold translateReference
  rw [(referenceBase_eq_ok hptr).2 ⟨mem, hmem, hlt, rfl⟩]

/-- **References.** A reference is as good as a pointer exactly if the object does not end where the
memory ends, and no write to a copy of it is lost when the method throws. -/
theorem reference_same_as_pointer_iff (T : NativeType) (host : Host σ) {ptr : UInt32}
    (hptr : ptr ≠ 0) (method : ObjectMethod T α) :
    SameAsPointer T host ptr method ↔
      ∀ mem, host.context.memory = some mem →
        ptr.toNat + T.size ≠ memTotal (host.memories mem) ∧
          (ptr.toNat + T.size ≤ memTotal (host.memories mem) →
            KeepsWrites method ⟨mem, ptr.toNat⟩ host) := by
  constructor
  · intro hsame mem hmem
    constructor
    · intro hend
      obtain ⟨base, hbase⟩ :=
        hsame.accepts.2 (hsame.inside.2 ⟨mem, hmem, Nat.le_of_eq hend⟩)
      obtain ⟨mem', hmem', hlt, -⟩ := (referenceBase_eq_ok hptr).1 hbase
      rw [hmem] at hmem'
      cases hmem'
      omega
    · intro hle
      have hsees := (hsame.sees mem hmem hle).1
      rw [translatePointer_of_inside hmem hle] at hsees
      exact (seesObject_passObjects_iff host method ⟨mem, ptr.toNat⟩).1 hsees
  · intro hkept
    have hpointer : (∃ base, arrayPtrImpl T host ptr 1 = .ok base) ↔
        ∃ mem, host.context.memory = some mem ∧
          ptr.toNat + T.size ≤ memTotal (host.memories mem) := by
      simp only [arrayPtrImpl_eq_ok, objectInside_iff]
    have hinside : ∀ mem, host.context.memory = some mem →
        ptr.toNat + T.size ≤ memTotal (host.memories mem) →
          ptr.toNat + T.size < memTotal (host.memories mem) := by
      intro mem hmem hle
      have hne := (hkept mem hmem).1
      omega
    refine ⟨?_, hpointer, ?_⟩
    · rw [hpointer]
      constructor
      · rintro ⟨base, hbase⟩
        obtain ⟨mem, hmem, hlt, -⟩ := (referenceBase_eq_ok hptr).1 hbase
        exact ⟨mem, hmem, Nat.le_of_lt hlt⟩
      · rintro ⟨mem, hmem, hle⟩
        exact ⟨_, (referenceBase_eq_ok hptr).2 ⟨mem, hmem, hinside mem hmem hle, rfl⟩⟩
    · intro mem hmem hle
      have hsees := (seesObject_passObjects_iff host method ⟨mem, ptr.toNat⟩).2
        ((hkept mem hmem).2 hle)
      rw [translatePointer_of_inside hmem hle,
        translateReference_of_inside hptr hmem (hinside mem hmem hle)]
      exact ⟨hsees, hsees⟩

/-- An `int64_t`. -/
def int64Type : NativeType := ⟨8, 8, false, by decide⟩

/-- A host with one memory of a page. -/
def onePageHost : Host Unit :=
  ⟨fun _ => ⟨⟨false, ⟨1, 1⟩⟩, 1, fun _ => 0⟩, fun _ => 0, ⟨some 0, ()⟩, []⟩

/-- A method that fills the object with ones, and then returns or throws. -/
def fillObject (ret : Except Exception Unit) : ObjectMethod int64Type Unit := fun _ => (ret, fun _ => 1)

/-- A misaligned object before the end of the memory, and a method that writes to it and returns. -/
theorem reference_same_as_pointer_sample :
    SameAsPointer int64Type onePageHost 65527 (fillObject (.ok ())) :=
  (reference_same_as_pointer_iff int64Type onePageHost (by decide) (fillObject (.ok ()))).2
    fun _ _ => ⟨(by decide : 65527 + 8 ≠ 65536), fun _ => .inr (.inr (.inl ⟨(), rfl⟩))⟩

/-- What is written before a throw stays in an aligned object, and is lost in a misaligned one. -/
example :
    let outcome (ptr : UInt32) := (translateReference int64Type ptr
      (onObject (fillObject (.error (.runtime .calledAbort)))) onePageHost).2
    ((outcome 8).memories 0).contents 8 = 1 ∧ ((outcome 9).memories 0).contents 9 = 0 := by
  decide

/-- The last eight bytes of a memory cannot be passed by reference. -/
theorem reference_not_same_as_pointer :
    ¬ ∀ (T : NativeType) (host : Host Unit) (ptr : UInt32), ptr ≠ 0 →
      ∀ method : ObjectMethod T Unit, SameAsPointer T host ptr method := by
  intro hall
  have hpointer : ∃ base, arrayPtrImpl int64Type onePageHost 65528 1 = .ok base := ⟨_, rfl⟩
  obtain ⟨base, hbase⟩ :=
    (hall int64Type onePageHost 65528 (by decide) (fillObject (.ok ()))).accepts.2 hpointer
  have hrefused : referenceBase int64Type onePageHost 65528 = accessViolation := rfl
  rw [hrefused] at hbase
  cases hbase

end FractalWasm.Wavm
