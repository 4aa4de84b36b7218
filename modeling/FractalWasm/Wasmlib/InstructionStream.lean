import FractalWasm.Wasmlib.BinaryOps

/-!
# The instruction stream as a buffer

Every pass of the injector writes through an `instruction_stream`. Its two writes grow the vector
before they store into it, `set` to twice its size and the length of the copy, `operator<<` to twice
its size only. A store behind the end of the vector is no value of the model.

**The buffer** (`Write`, `run`): a sequence of writes, or none if one of them stored behind the end.

**Faithful** (`Faithful`): what was written is what the buffer holds. `set` always makes room;
`operator<<` does not when the vector is empty, as doubling nothing gives nothing. The passes write
by `set` only (`faithful_of_sets`).
-/

namespace FractalWasm.WasmOps

open Codec IR

/-! ## Writes -/

namespace InstructionStream

/-- The data after the reallocation `operator<<` makes before it stores a byte. -/
def doubled (stream : InstructionStream) : Bytes :=
  if stream.idx ≥ stream.data.length then resize stream.data (stream.data.length * 2)
  else stream.data

/-- `operator<<`; `none` when `data[idx]` is outside of the vector. -/
def put (stream : InstructionStream) (c : UInt8) : Option InstructionStream :=
  if h : stream.idx < stream.doubled.length then
    some ⟨stream.idx + 1, stream.doubled.set stream.idx c, by rwa [List.length_set]⟩
  else none

theorem length_doubled (stream : InstructionStream) :
    stream.doubled.length = 0 ∨ stream.idx < stream.doubled.length := by
  have := stream.idx_le
  unfold doubled
  split
  · rw [length_resize]
    omega
  · omega

theorem length_doubled_eq_zero (stream : InstructionStream) :
    stream.doubled.length = 0 ↔ stream.data.length = 0 := by
  have := stream.idx_le
  unfold doubled
  split
  · rw [length_resize]
    omega
  · rfl

theorem take_doubled (stream : InstructionStream) :
    stream.doubled.take stream.idx = stream.data.take stream.idx := by
  have := stream.idx_le
  unfold doubled
  split
  · exact take_resize stream.idx_le (by omega)
  · rfl

/-- Doubling makes room in every vector but the empty one. -/
theorem put_eq_none (stream : InstructionStream) (c : UInt8) :
    stream.put c = none ↔ stream.data.length = 0 := by
  have hroom := stream.length_doubled
  have hzero := stream.length_doubled_eq_zero
  unfold put
  split
  · simp only [reduceCtorEq, false_iff]
    omega
  · simp only [true_iff]
    omega

theorem of_put_eq_some {stream stream' : InstructionStream} {c : UInt8}
    (h : stream.put c = some stream') :
    stream'.idx = stream.idx + 1 ∧ stream'.get = stream.get ++ [c] ∧ 0 < stream'.data.length := by
  unfold put at h
  split at h
  · next hroom =>
    obtain rfl := Option.some.inj h
    refine ⟨rfl, ?_, by simpa using Nat.zero_lt_of_lt hroom⟩
    have hlen : stream.idx < (stream.doubled.set stream.idx c).length := by simpa using hroom
    rw [get_eq_take, get_eq_take]
    dsimp only
    rw [List.take_succ_eq_append_getElem hlen, List.take_set_of_le (Nat.le_refl _),
      List.getElem_set_self, take_doubled]
  · cases h

end InstructionStream

/-- What a pass does to a stream. -/
inductive Write where
  | put (c : UInt8)
  | set (arr : Bytes)
  | rewind
  deriving DecidableEq, Repr

namespace Write

/-- `none` when the write leaves the vector. -/
def apply (stream : InstructionStream) : Write → Option InstructionStream
  | put c => stream.put c
  | set arr =>
    if stream.idx + arr.length ≤ (stream.grown arr.length).length then some (stream.set arr)
    else none
  | rewind => some stream.rewind

/-- The bytes written since the last reset of `idx`. -/
def written : List Write → Bytes → Bytes
  | [], bytes => bytes
  | put c :: writes, bytes => written writes (bytes ++ [c])
  | set arr :: writes, bytes => written writes (bytes ++ arr)
  | rewind :: writes, _ => written writes []

/-- The first byte that is ever written is written by `operator<<`. -/
def putsFirst : List Write → Bool
  | [] => false
  | put _ :: _ => true
  | set arr :: writes => arr.isEmpty && putsFirst writes
  | rewind :: writes => putsFirst writes

end Write

namespace InstructionStream

open Write

/-- A sequence of writes. -/
def run (stream : InstructionStream) (writes : List Write) : Option InstructionStream :=
  writes.foldlM Write.apply stream

@[simp] theorem run_nil (stream : InstructionStream) : stream.run [] = some stream := rfl

@[simp] theorem run_cons (stream : InstructionStream) (write : Write) (writes : List Write) :
    stream.run (write :: writes) = (write.apply stream).bind (·.run writes) := rfl

/-- `set` always makes room (`le_length_grown`). -/
@[simp] theorem apply_set (stream : InstructionStream) (arr : Bytes) :
    (Write.set arr).apply stream = some (stream.set arr) :=
  if_pos (stream.le_length_grown arr.length)

theorem length_data_set (stream : InstructionStream) (arr : Bytes) :
    (stream.set arr).data.length = (stream.grown arr.length).length := by
  have := stream.le_length_grown arr.length
  simp only [set, List.length_append, List.length_take, List.length_drop]
  omega

/-- A vector that is not empty stays so, and a copy of some bytes makes one. -/
theorem length_data_set_eq_zero (stream : InstructionStream) (arr : Bytes) :
    (stream.set arr).data.length = 0 ↔ stream.data.length = 0 ∧ arr = [] := by
  have := stream.idx_le
  rw [length_data_set, ← List.length_eq_zero_iff (l := arr)]
  unfold grown
  split
  · rw [length_resize]
    omega
  · omega

end InstructionStream

/-! ## The buffer is faithful -/

open Write

/-- The stream holds what was written to it since the last reset, and nothing else. -/
structure Holds (stream : InstructionStream) (bytes : Bytes) : Prop where
  idx : stream.idx = bytes.length
  get : stream.get = bytes

theorem Holds.put {stream stream' : InstructionStream} {bytes : Bytes} {c : UInt8}
    (h : Holds stream bytes) (hput : stream.put c = some stream') : Holds stream' (bytes ++ [c]) := by
  obtain ⟨hidx, hget, -⟩ := InstructionStream.of_put_eq_some hput
  exact ⟨by simp [hidx, h.idx], by rw [hget, h.get]⟩

theorem Holds.set {stream : InstructionStream} {bytes : Bytes} (h : Holds stream bytes)
    (arr : Bytes) : Holds (stream.set arr) (bytes ++ arr) :=
  ⟨by simp [InstructionStream.set, h.idx], by rw [InstructionStream.get_set, h.get]⟩

theorem Holds.rewind (stream : InstructionStream) : Holds stream.rewind [] :=
  ⟨rfl, InstructionStream.get_rewind stream⟩

/-- In a vector that is not empty every write finds room. -/
theorem run_of_pos {stream : InstructionStream} {bytes : Bytes} (h : Holds stream bytes)
    (hpos : 0 < stream.data.length) (writes : List Write) :
    ∃ stream', stream.run writes = some stream' ∧ Holds stream' (written writes bytes) := by
  induction writes generalizing stream bytes with
  | nil => exact ⟨stream, rfl, h⟩
  | cons write writes ih =>
    cases write with
    | put c =>
      have hsome : stream.put c ≠ none := fun hnone =>
        Nat.ne_of_gt hpos ((stream.put_eq_none c).1 hnone)
      obtain ⟨next, hput⟩ := Option.ne_none_iff_exists'.1 hsome
      obtain ⟨-, -, hnext⟩ := InstructionStream.of_put_eq_some hput
      obtain ⟨stream', hrun, hholds⟩ := ih (h.put hput) hnext
      exact ⟨stream', by rw [InstructionStream.run_cons, apply, hput]; exact hrun, hholds⟩
    | set arr =>
      have hnext : 0 < (stream.set arr).data.length := by
        have := stream.length_data_set_eq_zero arr
        omega
      obtain ⟨stream', hrun, hholds⟩ := ih (h.set arr) hnext
      exact ⟨stream', by rw [InstructionStream.run_cons, InstructionStream.apply_set]; exact hrun,
        hholds⟩
    | rewind => exact ih (.rewind stream) hpos

/-- An empty vector survives until the first byte is written. -/
theorem run_of_empty {stream : InstructionStream} {bytes : Bytes} (h : Holds stream bytes)
    (hempty : stream.data.length = 0) (writes : List Write) :
    (∃ stream', stream.run writes = some stream' ∧ Holds stream' (written writes bytes)) ↔
      putsFirst writes = false := by
  induction writes generalizing stream bytes with
  | nil => exact iff_of_true ⟨stream, rfl, h⟩ rfl
  | cons write writes ih =>
    cases write with
    | put c =>
      have hnone : stream.put c = none := (stream.put_eq_none c).2 hempty
      refine iff_of_false ?_ (by simp [putsFirst])
      rintro ⟨stream', hrun, -⟩
      rw [InstructionStream.run_cons, apply, hnone] at hrun
      cases hrun
    | set arr =>
      rw [InstructionStream.run_cons, InstructionStream.apply_set]
      by_cases harr : arr = []
      · have hnext := (stream.length_data_set_eq_zero arr).2 ⟨hempty, harr⟩
        simpa [putsFirst, written, harr] using ih (h.set arr) hnext
      · have hnext : 0 < (stream.set arr).data.length := by
          have := (stream.length_data_set_eq_zero arr).1.mt fun hboth => harr hboth.2
          omega
        exact iff_of_true (run_of_pos (h.set arr) hnext writes) (by simp [putsFirst, harr])
    | rewind => exact ih (.rewind stream) hempty

theorem holds_ofSize (size : Nat) : Holds (.ofSize size) [] :=
  ⟨rfl, InstructionStream.get_ofSize size⟩

theorem length_data_ofSize (size : Nat) :
    (InstructionStream.ofSize size).data.length = size := List.length_replicate

/-- Every write lands inside the vector, and the buffer then holds what was written. -/
def Faithful (size : Nat) (writes : List Write) : Prop :=
  ∃ stream, (InstructionStream.ofSize size).run writes = some stream ∧
    stream.idx = (written writes []).length ∧ stream.get = written writes []

theorem faithful_iff_holds (size : Nat) (writes : List Write) :
    Faithful size writes ↔
      ∃ stream, (InstructionStream.ofSize size).run writes = some stream ∧
        Holds stream (written writes []) :=
  exists_congr fun _ => and_congr_right fun _ => ⟨fun h => ⟨h.1, h.2⟩, fun h => ⟨h.idx, h.get⟩⟩

/-- The passes write by `pack`, hence by `set` only: what they write is never lost. -/
theorem faithful_of_sets (size : Nat) (arrs : List Bytes) :
    Faithful size (arrs.map Write.set) := by
  rw [faithful_iff_holds]
  rcases Nat.eq_zero_or_pos size with rfl | hpos
  · refine (run_of_empty (holds_ofSize 0) (length_data_ofSize 0) _).2 ?_
    induction arrs with
    | nil => rfl
    | cons arr arrs ih => simp [putsFirst, ih]
  · exact run_of_pos (holds_ofSize size) (by rwa [length_data_ofSize]) _

/-- A stream made with size zero doubles nothing: its first byte must come from `set`. -/
theorem faithful_iff (size : Nat) (writes : List Write) :
    Faithful size writes ↔ 0 < size ∨ putsFirst writes = false := by
  rw [faithful_iff_holds]
  rcases Nat.eq_zero_or_pos size with rfl | hpos
  · rw [run_of_empty (holds_ofSize 0) (length_data_ofSize 0)]
    simp
  · exact iff_of_true (run_of_pos (holds_ofSize size) (by rwa [length_data_ofSize]) _) (.inl hpos)

/-- The store of `stream << 'A'` on a stream of size zero is behind the end of the vector. -/
theorem not_faithful_put_on_empty : ¬ Faithful 0 [.put 0x41] := by
  rintro ⟨stream, hrun, -⟩
  have hnone : (InstructionStream.ofSize 0).run [.put 0x41] = none := by decide
  rw [hnone] at hrun
  cases hrun

end FractalWasm.WasmOps
