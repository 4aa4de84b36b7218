import FractalWasm.Wasmlib.InitialMemory

/-!
# The image of the initial memory

`parse_initial_memory` copies the data segments one after the other into a buffer that grows.

**The overlay** (`IsOverlay`): where segments overlap the last one wins, between them there are zeros,
and the image ends with the segment that ends last. `isOverlay_of_parseInitialMemory` shows it for
every image that is made, by induction over the segments from any buffer on (`overlay_of_foldlM`).

**Refusals** (`Refused`): a segment with a base that is no constant, without a memory, or that ends
behind the initial pages. The comparison of the base with the size refuses one more, the empty segment
at the end of the pages (`EmptyAtEnd`), and nothing else: `parse_initial_memory_overlay_iff`.
-/

namespace FractalWasm

open Codec IR FractalWasm.Runtime WASM WasmInjections

/-! ## Overlays -/

/-- Where a segment starts; a base that is not a constant is refused before it is looked at. -/
def IR.DataSegment.start (dataSegment : DataSegment) : Nat :=
  match dataSegment.baseOffset with
  | .i32Const base => base.toNat
  | _ => 0

def IR.DataSegment.stop (dataSegment : DataSegment) : Nat :=
  dataSegment.start + dataSegment.data.length

def IR.DataSegment.covers (address : Nat) (dataSegment : DataSegment) : Bool :=
  dataSegment.start ≤ address && address < dataSegment.stop

namespace WasmInterface

/-- The byte of the last segment that covers an address, or else `background`. -/
def lastByte (background : UInt8) (dataSegments : List DataSegment) (address : Nat) : UInt8 :=
  match dataSegments.reverse.find? (·.covers address) with
  | some dataSegment => dataSegment.data.getD (address - dataSegment.start) 0
  | none => background

/-- The largest end of a segment, or else `size`. -/
def largestStop (size : Nat) (dataSegments : List DataSegment) : Nat :=
  (dataSegments.map DataSegment.stop).foldl max size

theorem lastByte_cons {background : UInt8} {dataSegment : DataSegment}
    {dataSegments : List DataSegment} {address : Nat} :
    lastByte background (dataSegment :: dataSegments) address =
      lastByte (lastByte background [dataSegment] address) dataSegments address := by
  unfold lastByte
  rw [List.reverse_cons, List.find?_append]
  cases dataSegments.reverse.find? (·.covers address) with
  | some later => rfl
  | none => rfl

theorem le_largestStop (size : Nat) (dataSegments : List DataSegment) :
    size ≤ largestStop size dataSegments := by
  unfold largestStop
  induction dataSegments generalizing size with
  | nil => exact Nat.le_refl size
  | cons dataSegment dataSegments ih =>
    exact Nat.le_trans (Nat.le_max_left _ _) (ih (max size dataSegment.stop))

/-! ## One segment -/

theorem length_copySegment (memImage data : Bytes) (baseOffset : Nat) :
    (copySegment memImage baseOffset data).length = max memImage.length (baseOffset + data.length) := by
  simp only [copySegment, List.length_append, List.length_take, List.length_drop,
    List.length_replicate]
  omega

/-- Zeros behind an image are what is read behind it anyway. -/
theorem getD_append_replicate (memImage : Bytes) (count address : Nat) :
    (memImage ++ List.replicate count 0).getD address 0 = memImage.getD address 0 := by
  simp only [List.getD_eq_getElem?_getD, List.getElem?_append, List.getElem?_replicate]
  split
  · rfl
  · next hout =>
    rw [List.getElem?_eq_none (Nat.le_of_not_lt hout)]
    split
    · rfl
    · rfl

/-- A copy changes the bytes it covers, and fills the gap before it with zeros. -/
theorem getD_copySegment (memImage data : Bytes) (baseOffset address : Nat) :
    (copySegment memImage baseOffset data).getD address 0 =
      if baseOffset ≤ address ∧ address < baseOffset + data.length then
        data.getD (address - baseOffset) 0
      else memImage.getD address 0 := by
  rw [← getD_append_replicate memImage (baseOffset + data.length - memImage.length) address]
  unfold copySegment
  generalize hpadded : memImage ++ List.replicate (baseOffset + data.length - memImage.length) 0 =
    padded
  have hlength : baseOffset + data.length ≤ padded.length := by
    rw [← hpadded, List.length_append, List.length_replicate]
    omega
  have htake : (padded.take baseOffset).length = baseOffset := by
    rw [List.length_take]
    omega
  simp only [List.getD_eq_getElem?_getD]
  by_cases hbefore : address < baseOffset
  · have hout : ¬ (baseOffset ≤ address ∧ address < baseOffset + data.length) := by omega
    rw [if_neg hout, List.append_assoc, List.getElem?_append_left (by omega),
      List.getElem?_take_of_lt hbefore]
  · by_cases hinside : address < baseOffset + data.length
    · rw [if_pos ⟨Nat.le_of_not_lt hbefore, hinside⟩, List.append_assoc,
        List.getElem?_append_right (by omega), htake, List.getElem?_append_left (by omega)]
    · have hout : ¬ (baseOffset ≤ address ∧ address < baseOffset + data.length) := by omega
      have hfront : (padded.take baseOffset ++ data).length = baseOffset + data.length := by
        rw [List.length_append, htake]
      have hsum : baseOffset + data.length + (address - (baseOffset + data.length)) = address := by
        omega
      rw [if_neg hout, List.getElem?_append_right (by omega), hfront, List.getElem?_drop, hsum]

/-! ## All segments -/

/-- One round, for a segment within the memory. -/
theorem parseDataSegment_eq {module : Module} {memImage memImage' : Bytes}
    {dataSegment : DataSegment} (h : parseDataSegment module memImage dataSegment = .ok memImage') :
    memImage' = copySegment memImage dataSegment.start dataSegment.data := by
  unfold parseDataSegment at h
  split at h
  · next base memory memories hbase hmemories =>
    dsimp only at h
    split at h
    · cases h
    · have hstart : dataSegment.start = base.toNat := by
        unfold DataSegment.start
        rw [hbase]
      rw [hstart]
      exact (Except.ok.inj h).symm
  · cases h

/-- What a round makes of the image. -/
theorem lastByte_of_parseDataSegment {module : Module} {memImage memImage' : Bytes}
    {dataSegment : DataSegment} (h : parseDataSegment module memImage dataSegment = .ok memImage') :
    memImage'.length = max memImage.length dataSegment.stop ∧
      ∀ address, memImage'.getD address 0 =
        lastByte (memImage.getD address 0) [dataSegment] address := by
  rw [parseDataSegment_eq h]
  refine ⟨length_copySegment _ _ _, ?_⟩
  intro address
  rw [getD_copySegment]
  unfold lastByte DataSegment.covers DataSegment.stop
  by_cases hcovers : dataSegment.start ≤ address ∧
      address < dataSegment.start + dataSegment.data.length
  · simp [hcovers]
  · rw [if_neg hcovers]
    have hnot : (decide (dataSegment.start ≤ address) &&
        decide (address < dataSegment.start + dataSegment.data.length)) = false := by
      simpa using hcovers
    simp [hnot]

/-- The rounds of some segments, from any image on. -/
theorem overlay_of_foldlM {module : Module} {dataSegments : List DataSegment}
    {memImage memImage' : Bytes}
    (h : dataSegments.foldlM (parseDataSegment module) memImage = .ok memImage') :
    memImage'.length = largestStop memImage.length dataSegments ∧
      ∀ address, memImage'.getD address 0 =
        lastByte (memImage.getD address 0) dataSegments address := by
  induction dataSegments generalizing memImage with
  | nil =>
    obtain rfl := Except.ok.inj h
    exact ⟨rfl, fun _ => rfl⟩
  | cons dataSegment dataSegments ih =>
    rw [List.foldlM_cons] at h
    obtain ⟨next, hfirst, hrest⟩ := Except.bind_eq_ok.1 h
    obtain ⟨hlength, hbytes⟩ := lastByte_of_parseDataSegment hfirst
    obtain ⟨hlength', hbytes'⟩ := ih hrest
    constructor
    · rw [hlength', hlength]
      rfl
    · intro address
      rw [hbytes', hbytes, ← lastByte_cons]

/-! ## Refused segments -/

/-- A data segment that no memory of the module can take. -/
inductive Refused (module : Module) (dataSegment : DataSegment) : Prop
  | base (hbase : ∀ base, dataSegment.baseOffset ≠ .i32Const base)
  | memory (hmemory : module.memories.defs = [])
  /-- The segment ends behind the initial pages. -/
  | outside {memory : MemoryType} (hmemory : module.memories.defs.head? = some memory)
      (hout : memory.size.min * Serialization.wasmPageSize < dataSegment.stop)

/-- An empty segment that starts where the initial pages end. -/
structure EmptyAtEnd (module : Module) (dataSegment : DataSegment) : Prop where
  base : ∃ base, dataSegment.baseOffset = .i32Const base
  empty : dataSegment.data = []
  atEnd : ∃ memory, module.memories.defs.head? = some memory ∧
    dataSegment.start = memory.size.min * Serialization.wasmPageSize

theorem start_of_const {dataSegment : DataSegment} {base : UInt32}
    (h : dataSegment.baseOffset = .i32Const base) : dataSegment.start = base.toNat := by
  unfold DataSegment.start
  rw [h]

theorem FitsMemory.not_refused {module : Module} {dataSegment : DataSegment}
    (h : FitsMemory module.memories.defs dataSegment) : ¬ Refused module dataSegment := by
  obtain ⟨base, memory, hconst, hhead, hlt, hle⟩ := h
  rintro (hbase | hmemory | @⟨memory', hmemory, hout⟩)
  · exact hbase base hconst
  · rw [hmemory] at hhead
    cases hhead
  · rw [hmemory] at hhead
    cases hhead
    unfold DataSegment.stop at hout
    rw [start_of_const hconst] at hout
    omega

/-- The comparison `base_offset >= memory_size` refuses one kind of segment too many. -/
theorem not_fitsMemory_iff {module : Module} {dataSegment : DataSegment} :
    ¬ FitsMemory module.memories.defs dataSegment ↔
      Refused module dataSegment ∨ EmptyAtEnd module dataSegment := by
  constructor
  · intro hfits
    by_cases hconst : ∃ base, dataSegment.baseOffset = .i32Const base
    · obtain ⟨base, hbase⟩ := hconst
      have hstart := start_of_const hbase
      cases hmemories : module.memories.defs with
      | nil => exact .inl (.memory hmemories)
      | cons memory memories =>
        have hhead : module.memories.defs.head? = some memory := by rw [hmemories]; rfl
        by_cases hout : memory.size.min * Serialization.wasmPageSize < dataSegment.stop
        · exact .inl (.outside hhead hout)
        · unfold DataSegment.stop at hout
          rw [hstart] at hout
          by_cases hlt : base.toNat < memory.size.min * Serialization.wasmPageSize
          · exact absurd ⟨base, memory, hbase, hhead, hlt, by omega⟩ hfits
          · have hempty : dataSegment.data = [] := List.length_eq_zero_iff.1 (by omega)
            exact .inr ⟨⟨base, hbase⟩, hempty, memory, hhead, by omega⟩
    · exact .inl (.base fun base hbase => hconst ⟨base, hbase⟩)
  · rintro (hrefused | ⟨-, -, memory, hhead, hatEnd⟩) hfits
    · exact hfits.not_refused hrefused
    · obtain ⟨base, memory', hconst, hhead', hlt, -⟩ := hfits
      rw [hhead] at hhead'
      cases hhead'
      rw [start_of_const hconst] at hatEnd
      omega

/-- What makes `parse_initial_memory` throw. -/
theorem parseInitialMemory_throws_iff (module : Module) :
    (∃ e, parseInitialMemory module = .error e) ↔
      ∃ dataSegment ∈ module.dataSegments,
        Refused module dataSegment ∨ EmptyAtEnd module dataSegment := by
  have hparsed := parseInitialMemory_iff module
  constructor
  · rintro ⟨e, he⟩
    have hnot : ¬ ∀ dataSegment ∈ module.dataSegments,
        FitsMemory module.memories.defs dataSegment := by
      intro hall
      obtain ⟨memImage, hok⟩ := hparsed.2 hall
      rw [he] at hok
      cases hok
    obtain ⟨dataSegment, hdataSegment⟩ := Classical.not_forall.1 hnot
    obtain ⟨hmem, hfits⟩ := Classical.not_imp.1 hdataSegment
    exact ⟨dataSegment, hmem, not_fitsMemory_iff.1 hfits⟩
  · rintro ⟨dataSegment, hmem, hrefused⟩
    cases hresult : parseInitialMemory module with
    | error e => exact ⟨e, rfl⟩
    | ok memImage =>
      exact absurd (hparsed.1 ⟨memImage, hresult⟩ dataSegment hmem)
        (not_fitsMemory_iff.2 hrefused)

/-! ## The overlay -/

/-- The image ends with the segment that ends last, a byte of it comes from the last segment that
covers it, and every segment is copied to within the image as it is then. -/
structure IsOverlay (module : Module) (memImage : Bytes) : Prop where
  length : memImage.length = largestStop 0 module.dataSegments
  bytes : ∀ address < memImage.length,
    memImage.getD address 0 = lastByte 0 module.dataSegments address
  writes : ∀ before dataSegment after, module.dataSegments = before ++ dataSegment :: after →
    ∃ memImage' memImage'', before.foldlM (parseDataSegment module) [] = .ok memImage' ∧
      parseDataSegment module memImage' dataSegment = .ok memImage'' ∧
        dataSegment.stop ≤ memImage''.length ∧ memImage''.length ≤ memImage.length

theorem isOverlay_of_parseInitialMemory {module : Module} {memImage : Bytes}
    (h : parseInitialMemory module = .ok memImage) : IsOverlay module memImage := by
  obtain ⟨hlength, hbytes⟩ := overlay_of_foldlM h
  refine ⟨hlength, fun address _ => hbytes address, ?_⟩
  intro before dataSegment after hsplit
  unfold parseInitialMemory at h
  rw [hsplit, List.foldlM_append] at h
  obtain ⟨memImage', hbefore, h⟩ := Except.bind_eq_ok.1 h
  rw [List.foldlM_cons] at h
  obtain ⟨memImage'', hsegment, hafter⟩ := Except.bind_eq_ok.1 h
  refine ⟨memImage', memImage'', hbefore, hsegment, ?_, ?_⟩
  · rw [(lastByte_of_parseDataSegment hsegment).1]
    exact Nat.le_max_right _ _
  · rw [(overlay_of_foldlM hafter).1]
    exact le_largestStop _ _

/-- Every image is the overlay of the segments, and there is none exactly if some segment is
refused. -/
structure ParsesAsOverlay (module : Module) : Prop where
  overlay : ∀ memImage, parseInitialMemory module = .ok memImage → IsOverlay module memImage
  throws : (∃ e, parseInitialMemory module = .error e) ↔
    ∃ dataSegment ∈ module.dataSegments, Refused module dataSegment

/-- **The overlay.** Every image that is made is the overlay. One is made whenever no segment is
refused, as long as there is no empty segment at the end of the initial pages. -/
theorem parse_initial_memory_overlay_iff (module : Module) :
    (∀ memImage, parseInitialMemory module = .ok memImage → IsOverlay module memImage) ∧
      (ParsesAsOverlay module ↔
        (∀ dataSegment ∈ module.dataSegments, ¬ EmptyAtEnd module dataSegment) ∨
          ∃ dataSegment ∈ module.dataSegments, Refused module dataSegment) := by
  refine ⟨fun memImage => isOverlay_of_parseInitialMemory, ?_⟩
  have hthrows := parseInitialMemory_throws_iff module
  constructor
  · rintro ⟨-, hrefused⟩
    by_cases hsome : ∃ dataSegment ∈ module.dataSegments, Refused module dataSegment
    · exact .inr hsome
    · refine .inl fun dataSegment hmem hempty => hsome ?_
      exact hrefused.1 (hthrows.2 ⟨dataSegment, hmem, .inr hempty⟩)
  · intro hcondition
    refine ⟨fun memImage => isOverlay_of_parseInitialMemory, ?_⟩
    rw [hthrows]
    constructor
    · rintro ⟨dataSegment, hmem, hrefused | hempty⟩
      · exact ⟨dataSegment, hmem, hrefused⟩
      · rcases hcondition with hnone | hsome
        · exact absurd hempty (hnone dataSegment hmem)
        · exact hsome
    · rintro ⟨dataSegment, hmem, hrefused⟩
      exact ⟨dataSegment, hmem, .inl hrefused⟩

/-- A contract with an empty `apply`, one page of memory and an empty segment behind it. -/
def emptySegmentBytes : Bytes :=
  [0x00, 0x61, 0x73, 0x6d, 1, 0, 0, 0,
    1, 7, 1, 0x60, 3, 0x7e, 0x7e, 0x7e, 0,
    3, 2, 1, 0,
    5, 3, 1, 0, 1,
    7, 9, 1, 5, 97, 112, 112, 108, 121, 0, 0,
    10, 4, 1, 2, 0, 0x0b,
    11, 8, 1, 0, 0x41, 0x80, 0x80, 0x04, 0x0b, 0]

/-- The empty segment has no byte outside of the page, and is refused. -/
theorem empty_segment_refused :
    ∃ m, decode emptySegmentBytes = .ok m ∧
      parseInitialMemory m =
        .error (.ftl .wasmRuntime "WASM data segment outside of valid memory range") ∧
      (∀ dataSegment ∈ m.dataSegments, ¬ Refused m dataSegment) ∧ ¬ ParsesAsOverlay m := by
  have hmodule : (decode emptySegmentBytes).toOption.map
      (fun m => (m.memories.defs, m.dataSegments, parseInitialMemory m)) =
        some ([⟨false, ⟨1, uint64Max⟩⟩], [⟨0, .i32Const 65536, []⟩],
          .error (.ftl .wasmRuntime "WASM data segment outside of valid memory range")) := by
    decide +kernel
  obtain ⟨m, hdecode, hfields⟩ := Option.map_eq_some_iff.1 hmodule
  obtain ⟨hmemories, hfields⟩ := Prod.mk.inj hfields
  obtain ⟨hsegments, hparse⟩ := Prod.mk.inj hfields
  have hnone : ∀ dataSegment ∈ m.dataSegments, ¬ Refused m dataSegment := by
    intro dataSegment hmem hrefused
    rw [hsegments] at hmem
    obtain rfl := List.mem_singleton.1 hmem
    rcases hrefused with hbase | hmemory | @⟨memory, hmemory, hout⟩
    · exact hbase 65536 rfl
    · rw [hmemories] at hmemory
      cases hmemory
    · rw [hmemories] at hmemory
      cases hmemory
      exact absurd hout (by decide)
  refine ⟨m, Except.toOption_eq_some.1 hdecode, hparse, hnone, ?_⟩
  rintro ⟨-, hthrows⟩
  obtain ⟨dataSegment, hmem, hrefused⟩ := hthrows.1 ⟨_, hparse⟩
  exact hnone dataSegment hmem hrefused

end WasmInterface

end FractalWasm
