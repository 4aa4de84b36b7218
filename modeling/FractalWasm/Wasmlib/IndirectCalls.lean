import FractalWasm.IR.FunctionTypeMap
import FractalWasm.Runtime.TableSpace
import FractalWasm.Wasmlib.Execute

/-!
# Indirect calls

What `LLVMEmitIR.cpp` emits for `call_indirect`, on the bytes of a table. The emitted code compares
an index with the number of elements there is room for, and the type of an element, by its address,
with the type that is expected. What keeps it from calling anything else is behind the elements:
pages that were never written, or that were never committed.

**Tables as bytes** (`TableImage`, `Holds`): each element is two words, written when the instance is
made; what follows is as the platform left it.

**The addresses** (`AddressSpace`, `owner`): an access that is not committed is a signal, and which
exception it becomes depends on who owns the address.

**Calls** (`callIndirect`): for every index the outcome is a call of the element's function with its
own type, or one of the traps.
-/

namespace FractalWasm

open Codec IR FractalWasm.Runtime Platform

/-! ## Tables in memory -/

/-- A table at its addresses, with the words at them. A page is zero when it is committed. -/
structure TableImage where
  placed : PlacedTable
  words : UInt64 → UInt64

/-- A store. -/
def storeWord (words : UInt64 → UInt64) (address value : UInt64) : UInt64 → UInt64 :=
  fun address' => if address' = address then value else words address'

/-- The address of a type. -/
def typePointer (types : FunctionTypeMap) (type : FunctionType) : UInt64 :=
  (types.lookup type).getD 0

/-- What the pointers of the process are: the types there are, and the native code of functions. -/
structure Pointers where
  types : FunctionTypeMap
  nativeFunction : FunctionInstance → UInt64

namespace TableImage

/-- `createTable` -/
def createTable (platform : VirtualPages) (commits : UInt64 → UInt64 → Bool) (type : TableType) :
    Option TableImage :=
  (PlacedTable.createTable platform commits type).map (⟨·, fun _ => 0⟩)

/-- `setTableElement` -/
def setTableElement (pointers : Pointers) (index : Nat) (newValue : FunctionInstance)
    (image : TableImage) : Except Exception TableImage := do
  let placed ← image.placed.setTableElement index newValue
  wavmAssertThrow (pointers.nativeFunction newValue ≠ 0) "functionInstance->nativeFunction"
  let address := image.placed.elementAddress index
  let words := storeWord image.words address (typePointer pointers.types newValue.type)
  return ⟨placed, storeWord words (address + 8) (pointers.nativeFunction newValue)⟩

/-- The elements of a table segment, from `index` on. -/
def setTableElements (pointers : Pointers) (functions : List FunctionInstance) :
    Nat → List Nat → TableImage → Except Failure TableImage
  | _, [], image => .ok image
  | index, functionIndex :: indices, image =>
    match functions[functionIndex]? with
    | none =>
      orThrow (.error (.runtimeError
        "wavm assert: functionIndex < moduleInstance->functions.size()"))
    | some newValue => do
      let image ← orThrow (image.setTableElement pointers index newValue)
      setTableElements pointers functions (index + 1) indices image

/-- A table segment is copied into the table of the instance, which has no other. -/
def copyTableSegment (pointers : Pointers) (globals : List GlobalInstance)
    (functions : List FunctionInstance) (image : TableImage) (tableSegment : TableSegment) :
    Except Failure TableImage := do
  let base ← segmentBase globals tableSegment.baseOffset
  if tableSegment.tableIndex = 0 then
    orThrow (wavmAssertThrow
      (base + tableSegment.indices.length ≤ image.placed.table.elements.length)
      "baseOffset + tableSegment.indices.size() <= table->elements.size()")
    setTableElements pointers functions base tableSegment.indices image
  else .error .aborted

end TableImage

/-! ## The emitted code -/

/-- The tables and memories of the process, by what they reserved. -/
structure AddressSpace where
  platform : VirtualPages
  tables : List Reservation
  memories : List Reservation

namespace AddressSpace

/-- `isAddressOwnedByTable` -/
def isAddressOwnedByTable (space : AddressSpace) (address : UInt64) : Bool :=
  space.tables.any (·.owns space.platform address)

/-- The owner of an address, as `handleHardwareTrap` looks for it. -/
def owner (space : AddressSpace) (address : UInt64) : AddressOwner :=
  if space.isAddressOwnedByTable address then .table
  else if isAddressOwnedByMemory space.platform space.memories address then .memory
  else .other

end AddressSpace

namespace TableImage

/-- A page of the table was committed. -/
def isCommitted (platform : VirtualPages) (image : TableImage) (address : UInt64) : Bool :=
  image.placed.committed.any fun pages =>
    pages.1.toNat ≤ address.toNat ∧
      address.toNat < pages.1.toNat + pages.2.toNat * 2 ^ platform.pageSizeLog2.toNat

/-- A load. Where no page is committed it is a hardware trap. -/
def load (space : AddressSpace) (image : TableImage) (address : UInt64) : Except Failure UInt64 :=
  if image.isCommitted space.platform address then .ok (image.words address)
  else .error (handleHardwareTrap .accessViolation (space.owner address))

/-- `wavmIntrinsics.indirectCallSignatureMismatch` -/
def indirectCallSignatureMismatch (space : AddressSpace) (image : TableImage) (index : UInt32) :
    Except Failure UInt64 := do
  let elementValue ← image.load space (image.placed.elementAddress index.toNat + 8)
  causeException (if elementValue = 0 then .undefinedTableElement else .indirectCallSignatureMismatch)

/-- What is emitted for `call_indirect`; it comes to the address that is called. -/
def callIndirect (space : AddressSpace) (image : TableImage) (calleeType : UInt64)
    (tableElementIndex : UInt32) : Except Failure UInt64 := do
  let functionIndexZExt := tableElementIndex.toUInt64
  -- `wavmIntrinsics.indirectCallIndexOutOfBounds`
  if functionIndexZExt ≥ image.placed.maxElementIndex then causeException .undefinedTableElement
  else
    let functionTypePointer ←
      image.load space (image.placed.elementAddress functionIndexZExt.toNat)
    if calleeType ≠ functionTypePointer then
      image.indirectCallSignatureMismatch space tableElementIndex
    else image.load space (image.placed.elementAddress functionIndexZExt.toNat + 8)

end TableImage

/-! ## Addresses -/

section Addresses

variable {platform : VirtualPages} {type : TableType} {placed : PlacedTable}
  (h : platform.Documented) (hcreated : PlacedTable.Created platform type placed)

include h hcreated

/-- The elements there is room for are within what is reserved. -/
theorem base_bounds :
    placed.space.reservedBaseAddress.toNat = placed.space.baseAddress.toNat ∧
      2 ^ 14 < (placed.space.reservedNumPlatformPages <<< platform.pageSizeLog2).toNat ∧
      placed.space.baseAddress.toNat + 2 ^ 14 < 2 ^ 64 := by
  have hreserved := PlacedTable.reserved_of_createTable h hcreated
  have hstart := hreserved.start
  have hroom := hreserved.room
  have hbounded := hreserved.bounded
  have hsize := hreserved.size
  have hmax : tableMaxBytes.toNat = 2 ^ 14 := rfl
  have hwhole := Nat.lt_mul_div_succ (2 ^ 14) (Nat.two_pow_pos platform.pageSizeLog2.toNat)
  rw [Nat.mul_add, Nat.mul_one, Nat.mul_comm] at hwhole
  rw [hmax] at hsize
  omega

theorem toNat_elementAddress {i : Nat} (hi : i < 1024) :
    (placed.elementAddress i).toNat = placed.space.baseAddress.toNat + i * 16 := by
  obtain ⟨-, -, hroom⟩ := base_bounds h hcreated
  unfold PlacedTable.elementAddress
  rw [UInt64.toNat_add, PlacedTable.toNat_elementBytes (by omega), Nat.mod_eq_of_lt (by omega)]

theorem toNat_elementAddress_add {i : Nat} (hi : i < 1024) :
    (placed.elementAddress i + 8).toNat = placed.space.baseAddress.toNat + i * 16 + 8 := by
  obtain ⟨-, -, hroom⟩ := base_bounds h hcreated
  have height : (8 : UInt64).toNat = 8 := rfl
  rw [UInt64.toNat_add, toNat_elementAddress h hcreated hi, height, Nat.mod_eq_of_lt (by omega)]

theorem owner_eq {space : AddressSpace} (hplatform : space.platform = platform)
    (hmem : placed.space ∈ space.tables) {address : UInt64}
    (hlow : placed.space.baseAddress.toNat ≤ address.toNat)
    (hhigh : address.toNat < placed.space.baseAddress.toNat + 2 ^ 14) :
    space.owner address = .table := by
  subst hplatform
  obtain ⟨hstart, hsize, -⟩ := base_bounds h hcreated
  have howns : placed.space.owns space.platform address = true := by
    rw [Reservation.owns_iff (PlacedTable.reserved_of_createTable h hcreated).bounded]
    omega
  exact if_pos (List.any_eq_true.2 ⟨placed.space, hmem, howns⟩)

end Addresses

/-! ## What a table holds -/

namespace TableImage

/-- The two words of an element. -/
def elementWords (pointers : Pointers) : Option (Option FunctionInstance) → UInt64 × UInt64
  | some (some function) =>
    (typePointer pointers.types function.type, pointers.nativeFunction function)
  | _ => (0, 0)

/-- The words of a table are its elements, and zero behind them. -/
structure Holds (pointers : Pointers) (placed : PlacedTable) (image : TableImage) : Prop where
  space : image.placed.space = placed.space
  committed : image.placed.committed = placed.committed
  length : image.placed.table.elements.length = placed.table.elements.length
  words : ∀ i < 1024, (image.words (placed.elementAddress i),
    image.words (placed.elementAddress i + 8)) =
      elementWords pointers image.placed.table.elements[i]?
  native : ∀ function, some function ∈ image.placed.table.elements →
    pointers.nativeFunction function ≠ 0

/-- What becomes of a table while its elements are set. -/
inductive Steps (pointers : Pointers) (image : TableImage) : TableImage → Prop
  | refl : Steps pointers image image
  | setTableElement {image' next : TableImage} (h : Steps pointers image image') {index : Nat}
      {newValue : FunctionInstance} (hset : image'.setTableElement pointers index newValue = .ok next) :
      Steps pointers image next

section Holds

variable {platform : VirtualPages} {type : TableType} {placed : PlacedTable} {pointers : Pointers}
  {image next : TableImage} (h : platform.Documented)
  (hcreated : PlacedTable.Created platform type placed)

/-- What setting an element comes to. -/
theorem setTableElement_eq_ok {index : Nat} {newValue : FunctionInstance}
    (hset : image.setTableElement pointers index newValue = .ok next) :
    index < image.placed.table.elements.length ∧ pointers.nativeFunction newValue ≠ 0 ∧
      next.placed.space = image.placed.space ∧ next.placed.committed = image.placed.committed ∧
      next.placed.table.elements = image.placed.table.elements.set index (some newValue) ∧
      next.words = storeWord
        (storeWord image.words (image.placed.elementAddress index)
          (typePointer pointers.types newValue.type))
        (image.placed.elementAddress index + 8) (pointers.nativeFunction newValue) := by
  obtain ⟨placed', hplaced, hset⟩ := Except.bind_eq_ok.1 hset
  obtain ⟨u, hnative, hset⟩ := Except.bind_eq_ok.1 hset
  obtain ⟨u', hindex, hplaced⟩ := Except.bind_eq_ok.1 hplaced
  rw [wavmAssertThrow_eq_ok, decide_eq_true_eq] at hnative hindex
  cases hplaced
  cases hset
  exact ⟨hindex, hnative, rfl, rfl, rfl, rfl⟩

theorem Steps.length (hsteps : Steps pointers image next) :
    next.placed.table.elements.length = image.placed.table.elements.length := by
  induction hsteps with
  | refl => rfl
  | setTableElement hsteps hset ih =>
    obtain ⟨-, -, -, -, helements, -⟩ := setTableElement_eq_ok hset
    rw [helements, List.length_set, ih]

include h hcreated in
theorem holds_setTableElement (hfits : placed.table.elements.length ≤ 1024)
    (hholds : Holds pointers placed image) {index : Nat} {newValue : FunctionInstance}
    (hset : image.setTableElement pointers index newValue = .ok next) :
    Holds pointers placed next := by
  obtain ⟨hindex, hnative, hspace, hcommitted, helements, hwords⟩ := setTableElement_eq_ok hset
  have hlength := hholds.length
  have haddress : image.placed.elementAddress index = placed.elementAddress index := by
    unfold PlacedTable.elementAddress
    rw [hholds.space]
  rw [haddress] at hwords
  refine ⟨hspace.trans hholds.space, hcommitted.trans hholds.committed, ?_, fun i hi => ?_,
    fun function hmem => ?_⟩
  · rw [helements, List.length_set, hlength]
  · have hnumber := toNat_elementAddress h hcreated hi
    have hnumber' := toNat_elementAddress_add h hcreated hi
    have hindexNumber := toNat_elementAddress h hcreated (show index < 1024 by omega)
    have hindexNumber' := toNat_elementAddress_add h hcreated (show index < 1024 by omega)
    rw [hwords, helements]
    unfold storeWord
    by_cases heq : i = index
    · subst heq
      have hne : placed.elementAddress i ≠ placed.elementAddress i + 8 := by
        rw [ne_eq, ← UInt64.toNat_inj]
        omega
      rw [if_neg hne, if_pos rfl, if_pos rfl, List.getElem?_set_self hindex]
      rfl
    · have hold := hholds.words i hi
      rw [List.getElem?_set_ne (Ne.symm heq), ← hold]
      repeat rw [if_neg (by rw [← UInt64.toNat_inj]; omega)]
  · rw [helements] at hmem
    rcases List.mem_or_eq_of_mem_set hmem with hold | hnew
    · exact hholds.native function hold
    · cases hnew
      exact hnative

include h hcreated in
/-- The words of a table are its elements, whichever are set. -/
theorem Steps.holds (hfits : placed.table.elements.length ≤ 1024)
    (hholds : Holds pointers placed image) (hsteps : Steps pointers image next) :
    Holds pointers placed next := by
  induction hsteps with
  | refl => exact hholds
  | setTableElement hsteps hset ih => exact holds_setTableElement h hcreated hfits ih hset

theorem holds_created (hnone : ∀ element ∈ placed.table.elements, element = none) :
    Holds pointers placed ⟨placed, fun _ => 0⟩ where
  space := rfl
  committed := rfl
  length := rfl
  words i _ := by
    cases helement : placed.table.elements[i]? with
    | none => rfl
    | some element =>
      rw [hnone element (List.mem_of_getElem? helement)]
      rfl
  native function hmem := by
    cases hnone _ hmem

/-! ## Loads -/

section Loads

variable {space : AddressSpace} (hplatform : space.platform = platform)
  (hmem : placed.space ∈ space.tables) (hholds : Holds pointers placed image)

include h hcreated hplatform hmem

/-- A load from the room of the table reads its word, or is a trap of an element that is not there. -/
theorem load_cases (image : TableImage) (address : UInt64)
    (hlow : placed.space.baseAddress.toNat ≤ address.toNat)
    (hhigh : address.toNat < placed.space.baseAddress.toNat + 2 ^ 14) :
    image.load space address = .ok (image.words address) ∨
      image.load space address = .error (.thrown (.runtime .undefinedTableElement)) := by
  unfold load
  split
  · exact .inl rfl
  · rw [owner_eq h hcreated hplatform hmem hlow hhigh]
    exact .inr rfl

omit hmem in
include hholds in
/-- The pages of the elements are committed. -/
theorem load_of_lt (address : UInt64)
    (hlow : placed.space.baseAddress.toNat ≤ address.toNat)
    (hhigh : address.toNat < placed.space.baseAddress.toNat + placed.table.elements.length * 16) :
    image.load space address = .ok (image.words address) := by
  subst hplatform
  have hlength := hcreated.elements
  have hcommitted : image.isCommitted space.platform address = true := by
    unfold isCommitted
    rw [hholds.committed, List.any_eq_true]
    rcases hcreated.committed with ⟨-, hzero⟩ | ⟨numPages, hpages, -, hnum⟩
    · omega
    · refine ⟨_, by rw [hpages]; exact List.mem_singleton_self _, decide_eq_true ⟨hlow, ?_⟩⟩
      have hpos := Nat.two_pow_pos space.platform.pageSizeLog2.toNat
      have hup := Nat.lt_mul_div_succ
        (type.size.min * 16 + 2 ^ space.platform.pageSizeLog2.toNat - 1) hpos
      rw [← hnum, Nat.mul_add, Nat.mul_one, Nat.mul_comm _ numPages.toNat] at hup
      dsimp only
      omega
  exact if_pos hcommitted

end Loads

/-! ## Calls -/

section Calls

variable {space : AddressSpace} (hplatform : space.platform = platform)
  (hmem : placed.space ∈ space.tables) (hholds : Holds pointers placed image)
  {calleeType : UInt64} {index : UInt32}

include h hcreated hholds

theorem maxElementIndex_le_iff :
    index.toUInt64 ≥ image.placed.maxElementIndex ↔ 1024 ≤ index.toNat := by
  have hmax := PlacedTable.toNat_maxElementIndex h hcreated
  have hsame : image.placed.maxElementIndex = placed.maxElementIndex := by
    unfold PlacedTable.maxElementIndex
    rw [hholds.space]
  rw [hsame, ge_iff_le, UInt64.le_iff_toNat_le, hmax, UInt32.toNat_toUInt64]

theorem callIndirect_of_ge (hindex : 1024 ≤ index.toNat) :
    image.callIndirect space calleeType index =
      .error (.thrown (.runtime .undefinedTableElement)) :=
  if_pos ((maxElementIndex_le_iff h hcreated hholds).2 hindex)

/-- What is emitted behind the comparison of the index. -/
theorem callIndirect_of_lt (hindex : index.toNat < 1024) :
    image.callIndirect space calleeType index = (do
      let functionTypePointer ← image.load space (placed.elementAddress index.toNat)
      if calleeType ≠ functionTypePointer then do
        let elementValue ← image.load space (placed.elementAddress index.toNat + 8)
        causeException
          (if elementValue = 0 then .undefinedTableElement else .indirectCallSignatureMismatch)
      else image.load space (placed.elementAddress index.toNat + 8)) := by
  have haddress : image.placed.elementAddress index.toNat = placed.elementAddress index.toNat := by
    unfold PlacedTable.elementAddress
    rw [hholds.space]
  have hbound := mt (maxElementIndex_le_iff h hcreated hholds).1 (Nat.not_le.2 hindex)
  unfold callIndirect indirectCallSignatureMismatch
  dsimp only
  rw [if_neg hbound, UInt32.toNat_toUInt64, haddress]

include hplatform hmem in
/-- An element that is not there is a trap, whether its words read as zero or not at all. -/
theorem callIndirect_of_undefined (hcallee : calleeType ≠ 0) (hindex : index.toNat < 1024)
    (helement : elementWords pointers image.placed.table.elements[index.toNat]? = (0, 0)) :
    image.callIndirect space calleeType index =
      .error (.thrown (.runtime .undefinedTableElement)) := by
  have hwords := hholds.words index.toNat hindex
  rw [helement, Prod.mk.injEq] at hwords
  have hnumber := toNat_elementAddress h hcreated hindex
  have hnumber' := toNat_elementAddress_add h hcreated hindex
  have htype := load_cases h hcreated hplatform hmem image (placed.elementAddress index.toNat)
    (by omega) (by omega)
  have hvalue := load_cases h hcreated hplatform hmem image
    (placed.elementAddress index.toNat + 8) (by omega) (by omega)
  rw [hwords.1] at htype
  rw [hwords.2] at hvalue
  rw [callIndirect_of_lt h hcreated hholds hindex]
  rcases htype with htype | htype
  · rw [htype]
    change (if calleeType ≠ 0 then _ else _) = _
    rw [if_pos hcallee]
    rcases hvalue with hvalue | hvalue <;> rw [hvalue] <;> rfl
  · rw [htype]
    rfl

include hplatform in
/-- An element that is there is called, if its type is the one that is expected. -/
theorem callIndirect_of_defined (hfits : placed.table.elements.length ≤ 1024)
    {function : FunctionInstance}
    (helement : image.placed.table.elements[index.toNat]? = some (some function)) :
    image.callIndirect space calleeType index =
      if typePointer pointers.types function.type = calleeType then
        .ok (pointers.nativeFunction function)
      else .error (.thrown (.runtime .indirectCallSignatureMismatch)) := by
  have hlt : index.toNat < placed.table.elements.length := by
    rw [← hholds.length]
    exact (List.getElem?_eq_some_iff.1 helement).1
  have hindex : index.toNat < 1024 := by omega
  have hwords := hholds.words index.toNat hindex
  rw [helement, elementWords, Prod.mk.injEq] at hwords
  have hnumber := toNat_elementAddress h hcreated hindex
  have hnumber' := toNat_elementAddress_add h hcreated hindex
  have htype := load_of_lt h hcreated hplatform hholds (placed.elementAddress index.toNat)
    (by omega) (by omega)
  have hvalue := load_of_lt h hcreated hplatform hholds
    (placed.elementAddress index.toNat + 8) (by omega) (by omega)
  have hnative := hholds.native function (List.mem_of_getElem? helement)
  rw [callIndirect_of_lt h hcreated hholds hindex, htype, hvalue, hwords.1, hwords.2]
  change (if calleeType ≠ typePointer pointers.types function.type then _ else _) = _
  by_cases heq : typePointer pointers.types function.type = calleeType
  · rw [if_pos heq, if_neg (by simpa using heq.symm)]
  · rw [if_neg heq, if_pos (Ne.symm heq)]
    change causeException (if pointers.nativeFunction function = 0 then _ else _) = _
    rw [if_neg hnative]
    rfl

include hplatform hmem in
/-- The emitted code calls the function of an element of the expected type, and nothing else. -/
theorem callIndirect_eq (hfits : placed.table.elements.length ≤ 1024)
    (hinterned : FunctionTypeMap.Interned pointers.types) {type : FunctionType}
    (htype : pointers.types.lookup type = some calleeType) :
    image.callIndirect space calleeType index =
      match image.placed.table.elements[index.toNat]? with
      | some (some function) =>
        if function.type = type then .ok (pointers.nativeFunction function)
        else .error (.thrown (.runtime .indirectCallSignatureMismatch))
      | _ => .error (.thrown (.runtime .undefinedTableElement)) := by
  have hcallee : calleeType ≠ 0 := by
    rintro rfl
    exact hinterned.nonnull type htype
  have hundefined : elementWords pointers image.placed.table.elements[index.toNat]? = (0, 0) →
      image.callIndirect space calleeType index =
        .error (.thrown (.runtime .undefinedTableElement)) := by
    intro helement
    rcases Nat.lt_or_ge index.toNat 1024 with hindex | hindex
    · exact callIndirect_of_undefined h hcreated hplatform hmem hholds hcallee hindex helement
    · exact callIndirect_of_ge h hcreated hholds hindex
  cases helement : image.placed.table.elements[index.toNat]? with
  | none => exact hundefined (by rw [helement]; rfl)
  | some element =>
    cases element with
    | none => exact hundefined (by rw [helement]; rfl)
    | some function =>
      have hpointer : typePointer pointers.types function.type = calleeType ↔
          function.type = type := by
        constructor
        · intro heq
          unfold typePointer at heq
          cases hlookup : pointers.types.lookup function.type with
          | none =>
            rw [hlookup] at heq
            exact absurd heq.symm hcallee
          | some pointer =>
            rw [hlookup] at heq
            obtain rfl : pointer = calleeType := heq
            exact hinterned.injective _ _ _ hlookup htype
        · intro heq
          rw [typePointer, heq, htype]
          rfl
      rw [callIndirect_of_defined h hcreated hplatform hholds hfits helement]
      simp only [hpointer]

include hplatform hmem in
/-- What is called, and which traps there are. -/
theorem callIndirect_spec (hfits : placed.table.elements.length ≤ 1024)
    (hinterned : FunctionTypeMap.Interned pointers.types) {type : FunctionType}
    (htype : pointers.types.lookup type = some calleeType) :
    (∀ code, image.callIndirect space calleeType index = .ok code ↔
      ∃ function, image.placed.table.elements[index.toNat]? = some (some function) ∧
        function.type = type ∧ pointers.nativeFunction function = code) ∧
      ∀ failure, image.callIndirect space calleeType index = .error failure →
        failure = .thrown (.runtime .undefinedTableElement) ∨
          failure = .thrown (.runtime .indirectCallSignatureMismatch) := by
  rw [callIndirect_eq h hcreated hplatform hmem hholds hfits hinterned htype]
  match helement : image.placed.table.elements[index.toNat]? with
  | none | some none =>
    refine ⟨fun code => iff_of_false (by simp) ?_, fun failure hfailure => ?_⟩
    · rintro ⟨function, hfunction, -⟩
      cases hfunction
    · cases hfailure
      exact .inl rfl
  | some (some function) =>
    by_cases heq : function.type = type
    · simp only [heq, if_true]
      refine ⟨fun code => ⟨fun hcode => ?_, ?_⟩, fun failure hfailure => by cases hfailure⟩
      · cases hcode
        exact ⟨function, rfl, heq, rfl⟩
      · rintro ⟨function', hfunction, -, rfl⟩
        cases hfunction
        rfl
    · simp only [heq, if_false]
      refine ⟨fun code => iff_of_false (by simp) ?_, fun failure hfailure => ?_⟩
      · rintro ⟨function', hfunction, htype', -⟩
        cases hfunction
        exact heq htype'
      · cases hfailure
        exact .inr rfl

end Calls

end Holds

/-! ## Instances -/

section Instances

variable {pointers : Pointers} {globals : List GlobalInstance} {functions : List FunctionInstance}

/-- An element that is set in the runtime is set in memory. -/
theorem exists_setTableElement {image : TableImage} {index : Nat} {newValue : FunctionInstance}
    (hindex : index < image.placed.table.elements.length)
    (hnative : pointers.nativeFunction newValue ≠ 0) :
    ∃ next, image.setTableElement pointers index newValue = .ok next ∧
      next.placed.table = { image.placed.table with
        elements := image.placed.table.elements.set index (some newValue) } := by
  unfold setTableElement PlacedTable.setTableElement
  rw [wavmAssertThrow, if_pos (decide_eq_true hindex), wavmAssertThrow,
    if_pos (decide_eq_true hnative)]
  exact ⟨_, rfl, rfl⟩

theorem Steps.trans {image image' next : TableImage} (h : Steps pointers image image')
    (h' : Steps pointers image' next) : Steps pointers image next := by
  induction h' with
  | refl => exact h
  | setTableElement h' hset ih => exact .setTableElement ih hset

theorem setTableElements_of_runtime (hnative : ∀ function ∈ functions,
    pointers.nativeFunction function ≠ 0) {index : Nat} {indices : List Nat} {image : TableImage}
    {table : TableInstance}
    (hset : Runtime.setTableElements functions index indices image.placed.table = .ok table) :
    ∃ next, setTableElements pointers functions index indices image = .ok next ∧
      next.placed.table = table ∧ Steps pointers image next := by
  induction indices generalizing index image with
  | nil =>
    cases hset
    exact ⟨image, rfl, rfl, .refl⟩
  | cons functionIndex indices ih =>
    unfold Runtime.setTableElements at hset
    obtain ⟨u, hfunction, hset⟩ := Except.bind_eq_ok.1 hset
    obtain ⟨u', hindex, hset⟩ := Except.bind_eq_ok.1 hset
    rw [orThrow_eq_ok, wavmAssertThrow_eq_ok, decide_eq_true_eq] at hfunction hindex
    obtain ⟨newValue, hnew⟩ : ∃ newValue, functions[functionIndex]? = some newValue :=
      ⟨_, List.getElem?_eq_getElem hfunction⟩
    obtain ⟨image', hset', htable'⟩ := exists_setTableElement hindex
      (hnative newValue (List.mem_of_getElem? hnew))
    rw [hnew, ← htable'] at hset
    obtain ⟨next, hrest, htable, hsteps⟩ := ih hset
    refine ⟨next, ?_, htable, (Steps.refl.setTableElement hset').trans hsteps⟩
    unfold setTableElements
    simp only [hnew, hset']
    exact hrest

/-- A table segment that is copied in the runtime is copied in memory. -/
theorem copyTableSegment_of_runtime (hnative : ∀ function ∈ functions,
    pointers.nativeFunction function ≠ 0) {image : TableImage} {tableSegment : TableSegment}
    {tables : List TableInstance}
    (hcopy : Runtime.copyTableSegment globals functions [image.placed.table] tableSegment =
      .ok tables) :
    ∃ next, image.copyTableSegment pointers globals functions tableSegment = .ok next ∧
      tables = [next.placed.table] ∧ Steps pointers image next := by
  unfold Runtime.copyTableSegment at hcopy
  obtain ⟨base, hbase, hcopy⟩ := Except.bind_eq_ok.1 hcopy
  cases htable : [image.placed.table][tableSegment.tableIndex]? with
  | none =>
    rw [htable] at hcopy
    cases hcopy
  | some table =>
    rw [htable] at hcopy
    obtain ⟨u, hroom, hrest⟩ := Except.bind_eq_ok.1 hcopy
    obtain ⟨table', hset, hdone⟩ := Except.bind_eq_ok.1 hrest
    obtain ⟨hlt, heq⟩ := List.getElem?_eq_some_iff.1 htable
    have hzero : tableSegment.tableIndex = 0 := by simpa using hlt
    simp only [hzero, List.getElem_cons_zero] at heq
    subst heq
    obtain ⟨next, hset', htable', hsteps⟩ := setTableElements_of_runtime hnative hset
    refine ⟨next, ?_, ?_, hsteps⟩
    · unfold copyTableSegment
      rw [hbase]
      change (if tableSegment.tableIndex = 0 then _ else _) = _
      rw [if_pos hzero, hroom]
      exact hset'
    · cases hdone
      rw [hzero, htable']
      rfl

theorem foldlM_copyTableSegment_of_runtime (hnative : ∀ function ∈ functions,
    pointers.nativeFunction function ≠ 0) {image : TableImage} {tableSegments : List TableSegment}
    {tables : List TableInstance}
    (hcopy : tableSegments.foldlM (Runtime.copyTableSegment globals functions)
      [image.placed.table] = .ok tables) :
    ∃ next, tableSegments.foldlM (copyTableSegment pointers globals functions) image = .ok next ∧
      tables = [next.placed.table] ∧ Steps pointers image next := by
  induction tableSegments generalizing image with
  | nil =>
    cases hcopy
    exact ⟨image, rfl, rfl, .refl⟩
  | cons tableSegment tableSegments ih =>
    rw [List.foldlM_cons] at hcopy
    obtain ⟨tables', hfirst, hcopy⟩ := Except.bind_eq_ok.1 hcopy
    obtain ⟨image', hfirst', rfl, hsteps⟩ := copyTableSegment_of_runtime hnative hfirst
    obtain ⟨next, hrest, htables, hsteps'⟩ := ih hcopy
    refine ⟨next, ?_, htables, hsteps.trans hsteps'⟩
    rw [List.foldlM_cons, hfirst']
    exact hrest

/-- The table of the runtime is the one that is placed. -/
theorem tables_eq_of_createTable {instantiated : Runtime.Platform} {module : Module}
    {tableDef : TableType} {platform : VirtualPages} {commits : UInt64 → UInt64 → Bool}
    {placed : PlacedTable} {tables : List TableInstance} (htable : module.tables.defs = [tableDef])
    (hplaced : PlacedTable.createTable platform commits tableDef = some placed)
    (h : instantiateTables instantiated module = .ok tables) : tables = [placed.table] := by
  unfold instantiateTables at h
  rw [htable, List.mapM_cons, List.mapM_nil] at h
  obtain ⟨table, hone, h⟩ := Except.bind_eq_ok.1 h
  split at hone
  · cases hone
  · next created hcreated =>
    cases hone
    cases h
    rw [PlacedTable.table_eq_of_createTable hplaced, table_eq_of_createTable hcreated]

end Instances

end TableImage

/-- **Indirect calls.** In an instance whose table has no more elements than there is room for, the
emitted code calls the function an element was set to exactly if the index is one of an element of
the type that is expected. Everything else is a trap. -/
theorem callIndirect_safe {instantiated : Runtime.Platform} {module : Module}
    {linked : List Intrinsics.Function} {heap heap' : Heap} {instance_ : ModuleInstance}
    {tableDef : TableType} {commits : UInt64 → UInt64 → Bool} {image : TableImage}
    {space : AddressSpace} {pointers : Pointers}
    (hinstance : instantiateModule instantiated module linked heap = (.ok instance_, heap'))
    (htable : module.tables.defs = [tableDef])
    (hplatform : space.platform.Documented)
    (hcreate : TableImage.createTable space.platform commits tableDef = some image)
    (hmem : image.placed.space ∈ space.tables)
    (hfits : ∀ table ∈ instance_.tables, table.elements.length ≤ Runtime.maximumTableElements.toNat)
    (htypes : FunctionTypeMap.Gets [] pointers.types)
    (hnative : ∀ function ∈ instance_.functions, pointers.nativeFunction function ≠ 0) :
    ∃ copied table,
      module.tableSegments.foldlM
        (TableImage.copyTableSegment pointers instance_.globals instance_.functions) image =
          .ok copied ∧
      instance_.tables = [table] ∧
      ∀ (index : UInt32) (type : FunctionType) (calleeType : UInt64),
        pointers.types.lookup type = some calleeType →
          (∀ code, copied.callIndirect space calleeType index = .ok code ↔
            ∃ function, table.elements[index.toNat]? = some (some function) ∧
              function.type = type ∧ pointers.nativeFunction function = code) ∧
          ∀ failure, copied.callIndirect space calleeType index = .error failure →
            failure = .thrown (.runtime .undefinedTableElement) ∨
              failure = .thrown (.runtime .indirectCallSignatureMismatch) := by
  obtain ⟨tables, htables, hcopy⟩ := tables_of_instantiateModule hinstance
  obtain ⟨placed, hplaced, rfl⟩ := Option.map_eq_some_iff.1 hcreate
  obtain rfl := TableImage.tables_eq_of_createTable htable hplaced htables
  let image : TableImage := ⟨placed, fun _ => 0⟩
  have hcopy' : module.tableSegments.foldlM
      (Runtime.copyTableSegment instance_.globals instance_.functions) [image.placed.table] =
        .ok instance_.tables := hcopy
  obtain ⟨copied, hcopied, htables', hsteps⟩ :=
    TableImage.foldlM_copyTableSegment_of_runtime hnative hcopy'
  have hempty := PlacedTable.table_eq_of_createTable hplaced
  have hlength : placed.table.elements.length = tableDef.size.min := by
    rw [hempty]
    exact List.length_replicate
  have hroom : placed.table.elements.length ≤ 1024 := by
    have hlast := hfits copied.placed.table (by rw [htables']; exact List.mem_singleton_self _)
    rw [hsteps.length] at hlast
    exact hlast
  have hcreated := PlacedTable.created_of_createTable hplatform (by omega) hplaced
  have hholds : TableImage.Holds pointers placed copied :=
    hsteps.holds hplatform hcreated hroom (TableImage.holds_created fun element helement => by
      rw [hempty] at helement
      exact List.eq_of_mem_replicate helement)
  refine ⟨copied, copied.placed.table, hcopied, htables', fun index type calleeType htype => ?_⟩
  exact TableImage.callIndirect_spec hplatform hcreated rfl hmem hholds hroom
    (FunctionTypeMap.interned_of_gets htypes) htype

/-- A module whose only function is the second element of a table of three. -/
def oneElementModule : Module :=
  { Module.empty with
    types := [⟨.none, []⟩]
    functions := ⟨[], [⟨0, [], [], []⟩]⟩
    tables := ⟨[], [PlacedTable.smallTable]⟩
    tableSegments := [⟨0, .i32Const 1, [0]⟩] }

theorem callIndirect_safe_sample :
    ∃ image copied, TableImage.createTable lowPages (fun _ _ => true) PlacedTable.smallTable =
        some image ∧
      oneElementModule.tableSegments.foldlM
        (TableImage.copyTableSegment ⟨[(⟨.none, []⟩, 0x5000)], fun _ => 0x4000⟩ []
          [.definition 0 ⟨.none, []⟩]) image = .ok copied ∧
      copied.callIndirect ⟨lowPages, [image.placed.space], []⟩ 0x5000 1 = .ok 0x4000 := by
  have hcreate : (TableImage.createTable lowPages (fun _ _ => true)
    PlacedTable.smallTable).isSome = true := by decide
  obtain ⟨image, himage⟩ := Option.isSome_iff_exists.1 hcreate
  let function : FunctionInstance := .definition 0 ⟨.none, []⟩
  let instance_ : ModuleInstance := ⟨[], [function],
    [⟨PlacedTable.smallTable, [none, some function, none]⟩], [], [], none⟩
  have hinstance : instantiateModule ⟨true, true, true, true, fun _ => .ok ()⟩ oneElementModule []
      ⟨[], none⟩ = (.ok instance_, ⟨[], none⟩) := rfl
  have hnew : FunctionTypeMap.Fresh [] 0x5000 := ⟨by decide, fun _ h => by cases h⟩
  have htypes : FunctionTypeMap.Gets [] [(⟨.none, []⟩, 0x5000)] := .get .refl ⟨.none, []⟩ hnew
  let pointers : Pointers := ⟨[(⟨.none, []⟩, 0x5000)], fun _ => 0x4000⟩
  let space : AddressSpace := ⟨lowPages, [image.placed.space], []⟩
  have hmem : image.placed.space ∈ space.tables := List.mem_singleton_self _
  have hnative : ∀ function ∈ instance_.functions, pointers.nativeFunction function ≠ 0 :=
    fun _ _ h => absurd h (by decide : ¬(0x4000 : UInt64) = 0)
  obtain ⟨copied, table, hcopied, htable, hcall⟩ := callIndirect_safe hinstance rfl
    documented_lowPages himage hmem (by decide) htypes hnative
  cases htable
  exact ⟨image, copied, himage, hcopied, ((hcall 1 ⟨.none, []⟩ 0x5000 rfl).1 0x4000).2
    ⟨function, rfl, rfl, rfl⟩⟩

end FractalWasm
