import FractalWasm.Runtime.AddressSpace
import FractalWasm.Runtime.ModuleInstance
import FractalWasm.WASM.Deserialize

/-!
# The address space of a table

The addresses behind `Runtime/Table.cpp`. A table reserves room for 1024 elements, and compiled code
calls indirectly with any index below that number. The table is grown to the minimum of its type,
which is compared with the maximum of the type and with nothing else.

**Pages** (`getNumPlatformPages`): the bytes of a table rounded up to pages, with a guard behind
them.

**Tables** (`Created`): a created table can be called with every index of compiled code exactly when
its minimum is within the elements reserved; a larger one is written behind its reservation.
-/

namespace FractalWasm.Runtime

open Codec IR Serialization

/-- `sizeof(TableInstance::FunctionElement)` -/
def functionElementBytes : UInt64 := 16

/-- `wasm_constraints::maximum_table_elements` -/
def maximumTableElements : UInt64 := 1024

/-- The bytes `createTable` reserves. -/
def tableMaxBytes : UInt64 := functionElementBytes * maximumTableElements

/-- `getNumPlatformPages` -/
def getNumPlatformPages (platform : VirtualPages) (numBytes : UInt64) : UInt64 :=
  (numBytes + (1 <<< platform.pageSizeLog2) - 1) >>> platform.pageSizeLog2

/-- A table at its addresses, with the pages that were committed for it, each range by its first
address and its number of pages, and the addresses of the elements that were written. -/
structure PlacedTable where
  table : TableInstance
  space : Reservation
  committed : List (UInt64 × UInt64)
  written : List UInt64

namespace PlacedTable

/-- `growTable`, when `commits` says which pages the platform commits; `none` is -1. -/
def growTable (platform : VirtualPages) (commits : UInt64 → UInt64 → Bool) (numNewElements : Nat)
    (placed : PlacedTable) : Option PlacedTable :=
  let elements := placed.table.elements
  if 0 < numNewElements then
    if placed.table.type.size.max < numNewElements ∨
        placed.table.type.size.max - numNewElements < elements.length then none
    else
      let previousNumPlatformPages :=
        getNumPlatformPages platform (elements.length.toUInt64 * functionElementBytes)
      let newNumPlatformPages := getNumPlatformPages platform
        ((elements.length + numNewElements).toUInt64 * functionElementBytes)
      let table := { placed.table with
        elements := elements ++ List.replicate numNewElements none }
      if newNumPlatformPages ≠ previousNumPlatformPages then
        let pages := (placed.space.baseAddress +
          (previousNumPlatformPages <<< platform.pageSizeLog2),
            newNumPlatformPages - previousNumPlatformPages)
        if commits pages.1 pages.2 then
          some { placed with table, committed := placed.committed ++ [pages] }
        else none
      else some { placed with table }
  else some placed

/-- `createTable`; `none` is the null pointer. No minimum is over `UINTPTR_MAX`. -/
def createTable (platform : VirtualPages) (commits : UInt64 → UInt64 → Bool) (type : TableType) :
    Option PlacedTable := do
  let space ← reserve platform tableMaxBytes (1 <<< platform.pageSizeLog2)
  growTable platform commits type.size.min ⟨⟨type, []⟩, space, [], []⟩

/-- `&table->baseAddress[index]` -/
def elementAddress (placed : PlacedTable) (index : Nat) : UInt64 :=
  placed.space.baseAddress + index.toUInt64 * functionElementBytes

/-- `setTableElement` -/
def setTableElement (index : Nat) (newValue : FunctionInstance) (placed : PlacedTable) :
    Except Exception PlacedTable := do
  wavmAssertThrow (index < placed.table.elements.length) "index < table->elements.size()"
  return { placed with
    table := { placed.table with elements := placed.table.elements.set index (some newValue) }
    written := placed.written ++ [placed.elementAddress index] }

/-- The index from which on `call_indirect` traps: `defaultTableMaxElementIndex`. -/
def maxElementIndex (placed : PlacedTable) : UInt64 :=
  placed.space.endOffset / functionElementBytes

/-- What becomes of a table while its elements are set. -/
inductive Steps (placed : PlacedTable) : PlacedTable → Prop
  | refl : Steps placed placed
  | setTableElement {placed' next : PlacedTable} (h : Steps placed placed') {index : Nat}
      {newValue : FunctionInstance} (hset : placed'.setTableElement index newValue = .ok next) :
      Steps placed next

/-- Everything the table uses is within its reservation, which has room for all indices that compiled
code lets through. -/
structure Inside (platform : VirtualPages) (placed : PlacedTable) : Prop where
  committed : ∀ pages ∈ placed.committed,
    placed.space.baseAddress.toNat ≤ pages.1.toNat ∧
      pages.1.toNat + pages.2.toNat * 2 ^ platform.pageSizeLog2.toNat ≤
        placed.space.baseAddress.toNat + tableMaxBytes.toNat
  written : ∀ address ∈ placed.written,
    placed.space.baseAddress.toNat ≤ address.toNat ∧
      address.toNat + functionElementBytes.toNat ≤
        placed.space.baseAddress.toNat + tableMaxBytes.toNat
  bounded : placed.table.elements.length ≤ placed.maxElementIndex.toNat

end PlacedTable

/-! ## Pages -/

section Pages

variable {platform : VirtualPages} (h : platform.Documented)

include h

theorem toNat_pageSize :
    ((1 : UInt64) <<< platform.pageSizeLog2).toNat = 2 ^ platform.pageSizeLog2.toNat := by
  have hle : 2 ^ platform.pageSizeLog2.toNat ≤ 2 ^ 16 := Nat.pow_le_pow_right (by omega) h.small
  have hone : (1 : UInt64).toNat = 1 := rfl
  rw [h.toNat_shiftLeft (by rw [hone]; omega), hone, Nat.one_mul]

theorem toNat_getNumPlatformPages {numBytes : UInt64} (hlt : numBytes.toNat < 2 ^ 63) :
    (getNumPlatformPages platform numBytes).toNat =
      (numBytes.toNat + 2 ^ platform.pageSizeLog2.toNat - 1) /
        2 ^ platform.pageSizeLog2.toNat := by
  have hle : 2 ^ platform.pageSizeLog2.toNat ≤ 2 ^ 16 := Nat.pow_le_pow_right (by omega) h.small
  have hpos : 0 < 2 ^ platform.pageSizeLog2.toNat := Nat.two_pow_pos _
  have hone : (1 : UInt64).toNat = 1 := rfl
  have hsum : (numBytes + 1 <<< platform.pageSizeLog2).toNat =
      numBytes.toNat + 2 ^ platform.pageSizeLog2.toNat := by
    rw [UInt64.toNat_add, toNat_pageSize h, Nat.mod_eq_of_lt (by omega)]
  unfold getNumPlatformPages
  rw [h.toNat_shiftRight, UInt64.toNat_sub_of_le _ _ (UInt64.le_iff_toNat_le.2 (by omega)), hsum,
    hone]

omit h in
/-- So many bytes in whole pages are within a power of two of bytes exactly if there are none, or
they are and a page is. -/
theorem wholePages_le_iff {numBytes k limit : Nat} :
    (numBytes + 2 ^ k - 1) / 2 ^ k * 2 ^ k ≤ 2 ^ limit ↔
      numBytes = 0 ∨ numBytes ≤ 2 ^ limit ∧ k ≤ limit := by
  have hpos : 0 < 2 ^ k := Nat.two_pow_pos k
  constructor
  · intro hle
    by_cases hzero : numBytes = 0
    · exact .inl hzero
    · have hup : numBytes ≤ (numBytes + 2 ^ k - 1) / 2 ^ k * 2 ^ k := by
        have hlt := Nat.lt_mul_of_div_lt
          (Nat.lt_succ_self ((numBytes + 2 ^ k - 1) / 2 ^ k)) hpos
        rw [Nat.succ_eq_add_one, Nat.add_mul, Nat.one_mul] at hlt
        omega
      have hpage : 2 ^ k ≤ (numBytes + 2 ^ k - 1) / 2 ^ k * 2 ^ k := by
        apply Nat.le_mul_of_pos_left
        exact Nat.div_pos (by omega) hpos
      exact .inr ⟨Nat.le_trans hup hle,
        (Nat.pow_le_pow_iff_right Nat.one_lt_two).1 (Nat.le_trans hpage hle)⟩
  · rintro (rfl | ⟨hle, hk⟩)
    · rw [Nat.zero_add, Nat.div_eq_of_lt (by omega), Nat.zero_mul]
      exact Nat.zero_le _
    · obtain ⟨count, hcount⟩ := Nat.pow_dvd_pow 2 hk
      rw [hcount, Nat.mul_comm (2 ^ k) count]
      apply Nat.mul_le_mul_right
      rw [Nat.div_le_iff_le_mul_add_pred hpos]
      rw [hcount] at hle
      omega

end Pages

/-! ## Created tables -/

namespace PlacedTable

/-- A table as it is created: of the minimum of its type, with the whole pages that takes. -/
structure Created (platform : VirtualPages) (type : TableType) (placed : PlacedTable) : Prop where
  reserved : reserve platform tableMaxBytes (1 <<< platform.pageSizeLog2) = some placed.space
  elements : placed.table.elements.length = type.size.min
  written : placed.written = []
  committed : placed.committed = [] ∧ type.size.min = 0 ∨
    ∃ numPages : UInt64, placed.committed = [(placed.space.baseAddress, numPages)] ∧
      0 < type.size.min ∧
      numPages.toNat = (type.size.min * 16 + 2 ^ platform.pageSizeLog2.toNat - 1) /
        2 ^ platform.pageSizeLog2.toNat

theorem min_lt_of_validate {type : TableType} (h : type.validate = .ok ()) :
    type.size.min < 2 ^ 32 := by
  obtain ⟨u, -, hsize⟩ := Except.bind_eq_ok.1 h
  unfold SizeConstraints.validate at hsize
  dsimp only at hsize
  obtain ⟨u', hmin, hmax⟩ := Except.bind_eq_ok.1 hsize
  rw [validateUnless_eq_ok, decide_eq_false_iff_not] at hmin hmax
  omega

variable {platform : VirtualPages} {commits : UInt64 → UInt64 → Bool} {type : TableType}
  {placed : PlacedTable}

theorem toNat_elementBytes {n : Nat} (hlt : n < 2 ^ 32) :
    (n.toUInt64 * functionElementBytes).toNat = n * 16 := by
  have hbytes : functionElementBytes.toNat = 16 := rfl
  have hn : n.toUInt64.toNat = n := by
    rw [Nat.toUInt64_eq, UInt64.toNat_ofNat', Nat.mod_eq_of_lt (by omega)]
  rw [UInt64.toNat_mul, hn, hbytes, Nat.mod_eq_of_lt (by omega)]

theorem created_of_createTable (h : platform.Documented) (hmin : type.size.min < 2 ^ 32)
    (hcreate : createTable platform commits type = some placed) :
    Created platform type placed := by
  obtain ⟨space, hreserve, hgrow⟩ := Option.bind_eq_some_iff.1 hcreate
  unfold growTable at hgrow
  dsimp only at hgrow
  by_cases hpos : 0 < type.size.min
  · have hprevious : getNumPlatformPages platform
        (([] : List (Option FunctionInstance)).length.toUInt64 * functionElementBytes) = 0 := by
      apply UInt64.toNat_inj.1
      have hpage : 0 < 2 ^ platform.pageSizeLog2.toNat := Nat.two_pow_pos _
      have hzero : (0 : UInt64).toNat = 0 := rfl
      rw [List.length_nil, toNat_getNumPlatformPages h (by rw [toNat_elementBytes] <;> decide),
        toNat_elementBytes (by decide), Nat.zero_mul, Nat.zero_add, Nat.div_eq_of_lt (by omega),
        hzero]
    have hnew : (getNumPlatformPages platform
        ((([] : List (Option FunctionInstance)).length + type.size.min).toUInt64 *
          functionElementBytes)).toNat =
        (type.size.min * 16 + 2 ^ platform.pageSizeLog2.toNat - 1) /
          2 ^ platform.pageSizeLog2.toNat := by
      rw [List.length_nil, Nat.zero_add,
        toNat_getNumPlatformPages h (by rw [toNat_elementBytes hmin]; omega),
        toNat_elementBytes hmin]
    rw [if_pos hpos, hprevious] at hgrow
    generalize getNumPlatformPages platform
      ((([] : List (Option FunctionInstance)).length + type.size.min).toUInt64 *
        functionElementBytes) = numPages at hnew hgrow
    have hpages : numPages ≠ 0 := by
      rintro rfl
      have hpage : 0 < 2 ^ platform.pageSizeLog2.toNat := Nat.two_pow_pos _
      have hdiv := Nat.div_pos (by omega : 2 ^ platform.pageSizeLog2.toNat ≤
        type.size.min * 16 + 2 ^ platform.pageSizeLog2.toNat - 1) hpage
      have hzero : (0 : UInt64).toNat = 0 := rfl
      omega
    split at hgrow
    · cases hgrow
    · split at hgrow
      · cases hgrow
        refine ⟨hreserve, by simp, rfl, .inr ⟨numPages, ?_, hpos, hnew⟩⟩
        simp
      · cases hgrow
  · rw [if_neg hpos] at hgrow
    cases hgrow
    exact ⟨hreserve, by simp; omega, rfl, .inl ⟨rfl, by omega⟩⟩

/-- Setting an element keeps the number of elements and the pages. -/
theorem Steps.same {placed' : PlacedTable} (h : Steps placed placed') :
    placed'.space = placed.space ∧ placed'.committed = placed.committed ∧
      placed'.table.elements.length = placed.table.elements.length := by
  induction h with
  | refl => exact ⟨rfl, rfl, rfl⟩
  | setTableElement h hset ih =>
    obtain ⟨u, -, hnext⟩ := Except.bind_eq_ok.1 hset
    cases hnext
    exact ⟨ih.1, ih.2.1, by simp [ih.2.2]⟩

/-- What is written are the addresses of elements that the table has. -/
theorem Steps.written {placed' : PlacedTable} (h : Steps placed placed')
    (hwritten : placed.written = []) : ∀ address ∈ placed'.written,
      ∃ index < placed.table.elements.length, address = placed.elementAddress index := by
  induction h with
  | refl =>
    intro address hmem
    rw [hwritten] at hmem
    cases hmem
  | @setTableElement placed' next h index newValue hset ih =>
    obtain ⟨hspace, -, hlength⟩ := h.same
    obtain ⟨u, hindex, hnext⟩ := Except.bind_eq_ok.1 hset
    rw [wavmAssertThrow_eq_ok, decide_eq_true_iff] at hindex
    cases hnext
    intro address hmem
    rcases List.mem_append.1 hmem with hmem | hmem
    · exact ih address hmem
    · rw [List.mem_singleton.1 hmem]
      refine ⟨index, by omega, ?_⟩
      unfold elementAddress
      rw [hspace]

theorem reserved_of_createTable (h : platform.Documented) (hcreated : Created platform type placed) :
    Reserved platform tableMaxBytes.toNat (2 ^ platform.pageSizeLog2.toNat) placed.space := by
  have hsmall := h.small
  have hsize : tableMaxBytes.toNat < 2 ^ 63 := by decide
  have hreserved := reserved_of_reserve h (toNat_pageSize h) (Nat.le_refl _) (by omega) hsize
    hcreated.reserved
  rwa [toNat_pageSize h] at hreserved

theorem toNat_maxElementIndex (h : platform.Documented) (hcreated : Created platform type placed) :
    placed.maxElementIndex.toNat = 1024 := by
  unfold maxElementIndex
  rw [UInt64.toNat_div, (reserved_of_createTable h hcreated).endOffset]
  rfl

theorem elementAddress_bounds (h : platform.Documented) (hcreated : Created platform type placed)
    (hpage : platform.pageSizeLog2.toNat ≤ 14) {index : Nat} (hindex : index < 1024) :
    placed.space.baseAddress.toNat ≤ (placed.elementAddress index).toNat ∧
      (placed.elementAddress index).toNat + functionElementBytes.toNat ≤
        placed.space.baseAddress.toNat + 2 ^ 14 := by
  have hreserved := reserved_of_createTable h hcreated
  have hroom := hreserved.room
  have hsize := hreserved.size
  have hbounded := hreserved.bounded
  have hmax : tableMaxBytes.toNat = 2 ^ 14 := rfl
  have hbytes : functionElementBytes.toNat = 16 := rfl
  have hoffset := toNat_elementBytes (Nat.lt_trans hindex (by decide : 1024 < 2 ^ 32))
  rw [hmax, Nat.div_mul_cancel (Nat.pow_dvd_pow 2 hpage)] at hsize
  have hlt : placed.space.baseAddress.toNat + index * 16 < 2 ^ 64 := by
    generalize 2 ^ platform.pageSizeLog2.toNat = page at hroom hsize
    omega
  unfold elementAddress
  rw [UInt64.toNat_add, hoffset, Nat.mod_eq_of_lt hlt, hbytes]
  omega

/-- **Tables.** A table that is created stays within its reservation, whichever elements are set,
exactly if its type asks for no element, or for no more than there is room for, in pages that are no
larger than the reservation. -/
theorem table_within_reservation_iff (h : platform.Documented) (hvalid : type.validate = .ok ())
    (hcreate : createTable platform commits type = some placed) :
    (∀ placed', Steps placed placed' → Inside platform placed') ↔
      type.size.min = 0 ∨ type.size.min ≤ 1024 ∧ platform.pageSizeLog2.toNat ≤ 14 := by
  have hmin := min_lt_of_validate hvalid
  have hcreated := created_of_createTable h hmin hcreate
  have helements := hcreated.elements
  have hmax : tableMaxBytes.toNat = 2 ^ 14 := rfl
  have hfits : (type.size.min * 16 + 2 ^ platform.pageSizeLog2.toNat - 1) /
      2 ^ platform.pageSizeLog2.toNat * 2 ^ platform.pageSizeLog2.toNat ≤ 2 ^ 14 ↔
        type.size.min = 0 ∨ type.size.min ≤ 1024 ∧ platform.pageSizeLog2.toNat ≤ 14 := by
    rw [wholePages_le_iff]
    omega
  rw [← hfits]
  constructor
  · intro hinside
    have hplaced := hinside placed .refl
    rcases hcreated.committed with ⟨-, hzero⟩ | ⟨numPages, hcommitted, hpos, hnum⟩
    · exact hfits.2 (.inl hzero)
    · have hpages := (hplaced.committed (placed.space.baseAddress, numPages)
        (by rw [hcommitted]; exact List.mem_singleton_self _)).2
      rw [hnum, hmax] at hpages
      dsimp only at hpages
      omega
  · intro hle placed' hsteps
    obtain ⟨hspace, hcommitted', hlength⟩ := hsteps.same
    refine ⟨fun pages hmem => ?_, fun address hmem => ?_, ?_⟩
    · rw [hcommitted'] at hmem
      rw [hspace, hmax]
      rcases hcreated.committed with ⟨hnone, -⟩ | ⟨numPages, hcommitted, -, hnum⟩
      · rw [hnone] at hmem
        cases hmem
      · rw [hcommitted] at hmem
        rw [List.mem_singleton.1 hmem, hnum]
        exact ⟨Nat.le_refl _, Nat.add_le_add_left hle _⟩
    · obtain ⟨index, hindex, rfl⟩ := hsteps.written hcreated.written address hmem
      obtain hzero | ⟨hfew, hpage⟩ := hfits.1 hle
      · omega
      · rw [hspace, hmax]
        exact elementAddress_bounds h hcreated hpage (by omega)
    · have hbound' : placed'.maxElementIndex = placed.maxElementIndex := by
        unfold maxElementIndex
        rw [hspace]
      rw [hbound', toNat_maxElementIndex h hcreated]
      omega

/-- The table is that of the runtime, without its addresses. -/
theorem table_eq_of_createTable
    (hcreate : createTable platform commits type = some placed) :
    placed.table = ⟨type, List.replicate type.size.min none⟩ := by
  obtain ⟨space, -, hgrow⟩ := Option.bind_eq_some_iff.1 hcreate
  unfold growTable at hgrow
  dsimp only at hgrow
  split at hgrow
  · split at hgrow
    · cases hgrow
    · split at hgrow
      · split at hgrow
        · cases hgrow
          rfl
        · cases hgrow
      · cases hgrow
        rfl
  · next hzero =>
    cases hgrow
    rw [Nat.eq_zero_of_not_pos hzero]
    rfl

/-- A table of three elements. -/
def smallTable : TableType := ⟨.anyfunc, false, ⟨3, 9⟩⟩

theorem table_within_reservation_sample :
    ∃ placed, createTable lowPages (fun _ _ => true) smallTable = some placed ∧
      ∀ placed', Steps placed placed' → Inside lowPages placed' := by
  have hcreate : (createTable lowPages (fun _ _ => true) smallTable).isSome = true := by decide
  obtain ⟨placed, hplaced⟩ := Option.isSome_iff_exists.1 hcreate
  exact ⟨placed, hplaced, (table_within_reservation_iff documented_lowPages (by decide)
    hplaced).2 (.inr ⟨by decide, by decide⟩)⟩

/-- `(table 1025 anyfunc)` -/
def largeTableBytes : Bytes := [0, 0x61, 0x73, 0x6d, 1, 0, 0, 0, 4, 5, 1, 0x70, 0, 0x81, 8]

def largeTable : TableType := ⟨.anyfunc, false, ⟨1025, uint64Max⟩⟩

/-- The contract is decoded, and its table has an element that lies behind the reservation. -/
theorem table_not_within_reservation :
    (WASM.decode largeTableBytes).map (·.tables.defs) = .ok [largeTable] ∧
      largeTable.validate = .ok () ∧
        ∃ placed, createTable lowPages (fun _ _ => true) largeTable = some placed ∧
          ¬ Inside lowPages placed := by
  refine ⟨by decide +kernel, by decide, ?_⟩
  have hcreate : (createTable lowPages (fun _ _ => true) largeTable).isSome = true := rfl
  obtain ⟨placed, hplaced⟩ := Option.isSome_iff_exists.1 hcreate
  refine ⟨placed, hplaced, fun hinside => ?_⟩
  have hcreated := created_of_createTable documented_lowPages (by decide) hplaced
  have hbounded := hinside.bounded
  rw [hcreated.elements, toNat_maxElementIndex documented_lowPages hcreated] at hbounded
  exact absurd hbounded (by decide)

end PlacedTable

end FractalWasm.Runtime
