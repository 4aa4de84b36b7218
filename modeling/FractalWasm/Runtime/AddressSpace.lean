import FractalWasm.Codec.Words
import FractalWasm.Runtime.GrowMemory
import Mathlib.Data.UInt

/-!
# Address space

The addresses behind `Runtime/Memory.cpp`, on a 64-bit host. A memory reserves twelve gibibytes,
eight from an aligned address on, and the compiled code adds an address operand and a static offset
of 32 bits each to that address without a check: the sum cannot leave what is reserved.

**The platform** (`VirtualPages.Documented`): an allocation is as large as asked for and does not
wrap around, which is what the system calls promise; the alignment is the code's own arithmetic.

**The sandbox** (`access_within_reservation`): every byte that compiled code can address lies in the
reservation, for all operands and offsets.
-/

namespace FractalWasm.Runtime

/-- What the platform does with virtual pages; the null pointer is 0. -/
structure VirtualPages where
  pageSizeLog2 : UInt64
  allocateVirtualPages : UInt64 → UInt64

namespace VirtualPages

/-- `allocateVirtualPagesAligned`: the aligned address, and what the two out-parameters are set
to. -/
def allocateVirtualPagesAligned (platform : VirtualPages) (numBytes alignmentBytes : UInt64) :
    UInt64 × UInt64 × UInt64 :=
  let numAllocatedVirtualPages := numBytes >>> platform.pageSizeLog2
  let alignmentPages := alignmentBytes >>> platform.pageSizeLog2
  let unalignedNumPlatformPages := numAllocatedVirtualPages + alignmentPages
  let unalignedBaseAddress := platform.allocateVirtualPages unalignedNumPlatformPages
  if unalignedBaseAddress = 0 then (0, 0, 0)
  else
    ((unalignedBaseAddress + alignmentBytes - 1) &&& ~~~(alignmentBytes - 1),
      unalignedBaseAddress, unalignedNumPlatformPages)

end VirtualPages

/-- The address space of a memory, or of a table. -/
structure Reservation where
  baseAddress : UInt64
  endOffset : UInt64
  reservedBaseAddress : UInt64
  reservedNumPlatformPages : UInt64

/-- A reservation of `numBytes`; `none` is the null pointer. -/
def reserve (platform : VirtualPages) (numBytes alignmentBytes : UInt64) : Option Reservation :=
  let (baseAddress, reservedBaseAddress, reservedNumPlatformPages) :=
    platform.allocateVirtualPagesAligned numBytes alignmentBytes
  if baseAddress = 0 then none
  else some ⟨baseAddress, numBytes, reservedBaseAddress, reservedNumPlatformPages⟩

/-- The address space `createMemory` reserves. -/
def reserveMemory (platform : VirtualPages) : Option Reservation :=
  reserve platform (8 * 1024 * 1024 * 1024) (4 * 1024 * 1024 * 1024)

/-- One round of `isAddressOwnedByMemory`. -/
def Reservation.owns (platform : VirtualPages) (address : UInt64) (memory : Reservation) : Bool :=
  memory.reservedBaseAddress ≤ address &&
    address < memory.reservedBaseAddress +
      (memory.reservedNumPlatformPages <<< platform.pageSizeLog2)

/-- `isAddressOwnedByMemory`, of the memories there are. -/
def isAddressOwnedByMemory (platform : VirtualPages) (memories : List Reservation)
    (address : UInt64) : Bool :=
  memories.any (·.owns platform address)

/-- `coerceByteIndexToPointer`: the address the emitted code computes. -/
def coerceByteIndexToPointer (memory : Reservation) (byteIndex offset : UInt32) : UInt64 :=
  let byteIndex := byteIndex.toUInt64
  let byteIndex := if offset ≠ 0 then byteIndex + offset.toUInt64 else byteIndex
  memory.baseAddress + byteIndex

/-! ## The platform -/

/-- What is documented about the pages of the platform: their size, which the library checks to be
no more than a page of the format, and that a range of pages starts at a page and ends below the end
of the address space. -/
structure VirtualPages.Documented (platform : VirtualPages) : Prop where
  small : platform.pageSizeLog2.toNat ≤ 16
  large : 3 ≤ platform.pageSizeLog2.toNat
  aligned : ∀ numPages,
    2 ^ platform.pageSizeLog2.toNat ∣ (platform.allocateVirtualPages numPages).toNat
  bounded : ∀ numPages, platform.allocateVirtualPages numPages ≠ 0 →
    (platform.allocateVirtualPages numPages).toNat +
      (numPages <<< platform.pageSizeLog2).toNat < 2 ^ 64

variable {platform : VirtualPages}

namespace VirtualPages

variable (h : platform.Documented)

include h

theorem Documented.toNat_shiftRight (n : UInt64) :
    (n >>> platform.pageSizeLog2).toNat = n.toNat / 2 ^ platform.pageSizeLog2.toNat := by
  have hsmall := h.small
  rw [UInt64.toNat_shiftRight, Nat.mod_eq_of_lt (by omega), Nat.shiftRight_eq_div_pow]

theorem Documented.toNat_shiftLeft {n : UInt64}
    (hlt : n.toNat * 2 ^ platform.pageSizeLog2.toNat < 2 ^ 64) :
    (n <<< platform.pageSizeLog2).toNat = n.toNat * 2 ^ platform.pageSizeLog2.toNat := by
  have hsmall := h.small
  rw [UInt64.toNat_shiftLeft, Nat.mod_eq_of_lt (by omega : _ < 64), Nat.shiftLeft_eq,
    Nat.mod_eq_of_lt hlt]

end VirtualPages

/-- An address rounded up to an alignment of whole pages is at least a page below the next one. -/
theorem roundUp_bounds {base page pages : Nat} (hpage : 0 < page) (hpages : 0 < pages)
    (haligned : page ∣ base) :
    base ≤ (base + page * pages - 1) / (page * pages) * (page * pages) ∧
      (base + page * pages - 1) / (page * pages) * (page * pages) + page ≤ base + page * pages := by
  obtain ⟨first, rfl⟩ := haligned
  have halign : 0 < page * pages := Nat.mul_pos hpage hpages
  generalize hquot : (page * first + page * pages - 1) / (page * pages) = quotient
  have hle : quotient * (page * pages) ≤ page * first + page * pages - 1 :=
    hquot ▸ Nat.div_mul_le_self _ _
  have hlt : page * first + page * pages - 1 < (quotient + 1) * (page * pages) := by
    rw [← hquot]
    exact Nat.lt_mul_of_div_lt (Nat.lt_succ_self _) halign
  rw [Nat.add_mul, Nat.one_mul] at hlt
  constructor
  · omega
  · have hswap : quotient * (page * pages) = page * (quotient * pages) := by
      rw [Nat.mul_left_comm]
    have hcount : quotient * pages < first + pages := by
      apply Nat.lt_of_mul_lt_mul_left (a := page)
      rw [Nat.mul_add, ← hswap]
      omega
    have hnext : page * (quotient * pages + 1) ≤ page * (first + pages) :=
      Nat.mul_le_mul_left page hcount
    rw [Nat.mul_add, Nat.mul_add, Nat.mul_one] at hnext
    omega

/-- The address that `allocateVirtualPagesAligned` picks in the pages it was given. -/
theorem aligned_bounds {address alignmentBytes : UInt64} {j k : Nat}
    (halignment : alignmentBytes.toNat = 2 ^ k) (hj : j ≤ k) (hk : k < 64)
    (haligned : 2 ^ j ∣ address.toNat) (hlt : address.toNat + 2 ^ k < 2 ^ 64) :
    let base := (address + alignmentBytes - 1) &&& ~~~(alignmentBytes - 1)
    address.toNat ≤ base.toNat ∧ base.toNat + 2 ^ j ≤ address.toNat + 2 ^ k := by
  intro base
  have hpos := Nat.two_pow_pos k
  have hone : (1 : UInt64).toNat = 1 := rfl
  have hadd : (address + alignmentBytes).toNat = address.toNat + 2 ^ k := by
    rw [UInt64.toNat_add, halignment, Nat.mod_eq_of_lt hlt]
  have hlast : (address + alignmentBytes - 1).toNat = address.toNat + 2 ^ k - 1 := by
    rw [UInt64.toNat_sub_of_le _ _ (UInt64.le_iff_toNat_le.2 (by omega)), hadd, hone]
  have hmask : (alignmentBytes - 1).toNat = 2 ^ k - 1 := by
    rw [UInt64.toNat_sub_of_le _ _ (UInt64.le_iff_toNat_le.2 (by omega)), halignment, hone]
  have hbase : base.toNat = (address + alignmentBytes - 1).toNat / 2 ^ k * 2 ^ k :=
    Codec.toNat_and_not_mask64 hk hmask
  have hsplit : 2 ^ k = 2 ^ j * 2 ^ (k - j) := by rw [← Nat.pow_add, Nat.add_sub_cancel' hj]
  rw [hbase, hlast, hsplit]
  exact roundUp_bounds (Nat.two_pow_pos j) (Nat.two_pow_pos (k - j)) haligned

/-- The pages `allocateVirtualPagesAligned` asks for, in bytes. -/
theorem VirtualPages.Documented.toNat_unalignedPages (h : platform.Documented)
    {numBytes alignmentBytes : UInt64} {k : Nat} (halignment : alignmentBytes.toNat = 2 ^ k)
    (hk : platform.pageSizeLog2.toNat ≤ k) (hk64 : k < 63) (hsize : numBytes.toNat < 2 ^ 63) :
    ((numBytes >>> platform.pageSizeLog2 + alignmentBytes >>> platform.pageSizeLog2) <<<
        platform.pageSizeLog2).toNat =
      numBytes.toNat / 2 ^ platform.pageSizeLog2.toNat * 2 ^ platform.pageSizeLog2.toNat +
        2 ^ k := by
  have hpow : 2 ^ k < 2 ^ 63 := Nat.pow_lt_pow_right (by omega) hk64
  generalize hpage : 2 ^ platform.pageSizeLog2.toNat = page
  have hsplit : 2 ^ k / page * page = 2 ^ k := by
    rw [← hpage]
    exact Nat.div_mul_cancel (Nat.pow_dvd_pow 2 hk)
  have hle : numBytes.toNat / page ≤ numBytes.toNat := Nat.div_le_self _ _
  have hle' : 2 ^ k / page ≤ 2 ^ k := Nat.div_le_self _ _
  have hdiv : numBytes.toNat / page * page ≤ numBytes.toNat := Nat.div_mul_le_self _ _
  have hcount : (numBytes >>> platform.pageSizeLog2 +
      alignmentBytes >>> platform.pageSizeLog2).toNat = numBytes.toNat / page + 2 ^ k / page := by
    rw [UInt64.toNat_add, h.toNat_shiftRight, h.toNat_shiftRight, halignment, hpage,
      Nat.mod_eq_of_lt (by omega)]
  have hbytes : (numBytes.toNat / page + 2 ^ k / page) * page =
      numBytes.toNat / page * page + 2 ^ k := by
    rw [Nat.add_mul, hsplit]
  rw [h.toNat_shiftLeft (by rw [hcount, hpage, hbytes]; omega), hcount, hpage, hbytes]

/-- Where a reservation of some bytes, aligned to `alignment`, lies. Behind the bytes there is at
least one more page. -/
structure Reserved (platform : VirtualPages) (numBytes alignment : Nat)
    (reservation : Reservation) : Prop where
  endOffset : reservation.endOffset.toNat = numBytes
  start : reservation.reservedBaseAddress.toNat ≤ reservation.baseAddress.toNat
  size : (reservation.reservedNumPlatformPages <<< platform.pageSizeLog2).toNat =
    numBytes / 2 ^ platform.pageSizeLog2.toNat * 2 ^ platform.pageSizeLog2.toNat + alignment
  room : reservation.baseAddress.toNat + 2 ^ platform.pageSizeLog2.toNat ≤
    reservation.reservedBaseAddress.toNat + alignment
  bounded : reservation.reservedBaseAddress.toNat +
    (reservation.reservedNumPlatformPages <<< platform.pageSizeLog2).toNat < 2 ^ 64

theorem reserved_of_reserve (h : platform.Documented) {numBytes alignmentBytes : UInt64}
    {reservation : Reservation} {k : Nat} (halignment : alignmentBytes.toNat = 2 ^ k)
    (hk : platform.pageSizeLog2.toNat ≤ k) (hk64 : k < 63)
    (hsize : numBytes.toNat < 2 ^ 63)
    (hreserve : reserve platform numBytes alignmentBytes = some reservation) :
    Reserved platform numBytes.toNat alignmentBytes.toNat reservation := by
  have hshift := h.toNat_unalignedPages halignment hk hk64 hsize
  unfold reserve VirtualPages.allocateVirtualPagesAligned at hreserve
  dsimp only at hreserve
  generalize numBytes >>> platform.pageSizeLog2 +
    alignmentBytes >>> platform.pageSizeLog2 = numPages at hreserve hshift
  split at hreserve
  · simp at hreserve
  · next hnull =>
    split at hreserve
    · cases hreserve
    · cases hreserve
      have hbounded := h.bounded numPages hnull
      rw [hshift] at hbounded
      obtain ⟨hstart, hroom⟩ := aligned_bounds halignment hk (by omega) (h.aligned numPages)
        (by omega)
      refine ⟨rfl, hstart, ?_, ?_, ?_⟩
      · rw [hshift, halignment]
      · rw [halignment]
        exact hroom
      · rw [hshift]
        exact hbounded

/-! ## The sandbox -/

theorem Reservation.owns_iff {reservation : Reservation} {address : UInt64}
    (hbounded : reservation.reservedBaseAddress.toNat +
      (reservation.reservedNumPlatformPages <<< platform.pageSizeLog2).toNat < 2 ^ 64) :
    reservation.owns platform address = true ↔
      reservation.reservedBaseAddress.toNat ≤ address.toNat ∧
        address.toNat < reservation.reservedBaseAddress.toNat +
          (reservation.reservedNumPlatformPages <<< platform.pageSizeLog2).toNat := by
  unfold Reservation.owns
  rw [Bool.and_eq_true, decide_eq_true_iff, decide_eq_true_iff, UInt64.le_iff_toNat_le,
    UInt64.lt_iff_toNat_lt, UInt64.toNat_add, Nat.mod_eq_of_lt hbounded]

/-- The sum of the two operands needs no more than 33 bits. -/
theorem toNat_coerceByteIndexToPointer {memory : Reservation} {byteIndex offset : UInt32}
    (hroom : memory.baseAddress.toNat + 2 ^ 33 ≤ 2 ^ 64) :
    (coerceByteIndexToPointer memory byteIndex offset).toNat =
      memory.baseAddress.toNat + (byteIndex.toNat + offset.toNat) := by
  have hindex := byteIndex.toNat_lt
  have hoffset := offset.toNat_lt
  have hsum : (if offset ≠ 0 then byteIndex.toUInt64 + offset.toUInt64
      else byteIndex.toUInt64).toNat = byteIndex.toNat + offset.toNat := by
    split
    · rw [UInt64.toNat_add, UInt32.toNat_toUInt64, UInt32.toNat_toUInt64,
        Nat.mod_eq_of_lt (by omega)]
    · next hzero =>
      have hoffset0 : offset = 0 := by simpa using hzero
      rw [UInt32.toNat_toUInt64, hoffset0]
      rfl
  unfold coerceByteIndexToPointer
  dsimp only
  rw [UInt64.toNat_add, hsum, Nat.mod_eq_of_lt (by omega)]

/-- **The sandbox.** Whatever the address operand, the static offset and the width of an access, its
bytes lie in the range that was reserved for the memory, and each of them is recognised as owned by
a memory. -/
theorem access_within_reservation (h : platform.Documented) {memory : Reservation}
    (hreserve : reserveMemory platform = some memory) (memories : List Reservation)
    (hmem : memory ∈ memories) (byteIndex offset : UInt32) {width : Nat} (hpos : 1 ≤ width)
    (hwidth : width ≤ 8) :
    let address := coerceByteIndexToPointer memory byteIndex offset
    memory.reservedBaseAddress.toNat ≤ address.toNat ∧
      address.toNat + width ≤ memory.reservedBaseAddress.toNat +
        (memory.reservedNumPlatformPages <<< platform.pageSizeLog2).toNat ∧
      ∀ i < width, memory.owns platform (address + i.toUInt64) = true ∧
        isAddressOwnedByMemory platform memories (address + i.toUInt64) = true := by
  intro address
  have hsmall := h.small
  have hreserved := reserved_of_reserve (k := 32) h rfl (by omega) (by omega) (by decide) hreserve
  have hstart := hreserved.start
  have hroom := hreserved.room
  have hsize := hreserved.size
  have hbounded := hreserved.bounded
  have hpage : 2 ^ 3 ≤ 2 ^ platform.pageSizeLog2.toNat :=
    Nat.pow_le_pow_right (by omega) h.large
  have hbytes : (8 * 1024 * 1024 * 1024 : UInt64).toNat = 2 ^ 33 := rfl
  have halignment : (4 * 1024 * 1024 * 1024 : UInt64).toNat = 2 ^ 32 := rfl
  have hwhole : 2 ^ 33 / 2 ^ platform.pageSizeLog2.toNat * 2 ^ platform.pageSizeLog2.toNat =
      2 ^ 33 :=
    Nat.div_mul_cancel (Nat.pow_dvd_pow 2 (by omega))
  rw [hbytes, halignment, hwhole] at hsize
  rw [halignment] at hroom
  have haddress : address.toNat = memory.baseAddress.toNat + (byteIndex.toNat + offset.toNat) :=
    toNat_coerceByteIndexToPointer (by omega)
  have hindex := byteIndex.toNat_lt
  have hoffset := offset.toNat_lt
  refine ⟨by omega, by omega, ?_⟩
  intro i hi
  have hbyte : (address + i.toUInt64).toNat = address.toNat + i := by
    have hi64 : i.toUInt64.toNat = i := by
      rw [Nat.toUInt64_eq, UInt64.toNat_ofNat', Nat.mod_eq_of_lt (by omega)]
    rw [UInt64.toNat_add, hi64, Nat.mod_eq_of_lt (by omega)]
  have howns : memory.owns platform (address + i.toUInt64) = true := by
    rw [Reservation.owns_iff hbounded, hbyte]
    omega
  exact ⟨howns, List.any_eq_true.2 ⟨memory, hmem, howns⟩⟩

/-- Pages of 4 KiB, all from one address on. -/
def lowPages : VirtualPages := ⟨12, fun numPages => if numPages ≤ 2 ^ 22 then 0x7000 else 0⟩

theorem documented_lowPages : lowPages.Documented := by
  refine ⟨by decide, by decide, ?_, ?_⟩
  · intro numPages
    unfold lowPages
    dsimp only
    split
    · exact ⟨7, rfl⟩
    · exact ⟨0, rfl⟩
  · intro numPages hnull
    unfold lowPages at hnull ⊢
    dsimp only at hnull ⊢
    split at hnull
    · next hle =>
      have hfew : numPages.toNat ≤ 2 ^ 22 := UInt64.le_iff_toNat_le.1 hle
      have hpage : 2 ^ ((12 : UInt64).toNat % 64) = 4096 := rfl
      have hbase : (0x7000 : UInt64).toNat = 0x7000 := rfl
      rw [if_pos hle, UInt64.toNat_shiftLeft, Nat.shiftLeft_eq, hpage, hbase,
        Nat.mod_eq_of_lt (by omega)]
      omega
    · exact absurd rfl hnull

theorem access_within_reservation_sample :
    ∃ memory, reserveMemory lowPages = some memory ∧
      (coerceByteIndexToPointer memory (-1) (-1)).toNat + 8 ≤ memory.reservedBaseAddress.toNat +
        (memory.reservedNumPlatformPages <<< lowPages.pageSizeLog2).toNat := by
  have hreserve : (reserveMemory lowPages).isSome = true := by decide
  obtain ⟨memory, hreserve⟩ := Option.isSome_iff_exists.1 hreserve
  exact ⟨memory, hreserve, (access_within_reservation documented_lowPages hreserve [memory]
    List.mem_cons_self (-1) (-1) (by decide) (Nat.le_refl 8)).2.1⟩

end FractalWasm.Runtime
