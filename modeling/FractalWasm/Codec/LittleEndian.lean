import Mathlib.Algebra.Group.Nat.Defs

/-!
# Fixed-width little-endian numbers

`leBytes n v` is the low `n` bytes of `v`, least significant first, and `leNat` reads such a list
back. The two are inverse up to truncation: a number that fits its width is read back
(`leNat_leBytes_of_lt`), and any list of bytes is written again (`leBytes_leNat`).

The words of the machine, 32 and 64 bits wide, are the case the formats use (`u32Bytes`,
`u64Bytes`); `readU32` and `readU64` read them from the front of a list, whatever follows.
-/

namespace Codec

/-- The low `n` bytes of `v`, least significant first. -/
def leBytes : Nat → Nat → List UInt8
  | 0, _ => []
  | n + 1, v => v.toUInt8 :: leBytes n (v / 256)

/-- The number a list of bytes spells, least significant first. -/
def leNat : List UInt8 → Nat
  | [] => 0
  | b :: bs => b.toNat + 256 * leNat bs

@[simp] theorem length_leBytes (n v : Nat) : (leBytes n v).length = n := by
  induction n generalizing v with
  | zero => rfl
  | succ n ih => simp [leBytes, ih]

theorem leNat_leBytes (n v : Nat) : leNat (leBytes n v) = v % 256 ^ n := by
  induction n generalizing v with
  | zero => simp [leBytes, leNat, Nat.mod_one]
  | succ n ih =>
    have hb : v.toUInt8.toNat = v % 256 := by simp
    simp only [leBytes, leNat, hb, ih, Nat.pow_succ']
    exact (Nat.mod_mul).symm

theorem leNat_lt (bs : List UInt8) : leNat bs < 256 ^ bs.length := by
  induction bs with
  | nil => simp [leNat]
  | cons b bs ih =>
    have hb : b.toNat < 256 := b.toNat_lt
    simp only [leNat, List.length_cons, Nat.pow_succ']
    omega

theorem leBytes_leNat (bs : List UInt8) : leBytes bs.length (leNat bs) = bs := by
  induction bs with
  | nil => rfl
  | cons b bs ih =>
    have hb : b.toNat < 256 := b.toNat_lt
    have hdiv : (b.toNat + 256 * leNat bs) / 256 = leNat bs := by omega
    have hlow : (b.toNat + 256 * leNat bs).toUInt8 = b := by
      apply UInt8.toNat_inj.1
      simp only [Nat.toUInt8_eq, UInt8.toNat_ofNat']
      omega
    simp only [leNat, List.length_cons, leBytes, hdiv, hlow, ih]

/-- Reading back a number that fits its width returns it. -/
theorem leNat_leBytes_of_lt {n v : Nat} (h : v < 256 ^ n) : leNat (leBytes n v) = v := by
  rw [leNat_leBytes, Nat.mod_eq_of_lt h]

/-! ## The machine's words -/

def u32Bytes (v : UInt32) : List UInt8 := leBytes 4 v.toNat

def u64Bytes (v : UInt64) : List UInt8 := leBytes 8 v.toNat

def readU32 (bs : List UInt8) : UInt32 := (leNat bs).toUInt32

def readU64 (bs : List UInt8) : UInt64 := (leNat bs).toUInt64

@[simp] theorem length_u32Bytes (v : UInt32) : (u32Bytes v).length = 4 := length_leBytes 4 _

@[simp] theorem length_u64Bytes (v : UInt64) : (u64Bytes v).length = 8 := length_leBytes 8 _

@[simp] theorem take_u32Bytes (v : UInt32) : (u32Bytes v).take 4 = u32Bytes v :=
  List.take_of_length_le (Nat.le_of_eq (length_u32Bytes v))

@[simp] theorem take_u64Bytes (v : UInt64) : (u64Bytes v).take 8 = u64Bytes v :=
  List.take_of_length_le (Nat.le_of_eq (length_u64Bytes v))

@[simp] theorem readU32_u32Bytes (v : UInt32) : readU32 (u32Bytes v) = v := by
  have h : v.toNat < 256 ^ 4 := v.toNat_lt
  simp [readU32, u32Bytes, leNat_leBytes_of_lt h]

@[simp] theorem readU64_u64Bytes (v : UInt64) : readU64 (u64Bytes v) = v := by
  have h : v.toNat < 256 ^ 8 := v.toNat_lt
  simp [readU64, u64Bytes, leNat_leBytes_of_lt h]

theorem u32Bytes_readU32 {bs : List UInt8} (h : bs.length = 4) : u32Bytes (readU32 bs) = bs := by
  have hlt : leNat bs < 2 ^ 32 := by
    have hlt := leNat_lt bs
    rw [h] at hlt
    exact hlt
  have hval : (readU32 bs).toNat = leNat bs := by
    simp only [readU32, Nat.toUInt32_eq, UInt32.toNat_ofNat']
    exact Nat.mod_eq_of_lt hlt
  rw [u32Bytes, hval, ← h, leBytes_leNat]

end Codec
