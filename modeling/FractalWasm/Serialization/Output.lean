import FractalWasm.Codec.Writer
import FractalWasm.Serialization

/-!
# Binary serialization: the output stream

The output half of `Inline/Serialization.h`. An `ArrayOutputStream` is the list of bytes written.
For each pair of halves there are two facts.

**Reading back** (`readsBack_*`): what the output half writes is read by the input half as it was.
Of a LEB128 number the writer sends the shortest form (`varUIntBytes`, `varSIntBytes`), whose last
byte is the first from which the number can be told (`FitsSigned`).

**Writing again** (`reencodes_*`): what the input half reads can be written again, in no more bytes;
a padded number comes out shorter. So a module that was decoded never outgrows its sections.

Sizes that the reader limits and the writer does not are left to a set of errors (`FitsSize`).
-/

namespace FractalWasm.Serialization

open Codec IR

/-- A writer of the binary format. -/
abbrev OutputWriter := Codec.Writer Exception

namespace Output

/-! ## LEB128 -/

/-- The loop of `serializeVarInt` at an unsigned type. The range check bounds its rounds. -/
def varUIntBytes : Nat → Nat → Bytes
  | 0, _ => []
  | rounds + 1, value =>
    let outputByte := value % 128
    if value / 128 = 0 then [outputByte.toUInt8]
    else (outputByte + 128).toUInt8 :: varUIntBytes rounds (value / 128)

/-- The loop of `serializeVarInt` at a signed type. -/
def varSIntBytes : Nat → Int → Bytes
  | 0, _ => []
  | rounds + 1, inValue =>
    let outputByte := (inValue % 128).toNat
    let value := inValue / 128
    let more := (value ≠ 0 ∧ value ≠ -1) ∨ (0 ≤ value ∧ 64 ≤ outputByte) ∨
      (value < 0 ∧ outputByte < 64)
    if more then (outputByte + 128).toUInt8 :: varSIntBytes rounds value
    else [outputByte.toUInt8]

/-- `serializeVarInt` at an unsigned type at least `maxBits` wide. -/
def serializeVarUInt (maxBits value : Nat) : OutputWriter :=
  if 2 ^ maxBits ≤ value then
    .error (.fatalSerialization (outOfRange value 0 (2 ^ maxBits - 1)))
  else .ok (varUIntBytes (varIntMaxBytes maxBits) value)

def serializeVarInt (maxBits : Nat) (value : Int) : OutputWriter :=
  if value < -2 ^ (maxBits - 1) ∨ 2 ^ (maxBits - 1) - 1 < value then
    .error (.fatalSerialization
      (outOfRange value (-2 ^ (maxBits - 1)) (2 ^ (maxBits - 1) - 1)))
  else .ok (varSIntBytes (varIntMaxBytes maxBits) value)

def serializeVarUInt1 : Nat → OutputWriter := serializeVarUInt 1

def serializeVarUInt7 : Nat → OutputWriter := serializeVarUInt 7

def serializeVarUInt32 : Nat → OutputWriter := serializeVarUInt 32

def serializeVarInt7 : Int → OutputWriter := serializeVarInt 7

def serializeVarInt32 : Int → OutputWriter := serializeVarInt 32

def serializeVarInt64 : Int → OutputWriter := serializeVarInt 64

/-! ## Native values, constants and containers -/

def serializeU8 (i : UInt8) : OutputWriter := .ok [i]

def serializeU32 (i : UInt32) : OutputWriter := .ok (u32Bytes i)

def serializeU64 (i : UInt64) : OutputWriter := .ok (u64Bytes i)

def serializeBytes (bytes : Bytes) : OutputWriter := .ok bytes

/-- `serialize` of a `std::string`, and of a `std::vector<U8>` that was written before. -/
def serializeString (string : Bytes) : OutputWriter :=
  Writer.concat [serializeVarUInt32 string.length, serializeBytes string]

/-- `serializeArray`. -/
def serializeArray {α : Type} (serializeElement : α → OutputWriter) (vector : List α) :
    OutputWriter :=
  Writer.concat (serializeVarUInt32 vector.length :: vector.map serializeElement)

def throwIfNotValidUTF8 (string : Bytes) : OutputWriter :=
  if validateString string != [] then .error (.fatalSerialization "invalid UTF-8 encoding")
  else .ok []

end Output

/-! ## The bytes of an integer -/

/-- At most `rounds` bytes, each but the last with its continuation bit set; the last one with the
bit clear. -/
inductive Terminated : Nat → Bytes → Prop where
  | none : Terminated 0 []
  | last {rounds : Nat} {byte : UInt8} (hclear : byte < 0x80) : Terminated (rounds + 1) [byte]
  | next {rounds : Nat} {byte : UInt8} {bytes : Bytes} (hset : ¬ byte < 0x80)
      (hrest : Terminated rounds bytes) : Terminated (rounds + 1) (byte :: bytes)

/-! ## Unsigned LEB128 -/

section Unsigned

open Output

theorem toNat_toUInt8 {n : Nat} (h : n < 256) : n.toUInt8.toNat = n := by
  rw [Nat.toUInt8_eq, UInt8.toNat_ofNat', Nat.mod_eq_of_lt h]

/-- At least one byte is written. -/
theorem exists_varIntMaxBytes {maxBits : Nat} (hpos : 0 < maxBits) :
    ∃ rounds, varIntMaxBytes maxBits = rounds + 1 := by
  refine Nat.exists_eq_succ_of_ne_zero ?_
  unfold varIntMaxBytes
  omega

/-- The last byte holds what the bytes before it leave. -/
theorem varIntLastBits_add {maxBits rounds : Nat} (h : varIntMaxBytes maxBits = rounds + 1) :
    maxBits = 7 * rounds + varIntLastBits maxBits ∧ varIntLastBits maxBits ≤ 7 := by
  unfold varIntLastBits
  rw [h]
  unfold varIntMaxBytes at h
  omega

/-- The bits of a number are those of the full bytes and those of the last one. -/
theorem two_pow_eq_varIntLastBits {maxBits rounds : Nat}
    (h : varIntMaxBytes maxBits = rounds + 1) :
    2 ^ maxBits = 128 ^ rounds * 2 ^ varIntLastBits maxBits := by
  have hpow : 2 ^ (7 * rounds + varIntLastBits maxBits) =
      128 ^ rounds * 2 ^ varIntLastBits maxBits := by
    rw [Nat.pow_add, Nat.pow_mul]
  rwa [← (varIntLastBits_add h).1] at hpow

/-- As many bytes are enough for every number of `maxBits` bits. -/
theorem two_pow_le_varIntMaxBytes (maxBits : Nat) :
    2 ^ maxBits ≤ 128 ^ varIntMaxBytes maxBits := by
  have hpow : 128 ^ varIntMaxBytes maxBits = 2 ^ (7 * varIntMaxBytes maxBits) := by
    rw [Nat.pow_mul]
  rw [hpow]
  refine Nat.pow_le_pow_right (by decide) ?_
  unfold varIntMaxBytes
  omega

theorem toUInt8_lt {n : Nat} (h : n < 128) : n.toUInt8 < 0x80 := by
  rw [UInt8.lt_iff_toNat_lt, toNat_toUInt8 (by omega)]
  exact h

theorem not_toUInt8_lt {n : Nat} (h : n < 128) : ¬ (n + 128).toUInt8 < 0x80 := by
  rw [UInt8.lt_iff_toNat_lt, toNat_toUInt8 (by omega)]
  exact Nat.not_lt.2 (Nat.le_add_left 128 n)

/-- Only the last byte has its high bit clear. -/
theorem terminated_varUIntBytes {rounds value : Nat} (h : value < 128 ^ rounds) :
    Terminated rounds (varUIntBytes rounds value) := by
  induction rounds generalizing value with
  | zero => exact .none
  | succ rounds ih =>
    rw [Nat.pow_succ'] at h
    unfold varUIntBytes
    by_cases hlast : value / 128 = 0
    · rw [if_pos hlast]
      exact .last (toUInt8_lt (Nat.mod_lt _ (by decide)))
    · rw [if_neg hlast]
      exact .next (not_toUInt8_lt (Nat.mod_lt _ (by decide))) (ih (by omega))

/-- The seven-bit digits written are those of the number. -/
theorem varIntPayload_varUIntBytes {rounds value : Nat} (h : value < 128 ^ rounds) :
    varIntPayload (varUIntBytes rounds value) = value := by
  induction rounds generalizing value with
  | zero =>
    simp only [Nat.pow_zero] at h
    simp only [varUIntBytes, varIntPayload]
    omega
  | succ rounds ih =>
    rw [Nat.pow_succ'] at h
    unfold varUIntBytes
    by_cases hlast : value / 128 = 0
    · rw [if_pos hlast]
      simp only [varIntPayload, toNat_toUInt8 (show value % 128 < 256 by omega)]
      omega
    · rw [if_neg hlast]
      simp only [varIntPayload, toNat_toUInt8 (show value % 128 + 128 < 256 by omega)]
      rw [ih (by omega)]
      omega

/-- The last of the most bytes a value may take holds the value's top bits. -/
theorem getD_varUIntBytes {rounds value : Nat} (h : value < 128 ^ (rounds + 1)) :
    ((varUIntBytes (rounds + 1) value).getD rounds 0).toNat = value / 128 ^ rounds := by
  induction rounds generalizing value with
  | zero =>
    have hzero : value / 128 = 0 := by omega
    unfold varUIntBytes
    rw [if_pos hzero]
    simp only [List.getD_cons_zero, toNat_toUInt8 (show value % 128 < 256 by omega)]
    omega
  | succ rounds ih =>
    rw [Nat.pow_succ'] at h
    rw [Nat.pow_succ', ← Nat.div_div_eq_div_mul]
    unfold varUIntBytes
    by_cases hlast : value / 128 = 0
    · rw [if_pos hlast, hlast, Nat.zero_div]
      rfl
    · rw [if_neg hlast]
      simp only [List.getD_cons_succ]
      exact ih (by omega)

/-- A smaller number is written in fewer bytes, whatever the number of rounds. -/
theorem length_varUIntBytes_le {rounds bound value : Nat} (h : value < 128 ^ (bound + 1)) :
    (varUIntBytes rounds value).length ≤ bound + 1 := by
  induction rounds generalizing bound value with
  | zero => exact Nat.zero_le _
  | succ rounds ih =>
    unfold varUIntBytes
    by_cases hlast : value / 128 = 0
    · rw [if_pos hlast]
      simp
    · rw [if_neg hlast, List.length_cons]
      cases bound with
      | zero => omega
      | succ bound =>
        rw [Nat.pow_succ'] at h
        have hrest := ih (show value / 128 < 128 ^ (bound + 1) by omega)
        omega

end Unsigned

/-! ## Signed LEB128 -/

section Signed

open Output

/-- `value` fits `7 * bytes + 7` bits in two's complement. -/
def FitsSigned (bytes : Nat) (value : Int) : Prop :=
  -(64 * 128 ^ bytes : Nat) ≤ value ∧ value < (64 * 128 ^ bytes : Nat)

theorem fitsSigned_zero {value : Int} : FitsSigned 0 value ↔ -64 ≤ value ∧ value < 64 := by
  unfold FitsSigned
  rw [Nat.pow_zero]
  omega

/-- One byte more is one digit more. -/
theorem fitsSigned_succ {bytes : Nat} {value : Int} :
    FitsSigned (bytes + 1) value ↔ FitsSigned bytes (value / 128) := by
  unfold FitsSigned
  rw [Nat.pow_succ']
  generalize 128 ^ bytes = power
  omega

/-- One round of the loop, with its three reasons to go on. -/
theorem varSIntBytes_succ (rounds : Nat) (value : Int) :
    varSIntBytes (rounds + 1) value =
      if (value / 128 ≠ 0 ∧ value / 128 ≠ -1) ∨ (0 ≤ value / 128 ∧ 64 ≤ (value % 128).toNat) ∨
          (value / 128 < 0 ∧ (value % 128).toNat < 64) then
        ((value % 128).toNat + 128).toUInt8 :: varSIntBytes rounds (value / 128)
      else [(value % 128).toNat.toUInt8] := rfl

/-- Another byte is written for a value that one byte does not hold. -/
theorem varSIntBytes_cons {rounds : Nat} {value : Int} (h : ¬ FitsSigned 0 value) :
    varSIntBytes (rounds + 1) value =
      ((value % 128).toNat + 128).toUInt8 :: varSIntBytes rounds (value / 128) := by
  rw [fitsSigned_zero] at h
  rw [varSIntBytes_succ]
  exact if_pos (by omega)

/-- A number of seven bits is written in one byte. -/
theorem varSIntBytes_singleton {rounds : Nat} {value : Int} (h : FitsSigned 0 value) :
    varSIntBytes (rounds + 1) value = [(value % 128).toNat.toUInt8] := by
  rw [fitsSigned_zero] at h
  rw [varSIntBytes_succ]
  exact if_neg (by omega)

/-- The lowest digit of a residue, and the rest. -/
theorem emod_mul {value : Int} {power : Nat} (hpos : 0 < power) :
    value % (128 * power : Nat) = value % 128 + 128 * (value / 128 % power) := by
  have hpos' : (0 : Int) < power := Int.natCast_pos.2 hpos
  have hnonneg := Int.emod_nonneg (value / 128) (Int.ne_of_gt hpos')
  have hlt := Int.emod_lt_of_pos (value / 128) hpos'
  have hdiv : (value / 128) % power + power * (value / 128 / power) = value / 128 :=
    Int.emod_add_mul_ediv _ _
  have hprod : ((128 * power : Nat) : Int) * (value / 128 / power) =
      128 * (power * (value / 128 / power)) := by
    rw [Int.natCast_mul, Int.mul_assoc]
    rfl
  refine ((Int.ediv_emod_unique (q := value / 128 / power) ?_).2 ⟨?_, ?_, ?_⟩).2
  · omega
  · rw [hprod]
    omega
  · omega
  · omega

theorem toNat_emod_lt (value : Int) : (value % 128).toNat < 128 := by omega

theorem varIntPayload_singleton {rounds : Nat} {value : Int} (h : FitsSigned 0 value) :
    (varIntPayload (varSIntBytes (rounds + 1) value) : Int) = value % (128 ^ 1 : Nat) := by
  have hbyte := toNat_toUInt8 (Nat.lt_trans (toNat_emod_lt value) (by decide : 128 < 256))
  rw [varSIntBytes_singleton h]
  simp only [varIntPayload, hbyte, Nat.pow_one]
  omega

/-- As for unsigned numbers, only the last byte has its high bit clear. -/
theorem terminated_varSIntBytes {rounds : Nat} {value : Int} (h : FitsSigned rounds value) :
    Terminated (rounds + 1) (varSIntBytes (rounds + 1) value) := by
  induction rounds generalizing value with
  | zero =>
    rw [varSIntBytes_singleton h]
    exact .last (toUInt8_lt (toNat_emod_lt value))
  | succ rounds ih =>
    by_cases hone : FitsSigned 0 value
    · rw [varSIntBytes_singleton hone]
      exact .last (toUInt8_lt (toNat_emod_lt value))
    · rw [varSIntBytes_cons hone]
      exact .next (not_toUInt8_lt (toNat_emod_lt value)) (ih (fitsSigned_succ.1 h))

/-- The bytes of a value hold its low bits, and there are enough of them for its sign. -/
theorem varSIntBytes_spec {rounds : Nat} {value : Int} (h : FitsSigned rounds value) :
    ∃ more, (varSIntBytes (rounds + 1) value).length = more + 1 ∧ FitsSigned more value ∧
      (varIntPayload (varSIntBytes (rounds + 1) value) : Int) =
        value % (128 ^ (more + 1) : Nat) := by
  induction rounds generalizing value with
  | zero => exact ⟨0, by rw [varSIntBytes_singleton h]; rfl, h, varIntPayload_singleton h⟩
  | succ rounds ih =>
    by_cases hone : FitsSigned 0 value
    · exact ⟨0, by rw [varSIntBytes_singleton hone]; rfl, hone, varIntPayload_singleton hone⟩
    · obtain ⟨more, hlen, hfits, hpayload⟩ := ih (fitsSigned_succ.1 h)
      have hbyte : ((value % 128).toNat + 128).toUInt8.toNat = (value % 128).toNat + 128 :=
        toNat_toUInt8 (by omega)
      rw [varSIntBytes_cons hone]
      refine ⟨more + 1, by rw [List.length_cons, hlen], fitsSigned_succ.2 hfits, ?_⟩
      rw [Nat.pow_succ', emod_mul (Nat.pow_pos (by decide)), ← hpayload]
      simp only [varIntPayload, hbyte]
      omega

/-- The last of the most bytes a value may take holds the value's top bits; it is zero when fewer
bytes suffice. -/
theorem getD_varSIntBytes {rounds : Nat} {value : Int} (h : FitsSigned rounds value) :
    ((varSIntBytes (rounds + 1) value).getD rounds 0).toNat = 0 ∨
      (((varSIntBytes (rounds + 1) value).getD rounds 0).toNat : Int) =
        value / (128 ^ rounds : Nat) % 128 := by
  induction rounds generalizing value with
  | zero =>
    have hbyte := toNat_toUInt8 (Nat.lt_trans (toNat_emod_lt value) (by decide : 128 < 256))
    refine .inr ?_
    rw [varSIntBytes_singleton h, List.getD_cons_zero, hbyte]
    omega
  | succ rounds ih =>
    by_cases hone : FitsSigned 0 value
    · refine .inl ?_
      rw [varSIntBytes_singleton hone]
      rfl
    · have hdiv : value / (128 ^ (rounds + 1) : Nat) = value / 128 / (128 ^ rounds : Nat) := by
        rw [Nat.pow_succ', Int.natCast_mul, ← Int.ediv_ediv_of_nonneg (by decide)]
        rfl
      rw [varSIntBytes_cons hone, List.getD_cons_succ, hdiv]
      exact ih (fitsSigned_succ.1 h)

/-- The loop stops at the first byte from which the number can be sign-extended. -/
theorem length_varSIntBytes_le {rounds bound : Nat} {value : Int} (h : FitsSigned bound value) :
    (varSIntBytes rounds value).length ≤ bound + 1 := by
  induction rounds generalizing bound value with
  | zero => exact Nat.zero_le _
  | succ rounds ih =>
    by_cases hone : FitsSigned 0 value
    · rw [varSIntBytes_singleton hone]
      simp
    · rw [varSIntBytes_cons hone, List.length_cons]
      cases bound with
      | zero => exact absurd h hone
      | succ bound =>
        have hrest := ih (fitsSigned_succ.1 h)
        omega

/-- A number within the range of a word is the word's sign extension. -/
theorem signExtend_emod {bits width : Nat} {value : Int} (hpos : 0 < bits) (hle : bits ≤ width)
    (hlow : -(2 ^ (bits - 1) : Nat) ≤ value) (hhigh : value < (2 ^ (bits - 1) : Nat)) :
    signExtend bits (value % (2 ^ width : Nat)).toNat = value := by
  obtain ⟨half, rfl⟩ : ∃ half, bits = half + 1 := Nat.exists_eq_succ_of_ne_zero (by omega)
  rw [Nat.add_sub_cancel] at hlow hhigh
  have hdvd : ((2 ^ (half + 1) : Nat) : Int) ∣ (2 ^ width : Nat) :=
    Int.natCast_dvd_natCast.2 (Nat.pow_dvd_pow 2 hle)
  have hwidth : ((2 ^ width : Nat) : Int) ≠ 0 :=
    Int.natCast_ne_zero.2 (Nat.ne_of_gt (Nat.two_pow_pos width))
  have hlow' : (((value % (2 ^ width : Nat)).toNat % 2 ^ (half + 1) : Nat) : Int) =
      value % (2 ^ (half + 1) : Nat) := by
    rw [Int.natCast_emod, Int.toNat_of_nonneg (Int.emod_nonneg _ hwidth),
      Int.emod_emod_of_dvd _ hdvd]
  have hpow : 2 ^ (half + 1) = 2 * 2 ^ half := Nat.pow_succ'
  have hcast : (2 : Int) ^ (half + 1) = (2 ^ (half + 1) : Nat) := by simp
  have hvalue : value % (2 ^ (half + 1) : Nat) =
      if 0 ≤ value then value else value + (2 ^ (half + 1) : Nat) := by
    split
    · exact Int.emod_eq_of_lt (by omega) (by omega)
    · rw [← Int.add_emod_right]
      exact Int.emod_eq_of_lt (by omega) (by omega)
  unfold signExtend
  simp only [Nat.add_sub_cancel]
  rw [hcast]
  split at hvalue <;> split <;> omega

end Signed

/-! ## Reading back: the stream -/

section ReadsBack

open Output

variable {E : Exception → Prop}

/-- A check passes, or fails with an exception that is allowed. -/
theorem parses_throwIf {failed : Bool} {message : String}
    (h : failed = false ∨ E (.fatalSerialization message)) :
    Reader.Parses E (throwIf failed message) [] fun _ => failed = false := by
  cases failed with
  | false => exact .pure rfl
  | true => exact .throw (h.resolve_left (by simp))

/-- A check that does not fail. -/
theorem parses_throwIf_false {failed : Bool} {message : String} (h : failed = false) :
    Reader.Parses E (throwIf failed message) [] fun _ => failed = false :=
  parses_throwIf (.inl h)

/-- Bytes are read as they are. -/
theorem parses_advance {bytes : Bytes} {numBytes : Nat} (h : bytes.length = numBytes) :
    Reader.Parses E (advance numBytes) bytes (· = bytes) :=
  ⟨fun _ => .inl ⟨bytes, advance_eq_ok.2 ⟨rfl, h⟩, rfl⟩⟩

theorem parses_serializeBytes {bytes : Bytes} {numBytes : Nat} (h : bytes.length = numBytes)
    (hlt : numBytes < wasmPageSize) :
    Reader.Parses E (Serialization.serializeBytes numBytes) bytes (· = bytes) :=
  ⟨fun _ => .inl ⟨bytes, serializeBytes_eq_ok.2 ⟨hlt, rfl, h⟩, rfl⟩⟩

theorem readsBack_serializeU8 (i : UInt8) :
    ReadsBack E Serialization.serializeU8 (Output.serializeU8 i) (· = i) := by
  refine ⟨fun {bytes} hw => ?_⟩
  obtain rfl := Except.ok.inj hw
  have hread : Reader.Parses E (Serialization.serializeBytes 1) [i] (· = [i]) :=
    parses_serializeBytes rfl (by decide)
  refine hread.map fun taken htaken => ?_
  rw [htaken, List.headD_cons]

theorem readsBack_serializeU32 (i : UInt32) :
    ReadsBack E Serialization.serializeU32 (Output.serializeU32 i) (· = i) := by
  refine ⟨fun {bytes} hw => ?_⟩
  obtain rfl := Except.ok.inj hw
  refine (parses_serializeBytes (length_u32Bytes i) (by decide)).map fun taken htaken => ?_
  rw [htaken, readU32_u32Bytes]

theorem readsBack_serializeU64 (i : UInt64) :
    ReadsBack E Serialization.serializeU64 (Output.serializeU64 i) (· = i) := by
  refine ⟨fun {bytes} hw => ?_⟩
  obtain rfl := Except.ok.inj hw
  refine (parses_serializeBytes (length_u64Bytes i) (by decide)).map fun taken htaken => ?_
  rw [htaken, readU64_u64Bytes]

/-- The rounds end with the last byte. -/
theorem parses_varIntBytes {rounds : Nat} {bytes : Bytes} (h : Terminated rounds bytes) :
    Reader.Parses E (varIntBytes rounds) bytes (· = bytes) := by
  have hread : ∀ byte : UInt8, Reader.Parses E (advance 1) [byte] (· = [byte]) :=
    fun byte => parses_advance rfl
  induction h with
  | none => exact .pure rfl
  | @last rounds byte hclear =>
    rw [← List.append_nil [byte]]
    refine (hread byte).bind fun taken htaken => ?_
    simp only [htaken, List.headD_cons, if_pos hclear]
    exact .pure rfl
  | @next rounds byte bytes hset _ ih =>
    rw [← List.singleton_append]
    refine (hread byte).bind fun taken htaken => ?_
    simp only [htaken, List.headD_cons, if_neg hset, List.singleton_append]
    exact ih.map fun rest hrest => by rw [hrest]

/-- **Unsigned LEB128.** A value in range is read back. -/
theorem readsBack_serializeVarUInt {maxBits : Nat} (hpos : 0 < maxBits) (value : Nat) :
    ReadsBack E (Serialization.serializeVarUInt maxBits) (Output.serializeVarUInt maxBits value)
      (· = value) := by
  refine ⟨fun {bytes} hw => ?_⟩
  unfold Output.serializeVarUInt at hw
  split at hw
  · cases hw
  · next hrange =>
    obtain rfl := Except.ok.inj hw
    have hlt : value < 2 ^ maxBits := Nat.not_le.1 hrange
    obtain ⟨rounds, hrounds⟩ := exists_varIntMaxBytes hpos
    have hbound : value < 128 ^ (rounds + 1) := by
      rw [← hrounds]
      exact Nat.lt_of_lt_of_le hlt (two_pow_le_varIntMaxBytes maxBits)
    have hlast : value / 128 ^ rounds < 2 ^ varIntLastBits maxBits := by
      refine Nat.div_lt_of_lt_mul ?_
      rw [← two_pow_eq_varIntLastBits hrounds]
      exact hlt
    unfold Serialization.serializeVarUInt
    rw [hrounds, ← List.append_nil (varUIntBytes (rounds + 1) value)]
    refine (parses_varIntBytes (terminated_varUIntBytes hbound)).bind fun read hread => ?_
    have hvalue : varIntPayload read = value := by
      rw [hread, varIntPayload_varUIntBytes hbound]
    have hbyte : varIntLastByte maxBits read = value / 128 ^ rounds := by
      rw [varIntLastByte, hread, hrounds]
      exact getD_varUIntBytes hbound
    refine .check (parses_throwIf_false ?_) fun _ _ => ?_
    · rw [hbyte]
      exact decide_eq_false (Nat.not_le.2 hlast)
    refine .check (parses_throwIf_false ?_) fun _ _ => ?_
    · rw [hvalue]
      exact decide_eq_false hrange
    · rw [hvalue]
      exact .pure rfl

/-- The check of the unused bits of the last byte. -/
theorem unusedBits {used lastByte : Nat} {top : Int} (hpos : 0 < used) (hle : used ≤ 7)
    (hlow : -(2 ^ (used - 1) : Nat) ≤ top) (hhigh : top < (2 ^ (used - 1) : Nat))
    (hbyte : lastByte = 0 ∨ (lastByte : Int) = top % 128) :
    lastByte - lastByte % 2 ^ used =
      if lastByte % 2 ^ used < 2 ^ (used - 1) then 0 else 128 - 2 ^ used := by
  have hused : used = 1 ∨ used = 2 ∨ used = 3 ∨ used = 4 ∨ used = 5 ∨ used = 6 ∨ used = 7 := by
    omega
  rcases hused with rfl | rfl | rfl | rfl | rfl | rfl | rfl <;> split <;> omega

section Signed

variable {maxBits rounds : Nat} {value : Int} (hrounds : varIntMaxBytes maxBits = rounds + 1)
  (hlow : -(2 ^ (maxBits - 1) : Nat) ≤ value) (hhigh : value < (2 ^ (maxBits - 1) : Nat))

include hrounds

theorem varIntLastBits_pos : 0 < varIntLastBits maxBits := by
  have hbits := (varIntLastBits_add hrounds).1
  unfold varIntMaxBytes at hrounds
  omega

/-- The same of the sign bit. -/
theorem two_pow_sub_one_eq_varIntLastBits :
    2 ^ (maxBits - 1) = 128 ^ rounds * 2 ^ (varIntLastBits maxBits - 1) := by
  have hbits := (varIntLastBits_add hrounds).1
  have hused := varIntLastBits_pos hrounds
  have hsub : maxBits - 1 = 7 * rounds + (varIntLastBits maxBits - 1) := by omega
  rw [hsub, Nat.pow_add, Nat.pow_mul]

include hlow hhigh

/-- A value in range fits the bytes there may be. -/
theorem fitsSigned_of_range : FitsSigned rounds value := by
  have hseven := (varIntLastBits_add hrounds).2
  have hpow := two_pow_sub_one_eq_varIntLastBits hrounds
  have hmul : 128 ^ rounds * 2 ^ (varIntLastBits maxBits - 1) ≤ 128 ^ rounds * 64 :=
    Nat.mul_le_mul_left _ (Nat.pow_le_pow_right (by decide) (by omega : _ ≤ 6))
  unfold FitsSigned
  omega

/-- What is left of a value in range for the last byte. -/
theorem ediv_of_range :
    -(2 ^ (varIntLastBits maxBits - 1) : Nat) ≤ value / (128 ^ rounds : Nat) ∧
      value / (128 ^ rounds : Nat) < (2 ^ (varIntLastBits maxBits - 1) : Nat) := by
  have hpos' : (0 : Int) < (128 ^ rounds : Nat) := Int.natCast_pos.2 (Nat.pow_pos (by decide))
  rw [two_pow_sub_one_eq_varIntLastBits hrounds, Nat.mul_comm, Int.natCast_mul] at hlow hhigh
  refine ⟨Int.le_ediv_of_mul_le hpos' ?_, Int.ediv_lt_of_lt_mul hpos' hhigh⟩
  rw [Int.neg_mul]
  exact hlow

/-- The payload, sign-extended from as many bits as were read. -/
theorem signExtend_varSIntBytes {width : Nat} (hle : maxBits ≤ width) :
    signExtend (min width (7 * (varSIntBytes (rounds + 1) value).length))
      (varIntPayload (varSIntBytes (rounds + 1) value)) = value := by
  have hpos : 0 < maxBits := by
    unfold varIntMaxBytes at hrounds
    omega
  obtain ⟨more, hlen, hmore, hpayload⟩ :=
    varSIntBytes_spec (fitsSigned_of_range hrounds hlow hhigh)
  have hpow : 128 ^ (more + 1) = 2 ^ (7 * (more + 1)) := by rw [Nat.pow_mul]
  have hsign : 64 * 128 ^ more = 2 ^ (7 * (more + 1) - 1) := by
    have hsub : 7 * (more + 1) - 1 = 6 + 7 * more := by omega
    rw [hsub, Nat.pow_add, Nat.pow_mul]
  have hwidth : 2 ^ (maxBits - 1) ≤ 2 ^ (width - 1) := Nat.pow_le_pow_right (by decide) (by omega)
  have hword : varIntPayload (varSIntBytes (rounds + 1) value) =
      (value % (2 ^ (7 * (more + 1)) : Nat)).toNat := by
    rw [← hpow, ← hpayload]
    rfl
  rw [hword, hlen]
  unfold FitsSigned at hmore
  rw [hsign] at hmore
  by_cases hcut : width ≤ 7 * (more + 1)
  · rw [Nat.min_eq_left hcut]
    exact signExtend_emod (by omega) hcut (by omega) (by omega)
  · rw [Nat.min_eq_right (by omega)]
    exact signExtend_emod (by omega) (Nat.le_refl _) hmore.1 hmore.2

end Signed

/-- **Signed LEB128.** A value in range is read back. -/
theorem readsBack_serializeVarInt {width maxBits : Nat} (hpos : 0 < maxBits) (hle : maxBits ≤ width)
    (value : Int) :
    ReadsBack E (Serialization.serializeVarInt width maxBits)
      (Output.serializeVarInt maxBits value) (· = value) := by
  refine ⟨fun {bytes} hw => ?_⟩
  unfold Output.serializeVarInt at hw
  split at hw
  · cases hw
  · next hrange =>
    obtain rfl := Except.ok.inj hw
    obtain ⟨rounds, hrounds⟩ := exists_varIntMaxBytes hpos
    have hcast : (2 : Int) ^ (maxBits - 1) = (2 ^ (maxBits - 1) : Nat) := by simp
    have hlow : -(2 ^ (maxBits - 1) : Nat) ≤ value := by omega
    have hhigh : value < (2 ^ (maxBits - 1) : Nat) := by omega
    have hfits := fitsSigned_of_range hrounds hlow hhigh
    obtain ⟨htop, htop'⟩ := ediv_of_range hrounds hlow hhigh
    unfold Serialization.serializeVarInt
    rw [hrounds, ← List.append_nil (varSIntBytes (rounds + 1) value)]
    refine (parses_varIntBytes (terminated_varSIntBytes hfits)).bind fun read hread => ?_
    have hbyte : varIntLastByte maxBits read =
        ((varSIntBytes (rounds + 1) value).getD rounds 0).toNat := by
      rw [varIntLastByte, hread, hrounds]
      rfl
    have hvalue : signExtend (min width (7 * read.length)) (varIntPayload read) = value := by
      rw [hread]
      exact signExtend_varSIntBytes hrounds hlow hhigh hle
    refine .check (parses_throwIf_false ?_) fun _ _ => ?_
    · rw [hbyte, unusedBits (varIntLastBits_pos hrounds) (varIntLastBits_add hrounds).2 htop
        htop' (getD_varSIntBytes hfits)]
      exact bne_self_eq_false _
    refine .check (parses_throwIf_false ?_) fun _ _ => ?_
    · rw [hvalue]
      simpa using hrange
    · rw [hvalue]
      exact .pure rfl

theorem readsBack_serializeVarUInt1 (value : Nat) :
    ReadsBack E Serialization.serializeVarUInt1 (Output.serializeVarUInt1 value) (· = value) :=
  readsBack_serializeVarUInt (by decide) value

theorem readsBack_serializeVarUInt7 (value : Nat) :
    ReadsBack E Serialization.serializeVarUInt7 (Output.serializeVarUInt7 value) (· = value) :=
  readsBack_serializeVarUInt (by decide) value

theorem readsBack_serializeVarUInt32 (value : Nat) :
    ReadsBack E Serialization.serializeVarUInt32 (Output.serializeVarUInt32 value) (· = value) :=
  readsBack_serializeVarUInt (by decide) value

theorem readsBack_serializeVarInt7 (value : Int) :
    ReadsBack E Serialization.serializeVarInt7 (Output.serializeVarInt7 value) (· = value) :=
  readsBack_serializeVarInt (by decide) (by decide) value

theorem readsBack_serializeVarInt32 (value : Int) :
    ReadsBack E Serialization.serializeVarInt32 (Output.serializeVarInt32 value) (· = value) :=
  readsBack_serializeVarInt (by decide) (by decide) value

theorem readsBack_serializeVarInt64 (value : Int) :
    ReadsBack E Serialization.serializeVarInt64 (Output.serializeVarInt64 value) (· = value) :=
  readsBack_serializeVarInt (by decide) (by decide) value

theorem readsBack_serializeConstantU8 (message : String) (constant : UInt8) :
    ReadsBack E (serializeConstantU8 message constant) (Output.serializeU8 constant)
      fun _ => True := by
  refine ⟨fun {bytes} hw => ?_⟩
  rw [← List.append_nil bytes]
  refine ((readsBack_serializeU8 constant).parses hw).bind fun savedConstant hsaved => ?_
  refine (parses_throwIf_false ?_).mono fun _ _ => trivial
  rw [hsaved]
  exact bne_self_eq_false constant

theorem readsBack_serializeConstantU32 (message : String) (constant : UInt32) :
    ReadsBack E (serializeConstantU32 message constant) (Output.serializeU32 constant)
      fun _ => True := by
  refine ⟨fun {bytes} hw => ?_⟩
  rw [← List.append_nil bytes]
  refine ((readsBack_serializeU32 constant).parses hw).bind fun savedConstant hsaved => ?_
  refine (parses_throwIf_false ?_).mono fun _ _ => trivial
  rw [hsaved]
  exact bne_self_eq_false constant

/-- A string or an array is small enough to be read, or the refusal is an error in `E`. -/
def FitsSize (E : Exception → Prop) (size : Nat) : Prop :=
  size < maximumFuncLocalBytes ∨ ∀ what, E (.fatalSerialization (sizeMessage what size))

/-- The limit on the size of a string or an array. -/
theorem parses_sizeCheck {size : Nat} (h : FitsSize E size) (what : String) :
    Reader.Parses E (throwIf (maximumFuncLocalBytes ≤ size) (sizeMessage what size)) []
      fun _ => True := by
  refine (parses_throwIf ?_).mono fun _ _ => trivial
  rcases h with hlt | hlimit
  · exact .inl (decide_eq_false (Nat.not_le.2 hlt))
  · exact .inr (hlimit what)

/-- A string within the limit is read back. -/
theorem readsBack_serializeString {string : Bytes} (h : FitsSize E string.length) :
    ReadsBack E Serialization.serializeString (Output.serializeString string) (· = string) := by
  refine .bind (readsBack_serializeVarUInt32 string.length) fun size hsize => ?_
  refine .last ⟨fun {bytes} hw => ?_⟩
  obtain rfl := Except.ok.inj hw
  rw [hsize]
  have hread : Reader.Parses E (advance string.length) string (· = string) := parses_advance rfl
  have hcheck := parses_sizeCheck h "string"
  have hbind := hread.bind fun inputBytes hinput => hcheck.check (Q := (· = string))
    fun _ _ => .pure hinput
  rwa [List.append_nil] at hbind

/-- So is an array whose elements are. -/
theorem readsBack_serializeArray {α : Type} {r : InputReader α} {enc : α → OutputWriter}
    {vector : List α} (hfits : FitsSize E vector.length)
    (h : ∀ a ∈ vector, ReadsBack E r (enc a) (· = a)) :
    ReadsBack E (Serialization.serializeArray r) (Output.serializeArray enc vector)
      (· = vector) := by
  refine .bind (readsBack_serializeVarUInt32 vector.length) fun size hsize => ?_
  refine .check (parses_sizeCheck (hsize ▸ hfits) "array") fun _ _ => ?_
  rw [hsize]
  exact .many h

/-- The check of a name that is written without it. -/
theorem parses_throwIfNotValidUTF8 {string : Bytes} (h : validateString string = []) :
    Reader.Parses E (Serialization.throwIfNotValidUTF8 string) [] fun _ => True := by
  refine (parses_throwIf_false ?_).mono fun _ _ => trivial
  rw [h]
  rfl

end ReadsBack

/-! ## Writing again: the stream -/

section Reencodes

open Output

/-- What was read is a nonempty run from the front of the input. -/
theorem append_of_varIntBytes {maxBytes : Nat} {bytes rest read : Bytes}
    (h : varIntBytes maxBytes bytes = .ok (read, rest)) :
    bytes = read ++ rest ∧ (0 < maxBytes → 0 < read.length) := by
  induction maxBytes generalizing bytes read with
  | zero =>
    obtain ⟨rfl, rfl⟩ := pure_eq_ok.1 h
    exact ⟨rfl, id⟩
  | succ maxBytes ih =>
    obtain ⟨taken, t, htaken, hbyte⟩ := bind_eq_ok.1 h
    obtain ⟨rfl, hlen⟩ := advance_eq_ok.1 htaken
    obtain ⟨byte, rfl⟩ := List.length_eq_one_iff.1 hlen
    rw [List.headD_cons] at hbyte
    split at hbyte
    · obtain ⟨rfl, rfl⟩ := pure_eq_ok.1 hbyte
      exact ⟨rfl, fun _ => Nat.one_pos⟩
    · obtain ⟨read', t', hread', hbytes⟩ := bind_eq_ok.1 hbyte
      obtain ⟨rfl, rfl⟩ := pure_eq_ok.1 hbytes
      rw [(ih hread').1]
      exact ⟨rfl, fun _ => Nat.succ_pos _⟩

/-- Seven bits for each byte. -/
theorem varIntPayload_lt (bytes : Bytes) : varIntPayload bytes < 128 ^ bytes.length := by
  induction bytes with
  | nil => decide
  | cons byte bytes ih =>
    rw [List.length_cons, Nat.pow_succ']
    simp only [varIntPayload]
    omega

/-- A variable-length integer is written again in at most the bytes it was read from. -/
theorem reencodes_of_varIntBytes {maxBytes : Nat} {bytes rest read written : Bytes}
    {w : OutputWriter} (hmax : 0 < maxBytes) (hread : varIntBytes maxBytes bytes = .ok (read, rest))
    (hw : w = .ok written)
    (hle : ∀ more, read.length = more + 1 → written.length ≤ more + 1) :
    ∃ out, Writer.concat [w] = .ok out ∧
      out.length + rest.length ≤ ([] : Bytes).length + bytes.length := by
  obtain ⟨rfl, hpos⟩ := append_of_varIntBytes hread
  obtain ⟨more, hmore⟩ := Nat.exists_eq_succ_of_ne_zero (Nat.ne_of_gt (hpos hmax))
  refine ⟨written ++ [], Writer.concat_cons_eq_ok.2 ⟨written, [], hw, rfl, rfl⟩, ?_⟩
  have hwritten := hle more hmore
  simp only [List.append_nil, List.length_append, List.length_nil]
  omega

/-- A value not above the one that was read is written in at most the bytes read. -/
theorem reencodes_serializeVarUInt_le {maxBits : Nat} (hpos : 0 < maxBits) {f : Nat → Nat}
    (hf : ∀ value, f value ≤ value) :
    Reencodes [] (Serialization.serializeVarUInt maxBits)
      fun value => [Output.serializeVarUInt maxBits (f value)] := by
  refine ⟨fun {bytes rest value out} h hpre => ?_⟩
  obtain rfl := Except.ok.inj hpre
  obtain ⟨rounds, hrounds⟩ := exists_varIntMaxBytes hpos
  obtain ⟨read, t₁, hread, h⟩ := bind_eq_ok.1 h
  obtain ⟨u, t₂, hunused, h⟩ := bind_eq_ok.1 h
  obtain ⟨-, rfl⟩ := throwIf_eq_ok.1 hunused
  obtain ⟨u, t₃, hcheck, h⟩ := bind_eq_ok.1 h
  obtain ⟨hrange, rfl⟩ := throwIf_eq_ok.1 hcheck
  obtain ⟨rfl, rfl⟩ := pure_eq_ok.1 h
  have hle := hf (varIntPayload read)
  have hnot := of_decide_eq_false hrange
  refine reencodes_of_varIntBytes (hrounds ▸ Nat.succ_pos rounds) hread (if_neg (by omega))
    fun more hmore => ?_
  have hlt := varIntPayload_lt read
  rw [hmore] at hlt
  exact length_varUIntBytes_le (Nat.lt_of_le_of_lt hle hlt)

/-- The writer never needs more bytes than were read, since it writes the shortest form. -/
theorem reencodes_serializeVarUInt {maxBits : Nat} (hpos : 0 < maxBits) :
    Reencodes [] (Serialization.serializeVarUInt maxBits)
      fun value => [Output.serializeVarUInt maxBits value] :=
  reencodes_serializeVarUInt_le hpos fun value => Nat.le_refl value

/-- A number that was extended from the bytes read fits them. -/
theorem fitsSigned_signExtend {width more value : Nat} (hwidth : 0 < width) :
    FitsSigned more (signExtend (min width (7 * (more + 1))) value) := by
  have hmin : ∃ half, min width (7 * (more + 1)) = half + 1 ∧ half ≤ 7 * (more + 1) - 1 :=
    ⟨min width (7 * (more + 1)) - 1, by omega, by omega⟩
  obtain ⟨half, hhalf, hle⟩ := hmin
  have hpow : 2 ^ half ≤ 64 * 128 ^ more := by
    have hsub : 7 * (more + 1) - 1 = 6 + 7 * more := by omega
    have hmono := Nat.pow_le_pow_right (n := 2) (by decide) hle
    rwa [hsub, Nat.pow_add, Nat.pow_mul] at hmono
  have hsucc : 2 ^ (half + 1) = 2 * 2 ^ half := Nat.pow_succ'
  have hcast : (2 : Int) ^ (half + 1) = (2 ^ (half + 1) : Nat) := by simp
  have hmod := Nat.mod_lt value (Nat.two_pow_pos (half + 1))
  rw [hhalf]
  unfold FitsSigned signExtend
  simp only [Nat.add_sub_cancel]
  rw [hcast]
  split <;> omega

/-- The same of signed numbers, padded or not. -/
theorem reencodes_serializeVarInt {width maxBits : Nat} (hpos : 0 < maxBits)
    (hwidth : 0 < width) :
    Reencodes [] (Serialization.serializeVarInt width maxBits)
      fun value => [Output.serializeVarInt maxBits value] := by
  refine ⟨fun {bytes rest value out} h hpre => ?_⟩
  obtain rfl := Except.ok.inj hpre
  obtain ⟨rounds, hrounds⟩ := exists_varIntMaxBytes hpos
  obtain ⟨read, t₁, hread, h⟩ := bind_eq_ok.1 h
  obtain ⟨u, t₂, hunused, h⟩ := bind_eq_ok.1 h
  obtain ⟨-, rfl⟩ := throwIf_eq_ok.1 hunused
  obtain ⟨u, t₃, hcheck, h⟩ := bind_eq_ok.1 h
  obtain ⟨hrange, rfl⟩ := throwIf_eq_ok.1 hcheck
  obtain ⟨rfl, rfl⟩ := pure_eq_ok.1 h
  refine reencodes_of_varIntBytes (hrounds ▸ Nat.succ_pos rounds) hread (if_neg ?_)
    fun more hmore => ?_
  · simpa using hrange
  · rw [hmore]
    exact length_varSIntBytes_le (fitsSigned_signExtend hwidth)

/-- The numbers a signed variable-length integer stands for. -/
theorem returns_serializeVarInt (width maxBits : Nat) :
    Reader.Returns (fun value => -2 ^ (maxBits - 1) ≤ value ∧ value < 2 ^ (maxBits - 1))
      (Serialization.serializeVarInt width maxBits) := by
  refine .bind fun bytes => .bind fun _ => ?_
  refine .bind_of (returns_throwIf _ _) fun _ hrange => .pure ?_
  simp only [Bool.or_eq_false_iff, decide_eq_false_iff_not] at hrange
  omega

/-- A number takes at least one byte. -/
theorem consumes_serializeVarInt {width maxBits : Nat} (hpos : 0 < maxBits) :
    Reader.Consumes (Serialization.serializeVarInt width maxBits) := by
  obtain ⟨rounds, hrounds⟩ := exists_varIntMaxBytes hpos
  refine .bind ⟨fun {bytes rest read} hread => ?_⟩ fun _ => .bind (shrinks_throwIf _ _) fun _ =>
    .bind (shrinks_throwIf _ _) fun _ => .pure _
  rw [hrounds] at hread
  obtain ⟨rfl, hne⟩ := append_of_varIntBytes hread
  have hread' := hne (Nat.succ_pos rounds)
  rw [List.length_append]
  omega

/-- A number of seven bits is written in one byte. -/
theorem reencodes_serializeVarInt7_of {f : Int → Int}
    (hf : ∀ value, -64 ≤ value → value < 64 → -64 ≤ f value ∧ f value < 64) :
    Reencodes [] Serialization.serializeVarInt7
      fun value => [Output.serializeVarInt7 (f value)] := by
  refine ⟨fun {bytes rest value out} hread hpre => ?_⟩
  obtain rfl := Except.ok.inj hpre
  have hreturns : Reader.Returns (fun value : Int => -64 ≤ value ∧ value < 64)
      Serialization.serializeVarInt7 := returns_serializeVarInt 8 7
  obtain ⟨hlow, hhigh⟩ := hreturns.holds hread
  obtain ⟨hlow', hhigh'⟩ := hf value hlow hhigh
  have hfits : FitsSigned 0 (f value) := fitsSigned_zero.2 ⟨hlow', hhigh'⟩
  have hw : Output.serializeVarInt7 (f value) = .ok (varSIntBytes 1 (f value)) := by
    unfold Output.serializeVarInt7 Output.serializeVarInt
    exact if_neg (by omega)
  have hlen : Reader.Consumes Serialization.serializeVarInt7 :=
    consumes_serializeVarInt (by decide)
  have hlt := hlen.length_lt hread
  have hone : (varSIntBytes 1 (f value)).length ≤ 0 + 1 := length_varSIntBytes_le hfits
  refine ⟨_, Writer.concat_cons_eq_ok.2 ⟨_, [], hw, rfl, rfl⟩, ?_⟩
  simp only [List.append_nil, List.length_nil]
  omega

theorem reencodes_serializeVarUInt1 :
    Reencodes [] Serialization.serializeVarUInt1 fun value => [Output.serializeVarUInt1 value] :=
  reencodes_serializeVarUInt (by decide)

theorem reencodes_serializeVarUInt7 :
    Reencodes [] Serialization.serializeVarUInt7 fun value => [Output.serializeVarUInt7 value] :=
  reencodes_serializeVarUInt (by decide)

theorem reencodes_serializeVarUInt32 :
    Reencodes [] Serialization.serializeVarUInt32 fun value => [Output.serializeVarUInt32 value] :=
  reencodes_serializeVarUInt (by decide)

theorem reencodes_serializeVarInt7 :
    Reencodes [] Serialization.serializeVarInt7 fun value => [Output.serializeVarInt7 value] :=
  reencodes_serializeVarInt (by decide) (by decide)

theorem reencodes_serializeVarInt32 :
    Reencodes [] Serialization.serializeVarInt32 fun value => [Output.serializeVarInt32 value] :=
  reencodes_serializeVarInt (by decide) (by decide)

theorem reencodes_serializeVarInt64 :
    Reencodes [] Serialization.serializeVarInt64 fun value => [Output.serializeVarInt64 value] :=
  reencodes_serializeVarInt (by decide) (by decide)

/-- A value of a fixed size. -/
theorem reencodes_of_size {α : Type} {numBytes : Nat} (f : Bytes → α) {enc : α → Bytes}
    (hlen : ∀ a, (enc a).length = numBytes) :
    Reencodes [] (do return f (← Serialization.serializeBytes numBytes))
      fun a => [(.ok (enc a) : OutputWriter)] := by
  refine ⟨fun {bytes rest a out} h hpre => ?_⟩
  obtain rfl := Except.ok.inj hpre
  obtain ⟨taken, t, htaken, h⟩ := bind_eq_ok.1 h
  obtain ⟨rfl, rfl⟩ := pure_eq_ok.1 h
  obtain ⟨-, rfl, htaken⟩ := serializeBytes_eq_ok.1 htaken
  refine ⟨enc (f taken) ++ [], rfl, ?_⟩
  simp only [List.append_nil, List.length_append, List.length_nil, hlen]
  omega

theorem reencodes_serializeU8 :
    Reencodes [] Serialization.serializeU8 fun i => [Output.serializeU8 i] :=
  reencodes_of_size (fun bytes => bytes.headD 0) fun _ => rfl

theorem reencodes_serializeU32 :
    Reencodes [] Serialization.serializeU32 fun i => [Output.serializeU32 i] :=
  reencodes_of_size readU32 length_u32Bytes

theorem reencodes_serializeU64 :
    Reencodes [] Serialization.serializeU64 fun i => [Output.serializeU64 i] :=
  reencodes_of_size readU64 length_u64Bytes

theorem reencodes_serializeConstantU8 (message : String) (constant : UInt8) :
    Reencodes [] (serializeConstantU8 message constant) fun _ => [Output.serializeU8 constant] := by
  refine ⟨fun {bytes rest u out} h hpre => ?_⟩
  obtain rfl := Except.ok.inj hpre
  have hlen := (consumes_serializeConstantU8 message constant).length_lt h
  refine ⟨[constant] ++ [], rfl, ?_⟩
  simp only [List.append_nil, List.length_cons, List.length_nil]
  omega

theorem reencodes_advance (numBytes : Nat) :
    Reencodes [] (advance numBytes) fun bytes => [Output.serializeBytes bytes] := by
  refine ⟨fun {bytes rest taken out} h hpre => ?_⟩
  obtain rfl := Except.ok.inj hpre
  obtain ⟨rfl, -⟩ := advance_eq_ok.1 h
  refine ⟨taken ++ [], rfl, ?_⟩
  simp

/-- The length may shrink, the bytes stay. -/
theorem reencodes_serializeString :
    Reencodes [] Serialization.serializeString fun string => [Output.serializeString string] := by
  refine .single (.bind reencodes_serializeVarUInt32 fun size => ?_)
  have hlen : Reader.Returns (fun bytes : Bytes => bytes.length = size) (advance size) :=
    ⟨fun h => (advance_eq_ok.1 h).2⟩
  refine .bind_of (reencodes_advance size) hlen fun inputBytes hinput => ?_
  refine .check (shrinks_throwIf _ _) (returns_throwIf _ _) fun _ _ => .pure ?_
  rw [hinput]
  rfl

/-- The length may shrink, and so may each element. -/
theorem reencodes_serializeArray {α : Type} {r : InputReader α} {enc : α → OutputWriter}
    (hr : Reencodes [] r fun a => [enc a]) :
    Reencodes [] (Serialization.serializeArray r) fun vector => [Output.serializeArray enc vector] := by
  refine .single (.bind reencodes_serializeVarUInt32 fun size => ?_)
  refine .check (shrinks_throwIf _ _) (returns_throwIf _ _) fun _ _ => ?_
  refine ⟨fun {bytes rest vector out} hread hpre => ?_⟩
  obtain ⟨written, hwritten, hlen⟩ := (Reencodes.many hr size).fits hread rfl
  refine ⟨out ++ written, ?_, ?_⟩
  · rw [Reader.length_of_many hread]
    exact Writer.concat_append hpre hwritten
  · rw [List.length_append]
    simp only [List.length_nil] at hlen
    omega

end Reencodes

end FractalWasm.Serialization
