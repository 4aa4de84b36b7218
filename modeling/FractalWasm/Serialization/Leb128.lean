import FractalWasm.Serialization.VarInt

/-!
# LEB128 is exact

What an encoding is, on bytes, and that each instance of the template writes one for every value in
range and reads nothing else.

**Encodings** (`Encodes`): bytes with the high bit set up to the last one (`IsLeb128`), no more than
`maxBits` bits need, the unused bits of a last one zero or copies of the sign bit, that denote the
value (`denote`).

**Exactness** (`varInt_exact`): every value in range is written and read back, and the instance
reads exactly the encodings of values in range, padded ones among them (`encodes_iff`). Between the
two stands what the template computes from the bytes it has read (`toInt_decoded`).
-/

namespace FractalWasm.Serialization

open Codec IR

namespace VarInt

/-! ## The numbers the bytes stand for -/

theorem varIntBytes_eq_ok {rounds : Nat} {bytes rest read : Bytes} :
    varIntBytes rounds bytes = .ok (read, rest) ↔
      bytes = read ++ rest ∧ Terminated rounds read := by
  constructor
  · intro h
    refine ⟨(append_of_varIntBytes h).1, ?_⟩
    induction rounds generalizing bytes read with
    | zero =>
      obtain ⟨rfl, -⟩ := pure_eq_ok.1 h
      exact .none
    | succ rounds ih =>
      obtain ⟨taken, t, htaken, hbyte⟩ := bind_eq_ok.1 h
      split at hbyte
      · next hclear =>
        obtain ⟨rfl, -⟩ := pure_eq_ok.1 hbyte
        exact .last hclear
      · next hset =>
        obtain ⟨read', t', hread', hbytes⟩ := bind_eq_ok.1 hbyte
        obtain ⟨rfl, rfl⟩ := pure_eq_ok.1 hbytes
        exact .next hset (ih hread')
  · rintro ⟨rfl, hread⟩
    exact (parses_varIntBytes hread).eq_ok rest

/-- Bytes with their continuation bits set, and one with the bit clear. -/
def IsLeb128 (enc : Bytes) : Prop :=
  ∃ front last, enc = front ++ [last] ∧ (∀ byte ∈ front, ¬ byte < 0x80) ∧ last < 0x80

theorem terminated_iff {rounds : Nat} {enc : Bytes} :
    Terminated (rounds + 1) enc ∧ enc.getD rounds 0 < 0x80 ↔
      IsLeb128 enc ∧ enc.length ≤ rounds + 1 := by
  constructor
  · rintro ⟨henc, hlast⟩
    induction rounds generalizing enc with
    | zero =>
      cases henc with
      | last hclear => exact ⟨⟨[], _, rfl, by simp, hclear⟩, Nat.le_refl _⟩
      | next hset hrest => exact absurd hlast hset
    | succ rounds ih =>
      cases henc with
      | last hclear => exact ⟨⟨[], _, rfl, by simp, hclear⟩, by simp⟩
      | next hset hrest =>
        obtain ⟨⟨front, last, rfl, hfront, hclear⟩, hlen⟩ := ih hrest (by simpa using hlast)
        exact ⟨⟨_ :: front, last, rfl, List.forall_mem_cons.2 ⟨hset, hfront⟩, hclear⟩,
          Nat.succ_le_succ hlen⟩
  · rintro ⟨⟨front, last, rfl, hfront, hclear⟩, hlen⟩
    induction front generalizing rounds with
    | nil =>
      refine ⟨.last hclear, ?_⟩
      cases rounds with
      | zero => exact hclear
      | succ rounds => exact (by decide : (0 : UInt8) < 0x80)
    | cons byte front ih =>
      rw [List.forall_mem_cons] at hfront
      cases rounds with
      | zero => simp at hlen
      | succ rounds =>
        obtain ⟨hrest, hlast⟩ := ih (Nat.le_of_succ_le_succ hlen) hfront.2
        exact ⟨.next hfront.1 hrest, by simpa using hlast⟩

theorem varIntPayload_split {more : Nat} {read : Bytes} (hlen : read.length = more + 1) :
    varIntPayload read =
      varIntPayload (read.take more) + 128 ^ more * ((read.getD more 0).toNat % 128) := by
  induction more generalizing read with
  | zero =>
    obtain ⟨byte, rfl⟩ := List.length_eq_one_iff.1 hlen
    simp [varIntPayload]
  | succ more ih =>
    cases read with
    | nil => cases hlen
    | cons byte read =>
      have hrest := ih (Nat.succ.inj hlen)
      rw [List.take_succ_cons, List.getD_cons_succ, varIntPayload, varIntPayload, hrest,
        Nat.pow_succ', Nat.mul_add, Nat.mul_assoc, Nat.add_assoc]

section Signed

variable (p : VarInt)

/-- A last byte whose unused bits are copies of its sign bit, as a number of seven bits. -/
theorem signExtend_last {lastByte : UInt8}
    (h : isInvalid (varIntLastBits p.maxBits) true lastByte = false) :
    lastByte.toNat < 128 ∧ -2 ^ (varIntLastBits p.maxBits - 1) ≤ signExtend 7 lastByte.toNat ∧
      signExtend 7 lastByte.toNat < 2 ^ (varIntLastBits p.maxBits - 1) ∧
      (signExtend 7 lastByte.toNat = lastByte.toNat ∨
        signExtend 7 lastByte.toNat = lastByte.toNat - 128) := by
  obtain ⟨n, hn⟩ := exists_used p
  rw [isInvalid_signed, bne_eq_false_iff_eq, hn, Nat.add_sub_cancel] at h
  rw [hn, Nat.add_sub_cancel]
  have hbyte := lastByte.toNat_lt
  have hhalf : 2 ^ n.val ≤ 2 ^ 6 := Nat.pow_le_pow_right Nat.two_pos (by omega)
  have hmod := Nat.mod_le lastByte.toNat (2 ^ (n.val + 1))
  have hmodlt := Nat.mod_lt lastByte.toNat (Nat.two_pow_pos (n.val + 1))
  have hsplit : 2 ^ (n.val + 1) = 2 ^ n.val * 2 := Nat.pow_succ _ _
  have hcast : ((2 ^ n.val : Nat) : Int) = 2 ^ n.val := Int.natCast_pow 2 _
  rw [← hcast]
  unfold signExtend
  split at h
  · have hlow : lastByte.toNat % 2 ^ 7 < 2 ^ (7 - 1) := by omega
    simp only [if_pos hlow]
    omega
  · have hhigh : ¬ lastByte.toNat % 2 ^ 7 < 2 ^ (7 - 1) := by omega
    simp only [if_neg hhigh]
    omega

/-- Modulo the word it does not matter whether the byte on top is taken with its sign. -/
theorem toNat_emod_of_top {low power byte : Nat} {top : Int} (hlow : low < power)
    (hbyte : byte < 128) (htop : top = byte ∨ top = byte - 128) :
    ((low + power * top) % (power * 128 : Nat)).toNat = low + power * byte := by
  have hsum : ((low + power * byte : Nat) : Int) = low + power * byte := by
    rw [Int.natCast_add, Int.natCast_mul]
  have hrange : low + power * byte < power * 128 := by
    have hmul := Nat.mul_le_mul_left power (Nat.le_of_lt_succ hbyte)
    omega
  have hmod : ((low + power * byte : Nat) : Int) % (power * 128 : Nat) =
      (low + power * byte : Nat) :=
    Int.emod_eq_of_lt (Int.natCast_nonneg _) (Int.ofNat_lt.2 hrange)
  rcases htop with rfl | rfl
  · rw [← hsum, hmod, Int.toNat_natCast]
  · have hsub : (low : Int) + power * (byte - 128) + (power * 128 : Nat) =
        (low + power * byte : Nat) := by
      rw [hsum, Int.mul_sub, Int.natCast_mul]
      omega
    rw [← Int.add_emod_right, hsub, hmod, Int.toNat_natCast]

/-- As many bytes as there may be stand for a number that fits `maxBits` bits, so it does not matter
from how many bits, from there on, it is extended. -/
theorem signExtend_varIntPayload {more bits : Nat} {read : Bytes}
    (hmore : varIntMaxBytes p.maxBits = more + 1) (hlen : read.length = more + 1)
    (h : isInvalid (varIntLastBits p.maxBits) true (read.getD more 0) = false)
    (hlow : p.maxBits ≤ bits) (hhigh : bits ≤ 7 * (more + 1)) :
    signExtend bits (varIntPayload read) =
      varIntPayload (read.take more) +
        (128 ^ more : Nat) * signExtend 7 (read.getD more 0).toNat := by
  obtain ⟨hbyte, hlower, hupper, hcongr⟩ := signExtend_last p h
  have hfront := varIntPayload_lt (read.take more)
  have hpayload := varIntPayload_split hlen
  have hpow := two_pow_sub_one_eq_varIntLastBits hmore
  have hpos := p.maxBits_pos
  have hbits : 2 ^ (p.maxBits - 1) ≤ 2 ^ (bits - 1) :=
    Nat.pow_le_pow_right (by decide) (Nat.sub_le_sub_right hlow 1)
  have hcast : (2 : Int) ^ (varIntLastBits p.maxBits - 1) =
      (2 ^ (varIntLastBits p.maxBits - 1) : Nat) := by simp
  have hwidth : 2 ^ (7 * (more + 1)) = 128 ^ more * 128 := by
    rw [Nat.pow_mul, Nat.pow_succ]
  rw [List.length_take, hlen, Nat.min_eq_left (Nat.le_succ more)] at hfront
  rw [hcast] at hlower hupper
  rw [Nat.mod_eq_of_lt hbyte] at hpayload
  rw [hpow] at hbits
  generalize signExtend 7 (read.getD more 0).toNat = top at *
  generalize (read.getD more 0).toNat = byte at *
  generalize varIntPayload (read.take more) = low at *
  generalize 2 ^ (varIntLastBits p.maxBits - 1) = half at *
  generalize 128 ^ more = power at *
  have hpower : (0 : Int) ≤ power := Int.natCast_nonneg power
  have hbelow := Int.mul_le_mul_of_nonneg_left hlower hpower
  have habove := Int.mul_le_mul_of_nonneg_left (Int.add_one_le_of_lt hupper) hpower
  have hhalf : (power : Int) * half ≤ (2 ^ (bits - 1) : Nat) := by
    rw [← Int.natCast_mul]
    exact Int.ofNat_le.2 hbits
  rw [Int.mul_neg] at hbelow
  rw [Int.mul_add, Int.mul_one] at habove
  have hword : ((low + power * top) % (2 ^ (7 * (more + 1)) : Nat)).toNat =
      varIntPayload read := by
    rw [hwidth, hpayload]
    exact toNat_emod_of_top hfront hbyte hcongr
  rw [← hword]
  exact signExtend_emod (by omega) hhigh (by omega) (by omega)

end Signed

/-! ## Exactness -/

variable (p : VarInt)

/-- The number the bytes of an encoding denote: seven bits each, in two's complement at a signed
type. -/
def denote (enc : Bytes) : Int :=
  if p.type.isSigned then signExtend (7 * enc.length) (varIntPayload enc) else varIntPayload enc

/-- `enc` encodes `value`: it has at most `ceil(maxBits / 7)` bytes, and where it has as many, the
unused bits of the last one are zero or copies of the sign bit. -/
structure Encodes (enc : Bytes) (value : p.Value) : Prop where
  form : IsLeb128 enc
  length_le : enc.length ≤ varIntMaxBytes p.maxBits
  unused : enc.length = varIntMaxBytes p.maxBits → ∀ bit < 7, varIntLastBits p.maxBits ≤ bit →
    (varIntLastByte p.maxBits enc).testBit bit =
      (p.type.isSigned && (varIntLastByte p.maxBits enc).testBit (varIntLastBits p.maxBits - 1))
  inRange : p.InRange value
  denotes : p.type.toInt value = p.denote enc

/-- The value the template computes from the bytes read. -/
def decoded (read : Bytes) : p.Value :=
  extend p.type (.ofInt (p.type.bits - 7 * read.length))
    (orBytes p.type 0 (read ++ .replicate (varIntMaxBytes p.maxBits - read.length) 0) 0)

theorem toInt_inj {type : BasicType} {value value' : BitVec type.bits}
    (h : type.toInt value = type.toInt value') : value = value' := by
  unfold BasicType.toInt at h
  split at h
  · exact BitVec.eq_of_toInt_eq h
  · exact BitVec.eq_of_toNat_eq (Int.ofNat.inj h)

section Decoded

variable {p} {read : Bytes} (hpos : 0 < read.length)
  (hlen : read.length ≤ varIntMaxBytes p.maxBits)
  (hvalid : isInvalid (varIntLastBits p.maxBits) p.type.isSigned
    (read.getD (varIntMaxBytes p.maxBits - 1) 0) = false)

include hpos hlen hvalid

theorem toInt_decoded : p.type.toInt (p.decoded read) = p.denote read := by
  have hword := @toNat_orBytes_replicate p.type read
    (varIntMaxBytes p.maxBits - read.length)
  have hle := p.maxBits_le
  unfold denote decoded
  cases h : p.type.isSigned with
  | false =>
    rw [h, isInvalid_unsigned, decide_eq_false_iff_not] at hvalid
    have hlt := varIntPayload_lt_two_pow p hlen hvalid
    rw [BasicType.toInt_of_unsigned h, extend_unsigned h, hword,
      Nat.mod_eq_of_lt (Nat.lt_of_lt_of_le hlt (Nat.pow_le_pow_right (by decide) hle))]
    rfl
  | true =>
    obtain ⟨more, hmore⟩ := exists_varIntMaxBytes p.maxBits_pos
    have hbits := @BasicType.bits_le p.type
    have hsplit := varIntLastBits_add hmore
    have hused := varIntLastBits_pos hmore
    rw [h, hmore, Nat.add_sub_cancel] at hvalid
    rw [hmore] at hlen
    rw [BasicType.toInt_of_signed h, toInt_extend h hpos (by omega) hword, if_pos rfl]
    rcases Nat.lt_or_eq_of_le hlen with hshort | hfull
    · rw [Nat.min_eq_right (by omega)]
    · rw [hfull, signExtend_varIntPayload p hmore hfull hvalid (by omega) (by omega),
        signExtend_varIntPayload p hmore hfull hvalid (by omega) (by omega)]

end Decoded

theorem input_eq_ok {bytes rest : Bytes} {value : p.Value} :
    p.input bytes = .ok (value, rest) ↔ ∃ read, bytes = read ++ rest ∧
      Terminated (varIntMaxBytes p.maxBits) read ∧
      isInvalid (varIntLastBits p.maxBits) p.type.isSigned
        (read.getD (varIntMaxBytes p.maxBits - 1) 0) = false ∧
      p.InRange value ∧ value = p.decoded read := by
  rw [input_eq]
  simp only [bind_eq_ok, throwIf_eq_ok, pure_eq_ok, varIntBytes_eq_ok, isOutOfRange_eq_false]
  constructor
  · rintro ⟨read, _, ⟨rfl, hread⟩, _, _, ⟨hvalid, rfl⟩, _, _, ⟨hrange, rfl⟩, rfl, rfl⟩
    exact ⟨read, rfl, hread, hvalid, hrange, rfl⟩
  · rintro ⟨read, rfl, hread, hvalid, hrange, rfl⟩
    exact ⟨read, rest, ⟨rfl, hread⟩, (), rest, ⟨hvalid, rfl⟩, (), rest, ⟨hrange, rfl⟩, rfl, rfl⟩

/-- What is accepted is an encoding of the value. -/
theorem encodes_iff {enc : Bytes} {value : p.Value} :
    (Terminated (varIntMaxBytes p.maxBits) enc ∧
      isInvalid (varIntLastBits p.maxBits) p.type.isSigned
        (enc.getD (varIntMaxBytes p.maxBits - 1) 0) = false ∧
      p.InRange value ∧ value = p.decoded enc) ↔ p.Encodes enc value := by
  obtain ⟨more, hmore⟩ := exists_varIntMaxBytes p.maxBits_pos
  constructor
  · rintro ⟨hread, hvalid, hrange, hvalue⟩
    have hbits := (isInvalid_eq_false p _ _).1 hvalid
    have hform : IsLeb128 enc ∧ enc.length ≤ more + 1 := by
      rw [hmore] at hread hbits
      exact terminated_iff.1 ⟨hread, hbits.1⟩
    have hpos : 0 < enc.length := by
      obtain ⟨front, last, rfl, -⟩ := hform.1
      simp
    refine ⟨hform.1, hmore ▸ hform.2, fun _ => hbits.2, hrange, ?_⟩
    rw [hvalue]
    exact toInt_decoded hpos (hmore ▸ hform.2) hvalid
  · rintro ⟨hform, hlen, hunused, hrange, hdenotes⟩
    have hpos : 0 < enc.length := by
      obtain ⟨front, last, rfl, -⟩ := hform
      simp
    have hread := terminated_iff.2 ⟨hform, hmore ▸ hlen⟩
    have hvalid : isInvalid (varIntLastBits p.maxBits) p.type.isSigned
        (enc.getD (varIntMaxBytes p.maxBits - 1) 0) = false := by
      refine (isInvalid_eq_false p _ _).2 ⟨by rw [hmore]; exact hread.2, ?_⟩
      rcases Nat.lt_or_eq_of_le hlen with hshort | hfull
      · rw [List.getD_eq_default _ _ (by omega)]
        simp
      · exact hunused hfull
    refine ⟨hmore ▸ hread.1, hvalid, hrange, toInt_inj ?_⟩
    rw [hdenotes, toInt_decoded hpos hlen hvalid]

/-- A value in range is read back from what was written, and what is read is an encoding. -/
structure Exact : Prop where
  readsBack : ∀ value, p.InRange value → ∃ enc, p.output value = .ok (some enc) ∧
    ∀ rest, p.input (enc ++ rest) = .ok (value, rest)
  accepts : ∀ bytes rest value, p.input bytes = .ok (value, rest) ↔
    ∃ enc, bytes = enc ++ rest ∧ p.Encodes enc value

/-- Writing and reading back, at either signedness. -/
theorem readsBack_of_parses {α : Type} {w : OutputWriter} {r : InputReader α} {a : α}
    {value : p.Value} {f : α → p.Value} (houtput : p.output value = w.map some)
    (hinput : p.input = r >>= fun a => pure (f a)) (hf : f a = value)
    (hback : ReadsBack (fun _ => False) r w (· = a)) (hrange : p.InRange value) :
    ∃ enc, p.output value = .ok (some enc) ∧ ∀ rest, p.input (enc ++ rest) = .ok (value, rest) := by
  have hok : p.output value = .ok (writeLoop p.type p.type.bits value) := by
    rw [output, p.isOutOfRange_eq_false.2 hrange]
    rfl
  rw [houtput] at hok ⊢
  cases w with
  | error e => cases hok
  | ok enc =>
    refine ⟨enc, rfl, fun rest => ?_⟩
    rw [hinput]
    exact bind_eq_ok.2 ⟨_, _, (hback.parses rfl).eq_ok rest, pure_eq_ok.2 ⟨hf, rfl⟩⟩

/-- **LEB128.** Every instance of the template is exact. -/
theorem varInt_exact : p.Exact := by
  refine ⟨fun value hrange => ?_, fun bytes rest value => ?_⟩
  · cases h : p.type.isSigned with
    | false =>
      exact p.readsBack_of_parses (output_unsigned h value) (input_unsigned h)
        ((BitVec.ofNat_toNat _ _).trans (BitVec.setWidth_eq _))
        (readsBack_serializeVarUInt p.maxBits_pos _) hrange
    | true =>
      exact p.readsBack_of_parses (output_signed h value) (input_signed h) (BitVec.ofInt_toInt)
        (readsBack_serializeVarInt p.maxBits_pos p.maxBits_le _) hrange
  · rw [input_eq_ok]
    simp only [encodes_iff]

end VarInt

end FractalWasm.Serialization
