import Mathlib.Data.List.DropRight
import Mathlib.Data.List.GetD
import FractalWasm.Codec.MixedRadix
import FractalWasm.Codec.Words
import FractalWasm.Runtime.Intrinsics

/-!
# Names

`name.hpp` and `name.cpp`: a name is a 64-bit word that packs up to thirteen characters, twelve of
five bits and one of four, the first character on top. Characters that have no symbol are packed
like dots, so `set` accepts a string only if it gets the same string back.

**Symbols** (`symbol`, `charOf`): the 32 characters of a name, in the order of their symbols.

**Packing** (`Packed`): the invariant of the loop of `string_to_name`; the word is the number whose
digits are the symbols, most significant first.

**The codec** (`name_codec`): `set` accepts the normalized strings (`Normalized`), words and
normalized strings correspond to each other, and words are ordered as their strings are.
-/

namespace FractalWasm

open Codec IR

/-- The characters of a C string, without the terminating zero. -/
structure CString where
  chars : Bytes
  noNul : (0 : UInt8) ∉ chars
  deriving DecidableEq, Repr

/-- `str[i]`, for the characters and the terminator. -/
def CString.char (s : CString) (i : Nat) : UInt8 := s.chars.getD i 0

def charToSymbol (c : UInt8) : UInt64 :=
  -- `'a'` to `'z'`
  if c ≥ 0x61 ∧ c ≤ 0x7a then (c - 0x61).toUInt64 + 6
  -- `'1'` to `'5'`
  else if c ≥ 0x31 ∧ c ≤ 0x35 then (c - 0x31).toUInt64 + 1
  else 0

/-- The loop of `string_to_name` from round `i` on: where it stops, and the name then. -/
def stringToNameLoop (s : CString) : Nat → Nat → UInt64 → Nat × UInt64
  | 0, i, name => (i, name)
  | rounds + 1, i, name =>
    if s.char i ≠ 0 then
      stringToNameLoop s rounds (i + 1)
        (name ||| ((charToSymbol (s.char i) &&& 0x1f) <<< (64 - 5 * (i + 1)).toUInt64))
    else (i, name)

def stringToName (s : CString) : UInt64 :=
  let (i, name) := stringToNameLoop s 12 0 0
  if i = 12 then name ||| (charToSymbol (s.char 12) &&& 0x0f) else name

def charmap : Bytes := str ".12345abcdefghijklmnopqrstuvwxyz"

/-- The loop of `name::operator string` from round `i` on. -/
def toStringLoop : Nat → Nat → UInt64 → Bytes → Bytes
  | 0, _, _, s => s
  | rounds + 1, i, tmp, s =>
    let c := charmap.getD (tmp &&& (if i = 0 then 0x0f else 0x1f)).toNat 0
    toStringLoop rounds (i + 1) (tmp >>> (if i = 0 then 4 else 5)) (s.set (12 - i) c)

/-- `trim_right_if` of dots -/
def trimRight (s : Bytes) : Bytes := s.rdropWhile (· == 0x2e)

structure Name where
  value : UInt64
  deriving DecidableEq, Repr

namespace Name

def toString (name : Name) : Bytes :=
  trimRight (toStringLoop 13 0 name.value (List.replicate 13 0x2e))

def set (s : CString) : Except Exception Name := do
  let len := min s.chars.length 14
  ftlAssert (len ≤ 13) .invalidName
    ("Name is longer than 13 characters ($" ++ text s.chars ++ ") ")
  let name : Name := ⟨stringToName s⟩
  ftlAssert (name.toString == s.chars) .invalidName
    ("Name not properly normalized (name: $" ++ text s.chars ++ ", normalized: $" ++
      text name.toString ++ ") ")
  return name

/-- `operator<` -/
instance : LT Name := ⟨fun a b => a.value < b.value⟩

end Name

/-! ## Symbols -/

/-- The radices of the thirteen slots. -/
def slots : List Nat := List.replicate 12 32 ++ [16]

def symbol (c : UInt8) : Nat := (charToSymbol c).toNat

def charOf (digit : Nat) : UInt8 := charmap.getD digit 0

/-- A symbol has five bits. -/
theorem symbol_lt (c : UInt8) : symbol c < 32 :=
  forall_uint8 (P := fun c => symbol c < 32) (by decide +kernel) c

/-- Each of the 32 characters has its place as its symbol. -/
theorem symbol_charOf {digit : Nat} (hdigit : digit < 32) : symbol (charOf digit) = digit := by
  have hall : ∀ digit < 32, symbol (charOf digit) = digit := by decide +kernel
  exact hall digit hdigit

theorem length_charmap : charmap.length = 32 := by decide +kernel

theorem charOf_mem {digit : Nat} (hdigit : digit < 32) : charOf digit ∈ charmap := by
  rw [charOf, List.getD_eq_getElem _ _ (by rwa [length_charmap])]
  exact List.getElem_mem _

/-- The symbol of a character is its place in the alphabet. -/
theorem symbol_eq_idxOf {c : UInt8} (hc : c ∈ charmap) : symbol c = charmap.idxOf c := by
  have hplace : charmap.idxOf c < charmap.length := List.idxOf_lt_length_of_mem hc
  have hchar : charOf (charmap.idxOf c) = c := by
    rw [charOf, List.getD_eq_getElem _ _ hplace, List.getElem_idxOf]
  have hsymbol := symbol_charOf (length_charmap ▸ hplace)
  rwa [hchar] at hsymbol

/-- The characters of the table are given back by their symbols. -/
theorem charOf_symbol {c : UInt8} (hc : c ∈ charmap) : charOf (symbol c) = c := by
  rw [symbol_eq_idxOf hc, charOf, List.getD_eq_getElem _ _ (List.idxOf_lt_length_of_mem hc),
    List.getElem_idxOf]

/-- Four bits hold the first half of the table. -/
theorem symbol_lt_iff_mem_take {c : UInt8} (hc : c ∈ charmap) :
    symbol c < 16 ↔ c ∈ charmap.take 16 := by
  rw [symbol_eq_idxOf hc, List.mem_take_iff_idxOf_lt hc]

/-- Only the dot is zero, among the characters that have symbols. -/
theorem symbol_eq_zero {c : UInt8} (hc : c ∈ charmap) : symbol c = 0 ↔ c = 0x2e := by
  have hdot : symbol 0x2e = 0 := by decide +kernel
  have hfirst : charOf 0 = 0x2e := by decide +kernel
  constructor
  · intro hzero
    rw [← charOf_symbol hc, hzero, hfirst]
  · rintro rfl
    exact hdot

theorem zero_notMem_charmap : (0 : UInt8) ∉ charmap := by decide +kernel

/-! ## Packing -/

section Packing

open Codec.MixedRadix

/-- A C string reads as zero from its end on. -/
theorem char_eq_zero (s : CString) (i : Nat) : s.char i = 0 ↔ s.chars.length ≤ i := by
  unfold CString.char
  rcases Nat.lt_or_ge i s.chars.length with hlt | hge
  · rw [List.getD_eq_getElem _ _ hlt]
    have hne : s.chars[i] ≠ 0 := fun hzero => s.noNul (hzero ▸ List.getElem_mem hlt)
    exact iff_of_false hne (Nat.not_le.2 hlt)
  · exact iff_of_true (List.getD_eq_default _ _ hge) hge

/-- A digit is stored below the digits that are there. -/
theorem toNat_or_shiftLeft {name digit : UInt64} {high k : Nat} (hk : k + 5 ≤ 64)
    (hdigit : digit.toNat < 32) (hname : name.toNat = high * 2 ^ (k + 5)) :
    (name ||| (digit <<< k.toUInt64)).toNat = (high * 32 + digit.toNat) * 2 ^ k := by
  have hk64 : k.toUInt64.toNat = k := by
    rw [Nat.toUInt64_eq, UInt64.toNat_ofNat', Nat.mod_eq_of_lt (by omega)]
  have hpow : 2 ^ (k + 5) ≤ 2 ^ 64 := Nat.pow_le_pow_right (by decide) hk
  have hlt : digit.toNat * 2 ^ k < 2 ^ (k + 5) := by
    rw [Nat.pow_add, Nat.mul_comm (2 ^ k)]
    exact Nat.mul_lt_mul_of_pos_right hdigit (Nat.two_pow_pos k)
  have hshift : (digit <<< k.toUInt64).toNat = digit.toNat * 2 ^ k := by
    rw [UInt64.toNat_shiftLeft, hk64, Nat.mod_eq_of_lt (show k < 64 by omega), Nat.shiftLeft_eq,
      Nat.mod_eq_of_lt (Nat.lt_of_lt_of_le hlt hpow)]
  have hhigh : 2 ^ (k + 5) * high = high * 32 * 2 ^ k := by
    rw [Nat.pow_add, Nat.mul_comm, Nat.mul_comm (2 ^ k), ← Nat.mul_assoc]
  rw [UInt64.toNat_or, hshift, hname, Nat.mul_comm high, ← Nat.two_pow_add_eq_or_of_lt hlt, hhigh,
    Nat.add_mul]

/-- The mask of the source changes nothing, a symbol has five bits already. -/
theorem and_0x1f (c : UInt8) : charToSymbol c &&& 0x1f = charToSymbol c := by
  rw [← UInt64.toNat_inj, UInt64.toNat_and]
  exact Nat.and_two_pow_sub_one_of_lt_two_pow (n := 5) (symbol_lt c)

/-- After `i` rounds the top slots hold the first `i` symbols. -/
def Packed (s : CString) (i : Nat) (name : UInt64) : Prop :=
  name.toNat =
    value (List.replicate i 32) ((s.chars.map symbol).take i) * 2 ^ (64 - 5 * i)

/-- One round of the loop packs one character more; the fields below are still zero, so or is
addition. -/
theorem Packed.next {s : CString} {i : Nat} {name : UInt64} (h : Packed s i name) (hi : i < 12)
    (hlen : i < s.chars.length) :
    Packed s (i + 1)
      (name ||| ((charToSymbol (s.char i) &&& 0x1f) <<< (64 - 5 * (i + 1)).toUInt64)) := by
  have hlt : i < (s.chars.map symbol).length := by rwa [List.length_map]
  have hdigit : (charToSymbol (s.char i)).toNat = (s.chars.map symbol)[i] := by
    rw [List.getElem_map, CString.char, List.getD_eq_getElem _ _ hlen]
    rfl
  have hslots : (List.replicate i 32).length = ((s.chars.map symbol).take i).length := by
    rw [List.length_replicate, List.length_take, Nat.min_eq_left (by omega)]
  have hpower : 64 - 5 * i = 64 - 5 * (i + 1) + 5 := by omega
  unfold Packed at *
  rw [hpower] at h
  rw [and_0x1f, toNat_or_shiftLeft (by omega) (symbol_lt _) h, List.replicate_succ',
    List.take_succ_eq_append_getElem hlt, value_append hslots, hdigit]
  simp [value, capacity]

/-- The loop stops after twelve characters or at the end of the string. -/
theorem packed_stringToNameLoop {s : CString} {rounds i : Nat} {name : UInt64}
    (hrounds : i + rounds = 12) (hi : i ≤ s.chars.length) (h : Packed s i name) :
    (stringToNameLoop s rounds i name).1 = min 12 s.chars.length ∧
      Packed s (min 12 s.chars.length) (stringToNameLoop s rounds i name).2 := by
  induction rounds generalizing i name with
  | zero =>
    have hmin : min 12 s.chars.length = i := by omega
    rw [hmin]
    exact ⟨rfl, h⟩
  | succ rounds ih =>
    unfold stringToNameLoop
    by_cases hend : s.char i = 0
    · have hmin : min 12 s.chars.length = i := by
        have := (char_eq_zero s i).1 hend
        omega
      rw [if_neg (not_not_intro hend), hmin]
      exact ⟨rfl, h⟩
    · have hlen : i < s.chars.length := Nat.lt_of_not_le (mt (char_eq_zero s i).2 hend)
      rw [if_pos hend]
      exact ih (by omega) hlen (h.next (by omega) hlen)

theorem packed_loop (s : CString) :
    (stringToNameLoop s 12 0 0).1 = min 12 s.chars.length ∧
      Packed s (min 12 s.chars.length) (stringToNameLoop s 12 0 0).2 := by
  refine packed_stringToNameLoop rfl (Nat.zero_le _) ?_
  simp [Packed, value]

/-- The symbols of a string, with the slots behind it left at zero. -/
def padded (chars : Bytes) : List Nat :=
  chars.map symbol ++ List.replicate (13 - chars.length) 0

/-- Up to twelve characters are the digits of the word, on top. -/
theorem toNat_stringToName_of_le {s : CString} (hlen : s.chars.length ≤ 12) :
    (stringToName s).toNat = value slots (padded s.chars) := by
  obtain ⟨hi, hname⟩ := packed_loop s
  rw [Nat.min_eq_right hlen] at hi hname
  have hlast : charToSymbol (s.char 12) &&& 0x0f = 0 := by
    rw [(char_eq_zero s 12).2 hlen]
    decide
  have hname' : (stringToName s) = (stringToNameLoop s 12 0 0).2 := by
    unfold stringToName
    dsimp only
    rw [hlast, UInt64.or_zero, ite_self]
  have hslots : slots =
      List.replicate s.chars.length 32 ++ (List.replicate (12 - s.chars.length) 32 ++ [16]) := by
    rw [← List.append_assoc, ← List.replicate_add, Nat.add_sub_cancel' hlen]
    rfl
  have hcapacity : capacity (List.replicate (12 - s.chars.length) 32 ++ [16]) =
      2 ^ (64 - 5 * s.chars.length) := by
    rw [capacity_append, capacity_replicate, show (32 : Nat) = 2 ^ 5 from rfl, ← Nat.pow_mul]
    change _ * 2 ^ 4 = _
    rw [← Nat.pow_add]
    congr 1
    omega
  unfold Packed at hname
  rw [hname', hname, padded, hslots, value_append (by simp), value_zeros, hcapacity, Nat.add_zero,
    List.take_of_length_le (by simp)]

/-- The thirteenth has four bits, so it must be of the first half of the table. -/
theorem toNat_stringToName_of_eq {s : CString} (hlen : s.chars.length = 13)
    (hlast : ∀ c, s.chars[12]? = some c → symbol c < 16) :
    (stringToName s).toNat = value slots (padded s.chars) := by
  obtain ⟨hi, hname⟩ := packed_loop s
  rw [Nat.min_eq_left (by omega)] at hi hname
  have h12 : 12 < s.chars.length := by omega
  have h12' : 12 < (s.chars.map symbol).length := by rwa [List.length_map]
  have hchar : charToSymbol (s.char 12) = charToSymbol s.chars[12] := by
    rw [CString.char, List.getD_eq_getElem _ _ h12]
  have hsmall : symbol s.chars[12] < 16 := hlast _ (List.getElem?_eq_getElem h12)
  have hdigit : (charToSymbol (s.char 12) &&& 0x0f).toNat = symbol s.chars[12] := by
    rw [hchar, UInt64.toNat_and, show (0x0f : UInt64).toNat = 2 ^ 4 - 1 from rfl,
      Nat.and_two_pow_sub_one_eq_mod]
    exact Nat.mod_eq_of_lt hsmall
  have hname' : stringToName s =
      (stringToNameLoop s 12 0 0).2 ||| (charToSymbol (s.char 12) &&& 0x0f) := by
    unfold stringToName
    dsimp only
    rw [if_pos hi]
  have hsymbols : padded s.chars = (s.chars.map symbol).take 12 ++ [symbol s.chars[12]] := by
    have htake := List.take_succ_eq_append_getElem h12'
    rw [List.take_of_length_le (by simp [hlen]), List.getElem_map] at htake
    rw [padded, hlen, ← htake]
    exact List.append_nil _
  unfold Packed at hname
  rw [hname', UInt64.toNat_or, hname, hdigit, Nat.mul_comm _ (2 ^ (64 - 5 * 12)),
    ← Nat.two_pow_add_eq_or_of_lt (by simpa using hsmall), hsymbols, slots,
    value_append (by simp [hlen])]
  simp [value, capacity, Nat.mul_comm]

end Packing

/-! ## Unpacking -/

section Unpacking

open Codec.MixedRadix

theorem set_replicate_append {α : Type} (count : Nat) (a c : α) (tail : List α) :
    (List.replicate (count + 1) a ++ tail).set count c = List.replicate count a ++ c :: tail := by
  rw [List.replicate_succ', List.append_assoc, List.set_append_right _ _ (by simp)]
  simp

/-- The remaining rounds put the digits of what is left before the characters that are there. -/
theorem toStringLoop_succ {rounds i : Nat} (hi : i + rounds = 12) (tmp : UInt64) (tail : Bytes) :
    toStringLoop rounds (i + 1) tmp (List.replicate rounds 0x2e ++ tail) =
      (digits (List.replicate rounds 32) tmp.toNat).map charOf ++ tail := by
  induction rounds generalizing i tmp tail with
  | zero => rfl
  | succ rounds ih =>
    have hmask : (tmp &&& 0x1f).toNat = tmp.toNat % 32 := by
      rw [UInt64.toNat_and]
      exact Nat.and_two_pow_sub_one_eq_mod _ 5
    have hshift : (tmp >>> 5).toNat = tmp.toNat / 32 := by
      rw [UInt64.toNat_shiftRight]
      exact Nat.shiftRight_eq_div_pow _ 5
    have hplace : 12 - (i + 1) = rounds := by omega
    rw [toStringLoop]
    simp only [Nat.succ_ne_zero, if_false, hmask, hplace]
    rw [set_replicate_append, ih (by omega), hshift, List.replicate_succ', digits_concat,
      List.map_append, List.append_assoc]
    rfl

/-- The thirteen characters of a name. -/
def allChars (name : Name) : Bytes := (digits slots name.value.toNat).map charOf

/-- All thirteen characters, without the dots at the end. -/
theorem toString_eq (name : Name) : name.toString = trimRight (allChars name) := by
  have hmask : (name.value &&& 0x0f).toNat = name.value.toNat % 16 := by
    rw [UInt64.toNat_and]
    exact Nat.and_two_pow_sub_one_eq_mod _ 4
  have hshift : (name.value >>> 4).toNat = name.value.toNat / 16 := by
    rw [UInt64.toNat_shiftRight]
    exact Nat.shiftRight_eq_div_pow _ 4
  have hfirst := set_replicate_append 12 (0x2e : UInt8) (charOf (name.value.toNat % 16)) []
  rw [List.append_nil] at hfirst
  rw [Name.toString, toStringLoop]
  simp only [if_true, hmask]
  change trimRight (toStringLoop 12 1 _ ((List.replicate 13 0x2e).set 12
    (charOf (name.value.toNat % 16)))) = _
  rw [hfirst, toStringLoop_succ rfl, hshift, allChars, slots, digits_concat, List.map_append]
  rfl

theorem fits_slots (n : Nat) : Fits slots (digits slots n) :=
  fits_digits (by decide) n

/-- A digit has at most five bits. -/
theorem digits_lt (n : Nat) : ∀ digit ∈ digits slots n, digit < 32 :=
  (fits_slots n).lt_of_le (by decide)

theorem toNat_lt_capacity (name : Name) : name.value.toNat < capacity slots :=
  name.value.toNat_lt

end Unpacking

/-! ## Normalized strings -/

/-- A string that a name is written as. -/
structure Normalized (chars : Bytes) : Prop where
  length_le : chars.length ≤ 13
  alphabet : ∀ c ∈ chars, c ∈ charmap
  noDotAtEnd : chars.getLast? ≠ some 0x2e
  thirteenth : ∀ c, chars[12]? = some c → c ∈ charmap.take 16

section Normalized

open Codec.MixedRadix

/-- Dots at the end are what is trimmed. -/
theorem trimRight_append_dots {chars : Bytes} (h : chars.getLast? ≠ some 0x2e) (count : Nat) :
    trimRight (chars ++ List.replicate count 0x2e) = chars := by
  unfold trimRight
  induction count with
  | zero =>
    rw [List.replicate_zero, List.append_nil, List.rdropWhile_eq_self_iff]
    intro hne hdot
    rw [List.getLast?_eq_some_getLast hne] at h
    exact h (congrArg some (eq_of_beq hdot))
  | succ count ih =>
    rw [List.replicate_succ', ← List.append_assoc, List.rdropWhile_concat_pos _ _ _ rfl, ih]

/-- What is cut off are dots. -/
theorem exists_trimRight (chars : Bytes) :
    ∃ count, chars = trimRight chars ++ List.replicate count 0x2e := by
  refine ⟨(chars.rtakeWhile (· == 0x2e)).length, ?_⟩
  have hdots : chars.rtakeWhile (· == 0x2e) =
      List.replicate (chars.rtakeWhile (· == 0x2e)).length 0x2e :=
    List.eq_replicate_iff.2 ⟨rfl, fun c hc =>
      eq_of_beq (List.mem_rtakeWhile_imp (p := (· == 0x2e)) hc)⟩
  rw [← hdots]
  exact List.rdropWhile_append_rtakeWhile.symm

/-- No dot is left at the end. -/
theorem getLast?_trimRight (chars : Bytes) : (trimRight chars).getLast? ≠ some 0x2e := by
  intro hdot
  have hne : trimRight chars ≠ [] := by
    intro hnil
    rw [hnil] at hdot
    cases hdot
  have hlast := List.rdropWhile_last_not (· == 0x2e) chars hne
  rw [List.getLast?_eq_some_getLast hne] at hdot
  exact hlast (beq_iff_eq.2 (Option.some.inj hdot))

/-! ## From words to strings -/

theorem length_digits (n : Nat) : (digits slots n).length = 13 :=
  (fits_slots n).length_eq.symm

theorem length_allChars (name : Name) : (allChars name).length = 13 := by
  rw [allChars, List.length_map, length_digits]

theorem allChars_last (name : Name) :
    (allChars name)[12]? = some (charOf (name.value.toNat % 16)) := by
  have hlen : ((digits (List.replicate 12 32) (name.value.toNat / 16)).map charOf).length = 12 := by
    rw [List.length_map]
    exact (fits_digits (by decide) _).length_eq.symm
  rw [allChars, slots, digits_concat, List.map_append, List.getElem?_append_right (by omega), hlen]
  rfl

/-- What was trimmed were dots. -/
theorem exists_allChars (name : Name) :
    allChars name = name.toString ++ List.replicate (13 - name.toString.length) 0x2e := by
  obtain ⟨count, hcount⟩ := exists_trimRight (allChars name)
  have hlen := congrArg List.length hcount
  rw [← toString_eq, length_allChars, List.length_append, List.length_replicate] at hlen
  rw [hcount, ← toString_eq, hlen, Nat.add_sub_cancel_left]

/-- A string made from a word is normalized. -/
theorem normalized_toString (name : Name) : Normalized name.toString where
  length_le := by
    have hlen := congrArg List.length (exists_allChars name)
    rw [length_allChars, List.length_append] at hlen
    omega
  alphabet c hc := by
    have hmem : c ∈ allChars name := by
      rw [exists_allChars]
      exact List.mem_append_left _ hc
    obtain ⟨digit, hdigit, rfl⟩ := List.mem_map.1 hmem
    exact charOf_mem (digits_lt _ digit hdigit)
  noDotAtEnd := by
    rw [toString_eq]
    exact getLast?_trimRight _
  thirteenth c hc := by
    have hlt : 12 < name.toString.length := (List.getElem?_eq_some_iff.1 hc).1
    have hlast := allChars_last name
    rw [exists_allChars, List.getElem?_append_left hlt, hc] at hlast
    have hdigit : name.value.toNat % 16 < 16 := Nat.mod_lt _ (by decide)
    rw [Option.some.inj hlast]
    refine (symbol_lt_iff_mem_take (charOf_mem (by omega))).1 ?_
    rwa [symbol_charOf (by omega)]

/-- Padding gives back the digits that were trimmed. -/
theorem padded_toString (name : Name) : padded name.toString = digits slots name.value.toNat := by
  have hsymbols : (allChars name).map symbol = digits slots name.value.toNat := by
    rw [allChars, List.map_map]
    refine (List.map_congr_left fun digit hdigit => ?_).trans (List.map_id _)
    exact symbol_charOf (digits_lt _ digit hdigit)
  rw [← hsymbols, exists_allChars, List.map_append, List.map_replicate]
  rfl

/-! ## From strings to words -/

theorem length_padded {chars : Bytes} (hlen : chars.length ≤ 13) : (padded chars).length = 13 := by
  rw [padded, List.length_append, List.length_map, List.length_replicate]
  omega

/-- The thirteenth character of a normalized string has four bits. -/
theorem symbol_thirteenth {chars : Bytes} (h : Normalized chars) :
    ∀ c, chars[12]? = some c → symbol c < 16 := fun c hc =>
  (symbol_lt_iff_mem_take (h.alphabet c (List.mem_of_getElem? hc))).2 (h.thirteenth c hc)

/-- The symbols of a normalized string fit their fields. -/
theorem fits_padded {chars : Bytes} (h : Normalized chars) : Fits slots (padded chars) := by
  have hlen := length_padded h.length_le
  have h12 : 12 < (padded chars).length := by omega
  have hlast : (padded chars)[12] < 16 := by
    rcases Nat.lt_or_ge 12 chars.length with hlt | hge
    · simp only [padded]
      rw [List.getElem_append_left (by rwa [List.length_map]), List.getElem_map]
      exact symbol_thirteenth h _ (List.getElem?_eq_getElem hlt)
    · simp only [padded]
      rw [List.getElem_append_right (by rwa [List.length_map]), List.getElem_replicate]
      decide
  have hsplit : padded chars = (padded chars).take 12 ++ [(padded chars)[12]] := by
    rw [← List.take_succ_eq_append_getElem h12, List.take_of_length_le (by omega)]
  rw [hsplit]
  refine Fits.concat (fits_replicate (by simp [hlen]) fun d hd => ?_) hlast
  rcases List.mem_append.1 (List.mem_of_mem_take hd) with hsymbol | hzero
  · obtain ⟨c, -, rfl⟩ := List.mem_map.1 hsymbol
    exact symbol_lt c
  · rw [List.eq_of_mem_replicate hzero]
    decide

/-- The word of a normalized string, of any length. -/
theorem toNat_stringToName {s : CString} (h : Normalized s.chars) :
    (stringToName s).toNat = value slots (padded s.chars) := by
  rcases Nat.lt_or_ge 12 s.chars.length with hlt | hge
  · exact toNat_stringToName_of_eq (Nat.le_antisymm h.length_le hlt) (symbol_thirteenth h)
  · exact toNat_stringToName_of_le hge

/-- **String to word and back.** A normalized string is what its word spells. -/
theorem toString_stringToName {s : CString} (h : Normalized s.chars) :
    Name.toString ⟨stringToName s⟩ = s.chars := by
  have hchars : (padded s.chars).map charOf =
      s.chars ++ List.replicate (13 - s.chars.length) 0x2e := by
    rw [padded, List.map_append, List.map_map, List.map_replicate]
    congr 1
    exact (List.map_congr_left fun c hc => charOf_symbol (h.alphabet c hc)).trans (List.map_id _)
  rw [toString_eq, allChars, toNat_stringToName h, digits_value (fits_padded h), hchars]
  exact trimRight_append_dots h.noDotAtEnd _

/-! ## The codec -/

/-- `set` accepts a string that its own word spells. -/
theorem set_eq_ok {s : CString} {name : Name} :
    Name.set s = .ok name ↔ s.chars.length ≤ 13 ∧ name = ⟨stringToName s⟩ ∧
      name.toString = s.chars := by
  unfold Name.set
  constructor
  · intro h
    obtain ⟨_, hlen, h⟩ := Except.bind_eq_ok.1 h
    obtain ⟨_, hstring, h⟩ := Except.bind_eq_ok.1 h
    obtain rfl := Except.ok.inj h
    have hlen' := ftlAssert_eq_ok.1 hlen
    have hstring' := ftlAssert_eq_ok.1 hstring
    rw [decide_eq_true_eq] at hlen'
    exact ⟨by omega, rfl, eq_of_beq hstring'⟩
  · rintro ⟨hlen, rfl, hstring⟩
    refine Except.bind_eq_ok.2 ⟨(), ftlAssert_eq_ok.2 (decide_eq_true (by omega)), ?_⟩
    exact Except.bind_eq_ok.2 ⟨(), ftlAssert_eq_ok.2 (beq_iff_eq.2 hstring), rfl⟩

/-- So it accepts the normalized strings. -/
theorem set_of_normalized {s : CString} (h : Normalized s.chars) :
    Name.set s = .ok ⟨stringToName s⟩ :=
  set_eq_ok.2 ⟨h.length_le, rfl, toString_stringToName h⟩

/-- And no others. -/
theorem normalized_of_set {s : CString} {name : Name} (h : Name.set s = .ok name) :
    Normalized s.chars := by
  rw [← (set_eq_ok.1 h).2.2]
  exact normalized_toString name

/-- The C string a name is written as. -/
def Name.toCString (name : Name) : CString :=
  ⟨name.toString, fun hzero => zero_notMem_charmap ((normalized_toString name).alphabet 0 hzero)⟩

theorem chars_toCString (name : Name) : name.toCString.chars = name.toString := by
  rw [Name.toCString]

/-- **Word to string and back.** Every word is given back by the string it spells. -/
theorem set_toCString (name : Name) : Name.set name.toCString = .ok name := by
  have hnormalized : Normalized name.toCString.chars := by
    rw [chars_toCString]
    exact normalized_toString name
  have hword : stringToName name.toCString = name.value := by
    apply UInt64.toNat_inj.1
    rw [toNat_stringToName hnormalized, chars_toCString, padded_toString]
    exact value_digits (toNat_lt_capacity name)
  rw [set_of_normalized hnormalized, hword]

/-- Lexicographic order by the places of the characters in the alphabet. -/
def SymbolLt (s t : Bytes) : Prop :=
  List.Lex (· < ·) (s.map charmap.idxOf) (t.map charmap.idxOf)

theorem map_symbol {chars : Bytes} (h : Normalized chars) :
    chars.map symbol = chars.map charmap.idxOf :=
  List.map_congr_left fun c hc => symbol_eq_idxOf (h.alphabet c hc)

/-- Trailing dots would be trailing zeros. -/
theorem trimmed_symbols {chars : Bytes} (h : Normalized chars) : Trimmed (chars.map symbol) := by
  intro hzero
  rw [List.getLast?_map, Option.map_eq_some_iff] at hzero
  obtain ⟨c, hlast, hsymbol⟩ := hzero
  have hdot := (symbol_eq_zero (h.alphabet c (List.mem_of_getLast? hlast))).1 hsymbol
  exact h.noDotAtEnd (hdot ▸ hlast)

/-- The order of words is the lexicographic order of the symbols. -/
theorem lt_iff_symbolLt {s t : CString} (hs : Normalized s.chars) (ht : Normalized t.chars) :
    SymbolLt s.chars t.chars ↔ stringToName s < stringToName t := by
  have hlen : (s.chars.map symbol).length + (13 - s.chars.length) =
      (t.chars.map symbol).length + (13 - t.chars.length) := by
    have := hs.length_le
    have := ht.length_le
    simp only [List.length_map]
    omega
  rw [SymbolLt, ← map_symbol hs, ← map_symbol ht,
    ← lex_append_zeros (trimmed_symbols hs) (trimmed_symbols ht) hlen,
    UInt64.lt_iff_toNat_lt, toNat_stringToName hs, toNat_stringToName ht]
  exact (value_lt_value_iff (fits_padded hs) (fits_padded ht)).symm

/-- Strings of the normal form and names are in bijection, and in the same order. -/
theorem name_codec :
    (∀ s : CString, (∃ name, Name.set s = .ok name) ↔ Normalized s.chars) ∧
    (∀ name : Name, Name.set name.toCString = .ok name) ∧
    (∀ (s : CString) (name : Name), Name.set s = .ok name → name.toString = s.chars) ∧
    ∀ (s t : CString) (a b : Name), Name.set s = .ok a → Name.set t = .ok b →
      (SymbolLt s.chars t.chars ↔ a < b) := by
  refine ⟨fun s => ⟨fun ⟨_, h⟩ => normalized_of_set h, fun h => ⟨_, set_of_normalized h⟩⟩,
    set_toCString, fun s name h => (set_eq_ok.1 h).2.2, fun s t a b hs ht => ?_⟩
  obtain ⟨-, rfl, -⟩ := set_eq_ok.1 hs
  obtain ⟨-, rfl, -⟩ := set_eq_ok.1 ht
  exact lt_iff_symbolLt (normalized_of_set hs) (normalized_of_set ht)

end Normalized

end FractalWasm
