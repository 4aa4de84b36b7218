import Mathlib.Data.List.Forall2
import FractalWasm.Codec.Words
import FractalWasm.Serialization

/-!
# UTF-8

`UTF8::validateString` against the table it cites, "Well-Formed UTF-8 Byte Sequences" of the Unicode
Standard. The loop is modelled a second time with its reads checked: a read at or behind `endChar`
is no value. The row of the lead byte `0xed` asks for a second byte that is at least `0xa0` and at
most `0x9f`, so the code agrees with the table on the strings that need no such row.
-/

namespace FractalWasm.Serialization

open Codec IR

/-! ## The loop with checked reads -/

/-- The ranges of the bytes behind a lead byte, in the order of the branches. -/
def tailRanges (lead : UInt8) : Option (List (UInt8 × UInt8)) :=
  if lead < 0x80 then some []
  else if lead ≥ 0xc2 ∧ lead ≤ 0xdf then some [(0x80, 0xbf)]
  else if lead = 0xe0 then some [(0xa0, 0xbf), (0x80, 0xbf)]
  else if lead = 0xed then some [(0xa0, 0x9f), (0x80, 0xbf)]
  else if lead ≥ 0xe1 ∧ lead ≤ 0xef then some [(0x80, 0xbf), (0x80, 0xbf)]
  else if lead = 0xf0 then some [(0x90, 0xbf), (0x80, 0xbf), (0x80, 0xbf)]
  else if lead ≥ 0xf1 ∧ lead ≤ 0xf3 then some [(0x80, 0xbf), (0x80, 0xbf), (0x80, 0xbf)]
  else if lead = 0xf4 then some [(0x80, 0x8f), (0x80, 0xbf), (0x80, 0xbf)]
  else none

/-- `nextChar[k] < lo || nextChar[k] > hi || ...`, from byte `k` on. -/
def anyOutside (nextChar : Bytes) : Nat → List (UInt8 × UInt8) → Option Bool
  | _, [] => some false
  | k, (lo, hi) :: ranges => do
    let byte ← nextChar[k]?
    if byte < lo || byte > hi then return true
    else anyOutside nextChar (k + 1) ranges

/-- One round: how far `nextChar` advances, or nothing to leave the loop. -/
def nextSequence (nextChar : Bytes) : Option (Option Nat) := do
  let lead ← nextChar[0]?
  match tailRanges lead with
  | none => return none
  | some ranges =>
    -- `nextChar + n >= endChar`
    let ill ← if nextChar.length ≤ ranges.length then some true else anyOutside nextChar 1 ranges
    if ill then return none else return some (ranges.length + 1)

/-- The loop, from the bytes between `nextChar` and `endChar` to those between the result and
`endChar`; `none` when a read is out of bounds. Every round of it advances. -/
def validateChecked : Nat → Bytes → Option Bytes
  | 0, nextChar => if nextChar = [] then some [] else none
  | rounds + 1, nextChar =>
    if nextChar = [] then some []
    else do
      match ← nextSequence nextChar with
      | some numBytes => validateChecked rounds (nextChar.drop numBytes)
      | none => return nextChar

/-- The bytes start with one byte of each range. -/
def startsIn : List (UInt8 × UInt8) → Bytes → Bool
  | [], _ => true
  | (lo, hi) :: ranges, byte :: bytes => inRange lo hi byte && startsIn ranges bytes
  | _ :: _, [] => false

/-- What is too short matches no row. -/
theorem startsIn_eq_false_of_length {ranges : List (UInt8 × UInt8)} {bytes : Bytes}
    (h : bytes.length < ranges.length) : startsIn ranges bytes = false := by
  induction ranges generalizing bytes with
  | nil => exact absurd h (Nat.not_lt_zero _)
  | cons range ranges ih =>
    cases bytes with
    | nil => rfl
    | cons byte bytes =>
      rw [startsIn, ih (Nat.lt_of_succ_lt_succ h), Bool.and_false]

/-- The checks of the tail bytes stay in the string when its length was checked. -/
theorem anyOutside_eq {nextChar : Bytes} {k : Nat} {ranges : List (UInt8 × UInt8)}
    (h : k + ranges.length ≤ nextChar.length) :
    anyOutside nextChar k ranges = some (!startsIn ranges (nextChar.drop k)) := by
  induction ranges generalizing k with
  | nil => rfl
  | cons range ranges ih =>
    obtain ⟨lo, hi⟩ := range
    rw [List.length_cons] at h
    have hk : k < nextChar.length := by omega
    rw [anyOutside, List.getElem?_eq_getElem hk, List.drop_eq_getElem_cons hk, startsIn]
    simp only [Option.bind_eq_bind, Option.bind_some]
    by_cases hin : inRange lo hi nextChar[k] = true
    · have hout : (nextChar[k] < lo || nextChar[k] > hi) = false := by
        simp only [inRange, Bool.and_eq_true, decide_eq_true_eq] at hin
        simpa using hin
      rw [hout, if_neg Bool.false_ne_true, ih (by omega), hin, Bool.true_and]
    · have hout : (nextChar[k] < lo || nextChar[k] > hi) = true := by
        simp only [inRange, Bool.and_eq_true, decide_eq_true_eq, not_and_or, UInt8.not_le] at hin
        simpa using hin
      rw [hout, if_pos rfl, Bool.eq_false_iff.2 hin]
      rfl

/-- One round of the loop, by the lead byte. -/
theorem nextSequence_cons (lead : UInt8) (bytes : Bytes) :
    nextSequence (lead :: bytes) =
      some ((tailRanges lead).bind fun ranges =>
        if startsIn ranges bytes then some (ranges.length + 1) else none) := by
  unfold nextSequence
  simp only [List.getElem?_cons_zero, Option.bind_eq_bind, Option.bind_some]
  cases tailRanges lead with
  | none => rfl
  | some ranges =>
    simp only [Option.bind_some]
    by_cases hlen : (lead :: bytes).length ≤ ranges.length
    · rw [if_pos hlen, startsIn_eq_false_of_length hlen]
      rfl
    · rw [List.length_cons] at hlen
      rw [List.length_cons, if_neg hlen, anyOutside_eq (by rw [List.length_cons]; omega)]
      simp only [List.drop_succ_cons, List.drop_zero, Option.bind_some]
      cases startsIn ranges bytes <;> rfl

/-! ## The loop the decoder's model uses -/

section Rows

variable {lead lo hi : UInt8} {second : UInt8 → Bool} (hsecond : ∀ b1, second b1 = inRange lo hi b1)

include hsecond

/-- The loop of the decoder's model, at three bytes. -/
theorem threeBytes (bytes : Bytes) :
    (match bytes with
      | b1 :: b2 :: rest =>
        if second b1 && inRange 0x80 0xbf b2 then validateString rest else lead :: b1 :: b2 :: rest
      | rest => lead :: rest) =
      if startsIn [(lo, hi), (0x80, 0xbf)] bytes then validateString (bytes.drop 2)
      else lead :: bytes := by
  match bytes with
  | [] => rfl
  | [b1] => simp [startsIn]
  | b1 :: b2 :: bytes => simp [startsIn, hsecond]

/-- And at four. -/
theorem fourBytes (bytes : Bytes) :
    (match bytes with
      | b1 :: b2 :: b3 :: rest =>
        if second b1 && inRange 0x80 0xbf b2 && inRange 0x80 0xbf b3 then validateString rest
        else lead :: b1 :: b2 :: b3 :: rest
      | rest => lead :: rest) =
      if startsIn [(lo, hi), (0x80, 0xbf), (0x80, 0xbf)] bytes then validateString (bytes.drop 3)
      else lead :: bytes := by
  match bytes with
  | [] => rfl
  | [b1] => simp [startsIn]
  | [b1, b2] => simp [startsIn]
  | b1 :: b2 :: b3 :: bytes => simp [startsIn, hsecond, Bool.and_assoc]

end Rows

theorem inRange_threeBytes (lead : UInt8) :
    inRange 0xe0 0xef lead = true ↔
      lead = 0xe0 ∨ lead = 0xed ∨ lead ≥ 0xe1 ∧ lead ≤ 0xef := by
  simp only [inRange, Bool.and_eq_true, decide_eq_true_eq, ← UInt8.toNat_inj,
    UInt8.le_iff_toNat_le, UInt8.reduceToNat]
  omega

theorem inRange_fourBytes (lead : UInt8) :
    inRange 0xf0 0xf4 lead = true ↔
      lead = 0xf0 ∨ (lead ≥ 0xf1 ∧ lead ≤ 0xf3) ∨ lead = 0xf4 := by
  simp only [inRange, Bool.and_eq_true, decide_eq_true_eq, ← UInt8.toNat_inj,
    UInt8.le_iff_toNat_le, UInt8.reduceToNat]
  omega

/-- Both loops look at the same ranges. -/
theorem validateString_cons (lead : UInt8) (bytes : Bytes) :
    validateString (lead :: bytes) =
      match tailRanges lead with
      | some ranges =>
        if startsIn ranges bytes then validateString (bytes.drop ranges.length)
        else lead :: bytes
      | none => lead :: bytes := by
  rw [validateString.eq_def]
  unfold tailRanges
  dsimp only
  by_cases h1 : lead < 0x80
  · simp [h1, startsIn]
  rw [if_neg h1, if_neg h1]
  by_cases h2 : lead ≥ 0xc2 ∧ lead ≤ 0xdf
  · rw [if_pos h2, if_pos (by simpa [inRange] using h2)]
    cases bytes with
    | nil => rfl
    | cons b1 bytes => simp [startsIn]
  rw [if_neg h2, if_neg (by simpa [inRange] using h2)]
  by_cases h3 : inRange 0xe0 0xef lead = true
  · rw [if_pos h3]
    by_cases he0 : lead = 0xe0
    · subst he0
      exact threeBytes (fun _ => if_pos rfl) bytes
    by_cases hed : lead = 0xed
    · subst hed
      exact threeBytes (fun _ => rfl) bytes
    have he1 : lead ≥ 0xe1 ∧ lead ≤ 0xef :=
      (((inRange_threeBytes lead).1 h3).resolve_left he0).resolve_left hed
    rw [if_neg he0, if_neg hed, if_pos he1]
    exact threeBytes (fun _ => by rw [if_neg he0, if_neg hed]) bytes
  rw [if_neg h3]
  rw [inRange_threeBytes, not_or, not_or] at h3
  rw [if_neg h3.1, if_neg h3.2.1, if_neg h3.2.2]
  by_cases h4 : inRange 0xf0 0xf4 lead = true
  · rw [if_pos h4]
    by_cases hf0 : lead = 0xf0
    · subst hf0
      exact fourBytes (fun _ => if_pos rfl) bytes
    by_cases hf4 : lead = 0xf4
    · subst hf4
      exact fourBytes (fun _ => rfl) bytes
    have hf1 : lead ≥ 0xf1 ∧ lead ≤ 0xf3 :=
      (((inRange_fourBytes lead).1 h4).resolve_left hf0).resolve_right hf4
    rw [if_neg hf0, if_pos hf1]
    exact fourBytes (fun _ => by rw [if_neg hf0, if_neg hf4]) bytes
  rw [if_neg h4]
  rw [inRange_fourBytes, not_or, not_or] at h4
  rw [if_neg h4.1, if_neg h4.2.1, if_neg h4.2.2]

theorem length_drop_le {lead : UInt8} {bytes : Bytes} {rounds : Nat}
    (h : (lead :: bytes).length ≤ rounds + 1) (numBytes : Nat) :
    (bytes.drop numBytes).length ≤ rounds := by
  rw [List.length_cons] at h
  rw [List.length_drop]
  omega

/-- No read is out of bounds, and both models return the same place. -/
theorem validateChecked_eq {rounds : Nat} {string : Bytes} (h : string.length ≤ rounds) :
    validateChecked rounds string = some (validateString string) := by
  induction rounds generalizing string with
  | zero =>
    obtain rfl := List.length_eq_zero_iff.1 (Nat.le_zero.1 h)
    rfl
  | succ rounds ih =>
    cases string with
    | nil => rfl
    | cons lead bytes =>
      rw [validateChecked, if_neg (List.cons_ne_nil _ _), nextSequence_cons, validateString_cons]
      cases tailRanges lead with
      | none => rfl
      | some ranges =>
        simp only [Option.bind_some, Option.bind_eq_bind]
        cases startsIn ranges bytes with
        | false => rfl
        | true =>
          simp only [if_true, List.drop_succ_cons]
          exact ih (length_drop_le h _)

/-! ## The table -/

/-- Table 3-7: the ranges of the bytes of a well-formed sequence. -/
def table : List (List (UInt8 × UInt8)) := [
  [(0x00, 0x7f)],
  [(0xc2, 0xdf), (0x80, 0xbf)],
  [(0xe0, 0xe0), (0xa0, 0xbf), (0x80, 0xbf)],
  [(0xe1, 0xec), (0x80, 0xbf), (0x80, 0xbf)],
  [(0xed, 0xed), (0x80, 0x9f), (0x80, 0xbf)],
  [(0xee, 0xef), (0x80, 0xbf), (0x80, 0xbf)],
  [(0xf0, 0xf0), (0x90, 0xbf), (0x80, 0xbf), (0x80, 0xbf)],
  [(0xf1, 0xf3), (0x80, 0xbf), (0x80, 0xbf), (0x80, 0xbf)],
  [(0xf4, 0xf4), (0x80, 0x8f), (0x80, 0xbf), (0x80, 0xbf)]]

def InRanges : List (UInt8 × UInt8) → Bytes → Prop :=
  List.Forall₂ fun range byte => range.1 ≤ byte ∧ byte ≤ range.2

/-- One well-formed sequence. -/
def IsSequence (bytes : Bytes) : Prop := ∃ row ∈ table, InRanges row bytes

def WellFormed (string : Bytes) : Prop :=
  ∃ seqs : List Bytes, (∀ seq ∈ seqs, IsSequence seq) ∧ string = seqs.flatten

/-- The well-formed sequences a string starts with, and the rest, which starts with none. -/
structure Splits (string : Bytes) (seqs : List Bytes) (rest : Bytes) : Prop where
  sequences : ∀ seq ∈ seqs, IsSequence seq
  split : string = seqs.flatten ++ rest
  stop : ∀ seq, IsSequence seq → ¬ seq <+: rest

/-- The row of a lead byte, without its first column. -/
def rowOf (lead : UInt8) : Option (List (UInt8 × UInt8)) :=
  (table.find? fun row => row.head?.any fun range => inRange range.1 range.2 lead).map List.tail

/-- A lead byte is in one row of the table. -/
theorem rowOf_of_mem {lead : UInt8} {range : UInt8 × UInt8} {ranges : List (UInt8 × UInt8)}
    (hrow : range :: ranges ∈ table) (hlead : range.1 ≤ lead ∧ lead ≤ range.2) :
    rowOf lead = some ranges := by
  have hall : ∀ lead, ∀ row ∈ table, (row.head?.any fun range => inRange range.1 range.2 lead) →
      rowOf lead = some row.tail := forall_uint8 (by decide +kernel)
  exact hall lead _ hrow (by simpa [inRange] using hlead)

theorem mem_table_of_rowOf {lead : UInt8} {ranges : List (UInt8 × UInt8)}
    (h : rowOf lead = some ranges) :
    ∃ range, range :: ranges ∈ table ∧ range.1 ≤ lead ∧ lead ≤ range.2 := by
  obtain ⟨row, hfind, rfl⟩ := Option.map_eq_some_iff.1 h
  have hmem := List.mem_of_find?_eq_some hfind
  have hlead := List.find?_some hfind
  cases row with
  | nil => simp at hlead
  | cons range ranges => exact ⟨range, hmem, by simpa [inRange] using hlead⟩

/-- A sequence is a lead byte and the tail its row asks for. -/
theorem isSequence_cons {lead : UInt8} {bytes : Bytes} :
    IsSequence (lead :: bytes) ↔ ∃ ranges, rowOf lead = some ranges ∧ InRanges ranges bytes := by
  constructor
  · rintro ⟨row, hrow, hin⟩
    cases hin with
    | cons hlead hbytes => exact ⟨_, rowOf_of_mem hrow hlead, hbytes⟩
  · rintro ⟨ranges, hrow, hbytes⟩
    obtain ⟨range, hmem, hlead⟩ := mem_table_of_rowOf hrow
    exact ⟨_, hmem, .cons hlead hbytes⟩

theorem not_isSequence_nil : ¬ IsSequence [] := by
  rintro ⟨row, hrow, hin⟩
  cases hin
  exact absurd hrow (by decide)

theorem exists_cons_of_isSequence {seq : Bytes} (h : IsSequence seq) :
    ∃ lead bytes, seq = lead :: bytes :=
  List.exists_cons_of_ne_nil fun hnil => not_isSequence_nil (hnil ▸ h)

/-- No sequence is the start of another one. -/
theorem isSequence_prefix {seq seq' bytes bytes' : Bytes} (h : IsSequence seq)
    (h' : IsSequence seq') (heq : seq ++ bytes = seq' ++ bytes') : seq = seq' ∧ bytes = bytes' := by
  obtain ⟨lead, tail, rfl⟩ := exists_cons_of_isSequence h
  obtain ⟨lead', tail', rfl⟩ := exists_cons_of_isSequence h'
  obtain ⟨rfl, htail⟩ := List.cons.inj heq
  obtain ⟨ranges, hrow, hin⟩ := isSequence_cons.1 h
  obtain ⟨ranges', hrow', hin'⟩ := isSequence_cons.1 h'
  obtain rfl := Option.some.inj (hrow.symm.trans hrow')
  obtain ⟨rfl, rfl⟩ := List.append_inj htail (hin.length_eq.symm.trans hin'.length_eq)
  exact ⟨rfl, rfl⟩

/-- Every string starts with as many sequences as there are. -/
theorem exists_splits (string : Bytes) : ∃ seqs rest, Splits string seqs rest := by
  induction hlen : string.length using Nat.strong_induction_on generalizing string with
  | _ length ih =>
    by_cases hstart : ∃ seq, IsSequence seq ∧ seq <+: string
    · obtain ⟨seq, hseq, rest, rfl⟩ := hstart
      obtain ⟨lead, bytes, rfl⟩ := exists_cons_of_isSequence hseq
      have hlt : rest.length < length := by
        rw [← hlen, List.length_append, List.length_cons]
        omega
      obtain ⟨seqs, last, hsplits⟩ := ih _ hlt rest rfl
      refine ⟨(lead :: bytes) :: seqs, last, ?_, ?_, hsplits.stop⟩
      · exact List.forall_mem_cons.2 ⟨hseq, hsplits.sequences⟩
      · rw [List.flatten_cons, List.append_assoc, ← hsplits.split]
    · exact ⟨[], string, fun _ hnone => absurd hnone List.not_mem_nil, rfl,
        fun seq hseq hpre => hstart ⟨seq, hseq, hpre⟩⟩

/-- There is one way to split it. -/
theorem splits_unique {string rest rest' : Bytes} {seqs seqs' : List Bytes}
    (h : Splits string seqs rest) (h' : Splits string seqs' rest') :
    seqs = seqs' ∧ rest = rest' := by
  obtain ⟨hseqs, rfl, hstop⟩ := h
  obtain ⟨hseqs', heq, hstop'⟩ := h'
  induction seqs generalizing seqs' with
  | nil =>
    cases seqs' with
    | nil => exact ⟨rfl, heq⟩
    | cons seq' seqs' =>
      rw [List.flatten_nil, List.nil_append, List.flatten_cons, List.append_assoc] at heq
      exact absurd ⟨_, heq.symm⟩ (hstop seq' (hseqs' _ List.mem_cons_self))
  | cons seq seqs ih =>
    have hseq := hseqs _ List.mem_cons_self
    rw [List.flatten_cons, List.append_assoc] at heq
    cases seqs' with
    | nil => exact absurd ⟨_, heq⟩ (hstop' seq hseq)
    | cons seq' seqs' =>
      rw [List.flatten_cons, List.append_assoc] at heq
      obtain ⟨rfl, htail⟩ := isSequence_prefix hseq (hseqs' _ List.mem_cons_self) heq
      obtain ⟨rfl, rfl⟩ := ih (fun s hs => hseqs s (List.mem_cons_of_mem _ hs))
        (fun s hs => hseqs' s (List.mem_cons_of_mem _ hs)) htail
      exact ⟨rfl, rfl⟩

/-- It is well formed when nothing is left. -/
theorem wellFormed_iff {string rest : Bytes} {seqs : List Bytes} (h : Splits string seqs rest) :
    WellFormed string ↔ rest = [] := by
  constructor
  · rintro ⟨seqs', hseqs', hstring⟩
    have h' : Splits string seqs' [] := by
      refine ⟨hseqs', by rwa [List.append_nil], fun seq hseq hpre => ?_⟩
      rw [List.prefix_nil] at hpre
      exact not_isSequence_nil (hpre ▸ hseq)
    exact (splits_unique h h').2
  · rintro rfl
    exact ⟨seqs, h.sequences, by rw [h.split, List.append_nil]⟩

/-! ## Where the loop stops -/

/-- Every branch but the one for `0xed` has the ranges of its row. -/
theorem tailRanges_eq_rowOf {lead : UInt8} (h : lead ≠ 0xed) : tailRanges lead = rowOf lead := by
  have hall : ∀ lead : UInt8, lead ≠ 0xed → tailRanges lead = rowOf lead :=
    forall_uint8 (by decide +kernel)
  exact hall lead h

theorem startsIn_append {ranges : List (UInt8 × UInt8)} {tail : Bytes} (h : InRanges ranges tail)
    (bytes : Bytes) : startsIn ranges (tail ++ bytes) = true := by
  induction h with
  | nil => rfl
  | cons hbyte _ ih => simpa [startsIn, inRange, ih] using hbyte

theorem exists_inRanges {ranges : List (UInt8 × UInt8)} {bytes : Bytes}
    (h : startsIn ranges bytes = true) : ∃ tail, InRanges ranges tail ∧ tail <+: bytes := by
  induction ranges generalizing bytes with
  | nil => exact ⟨[], .nil, List.nil_prefix⟩
  | cons range ranges ih =>
    cases bytes with
    | nil => cases h
    | cons byte bytes =>
      obtain ⟨hbyte, hbytes⟩ := Bool.and_eq_true_iff.1 h
      obtain ⟨tail, htail, hpre⟩ := ih hbytes
      refine ⟨byte :: tail, .cons ?_ htail, List.cons_prefix_cons.2 ⟨rfl, hpre⟩⟩
      simpa [inRange] using hbyte

/-- The loop goes past a sequence, unless its lead byte is `0xed`. -/
theorem validateString_sequence {seq : Bytes} (hseq : IsSequence seq)
    (hlead : seq.head? ≠ some 0xed) (bytes : Bytes) :
    validateString (seq ++ bytes) = validateString bytes := by
  obtain ⟨lead, tail, rfl⟩ := exists_cons_of_isSequence hseq
  obtain ⟨ranges, hrow, htail⟩ := isSequence_cons.1 hseq
  have hne : lead ≠ 0xed := fun h => hlead (congrArg some h)
  rw [List.cons_append, validateString_cons, tailRanges_eq_rowOf hne, hrow]
  dsimp only
  rw [if_pos (startsIn_append htail bytes), htail.length_eq, List.drop_left]

/-- No second byte is at least `0xa0` and at most `0x9f`. -/
theorem validateString_ed (bytes : Bytes) : validateString (0xed :: bytes) = 0xed :: bytes := by
  have hsecond : ∀ byte, inRange 0xa0 0x9f byte = false := forall_uint8 (by decide +kernel)
  have hnone : startsIn [(0xa0, 0x9f), (0x80, 0xbf)] bytes = false := by
    cases bytes with
    | nil => rfl
    | cons byte bytes => rw [startsIn, hsecond, Bool.false_and]
  have hrow : tailRanges 0xed = some [(0xa0, 0x9f), (0x80, 0xbf)] := by decide
  rw [validateString_cons, hrow]
  dsimp only
  rw [hnone, if_neg Bool.false_ne_true]

/-- It stops where no sequence starts. -/
theorem validateString_stop {rest : Bytes} (hstop : ∀ seq, IsSequence seq → ¬ seq <+: rest) :
    validateString rest = rest := by
  cases rest with
  | nil => rfl
  | cons lead bytes =>
    by_cases hed : lead = 0xed
    · rw [hed, validateString_ed]
    rw [validateString_cons, tailRanges_eq_rowOf hed]
    cases hrow : rowOf lead with
    | none => rfl
    | some ranges =>
      refine if_neg fun hstarts => ?_
      obtain ⟨tail, htail, hpre⟩ := exists_inRanges hstarts
      refine hstop (lead :: tail) (isSequence_cons.2 ⟨ranges, hrow, htail⟩) ?_
      exact List.cons_prefix_cons.2 ⟨rfl, hpre⟩

section Sequences

variable {seqs : List Bytes} (hseqs : ∀ seq ∈ seqs, IsSequence seq)

include hseqs

/-- It goes past any number of them. -/
theorem validateString_flatten (hlead : ∀ seq ∈ seqs, seq.head? ≠ some 0xed) (bytes : Bytes) :
    validateString (seqs.flatten ++ bytes) = validateString bytes := by
  induction seqs with
  | nil => rfl
  | cons seq seqs ih =>
    rw [List.forall_mem_cons] at hseqs hlead
    rw [List.flatten_cons, List.append_assoc, validateString_sequence hseqs.1 hlead.1]
    exact ih hseqs.2 hlead.2

/-- The loop stops at the first sequence that starts with `0xed`. -/
theorem length_lt_of_ed (hlead : ¬ ∀ seq ∈ seqs, seq.head? ≠ some 0xed) (bytes : Bytes) :
    bytes.length < (validateString (seqs.flatten ++ bytes)).length := by
  induction seqs with
  | nil => exact absurd (fun _ hnone => absurd hnone List.not_mem_nil) hlead
  | cons seq seqs ih =>
    rw [List.forall_mem_cons] at hseqs hlead
    rw [List.flatten_cons, List.append_assoc]
    by_cases hed : seq.head? = some 0xed
    · obtain ⟨tail, rfl⟩ := List.head?_eq_some_iff.1 hed
      rw [List.cons_append, validateString_ed]
      simp only [List.length_cons, List.length_append]
      omega
    · rw [validateString_sequence hseqs.1 hed]
      exact ih hseqs.2 fun hrest => hlead ⟨hed, hrest⟩

end Sequences

/-- **Where the loop stops.** At the end of the longest well-formed part, unless that part has a
sequence with the lead byte `0xed`. -/
theorem validateString_eq_iff {string rest : Bytes} {seqs : List Bytes}
    (h : Splits string seqs rest) :
    validateString string = rest ↔ ∀ seq ∈ seqs, seq.head? ≠ some 0xed := by
  obtain ⟨hseqs, rfl, hstop⟩ := h
  constructor
  · intro hrest
    by_contra hlead
    have hlt := length_lt_of_ed hseqs hlead rest
    rw [hrest] at hlt
    exact Nat.lt_irrefl _ hlt
  · intro hlead
    rw [validateString_flatten hseqs hlead, validateString_stop hstop]

/-! ## The check of a name -/

theorem throwIfNotValidUTF8_ok {string : Bytes} (bytes : Bytes) :
    throwIfNotValidUTF8 string bytes = .ok ((), bytes) ↔ validateString string = [] := by
  unfold throwIfNotValidUTF8
  rw [throwIf_eq_ok, bne_eq_false_iff_eq]
  exact and_iff_left rfl

theorem throwIfNotValidUTF8_error {string : Bytes} (bytes : Bytes) :
    throwIfNotValidUTF8 string bytes = .error (.fatalSerialization "invalid UTF-8 encoding") ↔
      validateString string ≠ [] := by
  unfold throwIfNotValidUTF8 throwIf
  by_cases hvalid : validateString string = []
  · rw [hvalid]
    exact iff_of_false (fun h => by cases h) (fun h => h rfl)
  · rw [if_pos (bne_iff_ne.2 hvalid)]
    exact iff_of_true rfl hvalid

/-- What the check is for: no read is out of bounds, the loop stops at the first ill-formed
sequence, at the end for the well-formed strings only, and a name is rejected unless it is
well-formed. -/
structure ChecksUtf8 (string : Bytes) : Prop where
  result : ∀ seqs rest, Splits string seqs rest →
    validateChecked string.length string = some rest
  end_iff : validateChecked string.length string = some [] ↔ WellFormed string
  accepted : ∀ bytes, throwIfNotValidUTF8 string bytes = .ok ((), bytes) ↔ WellFormed string
  rejected : ∀ bytes, throwIfNotValidUTF8 string bytes =
    .error (.fatalSerialization "invalid UTF-8 encoding") ↔ ¬ WellFormed string

/-- The check does that for the strings whose well-formed sequences, up to the first ill-formed one,
have no `0xed` in front. -/
theorem checksUtf8_iff (string : Bytes) :
    ChecksUtf8 string ↔
      ∀ seqs rest, Splits string seqs rest → ∀ seq ∈ seqs, seq.head? ≠ some 0xed := by
  have hchecked := validateChecked_eq (Nat.le_refl string.length)
  obtain ⟨seqs, rest, hsplits⟩ := exists_splits string
  have hwell := wellFormed_iff hsplits
  constructor
  · intro h seqs' rest' hsplits'
    have hresult := h.result seqs' rest' hsplits'
    exact (validateString_eq_iff hsplits').1 (Option.some.inj (hchecked.symm.trans hresult))
  · intro hlead
    have hrest := (validateString_eq_iff hsplits).2 (hlead seqs rest hsplits)
    refine ⟨fun seqs' rest' hsplits' => ?_, ?_, fun bytes => ?_, fun bytes => ?_⟩
    · rw [hchecked, (validateString_eq_iff hsplits').2 (hlead seqs' rest' hsplits')]
    · rw [hchecked, hrest, hwell]
      exact Option.some_inj
    · rw [throwIfNotValidUTF8_ok, hrest, hwell]
    · rw [throwIfNotValidUTF8_error, hrest, hwell]

/-- U+D000 is well-formed and is rejected. -/
theorem not_checksUtf8_hangul : ¬ ChecksUtf8 [0xed, 0x80, 0x80] := by
  intro h
  have hwell : WellFormed [0xed, 0x80, 0x80] := by
    refine ⟨[[0xed, 0x80, 0x80]], List.forall_mem_singleton.2 ?_, rfl⟩
    refine ⟨[(0xed, 0xed), (0x80, 0x9f), (0x80, 0xbf)], by decide, ?_⟩
    exact .cons (by decide) (.cons (by decide) (.cons (by decide) .nil))
  exact absurd (h.end_iff.2 hwell) (by decide)

end FractalWasm.Serialization
