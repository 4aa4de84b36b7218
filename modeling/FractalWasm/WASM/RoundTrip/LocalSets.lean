import FractalWasm.WASM.RoundTrip.Reencoding

/-!
# Local sets written again

A binary may spell the locals of a function in any sets it likes: empty ones, or several of one type
in a row. The encoder writes the longest runs. They are no more than the sets that were read, and
take no more bytes, because a number does not take more bytes than two it is the sum of.

**Sizes** (`numBytes`): how many bytes a number takes, which never goes down as the number goes up
and is subadditive.

**Runs** (`localSetsFrom_le`): by induction over the locals, with the run that is being counted as
the part still open.
-/

namespace FractalWasm.WASM

open Codec IR Serialization Serialization.Output WASM.Output

/-! ## The size of a number -/

/-- The bytes a 32-bit number takes. -/
def numBytes (value : Nat) : Nat := (varUIntBytes 5 value).length

theorem lt_pow_numBytes {value : Nat} (h : value < 2 ^ 32) : value < 128 ^ numBytes value := by
  have hlt : value < 128 ^ 5 := by omega
  have hpayload := varIntPayload_lt (varUIntBytes 5 value)
  rwa [varIntPayload_varUIntBytes hlt] at hpayload

theorem numBytes_pos (value : Nat) : 0 < numBytes value := by
  unfold numBytes varUIntBytes
  split <;> simp

theorem numBytes_le {value bound : Nat} (h : value < 128 ^ bound) (hpos : 0 < bound) :
    numBytes value ≤ bound := by
  obtain ⟨more, rfl⟩ := Nat.exists_eq_succ_of_ne_zero (Nat.ne_of_gt hpos)
  exact length_varUIntBytes_le h

theorem numBytes_add_le {value value' : Nat} (h : value + value' < 2 ^ 32) :
    numBytes (value + value') ≤ numBytes value + numBytes value' := by
  have hvalue : value + 1 ≤ 128 ^ numBytes value := lt_pow_numBytes (by omega)
  have hvalue' : value' + 1 ≤ 128 ^ numBytes value' := lt_pow_numBytes (by omega)
  have hpos := numBytes_pos value
  apply numBytes_le _ (by omega)
  calc value + value' < (value + 1) * (value' + 1) := by
        rw [Nat.add_mul, Nat.mul_add]
        omega
    _ ≤ 128 ^ numBytes value * 128 ^ numBytes value' := Nat.mul_le_mul hvalue hvalue'
    _ = 128 ^ (numBytes value + numBytes value') := (Nat.pow_add 128 _ _).symm

theorem serializeVarUInt32_eq {value : Nat} (h : value < 2 ^ 32) :
    serializeVarUInt32 value = .ok (varUIntBytes 5 value) :=
  if_neg (Nat.not_le.2 h)

/-! ## Runs -/

/-- The bytes of a set: its number and its type. -/
def setBytes (localSet : LocalSet) : Nat := numBytes localSet.num + 1

def setsBytes (localSets : List LocalSet) : Nat := (localSets.map setBytes).sum

/-- The run that is growing; there is none yet when its type is `any`. -/
def growing (localSet : LocalSet) : List LocalSet :=
  if localSet.type ≠ .any then [localSet] else []

theorem localSetsFrom_replicate (type : ValueType) (num count : Nat) (rest : List ValueType) :
    localSetsFrom ⟨num, type⟩ (List.replicate count type ++ rest) =
      localSetsFrom ⟨num + count, type⟩ rest := by
  induction count generalizing num with
  | zero => rfl
  | succ count ih =>
    rw [List.replicate_succ, List.cons_append, localSetsFrom, if_neg (not_not_intro rfl), ih,
      Nat.add_right_comm, Nat.add_assoc]

/-- Reading on behind a set of another type starts a new run. -/
theorem localSetsFrom_replicate_of_ne {localSet : LocalSet} {type : ValueType} {count : Nat}
    (hne : localSet.type ≠ type) (rest : List ValueType) :
    localSetsFrom localSet (List.replicate (count + 1) type ++ rest) =
      growing localSet ++ localSetsFrom ⟨count + 1, type⟩ rest := by
  rw [List.replicate_succ, List.cons_append, localSetsFrom, if_pos hne, localSetsFrom_replicate,
    Nat.add_comm 1 count]
  rfl

/-- The longest runs are no more than the sets they come from, and take no more bytes. -/
theorem localSetsFrom_le {read : List LocalSet} {localSet : LocalSet}
    (hany : .any ∉ localTypesOf read)
    (htotal : localSet.num + (localTypesOf read).length < 2 ^ 32) :
    (localSetsFrom localSet (localTypesOf read)).length ≤
        (growing localSet).length + read.length ∧
      setsBytes (localSetsFrom localSet (localTypesOf read)) ≤
        setsBytes (growing localSet) + setsBytes read := by
  induction read generalizing localSet with
  | nil => exact ⟨Nat.le_refl _, Nat.le_refl _⟩
  | cons first read ih =>
    obtain ⟨num, type⟩ := first
    have hcons : localTypesOf (⟨num, type⟩ :: read) =
        List.replicate num type ++ localTypesOf read := rfl
    have hbytes : setsBytes (⟨num, type⟩ :: read) = setBytes ⟨num, type⟩ + setsBytes read :=
      List.sum_cons
    rw [hcons, List.mem_append, not_or] at hany
    rw [hcons, List.length_append, List.length_replicate] at htotal
    rw [hcons, hbytes, List.length_cons]
    cases num with
    | zero =>
      have hrest := ih hany.2 (by omega : localSet.num + _ < _)
      rw [List.replicate_zero, List.nil_append]
      omega
    | succ num =>
      have htype : type ≠ .any := by
        intro h
        exact hany.1 (List.mem_replicate.2 ⟨Nat.succ_ne_zero num, h.symm⟩)
      by_cases hsame : localSet.type = type
      · obtain ⟨grown, type'⟩ := localSet
        obtain rfl : type' = type := hsame
        have hgrowing : ∀ count : Nat, growing ⟨count, type'⟩ = [⟨count, type'⟩] :=
          fun count => if_pos htype
        have hrest := @ih ⟨grown + (num + 1), type'⟩ hany.2 (by
          simp only at htotal ⊢
          omega)
        have hsum : numBytes (grown + (num + 1)) ≤ numBytes grown + numBytes (num + 1) :=
          numBytes_add_le (by simp only at htotal; omega)
        rw [localSetsFrom_replicate]
        simp only [hgrowing, setsBytes, List.map_cons, List.map_nil, List.sum_cons, List.sum_nil,
          setBytes, List.length_singleton] at hrest ⊢
        omega
      · have hgrowing : growing ⟨num + 1, type⟩ = [⟨num + 1, type⟩] := if_pos htype
        have hrest := @ih ⟨num + 1, type⟩ hany.2 (by
          simp only
          omega)
        rw [localSetsFrom_replicate_of_ne hsame, List.length_append]
        simp only [hgrowing, setsBytes, List.map_cons, List.map_nil, List.sum_cons, List.sum_nil,
          List.map_append, List.sum_append, List.length_singleton] at hrest ⊢
        omega

/-! ## Local sets of a body -/

/-- The sets that were read, their locals and their bytes. -/
theorem of_serializeLocalSets {numLocalSets localsAccum : Nat} {localTypes localTypes' : List ValueType}
    {bytes rest : Bytes} (haccum : localsAccum = localTypes.length * 4)
    (hle : localsAccum ≤ maximumFuncLocalBytes)
    (h : serializeLocalSets numLocalSets localsAccum localTypes bytes = .ok (localTypes', rest)) :
    ∃ read : List LocalSet, read.length = numLocalSets ∧
      localTypes' = localTypes ++ localTypesOf read ∧
      localTypes'.length * 4 ≤ maximumFuncLocalBytes ∧
      setsBytes read + rest.length ≤ bytes.length := by
  induction numLocalSets generalizing localsAccum localTypes bytes with
  | zero =>
    obtain ⟨rfl, rfl⟩ := pure_eq_ok.1 h
    exact ⟨[], rfl, (List.append_nil _).symm, by omega, by simp [setsBytes]⟩
  | succ numLocalSets ih =>
    obtain ⟨num, t₁, hnum, hrest⟩ := bind_eq_ok.1 h
    obtain ⟨type, t₂, htype, hrest⟩ := bind_eq_ok.1 hrest
    obtain ⟨u, t₃, hcheck, hrest⟩ := bind_eq_ok.1 hrest
    obtain ⟨hwithin, rfl⟩ := throwIf_eq_ok.1 hcheck
    have hwithin' : localsAccum + num * 4 ≤ maximumFuncLocalBytes := by simpa using hwithin
    have hlt : num < 2 ^ 32 := (returns_serializeVarUInt 32).holds hnum
    obtain ⟨out, hout, hlen⟩ := reencodes_serializeVarUInt32.fits hnum rfl
    rw [Writer.concat_singleton, serializeVarUInt32_eq hlt] at hout
    obtain rfl := Except.ok.inj hout
    have hconsumes : Reader.Consumes WASM.serializeValueType :=
      .bind (consumes_serializeVarInt (by decide)) fun _ => .pure _
    have htypelen := hconsumes.length_lt htype
    have haccum' : localsAccum + num * 4 = (localTypes ++ List.replicate num type).length * 4 := by
      rw [List.length_append, List.length_replicate]
      omega
    obtain ⟨read, hlength, htypes, htotal, hbytes⟩ := ih haccum' hwithin' hrest
    refine ⟨⟨num, type⟩ :: read, by rw [List.length_cons, hlength], ?_, htotal, ?_⟩
    · rw [htypes, List.append_assoc]
      rfl
    · have hsum : setsBytes (⟨num, type⟩ :: read) = numBytes num + 1 + setsBytes read :=
        List.sum_cons
      simp only [List.length_nil] at hlen
      unfold numBytes at hsum
      omega

theorem serializeValueType_eq {type : ValueType} (h : type.validate = .ok ()) :
    ∃ byte, Output.serializeValueType type = .ok [byte] := by
  cases type with
  | any => cases h
  | invalid byte hinvalid =>
    unfold ValueType.validate at h
    rw [if_pos (.inr hinvalid)] at h
    cases h
  | _ => exact ⟨_, rfl⟩

/-- The runs of valid locals can be written. -/
theorem concat_serializeLocalSet {localSets : List LocalSet}
    (hnum : ∀ localSet ∈ localSets, localSet.num < 2 ^ 32)
    (hvalid : ∀ localSet ∈ localSets, localSet.type.validate = .ok ()) :
    ∃ out, Writer.concat (localSets.map serializeLocalSet) = .ok out ∧
      out.length = setsBytes localSets := by
  induction localSets with
  | nil => exact ⟨[], rfl, rfl⟩
  | cons localSet localSets ih =>
    obtain ⟨out, hout, hlen⟩ := ih (fun s hs => hnum s (List.mem_cons_of_mem _ hs))
      fun s hs => hvalid s (List.mem_cons_of_mem _ hs)
    obtain ⟨byte, hbyte⟩ := serializeValueType_eq (hvalid localSet List.mem_cons_self)
    have hset : serializeLocalSet localSet = .ok (varUIntBytes 5 localSet.num ++ [byte]) := by
      rw [serializeLocalSet, serializeVarUInt32_eq (hnum localSet List.mem_cons_self), hbyte]
      rfl
    refine ⟨varUIntBytes 5 localSet.num ++ [byte] ++ out,
      Writer.concat_cons_eq_ok.2 ⟨_, out, hset, hout, rfl⟩, ?_⟩
    have hsum : setsBytes (localSet :: localSets) = numBytes localSet.num + 1 + setsBytes localSets :=
      List.sum_cons
    rw [hsum, List.length_append, List.length_append, hlen]
    rfl

theorem type_mem_of_localSetsFrom {localSet run : LocalSet} {localTypes : List ValueType}
    (h : run ∈ localSetsFrom localSet localTypes) :
    run.type = localSet.type ∧ localSet.type ≠ .any ∨ run.type ∈ localTypes := by
  have hgrowing : ∀ localSet : LocalSet, run ∈ growing localSet →
      run.type = localSet.type ∧ localSet.type ≠ .any := by
    intro localSet hrun
    unfold growing at hrun
    split at hrun
    · next hne =>
      rw [List.mem_singleton.1 hrun]
      exact ⟨rfl, hne⟩
    · exact absurd hrun List.not_mem_nil
  induction localTypes generalizing localSet with
  | nil => exact .inl (hgrowing localSet h)
  | cons localType localTypes ih =>
    unfold localSetsFrom at h
    split at h
    · rcases List.mem_append.1 h with hrun | hrun
      · exact .inl (hgrowing localSet hrun)
      · rcases ih hrun with ⟨htype, -⟩ | hmem
        · exact .inr (htype ▸ List.mem_cons_self)
        · exact .inr (List.mem_cons_of_mem _ hmem)
    · next hsame =>
      rcases ih h with ⟨htype, -⟩ | hmem
      · exact .inr (htype ▸ List.mem_cons_self)
      · exact .inr (List.mem_cons_of_mem _ hmem)

/-- A run is not longer than the locals. -/
theorem num_le_of_mem {localSets : List LocalSet} {run : LocalSet} (h : run ∈ localSets) :
    run.num ≤ (localTypesOf localSets).length := by
  obtain ⟨before, after, rfl⟩ := List.append_of_mem h
  simp only [localTypesOf, List.flatMap_append, List.flatMap_cons, List.length_append,
    List.length_replicate]
  omega

end FractalWasm.WASM
