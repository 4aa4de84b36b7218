import FractalWasm.WASM.RoundTrip.LocalSets

/-!
# Decoded bodies written again

A body that was decoded is one the encoder can write, in no more bytes than the decoder read for it.

The local sets that were read are written as the longest runs, which take no more bytes, and the
operators are written one by one (`rewritesCode_of_loop`). What a block's type can be follows from
the check of its operator (`blockType_of_visit`): a type the encoder cannot spell has been refused.
-/

namespace FractalWasm.WASM

open Codec IR Serialization

/-- The validator looks at the type of every control structure. -/
theorem blockType_of_visit {module : Module} {branchTables : List (List UInt32)} {op : Operator}
    {context context' : FunctionValidationContext}
    (h : FunctionValidationContext.visit module branchTables op context = .ok ((), context'))
    {resultType : ResultType} (htype : op.blockType? = some resultType) : resultType.toByte ≤ 4 := by
  have hvalid : resultType.validate = .ok () := by
    cases op with
    | block type | loop type | if_ type =>
      obtain rfl := Option.some.inj htype
      obtain ⟨u, t, hlift, -⟩ := bind_eq_ok.1 h
      exact (lift_eq_ok.1 hlift).1
    | _ => cases htype
  unfold ResultType.validate at hvalid
  split at hvalid
  · cases hvalid
  · next hle => exact UInt8.not_lt.1 hle

/-- A body the encoder writes in at most `numBodyBytes` bytes, which the decoder can read. -/
structure RewrittenBody (functionDef : FunctionDef) (numBodyBytes : Nat) : Prop where
  wellFormed : ∃ ops, WellFormedBody functionDef ops
  within : BodyWithin functionDef
  written : ∃ out, Output.serializeBody functionDef = .ok out ∧ out.length ≤ numBodyBytes

/-- The encoder writes the local sets of valid locals, and not in more bytes than they were read
from. -/
theorem writes_localSets {read : List Output.LocalSet}
    (htotal : (localTypesOf read).length * 4 ≤ maximumFuncLocalBytes)
    (hvalid : ∀ type ∈ localTypesOf read, type.validate = .ok ()) :
    .any ∉ localTypesOf read ∧
      (Output.localSets (localTypesOf read)).length ≤ read.length ∧
      ∃ out, Writer.concat ((Output.localSets (localTypesOf read)).map Output.serializeLocalSet) =
        .ok out ∧ out.length ≤ setsBytes read := by
  have hany : .any ∉ localTypesOf read := fun hmem => nomatch hvalid .any hmem
  have hlt : 0 + (localTypesOf read).length < 2 ^ 32 := by
    unfold maximumFuncLocalBytes at htotal
    omega
  have hle := @localSetsFrom_le read ⟨0, .any⟩ hany hlt
  have htypes := localTypesOf_localSets hany
  have hnum : ∀ run ∈ Output.localSets (localTypesOf read), run.num < 2 ^ 32 := by
    intro run hmem
    have hrun := num_le_of_mem hmem
    rw [htypes] at hrun
    omega
  have htype : ∀ run ∈ Output.localSets (localTypesOf read), run.type.validate = .ok () := by
    intro run hmem
    rcases type_mem_of_localSetsFrom hmem with ⟨-, hne⟩ | hmem
    · exact absurd rfl hne
    · exact hvalid run.type hmem
  obtain ⟨out, hout, hlength⟩ := concat_serializeLocalSet hnum htype
  refine ⟨hany, ?_, out, hout, ?_⟩
  · simpa [growing, Output.localSets] using hle.1
  · rw [hlength]
    simpa [growing, setsBytes, Output.localSets] using hle.2

/-- What the loop over the operators of a body has read can be written again. -/
theorem rewritesCode_of_loop {module : Module} {init : FunctionValidationContext}
    {state : BodyState} {bytes rest : Bytes} (hlt : bytes.length < 2 ^ 64)
    (h : Reader.loop (serializeOperator module) ⟨init, [], []⟩ bytes = .ok (state, rest)) :
    ∃ ops, RewritesCode bytes.length ops state rest ∧
      FunctionValidationContext.visitAll module state.branchTables ops init =
        .ok ((), state.context) := by
  have hinit : (∃ ops, RewritesCode bytes.length ops ⟨init, [], []⟩ bytes) ∧
      ∃ n, BodyState.HasRead module init n ⟨init, [], []⟩ := by
    refine ⟨⟨[], rfl, rfl, ?_, ?_, [], rfl, ?_⟩, 0, [], rfl, rfl, rfl⟩
    · exact fun branchTable hmem => absurd hmem List.not_mem_nil
    · simp
    · simp
  have hinv : (∃ ops, RewritesCode bytes.length ops state rest) ∧
      ∃ n, BodyState.HasRead module init n state := by
    apply Reader.loop_invariant (P := fun state left =>
      (∃ ops, RewritesCode bytes.length ops state left) ∧
        ∃ n, BodyState.HasRead module init n state) _ hinit h
    rintro state state' bytes' rest' ⟨⟨ops, hcode⟩, n, hread⟩ hstep
    obtain ⟨op, hcode'⟩ := hcode.step hlt hstep
    exact ⟨⟨ops ++ [op], hcode'⟩, n + 1, hread.step hstep⟩
  obtain ⟨⟨ops, hcode⟩, n, ops', -, hcode', hvisit⟩ := hinv
  obtain rfl : ops = ops' := encodeOps_injective (hcode.code.symm.trans hcode')
  exact ⟨ops, hcode, hvisit⟩

theorem rewrittenBody_of_serializeBody {module : Module} {functionDef functionDef' : FunctionDef}
    {bytes rest : Bytes} (hdeclaration : functionDef = declaration functionDef)
    (hlt : bytes.length < 2 ^ 32)
    (h : serializeBody module functionDef bytes.length bytes = .ok (functionDef', rest))
    (hvalid : ∀ type ∈ functionDef'.nonParameterLocalTypes, type.validate = .ok ()) :
    RewrittenBody functionDef' bytes.length := by
  obtain ⟨numLocalSets, t₁, hnum, h⟩ := bind_eq_ok.1 h
  obtain ⟨u, t₂, hsize, h⟩ := bind_eq_ok.1 h
  obtain ⟨hsize, rfl⟩ := throwIf_eq_ok.1 hsize
  obtain ⟨u, t₂, hsets, h⟩ := bind_eq_ok.1 h
  obtain ⟨hsets, rfl⟩ := throwIf_eq_ok.1 hsets
  obtain ⟨localTypes, t₂, hlocals, h⟩ := bind_eq_ok.1 h
  obtain ⟨state, t₃, hloop, h⟩ := bind_eq_ok.1 h
  obtain ⟨u, t₄, hfinish, h⟩ := bind_eq_ok.1 h
  obtain ⟨rfl, -⟩ := pure_eq_ok.1 h
  have hnumlt : numLocalSets < 1024 := by simpa using hsets
  have hsizelt : bytes.length < maximumCodeSize := by simpa using hsize
  rw [hdeclaration] at hlocals hloop
  -- The local sets.
  obtain ⟨read, rfl, htypes, htotal, hbytes⟩ :=
    @of_serializeLocalSets _ 0 [] _ _ _ rfl (Nat.zero_le _) hlocals
  obtain rfl : localTypes = localTypesOf read := htypes
  obtain ⟨hany, hcount, sets, hsetsw, hsetslen⟩ := writes_localSets htotal hvalid
  -- Their number.
  have hmin : Reencodes [] serializeVarUInt32 fun value => [Output.serializeVarUInt32
      (min value (Output.localSets (localTypesOf read)).length)] :=
    reencodes_serializeVarUInt_le (by decide) fun value => Nat.min_le_left _ _
  obtain ⟨count, hcountw, hcountlen⟩ := hmin.fits hnum rfl
  rw [Nat.min_eq_right hcount, Writer.concat_singleton] at hcountw
  -- The operators.
  have hlen₂ := (shrinks_serializeLocalSets _ _ _).length_le hlocals
  have hlen₁ := (shrinks_serializeVarUInt 32).length_le hnum
  obtain ⟨ops, hrewrites, hvisit⟩ := rewritesCode_of_loop (by omega) hloop
  obtain ⟨code, hcodew, hcodelen⟩ := hrewrites.written
  have hops : ops.length ≤ (encodeOps ops).length := by
    have := length_le_length_encodeOps ops
    omega
  have hwritten : ∃ out, Output.serializeBody { functionDef with
      nonParameterLocalTypes := localTypesOf read
      code := state.code
      branchTables := state.branchTables } = .ok out ∧ out.length ≤ bytes.length := by
    refine ⟨count ++ (sets ++ (code ++ [])), ?_, ?_⟩
    · refine Writer.concat_cons_eq_ok.2 ⟨count, _, hcountw, ?_, rfl⟩
      refine Writer.concat_cons_eq_ok.2 ⟨sets, _, hsetsw, ?_, rfl⟩
      refine Writer.concat_cons_eq_ok.2 ⟨code, [], ?_, rfl, rfl⟩
      rw [hrewrites.code, serializeCode_encodeOps _ hops, hcodew]
    · simp only [List.length_append, List.length_nil] at hcountlen hcodelen ⊢
      omega
  refine ⟨⟨ops, hrewrites.code, ?_, hrewrites.indices, hany⟩, ⟨?_, htotal, hrewrites.short, ?_⟩,
    hwritten⟩
  · have hall : ∀ op ∈ ops, ∀ resultType, op.blockType? = some resultType →
        resultType.toByte ≤ 4 := by
      refine FunctionValidationContext.forall_mem_of_visitAll ?_ hvisit
      intro op context context' hop resultType htype
      exact blockType_of_visit hop htype
    exact hall
  · exact Nat.lt_of_le_of_lt hcount hnumlt
  · intro bodyBytes hbody
    obtain ⟨out, hout, houtlen⟩ := hwritten
    rw [hout] at hbody
    obtain rfl := Except.ok.inj hbody
    omega

end FractalWasm.WASM
